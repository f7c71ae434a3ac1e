import Mathlib.Data.List.Nodup
import Mathlib.Data.List.Sort
import Metatup.Entry
import Metatup.Lib.Merge

/-!
# Trees of entries

A `struct tent_entries` is a red-black tree of entries that is walked in the order of their ids. It
is kept as the increasing list of those ids; the ids of one database are taken to be so close to
each other that the comparison of two of them fits an `int`.

* `mem_tentTreeAddDup`, `mem_tentTreeRemove`: the tree operations as set operations.
* `compareTentTrees_eq`: the walk over two trees is a loop over their difference.
-/

namespace Metatup

/-- Source: `tent_tree.h` `struct tent_entries`. -/
structure TentTree where
  /-- The ids of the entries, in the order of the walk. -/
  ids : List TupId
  sorted : ids.Pairwise (· < ·)
  deriving DecidableEq

namespace TentTree

/-- Source: `tent_tree.h` `TENT_ENTRIES_INITIALIZER`. -/
def empty : TentTree := ⟨[], .nil⟩

instance : EmptyCollection TentTree := ⟨empty⟩

instance : Membership TupId TentTree := ⟨fun t i => i ∈ t.ids⟩

instance (i : TupId) (t : TentTree) : Decidable (i ∈ t) := inferInstanceAs (Decidable (i ∈ t.ids))

theorem mem_def {t : TentTree} {i : TupId} : i ∈ t ↔ i ∈ t.ids := .rfl

@[simp] theorem not_mem_empty (i : TupId) : i ∉ (∅ : TentTree) := List.not_mem_nil

theorem nodup (t : TentTree) : t.ids.Nodup := t.sorted.imp fun h => h.ne

/-- Two trees with the same members are the same. -/
theorem ext_mem {s t : TentTree} (h : ∀ i, i ∈ s ↔ i ∈ t) : s = t := by
  obtain ⟨a, ha⟩ := s
  obtain ⟨b, hb⟩ := t
  have hperm : a.Perm b := (List.perm_ext_iff_of_nodup (ha.imp fun h => h.ne)
    (hb.imp fun h => h.ne)).2 h
  have : a = b := hperm.eq_of_pairwise (fun x y _ _ hxy hyx => absurd hyx hxy.not_gt) ha hb
  subst this
  rfl

end TentTree

variable {t : TentTree} {i j : TupId}

theorem orderedInsert_sorted {l : List TupId} (h : l.Pairwise (· < ·)) (hi : i ∉ l) :
    (l.orderedInsert (· ≤ ·) i).Pairwise (· < ·) := by
  have hle : (l.orderedInsert (· ≤ ·) i).Pairwise (· ≤ ·) := (h.imp fun h => h.le).orderedInsert i l
  have hnd : (l.orderedInsert (· ≤ ·) i).Nodup :=
    (List.perm_orderedInsert (· ≤ ·) i l).nodup_iff.2 (List.nodup_cons.2 ⟨hi, h.imp fun h => h.ne⟩)
  exact hle.imp₂ (fun _ _ h1 h2 => lt_of_le_of_ne h1 h2) hnd

/-- Source: `tent_tree.c` `tent_tree_search`, as a test. -/
def tentTreeSearch (t : TentTree) (i : TupId) : Bool := t.ids.contains i

/-- Source: `tent_tree.c` `tent_tree_add_dup`. -/
def tentTreeAddDup (t : TentTree) (i : TupId) : TentTree :=
  if h : i ∈ t.ids then t else ⟨t.ids.orderedInsert (· ≤ ·) i, orderedInsert_sorted t.sorted h⟩

/-- Source: `tent_tree.c` `tent_tree_add`; `none` is the `-1` of a duplicate. -/
def tentTreeAdd (t : TentTree) (i : TupId) : Option TentTree :=
  if tentTreeSearch t i then none else some (tentTreeAddDup t i)

/-- Source: `tent_tree.c` `tent_tree_remove`. -/
def tentTreeRemove (t : TentTree) (i : TupId) : TentTree :=
  ⟨t.ids.erase i, t.sorted.sublist List.erase_sublist⟩

@[simp] theorem tentTreeSearch_eq : tentTreeSearch t i = decide (i ∈ t) := by
  rw [Bool.eq_iff_iff]
  simp [tentTreeSearch, TentTree.mem_def]

@[simp] theorem mem_tentTreeAddDup : j ∈ tentTreeAddDup t i ↔ j = i ∨ j ∈ t := by
  unfold tentTreeAddDup
  split
  · next h =>
    refine ⟨.inr, ?_⟩
    rintro (rfl | hj)
    · exact h
    · exact hj
  · simp [TentTree.mem_def, List.mem_orderedInsert]

@[simp] theorem mem_tentTreeRemove : j ∈ tentTreeRemove t i ↔ j ≠ i ∧ j ∈ t :=
  t.nodup.mem_erase_iff

theorem tentTreeAdd_of_not_mem (h : i ∉ t) : tentTreeAdd t i = some (tentTreeAddDup t i) := by
  simp [tentTreeAdd, h]

/-! ### Walking two trees -/

variable {σ : Type*}

/-- The loop of `compare_tent_trees` over what is left of the two walks. -/
def compareTentTreesLoop (extraA extraB : σ → TupId → Option σ) :
    List TupId → List TupId → σ → Option σ
  | [], [], s => some s
  | [], y :: b, s => do compareTentTreesLoop extraA extraB [] b (← extraB s y)
  | x :: a, [], s => do compareTentTreesLoop extraA extraB a [] (← extraA s x)
  | x :: a, y :: b, s =>
    if x = y then compareTentTreesLoop extraA extraB a b s
    else if x < y then do compareTentTreesLoop extraA extraB a (y :: b) (← extraA s x)
    else do compareTentTreesLoop extraA extraB (x :: a) b (← extraB s y)
termination_by a b => a.length + b.length

/-- Source: `db.c` `compare_tent_trees`. The callbacks work on a state, and `none` is a `-1`. A null
callback is one that does nothing. -/
def compareTentTrees (a b : TentTree) (extraA extraB : σ → TupId → Option σ) (s : σ) : Option σ :=
  compareTentTreesLoop extraA extraB a.ids b.ids s

/-- What the callback for an element of the difference does. -/
def onDiff (extraA extraB : σ → TupId → Option σ) (s : σ) (z : TupId ⊕ TupId) : Option σ :=
  z.elim (extraA s) (extraB s)

theorem compareTentTreesLoop_eq (extraA extraB : σ → TupId → Option σ) (a b : List TupId) (s : σ) :
    compareTentTreesLoop extraA extraB a b s = (Lib.diff a b).foldlM (onDiff extraA extraB) s := by
  induction a, b, s using compareTentTreesLoop.induct with
  | case1 s => simp [compareTentTreesLoop, Lib.diff]
  | case2 y b s ih =>
    rw [compareTentTreesLoop, Lib.diff, List.map_cons, List.foldlM_cons]
    congr 1
    funext s'
    rw [ih s', Lib.diff]
  | case3 x a s ih =>
    rw [compareTentTreesLoop, Lib.diff, List.map_cons, List.foldlM_cons]
    congr 1
    funext s'
    rw [ih s']
    cases a <;> simp [Lib.diff]
  | case4 a x b s ih => rw [compareTentTreesLoop, Lib.diff, if_pos rfl, if_pos rfl, ih]
  | case5 x a y b s hne hlt ih =>
    rw [compareTentTreesLoop, Lib.diff, if_neg hne, if_neg hne, if_pos hlt, if_pos hlt,
      List.foldlM_cons]
    congr 1
    funext s'
    exact ih s'
  | case6 x a y b s hne hlt ih =>
    rw [compareTentTreesLoop, Lib.diff, if_neg hne, if_neg hne, if_neg hlt, if_neg hlt,
      List.foldlM_cons]
    congr 1
    funext s'
    exact ih s'

/-- The walk calls back once for each element of the difference, in order. -/
theorem compareTentTrees_eq (a b : TentTree) (extraA extraB : σ → TupId → Option σ) (s : σ) :
    compareTentTrees a b extraA extraB s =
      (Lib.diff a.ids b.ids).foldlM (onDiff extraA extraB) s :=
  compareTentTreesLoop_eq extraA extraB a.ids b.ids s

end Metatup
