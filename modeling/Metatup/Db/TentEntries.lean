import Mathlib.Algebra.Group.Nat.Defs
import Mathlib.Algebra.Order.Group.Unbundled.Int
import Mathlib.Data.Finset.Basic
import Metatup.Db.TentTree
import Metatup.Lib.RbTree

/-!
# Trees of entries as red-black trees

A `struct tent_entries` with its nodes, and the comparison that orders them, which is the low half
of the difference of two ids. Two trees are walked side by side by the ids themselves.

* `Refines`: the tree holds what a `TentTree` holds.
* `Exact`: searches find what has been added, and the walk over two trees finds their difference.
* `tentEntries_exact_iff`: it is so as long as the comparison is that of the ids.
-/

namespace Metatup

open Lib

/-! ### The tree -/

/-- Source: `tent_tree.c` `tent_tree_cmp`; an `int` keeps the low 32 bits of the difference. -/
def tentTreeCmp (i j : TupId) : ℤ := (i - j).bmod (2 ^ 32)

/-- Source: `tent_tree.h` `struct tent_entries`, with the ids of the entries. -/
abbrev TentEntries := RbTree TupId

namespace TentEntries

/-- Source: `tent_tree.c` `tent_tree_add`; `none` is the `-1` of a duplicate. -/
def add (t : TentEntries) (i : TupId) : Option TentEntries := t.insert tentTreeCmp i

/-- Source: `tent_tree.c` `tent_tree_add_dup` -/
def addDup (t : TentEntries) (i : TupId) : TentEntries := (t.insert tentTreeCmp i).getD t

/-- Source: `tent_tree.c` `tent_tree_search` -/
def search (t : TentEntries) (i : TupId) : Option TupId := t.find tentTreeCmp i

/-- Source: `tent_tree.c` `tent_tree_remove` -/
def remove (t : TentEntries) (i : TupId) : TentEntries := RbTree.remove tentTreeCmp t i

end TentEntries

section

variable {σ : Type*}

theorem length_next_lt (c : Cursor TupId) :
    (Cursor.toList c.next).length < (Cursor.toList (some c)).length := by
  rw [Cursor.toList_next]
  simp [Cursor.toList]

/-- The loop of `compare_tent_trees`; `extraA` and `extraB` are the callbacks. -/
def compareEntriesLoop (extraA extraB : σ → TupId → Option σ) :
    Option (Cursor TupId) → Option (Cursor TupId) → σ → Option σ
  | none, none, s => some s
  | none, some b, s => do compareEntriesLoop extraA extraB none b.next (← extraB s b.x)
  | some a, none, s => do compareEntriesLoop extraA extraB a.next none (← extraA s a.x)
  | some a, some b, s =>
    if a.x = b.x then compareEntriesLoop extraA extraB a.next b.next s
    else if a.x < b.x then do compareEntriesLoop extraA extraB a.next (some b) (← extraA s a.x)
    else do compareEntriesLoop extraA extraB (some a) b.next (← extraB s b.x)
termination_by a b => (Cursor.toList a).length + (Cursor.toList b).length
decreasing_by
  · have := length_next_lt b
    omega
  · have := length_next_lt a
    omega
  · have := length_next_lt a
    have := length_next_lt b
    omega
  · have := length_next_lt a
    omega
  · have := length_next_lt b
    omega

/-- Source: `db.c` `compare_tent_trees` -/
def compareEntries (a b : TentEntries) (extraA extraB : σ → TupId → Option σ) (s : σ) : Option σ :=
  compareEntriesLoop extraA extraB a.min b.min s

/-- The walk over two trees is that over their lists. -/
theorem compareEntriesLoop_eq (extraA extraB : σ → TupId → Option σ) (a b : Option (Cursor TupId))
    (s : σ) : compareEntriesLoop extraA extraB a b s =
      compareTentTreesLoop extraA extraB (Cursor.toList a) (Cursor.toList b) s := by
  have hsome : ∀ c : Cursor TupId, Cursor.toList (some c) = c.x :: Cursor.toList c.next := by
    intro c
    rw [Cursor.toList_next]
    rfl
  have hnone : Cursor.toList (none : Option (Cursor TupId)) = [] := rfl
  induction a, b, s using compareEntriesLoop.induct with
  | case1 s => rw [compareEntriesLoop, hnone, compareTentTreesLoop]
  | case2 b s ih =>
    rw [compareEntriesLoop, hsome b, hnone, compareTentTreesLoop]
    congr 1
    funext s'
    exact ih s'
  | case3 a s ih =>
    rw [compareEntriesLoop, hsome a, hnone, compareTentTreesLoop]
    congr 1
    funext s'
    exact ih s'
  | case4 a b s heq ih =>
    rw [compareEntriesLoop, if_pos heq, ih, hsome a, hsome b, compareTentTreesLoop, if_pos heq]
  | case5 a b s hne hlt ih =>
    rw [compareEntriesLoop, if_neg hne, if_pos hlt, hsome a, hsome b, compareTentTreesLoop,
      if_neg hne, if_pos hlt, ← hsome b]
    congr 1
    funext s'
    exact ih s'
  | case6 a b s hne hlt ih =>
    rw [compareEntriesLoop, if_neg hne, if_neg hlt, hsome a, hsome b, compareTentTreesLoop,
      if_neg hne, if_neg hlt, ← hsome a]
    congr 1
    funext s'
    exact ih s'

end

/-! ### What a tree is for -/

/-- A step in the life of a tree. -/
inductive TreeOp
  | add (i : TupId)
  | addDup (i : TupId)
  | remove (i : TupId)

/-- The entry it is about. -/
def TreeOp.tent : TreeOp → TupId
  | .add i => i
  | .addDup i => i
  | .remove i => i

/-- One step; a duplicate that is refused changes nothing. -/
def TreeOp.run (t : TentEntries) : TreeOp → TentEntries
  | .add i => (t.add i).getD t
  | .addDup i => t.addDup i
  | .remove i => t.remove i

/-- The tree that these steps build. -/
def buildTree (ops : List TreeOp) : TentEntries := ops.foldl TreeOp.run .nil

/-- The entries that have been added and not removed. -/
def added (ops : List TreeOp) : Finset TupId :=
  ops.foldl (fun s op => match op with
    | .add i => insert i s
    | .addDup i => insert i s
    | .remove i => s.erase i) ∅

/-- The calls for the entries of one set that the other does not have, in increasing order. -/
structure DiffCalls (a b : Finset TupId) (calls : List (TupId ⊕ TupId)) : Prop where
  sorted : (calls.map (Sum.elim id id)).Pairwise (· < ·)
  extraA : ∀ i, .inl i ∈ calls ↔ i ∈ a ∧ i ∉ b
  extraB : ∀ i, .inr i ∈ calls ↔ i ∈ b ∧ i ∉ a

/-- Trees of these entries do what they are for. -/
structure Exact (s : Set TupId) : Prop where
  search : ∀ ops : List TreeOp, (∀ op ∈ ops, op.tent ∈ s) → ∀ i ∈ s,
    (buildTree ops).search i = if i ∈ added ops then some i else none
  compare : ∀ opsA opsB : List TreeOp, (∀ op ∈ opsA ++ opsB, op.tent ∈ s) →
    ∃ calls, DiffCalls (added opsA) (added opsB) calls ∧
      ∀ (σ : Type) (extraA extraB : σ → TupId → Option σ) (x : σ),
        compareEntries (buildTree opsA) (buildTree opsB) extraA extraB x =
          calls.foldlM (onDiff extraA extraB) x

/-! ### Trees whose comparison is right -/

/-- The tree holds the same entries. -/
def Refines (t : TentEntries) (u : TentTree) : Prop := t.toList = u.ids

section

variable {s : Set TupId} {t : TentEntries} {u : TentTree} {i : TupId}

theorem Refines.search (hc : RbTree.Agrees tentTreeCmp s) (hu : ∀ j ∈ u, j ∈ s) (h : Refines t u)
    (hi : i ∈ s) : t.search i = if i ∈ u then some i else none := by
  unfold Refines at h
  rw [TentEntries.search, RbTree.find_eq hc hi (h ▸ hu) (h ▸ u.sorted), h]
  rfl

theorem Refines.insert (hc : RbTree.Agrees tentTreeCmp s) (hu : ∀ j ∈ u, j ∈ s) (h : Refines t u)
    (hi : i ∈ s) : Refines ((t.insert tentTreeCmp i).getD t) (tentTreeAddDup u i) := by
  have hins := RbTree.toList_insert hc hi (h ▸ hu) (h ▸ u.sorted)
  unfold Refines at h ⊢
  rw [h] at hins
  unfold tentTreeAddDup
  split
  · next hmem =>
    rw [if_pos hmem, Option.map_eq_none_iff] at hins
    rw [hins]
    exact h
  · next hmem =>
    rw [if_neg hmem] at hins
    obtain ⟨t', ht', hlist⟩ := Option.map_eq_some_iff.1 hins
    rw [ht']
    exact hlist

theorem Refines.remove (hc : RbTree.Agrees tentTreeCmp s) (hu : ∀ j ∈ u, j ∈ s) (h : Refines t u)
    (hi : i ∈ s) : Refines (t.remove i) (tentTreeRemove u i) := by
  have hrem := RbTree.toList_remove hc hi (h ▸ hu) (h ▸ u.sorted)
  unfold Refines at h ⊢
  rw [h] at hrem
  exact hrem

/-- Every tree that is built refines one with the entries that have been added. -/
theorem exists_refines (hc : RbTree.Agrees tentTreeCmp s) {ops : List TreeOp}
    (hops : ∀ op ∈ ops, op.tent ∈ s) :
    ∃ u : TentTree, Refines (buildTree ops) u ∧ (∀ i, i ∈ u ↔ i ∈ added ops) ∧ ∀ i ∈ u, i ∈ s := by
  induction ops using List.reverseRecOn with
  | nil => exact ⟨∅, rfl, by simp [added], by simp⟩
  | append_singleton ops op ih =>
    obtain ⟨u, hu, hmem, hs⟩ := ih fun x hx => hops x (List.mem_append_left _ hx)
    have hop : op.tent ∈ s := hops op (by simp)
    have hdup : ∀ i ∈ s, ∀ j ∈ tentTreeAddDup u i, j ∈ s := by
      intro i hi j hj
      rcases mem_tentTreeAddDup.1 hj with rfl | hj
      · exact hi
      · exact hs j hj
    unfold buildTree added at *
    rw [List.foldl_append, List.foldl_append]
    cases op with
    | add i =>
      refine ⟨tentTreeAddDup u i, hu.insert hc hs hop, fun j => ?_, hdup i hop⟩
      simp [hmem]
    | addDup i =>
      refine ⟨tentTreeAddDup u i, hu.insert hc hs hop, fun j => ?_, hdup i hop⟩
      simp [hmem]
    | remove i =>
      refine ⟨tentTreeRemove u i, hu.remove hc hs hop, fun j => ?_, fun j hj => ?_⟩
      · simp [hmem]
      · exact hs j (mem_tentTreeRemove.1 hj).2

/-- The walk over two trees goes through their difference. -/
theorem Refines.compareEntries {σ : Type} {ta tb : TentEntries} {a b : TentTree} (ha : Refines ta a)
    (hb : Refines tb b) (extraA extraB : σ → TupId → Option σ) (x : σ) :
    compareEntries ta tb extraA extraB x = (diff a.ids b.ids).foldlM (onDiff extraA extraB) x := by
  rw [Metatup.compareEntries, compareEntriesLoop_eq, RbTree.toList_min, RbTree.toList_min, ha, hb,
    compareTentTreesLoop_eq]

theorem exact_of_agrees (hc : RbTree.Agrees tentTreeCmp s) : Exact s where
  search ops hops i hi := by
    obtain ⟨u, hu, hmem, hs⟩ := exists_refines hc hops
    rw [hu.search hc hs hi]
    simp only [hmem]
  compare opsA opsB hops := by
    obtain ⟨a, ha, hmemA, -⟩ := exists_refines hc fun op hop => hops op (List.mem_append_left _ hop)
    obtain ⟨b, hb, hmemB, -⟩ := exists_refines hc fun op hop => hops op (List.mem_append_right _ hop)
    have hmem := mem_diff a.sorted b.sorted
    refine ⟨diff a.ids b.ids, ⟨diff_sorted a.sorted b.sorted, fun i => ?_, fun i => ?_⟩,
      fun σ extraA extraB x => ha.compareEntries hb extraA extraB x⟩
    · rw [hmem, ← hmemA, ← hmemB]
      rfl
    · rw [hmem, ← hmemA, ← hmemB]
      rfl

/-! ### Trees whose comparison is wrong -/

/-- The ids that the walk calls back for. -/
theorem foldlM_onDiff_trace (calls : List (TupId ⊕ TupId)) (l : List TupId) :
    calls.foldlM (onDiff (fun l i => some (l ++ [i])) fun l i => some (l ++ [i])) l =
      some (l ++ calls.map (Sum.elim id id)) := by
  induction calls generalizing l with
  | nil => simp
  | cons z calls ih =>
    cases z <;> simp [onDiff, ih]

/-- The walk over a tree and an empty one is that over the tree. -/
theorem sorted_of_exact (h : Exact s) {ops : List TreeOp} (hops : ∀ op ∈ ops, op.tent ∈ s) :
    (buildTree ops).toList.Pairwise (· < ·) := by
  obtain ⟨calls, hcalls, hcompare⟩ := h.compare ops [] (by simpa using hops)
  have htrace := hcompare (List TupId) (fun l i => some (l ++ [i])) (fun l i => some (l ++ [i])) []
  have hwalk : (diff (buildTree ops).toList []).map (Sum.elim id id) = (buildTree ops).toList := by
    cases (buildTree ops).toList <;> simp [diff]
  have hempty : (buildTree []).toList = [] := rfl
  rw [compareEntries, compareEntriesLoop_eq, RbTree.toList_min, RbTree.toList_min, hempty,
    compareTentTreesLoop_eq, foldlM_onDiff_trace, foldlM_onDiff_trace, hwalk] at htrace
  have hlist := Option.some.inj htrace
  rw [List.nil_append, List.nil_append] at hlist
  rw [hlist]
  exact hcalls.sorted

/-- Two ids that are not compared as they should spoil a tree. -/
theorem cmp_pos_of_exact (h : Exact s) {i j : TupId} (hi : i ∈ s) (hj : j ∈ s) (hlt : i < j) :
    0 < tentTreeCmp j i := by
  rcases lt_trichotomy (tentTreeCmp j i) 0 with hneg | hzero | hpos
  · -- the greater one comes to the left
    have hsorted : (buildTree [.add i, .add j]).toList.Pairwise (· < ·) :=
      sorted_of_exact h (by simp [TreeOp.tent, hi, hj])
    have hlist : (buildTree [.add i, .add j]).toList = [j, i] := by
      simp [buildTree, TreeOp.run, TentEntries.add, RbTree.insert, RbTree.insertAt,
        RbTree.insertColor, RbTree.zip, RbTree.plug, RbTree.setColor, RbTree.toList, hneg]
    rw [hlist] at hsorted
    have hji : j < i := by simpa using hsorted
    exact absurd hlt hji.not_gt
  · -- a search for one finds the other
    have hsearch := h.search [.add i] (by simp [TreeOp.tent, hi]) j hj
    have hfound : (buildTree [.add i]).search j = some i := by
      simp [buildTree, TreeOp.run, TentEntries.add, TentEntries.search, RbTree.insert,
        RbTree.insertAt, RbTree.insertColor, RbTree.zip, RbTree.setColor, RbTree.find, hzero]
    rw [hfound] at hsearch
    simp [added, hlt.ne'] at hsearch
  · exact hpos

/-- What the low half of a difference has to be. -/
theorem agrees_iff : RbTree.Agrees tentTreeCmp s ↔
    ∀ i ∈ s, ∀ j ∈ s, i < j → 0 < (j - i).bmod (2 ^ 32) := by
  constructor
  · exact fun h i hi j hj hlt => (h.gt j hj i hi).2 hlt
  · intro h
    have key : ∀ i ∈ s, ∀ j ∈ s, i < j → 0 < tentTreeCmp j i ∧ tentTreeCmp i j < 0 := by
      intro i hi j hj hlt
      have hpos := h i hi j hj hlt
      refine ⟨hpos, ?_⟩
      unfold tentTreeCmp
      unfold Int.bmod at hpos ⊢
      dsimp only at hpos ⊢
      split at hpos <;> split <;> omega
    have hself : ∀ i : TupId, tentTreeCmp i i = 0 := by
      intro i
      simp [tentTreeCmp]
    refine ⟨fun a ha b hb => ?_, fun a ha b hb => ?_⟩
    · rcases lt_trichotomy a b with hlt | rfl | hgt
      · exact iff_of_true (key a ha b hb hlt).2 hlt
      · simp [hself]
      · exact iff_of_false (key b hb a ha hgt).1.not_gt hgt.not_gt
    · rcases lt_trichotomy a b with hlt | rfl | hgt
      · exact iff_of_false (key a ha b hb hlt).2.not_gt hlt.not_gt
      · simp [hself]
      · exact iff_of_true (key b hb a ha hgt).1 hgt

end

/-- Trees of entries with these ids do what they are for exactly when the low 32 bits of the
difference of two of them, as an `int`, are positive when the difference is. -/
theorem tentEntries_exact_iff (s : Set TupId) :
    Exact s ↔ ∀ i ∈ s, ∀ j ∈ s, i < j → 0 < (j - i).bmod (2 ^ 32) :=
  ⟨fun h _ hi _ hj hlt => cmp_pos_of_exact h hi hj hlt, fun h => exact_of_agrees (agrees_iff.2 h)⟩

/-- A search among 64-bit ids finds another entry. -/
theorem far_entries_not_exact : ¬ Exact {i | -2 ^ 63 ≤ i ∧ i < 2 ^ 63} := by
  intro h
  have hsearch := h.search [.add 1] (by simp [TreeOp.tent]) (2 ^ 32 + 1) (by simp)
  have hfound : (buildTree [.add 1]).search (2 ^ 32 + 1) = some 1 := by decide
  rw [hfound] at hsearch
  exact absurd hsearch (by decide)

end Metatup
