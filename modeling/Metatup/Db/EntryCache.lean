import Metatup.Db.TentEntries
import Metatup.Lib.ParentTree

/-!
# The entry cache

Every entry that has been read is kept in one tree by its id, and in the tree of names of the directory
it is in. An entry is found by its id; where it is in memory is the id it was made for.

* `newEntry`, `resolveParent`, `rmEntry`: how an entry comes into the trees and out of them.
* `tupEntryAdd`, `tupEntryChangeNameDt`, `tupEntryClear`: the operations on the cache.
* `TreeOk`: both trees fit together, some entries apart whose parents have not been resolved.
* `newEntry_spec`, `resolveParent_spec`, `rmEntry_spec`: what keeps it so.
-/

namespace Metatup.Cache

open Lib

/-- Source: `entry.h` `struct tup_entry`, what keeps the entry in the trees. -/
structure CachedEntry where
  dt : TupId
  /-- The entry of the directory, once it is resolved. -/
  parent : Option TupId
  name : Text
  /-- The entries of the directory by their names. -/
  entries : List (Text × TupId)
  stickies : TentTree
  groupStickies : TentTree
  /-- In how many trees of entries this one is. -/
  refcount : ℤ

/-- The static variables of `entry.c` and `db.c` that hold entries, and the entries themselves. -/
structure EntryCache where
  tupRoot : RbTree TupId
  tents : TupId → CachedEntry
  ghostRoot : TentTree

/-- Source: `tupid_tree.c` `tupid_tree_cmp` -/
def tupidTreeCmp (i j : TupId) : ℤ := (i - j).bmod (2 ^ 32)

/-- Source: `string_tree.c` `string_tree_insert` -/
def stringTreeInsert (entries : List (Text × TupId)) (name : Text) (i : TupId) :
    Option (List (Text × TupId)) :=
  if name ∈ entries.map Prod.fst then none else some ((name, i) :: entries)

/-- Source: `string_tree.h` `string_tree_rm`; the node is removed, whatever its name is. -/
def stringTreeRm (entries : List (Text × TupId)) (i : TupId) : List (Text × TupId) :=
  entries.filter fun e => e.2 ≠ i

namespace EntryCache

/-- The entry, changed in its place. -/
def modify (c : EntryCache) (i : TupId) (f : CachedEntry → CachedEntry) : EntryCache :=
  { c with tents := Function.update c.tents i (f (c.tents i)) }

/-- Source: `tent_tree.c` `free_tent_tree`, for all that was in the trees -/
def delRefs (c : EntryCache) (ids : List TupId) : EntryCache :=
  ids.foldl (fun c i => c.modify i fun t => { t with refcount := t.refcount - 1 }) c

end EntryCache

/-- Source: `entry.c` `tup_entry_find` -/
def tupEntryFind (c : EntryCache) (i : TupId) : Option TupId := c.tupRoot.find tupidTreeCmp i

section

-- `compiles`: the name of an exclusion is a regular expression that compiles
variable (compiles : TupId → Text → Bool)

/-- `none` is the null pointer: nothing has changed. Source: `entry.c` `new_entry` -/
def newEntry (c : EntryCache) (i dt : TupId) (name : Text) : Option EntryCache :=
  if compiles dt name then
    (c.tupRoot.insert tupidTreeCmp i).map fun root =>
      { c with
        tupRoot := root
        tents := Function.update c.tents i ⟨dt, none, name, [], ∅, ∅, 0⟩ }
  else none

/-- The flag is off for the `-1` of an error. Source: `entry.c` `resolve_parent` -/
def resolveParent (c : EntryCache) (i : TupId) : Bool × EntryCache :=
  if (c.tents i).dt = 0 then (true, c.modify i fun t => { t with parent := none })
  else
    let parent := tupEntryFind c (c.tents i).dt
    let c := c.modify i fun t => { t with parent := parent }
    match parent with
    | none => (false, c)
    | some p =>
      match stringTreeInsert (c.tents p).entries (c.tents i).name i with
      | none => (false, c)
      | some entries => (true, c.modify p fun t => { t with entries := entries })

/-- The directory and the name of a node; `rows` is the database. Source: `db.c`
`tup_db_fill_tup_entry` -/
def fillTupEntry (rows : TupId → Option (TupId × Text)) (i : TupId) : Option (TupId × Text) :=
  if i = 0 then some (0, "{root}".toList) else rows i

/-- `none` where the calls do not end within so many steps. Source: `entry.c` `tup_entry_add` -/
def tupEntryAdd (rows : TupId → Option (TupId × Text)) :
    ℕ → EntryCache → TupId → Option (Bool × EntryCache)
  | 0, _, _ => none
  | fuel + 1, c, i =>
    if i < 0 then some (false, c)
    else if (tupEntryFind c i).isSome then some (true, c)
    else
      match fillTupEntry rows i with
      | none => some (false, c)
      | some (dt, name) =>
        match newEntry compiles c i dt name with
        | none => some (false, c)
        | some c =>
          match if 0 < dt then tupEntryAdd rows fuel c dt else some (true, c) with
          | none => none
          | some (false, c) => some (false, c)
          | some (true, c) => some (resolveParent c i)

/-- Source: `entry.c` `tup_entry_add_to_dir` -/
def tupEntryAddToDir (c : EntryCache) (dtent i : TupId) (name : Text) : Bool × EntryCache :=
  match newEntry compiles c i dtent name with
  | none => (false, c)
  | some c => resolveParent c i

/-- The loop over the rows. Source: `entry.c` `tup_entry_add_all` -/
def tupEntryAddAll : List (TupId × TupId × Text) → EntryCache → Bool × EntryCache
  | [], c => (true, c)
  | (i, dt, name) :: rows, c =>
    match newEntry compiles c i dt name with
    | none => (false, c)
    | some c => tupEntryAddAll rows c

end

/-- The loop of `tup_entry_resolve_dirs`. -/
def resolveDirs : List TupId → EntryCache → Bool × EntryCache
  | [], c => (true, c)
  | i :: ids, c =>
    let (ok, c) := resolveParent c i
    if ok then resolveDirs ids c else (false, c)

/-- Source: `entry.c` `tup_entry_resolve_dirs` -/
def tupEntryResolveDirs (c : EntryCache) : Bool × EntryCache := resolveDirs c.tupRoot.toList c

/-- Source: `db.c` `tup_db_del_ghost_tree` -/
def tupDbDelGhostTree (c : EntryCache) (i : TupId) : EntryCache :=
  if i ∈ c.ghostRoot then
    { c.delRefs [i] with ghostRoot := tentTreeRemove c.ghostRoot i }
  else c

/-- The trees of an entry that hold others are freed. -/
def freeStickies (c : EntryCache) (i : TupId) : EntryCache :=
  let held := (c.tents i).stickies.ids ++ (c.tents i).groupStickies.ids
  (c.modify i fun t => { t with stickies := ∅, groupStickies := ∅ }).delRefs held

/-- The entry leaves the tree of names it is in. -/
def unlinkName (c : EntryCache) (i : TupId) : EntryCache :=
  match (c.tents i).parent with
  | none => c
  | some p => c.modify p fun t => { t with entries := stringTreeRm t.entries i }

/-- Source: `entry.c` `rm_entry` -/
def rmEntry (c : EntryCache) (i : TupId) (safe : Bool) : Bool × EntryCache :=
  match tupEntryFind c i with
  | none => (true, c)
  | some t =>
    if (c.tents t).entries ≠ [] then (safe, c)
    else
      let c := tupDbDelGhostTree c t
      let c := { c with tupRoot := RbTree.remove tupidTreeCmp c.tupRoot i }
      let c := freeStickies (unlinkName c t) t
      ((c.tents t).refcount = 0, c)

/-- Source: `entry.c` `tup_entry_rm` -/
def tupEntryRm (c : EntryCache) (i : TupId) : Bool × EntryCache := rmEntry c i false

/-- Source: `entry.c` `change_name` -/
def changeName (c : EntryCache) (i : TupId) (newName : Text) : Bool × EntryCache :=
  let c := unlinkName c i
  let c := c.modify i fun t => { t with name := newName }
  resolveParent c i

/-- `none` where the program exits, since there is no such entry. Source: `entry.c`
`tup_entry_change_name_dt` -/
def tupEntryChangeNameDt (c : EntryCache) (i : TupId) (newName : Text) (newDt : TupId) :
    Option (Bool × EntryCache) :=
  (tupEntryFind c i).map fun t =>
    changeName (c.modify t fun t => { t with dt := newDt }) t newName

/-- One pass of `tup_entry_clear`; `RB_FOREACH_SAFE` has the next entry before one is removed. -/
def clearPass : List TupId → EntryCache → Bool × EntryCache
  | [], c => (true, c)
  | i :: ids, c =>
    let (ok, c) := rmEntry c i true
    if ok then clearPass ids c else (false, c)

/-- The outer loop of `tup_entry_clear`, so many times at most. -/
def clearLoop : ℕ → EntryCache → Option (Bool × EntryCache)
  | 0, _ => none
  | fuel + 1, c =>
    if c.tupRoot.toList = [] then some (true, c)
    else
      match clearPass c.tupRoot.toList c with
      | (false, c) => some (false, c)
      | (true, c) => clearLoop fuel c

/-- Source: `entry.c` `tup_entry_clear` -/
def tupEntryClear (fuel : ℕ) (c : EntryCache) : Option (Bool × EntryCache) :=
  clearLoop fuel (c.tupRoot.toList.foldl freeStickies c)

/-- Source: `entry.c` `tup_entry_find_name_in_dir` -/
def tupEntryFindNameInDir (c : EntryCache) (tent : TupId) (name : Text) : Option TupId :=
  ((c.tents tent).entries.find? fun e => e.1 = name).map Prod.snd

/-! ### What fits together -/

instance : Membership TupId EntryCache := ⟨fun c i => i ∈ c.tupRoot.toList⟩

namespace EntryCache

variable {c : EntryCache} {i j : TupId} {f : CachedEntry → CachedEntry}

theorem mem_def : i ∈ c ↔ i ∈ c.tupRoot.toList := Iff.rfl

@[simp] theorem modify_tupRoot : (c.modify i f).tupRoot = c.tupRoot := rfl

@[simp] theorem mem_modify : j ∈ c.modify i f ↔ j ∈ c := Iff.rfl

theorem modify_same : (c.modify i f).tents i = f (c.tents i) := Function.update_self i _ c.tents

theorem modify_ne (h : j ≠ i) : (c.modify i f).tents j = c.tents j := Function.update_of_ne h _ c.tents

open Classical in
/-- The parent of an entry that is cached and not among those to be resolved. -/
noncomputable def up (c : EntryCache) (pending : Set TupId) (i : TupId) : Option TupId :=
  if i ∈ c ∧ i ∉ pending then (c.tents i).parent else none

theorem up_eq_some_iff {pending : Set TupId} {p : TupId} :
    c.up pending i = some p ↔ i ∈ c ∧ i ∉ pending ∧ (c.tents i).parent = some p := by
  unfold up
  split
  · rename_i h
    exact ⟨fun hp => ⟨h.1, h.2, hp⟩, fun hp => hp.2.2⟩
  · rename_i h
    exact ⟨nofun, fun hp => absurd ⟨hp.1, hp.2.1⟩ h⟩

end EntryCache

/-- The trees hold the same: at most references have come or gone. -/
structure SameTree (c c' : EntryCache) : Prop where
  tupRoot : c'.tupRoot = c.tupRoot
  dt : ∀ i, (c'.tents i).dt = (c.tents i).dt
  parent : ∀ i, (c'.tents i).parent = (c.tents i).parent
  name : ∀ i, (c'.tents i).name = (c.tents i).name
  entries : ∀ i, (c'.tents i).entries = (c.tents i).entries

/-- The two trees fit together, where the parents of the pending entries have not been resolved. -/
structure TreeOk (s pending : Set TupId) (c : EntryCache) : Prop where
  sorted : c.tupRoot.toList.Pairwise (· < ·)
  ids : ∀ i ∈ c, i ∈ s
  linked : ∀ i ∈ c, i ∉ pending → (c.tents i).dt ≠ 0 →
    (c.tents i).parent = some (c.tents i).dt ∧ (c.tents i).dt ∈ c ∧
      ((c.tents i).name, i) ∈ (c.tents (c.tents i).dt).entries
  top : ∀ i ∈ c, i ∉ pending → (c.tents i).dt = 0 → (c.tents i).parent = none
  child : ∀ p ∈ c, ∀ e ∈ (c.tents p).entries, e.2 ∈ c ∧ e.2 ∉ pending ∧ (c.tents e.2).dt = p ∧
    p ≠ 0 ∧ (c.tents e.2).name = e.1
  names : ∀ p ∈ c, ((c.tents p).entries.map Prod.fst).Nodup
  ranked : ∃ rank, RankedBy (c.up pending) rank

section

variable {s pending : Set TupId} {c c' : EntryCache} {i dt : TupId} {name : Text}
  {compiles : TupId → Text → Bool}

/-! ### References -/

theorem SameTree.refl (c : EntryCache) : SameTree c c :=
  ⟨rfl, fun _ => rfl, fun _ => rfl, fun _ => rfl, fun _ => rfl⟩

theorem SameTree.trans {c'' : EntryCache} (h : SameTree c c') (h' : SameTree c' c'') : SameTree c c'' :=
  ⟨h'.tupRoot.trans h.tupRoot, fun i => (h'.dt i).trans (h.dt i),
    fun i => (h'.parent i).trans (h.parent i), fun i => (h'.name i).trans (h.name i),
    fun i => (h'.entries i).trans (h.entries i)⟩

theorem SameTree.modify (c : EntryCache) (i : TupId) {f : CachedEntry → CachedEntry}
    (hf : ∀ t, (f t).dt = t.dt ∧ (f t).parent = t.parent ∧ (f t).name = t.name ∧
      (f t).entries = t.entries) : SameTree c (c.modify i f) := by
  have hj : ∀ j, (c.modify i f).tents j = c.tents j ∨ (c.modify i f).tents j = f (c.tents j) := by
    intro j
    by_cases hij : j = i
    · subst hij
      exact .inr EntryCache.modify_same
    · exact .inl (EntryCache.modify_ne hij)
  have key : ∀ j, ((c.modify i f).tents j).dt = (c.tents j).dt ∧
      ((c.modify i f).tents j).parent = (c.tents j).parent ∧
      ((c.modify i f).tents j).name = (c.tents j).name ∧
      ((c.modify i f).tents j).entries = (c.tents j).entries := by
    intro j
    rcases hj j with h | h <;> rw [h]
    · exact ⟨rfl, rfl, rfl, rfl⟩
    · exact hf _
  exact ⟨rfl, fun j => (key j).1, fun j => (key j).2.1, fun j => (key j).2.2.1,
    fun j => (key j).2.2.2⟩

theorem SameTree.delRefs (c : EntryCache) (ids : List TupId) : SameTree c (c.delRefs ids) := by
  induction ids generalizing c with
  | nil => exact .refl c
  | cons i ids ih =>
    have hone : SameTree c (c.modify i fun t => { t with refcount := t.refcount - 1 }) :=
      .modify c i fun _ => ⟨rfl, rfl, rfl, rfl⟩
    exact hone.trans (ih _)

theorem SameTree.freeStickies (c : EntryCache) (i : TupId) : SameTree c (freeStickies c i) := by
  have hone : SameTree c (c.modify i fun t => { t with stickies := ∅, groupStickies := ∅ }) :=
    .modify c i fun _ => ⟨rfl, rfl, rfl, rfl⟩
  exact hone.trans (.delRefs _ _)

theorem SameTree.tupDbDelGhostTree (c : EntryCache) (i : TupId) :
    SameTree c (tupDbDelGhostTree c i) := by
  unfold Cache.tupDbDelGhostTree
  split
  · have h := SameTree.delRefs c [i]
    exact ⟨h.tupRoot, h.dt, h.parent, h.name, h.entries⟩
  · exact .refl c

theorem SameTree.mem_iff (h : SameTree c c') (i : TupId) : i ∈ c' ↔ i ∈ c := by
  rw [EntryCache.mem_def, h.tupRoot, EntryCache.mem_def]

theorem SameTree.up_eq (h : SameTree c c') (pending : Set TupId) : c'.up pending = c.up pending := by
  funext i
  refine Option.ext fun p => ?_
  rw [EntryCache.up_eq_some_iff, EntryCache.up_eq_some_iff, h.mem_iff, h.parent]

theorem SameTree.treeOk (h : SameTree c c') (hc : TreeOk s pending c) : TreeOk s pending c' where
  sorted := by rw [h.tupRoot]; exact hc.sorted
  ids i hi := hc.ids i ((h.mem_iff i).1 hi)
  linked i hi hp hdt := by
    rw [h.dt] at hdt
    rw [h.parent, h.dt, h.name, h.entries, h.mem_iff]
    exact hc.linked i ((h.mem_iff i).1 hi) hp hdt
  top i hi hp hdt := by
    rw [h.dt] at hdt
    rw [h.parent]
    exact hc.top i ((h.mem_iff i).1 hi) hp hdt
  child p hp e he := by
    rw [h.entries] at he
    rw [h.dt, h.name, h.mem_iff]
    exact hc.child p ((h.mem_iff p).1 hp) e he
  names p hp := by
    rw [h.entries]
    exact hc.names p ((h.mem_iff p).1 hp)
  ranked := by
    rw [h.up_eq]
    exact hc.ranked

/-! ### New entries -/

theorem tupEntryFind_eq (hs : RbTree.Agrees tupidTreeCmp s) (h : TreeOk s pending c) (hi : i ∈ s) :
    tupEntryFind c i = if i ∈ c.tupRoot.toList then some i else none :=
  RbTree.find_eq hs hi h.ids h.sorted

theorem tupEntryFind_of_mem (hs : RbTree.Agrees tupidTreeCmp s) (h : TreeOk s pending c) (hi : i ∈ c) :
    tupEntryFind c i = some i :=
  (tupEntryFind_eq hs h (h.ids i hi)).trans (if_pos hi)

theorem newEntry_eq_none (hs : RbTree.Agrees tupidTreeCmp s) (h : TreeOk s pending c)
    (hno : i ∈ c ∨ compiles dt name = false) : newEntry compiles c i dt name = none := by
  unfold newEntry
  split
  · rename_i hcomp
    have hi := hno.resolve_right (by simp [hcomp])
    have hins := RbTree.toList_insert hs (h.ids i hi) h.ids h.sorted
    rw [if_pos (EntryCache.mem_def.1 hi), Option.map_eq_none_iff] at hins
    rw [hins, Option.map_none]
  · rfl

/-- The fields of an entry that was made just now. -/
theorem newEntry_spec (hs : RbTree.Agrees tupidTreeCmp s) (h : TreeOk s pending c) (hi : i ∈ s)
    (hnew : i ∉ c) (hcomp : compiles dt name = true) :
    ∃ c', newEntry compiles c i dt name = some c' ∧ TreeOk s (insert i pending) c' ∧
      (∀ j, j ∈ c' ↔ j = i ∨ j ∈ c) ∧
      c'.tents = Function.update c.tents i ⟨dt, none, name, [], ∅, ∅, 0⟩ := by
  have hins := RbTree.toList_insert hs hi h.ids h.sorted
  rw [if_neg (EntryCache.mem_def.not.1 hnew)] at hins
  obtain ⟨root, hroot, hlist⟩ := Option.map_eq_some_iff.1 hins
  refine ⟨_, by rw [newEntry, if_pos hcomp, hroot, Option.map_some], ?_⟩
  set c' : EntryCache :=
    { c with tupRoot := root, tents := Function.update c.tents i ⟨dt, none, name, [], ∅, ∅, 0⟩ } with hc'
  have hmem : ∀ j, j ∈ c' ↔ j = i ∨ j ∈ c := by
    intro j
    rw [EntryCache.mem_def, hlist, List.mem_orderedInsert, EntryCache.mem_def]
  have hsame : c'.tents i = ⟨dt, none, name, [], ∅, ∅, 0⟩ := Function.update_self i _ c.tents
  have hother : ∀ j, j ≠ i → c'.tents j = c.tents j := fun j hj => Function.update_of_ne hj _ c.tents
  have hold : ∀ j, j ∈ c' → j ∉ insert i pending → j ≠ i ∧ j ∈ c ∧ j ∉ pending := by
    intro j hj hp
    obtain ⟨hne, hp⟩ := not_or.1 hp
    exact ⟨hne, ((hmem j).1 hj).resolve_left hne, hp⟩
  refine ⟨⟨?_, fun j hj => ?_, fun j hj hp hdt => ?_, fun j hj hp hdt => ?_, fun p hp e he => ?_,
    fun p hp => ?_, ?_⟩, hmem, rfl⟩
  · rw [hlist]
    exact orderedInsert_sorted h.sorted hnew
  · rcases (hmem j).1 hj with rfl | hj
    · exact hi
    · exact h.ids j hj
  · obtain ⟨hne, hj, hp⟩ := hold j hj hp
    rw [hother j hne] at hdt ⊢
    obtain ⟨hparent, hmemDt, hentry⟩ := h.linked j hj hp hdt
    have hdti : (c.tents j).dt ≠ i := fun heq => hnew (heq ▸ hmemDt)
    rw [hother _ hdti]
    exact ⟨hparent, (hmem _).2 (.inr hmemDt), hentry⟩
  · obtain ⟨hne, hj, hp⟩ := hold j hj hp
    rw [hother j hne] at hdt ⊢
    exact h.top j hj hp hdt
  · by_cases hpi : p = i
    · rw [hpi, hsame] at he
      exact absurd he List.not_mem_nil
    rw [hother p hpi] at he
    obtain ⟨hin, hpend, hdt, hp0, hname⟩ := h.child p (((hmem p).1 hp).resolve_left hpi) e he
    have hne : e.2 ≠ i := fun heq => hnew (heq ▸ hin)
    rw [hother _ hne]
    exact ⟨(hmem _).2 (.inr hin), fun hmem => (hmem.resolve_left hne |> hpend), hdt, hp0, hname⟩
  · by_cases hpi : p = i
    · rw [hpi, hsame]
      exact List.nodup_nil
    rw [hother p hpi]
    exact h.names p (((hmem p).1 hp).resolve_left hpi)
  · obtain ⟨rank, hrank⟩ := h.ranked
    refine ⟨rank, fun a b hab => ?_⟩
    obtain ⟨ha, hp, hparent⟩ := EntryCache.up_eq_some_iff.1 hab
    obtain ⟨hne, ha, hp⟩ := hold a ha hp
    rw [hother a hne] at hparent
    exact hrank a b (EntryCache.up_eq_some_iff.2 ⟨ha, hp, hparent⟩)

/-! ### Parents -/

/-- The parents after one more entry has been resolved. -/
theorem up_diff_singleton {i p : TupId} (hroot : c'.tupRoot = c.tupRoot)
    (hself : (c'.tents i).parent = some p)
    (hother : ∀ j, j ≠ i → (c'.tents j).parent = (c.tents j).parent) {x y : TupId}
    (h : c'.up (pending \ {i}) x = some y) : c.up pending x = some y ∨ x = i ∧ y = p := by
  obtain ⟨hx, hp, hparent⟩ := EntryCache.up_eq_some_iff.1 h
  by_cases hxi : x = i
  · rw [hxi, hself] at hparent
    exact .inr ⟨hxi, (Option.some.inj hparent).symm⟩
  · rw [hother x hxi] at hparent
    rw [EntryCache.mem_def, hroot] at hx
    exact .inl (EntryCache.up_eq_some_iff.2 ⟨hx, fun hmem => hp ⟨hmem, hxi⟩, hparent⟩)

/-- An entry without a directory. -/
theorem resolveParent_top (h : TreeOk s pending c) (hi : i ∈ c) (hpend : i ∈ pending)
    (hdt : (c.tents i).dt = 0) :
    resolveParent c i = (true, c.modify i fun t => { t with parent := none }) ∧
      TreeOk s (pending \ {i}) (c.modify i fun t => { t with parent := none }) := by
  refine ⟨by rw [resolveParent, if_pos hdt], ?_⟩
  set c' := c.modify i fun t => { t with parent := none } with hc'
  have hself : c'.tents i = { c.tents i with parent := none } := EntryCache.modify_same
  have hother : ∀ j, j ≠ i → c'.tents j = c.tents j := fun j hj => EntryCache.modify_ne hj
  have hfields : ∀ j, (c'.tents j).dt = (c.tents j).dt ∧ (c'.tents j).name = (c.tents j).name ∧
      (c'.tents j).entries = (c.tents j).entries := by
    intro j
    by_cases hj : j = i
    · subst hj
      rw [hself]
      exact ⟨rfl, rfl, rfl⟩
    · rw [hother j hj]
      exact ⟨rfl, rfl, rfl⟩
  have hpending : ∀ j, j ≠ i → j ∉ pending \ {i} → j ∉ pending := fun j hj hp hmem => hp ⟨hmem, hj⟩
  refine ⟨h.sorted, h.ids, fun j hj hp hdtj => ?_, fun j hj hp hdtj => ?_, fun p hp e he => ?_,
    fun p hp => ?_, ?_⟩
  · rw [(hfields j).1] at hdtj ⊢
    have hji : j ≠ i := fun hji => hdtj (hji ▸ hdt)
    rw [(hfields j).2.1, (hfields _).2.2, hother j hji]
    exact h.linked j hj (hpending j hji hp) hdtj
  · by_cases hji : j = i
    · rw [hji, hself]
    · rw [hother j hji] at hdtj ⊢
      exact h.top j hj (hpending j hji hp) hdtj
  · rw [(hfields p).2.2] at he
    obtain ⟨hin, hnp, hrest⟩ := h.child p hp e he
    rw [(hfields _).1, (hfields _).2.1]
    exact ⟨hin, fun hmem => hnp hmem.1, hrest⟩
  · rw [(hfields p).2.2]
    exact h.names p hp
  · obtain ⟨rank, hrank⟩ := h.ranked
    refine ⟨rank, fun a b hab => hrank a b ?_⟩
    obtain ⟨ha, hp, hparent⟩ := EntryCache.up_eq_some_iff.1 hab
    have hai : a ≠ i := by
      rintro rfl
      rw [hself] at hparent
      exact absurd hparent nofun
    rw [hother a hai] at hparent
    exact EntryCache.up_eq_some_iff.2 ⟨ha, hpending a hai hp, hparent⟩

/-- The cache after an entry has been put into its directory `p`. -/
def intoDir (c : EntryCache) (i p : TupId) : EntryCache :=
  (c.modify i fun t => { t with parent := some p }).modify p fun t =>
    { t with entries := ((c.tents i).name, i) :: t.entries }

/-- An entry whose directory is cached and has no entry of this name. -/
theorem resolveParent_dir (hs : RbTree.Agrees tupidTreeCmp s) (h : TreeOk s pending c) (hi : i ∈ c)
    (hpend : i ∈ pending) (hdt0 : (c.tents i).dt ≠ 0) (hdt : (c.tents i).dt ∈ c)
    (hname : (c.tents i).name ∉ (c.tents (c.tents i).dt).entries.map Prod.fst)
    (habove : ¬ Above (c.up pending) (c.tents i).dt i) :
    resolveParent c i = (true, intoDir c i (c.tents i).dt) ∧
      TreeOk s (pending \ {i}) (intoDir c i (c.tents i).dt) := by
  set p := (c.tents i).dt with hp
  have hpi : p ≠ i := by
    intro heq
    rw [heq] at habove
    exact habove .refl
  have hdir : ((c.modify i fun t => { t with parent := some p }).tents p) = c.tents p :=
    EntryCache.modify_ne hpi
  have hit : (c.modify i fun t => { t with parent := some p }).tents i =
      { c.tents i with parent := some p } := EntryCache.modify_same
  refine ⟨?_, ?_⟩
  · rw [resolveParent, if_neg hdt0, ← hp, tupEntryFind_of_mem hs h hdt]
    dsimp only
    rw [hdir, hit, stringTreeInsert, if_neg hname]
    dsimp only
    unfold intoDir EntryCache.modify
    dsimp only
    rw [Function.update_of_ne hpi]
  have hself : (intoDir c i p).tents i = { c.tents i with parent := some p } :=
    (EntryCache.modify_ne hpi.symm).trans hit
  have hdir' : (intoDir c i p).tents p =
      { c.tents p with entries := ((c.tents i).name, i) :: (c.tents p).entries } := by
    rw [intoDir, EntryCache.modify_same, hdir]
  have hother : ∀ j, j ≠ i → j ≠ p → (intoDir c i p).tents j = c.tents j := fun j hji hjp =>
    (EntryCache.modify_ne hjp).trans (EntryCache.modify_ne hji)
  have hfields : ∀ j, ((intoDir c i p).tents j).dt = (c.tents j).dt ∧
      ((intoDir c i p).tents j).name = (c.tents j).name ∧
      (j ≠ p → ((intoDir c i p).tents j).entries = (c.tents j).entries) ∧
      (j ≠ i → ((intoDir c i p).tents j).parent = (c.tents j).parent) := by
    intro j
    by_cases hji : j = i
    · subst hji
      rw [hself]
      exact ⟨rfl, rfl, fun _ => rfl, fun hne => absurd rfl hne⟩
    · by_cases hjp : j = p
      · rw [hjp, hdir']
        exact ⟨rfl, rfl, fun hne => absurd rfl hne, fun _ => rfl⟩
      · rw [hother j hji hjp]
        exact ⟨rfl, rfl, fun _ => rfl, fun _ => rfl⟩
  have hentries : ∀ j e, e ∈ ((intoDir c i p).tents j).entries ↔
      e ∈ (c.tents j).entries ∨ j = p ∧ e = ((c.tents i).name, i) := by
    intro j e
    by_cases hjp : j = p
    · rw [hjp, hdir', List.mem_cons]
      exact ⟨fun he => he.symm.imp_right fun he => ⟨rfl, he⟩, fun he => he.symm.imp_left And.right⟩
    · rw [(hfields j).2.2.1 hjp]
      exact ⟨.inl, fun he => he.resolve_right fun hand => hjp hand.1⟩
  have hpending : ∀ j, j ≠ i → j ∉ pending \ {i} → j ∉ pending := fun j hj hp hmem => hp ⟨hmem, hj⟩
  refine ⟨h.sorted, h.ids, fun j hj hpj hdtj => ?_, fun j hj hpj hdtj => ?_, fun q hq e he => ?_,
    fun q hq => ?_, ?_⟩
  · rw [(hfields j).1] at hdtj ⊢
    rw [(hfields j).2.1]
    by_cases hji : j = i
    · subst hji
      rw [hself]
      exact ⟨rfl, hdt, (hentries _ _).2 (.inr ⟨rfl, rfl⟩)⟩
    · obtain ⟨hparent, hmem, hentry⟩ := h.linked j hj (hpending j hji hpj) hdtj
      rw [(hfields j).2.2.2 hji]
      exact ⟨hparent, hmem, (hentries _ _).2 (.inl hentry)⟩
  · rw [(hfields j).1] at hdtj
    have hji : j ≠ i := fun hji => hdt0 (hp.trans (hji ▸ hdtj))
    rw [(hfields j).2.2.2 hji]
    exact h.top j hj (hpending j hji hpj) hdtj
  · rw [(hfields _).1, (hfields _).2.1]
    rcases (hentries q e).1 he with he | ⟨rfl, rfl⟩
    · obtain ⟨hin, hnp, hrest⟩ := h.child q hq e he
      exact ⟨hin, fun hmem => hnp hmem.1, hrest⟩
    · exact ⟨hi, fun hmem => hmem.2 rfl, rfl, hdt0, rfl⟩
  · by_cases hqp : q = p
    · rw [hqp, hdir']
      exact List.nodup_cons.2 ⟨hname, h.names p hdt⟩
    · rw [(hfields q).2.2.1 hqp]
      exact h.names q hq
  · obtain ⟨rank, hrank⟩ := h.ranked
    obtain ⟨rank', hrank', hlt⟩ := hrank.raise habove
    refine ⟨rank', fun a b hab => ?_⟩
    have hparent : ((intoDir c i p).tents i).parent = some p := by rw [hself]
    have hold : c.up pending a = some b ∨ a = i ∧ b = p :=
      up_diff_singleton (show (intoDir c i p).tupRoot = c.tupRoot from rfl) hparent
        (fun j hj => (hfields j).2.2.2 hj) hab
    rcases hold with hold | ⟨rfl, rfl⟩
    · exact hrank' a b hold
    · exact hlt

/-! ### Leaving the trees -/

theorem mem_stringTreeRm {entries : List (Text × TupId)} {e : Text × TupId} :
    e ∈ stringTreeRm entries i ↔ e ∈ entries ∧ e.2 ≠ i := by
  rw [stringTreeRm, List.mem_filter, decide_eq_true_iff]

/-- An entry is taken out of its directory, whatever becomes of its name and its directory. -/
theorem TreeOk.detach (h : TreeOk s ∅ c) (hroot : c'.tupRoot = c.tupRoot)
    (hdt : ∀ j, j ≠ i → (c'.tents j).dt = (c.tents j).dt)
    (hname : ∀ j, j ≠ i → (c'.tents j).name = (c.tents j).name)
    (hparent : ∀ j, j ≠ i → (c'.tents j).parent = (c.tents j).parent)
    (hentries : ∀ p ∈ c, (c'.tents p).entries = stringTreeRm (c.tents p).entries i) :
    TreeOk s {i} c' := by
  have hmem : ∀ j, j ∈ c' ↔ j ∈ c := fun j => by rw [EntryCache.mem_def, hroot, EntryCache.mem_def]
  refine ⟨hroot ▸ h.sorted, fun j hj => h.ids j ((hmem j).1 hj), fun j hj hji hdtj => ?_,
    fun j hj hji hdtj => ?_, fun p hp e he => ?_, fun p hp => ?_, ?_⟩
  · rw [hmem] at hj
    rw [hdt j hji] at hdtj ⊢
    obtain ⟨hpar, hin, hentry⟩ := h.linked j hj (Set.notMem_empty j) hdtj
    rw [hparent j hji, hname j hji, hmem, hentries _ hin, mem_stringTreeRm]
    exact ⟨hpar, hin, hentry, hji⟩
  · rw [hdt j hji] at hdtj
    rw [hparent j hji]
    exact h.top j ((hmem j).1 hj) (Set.notMem_empty j) hdtj
  · rw [hmem] at hp
    rw [hentries p hp, mem_stringTreeRm] at he
    obtain ⟨hin, -, hrest⟩ := h.child p hp e he.1
    rw [hmem, hdt _ he.2, hname _ he.2]
    exact ⟨hin, he.2, hrest⟩
  · rw [hmem] at hp
    rw [hentries p hp]
    exact (h.names p hp).sublist (List.filter_sublist.map _)
  · obtain ⟨rank, hrank⟩ := h.ranked
    refine ⟨rank, fun a b hab => hrank a b ?_⟩
    obtain ⟨ha, hai, hpar⟩ := EntryCache.up_eq_some_iff.1 hab
    rw [hparent a hai] at hpar
    exact EntryCache.up_eq_some_iff.2 ⟨(hmem a).1 ha, Set.notMem_empty a, hpar⟩

/-- A pending entry that has no children is forgotten. -/
theorem TreeOk.drop (h : TreeOk s {i} c) (hleaf : (c.tents i).entries = [])
    (hmem : ∀ j, j ∈ c' ↔ j ∈ c ∧ j ≠ i) (hsorted : c'.tupRoot.toList.Pairwise (· < ·))
    (htents : c'.tents = c.tents) : TreeOk s ∅ c' := by
  refine ⟨hsorted, fun j hj => h.ids j ((hmem j).1 hj).1, fun j hj _ hdtj => ?_, fun j hj _ hdtj => ?_,
    fun p hp e he => ?_, fun p hp => ?_, ?_⟩
  · obtain ⟨hj, hji⟩ := (hmem j).1 hj
    rw [htents] at hdtj ⊢
    obtain ⟨hpar, hin, hentry⟩ := h.linked j hj hji hdtj
    refine ⟨hpar, (hmem _).2 ⟨hin, fun heq => ?_⟩, hentry⟩
    rw [heq, hleaf] at hentry
    exact List.not_mem_nil hentry
  · obtain ⟨hj, hji⟩ := (hmem j).1 hj
    rw [htents] at hdtj ⊢
    exact h.top j hj hji hdtj
  · rw [htents] at he ⊢
    obtain ⟨hin, hei, hrest⟩ := h.child p ((hmem p).1 hp).1 e he
    exact ⟨(hmem _).2 ⟨hin, hei⟩, Set.notMem_empty _, hrest⟩
  · rw [htents]
    exact h.names p ((hmem p).1 hp).1
  · obtain ⟨rank, hrank⟩ := h.ranked
    refine ⟨rank, fun a b hab => hrank a b ?_⟩
    obtain ⟨ha, -, hpar⟩ := EntryCache.up_eq_some_iff.1 hab
    rw [htents] at hpar
    exact EntryCache.up_eq_some_iff.2 ⟨((hmem a).1 ha).1, ((hmem a).1 ha).2, hpar⟩

/-- What is left of an entry in the cache after `unlinkName`. -/
theorem unlinkName_fields (c' : EntryCache) (h : TreeOk s ∅ c) (hi : i ∈ c)
    (hparent : (c'.tents i).parent = (c.tents i).parent)
    (hentries : ∀ j, (c'.tents j).entries = (c.tents j).entries) :
    (unlinkName c' i).tupRoot = c'.tupRoot ∧ (unlinkName c' i).ghostRoot = c'.ghostRoot ∧
      (∀ p ∈ c, ((unlinkName c' i).tents p).entries = stringTreeRm (c.tents p).entries i) ∧
      ∀ j, (unlinkName c' i).tents j =
        { c'.tents j with entries := ((unlinkName c' i).tents j).entries } := by
  have hother : ∀ p ∈ c, (∀ n, (n, i) ∉ (c.tents p).entries) →
      stringTreeRm (c.tents p).entries i = (c.tents p).entries := by
    intro p _ hno
    refine List.filter_eq_self.2 fun e he => decide_eq_true fun hei => hno e.1 ?_
    rw [← hei]
    exact he
  unfold unlinkName
  rw [hparent]
  split
  · rename_i htop
    refine ⟨rfl, rfl, fun p hp => ?_, fun j => rfl⟩
    rw [hentries, hother p hp]
    intro n hn
    obtain ⟨-, -, hdt, hp0, -⟩ := h.child p hp _ hn
    have hlinked := (h.linked i hi (Set.notMem_empty i) (hdt ▸ hp0)).1
    exact absurd (htop.symm.trans hlinked) nofun
  · rename_i q hq
    refine ⟨rfl, rfl, fun p hp => ?_, fun j => ?_⟩
    · by_cases hpq : p = q
      · subst hpq
        rw [EntryCache.modify_same, hentries]
      · rw [EntryCache.modify_ne hpq, hentries, hother p hp]
        intro n hn
        obtain ⟨-, -, hdt, hp0, -⟩ := h.child p hp _ hn
        have hlinked := (h.linked i hi (Set.notMem_empty i) (hdt ▸ hp0)).1
        rw [hq, Option.some.injEq] at hlinked
        exact hpq (hdt.symm.trans hlinked.symm)
    · by_cases hjq : j = q
      · subst hjq
        rw [EntryCache.modify_same]
      · rw [EntryCache.modify_ne hjq]

/-- What `rmEntry` does to an entry without children. -/
theorem rmEntry_leaf (hs : RbTree.Agrees tupidTreeCmp s) (h : TreeOk s ∅ c) (hi : i ∈ c) (safe : Bool)
    (hleaf : (c.tents i).entries = []) :
    TreeOk s ∅ (rmEntry c i safe).2 ∧ (∀ j, j ∈ (rmEntry c i safe).2 ↔ j ∈ c ∧ j ≠ i) ∧
      ∀ p ∈ c, ((rmEntry c i safe).2.tents p).entries = stringTreeRm (c.tents p).entries i := by
  have hfind := tupEntryFind_of_mem hs h hi
  unfold rmEntry
  rw [hfind]
  dsimp only
  rw [if_neg (by simp [hleaf])]
  set c₁ := tupDbDelGhostTree c i with hc₁
  have hsame : SameTree c c₁ := .tupDbDelGhostTree c i
  set c₂ : EntryCache := { c₁ with tupRoot := RbTree.remove tupidTreeCmp c₁.tupRoot i } with hc₂
  obtain ⟨-, -, hentries, htents⟩ := unlinkName_fields c₂ h hi (hsame.parent i) hsame.entries
  have hroot₂ : (unlinkName c₂ i).tupRoot = RbTree.remove tupidTreeCmp c.tupRoot i := by
    unfold unlinkName
    rw [← hsame.tupRoot]
    split <;> rfl
  -- the entry is detached and then forgotten
  have hdetached : TreeOk s {i} { unlinkName c₂ i with tupRoot := c.tupRoot } := by
    refine h.detach rfl (fun j _ => ?_) (fun j _ => ?_) (fun j _ => ?_) hentries
    · show ((unlinkName c₂ i).tents j).dt = _
      rw [htents]
      exact hsame.dt j
    · show ((unlinkName c₂ i).tents j).name = _
      rw [htents]
      exact hsame.name j
    · show ((unlinkName c₂ i).tents j).parent = _
      rw [htents]
      exact hsame.parent j
  have hlist : (unlinkName c₂ i).tupRoot.toList = c.tupRoot.toList.erase i := by
    rw [hroot₂]
    exact RbTree.toList_remove hs (h.ids i hi) h.ids h.sorted
  have hnodup : c.tupRoot.toList.Nodup := h.sorted.imp fun hlt => hlt.ne
  have hmem : ∀ j, j ∈ unlinkName c₂ i ↔ j ∈ c ∧ j ≠ i := by
    intro j
    rw [EntryCache.mem_def, hlist, hnodup.mem_erase_iff, and_comm, EntryCache.mem_def]
  have hleaf' : ((unlinkName c₂ i).tents i).entries = [] := by
    rw [hentries i hi, hleaf]
    rfl
  have hdropped : TreeOk s ∅ (unlinkName c₂ i) :=
    hdetached.drop hleaf' hmem (hlist ▸ h.sorted.sublist List.erase_sublist) rfl
  have hfree : SameTree (unlinkName c₂ i) (freeStickies (unlinkName c₂ i) i) := .freeStickies _ i
  refine ⟨hfree.treeOk hdropped, fun j => (hfree.mem_iff j).trans (hmem j), fun p hp => ?_⟩
  rw [hfree.entries, hentries p hp]

/-- An entry is removed, or nothing changes. -/
theorem rmEntry_spec (hs : RbTree.Agrees tupidTreeCmp s) (h : TreeOk s ∅ c) (hi : i ∈ s)
    (safe : Bool) : TreeOk s ∅ (rmEntry c i safe).2 := by
  by_cases hmem : i ∈ c
  · by_cases hleaf : (c.tents i).entries = []
    · exact (rmEntry_leaf hs h hmem safe hleaf).1
    · rw [rmEntry, tupEntryFind_of_mem hs h hmem]
      dsimp only
      rw [if_pos hleaf]
      exact h
  · rw [rmEntry, tupEntryFind_eq hs h hi, if_neg (EntryCache.mem_def.not.1 hmem)]
    exact h

end

end Metatup.Cache
