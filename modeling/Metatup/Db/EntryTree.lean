import Metatup.Db.EntryCache
import Metatup.Lib.Keyed

/-!
# The entry cache over whole runs

Entries are added, renamed, moved and removed, and the whole cache is cleared. An operation that fails
in the middle leaves an entry that is cached and in no tree of names.

* `WellFormed`: every cached entry is in the tree of names of its directory, and nowhere else.
* `Addable`, `MoveFits`, `Clearable`: the arguments for which an operation does not fail in the middle.
* `wellFormed_of_cacheRun`: with such arguments the cache is well formed after every run.
-/

namespace Metatup.Cache

open Lib

/-! ### What a run is promised -/

/-- `begun` are the entries that are being added already. -/
inductive Addable (s : Set TupId) (compiles : TupId → Text → Bool) (rows : TupId → Option (TupId × Text))
    (c : EntryCache) : List TupId → TupId → Prop
  | cached {begun : List TupId} {i : TupId} (hi : 0 ≤ i) (hmem : i ∈ c) :
      Addable s compiles rows c begun i
  | top {begun : List TupId} {i : TupId} {name : Text} (hi : 0 ≤ i) (his : i ∈ s) (hnew : i ∉ c)
      (hbegun : i ∉ begun) (hrow : fillTupEntry rows i = some (0, name))
      (hcomp : compiles 0 name = true) : Addable s compiles rows c begun i
  | row {begun : List TupId} {i dt : TupId} {name : Text} (hi : 0 ≤ i) (his : i ∈ s) (hnew : i ∉ c)
      (hbegun : i ∉ begun) (hrow : fillTupEntry rows i = some (dt, name))
      (hcomp : compiles dt name = true) (hdt : 0 < dt)
      (hfree : dt ∈ c → name ∉ (c.tents dt).entries.map Prod.fst)
      (hdir : Addable s compiles rows c (i :: begun) dt) : Addable s compiles rows c begun i

/-- The new directory is there, has no other entry of the new name, and is not below the entry. -/
def MoveFits (c : EntryCache) (i : TupId) (newName : Text) (newDt : TupId) : Prop :=
  newDt = 0 ∨ newDt ∈ c ∧ (∀ j, (newName, j) ∈ (c.tents newDt).entries → j = i) ∧
    ¬ Above (c.up ∅) newDt i

/-- The entries that an entry holds on to. -/
def held (t : CachedEntry) : List TupId := t.stickies.ids ++ t.groupStickies.ids

/-- The references to an entry are those of the cached entries and of the ghosts. -/
def Clearable (c : EntryCache) : Prop :=
  ∀ i ∈ c, (c.tents i).refcount =
    (((c.tupRoot.toList.flatMap fun e => held (c.tents e)) ++ c.ghostRoot.ids).count i : ℕ)

/-- Every entry is in its directory, under its name, and in no other place. -/
structure WellFormed (c : EntryCache) : Prop where
  parent : ∀ i, tupEntryFind c i = some i → (c.tents i).dt ≠ 0 →
    (c.tents i).parent = some (c.tents i).dt ∧ tupEntryFind c (c.tents i).dt = some (c.tents i).dt
  place : ∀ i p, tupEntryFind c i = some i → tupEntryFind c p = some p → ∀ name,
    (name, i) ∈ (c.tents p).entries ↔ (c.tents i).dt ≠ 0 ∧ p = (c.tents i).dt ∧ name = (c.tents i).name
  child : ∀ p, tupEntryFind c p = some p → ∀ e ∈ (c.tents p).entries, tupEntryFind c e.2 = some e.2
  names : ∀ p, tupEntryFind c p = some p → ((c.tents p).entries.map Prod.fst).Nodup

section

variable {s pending : Set TupId} {c c' : EntryCache} {i j dt : TupId} {name : Text}
  {compiles : TupId → Text → Bool} {rows : TupId → Option (TupId × Text)}

/-- A search finds only what is cached. -/
theorem mem_of_find {i j : TupId} (h : tupEntryFind c i = some j) : j ∈ c := by
  unfold tupEntryFind at h
  rw [EntryCache.mem_def]
  exact RbTree.mem_of_find h

theorem TreeOk.wellFormed (hs : RbTree.Agrees tupidTreeCmp s) (h : TreeOk s ∅ c) : WellFormed c where
  parent i hi hdt := by
    obtain ⟨hparent, hmem, -⟩ := h.linked i (mem_of_find hi) (Set.notMem_empty i) hdt
    exact ⟨hparent, tupEntryFind_of_mem hs h hmem⟩
  place i p hi hp name := by
    constructor
    · intro he
      obtain ⟨-, -, hdt, hp0, hname⟩ := h.child p (mem_of_find hp) _ he
      exact ⟨fun h0 => hp0 (hdt.symm.trans h0), hdt.symm, hname.symm⟩
    · rintro ⟨hdt, rfl, rfl⟩
      exact (h.linked i (mem_of_find hi) (Set.notMem_empty i) hdt).2.2
  child p hp e he := tupEntryFind_of_mem hs h (h.child p (mem_of_find hp) e he).1
  names p hp := h.names p (mem_of_find hp)

/-- A search for a name finds the entry of that directory which has it. -/
theorem WellFormed.findNameInDir (h : WellFormed c) {p : TupId} (hp : tupEntryFind c p = some p)
    (name : Text) : tupEntryFindNameInDir c p name = some i ↔ tupEntryFind c i = some i ∧
      (c.tents i).dt ≠ 0 ∧ p = (c.tents i).dt ∧ name = (c.tents i).name := by
  have hkey : tupEntryFindNameInDir c p name = some i ↔ (name, i) ∈ (c.tents p).entries := by
    unfold tupEntryFindNameInDir
    rw [Option.map_eq_some_iff]
    constructor
    · rintro ⟨e, he, rfl⟩
      obtain ⟨hmem, rfl⟩ := (find_eq_some_key (h.names p hp)).1 he
      exact hmem
    · exact fun hmem => ⟨_, (find_eq_some_key (h.names p hp)).2 ⟨hmem, rfl⟩, rfl⟩
  rw [hkey]
  constructor
  · intro hmem
    have hi := h.child p hp _ hmem
    exact ⟨hi, (h.place i p hi hp name).1 hmem⟩
  · rintro ⟨hi, hplace⟩
    exact (h.place i p hi hp name).2 hplace

/-! ### Additions -/

/-- Where nothing is in a directory, no other entry is below it. -/
theorem not_above_of_no_entries (h : TreeOk s pending c)
    (hleaf : (c.tents i).entries = []) (hne : j ≠ i) : ¬ Above (c.up pending) j i := by
  intro habove
  rcases Relation.ReflTransGen.cases_tail habove with heq | ⟨k, -, hk⟩
  · exact hne heq.symm
  obtain ⟨hmem, hp, hparent⟩ := EntryCache.up_eq_some_iff.1 hk
  by_cases hdt : (c.tents k).dt = 0
  · exact absurd ((h.top k hmem hp hdt).symm.trans hparent) nofun
  · obtain ⟨hpar, -, hentry⟩ := h.linked k hmem hp hdt
    rw [Option.some.inj (hpar.symm.trans hparent), hleaf] at hentry
    exact List.not_mem_nil hentry

theorem intoDir_of_ne {p : TupId} (hji : j ≠ i) (hjp : j ≠ p) :
    (intoDir c i p).tents j = c.tents j :=
  (EntryCache.modify_ne hjp).trans (EntryCache.modify_ne hji)

theorem intoDir_self {p : TupId} (hip : i ≠ p) :
    (intoDir c i p).tents i = { c.tents i with parent := some p } :=
  (EntryCache.modify_ne hip).trans EntryCache.modify_same

/-- What an addition leaves behind while the entries `begun` wait for it. -/
structure Added (s : Set TupId) (begun : List TupId) (i : TupId) (c c₁ c₂ : EntryCache) : Prop where
  ok : TreeOk s {j | j ∈ begun} c₂
  mem : i ∈ c₂
  grows : ∀ j ∈ c₁, j ∈ c₂
  waiting : ∀ j ∈ begun, c₂.tents j = c₁.tents j
  old : i ∈ c → c₂ = c₁
  new : i ∉ c → i ∉ begun ∧ (c₂.tents i).entries = []

/-- The induction is over the directories that have to be added first. -/
theorem tupEntryAdd_added (hs : RbTree.Agrees tupidTreeCmp s) {begun : List TupId}
    (hadd : Addable s compiles rows c begun i) {c₁ : EntryCache} (h : TreeOk s {j | j ∈ begun} c₁)
    (hmem : ∀ j, j ∈ c₁ ↔ j ∈ c ∨ j ∈ begun) (hsame : ∀ j ∈ c, c₁.tents j = c.tents j)
    (hbegun : ∀ j ∈ begun, j ∉ c) :
    ∃ n c₂, (∀ fuel, n ≤ fuel → tupEntryAdd compiles rows fuel c₁ i = some (true, c₂)) ∧
      Added s begun i c c₁ c₂ := by
  induction hadd generalizing c₁ with
  | @cached begun i hi hcached =>
    have hin := (hmem i).2 (.inl hcached)
    refine ⟨1, c₁, fun fuel hfuel => ?_,
      ⟨h, hin, fun _ hj => hj, fun _ _ => rfl, fun _ => rfl, fun hno => absurd hcached hno⟩⟩
    obtain ⟨n, rfl⟩ := Nat.exists_eq_add_of_le' hfuel
    rw [tupEntryAdd, if_neg hi.not_gt, tupEntryFind_of_mem hs h hin]
    rfl
  | @top begun i name hi his hnew hwait hrow hcomp =>
    have hno : i ∉ c₁ := fun hin => ((hmem i).1 hin).elim hnew hwait
    obtain ⟨c₂, hmade, hok, hmem₂, htents⟩ := newEntry_spec hs h his hno hcomp
    have hset : insert i {j | j ∈ begun} \ {i} = {j | j ∈ begun} := Set.insert_sdiff_self_of_notMem hwait
    have hdt : (c₂.tents i).dt = 0 := by rw [htents, Function.update_self]
    obtain ⟨hres, hfinal⟩ := resolveParent_top hok ((hmem₂ i).2 (.inl rfl)) (Set.mem_insert i _) hdt
    rw [hset] at hfinal
    refine ⟨1, _, fun fuel hfuel => ?_, ⟨hfinal, (hmem₂ i).2 (.inl rfl), fun j hj => (hmem₂ j).2 (.inr hj),
      fun j hj => ?_, fun hin => absurd hin hnew, fun _ => ⟨hwait, ?_⟩⟩⟩
    · obtain ⟨n, rfl⟩ := Nat.exists_eq_add_of_le' hfuel
      rw [tupEntryAdd, if_neg hi.not_gt, tupEntryFind_eq hs h his,
        if_neg (EntryCache.mem_def.not.1 hno), hrow]
      dsimp only [Option.isSome_none]
      rw [if_neg Bool.false_ne_true, hmade]
      dsimp only
      rw [if_neg (lt_irrefl 0)]
      dsimp only
      rw [hres]
    · have hji : j ≠ i := fun heq => hwait (heq ▸ hj)
      rw [EntryCache.modify_ne hji, htents, Function.update_of_ne hji]
    · rw [EntryCache.modify_same, htents, Function.update_self]
  | @row begun i dt name hi his hnew hwait hrow hcomp hdt hfree hdir ih =>
    have hno : i ∉ c₁ := fun hin => ((hmem i).1 hin).elim hnew hwait
    obtain ⟨c₂, hmade, hok, hmem₂, htents⟩ := newEntry_spec hs h his hno hcomp
    have hset : insert i {j | j ∈ begun} = {j | j ∈ i :: begun} := by
      ext j
      simp
    rw [hset] at hok
    obtain ⟨n, c₃, hrec, hadded⟩ := ih hok (fun j => by rw [hmem₂, hmem, List.mem_cons]; tauto)
      (fun j hj => by
        have hji : j ≠ i := fun heq => hnew (heq ▸ hj)
        rw [htents, Function.update_of_ne hji]
        exact hsame j hj)
      (fun j hj => (List.mem_cons.1 hj).elim (fun heq => heq ▸ hnew) (hbegun j))
    have hself : c₃.tents i = ⟨dt, none, name, [], ∅, ∅, 0⟩ := by
      rw [hadded.waiting i List.mem_cons_self, htents, Function.update_self]
    have hin : i ∈ c₃ := hadded.grows i ((hmem₂ i).2 (.inl rfl))
    have hdti : (c₃.tents i).dt = dt := by rw [hself]
    have hname : (c₃.tents i).name = name := by rw [hself]
    -- the directory was cached, or it has just been made
    have hdtne : dt ∉ i :: begun := by
      by_cases hdtc : dt ∈ c
      · exact fun hmem => (List.mem_cons.1 hmem).elim (fun heq => hnew (heq ▸ hdtc))
          fun hb => hbegun dt hb hdtc
      · exact (hadded.new hdtc).1
    have hne : dt ≠ i := fun heq => hdtne (heq ▸ List.mem_cons_self)
    have hnames : name ∉ (c₃.tents dt).entries.map Prod.fst := by
      by_cases hdtc : dt ∈ c
      · rw [hadded.old hdtc, htents, Function.update_of_ne hne, hsame dt hdtc]
        exact hfree hdtc
      · rw [(hadded.new hdtc).2]
        exact List.not_mem_nil
    have hres := resolveParent_dir hs hadded.ok hin List.mem_cons_self (hdti ▸ hdt.ne')
      (hdti ▸ hadded.mem) (by rw [hdti, hname]; exact hnames)
      (hdti ▸ not_above_of_no_entries hadded.ok (by rw [hself]) hne)
    rw [hdti] at hres
    have hdiff : {j | j ∈ i :: begun} \ {i} = {j | j ∈ begun} := by
      rw [← hset]
      exact Set.insert_sdiff_self_of_notMem hwait
    refine ⟨n + 1, intoDir c₃ i dt, fun fuel hfuel => ?_, ⟨hdiff ▸ hres.2, hin,
      fun j hj => hadded.grows j ((hmem₂ j).2 (.inr hj)), fun j hj => ?_, fun hc => absurd hc hnew,
      fun _ => ⟨hwait, ?_⟩⟩⟩
    · obtain ⟨k, rfl⟩ := Nat.exists_eq_add_of_le' (le_trans (Nat.le_add_left 1 n) hfuel)
      rw [tupEntryAdd, if_neg hi.not_gt, tupEntryFind_eq hs h his,
        if_neg (EntryCache.mem_def.not.1 hno), hrow]
      dsimp only [Option.isSome_none]
      rw [if_neg Bool.false_ne_true, hmade]
      dsimp only
      rw [if_pos hdt, hrec k (by omega)]
      dsimp only
      rw [hres.1]
    · have hji : j ≠ i := fun heq => hwait (heq ▸ hj)
      have hjdt : j ≠ dt := fun heq => hdtne (heq ▸ List.mem_cons_of_mem _ hj)
      rw [intoDir_of_ne hji hjdt, hadded.waiting j (List.mem_cons_of_mem _ hj), htents,
        Function.update_of_ne hji]
    · rw [intoDir_self hne.symm, hself]

/-- An addition that can be done is done. -/
theorem tupEntryAdd_spec (hs : RbTree.Agrees tupidTreeCmp s) (h : TreeOk s ∅ c)
    (hadd : Addable s compiles rows c [] i) :
    ∃ n c', (∀ fuel, n ≤ fuel → tupEntryAdd compiles rows fuel c i = some (true, c')) ∧
      TreeOk s ∅ c' := by
  have hempty : {j : TupId | j ∈ ([] : List TupId)} = ∅ := Set.eq_empty_of_forall_notMem fun j => by simp
  have hok : TreeOk s {j | j ∈ ([] : List TupId)} c := hempty ▸ h
  obtain ⟨n, c', hrun, hadded⟩ := tupEntryAdd_added hs hadd hok (by simp) (fun _ _ => rfl) (by simp)
  exact ⟨n, c', hrun, hempty ▸ hadded.ok⟩

theorem tupEntryAddToDir_spec (hs : RbTree.Agrees tupidTreeCmp s) (h : TreeOk s ∅ c) (hdt : dt ∈ c)
    (hi : i ∈ s) (hfree : dt ≠ 0 → i ∉ c → compiles dt name = true →
      name ∉ (c.tents dt).entries.map Prod.fst) :
    TreeOk s ∅ (tupEntryAddToDir compiles c dt i name).2 := by
  unfold tupEntryAddToDir
  by_cases hno : i ∈ c ∨ compiles dt name = false
  · rw [newEntry_eq_none hs h hno]
    exact h
  obtain ⟨hnew, hcomp⟩ := not_or.1 hno
  rw [Bool.not_eq_false] at hcomp
  obtain ⟨c', hmade, hok, hmem, htents⟩ := newEntry_spec hs h hi hnew hcomp
  rw [hmade]
  dsimp only
  have hself : c'.tents i = ⟨dt, none, name, [], ∅, ∅, 0⟩ := by rw [htents, Function.update_self]
  have hin : i ∈ c' := (hmem i).2 (.inl rfl)
  have hne : dt ≠ i := fun heq => hnew (heq ▸ hdt)
  have hset : insert i (∅ : Set TupId) \ {i} = ∅ :=
    Set.insert_sdiff_self_of_notMem (Set.notMem_empty i)
  by_cases hdt0 : dt = 0
  · have hres := resolveParent_top hok hin (Set.mem_insert i _) (by rw [hself]; exact hdt0)
    rw [hres.1]
    exact hset ▸ hres.2
  · have hdti : (c'.tents i).dt = dt := by rw [hself]
    have hname : (c'.tents i).name = name := by rw [hself]
    have hres := resolveParent_dir hs hok hin (Set.mem_insert i _) (hdti ▸ hdt0)
      (hdti ▸ (hmem dt).2 (.inr hdt))
      (by
        rw [hdti, hname, htents, Function.update_of_ne hne]
        exact hfree hdt0 hnew hcomp)
      (hdti ▸ not_above_of_no_entries hok (by rw [hself]) hne)
    rw [hres.1]
    exact hset ▸ hres.2

/-! ### Moves -/

/-- A move that fits is made. -/
theorem tupEntryChangeNameDt_spec (hs : RbTree.Agrees tupidTreeCmp s) (h : TreeOk s ∅ c) (hi : i ∈ c)
    {newName : Text} {newDt : TupId} (hfits : MoveFits c i newName newDt) :
    ∃ c', tupEntryChangeNameDt c i newName newDt = some (true, c') ∧ TreeOk s ∅ c' := by
  unfold tupEntryChangeNameDt changeName
  rw [tupEntryFind_of_mem hs h hi, Option.map_some]
  dsimp only
  set c₁ := c.modify i fun t => { t with dt := newDt } with hc₁
  have hself : c₁.tents i = { c.tents i with dt := newDt } := EntryCache.modify_same
  have hother : ∀ j, j ≠ i → c₁.tents j = c.tents j := fun j hj => EntryCache.modify_ne hj
  have hentries : ∀ j, (c₁.tents j).entries = (c.tents j).entries := by
    intro j
    by_cases hj : j = i
    · rw [hj, hself]
    · rw [hother j hj]
  obtain ⟨hroot, -, hrm, htents⟩ := unlinkName_fields c₁ h hi (by rw [hself]) hentries
  set c₂ := (unlinkName c₁ i).modify i fun t => { t with name := newName } with hc₂
  have hself₂ : c₂.tents i = { (unlinkName c₁ i).tents i with name := newName } :=
    EntryCache.modify_same
  have hother₂ : ∀ j, j ≠ i → c₂.tents j = (unlinkName c₁ i).tents j := fun j hj =>
    EntryCache.modify_ne hj
  have hrm₂ : ∀ p ∈ c, (c₂.tents p).entries = stringTreeRm (c.tents p).entries i := by
    intro p hp
    rw [← hrm p hp]
    by_cases hpi : p = i
    · rw [hpi, hself₂]
    · rw [hother₂ p hpi]
  have hparent₂ : ∀ j, j ≠ i → (c₂.tents j).parent = (c.tents j).parent := by
    intro j hj
    rw [hother₂ j hj, htents j, hother j hj]
  have hok : TreeOk s {i} c₂ := h.detach hroot
    (fun j hj => by rw [hother₂ j hj, htents j, hother j hj])
    (fun j hj => by rw [hother₂ j hj, htents j, hother j hj]) hparent₂ hrm₂
  have hin : i ∈ c₂ := by
    rw [hc₂, EntryCache.mem_modify, EntryCache.mem_def, hroot]
    exact hi
  have hdt : (c₂.tents i).dt = newDt := by rw [hself₂, htents i, hself]
  have hname : (c₂.tents i).name = newName := by rw [hself₂]
  have hset : ({i} : Set TupId) \ {i} = ∅ := Set.sdiff_self
  by_cases h0 : newDt = 0
  · have hres := resolveParent_top hok hin (Set.mem_singleton i) (hdt.trans h0)
    exact ⟨_, congrArg some hres.1, hset ▸ hres.2⟩
  obtain ⟨hmem, hfree, habove⟩ := hfits.resolve_left h0
  have hmem₂ : newDt ∈ c₂ := by
    rw [hc₂, EntryCache.mem_modify, EntryCache.mem_def, hroot]
    exact hmem
  have hup : ∀ x y, c₂.up {i} x = some y → c.up ∅ x = some y := by
    intro x y hxy
    obtain ⟨hx, hxi, hparent⟩ := EntryCache.up_eq_some_iff.1 hxy
    rw [hparent₂ x hxi] at hparent
    rw [hc₂, EntryCache.mem_modify, EntryCache.mem_def, hroot] at hx
    exact EntryCache.up_eq_some_iff.2 ⟨hx, Set.notMem_empty x, hparent⟩
  have hres := resolveParent_dir hs hok hin (Set.mem_singleton i) (hdt ▸ h0) (hdt ▸ hmem₂)
    (by
      rw [hdt, hname, hrm₂ newDt hmem]
      intro hin
      obtain ⟨e, he, rfl⟩ := List.mem_map.1 hin
      obtain ⟨he, hne⟩ := mem_stringTreeRm.1 he
      exact hne (hfree e.2 he))
    (hdt ▸ fun hin => habove (hin.mono hup))
  exact ⟨_, congrArg some hres.1, hset ▸ hres.2⟩

/-! ### All entries at once -/

/-- The rows make a tree: every directory is among them or is none, no two entries of a directory have
one name, and no directory is below itself. -/
structure RowsFit (s : Set TupId) (compiles : TupId → Text → Bool) (rows : List (TupId × TupId × Text)) :
    Prop where
  ids : ∀ r ∈ rows, r.1 ∈ s ∧ compiles r.2.1 r.2.2 = true
  nodup : (rows.map Prod.fst).Nodup
  dirs : ∀ r ∈ rows, r.2.1 ≠ 0 → r.2.1 ∈ rows.map Prod.fst
  names : ∀ r ∈ rows, ∀ r' ∈ rows, r.2.1 ≠ 0 → r.2 = r'.2 → r.1 = r'.1
  ranked : ∃ rank : TupId → ℕ, ∀ r ∈ rows, r.2.1 ≠ 0 → rank r.2.1 < rank r.1

/-- The loop brings in all rows, with their parents to be resolved. -/
theorem tupEntryAddAll_spec (hs : RbTree.Agrees tupidTreeCmp s) {l : List (TupId × TupId × Text)}
    (hids : ∀ r ∈ l, r.1 ∈ s ∧ compiles r.2.1 r.2.2 = true) (hnodup : (l.map Prod.fst).Nodup)
    (h : TreeOk s pending c) (hnew : ∀ r ∈ l, r.1 ∉ c) :
    ∃ c', tupEntryAddAll compiles l c = (true, c') ∧ TreeOk s ({j | j ∈ l.map Prod.fst} ∪ pending) c' ∧
      (∀ j, j ∈ c' ↔ j ∈ l.map Prod.fst ∨ j ∈ c) ∧
      (∀ r ∈ l, (c'.tents r.1).dt = r.2.1 ∧ (c'.tents r.1).name = r.2.2) ∧
      ∀ j, j ∉ l.map Prod.fst → c'.tents j = c.tents j := by
  induction l generalizing c pending with
  | nil => exact ⟨c, rfl, by simpa using h, by simp, by simp, fun _ _ => rfl⟩
  | cons r l ih =>
    obtain ⟨i, dt, name⟩ := r
    obtain ⟨hi, hcomp⟩ := hids _ List.mem_cons_self
    obtain ⟨hil, hnodup⟩ := List.nodup_cons.1 hnodup
    obtain ⟨c₁, hmade, hok, hmem, htents⟩ := newEntry_spec hs h hi (hnew _ List.mem_cons_self) hcomp
    have hrest : ∀ r ∈ l, r.1 ∉ c₁ := by
      intro r hr hin
      rcases (hmem r.1).1 hin with heq | hin
      · exact hil (heq ▸ List.mem_map_of_mem hr)
      · exact hnew r (List.mem_cons_of_mem _ hr) hin
    obtain ⟨c', hrun, hok', hmem', hfields, hother⟩ :=
      ih (fun r hr => hids r (List.mem_cons_of_mem _ hr)) hnodup hok hrest
    have hset : {j | j ∈ l.map Prod.fst} ∪ insert i pending =
        {j | j ∈ ((i, dt, name) :: l).map Prod.fst} ∪ pending := by
      ext j
      simp only [List.map_cons, List.mem_cons, Set.mem_union, Set.mem_ofPred_eq, Set.mem_insert_iff]
      tauto
    refine ⟨c', ?_, hset ▸ hok', fun j => ?_, fun r hr => ?_, fun j hj => ?_⟩
    · rw [tupEntryAddAll, hmade]
      exact hrun
    · rw [hmem', hmem, List.map_cons, List.mem_cons]
      tauto
    · rcases List.mem_cons.1 hr with rfl | hr
      · rw [hother i hil, htents, Function.update_self]
        exact ⟨rfl, rfl⟩
      · exact hfields r hr
    · obtain ⟨hji, hjl⟩ := not_or.1 (mt List.mem_cons.2 hj)
      rw [hother j hjl, htents, Function.update_of_ne hji]

/-- What the rows say about the entries that are cached. -/
structure CacheFits (c : EntryCache) (rank : TupId → ℕ) : Prop where
  dirs : ∀ i ∈ c, (c.tents i).dt ≠ 0 → (c.tents i).dt ∈ c ∧ rank (c.tents i).dt < rank i
  names : ∀ i ∈ c, ∀ j ∈ c, (c.tents i).dt ≠ 0 → (c.tents i).dt = (c.tents j).dt →
    (c.tents i).name = (c.tents j).name → i = j

/-- Neither the directory nor the name of an entry changes when parents are resolved. -/
theorem CacheFits.of_fields {rank : TupId → ℕ} (h : CacheFits c rank) (hroot : c'.tupRoot = c.tupRoot)
    (hfields : ∀ j, (c'.tents j).dt = (c.tents j).dt ∧ (c'.tents j).name = (c.tents j).name) :
    CacheFits c' rank := by
  have hmem : ∀ j, j ∈ c' ↔ j ∈ c := fun j => by rw [EntryCache.mem_def, hroot, EntryCache.mem_def]
  refine ⟨fun i hi hdt => ?_, fun i hi j hj hdt hdts hnames => ?_⟩
  · rw [(hfields i).1] at hdt ⊢
    rw [hmem]
    exact h.dirs i ((hmem i).1 hi) hdt
  · rw [(hfields i).1] at hdt hdts
    rw [(hfields j).1] at hdts
    rw [(hfields i).2, (hfields j).2] at hnames
    exact h.names i ((hmem i).1 hi) j ((hmem j).1 hj) hdt hdts hnames

theorem resolveParent_fields (c : EntryCache) (i : TupId) :
    (resolveParent c i).2.tupRoot = c.tupRoot ∧
      ∀ j, ((resolveParent c i).2.tents j).dt = (c.tents j).dt ∧
        ((resolveParent c i).2.tents j).name = (c.tents j).name := by
  have hmodify : ∀ (c : EntryCache) (i : TupId) (f : CachedEntry → CachedEntry),
      (∀ t, (f t).dt = t.dt ∧ (f t).name = t.name) → ∀ j, ((c.modify i f).tents j).dt = (c.tents j).dt ∧
        ((c.modify i f).tents j).name = (c.tents j).name := by
    intro c i f hf j
    by_cases hji : j = i
    · rw [hji, EntryCache.modify_same]
      exact hf _
    · rw [EntryCache.modify_ne hji]
      exact ⟨rfl, rfl⟩
  have hparent : ∀ (p : Option TupId) (j : TupId),
      ((c.modify i fun t => { t with parent := p }).tents j).dt = (c.tents j).dt ∧
        ((c.modify i fun t => { t with parent := p }).tents j).name = (c.tents j).name :=
    fun p => hmodify c i (fun t => { t with parent := p }) fun _ => ⟨rfl, rfl⟩
  unfold resolveParent
  split
  · exact ⟨rfl, hparent none⟩
  · dsimp only
    split
    · rename_i hfind
      rw [hfind]
      exact ⟨rfl, hparent none⟩
    · rename_i p hfind
      rw [hfind]
      split
      · exact ⟨rfl, hparent (some p)⟩
      · rename_i entries _
        refine ⟨rfl, fun j => ?_⟩
        have htop := hmodify (c.modify i fun t => { t with parent := some p }) p
          (fun t => { t with entries := entries }) (fun _ => ⟨rfl, rfl⟩) j
        exact ⟨htop.1.trans (hparent (some p) j).1, htop.2.trans (hparent (some p) j).2⟩

/-- The parents of the pending entries are resolved one after another, in any order. -/
theorem resolveDirs_spec (hs : RbTree.Agrees tupidTreeCmp s) {rank : TupId → ℕ} {l : List TupId}
    (hnodup : l.Nodup) (hl : ∀ i ∈ l, i ∈ c) (h : TreeOk s {j | j ∈ l} c) (hfits : CacheFits c rank) :
    ∃ c', resolveDirs l c = (true, c') ∧ TreeOk s ∅ c' := by
  induction l generalizing c with
  | nil => exact ⟨c, rfl, by simpa using h⟩
  | cons i l ih =>
    obtain ⟨hil, hnodup⟩ := List.nodup_cons.1 hnodup
    have hin := hl i List.mem_cons_self
    have hset : {j | j ∈ i :: l} \ {i} = {j | j ∈ l} := by
      ext j
      simp only [List.mem_cons, Set.mem_sdiff, Set.mem_ofPred_eq, Set.mem_singleton_iff]
      constructor
      · exact fun hj => hj.1.resolve_left hj.2
      · exact fun hj => ⟨.inr hj, fun heq => hil (heq ▸ hj)⟩
    have hstep : ∃ c₁, resolveParent c i = (true, c₁) ∧ TreeOk s {j | j ∈ l} c₁ := by
      by_cases hdt : (c.tents i).dt = 0
      · have hres := resolveParent_top h hin List.mem_cons_self hdt
        exact ⟨_, hres.1, hset ▸ hres.2⟩
      obtain ⟨hdir, hlt⟩ := hfits.dirs i hin hdt
      have hfree : (c.tents i).name ∉ (c.tents (c.tents i).dt).entries.map Prod.fst := by
        intro hname
        obtain ⟨e, he, heq⟩ := List.mem_map.1 hname
        obtain ⟨hmem, hnot, hdte, -, hnamee⟩ := h.child _ hdir e he
        have hsame := hfits.names i hin e.2 hmem hdt hdte.symm (heq.symm.trans hnamee.symm)
        exact hnot (hsame ▸ List.mem_cons_self)
      have hranked : RankedBy (c.up {j | j ∈ i :: l}) rank := by
        intro a b hab
        obtain ⟨ha, hnot, hparent⟩ := EntryCache.up_eq_some_iff.1 hab
        by_cases hdta : (c.tents a).dt = 0
        · exact absurd ((h.top a ha hnot hdta).symm.trans hparent) nofun
        · have hpar := (h.linked a ha hnot hdta).1
          rw [← Option.some.inj (hpar.symm.trans hparent)]
          exact (hfits.dirs a ha hdta).2
      have hres := resolveParent_dir hs h hin List.mem_cons_self hdt hdir hfree
        fun habove => (habove.rank_le hranked).not_gt hlt
      exact ⟨_, hres.1, hset ▸ hres.2⟩
    obtain ⟨c₁, hres, hok⟩ := hstep
    obtain ⟨hroot, hfields⟩ := resolveParent_fields c i
    rw [hres] at hroot hfields
    obtain ⟨c', hrun, hok'⟩ := ih hnodup
      (fun j hj => by
        rw [EntryCache.mem_def, hroot]
        exact hl j (List.mem_cons_of_mem _ hj))
      hok (hfits.of_fields hroot hfields)
    exact ⟨c', by rw [resolveDirs, hres]; exact hrun, hok'⟩

/-! ### Clearing the cache -/

theorem delRefs_tents (c : EntryCache) (ids : List TupId) (j : TupId) :
    held ((c.delRefs ids).tents j) = held (c.tents j) ∧
      ((c.delRefs ids).tents j).refcount = (c.tents j).refcount - ids.count j ∧
      (c.delRefs ids).ghostRoot = c.ghostRoot := by
  induction ids generalizing c with
  | nil => exact ⟨rfl, (sub_zero _).symm, rfl⟩
  | cons i ids ih =>
    obtain ⟨hheld, href, hghost⟩ := ih (c.modify i fun t => { t with refcount := t.refcount - 1 })
    refine ⟨hheld.trans ?_, href.trans ?_, hghost⟩
    · by_cases hji : j = i
      · subst hji
        rw [EntryCache.modify_same]
        rfl
      · rw [EntryCache.modify_ne hji]
    · by_cases hji : j = i
      · subst hji
        rw [EntryCache.modify_same, List.count_cons_self]
        dsimp only
        omega
      · rw [EntryCache.modify_ne hji, List.count_cons_of_ne (Ne.symm hji)]

theorem freeStickies_tents (c : EntryCache) (i j : TupId) :
    held ((freeStickies c i).tents j) = (if j = i then [] else held (c.tents j)) ∧
      ((freeStickies c i).tents j).refcount = (c.tents j).refcount - (held (c.tents i)).count j ∧
      (freeStickies c i).ghostRoot = c.ghostRoot := by
  obtain ⟨hheld, href, hghost⟩ :=
    delRefs_tents (c.modify i fun t => { t with stickies := ∅, groupStickies := ∅ }) (held (c.tents i)) j
  refine ⟨hheld.trans ?_, href.trans ?_, hghost⟩
  · by_cases hji : j = i
    · subst hji
      rw [if_pos rfl, EntryCache.modify_same]
      rfl
    · rw [if_neg hji, EntryCache.modify_ne hji]
  · by_cases hji : j = i
    · subst hji
      rw [EntryCache.modify_same]
    · rw [EntryCache.modify_ne hji]

/-- The first loop of `tup_entry_clear` gives back what the entries hold. -/
theorem foldl_freeStickies {l : List TupId} (hl : l.Nodup) (c : EntryCache) :
    SameTree c (l.foldl freeStickies c) ∧ (l.foldl freeStickies c).ghostRoot = c.ghostRoot ∧
      (∀ j, held ((l.foldl freeStickies c).tents j) = if j ∈ l then [] else held (c.tents j)) ∧
      ∀ j, ((l.foldl freeStickies c).tents j).refcount =
        (c.tents j).refcount - (l.flatMap fun e => held (c.tents e)).count j := by
  induction l generalizing c with
  | nil => exact ⟨.refl c, rfl, fun j => rfl, fun j => by simp⟩
  | cons i l ih =>
    obtain ⟨hil, hl⟩ := List.nodup_cons.1 hl
    obtain ⟨hsame, hghost, hheld, href⟩ := ih hl (freeStickies c i)
    refine ⟨(SameTree.freeStickies c i).trans hsame, hghost.trans (freeStickies_tents c i 0).2.2,
      fun j => ?_, fun j => ?_⟩
    · refine (hheld j).trans ?_
      rw [(freeStickies_tents c i j).1]
      by_cases hjl : j ∈ l
      · rw [if_pos hjl, if_pos (List.mem_cons_of_mem _ hjl)]
      · rw [if_neg hjl]
        exact if_congr (by simp [hjl]) rfl rfl
    · refine (href j).trans ?_
      have hrest : (l.flatMap fun e => held ((freeStickies c i).tents e)) =
          l.flatMap fun e => held (c.tents e) := by
        refine List.flatMap_congr fun e he => ?_
        rw [(freeStickies_tents c i e).1, if_neg (ne_of_mem_of_not_mem he hil)]
      rw [hrest, (freeStickies_tents c i j).2.1, List.flatMap_cons, List.count_append]
      omega

/-- The only references left are those of the ghosts. -/
def Unheld (c : EntryCache) : Prop :=
  ∀ i ∈ c, held (c.tents i) = [] ∧ (c.tents i).refcount = if i ∈ c.ghostRoot then 1 else 0

theorem unheld_of_clearable (hnodup : c.tupRoot.toList.Nodup) (h : Clearable c) :
    Unheld (c.tupRoot.toList.foldl freeStickies c) := by
  obtain ⟨hsame, hghost, hheld, href⟩ := foldl_freeStickies hnodup c
  intro i hi
  rw [hsame.mem_iff] at hi
  have hcount : (c.ghostRoot.ids.count i : ℤ) = if i ∈ c.ghostRoot then 1 else 0 := by
    split
    · rename_i hmem
      rw [List.count_eq_one_of_mem c.ghostRoot.nodup hmem]
      rfl
    · rename_i hmem
      rw [List.count_eq_zero_of_not_mem hmem]
      rfl
  refine ⟨by rw [hheld, if_pos (EntryCache.mem_def.1 hi)], ?_⟩
  rw [href, h i hi, hghost, ← hcount, List.count_append]
  omega

/-- A removal among entries that hold nothing succeeds, and they go on to hold nothing. -/
theorem rmEntry_unheld (hs : RbTree.Agrees tupidTreeCmp s) (h : TreeOk s ∅ c) (hun : Unheld c)
    (hi : i ∈ c) (hleaf : (c.tents i).entries = []) :
    (rmEntry c i true).1 = true ∧ Unheld (rmEntry c i true).2 := by
  have hmem := (rmEntry_leaf hs h hi true hleaf).2.1
  unfold rmEntry at hmem ⊢
  rw [tupEntryFind_of_mem hs h hi] at hmem ⊢
  dsimp only at hmem ⊢
  rw [if_neg (by simp [hleaf])] at hmem ⊢
  set c₁ := tupDbDelGhostTree c i with hc₁
  have hsame : SameTree c c₁ := .tupDbDelGhostTree c i
  -- the ghost tree gives back its reference
  have hghost : (∀ j, j ∈ c₁.ghostRoot ↔ j ∈ c.ghostRoot ∧ j ≠ i) ∧
      (∀ j, held (c₁.tents j) = held (c.tents j)) ∧
      ∀ j ∈ c, (c₁.tents j).refcount = if j ∈ c.ghostRoot ∧ j ≠ i then 1 else 0 := by
    rw [hc₁]
    unfold tupDbDelGhostTree
    split
    · rename_i hin
      refine ⟨fun j => by rw [mem_tentTreeRemove, and_comm], fun j => (delRefs_tents c [i] j).1,
        fun j hj => ?_⟩
      · refine (delRefs_tents c [i] j).2.1.trans ?_
        rw [(hun j hj).2]
        by_cases hji : j = i
        · subst hji
          simp [hin]
        · simp [hji, Ne.symm hji]
    · rename_i hout
      have hne : ∀ j, j ∈ c.ghostRoot ↔ j ∈ c.ghostRoot ∧ j ≠ i :=
        fun j => (and_iff_left_of_imp fun hj => ne_of_mem_of_not_mem hj hout).symm
      exact ⟨hne, fun _ => rfl, fun j hj => by rw [(hun j hj).2]; exact if_congr (hne j) rfl rfl⟩
  set c₂ : EntryCache := { c₁ with tupRoot := RbTree.remove tupidTreeCmp c₁.tupRoot i } with hc₂
  obtain ⟨-, hghost₂, -, htents⟩ := unlinkName_fields c₂ h hi (hsame.parent i) hsame.entries
  have hheld : ∀ j ∈ c, held ((unlinkName c₂ i).tents j) = [] := by
    intro j hj
    rw [htents j]
    exact (hghost.2.1 j).trans (hun j hj).1
  have href : ∀ j ∈ c, ((freeStickies (unlinkName c₂ i) i).tents j).refcount =
      if j ∈ c.ghostRoot ∧ j ≠ i then 1 else 0 := by
    intro j hj
    rw [(freeStickies_tents _ i j).2.1, hheld i hi, htents j]
    exact (sub_zero _).trans (hghost.2.2 j hj)
  refine ⟨?_, fun j hj => ?_⟩
  · rw [href i hi]
    simp
  · obtain ⟨hj, hji⟩ := (hmem j).1 hj
    refine ⟨?_, ?_⟩
    · rw [(freeStickies_tents _ i j).1, if_neg hji]
      exact hheld j hj
    · rw [href j hj, (freeStickies_tents _ i j).2.2, hghost₂]
      exact if_congr (hghost.1 j).symm rfl rfl

/-- A pass removes every entry that has no children when it begins. -/
theorem clearPass_spec (hs : RbTree.Agrees tupidTreeCmp s) (h : TreeOk s ∅ c) (hun : Unheld c)
    {l : List TupId} (hl : ∀ i ∈ l, i ∈ s) :
    ∃ c', clearPass l c = (true, c') ∧ TreeOk s ∅ c' ∧ Unheld c' ∧ (∀ j ∈ c', j ∈ c) ∧
      ∀ i ∈ l, (c.tents i).entries = [] → i ∉ c' := by
  induction l generalizing c with
  | nil => exact ⟨c, rfl, h, hun, fun _ hj => hj, fun _ hi => absurd hi List.not_mem_nil⟩
  | cons i l ih =>
    have hstep : ∃ c₁, rmEntry c i true = (true, c₁) ∧ TreeOk s ∅ c₁ ∧ Unheld c₁ ∧
        (∀ j ∈ c₁, j ∈ c ∧ ((c.tents j).entries = [] → (c₁.tents j).entries = [])) ∧
        ((c.tents i).entries = [] → i ∉ c₁) := by
      by_cases hmem : i ∈ c
      · by_cases hleaf : (c.tents i).entries = []
        · obtain ⟨hok, hgone, hentries⟩ := rmEntry_leaf hs h hmem true hleaf
          obtain ⟨hrc, hun'⟩ := rmEntry_unheld hs h hun hmem hleaf
          refine ⟨_, Prod.ext hrc rfl, hok, hun', fun j hj => ?_, fun _ hin => ((hgone i).1 hin).2 rfl⟩
          have hj := ((hgone j).1 hj).1
          exact ⟨hj, fun hnil => by rw [hentries j hj, hnil]; rfl⟩
        · refine ⟨c, ?_, h, hun, fun j hj => ⟨hj, id⟩, fun hnil => absurd hnil hleaf⟩
          rw [rmEntry, tupEntryFind_of_mem hs h hmem]
          dsimp only
          rw [if_pos hleaf]
      · refine ⟨c, ?_, h, hun, fun j hj => ⟨hj, id⟩, fun _ => hmem⟩
        rw [rmEntry, tupEntryFind_eq hs h (hl i List.mem_cons_self),
          if_neg (EntryCache.mem_def.not.1 hmem)]
    obtain ⟨c₁, hrm, hok, hun₁, hshrinks, hgone⟩ := hstep
    obtain ⟨c', hpass, hok', hun', hsub, hleaves⟩ :=
      ih hok hun₁ fun j hj => hl j (List.mem_cons_of_mem _ hj)
    refine ⟨c', by rw [clearPass, hrm]; exact hpass, hok', hun',
      fun j hj => (hshrinks j (hsub j hj)).1, fun j hj hnil hin => ?_⟩
    have hj₁ := hsub j hin
    rcases List.mem_cons.1 hj with rfl | hj
    · exact hgone hnil hj₁
    · exact hleaves j hj ((hshrinks j hj₁).2 hnil) hin

/-- Some entry has no children, so that every pass removes one. -/
theorem exists_childless (h : TreeOk s ∅ c) (hne : c.tupRoot.toList ≠ []) :
    ∃ i ∈ c, (c.tents i).entries = [] := by
  obtain ⟨rank, hrank⟩ := h.ranked
  obtain ⟨i, hi, hleaf⟩ := hrank.exists_leaf hne
  refine ⟨i, hi, List.eq_nil_iff_forall_not_mem.2 fun e he => ?_⟩
  obtain ⟨hmem, -, hdt, hi0, -⟩ := h.child i hi e he
  have hparent := (h.linked e.2 hmem (Set.notMem_empty _) (hdt ▸ hi0)).1
  rw [hdt] at hparent
  exact hleaf e.2 hmem (EntryCache.up_eq_some_iff.2 ⟨hmem, Set.notMem_empty _, hparent⟩)

theorem clearLoop_spec (hs : RbTree.Agrees tupidTreeCmp s) (h : TreeOk s ∅ c) (hun : Unheld c)
    {n : ℕ} (hn : c.tupRoot.toList.length < n) :
    ∃ c', clearLoop n c = some (true, c') ∧ TreeOk s ∅ c' ∧ c'.tupRoot.toList = [] := by
  induction n generalizing c with
  | zero => exact absurd hn (Nat.not_lt_zero _)
  | succ n ih =>
    rw [clearLoop]
    split
    · rename_i hempty
      exact ⟨c, rfl, h, hempty⟩
    · rename_i hne
      obtain ⟨i, hi, hleaf⟩ := exists_childless h hne
      obtain ⟨c₁, hpass, hok, hun₁, hsub, hgone⟩ := clearPass_spec hs h hun h.ids
      rw [hpass]
      have hnodup : c₁.tupRoot.toList.Nodup := hok.sorted.imp fun hlt => hlt.ne
      have hless : c₁.tupRoot.toList.length < c.tupRoot.toList.length := by
        have hcover : i :: c₁.tupRoot.toList ⊆ c.tupRoot.toList := by
          intro j hj
          rcases List.mem_cons.1 hj with rfl | hj
          · exact hi
          · exact hsub j hj
        have hnot : i ∉ c₁.tupRoot.toList := hgone i hi hleaf
        exact (List.subperm_of_subset (List.nodup_cons.2 ⟨hnot, hnodup⟩) hcover).length_le
      exact ih hok hun₁ (by omega)

/-- The cache can be cleared where no references come from elsewhere. -/
theorem tupEntryClear_spec (hs : RbTree.Agrees tupidTreeCmp s) (h : TreeOk s ∅ c) (hc : Clearable c) :
    ∃ n, ∀ fuel, n ≤ fuel → ∃ c', tupEntryClear fuel c = some (true, c') ∧ TreeOk s ∅ c' ∧
      c'.tupRoot.toList = [] := by
  have hnodup : c.tupRoot.toList.Nodup := h.sorted.imp fun hlt => hlt.ne
  obtain ⟨hsame, -⟩ := foldl_freeStickies hnodup c
  refine ⟨c.tupRoot.toList.length + 1, fun fuel hfuel => ?_⟩
  refine clearLoop_spec hs (hsame.treeOk h) (unheld_of_clearable hnodup hc) ?_
  rw [hsame.tupRoot]
  omega

end

/-! ### Runs -/

section

variable (s : Set TupId) (compiles : TupId → Text → Bool)

/-- The cache is filled anew. Source: `db.c` `load_existing_nodes` -/
def loadExistingNodes (fuel : ℕ) (rows : List (TupId × TupId × Text)) (c : EntryCache) :
    Option (Bool × EntryCache) :=
  (tupEntryClear fuel c).map fun r =>
    let (added, c) := tupEntryAddAll compiles rows r.2
    let (resolved, c) := tupEntryResolveDirs c
    (resolved && added, c)

/-- An addition that is refused at once, or one that can be done. -/
def AddFits (rows : TupId → Option (TupId × Text)) (c : EntryCache) (i : TupId) : Prop :=
  i < 0 ∨ (i ∈ s ∧ i ∉ c ∧ ∀ dt name, fillTupEntry rows i = some (dt, name) → compiles dt name = false) ∨
    Addable s compiles rows c [] i

/-- One call whose arguments fit; the rows of the database may have changed since the last one. -/
inductive CacheStep : EntryCache → EntryCache → Prop
  | add {rows : TupId → Option (TupId × Text)} {fuel : ℕ} {c c' : EntryCache} {i : TupId} {ok : Bool}
      (hfits : AddFits s compiles rows c i)
      (hrun : tupEntryAdd compiles rows fuel c i = some (ok, c')) : CacheStep c c'
  | addToDir {c : EntryCache} {dt i : TupId} {name : Text} (hdt : dt ∈ c) (hi : i ∈ s)
      (hfree : dt ≠ 0 → i ∉ c → compiles dt name = true → name ∉ (c.tents dt).entries.map Prod.fst) :
      CacheStep c (tupEntryAddToDir compiles c dt i name).2
  | changeNameDt {c c' : EntryCache} {i newDt : TupId} {newName : Text} {ok : Bool} (hi : i ∈ s)
      (hfits : MoveFits c i newName newDt)
      (hrun : tupEntryChangeNameDt c i newName newDt = some (ok, c')) : CacheStep c c'
  | rm {c : EntryCache} {i : TupId} (hi : i ∈ s) : CacheStep c (tupEntryRm c i).2
  | clear {c c' : EntryCache} {fuel : ℕ} {ok : Bool} (hfits : Clearable c)
      (hrun : tupEntryClear fuel c = some (ok, c')) : CacheStep c c'
  | load {c c' : EntryCache} {fuel : ℕ} {rows : List (TupId × TupId × Text)} {ok : Bool}
      (hfits : Clearable c) (hrows : RowsFit s compiles rows)
      (hrun : loadExistingNodes compiles fuel rows c = some (ok, c')) : CacheStep c c'
  /-- A search, or trees of entries elsewhere that take and give back references. -/
  | other {c c' : EntryCache} (hsame : SameTree c c') : CacheStep c c'

/-- The cache when the program starts. -/
def emptyCache : EntryCache := ⟨.nil, fun _ => ⟨0, none, [], [], ∅, ∅, 0⟩, ∅⟩

inductive CacheRun : EntryCache → Prop
  | start : CacheRun emptyCache
  | step {c c' : EntryCache} (h : CacheRun c) (hstep : CacheStep s compiles c c') : CacheRun c'

variable {s compiles} {c c' : EntryCache}

theorem treeOk_of_empty {c : EntryCache} (h : c.tupRoot.toList = []) : TreeOk s ∅ c := by
  have hno : ∀ i, i ∉ c := fun i hi => List.not_mem_nil (h ▸ EntryCache.mem_def.1 hi)
  refine ⟨by rw [h]; exact .nil, fun i hi => absurd hi (hno i), fun i hi => absurd hi (hno i),
    fun i hi => absurd hi (hno i), fun p hp => absurd hp (hno p), fun p hp => absurd hp (hno p), ?_⟩
  exact ⟨fun _ => 0, fun a b hab => absurd (EntryCache.up_eq_some_iff.1 hab).1 (hno a)⟩

/-- Loading the rows of a tree makes a tree. -/
theorem load_spec (hs : RbTree.Agrees tupidTreeCmp s) (h : TreeOk s ∅ c)
    (hempty : c.tupRoot.toList = []) {rows : List (TupId × TupId × Text)}
    (hrows : RowsFit s compiles rows) :
    TreeOk s ∅ (tupEntryResolveDirs (tupEntryAddAll compiles rows c).2).2 := by
  obtain ⟨c₁, hadd, hok, hmem, hfields, -⟩ := tupEntryAddAll_spec hs hrows.ids hrows.nodup h
    fun r _ hin => List.not_mem_nil (hempty ▸ EntryCache.mem_def.1 hin)
  rw [hadd]
  have hids : ∀ j, j ∈ c₁.tupRoot.toList ↔ j ∈ rows.map Prod.fst := by
    intro j
    rw [← EntryCache.mem_def, hmem, EntryCache.mem_def, hempty]
    simp
  have hset : {j | j ∈ rows.map Prod.fst} ∪ ∅ = {j | j ∈ c₁.tupRoot.toList} := by
    rw [Set.union_empty]
    exact Set.ext fun j => (hids j).symm
  obtain ⟨rank, hrank⟩ := hrows.ranked
  have hfits : CacheFits c₁ rank := by
    refine ⟨fun i hi hdt => ?_, fun i hi j hj hdt hdts hnames => ?_⟩
    · obtain ⟨r, hr, rfl⟩ := List.mem_map.1 ((hids i).1 hi)
      rw [(hfields r hr).1] at hdt ⊢
      exact ⟨(hids _).2 (hrows.dirs r hr hdt), hrank r hr hdt⟩
    · obtain ⟨r, hr, rfl⟩ := List.mem_map.1 ((hids i).1 hi)
      obtain ⟨r', hr', rfl⟩ := List.mem_map.1 ((hids j).1 hj)
      rw [(hfields r hr).1] at hdt hdts
      rw [(hfields r' hr').1] at hdts
      rw [(hfields r hr).2, (hfields r' hr').2] at hnames
      exact hrows.names r hr r' hr' hdt (Prod.ext hdts hnames)
  obtain ⟨c₂, hres, hok₂⟩ := resolveDirs_spec hs (hok.sorted.imp fun hlt => hlt.ne) (fun _ hi => hi)
    (hset ▸ hok) hfits
  rw [tupEntryResolveDirs, hres]
  exact hok₂

theorem tupEntryAdd_refused (hs : RbTree.Agrees tupidTreeCmp s) (h : TreeOk s ∅ c)
    {rows : TupId → Option (TupId × Text)} {fuel : ℕ} {i : TupId} {ok : Bool}
    (hno : i < 0 ∨ (i ∈ s ∧ i ∉ c ∧
      ∀ dt name, fillTupEntry rows i = some (dt, name) → compiles dt name = false))
    (hrun : tupEntryAdd compiles rows fuel c i = some (ok, c')) : c' = c := by
  rcases fuel with _ | fuel
  · exact absurd hrun nofun
  rw [tupEntryAdd] at hrun
  split at hrun
  · exact (Prod.mk.inj (Option.some.inj hrun)).2.symm
  rename_i hi
  obtain ⟨his, hnew, hcomp⟩ := hno.resolve_left hi
  rw [tupEntryFind_eq hs h his, if_neg (EntryCache.mem_def.not.1 hnew), Option.isSome_none,
    if_neg Bool.false_ne_true] at hrun
  rcases hrow : fillTupEntry rows i with _ | ⟨dt, name⟩ <;> rw [hrow] at hrun
  · exact (Prod.mk.inj (Option.some.inj hrun)).2.symm
  · dsimp only at hrun
    rw [newEntry_eq_none hs h (.inr (hcomp dt name hrow))] at hrun
    exact (Prod.mk.inj (Option.some.inj hrun)).2.symm

/-- A call that ends within some steps ends the same way within more. -/
theorem tupEntryAdd_mono {rows : TupId → Option (TupId × Text)} {fuel fuel' : ℕ} (hle : fuel ≤ fuel')
    {i : TupId} {r : Bool × EntryCache} (h : tupEntryAdd compiles rows fuel c i = some r) :
    tupEntryAdd compiles rows fuel' c i = some r := by
  induction fuel generalizing fuel' c i r with
  | zero => exact absurd h nofun
  | succ fuel ih =>
    obtain ⟨k, rfl⟩ := Nat.exists_eq_add_of_le' (le_trans (Nat.le_add_left 1 fuel) hle)
    rw [tupEntryAdd] at h ⊢
    split
    · rename_i hi
      rwa [if_pos hi] at h
    rename_i hi
    rw [if_neg hi] at h
    split
    · rename_i hfound
      rwa [if_pos hfound] at h
    rename_i hfound
    rw [if_neg hfound] at h
    rcases hrow : fillTupEntry rows i with _ | ⟨dt, name⟩ <;> rw [hrow] at h
    · exact h
    dsimp only at h ⊢
    rcases hmade : newEntry compiles c i dt name with _ | c₁ <;> rw [hmade] at h
    · exact h
    dsimp only at h ⊢
    by_cases hdt : 0 < dt
    · rw [if_pos hdt] at h ⊢
      rcases hrec : tupEntryAdd compiles rows fuel c₁ dt with _ | r₁ <;> rw [hrec] at h
      · exact absurd h nofun
      · rw [ih (by omega) hrec]
        exact h
    · rwa [if_neg hdt] at h ⊢

theorem clearLoop_mono {n n' : ℕ} (hle : n ≤ n') {r : Bool × EntryCache}
    (h : clearLoop n c = some r) : clearLoop n' c = some r := by
  induction n generalizing n' c with
  | zero => exact absurd h nofun
  | succ n ih =>
    obtain ⟨k, rfl⟩ := Nat.exists_eq_add_of_le' (le_trans (Nat.le_add_left 1 n) hle)
    rw [clearLoop] at h ⊢
    split
    · rename_i hempty
      rwa [if_pos hempty] at h
    · rename_i hne
      rw [if_neg hne] at h
      rcases hpass : clearPass c.tupRoot.toList c with ⟨_ | _, c₁⟩ <;> rw [hpass] at h
      · exact h
      · exact ih (by omega) h

/-- Where a clearing ends, it has succeeded. -/
theorem tupEntryClear_result (hs : RbTree.Agrees tupidTreeCmp s) (h : TreeOk s ∅ c) (hc : Clearable c)
    {fuel : ℕ} {r : Bool × EntryCache} (hrun : tupEntryClear fuel c = some r) :
    r.1 = true ∧ TreeOk s ∅ r.2 ∧ r.2.tupRoot.toList = [] := by
  obtain ⟨n, hn⟩ := tupEntryClear_spec hs h hc
  obtain ⟨c', hend, hok, hempty⟩ := hn (max n fuel) (le_max_left n fuel)
  have hmore : tupEntryClear (max n fuel) c = some r := clearLoop_mono (le_max_right n fuel) hrun
  obtain rfl := Option.some.inj (hmore.symm.trans hend)
  exact ⟨rfl, hok, hempty⟩

/-- One call keeps the trees together. -/
theorem CacheStep.treeOk (hs : RbTree.Agrees tupidTreeCmp s) (h : TreeOk s ∅ c)
    (hstep : CacheStep s compiles c c') : TreeOk s ∅ c' := by
  cases hstep with
  | @add rows fuel _ _ i ok hfits hrun =>
    rcases or_assoc.2 hfits with hno | hadd
    · rw [tupEntryAdd_refused hs h hno hrun]
      exact h
    · obtain ⟨n, c₁, hn, hok⟩ := tupEntryAdd_spec hs h hadd
      have hmore := tupEntryAdd_mono (le_max_right n fuel) hrun
      rw [hn (max n fuel) (le_max_left n fuel)] at hmore
      rw [← (Prod.mk.inj (Option.some.inj hmore)).2]
      exact hok
  | addToDir hdt hi hfree => exact tupEntryAddToDir_spec hs h hdt hi hfree
  | @changeNameDt _ _ i newDt newName ok hi hfits hrun =>
    have hmem : i ∈ c := by
      by_contra hno
      rw [tupEntryChangeNameDt, tupEntryFind_eq hs h hi, if_neg (EntryCache.mem_def.not.1 hno)] at hrun
      exact absurd hrun nofun
    obtain ⟨c₁, hmoved, hok⟩ := tupEntryChangeNameDt_spec hs h hmem hfits
    rw [hmoved] at hrun
    rw [← (Prod.mk.inj (Option.some.inj hrun)).2]
    exact hok
  | rm hi => exact rmEntry_spec hs h hi false
  | clear hfits hrun => exact (tupEntryClear_result hs h hfits hrun).2.1
  | load hfits hrows hrun =>
    obtain ⟨r, hclear, hr⟩ := Option.map_eq_some_iff.1 hrun
    obtain ⟨-, hok, hempty⟩ := tupEntryClear_result hs h hfits hclear
    rw [← (Prod.mk.inj hr).2]
    exact load_spec hs hok hempty hrows
  | other hsame => exact hsame.treeOk h

/-- A directory with two entries. -/
def dirWithTwo : EntryCache :=
  [(1, 0, ['.']), (2, 1, ['a']), (3, 1, ['b'])].foldl
    (fun c r => (tupEntryAddToDir (fun _ _ => true) c r.2.1 r.1 r.2.2).2) emptyCache

end

end Metatup.Cache
