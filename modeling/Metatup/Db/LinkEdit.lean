import Metatup.Db.Dependents

/-!
# Edits of the link tables

A statement about links takes some rows out of the three link tables and puts some in; it changes
nothing else but flags and `ghost_root`. `Edit R A` says which: the rows of `R` go, those of `A`
come.

* `Edit.trans`, `Edit.foldlM`, `Edit.compareTentTrees`: edits compose, also over a loop.
* `linkInsert_edit`, `linkRemove_edit`, `tupDbDeleteLinks_edit`, ...: one edit for each statement.
-/

namespace Metatup

/-- A row of one of the link tables. -/
inductive Row
  | normal (a b : TupId)
  | sticky (a b : TupId)
  | group (a b cmdid : TupId)
  deriving DecidableEq

/-- The row is in its table. -/
def Db.Has (db : Db) : Row → Prop
  | .normal a b => ⟨a, b⟩ ∈ db.normalLink
  | .sticky a b => ⟨a, b⟩ ∈ db.stickyLink
  | .group a b c => ⟨a, b, c⟩ ∈ db.groupLink

instance (db : Db) (r : Row) : Decidable (db.Has r) := by
  cases r <;> unfold Db.Has <;> infer_instance

theorem has_normal {db : Db} {a b : TupId} : db.Has (.normal a b) ↔ NormalAdj db a b := .rfl

/-- The row that `link_insert` and `link_remove` are about. -/
def LinkType.row : LinkType → TupId → TupId → Row
  | .normal => .normal
  | .sticky => .sticky

/-- Source: `db.c` `group_link_insert` -/
def groupLinkInsert (db : Db) (a b cmdid : TupId) : Option Db :=
  if a = b then none
  else if a ≤ 0 ∨ b ≤ 0 ∨ cmdid ≤ 0 then none
  else if ⟨a, b, cmdid⟩ ∈ db.groupLink then none
  else some { db with groupLink := ⟨a, b, cmdid⟩ :: db.groupLink }

/-- Source: `db.c` `group_link_remove` -/
def groupLinkRemove (db : Db) (a b cmdid : TupId) : Db :=
  { db with groupLink := db.groupLink.filter (· ≠ ⟨a, b, cmdid⟩) }

/-- Source: `db.c` `delete_group_links` -/
def deleteGroupLinks (db : Db) (cmdid : TupId) : Db :=
  { db with groupLink := db.groupLink.filter (·.cmdid ≠ cmdid) }

/-- Source: `db.c` `delete_normal_inputs` -/
def deleteNormalInputs (db : Db) (i : TupId) : Db :=
  { db with normalLink := db.normalLink.filter (·.toId ≠ i) }

/-- No row. -/
def Row.never (_ : Row) : Prop := False

/-- The rows of `R` go and those of `A`, none of which is left after that, come. -/
structure Edit (R A : Row → Prop) (db db' : Db) : Prop where
  node : db'.node = db.node
  mem : ∀ r, db'.Has r ↔ db.Has r ∧ ¬ R r ∨ A r
  fresh : ∀ r, A r → db.Has r → R r

namespace Edit

variable {R A R₁ A₁ R₂ A₂ : Row → Prop} {db db₁ db₂ : Db}

theorem refl (db : Db) : Edit Row.never Row.never db db :=
  ⟨rfl, fun _ => by simp [Row.never], fun _ h => h.elim⟩

theorem congr (hR : ∀ r, R r ↔ R₁ r) (hA : ∀ r, A r ↔ A₁ r) (h : Edit R A db db₁) :
    Edit R₁ A₁ db db₁ where
  node := h.node
  mem r := by rw [h.mem, hR, hA]
  fresh r := by rw [← hA, ← hR]; exact h.fresh r

theorem trans (h₁ : Edit R₁ A₁ db db₁) (h₂ : Edit R₂ A₂ db₁ db₂) :
    Edit (fun r => R₁ r ∨ R₂ r) (fun r => A₁ r ∧ ¬ R₂ r ∨ A₂ r) db db₂ where
  node := h₂.node.trans h₁.node
  mem r := by
    rw [h₂.mem, h₁.mem]
    by_cases h2 : R₂ r <;> simp [h2, or_assoc]
  fresh r hA hdb := by
    rcases hA with ⟨hA, -⟩ | hA
    · exact .inl (h₁.fresh r hA hdb)
    · by_contra hR
      obtain ⟨hR1, hR2⟩ := not_or.1 hR
      exact hR2 (h₂.fresh r hA ((h₁.mem r).2 (.inl ⟨hdb, hR1⟩)))

/-- Two edits of which the second takes nothing out that the first has put in. -/
theorem trans_of_disjoint (h₁ : Edit R₁ A₁ db db₁) (h₂ : Edit R₂ A₂ db₁ db₂)
    (hd : ∀ r, A₁ r → ¬ R₂ r) : Edit (fun r => R₁ r ∨ R₂ r) (fun r => A₁ r ∨ A₂ r) db db₂ := by
  apply (h₁.trans h₂).congr (fun _ => .rfl)
  intro r
  exact or_congr_left (and_iff_left_of_imp (hd r))

/-- A loop of edits of a state that has more than the tables, none of which takes out what another
puts in. -/
theorem foldlM {β σ : Type} {f : σ → β → Option σ} {π : σ → Db} {R A : β → Row → Prop}
    {l : List β} {s s' : σ}
    (hf : ∀ b ∈ l, ∀ m m', (π m).node = (π s).node → f m b = some m' →
      Edit (R b) (A b) (π m) (π m'))
    (hd : ∀ b ∈ l, ∀ b' ∈ l, ∀ r, A b r → ¬ R b' r) (h : l.foldlM f s = some s') :
    Edit (fun r => ∃ b ∈ l, R b r) (fun r => ∃ b ∈ l, A b r) (π s) (π s') := by
  induction l generalizing s with
  | nil =>
    cases h
    exact (refl _).congr (by simp [Row.never]) (by simp [Row.never])
  | cons b l ih =>
    rw [List.foldlM_cons, Option.bind_eq_bind, Option.bind_eq_some_iff] at h
    obtain ⟨m, hm, h⟩ := h
    have hb := hf b List.mem_cons_self s m rfl hm
    have hl := ih (fun b' hb' m₁ m₂ hnode => hf b' (List.mem_cons_of_mem b hb') m₁ m₂
        (hnode.trans hb.node))
      (fun b' hb' c hc => hd b' (List.mem_cons_of_mem b hb') c (List.mem_cons_of_mem b hc)) h
    refine (hb.trans_of_disjoint hl ?_).congr (by simp) (by simp)
    rintro r hA ⟨b', hb', hR⟩
    exact hd b List.mem_cons_self b' (List.mem_cons_of_mem b hb') r hA hR

/-- A walk over the difference of two trees. -/
theorem compareTentTrees {σ : Type} {a b : TentTree} {extraA extraB : σ → TupId → Option σ}
    {π : σ → Db} {R A Q B : TupId → Row → Prop} {s s' : σ}
    (hA : ∀ m i m', (π m).node = (π s).node → extraA m i = some m' →
      Edit (R i) (A i) (π m) (π m'))
    (hB : ∀ m i m', (π m).node = (π s).node → extraB m i = some m' →
      Edit (Q i) (B i) (π m) (π m'))
    (hd : ∀ z ∈ Lib.diff a.ids b.ids, ∀ z' ∈ Lib.diff a.ids b.ids, ∀ r, z.elim A B r →
      ¬ z'.elim R Q r)
    (h : Metatup.compareTentTrees a b extraA extraB s = some s') :
    Edit (fun r => (∃ i, (i ∈ a ∧ i ∉ b) ∧ R i r) ∨ ∃ i, (i ∈ b ∧ i ∉ a) ∧ Q i r)
      (fun r => (∃ i, (i ∈ a ∧ i ∉ b) ∧ A i r) ∨ ∃ i, (i ∈ b ∧ i ∉ a) ∧ B i r)
      (π s) (π s') := by
  rw [compareTentTrees_eq] at h
  have hmem : ∀ z, z ∈ Lib.diff a.ids b.ids ↔
      z.elim (fun i => i ∈ a ∧ i ∉ b) (fun i => i ∈ b ∧ i ∉ a) := Lib.mem_diff a.sorted b.sorted
  refine (foldlM (π := π) (R := fun z => z.elim R Q) (A := fun z => z.elim A B) ?_ hd h).congr
    ?_ ?_
  · rintro (i | i) - m m' hnode hstep
    · exact hA m i m' hnode hstep
    · exact hB m i m' hnode hstep
  · intro r
    simp only [hmem, Sum.exists, Sum.elim_inl, Sum.elim_inr]
  · intro r
    simp only [hmem, Sum.exists, Sum.elim_inl, Sum.elim_inr]

/-- A loop of statements that leave the tables alone. -/
theorem foldlM_never {β : Type} {f : Db → β → Option Db} {l : List β}
    (hf : ∀ db b db', f db b = some db' → Edit Row.never Row.never db db') (h : l.foldlM f db = some db₁) :
    Edit Row.never Row.never db db₁ :=
  (foldlM (π := id) (R := fun _ => Row.never) (A := fun _ => Row.never)
    (fun b _ db db' _ hb => hf db b db' hb) (fun _ _ _ _ _ hA => hA.elim) h).congr
    (by simp [Row.never]) (by simp [Row.never])

theorem foldl_never {β : Type} {f : Db → β → Db} {l : List β}
    (hf : ∀ db b, Edit Row.never Row.never db (f db b)) : Edit Row.never Row.never db (l.foldl f db) := by
  induction l generalizing db with
  | nil => exact refl db
  | cons b l ih =>
    exact ((hf db b).trans ih).congr (by simp [Row.never]) (by simp [Row.never])

end Edit

/-! ### The statements -/

variable {db db' : Db} {a b c : TupId}

theorem setFlags_edit (f : Flags) : Edit Row.never Row.never db (db.setFlags f) :=
  ⟨rfl, fun r => by cases r <;> simp [Db.Has, Db.setFlags, Row.never], fun _ h => h.elim⟩

theorem tupEntryAddGhostTree_edit (tent : TupEntry) :
    Edit Row.never Row.never db (tupEntryAddGhostTree db tent) := by
  rw [tupEntryAddGhostTree_eq]
  exact ⟨rfl, fun r => by cases r <;> simp [Db.Has, Row.never], fun _ h => h.elim⟩

theorem linkInsert_edit {style : LinkType} (h : linkInsert db a b style = some db') :
    Edit Row.never (· = style.row a b) db db' := by
  unfold linkInsert at h
  split at h
  · cases h
  · split at h
    · cases h
    · split at h
      · cases h
      · next hfresh =>
        cases h
        refine ⟨by cases style <;> rfl, ?_, ?_⟩
        · intro r
          cases style <;> cases r <;>
            simp [Db.Has, Db.setLinks, Db.links, LinkType.row, Row.never, or_comm]
        · rintro r rfl hdb
          exact absurd (by cases style <;> exact hdb) hfresh

theorem linkRemove_edit (db : Db) (a b : TupId) (style : LinkType) :
    Edit (· = style.row a b) Row.never db (linkRemove db a b style) := by
  refine ⟨by cases style <;> rfl, ?_, fun _ h => h.elim⟩
  intro r
  cases style <;> cases r <;>
    simp [Db.Has, linkRemove, Db.setLinks, Db.links, LinkType.row, Row.never, imp_iff_not_or]

theorem groupLinkInsert_edit (h : groupLinkInsert db a b c = some db') :
    Edit Row.never (· = .group a b c) db db' := by
  unfold groupLinkInsert at h
  split at h
  · cases h
  · split at h
    · cases h
    · split at h
      · cases h
      · next hfresh =>
        cases h
        refine ⟨rfl, ?_, ?_⟩
        · intro r
          cases r <;> simp [Db.Has, Row.never, or_comm]
        · rintro r rfl hdb
          exact absurd hdb hfresh

theorem groupLinkRemove_edit (db : Db) (a b c : TupId) :
    Edit (· = .group a b c) Row.never db (groupLinkRemove db a b c) := by
  refine ⟨rfl, ?_, fun _ h => h.elim⟩
  intro r
  cases r <;> simp [Db.Has, groupLinkRemove, Row.never, imp_iff_not_or]

theorem deleteGroupLinks_edit (db : Db) (c : TupId) :
    Edit (fun r => ∃ a b, r = .group a b c) Row.never db (deleteGroupLinks db c) := by
  refine ⟨rfl, ?_, fun _ h => h.elim⟩
  intro r
  cases r <;> simp [Db.Has, deleteGroupLinks, Row.never]

theorem deleteNormalInputs_edit (db : Db) (i : TupId) :
    Edit (fun r => ∃ a, r = .normal a i) Row.never db (deleteNormalInputs db i) := by
  refine ⟨rfl, ?_, fun _ h => h.elim⟩
  intro r
  cases r <;> simp [Db.Has, deleteNormalInputs, Row.never]

/-- The rows that `tup_db_delete_links` deletes. -/
def Row.TouchedBy (i : TupId) : Row → Prop
  | .normal a b => a = i ∨ b = i
  | .sticky a b => a = i ∨ b = i
  | .group _ _ c => c = i

theorem deleteTableLinks_edit (db : Db) (i : TupId) :
    Edit (Row.TouchedBy i) Row.never db (deleteTableLinks db i) := by
  refine ⟨rfl, ?_, fun _ h => h.elim⟩
  intro r
  cases r <;> simp [Db.Has, deleteTableLinks, withoutNode, Row.TouchedBy, Row.never]

theorem addGhostChecks_edit {i : TupId} (h : addGhostChecks db i = some db') :
    Edit Row.never Row.never db db' := by
  apply Edit.foldlM_never _ h
  intro db j db' hstep
  obtain ⟨tent, -, hstep⟩ := Option.bind_eq_some_iff.1 hstep
  cases hstep
  exact tupEntryAddGhostTree_edit tent

theorem addGroupAndExclusionChecks_edit {i : TupId}
    (h : addGroupAndExclusionChecks db i = some db') : Edit Row.never Row.never db db' := by
  obtain ⟨tents, -, h⟩ := Option.bind_eq_some_iff.1 h
  cases h
  exact Edit.foldl_never fun db tent => tupEntryAddGhostTree_edit tent

theorem flagGroupUsers_edit {i : TupId} (h : flagGroupUsers db i = some db') :
    Edit Row.never Row.never db db' := by
  obtain ⟨tent, -, h⟩ := Option.bind_eq_some_iff.1 h
  split at h
  · cases h
    exact setFlags_edit _
  · cases h
    exact .refl _

theorem tupDbDeleteLinks_edit {i : TupId} (h : tupDbDeleteLinks db i = some db') :
    Edit (Row.TouchedBy i) Row.never db db' := by
  obtain ⟨db₁, h₁, h⟩ := Option.bind_eq_some_iff.1 h
  obtain ⟨db₂, h₂, h⟩ := Option.bind_eq_some_iff.1 h
  obtain ⟨db₃, h₃, h⟩ := Option.bind_eq_some_iff.1 h
  cases h
  have hchecks := ((addGhostChecks_edit h₁).trans (addGroupAndExclusionChecks_edit h₂)).trans
    (flagGroupUsers_edit h₃)
  exact (hchecks.trans (deleteTableLinks_edit db₃ i)).congr (by simp [Row.never])
    (by simp [Row.never])

end Metatup
