import Metatup.Db.RuleLinks

/-!
# What the evaluation of a rule does to the link tables

* `tupDbCreateUniqueLink_spec`: the output has no command left but this one, and is in none of the
  groups it was in before; unless its entry names a command that no longer produces it.
* `tupDbWriteOutputs_spec`: the command has the new outputs, exclusions and group, and the outputs
  are in that group.
* `tupDbWriteInputs_spec`: the command has the new inputs, and its group links follow.
-/

namespace Metatup

variable {db db' : Db} {exclusionDt a b c g i : TupId}

/-! ### Taking an output -/

theorem removeFromGroupOf_edit (h : removeFromGroupOf db i b = some db') :
    Edit (fun r => ∃ g, r = .normal b g ∧ NormalAdj db i g ∧ db.isGroup g = true) Row.never
      db db' := by
  obtain ⟨group, hgroup, h⟩ := Option.bind_eq_some_iff.1 h
  have hspec := fun g => getOutputGroup_spec (g := g) hgroup
  cases group with
  | none =>
    cases h
    apply (Edit.refl db).congr _ (fun _ => .rfl)
    intro r
    simp [hspec, Row.never]
  | some tent =>
    cases h
    have hghost : Edit Row.never Row.never (linkRemove db b tent.tupid .normal)
      (tupEntryAddGhostTree (linkRemove db b tent.tupid .normal) tent) :=
      tupEntryAddGhostTree_edit tent
    have hedit := (linkRemove_edit db b tent.tupid .normal).trans hghost
    refine hedit.congr ?_ ?_
    · intro r
      simp [hspec, Row.never, LinkType.row]
    · simp [Row.never]

/-- The entry of the output names a command that does not produce it, and whose group is not this
one or which is the command that takes the output: the link of the output to the group stays. -/
def StaleFor (a : TupId) (s : LinkState) (b g : TupId) : Prop :=
  ∃ c, s.incoming b = some c ∧ ¬ NormalAdj s.db c b ∧ ¬ (c ≠ a ∧ NormalAdj s.db c g)

/-- What `tup_db_create_unique_link` leaves: rows that are not about the output stay, its commands
but `a` go, and of its groups those stay that it has through `a` or through a stale entry. -/
structure Taken (a : TupId) (s s' : LinkState) (b : TupId) : Prop where
  node : s'.db.node = s.db.node
  sticky : ∀ x y, s'.db.Has (.sticky x y) ↔ s.db.Has (.sticky x y)
  group : ∀ x y z, s'.db.Has (.group x y z) ↔ s.db.Has (.group x y z)
  other : ∀ x y, x ≠ b → y ≠ b → (NormalAdj s'.db x y ↔ NormalAdj s.db x y)
  into : ∀ x, NormalAdj s'.db x b ↔ NormalAdj s.db x b ∧ x = a
  outOf : ∀ y, y ≠ b → (NormalAdj s'.db b y ↔ NormalAdj s.db b y ∧
    (s.db.isGroup y = true → NormalAdj s.db a b ∨ StaleFor a s b y))
  incoming : ∀ x, x ≠ b → s'.incoming x = s.incoming x
  incoming_self : s'.incoming b = none ∨ s'.incoming b = some a

/-- What `tup_db_get_incoming_link` finds: what the cache says, or else the one command. -/
theorem tupDbGetIncomingLink_spec {s m : LinkState} {incoming : Option TupId}
    (h : tupDbGetIncomingLink s b = some (m, incoming)) :
    m.db = s.db ∧ m.incoming = Function.update s.incoming b incoming ∧
      (s.incoming b = none → ∀ x, NormalAdj s.db x b ↔ incoming = some x) ∧
      ∀ x, s.incoming b = some x → incoming = some x := by
  unfold tupDbGetIncomingLink at h
  split at h
  · next x hx =>
    cases h
    refine ⟨rfl, ?_, ?_, ?_⟩
    · rw [← hx, Function.update_eq_self]
    · intro hnone
      rw [hx] at hnone
      cases hnone
    · intro y hy
      rw [← hy, hx]
  · next hnone =>
    obtain ⟨root, hroot, h⟩ := Option.bind_eq_some_iff.1 h
    have hmem := fun x => mem_getNormalInputs (j := x) hroot
    simp only [TentTree.mem_def] at hmem
    split at h
    · next hids =>
      cases h
      refine ⟨rfl, ?_, ?_, ?_⟩
      · rw [← hnone, Function.update_eq_self]
      · intro _ x
        rw [← hmem, hids]
        simp
      · intro x hx
        rw [hnone] at hx
        cases hx
    · next x hids =>
      cases h
      refine ⟨rfl, rfl, ?_, ?_⟩
      · intro _ y
        rw [← hmem, hids]
        simp [eq_comm]
      · intro x hx
        rw [hnone] at hx
        cases hx
    · cases h

theorem tupDbCreateUniqueLink_spec {s s' : LinkState}
    (hgroups : ∀ x g, NormalAdj s.db x b → s.db.isGroup g = true →
      (NormalAdj s.db b g ↔ NormalAdj s.db x g))
    (hcache : ∀ x y, s.incoming b = some x → NormalAdj s.db y b → y = x)
    (h : tupDbCreateUniqueLink a s b = some s') : Taken a s s' b := by
  obtain ⟨⟨m, incoming⟩, hget, h⟩ := Option.bind_eq_some_iff.1 h
  obtain ⟨hdb, hinc, hnone, hsome⟩ := tupDbGetIncomingLink_spec hget
  cases incoming with
  | none =>
    obtain ⟨db, hrm, h⟩ := Option.bind_eq_some_iff.1 h
    cases h
    have hs : s.incoming b = none := by
      cases hb : s.incoming b with
      | none => rfl
      | some x => exact (Option.some_ne_none x (hsome x hb).symm).elim
    have hno : ∀ x, ¬ NormalAdj s.db x b := fun x hx => by simpa using (hnone hs x).1 hx
    rw [hdb] at hrm
    have hedit := removeFromGroupOf_edit hrm
    have hmem := fun x y => hedit.mem (.normal x y)
    simp only [has_normal, Row.never, or_false, Row.normal.injEq] at hmem
    refine ⟨hedit.node, ?_, ?_, ?_, ?_, ?_, ?_, ?_⟩
    · intro x y
      simp [hedit.mem, Row.never]
    · intro x y z
      simp [hedit.mem, Row.never]
    · intro x y hx hy
      rw [hmem]
      simp [hx]
    · intro x
      rw [hmem]
      simp [hno]
    · intro y hy
      rw [hmem]
      simp only [StaleFor, hs, hno]
      grind
    · intro x hx
      simp [hinc, hx]
    · simp [hinc]
  | some c =>
    have hcb : ∀ x, NormalAdj s.db x b → x = c := by
      intro x hx
      cases hb : s.incoming b with
      | none => exact (Option.some.inj ((hnone hb x).1 hx)).symm
      | some y => rw [Option.some.inj (hsome y hb)]; exact hcache y x hb hx
    have hstale : ∀ y, StaleFor a s b y ↔ s.incoming b = some c ∧ ¬ NormalAdj s.db c b ∧
        ¬ (c ≠ a ∧ NormalAdj s.db c y) := by
      intro y
      unfold StaleFor
      constructor
      · rintro ⟨x, hx, h1, h2⟩
        obtain rfl := Option.some.inj (hsome x hx)
        exact ⟨hx, h1, h2⟩
      · rintro ⟨hx, h1, h2⟩
        exact ⟨c, hx, h1, h2⟩
    have hvalid : s.incoming b = none → NormalAdj s.db c b := fun hb => (hnone hb c).2 rfl
    have hcase : s.incoming b = none ∨ s.incoming b = some c := by
      cases hb : s.incoming b with
      | none => exact .inl rfl
      | some x => exact .inr (hsome x hb).symm
    dsimp only at h
    split at h
    · next hca =>
      cases h
      subst hca
      refine ⟨by rw [hdb], ?_, ?_, ?_, ?_, ?_, ?_, ?_⟩
      · intro x y
        rw [hdb]
      · intro x y z
        rw [hdb]
      · intro x y _ _
        rw [hdb]
      · intro x
        rw [hdb]
        exact (and_iff_left_of_imp (hcb x)).symm
      · intro y _
        rw [hdb, hstale]
        grind
      · intro x hx
        simp [hinc, hx]
      · simp [hinc]
    · next hca =>
      obtain ⟨db, hrm, h⟩ := Option.bind_eq_some_iff.1 h
      cases h
      rw [hdb] at hrm
      have hedit := (removeFromGroupOf_edit hrm).trans (linkRemove_edit db c b .normal)
      have hmem := fun x y => hedit.mem (.normal x y)
      simp only [has_normal, Row.never, LinkType.row, false_and, or_false, Row.normal.injEq] at hmem
      refine ⟨hedit.node, ?_, ?_, ?_, ?_, ?_, ?_, ?_⟩
      · intro x y
        rw [hedit.mem]
        simp [Row.never, LinkType.row]
      · intro x y z
        rw [hedit.mem]
        simp [Row.never, LinkType.row]
      · intro x y hx hy
        rw [hmem]
        simp [hx, hy]
      · intro x
        rw [hmem]
        have := hcb x
        grind
      · intro y hy
        rw [hmem, hstale]
        have hab : ¬ NormalAdj s.db a b := fun hab => hca (hcb a hab).symm
        have hg := hgroups c y
        grind
      · intro x hx
        simp [hinc, hx]
      · simp

/-! ### Writing outputs -/

/-- The links of a target of the command: from the command, and to the group when there is one. -/
def OutputRow (c : TupId) (group : Option TupId) (i : TupId) (r : Row) : Prop :=
  r = .normal c i ∨ ∃ g, group = some g ∧ r = .normal i g

theorem addOutput_edit {group : Option TupId} {s s' : ParseOutputState}
    (h : addOutput c group s i = some s') : Edit Row.never (OutputRow c group i) s.db s'.db := by
  obtain ⟨db₁, h₁, h⟩ := Option.bind_eq_some_iff.1 h
  obtain ⟨db₂, h₂, h⟩ := Option.bind_eq_some_iff.1 h
  cases h
  cases group with
  | none =>
    cases h₂
    exact (linkInsert_edit h₁).congr (fun _ => .rfl) (by simp [OutputRow, LinkType.row])
  | some g =>
    exact ((linkInsert_edit h₁).trans (linkInsert_edit h₂)).congr (by simp [Row.never])
      (by simp [OutputRow, LinkType.row, Row.never])

theorem rmOutput_edit {group : Option TupId} {s s' : ParseOutputState}
    (h : rmOutput c group s i = some s') : Edit (OutputRow c group i) Row.never s.db s'.db := by
  obtain ⟨tent, -, h⟩ := Option.bind_eq_some_iff.1 h
  have hghost : ∀ db : Db, Edit Row.never Row.never db
      (if tent.type = .ghost then tupEntryAddGhostTree db tent else db) := by
    intro db
    split
    · exact tupEntryAddGhostTree_edit tent
    · exact .refl db
  cases h
  cases group with
  | none =>
    exact ((linkRemove_edit s.db c i .normal).trans (hghost _)).congr
      (by simp [OutputRow, LinkType.row, Row.never]) (by simp [Row.never])
  | some g =>
    exact (((linkRemove_edit s.db c i .normal).trans (linkRemove_edit _ i g .normal)).trans
      (hghost _)).congr (by simp [OutputRow, LinkType.row, Row.never]) (by simp [Row.never])

/-- The links to a group of the command and these outputs. -/
def GroupRow (c : TupId) (root : TentTree) (g : TupId) (r : Row) : Prop :=
  r = .normal c g ∨ ∃ o, o ∈ root ∧ r = .normal o g

theorem joinGroup_edit {root : TentTree} (h : joinGroup c root db g = some db') :
    Edit Row.never (GroupRow c root g) db db' := by
  obtain ⟨db₁, h₁, h⟩ := Option.bind_eq_some_iff.1 h
  have hstep : ∀ (db db' : Db) (o : TupId), linkInsert db o g .normal = some db' →
      Edit Row.never (· = .normal o g) db db' := fun db db' o h => linkInsert_edit h
  have hloop := Edit.foldlM (π := id) (R := fun _ => Row.never) (A := fun o r => r = .normal o g)
    (fun o _ m m' _ hm => hstep m m' o hm) (fun _ _ _ _ _ _ hR => hR) h₁
  apply (hloop.trans (linkInsert_edit h)).congr
  · simp [Row.never]
  · intro r
    simp [GroupRow, LinkType.row, Row.never, TentTree.mem_def, or_comm]

theorem leaveGroup_edit {root : TentTree} (h : leaveGroup c root db g = some db') :
    Edit (GroupRow c root g) Row.never db db' := by
  obtain ⟨tent, -, h⟩ := Option.bind_eq_some_iff.1 h
  cases h
  have hstep : ∀ (db : Db) (o : TupId), Edit (· = .normal o g) Row.never db
      (tupDbModifyCmdsByInput (linkRemove db o g .normal) o) := by
    intro db o
    exact ((linkRemove_edit db o g .normal).trans (setFlags_edit _)).congr
      (by simp [LinkType.row, Row.never]) (by simp [Row.never])
  have hloop : ∀ (l : List TupId) (db : Db), Edit (fun r => ∃ o ∈ l, r = .normal o g) Row.never db
      (l.foldl (fun db o => tupDbModifyCmdsByInput (linkRemove db o g .normal) o) db) := by
    intro l
    induction l with
    | nil => exact fun db => (Edit.refl db).congr (by simp [Row.never]) (fun _ => .rfl)
    | cons o l ih =>
      exact fun db => ((hstep db o).trans (ih _)).congr (by simp) (by simp [Row.never])
  apply ((((hloop root.ids db).trans (linkRemove_edit _ c g .normal)).trans
    (setFlags_edit _)).trans (tupEntryAddGhostTree_edit tent)).congr
  · intro r
    simp [GroupRow, LinkType.row, Row.never, TentTree.mem_def, or_comm]
  · simp [Row.never]

theorem exists_outputRow {P : TupId → Prop} {group : Option TupId} {x y : TupId} :
    (∃ i, P i ∧ OutputRow c group i (.normal x y)) ↔ x = c ∧ P y ∨ group = some y ∧ P x := by
  simp only [OutputRow, Row.normal.injEq]
  grind

theorem exists_groupRow {root : TentTree} {group : Option TupId} {x y : TupId} :
    (∃ g, group = some g ∧ GroupRow c root g (.normal x y)) ↔
      group = some y ∧ (x = c ∨ x ∈ root) := by
  simp only [GroupRow, Row.normal.injEq]
  grind

theorem changeGroup_edit {old : CmdOutputs} {root : TentTree} {group : Option TupId}
    (h : changeGroup c old root group db = some db') :
    Edit (fun r => old.group ≠ group ∧ ∃ g, old.group = some g ∧ GroupRow c old.outputRoot g r)
      (fun r => (old.group ≠ group ∧ ∃ g, group = some g ∧ GroupRow c root g r) ∧
        ¬ ∃ g, old.group = some g ∧ GroupRow c old.outputRoot g r) db db' := by
  unfold changeGroup at h
  split at h
  · next heq =>
    cases h
    exact (Edit.refl db).congr (by simp [heq, Row.never]) (by simp [heq, Row.never])
  · next hne =>
    obtain ⟨db₁, h₁, h⟩ := Option.bind_eq_some_iff.1 h
    have hjoin : Edit Row.never (fun r => ∃ g, group = some g ∧ GroupRow c root g r) db db₁ := by
      cases group with
      | none =>
        cases h₁
        exact (Edit.refl db).congr (fun _ => .rfl) (by simp [Row.never])
      | some g => exact (joinGroup_edit h₁).congr (fun _ => .rfl) (by simp)
    have hleave : Edit (fun r => ∃ g, old.group = some g ∧ GroupRow c old.outputRoot g r)
        Row.never db₁ db' := by
      cases hold : old.group with
      | none =>
        rw [hold] at h
        cases h
        exact (Edit.refl db').congr (by simp [Row.never]) (fun _ => .rfl)
      | some g =>
        rw [hold] at h
        exact (leaveGroup_edit h).congr (by simp) (fun _ => .rfl)
    exact (hjoin.trans hleave).congr (by simp [hne, Row.never]) (by simp [hne, Row.never])

theorem flagOutputsDiffer_edit (cmdtent : TupEntry) (group : Option TupId) :
    Edit Row.never Row.never db (flagOutputsDiffer cmdtent group db) := by
  have htransient : ∀ db : Db, Edit Row.never Row.never db (if isTransientTent cmdtent then
      db.setFlags (tupDbAddTransientList db.flags cmdtent.tupid) else db) := by
    intro db
    split
    · exact setFlags_edit _
    · exact .refl db
  have hgroup : ∀ db : Db, Edit Row.never Row.never db (group.elim db db.addModify) := by
    intro db
    cases group with
    | none => exact .refl db
    | some g => exact setFlags_edit _
  exact (((setFlags_edit _).trans (htransient _)).trans (hgroup _)).congr
    (by simp [Row.never]) (by simp [Row.never])

/-- What `tup_db_write_outputs` leaves. -/
structure OutputsWritten (exclusionDt : TupId) (db : Db) (c : TupId) (root exclusionRoot : TentTree)
    (group : Option TupId) (db' : Db) (old : Option TupId) : Prop where
  node : db'.node = db.node
  sticky : ∀ x y, db'.Has (.sticky x y) ↔ db.Has (.sticky x y)
  groupLink : ∀ x y z, db'.Has (.group x y z) ↔ db.Has (.group x y z)
  old : ∀ g, old = some g ↔ NormalAdj db c g ∧ db.isGroup g = true
  ofCmd : ∀ y, NormalAdj db' c y ↔ y ∈ root ∨ y ∈ exclusionRoot ∨ group = some y
  other : ∀ x y, x ≠ c → (NormalAdj db' x y ↔
    NormalAdj db x y ∧ ¬ (NormalAdj db c x ∧ db.isGroup x = false ∧
      db.isExclusion exclusionDt x = false ∧ db.isGroup y = true) ∨ x ∈ root ∧ group = some y)
  fresh : ∀ o ∈ root, ¬ NormalAdj db c o → ∀ g, group = some g → ¬ NormalAdj db o g

/-- The walk over the old and the new targets of one kind. -/
theorem compareOutputs_edit {old root : TentTree} {group : Option TupId} {s s' : ParseOutputState}
    (hold : c ∉ old) (hroot : group.isSome → c ∉ root)
    (h : compareTentTrees old root (rmOutput c group) (addOutput c group) s = some s') :
    Edit (fun r => ∃ i, (i ∈ old ∧ i ∉ root) ∧ OutputRow c group i r)
      (fun r => ∃ i, (i ∈ root ∧ i ∉ old) ∧ OutputRow c group i r) s.db s'.db := by
  have hmem : ∀ z, z ∈ Lib.diff old.ids root.ids ↔
      z.elim (fun i => i ∈ old ∧ i ∉ root) (fun i => i ∈ root ∧ i ∉ old) :=
    Lib.mem_diff old.sorted root.sorted
  apply (Edit.compareTentTrees (π := ParseOutputState.db) (fun m i m' _ hm => rmOutput_edit hm)
    (fun m i m' _ hm => addOutput_edit hm) _ h).congr
  · intro r
    simp [Row.never]
  · intro r
    simp [Row.never]
  · rintro (i | i) hi (j | j) hj r hA hR
    · exact hA
    · exact hA
    · rw [hmem] at hi hj
      simp only [Sum.elim_inl, Sum.elim_inr] at hi hj hA hR
      unfold OutputRow at hA hR
      grind
    · exact hR

theorem tupDbWriteOutputs_spec {cmdtent : TupEntry} {root exclusionRoot : TentTree}
    {group old : Option TupId} {commandModified : Bool}
    (hself : ¬ NormalAdj db cmdtent.tupid cmdtent.tupid)
    (hroot : ∀ o ∈ root, o ≠ cmdtent.tupid ∧ db.isGroup o = false ∧
      db.isExclusion exclusionDt o = false)
    (hexclusion : ∀ x ∈ exclusionRoot, db.isGroup x = false ∧ db.isExclusion exclusionDt x = true)
    (hgroup : ∀ g, group = some g → db.isGroup g = true)
    (hgroups : ∀ o g, NormalAdj db cmdtent.tupid o → db.isGroup o = false →
      db.isExclusion exclusionDt o = false → db.isGroup g = true →
        (NormalAdj db o g ↔ NormalAdj db cmdtent.tupid g))
    (h : tupDbWriteOutputs exclusionDt db cmdtent root exclusionRoot group commandModified =
      some (db', old)) :
    OutputsWritten exclusionDt db cmdtent.tupid root exclusionRoot group db' old := by
  obtain ⟨out, hout, h⟩ := Option.bind_eq_some_iff.1 h
  obtain ⟨hO, hX, hG⟩ := tupDbGetOutputs_spec hout
  obtain ⟨db₁, h₁, h⟩ := Option.bind_eq_some_iff.1 h
  obtain ⟨s₂, h₂, h⟩ := Option.bind_eq_some_iff.1 h
  obtain ⟨s₃, h₃, h⟩ := Option.bind_eq_some_iff.1 h
  cases h
  set c := cmdtent.tupid with hc
  have e₁ := changeGroup_edit h₁
  have e₂ := compareOutputs_edit (fun hcO => hself ((hO c).1 hcO).1)
    (fun _ hcr => (hroot c hcr).1 rfl) h₂
  have e₃ := compareOutputs_edit (fun hcX => hself ((hX c).1 hcX).1) (by simp) h₃
  have e₄ : Edit Row.never Row.never s₃.db
      (if s₃.outputsDiffer = true then flagOutputsDiffer cmdtent group s₃.db else s₃.db) := by
    split
    · exact flagOutputsDiffer_edit cmdtent group
    · exact .refl _
  have hedit := ((e₁.trans e₂).trans e₃).trans e₄
  have hN := fun x y => hedit.mem (.normal x y)
  have hfresh := fun x y => hedit.fresh (.normal x y)
  simp only [has_normal, exists_outputRow, exists_groupRow, Row.never, not_false_eq_true, and_true,
    or_false, reduceCtorEq, false_and] at hN hfresh
  have hcO : c ∉ out.outputRoot := fun hcO => hself ((hO c).1 hcO).1
  have hcroot : c ∉ root := fun hcr => (hroot c hcr).1 rfl
  refine ⟨hedit.node, ?_, ?_, hG, ?_, ?_, ?_⟩
  · intro x y
    rw [hedit.mem]
    simp [OutputRow, GroupRow, Row.never]
  · intro x y z
    rw [hedit.mem]
    simp [OutputRow, GroupRow, Row.never]
  · intro y
    rw [hN]
    have h1 := hroot y
    have h2 := hexclusion y
    have h3 := hgroup y
    have h4 := hO y
    have h5 := hX y
    have h6 := hG y
    by_cases hsame : out.group = group
    · simp only [hsame, ne_eq, not_true_eq_false, false_and, if_true]
      grind
    · simp only [hsame, ne_eq, not_false_eq_true, true_and, if_false]
      grind
  · intro x y hx
    rw [hN]
    have h1 := hroot x
    have h3 := hgroup y
    have h4 := hO x
    have h6 := hG y
    have h7 := hgroups x y
    by_cases hsame : out.group = group
    · simp only [hsame, ne_eq, not_true_eq_false, false_and, if_true]
      grind
    · simp only [hsame, ne_eq, not_false_eq_true, true_and, if_false]
      grind
  · intro o ho hco g hg hadj
    have h4 := hO o
    have h8 := hfresh o g
    by_cases hsame : out.group = group
    · simp only [hsame, ne_eq, not_true_eq_false, false_and, if_true] at h8
      grind
    · simp only [hsame, ne_eq, not_false_eq_true, true_and, if_false] at h8
      grind

/-! ### Writing inputs -/

/-- The group link of an input, when the group of the command has not changed. -/
def StickyGroupRow (wid : WriteInputData) (db : Db) (i : TupId) (r : Row) : Prop :=
  db.isGroup i = true ∧ ∃ g, wid.groupid = some g ∧ r = .group i g wid.cmdid

theorem addSticky_edit {wid : WriteInputData} {s s' : WriteInputState}
    (h : addSticky wid s i = some s') :
    Edit Row.never (fun r => StickyGroupRow wid s.db i r ∨
      i ∈ wid.envRoot ∧ r = .normal i wid.cmdid ∨ r = .sticky i wid.cmdid) s.db s'.db := by
  obtain ⟨tent, ht, h⟩ := Option.bind_eq_some_iff.1 h
  obtain ⟨db₁, h₁, h⟩ := Option.bind_eq_some_iff.1 h
  obtain ⟨db₂, h₂, h⟩ := Option.bind_eq_some_iff.1 h
  obtain ⟨db₃, h₃, h⟩ := Option.bind_eq_some_iff.1 h
  cases h
  have hgroup := isGroup_of_tupEntryAdd ht
  obtain ⟨-, rfl⟩ := mem_node_of_tupEntryAdd ht
  have e₁ : Edit Row.never (StickyGroupRow wid s.db tent.tupid) s.db db₁ := by
    unfold addStickyGroup at h₁
    split at h₁
    · next htype =>
      cases hg : wid.groupid with
      | none =>
        rw [hg] at h₁
        cases h₁
        exact (Edit.refl s.db).congr (fun _ => .rfl) (by simp [StickyGroupRow, hg, Row.never])
      | some g =>
        rw [hg] at h₁
        exact (groupLinkInsert_edit h₁).congr (fun _ => .rfl)
          (by simp [StickyGroupRow, hg, hgroup.2 htype])
    · next htype =>
      cases h₁
      exact (Edit.refl s.db).congr (fun _ => .rfl)
        (fun r => ⟨False.elim, fun hr => htype (hgroup.1 hr.1)⟩)
  have e₂ : Edit Row.never
      (fun r => tent.tupid ∈ wid.envRoot ∧ r = .normal tent.tupid wid.cmdid) db₁ db₂ := by
    unfold addStickyEnv at h₂
    simp only [tentTreeSearch_eq, decide_eq_true_eq] at h₂
    split at h₂
    · next henv =>
      obtain ⟨db, hdb, rfl⟩ := Option.map_eq_some_iff.1 h₂
      exact ((linkInsert_edit hdb).trans (setFlags_edit _)).congr (by simp [Row.never])
        (by simp [henv, LinkType.row, Row.never])
    · next henv =>
      cases h₂
      exact (Edit.refl db₁).congr (fun _ => .rfl) (by simp [henv, Row.never])
  exact ((e₁.trans e₂).trans (linkInsert_edit h₃)).congr (by simp [Row.never])
    (by simp [LinkType.row, Row.never, or_assoc])

theorem rmSticky_edit {wid : WriteInputData} {s s' : WriteInputState}
    (h : rmSticky wid s i = some s') :
    Edit (fun r => StickyGroupRow wid s.db i r ∨ r = .normal i wid.cmdid ∨ r = .sticky i wid.cmdid)
      Row.never s.db s'.db := by
  obtain ⟨tent, ht, h⟩ := Option.bind_eq_some_iff.1 h
  have hgroup := isGroup_of_tupEntryAdd ht
  have e₁ := linkRemove_edit s.db i wid.cmdid .sticky
  have e₂ : ∀ db : Db, Edit (· = .normal i wid.cmdid) Row.never db
      (if tupDbLinkExists db i wid.cmdid .normal = true then
        (linkRemove db i wid.cmdid .normal).addModify wid.cmdid else db) := by
    intro db
    rw [tupDbLinkExists_normal]
    split
    · exact ((linkRemove_edit db i wid.cmdid .normal).trans (setFlags_edit _)).congr
        (by simp [LinkType.row, Row.never]) (by simp [Row.never])
    · next hno =>
      -- nothing is there to remove
      refine ⟨rfl, ?_, fun _ h => h.elim⟩
      intro r
      have hr : r = .normal i wid.cmdid → ¬ db.Has r := by
        rintro rfl hr
        exact hno (decide_eq_true hr)
      simp only [Row.never, or_false]
      exact ⟨fun hr' => ⟨hr', fun heq => hr heq hr'⟩, And.left⟩
  split at h
  · next htype =>
    cases h
    have e₃ : ∀ db : Db, Edit Row.never Row.never db (tupEntryAddGhostTree db tent) :=
      fun db => tupEntryAddGhostTree_edit tent
    have e₄ := (e₁.trans (e₂ _)).trans (e₃ _)
    cases hg : wid.groupid with
    | none =>
      exact e₄.congr (by simp [StickyGroupRow, hg, LinkType.row, Row.never, or_comm])
        (by simp [Row.never])
    | some g =>
      refine (e₄.trans (groupLinkRemove_edit _ i g wid.cmdid)).congr ?_ (by simp [Row.never])
      intro r
      simp only [StickyGroupRow, hg, hgroup.2 htype, LinkType.row, Row.never, Option.some.injEq,
        exists_eq_left', true_and, or_false]
      tauto
  · next htype =>
    cases h
    refine (e₁.trans (e₂ _)).congr ?_ (by simp [Row.never])
    intro r
    have hno : ¬ StickyGroupRow wid s.db i r := fun hr => htype (hgroup.1 hr.1)
    simp only [hno, LinkType.row, false_or]
    exact or_comm

theorem renewNormalInputs_edit {wid : WriteInputData} {s : WriteInputState}
    (h : renewNormalInputs wid s = some db') :
    Edit (fun r => s.normalLinksInvalid = true ∧ ∃ x, r = .normal x wid.cmdid)
      (fun r => s.normalLinksInvalid = true ∧ ∃ e, e ∈ wid.envRoot ∧ r = .normal e wid.cmdid)
      s.db db' := by
  unfold renewNormalInputs at h
  split at h
  · next hinv =>
    have hstep : ∀ (db db' : Db) (e : TupId), linkInsert db e wid.cmdid .normal = some db' →
        Edit Row.never (· = .normal e wid.cmdid) db db' := fun db db' e h => linkInsert_edit h
    have hloop := Edit.foldlM (π := id) (R := fun _ => Row.never)
      (A := fun e r => r = .normal e wid.cmdid) (fun e _ m m' _ hm => hstep m m' e hm)
      (fun _ _ _ _ _ _ hR => hR) h
    exact (((setFlags_edit _).trans (deleteNormalInputs_edit _ wid.cmdid)).trans hloop).congr
      (by simp [hinv, Row.never]) (by simp [hinv, Row.never, TentTree.mem_def])
  · next hinv =>
    cases h
    exact (Edit.refl s.db).congr (by simp [hinv, Row.never]) (by simp [hinv, Row.never])

theorem addGroupLinks_edit {inputRoot : TentTree} (h : addGroupLinks c inputRoot db g = some db') :
    Edit Row.never (fun r => ∃ i, i ∈ inputRoot ∧ db.isGroup i = true ∧ r = .group i g c)
      db db' := by
  apply (Edit.foldlM (π := id) (R := fun _ => Row.never)
    (A := fun i r => db.isGroup i = true ∧ r = .group i g c) _ (fun _ _ _ _ _ _ hR => hR) h).congr
  · simp [Row.never]
  · simp [TentTree.mem_def]
  · intro i _ m m' hnode hm
    obtain ⟨tent, ht, hm⟩ := Option.bind_eq_some_iff.1 hm
    have hgroup := isGroup_of_tupEntryAdd ht
    rw [isGroup_congr (show m.node = db.node from hnode)] at hgroup
    split at hm
    · next htype =>
      exact (groupLinkInsert_edit hm).congr (fun _ => .rfl) (by simp [hgroup.2 htype])
    · next htype =>
      cases hm
      exact (Edit.refl _).congr (fun _ => .rfl)
        (fun r => ⟨False.elim, fun hr => htype (hgroup.1 hr.1)⟩)

theorem changeGroupLinks_edit {inputRoot : TentTree} {group oldGroup : Option TupId}
    (h : changeGroupLinks c inputRoot group oldGroup db = some db') :
    Edit (fun r => group ≠ oldGroup ∧ oldGroup.isSome = true ∧ ∃ a b, r = .group a b c)
      (fun r => group ≠ oldGroup ∧ ∃ g, group = some g ∧
        ∃ i, i ∈ inputRoot ∧ db.isGroup i = true ∧ r = .group i g c) db db' := by
  unfold changeGroupLinks at h
  split at h
  · next heq =>
    cases h
    exact (Edit.refl db).congr (by simp [heq, Row.never]) (by simp [heq, Row.never])
  · next hne =>
    have e₁ : Edit (fun r => oldGroup.isSome = true ∧ ∃ a b, r = .group a b c) Row.never db
        (if oldGroup.isSome = true then deleteGroupLinks db c else db) := by
      split
      · next hs => exact (deleteGroupLinks_edit db c).congr (by simp [hs]) (fun _ => .rfl)
      · next hs => exact (Edit.refl db).congr (by simp [hs, Row.never]) (fun _ => .rfl)
    cases group with
    | none =>
      cases h
      exact e₁.congr (by simp [hne]) (by simp [Row.never])
    | some g =>
      refine (e₁.trans (addGroupLinks_edit h)).congr (by simp [hne, Row.never]) ?_
      intro r
      simp [hne, Row.never, isGroup_congr e₁.node]

/-- What `tup_db_write_inputs` leaves. -/
structure InputsWritten (db : Db) (c : TupId) (inputRoot envRoot : TentTree) (group : Option TupId)
    (db' : Db) : Prop where
  node : db'.node = db.node
  sticky : ∀ x y, db'.Has (.sticky x y) ↔ y ≠ c ∧ db.Has (.sticky x y) ∨ y = c ∧ x ∈ inputRoot
  other : ∀ x y, y ≠ c → (NormalAdj db' x y ↔ NormalAdj db x y)
  into : ∀ x, NormalAdj db' x c → NormalAdj db x c ∨ x ∈ envRoot
  otherGroup : ∀ x y z, z ≠ c → (db'.Has (.group x y z) ↔ db.Has (.group x y z))
  groupLink : ∀ x y, db'.Has (.group x y c) ↔ x ∈ inputRoot ∧ db.isGroup x = true ∧ group = some y

theorem tupDbWriteInputs_spec {inputRoot envRoot : TentTree} {group oldGroup : Option TupId}
    (hlinks : ∀ x y, db.Has (.group x y c) ↔
      db.isGroup x = true ∧ db.Has (.sticky x c) ∧ oldGroup = some y)
    (h : tupDbWriteInputs db c inputRoot envRoot group oldGroup = some db') :
    InputsWritten db c inputRoot envRoot group db' := by
  obtain ⟨stickyRoot, hsticky, h₀⟩ := Option.bind_eq_some_iff.1 h
  obtain ⟨s, hs, h₁⟩ := Option.bind_eq_some_iff.1 h₀
  obtain ⟨db₂, h₂, h₃⟩ := Option.bind_eq_some_iff.1 h₁
  have hS := fun x => mem_getStickyInputs (j := x) hsticky
  set wid : WriteInputData :=
    { cmdid := c, groupid := if group = oldGroup then group else none, envRoot } with hwid
  have e₁ : Edit
      (fun r => ∃ i, (i ∈ stickyRoot ∧ i ∉ inputRoot) ∧
        (StickyGroupRow wid db i r ∨ r = .normal i c ∨ r = .sticky i c))
      (fun r => ∃ i, (i ∈ inputRoot ∧ i ∉ stickyRoot) ∧
        (StickyGroupRow wid db i r ∨ i ∈ envRoot ∧ r = .normal i c ∨ r = .sticky i c))
      db s.db := by
    have hcongr : ∀ (m : WriteInputState) (i : TupId) (r : Row), m.db.node = db.node →
        (StickyGroupRow wid m.db i r ↔ StickyGroupRow wid db i r) := by
      intro m i r hnode
      unfold StickyGroupRow
      rw [isGroup_congr hnode]
    apply (Edit.compareTentTrees (π := WriteInputState.db)
      (A := fun i r => StickyGroupRow wid db i r ∨ i ∈ envRoot ∧ r = .normal i c ∨ r = .sticky i c)
      (Q := fun i r => StickyGroupRow wid db i r ∨ r = .normal i c ∨ r = .sticky i c)
      (R := fun _ => Row.never) (B := fun _ => Row.never) _ _ _ hs).congr
    · simp [Row.never]
    · simp [Row.never]
    · intro m i m' hnode hm
      exact (addSticky_edit hm).congr (fun _ => .rfl) (fun r => by rw [hcongr m i r hnode])
    · intro m i m' hnode hm
      exact (rmSticky_edit hm).congr (fun r => by rw [hcongr m i r hnode]) (fun _ => .rfl)
    · rintro (i | i) hi (j | j) hj r hA hR
      · exact hR
      · rw [Lib.mem_diff inputRoot.sorted stickyRoot.sorted] at hi hj
        simp only [Sum.elim_inl, Sum.elim_inr] at hi hj hA hR
        have hij : i ≠ j := by
          rintro rfl
          exact hi.2 hj.1
        unfold StickyGroupRow at hA hR
        grind
      · exact hA
      · exact hA
  have e₂ := renewNormalInputs_edit h₂
  have e₃ := changeGroupLinks_edit h₃
  have hedit := (e₁.trans e₂).trans e₃
  have hnode₂ := e₂.node.trans e₁.node
  refine ⟨hedit.node, ?_, ?_, ?_, ?_, ?_⟩
  · intro x y
    rw [hedit.mem]
    simp only [StickyGroupRow, Row.sticky.injEq, reduceCtorEq, and_false, exists_false, or_false,
      false_or, not_false_eq_true, and_true]
    have := hS x
    grind
  · intro x y hy
    rw [← has_normal, hedit.mem]
    simp [StickyGroupRow, hwid, hy]
    rfl
  · intro x hx
    rw [← has_normal, hedit.mem] at hx
    simp only [StickyGroupRow, Row.normal.injEq, reduceCtorEq, and_false, exists_false, or_false,
      false_or, and_true] at hx
    rcases hx with ⟨hx, -⟩ | ⟨⟨⟨i, -, henv, rfl⟩, -⟩ | ⟨-, e, henv, rfl, -⟩, -⟩
    · exact .inl hx
    · exact .inr henv
    · exact .inr henv
  · intro x y z hz
    rw [hedit.mem]
    simp [StickyGroupRow, hwid, hz]
  · intro x y
    rw [hedit.mem, hlinks]
    simp only [StickyGroupRow, hwid, Row.group.injEq, reduceCtorEq, and_false, exists_false,
      or_false, isGroup_congr hnode₂]
    have hx := hS x
    clear_value wid
    clear hedit e₁ e₂ e₃ hs h₀ h₁ h₂ h₃ h hsticky hlinks hS hwid
    by_cases hsame : group = oldGroup
    · subst hsame
      simp
      grind
    · simp [hsame]
      grind

end Metatup
