import Mathlib.Data.Set.Basic
import Mathlib.Logic.Relation
import Metatup.Db.DeleteName

/-!
# What a removal does

A removal visits the node it is called for and everything below it, each node once. Which nodes it
visits, and with which force, is determined by the rows before the call: `Visits`.

* `Removes`: the effect of a set of visits on the rows, the links and the lists, in terms of the
  database before.
* `Removes.union`: effects compose.
* `tupDelIdType_removes`: a removal has the effect of its visits.
-/

namespace Metatup

/-! ### Rows that stay, and rows that fade -/

/-- The part of a row that a removal elsewhere leaves alone. -/
def TupEntry.core (t : TupEntry) : TupEntry := { t with srcid := 0 }

theorem TupEntry.eq_of_core {t u : TupEntry} (h : t.core = u.core) :
    t.tupid = u.tupid ∧ t.dt = u.dt ∧ t.type = u.type ∧ t.name = u.name := by
  unfold TupEntry.core at h
  injection h with hid hdt htype _ hname
  exact ⟨hid, hdt, htype, hname⟩

/-- The row of the ghost that a node leaves behind. -/
def TupEntry.ghostly (t : TupEntry) : TupEntry := { t.core with type := .ghost }

/-- The row stays. -/
def Stays (o o' : Option TupEntry) : Prop := o'.map TupEntry.core = o.map TupEntry.core

/-- The row stays, becomes a ghost or is gone. -/
def Fades (o o' : Option TupEntry) : Prop :=
  o' = none ∨ Stays o o' ∨ o'.map TupEntry.core = o.map TupEntry.ghostly

section

variable {o o' o'' : Option TupEntry}

theorem Stays.trans (h : Stays o o') (h' : Stays o' o'') : Stays o o'' := Eq.trans h' h

theorem Stays.fades (h : Stays o o') : Fades o o' := .inr (.inl h)

theorem Stays.ghostly (h : Stays o o') : o'.map TupEntry.ghostly = o.map TupEntry.ghostly := by
  have hg : ∀ p : Option TupEntry,
      p.map TupEntry.ghostly = (p.map TupEntry.core).map TupEntry.ghostly := by
    intro p
    rw [Option.map_map]
    rfl
  rw [hg o', hg o, h]

theorem Fades.trans (h : Fades o o') (h' : Fades o' o'') : Fades o o'' := by
  rcases h' with h' | h' | h'
  · exact .inl h'
  · rcases h with rfl | h | h
    · exact .inl (by simpa [Stays] using h')
    · exact .inr (.inl (h.trans h'))
    · exact .inr (.inr (Eq.trans h' h))
  · rcases h with rfl | h | h
    · exact .inl (by simpa using h')
    · exact .inr (.inr (h'.trans h.ghostly))
    · have hg : o'.map TupEntry.ghostly = (o'.map TupEntry.core).map TupEntry.ghostly := by
        rw [Option.map_map]
        rfl
      rw [hg, h, Option.map_map] at h'
      exact .inr (.inr h')

/-- A row that is no ghost has stayed. -/
theorem Fades.of_type {t' : TupEntry} (h : Fades o (some t')) (ht : t'.type ≠ .ghost) :
    ∃ t, o = some t ∧ t'.core = t.core := by
  rcases h with h | h | h
  · cases h
  · obtain ⟨t, rfl, hcore⟩ := Option.map_eq_some_iff.1 (Eq.symm h)
    exact ⟨t, rfl, hcore.symm⟩
  · obtain ⟨t, rfl, hcore⟩ := Option.map_eq_some_iff.1 (Eq.symm h)
    have htype : NodeType.ghost = t'.type := congrArg TupEntry.type hcore
    exact absurd htype.symm ht

/-- What is left of a row is in its place. -/
theorem Fades.place {t' : TupEntry} (h : Fades o (some t')) :
    ∃ t, o = some t ∧ t'.dt = t.dt ∧ t'.name = t.name := by
  rcases h with h | h | h
  · cases h
  · obtain ⟨t, rfl, hcore⟩ := Option.map_eq_some_iff.1 (Eq.symm h)
    obtain ⟨-, hdt, -, hname⟩ := TupEntry.eq_of_core hcore
    exact ⟨t, rfl, hdt.symm, hname.symm⟩
  · obtain ⟨t, rfl, hcore⟩ := Option.map_eq_some_iff.1 (Eq.symm h)
    have hdt : t.ghostly.dt = t'.core.dt := congrArg TupEntry.dt hcore
    have hname : t.ghostly.name = t'.core.name := congrArg TupEntry.name hcore
    exact ⟨t, rfl, hdt.symm, hname.symm⟩

/-- What has become a ghost stays one. -/
theorem Fades.ghost (h : Fades o o') (ho : ∀ t, o = some t → t.type = .ghost) {t' : TupEntry}
    (ht : o' = some t') : t'.type = .ghost := by
  by_contra hne
  subst ht
  obtain ⟨t, rfl, hcore⟩ := h.of_type hne
  exact hne ((congrArg TupEntry.type hcore).trans (ho t rfl))

end

/-- The type of a node. -/
def nodeType (db : Db) (i : TupId) : Option NodeType := (tupEntryAdd db i).map TupEntry.type

theorem nodeType_of_fades {db db' : Db} {i : TupId} {type : NodeType}
    (h : Fades (tupEntryAdd db i) (tupEntryAdd db' i)) (ht : nodeType db' i = some type)
    (hne : type ≠ .ghost) : nodeType db i = some type := by
  obtain ⟨t', ht', rfl⟩ := Option.map_eq_some_iff.1 ht
  rw [ht'] at h
  obtain ⟨t, ht, hcore⟩ := h.of_type hne
  unfold nodeType
  rw [ht]
  exact congrArg some (congrArg TupEntry.type hcore).symm

/-! ### Visits -/

/-- A call of `tup_del_id_type` during a removal: the row before the removal, and the force. -/
structure Visit where
  tent : TupEntry
  force : Bool

/-- The visited node. -/
abbrev Visit.id (v : Visit) : TupId := v.tent.tupid

/-- The visit removes the node with its links. -/
def Visit.Cuts (v : Visit) : Prop :=
  v.tent.name ≠ tupConfig ∧
    match v.tent.type with
    | .ghost | .group | .generatedDir => False
    | .generated => v.force = true
    | _ => True

instance (v : Visit) : Decidable v.Cuts := by
  unfold Visit.Cuts
  split <;> infer_instance

/-- The visit leaves a ghost or nothing. -/
def Visit.Ghosts (v : Visit) : Prop :=
  v.Cuts ∨ v.tent.name = tupConfig ∨ (v.tent.type = .generatedDir ∧ v.force = true)

/-- The visit is to a generated file that was deleted outside of the parser. -/
def Visit.Missing (v : Visit) : Prop :=
  v.tent.name ≠ tupConfig ∧ v.tent.type = .generated ∧ v.force = false ∧ v.tent.name ≠ gitignore

/-- The visit puts the command `c` into the modify list. -/
def Visit.FlagsCmd (db : Db) (v : Visit) (c : TupId) : Prop :=
  (v.Cuts ∧ (v.tent.type = .file ∨ v.tent.type = .generated) ∧ NormalAdj db v.id c) ∨
    (v.Missing ∧ NormalAdj db c v.id)

/-- The visit puts the directory `d` into the create list, as a dependent. -/
def Visit.FlagsDir (db : Db) (v : Visit) (d : TupId) : Prop :=
  v.Cuts ∧ (v.tent.type = .file ∨ v.tent.type = .dir) ∧ NormalAdj db v.id d

/-- From a directory a removal goes on to the entries of the directory. -/
def VisitStep (db : Db) (v w : Visit) : Prop :=
  w.tent ∈ db.node ∧ w.tent.dt = v.id ∧ v.tent.name ≠ tupConfig ∧
    ((v.tent.type = .dir ∧ w.force = (w.tent.type ≠ .dir || v.force)) ∨
      (v.tent.type = .generatedDir ∧ w.force = v.force))

/-- A removal that visits `v` visits `w`. -/
def Visits (db : Db) : Visit → Visit → Prop := Relation.ReflTransGen (VisitStep db)

/-! ### Effects -/

/-- The effect of the visits `V` that a removal makes in `db`. -/
structure Removes (db : Db) (V : Set Visit) (db' : Db) : Prop where
  nodup : (db.node.map TupEntry.tupid).Nodup → (db'.node.map TupEntry.tupid).Nodup
  stays : ∀ j, (∀ v ∈ V, v.id ≠ j) → Stays (tupEntryAdd db j) (tupEntryAdd db' j)
  fades : ∀ j, Fades (tupEntryAdd db j) (tupEntryAdd db' j)
  gone : ∀ v ∈ V, v.Ghosts → ∀ t, tupEntryAdd db' v.id = some t → t.type = .ghost
  remains : ∀ j, (∀ v ∈ V, v.Cuts → v.id ≠ j) →
    (tupEntryAdd db j).isSome → (tupEntryAdd db' j).isSome
  links : ∀ a b, NormalAdj db' a b ↔
    NormalAdj db a b ∧ ∀ v ∈ V, v.Cuts → a ≠ v.id ∧ b ≠ v.id
  modify : ∀ c, nodeType db' c = some .cmd →
    (c ∈ db'.flags.modify ↔ c ∈ db.flags.modify ∨ ∃ v ∈ V, v.FlagsCmd db c)
  create : ∀ d, nodeType db' d = some .dir →
    (d ∈ db.flags.create ∨ ∃ v ∈ V, v.FlagsDir db d) → d ∈ db'.flags.create

namespace Removes

variable {db db₁ db₂ : Db} {V W : Set Visit}

/-- A node that is not a ghost has not been cut. -/
theorem not_cut (h : Removes db V db₁) {c : TupId} {type : NodeType}
    (hc : nodeType db₁ c = some type) (hne : type ≠ .ghost) : ∀ v ∈ V, v.Cuts → c ≠ v.id := by
  rintro v hv hcut rfl
  obtain ⟨t, ht, rfl⟩ := Option.map_eq_some_iff.1 hc
  exact hne (h.gone v hv (.inl hcut) t ht)

/-- The links between what has not been cut are the links before. -/
theorem links_of_not_cut (h : Removes db V db₁) {a b : TupId}
    (ha : ∀ v ∈ V, v.Cuts → a ≠ v.id) (hb : ∀ v ∈ V, v.Cuts → b ≠ v.id) :
    NormalAdj db₁ a b ↔ NormalAdj db a b := by
  rw [h.links]
  exact and_iff_left fun v hv hcut => ⟨ha v hv hcut, hb v hv hcut⟩

/-- Effects of disjoint sets of visits compose. -/
theorem union (h : Removes db V db₁) (h₁ : Removes db₁ W db₂)
    (hdisj : ∀ v ∈ V, ∀ w ∈ W, v.id ≠ w.id) : Removes db (V ∪ W) db₂ where
  nodup hnd := h₁.nodup (h.nodup hnd)
  stays j hj := (h.stays j fun v hv => hj v (.inl hv)).trans (h₁.stays j fun w hw => hj w (.inr hw))
  fades j := (h.fades j).trans (h₁.fades j)
  gone v hv hcut t ht := by
    rcases hv with hv | hv
    · exact (h₁.fades v.id).ghost (h.gone v hv hcut) ht
    · exact h₁.gone v hv hcut t ht
  remains j hj hsome :=
    h₁.remains j (fun w hw => hj w (.inr hw)) (h.remains j (fun v hv => hj v (.inl hv)) hsome)
  links a b := by
    rw [h₁.links, h.links, and_assoc, and_congr_right_iff]
    intro _
    constructor
    · rintro ⟨hV, hW⟩ v (hv | hv)
      · exact hV v hv
      · exact hW v hv
    · exact fun hVW => ⟨fun v hv => hVW v (.inl hv), fun v hv => hVW v (.inr hv)⟩
  modify c hc := by
    have hc₁ := nodeType_of_fades (h₁.fades c) hc (by decide)
    have hflag : ∀ w ∈ W, (w.FlagsCmd db₁ c ↔ w.FlagsCmd db c) := by
      intro w hw
      have hcut := h.not_cut hc₁ (by decide)
      have hwcut : ∀ v ∈ V, v.Cuts → w.id ≠ v.id := fun v hv _ => (hdisj v hv w hw).symm
      unfold Visit.FlagsCmd
      rw [h.links_of_not_cut hwcut hcut, h.links_of_not_cut hcut hwcut]
    rw [h₁.modify c hc, h.modify c hc₁, or_assoc, or_congr_right]
    constructor
    · rintro (⟨v, hv, hf⟩ | ⟨w, hw, hf⟩)
      · exact ⟨v, .inl hv, hf⟩
      · exact ⟨w, .inr hw, (hflag w hw).1 hf⟩
    · rintro ⟨v, hv | hv, hf⟩
      · exact .inl ⟨v, hv, hf⟩
      · exact .inr ⟨v, hv, (hflag v hv).2 hf⟩
  create d hd hor := by
    have hd₁ := nodeType_of_fades (h₁.fades d) hd (by decide)
    apply h₁.create d hd
    rcases hor with hor | ⟨v, hv | hv, hf⟩
    · exact .inl (h.create d hd₁ (.inl hor))
    · exact .inl (h.create d hd₁ (.inr ⟨v, hv, hf⟩))
    · refine .inr ⟨v, hv, hf.1, hf.2.1, ?_⟩
      have hcut := h.not_cut hd₁ (by decide)
      have hvcut : ∀ u ∈ V, u.Cuts → v.id ≠ u.id := fun u hu _ => (hdisj u hu v hv).symm
      exact (h.links_of_not_cut hvcut hcut).2 hf.2.2

/-- A statement that only adds. -/
theorem of_grows (h : Grows db db₁) : Removes db ∅ db₁ where
  nodup hnd := by rwa [h.node]
  stays j _ := by
    unfold Stays
    rw [h.tupEntryAdd]
  fades j := by
    apply Stays.fades
    unfold Stays
    rw [h.tupEntryAdd]
  gone v hv := hv.elim
  remains j _ hsome := by rwa [h.tupEntryAdd]
  links a b := by simp [h.normalAdj]
  modify c _ := by simp [h.modify]
  create d _ hor := by
    apply h.create
    simpa using hor

/-- Nothing happens. -/
theorem refl (db : Db) : Removes db ∅ db := of_grows (.refl db)

/-- A statement that only adds comes after. -/
theorem grows (h : Removes db V db₁) (h₁ : Grows db₁ db₂) : Removes db V db₂ := by
  have := h.union (of_grows h₁) (by simp)
  rwa [Set.union_empty] at this

/-- The `srcid` of a node may change. -/
theorem setSrcid (h : Removes db V db₁) (i srcid : TupId) :
    Removes db V (tupDbSetSrcid db₁ i srcid) := by
  have hstays : ∀ j, Stays (tupEntryAdd db₁ j) (tupEntryAdd (tupDbSetSrcid db₁ i srcid) j) := by
    intro j
    unfold Stays
    rw [tupEntryAdd_setSrcid]
    split
    · rw [Option.map_map]
      rfl
    · rfl
  have hset : Removes db₁ ∅ (tupDbSetSrcid db₁ i srcid) :=
    { nodup := by
        intro hnd
        rwa [map_tupid_setSrcid]
      stays := fun j _ => hstays j
      fades := fun j => (hstays j).fades
      gone := fun v hv => hv.elim
      remains := fun j _ hsome => by
        rw [tupEntryAdd_setSrcid]
        split
        · rwa [Option.isSome_map]
        · exact hsome
      links := fun a b => by simp [NormalAdj, tupDbSetSrcid, Db.updateNode]
      modify := fun c _ => by simp [tupDbSetSrcid, Db.updateNode]
      create := fun d _ hor => by simpa [tupDbSetSrcid, Db.updateNode] using hor }
  have := h.union hset (by simp)
  rwa [Set.union_empty] at this

end Removes

/-! ### One visit -/

section

variable {db db' : Db} {v : Visit} {t : TupEntry}

/-- A visit that neither cuts the node nor misses a file flags nothing. -/
theorem Visit.not_flagsCmd (hcut : ¬ v.Cuts) (hmiss : ¬ v.Missing) (c : TupId) :
    ¬ v.FlagsCmd db c := by
  rintro (⟨h, -⟩ | ⟨h, -⟩)
  · exact hcut h
  · exact hmiss h

/-- A visit after which the node is a ghost, with its links. -/
theorem removes_setType (hcut : ¬ v.Cuts) (hmiss : ¬ v.Missing) :
    Removes db {v} (tupDbSetType db v.id .ghost) where
  nodup hnd := by rwa [map_tupid_setType]
  stays j hj := by
    unfold Stays
    rw [tupEntryAdd_setType, if_neg (hj v rfl).symm]
  fades j := by
    rw [tupEntryAdd_setType]
    split
    · refine .inr (.inr ?_)
      rw [Option.map_map]
      rfl
    · exact .inr (.inl rfl)
  gone u hu _ s hs := by
    cases hu
    rw [tupEntryAdd_setType, if_pos rfl] at hs
    obtain ⟨s', -, rfl⟩ := Option.map_eq_some_iff.1 hs
    rfl
  remains j _ hsome := by
    rw [tupEntryAdd_setType]
    split
    · rwa [Option.isSome_map]
    · exact hsome
  links a b := by
    simp [NormalAdj, tupDbSetType, Db.updateNode, hcut]
  modify c _ := by
    simp [tupDbSetType, Db.updateNode, Visit.not_flagsCmd hcut hmiss]
  create d _ hor := by
    simpa [tupDbSetType, Db.updateNode, Visit.FlagsDir, hcut] using hor

/-- A visit that does nothing. -/
theorem removes_self (hghost : ¬ v.Ghosts) (hmiss : ¬ v.Missing) : Removes db {v} db where
  nodup := id
  stays _ _ := rfl
  fades _ := .inr (.inl rfl)
  gone u hu hc := by
    cases hu
    exact absurd hc hghost
  remains _ _ hsome := hsome
  links a b := by simp [show ¬ v.Cuts from fun hc => hghost (.inl hc)]
  modify c _ := by simp [Visit.not_flagsCmd (fun hc => hghost (.inl hc)) hmiss]
  create d _ hor := by simpa [Visit.FlagsDir, show ¬ v.Cuts from fun hc => hghost (.inl hc)] using hor

/-- The visit to a generated file that was deleted outside of the parser. -/
theorem removes_generatedRemoved (hrow : tupEntryAdd db v.id = some t) (hcore : t.core = v.tent.core)
    (htype : v.tent.type = .generated) (hforce : v.force = false)
    (hname : v.tent.name ≠ tupConfig) : Removes db {v} (generatedRemoved db t).1 := by
  obtain ⟨hid, -, hty, hn⟩ := TupEntry.eq_of_core hcore
  have hcut : ¬ v.Cuts := by
    rintro ⟨-, h⟩
    rw [htype] at h
    exact absurd (h : v.force = true) (by simp [hforce])
  have hghost : ¬ v.Ghosts := by
    rintro (h | h | ⟨h, -⟩)
    · exact hcut h
    · exact hname h
    · rw [htype] at h
      cases h
  unfold generatedRemoved
  rw [hn, hid]
  by_cases hg : v.tent.name = gitignore
  · rw [if_pos hg]
    have hmiss : ¬ v.Missing := fun h => h.2.2.2 hg
    exact (removes_self hghost hmiss).grows (.addCreate db t.dt)
  · rw [if_neg hg]
    have hmiss : v.Missing := ⟨hname, htype, hforce, hg⟩
    refine ⟨id, fun _ _ => rfl, fun _ => .inr (.inl rfl), ?_, fun _ _ hsome => hsome, ?_, ?_, ?_⟩
    · rintro u rfl hc
      exact absurd hc hghost
    · intro a b
      simp [NormalAdj, tupDbModifyCmdsByOutput, Db.setFlags, hcut]
    · intro c hc
      have hne : c ≠ v.id := by
        rintro rfl
        have hgen : nodeType db v.id = some t.type := congrArg (Option.map TupEntry.type) hrow
        have hcmd : some NodeType.cmd = some t.type := hc.symm.trans hgen
        rw [hty, htype] at hcmd
        cases hcmd
      have hmod : c ∈ (tupDbModifyCmdsByOutput db v.id).1.flags.modify ↔
          c ∈ db.flags.modify ∨ NormalAdj db c v.id := mem_modifyCmdsByOutput
      simpa [Visit.FlagsCmd, hcut, hmiss, tupDbUnflagModify, Db.setFlags, hne] using hmod
    · intro d _ hor
      simpa [tupDbModifyCmdsByOutput, tupDbUnflagModify, Db.setFlags, Visit.FlagsDir, hcut] using hor

/-- A statement that may change the row of one node, and otherwise only adds. -/
structure ChangesRow (db : Db) (i : TupId) (db' : Db) : Prop where
  nodup : (db.node.map TupEntry.tupid).Nodup → (db'.node.map TupEntry.tupid).Nodup
  row : ∀ j ≠ i, tupEntryAdd db' j = tupEntryAdd db j
  normalLink : db'.normalLink = db.normalLink
  modify : db'.flags.modify = db.flags.modify
  create : db.flags.create ⊆ db'.flags.create

theorem Grows.changesRow (h : Grows db db') (i : TupId) : ChangesRow db i db' :=
  ⟨fun hnd => by rwa [h.node], fun j _ => h.tupEntryAdd j, h.normalLink, h.modify, h.create⟩

theorem ChangesRow.trans {db₁ db₂ : Db} {i : TupId} (h : ChangesRow db i db₁)
    (h₁ : ChangesRow db₁ i db₂) : ChangesRow db i db₂ :=
  ⟨fun hnd => h₁.nodup (h.nodup hnd), fun j hj => (h₁.row j hj).trans (h.row j hj),
    h₁.normalLink.trans h.normalLink, h₁.modify.trans h.modify, h.create.trans h₁.create⟩

theorem checkSrcGhost_grows {srcid : TupId} (h : checkSrcGhost db srcid = some db') :
    Grows db db' := by
  unfold checkSrcGhost at h
  split at h
  · obtain ⟨srctent, -, h⟩ := Option.bind_eq_some_iff.1 h
    cases h
    exact .addGhostTree db srctent
  · cases h
    exact .refl db

theorem deleteNode_changesRow (db : Db) (i : TupId) : ChangesRow db i (deleteNode db i) :=
  ⟨fun hnd => (map_tupid_deleteNode db i).nodup hnd,
    fun j hj => by rw [tupEntryAdd_deleteNode, if_neg hj], rfl, rfl, subset_rfl⟩

/-- The node is gone or a ghost. -/
theorem tupDbDeleteNode_spec {i : TupId} (h : tupDbDeleteNode db i = some db') :
    ChangesRow db i db' ∧ (tupEntryAdd db' i = none ∨
      (tupEntryAdd db' i).map TupEntry.core = (tupEntryAdd db i).map TupEntry.ghostly) := by
  unfold tupDbDeleteNode at h
  simp only [Option.bind_eq_bind, Option.bind_eq_some_iff] at h
  obtain ⟨tent, htent, parent, -, db₁, hsrc, h⟩ := h
  have hgrow := checkSrcGhost_grows hsrc
  split at h
  · cases h
    generalize hm : (if tent.type = .dir then db₁.addCreate i else db₁) = m
    have hgrow₁ : Grows db m := by
      rw [← hm]
      split
      · exact hgrow.trans (.addCreate db₁ i)
      · exact hgrow
    refine ⟨(hgrow₁.changesRow i).trans ⟨?_, ?_, rfl, rfl, subset_rfl⟩, .inr ?_⟩
    · intro hnd
      rwa [map_tupid_setSrcid, map_tupid_setType]
    · intro j hj
      rw [tupEntryAdd_setSrcid, if_neg hj, tupEntryAdd_setType, if_neg hj]
    · rw [tupEntryAdd_setSrcid, if_pos rfl, tupEntryAdd_setType, if_pos rfl, hgrow₁.tupEntryAdd,
        Option.map_map, Option.map_map]
      rfl
  · cases h
    have hghost := Grows.addGhostTree (deleteNode db₁ i) parent
    refine ⟨((hgrow.changesRow i).trans (deleteNode_changesRow db₁ i)).trans (hghost.changesRow i),
      .inl ?_⟩
    rw [hghost.tupEntryAdd, tupEntryAdd_deleteNode, if_pos rfl]

/-- Removing a node with its links and its flags. -/
theorem deleteNameFile_spec {i : TupId} (h : deleteNameFile db i = some db') :
    ((db.node.map TupEntry.tupid).Nodup → (db'.node.map TupEntry.tupid).Nodup) ∧
      (∀ j ≠ i, tupEntryAdd db' j = tupEntryAdd db j) ∧
      (tupEntryAdd db' i = none ∨
        (tupEntryAdd db' i).map TupEntry.core = (tupEntryAdd db i).map TupEntry.ghostly) ∧
      (∀ a b, NormalAdj db' a b ↔ NormalAdj db a b ∧ a ≠ i ∧ b ≠ i) ∧
      (∀ c ≠ i, c ∈ db'.flags.modify ↔ c ∈ db.flags.modify) ∧
      (∀ d ≠ i, d ∈ db.flags.create → d ∈ db'.flags.create) := by
  obtain ⟨db₁, hlinks, h⟩ := Option.bind_eq_some_iff.1 h
  obtain ⟨m, hgrow, rfl⟩ := tupDbDeleteLinks_eq hlinks
  obtain ⟨hrow, hi⟩ := tupDbDeleteNode_spec h
  have hadd : ∀ j, tupEntryAdd (deleteTableLinks m i) j = tupEntryAdd db j := hgrow.tupEntryAdd
  refine ⟨fun hnd => hrow.nodup ?_, fun j hj => (hrow.row j hj).trans (hadd j), ?_, ?_, ?_, ?_⟩
  · show (m.node.map TupEntry.tupid).Nodup
    rw [hgrow.node]
    exact hnd
  · rwa [hadd] at hi
  · intro a b
    have hm : NormalAdj m a b ↔ NormalAdj db a b := hgrow.normalAdj a b
    have hdb : NormalAdj db' a b ↔ NormalAdj (deleteTableLinks m i) a b := by
      unfold NormalAdj
      rw [hrow.normalLink]
    rw [hdb, normalAdj_deleteTableLinks, hm]
  · intro c hc
    have hmod : db'.flags.modify = (unflagAll db.flags i).modify := hrow.modify.trans hgrow.modify
    have huf : (unflagAll db.flags i).modify = db.flags.modify.erase i := rfl
    rw [hmod, huf, Finset.mem_erase]
    exact and_iff_right hc
  · intro d hd hmem
    have huf : (unflagAll db.flags i).create = db.flags.create.erase i := rfl
    apply hrow.create
    apply hgrow.create
    show d ∈ (unflagAll db.flags i).create
    rw [huf, Finset.mem_erase]
    exact ⟨hd, hmem⟩

/-- The flags that the removal of a node sets. -/
theorem flagDependents_spec (db : Db) (t : TupEntry) (force : Bool) :
    (flagDependents db t force).node = db.node ∧
      (flagDependents db t force).normalLink = db.normalLink ∧
      (∀ c, nodeType db c = some .cmd → (c ∈ (flagDependents db t force).flags.modify ↔
        c ∈ db.flags.modify ∨ (t.type = .file ∨ t.type = .generated) ∧ NormalAdj db t.tupid c)) ∧
      (∀ d, nodeType db d = some .dir →
        (d ∈ db.flags.create ∨ (t.type = .file ∨ t.type = .dir) ∧ NormalAdj db t.tupid d) →
          d ∈ (flagDependents db t force).flags.create) := by
  generalize hm : (if t.type = .file ∨ t.type = .dir then tupDbSetDependentFlags db t.tupid
    else db) = m
  have hgrow : Grows db m := by
    rw [← hm]
    split
    · exact .setDependentFlags db t.tupid
    · exact .refl db
  have hdirs : ∀ d, nodeType db d = some .dir →
      (t.type = .file ∨ t.type = .dir) ∧ NormalAdj db t.tupid d → d ∈ m.flags.create := by
    rintro d hd ⟨htype, hadj⟩
    obtain ⟨u, hu, hudir⟩ := Option.map_eq_some_iff.1 hd
    rw [if_pos htype] at hm
    rw [← hm]
    exact Finset.mem_union_right _ (mem_dependents.2 ⟨hadj, u, hu, by simp [hudir]⟩)
  have hcmds : ∀ c, nodeType db c = some .cmd →
      (c ∈ dependents m t.tupid (fun type => type = .cmd || type = .group) ↔
        NormalAdj db t.tupid c) := by
    intro c hc
    obtain ⟨u, hu, hucmd⟩ := Option.map_eq_some_iff.1 hc
    rw [mem_dependents, hgrow.normalAdj, hgrow.tupEntryAdd]
    exact and_iff_left ⟨u, hu, by simp [hucmd]⟩
  by_cases htype : t.type = .file ∨ t.type = .generated
  · have hout : ∃ m', Grows (tupDbModifyCmdsByInput m t.tupid) m' ∧
        flagDependents db t force = m' := by
      unfold flagDependents
      dsimp only
      rw [hm, if_pos htype]
      split
      · exact ⟨_, .addCreate _ _, rfl⟩
      · exact ⟨_, .refl _, rfl⟩
    obtain ⟨m', hgrow', hm'⟩ := hout
    rw [hm']
    refine ⟨hgrow'.node.trans hgrow.node, hgrow'.normalLink.trans hgrow.normalLink, ?_, ?_⟩
    · intro c hc
      have hmem : c ∈ (tupDbModifyCmdsByInput m t.tupid).flags.modify ↔ c ∈ m.flags.modify ∨
          c ∈ dependents m t.tupid (fun type => type = .cmd || type = .group) := Finset.mem_union
      rw [hgrow'.modify, hmem, hgrow.modify, hcmds c hc]
      simp [htype]
    · rintro d hd (hmem | hmem)
      · exact hgrow'.create (hgrow.create hmem)
      · exact hgrow'.create (hdirs d hd hmem)
  · have hout : flagDependents db t force = m := by
      unfold flagDependents
      dsimp only
      rw [hm, if_neg htype]
    rw [hout]
    refine ⟨hgrow.node, hgrow.normalLink, ?_, ?_⟩
    · intro c _
      rw [hgrow.modify]
      simp [htype]
    · rintro d hd (hmem | hmem)
      · exact hgrow.create hmem
      · exact hdirs d hd hmem

/-- The visit that removes a node with its links, after its dependents have been flagged. -/
theorem removes_flagAndDelete (hcore : t.core = v.tent.core) (hcut : v.Cuts)
    {force : Bool} (h : flagAndDelete db t force = some db') : Removes db {v} db' := by
  obtain ⟨hid, -, hty, -⟩ := TupEntry.eq_of_core hcore
  obtain ⟨hnode, hlink, hmodify, hcreate⟩ := flagDependents_spec db t force
  obtain ⟨hnd, hrows, hi, hlinks, hmod, hcre⟩ := deleteNameFile_spec h
  rw [hid] at hrows hi hlinks hmod hcre hmodify hcreate
  rw [hty] at hmodify hcreate
  have hadd : ∀ j, tupEntryAdd (flagDependents db t force) j = tupEntryAdd db j := by
    intro j
    unfold tupEntryAdd
    rw [hnode]
  have hmiss : ¬ v.Missing := by
    rintro ⟨-, htype, hforce, -⟩
    have hc := hcut.2
    rw [htype] at hc
    exact absurd (hc : v.force = true) (by simp [hforce])
  have hfade : Fades (tupEntryAdd db v.id) (tupEntryAdd db' v.id) := by
    rw [hadd] at hi
    rcases hi with hi | hi
    · exact .inl hi
    · exact .inr (.inr hi)
  have hgone : ∀ u, tupEntryAdd db' v.id = some u → u.type = .ghost := by
    intro u hu
    rw [hu, hadd] at hi
    rcases hi with hi | hi
    · cases hi
    · obtain ⟨s, -, hs⟩ := Option.map_eq_some_iff.1 hi.symm
      have htype : NodeType.ghost = u.type := congrArg TupEntry.type hs
      exact htype.symm
  have hne : ∀ c type, nodeType db' c = some type → type ≠ .ghost →
      c ≠ v.id ∧ nodeType db c = some type := by
    intro c type hc htype
    have hcne : c ≠ v.id := by
      rintro rfl
      obtain ⟨u, hu, rfl⟩ := Option.map_eq_some_iff.1 hc
      exact htype (hgone u hu)
    refine ⟨hcne, ?_⟩
    rw [← hc]
    unfold nodeType
    rw [hrows c hcne, hadd]
  refine ⟨fun hn => hnd (by rwa [hnode]), ?_, ?_, ?_, ?_, ?_, ?_, ?_⟩
  · intro j hj
    unfold Stays
    rw [hrows j (hj v rfl).symm, hadd]
  · intro j
    by_cases hj : j = v.id
    · rw [hj]
      exact hfade
    · rw [hrows j hj, hadd]
      exact .inr (.inl rfl)
  · rintro u rfl _
    exact hgone
  · intro j hj hsome
    rwa [hrows j (hj v rfl hcut).symm, hadd]
  · intro a b
    have hadj : NormalAdj (flagDependents db t force) a b ↔ NormalAdj db a b := by
      unfold NormalAdj
      rw [hlink]
    rw [hlinks, hadj]
    simp [hcut]
  · intro c hc
    obtain ⟨hcne, hc'⟩ := hne c .cmd hc (by decide)
    rw [hmod c hcne, hmodify c hc']
    simp [Visit.FlagsCmd, hcut, hmiss]
  · intro d hd hor
    obtain ⟨hdne, hd'⟩ := hne d .dir hd (by decide)
    apply hcre d hdne
    apply hcreate d hd'
    simpa [Visit.FlagsDir, hcut] using hor

end

/-! ### The visits of a removal -/

/-- The nodes form a tree: a directory has one node of a name, and every node is below the directory
it is in. -/
structure Db.Tree (db : Db) : Prop where
  nodup : (db.node.map TupEntry.tupid).Nodup
  names : ∀ s ∈ db.node, ∀ t ∈ db.node, s.dt = t.dt → s.name = t.name → s = t
  depth : ∃ depth : TupId → ℕ, ∀ t ∈ db.node, depth t.dt < depth t.tupid

/-- `a` is the directory of the node `b`. -/
def ParentOf (db : Db) (b a : TupId) : Prop := ∃ t ∈ db.node, t.tupid = b ∧ t.dt = a

section

variable {db : Db} {u v w w' x x' : Visit}

theorem Db.Tree.eq_of_tupid (h : db.Tree) {s t : TupEntry} (hs : s ∈ db.node) (ht : t ∈ db.node)
    (heq : s.tupid = t.tupid) : s = t := List.inj_on_of_nodup_map h.nodup hs ht heq

theorem Db.Tree.tupEntryAdd_of_mem (h : db.Tree) {t : TupEntry} (ht : t ∈ db.node) :
    tupEntryAdd db t.tupid = some t := by
  obtain ⟨u, hu⟩ : ∃ u, tupEntryAdd db t.tupid = some u :=
    Option.isSome_iff_exists.1 (List.find?_isSome.2 ⟨t, ht, by simp⟩)
  obtain ⟨hmem, hid⟩ := mem_node_of_tupEntryAdd hu
  rw [hu, h.eq_of_tupid hmem ht hid]

/-- Only one visit is made to an entry from a directory. -/
theorem VisitStep.unique (h : db.Tree) (hw : VisitStep db v w) (hw' : VisitStep db v w')
    (hid : w.id = w'.id) : w = w' := by
  obtain ⟨hmem, -, -, hor⟩ := hw
  obtain ⟨hmem', -, -, hor'⟩ := hw'
  have htent : w.tent = w'.tent := h.eq_of_tupid hmem hmem' hid
  have hforce : w.force = w'.force := by
    rcases hor with ⟨ht, hf⟩ | ⟨ht, hf⟩ <;> rcases hor' with ⟨ht', hf'⟩ | ⟨ht', hf'⟩
    · rw [hf, hf', htent]
    · exact absurd (ht.symm.trans ht') (by decide)
    · exact absurd (ht.symm.trans ht') (by decide)
    · rw [hf, hf']
  cases w
  cases w'
  cases htent
  cases hforce
  rfl

/-- What is visited has the start above it. -/
theorem Visits.parents (h : Visits db v w) : Relation.ReflTransGen (ParentOf db) w.id v.id := by
  induction h with
  | refl => exact .refl
  | tail _ hstep ih =>
    obtain ⟨hmem, hdt, -, -⟩ := hstep
    exact .head ⟨_, hmem, rfl, hdt⟩ ih

theorem depth_le_of_parents {depth : TupId → ℕ} (hd : ∀ t ∈ db.node, depth t.dt < depth t.tupid)
    {a b : TupId} (h : Relation.ReflTransGen (ParentOf db) b a) : depth a ≤ depth b := by
  induction h with
  | refl => exact le_rfl
  | tail _ hstep ih =>
    obtain ⟨t, ht, rfl, rfl⟩ := hstep
    have := hd t ht
    omega

/-- Below an entry of a directory, the directory is not visited again. -/
theorem Visits.ne_of_step (h : db.Tree) (hw : VisitStep db v w) (hx : Visits db w x) :
    x.id ≠ v.id := by
  obtain ⟨depth, hd⟩ := h.depth
  have hle := depth_le_of_parents hd hx.parents
  have hlt := hd w.tent hw.1
  rw [hw.2.1] at hlt
  intro heq
  rw [heq] at hle
  exact absurd hle (not_le.2 hlt)

/-- What is visited below two entries of a directory differs. -/
theorem Visits.disjoint (h : db.Tree) (hw : VisitStep db v w) (hw' : VisitStep db v w')
    (hne : w.id ≠ w'.id) (hx : Visits db w x) (hx' : Visits db w' x') : x.id ≠ x'.id := by
  intro heq
  have hright : Relator.RightUnique (ParentOf db) := by
    rintro b a a' ⟨t, ht, rfl, rfl⟩ ⟨t', ht', hid, rfl⟩
    rw [h.eq_of_tupid ht' ht hid]
  have hup := hx.parents
  have hup' := hx'.parents
  rw [← heq] at hup'
  obtain ⟨depth, hd⟩ := h.depth
  -- an entry of the directory above another one would have the directory above itself
  have key : ∀ y z : Visit, VisitStep db v y → VisitStep db v z → y.id ≠ z.id →
      ¬ Relation.ReflTransGen (ParentOf db) y.id z.id := by
    intro y z hy hz hyz hpar
    rcases Relation.ReflTransGen.cases_head hpar with heq | ⟨a, ⟨t, ht, hid, rfl⟩, hpar⟩
    · exact hyz heq
    · have hty : t = y.tent := h.eq_of_tupid ht hy.1 hid
      rw [hty, hy.2.1] at hpar
      have hle := depth_le_of_parents hd hpar
      have hlt := hd z.tent hz.1
      rw [hz.2.1] at hlt
      exact absurd hle (not_le.2 hlt)
  rcases Relation.ReflTransGen.total_of_right_unique hright hup hup' with hpar | hpar
  · exact key w w' hw hw' hne hpar
  · exact key w' w hw' hw hne.symm hpar

/-- The visits from `v`, by their first step. -/
theorem visits_iff : Visits db v x ↔ x = v ∨ ∃ w, VisitStep db v w ∧ Visits db w x := by
  unfold Visits
  rw [Relation.ReflTransGen.cases_head_iff, eq_comm]

end

/-! ### The removal -/

/-- A set of visits that the nodes visited from `v` have not been touched by. -/
def Fresh (db : Db) (V : Set Visit) (v : Visit) : Prop :=
  ∀ x, Visits db v x → ∀ u ∈ V, u.id ≠ x.id

/-- The specification that `tup_del_id_type` meets: a call for a visit that is due has the effect of
the visits from there. -/
def DelSpec (db : Db) (del : Db → TupId → Bool → Option (Db × Bool)) : Prop :=
  ∀ (V : Set Visit) (v : Visit) (m db' : Db) (b : Bool), v.tent ∈ db.node → Removes db V m →
    Fresh db V v → del m v.id v.force = some (db', b) → Removes db (V ∪ {x | Visits db v x}) db'

section

variable {db : Db} {v : Visit} {V : Set Visit} {m db' : Db}
  {del : Db → TupId → Bool → Option (Db × Bool)}

/-- A row that has not been touched. -/
theorem Removes.row_of_fresh (h : db.Tree) (hrem : Removes db V m) (hv : v.tent ∈ db.node)
    (hfresh : ∀ u ∈ V, u.id ≠ v.id) :
    ∃ t, tupEntryAdd m v.id = some t ∧ t.core = v.tent.core := by
  have hrow : tupEntryAdd db v.id = some v.tent := by
    obtain ⟨t, ht⟩ : ∃ t, tupEntryAdd db v.id = some t :=
      Option.isSome_iff_exists.1 (List.find?_isSome.2 ⟨v.tent, hv, by simp⟩)
    obtain ⟨hmem, hid⟩ := mem_node_of_tupEntryAdd ht
    rw [ht, h.eq_of_tupid hmem hv hid]
  have hstays := hrem.stays v.id hfresh
  unfold Stays at hstays
  rw [hrow] at hstays
  exact Option.map_eq_some_iff.1 hstays

/-- The visits to the entries `l` of a directory. -/
def entryVisits (db : Db) (v : Visit) (l : List TupEntry) : Set Visit :=
  {x | ∃ he ∈ l, ∃ w, VisitStep db v w ∧ w.id = he.tupid ∧ Visits db w x}

/-- The loop over the entries of a directory. -/
theorem removes_loop (h : db.Tree) (hdel : DelSpec db del) {l : List TupEntry}
    {force : TupEntry → Bool} (hnd : (l.map TupEntry.tupid).Nodup) (hrem : Removes db V m)
    (hl : ∀ he ∈ l, ∃ w, VisitStep db v w ∧ w.id = he.tupid ∧ w.force = force he ∧ Fresh db V w)
    (hrun : l.foldlM (fun db he => (del db he.tupid (force he)).map Prod.fst) m = some db') :
    Removes db (V ∪ entryVisits db v l) db' := by
  induction l generalizing V m with
  | nil =>
    cases hrun
    have hempty : entryVisits db v [] = ∅ := by
      ext x
      simp [entryVisits]
    rw [hempty, Set.union_empty]
    exact hrem
  | cons he l ih =>
    rw [List.foldlM_cons, Option.bind_eq_bind, Option.bind_eq_some_iff] at hrun
    obtain ⟨m₁, hm₁, hrun⟩ := hrun
    obtain ⟨⟨_, b⟩, hcall, rfl⟩ := Option.map_eq_some_iff.1 hm₁
    obtain ⟨w, hw, hid, hforce, hfresh⟩ := hl he List.mem_cons_self
    rw [← hid, ← hforce] at hcall
    have hrem₁ := hdel V w m _ b hw.1 hrem hfresh hcall
    rw [List.map_cons, List.nodup_cons] at hnd
    have hrest := ih hnd.2 hrem₁ (fun he' hhe' => by
      obtain ⟨w', hw', hid', hforce', hfresh'⟩ := hl he' (List.mem_cons_of_mem _ hhe')
      refine ⟨w', hw', hid', hforce', ?_⟩
      rintro x hx u (hu | hu)
      · exact hfresh' x hx u hu
      · have hne : w.id ≠ w'.id := by
          rw [hid, hid']
          exact fun heq => hnd.1 (heq ▸ List.mem_map_of_mem hhe')
        exact Visits.disjoint h hw hw' hne hu hx) hrun
    have hset : V ∪ {x | Visits db w x} ∪ entryVisits db v l =
        V ∪ entryVisits db v (he :: l) := by
      rw [Set.union_assoc]
      congr 1
      ext x
      constructor
      · rintro (hx | ⟨he', hhe', hx⟩)
        · exact ⟨he, List.mem_cons_self, w, hw, hid, hx⟩
        · exact ⟨he', List.mem_cons_of_mem _ hhe', hx⟩
      · rintro ⟨he', hhe', w', hw', hid', hx⟩
        rcases List.mem_cons.1 hhe' with rfl | hhe'
        · rw [VisitStep.unique h hw' hw (hid'.trans hid.symm)] at hx
          exact .inl hx
        · exact .inr ⟨he', hhe', w', hw', hid', hx⟩
    rwa [hset] at hrest

/-- The loop over all entries of a directory visits everything below it. -/
theorem removes_entries (h : db.Tree) (hdel : DelSpec db del) {force : TupEntry → Bool}
    (hrem : Removes db V m) (hfresh : ∀ w, VisitStep db v w → Fresh db V w)
    (hstep : ∀ t ∈ db.node, t.dt = v.id → VisitStep db v ⟨t, force t⟩)
    (hforce : ∀ s t : TupEntry, s.type = t.type → force s = force t)
    (hrun : (getDirEntries m v.id).foldlM
      (fun db he => (del db he.tupid (force he)).map Prod.fst) m = some db') :
    Removes db (V ∪ {x | ∃ w, VisitStep db v w ∧ Visits db w x}) db' := by
  have hndm : (m.node.map TupEntry.tupid).Nodup := hrem.nodup h.nodup
  have hrowm : ∀ t ∈ m.node, tupEntryAdd m t.tupid = some t := by
    intro t ht
    obtain ⟨u, hu⟩ : ∃ u, tupEntryAdd m t.tupid = some u :=
      Option.isSome_iff_exists.1 (List.find?_isSome.2 ⟨t, ht, by simp⟩)
    obtain ⟨hmem, hid⟩ := mem_node_of_tupEntryAdd hu
    rw [hu, List.inj_on_of_nodup_map hndm hmem ht hid]
  have hnd : ((getDirEntries m v.id).map TupEntry.tupid).Nodup := by
    unfold getDirEntries
    rw [List.map_reverse, List.nodup_reverse]
    exact (List.filter_sublist.map _).nodup hndm
  have hentry : ∀ he ∈ getDirEntries m v.id,
      ∃ t ∈ db.node, t.tupid = he.tupid ∧ t.dt = v.id ∧ t.type = he.type := by
    intro he hhe
    obtain ⟨hmem, hdt⟩ := mem_getDirEntries.1 hhe
    have hfades := hrem.fades he.tupid
    rw [hrowm he hmem] at hfades
    obtain ⟨t, ht, hhedt, -⟩ := hfades.place
    have htdt : t.dt = he.dt := hhedt.symm
    obtain ⟨htmem, htid⟩ := mem_node_of_tupEntryAdd ht
    have hw := hstep t htmem (htdt.trans hdt)
    have hfr := hfresh _ hw _ .refl
    obtain ⟨t', ht', hcore⟩ := hrem.row_of_fresh h hw.1 hfr
    have ht'he : t' = he := by
      have hid : (⟨t, force t⟩ : Visit).id = he.tupid := htid
      rw [hid, hrowm he hmem] at ht'
      exact (Option.some.inj ht').symm
    rw [ht'he] at hcore
    exact ⟨t, htmem, htid, htdt.trans hdt, (TupEntry.eq_of_core hcore).2.2.1.symm⟩
  have hloop := removes_loop h hdel hnd hrem (fun he hhe => by
    obtain ⟨t, ht, hid, hdt, hty⟩ := hentry he hhe
    have hw := hstep t ht hdt
    exact ⟨_, hw, hid, hforce t he hty, hfresh _ hw⟩) hrun
  have hset : entryVisits db v (getDirEntries m v.id) =
      {x | ∃ w, VisitStep db v w ∧ Visits db w x} := by
    ext x
    constructor
    · rintro ⟨_, _, w, hw, _, hx⟩
      exact ⟨w, hw, hx⟩
    · rintro ⟨w, hw, hx⟩
      obtain ⟨he, hhe, hcore⟩ := hrem.row_of_fresh h hw.1 (hfresh w hw _ .refl)
      obtain ⟨hmem, hid⟩ := mem_node_of_tupEntryAdd hhe
      have hdt : he.dt = v.id := (TupEntry.eq_of_core hcore).2.1.trans hw.2.1
      exact ⟨he, mem_getDirEntries.2 ⟨hmem, hdt⟩, w, hw, hid.symm, hx⟩
  rwa [hset] at hloop

/-- What a directory does once everything below it is gone only adds, and marks variants. -/
theorem Removes.dirRemoved {i : TupId} {force : Bool} (hrem : Removes db V m)
    (hrun : dirRemoved m i force = some db') : Removes db V db' := by
  obtain ⟨tent, -, hrun⟩ := Option.bind_eq_some_iff.1 hrun
  dsimp only at hrun
  split at hrun
  · cases hrun
    split
    · exact hrem.grows (.maybeAddCreateList m _)
    · exact hrem
  · obtain ⟨parent, -, hrun⟩ := Option.bind_eq_some_iff.1 hrun
    cases hrun
    have hmark : ∀ (l : List Variant) (m : Db), Removes db V m →
        Removes db V (l.foldl (markVariant tent) m) := by
      intro l
      induction l with
      | nil => exact fun _ hm => hm
      | cons a l ih =>
        intro m hm
        apply ih
        unfold markVariant
        split
        · exact hm
        · split
          · exact hm.setSrcid _ _
          · exact hm
    have hcreate : ∀ m : Db, Removes db V m →
        Removes db V (if parent.type = .dir then m.addCreate tent.dt else m) := by
      intro m hm
      split
      · exact hm.grows (.addCreate _ _)
      · exact hm
    apply hcreate
    apply hmark
    split
    · exact hrem.grows (.setDependentDirFlags m _)
    · exact hrem

/-- A visit that goes no further. -/
theorem visits_eq_singleton (hno : ∀ w, ¬ VisitStep db v w) : {x | Visits db v x} = {v} := by
  ext x
  show Visits db v x ↔ x = v
  rw [visits_iff]
  exact or_iff_left fun ⟨w, hw, _⟩ => hno w hw

/-- The visits from `v` are `v` and the visits from its entries. -/
theorem visits_eq_insert :
    {x | Visits db v x} = {x | ∃ w, VisitStep db v w ∧ Visits db w x} ∪ {v} := by
  ext x
  show Visits db v x ↔ (∃ w, VisitStep db v w ∧ Visits db w x) ∨ x = v
  rw [visits_iff, or_comm]

/-- A removal has the effect of its visits. -/
theorem tupDelIdType_spec (h : db.Tree) (fuel : ℕ) : DelSpec db (tupDelIdType fuel) := by
  induction fuel with
  | zero =>
    intro V v m db' b _ _ _ hrun
    cases hrun
  | succ fuel ih =>
    intro V v m db' b hv hrem hfresh hrun
    have hfr : ∀ u ∈ V, u.id ≠ v.id := hfresh v .refl
    have hdisj : ∀ u ∈ V, ∀ w ∈ ({v} : Set Visit), u.id ≠ w.id := by
      rintro u hu w rfl
      exact hfr u hu
    obtain ⟨t, ht, hcore⟩ := hrem.row_of_fresh h hv hfr
    obtain ⟨hid, hdt, htype, hname⟩ := TupEntry.eq_of_core hcore
    have hstepfresh : ∀ w, VisitStep db v w → Fresh db V w :=
      fun w hw x hx u hu => hfresh x (.head hw hx) u hu
    unfold tupDelIdType checkRmTupConfig at hrun
    rw [ht, Option.bind_eq_bind, Option.bind_some, hname, htype, hid] at hrun
    by_cases hcfg : v.tent.name = tupConfig
    · rw [if_pos hcfg] at hrun
      cases hrun
      rw [visits_eq_singleton fun w hw => hw.2.2.1 hcfg]
      have hset : Removes m {v} (tupDbSetType m v.id .ghost) :=
        removes_setType (fun hc => hc.1 hcfg) fun hc => hc.1 hcfg
      exact (hrem.union hset hdisj).grows (.addConfig _ _)
    rw [if_neg hcfg] at hrun
    have hleaf : v.tent.type ≠ .dir → v.tent.type ≠ .generatedDir →
        {x | Visits db v x} = {v} := by
      intro hd hg
      apply visits_eq_singleton
      rintro w ⟨-, -, -, ⟨hty, -⟩ | ⟨hty, -⟩⟩
      · exact hd hty
      · exact hg hty
    -- the cases that end in `flagAndDelete` and have nothing below them
    have hcutleaf : v.Cuts → v.tent.type ≠ .dir → v.tent.type ≠ .generatedDir →
        ∀ force, flagAndDelete m t force = some db' →
          Removes db (V ∪ {x | Visits db v x}) db' := by
      intro hcut hd hg force hflag
      rw [hleaf hd hg]
      exact hrem.union (removes_flagAndDelete hcore hcut hflag) hdisj
    -- the cases that leave the node as it is
    have hkeep : v.tent.type = .ghost ∨ v.tent.type = .group →
        Removes db (V ∪ {x | Visits db v x}) m := by
      intro hty
      have hcut : ¬ v.Cuts := by
        rintro ⟨-, hc⟩
        rcases hty with hty | hty <;> rw [hty] at hc <;> exact hc
      have hmiss : ¬ v.Missing := by
        rintro ⟨-, hc, -⟩
        rcases hty with hty | hty <;> rw [hty] at hc <;> cases hc
      have hghost : ¬ v.Ghosts := by
        rintro (hc | hc | ⟨hc, -⟩)
        · exact hcut hc
        · exact hcfg hc
        · rcases hty with hty | hty <;> rw [hty] at hc <;> cases hc
      rw [hleaf (by rcases hty with hty | hty <;> rw [hty] <;> decide)
        (by rcases hty with hty | hty <;> rw [hty] <;> decide)]
      exact hrem.union (removes_self hghost hmiss) hdisj
    dsimp only at hrun
    rw [if_neg Bool.false_ne_true] at hrun
    split at hrun
    · next hty =>
      cases hrun
      exact hkeep (.inl hty)
    · next hty =>
      cases hrun
      exact hkeep (.inr hty)
    · next hty =>
      obtain ⟨db₁, hflag, hrun⟩ := Option.bind_eq_some_iff.1 hrun
      cases hrun
      have hcut : ¬ v.Cuts := by
        rintro ⟨-, hc⟩
        rw [hty] at hc
        exact hc
      have hmiss : ¬ v.Missing := by
        rintro ⟨-, hc, -⟩
        rw [hty] at hc
        cases hc
      obtain ⟨m₁, hm₁, hloop⟩ := Option.bind_eq_some_iff.1 hflag
      rw [hid] at hloop
      have hrem₁ : Removes db (V ∪ {v}) m₁ := by
        unfold ghostGeneratedDir at hm₁
        rw [hid] at hm₁
        split at hm₁
        · obtain ⟨m₀, hsrc, rfl⟩ := Option.map_eq_some_iff.1 hm₁
          have hrem₀ := hrem.grows (.setSrcidDirFlags hsrc)
          exact (hrem₀.union (removes_setType hcut hmiss) hdisj).grows (.addGhostTree _ _)
        · next hforce =>
          cases hm₁
          have hghost : ¬ v.Ghosts := by
            rintro (hc | hc | ⟨-, hc⟩)
            · exact hcut hc
            · exact hcfg hc
            · exact hforce hc
          exact hrem.union (removes_self hghost hmiss) hdisj
      have hfresh₁ : ∀ w, VisitStep db v w → Fresh db (V ∪ {v}) w := by
        rintro w hw x hx u (hu | rfl)
        · exact hstepfresh w hw x hx u hu
        · exact (Visits.ne_of_step h hw hx).symm
      have hall := removes_entries h ih hrem₁ hfresh₁
        (fun s hs hsdt => ⟨hs, hsdt, hcfg, .inr ⟨hty, rfl⟩⟩) (fun _ _ _ => rfl) hloop
      rwa [Set.union_assoc, Set.union_comm {v}, ← visits_eq_insert] at hall
    · next hty =>
      obtain ⟨db₁, hdir, hrun⟩ := Option.bind_eq_some_iff.1 hrun
      obtain ⟨db₂, hremoved, hrun⟩ := Option.bind_eq_some_iff.1 hrun
      obtain ⟨db₃, hflag, hrun⟩ := Option.bind_eq_some_iff.1 hrun
      cases hrun
      obtain ⟨m₁, hsrc, hloop⟩ := Option.bind_eq_some_iff.1 hdir
      have hall := removes_entries h ih (hrem.grows (.setSrcidDirFlags hsrc)) hstepfresh
        (fun s hs hsdt => ⟨hs, hsdt, hcfg, .inl ⟨hty, rfl⟩⟩) (fun s s' hs => by rw [hs]) hloop
      have hcut : v.Cuts := ⟨hcfg, by rw [hty]; trivial⟩
      have hlast := (hall.dirRemoved hremoved).union (removes_flagAndDelete hcore hcut hflag)
        (by
          rintro u (hu | ⟨w, hw, hx⟩) x rfl
          · exact hfr u hu
          · exact Visits.ne_of_step h hw hx)
      rwa [Set.union_assoc, ← visits_eq_insert] at hlast
    · next hty =>
      split at hrun
      · next hforce =>
        have hdb' : db' = (generatedRemoved m t).1 := by rw [Option.some.inj hrun]
        rw [hdb']
        rw [hleaf (by rw [hty]; decide) (by rw [hty]; decide)]
        exact hrem.union (removes_generatedRemoved ht hcore hty (by simpa using hforce) hcfg) hdisj
      · next hforce =>
        obtain ⟨db₁, hflag, hrun⟩ := Option.bind_eq_some_iff.1 hrun
        cases hrun
        have hcut : v.Cuts := ⟨hcfg, by rw [hty]; simpa using hforce⟩
        exact hcutleaf hcut (by rw [hty]; decide) (by rw [hty]; decide) _ hflag
    all_goals
      next hty =>
      obtain ⟨db₁, hflag, hrun⟩ := Option.bind_eq_some_iff.1 hrun
      cases hrun
      have hcut : v.Cuts := ⟨hcfg, by rw [hty]; trivial⟩
      exact hcutleaf hcut (by rw [hty]; decide) (by rw [hty]; decide) _ hflag

end

end Metatup
