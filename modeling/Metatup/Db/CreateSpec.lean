import Metatup.Db.FileNode
import Metatup.Db.Frames

/-!
# What asking for a node establishes

`tup_db_create_node_part_display` is asked for a node of a name, with a type, a `srcid`, a display
string and flags. A node of another type is removed first, and the function calls itself.

* `Fulfils`: the node is what was asked for.
* `Retries`: the function calls itself, in the database that the removal leaves.
* `delIdType_stable`: a removal goes no deeper than the tree.
* `createNode_iff`: the calls end, and every node that comes out is what was asked for, exactly when
  no ghost is in the way whose display string or flags differ, and no group.

A ghost gets its type and its `srcid` in place, and keeps the display string and the flags that it
had. A group is never removed, so that the function calls itself in the same database.
-/

namespace Metatup

/-! ### What is asked for -/

/-- The node is what was asked for. A generated directory is a directory. -/
structure Fulfils (row t : TupEntry) : Prop where
  dt : t.dt = row.dt
  name : t.name = row.name
  type : t.type = row.type ∨ (t.type = .generatedDir ∧ row.type = .dir)
  srcid : row.srcid ≠ -1 → t.srcid = row.srcid
  display : t.display = row.display
  flags : t.flags = row.flags

/-- A node that has to give way is removed, and the function calls itself. -/
def Retries (row : TupEntry) (db db' : Db) : Prop :=
  ∃ tent fuel b, tupDbSelectTent db row.dt row.name = some tent ∧ GivesWay tent row ∧
    tupDelIdType fuel db tent.tupid true = some (db', b)

/-- The function does not call itself for ever, and some depth is deep enough for the removals. -/
structure CreateEnds (db : Db) (row : TupEntry) : Prop where
  acc : Acc (fun m d => Retries row d m) db
  stable : ∃ n, ∀ fuel, n ≤ fuel →
    tupDbCreateNodePartDisplay fuel db row = tupDbCreateNodePartDisplay n db row

/-- Every node that comes out is what was asked for. -/
def CreateFulfils (db : Db) (row : TupEntry) : Prop :=
  ∀ fuel db' i b, tupDbCreateNodePartDisplay fuel db row = some (db', i, b) →
    ∃ t, tupEntryAdd db' i = some t ∧ Fulfils row t

/-- The ghost is already as the node that is asked for, but for the type. -/
structure GhostFits (tent row : TupEntry) : Prop where
  display : tent.display = row.display
  flags : tent.flags = row.flags
  srcid : row.type = .ghost → row.srcid = -1 ∨ tent.srcid = row.srcid

/-- Neither a ghost that does not fit nor a group has the name. -/
def NameReady (db : Db) (row : TupEntry) : Prop :=
  ∀ tent, tupDbSelectTent db row.dt row.name = some tent →
    (tent.type = .ghost → GhostFits tent row) ∧
      (tent.type = .group → row.type = .group ∨ tent.name = tupConfig)

/-- The name is ready, also after the removal of a node that has to give way. -/
def CreateReady (db : Db) (row : TupEntry) : Prop :=
  NameReady db row ∧ ∀ db', Retries row db db' → NameReady db' row

/-! ### Removals end -/

section

variable {db db' m : Db} {i : TupId} {t tent row : TupEntry} {force : Bool}

/-- Loops whose bodies agree wherever the first one leads. -/
theorem foldlM_congr_of {σ β : Type} {f g : σ → β → Option σ} {I : σ → Prop} {l : List β} {s : σ}
    (hs : I s) (hkeep : ∀ s b s', I s → f s b = some s' → I s')
    (hfg : ∀ s, I s → ∀ b ∈ l, f s b = g s b) : l.foldlM f s = l.foldlM g s := by
  induction l generalizing s with
  | nil => rfl
  | cons b l ih =>
    rw [List.foldlM_cons, List.foldlM_cons, ← hfg s hs b List.mem_cons_self]
    cases hb : f s b with
    | none => rfl
    | some s' => exact ih (hkeep s b s' hs hb) fun s hI c hc => hfg s hI c (List.mem_cons_of_mem b hc)

/-- Every node is deeper than its directory, and none deeper than `d`. -/
def DepthOk (depth : TupId → ℕ) (d : ℕ) (db : Db) : Prop :=
  ∀ t ∈ db.node, depth t.dt < depth t.tupid ∧ depth t.tupid ≤ d

theorem DepthOk.shrinks {depth : TupId → ℕ} {d : ℕ} (h : DepthOk depth d db) (hr : Shrinks db db') :
    DepthOk depth d db' := by
  intro t' ht'
  obtain ⟨t, ht, hid, hdt, -⟩ := hr.place t' ht'
  rw [← hid, ← hdt]
  exact h t ht

theorem Db.Tree.depthOk (h : db.Tree) : ∃ depth d, DepthOk depth d db := by
  obtain ⟨depth, hd⟩ := h.depth
  refine ⟨depth, (db.node.map fun t => depth t.tupid).foldr max 0, fun t ht => ⟨hd t ht, ?_⟩⟩
  have key : ∀ l : List TupEntry, t ∈ l →
      depth t.tupid ≤ (l.map fun t => depth t.tupid).foldr max 0 := by
    intro l
    induction l with
    | nil => exact fun hmem => absurd hmem List.not_mem_nil
    | cons s l ih =>
      intro hmem
      rw [List.map_cons, List.foldr_cons]
      rcases List.mem_cons.1 hmem with rfl | hmem
      · exact le_max_left _ _
      · exact (ih hmem).trans (le_max_right _ _)
  exact key db.node ht

/-- The entries of a directory are removed alike at any depth that is deep enough for them. -/
theorem entries_stable {depth : TupId → ℕ} {d fuel : ℕ} (hok : DepthOk depth d db)
    (hdeep : ∀ m, DepthOk depth d m → ∀ j force, d + 1 ≤ fuel + depth j →
      tupDelIdType (fuel + 1) m j force = tupDelIdType fuel m j force)
    (hi : d + 1 ≤ fuel + 1 + depth i) (force : TupEntry → Bool) {l : List TupEntry}
    (hl : ∀ he ∈ l, depth i < depth he.tupid) :
    l.foldlM (fun db he => (tupDelIdType (fuel + 1) db he.tupid (force he)).map Prod.fst) db =
      l.foldlM (fun db he => (tupDelIdType fuel db he.tupid (force he)).map Prod.fst) db := by
  apply foldlM_congr_of hok
  · intro s he s' hs hstep
    obtain ⟨⟨m, b⟩, hcall, rfl⟩ := Option.map_eq_some_iff.1 hstep
    exact hs.shrinks (removing_tupDelIdType _ _ _ _ _ _ hcall)
  · intro s hs he hhe
    have hlt := hl he hhe
    rw [hdeep s hs he.tupid (force he) (by omega)]

theorem DepthOk.entries {depth : TupId → ℕ} {d : ℕ} (hok : DepthOk depth d db) {he : TupEntry}
    (hhe : he ∈ getDirEntries db i) : depth i < depth he.tupid := by
  obtain ⟨hmem, rfl⟩ := mem_getDirEntries.1 hhe
  exact (hok he hmem).1

theorem tupDbDeleteDir_stable {depth : TupId → ℕ} {d fuel : ℕ} (hok : DepthOk depth d db)
    (hdeep : ∀ m, DepthOk depth d m → ∀ j force, d + 1 ≤ fuel + depth j →
      tupDelIdType (fuel + 1) m j force = tupDelIdType fuel m j force)
    (hi : d + 1 ≤ fuel + 1 + depth i) :
    tupDbDeleteDir (tupDelIdType (fuel + 1)) db i force =
      tupDbDeleteDir (tupDelIdType fuel) db i force := by
  unfold tupDbDeleteDir
  cases hsrc : tupDbSetSrcidDirFlags db i with
  | none => rfl
  | some m =>
    have hm := hok.shrinks (.of_keepsRows (.setSrcidDirFlags hsrc))
    exact entries_stable hm hdeep hi _ fun he hhe => hm.entries hhe

theorem tupDbFlagGeneratedDir_stable {depth : TupId → ℕ} {d fuel : ℕ} (hok : DepthOk depth d db)
    (hdeep : ∀ m, DepthOk depth d m → ∀ j force, d + 1 ≤ fuel + depth j →
      tupDelIdType (fuel + 1) m j force = tupDelIdType fuel m j force)
    (hi : d + 1 ≤ fuel + 1 + depth tent.tupid) :
    tupDbFlagGeneratedDir (tupDelIdType (fuel + 1)) db tent force =
      tupDbFlagGeneratedDir (tupDelIdType fuel) db tent force := by
  unfold tupDbFlagGeneratedDir
  cases hghost : ghostGeneratedDir db tent force with
  | none => rfl
  | some m =>
    have hm : DepthOk depth d m := by
      unfold ghostGeneratedDir at hghost
      split at hghost
      · obtain ⟨m₀, hsrc, rfl⟩ := Option.map_eq_some_iff.1 hghost
        exact hok.shrinks (((Shrinks.of_keepsRows (.setSrcidDirFlags hsrc)).trans
          (.setType _ _ _)).trans (.of_keepsRows (.addGhostTree _ _)))
      · cases hghost
        exact hok
    exact entries_stable hm hdeep hi (fun _ => force) fun he hhe => hm.entries hhe

/-- A removal goes no deeper than the tree. -/
theorem delIdType_step {depth : TupId → ℕ} {d fuel : ℕ} (hok : DepthOk depth d db)
    (hi : d + 1 ≤ fuel + depth i) :
    tupDelIdType (fuel + 1) db i force = tupDelIdType fuel db i force := by
  induction fuel generalizing db i force with
  | zero =>
    -- no row is so deep
    have hnone : tupEntryAdd db i = none := by
      cases hrow : tupEntryAdd db i with
      | none => rfl
      | some t =>
        obtain ⟨hmem, rfl⟩ := mem_node_of_tupEntryAdd hrow
        have hle := (hok t hmem).2
        omega
    unfold tupDelIdType
    rw [hnone]
    rfl
  | succ fuel ih =>
    have hdeep : ∀ m, DepthOk depth d m → ∀ j force, d + 1 ≤ fuel + depth j →
        tupDelIdType (fuel + 1) m j force = tupDelIdType fuel m j force :=
      fun m hm j force hj => ih hm hj
    cases hrow : tupEntryAdd db i with
    | none =>
      unfold tupDelIdType
      rw [hrow]
      rfl
    | some t =>
      obtain ⟨hmem, rfl⟩ := mem_node_of_tupEntryAdd hrow
      have hp := hok.shrinks (shrinks_checkRmTupConfig db t)
      rw [tupDelIdType, tupDelIdType, hrow]
      simp only [Option.bind_eq_bind, Option.bind_some]
      rw [tupDbDeleteDir_stable hp hdeep hi, tupDbFlagGeneratedDir_stable hp hdeep hi]

/-- Some depth is deep enough for a removal. -/
theorem delIdType_stable (h : db.Tree) (i : TupId) (force : Bool) :
    ∃ n, ∀ fuel, n ≤ fuel → tupDelIdType fuel db i force = tupDelIdType n db i force := by
  obtain ⟨depth, d, hok⟩ := h.depthOk
  refine ⟨d + 1, fun fuel hle => ?_⟩
  induction fuel, hle using Nat.le_induction with
  | base => rfl
  | succ fuel hle ih => rw [delIdType_step hok (by omega), ih]

/-! ### One call -/

theorem node_unlinkGhost {type : NodeType} (h : unlinkGhost db i type = some db') :
    db'.node = db.node := by
  unfold unlinkGhost at h
  split at h
  · cases h
    rfl
  · obtain ⟨m, hk, rfl⟩ := tupDbDeleteLinks_rows h
    exact hk.node
  · cases h
    rfl

theorem unlinkGhost_total (h : db.Joined) (ht : tupEntryAdd db i = some t) (htype : t.type ≠ .group)
    (type : NodeType) : ∃ db', unlinkGhost db i type = some db' := by
  unfold unlinkGhost
  split
  · exact ⟨_, rfl⟩
  · have hk : KeepsRows db (tupDbModifyCmdsByInput (tupDbSetDependentDirFlags db i) i) :=
      (KeepsRows.setFlags db _).trans (.setFlags _ _)
    obtain ⟨r, hr⟩ := tupDbDeleteLinks_total (h.of_keepsRows hk) (show _ = some t from ht) htype
    exact ⟨_, hr⟩
  · exact ⟨db, rfl⟩

/-- The row of a ghost that has been asked for: the type and the `srcid` are new, unless a ghost was
asked for. -/
def upgradedRow (tent row : TupEntry) : TupEntry :=
  if row.type ≠ .ghost then { tent with type := row.type, srcid := row.srcid } else tent

theorem upgradeGhost_row {b : Bool} (ht : tupEntryAdd db tent.tupid = some tent)
    (h : upgradeGhost db tent row.type row.srcid = some (db', i, b)) :
    tupEntryAdd db' i = some (upgradedRow tent row) := by
  obtain ⟨m, hm, h⟩ := Option.bind_eq_some_iff.1 h
  have hrow : tupEntryAdd m tent.tupid = some tent := by
    unfold tupEntryAdd
    rw [node_unlinkGhost hm]
    exact ht
  cases h
  unfold upgradedRow
  by_cases hghost : row.type = .ghost
  · rw [if_neg (not_not.2 hghost), if_neg (not_not.2 hghost)]
    exact hrow
  · rw [if_pos hghost, if_pos hghost]
    have hset : tupEntryAdd (tupDbSetSrcid (tupDbSetType (m.addModify tent.tupid) tent.tupid row.type)
        tent.tupid row.srcid) tent.tupid =
        some { tent with type := row.type, srcid := row.srcid } := by
      rw [tupEntryAdd_setSrcid, if_pos rfl, tupEntryAdd_setType, if_pos rfl,
        show tupEntryAdd (m.addModify tent.tupid) tent.tupid = some tent from hrow]
      rfl
    exact hset

theorem upgradeGhost_total (h : db.Joined) (ht : tupEntryAdd db tent.tupid = some tent)
    (hghost : tent.type = .ghost) (type : NodeType) (srcid : TupId) :
    ∃ db' b, upgradeGhost db tent type srcid = some (db', tent.tupid, b) := by
  have htype : tent.type ≠ .group := by
    rw [hghost]
    decide
  obtain ⟨m, hm⟩ := unlinkGhost_total h ht htype type
  unfold upgradeGhost
  dsimp only
  rw [hm]
  exact ⟨_, _, rfl⟩

/-- A ghost becomes what is asked for exactly when it fits. -/
theorem fulfils_upgradedRow (hdt : tent.dt = row.dt) (hname : tent.name = row.name)
    (hghost : tent.type = .ghost) : Fulfils row (upgradedRow tent row) ↔ GhostFits tent row := by
  unfold upgradedRow
  by_cases htype : row.type = .ghost
  · rw [if_neg (not_not.2 htype)]
    constructor
    · intro h
      refine ⟨h.display, h.flags, fun _ => ?_⟩
      by_cases hsrc : row.srcid = -1
      · exact .inl hsrc
      · exact .inr (h.srcid hsrc)
    · intro h
      refine ⟨hdt, hname, .inl (hghost.trans htype.symm), fun hsrc => ?_, h.display, h.flags⟩
      exact (h.srcid htype).resolve_left hsrc
  · rw [if_pos htype]
    constructor
    · exact fun h => ⟨h.display, h.flags, fun hg => absurd hg htype⟩
    · exact fun h => ⟨hdt, hname, .inl rfl, fun _ => rfl, h.display, h.flags⟩

theorem row_updateNode {f : TupEntry → TupEntry} (ht : tupEntryAdd db i = some t)
    (hf : ∀ t, (f t).tupid = t.tupid) : tupEntryAdd (db.updateNode i f) i = some (f t) := by
  rw [tupEntryAdd_updateNode db i i hf, if_pos rfl, ht]
  rfl

/-- A node that can stay is what was asked for, or an error comes out. -/
theorem fulfils_refreshNode {b : Bool} (ht : tupEntryAdd db tent.tupid = some tent)
    (hdt : tent.dt = row.dt) (hname : tent.name = row.name)
    (hstay : ¬ (tent.type ≠ row.type ∧ ¬ (tent.type = .generatedDir ∧ row.type = .dir)))
    (h : refreshNode db tent row = some (db', i, b)) :
    ∃ t, tupEntryAdd db' i = some t ∧ Fulfils row t := by
  have htype : tent.type = row.type ∨ (tent.type = .generatedDir ∧ row.type = .dir) := by tauto
  unfold refreshNode respellNode at h
  dsimp only at h
  rw [if_neg (by simp [hname]), Option.bind_eq_bind, Option.bind_some] at h
  split at h
  · cases h
  next hdisplay =>
  have hdisplay : tent.display = row.display := not_not.1 hdisplay
  cases h
  -- the row with its `srcid`
  obtain ⟨s, hs, hsrc⟩ : ∃ s, tupEntryAdd (if row.srcid ≠ -1 ∧ tent.srcid ≠ row.srcid then
      tupDbSetSrcid db tent.tupid row.srcid else db) tent.tupid = some { tent with srcid := s } ∧
      (row.srcid ≠ -1 → s = row.srcid) := by
    split
    · exact ⟨row.srcid, row_updateNode ht fun _ => rfl, fun _ => rfl⟩
    · next hsame =>
      refine ⟨tent.srcid, ht, fun hne => ?_⟩
      exact not_not.1 fun hsrc => hsame ⟨hne, hsrc⟩
  split
  · exact ⟨_, row_updateNode hs fun _ => rfl, hdt, hname, htype, hsrc, hdisplay, rfl⟩
  · next hflags => exact ⟨_, hs, hdt, hname, htype, hsrc, hdisplay, not_not.1 hflags⟩

theorem fulfils_nodeInsert (h : nodeInsert db row = some (db', t)) :
    tupEntryAdd db' t.tupid = some t ∧ Fulfils row t := by
  obtain ⟨rfl, hnode, -⟩ := node_nodeInsert h
  refine ⟨?_, rfl, rfl, .inl rfl, fun _ => rfl, rfl, rfl⟩
  unfold tupEntryAdd
  rw [hnode, List.find?_append, List.find?_eq_none.2, Option.none_or]
  · simp
  · intro t ht heq
    have hlt := lt_newNodeId db ht
    rw [of_decide_eq_true heq] at hlt
    exact lt_irrefl _ hlt

/-! ### The calls -/

/-- What has to give way is a ghost afterwards or gone, unless it is a group. -/
theorem select_of_delIdType (h : db.Sound) (hsel : tupDbSelectTent db row.dt row.name = some tent)
    (hgive : GivesWay tent row) (hgroup : tent.type ≠ .group ∨ tent.name = tupConfig) {fuel : ℕ}
    {b : Bool} (hrun : tupDelIdType fuel db tent.tupid true = some (m, b)) {t' : TupEntry}
    (hsel' : tupDbSelectTent m row.dt row.name = some t') : t'.type = .ghost := by
  obtain ⟨hmem, hdt, hname⟩ := mem_of_tupDbSelectTent hsel
  obtain ⟨hmem', hdt', hname'⟩ := mem_of_tupDbSelectTent hsel'
  have hshrinks := removing_tupDelIdType fuel _ _ _ _ _ hrun
  obtain ⟨s, hs, hsid, hsdt, hsname⟩ := hshrinks.place t' hmem'
  have hst := h.tree.names s hs tent hmem (by rw [hsdt, hdt', hdt]) (by rw [hsname, hname', hname])
  obtain ⟨-, hrem⟩ := delIdType_removes h.tree (h.tree.tupEntryAdd_of_mem hmem) hrun
  apply hrem.gone ⟨tent, true⟩ .refl
  · by_cases hcfg : tent.name = tupConfig
    · exact .inr (.inl hcfg)
    · have hng := hgroup.resolve_right hcfg
      cases htype : tent.type with
      | ghost => exact absurd htype hgive.1
      | group => exact absurd htype hng
      | generatedDir => exact .inr (.inr ⟨htype, rfl⟩)
      | file | cmd | dir | var | generated | root => exact .inl ⟨hcfg, by simp [htype]⟩
  · have hrow := (h.shrinks hshrinks).tree.tupEntryAdd_of_mem hmem'
    rwa [← hsid, hst] at hrow

theorem create_ghost (fuel : ℕ) (hsel : tupDbSelectTent db row.dt row.name = some tent)
    (hghost : tent.type = .ghost) :
    tupDbCreateNodePartDisplay (fuel + 1) db row = upgradeGhost db tent row.type row.srcid := by
  rw [tupDbCreateNodePartDisplay, hsel]
  exact if_pos hghost

theorem create_givesWay (fuel : ℕ) (hsel : tupDbSelectTent db row.dt row.name = some tent)
    (hgive : GivesWay tent row) : tupDbCreateNodePartDisplay (fuel + 1) db row =
      (tupDelIdType fuel db tent.tupid true).bind fun p => tupDbCreateNodePartDisplay fuel p.1 row := by
  rw [tupDbCreateNodePartDisplay, hsel]
  exact (if_neg hgive.1).trans (if_pos hgive.2)

theorem create_stays (fuel : ℕ) (hsel : tupDbSelectTent db row.dt row.name = some tent)
    (hghost : tent.type ≠ .ghost)
    (hstay : ¬ (tent.type ≠ row.type ∧ ¬ (tent.type = .generatedDir ∧ row.type = .dir))) :
    tupDbCreateNodePartDisplay (fuel + 1) db row = refreshNode db tent row := by
  rw [tupDbCreateNodePartDisplay, hsel]
  exact (if_neg hghost).trans (if_neg hstay)

theorem create_none (fuel : ℕ) (hsel : tupDbSelectTent db row.dt row.name = none) :
    tupDbCreateNodePartDisplay (fuel + 1) db row =
      (nodeInsert db row).map fun p => (p.1, p.2.tupid, true) := by
  rw [tupDbCreateNodePartDisplay, hsel]
  dsimp only
  cases nodeInsert db row <;> rfl

/-- Without a node that has to give way, one turn is all there is. -/
theorem create_settled
    (h : ∀ tent, tupDbSelectTent db row.dt row.name = some tent → ¬ GivesWay tent row) (fuel : ℕ) :
    tupDbCreateNodePartDisplay (fuel + 1) db row = tupDbCreateNodePartDisplay 1 db row := by
  cases hsel : tupDbSelectTent db row.dt row.name with
  | none => rw [create_none fuel hsel, create_none 0 hsel]
  | some tent =>
    by_cases hghost : tent.type = .ghost
    · rw [create_ghost fuel hsel hghost, create_ghost 0 hsel hghost]
    · have hstay := fun hne => h tent hsel ⟨hghost, hne⟩
      rw [create_stays fuel hsel hghost hstay, create_stays 0 hsel hghost hstay]

/-- A ghost that has the name fits, if what comes out is what was asked for. -/
theorem fits_of_fulfils (h : db.Sound) (hsel : tupDbSelectTent db row.dt row.name = some tent)
    (hghost : tent.type = .ghost) {fuel : ℕ}
    (hanswer : ∀ db' i b, tupDbCreateNodePartDisplay (fuel + 1) db row = some (db', i, b) →
      ∃ t, tupEntryAdd db' i = some t ∧ Fulfils row t) : GhostFits tent row := by
  obtain ⟨hmem, hdt, hname⟩ := mem_of_tupDbSelectTent hsel
  have hrow := h.tree.tupEntryAdd_of_mem hmem
  obtain ⟨db', b, hrun⟩ :=
    upgradeGhost_total h.referential.toJoined hrow hghost row.type row.srcid
  obtain ⟨t, ht, hans⟩ := hanswer db' tent.tupid b ((create_ghost fuel hsel hghost).trans hrun)
  have hup : t = upgradedRow tent row :=
    Option.some.inj (ht.symm.trans (upgradeGhost_row hrow hrun))
  exact (fulfils_upgradedRow hdt hname hghost).1 (hup ▸ hans)

theorem delIdType_group (h : db.Tree) (ht : tent ∈ db.node) (hgroup : tent.type = .group)
    (hname : tent.name ≠ tupConfig) : tupDelIdType 1 db tent.tupid true = some (db, false) := by
  rw [tupDelIdType, h.tupEntryAdd_of_mem ht]
  simp only [Option.bind_eq_bind, Option.bind_some, checkRmTupConfig, if_neg hname, hgroup]
  rfl

theorem not_self_of_acc {α : Type} {r : α → α → Prop} {a : α} (h : Acc r a) : ¬ r a a := by
  induction h with
  | intro a _ ih => exact fun hr => ih a hr hr

theorem nameReady_of_ends (h : db.Sound) (hends : CreateEnds db row)
    (hanswers : CreateFulfils db row) : NameReady db row := by
  intro tent hsel
  refine ⟨fun hghost => fits_of_fulfils h hsel hghost (hanswers 1), fun hgroup => ?_⟩
  by_contra hnot
  obtain ⟨hrow, hname⟩ := not_or.1 hnot
  have hgive : GivesWay tent row := by
    refine ⟨by simp [hgroup], fun heq => hrow ?_, by simp [hgroup]⟩
    rw [← heq, hgroup]
  have hdel := delIdType_group h.tree (mem_of_tupDbSelectTent hsel).1 hgroup hname
  exact not_self_of_acc hends.acc ⟨tent, 1, false, hsel, hgive, hdel⟩

/-- After a removal only a ghost can have the name. -/
theorem ghost_of_retries (h : db.Sound) (hready : NameReady db row) (hretry : Retries row db db')
    {t' : TupEntry} (hsel' : tupDbSelectTent db' row.dt row.name = some t') : t'.type = .ghost := by
  obtain ⟨tent, fuel, b, hsel, hgive, hrun⟩ := hretry
  apply select_of_delIdType h hsel hgive _ hrun hsel'
  by_cases hgroup : tent.type = .group
  · refine .inr (((hready tent hsel).2 hgroup).resolve_left fun hrow => hgive.2.1 ?_)
    exact hgroup.trans hrow.symm
  · exact .inl hgroup

theorem settled_of_retries (h : db.Sound) (hready : NameReady db row) (hretry : Retries row db db')
    (tent : TupEntry) (hsel : tupDbSelectTent db' row.dt row.name = some tent) :
    ¬ GivesWay tent row :=
  fun hgive => hgive.1 (ghost_of_retries h hready hretry hsel)

/-- The function calls itself once at most. -/
theorem createEnds_of_ready (h : db.Sound) (hready : NameReady db row) : CreateEnds db row where
  acc := by
    refine ⟨_, fun m hm => ⟨_, fun m' hm' => ?_⟩⟩
    obtain ⟨tent, -, -, hsel, hgive, -⟩ := hm'
    exact absurd hgive (settled_of_retries h hready hm tent hsel)
  stable := by
    by_cases hsettled : ∀ tent, tupDbSelectTent db row.dt row.name = some tent → ¬ GivesWay tent row
    · refine ⟨1, fun fuel hle => ?_⟩
      obtain ⟨fuel, rfl⟩ := Nat.exists_eq_add_of_le' hle
      exact create_settled hsettled fuel
    · push Not at hsettled
      obtain ⟨tent, hsel, hgive⟩ := hsettled
      obtain ⟨n, hn⟩ := delIdType_stable h.tree tent.tupid true
      refine ⟨n + 2, fun fuel hle => ?_⟩
      obtain ⟨fuel, rfl⟩ := Nat.exists_eq_add_of_le' hle
      rw [show fuel + (n + 2) = (fuel + n + 1) + 1 by omega, create_givesWay _ hsel hgive,
        create_givesWay _ hsel hgive, hn (fuel + n + 1) (by omega), hn (n + 1) (by omega)]
      cases hrun : tupDelIdType n db tent.tupid true with
      | none => rfl
      | some p =>
        have hm := settled_of_retries h hready ⟨tent, n, p.2, hsel, hgive, hrun⟩
        exact (create_settled hm _).trans (create_settled hm _).symm

/-- What comes out of a call that does not call itself. -/
theorem fulfils_settled (h : db.Sound) (hready : NameReady db row)
    (hsettled : ∀ tent, tupDbSelectTent db row.dt row.name = some tent → ¬ GivesWay tent row) :
    CreateFulfils db row := by
  intro fuel db' i b hrun
  obtain _ | fuel := fuel
  · cases hrun
  cases hsel : tupDbSelectTent db row.dt row.name with
  | none =>
    rw [create_none fuel hsel] at hrun
    obtain ⟨⟨m, t⟩, hins, heq⟩ := Option.map_eq_some_iff.1 hrun
    cases heq
    exact ⟨t, fulfils_nodeInsert hins⟩
  | some tent =>
    obtain ⟨hmem, hdt, hname⟩ := mem_of_tupDbSelectTent hsel
    have hrow := h.tree.tupEntryAdd_of_mem hmem
    by_cases hghost : tent.type = .ghost
    · rw [create_ghost fuel hsel hghost] at hrun
      refine ⟨_, upgradeGhost_row hrow hrun, ?_⟩
      exact (fulfils_upgradedRow hdt hname hghost).2 ((hready tent hsel).1 hghost)
    · have hstay := fun hne => hsettled tent hsel ⟨hghost, hne⟩
      rw [create_stays fuel hsel hghost hstay] at hrun
      exact fulfils_refreshNode hrow hdt hname hstay hrun

end

/-- A transient output that is asked for in the top directory. -/
def transientOutput : TupEntry :=
  { tupid := 0, dt := dotDt, type := .generated, srcid := dotDt, name := ['o'], flags := ['t'] }

/-- The ghost of an output that a command has looked for. -/
def ghostOutput : TupEntry := { tupid := 2, dt := dotDt, type := .ghost, name := ['o'] }

/-- The project with that ghost. -/
def ghostProject : Db := { emptyProject with node := emptyProject.node ++ [ghostOutput] }

theorem ghostProject_sound : ghostProject.Sound := by
  have hrun : tupDbCreateNodePartDisplay 1 emptyProject { ghostOutput with tupid := 0 } =
      some (ghostProject, 2, true) := rfl
  have hdt : HasNode emptyProject dotDt := rfl
  refine emptyProject_sound.createNode hdt (fun hpos => absurd hpos (by decide)) ?_ hrun
  intro t hsel
  cases hsel

end Metatup
