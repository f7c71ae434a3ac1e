import Metatup.Db.Referential

/-!
# What removing and asking for nodes leaves alone

A relation between databases that every statement of a removal respects is respected by the whole
removal. The one here is that no link is added and no command is made.

* `Frames.delIdType`: the rule for removals.
* `lessens_create`: asking for a node that is no command.
-/

namespace Metatup

/-- Every statement that a removal consists of respects the relation. -/
structure Frames (R : Db → Db → Prop) : Prop where
  trans : ∀ {db db₁ db₂}, R db db₁ → R db₁ db₂ → R db db₂
  rows : ∀ {db db₁}, KeepsRows db db₁ → R db db₁
  setGhost : ∀ db i, R db (tupDbSetType db i .ghost)
  setSrcid : ∀ db i srcid, R db (tupDbSetSrcid db i srcid)
  deleteTableLinks : ∀ db i, R db (deleteTableLinks db i)
  deleteNode : ∀ db i, R db (deleteNode db i)

namespace Frames

variable {R : Db → Db → Prop} {db db' : Db} {i : TupId}

theorem refl (hR : Frames R) (db : Db) : R db db := hR.rows (.refl db)

theorem foldlM {β : Type} (hR : Frames R) {f : Db → β → Option Db} {l : List β}
    (hf : ∀ db b db', f db b = some db' → R db db') (h : l.foldlM f db = some db') : R db db' := by
  induction l generalizing db with
  | nil =>
    cases h
    exact hR.refl _
  | cons b l ih =>
    rw [List.foldlM_cons, Option.bind_eq_bind, Option.bind_eq_some_iff] at h
    obtain ⟨m, hm, h⟩ := h
    exact hR.trans (hf _ _ _ hm) (ih h)

theorem deleteLinks (hR : Frames R) (h : tupDbDeleteLinks db i = some db') : R db db' := by
  obtain ⟨m, hk, rfl⟩ := tupDbDeleteLinks_rows h
  exact hR.trans (hR.rows hk) (hR.deleteTableLinks m i)

theorem tupDbDeleteNode (hR : Frames R) (h : tupDbDeleteNode db i = some db') : R db db' := by
  unfold Metatup.tupDbDeleteNode at h
  obtain ⟨tent, -, h⟩ := Option.bind_eq_some_iff.1 h
  obtain ⟨parent, -, h⟩ := Option.bind_eq_some_iff.1 h
  obtain ⟨m, hsrc, h⟩ := Option.bind_eq_some_iff.1 h
  apply hR.trans (hR.rows (.checkSrcGhost hsrc))
  split at h
  · cases h
    have hflag : R m (if tent.type = .dir then m.addCreate i else m) :=
      hR.rows (.ite (.setFlags _ _) (.refl _))
    exact hR.trans (hR.trans hflag (hR.setGhost _ i)) (hR.setSrcid _ i _)
  · cases h
    exact hR.trans (hR.deleteNode m i) (hR.rows (.addGhostTree _ _))

theorem flagAndDelete (hR : Frames R) {tent : TupEntry} {force : Bool}
    (h : flagAndDelete db tent force = some db') : R db db' := by
  apply hR.trans (hR.rows (.flagDependents db tent force))
  obtain ⟨m, hlinks, h⟩ := Option.bind_eq_some_iff.1 h
  have hm := hR.trans (hR.rows (.setFlags _ _)) (hR.deleteLinks hlinks)
  exact hR.trans hm (hR.tupDbDeleteNode h)

theorem checkRmTupConfig (hR : Frames R) (db : Db) (tent : TupEntry) :
    R db (checkRmTupConfig db tent).1 := by
  unfold Metatup.checkRmTupConfig
  split
  · exact hR.trans (hR.setGhost db _) (hR.rows (.setFlags _ _))
  · exact hR.refl db

theorem markVariant (hR : Frames R) (tent : TupEntry) (db : Db) (v : Variant) :
    R db (markVariant tent db v) := by
  unfold Metatup.markVariant
  split
  · exact hR.refl db
  · split
    · exact hR.setSrcid _ _ _
    · exact hR.refl db

theorem dirRemoved (hR : Frames R) {force : Bool} (h : dirRemoved db i force = some db') :
    R db db' := by
  obtain ⟨tent, -, h⟩ := Option.bind_eq_some_iff.1 h
  dsimp only at h
  split at h
  · cases h
    exact hR.rows (.ite (.maybeAddCreateList _ _) (.refl _))
  · obtain ⟨parent, -, h⟩ := Option.bind_eq_some_iff.1 h
    cases h
    have hmark : ∀ (l : List Variant) (m : Db), R m (l.foldl (Metatup.markVariant tent) m) := by
      intro l
      induction l with
      | nil => exact fun m => hR.refl m
      | cons v l ih => exact fun m => hR.trans (hR.markVariant tent m v) (ih _)
    refine hR.trans (hR.trans ?_ (hmark _ _)) (hR.rows (.ite (.setFlags _ _) (.refl _)))
    split
    · exact hR.rows (.setFlags _ _)
    · exact hR.refl db

variable {del : Db → TupId → Bool → Option (Db × Bool)}

theorem entries (hR : Frames R) (hdel : ∀ db i force db' b, del db i force = some (db', b) → R db db')
    {force : TupEntry → Bool} {l : List TupEntry}
    (h : l.foldlM (fun db he => (del db he.tupid (force he)).map Prod.fst) db = some db') :
    R db db' := by
  refine hR.foldlM (fun db he db' hstep => ?_) h
  obtain ⟨⟨m, b⟩, hcall, rfl⟩ := Option.map_eq_some_iff.1 hstep
  exact hdel _ _ _ _ _ hcall

theorem deleteDir (hR : Frames R)
    (hdel : ∀ db i force db' b, del db i force = some (db', b) → R db db') {force : Bool}
    (h : tupDbDeleteDir del db i force = some db') : R db db' := by
  obtain ⟨m, hm, h⟩ := Option.bind_eq_some_iff.1 h
  exact hR.trans (hR.rows (.setSrcidDirFlags hm)) (hR.entries hdel h)

theorem flagGeneratedDir (hR : Frames R)
    (hdel : ∀ db i force db' b, del db i force = some (db', b) → R db db') {tent : TupEntry}
    {force : Bool} (h : tupDbFlagGeneratedDir del db tent force = some db') : R db db' := by
  obtain ⟨m, hm, h⟩ := Option.bind_eq_some_iff.1 h
  refine hR.trans ?_ (hR.entries hdel h)
  unfold ghostGeneratedDir at hm
  split at hm
  · obtain ⟨m₀, hsrc, rfl⟩ := Option.map_eq_some_iff.1 hm
    exact hR.trans (hR.trans (hR.rows (.setSrcidDirFlags hsrc)) (hR.setGhost _ _))
      (hR.rows (.addGhostTree _ _))
  · cases hm
    exact hR.refl db

/-- The whole of a removal. -/
theorem delIdType (hR : Frames R) {fuel : ℕ} {force b : Bool}
    (h : tupDelIdType fuel db i force = some (db', b)) : R db db' := by
  induction fuel generalizing db i force db' b with
  | zero => cases h
  | succ fuel ih =>
    obtain ⟨tent, -, h⟩ := Option.bind_eq_some_iff.1 h
    dsimp only at h
    have hp := hR.checkRmTupConfig db tent
    generalize Metatup.checkRmTupConfig db tent = p at h hp
    obtain ⟨m, dontDelete⟩ := p
    have hdel : ∀ {m' : Db}, R m m' →
        ((Metatup.flagAndDelete m' tent force).bind fun db => some (db, true)) = some (db', b) →
          R db db' := by
      intro m' hm' hflag
      obtain ⟨m'', hm'', heq⟩ := Option.bind_eq_some_iff.1 hflag
      cases heq
      exact hR.trans (hR.trans hp hm') (hR.flagAndDelete hm'')
    dsimp only at h
    split at h
    · cases h
      exact hp
    · split at h
      · cases h
        exact hp
      · cases h
        exact hp
      · obtain ⟨m', hm', h⟩ := Option.bind_eq_some_iff.1 h
        cases h
        exact hR.trans hp (hR.flagGeneratedDir (fun _ _ _ _ _ hd => ih hd) hm')
      · obtain ⟨m', hm', h⟩ := Option.bind_eq_some_iff.1 h
        obtain ⟨m'', hm'', h⟩ := Option.bind_eq_some_iff.1 h
        have hdir := hR.deleteDir (fun _ _ _ _ _ hd => ih hd) hm'
        exact hdel (hR.trans hdir (hR.dirRemoved hm'')) h
      · split at h
        · have heq : _ = db' := congrArg Prod.fst (Option.some.inj h)
          rw [← heq]
          exact hR.trans hp (hR.rows (.generatedRemoved _ _))
        · exact hdel (hR.refl m) h
      all_goals exact hdel (hR.refl m) h

end Frames

/-! ### No new link, no new command -/

/-- No link is added, and every command was a command of that name before. -/
structure Lessens (db db' : Db) : Prop where
  links : ∀ style, ∀ l ∈ db'.links style, l ∈ db.links style
  cmds : ∀ t' ∈ db'.node, t'.type = .cmd →
    ∃ t ∈ db.node, t.type = .cmd ∧ t.tupid = t'.tupid ∧ t.dt = t'.dt ∧ t.name = t'.name

namespace Lessens

variable {db db₁ db₂ : Db} {i c : TupId}

theorem of_keepsRows (h : KeepsRows db db₁) : Lessens db db₁ where
  links style _ hl := h.links style ▸ hl
  cmds t ht hc := ⟨t, h.node ▸ ht, hc, rfl, rfl, rfl⟩

theorem refl (db : Db) : Lessens db db := of_keepsRows (.refl db)

theorem trans (h : Lessens db db₁) (h₁ : Lessens db₁ db₂) : Lessens db db₂ where
  links style l hl := h.links style l (h₁.links style l hl)
  cmds t₂ ht₂ hc₂ := by
    obtain ⟨t₁, ht₁, hc₁, hid₁, hdt₁, hname₁⟩ := h₁.cmds t₂ ht₂ hc₂
    obtain ⟨t, ht, hc, hid, hdt, hname⟩ := h.cmds t₁ ht₁ hc₁
    exact ⟨t, ht, hc, hid.trans hid₁, hdt.trans hdt₁, hname.trans hname₁⟩

/-- A change of a row that makes no command of it and leaves it where it is. -/
theorem updateNode {f : TupEntry → TupEntry}
    (hf : ∀ t, (f t).tupid = t.tupid ∧ (f t).dt = t.dt ∧ (f t).name = t.name)
    (hc : ∀ t, (f t).type = .cmd → t.type = .cmd) : Lessens db (db.updateNode i f) where
  links style _ hl := by
    cases style <;> exact hl
  cmds t ht htc := by
    obtain ⟨s, hs, rfl⟩ := List.mem_map.1 ht
    by_cases heq : s.tupid = i
    · rw [if_pos heq] at htc ⊢
      obtain ⟨hid, hdt, hname⟩ := hf s
      exact ⟨s, hs, hc s htc, hid.symm, hdt.symm, hname.symm⟩
    · rw [if_neg heq] at htc ⊢
      exact ⟨s, hs, htc, rfl, rfl, rfl⟩

theorem setType {type : NodeType} (h : type ≠ .cmd) : Lessens db (tupDbSetType db i type) :=
  updateNode (fun _ => ⟨rfl, rfl, rfl⟩) fun _ hc => absurd hc h

theorem setSrcid (srcid : TupId) : Lessens db (tupDbSetSrcid db i srcid) :=
  updateNode (fun _ => ⟨rfl, rfl, rfl⟩) fun _ hc => hc

theorem setFlags (flags : Text) : Lessens db (tupDbSetFlags db i flags) :=
  updateNode (fun _ => ⟨rfl, rfl, rfl⟩) fun _ hc => hc

theorem ite {p : Prop} [Decidable p] (h : Lessens db db₁) (h₂ : Lessens db db₂) :
    Lessens db (if p then db₁ else db₂) := by
  split
  · exact h
  · exact h₂

theorem append {row : TupEntry} (h : row.type ≠ .cmd) :
    Lessens db { db with node := db.node ++ [row] } where
  links style _ hl := by
    cases style <;> exact hl
  cmds t ht hc := by
    rcases List.mem_append.1 ht with ht | ht
    · exact ⟨t, ht, hc, rfl, rfl, rfl⟩
    · rw [List.mem_singleton.1 ht] at hc
      exact absurd hc h

theorem frames : Frames Lessens where
  trans := trans
  rows := of_keepsRows
  setGhost _ _ := setType (by decide)
  setSrcid _ _ srcid := setSrcid srcid
  deleteTableLinks db i :=
    { links := fun style _ hl => by
        cases style <;> exact (List.mem_filter.1 hl).1
      cmds := fun t ht hc => ⟨t, ht, hc, rfl, rfl, rfl⟩ }
  deleteNode db i :=
    { links := fun style _ hl => by
        cases style <;> exact hl
      cmds := fun t ht hc => ⟨t, (List.mem_filter.1 ht).1, hc, rfl, rfl, rfl⟩ }

theorem normalAdj (h : Lessens db db₁) (hadj : NormalAdj db₁ c i) : NormalAdj db c i :=
  h.links .normal _ hadj

end Lessens

/-! ### Asking for a node -/

section

variable {db db' : Db} {i c : TupId} {tent row : TupEntry} {b : Bool} {fuel : ℕ}

theorem lessens_unlinkGhost {type : NodeType} (h : unlinkGhost db i type = some db') :
    Lessens db db' := by
  unfold unlinkGhost at h
  split at h
  · cases h
    exact .of_keepsRows (.setFlags _ _)
  · have hflag : KeepsRows db (tupDbModifyCmdsByInput (tupDbSetDependentDirFlags db i) i) :=
      (KeepsRows.setFlags db _).trans (.setFlags _ _)
    exact (Lessens.of_keepsRows hflag).trans (Lessens.frames.deleteLinks h)
  · cases h
    exact .refl _

theorem lessens_upgradeGhost {type : NodeType} {srcid : TupId} (htype : type ≠ .cmd)
    (h : upgradeGhost db tent type srcid = some (db', i, b)) : Lessens db db' ∧ i = tent.tupid := by
  obtain ⟨m, hm, h⟩ := Option.bind_eq_some_iff.1 h
  cases h
  have hset : Lessens m (if type ≠ .ghost then
      tupDbSetSrcid (tupDbSetType (m.addModify tent.tupid) tent.tupid type) tent.tupid srcid else m) := by
    apply Lessens.ite
    · exact ((Lessens.of_keepsRows (.setFlags m _)).trans (.setType htype)).trans (.setSrcid srcid)
    · exact .refl m
  exact ⟨((lessens_unlinkGhost hm).trans hset).trans (.of_keepsRows (.of_eq rfl rfl rfl)), rfl⟩

theorem lessens_refreshNode (hname : tent.name = row.name)
    (h : refreshNode db tent row = some (db', i, b)) : Lessens db db' ∧ i = tent.tupid ∧ b = false := by
  unfold refreshNode respellNode at h
  dsimp only at h
  rw [if_neg (by simp [hname]), Option.bind_eq_bind, Option.bind_some] at h
  split at h
  · cases h
  · cases h
    refine ⟨?_, rfl, by simp [hname]⟩
    have hset : Lessens db (if row.srcid ≠ -1 ∧ tent.srcid ≠ row.srcid then
        tupDbSetSrcid db tent.tupid row.srcid else db) := .ite (.setSrcid _) (.refl db)
    exact hset.trans (.ite (.setFlags _) (.refl _))

theorem node_nodeInsert {t : TupEntry} (h : nodeInsert db row = some (db', t)) :
    t = { row with tupid := newNodeId db } ∧ db'.node = db.node ++ [t] ∧
      ∀ style, db'.links style = db.links style := by
  obtain ⟨⟨m, t'⟩, hrow, h⟩ := Option.bind_eq_some_iff.1 h
  cases h
  unfold tupDbNodeInsertTentDisplay at hrow
  split at hrow
  · cases hrow
  · have heq := Option.some.inj hrow
    obtain ⟨hdb, rfl⟩ := Prod.ext_iff.1 heq
    dsimp only at hdb
    have hfirst : KeepsRows { db with node := db.node ++ [{ row with tupid := newNodeId db }] } m := by
      rw [← hdb]
      exact .ite (.setFlags _ _) (.refl _)
    have hk := hfirst.trans (KeepsRows.ite
      (p := ({ row with tupid := newNodeId db }.type = .dir &&
        !isVirtualTent { row with tupid := newNodeId db }) = true)
      (.addCreate m (newNodeId db)) (.refl m))
    refine ⟨rfl, hk.node, fun style => (hk.links style).trans ?_⟩
    cases style <;> rfl

/-- Asking for a node that is no command adds no link and makes no command. -/
theorem lessens_create (htype : row.type ≠ .cmd)
    (h : tupDbCreateNodePartDisplay fuel db row = some (db', i, b)) : Lessens db db' := by
  induction fuel generalizing db with
  | zero => cases h
  | succ fuel ih =>
    unfold tupDbCreateNodePartDisplay at h
    split at h
    · next t hsel =>
      split at h
      · exact (lessens_upgradeGhost htype h).1
      split at h
      · obtain ⟨⟨m, b'⟩, hdel, h⟩ := Option.bind_eq_some_iff.1 h
        exact (Lessens.frames.delIdType hdel).trans (ih h)
      · exact (lessens_refreshNode (mem_of_tupDbSelectTent hsel).2.2 h).1
    · obtain ⟨⟨m, t⟩, hins, h⟩ := Option.bind_eq_some_iff.1 h
      cases h
      obtain ⟨rfl, hnode, hlinks⟩ := node_nodeInsert hins
      have hadd : Lessens db { db with node := db.node ++ [{ row with tupid := newNodeId db }] } :=
        .append htype
      refine ⟨fun style l hl => ?_, fun t ht => ?_⟩
      · rw [hlinks] at hl
        exact hl
      · rw [hnode] at ht
        exact hadd.cmds t ht

/-- The node that comes out is one the command has no link to, when it had none to the node of that
name. -/
theorem unlinked_create (hs : db.Sound) (htype : row.type ≠ .cmd)
    (hun : ∀ t, tupDbSelectTent db row.dt row.name = some t → ¬ NormalAdj db c t.tupid)
    (h : tupDbCreateNodePartDisplay fuel db row = some (db', i, b)) : ¬ NormalAdj db' c i := by
  induction fuel generalizing db with
  | zero => cases h
  | succ fuel ih =>
    unfold tupDbCreateNodePartDisplay at h
    split at h
    · next t hsel =>
      obtain ⟨hmem, htdt, htname⟩ := mem_of_tupDbSelectTent hsel
      split at h
      · obtain ⟨hless, rfl⟩ := lessens_upgradeGhost htype h
        exact fun hadj => hun t hsel (hless.normalAdj hadj)
      split at h
      · obtain ⟨⟨m, b'⟩, hdel, h⟩ := Option.bind_eq_some_iff.1 h
        have hrem := removing_tupDelIdType fuel _ _ _ _ _ hdel
        refine ih (hs.shrinks hrem) (fun t' hsel' hadj => ?_) h
        -- the node of that name is still the same
        obtain ⟨hmem', ht'dt, ht'name⟩ := mem_of_tupDbSelectTent hsel'
        obtain ⟨s, hsmem, hsid, hsdt, hsname⟩ := hrem.place t' hmem'
        have hst := hs.tree.names s hsmem t hmem (by rw [hsdt, ht'dt, htdt])
          (by rw [hsname, ht'name, htname])
        rw [← hsid, hst] at hadj
        exact hun t hsel ((Lessens.frames.delIdType hdel).normalAdj hadj)
      · obtain ⟨hless, rfl, -⟩ := lessens_refreshNode htname h
        exact fun hadj => hun t hsel (hless.normalAdj hadj)
    · obtain ⟨⟨m, t⟩, hins, h⟩ := Option.bind_eq_some_iff.1 h
      cases h
      obtain ⟨rfl, -, hlinks⟩ := node_nodeInsert hins
      intro hadj
      have hmem : (⟨c, newNodeId db⟩ : Link) ∈ db.links .normal := hlinks .normal ▸ hadj
      obtain ⟨t, ht, hid⟩ := hasNode_iff.1 (hs.referential.links .normal _ hmem).2
      have hlt := lt_newNodeId db ht
      rw [hid] at hlt
      exact lt_irrefl _ hlt

end

end Metatup
