import Metatup.Db.NoLostDependent
import Metatup.Lib.Lts

/-!
# References between nodes

A node refers to the directory it is in and to the directory it was made for, and a link to its two
ends. The schema does not guard these references; every function that removes a row has to see to it
that none is left.

* `reclaimGhosts`: the ghosts that nothing needs any more go.
* `Db.Referential`: every reference leads to a node.
* `NodeEvent`: what happens to the nodes, from the database of an empty project.
* `references_kept`: the references of every state that is reached without a directory being moved
  onto a ghost that something refers to.
-/

namespace Metatup

open Lib

/-! ### Reclaiming ghosts -/

/-- Source: `db.c` `ghost_reclaimable` with the queries it makes -/
def ghostReclaimable (exclusionDt : TupId) (db : Db) (tent : TupEntry) : Bool :=
  let i := tent.tupid
  if tent.dt = exclusionDt then !db.normalLink.any (·.toId = i)
  else if tent.type = .ghost ∨ tent.type = .generatedDir then
    !nodeHasGhosts db i && !db.normalLink.any (·.fromId = i)
  else !db.normalLink.any (fun l => l.fromId = i || l.toId = i) && !db.stickyLink.any (·.fromId = i)

/-- `tup_entry_add_ghost_tree` for a tree other than `ghost_root`. -/
def addToGhostTree (tree : TentTree) (tent : TupEntry) : TentTree :=
  match tent.type with
  | .ghost | .group | .generatedDir => tentTreeAddDup tree tent.tupid
  | _ => tree

/-- What `reclaim_ghosts` does with a node it has taken out of `ghost_root`; `tmpRoot` are the parents
that are to be checked again. -/
def reclaimGhost (exclusionDt : TupId) (db : Db) (tmpRoot : TentTree) (tent : TupEntry) :
    Option (Db × TentTree) :=
  if ghostReclaimable exclusionDt db tent && tent.name ≠ tupConfig then do
    let parent ← tupEntryAdd db tent.dt
    let tmpRoot := addToGhostTree (tentTreeRemove tmpRoot tent.tupid) parent
    let db ← deleteNameFile { db with ghostRoot := tentTreeRemove db.ghostRoot tent.dt } tent.tupid
    return (db, tmpRoot)
  else some (db, tmpRoot)

/-- When `ghost_root` is used up, the parents take its place. -/
def swapGhosts (db : Db) (tmpRoot : TentTree) : Db × TentTree :=
  if db.ghostRoot.ids = [] then ({ db with ghostRoot := tmpRoot }, ∅) else (db, tmpRoot)

/-- The loop of `reclaim_ghosts`. -/
def reclaimLoop (exclusionDt : TupId) : ℕ → Db → TentTree → Option Db
  | 0, _, _ => none
  | fuel + 1, db, tmpRoot =>
    match db.ghostRoot.ids with
    | [] => some db
    | i :: _ => do
      let tent ← tupEntryAdd db i
      let db := { db with ghostRoot := tentTreeRemove db.ghostRoot i }
      if tent.type ≠ .ghost ∧ tent.type ≠ .group ∧ tent.type ≠ .generatedDir then none
      else
        let (db, tmpRoot) ← reclaimGhost exclusionDt db tmpRoot tent
        let (db, tmpRoot) := swapGhosts db tmpRoot
        reclaimLoop exclusionDt fuel db tmpRoot

/-- Source: `db.c` `reclaim_ghosts` -/
def reclaimGhosts (exclusionDt : TupId) (fuel : ℕ) (db : Db) : Option Db :=
  reclaimLoop exclusionDt fuel db ∅

/-! ### A removal by type -/

/-- `tup_del_id_type` called for a node with a type that need not be the type of the node. -/
def tupDelIdTypeAs (fuel : ℕ) (db : Db) (i : TupId) (type : NodeType) (force : Bool) :
    Option (Db × Bool) := do
  let tent ← tupEntryAdd db i
  let tent := { tent with type := type }
  let (db, dontDelete) := checkRmTupConfig db tent
  if dontDelete then return (db, false)
  else
    match type with
    | .ghost | .group => return (db, false)
    | .generatedDir =>
      let db ← tupDbFlagGeneratedDir (tupDelIdType fuel) db tent force
      return (db, false)
    | .dir =>
      let db ← tupDbDeleteDir (tupDelIdType fuel) db i force
      let db ← dirRemoved db i force
      let db ← flagAndDelete db tent force
      return (db, true)
    | .generated =>
      if !force then return generatedRemoved db tent
      else
        let db ← flagAndDelete db tent force
        return (db, true)
    | .file | .cmd | .var | .root =>
      let db ← flagAndDelete db tent force
      return (db, true)

/-- With the type of the node it is the function that its callers know. -/
theorem tupDelIdTypeAs_eq {db : Db} {i : TupId} {t : TupEntry} (fuel : ℕ) (force : Bool)
    (h : tupEntryAdd db i = some t) :
    tupDelIdTypeAs fuel db i t.type force = tupDelIdType (fuel + 1) db i force := by
  unfold tupDelIdTypeAs tupDelIdType
  rw [h]
  rfl

/-! ### References -/

/-- `tup_entry_add` finds the node. -/
def HasNode (db : Db) (i : TupId) : Prop := (tupEntryAdd db i).isSome = true

/-- The directory of every node but the top and the ends of every link are nodes. -/
structure Db.Joined (db : Db) : Prop where
  dir : ∀ t ∈ db.node, (t.tupid = dotDt ∧ t.dt = 0) ∨ HasNode db t.dt
  links : ∀ style, ∀ l ∈ db.links style, HasNode db l.fromId ∧ HasNode db l.toId

/-- And so is every `srcid` that is no marker. -/
structure Db.Referential (db : Db) : Prop extends Db.Joined db where
  srcid : ∀ t ∈ db.node, 0 ≤ t.srcid → HasNode db t.srcid

/-- No link leads to the node or from it. -/
def Unlinked (db : Db) (i : TupId) : Prop :=
  ∀ style, ∀ l ∈ db.links style, l.fromId ≠ i ∧ l.toId ≠ i

theorem hasNode_iff {db : Db} {i : TupId} : HasNode db i ↔ ∃ t ∈ db.node, t.tupid = i := by
  unfold HasNode tupEntryAdd
  rw [List.find?_isSome]
  simp

theorem hasNode_of_tupEntryAdd {db : Db} {i : TupId} {t : TupEntry} (h : tupEntryAdd db i = some t) :
    HasNode db i := by
  unfold HasNode
  rw [h]
  rfl

/-- What a statement does that is about flags, ghosts and variants. -/
structure KeepsRows (db db' : Db) : Prop where
  node : db'.node = db.node
  links : ∀ style, db'.links style = db.links style

namespace KeepsRows

variable {db db₁ db₂ : Db}

theorem of_eq (hnode : db₁.node = db.node) (hnormal : db₁.normalLink = db.normalLink)
    (hsticky : db₁.stickyLink = db.stickyLink) : KeepsRows db db₁ :=
  ⟨hnode, fun style => by cases style; exacts [hnormal, hsticky]⟩

theorem refl (db : Db) : KeepsRows db db := ⟨rfl, fun _ => rfl⟩

theorem trans (h : KeepsRows db db₁) (h₁ : KeepsRows db₁ db₂) : KeepsRows db db₂ :=
  ⟨h₁.node.trans h.node, fun style => (h₁.links style).trans (h.links style)⟩

theorem setFlags (db : Db) (f : Flags) : KeepsRows db (db.setFlags f) := of_eq rfl rfl rfl

theorem addCreate (db : Db) (i : TupId) : KeepsRows db (db.addCreate i) := of_eq rfl rfl rfl

theorem addModify (db : Db) (i : TupId) : KeepsRows db (db.addModify i) := of_eq rfl rfl rfl

theorem addConfig (db : Db) (i : TupId) : KeepsRows db (db.addConfig i) := of_eq rfl rfl rfl

theorem addGhostTree (db : Db) (tent : TupEntry) : KeepsRows db (tupEntryAddGhostTree db tent) := by
  rw [tupEntryAddGhostTree_eq]
  exact of_eq rfl rfl rfl

theorem foldlM {β : Type} {f : Db → β → Option Db} {l : List β}
    (hf : ∀ db b db', f db b = some db' → KeepsRows db db') (h : l.foldlM f db = some db₁) :
    KeepsRows db db₁ := by
  induction l generalizing db with
  | nil =>
    cases h
    exact refl _
  | cons b l ih =>
    rw [List.foldlM_cons, Option.bind_eq_bind, Option.bind_eq_some_iff] at h
    obtain ⟨m, hm, h⟩ := h
    exact (hf _ _ _ hm).trans (ih h)

theorem foldl {β : Type} {f : Db → β → Db} {l : List β} (hf : ∀ db b, KeepsRows db (f db b)) :
    KeepsRows db (l.foldl f db) := by
  induction l generalizing db with
  | nil => exact refl db
  | cons b l ih => exact (hf db b).trans ih

theorem ite {p : Prop} [Decidable p] (h : KeepsRows db db₁) (h₂ : KeepsRows db db₂) :
    KeepsRows db (if p then db₁ else db₂) := by
  split
  · exact h
  · exact h₂

theorem maybeAddCreateList (db : Db) (i : TupId) : KeepsRows db (tupDbMaybeAddCreateList db i) :=
  ite (setFlags _ _) (refl _)

theorem maybeAddConfigList (db : Db) (i : TupId) : KeepsRows db (tupDbMaybeAddConfigList db i) :=
  ite (setFlags _ _) (refl _)

theorem setDependentFlags (db : Db) (i : TupId) : KeepsRows db (tupDbSetDependentFlags db i) :=
  (setFlags db _).trans (setFlags _ _)

theorem setSrcidDirFlags {i : TupId} (h : tupDbSetSrcidDirFlags db i = some db₁) :
    KeepsRows db db₁ := by
  apply foldlM _ h
  intro db s db' hstep
  obtain ⟨tent, -, hstep⟩ := Option.bind_eq_some_iff.1 hstep
  cases hstep
  exact ite (setFlags _ _) (refl _)

theorem addGhostChecks {i : TupId} (h : addGhostChecks db i = some db₁) : KeepsRows db db₁ := by
  apply foldlM _ h
  intro db j db' hstep
  obtain ⟨tent, -, hstep⟩ := Option.bind_eq_some_iff.1 hstep
  cases hstep
  exact addGhostTree db tent

theorem addGroupAndExclusionChecks {i : TupId} (h : addGroupAndExclusionChecks db i = some db₁) :
    KeepsRows db db₁ := by
  obtain ⟨tents, -, h⟩ := Option.bind_eq_some_iff.1 h
  cases h
  exact foldl addGhostTree

theorem flagGroupUsers {i : TupId} (h : flagGroupUsers db i = some db₁) : KeepsRows db db₁ := by
  obtain ⟨tent, -, h⟩ := Option.bind_eq_some_iff.1 h
  split at h
  · cases h
    exact setFlags _ _
  · cases h
    exact refl db

theorem checkSrcGhost {srcid : TupId} (h : checkSrcGhost db srcid = some db₁) : KeepsRows db db₁ := by
  unfold Metatup.checkSrcGhost at h
  split at h
  · obtain ⟨srctent, -, h⟩ := Option.bind_eq_some_iff.1 h
    cases h
    exact addGhostTree db srctent
  · cases h
    exact refl db

theorem flagDependents (db : Db) (tent : TupEntry) (force : Bool) :
    KeepsRows db (flagDependents db tent force) := by
  unfold Metatup.flagDependents
  have hfirst := ite (p := tent.type = .file ∨ tent.type = .dir) (setDependentFlags db tent.tupid)
    (refl db)
  refine hfirst.trans (ite ?_ (refl _))
  exact (setFlags _ _).trans (ite (setFlags _ _) (refl _))

theorem generatedRemoved (db : Db) (tent : TupEntry) : KeepsRows db (generatedRemoved db tent).1 := by
  unfold Metatup.generatedRemoved
  split
  · exact setFlags _ _
  · exact (setFlags db _).trans (setFlags _ _)

theorem hasNode (h : KeepsRows db db₁) (i : TupId) : HasNode db₁ i ↔ HasNode db i := by
  rw [hasNode_iff, hasNode_iff, h.node]

end KeepsRows

section

variable {db db' : Db} {i j : TupId} {f : TupEntry → TupEntry}

theorem hasNode_updateNode (hf : ∀ t, (f t).tupid = t.tupid) :
    HasNode (db.updateNode i f) j ↔ HasNode db j := by
  unfold HasNode
  rw [tupEntryAdd_updateNode db i j hf]
  split
  · rw [Option.isSome_map]
  · rfl

theorem hasNode_setType {type : NodeType} : HasNode (tupDbSetType db i type) j ↔ HasNode db j := by
  unfold tupDbSetType
  exact hasNode_updateNode fun _ => rfl

theorem hasNode_deleteNode : HasNode (deleteNode db i) j ↔ j ≠ i ∧ HasNode db j := by
  unfold HasNode
  rw [tupEntryAdd_deleteNode]
  by_cases hji : j = i
  · simp [hji]
  · simp [hji]

theorem Db.Joined.of_keepsRows (h : db.Joined) (hk : KeepsRows db db') : db'.Joined where
  dir t ht := by
    rw [hk.hasNode]
    exact h.dir t (hk.node ▸ ht)
  links style l hl := by
    rw [hk.hasNode, hk.hasNode]
    exact h.links style l (hk.links style ▸ hl)

theorem Db.Joined.deleteTableLinks (h : db.Joined) (i : TupId) : (deleteTableLinks db i).Joined where
  dir := h.dir
  links style l hl := by
    apply h.links style l
    cases style
    · exact (List.mem_filter.1 hl).1
    · exact (List.mem_filter.1 hl).1

/-- A node can go that no other node is in and no link is at. -/
theorem Db.Joined.deleteNode (h : db.Joined) (hdir : ∀ t ∈ db.node, t.tupid ≠ i → t.dt ≠ i)
    (hun : Unlinked db i) : (deleteNode db i).Joined where
  dir t ht := by
    obtain ⟨hmem, hid⟩ := List.mem_filter.1 ht
    rw [hasNode_deleteNode]
    exact (h.dir t hmem).imp_right fun hn => ⟨hdir t hmem (by simpa using hid), hn⟩
  links style l hl := by
    have heq : (Metatup.deleteNode db i).links style = db.links style := by
      cases style <;> rfl
    rw [heq] at hl
    obtain ⟨hfrom, hto⟩ := hun style l hl
    rw [hasNode_deleteNode, hasNode_deleteNode]
    exact ⟨⟨hfrom, (h.links style l hl).1⟩, hto, (h.links style l hl).2⟩

theorem Db.Referential.of_keepsRows (h : db.Referential) (hk : KeepsRows db db') :
    db'.Referential where
  toJoined := h.toJoined.of_keepsRows hk
  srcid t ht hs := (hk.hasNode _).2 (h.srcid t (hk.node ▸ ht) hs)

/-- Changing the row of a node to one whose references are right. -/
theorem Db.Referential.updateNode (h : db.Referential) (hf : ∀ t, (f t).tupid = t.tupid)
    (hdir : ∀ t ∈ db.node, t.tupid = i → (f t).dt = t.dt ∨ HasNode db (f t).dt)
    (hsrcid : ∀ t ∈ db.node, t.tupid = i → 0 ≤ (f t).srcid → HasNode db (f t).srcid) :
    (db.updateNode i f).Referential where
  dir t ht := by
    rw [hasNode_updateNode hf]
    obtain ⟨s, hs, rfl⟩ := List.mem_map.1 ht
    by_cases heq : s.tupid = i
    · rw [if_pos heq, hf]
      rcases hdir s hs heq with hdt | hnode
      · rw [hdt]
        exact h.dir s hs
      · exact .inr hnode
    · rw [if_neg heq]
      exact h.dir s hs
  srcid t ht hsrc := by
    rw [hasNode_updateNode hf]
    obtain ⟨s, hs, rfl⟩ := List.mem_map.1 ht
    by_cases heq : s.tupid = i
    · rw [if_pos heq] at hsrc ⊢
      exact hsrcid s hs heq hsrc
    · rw [if_neg heq] at hsrc ⊢
      exact h.srcid s hs hsrc
  links style l hl := by
    rw [hasNode_updateNode hf, hasNode_updateNode hf]
    have heq : (db.updateNode i f).links style = db.links style := by
      cases style <;> rfl
    exact h.links style l (heq ▸ hl)

theorem Db.Referential.deleteTableLinks (h : db.Referential) (i : TupId) :
    (deleteTableLinks db i).Referential := ⟨h.toJoined.deleteTableLinks i, h.srcid⟩

theorem Db.Referential.deleteNode (h : db.Referential)
    (hrows : ∀ t ∈ db.node, t.dt ≠ i ∧ t.srcid ≠ i) (hun : Unlinked db i) :
    (deleteNode db i).Referential where
  toJoined := h.toJoined.deleteNode (fun t ht _ => (hrows t ht).1) hun
  srcid t ht hs := by
    obtain ⟨hmem, -⟩ := List.mem_filter.1 ht
    exact hasNode_deleteNode.2 ⟨(hrows t hmem).2, h.srcid t hmem hs⟩

end

/-! ### Removals -/

/-- What a removal does to the places of the nodes, and that it keeps references. -/
structure Shrinks (db db' : Db) : Prop where
  nodup : (db.node.map TupEntry.tupid).Nodup → (db'.node.map TupEntry.tupid).Nodup
  place : ∀ t' ∈ db'.node, ∃ t ∈ db.node, t.tupid = t'.tupid ∧ t.dt = t'.dt ∧ t.name = t'.name
  referential : db.Referential → db'.Referential

namespace Shrinks

variable {db db₁ db₂ : Db} {i : TupId}

theorem of_keepsRows (h : KeepsRows db db₁) : Shrinks db db₁ where
  nodup hnd := by rwa [h.node]
  place t ht := ⟨t, h.node ▸ ht, rfl, rfl, rfl⟩
  referential hr := hr.of_keepsRows h

theorem refl (db : Db) : Shrinks db db := of_keepsRows (.refl db)

theorem trans (h : Shrinks db db₁) (h₁ : Shrinks db₁ db₂) : Shrinks db db₂ where
  nodup hnd := h₁.nodup (h.nodup hnd)
  place t₂ ht₂ := by
    obtain ⟨t₁, ht₁, hid₁, hdt₁, hname₁⟩ := h₁.place t₂ ht₂
    obtain ⟨t, ht, hid, hdt, hname⟩ := h.place t₁ ht₁
    exact ⟨t, ht, hid.trans hid₁, hdt.trans hdt₁, hname.trans hname₁⟩
  referential hr := h₁.referential (h.referential hr)

theorem ite {p : Prop} [Decidable p] (h : Shrinks db db₁) (h₂ : Shrinks db db₂) :
    Shrinks db (if p then db₁ else db₂) := by
  split
  · exact h
  · exact h₂

/-- A change of a row that leaves the node where it is. -/
theorem updateNode {f : TupEntry → TupEntry}
    (hf : ∀ t, (f t).tupid = t.tupid ∧ (f t).dt = t.dt ∧ (f t).name = t.name)
    (hsrcid : db.Referential → ∀ t ∈ db.node, t.tupid = i → 0 ≤ (f t).srcid → HasNode db (f t).srcid) :
    Shrinks db (db.updateNode i f) where
  nodup hnd := by rwa [map_tupid_updateNode db i fun t => (hf t).1]
  place t ht := by
    obtain ⟨s, hs, rfl⟩ := List.mem_map.1 ht
    refine ⟨s, hs, ?_⟩
    split
    · obtain ⟨hid, hdt, hname⟩ := hf s
      exact ⟨hid.symm, hdt.symm, hname.symm⟩
    · exact ⟨rfl, rfl, rfl⟩
  referential hr := hr.updateNode (fun t => (hf t).1) (fun t _ _ => .inl (hf t).2.1) (hsrcid hr)

theorem setType (db : Db) (i : TupId) (type : NodeType) : Shrinks db (tupDbSetType db i type) :=
  updateNode (fun _ => ⟨rfl, rfl, rfl⟩) fun hr t ht _ => hr.srcid t ht

theorem setSrcid (db : Db) (i : TupId) {srcid : TupId} (hs : 0 ≤ srcid → HasNode db srcid) :
    Shrinks db (tupDbSetSrcid db i srcid) :=
  updateNode (fun _ => ⟨rfl, rfl, rfl⟩) fun _ _ _ _ => hs

theorem deleteTableLinks (db : Db) (i : TupId) : Shrinks db (deleteTableLinks db i) where
  nodup hnd := hnd
  place t ht := ⟨t, ht, rfl, rfl, rfl⟩
  referential hr := hr.deleteTableLinks i

theorem deleteNode (href : db.Referential → (deleteNode db i).Referential) :
    Shrinks db (deleteNode db i) where
  nodup hnd := (map_tupid_deleteNode db i).nodup hnd
  place t ht := ⟨t, (List.mem_filter.1 ht).1, rfl, rfl, rfl⟩
  referential := href

theorem foldlM {β : Type} {f : Db → β → Option Db} {l : List β}
    (hf : ∀ db b db', f db b = some db' → Shrinks db db') (h : l.foldlM f db = some db₁) :
    Shrinks db db₁ := by
  induction l generalizing db with
  | nil =>
    cases h
    exact refl _
  | cons b l ih =>
    rw [List.foldlM_cons, Option.bind_eq_bind, Option.bind_eq_some_iff] at h
    obtain ⟨m, hm, h⟩ := h
    exact (hf _ _ _ hm).trans (ih h)

end Shrinks

section

variable {db db' : Db} {i : TupId}

theorem tupDbDeleteLinks_rows (h : tupDbDeleteLinks db i = some db') :
    ∃ m, KeepsRows db m ∧ db' = deleteTableLinks m i := by
  obtain ⟨db₁, h₁, h⟩ := Option.bind_eq_some_iff.1 h
  obtain ⟨db₂, h₂, h⟩ := Option.bind_eq_some_iff.1 h
  obtain ⟨db₃, h₃, h⟩ := Option.bind_eq_some_iff.1 h
  cases h
  exact ⟨db₃, ((KeepsRows.addGhostChecks h₁).trans (KeepsRows.addGroupAndExclusionChecks h₂)).trans
    (KeepsRows.flagGroupUsers h₃), rfl⟩

theorem unlinked_deleteTableLinks (db : Db) (i : TupId) : Unlinked (deleteTableLinks db i) i := by
  intro style l hl
  have key : ∀ links : List Link, l ∈ withoutNode links i → l.fromId ≠ i ∧ l.toId ≠ i := by
    intro links hmem
    simpa using (List.mem_filter.1 hmem).2
  cases style
  · exact key _ hl
  · exact key _ hl

/-- A node without links is removed when no row refers to it, and becomes a ghost otherwise. -/
theorem shrinks_tupDbDeleteNode (hun : Unlinked db i) (h : tupDbDeleteNode db i = some db') :
    Shrinks db db' := by
  unfold Metatup.tupDbDeleteNode at h
  obtain ⟨tent, -, h⟩ := Option.bind_eq_some_iff.1 h
  obtain ⟨parent, -, h⟩ := Option.bind_eq_some_iff.1 h
  obtain ⟨db₁, hsrc, h⟩ := Option.bind_eq_some_iff.1 h
  have hk := KeepsRows.checkSrcGhost hsrc
  refine (Shrinks.of_keepsRows hk).trans ?_
  split at h
  · cases h
    have hflag : Shrinks db₁ (if tent.type = .dir then db₁.addCreate i else db₁) :=
      .of_keepsRows (.ite (.setFlags _ _) (.refl _))
    refine (hflag.trans (.setType _ i .ghost)).trans (.setSrcid _ i ?_)
    intro hneg
    exact absurd hneg (by decide)
  · next hghost =>
    cases h
    refine (Shrinks.deleteNode fun hr => hr.deleteNode ?_ ?_).trans (.of_keepsRows (.addGhostTree _ _))
    · intro t ht
      rw [Bool.not_eq_true, nodeHasGhosts, List.any_eq_false] at hghost
      simpa using hghost t ht
    · intro style l hl
      exact hun style l (hk.links style ▸ hl)

theorem shrinks_deleteNameFile (h : deleteNameFile db i = some db') : Shrinks db db' := by
  obtain ⟨db₁, hlinks, h⟩ := Option.bind_eq_some_iff.1 h
  obtain ⟨m, hk, rfl⟩ := tupDbDeleteLinks_rows hlinks
  have hm : Shrinks db (deleteTableLinks m i) :=
    (Shrinks.of_keepsRows ((KeepsRows.setFlags db _).trans hk)).trans (.deleteTableLinks m i)
  exact hm.trans (shrinks_tupDbDeleteNode (unlinked_deleteTableLinks m i) h)

theorem shrinks_flagAndDelete {tent : TupEntry} {force : Bool}
    (h : flagAndDelete db tent force = some db') : Shrinks db db' :=
  (Shrinks.of_keepsRows (.flagDependents db tent force)).trans (shrinks_deleteNameFile h)

theorem shrinks_checkRmTupConfig (db : Db) (tent : TupEntry) :
    Shrinks db (checkRmTupConfig db tent).1 := by
  unfold checkRmTupConfig
  split
  · exact (Shrinks.setType db _ _).trans (.of_keepsRows (.setFlags _ _))
  · exact .refl db

theorem shrinks_markVariant (tent : TupEntry) (db : Db) (v : Variant) :
    Shrinks db (markVariant tent db v) := by
  unfold markVariant
  split
  · exact .refl db
  · split
    · apply Shrinks.setSrcid
      intro hneg
      exact absurd hneg (by decide)
    · exact .refl db

theorem shrinks_dirRemoved {force : Bool} (h : dirRemoved db i force = some db') :
    Shrinks db db' := by
  obtain ⟨tent, -, h⟩ := Option.bind_eq_some_iff.1 h
  dsimp only at h
  split at h
  · cases h
    exact .of_keepsRows (.ite (.maybeAddCreateList _ _) (.refl _))
  · obtain ⟨parent, -, h⟩ := Option.bind_eq_some_iff.1 h
    cases h
    refine Shrinks.trans ?_ (.of_keepsRows (.ite (.setFlags _ _) (.refl _)))
    have hmark : ∀ (l : List Variant) (m : Db), Shrinks m (l.foldl (markVariant tent) m) := by
      intro l
      induction l with
      | nil => exact fun m => .refl m
      | cons v l ih => exact fun m => (shrinks_markVariant tent m v).trans (ih _)
    refine Shrinks.trans ?_ (hmark _ _)
    split
    · exact .of_keepsRows (.setFlags _ _)
    · exact .refl db

/-- A function that removes a node. -/
def Removing (del : Db → TupId → Bool → Option (Db × Bool)) : Prop :=
  ∀ db i force db' b, del db i force = some (db', b) → Shrinks db db'

variable {del : Db → TupId → Bool → Option (Db × Bool)}

theorem shrinks_entries (hdel : Removing del) {force : TupEntry → Bool} {l : List TupEntry}
    (h : l.foldlM (fun db he => (del db he.tupid (force he)).map Prod.fst) db = some db') :
    Shrinks db db' := by
  refine Shrinks.foldlM (fun db he db' hstep => ?_) h
  obtain ⟨⟨m, b⟩, hcall, rfl⟩ := Option.map_eq_some_iff.1 hstep
  exact hdel _ _ _ _ _ hcall

theorem shrinks_tupDbDeleteDir (hdel : Removing del) {force : Bool}
    (h : tupDbDeleteDir del db i force = some db') : Shrinks db db' := by
  obtain ⟨m, hm, h⟩ := Option.bind_eq_some_iff.1 h
  exact (Shrinks.of_keepsRows (.setSrcidDirFlags hm)).trans (shrinks_entries hdel h)

theorem shrinks_tupDbFlagGeneratedDir (hdel : Removing del) {tent : TupEntry} {force : Bool}
    (h : tupDbFlagGeneratedDir del db tent force = some db') : Shrinks db db' := by
  obtain ⟨m, hm, h⟩ := Option.bind_eq_some_iff.1 h
  refine Shrinks.trans ?_ (shrinks_entries hdel h)
  unfold ghostGeneratedDir at hm
  split at hm
  · obtain ⟨m₀, hsrc, rfl⟩ := Option.map_eq_some_iff.1 hm
    exact ((Shrinks.of_keepsRows (.setSrcidDirFlags hsrc)).trans (.setType _ _ _)).trans
      (.of_keepsRows (.addGhostTree _ _))
  · cases hm
    exact .refl db

/-- A call of `tup_del_id_type`, whose calls for the entries are by the rows. -/
theorem shrinks_tupDelIdTypeAs {fuel : ℕ} (hdel : Removing (tupDelIdType fuel)) {type : NodeType}
    {force b : Bool} (h : tupDelIdTypeAs fuel db i type force = some (db', b)) : Shrinks db db' := by
  obtain ⟨tent, -, h⟩ := Option.bind_eq_some_iff.1 h
  dsimp only at h
  generalize hcfg : checkRmTupConfig db { tent with type := type } = p at h
  have hp : Shrinks db p.1 := hcfg ▸ shrinks_checkRmTupConfig db _
  obtain ⟨db₁, dontDelete⟩ := p
  have hflag : ∀ {m : Db} {tent : TupEntry}, Shrinks db m →
      ((flagAndDelete m tent force).bind fun db => some (db, true)) = some (db', b) →
        Shrinks db db' := by
    intro m tent hm hflag
    obtain ⟨m', hm', heq⟩ := Option.bind_eq_some_iff.1 hflag
    cases heq
    exact hm.trans (shrinks_flagAndDelete hm')
  dsimp only at h
  split at h
  · cases h
    exact hp
  · cases type with
    | ghost | group =>
      cases h
      exact hp
    | generatedDir =>
      obtain ⟨m, hm, h⟩ := Option.bind_eq_some_iff.1 h
      cases h
      exact hp.trans (shrinks_tupDbFlagGeneratedDir hdel hm)
    | dir =>
      obtain ⟨m, hm, h⟩ := Option.bind_eq_some_iff.1 h
      obtain ⟨m₁, hm₁, h⟩ := Option.bind_eq_some_iff.1 h
      exact hflag ((hp.trans (shrinks_tupDbDeleteDir hdel hm)).trans (shrinks_dirRemoved hm₁)) h
    | generated =>
      dsimp only at h
      split at h
      · have heq : _ = db' := congrArg Prod.fst (Option.some.inj h)
        rw [← heq]
        exact hp.trans (.of_keepsRows (.generatedRemoved _ _))
      · exact hflag hp h
    | file | cmd | var | root => exact hflag hp h

/-- A removal keeps references. -/
theorem removing_tupDelIdType (fuel : ℕ) : Removing (tupDelIdType fuel) := by
  induction fuel with
  | zero =>
    intro db i force db' b h
    cases h
  | succ fuel ih =>
    intro db i force db' b h
    obtain ⟨tent, htent⟩ := exists_row_of_delIdType h
    rw [← tupDelIdTypeAs_eq fuel force htent] at h
    exact shrinks_tupDelIdTypeAs ih h

theorem shrinks_reclaimGhost {exclusionDt : TupId} {tmpRoot tmpRoot' : TentTree} {tent : TupEntry}
    (h : reclaimGhost exclusionDt db tmpRoot tent = some (db', tmpRoot')) : Shrinks db db' := by
  unfold reclaimGhost at h
  split at h
  · obtain ⟨parent, -, h⟩ := Option.bind_eq_some_iff.1 h
    obtain ⟨m, hm, h⟩ := Option.bind_eq_some_iff.1 h
    cases h
    have hroot : Shrinks db { db with ghostRoot := tentTreeRemove db.ghostRoot tent.dt } :=
      .of_keepsRows (.of_eq rfl rfl rfl)
    exact hroot.trans (shrinks_deleteNameFile hm)
  · cases h
    exact .refl db

theorem shrinks_reclaimLoop {exclusionDt : TupId} {fuel : ℕ} {tmpRoot : TentTree}
    (h : reclaimLoop exclusionDt fuel db tmpRoot = some db') : Shrinks db db' := by
  induction fuel generalizing db tmpRoot with
  | zero => cases h
  | succ fuel ih =>
    have hroot : ∀ j, Shrinks db { db with ghostRoot := tentTreeRemove db.ghostRoot j } :=
      fun j => .of_keepsRows (.of_eq rfl rfl rfl)
    unfold reclaimLoop at h
    split at h
    · cases h
      exact .refl _
    · obtain ⟨tent, -, h⟩ := Option.bind_eq_some_iff.1 h
      dsimp only at h
      split at h
      · cases h
      · obtain ⟨⟨m, tmpRoot₁⟩, hm, h⟩ := Option.bind_eq_some_iff.1 h
        have hswap : Shrinks m (swapGhosts m tmpRoot₁).1 := by
          unfold swapGhosts
          split
          · exact .of_keepsRows (.of_eq rfl rfl rfl)
          · exact .refl m
        exact (((hroot _).trans (shrinks_reclaimGhost hm)).trans hswap).trans (ih h)

end

/-! ### Sound databases -/

/-- The references are right, and the nodes form a tree. -/
structure Db.Sound (db : Db) : Prop where
  referential : db.Referential
  tree : db.Tree
  pos : ∀ t ∈ db.node, 0 < t.tupid

/-- A node is another one or below it. -/
def UnderNode (db : Db) (a b : TupId) : Prop := Relation.ReflTransGen (ParentOf db) a b

section

variable {db db' db₁ : Db} {i j : TupId} {t : TupEntry}

theorem Shrinks.parentOf (h : Shrinks db db') (hp : ParentOf db' i j) : ParentOf db i j := by
  obtain ⟨t', ht', rfl, rfl⟩ := hp
  obtain ⟨t, ht, hid, hdt, -⟩ := h.place t' ht'
  exact ⟨t, ht, hid, hdt⟩

theorem Shrinks.below (h : Shrinks db db') (hb : UnderNode db' i j) : UnderNode db i j :=
  Relation.ReflTransGen.mono (fun _ _ hp => h.parentOf hp) _ _ hb

/-- Nodes that stay where they are stay a tree. -/
theorem tree_of_place (h : db.Tree) (hnd : (db'.node.map TupEntry.tupid).Nodup)
    (hplace : ∀ t' ∈ db'.node, ∃ t ∈ db.node, t.tupid = t'.tupid ∧ t.dt = t'.dt ∧ t.name = t'.name) :
    db'.Tree where
  nodup := hnd
  names s' hs' t' ht' hdt hname := by
    obtain ⟨s, hs, hsid, hsdt, hsname⟩ := hplace s' hs'
    obtain ⟨t, ht, htid, htdt, htname⟩ := hplace t' ht'
    have hst := h.names s hs t ht (by rw [hsdt, htdt, hdt]) (by rw [hsname, htname, hname])
    apply List.inj_on_of_nodup_map hnd hs' ht'
    rw [← hsid, ← htid, hst]
  depth := by
    obtain ⟨depth, hd⟩ := h.depth
    refine ⟨depth, fun t' ht' => ?_⟩
    obtain ⟨t, ht, hid, hdt, -⟩ := hplace t' ht'
    rw [← hid, ← hdt]
    exact hd t ht

theorem Db.Sound.shrinks (h : db.Sound) (hr : Shrinks db db') : db'.Sound where
  referential := hr.referential h.referential
  tree := tree_of_place h.tree (hr.nodup h.tree.nodup) hr.place
  pos t' ht' := by
    obtain ⟨t, ht, hid, -⟩ := hr.place t' ht'
    exact hid ▸ h.pos t ht

/-- A removal leaves the nodes that are not below the removed one. -/
theorem hasNode_of_delIdType {fuel : ℕ} {force b : Bool} (h : db.Tree) (ht : tupEntryAdd db i = some t)
    (hrun : tupDelIdType fuel db i force = some (db', b)) (hj : HasNode db j) (hb : ¬ UnderNode db j i) :
    HasNode db' j := by
  obtain ⟨-, hrem⟩ := delIdType_removes h ht hrun
  obtain ⟨-, rfl⟩ := mem_node_of_tupEntryAdd ht
  apply hrem.remains j _ hj
  rintro v hv - rfl
  exact hb hv.parents

/-- No directory is below a node in it. -/
theorem not_below_of_mem (h : db.Tree) (ht : t ∈ db.node) : ¬ UnderNode db t.dt t.tupid := by
  intro hb
  obtain ⟨depth, hd⟩ := h.depth
  have hle := depth_le_of_parents hd hb
  have hlt := hd t ht
  omega

theorem lt_newNodeId (db : Db) (ht : t ∈ db.node) : t.tupid < newNodeId db := by
  unfold newNodeId
  have key : ∀ l : List TupEntry, t ∈ l → t.tupid ≤ (l.map TupEntry.tupid).foldr max 0 := by
    intro l
    induction l with
    | nil => exact fun hmem => absurd hmem List.not_mem_nil
    | cons s l ih =>
      intro hmem
      rw [List.map_cons, List.foldr_cons]
      rcases List.mem_cons.1 hmem with rfl | hmem
      · exact le_max_left _ _
      · exact (ih hmem).trans (le_max_right _ _)
  exact Int.lt_add_one_of_le (key db.node ht)

theorem newNodeId_pos (db : Db) : 0 < newNodeId db := by
  unfold newNodeId
  have key : ∀ l : List TupId, 0 ≤ l.foldr max 0 := by
    intro l
    induction l with
    | nil => exact le_rfl
    | cons i l ih => exact ih.trans (le_max_right _ _)
  exact Int.lt_add_one_of_le (key _)

/-- A new node in a directory that is there, made for one that is there. -/
theorem Db.Sound.nodeInsert (h : db.Sound) {row tent : TupEntry} (hdt : HasNode db row.dt)
    (hsrc : 0 ≤ row.srcid → HasNode db row.srcid)
    (hrun : tupDbNodeInsertTentDisplay db row = some (db', tent)) : db'.Sound ∧ HasNode db' tent.tupid := by
  unfold tupDbNodeInsertTentDisplay at hrun
  split at hrun
  · cases hrun
  next hsel =>
  have hnode : db'.node = db.node ++ [{ row with tupid := newNodeId db }] ∧
      (∀ style, db'.links style = db.links style) ∧ tent = { row with tupid := newNodeId db } := by
    cases hrun
    refine ⟨?_, ?_, rfl⟩
    · split <;> rfl
    · intro style
      split <;> cases style <;> rfl
  obtain ⟨hnode, hlinks, rfl⟩ := hnode
  have hmono : ∀ k, HasNode db k → HasNode db' k := by
    intro k hk
    obtain ⟨t, ht, rfl⟩ := hasNode_iff.1 hk
    exact hasNode_iff.2 ⟨t, hnode ▸ List.mem_append_left _ ht, rfl⟩
  have hlt : ∀ k, HasNode db k → k < newNodeId db := by
    intro k hk
    obtain ⟨t, ht, rfl⟩ := hasNode_iff.1 hk
    exact lt_newNodeId db ht
  have hmem : ∀ t ∈ db'.node, t ∈ db.node ∨ t = { row with tupid := newNodeId db } := by
    intro t ht
    rw [hnode, List.mem_append, List.mem_singleton] at ht
    exact ht
  refine ⟨⟨⟨⟨?_, ?_⟩, ?_⟩, ⟨?_, ?_, ?_⟩, ?_⟩, ?_⟩
  · intro t ht
    rcases hmem t ht with ht | rfl
    · exact (h.referential.dir t ht).imp_right (hmono _)
    · exact .inr (hmono _ hdt)
  · intro style l hl
    obtain ⟨hfrom, hto⟩ := h.referential.links style l (hlinks style ▸ hl)
    exact ⟨hmono _ hfrom, hmono _ hto⟩
  · intro t ht hs
    rcases hmem t ht with ht | rfl
    · exact hmono _ (h.referential.srcid t ht hs)
    · exact hmono _ (hsrc hs)
  · rw [hnode, List.map_append, List.nodup_append]
    refine ⟨h.tree.nodup, List.nodup_singleton _, ?_⟩
    rintro a ha b hb rfl
    obtain ⟨t, ht, rfl⟩ := List.mem_map.1 ha
    exact absurd (List.mem_singleton.1 hb) (lt_newNodeId db ht).ne
  · -- the name was free
    have hfree : ∀ s ∈ db.node, s.dt = row.dt → s.name ≠ row.name := by
      intro s hs hsdt hsname
      apply hsel
      unfold tupDbSelectTent
      rw [List.find?_isSome]
      exact ⟨s, hs, by simp [hsdt, hsname]⟩
    intro s hs t ht hst hname
    rcases hmem s hs with hs | rfl
    · rcases hmem t ht with ht | rfl
      · exact h.tree.names s hs t ht hst hname
      · exact absurd hname (hfree s hs hst)
    · rcases hmem t ht with ht | rfl
      · exact absurd hname.symm (hfree t ht hst.symm)
      · rfl
  · obtain ⟨depth, hd⟩ := h.tree.depth
    refine ⟨fun k => if k = newNodeId db then depth row.dt + 1 else depth k, fun t ht => ?_⟩
    have hold : ∀ k, HasNode db k → k ≠ newNodeId db := fun k hk => (hlt k hk).ne
    rcases hmem t ht with ht | rfl
    · have hdtne : t.dt ≠ newNodeId db := by
        rcases h.referential.dir t ht with ⟨-, hz⟩ | hn
        · rw [hz]
          exact (newNodeId_pos db).ne
        · exact hold _ hn
      dsimp only
      rw [if_neg hdtne, if_neg (lt_newNodeId db ht).ne]
      exact hd t ht
    · dsimp only
      rw [if_neg (hold _ hdt), if_pos rfl]
      omega
  · intro t ht
    rcases hmem t ht with ht | rfl
    · exact h.pos t ht
    · exact newNodeId_pos db
  · exact hasNode_iff.2 ⟨_, hnode ▸ List.mem_append_right _ (List.mem_singleton_self _), rfl⟩

end

/-! ### Creating and changing nodes -/

section

variable {db db' : Db} {i j : TupId} {tent row : TupEntry} {fuel : ℕ}

theorem shrinks_setMtime (db : Db) (i : TupId) (mtime : Int × Int) :
    Shrinks db (tupDbSetMtime db i mtime) :=
  .updateNode (fun _ => ⟨rfl, rfl, rfl⟩) fun hr t ht _ => hr.srcid t ht

theorem shrinks_setFlags (db : Db) (i : TupId) (flags : Text) :
    Shrinks db (tupDbSetFlags db i flags) :=
  .updateNode (fun _ => ⟨rfl, rfl, rfl⟩) fun hr t ht _ => hr.srcid t ht

theorem unlinkGhost_spec {type : NodeType} (h : unlinkGhost db i type = some db') :
    Shrinks db db' ∧ ∀ k, HasNode db' k ↔ HasNode db k := by
  unfold unlinkGhost at h
  split at h
  · cases h
    exact ⟨.of_keepsRows (.setFlags _ _), fun _ => .rfl⟩
  · have hflag : KeepsRows db (tupDbModifyCmdsByInput (tupDbSetDependentDirFlags db i) i) :=
      (KeepsRows.setFlags db _).trans (.setFlags _ _)
    obtain ⟨m, hk, rfl⟩ := tupDbDeleteLinks_rows h
    refine ⟨(Shrinks.of_keepsRows (hflag.trans hk)).trans (.deleteTableLinks m i), fun k => ?_⟩
    exact (hflag.trans hk).hasNode k
  · cases h
    exact ⟨.refl _, fun _ => .rfl⟩

theorem shrinks_upgradeGhost {type : NodeType} {srcid : TupId} {b : Bool}
    (hsrc : 0 ≤ srcid → HasNode db srcid)
    (h : upgradeGhost db tent type srcid = some (db', i, b)) : Shrinks db db' := by
  obtain ⟨m, hm, h⟩ := Option.bind_eq_some_iff.1 h
  obtain ⟨hunlink, hnode⟩ := unlinkGhost_spec hm
  cases h
  have hset : Shrinks m (if type ≠ .ghost then
      tupDbSetSrcid (tupDbSetType (m.addModify tent.tupid) tent.tupid type) tent.tupid srcid else m) := by
    split
    · refine ((Shrinks.of_keepsRows (.setFlags m _)).trans (.setType _ _ type)).trans
        (.setSrcid _ _ fun hpos => ?_)
      exact hasNode_setType.2 ((hnode srcid).2 (hsrc hpos))
    · exact .refl m
  exact (hunlink.trans hset).trans (.of_keepsRows (.of_eq rfl rfl rfl))

theorem shrinks_refreshNode {b : Bool} (hname : tent.name = row.name)
    (hsrc : 0 ≤ row.srcid → HasNode db row.srcid)
    (h : refreshNode db tent row = some (db', i, b)) : Shrinks db db' := by
  unfold refreshNode respellNode at h
  dsimp only at h
  rw [if_neg (by simp [hname]), Option.bind_eq_bind, Option.bind_some] at h
  split at h
  · cases h
  · cases h
    have hset : Shrinks db (if row.srcid ≠ -1 ∧ tent.srcid ≠ row.srcid then
        tupDbSetSrcid db tent.tupid row.srcid else db) := .ite (.setSrcid _ _ hsrc) (.refl db)
    exact hset.trans (.ite (shrinks_setFlags _ _ _) (.refl _))

/-- A node that has to give way to one of another type. -/
def GivesWay (tent row : TupEntry) : Prop :=
  tent.type ≠ .ghost ∧ tent.type ≠ row.type ∧ ¬ (tent.type = .generatedDir ∧ row.type = .dir)

/-- What a new node is made for does not give way to it. -/
def CreateOk (db : Db) (row : TupEntry) : Prop :=
  ∀ t, tupDbSelectTent db row.dt row.name = some t → GivesWay t row → 0 ≤ row.srcid →
    ¬ UnderNode db row.srcid t.tupid

theorem Db.Sound.createNode (h : db.Sound) {b : Bool} (hdt : HasNode db row.dt)
    (hsrc : 0 ≤ row.srcid → HasNode db row.srcid) (hok : CreateOk db row)
    (hrun : tupDbCreateNodePartDisplay fuel db row = some (db', i, b)) : db'.Sound := by
  induction fuel generalizing db with
  | zero => cases hrun
  | succ fuel ih =>
    unfold tupDbCreateNodePartDisplay at hrun
    split at hrun
    · next t hsel =>
      obtain ⟨hmem, htdt, htname⟩ := mem_of_tupDbSelectTent hsel
      split at hrun
      · exact h.shrinks (shrinks_upgradeGhost hsrc hrun)
      next hghost =>
      split at hrun
      · next hgive =>
        obtain ⟨⟨m, b'⟩, hdel, hrun⟩ := Option.bind_eq_some_iff.1 hrun
        have hrow := h.tree.tupEntryAdd_of_mem hmem
        have hrem := removing_tupDelIdType fuel _ _ _ _ _ hdel
        have hmdt : HasNode m row.dt := by
          apply hasNode_of_delIdType h.tree hrow hdel hdt
          rw [← htdt]
          exact not_below_of_mem h.tree hmem
        refine ih (h.shrinks hrem) hmdt (fun hpos => ?_) (fun t' hsel' _ hpos hb => ?_) hrun
        · exact hasNode_of_delIdType h.tree hrow hdel (hsrc hpos) (hok t hsel ⟨hghost, hgive⟩ hpos)
        · -- the node of that name is still the same
          obtain ⟨hmem', ht'dt, ht'name⟩ := mem_of_tupDbSelectTent hsel'
          obtain ⟨s, hs, hsid, hsdt, hsname⟩ := hrem.place t' hmem'
          have hst := h.tree.names s hs t hmem (by rw [hsdt, ht'dt, htdt])
            (by rw [hsname, ht'name, htname])
          rw [← hsid, hst] at hb
          exact hok t hsel ⟨hghost, hgive⟩ hpos (hrem.below hb)
      · exact h.shrinks (shrinks_refreshNode htname hsrc hrun)
    · obtain ⟨⟨m, t⟩, hins, hrun⟩ := Option.bind_eq_some_iff.1 hrun
      obtain ⟨⟨m', t'⟩, hrow, hins⟩ := Option.bind_eq_some_iff.1 hins
      cases hrun
      cases hins
      exact (h.nodeInsert hdt hsrc hrow).1.shrinks (.of_keepsRows (.ite (.setFlags _ _) (.refl _)))

theorem shrinks_makeDirsNormal {dt : TupId} (h : makeDirsNormal fuel db dt = some db') :
    Shrinks db db' := by
  induction fuel generalizing db dt with
  | zero => cases h
  | succ fuel ih =>
    unfold makeDirsNormal at h
    split at h
    · cases h
      exact .refl _
    · split at h
      · have hroot : Shrinks (tupDbSetType db dt .dir) { tupDbSetType db dt .dir with
            ghostRoot := tentTreeRemove (tupDbSetType db dt .dir).ghostRoot dt } :=
          .of_keepsRows (.of_eq rfl rfl rfl)
        exact ((Shrinks.setType db dt .dir).trans hroot).trans (ih h)
      · split at h
        · cases h
          exact .of_keepsRows (.ite (.setFlags _ _) (.refl _))
        · cases h
          exact .refl _

theorem Db.Sound.createNameFile (h : db.Sound) {dt : TupId} {file : Text} {mtime : Int × Int}
    (hdt : HasNode db dt) (hrun : createNameFile fuel db dt file mtime = some (db', tent)) :
    db'.Sound := by
  obtain ⟨⟨m, t⟩, hins, hrun⟩ := Option.bind_eq_some_iff.1 hrun
  obtain ⟨m', hdirs, hrun⟩ := Option.bind_eq_some_iff.1 hrun
  cases hrun
  have hneg : ¬ (0 : TupId) ≤ -1 := by decide
  have hm := (@Db.Sound.nodeInsert db _ h _ _ hdt (fun hpos => absurd hpos hneg) hins).1
  exact hm.shrinks ((Shrinks.of_keepsRows (.setFlags m _)).trans (shrinks_makeDirsNormal hdirs))

theorem shrinks_ghostToFile (h : ghostToFile db tent = some db') : Shrinks db db' := by
  obtain ⟨parent, -, h⟩ := Option.bind_eq_some_iff.1 h
  cases h
  have hroot : Shrinks db { db with ghostRoot := tentTreeRemove db.ghostRoot tent.tupid } :=
    .of_keepsRows (.of_eq rfl rfl rfl)
  refine ((hroot.trans (.setType _ tent.tupid .file)).trans ?_).trans (.of_keepsRows (.setFlags _ _))
  exact .of_keepsRows (.ite (.setFlags _ _) (.refl _))

theorem Db.Sound.becomeFile (h : db.Sound) {dt : TupId} {file : Text} {mtime : Int × Int} {new : Bool}
    (hsel : tupDbSelectTent db dt file = some tent) (hdt : HasNode db dt)
    (hrun : becomeFile fuel db tent dt file mtime = some (db', i, new)) : db'.Sound := by
  obtain ⟨hmem, htdt, -⟩ := mem_of_tupDbSelectTent hsel
  unfold Metatup.becomeFile at hrun
  split at hrun
  · cases hrun
    exact h
  · cases hrun
    exact h
  · obtain ⟨m, hm, hrun⟩ := Option.bind_eq_some_iff.1 hrun
    cases hrun
    exact h.shrinks (shrinks_ghostToFile hm)
  · obtain ⟨⟨m, b⟩, hdel, hrun⟩ := Option.bind_eq_some_iff.1 hrun
    have hm := h.shrinks (removing_tupDelIdType fuel _ _ _ _ _ hdel)
    dsimp only at hrun
    split at hrun
    · obtain ⟨⟨m', t⟩, hcreate, hrun⟩ := Option.bind_eq_some_iff.1 hrun
      cases hrun
      have hrow := h.tree.tupEntryAdd_of_mem hmem
      refine hm.createNameFile (hasNode_of_delIdType h.tree hrow hdel hdt ?_) hcreate
      rw [← htdt]
      exact not_below_of_mem h.tree hmem
    · split at hrun
      · obtain ⟨m', hm', hrun⟩ := Option.bind_eq_some_iff.1 hrun
        cases hrun
        exact hm.shrinks (shrinks_ghostToFile hm')
      · cases hrun

theorem shrinks_fileChanged {mtime : Int × Int} {changed : Bool}
    (h : fileChanged db i mtime changed = some db') : Shrinks db db' := by
  unfold fileChanged at h
  split at h
  · cases h
    exact .refl _
  · obtain ⟨t, -, h⟩ := Option.bind_eq_some_iff.1 h
    cases h
    have hfirst : KeepsRows db (if t.type = .generated then (tupDbModifyCmdsByOutput db i).1 else db) :=
      .ite (.setFlags _ _) (.refl _)
    have hflags := (hfirst.trans (.addModify _ i)).trans (.setDependentFlags _ i)
    exact (Shrinks.of_keepsRows hflags).trans (.ite (shrinks_setMtime _ _ _) (.refl _))

theorem keepsRows_fileModified (db : Db) (i dt : TupId) (file : Text) :
    KeepsRows db (fileModified db i dt file) := by
  unfold fileModified
  have hfirst : KeepsRows db (if file = tupConfig then db.addConfig i else db) :=
    .ite (.setFlags _ _) (.refl _)
  exact hfirst.trans (.ite (.setFlags _ _) (.refl _))

theorem Db.Sound.fileModMtime (h : db.Sound) {dt : TupId} {file : Text} {mtime : Int × Int}
    {force ignoreGenerated b : Bool}
    (hrun : tupFileModMtime fuel db dt file mtime force ignoreGenerated = some (db', i, b)) :
    db'.Sound := by
  obtain ⟨dtent, hdtent, hrun⟩ := Option.bind_eq_some_iff.1 hrun
  have hdt := hasNode_of_tupEntryAdd hdtent
  split at hrun
  · obtain ⟨⟨m, t⟩, hcreate, hrun⟩ := Option.bind_eq_some_iff.1 hrun
    cases hrun
    exact (h.createNameFile hdt hcreate).shrinks (.of_keepsRows (keepsRows_fileModified _ _ _ _))
  · next t hsel =>
    obtain ⟨⟨m, k, new⟩, hbecome, hrun⟩ := Option.bind_eq_some_iff.1 hrun
    obtain ⟨m', hchanged, hrun⟩ := Option.bind_eq_some_iff.1 hrun
    cases hrun
    refine (h.becomeFile hsel hdt hbecome).shrinks ((shrinks_fileChanged hchanged).trans ?_)
    exact .of_keepsRows (.ite (keepsRows_fileModified _ _ _ _) (.refl _))

end

/-! ### Moving a node -/

/-- What has been done to the ghosts below `i` when they are gone; `db₀` has the rows that there were
at first. -/
structure GhostsBelowGone (db₀ : Db) (i : TupId) (db db' : Db) : Prop where
  node : ∀ t ∈ db'.node, t ∈ db.node
  nodup : (db.node.map TupEntry.tupid).Nodup → (db'.node.map TupEntry.tupid).Nodup
  keeps : ∀ t ∈ db.node, t ∉ db'.node → t.tupid ≠ i ∧ UnderNode db₀ t.tupid i
  joined : db.Joined → db'.Joined
  links : ∀ style, ∀ l ∈ db'.links style, l ∈ db.links style

theorem Unlinked.mono {db db' : Db} {i : TupId} (h : Unlinked db i)
    (hsub : ∀ style, ∀ l ∈ db'.links style, l ∈ db.links style) : Unlinked db' i :=
  fun style l hl => h style l (hsub style l hl)

section

variable {db₀ db db' m : Db} {i : TupId} {fuel : ℕ}

theorem GhostsBelowGone.of_unlink (db₀ db : Db) (i : TupId) {m : Db} (hk : KeepsRows db m) :
    GhostsBelowGone db₀ i db (deleteTableLinks m i) where
  node t ht := by
    have ht : t ∈ m.node := ht
    rwa [hk.node] at ht
  nodup hnd := by
    show (m.node.map TupEntry.tupid).Nodup
    rwa [hk.node]
  keeps t ht hnot := by
    have hnot : t ∉ m.node := hnot
    rw [hk.node] at hnot
    exact absurd ht hnot
  joined h := (h.of_keepsRows hk).deleteTableLinks i
  links style l hl := by
    rw [← hk.links style]
    cases style
    · exact (List.mem_filter.1 hl).1
    · exact (List.mem_filter.1 hl).1

theorem GhostsBelowGone.trans {db₁ : Db} (h : GhostsBelowGone db₀ i db m)
    (h₁ : GhostsBelowGone db₀ i m db₁) : GhostsBelowGone db₀ i db db₁ where
  node t ht := h.node t (h₁.node t ht)
  nodup hnd := h₁.nodup (h.nodup hnd)
  keeps t ht hnot := by
    by_cases hm : t ∈ m.node
    · exact h₁.keeps t hm hnot
    · exact h.keeps t ht hm
  joined hj := h₁.joined (h.joined hj)
  links style l hl := h.links style l (h₁.links style l hl)

/-- A child is taken away with everything below it. -/
theorem GhostsBelowGone.child {he : TupEntry} (htree : db₀.Tree) (hmem : he ∈ db₀.node)
    (hdt : he.dt = i) (h : GhostsBelowGone db₀ he.tupid db m)
    (hun : Unlinked m he.tupid) (hempty : ∀ t ∈ m.node, t.dt ≠ he.tupid) :
    GhostsBelowGone db₀ i db (deleteNode m he.tupid) where
  node t ht := h.node t (List.mem_filter.1 ht).1
  nodup hnd := (map_tupid_deleteNode m he.tupid).nodup (h.nodup hnd)
  keeps t ht hnot := by
    have hstep : UnderNode db₀ he.tupid i := .single ⟨he, hmem, rfl, hdt⟩
    have hbelow : UnderNode db₀ t.tupid he.tupid := by
      by_cases hm : t ∈ m.node
      · have hid : t.tupid = he.tupid := by
          by_contra hne
          exact hnot (List.mem_filter.2 ⟨hm, by simpa using hne⟩)
        rw [hid]
        exact .refl
      · exact (h.keeps t ht hm).2
    refine ⟨?_, hbelow.trans hstep⟩
    rintro hti
    rw [hti, ← hdt] at hbelow
    exact not_below_of_mem htree hmem hbelow
  joined hj := (h.joined hj).deleteNode (fun t ht _ => hempty t ht) hun
  links style l hl := by
    have heq : (deleteNode m he.tupid).links style = m.links style := by
      cases style <;> rfl
    exact h.links style l (heq ▸ hl)

/-- The ghosts below a node go, each after its links and after what is below it. -/
theorem recurseDeleteGhostTree_below {modify : Bool} (htree : db₀.Tree)
    (hrows : ∀ t ∈ db.node, t ∈ db₀.node)
    (hrun : recurseDeleteGhostTree fuel db i modify = some db') :
    GhostsBelowGone db₀ i db db' ∧ Unlinked db' i ∧ ∀ t ∈ db'.node, t.dt ≠ i := by
  induction fuel generalizing db i db' with
  | zero => cases hrun
  | succ fuel ih =>
    -- the entries that are left are the ones still to be visited
    have key : ∀ (l : List TupEntry), (∀ he ∈ l, he ∈ db₀.node ∧ he.dt = i) → ∀ m m' : Db,
        (∀ t ∈ m.node, t ∈ db₀.node) → (∀ t ∈ m.node, t.dt = i → t ∈ l) →
        l.foldlM (fun db he => if he.type ≠ .ghost then none
          else do
            let db ← recurseDeleteGhostTree fuel db he.tupid modify
            return deleteNode db he.tupid) m = some m' →
        GhostsBelowGone db₀ i m m' ∧ ∀ t ∈ m'.node, t.dt ≠ i := by
      intro l
      induction l with
      | nil =>
        intro _ m m' _ hleft hm
        cases hm
        refine ⟨⟨fun _ ht => ht, id, fun t ht hnot => absurd ht hnot, id, fun _ _ hl => hl⟩, ?_⟩
        exact fun t ht hdt => absurd (hleft t ht hdt) List.not_mem_nil
      | cons he l ihl =>
        intro hl m m' hm hleft hfold
        rw [List.foldlM_cons, Option.bind_eq_bind, Option.bind_eq_some_iff] at hfold
        obtain ⟨m₁, hm₁, hfold⟩ := hfold
        obtain ⟨hmem, hdt⟩ := hl he List.mem_cons_self
        split at hm₁
        · cases hm₁
        obtain ⟨m₂, hm₂, hm₁⟩ := Option.bind_eq_some_iff.1 hm₁
        cases hm₁
        obtain ⟨hgone, hun, hempty⟩ := ih hm hm₂
        have hchild := hgone.child htree hmem hdt hun hempty
        have hrest := ihl (fun t ht => hl t (List.mem_cons_of_mem _ ht)) _ _
          (fun t ht => hm t (hchild.node t ht)) (fun t ht htdt => ?_) hfold
        · exact ⟨hchild.trans hrest.1, hrest.2⟩
        · have hne : t ≠ he := by
            rintro rfl
            simpa using (List.mem_filter.1 ht).2
          exact (List.mem_cons.1 (hleft t (hchild.node t ht) htdt)).resolve_left hne
    obtain ⟨m, hm, hrun⟩ := Option.bind_eq_some_iff.1 hrun
    obtain ⟨m₀, hk, rfl⟩ := tupDbDeleteLinks_rows hm
    have hk' : KeepsRows db m₀ := by
      refine KeepsRows.trans ?_ hk
      split
      · exact .setFlags _ _
      · exact .refl _
    have hunlink := GhostsBelowGone.of_unlink db₀ db i hk'
    have hentries : ∀ he ∈ getDirEntries db i, he ∈ db₀.node ∧ he.dt = i := by
      intro he hhe
      obtain ⟨hmem, hdt⟩ := mem_getDirEntries.1 hhe
      exact ⟨hrows he hmem, hdt⟩
    obtain ⟨hloop, hempty⟩ := key _ hentries _ _ (fun t ht => hrows t (hunlink.node t ht))
      (fun t ht hdt => mem_getDirEntries.2 ⟨hunlink.node t ht, hdt⟩) hrun
    exact ⟨hunlink.trans hloop, (unlinked_deleteTableLinks m₀ i).mono hloop.links, hempty⟩

/-- Every node that was made for one of the ghosts that are in the way is one of them. -/
def MoveOk (db : Db) (newName : Text) (newDt : TupId) : Prop :=
  ∀ g, tupDbSelectTent db newDt newName = some g → g.type = .ghost →
    ∀ t ∈ db.node, 0 ≤ t.srcid → UnderNode db t.srcid g.tupid → UnderNode db t.tupid g.tupid

/-- What is left of the nodes is not below the node that has gone. -/
theorem not_below_of_gone (h : db.Sound) (hrows : ∀ t ∈ db'.node, t ∈ db.node) (hjoined : db'.Joined)
    {g : TupEntry} (hg : g ∈ db.node) (hgone : ∀ t ∈ db'.node, t.tupid ≠ g.tupid) {a : TupId}
    (hb : UnderNode db a g.tupid) : ∀ t ∈ db'.node, t.tupid ≠ a := by
  induction hb using Relation.ReflTransGen.head_induction_on with
  | refl => exact hgone
  | head hstep hrest ih =>
    rintro t ht rfl
    obtain ⟨s, hs, hid, rfl⟩ := hstep
    rw [h.tree.eq_of_tupid hs (hrows t ht) hid] at ih hrest
    rcases hjoined.dir t ht with ⟨-, hzero⟩ | hnode
    · -- nothing is above the top
      rw [hzero] at hrest
      rcases Relation.ReflTransGen.cases_head hrest with heq | ⟨b, ⟨u, hu, huid, -⟩, -⟩
      · exact absurd heq (h.pos g hg).ne
      · exact absurd huid (h.pos u hu).ne'
    · obtain ⟨u, hu, huid⟩ := hasNode_iff.1 hnode
      exact ih u hu huid

/-- The ghost that is in the way goes with everything below it. -/
theorem makeRoom_ghost (h : db.Sound) {newName : Text} {newDt : TupId} {g : TupEntry}
    (hsel : tupDbSelectTent db newDt newName = some g) (hrun : makeRoom fuel db newName newDt = some db') :
    g.type = .ghost ∧ (db'.node.map TupEntry.tupid).Nodup ∧ db'.Joined ∧
      (∀ t ∈ db'.node, t ∈ db.node) ∧ ∀ t ∈ db.node, t ∈ db'.node ↔ ¬ UnderNode db t.tupid g.tupid := by
  obtain ⟨hg, -, -⟩ := mem_of_tupDbSelectTent hsel
  unfold makeRoom at hrun
  rw [hsel] at hrun
  dsimp only at hrun
  split at hrun
  · next hghost =>
    obtain ⟨m, hm, rfl⟩ := Option.map_eq_some_iff.1 hrun
    obtain ⟨hgone, hun, hempty⟩ := recurseDeleteGhostTree_below h.tree (fun _ ht => ht) hm
    have hrows : ∀ t ∈ (deleteNode m g.tupid).node, t ∈ db.node :=
      fun t ht => hgone.node t (List.mem_filter.1 ht).1
    have hjoined : (deleteNode m g.tupid).Joined :=
      (hgone.joined h.referential.toJoined).deleteNode (fun t ht _ => hempty t ht) hun
    refine ⟨hghost, (map_tupid_deleteNode m g.tupid).nodup (hgone.nodup h.tree.nodup), hjoined, hrows,
      fun t ht => ⟨fun ht' hb => ?_, fun hb => ?_⟩⟩
    · refine not_below_of_gone h hrows hjoined hg (fun s hs => ?_) hb t ht' rfl
      simpa using (List.mem_filter.1 hs).2
    · have hne : t.tupid ≠ g.tupid := by
        intro heq
        rw [heq] at hb
        exact hb .refl
      refine List.mem_filter.2 ⟨?_, by simpa using hne⟩
      by_contra hnot
      exact hb (hgone.keeps t ht hnot).2
  · cases hrun

theorem Db.Sound.makeRoom (h : db.Sound) {newName : Text} {newDt : TupId}
    (hok : MoveOk db newName newDt) (hrun : makeRoom fuel db newName newDt = some db') :
    db'.Sound ∧ (∀ t ∈ db'.node, t ∈ db.node) ∧ (HasNode db newDt → HasNode db' newDt) := by
  cases hsel : tupDbSelectTent db newDt newName with
  | none =>
    unfold Metatup.makeRoom at hrun
    rw [hsel] at hrun
    cases hrun
    exact ⟨h, fun _ ht => ht, id⟩
  | some g =>
    obtain ⟨hg, hgdt, -⟩ := mem_of_tupDbSelectTent hsel
    obtain ⟨hghost, hnd, hjoined, hrows, hstays⟩ := makeRoom_ghost h hsel hrun
    have hhas : ∀ k, HasNode db k → ¬ UnderNode db k g.tupid → HasNode db' k := by
      intro k hk hb
      obtain ⟨t, ht, rfl⟩ := hasNode_iff.1 hk
      exact hasNode_iff.2 ⟨t, (hstays t ht).2 hb, rfl⟩
    refine ⟨⟨⟨hjoined, fun t ht hs => ?_⟩, ?_, fun t ht => h.pos t (hrows t ht)⟩, hrows, fun hdt => ?_⟩
    · apply hhas _ (h.referential.srcid t (hrows t ht) hs)
      intro hb
      exact (hstays t (hrows t ht)).1 ht (hok g hsel hghost t (hrows t ht) hs hb)
    · exact tree_of_place h.tree hnd fun t ht => ⟨t, hrows t ht, rfl, rfl, rfl⟩
    · apply hhas _ hdt
      rw [← hgdt]
      exact not_below_of_mem h.tree hg

/-- The depths after the node `i` has been moved into a directory that is not below it. -/
theorem depth_of_move (h : db.Tree) {newDt : TupId} (hnot : ¬ UnderNode db newDt i) :
    ∃ depth : TupId → ℕ, (∀ t ∈ db.node, t.tupid ≠ i → depth t.dt < depth t.tupid) ∧
      depth newDt < depth i := by
  classical
  obtain ⟨depth, hd⟩ := h.depth
  refine ⟨fun k => if UnderNode db k i then depth newDt + 1 + depth k else depth k, fun t ht hne => ?_, ?_⟩
  · have hiff : UnderNode db t.tupid i ↔ UnderNode db t.dt i := by
      constructor
      · intro hb
        rcases Relation.ReflTransGen.cases_head hb with heq | ⟨b, ⟨s, hs, hid, rfl⟩, hb⟩
        · exact absurd heq hne
        · rwa [h.eq_of_tupid hs ht hid] at hb
      · exact fun hb => .head ⟨t, ht, rfl, rfl⟩ hb
    have hlt := hd t ht
    simp only [hiff]
    split
    · omega
    · exact hlt
  · dsimp only
    rw [if_neg hnot, if_pos .refl]
    omega

theorem Db.Sound.setName (h : db.Sound) {newName : Text} {newDt : TupId} (hdt : HasNode db newDt)
    (hnot : ¬ UnderNode db newDt i) (hrun : tupDbSetName db i newName newDt = some db') : db'.Sound := by
  obtain ⟨tent, -, hrun⟩ := Option.bind_eq_some_iff.1 hrun
  split at hrun
  · cases hrun
    exact h
  split at hrun
  · cases hrun
  next hfree =>
  cases hrun
  have hfree : ∀ t ∈ db.node, ¬ (t.dt = newDt ∧ t.name = newName) := by
    intro t ht hname
    apply hfree
    unfold tupDbSelectTent
    rw [List.find?_isSome]
    exact ⟨t, ht, by simpa using hname⟩
  have hrow : ∀ t' ∈ (db.updateNode i fun t => { t with name := newName, dt := newDt }).node,
      ∃ t ∈ db.node, t'.tupid = t.tupid ∧
        ((t.tupid = i ∧ t'.dt = newDt ∧ t'.name = newName) ∨
          (t.tupid ≠ i ∧ t'.dt = t.dt ∧ t'.name = t.name)) := by
    intro t' ht'
    obtain ⟨t, ht, rfl⟩ := List.mem_map.1 ht'
    refine ⟨t, ht, ?_⟩
    split
    · next heq => exact ⟨rfl, .inl ⟨heq, rfl, rfl⟩⟩
    · next hne => exact ⟨rfl, .inr ⟨hne, rfl, rfl⟩⟩
  have hnd : ((db.updateNode i fun t => { t with name := newName, dt := newDt }).node.map
      TupEntry.tupid).Nodup := by
    have hids : _ = db.node.map TupEntry.tupid :=
      map_tupid_updateNode db i fun t : TupEntry =>
        (rfl : { t with name := newName, dt := newDt }.tupid = t.tupid)
    rw [hids]
    exact h.tree.nodup
  refine ⟨?_, ⟨hnd, fun s' hs' t' ht' hst hname => ?_, ?_⟩, fun t' ht' => ?_⟩
  · exact h.referential.updateNode (fun _ => rfl) (fun _ _ _ => .inr hdt)
      fun t ht _ => h.referential.srcid t ht
  · obtain ⟨s, hs, hsid, hs'⟩ := hrow s' hs'
    obtain ⟨t, ht, htid, ht'⟩ := hrow t' ht'
    have heq : s.tupid = t.tupid := by
      rcases hs' with ⟨hsi, hsdt, hsname⟩ | ⟨-, hsdt, hsname⟩ <;>
        rcases ht' with ⟨hti, htdt, htname⟩ | ⟨-, htdt, htname⟩
      · rw [hsi, hti]
      · exact absurd ⟨by rw [← htdt, ← hst, hsdt], by rw [← htname, ← hname, hsname]⟩ (hfree t ht)
      · exact absurd ⟨by rw [← hsdt, hst, htdt], by rw [← hsname, hname, htname]⟩ (hfree s hs)
      · rw [h.tree.names s hs t ht (by rw [← hsdt, hst, htdt]) (by rw [← hsname, hname, htname])]
    exact List.inj_on_of_nodup_map hnd ‹_› ‹_› (by rw [hsid, htid, heq])
  · obtain ⟨depth, hd, hi⟩ := depth_of_move h.tree hnot
    refine ⟨depth, fun t' ht' => ?_⟩
    obtain ⟨t, ht, htid, ⟨hti, htdt, -⟩ | ⟨hne, htdt, -⟩⟩ := hrow t' ht'
    · rw [htdt, htid, hti]
      exact hi
    · rw [htdt, htid]
      exact hd t ht hne
  · obtain ⟨t, ht, htid, -⟩ := hrow t' ht'
    exact htid ▸ h.pos t ht

theorem keepsRows_recurseModifyDir {dt : TupId} (hrun : recurseModifyDir fuel db dt = some db') :
    KeepsRows db db' := by
  induction fuel generalizing db dt db' with
  | zero => cases hrun
  | succ fuel ih =>
    refine (KeepsRows.addCreate db dt).trans (KeepsRows.foldlM (fun m he m' hstep => ?_) hrun)
    split at hstep
    · exact ih hstep
    · cases hstep
      have hfirst : KeepsRows m (if he.type = .generated ∨ he.type = .file then m.addModify he.tupid
          else m) := .ite (.addModify _ _) (.refl _)
      exact (hfirst.trans (.setDependentFlags _ _)).trans (.maybeAddConfigList _ _)

theorem Db.Sound.changeNode (h : db.Sound) {newName : Text} {newDt : TupId} (hdt : HasNode db newDt)
    (hnot : ¬ UnderNode db newDt i) (hok : MoveOk db newName newDt)
    (hrun : tupDbChangeNode fuel db i newName newDt = some db') : db'.Sound := by
  obtain ⟨db₁, hroom, hrun⟩ := Option.bind_eq_some_iff.1 hrun
  obtain ⟨db₂, hname, hrun⟩ := Option.bind_eq_some_iff.1 hrun
  obtain ⟨h₁, hrows, hdt₁⟩ := h.makeRoom hok hroom
  have hnot₁ : ¬ UnderNode db₁ newDt i := by
    intro hb
    apply hnot
    refine Relation.ReflTransGen.mono ?_ _ _ hb
    rintro a b ⟨t, ht, hid, hdt⟩
    exact ⟨t, hrows t ht, hid, hdt⟩
  exact (h₁.setName (hdt₁ hdt) hnot₁ hname).shrinks (.of_keepsRows (keepsRows_recurseModifyDir hrun))

theorem srcids_setName {newName : Text} {newDt : TupId}
    (hrun : tupDbSetName db i newName newDt = some db') :
    db'.node.map (fun t => (t.tupid, t.srcid)) = db.node.map fun t => (t.tupid, t.srcid) := by
  obtain ⟨tent, -, hrun⟩ := Option.bind_eq_some_iff.1 hrun
  split at hrun
  · cases hrun
    rfl
  split at hrun
  · cases hrun
  cases hrun
  unfold Db.updateNode
  rw [List.map_map]
  apply List.map_congr_left
  intro t _
  dsimp only [Function.comp]
  split <;> rfl

/-- After a move the references are right only if nothing was referred to that had to make room. -/
theorem moveOk_of_referential (h : db.Sound) {newName : Text} {newDt : TupId}
    (hrun : tupDbChangeNode fuel db i newName newDt = some db') (href : db'.Referential) :
    MoveOk db newName newDt := by
  obtain ⟨db₁, hroom, hrun⟩ := Option.bind_eq_some_iff.1 hrun
  obtain ⟨db₂, hname, hrun⟩ := Option.bind_eq_some_iff.1 hrun
  intro g hsel _ t ht hs hb
  obtain ⟨-, -, -, hrows, hstays⟩ := makeRoom_ghost h hsel hroom
  have hpairs : db'.node.map (fun t => (t.tupid, t.srcid)) =
      db₁.node.map fun t => (t.tupid, t.srcid) := by
    rw [(keepsRows_recurseModifyDir hrun).node, srcids_setName hname]
  by_contra hnot
  -- the row stays, and what it refers to goes
  have hmem : (t.tupid, t.srcid) ∈ db'.node.map fun t => (t.tupid, t.srcid) := by
    rw [hpairs]
    exact List.mem_map.2 ⟨t, (hstays t ht).2 hnot, rfl⟩
  obtain ⟨t', ht', heq⟩ := List.mem_map.1 hmem
  have hsrcid : t'.srcid = t.srcid := congrArg Prod.snd heq
  obtain ⟨s, hs', hid⟩ := hasNode_iff.1 (href.srcid t' ht' (hsrcid ▸ hs))
  have hsmem : (s.tupid, s.srcid) ∈ db₁.node.map fun t => (t.tupid, t.srcid) := by
    rw [← hpairs]
    exact List.mem_map.2 ⟨s, hs', rfl⟩
  obtain ⟨s₁, hs₁, heq₁⟩ := List.mem_map.1 hsmem
  have hid₁ : s₁.tupid = t.srcid := (congrArg Prod.fst heq₁).trans (hid.trans hsrcid)
  rw [← hid₁] at hb
  exact (hstays s₁ (hrows s₁ hs₁)).1 hs₁ hb

end

/-! ### Runs -/

/-- What happens to the nodes and the links between them. -/
inductive NodeEvent
  | call (c : NodeCall)
  | delIdTypeAs (i : TupId) (type : NodeType) (force : Bool)
  | deleteNameFile (i : TupId)
  | link (a b : TupId) (style : LinkType)
  | unlink (a b : TupId) (style : LinkType)
  | reclaim

/-- The database after an event; the fuel bounds the depth of the directories. -/
def NodeEvent.run (exclusionDt : TupId) (fuel : ℕ) (db : Db) : NodeEvent → Option Db
  | .call c => c.run fuel db
  | .delIdTypeAs i type force => (tupDelIdTypeAs fuel db i type force).map Prod.fst
  | .deleteNameFile i => Metatup.deleteNameFile db i
  | .link a b style => linkInsert db a b style
  | .unlink a b style => some (linkRemove db a b style)
  | .reclaim => reclaimGhosts exclusionDt fuel db

/-- What the callers see to: the entries that they pass have been read from the database, and a
directory is not moved below itself. -/
def NodeEvent.Proper (db : Db) : NodeEvent → Prop
  | .call (.createNode row) => HasNode db row.dt ∧ (0 ≤ row.srcid → HasNode db row.srcid)
  | .call (.changeNode i _ newDt) => HasNode db newDt ∧ ¬ UnderNode db newDt i
  | .link a b _ => HasNode db a ∧ HasNode db b
  | _ => True

/-- Nothing that is referred to from elsewhere goes with the ghosts that a directory is moved onto, and
no new node is made for one that gives way to it. -/
def NodeEvent.Keeps (db : Db) : NodeEvent → Prop
  | .call (.createNode row) => CreateOk db row
  | .call (.changeNode _ newName newDt) => MoveOk db newName newDt
  | _ => True

/-- A successful event. -/
def NodeStep (exclusionDt : TupId) (db : Db) (e : NodeEvent) (db' : Db) : Prop :=
  e.Proper db ∧ ∃ fuel, e.run exclusionDt fuel db = some db'

/-- The database of an empty project. Source: `db.c` `tup_db_create` -/
def emptyProject : Db where
  node := [{ tupid := dotDt, dt := 0, type := .dir, name := ['.'] }]

theorem emptyProject_sound : emptyProject.Sound where
  referential :=
    { dir := fun t ht => .inl (by rw [List.mem_singleton.1 ht]; exact ⟨rfl, rfl⟩)
      links := fun style l hl => by cases style <;> cases hl
      srcid := fun t ht hs => by
        rw [List.mem_singleton.1 ht] at hs
        exact absurd hs (by decide) }
  tree :=
    { nodup := List.nodup_singleton _
      names := fun s hs t ht _ _ => (List.mem_singleton.1 hs).trans (List.mem_singleton.1 ht).symm
      depth := ⟨Int.toNat, fun t ht => by rw [List.mem_singleton.1 ht]; decide⟩ }
  pos t ht := by
    rw [List.mem_singleton.1 ht]
    decide

section

variable {exclusionDt : TupId} {db db' : Db} {e : NodeEvent}

/-- Joining two nodes, or parting them. -/
theorem Db.Sound.setLinks (h : db.Sound) (style : LinkType) {links : List Link}
    (hlinks : ∀ l ∈ links, HasNode db l.fromId ∧ HasNode db l.toId) :
    (db.setLinks style links).Sound := by
  have hnode : (db.setLinks style links).node = db.node := by
    cases style <;> rfl
  have hhas : ∀ k, HasNode (db.setLinks style links) k ↔ HasNode db k := by
    intro k
    rw [hasNode_iff, hasNode_iff, hnode]
  refine ⟨⟨⟨fun t ht => ?_, fun style' l hl => ?_⟩, fun t ht hs => ?_⟩, ?_, ?_⟩
  · rw [hhas]
    exact h.referential.dir t (hnode ▸ ht)
  · rw [hhas, hhas]
    cases style <;> cases style'
    · exact hlinks l hl
    · exact h.referential.links .sticky l hl
    · exact h.referential.links .normal l hl
    · exact hlinks l hl
  · rw [hhas]
    exact h.referential.srcid t (hnode ▸ ht) hs
  · exact tree_of_place h.tree (hnode ▸ h.tree.nodup) fun t ht => ⟨t, hnode ▸ ht, rfl, rfl, rfl⟩
  · rw [hnode]
    exact h.pos

/-- One event. -/
theorem NodeStep.sound (hstep : NodeStep exclusionDt db e db') (hok : e.Keeps db) (h : db.Sound) :
    db'.Sound := by
  obtain ⟨hproper, fuel, hrun⟩ := hstep
  cases e with
  | call c =>
    cases c with
    | delIdType i force =>
      obtain ⟨⟨m, b⟩, hdel, rfl⟩ := Option.map_eq_some_iff.1 hrun
      exact h.shrinks (removing_tupDelIdType fuel _ _ _ _ _ hdel)
    | fileMissing i =>
      obtain ⟨t, -, hmissing⟩ := Option.bind_eq_some_iff.1 hrun
      obtain ⟨⟨m, b⟩, hdel, rfl⟩ := Option.map_eq_some_iff.1 hmissing
      exact h.shrinks (removing_tupDelIdType fuel _ _ _ _ _ hdel)
    | fileModMtime dt file mtime force ignoreGenerated =>
      obtain ⟨⟨m, i, b⟩, hmod, rfl⟩ := Option.map_eq_some_iff.1 hrun
      exact h.fileModMtime hmod
    | createNode row =>
      obtain ⟨⟨m, i, b⟩, hcreate, rfl⟩ := Option.map_eq_some_iff.1 hrun
      exact h.createNode hproper.1 hproper.2 hok hcreate
    | changeNode i newName newDt => exact h.changeNode hproper.1 hproper.2 hok hrun
  | delIdTypeAs i type force =>
    obtain ⟨⟨m, b⟩, hdel, rfl⟩ := Option.map_eq_some_iff.1 hrun
    exact h.shrinks (shrinks_tupDelIdTypeAs (removing_tupDelIdType fuel) hdel)
  | deleteNameFile i => exact h.shrinks (shrinks_deleteNameFile hrun)
  | link a b style =>
    have hrun : linkInsert db a b style = some db' := hrun
    unfold linkInsert at hrun
    split at hrun
    · cases hrun
    split at hrun
    · cases hrun
    split at hrun
    · cases hrun
    cases hrun
    apply h.setLinks
    intro l hl
    rcases List.mem_cons.1 hl with rfl | hl
    · exact hproper
    · exact h.referential.links style l hl
  | unlink a b style =>
    cases hrun
    exact h.setLinks style fun l hl => h.referential.links style l (List.mem_filter.1 hl).1
  | reclaim => exact h.shrinks (shrinks_reclaimLoop hrun)

theorem sound_of_run {tr : List NodeEvent}
    (hrun : Run (fun db e db' => NodeStep exclusionDt db e db' ∧ e.Keeps db) emptyProject tr db) :
    db.Sound := by
  apply hrun.invariant (I := fun _ m => m.Sound) emptyProject_sound
  intro _ _ _ _ _ h hstep
  exact hstep.1.sound hstep.2 h

/-- In every run of an empty project whose events meet the condition, every reference leads to a node in
every state. -/
theorem references_kept {tr : List NodeEvent}
    (hrun : Run (fun db e db' => NodeStep exclusionDt db e db' ∧ e.Keeps db) emptyProject tr db) :
    db.Referential := (sound_of_run hrun).referential

end

/-! ### Two moves -/

/-- A row at the top. -/
def topRow (type : NodeType) (name : Text) (srcid : TupId) : TupEntry :=
  { tupid := 0, dt := dotDt, type := type, name := name, srcid := srcid }

theorem step_create {db db' : Db} (row : TupEntry) (hdt : HasNode db row.dt)
    (hsrc : 0 ≤ row.srcid → HasNode db row.srcid)
    (hrun : (tupDbCreateNodePartDisplay 1 db row).map Prod.fst = some db') :
    NodeStep 0 db (.call (.createNode row)) db' := ⟨⟨hdt, hsrc⟩, 1, hrun⟩

theorem step_move {db db' : Db} (i : TupId) (name : Text) (hdt : HasNode db dotDt)
    (hnot : ¬ UnderNode db dotDt i) (hrun : tupDbChangeNode 2 db i name dotDt = some db') :
    NodeStep 0 db (.call (.changeNode i name dotDt)) db' := ⟨⟨hdt, hnot⟩, 2, hrun⟩

/-- The top is not below a node at the top. -/
theorem Db.Sound.not_below_top {db : Db} (h : db.Sound) {i : TupId}
    (hi : ∃ t ∈ db.node, t.tupid = i ∧ t.dt = dotDt) : ¬ UnderNode db dotDt i := by
  obtain ⟨t, ht, rfl, hdt⟩ := hi
  rw [← hdt]
  exact not_below_of_mem h.tree ht

/-- The directories `P` and `X`, and a file that has been generated for `P`. -/
def twoDirs : Db where
  node := [{ tupid := 1, dt := 0, type := .dir, name := ['.'] },
    { tupid := 2, dt := 1, type := .dir, name := ['P'] },
    { tupid := 3, dt := 1, type := .dir, name := ['X'] },
    { tupid := 4, dt := 1, type := .generated, srcid := 2, name := ['f'] }]
  flags := { create := {3, 2} }

theorem twoDirs_run : ∃ tr,
    Run (fun db e db' => NodeStep 0 db e db' ∧ e.Keeps db) emptyProject tr twoDirs := by
  have hfree : ∀ (db : Db) (row : TupEntry), tupDbSelectTent db row.dt row.name = none →
      CreateOk db row := by
    intro db row hnone t hsel
    rw [hnone] at hsel
    cases hsel
  have hneg : (0 : TupId) ≤ -1 → ∀ p : Prop, p := fun h => absurd h (by decide)
  exact ⟨_, .snoc (.snoc (.snoc .nil
    ⟨step_create (topRow .dir ['P'] (-1)) rfl (fun h => hneg h _) rfl, hfree _ _ rfl⟩)
    ⟨step_create (topRow .dir ['X'] (-1)) rfl (fun h => hneg h _) rfl, hfree _ _ rfl⟩)
    ⟨step_create (topRow .generated ['f'] 2) rfl (fun _ => rfl) rfl, hfree _ _ rfl⟩⟩

/-- When `P` is moved instead, the references stay. -/
theorem references_kept_move : ∃ tr db, Run (NodeStep 0) emptyProject tr db ∧
    (tupEntryAdd db 2).map TupEntry.name = some ['Q'] ∧ db.Referential := by
  obtain ⟨tr, hrun⟩ := twoDirs_run
  have hnot : ¬ UnderNode twoDirs dotDt 2 :=
    (sound_of_run hrun).not_below_top ⟨_, .tail _ List.mem_cons_self, rfl, rfl⟩
  obtain ⟨db, hmove, hname⟩ : ∃ db, tupDbChangeNode 2 twoDirs 2 ['Q'] dotDt = some db ∧
      (tupEntryAdd db 2).map TupEntry.name = some ['Q'] := ⟨_, rfl, rfl⟩
  have hok : MoveOk twoDirs ['Q'] dotDt := by
    intro g hsel
    cases hsel
  have hrun' := hrun.snoc ⟨step_move 2 ['Q'] rfl hnot hmove, hok⟩
  exact ⟨_, db, hrun'.mono fun _ _ _ hstep => hstep.1, hname, references_kept hrun'⟩

/-- `P` is removed, and `X` takes its place before the generated file has been dealt with. -/
theorem moved_onto_srcid : ¬ ∀ (exclusionDt : TupId) (tr : List NodeEvent) (db : Db),
    Run (NodeStep exclusionDt) emptyProject tr db → db.Referential := by
  intro h
  obtain ⟨tr, hrun⟩ := twoDirs_run
  obtain ⟨db₁, hremove, hnode⟩ : ∃ db₁, (NodeEvent.call (.delIdType 2 false)).run 0 2 twoDirs = some db₁ ∧
      ∃ db₂, tupDbChangeNode 2 db₁ 3 ['P'] dotDt = some db₂ ∧ HasNode db₁ dotDt ∧
      (∃ t ∈ db₁.node, t.tupid = 3 ∧ t.dt = dotDt) ∧
      ∃ t ∈ db₂.node, 0 ≤ t.srcid ∧ (tupEntryAdd db₂ t.srcid).isSome = false := by
    refine ⟨_, rfl, _, rfl, rfl, ?_, ?_⟩
    · decide
    · decide
  obtain ⟨db₂, hmove, hdt, htop, t, ht, hpos, hnone⟩ := hnode
  have hstep : NodeStep 0 twoDirs (.call (.delIdType 2 false)) db₁ := ⟨trivial, 2, hremove⟩
  have hsound₁ := hstep.sound trivial (sound_of_run hrun)
  have hrun' := hrun.mono fun _ _ _ hstep => hstep.1
  have hlast := (hrun'.snoc hstep).snoc (step_move 3 ['P'] hdt (hsound₁.not_below_top htop) hmove)
  have hhas : (tupEntryAdd db₂ t.srcid).isSome = true := (h 0 _ _ hlast).srcid t ht hpos
  rw [hnone] at hhas
  cases hhas

end Metatup
