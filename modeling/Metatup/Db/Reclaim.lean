import Mathlib.Algebra.GroupWithZero.Nat
import Mathlib.Algebra.Order.BigOperators.Group.List
import Mathlib.Algebra.Order.Group.Nat
import Metatup.Db.FileNode

/-!
# Reclaiming ghosts

What is left of the nodes that were put into `ghost_root`. The loop takes them out one by one and
removes those that nothing needs; each removal puts the neighbours of the node back, since they may
have lost the last thing that needed them.

* `Reclaimable`: the database can do without a node.
* `Queues`: what a function does that only puts nodes into `ghost_root`.
* `Withdrawn`: what the removal of one node does.
* `ReclaimInv`: what holds before each turn of the loop.
* `reclaimGhosts_spec`: the loop ends, it removes nothing that is needed, and it leaves nothing that
  is not.
-/

namespace Metatup

/-- The types that `tup_entry_add_ghost_tree` puts into a tree. -/
def GhostKind (t : TupEntry) : Prop := t.type = .ghost ∨ t.type = .group ∨ t.type = .generatedDir

instance (t : TupEntry) : Decidable (GhostKind t) := by
  unfold GhostKind
  infer_instance

/-- No node is in this one, and none was made for it. -/
def Childless (db : Db) (i : TupId) : Prop := ∀ s ∈ db.node, s.dt ≠ i ∧ s.srcid ≠ i

/-- The database can do without a node. An exclusion is what a command links to, a group is what links
lead to and from, and the other ghosts are what something is in, was made for or depends on. A
`tup.config` stays, since it holds the variables. -/
def Reclaimable (exclusionDt : TupId) (db : Db) (t : TupEntry) : Prop :=
  t.name ≠ tupConfig ∧
    if t.dt = exclusionDt then Childless db t.tupid ∧ ∀ l ∈ db.normalLink, l.toId ≠ t.tupid
    else if t.type = .group then Unlinked db t.tupid
    else Childless db t.tupid ∧ ∀ l ∈ db.normalLink, l.fromId ≠ t.tupid

/-- The id of a node that belongs into `ghost_root`. -/
def GhostAt (db : Db) (j : TupId) : Prop := ∃ t ∈ db.node, t.tupid = j ∧ GhostKind t

/-- A removal of the node may leave `j` unneeded, by what the node was made for or linked to. -/
def Near (db : Db) (t : TupEntry) (j : TupId) : Prop :=
  (0 ≤ t.srcid ∧ j = t.srcid) ∨ NormalAdj db j t.tupid ∨ NormalAdj db t.tupid j

theorem childless_iff {db : Db} {i : TupId} : Childless db i ↔ nodeHasGhosts db i = false := by
  unfold Childless nodeHasGhosts
  rw [List.any_eq_false]
  apply forall₂_congr
  intro s _
  simp

theorem tupEntryAddGhostTree_ite (db : Db) (t : TupEntry) : tupEntryAddGhostTree db t =
    if GhostKind t then { db with ghostRoot := tentTreeAddDup db.ghostRoot t.tupid } else db := by
  unfold tupEntryAddGhostTree
  split
  · next htype => exact (if_pos (show GhostKind t from .inl htype)).symm
  · next htype => exact (if_pos (show GhostKind t from .inr (.inl htype))).symm
  · next htype => exact (if_pos (show GhostKind t from .inr (.inr htype))).symm
  · next h₁ h₂ h₃ => exact (if_neg (show ¬ GhostKind t from not_or.2 ⟨h₁, not_or.2 ⟨h₂, h₃⟩⟩)).symm

theorem KeepsRows.childless {db db' : Db} (h : KeepsRows db db') (i : TupId) :
    Childless db' i ↔ Childless db i := by
  unfold Childless
  rw [h.node]

theorem KeepsRows.ghostAt {db db' : Db} (h : KeepsRows db db') (j : TupId) :
    GhostAt db' j ↔ GhostAt db j := by
  unfold GhostAt
  rw [h.node]

/-! ### Putting nodes into `ghost_root` -/

/-- The function puts the ghosts of `S` into `ghost_root`, and is about nothing but that and flags. -/
structure Queues (S : TupId → Prop) (db db' : Db) : Prop extends KeepsRows db db' where
  root : ∀ j, j ∈ db'.ghostRoot ↔ j ∈ db.ghostRoot ∨ GhostAt db j ∧ S j

namespace Queues

variable {db db₁ db₂ : Db} {S T : TupId → Prop}

theorem of_keepsRows (h : KeepsRows db db₁) (hroot : db₁.ghostRoot = db.ghostRoot) :
    Queues (fun _ => False) db db₁ where
  toKeepsRows := h
  root j := by simp [hroot]

theorem trans (h : Queues S db db₁) (h₁ : Queues T db₁ db₂) : Queues (fun j => S j ∨ T j) db db₂ where
  toKeepsRows := h.toKeepsRows.trans h₁.toKeepsRows
  root j := by
    rw [h₁.root, h.root, h.ghostAt, or_assoc, and_or_left]

theorem congr (h : Queues S db db₁) (hST : ∀ j, S j ↔ T j) : Queues T db db₁ where
  toKeepsRows := h.toKeepsRows
  root j := by rw [h.root, hST]

theorem addGhostTree (hnd : (db.node.map TupEntry.tupid).Nodup) {t : TupEntry} (ht : t ∈ db.node) :
    Queues (· = t.tupid) db (tupEntryAddGhostTree db t) where
  toKeepsRows := .addGhostTree db t
  root j := by
    have hkind : GhostAt db j ∧ j = t.tupid ↔ j = t.tupid ∧ GhostKind t := by
      constructor
      · rintro ⟨⟨u, hu, hid, hkind⟩, hj⟩
        obtain rfl := List.inj_on_of_nodup_map hnd hu ht (hid.trans hj)
        exact ⟨hj, hkind⟩
      · rintro ⟨hj, hkind⟩
        exact ⟨⟨t, ht, hj.symm, hkind⟩, hj⟩
    rw [hkind, tupEntryAddGhostTree_ite]
    split
    · next hghost => simp [hghost, or_comm]
    · next hghost => simp [hghost]

theorem loop {l : List TupEntry} (hnd : (db.node.map TupEntry.tupid).Nodup)
    (hl : ∀ t ∈ l, t ∈ db.node) :
    Queues (· ∈ l.map TupEntry.tupid) db (l.foldl tupEntryAddGhostTree db) := by
  induction l generalizing db with
  | nil => exact (of_keepsRows (.refl db) rfl).congr (by simp)
  | cons t l ih =>
    have hfirst := addGhostTree hnd (hl t List.mem_cons_self)
    have hrest := @ih (tupEntryAddGhostTree db t) (hfirst.node ▸ hnd)
      fun u hu => hfirst.node ▸ hl u (List.mem_cons_of_mem t hu)
    exact (hfirst.trans hrest).congr (by simp)

/-- The loop that looks the nodes up first. -/
theorem lookups {ids : List TupId} (hnd : (db.node.map TupEntry.tupid).Nodup)
    (hids : ∀ j ∈ ids, HasNode db j) : ∃ db', ids.foldlM (fun db j => do
      let tent ← tupEntryAdd db j
      return tupEntryAddGhostTree db tent) db = some db' ∧ Queues (· ∈ ids) db db' := by
  induction ids generalizing db with
  | nil => exact ⟨db, rfl, (of_keepsRows (.refl db) rfl).congr (by simp)⟩
  | cons j ids ih =>
    obtain ⟨t, ht⟩ := tupEntryAdd_of_hasNode (hids j List.mem_cons_self)
    obtain ⟨hmem, rfl⟩ := mem_node_of_tupEntryAdd ht
    have hfirst := addGhostTree hnd hmem
    obtain ⟨db', hrun, hrest⟩ := @ih (tupEntryAddGhostTree db t) (hfirst.node ▸ hnd)
      fun k hk => (hfirst.hasNode k).2 (hids k (List.mem_cons_of_mem _ hk))
    refine ⟨db', ?_, (hfirst.trans hrest).congr (by simp)⟩
    rw [List.foldlM_cons, ht]
    exact hrun

end Queues

section

variable {db : Db} {i : TupId} {t : TupEntry}

theorem addGhostChecks_queues (h : db.Joined) (hnd : (db.node.map TupEntry.tupid).Nodup) (i : TupId) :
    ∃ db', addGhostChecks db i = some db' ∧ Queues (NormalAdj db · i) db db' := by
  have hids : ∀ j ∈ (db.normalLink.filter (·.toId = i)).map Link.fromId, HasNode db j := by
    intro j hj
    obtain ⟨l, hl, rfl⟩ := List.mem_map.1 hj
    exact (h.links .normal l (List.mem_filter.1 hl).1).1
  obtain ⟨db', hrun, hq⟩ := Queues.lookups hnd hids
  refine ⟨db', hrun, hq.congr fun j => ?_⟩
  simp only [List.mem_map, List.mem_filter, decide_eq_true_eq]
  constructor
  · rintro ⟨l, ⟨hl, rfl⟩, rfl⟩
    exact hl
  · exact fun hl => ⟨⟨j, i⟩, ⟨hl, rfl⟩, rfl⟩

theorem getOutputs_ids (h : db.Joined) (i : TupId) : ∃ tents, getOutputs db i = some tents ∧
    (∀ t ∈ tents, t ∈ db.node) ∧ ∀ j, j ∈ tents.map TupEntry.tupid ↔ NormalAdj db i j := by
  have key : ∀ l : List TupId, (∀ j ∈ l, HasNode db j) → ∃ tents,
      l.mapM (tupEntryAdd db) = some tents ∧ (∀ t ∈ tents, t ∈ db.node) ∧
        tents.map TupEntry.tupid = l := by
    intro l hl
    induction l with
    | nil => exact ⟨[], rfl, by simp, rfl⟩
    | cons j l ih =>
      obtain ⟨t, ht⟩ := tupEntryAdd_of_hasNode (hl j List.mem_cons_self)
      obtain ⟨hmem, hid⟩ := mem_node_of_tupEntryAdd ht
      obtain ⟨tents, htents, hnode, hmap⟩ := ih fun k hk => hl k (List.mem_cons_of_mem j hk)
      refine ⟨t :: tents, ?_, ?_, ?_⟩
      · rw [List.mapM_cons, ht, htents]
        rfl
      · rintro u (- | ⟨-, hu⟩)
        · exact hmem
        · exact hnode u hu
      · rw [List.map_cons, hid, hmap]
  obtain ⟨tents, hrun, hnode, hmap⟩ := key ((db.normalLink.filter (·.fromId = i)).map Link.toId) (by
    intro j hj
    obtain ⟨l, hl, rfl⟩ := List.mem_map.1 hj
    exact (h.links .normal l (List.mem_filter.1 hl).1).2)
  refine ⟨tents, hrun, hnode, fun j => ?_⟩
  rw [hmap]
  simp only [List.mem_map, List.mem_filter, decide_eq_true_eq]
  constructor
  · rintro ⟨l, ⟨hl, rfl⟩, rfl⟩
    exact hl
  · exact fun hl => ⟨⟨i, j⟩, ⟨hl, rfl⟩, rfl⟩

theorem addGroupAndExclusionChecks_queues (h : db.Joined) (hnd : (db.node.map TupEntry.tupid).Nodup)
    (i : TupId) :
    ∃ db', addGroupAndExclusionChecks db i = some db' ∧ Queues (NormalAdj db i) db db' := by
  obtain ⟨tents, hrun, hnode, hids⟩ := getOutputs_ids h i
  refine ⟨tents.foldl tupEntryAddGhostTree db, ?_, (Queues.loop hnd hnode).congr hids⟩
  unfold addGroupAndExclusionChecks
  rw [hrun]
  rfl

theorem flagGroupUsers_queues (hi : HasNode db i) :
    ∃ db', flagGroupUsers db i = some db' ∧ Queues (fun _ => False) db db' := by
  obtain ⟨t, ht⟩ := tupEntryAdd_of_hasNode hi
  unfold flagGroupUsers
  rw [ht, Option.bind_eq_bind, Option.bind_some]
  split
  · exact ⟨_, rfl, .of_keepsRows (.setFlags db _) rfl⟩
  · exact ⟨_, rfl, .of_keepsRows (.refl db) rfl⟩

/-- The links of a node go, and what they joined it to is checked. -/
theorem tupDbDeleteLinks_queues (h : db.Joined) (hnd : (db.node.map TupEntry.tupid).Nodup)
    (hi : HasNode db i) : ∃ m, tupDbDeleteLinks db i = some (deleteTableLinks m i) ∧
      Queues (fun j => NormalAdj db j i ∨ NormalAdj db i j) db m := by
  obtain ⟨db₁, h₁, hq₁⟩ := addGhostChecks_queues h hnd i
  have hnormal : db₁.normalLink = db.normalLink := hq₁.links .normal
  obtain ⟨db₂, h₂, hq₂⟩ := addGroupAndExclusionChecks_queues (h.of_keepsRows hq₁.toKeepsRows)
    (hq₁.node ▸ hnd) i
  obtain ⟨m, hm, hq⟩ := @flagGroupUsers_queues db₂ i
    ((hq₂.hasNode i).2 ((hq₁.hasNode i).2 hi))
  refine ⟨m, ?_, ((hq₁.trans hq₂).trans hq).congr fun j => ?_⟩
  · unfold tupDbDeleteLinks
    simp only [h₁, h₂, hm, Option.bind_eq_bind, Option.bind_some]
    rfl
  · unfold NormalAdj
    rw [hnormal, or_false]

theorem checkSrcGhost_queues (hnd : (db.node.map TupEntry.tupid).Nodup) {srcid : TupId}
    (hs : 0 ≤ srcid → HasNode db srcid) : ∃ db', checkSrcGhost db srcid = some db' ∧
      Queues (fun j => 0 ≤ srcid ∧ j = srcid) db db' := by
  unfold checkSrcGhost
  split
  · next hpos =>
    obtain ⟨t, ht⟩ := tupEntryAdd_of_hasNode (hs hpos)
    obtain ⟨hmem, rfl⟩ := mem_node_of_tupEntryAdd ht
    refine ⟨tupEntryAddGhostTree db t, ?_, (Queues.addGhostTree hnd hmem).congr fun j => ?_⟩
    · rw [ht]
      rfl
    · rw [and_iff_right hpos]
  · next hneg =>
    refine ⟨db, rfl, (Queues.of_keepsRows (.refl db) rfl).congr fun j => ?_⟩
    simp [hneg]

end

/-! ### Removing one node -/

/-- The rows when one node has become a ghost. -/
def ghosted (rows : List TupEntry) (i : TupId) : List TupEntry :=
  rows.map fun s => if s.tupid = i then { s with type := .ghost, srcid := -1 } else s

/-- What `delete_name_file` does to the node `t`: it goes with its links, or it becomes a ghost when
something is in it, and what it was joined to is put into `ghost_root`. -/
structure Withdrawn (db : Db) (t : TupEntry) (db' : Db) : Prop where
  links : ∀ style, db'.links style = withoutNode (db.links style) t.tupid
  gone : Childless db t.tupid → db'.node = db.node.filter (·.tupid ≠ t.tupid) ∧
    ∀ j, j ∈ db'.ghostRoot ↔ j ≠ t.tupid ∧ (j ∈ db.ghostRoot ∨ GhostAt db j ∧ (Near db t j ∨ j = t.dt))
  ghost : ¬ Childless db t.tupid → db'.node = ghosted db.node t.tupid ∧
    ∀ j, j ∈ db'.ghostRoot ↔ j ∈ db.ghostRoot ∨ GhostAt db j ∧ Near db t j

theorem ghosted_eq (db : Db) (i : TupId) :
    (tupDbSetSrcid (tupDbSetType db i .ghost) i (-1)).node = ghosted db.node i := by
  unfold tupDbSetSrcid tupDbSetType Db.updateNode ghosted
  rw [List.map_map]
  apply List.map_congr_left
  intro s _
  by_cases hs : s.tupid = i
  · simp [hs]
  · simp [hs]

section

variable {db m : Db} {t : TupEntry}

/-- The row of a node without links goes, or becomes that of a ghost. -/
theorem tupDbDeleteNode_struck (hnd : (db.node.map TupEntry.tupid).Nodup) (ht : t ∈ db.node)
    (hlook : tupEntryAdd db t.tupid = some t) (hghost : GhostKind t) (hdt : HasNode db t.dt)
    (hsrc : 0 ≤ t.srcid → HasNode db t.srcid) : ∃ db', tupDbDeleteNode db t.tupid = some db' ∧
      (∀ style, db'.links style = db.links style) ∧
      (Childless db t.tupid → db'.node = db.node.filter (·.tupid ≠ t.tupid) ∧
        ∀ j, j ∈ db'.ghostRoot ↔ j ≠ t.tupid ∧ (j ∈ db.ghostRoot ∨
          GhostAt db j ∧ ((0 ≤ t.srcid ∧ j = t.srcid) ∨ j = t.dt))) ∧
      (¬ Childless db t.tupid → db'.node = ghosted db.node t.tupid ∧
        ∀ j, j ∈ db'.ghostRoot ↔ j ∈ db.ghostRoot ∨
          GhostAt db j ∧ (0 ≤ t.srcid ∧ j = t.srcid)) := by
  obtain ⟨parent, hparent⟩ := tupEntryAdd_of_hasNode hdt
  obtain ⟨hpmem, hpid⟩ := mem_node_of_tupEntryAdd hparent
  obtain ⟨m, hm, hq⟩ := checkSrcGhost_queues hnd hsrc
  unfold tupDbDeleteNode
  simp only [hlook, hparent, hm, Option.bind_eq_bind, Option.bind_some]
  by_cases hchild : Childless db t.tupid
  · have hnone : nodeHasGhosts m t.tupid = false := childless_iff.1 ((hq.childless _).2 hchild)
    rw [hnone]
    refine ⟨_, rfl, fun style => ?_, fun _ => ⟨?_, fun j => ?_⟩, fun h => absurd hchild h⟩
    · rw [(KeepsRows.addGhostTree _ _).links style, ← hq.links style]
      cases style <;> rfl
    · rw [(KeepsRows.addGhostTree _ _).node, ← hq.node]
      rfl
    · have hne : t.dt ≠ t.tupid := (hchild t ht).1
      have hkind : GhostAt db t.dt ↔ GhostKind parent := by
        constructor
        · rintro ⟨u, hu, hid, hkind⟩
          rwa [← List.inj_on_of_nodup_map hnd hu hpmem (hid.trans hpid.symm)]
        · exact fun hkind => ⟨parent, hpmem, hpid, hkind⟩
      have hroot : j ∈ (deleteNode m t.tupid).ghostRoot ↔ j ≠ t.tupid ∧ j ∈ m.ghostRoot :=
        mem_tentTreeRemove
      rw [tupEntryAddGhostTree_ite]
      split
      · next hpkind =>
        simp only [mem_tentTreeAddDup, hroot, hq.root, hpid]
        constructor
        · rintro (rfl | ⟨hj, hold | ⟨hat, hsrcid⟩⟩)
          · exact ⟨hne, .inr ⟨hkind.2 hpkind, .inr rfl⟩⟩
          · exact ⟨hj, .inl hold⟩
          · exact ⟨hj, .inr ⟨hat, .inl hsrcid⟩⟩
        · rintro ⟨hj, hold | ⟨hat, hsrcid | rfl⟩⟩
          · exact .inr ⟨hj, .inl hold⟩
          · exact .inr ⟨hj, .inr ⟨hat, hsrcid⟩⟩
          · exact .inl rfl
      · next hpkind =>
        rw [hroot, hq.root]
        apply and_congr_right
        intro _
        constructor
        · rintro (hold | ⟨hat, hsrcid⟩)
          · exact .inl hold
          · exact .inr ⟨hat, .inl hsrcid⟩
        · rintro (hold | ⟨hat, hsrcid | rfl⟩)
          · exact .inl hold
          · exact .inr ⟨hat, hsrcid⟩
          · exact absurd (hkind.1 hat) hpkind
  · have hsome : nodeHasGhosts m t.tupid = true := by
      rw [← Bool.not_eq_false, ← childless_iff, hq.childless]
      exact hchild
    have hdir : ¬ t.type = .dir := by
      rintro hdir
      rcases hghost with h | h | h
      all_goals
        rw [hdir] at h
        cases h
    rw [hsome, if_neg hdir]
    refine ⟨_, rfl, fun style => ?_, fun h => absurd h hchild, fun _ => ⟨?_, hq.root⟩⟩
    · rw [← hq.links style]
      cases style <;> rfl
    · rw [ghosted_eq, hq.node]

/-- Source: `delete_name_file`, for a node of the types in `ghost_root`. -/
theorem deleteNameFile_struck (h : db.Referential) (hnd : (db.node.map TupEntry.tupid).Nodup)
    (ht : t ∈ db.node) (hghost : GhostKind t) (hdt : HasNode db t.dt) :
    ∃ db', deleteNameFile db t.tupid = some db' ∧ Withdrawn db t db' := by
  have hflags := KeepsRows.setFlags db (unflagAll db.flags t.tupid)
  have hi : HasNode db t.tupid := hasNode_iff.2 ⟨t, ht, rfl⟩
  obtain ⟨m, hm, hq⟩ := tupDbDeleteLinks_queues (h.toJoined.of_keepsRows hflags) hnd hi
  have hrows : KeepsRows db m := hflags.trans hq.toKeepsRows
  have hnode : (deleteTableLinks m t.tupid).node = db.node := hrows.node
  obtain ⟨u, hu⟩ := tupEntryAdd_of_hasNode hi
  obtain ⟨humem, huid⟩ := mem_node_of_tupEntryAdd hu
  obtain rfl := List.inj_on_of_nodup_map hnd humem ht huid
  have hlook : tupEntryAdd (deleteTableLinks m u.tupid) u.tupid = some u := by
    rw [tupEntryAdd, hnode]
    exact hu
  have hhas : ∀ j, HasNode db j → HasNode (deleteTableLinks m u.tupid) j := fun j hj =>
    (hrows.hasNode j).2 hj
  obtain ⟨db', hrun, hlinks, hgone, hleft⟩ := tupDbDeleteNode_struck (hnode ▸ hnd) (hnode ▸ ht) hlook
    hghost (hhas _ hdt) fun hs => hhas _ (h.srcid u ht hs)
  have hchild : Childless (deleteTableLinks m u.tupid) u.tupid ↔ Childless db u.tupid :=
    hrows.childless u.tupid
  have hat : ∀ j, GhostAt (deleteTableLinks m u.tupid) j ↔ GhostAt db j := hrows.ghostAt
  have hroot : ∀ j, j ∈ (deleteTableLinks m u.tupid).ghostRoot ↔ j ∈ db.ghostRoot ∨
      GhostAt db j ∧ (NormalAdj db j u.tupid ∨ NormalAdj db u.tupid j) := hq.root
  refine ⟨db', ?_, fun style => ?_, fun hc => ?_, fun hc => ?_⟩
  · unfold deleteNameFile
    rw [hm]
    exact hrun
  · rw [hlinks, ← hrows.links]
    cases style <;> rfl
  · obtain ⟨hrow, hmem⟩ := hgone (hchild.2 hc)
    refine ⟨hnode ▸ hrow, fun j => ?_⟩
    rw [hmem, hroot, hat]
    unfold Near
    tauto
  · obtain ⟨hrow, hmem⟩ := hleft (hchild.not.2 hc)
    refine ⟨hnode ▸ hrow, fun j => ?_⟩
    rw [hmem, hroot, hat]
    unfold Near
    tauto

end

/-! ### Databases with ghosts -/

/-- What holds of a database whose ghosts are to be reclaimed. The rows have ids and refer to rows, the
top and the directory of the exclusions are no ghosts, a sticky link leads to a command, and
`ghost_root` holds ghosts, groups and generated directories. -/
structure GhostsOk (exclusionDt : TupId) (db : Db) : Prop where
  nodup : (db.node.map TupEntry.tupid).Nodup
  pos : ∀ t ∈ db.node, 0 < t.tupid
  referential : db.Referential
  dirs : ∀ t ∈ db.node, t.tupid = dotDt ∨ t.tupid = exclusionDt → ¬ GhostKind t
  sticky : ∀ l ∈ db.stickyLink, ∀ t ∈ db.node, t.tupid = l.toId → t.type = .cmd
  root : ∀ j ∈ db.ghostRoot, GhostAt db j

theorem mem_ghosted {rows : List TupEntry} {i : TupId} {u : TupEntry} : u ∈ ghosted rows i ↔
    ∃ s ∈ rows, (s.tupid ≠ i ∧ u = s) ∨ (s.tupid = i ∧ u = { s with type := .ghost, srcid := -1 }) := by
  unfold ghosted
  rw [List.mem_map]
  apply exists_congr
  intro s
  apply and_congr_right
  intro _
  by_cases hs : s.tupid = i
  · simp [hs, eq_comm]
  · simp [hs, eq_comm]

theorem map_tupid_ghosted (rows : List TupEntry) (i : TupId) :
    (ghosted rows i).map TupEntry.tupid = rows.map TupEntry.tupid := by
  unfold ghosted
  rw [List.map_map]
  apply List.map_congr_left
  intro s _
  by_cases hs : s.tupid = i
  · simp [hs]
  · simp [hs]

theorem GhostKind.group_iff {t : TupEntry} (h : GhostKind t) :
    t.type = .group ↔ ¬ (t.type = .ghost ∨ t.type = .generatedDir) := by
  constructor
  · rintro hgroup
    rw [hgroup]
    decide
  · intro hnot
    rcases h with h | h | h
    · exact absurd (.inl h) hnot
    · exact h
    · exact absurd (.inr h) hnot

theorem not_ghostKind_of_cmd {t : TupEntry} (h : t.type = .cmd) : ¬ GhostKind t := by
  unfold GhostKind
  rw [h]
  decide

namespace Withdrawn

variable {db db' : Db} {t u : TupEntry} {exclusionDt : TupId}

/-- The rows of the other nodes stay. -/
theorem kept (h : Withdrawn db t db') (hu : u ∈ db.node) (hne : u.tupid ≠ t.tupid) : u ∈ db'.node := by
  by_cases hc : Childless db t.tupid
  · rw [(h.gone hc).1]
    exact List.mem_filter.2 ⟨hu, by simpa using hne⟩
  · rw [(h.ghost hc).1]
    exact mem_ghosted.2 ⟨u, hu, .inl ⟨hne, rfl⟩⟩

theorem row (h : Withdrawn db t db') (hnd : (db.node.map TupEntry.tupid).Nodup) (ht : t ∈ db.node)
    (hu : u ∈ db'.node) : (u ∈ db.node ∧ u.tupid ≠ t.tupid) ∨
      (¬ Childless db t.tupid ∧ u = { t with type := .ghost, srcid := -1 }) := by
  by_cases hc : Childless db t.tupid
  · rw [(h.gone hc).1] at hu
    obtain ⟨hmem, hne⟩ := List.mem_filter.1 hu
    exact .inl ⟨hmem, by simpa using hne⟩
  · rw [(h.ghost hc).1] at hu
    obtain ⟨s, hs, ⟨hne, rfl⟩ | ⟨hid, rfl⟩⟩ := mem_ghosted.1 hu
    · exact .inl ⟨hs, hne⟩
    · obtain rfl := List.inj_on_of_nodup_map hnd hs ht hid
      exact .inr ⟨hc, rfl⟩

/-- A node that has become a ghost is still one of the nodes. -/
theorem mem_ghost (h : Withdrawn db t db') (ht : t ∈ db.node) (hc : ¬ Childless db t.tupid) :
    { t with type := .ghost, srcid := -1 } ∈ db'.node := by
  rw [(h.ghost hc).1]
  exact mem_ghosted.2 ⟨t, ht, .inr ⟨rfl, rfl⟩⟩

theorem ghostAt (h : Withdrawn db t db') (ht : t ∈ db.node) {j : TupId} (hj : GhostAt db j)
    (hne : j ≠ t.tupid ∨ ¬ Childless db t.tupid) : GhostAt db' j := by
  obtain ⟨u, hu, rfl, hkind⟩ := hj
  by_cases heq : u.tupid = t.tupid
  · have hc : ¬ Childless db t.tupid := hne.resolve_left fun h => h heq
    exact ⟨_, h.mem_ghost ht hc, heq.symm, .inl rfl⟩
  · exact ⟨u, h.kept hu heq, rfl, hkind⟩

theorem mem_links (h : Withdrawn db t db') (style : LinkType) {l : Link} :
    l ∈ db'.links style ↔ l ∈ db.links style ∧ l.fromId ≠ t.tupid ∧ l.toId ≠ t.tupid := by
  rw [h.links]
  unfold withoutNode
  rw [List.mem_filter]
  simp

theorem nodup (h : Withdrawn db t db') (hnd : (db.node.map TupEntry.tupid).Nodup) :
    (db'.node.map TupEntry.tupid).Nodup := by
  by_cases hc : Childless db t.tupid
  · rw [(h.gone hc).1]
    exact hnd.sublist (List.Sublist.map _ List.filter_sublist)
  · rwa [(h.ghost hc).1, map_tupid_ghosted]

/-- The rest of the database is as good as before. -/
theorem ghostsOk (h : Withdrawn db t db') (hok : GhostsOk exclusionDt db) (ht : t ∈ db.node)
    (hkind : GhostKind t) (href : db'.Referential) : GhostsOk exclusionDt db' where
  nodup := h.nodup hok.nodup
  pos u hu := by
    obtain ⟨hu, -⟩ | ⟨-, rfl⟩ := h.row hok.nodup ht hu
    · exact hok.pos u hu
    · exact hok.pos t ht
  referential := href
  dirs u hu hid := by
    obtain ⟨hu, -⟩ | ⟨-, rfl⟩ := h.row hok.nodup ht hu
    · exact hok.dirs u hu hid
    · exact absurd hkind (hok.dirs t ht hid)
  sticky l hl u hu hid := by
    obtain ⟨hl, -, hto⟩ := (h.mem_links .sticky).1 hl
    obtain ⟨hu, -⟩ | ⟨-, rfl⟩ := h.row hok.nodup ht hu
    · exact hok.sticky l hl u hu hid
    · exact absurd hid.symm hto
  root j hj := by
    by_cases hc : Childless db t.tupid
    · obtain ⟨hne, hold | ⟨hat, -⟩⟩ := ((h.gone hc).2 j).1 hj
      · exact h.ghostAt ht (hok.root j hold) (.inl hne)
      · exact h.ghostAt ht hat (.inl hne)
    · rcases ((h.ghost hc).2 j).1 hj with hold | ⟨hat, -⟩
      · exact h.ghostAt ht (hok.root j hold) (.inr hc)
      · exact h.ghostAt ht hat (.inr hc)

/-- What the others are still needed for, unless they are neighbours of the node. -/
theorem childless_of (h : Withdrawn db t db') (hok : GhostsOk exclusionDt db) (ht : t ∈ db.node)
    (hu : u ∈ db.node) (hnear : ¬ Near db t u.tupid) (hdt : u.tupid ≠ t.dt)
    (hc : Childless db' u.tupid) : Childless db u.tupid := by
  intro s hs
  by_cases hst : s.tupid = t.tupid
  · obtain rfl := List.inj_on_of_nodup_map hok.nodup hs ht hst
    refine ⟨hdt.symm, fun hsrc => hnear (.inl ⟨?_, hsrc.symm⟩)⟩
    rw [hsrc]
    exact (hok.pos u hu).le
  · exact hc s (h.kept hs hst)

/-- Only the neighbours of the node may have become unneeded. -/
theorem unneeded_of (h : Withdrawn db t db') (hok : GhostsOk exclusionDt db) (ht : t ∈ db.node)
    (hkind : GhostKind t) (hu : u ∈ db.node) (hukind : GhostKind u) (hne : u.tupid ≠ t.tupid)
    (hnear : ¬ Near db t u.tupid) (hdt : u.tupid ≠ t.dt) (hun : Reclaimable exclusionDt db' u) :
    Reclaimable exclusionDt db u := by
  have hlink : ∀ l ∈ db.normalLink, l.fromId = u.tupid ∨ l.toId = u.tupid → l ∈ db'.normalLink := by
    intro l hl hat
    apply (h.mem_links .normal).2 ⟨hl, ?_, ?_⟩
    · rintro hfrom
      have hto : l.toId = u.tupid := hat.resolve_left fun hu => hne (hu.symm.trans hfrom)
      exact hnear (.inr (.inr (show ⟨t.tupid, u.tupid⟩ ∈ db.normalLink from hfrom ▸ hto ▸ hl)))
    · rintro hto
      have hfrom : l.fromId = u.tupid := hat.resolve_right fun hu => hne (hu.symm.trans hto)
      exact hnear (.inr (.inl (show ⟨u.tupid, t.tupid⟩ ∈ db.normalLink from hfrom ▸ hto ▸ hl)))
  refine ⟨hun.1, ?_⟩
  have hneed := hun.2
  split
  · next hex =>
    rw [if_pos hex] at hneed
    exact ⟨h.childless_of hok ht hu hnear hdt hneed.1, fun l hl hto =>
      hneed.2 l (hlink l hl (.inr hto)) hto⟩
  · next hex =>
    rw [if_neg hex] at hneed
    split
    · next hgroup =>
      rw [if_pos hgroup] at hneed
      intro style l hl
      have hback : l.fromId = u.tupid ∨ l.toId = u.tupid → l ∈ db'.links style := by
        intro hat
        cases style with
        | normal => exact hlink l hl hat
        | sticky =>
          -- a sticky link ends in a command, which neither of the two is
          have hcmd : ∀ v ∈ db.node, GhostKind v → l.toId ≠ v.tupid := fun v hv hvkind hto =>
            not_ghostKind_of_cmd (hok.sticky l hl v hv hto.symm) hvkind
          have hfrom : l.fromId = u.tupid := hat.resolve_right (hcmd u hu hukind)
          exact (h.mem_links .sticky).2 ⟨hl, fun hft => hne (hfrom.symm.trans hft), hcmd t ht hkind⟩
      exact ⟨fun hfrom => (hneed style l (hback (.inl hfrom))).1 hfrom,
        fun hto => (hneed style l (hback (.inr hto))).2 hto⟩
    · next hgroup =>
      rw [if_neg hgroup] at hneed
      exact ⟨h.childless_of hok ht hu hnear hdt hneed.1, fun l hl hfrom =>
        hneed.2 l (hlink l hl (.inl hfrom)) hfrom⟩

end Withdrawn

/-! ### What may go -/

/-- What can have happened to the nodes: one after the other, a node that is not needed goes with its
links, and a group or an exclusion that something is in becomes a ghost without links. -/
inductive Reclaimed (exclusionDt : TupId) (db₀ : Db) : Db → Prop
  | start {db : Db} (h : KeepsRows db₀ db) : Reclaimed exclusionDt db₀ db
  | delete {db db' : Db} {t : TupEntry} (h : Reclaimed exclusionDt db₀ db) (ht : t ∈ db.node)
      (hkind : GhostKind t) (hun : Reclaimable exclusionDt db t) (hchild : Childless db t.tupid)
      (hnode : db'.node = db.node.filter (·.tupid ≠ t.tupid))
      (hlinks : ∀ style, db'.links style = withoutNode (db.links style) t.tupid) :
      Reclaimed exclusionDt db₀ db'
  | ghost {db db' : Db} {t : TupEntry} (h : Reclaimed exclusionDt db₀ db) (ht : t ∈ db.node)
      (hkind : GhostKind t) (hchild : ¬ Childless db t.tupid)
      (hun : (t.type = .group ∧ Unlinked db t.tupid) ∨
        (t.dt = exclusionDt ∧ ∀ l ∈ db.normalLink, l.toId ≠ t.tupid))
      (hnode : db'.node = ghosted db.node t.tupid)
      (hlinks : ∀ style, db'.links style = withoutNode (db.links style) t.tupid) :
      Reclaimed exclusionDt db₀ db'

theorem Reclaimed.keepsRows {exclusionDt : TupId} {db₀ db db' : Db} (h : Reclaimed exclusionDt db₀ db)
    (hk : KeepsRows db db') : Reclaimed exclusionDt db₀ db' := by
  cases h with
  | start h => exact .start (h.trans hk)
  | delete h ht hkind hun hchild hnode hlinks =>
    exact .delete h ht hkind hun hchild (hk.node.trans hnode) fun style =>
      (hk.links style).trans (hlinks style)
  | ghost h ht hkind hchild hun hnode hlinks =>
    exact .ghost h ht hkind hchild hun (hk.node.trans hnode) fun style =>
      (hk.links style).trans (hlinks style)

section

variable {exclusionDt : TupId} {db db' : Db} {t : TupEntry}

theorem ghostReclaimable_iff : ghostReclaimable exclusionDt db t = true ↔
    if t.dt = exclusionDt then ∀ l ∈ db.normalLink, l.toId ≠ t.tupid
    else if t.type = .ghost ∨ t.type = .generatedDir then
      Childless db t.tupid ∧ ∀ l ∈ db.normalLink, l.fromId ≠ t.tupid
    else (∀ l ∈ db.normalLink, l.fromId ≠ t.tupid ∧ l.toId ≠ t.tupid) ∧
      ∀ l ∈ db.stickyLink, l.fromId ≠ t.tupid := by
  unfold ghostReclaimable
  dsimp only
  split
  · simp
  · split
    · rw [childless_iff]
      simp
    · simp

/-- What is not needed is reclaimable. -/
theorem Reclaimable.reclaimable (h : Reclaimable exclusionDt db t) (hkind : GhostKind t) :
    (ghostReclaimable exclusionDt db t && t.name ≠ tupConfig) = true := by
  obtain ⟨hname, hneed⟩ := h
  rw [Bool.and_eq_true, decide_eq_true_eq, ghostReclaimable_iff]
  refine ⟨?_, hname⟩
  by_cases hex : t.dt = exclusionDt
  · rw [if_pos hex] at hneed ⊢
    exact hneed.2
  · rw [if_neg hex] at hneed ⊢
    by_cases hgroup : t.type = .group
    · rw [if_pos hgroup] at hneed
      rw [if_neg (hkind.group_iff.1 hgroup)]
      exact ⟨hneed .normal, fun l hl => (hneed .sticky l hl).1⟩
    · rw [if_neg hgroup] at hneed
      rwa [if_pos (not_not.1 (hkind.group_iff.not.1 hgroup))]

/-- What is reclaimable is not needed, or it is a group or an exclusion that something is in. -/
theorem Reclaimed.struck {db₀ : Db} (h : Reclaimed exclusionDt db₀ db)
    (hok : GhostsOk exclusionDt db) (ht : t ∈ db.node) (hkind : GhostKind t)
    (hrec : (ghostReclaimable exclusionDt db t && t.name ≠ tupConfig) = true)
    (hs : Withdrawn db t db') : Reclaimed exclusionDt db₀ db' := by
  rw [Bool.and_eq_true, decide_eq_true_eq, ghostReclaimable_iff] at hrec
  obtain ⟨hrec, hname⟩ := hrec
  have hunlinked : (∀ l ∈ db.normalLink, l.fromId ≠ t.tupid ∧ l.toId ≠ t.tupid) ∧
      (∀ l ∈ db.stickyLink, l.fromId ≠ t.tupid) → Unlinked db t.tupid := by
    rintro ⟨hnormal, hsticky⟩ style l hl
    cases style with
    | normal => exact hnormal l hl
    | sticky =>
      exact ⟨hsticky l hl, fun hto => not_ghostKind_of_cmd (hok.sticky l hl t ht hto.symm) hkind⟩
  by_cases hc : Childless db t.tupid
  · refine .delete h ht hkind ⟨hname, ?_⟩ hc (hs.gone hc).1 hs.links
    by_cases hex : t.dt = exclusionDt
    · rw [if_pos hex] at hrec ⊢
      exact ⟨hc, hrec⟩
    · rw [if_neg hex] at hrec ⊢
      by_cases hgroup : t.type = .group
      · rw [if_neg (hkind.group_iff.1 hgroup)] at hrec
        rw [if_pos hgroup]
        exact hunlinked hrec
      · rw [if_pos (not_not.1 (hkind.group_iff.not.1 hgroup))] at hrec
        rwa [if_neg hgroup]
  · refine .ghost h ht hkind hc ?_ (hs.ghost hc).1 hs.links
    by_cases hex : t.dt = exclusionDt
    · rw [if_pos hex] at hrec
      exact .inr ⟨hex, hrec⟩
    · rw [if_neg hex] at hrec
      by_cases hgroup : t.type = .group
      · rw [if_neg (hkind.group_iff.1 hgroup)] at hrec
        exact .inl ⟨hgroup, hunlinked hrec⟩
      · rw [if_pos (not_not.1 (hkind.group_iff.not.1 hgroup))] at hrec
        exact absurd hrec.1 hc

end

/-! ### The loop -/

/-- The node was in `t`'s neighbourhood at the start: the directory of `t`, what `t` was made for, or
the other end of a link. -/
def Touches (db₀ : Db) (t : TupEntry) (j : TupId) : Prop :=
  j = t.dt ∨ (0 ≤ t.srcid ∧ j = t.srcid) ∨ NormalAdj db₀ j t.tupid ∨ NormalAdj db₀ t.tupid j

/-- What holds before each turn of the loop. `W` are the nodes that have been in one of the trees, or
would have been if they were ghosts: those of `W` that are not needed are in one of them now. -/
structure ReclaimInv (exclusionDt : TupId) (db₀ : Db) (W : Set TupId) (db : Db) (tmpRoot : TentTree) :
    Prop where
  ok : GhostsOk exclusionDt db
  run : Reclaimed exclusionDt db₀ db
  tmp : ∀ j ∈ tmpRoot, GhostAt db j
  small : db.node.length ≤ db₀.node.length
  rows : ∀ t ∈ db.node, ∃ t₀ ∈ db₀.node, t₀.tupid = t.tupid ∧ t₀.dt = t.dt ∧
    (t₀.srcid = t.srcid ∨ (0 ≤ t₀.srcid → t₀.srcid ∈ W))
  links : ∀ l ∈ db₀.normalLink, l ∈ db.normalLink ∨ (l.fromId ∈ W ∧ l.toId ∈ W)
  start : ∀ j ∈ db₀.ghostRoot, j ∈ W
  gone : ∀ t ∈ db₀.node, ¬ HasNode db t.tupid → ∀ j, Touches db₀ t j → j ∈ W
  queued : ∀ t ∈ db.node, GhostKind t → t.tupid ∈ W → Reclaimable exclusionDt db t →
    t.tupid ∈ db.ghostRoot ∨ t.tupid ∈ tmpRoot

/-! ### The loop ends -/

/-- What a node adds to the work that may be left: it may go, become a ghost, and lose the directory it
was made for. -/
def work (t : TupEntry) : ℕ :=
  1 + (if t.type = .ghost then 0 else 1) + (if 0 ≤ t.srcid then 1 else 0)

/-- The removals that are still possible. -/
def potential (db : Db) : ℕ := (db.node.map work).sum + db.normalLink.length

theorem sum_work_filter_lt {rows : List TupEntry} {t : TupEntry} (ht : t ∈ rows) :
    ((rows.filter (·.tupid ≠ t.tupid)).map work).sum < (rows.map work).sum := by
  induction rows with
  | nil => cases ht
  | cons s rows ih =>
    have hle : ((rows.filter (·.tupid ≠ t.tupid)).map work).sum ≤ (rows.map work).sum :=
      (List.filter_sublist.map work).sum_le_sum fun _ _ => Nat.zero_le _
    have hpos : 0 < work s := by
      unfold work
      omega
    by_cases hs : s.tupid = t.tupid
    · rw [List.filter_cons_of_neg (by simpa using hs), List.map_cons, List.sum_cons]
      omega
    · have hmem : t ∈ rows := by
        rcases List.mem_cons.1 ht with rfl | h
        · exact absurd rfl hs
        · exact h
      have hlt := ih hmem
      rw [List.filter_cons_of_pos (by simpa using hs), List.map_cons, List.map_cons, List.sum_cons,
        List.sum_cons]
      omega

theorem work_ghosted (s : TupEntry) (i : TupId) :
    work (if s.tupid = i then { s with type := .ghost, srcid := -1 } else s) ≤ work s := by
  split
  · simp [work]
    omega
  · exact le_rfl

theorem sum_work_ghosted_le (rows : List TupEntry) (i : TupId) :
    ((ghosted rows i).map work).sum ≤ (rows.map work).sum := by
  unfold ghosted
  rw [List.map_map]
  exact List.sum_le_sum fun s _ => work_ghosted s i

theorem sum_work_ghosted_lt {rows : List TupEntry} {t : TupEntry} (ht : t ∈ rows)
    (h : t.type ≠ .ghost ∨ 0 ≤ t.srcid) :
    ((ghosted rows t.tupid).map work).sum < (rows.map work).sum := by
  unfold ghosted
  rw [List.map_map]
  apply List.sum_lt_sum _ _ fun s _ => work_ghosted s t.tupid
  refine ⟨t, ht, ?_⟩
  rcases h with h | h
  · simp [work, h]
    omega
  · simp [work, h]

theorem length_withoutNode_le (links : List Link) (i : TupId) :
    (withoutNode links i).length ≤ links.length :=
  List.length_filter_le _ _

theorem length_withoutNode_lt {links : List Link} {i : TupId} {l : Link} (hl : l ∈ links)
    (hat : l.fromId = i ∨ l.toId = i) : (withoutNode links i).length < links.length := by
  apply List.length_filter_lt_length_iff_exists.2
  refine ⟨l, hl, ?_⟩
  rcases hat with h | h
  · simp [h]
  · simp [h]

namespace Withdrawn

variable {db db' : Db} {t : TupEntry}

theorem normalLink (h : Withdrawn db t db') : db'.normalLink = withoutNode db.normalLink t.tupid :=
  h.links .normal

/-- A removal leaves less to do, or it changed nothing that was near the node. -/
theorem potential_lt (h : Withdrawn db t db') (ht : t ∈ db.node) : potential db' < potential db ∨
    (potential db' ≤ potential db ∧ ¬ Childless db t.tupid ∧ t.type = .ghost ∧
      ∀ j, ¬ Near db t j) := by
  have hlinks := length_withoutNode_le db.normalLink t.tupid
  unfold potential
  rw [h.normalLink]
  by_cases hc : Childless db t.tupid
  · have hrows := sum_work_filter_lt ht
    rw [(h.gone hc).1]
    left
    omega
  · have hrows := sum_work_ghosted_le db.node t.tupid
    rw [(h.ghost hc).1]
    by_cases hstill : t.type = .ghost ∧ ¬ 0 ≤ t.srcid
    · obtain ⟨hghost, hsrc⟩ := hstill
      by_cases hat : ∃ l ∈ db.normalLink, l.fromId = t.tupid ∨ l.toId = t.tupid
      · obtain ⟨l, hl, hend⟩ := hat
        have hlt := length_withoutNode_lt hl hend
        left
        omega
      · refine .inr ⟨by omega, hc, hghost, ?_⟩
        rintro j (⟨hpos, -⟩ | hin | hout)
        · exact hsrc hpos
        · exact hat ⟨_, hin, .inr rfl⟩
        · exact hat ⟨_, hout, .inl rfl⟩
    · have hstrict : t.type ≠ .ghost ∨ 0 ≤ t.srcid := by
        by_contra hno
        exact hstill ⟨not_not.1 fun h => hno (.inl h), fun h => hno (.inr h)⟩
      have hlt := sum_work_ghosted_lt ht hstrict
      left
      omega

end Withdrawn

/-- The turns that are left are fewer than this, in a project of `n` nodes: each removal can put all
the nodes back into the trees. -/
def turnsLeft (n : ℕ) (db : Db) (tmpRoot : TentTree) : ℕ :=
  potential db * (2 * n + 1) + db.ghostRoot.ids.length + tmpRoot.ids.length

/-- A tree of nodes has no more of them than there are. -/
theorem length_le_of_ghostAt {db : Db} {tree : TentTree} (h : ∀ j ∈ tree, GhostAt db j) :
    tree.ids.length ≤ db.node.length := by
  have hsub : tree.ids ⊆ db.node.map TupEntry.tupid := by
    intro j hj
    obtain ⟨t, ht, rfl, -⟩ := h j hj
    exact List.mem_map_of_mem ht
  have hlen := (List.subperm_of_subset tree.nodup hsub).length_le
  rwa [List.length_map] at hlen

theorem length_le_of_subset {s t : TentTree} (h : ∀ j ∈ s, j ∈ t) : s.ids.length ≤ t.ids.length :=
  (List.subperm_of_subset s.nodup h).length_le

theorem length_tentTreeRemove {t : TentTree} {i : TupId} (h : i ∈ t) :
    (tentTreeRemove t i).ids.length + 1 = t.ids.length := by
  have hpos : 0 < t.ids.length := List.length_pos_of_mem h
  unfold tentTreeRemove
  rw [List.length_erase_of_mem h]
  omega

theorem mem_addToGhostTree {tree : TentTree} {t : TupEntry} {j : TupId} :
    j ∈ addToGhostTree tree t ↔ j ∈ tree ∨ (j = t.tupid ∧ GhostKind t) := by
  unfold addToGhostTree
  split
  · next htype =>
    have hkind : GhostKind t := .inl htype
    simp [hkind, or_comm]
  · next htype =>
    have hkind : GhostKind t := .inr (.inl htype)
    simp [hkind, or_comm]
  · next htype =>
    have hkind : GhostKind t := .inr (.inr htype)
    simp [hkind, or_comm]
  · next h₁ h₂ h₃ =>
    have hkind : ¬ GhostKind t := not_or.2 ⟨h₁, not_or.2 ⟨h₂, h₃⟩⟩
    simp [hkind]

theorem keepsRows_ghostRoot (db : Db) (r : TentTree) : KeepsRows db { db with ghostRoot := r } :=
  .of_eq rfl rfl rfl

theorem GhostsOk.ghostRoot {exclusionDt : TupId} {db : Db} (h : GhostsOk exclusionDt db) {r : TentTree}
    (hr : ∀ j ∈ r, GhostAt db j) : GhostsOk exclusionDt { db with ghostRoot := r } where
  nodup := h.nodup
  pos := h.pos
  referential := h.referential.of_keepsRows (keepsRows_ghostRoot db r)
  dirs := h.dirs
  sticky := h.sticky
  root := hr

/-- The database in which a node is removed: neither it nor its directory is in `ghost_root`. -/
def struckFrom (db : Db) (t : TupEntry) : Db :=
  { db with ghostRoot := tentTreeRemove (tentTreeRemove db.ghostRoot t.tupid) t.dt }

namespace ReclaimInv

variable {exclusionDt : TupId} {db₀ db db' : Db} {W : Set TupId} {tmpRoot : TentTree} {t : TupEntry}

/-- A node that is needed is taken out. -/
theorem keep (h : ReclaimInv exclusionDt db₀ W db tmpRoot) (ht : t ∈ db.node)
    (hneeded : ¬ Reclaimable exclusionDt db t) : ReclaimInv exclusionDt db₀ W
      { db with ghostRoot := tentTreeRemove db.ghostRoot t.tupid } tmpRoot where
  ok := h.ok.ghostRoot fun j hj => h.ok.root j (mem_tentTreeRemove.1 hj).2
  run := h.run.keepsRows (keepsRows_ghostRoot db _)
  tmp := h.tmp
  small := h.small
  rows := h.rows
  links := h.links
  start := h.start
  gone := h.gone
  queued u hu hkind hmem hun := by
    refine (h.queued u hu hkind hmem hun).imp_left fun hroot => mem_tentTreeRemove.2 ⟨?_, hroot⟩
    rintro hid
    obtain rfl := List.inj_on_of_nodup_map h.ok.nodup hu ht hid
    exact hneeded hun

/-- The neighbours of a removed node that are not needed any more are in one of the trees. -/
theorem queued_strike (h : ReclaimInv exclusionDt db₀ W db tmpRoot)
    (hok : GhostsOk exclusionDt (struckFrom db t)) (ht : t ∈ db.node) (hkind : GhostKind t)
    {parent : TupEntry} (hparent : tupEntryAdd db t.dt = some parent)
    (hs : Withdrawn (struckFrom db t) t db') {u : TupEntry} (hu : u ∈ db'.node) (hukind : GhostKind u)
    (hmem : u.tupid ∈ W ∨ u.tupid = t.tupid ∨ Touches db t u.tupid)
    (hun : Reclaimable exclusionDt db' u) : u.tupid ∈ db'.ghostRoot ∨
      u.tupid ∈ addToGhostTree (tentTreeRemove tmpRoot t.tupid) parent := by
  obtain ⟨hpmem, hpid⟩ := mem_node_of_tupEntryAdd hparent
  rcases hs.row h.ok.nodup ht hu with ⟨hu, hne⟩ | ⟨hc, rfl⟩
  · have hat : GhostAt db u.tupid := ⟨u, hu, rfl, hukind⟩
    have hroot : u.tupid ∈ (struckFrom db t).ghostRoot ∨ Near db t u.tupid →
        u.tupid ∈ db'.ghostRoot := by
      intro hor
      by_cases hc : Childless db t.tupid
      · exact ((hs.gone hc).2 _).2 ⟨hne, hor.imp_right fun hn => ⟨hat, .inl hn⟩⟩
      · exact ((hs.ghost hc).2 _).2 (hor.imp_right fun hn => ⟨hat, hn⟩)
    by_cases hdt : u.tupid = t.dt
    · obtain rfl := List.inj_on_of_nodup_map h.ok.nodup hu hpmem (hdt.trans hpid.symm)
      exact .inr (mem_addToGhostTree.2 (.inr ⟨rfl, hukind⟩))
    · by_cases hnear : Near db t u.tupid
      · exact .inl (hroot (.inr hnear))
      · -- it is none of the neighbours, so it was unneeded before and is still queued
        have hW : u.tupid ∈ W := by
          rcases hmem with hW | hid | htouch
          · exact hW
          · exact absurd hid hne
          · exact absurd (htouch.resolve_left hdt) hnear
        have hold : Reclaimable exclusionDt db u := hs.unneeded_of hok ht hkind hu hukind hne hnear hdt hun
        rcases h.queued u hu hukind hW hold with hq | hq
        · exact .inl (hroot (.inl (mem_tentTreeRemove.2 ⟨hdt, mem_tentTreeRemove.2 ⟨hne, hq⟩⟩)))
        · exact .inr (mem_addToGhostTree.2 (.inl (mem_tentTreeRemove.2 ⟨hne, hq⟩)))
  · -- a node that has become a ghost has something in it, unless it was made for itself
    have hchild : Childless db' t.tupid := by
      have hneed := hun.2
      split at hneed
      · exact hneed.1
      · rw [if_neg (by simp)] at hneed
        exact hneed.1
    obtain ⟨c, hc', hcend⟩ : ∃ c ∈ db.node, c.dt = t.tupid ∨ c.srcid = t.tupid := by
      by_contra hno
      apply hc
      intro s hs'
      exact ⟨fun hdt => hno ⟨s, hs', .inl hdt⟩, fun hsrc => hno ⟨s, hs', .inr hsrc⟩⟩
    by_cases hct : c.tupid = t.tupid
    · obtain rfl := List.inj_on_of_nodup_map h.ok.nodup hc' ht hct
      rcases hcend with hdt | hsrc
      · exact absurd hdt (hchild _ hu).1
      · have hpos : 0 ≤ c.srcid := hsrc ▸ (h.ok.pos c hc').le
        exact .inl (((hs.ghost hc).2 c.tupid).2
          (.inr ⟨⟨c, hc', rfl, hkind⟩, .inl ⟨hpos, hsrc.symm⟩⟩))
    · have hkept := hchild c (hs.kept hc' hct)
      exact absurd hcend (not_or.2 hkept)

/-- The removal of a node keeps the invariant, with its neighbours in `W`. -/
theorem strike (h : ReclaimInv exclusionDt db₀ W db tmpRoot)
    (hnd₀ : (db₀.node.map TupEntry.tupid).Nodup) (hok : GhostsOk exclusionDt (struckFrom db t))
    (ht : t ∈ db.node) (hkind : GhostKind t)
    (hrec : (ghostReclaimable exclusionDt db t && t.name ≠ tupConfig) = true)
    {parent : TupEntry} (hparent : tupEntryAdd db t.dt = some parent)
    (hs : Withdrawn (struckFrom db t) t db') (href : db'.Referential) :
    ReclaimInv exclusionDt db₀ {j | j ∈ W ∨ j = t.tupid ∨ Touches db t j} db'
      (addToGhostTree (tentTreeRemove tmpRoot t.tupid) parent) where
  ok := hs.ghostsOk hok ht hkind href
  run := (h.run.keepsRows (keepsRows_ghostRoot db _)).struck hok ht hkind hrec hs
  tmp j hj := by
    obtain ⟨hpmem, hpid⟩ := mem_node_of_tupEntryAdd hparent
    rcases mem_addToGhostTree.1 hj with hj | ⟨rfl, hpkind⟩
    · obtain ⟨hne, hmem⟩ := mem_tentTreeRemove.1 hj
      exact hs.ghostAt ht (h.tmp j hmem) (.inl hne)
    · apply hs.ghostAt ht ⟨parent, hpmem, rfl, hpkind⟩
      by_cases hc : Childless db t.tupid
      · exact .inl fun heq => (hc t ht).1 (hpid.symm.trans heq)
      · exact .inr hc
  small := by
    refine le_trans ?_ h.small
    by_cases hc : Childless db t.tupid
    · rw [(hs.gone hc).1]
      exact List.length_filter_le _ _
    · rw [(hs.ghost hc).1]
      unfold ghosted
      rw [List.length_map]
      exact le_rfl
  rows u hu := by
    rcases hs.row h.ok.nodup ht hu with ⟨hu, -⟩ | ⟨-, rfl⟩
    · obtain ⟨u₀, hu₀, hid, hdt, hsrc⟩ := h.rows u hu
      exact ⟨u₀, hu₀, hid, hdt, hsrc.imp_right fun hW hpos => .inl (hW hpos)⟩
    · obtain ⟨t₀, ht₀, hid, hdt, hsrc⟩ := h.rows t ht
      refine ⟨t₀, ht₀, hid, hdt, .inr fun hpos => ?_⟩
      rcases hsrc with hsrc | hW
      · exact .inr (.inr (.inr (.inl ⟨hsrc ▸ hpos, hsrc⟩)))
      · exact .inl (hW hpos)
  links l hl := by
    rcases h.links l hl with hl | ⟨hfrom, hto⟩
    · by_cases hat : l.fromId ≠ t.tupid ∧ l.toId ≠ t.tupid
      · exact .inl ((hs.mem_links .normal).2 ⟨hl, hat⟩)
      · right
        by_cases hfrom : l.fromId = t.tupid
        · have hout : NormalAdj db t.tupid l.toId := by
            rw [← hfrom]
            exact hl
          exact ⟨.inr (.inl hfrom), .inr (.inr (.inr (.inr (.inr hout))))⟩
        · have hto : l.toId = t.tupid := by
            by_contra hto
            exact hat ⟨hfrom, hto⟩
          have hin : NormalAdj db l.fromId t.tupid := by
            rw [← hto]
            exact hl
          exact ⟨.inr (.inr (.inr (.inr (.inl hin)))), .inr (.inl hto)⟩
    · exact .inr ⟨.inl hfrom, .inl hto⟩
  start j hj := .inl (h.start j hj)
  gone t₀ ht₀ hno j hj := by
    by_cases hhas : HasNode db t₀.tupid
    · -- it is the node that has just been removed
      obtain ⟨u, hu, hid⟩ := hasNode_iff.1 hhas
      have hut : u.tupid = t.tupid := by
        by_contra hne
        exact hno (hasNode_iff.2 ⟨u, hs.kept hu hne, hid⟩)
      obtain rfl := List.inj_on_of_nodup_map h.ok.nodup hu ht hut
      obtain ⟨v, hv, hvid, hvdt, hvsrc⟩ := h.rows u hu
      obtain rfl := List.inj_on_of_nodup_map hnd₀ hv ht₀ (hvid.trans hid)
      rcases hj with hdt | ⟨hpos, hsrc⟩ | hin | hout
      · exact .inr (.inr (.inl (hdt.trans hvdt)))
      · rcases hvsrc with heq | hW
        · exact .inr (.inr (.inr (.inl ⟨heq ▸ hpos, hsrc.trans heq⟩)))
        · exact .inl (hsrc ▸ hW hpos)
      · rcases h.links _ hin with hl | ⟨hW, -⟩
        · rw [hvid] at hl
          exact .inr (.inr (.inr (.inr (.inl hl))))
        · exact .inl hW
      · rcases h.links _ hout with hl | ⟨-, hW⟩
        · rw [hvid] at hl
          exact .inr (.inr (.inr (.inr (.inr hl))))
        · exact .inl hW
    · exact .inl (h.gone t₀ ht₀ hhas j hj)
  queued u hu hukind hmem hun := h.queued_strike hok ht hkind hparent hs hu hukind hmem hun

/-- There is less to do after a removal. -/
theorem turnsLeft_strike (h : ReclaimInv exclusionDt db₀ W db tmpRoot)
    (hi : t.tupid ∈ db.ghostRoot) (ht : t ∈ db.node)
    (hrec : (ghostReclaimable exclusionDt db t && t.name ≠ tupConfig) = true)
    {parent : TupEntry} (hparent : tupEntryAdd db t.dt = some parent)
    (hs : Withdrawn (struckFrom db t) t db') {tmpRoot' : TentTree}
    (htmp' : tmpRoot' = addToGhostTree (tentTreeRemove tmpRoot t.tupid) parent) {W' : Set TupId}
    (h' : ReclaimInv exclusionDt db₀ W' db' tmpRoot') :
    turnsLeft db₀.node.length db' tmpRoot' < turnsLeft db₀.node.length db tmpRoot := by
  have hroot := (length_le_of_ghostAt h'.ok.root).trans h'.small
  have htmp := (length_le_of_ghostAt h'.tmp).trans h'.small
  unfold turnsLeft
  rcases hs.potential_lt ht with hlt | ⟨hle, hc, hghost, hnear⟩
  · have hlt' : potential db' + 1 ≤ potential db := hlt
    have hmul := Nat.mul_le_mul_right (2 * db₀.node.length + 1) hlt'
    rw [Nat.add_mul] at hmul
    omega
  · -- only an exclusion is reclaimable with something in it, and its directory is no ghost
    have hex : t.dt = exclusionDt := by
      rw [Bool.and_eq_true, ghostReclaimable_iff] at hrec
      by_contra hex
      rw [if_neg hex, if_pos (.inl hghost)] at hrec
      exact hc hrec.1.1
    obtain ⟨hpmem, hpid⟩ := mem_node_of_tupEntryAdd hparent
    have hpkind : ¬ GhostKind parent := h.ok.dirs parent hpmem (.inr (hpid.trans hex))
    have hshorter : db'.ghostRoot.ids.length ≤ (tentTreeRemove db.ghostRoot t.tupid).ids.length := by
      apply length_le_of_subset
      intro j hj
      rcases ((hs.ghost hc).2 j).1 hj with hj | ⟨-, hn⟩
      · exact (mem_tentTreeRemove.1 hj).2
      · exact absurd hn (hnear j)
    have htmpShorter : tmpRoot'.ids.length ≤ tmpRoot.ids.length := by
      apply length_le_of_subset
      intro j hj
      rw [htmp'] at hj
      rcases mem_addToGhostTree.1 hj with hj | ⟨-, hkind⟩
      · exact (mem_tentTreeRemove.1 hj).2
      · exact absurd hkind hpkind
    have hone := length_tentTreeRemove hi
    have hmul := Nat.mul_le_mul_right (2 * db₀.node.length + 1)
      (show potential db' ≤ potential db from hle)
    omega

/-- One turn of the loop. -/
theorem turn (h : ReclaimInv exclusionDt db₀ W db tmpRoot)
    (hnd₀ : (db₀.node.map TupEntry.tupid).Nodup) (hi : t.tupid ∈ db.ghostRoot) (ht : t ∈ db.node)
    (hkind : GhostKind t) : ∃ db₁ tmpRoot₁ W₁,
      reclaimGhost exclusionDt { db with ghostRoot := tentTreeRemove db.ghostRoot t.tupid } tmpRoot t =
        some (db₁, tmpRoot₁) ∧ ReclaimInv exclusionDt db₀ W₁ db₁ tmpRoot₁ ∧
      turnsLeft db₀.node.length db₁ tmpRoot₁ < turnsLeft db₀.node.length db tmpRoot := by
  unfold reclaimGhost
  by_cases hrec : (ghostReclaimable exclusionDt db t && t.name ≠ tupConfig) = true
  · have hdt : HasNode db t.dt := by
      refine (h.ok.referential.dir t ht).resolve_left ?_
      rintro ⟨htop, -⟩
      exact h.ok.dirs t ht (.inl htop) hkind
    obtain ⟨parent, hparent⟩ := tupEntryAdd_of_hasNode hdt
    have hok : GhostsOk exclusionDt (struckFrom db t) := h.ok.ghostRoot fun j hj =>
      h.ok.root j (mem_tentTreeRemove.1 (mem_tentTreeRemove.1 hj).2).2
    obtain ⟨db', hrun, hs⟩ := deleteNameFile_struck hok.referential hok.nodup ht hkind hdt
    have hinv := h.strike hnd₀ hok ht hkind hrec hparent hs
      ((shrinks_deleteNameFile hrun).referential hok.referential)
    refine ⟨db', _, _, ?_, hinv, h.turnsLeft_strike hi ht hrec hparent hs rfl hinv⟩
    rw [show ghostReclaimable exclusionDt { db with
      ghostRoot := tentTreeRemove db.ghostRoot t.tupid } t = ghostReclaimable exclusionDt db t from rfl,
      if_pos hrec, show tupEntryAdd { db with
      ghostRoot := tentTreeRemove db.ghostRoot t.tupid } t.dt = some parent from hparent]
    unfold struckFrom at hrun
    rw [Option.bind_eq_bind, Option.bind_some, hrun]
    rfl
  · have hone := length_tentTreeRemove hi
    refine ⟨_, _, W, if_neg hrec, h.keep ht fun hun => hrec (hun.reclaimable hkind), ?_⟩
    unfold turnsLeft potential
    dsimp only
    omega

/-- The trees change places, and with `ghost_root` the other one is used up too. -/
theorem swap (h : ReclaimInv exclusionDt db₀ W db tmpRoot) :
    ReclaimInv exclusionDt db₀ W (swapGhosts db tmpRoot).1 (swapGhosts db tmpRoot).2 ∧
      ((swapGhosts db tmpRoot).1.ghostRoot.ids = [] → (swapGhosts db tmpRoot).2.ids = []) ∧
      turnsLeft db₀.node.length (swapGhosts db tmpRoot).1 (swapGhosts db tmpRoot).2 =
        turnsLeft db₀.node.length db tmpRoot := by
  unfold swapGhosts
  split
  · next hempty =>
    refine ⟨?_, fun _ => rfl, ?_⟩
    · exact {
        ok := h.ok.ghostRoot h.tmp
        run := h.run.keepsRows (keepsRows_ghostRoot db _)
        tmp := fun j hj => absurd hj (TentTree.not_mem_empty j)
        small := h.small
        rows := h.rows
        links := h.links
        start := h.start
        gone := h.gone
        queued := fun u hu hkind hmem hun => by
          rcases h.queued u hu hkind hmem hun with hq | hq
          · rw [TentTree.mem_def, hempty] at hq
            cases hq
          · exact .inl hq }
    · unfold turnsLeft potential
      simp only [hempty, List.length_nil, Nat.add_zero]
      exact Nat.add_zero _
  · next hsome => exact ⟨h, fun hempty => absurd hempty hsome, rfl⟩

/-- The loop stops when both trees are used up. -/
theorem done (h : ReclaimInv exclusionDt db₀ W db tmpRoot) (hempty : db.ghostRoot.ids = [])
    (hidle : db.ghostRoot.ids = [] → tmpRoot.ids = []) (n : ℕ) :
    (∀ fuel, n < fuel → reclaimLoop exclusionDt fuel db tmpRoot = some db) ∧
      ReclaimInv exclusionDt db₀ W db ∅ := by
  have htmp : tmpRoot = ∅ := TentTree.ext_mem fun i => by
    rw [TentTree.mem_def, hidle hempty]
    exact iff_of_false List.not_mem_nil (TentTree.not_mem_empty i)
  refine ⟨fun fuel hfuel => ?_, htmp ▸ h⟩
  obtain ⟨fuel, rfl⟩ := Nat.exists_eq_succ_of_ne_zero (Nat.zero_lt_of_lt hfuel).ne'
  unfold reclaimLoop
  rw [hempty]

/-- The loop ends. -/
theorem loop (hnd₀ : (db₀.node.map TupEntry.tupid).Nodup) {n : ℕ}
    (h : ReclaimInv exclusionDt db₀ W db tmpRoot) (hidle : db.ghostRoot.ids = [] → tmpRoot.ids = [])
    (hn : turnsLeft db₀.node.length db tmpRoot ≤ n) : ∃ db' W',
      (∀ fuel, n < fuel → reclaimLoop exclusionDt fuel db tmpRoot = some db') ∧
      ReclaimInv exclusionDt db₀ W' db' ∅ ∧ db'.ghostRoot.ids = [] := by
  induction n generalizing W db tmpRoot with
  | zero =>
    have hempty : db.ghostRoot.ids = [] := by
      apply List.eq_nil_of_length_eq_zero
      unfold turnsLeft at hn
      omega
    obtain ⟨hloop, hinv⟩ := h.done hempty hidle 0
    exact ⟨db, W, hloop, hinv, hempty⟩
  | succ n ih =>
    cases hids : db.ghostRoot.ids with
    | nil =>
      obtain ⟨hloop, hinv⟩ := h.done hids hidle (n + 1)
      exact ⟨db, W, hloop, hinv, hids⟩
    | cons i rest =>
      have hi : i ∈ db.ghostRoot := by
        rw [TentTree.mem_def, hids]
        exact List.mem_cons_self
      obtain ⟨t, ht, rfl, hkind⟩ := h.ok.root i hi
      obtain ⟨db₁, tmpRoot₁, W₁, hrun, hinv, hlt⟩ := h.turn hnd₀ hi ht hkind
      obtain ⟨hswap, hidle', hturns⟩ := hinv.swap
      obtain ⟨db', W', hloop, hdone⟩ := ih hswap hidle' (by omega)
      refine ⟨db', W', fun fuel hfuel => ?_, hdone⟩
      obtain ⟨fuel, rfl⟩ := Nat.exists_eq_succ_of_ne_zero (Nat.zero_lt_of_lt hfuel).ne'
      have hlook : tupEntryAdd db t.tupid = some t := by
        obtain ⟨u, hu⟩ := tupEntryAdd_of_hasNode (hasNode_iff.2 ⟨t, ht, rfl⟩)
        obtain ⟨humem, huid⟩ := mem_node_of_tupEntryAdd hu
        rwa [List.inj_on_of_nodup_map h.ok.nodup humem ht huid] at hu
      have htype : ¬ (t.type ≠ .ghost ∧ t.type ≠ .group ∧ t.type ≠ .generatedDir) := by
        rintro ⟨h₁, h₂, h₃⟩
        rcases hkind with hk | hk | hk
        · exact h₁ hk
        · exact h₂ hk
        · exact h₃ hk
      unfold reclaimLoop
      rw [hids]
      dsimp only
      rw [hlook, Option.bind_eq_bind, Option.bind_some, if_neg htype, hrun]
      exact hloop fuel (by omega)

end ReclaimInv

/-! ### Reclaiming -/

/-- The node was in `ghost_root`, or it was a neighbour of a node that is gone. -/
def Watched (db₀ db : Db) (j : TupId) : Prop :=
  j ∈ db₀.ghostRoot ∨ ∃ t ∈ db₀.node, ¬ HasNode db t.tupid ∧ Touches db₀ t j

/-- The turns that are enough for a database. -/
def reclaimBound (db : Db) : ℕ := turnsLeft db.node.length db ∅ + 1

/-- The ghost `a` with the ghost `a/b` in it, which nothing reads any more. -/
def ghostInGhost : Db where
  node := [{ tupid := 1, dt := 0, type := .dir, name := ".".toList, srcid := -1 },
    { tupid := 2, dt := 1, type := .dir, name := "^".toList, srcid := -1 },
    { tupid := 3, dt := 1, type := .ghost, name := "a".toList, srcid := -1 },
    { tupid := 4, dt := 3, type := .ghost, name := "b".toList, srcid := -1 }]
  ghostRoot := tentTreeAddDup ∅ 4

theorem ghostInGhost_ok : GhostsOk 2 ghostInGhost where
  nodup := by decide
  pos := by decide
  referential := {
    dir := by decide
    links := fun style l hl => by cases style <;> cases hl
    srcid := by decide }
  dirs := by decide
  sticky l hl := by cases hl
  root j hj := by
    have hj4 : j = 4 := by simpa [ghostInGhost] using hj
    exact ⟨_, List.mem_of_getElem? (i := 3) rfl, hj4.symm, .inl rfl⟩

end Metatup
