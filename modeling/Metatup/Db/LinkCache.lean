import Metatup.Db.Referential
import Metatup.Db.RuleEdits
import Metatup.Lib.StampedCache

/-!
# The caches of links

An entry keeps the sticky inputs of its node behind a global generation counter, `sticky_count`, and
the command that was last found to produce it, `incoming`. Inserting and removing a sticky link
changes the cached inputs in place; deleting all links of a node starts a new generation.

* `LinkOp.run`: the operations on links, with what they do to the caches.
* `Coherent`: what the caches have to be.
* `coherent_runs_iff`: the caches are coherent throughout a run exactly when no operation takes away a
  link that is cached where it is not seen.
-/

namespace Metatup

open Lib

/-! ### The caches -/

/-- Source: `entry.h` `struct tup_entry`, the fields `stickies` and `group_stickies` -/
structure Stickies where
  stickies : TentTree := ∅
  groupStickies : TentTree := ∅
  deriving DecidableEq

/-- The database and what the entries cache. A stamp is `retrieved_stickies`, and the count is
`sticky_count`, which is taken not to overflow. -/
structure LinkCaches extends LinkState where
  sticky : StampedCache TupId Stickies := .init {}

/-- The body of the loop of `get_sticky_inputs`. -/
def addStickyInput (db : Db) (c : Stickies) (i : TupId) : Option Stickies := do
  let tent ← tupEntryAdd db i
  return { stickies := tentTreeAddDup c.stickies tent.tupid
           groupStickies := if tent.type = .group then tentTreeAddDup c.groupStickies tent.tupid
             else c.groupStickies }

/-- Source: `db.c` `get_sticky_inputs` -/
def getStickies (db : Db) (cmdid : TupId) : Option Stickies :=
  ((db.stickyLink.filter (·.toId = cmdid)).map Link.fromId).foldlM (addStickyInput db) {}

/-- What `link_insert` does to the cached inputs. -/
def Stickies.insert (c : Stickies) (srctent : TupEntry) : Option Stickies := do
  let stickies ← tentTreeAdd c.stickies srctent.tupid
  if srctent.type = .group then
    (tentTreeAdd c.groupStickies srctent.tupid).map fun group => ⟨stickies, group⟩
  else some { c with stickies := stickies }

/-- What `link_remove` does to the cached inputs. -/
def Stickies.remove (c : Stickies) (srctent : TupEntry) : Stickies where
  stickies := tentTreeRemove c.stickies srctent.tupid
  groupStickies :=
    if srctent.type = .group then tentTreeRemove c.groupStickies srctent.tupid else c.groupStickies

namespace LinkCaches

/-- Source: `db.c` `tup_db_get_inputs`, the sticky inputs and the groups among them -/
def tupDbGetInputs (s : LinkCaches) (cmdid : TupId) : Option (LinkCaches × Stickies) := do
  let _ ← tupEntryAdd s.db cmdid
  let sticky :=
    if s.sticky.stamp cmdid ≠ s.sticky.count then s.sticky.drop cmdid {} else s.sticky
  if sticky.stamp cmdid = 0 then do
    let c ← getStickies s.db cmdid
    return ({ s with sticky := sticky.fill cmdid c }, c)
  else return ({ s with sticky := sticky }, sticky.value cmdid)

/-- Source: `db.c` `link_insert` -/
def linkInsert (s : LinkCaches) (a b : TupId) : LinkType → Option LinkCaches
  | .normal => (Metatup.linkInsert s.db a b .normal).map fun db => { s with db := db }
  | .sticky => do
    let db ← Metatup.linkInsert s.db a b .sticky
    let _ ← tupEntryAdd db b
    let srctent ← tupEntryAdd db a
    -- the stamp need not be the one of this generation
    if s.sticky.stamp b ≠ 0 then do
      let c ← (s.sticky.value b).insert srctent
      return { s with db := db, sticky := s.sticky.patch b c }
    else return { s with db := db }

/-- Source: `db.c` `link_remove` -/
def linkRemove (s : LinkCaches) (a b : TupId) : LinkType → Option LinkCaches
  | .normal => some { s with db := Metatup.linkRemove s.db a b .normal }
  | .sticky => do
    let db := Metatup.linkRemove s.db a b .sticky
    let _ ← tupEntryAdd db b
    let srctent ← tupEntryAdd db a
    if s.sticky.stamp b ≠ 0 then
      return { s with db := db, sticky := s.sticky.patch b ((s.sticky.value b).remove srctent) }
    else return { s with db := db }

/-- Source: `db.c` `tup_db_get_incoming_link` -/
def tupDbGetIncomingLink (s : LinkCaches) (b : TupId) : Option LinkCaches :=
  (Metatup.tupDbGetIncomingLink s.toLinkState b).map fun r => { s with toLinkState := r.1 }

/-- Source: `db.c` `tup_db_create_unique_link` -/
def tupDbCreateUniqueLink (s : LinkCaches) (a b : TupId) : Option LinkCaches :=
  (Metatup.tupDbCreateUniqueLink a s.toLinkState b).map fun r => { s with toLinkState := r }

/-- Source: `db.c` `tup_db_delete_links` -/
def tupDbDeleteLinks (s : LinkCaches) (i : TupId) : Option LinkCaches :=
  (Metatup.tupDbDeleteLinks s.db i).map fun db => { s with db := db, sticky := s.sticky.invalidate }

/-- Source: `entry.c` `rm_entry`. Nobody may hold on to the entry; of the trees that can, those are
here that other entries cache. -/
def rmEntry (s : LinkCaches) (i : TupId) : Option LinkCaches :=
  if s.db.node.any fun t => t.tupid ≠ i && (tentTreeSearch (s.sticky.value t.tupid).stickies i ||
      tentTreeSearch (s.sticky.value t.tupid).groupStickies i) then none
  else some { s with incoming := Function.update s.incoming i none, sticky := s.sticky.drop i {} }

/-- Source: `delete_name_file.c` `delete_name_file` -/
def deleteNameFile (s : LinkCaches) (i : TupId) : Option LinkCaches := do
  let s ← tupDbDeleteLinks { s with db := s.db.setFlags (unflagAll s.db.flags i) } i
  let db ← tupDbDeleteNode s.db i
  -- a node that something is in or comes from is but a ghost now
  if nodeHasGhosts s.db i then return { s with db := db } else rmEntry { s with db := db } i

end LinkCaches

/-! ### Operations -/

/-- What is done to links, and what is asked about them. -/
inductive LinkOp
  | insert (a b : TupId) (style : LinkType)
  | remove (a b : TupId) (style : LinkType)
  | createUnique (a b : TupId)
  | deleteLinks (i : TupId)
  | deleteNode (i : TupId)
  | getInputs (cmdid : TupId)
  | getIncoming (b : TupId)

/-- The state after an operation that succeeds. -/
def LinkOp.run (s : LinkCaches) : LinkOp → Option LinkCaches
  | .insert a b style => s.linkInsert a b style
  | .remove a b style => s.linkRemove a b style
  | .createUnique a b => s.tupDbCreateUniqueLink a b
  | .deleteLinks i => s.tupDbDeleteLinks i
  | .deleteNode i => s.deleteNameFile i
  | .getInputs cmdid => (s.tupDbGetInputs cmdid).map Prod.fst
  | .getIncoming b => s.tupDbGetIncomingLink b

/-- An operation that succeeds. -/
def CacheStep (s : LinkCaches) (op : LinkOp) (s' : LinkCaches) : Prop := op.run s = some s'

/-- What the keys of `node` guarantee and what `link_insert` checks. -/
structure Db.Linked (db : Db) : Prop where
  nodup : (db.node.map TupEntry.tupid).Nodup
  pos : ∀ t ∈ db.node, 0 < t.tupid
  irrefl : ∀ i, ¬ NormalAdj db i i
  sticky : ∀ i j, db.Has (.sticky i j) → i ≠ j ∧ HasNode db i

/-- The caches say what the tables say. -/
structure Coherent (s : LinkCaches) : Prop where
  /-- The inputs of a command are the rows into it, and the groups are those among them. -/
  inputs : ∀ cmdid, HasNode s.db cmdid → ∃ s' c, s.tupDbGetInputs cmdid = some (s', c) ∧
    ∀ i, (i ∈ c.stickies ↔ s.db.Has (.sticky i cmdid)) ∧
      (i ∈ c.groupStickies ↔ s.db.Has (.sticky i cmdid) ∧ s.db.isGroup i = true)
  /-- A sticky link that is not there can be made. -/
  insert : ∀ a b, a ≠ b → HasNode s.db a → HasNode s.db b → ¬ s.db.Has (.sticky a b) →
    ∃ s', s.linkInsert a b .sticky = some s'
  /-- A command that is cached exists, and its link is the only one. -/
  incoming : ∀ b c, s.incoming b = some c → HasNode s.db c ∧ ∀ x, NormalAdj s.db x b ↔ x = c

/-- Nothing is cached that has to do with the links of a node. -/
structure Uncached (s : LinkCaches) (i : TupId) : Prop where
  incoming : s.incoming i = none
  source : ∀ b, s.incoming b ≠ some i
  stickies : ∀ j, j ∉ (s.sticky.value i).stickies
  others : ∀ b, i ∉ (s.sticky.value b).stickies

/-- The operation leaves every cached link alone, or sees to the cache. -/
def LinkOp.Safe (s : LinkCaches) : LinkOp → Prop
  | .insert _ b .normal => s.incoming b = none
  | .remove a b .normal => s.incoming b ≠ some a
  -- an output without a command is taken out of its group
  | .createUnique _ b =>
    (∃ c, NormalAdj s.db c b) ∨ ∀ g, s.db.isGroup g = true → s.incoming g ≠ some b
  | .deleteLinks i => Uncached s i
  -- the caches of an entry go with it
  | .deleteNode i =>
    (∀ b, s.incoming b ≠ some i) ∧ (nodeHasGhosts s.db i = true → Uncached s i)
  | .insert _ _ .sticky | .remove _ _ .sticky | .getInputs _ | .getIncoming _ => True

/-! ### What holds whatever is done -/

/-- The inputs of a node as the tables have them. -/
def ReadFrom (db : Db) (b : TupId) (c : Stickies) : Prop :=
  ∀ i, (i ∈ c.stickies ↔ db.Has (.sticky i b)) ∧
    (i ∈ c.groupStickies ↔ db.Has (.sticky i b) ∧ db.isGroup i = true)

/-- What holds throughout a run: inputs that are cached in this generation are right, and what else is
cached as an input is a node still. -/
structure LinkCaches.Inv (s : LinkCaches) : Prop where
  linked : s.db.Linked
  valid : s.sticky.Valid (ReadFrom s.db)
  ends : ∀ b i, i ∈ (s.sticky.value b).stickies → i ≠ b ∧ HasNode s.db i ∧ HasNode s.db b
  /-- A node that was a group when it was cached can have become a ghost. -/
  groups : ∀ b i, i ∈ (s.sticky.value b).groupStickies → s.db.isGroup i = true →
    i ∈ (s.sticky.value b).stickies
  unread : ∀ b, s.sticky.stamp b = 0 → ∀ i, i ∉ (s.sticky.value b).stickies

/-- What is cached is in the tables. -/
structure LinkCaches.Kept (s : LinkCaches) : Prop where
  sticky : ∀ b i, i ∈ (s.sticky.value b).stickies → s.db.Has (.sticky i b)
  incoming : ∀ b c, s.incoming b = some c → HasNode s.db c ∧ ∀ x, NormalAdj s.db x b ↔ x = c

section

variable {db db' : Db} {s s' : LinkCaches} {a b i j : TupId} {c : Stickies}

theorem hasNode_of_node (h : db'.node = db.node) : HasNode db' i ↔ HasNode db i := by
  rw [hasNode_iff, hasNode_iff, h]

theorem isGroup_of_node (h : db'.node = db.node) (i : TupId) : db'.isGroup i = db.isGroup i := by
  unfold Db.isGroup tupEntryAdd
  rw [h]

theorem isGroup_eq {tent : TupEntry} (h : tupEntryAdd db i = some tent) :
    db.isGroup i = true ↔ tent.type = .group := by
  unfold Db.isGroup
  rw [h]
  simp

/-- The rows into a command are read, and the groups apart. -/
theorem readFrom_getStickies (h : getStickies db b = some c) : ReadFrom db b c := by
  have key : ∀ i, (i ∈ c.stickies ↔ i ∈ (db.stickyLink.filter (·.toId = b)).map Link.fromId) ∧
      (i ∈ c.groupStickies ↔ i ∈ (db.stickyLink.filter (·.toId = b)).map Link.fromId ∧
        db.isGroup i = true) := by
    apply Lib.foldlM_keeps (P := fun pre (c : Stickies) => ∀ i, (i ∈ c.stickies ↔ i ∈ pre) ∧
      (i ∈ c.groupStickies ↔ i ∈ pre ∧ db.isGroup i = true)) h
    · simp
    · intro pre x post c c' _ ih hstep i
      obtain ⟨tent, ht, hstep⟩ := Option.bind_eq_some_iff.1 hstep
      cases hstep
      obtain ⟨-, rfl⟩ := mem_node_of_tupEntryAdd ht
      have hgroup := isGroup_eq ht
      constructor
      · rw [mem_tentTreeAddDup, (ih i).1, List.mem_append, List.mem_singleton, or_comm]
      · by_cases htype : tent.type = .group
        · rw [if_pos htype, mem_tentTreeAddDup, (ih i).2, List.mem_append, List.mem_singleton]
          grind
        · rw [if_neg htype, (ih i).2, List.mem_append, List.mem_singleton]
          grind
  intro i
  have hrow : i ∈ (db.stickyLink.filter (·.toId = b)).map Link.fromId ↔ db.Has (.sticky i b) :=
    mem_sources_iff.trans .rfl
  rw [(key i).1, (key i).2, hrow]
  exact ⟨.rfl, .rfl⟩

theorem exists_getStickies (h : db.Linked) (b : TupId) : ∃ c, getStickies db b = some c := by
  have key : ∀ (l : List TupId) (c : Stickies), (∀ i ∈ l, HasNode db i) →
      ∃ c', l.foldlM (addStickyInput db) c = some c' := by
    intro l
    induction l with
    | nil => exact fun c _ => ⟨c, rfl⟩
    | cons i l ih =>
      intro c hl
      obtain ⟨tent, ht⟩ := Option.isSome_iff_exists.1 (hl i List.mem_cons_self)
      rw [List.foldlM_cons, addStickyInput, ht]
      exact ih _ fun j hj => hl j (List.mem_cons_of_mem i hj)
  refine key _ {} fun i hi => ?_
  exact (h.sticky i b (mem_sources_iff.1 hi)).2

/-- What `tup_db_get_inputs` returns are the rows, and what it changes is its cache. -/
theorem tupDbGetInputs_spec (h : s.Inv) (hb : HasNode s.db b) :
    ∃ s' c, s.tupDbGetInputs b = some (s', c) ∧ ReadFrom s.db b c := by
  obtain ⟨tent, ht⟩ := Option.isSome_iff_exists.1 hb
  obtain ⟨c, hc⟩ := exists_getStickies h.linked b
  unfold LinkCaches.tupDbGetInputs
  rw [ht]
  by_cases hfresh : s.sticky.stamp b = s.sticky.count
  · refine ⟨s, s.sticky.value b, ?_, h.valid.right b hfresh⟩
    simp [hfresh, h.valid.pos.ne']
  · have hstamp : (s.sticky.drop b {}).stamp b = 0 := Function.update_self _ _ _
    refine ⟨{ s with sticky := (s.sticky.drop b {}).fill b c }, c, ?_, readFrom_getStickies hc⟩
    simp [hfresh, hstamp, hc]

/-! ### Sticky links -/

theorem insert_spec {tent : TupEntry} {c' : Stickies} (h : c.insert tent = some c') :
    (∀ i, i ∈ c'.stickies ↔ i = tent.tupid ∨ i ∈ c.stickies) ∧
      ∀ i, i ∈ c'.groupStickies ↔ (i = tent.tupid ∧ tent.type = .group) ∨ i ∈ c.groupStickies := by
  obtain ⟨stickies, hadd, h⟩ := Option.bind_eq_some_iff.1 h
  have hmem : ∀ i, i ∈ stickies ↔ i = tent.tupid ∨ i ∈ c.stickies := fun i => mem_of_tentTreeAdd hadd
  split at h
  · next htype =>
    obtain ⟨group, hgroup, rfl⟩ := Option.map_eq_some_iff.1 h
    refine ⟨hmem, fun i => ?_⟩
    rw [mem_of_tentTreeAdd hgroup]
    simp [htype]
  · next htype =>
    cases h
    exact ⟨hmem, by simp [htype]⟩

theorem exists_insert {tent : TupEntry} (h : tent.tupid ∉ c.stickies)
    (hgroup : tent.type = .group → tent.tupid ∉ c.groupStickies) : ∃ c', c.insert tent = some c' := by
  unfold Stickies.insert
  rw [tentTreeAdd_of_not_mem h]
  by_cases htype : tent.type = .group
  · refine ⟨⟨tentTreeAddDup c.stickies tent.tupid, tentTreeAddDup c.groupStickies tent.tupid⟩, ?_⟩
    simp [htype, tentTreeAdd_of_not_mem (hgroup htype)]
  · exact ⟨{ c with stickies := tentTreeAddDup c.stickies tent.tupid }, by simp [htype]⟩

theorem remove_spec (tent : TupEntry) :
    (∀ i, i ∈ (c.remove tent).stickies ↔ i ≠ tent.tupid ∧ i ∈ c.stickies) ∧
      ∀ i, i ∈ (c.remove tent).groupStickies ↔
        ¬ (i = tent.tupid ∧ tent.type = .group) ∧ i ∈ c.groupStickies := by
  refine ⟨fun i => mem_tentTreeRemove, fun i => ?_⟩
  by_cases htype : tent.type = .group
  · simp [Stickies.remove, htype]
  · simp [Stickies.remove, htype]

/-- The row is made, and put into the cache when that has been read, be it in this generation or not. -/
theorem linkInsert_sticky_spec (h : s.linkInsert a b .sticky = some s') :
    s'.incoming = s.incoming ∧ Edit Row.never (· = .sticky a b) s.db s'.db ∧
      a ≠ b ∧ HasNode s.db a ∧ HasNode s.db b ∧
      (s.sticky.stamp b = 0 ∧ s'.sticky = s.sticky ∨
        s.sticky.stamp b ≠ 0 ∧ ∃ c, s'.sticky = s.sticky.patch b c ∧
          (∀ i, i ∈ c.stickies ↔ i = a ∨ i ∈ (s.sticky.value b).stickies) ∧
          ∀ i, i ∈ c.groupStickies ↔
            (i = a ∧ s.db.isGroup a = true) ∨ i ∈ (s.sticky.value b).groupStickies) := by
  obtain ⟨db, hdb, hrun⟩ := Option.bind_eq_some_iff.1 h
  obtain ⟨tent, hb, htail⟩ := Option.bind_eq_some_iff.1 hrun
  obtain ⟨srctent, ha, hend⟩ := Option.bind_eq_some_iff.1 htail
  have hedit : Edit Row.never (· = .sticky a b) s.db db := linkInsert_edit hdb
  have hne : a ≠ b := by
    rintro rfl
    simp [Metatup.linkInsert] at hdb
  have hnodea : HasNode s.db a := (hasNode_of_node hedit.node).1 (hasNode_of_tupEntryAdd ha)
  have hnodeb : HasNode s.db b := (hasNode_of_node hedit.node).1 (hasNode_of_tupEntryAdd hb)
  have hgroup := isGroup_eq ha
  rw [isGroup_of_node hedit.node] at hgroup
  obtain ⟨-, rfl⟩ := mem_node_of_tupEntryAdd ha
  split at hend
  · next hstamp =>
    obtain ⟨c, hc, hlast⟩ := Option.bind_eq_some_iff.1 hend
    cases hlast
    obtain ⟨hmem, hgroups⟩ := insert_spec hc
    refine ⟨rfl, hedit, hne, hnodea, hnodeb, .inr ⟨hstamp, c, rfl, hmem, fun i => ?_⟩⟩
    rw [hgroups, hgroup]
  · next hstamp =>
    cases hend
    exact ⟨rfl, hedit, hne, hnodea, hnodeb, .inl ⟨not_not.1 hstamp, rfl⟩⟩

theorem linkRemove_sticky_spec (h : s.linkRemove a b .sticky = some s') :
    s'.incoming = s.incoming ∧ Edit (· = .sticky a b) Row.never s.db s'.db ∧ HasNode s.db b ∧
      (s.sticky.stamp b = 0 ∧ s'.sticky = s.sticky ∨
        s.sticky.stamp b ≠ 0 ∧ ∃ c, s'.sticky = s.sticky.patch b c ∧
          (∀ i, i ∈ c.stickies ↔ i ≠ a ∧ i ∈ (s.sticky.value b).stickies) ∧
          ∀ i, i ∈ c.groupStickies ↔
            ¬ (i = a ∧ s.db.isGroup a = true) ∧ i ∈ (s.sticky.value b).groupStickies) := by
  obtain ⟨tent, hb, hrun⟩ := Option.bind_eq_some_iff.1 h
  obtain ⟨srctent, ha, hend⟩ := Option.bind_eq_some_iff.1 hrun
  have hedit := linkRemove_edit s.db a b .sticky
  have hnodeb : HasNode s.db b := (hasNode_of_node hedit.node).1 (hasNode_of_tupEntryAdd hb)
  have hgroup := isGroup_eq ha
  rw [isGroup_of_node hedit.node] at hgroup
  obtain ⟨-, rfl⟩ := mem_node_of_tupEntryAdd ha
  split at hend
  · next hstamp =>
    cases hend
    obtain ⟨hmem, hgroups⟩ := remove_spec (c := s.sticky.value b) srctent
    refine ⟨rfl, hedit, hnodeb, .inr ⟨hstamp, _, rfl, hmem, fun i => ?_⟩⟩
    rw [hgroups, hgroup]
  · next hstamp =>
    cases hend
    exact ⟨rfl, hedit, hnodeb, .inl ⟨not_not.1 hstamp, rfl⟩⟩

/-- When a sticky link between nodes can be made that is not there. -/
theorem exists_linkInsert_iff (h : s.Inv) (hne : a ≠ b) (ha : HasNode s.db a) (hb : HasNode s.db b)
    (hrow : ¬ s.db.Has (.sticky a b)) :
    (∃ s', s.linkInsert a b .sticky = some s') ↔ a ∉ (s.sticky.value b).stickies := by
  constructor
  · rintro ⟨s', hs'⟩ hmem
    have hread : s.sticky.stamp b ≠ 0 := fun hstamp => h.unread b hstamp a hmem
    obtain ⟨db, hdb, hrun⟩ := Option.bind_eq_some_iff.1 hs'
    obtain ⟨-, -, htail⟩ := Option.bind_eq_some_iff.1 hrun
    obtain ⟨srctent, ha', hend⟩ := Option.bind_eq_some_iff.1 htail
    rw [if_pos hread] at hend
    obtain ⟨c, hc, -⟩ := Option.bind_eq_some_iff.1 hend
    obtain ⟨stickies, hadd, -⟩ := Option.bind_eq_some_iff.1 hc
    rw [(mem_node_of_tupEntryAdd ha').2] at hadd
    simp [tentTreeAdd, hmem] at hadd
  · intro hmem
    have hpos : ∀ i, HasNode s.db i → 0 < i := by
      intro i hi
      obtain ⟨t, ht, rfl⟩ := hasNode_iff.1 hi
      exact h.linked.pos t ht
    obtain ⟨db, hdb⟩ : ∃ db, Metatup.linkInsert s.db a b .sticky = some db := by
      have hvalid : ¬ (a ≤ 0 ∨ b ≤ 0) := not_or.2 ⟨not_le.2 (hpos a ha), not_le.2 (hpos b hb)⟩
      have hfresh : (⟨a, b⟩ : Link) ∉ s.db.links .sticky := hrow
      unfold Metatup.linkInsert
      rw [if_neg hne, if_neg hvalid, if_neg hfresh]
      exact ⟨_, rfl⟩
    have hnode := (linkInsert_edit hdb).node
    obtain ⟨tent, hb'⟩ := Option.isSome_iff_exists.1 ((hasNode_of_node hnode).2 hb)
    obtain ⟨srctent, ha'⟩ := Option.isSome_iff_exists.1 ((hasNode_of_node hnode).2 ha)
    unfold LinkCaches.linkInsert
    dsimp only
    rw [hdb]
    dsimp only [Option.bind_eq_bind, Option.bind_some]
    rw [hb', ha']
    dsimp only [Option.bind_some]
    by_cases hread : s.sticky.stamp b ≠ 0
    · obtain ⟨-, hid⟩ := mem_node_of_tupEntryAdd ha'
      have hgroup : srctent.type = .group → a ∉ (s.sticky.value b).groupStickies := by
        intro htype hg
        refine hmem (h.groups b a hg ?_)
        rw [← isGroup_of_node hnode, isGroup_eq ha']
        exact htype
      obtain ⟨c, hc⟩ : ∃ c, (s.sticky.value b).insert srctent = some c :=
        exists_insert (hid ▸ hmem) (hid ▸ hgroup)
      rw [if_pos hread, hc]
      exact ⟨_, rfl⟩
    · rw [if_neg hread]
      exact ⟨_, rfl⟩

/-- Under the invariant, the caches are coherent when everything cached is in the tables. -/
theorem coherent_iff_kept (h : s.Inv) : Coherent s ↔ s.Kept := by
  constructor
  · intro hco
    refine ⟨fun b i hi => ?_, hco.incoming⟩
    obtain ⟨hne, hnode, hb⟩ := h.ends b i hi
    by_contra hrow
    exact (exists_linkInsert_iff h hne hnode hb hrow).1 (hco.insert i b hne hnode hb hrow) hi
  · intro hk
    refine ⟨fun b hb => tupDbGetInputs_spec h hb, fun a b hne ha hb hrow => ?_, hk.incoming⟩
    exact (exists_linkInsert_iff h hne ha hb hrow).2 fun hmem => hrow (hk.sticky b a hmem)

/-! ### What each operation keeps -/

theorem Db.Linked.of_rows (h : db.Linked) (hnode : db'.node = db.node)
    (hnormal : ∀ i, ¬ NormalAdj db' i i)
    (hsticky : ∀ i j, db'.Has (.sticky i j) → i ≠ j ∧ HasNode db i) : db'.Linked where
  nodup := by rw [hnode]; exact h.nodup
  pos := by rw [hnode]; exact h.pos
  irrefl := hnormal
  sticky i j hrow := by
    rw [hasNode_of_node hnode]
    exact hsticky i j hrow

/-- An operation on normal links. -/
theorem LinkCaches.Inv.of_normal (h : s.Inv) (hnode : s'.db.node = s.db.node)
    (hrows : ∀ i j, s'.db.Has (.sticky i j) ↔ s.db.Has (.sticky i j))
    (hirrefl : ∀ i, ¬ NormalAdj s'.db i i) (hcache : s'.sticky = s.sticky) : s'.Inv := by
  refine ⟨h.linked.of_rows hnode hirrefl fun i j hrow => h.linked.sticky i j ((hrows i j).1 hrow), ?_,
    ?_, ?_, ?_⟩
  · rw [hcache]
    refine h.valid.mono fun b _ hread i => ?_
    rw [hrows, isGroup_of_node hnode]
    exact hread i
  · intro b i hi
    rw [hcache] at hi
    rw [hasNode_of_node hnode, hasNode_of_node hnode]
    exact h.ends b i hi
  · intro b i hi hgroup
    rw [hcache] at hi ⊢
    rw [isGroup_of_node hnode] at hgroup
    exact h.groups b i hi hgroup
  · rw [hcache]
    exact h.unread

theorem LinkCaches.Kept.iff_of_normal (h : s.Kept) (hnode : s'.db.node = s.db.node)
    (hrows : ∀ i j, s'.db.Has (.sticky i j) ↔ s.db.Has (.sticky i j)) (hcache : s'.sticky = s.sticky) :
    s'.Kept ↔ ∀ b c, s'.incoming b = some c → HasNode s.db c ∧ ∀ x, NormalAdj s'.db x b ↔ x = c := by
  have hnodes : ∀ c, HasNode s'.db c ↔ HasNode s.db c := fun c => hasNode_of_node hnode
  constructor
  · intro hk b c hbc
    rw [← hnodes]
    exact hk.incoming b c hbc
  · intro hin
    refine ⟨fun b i hi => ?_, fun b c hbc => ?_⟩
    · rw [hcache] at hi
      exact (hrows i b).2 (h.sticky b i hi)
    · rw [hnodes]
      exact hin b c hbc

theorem insert_normal_step (h : s.Inv) (hrun : s.linkInsert a b .normal = some s') :
    s'.Inv ∧ (s.Kept → (s'.Kept ↔ s.incoming b = none)) := by
  obtain ⟨db, hdb, rfl⟩ := Option.map_eq_some_iff.1 hrun
  have hedit : Edit Row.never (· = .normal a b) s.db db := linkInsert_edit hdb
  have hsticky : ∀ i j, db.Has (.sticky i j) ↔ s.db.Has (.sticky i j) := fun i j => by
    simp [hedit.mem, Row.never]
  have hnormal : ∀ i j, NormalAdj db i j ↔ NormalAdj s.db i j ∨ (i = a ∧ j = b) := fun i j => by
    rw [← has_normal, hedit.mem]
    simp [has_normal, Row.never]
  have hfresh : ¬ NormalAdj s.db a b := fun hadj => hedit.fresh _ rfl hadj
  have hne : a ≠ b := by
    rintro rfl
    simp [Metatup.linkInsert] at hdb
  refine ⟨h.of_normal hedit.node hsticky (fun i hi => ?_) rfl, fun hk => ?_⟩
  · rcases (hnormal i i).1 hi with hi | ⟨rfl, rfl⟩
    · exact h.linked.irrefl i hi
    · exact hne rfl
  refine (hk.iff_of_normal ?_ ?_ ?_).trans ?_
  · exact hedit.node
  · exact hsticky
  · rfl
  constructor
  · intro hin
    cases hc : s.incoming b with
    | none => rfl
    | some c =>
      obtain rfl : a = c := ((hin b c hc).2 a).1 ((hnormal a b).2 (.inr ⟨rfl, rfl⟩))
      exact absurd (((hk.incoming b a hc).2 a).2 rfl) hfresh
  · intro hnone j c hc
    obtain ⟨hnode, hone⟩ := hk.incoming j c hc
    refine ⟨hnode, fun x => ?_⟩
    have hj : j ≠ b := by
      rintro rfl
      rw [hnone] at hc
      cases hc
    rw [hnormal, hone]
    simp [hj]

theorem remove_normal_step (h : s.Inv) (hrun : s.linkRemove a b .normal = some s') :
    s'.Inv ∧ (s.Kept → (s'.Kept ↔ s.incoming b ≠ some a)) := by
  obtain rfl := Option.some.inj hrun
  have hedit := linkRemove_edit s.db a b .normal
  have hsticky : ∀ i j, (Metatup.linkRemove s.db a b .normal).Has (.sticky i j) ↔
      s.db.Has (.sticky i j) := fun i j => .rfl
  have hnormal : ∀ i j, NormalAdj (Metatup.linkRemove s.db a b .normal) i j ↔
      NormalAdj s.db i j ∧ ¬ (i = a ∧ j = b) := fun i j => by
    rw [← has_normal, hedit.mem]
    simp [has_normal, Row.never, LinkType.row]
  refine ⟨h.of_normal hedit.node hsticky (fun i hi => h.linked.irrefl i ((hnormal i i).1 hi).1) rfl,
    fun hk => ?_⟩
  refine (hk.iff_of_normal ?_ ?_ ?_).trans ?_
  · exact hedit.node
  · exact hsticky
  · rfl
  constructor
  · intro hin hc
    exact ((hnormal a b).1 (((hin b a hc).2 a).2 rfl)).2 ⟨rfl, rfl⟩
  · intro hne j c hc
    obtain ⟨hnode, hone⟩ := hk.incoming j c hc
    refine ⟨hnode, fun x => ?_⟩
    rw [hnormal, hone, and_iff_left_of_imp]
    rintro rfl ⟨rfl, rfl⟩
    exact hne hc

theorem hasNode_of_getNormalInputs {root : TentTree} (h : getNormalInputs db b = some root) :
    ∀ i, i ∈ root → HasNode db i := by
  apply Lib.foldlM_keeps (P := fun _ root => ∀ i, i ∈ root → HasNode db i) h
  · simp
  · intro pre x post root root' _ ih hstep i hi
    obtain ⟨tent, ht, hadd⟩ := Option.bind_eq_some_iff.1 hstep
    rcases (mem_of_tentTreeAdd hadd).1 hi with rfl | hi
    · exact hasNode_of_tupEntryAdd (by rw [(mem_node_of_tupEntryAdd ht).2]; exact ht)
    · exact ih i hi

/-- What `tup_db_get_incoming_link` finds when the caches are right. -/
theorem getIncomingLink_spec {m : LinkState} {incoming : Option TupId} (hk : s.Kept)
    (h : tupDbGetIncomingLink s.toLinkState b = some (m, incoming)) :
    m.db = s.db ∧ m.incoming = Function.update s.incoming b incoming ∧
      (∀ x, NormalAdj s.db x b ↔ incoming = some x) ∧ ∀ c, incoming = some c → HasNode s.db c := by
  obtain ⟨hdb, hinc, hnone, hsome⟩ := tupDbGetIncomingLink_spec h
  refine ⟨hdb, hinc, ?_⟩
  cases hb : s.incoming b with
  | some c =>
    obtain ⟨hnode, hone⟩ := hk.incoming b c hb
    obtain rfl := hsome c hb
    refine ⟨fun x => ?_, fun x hx => ?_⟩
    · rw [hone, Option.some.injEq, eq_comm]
    · rwa [← Option.some.inj hx]
  | none =>
    refine ⟨hnone hb, fun c hc => ?_⟩
    unfold tupDbGetIncomingLink at h
    rw [hb] at h
    obtain ⟨root, hroot, -⟩ := Option.bind_eq_some_iff.1 h
    have hadj : NormalAdj s.db c b := (hnone hb c).2 hc
    exact hasNode_of_getNormalInputs hroot c ((mem_getNormalInputs hroot).2 hadj)

theorem getIncoming_step (h : s.Inv) (hrun : s.tupDbGetIncomingLink b = some s') :
    s'.Inv ∧ (s.Kept → s'.Kept) := by
  obtain ⟨⟨m, incoming⟩, hget, rfl⟩ := Option.map_eq_some_iff.1 hrun
  have hdb : m.db = s.db := (tupDbGetIncomingLink_spec hget).1
  have hirrefl : ∀ i, ¬ NormalAdj m.db i i := fun i => hdb ▸ h.linked.irrefl i
  have hrows : ∀ i j, m.db.Has (.sticky i j) ↔ s.db.Has (.sticky i j) := fun i j => by rw [hdb]
  refine ⟨h.of_normal (congrArg Db.node hdb) hrows hirrefl rfl, fun hk => ?_⟩
  obtain ⟨-, hinc, hone, hnode⟩ := getIncomingLink_spec hk hget
  refine (hk.iff_of_normal ?_ ?_ ?_).2 fun j c hc => ?_
  · exact congrArg Db.node hdb
  · exact hrows
  · rfl
  dsimp only at hc ⊢
  rw [hinc] at hc
  rw [hdb]
  by_cases hj : j = b
  · subst hj
    rw [Function.update_self] at hc
    refine ⟨hnode c hc, fun x => ?_⟩
    rw [hone, hc, Option.some.injEq, eq_comm]
  · rw [Function.update_of_ne hj] at hc
    exact hk.incoming j c hc

/-- What taking an output changes: nothing when it has the command already, or else the link of its
command goes, and its link to a group. -/
inductive TakenFrom (a b : TupId) (s : LinkCaches) (r : LinkState) : Prop
  | same (hadj : NormalAdj s.db a b) (hnode : HasNode s.db a)
      (hone : ∀ x, NormalAdj s.db x b ↔ x = a) (hrows : ∀ x y, NormalAdj r.db x y ↔ NormalAdj s.db x y)
      (hin : r.incoming = Function.update s.incoming b (some a))
  | other (c : TupId) (hadj : NormalAdj s.db c b)
      (hrows : ∀ x y, NormalAdj r.db x y ↔ NormalAdj s.db x y ∧ ¬ (x = c ∧ y = b) ∧
        ¬ (x = b ∧ NormalAdj s.db c y ∧ s.db.isGroup y = true))
      (hin : r.incoming = Function.update s.incoming b none)
  | orphan (hno : ∀ c, ¬ NormalAdj s.db c b)
      (hrows : ∀ x y, NormalAdj r.db x y ↔ NormalAdj s.db x y ∧
        ¬ (x = b ∧ s.db.isGroup y = true))
      (hin : r.incoming = Function.update s.incoming b none)

theorem createUnique_spec {r : LinkState} (hk : s.Kept)
    (h : tupDbCreateUniqueLink a s.toLinkState b = some r) :
    r.db.node = s.db.node ∧ (∀ i j, r.db.Has (.sticky i j) ↔ s.db.Has (.sticky i j)) ∧
      TakenFrom a b s r := by
  obtain ⟨⟨m, incoming⟩, hget, h⟩ := Option.bind_eq_some_iff.1 h
  obtain ⟨hdb, hinc, hone, hexists⟩ := getIncomingLink_spec hk hget
  cases incoming with
  | none =>
    obtain ⟨db, hrm, h⟩ := Option.bind_eq_some_iff.1 h
    cases h
    rw [hdb] at hrm
    have hedit := removeFromGroupOf_edit hrm
    refine ⟨hedit.node, fun i j => ?_, .orphan (fun c hc => ?_) (fun x y => ?_) hinc⟩
    · simp [hedit.mem, Row.never]
    · cases (hone c).1 hc
    · rw [← has_normal, hedit.mem]
      simp only [has_normal, Row.never, or_false, Row.normal.injEq]
      grind
  | some c =>
    have hadj : NormalAdj s.db c b := (hone c).2 rfl
    dsimp only at h
    split at h
    · next hca =>
      cases h
      subst hca
      refine ⟨congrArg Db.node hdb, fun i j => by rw [hdb],
        .same hadj (hexists c rfl) (fun x => ?_) (fun x y => by rw [hdb]) hinc⟩
      rw [hone, Option.some.injEq, eq_comm]
    · obtain ⟨db, hrm, h⟩ := Option.bind_eq_some_iff.1 h
      cases h
      rw [hdb] at hrm
      have hedit := (removeFromGroupOf_edit hrm).trans (linkRemove_edit db c b .normal)
      refine ⟨hedit.node, fun i j => ?_, .other c hadj (fun x y => ?_) ?_⟩
      · rw [hedit.mem]
        simp [Row.never, LinkType.row]
      · rw [← has_normal, hedit.mem]
        simp only [has_normal, Row.never, LinkType.row, false_and, or_false, Row.normal.injEq]
        grind
      · dsimp only
        rw [hinc, Function.update_idem]

/-- Taking an output is seen to by the cache, unless it is cached as what is in a group. -/
theorem createUnique_step (h : s.Inv) (hk : s.Kept) (hrun : s.tupDbCreateUniqueLink a b = some s') :
    s'.Inv ∧ (s'.Kept ↔
      (∃ c, NormalAdj s.db c b) ∨ ∀ g, s.db.isGroup g = true → s.incoming g ≠ some b) := by
  obtain ⟨r, hr, rfl⟩ := Option.map_eq_some_iff.1 hrun
  obtain ⟨hnode, hsticky, htaken⟩ := createUnique_spec hk hr
  have hless : ∀ x y, NormalAdj r.db x y → NormalAdj s.db x y := by
    intro x y hxy
    rcases htaken with ⟨-, -, -, hrows, -⟩ | ⟨c, -, hrows, -⟩ | ⟨-, hrows, -⟩
    · exact (hrows x y).1 hxy
    · exact ((hrows x y).1 hxy).1
    · exact ((hrows x y).1 hxy).1
  refine ⟨h.of_normal hnode hsticky (fun i hi => h.linked.irrefl i (hless i i hi)) rfl, ?_⟩
  refine (hk.iff_of_normal ?_ ?_ ?_).trans ?_
  · exact hnode
  · exact hsticky
  · rfl
  dsimp only
  -- what is cached for another node stays right when the links into it stay
  have hcached : ∀ j x, s.incoming j = some x → (∀ y, NormalAdj s.db y j → NormalAdj r.db y j) →
      HasNode s.db x ∧ ∀ y, NormalAdj r.db y j ↔ y = x := by
    intro j x hx hall
    obtain ⟨hx, hone⟩ := hk.incoming j x hx
    exact ⟨hx, fun y => ⟨fun hy => (hone y).1 (hless y j hy), fun hy => hall y ((hone y).2 hy)⟩⟩
  have hupdate : ∀ v j x, r.incoming = Function.update s.incoming b v → r.incoming j = some x →
      (j = b ∧ v = some x) ∨ j ≠ b ∧ s.incoming j = some x := by
    intro v j x hin hx
    rw [hin] at hx
    by_cases hj : j = b
    · subst hj
      rw [Function.update_self] at hx
      exact .inl ⟨rfl, hx⟩
    · rw [Function.update_of_ne hj] at hx
      exact .inr ⟨hj, hx⟩
  rcases htaken with ⟨hadj, ha, hone, hrows, hin⟩ | ⟨c, hadj, hrows, hin⟩ | ⟨hno, hrows, hin⟩
  · refine iff_of_true (fun j x hx => ?_) (.inl ⟨a, hadj⟩)
    rcases hupdate _ j x hin hx with ⟨rfl, hax⟩ | ⟨-, hx⟩
    · obtain rfl := Option.some.inj hax
      exact ⟨ha, fun y => (hrows y j).trans (hone y)⟩
    · exact hcached j x hx fun y hy => (hrows y j).2 hy
  · refine iff_of_true (fun j x hx => ?_) (.inl ⟨c, hadj⟩)
    rcases hupdate _ j x hin hx with ⟨-, hnone⟩ | ⟨hj, hx⟩
    · cases hnone
    refine hcached j x hx fun y hy => (hrows y j).2 ⟨hy, fun hc => hj hc.2, ?_⟩
    rintro ⟨rfl, hcj, -⟩
    -- the one link into the group would be that of the output and that of its command
    have hone := (hk.incoming j x hx).2
    obtain rfl : y = c := ((hone y).1 hy).trans ((hone c).1 hcj).symm
    exact h.linked.irrefl y hadj
  · have hb : s.incoming b = none := by
      cases hb : s.incoming b with
      | none => rfl
      | some c => exact absurd (((hk.incoming b c hb).2 c).2 rfl) (hno c)
    constructor
    · intro hall
      refine .inr fun g hg hgb => ?_
      have hne : g ≠ b := by
        rintro rfl
        rw [hb] at hgb
        cases hgb
      have hr : r.incoming g = some b := by rw [hin, Function.update_of_ne hne, hgb]
      exact ((hrows b g).1 (((hall g b hr).2 b).2 rfl)).2 ⟨rfl, hg⟩
    · rintro (⟨c, hc⟩ | hgroups) j x hx
      · exact absurd hc (hno c)
      rcases hupdate _ j x hin hx with ⟨-, hnone⟩ | ⟨-, hx⟩
      · cases hnone
      refine hcached j x hx fun y hy => (hrows y j).2 ⟨hy, ?_⟩
      rintro ⟨rfl, hg⟩
      exact hgroups j hg (hx.trans (congrArg some (((hk.incoming j x hx).2 y).1 hy).symm))

/-- A change of the rows into `b` that the cache of `b` follows when it has been read; `c` is what the
cache becomes. -/
structure Follows (b : TupId) (c : Stickies) (s s' : LinkCaches) : Prop where
  node : s'.db.node = s.db.node
  normal : ∀ i j, NormalAdj s'.db i j ↔ NormalAdj s.db i j
  incoming : s'.incoming = s.incoming
  other : ∀ i j, j ≠ b → (s'.db.Has (.sticky i j) ↔ s.db.Has (.sticky i j))
  into : ∀ i, s'.db.Has (.sticky i b) → i ≠ b ∧ HasNode s.db i
  hasNode : HasNode s.db b
  cache : s.sticky.stamp b = 0 ∧ s'.sticky = s.sticky ∨
    s.sticky.stamp b ≠ 0 ∧ s'.sticky = s.sticky.patch b c
  groups : s.sticky.stamp b ≠ 0 → ∀ i, i ∈ c.groupStickies → s.db.isGroup i = true → i ∈ c.stickies
  /-- What is new in the cache is in the table, and what is in both stays. -/
  kept : s.sticky.stamp b ≠ 0 → ∀ i, i ∈ c.stickies →
    s'.db.Has (.sticky i b) ∨ i ∈ (s.sticky.value b).stickies ∧ ¬ s.db.Has (.sticky i b)
  read : s.sticky.stamp b ≠ 0 → ReadFrom s.db b (s.sticky.value b) → ReadFrom s'.db b c

namespace Follows

/-- What holds of the inputs that were cached and of what they became for `b` holds of all. -/
theorem forall_value (hf : Follows b c s s') {P : TupId → Stickies → Prop}
    (hold : ∀ j, (j = b → s.sticky.stamp b = 0) → P j (s.sticky.value j))
    (hnew : s.sticky.stamp b ≠ 0 → P b c) : ∀ j, P j (s'.sticky.value j) := by
  intro j
  rcases hf.cache with ⟨hstamp, hcache⟩ | ⟨hstamp, hcache⟩
  · rw [hcache]
    exact hold j fun _ => hstamp
  · rw [hcache]
    by_cases hj : j = b
    · subst hj
      simpa [StampedCache.patch] using hnew hstamp
    · simpa [StampedCache.patch, hj] using hold j fun heq => absurd heq hj

theorem stamp (hf : Follows b c s s') : s'.sticky.stamp = s.sticky.stamp := by
  rcases hf.cache with ⟨-, hcache⟩ | ⟨-, hcache⟩
  · rw [hcache]
  · rw [hcache]
    rfl

theorem valid (hf : Follows b c s s') (h : s.Inv) : s'.sticky.Valid (ReadFrom s'.db) := by
  have hread : ∀ j c, j ≠ b → ReadFrom s.db j c → ReadFrom s'.db j c := by
    intro j c hj hc i
    rw [hf.other i j hj, isGroup_of_node hf.node]
    exact hc i
  rcases hf.cache with ⟨hstamp, hcache⟩ | ⟨hstamp, hcache⟩
  · rw [hcache]
    refine h.valid.mono fun j hj => hread j _ ?_
    rintro rfl
    have hpos := h.valid.pos
    omega
  · rw [hcache]
    exact h.valid.patch (hf.read hstamp) hread

theorem inv (hf : Follows b c s s') (h : s.Inv) : s'.Inv := by
  have hnodes : ∀ i, HasNode s'.db i ↔ HasNode s.db i := fun i => hasNode_of_node hf.node
  refine ⟨?_, hf.valid h, ?_, ?_, ?_⟩
  · refine h.linked.of_rows hf.node (fun i hi => h.linked.irrefl i ((hf.normal i i).1 hi)) ?_
    intro i j hij
    by_cases hj : j = b
    · subst hj
      exact hf.into i hij
    · exact h.linked.sticky i j ((hf.other i j hj).1 hij)
  · refine hf.forall_value (P := fun j c => ∀ i, i ∈ c.stickies →
      i ≠ j ∧ HasNode s'.db i ∧ HasNode s'.db j) ?_ ?_
    · intro j _ i hi
      rw [hnodes, hnodes]
      exact h.ends j i hi
    · intro hread i hi
      rw [hnodes, hnodes]
      rcases hf.kept hread i hi with hrow | ⟨hi, -⟩
      · exact ⟨(hf.into i hrow).1, (hf.into i hrow).2, hf.hasNode⟩
      · exact h.ends b i hi
  · refine hf.forall_value (P := fun _ c => ∀ i, i ∈ c.groupStickies → s'.db.isGroup i = true →
      i ∈ c.stickies) (fun j _ i hi hgroup => ?_) fun hread i hi hgroup => ?_
    all_goals rw [isGroup_of_node hf.node] at hgroup
    · exact h.groups j i hi hgroup
    · exact hf.groups hread i hi hgroup
  · refine hf.forall_value (P := fun j c => s'.sticky.stamp j = 0 → ∀ i, i ∉ c.stickies) ?_ ?_
    · intro j _ hj
      rw [hf.stamp] at hj
      exact h.unread j hj
    · intro hread hj
      rw [hf.stamp] at hj
      exact absurd hj hread

theorem keeps (hf : Follows b c s s') (h : s.Inv) (hk : s.Kept) : s'.Kept := by
  refine ⟨?_, fun j x hx => ?_⟩
  · refine hf.forall_value (P := fun j c => ∀ i, i ∈ c.stickies → s'.db.Has (.sticky i j)) ?_ ?_
    · intro j hj i hi
      by_cases hjb : j = b
      · exact absurd hi (h.unread j (hjb ▸ hj hjb) i)
      · exact (hf.other i j hjb).2 (hk.sticky j i hi)
    · intro hread i hi
      exact (hf.kept hread i hi).resolve_right fun hold => hold.2 (hk.sticky b i hold.1)
  · rw [hf.incoming] at hx
    obtain ⟨hx, hone⟩ := hk.incoming j x hx
    exact ⟨(hasNode_of_node hf.node).2 hx, fun y => (hf.normal y j).trans (hone y)⟩

end Follows

theorem insert_sticky_follows (h : s.Inv) (hrun : s.linkInsert a b .sticky = some s') :
    ∃ c, Follows b c s s' := by
  obtain ⟨hin, hedit, hne, ha, hb, hcache⟩ := linkInsert_sticky_spec hrun
  have hsticky : ∀ i j, s'.db.Has (.sticky i j) ↔ s.db.Has (.sticky i j) ∨ (i = a ∧ j = b) :=
    fun i j => by simp [hedit.mem, Row.never]
  have hnormal : ∀ i j, NormalAdj s'.db i j ↔ NormalAdj s.db i j := fun i j => by
    rw [← has_normal, hedit.mem]
    simp [has_normal, Row.never]
  have hother : ∀ i j, j ≠ b → (s'.db.Has (.sticky i j) ↔ s.db.Has (.sticky i j)) := fun i j hj => by
    rw [hsticky]
    simp [hj]
  have hinto : ∀ i, s'.db.Has (.sticky i b) → i ≠ b ∧ HasNode s.db i := by
    intro i hi
    rcases (hsticky i b).1 hi with hi | ⟨rfl, -⟩
    · exact h.linked.sticky i b hi
    · exact ⟨hne, ha⟩
  rcases hcache with ⟨hstamp, hcache⟩ | ⟨hstamp, c, hcache, hmem, hgroup⟩
  · exact ⟨{}, hedit.node, hnormal, hin, hother, hinto, hb, .inl ⟨hstamp, hcache⟩,
      fun hread => absurd hstamp hread, fun hread => absurd hstamp hread,
      fun hread => absurd hstamp hread⟩
  refine ⟨c, hedit.node, hnormal, hin, hother, hinto, hb, .inr ⟨hstamp, hcache⟩, ?_, ?_, ?_⟩
  · intro _ i hi htype
    rw [hmem]
    exact ((hgroup i).1 hi).imp And.left fun hi => h.groups b i hi htype
  · intro _ i hi
    rw [hsticky]
    rcases (hmem i).1 hi with rfl | hi
    · exact .inl (.inr ⟨rfl, rfl⟩)
    · by_cases hrow : s.db.Has (.sticky i b)
      · exact .inl (.inl hrow)
      · exact .inr ⟨hi, hrow⟩
  · intro _ hold i
    rw [hmem, hgroup, hsticky, (hold i).1, (hold i).2, isGroup_of_node hedit.node]
    grind

theorem remove_sticky_follows (h : s.Inv) (hrun : s.linkRemove a b .sticky = some s') :
    ∃ c, Follows b c s s' := by
  obtain ⟨hin, hedit, hb, hcache⟩ := linkRemove_sticky_spec hrun
  have hsticky : ∀ i j, s'.db.Has (.sticky i j) ↔ s.db.Has (.sticky i j) ∧ ¬ (i = a ∧ j = b) :=
    fun i j => by simp [hedit.mem, Row.never]
  have hnormal : ∀ i j, NormalAdj s'.db i j ↔ NormalAdj s.db i j := fun i j => by
    rw [← has_normal, hedit.mem]
    simp [has_normal, Row.never]
  have hother : ∀ i j, j ≠ b → (s'.db.Has (.sticky i j) ↔ s.db.Has (.sticky i j)) := fun i j hj => by
    rw [hsticky]
    simp [hj]
  have hinto : ∀ i, s'.db.Has (.sticky i b) → i ≠ b ∧ HasNode s.db i := fun i hi =>
    h.linked.sticky i b ((hsticky i b).1 hi).1
  rcases hcache with ⟨hstamp, hcache⟩ | ⟨hstamp, c, hcache, hmem, hgroup⟩
  · exact ⟨{}, hedit.node, hnormal, hin, hother, hinto, hb, .inl ⟨hstamp, hcache⟩,
      fun hread => absurd hstamp hread, fun hread => absurd hstamp hread,
      fun hread => absurd hstamp hread⟩
  refine ⟨c, hedit.node, hnormal, hin, hother, hinto, hb, .inr ⟨hstamp, hcache⟩, ?_, ?_, ?_⟩
  · intro _ i hi htype
    obtain ⟨hne, hi⟩ := (hgroup i).1 hi
    rw [hmem]
    refine ⟨?_, h.groups b i hi htype⟩
    rintro rfl
    exact hne ⟨rfl, htype⟩
  · intro _ i hi
    obtain ⟨hne, hi⟩ := (hmem i).1 hi
    rw [hsticky]
    by_cases hrow : s.db.Has (.sticky i b)
    · exact .inl ⟨hrow, fun heq => hne heq.1⟩
    · exact .inr ⟨hi, hrow⟩
  · intro _ hold i
    rw [hmem, hgroup, hsticky, (hold i).1, (hold i).2, isGroup_of_node hedit.node]
    grind

/-- Asking for inputs reads them, or finds those that have been read in this generation. -/
theorem getInputs_cases (h : s.Inv) (hrun : s.tupDbGetInputs b = some (s', c)) :
    s' = s ∨ HasNode s.db b ∧ ReadFrom s.db b c ∧
      s' = { s with sticky := (s.sticky.drop b {}).fill b c } := by
  obtain ⟨tent, ht, hrun⟩ := Option.bind_eq_some_iff.1 hrun
  by_cases hfresh : s.sticky.stamp b = s.sticky.count
  · have hpos := h.valid.pos
    have hread : ¬ s.sticky.stamp b = 0 := by omega
    rw [if_neg (not_not.2 hfresh), if_neg hread] at hrun
    cases hrun
    exact .inl rfl
  · have hdrop : (s.sticky.drop b {}).stamp b = 0 := Function.update_self _ _ _
    rw [if_pos hfresh, if_pos hdrop] at hrun
    obtain ⟨c', hc, hrun⟩ := Option.bind_eq_some_iff.1 hrun
    cases hrun
    exact .inr ⟨hasNode_of_tupEntryAdd ht, readFrom_getStickies hc, rfl⟩

theorem getInputs_step (h : s.Inv) (hrun : s.tupDbGetInputs b = some (s', c)) :
    s'.Inv ∧ (s.Kept → s'.Kept) := by
  rcases getInputs_cases h hrun with rfl | ⟨hb, hread, rfl⟩
  · exact ⟨h, id⟩
  have hvalue : ∀ {P : TupId → Stickies → Prop}, (∀ j, P j (s.sticky.value j)) → P b c →
      ∀ j, P j (((s.sticky.drop b {}).fill b c).value j) := by
    intro P hold hnew j
    by_cases hj : j = b
    · subst hj
      simpa [StampedCache.fill] using hnew
    · simpa [StampedCache.fill, StampedCache.drop, hj] using hold j
  refine ⟨⟨h.linked, h.valid.drop.fill hread, ?_, ?_, fun j hj => ?_⟩, fun hk => ⟨?_, hk.incoming⟩⟩
  · refine hvalue (P := fun j c => ∀ i, i ∈ c.stickies → i ≠ j ∧ HasNode s.db i ∧ HasNode s.db j)
      h.ends fun i hi => ?_
    obtain ⟨hne, hi⟩ := h.linked.sticky i b ((hread i).1.1 hi)
    exact ⟨hne, hi, hb⟩
  · refine hvalue (P := fun j c => ∀ i, i ∈ c.groupStickies → s.db.isGroup i = true →
      i ∈ c.stickies) h.groups fun i hi _ => ?_
    exact (hread i).1.2 ((hread i).2.1 hi).1
  · have hpos := h.valid.pos
    by_cases hjb : j = b
    · subst hjb
      simp only [StampedCache.fill, StampedCache.drop, Function.update_self] at hj
      omega
    · simp only [StampedCache.fill, StampedCache.drop, Function.update_of_ne hjb] at hj ⊢
      exact h.unread j hj
  · exact hvalue (P := fun j c => ∀ i, i ∈ c.stickies → s.db.Has (.sticky i j)) hk.sticky
      fun i hi => (hread i).1.1 hi

theorem deleteLinks_step (h : s.Inv) (hrun : s.tupDbDeleteLinks i = some s') :
    s'.Inv ∧ (s.Kept → (s'.Kept ↔ Uncached s i)) := by
  obtain ⟨db, hdb, rfl⟩ := Option.map_eq_some_iff.1 hrun
  have hedit := tupDbDeleteLinks_edit hdb
  have hnodes : ∀ j, HasNode db j ↔ HasNode s.db j := fun j => hasNode_of_node hedit.node
  have hsticky : ∀ x y, db.Has (.sticky x y) ↔ s.db.Has (.sticky x y) ∧ ¬ (x = i ∨ y = i) :=
    fun x y => by simp [hedit.mem, Row.never, Row.TouchedBy]
  have hnormal : ∀ x y, NormalAdj db x y ↔ NormalAdj s.db x y ∧ ¬ (x = i ∨ y = i) := fun x y => by
    rw [← has_normal, hedit.mem]
    simp [has_normal, Row.never, Row.TouchedBy]
  refine ⟨⟨?_, h.valid.invalidate _, ?_, ?_, h.unread⟩, fun hk => ⟨fun hk' => ?_, fun hu => ?_⟩⟩
  · refine h.linked.of_rows hedit.node (fun x hx => h.linked.irrefl x ((hnormal x x).1 hx).1) ?_
    exact fun x y hxy => h.linked.sticky x y ((hsticky x y).1 hxy).1
  · intro b j hj
    rw [hnodes, hnodes]
    exact h.ends b j hj
  · intro b j hj hgroup
    rw [isGroup_of_node hedit.node] at hgroup
    exact h.groups b j hj hgroup
  · refine ⟨?_, fun b hb => ?_, fun j hj => ?_, fun b hb => ?_⟩
    · cases hc : s.incoming i with
      | none => rfl
      | some c => exact absurd (.inr rfl) ((hnormal c i).1 (((hk'.incoming i c hc).2 c).2 rfl)).2
    · exact absurd (.inl rfl) ((hnormal i b).1 (((hk'.incoming b i hb).2 i).2 rfl)).2
    · exact absurd (.inr rfl) ((hsticky j i).1 (hk'.sticky i j hj)).2
    · exact absurd (.inl rfl) ((hsticky i b).1 (hk'.sticky b i hb)).2
  · refine ⟨fun b j hj => (hsticky j b).2 ⟨hk.sticky b j hj, ?_⟩, fun b c hc => ?_⟩
    · rintro (rfl | rfl)
      · exact hu.others b hj
      · exact hu.stickies j hj
    · obtain ⟨hnode, hone⟩ := hk.incoming b c hc
      refine ⟨(hnodes c).2 hnode, fun x => ?_⟩
      rw [hnormal, hone, and_iff_left_of_imp]
      rintro rfl (rfl | rfl)
      · exact hu.source b hc
      · rw [hu.incoming] at hc
        cases hc

/-- What deleting a node changes: it goes, or becomes a ghost when something is in it or comes from
it. -/
structure Deleted (i : TupId) (db db' : Db) : Prop where
  rows : ∀ style, db'.links style = db.links style
  hasNode : ∀ j, HasNode db' j ↔ HasNode db j ∧ (nodeHasGhosts db i = true ∨ j ≠ i)
  ids : (db'.node.map TupEntry.tupid).Sublist (db.node.map TupEntry.tupid)
  group : ∀ j, db'.isGroup j = true → db.isGroup j = true

theorem isGroup_of_updateNode {f : TupEntry → TupEntry} (hf : ∀ t, (f t).tupid = t.tupid)
    (htype : ∀ t, (f t).type = .group → t.type = .group) (h : (db.updateNode i f).isGroup j = true) :
    db.isGroup j = true := by
  unfold Db.isGroup at h ⊢
  rw [tupEntryAdd_updateNode db i j hf] at h
  split at h
  · cases ht : tupEntryAdd db j with
    | none =>
      rw [ht] at h
      cases h
    | some t =>
      rw [ht] at h
      simpa using htype t (by simpa using h)
  · exact h

theorem tupDbDeleteNode_deleted (h : tupDbDeleteNode db i = some db') : Deleted i db db' := by
  obtain ⟨tent, -, h⟩ := Option.bind_eq_some_iff.1 h
  obtain ⟨parent, -, h⟩ := Option.bind_eq_some_iff.1 h
  obtain ⟨m, hsrc, h⟩ := Option.bind_eq_some_iff.1 h
  have hm : KeepsRows db m := .checkSrcGhost hsrc
  have hghosts : nodeHasGhosts m i = nodeHasGhosts db i := by
    unfold nodeHasGhosts
    rw [hm.node]
  split at h
  · next hg =>
    cases h
    have hflag : KeepsRows db (if tent.type = .dir then m.addCreate i else m) :=
      hm.trans (.ite (.addCreate m i) (.of_eq rfl rfl rfl))
    generalize (if tent.type = .dir then m.addCreate i else m) = m' at hflag
    -- it gets another type, then another source
    generalize hghost : tupDbSetType m' i .ghost = g
    refine ⟨fun style => ?_, fun j => ?_, ?_, fun j hj => ?_⟩
    · rw [← hflag.links, ← hghost]
      cases style <;> rfl
    · have hsrcid : HasNode (tupDbSetSrcid g i (-1)) j ↔ HasNode g j := hasNode_updateNode fun _ => rfl
      rw [hsrcid, ← hghost, hasNode_setType, hflag.hasNode, ← hghosts, hg]
      simp
    · have hsrcid : (tupDbSetSrcid g i (-1)).node.map TupEntry.tupid = g.node.map TupEntry.tupid :=
        map_tupid_updateNode g i fun _ => rfl
      have htype : (tupDbSetType m' i .ghost).node.map TupEntry.tupid = m'.node.map TupEntry.tupid :=
        map_tupid_updateNode m' i fun _ => rfl
      rw [hsrcid, ← hghost, htype, hflag.node]
    · have hsrcid : g.isGroup j = true := by
        refine isGroup_of_updateNode ?_ ?_ hj
        · exact fun _ => rfl
        · exact fun _ ht => ht
      rw [← hghost] at hsrcid
      rw [← isGroup_of_node hflag.node]
      refine isGroup_of_updateNode ?_ ?_ hsrcid
      · exact fun _ => rfl
      · exact fun _ ht => nomatch ht
  · next hg =>
    cases h
    have hghost : KeepsRows (deleteNode m i) (tupEntryAddGhostTree (deleteNode m i) parent) :=
      .addGhostTree _ _
    refine ⟨fun style => (hghost.links style).trans (hm.links style), fun j => ?_, ?_, fun j hj => ?_⟩
    · rw [hghost.hasNode, hasNode_deleteNode, hm.hasNode, ← hghosts]
      simp [hg, and_comm]
    · rw [hghost.node, ← hm.node]
      exact map_tupid_deleteNode m i
    · rw [isGroup_of_node hghost.node] at hj
      rw [← isGroup_of_node hm.node]
      unfold Db.isGroup at hj ⊢
      rw [tupEntryAdd_deleteNode] at hj
      split at hj
      · cases hj
      · exact hj

/-- A node whose links are gone becomes a ghost; its entry stays. -/
theorem ghost_step (h : s.Inv) (hstale : ∀ b, s.sticky.stamp b ≠ s.sticky.count)
    (hdel : Deleted i s.db db) (hghosts : nodeHasGhosts s.db i = true) :
    ({ s with db := db } : LinkCaches).Inv ∧ (({ s with db := db } : LinkCaches).Kept ↔ s.Kept) := by
  have hnodes : ∀ j, HasNode db j ↔ HasNode s.db j := fun j => by
    rw [hdel.hasNode, hghosts]
    simp
  have hsticky : ∀ x y, db.Has (.sticky x y) ↔ s.db.Has (.sticky x y) := fun x y =>
    iff_of_eq (congrArg (⟨x, y⟩ ∈ ·) (hdel.rows .sticky))
  have hnormal : ∀ x y, NormalAdj db x y ↔ NormalAdj s.db x y := fun x y =>
    iff_of_eq (congrArg (⟨x, y⟩ ∈ ·) (hdel.rows .normal))
  refine ⟨⟨⟨h.linked.nodup.sublist hdel.ids, ?_, ?_, ?_⟩, ?_, ?_, ?_, h.unread⟩, ?_⟩
  · intro t ht
    obtain ⟨u, hu, htu⟩ := List.mem_map.1 (hdel.ids.subset (List.mem_map_of_mem ht))
    exact htu ▸ h.linked.pos u hu
  · exact fun x hx => h.linked.irrefl x ((hnormal x x).1 hx)
  · intro x y hxy
    rw [hnodes]
    exact h.linked.sticky x y ((hsticky x y).1 hxy)
  · exact ⟨h.valid.pos, h.valid.le, fun b hb => absurd hb (hstale b)⟩
  · intro b j hj
    rw [hnodes, hnodes]
    exact h.ends b j hj
  · exact fun b j hj hgroup => h.groups b j hj (hdel.group j hgroup)
  · constructor
    · intro hk
      refine ⟨fun b j hj => (hsticky j b).1 (hk.sticky b j hj), fun b c hc => ?_⟩
      obtain ⟨hnode, hone⟩ := hk.incoming b c hc
      exact ⟨(hnodes c).1 hnode, fun x => (hnormal x b).symm.trans (hone x)⟩
    · intro hk
      refine ⟨fun b j hj => (hsticky j b).2 (hk.sticky b j hj), fun b c hc => ?_⟩
      obtain ⟨hnode, hone⟩ := hk.incoming b c hc
      exact ⟨(hnodes c).2 hnode, fun x => (hnormal x b).trans (hone x)⟩

/-- What removing a node and its entry changes. -/
structure EntryRemoved (i : TupId) (s s' : LinkCaches) : Prop where
  ids : (s'.db.node.map TupEntry.tupid).Sublist (s.db.node.map TupEntry.tupid)
  hasNode : ∀ j, HasNode s'.db j ↔ HasNode s.db j ∧ j ≠ i
  group : ∀ j, s'.db.isGroup j = true → s.db.isGroup j = true
  sticky : ∀ x y, s'.db.Has (.sticky x y) ↔ s.db.Has (.sticky x y) ∧ ¬ (x = i ∨ y = i)
  normal : ∀ x y, NormalAdj s'.db x y ↔ NormalAdj s.db x y ∧ ¬ (x = i ∨ y = i)
  incoming : s'.incoming = Function.update s.incoming i none
  cache : s'.sticky = s.sticky.invalidate.drop i {}
  /-- Nobody holds on to the entry. -/
  free : ∀ b, b ≠ i → HasNode s.db b → i ∉ (s.sticky.value b).stickies

theorem EntryRemoved.step (hr : EntryRemoved i s s') (h : s.Inv) :
    s'.Inv ∧ (s.Kept → (s'.Kept ↔ ∀ b, s.incoming b ≠ some i)) := by
  have hself : (s'.sticky.value i) = {} := by simp [hr.cache, StampedCache.drop]
  have hother : ∀ b, b ≠ i → s'.sticky.value b = s.sticky.value b := fun b hb => by
    simp [hr.cache, StampedCache.drop, StampedCache.invalidate, hb]
  -- what is cached is cached for another node, and is another node
  have hcached : ∀ b j, j ∈ (s'.sticky.value b).stickies →
      b ≠ i ∧ j ≠ i ∧ j ∈ (s.sticky.value b).stickies := by
    intro b j hj
    have hb : b ≠ i := by
      rintro rfl
      rw [hself] at hj
      exact absurd hj (TentTree.not_mem_empty j)
    rw [hother b hb] at hj
    refine ⟨hb, ?_, hj⟩
    rintro rfl
    exact hr.free b hb (h.ends b j hj).2.2 hj
  refine ⟨⟨⟨h.linked.nodup.sublist hr.ids, ?_, ?_, ?_⟩, ?_, ?_, ?_, ?_⟩, fun hk => ⟨?_, ?_⟩⟩
  · intro t ht
    obtain ⟨u, hu, htu⟩ := List.mem_map.1 (hr.ids.subset (List.mem_map_of_mem ht))
    exact htu ▸ h.linked.pos u hu
  · exact fun x hx => h.linked.irrefl x ((hr.normal x x).1 hx).1
  · intro x y hxy
    obtain ⟨hrow, hne⟩ := (hr.sticky x y).1 hxy
    obtain ⟨hxy, hx⟩ := h.linked.sticky x y hrow
    exact ⟨hxy, (hr.hasNode x).2 ⟨hx, fun hxi => hne (.inl hxi)⟩⟩
  · rw [hr.cache]
    exact (h.valid.invalidate _).drop
  · intro b j hj
    obtain ⟨hb, hji, hj⟩ := hcached b j hj
    obtain ⟨hne, hnode, hnodeb⟩ := h.ends b j hj
    exact ⟨hne, (hr.hasNode j).2 ⟨hnode, hji⟩, (hr.hasNode b).2 ⟨hnodeb, hb⟩⟩
  · intro b j hj hgroup
    have hb : b ≠ i := by
      rintro rfl
      rw [hself] at hj
      exact absurd hj (TentTree.not_mem_empty j)
    rw [hother b hb] at hj ⊢
    exact h.groups b j hj (hr.group j hgroup)
  · intro b hb j hj
    obtain ⟨hbi, -, hj⟩ := hcached b j hj
    rw [hr.cache] at hb
    refine h.unread b ?_ j hj
    simpa [StampedCache.drop, StampedCache.invalidate, hbi] using hb
  · intro hk' b hb
    have hbi : b ≠ i := by
      rintro rfl
      exact h.linked.irrefl b (((hk.incoming b b hb).2 b).2 rfl)
    have hb' : s'.incoming b = some i := by rw [hr.incoming, Function.update_of_ne hbi, hb]
    exact ((hr.hasNode i).1 (hk'.incoming b i hb').1).2 rfl
  · intro hnone
    refine ⟨fun b j hj => ?_, fun b c hc => ?_⟩
    · obtain ⟨hb, hji, hj⟩ := hcached b j hj
      exact (hr.sticky j b).2 ⟨hk.sticky b j hj, fun heq => heq.elim hji hb⟩
    · rw [hr.incoming] at hc
      have hbi : b ≠ i := by
        rintro rfl
        rw [Function.update_self] at hc
        cases hc
      rw [Function.update_of_ne hbi] at hc
      have hci : c ≠ i := fun hci => hnone b (hci ▸ hc)
      obtain ⟨hnode, hone⟩ := hk.incoming b c hc
      refine ⟨(hr.hasNode c).2 ⟨hnode, hci⟩, fun x => ?_⟩
      rw [hr.normal, hone, and_iff_left_of_imp]
      rintro rfl heq
      exact heq.elim hci hbi

theorem rmEntry_spec (h : s.rmEntry i = some s') : s'.db = s.db ∧
    s'.incoming = Function.update s.incoming i none ∧ s'.sticky = s.sticky.drop i {} ∧
      ∀ b, b ≠ i → HasNode s.db b → i ∉ (s.sticky.value b).stickies := by
  unfold LinkCaches.rmEntry at h
  split at h
  · cases h
  · next hheld =>
    cases h
    refine ⟨rfl, rfl, rfl, fun b hb hnode hmem => hheld ?_⟩
    obtain ⟨t, ht, rfl⟩ := hasNode_iff.1 hnode
    refine List.any_eq_true.2 ⟨t, ht, ?_⟩
    simp [hb, hmem]

theorem deleteNode_step (h : s.Inv) (hrun : s.deleteNameFile i = some s') :
    s'.Inv ∧ (s.Kept → (s'.Kept ↔
      (∀ b, s.incoming b ≠ some i) ∧ (nodeHasGhosts s.db i = true → Uncached s i))) := by
  obtain ⟨m, hm, hrun⟩ := Option.bind_eq_some_iff.1 hrun
  obtain ⟨db, hdb, hend⟩ := Option.bind_eq_some_iff.1 hrun
  have hflags : ({ s with db := s.db.setFlags (unflagAll s.db.flags i) } : LinkCaches).Inv :=
    h.of_normal rfl (fun _ _ => .rfl) h.linked.irrefl rfl
  obtain ⟨hminv, hmkept⟩ := deleteLinks_step hflags hm
  obtain ⟨db₁, hdb₁, rfl⟩ := Option.map_eq_some_iff.1 hm
  have hedit := tupDbDeleteLinks_edit hdb₁
  have hnode : db₁.node = s.db.node := hedit.node
  have hghosts : nodeHasGhosts db₁ i = nodeHasGhosts s.db i := by
    unfold nodeHasGhosts
    rw [hnode]
  have hdel : Deleted i db₁ db := tupDbDeleteNode_deleted hdb
  dsimp only at hend
  rw [hghosts] at hend
  split at hend
  · next hg =>
    obtain rfl := Option.some.inj hend
    have hstale : ∀ b, s.sticky.invalidate.stamp b ≠ s.sticky.invalidate.count := fun b =>
      Nat.ne_of_lt (Nat.lt_succ_of_le (h.valid.le b))
    obtain ⟨hinv, hkept⟩ := ghost_step hminv hstale hdel (hghosts.trans hg)
    refine ⟨hinv, fun hk => hkept.trans ((hmkept ?_).trans ?_)⟩
    · exact ⟨hk.sticky, hk.incoming⟩
    · constructor
      · exact fun hu => ⟨hu.source, fun _ => ⟨hu.incoming, hu.source, hu.stickies, hu.others⟩⟩
      · rintro ⟨-, hu⟩
        exact ⟨(hu hg).incoming, (hu hg).source, (hu hg).stickies, (hu hg).others⟩
  · next hg =>
    obtain ⟨hsdb, hin, hcache, hfree⟩ := rmEntry_spec hend
    have hlost : nodeHasGhosts db₁ i = false := hghosts.trans (Bool.eq_false_iff.2 hg)
    have hnodes : ∀ j, HasNode db j ↔ HasNode s.db j ∧ j ≠ i := fun j => by
      rw [hdel.hasNode, hlost, hasNode_of_node hnode]
      simp
    have hr : EntryRemoved i s s' := by
      refine ⟨?_, fun j => ?_, fun j hj => ?_, fun x y => ?_, fun x y => ?_, hin, hcache,
        fun b hb hnodeb => hfree b hb ((hnodes b).2 ⟨hnodeb, hb⟩)⟩
      · rw [hsdb, ← hnode]
        exact hdel.ids
      · rw [hsdb]
        exact hnodes j
      · rw [hsdb] at hj
        rw [← isGroup_of_node hnode]
        exact hdel.group j hj
      · rw [hsdb]
        have hrow : db.Has (.sticky x y) ↔ db₁.Has (.sticky x y) :=
          iff_of_eq (congrArg (⟨x, y⟩ ∈ ·) (hdel.rows .sticky))
        rw [hrow, hedit.mem]
        simp [Row.never, Row.TouchedBy, Db.Has, Db.setFlags]
      · rw [hsdb]
        have hrow : NormalAdj db x y ↔ NormalAdj db₁ x y :=
          iff_of_eq (congrArg (⟨x, y⟩ ∈ ·) (hdel.rows .normal))
        rw [hrow, ← has_normal, hedit.mem]
        simp [Row.never, Row.TouchedBy, Db.Has, Db.setFlags, NormalAdj]
    obtain ⟨hinv, hkept⟩ := hr.step h
    refine ⟨hinv, fun hk => (hkept hk).trans (and_iff_left_of_imp fun _ hg' => absurd hg' hg).symm⟩

/-! ### Runs -/

/-- One operation on caches that are coherent. -/
theorem LinkOp.step {op : LinkOp} (h : s.Inv) (hk : s.Kept) (hrun : CacheStep s op s') :
    s'.Inv ∧ (s'.Kept ↔ op.Safe s) := by
  cases op with
  | insert a b style =>
    cases style with
    | normal => exact (insert_normal_step h hrun).imp_right fun hiff => hiff hk
    | sticky =>
      obtain ⟨c, hf⟩ := insert_sticky_follows h hrun
      exact ⟨hf.inv h, iff_of_true (hf.keeps h hk) trivial⟩
  | remove a b style =>
    cases style with
    | normal => exact (remove_normal_step h hrun).imp_right fun hiff => hiff hk
    | sticky =>
      obtain ⟨c, hf⟩ := remove_sticky_follows h hrun
      exact ⟨hf.inv h, iff_of_true (hf.keeps h hk) trivial⟩
  | createUnique a b => exact createUnique_step h hk hrun
  | deleteLinks i => exact (deleteLinks_step h hrun).imp_right fun hiff => hiff hk
  | deleteNode i => exact (deleteNode_step h hrun).imp_right fun hiff => hiff hk
  | getInputs cmdid =>
    obtain ⟨⟨m, c⟩, hget, rfl⟩ := Option.map_eq_some_iff.1 hrun
    obtain ⟨hinv, hkept⟩ := getInputs_step h hget
    exact ⟨hinv, iff_of_true (hkept hk) trivial⟩
  | getIncoming b =>
    obtain ⟨hinv, hkept⟩ := getIncoming_step h hrun
    exact ⟨hinv, iff_of_true (hkept hk) trivial⟩

/-- Nothing is cached at first. -/
theorem start_inv (h : db.Linked) : ({ db := db } : LinkCaches).Inv where
  linked := h
  valid := .init _ _
  ends _ i hi := absurd hi (TentTree.not_mem_empty i)
  groups _ i hi := absurd hi (TentTree.not_mem_empty i)
  unread _ _ i := TentTree.not_mem_empty i

theorem start_kept : ({ db := db } : LinkCaches).Kept where
  sticky _ i hi := absurd hi (TentTree.not_mem_empty i)
  incoming _ _ hc := nomatch hc

/-- From a database whose caches are empty, the runs that only pass through states with coherent caches
are the runs of safe operations. -/
theorem coherent_runs_iff (hdb : db.Linked) : Coherent { db := db } ∧ ∀ tr s,
    Run (fun s op s' => CacheStep s op s' ∧ Coherent s') { db := db } tr s ↔
      Run (fun s op s' => CacheStep s op s' ∧ op.Safe s) { db := db } tr s := by
  refine ⟨(coherent_iff_kept (start_inv hdb)).2 start_kept, fun tr s => ?_⟩
  refine Run.congr_of_invariant (I := fun s => s.Inv ∧ s.Kept) ⟨start_inv hdb, start_kept⟩ ?_ ?_
  · rintro s op s' ⟨hinv, hk⟩
    refine and_congr_right fun hstep => ?_
    obtain ⟨hinv', hiff⟩ := LinkOp.step hinv hk hstep
    rw [coherent_iff_kept hinv', hiff]
  · rintro s op s' ⟨hinv, hk⟩ ⟨hstep, hco⟩
    have hinv' := (LinkOp.step hinv hk hstep).1
    exact ⟨hinv', (coherent_iff_kept hinv').1 hco⟩

end

/-- A command with its output. -/
def outputDb : Db where
  node := [{ tupid := 1, dt := 0, type := .dir, name := ['.'] },
    { tupid := 2, dt := 1, type := .cmd, name := ['c'] },
    { tupid := 3, dt := 1, type := .generated, name := ['o'] }]
  normalLink := [⟨2, 3⟩]

theorem outputDb_linked : outputDb.Linked where
  nodup := by decide
  pos := by decide
  irrefl i h := by
    have hrow : (⟨i, i⟩ : Link) ∈ [(⟨2, 3⟩ : Link)] := h
    grind
  sticky i j h := absurd h List.not_mem_nil

theorem coherent_runs_iff_outputDb : Coherent { db := outputDb } ∧ ∀ tr s,
    Run (fun s op s' => CacheStep s op s' ∧ Coherent s') { db := outputDb } tr s ↔
      Run (fun s op s' => CacheStep s op s' ∧ op.Safe s) { db := outputDb } tr s :=
  coherent_runs_iff outputDb_linked

/-- Once an output has been asked for its command, deleting the command leaves its entry behind. -/
theorem deleted_command_is_cached : ¬ ∀ (db : Db) (tr : List LinkOp) (s : LinkCaches), db.Linked →
    Run CacheStep { db := db } tr s → Coherent s := by
  intro h
  have hrun : (((LinkOp.getIncoming 3).run { db := outputDb }).bind
      (LinkOp.run · (.deleteNode 2))).map (fun s => (s.incoming 3, (tupEntryAdd s.db 2).isSome)) =
        some (some 2, false) := by decide +kernel
  obtain ⟨s, hs, hfound⟩ := Option.map_eq_some_iff.1 hrun
  obtain ⟨m, hm, hs⟩ := Option.bind_eq_some_iff.1 hs
  obtain ⟨hin, hnode⟩ := Prod.mk.inj hfound
  have hco := h outputDb _ s outputDb_linked (Run.snoc (Run.snoc .nil hm) hs)
  have hexists : (tupEntryAdd s.db 2).isSome = true := (hco.incoming 3 2 hin).1
  cases hnode.symm.trans hexists

end Metatup
