import Metatup.Db.LinkEdit

/-!
# The links of a rule

What the evaluation of a rule does to the links of its command, with refactoring off: the outputs
are taken from the commands that had them, then the outputs and the output group are brought up to
date, then the inputs and the group links.

The entry of an output keeps the command that was last found to produce it, `tent->incoming`, for
as long as the process runs; that cache is part of the state. The cache of the sticky links of a
command is not: `sticky_count` invalidates it whenever links are deleted.

* `evaluate`: the three calls in their order.
* `getOutputGroup_spec`, `tupDbGetOutputs_spec`: what the functions that read find.
-/

namespace Metatup

/-- The database and the field `incoming` of the cached entries. -/
structure LinkState where
  db : Db := {}
  incoming : TupId → Option TupId := fun _ => none

/-! ### Reading links -/

/-- Source: `db.c` `get_normal_inputs`, without the check for ghosts -/
def getNormalInputs (db : Db) (i : TupId) : Option TentTree :=
  ((db.normalLink.filter (·.toId = i)).map Link.fromId).foldlM (fun root j => do
    let tent ← tupEntryAdd db j
    tentTreeAdd root tent.tupid) ∅

/-- Source: `db.c` `get_sticky_inputs`, without the groups apart -/
def getStickyInputs (db : Db) (i : TupId) : Option TentTree :=
  ((db.stickyLink.filter (·.toId = i)).map Link.fromId).foldlM (fun root j => do
    let tent ← tupEntryAdd db j
    return tentTreeAddDup root tent.tupid) ∅

/-- Source: `db.c` `get_output_group`; more than one is an error. -/
def getOutputGroup (db : Db) (i : TupId) : Option (Option TupEntry) :=
  match (((db.normalLink.filter (·.fromId = i)).map Link.toId).filterMap (tupEntryAdd db)).filter
      (·.type = .group) with
  | [] => some none
  | [tent] => some (some tent)
  | _ => none

/-- What `tup_db_get_outputs` sorts the targets of a command into. -/
structure CmdOutputs where
  outputRoot : TentTree := ∅
  exclusionRoot : TentTree := ∅
  group : Option TupId := none

/-- The loop body of `tup_db_get_outputs`; `exclusionDt` is `local_exclusion_dt`. -/
def addCmdOutput (exclusionDt : TupId) (out : CmdOutputs) (tent : TupEntry) : Option CmdOutputs :=
  if tent.type = .group then
    if out.group.isSome then none else some { out with group := some tent.tupid }
  else if tent.dt = exclusionDt then do
    let root ← tentTreeAdd out.exclusionRoot tent.tupid
    return { out with exclusionRoot := root }
  else do
    let root ← tentTreeAdd out.outputRoot tent.tupid
    return { out with outputRoot := root }

/-- Source: `db.c` `tup_db_get_outputs` -/
def tupDbGetOutputs (exclusionDt : TupId) (db : Db) (cmdid : TupId) : Option CmdOutputs := do
  let tents ← getOutputs db cmdid
  tents.foldlM (addCmdOutput exclusionDt) {}

/-- Source: `db.c` `tup_db_get_incoming_link` -/
def tupDbGetIncomingLink (s : LinkState) (b : TupId) : Option (LinkState × Option TupId) :=
  match s.incoming b with
  | some c => some (s, some c)
  | none => do
    let root ← getNormalInputs s.db b
    match root.ids with
    | [] => some (s, none)
    | [c] => some ({ s with incoming := Function.update s.incoming b (some c) }, some c)
    | _ => none

/-! ### Taking an output -/

/-- Drop the link of `b` to the output group of `i`. -/
def removeFromGroupOf (db : Db) (i b : TupId) : Option Db := do
  let group ← getOutputGroup db i
  match group with
  | some tent => some (tupEntryAddGhostTree (linkRemove db b tent.tupid .normal) tent)
  | none => some db

/-- Source: `db.c` `tup_db_create_unique_link` -/
def tupDbCreateUniqueLink (a : TupId) (s : LinkState) (b : TupId) : Option LinkState := do
  let (s, incoming) ← tupDbGetIncomingLink s b
  match incoming with
  | some c =>
    if c = a then some s
    else do
      -- the old group of the output goes with the old link
      let db ← removeFromGroupOf s.db c b
      some { db := linkRemove db c b .normal, incoming := Function.update s.incoming b none }
  | none => do
    -- an output without a command can still be in the group of the command it had
    let db ← removeFromGroupOf s.db b b
    some { s with db := db }

/-! ### Writing outputs -/

/-- What the callbacks of `tup_db_write_outputs` change: the database and `outputs_differ`. -/
structure ParseOutputState where
  db : Db
  outputsDiffer : Bool

/-- Source: `db.c` `add_output` -/
def addOutput (cmdid : TupId) (group : Option TupId) (s : ParseOutputState) (i : TupId) :
    Option ParseOutputState := do
  let db ← linkInsert s.db cmdid i .normal
  let db ← group.elim (some db) fun g => linkInsert db i g .normal
  return { db := db, outputsDiffer := true }

/-- Source: `db.c` `rm_output` -/
def rmOutput (cmdid : TupId) (group : Option TupId) (s : ParseOutputState) (i : TupId) :
    Option ParseOutputState := do
  let tent ← tupEntryAdd s.db i
  let db := linkRemove s.db cmdid i .normal
  let db := group.elim db fun g => linkRemove db i g .normal
  -- an exclusion that is removed might now be unused
  let db := if tent.type = .ghost then tupEntryAddGhostTree db tent else db
  return { db := db, outputsDiffer := true }

/-- The links to a new group: those of all new outputs, then the one of the command. -/
def joinGroup (cmdid : TupId) (outputRoot : TentTree) (db : Db) (g : TupId) : Option Db := do
  let db ← outputRoot.ids.foldlM (fun db o => linkInsert db o g .normal) db
  linkInsert db cmdid g .normal

/-- The links to the old group go: those of all old outputs, whose dependents have to run, then the
one of the command. -/
def leaveGroup (cmdid : TupId) (outputRoot : TentTree) (db : Db) (g : TupId) : Option Db := do
  let tent ← tupEntryAdd db g
  let db := outputRoot.ids.foldl
    (fun db o => tupDbModifyCmdsByInput (linkRemove db o g .normal) o) db
  return tupEntryAddGhostTree ((linkRemove db cmdid g .normal).addModify g) tent

/-- What `tup_db_write_outputs` does when the group is not the old one. -/
def changeGroup (cmdid : TupId) (old : CmdOutputs) (root : TentTree) (group : Option TupId)
    (db : Db) : Option Db :=
  if old.group = group then some db
  else do
    let db ← group.elim (some db) (joinGroup cmdid root db)
    old.group.elim (some db) (leaveGroup cmdid old.outputRoot db)

/-- What `tup_db_write_outputs` does to the flags when the outputs differ. -/
def flagOutputsDiffer (cmdtent : TupEntry) (group : Option TupId) (db : Db) : Db :=
  let db := db.addModify cmdtent.tupid
  let db := if isTransientTent cmdtent then
    db.setFlags (tupDbAddTransientList db.flags cmdtent.tupid) else db
  group.elim db db.addModify

/-- Source: `db.c` `tup_db_write_outputs`; also returns the old group. -/
def tupDbWriteOutputs (exclusionDt : TupId) (db : Db) (cmdtent : TupEntry)
    (root exclusionRoot : TentTree) (group : Option TupId) (commandModified : Bool) :
    Option (Db × Option TupId) := do
  let cmdid := cmdtent.tupid
  let old ← tupDbGetOutputs exclusionDt db cmdid
  let podGroup := if old.group = group then group else none
  let db ← changeGroup cmdid old root group db
  let s ← compareTentTrees old.outputRoot root (rmOutput cmdid podGroup) (addOutput cmdid podGroup)
    { db := db, outputsDiffer := commandModified || decide (old.group ≠ group) }
  -- exclusions don't go in groups
  let s ← compareTentTrees old.exclusionRoot exclusionRoot (rmOutput cmdid none)
    (addOutput cmdid none) s
  return (if s.outputsDiffer then flagOutputsDiffer cmdtent group s.db else s.db, old.group)

/-! ### Writing inputs -/

/-- Source: `db.c` `struct write_input_data`: what the callbacks do not change. -/
structure WriteInputData where
  cmdid : TupId
  /-- The group of the command when it has not changed. -/
  groupid : Option TupId
  envRoot : TentTree

/-- What the callbacks change: the database and `normal_links_invalid`. -/
structure WriteInputState where
  db : Db
  normalLinksInvalid : Bool := false

/-- The group link of a new group input, when the group of the command has not changed. -/
def addStickyGroup (wid : WriteInputData) (db : Db) (tent : TupEntry) : Option Db :=
  if tent.type = .group then
    wid.groupid.elim (some db) fun g => groupLinkInsert db tent.tupid g wid.cmdid
  else some db

/-- The normal link of a new input from the environment, which may be a new variable. -/
def addStickyEnv (wid : WriteInputData) (db : Db) (i : TupId) : Option Db :=
  if tentTreeSearch wid.envRoot i then
    (linkInsert db i wid.cmdid .normal).map fun db => db.addModify wid.cmdid
  else some db

/-- Source: `db.c` `add_sticky` -/
def addSticky (wid : WriteInputData) (s : WriteInputState) (i : TupId) :
    Option WriteInputState := do
  let tent ← tupEntryAdd s.db i
  let db ← addStickyGroup wid s.db tent
  let db ← addStickyEnv wid db i
  let db ← linkInsert db i wid.cmdid .sticky
  return { s with db := db }

/-- Source: `db.c` `rm_sticky` -/
def rmSticky (wid : WriteInputData) (s : WriteInputState) (i : TupId) :
    Option WriteInputState := do
  let tent ← tupEntryAdd s.db i
  let db := linkRemove s.db i wid.cmdid .sticky
  let db := if tupDbLinkExists db i wid.cmdid .normal then
      (linkRemove db i wid.cmdid .normal).addModify wid.cmdid
    else db
  if tent.type = .group then
    let db := tupEntryAddGhostTree db tent
    some { db := wid.groupid.elim db fun g => groupLinkRemove db i g wid.cmdid,
           normalLinksInvalid := true }
  else some { s with db := db }

/-- What `tup_db_write_inputs` does when a group input has gone: all normal inputs go, and the ones
for the environment come back. -/
def renewNormalInputs (wid : WriteInputData) (s : WriteInputState) : Option Db :=
  if s.normalLinksInvalid then
    wid.envRoot.ids.foldlM (fun db e => linkInsert db e wid.cmdid .normal)
      (deleteNormalInputs (s.db.addModify wid.cmdid) wid.cmdid)
  else some s.db

/-- The group links of a command to its new group. -/
def addGroupLinks (cmdid : TupId) (inputRoot : TentTree) (db : Db) (g : TupId) : Option Db :=
  inputRoot.ids.foldlM (fun db i => do
    let tent ← tupEntryAdd db i
    if tent.type = .group then groupLinkInsert db i g cmdid else some db) db

/-- What `tup_db_write_inputs` does when the group is not the old one. -/
def changeGroupLinks (cmdid : TupId) (inputRoot : TentTree) (group oldGroup : Option TupId)
    (db : Db) : Option Db :=
  if group = oldGroup then some db
  else
    let db := if oldGroup.isSome then deleteGroupLinks db cmdid else db
    group.elim (some db) (addGroupLinks cmdid inputRoot db)

/-- Source: `db.c` `tup_db_write_inputs`. What it notes for the later search for circular groups is
left out. -/
def tupDbWriteInputs (db : Db) (cmdid : TupId) (inputRoot envRoot : TentTree)
    (group oldGroup : Option TupId) : Option Db := do
  let wid : WriteInputData :=
    { cmdid, groupid := if group = oldGroup then group else none, envRoot }
  let stickyRoot ← getStickyInputs db cmdid
  let s ← compareTentTrees inputRoot stickyRoot (addSticky wid) (rmSticky wid) { db := db }
  let db ← renewNormalInputs wid s
  changeGroupLinks cmdid inputRoot group oldGroup db

/-! ### Rules -/

/-- What the evaluation of a rule hands to the three functions. -/
structure Evaluation where
  cmdid : TupId
  /-- The outputs, in the order of the rule. -/
  outputs : List TupId
  exclusionRoot : TentTree
  group : Option TupId
  inputRoot : TentTree
  envRoot : TentTree
  commandModified : Bool

/-- The links of a rule, as the end of `do_rule` writes them. Source: `parser.c` `do_rule` -/
def evaluate (exclusionDt : TupId) (s : LinkState) (e : Evaluation) : Option LinkState := do
  let cmdtent ← tupEntryAdd s.db e.cmdid
  let outputRoot ← e.outputs.foldlM tentTreeAdd ∅
  let s ← e.outputs.foldlM (tupDbCreateUniqueLink e.cmdid) s
  let (db, oldGroup) ← tupDbWriteOutputs exclusionDt s.db cmdtent outputRoot e.exclusionRoot
    e.group e.commandModified
  let db ← tupDbWriteInputs db e.cmdid e.inputRoot e.envRoot e.group oldGroup
  return { s with db := db }

/-! ### What reading finds -/

/-- The node is a group. -/
def Db.isGroup (db : Db) (i : TupId) : Bool := (tupEntryAdd db i).any (·.type = .group)

/-- The node is a command. -/
def Db.isCmd (db : Db) (i : TupId) : Bool := (tupEntryAdd db i).any (·.type = .cmd)

/-- The node is an output exclusion. -/
def Db.isExclusion (exclusionDt : TupId) (db : Db) (i : TupId) : Bool :=
  (tupEntryAdd db i).any (·.dt = exclusionDt)

section

variable {db db' : Db} {i j g : TupId} {exclusionDt : TupId}

theorem isGroup_congr (h : db'.node = db.node) (i : TupId) : db'.isGroup i = db.isGroup i := by
  unfold Db.isGroup tupEntryAdd
  rw [h]

theorem isCmd_congr (h : db'.node = db.node) (i : TupId) : db'.isCmd i = db.isCmd i := by
  unfold Db.isCmd tupEntryAdd
  rw [h]

theorem isExclusion_congr (h : db'.node = db.node) (i : TupId) :
    db'.isExclusion exclusionDt i = db.isExclusion exclusionDt i := by
  unfold Db.isExclusion tupEntryAdd
  rw [h]

theorem isGroup_of_tupEntryAdd {t : TupEntry} (h : tupEntryAdd db i = some t) :
    db.isGroup i = true ↔ t.type = .group := by
  simp [Db.isGroup, h]

/-- A group is no command. -/
theorem not_isCmd_of_isGroup (h : db.isGroup i = true) : db.isCmd i = false := by
  unfold Db.isGroup at h
  unfold Db.isCmd
  cases ht : tupEntryAdd db i with
  | none => rfl
  | some t =>
    rw [ht] at h
    simp only [Option.any_some, decide_eq_true_eq] at h
    simp [h]

theorem mem_sources_iff {links : List Link} {a b : TupId} :
    a ∈ (links.filter (·.toId = b)).map Link.fromId ↔ ⟨a, b⟩ ∈ links := by
  simp only [List.mem_map, List.mem_filter, decide_eq_true_eq]
  constructor
  · rintro ⟨l, ⟨hl, rfl⟩, rfl⟩
    exact hl
  · exact fun hl => ⟨_, ⟨hl, rfl⟩, rfl⟩

theorem mem_targets_iff {links : List Link} {a b : TupId} :
    b ∈ (links.filter (·.fromId = a)).map Link.toId ↔ ⟨a, b⟩ ∈ links := by
  simp only [List.mem_map, List.mem_filter, decide_eq_true_eq]
  constructor
  · rintro ⟨l, ⟨hl, rfl⟩, rfl⟩
    exact hl
  · exact fun hl => ⟨_, ⟨hl, rfl⟩, rfl⟩

theorem mem_of_tentTreeAdd {t t' : TentTree} (h : tentTreeAdd t i = some t') :
    j ∈ t' ↔ j = i ∨ j ∈ t := by
  unfold tentTreeAdd at h
  split at h
  · cases h
  · cases h
    exact mem_tentTreeAddDup

theorem mem_foldlM_tentTreeAdd {l : List TupId} {t : TentTree}
    (h : l.foldlM tentTreeAdd ∅ = some t) : i ∈ t ↔ i ∈ l := by
  revert i
  apply Lib.foldlM_keeps (P := fun pre t => ∀ {i}, i ∈ t ↔ i ∈ pre) h
  · simp
  · intro pre x post s s' _ ih hs i
    rw [mem_of_tentTreeAdd hs, ih, List.mem_append, List.mem_singleton, or_comm]

theorem mem_getNormalInputs {root : TentTree} (h : getNormalInputs db i = some root) :
    j ∈ root ↔ NormalAdj db j i := by
  have key : ∀ j, j ∈ root ↔ j ∈ (db.normalLink.filter (·.toId = i)).map Link.fromId := by
    apply Lib.foldlM_keeps (P := fun pre root => ∀ j, j ∈ root ↔ j ∈ pre) h
    · simp
    · intro pre x post s s' _ ih hs j
      obtain ⟨t, ht, hadd⟩ := Option.bind_eq_some_iff.1 hs
      obtain ⟨-, rfl⟩ := mem_node_of_tupEntryAdd ht
      rw [mem_of_tentTreeAdd hadd, ih, List.mem_append, List.mem_singleton, or_comm]
  rw [key, mem_sources_iff]
  rfl

theorem mem_getStickyInputs {root : TentTree} (h : getStickyInputs db i = some root) :
    j ∈ root ↔ db.Has (.sticky j i) := by
  have key : ∀ j, j ∈ root ↔ j ∈ (db.stickyLink.filter (·.toId = i)).map Link.fromId := by
    apply Lib.foldlM_keeps (P := fun pre root => ∀ j, j ∈ root ↔ j ∈ pre) h
    · simp
    · intro pre x post s s' _ ih hs j
      obtain ⟨t, ht, hadd⟩ := Option.bind_eq_some_iff.1 hs
      obtain ⟨-, rfl⟩ := mem_node_of_tupEntryAdd ht
      cases hadd
      rw [mem_tentTreeAddDup, ih, List.mem_append, List.mem_singleton, or_comm]
  rw [key, mem_sources_iff]
  rfl

/-- The output group of a node is the one group it is linked to. -/
theorem getOutputGroup_spec {group : Option TupEntry} (h : getOutputGroup db i = some group) :
    (NormalAdj db i g ∧ db.isGroup g = true) ↔ ∃ tent, group = some tent ∧ tent.tupid = g := by
  have key : ∀ tent, tent ∈ (((db.normalLink.filter (·.fromId = i)).map Link.toId).filterMap
      (tupEntryAdd db)).filter (·.type = .group) ↔
        NormalAdj db i tent.tupid ∧ tupEntryAdd db tent.tupid = some tent ∧ tent.type = .group := by
    intro tent
    simp only [List.mem_filter, List.mem_filterMap, mem_targets_iff, decide_eq_true_eq]
    constructor
    · rintro ⟨⟨j, hj, ht⟩, htype⟩
      obtain ⟨-, rfl⟩ := mem_node_of_tupEntryAdd ht
      exact ⟨hj, ht, htype⟩
    · rintro ⟨hj, ht, htype⟩
      exact ⟨⟨_, hj, ht⟩, htype⟩
  have hgroup : ∀ tent, group = some tent ↔
      NormalAdj db i tent.tupid ∧ tupEntryAdd db tent.tupid = some tent ∧ tent.type = .group := by
    intro tent
    rw [← key]
    unfold getOutputGroup at h
    split at h
    · next hl =>
      cases h
      rw [hl]
      simp
    · next hl =>
      cases h
      rw [hl]
      simp [eq_comm]
    · cases h
  constructor
  · rintro ⟨hadj, hg⟩
    obtain ⟨tent, ht, htype⟩ := (Option.any_eq_true _ _).1 hg
    obtain ⟨-, rfl⟩ := mem_node_of_tupEntryAdd ht
    exact ⟨tent, (hgroup tent).2 ⟨hadj, ht, by simpa using htype⟩, rfl⟩
  · rintro ⟨tent, hsome, rfl⟩
    obtain ⟨hadj, ht, htype⟩ := (hgroup tent).1 hsome
    exact ⟨hadj, (isGroup_of_tupEntryAdd ht).2 htype⟩

/-- What the targets of a command are sorted into. -/
structure CmdOutputs.Of (exclusionDt : TupId) (db : Db) (c : TupId) (out : CmdOutputs) : Prop where
  output : ∀ o, o ∈ out.outputRoot ↔
    NormalAdj db c o ∧ db.isGroup o = false ∧ db.isExclusion exclusionDt o = false
  exclusion : ∀ o, o ∈ out.exclusionRoot ↔
    NormalAdj db c o ∧ db.isGroup o = false ∧ db.isExclusion exclusionDt o = true
  group : ∀ g, out.group = some g ↔ NormalAdj db c g ∧ db.isGroup g = true

/-- One round of `tup_db_get_outputs`, over the targets so far. -/
theorem addCmdOutput_spec {out out' : CmdOutputs} {tent : TupEntry} {T : TupId → Prop}
    (ht : tupEntryAdd db tent.tupid = some tent)
    (h1 : ∀ o, o ∈ out.outputRoot ↔
      T o ∧ db.isGroup o = false ∧ db.isExclusion exclusionDt o = false)
    (h2 : ∀ o, o ∈ out.exclusionRoot ↔
      T o ∧ db.isGroup o = false ∧ db.isExclusion exclusionDt o = true)
    (h3 : ∀ g, out.group = some g ↔ T g ∧ db.isGroup g = true)
    (h : addCmdOutput exclusionDt out tent = some out') :
    (∀ o, o ∈ out'.outputRoot ↔
      (T o ∨ o = tent.tupid) ∧ db.isGroup o = false ∧ db.isExclusion exclusionDt o = false) ∧
    (∀ o, o ∈ out'.exclusionRoot ↔
      (T o ∨ o = tent.tupid) ∧ db.isGroup o = false ∧ db.isExclusion exclusionDt o = true) ∧
    ∀ g, out'.group = some g ↔ (T g ∨ g = tent.tupid) ∧ db.isGroup g = true := by
  have hgrp : db.isGroup tent.tupid = decide (tent.type = .group) := by simp [Db.isGroup, ht]
  have hexc : db.isExclusion exclusionDt tent.tupid = decide (tent.dt = exclusionDt) := by
    simp [Db.isExclusion, ht]
  unfold addCmdOutput at h
  split at h
  · next htype =>
    split at h
    · cases h
    · next hnone =>
      cases h
      simp only [Option.not_isSome_iff_eq_none] at hnone
      refine ⟨?_, ?_, ?_⟩
      · intro o
        rw [h1]
        grind
      · intro o
        rw [h2]
        grind
      · intro g
        have := h3 g
        grind
  · next htype =>
    split at h
    · next hdt =>
      obtain ⟨root, hroot, h⟩ := Option.bind_eq_some_iff.1 h
      cases h
      have hmem := fun j => mem_of_tentTreeAdd (j := j) hroot
      refine ⟨?_, ?_, ?_⟩
      · intro o
        rw [h1]
        grind
      · intro o
        rw [hmem, h2]
        grind
      · intro g
        rw [h3]
        grind
    · next hdt =>
      obtain ⟨root, hroot, h⟩ := Option.bind_eq_some_iff.1 h
      cases h
      have hmem := fun j => mem_of_tentTreeAdd (j := j) hroot
      refine ⟨?_, ?_, ?_⟩
      · intro o
        rw [hmem, h1]
        grind
      · intro o
        rw [h2]
        grind
      · intro g
        rw [h3]
        grind

theorem mem_getOutputs {tents : List TupEntry} (h : getOutputs db i = some tents) :
    (∀ t ∈ tents, tupEntryAdd db t.tupid = some t) ∧
      ∀ j, NormalAdj db i j ↔ ∃ t ∈ tents, t.tupid = j := by
  have key : ∀ (l : List TupId) (tents : List TupEntry), l.mapM (tupEntryAdd db) = some tents →
      (∀ t ∈ tents, tupEntryAdd db t.tupid = some t) ∧ ∀ j, j ∈ l ↔ ∃ t ∈ tents, t.tupid = j := by
    intro l
    induction l with
    | nil =>
      rintro tents h
      cases h
      simp
    | cons k l ih =>
      intro tents h
      rw [List.mapM_cons, Option.bind_eq_bind, Option.bind_eq_some_iff] at h
      obtain ⟨t, ht, h⟩ := h
      obtain ⟨rest, hrest, h⟩ := Option.bind_eq_some_iff.1 h
      cases h
      obtain ⟨-, rfl⟩ := mem_node_of_tupEntryAdd ht
      obtain ⟨h1, h2⟩ := ih rest hrest
      refine ⟨?_, ?_⟩
      · intro u hu
        rcases List.mem_cons.1 hu with rfl | hu
        · exact ht
        · exact h1 u hu
      · intro j
        rw [List.mem_cons, h2]
        simp [eq_comm]
  obtain ⟨h1, h2⟩ := key _ _ h
  refine ⟨h1, fun j => ?_⟩
  rw [← h2, mem_targets_iff]
  rfl

theorem tupDbGetOutputs_spec {out : CmdOutputs} (h : tupDbGetOutputs exclusionDt db i = some out) :
    out.Of exclusionDt db i := by
  obtain ⟨tents, htents, h⟩ := Option.bind_eq_some_iff.1 h
  obtain ⟨hent, hadj⟩ := mem_getOutputs htents
  have key := Lib.foldlM_keeps (P := fun pre out =>
      (∀ o, o ∈ out.outputRoot ↔ (∃ t ∈ pre, t.tupid = o) ∧ db.isGroup o = false ∧
        db.isExclusion exclusionDt o = false) ∧
      (∀ o, o ∈ out.exclusionRoot ↔ (∃ t ∈ pre, t.tupid = o) ∧ db.isGroup o = false ∧
        db.isExclusion exclusionDt o = true) ∧
      ∀ g, out.group = some g ↔ (∃ t ∈ pre, t.tupid = g) ∧ db.isGroup g = true) h
    (by simp) (by
      rintro pre t post s s' rfl ⟨h1, h2, h3⟩ hs
      have hT : ∀ o, (∃ u ∈ pre ++ [t], u.tupid = o) ↔
          (∃ u ∈ pre, u.tupid = o) ∨ o = t.tupid := by
        intro o
        simp only [List.mem_append, List.mem_singleton, or_and_right, exists_or, exists_eq_left,
          eq_comm (a := o)]
      simp only [hT]
      exact addCmdOutput_spec (hent t (by simp)) h1 h2 h3 hs)
  obtain ⟨h1, h2, h3⟩ := key
  refine ⟨?_, ?_, ?_⟩
  · intro o
    rw [h1, hadj]
  · intro o
    rw [h2, hadj]
  · intro g
    rw [h3, hadj]

end

end Metatup
