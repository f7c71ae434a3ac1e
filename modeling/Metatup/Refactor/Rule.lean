import Metatup.Db.CreateNode
import Metatup.Db.RuleLinks

/-!
# Refactoring

What the evaluation of a rule does to the database, with the checks that refactoring adds. The paths
of the rule have been resolved, and its command and its inputs have been expanded.

* `doRuleOutputs`, `ruleCommand`, `doRule`: the evaluation of one rule.
* `PassState.changes`: what the updater compares at the end of the pass.
-/

namespace Metatup

/-- What ends a parse. All but the first and the last are reported as a `tup refactoring error`. -/
inductive Refusal
  /-- An error in a Tupfile that is reported with refactoring off as well, or one of a query. -/
  | tupError
  /-- "Attempting to create a new command" -/
  | createCommand (cmd : Text)
  /-- "Attempting to modify a command string" -/
  | modifyCommandString (old new : Text)
  /-- "Attempting to modify a command's flags" -/
  | modifyFlags (old new : Text)
  /-- "Attempting to modify a command's allow_read list." -/
  | modifyAllowRead
  /-- "Attempting to add a new output to a command" -/
  | addOutput (i : TupId)
  /-- "Attempting to remove an output from a command" -/
  | removeOutput (i : TupId)
  /-- "Attempting to add a new output group to command" -/
  | addOutputGroup (cmdid g : TupId)
  /-- "Attempting to remove the output group from command" -/
  | removeOutputGroup (cmdid g : TupId)
  /-- "Attempting to add a new input link" -/
  | addInput (i : TupId)
  /-- "Attempting to remove an input link" -/
  | removeInput (i : TupId)
  /-- "Attempting to delete a command" -/
  | deleteCommand (i : TupId)
  /-- "Attempting to create a new .gitignore file." -/
  | createGitignore
  /-- "Attempting to remove the .gitignore file." -/
  | removeGitignore
  /-- "The database changed while refactoring." -/
  | databaseChanged
  deriving DecidableEq, Repr

/-- The result of a step, or what it reports. -/
abbrev Checked (α : Type) := Except (List Refusal) α

/-- A step that ends in this report. -/
def refuse {α : Type} (r : Refusal) : Checked α := .error [r]

/-- A step that fails with an ordinary error. -/
def need {α : Type} : Option α → Checked α
  | some a => .ok a
  | none => refuse .tupError

/-- An entry of the output lists of a rule, with the directory that its path leads to. -/
inductive OutputSpec
  | group (dt : TupId) (name : Text)
  | exclusion (name : Text)
  /-- `path` is the name with the directories in front of it, as the rule has it. -/
  | file (dt : TupId) (base path : Text)
  deriving DecidableEq, Repr

/-- A rule. -/
structure RuleSpec where
  /-- The directory of the command. -/
  curtent : TupId
  cmd : Text
  display : Text := []
  flags : Text := []
  allowReads : List Text := []
  outputs : List OutputSpec := []
  extraOutputs : List OutputSpec := []
  inputs : List TupId := []
  orderOnlyInputs : List TupId := []
  envRoot : TentTree := ∅

/-- The state of a pass over the Tupfiles: the database, the fields of `struct graph` that the
parser uses, and those of the `struct tupfile` of each directory. -/
structure PassState where
  link : LinkState := {}
  /-- What `tup_db_changes` has grown by: the changes that are not expected. -/
  changes : ℕ := 0
  /-- The directories whose `parsing` flag is set. -/
  parsing : List TupId := []
  /-- Those whose parse has not ended. -/
  running : List TupId := []
  cmdRoot : TupId → TentTree := fun _ => ∅
  refactoringCmdDeleteRoot : TupId → TentTree := fun _ => ∅
  cmdDeleteRoot : TentTree := ∅
  genDeleteRoot : TentTree := ∅
  saveRoot : TentTree := ∅
  normalDirRoot : TentTree := ∅

/-- What does not change during a pass. -/
structure PassEnv where
  fuel : ℕ
  /-- Source: `db.c` `exclusion_dt` -/
  exclusionDt : TupId
  /-- Source: `graph.c` `find_node`, as a test -/
  inGraph : TupId → Bool
  /-- The `.gitignore` file of the directory has lines of the user's own. -/
  userGitignore : TupId → Bool := fun _ => false

/-- The database of the state. -/
def PassState.db (s : PassState) : Db := s.link.db

/-- The part of the database that is on disk. -/
def Db.tables (db : Db) : Db := { db with variants := [], ghostRoot := ∅ }

/-- A change that is expected. -/
def PassState.setDb (s : PassState) (db : Db) : PassState :=
  { s with link := { s.link with db := db } }

/-- A change that is counted; one for all the rows of a call. -/
def PassState.write (s : PassState) (db : Db) : PassState :=
  { s.setDb db with changes := if db.tables = s.db.tables then s.changes else s.changes + 1 }

/-- Ask for a node. The rows of new nodes are expected. -/
def requestNode (env : PassEnv) (s : PassState) (row : TupEntry) :
    Checked (PassState × TupId × Bool) := do
  let (db, i, changed) ← need (tupDbCreateNodePartDisplay env.fuel s.db row)
  return (if (tupDbSelectTent s.db row.dt row.name).isNone then s.setDb db else s.write db, i,
    changed)

/-! ### Outputs -/

/-- The names that no rule may make. Source: `parser.c` `do_rule_outputs` -/
def reservedOutputs : List Text :=
  ["Tupfile".toList, "Tuprules.tup".toList, "Tupfile.lua".toList, "Tuprules.lua".toList, tupConfig]

/-- The owner of an output may lose it: its command is to be deleted, or the Tupfile it was made
for is still to be parsed. -/
def available (env : PassEnv) (s : PassState) (tent : TupEntry) (owner : TupId) : Bool :=
  tentTreeSearch s.cmdDeleteRoot owner || (env.inGraph tent.srcid && !s.parsing.contains tent.srcid)

/-- Source: `parser.c` `validate_output` -/
def validateOutput (env : PassEnv) (s : PassState) (dt : TupId) (name : Text) :
    Checked PassState :=
  match tupDbSelectTent s.db dt name with
  | none => .ok s
  | some tent =>
    if tent.type = .ghost ∨ tent.type = .generated then do
      let (link, owner) ← need (tupDbGetIncomingLink s.link tent.tupid)
      if owner.all (available env s tent) then .ok { s with link := link } else refuse .tupError
    else refuse .tupError

/-- What `do_rule_outputs` collects. -/
structure RuleOutputs where
  state : PassState
  group : Option TupId := none
  commandModified : Bool := false
  outputRoot : TentTree := ∅
  exclusionRoot : TentTree := ∅
  /-- The nodes of `onl`, in the order of the rule. -/
  onl : List TupId := []

/-- The row that an entry asks for; `dt` is the directory of the Tupfile. -/
def OutputSpec.row (env : PassEnv) (dt : TupId) (flags : Text) : OutputSpec → TupEntry
  | .group gdt name => { tupid := 0, dt := gdt, name := name, type := .group }
  | .exclusion name => { tupid := 0, dt := env.exclusionDt, name := name, type := .ghost }
  | .file fdt base _ =>
    { tupid := 0, dt := fdt, name := base, type := .generated, srcid := dt,
      flags := if 't' ∈ flags then ['t'] else [] }

/-- The loop body of `do_rule_outputs`. An error that lets the loop go on ends it here. -/
def doRuleOutput (env : PassEnv) (dt : TupId) (flags : Text) (out : RuleOutputs)
    (spec : OutputSpec) : Checked RuleOutputs :=
  match spec with
  | .group _ _ =>
    if out.group.isSome then refuse .tupError
    else do
      let (s, g, _) ← requestNode env out.state (spec.row env dt flags)
      return { out with state := s, group := some g }
  | .exclusion _ => do
    let (s, i, _) ← requestNode env out.state (spec.row env dt flags)
    let root ← need (tentTreeAdd out.exclusionRoot i)
    return { out with state := s, exclusionRoot := root }
  | .file fdt base path =>
    if path ∈ reservedOutputs then refuse .tupError
    else do
      let s ← validateOutput env out.state fdt base
      let (s, i, changed) ← requestNode env s (spec.row env dt flags)
      let root ← need (tentTreeAdd out.outputRoot i)
      return { out with state := s, commandModified := out.commandModified || changed,
                        outputRoot := root, onl := out.onl ++ [i] }

/-! ### The command -/

/-- Source: `parser.c` `find_existing_command` -/
def findExistingCommand (s : LinkState) : List TupId → Option (LinkState × Option TupId)
  | [] => some (s, none)
  | o :: onl =>
    match tupDbGetIncomingLink s o with
    | none => none
    | some (s, some c) => some (s, some c)
    | some (s, none) => findExistingCommand s onl

/-- Source: `db.c` `tup_db_set_display` -/
def tupDbSetDisplay (db : Db) (i : TupId) (display : Text) : Db :=
  db.updateNode i fun t => { t with display := display }

/-- The part of `do_rule` that compares the display string; refactoring does not look at it. -/
def compareDisplay (r : RuleSpec) (cmdtent : TupEntry) (s : PassState) : PassState :=
  if cmdtent.display ≠ r.display then s.write (tupDbSetDisplay s.db cmdtent.tupid r.display) else s

/-- The part of `do_rule` that compares the flags; also `command_modified`. -/
def compareFlags (refactoring : Bool) (r : RuleSpec) (cmdtent : TupEntry) (s : PassState)
    (modified : Bool) : Checked (PassState × Bool) :=
  if cmdtent.flags ≠ r.flags then
    if refactoring then refuse (.modifyFlags cmdtent.flags r.flags)
    else .ok (s.write (tupDbSetFlags s.db cmdtent.tupid r.flags), true)
  else .ok (s, modified)

/-- What `do_rule` does when no command has the string: an output may lead to a command that can be
renamed, or else there has to be a new one. -/
def newCommand (env : PassEnv) (refactoring : Bool) (r : RuleSpec) (onl : List TupId)
    (s : PassState) (modified : Bool) : Checked (PassState × TupId × Bool) := do
  let (link, owner) ← need (findExistingCommand s.link onl)
  let s := { s with link := link }
  match owner with
  | none =>
    if refactoring then refuse (.createCommand r.cmd)
    else do
      let (s, i, _) ← requestNode env s
        { tupid := 0, dt := r.curtent, name := r.cmd, type := .cmd, display := r.display,
          flags := r.flags }
      return (s, i, modified)
  | some c => do
    let cmdtent ← need (tupEntryAdd s.db c)
    if refactoring then refuse (.modifyCommandString cmdtent.name r.cmd)
    else do
      let db ← need (tupDbSetName s.db c r.cmd r.curtent)
      let (s, _) ← compareFlags refactoring r cmdtent (compareDisplay r cmdtent (s.write db)) true
      -- it has another name, so it has to run again
      return (s, c, true)

/-- The part of `do_rule` that finds the command. -/
def ruleCommand (env : PassEnv) (refactoring : Bool) (r : RuleSpec) (onl : List TupId)
    (s : PassState) (modified : Bool) : Checked (PassState × TupId × Bool) :=
  match tupDbSelectTent s.db r.curtent r.cmd with
  | some cmdtent =>
    if cmdtent.type ≠ .cmd then refuse .tupError
    else do
      let (s, modified) ← compareFlags refactoring r cmdtent (compareDisplay r cmdtent s) modified
      return (s, cmdtent.tupid, modified)
  | none => newCommand env refactoring r onl s modified

/-- Source: `parser.c` `serialize_allow_reads` -/
def serializeAllowReads (patterns : List Text) : Text := patterns.flatMap (· ++ ['\n'])

/-- Source: `db.c` `tup_db_get_allowed_reads_serialized` -/
def tupDbGetAllowedReadsSerialized (db : Db) (cmdid : TupId) : Text :=
  serializeAllowReads (((db.allowRead.filter (·.cmdid = cmdid)).insertionSort
    (·.seq ≤ ·.seq)).map AllowRead.pattern)

/-- Source: `db.c` `tup_db_delete_allowed_reads` and `tup_db_add_allowed_read` -/
def setAllowedReads (db : Db) (cmdid : TupId) (patterns : List Text) : Db :=
  { db with allowRead := db.allowRead.filter (·.cmdid ≠ cmdid) ++
      patterns.mapIdx fun seq pattern => { cmdid, seq, pattern } }

/-- The part of `do_rule` that compares the allow_read list; also `command_modified`. -/
def compareAllowReads (refactoring : Bool) (r : RuleSpec) (cmdid : TupId) (s : PassState)
    (modified : Bool) : Checked (PassState × Bool) :=
  if tupDbGetAllowedReadsSerialized s.db cmdid ≠ serializeAllowReads r.allowReads then
    if refactoring then refuse .modifyAllowRead
    else .ok (s.write (setAllowedReads s.db cmdid r.allowReads), true)
  else .ok (s, modified)

/-! ### Links -/

/-- The part of `do_rule` that takes an output. -/
def takeOutput (cmdid : TupId) (s : PassState) (o : TupId) : Checked PassState := do
  let link ← need (tupDbCreateUniqueLink cmdid s.link o)
  return { s.write link.db with
    link := link
    genDeleteRoot := tentTreeRemove s.genDeleteRoot o
    saveRoot := tentTreeRemove s.saveRoot o }

/-- Source: `parser.c` `add_input` -/
def addInput (forceNormalFile : Bool) (s : LinkState × TentTree) (i : TupId) :
    Checked (LinkState × TentTree) := do
  let (link, root) := s
  let tent ← need (tupEntryAdd link.db i)
  match tent.type with
  | .generated => do
    let (link, cmd) ← need (tupDbGetIncomingLink link i)
    let cmd ← need cmd
    let extraGroupRoot ← need (getStickyInputs link.db cmd)
    return (link, (extraGroupRoot.ids.filter link.db.isGroup).foldl tentTreeAddDup
      (tentTreeAddDup root i))
  | .var | .group => return (link, tentTreeAddDup root i)
  | .file => return (link, if forceNormalFile then tentTreeAddDup root i else root)
  | _ => return (link, root)

/-- The part of `do_rule` that collects the inputs. -/
def ruleInputs (r : RuleSpec) (link : LinkState) : Checked (LinkState × TentTree) := do
  let s ← r.inputs.foldlM (addInput true) (link, ∅)
  let s ← r.orderOnlyInputs.foldlM (addInput false) s
  r.envRoot.ids.foldlM (addInput false) s

/-- What `tup_db_write_outputs` reports about the group. -/
def groupRefusals (cmdid : TupId) (old group : Option TupId) : List Refusal :=
  if old = group then []
  else (group.map (Refusal.addOutputGroup cmdid)).toList ++
    (old.map (Refusal.removeOutputGroup cmdid)).toList

/-- Source: `db.c` `tup_db_write_outputs` with refactoring on: the callbacks only report, though the
links of a changed group are written. -/
def dryWriteOutputs (exclusionDt : TupId) (db : Db) (cmdtent : TupEntry)
    (root exclusionRoot : TentTree) (group : Option TupId) (commandModified : Bool) :
    Checked (Db × Option TupId) := do
  let cmdid := cmdtent.tupid
  let old ← need (tupDbGetOutputs exclusionDt db cmdid)
  let db ← need (changeGroup cmdid old root group db)
  let report (refusal : TupId → Refusal) (l : List Refusal) (i : TupId) := some (l ++ [refusal i])
  let refusals ← need (compareTentTrees old.outputRoot root (report .removeOutput)
    (report .addOutput) (groupRefusals cmdid old.group group))
  let refusals ← need (compareTentTrees old.exclusionRoot exclusionRoot (report .removeOutput)
    (report .addOutput) refusals)
  if commandModified || !refusals.isEmpty then .error refusals else return (db, old.group)

/-- Source: `db.c` `tup_db_write_outputs` -/
def writeOutputs (env : PassEnv) (refactoring : Bool) (s : PassState) (cmdid : TupId)
    (out : RuleOutputs) (modified : Bool) : Checked (PassState × Option TupId) := do
  let cmdtent ← need (tupEntryAdd s.db cmdid)
  let (db, oldGroup) ←
    bif refactoring then
      dryWriteOutputs env.exclusionDt s.db cmdtent out.outputRoot out.exclusionRoot out.group modified
    else
      need (tupDbWriteOutputs env.exclusionDt s.db cmdtent out.outputRoot out.exclusionRoot out.group
        modified)
  return (s.write db, oldGroup)

/-- Source: `db.c` `tup_db_write_inputs` with refactoring on: the callbacks only report. -/
def dryWriteInputs (db : Db) (cmdid : TupId) (inputRoot : TentTree)
    (group oldGroup : Option TupId) : Checked Db := do
  let stickyRoot ← need (getStickyInputs db cmdid)
  let report (refusal : TupId → Refusal) (l : List Refusal) (i : TupId) := some (l ++ [refusal i])
  let refusals ← need (compareTentTrees inputRoot stickyRoot (report .addInput)
    (report .removeInput) [])
  let db ← need (changeGroupLinks cmdid inputRoot group oldGroup db)
  if refusals.isEmpty then return db else .error refusals

/-- Source: `db.c` `tup_db_write_inputs` -/
def writeInputs (refactoring : Bool) (s : PassState) (cmdid : TupId) (inputRoot envRoot : TentTree)
    (group oldGroup : Option TupId) : Checked PassState := do
  let db ←
    bif refactoring then dryWriteInputs s.db cmdid inputRoot group oldGroup
    else need (tupDbWriteInputs s.db cmdid inputRoot envRoot group oldGroup)
  return s.write db

/-! ### Rules -/

/-- The part of `do_rule` that evaluates the output lists. -/
def doRuleOutputs (env : PassEnv) (dt : TupId) (r : RuleSpec) (s : PassState) :
    Checked (RuleOutputs × List TupId) := do
  let out ← r.outputs.foldlM (doRuleOutput env dt r.flags) { state := s }
  let all ← r.extraOutputs.foldlM (doRuleOutput env dt r.flags) out
  return (all, out.onl)

/-- The part of `do_rule` that notes that the command stays. -/
def keepCommand (dt cmdid : TupId) (s : PassState) : Checked PassState := do
  let root ← need (tentTreeAdd (s.cmdRoot dt) cmdid)
  return { s with
    cmdRoot := Function.update s.cmdRoot dt root
    cmdDeleteRoot := tentTreeRemove s.cmdDeleteRoot cmdid
    -- the source fills this tree only when refactoring, which is when it is looked at
    refactoringCmdDeleteRoot := Function.update s.refactoringCmdDeleteRoot dt
      (tentTreeRemove (s.refactoringCmdDeleteRoot dt) cmdid) }

/-- The part of `do_rule` that writes the links. -/
def ruleLinks (env : PassEnv) (refactoring : Bool) (r : RuleSpec) (cmdid : TupId)
    (out : RuleOutputs) (modified : Bool) (s : PassState) : Checked PassState := do
  let s ← out.onl.foldlM (takeOutput cmdid) s
  let (link, inputRoot) ← ruleInputs r s.link
  if out.group.any (tentTreeSearch inputRoot) || out.outputRoot.ids.any (tentTreeSearch inputRoot)
  then refuse .tupError
  else do
    let (s, oldGroup) ← writeOutputs env refactoring { s with link := link } cmdid out modified
    writeInputs refactoring s cmdid inputRoot r.envRoot out.group oldGroup

/-- Source: `parser.c` `do_rule`; `dt` is the directory of the Tupfile. -/
def doRule (env : PassEnv) (refactoring : Bool) (dt : TupId) (r : RuleSpec) (s : PassState) :
    Checked PassState :=
  if 't' ∈ r.flags ∧ 'o' ∈ r.flags then refuse .tupError
  else do
    let (out, onl) ← doRuleOutputs env dt r s
    let (s, cmdid, modified) ← ruleCommand env refactoring r onl out.state out.commandModified
    let (s, modified) ← compareAllowReads refactoring r cmdid s modified
    let s ← keepCommand dt cmdid s
    ruleLinks env refactoring r cmdid out modified s

end Metatup
