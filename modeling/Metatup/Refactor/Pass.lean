import Metatup.Db.Referential
import Metatup.Lib.DryRun
import Metatup.Refactor.Rule

/-!
# A pass over the Tupfiles

The parse of a directory begins, evaluates the rules of its Tupfile and ends; the parse of another
directory can come in between. After the last one the updater deletes what is left over, and with
refactoring on it looks whether the database has changed.

* `passEvent`: one event of the pass.
* `processCreateNodes`: the pass and what follows it.
* `SameRows`, `Faithful`: what refactoring promises.
-/

namespace Metatup

/-! ### The beginning of a parse -/

/-- Source: `db.c` `tup_db_dirtype`, as ids -/
def tupDbDirtype (db : Db) (dt : TupId) (type : NodeType) : List TupId :=
  (db.node.filter fun t => t.dt = dt && t.type = type).map TupEntry.tupid

/-- Source: `db.c` `tup_db_srcid_to_tree`, as ids -/
def tupDbSrcidToTree (db : Db) (srcid : TupId) (type : NodeType) : List TupId :=
  (db.node.filter fun t => t.srcid = srcid && t.type = type).map TupEntry.tupid

/-- The loop body of `split_roots`. -/
def splitRoot (s : PassState) (i : TupId) : Checked PassState := do
  if i ∈ s.db.flags.modify then
    let root ← need (tentTreeAdd s.saveRoot i)
    return { s with saveRoot := root }
  else
    let root ← need (tentTreeAdd s.genDeleteRoot i)
    return { s with genDeleteRoot := root }

/-- The beginning of `parse`. -/
def startParse (dt : TupId) (s : PassState) : Checked PassState :=
  -- a circular dependency among Tupfiles
  if dt ∈ s.parsing then refuse .tupError
  else do
    let tent ← need (tupEntryAdd s.db dt)
    let inRoot := (tupEntryVariant s.db tent).any (·.rootVariant)
    let cmds := tupDbDirtype s.db dt .cmd
    let cmdDeleteRoot ← need (cmds.foldlM tentTreeAdd s.cmdDeleteRoot)
    let dirRoot ← need (cmds.foldlM tentTreeAdd ∅)
    (tupDbSrcidToTree s.db dt .generated).foldlM splitRoot { s with
      parsing := dt :: s.parsing
      running := dt :: s.running
      cmdDeleteRoot := cmdDeleteRoot
      refactoringCmdDeleteRoot := Function.update s.refactoringCmdDeleteRoot dt dirRoot
      normalDirRoot := if inRoot then tentTreeAddDup s.normalDirRoot dt else s.normalDirRoot }

/-! ### The end of a parse -/

/-- What a Tupfile has asked for when its last rule has been evaluated. -/
structure ParseEnd where
  /-- There was a `.gitignore` directive. -/
  ign : Bool
  /-- The source directory, for the root of a variant. -/
  srctent : Option TupId := none
  /-- The files that were read, and the directories that were looked at. -/
  inputRoot : TentTree

/-- Take an entry out of what is to be deleted or saved. -/
def PassState.keep (s : PassState) (i : TupId) : PassState :=
  { s with genDeleteRoot := tentTreeRemove s.genDeleteRoot i,
           saveRoot := tentTreeRemove s.saveRoot i }

/-- Source: `parser.c` `gitignore` -/
def parserGitignore (env : PassEnv) (refactoring : Bool) (s : PassState) (dt : TupId) :
    Checked PassState :=
  match tupDbSelectTent s.db dt gitignore with
  | none =>
    if refactoring then refuse .createGitignore
    else do
      let (s, _) ← requestNode env s
        { tupid := 0, dt := dt, name := gitignore, type := .generated, srcid := dt }
      return s
  | some tent =>
    let s := s.keep tent.tupid
    if tent.type ≠ .generated then
      .ok (s.write (tupDbSetSrcid (tupDbSetType s.db tent.tupid .generated) tent.tupid dt))
    else .ok s

/-- Source: `parser.c` `remove_tup_gitignore`. A file without lines of the user's is left to the
updater to delete. -/
def dropGitignore (env : PassEnv) (s : PassState) (tent : TupEntry) : PassState :=
  if env.userGitignore tent.dt then
    (s.write (tupDbSetSrcid (tupDbSetType s.db tent.tupid .file) tent.tupid (-1))).keep tent.tupid
  else s

/-- The part of `parse` that sees to the `.gitignore` file. -/
def parseGitignore (env : PassEnv) (refactoring : Bool) (dt : TupId) (e : ParseEnd)
    (s : PassState) : Checked PassState :=
  if e.ign then (e.srctent.toList ++ [dt]).foldlM (parserGitignore env refactoring) s
  else
    match tupDbSelectTent s.db dt gitignore with
    | some tent =>
      if tent.type = .generated then
        if refactoring then refuse .removeGitignore else .ok (dropGitignore env s tent)
      else .ok s
    | none => .ok s

/-- Source: `db.c` `add_dir_link` -/
def addDirLink (dt : TupId) (db : Db) (i : TupId) : Option Db := do
  let tent ← tupEntryAdd db i
  if tent.type = .generated then none else linkInsert db i dt .normal

/-- Source: `db.c` `rm_dir_link` -/
def rmDirLink (dt : TupId) (db : Db) (i : TupId) : Option Db := do
  let tent ← tupEntryAdd db i
  return linkRemove (tupEntryAddGhostTree db tent) i dt .normal

/-- Source: `db.c` `tup_db_write_dir_inputs` -/
def tupDbWriteDirInputs (db : Db) (dt : TupId) (root : TentTree) : Option Db := do
  let stickyRoot ← getStickyInputs db dt
  let normalRoot ← getNormalInputs db dt
  if stickyRoot.ids ≠ [] then none
  else compareTentTrees root normalRoot (addDirLink dt) (rmDirLink dt) db

/-- The end of `parse`, and the end of `create_work`. The links to the directory and its flag are
expected to change. -/
def finishParse (env : PassEnv) (refactoring : Bool) (dt : TupId) (e : ParseEnd) (s : PassState) :
    Checked PassState :=
  if dt ∉ s.running then refuse .tupError
  else do
    let s ← parseGitignore env refactoring dt e s
    let left := (s.refactoringCmdDeleteRoot dt).ids
    let db ← need (tupDbWriteDirInputs s.db dt e.inputRoot)
    if refactoring && !left.isEmpty then .error (left.map .deleteCommand)
    else
      return { s.setDb (db.setFlags (tupDbUnflagCreate db.flags dt)) with
        running := s.running.erase dt }

/-! ### The pass -/

/-- What happens in a pass. -/
inductive ParseEvent
  | start (dt : TupId)
  | rule (dt : TupId) (r : RuleSpec)
  | finish (dt : TupId) (e : ParseEnd)

/-- One event. -/
def passEvent (env : PassEnv) (refactoring : Bool) (s : PassState) : ParseEvent → Checked PassState
  | .start dt => startParse dt s
  | .rule dt r => doRule env refactoring dt r s
  | .finish dt e => finishParse env refactoring dt e s

/-- Source: `db.c` `tup_db_is_generated_dir` -/
def tupDbIsGeneratedDir (db : Db) (dt : TupId) : Bool :=
  !db.node.any (fun t => t.dt = dt && (t.type = .file || t.type = .dir)) &&
    db.node.any fun t => t.dt = dt && t.srcid ≠ t.dt &&
      (t.type = .generated || t.type = .generatedDir)

/-- Source: `db.c` `tup_db_normal_dir_to_generated` -/
def tupDbNormalDirToGenerated (db : Db) (dt : TupId) : Option Db := do
  let db ← addGhostChecks db dt
  return tupDbSetType { db with normalLink := withoutNode db.normalLink dt } dt .generatedDir

/-- What `process_create_nodes` does with a directory that has become a generated one. -/
def convertDir (env : PassEnv) (s : PassState) (tent : TupEntry) : Checked PassState := do
  let db ← need (tupDbNormalDirToGenerated s.db tent.tupid)
  let s := { s.write db with normalDirRoot := tentTreeAddDup s.normalDirRoot tent.dt }
  match tupDbSelectTent s.db tent.tupid gitignore with
  | some t =>
    if t.type = .generated then
      return dropGitignore env { s with genDeleteRoot := tentTreeAddDup s.genDeleteRoot t.tupid } t
    else return s
  | none => return s

/-- The loop of `process_create_nodes` over the directories that were parsed. A directory that is
converted hands the question on to its parent, so the fuel is not used up. -/
def convertDirs (env : PassEnv) : ℕ → PassState → Checked PassState
  | 0, s => .ok s
  | fuel + 1, s =>
    match s.normalDirRoot.ids with
    | [] => .ok s
    | dt :: _ => do
      let tent ← need (tupEntryAdd s.db dt)
      let s := { s with normalDirRoot := tentTreeRemove s.normalDirRoot dt }
      if tupDbIsGeneratedDir s.db dt then
        let s ← convertDir env s tent
        convertDirs env fuel s
      else convertDirs env fuel s

/-- What `delete_files` does with a generated file or a command that is left over. -/
def deleteLeftover (env : PassEnv) (s : PassState) (i : TupId) : Checked PassState := do
  let (db, _) ← need (tupDelIdType env.fuel s.db i true)
  return s.write db

/-- What `delete_files` does with a generated file that the user has modified. -/
def saveFile (env : PassEnv) (s : PassState) (i : TupId) : Checked PassState := do
  let tent ← need (tupEntryAdd s.db i)
  if tent.type ≠ .generated then refuse .tupError
  else
    let db ← need (tupDbDeleteLinks (tupDbModifyCmdsByInput s.db i) i)
    let db ← need (makeDirsNormal env.fuel (tupDbSetType db i .file) tent.dt)
    return s.write db

/-- Source: `updater.c` `delete_files` -/
def deleteFiles (env : PassEnv) (s : PassState) : Checked PassState := do
  let s ← s.genDeleteRoot.ids.foldlM (deleteLeftover env) s
  let s ← s.cmdDeleteRoot.ids.foldlM (deleteLeftover env) s
  s.saveRoot.ids.foldlM (saveFile env) s

/-- The part of `process_create_nodes` from the first parse on. -/
def processCreateNodes (env : PassEnv) (refactoring : Bool) (s : PassState)
    (events : List ParseEvent) : Checked PassState := do
  let s ← events.foldlM (passEvent env refactoring) s
  let s ← convertDirs env (s.normalDirRoot.ids.length * (s.db.node.length + 1)) s
  let s ← deleteFiles env s
  if refactoring && s.changes ≠ 0 then refuse .databaseChanged else return s

/-! ### What refactoring promises -/

/-- Nodes with all their fields, allowed reads and links of every kind are as they were. -/
structure SameRows (db db' : Db) : Prop where
  node : db'.node = db.node
  normalLink : db'.normalLink = db.normalLink
  stickyLink : db'.stickyLink = db.stickyLink
  groupLink : db'.groupLink = db.groupLink
  allowRead : db'.allowRead = db.allowRead

/-- Either nothing has changed, or there is a report of something other than that the database has
changed. A failed pass is rolled back. -/
def Faithful (db : Db) : Checked PassState → Prop
  | .ok s => SameRows db s.db
  | .error refusals => ∃ r ∈ refusals, r ≠ .databaseChanged

end Metatup
