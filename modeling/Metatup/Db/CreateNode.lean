import Metatup.Db.DeleteName

/-!
# Creating and changing nodes

What happens in the database when a name is created, touched, given another type or moved.

* `tupDbCreateNodePartDisplay`: the node of a name in a directory, of a type that is asked for.
* `tupFileModMtime`: the scanner finds a file.
* `tupDbChangeNode`: a node is moved.
-/

namespace Metatup

/-- The row id of the next node: one more than the largest one. -/
def newNodeId (db : Db) : TupId := (db.node.map TupEntry.tupid).foldr max 0 + 1

/-- Source: `db.c` `tup_db_node_insert_tent_display`; the row is given without its id. A directory
has one node of a name. -/
def tupDbNodeInsertTentDisplay (db : Db) (row : TupEntry) : Option (Db × TupEntry) :=
  if (tupDbSelectTent db row.dt row.name).isSome then none
  else
    let tent := { row with tupid := newNodeId db }
    let db := { db with node := db.node ++ [tent] }
    -- new commands go in the modify list so that they are executed at least once
    some (if tent.type = .cmd then db.addModify tent.tupid else db, tent)

/-- Source: `db.c` `node_insert` -/
def nodeInsert (db : Db) (row : TupEntry) : Option (Db × TupEntry) := do
  let (db, tent) ← tupDbNodeInsertTentDisplay db row
  return (if tent.type = .dir && !isVirtualTent tent then db.addCreate tent.tupid else db, tent)

/-- Source: `db.c` `tup_db_set_name` -/
def tupDbSetName (db : Db) (i : TupId) (newName : Text) (newDt : TupId) : Option Db := do
  let tent ← tupEntryAdd db i
  if tent.name = newName ∧ tent.dt = newDt then return db
  else if (tupDbSelectTent db newDt newName).isSome then none
  else return db.updateNode i fun t => { t with name := newName, dt := newDt }

/-- Source: `db.c` `tup_db_set_flags` -/
def tupDbSetFlags (db : Db) (i : TupId) (flags : Text) : Db :=
  db.updateNode i fun t => { t with flags := flags }

/-- Source: `db.c` `tup_db_set_mtime` -/
def tupDbSetMtime (db : Db) (i : TupId) (mtime : Int × Int) : Db :=
  db.updateNode i fun t => { t with mtime := mtime }

/-! ### Asking for a node -/

/-- What `tup_db_create_node_part_display` does first with a ghost that is to become a node of this
type. One that becomes a generated file is taken out of the links. -/
def unlinkGhost (db : Db) (i : TupId) : NodeType → Option Db
  | .var => some (db.addCreate i)
  | .generated => tupDbDeleteLinks (tupDbModifyCmdsByInput (tupDbSetDependentDirFlags db i) i) i
  | _ => some db

/-- What `tup_db_create_node_part_display` does with a ghost of that name. -/
def upgradeGhost (db : Db) (tent : TupEntry) (type : NodeType) (srcid : TupId) :
    Option (Db × TupId × Bool) := do
  let i := tent.tupid
  let db ← unlinkGhost db i type
  let db :=
    if type ≠ .ghost then tupDbSetSrcid (tupDbSetType (db.addModify i) i type) i srcid else db
  -- a variant whose directory was a ghost is disabled
  return ({ db with variants := db.variants.filter (·.dtnode ≠ i) }, i, type ≠ .ghost)

/-- The name of a node that is asked for by another spelling. -/
def respellNode (db : Db) (tent : TupEntry) (name : Text) : Option Db :=
  if name ≠ tent.name then tupDbSetName db tent.tupid name tent.dt else some db

/-- What `tup_db_create_node_part_display` does with a node that can stay. -/
def refreshNode (db : Db) (tent row : TupEntry) : Option (Db × TupId × Bool) := do
  let i := tent.tupid
  let db := if row.srcid ≠ -1 ∧ tent.srcid ≠ row.srcid then tupDbSetSrcid db i row.srcid else db
  let db ← respellNode db tent row.name
  if tent.display ≠ row.display then none
  else
    return (if tent.flags ≠ row.flags then tupDbSetFlags db i row.flags else db, i,
      row.name ≠ tent.name)

/-- Source: `db.c` `tup_db_create_node_part_display`; the arguments are a row without its id. What
comes out are the node and `*node_changed`. -/
def tupDbCreateNodePartDisplay : ℕ → Db → TupEntry → Option (Db × TupId × Bool)
  | 0, _, _ => none
  | fuel + 1, db, row =>
    match tupDbSelectTent db row.dt row.name with
    | some tent =>
      if tent.type = .ghost then upgradeGhost db tent row.type row.srcid
      else if tent.type ≠ row.type ∧ ¬ (tent.type = .generatedDir ∧ row.type = .dir) then do
        let (db, _) ← tupDelIdType fuel db tent.tupid true
        tupDbCreateNodePartDisplay fuel db row
      else refreshNode db tent row
    | none => do
      let (db, tent) ← nodeInsert db row
      return (db, tent.tupid, true)

/-! ### Files that the scanner finds -/

/-- Source: `create_name_file.c` `make_dirs_normal` -/
def makeDirsNormal : ℕ → Db → TupId → Option Db
  | 0, _, _ => none
  | fuel + 1, db, dt =>
    match tupEntryAdd db dt with
    | none => some db
    | some dtent =>
      if dtent.type = .generatedDir then
        let db := tupDbSetType db dt .dir
        makeDirsNormal fuel { db with ghostRoot := tentTreeRemove db.ghostRoot dt } dtent.dt
      else
        match tupDbSelectTent db dt gitignore with
        | some t => some (if t.type = .generated then db.addCreate t.dt else db)
        | none => some db

/-- Source: `create_name_file.c` `create_name_file` -/
def createNameFile (fuel : ℕ) (db : Db) (dt : TupId) (file : Text) (mtime : Int × Int) :
    Option (Db × TupEntry) := do
  let (db, tent) ← tupDbNodeInsertTentDisplay db
    { tupid := 0, dt := dt, type := .file, name := file, mtime := mtime }
  let db ← makeDirsNormal fuel (db.addCreate dt) dt
  return (db, tent)

/-- Source: `create_name_file.c` `ghost_to_file` -/
def ghostToFile (db : Db) (tent : TupEntry) : Option Db := do
  let i := tent.tupid
  let db := tupDbSetType { db with ghostRoot := tentTreeRemove db.ghostRoot i } i .file
  let parent ← tupEntryAdd db tent.dt
  -- only directories, not generated ones, go in the create list
  let db := if parent.type = .dir then db.addCreate tent.dt else db
  return db.addModify i

/-- The part of `tup_file_mod_mtime` that makes the node a file; what comes out are the node and
`new`. -/
def becomeFile (fuel : ℕ) (db : Db) (tent : TupEntry) (dt : TupId) (file : Text)
    (mtime : Int × Int) : Option (Db × TupId × Bool) :=
  match tent.type with
  | .file | .generated => some (db, tent.tupid, false)
  | .ghost => do
    let db ← ghostToFile db tent
    return (db, tent.tupid, false)
  | _ => do
    let (db, _) ← tupDelIdType fuel db tent.tupid true
    match tupDbSelectTent db dt file with
    | none =>
      let (db, tent) ← createNameFile fuel db dt file mtime
      return (db, tent.tupid, true)
    | some tent =>
      if tent.type = .ghost then
        let db ← ghostToFile db tent
        return (db, tent.tupid, false)
      else none

/-- The part of `tup_file_mod_mtime` for a node whose time has changed, if it has. -/
def fileChanged (db : Db) (i : TupId) (mtime : Int × Int) (changed : Bool) : Option Db :=
  if !changed then some db
  else do
    let tent ← tupEntryAdd db i
    let db := if tent.type = .generated then (tupDbModifyCmdsByOutput db i).1 else db
    let db := tupDbSetDependentFlags (db.addModify i) i
    return if tent.mtime ≠ mtime then tupDbSetMtime db i mtime else db

/-- The end of `tup_file_mod_mtime` for a file that is new or has changed. -/
def fileModified (db : Db) (i dt : TupId) (file : Text) : Db :=
  let db := if file = tupConfig then db.addConfig i else db
  if file = tupignore then db.addCreate dt else db

/-- Source: `create_name_file.c` `tup_file_mod_mtime`; the `Bool` is `*modified`. -/
def tupFileModMtime (fuel : ℕ) (db : Db) (dt : TupId) (file : Text) (mtime : Int × Int)
    (force ignoreGenerated : Bool) : Option (Db × TupId × Bool) := do
  let _ ← tupEntryAdd db dt
  match tupDbSelectTent db dt file with
  | none =>
    let (db, tent) ← createNameFile fuel db dt file mtime
    return (fileModified db tent.tupid dt file, tent.tupid, true)
  | some tent =>
    -- a generated file that the monitor reports only counts when its time has changed
    let force := force && !(ignoreGenerated && tent.type = .generated)
    let changed := tent.mtime ≠ mtime || force
    let (db, i, new) ← becomeFile fuel db tent dt file mtime
    let db ← fileChanged db i mtime changed
    return (if new || changed then fileModified db i dt file else db, i, new || changed)

/-! ### Moving a node -/

/-- Source: `db.c` `recurse_delete_ghost_tree` -/
def recurseDeleteGhostTree : ℕ → Db → TupId → Bool → Option Db
  | 0, _, _, _ => none
  | fuel + 1, db, i, modify => do
    let subdirs := getDirEntries db i
    let db ← tupDbDeleteLinks (if modify then tupDbModifyCmdsByInput db i else db) i
    subdirs.foldlM (fun db he =>
      if he.type ≠ .ghost then none
      else do
        let db ← recurseDeleteGhostTree fuel db he.tupid modify
        return deleteNode db he.tupid) db

/-- Source: `db.c` `recurse_modify_dir` -/
def recurseModifyDir : ℕ → Db → TupId → Option Db
  | 0, _, _ => none
  | fuel + 1, db, dt =>
    (getDirEntries db dt).foldlM (fun db he =>
      if he.type = .dir then recurseModifyDir fuel db he.tupid
      else
        let db := if he.type = .generated ∨ he.type = .file then db.addModify he.tupid else db
        some (tupDbMaybeAddConfigList (tupDbSetDependentFlags db he.tupid) he.tupid))
      (db.addCreate dt)

/-- The part of `tup_db_change_node` that makes room for the node. -/
def makeRoom (fuel : ℕ) (db : Db) (newName : Text) (newDt : TupId) : Option Db :=
  match tupDbSelectTent db newDt newName with
  | some tent =>
    if tent.type = .ghost then
      (recurseDeleteGhostTree fuel db tent.tupid true).map fun db => deleteNode db tent.tupid
    else none
  | none => some db

/-- Source: `db.c` `tup_db_change_node` -/
def tupDbChangeNode (fuel : ℕ) (db : Db) (i : TupId) (newName : Text) (newDt : TupId) :
    Option Db := do
  let db ← makeRoom fuel db newName newDt
  let db ← tupDbSetName db i newName newDt
  recurseModifyDir fuel db i

end Metatup
