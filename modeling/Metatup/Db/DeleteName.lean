import Metatup.Db.Dependents

/-!
# Removing nodes

What happens in the database when a name disappears from a directory, or when its node has to make
room for one of another type.

* `tupDbDeleteNode`, `deleteNameFile`: removing one node.
* `tupDelIdType`: removing a node and what is below it, with the cases for each type.
* `tupFileMissing`: the scanner does not find a file any more.
-/

namespace Metatup

/-- Source: the `TUP_CONFIG` of `config.h`. -/
def tupConfig : Text := "tup.config".toList

/-- Source: the `".gitignore"` of `create_name_file.c`. -/
def gitignore : Text := ".gitignore".toList

/-- Source: the `".tupignore"` of `create_name_file.c`. -/
def tupignore : Text := ".tupignore".toList

/-- Source: `variant.h` `VARIANT_SRCDIR_REMOVED` -/
def variantSrcdirRemoved : TupId := -2

/-- Change the row of a node. -/
def Db.updateNode (db : Db) (i : TupId) (f : TupEntry → TupEntry) : Db :=
  { db with node := db.node.map fun t => if t.tupid = i then f t else t }

/-- Source: `db.c` `tup_db_set_type` -/
def tupDbSetType (db : Db) (i : TupId) (type : NodeType) : Db :=
  db.updateNode i fun t => { t with type := type }

/-- Source: `db.c` `tup_db_set_srcid` -/
def tupDbSetSrcid (db : Db) (i srcid : TupId) : Db :=
  db.updateNode i fun t => { t with srcid := srcid }

/-- Source: `db.c` `tup_db_select_tent` -/
def tupDbSelectTent (db : Db) (dt : TupId) (name : Text) : Option TupEntry :=
  db.node.find? fun t => t.dt = dt && t.name = name

/-- Source: `db.c` `get_dir_entries`; the list grows at its head. -/
def getDirEntries (db : Db) (dt : TupId) : List TupEntry := (db.node.filter (·.dt = dt)).reverse

/-! ### One node -/

/-- Source: `db.c` `node_has_ghosts` -/
def nodeHasGhosts (db : Db) (i : TupId) : Bool := db.node.any fun t => t.dt = i || t.srcid = i

/-- Source: `db.c` `delete_node` -/
def deleteNode (db : Db) (i : TupId) : Db :=
  { db with node := db.node.filter (·.tupid ≠ i), ghostRoot := tentTreeRemove db.ghostRoot i }

/-- The directory that a removed node came from may now be reclaimed too. -/
def checkSrcGhost (db : Db) (srcid : TupId) : Option Db :=
  if 0 ≤ srcid then do
    let srctent ← tupEntryAdd db srcid
    return tupEntryAddGhostTree db srctent
  else some db

/-- Source: `db.c` `tup_db_delete_node` -/
def tupDbDeleteNode (db : Db) (i : TupId) : Option Db := do
  let tent ← tupEntryAdd db i
  let parent ← tupEntryAdd db tent.dt
  let db ← checkSrcGhost db tent.srcid
  if nodeHasGhosts db i then
    -- it is but a ghost now
    let db := if tent.type = .dir then db.addCreate i else db
    return tupDbSetSrcid (tupDbSetType db i .ghost) i (-1)
  else return tupEntryAddGhostTree (deleteNode db i) parent

/-- The flags of a removed node. -/
def unflagAll (f : Flags) (i : TupId) : Flags :=
  tupDbUnflagTransient (tupDbUnflagVariant (tupDbUnflagModify (tupDbUnflagCreate
    (tupDbUnflagConfig f i) i) i) i) i

/-- Source: `delete_name_file.c` `delete_name_file` -/
def deleteNameFile (db : Db) (i : TupId) : Option Db := do
  let db ← tupDbDeleteLinks (db.setFlags (unflagAll db.flags i)) i
  tupDbDeleteNode db i

/-! ### The cases -/

/-- Source: `create_name_file.c` `check_rm_tup_config` -/
def checkRmTupConfig (db : Db) (tent : TupEntry) : Db × Bool :=
  if tent.name = tupConfig then ((tupDbSetType db tent.tupid .ghost).addConfig tent.tupid, true)
  else (db, false)

/-- Source: `create_name_file.c` `get_variant_tent` -/
def getVariantTent (db : Db) (v : Variant) : ℕ → TupEntry → Option TupEntry
  | 0, _ => none
  | fuel + 1, srctent =>
    if srctent.tupid = dotDt then (tupEntryAdd db v.tent).bind fun t => tupEntryAdd db t.dt
    else do
      let parent ← tupEntryAdd db srctent.dt
      let variantParent ← getVariantTent db v fuel parent
      tupDbSelectTent db variantParent.tupid srctent.name

/-- Tell a variant that a directory of the source tree is gone. -/
def markVariant (tent : TupEntry) (db : Db) (v : Variant) : Db :=
  if v.rootVariant then db
  else
    match getVariantTent db v (db.node.length + 1) tent with
    | some t => tupDbSetSrcid db t.tupid variantSrcdirRemoved
    | none => db

/-- What `tup_del_id_type` does for a directory once everything below it has been removed. -/
def dirRemoved (db : Db) (i : TupId) (force : Bool) : Option Db := do
  let tent ← tupEntryAdd db i
  let inVariant := (tupEntryVariant db tent).filter (!·.rootVariant)
  match inVariant with
  | some v => return if v.enabled && !force then tupDbMaybeAddCreateList db tent.srcid else db
  | none =>
    let db := match tupDbSelectTent db i "Tupfile".toList with
      | some tuptent => tupDbSetDependentDirFlags db tuptent.tupid
      | none => db
    let db := db.variants.foldl (markVariant tent) db
    let parent ← tupEntryAdd db tent.dt
    return if parent.type = .dir then db.addCreate tent.dt else db

/-- What `tup_del_id_type` does when a generated file was deleted outside of the parser. The node
stays; the `Bool` is `*modified`. -/
def generatedRemoved (db : Db) (tent : TupEntry) : Db × Bool :=
  if tent.name = gitignore then (db.addCreate tent.dt, false)
  else
    let (db, changed) := tupDbModifyCmdsByOutput db tent.tupid
    let db := db.setFlags (tupDbUnflagModify db.flags tent.tupid)
    (db, !isTransientTent tent && changed = 1)

/-- What `tup_del_id_type` flags before it removes a node. -/
def flagDependents (db : Db) (tent : TupEntry) (force : Bool) : Db :=
  let i := tent.tupid
  let db := if tent.type = .file ∨ tent.type = .dir then tupDbSetDependentFlags db i else db
  if tent.type = .file ∨ tent.type = .generated then
    let db := tupDbModifyCmdsByInput db i
    if !force then db.addCreate tent.dt else db
  else db

/-- What `tup_del_id_type` does at its end: flag the dependents and remove the node. -/
def flagAndDelete (db : Db) (tent : TupEntry) (force : Bool) : Option Db :=
  deleteNameFile (flagDependents db tent force) tent.tupid

/-- Source: `db.c` `tup_db_delete_dir`; `del` is `tup_del_id_type`. -/
def tupDbDeleteDir (del : Db → TupId → Bool → Option (Db × Bool)) (db : Db) (dt : TupId)
    (force : Bool) : Option Db := do
  let db ← tupDbSetSrcidDirFlags db dt
  (getDirEntries db dt).foldlM
    (fun db he => (del db he.tupid (he.type ≠ .dir || force)).map Prod.fst) db

/-- What `tup_db_flag_generated_dir` does first when the removal is forced: the directory becomes a
ghost for the time being, so that it is not removed as a generated directory. -/
def ghostGeneratedDir (db : Db) (tent : TupEntry) (force : Bool) : Option Db :=
  if force then
    (tupDbSetSrcidDirFlags db tent.tupid).map fun db =>
      tupEntryAddGhostTree (tupDbSetType db tent.tupid .ghost) { tent with type := .ghost }
  else some db

/-- Source: `db.c` `tup_db_flag_generated_dir`; `del` is `tup_del_id_type`. -/
def tupDbFlagGeneratedDir (del : Db → TupId → Bool → Option (Db × Bool)) (db : Db) (tent : TupEntry)
    (force : Bool) : Option Db := do
  let db ← ghostGeneratedDir db tent force
  (getDirEntries db tent.tupid).foldlM (fun db he => (del db he.tupid force).map Prod.fst) db

/-- Source: `create_name_file.c` `tup_del_id_type`. Its callers pass the type of the node. The fuel
bounds the depth of the directories below the node; the `Bool` is `*modified`. -/
def tupDelIdType : ℕ → Db → TupId → Bool → Option (Db × Bool)
  | 0, _, _, _ => none
  | fuel + 1, db, i, force => do
    let tent ← tupEntryAdd db i
    let (db, dontDelete) := checkRmTupConfig db tent
    if dontDelete then return (db, false)
    else
      match tent.type with
      -- a ghost may still link to somewhere useful, and groups are reclaimed like ghosts
      | .ghost | .group => return (db, false)
      | .generatedDir =>
        let db ← tupDbFlagGeneratedDir (tupDelIdType fuel) db tent force
        return (db, false)
      | .dir =>
        let db ← tupDbDeleteDir (tupDelIdType fuel) db i force
        let db ← dirRemoved db i force
        let db ← flagAndDelete db tent force
        return (db, true)
      | .generated =>
        if !force then return generatedRemoved db tent
        else
          let db ← flagAndDelete db tent force
          return (db, true)
      | .file | .cmd | .var | .root =>
        let db ← flagAndDelete db tent force
        return (db, true)

/-- The force with which `tup_file_missing` removes a node. A variant root is removed by force, so
that not everything is parsed again. -/
def missingForce (db : Db) (tent : TupEntry) : Bool :=
  match tupEntryVariant db tent with
  | some v => !v.rootVariant && v.dtnode = tent.tupid
  | none => false

/-- Source: `create_name_file.c` `tup_file_missing` -/
def tupFileMissing (fuel : ℕ) (db : Db) (tent : TupEntry) : Option Db :=
  (tupDelIdType fuel db tent.tupid (missingForce db tent)).map Prod.fst

/-! ### Rows -/

/-- The row of a node when the row of `i` has changed. -/
theorem tupEntryAdd_updateNode (db : Db) (i j : TupId) {f : TupEntry → TupEntry}
    (hf : ∀ t, (f t).tupid = t.tupid) : tupEntryAdd (db.updateNode i f) j =
      if j = i then (tupEntryAdd db j).map f else tupEntryAdd db j := by
  have key : ∀ l : List TupEntry, (l.map fun t => if t.tupid = i then f t else t).find?
      (·.tupid = j) = if j = i then (l.find? (·.tupid = j)).map f else l.find? (·.tupid = j) := by
    intro l
    induction l with
    | nil => simp
    | cons t l ih =>
      rw [List.map_cons, List.find?_cons, List.find?_cons, ih]
      by_cases hti : t.tupid = i
      · rw [if_pos hti, hf]
        by_cases htj : t.tupid = j
        · simp [htj, ← hti]
        · simp [htj]
      · rw [if_neg hti]
        by_cases htj : t.tupid = j
        · have hji : j ≠ i := htj ▸ hti
          simp [htj, hji]
        · simp [htj]
  exact key db.node

theorem tupEntryAdd_deleteNode (db : Db) (i j : TupId) :
    tupEntryAdd (deleteNode db i) j = if j = i then none else tupEntryAdd db j := by
  have key : ∀ l : List TupEntry, (l.filter (·.tupid ≠ i)).find? (·.tupid = j) =
      if j = i then none else l.find? (·.tupid = j) := by
    intro l
    induction l with
    | nil => simp
    | cons t l ih =>
      by_cases hti : t.tupid = i
      · rw [List.filter_cons_of_neg (by simpa using hti), ih]
        by_cases hji : j = i
        · rw [if_pos hji, if_pos hji]
        · have htj : t.tupid ≠ j := fun h => hji (h ▸ hti)
          simp [hji, htj]
      · rw [List.filter_cons_of_pos (by simpa using hti), List.find?_cons, List.find?_cons, ih]
        by_cases htj : t.tupid = j
        · have hji : j ≠ i := htj ▸ hti
          simp [htj, hji]
        · simp [htj]
  exact key db.node

theorem map_tupid_updateNode (db : Db) (i : TupId) {f : TupEntry → TupEntry}
    (hf : ∀ t, (f t).tupid = t.tupid) :
    (db.updateNode i f).node.map TupEntry.tupid = db.node.map TupEntry.tupid := by
  unfold Db.updateNode
  rw [List.map_map]
  apply List.map_congr_left
  intro t _
  dsimp only [Function.comp]
  split
  · exact hf t
  · rfl

theorem tupEntryAdd_setType (db : Db) (i j : TupId) (type : NodeType) :
    tupEntryAdd (tupDbSetType db i type) j =
      if j = i then (tupEntryAdd db j).map fun t => { t with type := type } else tupEntryAdd db j :=
  tupEntryAdd_updateNode db i j fun _ => rfl

theorem tupEntryAdd_setSrcid (db : Db) (i j srcid : TupId) :
    tupEntryAdd (tupDbSetSrcid db i srcid) j =
      if j = i then (tupEntryAdd db j).map fun t => { t with srcid := srcid }
      else tupEntryAdd db j :=
  tupEntryAdd_updateNode db i j fun _ => rfl

theorem map_tupid_setType (db : Db) (i : TupId) (type : NodeType) :
    (tupDbSetType db i type).node.map TupEntry.tupid = db.node.map TupEntry.tupid :=
  map_tupid_updateNode db i fun _ => rfl

theorem map_tupid_setSrcid (db : Db) (i srcid : TupId) :
    (tupDbSetSrcid db i srcid).node.map TupEntry.tupid = db.node.map TupEntry.tupid :=
  map_tupid_updateNode db i fun _ => rfl

theorem map_tupid_deleteNode (db : Db) (i : TupId) :
    ((deleteNode db i).node.map TupEntry.tupid).Sublist (db.node.map TupEntry.tupid) :=
  List.Sublist.map _ List.filter_sublist

theorem mem_getDirEntries {db : Db} {dt : TupId} {t : TupEntry} :
    t ∈ getDirEntries db dt ↔ t ∈ db.node ∧ t.dt = dt := by
  simp [getDirEntries]

theorem mem_of_tupDbSelectTent {db : Db} {dt : TupId} {name : Text} {t : TupEntry}
    (h : tupDbSelectTent db dt name = some t) : t ∈ db.node ∧ t.dt = dt ∧ t.name = name :=
  ⟨List.mem_of_find?_eq_some h, by simpa using List.find?_some h⟩

end Metatup
