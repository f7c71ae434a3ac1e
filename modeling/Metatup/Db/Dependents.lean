import Mathlib.Data.Finset.Card
import Metatup.Db.Basic

/-!
# Dependents

The statements that flag what depends on a node, and the ones that drop its links. A dependent of a
node is the target of a normal link from it.

* `tupDbModifyCmdsByInput`, `tupDbSetDependentFlags`: flagging the dependents.
* `tupDbDeleteLinks`: dropping the links, which flags nothing but the users of a group.
* `Grows`: what a statement does that only adds to the create list and to `ghost_root`.
-/

namespace Metatup

/-- The targets of the normal links of a node whose types are of this kind. -/
def dependents (db : Db) (i : TupId) (kind : NodeType → Bool) : Finset TupId :=
  (((db.normalLink.filter (·.fromId = i)).map Link.toId).filter
    fun j => (tupEntryAdd db j).any fun t => kind t.type).toFinset

/-- Overwrite the flag tables. -/
def Db.setFlags (db : Db) (f : Flags) : Db := { db with flags := f }

/-- Put a node into the create list. -/
def Db.addCreate (db : Db) (i : TupId) : Db := db.setFlags (tupDbAddCreateList db.flags i)

/-- Put a node into the modify list. -/
def Db.addModify (db : Db) (i : TupId) : Db := db.setFlags (tupDbAddModifyList db.flags i)

/-- Put a node into the config list. -/
def Db.addConfig (db : Db) (i : TupId) : Db :=
  db.setFlags { db.flags with config := insert i db.flags.config }

/-- Source: `db.c` `tup_db_maybe_add_create_list` -/
def tupDbMaybeAddCreateList (db : Db) (i : TupId) : Db :=
  if (tupEntryAdd db i).any (·.type = .dir) then db.addCreate i else db

/-- Source: `db.c` `tup_db_maybe_add_config_list` -/
def tupDbMaybeAddConfigList (db : Db) (i : TupId) : Db :=
  if i ∈ db.flags.variant then db.addConfig i else db

/-- Source: `db.c` `tup_db_modify_cmds_by_output`; the number is `sqlite3_changes`. -/
def tupDbModifyCmdsByOutput (db : Db) (output : TupId) : Db × ℕ :=
  let cmds := ((db.normalLink.filter (·.toId = output)).map Link.fromId).toFinset
  (db.setFlags { db.flags with modify := db.flags.modify ∪ cmds }, (cmds \ db.flags.modify).card)

/-- Source: `db.c` `tup_db_modify_cmds_by_input` -/
def tupDbModifyCmdsByInput (db : Db) (input : TupId) : Db :=
  let cmds := dependents db input fun type => type = .cmd || type = .group
  db.setFlags { db.flags with modify := db.flags.modify ∪ cmds }

/-- Source: `db.c` `tup_db_set_dependent_dir_flags` -/
def tupDbSetDependentDirFlags (db : Db) (i : TupId) : Db :=
  db.setFlags { db.flags with create := db.flags.create ∪ dependents db i (· = .dir) }

/-- Source: `db.c` `tup_db_set_dependent_config_flags` -/
def tupDbSetDependentConfigFlags (db : Db) (i : TupId) : Db :=
  db.setFlags { db.flags with config := db.flags.config ∪ dependents db i (· = .file) }

/-- Source: `db.c` `tup_db_set_dependent_flags` -/
def tupDbSetDependentFlags (db : Db) (i : TupId) : Db :=
  tupDbSetDependentConfigFlags (tupDbSetDependentDirFlags db i) i

/-- Source: `db.c` `tup_db_set_srcid_dir_flags` -/
def tupDbSetSrcidDirFlags (db : Db) (i : TupId) : Option Db :=
  let srcids := (db.node.filter fun t => t.dt = i && t.type = .generated).map TupEntry.srcid
  (srcids.filter (· ≠ i)).foldlM (fun db s => do
    let tent ← tupEntryAdd db s
    return if tent.type = .dir then db.addCreate s else db) db

/-! ### Dropping links -/

/-- Source: `db.c` `add_ghost_checks` -/
def addGhostChecks (db : Db) (i : TupId) : Option Db :=
  ((db.normalLink.filter (·.toId = i)).map Link.fromId).foldlM (fun db j => do
    let tent ← tupEntryAdd db j
    return tupEntryAddGhostTree db tent) db

/-- Source: `db.c` `add_group_and_exclusion_checks` -/
def addGroupAndExclusionChecks (db : Db) (i : TupId) : Option Db := do
  let tents ← getOutputs db i
  return tents.foldl tupEntryAddGhostTree db

/-- The directories of the nodes with these ids. -/
def dirsOf (db : Db) (ids : List TupId) : Finset TupId :=
  ((db.node.filter fun t => ids.contains t.tupid).map TupEntry.dt).toFinset

/-- Source: `db.c` `flag_group_users` -/
def flagGroupUsers (db : Db) (i : TupId) : Option Db := do
  let tent ← tupEntryAdd db i
  if tent.type = .group then
    let users := (db.stickyLink.filter (·.fromId = i)).map Link.toId ++
      (db.normalLink.filter (·.toId = i)).map Link.fromId
    return db.setFlags { db.flags with create := db.flags.create ∪ dirsOf db users }
  else return db

/-- The links of a table that a node is not an end of. -/
def withoutNode (links : List Link) (i : TupId) : List Link :=
  links.filter fun l => l.fromId ≠ i && l.toId ≠ i

/-- Source: `db.c` `delete_normal_links`, `delete_sticky_links` and `delete_group_links` -/
def deleteTableLinks (db : Db) (i : TupId) : Db :=
  { db with
    normalLink := withoutNode db.normalLink i
    stickyLink := withoutNode db.stickyLink i
    groupLink := db.groupLink.filter (·.cmdid ≠ i) }

/-- Source: `db.c` `tup_db_delete_links` -/
def tupDbDeleteLinks (db : Db) (i : TupId) : Option Db := do
  let db ← addGhostChecks db i
  let db ← addGroupAndExclusionChecks db i
  let db ← flagGroupUsers db i
  return deleteTableLinks db i

/-! ### Statements that only add -/

/-- What a statement does that leaves nodes, normal links and the modify list as they are and takes
nothing off the create list. -/
structure Grows (db db' : Db) : Prop where
  node : db'.node = db.node
  normalLink : db'.normalLink = db.normalLink
  modify : db'.flags.modify = db.flags.modify
  create : db.flags.create ⊆ db'.flags.create

namespace Grows

variable {db db₁ db₂ : Db}

theorem refl (db : Db) : Grows db db := ⟨rfl, rfl, rfl, subset_rfl⟩

theorem trans (h₁ : Grows db db₁) (h₂ : Grows db₁ db₂) : Grows db db₂ :=
  ⟨h₂.node.trans h₁.node, h₂.normalLink.trans h₁.normalLink, h₂.modify.trans h₁.modify,
    h₁.create.trans h₂.create⟩

theorem tupEntryAdd (h : Grows db db₁) (i : TupId) : tupEntryAdd db₁ i = tupEntryAdd db i := by
  unfold Metatup.tupEntryAdd
  rw [h.node]

theorem normalAdj (h : Grows db db₁) (a b : TupId) : NormalAdj db₁ a b ↔ NormalAdj db a b := by
  unfold NormalAdj
  rw [h.normalLink]

/-- A loop of such statements. -/
theorem foldlM {β : Type} {f : Db → β → Option Db} {l : List β}
    (hf : ∀ db b db', f db b = some db' → Grows db db') (h : l.foldlM f db = some db₁) :
    Grows db db₁ := by
  induction l generalizing db with
  | nil =>
    cases h
    exact refl _
  | cons b l ih =>
    rw [List.foldlM_cons, Option.bind_eq_bind, Option.bind_eq_some_iff] at h
    obtain ⟨m, hm, h⟩ := h
    exact (hf _ _ _ hm).trans (ih h)

theorem foldl {β : Type} {f : Db → β → Db} {l : List β} (hf : ∀ db b, Grows db (f db b)) :
    Grows db (l.foldl f db) := by
  induction l generalizing db with
  | nil => exact refl db
  | cons b l ih => exact (hf db b).trans ih

theorem addCreate (db : Db) (i : TupId) : Grows db (db.addCreate i) :=
  ⟨rfl, rfl, rfl, Finset.subset_insert i _⟩

theorem addConfig (db : Db) (i : TupId) : Grows db (db.addConfig i) := ⟨rfl, rfl, rfl, subset_rfl⟩

theorem addGhostTree (db : Db) (tent : TupEntry) : Grows db (tupEntryAddGhostTree db tent) := by
  rw [tupEntryAddGhostTree_eq]
  exact ⟨rfl, rfl, rfl, subset_rfl⟩

theorem maybeAddCreateList (db : Db) (i : TupId) : Grows db (tupDbMaybeAddCreateList db i) := by
  unfold tupDbMaybeAddCreateList
  split
  · exact addCreate db i
  · exact refl db

theorem maybeAddConfigList (db : Db) (i : TupId) : Grows db (tupDbMaybeAddConfigList db i) := by
  unfold tupDbMaybeAddConfigList
  split
  · exact addConfig db i
  · exact refl db

theorem setDependentDirFlags (db : Db) (i : TupId) : Grows db (tupDbSetDependentDirFlags db i) :=
  ⟨rfl, rfl, rfl, Finset.subset_union_left⟩

theorem setDependentFlags (db : Db) (i : TupId) : Grows db (tupDbSetDependentFlags db i) :=
  (setDependentDirFlags db i).trans ⟨rfl, rfl, rfl, subset_rfl⟩

theorem setSrcidDirFlags {i : TupId} (h : tupDbSetSrcidDirFlags db i = some db₁) :
    Grows db db₁ := by
  apply foldlM _ h
  intro db s db' hstep
  obtain ⟨tent, -, hstep⟩ := Option.bind_eq_some_iff.1 hstep
  cases hstep
  split
  · exact addCreate db s
  · exact refl db

theorem addGhostChecks {i : TupId} (h : addGhostChecks db i = some db₁) : Grows db db₁ := by
  apply foldlM _ h
  intro db j db' hstep
  obtain ⟨tent, -, hstep⟩ := Option.bind_eq_some_iff.1 hstep
  cases hstep
  exact addGhostTree db tent

theorem addGroupAndExclusionChecks {i : TupId} (h : addGroupAndExclusionChecks db i = some db₁) :
    Grows db db₁ := by
  obtain ⟨tents, -, h⟩ := Option.bind_eq_some_iff.1 h
  cases h
  exact foldl addGhostTree

theorem flagGroupUsers {i : TupId} (h : flagGroupUsers db i = some db₁) : Grows db db₁ := by
  obtain ⟨tent, -, h⟩ := Option.bind_eq_some_iff.1 h
  split at h
  · cases h
    exact ⟨rfl, rfl, rfl, Finset.subset_union_left⟩
  · cases h
    exact refl db

end Grows

/-- Dropping the links of a node, after some flags have been set. -/
theorem tupDbDeleteLinks_eq {db db' : Db} {i : TupId} (h : tupDbDeleteLinks db i = some db') :
    ∃ m, Grows db m ∧ db' = deleteTableLinks m i := by
  obtain ⟨db₁, h₁, h⟩ := Option.bind_eq_some_iff.1 h
  obtain ⟨db₂, h₂, h⟩ := Option.bind_eq_some_iff.1 h
  obtain ⟨db₃, h₃, h⟩ := Option.bind_eq_some_iff.1 h
  cases h
  exact ⟨db₃, ((Grows.addGhostChecks h₁).trans (Grows.addGroupAndExclusionChecks h₂)).trans
    (Grows.flagGroupUsers h₃), rfl⟩

/-! ### Whom a statement flags -/

theorem mem_dependents {db : Db} {i c : TupId} {kind : NodeType → Bool} : c ∈ dependents db i kind ↔
    NormalAdj db i c ∧ ∃ t, tupEntryAdd db c = some t ∧ kind t.type = true := by
  simp only [dependents, List.mem_toFinset, List.mem_filter, List.mem_map, Option.any_eq_true]
  constructor
  · rintro ⟨⟨l, ⟨hl, hfrom⟩, rfl⟩, t, ht⟩
    simp only [decide_eq_true_eq] at hfrom
    subst hfrom
    exact ⟨hl, t, ht⟩
  · rintro ⟨hl, t, ht⟩
    exact ⟨⟨⟨i, c⟩, ⟨hl, by simp⟩, rfl⟩, t, ht⟩

theorem mem_modifyCmdsByOutput {db : Db} {o c : TupId} :
    c ∈ (tupDbModifyCmdsByOutput db o).1.flags.modify ↔ c ∈ db.flags.modify ∨ NormalAdj db c o := by
  have key : c ∈ ((db.normalLink.filter (·.toId = o)).map Link.fromId).toFinset ↔
      NormalAdj db c o := by
    simp only [List.mem_toFinset, List.mem_map, List.mem_filter, decide_eq_true_eq]
    constructor
    · rintro ⟨l, ⟨hl, rfl⟩, rfl⟩
      exact hl
    · exact fun hl => ⟨⟨c, o⟩, ⟨hl, rfl⟩, rfl⟩
  rw [← key]
  exact Finset.mem_union

theorem normalAdj_deleteTableLinks {db : Db} {i a b : TupId} :
    NormalAdj (deleteTableLinks db i) a b ↔ NormalAdj db a b ∧ a ≠ i ∧ b ≠ i := by
  simp [NormalAdj, deleteTableLinks, withoutNode]

end Metatup
