import Mathlib.Logic.Relation
import Metatup.Db.Flags
import Metatup.Db.TentTree

/-!
# The database

The tables of the database as lists of rows, with the functions that read and write one row. An
SQL statement that cannot fail for a reason in the data is total; `none` is the `-1` of a violated
key or of a check the code makes.

* `Db.Ok`: what the keys of the tables and the links between them guarantee.
* `linkInsert_normal`, `linkRemove_normal`: what the link functions do to the normal links.
-/

namespace Metatup

/-- A row of `normal_link` or `sticky_link`. Source: `db.c` `tup_db_create` -/
structure Link where
  fromId : TupId
  toId : TupId
  deriving DecidableEq, Repr

/-- A row of `group_link`. -/
structure GroupLink where
  fromId : TupId
  toId : TupId
  cmdid : TupId
  deriving DecidableEq, Repr

/-- A row of `command_allow_read`. -/
structure AllowRead where
  cmdid : TupId
  seq : ℕ
  pattern : Text
  deriving DecidableEq, Repr

/-- Source: `variant.h` `struct variant`. -/
structure Variant where
  /-- The `tup.config` node. -/
  tent : TupId
  /-- Its directory, which is what a variant is searched by. -/
  dtnode : TupId
  rootVariant : Bool
  enabled : Bool := true
  deriving DecidableEq, Repr

/-- The database, the variants that have been loaded and the global `ghost_root`. -/
structure Db where
  node : List TupEntry := []
  normalLink : List Link := []
  stickyLink : List Link := []
  groupLink : List GroupLink := []
  allowRead : List AllowRead := []
  flags : Flags := {}
  variants : List Variant := []
  ghostRoot : TentTree := ∅
  deriving DecidableEq

/-- Source: `entry.c` `tup_entry_add` -/
def tupEntryAdd (db : Db) (i : TupId) : Option TupEntry := db.node.find? (·.tupid = i)

/-- What the keys of the tables, and the links having been made between nodes, guarantee. -/
structure Db.Ok (db : Db) : Prop where
  node_nodup : (db.node.map TupEntry.tupid).Nodup
  node_pos : ∀ t ∈ db.node, 0 < t.tupid
  normal_nodup : db.normalLink.Nodup
  normal_mem : ∀ l ∈ db.normalLink,
    (∃ t ∈ db.node, t.tupid = l.fromId) ∧ ∃ t ∈ db.node, t.tupid = l.toId

/-- Two nodes are joined by a normal link. -/
def NormalAdj (db : Db) (a b : TupId) : Prop := ⟨a, b⟩ ∈ db.normalLink

instance (db : Db) (a b : TupId) : Decidable (NormalAdj db a b) := by
  unfold NormalAdj; infer_instance

section

variable {db : Db} {i : TupId} {t : TupEntry}

theorem mem_node_of_tupEntryAdd (h : tupEntryAdd db i = some t) : t ∈ db.node ∧ t.tupid = i :=
  ⟨List.mem_of_find?_eq_some h, by simpa using List.find?_some h⟩

theorem Db.Ok.tupEntryAdd_of_mem (h : db.Ok) (ht : t ∈ db.node) :
    tupEntryAdd db t.tupid = some t := by
  obtain ⟨u, hu⟩ : ∃ u, tupEntryAdd db t.tupid = some u :=
    Option.isSome_iff_exists.1 (List.find?_isSome.2 ⟨t, ht, by simp⟩)
  obtain ⟨hmem, hid⟩ := mem_node_of_tupEntryAdd hu
  rw [hu, List.inj_on_of_nodup_map h.node_nodup hmem ht hid]

theorem Db.Ok.pos_of_tupEntryAdd (h : db.Ok) (ht : tupEntryAdd db i = some t) : 0 < i := by
  obtain ⟨hmem, rfl⟩ := mem_node_of_tupEntryAdd ht
  exact h.node_pos t hmem

end

/-! ### Variants -/

/-- Source: `variant.c` `variant_search` -/
def variantSearch (db : Db) (dt : TupId) : Option Variant := db.variants.find? (·.dtnode = dt)

/-- The walk of `tup_entry_variant_null` from a node to its directories; the fuel bounds its
length. -/
def tupEntryVariantLoop (db : Db) : ℕ → TupEntry → Option Variant
  | 0, _ => none
  | fuel + 1, tent =>
    match variantSearch db tent.tupid with
    | some v => some v
    | none =>
      match tupEntryAdd db tent.dt with
      | some parent => tupEntryVariantLoop db fuel parent
      | none => none

/-- Source: `entry.c` `tup_entry_variant_null`. A walk up the tree meets each directory once. -/
def tupEntryVariant (db : Db) (tent : TupEntry) : Option Variant :=
  tupEntryVariantLoop db (db.node.length + 1) tent

/-! ### Ghosts -/

/-- Source: `entry.c` `tup_entry_add_ghost_tree` -/
def tupEntryAddGhostTree (db : Db) (tent : TupEntry) : Db :=
  match tent.type with
  | .ghost | .group | .generatedDir => { db with ghostRoot := tentTreeAddDup db.ghostRoot tent.tupid }
  | _ => db

/-! ### Links -/

/-- The table of a link style. -/
def Db.links (db : Db) : LinkType → List Link
  | .normal => db.normalLink
  | .sticky => db.stickyLink

/-- Overwrite the table of a link style. -/
def Db.setLinks (db : Db) : LinkType → List Link → Db
  | .normal, l => { db with normalLink := l }
  | .sticky, l => { db with stickyLink := l }

/-- Source: `db.c` `link_insert` -/
def linkInsert (db : Db) (a b : TupId) (style : LinkType) : Option Db :=
  if a = b then none
  else if a ≤ 0 ∨ b ≤ 0 then none
  else if ⟨a, b⟩ ∈ db.links style then none
  else some (db.setLinks style (⟨a, b⟩ :: db.links style))

/-- Source: `db.c` `link_remove` -/
def linkRemove (db : Db) (a b : TupId) (style : LinkType) : Db :=
  db.setLinks style ((db.links style).filter (· ≠ ⟨a, b⟩))

/-- Source: `db.c` `tup_db_link_exists` -/
def tupDbLinkExists (db : Db) (a b : TupId) (style : LinkType) : Bool :=
  (db.links style).contains ⟨a, b⟩

@[simp] theorem linkRemove_normal (db : Db) (a b : TupId) : linkRemove db a b .normal =
    { db with normalLink := db.normalLink.filter (· ≠ ⟨a, b⟩) } := rfl

theorem linkInsert_normal {db : Db} {a b : TupId} (hne : a ≠ b) (ha : 0 < a) (hb : 0 < b)
    (h : ¬ NormalAdj db a b) :
    linkInsert db a b .normal = some { db with normalLink := ⟨a, b⟩ :: db.normalLink } := by
  have hpos : ¬ (a ≤ 0 ∨ b ≤ 0) := not_or.2 ⟨not_le.2 ha, not_le.2 hb⟩
  have hdup : ¬ ⟨a, b⟩ ∈ db.links .normal := h
  unfold linkInsert
  rw [if_neg hne, if_neg hpos, if_neg hdup]
  rfl

@[simp] theorem tupDbLinkExists_normal (db : Db) (a b : TupId) :
    tupDbLinkExists db a b .normal = decide (NormalAdj db a b) := by
  rw [Bool.eq_iff_iff, decide_eq_true_eq]
  exact List.contains_iff_mem

theorem tupEntryAddGhostTree_eq (db : Db) (tent : TupEntry) : tupEntryAddGhostTree db tent =
    { db with ghostRoot := (tupEntryAddGhostTree db tent).ghostRoot } := by
  unfold tupEntryAddGhostTree
  split <;> rfl

/-- Source: `db.c` `get_outputs`, which feeds `tup_db_select_node_by_link`. -/
def getOutputs (db : Db) (i : TupId) : Option (List TupEntry) :=
  ((db.normalLink.filter (·.fromId = i)).map Link.toId).mapM (tupEntryAdd db)

end Metatup
