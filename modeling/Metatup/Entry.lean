import Mathlib.Data.Int.Notation

/-!
# Entries

A `TupEntry` is the cached row of the `node` table. Names, display strings and flags are texts; a
text is a list of characters.
-/

namespace Metatup

/-- A row id of the `node` table. Source: `tupid.h` `tupid_t`; `-1` and below are markers. -/
abbrev TupId := Int

/-- A C string. -/
abbrev Text := List Char

instance : LawfulBEq Text := inferInstance

/-- Source: `db_types.h` `DOT_DT`. -/
def dotDt : TupId := 1

/-- Source: `db_types.h` `enum TUP_NODE_TYPE`. -/
inductive NodeType
  | file | cmd | dir | var | generated | ghost | group | generatedDir | root
  deriving DecidableEq, Repr

/-- Source: `db_types.h` `enum TUP_LINK_TYPE`; only the two styles a graph edge can have. -/
inductive LinkType
  | normal | sticky
  deriving DecidableEq, Repr

/-- Source: `entry.h` `struct tup_entry`, the columns of the `node` table that the modelled
functions read. -/
structure TupEntry where
  /-- The row id. -/
  tupid : TupId
  /-- The directory the node is in. -/
  dt : TupId
  /-- The kind of node. -/
  type : NodeType
  /-- The directory whose parse created the node, or a marker. -/
  srcid : TupId := -1
  /-- The name in the directory; for a command, the command string. -/
  name : Text := []
  /-- The text between `^` marks that is shown in place of a command string. -/
  display : Text := []
  /-- The `^`-flags. -/
  flags : Text := []
  /-- Seconds and nanoseconds; -1 for a file that has not been seen. -/
  mtime : Int × Int := (-1, 0)
  deriving DecidableEq, Repr

/-- Source: `entry.c` `has_flag`. -/
def hasFlag (tent : TupEntry) (c : Char) : Bool := tent.flags.contains c

/-- Source: `entry.c` `is_transient_tent`. -/
def isTransientTent (tent : TupEntry) : Bool := hasFlag tent 't'

/-- The names of the virtual directories below the top. Source: `db.c` `is_virtual_tent` -/
def isVirtualTent (tent : TupEntry) : Bool :=
  tent.dt == dotDt && (tent.name == ['$'] || tent.name == ['/'] || tent.name == ['^'])

end Metatup
