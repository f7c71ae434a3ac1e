import Mathlib.Data.Finset.Basic
import Metatup.Entry

/-!
# The flag tables

Five tables of the database hold nothing but node ids: what has to be configured, parsed and
executed, which nodes are variants, and which transient commands and files are left to be handled.
Adding an id is `insert or ignore`, removing one is `delete`.
-/

namespace Metatup

/-- The tables `config_list`, `create_list`, `modify_list`, `variant_list` and `transient_list`.
Source: `db.c` `tup_db_create` -/
structure Flags where
  config : Finset TupId := ∅
  create : Finset TupId := ∅
  modify : Finset TupId := ∅
  variant : Finset TupId := ∅
  transient : Finset TupId := ∅
  deriving DecidableEq

/-- Source: `db.c` `tup_db_add_create_list` -/
def tupDbAddCreateList (f : Flags) (i : TupId) : Flags := { f with create := insert i f.create }

/-- Source: `db.c` `tup_db_add_modify_list` -/
def tupDbAddModifyList (f : Flags) (i : TupId) : Flags := { f with modify := insert i f.modify }

/-- Source: `db.c` `tup_db_add_transient_list` -/
def tupDbAddTransientList (f : Flags) (i : TupId) : Flags :=
  { f with transient := insert i f.transient }

/-- Source: `db.c` `tup_db_unflag_config` -/
def tupDbUnflagConfig (f : Flags) (i : TupId) : Flags := { f with config := f.config.erase i }

/-- Source: `db.c` `tup_db_unflag_create` -/
def tupDbUnflagCreate (f : Flags) (i : TupId) : Flags := { f with create := f.create.erase i }

/-- Source: `db.c` `tup_db_unflag_modify` -/
def tupDbUnflagModify (f : Flags) (i : TupId) : Flags := { f with modify := f.modify.erase i }

/-- Source: `db.c` `tup_db_unflag_variant` -/
def tupDbUnflagVariant (f : Flags) (i : TupId) : Flags := { f with variant := f.variant.erase i }

/-- Source: `db.c` `tup_db_unflag_transient` -/
def tupDbUnflagTransient (f : Flags) (i : TupId) : Flags :=
  { f with transient := f.transient.erase i }

end Metatup
