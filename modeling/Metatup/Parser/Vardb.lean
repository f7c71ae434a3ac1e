import Mathlib.Tactic.SplitIfs
import Metatup.Entry

/-!
# Variable trees

A `struct vardb` maps names to values, each with the mode it was set with. The maps that hold the
arguments of a function never hold a null value.
-/

namespace Metatup

/-- Source: `vardb.h` `enum vardb_merge_mode` -/
inductive MergeMode
  | override | append | prepend | inherit
  deriving DecidableEq, Repr

/-- Source: `vardb.h` `struct var_entry` -/
structure VarEntry where
  value : Text
  mergeMode : MergeMode := .override
  deriving DecidableEq, Repr

/-- Source: `vardb.h` `struct vardb` -/
abbrev Vardb := Text → Option VarEntry

/-- Source: `vardb.c` `vardb_init` -/
def vardbInit : Vardb := fun _ => none

/-- Source: `vardb.c` `vardb_set_mode` -/
def vardbSetMode (v : Vardb) (var value : Text) (mode : MergeMode) : Vardb :=
  fun k => if k = var then some ⟨value, mode⟩ else v k

/-- Source: `vardb.c` `vardb_set` -/
def vardbSet (v : Vardb) (var value : Text) : Vardb := vardbSetMode v var value .override

/-- Source: `vardb.c` `vardb_merge` -/
def vardbMerge (v : Vardb) (var value : Text) (mode : MergeMode) : Vardb :=
  match v var with
  | none => vardbSetMode v var value mode
  | some ve =>
    if mode = .override then vardbSetMode v var value mode
    else if ve.value = [] then vardbSetMode v var value mode
    else if value = [] then vardbSetMode v var ve.value mode
    else if mode = .prepend then vardbSetMode v var (value ++ ' ' :: ve.value) mode
    else vardbSetMode v var (ve.value ++ ' ' :: value) mode

/-- Source: `parser.c` `vardb_apply_merge` -/
def vardbApplyMerge (v : Vardb) (key value : Text) (mode : MergeMode) : Vardb :=
  if mode = .append ∨ mode = .prepend then vardbMerge v key value mode
  else vardbSetMode v key value mode

/-- Source: `parser.c` `merge_arg_frame`. The names of a tree differ, so that the order in which they
are set does not matter. -/
def mergeArgFrame (dst src : Vardb) : Vardb := fun k =>
  match src k with
  | some ve => vardbSet dst k ve.value k
  | none => dst k

/-- Source: `parser.c` `merge_named_object_var`, once the variable has been found. -/
def mergeNamedObjectVar (dst src : Vardb) : Vardb := fun k =>
  match src k with
  | some ve => vardbApplyMerge dst k ve.value ve.mergeMode k
  | none => dst k

@[simp] theorem vardbSetMode_apply (v : Vardb) (var value : Text) (mode : MergeMode) (k : Text) :
    vardbSetMode v var value mode k = if k = var then some ⟨value, mode⟩ else v k := rfl

@[simp] theorem vardbSet_apply (v : Vardb) (var value k : Text) :
    vardbSet v var value k = if k = var then some ⟨value, .override⟩ else v k := rfl

end Metatup
