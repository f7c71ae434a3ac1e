import Metatup.Parser.Frame

/-!
# Path lists

An element of an input or output list, and the directory it is in.
-/

namespace Metatup

open Lib

/-- What an element of a path list is. -/
inductive PlKind
  | path | group | bin | exclusion
  deriving DecidableEq, Repr

/-- Source: `parser.h` `struct path_list` -/
structure PathList where
  mem : Text
  kind : PlKind
  /-- The path is relative to `curtent`, not to `tent`. -/
  tentRelative : Bool
  deriving DecidableEq, Repr

/-- The directory of the exclusions. Source: `db.c` `exclusion_dt` -/
def exclusionDt : Dir := [['^']]

/-- Source: `parser.c` `new_pl`; `bl` are the bins that can be used, if any can. A pattern is taken
to compile. -/
def newPl (tf : Tupfile) (s : Text) (bl : Option (List Text)) : Option PathList :=
  let pl (kind : PlKind) : PathList := ⟨s, kind, tf.funcFrame.isSome⟩
  if s.head? = some '{' then
    match bl with
    | none => none
    | some bins =>
      if s.contains '}' && bins.contains ((s.drop 1).takeWhile (· ≠ '}')) then some (pl .bin)
      else none
  else if s.head? = some '^' then some (pl .exclusion)
  else if s.contains '<' then if s.contains '>' then some (pl .group) else none
  else some (pl .path)

/-- The directory the text of an element is relative to. -/
def PathList.base (pl : PathList) (tf : Tupfile) : Dir :=
  if pl.tentRelative then tf.curtent else tf.tent

/-- The `dt` of an element that is to be created, once `path_list_fill_dt_pel` has been called. A
bin has none. -/
def PathList.dt (top : Text) (blocked : Dir → Bool) (tf : Tupfile) (pl : PathList) : Option Dir :=
  match pl.kind with
  | .bin => none
  | .exclusion => some exclusionDt
  | .path | .group => (pathListFillDtPel top blocked pl.mem (pl.base tf)).map Prod.fst

/-- What is in the way of an element can only stop it. -/
theorem PathList.dt_unblocked {top : Text} {blocked : Dir → Bool} {tf : Tupfile} {pl : PathList}
    {D : Dir} (h : pl.dt top blocked tf = some D) : pl.dt top (fun _ => false) tf = some D := by
  unfold PathList.dt at h ⊢
  split at h
  · cases h
  · exact h
  all_goals
    obtain ⟨r, hr, rfl⟩ := Option.map_eq_some_iff.1 h
    rw [pathListFillDtPel_unblocked hr]
    rfl

end Metatup
