import Metatup.Lib.Lts
import Metatup.Parser.ArgMap
import Metatup.Parser.Path

/-!
# Function frames

A function of a Tupfile runs in a frame that holds its arguments and the context of the build it was
reached from. `call` runs the function in the directory of its file and lets it inherit `reldir` and
`brdir`; `spawn` runs it in the directory of the caller and sets them anew.

* `executeFunction`, `parseFunctionInvoke`: entering a function.
* `tupbuildStart`: entering the function of a build of a TupBuild file.
* `FnStep`: one statement that enters or leaves a function or an included file.
-/

namespace Metatup

/-- Source: `parser.c` `struct tup_build_ctx`; what the modelled functions read of it. -/
structure TupBuildCtx where
  strict : Bool
  /-- The variables whose paths are relative to the directory of the caller. -/
  callerPathVars : List Text := []
  deriving DecidableEq

/-- Source: `parser.c` `struct tup_func_frame`; what the modelled functions read of it. -/
structure FuncFrame where
  args : Vardb
  buildCtx : Option TupBuildCtx

/-- Source: `parser.h` `struct tupfile`; what the modelled functions read of it. -/
structure Tupfile where
  /-- The directory that is being parsed. -/
  tent : Dir
  /-- The directory of the file that is being parsed. -/
  curtent : Dir
  funcFrame : Option FuncFrame := none

/-- Source: the `"reldir"` of `parser.c`. -/
def reldirKey : Text := "reldir".toList

/-- Source: the `"brdir"` of `parser.c`. -/
def brdirKey : Text := "brdir".toList

/-- Source: the `"builddir"` of `parser.c`. -/
def builddirKey : Text := "builddir".toList

/-! ### Entering a function -/

/-- The value `function_arg_set_reldir` sets: the path of the directory from the top. -/
def reldirText (curtent : Dir) : Text := if curtent = [] then ['.'] else joinNames curtent

/-- Source: `parser.c` `function_arg_set_reldir` -/
def functionArgSetReldir (curtent : Dir) (args : Vardb) : Vardb :=
  vardbSet args reldirKey (reldirText curtent)

/-- Source: `parser.c` `tupbuild_combine_builddir_reldir` -/
def tupbuildCombineBuilddirReldir (top builddir reldir : Text) : Text :=
  let pg := getPathElements top (builddir ++ '/' :: reldir)
  if pg.pathList = [] then ['.'] else joinNames pg.pathList

/-- Source: `parser.c` `function_arg_set_brdir` -/
def functionArgSetBrdir (top : Text) (args : Vardb) : Vardb :=
  match args builddirKey, args reldirKey with
  | some builddir, some reldir =>
    vardbSet args brdirKey (tupbuildCombineBuilddirReldir top builddir.value reldir.value)
  | _, _ => args

/-- The arguments `execute_function` gives the frame. -/
def frameArgs (top : Text) (curtent : Dir) (args : Vardb) (inheritReldir : Bool) : Vardb :=
  let args := if !inheritReldir || (args reldirKey).isNone then functionArgSetReldir curtent args
    else args
  if !inheritReldir || (args brdirKey).isNone then functionArgSetBrdir top args else args

/-- Source: `parser.c` `execute_function`, up to the point where the body is parsed. -/
def executeFunction (top : Text) (tf : Tupfile) (args : Vardb) (ctx : Option TupBuildCtx)
    (inheritReldir : Bool) : Tupfile :=
  { tf with
    funcFrame := some
      { args := frameArgs top tf.curtent args inheritReldir
        buildCtx := match ctx with
          | some ctx => some ctx
          | none => tf.funcFrame.bind FuncFrame.buildCtx } }

/-- Source: `parser.c` `invoke_function_path`. Loading the file moves to its directory `fnDir`, and
`spawn` moves back before the function is executed. A function that is not named by a path, or is in
the standard repository, is executed where the caller is: `fnDir` is `none`. -/
def invokeFunctionPath (top : Text) (tf : Tupfile) (fnDir : Option Dir) (args : Vardb)
    (ctx : Option TupBuildCtx) (inheritReldir : Bool) : Tupfile :=
  let loaded := { tf with curtent := fnDir.getD tf.curtent }
  if !inheritReldir then executeFunction top { loaded with curtent := tf.curtent } args ctx false
  else executeFunction top loaded args ctx true

/-- A `call` or `spawn`, alone or in an `fbind`: the statement and what its evaluation finds in the
variables of the caller. -/
structure Invocation where
  /-- `call` lets the callee inherit `reldir`, `spawn` does not. -/
  inheritReldir : Bool
  fnDir : Option Dir
  /-- The text between the parentheses. -/
  argspec : Text
  objectVar : Text → Option Vardb
  eval : Text → Option Text

/-- What the argument map of an invocation is read in. -/
def Invocation.env (inv : Invocation) (tf : Tupfile) : ArgEnv :=
  { frameArgs := tf.funcFrame.map FuncFrame.args, objectVar := inv.objectVar, eval := inv.eval }

/-- Source: `parser.c` `parse_function_invoke`, and the same part of `parse_fbind`. -/
def parseFunctionInvoke (top : Text) (tf : Tupfile) (inv : Invocation) :
    Except ArgMapError Tupfile :=
  match parseArgMap (inv.env tf) inv.argspec true with
  | .error e => .error e
  | .ok args => .ok (invokeFunctionPath top tf inv.fnDir args none inv.inheritReldir)

/-! ### Builds -/

/-- Source: `tupbuild.h` `struct tupbuild_dep` -/
structure TupbuildDep where
  build : Text
  as : Text
  deriving DecidableEq

/-- Source: `tupbuild.h` `struct tupbuild_dist` -/
structure TupbuildDist where
  fromReturn : Text
  path : Text
  deriving DecidableEq

/-- Source: `tupbuild.h` `struct tupbuild_build` -/
structure TupbuildBuild where
  name : Text
  tupfile : Option Text := none
  function : Option Text := none
  builddir : Text
  profile : Option Text := none
  args : List (Text × Text) := []
  depends : List TupbuildDep := []
  dists : List TupbuildDist := []
  deriving DecidableEq

/-- Source: `tupbuild.h` `struct tupbuild_file` -/
structure TupbuildFile where
  strict : Bool
  autoCompiledb : Bool := false
  globalArgs : List (Text × Text) := []
  builds : List TupbuildBuild
  deriving DecidableEq

/-- The names that the arguments of a build cannot have. -/
def isReserved (key : Text) : Bool := key = builddirKey || key = brdirKey

/-- One of the `globalArgs`; a name may be given once. Source: `parser.c` `tupbuild_set_arg` -/
def setGlobalArg (resolve : Text → Option Text) (args : Vardb) (arg : Text × Text) :
    Option Vardb :=
  if isReserved arg.1 then none
  else do
    let resolved ← resolve arg.2
    if (args arg.1).isSome then none else some (vardbSet args arg.1 resolved)

/-- One of the arguments of the build. -/
def setBuildArg (resolve : Text → Option Text) (args : Vardb) (arg : Text × Text) :
    Option Vardb :=
  if isReserved arg.1 then none
  else do
    let resolved ← resolve arg.2
    some (vardbSet args arg.1 resolved)

/-- The argument that stands for the profile of the build. -/
def setProfile (args : Vardb) : Option Text → Option Vardb
  | none => some args
  | some profile => if isReserved profile then none else some (vardbSet args profile "true".toList)

/-- The argument that holds the builddir of a dependency. -/
def setDepend (tb : TupbuildFile) (args : Vardb) (dep : TupbuildDep) : Option Vardb := do
  let found ← tb.builds.find? (·.name = dep.build)
  if isReserved dep.as || (args dep.as).isSome then none
  else some (vardbSet args dep.as found.builddir)

/-- The arguments `parse_tupbuild` gives the function of a build; `none` is one of its errors.
`resolve` is `tupbuild_resolve_arg_value`. -/
def tupbuildArgs (resolve : Text → Option Text) (tb : TupbuildFile) (build : TupbuildBuild) :
    Option Vardb := do
  let args ← tb.globalArgs.foldlM (setGlobalArg resolve) vardbInit
  let args ← build.args.foldlM (setBuildArg resolve) args
  let args ← setProfile args build.profile
  let args ← build.depends.foldlM (setDepend tb) args
  return vardbSet args builddirKey build.builddir

/-- The state in which the function of a build starts; `base` is the directory of the TupBuild file.
Source: `parser.c` `parse_tupbuild` -/
def tupbuildStart (top : Text) (resolve : Text → Option Text) (tb : TupbuildFile)
    (build : TupbuildBuild) (base : Dir) (fnDir : Option Dir) : Option Tupfile := do
  let args ← tupbuildArgs resolve tb build
  let ctx : TupBuildCtx :=
    { strict := tb.strict
      callerPathVars := builddirKey :: brdirKey :: build.depends.map TupbuildDep.as }
  return invokeFunctionPath top { tent := base, curtent := base } fnDir args (some ctx) false

/-! ### Runs -/

/-- What enters or leaves a function or an included file. -/
inductive FnEvent
  | invoke (inv : Invocation)
  /-- An `include` of a file in this directory. -/
  | includeFile (dir : Dir)
  | leave

/-- The parser enters a function or an included file, or returns to where it entered it from. The
states that will be returned to are below the current one. -/
inductive FnStep (top : Text) : List Tupfile → FnEvent → List Tupfile → Prop
  | invoke {tf tf' : Tupfile} {st : List Tupfile} {inv : Invocation} :
      parseFunctionInvoke top tf inv = .ok tf' →
        FnStep top (tf :: st) (.invoke inv) (tf' :: tf :: st)
  | includeFile {tf : Tupfile} {st : List Tupfile} (dir : Dir) :
      FnStep top (tf :: st) (.includeFile dir) ({ tf with curtent := dir } :: tf :: st)
  | leave {tf tf' : Tupfile} {st : List Tupfile} : FnStep top (tf' :: tf :: st) .leave (tf :: st)

/-! ### What a build starts with -/

/-- Setting a name that is not reserved leaves `brdir` as it is. -/
theorem vardbSet_brdir (args : Vardb) {key : Text} (value : Text) (hk : ¬ isReserved key = true) :
    vardbSet args key value brdirKey = args brdirKey := by
  simp only [isReserved, Bool.or_eq_true, decide_eq_true_eq, not_or] at hk
  exact if_neg (Ne.symm hk.2)

section

variable {resolve : Text → Option Text} {tb : TupbuildFile} {args out : Vardb}

theorem setGlobalArg_brdir {arg : Text × Text} (h : setGlobalArg resolve args arg = some out) :
    out brdirKey = args brdirKey := by
  unfold setGlobalArg at h
  split at h
  · cases h
  · next hk =>
    obtain ⟨r, -, h⟩ := Option.bind_eq_some_iff.1 h
    split at h
    · cases h
    · cases h
      exact vardbSet_brdir args r hk

theorem setBuildArg_brdir {arg : Text × Text} (h : setBuildArg resolve args arg = some out) :
    out brdirKey = args brdirKey := by
  unfold setBuildArg at h
  split at h
  · cases h
  · next hk =>
    obtain ⟨r, -, h⟩ := Option.bind_eq_some_iff.1 h
    cases h
    exact vardbSet_brdir args r hk

theorem setProfile_brdir {profile : Option Text} (h : setProfile args profile = some out) :
    out brdirKey = args brdirKey := by
  unfold setProfile at h
  split at h
  · cases h
    rfl
  · split at h
    · cases h
    · next hk =>
      cases h
      exact vardbSet_brdir args _ hk

theorem setDepend_brdir {dep : TupbuildDep} (h : setDepend tb args dep = some out) :
    out brdirKey = args brdirKey := by
  obtain ⟨found, -, h⟩ := Option.bind_eq_some_iff.1 h
  split at h
  · cases h
  · next hk =>
    rw [Bool.or_eq_true, not_or] at hk
    cases h
    exact vardbSet_brdir args _ hk.1

end

/-- A loop whose rounds leave `brdir` as it is leaves it as it is. -/
theorem foldlM_brdir {β : Type} {f : Vardb → β → Option Vardb} {l : List β} {args out : Vardb}
    (hf : ∀ a b a', f a b = some a' → a' brdirKey = a brdirKey)
    (h : l.foldlM f args = some out) : out brdirKey = args brdirKey := by
  induction l generalizing args with
  | nil =>
    cases h
    rfl
  | cons b l ih =>
    rw [List.foldlM_cons, Option.bind_eq_bind, Option.bind_eq_some_iff] at h
    obtain ⟨a, ha, h⟩ := h
    exact (ih h).trans (hf _ _ _ ha)

/-- The arguments of a build hold its `builddir` and no `brdir`. -/
theorem tupbuildArgs_spec {resolve : Text → Option Text} {tb : TupbuildFile} {build : TupbuildBuild}
    {args : Vardb} (h : tupbuildArgs resolve tb build = some args) :
    args builddirKey = some ⟨build.builddir, .override⟩ ∧ args brdirKey = none := by
  simp only [tupbuildArgs, Option.bind_eq_bind, Option.bind_eq_some_iff] at h
  obtain ⟨a₁, h₁, a₂, h₂, a₃, h₃, a₄, h₄, h₅⟩ := h
  cases h₅
  refine ⟨by rw [vardbSet_apply, if_pos rfl], ?_⟩
  have hne : brdirKey ≠ builddirKey := by decide
  rw [vardbSet_apply, if_neg hne, foldlM_brdir (fun _ _ _ => setDepend_brdir) h₄,
    setProfile_brdir h₃, foldlM_brdir (fun _ _ _ => setBuildArg_brdir) h₂,
    foldlM_brdir (fun _ _ _ => setGlobalArg_brdir) h₁]
  rfl

end Metatup
