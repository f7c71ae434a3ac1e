import Metatup.Gen.Expand

/-!
# The generator

`tup gen`: the command line, the root component with its arguments, and the builds that are written.
The text that is written is not a matter of this module.

* `mtSetup`: what `metatup_gen` finds out before it builds the root.
* `metatupGen`: the root build and the list of all builds.
* `mtWriteTupbuild`: the builds in the order of the file.
-/

namespace Metatup

/-! ### The command line -/

/-- What `metatup_gen` keeps of the command line in its `struct mt_state`. -/
structure MtOptions where
  strict : Bool := true
  profile : Option Text := none
  overrideBuilddir : Option Text := none
  cliArgs : Kvs := []
  cliDists : List (Text × Option Text) := []
  buildNameSuffix : Option Text := none

/-- Source: `metatup.c` `mt_add_cli_dist` -/
def mtAddCliDist (opts : MtOptions) (spec : Text) : MtOptions :=
  { opts with cliDists := opts.cliDists ++ [match splitAtChar '=' spec with
      | some (ret, path) => (ret, some path)
      | none => (spec, none)] }

/-- The loop over the arguments after the component. Source: `metatup.c` `metatup_gen` -/
def mtParseOptions (opts : MtOptions) : List Text → Except Text MtOptions
  | [] => .ok opts
  | [arg] =>
    if arg = "--no-strict".toList then .ok { opts with strict := false }
    else mtParseSuffix opts arg
  | arg :: value :: rest =>
    if arg = "--no-strict".toList then mtParseOptions { opts with strict := false } (value :: rest)
    else if arg = "-P".toList then mtParseOptions { opts with profile := some value } rest
    else if arg = "-O".toList then mtParseOptions { opts with overrideBuilddir := some value } rest
    else if arg = "-B".toList then
      match splitAtChar '=' value with
      | none => .error "tup error: -B expects key=value.".toList
      | some (key, value) =>
        mtParseOptions { opts with cliArgs := mtSetKv opts.cliArgs key value } rest
    else if arg = "-D".toList then mtParseOptions (mtAddCliDist opts value) rest
    else do
      let opts ← mtParseSuffix opts arg
      mtParseOptions opts (value :: rest)
where
  /-- An argument without a meaning of its own is the suffix of the name. -/
  mtParseSuffix (opts : MtOptions) (arg : Text) : Except Text MtOptions :=
    if arg.head? = some '-' then
      .error ("tup error: Unknown option '".toList ++ arg ++ "'.".toList)
    else if opts.buildNameSuffix.isNone then
      .ok { opts with buildNameSuffix := some arg }
    else
      .error ("tup error: Unexpected argument '".toList ++ arg ++ "'.".toList)

/-! ### The root -/

/-- What the generator starts from. -/
structure MtSetup where
  env : MtEnv
  opts : MtOptions
  strict : Bool
  autoCompiledb : Bool
  root : MtInstance
  builddir : Text

/-- The arguments of the root: the defaults, the profile, the command line, and the profile itself. -/
def mtRootArgs (opts : MtOptions) (mf : MtFile) : Kvs :=
  let args := mtCloneKvs mf.defaults []
  let args := match opts.profile.bind (mtFindProfile mf) with
    | some profile => mtCloneKvs profile.set args
    | none => args
  let args := mtCloneKvs opts.cliArgs args
  match opts.profile with
  | some profile => mtSetKv args profile "true".toList
  | none => args

/-- The name of the root build. -/
def mtRootName (opts : MtOptions) (componentName : Text) : Text :=
  match opts.buildNameSuffix with
  | some suffix => componentName ++ '_' :: suffix
  | none => componentName

/-- The part of `metatup_gen` before the builds. Only the directories, the TupBuild file and the other
files of `world` are read. -/
def mtSetup (world : MtEnv) (componentName : Text) (args : List Text) : Except Text MtSetup := do
  let opts ← mtParseOptions {} args
  let meta_ := mtJoin world.root "MetaTup.yaml".toList
  let mf ← world.loadFile meta_
  match mtFindComponent mf componentName with
  | none => .error ("tup error: Unable to find component '".toList ++ componentName ++ "' in ".toList ++
      meta_ ++ ".".toList)
  | some component =>
    let rootName := mtRootName opts componentName
    .ok {
      env := { world with profile := opts.profile, rootName }
      opts
      strict := match world.existingTb with
        | some tb => tb.strict
        | none => opts.strict
      autoCompiledb := mf.autoCompiledb.getD (match world.existingTb with
        | some tb => tb.autoCompiledb
        | none => false)
      root := {
        ctx := { repoRootAbs := world.root, repoRootRel := [], package := [] }
        component
        args := mtRootArgs opts mf }
      builddir := opts.overrideBuilddir.getD (mtDefaultBuilddir rootName) }

/-! ### The builds -/

/-- The dists of the command line. -/
def mtCliDists (cliDists : List (Text × Option Text)) (name : Text) : List TupbuildDist :=
  cliDists.map fun (ret, path) =>
    { fromReturn := ret
      path := path.getD ("./".toList ++ name ++ '.' :: ret ++ ".dist".toList) }

/-- The root build gets the dists. -/
def mtAddDists (cliDists : List (Text × Option Text)) (ref : BuildRef) (gen : Generated) : Generated :=
  gen.modify ref.idx fun b =>
    { b with dists := b.dists ++ mtCliDists cliDists b.name }

/-- Source: `metatup.c` `metatup_gen`, before it writes the file -/
def metatupGen (fuel : ℕ) (world : MtEnv) (componentName : Text) (args : List Text) :
    MtResult (MtSetup × BuildRef × Generated) := do
  let setup ← .ofExcept (mtSetup world componentName args)
  let (ref, gen) ← mtBuildComponent setup.env fuel setup.root setup.env.rootName setup.builddir []
  .ok (setup, ref, mtAddDists setup.opts.cliDists ref gen)

/-- What a generator that succeeds has done. -/
theorem metatupGen_ok {fuel : ℕ} {world : MtEnv} {componentName : Text} {args : List Text}
    {setup : MtSetup} {ref : BuildRef} {gen : Generated}
    (h : metatupGen fuel world componentName args = .ok (setup, ref, gen)) :
    mtSetup world componentName args = .ok setup ∧ ∃ gen₀,
      mtBuildComponent setup.env fuel setup.root setup.env.rootName setup.builddir [] =
        .ok (ref, gen₀) ∧ gen = mtAddDists setup.opts.cliDists ref gen₀ := by
  obtain ⟨setup', hsetup, h⟩ := MtResult.bind_eq_ok.1 h
  obtain ⟨⟨ref', gen₀⟩, hbuild, h⟩ := MtResult.bind_eq_ok.1 h
  cases h
  exact ⟨MtResult.ofExcept_eq_ok.1 hsetup, gen₀, hbuild, rfl⟩

theorem mtSetup_ok {world : MtEnv} {componentName : Text} {args : List Text} {setup : MtSetup}
    (h : mtSetup world componentName args = .ok setup) :
    ∃ opts mf component, mtParseOptions {} args = .ok opts ∧
      world.loadFile (mtJoin world.root "MetaTup.yaml".toList) = .ok mf ∧
      mtFindComponent mf componentName = some component ∧
      setup.env = { world with profile := opts.profile, rootName := mtRootName opts componentName } ∧
      setup.opts = opts ∧
      setup.root = { ctx := { repoRootAbs := world.root, repoRootRel := [], package := [] }
                     component, args := mtRootArgs opts mf } ∧
      setup.builddir = opts.overrideBuilddir.getD
        (mtDefaultBuilddir (mtRootName opts componentName)) := by
  unfold mtSetup at h
  cases hopts : mtParseOptions {} args with
  | error err =>
    rw [hopts] at h
    cases h
  | ok opts =>
    rw [hopts] at h
    simp only [bind, Except.bind] at h
    split at h
    · cases h
    next mf hfile =>
    split at h
    · cases h
    · next component hfind =>
      cases h
      exact ⟨opts, mf, component, rfl, hfile, hfind, rfl, rfl, rfl, rfl⟩

/-! ### The file -/

/-- Source: `metatup.c` `mt_find_generated_by_name` -/
def mtFindGeneratedByName (gen : Generated) (name : Text) : Option ℕ :=
  gen.findIdx? (·.name = name)

/-- What `printf` prints for a null pointer. -/
def nullText : Text := "(null)".toList

/-- What `mt_write_existing_build` writes of a build. -/
def mtExistingBuild (b : TupbuildBuild) : TupbuildBuild :=
  { b with tupfile := some (b.tupfile.getD nullText), function := some (b.function.getD nullText) }

/-- What is written in the place of a build of the old file. -/
def mtRewriteBuild (gen : Generated) (b : TupbuildBuild) : TupbuildBuild :=
  match (mtFindGeneratedByName gen b.name).bind (gen[·]?) with
  | some g => g.toTupbuildBuild
  | none => mtExistingBuild b

/-- The indexes in `emitted` after the builds of the old file. -/
def mtEmitted (gen : Generated) (builds : List TupbuildBuild) : List ℕ :=
  builds.filterMap fun b => mtFindGeneratedByName gen b.name

/-- The builds of the file. Source: `metatup.c` `mt_write_tupbuild` -/
def mtWrittenBuilds (existing : List TupbuildBuild) (gen : Generated) : List TupbuildBuild :=
  existing.map (mtRewriteBuild gen) ++
    (gen.zipIdx.filter fun p => p.2 ∉ mtEmitted gen existing).map fun p => p.1.toTupbuildBuild

/-- What `mt_write_tupbuild` writes. -/
def mtWriteTupbuild (setup : MtSetup) (gen : Generated) : TupbuildFile where
  strict := setup.strict
  autoCompiledb := setup.autoCompiledb
  builds := mtWrittenBuilds ((setup.env.existingTb.map TupbuildFile.builds).getD []) gen

end Metatup
