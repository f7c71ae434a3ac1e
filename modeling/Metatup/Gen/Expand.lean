import Metatup.Gen.Component

/-!
# Component expansion

The mutual recursion of `mt_build_component`, `mt_expand_component_deps` and
`mt_collect_component_builds`, with the list of the builds generated so far as its state. A pointer
into that list is the index of the build, with the name that is read through it.

The recursion is cut off by a fuel that bounds its depth; `running` is the result of a recursion that
is deeper.

* `mtBuildComponent`, `mtCollectComponentBuilds`: the recursion.
* `MtResult.bind_eq_ok`: how the results of its parts compose.
-/

namespace Metatup

/-- What a call comes to. -/
inductive MtResult (α : Type)
  | ok (a : α)
  | error (err : Text)
  | running
  deriving DecidableEq

namespace MtResult

variable {α β : Type}

/-- Go on with the result of a call. -/
def bind (x : MtResult α) (f : α → MtResult β) : MtResult β :=
  match x with
  | ok a => f a
  | error err => error err
  | running => running

instance : Monad MtResult where
  pure := ok
  bind := bind

/-- The result of a call that does not recurse. -/
def ofExcept : Except Text α → MtResult α
  | .ok a => ok a
  | .error err => error err

theorem bind_eq_ok {x : MtResult α} {f : α → MtResult β} {b : β} :
    x >>= f = ok b ↔ ∃ a, x = ok a ∧ f a = ok b := by
  change x.bind f = ok b ↔ _
  cases x <;> simp [bind]

theorem bind_eq_running {x : MtResult α} {f : α → MtResult β} :
    x >>= f = running ↔ x = running ∨ ∃ a, x = ok a ∧ f a = running := by
  change x.bind f = running ↔ _
  cases x <;> simp [bind]

theorem ofExcept_eq_ok {x : Except Text α} {a : α} : ofExcept x = ok a ↔ x = .ok a := by
  cases x <;> simp [ofExcept]

theorem ofExcept_ne_running (x : Except Text α) : ofExcept x ≠ running := by
  cases x <;> simp [ofExcept]

end MtResult

/-! ### The generated builds -/

/-- Source: `metatup.c` `struct mt_generated_build`. The instance it was generated for is not in the
source; it is here for the statements. -/
structure MtGeneratedBuild extends TupbuildBuild where
  identity : Text
  origin : MtInstance

/-- The array `generated` of `struct mt_state`. -/
abbrev Generated := List MtGeneratedBuild

/-- A pointer to a generated build. -/
structure BuildRef where
  idx : ℕ
  name : Text
  deriving DecidableEq

/-- Source: `metatup.c` `mt_add_generated` -/
def mtAddGenerated (gen : Generated) (b : MtGeneratedBuild) : BuildRef × Generated :=
  ({ idx := gen.length, name := b.name }, gen ++ [b])

/-- Source: `metatup.c` `mt_find_generated` -/
def mtFindGenerated (gen : Generated) (identity : Text) : Option BuildRef :=
  (gen.zipIdx.find? fun p => p.1.identity = identity).map fun p => { idx := p.2, name := p.1.name }

/-- Source: `metatup.c` `mt_existing_builddir` -/
def mtExistingBuilddir (env : MtEnv) (name : Text) : Option Text :=
  env.existingTb.bind fun tb => (tb.builds.find? (·.name = name)).map TupbuildBuild.builddir

/-- The directory of a build whose name is this. -/
def mtDefaultBuilddir (name : Text) : Text := "./".toList ++ name ++ ".build".toList

/-- The directory `mt_collect_component_builds` gives a build. -/
def mtDepBuilddir (env : MtEnv) (name : Text) : Text :=
  (mtExistingBuilddir env name).getD (mtDefaultBuilddir name)

/-- The path of the tupfile of a component, from the directory of the TupBuild file. -/
def mtTupfilePath (env : MtEnv) (ctx : MtContext) (tupfile : Text) : Text :=
  let dir := if ctx.package = [] then ctx.repoRootAbs else mtJoin ctx.repoRootAbs ctx.package
  mtRelpath env.cwd (mtJoin dir tupfile)

/-- The text for a component without a tupfile that is built under the name of a dependency. -/
def intermediateComponent : Text :=
  "intermediate dependency-only components should be expanded by the parent".toList

/-- The text for a root without a build. -/
def noConcreteBuilds : Text :=
  "top-level dependency-only component did not resolve to any concrete builds".toList

/-! ### The recursion -/

section

variable (env : MtEnv) (collect : MtInstance → Generated → MtResult (List BuildRef × Generated))

/-- The loop over the dependencies of a component: for each that is enabled, the builds it leads to.
It is the loop of `mt_expand_component_deps` and that of `mt_collect_component_builds`. -/
def mtEnabledDeps (inst : MtInstance) (args : Kvs) :
    List MtDep → Generated → MtResult (List (MtDep × List BuildRef) × Generated)
  | [], gen => .ok ([], gen)
  | dep :: deps, gen =>
    if mtDepEnabled args dep then do
      let depInst ← .ofExcept (inst.depInstance env args dep)
      let (refs, gen) ← collect depInst gen
      let (found, gen) ← mtEnabledDeps inst args deps gen
      .ok ((dep, refs) :: found, gen)
    else mtEnabledDeps inst args deps gen

/-- Source: `metatup.c` `mt_expand_component_deps`: the `depends` of the parent. -/
def mtExpandComponentDeps (inst : MtInstance) (args : Kvs) (gen : Generated) :
    MtResult (List TupbuildDep × Generated) := do
  let (found, gen) ← mtEnabledDeps env collect inst args inst.component.deps gen
  .ok (found.flatMap fun (dep, refs) => refs.map fun ref =>
    { build := ref.name, as := mtAlias dep.name }, gen)

/-- The end of `mt_build_component` for a component without a tupfile: a build that only depends on
what the component resolves to, when that is more than one build. -/
def mtBuildBundle (inst : MtInstance) (name builddir : Text) (refs : List BuildRef)
    (gen : Generated) : MtResult (BuildRef × Generated) :=
  match refs with
  | [] => .error noConcreteBuilds
  | [ref] => .ok (ref, gen)
  | refs => .ok (mtAddGenerated gen
      { name, identity := name, builddir, origin := inst
        depends := refs.map fun ref => { build := ref.name, as := ref.name } })

/-- The part of `mt_build_component` for a component without a tupfile. -/
def mtBuildDependencyOnly (build : MtInstance → Generated → MtResult (BuildRef × Generated))
    (inst : MtInstance) (args : Kvs) (name builddir : Text) (gen : Generated) :
    MtResult (BuildRef × Generated) :=
  if name ≠ env.rootName then
    .error intermediateComponent
  else
    match inst.component.deps.filter (mtDepEnabled args) with
    | [dep] => do
      -- the root is what its only dependency is
      let depInst ← .ofExcept (inst.depInstance env args dep)
      build depInst gen
    | _ => do
      -- the binds of the component are applied once more
      let (refs, gen) ← collect { inst with args := args } gen
      mtBuildBundle inst name builddir refs gen

end

mutual

/-- Source: `metatup.c` `mt_build_component` -/
def mtBuildComponent (env : MtEnv) :
    ℕ → MtInstance → Text → Text → Generated → MtResult (BuildRef × Generated)
  | 0, _, _, _, _ => .running
  | fuel + 1, inst, name, builddir, gen =>
    match inst.effectiveArgs env with
    | none => .error generationFailed
    | some args =>
      match mtFindGenerated gen name with
      | some ref => .ok (ref, gen)
      | none =>
        match inst.component.tupfile with
        | none =>
          mtBuildDependencyOnly env (mtCollectComponentBuilds env fuel)
            (fun inst => mtBuildComponent env fuel inst name builddir) inst args name builddir gen
        | some (tupfile, function) => do
          let (depends, gen) ←
            mtExpandComponentDeps env (mtCollectComponentBuilds env fuel) inst args gen
          .ok (mtAddGenerated gen
            { name, identity := name, builddir, origin := inst, depends
              tupfile := some (mtTupfilePath env inst.ctx tupfile)
              function := some function
              profile := env.profile
              args := mtCloneKvsExcept args [] env.profile })

/-- Source: `metatup.c` `mt_collect_component_builds`; no caller gives it a name or a directory. -/
def mtCollectComponentBuilds (env : MtEnv) :
    ℕ → MtInstance → Generated → MtResult (List BuildRef × Generated)
  | 0, _, _ => .running
  | fuel + 1, inst, gen =>
    match inst.component.tupfile with
    | some _ => do
      let name := inst.buildName env
      let (ref, gen) ← mtBuildComponent env fuel inst name (mtDepBuilddir env name) gen
      .ok ([ref], gen)
    | none =>
      match inst.effectiveArgs env with
      | none => .error generationFailed
      | some args => do
        let (found, gen) ← mtEnabledDeps env (mtCollectComponentBuilds env fuel) inst args
          inst.component.deps gen
        .ok (found.flatMap Prod.snd, gen)

end

end Metatup
