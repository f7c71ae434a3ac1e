import Metatup.Gen.Distinct
import Metatup.Gen.Written
import Metatup.Parser.FileChecks

/-!
# The written file passes the checks

What the components and the old file must be like for the checks of the reader to pass on the file that
the generator writes.

* `FileConditions`: the conditions.
* `written_file_passes_iff`: the file passes when, and only when, they hold, where names tell components
  apart.
-/

namespace Metatup

open Lib Relation

/-! ### Conditions -/

/-- The builds of the old file. -/
def MtEnv.oldBuilds (env : MtEnv) : List TupbuildBuild :=
  (env.existingTb.map TupbuildFile.builds).getD []

/-- A build of the old file that is not generated again. -/
structure Retained (setup : MtSetup) (b : TupbuildBuild) : Prop where
  mem : b ∈ setup.env.oldBuilds
  not_built : ¬ BuiltName setup.env setup.root b.name

/-- The directory of the build of this name. -/
def HasDir (setup : MtSetup) (name dir : Text) : Prop :=
  BuiltName setup.env setup.root name ∧ dir = builddirOf setup.env setup.builddir name ∨
    ∃ b, Retained setup b ∧ b.name = name ∧ b.builddir = dir

/-- A retained build of this name has an entry for the other name. -/
def RetainedDepends (setup : MtSetup) (n m : Text) : Prop :=
  ∃ b, Retained setup b ∧ b.name = n ∧ ∃ dep ∈ b.depends, dep.build = m

/-- The aliases in the build of a component: that of a dependency once for each of its leaves. -/
def MtInstance.aliases (inst : MtInstance) (args : Kvs) (leaves : MtDep → List MtInstance) :
    List Text :=
  (inst.component.deps.filter (mtDepEnabled args)).flatMap fun dep =>
    (leaves dep).map fun _ => mtAlias dep.name

/-- What the components, the command line and the old file must be like. -/
structure FileConditions (setup : MtSetup) : Prop where
  names : (setup.env.oldBuilds.map TupbuildBuild.name).Nodup
  builddirs {n m dir : Text} : HasDir setup n dir → HasDir setup m dir → n = m
  /-- The arguments and aliases of a component that is built. -/
  components {inst : MtInstance} {name : Text} {args : Kvs} {leaves : MtDep → List MtInstance} :
    Reached setup.env setup.root (.build inst name) → inst.component.tupfile.isSome = true →
    inst.effectiveArgs setup.env = some args →
    (∀ dep ∈ inst.component.deps, mtDepEnabled args dep = true →
      DepLeaves setup.env inst args dep (leaves dep)) →
    ArgsOk setup.env.profile args (inst.aliases args leaves)
  /-- A root that stands for several builds. -/
  bundle {inst : MtInstance} {args : Kvs} {ls : List MtInstance} :
    Reached setup.env setup.root (.build inst setup.env.rootName) → IsBundle setup.env inst args →
    Leaves setup.env { inst with args := args } ls → 2 ≤ ls.length →
    (ls.map (MtInstance.buildName setup.env)).Nodup ∧ setup.opts.cliDists = []
  retained {b : TupbuildBuild} : Retained setup b →
    ArgsOk b.profile b.args (b.depends.map TupbuildDep.as) ∧
      ∀ dep ∈ b.depends, BuiltName setup.env setup.root dep.build ∨
        ∃ a ∈ setup.env.oldBuilds, a.name = dep.build
  acyclic : ¬ ∃ n, TransGen (RetainedDepends setup) n n

/-! ### Arguments -/

/-- The profile is not written among the arguments. -/
theorem argsOk_written {profile : Option Text} {args : Kvs} {aliases : List Text} :
    ArgsOk profile (mtCloneKvsExcept args [] profile) aliases ↔ ArgsOk profile args aliases := by
  have hkeys : ∀ k, k ∈ (mtCloneKvsExcept args [] profile).map Prod.fst ↔
      k ∈ args.map Prod.fst ∧ profile ≠ some k := by
    intro k
    unfold mtCloneKvsExcept
    rw [mem_keys_mtCloneKvs]
    simp
  constructor
  · intro h
    refine ⟨fun k hk => ?_, h.profileOk, h.distinct, fun as has => ?_⟩
    · by_cases hp : profile = some k
      · exact h.profileOk k hp
      · exact h.reserved k ((hkeys k).2 ⟨hk, hp⟩)
    · obtain ⟨hres, hfree, hp⟩ := h.free as has
      exact ⟨hres, fun hk => hfree ((hkeys as).2 ⟨hk, hp⟩), hp⟩
  · intro h
    refine ⟨fun k hk => h.reserved k ((hkeys k).1 hk).1, h.profileOk, h.distinct, fun as has => ?_⟩
    obtain ⟨hres, hfree, hp⟩ := h.free as has
    exact ⟨hres, fun hk => hfree ((hkeys as).1 hk).1, hp⟩

theorem nodup_keys_written (args : Kvs) (profile : Option Text) :
    ((mtCloneKvsExcept args [] profile).map Prod.fst).Nodup :=
  nodup_keys_mtCloneKvs _ List.nodup_nil

/-- The names of the builds of dependencies are not reserved. -/
theorem isReserved_buildName (env : MtEnv) (inst : MtInstance) :
    isReserved (inst.buildName env) = false := by
  have hmem : '_' ∈ inst.buildName env := by
    have hmark : "__".toList = ['_', '_'] := rfl
    unfold MtInstance.buildName mtMakeDepBuildName
    rw [hmark]
    simp
  have hbuilddir : '_' ∉ builddirKey := by decide
  have hbrdir : '_' ∉ brdirKey := by decide
  unfold isReserved
  rw [Bool.or_eq_false_iff, decide_eq_false_iff_not, decide_eq_false_iff_not]
  exact ⟨fun h => hbuilddir (h ▸ hmem), fun h => hbrdir (h ▸ hmem)⟩

/-- The build of a root that stands for several builds. -/
theorem argsOk_bundle {env : MtEnv} {rootBuilddir : Text} {inst : MtInstance} {ls : List MtInstance} :
    ArgsOk (bundleBuild env rootBuilddir inst ls).profile (bundleBuild env rootBuilddir inst ls).args
        ((bundleBuild env rootBuilddir inst ls).depends.map TupbuildDep.as) ↔
      (ls.map (MtInstance.buildName env)).Nodup := by
  have haliases : (bundleBuild env rootBuilddir inst ls).depends.map TupbuildDep.as =
      ls.map (MtInstance.buildName env) := by
    simp [bundleBuild]
  rw [haliases]
  constructor
  · exact fun h => h.distinct
  · intro h
    refine ⟨by simp [bundleBuild], by simp [bundleBuild], h, fun as has => ?_⟩
    obtain ⟨leaf, -, rfl⟩ := List.mem_map.1 has
    exact ⟨isReserved_buildName env leaf, by simp [bundleBuild], by simp [bundleBuild]⟩

/-! ### Generated builds -/

section

variable {env : MtEnv} {root : MtInstance} {rootBuilddir : Text} {ref : BuildRef} {gen : Generated}

/-- The mappings of a generated build have no key twice, and it has a tupfile and a function or
neither. -/
theorem RootResult.accepted (h : RootResult env root rootBuilddir ref gen) {g : MtGeneratedBuild}
    (hg : g ∈ gen) : (g.args.map Prod.fst).Nodup ∧ g.tupfile.isSome = g.function.isSome := by
  rcases h.mem_cases hg with hrec | ⟨inst, args, ls, -, -, -, -, rfl, -⟩
  · obtain ⟨args, leaves, hrecorded⟩ := hrec.recorded
    obtain ⟨tupfile, function, -, htupfile, hfunction⟩ := hrecorded.component
    rw [hrecorded.args_eq, htupfile, hfunction]
    exact ⟨nodup_keys_written args env.profile, rfl⟩
  · exact ⟨List.nodup_nil, rfl⟩

theorem RecordedIn.tupfile_ne_none {g : MtGeneratedBuild}
    (h : RecordedIn env root rootBuilddir gen g) : g.tupfile ≠ none := by
  intro hnone
  obtain ⟨args, leaves, hrecorded⟩ := h.recorded
  obtain ⟨tupfile, function, -, hsome, -⟩ := hrecorded.component
  cases hnone.symm.trans hsome

/-- A build without a tupfile is that of a root that stands for several builds. -/
theorem RootResult.dependencyOnly_iff (h : RootResult env root rootBuilddir ref gen) :
    (∃ g ∈ gen, g.tupfile = none) ↔ ∃ inst args ls, Reached env root (.build inst env.rootName) ∧
      IsBundle env inst args ∧ Leaves env { inst with args := args } ls ∧ 2 ≤ ls.length := by
  constructor
  · rintro ⟨g, hg, hnone⟩
    rcases h.mem_cases hg with hrec | ⟨inst, args, ls, hreach, hbundle, hleaves, htwo, -⟩
    · exact absurd hnone hrec.tupfile_ne_none
    · exact ⟨inst, args, ls, hreach, hbundle, hleaves, htwo⟩
  · rintro ⟨inst, args, ls, hreach, hbundle, hleaves, htwo⟩
    obtain ⟨b, hb, -, -, rfl⟩ := h.bundle_mem hreach hbundle hleaves htwo
    exact ⟨_, hb, rfl⟩

theorem mtAddDists_nil (ref : BuildRef) (gen : Generated) : mtAddDists [] ref gen = gen := by
  unfold mtAddDists
  have hid : (fun b : MtGeneratedBuild => { b with dists := b.dists ++ mtCliDists [] b.name }) = id := by
    funext b
    simp [mtCliDists]
  rw [hid, List.modify_id]

theorem names_mtAddDists (cliDists : List (Text × Option Text)) (ref : BuildRef) (gen : Generated) :
    (mtAddDists cliDists ref gen).map (fun b => b.name) = gen.map fun b => b.name := by
  have hmap := congrArg (List.map fun b : MtGeneratedBuild => b.name)
    (sameButDists_mtAddDists cliDists ref gen)
  rw [List.map_map, List.map_map] at hmap
  exact hmap

/-- Only a build without a tupfile must not have dists. -/
theorem RootResult.dists_iff (h : RootResult env root rootBuilddir ref gen)
    (cliDists : List (Text × Option Text)) :
    (∀ g ∈ mtAddDists cliDists ref gen, g.tupfile = none → g.dists = []) ↔
      ((∃ g ∈ gen, g.tupfile = none) → cliDists = []) := by
  constructor
  · rintro hall ⟨b, hb, hnone⟩
    cases h with
    | build _ _ hbuilds _ _ => exact absurd hnone (hbuilds.recorded.of_mem hb).tupfile_ne_none
    | single _ _ _ hbuilds _ _ => exact absurd hnone (hbuilds.recorded.of_mem hb).tupfile_ne_none
    | @bundle top args' ls' gen' _ _ _ _ _ _ =>
      -- the dists go to the last build
      have hget : (mtAddDists cliDists { idx := gen'.length, name := env.rootName }
          (gen' ++ [bundleBuild env rootBuilddir top ls']))[gen'.length]? =
            some { bundleBuild env rootBuilddir top ls' with
              dists := mtCliDists cliDists env.rootName } := by
        unfold mtAddDists
        rw [List.getElem?_modify]
        simp [bundleBuild]
      have hnil := hall _ (List.mem_of_getElem? hget) rfl
      exact List.map_eq_nil_iff.1 hnil
  · intro hnil g hg hnone
    obtain ⟨g₀, hg₀, heq⟩ := (sameButDists_mtAddDists cliDists ref gen).mem hg
    have hnone₀ : g₀.tupfile = none := by
      rw [heq] at hnone
      exact hnone
    rw [hnil ⟨g₀, hg₀, hnone₀⟩, mtAddDists_nil] at hg
    rcases h.mem_cases hg with hrec | ⟨inst, args, ls, -, -, -, -, rfl, -⟩
    · exact absurd hnone hrec.tupfile_ne_none
    · rfl

end

/-! ### The builds of a run -/

/-- A run whose names tell components apart, before the dists. -/
structure Expanded (setup : MtSetup) (ref : BuildRef) (gen : Generated) : Prop where
  tell : NamesTell setup.env setup.root
  loaded : Loaded setup.env setup.root
  result : RootResult setup.env setup.root setup.builddir ref gen
  nodup : (gen.map fun b => b.name).Nodup

namespace Expanded

variable {setup : MtSetup} {ref : BuildRef} {gen : Generated}

theorem builtName_iff (h : Expanded setup ref gen) {name : Text} :
    BuiltName setup.env setup.root name ↔ ∃ g ∈ gen, g.name = name :=
  Metatup.builtName_iff h.tell h.loaded h.result

theorem builddir_eq (h : Expanded setup ref gen) {g : MtGeneratedBuild} (hg : g ∈ gen) :
    g.builddir = builddirOf setup.env setup.builddir g.name := by
  rcases h.result.mem_cases hg with hrec | ⟨inst, args, ls, -, -, -, -, rfl, -⟩
  · obtain ⟨args, leaves, hrecorded⟩ := hrec.recorded
    exact hrecorded.builddir_eq
  · exact (if_pos rfl).symm

/-- The dependencies of a generated build are generated. -/
theorem depends_built (h : Expanded setup ref gen) {g : MtGeneratedBuild} (hg : g ∈ gen)
    {dep : TupbuildDep} (hdep : dep ∈ g.depends) : BuiltName setup.env setup.root dep.build := by
  rw [h.builtName_iff]
  rcases h.result.mem_cases hg with hrec | ⟨inst, args, ls, -, -, -, -, rfl, -, hpresent⟩
  · exact hrec.depends dep hdep
  · obtain ⟨leaf, hleaf, rfl⟩ := List.mem_map.1 hdep
    exact hpresent leaf hleaf

theorem nonempty (h : Expanded setup ref gen) : gen ≠ [] := by
  have hmem : ∃ g, g ∈ gen := by
    cases h.result with
    | build _ _ _ _ hpresent =>
      obtain ⟨g, hg, -⟩ := hpresent ref (List.mem_singleton_self ref)
      exact ⟨g, hg⟩
    | single _ _ _ _ _ hpresent =>
      obtain ⟨g, hg, -⟩ := hpresent ref (List.mem_singleton_self ref)
      exact ⟨g, hg⟩
    | bundle => exact ⟨_, List.mem_append_right _ (List.mem_singleton_self _)⟩
  obtain ⟨g, hg⟩ := hmem
  exact List.ne_nil_of_mem hg

/-- The arguments and aliases of what has been recorded. -/
theorem argsOk_recorded {g : MtGeneratedBuild} {args : Kvs} {leaves : MtDep → List MtInstance}
    (h : Recorded setup.env setup.builddir g args leaves) :
    ArgsOk g.profile g.args (g.depends.map TupbuildDep.as) ↔
      ArgsOk setup.env.profile args (g.origin.aliases args leaves) := by
  have haliases : g.depends.map TupbuildDep.as = g.origin.aliases args leaves := by
    rw [h.depends_eq, List.map_flatMap]
    simp only [List.map_map]
    rfl
  rw [h.profile_eq, h.args_eq, haliases]
  exact argsOk_written

/-- The aliases of a component are those of its record. -/
theorem aliases_congr {env : MtEnv} {inst inst' : MtInstance} {args : Kvs}
    {leaves leaves' : MtDep → List MtInstance} (ha : Alike env inst inst')
    (h : ∀ dep ∈ inst.component.deps, mtDepEnabled args dep = true →
      DepLeaves env inst args dep (leaves dep))
    (h' : ∀ dep ∈ inst'.component.deps, mtDepEnabled args dep = true →
      DepLeaves env inst' args dep (leaves' dep)) :
    inst.aliases args leaves = inst'.aliases args leaves' := by
  unfold MtInstance.aliases
  rw [← ha.component_eq]
  apply List.flatMap_congr
  intro dep hdep
  obtain ⟨hmem, hen⟩ := List.mem_filter.1 hdep
  obtain ⟨target, htarget, hls⟩ := h' dep (ha.component_eq ▸ hmem) hen
  have hdep' : DepLeaves env inst args dep (leaves' dep) :=
    ⟨target, (ha.depInstance_eq args dep).trans htarget, hls⟩
  rw [(h dep hmem hen).unique hdep']

theorem args_iff (h : Expanded setup ref gen) :
    (∀ g ∈ gen, ArgsOk g.profile g.args (g.depends.map TupbuildDep.as)) ↔
      (∀ inst name args leaves, Reached setup.env setup.root (.build inst name) →
        inst.component.tupfile.isSome = true → inst.effectiveArgs setup.env = some args →
        (∀ dep ∈ inst.component.deps, mtDepEnabled args dep = true →
          DepLeaves setup.env inst args dep (leaves dep)) →
        ArgsOk setup.env.profile args (inst.aliases args leaves)) ∧
      ∀ inst args ls, Reached setup.env setup.root (.build inst setup.env.rootName) →
        IsBundle setup.env inst args → Leaves setup.env { inst with args := args } ls →
        2 ≤ ls.length → (ls.map (MtInstance.buildName setup.env)).Nodup := by
  constructor
  · intro hall
    refine ⟨?_, ?_⟩
    · intro inst name args leaves hreach htup hargs hleaves
      obtain ⟨g, hg, -, halike, hrec⟩ := h.tell.recorded h.loaded h.result hreach htup
      obtain ⟨args', leaves', hrecorded⟩ := hrec.recorded
      cases (halike.args_eq.symm.trans hrecorded.effective).symm.trans hargs
      rw [← aliases_congr halike hrecorded.leaves_ok hleaves]
      exact (argsOk_recorded hrecorded).1 (hall g hg)
    · intro inst args ls hreach hbundle hleaves htwo
      obtain ⟨g, hg, -, -, rfl⟩ := h.result.bundle_mem hreach hbundle hleaves htwo
      exact argsOk_bundle.1 (hall _ hg)
  · rintro ⟨hcomponents, hbundles⟩ g hg
    rcases h.result.mem_cases hg with hrec | ⟨inst, args, ls, hreach, hbundle, hleaves, htwo, rfl, -⟩
    · obtain ⟨args, leaves, hrecorded⟩ := hrec.recorded
      exact (argsOk_recorded hrecorded).2
        (hcomponents _ _ _ _ hrec.reached hrec.tupfile hrecorded.effective hrecorded.leaves_ok)
    · exact argsOk_bundle.2 (hbundles inst args ls hreach hbundle hleaves htwo)

/-! ### The order of the builds -/

theorem inOrder_of_recorded {env : MtEnv} {root : MtInstance} {rootBuilddir : Text} {gen : Generated}
    (h : AllRecorded env root rootBuilddir gen) {pre post : Generated} {g : MtGeneratedBuild}
    (heq : gen = pre ++ g :: post) {dep : TupbuildDep} (hdep : dep ∈ g.depends) :
    ∃ a ∈ pre, a.name = dep.build := by
  induction h generalizing post with
  | nil => simp at heq
  | @snoc gen b _ hb ih =>
    rcases List.eq_nil_or_concat post with rfl | ⟨post', b', rfl⟩
    · obtain ⟨rfl, hlast⟩ := List.append_inj' heq rfl
      cases hlast
      exact hb.depends dep hdep
    · rw [List.concat_eq_append, ← List.cons_append, ← List.append_assoc] at heq
      exact ih (List.append_inj' heq rfl).1

/-- The builds come after the builds they depend on. -/
theorem inOrder (h : Expanded setup ref gen) {pre post : Generated} {g : MtGeneratedBuild}
    (heq : gen = pre ++ g :: post) {dep : TupbuildDep} (hdep : dep ∈ g.depends) :
    ∃ a ∈ pre, a.name = dep.build := by
  cases h.result with
  | build _ _ hbuilds _ _ => exact inOrder_of_recorded hbuilds.recorded heq hdep
  | single _ _ _ hbuilds _ _ => exact inOrder_of_recorded hbuilds.recorded heq hdep
  | bundle _ _ _ _ hbuilds hpresent =>
    rcases List.eq_nil_or_concat post with rfl | ⟨post', b', rfl⟩
    · obtain ⟨rfl, hlast⟩ := List.append_inj' heq rfl
      cases hlast
      obtain ⟨leaf, hleaf, rfl⟩ := List.mem_map.1 hdep
      exact hpresent leaf hleaf
    · rw [List.concat_eq_append, ← List.cons_append, ← List.append_assoc] at heq
      exact inOrder_of_recorded hbuilds.recorded (List.append_inj' heq rfl).1 hdep

/-- The place of a build among those that are generated. -/
def rank (gen : Generated) (name : Text) : ℕ := (gen.map fun b => b.name).idxOf name

theorem rank_lt (h : Expanded setup ref gen) {g : MtGeneratedBuild} (hg : g ∈ gen)
    {dep : TupbuildDep} (hdep : dep ∈ g.depends) : rank gen dep.build < rank gen g.name := by
  obtain ⟨pre, post, heq⟩ := List.append_of_mem hg
  obtain ⟨a, ha, hname⟩ := h.inOrder heq hdep
  have hnodup := h.nodup
  unfold rank
  rw [heq, List.map_append, List.map_cons] at hnodup ⊢
  have hmem : dep.build ∈ pre.map fun b => b.name := hname ▸ List.mem_map_of_mem ha
  have hfresh : g.name ∉ pre.map fun b => b.name :=
    fun hg => (List.nodup_append.1 hnodup).2.2 _ hg _ List.mem_cons_self rfl
  rw [List.idxOf_append_of_mem hmem, List.idxOf_append_of_notMem hfresh]
  exact (List.idxOf_lt_length_of_mem hmem).trans_le (Nat.le_add_right _ _)

/-! ### The file -/

/-- The builds that are written. -/
theorem mem_written (h : Expanded setup ref gen) {b : TupbuildBuild} :
    b ∈ (mtWriteTupbuild setup (mtAddDists setup.opts.cliDists ref gen)).builds ↔
      (∃ g ∈ mtAddDists setup.opts.cliDists ref gen, b = g.toTupbuildBuild) ∨
        ∃ x, Retained setup x ∧ b = mtExistingBuild x := by
  unfold mtWriteTupbuild
  rw [mem_mtWrittenBuilds]
  refine or_congr_right ?_
  have hbuilt : ∀ name, (∀ g ∈ mtAddDists setup.opts.cliDists ref gen, g.name ≠ name) ↔
      ¬ BuiltName setup.env setup.root name := by
    intro name
    have hnames : (∃ g ∈ mtAddDists setup.opts.cliDists ref gen, g.name = name) ↔
        ∃ g ∈ gen, g.name = name := by
      rw [← List.mem_map, names_mtAddDists, List.mem_map]
    rw [h.builtName_iff, ← hnames]
    push Not
    rfl
  constructor
  · rintro ⟨x, hx, hno, rfl⟩
    exact ⟨x, ⟨hx, (hbuilt _).1 hno⟩, rfl⟩
  · rintro ⟨x, hx, rfl⟩
    exact ⟨x, hx.mem, (hbuilt _).2 hx.not_built, rfl⟩

/-- A property of builds that does not depend on their dists, in the whole file. -/
theorem forall_written (h : Expanded setup ref gen) {p : TupbuildBuild → Prop}
    (hp : ∀ (b : TupbuildBuild) dists, p { b with dists := dists } ↔ p b) :
    (∀ b ∈ (mtWriteTupbuild setup (mtAddDists setup.opts.cliDists ref gen)).builds, p b) ↔
      (∀ g ∈ gen, p g.toTupbuildBuild) ∧ ∀ x, Retained setup x → p (mtExistingBuild x) := by
  have hdists := sameButDists_mtAddDists setup.opts.cliDists ref gen
  constructor
  · intro hall
    refine ⟨fun g hg => ?_, fun x hx => hall _ (h.mem_written.2 (.inr ⟨x, hx, rfl⟩))⟩
    obtain ⟨g', hg', heq⟩ := SameButDists.mem (Eq.symm hdists) hg
    rw [heq]
    exact (hp g'.toTupbuildBuild g.dists).2 (hall _ (h.mem_written.2 (.inl ⟨g', hg', rfl⟩)))
  · rintro ⟨hgen, hold⟩ b hb
    rcases h.mem_written.1 hb with ⟨g, hg, rfl⟩ | ⟨x, hx, rfl⟩
    · obtain ⟨g', hg', heq⟩ := hdists.mem hg
      rw [heq]
      exact (hp g'.toTupbuildBuild g.dists).2 (hgen g' hg')
    · exact hold x hx

theorem exists_written (h : Expanded setup ref gen) {p : TupbuildBuild → Prop}
    (hp : ∀ (b : TupbuildBuild) dists, p { b with dists := dists } ↔ p b) :
    (∃ b ∈ (mtWriteTupbuild setup (mtAddDists setup.opts.cliDists ref gen)).builds, p b) ↔
      (∃ g ∈ gen, p g.toTupbuildBuild) ∨ ∃ x, Retained setup x ∧ p (mtExistingBuild x) := by
  have hnot := h.forall_written (p := fun b => ¬ p b) (fun b dists => not_congr (hp b dists))
  rw [← not_iff_not]
  push Not
  exact hnot

theorem name_written (h : Expanded setup ref gen) {name : Text} :
    (∃ b ∈ (mtWriteTupbuild setup (mtAddDists setup.opts.cliDists ref gen)).builds, b.name = name) ↔
      BuiltName setup.env setup.root name ∨ ∃ a ∈ setup.env.oldBuilds, a.name = name := by
  rw [h.exists_written (fun _ _ => Iff.rfl), ← h.builtName_iff]
  constructor
  · rintro (hbuilt | ⟨x, hx, hname⟩)
    · exact .inl hbuilt
    · exact .inr ⟨x, hx.mem, hname⟩
  · rintro (hbuilt | ⟨a, ha, rfl⟩)
    · exact .inl hbuilt
    · by_cases hbuilt : BuiltName setup.env setup.root a.name
      · exact .inl hbuilt
      · exact .inr ⟨a, ⟨ha, hbuilt⟩, rfl⟩

theorem dir_written (h : Expanded setup ref gen) {name dir : Text} :
    (∃ b ∈ (mtWriteTupbuild setup (mtAddDists setup.opts.cliDists ref gen)).builds,
      b.name = name ∧ b.builddir = dir) ↔ HasDir setup name dir := by
  rw [h.exists_written (p := fun b => b.name = name ∧ b.builddir = dir) (fun _ _ => Iff.rfl)]
  refine or_congr ?_ Iff.rfl
  rw [h.builtName_iff]
  constructor
  · rintro ⟨g, hg, rfl, rfl⟩
    exact ⟨⟨g, hg, rfl⟩, h.builddir_eq hg⟩
  · rintro ⟨⟨g, hg, rfl⟩, rfl⟩
    exact ⟨g, hg, rfl, h.builddir_eq hg⟩

theorem builddirs_written (h : Expanded setup ref gen)
    (hnames : ((mtWriteTupbuild setup
      (mtAddDists setup.opts.cliDists ref gen)).builds.map TupbuildBuild.name).Nodup) :
    ((mtWriteTupbuild setup
        (mtAddDists setup.opts.cliDists ref gen)).builds.map TupbuildBuild.builddir).Nodup ↔
      ∀ n m dir, HasDir setup n dir → HasDir setup m dir → n = m := by
  rw [List.nodup_map_iff_inj_on hnames.of_map]
  constructor
  · intro hinj n m dir hn hm
    obtain ⟨a, ha, rfl, hdir⟩ := h.dir_written.2 hn
    obtain ⟨b, hb, rfl, hdir'⟩ := h.dir_written.2 hm
    rw [hinj a ha b hb (hdir.trans hdir'.symm)]
  · intro hinj a ha b hb hdir
    exact List.inj_on_of_nodup_map hnames ha hb (hinj a.name b.name a.builddir
      (h.dir_written.1 ⟨a, ha, rfl, rfl⟩) (h.dir_written.1 ⟨b, hb, rfl, hdir.symm⟩))

/-- A cycle of the file is one of retained builds. -/
theorem cycle_written (h : Expanded setup ref gen) :
    (∃ n, TransGen (NameDepends
        (mtWriteTupbuild setup (mtAddDists setup.opts.cliDists ref gen)).builds) n n) ↔
      ∃ n, TransGen (RetainedDepends setup) n n := by
  have hedge : ∀ n m, NameDepends
      (mtWriteTupbuild setup (mtAddDists setup.opts.cliDists ref gen)).builds n m ↔
        (∃ g ∈ gen, g.name = n ∧ ∃ dep ∈ g.depends, dep.build = m) ∨ RetainedDepends setup n m :=
    fun n m => h.exists_written
      (p := fun b => b.name = n ∧ ∃ dep ∈ b.depends, dep.build = m) (fun _ _ => Iff.rfl)
  constructor
  · rintro ⟨n, hn⟩
    have hstep : ∀ n m, NameDepends
        (mtWriteTupbuild setup (mtAddDists setup.opts.cliDists ref gen)).builds n m →
        BuiltName setup.env setup.root n →
        BuiltName setup.env setup.root m ∧ rank gen m < rank gen n := by
      intro n m hnm hbuilt
      rcases (hedge n m).1 hnm with ⟨g, hg, rfl, dep, hdep, rfl⟩ | ⟨x, hx, rfl, -⟩
      · exact ⟨h.depends_built hg hdep, h.rank_lt hg hdep⟩
      · exact absurd hbuilt hx.not_built
    refine ⟨n, (TransGen.outside hstep hn).lift id ?_⟩
    rintro a b ⟨hab, hnot⟩
    rcases (hedge a b).1 hab with ⟨g, hg, rfl, -⟩ | hret
    · exact absurd (h.builtName_iff.2 ⟨g, hg, rfl⟩) hnot
    · exact hret
  · rintro ⟨n, hn⟩
    exact ⟨n, hn.lift id fun a b hab => (hedge a b).2 (.inr hab)⟩

/-- What the checks say of the file. -/
theorem wellFormed_iff (h : Expanded setup ref gen)
    (hold : ∀ b ∈ setup.env.oldBuilds, BuildAccepted b) :
    WellFormed (mtWriteTupbuild setup (mtAddDists setup.opts.cliDists ref gen)) ↔
      FileConditions setup := by
  have hnodup := h.nodup
  rw [← names_mtAddDists setup.opts.cliDists ref gen] at hnodup
  have hargs := h.forall_written (p := fun b =>
    ArgsOk b.profile b.args (b.depends.map TupbuildDep.as)) (fun _ _ => Iff.rfl)
  have hnames : ((mtWrittenBuilds setup.env.oldBuilds (mtAddDists setup.opts.cliDists ref gen)).map
      TupbuildBuild.name).Nodup ↔ _ := nodup_mtWrittenBuilds hnodup
  constructor
  · intro hwf
    obtain ⟨hgen, hretained⟩ := hargs.1 hwf.args
    obtain ⟨hcomponents, hbundles⟩ := h.args_iff.1 hgen
    have hdists := (h.result.dists_iff setup.opts.cliDists).1 fun g hg hnone =>
      (hwf.accepted _ (h.mem_written.2 (.inl ⟨g, hg, rfl⟩))).dists hnone
    rw [h.result.dependencyOnly_iff] at hdists
    refine ⟨hnames.1 hwf.names, ?_, ?_, ?_, ?_, ?_⟩
    · exact fun hn hm => (h.builddirs_written hwf.names).1 hwf.builddirs _ _ _ hn hm
    · exact fun hreach htup hargs hleaves => hcomponents _ _ _ _ hreach htup hargs hleaves
    · exact fun hreach hbundle hleaves htwo =>
        ⟨hbundles _ _ _ hreach hbundle hleaves htwo, hdists ⟨_, _, _, hreach, hbundle, hleaves, htwo⟩⟩
    · intro b hb
      refine ⟨hretained b hb, fun dep hdep => ?_⟩
      exact h.name_written.1 (hwf.known _ (h.mem_written.2 (.inr ⟨b, hb, rfl⟩)) dep hdep)
    · rw [← h.cycle_written, ← cycle_names_iff hwf.names hwf.known]
      exact hwf.acyclic
  · intro hcond
    have hnames' := hnames.2 hcond.names
    have hknown : ∀ b ∈ (mtWriteTupbuild setup (mtAddDists setup.opts.cliDists ref gen)).builds,
        ∀ dep ∈ b.depends, ∃ a ∈ (mtWriteTupbuild setup
          (mtAddDists setup.opts.cliDists ref gen)).builds, a.name = dep.build := by
      rw [h.forall_written (p := fun b => ∀ dep ∈ b.depends, ∃ a ∈ (mtWriteTupbuild setup
        (mtAddDists setup.opts.cliDists ref gen)).builds, a.name = dep.build) (fun _ _ => Iff.rfl)]
      refine ⟨fun g hg dep hdep => ?_, fun x hx dep hdep => ?_⟩
      · exact h.name_written.2 (.inl (h.depends_built hg hdep))
      · exact h.name_written.2 ((hcond.retained hx).2 dep hdep)
    refine ⟨?_, ?_, hnames', ?_, hknown, ?_, ?_⟩
    · obtain ⟨g, hg⟩ := List.exists_mem_of_ne_nil gen h.nonempty
      obtain ⟨g', hg', -⟩ :=
        SameButDists.mem (Eq.symm (sameButDists_mtAddDists setup.opts.cliDists ref gen)) hg
      exact List.ne_nil_of_mem (h.mem_written.2 (.inl ⟨g', hg', rfl⟩))
    · intro b hb
      rcases h.mem_written.1 hb with ⟨g, hg, rfl⟩ | ⟨x, hx, rfl⟩
      · have hnil : (∃ g ∈ gen, g.tupfile = none) → setup.opts.cliDists = [] := by
          rw [h.result.dependencyOnly_iff]
          rintro ⟨inst, args, ls, hreach, hbundle, hleaves, htwo⟩
          exact (hcond.bundle hreach hbundle hleaves htwo).2
        have hdists := (h.result.dists_iff setup.opts.cliDists).2 hnil
        obtain ⟨g₀, hg₀, heq⟩ := (sameButDists_mtAddDists setup.opts.cliDists ref gen).mem hg
        obtain ⟨hkeys, hboth⟩ := h.result.accepted hg₀
        refine ⟨?_, ?_, hdists g hg⟩
        · rw [heq]
          exact hkeys
        · rw [heq]
          exact hboth
      · exact ⟨(hold x hx.mem).keys, rfl, fun hnone => nomatch hnone⟩
    · exact (h.builddirs_written hnames').2 fun n m dir hn hm => hcond.builddirs hn hm
    · refine hargs.2 ⟨h.args_iff.2 ⟨?_, ?_⟩, fun x hx => (hcond.retained hx).1⟩
      · exact fun inst name args leaves hreach htup hargs hleaves =>
          hcond.components hreach htup hargs hleaves
      · exact fun inst args ls hreach hbundle hleaves htwo =>
          (hcond.bundle hreach hbundle hleaves htwo).1
    · rw [cycle_names_iff hnames' hknown, h.cycle_written]
      exact hcond.acyclic

end Expanded

/-- Two components under one that only stands for them. -/
def fanOut : MtFile where
  components := [
    componentOf "app" [{ name := ":libs".toList }],
    { name := "libs".toList, deps := [{ name := ":a".toList }, { name := ":b".toList }] },
    componentOf "a" [],
    componentOf "b" []]

end Metatup
