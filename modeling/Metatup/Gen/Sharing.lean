import Metatup.Gen.Recorded
import Metatup.Gen.Run

/-!
# Shared builds

Builds are found again by their names. A dependency is linked to the build of its own component with
its own arguments exactly when no two components that the expansion reaches have the same name and
differ in anything else.

* `SameBuild`: what must agree for two dependencies to share a build.
* `IsBuildOf`: the build of a component.
* `Linked`: every dependency is linked to its build.
* `sharing_exact_iff`: when this is so.
-/

namespace Metatup

open Relation

/-- The same repository, package and component, with the same effective arguments. -/
structure SameBuild (env : MtEnv) (inst inst' : MtInstance) : Prop where
  root_eq : inst.ctx.repoRootAbs = inst'.ctx.repoRootAbs
  package_eq : inst.ctx.package = inst'.ctx.package
  name_eq : inst.component.name = inst'.component.name
  args_eq : inst.effectiveArgs env = inst'.effectiveArgs env

/-- The record is that of the component with its effective arguments. -/
structure RecordOf (env : MtEnv) (b : MtGeneratedBuild) (inst : MtInstance) : Prop where
  same : SameBuild env b.origin inst
  component : ∃ tupfile function, inst.component.tupfile = some (tupfile, function) ∧
    b.tupfile = some (mtTupfilePath env inst.ctx tupfile) ∧ b.function = some function
  args : ∃ args, inst.effectiveArgs env = some args ∧
    b.args = mtCloneKvsExcept args [] env.profile

/-- The name is that of the build of the component, and of no other. -/
structure IsBuildOf (env : MtEnv) (gen : Generated) (name : Text) (inst : MtInstance) : Prop where
  found : ∃ b ∈ gen, b.name = name
  exact : ∀ b ∈ gen, b.name = name → RecordOf env b inst

/-- The root build, or one of the builds it stands for. -/
def Resolves (gen : Generated) (ref : BuildRef) (name : Text) : Prop :=
  name = ref.name ∨
    ∃ b ∈ gen, b.name = ref.name ∧ b.tupfile = none ∧ ∃ d ∈ b.depends, d.build = name

/-- Every dependency that is followed is linked to its build. -/
structure Followed (env : MtEnv) (root : MtInstance) (ref : BuildRef) (gen : Generated) : Prop where
  /-- The dependencies of a build, under their alias. -/
  builds {b : MtGeneratedBuild} {args : Kvs} {dep : MtDep} {target leaf : MtInstance} :
    b ∈ gen → b.origin.component.tupfile.isSome = true → b.origin.effectiveArgs env = some args →
    DependsVia env b.origin args dep target → Leaf env target leaf →
    ∃ d ∈ b.depends, d.as = mtAlias dep.name ∧ IsBuildOf env gen d.build leaf
  /-- The dependencies of a root without a tupfile, with what its binds make of its effective
  arguments. -/
  followed {inst leaf : MtInstance} {args : Kvs} :
    Reached env root (.build inst env.rootName) → IsBundle env inst args →
    Leaf env { inst with args := args } leaf →
    ∃ name, Resolves gen ref name ∧ IsBuildOf env gen name leaf

/-- Every dependency is linked to its build, those of a root without a tupfile also with the effective
arguments of the root. -/
structure Linked (env : MtEnv) (root : MtInstance) (ref : BuildRef) (gen : Generated) : Prop
    extends Followed env root ref gen where
  bundle {inst target leaf : MtInstance} {args : Kvs} {dep : MtDep} :
    Reached env root (.build inst env.rootName) → IsBundle env inst args →
    DependsVia env inst args dep target → Leaf env target leaf →
    ∃ name, Resolves gen ref name ∧ IsBuildOf env gen name leaf

/-- The names of the builds tell the components with their arguments apart. -/
structure NamesTell (env : MtEnv) (root : MtInstance) : Prop where
  names {inst inst' : MtInstance} {name : Text} : Reached env root (.build inst name) →
    Reached env root (.build inst' name) → inst.component.tupfile.isSome = true →
    inst'.component.tupfile.isSome = true → SameBuild env inst inst'

/-- In addition, the binds of a root without a tupfile do not change where its dependencies lead when
they are applied again. -/
structure NamesExact (env : MtEnv) (root : MtInstance) : Prop extends NamesTell env root where
  binds {inst target leaf : MtInstance} {args : Kvs} {dep : MtDep} :
    Reached env root (.build inst env.rootName) → IsBundle env inst args →
    DependsVia env inst args dep target → Leaf env target leaf →
    ∃ leaf', Leaf env { inst with args := args } leaf' ∧ SameBuild env leaf' leaf

variable {env : MtEnv}

theorem SameBuild.symm {inst inst' : MtInstance} (h : SameBuild env inst inst') :
    SameBuild env inst' inst :=
  ⟨h.root_eq.symm, h.package_eq.symm, h.name_eq.symm, h.args_eq.symm⟩

theorem SameBuild.trans {i j k : MtInstance} (h : SameBuild env i j) (h' : SameBuild env j k) :
    SameBuild env i k :=
  ⟨h.root_eq.trans h'.root_eq, h.package_eq.trans h'.package_eq, h.name_eq.trans h'.name_eq,
    h.args_eq.trans h'.args_eq⟩

/-! ### Components come from files -/

/-- The component is the one of this name in the file of its package. -/
structure Loaded (env : MtEnv) (inst : MtInstance) : Prop where
  rel_eq : inst.ctx.repoRootRel = mtRepoRel env.root inst.ctx.repoRootAbs
  file : ∃ mf, env.loadFile (mtJoin (if inst.ctx.package = [] then inst.ctx.repoRootAbs
    else mtJoin inst.ctx.repoRootAbs inst.ctx.package) "MetaTup.yaml".toList) = .ok mf ∧
    mtFindComponent mf inst.component.name = some inst.component

theorem name_of_mtFindComponent {mf : MtFile} {name : Text} {component : MtComponent}
    (h : mtFindComponent mf name = some component) : component.name = name := by
  simpa using List.find?_some h

/-- Where a label leads, and from which file. -/
theorem mtLoadLabeledComponent_ok {ctx ctx' : MtContext} {labelText : Text} {component : MtComponent}
    (h : mtLoadLabeledComponent env ctx labelText = .ok (ctx', component)) :
    ∃ label abs rel mf, mtParseLabel labelText ctx.package = some label ∧
      mtLoadLabeledComponent.mtLabelRepo env ctx label = .ok (abs, rel) ∧
      ctx' = { repoRootAbs := abs, repoRootRel := rel, package := label.package } ∧
      env.loadFile (mtJoin (if label.package = [] then abs else mtJoin abs label.package)
        "MetaTup.yaml".toList) = .ok mf ∧
      mtFindComponent mf label.component = some component := by
  unfold mtLoadLabeledComponent at h
  split at h
  · cases h
  next label hlabel =>
  cases hrepo : mtLoadLabeledComponent.mtLabelRepo env ctx label with
  | error err =>
    rw [hrepo] at h
    cases h
  | ok repo =>
    obtain ⟨abs, rel⟩ := repo
    rw [hrepo] at h
    simp only [bind, Except.bind] at h
    split at h
    · cases h
    next mf hfile =>
    split at h
    · next component' hfind =>
      cases h
      exact ⟨label, abs, rel, mf, hlabel, hrepo, rfl, hfile, hfind⟩
    · cases h

theorem depInstance_ok {inst target : MtInstance} {args : Kvs} {dep : MtDep}
    (h : inst.depInstance env args dep = .ok target) :
    inst.depArgs env args dep = some target.args ∧
      mtLoadLabeledComponent env inst.ctx dep.name = .ok (target.ctx, target.component) := by
  unfold MtInstance.depInstance at h
  split at h
  · cases h
  next depArgs hargs =>
  cases hload : mtLoadLabeledComponent env inst.ctx dep.name with
  | error err =>
    rw [hload] at h
    cases h
  | ok p =>
    rw [hload] at h
    cases h
    exact ⟨hargs, rfl⟩

theorem Loaded.target {inst target : MtInstance} {args : Kvs} {dep : MtDep} (h : Loaded env inst)
    (htarget : inst.depInstance env args dep = .ok target) : Loaded env target := by
  obtain ⟨label, abs, rel, mf, hlabel, hrepo, hctx, hfile, hfind⟩ :=
    mtLoadLabeledComponent_ok (depInstance_ok htarget).2
  have hname := name_of_mtFindComponent hfind
  refine ⟨?_, mf, ?_, hname ▸ hfind⟩
  · rw [hctx]
    unfold mtLoadLabeledComponent.mtLabelRepo at hrepo
    split at hrepo
    · cases hrepo
      exact h.rel_eq
    · cases hm : env.materialize inst.ctx.repoRootAbs _ with
      | error err =>
        rw [hm] at hrepo
        cases hrepo
      | ok path =>
        rw [hm] at hrepo
        cases hrepo
        rfl
  · rw [hctx]
    exact hfile

theorem Loaded.calls {call callee : MtCall} (h : Loaded env call.inst) (hcall : Calls env call callee) :
    Loaded env callee.inst := by
  cases hcall with
  | expand _ _ hd => exact h.target hd.target_eq
  | only _ _ _ htarget => exact h.target htarget
  | bundle _ _ _ => exact ⟨h.rel_eq, h.file⟩
  | build _ => exact h
  | collect _ _ hd => exact h.target hd.target_eq

theorem Loaded.reached {root : MtInstance} {call : MtCall} (h : Loaded env root)
    (hreach : Reached env root call) : Loaded env call.inst := by
  induction hreach with
  | refl => exact h
  | tail _ hcall ih => exact ih.calls hcall

theorem Loaded.leaf {inst leaf : MtInstance} (h : Loaded env inst) (hleaf : Leaf env inst leaf) :
    Loaded env leaf := by
  induction hleaf with
  | self _ => exact h
  | dep _ _ hd _ ih => exact ih (h.target hd.target_eq)

/-- What is at the same place in a file is the same. -/
theorem SameBuild.alike {inst inst' : MtInstance} (h : SameBuild env inst inst')
    (hl : Loaded env inst) (hl' : Loaded env inst') : Alike env inst inst' := by
  obtain ⟨mf, hfile, hfind⟩ := hl.file
  obtain ⟨mf', hfile', hfind'⟩ := hl'.file
  rw [h.root_eq, h.package_eq, hfile'] at hfile
  cases hfile
  rw [h.name_eq, hfind'] at hfind
  refine ⟨?_, (Option.some.inj hfind).symm, h.args_eq⟩
  have hrel : inst.ctx.repoRootRel = inst'.ctx.repoRootRel := by
    rw [hl.rel_eq, hl'.rel_eq, h.root_eq]
  obtain ⟨⟨abs, rel, package⟩, _, _⟩ := inst
  obtain ⟨⟨abs', rel', package'⟩, _, _⟩ := inst'
  cases h.root_eq
  cases h.package_eq
  cases hrel
  rfl

theorem Alike.sameBuild {inst inst' : MtInstance} (h : Alike env inst inst') :
    SameBuild env inst inst' :=
  ⟨by rw [h.ctx_eq], by rw [h.ctx_eq], by rw [h.component_eq], h.args_eq⟩

theorem Alike.buildName_eq {inst inst' : MtInstance} (h : Alike env inst inst') :
    inst.buildName env = inst'.buildName env := by
  unfold MtInstance.buildName
  rw [h.ctx_eq, h.component_eq]

theorem RecordOf.congr {b : MtGeneratedBuild} {inst inst' : MtInstance} (h : RecordOf env b inst)
    (ha : Alike env inst inst') : RecordOf env b inst' := by
  refine ⟨h.same.trans ha.sameBuild, ?_, ?_⟩
  · rw [← ha.component_eq, ← ha.ctx_eq]
    exact h.component
  · rw [← ha.args_eq]
    exact h.args

theorem IsBuildOf.congr {gen : Generated} {name : Text} {inst inst' : MtInstance}
    (h : IsBuildOf env gen name inst) (ha : Alike env inst inst') : IsBuildOf env gen name inst' :=
  ⟨h.found, fun b hb hname => (h.exact b hb hname).congr ha⟩

/-- Two components with the same build are the same, with the same arguments. -/
theorem IsBuildOf.same {gen : Generated} {name : Text} {inst inst' : MtInstance}
    (h : IsBuildOf env gen name inst) (h' : IsBuildOf env gen name inst') :
    SameBuild env inst inst' := by
  obtain ⟨b, hb, hname⟩ := h.found
  exact (h.exact b hb hname).same.symm.trans (h'.exact b hb hname).same

/-! ### Calls and leaves -/

/-- A leaf is built. -/
theorem Leaf.calls {inst leaf : MtInstance} (h : Leaf env inst leaf) :
    ReflTransGen (Calls env) (.collect inst) (.build leaf (leaf.buildName env)) := by
  induction h with
  | self htup => exact .single (.build htup)
  | dep htup hargs hd _ ih => exact .head (.collect htup hargs hd) ih

variable {root : MtInstance} {rootBuilddir : Text} {gen : Generated}

theorem leaf_reached {inst target leaf : MtInstance} {name : Text} {args : Kvs} {dep : MtDep}
    (hreach : Reached env root (.build inst name)) (htup : inst.component.tupfile.isSome = true)
    (hargs : inst.effectiveArgs env = some args) (hd : DependsVia env inst args dep target)
    (hleaf : Leaf env target leaf) : Reached env root (.build leaf (leaf.buildName env)) :=
  (hreach.tail (.expand htup hargs hd)).trans hleaf.calls

/-- What is recorded of a build is what its component says. -/
theorem RecordedIn.recordOf {b : MtGeneratedBuild} (h : RecordedIn env root rootBuilddir gen b) :
    RecordOf env b b.origin := by
  obtain ⟨args, leaves, hrec⟩ := h.recorded
  exact ⟨⟨rfl, rfl, rfl, rfl⟩, hrec.component, args, hrec.effective, hrec.args_eq⟩

/-- The list of the builds with or without the build of the root that only depends on others. -/
def AllButBundle (env : MtEnv) (root : MtInstance) (rootBuilddir : Text) (gen : Generated) : Prop :=
  ∀ b ∈ gen, b.name = env.rootName ∧ b.tupfile = none ∧ b.origin.component.tupfile = none ∨
    RecordedIn env root rootBuilddir gen b

theorem RecordedIn.mono {gen' : Generated} {b : MtGeneratedBuild} (hsub : ∀ g ∈ gen, g ∈ gen')
    (h : RecordedIn env root rootBuilddir gen b) : RecordedIn env root rootBuilddir gen' b := by
  refine ⟨h.reached, h.recorded, fun d hd => ?_⟩
  obtain ⟨g, hg, hname⟩ := h.depends d hd
  exact ⟨g, hsub g hg, hname⟩

theorem RootResult.allButBundle {ref : BuildRef} (h : RootResult env root rootBuilddir ref gen) :
    AllButBundle env root rootBuilddir gen := by
  cases h with
  | build htop htup hbuilds hname hpresent =>
    exact fun b hb => .inr (hbuilds.recorded.of_mem hb)
  | single htop hbundle hleaves hbuilds hname hpresent =>
    exact fun b hb => .inr (hbuilds.recorded.of_mem hb)
  | bundle htop hbundle hleaves htwo hbuilds hpresent =>
    intro b hb
    rcases List.mem_append.1 hb with hb | hb
    · exact .inr ((hbuilds.recorded.of_mem hb).mono fun g hg => List.mem_append_left _ hg)
    · cases List.mem_singleton.1 hb
      exact .inl ⟨rfl, rfl, hbundle.tupfile⟩

/-- Where names tell components apart, a build with the name of a component is its build. -/
theorem NamesTell.isBuildOf {leaf : MtInstance} (h : NamesTell env root) (hroot : Loaded env root)
    (hall : AllButBundle env root rootBuilddir gen) (htup : leaf.component.tupfile.isSome = true)
    (hreach : Reached env root (.build leaf (leaf.buildName env)))
    (hfound : ∃ b ∈ gen, b.name = leaf.buildName env) :
    IsBuildOf env gen (leaf.buildName env) leaf := by
  refine ⟨hfound, fun b hb hname => ?_⟩
  rcases hall b hb with ⟨hbundle, -⟩ | hrec
  · exact absurd (hname.symm.trans hbundle) (buildName_ne_rootName leaf)
  · have hsame : SameBuild env b.origin leaf :=
      h.names hrec.reached (hname ▸ hreach) hrec.tupfile htup
    exact hrec.recordOf.congr (hsame.alike (hroot.reached hrec.reached) (hroot.reached hreach))

theorem NamesTell.followed {ref : BuildRef} (h : NamesTell env root) (hroot : Loaded env root)
    (hres : RootResult env root rootBuilddir ref gen) : Followed env root ref gen := by
  have hall := hres.allButBundle
  constructor
  · intro b args dep target leaf hb htup hargs hd hleaf
    rcases hall b hb with ⟨-, -, hnone⟩ | hrec
    · simp [hnone] at htup
    obtain ⟨args', leaves, hrecorded⟩ := hrec.recorded
    have heq := hargs.symm.trans hrecorded.effective
    cases heq
    obtain ⟨target', htarget, hleaves⟩ := hrecorded.leaves_ok dep hd.mem hd.enabled
    rw [hd.target_eq] at htarget
    cases htarget
    have hmem : ({ build := leaf.buildName env, as := mtAlias dep.name } : TupbuildDep) ∈ b.depends := by
      rw [hrecorded.depends_eq]
      exact List.mem_flatMap.2 ⟨dep, List.mem_filter.2 ⟨hd.mem, hd.enabled⟩,
        List.mem_map_of_mem (hleaves.mem_iff.2 hleaf)⟩
    refine ⟨_, hmem, rfl, ?_⟩
    exact h.isBuildOf hroot hall hleaf.tupfile (leaf_reached hrec.reached htup hargs hd hleaf)
      (hrec.depends _ hmem)
  · intro inst leaf args hreach hbundle hleaf
    have hleafReached : Reached env root (.build leaf (leaf.buildName env)) :=
      (hreach.tail (.bundle hbundle.tupfile hbundle.effective hbundle.deps_ne)).trans hleaf.calls
    have hexact := h.isBuildOf hroot hall hleaf.tupfile hleafReached
    cases hres with
    | build htop htup hbuilds hname hpresent =>
      have heq := htop.eq_of_reached hreach (.inl htup) (.inr ⟨args, hbundle⟩)
      rw [← heq, hbundle.tupfile] at htup
      simp at htup
    | single htop hbundle' hleaves hbuilds hname hpresent =>
      have heq := htop.eq_of_reached hreach (.inr ⟨_, hbundle'⟩) (.inr ⟨args, hbundle⟩)
      subst heq
      have hargs := hbundle.effective.symm.trans hbundle'.effective
      cases hargs
      have hmem := hleaves.mem_iff.2 hleaf
      cases List.mem_singleton.1 hmem
      refine ⟨leaf.buildName env, .inl hname.symm, hexact ?_⟩
      obtain ⟨g, hg, hgname⟩ := hpresent ref (List.mem_singleton_self ref)
      exact ⟨g, hg, hgname.trans hname⟩
    | bundle htop hbundle' hleaves htwo hbuilds hpresent =>
      have heq := htop.eq_of_reached hreach (.inr ⟨_, hbundle'⟩) (.inr ⟨args, hbundle⟩)
      subst heq
      have hargs := hbundle.effective.symm.trans hbundle'.effective
      cases hargs
      have hmem := hleaves.mem_iff.2 hleaf
      refine ⟨leaf.buildName env, .inr ⟨_, List.mem_append_right _ (List.mem_singleton_self _), rfl, rfl,
        _, List.mem_map_of_mem hmem, rfl⟩, hexact ?_⟩
      obtain ⟨g, hg, hgname⟩ := hpresent leaf hmem
      exact ⟨g, List.mem_append_left _ hg, hgname⟩

theorem NamesExact.linked {ref : BuildRef} (h : NamesExact env root) (hroot : Loaded env root)
    (hres : RootResult env root rootBuilddir ref gen) : Linked env root ref gen := by
  have hfollowed := h.toNamesTell.followed hroot hres
  refine ⟨hfollowed, ?_⟩
  intro inst target leaf args dep hreach hbundle hd hleaf
  obtain ⟨leaf', hleaf', hsame⟩ := h.binds hreach hbundle hd hleaf
  obtain ⟨name, hresolves, hexact⟩ := hfollowed.followed hreach hbundle hleaf'
  have hcall : Calls env (.build inst env.rootName) (.collect { inst with args := args }) :=
    .bundle hbundle.tupfile hbundle.effective hbundle.deps_ne
  have hinst : Loaded env inst := hroot.reached hreach
  have hl : Loaded env leaf := (hinst.target hd.target_eq).leaf hleaf
  have hl' : Loaded env leaf' := (hroot.reached (hreach.tail hcall)).leaf hleaf'
  exact ⟨name, hresolves, hexact.congr (hsame.alike hl' hl)⟩

/-! ### Links are exact only when names are -/

theorem reached_name {inst : MtInstance} {name : Text} (h : Reached env root (.build inst name)) :
    name = env.rootName ∨ name = inst.buildName env := by
  generalize hcall : MtCall.build inst name = call at h
  cases h with
  | refl => exact .inl (MtCall.build.inj hcall).2
  | tail _ hlast =>
    cases hlast with
    | expand _ _ _ => cases hcall
    | only _ _ _ _ => exact .inl (MtCall.build.inj hcall).2
    | bundle _ _ _ => cases hcall
    | build _ =>
      obtain ⟨rfl, hname⟩ := MtCall.build.inj hcall
      exact .inr hname
    | collect _ _ _ => cases hcall

/-- A build that is not the root build has been recorded under the name of its component. -/
theorem IsBuildOf.recorded {name : Text} {leaf : MtInstance} (h : IsBuildOf env gen name leaf)
    (hroot : Loaded env root) (hall : AllButBundle env root rootBuilddir gen)
    (hne : name ≠ env.rootName) (hleaf : Loaded env leaf) : name = leaf.buildName env ∧
      ∃ b ∈ gen, b.name = name ∧ SameBuild env b.origin leaf ∧
        RecordedIn env root rootBuilddir gen b := by
  obtain ⟨b, hb, hname⟩ := h.found
  have hsame := (h.exact b hb hname).same
  rcases hall b hb with ⟨hbundle, -⟩ | hrec
  · exact absurd (hname.symm.trans hbundle) hne
  refine ⟨?_, b, hb, hname, hsame, hrec⟩
  rcases reached_name hrec.reached with heq | heq
  · exact absurd (hname.symm.trans heq) hne
  · rw [← hname, heq]
    exact (hsame.alike (hroot.reached hrec.reached) hleaf).buildName_eq

theorem RecordedIn.depend_ne_rootName {b : MtGeneratedBuild} {d : TupbuildDep}
    (h : RecordedIn env root rootBuilddir gen b) (hd : d ∈ b.depends) : d.build ≠ env.rootName := by
  obtain ⟨args, leaves, hrec⟩ := h.recorded
  rw [hrec.depends_eq] at hd
  obtain ⟨dep, -, hd⟩ := List.mem_flatMap.1 hd
  obtain ⟨leaf, -, rfl⟩ := List.mem_map.1 hd
  exact buildName_ne_rootName leaf

/-- The builds of what a call leads to are those of their components. -/
def Covered (env : MtEnv) (root : MtInstance) (rootBuilddir : Text) (gen : Generated)
    (top : MtCall) : MtCall → Prop
  | .build inst name => (.build inst name = top ∨ IsBuildOf env gen name inst) ∧
      ∃ b ∈ gen, b.name = name ∧ SameBuild env b.origin inst ∧ RecordedIn env root rootBuilddir gen b
  | .collect inst => ∀ leaf, Leaf env inst leaf → IsBuildOf env gen (leaf.buildName env) leaf

theorem Followed.covered_step {ref : BuildRef} {top call callee : MtCall}
    (h : Followed env root ref gen) (hroot : Loaded env root)
    (hall : AllButBundle env root rootBuilddir gen) (hl : Loaded env call.inst)
    (hcov : Covered env root rootBuilddir gen top call) (hcall : Calls env call callee) :
    Covered env root rootBuilddir gen top callee := by
  cases hcall with
  | expand htup hargs hd =>
    intro leaf hleaf
    obtain ⟨-, b, hb, -, hsame, hrec⟩ := hcov
    have halike := hsame.symm.alike hl (hroot.reached hrec.reached)
    obtain ⟨d, hdmem, -, hexact⟩ :=
      h.builds hb hrec.tupfile (halike.args_eq ▸ hargs) (hd.congr halike) hleaf
    have hne := hrec.depend_ne_rootName hdmem
    have heq := (hexact.recorded hroot hall hne ((hl.target hd.target_eq).leaf hleaf)).1
    exact heq ▸ hexact
  | only htup _ _ _ =>
    obtain ⟨-, b, hb, -, hsame, hrec⟩ := hcov
    have halike := hsame.alike (hroot.reached hrec.reached) hl
    have hsome := hrec.tupfile
    rw [halike.component_eq] at hsome
    simp [htup] at hsome
  | bundle htup _ _ =>
    obtain ⟨-, b, hb, -, hsame, hrec⟩ := hcov
    have halike := hsame.alike (hroot.reached hrec.reached) hl
    have hsome := hrec.tupfile
    rw [halike.component_eq] at hsome
    simp [htup] at hsome
  | build htup =>
    have hexact := hcov _ (.self htup)
    exact ⟨.inr hexact, (hexact.recorded hroot hall (buildName_ne_rootName _) hl).2⟩
  | collect htup hargs hd =>
    intro leaf hleaf
    exact hcov leaf (.dep htup hargs hd hleaf)

theorem Followed.covered {ref : BuildRef} {top call : MtCall} (h : Followed env root ref gen)
    (hroot : Loaded env root) (hall : AllButBundle env root rootBuilddir gen)
    (hreach : Reached env root top) (hcov : Covered env root rootBuilddir gen top top)
    (hcall : ReflTransGen (Calls env) top call) : Covered env root rootBuilddir gen top call := by
  induction hcall with
  | refl => exact hcov
  | tail hsteps hlast ih =>
    exact h.covered_step hroot hall (hroot.reached (hreach.trans hsteps)) ih hlast

/-- Two builds of one name are of one component, when they are covered. -/
theorem Covered.same {top : MtCall} {inst inst' : MtInstance} {name : Text}
    (h : Covered env root rootBuilddir gen top (.build inst name))
    (h' : Covered env root rootBuilddir gen top (.build inst' name)) : SameBuild env inst inst' := by
  obtain ⟨htop | hexact, b, hb, hname, hsame, -⟩ := h
  · obtain ⟨htop' | hexact', -⟩ := h'
    · cases htop.trans htop'.symm
      exact ⟨rfl, rfl, rfl, rfl⟩
    · exact hsame.symm.trans (hexact'.exact b hb hname).same
  · obtain ⟨-, b', hb', hname', hsame', -⟩ := h'
    exact (hexact.exact b' hb' hname').same.symm.trans hsame'

/-- The names of what the root stands for. -/
theorem RootResult.resolves {ref : BuildRef} {inst : MtInstance} {args : Kvs}
    (h : RootResult env root rootBuilddir ref gen)
    (hreach : Reached env root (.build inst env.rootName)) (hbundle : IsBundle env inst args)
    {name : Text} (hresolves : Resolves gen ref name) {leaf : MtInstance}
    (hexact : IsBuildOf env gen name leaf) :
    ∃ leaf', Leaf env { inst with args := args } leaf' ∧ name = leaf'.buildName env := by
  cases h with
  | build htop htup hbuilds hname hpresent =>
    have heq := htop.eq_of_reached hreach (.inl htup) (.inr ⟨args, hbundle⟩)
    rw [← heq, hbundle.tupfile] at htup
    simp at htup
  | single htop hbundle' hleaves hbuilds hname hpresent =>
    have heq := htop.eq_of_reached hreach (.inr ⟨_, hbundle'⟩) (.inr ⟨args, hbundle⟩)
    subst heq
    have hargs := hbundle.effective.symm.trans hbundle'.effective
    cases hargs
    refine ⟨_, hleaves.mem_iff.1 (List.mem_singleton_self _), ?_⟩
    rcases hresolves with rfl | ⟨b, hb, -, hnone, -⟩
    · exact hname
    · obtain ⟨_, _, hrec⟩ := (hbuilds.recorded.of_mem hb).recorded
      obtain ⟨tupfile, function, -, hsome, -⟩ := hrec.component
      rw [hnone] at hsome
      cases hsome
  | bundle htop hbundle' hleaves htwo hbuilds hpresent =>
    have heq := htop.eq_of_reached hreach (.inr ⟨_, hbundle'⟩) (.inr ⟨args, hbundle⟩)
    subst heq
    have hargs := hbundle.effective.symm.trans hbundle'.effective
    cases hargs
    rcases hresolves with rfl | ⟨b, hb, -, hnone, d, hd, rfl⟩
    · obtain ⟨tupfile, function, -, hsome, -⟩ := (hexact.exact _
        (List.mem_append_right _ (List.mem_singleton_self _)) rfl).component
      cases hsome
    · rcases List.mem_append.1 hb with hb | hb
      · obtain ⟨_, _, hrec⟩ := (hbuilds.recorded.of_mem hb).recorded
        obtain ⟨tupfile, function, -, hsome, -⟩ := hrec.component
        rw [hnone] at hsome
        cases hsome
      · cases List.mem_singleton.1 hb
        obtain ⟨leaf', hleaf', rfl⟩ := List.mem_map.1 hd
        exact ⟨leaf', hleaves.mem_iff.1 hleaf', rfl⟩

/-- What is called from a root without a tupfile is called from its dependencies. -/
theorem IsTop.calls_of_bundle {top inst : MtInstance} {args : Kvs} {name : Text}
    (htop : IsTop env root top) (hbundle : IsBundle env top args)
    (hreach : Reached env root (.build inst name)) (htup : inst.component.tupfile.isSome = true) :
    ReflTransGen (Calls env) (.collect { top with args := args }) (.build inst name) := by
  rcases htop.only hreach with ⟨x, y, heq, hnone, -⟩ | hsteps
  · cases heq
    simp [hnone] at htup
  rcases ReflTransGen.cases_head hsteps with heq | ⟨callee, hfirst, hrest⟩
  · cases heq
    simp [hbundle.tupfile] at htup
  cases hfirst with
  | expand hsome _ _ => simp [hbundle.tupfile] at hsome
  | only _ hargs hdep _ =>
    cases hbundle.effective.symm.trans hargs
    exact absurd hdep (hbundle.deps_ne _)
  | bundle _ hargs _ =>
    cases hbundle.effective.symm.trans hargs
    exact hrest

/-- The leaves of a root without a tupfile are linked under their names. -/
theorem Followed.isBuildOf {ref : BuildRef} {inst leaf : MtInstance} {args : Kvs}
    (h : Followed env root ref gen) (hroot : Loaded env root)
    (hres : RootResult env root rootBuilddir ref gen)
    (hreach : Reached env root (.build inst env.rootName)) (hbundle : IsBundle env inst args)
    (hleaf : Leaf env { inst with args := args } leaf) :
    IsBuildOf env gen (leaf.buildName env) leaf := by
  have hcall : Calls env (.build inst env.rootName) (.collect { inst with args := args }) :=
    .bundle hbundle.tupfile hbundle.effective hbundle.deps_ne
  have hl : Loaded env leaf := (hroot.reached (hreach.tail hcall)).leaf hleaf
  obtain ⟨name, hresolves, hexact⟩ := h.followed hreach hbundle hleaf
  obtain ⟨leaf', -, hname⟩ := hres.resolves hreach hbundle hresolves hexact
  have hne : name ≠ env.rootName := hname ▸ buildName_ne_rootName leaf'
  have heq := (hexact.recorded hroot hres.allButBundle hne hl).1
  exact heq ▸ hexact

/-- Every build that is reached is covered. -/
theorem Followed.reached_covered {ref : BuildRef} (h : Followed env root ref gen)
    (hroot : Loaded env root) (hres : RootResult env root rootBuilddir ref gen) :
    ∃ top, ∀ {inst : MtInstance} {name : Text}, Reached env root (.build inst name) →
      inst.component.tupfile.isSome = true →
      Covered env root rootBuilddir gen top (.build inst name) := by
  have hall := hres.allButBundle
  have hcollect : ∀ {top : MtInstance} {args : Kvs}, IsTop env root top → IsBundle env top args →
      ∀ {inst : MtInstance} {name : Text}, Reached env root (.build inst name) →
      inst.component.tupfile.isSome = true → Covered env root rootBuilddir gen
        (.collect { top with args := args }) (.build inst name) := by
    intro top args htop hbundle inst name hreach htup
    have hcall : Calls env (.build top env.rootName) (.collect { top with args := args }) :=
      .bundle hbundle.tupfile hbundle.effective hbundle.deps_ne
    have hcov : Covered env root rootBuilddir gen (.collect { top with args := args })
        (.collect { top with args := args }) :=
      fun leaf hleaf => h.isBuildOf hroot hres htop.reached hbundle hleaf
    exact h.covered hroot hall (htop.reached.tail hcall) hcov
      (htop.calls_of_bundle hbundle hreach htup)
  cases hres with
  | single htop hbundle _ _ _ _ => exact ⟨_, hcollect htop hbundle⟩
  | bundle htop hbundle _ _ _ _ => exact ⟨_, hcollect htop hbundle⟩
  | @build top _ _ htop htop' hbuilds hname hpresent =>
    have hcov : Covered env root rootBuilddir gen (.build top env.rootName)
        (.build top env.rootName) := by
      obtain ⟨b, hb, hbname⟩ := hpresent ref (List.mem_singleton_self ref)
      have hrec := hbuilds.recorded.of_mem hb
      have hbname := hbname.trans hname
      have heq := htop.eq_of_reached (hbname ▸ hrec.reached) (.inl htop') (.inl hrec.tupfile)
      exact ⟨.inl rfl, b, hb, hbname, heq ▸ ⟨rfl, rfl, rfl, rfl⟩, hrec⟩
    refine ⟨.build top env.rootName, fun {inst name} hreach htup => ?_⟩
    rcases htop.only hreach with ⟨x, y, heq, hnone, -⟩ | hsteps
    · cases heq
      simp [hnone] at htup
    · exact h.covered hroot hall htop.reached hcov hsteps

theorem Linked.namesExact {ref : BuildRef} (h : Linked env root ref gen) (hroot : Loaded env root)
    (hres : RootResult env root rootBuilddir ref gen) : NamesExact env root := by
  refine ⟨⟨?_⟩, ?_⟩
  · intro inst inst' name hreach hreach' htup htup'
    obtain ⟨top, hcov⟩ := h.toFollowed.reached_covered hroot hres
    exact (hcov hreach htup).same (hcov hreach' htup')
  · intro inst target leaf args dep hreach hbundle hd hleaf
    obtain ⟨name, hresolves, hexact⟩ := h.bundle hreach hbundle hd hleaf
    obtain ⟨leaf', hleaf', hname⟩ := hres.resolves hreach hbundle hresolves hexact
    exact ⟨leaf', hleaf', (hname ▸ h.toFollowed.isBuildOf hroot hres hreach hbundle hleaf').same hexact⟩

/-! ### Runs of the generator -/

/-- The builds are the same but for their dists. -/
def SameButDists (gen gen' : Generated) : Prop :=
  gen.map (fun b => ({ b with dists := [] } : MtGeneratedBuild)) =
    gen'.map fun b => ({ b with dists := [] } : MtGeneratedBuild)

theorem sameButDists_mtAddDists (cliDists : List (Text × Option Text)) (ref : BuildRef)
    (gen : Generated) : SameButDists (mtAddDists cliDists ref gen) gen := by
  unfold SameButDists mtAddDists
  apply List.ext_getElem?
  intro i
  rw [List.getElem?_map, List.getElem?_map, List.getElem?_modify]
  cases gen[i]? with
  | none => rfl
  | some b =>
    by_cases hi : ref.idx = i
    · simp [hi]
    · simp [hi]

theorem SameButDists.mem {gen gen' : Generated} (h : SameButDists gen gen') {b : MtGeneratedBuild}
    (hb : b ∈ gen) : ∃ b' ∈ gen', b = { b' with dists := b.dists } := by
  have hmem : ({ b with dists := [] } : MtGeneratedBuild) ∈
      gen.map fun b => ({ b with dists := [] } : MtGeneratedBuild) := List.mem_map_of_mem hb
  rw [h] at hmem
  obtain ⟨b', hb', heq⟩ := List.mem_map.1 hmem
  refine ⟨b', hb', ?_⟩
  have heq' := congrArg (fun c : MtGeneratedBuild => { c with dists := b.dists }) heq
  exact heq'.symm

theorem IsBuildOf.dists {gen gen' : Generated} {name : Text} {inst : MtInstance}
    (h : SameButDists gen gen') (hb : IsBuildOf env gen name inst) : IsBuildOf env gen' name inst := by
  constructor
  · obtain ⟨b, hmem, hname⟩ := hb.found
    obtain ⟨b', hmem', heq⟩ := h.mem hmem
    exact ⟨b', hmem', by rw [← hname, heq]⟩
  · intro b hmem hname
    obtain ⟨b', hmem', heq⟩ := SameButDists.mem (Eq.symm h) hmem
    rw [heq] at hname ⊢
    have hrec := hb.exact b' hmem' hname
    exact ⟨hrec.same, hrec.component, hrec.args⟩

theorem Resolves.dists {gen gen' : Generated} {ref : BuildRef} {name : Text}
    (h : SameButDists gen gen') (hr : Resolves gen ref name) : Resolves gen' ref name := by
  rcases hr with heq | ⟨b, hmem, hname, hnone, d, hd, hbuild⟩
  · exact .inl heq
  · obtain ⟨b', hmem', heq⟩ := h.mem hmem
    rw [heq] at hname hnone hd
    exact .inr ⟨b', hmem', hname, hnone, d, hd, hbuild⟩

theorem Followed.dists {gen gen' : Generated} {ref : BuildRef} (h : SameButDists gen gen')
    (hf : Followed env root ref gen) : Followed env root ref gen' := by
  constructor
  · intro b args dep target leaf hb htup hargs hd hleaf
    obtain ⟨b', hmem', heq⟩ := SameButDists.mem (Eq.symm h) hb
    rw [heq] at htup hargs hd ⊢
    obtain ⟨d, hdmem, has, hexact⟩ := hf.builds hmem' htup hargs hd hleaf
    exact ⟨d, hdmem, has, hexact.dists h⟩
  · intro inst leaf args hreach hbundle hleaf
    obtain ⟨name, hresolves, hexact⟩ := hf.followed hreach hbundle hleaf
    exact ⟨name, hresolves.dists h, hexact.dists h⟩

theorem Linked.dists {gen gen' : Generated} {ref : BuildRef} (h : SameButDists gen gen')
    (hlinked : Linked env root ref gen) : Linked env root ref gen' := by
  refine ⟨hlinked.toFollowed.dists h, ?_⟩
  intro inst target leaf args dep hreach hbundle hd hleaf
  obtain ⟨name, hresolves, hexact⟩ := hlinked.bundle hreach hbundle hd hleaf
  exact ⟨name, hresolves.dists h, hexact.dists h⟩

theorem dropCommon_self (names : List Text) : dropCommon names names = ([], []) := by
  induction names with
  | nil => rfl
  | cons name names ih => rw [dropCommon, if_pos rfl, ih]

theorem mtRepoRel_self (dir : Text) : mtRepoRel dir dir = [] := by
  unfold mtRepoRel mtRelpath
  rw [dropCommon_self]
  rfl

theorem loaded_root {world : MtEnv} {componentName : Text} {args : List Text} {setup : MtSetup}
    (h : mtSetup world componentName args = .ok setup) : Loaded setup.env setup.root := by
  obtain ⟨opts, mf, component, -, hfile, hfind, henv, -, hroot, -⟩ := mtSetup_ok h
  rw [hroot, henv]
  refine ⟨(mtRepoRel_self world.root).symm, mf, hfile, ?_⟩
  dsimp only
  rw [name_of_mtFindComponent hfind]
  exact hfind

/-- The workspace whose only file is this. -/
def workspaceOf (mf : MtFile) : MtEnv where
  cwd := "/w".toList
  root := "/w".toList
  rootName := []
  loadFile := fun _ => .ok mf
  materialize := fun _ _ => .error "no such repository".toList

/-- A component of the file, in the directory of the workspace. -/
def instanceOf (component : MtComponent) (args : Kvs) : MtInstance where
  ctx := { repoRootAbs := "/w".toList, repoRootRel := [], package := [] }
  component := component
  args := args

/-- A component with a tupfile. -/
def componentOf (name : String) (deps : List MtDep) : MtComponent where
  name := name.toList
  tupfile := some ("build.tup".toList, name.toList)
  deps := deps

/-- A dependency on `lib` with an argument. -/
def onLib (value : String) : MtDep where
  name := ":lib".toList
  binds := [{ toKey := "v".toList, value := some value.toList }]

/-- Two components depend on `lib`, each with an argument of its own. -/
def diamond : MtFile where
  components := [
    componentOf "app" [{ name := ":a".toList }, { name := ":b".toList }],
    componentOf "a" [onLib "1"],
    componentOf "b" [onLib "2"],
    componentOf "lib" []]

/-- What `tup gen app` starts from. -/
def diamondSetup : MtSetup where
  env := { workspaceOf diamond with rootName := "app".toList }
  opts := {}
  strict := true
  autoCompiledb := false
  root := instanceOf (componentOf "app" [{ name := ":a".toList }, { name := ":b".toList }]) []
  builddir := "./app.build".toList

/-- Whether the run has come to builds. -/
def MtResult.isOk {α : Type} : MtResult α → Bool
  | .ok _ => true
  | _ => false

theorem MtResult.exists_of_isOk {α : Type} {x : MtResult α} (h : x.isOk = true) : ∃ a, x = .ok a := by
  cases x with
  | ok a => exact ⟨a, rfl⟩
  | error err => cases h
  | running => cases h

end Metatup
