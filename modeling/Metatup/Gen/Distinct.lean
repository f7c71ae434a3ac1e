import Metatup.Gen.Sharing

/-!
# Distinct builds

Where names tell components apart, an expansion that succeeds has been everywhere, so nothing in it
fails and no component leads to a build of its own name. The builds then have different names, and
they are those of the components that are reached.

* `regular_of_names`, `noNested_of_names`: what a run says about the components.
* `BuiltName`: the names of the builds.
-/

namespace Metatup

open Relation

variable {env : MtEnv} {root : MtInstance} {rootBuilddir : Text} {gen : Generated} {ref : BuildRef}

/-! ### What has been evaluated -/

/-- The component of a root build that is not one of the first. -/
theorem RootResult.top (h : RootResult env root rootBuilddir ref gen) : ∃ top, IsTop env root top ∧
    (top.component.tupfile.isSome = true ∨
      ∃ args ls, IsBundle env top args ∧ Leaves env { top with args := args } ls) := by
  cases h with
  | build htop htup _ _ _ => exact ⟨_, htop, .inl htup⟩
  | single htop hbundle hleaves _ _ _ => exact ⟨_, htop, .inr ⟨_, _, hbundle, hleaves⟩⟩
  | bundle htop hbundle hleaves _ _ _ => exact ⟨_, htop, .inr ⟨_, _, hbundle, hleaves⟩⟩

/-- A root without a tupfile has been resolved. -/
theorem RootResult.leaves (h : RootResult env root rootBuilddir ref gen) {inst : MtInstance}
    {args : Kvs} (hreach : Reached env root (.build inst env.rootName))
    (hbundle : IsBundle env inst args) : ∃ ls, Leaves env { inst with args := args } ls := by
  obtain ⟨top, htop, htup | ⟨args', ls, hbundle', hleaves⟩⟩ := h.top
  · cases htop.eq_of_reached hreach (.inl htup) (.inr ⟨args, hbundle⟩)
    simp [hbundle.tupfile] at htup
  · cases htop.eq_of_reached hreach (.inr ⟨args', hbundle'⟩) (.inr ⟨args, hbundle⟩)
    cases hbundle.effective.symm.trans hbundle'.effective
    exact ⟨ls, hleaves⟩

/-- What is reached has been recorded, as what it is. -/
theorem NamesTell.recorded (h : NamesTell env root) (hroot : Loaded env root)
    (hres : RootResult env root rootBuilddir ref gen) {inst : MtInstance} {name : Text}
    (hreach : Reached env root (.build inst name)) (htup : inst.component.tupfile.isSome = true) :
    ∃ b ∈ gen, b.name = name ∧ Alike env b.origin inst ∧ RecordedIn env root rootBuilddir gen b := by
  obtain ⟨top, hcov⟩ := (h.followed hroot hres).reached_covered hroot hres
  obtain ⟨-, b, hb, hname, hsame, hrec⟩ := hcov hreach htup
  exact ⟨b, hb, hname, hsame.alike (hroot.reached hrec.reached) (hroot.reached hreach), hrec⟩

/-- The leaves of a dependency of a build. -/
theorem RecordedIn.leaves {b : MtGeneratedBuild} {inst : MtInstance} {args : Kvs} {dep : MtDep}
    (h : RecordedIn env root rootBuilddir gen b) (ha : Alike env b.origin inst)
    (hargs : inst.effectiveArgs env = some args) (hdep : dep ∈ inst.component.deps)
    (hen : mtDepEnabled args dep = true) : ∃ ls, DepLeaves env inst args dep ls := by
  obtain ⟨args', leaves, hrec⟩ := h.recorded
  cases (ha.args_eq.symm.trans hrec.effective).symm.trans hargs
  obtain ⟨target, htarget, hleaves⟩ := hrec.leaves_ok dep (ha.component_eq ▸ hdep) hen
  exact ⟨leaves dep, target, (ha.depInstance_eq args dep).symm.trans htarget, hleaves⟩

/-- A component that is collected has been resolved. -/
theorem NamesTell.leaves (h : NamesTell env root) (hroot : Loaded env root)
    (hres : RootResult env root rootBuilddir ref gen) {inst : MtInstance}
    (hreach : Reached env root (.collect inst)) : ∃ ls, Leaves env inst ls := by
  generalize hcall : MtCall.collect inst = call at hreach
  induction hreach generalizing inst with
  | refl => cases hcall
  | tail hsteps hlast ih =>
    cases hlast with
    | expand htup hargs hd =>
      cases hcall
      obtain ⟨b, -, -, halike, hrec⟩ := h.recorded hroot hres hsteps htup
      obtain ⟨ls, target, htarget, hls⟩ := hrec.leaves halike hargs hd.mem hd.enabled
      cases hd.target_eq.symm.trans htarget
      exact ⟨ls, hls⟩
    | only => cases hcall
    | bundle htup hargs hdeps =>
      cases hcall
      exact hres.leaves hsteps ⟨htup, hargs, hdeps⟩
    | build => cases hcall
    | collect htup hargs hd =>
      cases hcall
      obtain ⟨ls, hls⟩ := ih rfl
      cases hls with
      | self hsome => simp [htup] at hsome
      | deps _ hargs' htarget hleaves =>
        cases hargs.symm.trans hargs'
        cases hd.target_eq.symm.trans (htarget _ hd.mem hd.enabled)
        exact ⟨_, hleaves _ hd.mem hd.enabled⟩

/-- The builds without a tupfile that are reached: the first components, and a root that stands for
several builds. -/
theorem RootResult.dependencyOnly (h : RootResult env root rootBuilddir ref gen) {inst : MtInstance}
    {name : Text} (hreach : Reached env root (.build inst name))
    (hnone : inst.component.tupfile = none) : ∃ args, inst.effectiveArgs env = some args ∧
      (IsBundle env inst args ∨ ∃ dep target, inst.component.deps.filter (mtDepEnabled args) = [dep] ∧
        inst.depInstance env args dep = .ok target) := by
  obtain ⟨top, htop, hkind⟩ := h.top
  rcases htop.only hreach with ⟨x, y, heq, -, hcall⟩ | hsteps
  · cases heq
    generalize env.rootName = name at hcall
    cases hcall with
    | only _ hargs hdep htarget => exact ⟨_, hargs, .inr ⟨_, _, hdep, htarget⟩⟩
  rcases ReflTransGen.cases_head hsteps with heq | ⟨callee, hfirst, hrest⟩
  · cases heq
    rcases hkind with htup | ⟨args, _, hbundle, -⟩
    · simp [hnone] at htup
    · exact ⟨args, hbundle.effective, .inl hbundle⟩
  · have hcollect : ∃ x, callee = .collect x := by
      generalize env.rootName = name' at hfirst
      cases hfirst with
      | expand => exact ⟨_, rfl⟩
      | only hnone' hargs hdep _ =>
        rcases hkind with htup | ⟨args, _, hbundle, -⟩
        · simp [hnone'] at htup
        · cases hbundle.effective.symm.trans hargs
          exact absurd hdep (hbundle.deps_ne _)
      | bundle => exact ⟨_, rfl⟩
    obtain ⟨x, rfl⟩ := hcollect
    rcases name_of_collect hrest with ⟨z, heq⟩ | ⟨z, htup, heq⟩
    · cases heq
    · cases (MtCall.build.inj heq).1
      simp [hnone] at htup

/-- A run whose names tell components apart has been everywhere. -/
theorem regular_of_names (h : NamesTell env root) (hroot : Loaded env root)
    (hres : RootResult env root rootBuilddir ref gen) : Regular env root := by
  have hbuilt : ∀ {inst : MtInstance} {name : Text}, Reached env root (.build inst name) →
      inst.component.tupfile.isSome = true → ∃ args, inst.effectiveArgs env = some args ∧
        ∀ dep ∈ inst.component.deps, mtDepEnabled args dep = true →
          ∃ target, inst.depInstance env args dep = .ok target := by
    intro inst name hreach htup
    obtain ⟨b, -, -, halike, hrec⟩ := h.recorded hroot hres hreach htup
    obtain ⟨args, leaves, hrecorded⟩ := hrec.recorded
    have hargs := halike.args_eq.symm.trans hrecorded.effective
    refine ⟨args, hargs, fun dep hdep hen => ?_⟩
    obtain ⟨ls, target, htarget, -⟩ := hrec.leaves halike hargs hdep hen
    exact ⟨target, htarget⟩
  have hcollected : ∀ {inst : MtInstance}, Reached env root (.collect inst) →
      ∃ args, inst.effectiveArgs env = some args ∧ ∀ dep ∈ inst.component.deps,
        mtDepEnabled args dep = true → ∃ target, inst.depInstance env args dep = .ok target := by
    intro inst hreach
    obtain ⟨ls, hls⟩ := h.leaves hroot hres hreach
    cases hls with
    | self htup => exact hbuilt (hreach.tail (.build htup)) htup
    | deps _ hargs htarget _ => exact ⟨_, hargs, fun dep hdep hen => ⟨_, htarget dep hdep hen⟩⟩
  constructor
  · intro call hreach
    cases call with
    | build inst name =>
      cases htup : inst.component.tupfile with
      | some tf =>
        obtain ⟨args, hargs, -⟩ := hbuilt hreach (by rw [htup]; rfl)
        exact ⟨args, hargs⟩
      | none =>
        obtain ⟨args, hargs, -⟩ := hres.dependencyOnly hreach htup
        exact ⟨args, hargs⟩
    | collect inst =>
      obtain ⟨args, hargs, -⟩ := hcollected hreach
      exact ⟨args, hargs⟩
  · intro call hreach args hargs dep hdep hen heval
    cases call with
    | build inst name =>
      cases htup : inst.component.tupfile with
      | some tf =>
        obtain ⟨args', hargs', hdeps⟩ := hbuilt hreach (by rw [htup]; rfl)
        cases hargs.symm.trans hargs'
        exact hdeps dep hdep hen
      | none =>
        obtain ⟨args', hargs', hbundle | ⟨dep', target, hdep', htarget⟩⟩ :=
          hres.dependencyOnly hreach htup
        · cases hargs.symm.trans hargs'
          exact absurd (heval inst name rfl htup) (hbundle.deps_ne dep)
        · cases hargs.symm.trans hargs'
          cases (heval inst name rfl htup).symm.trans hdep'
          exact ⟨target, htarget⟩
    | collect inst =>
      obtain ⟨args', hargs', hdeps⟩ := hcollected hreach
      cases hargs.symm.trans hargs'
      exact hdeps dep hdep hen
  · intro inst inst' name hreach hreach' htup htup'
    exact (h.names hreach hreach' htup htup').alike (hroot.reached hreach) (hroot.reached hreach')

/-! ### Nothing is nested -/

theorem Finite.of_reached {call : MtCall} (h : Finite env (.build root env.rootName))
    (hreach : Reached env root call) : Finite env call := by
  induction hreach with
  | refl => exact h
  | tail _ hcall ih => exact ih.inv hcall

theorem Finite.not_cycle {call : MtCall} (h : Finite env call) : ¬ TransGen (Calls env) call call := by
  induction h with
  | intro call _ ih =>
    intro hcycle
    obtain ⟨callee, hfirst, hrest⟩ := TransGen.head'_iff.1 hcycle
    exact ih callee hfirst (.tail' hrest hfirst)

theorem noNested_of_names (h : NamesTell env root) (hroot : Loaded env root) {fuel : ℕ}
    (hrun : mtBuildComponent env fuel root env.rootName rootBuilddir [] = .ok (ref, gen)) :
    NoNested env root := by
  have hres : RootResult env root rootBuilddir ref gen := root_spec fuel isTop_root hrun
  have hreg := regular_of_names h hroot hres
  have hfin : Finite env (.build root env.rootName) := by
    have hends : mtBuildComponent env fuel root env.rootName rootBuilddir [] = .running ∨ _ :=
      root_runs_or_finite hreg fuel .refl
    rcases hends with hrunning | hfin
    · rw [hrunning] at hrun
      cases hrun
    · exact hfin
  intro inst inst' name hreach htup htup' hnested
  have hreach' : Reached env root (.build inst' name) := hreach.trans hnested.to_reflTransGen
  have halike : Alike env inst inst' := hreg.build_inj hreach hreach' htup htup'
  obtain ⟨callee, hfirst, hrest⟩ := TransGen.head'_iff.1 hnested
  have hfirst' : Calls env (.build inst' name) callee := by
    cases hfirst with
    | expand _ hargs hd => exact .expand htup' (halike.args_eq ▸ hargs) (hd.congr halike)
    | only hnone => simp [hnone] at htup
    | bundle hnone => simp [hnone] at htup
  exact (hfin.of_reached hreach').not_cycle (.head' hfirst' hrest)

/-! ### The names of the builds -/

/-- The name of a build that is generated: that of a component with a tupfile that is reached, or that
of a root that stands for several builds. -/
def BuiltName (env : MtEnv) (root : MtInstance) (name : Text) : Prop :=
  ∃ inst, Reached env root (.build inst name) ∧ (inst.component.tupfile.isSome = true ∨
    ∃ args ls, IsBundle env inst args ∧ Leaves env { inst with args := args } ls ∧ 2 ≤ ls.length)

/-- What the root build only depends on is built before it, under other names. -/
theorem Builds.ne_rootName {inst : MtInstance}
    (h : Builds env root rootBuilddir (ReflTransGen (Calls env) (.collect inst)) [] gen)
    {b : MtGeneratedBuild} (hb : b ∈ gen) : b.name ≠ env.rootName := by
  rcases h.called b hb with hb | hcall
  · exact absurd hb List.not_mem_nil
  rcases name_of_collect hcall with ⟨x, heq⟩ | ⟨x, -, heq⟩
  · cases heq
  · rw [(MtCall.build.inj heq).2]
    exact buildName_ne_rootName x

theorem RootResult.nodup (h : RootResult env root rootBuilddir ref gen) (hno : NoNested env root) :
    (gen.map fun b => b.name).Nodup := by
  cases h with
  | build _ _ hbuilds _ _ => exact hbuilds.nodup hno List.nodup_nil
  | single _ _ _ hbuilds _ _ => exact hbuilds.nodup hno List.nodup_nil
  | bundle _ _ _ _ hbuilds _ =>
    rw [List.map_append, List.nodup_append]
    refine ⟨hbuilds.nodup hno List.nodup_nil, List.nodup_singleton _, ?_⟩
    intro x hx y hy heq
    obtain ⟨b, hb, rfl⟩ := List.mem_map.1 hx
    cases List.mem_singleton.1 hy
    exact hbuilds.ne_rootName hb heq

/-- A build in the list, with what is known of it. -/
theorem RootResult.mem_cases (h : RootResult env root rootBuilddir ref gen) {b : MtGeneratedBuild}
    (hb : b ∈ gen) : RecordedIn env root rootBuilddir gen b ∨
      ∃ inst args ls, Reached env root (.build inst env.rootName) ∧ IsBundle env inst args ∧
        Leaves env { inst with args := args } ls ∧ 2 ≤ ls.length ∧
        b = bundleBuild env rootBuilddir inst ls ∧ b.name = ref.name ∧
        ∀ leaf ∈ ls, ∃ g ∈ gen, g.name = leaf.buildName env := by
  cases h with
  | build htop htup hbuilds hname hpresent => exact .inl (hbuilds.recorded.of_mem hb)
  | single htop hbundle hleaves hbuilds hname hpresent => exact .inl (hbuilds.recorded.of_mem hb)
  | bundle htop hbundle hleaves htwo hbuilds hpresent =>
    rcases List.mem_append.1 hb with hb | hb
    · exact .inl ((hbuilds.recorded.of_mem hb).mono fun g hg => List.mem_append_left _ hg)
    · cases List.mem_singleton.1 hb
      refine .inr ⟨_, _, _, htop.reached, hbundle, hleaves, htwo, rfl, rfl, fun leaf hleaf => ?_⟩
      obtain ⟨g, hg, hname⟩ := hpresent leaf hleaf
      exact ⟨g, List.mem_append_left _ hg, hname⟩

theorem reached_rootName {inst : MtInstance} {name : Text} (hreach : Reached env root (.build inst name))
    (hnone : inst.component.tupfile = none) : name = env.rootName := by
  generalize hcall : MtCall.build inst name = call at hreach
  cases hreach with
  | refl => exact (MtCall.build.inj hcall).2
  | tail _ hlast =>
    cases hlast with
    | expand => cases hcall
    | only => exact (MtCall.build.inj hcall).2
    | bundle => cases hcall
    | build htup =>
      cases (MtCall.build.inj hcall).1
      simp [hnone] at htup
    | collect => cases hcall

/-- A root that stands for several builds has a build of its own. -/
theorem RootResult.bundle_mem (h : RootResult env root rootBuilddir ref gen) {inst : MtInstance}
    {args : Kvs} {ls : List MtInstance} (hreach : Reached env root (.build inst env.rootName))
    (hbundle : IsBundle env inst args) (hleaves : Leaves env { inst with args := args } ls)
    (htwo : 2 ≤ ls.length) : ∃ b ∈ gen, b.name = env.rootName ∧ b.name = ref.name ∧
      b = bundleBuild env rootBuilddir inst ls := by
  cases h with
  | build htop htup _ _ _ =>
    cases htop.eq_of_reached hreach (.inl htup) (.inr ⟨args, hbundle⟩)
    simp [hbundle.tupfile] at htup
  | single htop hbundle' hleaves' _ _ _ =>
    cases htop.eq_of_reached hreach (.inr ⟨_, hbundle'⟩) (.inr ⟨args, hbundle⟩)
    cases hbundle.effective.symm.trans hbundle'.effective
    cases hleaves.unique hleaves'
    simp at htwo
  | bundle htop hbundle' hleaves' _ _ _ =>
    cases htop.eq_of_reached hreach (.inr ⟨_, hbundle'⟩) (.inr ⟨args, hbundle⟩)
    cases hbundle.effective.symm.trans hbundle'.effective
    cases hleaves.unique hleaves'
    exact ⟨_, List.mem_append_right _ (List.mem_singleton_self _), rfl, rfl, rfl⟩

/-- The builds are those of what is reached. -/
theorem builtName_iff (h : NamesTell env root) (hroot : Loaded env root)
    (hres : RootResult env root rootBuilddir ref gen) {name : Text} :
    BuiltName env root name ↔ ∃ b ∈ gen, b.name = name := by
  constructor
  · rintro ⟨inst, hreach, htup | ⟨args, ls, hbundle, hleaves, htwo⟩⟩
    · obtain ⟨b, hb, hname, -⟩ := h.recorded hroot hres hreach htup
      exact ⟨b, hb, hname⟩
    · cases reached_rootName hreach hbundle.tupfile
      obtain ⟨g, hg, hname, -⟩ := hres.bundle_mem hreach hbundle hleaves htwo
      exact ⟨g, hg, hname⟩
  · rintro ⟨b, hb, rfl⟩
    rcases hres.mem_cases hb with hrec | ⟨inst, args, ls, hreach, hbundle, hleaves, htwo, rfl, -⟩
    · exact ⟨b.origin, hrec.reached, .inl hrec.tupfile⟩
    · exact ⟨inst, hreach, .inr ⟨args, ls, hbundle, hleaves, htwo⟩⟩

end Metatup
