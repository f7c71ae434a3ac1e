import Metatup.Gen.Termination

/-!
# What is recorded

What an expansion that succeeds adds to the list of the builds: each is a component with a tupfile
that the expansion has reached, with its effective arguments, and depends on what its enabled
dependencies lead to.

* `Leaves`: the components with a tupfile that a component stands for.
* `Recorded`: a build in the list.
* `Builds`: what a call leaves unchanged and what it adds.
* `build_spec`, `collect_spec`: the calls of the recursion.
-/

namespace Metatup

open Relation

variable {env : MtEnv}

/-! ### Leaves -/

/-- The components with a tupfile that a component stands for, in the order in which they are met. -/
inductive Leaves (env : MtEnv) : MtInstance → List MtInstance → Prop
  | self {inst : MtInstance} (htup : inst.component.tupfile.isSome = true) : Leaves env inst [inst]
  | deps {inst : MtInstance} {args : Kvs} {target : MtDep → MtInstance}
      {leaves : MtDep → List MtInstance} (htup : inst.component.tupfile = none)
      (hargs : inst.effectiveArgs env = some args)
      (htarget : ∀ dep ∈ inst.component.deps, mtDepEnabled args dep = true →
        inst.depInstance env args dep = .ok (target dep))
      (hleaves : ∀ dep ∈ inst.component.deps, mtDepEnabled args dep = true →
        Leaves env (target dep) (leaves dep)) :
      Leaves env inst ((inst.component.deps.filter (mtDepEnabled args)).flatMap leaves)

/-- The leaves of what a dependency leads to. -/
def DepLeaves (env : MtEnv) (inst : MtInstance) (args : Kvs) (dep : MtDep) (ls : List MtInstance) :
    Prop :=
  ∃ target, inst.depInstance env args dep = .ok target ∧ Leaves env target ls

/-- One of the components with a tupfile that a component stands for. -/
inductive Leaf (env : MtEnv) : MtInstance → MtInstance → Prop
  | self {inst : MtInstance} (htup : inst.component.tupfile.isSome = true) : Leaf env inst inst
  | dep {inst target leaf : MtInstance} {args : Kvs} {dep : MtDep}
      (htup : inst.component.tupfile = none) (hargs : inst.effectiveArgs env = some args)
      (hd : DependsVia env inst args dep target) (h : Leaf env target leaf) : Leaf env inst leaf

theorem Leaf.tupfile {inst leaf : MtInstance} (h : Leaf env inst leaf) :
    leaf.component.tupfile.isSome = true := by
  induction h with
  | self htup => exact htup
  | dep _ _ _ _ ih => exact ih

theorem flatMap_congr_filter {deps : List MtDep} {p : MtDep → Bool} {f g : MtDep → List MtInstance}
    (h : ∀ dep ∈ deps, p dep = true → f dep = g dep) :
    (deps.filter p).flatMap f = (deps.filter p).flatMap g := by
  apply List.flatMap_congr
  intro dep hd
  exact h dep (List.mem_filter.1 hd).1 (List.mem_filter.1 hd).2

theorem Leaves.unique {inst : MtInstance} {ls ls' : List MtInstance} (h : Leaves env inst ls)
    (h' : Leaves env inst ls') : ls = ls' := by
  induction h generalizing ls' with
  | self htup =>
    cases h' with
    | self _ => rfl
    | deps hnone _ _ _ => simp [hnone] at htup
  | deps hnone hargs htarget hleaves ih =>
    cases h' with
    | self htup => simp [hnone] at htup
    | deps _ hargs' htarget' hleaves' =>
      rw [hargs] at hargs'
      cases hargs'
      apply flatMap_congr_filter
      intro dep hd hen
      have heq := (htarget dep hd hen).symm.trans (htarget' dep hd hen)
      apply ih dep hd hen
      rw [Except.ok.inj heq]
      exact hleaves' dep hd hen

theorem Leaves.mem_iff {inst leaf : MtInstance} {ls : List MtInstance} (h : Leaves env inst ls) :
    leaf ∈ ls ↔ Leaf env inst leaf := by
  induction h with
  | self htup =>
    rw [List.mem_singleton]
    constructor
    · rintro rfl
      exact .self htup
    · intro h
      cases h with
      | self _ => rfl
      | dep hnone _ _ _ => simp [hnone] at htup
  | deps hnone hargs htarget hleaves ih =>
    rw [List.mem_flatMap]
    constructor
    · rintro ⟨dep, hd, hmem⟩
      obtain ⟨hd, hen⟩ := List.mem_filter.1 hd
      exact .dep hnone hargs ⟨hd, hen, htarget dep hd hen⟩ ((ih dep hd hen).1 hmem)
    · intro h
      cases h with
      | self htup => simp [hnone] at htup
      | dep _ hargs' hd h =>
        rw [hargs] at hargs'
        cases hargs'
        have heq := (htarget _ hd.mem hd.enabled).symm.trans hd.target_eq
        refine ⟨_, List.mem_filter.2 ⟨hd.mem, hd.enabled⟩, (ih _ hd.mem hd.enabled).2 ?_⟩
        rw [Except.ok.inj heq]
        exact h

theorem DepLeaves.unique {inst : MtInstance} {args : Kvs} {dep : MtDep} {ls ls' : List MtInstance}
    (h : DepLeaves env inst args dep ls) (h' : DepLeaves env inst args dep ls') : ls = ls' := by
  obtain ⟨target, htarget, hls⟩ := h
  obtain ⟨target', htarget', hls'⟩ := h'
  rw [htarget] at htarget'
  cases htarget'
  exact hls.unique hls'

/-! ### Recorded builds -/

/-- The directory of a build: the root build has one of its own. -/
def builddirOf (env : MtEnv) (rootBuilddir name : Text) : Text :=
  if name = env.rootName then rootBuilddir else mtDepBuilddir env name

/-- A build of a component with a tupfile, with the leaves of its enabled dependencies. -/
structure Recorded (env : MtEnv) (rootBuilddir : Text) (b : MtGeneratedBuild) (args : Kvs)
    (leaves : MtDep → List MtInstance) : Prop where
  identity_eq : b.identity = b.name
  component : ∃ tupfile function, b.origin.component.tupfile = some (tupfile, function) ∧
    b.tupfile = some (mtTupfilePath env b.origin.ctx tupfile) ∧ b.function = some function
  effective : b.origin.effectiveArgs env = some args
  builddir_eq : b.builddir = builddirOf env rootBuilddir b.name
  profile_eq : b.profile = env.profile
  args_eq : b.args = mtCloneKvsExcept args [] env.profile
  leaves_ok : ∀ dep ∈ b.origin.component.deps, mtDepEnabled args dep = true →
    DepLeaves env b.origin args dep (leaves dep)
  depends_eq : b.depends = (b.origin.component.deps.filter (mtDepEnabled args)).flatMap fun dep =>
    (leaves dep).map fun leaf => { build := leaf.buildName env, as := mtAlias dep.name }
  dists_eq : b.dists = []

/-- A build in a list, after the builds it depends on. -/
structure RecordedIn (env : MtEnv) (root : MtInstance) (rootBuilddir : Text) (gen : Generated)
    (b : MtGeneratedBuild) : Prop where
  reached : Reached env root (.build b.origin b.name)
  recorded : ∃ args leaves, Recorded env rootBuilddir b args leaves
  depends : ∀ d ∈ b.depends, ∃ g ∈ gen, g.name = d.build

/-- The list of the builds while it grows. -/
inductive AllRecorded (env : MtEnv) (root : MtInstance) (rootBuilddir : Text) : Generated → Prop
  | nil : AllRecorded env root rootBuilddir []
  | snoc {gen : Generated} {b : MtGeneratedBuild} (h : AllRecorded env root rootBuilddir gen)
      (hb : RecordedIn env root rootBuilddir gen b) : AllRecorded env root rootBuilddir (gen ++ [b])

/-- No component leads to a build that has the name of its own build. -/
def NoNested (env : MtEnv) (root : MtInstance) : Prop :=
  ∀ inst inst' name, Reached env root (.build inst name) → inst.component.tupfile.isSome = true →
    inst'.component.tupfile.isSome = true →
    ¬ TransGen (Calls env) (.build inst name) (.build inst' name)

variable {root : MtInstance} {rootBuilddir : Text}

theorem AllRecorded.of_mem {gen : Generated} (h : AllRecorded env root rootBuilddir gen)
    {b : MtGeneratedBuild} (hb : b ∈ gen) : RecordedIn env root rootBuilddir gen b := by
  induction h with
  | nil => exact absurd hb List.not_mem_nil
  | @snoc gen b' _ hb' ih =>
    have hmono : ∀ {c}, RecordedIn env root rootBuilddir gen c →
        RecordedIn env root rootBuilddir (gen ++ [b']) c := by
      intro c hc
      refine ⟨hc.reached, hc.recorded, fun d hd => ?_⟩
      obtain ⟨g, hg, hname⟩ := hc.depends d hd
      exact ⟨g, List.mem_append_left _ hg, hname⟩
    rcases List.mem_append.1 hb with hb | hb
    · exact hmono (ih hb)
    · exact List.mem_singleton.1 hb ▸ hmono hb'

theorem AllRecorded.identity_eq {gen : Generated} (h : AllRecorded env root rootBuilddir gen)
    {b : MtGeneratedBuild} (hb : b ∈ gen) : b.identity = b.name := by
  obtain ⟨args, leaves, hrec⟩ := (h.of_mem hb).recorded
  exact hrec.identity_eq

theorem RecordedIn.tupfile {gen : Generated} {b : MtGeneratedBuild}
    (h : RecordedIn env root rootBuilddir gen b) : b.origin.component.tupfile.isSome = true := by
  obtain ⟨args, leaves, hrec⟩ := h.recorded
  obtain ⟨tupfile, function, htup, -⟩ := hrec.component
  rw [htup]
  rfl

/-! ### What a call does -/

/-- The builds that are added are all of one kind. -/
structure Builds (env : MtEnv) (root : MtInstance) (rootBuilddir : Text) (P : MtCall → Prop)
    (gen gen' : Generated) : Prop where
  recorded : AllRecorded env root rootBuilddir gen'
  grows : gen <+: gen'
  called : ∀ b ∈ gen', b ∈ gen ∨ P (.build b.origin b.name)
  nodup : NoNested env root → (gen.map fun b => b.name).Nodup → (gen'.map fun b => b.name).Nodup

theorem Builds.refl {P : MtCall → Prop} {gen : Generated}
    (h : AllRecorded env root rootBuilddir gen) : Builds env root rootBuilddir P gen gen :=
  ⟨h, List.prefix_rfl, fun _ hb => .inl hb, fun _ hnodup => hnodup⟩

theorem Builds.trans {P : MtCall → Prop} {gen gen₁ gen₂ : Generated}
    (h : Builds env root rootBuilddir P gen gen₁) (h' : Builds env root rootBuilddir P gen₁ gen₂) :
    Builds env root rootBuilddir P gen gen₂ := by
  refine ⟨h'.recorded, h.grows.trans h'.grows, ?_, fun hno hnodup => h'.nodup hno (h.nodup hno hnodup)⟩
  intro b hb
  rcases h'.called b hb with hb | hcall
  · exact h.called b hb
  · exact .inr hcall

theorem Builds.mono {P Q : MtCall → Prop} {gen gen' : Generated}
    (h : Builds env root rootBuilddir P gen gen') (hPQ : ∀ call, P call → Q call) :
    Builds env root rootBuilddir Q gen gen' :=
  ⟨h.recorded, h.grows, fun b hb => (h.called b hb).imp_right (hPQ _), h.nodup⟩

/-- The builds that the references name are there. -/
def Present (gen : Generated) (refs : List BuildRef) : Prop :=
  ∀ ref ∈ refs, ∃ g ∈ gen, g.name = ref.name

theorem Present.mono {gen gen' : Generated} {refs : List BuildRef} (h : Present gen refs)
    (hgen : gen <+: gen') : Present gen' refs := by
  intro ref href
  obtain ⟨g, hg, hname⟩ := h ref href
  exact ⟨g, hgen.subset hg, hname⟩

/-- What `mt_collect_component_builds` does: it finds the leaves, and their builds. -/
def CollectSpec (env : MtEnv) (root : MtInstance) (rootBuilddir : Text)
    (collect : MtInstance → Generated → MtResult (List BuildRef × Generated)) : Prop :=
  ∀ inst gen refs gen', Reached env root (.collect inst) → AllRecorded env root rootBuilddir gen →
    collect inst gen = .ok (refs, gen') →
    Builds env root rootBuilddir (ReflTransGen (Calls env) (.collect inst)) gen gen' ∧
      (∃ ls, Leaves env inst ls ∧ refs.map BuildRef.name = ls.map (MtInstance.buildName env)) ∧
      Present gen' refs

/-- What `mt_build_component` does for a component with a tupfile: its build is there. -/
def BuildSpec (env : MtEnv) (root : MtInstance) (rootBuilddir : Text)
    (build : MtInstance → Text → Text → Generated → MtResult (BuildRef × Generated)) : Prop :=
  ∀ inst name gen ref gen', Reached env root (.build inst name) →
    inst.component.tupfile.isSome = true → AllRecorded env root rootBuilddir gen →
    build inst name (builddirOf env rootBuilddir name) gen = .ok (ref, gen') →
    Builds env root rootBuilddir (ReflTransGen (Calls env) (.build inst name)) gen gen' ∧
      ref.name = name ∧ Present gen' [ref]

/-- The names of the builds that the dependencies lead to. -/
def refNames (found : List (MtDep × List BuildRef)) : List (MtDep × List Text) :=
  found.map fun p => (p.1, p.2.map BuildRef.name)

/-- The loop over the dependencies. -/
theorem mtEnabledDeps_spec {collect : MtInstance → Generated → MtResult (List BuildRef × Generated)}
    {call : MtCall} {args : Kvs} (hc : CollectSpec env root rootBuilddir collect)
    (hreach : Reached env root call)
    (hcalls : ∀ dep target, DependsVia env call.inst args dep target →
      Calls env call (.collect target))
    {deps : List MtDep} (hsub : ∀ dep ∈ deps, dep ∈ call.inst.component.deps)
    {gen gen' : Generated} {found : List (MtDep × List BuildRef)}
    (hgen : AllRecorded env root rootBuilddir gen)
    (h : mtEnabledDeps env collect call.inst args deps gen = .ok (found, gen')) :
    Builds env root rootBuilddir (TransGen (Calls env) call) gen gen' ∧
      (∀ dep ∈ deps, mtDepEnabled args dep = true → ∃ ls, DepLeaves env call.inst args dep ls) ∧
      (∀ leaves : MtDep → List MtInstance, (∀ dep ∈ deps, mtDepEnabled args dep = true →
          DepLeaves env call.inst args dep (leaves dep)) →
        refNames found = (deps.filter (mtDepEnabled args)).map fun dep =>
          (dep, (leaves dep).map (MtInstance.buildName env))) ∧
      ∀ p ∈ found, Present gen' p.2 := by
  induction deps generalizing gen found gen' with
  | nil =>
    cases h
    exact ⟨.refl hgen, by simp, fun _ _ => rfl, by simp⟩
  | cons dep deps ih =>
    have hsub' := fun d hd => hsub d (List.mem_cons_of_mem dep hd)
    unfold mtEnabledDeps at h
    split at h
    · next hen =>
      obtain ⟨target, htarget, h⟩ := MtResult.bind_eq_ok.1 h
      obtain ⟨⟨refs, gen₁⟩, hcollect, h⟩ := MtResult.bind_eq_ok.1 h
      obtain ⟨⟨found', gen₂⟩, hrest, h⟩ := MtResult.bind_eq_ok.1 h
      cases h
      have hcall := hcalls dep target
        ⟨hsub dep List.mem_cons_self, hen, MtResult.ofExcept_eq_ok.1 htarget⟩
      obtain ⟨hbuilds, ⟨ls, hls, hnames⟩, hpresent⟩ :=
        hc target gen refs gen₁ (hreach.tail hcall) hgen hcollect
      obtain ⟨hbuilds', hleaves', hnames', hpresent'⟩ := ih hsub' hbuilds.recorded hrest
      have hdep : DepLeaves env call.inst args dep ls :=
        ⟨target, MtResult.ofExcept_eq_ok.1 htarget, hls⟩
      refine ⟨(hbuilds.mono fun _ h => .head' hcall h).trans hbuilds', ?_, ?_, ?_⟩
      · intro d hd hen'
        rcases List.mem_cons.1 hd with rfl | hd
        · exact ⟨ls, hdep⟩
        · exact hleaves' d hd hen'
      · intro leaves hleaves
        have heq := hdep.unique (hleaves dep List.mem_cons_self hen)
        rw [List.filter_cons_of_pos hen, List.map_cons, ← heq, ← hnames,
          ← hnames' leaves fun d hd => hleaves d (List.mem_cons_of_mem dep hd)]
        rfl
      · intro p hp
        rcases List.mem_cons.1 hp with rfl | hp
        · exact hpresent.mono hbuilds'.grows
        · exact hpresent' p hp
    · next hen =>
      obtain ⟨hbuilds', hleaves', hnames', hpresent'⟩ := ih hsub' hgen h
      refine ⟨hbuilds', ?_, ?_, hpresent'⟩
      · intro d hd hen'
        rcases List.mem_cons.1 hd with rfl | hd
        · exact absurd hen' hen
        · exact hleaves' d hd hen'
      · intro leaves hleaves
        rw [List.filter_cons_of_neg hen]
        exact hnames' leaves fun d hd => hleaves d (List.mem_cons_of_mem dep hd)

/-! ### The recursion -/

theorem identity_ne_of_mtFindGenerated {gen : Generated} {name : Text}
    (h : mtFindGenerated gen name = none) {b : MtGeneratedBuild} (hb : b ∈ gen) :
    b.identity ≠ name := by
  intro heq
  obtain ⟨i, hi⟩ := List.mem_iff_getElem?.1 hb
  have hmem : (b, i) ∈ gen.zipIdx := List.mem_zipIdx_iff_getElem?.2 hi
  have hnone := Option.map_eq_none_iff.1 h
  have hne := List.find?_eq_none.1 hnone (b, i) hmem
  simp [heq] at hne

theorem mtFindGenerated_spec {gen : Generated} {name : Text} {ref : BuildRef}
    (h : mtFindGenerated gen name = some ref) :
    ∃ b, gen[ref.idx]? = some b ∧ b.identity = name ∧ b.name = ref.name := by
  obtain ⟨⟨b, i⟩, hfind, rfl⟩ := Option.map_eq_some_iff.1 h
  have hname : b.identity = name := by simpa using List.find?_some hfind
  exact ⟨b, List.mem_zipIdx_iff_getElem?.1 (List.mem_of_find?_eq_some hfind), hname, rfl⟩

theorem build_spec {n : ℕ} (hc : CollectSpec env root rootBuilddir (mtCollectComponentBuilds env n)) :
    BuildSpec env root rootBuilddir (mtBuildComponent env (n + 1)) := by
  intro inst name gen ref gen' hreach htup hgen h
  unfold mtBuildComponent at h
  split at h
  · cases h
  next args hargs =>
  split at h
  · next ref' hfind =>
    cases h
    obtain ⟨b, hb, hname, href⟩ := mtFindGenerated_spec hfind
    have hmem := List.mem_of_getElem? hb
    have heq : b.name = name := (hgen.identity_eq hmem).symm.trans hname
    refine ⟨.refl hgen, href ▸ heq, ?_⟩
    intro r hr
    cases List.mem_singleton.1 hr
    exact ⟨b, hmem, href⟩
  next hfind =>
  split at h
  · next hnone => simp [hnone] at htup
  next tupfile function htf =>
  obtain ⟨⟨depends, gen₁⟩, hexpand, h⟩ := MtResult.bind_eq_ok.1 h
  obtain ⟨⟨found, gen₂⟩, hdeps, hexpand⟩ := MtResult.bind_eq_ok.1 hexpand
  cases hexpand
  cases h
  have hcalls : ∀ dep target, DependsVia env inst args dep target →
      Calls env (.build inst name) (.collect target) := fun dep target hd => .expand htup hargs hd
  obtain ⟨hbuilds, hleaves, hnames, hpresent⟩ :=
    mtEnabledDeps_spec hc hreach hcalls (fun _ hd => hd) hgen hdeps
  choose! leaves hleaves using hleaves
  have hdepends : found.flatMap (fun p => p.2.map fun ref =>
        ({ build := ref.name, as := mtAlias p.1.name } : TupbuildDep)) =
      (inst.component.deps.filter (mtDepEnabled args)).flatMap fun dep =>
        (leaves dep).map fun leaf => { build := leaf.buildName env, as := mtAlias dep.name } := by
    have hflat : found.flatMap (fun p => p.2.map fun ref =>
          ({ build := ref.name, as := mtAlias p.1.name } : TupbuildDep)) =
        (refNames found).flatMap fun p => p.2.map fun name =>
          ({ build := name, as := mtAlias p.1.name } : TupbuildDep) := by
      simp [refNames, List.flatMap_map, Function.comp_def]
    rw [hflat, hnames leaves hleaves]
    simp [List.flatMap_map, Function.comp_def]
    rfl
  have hrec : RecordedIn env root rootBuilddir gen₁ {
      name, identity := name, builddir := builddirOf env rootBuilddir name, origin := inst
      depends := found.flatMap fun p => p.2.map fun ref =>
        { build := ref.name, as := mtAlias p.1.name }
      tupfile := some (mtTupfilePath env inst.ctx tupfile), function := some function
      profile := env.profile, args := mtCloneKvsExcept args [] env.profile } := by
    refine ⟨hreach, ⟨args, leaves, rfl, ⟨tupfile, function, htf, rfl, rfl⟩, hargs, rfl, rfl, rfl,
      hleaves, hdepends, rfl⟩, ?_⟩
    intro d hd
    obtain ⟨p, hp, hd⟩ := List.mem_flatMap.1 hd
    obtain ⟨r, hr, rfl⟩ := List.mem_map.1 hd
    exact hpresent p hp r hr
  refine ⟨⟨hbuilds.recorded.snoc hrec, hbuilds.grows.trans (List.prefix_append _ _), ?_, ?_⟩, rfl, ?_⟩
  · intro b hb
    rcases List.mem_append.1 hb with hb | hb
    · exact (hbuilds.called b hb).imp_right TransGen.to_reflTransGen
    · cases List.mem_singleton.1 hb
      exact .inr .refl
  · intro hno hnodup
    rw [List.map_append, List.nodup_append]
    refine ⟨hbuilds.nodup hno hnodup, List.nodup_singleton _, ?_⟩
    intro x hx y hy heq
    obtain ⟨b, hb, rfl⟩ := List.mem_map.1 hx
    cases List.mem_singleton.1 hy
    rcases hbuilds.called b hb with hold | hcall
    · exact identity_ne_of_mtFindGenerated hfind hold ((hgen.identity_eq hold).trans heq)
    · -- a build of the same name on the way
      have hb' := hbuilds.recorded.of_mem hb
      change b.name = name at heq
      rw [heq] at hcall
      exact hno inst b.origin name hreach htup hb'.tupfile hcall
  · intro r hr
    cases List.mem_singleton.1 hr
    exact ⟨_, List.mem_append_right _ (List.mem_singleton_self _), rfl⟩

/-- The name of a dependency is longer than that of the root. -/
theorem buildName_ne_rootName (inst : MtInstance) : inst.buildName env ≠ env.rootName := by
  intro h
  have hlen := congrArg List.length h
  simp only [MtInstance.buildName, mtMakeDepBuildName, List.length_append, List.length_cons] at hlen
  omega

theorem builddirOf_buildName (inst : MtInstance) :
    builddirOf env rootBuilddir (inst.buildName env) = mtDepBuilddir env (inst.buildName env) := by
  unfold builddirOf
  rw [if_neg (buildName_ne_rootName inst)]

theorem collect_spec {n : ℕ} (hb : BuildSpec env root rootBuilddir (mtBuildComponent env n))
    (hc : CollectSpec env root rootBuilddir (mtCollectComponentBuilds env n)) :
    CollectSpec env root rootBuilddir (mtCollectComponentBuilds env (n + 1)) := by
  intro inst gen refs gen' hreach hgen h
  unfold mtCollectComponentBuilds at h
  split at h
  · next tf htf =>
    have htup : inst.component.tupfile.isSome = true := by rw [htf]; rfl
    obtain ⟨⟨ref, gen₁⟩, hbuild, h⟩ := MtResult.bind_eq_ok.1 h
    cases h
    have hcall : Calls env (.collect inst) (.build inst (inst.buildName env)) := .build htup
    have hdir : builddirOf env rootBuilddir (inst.buildName env) =
        mtDepBuilddir env (inst.buildName env) := builddirOf_buildName inst
    rw [← hdir] at hbuild
    obtain ⟨hbuilds, hname, hpresent⟩ :=
      hb inst (inst.buildName env) gen ref gen' (hreach.tail hcall) htup hgen hbuild
    have hnames : [ref].map BuildRef.name = [inst].map (MtInstance.buildName env) :=
      congrArg (fun name => [name]) hname
    exact ⟨hbuilds.mono fun _ h => .head hcall h, ⟨[inst], .self htup, hnames⟩, hpresent⟩
  · next htup =>
    split at h
    · cases h
    next args hargs =>
    obtain ⟨⟨found, gen₁⟩, hdeps, h⟩ := MtResult.bind_eq_ok.1 h
    cases h
    have hcalls : ∀ dep target, DependsVia env inst args dep target →
        Calls env (.collect inst) (.collect target) := fun dep target hd => .collect htup hargs hd
    obtain ⟨hbuilds, hleaves, hnames, hpresent⟩ :=
      mtEnabledDeps_spec hc hreach hcalls (fun _ hd => hd) hgen hdeps
    have : Nonempty MtInstance := ⟨inst⟩
    choose! leaves hleaves using hleaves
    choose! target htarget using hleaves
    have hls : Leaves env inst ((inst.component.deps.filter (mtDepEnabled args)).flatMap leaves) :=
      .deps htup hargs (fun dep hd hen => (htarget dep hd hen).1) fun dep hd hen => (htarget dep hd hen).2
    refine ⟨hbuilds.mono fun _ h => h.to_reflTransGen, ⟨_, hls, ?_⟩, ?_⟩
    · have hflat : (found.flatMap Prod.snd).map BuildRef.name = (refNames found).flatMap Prod.snd := by
        simp [refNames, List.flatMap_map, List.map_flatMap]
      have hfound := hnames leaves fun dep hd hen => ⟨target dep, htarget dep hd hen⟩
      rw [hflat, hfound]
      simp [List.flatMap_map, List.map_flatMap]
      rfl
    · intro ref href
      obtain ⟨p, hp, href⟩ := List.mem_flatMap.1 href
      exact hpresent p hp ref href

/-- The whole recursion. -/
theorem expansion_spec (n : ℕ) : BuildSpec env root rootBuilddir (mtBuildComponent env n) ∧
    CollectSpec env root rootBuilddir (mtCollectComponentBuilds env n) := by
  induction n with
  | zero =>
    constructor
    · intro inst name gen ref gen' _ _ _ h
      simp [mtBuildComponent] at h
    · intro inst gen refs gen' _ _ h
      simp [mtCollectComponentBuilds] at h
  | succ n ih => exact ⟨build_spec ih.2, collect_spec ih.1 ih.2⟩

/-! ### The root -/

/-- A component without a tupfile that does not stand for its only dependency. -/
structure IsBundle (env : MtEnv) (inst : MtInstance) (args : Kvs) : Prop where
  tupfile : inst.component.tupfile = none
  effective : inst.effectiveArgs env = some args
  deps_ne : ∀ dep, inst.component.deps.filter (mtDepEnabled args) ≠ [dep]

/-- The build for a component that stands for several builds. -/
def bundleBuild (env : MtEnv) (rootBuilddir : Text) (inst : MtInstance) (leaves : List MtInstance) :
    MtGeneratedBuild where
  name := env.rootName
  identity := env.rootName
  builddir := rootBuilddir
  origin := inst
  depends := leaves.map fun leaf => { build := leaf.buildName env, as := leaf.buildName env }

/-- The root is this component: the components before it only stand for their only dependency. -/
structure IsTop (env : MtEnv) (root inst : MtInstance) : Prop where
  reached : Reached env root (.build inst env.rootName)
  only {call : MtCall} (h : Reached env root call) :
    (∃ x y, call = .build x env.rootName ∧ x.component.tupfile = none ∧
      Calls env call (.build y env.rootName)) ∨
    ReflTransGen (Calls env) (.build inst env.rootName) call

/-- What the expansion of the root comes to. -/
inductive RootResult (env : MtEnv) (root : MtInstance) (rootBuilddir : Text) :
    BuildRef → Generated → Prop
  /-- The build of a component with a tupfile. -/
  | build {inst : MtInstance} {ref : BuildRef} {gen : Generated}
      (htop : IsTop env root inst)
      (htup : inst.component.tupfile.isSome = true)
      (hbuilds : Builds env root rootBuilddir
        (ReflTransGen (Calls env) (.build inst env.rootName)) [] gen)
      (hname : ref.name = env.rootName) (hpresent : Present gen [ref]) :
      RootResult env root rootBuilddir ref gen
  /-- The only build that a component without a tupfile stands for. -/
  | single {inst leaf : MtInstance} {args : Kvs} {ref : BuildRef} {gen : Generated}
      (htop : IsTop env root inst) (hbundle : IsBundle env inst args)
      (hleaves : Leaves env { inst with args := args } [leaf])
      (hbuilds : Builds env root rootBuilddir
        (ReflTransGen (Calls env) (.collect { inst with args := args })) [] gen)
      (hname : ref.name = leaf.buildName env) (hpresent : Present gen [ref]) :
      RootResult env root rootBuilddir ref gen
  /-- A build that only depends on those a component without a tupfile stands for. -/
  | bundle {inst : MtInstance} {args : Kvs} {ls : List MtInstance} {gen : Generated}
      (htop : IsTop env root inst) (hbundle : IsBundle env inst args)
      (hleaves : Leaves env { inst with args := args } ls) (htwo : 2 ≤ ls.length)
      (hbuilds : Builds env root rootBuilddir
        (ReflTransGen (Calls env) (.collect { inst with args := args })) [] gen)
      (hpresent : ∀ leaf ∈ ls, ∃ g ∈ gen, g.name = leaf.buildName env) :
      RootResult env root rootBuilddir { idx := gen.length, name := env.rootName }
        (gen ++ [bundleBuild env rootBuilddir inst ls])

theorem mtBuildBundle_eq {inst : MtInstance} {builddir : Text} {refs : List BuildRef}
    {gen gen' : Generated} {ref : BuildRef} {ls : List MtInstance}
    (hnames : refs.map BuildRef.name = ls.map (MtInstance.buildName env))
    (h : mtBuildBundle inst env.rootName builddir refs gen = .ok (ref, gen')) :
    refs = [ref] ∧ gen' = gen ∨
      2 ≤ refs.length ∧ ref = { idx := gen.length, name := env.rootName } ∧
        gen' = gen ++ [bundleBuild env builddir inst ls] := by
  unfold mtBuildBundle at h
  split at h
  · cases h
  · cases h
    exact .inl ⟨rfl, rfl⟩
  · next hne hne' =>
    cases h
    right
    refine ⟨?_, rfl, ?_⟩
    · match refs, hne, hne' with
      | [], hne, _ => exact absurd rfl hne
      | [r], _, hne' => exact absurd rfl (hne' r)
      | _ :: _ :: _, _, _ => simp
    · have hdepends : (refs.map fun r => ({ build := r.name, as := r.name } : TupbuildDep)) =
          ls.map fun leaf => { build := leaf.buildName env, as := leaf.buildName env } := by
        have hmap := congrArg (List.map fun name => ({ build := name, as := name } : TupbuildDep)) hnames
        simpa [Function.comp_def] using hmap
      unfold bundleBuild
      rw [hdepends]

theorem isTop_root : IsTop env root root := ⟨.refl, .inr⟩

/-- A component that is its only dependency. -/
theorem IsTop.target {inst target : MtInstance} {args : Kvs} {dep : MtDep} (h : IsTop env root inst)
    (htup : inst.component.tupfile = none) (hargs : inst.effectiveArgs env = some args)
    (hdep : inst.component.deps.filter (mtDepEnabled args) = [dep])
    (htarget : inst.depInstance env args dep = .ok target) : IsTop env root target := by
  have hcall : Calls env (.build inst env.rootName) (.build target env.rootName) :=
    .only htup hargs hdep htarget
  refine ⟨h.reached.tail hcall, fun hc => ?_⟩
  rcases h.only hc with hchain | hc
  · exact .inl hchain
  rcases ReflTransGen.cases_head hc with heq | ⟨callee, hfirst, hrest⟩
  · exact .inl ⟨inst, target, heq.symm, htup, heq ▸ hcall⟩
  · right
    cases hfirst with
    | expand hsome _ _ => simp [htup] at hsome
    | only _ hargs' hdep' htarget' =>
      rw [hargs] at hargs'
      cases hargs'
      rw [hdep] at hdep'
      cases hdep'
      rw [htarget] at htarget'
      cases htarget'
      exact hrest
    | bundle _ hargs' hdeps =>
      rw [hargs] at hargs'
      cases hargs'
      exact absurd hdep (hdeps dep)

theorem root_spec (n : ℕ) {inst : MtInstance} {ref : BuildRef} {gen : Generated}
    (htop : IsTop env root inst)
    (h : mtBuildComponent env n inst env.rootName rootBuilddir [] = .ok (ref, gen)) :
    RootResult env root rootBuilddir ref gen := by
  induction n generalizing inst with
  | zero => simp [mtBuildComponent] at h
  | succ n ih =>
    cases htup : inst.component.tupfile with
    | some tf =>
      have htup' : inst.component.tupfile.isSome = true := by rw [htup]; rfl
      have hdir : builddirOf env rootBuilddir env.rootName = rootBuilddir := if_pos rfl
      obtain ⟨hbuilds, hname, hpresent⟩ := (expansion_spec (n + 1)).1 inst env.rootName [] ref gen
        htop.reached htup' .nil (hdir.symm ▸ h)
      exact .build htop htup' hbuilds hname hpresent
    | none =>
      unfold mtBuildComponent at h
      split at h
      · cases h
      next args hargs =>
      split at h
      · next ref' hfind => simp [mtFindGenerated] at hfind
      rw [htup] at h
      dsimp only at h
      unfold mtBuildDependencyOnly at h
      rw [if_neg (not_not.2 rfl)] at h
      split at h
      · next dep hdep =>
        obtain ⟨target, htarget, h⟩ := MtResult.bind_eq_ok.1 h
        exact ih (htop.target htup hargs hdep (MtResult.ofExcept_eq_ok.1 htarget)) h
      · next hdeps =>
        obtain ⟨⟨refs, gen₁⟩, hcollect, h⟩ := MtResult.bind_eq_ok.1 h
        have hcall : Calls env (.build inst env.rootName) (.collect { inst with args := args }) :=
          .bundle htup hargs hdeps
        obtain ⟨hbuilds, ⟨ls, hls, hnames⟩, hpresent⟩ := (expansion_spec n).2 _ [] refs gen₁
          (htop.reached.tail hcall) .nil hcollect
        have hlen : refs.length = ls.length := by simpa using congrArg List.length hnames
        rcases mtBuildBundle_eq hnames h with ⟨rfl, rfl⟩ | ⟨htwo, rfl, rfl⟩
        · obtain ⟨leaf, rfl⟩ := List.length_eq_one_iff.1 hlen.symm
          have hname : ref.name = leaf.buildName env := by simpa using hnames
          exact .single htop ⟨htup, hargs, hdeps⟩ hls hbuilds hname hpresent
        · refine .bundle htop ⟨htup, hargs, hdeps⟩ hls (hlen ▸ htwo) hbuilds ?_
          intro leaf hleaf
          have hmem : leaf.buildName env ∈ refs.map BuildRef.name :=
            hnames ▸ List.mem_map_of_mem hleaf
          obtain ⟨r, hr, hname⟩ := List.mem_map.1 hmem
          obtain ⟨g, hg, hgname⟩ := hpresent r hr
          exact ⟨g, hg, hgname.trans hname⟩

/-- A build that a dependency leads to has the name of its component. -/
theorem name_of_collect {inst : MtInstance} {call : MtCall}
    (h : ReflTransGen (Calls env) (.collect inst) call) :
    (∃ x, call = .collect x) ∨ ∃ x, x.component.tupfile.isSome = true ∧
      call = .build x (x.buildName env) := by
  induction h with
  | refl => exact .inl ⟨inst, rfl⟩
  | tail _ hcall ih =>
    rcases ih with ⟨x, rfl⟩ | ⟨x, htup, rfl⟩
    · cases hcall with
      | build htup => exact .inr ⟨x, htup, rfl⟩
      | collect _ _ _ => exact .inl ⟨_, rfl⟩
    · generalize x.buildName env = name at hcall
      cases hcall with
      | expand _ _ _ => exact .inl ⟨_, rfl⟩
      | only hnone _ _ _ => simp [hnone] at htup
      | bundle hnone _ _ => simp [hnone] at htup

/-- A root build that is not one of the first components is the root. -/
theorem IsTop.eq_of_reached {inst inst' : MtInstance} (h : IsTop env root inst)
    (hreach : Reached env root (.build inst' env.rootName))
    (hinst : inst.component.tupfile.isSome = true ∨ ∃ args, IsBundle env inst args)
    (hinst' : inst'.component.tupfile.isSome = true ∨ ∃ args, IsBundle env inst' args) :
    inst' = inst := by
  rcases h.only hreach with ⟨x, y, heq, htup, hcall⟩ | hc
  · cases heq
    exfalso
    rcases hinst' with htup' | ⟨args, hbundle⟩
    · simp [htup] at htup'
    · generalize hname : env.rootName = name at hcall
      cases hcall with
      | only _ hargs hdep _ =>
        rw [hbundle.effective] at hargs
        cases hargs
        exact hbundle.deps_ne _ hdep
  · rcases ReflTransGen.cases_head hc with heq | ⟨callee, hfirst, hrest⟩
    · cases heq
      rfl
    · exfalso
      have hcollect : ∃ x, callee = .collect x := by
        generalize hname : env.rootName = name at hfirst
        cases hfirst with
        | expand _ _ _ => exact ⟨_, rfl⟩
        | only hnone hargs hdep _ =>
          rcases hinst with htup | ⟨args, hbundle⟩
          · simp [hnone] at htup
          · rw [hbundle.effective] at hargs
            cases hargs
            exact absurd hdep (hbundle.deps_ne _)
        | bundle _ _ _ => exact ⟨_, rfl⟩
      obtain ⟨x, rfl⟩ := hcollect
      rcases name_of_collect hrest with ⟨z, heq⟩ | ⟨z, -, heq⟩
      · simp at heq
      · exact buildName_ne_rootName z (MtCall.build.inj heq).2.symm

end Metatup
