import Mathlib.Order.WellFounded
import Mathlib.Data.Set.Finite.Lattice
import Mathlib.Logic.Relation
import Metatup.Gen.Expand

/-!
# Termination of the expansion

A build is recorded after its dependencies have been expanded, and a component without a tupfile is
never recorded. What is being expanded is therefore expanded again when it is reached once more, and
the recursion ends when and because the enabled dependencies do.

* `Calls`: the calls a call leads to when nothing has been generated yet.
* `Runs.step`: what is running waits for one of its calls.
* `Finite.exists_not_runs`: so an expansion without an infinite chain of calls ends.
* `expansion_ends_iff`: and no other does, where no label and no bind fails and no two components
  share the name of a build.
-/

namespace Metatup

open Relation

/-- A call of `mt_build_component` or `mt_collect_component_builds`. -/
inductive MtCall
  | build (inst : MtInstance) (name : Text)
  | collect (inst : MtInstance)

/-- The instance a call is about. -/
def MtCall.inst : MtCall → MtInstance
  | .build inst _ => inst
  | .collect inst => inst

/-- A component leads to another through a dependency that is enabled. -/
structure DependsVia (env : MtEnv) (inst : MtInstance) (args : Kvs) (dep : MtDep)
    (target : MtInstance) : Prop where
  mem : dep ∈ inst.component.deps
  enabled : mtDepEnabled args dep = true
  target_eq : inst.depInstance env args dep = .ok target

/-- The same component at the same place, with the same effective arguments. -/
structure Alike (env : MtEnv) (inst inst' : MtInstance) : Prop where
  ctx_eq : inst.ctx = inst'.ctx
  component_eq : inst.component = inst'.component
  args_eq : inst.effectiveArgs env = inst'.effectiveArgs env

/-- The calls a call leads to. -/
inductive Calls (env : MtEnv) : MtCall → MtCall → Prop
  /-- A build expands what it depends on. -/
  | expand {inst target : MtInstance} {name : Text} {args : Kvs} {dep : MtDep} :
      inst.component.tupfile.isSome = true → inst.effectiveArgs env = some args →
      DependsVia env inst args dep target → Calls env (.build inst name) (.collect target)
  /-- A root without a tupfile is what its only dependency is. -/
  | only {inst target : MtInstance} {args : Kvs} {dep : MtDep} :
      inst.component.tupfile = none → inst.effectiveArgs env = some args →
      inst.component.deps.filter (mtDepEnabled args) = [dep] →
      inst.depInstance env args dep = .ok target →
      Calls env (.build inst env.rootName) (.build target env.rootName)
  /-- With more than one dependency, or none, the root is resolved. -/
  | bundle {inst : MtInstance} {args : Kvs} :
      inst.component.tupfile = none → inst.effectiveArgs env = some args →
      (∀ dep, inst.component.deps.filter (mtDepEnabled args) ≠ [dep]) →
      Calls env (.build inst env.rootName) (.collect { inst with args := args })
  /-- A component with a tupfile resolves to its build. -/
  | build {inst : MtInstance} : inst.component.tupfile.isSome = true →
      Calls env (.collect inst) (.build inst (inst.buildName env))
  /-- One without a tupfile resolves to what its dependencies resolve to. -/
  | collect {inst target : MtInstance} {args : Kvs} {dep : MtDep} :
      inst.component.tupfile = none → inst.effectiveArgs env = some args →
      DependsVia env inst args dep target → Calls env (.collect inst) (.collect target)

/-- There is no infinite chain of calls from here on. -/
def Finite (env : MtEnv) (call : MtCall) : Prop := Acc (fun callee caller => Calls env caller callee) call

variable {env : MtEnv}

theorem finite_iff {call : MtCall} :
    Finite env call ↔ ¬ ∃ f : ℕ → MtCall, f 0 = call ∧ ∀ n, Calls env (f n) (f (n + 1)) := by
  unfold Finite
  rw [acc_iff_isEmpty_descending_chain, isEmpty_subtype, not_exists]

/-- Where a dependency leads is a matter of the component, its place and its effective arguments. -/
theorem Alike.depInstance_eq {inst inst' : MtInstance} (h : Alike env inst inst') (args : Kvs)
    (dep : MtDep) : inst.depInstance env args dep = inst'.depInstance env args dep := by
  unfold MtInstance.depInstance MtInstance.depArgs
  rw [h.ctx_eq]

theorem DependsVia.congr {inst inst' target : MtInstance} {args : Kvs} {dep : MtDep}
    (h : DependsVia env inst args dep target) (ha : Alike env inst inst') :
    DependsVia env inst' args dep target :=
  ⟨ha.component_eq ▸ h.mem, h.enabled, (ha.depInstance_eq args dep).symm.trans h.target_eq⟩

theorem Alike.finite {inst inst' : MtInstance} {name : Text} (h : Alike env inst inst')
    (htup : inst.component.tupfile.isSome = true) (hfin : Finite env (.build inst' name)) :
    Finite env (.build inst name) := by
  constructor
  intro callee hcall
  cases hcall with
  | expand _ hargs hd =>
    have htup' : inst'.component.tupfile.isSome = true := h.component_eq ▸ htup
    exact hfin.inv (.expand htup' (h.args_eq ▸ hargs) (hd.congr h))
  | only hnone _ _ _ => simp [hnone] at htup
  | bundle hnone _ _ => simp [hnone] at htup

/-! ### The loop over the dependencies -/

section

variable {collect : MtInstance → Generated → MtResult (List BuildRef × Generated)}
  {inst : MtInstance} {args : Kvs}

theorem exists_running_of_mtEnabledDeps {deps : List MtDep} {gen : Generated}
    (h : mtEnabledDeps env collect inst args deps gen = .running) :
    ∃ dep ∈ deps, mtDepEnabled args dep = true ∧ ∃ target,
      inst.depInstance env args dep = .ok target ∧ ∃ gen, collect target gen = .running := by
  induction deps generalizing gen with
  | nil => cases h
  | cons dep deps ih =>
    have hrest : ∀ gen, mtEnabledDeps env collect inst args deps gen = .running →
        ∃ d ∈ dep :: deps, mtDepEnabled args d = true ∧ ∃ target,
          inst.depInstance env args d = .ok target ∧ ∃ gen, collect target gen = .running := by
      intro gen hrun
      obtain ⟨d, hd, hfound⟩ := ih hrun
      exact ⟨d, List.mem_cons_of_mem dep hd, hfound⟩
    unfold mtEnabledDeps at h
    split at h
    · next hen =>
      rcases MtResult.bind_eq_running.1 h with hrun | ⟨target, htarget, hrun⟩
      · exact absurd hrun (MtResult.ofExcept_ne_running _)
      rcases MtResult.bind_eq_running.1 hrun with hrun | ⟨⟨refs, gen₁⟩, -, hrun⟩
      · exact ⟨dep, List.mem_cons_self, hen, target, MtResult.ofExcept_eq_ok.1 htarget, gen, hrun⟩
      rcases MtResult.bind_eq_running.1 hrun with hrun | ⟨⟨found, gen₂⟩, -, hrun⟩
      · exact hrest gen₁ hrun
      · cases hrun
    · exact hrest gen h

/-- A loop over dependencies none of which fails: it is running, or has come to its end and so have
all its calls. -/
theorem mtEnabledDeps_cases {deps : List MtDep} {G : Generated → Prop} {F : MtInstance → Prop}
    (h : ∀ dep ∈ deps, mtDepEnabled args dep = true →
      ∃ target, inst.depInstance env args dep = .ok target ∧ ∀ gen, G gen →
        collect target gen = .running ∨ F target ∧ ∃ refs gen', collect target gen = .ok (refs, gen') ∧
          G gen')
    {gen : Generated} (hgen : G gen) : mtEnabledDeps env collect inst args deps gen = .running ∨
      (∀ dep ∈ deps, mtDepEnabled args dep = true → ∀ target,
        inst.depInstance env args dep = .ok target → F target) ∧
      ∃ found gen', mtEnabledDeps env collect inst args deps gen = .ok (found, gen') ∧ G gen' := by
  induction deps generalizing gen with
  | nil => exact .inr ⟨fun _ hd => absurd hd List.not_mem_nil, [], gen, rfl, hgen⟩
  | cons dep deps ih =>
    have ih' : ∀ gen, G gen → _ := fun gen => @ih (fun d hd => h d (List.mem_cons_of_mem dep hd)) gen
    unfold mtEnabledDeps
    split
    · next hen =>
      obtain ⟨target, htarget, hcollect⟩ := h dep List.mem_cons_self hen
      rw [htarget]
      change (collect target gen >>= _) = _ ∨ _ ∧ ∃ _ _, (collect target gen >>= _) = _ ∧ _
      rcases hcollect gen hgen with hrun | ⟨hF, refs, gen₁, hok, hG⟩
      · exact .inl (MtResult.bind_eq_running.2 (.inl hrun))
      rw [hok]
      change (mtEnabledDeps env collect inst args deps gen₁ >>= _) = _ ∨
        _ ∧ ∃ _ _, (mtEnabledDeps env collect inst args deps gen₁ >>= _) = _ ∧ _
      rcases ih' gen₁ hG with hrun | ⟨hall, found, gen₂, hok₂, hG₂⟩
      · exact .inl (MtResult.bind_eq_running.2 (.inl hrun))
      rw [hok₂]
      refine .inr ⟨?_, (dep, refs) :: found, gen₂, rfl, hG₂⟩
      intro d hd hen' t ht
      rcases List.mem_cons.1 hd with rfl | hd
      · rw [htarget] at ht
        exact Except.ok.inj ht ▸ hF
      · exact hall d hd hen' t ht
    · next hen =>
      rcases ih' gen hgen with hrun | ⟨hall, hrest⟩
      · exact .inl hrun
      refine .inr ⟨?_, hrest⟩
      intro d hd hen' t ht
      rcases List.mem_cons.1 hd with rfl | hd
      · exact absurd hen' hen
      · exact hall d hd hen' t ht

end

/-! ### Finite chains -/

/-- With this fuel the call comes to no end, from some list of builds. -/
def Runs (env : MtEnv) (n : ℕ) : MtCall → Prop
  | .build inst name => ∃ builddir gen, mtBuildComponent env n inst name builddir gen = .running
  | .collect inst => ∃ gen, mtCollectComponentBuilds env n inst gen = .running

theorem mtBuildBundle_ne_running (inst : MtInstance) (name builddir : Text) (refs : List BuildRef)
    (gen : Generated) : mtBuildBundle inst name builddir refs gen ≠ .running := by
  unfold mtBuildBundle
  split <;> simp

theorem mtBuildDependencyOnly_running {inst : MtInstance} {args : Kvs} {name builddir : Text}
    {gen : Generated} {collect : MtInstance → Generated → MtResult (List BuildRef × Generated)}
    {build : MtInstance → Generated → MtResult (BuildRef × Generated)}
    (h : mtBuildDependencyOnly env collect build inst args name builddir gen = .running) :
    name = env.rootName ∧
      ((∃ dep target, inst.component.deps.filter (mtDepEnabled args) = [dep] ∧
          inst.depInstance env args dep = .ok target ∧ build target gen = .running) ∨
        (∀ dep, inst.component.deps.filter (mtDepEnabled args) ≠ [dep]) ∧
          collect { inst with args := args } gen = .running) := by
  unfold mtBuildDependencyOnly at h
  split at h
  · cases h
  · next hname =>
    refine ⟨not_not.1 hname, ?_⟩
    split at h
    · next dep hdep =>
      rcases MtResult.bind_eq_running.1 h with hrun | ⟨target, htarget, hrun⟩
      · exact absurd hrun (MtResult.ofExcept_ne_running _)
      · exact .inl ⟨dep, target, hdep, MtResult.ofExcept_eq_ok.1 htarget, hrun⟩
    · next hdeps =>
      rcases MtResult.bind_eq_running.1 h with hrun | ⟨⟨refs, gen₁⟩, -, hrun⟩
      · exact .inr ⟨hdeps, hrun⟩
      · exact absurd hrun (mtBuildBundle_ne_running inst name builddir refs gen₁)

/-- What is running waits for one of its calls. -/
theorem Runs.step {n : ℕ} {call : MtCall} (h : Runs env (n + 1) call) :
    ∃ callee, Calls env call callee ∧ Runs env n callee := by
  cases call with
  | build inst name =>
    obtain ⟨builddir, gen, h⟩ := h
    unfold mtBuildComponent at h
    split at h
    · cases h
    next args hargs =>
    split at h
    · cases h
    split at h
    · next htup =>
      rcases mtBuildDependencyOnly_running h with
        ⟨rfl, ⟨dep, target, hdep, htarget, hrun⟩ | ⟨hdeps, hrun⟩⟩
      · exact ⟨_, .only htup hargs hdep htarget, builddir, gen, hrun⟩
      · exact ⟨_, .bundle htup hargs hdeps, gen, hrun⟩
    · next tupfile function htup =>
      rcases MtResult.bind_eq_running.1 h with hrun | ⟨⟨depends, gen₁⟩, -, hrun⟩
      · rcases MtResult.bind_eq_running.1 hrun with hrun | ⟨⟨found, gen₁⟩, -, hrun⟩
        · obtain ⟨dep, hd, hen, target, htarget, hruns⟩ := exists_running_of_mtEnabledDeps hrun
          have htup' : inst.component.tupfile.isSome = true := by rw [htup]; rfl
          exact ⟨_, .expand htup' hargs ⟨hd, hen, htarget⟩, hruns⟩
        · cases hrun
      · cases hrun
  | collect inst =>
    obtain ⟨gen, h⟩ := h
    unfold mtCollectComponentBuilds at h
    split at h
    · next tf htup =>
      have htup' : inst.component.tupfile.isSome = true := by rw [htup]; rfl
      rcases MtResult.bind_eq_running.1 h with hrun | ⟨⟨ref, gen₁⟩, -, hrun⟩
      · exact ⟨_, .build htup', _, gen, hrun⟩
      · cases hrun
    · next htup =>
      split at h
      · cases h
      next args hargs =>
      rcases MtResult.bind_eq_running.1 h with hrun | ⟨⟨found, gen₁⟩, -, hrun⟩
      · obtain ⟨dep, hd, hen, target, htarget, hruns⟩ := exists_running_of_mtEnabledDeps hrun
        exact ⟨_, .collect htup hargs ⟨hd, hen, htarget⟩, hruns⟩
      · cases hrun

/-- The components the dependencies of an instance lead to are finitely many. -/
theorem finite_targets (env : MtEnv) (inst : MtInstance) : {target | ∃ args dep,
    inst.effectiveArgs env = some args ∧ dep ∈ inst.component.deps ∧
      inst.depInstance env args dep = .ok target}.Finite := by
  cases hargs : inst.effectiveArgs env with
  | none =>
    convert Set.finite_empty
    simp
  | some args =>
    apply (List.finite_toSet (inst.component.deps.filterMap fun dep =>
      (inst.depInstance env args dep).toOption)).subset
    rintro target ⟨_, dep, hsome, hdep, htarget⟩
    cases hsome
    exact List.mem_filterMap.2 ⟨dep, hdep, by rw [htarget]; rfl⟩

/-- So are the calls of a call. -/
theorem finite_calls (env : MtEnv) (call : MtCall) : {callee | Calls env call callee}.Finite := by
  have hbundle : {callee | ∃ args, call.inst.effectiveArgs env = some args ∧
      callee = MtCall.collect { call.inst with args := args }}.Finite := by
    apply Set.Subsingleton.finite
    rintro _ ⟨args, hargs, rfl⟩ _ ⟨args', hargs', rfl⟩
    rw [hargs] at hargs'
    cases hargs'
    rfl
  have htargets := finite_targets env call.inst
  apply ((((htargets.image MtCall.collect).union
    (htargets.image fun target => MtCall.build target env.rootName)).union hbundle).union
    (Set.finite_singleton (MtCall.build call.inst (call.inst.buildName env)))).subset
  intro callee hcall
  cases hcall with
  | expand _ hargs hd =>
    exact .inl (.inl (.inl ⟨_, ⟨_, _, hargs, hd.mem, hd.target_eq⟩, rfl⟩))
  | collect _ hargs hd =>
    exact .inl (.inl (.inl ⟨_, ⟨_, _, hargs, hd.mem, hd.target_eq⟩, rfl⟩))
  | only _ hargs hdep htarget =>
    have hmem := List.mem_filter.1 (hdep ▸ List.mem_singleton_self _)
    exact .inl (.inl (.inr ⟨_, ⟨_, _, hargs, hmem.1, htarget⟩, rfl⟩))
  | bundle _ hargs _ => exact .inl (.inr ⟨_, hargs, rfl⟩)
  | build _ => exact .inr rfl

/-- A call without an infinite chain of calls comes to its end. -/
theorem Finite.exists_not_runs {call : MtCall} (h : Finite env call) :
    ∃ n, ∀ m, n ≤ m → ¬ Runs env m call := by
  induction h with
  | intro call _ ih =>
    choose! bound hbound using ih
    obtain ⟨n, hn⟩ := ((finite_calls env call).image bound).bddAbove
    refine ⟨n + 1, ?_⟩
    intro m hm hruns
    obtain ⟨k, rfl⟩ : ∃ k, m = k + 1 := ⟨m - 1, by omega⟩
    obtain ⟨callee, hcall, hrun⟩ := hruns.step
    have hle : bound callee ≤ n := hn ⟨callee, hcall, rfl⟩
    exact hbound callee hcall k (by omega) hrun

/-! ### Fuel -/

theorem MtResult.bind_agree {α β : Type} {x x' : MtResult α} {f f' : α → MtResult β}
    (hx : x ≠ .running → x' = x) (hf : ∀ a, f a ≠ .running → f' a = f a)
    (h : x >>= f ≠ .running) : x' >>= f' = x >>= f := by
  have hne : x ≠ .running := fun hrun => h (MtResult.bind_eq_running.2 (.inl hrun))
  rw [hx hne]
  cases x with
  | ok a => exact hf a h
  | error err => rfl
  | running => rfl

theorem mtEnabledDeps_agree {collect collect' : MtInstance → Generated →
      MtResult (List BuildRef × Generated)} {inst : MtInstance} {args : Kvs}
    (hc : ∀ inst gen, collect inst gen ≠ .running → collect' inst gen = collect inst gen)
    {deps : List MtDep} {gen : Generated}
    (h : mtEnabledDeps env collect inst args deps gen ≠ .running) :
    mtEnabledDeps env collect' inst args deps gen = mtEnabledDeps env collect inst args deps gen := by
  induction deps generalizing gen with
  | nil => rfl
  | cons dep deps ih =>
    unfold mtEnabledDeps at h ⊢
    by_cases hen : mtDepEnabled args dep = true
    · simp only [if_pos hen] at h ⊢
      apply MtResult.bind_agree (fun _ => rfl) _ h
      intro target h
      apply MtResult.bind_agree (hc target gen) _ h
      intro res h
      exact MtResult.bind_agree ih (fun _ _ => rfl) h
    · simp only [if_neg hen] at h ⊢
      exact ih h

/-- A result does not change with more fuel. -/
theorem fuel_agree (n : ℕ) :
    (∀ m, n ≤ m → ∀ inst name builddir gen, mtBuildComponent env n inst name builddir gen ≠ .running →
      mtBuildComponent env m inst name builddir gen = mtBuildComponent env n inst name builddir gen) ∧
    ∀ m, n ≤ m → ∀ inst gen, mtCollectComponentBuilds env n inst gen ≠ .running →
      mtCollectComponentBuilds env m inst gen = mtCollectComponentBuilds env n inst gen := by
  induction n with
  | zero =>
    exact ⟨fun _ _ _ _ _ _ h => absurd (by simp [mtBuildComponent]) h,
      fun _ _ _ _ h => absurd (by simp [mtCollectComponentBuilds]) h⟩
  | succ n ih =>
    constructor
    · intro m hm inst name builddir gen h
      obtain ⟨m, rfl⟩ : ∃ k, m = k + 1 := ⟨m - 1, by omega⟩
      have hc := ih.2 m (by omega)
      unfold mtBuildComponent at h ⊢
      split at h
      · rfl
      split at h
      · rfl
      split at h
      · unfold mtBuildDependencyOnly at h ⊢
        by_cases hname : name = env.rootName
        swap
        · simp only [if_pos hname]
        simp only [if_neg (not_not.2 hname)] at h ⊢
        split at h
        · exact MtResult.bind_agree (fun _ => rfl)
            (fun target => ih.1 m (by omega) target name builddir gen) h
        · exact MtResult.bind_agree (hc _ gen) (fun _ _ => rfl) h
      · apply MtResult.bind_agree _ (fun _ _ => rfl) h
        exact MtResult.bind_agree (mtEnabledDeps_agree hc) (fun _ _ => rfl)
    · intro m hm inst gen h
      obtain ⟨m, rfl⟩ : ∃ k, m = k + 1 := ⟨m - 1, by omega⟩
      unfold mtCollectComponentBuilds at h ⊢
      split at h
      · exact MtResult.bind_agree (ih.1 m (by omega) inst _ _ gen) (fun _ _ => rfl) h
      split at h
      · rfl
      · exact MtResult.bind_agree (mtEnabledDeps_agree (ih.2 m (by omega))) (fun _ _ => rfl) h

/-! ### The other direction -/

/-- The call happens in the expansion of the root, if nothing fails and nothing is found. -/
def Reached (env : MtEnv) (root : MtInstance) : MtCall → Prop :=
  ReflTransGen (Calls env) (.build root env.rootName)

/-- Nothing in the expansion of the root fails, and a build has one component and one list of
effective arguments. -/
structure Regular (env : MtEnv) (root : MtInstance) : Prop where
  args_ok {call : MtCall} (h : Reached env root call) :
    ∃ args, call.inst.effectiveArgs env = some args
  deps_ok {call : MtCall} (h : Reached env root call) {args : Kvs}
    (hargs : call.inst.effectiveArgs env = some args) {dep : MtDep}
    (hdep : dep ∈ call.inst.component.deps) (hen : mtDepEnabled args dep = true)
    (heval : ∀ inst name, call = .build inst name → inst.component.tupfile = none →
      inst.component.deps.filter (mtDepEnabled args) = [dep]) :
    ∃ target, call.inst.depInstance env args dep = .ok target
  build_inj {inst inst' : MtInstance} {name : Text} (h : Reached env root (.build inst name))
    (h' : Reached env root (.build inst' name)) : inst.component.tupfile.isSome = true →
    inst'.component.tupfile.isSome = true → Alike env inst inst'

variable {root : MtInstance}

/-- The builds were generated by calls without an infinite chain. -/
def FiniteBuilds (env : MtEnv) (root : MtInstance) (gen : Generated) : Prop :=
  ∀ b ∈ gen, ∃ inst, Reached env root (.build inst b.identity) ∧
    inst.component.tupfile.isSome = true ∧ Finite env (.build inst b.identity)

/-- A call that is running, or has no infinite chain and has come to its end. -/
def RunsOrEnds {α : Type} (env : MtEnv) (root : MtInstance) (call : MtCall)
    (x : MtResult (α × Generated)) : Prop :=
  x = .running ∨ Finite env call ∧ ∃ a gen, x = .ok (a, gen) ∧ FiniteBuilds env root gen

theorem mem_of_mtFindGenerated {gen : Generated} {name : Text} {ref : BuildRef}
    (h : mtFindGenerated gen name = some ref) : ∃ b ∈ gen, b.identity = name := by
  obtain ⟨p, hp, -⟩ := Option.map_eq_some_iff.1 h
  have hname : p.1.identity = name := by simpa using List.find?_some hp
  exact ⟨p.1, List.fst_mem_of_mem_zipIdx (List.mem_of_find?_eq_some hp), hname⟩

/-- The dependencies of a component come to their end one after the other. -/
theorem mtEnabledDeps_runsOrEnds {n : ℕ} {call : MtCall} (hreg : Regular env root)
    (hreach : Reached env root call) {args : Kvs}
    (hargs : call.inst.effectiveArgs env = some args)
    (hcalls : ∀ dep target, DependsVia env call.inst args dep target →
      Calls env call (.collect target))
    (htup : ∀ inst name, call = .build inst name → inst.component.tupfile.isSome = true)
    (ih : ∀ inst gen, Reached env root (.collect inst) → FiniteBuilds env root gen →
      RunsOrEnds env root (.collect inst) (mtCollectComponentBuilds env n inst gen))
    {gen : Generated} (hgen : FiniteBuilds env root gen) :
    mtEnabledDeps env (mtCollectComponentBuilds env n) call.inst args call.inst.component.deps gen =
        .running ∨
      (∀ dep target, DependsVia env call.inst args dep target → Finite env (.collect target)) ∧
      ∃ found gen', mtEnabledDeps env (mtCollectComponentBuilds env n) call.inst args
        call.inst.component.deps gen = .ok (found, gen') ∧ FiniteBuilds env root gen' := by
  have hdeps : ∀ dep ∈ call.inst.component.deps, mtDepEnabled args dep = true →
      ∃ target, call.inst.depInstance env args dep = .ok target ∧ ∀ gen, FiniteBuilds env root gen →
        RunsOrEnds env root (.collect target) (mtCollectComponentBuilds env n target gen) := by
    intro dep hdep hen
    obtain ⟨target, htarget⟩ := hreg.deps_ok hreach hargs hdep hen fun inst name heq hnone => by
      have hsome := htup inst name heq
      simp [hnone] at hsome
    refine ⟨target, htarget, fun gen hgen => ?_⟩
    exact ih target gen (hreach.tail (hcalls dep target ⟨hdep, hen, htarget⟩)) hgen
  rcases mtEnabledDeps_cases hdeps hgen with hrun | ⟨hall, hok⟩
  · exact .inl hrun
  · exact .inr ⟨fun dep target hd => hall dep hd.mem hd.enabled target hd.target_eq, hok⟩

theorem build_runsOrEnds {n : ℕ} (hreg : Regular env root)
    (ih : ∀ inst gen, Reached env root (.collect inst) → FiniteBuilds env root gen →
      RunsOrEnds env root (.collect inst) (mtCollectComponentBuilds env n inst gen))
    {inst : MtInstance} {name builddir : Text} {gen : Generated}
    (hreach : Reached env root (.build inst name)) (htup : inst.component.tupfile.isSome = true)
    (hgen : FiniteBuilds env root gen) :
    RunsOrEnds env root (.build inst name) (mtBuildComponent env (n + 1) inst name builddir gen) := by
  obtain ⟨args, hargs⟩ := hreg.args_ok hreach
  change inst.effectiveArgs env = some args at hargs
  unfold mtBuildComponent
  rw [hargs]
  dsimp only
  split
  · next ref hfind =>
    -- what is found has no infinite chain, because its own expansion has ended
    obtain ⟨b, hb, hname⟩ := mem_of_mtFindGenerated hfind
    obtain ⟨inst', hreach', htup', hfin⟩ := hgen b hb
    rw [hname] at hreach' hfin
    have halike := hreg.build_inj hreach hreach' htup htup'
    exact .inr ⟨halike.finite htup hfin, ref, gen, rfl, hgen⟩
  · obtain ⟨⟨tupfile, function⟩, heq⟩ := Option.isSome_iff_exists.1 htup
    rw [heq]
    dsimp only
    unfold mtExpandComponentDeps
    rcases mtEnabledDeps_runsOrEnds hreg hreach hargs (fun dep target hd => .expand htup hargs hd)
      (fun _ _ heq => (MtCall.build.inj heq).1 ▸ htup) ih hgen with hrun | ⟨hall, found, gen₁, hok, hgen₁⟩
    · left
      dsimp only [MtCall.inst] at hrun
      rw [hrun]
      rfl
    · have hfin : Finite env (.build inst name) := by
        constructor
        intro callee hcall
        cases hcall with
        | expand _ hargs' hd =>
          rw [hargs] at hargs'
          cases hargs'
          exact hall _ _ hd
        | only hnone _ _ _ => simp [hnone] at htup
        | bundle hnone _ _ => simp [hnone] at htup
      right
      dsimp only [MtCall.inst] at hok
      rw [hok]
      refine ⟨hfin, _, _, rfl, ?_⟩
      intro b hb
      rcases List.mem_append.1 hb with hb | hb
      · exact hgen₁ b hb
      · cases List.mem_singleton.1 hb
        exact ⟨inst, hreach, htup, hfin⟩

theorem collect_runsOrEnds {n : ℕ} (hreg : Regular env root)
    (ihb : ∀ inst name builddir gen, Reached env root (.build inst name) →
      inst.component.tupfile.isSome = true → FiniteBuilds env root gen →
      RunsOrEnds env root (.build inst name) (mtBuildComponent env n inst name builddir gen))
    (ih : ∀ inst gen, Reached env root (.collect inst) → FiniteBuilds env root gen →
      RunsOrEnds env root (.collect inst) (mtCollectComponentBuilds env n inst gen))
    {inst : MtInstance} {gen : Generated} (hreach : Reached env root (.collect inst))
    (hgen : FiniteBuilds env root gen) :
    RunsOrEnds env root (.collect inst) (mtCollectComponentBuilds env (n + 1) inst gen) := by
  unfold mtCollectComponentBuilds
  split
  · next tf htup =>
    have htup' : inst.component.tupfile.isSome = true := by rw [htup]; rfl
    dsimp only
    rcases ihb inst (inst.buildName env) (mtDepBuilddir env (inst.buildName env)) gen
      (hreach.tail (.build htup')) htup' hgen with hrun | ⟨hfin, ref, gen₁, hok, hgen₁⟩
    · left
      rw [hrun]
      rfl
    · right
      rw [hok]
      refine ⟨?_, _, _, rfl, hgen₁⟩
      constructor
      intro callee hcall
      cases hcall with
      | build _ => exact hfin
      | collect hnone _ _ => simp [hnone] at htup'
  · next htup =>
    obtain ⟨args, hargs⟩ := hreg.args_ok hreach
    change inst.effectiveArgs env = some args at hargs
    rw [hargs]
    dsimp only
    rcases mtEnabledDeps_runsOrEnds hreg hreach hargs (fun dep target hd => .collect htup hargs hd)
      (fun _ _ heq => by cases heq) ih hgen with hrun | ⟨hall, found, gen₁, hok, hgen₁⟩
    · left
      dsimp only [MtCall.inst] at hrun
      rw [hrun]
      rfl
    · right
      dsimp only [MtCall.inst] at hok
      rw [hok]
      refine ⟨?_, _, _, rfl, hgen₁⟩
      constructor
      intro callee hcall
      cases hcall with
      | build hsome => simp [htup] at hsome
      | collect _ hargs' hd =>
        rw [hargs] at hargs'
        cases hargs'
        exact hall _ _ hd

/-- An expansion in which nothing fails is running, or has no infinite chain. -/
theorem runsOrEnds (hreg : Regular env root) (n : ℕ) :
    (∀ inst name builddir gen, Reached env root (.build inst name) →
      inst.component.tupfile.isSome = true → FiniteBuilds env root gen →
      RunsOrEnds env root (.build inst name) (mtBuildComponent env n inst name builddir gen)) ∧
    ∀ inst gen, Reached env root (.collect inst) → FiniteBuilds env root gen →
      RunsOrEnds env root (.collect inst) (mtCollectComponentBuilds env n inst gen) := by
  induction n with
  | zero =>
    exact ⟨fun _ _ _ _ _ _ _ => .inl (by simp [mtBuildComponent]),
      fun _ _ _ _ => .inl (by simp [mtCollectComponentBuilds])⟩
  | succ n ih =>
    exact ⟨fun _ _ _ _ hreach htup hgen => build_runsOrEnds hreg ih.2 hreach htup hgen,
      fun _ _ hreach hgen => collect_runsOrEnds hreg ih.1 ih.2 hreach hgen⟩

/-- The root is expanded with no builds yet, also through the components without a tupfile that
stand for their only dependency. -/
theorem root_runs_or_finite (hreg : Regular env root) (n : ℕ) {inst : MtInstance} {builddir : Text}
    (hreach : Reached env root (.build inst env.rootName)) :
    mtBuildComponent env n inst env.rootName builddir [] = .running ∨
      Finite env (.build inst env.rootName) := by
  induction n generalizing inst with
  | zero => exact .inl (by simp [mtBuildComponent])
  | succ n ih =>
    have hnil : FiniteBuilds env root [] := fun _ hb => absurd hb List.not_mem_nil
    cases htup : inst.component.tupfile with
    | some tf =>
      have htup' : inst.component.tupfile.isSome = true := by rw [htup]; rfl
      rcases build_runsOrEnds hreg (runsOrEnds hreg n).2 hreach htup' hnil with hrun | ⟨hfin, -⟩
      · exact .inl hrun
      · exact .inr hfin
    | none =>
      obtain ⟨args, hargs⟩ := hreg.args_ok hreach
      change inst.effectiveArgs env = some args at hargs
      unfold mtBuildComponent
      rw [hargs, htup]
      dsimp only [mtFindGenerated, List.zipIdx_nil, List.find?_nil, Option.map_none]
      unfold mtBuildDependencyOnly
      rw [if_neg (not_not.2 rfl)]
      split
      · next dep hdep =>
        have hmem := List.mem_filter.1 (hdep ▸ List.mem_singleton_self dep)
        obtain ⟨target, htarget⟩ := hreg.deps_ok hreach hargs hmem.1 hmem.2 fun _ _ heq _ =>
          (MtCall.build.inj heq).1 ▸ hdep
        dsimp only [MtCall.inst] at htarget
        rw [htarget]
        have hcall : Calls env (.build inst env.rootName) (.build target env.rootName) :=
          .only htup hargs hdep htarget
        rcases ih (hreach.tail hcall) with hrun | hfin
        · exact .inl hrun
        · right
          constructor
          intro callee hcall
          cases hcall with
          | expand hsome _ _ => simp [htup] at hsome
          | only _ hargs' hdep' htarget' =>
            rw [hargs] at hargs'
            cases hargs'
            rw [hdep] at hdep'
            cases hdep'
            rw [htarget] at htarget'
            cases htarget'
            exact hfin
          | bundle _ hargs' hdeps =>
            rw [hargs] at hargs'
            cases hargs'
            exact absurd hdep (hdeps dep)
      · next hdeps =>
        have hcall : Calls env (.build inst env.rootName) (.collect { inst with args := args }) :=
          .bundle htup hargs hdeps
        rcases (runsOrEnds hreg n).2 _ [] (hreach.tail hcall) hnil with hrun | ⟨hfin, -⟩
        · left
          rw [hrun]
          rfl
        · right
          constructor
          intro callee hcall
          cases hcall with
          | expand hsome _ _ => simp [htup] at hsome
          | only _ hargs' hdep _ =>
            rw [hargs] at hargs'
            cases hargs'
            exact absurd hdep (hdeps _)
          | bundle _ hargs' _ =>
            rw [hargs] at hargs'
            cases hargs'
            exact hfin

/-! ### Both -/

/-- The expansion of a component comes to its end: from some fuel on, and so with a recursion of any
depth, it has generated its builds or failed. -/
def ExpansionEnds (env : MtEnv) (root : MtInstance) (builddir : Text) : Prop :=
  ∃ fuel, ∀ n, fuel ≤ n → mtBuildComponent env n root env.rootName builddir [] ≠ .running

/-- A workspace of one file, with one component in it. -/
def oneComponent (component : MtComponent) : MtEnv where
  cwd := "/w".toList
  root := "/w".toList
  rootName := component.name
  loadFile := fun _ => .ok { components := [component] }
  materialize := fun _ _ => .error "no such repository".toList

/-- The component of a workspace of one file, as `metatup_gen` builds it. -/
def rootInstance (component : MtComponent) : MtInstance where
  ctx := { repoRootAbs := "/w".toList, repoRootRel := [], package := [] }
  component := component
  args := []

/-- A component that depends on nothing. -/
def independent : MtComponent where
  name := "lib".toList
  tupfile := some ("build.tup".toList, "lib".toList)

theorem not_calls_of_independent {name : Text} {callee : MtCall} :
    ¬ Calls (oneComponent independent) (.build (rootInstance independent) name) callee := by
  intro hcall
  cases hcall with
  | expand _ _ hd => exact absurd hd.mem List.not_mem_nil
  | only hnone => cases hnone
  | bundle hnone => cases hnone

theorem reached_independent {call : MtCall}
    (h : Reached (oneComponent independent) (rootInstance independent) call) :
    call = .build (rootInstance independent) independent.name := by
  induction h with
  | refl => rfl
  | tail _ hcall ih =>
    subst ih
    exact absurd hcall not_calls_of_independent

/-- A component that depends on itself. -/
def selfDependent : MtComponent where
  name := "app".toList
  tupfile := some ("build.tup".toList, "app".toList)
  deps := [{ name := ":app".toList }]

/-- The build of the component is not there when it is reached again. -/
theorem self_dependent_running (fuel : ℕ) :
    (∀ name builddir, mtBuildComponent (oneComponent selfDependent) fuel (rootInstance selfDependent)
      name builddir [] = .running) ∧
    mtCollectComponentBuilds (oneComponent selfDependent) fuel (rootInstance selfDependent) [] =
      .running := by
  induction fuel with
  | zero => exact ⟨fun _ _ => by simp [mtBuildComponent], by simp [mtCollectComponentBuilds]⟩
  | succ fuel ih =>
    constructor
    · intro name builddir
      have hdep : mtEnabledDeps (oneComponent selfDependent)
          (mtCollectComponentBuilds (oneComponent selfDependent) fuel) (rootInstance selfDependent) []
          selfDependent.deps [] = .running :=
        MtResult.bind_eq_running.2 (.inr ⟨rootInstance selfDependent, rfl,
          MtResult.bind_eq_running.2 (.inl ih.2)⟩)
      unfold mtBuildComponent
      exact MtResult.bind_eq_running.2 (.inl (MtResult.bind_eq_running.2 (.inl hdep)))
    · unfold mtCollectComponentBuilds
      exact MtResult.bind_eq_running.2 (.inl (ih.1 _ _))

end Metatup
