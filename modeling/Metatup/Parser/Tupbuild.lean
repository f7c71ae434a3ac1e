import Mathlib.Algebra.BigOperators.Ring.Finset
import Metatup.Lib.Kahn
import Metatup.Parser.ArgMap
import Metatup.Parser.Frame

/-!
# TupBuild files

`parse_tupbuild` checks the builds of a file, brings them into an order in which every build comes
after its dependencies, and evaluates them in this order. A dependency names a build; everything else
is done with the index of the build in the file.

* `tupbuildChecks`: the checks, with the errors they report.
* `tupbuildOrder`: the ordering loop.
* `evalBuilds`: the evaluation of the builds.
* `tupbuild_order_spec`: the loop ends; it reports a cycle exactly when there is one, and otherwise
  no build is evaluated before its dependencies.
-/

namespace Metatup

open Lib Relation

/-- Source: `parser.c` `tupbuild_find_build` -/
def tupbuildFindBuild (tb : TupbuildFile) (name : Text) : Option ℕ :=
  tb.builds.findIdx? (·.name = name)

/-! ### Checks -/

/-- The errors of `parse_tupbuild` before it evaluates a build. -/
inductive TupbuildError
  /-- "Duplicate TupBuild.yaml build name '%s'." -/
  | duplicateName (name : Text)
  /-- "Duplicate TupBuild.yaml builddir '%s'." -/
  | duplicateBuilddir (builddir : Text)
  /-- "Build '%s' depends on unknown build '%s'." -/
  | unknownDepend (name build : Text)
  /-- "Build '%s' uses duplicate dependency alias '%s'." -/
  | duplicateAlias (name as : Text)
  /-- "TupBuild.yaml contains a dependency cycle." -/
  | cycle
  deriving DecidableEq

/-- A build is compared with the builds after it. -/
def checkDistinct (build : TupbuildBuild) : List TupbuildBuild → Except TupbuildError Unit
  | [] => .ok ()
  | other :: rest =>
    if build.name = other.name then .error (.duplicateName build.name)
    else if build.builddir = other.builddir then .error (.duplicateBuilddir build.builddir)
    else checkDistinct build rest

/-- The dependencies of a build name builds, and have different aliases. -/
def checkDepends (tb : TupbuildFile) (name : Text) : List TupbuildDep → Except TupbuildError Unit
  | [] => .ok ()
  | dep :: rest =>
    if (tupbuildFindBuild tb dep.build).isNone then .error (.unknownDepend name dep.build)
    else if rest.any (·.as = dep.as) then .error (.duplicateAlias name dep.as)
    else checkDepends tb name rest

/-- The checks on the builds of the file. Source: `parser.c` `parse_tupbuild` -/
def tupbuildChecks (tb : TupbuildFile) : List TupbuildBuild → Except TupbuildError Unit
  | [] => .ok ()
  | build :: rest => do
    checkDistinct build rest
    checkDepends tb build.name build.depends
    tupbuildChecks tb rest

/-! ### Order -/

/-- The entries of the build `y` that name the build `x`. -/
def edgeCount (tb : TupbuildFile) (y x : ℕ) : ℕ :=
  match tb.builds[y]?, tb.builds[x]? with
  | some b, some a => b.depends.countP fun dep => dep.build = a.name
  | _, _ => 0

/-- The number of entries of the build `x`. -/
def numDepends (tb : TupbuildFile) (x : ℕ) : ℕ :=
  match tb.builds[x]? with
  | some b => b.depends.length
  | none => 0

/-- The loop that fills `order`; the indexes of the builds are listed in passes. `some none` is the
cycle it reports. Source: `parser.c` `parse_tupbuild` -/
def tupbuildOrder (tb : TupbuildFile) (fuel : ℕ) : Option (Option (List ℕ)) :=
  Kahn.run (edgeCount tb) (List.range tb.builds.length) fuel
    { indegree := fun x => numDepends tb x }

/-- The build `x` has an entry for the build `y`. -/
def DependsOn (tb : TupbuildFile) (x y : ℕ) : Prop :=
  ∃ b a, tb.builds[x]? = some b ∧ tb.builds[y]? = some a ∧ ∃ dep ∈ b.depends, dep.build = a.name

/-! ### Evaluation -/

/-- What has been evaluated: `stamp_paths`, and the valid entries of `build_returns`. -/
structure BuildState where
  stampPaths : ℕ → Option Text := fun _ => none
  buildReturns : ℕ → Option Vardb := fun _ => none

/-- The errors of `tupbuild_resolve_arg_value`. -/
inductive ResolveError
  /-- The value begins like a `$(from ...)` and is none. -/
  | malformed
  /-- "Build '%s' references unknown build '%s' in $(from ...)." -/
  | unknownBuild (name build : Text)
  /-- "Build '%s' can only use $(from ...) for declared dependencies. Missing '%s'." -/
  | undeclared (name build : Text)
  /-- "Build '%s' referenced dependency return from '%s' before it was available." -/
  | notAvailable (name build : Text)
  /-- "Build '%s' requested missing return '%s' from dependency '%s'." -/
  | missingReturn (name ret build : Text)
  deriving DecidableEq

/-- What a `$(from ...)` begins with. -/
def fromMark : Text := "$(from".toList

/-- The two strings of a `$(from ...)`; `none` is another value. Source: `parser.c`
`tupbuild_parse_from_expr` -/
def tupbuildParseFromExpr (value : Text) : Except ResolveError (Option (Text × Text)) :=
  let s := skipSpace value
  if !fromMark.isPrefixOf s then .ok none
  else
    match parseQuotedString (skipSpace (s.drop fromMark.length)) with
    | .error _ => .error .malformed
    | .ok (build, s) =>
      match parseQuotedString (skipSpace s) with
      | .error _ => .error .malformed
      | .ok (ret, s) =>
        match skipSpace s with
        | ')' :: s => if skipSpace s = [] then .ok (some (build, ret)) else .error .malformed
        | _ => .error .malformed

/-- Source: `parser.c` `tupbuild_resolve_arg_value` -/
def tupbuildResolveArgValue (tb : TupbuildFile) (build : TupbuildBuild) (st : BuildState)
    (value : Text) : Except ResolveError Text :=
  match tupbuildParseFromExpr value with
  | .error e => .error e
  | .ok none => .ok value
  | .ok (some (dep, ret)) =>
    match tupbuildFindBuild tb dep with
    | none => .error (.unknownBuild build.name dep)
    | some depidx =>
      if !build.depends.any (·.build = dep) then .error (.undeclared build.name dep)
      else
        match st.buildReturns depidx with
        | none => .error (.notAvailable build.name dep)
        | some returns =>
          match returns ret with
          | none => .error (.missingReturn build.name ret dep)
          | some ve => .ok ve.value

/-- Source: `parser.c` `tupbuild_build_stamp_path` -/
def tupbuildBuildStampPath (builddir name : Text) : Text :=
  let stamp := "__tupbuild_".toList ++ name ++ ".stamp".toList
  if builddir = ['.'] ∨ builddir = [] then stamp
  else if builddir.getLast? = some '/' then builddir ++ stamp
  else builddir ++ '/' :: stamp

/-- The stamps of the dependencies, which become order-only inputs of the build. -/
def dependStamps (tb : TupbuildFile) (build : TupbuildBuild) (st : BuildState) :
    Option (List Text) :=
  build.depends.mapM fun dep => (tupbuildFindBuild tb dep.build).bind st.stampPaths

/-- One round of the evaluation. `invoke` stands for what the function of the build does with its
arguments and the stamps, up to the rules for its dists and its own stamp; it gives the values the
function returns. Source: `parser.c` `parse_tupbuild` -/
def evalBuild (invoke : TupbuildBuild → Vardb → List Text → Option Vardb) (tb : TupbuildFile)
    (st : BuildState) (idx : ℕ) : Option BuildState := do
  let build ← tb.builds[idx]?
  let args ← tupbuildArgs (fun v => (tupbuildResolveArgValue tb build st v).toOption) tb build
  let stamps ← dependStamps tb build st
  let returns ← invoke build args stamps
  return {
    stampPaths :=
      Function.update st.stampPaths idx (some (tupbuildBuildStampPath build.builddir build.name))
    buildReturns := Function.update st.buildReturns idx (some returns) }

/-- The evaluation of these builds, one after the other. -/
def evalBuilds (invoke : TupbuildBuild → Vardb → List Text → Option Vardb) (tb : TupbuildFile)
    (order : List ℕ) : Option BuildState :=
  order.foldlM (evalBuild invoke tb) {}

/-! ### The order of the builds -/

section

variable {tb : TupbuildFile} {x y : ℕ}

theorem edgeCount_pos_iff : 0 < edgeCount tb y x ↔ DependsOn tb y x := by
  unfold edgeCount DependsOn
  split
  · next b a hb ha =>
    rw [List.countP_pos_iff]
    constructor
    · rintro ⟨dep, hdep, hname⟩
      exact ⟨b, a, hb, ha, dep, hdep, of_decide_eq_true hname⟩
    · rintro ⟨b', a', hb', ha', dep, hdep, hname⟩
      rw [hb] at hb'
      rw [ha] at ha'
      cases hb'
      cases ha'
      exact ⟨dep, hdep, decide_eq_true hname⟩
  · next hno =>
    refine iff_of_false (lt_irrefl 0) ?_
    rintro ⟨b, a, hb, ha, -⟩
    exact hno b a hb ha

/-- Builds whose names differ: one of them has the name. -/
theorem sum_named {builds : List TupbuildBuild} (hnames : (builds.map TupbuildBuild.name).Nodup)
    {name : Text} (h : ∃ a ∈ builds, a.name = name) :
    (builds.map fun a => if name = a.name then 1 else 0).sum = 1 := by
  induction builds with
  | nil => simp at h
  | cons b builds ih =>
    rw [List.map_cons, List.nodup_cons] at hnames
    obtain ⟨hfresh, hrest⟩ := hnames
    rw [List.map_cons, List.sum_cons]
    by_cases hb : name = b.name
    · have hzero : (builds.map fun a => if name = a.name then 1 else 0).sum = 0 := by
        apply List.sum_eq_zero
        intro n hn
        obtain ⟨a, ha, rfl⟩ := List.mem_map.1 hn
        refine if_neg fun heq => hfresh ?_
        rw [← hb, heq]
        exact List.mem_map_of_mem ha
      rw [if_pos hb, hzero]
    · obtain ⟨a, ha, hname⟩ := h
      rcases List.mem_cons.1 ha with rfl | ha
      · exact absurd hname.symm hb
      · rw [if_neg hb, ih hrest ⟨a, ha, hname⟩]

/-- Builds whose names differ: the entries for them add up to the number of entries. -/
theorem sum_countP {builds : List TupbuildBuild} (hnames : (builds.map TupbuildBuild.name).Nodup)
    {depends : List TupbuildDep} (hknown : ∀ dep ∈ depends, ∃ a ∈ builds, a.name = dep.build) :
    (builds.map fun a => depends.countP fun dep => dep.build = a.name).sum = depends.length := by
  induction depends with
  | nil => simp
  | cons dep depends ih =>
    have hone := sum_named hnames (hknown dep List.mem_cons_self)
    have hrest := ih fun d hd => hknown d (List.mem_cons_of_mem dep hd)
    simp only [List.countP_cons, decide_eq_true_eq]
    rw [List.sum_map_add, hrest, hone, List.length_cons]

/-- When names are given once and every entry names a build, the edges of the loop are all there. -/
theorem sum_edgeCount (hnames : (tb.builds.map TupbuildBuild.name).Nodup)
    (hknown : ∀ b ∈ tb.builds, ∀ dep ∈ b.depends, ∃ a ∈ tb.builds, a.name = dep.build)
    (hy : y < tb.builds.length) :
    (numDepends tb y : ℤ) = ∑ x ∈ (List.range tb.builds.length).toFinset, (edgeCount tb y x : ℤ) := by
  have hb : tb.builds[y]? = some tb.builds[y] := List.getElem?_eq_getElem hy
  have hedges : (List.range tb.builds.length).map (edgeCount tb y) =
      tb.builds.map fun a => tb.builds[y].depends.countP fun dep => dep.build = a.name := by
    apply List.ext_getElem
    · simp
    · intro x hx _
      have hlt : x < tb.builds.length := by simpa using hx
      simp [edgeCount, hb, hlt]
  rw [← Nat.cast_sum, Nat.cast_inj, List.sum_toFinset _ List.nodup_range, hedges,
    sum_countP hnames (hknown _ (List.getElem_mem hy))]
  simp [numDepends, hb]

theorem edge_iff : Kahn.Edge (edgeCount tb) (List.range tb.builds.length) x y ↔
    DependsOn tb y x := by
  unfold Kahn.Edge
  rw [List.mem_range, List.mem_range, edgeCount_pos_iff]
  refine ⟨fun h => h.2.2, fun h => ⟨?_, ?_, h⟩⟩
  · obtain ⟨-, a, -, ha, -⟩ := h
    exact (List.getElem?_eq_some_iff.1 ha).1
  · obtain ⟨b, -, hb, -⟩ := h
    exact (List.getElem?_eq_some_iff.1 hb).1

/-- The loop sees a cycle from the other end of its edges. -/
theorem cycle_iff : (∃ x, TransGen (Kahn.Edge (edgeCount tb) (List.range tb.builds.length)) x x) ↔
    ∃ x, TransGen (DependsOn tb) x x := by
  have hswap : Kahn.Edge (edgeCount tb) (List.range tb.builds.length) =
      Function.swap (DependsOn tb) := by
    funext x y
    exact propext edge_iff
  rw [hswap]
  exact exists_congr fun x => transGen_swap

/-- The build that a dependency names. -/
theorem dependsOn_of_dep (hknown : ∀ b ∈ tb.builds, ∀ dep ∈ b.depends, ∃ a ∈ tb.builds, a.name = dep.build)
    {build : TupbuildBuild} (hbuild : tb.builds[x]? = some build) {dep : TupbuildDep}
    (hdep : dep ∈ build.depends) :
    ∃ y, tupbuildFindBuild tb dep.build = some y ∧ DependsOn tb x y := by
  obtain ⟨a, ha, hname⟩ := hknown build (List.mem_of_getElem? hbuild) dep hdep
  obtain ⟨y, hy⟩ : ∃ y, tupbuildFindBuild tb dep.build = some y := by
    apply Option.isSome_iff_exists.1
    unfold tupbuildFindBuild
    rw [List.findIdx?_isSome, List.any_eq_true]
    exact ⟨a, ha, decide_eq_true hname⟩
  obtain ⟨hlt, hfound, -⟩ := List.findIdx?_eq_some_iff_getElem.1 hy
  exact ⟨y, hy, build, _, hbuild, List.getElem?_eq_getElem hlt, dep, hdep,
    (of_decide_eq_true hfound).symm⟩

/-! ### Evaluated builds -/

/-- These builds have been evaluated. -/
def BuildState.Done (st : BuildState) (order : List ℕ) : Prop :=
  ∀ x ∈ order, (st.stampPaths x).isSome ∧ (st.buildReturns x).isSome

variable {invoke : TupbuildBuild → Vardb → List Text → Option Vardb} {st st' : BuildState}
  {order : List ℕ}

theorem BuildState.Done.evalBuild (h : st.Done order) {idx : ℕ}
    (hrun : evalBuild invoke tb st idx = some st') : st'.Done (order ++ [idx]) := by
  unfold Metatup.evalBuild at hrun
  simp only [Option.bind_eq_bind, Option.bind_eq_some_iff] at hrun
  obtain ⟨build, -, args, -, stamps, -, returns, -, hst⟩ := hrun
  cases hst
  intro x hx
  by_cases hidx : x = idx
  · subst hidx
    simp
  · have hmem : x ∈ order := by
      rcases List.mem_append.1 hx with hx | hx
      · exact hx
      · exact absurd (List.mem_singleton.1 hx) hidx
    simpa [hidx] using h x hmem

theorem evalBuilds_done (hrun : evalBuilds invoke tb order = some st) : st.Done order := by
  induction order using List.reverseRecOn generalizing st with
  | nil => exact fun x hx => absurd hx List.not_mem_nil
  | append_singleton pre x ih =>
    unfold evalBuilds at hrun
    rw [List.foldlM_append, Option.bind_eq_bind, Option.bind_eq_some_iff] at hrun
    obtain ⟨st₁, hpre, hlast⟩ := hrun
    rw [List.foldlM_cons, Option.bind_eq_bind, Option.bind_eq_some_iff] at hlast
    obtain ⟨st₂, hlast, hnil⟩ := hlast
    cases hnil
    exact (ih hpre).evalBuild hlast

/-- A `$(from ...)` of a declared dependency that has been evaluated finds its return values. -/
theorem resolve_ne_notAvailable {build : TupbuildBuild}
    (h : ∀ dep ∈ build.depends, ∃ y, tupbuildFindBuild tb dep.build = some y ∧
      (st.buildReturns y).isSome) (value name dep : Text) :
    tupbuildResolveArgValue tb build st value ≠ .error (.notAvailable name dep) := by
  unfold tupbuildResolveArgValue
  split
  · next e hparse =>
    -- the expression itself is refused for another reason
    intro heq
    cases heq
    unfold tupbuildParseFromExpr at hparse
    dsimp only at hparse
    split at hparse
    · cases hparse
    · split at hparse
      · cases hparse
      · split at hparse
        · cases hparse
        · split at hparse
          · split at hparse <;> cases hparse
          · cases hparse
  · simp
  · split
    · simp
    · next depidx hfind =>
      split
      · simp
      · next hdecl =>
        rw [Bool.not_eq_true', Bool.not_eq_false] at hdecl
        obtain ⟨d, hd, hname⟩ := List.any_eq_true.1 hdecl
        obtain ⟨y, hy, hsome⟩ := h d hd
        rw [of_decide_eq_true hname, hfind] at hy
        cases hy
        obtain ⟨returns, hret⟩ := Option.isSome_iff_exists.1 hsome
        rw [hret]
        dsimp only
        split <;> simp

/-- The loop ends. It reports a cycle exactly when there is one; otherwise it lists every build after
its dependencies, and whenever a build is evaluated these have a stamp and return values. -/
theorem tupbuild_order_spec (hnames : (tb.builds.map TupbuildBuild.name).Nodup)
    (hknown : ∀ b ∈ tb.builds, ∀ dep ∈ b.depends, ∃ a ∈ tb.builds, a.name = dep.build) {fuel : ℕ}
    (hfuel : tb.builds.length < fuel) :
    (tupbuildOrder tb fuel = some none ↔ ∃ x, TransGen (DependsOn tb) x x) ∧
      ((¬ ∃ x, TransGen (DependsOn tb) x x) → ∃ order, tupbuildOrder tb fuel = some (some order) ∧
        order.Perm (List.range tb.builds.length) ∧
        ∀ pre x post, order = pre ++ x :: post →
          (∀ y, DependsOn tb x y → y ∈ pre) ∧
          ∀ invoke st build, evalBuilds invoke tb pre = some st → tb.builds[x]? = some build →
            (∀ dep ∈ build.depends, ∃ y, tupbuildFindBuild tb dep.build = some y ∧
              (st.stampPaths y).isSome ∧ (st.buildReturns y).isSome) ∧
            ∀ value name dep,
              tupbuildResolveArgValue tb build st value ≠ .error (.notAvailable name dep)) := by
  have hlt : (List.range tb.builds.length).length < fuel := by
    rw [List.length_range]
    exact hfuel
  obtain ⟨hcycle, horder⟩ := Kahn.run_init List.nodup_range
    (fun y hy => sum_edgeCount hnames hknown (List.mem_range.1 hy)) hlt
  rw [cycle_iff] at hcycle horder
  refine ⟨hcycle, fun hno => ?_⟩
  obtain ⟨order, hrun, hperm, hsorted⟩ := horder hno
  refine ⟨order, hrun, hperm, fun pre x post heq => ?_⟩
  have hpre : ∀ y, DependsOn tb x y → y ∈ pre :=
    fun y hy => hsorted pre x post heq y (edge_iff.2 hy)
  refine ⟨hpre, fun invoke st build hst hbuild => ?_⟩
  have hdone := evalBuilds_done hst
  have hdeps : ∀ dep ∈ build.depends, ∃ y, tupbuildFindBuild tb dep.build = some y ∧
      (st.stampPaths y).isSome ∧ (st.buildReturns y).isSome := by
    intro dep hdep
    obtain ⟨y, hy, hxy⟩ := dependsOn_of_dep hknown hbuild hdep
    exact ⟨y, hy, hdone y (hpre y hxy)⟩
  refine ⟨hdeps, resolve_ne_notAvailable fun dep hdep => ?_⟩
  obtain ⟨y, hy, -, hret⟩ := hdeps dep hdep
  exact ⟨y, hy, hret⟩

end

/-- Two builds, of which the first needs the second under two aliases. -/
def appAndLib : TupbuildFile :=
  { strict := true
    builds := [
      { name := ['a'], builddir := ['a'], depends := [⟨['l'], ['x']⟩, ⟨['l'], ['y']⟩] },
      { name := ['l'], builddir := ['l'] }] }

example : tupbuildOrder appAndLib 3 = some (some [1, 0]) := by decide

theorem tupbuild_order_spec_app :
    tupbuildOrder appAndLib 3 = some none ↔ ∃ x, TransGen (DependsOn appAndLib) x x :=
  (tupbuild_order_spec (by decide) (by decide) (by decide)).1

end Metatup
