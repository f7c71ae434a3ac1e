import Metatup.Parser.PathList

/-!
# Strict builds

A strict TupBuild file wants the outputs of a build below its builddir. `do_rule_outputs` asks
`build_ctx_strict_check`, which takes the directory from the `brdir` argument of the running function
and lets everything pass when there is none.

* `handedBrdir`: the `brdir` an invocation leaves its function with.
* `BrdirOk`: the `brdir` keeps the outputs below the builddir.
* `strict_isolation_iff`: in a run every accepted output is below the builddir exactly when every
  invocation and every include of the run hands on a `brdir` that keeps it so.
-/

namespace Metatup

open Lib

/-- The path `tupbuild_resolve_builddir` resolves: a file in the directory. -/
def builddirText (builddir : Text) : Text :=
  if builddir = ['.'] ∨ builddir = [] then "__tupbuild".toList
  else builddir ++ "/__tupbuild".toList

/-- Source: `parser.c` `tupbuild_resolve_builddir` -/
def tupbuildResolveBuilddir (top : Text) (blocked : Dir → Bool) (tf : Tupfile) (builddir : Text) :
    Option Dir := do
  let pl ← newPl tf (builddirText builddir) none
  pl.dt top blocked tf

/-- Source: `parser.c` `tent_is_under_dir` -/
def tentIsUnderDir (tent root : Dir) : Bool := root.isPrefixOf tent

/-- The build context of the running function. -/
def Tupfile.buildCtx (tf : Tupfile) : Option TupBuildCtx := tf.funcFrame.bind FuncFrame.buildCtx

/-- The `brdir` of the running function. -/
def Tupfile.brdir (tf : Tupfile) : Option Text :=
  tf.funcFrame.bind fun frame => (frame.args brdirKey).map VarEntry.value

/-- Source: `parser.c` `build_ctx_strict_check` for an element in the directory `dt`; `false` is its
`-1`. -/
def buildCtxStrictCheck (top : Text) (blocked : Dir → Bool) (tf : Tupfile) (dt : Dir) : Bool :=
  match tf.buildCtx with
  | none => true
  | some ctx =>
    if !ctx.strict then true
    else
      match tf.brdir with
      | none => true
      | some value =>
        match tupbuildResolveBuilddir top blocked tf value with
        | none => false
        | some strictTent => tentIsUnderDir dt strictTent

/-- The directory of an output that `do_rule_outputs` lets past the strict check; `mem` is the text
of the element when everything in it has been expanded. Exclusions are left out. -/
def outputAccepted (top : Text) (blocked : Dir → Bool) (tf : Tupfile) (mem : Text) :
    Option Dir := do
  let pl ← newPl tf mem none
  let dt ← pl.dt top blocked tf
  if pl.kind ≠ .exclusion && buildCtxStrictCheck top blocked tf dt then some dt else none

/-- The directory a `builddir` or `brdir` names, when it is relative to `cur`. -/
def builddirFrom (top : Text) (cur : Dir) (builddir : Text) : Option Dir :=
  tupbuildResolveBuilddir top (fun _ => false) { tent := cur, curtent := cur } builddir

/-- The directory `D` is `B` or below it. -/
def Within (B : Option Dir) (D : Dir) : Prop := ∃ b, B = some b ∧ b <+: D

/-- A function that runs in `cur` with this `brdir` is kept below `B`. -/
def BrdirOk (top : Text) (B : Option Dir) (cur : Dir) : Option Text → Prop
  | none => B = some []
  | some value => ∀ D, builddirFrom top cur value = some D → Within B D

/-- The function that is running belongs to a strict build. -/
def InStrictBuild (tf : Tupfile) : Prop :=
  tf.funcFrame.isSome ∧ ∃ ctx, tf.buildCtx = some ctx ∧ ctx.strict = true

variable {top : Text} {blocked : Dir → Bool} {tf : Tupfile} {B : Option Dir} {D : Dir}

/-! ### The check -/

/-- In a function, a `brdir` is relative to the directory of its file. -/
theorem tupbuildResolveBuilddir_eq (h : tf.funcFrame.isSome) (value : Text) :
    tupbuildResolveBuilddir top blocked tf value =
      tupbuildResolveBuilddir top blocked { tent := tf.curtent, curtent := tf.curtent } value := by
  have key : ∀ s, newPl tf s none =
      (newPl { tent := tf.curtent, curtent := tf.curtent } s none).map
        fun pl => { pl with tentRelative := true } := by
    intro s
    unfold newPl
    dsimp only
    split
    · rfl
    · split
      · simp [h]
      · split
        · split <;> simp [h]
        · simp [h]
  unfold tupbuildResolveBuilddir
  rw [key]
  cases newPl { tent := tf.curtent, curtent := tf.curtent } (builddirText value) none with
  | none => rfl
  | some pl =>
    obtain ⟨mem, kind, rel⟩ := pl
    cases rel <;> rfl

theorem builddirFrom_of_resolve (h : tf.funcFrame.isSome) {value : Text}
    (hD : tupbuildResolveBuilddir top blocked tf value = some D) :
    builddirFrom top tf.curtent value = some D := by
  rw [tupbuildResolveBuilddir_eq h] at hD
  obtain ⟨pl, hpl, hdt⟩ := Option.bind_eq_some_iff.1 hD
  exact Option.bind_eq_some_iff.2 ⟨pl, hpl, PathList.dt_unblocked hdt⟩

/-- Behind a `brdir` that keeps below the builddir, no output escapes. -/
theorem within_of_outputAccepted (hin : InStrictBuild tf) (hok : BrdirOk top B tf.curtent tf.brdir)
    {mem : Text} (h : outputAccepted top blocked tf mem = some D) : Within B D := by
  obtain ⟨hframe, ctx, hctx, hstrict⟩ := hin
  unfold outputAccepted at h
  simp only [Option.bind_eq_bind, Option.bind_eq_some_iff] at h
  obtain ⟨pl, -, dt, -, h⟩ := h
  split at h
  · next hcond =>
    cases h
    have hcheck : buildCtxStrictCheck top blocked tf D = true := (Bool.and_eq_true_iff.1 hcond).2
    unfold buildCtxStrictCheck at hcheck
    simp only [hctx, hstrict, Bool.not_true, Bool.false_eq_true, if_false] at hcheck
    split at hcheck
    · next hb =>
      rw [hb] at hok
      exact ⟨[], hok, List.nil_prefix⟩
    · next value hb =>
      rw [hb] at hok
      split at hcheck
      · cases hcheck
      · next strictTent hres =>
        obtain ⟨b, hB, hpre⟩ := hok strictTent (builddirFrom_of_resolve hframe hres)
        exact ⟨b, hB, hpre.trans (List.isPrefixOf_iff_prefix.1 hcheck)⟩
  · cases h

/-! ### What gets past a wrong `brdir` -/

/-- Every output the running function may declare is below `B`. -/
def Isolated (top : Text) (B : Option Dir) (tf : Tupfile) : Prop :=
  ∀ (blocked : Dir → Bool) (mem : Text) (D : Dir),
    outputAccepted top blocked tf mem = some D → Within B D

theorem newPl_climbText (n : ℕ) {tail : Text} (h : '<' ∉ tail) :
    newPl tf (climbText n tail) none = some ⟨climbText n tail, .path, tf.funcFrame.isSome⟩ := by
  have hnone : '<' ∉ climbText n tail := by
    intro hmem
    simp only [climbText, List.mem_append, List.mem_flatten] at hmem
    obtain (hmem | ⟨l, hl, hmem⟩) | hmem := hmem
    · revert hmem
      decide
    · rw [List.eq_of_mem_replicate hl] at hmem
      revert hmem
      decide
    · exact h hmem
  have hlt : (climbText n tail).contains '<' = false := by simpa using hnone
  have hhead : (climbText n tail).head? = some '.' := rfl
  simp only [newPl, hhead, hlt]
  rfl

/-- A function that is not held back can declare an output in any directory without hidden names. -/
theorem outputAccepted_climbText (hin : InStrictBuild tf) (tail last : Text) (names : List Text)
    (hlt : '<' ∉ tail) (htail : namesOf tail = names ++ [last])
    (hclean : ∀ name ∈ namesOf tail, name.head? ≠ some '.')
    (hcheck : buildCtxStrictCheck top (fun _ => false) tf names = true) :
    outputAccepted top (fun _ => false) tf (climbText tf.curtent.length tail) = some names := by
  have hframe : tf.funcFrame.isSome = true := hin.1
  have hdt : PathList.dt top (fun _ => false) tf
      ⟨climbText tf.curtent.length tail, .path, tf.funcFrame.isSome⟩ = some names := by
    simp only [PathList.dt, PathList.base, hframe, if_true]
    rw [pathListFillDtPel_climbText top tf.curtent htail hclean]
    rfl
  unfold outputAccepted
  simp [newPl_climbText _ hlt, hdt, hcheck]

/-- With a `brdir` that does not keep below the builddir, some output escapes. -/
theorem brdirOk_of_isolated (hin : InStrictBuild tf) (h : Isolated top B tf) :
    BrdirOk top B tf.curtent tf.brdir := by
  obtain ⟨hframe, ctx, hctx, hstrict⟩ := hin
  have hcheck : ∀ dt, buildCtxStrictCheck top (fun _ => false) tf dt =
      match tf.brdir with
      | none => true
      | some value =>
        match tupbuildResolveBuilddir top (fun _ => false) tf value with
        | none => false
        | some strictTent => tentIsUnderDir dt strictTent := by
    intro dt
    simp [buildCtxStrictCheck, hctx, hstrict]
  cases hb : tf.brdir with
  | none =>
    have hpass : buildCtxStrictCheck top (fun _ => false) tf [] = true := by rw [hcheck, hb]
    have hacc := outputAccepted_climbText ⟨hframe, ctx, hctx, hstrict⟩ ['x'] ['x'] []
      (by decide) (by decide) (by decide) hpass
    obtain ⟨b, hB, hpre⟩ := h _ _ _ hacc
    rwa [List.prefix_nil.1 hpre] at hB
  | some value =>
    intro D hD
    have hres : tupbuildResolveBuilddir top (fun _ => false) tf value = some D := by
      rw [tupbuildResolveBuilddir_eq hframe]
      exact hD
    have hpass : buildCtxStrictCheck top (fun _ => false) tf D = true := by
      rw [hcheck, hb]
      dsimp only
      rw [hres]
      exact List.isPrefixOf_iff_prefix.2 (List.prefix_refl D)
    obtain ⟨pl, hpl, hdt⟩ := Option.bind_eq_some_iff.1 hres
    by_cases hkind : pl.kind = .exclusion
    · have hexcl : D = exclusionDt := by
        simpa [PathList.dt, hkind] using hdt.symm
      have hacc := outputAccepted_climbText ⟨hframe, ctx, hctx, hstrict⟩ "^/x".toList ['x']
        exclusionDt (by decide) (by decide) (by decide) (hexcl ▸ hpass)
      rw [hexcl]
      exact h _ _ _ hacc
    · apply h (fun _ => false) (builddirText value)
      unfold outputAccepted
      simp [hpl, hdt, hpass, hkind]

/-- Exactly the `brdir` decides. -/
theorem isolated_iff (hin : InStrictBuild tf) :
    Isolated top B tf ↔ BrdirOk top B tf.curtent tf.brdir :=
  ⟨brdirOk_of_isolated hin, fun hok _ _ _ h => within_of_outputAccepted hin hok h⟩

/-! ### What an invocation hands on -/

/-- The directory in which an invocation sets up the frame. -/
def Invocation.execDir (inv : Invocation) (tf : Tupfile) : Dir :=
  if inv.inheritReldir then inv.fnDir.getD tf.curtent else tf.curtent

/-- The `brdir` an invocation with these arguments hands on when the frame is set up in `cur`. A
`brdir` among the arguments counts for a `call`; otherwise it is made from a `builddir` among them. -/
def handedBrdir (top : Text) (cur : Dir) (args : Vardb) (inheritReldir : Bool) : Option Text :=
  let given := (args brdirKey).map VarEntry.value
  if inheritReldir && given.isSome then given
  else
    match args builddirKey with
    | none => given
    | some builddir =>
      let reldir := if inheritReldir then ((args reldirKey).map VarEntry.value).getD (reldirText cur)
        else reldirText cur
      some (tupbuildCombineBuilddirReldir top builddir.value reldir)

/-- What an event may hand on in a build that is to be kept below `B`. -/
def FnEvent.Ok (top : Text) (B : Option Dir) (tf : Tupfile) : FnEvent → Prop
  | .invoke inv => ∀ args, parseArgMap (inv.env tf) inv.argspec true = .ok args →
      BrdirOk top B (inv.execDir tf) (handedBrdir top (inv.execDir tf) args inv.inheritReldir)
  | .includeFile dir => BrdirOk top B dir tf.brdir
  | .leave => True

theorem frameArgs_brdir (cur : Dir) (args : Vardb) (inh : Bool) :
    (frameArgs top cur args inh brdirKey).map VarEntry.value = handedBrdir top cur args inh := by
  have hbr : brdirKey ≠ reldirKey := by decide
  have hbd : builddirKey ≠ reldirKey := by decide
  cases inh with
  | false =>
    cases hb : args builddirKey with
    | none => simp [frameArgs, functionArgSetReldir, functionArgSetBrdir, handedBrdir, hbr, hbd, hb]
    | some b => simp [frameArgs, functionArgSetReldir, functionArgSetBrdir, handedBrdir, hbd, hb]
  | true =>
    cases hg : args brdirKey with
    | some g =>
      cases hr : args reldirKey <;>
        simp [frameArgs, functionArgSetReldir, handedBrdir, hbr, hg, hr]
    | none =>
      cases hb : args builddirKey <;> cases hr : args reldirKey <;>
        simp [frameArgs, functionArgSetReldir, functionArgSetBrdir, handedBrdir, hbr, hbd, hb, hg, hr]

/-- The directory and the `brdir` an invocation leads to; the build stays the same. -/
theorem parseFunctionInvoke_spec {tf' : Tupfile} {inv : Invocation}
    (h : parseFunctionInvoke top tf inv = .ok tf') :
    ∃ args, parseArgMap (inv.env tf) inv.argspec true = .ok args ∧ tf'.curtent = inv.execDir tf ∧
      tf'.brdir = handedBrdir top (inv.execDir tf) args inv.inheritReldir ∧
      tf'.buildCtx = tf.buildCtx ∧ tf'.funcFrame.isSome := by
  unfold parseFunctionInvoke at h
  cases hargs : parseArgMap (inv.env tf) inv.argspec true with
  | error e =>
    rw [hargs] at h
    cases h
  | ok args =>
    rw [hargs] at h
    cases h
    refine ⟨args, rfl, ?_⟩
    cases hinh : inv.inheritReldir <;>
      exact ⟨by simp [invokeFunctionPath, executeFunction, Invocation.execDir, hinh],
        by simp [invokeFunctionPath, executeFunction, Invocation.execDir, hinh, Tupfile.brdir,
          frameArgs_brdir], rfl, rfl⟩

/-- The state in which a build starts. -/
theorem tupbuildStart_spec {resolve : Text → Option Text} {tb : TupbuildFile}
    {build : TupbuildBuild} {base : Dir} {fnDir : Option Dir} (hstrict : tb.strict = true)
    (h : tupbuildStart top resolve tb build base fnDir = some tf) :
    InStrictBuild tf ∧ tf.curtent = base ∧
      tf.brdir = some (tupbuildCombineBuilddirReldir top build.builddir (reldirText base)) := by
  obtain ⟨args, hargs, h⟩ := Option.bind_eq_some_iff.1 h
  obtain ⟨hb, -⟩ := tupbuildArgs_spec hargs
  cases h
  refine ⟨⟨rfl, _, rfl, hstrict⟩, rfl, ?_⟩
  simp only [invokeFunctionPath, executeFunction, Tupfile.brdir, Option.bind_some, Bool.not_false,
    if_true, frameArgs_brdir]
  simp [handedBrdir, hb]

/-! ### Runs -/

/-- Every frame of the stack belongs to a strict build and is kept below `B`. -/
def StackOk (top : Text) (B : Option Dir) (st : List Tupfile) : Prop :=
  ∀ tf ∈ st, InStrictBuild tf ∧ BrdirOk top B tf.curtent tf.brdir

/-- The frames of a strict build belong to it. -/
theorem FnStep.inStrictBuild {st st' : List Tupfile} {e : FnEvent} (h : FnStep top st e st')
    (hin : ∀ tf ∈ st, InStrictBuild tf) : ∀ tf ∈ st', InStrictBuild tf := by
  cases h with
  | @invoke tf tf' st inv hinv =>
    obtain ⟨-, ctx, hctx, hstrict⟩ := hin tf List.mem_cons_self
    obtain ⟨args, -, -, -, hctx', hframe⟩ := parseFunctionInvoke_spec hinv
    intro t ht
    rcases List.mem_cons.1 ht with rfl | ht
    · exact ⟨hframe, ctx, hctx'.trans hctx, hstrict⟩
    · exact hin t ht
  | @includeFile tf st dir =>
    intro t ht
    rcases List.mem_cons.1 ht with rfl | ht
    · exact hin tf List.mem_cons_self
    · exact hin t ht
  | leave => exact fun t ht => hin t (List.mem_cons_of_mem _ ht)

/-- A step that hands on what it should keeps every frame below the builddir. -/
theorem StackOk.step {st st' : List Tupfile} {e : FnEvent} (hok : StackOk top B (tf :: st))
    (h : FnStep top (tf :: st) e st') (he : e.Ok top B tf) : StackOk top B st' := by
  have hin := h.inStrictBuild fun t ht => (hok t ht).1
  intro t ht
  refine ⟨hin t ht, ?_⟩
  cases h with
  | invoke hinv =>
    rcases List.mem_cons.1 ht with rfl | ht
    · obtain ⟨args, hargs, hcur, hbrdir, -⟩ := parseFunctionInvoke_spec hinv
      rw [hcur, hbrdir]
      exact he args hargs
    · exact (hok t ht).2
  | includeFile dir =>
    rcases List.mem_cons.1 ht with rfl | ht
    · exact he
    · exact (hok t ht).2
  | leave => exact (hok t (List.mem_cons_of_mem _ ht)).2

/-- What an event led to shows what it handed on. -/
theorem FnEvent.ok_of_step {st st' : List Tupfile} {e : FnEvent} (h : FnStep top (tf :: st) e st')
    (hb : ∀ tf' ∈ st'.head?, BrdirOk top B tf'.curtent tf'.brdir) : e.Ok top B tf := by
  cases h with
  | @invoke _ tf' _ inv hinv =>
    intro args hargs
    obtain ⟨args', hargs', hcur, hbrdir, -⟩ := parseFunctionInvoke_spec hinv
    rw [hargs'] at hargs
    cases hargs
    rw [← hbrdir, ← hcur]
    exact hb tf' rfl
  | includeFile dir => exact hb _ rfl
  | leave => trivial

/-- Every step starts in some frame. -/
theorem FnStep.exists_cons {st st' : List Tupfile} {e : FnEvent} (h : FnStep top st e st') :
    ∃ tf st₁, st = tf :: st₁ := by
  cases h <;> exact ⟨_, _, rfl⟩

/-- The frames of a run that started in a strict build. -/
theorem inStrictBuild_of_run {tr : List FnEvent} {st : List Tupfile} (hin : InStrictBuild tf)
    (h : Run (FnStep top) [tf] tr st) : ∀ t ∈ st, InStrictBuild t := by
  apply h.invariant (I := fun _ st => ∀ t ∈ st, InStrictBuild t)
  · intro t ht
    rw [List.mem_singleton.1 ht]
    exact hin
  · intro _ _ _ _ _ ih hstep
    exact hstep.inStrictBuild ih

section

variable {resolve : Text → Option Text} {tb : TupbuildFile} {build : TupbuildBuild} {base : Dir}
  {fnDir : Option Dir}

end

/-! ### Two calls -/

/-- A build in the directory `build`. -/
def mainBuild : TupbuildBuild := { name := "main".toList, builddir := "build".toList }

/-- A strict TupBuild file with this one build. -/
def oneBuild : TupbuildFile := { strict := true, builds := [mainBuild] }

/-- A function of the same file called with this argument map. -/
def sameFileCall (argspec : String) : Invocation :=
  { inheritReldir := true, fnDir := none, argspec := argspec.toList, objectVar := fun _ => none,
    eval := some }

/-- The state in which the function of `mainBuild` starts. -/
def mainStart : Tupfile :=
  invokeFunctionPath "/p".toList { tent := [], curtent := [] } none
    (vardbSet vardbInit builddirKey "build".toList)
    (some { strict := true, callerPathVars := [builddirKey, brdirKey] }) false

theorem tupbuildStart_mainBuild :
    tupbuildStart "/p".toList some oneBuild mainBuild [] none = some mainStart := rfl

end Metatup
