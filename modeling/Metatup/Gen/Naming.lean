import Metatup.Gen.Sharing
import Metatup.Parser.Tupbuild

/-!
# Names in expressions

A `$(from "label" "ret")` of a bind is rewritten to name a build. The builds get their names elsewhere,
and there the repository of the label is located from the workspace root, while the expression locates
it from the repository it stands in.

* `SameRepository`: where the two places cannot be told apart.
* `Unquoted`: the names that a rewritten expression can hold.
* `from_names_agree_iff`: when the expression names the build.
-/

namespace Metatup

/-! ### Quoted names -/

/-- There is no quote in the text, except after a backslash. -/
def Unquoted : Text → Prop
  | [] => True
  | '"' :: _ => False
  | '\\' :: _ :: s => Unquoted s
  | _ :: s => Unquoted s

/-- A character that a quoted string does not treat in a special way. -/
def isPlain (c : Char) : Bool := c ≠ '"' && c ≠ '\\'

theorem scanQuoted_cons_plain {c : Char} (hc : isPlain c = true) (s : Text) :
    scanQuoted (c :: s) = (scanQuoted s).map fun (out, rest) => (c :: out, rest) := by
  simp only [isPlain, Bool.and_eq_true, decide_eq_true_eq] at hc
  rw [scanQuoted]
  · rintro rfl
    exact hc.1 rfl
  · rintro _ _ rfl
    exact fun _ => hc.2 rfl

theorem scanQuoted_plain {y : Text} (hy : ∀ c ∈ y, isPlain c = true) (t : Text) :
    scanQuoted (y ++ '"' :: t) = some (y, t) := by
  induction y with
  | nil => rfl
  | cons c y ih =>
    rw [List.cons_append, scanQuoted_cons_plain (hy c List.mem_cons_self),
      ih fun d hd => hy d (List.mem_cons_of_mem c hd)]
    rfl

/-- A text is read up to its own end exactly when it has no quote. -/
theorem scanQuoted_iff {x y : Text} (hne : y ≠ []) (hy : ∀ c ∈ y, isPlain c = true) (t : Text) :
    scanQuoted (x ++ y ++ '"' :: t) = some (x ++ y, t) ↔ Unquoted x := by
  induction x using Unquoted.induct with
  | case1 => simp [Unquoted, scanQuoted_plain hy]
  | case2 s => simp [Unquoted, scanQuoted]
  | case3 c s ih => simpa [Unquoted, scanQuoted] using ih
  | case4 c s hquote hback ih =>
    rw [Unquoted]
    · by_cases hc : c = '\\'
      · -- a backslash at the end takes the first character of what follows
        subst hc
        cases s with
        | cons d s => exact absurd rfl (hback d s rfl)
        | nil =>
          cases y with
          | nil => exact absurd rfl hne
          | cons d y =>
            have hplain := scanQuoted_plain (fun e he => hy e (List.mem_cons_of_mem d he)) t
            simp [Unquoted, scanQuoted, hplain]
      · have hplain : isPlain c = true := by simpa [isPlain, hc] using hquote
        rw [← ih, List.cons_append, List.cons_append, scanQuoted_cons_plain hplain]
        simp
    · exact hquote
    · exact hback

theorem scanQuoted_eq {s x rest : Text} (h : scanQuoted s = some (x, rest)) : s = x ++ '"' :: rest := by
  induction s using scanQuoted.induct generalizing x with
  | case1 => simp [scanQuoted] at h
  | case2 s =>
    cases h
    rfl
  | case3 c s ih =>
    rw [scanQuoted, Option.map_eq_some_iff] at h
    obtain ⟨⟨out, rest'⟩, hq, heq⟩ := h
    cases heq
    simp [ih hq]
  | case4 c s hquote hback ih =>
    rw [scanQuoted, Option.map_eq_some_iff] at h
    · obtain ⟨⟨out, rest'⟩, hq, heq⟩ := h
      cases heq
      simp [ih hq]
    · exact hquote
    · exact hback

/-- What has been read from quotes can be read from quotes. -/
theorem scanQuoted_again {s x rest : Text} (h : scanQuoted s = some (x, rest)) (t : Text) :
    scanQuoted (x ++ '"' :: t) = some (x, t) := by
  induction s using scanQuoted.induct generalizing x with
  | case1 => simp [scanQuoted] at h
  | case2 s =>
    cases h
    rfl
  | case3 c s ih =>
    rw [scanQuoted, Option.map_eq_some_iff] at h
    obtain ⟨⟨out, rest'⟩, hq, heq⟩ := h
    cases heq
    simp [scanQuoted, ih hq]
  | case4 c s hquote hback ih =>
    rw [scanQuoted, Option.map_eq_some_iff] at h
    · obtain ⟨⟨out, rest'⟩, hq, heq⟩ := h
      cases heq
      rw [List.cons_append, scanQuoted, ih hq]
      · rfl
      · exact hquote
      · intro d s' hc _
        cases s with
        | nil => simp [scanQuoted] at hq
        | cons e s => exact hback e s hc rfl
    · exact hquote
    · exact hback

/-! ### Expressions -/

/-- The text of a reference to a return value of a build. -/
def fromText (name ret : Text) : Text :=
  "$(from \"".toList ++ name ++ "\" \"".toList ++ ret ++ "\")".toList

/-- What stands between `$(from` and `)` in a reference to a return value of a label. -/
structure FromExpr (s label ret : Text) : Prop where
  blank : ∃ c s', s = c :: s' ∧ isSpace c = true
  parts : ∃ s₁ s₂, mtEvalFrom.mtParseQuoted (skipSpace s) = some (label, s₁) ∧
    mtEvalFrom.mtParseQuoted (skipSpace s₁) = some (ret, s₂) ∧ skipSpace s₂ = []
  closed : ')' ∉ s
  short : s.length < 252

/-- The name that `mt_eval_expr` writes for a label. -/
def mtFromName (env : MtEnv) (ctx : MtContext) (labelText : Text) : Option Text := do
  let label ← mtParseLabel labelText ctx.package
  let rel ← mtEvalFrom.mtFromRepoRel env ctx label
  some (mtMakeDepBuildName env.rootName rel label.package label.component)

theorem mtEvalFrom_eq {env : MtEnv} {ctx : MtContext} {s label ret : Text} (h : FromExpr s label ret) :
    mtEvalFrom env ctx s = (mtFromName env ctx label).map fun name => fromText name ret := by
  obtain ⟨s₁, s₂, hlabel, hret, hend⟩ := h.parts
  unfold mtEvalFrom mtFromName
  simp only [hlabel, hret, hend, Option.bind_eq_bind, Option.bind_some, if_true]
  cases mtParseLabel label ctx.package with
  | none => rfl
  | some l =>
    simp only [Option.bind_some]
    cases mtEvalFrom.mtFromRepoRel env ctx l with
    | none => rfl
    | some rel => rfl

theorem splitAtChar_append {c : Char} {s : Text} (h : c ∉ s) (t : Text) :
    splitAtChar c (s ++ c :: t) = some (s, t) := by
  induction s with
  | nil => simp [splitAtChar]
  | cons d s ih =>
    obtain ⟨hd, hs⟩ := not_or.1 (mt List.mem_cons.2 h)
    rw [List.cons_append, splitAtChar, if_neg (Ne.symm hd), ih hs]
    rfl

theorem mtEvalExpr_from {env : MtEnv} {ctx : MtContext} {args : Kvs} {s label ret : Text}
    (h : FromExpr s label ret) : mtEvalExpr env ctx args ("$(from".toList ++ s ++ [')']) =
      (mtFromName env ctx label).map fun name => fromText name ret := by
  obtain ⟨c, s', rfl, hc⟩ := h.blank
  have hclosed : ')' ∉ "from".toList ++ c :: s' := by
    intro hmem
    rcases List.mem_append.1 hmem with hmem | hmem
    · revert hmem
      decide
    · exact h.closed hmem
  have hsplit := splitAtChar_append hclosed []
  have hlen : ¬ 256 ≤ ("from".toList ++ c :: s').length := by
    have hshort := h.short
    simp only [List.length_append, List.length_cons] at hshort ⊢
    have hfrom : "from".toList.length = 4 := rfl
    omega
  have href : mtEvalRef env ctx args ("from".toList ++ c :: s') = mtEvalFrom env ctx (c :: s') := by
    have hafter : afterKeyword "from" ("from".toList ++ c :: s') = some (c :: s') := by
      simp [afterKeyword, hc]
    unfold mtEvalRef
    rw [hafter]
    simp [hc]
  have hloop : ∀ fuel, mtEvalExprLoop env ctx args (fuel + 2)
      ('$' :: '(' :: ("from".toList ++ c :: s' ++ [')'])) = mtEvalFrom env ctx (c :: s') := by
    intro fuel
    rw [mtEvalExprLoop, hsplit]
    dsimp only
    rw [if_neg hlen, href]
    cases mtEvalFrom env ctx (c :: s') with
    | none => rfl
    | some value => simp [mtEvalExprLoop]
  rw [← mtEvalFrom_eq h]
  exact hloop _

theorem FromExpr.ret_again {s label ret : Text} (h : FromExpr s label ret) (t : Text) :
    scanQuoted (ret ++ '"' :: t) = some (ret, t) := by
  obtain ⟨s₁, s₂, -, hret, -⟩ := h.parts
  unfold mtEvalFrom.mtParseQuoted at hret
  split at hret
  · exact scanQuoted_again hret t
  · cases hret

/-- A reference is read back exactly when no quote ends the name too early. -/
theorem tupbuildParseFromExpr_fromText {x y ret : Text} (hne : y ≠ [])
    (hy : ∀ c ∈ y, isPlain c = true) (hret : ∀ t, scanQuoted (ret ++ '"' :: t) = some (ret, t)) :
    tupbuildParseFromExpr (fromText (x ++ y) ret) = .ok (some (x ++ y, ret)) ↔ Unquoted x := by
  have htext : fromText (x ++ y) ret =
      fromMark ++ ' ' :: '"' :: (x ++ y ++ '"' :: ' ' :: '"' :: (ret ++ '"' :: [')'])) := by
    have hfirst : "$(from \"".toList = fromMark ++ [' ', '"'] := rfl
    have hsecond : "\" \"".toList = ['"', ' ', '"'] := rfl
    have hlast : "\")".toList = ['"', ')'] := rfl
    unfold fromText
    rw [hfirst, hsecond, hlast]
    simp only [List.append_assoc, List.cons_append, List.nil_append]
  have hskip : skipSpace (fromText (x ++ y) ret) = fromText (x ++ y) ret := by
    rw [htext]
    rfl
  have hmark : fromMark.isPrefixOf (fromText (x ++ y) ret) = true := by
    rw [htext]
    simp
  have hdrop : skipSpace ((fromText (x ++ y) ret).drop fromMark.length) =
      '"' :: (x ++ y ++ '"' :: ' ' :: '"' :: (ret ++ '"' :: [')'])) := by
    rw [htext, List.drop_left]
    rfl
  rw [← scanQuoted_iff hne hy (' ' :: '"' :: (ret ++ '"' :: [')']))]
  unfold tupbuildParseFromExpr
  rw [hskip]
  dsimp only
  rw [hmark, hdrop]
  simp only [Bool.not_true, Bool.false_eq_true, if_false, parseQuotedString]
  constructor
  · intro h
    cases hq : scanQuoted (x ++ y ++ '"' :: ' ' :: '"' :: (ret ++ '"' :: [')'])) with
    | none =>
      rw [hq] at h
      cases h
    | some r =>
      obtain ⟨build, rest⟩ := r
      rw [hq] at h
      dsimp only at h
      have hbuild : build = x ++ y := by
        split at h
        · cases h
        · split at h
          · split at h
            · exact (Prod.mk.inj (Option.some.inj (Except.ok.inj h))).1
            · cases h
          · cases h
      subst hbuild
      have heq := scanQuoted_eq hq
      rw [← List.cons.inj (List.append_cancel_left heq) |>.2]
  · intro h
    rw [h]
    have hspace : skipSpace (' ' :: '"' :: (ret ++ '"' :: [')'])) = '"' :: (ret ++ '"' :: [')']) := rfl
    have hclose : skipSpace [')'] = [')'] := rfl
    simp only [hspace, hret, hclose]
    rfl

/-! ### Names -/

/-- The repository of the label has the same place in a name when it is located from the repository
the label stands in as when it is located from the workspace root. -/
def SameRepository (env : MtEnv) (ctx : MtContext) (labelText : Text) : Prop :=
  ∀ label repo path, mtParseLabel labelText ctx.package = some label → label.repo = some repo →
    env.materialize ctx.repoRootAbs repo = .ok path →
    mtSanitize (mtLocation (mtRepoRel ctx.repoRootAbs path) label.package) =
      mtSanitize (mtLocation (mtRepoRel env.root path) label.package)

/-- The expression is rewritten to one that is read as a reference to the build. -/
structure NamesBuild (env : MtEnv) (ctx : MtContext) (args : Kvs) (s ret name : Text) : Prop where
  written : mtEvalExpr env ctx args ("$(from".toList ++ s ++ [')']) = some (fromText name ret)
  read : tupbuildParseFromExpr (fromText name ret) = .ok (some (name, ret))

theorem mtMakeDepBuildName_inj {rootName rel rel' package component : Text} :
    mtMakeDepBuildName rootName rel package component =
        mtMakeDepBuildName rootName rel' package component ↔
      mtSanitize (mtLocation rel package) = mtSanitize (mtLocation rel' package) := by
  unfold mtMakeDepBuildName
  rw [List.append_left_inj, List.append_right_inj]

theorem isPlain_of_mem_mtSanitize {name : Text} {c : Char} (h : c ∈ mtSanitize name) :
    isPlain c = true := by
  obtain ⟨d, -, rfl⟩ := List.mem_map.1 h
  split
  · next hd =>
    simp only [isPlain, Bool.and_eq_true, decide_eq_true_eq]
    constructor
    · rintro rfl
      revert hd
      decide
    · rintro rfl
      revert hd
      decide
  · decide

/-- The name of a dependency is that of the root and characters without a meaning. -/
theorem mtMakeDepBuildName_eq (rootName rel package component : Text) :
    ∃ y, mtMakeDepBuildName rootName rel package component = rootName ++ y ∧ y ≠ [] ∧
      ∀ c ∈ y, isPlain c = true := by
  refine ⟨"__".toList ++ mtSanitize (mtLocation rel package) ++ '_' :: mtSanitize component, ?_, ?_, ?_⟩
  · simp [mtMakeDepBuildName]
  · simp
  · intro c hc
    rcases List.mem_append.1 hc with hc | hc
    · rcases List.mem_append.1 hc with hc | hc
      · have hall : "__".toList.all isPlain = true := by decide
        exact List.all_eq_true.1 hall c hc
      · exact isPlain_of_mem_mtSanitize hc
    · rcases List.mem_cons.1 hc with rfl | hc
      · decide
      · exact isPlain_of_mem_mtSanitize hc

theorem mtFromName_iff {env : MtEnv} {ctx ctx' : MtContext} {labelText : Text} {component : MtComponent}
    (h : mtLoadLabeledComponent env ctx labelText = .ok (ctx', component)) :
    mtFromName env ctx labelText =
        some (mtMakeDepBuildName env.rootName ctx'.repoRootRel ctx'.package component.name) ↔
      SameRepository env ctx labelText := by
  obtain ⟨label, abs, rel, mf, hlabel, hrepo, rfl, -, hfind⟩ := mtLoadLabeledComponent_ok h
  unfold mtFromName SameRepository
  rw [name_of_mtFindComponent hfind, hlabel]
  simp only [Option.bind_eq_bind, Option.bind_some]
  unfold mtLoadLabeledComponent.mtLabelRepo at hrepo
  unfold mtEvalFrom.mtFromRepoRel
  cases hname : label.repo with
  | none =>
    rw [hname] at hrepo
    cases hrepo
    simp only [Option.bind_some, true_iff]
    rintro _ repo path hl hsome -
    cases hl
    rw [hname] at hsome
    cases hsome
  | some repo =>
    rw [hname] at hrepo
    cases hpath : env.materialize ctx.repoRootAbs repo with
    | error err =>
      simp [hpath, Except.map] at hrepo
    | ok path =>
      simp only [hpath, Except.map, Except.ok.injEq, Prod.mk.injEq] at hrepo
      obtain ⟨rfl, rfl⟩ := hrepo
      simp only [hpath, Except.toOption, Option.map_some, Option.bind_some, Option.some.injEq,
        mtMakeDepBuildName_inj]
      constructor
      · rintro heq _ repo' path' hl hsome hpath'
        cases hl
        rw [hname] at hsome
        cases hsome
        rw [hpath] at hpath'
        cases hpath'
        exact heq
      · intro hsame
        exact hsame label repo path rfl hname hpath

theorem namesBuild_iff {env : MtEnv} {ctx ctx' : MtContext} {component : MtComponent} {args : Kvs}
    {s label ret : Text} (hs : FromExpr s label ret)
    (h : mtLoadLabeledComponent env ctx label = .ok (ctx', component)) :
    NamesBuild env ctx args s ret
        (mtMakeDepBuildName env.rootName ctx'.repoRootRel ctx'.package component.name) ↔
      SameRepository env ctx label ∧ Unquoted env.rootName := by
  obtain ⟨y, hy, hne, hplain⟩ := mtMakeDepBuildName_eq env.rootName ctx'.repoRootRel ctx'.package
    component.name
  have hread : tupbuildParseFromExpr (fromText (env.rootName ++ y) ret) =
      .ok (some (env.rootName ++ y, ret)) ↔ Unquoted env.rootName :=
    tupbuildParseFromExpr_fromText hne hplain hs.ret_again
  rw [← hy] at hread
  rw [← mtFromName_iff h, ← hread]
  have hwritten : mtEvalExpr env ctx args ("$(from".toList ++ s ++ [')']) = some (fromText
        (mtMakeDepBuildName env.rootName ctx'.repoRootRel ctx'.package component.name) ret) ↔
      mtFromName env ctx label =
        some (mtMakeDepBuildName env.rootName ctx'.repoRootRel ctx'.package component.name) := by
    rw [mtEvalExpr_from hs, Option.map_eq_some_iff]
    constructor
    · rintro ⟨name, hname, htext⟩
      unfold fromText at htext
      rw [List.append_left_inj, List.append_left_inj, List.append_left_inj,
        List.append_right_inj] at htext
      rw [hname, htext]
    · intro hname
      exact ⟨_, hname, rfl⟩
  rw [← hwritten]
  exact ⟨fun hn => ⟨hn.written, hn.read⟩, fun hn => ⟨hn.1, hn.2⟩⟩

/-- Where the current repository is the workspace root, the two places are one. -/
theorem sameRepository_of_root {env : MtEnv} {ctx : MtContext} (h : ctx.repoRootAbs = env.root)
    (labelText : Text) : SameRepository env ctx labelText := by
  intro label repo path _ _ _
  rw [h]

theorem dropCommon_append (dir rest : List Text) : dropCommon dir (dir ++ rest) = ([], rest) := by
  induction dir with
  | nil => cases rest <;> rfl
  | cons name dir ih => rw [List.cons_append, dropCommon, if_pos rfl, ih]

theorem mtRelpath_below {dir path : Text} {rest : List Text}
    (h : namesOf path = namesOf dir ++ rest) (hne : rest ≠ []) :
    mtRelpath dir path = joinNames rest := by
  unfold mtRelpath
  rw [h, dropCommon_append]
  simp [hne]

theorem length_joinNames_append {dir rest : List Text} (hdir : dir ≠ []) (hrest : rest ≠ []) :
    (joinNames rest).length < (joinNames (dir ++ rest)).length := by
  induction dir with
  | nil => exact absurd rfl hdir
  | cons name dir ih =>
    have hne : dir ++ rest ≠ [] := by simp [hrest]
    have hcons : joinNames (name :: (dir ++ rest)) = name ++ '/' :: joinNames (dir ++ rest) := by
      obtain ⟨d, ds, heq⟩ := List.exists_cons_of_ne_nil hne
      rw [heq]
      rfl
    have hlen : (joinNames (name :: dir ++ rest)).length =
        name.length + 1 + (joinNames (dir ++ rest)).length := by
      rw [List.cons_append, hcons, List.length_append, List.length_cons]
      omega
    cases dir with
    | nil =>
      rw [hlen, List.nil_append]
      omega
    | cons d ds =>
      have hlt := ih (by simp)
      omega

/-- In a repository below the root, a label of a repository below it has another place. -/
theorem not_sameRepository_of_nested {env : MtEnv} {ctx : MtContext} {labelText path : Text}
    {label : MtLabel} {repo : Text} {dir rest : List Text}
    (hlabel : mtParseLabel labelText ctx.package = some label) (hrepo : label.repo = some repo)
    (hpath : env.materialize ctx.repoRootAbs repo = .ok path)
    (hctx : namesOf ctx.repoRootAbs = namesOf env.root ++ dir) (hdir : dir ≠ [])
    (hbelow : namesOf path = namesOf ctx.repoRootAbs ++ rest) (hrest : 1 < (joinNames rest).length) :
    ¬ SameRepository env ctx labelText := by
  intro hsame
  have hne : rest ≠ [] := by
    rintro rfl
    simp [joinNames] at hrest
  have heq := congrArg List.length (hsame label repo path hlabel hrepo hpath)
  have hroot : namesOf path = namesOf env.root ++ (dir ++ rest) := by
    rw [hbelow, hctx, List.append_assoc]
  have hlt := length_joinNames_append hdir hne
  have hrel : mtRepoRel ctx.repoRootAbs path = joinNames rest := by
    unfold mtRepoRel
    rw [mtRelpath_below hbelow hne]
    apply if_neg
    intro hdot
    rw [hdot] at hrest
    simp at hrest
  have hrel' : mtRepoRel env.root path = joinNames (dir ++ rest) := by
    unfold mtRepoRel
    rw [mtRelpath_below hroot (by simp [hne])]
    apply if_neg
    intro hdot
    rw [hdot, List.length_singleton] at hlt
    omega
  have hpos : joinNames rest ≠ [] := by
    intro hnil
    rw [hnil] at hrest
    simp at hrest
  have hpos' : joinNames (dir ++ rest) ≠ [] := by
    intro hnil
    rw [hnil] at hlt
    simp at hlt
  rw [hrel, hrel'] at heq
  unfold mtLocation mtSanitize mtJoin at heq
  rw [List.length_map, List.length_map] at heq
  by_cases hpkg : label.package = []
  · simp only [hpkg, ne_eq, not_true_eq_false, and_false, if_false, hpos, not_false_eq_true, if_true,
      hpos'] at heq
    omega
  · simp only [hpkg, ne_eq, not_false_eq_true, and_true, if_true, hpos, hpos', List.length_append,
      List.length_cons] at heq
    omega

/-! ### Both places -/

/-- The build of a dependency with a tupfile is among the builds and the dependencies of its parent. -/
theorem depend_present {env : MtEnv} {root : MtInstance} {rootBuilddir : Text} {gen : Generated}
    {b : MtGeneratedBuild} {args : Kvs} {dep : MtDep} {target : MtInstance}
    (h : RecordedIn env root rootBuilddir gen b) (hargs : b.origin.effectiveArgs env = some args)
    (hd : DependsVia env b.origin args dep target) (htup : target.component.tupfile.isSome = true) :
    ∃ d ∈ b.depends, d.build = target.buildName env ∧ ∃ g ∈ gen, g.name = d.build := by
  obtain ⟨args', leaves, hrec⟩ := h.recorded
  cases hargs.symm.trans hrec.effective
  obtain ⟨target', htarget, hleaves⟩ := hrec.leaves_ok dep hd.mem hd.enabled
  rw [hd.target_eq] at htarget
  cases htarget
  have hmem : ({ build := target.buildName env, as := mtAlias dep.name } : TupbuildDep) ∈
      b.depends := by
    rw [hrec.depends_eq]
    exact List.mem_flatMap.2 ⟨dep, List.mem_filter.2 ⟨hd.mem, hd.enabled⟩,
      List.mem_map_of_mem (hleaves.mem_iff.2 (.self htup))⟩
  exact ⟨_, hmem, rfl, h.depends _ hmem⟩

/-- The rewritten expression names the build of its label exactly when the repository of the label has
the same place from both sides and no quote of the root's name ends the name; and in a run, that
build is then there. -/
theorem from_names_agree_iff {env : MtEnv} {ctx ctx' : MtContext} {component : MtComponent}
    {args : Kvs} {s label ret : Text} (hs : FromExpr s label ret)
    (hload : mtLoadLabeledComponent env ctx label = .ok (ctx', component)) :
    (NamesBuild env ctx args s ret
        (mtMakeDepBuildName env.rootName ctx'.repoRootRel ctx'.package component.name) ↔
      SameRepository env ctx label ∧ Unquoted env.rootName) ∧
    ∀ {fuel : ℕ} {world : MtEnv} {componentName : Text} {cliArgs : List Text} {setup : MtSetup}
        {ref : BuildRef} {gen : Generated},
      metatupGen fuel world componentName cliArgs = .ok (setup, ref, gen) →
      ∀ b ∈ gen, b.origin.component.tupfile.isSome = true →
      ∀ {args : Kvs} {dep : MtDep} {target : MtInstance},
        b.origin.effectiveArgs setup.env = some args →
        DependsVia setup.env b.origin args dep target → target.component.tupfile.isSome = true →
      ∀ {scope : Kvs} {s ret : Text}, FromExpr s dep.name ret →
        ((NamesBuild setup.env b.origin.ctx scope s ret (target.buildName setup.env) ∧
            ∃ d ∈ b.depends, d.build = target.buildName setup.env ∧ ∃ g ∈ gen, g.name = d.build) ↔
          SameRepository setup.env b.origin.ctx dep.name ∧ Unquoted setup.env.rootName) := by
  refine ⟨namesBuild_iff hs hload, ?_⟩
  clear hs hload
  intro fuel world componentName cliArgs setup ref gen h b hb htup args dep target hargs hd htarget
    scope s ret hs
  obtain ⟨hsetup, gen₀, hbuild, rfl⟩ := metatupGen_ok h
  have hdists := sameButDists_mtAddDists setup.opts.cliDists ref gen₀
  have hnames : NamesBuild setup.env b.origin.ctx scope s ret (target.buildName setup.env) ↔ _ :=
    namesBuild_iff hs (depInstance_ok hd.target_eq).2
  refine ⟨fun hn => hnames.1 hn.1, fun hc => ⟨hnames.2 hc, ?_⟩⟩
  obtain ⟨b₀, hb₀, heq⟩ := hdists.mem hb
  rw [heq] at htup hargs hd ⊢
  rcases (root_spec fuel isTop_root hbuild).allButBundle b₀ hb₀ with ⟨-, -, hnone⟩ | hrec
  · simp [hnone] at htup
  obtain ⟨d, hdmem, hdbuild, g, hg, hgname⟩ := depend_present hrec hargs hd htarget
  obtain ⟨g', hg', hgeq⟩ := SameButDists.mem (Eq.symm hdists) hg
  exact ⟨d, hdmem, hdbuild, g', hg', by rw [← hgname, hgeq]⟩

/-- A repository in the workspace, and another one in it. -/
def nestedRepos : MtEnv where
  cwd := "/w".toList
  root := "/w".toList
  rootName := []
  loadFile := fun path => .ok {
    components :=
      if path = "/w/MetaTup.yaml".toList then [componentOf "app" [{ name := "@r//:mid".toList }]]
      else if path = "/w/r/MetaTup.yaml".toList then [{
        componentOf "mid" [{ name := "@s//:lib".toList }] with
        binds := [{ toKey := "x".toList, value := some "$(from \"@s//:lib\" \"out\")".toList }] }]
      else [componentOf "lib" []] }
  materialize := fun dir repo => .ok (mtJoin dir repo)

/-- In the workspace itself, `mid` is named as it is called. -/
theorem from_names_agree_mid : NamesBuild { nestedRepos with rootName := "app".toList }
    ⟨"/w".toList, [], []⟩ [] " \"@r//:mid\" \"out\"".toList "out".toList "app__r_mid".toList := by
  have hs : FromExpr " \"@r//:mid\" \"out\"".toList "@r//:mid".toList "out".toList :=
    ⟨⟨' ', _, rfl, by decide⟩, ⟨_, _, rfl, rfl, rfl⟩, by decide, by decide⟩
  obtain ⟨component, hload, hname⟩ : ∃ component, mtLoadLabeledComponent
      { nestedRepos with rootName := "app".toList } ⟨"/w".toList, [], []⟩ "@r//:mid".toList =
        .ok (⟨"/w/r".toList, "r".toList, []⟩, component) ∧ component.name = "mid".toList :=
    ⟨_, rfl, rfl⟩
  have hunquoted : Unquoted "app".toList := by simp [Unquoted]
  have h := (@from_names_agree_iff _ _ _ _ [] _ _ _ hs hload).1.2 ⟨sameRepository_of_root rfl _, hunquoted⟩
  rw [hname] at h
  exact h

/-- The value that is written for `mid` is for a build that does not exist. -/
theorem nested_repo_unknown_build : ∃ setup ref gen,
    metatupGen 10 nestedRepos "app".toList [] = .ok (setup, ref, gen) ∧
      ∃ b ∈ gen, ("x".toList, fromText "app__s_lib".toList "out".toList) ∈ b.args ∧
        (∀ g ∈ gen, g.name ≠ "app__s_lib".toList) ∧
        b.depends = [{ build := "app__r_s_lib".toList, as := "lib".toList }] := by
  obtain ⟨gen, ⟨setup, ref, h⟩, heq⟩ : ∃ gen : Generated, (∃ setup ref,
        metatupGen 10 nestedRepos "app".toList [] = .ok (setup, ref, gen)) ∧
      (gen.map fun b => (b.name, b.args, b.depends)) = [
        ("app__r_s_lib".toList, [], []),
        ("app__r_mid".toList, [("x".toList, fromText "app__s_lib".toList "out".toList)],
          [{ build := "app__r_s_lib".toList, as := "lib".toList }]),
        ("app".toList, [], [{ build := "app__r_mid".toList, as := "mid".toList }])] := by
    refine ⟨_, ⟨_, _, rfl⟩, ?_⟩
    rfl
  have hmid : ("app__r_mid".toList, [("x".toList, fromText "app__s_lib".toList "out".toList)],
      [({ build := "app__r_s_lib".toList, as := "lib".toList } : TupbuildDep)]) ∈
        gen.map fun b => (b.name, b.args, b.depends) := by
    rw [heq]
    exact .tail _ List.mem_cons_self
  obtain ⟨b, hb, hmid⟩ := List.mem_map.1 hmid
  obtain ⟨-, hargs, hdepends⟩ : _ ∧ b.args = _ ∧ b.depends = _ := by simpa using hmid
  refine ⟨setup, ref, gen, h, b, hb, hargs ▸ List.mem_singleton_self _, ?_, hdepends⟩
  intro g hg hname
  have hmem : g.name ∈ (gen.map fun b => (b.name, b.args, b.depends)).map Prod.fst :=
    List.mem_map_of_mem (List.mem_map_of_mem hg)
  rw [heq, hname] at hmem
  revert hmem
  decide

end Metatup
