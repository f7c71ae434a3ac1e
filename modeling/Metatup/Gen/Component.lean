import Metatup.Parser.Frame

/-!
# Components

The components of the MetaTup files, and what `tup gen` computes from one of them and its arguments
alone: which dependencies are enabled, with which arguments, where their labels lead, and what their
builds are called. A character of a text is a byte.

The files that `mt_load_file` reads and the directories that `metatup_repo_materialize` gives the
repositories are part of the environment.

* `mtApplyBinds`, `mtDepEnabled`: the arguments and the conditions.
* `mtLoadLabeledComponent`: where a label leads.
* `mtMakeDepBuildName`: the name of the build of a component.
-/

namespace Metatup

/-! ### Keys and values -/

/-- A list of `struct mt_kv`. -/
abbrev Kvs := List (Text × Text)

/-- Source: `metatup.c` `mt_get_kv` -/
def mtGetKv (kvs : Kvs) (key : Text) : Option Text := (kvs.find? (·.1 = key)).map Prod.snd

/-- Source: `metatup.c` `mt_set_kv` -/
def mtSetKv : Kvs → Text → Text → Kvs
  | [], key, value => [(key, value)]
  | kv :: kvs, key, value =>
    if kv.1 = key then (key, value) :: kvs else kv :: mtSetKv kvs key value

/-- Source: `metatup.c` `mt_clone_kvs` -/
def mtCloneKvs (src dst : Kvs) : Kvs := src.foldl (fun dst kv => mtSetKv dst kv.1 kv.2) dst

/-- Source: `metatup.c` `mt_clone_kvs_except` -/
def mtCloneKvsExcept (src dst : Kvs) (skipKey : Option Text) : Kvs :=
  mtCloneKvs (src.filter fun kv => skipKey ≠ some kv.1) dst

theorem mem_keys_mtSetKv {kvs : Kvs} {k key value : Text} :
    k ∈ (mtSetKv kvs key value).map Prod.fst ↔ k = key ∨ k ∈ kvs.map Prod.fst := by
  induction kvs with
  | nil => simp [mtSetKv]
  | cons kv kvs ih =>
    unfold mtSetKv
    split
    · next h =>
      rw [List.map_cons, List.map_cons, List.mem_cons, List.mem_cons, h, or_self_left]
    · rw [List.map_cons, List.map_cons, List.mem_cons, List.mem_cons, ih, or_left_comm]

theorem nodup_keys_mtSetKv {kvs : Kvs} (h : (kvs.map Prod.fst).Nodup) (key value : Text) :
    ((mtSetKv kvs key value).map Prod.fst).Nodup := by
  induction kvs with
  | nil => simp [mtSetKv]
  | cons kv kvs ih =>
    rw [List.map_cons, List.nodup_cons] at h
    unfold mtSetKv
    split
    · next heq =>
      rw [List.map_cons, List.nodup_cons]
      exact ⟨heq ▸ h.1, h.2⟩
    · next hne =>
      rw [List.map_cons, List.nodup_cons, mem_keys_mtSetKv, not_or]
      exact ⟨⟨hne, h.1⟩, ih h.2⟩

theorem mem_keys_mtCloneKvs {src dst : Kvs} {k : Text} :
    k ∈ (mtCloneKvs src dst).map Prod.fst ↔ k ∈ src.map Prod.fst ∨ k ∈ dst.map Prod.fst := by
  induction src generalizing dst with
  | nil => simp [mtCloneKvs]
  | cons kv src ih =>
    have hstep : mtCloneKvs (kv :: src) dst = mtCloneKvs src (mtSetKv dst kv.1 kv.2) := rfl
    rw [hstep, ih, mem_keys_mtSetKv, List.map_cons, List.mem_cons, or_left_comm, or_assoc]

theorem nodup_keys_mtCloneKvs (src : Kvs) {dst : Kvs} (h : (dst.map Prod.fst).Nodup) :
    ((mtCloneKvs src dst).map Prod.fst).Nodup := by
  induction src generalizing dst with
  | nil => exact h
  | cons kv src ih => exact ih (nodup_keys_mtSetKv h kv.1 kv.2)

/-- Source: `metatup.c` `mt_is_from_expr_value` -/
def mtIsFromExprValue (value : Text) : Bool := "$(from".toList.isPrefixOf (skipSpace value)

/-- Source: `metatup.c` `mt_clone_non_from_kvs` -/
def mtCloneNonFromKvs (src dst : Kvs) : Kvs :=
  mtCloneKvs (src.filter fun kv => !mtIsFromExprValue kv.2) dst

/-! ### The files -/

/-- Source: `metatup.c` `struct mt_bind` -/
structure MtBind where
  fromKeys : List Text := []
  toKey : Text
  value : Option Text := none
  caseKvs : Kvs := []
  defaultCase : Option Text := none

/-- Source: `metatup.c` `struct mt_condition` -/
inductive MtCondition
  | profileEnabled (profile : Text)
  | argsEqual (args : Kvs)
  | and (children : List MtCondition)
  | or (children : List MtCondition)
  | not (children : List MtCondition)

/-- Source: `metatup.c` `struct mt_dep` -/
structure MtDep where
  name : Text
  binds : List MtBind := []
  requireIf : List MtCondition := []

/-- Source: `metatup.c` `struct mt_component`; `mt_parse_components` rejects a component that has a
tupfile without a function or the other way round. -/
structure MtComponent where
  name : Text
  /-- The tupfile and the function. -/
  tupfile : Option (Text × Text) := none
  binds : List MtBind := []
  deps : List MtDep := []

/-- Source: `metatup.c` `struct mt_profile` -/
structure MtProfile where
  name : Text
  set : Kvs := []

/-- Source: `metatup.c` `struct mt_file` -/
structure MtFile where
  defaults : Kvs := []
  autoCompiledb : Option Bool := none
  profiles : List MtProfile := []
  components : List MtComponent := []

/-- Source: `metatup.c` `mt_find_component` -/
def mtFindComponent (mf : MtFile) (name : Text) : Option MtComponent :=
  mf.components.find? (·.name = name)

/-- Source: `metatup.c` `mt_find_profile` -/
def mtFindProfile (mf : MtFile) (name : Text) : Option MtProfile := mf.profiles.find? (·.name = name)

/-- Source: `metatup.c` `struct mt_state`, with the name of the root build and without the builds;
and what is read outside of the program. -/
structure MtEnv where
  cwd : Text := []
  root : Text := []
  profile : Option Text := none
  rootName : Text
  existingTb : Option TupbuildFile := none
  /-- Source: `metatup.c` `mt_load_file` -/
  loadFile : Text → Except Text MtFile
  /-- Source: `metatup_repo.c` `metatup_repo_materialize` -/
  materialize : Text → Text → Except Text Text

/-- Where a component is: the directory of its repository, the same relative to the root, and its
package. -/
structure MtContext where
  repoRootAbs : Text
  repoRootRel : Text
  package : Text
  deriving DecidableEq

/-! ### Conditions -/

/-- Source: `metatup.c` `mt_is_truthy` -/
def mtIsTruthy (value : Option Text) : Bool :=
  match value with
  | none => false
  | some value => value ∉ ["", "0", "false", "False", "n", "no"].map String.toList

mutual

/-- Source: `metatup.c` `mt_eval_condition` -/
def mtEvalCondition (args : Kvs) : MtCondition → Bool
  | .profileEnabled profile => mtIsTruthy (mtGetKv args profile)
  | .argsEqual kvs => kvs.all fun kv => mtGetKv args kv.1 = some kv.2
  | .and children => mtEvalAll args children
  | .or children => mtEvalAny args children
  | .not [child] => !mtEvalCondition args child
  | .not _ => false

/-- The loop over the children of an `and`. -/
def mtEvalAll (args : Kvs) : List MtCondition → Bool
  | [] => true
  | child :: children => mtEvalCondition args child && mtEvalAll args children

/-- The loop over the children of an `or`. -/
def mtEvalAny (args : Kvs) : List MtCondition → Bool
  | [] => false
  | child :: children => mtEvalCondition args child || mtEvalAny args children

end

/-- Source: `metatup.c` `mt_dep_enabled` -/
def mtDepEnabled (args : Kvs) (dep : MtDep) : Bool :=
  dep.requireIf.isEmpty || mtEvalAny args dep.requireIf

/-! ### Labels -/

/-- Source: `metatup.c` `struct mt_label` -/
structure MtLabel where
  repo : Option Text := none
  package : Text
  component : Text
  deriving DecidableEq

/-- The text before the first two slashes and the text from them on. Source: `strstr` -/
def splitSlashes : Text → Option (Text × Text)
  | '/' :: '/' :: s => some ([], '/' :: '/' :: s)
  | c :: s => (splitSlashes s).map fun (before, rest) => (c :: before, rest)
  | [] => none

/-- The text before the first `c` and the text after it. Source: `strchr` -/
def splitAtChar (c : Char) : Text → Option (Text × Text)
  | [] => none
  | d :: s => if d = c then some ([], s) else
      (splitAtChar c s).map fun (before, rest) => (d :: before, rest)

/-- The label without its repository. -/
def mtParsePackage (repo : Option Text) (currentPackage : Text) : Text → Option MtLabel
  | '/' :: '/' :: s =>
    match splitAtChar ':' s with
    | some (package, component) =>
      if component = [] then none else some { repo, package, component }
    | none => none
  | ':' :: component =>
    if component = [] then none else some { repo, package := currentPackage, component }
  | component => some { repo, package := currentPackage, component }

/-- Source: `metatup.c` `mt_parse_label` -/
def mtParseLabel (text currentPackage : Text) : Option MtLabel :=
  match text with
  | '@' :: s =>
    match splitSlashes s with
    | some (repo, rest) => if repo = [] then none else mtParsePackage (some repo) currentPackage rest
    | none => none
  | text => mtParsePackage none currentPackage text

/-- The text of an invalid label. -/
def invalidLabel : Text := "invalid MetaTup label".toList

/-! ### Names -/

/-- Source: `metatup.c` `mt_join` -/
def mtJoin (a b : Text) : Text := a ++ '/' :: b

/-- The names after the common ones. -/
def dropCommon : List Text → List Text → List Text × List Text
  | a :: as, b :: bs => if a = b then dropCommon as bs else (a :: as, b :: bs)
  | as, bs => (as, bs)

/-- Source: `metatup.c` `mt_relpath` -/
def mtRelpath (fromDir toPath : Text) : Text :=
  let (up, down) := dropCommon (namesOf fromDir) (namesOf toPath)
  if up = [] ∧ down = [] then ['.'] else joinNames (up.map (fun _ => dotdot) ++ down)

/-- The path of a repository relative to another, which is empty when they are the same. -/
def mtRepoRel (fromDir toPath : Text) : Text :=
  let rel := mtRelpath fromDir toPath
  if rel = ['.'] then [] else rel

/-- Source: `isalnum` -/
def isAlnum (c : Char) : Bool :=
  ('0' ≤ c && c ≤ '9') || ('A' ≤ c && c ≤ 'Z') || ('a' ≤ c && c ≤ 'z')

/-- Source: `metatup.c` `mt_sanitize` -/
def mtSanitize (name : Text) : Text := name.map fun c => if isAlnum c then c else '_'

/-- The `location` of `mt_make_dep_build_name`. -/
def mtLocation (repoRootRel package : Text) : Text :=
  if repoRootRel ≠ [] ∧ package ≠ [] then mtJoin repoRootRel package
  else if repoRootRel ≠ [] then repoRootRel
  else if package ≠ [] then package
  else "root".toList

/-- Source: `metatup.c` `mt_make_dep_build_name` -/
def mtMakeDepBuildName (rootBuildName repoRootRel package component : Text) : Text :=
  rootBuildName ++ "__".toList ++ mtSanitize (mtLocation repoRootRel package) ++
    '_' :: mtSanitize component

/-! ### Expressions -/

/-- The value of a `$(from "label" "ret")` in a bind: the label becomes the name of a build. -/
def mtEvalFrom (env : MtEnv) (ctx : MtContext) (name : Text) : Option Text := do
  let (label, s) ← mtParseQuoted (skipSpace name)
  let (ret, s) ← mtParseQuoted (skipSpace s)
  if skipSpace s = [] then do
    let label ← mtParseLabel label ctx.package
    let rel ← mtFromRepoRel env ctx label
    some ("$(from \"".toList ++ mtMakeDepBuildName env.rootName rel label.package label.component ++
      "\" \"".toList ++ ret ++ "\")".toList)
  else none
where
  /-- Source: `metatup.c` `mt_parse_quoted_string` -/
  mtParseQuoted : Text → Option (Text × Text)
    | '"' :: s => scanQuoted s
    | _ => none
  /-- The repository of the label, relative to the current one. -/
  mtFromRepoRel (env : MtEnv) (ctx : MtContext) (label : MtLabel) : Option Text :=
    match label.repo with
    | none => some ctx.repoRootRel
    | some repo => (env.materialize ctx.repoRootAbs repo).toOption.map (mtRepoRel ctx.repoRootAbs)

/-- The value of what stands between `$(` and `)`. -/
def mtEvalRef (env : MtEnv) (ctx : MtContext) (args : Kvs) (name : Text) : Option Text :=
  match afterKeyword "from" name with
  | some (c :: s) =>
    if isSpace c then mtEvalFrom env ctx (c :: s) else some ((mtGetKv args name).getD [])
  | _ => some ((mtGetKv args name).getD [])

/-- The loop of `mt_eval_expr`; the fuel bounds the length of the text. -/
def mtEvalExprLoop (env : MtEnv) (ctx : MtContext) (args : Kvs) : ℕ → Text → Option Text
  | 0, _ => some []
  | _ + 1, [] => some []
  | fuel + 1, '$' :: '(' :: body =>
    match splitAtChar ')' body with
    | none => none
    | some (name, rest) =>
      if 256 ≤ name.length then none
      else do
        let value ← mtEvalRef env ctx args name
        let out ← mtEvalExprLoop env ctx args fuel rest
        some (value ++ out)
  | fuel + 1, c :: s => (mtEvalExprLoop env ctx args fuel s).map (c :: ·)

/-- Source: `metatup.c` `mt_eval_expr` -/
def mtEvalExpr (env : MtEnv) (ctx : MtContext) (args : Kvs) (expr : Text) : Option Text :=
  mtEvalExprLoop env ctx args (expr.length + 1) expr

/-- The value of one bind in a scope. `mt_parse_binds` lets a bind without `from` have a default
case, which `mt_apply_binds` then cannot read; that is `none` like an expression that fails. -/
def mtBindValue (env : MtEnv) (ctx : MtContext) (scope : Kvs) (bind : MtBind) : Option Text :=
  if bind.caseKvs ≠ [] ∨ bind.defaultCase.isSome then do
    let key ← bind.fromKeys.head?
    match (mtGetKv scope key).bind (mtGetKv bind.caseKvs) with
    | some value => mtEvalExpr env ctx scope value
    | none => mtEvalExpr env ctx scope (bind.defaultCase.getD [])
  else
    match bind.value with
    | some value => mtEvalExpr env ctx scope value
    | none => do
      let key ← bind.fromKeys.head?
      some ((mtGetKv scope key).getD [])

/-- Source: `metatup.c` `mt_apply_binds`, from an empty `dst`. The scope is the arguments with the
binds so far. -/
def mtApplyBinds (env : MtEnv) (ctx : MtContext) (binds : List MtBind) (src : Kvs) : Option Kvs := do
  let (dst, _) ← binds.foldlM (fun (s : Kvs × Kvs) bind => do
    let value ← mtBindValue env ctx s.2 bind
    some (mtSetKv s.1 bind.toKey value, mtSetKv s.2 bind.toKey value)) ([], mtCloneKvs src [])
  some dst

/-! ### Instances -/

/-- A component with the arguments it is to be built with. -/
structure MtInstance where
  ctx : MtContext
  component : MtComponent
  args : Kvs

/-- Source: `metatup.c` `mt_load_labeled_component` -/
def mtLoadLabeledComponent (env : MtEnv) (ctx : MtContext) (labelText : Text) :
    Except Text (MtContext × MtComponent) :=
  match mtParseLabel labelText ctx.package with
  | none => .error invalidLabel
  | some label => do
    let target ← mtLabelRepo label
    let dir := if label.package = [] then target.1 else mtJoin target.1 label.package
    let meta_ := mtJoin dir "MetaTup.yaml".toList
    let mf ← env.loadFile meta_
    match mtFindComponent mf label.component with
    | some component =>
      .ok ({ repoRootAbs := target.1, repoRootRel := target.2, package := label.package }, component)
    | none => .error ("unable to find component '".toList ++ label.component ++ "' in ".toList ++ meta_)
where
  /-- The directory of the repository, and the same relative to the root. -/
  mtLabelRepo (label : MtLabel) : Except Text (Text × Text) :=
    match label.repo with
    | none => .ok (ctx.repoRootAbs, ctx.repoRootRel)
    | some repo => (env.materialize ctx.repoRootAbs repo).map fun path =>
        (path, mtRepoRel env.root path)

/-- The `effective_args` of a component. -/
def MtInstance.effectiveArgs (env : MtEnv) (inst : MtInstance) : Option Kvs :=
  if inst.component.binds = [] then some (mtCloneKvs inst.args [])
  else mtApplyBinds env inst.ctx inst.component.binds (mtCloneKvs inst.args [])

/-- The `dep_args` of a dependency. -/
def MtInstance.depArgs (env : MtEnv) (inst : MtInstance) (args : Kvs) (dep : MtDep) : Option Kvs :=
  if dep.binds = [] then some (mtCloneNonFromKvs args [])
  else mtApplyBinds env inst.ctx dep.binds args

/-- What `metatup_gen` prints when there is no other message. -/
def generationFailed : Text := "generation failed".toList

/-- The component a dependency leads to, with its arguments. -/
def MtInstance.depInstance (env : MtEnv) (inst : MtInstance) (args : Kvs) (dep : MtDep) :
    Except Text MtInstance :=
  match inst.depArgs env args dep with
  | none => .error generationFailed
  | some depArgs => (mtLoadLabeledComponent env inst.ctx dep.name).map fun (ctx, component) =>
      { ctx, component, args := depArgs }

/-- The name `mt_collect_component_builds` gives the build of a component. -/
def MtInstance.buildName (env : MtEnv) (inst : MtInstance) : Text :=
  mtMakeDepBuildName env.rootName inst.ctx.repoRootRel inst.ctx.package inst.component.name

/-- The last part of a label. Source: `metatup.c` `mt_expand_component_deps` -/
def mtAlias (label : Text) : Text := (label.reverse.takeWhile (· ≠ ':')).reverse

end Metatup
