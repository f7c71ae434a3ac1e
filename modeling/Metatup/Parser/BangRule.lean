import Metatup.Parser.ArgMap

/-!
# Rules that use a !-macro

A !-macro is defined for the whole Tupfile or, within a rules block, for the function that is being
executed. A rule looks for its macro at four places, of which only the last looks at the definitions of
the function: the decision about `foreach`, the macro for the extension of an input, the macro for no
inputs, and the macro itself.

* `executeRule`: a rule, with the four searches as a parameter.
* `codeLookups`, `uniformLookups`: the searches as they are, and all like the last.
* `executeRule_uniform_iff`: when they make no difference.
-/

namespace Metatup

/-! ### Definitions -/

/-- Source: `parser.c` `struct bang_rule` -/
structure BangRule where
  foreach : Bool
  input : Option Text
  command : Text
  outputs : List Text
  extraOutputs : List Text
  deriving DecidableEq

/-- A tree of definitions. -/
abbrev BangTree := Text → Option BangRule

/-- The trees that a rule can see: that of the Tupfile and those of the functions that are being
executed, the innermost first. -/
structure BangScope where
  bangRoot : BangTree := fun _ => none
  frames : List BangTree := []

/-- The definition that belongs to the innermost function. -/
def BangScope.local (s : BangScope) (name : Text) : Option BangRule := s.frames.head?.bind (· name)

/-- Source: `parser.c` `find_bang_rule` -/
def findBangRule (s : BangScope) (name : Text) : Option BangRule :=
  match s.local name with
  | some br => some br
  | none => s.bangRoot name

/-- Add a definition, or replace or remove one. -/
def BangTree.set (t : BangTree) (name : Text) (br : Option BangRule) : BangTree :=
  fun n => if n = name then br else t n

/-- Change the tree that a definition goes to. Source: `parser.c` `parse_bang_definition`, `bang_root` -/
def BangScope.set (s : BangScope) (inRulesBlock : Bool) (name : Text) (br : Option BangRule) :
    BangScope :=
  match inRulesBlock, s.frames with
  | true, frame :: frames => { s with frames := frame.set name br :: frames }
  | _, _ => { s with bangRoot := s.bangRoot.set name br }

/-- The right side of a definition: another macro, or the parts of a rule. -/
inductive BangValue
  | alias (name : Text)
  | rule (input : Option Text) (command : Text) (outputs extraOutputs : List Text)

/-- The order-only inputs of a definition and whether it says `foreach`. -/
def bangInput : Option Text → Option (Bool × Option Text)
  | none => some (false, none)
  | some input =>
    let foreach := "foreach".toList.isPrefixOf input
    let input := if foreach then skipSpace (input.drop 7) else input
    match input with
    | [] => some (foreach, some [])
    | '|' :: rest => some (foreach, some (skipSpace rest))
    | _ => none

/-- Source: `parser.c` `parse_bang_definition`, once the text has been split -/
def parseBangDefinition (s : BangScope) (inRulesBlock : Bool) (name : Text) :
    BangValue → Option BangScope
  | .alias value =>
    -- an older definition is gone before the other macro is looked for
    let s := s.set inRulesBlock name none
    (findBangRule s value).map fun br => s.set inRulesBlock name (some br)
  | .rule input command outputs extraOutputs =>
    (bangInput input).map fun (foreach, input) =>
      s.set inRulesBlock name (some { foreach, input, command, outputs, extraOutputs })

/-- Source: `parser.c` `execute_function`, when the body begins -/
def BangScope.enter (s : BangScope) : BangScope := { s with frames := (fun _ => none) :: s.frames }

/-! ### Rules -/

/-- Source: `parser.h` `struct name_list_entry`, what the modelled functions read -/
structure NameListEntry where
  path : Text
  base : Option Text
  extlessbaselen : ℕ
  tent : Option TupId
  deriving DecidableEq

/-- Source: `parser.h` `struct rule`, what the modelled functions read -/
structure BangUse where
  foreach : Bool
  command : Text
  inputs : List NameListEntry
  emptyInput : Bool
  orderOnlyInputPaths : List Text
  bangOoInputs : List Text := []
  outputs : List Text
  bangExtraOutputs : List Text := []
  deriving DecidableEq

/-- The rule names a macro. -/
def BangUse.isBang (r : BangUse) : Bool := r.command.head? = some '!'

/-- A call of `do_rule`, with the macro whose definition was used. -/
structure DoRule where
  rule : BangUse
  bang : Option BangRule
  nl : List NameListEntry
  ext : Option Text
  deriving DecidableEq

/-- Which of the steps that are not modelled succeed. -/
structure RuleOutcomes where
  /-- `get_path_list` and `path_list_to_nl` for the inputs of a macro -/
  bangInputs : BangRule → List NameListEntry → Bool
  /-- `path_list_to_nl` for the order-only inputs of a rule -/
  orderOnly : List Text → List NameListEntry → Bool
  /-- `do_rule` -/
  doRule : DoRule → Bool

/-- The searches for a macro. -/
structure BangLookups where
  forForeach : Text → Option BangRule
  forExtension : Text → Option BangRule
  forEmpty : Text → Option BangRule
  forRule : Text → Option BangRule

/-- Source: `parser.c` `make_name_list_unique` -/
def makeNameListUnique : List TupId → List NameListEntry → List NameListEntry
  | _, [] => []
  | root, nle :: nl =>
    match nle.tent with
    | none => nle :: makeNameListUnique root nl
    | some tupid =>
      if tupid ∈ root then makeNameListUnique root nl
      else nle :: makeNameListUnique (tupid :: root) nl

/-- The extension of an input. Source: `parser.c` `execute_rule` -/
def NameListEntry.ext (nle : NameListEntry) : Option Text :=
  nle.base.bind fun base =>
    if nle.extlessbaselen ≠ base.length then some (base.drop (nle.extlessbaselen + 1)) else none

/-- Source: `parser.c` `parse_bang_rule_internal` -/
def parseBangRuleInternal (r : BangUse) (br : BangRule) : BangUse :=
  { r with
    command := br.command
    bangOoInputs := r.bangOoInputs ++ br.input.toList
    outputs := if r.outputs = [] then br.outputs else r.outputs
    bangExtraOutputs := r.bangExtraOutputs ++ br.extraOutputs }

/-- The definition that `parse_bang_rule` uses. -/
def parseBangRule (lookups : BangLookups) (command : Text) (ext : Option Text) : Option BangRule :=
  match ext.bind fun e => lookups.forExtension (command ++ '.' :: e) with
  | some br => some br
  | none => lookups.forRule command

/-- A macro that the rule names has been found, and its inputs have been. -/
def bangReady (out : RuleOutcomes) (r : BangUse) (bang : Option BangRule) (nl : List NameListEntry) :
    Bool :=
  if r.isBang then
    match bang with
    | some br => out.bangInputs br nl
    | none => false
  else true

/-- The rest of a rule, with these inputs, once its definition is known. -/
def runRule (out : RuleOutcomes) (r : BangUse) (bang : Option BangRule) (nl : List NameListEntry)
    (ext : Option Text) : List DoRule × Bool :=
  let rule := match bang with
    | some br => parseBangRuleInternal r br
    | none => r
  let call : DoRule := { rule, bang, nl, ext }
  ([call], out.doRule call)

/-- The rule for each input. -/
def foreachLoop (lookups : BangLookups) (out : RuleOutcomes) (r : BangUse) :
    List NameListEntry → List DoRule × Bool
  | [] => ([], true)
  | nle :: nl =>
    let bang := if r.isBang then parseBangRule lookups r.command nle.ext else none
    if bangReady out r bang [nle] = false then ([], false)
    else if out.orderOnly r.orderOnlyInputPaths [nle] = false then ([], false)
    else
      let (calls, ok) := runRule out r bang [nle] nle.ext
      if ok then
        let (rest, ok) := foreachLoop lookups out r nl
        (calls ++ rest, ok)
      else (calls, false)

/-- What becomes of a rule. -/
structure RuleRun where
  foreach : Bool
  calls : List DoRule
  ok : Bool
  deriving DecidableEq

/-- Whether the rule is run for each input. -/
def ruleForeach (lookups : BangLookups) (r : BangUse) : Bool :=
  r.foreach || (r.isBang && ((lookups.forForeach r.command).map BangRule.foreach).getD false)

/-- Source: `parser.c` `execute_rule` -/
def executeRule (lookups : BangLookups) (out : RuleOutcomes) (r : BangUse) : RuleRun :=
  let inputs := makeNameListUnique [] r.inputs
  let foreach := ruleForeach lookups r
  if foreach then
    let (calls, ok) := foreachLoop lookups out r inputs
    { foreach, calls, ok }
  else if out.orderOnly r.orderOnlyInputPaths inputs = false then { foreach, calls := [], ok := false }
  else if inputs ≠ [] ∨ r.emptyInput then
    let bang := if r.isBang then parseBangRule lookups r.command none else none
    if bangReady out r bang [] = false then
      { foreach, calls := [], ok := false }
    else
      let (calls, ok) := runRule out r bang inputs none
      { foreach, calls, ok }
  else if r.isBang then
    -- `parse_empty_bang_rule`
    match lookups.forEmpty (r.command ++ ".EMPTY".toList) with
    | none => { foreach, calls := [], ok := true }
    | some br =>
      if out.bangInputs br [] = false then { foreach, calls := [], ok := false }
      else
        let (calls, ok) := runRule out r (some br) inputs none
        { foreach, calls, ok }
  else { foreach, calls := [], ok := true }

/-- The searches as they are. -/
def codeLookups (s : BangScope) : BangLookups where
  forForeach := s.bangRoot
  forExtension := s.bangRoot
  forEmpty := s.bangRoot
  forRule := findBangRule s

/-- All searches prefer the definition of the function. -/
def uniformLookups (s : BangScope) : BangLookups where
  forForeach := findBangRule s
  forExtension := findBangRule s
  forEmpty := findBangRule s
  forRule := findBangRule s

/-! ### When the searches agree -/

/-- A macro is found for the input. -/
def HasMacro (s : BangScope) (r : BangUse) (nle : NameListEntry) : Prop :=
  findBangRule s r.command ≠ none ∨ ∃ e ∈ nle.ext, findBangRule s (r.command ++ '.' :: e) ≠ none

/-- The rule, or the macro that it should use, says `foreach`. -/
def MeansForeach (s : BangScope) (r : BangUse) : Prop :=
  r.foreach = true ∨ ∃ br, findBangRule s r.command = some br ∧ br.foreach = true

/-- What the function defines is not needed where it is not looked for. -/
structure MacroAgree (s : BangScope) (r : BangUse) : Prop where
  /-- A macro of the function says `foreach` like that of the Tupfile, if the rule does not. -/
  foreach : ∀ br, s.local r.command = some br →
    r.foreach = true ∨ br.foreach = ((s.bangRoot r.command).map BangRule.foreach).getD false
  /-- A macro of the function for the extension of an input is what is found otherwise. -/
  extension : MeansForeach s r → ∀ pre nle post, makeNameListUnique [] r.inputs = pre ++ nle :: post →
    (∀ nle' ∈ pre, HasMacro s r nle') → ∀ e ∈ nle.ext, ∀ br,
      s.local (r.command ++ '.' :: e) = some br →
        s.bangRoot (r.command ++ '.' :: e) = some br ∨
          s.bangRoot (r.command ++ '.' :: e) = none ∧ findBangRule s r.command = some br
  /-- A macro of the function for no inputs is that of the Tupfile. -/
  empty : ¬ MeansForeach s r → makeNameListUnique [] r.inputs = [] → r.emptyInput = false →
    ∀ br, s.local (r.command ++ ".EMPTY".toList) = some br →
      s.bangRoot (r.command ++ ".EMPTY".toList) = some br

section

variable {s : BangScope} {r : BangUse}

theorem findBangRule_of_some {name : Text} {br : BangRule} (h : s.local name = some br) :
    findBangRule s name = some br := by
  unfold findBangRule
  rw [h]

theorem findBangRule_of_none {name : Text} (h : s.local name = none) :
    findBangRule s name = s.bangRoot name := by
  unfold findBangRule
  rw [h]

theorem bangRoot_eq_iff (name : Text) :
    s.bangRoot name = findBangRule s name ↔ ∀ br, s.local name = some br → s.bangRoot name = some br := by
  rcases h : s.local name with _ | br
  · rw [findBangRule_of_none h]
    exact ⟨fun _ _ heq => (nomatch heq), fun _ => rfl⟩
  · rw [findBangRule_of_some h]
    refine ⟨fun heq br' hbr => ?_, fun hall => hall br rfl⟩
    rw [heq]
    exact hbr

theorem parseBangRule_eq_iff (command : Text) (ext : Option Text) :
    parseBangRule (codeLookups s) command ext = parseBangRule (uniformLookups s) command ext ↔
      ∀ e ∈ ext, ∀ br, s.local (command ++ '.' :: e) = some br →
        s.bangRoot (command ++ '.' :: e) = some br ∨
          s.bangRoot (command ++ '.' :: e) = none ∧ findBangRule s command = some br := by
  rcases ext with _ | e
  · exact ⟨fun _ e he => (nomatch he), fun _ => rfl⟩
  have hcode : parseBangRule (codeLookups s) command (some e) =
      match s.bangRoot (command ++ '.' :: e) with
      | some br => some br
      | none => findBangRule s command := rfl
  have huniform : parseBangRule (uniformLookups s) command (some e) =
      match findBangRule s (command ++ '.' :: e) with
      | some br => some br
      | none => findBangRule s command := rfl
  rw [hcode, huniform]
  rcases hlocal : s.local (command ++ '.' :: e) with _ | br
  · rw [findBangRule_of_none hlocal]
    refine ⟨fun _ e' he' br hbr => ?_, fun _ => rfl⟩
    cases he'
    rw [hlocal] at hbr
    cases hbr
  · rw [findBangRule_of_some hlocal]
    constructor
    · rintro heq e' he' br' hbr
      cases he'
      rw [hlocal] at hbr
      cases hbr
      rcases hroot : s.bangRoot (command ++ '.' :: e) with _ | br'
      · rw [hroot] at heq
        exact .inr ⟨rfl, heq⟩
      · rw [hroot] at heq
        exact .inl heq
    · intro hall
      rcases hall e rfl br hlocal with hroot | ⟨hroot, hfind⟩
      · rw [hroot]
      · rw [hroot]
        exact hfind

theorem parseBangRule_uniform_ne_none (nle : NameListEntry) :
    parseBangRule (uniformLookups s) r.command nle.ext ≠ none ↔ HasMacro s r nle := by
  unfold HasMacro parseBangRule uniformLookups
  rcases nle.ext with _ | e
  · simp
  · rcases hfind : findBangRule s (r.command ++ '.' :: e) with _ | br
    · simp [hfind]
    · simp [hfind]

theorem ruleForeach_code (hbang : r.isBang = true) : ruleForeach (codeLookups s) r =
    (r.foreach || ((s.bangRoot r.command).map BangRule.foreach).getD false) := by
  unfold ruleForeach
  rw [hbang, Bool.true_and]
  rfl

theorem ruleForeach_uniform (hbang : r.isBang = true) : ruleForeach (uniformLookups s) r =
    (r.foreach || ((findBangRule s r.command).map BangRule.foreach).getD false) := by
  unfold ruleForeach
  rw [hbang, Bool.true_and]
  rfl

theorem ruleForeach_uniform_iff (hbang : r.isBang = true) :
    ruleForeach (uniformLookups s) r = true ↔ MeansForeach s r := by
  rw [ruleForeach_uniform hbang, Bool.or_eq_true]
  refine or_congr_right ?_
  rcases findBangRule s r.command with _ | br
  · simp
  · simp

theorem ruleForeach_eq_iff (hbang : r.isBang = true) :
    ruleForeach (codeLookups s) r = ruleForeach (uniformLookups s) r ↔
      ∀ br, s.local r.command = some br →
        r.foreach = true ∨ br.foreach = ((s.bangRoot r.command).map BangRule.foreach).getD false := by
  rw [ruleForeach_code hbang, ruleForeach_uniform hbang]
  rcases hlocal : s.local r.command with _ | br
  · rw [findBangRule_of_none hlocal]
    exact ⟨fun _ _ heq => (nomatch heq), fun _ => rfl⟩
  · rw [findBangRule_of_some hlocal]
    rcases hforeach : r.foreach with _ | _
    · rw [Bool.false_or, Bool.false_or]
      refine ⟨fun heq br' hbr => ?_, fun hall => ?_⟩
      · cases hbr
        exact .inr heq.symm
      · rcases hall br rfl with h | h
        · cases h
        · exact h.symm
    · exact ⟨fun _ _ _ => .inl rfl, fun _ => rfl⟩

/-- Every step succeeds. -/
def allSucceed : RuleOutcomes where
  bangInputs _ _ := true
  orderOnly _ _ := true
  doRule _ := true

theorem foreachLoop_cons (lookups : BangLookups) (out : RuleOutcomes) (hbang : r.isBang = true)
    (nle : NameListEntry) (nl : List NameListEntry) :
    foreachLoop lookups out r (nle :: nl) =
      let bang := parseBangRule lookups r.command nle.ext
      if bangReady out r bang [nle] = false then ([], false)
      else if out.orderOnly r.orderOnlyInputPaths [nle] = false then ([], false)
      else if (runRule out r bang [nle] nle.ext).2 then
        ((runRule out r bang [nle] nle.ext).1 ++ (foreachLoop lookups out r nl).1,
          (foreachLoop lookups out r nl).2)
      else ((runRule out r bang [nle] nle.ext).1, false) := by
  rw [foreachLoop, hbang]
  rfl

/-- When every step succeeds, an input without a macro is where the loop stops. -/
theorem foreachLoop_allSucceed (lookups : BangLookups) (hbang : r.isBang = true) (nle : NameListEntry)
    (nl : List NameListEntry) : foreachLoop lookups allSucceed r (nle :: nl) =
      match parseBangRule lookups r.command nle.ext with
      | none => ([], false)
      | some br => ({ rule := parseBangRuleInternal r br, bang := some br, nl := [nle], ext := nle.ext } ::
          (foreachLoop lookups allSucceed r nl).1, (foreachLoop lookups allSucceed r nl).2) := by
  rw [foreachLoop_cons lookups allSucceed hbang]
  rcases parseBangRule lookups r.command nle.ext with _ | br
  · simp [bangReady, hbang]
  · simp [bangReady, hbang, allSucceed, runRule]

theorem agree_of_foreachLoop (hbang : r.isBang = true) {nl : List NameListEntry}
    (h : foreachLoop (codeLookups s) allSucceed r nl = foreachLoop (uniformLookups s) allSucceed r nl) :
    ∀ pre nle post, nl = pre ++ nle :: post → (∀ nle' ∈ pre, HasMacro s r nle') →
      parseBangRule (codeLookups s) r.command nle.ext =
        parseBangRule (uniformLookups s) r.command nle.ext := by
  induction nl with
  | nil =>
    intro pre nle post heq
    exact absurd heq.symm (by simp)
  | cons nle nl ih =>
    rw [foreachLoop_allSucceed _ hbang, foreachLoop_allSucceed _ hbang] at h
    have hhead : parseBangRule (codeLookups s) r.command nle.ext =
        parseBangRule (uniformLookups s) r.command nle.ext := by
      rcases hcode : parseBangRule (codeLookups s) r.command nle.ext with _ | br
      · rcases huniform : parseBangRule (uniformLookups s) r.command nle.ext with _ | br'
        · rfl
        · rw [hcode, huniform] at h
          cases congrArg Prod.fst h
      · rcases huniform : parseBangRule (uniformLookups s) r.command nle.ext with _ | br'
        · rw [hcode, huniform] at h
          cases congrArg Prod.fst h
        · rw [hcode, huniform] at h
          exact congrArg DoRule.bang (List.cons.inj (congrArg Prod.fst h)).1
    intro pre nle' post heq hpre
    rcases pre with _ | ⟨first, pre⟩
    · obtain ⟨rfl, -⟩ := List.cons.inj heq
      exact hhead
    · obtain ⟨rfl, hnl⟩ := List.cons.inj heq
      obtain ⟨hfirst, hpre⟩ := List.forall_mem_cons.1 hpre
      obtain ⟨br, hbr⟩ := Option.ne_none_iff_exists'.1
        ((parseBangRule_uniform_ne_none nle).2 hfirst)
      rw [hhead, hbr] at h
      obtain ⟨hcalls, hok⟩ := Prod.mk.inj h
      exact ih (Prod.ext (List.cons.inj hcalls).2 hok) pre nle' post hnl hpre

theorem foreachLoop_of_agree (hbang : r.isBang = true) (out : RuleOutcomes) {nl : List NameListEntry}
    (h : ∀ pre nle post, nl = pre ++ nle :: post → (∀ nle' ∈ pre, HasMacro s r nle') →
      parseBangRule (codeLookups s) r.command nle.ext =
        parseBangRule (uniformLookups s) r.command nle.ext) :
    foreachLoop (codeLookups s) out r nl = foreachLoop (uniformLookups s) out r nl := by
  induction nl with
  | nil => rfl
  | cons nle nl ih =>
    have hhead := h [] nle nl rfl (fun _ hmem => absurd hmem List.not_mem_nil)
    rw [foreachLoop_cons _ out hbang, foreachLoop_cons _ out hbang, hhead]
    by_cases hfound : HasMacro s r nle
    · have hrest := ih fun pre nle' post heq hpre => h (nle :: pre) nle' post (congrArg (nle :: ·) heq)
        (List.forall_mem_cons.2 ⟨hfound, hpre⟩)
      rw [hrest]
    · have hnone : parseBangRule (uniformLookups s) r.command nle.ext = none := by
        by_contra hsome
        exact hfound ((parseBangRule_uniform_ne_none nle).1 hsome)
      rw [hnone]
      simp [bangReady, hbang]

theorem executeRule_foreach (lookups : BangLookups) (out : RuleOutcomes) (r : BangUse) :
    (executeRule lookups out r).foreach = ruleForeach lookups r := by
  unfold executeRule
  dsimp only
  repeat' split
  all_goals rfl

/-- A rule for each input. -/
theorem executeRule_of_foreach {lookups : BangLookups} (out : RuleOutcomes)
    (h : ruleForeach lookups r = true) : executeRule lookups out r =
      { foreach := true
        calls := (foreachLoop lookups out r (makeNameListUnique [] r.inputs)).1
        ok := (foreachLoop lookups out r (makeNameListUnique [] r.inputs)).2 } := by
  unfold executeRule
  rw [h]
  rfl

/-- A rule for all inputs. -/
theorem executeRule_of_inputs {lookups : BangLookups} (out : RuleOutcomes) (hbang : r.isBang = true)
    (h : ruleForeach lookups r = false)
    (hinputs : makeNameListUnique [] r.inputs ≠ [] ∨ r.emptyInput = true) :
    executeRule lookups out r =
      if out.orderOnly r.orderOnlyInputPaths (makeNameListUnique [] r.inputs) = false then
        { foreach := false, calls := [], ok := false }
      else if bangReady out r (lookups.forRule r.command) [] = false then
        { foreach := false, calls := [], ok := false }
      else
        { foreach := false
          calls := (runRule out r (lookups.forRule r.command) (makeNameListUnique [] r.inputs) none).1
          ok := (runRule out r (lookups.forRule r.command) (makeNameListUnique [] r.inputs) none).2 } := by
  unfold executeRule
  rw [h, hbang]
  dsimp only
  rw [if_neg Bool.false_ne_true, if_pos hinputs]
  rfl

/-- A rule whose input patterns match nothing. -/
theorem executeRule_of_empty {lookups : BangLookups} (out : RuleOutcomes) (hbang : r.isBang = true)
    (h : ruleForeach lookups r = false) (hnil : makeNameListUnique [] r.inputs = [])
    (hempty : r.emptyInput = false) :
    executeRule lookups out r =
      if out.orderOnly r.orderOnlyInputPaths [] = false then
        { foreach := false, calls := [], ok := false }
      else match lookups.forEmpty (r.command ++ ".EMPTY".toList) with
        | none => { foreach := false, calls := [], ok := true }
        | some br =>
          if out.bangInputs br [] = false then { foreach := false, calls := [], ok := false }
          else { foreach := false, calls := (runRule out r (some br) [] none).1
                 ok := (runRule out r (some br) [] none).2 } := by
  unfold executeRule
  rw [h, hbang, hnil, hempty]
  rfl

theorem empty_bangs {lookups : BangLookups} (hbang : r.isBang = true)
    (h : ruleForeach lookups r = false) (hnil : makeNameListUnique [] r.inputs = [])
    (hempty : r.emptyInput = false) : (executeRule lookups allSucceed r).calls.map DoRule.bang =
      (lookups.forEmpty (r.command ++ ".EMPTY".toList)).toList.map some := by
  rw [executeRule_of_empty _ hbang h hnil hempty]
  rcases lookups.forEmpty (r.command ++ ".EMPTY".toList) with _ | br
  · rfl
  · rfl

theorem foreachLoop_of_not_bang (lookups lookups' : BangLookups) (out : RuleOutcomes)
    (hbang : r.isBang = false) (nl : List NameListEntry) :
    foreachLoop lookups out r nl = foreachLoop lookups' out r nl := by
  induction nl with
  | nil => rfl
  | cons nle nl ih =>
    rw [foreachLoop, foreachLoop, hbang, ih]
    rfl

theorem executeRule_of_not_bang (lookups lookups' : BangLookups) (out : RuleOutcomes)
    (hbang : r.isBang = false) : executeRule lookups out r = executeRule lookups' out r := by
  have hflag : ruleForeach lookups r = ruleForeach lookups' r := by
    unfold ruleForeach
    rw [hbang, Bool.false_and, Bool.false_and]
  unfold executeRule
  rw [hflag, hbang]
  dsimp only
  rw [foreachLoop_of_not_bang lookups lookups' out hbang (makeNameListUnique [] r.inputs)]
  rfl

/-- The definitions of a function are used like those of the Tupfile exactly when none is needed where
it is not looked for. -/
theorem executeRule_uniform_iff (s : BangScope) (r : BangUse) :
    (∀ out, executeRule (codeLookups s) out r = executeRule (uniformLookups s) out r) ↔
      (r.isBang = true → MacroAgree s r) := by
  constructor
  · intro h hbang
    have hrun := h allSucceed
    have hflag : ruleForeach (codeLookups s) r = ruleForeach (uniformLookups s) r := by
      rw [← executeRule_foreach _ allSucceed, hrun, executeRule_foreach]
    refine ⟨(ruleForeach_eq_iff hbang).1 hflag, ?_, ?_⟩
    · intro hmeans pre nle post heq hpre
      have huniform := (ruleForeach_uniform_iff hbang).2 hmeans
      rw [executeRule_of_foreach _ (hflag.trans huniform), executeRule_of_foreach _ huniform] at hrun
      have hloop := Prod.ext (congrArg RuleRun.calls hrun) (congrArg RuleRun.ok hrun)
      exact (parseBangRule_eq_iff r.command nle.ext).1
        (agree_of_foreachLoop hbang hloop pre nle post heq hpre)
    · intro hmeans hnil hempty
      have huniform : ruleForeach (uniformLookups s) r = false := by
        rw [← Bool.not_eq_true, ruleForeach_uniform_iff hbang]
        exact hmeans
      have hcode := empty_bangs hbang (hflag.trans huniform) hnil hempty
      rw [hrun, empty_bangs hbang huniform hnil hempty] at hcode
      have hsame := congrArg List.head? ((List.map_inj_right fun _ _ => Option.some.inj).1 hcode)
      rw [Option.head?_toList, Option.head?_toList] at hsame
      exact (bangRoot_eq_iff _).1 hsame.symm
  · intro h out
    rcases hbang : r.isBang with _ | _
    · exact executeRule_of_not_bang _ _ out hbang
    have hagree := h hbang
    have hflag := (ruleForeach_eq_iff hbang).2 hagree.foreach
    rcases huniform : ruleForeach (uniformLookups s) r with _ | _
    · have hmeans : ¬ MeansForeach s r := by
        rw [← ruleForeach_uniform_iff hbang, huniform]
        exact Bool.false_ne_true
      by_cases hinputs : makeNameListUnique [] r.inputs ≠ [] ∨ r.emptyInput = true
      · rw [executeRule_of_inputs out hbang (hflag.trans huniform) hinputs,
          executeRule_of_inputs out hbang huniform hinputs]
        rfl
      · rw [not_or, not_not, Bool.not_eq_true] at hinputs
        obtain ⟨hnil, hempty⟩ := hinputs
        have hsame : (codeLookups s).forEmpty (r.command ++ ".EMPTY".toList) =
            (uniformLookups s).forEmpty (r.command ++ ".EMPTY".toList) :=
          (bangRoot_eq_iff _).2 (hagree.empty hmeans hnil hempty)
        rw [executeRule_of_empty out hbang (hflag.trans huniform) hnil hempty,
          executeRule_of_empty out hbang huniform hnil hempty, hsame]
    · have hmeans := (ruleForeach_uniform_iff hbang).1 huniform
      have hloop := foreachLoop_of_agree hbang out fun pre nle post heq hpre =>
        (parseBangRule_eq_iff r.command nle.ext).2 (hagree.extension hmeans pre nle post heq hpre)
      rw [executeRule_of_foreach out (hflag.trans huniform), executeRule_of_foreach out huniform, hloop]

end

/-- The inputs `a.c` and `b.c` for the macro `!cc`. -/
def compileBoth : BangUse where
  foreach := false
  command := "!cc".toList
  inputs := [
    { path := "a.c".toList, base := some "a.c".toList, extlessbaselen := 1, tent := some 2 },
    { path := "b.c".toList, base := some "b.c".toList, extlessbaselen := 1, tent := some 3 }]
  emptyInput := false
  orderOnlyInputPaths := []
  outputs := []

/-- A `foreach` that a rules block of a function defines is not seen. -/
theorem local_foreach_lost : ∃ s,
    parseBangDefinition (BangScope.enter {}) true "!cc".toList
      (.rule (some "foreach".toList) "cc -c %f -o %o".toList ["%B.o".toList] []) = some s ∧
    ¬ ∀ out, executeRule (codeLookups s) out compileBoth = executeRule (uniformLookups s) out compileBoth := by
  refine ⟨_, rfl, fun h => ?_⟩
  have hforeach := congrArg RuleRun.foreach (h allSucceed)
  rw [executeRule_foreach, executeRule_foreach] at hforeach
  exact absurd hforeach (by decide)

end Metatup
