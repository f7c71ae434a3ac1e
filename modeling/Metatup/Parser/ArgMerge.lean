import Metatup.Parser.ArgMap
import Mathlib.Data.List.Induction

/-!
# The values of an argument map

The entries of an argument map are merged one after another into a tree of variables. What a merge frees
before it copies it is lost.

* `ArgTarget`, `parseArgMapInto`: the parser, over whatever the entries are merged into.
* `VarSlots`: a tree of variables with the lengths and the modes, in which texts can be lost.
* `mergedValue`: what the occurrences of a key come to, read from left to right.
* `argMap_folded_iff`: the values are these exactly where no empty text is joined to another one.
-/

namespace Metatup

/-! ### The parser -/

/-- What the entries of a map are merged into. -/
structure ArgTarget (σ : Type) where
  /-- Source: `vardb.c` `vardb_init` -/
  init : σ
  hasFrame : Bool
  /-- Source: `parser.c` `vardb_apply_merge` -/
  keyed : σ → Text → Text → MergeMode → σ
  /-- Source: `parser.c` `merge_arg_frame`, for the arguments of the frame -/
  frame : σ → σ
  /-- Source: `parser.c` `merge_named_object_var`; there may be no such variable. -/
  object : Text → Option (σ → σ)
  /-- Source: `parser.c` `eval` -/
  eval : Text → Option Text

section

variable {σ τ : Type}

/-- The spread branch of `parse_arg_map`, after the mark. -/
def spreadInto (t : ArgTarget σ) (allowSpread : Bool) (s : Text) (args : σ) :
    Except ArgMapError (σ × Text) :=
  if s.head? = none ∨ s.head? = some ',' ∨ s.head? = some '}' then
    if !allowSpread then .error .bareSpread
    else .ok (if t.hasFrame then t.frame args else args, s)
  else do
    let (name, rest) ← parseObjectVarName s
    match t.object name with
    | some merge => .ok (merge args, rest)
    | none => .error (.unknownObject name)

/-- The branch of `parse_arg_map` for a key with a value. -/
def keyedInto (t : ArgTarget σ) (s : Text) (args : σ) : Except ArgMapError (σ × Text) := do
  let (mode, s) := parseMergeModePrefix s
  let (key, s) ← parseQuotedString (skipSpace s)
  match skipSpace s with
  | ':' :: s =>
    let (val, s) ← argValue (skipSpace s)
    match t.eval val with
    | some v => .ok (t.keyed args key v mode, s)
    | none => .error .eval
  | _ => .error .syntaxError

/-- One entry of the map. -/
def entryInto (t : ArgTarget σ) (allowSpread : Bool) (s : Text) (args : σ) :
    Except ArgMapError (σ × Text) :=
  if spreadMark.isPrefixOf s then spreadInto t allowSpread (s.drop 3) args else keyedInto t s args

/-- The loop of `parse_arg_map`, with `first` its `first_entry`. -/
def argMapLoopInto (t : ArgTarget σ) (allowSpread : Bool) :
    ℕ → Bool → Text → σ → Except ArgMapError (σ × Text)
  | 0, _, _, _ => .error .syntaxError
  | fuel + 1, first, s, args =>
    let s := skipSeparators s
    if s.head? = some '}' then .ok (args, s)
    else if allowSpread && first && t.hasFrame && !spreadMark.isPrefixOf s then .error .nestedMustBegin
    else
      match entryInto t allowSpread s args with
      | .error e => .error e
      | .ok (args, s) =>
        match skipSpace s with
        | '}' :: s => .ok (args, '}' :: s)
        | ',' :: s => argMapLoopInto t allowSpread fuel false s args
        | _ => .error .syntaxError

/-- Source: `parser.c` `parse_arg_map` -/
def parseArgMapInto (t : ArgTarget σ) (text : Text) (allowSpread : Bool) : Except ArgMapError σ :=
  match skipSpace text with
  | '{' :: s =>
    match argMapLoopInto t allowSpread (s.length + 1) true s t.init with
    | .error e => .error e
    | .ok (args, s) => if skipSpace (s.drop 1) = [] then .ok args else .error .syntaxError
  | _ => .error .syntaxError

/-- The operations of one target are those of another under `f`. -/
structure TargetHom (t : ArgTarget σ) (u : ArgTarget τ) (f : σ → τ) : Prop where
  init : f t.init = u.init
  hasFrame : u.hasFrame = t.hasFrame
  keyed : ∀ a key value mode, f (t.keyed a key value mode) = u.keyed (f a) key value mode
  frame : ∀ a, f (t.frame a) = u.frame (f a)
  object : ∀ name, (t.object name = none ∧ u.object name = none) ∨
    ∃ g g', t.object name = some g ∧ u.object name = some g' ∧ ∀ a, f (g a) = g' (f a)
  eval : u.eval = t.eval

variable {t : ArgTarget σ} {u : ArgTarget τ} {f : σ → τ} {allowSpread : Bool}

/-- What an entry leaves, under `f`. -/
def mapFst (f : σ → τ) : Except ArgMapError (σ × Text) → Except ArgMapError (τ × Text)
  | .ok (a, s) => .ok (f a, s)
  | .error e => .error e

theorem TargetHom.spreadInto (h : TargetHom t u f) (s : Text) (a : σ) :
    Metatup.spreadInto u allowSpread s (f a) = mapFst f (Metatup.spreadInto t allowSpread s a) := by
  unfold Metatup.spreadInto
  split
  · split
    · rfl
    · rw [h.hasFrame]
      split
      · rw [← h.frame]
        rfl
      · rfl
  · rcases parseObjectVarName s with e | ⟨name, rest⟩
    · rfl
    · show (match u.object name with
        | some merge => Except.ok (merge (f a), rest)
        | none => Except.error (.unknownObject name)) = mapFst f (match t.object name with
        | some merge => Except.ok (merge a, rest)
        | none => Except.error (.unknownObject name))
      rcases h.object name with ⟨ht, hu⟩ | ⟨g, g', ht, hu, hg⟩
      · rw [ht, hu]
        rfl
      · rw [ht, hu]
        exact congrArg (fun b => Except.ok (b, rest)) (hg a).symm

theorem TargetHom.keyedInto (h : TargetHom t u f) (s : Text) (a : σ) :
    Metatup.keyedInto u s (f a) = mapFst f (Metatup.keyedInto t s a) := by
  unfold Metatup.keyedInto
  rcases parseMergeModePrefix s with ⟨mode, s⟩
  dsimp only
  rcases parseQuotedString (skipSpace s) with e | ⟨key, s⟩
  · rfl
  simp only [bind, Except.bind]
  split
  · rename_i rest _
    rcases argValue (skipSpace rest) with e | ⟨val, s⟩
    · rfl
    dsimp only
    rw [h.eval]
    rcases t.eval val with _ | v
    · rfl
    · dsimp only
      rw [← h.keyed]
      rfl
  · rfl

theorem TargetHom.argMapLoopInto (h : TargetHom t u f) (fuel : ℕ) (first : Bool) (s : Text) (a : σ) :
    Metatup.argMapLoopInto u allowSpread fuel first s (f a) =
      mapFst f (Metatup.argMapLoopInto t allowSpread fuel first s a) := by
  induction fuel generalizing first s a with
  | zero => rfl
  | succ fuel ih =>
    have hentry : Metatup.entryInto u allowSpread (skipSeparators s) (f a) =
        mapFst f (Metatup.entryInto t allowSpread (skipSeparators s) a) := by
      unfold Metatup.entryInto
      split
      · exact h.spreadInto _ a
      · exact h.keyedInto _ a
    rw [Metatup.argMapLoopInto, Metatup.argMapLoopInto, h.hasFrame, hentry]
    split
    · rfl
    · split
      · rfl
      · rcases Metatup.entryInto t allowSpread (skipSeparators s) a with e | ⟨a', s'⟩
        · rfl
        · dsimp only [mapFst]
          split
          · rfl
          · exact ih false _ a'
          · rfl

/-- The parser does the same with both targets. -/
theorem TargetHom.parseArgMapInto (h : TargetHom t u f) (text : Text) (allowSpread : Bool) :
    Metatup.parseArgMapInto u text allowSpread =
      (Metatup.parseArgMapInto t text allowSpread).map f := by
  unfold Metatup.parseArgMapInto
  split
  · rename_i s _
    rw [← h.init, h.argMapLoopInto]
    rcases Metatup.argMapLoopInto t allowSpread (s.length + 1) true s t.init with e | ⟨a, s'⟩
    · rfl
    · dsimp only [mapFst]
      split <;> rfl
  · rfl

end

/-- What `parseArgMap` merges into. -/
def ArgEnv.target (env : ArgEnv) : ArgTarget Vardb where
  init := vardbInit
  hasFrame := env.frameArgs.isSome
  keyed := vardbApplyMerge
  frame args := (env.frameArgs.map (mergeArgFrame args)).getD args
  object name := (env.objectVar name).map fun src args => mergeNamedObjectVar args src
  eval := env.eval

/-- The parser of a call is this one, over a tree of texts. -/
theorem parseArgMap_eq (env : ArgEnv) (text : Text) (allowSpread : Bool) :
    parseArgMap env text allowSpread = parseArgMapInto env.target text allowSpread := by
  have hspread : ∀ s args, argSpread env allowSpread s args = spreadInto env.target allowSpread s args := by
    intro s args
    unfold argSpread spreadInto ArgEnv.target
    split
    · split
      · rfl
      · rcases env.frameArgs with _ | frame <;> rfl
    · rcases parseObjectVarName s with e | ⟨name, rest⟩
      · rfl
      · simp only [bind, Except.bind]
        rcases env.objectVar name with _ | src <;> rfl
  have hloop : ∀ fuel first s args, argMapLoop env allowSpread fuel first s args =
      argMapLoopInto env.target allowSpread fuel first s args := by
    intro fuel
    induction fuel with
    | zero => exact fun first s args => rfl
    | succ fuel ih =>
      intro first s args
      have hentry : argEntry env allowSpread (skipSeparators s) args =
          entryInto env.target allowSpread (skipSeparators s) args := by
        unfold argEntry entryInto
        rw [hspread]
        rfl
      have hframe : env.target.hasFrame = env.frameArgs.isSome := rfl
      rw [argMapLoop, argMapLoopInto, hentry, hframe]
      simp only [ih]
      split
      · rfl
      · split
        · rfl
        · rcases entryInto env.target allowSpread (skipSeparators s) args with e | ⟨args', s'⟩
          · rfl
          · rfl
  have hinit : env.target.init = vardbInit := rfl
  unfold parseArgMap parseArgMapInto
  simp only [hloop, hinit]
  rcases skipSpace text with _ | ⟨c, rest⟩
  · rfl
  · by_cases hc : c = '{'
    · subst hc
      rcases hrun : argMapLoopInto env.target allowSpread (rest.length + 1) true rest vardbInit
        with e | ⟨a, s⟩
      · simp [hrun]
      · simp [hrun]
    · simp [hc]

/-! ### Variables with their lengths -/

/-- A variable. A text that was freed before it was copied is lost. Source: `vardb.h`
`struct var_entry` -/
structure VarSlot where
  value : Option Text
  vallen : ℕ
  mergeMode : MergeMode

/-- Source: `vardb.h` `struct vardb` -/
abbrev VarSlots := Text → Option VarSlot

/-- Nothing is known of the length of a lost text. -/
def strlen (value : Option Text) : ℕ := (value.getD []).length

/-- A value that is handed to `vardb_set2_mode`. -/
inductive NewValue
  | given (value : Option Text)
  /-- what the entry of that name has itself -/
  | stored

/-- The length is taken, the stored value is freed, and then the new one is copied. Source: `vardb.c`
`vardb_set2_mode` -/
def vardbSet2Mode (v : VarSlots) (var : Text) (value : NewValue) (mode : MergeMode) : VarSlots :=
  Function.update v var <|
    match value, v var with
    | .given value, _ => some ⟨value, strlen value, mode⟩
    | .stored, some ve => some ⟨none, strlen ve.value, mode⟩
    | .stored, none => none

/-- Both texts are copied by their lengths, which for the stored one is in the entry. -/
def joinSlot (ve : VarSlot) (value : Option Text) (mode : MergeMode) : VarSlot where
  value := do
    let old ← ve.value
    let new ← value
    return if mode = .prepend then new ++ ' ' :: old.take ve.vallen else old.take ve.vallen ++ ' ' :: new
  vallen := ve.vallen + strlen value + 1
  mergeMode := mode

/-- Source: `vardb.c` `vardb_merge` -/
def slotsMerge (v : VarSlots) (var : Text) (value : Option Text) (mode : MergeMode) : VarSlots :=
  match v var with
  | none => vardbSet2Mode v var (.given value) mode
  | some ve =>
    if mode = .override then vardbSet2Mode v var (.given value) mode
    else if ve.value = some [] then vardbSet2Mode v var (.given value) mode
    else if value = some [] then vardbSet2Mode v var .stored mode
    else Function.update v var (some (joinSlot ve value mode))

/-- The mode joins a value to what was there before. -/
def MergeMode.joins (mode : MergeMode) : Prop := mode = .append ∨ mode = .prepend

instance (mode : MergeMode) : Decidable mode.joins := inferInstanceAs (Decidable (_ ∨ _))

/-- Source: `parser.c` `vardb_apply_merge` -/
def slotsApplyMerge (v : VarSlots) (key : Text) (value : Option Text) (mode : MergeMode) : VarSlots :=
  if mode.joins then slotsMerge v key value mode else vardbSet2Mode v key (.given value) mode

/-- Source: `parser.c` `merge_arg_frame` -/
def slotsMergeFrame (dst src : VarSlots) : VarSlots := fun k =>
  match src k with
  | some ve => vardbSet2Mode dst k (.given ve.value) .override k
  | none => dst k

/-- Source: `parser.c` `merge_named_object_var`, once the variable has been found. -/
def slotsMergeObject (dst src : VarSlots) : VarSlots := fun k =>
  match src k with
  | some ve => slotsApplyMerge dst k ve.value ve.mergeMode k
  | none => dst k

/-- Source: `parser.c` `vardb_clone` -/
def vardbClone (src : VarSlots) : VarSlots := fun k =>
  (src k).map fun ve => ⟨ve.value, strlen ve.value, ve.mergeMode⟩

/-- What `parse_arg_map` reads of the `struct tupfile`. -/
structure SlotEnv where
  frameArgs : Option VarSlots
  objectVar : Text → Option VarSlots
  eval : Text → Option Text

/-- The tree of arguments. -/
def SlotEnv.target (env : SlotEnv) : ArgTarget VarSlots where
  init := fun _ => none
  hasFrame := env.frameArgs.isSome
  keyed args key value mode := slotsApplyMerge args key (some value) mode
  frame args := (env.frameArgs.map (slotsMergeFrame args)).getD args
  object name := (env.objectVar name).map fun src args => slotsMergeObject args src
  eval := env.eval

/-- Source: `parser.c` `parse_arg_map` -/
def parseArgSlots (env : SlotEnv) (text : Text) (allowSpread : Bool) : Except ArgMapError VarSlots :=
  parseArgMapInto env.target text allowSpread

/-- A key that an `fbind` names, the variable it is bound to and the mode in front of it. -/
structure FbindBinding where
  key : Text
  var : Text
  mode : MergeMode

/-- What `assign_fbind_vars` does for one key. -/
def assignFbindVar {σ : Type} (setVar : σ → Text → Option Text → Option σ) (returns : VarSlots)
    (s : VarSlots × σ) (binding : FbindBinding) : Option (VarSlots × σ) := do
  let ret ← returns binding.key
  let vars ← setVar s.2 binding.var ret.value
  let object := if binding.mode = .inherit then s.1
    else Function.update s.1 binding.key
      ((s.1 binding.key).map fun ove => { ove with mergeMode := binding.mode })
  return (object, vars)

/-- The values of the object variable of an `fbind`; `setVar` sets the other variables. Source:
`parser.c` `assign_fbind_vars`, `set_object_var` -/
def assignFbindVars {σ : Type} (setVar : σ → Text → Option Text → Option σ) (returns : VarSlots)
    (bindings : List FbindBinding) (vars : σ) : Option (VarSlots × σ) :=
  (bindings.foldlM (assignFbindVar setVar returns) (vardbClone returns, vars)).map fun s =>
    (vardbClone s.1, s.2)

/-! ### Occurrences of a key -/

/-- An entry of a map. -/
inductive ArgOcc
  | keyed (key value : Text) (mode : MergeMode)
  | frame (src : VarSlots)
  | object (src : VarSlots)

/-- What an entry says about a key. -/
def ArgOcc.about : ArgOcc → Text → Option (MergeMode × Option Text)
  | .keyed key value mode, k => if key = k then some (mode, some value) else none
  | .frame src, k => (src k).map fun ve => (.override, ve.value)
  | .object src, k => (src k).map fun ve => (ve.mergeMode, ve.value)

/-- The entries of a map one after another. -/
def SlotEnv.reader (env : SlotEnv) : ArgTarget (List ArgOcc) where
  init := []
  hasFrame := env.frameArgs.isSome
  keyed occs key value mode := occs ++ [.keyed key value mode]
  frame occs := occs ++ (env.frameArgs.map ArgOcc.frame).toList
  object name := (env.objectVar name).map fun src occs => occs ++ [.object src]
  eval := env.eval

/-- The entries of a map, in the order of the text. -/
def readArgMap (env : SlotEnv) (text : Text) (allowSpread : Bool) : Except ArgMapError (List ArgOcc) :=
  parseArgMapInto env.reader text allowSpread

/-- The occurrences of a key. -/
def occurrences (occs : List ArgOcc) (k : Text) : List (MergeMode × Option Text) :=
  occs.filterMap (ArgOcc.about · k)

/-- Two texts with one space between them; an empty one adds nothing. -/
def joinTexts (a b : Text) : Text := if a = [] then b else if b = [] then a else a ++ ' ' :: b

/-- The value of a key after one more occurrence; `none` when there is no value. -/
def mergeValue (old : Option (Option Text)) (occ : MergeMode × Option Text) : Option (Option Text) :=
  match old with
  | none => some occ.2
  | some old =>
    if occ.1.joins then
      some do
        let old ← old
        let new ← occ.2
        return if occ.1 = .prepend then joinTexts new old else joinTexts old new
    else some occ.2

/-- What the occurrences of a key come to. -/
def mergedValue (l : List (MergeMode × Option Text)) : Option (Option Text) := l.foldl mergeValue none

/-- The mode of the last occurrence. -/
def lastMode (l : List (MergeMode × Option Text)) : Option MergeMode := l.getLast?.map Prod.fst

/-- The variable is what the occurrences come to, with the right length and the mode of the last one. -/
def Folded (slot : Option VarSlot) (l : List (MergeMode × Option Text)) : Prop :=
  (mergedValue l = none ∧ slot = none) ∨
    ∃ value mode, mergedValue l = some (some value) ∧ lastMode l = some mode ∧
      slot = some ⟨some value, value.length, mode⟩

/-- An empty text is joined to another one, and the value is not replaced afterwards. -/
def JoinsEmpty (l : List (MergeMode × Option Text)) : Prop :=
  ∃ before mode after old, l = before ++ (mode, some []) :: after ∧ mode.joins ∧
    mergedValue before = some (some old) ∧ old ≠ [] ∧ ∀ occ ∈ after, occ.1.joins

/-- The value of a key is lost: it was lost before, or here. -/
def LosesValue (l : List (MergeMode × Option Text)) : Prop :=
  mergedValue l = some none ∨ JoinsEmpty l

/-- The mode that a binding gave the key, or else the recorded one. -/
def boundMode (bindings : List FbindBinding) (k : Text) (recorded : MergeMode) : MergeMode :=
  bindings.foldl (fun mode b => if b.key = k ∧ b.mode ≠ .inherit then b.mode else mode) recorded

/-! ### One key -/

/-- One more occurrence of a key, as the code merges it. -/
def slotStep (slot : Option VarSlot) (occ : MergeMode × Option Text) : Option VarSlot :=
  slotsApplyMerge (fun _ => slot) [] occ.2 occ.1 []

/-- Merging a value changes one variable, by what that variable was. -/
theorem vardbSet2Mode_eq (v : VarSlots) (var : Text) (value : NewValue) (mode : MergeMode) :
    vardbSet2Mode v var value mode =
      Function.update v var (vardbSet2Mode (fun _ => v var) [] value mode []) := by
  unfold vardbSet2Mode
  rw [Function.update_self]

theorem slotsMerge_eq (v : VarSlots) (var : Text) (value : Option Text) (mode : MergeMode) :
    slotsMerge v var value mode =
      Function.update v var (slotsMerge (fun _ => v var) [] value mode []) := by
  unfold slotsMerge
  rcases hslot : v var with _ | ve
  · dsimp only
    rw [vardbSet2Mode_eq, hslot]
  · dsimp only
    split_ifs
    · rw [vardbSet2Mode_eq, hslot]
    · rw [vardbSet2Mode_eq, hslot]
    · rw [vardbSet2Mode_eq, hslot]
    · rw [Function.update_self]

theorem slotsApplyMerge_eq (v : VarSlots) (var : Text) (value : Option Text) (mode : MergeMode) :
    slotsApplyMerge v var value mode = Function.update v var (slotStep (v var) (mode, value)) := by
  unfold slotStep slotsApplyMerge
  dsimp only
  split
  · exact slotsMerge_eq v var value mode
  · exact vardbSet2Mode_eq v var _ mode

variable {slot : Option VarSlot} {ve : VarSlot} {mode : MergeMode} {value : Option Text}
  {l : List (MergeMode × Option Text)}

/-- An occurrence that does not join sets the value. -/
theorem slotStep_of_not_joins (h : ¬ mode.joins) :
    slotStep slot (mode, value) = some ⟨value, strlen value, mode⟩ := by
  unfold slotStep slotsApplyMerge
  dsimp only
  rw [if_neg h, vardbSet2Mode, Function.update_self]

theorem slotStep_none (mode : MergeMode) (value : Option Text) :
    slotStep none (mode, value) = some ⟨value, strlen value, mode⟩ := by
  by_cases h : mode.joins
  · unfold slotStep slotsApplyMerge slotsMerge
    dsimp only
    rw [if_pos h, vardbSet2Mode, Function.update_self]
  · exact slotStep_of_not_joins h

/-- An occurrence that joins its value to that of `ve`. -/
theorem slotStep_of_joins (h : mode.joins) : slotStep (some ve) (mode, value) =
    some (if ve.value = some [] then ⟨value, strlen value, mode⟩
      else if value = some [] then ⟨none, strlen ve.value, mode⟩ else joinSlot ve value mode) := by
  have hover : mode ≠ .override := by
    rintro rfl
    exact h.elim nofun nofun
  unfold slotStep slotsApplyMerge slotsMerge
  dsimp only
  rw [if_pos h, if_neg hover]
  split_ifs
  · rw [vardbSet2Mode, Function.update_self]
  · rw [vardbSet2Mode, Function.update_self]
    rfl
  · rw [Function.update_self]

theorem mergedValue_append (l : List (MergeMode × Option Text)) (occ : MergeMode × Option Text) :
    mergedValue (l ++ [occ]) = mergeValue (mergedValue l) occ := by
  unfold mergedValue
  rw [List.foldl_append]
  rfl

theorem mergedValue_eq_none_iff : mergedValue l = none ↔ l = [] := by
  rcases List.eq_nil_or_concat' l with rfl | ⟨init, occ, rfl⟩
  · exact iff_of_true rfl rfl
  · rw [mergedValue_append]
    refine iff_of_false ?_ (by simp)
    unfold mergeValue
    split
    · exact nofun
    · split <;> exact nofun

/-! ### Where values are lost -/

/-- A value is lost at the last occurrence, or it was lost before and is not replaced there. -/
theorem joinsEmpty_append : JoinsEmpty (l ++ [(mode, value)]) ↔ mode.joins ∧ (JoinsEmpty l ∨
    value = some [] ∧ ∃ old, mergedValue l = some (some old) ∧ old ≠ []) := by
  constructor
  · rintro ⟨before, mode', after, old, hsplit, hjoins, hold, hne, hafter⟩
    rcases List.eq_nil_or_concat' after with rfl | ⟨init, occ, rfl⟩
    · obtain ⟨rfl, hlast⟩ := List.append_inj' hsplit rfl
      rw [List.singleton_inj, Prod.mk.injEq] at hlast
      obtain ⟨rfl, rfl⟩ := hlast
      exact ⟨hjoins, .inr ⟨rfl, old, hold, hne⟩⟩
    · rw [← List.cons_append, ← List.append_assoc] at hsplit
      obtain ⟨rfl, hlast⟩ := List.append_inj' hsplit rfl
      rw [List.singleton_inj] at hlast
      subst hlast
      have hlast := hafter (mode, value) (List.mem_append_right _ (List.mem_singleton_self _))
      exact ⟨hlast, .inl ⟨before, mode', init, old, rfl, hjoins, hold, hne,
        fun occ hocc => hafter occ (List.mem_append_left _ hocc)⟩⟩
  · rintro ⟨hjoins, ⟨before, mode', after, old, rfl, hjoins', hold, hne, hafter⟩ |
      ⟨rfl, old, hold, hne⟩⟩
    · refine ⟨before, mode', after ++ [(mode, value)], old, by simp, hjoins', hold, hne, ?_⟩
      intro occ hocc
      rcases List.mem_append.1 hocc with hocc | hocc
      · exact hafter occ hocc
      · rw [List.mem_singleton.1 hocc]
        exact hjoins
    · exact ⟨l, mode, [], old, rfl, hjoins, hold, hne, fun occ hocc => absurd hocc List.not_mem_nil⟩

theorem not_joinsEmpty_nil : ¬ JoinsEmpty [] := by
  rintro ⟨before, mode, after, old, hsplit, -⟩
  exact absurd hsplit (by simp)

/-- What the slot of a key is after its occurrences. -/
structure SlotAfter (slot : Option VarSlot) (l : List (MergeMode × Option Text)) : Prop where
  none_iff : slot = none ↔ l = []
  mode : slot.map VarSlot.mergeMode = lastMode l
  kept : ¬ LosesValue l → ∀ ve, slot = some ve → ve.value = (mergedValue l).join
  lost : LosesValue l → ∀ ve, slot = some ve → ve.value = none
  len : ∀ ve t, slot = some ve → ve.value = some t → ve.vallen = t.length

theorem slotAfter_nil : SlotAfter none [] :=
  ⟨iff_of_true rfl rfl, rfl, fun _ _ h => absurd h nofun, fun _ _ h => absurd h nofun,
    fun _ _ h => absurd h nofun⟩

theorem lastMode_append : lastMode (l ++ [(mode, value)]) = some mode := by
  unfold lastMode
  rw [List.getLast?_concat]
  rfl

/-- A slot that holds just the value of the last occurrence. -/
theorem slotAfter_set (hmerged : mergedValue (l ++ [(mode, value)]) = some value)
    (hno : ¬ JoinsEmpty (l ++ [(mode, value)])) :
    SlotAfter (some ⟨value, strlen value, mode⟩) (l ++ [(mode, value)]) where
  none_iff := iff_of_false nofun (by simp)
  mode := lastMode_append.symm
  kept _ ve hve := by
    rw [hmerged, ← Option.some.inj hve]
    rfl
  lost hlost ve hve := by
    rw [← Option.some.inj hve]
    exact Option.some.inj (hmerged.symm.trans (hlost.resolve_right hno))
  len ve t hve ht := by
    rw [← Option.some.inj hve] at ht ⊢
    dsimp only at ht ⊢
    rw [ht]
    rfl

/-- A slot whose value is lost. -/
theorem slotAfter_lost (hloses : LosesValue (l ++ [(mode, value)])) (len : ℕ) :
    SlotAfter (some ⟨none, len, mode⟩) (l ++ [(mode, value)]) where
  none_iff := iff_of_false nofun (by simp)
  mode := lastMode_append.symm
  kept hno := absurd hloses hno
  lost _ ve hve := by rw [← Option.some.inj hve]
  len ve t hve ht := by
    rw [← Option.some.inj hve] at ht
    exact absurd ht nofun

/-- One more occurrence. -/
theorem SlotAfter.step (h : SlotAfter slot l) (mode : MergeMode) (value : Option Text) :
    SlotAfter (slotStep slot (mode, value)) (l ++ [(mode, value)]) := by
  by_cases hjoins : mode.joins
  swap
  · rw [slotStep_of_not_joins hjoins]
    refine slotAfter_set ?_ fun hempty => hjoins (joinsEmpty_append.1 hempty).1
    rw [mergedValue_append]
    unfold mergeValue
    split
    · rfl
    · exact if_neg hjoins
  rcases slot with _ | ve
  · obtain rfl := h.none_iff.1 rfl
    rw [slotStep_none]
    refine slotAfter_set rfl fun hempty => ?_
    rcases (joinsEmpty_append.1 hempty).2 with hnil | ⟨-, old, hold, -⟩
    · exact not_joinsEmpty_nil hnil
    · exact absurd hold nofun
  have hne : l ≠ [] := fun hnil => absurd (h.none_iff.2 hnil) nofun
  rcases hmerged : mergedValue l with _ | old?
  · exact absurd (mergedValue_eq_none_iff.1 hmerged) hne
  have hnext : mergedValue (l ++ [(mode, value)]) = some (do
      let old ← old?
      let new ← value
      return if mode = .prepend then joinTexts new old else joinTexts old new) := by
    rw [mergedValue_append, hmerged]
    exact if_pos hjoins
  rw [slotStep_of_joins hjoins]
  by_cases hlost : LosesValue l
  · -- what was lost stays lost
    have hnone := h.lost hlost ve rfl
    have hloses : LosesValue (l ++ [(mode, value)]) := by
      rcases hlost with hunknown | hempty
      · rw [hmerged, Option.some.injEq] at hunknown
        rw [hunknown] at hnext
        exact .inl hnext
      · exact .inr (joinsEmpty_append.2 ⟨hjoins, .inl hempty⟩)
    rw [if_neg (by rw [hnone]; exact nofun)]
    split
    · exact slotAfter_lost hloses _
    · unfold joinSlot
      rw [hnone]
      exact slotAfter_lost hloses _
  rcases old? with _ | old
  · exact absurd (.inl hmerged) hlost
  have hold : ve.value = some old := by
    rw [h.kept hlost ve rfl, hmerged]
    rfl
  have hno : ¬ JoinsEmpty l := fun hempty => hlost (.inr hempty)
  rcases value with _ | new
  · -- the value of the occurrence was lost
    have hloses : LosesValue (l ++ [(mode, none)]) := .inl hnext
    split
    · exact slotAfter_lost hloses _
    · rw [if_neg nofun, joinSlot, hold]
      exact slotAfter_lost hloses _
  by_cases hempty : old = []
  · subst hempty
    rw [if_pos hold]
    refine slotAfter_set ?_ fun hempty => ?_
    · rw [hnext]
      show some (some (if mode = .prepend then joinTexts new [] else joinTexts [] new)) = some (some new)
      unfold joinTexts
      split <;> simp +contextual
    · rcases (joinsEmpty_append.1 hempty).2 with hbefore | ⟨-, old', hold', hne'⟩
      · exact hno hbefore
      · rw [hmerged] at hold'
        exact hne' (Option.some.inj (Option.some.inj hold')).symm
  rw [if_neg (by rw [hold]; simpa using hempty)]
  by_cases hnew : new = []
  · -- the stored text is freed before it is copied
    subst hnew
    rw [if_pos rfl]
    exact slotAfter_lost (.inr (joinsEmpty_append.2 ⟨hjoins, .inr ⟨rfl, old, hmerged, hempty⟩⟩)) _
  rw [if_neg (by simpa using hnew)]
  have hlen := h.len ve old rfl hold
  have hjoin : joinSlot ve (some new) mode =
      ⟨some (if mode = .prepend then joinTexts new old else joinTexts old new),
        old.length + new.length + 1, mode⟩ := by
    unfold joinSlot joinTexts
    rw [hold, hlen]
    simp [if_neg hempty, if_neg hnew, strlen]
  have hkept : ¬ LosesValue (l ++ [(mode, some new)]) := by
    rintro (hunknown | hloses)
    · rw [hnext] at hunknown
      exact absurd hunknown nofun
    · rcases (joinsEmpty_append.1 hloses).2 with hbefore | ⟨hnil, -⟩
      · exact hno hbefore
      · exact hnew (Option.some.inj hnil)
  rw [hjoin]
  refine ⟨iff_of_false nofun (by simp), lastMode_append.symm, fun _ ve' hve => ?_,
    fun hloses => absurd hloses hkept, fun ve' t hve ht => ?_⟩
  · rw [← Option.some.inj hve, hnext]
    rfl
  · rw [← Option.some.inj hve] at ht ⊢
    dsimp only at ht ⊢
    rw [← Option.some.inj ht]
    unfold joinTexts
    simp only [if_neg hempty, if_neg hnew]
    split
    · rw [List.length_append, List.length_cons]
      omega
    · rw [List.length_append, List.length_cons]
      omega

theorem slotAfter_foldl (l : List (MergeMode × Option Text)) : SlotAfter (l.foldl slotStep none) l := by
  induction l using List.reverseRecOn with
  | nil => exact slotAfter_nil
  | append_singleton l occ ih =>
    rw [List.foldl_append]
    exact ih.step occ.1 occ.2

/-- The slot is what the occurrences come to exactly where the value is not lost. -/
theorem folded_iff (l : List (MergeMode × Option Text)) :
    Folded (l.foldl slotStep none) l ↔ ¬ LosesValue l := by
  have h := slotAfter_foldl l
  constructor
  · rintro (⟨hmerged, -⟩ | ⟨value, mode, -, -, hslot⟩) hlost
    · rw [mergedValue_eq_none_iff] at hmerged
      subst hmerged
      exact hlost.elim nofun not_joinsEmpty_nil
    · exact absurd (h.lost hlost _ hslot) nofun
  · intro hkept
    rcases hmerged : mergedValue l with _ | value
    · exact .inl ⟨hmerged, h.none_iff.2 (mergedValue_eq_none_iff.1 hmerged)⟩
    rcases value with _ | value
    · exact absurd (.inl hmerged) hkept
    rcases hslot : l.foldl slotStep none with _ | ve
    · rw [h.none_iff, ← mergedValue_eq_none_iff, hmerged] at hslot
      exact absurd hslot nofun
    have hvalue : ve.value = some value := by
      rw [h.kept hkept ve hslot, hmerged]
      rfl
    have hmode := h.mode
    rw [hslot] at hmode
    refine .inr ⟨value, ve.mergeMode, hmerged, hmode.symm, ?_⟩
    rw [← hvalue, ← h.len ve value hslot hvalue]

/-! ### The whole map -/

/-- What the entries of a map come to, key by key. -/
def foldedSlots (occs : List ArgOcc) : VarSlots := fun k => (occurrences occs k).foldl slotStep none

/-- An entry changes a key by what it says about it. -/
theorem foldedSlots_append (occs : List ArgOcc) (occ : ArgOcc) (k : Text) :
    foldedSlots (occs ++ [occ]) k =
      match occ.about k with
      | none => foldedSlots occs k
      | some o => slotStep (foldedSlots occs k) o := by
  unfold foldedSlots occurrences
  rw [List.filterMap_append, List.foldl_append]
  rcases h : occ.about k with _ | o <;> simp [h]

/-- The code merges each entry as it comes, key by key. -/
theorem foldedSlots_hom (env : SlotEnv) : TargetHom env.reader env.target foldedSlots where
  init := rfl
  hasFrame := rfl
  keyed occs key value mode := by
    funext k
    show foldedSlots (occs ++ [.keyed key value mode]) k =
      slotsApplyMerge (foldedSlots occs) key (some value) mode k
    rw [foldedSlots_append, slotsApplyMerge_eq, ArgOcc.about]
    by_cases hk : key = k
    · subst hk
      rw [if_pos rfl, Function.update_self]
    · rw [if_neg hk, Function.update_of_ne (Ne.symm hk)]
  frame occs := by
    show foldedSlots (occs ++ (env.frameArgs.map ArgOcc.frame).toList) =
      (env.frameArgs.map (slotsMergeFrame (foldedSlots occs))).getD (foldedSlots occs)
    rcases env.frameArgs with _ | src
    · rw [Option.map_none, Option.toList_none, List.append_nil]
      rfl
    funext k
    rw [Option.map_some, Option.toList_some, foldedSlots_append, ArgOcc.about]
    show _ = slotsMergeFrame (foldedSlots occs) src k
    unfold slotsMergeFrame
    rcases src k with _ | ve
    · rfl
    · show slotStep _ _ = vardbSet2Mode (foldedSlots occs) k (.given ve.value) .override k
      rw [slotStep_of_not_joins (by exact fun h => h.elim nofun nofun), vardbSet2Mode,
        Function.update_self]
  object name := by
    show (((env.objectVar name).map fun src occs => occs ++ [ArgOcc.object src]) = none ∧
      ((env.objectVar name).map fun src args => slotsMergeObject args src) = none) ∨ _
    rcases hsrc : env.objectVar name with _ | src
    · exact .inl ⟨rfl, rfl⟩
    have hreader : env.reader.object name = some fun occs => occs ++ [.object src] := by
      show (env.objectVar name).map _ = _
      rw [hsrc]
      rfl
    have htarget : env.target.object name = some fun args => slotsMergeObject args src := by
      show (env.objectVar name).map _ = _
      rw [hsrc]
      rfl
    refine .inr ⟨_, _, hreader, htarget, fun occs => ?_⟩
    funext k
    show _ = slotsMergeObject (foldedSlots occs) src k
    rw [foldedSlots_append, ArgOcc.about, slotsMergeObject]
    rcases src k with _ | ve
    · rfl
    · show slotStep _ _ = slotsApplyMerge (foldedSlots occs) k ve.value ve.mergeMode k
      rw [slotsApplyMerge_eq, Function.update_self]
  eval := rfl

/-- What the parser accepts, it has read as a list of entries. -/
theorem readArgMap_of_parse {env : SlotEnv} {text : Text} {allowSpread : Bool} {args : VarSlots}
    (h : parseArgSlots env text allowSpread = .ok args) :
    ∃ occs, readArgMap env text allowSpread = .ok occs ∧ args = foldedSlots occs := by
  unfold parseArgSlots at h
  rw [(foldedSlots_hom env).parseArgMapInto] at h
  unfold readArgMap
  rcases hread : parseArgMapInto env.reader text allowSpread with e | occs <;>
    simp only [hread, Except.map, Except.ok.injEq, reduceCtorEq] at h
  exact ⟨occs, rfl, h.symm⟩

/-! ### Object variables -/

variable {σ : Type} {setVar : σ → Text → Option Text → Option σ} {returns object : VarSlots}

/-- A binding changes the mode of its key only. -/
theorem assignFbindVar_fields {s s' : VarSlots × σ} {b : FbindBinding}
    (h : assignFbindVar setVar returns s b = some s') (k : Text) :
    s'.1 k = (s.1 k).map fun ve =>
      { ve with mergeMode := if b.key = k ∧ b.mode ≠ .inherit then b.mode else ve.mergeMode } := by
  unfold assignFbindVar at h
  obtain ⟨ret, -, h⟩ := Option.bind_eq_some_iff.1 h
  obtain ⟨vars, -, h⟩ := Option.bind_eq_some_iff.1 h
  rw [← Option.some.inj h]
  dsimp only
  split
  · rename_i hinherit
    simp [hinherit]
  · rename_i hmode
    by_cases hk : b.key = k
    · subst hk
      rw [Function.update_self]
      simp [hmode]
    · rw [Function.update_of_ne (Ne.symm hk)]
      simp [hk]

theorem foldlM_assignFbindVar {bindings : List FbindBinding} {s s' : VarSlots × σ}
    (h : bindings.foldlM (assignFbindVar setVar returns) s = some s') (k : Text) :
    s'.1 k = (s.1 k).map fun ve => { ve with mergeMode := boundMode bindings k ve.mergeMode } := by
  induction bindings generalizing s with
  | nil =>
    rw [← Option.some.inj h]
    unfold boundMode
    simp
  | cons b bindings ih =>
    rw [List.foldlM_cons] at h
    obtain ⟨s₁, hs₁, h⟩ := Option.bind_eq_some_iff.1 h
    rw [ih h, assignFbindVar_fields hs₁, Option.map_map]
    rfl

/-- An object variable has the values that were returned, with the modes of its bindings. -/
theorem assignFbindVars_apply {bindings : List FbindBinding} {vars vars' : σ}
    (h : assignFbindVars setVar returns bindings vars = some (object, vars')) (k : Text) :
    object k = (returns k).map fun ve =>
      ⟨ve.value, strlen ve.value, boundMode bindings k ve.mergeMode⟩ := by
  obtain ⟨s, hs, hobject⟩ := Option.map_eq_some_iff.1 h
  have hk := foldlM_assignFbindVar hs k
  rw [← (Prod.mk.inj hobject).1]
  unfold vardbClone at hk ⊢
  rw [hk, Option.map_map, Option.map_map]
  rfl

/-- The values of an accepted map are what the occurrences of their keys come to, from left to right,
exactly where no value was lost before and no empty text is joined to a value that is not empty and is
not replaced afterwards. The recorded modes are those of the last occurrences, and an `fbind` that
captures the map as an object gives each field the mode of its binding, or else the recorded one. -/
theorem argMap_folded_iff {env : SlotEnv} {text : Text} {allowSpread : Bool} {args : VarSlots}
    (h : parseArgSlots env text allowSpread = .ok args) :
    ∃ occs, readArgMap env text allowSpread = .ok occs ∧
      ((∀ k, Folded (args k) (occurrences occs k)) ↔ ∀ k, ¬ LosesValue (occurrences occs k)) ∧
      (∀ k, (args k).map VarSlot.mergeMode = lastMode (occurrences occs k)) ∧
      ∀ {σ : Type} (setVar : σ → Text → Option Text → Option σ) (bindings : List FbindBinding)
        (vars vars' : σ) (object : VarSlots),
        assignFbindVars setVar (vardbClone args) bindings vars = some (object, vars') →
        ∀ k, object k = (args k).map fun ve =>
          ⟨ve.value, strlen ve.value, boundMode bindings k ve.mergeMode⟩ := by
  obtain ⟨occs, hocc, rfl⟩ := readArgMap_of_parse h
  refine ⟨occs, hocc, forall_congr' fun k => folded_iff _, fun k => (slotAfter_foldl _).mode, ?_⟩
  intro σ setVar bindings vars vars' object hassign k
  rw [assignFbindVars_apply hassign]
  unfold vardbClone
  rw [Option.map_map]
  rfl

/-- No frame, no object variables, and values that stand for themselves. -/
def textEnv : SlotEnv := ⟨none, fun _ => none, some⟩

theorem argMap_folded_iff_plain : ∃ args,
    parseArgSlots textEnv "\x7b\"a\": \"x\", appending \"a\": \"y\"\x7d".toList false = .ok args ∧
    ∃ occs, readArgMap textEnv "\x7b\"a\": \"x\", appending \"a\": \"y\"\x7d".toList false = .ok occs ∧
      ((∀ k, Folded (args k) (occurrences occs k)) ↔ ∀ k, ¬ LosesValue (occurrences occs k)) ∧
      (∀ k, (args k).map VarSlot.mergeMode = lastMode (occurrences occs k)) ∧
      ∀ {σ : Type} (setVar : σ → Text → Option Text → Option σ) (bindings : List FbindBinding)
        (vars vars' : σ) (object : VarSlots),
        assignFbindVars setVar (vardbClone args) bindings vars = some (object, vars') →
        ∀ k, object k = (args k).map fun ve =>
          ⟨ve.value, strlen ve.value, boundMode bindings k ve.mergeMode⟩ :=
  ⟨_, rfl, argMap_folded_iff rfl⟩

/-- Appending an empty text loses the one that was there. -/
theorem appending_empty_loses_value : ∃ args occs,
    parseArgSlots textEnv "\x7b\"a\": \"x\", appending \"a\": \"\"\x7d".toList false = .ok args ∧
    readArgMap textEnv "\x7b\"a\": \"x\", appending \"a\": \"\"\x7d".toList false = .ok occs ∧
    mergedValue (occurrences occs ['a']) = some (some ['x']) ∧ (args ['a']).map VarSlot.value = some none ∧
    ¬ Folded (args ['a']) (occurrences occs ['a']) := by
  refine ⟨_, _, rfl, rfl, by decide, by decide, ?_⟩
  rintro (⟨hmerged, -⟩ | ⟨value, mode, -, -, hslot⟩)
  · exact absurd hmerged (by decide)
  · have hlost : some (none : Option Text) = some (some value) :=
      congrArg (Option.map VarSlot.value) hslot
    exact absurd hlost nofun

end Metatup
