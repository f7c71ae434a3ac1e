import Mathlib.Data.List.Basic
import Metatup.Parser.Vardb

/-!
# Argument maps

`parse_arg_map` reads the text between the braces of a call. A C string ends at its terminator, which
is the end of the list here.

* `parseArgMap`: the parser, with the errors it reports.
* `argEntry_suffix`, `argMapLoop_fuel`: every entry consumes text, so the loop ends.
-/

namespace Metatup

/-- What `parse_arg_map` fails with. -/
inductive ArgMapError
  /-- `SYNTAX_ERROR` -/
  | syntaxError
  /-- "Nested function calls must begin their argument map with '...'." -/
  | nestedMustBegin
  /-- "Bare '...' spread is only valid in function call argument maps." -/
  | bareSpread
  /-- "Unknown object variable '%s' in spread." -/
  | unknownObject (name : Text)
  /-- `eval` failed. -/
  | eval
  deriving DecidableEq, Repr

/-- What `parse_arg_map` reads of the `struct tupfile`. -/
structure ArgEnv where
  /-- The arguments of `tf->func_frame`, if there is one. -/
  frameArgs : Option Vardb
  /-- Source: `parser.c` `get_object_var` -/
  objectVar : Text → Option Vardb
  /-- Source: `parser.c` `eval` -/
  eval : Text → Option Text

/-- Source: `isspace` -/
def isSpace (c : Char) : Bool :=
  c = ' ' || c = '\t' || c = '\n' || c = '\r' || c.toNat = 11 || c.toNat = 12

/-- The text after the blanks in front. -/
def skipSpace (s : Text) : Text := s.dropWhile isSpace

/-- The text after the blanks and commas in front. -/
def skipSeparators (s : Text) : Text := s.dropWhile fun c => isSpace c || c = ','

/-- The mark of a spread. -/
def spreadMark : Text := ['.', '.', '.']

/-- The scan of `parse_quoted_string`: what is read before the closing quote, and the text after
it. -/
def scanQuoted : Text → Option (Text × Text)
  | [] => none
  | '"' :: s => some ([], s)
  | '\\' :: c :: s => (scanQuoted s).map fun (out, rest) => ('\\' :: c :: out, rest)
  | c :: s => (scanQuoted s).map fun (out, rest) => (c :: out, rest)

/-- Source: `parser.c` `parse_quoted_string` -/
def parseQuotedString : Text → Except ArgMapError (Text × Text)
  | '"' :: s =>
    match scanQuoted s with
    | some r => .ok r
    | none => .error .syntaxError
  | _ => .error .syntaxError

/-- The characters `parse_object_var_name` reads. -/
def isObjectVarChar (c : Char) : Bool := c ≠ ',' && c ≠ '}' && c ≠ ':' && !isSpace c

/-- Source: `parser.c` `parse_object_var_name` -/
def parseObjectVarName (s : Text) : Except ArgMapError (Text × Text) :=
  let name := s.takeWhile isObjectVarChar
  if name = [] then .error .syntaxError else .ok (name, s.dropWhile isObjectVarChar)

/-- The rest of a text that starts with a keyword and a blank, the blank included. -/
def afterKeyword (kw : String) (s : Text) : Option Text :=
  if kw.toList.isPrefixOf s then
    match s.drop kw.toList.length with
    | c :: rest => if isSpace c then some (c :: rest) else none
    | [] => none
  else none

/-- Source: `parser.c` `parse_merge_mode_prefix` with `fbind_mode` 0. -/
def parseMergeModePrefix (s : Text) : MergeMode × Text :=
  match afterKeyword "prepending" s with
  | some rest => (.prepend, rest)
  | none =>
    match afterKeyword "appending" s with
    | some rest => (.append, rest)
    | none =>
      match afterKeyword "overriding" s with
      | some rest => (.override, rest)
      | none => (.override, s)

/-- The spread branch of `parse_arg_map`, after the mark. -/
def argSpread (env : ArgEnv) (allowSpread : Bool) (s : Text) (args : Vardb) :
    Except ArgMapError (Vardb × Text) :=
  if s.head? = none ∨ s.head? = some ',' ∨ s.head? = some '}' then
    if !allowSpread then .error .bareSpread
    else
      match env.frameArgs with
      | some frame => .ok (mergeArgFrame args frame, s)
      | none => .ok (args, s)
  else do
    let (name, rest) ← parseObjectVarName s
    match env.objectVar name with
    | some src => .ok (mergeNamedObjectVar args src, rest)
    | none => .error (.unknownObject name)

/-- The text of a value and what follows it: a quoted string, or everything up to a comma or the
closing brace. -/
def argValue (s : Text) : Except ArgMapError (Text × Text) :=
  if s.head? = some '"' then parseQuotedString s
  else
    let inValue := fun c : Char => decide (c ≠ ',' ∧ c ≠ '}')
    .ok (s.takeWhile inValue, s.dropWhile inValue)

/-- The branch of `parse_arg_map` for a key with a value. -/
def argKeyed (env : ArgEnv) (s : Text) (args : Vardb) : Except ArgMapError (Vardb × Text) := do
  let (mode, s) := parseMergeModePrefix s
  let (key, s) ← parseQuotedString (skipSpace s)
  match skipSpace s with
  | ':' :: s =>
    let (val, s) ← argValue (skipSpace s)
    match env.eval val with
    | some v => .ok (vardbApplyMerge args key v mode, s)
    | none => .error .eval
  | _ => .error .syntaxError

/-- One entry of the map. -/
def argEntry (env : ArgEnv) (allowSpread : Bool) (s : Text) (args : Vardb) :
    Except ArgMapError (Vardb × Text) :=
  if spreadMark.isPrefixOf s then argSpread env allowSpread (s.drop 3) args
  else argKeyed env s args

/-- The loop of `parse_arg_map`, with `first` its `first_entry`; it stops at the closing brace, which
is still in front of the text. -/
def argMapLoop (env : ArgEnv) (allowSpread : Bool) :
    ℕ → Bool → Text → Vardb → Except ArgMapError (Vardb × Text)
  | 0, _, _, _ => .error .syntaxError
  | fuel + 1, first, s, args =>
    let s := skipSeparators s
    if s.head? = some '}' then .ok (args, s)
    else if allowSpread && first && env.frameArgs.isSome && !spreadMark.isPrefixOf s then
      .error .nestedMustBegin
    else
      match argEntry env allowSpread s args with
      | .error e => .error e
      | .ok (args, s) =>
        match skipSpace s with
        | '}' :: s => .ok (args, '}' :: s)
        | ',' :: s => argMapLoop env allowSpread fuel false s args
        | _ => .error .syntaxError

/-- Source: `parser.c` `parse_arg_map`. Every round of the loop consumes a character. -/
def parseArgMap (env : ArgEnv) (text : Text) (allowSpread : Bool) : Except ArgMapError Vardb :=
  match skipSpace text with
  | '{' :: s =>
    match argMapLoop env allowSpread (s.length + 1) true s vardbInit with
    | .error e => .error e
    | .ok (args, s) => if skipSpace (s.drop 1) = [] then .ok args else .error .syntaxError
  | _ => .error .syntaxError

/-! ### The loop ends -/

variable {env : ArgEnv} {allowSpread : Bool} {s t : Text} {args out : Vardb}

theorem scanQuoted_suffix {r : Text × Text} (h : scanQuoted s = some r) : r.2 <:+ s := by
  induction s using scanQuoted.induct generalizing r with
  | case1 => simp [scanQuoted] at h
  | case2 s =>
    simp only [scanQuoted, Option.some.injEq] at h
    subst h
    exact List.suffix_cons _ _
  | case3 c s ih =>
    simp only [scanQuoted, Option.map_eq_some_iff] at h
    obtain ⟨q, hq, rfl⟩ := h
    exact (ih hq).trans ((List.suffix_cons _ _).trans (List.suffix_cons _ _))
  | case4 c s h1 h2 ih =>
    rw [scanQuoted, Option.map_eq_some_iff] at h
    · obtain ⟨q, hq, rfl⟩ := h
      exact (ih hq).trans (List.suffix_cons _ _)
    · exact h1
    · exact h2

theorem parseQuotedString_suffix {r : Text × Text} (h : parseQuotedString s = .ok r) :
    r.2 <:+ s := by
  unfold parseQuotedString at h
  split at h
  · split at h
    · next hs =>
      cases h
      exact (scanQuoted_suffix hs).trans (List.suffix_cons _ _)
    · cases h
  · cases h

theorem afterKeyword_suffix {kw : String} (h : afterKeyword kw s = some t) : t <:+ s := by
  unfold afterKeyword at h
  split at h
  · split at h
    · next hd =>
      split at h
      · cases h
        exact hd ▸ List.drop_suffix _ _
      · cases h
    · cases h
  · cases h

theorem parseMergeModePrefix_suffix (s : Text) : (parseMergeModePrefix s).2 <:+ s := by
  unfold parseMergeModePrefix
  split
  · next h => exact afterKeyword_suffix h
  · split
    · next h => exact afterKeyword_suffix h
    · split
      · next h => exact afterKeyword_suffix h
      · exact List.suffix_rfl

theorem parseObjectVarName_suffix {r : Text × Text} (h : parseObjectVarName s = .ok r) :
    r.2 <:+ s := by
  unfold parseObjectVarName at h
  dsimp only at h
  split at h
  · cases h
  · cases h
    exact List.dropWhile_suffix _

theorem argSpread_suffix (h : argSpread env allowSpread s args = .ok (out, t)) : t <:+ s := by
  unfold argSpread at h
  split at h
  · split at h
    · cases h
    · split at h <;> cases h <;> exact List.suffix_rfl
  · simp only [bind, Except.bind] at h
    split at h
    · cases h
    · next name hname =>
      have hname := parseObjectVarName_suffix hname
      split at h
      · cases h
        exact hname
      · cases h

theorem argValue_suffix {r : Text × Text} (h : argValue s = .ok r) : r.2 <:+ s := by
  unfold argValue at h
  split at h
  · exact parseQuotedString_suffix h
  · cases h
    exact List.dropWhile_suffix _

theorem argKeyed_suffix (h : argKeyed env s args = .ok (out, t)) : t <:+ s := by
  unfold argKeyed at h
  simp only [bind, Except.bind] at h
  split at h
  · cases h
  · next key hkey =>
    have h1 := (parseQuotedString_suffix hkey).trans
      ((List.dropWhile_suffix _).trans (parseMergeModePrefix_suffix s))
    split at h
    · next rest hcolon =>
      have h2 : rest <:+ key.2 := by
        apply (List.suffix_cons ':' rest).trans
        rw [← hcolon]
        exact List.dropWhile_suffix _
      split at h
      · cases h
      · next val hval =>
        have h3 := (argValue_suffix hval).trans (List.dropWhile_suffix isSpace)
        split at h
        · cases h
          exact h3.trans (h2.trans h1)
        · cases h
    · cases h

/-- What is left after an entry is a suffix of the text. -/
theorem argEntry_suffix (h : argEntry env allowSpread s args = .ok (out, t)) : t <:+ s := by
  unfold argEntry at h
  split at h
  · exact (argSpread_suffix h).trans (List.drop_suffix _ _)
  · exact argKeyed_suffix h

/-- With more fuel than characters the loop does not run out of it. -/
theorem argMapLoop_fuel {n m : ℕ} {first : Bool} (hn : s.length < n) (hm : s.length < m) :
    argMapLoop env allowSpread n first s args = argMapLoop env allowSpread m first s args := by
  induction n generalizing m first s args with
  | zero => omega
  | succ n ih =>
    obtain ⟨m, rfl⟩ : ∃ k, m = k + 1 := ⟨m - 1, by omega⟩
    unfold argMapLoop
    dsimp only
    split
    · rfl
    · split
      · rfl
      · cases he : argEntry env allowSpread (skipSeparators s) args with
        | error e => rfl
        | ok r =>
          dsimp only
          split
          · rfl
          · next rest hc =>
            have h1 : (',' :: rest).length ≤ s.length := by
              rw [← hc]
              apply List.IsSuffix.length_le
              exact (List.dropWhile_suffix _).trans
                ((argEntry_suffix he).trans (List.dropWhile_suffix _))
            rw [List.length_cons] at h1
            exact ih (by omega) (by omega)
          · rfl

end Metatup
