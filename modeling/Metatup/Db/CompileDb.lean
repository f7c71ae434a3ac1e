import Metatup.Lib.JsonString
import Metatup.Lib.ShellWords
import Metatup.Parser.ArgMap
import Metatup.Parser.Canonical

/-!
# The compile database

How an entry of the compile database is printed: the command with its relative paths made absolute, and
the texts escaped for JSON.

* `printJson_eq`: the escaped text is written into its buffer unless every character takes two.
* `takeToken_iff`: a token is a text in which the tokenizer finds no bare blank.
* `rewriteToken_eq`: a token is kept, or the path in it is replaced.
-/

namespace Metatup

open Lib Lib.ShellWords

/-! ### Texts of JSON -/

/-- One byte into the buffer of `print_json`, unless it is outside. -/
def putByte (size : ℕ) (buf : Text) (c : Char) : Option Text :=
  if buf.length < size then some (buf ++ [c]) else none

/-- The loop of `print_json`; `offs` is the length of what has been written. -/
def printJsonLoop (size : ℕ) : Text → Text → Option Text
  | buf, [] => some buf
  | buf, c :: s => do
    let buf ← if c = '\\' ∨ c = '"' then putByte size buf '\\' else some buf
    let buf ← putByte size buf c
    printJsonLoop size buf s

/-- Source: `db.c` `print_json`: what is printed, unless a byte is written outside the buffer. The lengths
are those for which the `int`s do not overflow. -/
def printJson (str : Text) : Option Text := do
  let buf ← printJsonLoop (str.length * 2) [] str
  let _ ← putByte (str.length * 2) buf (Char.ofNat 0)
  some buf

/-! ### Paths in a command -/

/-- The flags whose argument is a path. -/
def pathFlags : List Text :=
  ["-I".toList, "-isystem".toList, "-iquote".toList, "-include".toList, "-imacros".toList,
    "-o".toList, "-MF".toList, "--sysroot".toList]

/-- Source: `db.c` `compiledb_path_flag_needs_separate_arg` -/
def compiledbPathFlagNeedsSeparateArg (arg : Text) : Bool := pathFlags.any (arg = ·)

/-- The flags that a path is written behind. -/
def pathFlagPrefixes : List Text :=
  ["-I".toList, "-isystem".toList, "-iquote".toList, "-include".toList, "-imacros".toList,
    "-o".toList, "-MF".toList, "--sysroot=".toList]

/-- Source: `db.c` `compiledb_path_flag_prefix` -/
def compiledbPathFlagPrefix (arg : Text) : Option ℕ :=
  (pathFlagPrefixes.find? fun p => p.length < arg.length && p.isPrefixOf arg).map List.length

/-- Source: `db.c` `compiledb_has_path_extension` -/
def compiledbHasPathExtension (arg : Text) : Bool :=
  [".c".toList, ".cc".toList, ".cp".toList, ".cpp".toList, ".cxx".toList,
    ".m".toList, ".mm".toList, ".s".toList, ".S".toList, ".asm".toList,
    ".h".toList, ".hh".toList, ".hpp".toList, ".hxx".toList,
    ".o".toList, ".obj".toList, ".a".toList, ".so".toList, ".dylib".toList,
    ".d".toList, ".pcm".toList, ".pch".toList].any
      fun ext => ext.length < arg.length && ext.isSuffixOf arg

/-- Source: `db.c` `compiledb_token_looks_like_path` -/
def compiledbTokenLooksLikePath (arg : Text) : Bool :=
  if arg = [] then false
  else if isFullPath arg then false
  else if arg.head? = some '-' then false
  else if arg.head? = some '.' ∨ '/' ∈ arg then true
  else compiledbHasPathExtension arg

/-- Source: `db.c` `compiledb_append_absolute_path` -/
def compiledbAppendAbsolutePath (baseDir path : Text) : Text :=
  compiledbCanonicalizePathSimple (baseDir ++ '/' :: path)

/-- The quotation mark that an argument begins and ends with. -/
def quoteAround (arg : Text) : Option Char :=
  if 2 ≤ arg.length ∧ (arg.head? = some '\'' ∨ arg.head? = some '"') ∧ arg.getLast? = arg.head? then
    arg.head?
  else none

/-- The argument between the marks. -/
def betweenQuotes (arg : Text) : Text :=
  if (quoteAround arg).isSome then arg.tail.dropLast else arg

/-- Source: `db.c` `compiledb_append_maybe_quoted_path` -/
def compiledbAppendMaybeQuotedPath (baseDir arg : Text) : Text :=
  if betweenQuotes arg = [] ∨ isFullPath (betweenQuotes arg) = true then arg
  else
    (quoteAround arg).toList ++ compiledbAppendAbsolutePath baseDir (betweenQuotes arg) ++
      (quoteAround arg).toList

/-- Source: `db.c` `compiledb_rewrite_token`: what is appended, and `next_is_path` -/
def compiledbRewriteToken (baseDir token : Text) (nextIsPath : Bool) : Text × Bool :=
  if nextIsPath then (compiledbAppendMaybeQuotedPath baseDir token, false)
  else if compiledbPathFlagNeedsSeparateArg token then (token, true)
  else
    match compiledbPathFlagPrefix token with
    | some prefixLen =>
      (token.take prefixLen ++ compiledbAppendMaybeQuotedPath baseDir (token.drop prefixLen), false)
    | none =>
      if compiledbTokenLooksLikePath token then (compiledbAppendMaybeQuotedPath baseDir token, false)
      else (token, false)

/-- The scan for the end of a token in `compiledb_rewrite_command`: the token, and what is behind it. -/
def takeToken : Option Char → Text → Text × Text
  | _, [] => ([], [])
  | quote, '\\' :: c :: s => ('\\' :: c :: (takeToken quote s).1, (takeToken quote s).2)
  | some quote, c :: s =>
    let quote := if c = quote then none else some quote
    (c :: (takeToken quote s).1, (takeToken quote s).2)
  | none, c :: s =>
    if c = '\'' ∨ c = '"' then (c :: (takeToken (some c) s).1, (takeToken (some c) s).2)
    else if isSpace c then ([], c :: s)
    else (c :: (takeToken none s).1, (takeToken none s).2)

/-- The loop of `compiledb_rewrite_command`; the fuel bounds the number of tokens. -/
def rewriteLoop (baseDir : Text) : ℕ → Bool → Text → Text
  | 0, _, _ => []
  | fuel + 1, nextIsPath, s =>
    let blanks := s.takeWhile isSpace
    let s := s.dropWhile isSpace
    if s = [] then blanks
    else
      let (token, rest) := takeToken none s
      let (text, nextIsPath) := compiledbRewriteToken baseDir token nextIsPath
      blanks ++ (text ++ rewriteLoop baseDir fuel nextIsPath rest)

/-- Source: `db.c` `compiledb_rewrite_command` -/
def compiledbRewriteCommand (cmd baseDir : Text) : Text := rewriteLoop baseDir (cmd.length + 1) false cmd

/-- What is printed between the quotation marks of an entry. -/
structure CompileDbEntry where
  directory : Text
  command : Text
  file : Text

/-- The directory that the command of an entry runs in. -/
def entryDirectory (tupTop : Text) (dir : Option Text) : Text := tupTop ++ '/' :: dir.getD []

/-- Source: `db.c` `print_compile_db`; `dir` is the path of the directory of the command from the top, and
`file` that of the file, unless it is the top itself. -/
def printCompileDb (tupTop : Text) (dir : Option Text) (cmd : Text) (file : Option Text) :
    Option CompileDbEntry := do
  let directory ← printJson (entryDirectory tupTop dir)
  let command ← printJson (compiledbRewriteCommand cmd (entryDirectory tupTop dir))
  let file ← printJson (tupTop ++ (file.map ('/' :: ·)).getD [])
  some { directory, command, file }

/-! ### What is printed -/

theorem putByte_of_lt {size : ℕ} {buf : Text} (h : buf.length < size) (c : Char) :
    putByte size buf c = some (buf ++ [c]) := if_pos h

theorem length_escape (s : Text) :
    (JsonString.escape s).length = s.length + s.countP (fun c => c = '\\' ∨ c = '"') := by
  induction s with
  | nil => rfl
  | cons c s ih =>
    unfold JsonString.escape at ih ⊢
    rw [List.flatMap_cons, List.length_append, ih, List.countP_cons, List.length_cons]
    by_cases hc : c = '\\' ∨ c = '"'
    · simp only [hc, if_true, decide_true, List.length_cons, List.length_nil]
      omega
    · simp only [hc, if_false, decide_false, List.length_cons, List.length_nil, Bool.false_eq_true]
      omega

/-- Two bytes for each character are room enough. -/
theorem printJsonLoop_eq {size : ℕ} {buf : Text} (s : Text) (h : buf.length + s.length * 2 ≤ size) :
    printJsonLoop size buf s = some (buf ++ JsonString.escape s) := by
  induction s generalizing buf with
  | nil => exact congrArg some (List.append_nil buf).symm
  | cons c s ih =>
    rw [List.length_cons] at h
    unfold JsonString.escape at ih ⊢
    rw [printJsonLoop, List.flatMap_cons]
    split
    · have hslash : putByte size buf '\\' = some (buf ++ ['\\']) := putByte_of_lt (by omega) _
      have hbyte : putByte size (buf ++ ['\\']) c = some (buf ++ ['\\'] ++ [c]) := by
        apply putByte_of_lt
        rw [List.length_append, List.length_singleton]
        omega
      simp only [hslash, hbyte, Option.bind_eq_bind, Option.bind_some]
      rw [ih (by simp only [List.length_append, List.length_singleton]; omega)]
      simp
    · have hbyte : putByte size buf c = some (buf ++ [c]) := putByte_of_lt (by omega) _
      simp only [hbyte, Option.bind_eq_bind, Option.bind_some]
      rw [ih (by simp only [List.length_append, List.length_singleton]; omega)]
      simp

/-- The null byte is outside the buffer when every character is escaped. -/
theorem printJson_eq (str : Text) :
    printJson str = if str.any (fun c => c ≠ '\\' ∧ c ≠ '"') then some (JsonString.escape str) else none := by
  have hroom : (JsonString.escape str).length < str.length * 2 ↔
      str.any (fun c => c ≠ '\\' ∧ c ≠ '"') = true := by
    rw [length_escape, Nat.mul_two, Nat.add_lt_add_iff_left, lt_iff_le_and_ne, Ne, List.countP_eq_length]
    simp [List.countP_le_length]
  unfold printJson
  rw [printJsonLoop_eq str (by simp), Option.bind_eq_bind, Option.bind_some, List.nil_append, putByte]
  by_cases h : str.any (fun c => c ≠ '\\' ∧ c ≠ '"') = true
  · rw [if_pos (hroom.2 h), if_pos h]
    rfl
  · rw [if_neg fun hlt => h (hroom.1 hlt), if_neg h]
    rfl

/-- Of a quotation mark alone both bytes are written, and the null byte is not. -/
example : printJson ['"'] = none := by decide

/-! ### Tokens -/

/-- Between all marks the tokenizer skips what is behind a backslash. -/
def tokenizer : Mode → Bool := fun _ => true

/-- The `quote` of the tokenizer. -/
def quoteChar : Mode → Option Char
  | .bare => none
  | .single => some '\''
  | .double => some '"'

theorem takeToken_cons {m : Mode} {c : Char} (hslash : c ≠ '\\') (hstop : ¬ (m = .bare ∧ isSpace c = true))
    (s : Text) : takeToken (quoteChar m) (c :: s) =
      (c :: (takeToken (quoteChar (m.next c)) s).1, (takeToken (quoteChar (m.next c)) s).2) := by
  cases m with
  | bare =>
    have hspace : ¬ isSpace c = true := fun h => hstop ⟨rfl, h⟩
    rw [quoteChar, takeToken.eq_def]
    simp only [Mode.next]
    by_cases hs : c = '\''
    · simp [hs, quoteChar]
    · by_cases hd : c = '"'
      · simp [hd, quoteChar]
      · simp [hs, hd, hspace, hslash, quoteChar]
  | single =>
    rw [quoteChar, takeToken.eq_def]
    simp only [Mode.next]
    by_cases hs : c = '\''
    · simp [hs, quoteChar]
    · simp [hs, hslash, quoteChar]
  | double =>
    rw [quoteChar, takeToken.eq_def]
    simp only [Mode.next]
    by_cases hd : c = '"'
    · simp [hd, quoteChar]
    · simp [hd, hslash, quoteChar]

theorem step_tokenizer {m : Mode} {c : Char} (hslash : c ≠ '\\') :
    (inside m).step tokenizer c = inside (m.next c) := by
  unfold Quote.step
  rw [if_neg (by simp [inside]), if_neg fun h => hslash h.1]
  rfl

/-- What follows a token. -/
def EndsToken (q : Quote) (rest : Text) : Prop :=
  rest = [] ∨ q = inside .bare ∧ ∃ b r, rest = b :: r ∧ isSpace b = true

/-- The tokenizer reads up to the next bare blank. -/
theorem takeToken_of_read {q : Quote} {rest : Text} (hend : EndsToken q rest) {t : Text} {m : Mode}
    (h : ShellWords.read tokenizer isSpace (inside m) t = some q) :
    takeToken (quoteChar m) (t ++ rest) = (t, rest) := by
  induction hn : t.length using Nat.strong_induction_on generalizing t m with
  | _ n ih =>
    rcases t with _ | ⟨c, t⟩
    · rcases hend with rfl | ⟨hq, b, r, rfl, hb⟩
      · cases m <;> rfl
      · have hbare : m = .bare := congrArg Quote.mode ((Option.some.inj h).trans hq)
        have hne : b ≠ '\\' ∧ b ≠ '\'' ∧ b ≠ '"' := by
          refine ⟨?_, ?_, ?_⟩ <;> rintro rfl <;> exact absurd hb (by decide)
        rw [hbare, List.nil_append, quoteChar, takeToken.eq_def]
        simp [hne, hb]
    rw [List.length_cons] at hn
    by_cases hslash : c = '\\'
    · subst hslash
      rcases t with _ | ⟨c, t⟩
      · have hq : q = ⟨m, true⟩ := by
          cases m <;> exact Option.some.inj h.symm
        rcases hend with rfl | ⟨hbare, -⟩
        · cases m <;> rfl
        · rw [hq] at hbare
          cases hbare
      · have hread : ShellWords.read tokenizer isSpace (inside m) ('\\' :: c :: t) =
            ShellWords.read tokenizer isSpace (inside m) t := by
          cases m <;> rfl
        rw [hread] at h
        rw [List.cons_append, List.cons_append, takeToken, ih t.length (by simp at hn; omega) h rfl]
    · rw [ShellWords.read] at h
      split at h
      · cases h
      · next hstop =>
        rw [step_tokenizer hslash] at h
        have hbare : ¬ (m = .bare ∧ isSpace c = true) := fun hm => hstop ⟨congrArg inside hm.1, hm.2⟩
        rw [List.cons_append, takeToken_cons hslash hbare, ih t.length (by omega) h rfl]

/-- What it has read is a token. -/
theorem read_takeToken (s : Text) (m : Mode) :
    ∃ q, ShellWords.read tokenizer isSpace (inside m) (takeToken (quoteChar m) s).1 = some q ∧
      EndsToken q (takeToken (quoteChar m) s).2 ∧
      (takeToken (quoteChar m) s).1 ++ (takeToken (quoteChar m) s).2 = s := by
  induction hn : s.length using Nat.strong_induction_on generalizing s m with
  | _ n ih =>
    rcases s with _ | ⟨c, s⟩
    · exact ⟨inside m, rfl, Or.inl rfl, rfl⟩
    rw [List.length_cons] at hn
    by_cases hslash : c = '\\'
    · subst hslash
      rcases s with _ | ⟨c, s⟩
      · refine ⟨⟨m, true⟩, ?_, Or.inl ?_, ?_⟩ <;> cases m <;> rfl
      · obtain ⟨q, hread, hend, happ⟩ := ih s.length (by simp at hn; omega) s m rfl
        rw [takeToken]
        refine ⟨q, ?_, hend, congrArg (fun t => '\\' :: c :: t) happ⟩
        rw [← hread]
        cases m <;> rfl
    · by_cases hbare : m = .bare ∧ isSpace c = true
      · obtain ⟨rfl, hc⟩ := hbare
        have htake : takeToken (quoteChar .bare) (c :: s) = ([], c :: s) := by
          have hread : ShellWords.read tokenizer isSpace (inside .bare) [] = some (inside .bare) := rfl
          exact takeToken_of_read (Or.inr ⟨rfl, c, s, rfl, hc⟩) hread
        rw [htake]
        exact ⟨inside .bare, rfl, Or.inr ⟨rfl, c, s, rfl, hc⟩, rfl⟩
      · obtain ⟨q, hread, hend, happ⟩ := ih s.length (by omega) s (m.next c) rfl
        rw [takeToken_cons hslash hbare]
        refine ⟨q, ?_, hend, congrArg (c :: ·) happ⟩
        have hstop : ¬ (inside m = inside .bare ∧ isSpace c = true) := fun h =>
          hbare ⟨congrArg Quote.mode h.1, h.2⟩
        rw [ShellWords.read, if_neg hstop, step_tokenizer hslash, hread]

/-! ### Classification -/

/-- How an argument is classified: where the path in it begins, and whether the next argument is one. -/
def classifyArg (nextIsPath : Bool) (arg : Text) : Option ℕ × Bool :=
  if nextIsPath then (some 0, false)
  else if compiledbPathFlagNeedsSeparateArg arg then (none, true)
  else
    match compiledbPathFlagPrefix arg with
    | some prefixLen => (some prefixLen, false)
    | none => (if compiledbTokenLooksLikePath arg then some 0 else none, false)

/-- A relative path in a token. -/
structure PathPart where
  /-- The flag in front of it. -/
  flag : Text
  /-- The mark around it. -/
  quote : Option Char
  path : Text
  deriving DecidableEq

/-- The token with another path. -/
def PathPart.withPath (p : PathPart) (path : Text) : Text :=
  p.flag ++ (p.quote.toList ++ path ++ p.quote.toList)

/-- The relative path that is replaced in a token. -/
def pathPart (nextIsPath : Bool) (token : Text) : Option PathPart :=
  (classifyArg nextIsPath token).1.bind fun k =>
    if betweenQuotes (token.drop k) = [] ∨ isFullPath (betweenQuotes (token.drop k)) = true then none
    else some ⟨token.take k, quoteAround (token.drop k), betweenQuotes (token.drop k)⟩

/-- A token with its path replaced, or as it is. -/
def rewritten (baseDir : Text) (nextIsPath : Bool) (token : Text) : Text :=
  match pathPart nextIsPath token with
  | none => token
  | some p => p.withPath (compiledbAppendAbsolutePath baseDir p.path)

section

variable {baseDir arg token abs : Text} {next : Bool} {p : PathPart}

theorem take_append_maybeQuotedPath (k : ℕ) :
    token.take k ++ compiledbAppendMaybeQuotedPath baseDir (token.drop k) =
      match (if betweenQuotes (token.drop k) = [] ∨ isFullPath (betweenQuotes (token.drop k)) = true then none
        else some (PathPart.mk (token.take k) (quoteAround (token.drop k)) (betweenQuotes (token.drop k)))) with
      | none => token
      | some p => p.withPath (compiledbAppendAbsolutePath baseDir p.path) := by
  unfold compiledbAppendMaybeQuotedPath
  split_ifs
  · exact List.take_append_drop k token
  · rfl

theorem rewriteToken_eq (baseDir token : Text) (next : Bool) :
    compiledbRewriteToken baseDir token next =
      (rewritten baseDir next token, (classifyArg next token).2) := by
  have hwhole : token.take 0 ++ compiledbAppendMaybeQuotedPath baseDir (token.drop 0) = _ :=
    take_append_maybeQuotedPath 0
  rw [List.take_zero, List.nil_append, List.drop_zero] at hwhole
  unfold compiledbRewriteToken rewritten pathPart classifyArg
  by_cases hnext : next = true
  · rw [if_pos hnext, if_pos hnext]
    exact congrArg (·, false) hwhole
  rw [if_neg hnext, if_neg hnext]
  by_cases hflag : compiledbPathFlagNeedsSeparateArg token = true
  · rw [if_pos hflag, if_pos hflag]
    rfl
  rw [if_neg hflag, if_neg hflag]
  cases compiledbPathFlagPrefix token with
  | some k => exact congrArg (·, false) (take_append_maybeQuotedPath k)
  | none =>
    dsimp only
    by_cases hlooks : compiledbTokenLooksLikePath token = true
    · rw [if_pos hlooks, if_pos hlooks]
      exact congrArg (·, false) hwhole
    · rw [if_neg hlooks, if_neg hlooks]
      rfl

theorem rewritten_of_none (h : pathPart next token = none) : rewritten baseDir next token = token := by
  unfold rewritten
  rw [h]

theorem quoteAround_eq_some {c : Char} (h : quoteAround arg = some c) :
    (c = '\'' ∨ c = '"') ∧ arg = c :: (betweenQuotes arg ++ [c]) := by
  have hbetween : betweenQuotes arg = arg.tail.dropLast := by
    unfold betweenQuotes
    rw [if_pos (by rw [h]; rfl)]
  rw [hbetween]
  unfold quoteAround at h
  split at h
  · next hcond =>
    obtain ⟨hlen, hmark, hlast⟩ := hcond
    obtain ⟨d, l, rfl⟩ := List.exists_cons_of_ne_nil (List.ne_nil_of_length_pos (by omega : 0 < arg.length))
    have hd : d = c := Option.some.inj h
    subst hd
    have hne : l ≠ [] := by
      rintro rfl
      simp at hlen
    refine ⟨by simpa using hmark, ?_⟩
    rw [List.head?_cons, List.getLast?_cons_of_ne_nil hne] at hlast
    rw [List.tail_cons, List.dropLast_append_getLast? d hlast]
  · cases h

theorem betweenQuotes_of_none (h : quoteAround arg = none) : betweenQuotes arg = arg := by
  unfold betweenQuotes
  rw [if_neg (by rw [h]; exact Bool.false_ne_true)]

theorem pathPart_eq_some (h : pathPart next token = some p) :
    (classifyArg next token).1 = some p.flag.length ∧ token = p.withPath p.path ∧ p.path ≠ [] ∧
      isFullPath p.path = false ∧ (p.quote = none ∨ p.quote = some '\'' ∨ p.quote = some '"') := by
  obtain ⟨k, hk, hp⟩ := Option.bind_eq_some_iff.1 h
  split at hp
  · cases hp
  · next hcond =>
    rw [not_or] at hcond
    cases Option.some.inj hp
    have harg : token.drop k = (quoteAround (token.drop k)).toList ++ betweenQuotes (token.drop k) ++
        (quoteAround (token.drop k)).toList := by
      cases hq : quoteAround (token.drop k) with
      | none => rw [betweenQuotes_of_none hq]; simp
      | some c => simpa using (quoteAround_eq_some hq).2
    have hlen : k ≤ token.length := by
      by_contra hlt
      apply hcond.1
      rw [List.drop_eq_nil_of_le (by omega)]
      rfl
    refine ⟨?_, ?_, hcond.1, by simpa using hcond.2, ?_⟩
    · rw [hk, List.length_take, Nat.min_eq_left hlen]
    · unfold PathPart.withPath
      dsimp only
      rw [← harg, List.take_append_drop]
    · cases hq : quoteAround (token.drop k) with
      | none => exact Or.inl rfl
      | some c =>
        rcases (quoteAround_eq_some hq).1 with rfl | rfl
        · exact Or.inr (Or.inl rfl)
        · exact Or.inr (Or.inr rfl)

/-- No flag is the beginning of another. -/
theorem prefix_free : ∀ f ∈ pathFlagPrefixes, ∀ g ∈ pathFlagPrefixes, f <+: g → f = g := by
  decide

theorem pathFlagPrefix_spec {k : ℕ} (h : compiledbPathFlagPrefix arg = some k) :
    ∃ f ∈ pathFlagPrefixes, f.length = k ∧ f <+: arg := by
  obtain ⟨f, hf, rfl⟩ := Option.map_eq_some_iff.1 h
  have hcond := List.find?_some hf
  rw [Bool.and_eq_true, List.isPrefixOf_iff_prefix] at hcond
  exact ⟨f, List.mem_of_find?_eq_some hf, rfl, hcond.2⟩

theorem pathFlagPrefix_append {f s : Text} (hf : f ∈ pathFlagPrefixes) (hs : s ≠ []) :
    compiledbPathFlagPrefix (f ++ s) = some f.length := by
  have hlen : f.length < (f ++ s).length := by
    rw [List.length_append]
    exact Nat.lt_add_of_pos_right (List.length_pos_of_ne_nil hs)
  have hsome : (pathFlagPrefixes.find? fun g => g.length < (f ++ s).length && g.isPrefixOf (f ++ s)).isSome := by
    rw [List.find?_isSome]
    refine ⟨f, hf, ?_⟩
    rw [Bool.and_eq_true, List.isPrefixOf_iff_prefix]
    exact ⟨by simpa using hlen, List.prefix_append f s⟩
  obtain ⟨g, hg⟩ := Option.isSome_iff_exists.1 hsome
  have hcond := List.find?_some hg
  have hmem := List.mem_of_find?_eq_some hg
  rw [Bool.and_eq_true, List.isPrefixOf_iff_prefix] at hcond
  have heq : f = g := by
    rcases List.prefix_or_prefix_of_prefix (List.prefix_append f s) hcond.2 with h | h
    · exact prefix_free f hf g hmem h
    · exact (prefix_free g hmem f hf h).symm
  unfold compiledbPathFlagPrefix
  rw [hg, heq]
  rfl

theorem pathFlagPrefix_eq_none (h : arg.head? ≠ some '-') : compiledbPathFlagPrefix arg = none := by
  cases hk : compiledbPathFlagPrefix arg with
  | none => rfl
  | some k =>
    obtain ⟨f, hf, -, s, rfl⟩ := pathFlagPrefix_spec hk
    have hdash : ∀ f ∈ pathFlagPrefixes, f.head? = some '-' := by decide
    rw [List.head?_append, hdash f hf] at h
    exact absurd rfl h

theorem needsSeparateArg_eq_false (h : '/' ∈ arg) : compiledbPathFlagNeedsSeparateArg arg = false := by
  have hflags : ∀ f ∈ pathFlags, '/' ∉ f := by decide
  unfold compiledbPathFlagNeedsSeparateArg
  rw [List.any_eq_false]
  intro f hf heq
  rw [decide_eq_true_iff] at heq
  exact hflags f hf (heq ▸ h)

theorem exists_of_isFullPath (h : isFullPath abs = true) : ∃ s, abs = '/' :: s := by
  cases abs with
  | nil => cases h
  | cons c s => exact ⟨s, by simpa [isFullPath] using h⟩

theorem printJson_of_isFullPath (h : isFullPath abs = true) :
    printJson abs = some (JsonString.escape abs) := by
  obtain ⟨s, rfl⟩ := exists_of_isFullPath h
  rw [printJson_eq, if_pos (List.any_eq_true.2 ⟨'/', List.mem_cons_self, by decide⟩)]

/-- The path of a token is found again once it is absolute. -/
theorem betweenQuotes_mark {quote : Option Char}
    (hmark : quote = none ∨ quote = some '\'' ∨ quote = some '"') (habs : isFullPath abs = true) :
    betweenQuotes (quote.toList ++ abs ++ quote.toList) = abs := by
  obtain ⟨s, rfl⟩ := exists_of_isFullPath habs
  have hquoted : ∀ c, (c = '\'' ∨ c = '"') → betweenQuotes (c :: ('/' :: s ++ [c])) = '/' :: s := by
    intro c hc
    have hquote : quoteAround (c :: ('/' :: s ++ [c])) = some c := by
      unfold quoteAround
      rw [if_pos]
      · rfl
      · refine ⟨by simp, by simpa using hc, ?_⟩
        rw [← List.cons_append, List.getLast?_concat]
        rfl
    have h := (quoteAround_eq_some hquote).2
    exact (List.append_cancel_right (List.cons.inj h).2).symm
  rcases hmark with rfl | rfl | rfl
  · rw [Option.toList_none, List.nil_append, List.append_nil]
    apply betweenQuotes_of_none
    unfold quoteAround
    rw [if_neg]
    rintro ⟨-, h, -⟩
    simp at h
  · exact hquoted _ (Or.inl rfl)
  · exact hquoted _ (Or.inr rfl)

/-- A token whose path is absolute is kept, and the next argument is classified as before. -/
theorem pathPart_withPath (h : pathPart next token = some p) (habs : isFullPath abs = true) :
    pathPart next (p.withPath abs) = none ∧
      (classifyArg next (p.withPath abs)).2 = (classifyArg next token).2 := by
  obtain ⟨hlen, htoken, hne, hrel, hmark⟩ := pathPart_eq_some h
  have hkept : ∀ k, k = p.flag.length →
      betweenQuotes ((p.withPath abs).drop k) = [] ∨
        isFullPath (betweenQuotes ((p.withPath abs).drop k)) = true := by
    rintro k rfl
    refine Or.inr ?_
    unfold PathPart.withPath
    rw [List.drop_left, betweenQuotes_mark hmark habs, habs]
  have hslash : '/' ∈ p.withPath abs := by
    obtain ⟨s, rfl⟩ := exists_of_isFullPath habs
    unfold PathPart.withPath
    simp
  unfold pathPart
  unfold classifyArg at hlen ⊢
  by_cases hnext : next = true
  · rw [if_pos hnext] at hlen
    rw [if_pos hnext, if_pos hnext, Option.bind_some, if_pos (hkept 0 (Option.some.inj hlen))]
    exact ⟨rfl, rfl⟩
  rw [if_neg hnext] at hlen
  rw [if_neg hnext, if_neg hnext, needsSeparateArg_eq_false hslash, if_neg Bool.false_ne_true]
  by_cases hflag : compiledbPathFlagNeedsSeparateArg token = true
  · rw [if_pos hflag] at hlen
    cases hlen
  rw [if_neg hflag] at hlen
  rw [if_neg hflag]
  cases hk : compiledbPathFlagPrefix token with
  | some k =>
    rw [hk] at hlen
    obtain ⟨f, hf, hfk, s, hs⟩ := pathFlagPrefix_spec hk
    have hflagEq : p.flag = f := by
      have hpre : p.flag ++ (p.quote.toList ++ p.path ++ p.quote.toList) = f ++ s := htoken.symm.trans hs.symm
      exact (List.append_inj hpre ((Option.some.inj hlen).symm.trans hfk.symm)).1
    have hrest : p.quote.toList ++ abs ++ p.quote.toList ≠ [] := by
      intro hnil
      have habsNil : abs = [] := by simpa using (List.append_eq_nil_iff.1 (List.append_eq_nil_iff.1 hnil).1).2
      rw [habsNil] at habs
      cases habs
    have hagain : compiledbPathFlagPrefix (p.withPath abs) = some p.flag.length := by
      unfold PathPart.withPath
      rw [hflagEq]
      exact pathFlagPrefix_append hf hrest
    rw [hagain]
    dsimp only
    rw [Option.bind_some, if_pos (hkept _ rfl)]
    exact ⟨rfl, rfl⟩
  | none =>
    rw [hk] at hlen
    dsimp only at hlen
    have hlen0 : 0 = p.flag.length := by
      split at hlen
      · exact Option.some.inj hlen
      · cases hlen
    have hhead : (p.withPath abs).head? ≠ some '-' := by
      have hnil : p.flag = [] := List.length_eq_zero_iff.1 hlen0.symm
      obtain ⟨s, rfl⟩ := exists_of_isFullPath habs
      unfold PathPart.withPath
      rw [hnil]
      rcases hmark with hq | hq | hq <;> simp [hq]
    rw [pathFlagPrefix_eq_none hhead]
    dsimp only
    split
    · rw [Option.bind_some, if_pos (hkept 0 hlen0)]
      exact ⟨rfl, rfl⟩
    · exact ⟨rfl, rfl⟩

end

/-! ### The tokens of a command -/

/-- The tokens in the order in which they are rewritten, each with whether it is the argument of a flag. -/
def tokensLoop : ℕ → Bool → Text → List (Bool × Text)
  | 0, _, _ => []
  | fuel + 1, nextIsPath, s =>
    if s.dropWhile isSpace = [] then []
    else
      let (token, rest) := takeToken none (s.dropWhile isSpace)
      (nextIsPath, token) :: tokensLoop fuel (classifyArg nextIsPath token).2 rest

/-- The tokens of a command. -/
def commandTokens (cmd : Text) : List (Bool × Text) := tokensLoop (cmd.length + 1) false cmd

/-- A command begins with blanks and a token. -/
structure FirstToken (s blanks token rest : Text) : Prop where
  text : s = blanks ++ (token ++ rest)
  blanks : ∀ c ∈ blanks, isSpace c = true
  ne_nil : token ≠ []
  read : ∃ q, ShellWords.read tokenizer isSpace (inside .bare) token = some q ∧ EndsToken q rest

section

variable {baseDir s blanks token rest : Text} {next : Bool} {fuel : ℕ}

theorem exists_firstToken (h : s.dropWhile isSpace ≠ []) :
    ∃ token rest, FirstToken s (s.takeWhile isSpace) token rest := by
  obtain ⟨q, hread, hend, happ⟩ := read_takeToken (s.dropWhile isSpace) .bare
  refine ⟨(takeToken none (s.dropWhile isSpace)).1, (takeToken none (s.dropWhile isSpace)).2, ?_, ?_, ?_,
    q, hread, hend⟩
  · exact (congrArg (s.takeWhile isSpace ++ ·) happ).trans List.takeWhile_append_dropWhile |>.symm
  · exact fun c hc => List.mem_takeWhile_imp hc
  · -- A token that is empty is followed by a blank.
    intro hnil
    have hnot := List.head?_dropWhile_not isSpace s
    rw [quoteChar, hnil, List.nil_append] at happ
    rcases hend with hrest | ⟨-, b, r, hrest, hb⟩
    · exact h (happ.symm.trans hrest)
    · rw [happ.symm.trans hrest] at hnot
      exact absurd (hb.symm.trans hnot) (by decide)

theorem rewriteLoop_blanks (h : s.dropWhile isSpace = []) :
    rewriteLoop baseDir (fuel + 1) next s = s := by
  have hsplit := List.takeWhile_append_dropWhile (p := isSpace) (l := s)
  rw [h, List.append_nil] at hsplit
  rw [rewriteLoop]
  dsimp only
  rw [if_pos h, hsplit]

theorem tokensLoop_blanks (h : s.dropWhile isSpace = []) : tokensLoop (fuel + 1) next s = [] := by
  rw [tokensLoop, if_pos h]

namespace FirstToken

theorem head (h : FirstToken s blanks token rest) : ∀ c, token.head? = some c → isSpace c = false := by
  obtain ⟨q, hread, -⟩ := h.read
  intro c hc
  obtain ⟨l, rfl⟩ := List.head?_eq_some_iff.1 hc
  rw [ShellWords.read] at hread
  split at hread
  · cases hread
  · next hstop => simpa using fun hspace => hstop ⟨rfl, hspace⟩

theorem takeWhile (h : FirstToken s blanks token rest) : s.takeWhile isSpace = blanks := by
  obtain ⟨c, l, rfl⟩ := List.exists_cons_of_ne_nil h.ne_nil
  have hc := h.head c rfl
  rw [h.text, List.takeWhile_append_of_pos h.blanks, List.cons_append, List.takeWhile_cons, hc,
    if_neg Bool.false_ne_true, List.append_nil]

theorem dropWhile (h : FirstToken s blanks token rest) : s.dropWhile isSpace = token ++ rest := by
  obtain ⟨c, l, rfl⟩ := List.exists_cons_of_ne_nil h.ne_nil
  have hc := h.head c rfl
  rw [h.text, List.dropWhile_append_of_pos h.blanks, List.cons_append, List.dropWhile_cons, hc,
    if_neg Bool.false_ne_true]

theorem takeToken (h : FirstToken s blanks token rest) :
    Metatup.takeToken none (s.dropWhile isSpace) = (token, rest) := by
  obtain ⟨q, hread, hend⟩ := h.read
  rw [h.dropWhile]
  exact takeToken_of_read hend hread

theorem dropWhile_ne_nil (h : FirstToken s blanks token rest) : s.dropWhile isSpace ≠ [] := by
  rw [h.dropWhile]
  exact List.append_ne_nil_of_left_ne_nil h.ne_nil rest

theorem length_lt (h : FirstToken s blanks token rest) : rest.length < s.length := by
  have hpos := List.length_pos_of_ne_nil h.ne_nil
  rw [h.text, List.length_append, List.length_append]
  omega

theorem rewriteLoop (h : FirstToken s blanks token rest) :
    rewriteLoop baseDir (fuel + 1) next s =
      blanks ++ (rewritten baseDir next token ++
        Metatup.rewriteLoop baseDir fuel (classifyArg next token).2 rest) := by
  rw [Metatup.rewriteLoop]
  dsimp only
  rw [if_neg h.dropWhile_ne_nil, h.takeToken, rewriteToken_eq, h.takeWhile]

theorem tokensLoop (h : FirstToken s blanks token rest) :
    tokensLoop (fuel + 1) next s =
      (next, token) :: Metatup.tokensLoop fuel (classifyArg next token).2 rest := by
  rw [Metatup.tokensLoop, if_neg h.dropWhile_ne_nil, h.takeToken]

end FirstToken

theorem mem_of_mem_tokensLoop {e : Bool × Text} (h : e ∈ tokensLoop fuel next s) {c : Char}
    (hc : c ∈ e.2) : c ∈ s := by
  induction fuel generalizing s next with
  | zero => exact absurd h List.not_mem_nil
  | succ fuel ih =>
    by_cases hblanks : s.dropWhile isSpace = []
    · rw [tokensLoop_blanks hblanks] at h
      exact absurd h List.not_mem_nil
    · obtain ⟨token, rest, hfirst⟩ := exists_firstToken hblanks
      rw [hfirst.tokensLoop] at h
      rw [hfirst.text, List.mem_append, List.mem_append]
      rcases List.mem_cons.1 h with rfl | h
      · exact Or.inr (Or.inl hc)
      · exact Or.inr (Or.inr (ih h))

/-- What is behind a token stays empty or begins with a blank. -/
theorem EndsToken.rewriteLoop {q : Quote} (h : EndsToken q rest) (hfuel : rest.length < fuel) :
    EndsToken q (rewriteLoop baseDir fuel next rest) := by
  obtain ⟨fuel, rfl⟩ := Nat.exists_eq_succ_of_ne_zero (Nat.ne_zero_of_lt hfuel)
  by_cases hblanks : rest.dropWhile isSpace = []
  · rw [Nat.succ_eq_add_one, rewriteLoop_blanks hblanks]
    exact h
  · obtain ⟨token, rest', hfirst⟩ := exists_firstToken hblanks
    rcases h with rfl | ⟨hq, b, r, rfl, hb⟩
    · exact absurd rfl hblanks
    · rw [Nat.succ_eq_add_one, hfirst.rewriteLoop, List.takeWhile_cons, if_pos hb]
      exact Or.inr ⟨hq, b, _, rfl, hb⟩

/-- The absolute path of `compiledb_append_absolute_path` is one. -/
theorem isFullPath_absolutePath (habs : isFullPath baseDir = true) (path : Text) :
    isFullPath (compiledbAppendAbsolutePath baseDir path) = true := by
  obtain ⟨s, rfl⟩ := exists_of_isFullPath habs
  unfold compiledbAppendAbsolutePath
  rw [compiledbCanonicalizePathSimple_eq, isFullPath_canonicalizePathSimple]
  rfl

/-- A token that has been rewritten is kept. -/
theorem rewritten_rewritten (habs : isFullPath baseDir = true) (next : Bool) (token : Text) :
    rewritten baseDir next (rewritten baseDir next token) = rewritten baseDir next token ∧
      (classifyArg next (rewritten baseDir next token)).2 = (classifyArg next token).2 := by
  cases hp : pathPart next token with
  | none =>
    have hkept : rewritten baseDir next token = token := rewritten_of_none hp
    rw [hkept]
    exact ⟨hkept, rfl⟩
  | some p =>
    have htext : rewritten baseDir next token =
        p.withPath (compiledbAppendAbsolutePath baseDir p.path) := by
      unfold rewritten
      rw [hp]
    obtain ⟨hnone, hnext⟩ := pathPart_withPath hp (isFullPath_absolutePath habs p.path)
    rw [htext]
    refine ⟨?_, hnext⟩
    unfold rewritten
    rw [hnone]

theorem rewritten_ne_nil (habs : isFullPath baseDir = true) (h : token ≠ []) :
    rewritten baseDir next token ≠ [] := by
  cases hp : pathPart next token with
  | none =>
    rw [rewritten_of_none hp]
    exact h
  | some p =>
    obtain ⟨s, hs⟩ := exists_of_isFullPath (isFullPath_absolutePath habs p.path)
    unfold rewritten PathPart.withPath
    rw [hp]
    simp [hs]

/-- Rewriting again changes nothing when the tokenizer reads the tokens as it has read those before. -/
theorem rewriteLoop_again (habs : isFullPath baseDir = true) (hfuel : s.length < fuel)
    (hread : ∀ e ∈ tokensLoop fuel next s,
      ShellWords.read tokenizer isSpace (inside .bare) (rewritten baseDir e.1 e.2) =
        ShellWords.read tokenizer isSpace (inside .bare) e.2) {fuel' : ℕ}
    (hfuel' : (rewriteLoop baseDir fuel next s).length < fuel') :
    rewriteLoop baseDir fuel' next (rewriteLoop baseDir fuel next s) =
      rewriteLoop baseDir fuel next s := by
  induction fuel generalizing s next fuel' with
  | zero => exact absurd hfuel (Nat.not_lt_zero _)
  | succ fuel ih =>
    obtain ⟨fuel', rfl⟩ := Nat.exists_eq_succ_of_ne_zero (Nat.ne_zero_of_lt hfuel')
    by_cases hblanks : s.dropWhile isSpace = []
    · rw [rewriteLoop_blanks hblanks, Nat.succ_eq_add_one, rewriteLoop_blanks hblanks]
    · obtain ⟨token, rest, hfirst⟩ := exists_firstToken hblanks
      obtain ⟨q, hq, hend⟩ := hfirst.read
      have hlt := hfirst.length_lt
      rw [hfirst.tokensLoop, List.forall_mem_cons] at hread
      have hagain : FirstToken (rewriteLoop baseDir (fuel + 1) next s) (s.takeWhile isSpace)
          (rewritten baseDir next token)
          (rewriteLoop baseDir fuel (classifyArg next token).2 rest) :=
        ⟨hfirst.rewriteLoop, hfirst.blanks, rewritten_ne_nil habs hfirst.ne_nil, q, hread.1.trans hq,
          hend.rewriteLoop (by omega)⟩
      have hlt' := hagain.length_lt
      obtain ⟨hkept, hnext⟩ := rewritten_rewritten habs next token
      rw [Nat.succ_eq_add_one, hagain.rewriteLoop, hkept, hnext,
        ih (by omega) hread.2 (by omega), hfirst.rewriteLoop]

end

end Metatup
