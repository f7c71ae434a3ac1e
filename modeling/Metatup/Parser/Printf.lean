import Metatup.Parser.NameList
import Mathlib.Algebra.Group.Nat.Defs

/-!
# The `%`-flags

`tup_printf` replaces the flags of a command, of a display text and of the paths of a rule by the names
in the lists of the rule.

* `readFlag`: the flag after a `%`.
* `expandFlag`: the text it stands for.
* `tupPrintf`: the loop over a text.
* `numbered`: the walk over a list for a flag with a number.
-/

namespace Metatup

/-! ### Reading a flag -/

/-- What can stand after a `%`. -/
inductive PercentFlag
  | input | base | extless | orderOnly | ext | output | outputExtless | dir | glob | group | percent
  | quoted (quote : Char) (output : Bool)
  | number (num : ℕ) (kind : Char)
  /-- A node reference, which is left for `eval`. -/
  | node (digits : Text)
  deriving DecidableEq

/-- The value of decimal digits. -/
def decimal (digits : Text) : ℕ := digits.foldl (fun n c => 10 * n + (c.toNat - '0'.toNat)) 0

/-- The `int` that the result of `strtol` is stored in; `none` is the error for a number that is out of
the range of a `long`. -/
def strtolInt (digits : Text) : Option ℤ :=
  if decimal digits < 2 ^ 63 then some (Int.bmod (decimal digits) (2 ^ 32)) else none

/-- A flag that begins with a digit. -/
def readNumber (s : Text) : Option (PercentFlag × Text) := do
  let digits := s.takeWhile Char.isDigit
  let num ← strtolInt digits
  match s.dropWhile Char.isDigit with
  | [] => none
  | c :: p =>
    if c = 't' then some (.node digits, p)
    else if num ≤ 0 ∨ 99 ≤ num then none
    else if c = 'f' ∨ c = 'b' ∨ c = 'B' ∨ c = 'o' ∨ c = 'i' then some (.number num.toNat c, p)
    else none

/-- The flag after a `%`, with what comes after it. Source: `parser.c` `tup_printf` -/
def readFlag : Text → Option (PercentFlag × Text)
  | 'f' :: p => some (.input, p)
  | 'b' :: p => some (.base, p)
  | 'B' :: p => some (.extless, p)
  | 'i' :: p => some (.orderOnly, p)
  | 'e' :: p => some (.ext, p)
  | 'o' :: p => some (.output, p)
  | 'O' :: p => some (.outputExtless, p)
  | '\'' :: 'f' :: p => some (.quoted '\'' false, p)
  | '\'' :: 'o' :: p => some (.quoted '\'' true, p)
  | '"' :: 'f' :: p => some (.quoted '"' false, p)
  | '"' :: 'o' :: p => some (.quoted '"' true, p)
  | 'd' :: p => some (.dir, p)
  | 'g' :: p => some (.glob, p)
  | '<' :: p => some (.group, p)
  | '%' :: p => some (.percent, p)
  | c :: p => if c.isDigit then readNumber (c :: p) else none
  | [] => none

/-! ### Expanding a flag -/

/-- What `tup_printf` is given besides the text. -/
structure PrintfArgs where
  nl : NameList
  onl : Option NameList := none
  ooinputNl : Option NameList := none
  ext : Option Text := none
  /-- The last name of the directory of the Tupfile; at the top, that of the directory `.tup` is in. -/
  dirName : Text

/-- Source: `estring.c` `estring_append_escape` -/
def appendEscape (quote : Char) (s : Text) : Text :=
  s.flatMap fun c =>
    if c = quote then (if quote = '\'' then "'\"'\"'".toList else "\\\"".toList) else [c]

/-- The texts of a list of names, with blanks between them. -/
def spaced (texts : List Text) : Text := [' '].intercalate texts

/-- The loop over a list that has to have a name. -/
def listed (nl : NameList) (text : NameEntry → Option Text) : Option Text :=
  if nl.entries = [] then none else (nl.entries.mapM text).map spaced

/-- The loop over a list for a flag with a number: it takes the elements with the number, and stops at
the first one with a larger number. -/
def numbered {α : Type*} (number : α → ℕ) (num : ℕ) : List α → List α
  | [] => []
  | x :: l =>
    if number x = num then x :: numbered number num l
    else if num < number x then []
    else numbered number num l

/-- The list that a flag with a number is about. No list is an empty one, but for `%i`. -/
def numberedList (args : PrintfArgs) (kind : Char) : Option NameList :=
  match kind with
  | 'o' => some (args.onl.getD initNameList)
  | 'i' => args.ooinputNl
  | _ => some args.nl

/-- What of a name a flag with a number stands for. -/
def numberedText (kind : Char) (nle : NameEntry) : Option Text :=
  match kind with
  | 'B' => nle.percentB
  | 'b' => some nle.base
  | _ => some nle.path

/-- The text a flag stands for; `none` are the errors. Source: `parser.c` `tup_printf` -/
def expandFlag (args : PrintfArgs) (expandPercperc : Bool) : PercentFlag → Option Text
  | .input => listed args.nl fun nle => some nle.path
  | .base => listed args.nl fun nle => some nle.base
  | .extless => listed args.nl NameEntry.percentB
  | .orderOnly => args.ooinputNl.bind fun nl => listed nl fun nle => some nle.path
  | .ext => args.ext
  | .output => args.onl.bind fun nl => listed nl fun nle => some nle.path
  | .outputExtless => args.onl.bind fun nl =>
    match nl.entries with
    | [nle] => nle.percentO
    | _ => none
  | .quoted quote output =>
    (if output then args.onl else some args.nl).bind fun nl =>
      listed nl fun nle => some (quote :: appendEscape quote nle.path ++ [quote])
  | .dir => some args.dirName
  | .glob =>
    match args.nl.entries with
    | [nle] =>
      if args.nl.globcnt = 0 then none
      else do
        let start ← nle.glob 0
        let len ← nle.glob 1
        return (nle.base.drop start).take len
    | _ => none
  | .number num kind => (numberedList args kind).bind fun nl =>
    ((numbered NameEntry.orderid num nl.entries).mapM (numberedText kind)).map spaced
  | .node digits => some ('%' :: digits ++ ['t'])
  | .group => some "%<".toList
  | .percent => some (if expandPercperc then "%".toList else "%%".toList)

/-! ### The loop -/

/-- The loop of `tup_printf`; the fuel is the length of what is left. -/
def tupPrintfLoop (args : PrintfArgs) (expandPercperc : Bool) : ℕ → Text → Option Text
  | _, [] => some []
  | 0, _ :: _ => none
  | fuel + 1, c :: s =>
    if c = '%' then do
      let (flag, p) ← readFlag s
      let text ← expandFlag args expandPercperc flag
      let rest ← tupPrintfLoop args expandPercperc fuel p
      return text ++ rest
    else (tupPrintfLoop args expandPercperc fuel s).map (c :: ·)

/-- Source: `parser.c` `tup_printf`, with no extra command -/
def tupPrintf (args : PrintfArgs) (expandPercperc : Bool) (cmd : Text) : Option Text :=
  tupPrintfLoop args expandPercperc cmd.length cmd

/-- Source: `parser.c` `tup_printf`; the extra command is what the rule wrote after a macro. -/
def tupPrintfExtra (args : PrintfArgs) (cmd : Text) (extraCommand : Option Text) : Option Text :=
  match extraCommand with
  | none => tupPrintf args true cmd
  | some extra => do
    let text ← tupPrintf args true cmd
    let textra ← tupPrintf args true extra
    return text ++ ' ' :: textra

/-! ### Equations -/

theorem readNumber_length {s p : Text} {flag : PercentFlag} (h : readNumber s = some (flag, p)) :
    p.length < s.length := by
  have hlen : (s.dropWhile Char.isDigit).length ≤ s.length := (List.dropWhile_suffix _).length_le
  unfold readNumber at h
  obtain ⟨num, -, h⟩ := Option.bind_eq_some_iff.1 h
  split at h
  · cases h
  · next c q hrest =>
    rw [hrest, List.length_cons] at hlen
    have hp : p = q := by
      split at h
      · cases h
        rfl
      · split at h
        · cases h
        · split at h
          · cases h
            rfl
          · cases h
    rw [hp]
    omega

theorem readFlag_length {s p : Text} {flag : PercentFlag} (h : readFlag s = some (flag, p)) :
    p.length < s.length := by
  unfold readFlag at h
  split at h
  case h_16 c q _ _ _ _ _ _ _ _ _ _ _ _ _ _ _ =>
    split at h
    · exact readNumber_length h
    · cases h
  case h_17 => cases h
  all_goals
    cases h
    simp only [List.length_cons]
    omega

/-- More fuel than the text is long makes no difference. -/
theorem tupPrintfLoop_eq (args : PrintfArgs) (b : Bool) {fuel : ℕ} {s : Text} (h : s.length ≤ fuel) :
    tupPrintfLoop args b fuel s = tupPrintf args b s := by
  have key : ∀ n m s, s.length ≤ n → s.length ≤ m →
      tupPrintfLoop args b n s = tupPrintfLoop args b m s := by
    intro n
    induction n with
    | zero =>
      intro m s hn _
      obtain rfl := List.eq_nil_of_length_eq_zero (Nat.le_zero.1 hn)
      unfold tupPrintfLoop
      rfl
    | succ n ih =>
      intro m s hn hm
      cases s with
      | nil =>
        unfold tupPrintfLoop
        rfl
      | cons c s =>
        obtain ⟨m, rfl⟩ : ∃ k, m = k + 1 := Nat.exists_eq_succ_of_ne_zero (by
          rintro rfl
          simp at hm)
        simp only [List.length_cons, Nat.add_le_add_iff_right] at hn hm
        rw [tupPrintfLoop, tupPrintfLoop]
        split
        · cases hflag : readFlag s with
          | none => rfl
          | some r =>
            obtain ⟨flag, p⟩ := r
            have hlt := readFlag_length hflag
            simp only [Option.bind_eq_bind, Option.bind_some]
            rw [ih m p (by omega) (by omega)]
        · rw [ih m s hn hm]
  exact key fuel s.length s h le_rfl

section

variable (args : PrintfArgs) (b : Bool)

@[simp] theorem tupPrintf_nil : tupPrintf args b [] = some [] := rfl

theorem tupPrintf_percent (s : Text) : tupPrintf args b ('%' :: s) = (readFlag s).bind fun r =>
    (expandFlag args b r.1).bind fun text => (tupPrintf args b r.2).map (text ++ ·) := by
  unfold tupPrintf
  rw [List.length_cons, tupPrintfLoop, if_pos rfl]
  cases hflag : readFlag s with
  | none => rfl
  | some r =>
    obtain ⟨flag, p⟩ := r
    simp only [Option.bind_eq_bind, Option.bind_some]
    rw [tupPrintfLoop_eq args b (readFlag_length hflag).le]
    cases expandFlag args b flag with
    | none => rfl
    | some text =>
      unfold tupPrintf
      cases tupPrintfLoop args b p.length p <;> rfl

end

end Metatup
