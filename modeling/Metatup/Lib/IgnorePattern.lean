import Mathlib.Data.List.Basic

/-!
# The patterns of an ignore file

A line of an ignore file is a pattern for paths below the directory of the file. Characters are bytes.
Two asterisks in a row are read as two wildcards, each of which stops at a slash; the named classes
inside brackets are left out.

* `Glob`, `GlobsMatch`: wildcards and what they match.
* `globs`: the wildcards that a text stands for.
* `readIgnore`: the rule that a line stands for, if it is one.
* `IgnoresExactly`: a line ignores one path and no other.
* `GlobsMatch.length_eq`, `GlobsMatch.longer`: without an asterisk all matches are equally long, with
  one there is always a longer one.
-/

namespace Metatup.Lib

/-- A wildcard, or a character that stands for itself. -/
inductive Glob
  | lit (c : Char)
  | any
  | star
  | oneOf (negated : Bool) (ranges : List (Char × Char))
  deriving DecidableEq

/-- The character can stand for the wildcard. -/
def Glob.Accepts : Glob → Char → Prop
  | .lit c', c => c = c'
  | .any, c => c ≠ '/'
  | .star, _ => False
  | .oneOf negated ranges, c =>
    c ≠ '/' ∧ (negated = false ↔ ∃ range ∈ ranges, range.1 ≤ c ∧ c ≤ range.2)

def GlobsMatch : List Glob → List Char → Prop
  | [], s => s = []
  | .star :: gs, s => ∃ run rest, s = run ++ rest ∧ '/' ∉ run ∧ GlobsMatch gs rest
  | g :: gs, s => ∃ c rest, s = c :: rest ∧ g.Accepts c ∧ GlobsMatch gs rest

/-- How far the reader is inside a pattern. -/
inductive GlobMode
  | plain
  /-- behind a backslash -/
  | escaped
  /-- right behind the opening bracket -/
  | opened
  /-- inside brackets, with what can begin a range -/
  | set (negated : Bool) (ranges : List (Char × Char)) (last : Option Char)
  /-- inside brackets, before the first character -/
  | first (negated : Bool)
  /-- inside brackets, behind a backslash -/
  | setEscaped (negated : Bool) (ranges : List (Char × Char))
  /-- inside brackets, behind a hyphen that can stand in a range -/
  | hyphen (negated : Bool) (ranges : List (Char × Char)) (low : Char)
  /-- the same, behind a backslash -/
  | hyphenEscaped (negated : Bool) (ranges : List (Char × Char)) (low : Char)
  deriving DecidableEq

/-- A character inside brackets that does not end them. -/
def GlobMode.setItem (negated : Bool) (ranges : List (Char × Char)) (last : Option Char) (c : Char) :
    GlobMode :=
  if c = '\\' then .setEscaped negated ranges
  else
    match c, last with
    | '-', some low => .hyphen negated ranges low
    | c, _ => .set negated (ranges ++ [(c, c)]) (some c)

/-- One character of a pattern. -/
def GlobMode.step : GlobMode → Char → GlobMode × List Glob
  | .plain, c =>
    if c = '\\' then (.escaped, [])
    else if c = '*' then (.plain, [.star])
    else if c = '?' then (.plain, [.any])
    else if c = '[' then (.opened, [])
    else (.plain, [.lit c])
  | .escaped, c => (.plain, [.lit c])
  | .opened, c => if c = '!' ∨ c = '^' then (.first true, []) else (.setItem false [] none c, [])
  | .first negated, c => (.setItem negated [] none c, [])
  | .set negated ranges last, c =>
    if c = ']' then (.plain, [.oneOf negated ranges]) else (.setItem negated ranges last c, [])
  | .setEscaped negated ranges, c => (.set negated (ranges ++ [(c, c)]) (some c), [])
  | .hyphen negated ranges low, c =>
    if c = ']' then (.plain, [.oneOf negated (ranges ++ [('-', '-')])])
    else if c = '\\' then (.hyphenEscaped negated ranges low, [])
    else (.set negated (ranges ++ [(low, c)]) none, [])
  | .hyphenEscaped negated ranges low, c => (.set negated (ranges ++ [(low, c)]) none, [])

/-- A text of a pattern. -/
def GlobMode.run : GlobMode → List Char → GlobMode × List Glob
  | m, [] => (m, [])
  | m, c :: s => (((m.step c).1.run s).1, (m.step c).2 ++ ((m.step c).1.run s).2)

/-- The wildcards that a text stands for. An open bracket or a backslash at the end matches nothing. -/
def globs (pattern : List Char) : Option (List Glob) :=
  if (GlobMode.plain.run pattern).1 = .plain then some (GlobMode.plain.run pattern).2 else none

/-- A line without the spaces at its end, unless a backslash stands before them. -/
def trimTrailingSpaces : List Char → List Char
  | '\\' :: c :: s => '\\' :: c :: trimTrailingSpaces s
  | c :: s => if c = ' ' ∧ s.all (· = ' ') then [] else c :: trimTrailingSpaces s
  | [] => []

/-- A rule for paths. -/
structure IgnoreRule where
  /-- Paths that match are not ignored. -/
  negated : Bool
  /-- Only directories match. -/
  dirOnly : Bool
  /-- The whole path has to match, not only its last name. -/
  anchored : Bool
  globs : List Glob

/-- The last name of a path. -/
def baseName (path : List Char) : List Char := (path.reverse.takeWhile (· ≠ '/')).reverse

def IgnoreRule.Matches (rule : IgnoreRule) (isDir : Bool) (path : List Char) : Prop :=
  (rule.dirOnly = true → isDir = true) ∧
    GlobsMatch rule.globs (if rule.anchored then path else baseName path)

/-- The rule of a line without its newline. Blank lines and comments have none. -/
def readIgnore (line : List Char) : Option IgnoreRule :=
  if line.head? = some '#' then none
  else
    let pattern := trimTrailingSpaces line
    let negated := pattern.head? = some '!'
    let pattern := if negated then pattern.drop 1 else pattern
    let dirOnly := pattern.getLast? = some '/'
    let pattern := if dirOnly then pattern.dropLast else pattern
    let body := if pattern.head? = some '/' then pattern.drop 1 else pattern
    if body = [] then none
    else (globs body).map fun gs => ⟨negated, dirOnly, '/' ∈ pattern, gs⟩

/-- A path below the directory of an ignore file. -/
def IsPathBelow (path : List Char) : Prop :=
  path ≠ [] ∧ path.head? ≠ some '/' ∧ '\x00' ∉ path ∧ '\n' ∉ path

/-- The line ignores this path and no other, be it a file or a directory. -/
def IgnoresExactly (line path : List Char) : Prop :=
  ∃ rule, readIgnore line = some rule ∧ rule.negated = false ∧
    ∀ isDir other, IsPathBelow other → (rule.Matches isDir other ↔ other = path)

/-! ### What wildcards match -/

variable {gs : List Glob} {s : List Char}

theorem globsMatch_star : GlobsMatch (.star :: gs) s ↔
    ∃ run rest, s = run ++ rest ∧ '/' ∉ run ∧ GlobsMatch gs rest := Iff.rfl

theorem globsMatch_cons {g : Glob} (hg : g ≠ .star) : GlobsMatch (g :: gs) s ↔
    ∃ c rest, s = c :: rest ∧ g.Accepts c ∧ GlobsMatch gs rest := by
  cases g with
  | star => exact absurd rfl hg
  | lit c => exact Iff.rfl
  | any => exact Iff.rfl
  | oneOf negated ranges => exact Iff.rfl

/-- Without an asterisk every wildcard takes one character. -/
theorem GlobsMatch.length_eq (hgs : Glob.star ∉ gs) (h : GlobsMatch gs s) : s.length = gs.length := by
  induction gs generalizing s with
  | nil =>
    rw [show s = [] from h]
    rfl
  | cons g gs ih =>
    obtain ⟨hg, hgs⟩ := not_or.1 (mt List.mem_cons.2 hgs)
    obtain ⟨c, rest, rfl, -, hrest⟩ := (globsMatch_cons (Ne.symm hg)).1 h
    rw [List.length_cons, List.length_cons, ih hgs hrest]

/-- What an asterisk matches can be made longer, by any character but a slash. -/
theorem GlobsMatch.longer {c : Char} (hc : c ≠ '/') (hgs : Glob.star ∈ gs) (h : GlobsMatch gs s) :
    ∃ before after, s = before ++ after ∧ GlobsMatch gs (before ++ c :: after) := by
  induction gs generalizing s with
  | nil => exact absurd hgs List.not_mem_nil
  | cons g gs ih =>
    by_cases hg : g = .star
    · subst hg
      obtain ⟨run, rest, rfl, hrun, hrest⟩ := h
      exact ⟨[], run ++ rest, rfl, c :: run, rest, rfl,
        List.not_mem_cons_of_ne_of_not_mem (Ne.symm hc) hrun, hrest⟩
    · obtain ⟨d, rest, rfl, hd, hrest⟩ := (globsMatch_cons hg).1 h
      have hstar : Glob.star ∈ gs := (List.mem_cons.1 hgs).resolve_left (Ne.symm hg)
      obtain ⟨before, after, rfl, hlonger⟩ := ih hstar hrest
      exact ⟨d :: before, after, rfl, (globsMatch_cons hg).2 ⟨d, _, rfl, hd, hlonger⟩⟩

/-- Characters that stand for themselves match themselves. -/
theorem globsMatch_lits (s other : List Char) : GlobsMatch (s.map .lit) other ↔ other = s := by
  induction s generalizing other with
  | nil => exact Iff.rfl
  | cons c s ih =>
    rw [List.map_cons, globsMatch_cons (by simp)]
    constructor
    · rintro ⟨d, rest, rfl, rfl, hrest⟩
      rw [(ih rest).1 hrest]
    · rintro rfl
      exact ⟨c, s, rfl, rfl, (ih s).2 rfl⟩

/-! ### Reading -/

theorem GlobMode.run_append (m : GlobMode) (s t : List Char) :
    m.run (s ++ t) = (((m.run s).1.run t).1, (m.run s).2 ++ ((m.run s).1.run t).2) := by
  induction s generalizing m with
  | nil => rfl
  | cons c s ih => simp [GlobMode.run, ih]

theorem globs_eq_some_iff {pattern : List Char} :
    globs pattern = some gs ↔ GlobMode.plain.run pattern = (.plain, gs) := by
  unfold globs
  rw [Prod.ext_iff]
  split
  · rename_i hplain
    rw [Option.some.injEq]
    exact ⟨fun h => ⟨hplain, h⟩, fun h => h.2⟩
  · rename_i hopen
    exact ⟨nofun, fun h => absurd h.1 hopen⟩

/-- Only spaces at the end go away. -/
theorem trimTrailingSpaces_append (line : List Char) :
    ∃ k, line = trimTrailingSpaces line ++ List.replicate k ' ' := by
  induction line using trimTrailingSpaces.induct with
  | case1 c s ih =>
    obtain ⟨k, hk⟩ := ih
    refine ⟨k, ?_⟩
    rw [trimTrailingSpaces, List.cons_append, List.cons_append, ← hk]
  | case2 c s hne hblank =>
    refine ⟨s.length + 1, ?_⟩
    rw [trimTrailingSpaces, if_pos hblank, List.replicate_succ, List.nil_append, hblank.1]
    · have hall := List.all_eq_true.1 hblank.2
      rw [List.eq_replicate_of_mem fun c hc => of_decide_eq_true (hall c hc)]
      simp
    · exact hne
  | case3 c s hne hline ih =>
    obtain ⟨k, hk⟩ := ih
    refine ⟨k, ?_⟩
    rw [trimTrailingSpaces, if_neg hline, List.cons_append, ← hk]
    exact hne
  | case4 => exact ⟨0, rfl⟩

theorem trimTrailingSpaces_of_getLast? {line : List Char} (h : line.getLast? ≠ some ' ') :
    trimTrailingSpaces line = line := by
  obtain ⟨k, hk⟩ := trimTrailingSpaces_append line
  cases k with
  | zero => exact (hk.trans (List.append_nil _)).symm
  | succ k =>
    rw [List.replicate_succ', ← List.append_assoc] at hk
    exact absurd (hk ▸ List.getLast?_concat) h

end Metatup.Lib
