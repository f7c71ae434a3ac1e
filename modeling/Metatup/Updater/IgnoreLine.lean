import Metatup.Updater.Gitignore
import Metatup.Vars.Variants
import Metatup.Lib.IgnorePattern

/-!
# One line of the ignore file

For a generated name the updater writes a slash and the name, with a backslash in front of brackets. The
other characters that mean something in a pattern are written as they are.

* `writtenLine`: the line of a name, where it fits into the buffer.
* `PlainName`: the names whose characters stand for themselves in the line.
* `ignoresExactly_iff`: these are the names that their line ignores and nothing else.
-/

namespace Metatup

open Lib

/-- What stands in the line for a character of the name. -/
def escapeChar (c : Char) : Text := if c = '[' ∨ c = ']' then ['\\', c] else [c]

/-- The loop of `write_gitignore_line` from the place `i` of its buffer on. -/
def fillIgnoreLine (strSize : ℕ) : ℕ → Text → Option Text
  | _, [] => some []
  | i, c :: toIgnore =>
    let bracket := c = '[' ∨ c = ']'
    if bracket ∧ strSize ≤ i then none
    else
      let i := if bracket then i + 1 else i
      if strSize ≤ i then none
      else (fillIgnoreLine strSize (i + 1) toIgnore).map fun str => escapeChar c ++ str

/-- The line of a name, without its newline. A text that fills the buffer has no end. Source: `db.c`
`write_gitignore_line` -/
def writtenLine (toIgnore : Text) : Option Text := do
  let str ← fillIgnoreLine (pathMax + 1) 0 toIgnore
  if str.length = pathMax + 1 then none else some ('/' :: str)

/-- A name that a file can have. -/
def IsFileName (name : Text) : Prop := name ≠ [] ∧ '/' ∉ name ∧ '\x00' ∉ name ∧ '\n' ∉ name

/-- The name has none of the wildcards that are written as they are, and no space at its end. What
makes a backslash good again is the one in front of a bracket. -/
structure PlainName (name : Text) : Prop where
  no_wildcard : '*' ∉ name ∧ '?' ∉ name
  no_space : name.getLast? ≠ some ' '
  backslash : ∀ i, name[i]? = some '\\' → name[i + 1]? = some ']'

/-- The name and the backslashes fit into a path. -/
def LineFits (name : Text) : Prop := (name.flatMap escapeChar).length ≤ pathMax

theorem writeGitignoreLine_eq (name : Text) :
    writeGitignoreLine name = '/' :: name.flatMap escapeChar ++ ['\n'] := rfl

theorem fillIgnoreLine_eq (strSize i : ℕ) (name : Text) (hi : i ≤ strSize) :
    fillIgnoreLine strSize i name =
      if i + (name.flatMap escapeChar).length ≤ strSize then some (name.flatMap escapeChar)
      else none := by
  induction name generalizing i with
  | nil => rw [List.flatMap_nil, List.length_nil, Nat.add_zero, if_pos hi, fillIgnoreLine]
  | cons c name ih =>
    have hlen : ((c :: name).flatMap escapeChar).length =
        (escapeChar c).length + (name.flatMap escapeChar).length := by
      rw [List.flatMap_cons, List.length_append]
    rw [hlen, fillIgnoreLine]
    by_cases hbracket : c = '[' ∨ c = ']'
    · have htwo : (escapeChar c).length = 2 := by rw [escapeChar, if_pos hbracket]; rfl
      rw [htwo]
      simp only [hbracket, true_and, if_true]
      split
      · rw [if_neg (by omega)]
      split
      · rw [if_neg (by omega)]
      · rw [ih _ (by omega)]
        split
        · rw [if_pos (by omega), Option.map_some, List.flatMap_cons]
        · rw [if_neg (by omega), Option.map_none]
    · have hone : (escapeChar c).length = 1 := by rw [escapeChar, if_neg hbracket]; rfl
      rw [hone]
      simp only [hbracket, false_and, if_false]
      split
      · rw [if_neg (by omega)]
      · rw [ih _ (by omega)]
        split
        · rw [if_pos (by omega), Option.map_some, List.flatMap_cons]
        · rw [if_neg (by omega), Option.map_none]

/-- A line is written exactly where it fits. -/
theorem writtenLine_eq_some_iff {name line : Text} :
    writtenLine name = some line ↔ LineFits name ∧ '/' :: name.flatMap escapeChar = line := by
  unfold writtenLine LineFits
  rw [fillIgnoreLine_eq _ _ _ (Nat.zero_le _), Nat.zero_add]
  split
  · rename_i hle
    rw [Option.bind_eq_bind, Option.bind_some]
    split
    · rename_i hfull
      exact iff_of_false nofun fun h => by omega
    · rw [Option.some.injEq]
      exact ⟨fun h => ⟨by omega, h⟩, fun h => h.2⟩
  · rename_i hlong
    exact iff_of_false nofun fun h => by omega

/-! ### The wildcards of a line -/

/-- What a character of the name stands for in the line, with no backslash in front of it. -/
def globOf (c : Char) : Glob := if c = '*' then .star else if c = '?' then .any else .lit c

/-- Each backslash stands in front of a closing bracket. -/
inductive BackslashOk : Text → Prop
  | nil : BackslashOk []
  | char {c : Char} {name : Text} (hc : c ≠ '\\') (h : BackslashOk name) : BackslashOk (c :: name)
  | pair {name : Text} (h : BackslashOk name) : BackslashOk ('\\' :: ']' :: name)

/-- The character in front was a backslash that stands for nothing yet. -/
def openBackslash : GlobMode → ℕ
  | .escaped => 1
  | _ => 0

variable {name : Text} {gs : List Glob}

theorem BackslashOk.followed (h : BackslashOk name) (i : ℕ) (hi : name[i]? = some '\\') :
    name[i + 1]? = some ']' := by
  induction h generalizing i with
  | nil => exact absurd hi (by simp)
  | @char c name hc _ ih =>
    rcases i with _ | i
    · exact absurd (Option.some.inj hi) hc
    · exact ih i hi
  | pair _ ih =>
    rcases i with _ | _ | i
    · rfl
    · exact absurd (Option.some.inj hi) (by decide)
    · exact ih i hi

theorem backslashOk_of_followed : ∀ name : Text,
    (∀ i, name[i]? = some '\\' → name[i + 1]? = some ']') → BackslashOk name
  | [], _ => .nil
  | c :: name, h => by
    have htail : ∀ i, name[i]? = some '\\' → name[i + 1]? = some ']' := fun i => h (i + 1)
    by_cases hc : c = '\\'
    · subst hc
      rcases name with _ | ⟨d, name⟩
      · exact absurd (h 0 rfl) (by simp)
      · have hd : d = ']' := Option.some.inj (h 0 rfl)
        subst hd
        exact .pair (backslashOk_of_followed name fun i => h (i + 2))
    · exact .char hc (backslashOk_of_followed name htail)

theorem openBackslash_le_one (m : GlobMode) : openBackslash m ≤ 1 := by
  unfold openBackslash
  split <;> omega

/-- A character that is no bracket brings no more than one wildcard. -/
theorem step_le {c : Char} (hc : c ≠ ']') (m : GlobMode) :
    (m.step c).2.length + openBackslash (m.step c).1 ≤ 1 + openBackslash m := by
  have hnext := openBackslash_le_one (m.step c).1
  have hnone : (m.step c).2 = [] → (m.step c).2.length + openBackslash (m.step c).1 ≤ 1 + openBackslash m := by
    intro hnil
    rw [hnil, List.length_nil]
    omega
  rcases m with _ | _ | _ | _ | _ | _ | _ | _
  · simp only [GlobMode.step]
    split_ifs <;> simp [openBackslash]
  · simp [GlobMode.step, openBackslash]
  · exact hnone (by simp only [GlobMode.step]; split_ifs <;> rfl)
  · exact hnone (by simp only [GlobMode.step, if_neg hc])
  · exact hnone rfl
  · exact hnone rfl
  · exact hnone (by simp only [GlobMode.step, if_neg hc]; split_ifs <;> rfl)
  · exact hnone rfl

/-- No character of the name brings more than one wildcard. -/
theorem run_escapeChar_le (m : GlobMode) (c : Char) :
    (m.run (escapeChar c)).2.length + openBackslash (m.run (escapeChar c)).1 ≤ 1 + openBackslash m := by
  unfold escapeChar
  split
  · rename_i hbracket
    rcases m with _ | _ | _ | _ | _ | _ | _ | _ <;> rcases hbracket with rfl | rfl <;>
      simp [GlobMode.run, GlobMode.step, GlobMode.setItem, openBackslash]
  · rename_i hbracket
    simpa [GlobMode.run] using step_le (not_or.1 hbracket).2 m

theorem run_escape_le (m : GlobMode) (name : Text) :
    (m.run (name.flatMap escapeChar)).2.length + openBackslash (m.run (name.flatMap escapeChar)).1 ≤
      name.length + openBackslash m := by
  induction name generalizing m with
  | nil => simp [GlobMode.run]
  | cons c name ih =>
    have hhead := run_escapeChar_le m c
    have hrest := ih (m.run (escapeChar c)).1
    rw [List.flatMap_cons, GlobMode.run_append, List.length_append, List.length_cons]
    dsimp only
    omega

/-- In front of a character that is no backslash the reader is where it was. -/
theorem run_escapeChar {c : Char} (hc : c ≠ '\\') :
    GlobMode.plain.run (escapeChar c) = (.plain, [globOf c]) := by
  unfold escapeChar globOf
  split
  · rename_i hbracket
    rcases hbracket with rfl | rfl <;> rfl
  · rename_i hbracket
    obtain ⟨hopen, -⟩ := not_or.1 hbracket
    simp only [GlobMode.run, GlobMode.step, if_neg hc, if_neg hopen]
    split_ifs <;> rfl

theorem run_of_backslashOk (h : BackslashOk name) :
    GlobMode.plain.run (name.flatMap escapeChar) = (.plain, name.map globOf) := by
  induction h with
  | nil => rfl
  | char hc _ ih => rw [List.flatMap_cons, GlobMode.run_append, run_escapeChar hc, ih]; rfl
  | @pair name _ ih =>
    have hpair : GlobMode.plain.run (escapeChar '\\' ++ escapeChar ']') =
        (.plain, [globOf '\\', globOf ']']) := by decide
    rw [List.flatMap_cons, List.flatMap_cons, ← List.append_assoc, GlobMode.run_append, hpair, ih]
    rfl

/-- A backslash that stands in front of another character takes it away. -/
theorem backslashOk_of_run : ∀ {name : Text} {gs : List Glob},
    GlobMode.plain.run (name.flatMap escapeChar) = (.plain, gs) → name.length ≤ gs.length →
      BackslashOk name
  | [], _, _, _ => .nil
  | c :: name, gs, hrun, hlen => by
    rw [List.flatMap_cons, GlobMode.run_append, Prod.mk.injEq] at hrun
    obtain ⟨hend, rfl⟩ := hrun
    rw [List.length_append, List.length_cons] at hlen
    by_cases hc : c = '\\'
    · subst hc
      have hhead : GlobMode.plain.run (escapeChar '\\') = (.escaped, []) := by decide
      rw [hhead] at hend hlen
      rcases name with _ | ⟨d, name⟩
      · exact absurd hend (by decide)
      by_cases hd : d = ']'
      · subst hd
        have hnext : GlobMode.escaped.run (escapeChar ']') = (.plain, [.lit '\\', .lit ']']) := by decide
        dsimp only at hend hlen
        rw [List.flatMap_cons, GlobMode.run_append, hnext] at hend hlen
        simp only [List.length_append, List.length_cons, List.length_nil] at hlen
        have hle : name.length ≤ (GlobMode.plain.run (name.flatMap escapeChar)).2.length := by omega
        exact .pair (backslashOk_of_run (Prod.ext hend rfl) hle)
      · -- one wildcard for two characters
        have hnext : (GlobMode.escaped.run (escapeChar d)).2.length +
            openBackslash (GlobMode.escaped.run (escapeChar d)).1 ≤ 1 := by
          unfold escapeChar
          split
          · rename_i hbracket
            rw [hbracket.resolve_right hd]
            decide
          · simp [GlobMode.run, GlobMode.step, openBackslash]
        have hrest := run_escape_le (GlobMode.escaped.run (escapeChar d)).1 name
        rw [List.flatMap_cons, GlobMode.run_append, List.length_append] at hlen
        simp only [List.length_cons, List.length_nil] at hlen
        omega
    · rw [run_escapeChar hc] at hend hlen
      dsimp only [List.length_cons, List.length_nil] at hend hlen
      have hle : name.length ≤ (GlobMode.plain.run (name.flatMap escapeChar)).2.length := by omega
      exact .char hc (backslashOk_of_run (Prod.ext hend rfl) hle)

/-! ### Spaces at the end -/

theorem escape_eq_append_spaces (k : ℕ) {u : Text}
    (h : name.flatMap escapeChar = u ++ List.replicate k ' ') :
    ∃ name', name = name' ++ List.replicate k ' ' ∧ name'.flatMap escapeChar = u := by
  induction k generalizing u name with
  | zero => exact ⟨name, (List.append_nil _).symm, h.trans (List.append_nil _)⟩
  | succ k ih =>
    rw [List.replicate_succ', ← List.append_assoc] at h
    rcases List.eq_nil_or_concat' name with rfl | ⟨init, c, rfl⟩
    · exact absurd h.symm (by simp)
    rw [List.flatMap_append, List.flatMap_singleton] at h
    -- only a space is written as something that ends in a space
    have hc : c = ' ' := by
      have hlast := congrArg List.getLast? h
      unfold escapeChar at hlast
      split at hlast <;> simpa using hlast
    subst hc
    obtain ⟨name', hname, hu⟩ := ih (List.append_cancel_right h)
    exact ⟨name', by rw [hname, List.append_assoc, List.replicate_succ'], hu⟩

theorem getLast?_escape (name : Text) : (name.flatMap escapeChar).getLast? = name.getLast? := by
  rcases List.eq_nil_or_concat' name with rfl | ⟨init, c, rfl⟩
  · rfl
  · rw [List.flatMap_append, List.flatMap_singleton, List.getLast?_concat]
    unfold escapeChar
    split <;> simp

/-- Where no backslash stands in front of it, a space at the end goes away. -/
theorem trim_escape_ne (h : BackslashOk name) (hlast : name.getLast? = some ' ') :
    trimTrailingSpaces (name.flatMap escapeChar) ≠ name.flatMap escapeChar := by
  induction h with
  | nil => exact absurd hlast (by simp)
  | @char c name hc _ ih =>
    rw [List.flatMap_cons]
    by_cases hnil : name = []
    · subst hnil
      rw [show c = ' ' from Option.some.inj hlast]
      decide
    have htail : name.getLast? = some ' ' := by
      rw [← hlast, List.getLast?_cons, List.getLast?_eq_some_getLast hnil]
      rfl
    unfold escapeChar
    split
    · rename_i hbracket
      rw [List.cons_append, List.cons_append, List.nil_append, trimTrailingSpaces]
      exact fun heq => ih htail (List.cons.inj (List.cons.inj heq).2).2
    · rw [List.singleton_append, trimTrailingSpaces]
      · split
        · exact List.cons_ne_nil _ _ ∘ Eq.symm
        · exact fun heq => ih htail (List.cons.inj heq).2
      · intro d rest hbad
        exact absurd hbad hc
  | @pair name _ ih =>
    have htail : name.getLast? = some ' ' := by
      rcases name with _ | ⟨d, name⟩
      · exact absurd hlast (by decide)
      · exact hlast
    rw [List.flatMap_cons, List.flatMap_cons, ← List.append_assoc]
    show trimTrailingSpaces ('\\' :: '\\' :: ']' :: name.flatMap escapeChar) ≠
      '\\' :: '\\' :: ']' :: name.flatMap escapeChar
    rw [trimTrailingSpaces, trimTrailingSpaces, if_neg (fun hspace => absurd hspace.1 (by decide))]
    · exact fun heq => ih htail (List.cons.inj (List.cons.inj (List.cons.inj heq).2).2).2
    · rintro d rest ⟨hbad, -⟩

/-! ### The rule of a line -/

theorem not_mem_escape {c : Char} (hc : c ≠ '\\') (h : c ∉ name) : c ∉ name.flatMap escapeChar := by
  intro hmem
  obtain ⟨d, hd, hin⟩ := List.mem_flatMap.1 hmem
  unfold escapeChar at hin
  split at hin
  · rcases List.mem_pair.1 hin with rfl | rfl
    · exact hc rfl
    · exact h hd
  · exact h (List.mem_singleton.1 hin ▸ hd)

/-- The rule of a line is anchored and holds for files and directories. -/
theorem readIgnore_cons (hslash : '/' ∉ name) :
    readIgnore ('/' :: name.flatMap escapeChar) =
      if trimTrailingSpaces (name.flatMap escapeChar) = [] then none
      else (globs (trimTrailingSpaces (name.flatMap escapeChar))).map fun gs =>
        ⟨false, false, true, gs⟩ := by
  set body := name.flatMap escapeChar with hbody
  have htrim : trimTrailingSpaces ('/' :: body) = '/' :: trimTrailingSpaces body := by
    rw [trimTrailingSpaces, if_neg (fun hspace => absurd hspace.1 (by decide))]
    exact fun d rest hbad => absurd hbad (by decide)
  obtain ⟨k, hk⟩ := trimTrailingSpaces_append body
  have hno : '/' ∉ trimTrailingSpaces body := by
    intro hmem
    exact not_mem_escape (by decide) hslash (hbody ▸ hk ▸ List.mem_append_left _ hmem)
  unfold readIgnore
  rw [if_neg (by simp)]
  simp only [htrim, List.head?_cons, Option.some.injEq, Char.reduceEq, if_false]
  by_cases hnil : trimTrailingSpaces body = []
  · rw [hnil]
    rfl
  · have hend : ('/' :: trimTrailingSpaces body).getLast? ≠ some '/' := by
      rw [List.getLast?_cons_of_ne_nil hnil]
      exact fun hlast => hno (List.mem_of_getLast? hlast)
    simp [hend, hnil]

/-- An asterisk in place of a character, where there is a question mark. -/
theorem globsMatch_replaced (hstar : '*' ∉ name) :
    GlobsMatch (name.map globOf) (name.map fun c => if c = '?' then 'a' else c) := by
  induction name with
  | nil => rfl
  | cons c name ih =>
    obtain ⟨hc, hname⟩ := not_or.1 (mt List.mem_cons.2 hstar)
    have hglob : globOf c ≠ .star ∧ (globOf c).Accepts (if c = '?' then 'a' else c) := by
      unfold globOf
      rw [if_neg (Ne.symm hc)]
      split
      · exact ⟨nofun, show 'a' ≠ '/' by decide⟩
      · exact ⟨nofun, rfl⟩
    exact (globsMatch_cons hglob.1).2 ⟨_, _, rfl, hglob.2, ih hname⟩

theorem map_globOf (hstar : '*' ∉ name) (hany : '?' ∉ name) : name.map globOf = name.map .lit := by
  refine List.map_congr_left fun c hc => ?_
  unfold globOf
  rw [if_neg (ne_of_mem_of_not_mem hc hstar), if_neg (ne_of_mem_of_not_mem hc hany)]

theorem IsFileName.isPathBelow (h : IsFileName name) : IsPathBelow name :=
  ⟨h.1, fun hhead => h.2.1 (List.mem_of_mem_head? hhead), h.2.2⟩

theorem ignoresExactly_of_plainName (hname : IsFileName name) (h : PlainName name) :
    IgnoresExactly ('/' :: name.flatMap escapeChar) name := by
  have hlast : (name.flatMap escapeChar).getLast? ≠ some ' ' := by
    rw [getLast?_escape]
    exact h.no_space
  have hnil : name.flatMap escapeChar ≠ [] := by
    intro hnil
    have hlen := getLast?_escape name
    rw [hnil] at hlen
    exact hname.1 (List.getLast?_eq_none_iff.1 hlen.symm)
  have hrun := run_of_backslashOk (backslashOk_of_followed name h.backslash)
  rw [map_globOf h.no_wildcard.1 h.no_wildcard.2] at hrun
  refine ⟨⟨false, false, true, name.map .lit⟩, ?_, rfl, fun isDir other _ => ?_⟩
  · rw [readIgnore_cons hname.2.1, trimTrailingSpaces_of_getLast? hlast, if_neg hnil,
      globs_eq_some_iff.2 hrun, Option.map_some]
  · unfold IgnoreRule.Matches
    rw [if_pos rfl, globsMatch_lits]
    exact and_iff_right nofun

/-- With an asterisk in the line, a longer name is ignored as well. -/
theorem not_mem_star (hname : IsFileName name) (hself : GlobsMatch gs name)
    (hexact : ∀ other, IsPathBelow other → (GlobsMatch gs other ↔ other = name)) : Glob.star ∉ gs := by
  intro hstar
  obtain ⟨before, after, hsplit, hlonger⟩ := hself.longer (c := 'a') (by decide) hstar
  have hpath : IsPathBelow (before ++ 'a' :: after) := by
    have hbelow := hname.isPathBelow
    rw [hsplit] at hbelow
    refine ⟨by simp, ?_, by simpa using hbelow.2.2.1, by simpa using hbelow.2.2.2⟩
    rcases before with _ | ⟨d, before⟩
    · exact fun hhead => absurd (Option.some.inj hhead) (by decide)
    · exact hbelow.2.1
  have heq := congrArg List.length ((hexact _ hpath).1 hlonger)
  rw [hsplit] at heq
  simp only [List.length_append, List.length_cons] at heq
  omega

/-- With a question mark in the name, another name is ignored as well. -/
theorem not_mem_question (hname : IsFileName name) (hstar : '*' ∉ name)
    (hexact : ∀ other, IsPathBelow other → (GlobsMatch (name.map globOf) other ↔ other = name)) :
    '?' ∉ name := by
  intro hany
  set other := name.map fun c => if c = '?' then 'a' else c with hother
  have hnot : ∀ c, c ≠ 'a' → c ∉ name → c ∉ other := by
    intro c hc hmem hin
    obtain ⟨d, hd, rfl⟩ := List.mem_map.1 (hother ▸ hin)
    split at hc
    · exact hc rfl
    · rename_i hd'
      rw [if_neg hd'] at hmem
      exact hmem hd
  have hne : other ≠ [] := fun hnil => hname.1 (List.map_eq_nil_iff.1 hnil)
  have hfile : IsFileName other := ⟨hne, hnot _ (by decide) hname.2.1, hnot _ (by decide) hname.2.2.1,
    hnot _ (by decide) hname.2.2.2⟩
  have heq := (hexact _ hfile.isPathBelow).1 (globsMatch_replaced hstar)
  have hgone : '?' ∉ other := by
    intro hin
    obtain ⟨d, -, hd⟩ := List.mem_map.1 (hother ▸ hin)
    split at hd
    · exact absurd hd (by decide)
    · contradiction
  exact hgone (heq ▸ hany)

theorem plainName_of_ignoresExactly (hname : IsFileName name)
    (h : IgnoresExactly ('/' :: name.flatMap escapeChar) name) : PlainName name := by
  obtain ⟨rule, hrule, -, hexact⟩ := h
  rw [readIgnore_cons hname.2.1] at hrule
  split at hrule
  · exact absurd hrule nofun
  obtain ⟨gs, hgs, rfl⟩ := Option.map_eq_some_iff.1 hrule
  have hmatches : ∀ other, IsPathBelow other → (GlobsMatch gs other ↔ other = name) := by
    intro other hother
    rw [← hexact true other hother]
    exact (and_iff_right nofun).symm
  have hself : GlobsMatch gs name := (hmatches name hname.isPathBelow).2 rfl
  have hstar := not_mem_star hname hself hmatches
  -- there are as many wildcards as characters, so that no space and no backslash is lost
  have hlen := hself.length_eq hstar
  obtain ⟨k, hk⟩ := trimTrailingSpaces_append (name.flatMap escapeChar)
  obtain ⟨name', hname', hescape⟩ := escape_eq_append_spaces k hk
  rw [globs_eq_some_iff, ← hescape] at hgs
  have hle := run_escape_le .plain name'
  rw [hgs] at hle
  have hparts := congrArg List.length hname'
  rw [List.length_append, List.length_replicate] at hparts
  simp only [openBackslash] at hle
  obtain rfl : k = 0 := by omega
  rw [List.replicate_zero, List.append_nil] at hname' hk
  subst hname'
  have hok := backslashOk_of_run hgs hlen.le
  obtain rfl : gs = name.map globOf := (Prod.mk.inj (hgs.symm.trans (run_of_backslashOk hok))).2
  have hnostar : '*' ∉ name := fun hmem => hstar (List.mem_map.2 ⟨'*', hmem, rfl⟩)
  exact ⟨⟨hnostar, not_mem_question hname hnostar hmatches⟩,
    fun hlast => trim_escape_ne hok hlast hk.symm, hok.followed⟩

/-- The line of a name ignores the name and nothing else exactly when the name has no character that
means something in a pattern, brackets apart, and fits. -/
theorem ignoresExactly_iff (hname : IsFileName name) :
    (∃ line, writtenLine name = some line ∧ IgnoresExactly line name) ↔
      PlainName name ∧ LineFits name := by
  constructor
  · rintro ⟨line, hline, hexact⟩
    obtain ⟨hfits, rfl⟩ := writtenLine_eq_some_iff.1 hline
    exact ⟨plainName_of_ignoresExactly hname hexact, hfits⟩
  · rintro ⟨hplain, hfits⟩
    exact ⟨_, writtenLine_eq_some_iff.2 ⟨hfits, rfl⟩, ignoresExactly_of_plainName hname hplain⟩

theorem ignoresExactly_iff_brackets : IsFileName "a[1]".toList ∧
    ((∃ line, writtenLine "a[1]".toList = some line ∧ IgnoresExactly line "a[1]".toList) ↔
      PlainName "a[1]".toList ∧ LineFits "a[1]".toList) := by
  have hname : IsFileName "a[1]".toList := by unfold IsFileName; decide
  exact ⟨hname, ignoresExactly_iff hname⟩

/-- The line of a name with a question mark ignores another name as well. -/
theorem question_name_ignores_another : IsFileName "a?".toList ∧
    writtenLine "a?".toList = some "/a?".toList ∧ ¬ IgnoresExactly "/a?".toList "a?".toList := by
  have hname : IsFileName "a?".toList := by unfold IsFileName; decide
  refine ⟨hname, by decide, ?_⟩
  rintro ⟨rule, hrule, -, hexact⟩
  have hread : readIgnore "/a?".toList = some ⟨false, false, true, [.lit 'a', .any]⟩ := rfl
  obtain rfl := Option.some.inj (hread.symm.trans hrule)
  have hother : IsPathBelow "ab".toList := by unfold IsPathBelow; decide
  have hmatch : GlobsMatch [.lit 'a', .any] "ab".toList :=
    ⟨'a', ['b'], rfl, rfl, 'b', [], rfl, show 'b' ≠ '/' by decide, rfl⟩
  have heq := (hexact false _ hother).1 ⟨nofun, hmatch⟩
  exact absurd heq (by decide)

end Metatup
