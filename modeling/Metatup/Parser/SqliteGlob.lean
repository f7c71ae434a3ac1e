import Metatup.Entry
import Mathlib.Algebra.Group.Nat.Defs
import Mathlib.Data.List.Basic

/-!
# GLOB

The database picks the files a wildcard stands for with SQLite's `GLOB` operator. A name is a row of
bytes; `GLOB` reads them as UTF-8, and reads something from every row of bytes.

* `utf8Read`: one character and what is left.
* `patternCompare`: the comparison, for the wildcards of `GLOB`.
* `patternCompare_literal`: literal text is compared character by character.
* `patternCompare_question`, `patternCompare_set`: a wildcard that stands for one character, where
  that character is one byte.
-/

namespace Metatup

/-! ### Characters -/

/-- The byte continues a character. -/
def isContinuation (b : Char) : Bool := b.toNat &&& 0xc0 == 0x80

/-- Source: `sqlite3.c` `sqlite3Utf8Trans1`, by the distance to `0xc0` -/
def sqlite3Utf8Trans1 (i : ℕ) : ℕ :=
  if i < 0x20 then i
  else if i < 0x30 then i - 0x20
  else if i < 0x38 then i - 0x30
  else if i < 0x3c then i - 0x38
  else if i < 0x3e then i - 0x3c
  else 0

/-- The bytes that continue a character, added to the 32 bits read before. -/
def utf8Tail : ℕ → Text → ℕ × Text
  | c, [] => (c, [])
  | c, b :: s =>
    if isContinuation b then utf8Tail (((c <<< 6) + (b.toNat &&& 0x3f)) % 2 ^ 32) s else (c, b :: s)

/-- Source: `sqlite3.c` `sqlite3Utf8Read`; 0 at the end of the text -/
def utf8Read : Text → ℕ × Text
  | [] => (0, [])
  | b :: s =>
    if b.toNat < 0xc0 then (b.toNat, s)
    else
      let (c, s) := utf8Tail (sqlite3Utf8Trans1 (b.toNat - 0xc0)) s
      (if c < 0x80 ∨ c &&& 0xfffff800 = 0xd800 ∨ c &&& 0xfffffffe = 0xfffe then 0xfffd else c, s)

/-- The text begins with a byte that continues a character. -/
def continues (s : Text) : Bool := s.head?.any isContinuation

theorem utf8Tail_append (c : ℕ) (a s : Text) (h : continues s = false) :
    utf8Tail c (a ++ s) = ((utf8Tail c a).1, (utf8Tail c a).2 ++ s) := by
  induction a generalizing c with
  | nil =>
    cases s with
    | nil => rfl
    | cons b s =>
      have hb : isContinuation b = false := by simpa [continues] using h
      simp [utf8Tail, hb]
  | cons b a ih =>
    by_cases hb : isContinuation b
    · simp only [List.cons_append, utf8Tail, hb, if_true]
      exact ih _
    · simp [utf8Tail, hb]

/-- What a character is made of ends before a byte that begins one. -/
theorem utf8Read_append {a : Text} (ha : a ≠ []) (s : Text) (h : continues s = false) :
    utf8Read (a ++ s) = ((utf8Read a).1, (utf8Read a).2 ++ s) := by
  obtain ⟨b, a, rfl⟩ := List.exists_cons_of_ne_nil ha
  by_cases hb : b.toNat < 0xc0
  · simp [utf8Read, hb]
  · simp [utf8Read, hb, utf8Tail_append _ a s h]

theorem utf8Tail_suffix (c : ℕ) (s : Text) :
    ∃ a, s = a ++ (utf8Tail c s).2 ∧ ∀ b ∈ a, isContinuation b := by
  induction s generalizing c with
  | nil => exact ⟨[], rfl, by simp⟩
  | cons b s ih =>
    by_cases hb : isContinuation b
    · obtain ⟨a, ha, hall⟩ := ih (((c <<< 6) + (b.toNat &&& 0x3f)) % 2 ^ 32)
      refine ⟨b :: a, ?_, ?_⟩
      · simp only [utf8Tail, hb, if_true, List.cons_append]
        rw [← ha]
      · intro b' hb'
        rcases List.mem_cons.mp hb' with rfl | hb'
        · exact hb
        · exact hall b' hb'
    · exact ⟨[], by simp [utf8Tail, hb], by simp⟩

/-- After its first byte, a character takes only bytes that continue it. -/
theorem utf8Read_suffix (b : Char) (s : Text) :
    ∃ a, s = a ++ (utf8Read (b :: s)).2 ∧ ∀ b' ∈ a, isContinuation b' := by
  by_cases hb : b.toNat < 0xc0
  · exact ⟨[], by simp [utf8Read, hb], by simp⟩
  · simpa [utf8Read, hb] using utf8Tail_suffix _ s

theorem utf8Read_length (b : Char) (s : Text) : (utf8Read (b :: s)).2.length ≤ s.length := by
  obtain ⟨a, ha, -⟩ := utf8Read_suffix b s
  have := congrArg List.length ha
  rw [List.length_append] at this
  omega

/-- A character below `0x80` is one byte. -/
theorem utf8Read_ascii {b : Char} (h : b.toNat < 0x80) (s : Text) :
    utf8Read (b :: s) = (b.toNat, s) := by
  have : b.toNat < 0xc0 := by omega
  simp [utf8Read, this]

/-- A character that is read as one below `0x80` is that byte. -/
theorem toNat_of_utf8Read_lt {b : Char} {s : Text} (h : (utf8Read (b :: s)).1 < 0x80) :
    b.toNat = (utf8Read (b :: s)).1 := by
  by_cases hb : b.toNat < 0xc0
  · simp [utf8Read, hb]
  · exfalso
    simp only [utf8Read, hb, if_false] at h
    split at h <;> omega

/-! ### The comparison -/

/-- What `patternCompare` returns: `SQLITE_MATCH`, `SQLITE_NOMATCH` or `SQLITE_NOWILDCARDMATCH`. -/
inductive GlobResult
  | hit | noMatch | noWildcardMatch
  deriving DecidableEq, Repr

/-- What stands after the `*` of a pattern is skipped with it: further `*`, and each `?` with one
character of the string. -/
def skipWild : Text → Text → Option (Text × Text)
  | '*' :: pattern, s => skipWild pattern s
  | '?' :: pattern, s =>
    match utf8Read s with
    | (0, _) => none
    | (_, s) => skipWild pattern s
  | pattern, s => some (pattern, s)

/-- The loop over the members of a `[...]`, with the bound of a range in `prior`; the number bounds
the characters read. -/
def setLoop (c : ℕ) : ℕ → ℕ → Bool → Text → Option (Bool × Text)
  | 0, _, _, _ => none
  | n + 1, prior, seen, pattern =>
    match utf8Read pattern with
    | (0, _) => none
    | (c2, pattern) =>
      if c2 = ']'.toNat then some (seen, pattern)
      else if c2 = '-'.toNat ∧ pattern.head? ≠ some ']' ∧ pattern ≠ [] ∧ 0 < prior then
        let (c2, pattern) := utf8Read pattern
        setLoop c n 0 (seen || (prior ≤ c && c ≤ c2)) pattern
      else setLoop c n c2 (seen || c == c2) pattern

/-- A `[...]` against the character `c`, from after the bracket: the pattern after the set where the
character is in it. -/
def matchSet (c : ℕ) (pattern : Text) : Option Text :=
  let invert := pattern.head? = some '^'
  let pattern := if invert then pattern.drop 1 else pattern
  let seen := pattern.head? = some ']' ∧ c = ']'.toNat
  let pattern := if pattern.head? = some ']' then pattern.drop 1 else pattern
  match setLoop c (pattern.length + 1) 0 seen pattern with
  | none => none
  | some (seen, pattern) => if seen ^^ invert then some pattern else none

/-- A comparison tried from every character of the string on; the number bounds the tries. -/
def searchAll (compare : Text → GlobResult) : ℕ → Text → GlobResult
  | 0, _ => .noWildcardMatch
  | _ + 1, [] => .noWildcardMatch
  | n + 1, s =>
    match compare s with
    | .noMatch => searchAll compare n (utf8Read s).2
    | result => result

/-- A comparison tried after every byte `c` of the string. -/
def searchByte (compare : Text → GlobResult) (c : ℕ) : Text → GlobResult
  | [] => .noWildcardMatch
  | b :: s =>
    if b.toNat = c then
      match compare s with
      | .noMatch => searchByte compare c s
      | result => result
    else searchByte compare c s

/-- A comparison tried after every character `c` of the string; the number bounds the tries. -/
def searchChar (compare : Text → GlobResult) (c : ℕ) : ℕ → Text → GlobResult
  | 0, _ => .noWildcardMatch
  | n + 1, s =>
    match utf8Read s with
    | (0, _) => .noWildcardMatch
    | (c2, s) =>
      if c2 = c then
        match compare s with
        | .noMatch => searchChar compare c n s
        | result => result
      else searchChar compare c n s

/-- One round of the loop of `patternCompare`, with `compare` for what is left after it: the next
character of the pattern decides. -/
def patternStep (compare : Text → Text → GlobResult) (pattern s : Text) : GlobResult :=
  match utf8Read pattern with
  | (0, _) => if s = [] then .hit else .noMatch
  | (c, pattern) =>
    if c = '*'.toNat then
      match skipWild pattern s with
      | none => .noWildcardMatch
      | some (pattern, s) =>
        match utf8Read pattern with
        | (0, _) => .hit
        | (c, rest) =>
          if c = '['.toNat then searchAll (compare pattern) s.length s
          else if c < 0x80 then searchByte (compare rest) c s
          else searchChar (compare rest) c s.length s
    else if c = '['.toNat then
      match utf8Read s with
      | (0, _) => .noMatch
      | (c, s) =>
        match matchSet c pattern with
        | none => .noMatch
        | some pattern => compare pattern s
    else
      match utf8Read s with
      | (c2, s) =>
        if c = c2 ∨ (c = '?'.toNat ∧ c2 ≠ 0) then compare pattern s else .noMatch

/-- The rounds of `patternCompare`; the number bounds them, and each reads a character of the
pattern. -/
def patternCompareLoop : ℕ → Text → Text → GlobResult
  | 0 => fun _ _ => .noMatch
  | n + 1 => patternStep (patternCompareLoop n)

/-- Source: `sqlite3.c` `patternCompare` with `globInfo` -/
def patternCompare (pattern s : Text) : GlobResult :=
  patternCompareLoop (pattern.length + 1) pattern s

/-! ### The rounds read the pattern -/

theorem skipWild_length {pattern s pattern' s' : Text}
    (h : skipWild pattern s = some (pattern', s')) : pattern'.length ≤ pattern.length := by
  induction pattern, s using skipWild.induct with
  | case1 pattern s ih =>
    have := ih h
    simp only [List.length_cons]
    omega
  | case2 pattern s s0 hs => simp [skipWild, hs] at h
  | case3 pattern s n s0 hn hs ih =>
    simp only [skipWild, hs] at h
    have := ih h
    simp only [List.length_cons]
    omega
  | case4 pattern s h1 h2 =>
    rw [skipWild] at h
    · cases h
      exact Nat.le_refl _
    · exact h1
    · exact h2

/-- The text after the set a `[` opens: past the first `]` that does not stand first in it. -/
def afterSet (pattern : Text) : Option Text :=
  let pattern := if pattern.head? = some '^' then pattern.drop 1 else pattern
  let pattern := if pattern.head? = some ']' then pattern.drop 1 else pattern
  if ']' ∈ pattern then some ((pattern.dropWhile (· ≠ ']')).drop 1) else none

/-- Reading one character that is no `]` keeps what is after the next `]`. -/
theorem dropWhile_utf8Read {b : Char} {s : Text} (hb : b ≠ ']') :
    (']' ∈ b :: s ↔ ']' ∈ (utf8Read (b :: s)).2) ∧
      (b :: s).dropWhile (· ≠ ']') = (utf8Read (b :: s)).2.dropWhile (· ≠ ']') := by
  obtain ⟨a, ha, hall⟩ := utf8Read_suffix b s
  have hne : ∀ b' ∈ a, b' ≠ ']' := by
    rintro b' hb' rfl
    exact absurd (hall _ hb') (by decide)
  have hnot : ']' ∉ a := fun h => hne _ h rfl
  constructor
  · conv_lhs => rw [ha]
    simp [hnot, Ne.symm hb]
  · rw [List.dropWhile_cons_of_pos (by simpa using hb)]
    conv_lhs => rw [ha]
    rw [List.dropWhile_append_of_pos]
    intro b' hb'
    simpa using hne b' hb'

/-- The loop over a set ends after its first `]`. -/
theorem setLoop_eq_some {c n prior : ℕ} {seen seen' : Bool} {pattern pattern' : Text}
    (h : setLoop c n prior seen pattern = some (seen', pattern')) :
    ']' ∈ pattern ∧ pattern' = (pattern.dropWhile (· ≠ ']')).drop 1 := by
  induction n generalizing prior seen pattern with
  | zero => simp [setLoop] at h
  | succ n ih =>
    cases pattern with
    | nil => simp [setLoop, utf8Read] at h
    | cons b s =>
      rw [setLoop] at h
      split at h
      · cases h
      · next c2 rest hc2 heq =>
        have hrest : (utf8Read (b :: s)).2 = rest := by rw [heq]
        have hread : (utf8Read (b :: s)).1 = c2 := by rw [heq]
        split_ifs at h with hclose hrange
        · have hb : b.toNat = ']'.toNat := by
            have hlt : (utf8Read (b :: s)).1 < 0x80 := by rw [hread, hclose]; decide
            rw [toNat_of_utf8Read_lt hlt, hread, hclose]
          have hb' : b = ']' := Char.toNat_inj.mp hb
          subst hb'
          have hs : rest = s := by rw [← hrest, utf8Read_ascii (by decide)]
          cases h
          simp [hs]
        · have hb : b ≠ ']' := by
            rintro rfl
            exact hclose (by rw [← hread, utf8Read_ascii (by decide)])
          obtain ⟨hmem, hdrop⟩ := dropWhile_utf8Read (s := s) hb
          rw [hrest] at hmem hdrop
          rw [hmem, hdrop]
          cases rest with
          | nil => exact absurd rfl hrange.2.2.1
          | cons b' s' =>
            have hb' : b' ≠ ']' := by simpa using hrange.2.1
            obtain ⟨hmem', hdrop'⟩ := dropWhile_utf8Read (s := s') hb'
            rw [hmem', hdrop']
            exact ih h
        · have hb : b ≠ ']' := by
            rintro rfl
            exact hclose (by rw [← hread, utf8Read_ascii (by decide)])
          obtain ⟨hmem, hdrop⟩ := dropWhile_utf8Read (s := s) hb
          rw [hrest] at hmem hdrop
          rw [hmem, hdrop]
          exact ih h

/-- A set that matches ends where every set at that place ends. -/
theorem afterSet_of_matchSet {c : ℕ} {pattern pattern' : Text}
    (h : matchSet c pattern = some pattern') : afterSet pattern = some pattern' := by
  simp only [matchSet] at h
  split at h
  · cases h
  · next seen rest hloop =>
    obtain ⟨hmem, hrest⟩ := setLoop_eq_some hloop
    split_ifs at h with hinv
    cases h
    simp only [afterSet]
    rw [if_pos hmem, ← hrest]

theorem afterSet_length {pattern pattern' : Text} (h : afterSet pattern = some pattern') :
    pattern'.length ≤ pattern.length := by
  have hsub : ∀ (c : Char) (t : Text), (if t.head? = some c then t.drop 1 else t).Sublist t := by
    intro c t
    split_ifs
    · exact List.drop_sublist 1 t
    · exact List.Sublist.refl t
  unfold afterSet at h
  rw [Option.ite_none_right_eq_some] at h
  obtain ⟨-, h⟩ := h
  cases h
  apply List.Sublist.length_le
  exact (List.drop_sublist 1 _).trans
    ((List.dropWhile_sublist _).trans ((hsub ']' _).trans (hsub '^' pattern)))

/-- A round looks only at what is left of the pattern after it. -/
theorem patternStep_congr {compare compare' : Text → Text → GlobResult} {pattern : Text}
    (h : ∀ q : Text, q.length < pattern.length → compare q = compare' q) (s : Text) :
    patternStep compare pattern s = patternStep compare' pattern s := by
  cases pattern with
  | nil => simp [patternStep, utf8Read]
  | cons b pattern =>
    have hlen := utf8Read_length b pattern
    unfold patternStep
    split
    · rfl
    · next c rest hc heq =>
      have hrest : (utf8Read (b :: pattern)).2 = rest := by rw [heq]
      rw [hrest] at hlen
      have hlt : ∀ q : Text, q.length ≤ rest.length → compare q = compare' q :=
        fun q hq => h q (by simp only [List.length_cons]; omega)
      split_ifs
      · split
        · rfl
        · next pattern' s' hskip =>
          have hle := skipWild_length hskip
          split
          · rfl
          · next c' rest' hc' heq' =>
            have hle' : rest'.length ≤ pattern'.length := by
              cases pattern' with
              | nil => cases heq'; exact absurd rfl hc'
              | cons b' p' =>
                have := utf8Read_length b' p'
                rw [heq'] at this
                simp only [List.length_cons] at this ⊢
                omega
            rw [hlt pattern' hle, hlt rest' (by omega)]
      · split
        · rfl
        · split
          · rfl
          · next pattern' hset =>
            rw [hlt pattern' (afterSet_length (afterSet_of_matchSet hset))]
      · rw [hlt rest (Nat.le_refl _)]

/-- The number of rounds does not matter once every character of the pattern can be read. -/
theorem patternCompareLoop_congr {n m : ℕ} {pattern : Text} (hn : pattern.length < n)
    (hm : pattern.length < m) : patternCompareLoop n pattern = patternCompareLoop m pattern := by
  induction n generalizing m pattern with
  | zero => omega
  | succ n ih =>
    obtain ⟨m, rfl⟩ : ∃ k, m = k + 1 := ⟨m - 1, by omega⟩
    funext s
    apply patternStep_congr
    intro q hq
    exact ih (by omega) (by omega)

/-- One round, and the comparison of what is left. -/
theorem patternCompare_eq (pattern s : Text) :
    patternCompare pattern s = patternStep patternCompare pattern s := by
  apply patternStep_congr
  intro q hq
  exact patternCompareLoop_congr hq (Nat.lt_succ_self _)

/-! ### Literal text -/

/-- Source: the characters `parser.c` `nl_add_path` looks for -/
def isWild (c : Char) : Bool := c = '*' || c = '?' || c = '['

/-- A character that is neither `*` nor `[` is compared with one of the string. -/
theorem patternStep_char (compare : Text → Text → GlobResult) {pattern rest s : Text} {c : ℕ}
    (h : utf8Read pattern = (c, rest)) (hc : c ≠ 0) (hstar : c ≠ '*'.toNat)
    (hset : c ≠ '['.toNat) :
    patternStep compare pattern s =
      if c = (utf8Read s).1 ∨ (c = '?'.toNat ∧ (utf8Read s).1 ≠ 0) then
        compare rest (utf8Read s).2
      else .noMatch := by
  obtain ⟨c, rfl⟩ := Nat.exists_eq_succ_of_ne_zero hc
  rw [patternStep, h]
  simp only [Nat.succ_eq_add_one] at hstar hset ⊢
  rw [if_neg hstar, if_neg hset]

/-- A set is matched against one character of the string. -/
theorem patternStep_set {compare : Text → Text → GlobResult} {pattern s : Text}
    (h : patternStep compare ('[' :: pattern) s = .hit) :
    ∃ rest, matchSet (utf8Read s).1 pattern = some rest ∧ compare rest (utf8Read s).2 = .hit := by
  have hread : utf8Read ('[' :: pattern) = (91, pattern) := utf8Read_ascii (by decide) pattern
  rw [patternStep, hread] at h
  simp only at h
  rw [if_neg (by decide), if_pos (by decide)] at h
  split at h
  · cases h
  · next c s' hc heq =>
    rw [heq]
    split at h
    · cases h
    · next rest hrest => exact ⟨rest, hrest, h⟩

/-- A character that is read as a wildcard is that byte. -/
theorem utf8Read_ne_wild {b : Char} {s : Text} (hb : isWild b = false) {w : Char}
    (hw : isWild w = true) : (utf8Read (b :: s)).1 ≠ w.toNat := by
  intro hc
  have hlt : w.toNat < 0x80 := by
    simp only [isWild, Bool.or_eq_true, decide_eq_true_eq] at hw
    obtain (rfl | rfl) | rfl := hw <;> decide
  have heq : b = w := by
    apply Char.toNat_inj.mp
    rw [toNat_of_utf8Read_lt (by rw [hc]; exact hlt), hc]
  rw [heq, hw] at hb
  cases hb

/-- Literal text is compared character by character, up to where a byte of the string begins a new
character. -/
theorem patternCompare_literal {a : Text} (ha : ∀ b ∈ a, isWild b = false) {p s : Text}
    (hp : continues p = false) (hs : continues s = false)
    (h : patternCompare (a ++ p) (a ++ s) = .hit) : patternCompare p s = .hit := by
  induction hn : a.length using Nat.strongRecOn generalizing a with
  | ind n ih =>
    cases a with
    | nil => exact h
    | cons b a =>
      have hne : b :: a ≠ [] := List.cons_ne_nil b a
      have hb : isWild b = false := ha b List.mem_cons_self
      have hpat := utf8Read_append hne p hp
      rw [patternCompare_eq] at h
      by_cases hzero : (utf8Read (b :: a)).1 = 0
      · rw [patternStep, hpat, hzero] at h
        simp at h
      · rw [patternStep_char _ hpat hzero (utf8Read_ne_wild hb (by decide))
          (utf8Read_ne_wild hb (by decide)), utf8Read_append hne s hs, if_pos (Or.inl rfl)] at h
        obtain ⟨front, hfront, -⟩ := utf8Read_suffix b a
        have hlen := utf8Read_length b a
        apply ih (utf8Read (b :: a)).2.length _ _ h rfl
        · simp only [List.length_cons] at hn
          omega
        · intro b' hb'
          apply ha b'
          rw [hfront]
          simp [hb']

/-- The string begins with a character that is one byte. -/
def OneByte : Text → Prop
  | [] => False
  | b :: s => isContinuation b = false ∧ (b.toNat < 0xc0 ∨ continues s = false)

instance (s : Text) : Decidable (OneByte s) := by
  cases s <;> unfold OneByte <;> infer_instance

theorem OneByte.read {b : Char} {s : Text} (h : OneByte (b :: s)) : (utf8Read (b :: s)).2 = s := by
  obtain ⟨-, hlt | hs⟩ := h
  · simp [utf8Read, hlt]
  · rw [← List.singleton_append, utf8Read_append (List.cons_ne_nil b []) s hs]
    by_cases hb : b.toNat < 0xc0
    · simp [utf8Read, hb]
    · simp [utf8Read, hb, utf8Tail]

/-- What is left after a `?` is compared with what is left after the character. -/
theorem patternCompare_question {p : Text} {b : Char} {s : Text} (hb : OneByte (b :: s))
    (h : patternCompare ('?' :: p) (b :: s) = .hit) : patternCompare p s = .hit := by
  rw [patternCompare_eq, patternStep_char _ (utf8Read_ascii (by decide) p) (by decide) (by decide)
    (by decide), hb.read] at h
  split at h
  · exact h
  · cases h

/-- What is left after a set is compared with what is left after the character. -/
theorem patternCompare_set {p : Text} {b : Char} {s : Text} (hb : OneByte (b :: s))
    (h : patternCompare ('[' :: p) (b :: s) = .hit) :
    ∃ q, afterSet p = some q ∧ patternCompare q s = .hit := by
  rw [patternCompare_eq] at h
  obtain ⟨q, hq, hs⟩ := patternStep_set h
  rw [hb.read] at hs
  exact ⟨q, afterSet_of_matchSet hq, hs⟩

end Metatup
