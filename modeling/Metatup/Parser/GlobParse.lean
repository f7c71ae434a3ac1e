import Metatup.Parser.SqliteGlob
import Mathlib.Data.List.TakeWhile
import Mathlib.Logic.Function.Basic
import Mathlib.Tactic.Tauto

/-!
# The parts of a name a wildcard stands for

`%g` in a rule stands for the part of the input's name that the wildcard of the input pattern
matched. `glob_parse` looks for it after the database has matched the name, by walking along both
texts: it finds the first section only, and where the wildcard is a `*` it takes the last place in the
name at which the literal text after the `*` stands.

* `globParse`: the source's function.
* `GlobSound`: what its result should be.
* `Parsable`: for which pattern and name it is that.
* `globParse_sound_iff`: the two agree.
-/

namespace Metatup

/-- Source: `parser.h` `MAX_GLOBS` -/
def maxGlobs : ℕ := 10

/-- The array of pairs of a start and a length; a place that was not written holds nothing. -/
abbrev GlobIdx := ℕ → Option ℕ

/-- `globidx[i] = value` -/
def GlobIdx.set (idx : GlobIdx) (i value : ℕ) : GlobIdx := Function.update idx i (some value)

/-- The loop that iterates through while the strings are the same: how far it comes, and what is
left of both. -/
def skipSame : Text → Text → ℕ × Text × Text
  | c :: p, d :: n =>
    if c = d then
      let (k, p, n) := skipSame p n
      (k + 1, p, n)
    else (0, c :: p, d :: n)
  | p, n => (0, p, n)

/-- The loop that skips any subsequent `*`; each opens a section of its own at `m_it`. -/
def skipStars (m : ℕ) : ℕ → GlobIdx → Text → ℕ × GlobIdx × Text
  | cnt, idx, '*' :: p => skipStars m (cnt + 1) (idx.set ((cnt + 1) * 2) m) p
  | cnt, idx, p => (cnt, idx, p)

/-- The check for `?` and `[` after a `*`; it starts one character late. -/
def moreWildcards (p : Text) : Bool := (p.drop 1).any fun c => c = '?' || c = '['

/-- The scan to the left for the text after a `*`, from `i` down to `m`. -/
def searchBack (lit name : Text) (m : ℕ) : ℕ → Option ℕ
  | 0 => if m = 0 ∧ lit.isPrefixOf name then some 0 else none
  | i + 1 =>
    if i + 1 < m then none
    else if lit.isPrefixOf (name.drop (i + 1)) then some (i + 1)
    else searchBack lit name m i

/-- What `glob_parse` does with a `*` that the name departs from at `m`: `p` is the pattern after it
and `n` is left of the name. -/
def parseStar (name : Text) (m : ℕ) (p n : Text) (idx : GlobIdx) : ℕ × GlobIdx :=
  let (cnt, idx, p) := skipStars m 0 idx p
  if moreWildcards p then (cnt + 1, idx.set (cnt * 2 + 1) 0)
  else
    let lit := p.takeWhile fun c => !isWild c
    -- an asterisk at the end: the `break` here leaves the count as it is
    if lit = [] then (cnt, idx.set (cnt * 2 + 1) n.length)
    else if name.length < lit.length then (cnt + 1, idx)
    else
      match searchBack lit name m (name.length - lit.length) with
      | some i => (cnt + 1, idx.set (cnt * 2 + 1) (i - m))
      | none => (cnt + 1, idx)

/-- An array nothing was written to. -/
def GlobIdx.unwritten : GlobIdx := fun _ => none

/-- Source: `parser.c` `glob_parse`: the count it returns and what it has written. Each way through
its loop ends with a `break`, so that the body runs once. -/
def globParse (pattern name : Text) : ℕ × GlobIdx :=
  if pattern = [] then (0, .unwritten)
  else
    match skipSame pattern name with
    | (_, [], []) => (0, .unwritten)
    | (m, p, n) =>
      let idx := GlobIdx.unwritten.set 0 m
      if p.head? = some '[' then (1, idx.set 1 1)
      else if p.head? = some '?' then (1, idx.set 1 1)
      else parseStar name m (p.drop 1) n idx

/-! ### What it should find -/

/-- The pattern before its first wildcard. -/
def literalPart (pattern : Text) : Text := pattern.takeWhile fun c => !isWild c

/-- The pattern from its first wildcard on. -/
def wildPart (pattern : Text) : Text := pattern.dropWhile fun c => !isWild c

/-- The pattern after the wildcard it begins with. -/
def afterWild : Text → Option Text
  | [] => none
  | c :: p => if c = '[' then afterSet p else some p

/-- The section is the part of the name that the first wildcard stands for. -/
def Located (pattern name : Text) (start len : ℕ) : Prop :=
  ∃ sect rest post, name = literalPart pattern ++ sect ++ rest ∧
    start = (literalPart pattern).length ∧ len = sect.length ∧
    afterWild (wildPart pattern) = some post ∧ patternCompare post rest = .hit

/-- The declared unsupported case: a `*` with further wildcards after it. -/
def Unsupported (pattern name : Text) : Prop :=
  ∃ q, (skipSame pattern name).2.1 = '*' :: q ∧ moreWildcards (q.dropWhile (· = '*')) = true

/-- The count is within the array, what is counted has been written, and the first section is the
part of the name that the first wildcard stands for. -/
structure GlobSound (pattern name : Text) : Prop where
  bounded : (globParse pattern name).1 ≤ maxGlobs
  assigned : ∀ i < (globParse pattern name).1,
    ((globParse pattern name).2 (i * 2)).isSome ∧ ((globParse pattern name).2 (i * 2 + 1)).isSome
  located : 0 < (globParse pattern name).1 → ∀ start len,
    (globParse pattern name).2 0 = some start → (globParse pattern name).2 1 = some len →
    Located pattern name start len ∨ (Unsupported pattern name ∧ len = 0)

/-! ### When it finds it -/

/-- The last place from `m` on at which the text stands in the name. -/
def LastAt (lit name : Text) (m i : ℕ) : Prop :=
  m ≤ i ∧ lit <+: name.drop i ∧ ∀ j, i < j → ¬ lit <+: name.drop j

/-- Where a pattern and a name part at the character `c` of the pattern, with `a` before it in both,
`q` after it in the pattern and `n` left of the name, what has to hold for the section to be right:

* for a `?` or a set, that it is the first wildcard, and that the character is one byte or that the
  pattern allows to leave the rest of its bytes to what follows;
* for anything else, which is taken for a `*`: that no further `*` follows; where it is the
  unsupported case, that it really is a `*`; and where there is literal text after it, that it is the
  first wildcard and that the pattern after it matches from the last place where that text stands. -/
def ParsableAt (a : Text) (c : Char) (q n name : Text) : Prop :=
  if c = '[' ∨ c = '?' then
    (∀ b ∈ a, isWild b = false) ∧ ∃ b s, n = b :: s ∧
      (OneByte n ∨ ∃ post, afterWild (c :: q) = some post ∧ patternCompare post s = .hit)
  else
    q.head? ≠ some '*' ∧
      if moreWildcards q then c = '*'
      else literalPart q ≠ [] → (∀ b ∈ a, isWild b = false) ∧ c = '*' ∧
        ∃ i, LastAt (literalPart q) name a.length i ∧ patternCompare q (name.drop i) = .hit

/-- The pattern and the name for which `glob_parse` finds the right section. -/
def Parsable (pattern name : Text) : Prop :=
  match skipSame pattern name with
  | (_, [], _) => True
  | (m, c :: q, n) => ParsableAt (pattern.take m) c q n name

/-! ### The walk along both texts -/

theorem skipSame_eq (p n : Text) : ∃ a, p = a ++ (skipSame p n).2.1 ∧
    n = a ++ (skipSame p n).2.2 ∧ a.length = (skipSame p n).1 := by
  induction p generalizing n with
  | nil => exact ⟨[], by simp [skipSame]⟩
  | cons c p ih =>
    cases n with
    | nil => exact ⟨[], by simp [skipSame]⟩
    | cons d n =>
      by_cases hcd : c = d
      · subst hcd
        obtain ⟨a, hp, hn, hk⟩ := ih n
        refine ⟨c :: a, ?_, ?_, ?_⟩ <;>
          simp only [skipSame, if_true, List.cons_append, List.length_cons]
        · rw [← hp]
        · rw [← hn]
        · rw [hk]
      · exact ⟨[], by simp [skipSame, hcd]⟩

@[simp] theorem GlobIdx.set_self (idx : GlobIdx) (i value : ℕ) : idx.set i value i = some value :=
  Function.update_self ..

theorem GlobIdx.set_of_ne (idx : GlobIdx) {i j : ℕ} (h : j ≠ i) (value : ℕ) :
    idx.set i value j = idx j := Function.update_of_ne h ..

/-- Skipping stars opens a section for each, and gives no section its length. -/
theorem skipStars_spec (m cnt : ℕ) (idx : GlobIdx) (p : Text) :
    cnt ≤ (skipStars m cnt idx p).1 ∧ (skipStars m cnt idx p).2.1 1 = idx 1 := by
  induction cnt, idx, p using skipStars.induct (m := m) with
  | case1 cnt idx p ih =>
    obtain ⟨hle, hidx⟩ := ih
    rw [skipStars]
    refine ⟨by omega, ?_⟩
    rw [hidx]
    exact GlobIdx.set_of_ne idx (by omega) m
  | case2 cnt idx p h =>
    rw [skipStars]
    · exact ⟨Nat.le_refl _, rfl⟩
    · exact h

theorem skipStars_of_ne {m cnt : ℕ} {idx : GlobIdx} {p : Text} (h : p.head? ≠ some '*') :
    skipStars m cnt idx p = (cnt, idx, p) := by
  rw [skipStars]
  rintro p' rfl
  exact h rfl

/-- After two stars the first section has no length. -/
theorem parseStar_double (name : Text) (m : ℕ) (q n : Text) {idx : GlobIdx} (h : idx 1 = none) :
    0 < (parseStar name m ('*' :: q) n idx).1 ∧ (parseStar name m ('*' :: q) n idx).2 1 = none := by
  obtain ⟨hle, hone⟩ := skipStars_spec m 1 (idx.set 2 m) q
  have hstep : skipStars m 0 idx ('*' :: q) = skipStars m 1 (idx.set 2 m) q := rfl
  rw [GlobIdx.set_of_ne idx (by omega) m, h] at hone
  unfold parseStar
  rw [hstep]
  generalize skipStars m 1 (idx.set 2 m) q = r at hle hone
  obtain ⟨cnt, idx', p⟩ := r
  have hset : ∀ v, (GlobIdx.set idx' (cnt * 2 + 1) v) 1 = none := by
    intro v
    rw [GlobIdx.set_of_ne idx' (by simp only at hle; omega) v]
    exact hone
  simp only at hle hone ⊢
  split_ifs
  · exact ⟨by simp, hset 0⟩
  · exact ⟨by simp only; omega, hset _⟩
  · exact ⟨by simp, hone⟩
  · split
    · exact ⟨by simp, hset _⟩
    · exact ⟨by simp, hone⟩

/-! ### The scan to the left -/

theorem searchBack_eq_some {lit name : Text} {m i j : ℕ} (h : searchBack lit name m j = some i) :
    m ≤ i ∧ i ≤ j ∧ lit <+: name.drop i ∧ ∀ k, i < k → k ≤ j → ¬ lit <+: name.drop k := by
  induction j with
  | zero =>
    rw [searchBack, Option.ite_none_right_eq_some] at h
    obtain ⟨⟨rfl, hp⟩, hi⟩ := h
    cases hi
    exact ⟨Nat.le_refl _, Nat.le_refl _, List.isPrefixOf_iff_prefix.mp hp, by omega⟩
  | succ j ih =>
    rw [searchBack] at h
    split_ifs at h with hlt hp
    · cases h
      exact ⟨by omega, Nat.le_refl _, List.isPrefixOf_iff_prefix.mp hp, by omega⟩
    · obtain ⟨hm, hj, hpre, hlast⟩ := ih h
      refine ⟨hm, by omega, hpre, ?_⟩
      intro k hk hkj
      by_cases hkeq : k = j + 1
      · subst hkeq
        rwa [← List.isPrefixOf_iff_prefix]
      · exact hlast k hk (by omega)

theorem searchBack_eq_none {lit name : Text} {m j : ℕ} (h : searchBack lit name m j = none) :
    ∀ i, m ≤ i → i ≤ j → ¬ lit <+: name.drop i := by
  induction j with
  | zero =>
    rintro i hm hi hp
    obtain rfl : i = 0 := by omega
    obtain rfl : m = 0 := by omega
    rw [searchBack, if_pos ⟨rfl, List.isPrefixOf_iff_prefix.mpr hp⟩] at h
    cases h
  | succ j ih =>
    intro i hm hi hp
    rw [searchBack] at h
    split_ifs at h with hlt hpre
    · omega
    · by_cases heq : i = j + 1
      · subst heq
        exact hpre (List.isPrefixOf_iff_prefix.mpr hp)
      · exact ih h i hm (by omega) hp

/-- A text stands nowhere beyond its own length before the end of the name. -/
theorem le_of_prefix_drop {lit name : Text} {i : ℕ} (hlit : lit ≠ []) (h : lit <+: name.drop i) :
    lit.length ≤ name.length ∧ i ≤ name.length - lit.length := by
  have hlen := h.length_le
  have hpos := List.length_pos_of_ne_nil hlit
  rw [List.length_drop] at hlen
  omega

/-- The last place is the one the scan finds. -/
theorem lastAt_iff {lit name : Text} {m i : ℕ} (hlit : lit ≠ []) :
    LastAt lit name m i ↔ ¬ name.length < lit.length ∧
      searchBack lit name m (name.length - lit.length) = some i := by
  constructor
  · rintro ⟨hm, hpre, hlast⟩
    obtain ⟨hle, hi⟩ := le_of_prefix_drop hlit hpre
    refine ⟨by omega, ?_⟩
    cases hs : searchBack lit name m (name.length - lit.length) with
    | none => exact absurd hpre (searchBack_eq_none hs i hm hi)
    | some j =>
      obtain ⟨hmj, hj, hprej, hlastj⟩ := searchBack_eq_some hs
      rcases Nat.lt_trichotomy i j with hij | rfl | hji
      · exact absurd hprej (hlast j hij)
      · rfl
      · exact absurd hpre (hlastj i hji hi)
  · rintro ⟨-, hs⟩
    obtain ⟨hm, hi, hpre, hlast⟩ := searchBack_eq_some hs
    refine ⟨hm, hpre, ?_⟩
    intro j hij hprej
    exact hlast j hij (le_of_prefix_drop hlit hprej).2 hprej

/-! ### The first wildcard -/

theorem literalPart_append_wildPart (pattern : Text) :
    literalPart pattern ++ wildPart pattern = pattern := List.takeWhile_append_dropWhile ..

theorem isWild_of_mem_literalPart {pattern : Text} {b : Char} (h : b ∈ literalPart pattern) :
    isWild b = false := by
  simpa using List.mem_takeWhile_imp h

theorem isWild_of_wildPart {pattern q : Text} {c : Char} (h : wildPart pattern = c :: q) :
    isWild c = true := by
  have hhead := List.head?_dropWhile_not (fun c => !isWild c) pattern
  rw [show pattern.dropWhile (fun c => !isWild c) = c :: q from h] at hhead
  simpa using hhead

/-- Where the text before it is literal, a wildcard is the first one. -/
theorem literalPart_append {a q : Text} {c : Char} (ha : ∀ b ∈ a, isWild b = false)
    (hc : isWild c = true) : literalPart (a ++ c :: q) = a ∧ wildPart (a ++ c :: q) = c :: q := by
  have hpos : ∀ b ∈ a, (!isWild b) = true := fun b hb => by simp [ha b hb]
  constructor
  · rw [literalPart, List.takeWhile_append_of_pos hpos]
    simp [hc]
  · rw [wildPart, List.dropWhile_append_of_pos hpos]
    simp [hc]

/-- A section is right where the texts part at the first wildcard and what follows the wildcard
matches what is left of the name. -/
theorem located_iff {a q n : Text} {c : Char} {len : ℕ} :
    Located (a ++ c :: q) (a ++ n) a.length len ↔
      (∀ b ∈ a, isWild b = false) ∧ isWild c = true ∧ ∃ sect rest post, n = sect ++ rest ∧
        len = sect.length ∧ afterWild (c :: q) = some post ∧ patternCompare post rest = .hit := by
  constructor
  · rintro ⟨sect, rest, post, hname, hstart, hlen, hpost, hhit⟩
    have hsplit := literalPart_append_wildPart (a ++ c :: q)
    obtain ⟨hlit, hwild⟩ := List.append_inj hsplit hstart.symm
    refine ⟨?_, isWild_of_wildPart hwild, sect, rest, post, ?_, hlen, ?_, hhit⟩
    · intro b hb
      rw [← hlit] at hb
      exact isWild_of_mem_literalPart hb
    · rw [hlit, List.append_assoc] at hname
      exact List.append_cancel_left hname
    · rwa [hwild] at hpost
  · rintro ⟨ha, hc, sect, rest, post, rfl, hlen, hpost, hhit⟩
    obtain ⟨hlit, hwild⟩ := literalPart_append (q := q) ha hc
    refine ⟨sect, rest, post, ?_, ?_, hlen, ?_, hhit⟩
    · rw [hlit, List.append_assoc]
    · rw [hlit]
    · rwa [hwild]

/-! ### The first section -/

/-- A result with one section is right where the section is. -/
theorem globSound_one {pattern name : Text} {start len : ℕ}
    (h : globParse pattern name = (1, (GlobIdx.unwritten.set 0 start).set 1 len)) :
    GlobSound pattern name ↔
      Located pattern name start len ∨ (Unsupported pattern name ∧ len = 0) := by
  have hcnt : (globParse pattern name).1 = 1 := by rw [h]
  have hstart : (globParse pattern name).2 0 = some start := by
    rw [h]
    exact (GlobIdx.set_of_ne (GlobIdx.unwritten.set 0 start) Nat.zero_ne_one len).trans
      (GlobIdx.set_self _ 0 start)
  have hlen : (globParse pattern name).2 1 = some len := by
    rw [h]
    exact GlobIdx.set_self (GlobIdx.unwritten.set 0 start) 1 len
  constructor
  · intro hs
    exact hs.located (by omega) start len hstart hlen
  · intro hs
    refine ⟨by rw [hcnt]; decide, ?_, ?_⟩
    · intro i hi
      obtain rfl : i = 0 := by omega
      exact ⟨by rw [hstart]; rfl, by rw [hlen]; rfl⟩
    · intro _ start' len' hs' hl'
      rw [hstart] at hs'
      rw [hlen] at hl'
      cases hs'
      cases hl'
      exact hs

/-- Where nothing is counted, nothing is wrong. -/
theorem globSound_zero {pattern name : Text} (h : (globParse pattern name).1 = 0) :
    GlobSound pattern name :=
  ⟨by omega, fun i hi => by omega, fun hpos => by omega⟩

/-- A section that is counted and has no length is wrong. -/
theorem not_globSound {pattern name : Text} (hcnt : 0 < (globParse pattern name).1)
    (hlen : (globParse pattern name).2 1 = none) : ¬ GlobSound pattern name := by
  intro h
  have := (h.assigned 0 hcnt).2
  rw [hlen] at this
  cases this

section Parted

variable {pattern name a q n : Text} {c : Char}

/-- Where the walk stops at a character of the pattern, that character decides. -/
theorem globParse_eq (h : skipSame pattern name = (a.length, c :: q, n)) :
    globParse pattern name =
      if c = '[' ∨ c = '?' then (1, (GlobIdx.unwritten.set 0 a.length).set 1 1)
      else parseStar name a.length q n (GlobIdx.unwritten.set 0 a.length) := by
  have hne : pattern ≠ [] := by
    rintro rfl
    cases name <;> simp [skipSame] at h
  unfold globParse
  rw [if_neg hne, h]
  by_cases hset : c = '['
  · simp [hset]
  · by_cases hq : c = '?'
    · simp [hq]
    · simp [hset, hq]

theorem dropWhile_star (h : q.head? ≠ some '*') : q.dropWhile (· = '*') = q := by
  cases q with
  | nil => rfl
  | cons b q => exact List.dropWhile_cons_of_neg (by simpa using h)

theorem unsupported_iff (h : skipSame pattern name = (a.length, c :: q, n)) :
    Unsupported pattern name ↔ c = '*' ∧ moreWildcards (q.dropWhile (· = '*')) = true := by
  unfold Unsupported
  rw [h]
  constructor
  · rintro ⟨q', hq', hmore⟩
    cases hq'
    exact ⟨rfl, hmore⟩
  · rintro ⟨rfl, hmore⟩
    exact ⟨q, rfl, hmore⟩

/-- The result for a wildcard that stands for one character. -/
theorem globSound_char (h : skipSame pattern name = (a.length, c :: q, n))
    (hp : pattern = a ++ c :: q) (hn : name = a ++ n) (hc : c = '[' ∨ c = '?')
    (hhit : patternCompare pattern name = .hit) :
    GlobSound pattern name ↔ (∀ b ∈ a, isWild b = false) ∧ ∃ b s, n = b :: s ∧
      (OneByte n ∨ ∃ post, afterWild (c :: q) = some post ∧ patternCompare post s = .hit) := by
  have hres := globParse_eq h
  rw [if_pos hc] at hres
  have hun : ¬ Unsupported pattern name := by
    rw [unsupported_iff h]
    rintro ⟨rfl, -⟩
    exact absurd hc (by decide)
  have hwild : isWild c = true := by rcases hc with rfl | rfl <;> decide
  rw [globSound_one hres]
  simp only [hun, false_and, or_false]
  rw [hp, hn, located_iff]
  constructor
  · rintro ⟨ha, -, sect, rest, post, rfl, hlen, hpost, hrest⟩
    obtain ⟨b, rfl⟩ := List.length_eq_one_iff.mp hlen.symm
    exact ⟨ha, b, rest, rfl, Or.inr ⟨post, hpost, hrest⟩⟩
  · rintro ⟨ha, b, s, rfl, hone | ⟨post, hpost, hrest⟩⟩
    · have hcont : continues (b :: s) = false := by simpa [continues] using hone.1
      have hcontp : continues (c :: q) = false := by
        rcases hc with rfl | rfl <;> simp [continues, isContinuation]
      rw [hp, hn] at hhit
      have hrest := patternCompare_literal ha hcontp hcont hhit
      rcases hc with rfl | rfl
      · obtain ⟨post, hpost, hs⟩ := patternCompare_set hone hrest
        exact ⟨ha, hwild, [b], s, post, rfl, rfl, hpost, hs⟩
      · exact ⟨ha, hwild, [b], s, q, rfl, rfl, rfl, patternCompare_question hone hrest⟩
    · exact ⟨ha, hwild, [b], s, post, rfl, rfl, hpost, hrest⟩

/-- After two stars no length is found for the first section. -/
theorem not_globSound_of_double (h : skipSame pattern name = (a.length, c :: q, n))
    (hc : ¬ (c = '[' ∨ c = '?')) (hstar : q.head? = some '*') : ¬ GlobSound pattern name := by
  obtain ⟨q', rfl⟩ : ∃ q', q = '*' :: q' := by
    cases q with
    | nil => cases hstar
    | cons b q' => exact ⟨q', by simpa using hstar⟩
  have hres := globParse_eq h
  rw [if_neg hc] at hres
  obtain ⟨hcnt, hone⟩ := parseStar_double name a.length q' n
    (GlobIdx.set_of_ne GlobIdx.unwritten Nat.one_ne_zero a.length)
  rw [← hres] at hcnt hone
  exact not_globSound hcnt hone

/-- Nothing is counted for a `*` at the end. -/
theorem globSound_end (h : skipSame pattern name = (a.length, c :: q, n))
    (hc : ¬ (c = '[' ∨ c = '?')) (hstar : q.head? ≠ some '*')
    (hmore : ¬ moreWildcards q = true) (hlit : literalPart q = []) : GlobSound pattern name := by
  have hres := globParse_eq h
  rw [if_neg hc, parseStar, skipStars_of_ne hstar] at hres
  simp only at hres
  rw [if_neg hmore, ← literalPart, if_pos hlit] at hres
  exact globSound_zero (by rw [hres])

/-- The result for a `*` in the unsupported case. -/
theorem globSound_more (h : skipSame pattern name = (a.length, c :: q, n))
    (hp : pattern = a ++ c :: q) (hn : name = a ++ n) (hc : ¬ (c = '[' ∨ c = '?'))
    (hstar : q.head? ≠ some '*') (hmore : moreWildcards q = true) :
    GlobSound pattern name ↔ c = '*' := by
  have hres := globParse_eq h
  rw [if_neg hc, parseStar, skipStars_of_ne hstar] at hres
  simp only at hres
  rw [if_pos hmore] at hres
  rw [globSound_one hres, unsupported_iff h, dropWhile_star hstar]
  constructor
  · rintro (hloc | ⟨⟨hstar', -⟩, -⟩)
    · rw [hp, hn, located_iff] at hloc
      simpa [isWild, not_or.mp hc] using hloc.2.1
    · exact hstar'
  · intro hstar'
    exact Or.inr ⟨⟨hstar', hmore⟩, rfl⟩

/-- The result for a `*` with literal text after it. -/
theorem globSound_lit (h : skipSame pattern name = (a.length, c :: q, n))
    (hp : pattern = a ++ c :: q) (hn : name = a ++ n) (hc : ¬ (c = '[' ∨ c = '?'))
    (hstar : q.head? ≠ some '*') (hmore : ¬ moreWildcards q = true) (hlit : literalPart q ≠ []) :
    GlobSound pattern name ↔ (∀ b ∈ a, isWild b = false) ∧ c = '*' ∧
      ∃ i, LastAt (literalPart q) name a.length i ∧ patternCompare q (name.drop i) = .hit := by
  have hres := globParse_eq h
  rw [if_neg hc, parseStar, skipStars_of_ne hstar] at hres
  simp only at hres
  rw [if_neg hmore, ← literalPart, if_neg hlit] at hres
  simp only [lastAt_iff hlit]
  have hnot : globParse pattern name = (1, GlobIdx.unwritten.set 0 a.length) →
      ¬ GlobSound pattern name := by
    intro h1
    apply not_globSound
    · rw [h1]
      exact Nat.one_pos
    · rw [h1]
      exact GlobIdx.set_of_ne _ Nat.one_ne_zero a.length
  by_cases hlen : name.length < (literalPart q).length
  · rw [if_pos hlen] at hres
    simp [hnot hres, hlen]
  · rw [if_neg hlen] at hres
    cases hs : searchBack (literalPart q) name a.length (name.length - (literalPart q).length) with
    | none =>
      rw [hs] at hres
      simp [hnot hres]
    | some i =>
      rw [hs] at hres
      have hun : ¬ (Unsupported pattern name ∧ i - a.length = 0) := by
        rw [unsupported_iff h, dropWhile_star hstar]
        rintro ⟨⟨-, h'⟩, -⟩
        exact hmore h'
      obtain ⟨hm, hi, -⟩ := searchBack_eq_some hs
      have hlenn : name.length = a.length + n.length := by rw [hn, List.length_append]
      have hdrop : name.drop i = n.drop (i - a.length) := by
        rw [hn, List.drop_append, List.drop_eq_nil_of_le hm, List.nil_append]
      rw [globSound_one hres]
      simp only [hun, or_false]
      conv_lhs => rw [hp, hn]
      rw [located_iff]
      constructor
      · rintro ⟨ha, hwild, sect, rest, post, hsplit, hsect, hpost, hrest⟩
        have hc' : c = '*' := by simpa [isWild, not_or.mp hc] using hwild
        subst hc'
        cases hpost
        refine ⟨ha, rfl, i, ⟨hlen, rfl⟩, ?_⟩
        rw [hdrop, hsplit, hsect, List.drop_left]
        exact hrest
      · rintro ⟨ha, rfl, j, ⟨-, hj⟩, hrest⟩
        cases hj
        rw [hdrop] at hrest
        refine ⟨ha, rfl, n.take (i - a.length), n.drop (i - a.length), q,
          (List.take_append_drop ..).symm, ?_, rfl, hrest⟩
        rw [List.length_take]
        omega

end Parted

/-- Where the database has matched a name, what `glob_parse` finds in it is right exactly for the
patterns and names it can parse. -/
theorem globParse_sound_iff (pattern name : Text) (h : patternCompare pattern name = .hit) :
    GlobSound pattern name ↔ Parsable pattern name := by
  obtain ⟨a, hp, hn, hk⟩ := skipSame_eq pattern name
  unfold Parsable
  generalize hskip : skipSame pattern name = r at hp hn hk
  obtain ⟨m, p, n⟩ := r
  subst hk
  cases p with
  | nil =>
    have : GlobSound pattern name := by
      apply globSound_zero
      unfold globParse
      rw [hskip]
      split_ifs
      · rfl
      · cases n <;> rfl
    simp [this]
  | cons c q =>
    have htake : pattern.take a.length = a := by
      rw [hp]
      exact List.take_left
    simp only [ParsableAt, htake]
    by_cases hc : c = '[' ∨ c = '?'
    · rw [if_pos hc]
      exact globSound_char hskip hp hn hc h
    · rw [if_neg hc]
      by_cases hstar : q.head? = some '*'
      · simp [not_globSound_of_double hskip hc hstar, hstar]
      · simp only [Ne, hstar, not_false_eq_true, true_and]
        by_cases hmore : moreWildcards q
        · rw [if_pos hmore]
          exact globSound_more hskip hp hn hc hstar hmore
        · rw [if_neg hmore]
          by_cases hlit : literalPart q = []
          · simp [globSound_end hskip hc hstar hmore hlit, hlit]
          · rw [globSound_lit hskip hp hn hc hstar hmore hlit]
            simp [hlit]

theorem globParse_sound_main_c :
    patternCompare "*.c".toList "main.c".toList = .hit ∧
      (GlobSound "*.c".toList "main.c".toList ↔ Parsable "*.c".toList "main.c".toList) :=
  ⟨by decide, globParse_sound_iff _ _ (by decide)⟩

/-- In `foo`, the last `o` is taken for the `o` after the first `*` of `*o*o`, and none is left for
the second. -/
theorem globParse_takes_last : ¬ ∀ pattern name : Text, patternCompare pattern name = .hit →
    GlobSound pattern name := by
  intro h
  have hsound := h "*o*o".toList "foo".toList (by decide)
  obtain hloc | ⟨hun, -⟩ := hsound.located (by decide) 0 2 (by decide) (by decide)
  · obtain ⟨sect, rest, post, hname, -, hlen, hpost, hhit⟩ := hloc
    have hrest : rest = ['o'] := by
      have hname' : "foo".toList = sect ++ rest := hname
      have hdrop := congrArg (List.drop 2) hname'
      rw [hlen, List.drop_left, ← hlen] at hdrop
      exact hdrop.symm
    have hpost' : some "o*o".toList = some post := hpost
    cases hpost'
    rw [hrest] at hhit
    exact absurd hhit (by decide)
  · obtain ⟨q, hq, hmore⟩ := hun
    have hq' : "*o*o".toList = '*' :: q := hq
    cases hq'
    exact absurd hmore (by decide)

end Metatup
