import Mathlib.Logic.Relation
import Metatup.Parser.LineBuffer

/-!
# Line splitting and the ends of the buffer

The loop of `parse_tupfile` looks one and two bytes in front of a line end, and it overwrites a line
end behind a backslash, also where that is the null byte at the end of the buffer.

* `Reached`: the states of the buffer at the head of the loop, whatever is done with the statements.
* `StaysInside`: what the file has to look like at such a place.
-/

namespace Metatup

/-! ### Searches -/

theorem except_ok_bind {ε α β : Type} (a : α) (f : α → Except ε β) : (Except.ok a >>= f) = f a :=
  rfl

theorem endsLine_zero : endsLine 0 = true := by decide

theorem endsLine_blank : endsLine (byte ' ') = false := by decide

/-- The first line end from `i` on is at `n`. -/
structure FirstEnd (m : Memory) (i n : ℕ) : Prop where
  le : i ≤ n
  ends : endsLine (m n) = true
  before : ∀ j, i ≤ j → j < n → endsLine (m j) = false

theorem FirstEnd.unique {m : Memory} {i n n' : ℕ} (h : FirstEnd m i n) (h' : FirstEnd m i n') :
    n = n' := by
  have hend := h.ends
  have hend' := h'.ends
  rcases Nat.lt_trichotomy n n' with hlt | heq | hlt
  · rw [h'.before n h.le hlt] at hend
    cases hend
  · exact heq
  · rw [h.before n' h'.le hlt] at hend'
    cases hend'

theorem getNewlineFrom_firstEnd {m : Memory} {i n k : ℕ} (h : FirstEnd m i n) (hk : n < i + k) :
    getNewlineFrom m k i = .ok n := by
  induction k generalizing i with
  | zero =>
    have hle := h.le
    omega
  | succ k ih =>
    unfold getNewlineFrom
    by_cases hi : endsLine (m i) = true
    · rw [if_pos hi]
      have hself : FirstEnd m i i := ⟨Nat.le_refl i, hi, fun j hj hlt => absurd hlt (Nat.not_lt.2 hj)⟩
      rw [hself.unique h]
    · rw [if_neg hi]
      have hne : i ≠ n := fun heq => hi (heq ▸ h.ends)
      have hlt : i < n := Nat.lt_of_le_of_ne h.le hne
      apply ih
      · exact ⟨hlt, h.ends, fun j hj => h.before j (Nat.le_of_succ_le hj)⟩
      · omega

theorem getNewlineFrom_error {m : Memory} {i k : ℕ}
    (h : ∀ j, i ≤ j → j < i + k → endsLine (m j) = false) :
    getNewlineFrom m k i = .error .outOfBounds := by
  induction k generalizing i with
  | zero => rfl
  | succ k ih =>
    unfold getNewlineFrom
    rw [h i (Nat.le_refl i) (by omega), if_neg Bool.false_ne_true]
    apply ih
    intro j hj hlt
    exact h j (by omega) (by omega)

/-- Some line end follows. -/
theorem exists_firstEnd {m : Memory} {i z : ℕ} (hle : i ≤ z) (hz : endsLine (m z) = true) :
    ∃ n, FirstEnd m i n ∧ n ≤ z := by
  obtain ⟨d, rfl⟩ := Nat.exists_eq_add_of_le hle
  induction d generalizing i with
  | zero =>
    refine ⟨i, ⟨Nat.le_refl i, hz, fun j hj hlt => ?_⟩, Nat.le_refl i⟩
    exact absurd hlt (Nat.not_lt.2 hj)
  | succ d ih =>
    by_cases hi : endsLine (m i) = true
    · refine ⟨i, ⟨Nat.le_refl i, hi, fun j hj hlt => ?_⟩, hle⟩
      exact absurd hlt (Nat.not_lt.2 hj)
    · have hadd : i + 1 + d = i + (d + 1) := by omega
      obtain ⟨n, hn, hnz⟩ := @ih (i + 1) (by omega) (by rw [hadd]; exact hz)
      refine ⟨n, ⟨Nat.le_of_succ_le hn.le, hn.ends, fun j hj hlt => ?_⟩, by omega⟩
      rcases Nat.eq_or_lt_of_le hj with rfl | hlt'
      · exact Bool.eq_false_iff.2 hi
      · exact hn.before j hlt' hlt

section

variable {len : ℕ} {m : Memory}

theorem getNewline_eq {i n : ℕ} (h : FirstEnd m i n) (hn : n ≤ len) :
    getNewline len m i = .ok n := by
  apply getNewlineFrom_firstEnd h
  have hle := h.le
  omega

theorem getNewline_error {i : ℕ} (h : ∀ j, i ≤ j → j ≤ len → endsLine (m j) = false) :
    getNewline len m i = .error .outOfBounds := by
  apply getNewlineFrom_error
  intro j hj hlt
  exact h j hj (by omega)

theorem readAt_nat {i : ℕ} (h : i ≤ len) : readAt len m i = .ok (m i) := by
  have hcond : (0 : ℤ) ≤ i ∧ (i : ℤ) ≤ len := by omega
  rw [readAt, if_pos hcond, Int.toNat_natCast]

theorem readAt_of_eq {i : ℤ} {j : ℕ} (hij : i = j) (h : j ≤ len) : readAt len m i = .ok (m j) := by
  rw [hij]
  exact readAt_nat h

theorem writeAt_nat {i : ℕ} (h : i ≤ len) (c : Byte) :
    writeAt len m i c = .ok (Function.update m i c) := by
  have hcond : (0 : ℤ) ≤ i ∧ (i : ℤ) ≤ len := by omega
  rw [writeAt, if_pos hcond, Int.toNat_natCast]

theorem writeAt_of_eq {i : ℤ} {j : ℕ} (hij : i = j) (h : j ≤ len) (c : Byte) :
    writeAt len m i c = .ok (Function.update m j c) := by
  rw [hij]
  exact writeAt_nat h c

end

/-! ### Backslashes -/

/-- The text from `i` to `n` ends with a backslash, or with one in front of a carriage return. -/
def MarkedEnd (m : Memory) (i n : ℕ) : Prop :=
  (i < n ∧ m (n - 1) = byte '\\') ∨
    (i + 1 < n ∧ m (n - 2) = byte '\\' ∧ m (n - 1) = byte '\r')

/-- The bytes in front of `i` are no mark, and no part of one. -/
structure Quiet (m : Memory) (i : ℕ) : Prop where
  last : 0 < i → m (i - 1) ≠ byte '\\'
  pair : 1 < i → m (i - 1) = byte '\r' → m (i - 2) ≠ byte '\\'

theorem lineContinues_iff {len : ℕ} {m : Memory} {i n : ℕ} (hi : i ≤ n) (hn : n ≤ len)
    (hquiet : Quiet m i) (hfirst : 2 ≤ n ∨ n = 1 ∧ m 0 = byte '\\') :
    ∃ b, lineContinues len m n = .ok b ∧ (b = true ↔ MarkedEnd m i n) := by
  have hpos : 1 ≤ n := by
    rcases hfirst with htwo | ⟨hn', -⟩
    · omega
    · omega
  have hone : readAt len m ((n : ℤ) - 1) = .ok (m (n - 1)) := readAt_of_eq (by omega) (by omega)
  unfold lineContinues
  rw [hone, except_ok_bind]
  by_cases ha : m (n - 1) = byte '\\'
  · rw [if_pos ha]
    refine ⟨true, rfl, fun _ => Or.inl ⟨?_, ha⟩, fun _ => rfl⟩
    rcases Nat.eq_or_lt_of_le hi with rfl | hlt
    · exact absurd ha (hquiet.last (by omega))
    · exact hlt
  · have htwo : 2 ≤ n := by
      rcases hfirst with htwo | ⟨rfl, hzero⟩
      · exact htwo
      · exact absurd hzero ha
    have hread : readAt len m ((n : ℤ) - 2) = .ok (m (n - 2)) :=
      readAt_of_eq (by omega) (by omega)
    rw [if_neg ha, hread, except_ok_bind]
    refine ⟨_, rfl, ?_⟩
    simp only [Bool.and_eq_true, decide_eq_true_eq]
    constructor
    · rintro ⟨hb, hcr⟩
      refine Or.inr ⟨?_, hb, hcr⟩
      by_contra hnot
      rcases Nat.eq_or_lt_of_le hi with rfl | hlt
      · exact hquiet.pair (by omega) hcr hb
      · obtain rfl : n = i + 1 := by omega
        exact hquiet.last (by omega) (by simpa using hb)
    · rintro (⟨-, hmark⟩ | ⟨-, hb, hcr⟩)
      · exact absurd hmark ha
      · exact ⟨hb, hcr⟩

/-- A physical line that is marked, and the one after it. -/
def NextLine (m : Memory) (i j : ℕ) : Prop := ∃ n, FirstEnd m i n ∧ MarkedEnd m i n ∧ j = n + 1

/-- The physical lines that are joined to the one at `i`. -/
def Lines (m : Memory) : ℕ → ℕ → Prop := Relation.ReflTransGen (NextLine m)

/-- No mark stands at the end of the last line of the file. -/
def MarksInside (file : Memory) (len i : ℕ) : Prop :=
  ∀ j n, Lines file i j → FirstEnd file j n → MarkedEnd file j n → n < len

/-- The loop over marked lines has joined the lines from `line` on, and is at the end `n` of the
physical line at `i`. -/
structure Joining (file : Memory) (len line : ℕ) (m : Memory) (i n : ℕ) : Prop where
  le : line ≤ i
  first : FirstEnd file i n
  inside : n ≤ len
  same : ∀ j, i ≤ j → m j = file j
  text : ∀ j, line ≤ j → j < i → m j = byte ' ' ∨ m j = file j ∧ endsLine (file j) = false
  quiet : Quiet m i

theorem Joining.marked {file m : Memory} {len line i n : ℕ} (h : Joining file len line m i n) :
    MarkedEnd m i n ↔ MarkedEnd file i n := by
  have hone : i < n → m (n - 1) = file (n - 1) := fun hlt => h.same _ (by omega)
  have htwo : i + 1 < n → m (n - 2) = file (n - 2) := fun hlt => h.same _ (by omega)
  unfold MarkedEnd
  constructor
  · rintro (⟨hlt, hmark⟩ | ⟨hlt, hmark, hcr⟩)
    · exact Or.inl ⟨hlt, hone hlt ▸ hmark⟩
    · exact Or.inr ⟨hlt, htwo hlt ▸ hmark, hone (by omega) ▸ hcr⟩
  · rintro (⟨hlt, hmark⟩ | ⟨hlt, hmark, hcr⟩)
    · exact Or.inl ⟨hlt, (hone hlt).trans hmark⟩
    · exact Or.inr ⟨hlt, (htwo hlt).trans hmark, (hone (by omega)).trans hcr⟩

/-- The memory after the mark and the line end behind it have been blanked. -/
def blankMark (m : Memory) (n : ℕ) : Memory :=
  Function.update (Function.update
    (if m (n - 1) = byte '\r' then Function.update m (n - 2) (byte ' ') else m)
    (n - 1) (byte ' ')) n (byte ' ')

theorem blankMark_apply (m : Memory) (n j : ℕ) :
    blankMark m n j = byte ' ' ∨ blankMark m n j = m j := by
  unfold blankMark
  by_cases hn : j = n
  · rw [hn, Function.update_self]
    exact Or.inl rfl
  rw [Function.update_of_ne hn]
  by_cases hone : j = n - 1
  · rw [hone, Function.update_self]
    exact Or.inl rfl
  rw [Function.update_of_ne hone]
  split
  · by_cases htwo : j = n - 2
    · rw [htwo, Function.update_self]
      exact Or.inl rfl
    · exact Or.inr (Function.update_of_ne htwo _ _)
  · exact Or.inr rfl

theorem blankMark_self (m : Memory) (n : ℕ) : blankMark m n n = byte ' ' := Function.update_self ..

theorem blankMark_beyond (m : Memory) {n j : ℕ} (h : n < j) : blankMark m n j = m j := by
  unfold blankMark
  rw [Function.update_of_ne (by omega), Function.update_of_ne (by omega)]
  split
  · exact Function.update_of_ne (by omega) _ _
  · rfl

section

variable {file m : Memory} {len line i n : ℕ}

theorem blank_writes (hi : i < n) (hn : n ≤ len) (hmark : MarkedEnd m i n) :
    ∃ m₁ m₂, blankBackslash len m n = .ok m₁ ∧
      writeAt len m₁ ((n : ℤ) - 1) (byte ' ') = .ok m₂ ∧
      writeAt len m₂ n (byte ' ') = .ok (blankMark m n) := by
  have hone : readAt len m ((n : ℤ) - 1) = .ok (m (n - 1)) := readAt_of_eq (by omega) (by omega)
  have hback : blankBackslash len m n =
      .ok (if m (n - 1) = byte '\r' then Function.update m (n - 2) (byte ' ') else m) := by
    unfold blankBackslash
    rw [hone, except_ok_bind]
    by_cases hcr : m (n - 1) = byte '\r'
    · have htwo : i + 1 < n := by
        rcases hmark with ⟨-, hmark⟩ | ⟨hlt, -⟩
        · rw [hcr] at hmark
          exact absurd hmark (by decide)
        · exact hlt
      rw [if_pos hcr, if_pos hcr]
      exact writeAt_of_eq (by omega) (by omega) _
    · rw [if_neg hcr, if_neg hcr]
  exact ⟨_, _, hback, writeAt_of_eq (by omega) (by omega) _, writeAt_nat hn _⟩

theorem MarkedEnd.lt (h : MarkedEnd m i n) : i < n := by
  rcases h with ⟨hlt, -⟩ | ⟨hlt, -⟩
  · exact hlt
  · omega

/-- What is blanked belongs to the lines that are joined. -/
theorem Joining.blank_text (h : Joining file len line m i n) {j : ℕ} (hj : line ≤ j) (hjn : j ≤ n) :
    blankMark m n j = byte ' ' ∨ blankMark m n j = file j ∧ endsLine (file j) = false := by
  rcases blankMark_apply m n j with hblank | hsame
  · exact Or.inl hblank
  · rcases Nat.eq_or_lt_of_le hjn with rfl | hlt
    · exact Or.inl (blankMark_self m j)
    rcases Nat.lt_or_ge j i with hji | hij
    · rw [hsame]
      exact h.text j hj hji
    · exact Or.inr ⟨hsame.trans (h.same j hij), h.first.before j hij hlt⟩

theorem Joining.blank_quietText (h : Joining file len line m i n) {j : ℕ} (hj : line ≤ j)
    (hjn : j ≤ n) : endsLine (blankMark m n j) = false := by
  rcases h.blank_text hj hjn with hblank | ⟨hsame, hends⟩
  · rw [hblank, endsLine_blank]
  · rw [hsame, hends]

/-- The next physical line is joined. -/
theorem Joining.next (h : Joining file len line m i n) {n' : ℕ} (hn' : FirstEnd file (n + 1) n')
    (hle : n' ≤ len) :
    Joining file len line (blankMark m n) (n + 1) n' ∧ FirstEnd (blankMark m n) line n' := by
  have hin : i ≤ n := h.first.le
  have hnn' : n < n' := hn'.le
  have hbeyond : ∀ j, n + 1 ≤ j → blankMark m n j = file j := by
    intro j hj
    rw [blankMark_beyond m hj, h.same j (by omega)]
  refine ⟨⟨?_, hn', hle, hbeyond, ?_, ?_, ?_⟩, ?_, ?_, ?_⟩
  · have hle := h.le
    omega
  · intro j hj hlt
    exact h.blank_text hj (Nat.le_of_lt_succ hlt)
  · intro _
    rw [Nat.add_sub_cancel, blankMark_self]
    decide
  · intro _ hcr
    rw [Nat.add_sub_cancel, blankMark_self] at hcr
    exact absurd hcr (by decide)
  · have hle := h.le
    omega
  · rw [hbeyond n' hnn']
    exact hn'.ends
  · intro j hj hlt
    rcases Nat.lt_or_ge n j with hnj | hjn
    · rw [hbeyond j hnj]
      exact hn'.before j hnj hlt
    · exact h.blank_quietText hj hjn

theorem joinContinued_marked {k : ℕ} (h : Joining file len line m i n)
    (hfirst : 2 ≤ n ∨ n = 1 ∧ m 0 = byte '\\') (hmark : MarkedEnd file i n) :
    joinContinued len line (k + 1) m n =
      getNewline len (blankMark m n) line >>= joinContinued len line k (blankMark m n) := by
  obtain ⟨b, hb, hiff⟩ := lineContinues_iff h.first.le h.inside h.quiet hfirst
  have hmem : MarkedEnd m i n := h.marked.2 hmark
  obtain ⟨m₁, m₂, hback, hone, hend⟩ := blank_writes hmem.lt h.inside hmem
  rw [joinContinued, hb, except_ok_bind, if_pos (hiff.2 hmem), hback, except_ok_bind, hone,
    except_ok_bind, hend, except_ok_bind]

theorem joinContinued_unmarked {k : ℕ} (h : Joining file len line m i n)
    (hfirst : 2 ≤ n ∨ n = 1 ∧ m 0 = byte '\\') (hmark : ¬MarkedEnd file i n) :
    joinContinued len line (k + 1) m n = .ok (m, n) := by
  obtain ⟨b, hb, hiff⟩ := lineContinues_iff h.first.le h.inside h.quiet hfirst
  rw [joinContinued, hb, except_ok_bind, if_neg fun htrue => hmark (h.marked.1 (hiff.1 htrue))]

/-- The end of the next physical line. -/
theorem exists_nextEnd (hzero : file len = 0) (hlt : n < len) :
    ∃ n', FirstEnd file (n + 1) n' ∧ n' ≤ len :=
  exists_firstEnd hlt (by rw [hzero, endsLine_zero])

/-- The lines of the statement are joined where no mark is at the end of the last line. -/
theorem joinContinued_spec {k : ℕ} (hzero : file len = 0) (h : Joining file len line m i n)
    (hk : len < n + k) (hfirst : 2 ≤ n ∨ n = 1 ∧ m 0 = byte '\\') (hmarks : MarksInside file len i) :
    ∃ m' i' n', joinContinued len line k m n = .ok (m', n') ∧ Joining file len line m' i' n' ∧
      ¬MarkedEnd file i' n' ∧ Lines file i i' ∧ n ≤ n' := by
  induction k generalizing m i n with
  | zero =>
    have hin := h.inside
    omega
  | succ k ih =>
    by_cases hmark : MarkedEnd file i n
    · have hlt : n < len := hmarks i n .refl h.first hmark
      obtain ⟨n', hn', hle⟩ := exists_nextEnd hzero hlt
      obtain ⟨hjoin, hends⟩ := h.next hn' hle
      have hnn' := hn'.le
      have hpos := hmark.lt
      have hstep : Lines file i (n + 1) := .single ⟨n, h.first, hmark, rfl⟩
      obtain ⟨m', i', n'', heq, hjoin', hnot, hlines, hle'⟩ := ih hjoin (by omega)
        (Or.inl (by omega)) fun j l hj => hmarks j l (hstep.trans hj)
      refine ⟨m', i', n'', ?_, hjoin', hnot, hstep.trans hlines, by omega⟩
      rw [joinContinued_marked h hfirst hmark, getNewline_eq hends hle]
      exact heq
    · exact ⟨m, i, n, joinContinued_unmarked h hfirst hmark, h, hmark, .refl, Nat.le_refl n⟩

/-- The loop fails at a mark at the end of the last line. -/
theorem marksInside_of_joinContinued {k : ℕ} (hzero : file len = 0)
    (h : Joining file len line m i n) (hfirst : 2 ≤ n ∨ n = 1 ∧ m 0 = byte '\\')
    {r : Memory × ℕ} (hr : joinContinued len line k m n = .ok r) : MarksInside file len i := by
  induction k generalizing m i n with
  | zero => cases hr
  | succ k ih =>
    intro j l hj hl hjl
    -- either line needs the end of the line at `i` to be inside of the file
    have hlt : MarkedEnd file i n → n < len := by
      intro hmark
      rcases Nat.eq_or_lt_of_le h.inside with rfl | hlt
      · have herr : getNewline n (blankMark m n) line = .error .outOfBounds :=
          getNewline_error fun j hj hjn => h.blank_quietText hj hjn
        rw [joinContinued_marked h hfirst hmark, herr] at hr
        cases hr
      · exact hlt
    rcases Relation.ReflTransGen.cases_head hj with rfl | ⟨i', ⟨n₁, hn₁, hmark, rfl⟩, hj'⟩
    · obtain rfl := h.first.unique hl
      exact hlt hjl
    · obtain rfl := h.first.unique hn₁
      obtain ⟨n', hn', hle⟩ := exists_nextEnd hzero (hlt hmark)
      obtain ⟨hjoin, hends⟩ := h.next hn' hle
      have hnn' := hn'.le
      have hpos := hmark.lt
      rw [joinContinued_marked h hfirst hmark, getNewline_eq hends hle] at hr
      exact ih hjoin (Or.inl (by omega)) hr j l hj' hl hjl

end

/-! ### Statements of several lines -/

theorem slice_cons (m : Memory) {i n : ℕ} (h : i < n) : slice m i n = m i :: slice m (i + 1) n := by
  obtain ⟨d, rfl⟩ := Nat.exists_eq_add_of_lt h
  have hsub : i + d + 1 - i = d + 1 := by omega
  have hsub' : i + d + 1 - (i + 1) = d := by omega
  rw [slice, slice, hsub, hsub', List.range'_succ, List.map_cons]

theorem slice_self (m : Memory) (i : ℕ) : slice m i i = [] := by
  rw [slice, Nat.sub_self]
  rfl

theorem slice_congr {m m' : Memory} {i n : ℕ} (h : ∀ j, i ≤ j → j < n → m j = m' j) :
    slice m i n = slice m' i n := by
  apply List.map_congr_left
  intro j hj
  rw [List.mem_range'_1] at hj
  exact h j hj.1 (by omega)

theorem cStringFrom_eq {m : Memory} {i n k : ℕ} (hle : i ≤ n) (hk : n < i + k)
    (htext : ∀ j, i ≤ j → j < n → m j ≠ 0) (hnull : m n = 0) :
    cStringFrom m k i = .ok (slice m i n) := by
  induction k generalizing i with
  | zero => omega
  | succ k ih =>
    unfold cStringFrom
    rcases Nat.eq_or_lt_of_le hle with rfl | hlt
    · rw [if_pos hnull, slice_self]
    · rw [if_neg (htext i (Nat.le_refl i) hlt), slice_cons m hlt,
        ih hlt (by omega) fun j hj => htext j (by omega)]
      rfl

theorem cStringAt_eq {len : ℕ} {m : Memory} {i n : ℕ} (hle : i ≤ n) (hn : n ≤ len)
    (htext : ∀ j, i ≤ j → j < n → m j ≠ 0) (hnull : m n = 0) :
    cStringAt len m i = .ok (slice m i n) :=
  cStringFrom_eq hle (by omega) htext hnull

/-- A comparison does not get past a byte that the literal has not. -/
theorem startsAt_eq {len : ℕ} {m : Memory} {z : ℕ} (hz : z ≤ len) {lit : Bytes} (hlit : m z ∉ lit)
    {i : ℕ} (hle : i ≤ z) : startsAt len m i lit = .ok (lit.isPrefixOf (slice m i z)) := by
  induction lit generalizing i with
  | nil => rfl
  | cons c lit ih =>
    rw [List.mem_cons, not_or] at hlit
    rw [startsAt, readAt_nat (by omega), except_ok_bind]
    rcases Nat.eq_or_lt_of_le hle with rfl | hlt
    · rw [if_neg hlit.1, slice_self]
      rfl
    · rw [slice_cons m hlt]
      by_cases hc : m i = c
      · rw [if_pos hc, ih hlit.2 hlt, hc, List.isPrefixOf_cons_cons_self]
      · rw [if_neg hc, List.isPrefixOf, beq_false_of_ne (Ne.symm hc), Bool.false_and]

theorem startsAnyAt_eq {len : ℕ} {m : Memory} {z i : ℕ} (hz : z ≤ len) (hle : i ≤ z)
    {lits : List Bytes} (hlits : ∀ lit ∈ lits, m z ∉ lit) :
    startsAnyAt len m i lits = .ok (lits.any fun lit => lit.isPrefixOf (slice m i z)) := by
  induction lits with
  | nil => rfl
  | cons lit lits ih =>
    rw [List.forall_mem_cons] at hlits
    rw [startsAnyAt, startsAt_eq hz hlits.1 hle, except_ok_bind, List.any_cons, ih hlits.2]
    cases lit.isPrefixOf (slice m i z) <;> rfl

theorem not_mem_multiLineStarts {c : Byte} (hc : endsLine c = true) :
    ∀ lit ∈ multiLineStarts, c ∉ lit := by
  rw [endsLine, Bool.or_eq_true, decide_eq_true_eq, decide_eq_true_eq] at hc
  rcases hc with rfl | rfl
  · decide
  · decide

section

variable {file m : Memory} {len line n : ℕ} {saved : Byte}

/-- A statement from `line` to `n`, where a null byte stands for the line end of the file. -/
structure Terminated (file : Memory) (len line : ℕ) (m : Memory) (n : ℕ) (saved : Byte) : Prop where
  le : line ≤ n
  inside : n ≤ len
  null : m n = 0
  saved : saved = file n
  ends : endsLine (file n) = true
  beyond : ∀ j, n < j → m j = file j
  text : ∀ j, line ≤ j → j < n → m j = byte ' ' ∨ m j = file j ∧ endsLine (file j) = false

theorem Terminated.ne_zero (h : Terminated file len line m n saved) {j : ℕ} (hj : line ≤ j)
    (hjn : j < n) : m j ≠ 0 := by
  rcases h.text j hj hjn with hblank | ⟨hsame, hends⟩
  · rw [hblank]
    decide
  · rw [hsame]
    intro hzero
    rw [hzero, endsLine_zero] at hends
    cases hends

theorem Terminated.cString (h : Terminated file len line m n saved) :
    cStringAt len m line = .ok (slice m line n) :=
  cStringAt_eq h.le h.inside (fun _ => h.ne_zero) h.null

/-- The line end of a file that is no null byte is not the last. -/
theorem Terminated.lt (hzero : file len = 0) (h : Terminated file len line m n saved)
    (hsaved : saved ≠ 0) : n < len := by
  rcases Nat.eq_or_lt_of_le h.inside with rfl | hlt
  · exact absurd (h.saved.trans hzero) hsaved
  · exact hlt

/-- The memory after the null byte at `n` has been put back to a blank and moved to `n'`. -/
def moveNull (m : Memory) (n n' : ℕ) : Memory :=
  Function.update (Function.update m n (byte ' ')) n' 0

/-- The next line is joined to the statement. -/
theorem Terminated.next (h : Terminated file len line m n saved) {n' : ℕ}
    (hn' : FirstEnd file (n + 1) n') (hle : n' ≤ len) :
    FirstEnd (Function.update m n (byte ' ')) (n + 1) n' ∧
      Function.update m n (byte ' ') n' = file n' ∧
      Terminated file len line (moveNull m n n') n' (file n') := by
  have hnn' : n < n' := hn'.le
  have hline := h.le
  have hbeyond : ∀ j, n < j → Function.update m n (byte ' ') j = file j := by
    intro j hj
    rw [Function.update_of_ne (Nat.ne_of_gt hj), h.beyond j hj]
  refine ⟨⟨hnn', ?_, ?_⟩, hbeyond n' hnn', ?_⟩
  · rw [hbeyond n' hnn']
    exact hn'.ends
  · intro j hj hlt
    rw [hbeyond j hj]
    exact hn'.before j hj hlt
  · refine ⟨by omega, hle, Function.update_self .., rfl, hn'.ends, ?_, ?_⟩
    · intro j hj
      rw [moveNull, Function.update_of_ne (Nat.ne_of_gt hj), hbeyond j (by omega)]
    · intro j hj hlt
      rw [moveNull, Function.update_of_ne (Nat.ne_of_lt hlt)]
      rcases Nat.lt_trichotomy j n with hjn | rfl | hnj
      · rw [Function.update_of_ne (Nat.ne_of_lt hjn)]
        exact h.text j hj hjn
      · exact Or.inl (Function.update_self ..)
      · rw [hbeyond j hnj]
        exact Or.inr ⟨rfl, hn'.before j hnj hlt⟩

/-- Lines are joined until the brackets are closed or the file ends. -/
theorem joinStatement_spec {k : ℕ} (hzero : file len = 0)
    (h : Terminated file len line m n saved) (hk : len < n + k) :
    joinStatement len line k m n saved = .ok none ∨
      ∃ m' n' saved', joinStatement len line k m n saved = .ok (some (m', n', saved')) ∧
        Terminated file len line m' n' saved' ∧ n ≤ n' := by
  induction k generalizing m n saved with
  | zero =>
    have hin := h.inside
    omega
  | succ k ih =>
    unfold joinStatement
    rw [h.cString, except_ok_bind]
    by_cases hneeds : statementNeedsMoreLines (slice m line n) = true
    · rw [if_pos hneeds]
      by_cases hsaved : saved = 0
      · rw [if_pos hsaved]
        exact Or.inl rfl
      obtain ⟨n', hn', hle⟩ := exists_nextEnd hzero (h.lt hzero hsaved)
      obtain ⟨hends, hread, hnext⟩ := h.next hn' hle
      have hnn' := hn'.le
      rw [if_neg hsaved, writeAt_nat h.inside, except_ok_bind, getNewline_eq hends hle,
        except_ok_bind, readAt_nat hle, except_ok_bind, writeAt_nat hle, except_ok_bind, hread]
      rcases ih hnext (by omega) with hnone | ⟨m', n'', saved', heq, hterm, hle'⟩
      · exact Or.inl hnone
      · exact Or.inr ⟨m', n'', saved', heq, hterm, by omega⟩
    · rw [if_neg hneeds]
      exact Or.inr ⟨m, n, saved, rfl, h, Nat.le_refl n⟩

end

/-! ### The head of the loop -/

theorem skipLeading_le (m : Memory) (k p : ℕ) : p ≤ skipLeading m k p ∧ skipLeading m k p ≤ p + k := by
  induction k generalizing p with
  | zero => exact ⟨Nat.le_refl p, Nat.le_refl p⟩
  | succ k ih =>
    unfold skipLeading
    split
    · obtain ⟨hle, hlt⟩ := ih (p + 1)
      omega
    · omega

theorem skipLeading_isspace (m : Memory) {k p j : ℕ} (hp : p ≤ j) (hj : j < skipLeading m k p) :
    isspace (m j) = true := by
  induction k generalizing p with
  | zero => exact absurd hj (Nat.not_lt.2 hp)
  | succ k ih =>
    unfold skipLeading at hj
    split at hj
    · next hspace =>
      rcases Nat.eq_or_lt_of_le hp with rfl | hlt
      · exact hspace
      · exact ih hlt hj
    · exact absurd hj (Nat.not_lt.2 hp)

theorem skipLeading_congr {m m' : Memory} {k p : ℕ} (h : ∀ j, p ≤ j → m j = m' j) :
    skipLeading m k p = skipLeading m' k p := by
  induction k generalizing p with
  | zero => rfl
  | succ k ih =>
    rw [skipLeading, skipLeading, h p (Nat.le_refl p), ih fun j hj => h j (Nat.le_of_succ_le hj)]

/-- The loop is at `p`: the file is in memory from there on, and a line has ended in front of it. -/
structure AtHead (file : Memory) (len : ℕ) (m : Memory) (p : ℕ) : Prop where
  start : p = 0 ∨ 2 ≤ p
  inside : p ≤ len + 1
  same : ∀ j, p ≤ j → m j = file j
  ends : 0 < p → endsLine (m (p - 1)) = true

/-- The statement that starts at the first byte that is no white space. -/
def nextLine (b : Buf) (p : ℕ) : ℕ := skipLeading b.s (b.len - p) p

/-- The next statement does not end at the first two bytes of the file, a backslash in front of the
second one excepted, and no mark is at the end of the last line of the file. -/
def StaysInside (b : Buf) (p : ℕ) : Prop :=
  nextLine b p < b.len →
    (∀ n, FirstEnd b.s (nextLine b p) n → 2 ≤ n ∨ n = 1 ∧ b.s 0 = byte '\\') ∧
      MarksInside b.s b.len (nextLine b p)

/-- What is found lies in the file behind `p`: the text is that of the file with blanks for marks and
for line ends. -/
def SplitWithin (b : Buf) (p : ℕ) : Split → Prop
  | .line m line stop next =>
    p ≤ line ∧ line ≤ stop ∧ stop < next ∧ next ≤ b.len + 1 ∧
      ∀ j, line ≤ j → j < stop → m j = b.s j ∨ m j = byte ' '
  | _ => True

theorem isspace_ne_backslash {c : Byte} (h : isspace c = true) : c ≠ byte '\\' := by
  rintro rfl
  exact absurd h (by decide)

theorem endsLine_ne_backslash {c : Byte} (h : endsLine c = true) : c ≠ byte '\\' := by
  rintro rfl
  exact absurd h (by decide)

theorem AtHead.quiet {file m : Memory} {len p line : ℕ} (h : AtHead file len m p) (hp : p ≤ line)
    (hspace : ∀ j, p ≤ j → j < line → isspace (m j) = true) : Quiet m line := by
  constructor
  · intro hpos
    rcases Nat.eq_or_lt_of_le hp with rfl | hlt
    · exact endsLine_ne_backslash (h.ends hpos)
    · exact isspace_ne_backslash (hspace _ (by omega) (by omega))
  · intro hpos hcr
    rcases Nat.eq_or_lt_of_le hp with rfl | hlt
    · have hends := h.ends (by omega)
      rw [hcr] at hends
      exact absurd hends (by decide)
    · rcases Nat.eq_or_lt_of_le (Nat.succ_le_of_lt hlt) with heq | hlt'
      · have hsub : line - 2 = p - 1 := by omega
        rw [hsub]
        exact endsLine_ne_backslash (h.ends (by omega))
      · exact isspace_ne_backslash (hspace _ (by omega) (by omega))

/-! ### The next statement -/

theorem trimEnd_spec {len : ℕ} (m : Memory) {line n : ℕ} (hle : line ≤ n) (hn : n ≤ len) :
    ∃ stop, trimEnd len m line n = .ok stop ∧ line ≤ stop ∧ stop ≤ n := by
  induction n with
  | zero => exact ⟨0, rfl, hle, Nat.le_refl 0⟩
  | succ n ih =>
    unfold trimEnd
    by_cases hlt : line < n + 1
    · rw [if_pos hlt, readAt_nat (by omega), except_ok_bind]
      by_cases hspace : isspace (m n) = true
      · obtain ⟨stop, heq, hline, hstop⟩ := ih (by omega) (by omega)
        rw [if_pos hspace]
        exact ⟨stop, heq, hline, by omega⟩
      · rw [if_neg hspace]
        exact ⟨n + 1, rfl, hle, Nat.le_refl _⟩
    · rw [if_neg hlt]
      exact ⟨n + 1, rfl, hle, Nat.le_refl _⟩

/-- What has been found at the head of the loop, with the state that it leaves. -/
structure SplitFound (b : Buf) (p : ℕ) (split : Split) : Prop where
  within : SplitWithin b p split
  atHead : ∀ m line stop next, split = .line m line stop next → AtHead b.s b.len m next

section

variable {b : Buf} {m : Memory} {p line n : ℕ}

theorem finishLine_spec (hp : p ≤ line) (hpos : 1 ≤ n) (hle : line ≤ n) (hn : n ≤ b.len)
    (hends : endsLine (m n) = true) (hbeyond : ∀ j, n < j → m j = b.s j)
    (htext : ∀ j, line ≤ j → j < n → m j = byte ' ' ∨ m j = b.s j ∧ endsLine (b.s j) = false) :
    ∃ split, finishLine b.len m line n = .ok split ∧ SplitFound b p split := by
  obtain ⟨stop, hstop, hline, hle'⟩ := trimEnd_spec m hle hn
  refine ⟨.line (Function.update m stop 0) line stop (n + 1), ?_, ?_, ?_⟩
  · rw [finishLine, hstop, except_ok_bind, writeAt_nat (by omega), except_ok_bind]
  · refine ⟨hp, hline, by omega, by omega, fun j hj hlt => ?_⟩
    rw [Function.update_of_ne (Nat.ne_of_lt hlt)]
    rcases htext j hj (by omega) with hblank | ⟨hsame, -⟩
    · exact Or.inr hblank
    · exact Or.inl hsame
  · rintro m' line' stop' next' ⟨⟩
    refine ⟨Or.inr (by omega), by omega, fun j hj => ?_, fun _ => ?_⟩
    · rw [Function.update_of_ne (by omega), hbeyond j hj]
    · rw [Nat.add_sub_cancel]
      rcases Nat.eq_or_lt_of_le hle' with rfl | hlt
      · rw [Function.update_self, endsLine_zero]
      · rw [Function.update_of_ne (Nat.ne_of_gt hlt), hends]

theorem Joining.terminated {file : Memory} {len i : ℕ} (h : Joining file len line m i n) :
    Terminated file len line (Function.update m n 0) n (file n) := by
  have hin := h.first.le
  have hle := h.le
  refine ⟨by omega, h.inside, Function.update_self .., rfl, h.first.ends, ?_, ?_⟩
  · intro j hj
    rw [Function.update_of_ne (Nat.ne_of_gt hj), h.same j (by omega)]
  · intro j hj hlt
    rw [Function.update_of_ne (Nat.ne_of_lt hlt)]
    rcases Nat.lt_or_ge j i with hji | hij
    · exact h.text j hj hji
    · exact Or.inr ⟨h.same j hij, h.first.before j hij hlt⟩

theorem splitStatement_spec (hzero : b.s b.len = 0) (hp : p ≤ line) (hpos : 1 ≤ n) {i : ℕ}
    (h : Joining b.s b.len line m i n) :
    ∃ split, splitStatement b.len m line n = .ok split ∧ SplitFound b p split := by
  have hterm := h.terminated
  have hread : readAt b.len m n = .ok (b.s n) := by
    rw [readAt_nat h.inside, h.same n h.first.le]
  unfold splitStatement
  rw [hread, except_ok_bind, writeAt_nat h.inside, except_ok_bind]
  rcases joinStatement_spec (k := b.len + 2) hzero hterm (by omega) with
    hnone | ⟨m', n', saved', heq, hterm', hle⟩
  · rw [hnone]
    refine ⟨.unterminated, rfl, trivial, ?_⟩
    rintro m' line' stop' next' ⟨⟩
  · rw [heq, except_ok_bind]
    have hnull : Function.update m' n' 0 = m' := by
      rw [← hterm'.null, Function.update_eq_self]
    have hends : endsLine (m' n') = true := by rw [hterm'.null, endsLine_zero]
    obtain ⟨split, hsplit, hfound⟩ :=
      finishLine_spec hp (by omega) hterm'.le hterm'.inside hends hterm'.beyond hterm'.text
    refine ⟨split, ?_, hfound⟩
    change (writeAt b.len m' n' 0 >>= _) = _
    rw [writeAt_nat hterm'.inside, except_ok_bind, hnull, hsplit]

/-- The physical line that the head of the loop finds. -/
theorem AtHead.joining (hzero : b.s b.len = 0) (h : AtHead b.s b.len m p)
    (hline : nextLine b p < b.len) :
    ∃ n, FirstEnd m (nextLine b p) n ∧ n ≤ b.len ∧
      Joining b.s b.len (nextLine b p) m (nextLine b p) n := by
  obtain ⟨n, hn, hle⟩ : ∃ n, FirstEnd b.s (nextLine b p) n ∧ n ≤ b.len :=
    exists_firstEnd (Nat.le_of_lt hline) (by rw [hzero, endsLine_zero])
  have hpl : p ≤ nextLine b p := (skipLeading_le b.s (b.len - p) p).1
  have hsame : ∀ j, nextLine b p ≤ j → m j = b.s j := fun j hj => h.same j (by omega)
  have hspace : ∀ j, p ≤ j → j < nextLine b p → isspace (m j) = true := by
    intro j hj hlt
    rw [h.same j hj]
    exact skipLeading_isspace b.s hj hlt
  refine ⟨n, ⟨hn.le, ?_, ?_⟩, hle, Nat.le_refl _, hn, hle, hsame, ?_, h.quiet hpl hspace⟩
  · rw [hsame n hn.le]
    exact hn.ends
  · intro j hj hlt
    rw [hsame j hj]
    exact hn.before j hj hlt
  · intro j hj hlt
    exact absurd hlt (Nat.not_lt.2 hj)

/-- The part of `splitLine` behind the loop over marked lines. -/
theorem splitJoined_spec (hzero : b.s b.len = 0) (hp : p ≤ line) (hpos : 1 ≤ n) {i : ℕ}
    (h : Joining b.s b.len line m i n) :
    ∃ split, (startsAnyAt b.len m line multiLineStarts >>= fun multi =>
        if multi then splitStatement b.len m line n else finishLine b.len m line n) = .ok split ∧
      SplitFound b p split := by
  have hle := h.le
  have hin := h.first.le
  have hends : endsLine (m n) = true := by
    rw [h.same n hin]
    exact h.first.ends
  rw [startsAnyAt_eq h.inside (by omega) (not_mem_multiLineStarts hends), except_ok_bind]
  split
  · exact splitStatement_spec hzero hp hpos h
  · apply finishLine_spec hp hpos (by omega) h.inside hends
    · intro j hj
      exact h.same j (by omega)
    · intro j hj hlt
      rcases Nat.lt_or_ge j i with hji | hij
      · exact h.text j hj hji
      · exact Or.inr ⟨h.same j hij, h.first.before j hij hlt⟩

theorem splitLine_eq (h : AtHead b.s b.len m p) (hline : nextLine b p < b.len)
    (hn : FirstEnd m (nextLine b p) n) (hle : n ≤ b.len) :
    splitLine b.len m p =
      joinContinued b.len (nextLine b p) (b.len + 2) m n >>= fun r =>
        startsAnyAt b.len r.1 (nextLine b p) multiLineStarts >>= fun multi =>
          if multi then splitStatement b.len r.1 (nextLine b p) r.2
          else finishLine b.len r.1 (nextLine b p) r.2 := by
  have hskip : skipLeading m (b.len - p) p = nextLine b p := skipLeading_congr fun j hj => h.same j hj
  rw [splitLine, hskip]
  simp only [Nat.ne_of_lt hline, if_false]
  rw [getNewline_eq hn hle, except_ok_bind]

/-- A line end at the first two bytes is found in the file as it was read. -/
theorem AtHead.first_iff (h : AtHead b.s b.len m p) (hn : FirstEnd m (nextLine b p) n) :
    (2 ≤ n ∨ n = 1 ∧ m 0 = byte '\\') ↔ 2 ≤ n ∨ n = 1 ∧ b.s 0 = byte '\\' := by
  have hpl : p ≤ nextLine b p := (skipLeading_le b.s (b.len - p) p).1
  have hle := hn.le
  rcases h.start with rfl | hp
  · rw [h.same 0 (Nat.le_refl 0)]
  · constructor
    · exact fun _ => Or.inl (by omega)
    · exact fun _ => Or.inl (by omega)

/-- At the head of the loop, the next statement is found where it stays inside. -/
theorem splitLine_spec (hzero : b.s b.len = 0) (h : AtHead b.s b.len m p) (hp : p < b.len)
    (hin : StaysInside b p) : ∃ split, splitLine b.len m p = .ok split ∧ SplitFound b p split := by
  obtain ⟨hpl, hll⟩ : p ≤ nextLine b p ∧ nextLine b p ≤ p + (b.len - p) :=
    skipLeading_le b.s (b.len - p) p
  have hll : nextLine b p ≤ b.len := by omega
  rcases Nat.eq_or_lt_of_le hll with hdone | hline
  · have hskip : skipLeading m (b.len - p) p = nextLine b p :=
      skipLeading_congr fun j hj => h.same j hj
    refine ⟨.done, ?_, trivial, ?_⟩
    · rw [splitLine, hskip, hdone]
      simp only [if_true]
    · rintro m' line' stop' next' ⟨⟩
  · obtain ⟨hfirst, hmarks⟩ := hin hline
    obtain ⟨n, hn, hle, hjoin⟩ := h.joining hzero hline
    have hfirst' := (h.first_iff hn).2 (hfirst n hjoin.first)
    obtain ⟨m', i', n', heq, hjoin', -, -, hnn'⟩ :=
      joinContinued_spec (k := b.len + 2) hzero hjoin (by omega) hfirst' hmarks
    have hpos : 1 ≤ n' := by
      rcases hfirst' with htwo | ⟨hone, -⟩
      · omega
      · omega
    obtain ⟨split, hsplit, hfound⟩ := splitJoined_spec hzero hpl hpos hjoin'
    refine ⟨split, ?_, hfound⟩
    rw [splitLine_eq h hline hn hle, heq]
    exact hsplit

/-- The loop over marked lines looks in front of the buffer for a line end at its first bytes. -/
theorem first_of_joinContinued {len k : ℕ} {r : Memory × ℕ}
    (hr : joinContinued len line k m n = .ok r) : 2 ≤ n ∨ n = 1 ∧ m 0 = byte '\\' := by
  cases k with
  | zero => cases hr
  | succ k =>
    by_contra hnot
    rw [not_or, not_and] at hnot
    obtain ⟨hlt, hslash⟩ := hnot
    have hfault : lineContinues len m n = .error .outOfBounds := by
      unfold lineContinues
      rcases Nat.eq_zero_or_pos n with rfl | hpos
      · have hout : ¬((0 : ℤ) ≤ ((0 : ℕ) : ℤ) - 1 ∧ ((0 : ℕ) : ℤ) - 1 ≤ len) := by omega
        rw [readAt, if_neg hout]
        rfl
      · obtain rfl : n = 1 := by omega
        have hout : ¬((0 : ℤ) ≤ ((1 : ℕ) : ℤ) - 2 ∧ ((1 : ℕ) : ℤ) - 2 ≤ len) := by omega
        have hone : readAt len m (((1 : ℕ) : ℤ) - 1) = .ok (m 0) :=
          readAt_of_eq (by omega) (Nat.zero_le len)
        rw [hone, except_ok_bind, if_neg (hslash rfl), readAt, if_neg hout]
        rfl
    unfold joinContinued at hr
    rw [hfault] at hr
    cases hr

theorem staysInside_of_splitLine (hzero : b.s b.len = 0) (h : AtHead b.s b.len m p) {split : Split}
    (hsplit : splitLine b.len m p = .ok split) : StaysInside b p := by
  intro hline
  obtain ⟨n, hn, hle, hjoin⟩ := h.joining hzero hline
  rw [splitLine_eq h hline hn hle] at hsplit
  cases hr : joinContinued b.len (nextLine b p) (b.len + 2) m n with
  | error e =>
    rw [hr] at hsplit
    cases hsplit
  | ok r =>
    have hfirst := first_of_joinContinued hr
    refine ⟨fun n' hn' => ?_, marksInside_of_joinContinued hzero hjoin hfirst hr⟩
    obtain rfl := hjoin.first.unique hn'
    exact (h.first_iff hn).1 hfirst

end

/-! ### Blocks -/

section

variable {b : Buf} {m : Memory} {p n : ℕ}

/-- The state behind a line of a block. -/
theorem AtHead.step (h : AtHead b.s b.len m p) (hp : 2 ≤ p) (hn : FirstEnd m p n) (hle : n ≤ b.len) :
    AtHead b.s b.len m (n + 1) := by
  have hpn := hn.le
  refine ⟨Or.inr (by omega), by omega, fun j hj => h.same j (by omega), fun _ => ?_⟩
  rw [Nat.add_sub_cancel]
  exact hn.ends

theorem AtHead.terminated (h : AtHead b.s b.len m p) (hn : FirstEnd m p n) (hle : n ≤ b.len) :
    Terminated b.s b.len p (Function.update m n 0) n (m n) := by
  refine ⟨hn.le, hle, Function.update_self .., h.same n hn.le, ?_, ?_, ?_⟩
  · rw [← h.same n hn.le]
    exact hn.ends
  · intro j hj
    have hpn := hn.le
    rw [Function.update_of_ne (Nat.ne_of_gt hj), h.same j (by omega)]
  · intro j hj hlt
    rw [Function.update_of_ne (Nat.ne_of_lt hlt), h.same j hj]
    refine Or.inr ⟨rfl, ?_⟩
    rw [← h.same j hj]
    exact hn.before j hj hlt

theorem Terminated.atHead {line : ℕ} {saved : Byte} (h : Terminated b.s b.len line m n saved)
    (hpos : 1 ≤ n) : AtHead b.s b.len (Function.update m n saved) (n + 1) := by
  have hin := h.inside
  refine ⟨Or.inr (by omega), by omega, fun j hj => ?_, fun _ => ?_⟩
  · rw [Function.update_of_ne (by omega), h.beyond j hj]
  · rw [Nat.add_sub_cancel, Function.update_self, h.saved]
    exact h.ends

/-- The end of the file has been found, or the end of the block: the loop goes on behind it. -/
def Skipped (b : Buf) (p : ℕ) (r : Except Fault (Option (Memory × ℕ × ℕ))) : Prop :=
  r = .ok none ∨ ∃ m close next, r = .ok (some (m, close, next)) ∧
    AtHead b.s b.len m next ∧ p ≤ close ∧ close < next

theorem Skipped.mono {p' : ℕ} (hle : p ≤ p') {r : Except Fault (Option (Memory × ℕ × ℕ))}
    (h : Skipped b p' r) : Skipped b p r := by
  rcases h with hnone | ⟨m, close, next, heq, hhead, hclose, hnext⟩
  · exact Or.inl hnone
  · exact Or.inr ⟨m, close, next, heq, hhead, Nat.le_trans hle hclose, hnext⟩

/-- A block is skipped inside of the buffer. -/
theorem skipCurlyBlock_spec (hzero : b.s b.len = 0) {k depth : ℕ} (h : AtHead b.s b.len m p)
    (hp : 2 ≤ p) (hk : b.len + 1 < p + k) : Skipped b p (skipCurlyBlock b.len k m p depth) := by
  induction k generalizing m p depth with
  | zero =>
    have hin := h.inside
    omega
  | succ k ih =>
    unfold skipCurlyBlock
    by_cases hend : b.len ≤ p
    · rw [if_pos hend]
      exact Or.inl rfl
    have hnull : endsLine (m b.len) = true := by
      rw [h.same b.len (by omega), hzero, endsLine_zero]
    obtain ⟨n, hn, hle⟩ : ∃ n, FirstEnd m p n ∧ n ≤ b.len := exists_firstEnd (by omega) hnull
    have hpn := hn.le
    have hstep := h.step hp hn hle
    -- the lines behind this one
    have hrest : ∀ d, Skipped b p (skipCurlyBlock b.len k m (n + 1) d) := fun d =>
      (ih hstep (by omega) (by omega)).mono (by omega)
    rw [if_neg hend, getNewline_eq hn hle, except_ok_bind]
    dsimp only
    split
    · have hterm := h.terminated hn hle
      rw [readAt_nat hle, except_ok_bind, writeAt_nat hle, except_ok_bind]
      rcases joinStatement_spec (k := b.len + 2) hzero hterm (by omega) with
        hnone | ⟨m', n', saved', heq, hterm', hnn'⟩
      · rw [hnone]
        exact Or.inl rfl
      · rw [heq, except_ok_bind]
        change Skipped b p (writeAt b.len m' n' saved' >>= _)
        rw [writeAt_nat hterm'.inside, except_ok_bind]
        exact (ih (hterm'.atHead (by omega)) (by omega) (by omega)).mono (by omega)
    split
    · exact hrest _
    split
    · exact Or.inr ⟨m, p, n + 1, rfl, hstep, Nat.le_refl p, by omega⟩
    split
    · exact hrest _
    · exact hrest _

end

/-! ### Runs -/

/-- The states of the buffer at the head of the loop of `parse_tupfile`. What is done with a statement
may write to its text, and a block may be skipped behind it. -/
inductive LoopHead (b : Buf) : Memory → ℕ → Prop
  | start : LoopHead b b.s 0
  | next {m m' m'' : Memory} {p line stop next : ℕ} (h : LoopHead b m p) (hp : p < b.len)
      (hsplit : splitLine b.len m p = .ok (.line m' line stop next))
      (hrun : ∀ j, j < line ∨ stop ≤ j → m'' j = m' j) : LoopHead b m'' next
  | block {m m' m'' : Memory} {p line stop next close next' : ℕ} (h : LoopHead b m p)
      (hp : p < b.len) (hsplit : splitLine b.len m p = .ok (.line m' line stop next))
      (hblock : blockStarts.any (fun lit => lit.isPrefixOf (slice m' line stop)) = true)
      (hskip : skipCurlyBlock b.len (b.len + 1) m' next 1 = .ok (some (m'', close, next'))) :
      LoopHead b m'' next'

theorem LoopHead.atHead {b : Buf} (hzero : b.s b.len = 0) {m : Memory} {p : ℕ}
    (h : LoopHead b m p) : AtHead b.s b.len m p := by
  induction h with
  | start => exact ⟨Or.inl rfl, Nat.zero_le _, fun _ _ => rfl, fun hpos => absurd hpos (Nat.lt_irrefl 0)⟩
  | @next m m' m'' p line stop next _ hp hsplit hrun ih =>
    obtain ⟨split, heq, hfound⟩ := splitLine_spec hzero ih hp (staysInside_of_splitLine hzero ih hsplit)
    rw [hsplit] at heq
    cases heq
    have hhead := hfound.atHead _ _ _ _ rfl
    obtain ⟨-, -, hstop, -, -⟩ := hfound.within
    refine ⟨hhead.start, hhead.inside, fun j hj => ?_, fun hpos => ?_⟩
    · rw [hrun j (Or.inr (by omega)), hhead.same j hj]
    · rw [hrun _ (Or.inr (by omega)), hhead.ends hpos]
  | @block m m' m'' p line stop next close next' _ hp hsplit _ hskip ih =>
    obtain ⟨split, heq, hfound⟩ := splitLine_spec hzero ih hp (staysInside_of_splitLine hzero ih hsplit)
    rw [hsplit] at heq
    cases heq
    have hhead := hfound.atHead _ _ _ _ rfl
    obtain ⟨-, -, hstop, -, -⟩ := hfound.within
    have htwo : 2 ≤ next := hhead.start.resolve_left (by omega)
    have hskipped : Skipped b next (.ok (some (m'', close, next'))) :=
      hskip ▸ skipCurlyBlock_spec hzero hhead htwo (by omega)
    rcases hskipped with hnone | ⟨m₁, close', next₁, heq, hhead', -⟩
    · cases hnone
    · cases heq
      exact hhead'

theorem fslurpNull_zero {file : Bytes} {b : Buf} (h : fslurpNull file = some b) :
    b.s b.len = 0 := by
  obtain ⟨s, -, rfl⟩ := Option.map_eq_some_iff.1 h
  change s.getD s.length 0 = 0
  rw [List.getD_eq_getElem?_getD, List.getElem?_eq_none (Nat.le_refl _)]
  rfl

/-- In every run, the next statement is always found inside of the buffer if and only if each place
that the run gets to is one that stays inside. -/
theorem splitLine_within_iff {file : Bytes} {b : Buf} (hfile : fslurpNull file = some b) :
    (∀ m p, LoopHead b m p → p < b.len → ∃ split, splitLine b.len m p = .ok split ∧ SplitWithin b p split) ↔
      ∀ m p, LoopHead b m p → p < b.len → StaysInside b p := by
  have hzero := fslurpNull_zero hfile
  constructor
  · intro h m p hhead hp
    obtain ⟨split, hsplit, -⟩ := h m p hhead hp
    exact staysInside_of_splitLine hzero (hhead.atHead hzero) hsplit
  · intro h m p hhead hp
    obtain ⟨split, hsplit, hfound⟩ := splitLine_spec hzero (hhead.atHead hzero) hp (h m p hhead hp)
    exact ⟨split, hsplit, hfound.within⟩

/-- A file of two bytes and a line end. -/
theorem splitLine_within_twoBytes :
    (∀ m p, LoopHead ⟨fun i => (bytes "ab\n").getD i 0, 3⟩ m p → p < 3 →
      ∃ split, splitLine 3 m p = .ok split ∧
        SplitWithin ⟨fun i => (bytes "ab\n").getD i 0, 3⟩ p split) ↔
      ∀ m p, LoopHead ⟨fun i => (bytes "ab\n").getD i 0, 3⟩ m p → p < 3 →
        StaysInside ⟨fun i => (bytes "ab\n").getD i 0, 3⟩ p :=
  @splitLine_within_iff (bytes "ab\n") ⟨fun i => (bytes "ab\n").getD i 0, 3⟩ rfl

/-- A first line of one byte, and a last line that ends with a backslash. -/
theorem splitLine_outOfBounds :
    fslurpNull (bytes "a\n") = some ⟨fun i => (bytes "a\n").getD i 0, 2⟩ ∧
      LoopHead ⟨fun i => (bytes "a\n").getD i 0, 2⟩ (fun i => (bytes "a\n").getD i 0) 0 ∧
      splitLine 2 (fun i => (bytes "a\n").getD i 0) 0 = .error .outOfBounds ∧
      fslurpNull (bytes "ab\\") = some ⟨fun i => (bytes "ab\\").getD i 0, 3⟩ ∧
      LoopHead ⟨fun i => (bytes "ab\\").getD i 0, 3⟩ (fun i => (bytes "ab\\").getD i 0) 0 ∧
      splitLine 3 (fun i => (bytes "ab\\").getD i 0) 0 = .error .outOfBounds :=
  ⟨rfl, .start, rfl, rfl, .start, rfl⟩

end Metatup
