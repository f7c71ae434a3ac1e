import Mathlib.Data.List.DropRight
import Metatup.Lib.DryRun
import Metatup.Parser.FunctionScan

/-!
# The functions that are skipped are those that are registered

`scan_tupfile_functions` looks at every physical line outside of a block. `parse_tupfile` joins the lines
of a statement, and leaves out the part of a condition that does not hold.

* `ScansTo`: what the scan finds in the file as it was read.
* `Plain`: the statements in which both find the same.
* `functions_agree_iff`: the parse skips the blocks that were registered exactly when it reads no
  other statement.
-/

namespace Metatup

/-! ### Texts -/

theorem slice_snoc (m : Memory) {i n : ℕ} (h : i ≤ n) : slice m i (n + 1) = slice m i n ++ [m n] := by
  unfold slice
  rw [Nat.succ_sub h, List.range'_1_concat, List.map_append]
  congr 1
  simp only [List.map_cons, List.map_nil]
  congr 2
  omega

/-- Trimming leaves the text without the blanks at its end. -/
theorem trimEnd_slice {len : ℕ} {m : Memory} {line n stop : ℕ} (hle : line ≤ n) (hn : n ≤ len)
    (h : trimEnd len m line n = .ok stop) : slice m line stop = (slice m line n).rdropWhile isspace := by
  induction n with
  | zero =>
    cases h
    obtain rfl : line = 0 := by omega
    rw [slice_self]
    rfl
  | succ n ih =>
    unfold trimEnd at h
    by_cases hlt : line < n + 1
    · rw [if_pos hlt, readAt_nat (by omega), except_ok_bind] at h
      rw [slice_snoc m (by omega)]
      by_cases hspace : isspace (m n) = true
      · rw [if_pos hspace] at h
        rw [List.rdropWhile_concat_pos _ _ _ hspace]
        exact ih (by omega) (by omega) h
      · rw [if_neg hspace] at h
        cases h
        rw [List.rdropWhile_concat_neg _ _ _ hspace, slice_snoc m (by omega)]
    · rw [if_neg hlt] at h
      cases h
      obtain rfl : line = n + 1 := by omega
      rw [slice_self]
      rfl

/-- The end of a line is trimmed and the loop goes on behind it. -/
theorem finishLine_eq {len : ℕ} {m : Memory} {line n : ℕ} (hle : line ≤ n) (hn : n ≤ len) :
    ∃ stop, finishLine len m line n = .ok (.line (Function.update m stop 0) line stop (n + 1)) ∧
      line ≤ stop ∧ stop ≤ n ∧
      slice (Function.update m stop 0) line stop = (slice m line n).rdropWhile isspace := by
  obtain ⟨stop, hstop, hline, hle'⟩ := trimEnd_spec m hle hn
  refine ⟨stop, ?_, hline, hle', ?_⟩
  · rw [finishLine, hstop, except_ok_bind, writeAt_nat (by omega), except_ok_bind]
  · rw [← trimEnd_slice hle hn hstop]
    apply slice_congr
    intro j _ hj
    exact Function.update_of_ne (Nat.ne_of_lt hj) ..

/-! ### What the scan finds -/

/-- The physical line from `h` on, without the blanks at its end. -/
def physicalText (b : Buf) (h : ℕ) : Bytes :=
  match getNewline b.len b.s h with
  | .ok n => (slice b.s h n).rdropWhile isspace
  | .error _ => []

theorem physicalText_eq {b : Buf} {h n : ℕ} (hn : FirstEnd b.s h n) (hle : n ≤ b.len) :
    physicalText b h = (slice b.s h n).rdropWhile isspace := by
  unfold physicalText
  rw [getNewline_eq hn hle]

/-- A physical line that looks like the header of a function. -/
def HeaderAt (b : Buf) (h : ℕ) : Prop := functionStart.isPrefixOf (physicalText b h) = true

/-- The blocks that the scan finds in the file from `p` on. -/
inductive ScansTo (b : Buf) : ℕ → List FunctionBlock → Prop
  | done {p} : b.len ≤ nextLine b p → ScansTo b p []
  | line {p n blocks} : nextLine b p < b.len → FirstEnd b.s (nextLine b p) n →
      ¬ HeaderAt b (nextLine b p) → ScansTo b (n + 1) blocks → ScansTo b p blocks
  | block {p n m close next blocks} : nextLine b p < b.len → FirstEnd b.s (nextLine b p) n →
      HeaderAt b (nextLine b p) →
      skipCurlyBlock b.len (b.len + 1) b.s (n + 1) 1 = .ok (some (m, close, next)) →
      ScansTo b next blocks → ScansTo b p
        (⟨nextLine b p, physicalText b (nextLine b p), n + 1, slice m (n + 1) close⟩ :: blocks)

/-! ### Blocks in two memories -/

/-- The memories are the same from `p` on. -/
def SameFrom (p : ℕ) (m m' : Memory) : Prop := ∀ j, p ≤ j → m j = m' j

/-- The two outcomes are the same but for what is in memory in front of `p`. -/
def SameOutcome {α : Type} (p : ℕ) :
    Except Fault (Option (Memory × α)) → Except Fault (Option (Memory × α)) → Prop
  | .ok none, .ok none => True
  | .ok (some (m, x)), .ok (some (m', x')) => SameFrom p m m' ∧ x = x'
  | .error e, .error e' => e = e'
  | _, _ => False

section

variable {len p : ℕ} {m m' : Memory}

theorem SameFrom.mono {q : ℕ} (h : SameFrom p m m') (hle : p ≤ q) : SameFrom q m m' :=
  fun j hj => h j (Nat.le_trans hle hj)

theorem getNewline_same (h : SameFrom p m m') {q : ℕ} (hq : p ≤ q) :
    getNewline len m q = getNewline len m' q := by
  have hfrom : ∀ k q, p ≤ q → getNewlineFrom m k q = getNewlineFrom m' k q := by
    intro k
    induction k with
    | zero => exact fun _ _ => rfl
    | succ k ih =>
      intro q hq
      rw [getNewlineFrom, getNewlineFrom, h q hq, ih (q + 1) (by omega)]
  exact hfrom _ q hq

theorem le_of_getNewline {q n : ℕ} (h : getNewline len m q = .ok n) : q ≤ n := by
  have hfrom : ∀ k q, getNewlineFrom m k q = .ok n → q ≤ n := by
    intro k
    induction k with
    | zero =>
      intro q h
      cases h
    | succ k ih =>
      intro q h
      unfold getNewlineFrom at h
      split at h
      · cases h
        exact Nat.le_refl _
      · exact Nat.le_of_succ_le (ih (q + 1) h)
  exact hfrom _ q h

/-- The end of a joined statement is not in front of where the joining began. -/
theorem le_of_joinStatement {line k newline n : ℕ} {saved c : Byte} {m₁ : Memory}
    (h : joinStatement len line k m newline saved = .ok (some (m₁, n, c))) : newline ≤ n := by
  induction k generalizing m newline saved with
  | zero => cases h
  | succ k ih =>
    rw [joinStatement] at h
    obtain ⟨text, -, h⟩ := Lib.bind_eq_ok.1 h
    split at h
    · split at h
      · cases h
      obtain ⟨m₂, -, h⟩ := Lib.bind_eq_ok.1 h
      obtain ⟨next, hnext, h⟩ := Lib.bind_eq_ok.1 h
      obtain ⟨saved', -, h⟩ := Lib.bind_eq_ok.1 h
      obtain ⟨m₃, -, h⟩ := Lib.bind_eq_ok.1 h
      have hlt := le_of_getNewline hnext
      have hle := ih h
      omega
    · cases h
      exact Nat.le_refl _

theorem cStringAt_same (h : SameFrom p m m') {q : ℕ} (hq : p ≤ q) :
    cStringAt len m q = cStringAt len m' q := by
  have hfrom : ∀ k q, p ≤ q → cStringFrom m k q = cStringFrom m' k q := by
    intro k
    induction k with
    | zero => exact fun _ _ => rfl
    | succ k ih =>
      intro q hq
      rw [cStringFrom, cStringFrom, h q hq, ih (q + 1) (by omega)]
  exact hfrom _ q hq

theorem readAt_same (h : SameFrom p m m') {q : ℕ} (hq : p ≤ q) :
    readAt len m q = readAt len m' q := by
  unfold readAt
  rw [Int.toNat_natCast, h q hq]

theorem SameFrom.update (h : SameFrom p m m') (i : ℕ) (c : Byte) :
    SameFrom p (Function.update m i c) (Function.update m' i c) := by
  intro j hj
  by_cases hij : j = i
  · subst hij
    rw [Function.update_self, Function.update_self]
  · rw [Function.update_of_ne hij, Function.update_of_ne hij]
    exact h j hj

/-- Both writes fail, or both succeed. -/
theorem writeAt_same (len : ℕ) (h : SameFrom p m m') (i : ℕ) (c : Byte) :
    writeAt len m i c = .error .outOfBounds ∧ writeAt len m' i c = .error .outOfBounds ∨
      ∃ m₁ m₂, writeAt len m i c = .ok m₁ ∧ writeAt len m' i c = .ok m₂ ∧ SameFrom p m₁ m₂ := by
  unfold writeAt
  rw [Int.toNat_natCast]
  by_cases hin : (0 : ℤ) ≤ i ∧ (i : ℤ) ≤ len
  · rw [if_pos hin, if_pos hin]
    exact Or.inr ⟨_, _, rfl, rfl, h.update i c⟩
  · rw [if_neg hin, if_neg hin]
    exact Or.inl ⟨rfl, rfl⟩

theorem joinStatement_same {line : ℕ} (hline : p ≤ line) {k newline : ℕ} {saved : Byte}
    (hnl : p ≤ newline) (h : SameFrom p m m') :
    SameOutcome p (joinStatement len line k m newline saved)
      (joinStatement len line k m' newline saved) := by
  induction k generalizing m m' newline saved with
  | zero => rfl
  | succ k ih =>
    rw [joinStatement, joinStatement, cStringAt_same h hline]
    cases htext : cStringAt len m' line with
    | error e => rfl
    | ok text =>
    rw [except_ok_bind, except_ok_bind]
    split
    · split
      · trivial
      rcases writeAt_same len h newline (byte ' ') with
        ⟨herr, herr'⟩ | ⟨m₁, m₂, hok, hok', h₁⟩
      · rw [herr, herr']
        rfl
      rw [hok, hok', except_ok_bind, except_ok_bind, getNewline_same h₁ (Nat.le_succ_of_le hnl)]
      cases hnext : getNewline len m₂ (newline + 1) with
      | error e => rfl
      | ok next =>
      have hle : p ≤ next := by
        have hlt := le_of_getNewline hnext
        omega
      rw [except_ok_bind, except_ok_bind, readAt_same h₁ hle]
      cases hread : readAt len m₂ next with
      | error e => rfl
      | ok saved' =>
      rw [except_ok_bind, except_ok_bind]
      rcases writeAt_same len h₁ next 0 with ⟨herr, herr'⟩ | ⟨m₃, m₄, hok, hok', h₂⟩
      · rw [herr, herr']
        rfl
      rw [hok, hok', except_ok_bind, except_ok_bind]
      exact ih hle h₂
    · exact ⟨h, rfl⟩

/-- A block is skipped alike in two memories. -/
theorem skipCurlyBlock_same {k depth q : ℕ} (hq : p ≤ q) (h : SameFrom p m m') :
    SameOutcome p (skipCurlyBlock len k m q depth) (skipCurlyBlock len k m' q depth) := by
  induction k generalizing m m' q depth with
  | zero => rfl
  | succ k ih =>
    unfold skipCurlyBlock
    by_cases hend : len ≤ q
    · rw [if_pos hend, if_pos hend]
      trivial
    rw [if_neg hend, if_neg hend, getNewline_same h hq]
    cases hnl : getNewline len m' q with
    | error e => rfl
    | ok n =>
    have hqn := le_of_getNewline hnl
    have htext : slice m q n = slice m' q n := slice_congr fun j hj _ => h j (by omega)
    have hrest : ∀ d, SameOutcome p (skipCurlyBlock len k m (n + 1) d)
        (skipCurlyBlock len k m' (n + 1) d) := fun d => ih (by omega) h
    rw [except_ok_bind, except_ok_bind, htext]
    dsimp only
    split
    · rw [readAt_same h (by omega)]
      cases hread : readAt len m' n with
      | error e => rfl
      | ok saved =>
      rw [except_ok_bind, except_ok_bind]
      rcases writeAt_same len h n 0 with ⟨herr, herr'⟩ | ⟨m₁, m₂, hok, hok', h₁⟩
      · rw [herr, herr']
        rfl
      rw [hok, hok', except_ok_bind, except_ok_bind]
      have hjoin : SameOutcome p (joinStatement len q (len + 2) m₁ n saved)
          (joinStatement len q (len + 2) m₂ n saved) := joinStatement_same hq (by omega) h₁
      have hnext : ∀ m₄ n' c, joinStatement len q (len + 2) m₂ n saved = .ok (some (m₄, n', c)) →
          n ≤ n' := fun _ _ _ => le_of_joinStatement
      generalize joinStatement len q (len + 2) m₁ n saved = r at hjoin
      generalize joinStatement len q (len + 2) m₂ n saved = r' at hjoin hnext
      rcases r with e | (_ | ⟨m₃, n', saved'⟩) <;> rcases r' with e' | (_ | ⟨m₄, n'', saved''⟩)
      case error.error => exact hjoin
      case ok.none.ok.none => trivial
      case ok.some.ok.some =>
        obtain ⟨h₂, heq⟩ := hjoin
        cases heq
        rw [except_ok_bind, except_ok_bind]
        dsimp only
        rcases writeAt_same len h₂ n' saved' with ⟨herr, herr'⟩ | ⟨m₅, m₆, hok, hok', h₃⟩
        · rw [herr, herr']
          rfl
        rw [hok, hok', except_ok_bind, except_ok_bind]
        apply ih _ h₃
        have hle := hnext _ _ _ rfl
        omega
      all_goals exact False.elim hjoin
    split
    · exact hrest _
    split
    · exact ⟨h, rfl⟩
    split
    · exact hrest _
    · exact hrest _

end

/-! ### The statement that the parse reads -/

theorem lines_le {m : Memory} {i j : ℕ} (h : Lines m i j) : i ≤ j := by
  induction h with
  | refl => exact Nat.le_refl i
  | tail _ hstep ih =>
    obtain ⟨n, hn, -, rfl⟩ := hstep
    have hle := hn.le
    omega

/-- Without a line end in between, no line has been joined. -/
theorem lines_eq {m : Memory} {i j n : ℕ} (h : Lines m i j) (hn : FirstEnd m i n) (hjn : j ≤ n) :
    j = i := by
  rcases Relation.ReflTransGen.cases_head h with heq | ⟨i', ⟨n', hn', -, rfl⟩, hrest⟩
  · exact heq.symm
  · obtain rfl := hn.unique hn'
    have hle := lines_le hrest
    omega

/-- A statement that ends where the joining began is left as it was. -/
theorem eq_of_joinStatement {len line k n : ℕ} {saved c : Byte} {m m₁ : Memory}
    (h : joinStatement len line k m n saved = .ok (some (m₁, n, c))) : m₁ = m := by
  cases k with
  | zero => cases h
  | succ k =>
    rw [joinStatement] at h
    obtain ⟨text, -, h⟩ := Lib.bind_eq_ok.1 h
    split at h
    · split at h
      · cases h
      obtain ⟨m₂, -, h⟩ := Lib.bind_eq_ok.1 h
      obtain ⟨next, hnext, h⟩ := Lib.bind_eq_ok.1 h
      obtain ⟨saved', -, h⟩ := Lib.bind_eq_ok.1 h
      obtain ⟨m₃, -, h⟩ := Lib.bind_eq_ok.1 h
      have hlt := le_of_getNewline hnext
      have hle := le_of_joinStatement h
      omega
    · cases h
      rfl

/-- What is known of a statement that has been found: it ends with a line end of the file, and when it
is one physical line, its text is that line. -/
structure Statement (b : Buf) (p : ℕ) (m' : Memory) (line stop next : ℕ) : Prop where
  line_eq : line = nextLine b p
  line_lt : line < b.len
  lt_next : line < next
  next_le : next ≤ b.len + 1
  ends : endsLine (b.s (next - 1)) = true
  text : ∀ n, FirstEnd b.s line n → next = n + 1 → slice m' line stop = physicalText b line

section

variable {b : Buf} {m m' : Memory} {p line stop next : ℕ}

/-- The end of a line, with the text of the file in front of it if it is the first. -/
theorem statement_of_finishLine {m₁ : Memory} {n' : ℕ} (hline : nextLine b p < b.len)
    (hle : nextLine b p ≤ n') (hn' : n' ≤ b.len) (hends : endsLine (b.s n') = true)
    (hsame : FirstEnd b.s (nextLine b p) n' → ∀ j, nextLine b p ≤ j → j < n' → m₁ j = b.s j)
    (h : finishLine b.len m₁ (nextLine b p) n' = .ok (.line m' line stop next)) :
    Statement b p m' line stop next := by
  obtain ⟨stop', heq, -, -, htext⟩ := finishLine_eq hle hn'
  rw [heq] at h
  cases h
  refine ⟨rfl, hline, by omega, by omega, ?_, fun n hn hnext => ?_⟩
  · rw [Nat.add_sub_cancel]
    exact hends
  · obtain rfl : n' = n := by omega
    rw [htext, physicalText_eq hn hn', slice_congr (hsame hn)]

theorem statement_of_splitLine (hzero : b.s b.len = 0) (h : AtHead b.s b.len m p) (hp : p < b.len)
    (hsplit : splitLine b.len m p = .ok (.line m' line stop next)) :
    Statement b p m' line stop next := by
  have hline : nextLine b p < b.len := by
    have hle : nextLine b p ≤ p + (b.len - p) := (skipLeading_le b.s (b.len - p) p).2
    refine Nat.lt_of_le_of_ne (by omega) fun heq => ?_
    have hskip : skipLeading m (b.len - p) p = nextLine b p :=
      skipLeading_congr fun j hj => h.same j hj
    rw [splitLine, hskip, heq] at hsplit
    simp at hsplit
  obtain ⟨hfirst, hmarks⟩ := staysInside_of_splitLine hzero h hsplit hline
  obtain ⟨n, hn, hle, hjoin⟩ := h.joining hzero hline
  have hfirst' := (h.first_iff hn).2 (hfirst n hjoin.first)
  obtain ⟨m₁, i₁, n₁, heq, hjoin₁, -, hlines, hnn₁⟩ :=
    joinContinued_spec (k := b.len + 2) hzero hjoin (by omega) hfirst' hmarks
  have hln := hjoin.first.le
  rw [splitLine_eq h hline hn hle, heq, except_ok_bind] at hsplit
  obtain ⟨multi, -, hsplit⟩ := Lib.bind_eq_ok.1 hsplit
  -- when the first line end is found again, nothing has been joined
  have hstay : FirstEnd b.s (nextLine b p) n₁ → ∀ j, nextLine b p ≤ j → m₁ j = b.s j := by
    intro hn₁
    obtain rfl := hjoin.first.unique hn₁
    have hi : i₁ = nextLine b p := lines_eq hlines hjoin.first hjoin₁.first.le
    rw [← hi]
    exact hjoin₁.same
  cases multi with
  | false =>
    refine statement_of_finishLine hline (by omega) hjoin₁.inside hjoin₁.first.ends ?_ hsplit
    exact fun hn₁ j hj _ => hstay hn₁ j hj
  | true =>
    simp only [if_true] at hsplit
    unfold splitStatement at hsplit
    rw [readAt_nat hjoin₁.inside, except_ok_bind, writeAt_nat hjoin₁.inside, except_ok_bind,
      hjoin₁.same n₁ hjoin₁.first.le] at hsplit
    obtain ⟨joined, hjoined, hsplit⟩ := Lib.bind_eq_ok.1 hsplit
    rcases joinStatement_spec (k := b.len + 2) hzero hjoin₁.terminated (by omega) with
      hnone | ⟨m₂, n₂, c, hsome, hterm, hn₁n₂⟩
    · rw [hnone] at hjoined
      cases hjoined
      cases hsplit
    · rw [hsome] at hjoined
      cases hjoined
      dsimp only at hsplit
      rw [writeAt_nat hterm.inside, except_ok_bind] at hsplit
      refine statement_of_finishLine hline hterm.le hterm.inside hterm.ends ?_ hsplit
      intro hn₂ j hj hlt
      obtain rfl := hjoin.first.unique hn₂
      obtain rfl : n = n₁ := by omega
      rw [Function.update_of_ne (Nat.ne_of_lt hlt), eq_of_joinStatement hsome,
        Function.update_of_ne (Nat.ne_of_lt hlt)]
      exact hstay hn₂ j hj

end

/-! ### The scan in the file -/

section

variable {b : Buf} {m : Memory} {p n : ℕ}

/-- A header has at least the nine bytes that it is recognised by. -/
theorem HeaderAt.lt {h : ℕ} (hh : HeaderAt b h) (hn : FirstEnd b.s h n) (hle : n ≤ b.len) :
    h + 9 ≤ n := by
  have hlen := (List.isPrefixOf_iff_prefix.1 hh).length_le
  rw [physicalText_eq hn hle] at hlen
  have htrim := (List.rdropWhile_prefix isspace (slice b.s h n)).length_le
  have hslice : (slice b.s h n).length = n - h := by simp [slice]
  have hnine : functionStart.length = 9 := rfl
  omega

theorem atHead_file (hn : FirstEnd b.s p n) (hle : n ≤ b.len) (hpos : 1 ≤ n) :
    AtHead b.s b.len b.s (n + 1) := by
  refine ⟨Or.inr (by omega), by omega, fun _ _ => rfl, fun _ => ?_⟩
  rw [Nat.add_sub_cancel]
  exact hn.ends

theorem nextLine_le (hp : p ≤ b.len) : nextLine b p ≤ b.len := by
  have hle : nextLine b p ≤ p + (b.len - p) := (skipLeading_le b.s (b.len - p) p).2
  omega

theorem le_nextLine : p ≤ nextLine b p := (skipLeading_le b.s (b.len - p) p).1

/-- The head of the loop of the scan finds the next physical line. -/
theorem scanLine_eq (hzero : b.s b.len = 0) (hsame : SameFrom p m b.s) :
    nextLine b p = b.len ∧ scanLine b.len m p = .ok .done ∨
      nextLine b p ≠ b.len ∧ (p < b.len → ∃ n m' stop, FirstEnd b.s (nextLine b p) n ∧ n ≤ b.len ∧
        scanLine b.len m p = .ok (.line m' (nextLine b p) stop (n + 1)) ∧
        slice m' (nextLine b p) stop = physicalText b (nextLine b p) ∧ SameFrom (n + 1) m' b.s) := by
  have hskip : skipLeading m (b.len - p) p = nextLine b p := skipLeading_congr hsame
  by_cases hdone : nextLine b p = b.len
  · refine Or.inl ⟨hdone, ?_⟩
    rw [scanLine, hskip]
    simp only [hdone, if_true]
  · refine Or.inr ⟨hdone, fun hp => ?_⟩
    have hlt : nextLine b p < b.len := Nat.lt_of_le_of_ne (nextLine_le (Nat.le_of_lt hp)) hdone
    obtain ⟨n, hn, hle⟩ : ∃ n, FirstEnd b.s (nextLine b p) n ∧ n ≤ b.len :=
      exists_firstEnd (Nat.le_of_lt hlt) (by rw [hzero, endsLine_zero])
    have hfrom : SameFrom (nextLine b p) m b.s := hsame.mono le_nextLine
    obtain ⟨stop, heq, -, hstop, htext⟩ := finishLine_eq (m := m) hn.le hle
    refine ⟨n, Function.update m stop 0, stop, hn, hle, ?_, ?_, ?_⟩
    · rw [scanLine, hskip]
      simp only [hdone, if_false]
      rw [getNewline_same hfrom (Nat.le_refl _), getNewline_eq hn hle, except_ok_bind, heq]
    · rw [htext, physicalText_eq hn hle, slice_congr fun j hj _ => hfrom j hj]
    · intro j hj
      have hnl := hn.le
      rw [Function.update_of_ne (by omega)]
      exact hfrom j (by omega)

/-- A block that is skipped in memory is one that is skipped in the file. -/
theorem skipCurlyBlock_file {m' : Memory} {q k close next : ℕ} (hsame : SameFrom q m b.s)
    (h : skipCurlyBlock b.len k m q 1 = .ok (some (m', close, next))) :
    ∃ m₁, skipCurlyBlock b.len k b.s q 1 = .ok (some (m₁, close, next)) ∧ SameFrom q m' m₁ := by
  have hout : SameOutcome q (skipCurlyBlock b.len k m q 1) (skipCurlyBlock b.len k b.s q 1) :=
    skipCurlyBlock_same (Nat.le_refl q) hsame
  rw [h] at hout
  generalize skipCurlyBlock b.len k b.s q 1 = r at hout ⊢
  rcases r with e | (_ | ⟨m₁, close', next'⟩)
  · exact False.elim hout
  · exact False.elim hout
  · obtain ⟨hfrom, heq⟩ := hout
    cases heq
    exact ⟨m₁, rfl, hfrom⟩

/-- Behind a block of the file, the file is as it was read. -/
theorem skipped_file (hzero : b.s b.len = 0) {q k close next : ℕ} (hhead : AtHead b.s b.len b.s q)
    (hq : 2 ≤ q) (hk : b.len + 1 < q + k)
    (h : skipCurlyBlock b.len k b.s q 1 = .ok (some (m, close, next))) :
    SameFrom next m b.s ∧ q ≤ close ∧ close < next ∧ next ≤ b.len + 1 := by
  rcases skipCurlyBlock_spec hzero hhead hq hk with hnone | ⟨m₁, close', next', hsome, hhead', hclose⟩
  · rw [hnone] at h
    cases h
  · rw [hsome] at h
    cases h
    exact ⟨hhead'.same, hclose.1, hclose.2, hhead'.inside⟩

/-- What the scan registers is found in the file. -/
theorem scansTo_of_loop (hzero : b.s b.len = 0) {k : ℕ} {found found' : List FunctionBlock}
    (hsame : SameFrom p m b.s) (h : scanFunctionsLoop b.len k m p found = .ok (some found')) :
    ∃ blocks, found' = found ++ blocks ∧ ScansTo b p blocks := by
  induction k generalizing m p found with
  | zero => cases h
  | succ k ih =>
    rw [scanFunctionsLoop] at h
    split at h
    · next hend =>
      cases h
      exact ⟨[], (List.append_nil _).symm, .done (Nat.le_trans hend le_nextLine)⟩
    next hend =>
    rcases scanLine_eq hzero hsame with ⟨hdone, heq⟩ | ⟨hne, hline⟩
    · rw [heq, except_ok_bind] at h
      cases h
      exact ⟨[], (List.append_nil _).symm, .done (Nat.le_of_eq hdone.symm)⟩
    obtain ⟨n, m', stop, hn, hle, heq, htext, hfrom⟩ := hline (by omega)
    have hlt : nextLine b p < b.len := Nat.lt_of_le_of_ne (nextLine_le (by omega)) hne
    rw [heq, except_ok_bind] at h
    dsimp only at h
    rw [htext] at h
    split at h
    · next hcomment =>
      obtain ⟨blocks, happ, hscans⟩ := ih hfrom h
      refine ⟨blocks, happ, .line hlt hn (fun hh => ?_) hscans⟩
      obtain ⟨rest, hrest⟩ := List.isPrefixOf_iff_prefix.1 hh
      rw [← hrest] at hcomment
      exact absurd (show some (byte 'f') = some (byte '#') from hcomment) (by decide)
    split at h
    · next hheader =>
      obtain ⟨block, hskip, h⟩ := Lib.bind_eq_ok.1 h
      cases block with
      | none => cases h
      | some r =>
        obtain ⟨m₁, close, next⟩ := r
        dsimp only at h
        split at h
        · cases h
        obtain ⟨m₂, hskip₂, hfrom₂⟩ := skipCurlyBlock_file hfrom hskip
        have hnine := HeaderAt.lt hheader hn hle
        obtain ⟨hnext, hclose, hlt', -⟩ :=
          skipped_file hzero (atHead_file hn hle (by omega)) (by omega) (by omega) hskip₂
        have hafter : SameFrom next m₁ b.s := fun j hj =>
          (hfrom₂ j (by omega)).trans (hnext j hj)
        obtain ⟨blocks, happ, hscans⟩ := ih hafter h
        refine ⟨_ :: blocks, ?_, .block hlt hn hheader hskip₂ hscans⟩
        rw [happ, List.append_assoc]
        rw [slice_congr fun j hj _ => hfrom₂ j hj]
        rfl
    · next hheader =>
      obtain ⟨blocks, happ, hscans⟩ := ih hfrom h
      exact ⟨blocks, happ, .line hlt hn hheader hscans⟩

end

/-! ### The lines of a statement -/

/-- From the physical line behind `p` to the next. -/
def PhysicalLine (b : Buf) (p q : ℕ) : Prop :=
  nextLine b p < b.len ∧ ∃ n, FirstEnd b.s (nextLine b p) n ∧ q = n + 1

/-- No physical line of the statement between `p` and `next` looks like a header. -/
def NoHeader (b : Buf) (p next : ℕ) : Prop :=
  ∀ q, Relation.ReflTransGen (PhysicalLine b) p q → nextLine b q < next → ¬ HeaderAt b (nextLine b q)

section

variable {b : Buf} {m : Memory} {p q n next : ℕ} {blocks : List FunctionBlock}

theorem PhysicalLine.lt (h : PhysicalLine b p q) : nextLine b p < q := by
  obtain ⟨-, n, hn, rfl⟩ := h
  exact Nat.lt_succ_of_le hn.le

theorem le_of_walk (h : Relation.ReflTransGen (PhysicalLine b) p q) : p ≤ q := by
  induction h with
  | refl => exact Nat.le_refl _
  | @tail q q' _ hstep ih =>
    have hlt := hstep.lt
    have hle : q ≤ nextLine b q := le_nextLine
    omega

theorem ScansTo.start_ge (hzero : b.s b.len = 0) (h : ScansTo b p blocks) :
    ∀ block ∈ blocks, p ≤ block.start := by
  induction h with
  | done => simp
  | @line p n blocks hlt hn _ _ ih =>
    intro block hblock
    have hle := ih block hblock
    have hpl : p ≤ nextLine b p := le_nextLine
    have hln := hn.le
    omega
  | @block p n m close next blocks hlt hn hh hskip _ ih =>
    have hpl : p ≤ nextLine b p := le_nextLine
    obtain ⟨n', hn', hle⟩ : ∃ n', FirstEnd b.s (nextLine b p) n' ∧ n' ≤ b.len :=
      exists_firstEnd (Nat.le_of_lt hlt) (by rw [hzero, endsLine_zero])
    obtain rfl := hn.unique hn'
    have hnine := hh.lt hn hle
    obtain ⟨-, hclose, hlt', -⟩ :=
      skipped_file hzero (atHead_file hn hle (by omega)) (by omega) (by omega) hskip
    intro block hblock
    rcases List.mem_cons.1 hblock with rfl | hblock
    · exact hpl
    · have hge := ih block hblock
      omega

/-- White space in front of a line makes no difference. -/
theorem ScansTo.of_nextLine (h : ScansTo b p blocks) (heq : nextLine b q = nextLine b p) :
    ScansTo b q blocks := by
  cases h with
  | done hdone => exact .done (heq ▸ hdone)
  | line hlt hn hh hrest =>
    rw [← heq] at hlt hn hh
    exact .line hlt hn hh hrest
  | block hlt hn hh hskip hrest =>
    rw [← heq] at hlt hn hh ⊢
    exact .block hlt hn hh hskip hrest

/-- A header that the scan comes to is one it takes, or lies behind one. -/
theorem ScansTo.exists_block (h : ScansTo b p blocks)
    (hwalk : Relation.ReflTransGen (PhysicalLine b) p q) (hq : nextLine b q < b.len)
    (hh : HeaderAt b (nextLine b q)) : ∃ block ∈ blocks, block.start ≤ nextLine b q := by
  induction hwalk using Relation.ReflTransGen.head_induction_on generalizing blocks with
  | refl =>
    cases h with
    | done hdone => omega
    | line _ _ hnot _ => exact absurd hh hnot
    | block => exact ⟨_, List.mem_cons_self, Nat.le_refl _⟩
  | @head p p' hstep hwalk ih =>
    obtain ⟨hlt, n, hn, rfl⟩ := hstep
    cases h with
    | done hdone => omega
    | line _ hn' _ hrest =>
      obtain rfl := hn.unique hn'
      exact ih hrest
    | block =>
      refine ⟨_, List.mem_cons_self, ?_⟩
      have hle := le_of_walk hwalk
      have hln := hn.le
      have hqn : q ≤ nextLine b q := le_nextLine
      change nextLine b p ≤ nextLine b q
      omega

theorem nextLine_of_isspace {k : ℕ} (hpq : p ≤ q) (hk : q ≤ p + k)
    (hspace : ∀ j, p ≤ j → j < q → isspace (m j) = true) :
    skipLeading m k p = skipLeading m (p + k - q) q := by
  induction k generalizing p with
  | zero =>
    obtain rfl : p = q := by omega
    rw [Nat.add_zero, Nat.sub_self]
  | succ k ih =>
    rcases Nat.eq_or_lt_of_le hpq with rfl | hlt
    · rw [Nat.add_sub_cancel_left]
    · rw [skipLeading, if_pos (hspace p (Nat.le_refl p) hlt), ih (by omega) (by omega) fun j hj =>
        hspace j (by omega)]
      congr 1
      omega

/-- Without a header among its lines, the scan passes a statement by. -/
theorem ScansTo.pass (h : ScansTo b p blocks) (hle : p ≤ next)
    (hin : next ≤ b.len + 1) (hends : 0 < next → endsLine (b.s (next - 1)) = true)
    (hno : NoHeader b p next) : ScansTo b next blocks := by
  induction hd : next - p using Nat.strong_induction_on generalizing p with
  | _ d ih =>
  rcases Nat.eq_or_lt_of_le hle with rfl | hlt
  · exact h
  by_cases hhead : next ≤ nextLine b p
  · -- there is only white space up to `next`
    apply h.of_nextLine
    have hspace : ∀ j, p ≤ j → j < next → isspace (b.s j) = true := fun j hj hjn =>
      skipLeading_isspace b.s hj (Nat.lt_of_lt_of_le hjn hhead)
    unfold nextLine
    by_cases hpl : next ≤ b.len
    · rw [nextLine_of_isspace hle (by omega) hspace]
      congr 1
      omega
    · have hle' : nextLine b p ≤ b.len := nextLine_le (by omega)
      omega
  · have hfirst : ¬ HeaderAt b (nextLine b p) := hno p .refl (by omega)
    cases h with
    | done hdone =>
      apply ScansTo.done
      have hle' : next ≤ nextLine b next := le_nextLine
      omega
    | block _ _ hh _ _ => exact absurd hh hfirst
    | @line _ n _ hlt' hn _ hrest =>
      have hnn : n ≤ next - 1 := by
        by_contra hnot
        have hmid := hn.before (next - 1) (by omega) (by omega)
        rw [hends (by omega)] at hmid
        cases hmid
      have hpl : p ≤ nextLine b p := le_nextLine
      have hln := hn.le
      refine ih (next - (n + 1)) (by omega) hrest (by omega) (fun q hq => ?_) rfl
      exact hno q (.head ⟨hlt', n, hn, rfl⟩ hq)

end

/-! ### Runs of the parse -/

theorem handleStatement_function {accepts : ℕ → Bytes → Bool} {ifs : IfStmt} {line : ℕ}
    {text : Bytes} : handleStatement accepts ifs line text = .function ↔
      ifTrue ifs = true ∧ functionStart.isPrefixOf text = true := by
  constructor
  · intro h
    unfold handleStatement at h
    split at h
    · cases h
    split at h
    · cases h
    · cases h
    split at h
    · cases h
    split at h
    · next htrue hfun => exact ⟨by simpa using htrue, hfun⟩
    split at h
    · cases h
    split at h <;> cases h
  · rintro ⟨htrue, hfun⟩
    obtain ⟨rest, rfl⟩ := List.isPrefixOf_iff_prefix.1 hfun
    have hdirective : ifDirective ifs (functionStart ++ rest) = none := rfl
    have hcomment : (functionStart ++ rest).head? ≠ some (byte '#') :=
      show some (byte 'f') ≠ some (byte '#') by decide
    unfold handleStatement
    rw [if_neg hcomment, hdirective]
    dsimp only
    rw [if_neg (by simp [htrue]), if_pos hfun]

section

variable {b : Buf} {accepts : ℕ → Bytes → Bool} {m : Memory} {p : ℕ} {ifs : IfStmt}
  {found blocks : List FunctionBlock}

theorem ParseHead.loopHead (h : ParseHead b accepts m p ifs found) : LoopHead b m p := by
  induction h with
  | start => exact .start
  | statement _ hp hsplit _ hrun ih => exact .next ih hp hsplit hrun
  | block _ hp hsplit hstep hskip ih =>
    refine .block ih hp hsplit ?_ hskip
    rw [List.any_eq_true]
    exact ⟨functionStart, List.mem_cons_self, (handleStatement_function.1 hstep).2⟩

/-- In every state of the parse, the blocks skipped are those registered in front of it. -/
def SkipsRegistered (b : Buf) (accepts : ℕ → Bytes → Bool) (blocks : List FunctionBlock) : Prop :=
  ∀ m p ifs found, ParseHead b accepts m p ifs found →
    found = blocks.filter fun block => block.start < p

/-- The statements that the parse reads: one that it does not take for a function has no line that looks
like a header, and a header is one physical line. -/
structure Plain (b : Buf) (accepts : ℕ → Bytes → Bool) : Prop where
  statement : ∀ {m m' p line stop next ifs ifs' found}, ParseHead b accepts m p ifs found →
    p < b.len → splitLine b.len m p = .ok (.line m' line stop next) →
    handleStatement accepts ifs line (slice m' line stop) = .goesOn ifs' → NoHeader b p next
  header : ∀ {m m' m'' p line stop next close next' ifs found}, ParseHead b accepts m p ifs found →
    p < b.len → splitLine b.len m p = .ok (.line m' line stop next) →
    handleStatement accepts ifs line (slice m' line stop) = .function →
    skipCurlyBlock b.len (b.len + 1) m' next 1 = .ok (some (m'', close, next')) →
    FirstEnd b.s line (next - 1)

/-- The scan goes on where the parse does. -/
structure InStep (b : Buf) (blocks : List FunctionBlock) (p : ℕ) (found : List FunctionBlock) :
    Prop where
  before : ∀ block ∈ found, block.start < p
  rest : ∃ rest, blocks = found ++ rest ∧ ScansTo b p rest

theorem InStep.filter (hzero : b.s b.len = 0) (h : InStep b blocks p found) :
    found = blocks.filter fun block => block.start < p := by
  obtain ⟨rest, rfl, hscans⟩ := h.rest
  have hbefore : found.filter (fun block => decide (block.start < p)) = found :=
    List.filter_eq_self.2 fun block hblock => decide_eq_true (h.before block hblock)
  have hrest : rest.filter (fun block => decide (block.start < p)) = [] := by
    rw [List.filter_eq_nil_iff]
    intro block hblock
    have hge := hscans.start_ge hzero block hblock
    simp only [decide_eq_true_eq]
    omega
  rw [List.filter_append, hbefore, hrest, List.append_nil]

section

variable {m' : Memory} {line stop next : ℕ}

/-- Behind a statement without a header. -/
theorem InStep.statement (h : InStep b blocks p found)
    (hs : Statement b p m' line stop next) (hno : NoHeader b p next) :
    InStep b blocks next found := by
  obtain ⟨rest, happ, hscans⟩ := h.rest
  have hline : p ≤ line := hs.line_eq ▸ le_nextLine
  have hlt := hs.lt_next
  refine ⟨fun block hblock => ?_, rest, happ, ?_⟩
  · have hbefore := h.before block hblock
    omega
  · exact hscans.pass (by omega) hs.next_le (fun _ => hs.ends) hno

/-- Behind a function whose header is one physical line. -/
theorem InStep.function (hzero : b.s b.len = 0) (h : InStep b blocks p found)
    (hs : Statement b p m' line stop next) (hsame : SameFrom next m' b.s)
    (htext : functionStart.isPrefixOf (slice m' line stop) = true)
    (hone : FirstEnd b.s line (next - 1)) {m'' : Memory} {close next' : ℕ}
    (hskip : skipCurlyBlock b.len (b.len + 1) m' next 1 = .ok (some (m'', close, next'))) :
    InStep b blocks next'
      (found ++ [⟨line, slice m' line stop, next, slice m'' next close⟩]) := by
  obtain ⟨rest, happ, hscans⟩ := h.rest
  obtain ⟨rfl, hlt, hnext, hnle, -, hphys⟩ := hs
  have hpl : p ≤ nextLine b p := le_nextLine
  have heq : next = next - 1 + 1 := by omega
  have hheader : HeaderAt b (nextLine b p) := by
    unfold HeaderAt
    rw [← hphys _ hone heq]
    exact htext
  obtain ⟨m₁, hskip₁, hfrom⟩ := skipCurlyBlock_file hsame hskip
  have hnine := hheader.lt hone (by omega)
  have hhead : AtHead b.s b.len b.s next := heq ▸ atHead_file hone (by omega) (by omega)
  obtain ⟨-, hclose, hlt', -⟩ := skipped_file hzero hhead (by omega) (by omega) hskip₁
  cases hscans with
  | done hdone => omega
  | line _ _ hnot _ => exact absurd hheader hnot
  | @block _ n m₂ close₂ next₂ blocks' _ hn _ hskip₂ hrest =>
    obtain rfl := hn.unique hone
    rw [← heq, hskip₁] at hskip₂
    cases hskip₂
    refine ⟨fun block hblock => ?_, blocks', ?_, hrest⟩
    · rcases List.mem_append.1 hblock with hblock | hblock
      · have hbefore := h.before block hblock
        omega
      · rw [List.mem_singleton.1 hblock]
        change nextLine b p < next'
        omega
    · rw [happ, List.append_assoc, hphys _ hone heq, slice_congr fun j hj _ => hfrom j hj, ← heq]
      rfl

end

/-- The file is as it was read from the end of a statement on. -/
theorem sameFrom_of_splitLine {m' : Memory} {line stop next : ℕ} (hzero : b.s b.len = 0)
    (h : AtHead b.s b.len m p) (hp : p < b.len)
    (hsplit : splitLine b.len m p = .ok (.line m' line stop next)) : SameFrom next m' b.s := by
  obtain ⟨split, heq, hfound⟩ :=
    splitLine_spec hzero h hp (staysInside_of_splitLine hzero h hsplit)
  rw [hsplit] at heq
  cases heq
  exact (hfound.atHead _ _ _ _ rfl).same

/-- Where the parse has read plain statements only, the scan is in step with it. -/
theorem ParseHead.inStep (hzero : b.s b.len = 0) (hscans : ScansTo b 0 blocks)
    (hplain : Plain b accepts) (h : ParseHead b accepts m p ifs found) :
    InStep b blocks p found := by
  induction h with
  | start => exact ⟨by simp, blocks, rfl, hscans⟩
  | statement h hp hsplit hstep _ ih =>
    have hs := statement_of_splitLine hzero (h.loopHead.atHead hzero) hp hsplit
    exact ih.statement hs (hplain.statement h hp hsplit hstep)
  | @block m m' m'' p line stop next close next' ifs found h hp hsplit hstep hskip ih =>
    have hhead := h.loopHead.atHead hzero
    have hs := statement_of_splitLine hzero hhead hp hsplit
    have hsame := sameFrom_of_splitLine hzero hhead hp hsplit
    exact ih.function hzero hs hsame (handleStatement_function.1 hstep).2
      (hplain.header h hp hsplit hstep hskip) hskip

/-- A header among the lines of a statement would have been registered. -/
theorem InStep.noHeader (hzero : b.s b.len = 0) {next : ℕ} (h : InStep b blocks p found)
    (hin : next ≤ b.len + 1) (hnext : found = blocks.filter fun block => block.start < next) :
    NoHeader b p next := by
  intro q hwalk hq hh
  obtain ⟨rest, happ, hscans⟩ := h.rest
  have hlt : nextLine b q < b.len := by
    by_contra hge
    obtain hlen : nextLine b q = b.len := by omega
    have hends : endsLine (b.s b.len) = true := by rw [hzero, endsLine_zero]
    have hself : FirstEnd b.s b.len b.len :=
      ⟨Nat.le_refl _, hends, fun j hj hlt => absurd hlt (Nat.not_lt.2 hj)⟩
    rw [hlen] at hh
    have hnine := hh.lt hself (Nat.le_refl _)
    omega
  obtain ⟨block, hblock, hstart⟩ := hscans.exists_block hwalk hlt hh
  have hmem : block ∈ found := by
    rw [hnext, List.mem_filter]
    refine ⟨happ ▸ List.mem_append_right _ hblock, decide_eq_true ?_⟩
    omega
  have hbefore := h.before block hmem
  have hge := hscans.start_ge hzero block hblock
  omega

/-- A block that was registered has a header of one physical line. -/
theorem InStep.oneLine (hzero : b.s b.len = 0) (h : InStep b blocks p found) {block : FunctionBlock}
    (hstart : block.start = nextLine b p) (hmem : block ∈ blocks) :
    FirstEnd b.s (nextLine b p) (block.bodyStart - 1) := by
  obtain ⟨rest, happ, hscans⟩ := h.rest
  have hpl : p ≤ nextLine b p := le_nextLine
  have hrest : block ∈ rest := by
    rcases List.mem_append.1 (happ ▸ hmem) with hfound | hrest
    · have hbefore := h.before block hfound
      omega
    · exact hrest
  cases hscans with
  | done => cases hrest
  | line _ hn _ htail =>
    have hge := htail.start_ge hzero block hrest
    have hln := hn.le
    omega
  | @block _ n m close next blocks' hlt hn hh hskip htail =>
    rcases List.mem_cons.1 hrest with rfl | hrest
    · exact hn
    · have hge := htail.start_ge hzero block hrest
      obtain ⟨n', hn', hle⟩ : ∃ n', FirstEnd b.s (nextLine b p) n' ∧ n' ≤ b.len :=
        exists_firstEnd (Nat.le_of_lt hlt) (by rw [hzero, endsLine_zero])
      obtain rfl := hn.unique hn'
      have hnine := hh.lt hn hle
      obtain ⟨-, hclose, hlt', -⟩ :=
        skipped_file hzero (atHead_file hn hle (by omega)) (by omega) (by omega) hskip
      omega

/-- A block that is skipped and was registered has a header of one physical line. -/
theorem InStep.oneLine_of_skips (hzero : b.s b.len = 0) (h : InStep b blocks p found) {line next q : ℕ}
    {header body : Bytes} (hline : line = nextLine b p)
    (hnext : found ++ [⟨line, header, next, body⟩] = blocks.filter fun block => block.start < q) :
    FirstEnd b.s line (next - 1) := by
  have hmem : (⟨line, header, next, body⟩ : FunctionBlock) ∈ blocks :=
    List.mem_of_mem_filter (hnext ▸ List.mem_append_right _ List.mem_cons_self)
  rw [hline]
  exact h.oneLine hzero hline hmem

/-- Where the blocks skipped are those registered, the scan is in step with the parse. -/
theorem ParseHead.inStep_of_skips (hzero : b.s b.len = 0) (hscans : ScansTo b 0 blocks)
    (hskips : SkipsRegistered b accepts blocks) (h : ParseHead b accepts m p ifs found) :
    InStep b blocks p found := by
  induction h with
  | start => exact ⟨by simp, blocks, rfl, hscans⟩
  | @statement m m' m'' p line stop next ifs ifs' found h hp hsplit hstep hrun ih =>
    have hs := statement_of_splitLine hzero (h.loopHead.atHead hzero) hp hsplit
    have hnext := hskips _ _ _ _ (.statement h hp hsplit hstep hrun)
    exact ih.statement hs (ih.noHeader hzero hs.next_le hnext)
  | @block m m' m'' p line stop next close next' ifs found h hp hsplit hstep hskip ih =>
    have hhead := h.loopHead.atHead hzero
    have hs := statement_of_splitLine hzero hhead hp hsplit
    have hsame := sameFrom_of_splitLine hzero hhead hp hsplit
    have hone := ih.oneLine_of_skips hzero hs.line_eq
      (hskips _ _ _ _ (.block h hp hsplit hstep hskip))
    exact ih.function hzero hs hsame (handleStatement_function.1 hstep).2 hone hskip

/-- The parse skips the blocks that the scan has registered if and only if it reads plain statements
only. -/
theorem functions_agree_iff {file : Bytes} (hfile : fslurpNull file = some b)
    (hscan : scanTupfileFunctions b = .ok (some blocks)) :
    SkipsRegistered b accepts blocks ↔ Plain b accepts := by
  have hzero := fslurpNull_zero hfile
  obtain ⟨blocks', happ, hscans⟩ := scansTo_of_loop hzero (fun _ _ => rfl) hscan
  obtain rfl : blocks = blocks' := happ
  constructor
  · intro hskips
    constructor
    · intro m m' p line stop next ifs ifs' found h hp hsplit hstep
      have hs := statement_of_splitLine hzero (h.loopHead.atHead hzero) hp hsplit
      have hin := h.inStep_of_skips hzero hscans hskips
      exact hin.noHeader hzero hs.next_le
        (hskips _ _ _ _ (.statement h hp hsplit hstep fun _ _ => rfl))
    · intro m m' m'' p line stop next close next' ifs found h hp hsplit hstep hskip
      have hs := statement_of_splitLine hzero (h.loopHead.atHead hzero) hp hsplit
      have hin := h.inStep_of_skips hzero hscans hskips
      exact hin.oneLine_of_skips hzero hs.line_eq
        (hskips _ _ _ _ (.block h hp hsplit hstep hskip))
  · intro hplain m p ifs found h
    exact (h.inStep hzero hscans hplain).filter hzero

end

/-- A Tupfile with one function. -/
theorem functions_agree_plain :
    SkipsRegistered ⟨fun i => (bytes "function f \x7b\n\x7d\n").getD i 0, 15⟩ (fun _ _ => true)
        [⟨0, bytes "function f \x7b", 13, []⟩] ↔
      Plain ⟨fun i => (bytes "function f \x7b\n\x7d\n").getD i 0, 15⟩ fun _ _ => true :=
  @functions_agree_iff ⟨fun i => (bytes "function f \x7b\n\x7d\n").getD i 0, 15⟩ (fun _ _ => true)
    [⟨0, bytes "function f \x7b", 13, []⟩] (bytes "function f \x7b\n\x7d\n") rfl rfl

/-- A line that is continued by one that looks like a header. -/
def continuedFile : Buf := ⟨fun i => (bytes "x=\\\nfunction f \x7b\n\x7d\n").getD i 0, 19⟩

/-- The scan registers a function there, and the parse skips none. -/
theorem functions_agree_continued :
    fslurpNull (bytes "x=\\\nfunction f \x7b\n\x7d\n") = some continuedFile ∧
      scanTupfileFunctions continuedFile =
        .ok (some [⟨4, bytes "function f \x7b", 17, []⟩]) ∧
      ¬ SkipsRegistered continuedFile (fun _ _ => true) [⟨4, bytes "function f \x7b", 17, []⟩] := by
  refine ⟨rfl, rfl, fun hskips => ?_⟩
  have hnone := hskips _ _ _ _ (.statement .start (by decide) rfl rfl fun _ _ => rfl)
  exact absurd hnone (by decide)

end Metatup
