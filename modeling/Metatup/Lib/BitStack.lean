import Mathlib.Data.List.Basic
import Mathlib.Tactic.Common

/-!
# A stack of flags in a word

A stack of at most `w` flags in two words of `w` bits: one has the bit of the innermost entry, and is zero
when there is none; the other has the bits of the entries that are `false`. The outermost entry has the
lowest bit, and the list of the entries begins with the innermost.

* `topBit_shiftLeft`, `topBit_shiftRight`: the bit moves with the number of entries.
* `falseBits_xor`, `falseBits_and_not`: the innermost entry is flipped and taken off by its bit alone.
* `falseBits_eq_zero`: the word is zero when all entries are `true`.
* `entries_falseBits`: the entries are read back.
-/

namespace Metatup.Lib

namespace BitStack

/-- The bit of the innermost of so many entries. -/
def topBit (w : ℕ) : ℕ → BitVec w
  | 0 => 0
  | n + 1 => BitVec.twoPow w n

/-- The bits of the entries that are `false`. -/
def falseBits (w : ℕ) : List Bool → BitVec w
  | [] => 0
  | b :: l => if b then falseBits w l else falseBits w l ||| BitVec.twoPow w l.length

/-- The entries that two words stand for. -/
def entries {w : ℕ} (top bits : BitVec w) : List Bool :=
  if top = 0 then [] else ((List.range (top.toNat.log2 + 1)).map fun i => !bits.getLsbD i).reverse

section

variable {w n : ℕ} {l : List Bool} {b : Bool}

theorem topBit_eq_zero (h : n ≤ w) : topBit w n = 0 ↔ n = 0 := by
  cases n with
  | zero => simp [topBit]
  | succ n =>
    refine iff_of_false (fun hzero => ?_) (Nat.succ_ne_zero n)
    have hbit := congrArg (fun x => BitVec.getLsbD x n) hzero
    simp [topBit, Nat.lt_of_succ_le h] at hbit

theorem topBit_shiftLeft (h : n ≠ 0) : topBit w n <<< 1 = topBit w (n + 1) := by
  obtain ⟨n, rfl⟩ := Nat.exists_eq_succ_of_ne_zero h
  rw [topBit, topBit, BitVec.twoPow_eq, BitVec.twoPow_eq, BitVec.shiftLeft_add]

theorem topBit_shiftRight (h : n + 1 ≤ w) : topBit w (n + 1) >>> 1 = topBit w n := by
  apply BitVec.eq_of_getLsbD_eq
  intro i hi
  rw [BitVec.getLsbD_ushiftRight]
  cases n with
  | zero =>
    rw [topBit, topBit, BitVec.getLsbD_twoPow]
    simp
    omega
  | succ n =>
    rw [topBit, topBit, BitVec.getLsbD_twoPow, BitVec.getLsbD_twoPow]
    have hn : n + 1 < w ∧ n < w := by omega
    simp [hn]
    omega

theorem log2_topBit (h : n + 1 ≤ w) : (topBit w (n + 1)).toNat.log2 = n := by
  rw [topBit, BitVec.toNat_twoPow_of_lt (by omega), Nat.log2_two_pow]

/-- The bits are those of the entries. -/
theorem getLsbD_falseBits (l : List Bool) (i : ℕ) :
    (falseBits w l).getLsbD i = (decide (i < w) && (l.reverse[i]? == some false)) := by
  induction l with
  | nil => simp [falseBits]
  | cons b l ih =>
    have hlast : (b :: l).reverse[i]? = if i = l.length then some b else l.reverse[i]? := by
      rw [List.reverse_cons, List.getElem?_append]
      by_cases hlt : i < l.length
      · rw [if_pos (by simpa using hlt), if_neg (by omega)]
      · rw [if_neg (by simpa using hlt)]
        by_cases heq : i = l.length
        · simp [heq]
        · rw [if_neg heq, List.getElem?_eq_none (by simp; omega), List.getElem?_eq_none (by simp; omega)]
    rw [hlast, falseBits]
    cases b with
    | true =>
      rw [if_pos rfl, ih]
      by_cases heq : i = l.length
      · simp [heq]
      · simp [heq]
    | false =>
      rw [if_neg Bool.false_ne_true, BitVec.getLsbD_or, ih, BitVec.getLsbD_twoPow]
      by_cases heq : i = l.length
      · simp [heq]
      · simp [heq, Ne.symm heq]

/-- The bit of a new entry is not taken. -/
theorem getLsbD_length (l : List Bool) : (falseBits w l).getLsbD l.length = false := by
  rw [getLsbD_falseBits, List.getElem?_eq_none (by simp)]
  simp

theorem falseBits_xor (b : Bool) (l : List Bool) :
    falseBits w (b :: l) ^^^ topBit w (l.length + 1) = falseBits w ((!b) :: l) := by
  have hfree : (falseBits w l).getLsbD l.length = false := getLsbD_length l
  apply BitVec.eq_of_getLsbD_eq
  intro i hi
  rw [topBit]
  cases b with
  | true =>
    rw [falseBits, falseBits, if_pos rfl, if_neg (by simp), BitVec.getLsbD_xor, BitVec.getLsbD_or,
      BitVec.getLsbD_twoPow]
    by_cases heq : l.length = i
    · rw [← heq, hfree]
      simp
    · simp [heq]
  | false =>
    rw [falseBits, falseBits, if_neg (by simp), if_pos (by simp), BitVec.getLsbD_xor, BitVec.getLsbD_or,
      BitVec.getLsbD_twoPow]
    by_cases heq : l.length = i
    · rw [← heq, hfree]
      simp
    · simp [heq]

theorem falseBits_and_not (b : Bool) (l : List Bool) :
    falseBits w (b :: l) &&& ~~~topBit w (l.length + 1) = falseBits w l := by
  have hfree : (falseBits w l).getLsbD l.length = false := getLsbD_length l
  apply BitVec.eq_of_getLsbD_eq
  intro i hi
  rw [topBit, BitVec.getLsbD_and, BitVec.getLsbD_not, BitVec.getLsbD_twoPow, falseBits]
  by_cases heq : l.length = i
  · rw [← heq, hfree]
    simp [heq, hi]
  · cases b <;> simp [heq, Ne.symm heq, hi]

theorem falseBits_eq_zero (h : l.length ≤ w) : falseBits w l = 0 ↔ ∀ b ∈ l, b = true := by
  constructor
  · intro hzero b hb
    cases b with
    | true => rfl
    | false =>
      -- The bit of a false entry is set.
      obtain ⟨i, hi, hget⟩ := List.getElem_of_mem (List.mem_reverse.2 hb)
      have hbit : (falseBits w l).getLsbD i = true := by
        rw [getLsbD_falseBits, List.getElem?_eq_getElem hi, hget]
        rw [List.length_reverse] at hi
        simp
        omega
      rw [hzero, BitVec.ofNat_eq_ofNat, BitVec.getLsbD_zero] at hbit
      cases hbit
  · intro hall
    induction l with
    | nil => rfl
    | cons b l ih =>
      rw [List.forall_mem_cons] at hall
      rw [falseBits, if_pos hall.1]
      exact ih (by rw [List.length_cons] at h; omega) hall.2

theorem entries_falseBits (h : l.length ≤ w) : entries (topBit w l.length) (falseBits w l) = l := by
  unfold entries
  cases l with
  | nil => rfl
  | cons b l =>
    have hne : topBit w (b :: l).length ≠ 0 := fun hzero => by
      have hnil := (topBit_eq_zero h).1 hzero
      cases hnil
    rw [if_neg hne, List.length_cons, log2_topBit h, ← List.reverse_inj, List.reverse_reverse]
    apply List.ext_getElem
    · simp
    · intro i hi hi'
      have hlt : i < w := by
        rw [List.length_reverse] at hi'
        omega
      rw [List.getElem_map, List.getElem_range, getLsbD_falseBits, List.getElem?_eq_getElem hi']
      simp [hlt]

end

end BitStack

end Metatup.Lib
