import Mathlib.Data.List.Induction
import Mathlib.Data.List.Infix
import Mathlib.Data.List.TakeDrop

/-!
# A matcher that starts over

Looking for a pattern one item at a time, with nothing but the number of items that have been matched.
On an item that is not the next one of the pattern the matcher starts over, and this item is not looked
at again. So it finds no more than there is, but may pass over an occurrence.

* `upTo`: what is read until the pattern is complete.
* `upTo_append_eq_iff`: when an occurrence behind a text without one is found.
* `settled_iff`: after which texts the matcher is at its start.
-/

namespace Metatup.Lib

variable {α : Type*} [DecidableEq α] (p : List α)

/-- The number of items that are matched after one more item. -/
def advance (i : ℕ) (c : α) : ℕ := if p[i]? = some c then i + 1 else 0

/-- What is read until the pattern is complete, or all there is. -/
def upTo : ℕ → List α → List α × Bool
  | _, [] => ([], false)
  | i, c :: l =>
    if advance p i c = p.length then ([c], true)
    else
      let (r, found) := upTo (advance p i c) l
      (c :: r, found)

variable {p} {i : ℕ} {c : α} {l t u : List α}

/-! ### The number of matched items -/

/-- Either every item goes on with the pattern, or the matcher starts over on the way. -/
theorem foldl_advance_cases (p : List α) (i : ℕ) (c : α) (l : List α) :
    (c :: l).foldl (advance p) i = i + (l.length + 1) ∨ (c :: l).foldl (advance p) i ≤ l.length := by
  induction l generalizing i c with
  | nil =>
    show advance p i c = i + 1 ∨ advance p i c ≤ 0
    unfold advance
    split
    · exact .inl rfl
    · exact .inr le_rfl
  | cons d l ih =>
    have hstep : (c :: d :: l).foldl (advance p) i = (d :: l).foldl (advance p) (advance p i c) := rfl
    rw [hstep, List.length_cons]
    have hcases : advance p i c = i + 1 ∨ advance p i c = 0 := by
      unfold advance
      split
      · exact .inl rfl
      · exact .inr rfl
    rcases hcases with hnext | hover
    · rcases ih (advance p i c) d with h | h
      · left
        omega
      · right
        omega
    · right
      rcases ih (advance p i c) d with h | h
      · omega
      · omega

/-- What is matched has been read. -/
theorem take_advance_suffix (h : p.take i <:+ t) (c : α) : p.take (advance p i c) <:+ t ++ [c] := by
  unfold advance
  split
  · next hc =>
    obtain ⟨hlt, rfl⟩ := List.getElem?_eq_some_iff.1 hc
    rw [List.take_succ_eq_append_getElem hlt]
    obtain ⟨s, rfl⟩ := h
    exact ⟨s, (List.append_assoc ..).symm⟩
  · exact List.nil_suffix

theorem take_foldl_suffix (p u : List α) : p.take (u.foldl (advance p) 0) <:+ u := by
  induction u using List.reverseRecOn with
  | nil => exact List.take_zero.symm ▸ List.suffix_refl []
  | append_singleton u c ih =>
    rw [List.foldl_append]
    exact take_advance_suffix ih c

/-! ### Reading -/

theorem upTo_cons (p : List α) (i : ℕ) (c : α) (l : List α) : upTo p i (c :: l) =
    if advance p i c = p.length then ([c], true)
    else (c :: (upTo p (advance p i c) l).1, (upTo p (advance p i c) l).2) := rfl

theorem upTo_found (h : (upTo p i l).2 = true) :
    (upTo p i l).1.foldl (advance p) i = p.length := by
  induction l generalizing i with
  | nil => cases h
  | cons c l ih =>
    rw [upTo_cons] at h ⊢
    split at h
    · next hend =>
      rw [if_pos hend]
      exact hend
    · next hend =>
      rw [if_neg hend]
      exact ih h

theorem upTo_prefix (p : List α) (i : ℕ) (l : List α) : (upTo p i l).1 <+: l := by
  induction l generalizing i with
  | nil => exact List.prefix_rfl
  | cons c l ih =>
    rw [upTo_cons]
    split
    · exact List.cons_prefix_cons.2 ⟨rfl, List.nil_prefix⟩
    · exact List.cons_prefix_cons.2 ⟨rfl, ih _⟩

theorem upTo_not_found (h : (upTo p i l).2 = false) : (upTo p i l).1 = l := by
  induction l generalizing i with
  | nil => rfl
  | cons c l ih =>
    rw [upTo_cons] at h ⊢
    split at h
    · cases h
    · next hend =>
      rw [if_neg hend]
      exact congrArg (c :: ·) (ih h)

/-- A text without the pattern is read to its end. -/
theorem upTo_append (ht : p.take i <:+ t) (hu : ¬ p <:+: t ++ u) (l : List α) :
    upTo p i (u ++ l) =
      (u ++ (upTo p (u.foldl (advance p) i) l).1, (upTo p (u.foldl (advance p) i) l).2) := by
  induction u generalizing i t with
  | nil => rfl
  | cons c u ih =>
    have hread := take_advance_suffix ht c
    have happ : t ++ c :: u = t ++ [c] ++ u := by simp
    rw [happ] at hu
    have hend : advance p i c ≠ p.length := by
      intro heq
      rw [heq, List.take_length] at hread
      exact hu (hread.isInfix.trans (List.prefix_append _ _).isInfix)
    rw [List.cons_append, upTo_cons, if_neg hend, ih hread hu]
    rfl

theorem upTo_append_start (hu : ¬ p <:+: u) (l : List α) : upTo p 0 (u ++ l) =
    (u ++ (upTo p (u.foldl (advance p) 0) l).1, (upTo p (u.foldl (advance p) 0) l).2) :=
  upTo_append (List.take_zero.symm ▸ List.suffix_refl []) hu l

theorem upTo_of_not_infix (hu : ¬ p <:+: u) : upTo p 0 u = (u, false) := by
  have h := upTo_append_start hu []
  rw [List.append_nil] at h
  rw [h, upTo, List.append_nil]

/-- The rest of the pattern completes it. -/
theorem upTo_rest {a b : List α} (hp : p = a ++ b) (hb : b ≠ []) (l : List α) :
    upTo p a.length (b ++ l) = (b, true) := by
  induction b generalizing a with
  | nil => exact absurd rfl hb
  | cons c b ih =>
    have hnext : advance p a.length c = a.length + 1 := by
      unfold advance
      rw [hp, List.getElem?_append_right le_rfl, Nat.sub_self]
      exact if_pos rfl
    rw [List.cons_append, upTo_cons, hnext]
    by_cases hnil : b = []
    · rw [hnil] at hp ⊢
      rw [hp, List.length_append]
      exact if_pos rfl
    · have hlen : a.length + 1 ≠ p.length := by
        have hpos := List.length_pos_iff.2 hnil
        rw [hp, List.length_append, List.length_cons]
        omega
      have hrest := ih (a := a ++ [c]) (by simpa using hp) hnil
      rw [List.length_append, List.length_singleton] at hrest
      rw [if_neg hlen, hrest]

/-- An occurrence behind a text without one is found exactly when the matcher is at its start there. -/
theorem upTo_append_eq_iff (hp : p ≠ []) (hu : ¬ p <:+: u) (l : List α) :
    upTo p 0 (u ++ (p ++ l)) = (u ++ p, true) ↔ u.foldl (advance p) 0 = 0 := by
  rw [upTo_append_start hu]
  constructor
  · intro h
    obtain ⟨hread, hfound⟩ := Prod.mk.inj h
    have hread := List.append_cancel_left hread
    have hend := upTo_found hfound
    rw [hread] at hend
    obtain ⟨c, q, rfl⟩ := List.exists_cons_of_ne_nil hp
    rcases foldl_advance_cases (c :: q) (u.foldl (advance (c :: q)) 0) c q with heq | hle
    · rw [List.length_cons] at hend
      omega
    · rw [List.length_cons] at hend
      omega
  · intro h
    have hfound : upTo p 0 (p ++ l) = (p, true) := upTo_rest (List.nil_append p).symm hp l
    rw [h, hfound]

/-! ### Texts that leave the matcher at its start -/

variable (p) in
/-- A text of failed attempts, each a beginning of the pattern and an item that does not go on with
it. -/
inductive Settled : List α → Prop
  | nil : Settled []
  | attempt {i : ℕ} {c : α} {u : List α} (hi : i < p.length) (hc : p[i]? ≠ some c) (h : Settled u) :
      Settled (p.take i ++ c :: u)

theorem foldl_advance_rest {a b q : List α} (hp : p = a ++ b ++ q) :
    b.foldl (advance p) a.length = a.length + b.length := by
  induction b generalizing a with
  | nil => rfl
  | cons c b ih =>
    have hnext : advance p a.length c = a.length + 1 := by
      unfold advance
      rw [hp, List.append_assoc, List.getElem?_append_right le_rfl, Nat.sub_self]
      exact if_pos rfl
    have hrest := ih (a := a ++ [c]) (by simpa using hp)
    rw [List.length_append, List.length_singleton] at hrest
    rw [List.foldl_cons, hnext, hrest, List.length_cons]
    omega

theorem foldl_advance_begin (h : u <+: p) : u.foldl (advance p) 0 = u.length := by
  obtain ⟨q, hq⟩ := h
  have hrest : u.foldl (advance p) ([] : List α).length = 0 + u.length := foldl_advance_rest hq.symm
  rw [Nat.zero_add] at hrest
  exact hrest

theorem foldl_advance_take (hi : i ≤ p.length) : (p.take i).foldl (advance p) 0 = i := by
  rw [foldl_advance_begin (List.take_prefix i p), List.length_take, min_eq_left hi]

theorem Settled.foldl_eq (h : Settled p u) : u.foldl (advance p) 0 = 0 := by
  induction h with
  | nil => rfl
  | @attempt i c u hi hc _ ih =>
    have hover : advance p i c = 0 := if_neg hc
    rw [List.foldl_append, foldl_advance_take hi.le, List.foldl_cons, hover]
    exact ih

/-- The first attempt of a text. -/
theorem first_attempt (p u : List α) : u <+: p ∨ p <+: u ∨
    ∃ i c v, i < p.length ∧ p[i]? ≠ some c ∧ u = p.take i ++ c :: v := by
  induction p generalizing u with
  | nil => exact .inr (.inl List.nil_prefix)
  | cons a p ih =>
    rcases u with _ | ⟨b, u⟩
    · exact .inl List.nil_prefix
    by_cases hab : a = b
    · subst hab
      rcases ih u with hpre | hpre | ⟨i, c, v, hi, hc, hu⟩
      · exact .inl (List.cons_prefix_cons.2 ⟨rfl, hpre⟩)
      · exact .inr (.inl (List.cons_prefix_cons.2 ⟨rfl, hpre⟩))
      · refine .inr (.inr ⟨i + 1, c, v, ?_, hc, congrArg (a :: ·) hu⟩)
        rw [List.length_cons]
        omega
    · refine .inr (.inr ⟨0, b, u, Nat.succ_pos _, ?_, rfl⟩)
      intro heq
      exact hab (Option.some.inj heq)

/-- After a text without the pattern the matcher is at its start exactly when the text consists of
failed attempts. -/
theorem settled_iff (hu : ¬ p <:+: u) : Settled p u ↔ u.foldl (advance p) 0 = 0 := by
  refine ⟨Settled.foldl_eq, fun h => ?_⟩
  induction hn : u.length using Nat.strong_induction_on generalizing u with
  | _ n ih =>
    rcases first_attempt p u with hpre | hpre | ⟨i, c, v, hi, hc, rfl⟩
    · rw [foldl_advance_begin hpre] at h
      rw [List.length_eq_zero_iff.1 h]
      exact .nil
    · exact absurd hpre.isInfix hu
    · have hover : advance p i c = 0 := if_neg hc
      rw [List.foldl_append, foldl_advance_take hi.le, List.foldl_cons, hover] at h
      refine .attempt hi hc (ih v.length ?_ ?_ h rfl)
      · rw [← hn, List.length_append, List.length_cons]
        omega
      · intro hv
        exact hu (hv.trans ⟨p.take i ++ [c], [], by simp⟩)

end Metatup.Lib
