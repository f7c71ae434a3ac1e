import Mathlib.Data.List.Nodup
import Mathlib.Order.Lattice

/-!
# The difference of two ordered lists

Two strictly increasing lists are walked side by side, and the elements that only one of them has
come out in order, each with the side it is from.

* `mem_diff`: what comes out.
* `diff_nodup`, `diff_sorted`: nothing comes out twice, and what comes out increases.
* `foldlM_invariant`, `foldlM_keeps`: the rules for a loop over a list that may stop with an error.
-/

namespace Metatup.Lib

variable {α : Type*} [LinearOrder α]

/-- The elements of `a` that are not in `b`, as `inl`, and those of `b` that are not in `a`, as
`inr`, in increasing order. -/
def diff : List α → List α → List (α ⊕ α)
  | [], b => b.map .inr
  | x :: a, [] => (x :: a).map .inl
  | x :: a, y :: b =>
    if x = y then diff a b
    else if x < y then .inl x :: diff a (y :: b)
    else .inr y :: diff (x :: a) b
termination_by a b => a.length + b.length

variable {a b : List α}

/-- An element comes out with its side exactly when the other list does not have it. -/
theorem mem_diff (ha : a.Pairwise (· < ·)) (hb : b.Pairwise (· < ·)) (z : α ⊕ α) :
    z ∈ diff a b ↔ z.elim (fun x => x ∈ a ∧ x ∉ b) (fun y => y ∈ b ∧ y ∉ a) := by
  induction a, b using diff.induct with
  | case1 b => cases z <;> simp [diff]
  | case2 x a => cases z <;> simp [diff]
  | case3 a x b ih =>
    rw [List.pairwise_cons] at ha hb
    rw [diff, if_pos rfl, ih ha.2 hb.2]
    rcases z with w | w
    · have : w ∈ a → w ≠ x := fun h => (ha.1 w h).ne'
      simp only [Sum.elim_inl, List.mem_cons]
      tauto
    · have : w ∈ b → w ≠ x := fun h => (hb.1 w h).ne'
      simp only [Sum.elim_inr, List.mem_cons]
      tauto
  | case4 x a y b hne hlt ih =>
    rw [List.pairwise_cons] at ha
    have hx : ∀ w ∈ y :: b, x < w := by
      intro w hw
      rcases List.mem_cons.1 hw with rfl | hw
      · exact hlt
      · exact hlt.trans ((List.pairwise_cons.1 hb).1 w hw)
    rw [diff, if_neg hne, if_pos hlt, List.mem_cons, ih ha.2 hb]
    rcases z with w | w
    · have : w ∈ y :: b → w ≠ x := fun h => (hx w h).ne'
      simp only [Sum.elim_inl, List.mem_cons (b := x), Sum.inl.injEq]
      tauto
    · have : w ∈ y :: b → w ≠ x := fun h => (hx w h).ne'
      simp only [Sum.elim_inr, List.mem_cons (b := x), reduceCtorEq, false_or]
      tauto
  | case5 x a y b hne hlt ih =>
    rw [List.pairwise_cons] at hb
    have hyx : y < x := lt_of_le_of_ne (not_lt.1 hlt) (Ne.symm hne)
    have hy : ∀ w ∈ x :: a, y < w := by
      intro w hw
      rcases List.mem_cons.1 hw with rfl | hw
      · exact hyx
      · exact hyx.trans ((List.pairwise_cons.1 ha).1 w hw)
    rw [diff, if_neg hne, if_neg hlt, List.mem_cons, ih ha hb.2]
    rcases z with w | w
    · have : w ∈ x :: a → w ≠ y := fun h => (hy w h).ne'
      simp only [Sum.elim_inl, List.mem_cons (b := y), reduceCtorEq, false_or]
      tauto
    · have : w ∈ x :: a → w ≠ y := fun h => (hy w h).ne'
      simp only [Sum.elim_inr, List.mem_cons (b := y), Sum.inr.injEq]
      tauto

/-- Nothing comes out twice. -/
theorem diff_nodup (ha : a.Pairwise (· < ·)) (hb : b.Pairwise (· < ·)) : (diff a b).Nodup := by
  induction a, b using diff.induct with
  | case1 b =>
    rw [diff]
    exact List.Nodup.map (fun _ _ => Sum.inr.inj) (hb.imp fun h => h.ne)
  | case2 x a =>
    rw [diff]
    exact List.Nodup.map (fun _ _ => Sum.inl.inj) (ha.imp fun h => h.ne)
  | case3 a x b ih =>
    rw [diff, if_pos rfl]
    exact ih ha.of_cons hb.of_cons
  | case4 x a y b hne hlt ih =>
    rw [diff, if_neg hne, if_pos hlt, List.nodup_cons]
    refine ⟨fun h => ?_, ih ha.of_cons hb⟩
    have hx : x ∈ a := ((mem_diff ha.of_cons hb _).1 h).1
    exact ((List.pairwise_cons.1 ha).1 x hx).false
  | case5 x a y b hne hlt ih =>
    rw [diff, if_neg hne, if_neg hlt, List.nodup_cons]
    refine ⟨fun h => ?_, ih ha hb.of_cons⟩
    have hy : y ∈ b := ((mem_diff ha hb.of_cons _).1 h).1
    exact ((List.pairwise_cons.1 hb).1 y hy).false

/-- What comes out increases. -/
theorem diff_sorted (ha : a.Pairwise (· < ·)) (hb : b.Pairwise (· < ·)) :
    ((diff a b).map (Sum.elim id id)).Pairwise (· < ·) := by
  have hid : ∀ {a b : List α} {x : α}, a.Pairwise (· < ·) → b.Pairwise (· < ·) →
      (∀ y ∈ a, x < y) → (∀ y ∈ b, x < y) → ∀ y ∈ (diff a b).map (Sum.elim id id), x < y := by
    intro a b x ha hb hxa hxb y hy
    obtain ⟨z, hz, rfl⟩ := List.mem_map.1 hy
    have hz := (mem_diff ha hb z).1 hz
    cases z with
    | inl y => exact hxa y hz.1
    | inr y => exact hxb y hz.1
  induction a, b using diff.induct with
  | case1 b => simpa [diff] using hb
  | case2 x a => simpa [diff] using ha
  | case3 a x b ih =>
    rw [diff, if_pos rfl]
    exact ih ha.of_cons hb.of_cons
  | case4 x a y b hne hlt ih =>
    rw [diff, if_neg hne, if_pos hlt, List.map_cons]
    obtain ⟨hxa, ha⟩ := List.pairwise_cons.1 ha
    have hxb : ∀ w ∈ y :: b, x < w := by
      intro w hw
      rcases List.mem_cons.1 hw with rfl | hw
      · exact hlt
      · exact hlt.trans ((List.pairwise_cons.1 hb).1 w hw)
    exact List.pairwise_cons.2 ⟨hid ha hb hxa hxb, ih ha hb⟩
  | case5 x a y b hne hlt ih =>
    have hyx : y < x := lt_of_le_of_ne (not_lt.1 hlt) (Ne.symm hne)
    rw [diff, if_neg hne, if_neg hlt, List.map_cons]
    obtain ⟨hyb, hb⟩ := List.pairwise_cons.1 hb
    have hya : ∀ w ∈ x :: a, y < w := by
      intro w hw
      rcases List.mem_cons.1 hw with rfl | hw
      · exact hyx
      · exact hyx.trans ((List.pairwise_cons.1 ha).1 w hw)
    exact List.pairwise_cons.2 ⟨hid ha hb hya hyb, ih ha hb⟩

/-- A loop that can stop with an error: if every step from a state that satisfies the property of
the part already done succeeds and keeps it, the whole loop does. -/
theorem foldlM_invariant {β σ : Type*} {f : σ → β → Option σ} {P : List β → σ → Prop} {l : List β}
    {s : σ} (h0 : P [] s) (hstep : ∀ pre x post s, l = pre ++ x :: post → P pre s →
      ∃ s', f s x = some s' ∧ P (pre ++ [x]) s') : ∃ s', l.foldlM f s = some s' ∧ P l s' := by
  have key : ∀ post pre s, l = pre ++ post → P pre s → ∃ s', post.foldlM f s = some s' ∧ P l s' := by
    intro post
    induction post with
    | nil =>
      intro pre s hl hP
      rw [List.append_nil] at hl
      exact ⟨s, rfl, hl ▸ hP⟩
    | cons x post ih =>
      intro pre s hl hP
      obtain ⟨s₁, hs₁, hP₁⟩ := hstep pre x post s hl hP
      obtain ⟨s₂, hs₂, hP₂⟩ := ih (pre ++ [x]) s₁ (by simp [hl]) hP₁
      exact ⟨s₂, by simp [hs₁, hs₂], hP₂⟩
  exact key l [] s rfl h0

/-- The same for a loop that is known to have succeeded. -/
theorem foldlM_keeps {β σ : Type*} {f : σ → β → Option σ} {P : List β → σ → Prop} {l : List β}
    {s s' : σ} (h : l.foldlM f s = some s') (h0 : P [] s)
    (hstep : ∀ pre x post s s', l = pre ++ x :: post → P pre s → f s x = some s' →
      P (pre ++ [x]) s') : P l s' := by
  have key : ∀ post pre s, l = pre ++ post → P pre s → post.foldlM f s = some s' → P l s' := by
    intro post
    induction post with
    | nil =>
      intro pre s hl hP h
      cases h
      rw [hl, List.append_nil]
      exact hP
    | cons x post ih =>
      intro pre s hl hP h
      rw [List.foldlM_cons, Option.bind_eq_bind, Option.bind_eq_some_iff] at h
      obtain ⟨m, hm, h⟩ := h
      exact ih (pre ++ [x]) m (by simp [hl]) (hstep pre x post s m hl hP hm) h
  exact key l [] s rfl h0 h

end Metatup.Lib
