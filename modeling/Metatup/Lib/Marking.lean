import Mathlib.Data.Finset.Card
import Metatup.Lib.Search

/-!
# Recursive marking

A node is marked, then all of its successors are, one after the other; a node that is marked already
is left alone. While this goes on, the marks are not closed under successors: those of the nodes on
the way are still to come.

* `visit_spec`: what one call adds is closed, and reachable.
* `visit_isSome`: the recursion ends, since each call below another finds one more node marked.
* `mem_visit_iff`: from closed marks, a call adds exactly what can be reached.
-/

namespace Metatup.Lib

open Relation

variable {α : Type*} [DecidableEq α]

/-- Mark a node and what can be reached from it. The fuel bounds the depth of the recursion. -/
def visit (next : α → List α) : ℕ → (α → Bool) → α → Option (α → Bool)
  | 0, _, _ => none
  | fuel + 1, m, n =>
    if m n then some m else (next n).foldlM (visit next fuel) (Function.update m n true)

/-- The marks are closed under successors. -/
def MarksClosed (next : α → List α) (m : α → Bool) : Prop :=
  ∀ x, m x = true → ∀ y ∈ next x, m y = true

/-- What marking from one of the nodes `from` does. -/
structure Marked (next : α → List α) (start : Set α) (m m' : α → Bool) : Prop where
  mono : ∀ x, m x = true → m' x = true
  closed : ∀ x, m' x = true → m x = false → ∀ y ∈ next x, m' y = true
  reach : ∀ x, m' x = true → m x = false → ∃ s ∈ start, ReflTransGen (Next next) s x

variable {next : α → List α} {m m' m'' : α → Bool} {S T : Set α} {n x : α} {fuel : ℕ}

omit [DecidableEq α] in
theorem Marked.refl (S : Set α) (m : α → Bool) : Marked next S m m where
  mono _ hx := hx
  closed x hx hnot := by
    rw [hx] at hnot
    cases hnot
  reach x hx hnot := by
    rw [hx] at hnot
    cases hnot

omit [DecidableEq α] in
theorem Marked.trans (h : Marked next S m m') (h' : Marked next S m' m'') :
    Marked next S m m'' where
  mono x hx := h'.mono x (h.mono x hx)
  closed x hx hnot y hy := by
    cases hmid : m' x with
    | true => exact h'.mono y (h.closed x hmid hnot y hy)
    | false => exact h'.closed x hx hmid y hy
  reach x hx hnot := by
    cases hmid : m' x with
    | true => exact h.reach x hmid hnot
    | false => exact h'.reach x hx hmid

omit [DecidableEq α] in
theorem Marked.mono_start (h : Marked next S m m') (hST : S ⊆ T) : Marked next T m m' :=
  ⟨h.mono, h.closed, fun x hx hnot => by
    obtain ⟨s, hs, hreach⟩ := h.reach x hx hnot
    exact ⟨s, hST hs, hreach⟩⟩

/-- One call after the other. -/
theorem foldlM_spec {l : List α} (hvisit : ∀ (m m' : α → Bool) (n : α),
    visit next fuel m n = some m' → Marked next {n} m m' ∧ m' n = true)
    (h : l.foldlM (visit next fuel) m = some m') :
    Marked next {y | y ∈ l} m m' ∧ ∀ y ∈ l, m' y = true := by
  induction l generalizing m with
  | nil =>
    cases h
    exact ⟨.refl _ _, fun _ hy => absurd hy List.not_mem_nil⟩
  | cons z l ih =>
    rw [List.foldlM_cons, Option.bind_eq_bind, Option.bind_eq_some_iff] at h
    obtain ⟨m₁, hz, hl⟩ := h
    obtain ⟨hmark, hmem⟩ := hvisit m m₁ z hz
    obtain ⟨hrest, hall⟩ := ih hl
    constructor
    · apply (hmark.mono_start ?_).trans (hrest.mono_start ?_)
      · intro y hy
        exact hy ▸ List.mem_cons_self
      · exact fun y hy => List.mem_cons_of_mem z hy
    · intro y hy
      rcases List.mem_cons.1 hy with rfl | hy
      · exact hrest.mono y hmem
      · exact hall y hy

theorem visit_spec (h : visit next fuel m n = some m') : Marked next {n} m m' ∧ m' n = true := by
  induction fuel generalizing m n m' with
  | zero => cases h
  | succ fuel ih =>
    unfold visit at h
    split at h
    · next hn =>
      cases h
      exact ⟨.refl _ _, hn⟩
    · next hn =>
      obtain ⟨hmark, hall⟩ := foldlM_spec (fun m m' n => ih) h
      have hself : m' n = true := hmark.mono n (Function.update_self ..)
      -- a node that is not marked at the start is `n`, or is marked in the loop over its successors
      have hcase : ∀ x, m' x = true → m x = false →
          x = n ∨ Function.update m n true x = false := by
        intro x _ hnot
        by_cases hx : x = n
        · exact .inl hx
        · exact .inr (by rw [Function.update_of_ne hx]; exact hnot)
      refine ⟨⟨fun x hx => hmark.mono x ?_, ?_, ?_⟩, hself⟩
      · rw [Function.update_apply]
        split
        · rfl
        · exact hx
      · intro x hx hnot
        rcases hcase x hx hnot with rfl | hfresh
        · exact hall
        · exact hmark.closed x hx hfresh
      · intro x hx hnot
        rcases hcase x hx hnot with rfl | hfresh
        · exact ⟨x, rfl, .refl⟩
        · obtain ⟨s, hs, hreach⟩ := hmark.reach x hx hfresh
          exact ⟨n, rfl, .head hs hreach⟩

/-- The nodes of `U` that are not marked. -/
def unmarked (U : Finset α) (m : α → Bool) : Finset α := U.filter fun x => m x = false

omit [DecidableEq α] in
theorem card_unmarked_le {U : Finset α} (h : ∀ x, m x = true → m' x = true) :
    (unmarked U m').card ≤ (unmarked U m).card := by
  apply Finset.card_le_card
  intro x hx
  obtain ⟨hU, hnot⟩ := Finset.mem_filter.1 hx
  refine Finset.mem_filter.2 ⟨hU, ?_⟩
  rw [← Bool.not_eq_true] at hnot ⊢
  exact fun hx => hnot (h x hx)

theorem card_unmarked_update {U : Finset α} (hn : n ∈ U) (hnot : m n = false) :
    (unmarked U (Function.update m n true)).card < (unmarked U m).card := by
  apply Finset.card_lt_card
  rw [Finset.ssubset_iff]
  refine ⟨n, ?_, ?_⟩
  · simp [unmarked]
  · intro x hx
    rcases Finset.mem_insert.1 hx with rfl | hx
    · exact Finset.mem_filter.2 ⟨hn, hnot⟩
    · obtain ⟨hU, hx⟩ := Finset.mem_filter.1 hx
      refine Finset.mem_filter.2 ⟨hU, ?_⟩
      by_cases hxn : x = n
      · exact hxn ▸ hnot
      · rwa [Function.update_of_ne hxn] at hx

/-- Marking does not run out of fuel that exceeds the number of the nodes left. -/
theorem visit_isSome {U : Finset α} (hU : ∀ x ∈ U, ∀ y ∈ next x, y ∈ U) (hn : n ∈ U)
    (hfuel : (unmarked U m).card < fuel) : (visit next fuel m n).isSome := by
  induction fuel generalizing m n with
  | zero => omega
  | succ fuel ih =>
    unfold visit
    split
    · rfl
    · next hnot =>
      have hnot : m n = false := by simpa using hnot
      have key : ∀ l : List α, (∀ y ∈ l, y ∈ U) → ∀ m : α → Bool, (unmarked U m).card < fuel →
          (l.foldlM (visit next fuel) m).isSome := by
        intro l
        induction l with
        | nil => exact fun _ _ _ => rfl
        | cons z l ihl =>
          intro hl m hm
          obtain ⟨m₁, hm₁⟩ := Option.isSome_iff_exists.1 (ih (hl z List.mem_cons_self) hm)
          rw [List.foldlM_cons, hm₁]
          apply ihl (fun y hy => hl y (List.mem_cons_of_mem z hy))
          have hle := card_unmarked_le (U := U) (visit_spec hm₁).1.mono
          omega
      apply key _ (hU n hn)
      have hlt := card_unmarked_update hn hnot
      omega

/-- From closed marks, a call adds what can be reached, and the marks are closed again. -/
theorem mem_visit_iff (hm : MarksClosed next m) (h : visit next fuel m n = some m') :
    MarksClosed next m' ∧ ∀ x, m' x = true ↔ m x = true ∨ ReflTransGen (Next next) n x := by
  obtain ⟨hmark, hself⟩ := visit_spec h
  have hclosed : MarksClosed next m' := by
    intro x hx y hy
    cases hold : m x with
    | true => exact hmark.mono y (hm x hold y hy)
    | false => exact hmark.closed x hx hold y hy
  refine ⟨hclosed, fun x => ⟨fun hx => ?_, ?_⟩⟩
  · cases hold : m x with
    | true => exact .inl rfl
    | false =>
      obtain ⟨s, hs, hreach⟩ := hmark.reach x hx hold
      exact .inr (hs ▸ hreach)
  · rintro (hx | hreach)
    · exact hmark.mono x hx
    · induction hreach with
      | refl => exact hself
      | tail _ hstep ih => exact hclosed _ ih _ hstep

omit [DecidableEq α] in
/-- Calls for a list of things, each of which adds what can be reached from its roots. -/
theorem mem_foldlM_iff {β : Type*} {f : (α → Bool) → β → Option (α → Bool)} {roots : β → Set α}
    (hf : ∀ m b m', MarksClosed next m → f m b = some m' → MarksClosed next m' ∧
      ∀ x, m' x = true ↔ m x = true ∨ ∃ s ∈ roots b, ReflTransGen (Next next) s x)
    {l : List β} (hm : MarksClosed next m) (h : l.foldlM f m = some m') :
    MarksClosed next m' ∧ ∀ x, m' x = true ↔
      m x = true ∨ ∃ b ∈ l, ∃ s ∈ roots b, ReflTransGen (Next next) s x := by
  induction l generalizing m with
  | nil =>
    cases h
    exact ⟨hm, fun x => by simp⟩
  | cons b l ih =>
    rw [List.foldlM_cons, Option.bind_eq_bind, Option.bind_eq_some_iff] at h
    obtain ⟨m₁, hb, hl⟩ := h
    obtain ⟨hclosed, hadd⟩ := hf m b m₁ hm hb
    obtain ⟨hclosed', hadd'⟩ := ih hclosed hl
    refine ⟨hclosed', fun x => ?_⟩
    rw [hadd', hadd, or_assoc]
    simp only [List.mem_cons, or_and_right, exists_or, exists_eq_left]

end Metatup.Lib
