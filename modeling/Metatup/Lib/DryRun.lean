import Mathlib.Init

/-!
# Dry runs

A program that can refuse, and a dry run of it that is the same program with more refusals.

* `Within`: what the dry run accepts, the real run does, with the same result.
* `Refuses`: what is known of every refusal.
-/

namespace Metatup.Lib

universe u

variable {ε : Type*} {α β σ : Type u}

theorem bind_eq_ok {x : Except ε α} {f : α → Except ε β} {b : β} :
    x >>= f = .ok b ↔ ∃ a, x = .ok a ∧ f a = .ok b := by
  cases x with
  | ok a => exact ⟨fun h => ⟨a, rfl, h⟩, fun ⟨_, ha, h⟩ => by cases ha; exact h⟩
  | error e => exact ⟨fun h => (by cases h), fun ⟨_, ha, _⟩ => by cases ha⟩

/-- Whatever the dry run accepts, the real run does. -/
def Within (dry real : Except ε α) : Prop := ∀ a, dry = .ok a → real = .ok a

namespace Within

theorem refl (x : Except ε α) : Within x x := fun _ h => h

theorem refused (e : ε) (x : Except ε α) : Within (.error e) x := fun _ h => by cases h

theorem bind {x y : Except ε α} {f g : α → Except ε β} (h : Within x y)
    (hf : ∀ a, x = .ok a → Within (f a) (g a)) : Within (x >>= f) (y >>= g) := by
  intro b hb
  obtain ⟨a, ha, hb⟩ := bind_eq_ok.1 hb
  exact bind_eq_ok.2 ⟨a, h a ha, hf a ha b hb⟩

theorem ite {p : Prop} [Decidable p] {x y x' y' : Except ε α} (h : p → Within x y)
    (h' : ¬ p → Within x' y') : Within (if p then x else x') (if p then y else y') := by
  by_cases hp : p
  · rw [if_pos hp, if_pos hp]
    exact h hp
  · rw [if_neg hp, if_neg hp]
    exact h' hp

theorem foldlM {f g : σ → β → Except ε σ} (h : ∀ s b, Within (f s b) (g s b)) (l : List β) (s : σ) :
    Within (l.foldlM f s) (l.foldlM g s) := by
  induction l generalizing s with
  | nil => exact refl _
  | cons b l ih =>
    rw [List.foldlM_cons, List.foldlM_cons]
    exact (h s b).bind fun s' _ => ih s'

end Within

/-- Every refusal has the property. -/
def Refuses (p : ε → Prop) (x : Except ε α) : Prop := ∀ e, x = .error e → p e

namespace Refuses

variable {p : ε → Prop}

theorem ok (a : α) : Refuses p (.ok a) := fun _ h => by cases h

theorem error {e : ε} (h : p e) : Refuses p (.error e : Except ε α) := fun _ he => by
  cases he
  exact h

theorem bind {x : Except ε α} {f : α → Except ε β} (h : Refuses p x)
    (hf : ∀ a, x = .ok a → Refuses p (f a)) : Refuses p (x >>= f) := by
  intro e he
  cases hx : x with
  | error e' =>
    rw [hx] at he
    cases he
    exact h _ hx
  | ok a =>
    rw [hx] at he
    exact hf a hx e he

theorem ite {q : Prop} [Decidable q] {x y : Except ε α} (h : q → Refuses p x)
    (h' : ¬ q → Refuses p y) : Refuses p (if q then x else y) := by
  by_cases hq : q
  · rw [if_pos hq]
    exact h hq
  · rw [if_neg hq]
    exact h' hq

theorem foldlM {f : σ → β → Except ε σ} (h : ∀ s b, Refuses p (f s b)) (l : List β) (s : σ) :
    Refuses p (l.foldlM f s) := by
  induction l generalizing s with
  | nil => exact ok s
  | cons b l ih =>
    rw [List.foldlM_cons]
    exact (h s b).bind fun s' _ => ih s'

end Refuses

end Metatup.Lib
