import Mathlib.Data.Nat.Notation
import Mathlib.Logic.Function.Basic

/-!
# Caches with a generation

A cache that keeps a value for each key with the generation it was read in. A change that is too wide
to be followed key by key starts a new generation; a value of an older one is read again before it is
used, and until then it may be wrong.

* `StampedCache.Valid`: the values of this generation are right.
* `Valid.invalidate`, `Valid.fill`, `Valid.patch`, `Valid.drop`: what keeps it.
-/

set_option linter.unusedSectionVars false

namespace Metatup.Lib

/-- A cache; what has the stamp 0 has never been read. -/
structure StampedCache (κ α : Type*) where
  count : ℕ
  stamp : κ → ℕ
  value : κ → α

namespace StampedCache

variable {κ α : Type*} [DecidableEq κ] {c : StampedCache κ α} {R R' : κ → α → Prop} {k : κ} {a : α}

/-- Nothing has been read. -/
def init (a : α) : StampedCache κ α := ⟨1, fun _ => 0, fun _ => a⟩

/-- Start a new generation. -/
def invalidate (c : StampedCache κ α) : StampedCache κ α := { c with count := c.count + 1 }

/-- Keep a value that has been read. -/
def fill (c : StampedCache κ α) (k : κ) (a : α) : StampedCache κ α :=
  { c with stamp := Function.update c.stamp k c.count, value := Function.update c.value k a }

/-- Change a value without reading it. -/
def patch (c : StampedCache κ α) (k : κ) (a : α) : StampedCache κ α :=
  { c with value := Function.update c.value k a }

/-- Forget a value. -/
def drop (c : StampedCache κ α) (k : κ) (a : α) : StampedCache κ α :=
  { c with stamp := Function.update c.stamp k 0, value := Function.update c.value k a }

/-- No value is of a later generation, and those of this one are right. -/
structure Valid (R : κ → α → Prop) (c : StampedCache κ α) : Prop where
  pos : 0 < c.count
  le : ∀ k, c.stamp k ≤ c.count
  right : ∀ k, c.stamp k = c.count → R k (c.value k)

namespace Valid

theorem init (R : κ → α → Prop) (a : α) : Valid R (StampedCache.init a) where
  pos := Nat.one_pos
  le _ := Nat.zero_le _
  right _ h := absurd h Nat.zero_ne_one

/-- A new generation is right about anything. -/
theorem invalidate (R' : κ → α → Prop) (h : c.Valid R) : c.invalidate.Valid R' where
  pos := Nat.succ_pos _
  le k := Nat.le_succ_of_le (h.le k)
  right k hk := by
    have hle : c.stamp k ≤ c.count := h.le k
    have hk : c.stamp k = c.count + 1 := hk
    omega

theorem fill (h : c.Valid R) (ha : R k a) : (c.fill k a).Valid R where
  pos := h.pos
  le j := by
    by_cases hj : j = k
    · simp [StampedCache.fill, hj]
    · simp [StampedCache.fill, hj, h.le j]
  right j hstamp := by
    by_cases hj : j = k
    · subst hj
      simpa [StampedCache.fill] using ha
    · simp only [StampedCache.fill, Function.update_of_ne hj] at hstamp ⊢
      exact h.right j hstamp

/-- A change of what is right about one key is followed by a change of its value, whatever that was. -/
theorem patch (h : c.Valid R) (ha : R k (c.value k) → R' k a)
    (hother : ∀ j b, j ≠ k → R j b → R' j b) : (c.patch k a).Valid R' where
  pos := h.pos
  le := h.le
  right j hstamp := by
    by_cases hj : j = k
    · subst hj
      simpa [StampedCache.patch] using ha (h.right j hstamp)
    · simp only [StampedCache.patch, Function.update_of_ne hj]
      exact hother j _ hj (h.right j hstamp)

theorem drop (h : c.Valid R) : (c.drop k a).Valid R where
  pos := h.pos
  le j := by
    by_cases hj : j = k
    · simp [StampedCache.drop, hj]
    · simp [StampedCache.drop, hj, h.le j]
  right j hstamp := by
    by_cases hj : j = k
    · subst hj
      have hpos := h.pos
      simp only [StampedCache.drop, Function.update_self] at hstamp
      omega
    · simp only [StampedCache.drop, Function.update_of_ne hj] at hstamp ⊢
      exact h.right j hstamp

/-- What is right may change where nothing of this generation is cached. -/
theorem mono (h : c.Valid R) (hR : ∀ k, c.stamp k = c.count → R k (c.value k) → R' k (c.value k)) :
    c.Valid R' :=
  ⟨h.pos, h.le, fun k hk => hR k hk (h.right k hk)⟩

end Valid

end StampedCache

end Metatup.Lib
