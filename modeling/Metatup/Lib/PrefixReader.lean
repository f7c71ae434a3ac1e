import Mathlib.Data.List.Basic

/-!
# Readers that stop

A reader takes what it needs from the front of a list and gives the rest back. Here it never looks
past what it takes, so what follows can be replaced.

* `Takes`: a reader reads a value from exactly this text, whatever comes after it.
* `PrefixReader`: each success of a reader is of this kind.
* `FuelReader`: the same of a loop whose fuel is only a bound.
-/

namespace Metatup.Lib

variable {ε ξ α β : Type*}

/-- The reader takes these elements, and at least one, whatever follows. -/
structure Takes (f : List ξ → Except ε (α × List ξ)) (pre : List ξ) (a : α) : Prop where
  ne_nil : pre ≠ []
  read : ∀ s, f (pre ++ s) = .ok (a, s)

/-- The reader does not look past what it takes. -/
def PrefixReader (f : List ξ → Except ε (α × List ξ)) : Prop :=
  ∀ l a rest, f l = .ok (a, rest) → ∃ pre, l = pre ++ rest ∧ Takes f pre a

/-- A loop does not look past what it takes, and fuel for each element taken is enough. -/
def FuelReader (f : ℕ → List ξ → Except ε (α × List ξ)) : Prop :=
  ∀ fuel l a rest, f fuel l = .ok (a, rest) →
    ∃ pre, pre ≠ [] ∧ l = pre ++ rest ∧
      ∀ fuel' s, pre.length < fuel' → f fuel' (pre ++ s) = .ok (a, s)

theorem PrefixReader.length_lt {f : List ξ → Except ε (α × List ξ)} (hf : PrefixReader f)
    {l rest : List ξ} {a : α} (h : f l = .ok (a, rest)) : rest.length < l.length := by
  obtain ⟨pre, rfl, htakes⟩ := hf l a rest h
  have hpos : 0 < pre.length := List.length_pos_iff.2 htakes.ne_nil
  rw [List.length_append]
  omega

/-- A value computed from what has been read. -/
theorem PrefixReader.map {f : List ξ → Except ε (α × List ξ)} (hf : PrefixReader f) (g : α → β) :
    PrefixReader fun l => (f l).map fun (a, rest) => (g a, rest) := by
  intro l b rest h
  beta_reduce at h
  cases hl : f l with
  | error e =>
    rw [hl] at h
    cases h
  | ok p =>
    obtain ⟨a, rest'⟩ := p
    rw [hl] at h
    cases h
    obtain ⟨pre, hpre, htakes⟩ := hf l a rest hl
    refine ⟨pre, hpre, htakes.ne_nil, ?_⟩
    intro s
    rw [htakes.read s]
    rfl

/-- A loop behind one element. -/
theorem FuelReader.after [DecidableEq ξ] {f : ℕ → List ξ → Except ε (α × List ξ)}
    (hf : FuelReader f) {g : List ξ → Except ε (α × List ξ)} {x : ξ}
    (hg : ∀ l, g (x :: l) = f (l.length + 1) l)
    (hx : ∀ l a rest, g l = .ok (a, rest) → ∃ l', l = x :: l') : PrefixReader g := by
  intro l a rest h
  obtain ⟨l', rfl⟩ := hx l a rest h
  rw [hg] at h
  obtain ⟨pre, -, rfl, hread⟩ := hf _ l' a rest h
  refine ⟨x :: pre, rfl, List.cons_ne_nil x pre, ?_⟩
  intro s
  have hlt : pre.length < (pre ++ s).length + 1 := by
    rw [List.length_append]
    omega
  rw [List.cons_append, hg]
  exact hread _ s hlt

end Metatup.Lib
