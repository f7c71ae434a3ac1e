import Mathlib.Data.List.Induction
import Mathlib.Logic.Relation
import Mathlib.Order.WellFounded

/-!
# Labelled transition systems

A system is a step relation `step : σ → ε → σ → Prop`. `Run step s₀ tr s` says that the events `tr`
lead from `s₀` to `s`; the history grows at its end, so an invariant may speak of everything that
happened before the state it is about.

* `Run.invariant`: what holds at the start and is kept by one step holds after every run.
* `Run.congr_of_invariant`: two systems that agree on an invariant.
* `Run.split`, `Run.snoc_inv`: the states a run passes through.
* `Terminating.exists_halt`, `Terminating.not_infinite`: a step relation that decreases a
  well-founded measure on an invariant has no infinite run, and every run extends to one that halts.
-/

namespace Metatup.Lib

variable {σ ε : Type*}

/-- The runs of `step` from `s₀`, with the events in the order they happened. -/
inductive Run (step : σ → ε → σ → Prop) (s₀ : σ) : List ε → σ → Prop
  | nil : Run step s₀ [] s₀
  | snoc {tr : List ε} {s s' : σ} {e : ε} :
      Run step s₀ tr s → step s e s' → Run step s₀ (tr ++ [e]) s'

namespace Run

variable {step : σ → ε → σ → Prop} {s₀ s s' : σ} {tr tr' : List ε} {e : ε}

/-- The invariant rule: a property of history and state that holds at the start and survives every
step from a state where it holds, holds after every run. -/
theorem invariant {I : List ε → σ → Prop} (h : Run step s₀ tr s) (h0 : I [] s₀)
    (hs : ∀ tr s e s', Run step s₀ tr s → I tr s → step s e s' → I (tr ++ [e]) s') : I tr s := by
  induction h with
  | nil => exact h0
  | snoc hr hst ih => exact hs _ _ _ _ hr ih hst

/-- Runs compose. -/
theorem append (h : Run step s₀ tr s) (h' : Run step s tr' s') : Run step s₀ (tr ++ tr') s' := by
  induction h' with
  | nil => simpa using h
  | snoc _ hst ih =>
      rw [← List.append_assoc]
      exact ih.snoc hst

/-- Steps of one relation that are steps of another. -/
theorem mono {step' : σ → ε → σ → Prop} (h : Run step s₀ tr s)
    (hs : ∀ s e s', step s e s' → step' s e s') : Run step' s₀ tr s := by
  induction h with
  | nil => exact .nil
  | snoc _ hst ih => exact ih.snoc (hs _ _ _ hst)

/-- Two relations that agree on an invariant have the same runs. -/
theorem congr_of_invariant {step' : σ → ε → σ → Prop} {I : σ → Prop} (h0 : I s₀)
    (hs : ∀ s e s', I s → (step s e s' ↔ step' s e s')) (hI : ∀ s e s', I s → step s e s' → I s') :
    Run step s₀ tr s ↔ Run step' s₀ tr s := by
  constructor
  · intro h
    have hboth : Run step' s₀ tr s ∧ I s := by
      refine h.invariant (I := fun tr s => Run step' s₀ tr s ∧ I s) ⟨.nil, h0⟩ ?_
      rintro tr s e s' - ⟨hrun, hi⟩ hst
      exact ⟨hrun.snoc ((hs s e s' hi).1 hst), hI s e s' hi hst⟩
    exact hboth.1
  · intro h
    have hboth : Run step s₀ tr s ∧ I s := by
      refine h.invariant (I := fun tr s => Run step s₀ tr s ∧ I s) ⟨.nil, h0⟩ ?_
      rintro tr s e s' - ⟨hrun, hi⟩ hst
      have hst := (hs s e s' hi).2 hst
      exact ⟨hrun.snoc hst, hI s e s' hi hst⟩
    exact hboth.1

/-- The last step of a run with a nonempty history. -/
theorem snoc_inv (h : Run step s₀ (tr ++ [e]) s) : ∃ m, Run step s₀ tr m ∧ step m e s := by
  generalize htr : tr ++ [e] = l at h
  cases h with
  | nil => simp at htr
  | snoc hr hst =>
      obtain ⟨rfl, he⟩ := List.append_inj' htr rfl
      cases he
      exact ⟨_, hr, hst⟩

/-- A run passes through a state at every prefix of its history. -/
theorem split (h : Run step s₀ (tr ++ tr') s) : ∃ m, Run step s₀ tr m ∧ Run step m tr' s := by
  induction tr' using List.reverseRecOn generalizing s with
  | nil => exact ⟨s, by simpa using h, .nil⟩
  | append_singleton l e ih =>
      rw [← List.append_assoc] at h
      obtain ⟨m, hm, hst⟩ := snoc_inv h
      obtain ⟨k, hk, hkm⟩ := ih hm
      exact ⟨k, hk, hkm.snoc hst⟩

/-- The state before and after one event in the middle of a run. -/
theorem split_at {tr₁ tr₂ : List ε} (h : Run step s₀ (tr₁ ++ e :: tr₂) s) :
    ∃ m m', Run step s₀ tr₁ m ∧ step m e m' ∧ Run step m' tr₂ s := by
  rw [show tr₁ ++ e :: tr₂ = (tr₁ ++ [e]) ++ tr₂ by simp] at h
  obtain ⟨m', hm', h2⟩ := h.split
  obtain ⟨m, hm, hst⟩ := hm'.snoc_inv
  exact ⟨m, m', hm, hst, h2⟩

/-- A map of states and events that carries steps to runs carries runs to runs. -/
theorem map {σ' ε' : Type*} {step' : σ' → ε' → σ' → Prop} {f : σ → σ'} {g : ε → List ε'}
    (hf : ∀ s e s', step s e s' → Run step' (f s) (g e) (f s')) (h : Run step s₀ tr s) :
    Run step' (f s₀) (tr.flatMap g) (f s) := by
  induction h with
  | nil => exact .nil
  | snoc _ hst ih =>
      rw [List.flatMap_append, List.flatMap_singleton]
      exact ih.append (hf _ _ _ hst)

end Run

/-- A step relation terminates on the states of `I` when every step from such a state stays in `I`
and decreases a measure into a well-founded order. -/
structure Terminating (step : σ → ε → σ → Prop) (I : σ → Prop) where
  /-- Where the measure lives. -/
  M : Type
  /-- Its order. -/
  lt : M → M → Prop
  wf : WellFounded lt
  /-- The measure. -/
  m : σ → M
  keeps : ∀ s e s', I s → step s e s' → I s'
  decreases : ∀ s e s', I s → step s e s' → lt (m s') (m s)

namespace Terminating

variable {step : σ → ε → σ → Prop} {I : σ → Prop} (T : Terminating step I)

include T in
/-- Every state of the invariant has a run to a state without steps. -/
theorem exists_halt {s : σ} (hs : I s) :
    ∃ tr s', Run step s tr s' ∧ I s' ∧ ∀ e s'', ¬ step s' e s'' := by
  induction hm : T.m s using T.wf.induction generalizing s with
  | _ x ih =>
    by_cases h : ∃ e s', step s e s'
    · obtain ⟨e, s', hst⟩ := h
      have hlt : T.lt (T.m s') x := hm ▸ T.decreases s e s' hs hst
      obtain ⟨tr, t, hrun, ht, hhalt⟩ := ih _ hlt (T.keeps s e s' hs hst) rfl
      exact ⟨[e] ++ tr, t, (Run.snoc .nil hst : Run step s ([] ++ [e]) s').append hrun, ht, hhalt⟩
    · exact ⟨[], s, .nil, hs, fun e s' hst => h ⟨e, s', hst⟩⟩

include T in
/-- There is no infinite run. -/
theorem not_infinite (f : ℕ → σ) (ev : ℕ → ε) (h0 : I (f 0)) :
    ¬ ∀ n, step (f n) (ev n) (f (n + 1)) := by
  intro h
  have hI : ∀ n, I (f n) := by
    intro n
    induction n with
    | zero => exact h0
    | succ n ih => exact T.keeps _ _ _ ih (h n)
  have : ∀ x, ∀ n, T.m (f n) = x → False := by
    intro x
    induction x using T.wf.induction with
    | _ x ih =>
      intro n hn
      exact ih _ (hn ▸ T.decreases _ _ _ (hI n) (h n)) (n + 1) rfl
  exact this _ 0 rfl

end Terminating

end Metatup.Lib
