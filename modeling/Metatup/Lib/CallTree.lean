import Mathlib.Data.List.Basic

/-!
# Nested calls and their returns

A program that is a tree of calls: a call may run its inner blocks, and then goes on with the rest
unless it fails. Each call that returns is put on record with what it returned.

* `CallTree.run`: the run of a tree, for any meaning of the calls.
* `CallTree.run_meets`: what every call keeps, given that its blocks keep it, a run keeps.
-/

namespace Metatup.Lib

variable {C σ ρ : Type*}

/-- What a function comes back with: success, the state, and the returns on record. -/
structure Outcome (σ ρ : Type*) where
  ok : Bool
  state : σ
  returns : List ρ

/-- Calls in their order. A call has two blocks that it may run, and a failure that is caught does not
end the calls. -/
inductive CallTree (C : Type*)
  | done
  | call (c : C) (caught : Bool) (first second rest : CallTree C)

/-- The run of a tree when `step` says what a call does with its blocks. -/
def CallTree.run (step : C → (σ → Outcome σ ρ) → (σ → Outcome σ ρ) → σ → Outcome σ ρ) :
    CallTree C → σ → Outcome σ ρ
  | .done, s => ⟨true, s, []⟩
  | .call c caught first second rest, s =>
    let o := step c (first.run step) (second.run step) s
    if o.ok || caught then
      let o' := rest.run step o.state
      ⟨o'.ok, o'.state, o.returns ++ o'.returns⟩
    else o

/-- Whatever the state, `Q` holds between it, the state that comes out and the returns. -/
def Meets (Q : σ → σ → List ρ → Prop) (f : σ → Outcome σ ρ) : Prop :=
  ∀ s, Q s (f s).state (f s).returns

theorem CallTree.run_meets {Q : σ → σ → List ρ → Prop}
    {step : C → (σ → Outcome σ ρ) → (σ → Outcome σ ρ) → σ → Outcome σ ρ} (hdone : ∀ s, Q s s [])
    (happend : ∀ {s s' s'' l l'}, Q s s' l → Q s' s'' l' → Q s s'' (l ++ l'))
    (hstep : ∀ {c f g}, Meets Q f → Meets Q g → Meets Q (step c f g)) (t : CallTree C) :
    Meets Q (t.run step) := by
  induction t with
  | done => exact hdone
  | call c caught first second rest ihfirst ihsecond ihrest =>
    intro s
    have hcall := hstep ihfirst ihsecond (c := c) s
    rw [CallTree.run]
    dsimp only
    split
    · exact happend hcall (ihrest _)
    · exact hcall

end Metatup.Lib
