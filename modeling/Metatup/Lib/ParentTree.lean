import Mathlib.Data.Finset.Max
import Mathlib.Logic.Relation

/-!
# Trees given by parents

Each element has a parent or none. What makes this a tree is a rank that decreases towards the top.

* `RankedBy.raise`: an element can be ranked above any other that is not below it.
* `RankedBy.exists_leaf`: among finitely many elements there is one that is no parent of them.
-/

namespace Metatup.Lib

variable {α : Type*} {parent : α → Option α} {rank : α → ℕ} {a b : α}

/-- Parents have smaller ranks. -/
def RankedBy (parent : α → Option α) (rank : α → ℕ) : Prop :=
  ∀ a b, parent a = some b → rank b < rank a

/-- From `a` the way to the top leads over `b`. -/
def Above (parent : α → Option α) (a b : α) : Prop :=
  Relation.ReflTransGen (fun x y => parent x = some y) a b

theorem Above.rank_le (h : RankedBy parent rank) (hab : Above parent a b) : rank b ≤ rank a := by
  induction hab with
  | refl => exact le_rfl
  | tail _ hstep ih => exact (h _ _ hstep).le.trans ih

theorem Above.mono {parent' : α → Option α} (h : ∀ x y, parent x = some y → parent' x = some y)
    (hab : Above parent a b) : Above parent' a b :=
  Relation.ReflTransGen.mono h _ _ hab

/-- What is below `a` is raised together with it. -/
theorem RankedBy.raise (h : RankedBy parent rank) (hab : ¬ Above parent b a) :
    ∃ rank', RankedBy parent rank' ∧ rank' b < rank' a := by
  classical
  refine ⟨fun x => if Above parent x a then rank x + rank b + 1 else rank x, fun x y hxy => ?_, ?_⟩
  · have hlt := h x y hxy
    dsimp only
    by_cases hy : Above parent y a
    · have hx : Above parent x a := .head hxy hy
      rw [if_pos hx, if_pos hy]
      omega
    · rw [if_neg hy]
      split <;> omega
  · dsimp only
    rw [if_neg hab, if_pos .refl]
    omega

theorem RankedBy.exists_leaf (h : RankedBy parent rank) {l : List α} (hl : l ≠ []) :
    ∃ a ∈ l, ∀ b ∈ l, parent b ≠ some a := by
  classical
  obtain ⟨a, ha, hmax⟩ := l.toFinset.exists_max_image rank
    ((List.exists_mem_of_ne_nil l hl).imp fun _ hx => List.mem_toFinset.2 hx)
  refine ⟨a, List.mem_toFinset.1 ha, fun b hb hba => ?_⟩
  exact (h b a hba).not_ge (hmax b (List.mem_toFinset.2 hb))

end Metatup.Lib
