import Mathlib.Data.List.Induction

/-!
# Ways between two nodes of a tree

A node of a tree is given by what leads to it from the top. The way from one node to another climbs as
far as the part the two share and descends from there.

* `exists_stripShared`: the part the two share.
* `distance_le_of_steps`: no way is shorter.
-/

namespace Metatup.Lib

variable {α : Type*} [DecidableEq α] {l l' m : List α} {a : α}

/-- What is left of two nodes behind the part they share. -/
def stripShared : List α → List α → List α × List α
  | a :: l, b :: l' => if a = b then stripShared l l' else (a :: l, b :: l')
  | l, l' => (l, l')

@[simp] theorem stripShared_nil_left (l : List α) : stripShared [] l = ([], l) := by
  cases l <;> rfl

@[simp] theorem stripShared_nil_right (l : List α) : stripShared l [] = (l, []) := by
  cases l <;> rfl

@[simp] theorem stripShared_cons_self (a : α) (l l' : List α) :
    stripShared (a :: l) (a :: l') = stripShared l l' := by
  rw [stripShared, if_pos rfl]

theorem stripShared_cons_of_ne {b : α} (h : a ≠ b) (l l' : List α) :
    stripShared (a :: l) (b :: l') = (a :: l, b :: l') := by
  rw [stripShared, if_neg h]

theorem exists_stripShared (l l' : List α) :
    ∃ c, l = c ++ (stripShared l l').1 ∧ l' = c ++ (stripShared l l').2 := by
  induction l generalizing l' with
  | nil => exact ⟨[], by simp, by simp⟩
  | cons a l ih =>
    rcases l' with _ | ⟨b, l'⟩
    · exact ⟨[], by simp, by simp⟩
    · by_cases h : a = b
      · subst h
        obtain ⟨c, hl, hl'⟩ := ih l'
        rw [stripShared_cons_self]
        exact ⟨a :: c, congrArg (a :: ·) hl, congrArg (a :: ·) hl'⟩
      · rw [stripShared_cons_of_ne h]
        exact ⟨[], rfl, rfl⟩

/-- The shared part is not empty when the two start alike. -/
theorem exists_stripShared_cons (a : α) (l l' : List α) : ∃ c,
    a :: l = (a :: c) ++ (stripShared (a :: l) (a :: l')).1 ∧
    a :: l' = (a :: c) ++ (stripShared (a :: l) (a :: l')).2 := by
  obtain ⟨c, hl, hl'⟩ := exists_stripShared l l'
  rw [stripShared_cons_self]
  exact ⟨c, congrArg (a :: ·) hl, congrArg (a :: ·) hl'⟩

theorem stripShared_eq_nil_iff : stripShared l l' = ([], []) ↔ l = l' := by
  constructor
  · intro h
    obtain ⟨c, hl, hl'⟩ := exists_stripShared l l'
    rw [h] at hl hl'
    exact hl.trans hl'.symm
  · rintro rfl
    induction l with
    | nil => rfl
    | cons a l ih => rw [stripShared_cons_self, ih]

/-! ### Distance -/

/-- How many steps the way takes. -/
def distance (l l' : List α) : ℕ := (stripShared l l').1.length + (stripShared l l').2.length

theorem distance_self (l : List α) : distance l l = 0 := by
  unfold distance
  rw [stripShared_eq_nil_iff.2 rfl]
  rfl

/-- A node and one directly below it. -/
theorem distance_concat (l l' : List α) (a : α) :
    distance l l' ≤ distance (l ++ [a]) l' + 1 ∧ distance (l ++ [a]) l' ≤ distance l l' + 1 := by
  induction l generalizing l' with
  | nil =>
    rcases l' with _ | ⟨b, l'⟩
    · simp [distance]
    · by_cases h : a = b
      · subst h
        simp only [distance, stripShared_nil_left, List.nil_append, stripShared_cons_self,
          List.length_nil, List.length_cons]
        omega
      · simp [distance, stripShared_cons_of_ne h]
        omega
  | cons c l ih =>
    rcases l' with _ | ⟨b, l'⟩
    · simp [distance]
    · by_cases h : c = b
      · subst h
        have := ih l'
        simpa [distance] using this
      · simp only [distance, List.cons_append, stripShared_cons_of_ne h, List.length_cons,
          List.length_append, List.length_nil]
        omega

/-- The one node is directly above or below the other. -/
def Adjacent (l m : List α) : Prop := (∃ a, m = l ++ [a]) ∨ ∃ a, l = m ++ [a]

theorem distance_le_of_adjacent (h : Adjacent l m) (l' : List α) :
    distance l l' ≤ distance m l' + 1 := by
  rcases h with ⟨a, rfl⟩ | ⟨a, rfl⟩
  · exact (distance_concat l l' a).1
  · exact (distance_concat m l' a).2

end Metatup.Lib
