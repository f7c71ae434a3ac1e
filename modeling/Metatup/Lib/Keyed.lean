import Mathlib.Data.List.Nodup

/-!
# Lists with one entry for a key

Searching, erasing and replacing the first entry of a key in a list whose entries have different keys.
-/

namespace Metatup.Lib

variable {α β : Type*} [DecidableEq β] {f : α → β} {l : List α} {b : β}

/-- A list whose entries have different keys has one entry for a key. -/
theorem find_eq_some_key (h : (l.map f).Nodup) {a : α} :
    l.find? (fun x => decide (f x = b)) = some a ↔ a ∈ l ∧ f a = b := by
  constructor
  · intro hfind
    exact ⟨List.mem_of_find?_eq_some hfind, of_decide_eq_true (List.find?_some (p := fun x => decide (f x = b)) hfind)⟩
  · rintro ⟨hmem, rfl⟩
    rcases hfind : l.find? (fun x => decide (f x = f a)) with _ | c
    · exact absurd (decide_eq_true rfl) (List.find?_eq_none.1 hfind a hmem)
    · have heq := of_decide_eq_true (List.find?_some (p := fun x => decide (f x = f a)) hfind)
      rw [List.inj_on_of_nodup_map h (List.mem_of_find?_eq_some hfind) hmem heq]

theorem find_eq_none_key :
    l.find? (fun x => decide (f x = b)) = none ↔ b ∉ l.map f := by
  rw [List.find?_eq_none, List.mem_map, not_exists]
  exact forall_congr' fun x => by simp

theorem eraseP_key (h : (l.map f).Nodup) :
    l.eraseP (fun x => decide (f x = b)) = l.filter fun x => decide (f x ≠ b) := by
  induction l with
  | nil => rfl
  | cons a l ih =>
    rw [List.map_cons, List.nodup_cons] at h
    by_cases ha : f a = b
    · rw [List.eraseP_cons_of_pos (p := fun x => decide (f x = b)) (decide_eq_true ha), List.filter_cons_of_neg (by simp [ha])]
      refine (List.filter_eq_self.2 fun x hx => decide_eq_true ?_).symm
      rintro rfl
      exact h.1 (ha ▸ List.mem_map_of_mem hx)
    · rw [List.eraseP_cons_of_neg (by simp [ha]), List.filter_cons_of_pos (by simp [ha]), ih h.2]

theorem replaceF_key (h : (l.map f).Nodup) (g : α → α) :
    (l.replaceF fun x => if f x = b then some (g x) else none) =
      l.map fun x => if f x = b then g x else x := by
  induction l with
  | nil => rfl
  | cons a l ih =>
    rw [List.map_cons, List.nodup_cons] at h
    by_cases ha : f a = b
    · have hrest : l.map (fun x => if f x = b then g x else x) = l := by
        refine (List.map_congr_left fun x hx => if_neg ?_).trans (List.map_id l)
        rintro rfl
        exact h.1 (ha ▸ List.mem_map_of_mem hx)
      simp only [List.replaceF, ha, if_true, List.map_cons, hrest]
    · simp only [List.replaceF, ha, if_false, List.map_cons, ih h.2]

theorem replace_eq_map {γ : Type*} [BEq γ] [LawfulBEq γ] [DecidableEq γ] {l : List γ} (h : l.Nodup)
    (b c : γ) : l.replace b c = l.map fun x => if x = b then c else x := by
  induction l with
  | nil => rfl
  | cons a l ih =>
    rw [List.nodup_cons] at h
    by_cases ha : a = b
    · subst ha
      have hrest : l.map (fun x => if x = a then c else x) = l := by
        refine (List.map_congr_left fun x hx => if_neg ?_).trans (List.map_id l)
        rintro rfl
        exact h.1 hx
      rw [List.replace_cons_self, List.map_cons, hrest, if_pos rfl]
    · have hbeq : (b == a) = false := beq_eq_false_iff_ne.2 (Ne.symm ha)
      rw [List.replace_cons, hbeq, List.map_cons, if_neg ha, ih h.2]

end Metatup.Lib
