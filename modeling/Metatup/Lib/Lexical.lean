import Mathlib.Data.List.Induction

/-!
# Lexical paths

A path is a list of names in which one name, `up`, stands for the parent directory. Normalising it
cancels a name against the `up` behind it, so that all that is left of `up` is at the front. A
directory of a tree is the path to it from the top, and walking a path from a directory fails where
it leaves the tree.

* `norm_append_names`: normalisation of a path in parts.
* `walk_append`, `walk_names`: walking a path in parts.
-/

namespace Metatup.Lib

variable {α : Type*} [DecidableEq α] (up : α)

/-! ### Normal forms -/

/-- Add a name to a normal path, of which so many names are not `up`. -/
def normStep (s : List α × ℕ) (c : α) : List α × ℕ :=
  if c = up then
    if s.2 ≠ 0 then (s.1.dropLast, s.2 - 1) else (s.1 ++ [up], s.2)
  else (s.1 ++ [c], s.2 + 1)

/-- The normal form of a path. -/
def norm (p : List α) : List α := (p.foldl (normStep up) ([], 0)).1

variable {up} {p q : List α}

/-- Names that are not `up` are added as they are. -/
theorem foldl_normStep_names (h : up ∉ p) (s : List α × ℕ) :
    p.foldl (normStep up) s = (s.1 ++ p, s.2 + p.length) := by
  induction p generalizing s with
  | nil => simp
  | cons c p ih =>
    rw [List.mem_cons, not_or] at h
    rw [List.foldl_cons, ih h.2, normStep, if_neg (Ne.symm h.1)]
    simp only [List.append_assoc, List.singleton_append, List.length_cons]
    congr 1
    omega

theorem norm_append_names (h : up ∉ q) : norm up (p ++ q) = norm up p ++ q := by
  unfold norm
  rw [List.foldl_append, foldl_normStep_names h]

theorem foldl_normStep_replicate (up : α) (k : ℕ) :
    (List.replicate k up).foldl (normStep up) ([], 0) = (List.replicate k up, 0) := by
  induction k with
  | zero => rfl
  | succ k ih =>
    rw [List.replicate_succ', List.foldl_append, ih]
    simp [normStep]

/-- A path that first climbs is in normal form. -/
theorem norm_replicate_append (k : ℕ) (h : up ∉ p) :
    norm up (List.replicate k up ++ p) = List.replicate k up ++ p := by
  unfold norm
  rw [List.foldl_append, foldl_normStep_replicate, foldl_normStep_names h]

/-! ### Below a root -/

variable (up) in
/-- Where a path leads when it cannot climb beyond its root. -/
def resolve (p : List α) : List α :=
  p.foldl (fun d c => if c = up then d.dropLast else d ++ [c]) []

theorem resolve_concat (p : List α) (c : α) :
    resolve up (p ++ [c]) = if c = up then (resolve up p).dropLast else resolve up p ++ [c] := by
  unfold resolve
  rw [List.foldl_append]
  rfl

/-- The normal form is the resolved path behind all that would climb. -/
theorem norm_eq_resolve (up : α) (p : List α) : up ∉ resolve up p ∧
    ∃ k, p.foldl (normStep up) ([], 0) =
      (List.replicate k up ++ resolve up p, (resolve up p).length) := by
  induction p using List.reverseRecOn with
  | nil => exact ⟨List.not_mem_nil, 0, rfl⟩
  | append_singleton p c ih =>
    obtain ⟨hup, k, hk⟩ := ih
    rw [resolve_concat, List.foldl_append, hk]
    show _ ∧ ∃ k', normStep up _ c = _
    unfold normStep
    by_cases hc : c = up
    · rw [if_pos hc, if_pos hc]
      by_cases hnil : resolve up p = []
      · rw [hnil]
        refine ⟨List.not_mem_nil, k + 1, ?_⟩
        simp [List.replicate_succ']
      · refine ⟨fun h => hup ((List.dropLast_sublist _).subset h), k, ?_⟩
        rw [if_pos (by simpa using hnil), List.dropLast_append_of_ne_nil hnil, List.length_dropLast]
    · rw [if_neg hc, if_neg hc]
      refine ⟨?_, k, ?_⟩
      · rw [List.mem_append, not_or, List.mem_singleton]
        exact ⟨hup, Ne.symm hc⟩
      · simp

theorem norm_eq_replicate (up : α) (p : List α) : ∃ k, norm up p = List.replicate k up ++ resolve up p := by
  obtain ⟨-, k, hk⟩ := norm_eq_resolve up p
  exact ⟨k, congrArg Prod.fst hk⟩

/-! ### From a directory -/

variable (up) in
/-- Where a path leads from a directory, when the parent of the root is the root. -/
def climb (d p : List α) : List α := p.foldl (fun d c => if c = up then d.dropLast else d ++ [c]) d

theorem climb_append (d p q : List α) : climb up d (p ++ q) = climb up (climb up d p) q :=
  List.foldl_append

theorem climb_concat (d p : List α) (c : α) :
    climb up d (p ++ [c]) = if c = up then (climb up d p).dropLast else climb up d p ++ [c] :=
  climb_append d p [c]

/-- Names that are not `up` are added as they are. -/
theorem climb_names (d : List α) (h : up ∉ p) : climb up d p = d ++ p := by
  induction p using List.reverseRecOn with
  | nil => exact (List.append_nil d).symm
  | append_singleton p c ih =>
    rw [List.mem_append, not_or, List.mem_singleton] at h
    rw [climb_concat, if_neg (Ne.symm h.2), ih h.1, List.append_assoc]

theorem climb_replicate (d : List α) (k : ℕ) :
    climb up d (List.replicate k up) = d.take (d.length - k) := by
  induction k with
  | zero => exact (List.take_length).symm
  | succ k ih =>
    rw [List.replicate_succ', climb_concat, if_pos rfl, ih, List.dropLast_eq_take, List.take_take,
      List.length_take]
    congr 1
    omega

/-- A path leads where its normal form leads. -/
theorem climb_norm (d p : List α) : climb up d (norm up p) = climb up d p := by
  have key : ∃ k, p.foldl (normStep up) ([], 0) =
      (List.replicate k up ++ resolve up p, (resolve up p).length) ∧
      climb up d p = d.take (d.length - k) ++ resolve up p := by
    induction p using List.reverseRecOn with
    | nil => exact ⟨0, rfl, by simp [climb, resolve]⟩
    | append_singleton p c ih =>
      obtain ⟨k, hk, hclimb⟩ := ih
      rw [resolve_concat, List.foldl_append, hk, climb_concat, hclimb]
      by_cases hc : c = up
      · rw [if_pos hc, if_pos hc]
        by_cases hnil : resolve up p = []
        · refine ⟨k + 1, ?_, ?_⟩
          · simp [normStep, hc, hnil, List.replicate_succ']
          · rw [hnil, List.append_nil, List.dropLast_nil, List.append_nil, List.dropLast_eq_take,
              List.take_take, List.length_take]
            congr 1
            omega
        · refine ⟨k, ?_, List.dropLast_append_of_ne_nil hnil⟩
          rw [List.foldl_cons, List.foldl_nil, normStep, if_pos hc, if_pos (by simpa using hnil),
            List.dropLast_append_of_ne_nil hnil, List.length_dropLast]
      · rw [if_neg hc, if_neg hc]
        refine ⟨k, ?_, by rw [List.append_assoc]⟩
        rw [List.foldl_cons, List.foldl_nil, normStep, if_neg hc]
        simp
  obtain ⟨k, hk, hclimb⟩ := key
  have hnorm : norm up p = List.replicate k up ++ resolve up p := congrArg Prod.fst hk
  rw [hnorm, climb_append, climb_replicate, climb_names _ (norm_eq_resolve up p).1, hclimb]

/-! ### Walking -/

variable (up) in
/-- Walk a path from a directory. -/
def walk : List α → List α → Option (List α)
  | d, [] => some d
  | d, c :: p =>
    if c = up then if d = [] then none else walk d.dropLast p
    else walk (d ++ [c]) p

theorem walk_append (d p q : List α) : walk up d (p ++ q) = (walk up d p).bind (walk up · q) := by
  induction p generalizing d with
  | nil => rfl
  | cons c p ih =>
    rw [List.cons_append, walk, walk]
    split
    · split
      · rfl
      · exact ih _
    · exact ih _

theorem walk_names (d : List α) (h : up ∉ p) : walk up d p = some (d ++ p) := by
  induction p generalizing d with
  | nil => simp [walk]
  | cons c p ih =>
    rw [List.mem_cons, not_or] at h
    rw [walk, if_neg (Ne.symm h.1), ih _ h.2]
    simp

/-- Climbing as often as a directory is deep leads to the top. -/
theorem walk_replicate (d : List α) : walk up d (List.replicate d.length up) = some [] := by
  induction d using List.reverseRecOn with
  | nil => rfl
  | append_singleton d c ih =>
    rw [List.length_append, List.length_singleton, List.replicate_succ, walk, if_pos rfl,
      if_neg (by simp), List.dropLast_concat]
    exact ih

end Metatup.Lib
