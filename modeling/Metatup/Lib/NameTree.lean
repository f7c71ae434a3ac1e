import Mathlib.Data.List.Nodup

/-!
# Finite trees of names

A tree whose branches list what they hold under names. A path is the list of names from the root.

* `NameTree.subtree`: what is at a path.
* `NameTree.paths`: the paths of a tree, each branch before what it holds.
* `NameTree.mem_paths_iff`, `NameTree.paths_nodup`: they are the paths where something is, once each.
-/

namespace Metatup.Lib

/-- A finite tree; what a branch holds is listed in some order. -/
inductive NameTree (N : Type*)
  | leaf
  | branch (entries : List (N × NameTree N))

namespace NameTree

variable {N : Type*}

mutual

/-- The names satisfy `P`, and those in one branch differ. -/
def Named (P : N → Prop) : NameTree N → Prop
  | leaf => True
  | branch es => (es.map Prod.fst).Nodup ∧ NamedIn P es

/-- The names below the entries of a branch. -/
def NamedIn (P : N → Prop) : List (N × NameTree N) → Prop
  | [] => True
  | (c, t) :: es => P c ∧ Named P t ∧ NamedIn P es

end

mutual

/-- The paths of a tree, in the order of a walk. -/
def paths : NameTree N → List (List N)
  | leaf => [[]]
  | branch es => [] :: pathsIn es

/-- The paths of the entries of a branch. -/
def pathsIn : List (N × NameTree N) → List (List N)
  | [] => []
  | (c, t) :: es => (paths t).map (c :: ·) ++ pathsIn es

end

variable [DecidableEq N]

/-- What is at a path. -/
def subtree : NameTree N → List N → Option (NameTree N)
  | t, [] => some t
  | leaf, _ :: _ => none
  | branch es, c :: p =>
    match es.lookup c with
    | none => none
    | some t => subtree t p

variable {P : N → Prop} {t : NameTree N} {es : List (N × NameTree N)} {p q : List N}

@[simp] theorem subtree_nil (t : NameTree N) : subtree t [] = some t := by cases t <;> rfl

theorem subtree_append (t : NameTree N) (p q : List N) :
    subtree t (p ++ q) = (subtree t p).bind (subtree · q) := by
  induction p generalizing t with
  | nil => simp
  | cons c p ih =>
    cases t with
    | leaf => rfl
    | branch es =>
      rw [List.cons_append, subtree, subtree]
      cases es.lookup c with
      | none => rfl
      | some t => exact ih t

omit [DecidableEq N] in
theorem namedIn_iff : NamedIn P es ↔ ∀ e ∈ es, P e.1 ∧ Named P e.2 := by
  induction es with
  | nil => simp [NamedIn]
  | cons e es ih =>
    obtain ⟨c, t⟩ := e
    rw [NamedIn, ih, List.forall_mem_cons, and_assoc]

/-- What is in a well-named tree is well named. -/
theorem Named.subtree {s : NameTree N} (h : Named P t) (hs : NameTree.subtree t p = some s) :
    Named P s ∧ ∀ c ∈ p, P c := by
  induction p generalizing t with
  | nil =>
    rw [subtree_nil] at hs
    exact ⟨Option.some.inj hs ▸ h, by simp⟩
  | cons c p ih =>
    cases t with
    | leaf => cases hs
    | branch es =>
      rw [NameTree.subtree] at hs
      cases hl : es.lookup c with
      | none =>
        rw [hl] at hs
        cases hs
      | some t =>
        rw [hl] at hs
        obtain ⟨l₁, l₂, hes, -⟩ := List.lookup_eq_some_iff.1 hl
        obtain ⟨hc, ht⟩ := namedIn_iff.1 h.2 (c, t) (by simp [hes])
        obtain ⟨hs', hp⟩ := ih ht hs
        exact ⟨hs', List.forall_mem_cons.2 ⟨hc, hp⟩⟩

/-! ### The paths -/

omit [DecidableEq N] in
theorem not_mem_pathsIn_nil : [] ∉ pathsIn es := by
  induction es with
  | nil => exact List.not_mem_nil
  | cons e es ih =>
    obtain ⟨c, t⟩ := e
    rw [pathsIn, List.mem_append, not_or]
    exact ⟨by simp, ih⟩

omit [DecidableEq N] in
theorem head_of_mem_pathsIn {c : N} (h : c :: p ∈ pathsIn es) : c ∈ es.map Prod.fst := by
  induction es with
  | nil => cases h
  | cons e es ih =>
    obtain ⟨d, t⟩ := e
    rw [pathsIn, List.mem_append] at h
    rcases h with h | h
    · obtain ⟨q, -, hq⟩ := List.mem_map.1 h
      rw [List.cons.injEq] at hq
      simp [hq.1]
    · simp [ih h]

mutual

theorem mem_paths_iff : ∀ (t : NameTree N) (p : List N), Named P t →
    (p ∈ paths t ↔ (subtree t p).isSome)
  | leaf, p, _ => by cases p <;> simp [paths, subtree]
  | branch es, [], _ => by simp [paths]
  | branch es, c :: p, h => by
    rw [paths, List.mem_cons, subtree]
    simp only [reduceCtorEq, false_or]
    exact mem_pathsIn_iff es c p h.1 h.2

theorem mem_pathsIn_iff : ∀ (es : List (N × NameTree N)) (c : N) (p : List N),
    (es.map Prod.fst).Nodup → NamedIn P es →
    (c :: p ∈ pathsIn es ↔ (match es.lookup c with
      | none => none
      | some t => subtree t p).isSome)
  | [], c, p, _, _ => by simp [pathsIn]
  | (d, t) :: es, c, p, hnd, h => by
    rw [List.map_cons, List.nodup_cons] at hnd
    rw [pathsIn, List.mem_append, List.lookup_cons]
    by_cases hcd : c = d
    · have hnot : c :: p ∉ pathsIn es := fun hmem => hnd.1 (hcd ▸ head_of_mem_pathsIn hmem)
      subst hcd
      simp only [beq_self_eq_true, hnot, or_false]
      rw [← mem_paths_iff t p h.2.1]
      simp
    · have hbeq : (c == d) = false := by simpa using hcd
      rw [hbeq]
      dsimp only
      rw [← mem_pathsIn_iff es c p hnd.2 h.2.2]
      simp [Ne.symm hcd]

end

omit [DecidableEq N]

mutual

theorem paths_nodup : ∀ t : NameTree N, Named P t → (paths t).Nodup
  | leaf, _ => by simp [paths]
  | branch es, h => by
    rw [paths, List.nodup_cons]
    exact ⟨not_mem_pathsIn_nil, pathsIn_nodup es h.1 h.2⟩

theorem pathsIn_nodup : ∀ es : List (N × NameTree N), (es.map Prod.fst).Nodup → NamedIn P es →
    (pathsIn es).Nodup
  | [], _, _ => by simp [pathsIn]
  | (c, t) :: es, hnd, h => by
    rw [List.map_cons, List.nodup_cons] at hnd
    rw [pathsIn]
    refine ((paths_nodup t h.2.1).map fun _ _ heq => (List.cons.inj heq).2).append
      (pathsIn_nodup es hnd.2 h.2.2) ?_
    intro p hp hp'
    obtain ⟨q, -, rfl⟩ := List.mem_map.1 hp
    exact hnd.1 (head_of_mem_pathsIn hp')

end

end NameTree

end Metatup.Lib
