import Mathlib.Data.List.Basic
import Mathlib.Order.Lattice

/-!
# The join of two tables

Two tables whose keys increase are walked side by side, and every key comes out once, with the value
that each of the tables has for it.

* `mem_join`: what comes out.
* `join_sorted`: the keys come out in order.
-/

namespace Metatup.Lib

section

variable {κ α : Type*} [BEq κ] [LawfulBEq κ] {a : List (κ × α)} {k l : κ}

theorem lookup_cons_of_ne (h : k ≠ l) (x : α) : ((l, x) :: a).lookup k = a.lookup k := by
  rw [List.lookup_cons, beq_eq_false_iff_ne.2 h]

theorem lookup_cons_same (k : κ) (x : α) : ((k, x) :: a).lookup k = some x := by
  rw [List.lookup_cons, beq_self_eq_true]

theorem lookup_of_lt [Preorder κ] (h : ∀ e ∈ a, k < e.1) : a.lookup k = none := by
  rw [List.lookup_eq_none_iff]
  intro e he
  simpa using (h e he).ne

theorem lt_of_lt_head {κ α : Type*} [Preorder κ] {a : List (κ × α)} {k l : κ} {x : α} (h : k < l)
    (ha : ((l, x) :: a).Pairwise fun x y => x.1 < y.1) : ∀ e ∈ (l, x) :: a, k < e.1 := by
  intro e he
  rcases List.mem_cons.1 he with rfl | he
  · exact h
  · exact h.trans ((List.pairwise_cons.1 ha).1 e he)

end

variable {κ α β : Type*} [LinearOrder κ]

/-- Every key of the two tables, with its values. -/
def join : List (κ × α) → List (κ × β) → List (κ × Option α × Option β)
  | [], [] => []
  | [], (l, y) :: b => (l, none, some y) :: join [] b
  | (k, x) :: a, [] => (k, some x, none) :: join a []
  | (k, x) :: a, (l, y) :: b =>
    if k = l then (k, some x, some y) :: join a b
    else if k < l then (k, some x, none) :: join a ((l, y) :: b)
    else (l, none, some y) :: join ((k, x) :: a) b
termination_by a b => a.length + b.length

variable [BEq κ] [LawfulBEq κ] {a a' : List (κ × α)} {b b' : List (κ × β)}

/-- What the two tables have for a key. -/
def values (a : List (κ × α)) (b : List (κ × β)) (k : κ) : Option α × Option β :=
  (a.lookup k, b.lookup k)

omit [LinearOrder κ] [LawfulBEq κ] in
/-- A key comes out, and then those of the tables without it. -/
theorem mem_cons_values {l : κ} {u : Option α × Option β} {rest : List (κ × Option α × Option β)}
    (hrest : ∀ e, e ∈ rest ↔ e.2 = values a' b' e.1 ∧ e.2 ≠ (none, none))
    (hl : values a' b' l = (none, none)) (hu : values a b l = u) (hne : u ≠ (none, none))
    (hk : ∀ k ≠ l, values a b k = values a' b' k) (e : κ × Option α × Option β) :
    e ∈ (l, u) :: rest ↔ e.2 = values a b e.1 ∧ e.2 ≠ (none, none) := by
  obtain ⟨k, u'⟩ := e
  rw [List.mem_cons, hrest]
  by_cases hkl : k = l
  · subst hkl
    simp only [Prod.mk.injEq, true_and, hl, hu]
    constructor
    · rintro (rfl | ⟨hnone, hsome⟩)
      · exact ⟨rfl, hne⟩
      · exact absurd hnone hsome
    · exact fun h => .inl h.1
  · simp only [Prod.mk.injEq, hkl, false_and, false_or, hk k hkl]

/-- What comes out are the keys that one of the tables has, each with what the tables have for it. -/
theorem mem_join (ha : a.Pairwise fun x y => x.1 < y.1) (hb : b.Pairwise fun x y => x.1 < y.1)
    (e : κ × Option α × Option β) :
    e ∈ join a b ↔ e.2 = values a b e.1 ∧ e.2 ≠ (none, none) := by
  induction a, b using join.induct generalizing e with
  | case1 =>
    rw [join]
    refine iff_of_false List.not_mem_nil ?_
    rintro ⟨heq, hne⟩
    exact hne heq
  | case2 l y b ih =>
    rw [List.pairwise_cons] at hb
    rw [join]
    refine mem_cons_values (ih ha hb.2) ?_ ?_ (by simp) ?_ e
    · rw [values, lookup_of_lt hb.1, List.lookup_nil]
    · rw [values, lookup_cons_same, List.lookup_nil]
    · intro k hk
      rw [values, values, lookup_cons_of_ne hk]
  | case3 k x a ih =>
    rw [List.pairwise_cons] at ha
    rw [join]
    refine mem_cons_values (ih ha.2 hb) ?_ ?_ (by simp) ?_ e
    · rw [values, lookup_of_lt ha.1, List.lookup_nil]
    · rw [values, lookup_cons_same, List.lookup_nil]
    · intro k hk
      rw [values, values, lookup_cons_of_ne hk]
  | case4 x a k y b ih =>
    rw [List.pairwise_cons] at ha hb
    rw [join, if_pos rfl]
    refine mem_cons_values (ih ha.2 hb.2) ?_ ?_ (by simp) ?_ e
    · rw [values, lookup_of_lt ha.1, lookup_of_lt hb.1]
    · rw [values, lookup_cons_same, lookup_cons_same]
    · intro j hj
      rw [values, values, lookup_cons_of_ne hj, lookup_cons_of_ne hj]
  | case5 k x a l y b hne hlt ih =>
    rw [List.pairwise_cons] at ha
    have hk := lt_of_lt_head hlt hb
    rw [join, if_neg hne, if_pos hlt]
    refine mem_cons_values (ih ha.2 hb) ?_ ?_ (by simp) ?_ e
    · rw [values, lookup_of_lt ha.1, lookup_of_lt hk]
    · rw [values, lookup_cons_same, lookup_of_lt hk]
    · intro j hj
      rw [values, values, lookup_cons_of_ne hj]
  | case6 k x a l y b hne hlt ih =>
    rw [List.pairwise_cons] at hb
    have hl := lt_of_lt_head (lt_of_le_of_ne (not_lt.1 hlt) (Ne.symm hne)) ha
    rw [join, if_neg hne, if_neg hlt]
    refine mem_cons_values (ih ha hb.2) ?_ ?_ (by simp) ?_ e
    · rw [values, lookup_of_lt hb.1, lookup_of_lt hl]
    · rw [values, lookup_cons_same, lookup_of_lt hl]
    · intro j hj
      rw [values, values, lookup_cons_of_ne hj]

/-- A key below all keys of the tables is below what comes out. -/
theorem lt_of_mem_join (ha : a.Pairwise fun x y => x.1 < y.1) (hb : b.Pairwise fun x y => x.1 < y.1)
    {l : κ} (hla : ∀ e ∈ a, l < e.1) (hlb : ∀ e ∈ b, l < e.1) :
    ∀ e ∈ join a b, l < e.1 := by
  intro e he
  obtain ⟨heq, hne⟩ := (mem_join ha hb e).1 he
  by_contra hle
  apply hne
  rw [heq, values, lookup_of_lt fun x hx => (not_lt.1 hle).trans_lt (hla x hx),
    lookup_of_lt fun x hx => (not_lt.1 hle).trans_lt (hlb x hx)]

/-- The keys come out in order, each of them once. -/
theorem join_sorted (ha : a.Pairwise fun x y => x.1 < y.1)
    (hb : b.Pairwise fun x y => x.1 < y.1) : (join a b).Pairwise fun x y => x.1 < y.1 := by
  induction a, b using join.induct with
  | case1 =>
    rw [join]
    exact .nil
  | case2 l y b ih =>
    rw [List.pairwise_cons] at hb
    rw [join]
    exact .cons (lt_of_mem_join ha hb.2 (fun e he => absurd he List.not_mem_nil) hb.1) (ih ha hb.2)
  | case3 k x a ih =>
    rw [List.pairwise_cons] at ha
    rw [join]
    exact .cons (lt_of_mem_join ha.2 hb ha.1 fun e he => absurd he List.not_mem_nil) (ih ha.2 hb)
  | case4 x a k y b ih =>
    rw [List.pairwise_cons] at ha hb
    rw [join, if_pos rfl]
    exact .cons (lt_of_mem_join ha.2 hb.2 ha.1 hb.1) (ih ha.2 hb.2)
  | case5 k x a l y b hne hlt ih =>
    have hk := lt_of_lt_head hlt hb
    rw [List.pairwise_cons] at ha
    rw [join, if_neg hne, if_pos hlt]
    exact .cons (lt_of_mem_join ha.2 hb ha.1 hk) (ih ha.2 hb)
  | case6 k x a l y b hne hlt ih =>
    have hl := lt_of_lt_head (lt_of_le_of_ne (not_lt.1 hlt) (Ne.symm hne)) ha
    rw [List.pairwise_cons] at hb
    rw [join, if_neg hne, if_neg hlt]
    exact .cons (lt_of_mem_join ha hb.2 hl hb.1) (ih ha hb.2)

end Metatup.Lib
