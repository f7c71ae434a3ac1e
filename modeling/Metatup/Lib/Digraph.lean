import Mathlib.Data.Fintype.Card
import Mathlib.Data.Set.Finite.Basic
import Mathlib.Logic.Relation

/-!
# Directed graphs

Facts about a relation `r` seen as the edges of a directed graph.

* `exists_cycle`: finitely many nodes each of which has a predecessor among them contain a cycle.
* `Tangled r n`: `n` is on a cycle or downstream of one.
* `Between r n`: it is upstream of one as well. `Between.pred`, `Between.succ` and
  `between_of_neighbours` say that these are the nodes that are left when nodes without a predecessor
  or without a successor are taken away until there are none.
* `TransGen.outside`: cycles avoid a part of the graph that edges do not leave and in which they go
  downwards.
-/

namespace Metatup.Lib

open Relation

variable {α : Type*} {r : α → α → Prop}

/-- The node is on a cycle, or can be reached from one. -/
def Tangled (r : α → α → Prop) (n : α) : Prop := ∃ a, TransGen r a a ∧ ReflTransGen r a n

/-- A node on a cycle or downstream of one has a predecessor of the same kind. -/
theorem Tangled.pred {n : α} (h : Tangled r n) : ∃ q, r q n ∧ Tangled r q := by
  obtain ⟨a, hcyc, hreach⟩ := h
  have hlast : TransGen r a n := hcyc.trans_left hreach
  obtain ⟨q, haq, hqn⟩ := TransGen.tail'_iff.1 hlast
  exact ⟨q, hqn, a, hcyc, haq⟩

/-- Going from predecessor to predecessor among finitely many nodes runs into a cycle. -/
theorem exists_cycle {l : List α} {n : α} (hn : n ∈ l) (h : ∀ x ∈ l, ∃ y ∈ l, r y x) :
    ∃ a ∈ l, TransGen r a a := by
  by_contra hc
  let q : {x // x ∈ l} → {x // x ∈ l} → Prop := fun a b => TransGen r a.1 b.1
  have hirr : Std.Irrefl q := ⟨fun a ha => hc ⟨a.1, a.2, ha⟩⟩
  have htrans : IsTrans _ q := ⟨fun a b c hab hbc => hab.trans hbc⟩
  have hfin : Finite {x // x ∈ l} := List.finite_toSet l
  have hwf : WellFounded q := Finite.wellFounded_of_trans_of_irrefl q
  -- no node of `l` is accessible, since each has a predecessor in `l`
  have hno : ∀ x : {x // x ∈ l}, False := by
    intro x
    induction x using hwf.induction with
    | _ x ih =>
      obtain ⟨y, hy, hr⟩ := h x.1 x.2
      exact ih ⟨y, hy⟩ (TransGen.single hr)
  exact hno ⟨n, hn⟩

/-- Among finitely many nodes that each have a predecessor among them, all are tangled. -/
theorem tangled_of_preds {l : List α} (h : ∀ x ∈ l, ∃ y ∈ l, r y x) {n : α} (hn : n ∈ l) :
    Tangled r n := by
  classical
  -- those of the nodes that lead to `n` have their predecessors among themselves
  have hpred : ∀ x ∈ l.filter fun x => ReflTransGen r x n,
      ∃ y ∈ l.filter fun x => ReflTransGen r x n, r y x := by
    intro x hx
    obtain ⟨hxl, hxn⟩ := List.mem_filter.1 hx
    obtain ⟨y, hy, hyx⟩ := h x hxl
    exact ⟨y, List.mem_filter.2 ⟨hy, by simpa using (of_decide_eq_true hxn).head hyx⟩, hyx⟩
  have hself : n ∈ l.filter fun x => ReflTransGen r x n :=
    List.mem_filter.2 ⟨hn, by simpa using ReflTransGen.refl⟩
  obtain ⟨a, ha, hcyc⟩ := exists_cycle hself hpred
  exact ⟨a, hcyc, of_decide_eq_true (List.mem_filter.1 ha).2⟩

/-! ### Nodes between cycles -/

/-- The node can be reached from a cycle and can reach a cycle. -/
def Between (r : α → α → Prop) (n : α) : Prop :=
  Tangled r n ∧ ∃ b, TransGen r b b ∧ ReflTransGen r n b

theorem Between.pred {n : α} (h : Between r n) : ∃ q, r q n ∧ Between r q := by
  obtain ⟨htangled, b, hcyc, hreach⟩ := h
  obtain ⟨q, hqn, hq⟩ := htangled.pred
  exact ⟨q, hqn, hq, b, hcyc, hreach.head hqn⟩

theorem Between.succ {n : α} (h : Between r n) : ∃ q, r n q ∧ Between r q := by
  obtain ⟨⟨a, hacyc, han⟩, b, hcyc, hreach⟩ := h
  have hfirst : TransGen r n b := hcyc.trans_right hreach
  obtain ⟨q, hnq, hqb⟩ := TransGen.head'_iff.1 hfirst
  exact ⟨q, hnq, ⟨a, hacyc, han.tail hnq⟩, b, hcyc, hqb⟩

/-- Finitely many nodes that each have a predecessor and a successor among them are between
cycles. -/
theorem between_of_neighbours {l : List α} (hpred : ∀ x ∈ l, ∃ y ∈ l, r y x)
    (hsucc : ∀ x ∈ l, ∃ y ∈ l, r x y) {n : α} (hn : n ∈ l) : Between r n := by
  refine ⟨tangled_of_preds hpred hn, ?_⟩
  obtain ⟨b, hcyc, hreach⟩ := tangled_of_preds (r := Function.swap r) hsucc hn
  exact ⟨b, transGen_swap.1 hcyc, reflTransGen_swap.1 hreach⟩

theorem exists_between_iff : (∃ n, Between r n) ↔ ∃ a, TransGen r a a := by
  constructor
  · rintro ⟨n, ⟨a, hcyc, -⟩, -⟩
    exact ⟨a, hcyc⟩
  · rintro ⟨a, hcyc⟩
    exact ⟨a, ⟨a, hcyc, .refl⟩, a, hcyc, .refl⟩

/-! ### A part without cycles -/

section

variable {p : α → Prop} {rank : α → ℕ} {a b : α}

theorem TransGen.rank_lt (h : ∀ a b, r a b → p a → p b ∧ rank b < rank a) (hab : TransGen r a b)
    (ha : p a) : p b ∧ rank b < rank a := by
  induction hab with
  | single hstep => exact h _ _ hstep ha
  | tail _ hstep ih =>
    obtain ⟨hp, hlt⟩ := h _ _ hstep ih.1
    exact ⟨hp, hlt.trans ih.2⟩

/-- A path that ends outside of the part has always been outside. -/
theorem TransGen.avoids (h : ∀ a b, r a b → p a → p b ∧ rank b < rank a) (hab : TransGen r a b)
    (hb : ¬ p b) : TransGen (fun x y => r x y ∧ ¬ p x) a b := by
  induction hab using TransGen.head_induction_on with
  | single hstep => exact .single ⟨hstep, fun ha => hb (h _ _ hstep ha).1⟩
  | head hstep hrest ih =>
    refine .head ⟨hstep, fun ha => hb ?_⟩ ih
    exact (rank_lt h hrest (h _ _ hstep ha).1).1

/-- A cycle is outside of the part. -/
theorem TransGen.outside (h : ∀ a b, r a b → p a → p b ∧ rank b < rank a) (ha : TransGen r a a) :
    TransGen (fun x y => r x y ∧ ¬ p x) a a :=
  avoids h ha fun hp => lt_irrefl _ (rank_lt h ha hp).2

end

end Metatup.Lib
