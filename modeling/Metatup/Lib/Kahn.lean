import Mathlib.Algebra.Order.BigOperators.Group.Finset
import Mathlib.Data.Finset.Basic
import Metatup.Lib.Digraph

/-!
# Sorting by repeated passes

The nodes are listed in passes. A pass goes over all of them and lists a node when no edge from a
node that has not been listed leads to it; `c y x` is the number of edges from `x` to `y`. A pass
that lists nothing ends the sort.

* `Kahn.Inv`: the invariant of the passes.
* `Kahn.run_init`: the sort ends, with an order when there is no cycle and without one when there is.
-/

namespace Metatup.Lib

open Relation

/-- The state of a sort. -/
structure Kahn (α : Type*) where
  /-- The edges that still lead to a node. -/
  indegree : α → ℤ
  /-- The nodes that have been listed. -/
  queued : α → Bool := fun _ => false
  order : List α := []
  /-- This pass has listed a node. -/
  progress : Bool := false

namespace Kahn

variable {α : Type*} [DecidableEq α]

/-- List a node, and take away the edges from it. -/
def queue (c : α → α → ℕ) (s : Kahn α) (x : α) : Kahn α where
  indegree := fun y => s.indegree y - c y x
  queued := Function.update s.queued x true
  order := s.order ++ [x]
  progress := true

/-- Come to a node during a pass. -/
def visit (c : α → α → ℕ) (s : Kahn α) (x : α) : Kahn α :=
  if s.queued x || s.indegree x ≠ 0 then s else s.queue c x

/-- One pass over the nodes. -/
def pass (c : α → α → ℕ) (nodes : List α) (s : Kahn α) : Kahn α :=
  nodes.foldl (visit c) { s with progress := false }

/-- The passes; `some none` is a pass that lists nothing, `none` is that the fuel has run out. -/
def run (c : α → α → ℕ) (nodes : List α) : ℕ → Kahn α → Option (Option (List α))
  | 0, _ => none
  | fuel + 1, s =>
    if s.order.length < nodes.length then
      let s := s.pass c nodes
      if s.progress then run c nodes fuel s else some none
    else some (some s.order)

/-- There is an edge from `w` to `x`. -/
def Edge (c : α → α → ℕ) (nodes : List α) (w x : α) : Prop := w ∈ nodes ∧ x ∈ nodes ∧ 0 < c x w

/-- In this list, no edge leads backwards. -/
def Sorted (c : α → α → ℕ) (nodes order : List α) : Prop :=
  ∀ pre x post, order = pre ++ x :: post → ∀ w, Edge c nodes w x → w ∈ pre

/-- The nodes that have not been listed. -/
def remaining (nodes : List α) (s : Kahn α) : Finset α := nodes.toFinset \ s.order.toFinset

/-- The invariant of the passes. -/
structure Inv (c : α → α → ℕ) (nodes : List α) (s : Kahn α) : Prop where
  nodup : s.order.Nodup
  subset : s.order ⊆ nodes
  queued : ∀ x, s.queued x = true ↔ x ∈ s.order
  indegree : ∀ y ∈ nodes, s.indegree y = ∑ x ∈ remaining nodes s, (c y x : ℤ)
  sorted : Sorted c nodes s.order

variable {c : α → α → ℕ} {nodes : List α} {s : Kahn α} {x : α}

theorem mem_remaining : x ∈ remaining nodes s ↔ x ∈ nodes ∧ x ∉ s.order := by
  unfold remaining
  rw [Finset.mem_sdiff, List.mem_toFinset, List.mem_toFinset]

omit [DecidableEq α] in
theorem Sorted.snoc {order : List α} (h : Sorted c nodes order)
    (hx : ∀ w, Edge c nodes w x → w ∈ order) : Sorted c nodes (order ++ [x]) := by
  intro pre y post heq w hw
  rcases List.eq_nil_or_concat post with rfl | ⟨post, z, rfl⟩
  · obtain ⟨rfl, hy⟩ := List.append_inj' heq rfl
    cases hy
    exact hx w hw
  · rw [List.concat_eq_append, ← List.cons_append, ← List.append_assoc] at heq
    obtain ⟨heq, -⟩ := List.append_inj' heq rfl
    exact h pre y post heq w hw

/-- No edge from a node that has not been listed leads to a node of indegree zero. -/
theorem Inv.listed_of_edge (h : Inv c nodes s) (hzero : s.indegree x = 0) {w : α}
    (hw : Edge c nodes w x) : w ∈ s.order := by
  obtain ⟨hwn, hxn, hpos⟩ := hw
  by_contra hout
  have hsum := h.indegree x hxn
  rw [hzero] at hsum
  have hz := (Finset.sum_eq_zero_iff_of_nonneg fun a _ => Int.natCast_nonneg _).1 hsum.symm w
    (mem_remaining.2 ⟨hwn, hout⟩)
  omega

theorem Inv.queue (h : Inv c nodes s) (hx : x ∈ nodes) (hout : x ∉ s.order)
    (hzero : s.indegree x = 0) : Inv c nodes (s.queue c x) where
  nodup := by
    apply List.Nodup.append h.nodup (List.nodup_singleton x)
    rw [List.disjoint_singleton]
    exact hout
  subset y hy := by
    rcases List.mem_append.1 hy with hy | hy
    · exact h.subset hy
    · rw [List.mem_singleton.1 hy]
      exact hx
  queued y := by
    show Function.update s.queued x true y = true ↔ y ∈ s.order ++ [x]
    rw [Function.update_apply, List.mem_append, List.mem_singleton, ← h.queued y]
    split
    · next heq => simp [heq]
    · next hne => simp [hne]
  indegree y hy := by
    have hrem : remaining nodes (s.queue c x) = (remaining nodes s).erase x := by
      ext z
      rw [Finset.mem_erase, mem_remaining, mem_remaining]
      show z ∈ nodes ∧ z ∉ s.order ++ [x] ↔ _
      rw [List.mem_append, List.mem_singleton]
      tauto
    show s.indegree y - c y x = _
    rw [hrem, h.indegree y hy,
      ← Finset.add_sum_erase _ (fun z => (c y z : ℤ)) (mem_remaining.2 ⟨hx, hout⟩)]
    omega
  sorted := h.sorted.snoc fun _ hw => h.listed_of_edge hzero hw

/-- A step of a pass keeps the invariant, and lists a node or does nothing. -/
theorem Inv.visit (h : Inv c nodes s) (hx : x ∈ nodes) :
    Inv c nodes (s.visit c x) ∧ (s.visit c x = s ∧ (x ∈ s.order ∨ s.indegree x ≠ 0) ∨
      (s.visit c x).progress = true ∧ (s.visit c x).order.length = s.order.length + 1) := by
  unfold Kahn.visit
  split
  · next hskip =>
    refine ⟨h, .inl ⟨rfl, ?_⟩⟩
    rcases Bool.or_eq_true_iff.1 hskip with hq | hdeg
    · exact .inl ((h.queued x).1 hq)
    · exact .inr (of_decide_eq_true hdeg)
  · next hskip =>
    rw [Bool.or_eq_true, not_or] at hskip
    obtain ⟨hq, hdeg⟩ := hskip
    have hout : x ∉ s.order := fun hmem => hq ((h.queued x).2 hmem)
    have hzero : s.indegree x = 0 := by simpa using hdeg
    refine ⟨h.queue hx hout hzero, .inr ⟨rfl, ?_⟩⟩
    exact List.length_append

/-- What a pass does: it lists a node, or every node is held back. -/
theorem Inv.pass (h : Inv c nodes s) :
    Inv c nodes (s.pass c nodes) ∧
      ((s.pass c nodes).progress = true ∧ s.order.length < (s.pass c nodes).order.length ∨
        (s.pass c nodes).progress = false ∧ ∀ x ∈ nodes, x ∉ s.order → s.indegree x ≠ 0) := by
  have key : ∀ (l : List α), l ⊆ nodes → ∀ t : Kahn α, Inv c nodes t →
      Inv c nodes (l.foldl (Kahn.visit c) t) ∧
        t.order.length ≤ (l.foldl (Kahn.visit c) t).order.length ∧
        ((l.foldl (Kahn.visit c) t).progress = true ∧
            (t.progress = true ∨ t.order.length < (l.foldl (Kahn.visit c) t).order.length) ∨
          (l.foldl (Kahn.visit c) t).progress = false ∧
            ∀ x ∈ l, x ∉ t.order → t.indegree x ≠ 0) := by
    intro l
    induction l with
    | nil =>
      intro _ t ht
      refine ⟨ht, le_rfl, ?_⟩
      cases hp : t.progress with
      | true => exact .inl ⟨hp, .inl rfl⟩
      | false => exact .inr ⟨hp, fun _ hx => absurd hx List.not_mem_nil⟩
    | cons x l ih =>
      intro hl t ht
      obtain ⟨hinv, hstep⟩ := ht.visit (hl List.mem_cons_self)
      obtain ⟨hrun, hle, hor⟩ := ih (fun y hy => hl (List.mem_cons_of_mem x hy)) _ hinv
      refine ⟨hrun, ?_⟩
      rw [List.foldl_cons]
      rcases hstep with ⟨hsame, hheld⟩ | ⟨hprog, hlen⟩
      · rw [hsame] at hle hor ⊢
        refine ⟨hle, ?_⟩
        rcases hor with hp | ⟨hp, hall⟩
        · exact .inl hp
        · refine .inr ⟨hp, fun y hy hout => ?_⟩
          rcases List.mem_cons.1 hy with rfl | hy
          · exact hheld.resolve_left hout
          · exact hall y hy hout
      · refine ⟨by omega, ?_⟩
        rcases hor with ⟨hp, -⟩ | ⟨hp, hall⟩
        · exact .inl ⟨hp, .inr (by omega)⟩
        · -- once it is set, the flag stays set
          exfalso
          have hkeep : ∀ (m : List α) (u : Kahn α), u.progress = true →
              (m.foldl (Kahn.visit c) u).progress = true := by
            intro m
            induction m with
            | nil => exact fun u hu => hu
            | cons y m ihm =>
              intro u hu
              apply ihm
              unfold Kahn.visit
              split
              · exact hu
              · rfl
          rw [hkeep l _ hprog] at hp
          cases hp
  obtain ⟨hinv, -, hor⟩ := key nodes (fun _ hx => hx) { s with progress := false }
    ⟨h.nodup, h.subset, h.queued, h.indegree, h.sorted⟩
  refine ⟨hinv, ?_⟩
  rcases hor with ⟨hp, hp' | hlen⟩ | hall
  · cases hp'
  · exact .inl ⟨hp, hlen⟩
  · exact .inr hall

/-- When every node that is left is held back, some of them are on a cycle. -/
theorem Inv.cycle (h : Inv c nodes s) (hleft : s.order.length < nodes.length) (hnodup : nodes.Nodup)
    (hheld : ∀ x ∈ nodes, x ∉ s.order → s.indegree x ≠ 0) :
    ∃ a, TransGen (Edge c nodes) a a := by
  obtain ⟨n, hn, hout⟩ : ∃ n ∈ nodes, n ∉ s.order := by
    by_contra hall
    push Not at hall
    have hle := (hnodup.subperm hall).length_le
    omega
  obtain ⟨a, -, hcyc⟩ := exists_cycle (l := nodes.filter fun y => decide (y ∉ s.order))
    (r := Edge c nodes) (n := n) (by simp [hn, hout]) (by
      intro x hx
      obtain ⟨hxn, hxout⟩ : x ∈ nodes ∧ x ∉ s.order := by simpa using hx
      have hne := hheld x hxn hxout
      rw [h.indegree x hxn] at hne
      obtain ⟨w, hw, hpos⟩ := Finset.exists_ne_zero_of_sum_ne_zero hne
      obtain ⟨hwn, hwout⟩ := mem_remaining.1 hw
      exact ⟨w, by simp [hwn, hwout], hwn, hxn, by omega⟩)
  exact ⟨a, hcyc⟩

/-- The passes end, with a sorted list of the nodes or with a cycle. -/
theorem Inv.run (h : Inv c nodes s) (hnodup : nodes.Nodup) {fuel : ℕ}
    (hfuel : nodes.length < fuel + s.order.length) :
    (Kahn.run c nodes fuel s = some none ∧ ∃ a, TransGen (Edge c nodes) a a) ∨
      ∃ order, Kahn.run c nodes fuel s = some (some order) ∧ order.Perm nodes ∧
        Sorted c nodes order := by
  induction fuel generalizing s with
  | zero =>
    have hle := (h.nodup.subperm h.subset).length_le
    omega
  | succ fuel ih =>
    unfold Kahn.run
    split
    · next hleft =>
      obtain ⟨hinv, ⟨hp, hlen⟩ | ⟨hp, hheld⟩⟩ := h.pass
      · dsimp only
        rw [if_pos hp]
        exact ih hinv (by omega)
      · dsimp only
        rw [if_neg (by simp [hp])]
        exact .inl ⟨rfl, h.cycle hleft hnodup hheld⟩
    · next hleft =>
      refine .inr ⟨s.order, rfl, ?_, h.sorted⟩
      exact (h.nodup.subperm h.subset).perm_of_length_le (by omega)

/-- A sorted list of all nodes leaves no room for a cycle. -/
theorem Sorted.acyclic {order : List α} (h : Sorted c nodes order) (hperm : order.Perm nodes)
    (hnodup : nodes.Nodup) (a : α) : ¬ TransGen (Edge c nodes) a a := by
  have hstep : ∀ w x, Edge c nodes w x → order.idxOf w < order.idxOf x := by
    intro w x hw
    obtain ⟨pre, post, heq⟩ := List.append_of_mem (hperm.mem_iff.2 hw.2.1)
    have hnd : order.Nodup := hperm.nodup_iff.2 hnodup
    have hpre := h pre x post heq w hw
    rw [heq] at hnd ⊢
    have hxpre : x ∉ pre := fun hx => (List.disjoint_of_nodup_append hnd) hx List.mem_cons_self
    rw [List.idxOf_append_of_mem hpre, List.idxOf_append_of_notMem hxpre, List.idxOf_cons_self]
    have hlt := List.idxOf_lt_length_iff.2 hpre
    omega
  have hlt : ∀ b, TransGen (Edge c nodes) a b → order.idxOf a < order.idxOf b := by
    intro b hb
    induction hb with
    | single hab => exact hstep a _ hab
    | tail _ hbc ih => exact ih.trans (hstep _ _ hbc)
  intro hcyc
  exact lt_irrefl _ (hlt a hcyc)

/-- The sort of a graph whose indegrees count its edges. -/
theorem run_init (hnodup : nodes.Nodup) {indegree : α → ℤ}
    (hindegree : ∀ y ∈ nodes, indegree y = ∑ x ∈ nodes.toFinset, (c y x : ℤ)) {fuel : ℕ}
    (hfuel : nodes.length < fuel) :
    (run c nodes fuel { indegree := indegree } = some none ↔ ∃ a, TransGen (Edge c nodes) a a) ∧
      ((¬ ∃ a, TransGen (Edge c nodes) a a) → ∃ order,
        run c nodes fuel { indegree := indegree } = some (some order) ∧ order.Perm nodes ∧
          Sorted c nodes order) := by
  have hinv : Inv c nodes { indegree := indegree } := by
    refine ⟨List.nodup_nil, List.nil_subset _, by simp, ?_, ?_⟩
    · intro y hy
      have hall : remaining nodes { indegree := indegree } = nodes.toFinset := by simp [remaining]
      rw [hall]
      exact hindegree y hy
    · intro pre x post heq
      simp at heq
  have hlt : nodes.length < fuel + ([] : List α).length := hfuel
  rcases hinv.run hnodup hlt with ⟨hrun, hcyc⟩ | ⟨order, hrun, h⟩
  · exact ⟨iff_of_true hrun hcyc, fun hno => absurd hcyc hno⟩
  · have hacyc : ¬ ∃ a, TransGen (Edge c nodes) a a := fun ⟨a, ha⟩ => h.2.acyclic h.1 hnodup a ha
    refine ⟨iff_of_false ?_ hacyc, fun _ => ⟨order, hrun, h⟩⟩
    rw [hrun]
    simp

end Kahn

end Metatup.Lib
