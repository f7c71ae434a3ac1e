import Metatup.Lib.Digraph
import Metatup.Updater.Prune

/-!
# Trimming a graph to its cycles

To show a circular dependency, every node that has no incoming or no outgoing edge is taken out of
the graph, again and again until there is none.

* `trimGraph`: the loop.
* `trimGraph_spec`: it ends, and leaves the nodes between cycles and the edges between them.
-/

namespace Metatup

open Relation Lib

/-- A node in the traversal of `trim_graph`, with whether a node has been removed. -/
def trimStep (s : Graph × Bool) (n : TupId) : Graph × Bool :=
  if inEdges s.1 n = [] ∨ outEdges s.1 n = [] then (removeNodeInternal s.1 n, true) else s

/-- One traversal of the node list; a removal takes out the node the traversal is at. -/
def trimPass (g : Graph) : Graph × Bool := g.nodeList.foldl trimStep (g, false)

/-- Source: `graph.c` `trim_graph`; the number bounds the passes -/
def trimGraph : ℕ → Graph → Option Graph
  | 0, _ => none
  | fuel + 1, g =>
    match trimPass g with
    | (g', true) => trimGraph fuel g'
    | (g', false) => some g'

/-- The edges are between nodes of the node list. -/
def EdgesListed (g : Graph) : Prop := ∀ e ∈ g.edges, e.src ∈ g.nodeList ∧ e.dest ∈ g.nodeList

/-- What the removals so far have left of `g`: the nodes between cycles, at least, and all edges
between the nodes that are left. -/
structure Trimmed (g g' : Graph) : Prop where
  ok : ListOk g'
  plist : g'.plist = g.plist
  sub : ∀ n ∈ g'.nodeList, n ∈ g.nodeList
  tent : ∀ n, (g'.node n).tent = (g.node n).tent
  edges : ∀ e, e ∈ g'.edges ↔ e ∈ g.edges ∧ e.src ∈ g'.nodeList ∧ e.dest ∈ g'.nodeList
  kept : ∀ n ∈ g.nodeList, Between (Adj g) n → n ∈ g'.nodeList

section

variable {g g' : Graph} {n : TupId}

theorem Trimmed.refl (hok : ListOk g) (hg : EdgesListed g) : Trimmed g g where
  ok := hok
  plist := rfl
  sub _ := id
  tent _ := rfl
  edges e := ⟨fun he => ⟨he, hg e he⟩, fun he => he.1⟩
  kept _ hn _ := hn

/-- An edge between nodes that are left is left. -/
theorem Trimmed.adj (h : Trimmed g g') {a b : TupId} (ha : a ∈ g'.nodeList) (hb : b ∈ g'.nodeList)
    (hab : Adj g a b) : Adj g' a b := by
  obtain ⟨e, he, rfl, rfl⟩ := hab
  exact ⟨e, (h.edges e).2 ⟨he, ha, hb⟩, rfl, rfl⟩

/-- A node between cycles keeps a predecessor and a successor. -/
theorem Trimmed.not_removed (h : Trimmed g g') (hg : EdgesListed g) (hn : Between (Adj g) n)
    (hmem : n ∈ g.nodeList) : inEdges g' n ≠ [] ∧ outEdges g' n ≠ [] := by
  have hin := h.kept n hmem hn
  constructor
  · obtain ⟨q, hqn, hq⟩ := hn.pred
    obtain ⟨e, he, rfl, rfl⟩ := hqn
    have hq' := h.kept _ (hg e he).1 hq
    rw [Ne, inEdges_eq_nil]
    exact fun hno => hno _ (h.adj hq' hin ⟨e, he, rfl, rfl⟩)
  · obtain ⟨q, hnq, hq⟩ := hn.succ
    obtain ⟨e, he, rfl, rfl⟩ := hnq
    have hq' := h.kept _ (hg e he).2 hq
    rw [Ne, outEdges_eq_nil]
    exact fun hno => hno _ (h.adj hin hq' ⟨e, he, rfl, rfl⟩)

/-- A node without predecessor or successor is no loss. -/
theorem Trimmed.remove (h : Trimmed g g') (hg : EdgesListed g) (hn : n ∈ g'.nodeList)
    (hends : inEdges g' n = [] ∨ outEdges g' n = []) :
    Trimmed g (removeNodeInternal g' n) ∧
      ∀ i, i ∈ (removeNodeInternal g' n).nodeList ↔ i ≠ n ∧ i ∈ g'.nodeList := by
  have hgone := removeNodeInternal_spec h.ok hn
  refine ⟨⟨hgone.ok, hgone.plist.trans h.plist, ?_, ?_, ?_, ?_⟩, hgone.mem_nodeList⟩
  · intro i hi
    exact h.sub i ((hgone.mem_nodeList i).1 hi).2
  · intro i
    rw [hgone.tent, h.tent]
  · intro e
    rw [hgone.edges, h.edges, hgone.mem_nodeList, hgone.mem_nodeList]
    tauto
  · intro i hi hbetween
    rw [hgone.mem_nodeList]
    refine ⟨?_, h.kept i hi hbetween⟩
    rintro rfl
    obtain ⟨hin, hout⟩ := h.not_removed hg hbetween hi
    exact hends.elim hin hout

/-! ### One pass -/

/-- The traversal when it has come past the nodes `done`, with `rest` still to come. -/
structure TrimInv (g₀ g : Graph) (done rest : List TupId) (s : Graph × Bool) : Prop where
  trimmed : Trimmed g₀ s.1
  rest_mem : ∀ n ∈ rest, n ∈ s.1.nodeList
  length : s.1.nodeList.length ≤ g.nodeList.length
  removed : s.2 = true → s.1.nodeList.length < g.nodeList.length
  same : s.2 = false → s.1 = g ∧ ∀ n ∈ done, inEdges g n ≠ [] ∧ outEdges g n ≠ []

theorem TrimInv.step {g₀ : Graph} {done rest : List TupId} {s : Graph × Bool}
    (hg : EdgesListed g₀) (hnd : (n :: rest).Nodup) (h : TrimInv g₀ g done (n :: rest) s) :
    TrimInv g₀ g (done ++ [n]) rest (trimStep s n) := by
  have hn := h.rest_mem n List.mem_cons_self
  unfold trimStep
  split_ifs with hends
  · obtain ⟨htrim, hmem⟩ := h.trimmed.remove hg hn hends
    have hlt : (removeNodeInternal s.1 n).nodeList.length < s.1.nodeList.length := by
      have hsub : (removeNodeInternal s.1 n).nodeList ⊆ s.1.nodeList.erase n := by
        intro i hi
        exact (List.mem_erase_of_ne ((hmem i).1 hi).1).2 ((hmem i).1 hi).2
      have hle := (htrim.ok.nodeList_nodup.subperm hsub).length_le
      rw [List.length_erase_of_mem hn] at hle
      have := List.length_pos_of_mem hn
      omega
    have hle := h.length
    refine ⟨htrim, ?_, by simp only; omega, fun _ => by simp only; omega, by simp⟩
    intro i hi
    rw [hmem]
    refine ⟨?_, h.rest_mem i (List.mem_cons_of_mem n hi)⟩
    rintro rfl
    exact (List.nodup_cons.1 hnd).1 hi
  · obtain ⟨hin, hout⟩ := not_or.1 hends
    refine ⟨h.trimmed, fun i hi => h.rest_mem i (List.mem_cons_of_mem n hi), h.length, h.removed, ?_⟩
    intro hs
    obtain ⟨rfl, hdone⟩ := h.same hs
    refine ⟨rfl, ?_⟩
    intro i hi
    rcases List.mem_append.1 hi with hi | hi
    · exact hdone i hi
    · rw [List.mem_singleton.1 hi]
      exact ⟨hin, hout⟩

theorem TrimInv.foldl {g₀ : Graph} {done rest : List TupId} {s : Graph × Bool}
    (hg : EdgesListed g₀) (hnd : rest.Nodup) (h : TrimInv g₀ g done rest s) :
    TrimInv g₀ g (done ++ rest) [] (rest.foldl trimStep s) := by
  induction rest generalizing done s with
  | nil => simpa using h
  | cons n rest ih =>
    have := ih (List.nodup_cons.1 hnd).2 (h.step hg hnd)
    simpa using this

/-- A pass takes a node out, or every node has a predecessor and a successor. -/
theorem trimPass_spec {g₀ : Graph} (hg : EdgesListed g₀) (h : Trimmed g₀ g) :
    TrimInv g₀ g g.nodeList [] (trimPass g) := by
  have hstart : TrimInv g₀ g [] g.nodeList (g, false) :=
    ⟨h, fun _ hn => hn, Nat.le_refl _, by simp, fun _ => ⟨rfl, by simp⟩⟩
  exact hstart.foldl hg h.ok.nodeList_nodup

/-! ### The passes -/

/-- Where every node has a predecessor and a successor, all are between cycles. -/
theorem Trimmed.between (h : Trimmed g g')
    (hends : ∀ n ∈ g'.nodeList, inEdges g' n ≠ [] ∧ outEdges g' n ≠ []) :
    ∀ n, n ∈ g'.nodeList ↔ n ∈ g.nodeList ∧ Between (Adj g) n := by
  intro n
  constructor
  · intro hn
    refine ⟨h.sub n hn, ?_⟩
    apply between_of_neighbours (l := g'.nodeList) _ _ hn
    · intro x hx
      obtain ⟨e, he⟩ := List.exists_mem_of_ne_nil _ (hends x hx).1
      obtain ⟨hmem, rfl⟩ : e ∈ g'.edges ∧ e.dest = x := by simpa [inEdges] using he
      obtain ⟨hedge, hsrc, -⟩ := (h.edges e).1 hmem
      exact ⟨e.src, hsrc, e, hedge, rfl, rfl⟩
    · intro x hx
      obtain ⟨e, he⟩ := List.exists_mem_of_ne_nil _ (hends x hx).2
      obtain ⟨hmem, rfl⟩ := mem_outEdges.1 he
      obtain ⟨hedge, -, hdest⟩ := (h.edges e).1 hmem
      exact ⟨e.dest, hdest, e, hedge, rfl, rfl⟩
  · rintro ⟨hn, hbetween⟩
    exact h.kept n hn hbetween

theorem trimGraph_trimmed {g₀ : Graph} (hg : EdgesListed g₀) {fuel : ℕ}
    (h : Trimmed g₀ g) (hf : g.nodeList.length < fuel) :
    ∃ g', trimGraph fuel g = some g' ∧ Trimmed g₀ g' ∧
      ∀ n, n ∈ g'.nodeList ↔ n ∈ g₀.nodeList ∧ Between (Adj g₀) n := by
  induction fuel generalizing g with
  | zero => omega
  | succ fuel ih =>
    have hpass := trimPass_spec hg h
    unfold trimGraph
    split
    · next g₁ heq =>
      rw [heq] at hpass
      have hlt : g₁.nodeList.length < g.nodeList.length := hpass.removed rfl
      exact ih hpass.trimmed (by omega)
    · next g₁ heq =>
      rw [heq] at hpass
      obtain ⟨rfl, hends⟩ := hpass.same rfl
      exact ⟨g₁, rfl, h, h.between hends⟩

/-- Trimming ends, and leaves the nodes that can be reached from a cycle and can reach one, with the
edges between them. -/
theorem trimGraph_spec (hok : ListOk g) (hg : EdgesListed g) :
    ∃ g', trimGraph (g.nodeList.length + 1) g = some g' ∧ Trimmed g g' ∧
      ∀ n, n ∈ g'.nodeList ↔ n ∈ g.nodeList ∧ Between (Adj g) n :=
  trimGraph_trimmed hg (.refl hok hg) (Nat.lt_succ_self _)

end

end Metatup
