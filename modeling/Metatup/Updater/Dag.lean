import Metatup.Updater.Execute

/-!
# The partial DAG while it is executed

What the main thread does to the graph is a sequence of four moves: it throws a node back on the
node list, takes one out to have it worked on, pops it, or puts a failed one away. `DagInv g₀`
says what the graph looks like between them, in terms of the graph `g₀` that was built.

A node is unpopped, then (a transient file only) pending, that is, waiting to be removed, and then
gone. The edges of every intermediate graph are those of `g₀` up to these phases (`DagInv.adj`).

* `DagInv.requeue`, `DagInv.take`, `DagInv.pop`, `DagInv.putAway`: the four moves keep `DagInv`.
* `DagInv.start`: it holds of the graph `build_graph` leaves, once the root is off its list.
-/

set_option linter.unusedSectionVars false

namespace Metatup

/-- The node is in the graph and has not been popped. -/
def Unpopped (g : Graph) (n : TupId) : Prop := n ∈ g.nodeRoot ∧ (g.node n).transient ≠ .delete

/-- The node has been popped and waits to be removed. -/
def Pending (g : Graph) (n : TupId) : Prop := n ∈ g.nodeRoot ∧ (g.node n).transient = .delete

theorem Unpopped.not_pending {g : Graph} {n : TupId} (h : Unpopped g n) : ¬ Pending g n :=
  fun hp => h.2 hp.2

theorem unpopped_or_pending {g : Graph} {n : TupId} (h : n ∈ g.nodeRoot) :
    Unpopped g n ∨ Pending g n := by
  by_cases ht : (g.node n).transient = .delete
  · exact .inr ⟨h, ht⟩
  · exact .inl ⟨h, ht⟩

/-- The partial DAG that has become of `g₀`, while the nodes of `flight` are being worked on and
those in `bad` have failed. -/
structure DagInv (g₀ : Graph) (flight : List TupId) (bad : TupId → Prop) (g : Graph) : Prop where
  ok : ListOk g
  nodeRoot_nodup : g.nodeRoot.Nodup
  flight_nodup : flight.Nodup
  flight_live : ∀ n ∈ flight, n ∈ g.nodeRoot
  flight_list : ∀ n ∈ flight, (g.node n).activeList = .none
  live : ∀ n, n ∈ g.nodeList ∨ n ∈ g.plist → n ∈ g.nodeRoot
  place : ∀ n ∈ g.nodeRoot, n ∈ g.nodeList ∨ n ∈ g.plist ∨ n ∈ flight
  /-- What an edge points to is where its state says. -/
  dest : ∀ a b, Adj g a b → DestOk g b
  /-- The edges left, by phase. -/
  adj : ∀ a b, Adj g a b ↔ (Adj g₀ a b ∧ Unpopped g a) ∨ (Adj g₀ b a ∧ Pending g b ∧ Unpopped g a) ∨
    (Adj g₀ a b ∧ Pending g a ∧ Pending g b)
  succ : ∀ a b, Adj g₀ a b → Unpopped g a → Unpopped g b
  /-- Only a node that has something to wait for or has failed is on the node list. -/
  waits : ∀ n ∈ g.nodeList, (∃ a, Adj g a n) ∨ bad n
  bad_waits : ∀ n, bad n → n ∈ g.nodeList ∧ ∀ a, ¬ Adj g a n
  tent : ∀ n, (g.node n).tent = (g₀.node n).tent
  expanded : ∀ n, (g.node n).expanded = (g₀.node n).expanded
  skip : ∀ n, (g.node n).skip = (g₀.node n).skip
  transient : ∀ n, (g.node n).transient = (g₀.node n).transient ∨
    ((g₀.node n).transient = .processing ∧ (g.node n).transient = .delete)
  sub : ∀ n ∈ g.nodeRoot, n ∈ g₀.nodeRoot

namespace DagInv

variable {g₀ g g' : Graph} {flight flight' : List TupId} {bad : TupId → Prop} {n : TupId}

/-- The order of the nodes in flight does not matter. -/
theorem perm (h : DagInv g₀ flight bad g) (hp : flight.Perm flight') : DagInv g₀ flight' bad g where
  ok := h.ok
  nodeRoot_nodup := h.nodeRoot_nodup
  flight_nodup := hp.nodup_iff.1 h.flight_nodup
  flight_live m hm := h.flight_live m (hp.mem_iff.2 hm)
  flight_list m hm := h.flight_list m (hp.mem_iff.2 hm)
  live := h.live
  place m hm := (h.place m hm).imp_right (Or.imp_right hp.mem_iff.1)
  dest := h.dest
  adj := h.adj
  succ := h.succ
  waits := h.waits
  bad_waits := h.bad_waits
  tent := h.tent
  expanded := h.expanded
  skip := h.skip
  transient := h.transient
  sub := h.sub

theorem congr_bad {bad' : TupId → Prop} (h : DagInv g₀ flight bad g) (hb : ∀ m, bad m ↔ bad' m) :
    DagInv g₀ flight bad' g := by
  have : bad = bad' := funext fun m => propext (hb m)
  exact this ▸ h

section facts

variable (h : DagInv g₀ flight bad g)

include h

theorem list_of_dest {a b : TupId} (hab : Adj g a b) : b ∈ g.nodeList ∨ b ∈ g.plist :=
  (h.dest a b hab).imp And.left And.left

/-- Nothing points to a node in flight. -/
theorem flight_in (hn : n ∈ flight) (a : TupId) : ¬ Adj g a n := by
  intro ha
  have hnone := h.flight_list n hn
  rcases h.list_of_dest ha with hl | hl
  · simp [(h.ok.mem_nodeList n).1 hl] at hnone
  · simp [(h.ok.mem_plist n).1 hl] at hnone

theorem not_mem_list (hn : n ∈ flight) : n ∉ g.nodeList ∧ n ∉ g.plist := by
  have hnone := h.flight_list n hn
  refine ⟨fun hl => ?_, fun hl => ?_⟩
  · simp [(h.ok.mem_nodeList n).1 hl] at hnone
  · simp [(h.ok.mem_plist n).1 hl] at hnone

theorem not_flight (hn : n ∈ g.nodeList ∨ n ∈ g.plist) : n ∉ flight :=
  fun hf => hn.elim (h.not_mem_list hf).1 (h.not_mem_list hf).2

theorem not_bad (hn : n ∈ flight) : ¬ bad n := fun hb => (h.not_mem_list hn).1 (h.bad_waits n hb).1

/-- Both ends of an edge are in the graph. -/
theorem ends {a b : TupId} (hab : Adj g a b) : a ∈ g.nodeRoot ∧ b ∈ g.nodeRoot := by
  rcases (h.adj a b).1 hab with ⟨h0, ha⟩ | ⟨-, hb, ha⟩ | ⟨-, ha, hb⟩
  · exact ⟨ha.1, (h.succ a b h0 ha).1⟩
  · exact ⟨ha.1, hb.1⟩
  · exact ⟨ha.1, hb.1⟩

/-- When nothing points to a node, everything that pointed to it at the start has been popped. -/
theorem not_unpopped_of_in (hin : ∀ a, ¬ Adj g a n) {p : TupId} (hp : Adj g₀ p n) :
    ¬ Unpopped g p := fun hu => hin p ((h.adj p n).2 (.inl ⟨hp, hu⟩))

end facts

section frame

/-- Whatever leaves nodes and edges alone leaves the phases alone. -/
theorem phases_congr (hs : SameNodes g g') (m : TupId) :
    (Unpopped g' m ↔ Unpopped g m) ∧ (Pending g' m ↔ Pending g m) := by
  simp only [Unpopped, Pending, hs.nodeRoot, hs.transient, and_self]

/-- The parts of the invariant that do not speak of the lists. -/
theorem adj_congr (h : DagInv g₀ flight bad g) (hs : SameNodes g g') (he : g'.edges = g.edges) :
    (∀ a b, Adj g' a b ↔ Adj g a b) ∧
    (∀ a b, Adj g' a b ↔ (Adj g₀ a b ∧ Unpopped g' a) ∨
      (Adj g₀ b a ∧ Pending g' b ∧ Unpopped g' a) ∨ (Adj g₀ a b ∧ Pending g' a ∧ Pending g' b)) ∧
    ∀ a b, Adj g₀ a b → Unpopped g' a → Unpopped g' b := by
  have hadj : ∀ a b, Adj g' a b ↔ Adj g a b := fun a b => by simp only [Adj, he]
  refine ⟨hadj, fun a b => ?_, fun a b hab => ?_⟩
  · rw [hadj, h.adj]
    simp only [(phases_congr hs _).1, (phases_congr hs _).2]
  · rw [(phases_congr hs a).1, (phases_congr hs b).1]
    exact h.succ a b hab

end frame

/-! ### The moves -/

/-- A node that something points to goes from the plist to the node list.
Source: `updater.c` `execute_graph` -/
theorem requeue (h : DagInv g₀ flight bad g) (hn : n ∈ g.plist) (hin : ∃ a, Adj g a n) :
    ∃ g₁ g₂, nodeRemoveList .plist g n = some g₁ ∧ nodeInsertHead .nodeList g₁ n = some g₂ ∧
      DagInv g₀ flight bad (g₂.setState n .finished) ∧ g₂.plist.length + 1 = g.plist.length ∧
      SameNodes g (g₂.setState n .finished) ∧ (g₂.setState n .finished).edges = g.edges := by
  obtain ⟨g₁, h₁, hr, hnone⟩ := nodeRemoveList_spec .plist h.ok hn
  obtain ⟨g₂, h₂, hi, -⟩ := nodeInsertHead_spec .nodeList hr.ok hnone
  have hsame : SameNodes g g₂ := hr.same.trans hi.same
  have hlen : g₂.plist.length + 1 = g.plist.length := by
    rw [show g₂.plist = g₁.plist from hi.other .plist (by decide)]
    exact hr.length
  refine ⟨g₁, g₂, h₁, h₂, ?_, hlen, hsame.trans (setState_sameNodes _ _ _),
    hi.edges.trans hr.edges⟩
  have hs : SameNodes g (g₂.setState n .finished) := hsame.trans (setState_sameNodes _ _ _)
  have hedges : (g₂.setState n .finished).edges = g.edges := hi.edges.trans hr.edges
  obtain ⟨hadj, hadj', hsucc⟩ := h.adj_congr hs hedges
  have hnl : ∀ m, m ∈ (g₂.setState n .finished).nodeList ↔ m = n ∨ m ∈ g.nodeList := by
    intro m
    rw [show (g₂.setState n .finished).nodeList = g₂.list .nodeList from rfl, hi.mem,
      hr.other .nodeList (by decide)]
    rfl
  have hpl : ∀ m, m ∈ (g₂.setState n .finished).plist ↔ m ≠ n ∧ m ∈ g.plist := by
    intro m
    rw [show (g₂.setState n .finished).plist = g₂.list .plist from rfl,
      hi.other .plist (by decide), hr.mem]
    rfl
  have hst : ∀ m, m ≠ n → ((g₂.setState n .finished).node m).state = (g.node m).state := by
    intro m hm
    simp [Graph.setState, hm, hi.state, hr.state]
  have hnf : n ∉ flight := h.not_flight (.inr hn)
  have hok := hi.ok.setState n .finished
  refine ⟨hok, ?_, h.flight_nodup, ?_, ?_, ?_, ?_, ?_, hadj', hsucc, ?_, ?_,
    fun m => (hs.tent m).trans (h.tent m), fun m => (hs.expanded m).trans (h.expanded m),
    fun m => (hs.skip m).trans (h.skip m), fun m => ?_, ?_⟩
  · rw [hs.nodeRoot]; exact h.nodeRoot_nodup
  · rw [hs.nodeRoot]; exact h.flight_live
  · intro m hm
    have hmn : m ≠ n := fun hc => hnf (hc ▸ hm)
    refine hok.activeList_none ?_ ?_
    · rw [hnl]; exact fun hc => hc.elim hmn (h.not_mem_list hm).1
    · rw [hpl]; exact fun hc => (h.not_mem_list hm).2 hc.2
  · intro m hm
    rw [hnl, hpl] at hm
    rw [hs.nodeRoot]
    rcases hm with (rfl | hm) | ⟨-, hm⟩
    · exact h.live m (.inr hn)
    · exact h.live m (.inl hm)
    · exact h.live m (.inr hm)
  · intro m hm
    rw [hs.nodeRoot] at hm
    rw [hnl, hpl]
    by_cases hmn : m = n
    · exact .inl (.inl hmn)
    · rcases h.place m hm with hl | hl | hl
      · exact .inl (.inr hl)
      · exact .inr (.inl ⟨hmn, hl⟩)
      · exact .inr (.inr hl)
  · intro a b hab
    rw [hadj] at hab
    by_cases hbn : b = n
    · refine .inl ⟨(hnl b).2 (.inl hbn), ?_⟩
      simp [Graph.setState, hbn]
    · rcases h.dest a b hab with ⟨hl, hs'⟩ | ⟨hl, hs'⟩
      · exact .inl ⟨(hnl b).2 (.inr hl), by rw [hst b hbn]; exact hs'⟩
      · exact .inr ⟨(hpl b).2 ⟨hbn, hl⟩, by rw [hst b hbn]; exact hs'⟩
  · intro m hm
    simp only [hadj]
    rcases (hnl m).1 hm with rfl | hm
    · exact .inl hin
    · exact h.waits m hm
  · intro m hm
    obtain ⟨hl, hno⟩ := h.bad_waits m hm
    exact ⟨(hnl m).2 (.inr hl), fun a ha => hno a ((hadj a m).1 ha)⟩
  · rw [hs.transient]; exact h.transient m
  · rw [hs.nodeRoot]; exact h.sub

/-- A node nothing points to is taken from the plist.
Source: `updater.c` `execute_graph` -/
theorem take (h : DagInv g₀ flight bad g) (hn : n ∈ g.plist) (hin : ∀ a, ¬ Adj g a n) :
    ∃ g₁, nodeRemoveList .plist g n = some g₁ ∧ DagInv g₀ (n :: flight) bad g₁ ∧
      g₁.plist.length + 1 = g.plist.length ∧ SameNodes g g₁ ∧ g₁.edges = g.edges := by
  obtain ⟨g₁, h₁, hr, hnone⟩ := nodeRemoveList_spec .plist h.ok hn
  refine ⟨g₁, h₁, ?_, hr.length, hr.same, hr.edges⟩
  obtain ⟨hadj, hadj', hsucc⟩ := h.adj_congr hr.same hr.edges
  have hnl : g₁.nodeList = g.nodeList := hr.other .nodeList (by decide)
  have hpl : ∀ m, m ∈ g₁.plist ↔ m ≠ n ∧ m ∈ g.plist := hr.mem
  have hnf : n ∉ flight := h.not_flight (.inr hn)
  refine ⟨hr.ok, ?_, List.nodup_cons.2 ⟨hnf, h.flight_nodup⟩, ?_, ?_, ?_, ?_, ?_, hadj', hsucc,
    ?_, ?_, fun m => (hr.same.tent m).trans (h.tent m),
    fun m => (hr.same.expanded m).trans (h.expanded m),
    fun m => (hr.same.skip m).trans (h.skip m), fun m => ?_, ?_⟩
  · rw [hr.same.nodeRoot]; exact h.nodeRoot_nodup
  · intro m hm
    rw [hr.same.nodeRoot]
    rcases List.mem_cons.1 hm with rfl | hm
    · exact h.live m (.inr hn)
    · exact h.flight_live m hm
  · intro m hm
    rcases List.mem_cons.1 hm with rfl | hm
    · exact hnone
    · refine hr.ok.activeList_none ?_ ?_
      · rw [hnl]; exact (h.not_mem_list hm).1
      · rw [hpl]; exact fun hc => (h.not_mem_list hm).2 hc.2
  · intro m hm
    rw [hnl, hpl] at hm
    rw [hr.same.nodeRoot]
    exact h.live m (hm.imp_right And.right)
  · intro m hm
    rw [hr.same.nodeRoot] at hm
    rw [hnl, hpl, List.mem_cons]
    by_cases hmn : m = n
    · exact .inr (.inr (.inl hmn))
    · rcases h.place m hm with hl | hl | hl
      · exact .inl hl
      · exact .inr (.inl ⟨hmn, hl⟩)
      · exact .inr (.inr (.inr hl))
  · intro a b hab
    rw [hadj] at hab
    have hbn : b ≠ n := fun hc => hin a (hc ▸ hab)
    rcases h.dest a b hab with ⟨hl, hs'⟩ | ⟨hl, hs'⟩
    · exact .inl ⟨by rw [hnl]; exact hl, by rw [hr.state]; exact hs'⟩
    · exact .inr ⟨(hpl b).2 ⟨hbn, hl⟩, by rw [hr.state]; exact hs'⟩
  · intro m hm
    simp only [hadj]
    exact h.waits m (hnl ▸ hm)
  · intro m hm
    obtain ⟨hl, hno⟩ := h.bad_waits m hm
    exact ⟨by rw [hnl]; exact hl, fun a ha => hno a ((hadj a m).1 ha)⟩
  · rw [hr.same.transient]; exact h.transient m
  · rw [hr.same.nodeRoot]; exact h.sub

/-- A failed node goes to the end of the node list. Source: `updater.c` `execute_graph` -/
theorem putAway (h : DagInv g₀ (n :: flight) bad g) :
    ∃ g₁, nodeInsertTail .nodeList g n = some g₁ ∧
      DagInv g₀ flight (fun m => m = n ∨ bad m) g₁ ∧ g₁.plist = g.plist ∧ SameNodes g g₁ ∧
      g₁.edges = g.edges := by
  have hn : n ∈ n :: flight := List.mem_cons_self
  obtain ⟨hnf, hfnd⟩ := List.nodup_cons.1 h.flight_nodup
  obtain ⟨g₁, h₁, hi⟩ := nodeInsertTail_spec .nodeList h.ok (h.flight_list n hn)
  have hpl : g₁.plist = g.plist := hi.other .plist (by decide)
  refine ⟨g₁, h₁, ?_, hpl, hi.same, hi.edges⟩
  obtain ⟨hadj, hadj', hsucc⟩ := h.adj_congr hi.same hi.edges
  have hnl : ∀ m, m ∈ g₁.nodeList ↔ m = n ∨ m ∈ g.nodeList := hi.mem
  refine ⟨hi.ok, ?_, hfnd, ?_, ?_, ?_, ?_, ?_, hadj', hsucc,
    ?_, ?_, fun m => (hi.same.tent m).trans (h.tent m),
    fun m => (hi.same.expanded m).trans (h.expanded m),
    fun m => (hi.same.skip m).trans (h.skip m), fun m => ?_, ?_⟩
  · rw [hi.same.nodeRoot]; exact h.nodeRoot_nodup
  · intro m hm
    rw [hi.same.nodeRoot]
    exact h.flight_live m (List.mem_cons_of_mem _ hm)
  · intro m hm
    have hmn : m ≠ n := fun hc => hnf (hc ▸ hm)
    have hml := h.not_mem_list (List.mem_cons_of_mem _ hm)
    refine hi.ok.activeList_none ?_ ?_
    · rw [hnl]; exact fun hc => hc.elim hmn hml.1
    · rw [hpl]; exact hml.2
  · intro m hm
    rw [hnl, hpl] at hm
    rw [hi.same.nodeRoot]
    rcases hm with (rfl | hm) | hm
    · exact h.flight_live m hn
    · exact h.live m (.inl hm)
    · exact h.live m (.inr hm)
  · intro m hm
    rw [hi.same.nodeRoot] at hm
    rw [hnl, hpl]
    rcases h.place m hm with hl | hl | hl
    · exact .inl (.inr hl)
    · exact .inr (.inl hl)
    · rcases List.mem_cons.1 hl with hmn | hl
      · exact .inl (.inl hmn)
      · exact .inr (.inr hl)
  · intro a b hab
    rw [hadj] at hab
    rcases h.dest a b hab with ⟨hl, hs'⟩ | ⟨hl, hs'⟩
    · exact .inl ⟨(hnl b).2 (.inr hl), by rw [hi.state]; exact hs'⟩
    · exact .inr ⟨by rw [hpl]; exact hl, by rw [hi.state]; exact hs'⟩
  · intro m hm
    simp only [hadj]
    rcases (hnl m).1 hm with rfl | hm
    · exact .inr (.inl rfl)
    · exact (h.waits m hm).imp_right .inr
  · rintro m (rfl | hm)
    · exact ⟨(hnl m).2 (.inl rfl), fun a ha => h.flight_in hn a ((hadj a m).1 ha)⟩
    · obtain ⟨hl, hno⟩ := h.bad_waits m hm
      exact ⟨(hnl m).2 (.inr hl), fun a ha => hno a ((hadj a m).1 ha)⟩
  · rw [hi.same.transient]; exact h.transient m
  · rw [hi.same.nodeRoot]; exact h.sub

/-- The phases after a pop of `n`: a transient file becomes pending, any other node is gone, and
the other nodes stay what they are. -/
structure PhasesPopped (g g' : Graph) (n : TupId) : Prop where
  other : ∀ m, m ≠ n → (Unpopped g' m ↔ Unpopped g m) ∧ (Pending g' m ↔ Pending g m)
  self : ¬ Unpopped g' n ∧ (Pending g' n ↔ (g.node n).transient = .processing)

theorem phasesPopped (h : DagInv g₀ flight bad g) (hn : n ∈ flight) (hp : Popped g g' n) :
    PhasesPopped g g' n := by
  have hnd := h.nodeRoot_nodup
  have hlive := h.flight_live n hn
  by_cases ht : (g.node n).transient = .processing
  · obtain ⟨hroot, htr, -, -⟩ := hp.kept ht
    refine ⟨fun m hm => ?_, ?_⟩
    · simp only [Unpopped, Pending, hroot, hp.transient_of_ne m hm, and_self]
    · simp [Unpopped, Pending, hroot, htr, ht, hlive]
  · obtain ⟨hroot, -, -, -⟩ := hp.gone ht
    refine ⟨fun m hm => ?_, ?_⟩
    · simp only [Unpopped, Pending, hroot, hp.transient_of_ne m hm, hnd.mem_erase_iff, ne_eq, hm,
        not_false_eq_true, true_and, and_self]
    · simp [Unpopped, Pending, hroot, hnd.mem_erase_iff, ht]

/-- A node in flight is popped. Source: `updater.c` `pop_node` -/
theorem pop (h : DagInv g₀ (n :: flight) bad g) :
    ∃ g', popNode g n = some g' ∧ Popped g g' n ∧ DagInv g₀ flight bad g' ∧
      PhasesPopped g g' n := by
  have hn : n ∈ n :: flight := List.mem_cons_self
  obtain ⟨hnf, hfnd⟩ := List.nodup_cons.1 h.flight_nodup
  have hin := h.flight_in hn
  obtain ⟨g', hpop, hp⟩ := popNode_spec h.ok (h.flight_list n hn) (hin n) (h.dest n)
  have hph := h.phasesPopped hn hp
  refine ⟨g', hpop, hp, ?_, hph⟩
  have hmem : ∀ m, m ≠ n → (m ∈ g'.nodeRoot ↔ m ∈ g.nodeRoot) := by
    intro m hm
    by_cases ht : (g.node n).transient = .processing
    · rw [(hp.kept ht).1]
    · rw [(hp.gone ht).1, h.nodeRoot_nodup.mem_erase_iff]
      simp [hm]
  have hplace : ∀ m, m ≠ n → (m ∈ g'.nodeList ↔ m ∈ g.nodeList ∧ ¬ Adj g n m) ∧
      (m ∈ g'.plist ↔ m ∈ g.plist ∨ Adj g n m) := by
    intro m hm
    by_cases hnm : Adj g n m
    · have hd := (hp.dest m hnm).1
      exact ⟨by simp [hp.ok.not_mem_nodeList hd, hnm], by simp [hd, hnm]⟩
    · have hsp := hp.other m hm hnm
      simp [hsp.nodeList, hsp.plist, hnm]
  refine ⟨hp.ok, ?_, hfnd, ?_, ?_, ?_, ?_, ?_, ?_, ?_, ?_, ?_,
    fun m => (hp.tent m).trans (h.tent m), fun m => (hp.expanded m).trans (h.expanded m),
    fun m => (hp.skip m).trans (h.skip m), fun m => ?_, ?_⟩
  · by_cases ht : (g.node n).transient = .processing
    · rw [(hp.kept ht).1]; exact h.nodeRoot_nodup
    · rw [(hp.gone ht).1]; exact h.nodeRoot_nodup.erase n
  · intro m hm
    rw [hmem m fun hc => hnf (hc ▸ hm)]
    exact h.flight_live m (List.mem_cons_of_mem _ hm)
  · intro m hm
    have hmn : m ≠ n := fun hc => hnf (hc ▸ hm)
    have hml := h.not_mem_list (List.mem_cons_of_mem _ hm)
    refine hp.ok.activeList_none ?_ ?_
    · rw [(hplace m hmn).1]; exact fun hc => hml.1 hc.1
    · rw [(hplace m hmn).2]
      exact fun hc => hc.elim hml.2 (h.flight_in (List.mem_cons_of_mem _ hm) n)
  · intro m hm
    by_cases hmn : m = n
    · subst hmn
      by_cases ht : (g.node m).transient = .processing
      · rw [(hp.kept ht).1]; exact h.flight_live m hn
      · exact absurd hm (by simp [(hp.gone ht).2.2])
    · rw [hmem m hmn]
      rw [(hplace m hmn).1, (hplace m hmn).2] at hm
      rcases hm with hm | hm | hm
      · exact h.live m (.inl hm.1)
      · exact h.live m (.inr hm)
      · exact (h.ends hm).2
  · intro m hm
    by_cases hmn : m = n
    · subst hmn
      by_cases ht : (g.node m).transient = .processing
      · rcases (hp.kept ht).2.2.2 with hl | hl
        · exact .inl hl.1
        · exact .inr (.inl hl.1)
      · rw [(hp.gone ht).1, h.nodeRoot_nodup.mem_erase_iff] at hm
        exact absurd rfl hm.1
    · rw [hmem m hmn] at hm
      rw [(hplace m hmn).1, (hplace m hmn).2]
      rcases h.place m hm with hl | hl | hl
      · by_cases hnm : Adj g n m
        · exact .inr (.inl (.inr hnm))
        · exact .inl ⟨hl, hnm⟩
      · exact .inr (.inl (.inl hl))
      · exact .inr (.inr ((List.mem_cons.1 hl).resolve_left hmn))
  · intro a b hab
    rcases (hp.adj a b).1 hab with ⟨-, hab'⟩ | ⟨ht, rfl, hba⟩
    · have hbn : b ≠ n := fun hc => hin a (hc ▸ hab')
      by_cases hnb : Adj g n b
      · exact destOk_of_plist (hp.dest b hnb)
      · exact (hp.other b hbn hnb).destOk.2 (h.dest a b hab')
    · obtain ⟨-, -, hst, hl | hl⟩ := hp.kept ht
      · exact .inl ⟨hl.1, by rw [hst]; decide⟩
      · exact absurd hba (hl.2 a)
  · -- the edges, by the phases of the two ends
    intro a b
    have hself := hph.self
    rw [hp.adj]
    have hU : ∀ x, Adj g₀ x n → ¬ Unpopped g x := fun x => h.not_unpopped_of_in hin
    have hnP : Pending g n → ∀ x, Adj g₀ n x → ¬ Unpopped g x :=
      fun hpn x hx hux => hin x ((h.adj x n).2 (.inr (.inl ⟨hx, hpn, hux⟩)))
    have hnPP : Pending g n → ∀ x, Adj g₀ x n → ¬ Pending g x :=
      fun hpn x hx hux => hin x ((h.adj x n).2 (.inr (.inr ⟨hx, hux, hpn⟩)))
    have hn0 : ¬ Adj g₀ n n := fun hc => by
      rcases unpopped_or_pending (h.flight_live n hn) with hu | hpn
      · exact hU n hc hu
      · exact hnPP hpn n hc hpn
    have hphase : (g.node n).transient = .processing → Unpopped g n :=
      fun ht => ⟨h.flight_live n hn, by rw [ht]; decide⟩
    by_cases han : a = n
    · subst han
      have hno : ¬ Adj g a a := hin a
      simp only [ne_eq, not_true, false_and, false_or, hself.1, and_false]
      constructor
      · rintro ⟨-, rfl, hba⟩
        exact absurd hba hno
      · rintro ⟨h0, hpa, hpb⟩
        have hba : b ≠ a := fun hc => hn0 (hc ▸ h0)
        have hub := h.succ a b h0 (hphase (hself.2.1 hpa))
        exact absurd ((hph.other b hba).2.1 hpb) hub.not_pending
    · have hpha := hph.other a han
      by_cases hbn : b = n
      · subst hbn
        simp only [ne_eq, han, not_false_eq_true, true_and, hin a, false_or, hpha.1, hpha.2,
          hself.2]
        rw [h.adj]
        constructor
        · rintro ⟨ht, ⟨h0, hu⟩ | ⟨h0, hpa, hu⟩ | ⟨h0, hpb, hpa⟩⟩
          · exact .inr (.inl ⟨h0, ht, h.succ b a h0 hu⟩)
          · exact .inr (.inr ⟨h0, hpa, ht⟩)
          · exact absurd hpb (hphase ht).not_pending
        · rintro (⟨h0, hu⟩ | ⟨h0, ht, hu⟩ | ⟨h0, hpa, ht⟩)
          · exact absurd hu (hU a h0)
          · exact ⟨ht, .inl ⟨h0, hphase ht⟩⟩
          · exact ⟨ht, .inr (.inl ⟨h0, hpa, hphase ht⟩)⟩
      · have hphb := hph.other b hbn
        simp only [ne_eq, han, not_false_eq_true, true_and, hbn, false_and, and_false, or_false,
          hpha.1, hpha.2, hphb.2]
        exact h.adj a b
  · intro a b hab hu
    have han : a ≠ n := fun hc => hph.self.1 (hc ▸ hu)
    rw [(hph.other a han).1] at hu
    have hbn : b ≠ n := by
      rintro rfl
      exact h.not_unpopped_of_in hin hab hu
    rw [(hph.other b hbn).1]
    exact h.succ a b hab hu
  · intro m hm
    by_cases hmn : m = n
    · subst hmn
      by_cases ht : (g.node m).transient = .processing
      · rcases (hp.kept ht).2.2.2 with ⟨-, b, hb⟩ | hl
        · exact .inl ⟨b, (hp.adj b m).2 (.inr ⟨ht, rfl, hb⟩)⟩
        · exact absurd hm (hp.ok.not_mem_nodeList hl.1)
      · exact absurd hm (hp.gone ht).2.2.1
    · rw [(hplace m hmn).1] at hm
      refine (h.waits m hm.1).imp_left ?_
      rintro ⟨a, ha⟩
      exact ⟨a, (hp.adj a m).2 (.inl ⟨fun hc => hm.2 (hc ▸ ha), ha⟩)⟩
  · intro m hm
    have hmn : m ≠ n := fun hc => h.not_bad hn (hc ▸ hm)
    obtain ⟨hl, hno⟩ := h.bad_waits m hm
    refine ⟨(hplace m hmn).1.2 ⟨hl, hno n⟩, fun a ha => ?_⟩
    rcases (hp.adj a m).1 ha with ⟨-, ha⟩ | ⟨-, hc, -⟩
    · exact hno a ha
    · exact hmn hc
  · by_cases hmn : m = n
    · subst hmn
      by_cases ht : (g.node m).transient = .processing
      · have h0 : (g₀.node m).transient = .processing := by
          rcases h.transient m with h0 | h0
          · exact h0.symm.trans ht
          · exact h0.1
        exact .inr ⟨h0, (hp.kept ht).2.1⟩
      · rw [(hp.gone ht).2.1]; exact h.transient m
    · rw [hp.transient_of_ne m hmn]; exact h.transient m
  · intro m hm
    by_cases hmn : m = n
    · exact h.sub m (hmn ▸ h.flight_live n hn)
    · exact h.sub m ((hmem m hmn).1 hm)

/-- The graph `build_graph` leaves, with the root taken off the node list.
Source: `updater.c` `execute_graph`, before the first `pop_node` -/
theorem start {root : TupId} (hb : BuiltGraph g₀ root) :
    ∃ g₁, nodeRemoveList .nodeList g₀ root = some g₁ ∧ DagInv g₀ [root] (fun _ => False) g₁ ∧
      g₁.plist = [] ∧ SameNodes g₀ g₁ := by
  obtain ⟨l, hl⟩ := hb.nodeList
  have hroot : root ∈ g₀.nodeList := by rw [hl]; exact List.mem_cons_self
  obtain ⟨g₁, h₁, hr, hnone⟩ := nodeRemoveList_spec .nodeList hb.ok hroot
  have hpl : g₁.plist = [] := (hr.other .plist (by decide)).trans hb.plist
  refine ⟨g₁, h₁, ?_, hpl, hr.same⟩
  have hnl : ∀ m, m ∈ g₁.nodeList ↔ m ≠ root ∧ m ∈ g₀.nodeList := hr.mem
  have hadj : ∀ a b, Adj g₁ a b ↔ Adj g₀ a b := fun a b => by simp only [Adj, hr.edges]
  have hU : ∀ m, Unpopped g₁ m ↔ m ∈ g₀.nodeRoot := by
    intro m
    simp [Unpopped, hr.same.nodeRoot, hr.same.transient, hb.transient]
  have hP : ∀ m, ¬ Pending g₁ m := by
    intro m
    simp [Pending, hr.same.transient, hb.transient]
  refine ⟨hr.ok, ?_, List.nodup_singleton root, ?_, ?_, ?_, ?_, ?_, ?_, ?_, ?_,
    fun _ hc => hc.elim, hr.same.tent, hr.same.expanded, hr.same.skip,
    fun m => .inl (hr.same.transient m), ?_⟩
  · rw [hr.same.nodeRoot]; exact hb.nodeRoot_nodup
  · intro m hm
    rw [List.mem_singleton.1 hm, hr.same.nodeRoot]
    exact (hb.mem_nodeRoot root).2 hroot
  · intro m hm
    rw [List.mem_singleton.1 hm]
    exact hnone
  · intro m hm
    rw [hnl, hpl] at hm
    rw [hr.same.nodeRoot]
    exact (hb.mem_nodeRoot m).2 (hm.resolve_right (by simp)).2
  · intro m hm
    rw [hr.same.nodeRoot] at hm
    by_cases hmr : m = root
    · exact .inr (.inr (by simp [hmr]))
    · exact .inl ((hnl m).2 ⟨hmr, (hb.mem_nodeRoot m).1 hm⟩)
  · intro a b hab
    rw [hadj] at hab
    have hbr : b ≠ root := fun hc => hb.root_in a (hc ▸ hab)
    exact .inl ⟨(hnl b).2 ⟨hbr, (hb.mem_nodeRoot b).1 (hb.ends a b hab).2⟩,
      by rw [hr.state]; exact hb.state b⟩
  · intro a b
    simp only [hadj, hU, hP, false_and, and_false, or_false]
    exact ⟨fun hab => ⟨hab, (hb.ends a b hab).1⟩, And.left⟩
  · intro a b hab _
    exact (hU b).2 (hb.ends a b hab).2
  · intro m hm
    rw [hnl] at hm
    simp only [hadj]
    exact .inl (hb.has_in m ((hb.mem_nodeRoot m).2 hm.2) hm.1)
  · rw [hr.same.nodeRoot]
    exact fun _ hm => hm

end DagInv

end Metatup
