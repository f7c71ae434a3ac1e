import Metatup.Graph.Lists

/-!
# Popping a node

`popNode` takes a finished node out of the DAG. The loop moves every destination to the plist and
removes the edge; for a file that is to be removed later (`TRANSIENT_PROCESSING`) it turns the edge
around instead, so that the file waits for the commands that read it.

* `popNode_spec`: on a node that is on no list, has no incoming edge, and whose destinations are
  where their state says, the pop succeeds, and `Popped` says everything it does.
-/

set_option linter.unusedSectionVars false

namespace Metatup

/-- Put the node back on the plist, and mark it as such by changing the state.
Source: `updater.c` `pop_node`, the first `if` of the loop -/
def requeueDest (g : Graph) (b : TupId) : Option Graph :=
  if (g.node b).state ≠ .processing then do
    let g ← nodeRemoveList .nodeList g b
    let g ← nodeInsertHead .plist g b
    some (g.setState b .processing)
  else some g

/-- One turn of the loop of `popNode`, for the first edge `e` of `n->edges`.
Source: `updater.c` `pop_node` -/
def popEdge (g : Graph) (n : TupId) (e : Edge) : Option Graph := do
  let g ← requeueDest g e.dest
  -- flip the edge of a transient file, so that the reader now points to it
  let g := if (g.node n).transient = .processing then createEdge g e.dest n .normal else g
  some (removeEdge g e)

/-- `while(!LIST_EMPTY(&n->edges))`, for at most as many turns as the list has edges at the start.
An edge from `n` to itself would be put back for ever; running out of turns counts as the error.
Source: `updater.c` `pop_node` -/
def popEdges (n : TupId) : ℕ → Graph → Option Graph
  | 0, g => if (outEdges g n).isEmpty then some g else .none
  | k + 1, g =>
      match outEdges g n with
      | [] => some g
      | e :: _ => popEdge g n e >>= popEdges n k

/-- Source: `updater.c` `pop_node` -/
def popNode (g : Graph) (n : TupId) : Option Graph := do
  let hasEdges := !(outEdges g n).isEmpty
  let g ← popEdges n (outEdges g n).length g
  if (g.node n).transient = .processing then do
    -- wait for the readers, or be removed at once when there are none
    let g ← nodeInsertHead (if hasEdges then .nodeList else .plist) g n
    some (g.setNode n { g.node n with state := .finished, transient := .delete })
  else some (removeNode g n)

/-- A node is on the list that its state names: the plist when it is `STATE_PROCESSING`, the node
list otherwise. -/
def DestOk (g : Graph) (b : TupId) : Prop :=
  (b ∈ g.nodeList ∧ (g.node b).state ≠ .processing) ∨
    (b ∈ g.plist ∧ (g.node b).state = .processing)

/-- The lists and the state of a node are as they were. -/
structure SamePlace (g g' : Graph) (j : TupId) : Prop where
  nodeList : j ∈ g'.nodeList ↔ j ∈ g.nodeList
  plist : j ∈ g'.plist ↔ j ∈ g.plist
  state : (g'.node j).state = (g.node j).state

namespace SamePlace

theorem trans {g g' g'' : Graph} {j : TupId} (h : SamePlace g g' j) (h' : SamePlace g' g'' j) :
    SamePlace g g'' j :=
  ⟨h'.nodeList.trans h.nodeList, h'.plist.trans h.plist, h'.state.trans h.state⟩

theorem destOk {g g' : Graph} {j : TupId} (h : SamePlace g g' j) : DestOk g' j ↔ DestOk g j := by
  simp only [DestOk, h.nodeList, h.plist, h.state]

end SamePlace

theorem destOk_of_plist {g : Graph} {b : TupId} (h : b ∈ g.plist ∧ (g.node b).state = .processing) :
    DestOk g b := .inr h

/-! ### One edge -/

/-- What one turn of the loop does. -/
structure EdgePopped (g g' : Graph) (n : TupId) (e : Edge) : Prop where
  ok : ListOk g'
  same : SameNodes g g'
  edges : g'.edges = (if (g.node n).transient = .processing then
    ⟨e.dest, n, .normal⟩ :: g.edges else g.edges).erase e
  dest : e.dest ∈ g'.plist ∧ (g'.node e.dest).state = .processing
  other : ∀ j, j ≠ e.dest → SamePlace g g' j

/-- Whether it waited or not, the destination ends up on the plist. -/
theorem requeueDest_spec {g : Graph} (h : ListOk g) {b : TupId} (hb : DestOk g b) :
    ∃ g', requeueDest g b = some g' ∧ ListOk g' ∧ SameNodes g g' ∧ g'.edges = g.edges ∧
        (b ∈ g'.plist ∧ (g'.node b).state = .processing) ∧ ∀ j, j ≠ b → SamePlace g g' j := by
  rcases hb with ⟨hmem, hst⟩ | ⟨hmem, hst⟩
  · obtain ⟨g₁, h₁, hr, hnone⟩ := nodeRemoveList_spec .nodeList h hmem
    obtain ⟨g₂, h₂, hi, -⟩ := nodeInsertHead_spec .plist hr.ok hnone
    refine ⟨g₂.setState b .processing, ?_, hi.ok.setState _ _,
      (hr.same.trans hi.same).trans (setState_sameNodes _ _ _), ?_, ⟨?_, ?_⟩, ?_⟩
    · rw [requeueDest, if_pos hst]
      simp only [h₁, h₂, Option.bind_eq_bind, Option.bind_some]
    · exact hi.edges.trans hr.edges
    · exact (hi.mem b).2 (.inl rfl)
    · simp [Graph.setState]
    · intro j hj
      refine ⟨?_, ?_, ?_⟩
      · have h1 : j ∈ g₂.nodeList ↔ j ∈ g₁.nodeList := by
          rw [show g₂.nodeList = g₁.nodeList from hi.other .nodeList (by decide)]
        have h2 : j ∈ g₁.nodeList ↔ j ≠ b ∧ j ∈ g.nodeList := hr.mem j
        simp [Graph.setState, h1, h2, hj]
      · have h1 : j ∈ g₂.plist ↔ j = b ∨ j ∈ g₁.plist := hi.mem j
        have h2 : g₁.plist = g.plist := hr.other .plist (by decide)
        simp [Graph.setState, h1, h2, hj]
      · simp [Graph.setState, hj, hi.state, hr.state]
  · refine ⟨g, by simp [requeueDest, hst], h, .refl g, rfl, ⟨hmem, hst⟩, ?_⟩
    exact fun j _ => ⟨Iff.rfl, Iff.rfl, rfl⟩

theorem popEdge_spec {g : Graph} (h : ListOk g) {n : TupId} {e : Edge} (hb : DestOk g e.dest) :
    ∃ g', popEdge g n e = some g' ∧ EdgePopped g g' n e := by
  obtain ⟨g₁, h₁, hok, hsame, hedges, hdest, hother⟩ := requeueDest_spec h hb
  have hpop : popEdge g n e = some (removeEdge (if (g₁.node n).transient = .processing then
      createEdge g₁ e.dest n .normal else g₁) e) := by
    simp only [popEdge, h₁, Option.bind_eq_bind, Option.bind_some]
  refine ⟨_, hpop, ?_⟩
  by_cases ht : (g₁.node n).transient = .processing
  · have ht' : (g.node n).transient = .processing := by rw [← hsame.transient]; exact ht
    simp only [if_pos ht]
    refine ⟨⟨hok.1, hok.2, hok.3, hok.4⟩, ⟨hsame.1, hsame.2, hsame.3, hsame.4, hsame.5⟩, ?_, hdest,
      fun j hj => ⟨(hother j hj).1, (hother j hj).2, (hother j hj).3⟩⟩
    simp only [if_pos ht', removeEdge, createEdge, hedges]
  · have ht' : (g.node n).transient ≠ .processing := by rw [← hsame.transient]; exact ht
    simp only [if_neg ht]
    refine ⟨⟨hok.1, hok.2, hok.3, hok.4⟩, ⟨hsame.1, hsame.2, hsame.3, hsame.4, hsame.5⟩, ?_, hdest,
      fun j hj => ⟨(hother j hj).1, (hother j hj).2, (hother j hj).3⟩⟩
    simp only [if_neg ht', removeEdge, hedges]

section edgePopped

variable {g g' : Graph} {n : TupId} {e : Edge} (hp : EdgePopped g g' n e) (he : e ∈ g.edges)
  (hs : e.src = n) (hd : e.dest ≠ n)

include hp he hs hd

/-- The loop has one edge less to go. -/
theorem EdgePopped.length :
    (outEdges g n).length = (outEdges g' n).length + 1 := by
  have hmem : e ∈ (if (g.node n).transient = .processing then
      ⟨e.dest, n, .normal⟩ :: g.edges else g.edges) := by
    split <;> simp [he]
  have hperm := (List.perm_cons_erase hmem).filter (·.src = n)
  rw [← hp.edges] at hperm
  have hold : (outEdges g n).length = ((if (g.node n).transient = .processing then
      (⟨e.dest, n, .normal⟩ : Edge) :: g.edges else g.edges).filter (·.src = n)).length := by
    rw [outEdges]
    split <;> simp [hd]
  rw [hold, hperm.length_eq, List.filter_cons_of_pos (by simpa using hs), List.length_cons, outEdges]

/-- Which edges there are after one turn. -/
theorem EdgePopped.adj_of_ne {a b : TupId} (ha : a ≠ n) :
    Adj g' a b ↔ Adj g a b ∨ ((g.node n).transient = .processing ∧ a = e.dest ∧ b = n) := by
  have hne : ∀ f : Edge, f.src = a → f ≠ e := fun f hf hfe => ha (hf.symm.trans (hfe ▸ hs))
  simp only [Adj, hp.edges]
  constructor
  · rintro ⟨f, hf, hfa, hfb⟩
    have hf' := List.mem_of_mem_erase hf
    split at hf'
    next ht =>
      rcases List.mem_cons.1 hf' with rfl | hf'
      · exact .inr ⟨ht, hfa.symm, hfb.symm⟩
      · exact .inl ⟨f, hf', hfa, hfb⟩
    next => exact .inl ⟨f, hf', hfa, hfb⟩
  · rintro (⟨f, hf, hfa, hfb⟩ | ⟨ht, rfl, rfl⟩)
    · refine ⟨f, (List.mem_erase_of_ne (hne f hfa)).2 ?_, hfa, hfb⟩
      split <;> simp [hf]
    · refine ⟨⟨e.dest, b, .normal⟩, (List.mem_erase_of_ne (hne _ rfl)).2 ?_, rfl, rfl⟩
      simp [ht]

theorem EdgePopped.adj_self {b : TupId} :
    (Adj g' n b → Adj g n b) ∧ (Adj g n b → b = e.dest ∨ Adj g' n b) := by
  simp only [Adj, hp.edges]
  constructor
  · rintro ⟨f, hf, hfa, hfb⟩
    have hf' := List.mem_of_mem_erase hf
    split at hf'
    next =>
      rcases List.mem_cons.1 hf' with rfl | hf'
      · exact absurd hfa hd
      · exact ⟨f, hf', hfa, hfb⟩
    next => exact ⟨f, hf', hfa, hfb⟩
  · rintro ⟨f, hf, hfa, hfb⟩
    by_cases hfe : f = e
    · exact .inl (hfb.symm.trans (hfe ▸ rfl))
    · refine .inr ⟨f, (List.mem_erase_of_ne hfe).2 ?_, hfa, hfb⟩
      split <;> simp [hf]

end edgePopped

/-! ### All edges -/

/-- What the whole loop does. -/
structure EdgesPopped (g g' : Graph) (n : TupId) : Prop where
  ok : ListOk g'
  same : SameNodes g g'
  adj : ∀ a b, Adj g' a b ↔
    (a ≠ n ∧ Adj g a b) ∨ ((g.node n).transient = .processing ∧ b = n ∧ Adj g n a)
  dest : ∀ b, Adj g n b → b ∈ g'.plist ∧ (g'.node b).state = .processing
  other : ∀ j, ¬ Adj g n j → SamePlace g g' j

theorem EdgesPopped.nil {g : Graph} (h : ListOk g) {n : TupId} (hn : outEdges g n = []) :
    EdgesPopped g g n := by
  rw [outEdges_eq_nil] at hn
  refine ⟨h, .refl g, fun a b => ?_, fun b hb => absurd hb (hn b), fun j _ => ⟨.rfl, .rfl, rfl⟩⟩
  constructor
  · intro hab
    refine .inl ⟨?_, hab⟩
    rintro rfl
    exact hn b hab
  · rintro (⟨-, hab⟩ | ⟨-, -, hna⟩)
    · exact hab
    · exact absurd hna (hn a)

/-- The loop ends, because every turn removes an edge and adds none to `n->edges`. -/
theorem popEdges_spec {n : TupId} (k : ℕ) {g : Graph} (hk : (outEdges g n).length = k)
    (h : ListOk g) (hself : ¬ Adj g n n) (hd : ∀ b, Adj g n b → DestOk g b) :
    ∃ g', popEdges n k g = some g' ∧ EdgesPopped g g' n := by
  induction k generalizing g with
  | zero =>
    have hnil : outEdges g n = [] := List.eq_nil_of_length_eq_zero hk
    exact ⟨g, by simp [popEdges, hnil], .nil h hnil⟩
  | succ k ih =>
    match hout : outEdges g n with
    | [] => simp [hout] at hk
    | e :: es =>
      obtain ⟨he, hsrc⟩ : e ∈ g.edges ∧ e.src = n := mem_outEdges.1 (by rw [hout]; simp)
      have hadj : Adj g n e.dest := ⟨e, he, hsrc, rfl⟩
      have hne : e.dest ≠ n := fun hc => hself (hc ▸ hadj)
      obtain ⟨g₁, h₁, hp⟩ := popEdge_spec (n := n) h (hd _ hadj)
      have hlen : (outEdges g₁ n).length = k := by
        have := hp.length he hsrc hne
        omega
      have hself₁ : ¬ Adj g₁ n n := fun hc => hself ((hp.adj_self he hsrc hne).1 hc)
      have hd₁ : ∀ b, Adj g₁ n b → DestOk g₁ b := by
        intro b hb
        by_cases hbe : b = e.dest
        · exact hbe ▸ destOk_of_plist hp.dest
        · exact (hp.other b hbe).destOk.2 (hd b ((hp.adj_self he hsrc hne).1 hb))
      obtain ⟨g', h', hps⟩ := ih hlen hp.ok hself₁ hd₁
      refine ⟨g', by simp [popEdges, hout, h₁, h'], hps.ok, hp.same.trans hps.same, ?_, ?_, ?_⟩
      · intro a b
        have hsplit : Adj g n a ↔ a = e.dest ∨ Adj g₁ n a :=
          ⟨(hp.adj_self he hsrc hne).2,
            fun hc => hc.elim (fun hc => hc ▸ hadj) (hp.adj_self he hsrc hne).1⟩
        rw [hps.adj, hp.same.transient]
        by_cases ha : a = n
        · subst ha
          simp only [ne_eq, not_true, false_and, false_or, hself, hself₁, and_false]
        · rw [hp.adj_of_ne he hsrc hne ha, hsplit]
          tauto
      · intro b hb
        by_cases hb₁ : Adj g₁ n b
        · exact hps.dest b hb₁
        · have hbe : b = e.dest := ((hp.adj_self he hsrc hne).2 hb).resolve_right hb₁
          have hsp := hps.other b hb₁
          subst hbe
          exact ⟨hsp.plist.2 hp.dest.1, hsp.state.trans hp.dest.2⟩
      · intro j hj
        have hje : j ≠ e.dest := fun hc => hj (hc ▸ hadj)
        exact (hp.other j hje).trans
          (hps.other j fun hc => hj ((hp.adj_self he hsrc hne).1 hc))

/-! ### The pop -/

/-- What a pop of `n` does. A file that is to be removed later stays, turned into a
`TRANSIENT_DELETE` node that waits for the nodes it pointed to; any other node leaves the graph. -/
structure Popped (g g' : Graph) (n : TupId) : Prop where
  ok : ListOk g'
  tent : ∀ i, (g'.node i).tent = (g.node i).tent
  expanded : ∀ i, (g'.node i).expanded = (g.node i).expanded
  skip : ∀ i, (g'.node i).skip = (g.node i).skip
  transient_of_ne : ∀ i, i ≠ n → (g'.node i).transient = (g.node i).transient
  dest : ∀ b, Adj g n b → b ∈ g'.plist ∧ (g'.node b).state = .processing
  other : ∀ j, j ≠ n → ¬ Adj g n j → SamePlace g g' j
  adj : ∀ a b, Adj g' a b ↔
    (a ≠ n ∧ Adj g a b) ∨ ((g.node n).transient = .processing ∧ b = n ∧ Adj g n a)
  kept : (g.node n).transient = .processing → g'.nodeRoot = g.nodeRoot ∧
    (g'.node n).transient = .delete ∧ (g'.node n).state = .finished ∧
    ((n ∈ g'.nodeList ∧ ∃ b, Adj g n b) ∨ (n ∈ g'.plist ∧ ∀ b, ¬ Adj g n b))
  gone : (g.node n).transient ≠ .processing → g'.nodeRoot = g.nodeRoot.erase n ∧
    (g'.node n).transient = (g.node n).transient ∧ n ∉ g'.nodeList ∧ n ∉ g'.plist

/-- Source: `updater.c` `pop_node`: it does not fail on a node that is on no list, has no edge to
itself, and whose destinations are where their state says. -/
theorem popNode_spec {g : Graph} {n : TupId} (h : ListOk g) (hn : (g.node n).activeList = .none)
    (hself : ¬ Adj g n n) (hd : ∀ b, Adj g n b → DestOk g b) :
    ∃ g', popNode g n = some g' ∧ Popped g g' n := by
  obtain ⟨g₁, h₁, hp⟩ := popEdges_spec _ rfl h hself hd
  have hplace := hp.other n hself
  have hn₁ : (g₁.node n).activeList = .none := by
    refine hp.ok.activeList_none ?_ ?_
    · rw [hplace.nodeList, h.mem_nodeList, hn]; decide
    · rw [hplace.plist, h.mem_plist, hn]; decide
  by_cases ht : (g.node n).transient = .processing
  · have ht₁ : (g₁.node n).transient = .processing := (hp.same.transient n).trans ht
    -- the list the node waits on, and what that list means
    obtain ⟨l, hl, hl'⟩ : ∃ l, (if (!(outEdges g n).isEmpty) = true then ListId.nodeList else .plist)
        = l ∧ ((l = .nodeList ∧ ∃ b, Adj g n b) ∨ (l = .plist ∧ ∀ b, ¬ Adj g n b)) := by
      by_cases hnil : outEdges g n = []
      · exact ⟨.plist, by simp [hnil], .inr ⟨rfl, outEdges_eq_nil.1 hnil⟩⟩
      · refine ⟨.nodeList, by simp [hnil], .inl ⟨rfl, ?_⟩⟩
        by_contra hc
        exact hnil (outEdges_eq_nil.2 fun b hb => hc ⟨b, hb⟩)
    obtain ⟨g₂, h₂, hi, -⟩ := nodeInsertHead_spec l hp.ok hn₁
    refine ⟨g₂.setNode n { g₂.node n with state := .finished, transient := .delete }, ?_, ?_⟩
    · simp only [popNode, h₁, Option.bind_eq_bind, Option.bind_some, ht₁, if_true, hl, h₂]
    have hother : ∀ j, j ≠ n → ((j ∈ g₂.nodeList ↔ j ∈ g₁.nodeList) ∧
        (j ∈ g₂.plist ↔ j ∈ g₁.plist)) := by
      intro j hj
      have ho := hi.other
      cases l
      · have hm : j ∈ g₂.nodeList ↔ j = n ∨ j ∈ g₁.nodeList := hi.mem j
        exact ⟨by simpa [hj] using hm, by rw [show g₂.plist = g₁.plist from ho .plist (by decide)]⟩
      · have hm : j ∈ g₂.plist ↔ j = n ∨ j ∈ g₁.plist := hi.mem j
        exact ⟨by rw [show g₂.nodeList = g₁.nodeList from ho .nodeList (by decide)],
          by simpa [hj] using hm⟩
    have hnmem : n ∈ g₂.list l := (hi.mem n).2 (.inl rfl)
    constructor
    · constructor
      · exact hi.ok.nodeList_nodup
      · exact hi.ok.plist_nodup
      · intro j
        simp only [setNode_nodeList, setNode_node, hi.ok.mem_nodeList]
        split <;> simp_all
      · intro j
        simp only [setNode_plist, setNode_node, hi.ok.mem_plist]
        split <;> simp_all
    · intro i
      rw [← hp.same.tent, ← hi.same.tent]
      simp only [setNode_node]
      split <;> simp_all
    · intro i
      rw [← hp.same.expanded, ← hi.same.expanded]
      simp only [setNode_node]
      split <;> simp_all
    · intro i
      rw [← hp.same.skip, ← hi.same.skip]
      simp only [setNode_node]
      split <;> simp_all
    · intro i hin
      rw [← hp.same.transient, ← hi.same.transient]
      simp [hin]
    · intro b hb
      have hbn : b ≠ n := fun hc => hself (hc ▸ hb)
      obtain ⟨hb1, hb2⟩ := hp.dest b hb
      refine ⟨(hother b hbn).2.2 hb1, ?_⟩
      simp [hbn, hi.state, hb2]
    · intro j hj hnj
      have hsp := hp.other j hnj
      refine ⟨(hother j hj).1.trans hsp.nodeList, (hother j hj).2.trans hsp.plist, ?_⟩
      simp [hj, hi.state, hsp.state]
    · intro a b
      rw [← hp.adj]
      simp only [Adj, setNode_edges, hi.edges]
    · intro _
      refine ⟨hi.same.nodeRoot.trans hp.same.nodeRoot, by simp, by simp, ?_⟩
      rcases hl' with ⟨rfl, hex⟩ | ⟨rfl, hno⟩
      · exact .inl ⟨hnmem, hex⟩
      · exact .inr ⟨hnmem, hno⟩
    · exact fun hc => absurd ht hc
  · have ht₁ : ¬ (g₁.node n).transient = .processing := fun hc => ht ((hp.same.transient n).symm.trans hc)
    refine ⟨removeNode g₁ n, ?_, ?_⟩
    · simp only [popNode, h₁, Option.bind_eq_bind, Option.bind_some, ht₁, if_false]
    constructor
    · exact ⟨hp.ok.1, hp.ok.2, hp.ok.3, hp.ok.4⟩
    · exact hp.same.tent
    · exact hp.same.expanded
    · exact hp.same.skip
    · exact fun i _ => hp.same.transient i
    · exact hp.dest
    · exact fun j _ hnj => ⟨(hp.other j hnj).1, (hp.other j hnj).2, (hp.other j hnj).3⟩
    · exact hp.adj
    · exact fun hc => absurd hc ht
    · intro _
      refine ⟨by simp only [removeNode, hp.same.nodeRoot], hp.same.transient n, ?_, ?_⟩
      · exact fun hc => by simp [(hp.ok.mem_nodeList n).1 hc] at hn₁
      · exact fun hc => by simp [(hp.ok.mem_plist n).1 hc] at hn₁

end Metatup
