import Mathlib.Data.Finset.Card
import Metatup.Db.Basic
import Metatup.Graph.Lists
import Metatup.Lib.Search

/-!
# Following links from a node

`nodes_are_connected` looks for a node of a tree that a given node leads to. It builds a graph of
its own whose plist is the stack of a search: `Sim` relates the two, and the marks of the search are
the `state` and `expanded` fields of the nodes.

* `nodesAreConnectedLoop_eq`: the loop is the search of the library over the normal links.
* `nodesAreConnected_spec`: what its answer means on acyclic links.
-/

namespace Metatup

open Relation Lib

/-- Source: `graph.c` `add_file_cb`; `cur` is the node being expanded. -/
def addFileCb (cur : TupId) (g : Graph) (tent : TupEntry) : Option Graph := do
  let i := tent.tupid
  let g ← if findNode g i then some g else createNode g tent
  if (g.node i).state = .processing then none
  else
    let g ←
      if (g.node i).expanded then some g
      else do
        let g := g.setNode i { g.node i with expanded := true }
        let g ← nodeRemoveList .nodeList g i
        nodeInsertHead .plist g i
    return createEdge g cur i .normal

/-- The loop of `nodes_are_connected`; the fuel bounds how often it goes round. -/
def nodesAreConnectedLoop (db : Db) (src : TupId) (valid : TentTree) : ℕ → Graph → Option Bool
  | 0, _ => none
  | fuel + 1, g =>
    match g.plist with
    | [] => some false
    | i :: _ =>
      if src ≠ i && tentTreeSearch valid i then some true
      else
        match (g.node i).state with
        | .initialized => do
          let outs ← getOutputs db i
          let g ← outs.foldlM (addFileCb i) g
          nodesAreConnectedLoop db src valid fuel (g.setState i .processing)
        | .processing => do
          let g ← nodeRemoveList .plist g i
          let g ← nodeInsertTail .nodeList g i
          nodesAreConnectedLoop db src valid fuel (g.setState i .finished)
        | .finished => none

/-- The graph `nodes_are_connected` starts its loop with. -/
def connectedStart (src : TupEntry) : Option Graph := do
  let i := src.tupid
  let g ← createGraph
  let g ← createNode g src
  let g := createEdge g rootEntry.tupid i .normal
  let g := g.setNode i { g.node i with expanded := true }
  let g ← nodeRemoveList .nodeList g i
  nodeInsertHead .plist g i

/-- Source: `graph.c` `nodes_are_connected`. Every node comes to the head of the plist at most
twice. -/
def nodesAreConnected (db : Db) (src : TupEntry) (valid : TentTree) : Option Bool := do
  let g ← connectedStart src
  nodesAreConnectedLoop db src.tupid valid (2 * db.node.length + 1) g

/-! ### The loop as a search -/

/-- The nodes a node has a normal link to. -/
def outputsOf (db : Db) (i : TupId) : List TupId :=
  (db.normalLink.filter (·.fromId = i)).map Link.toId

theorem next_outputsOf {db : Db} {a b : TupId} : Next (outputsOf db) a b ↔ NormalAdj db a b := by
  simp only [Next, outputsOf, NormalAdj, List.mem_map, List.mem_filter, decide_eq_true_eq]
  constructor
  · rintro ⟨⟨x, y⟩, ⟨h, rfl⟩, rfl⟩
    exact h
  · exact fun h => ⟨⟨a, b⟩, ⟨h, rfl⟩, rfl⟩

/-- The mark of a node with a given `state`. -/
def markOf : NodeState → Mark
  | .initialized => .waiting
  | .processing => .active
  | .finished => .done

/-- The graph is in the state the search is in. The only other node is the root, which stays on the
node list. -/
structure Sim (g : Graph) (s : Search TupId) : Prop where
  ok : ListOk g
  plist : g.plist = s.stack
  nodeList_sub : ∀ i ∈ g.nodeList, i ∈ g.nodeRoot
  plist_sub : ∀ i ∈ g.plist, i ∈ g.nodeRoot
  nodeRoot : ∀ i, 0 < i → (i ∈ g.nodeRoot ↔ s.mark i ≠ .fresh)
  mark : ∀ i, 0 < i → s.mark i ≠ .fresh →
    (g.node i).expanded = true ∧ s.mark i = markOf (g.node i).state

namespace Sim

variable {g g' : Graph} {s : Search TupId} {i : TupId}

theorem state_of_mark (h : Sim g s) (hi : 0 < i) (st : NodeState) (hm : s.mark i = markOf st) :
    (g.node i).state = st := by
  have hne : s.mark i ≠ .fresh := by
    rw [hm]
    cases st <;> simp [markOf]
  have := (h.mark i hi hne).2
  rw [hm] at this
  revert this
  cases st <;> cases (g.node i).state <;> simp [markOf]

theorem createEdge (h : Sim g s) (a b : TupId) (st : LinkType) : Sim (createEdge g a b st) s :=
  ⟨⟨h.ok.nodeList_nodup, h.ok.plist_nodup, h.ok.mem_nodeList, h.ok.mem_plist⟩, h.plist,
    h.nodeList_sub, h.plist_sub, h.nodeRoot, h.mark⟩

/-- A change of `state` is a change of the mark. -/
theorem setState (h : Sim g s) (hi : 0 < i) (hne : s.mark i ≠ .fresh) (st : NodeState) :
    Sim (g.setState i st) (s.setMark i (markOf st)) := by
  refine ⟨h.ok.setState i st, h.plist, h.nodeList_sub, h.plist_sub, fun j hj => ?_, fun j hj => ?_⟩
  · have hr := h.nodeRoot j hj
    simp only [Graph.setState, setNode_nodeRoot, Search.setMark_mark, hr]
    by_cases hji : j = i
    · subst hji
      cases st <;> simp [hne, markOf]
    · simp [hji]
  · intro hm
    by_cases hji : j = i
    · subst hji
      simp [Graph.setState, (h.mark j hj hne).1]
    · simpa [Graph.setState, hji] using h.mark j hj (by simpa [hji] using hm)

/-- A node that has just been made is expanded onto the plist. -/
theorem expand_new {tent : TupEntry} (h : Sim g s) (hc : Created g g' tent) :
    ∃ g₁ g₂, nodeRemoveList .nodeList
        (g'.setNode tent.tupid { g'.node tent.tupid with expanded := true }) tent.tupid = some g₁ ∧
      nodeInsertHead .plist g₁ tent.tupid = some g₂ ∧
      Sim g₂ ⟨tent.tupid :: s.stack, Function.update s.mark tent.tupid .waiting⟩ := by
  set i := tent.tupid with hidef
  set gx := g'.setNode i { g'.node i with expanded := true } with hgx
  have hxlist : ∀ j, (gx.node j).activeList = (g'.node j).activeList := by
    intro j
    by_cases hj : j = i <;> simp [hgx, hj]
  have hok : ListOk gx :=
    ⟨hc.ok.nodeList_nodup, hc.ok.plist_nodup, fun j => by rw [hxlist]; exact hc.ok.mem_nodeList j,
      fun j => by rw [hxlist]; exact hc.ok.mem_plist j⟩
  have hmem : i ∈ gx.list .nodeList := by
    simp [hgx, Graph.list, hc.nodeList, ← hidef]
  obtain ⟨g₁, h₁, hrem, hnone⟩ := nodeRemoveList_spec .nodeList hok hmem
  obtain ⟨g₂, h₂, hins, hhead⟩ := nodeInsertHead_spec .plist hrem.ok hnone
  have hplist : g₁.plist = g.plist := (hrem.other .plist (by decide)).trans hc.plist
  have hnl : g₂.nodeList = g₁.nodeList := hins.other .nodeList (by decide)
  have hroot : g₂.nodeRoot = i :: g.nodeRoot := by
    rw [hins.same.nodeRoot, hrem.same.nodeRoot]
    exact hc.nodeRoot
  refine ⟨g₁, g₂, h₁, h₂, ⟨hins.ok, ?_, ?_, ?_, ?_, ?_⟩⟩
  · have : g₂.plist = i :: g₁.plist := hhead
    rw [this, hplist, h.plist]
  · intro j hj
    rw [hnl] at hj
    have hj' : j ≠ i ∧ j ∈ gx.nodeList := (hrem.mem j).1 hj
    have : j ∈ g'.nodeList := hj'.2
    rw [hc.nodeList, List.mem_append] at this
    rw [hroot]
    rcases this with hj | hj
    · exact List.mem_cons_of_mem _ (h.nodeList_sub j hj)
    · exact absurd (by simpa using hj) hj'.1
  · intro j hj
    have : j = i ∨ j ∈ g₁.plist := (hins.mem j).1 hj
    rw [hroot]
    rcases this with rfl | hj
    · exact List.mem_cons_self
    · rw [hplist] at hj
      exact List.mem_cons_of_mem _ (h.plist_sub j hj)
  · intro j hj
    rw [hroot, List.mem_cons, h.nodeRoot j hj]
    by_cases hji : j = i <;> simp [hji]
  · intro j hj hm
    rw [hins.same.expanded, hrem.same.expanded, hins.state, hrem.state]
    by_cases hji : j = i
    · have hself := hc.node_self
      rw [← hidef] at hself
      rw [hji]
      simp [hgx, hself, newNode, markOf]
    · have := h.mark j hj (by simpa [hji] using hm)
      simpa [hgx, hji, hc.node_other j hji] using this

/-- One callback is one push. -/
theorem addFileCb {tent : TupEntry} (h : Sim g s) (hi : 0 < tent.tupid) (cur : TupId) :
    (s.push tent.tupid = none → addFileCb cur g tent = none) ∧
      ∀ t, s.push tent.tupid = some t → ∃ g', Metatup.addFileCb cur g tent = some g' ∧ Sim g' t := by
  have hroot := h.nodeRoot tent.tupid hi
  unfold Search.push Metatup.addFileCb
  cases hm : s.mark tent.tupid with
  | fresh =>
    refine ⟨by simp, ?_⟩
    rintro t ⟨⟩
    have hnot : tent.tupid ∉ g.nodeRoot := by simpa [hm] using hroot
    obtain ⟨g', hg', hc⟩ := createNode_spec tent h.ok hnot
      (fun hl => hnot (h.nodeList_sub _ hl)) (fun hp => hnot (h.plist_sub _ hp))
    obtain ⟨g₁, g₂, h₁, h₂, hsim⟩ := h.expand_new hc
    have hfind : findNode g tent.tupid = false := by simp [findNode, hnot]
    have hst : (g'.node tent.tupid).state ≠ .processing := by simp [hc.node_self, newNode]
    have hex : (g'.node tent.tupid).expanded = false := by simp [hc.node_self, newNode]
    refine ⟨Metatup.createEdge g₂ cur tent.tupid .normal, ?_, hsim.createEdge _ _ _⟩
    simp [hfind, hg', hst, hex, h₁, h₂]
  | active =>
    have hst : (g.node tent.tupid).state = .processing := h.state_of_mark hi .processing hm
    have hfind : findNode g tent.tupid = true := by simpa [findNode] using hroot.2 (by simp [hm])
    exact ⟨fun _ => by simp [hfind, hst], by simp⟩
  | waiting =>
    refine ⟨by simp, ?_⟩
    rintro t ⟨⟩
    have hst : (g.node tent.tupid).state = .initialized :=
      h.state_of_mark hi .initialized hm
    have hfind : findNode g tent.tupid = true := by simpa [findNode] using hroot.2 (by simp [hm])
    have hex := (h.mark tent.tupid hi (by simp [hm])).1
    exact ⟨_, by simp [hfind, hst, hex], h.createEdge cur tent.tupid .normal⟩
  | done =>
    refine ⟨by simp, ?_⟩
    rintro t ⟨⟩
    have hst : (g.node tent.tupid).state = .finished := h.state_of_mark hi .finished hm
    have hfind : findNode g tent.tupid = true := by simpa [findNode] using hroot.2 (by simp [hm])
    have hex := (h.mark tent.tupid hi (by simp [hm])).1
    exact ⟨_, by simp [hfind, hst, hex], h.createEdge cur tent.tupid .normal⟩

/-- Expanding a node is pushing its outputs. -/
theorem addFiles {outs : List TupEntry} (h : Sim g s) (hpos : ∀ t ∈ outs, 0 < t.tupid)
    (cur : TupId) :
    (s.pushAll (outs.map TupEntry.tupid) = none → outs.foldlM (Metatup.addFileCb cur) g = none) ∧
      ∀ t, s.pushAll (outs.map TupEntry.tupid) = some t →
        ∃ g', outs.foldlM (Metatup.addFileCb cur) g = some g' ∧ Sim g' t := by
  induction outs generalizing g s with
  | nil =>
    refine ⟨by simp [Search.pushAll], ?_⟩
    rintro t ⟨⟩
    exact ⟨g, rfl, h⟩
  | cons x outs ih =>
    obtain ⟨hnone, hsome⟩ := h.addFileCb (hpos x (by simp)) cur
    cases hp : s.push x.tupid with
    | none =>
      refine ⟨fun _ => by simp [hnone hp], ?_⟩
      simp [Search.pushAll, hp]
    | some u =>
      obtain ⟨g', hg', hsim⟩ := hsome u hp
      have hrec : s.pushAll ((x :: outs).map TupEntry.tupid) =
          u.pushAll (outs.map TupEntry.tupid) := by simp [Search.pushAll, hp]
      have hrec' : (x :: outs).foldlM (Metatup.addFileCb cur) g =
          outs.foldlM (Metatup.addFileCb cur) g' := by simp [hg']
      rw [hrec, hrec']
      exact ih hsim fun t ht => hpos t (by simp [ht])

/-- Taking the head off the plist. -/
theorem leave {rest : List TupId} (h : Sim g s) (hi : 0 < i) (hs : s.stack = i :: rest)
    (hm : s.mark i = .active) :
    ∃ g₁ g₂, nodeRemoveList .plist g i = some g₁ ∧ nodeInsertTail .nodeList g₁ i = some g₂ ∧
      Sim (g₂.setState i .finished) (Search.setMark { s with stack := rest } i .done) := by
  have hmem : i ∈ g.list .plist := by simp [Graph.list, h.plist, hs]
  obtain ⟨g₁, h₁, hrem, hnone⟩ := nodeRemoveList_spec .plist h.ok hmem
  obtain ⟨g₂, h₂, hins⟩ := nodeInsertTail_spec .nodeList hrem.ok hnone
  have hplist : g₂.plist = rest := by
    have h1 : g₂.plist = g₁.plist := hins.other .plist (by decide)
    have h2 : g₁.plist = g.plist.erase i := nodeRemoveList_list h₁
    rw [h1, h2, h.plist, hs, List.erase_cons_head]
  have hroot : g₂.nodeRoot = g.nodeRoot := hins.same.nodeRoot.trans hrem.same.nodeRoot
  have hsim : Sim g₂ { s with stack := rest } := by
    refine ⟨hins.ok, hplist, ?_, ?_, ?_, ?_⟩
    · intro j hj
      have h1 : j = i ∨ j ∈ g₁.nodeList := (hins.mem j).1 hj
      have h2 : g₁.nodeList = g.nodeList := hrem.other .nodeList (by decide)
      rw [hroot]
      rcases h1 with rfl | hj
      · exact (h.nodeRoot j hi).2 (by simp [hm])
      · exact h.nodeList_sub j (h2 ▸ hj)
    · intro j hj
      rw [hroot]
      apply h.plist_sub
      rw [h.plist, hs]
      exact List.mem_cons_of_mem _ (hplist ▸ hj)
    · intro j hj
      rw [hroot]
      exact h.nodeRoot j hj
    · intro j hj hne
      rw [hins.same.expanded, hrem.same.expanded, hins.state, hrem.state]
      exact h.mark j hj hne
  exact ⟨g₁, g₂, h₁, h₂, hsim.setState hi (by simp [hm]) .finished⟩

end Sim

variable {db : Db}

/-- Ids of nodes are read as entries of those ids. -/
theorem Db.Ok.mapM_tupEntryAdd (h : db.Ok) {l : List TupId}
    (hl : ∀ j ∈ l, ∃ t ∈ db.node, t.tupid = j) :
    ∃ outs, l.mapM (tupEntryAdd db) = some outs ∧ outs.map TupEntry.tupid = l ∧
      ∀ t ∈ outs, t ∈ db.node := by
  induction l with
  | nil => exact ⟨[], rfl, rfl, by simp⟩
  | cons j l ih =>
    obtain ⟨outs, ho, hmap, hmem⟩ := ih fun k hk => hl k (by simp [hk])
    obtain ⟨t, ht, rfl⟩ := hl j (by simp)
    refine ⟨t :: outs, by simp [h.tupEntryAdd_of_mem ht, ho], by simp [hmap], fun u hu => ?_⟩
    rcases List.mem_cons.1 hu with rfl | hu
    · exact ht
    · exact hmem u hu

theorem Db.Ok.getOutputs (h : db.Ok) (i : TupId) :
    ∃ outs, getOutputs db i = some outs ∧ outs.map TupEntry.tupid = outputsOf db i ∧
      ∀ t ∈ outs, t ∈ db.node := by
  refine h.mapM_tupEntryAdd fun j hj => ?_
  obtain ⟨l, hl, rfl⟩ := List.mem_map.1 hj
  exact (h.normal_mem l (List.mem_of_mem_filter hl)).2

/-- The goal of the search: a node of the tree other than the start. -/
def isGoal (src : TupId) (valid : TentTree) (i : TupId) : Bool :=
  src ≠ i && tentTreeSearch valid i

theorem nodesAreConnectedLoop_eq (hdb : db.Ok) (src : TupId) (valid : TentTree) (fuel : ℕ)
    {g : Graph} {s : Search TupId} (h : Sim g s)
    (hinv : SearchInv (outputsOf db) (isGoal src valid) src s) (hpos : ∀ i ∈ s.stack, 0 < i) :
    nodesAreConnectedLoop db src valid fuel g =
      Search.run (outputsOf db) (isGoal src valid) fuel s := by
  induction fuel generalizing g s with
  | zero => rfl
  | succ fuel ih =>
    unfold nodesAreConnectedLoop Search.run
    rw [h.plist]
    cases hs : s.stack with
    | nil => rfl
    | cons i rest =>
      have hi : 0 < i := hpos i (by simp [hs])
      dsimp only
      rw [show (decide (src ≠ i) && tentTreeSearch valid i) = isGoal src valid i from rfl]
      cases hg : isGoal src valid i with
      | true => rfl
      | false =>
        rw [if_neg Bool.false_ne_true, if_neg Bool.false_ne_true]
        rcases (hinv.mem_stack i).1 (by simp [hs]) with hm | hm
        · rw [h.state_of_mark hi .initialized hm, hm]
          obtain ⟨outs, ho, hmap, hmem⟩ := hdb.getOutputs i
          have hop : ∀ t ∈ outs, 0 < t.tupid := fun t ht => hdb.node_pos t (hmem t ht)
          obtain ⟨hnone, hsome⟩ := h.addFiles hop i
          rw [hmap] at hnone hsome
          simp only [ho, Option.bind_eq_bind, Option.bind_some]
          cases hp : s.pushAll (outputsOf db i) with
          | none => simp [hnone hp]
          | some t =>
            obtain ⟨g', hg', hsim⟩ := hsome t hp
            obtain ⟨hti, hst⟩ := (hinv.expand hs hm hg).2 t hp
            simp only [hg', Option.bind_some]
            apply ih
            · exact hsim.setState hi (hst.ne_fresh (by simp [hm])) .processing
            · exact hti
            · intro j hj
              obtain ⟨new, hnew, hin⟩ := hst.stack
              rw [Search.setMark_stack, hnew, List.mem_append] at hj
              rcases hj with hj | hj
              · have := hin j hj
                rw [← hmap] at this
                obtain ⟨t, ht, rfl⟩ := List.mem_map.1 this
                exact hop t ht
              · exact hpos j hj
        · rw [h.state_of_mark hi .processing hm, hm]
          obtain ⟨g₁, g₂, h₁, h₂, hsim⟩ := h.leave hi hs hm
          simp only [h₁, h₂, Option.bind_eq_bind, Option.bind_some]
          exact ih hsim (hinv.leave hs hm) fun j hj => hpos j (by simpa [hs] using .inr hj)

/-! ### The answer -/

/-- The loop starts with the source on the stack and nothing else seen. -/
theorem connectedStart_sim {src : TupEntry} (hsrc : 0 < src.tupid) :
    ∃ g, connectedStart src = some g ∧ Sim g (.init src.tupid) := by
  have h0 : ListOk { node := fun _ => newNode rootEntry } := by
    constructor <;> simp [newNode]
  obtain ⟨g, hg, hc⟩ := createNode_spec rootEntry h0 (by simp) (by simp) (by simp)
  have hsim : Sim g ⟨[], fun _ => .fresh⟩ := by
    refine ⟨hc.ok, hc.plist, ?_, ?_, ?_, by simp⟩
    · simp [hc.nodeList, hc.nodeRoot]
    · simp [hc.plist]
    · intro i hi
      have : i ≠ rootEntry.tupid := hi.ne'
      simp [hc.nodeRoot, this]
  have hnot : src.tupid ∉ g.nodeRoot := by simpa using hsim.nodeRoot src.tupid hsrc
  obtain ⟨g', hg', hc'⟩ := createNode_spec src hsim.ok hnot
    (fun hl => hnot (hsim.nodeList_sub _ hl)) (fun hp => hnot (hsim.plist_sub _ hp))
  obtain ⟨g₁, g₂, h₁, h₂, hsim'⟩ :=
    hsim.expand_new (hc'.createEdge rootEntry.tupid src.tupid .normal)
  refine ⟨g₂, ?_, hsim'⟩
  unfold connectedStart createGraph
  rw [hg]
  simp only [Option.bind_eq_bind, Option.bind_some, hg', h₁, h₂]

theorem reach_mem_node (hdb : db.Ok) {i j : TupId} (hi : ∃ t ∈ db.node, t.tupid = i)
    (h : ReflTransGen (Next (outputsOf db)) i j) : ∃ t ∈ db.node, t.tupid = j := by
  induction h with
  | refl => exact hi
  | tail _ hstep _ => exact (hdb.normal_mem _ (next_outputsOf.1 hstep)).2

/-- `nodes_are_connected` is a search for a node of the tree over the normal links. -/
theorem nodesAreConnected_correct (hdb : db.Ok) {src : TupEntry} (hsrc : src ∈ db.node)
    (valid : TentTree) : Search.Correct (outputsOf db) (isGoal src.tupid valid) src.tupid
      (nodesAreConnected db src valid) := by
  have hpos : 0 < src.tupid := hdb.node_pos src hsrc
  obtain ⟨g, hg, hsim⟩ := connectedStart_sim hpos
  have hrun : nodesAreConnected db src valid = Search.run (outputsOf db) (isGoal src.tupid valid)
      (2 * db.node.length + 1) (.init src.tupid) := by
    simp only [nodesAreConnected, hg, Option.bind_eq_bind, Option.bind_some]
    apply nodesAreConnectedLoop_eq hdb src.tupid valid _ hsim searchInv_init
    simp [Search.init, hpos]
  rw [hrun]
  apply Search.run_init_correct (U := (db.node.map TupEntry.tupid).toFinset)
  · intro m hm
    obtain ⟨t, ht, rfl⟩ := reach_mem_node hdb ⟨src, hsrc, rfl⟩ hm
    simpa using ⟨t, ht, rfl⟩
  · have : (db.node.map TupEntry.tupid).toFinset.card ≤ db.node.length := by
      simpa using List.toFinset_card_le (db.node.map TupEntry.tupid)
    omega

/-- On acyclic links the search answers whether a path of links leads to a node of the tree. -/
theorem nodesAreConnected_spec (hdb : db.Ok) (hac : ∀ i, ¬ TransGen (NormalAdj db) i i)
    {src : TupEntry} (hsrc : src ∈ db.node) (valid : TentTree) :
    ∃ b, nodesAreConnected db src valid = some b ∧
      (b = true ↔ ∃ i ∈ valid, TransGen (NormalAdj db) src.tupid i) := by
  have hadj : Next (outputsOf db) = NormalAdj db := by
    funext a b
    exact propext next_outputsOf
  have hc := nodesAreConnected_correct hdb hsrc valid
  revert hc
  cases nodesAreConnected db src valid with
  | none =>
    rintro ⟨m, _, hm⟩
    exact absurd (hadj ▸ hm) (hac m)
  | some b =>
    intro hc
    refine ⟨b, rfl, ?_⟩
    cases b with
    | true =>
      obtain ⟨m, hm, hg⟩ := hc
      have hg : src.tupid ≠ m ∧ m ∈ valid := by simpa [isGoal] using hg
      rw [hadj] at hm
      rcases reflTransGen_iff_eq_or_transGen.1 hm with he | hm
      · exact absurd he.symm hg.1
      · simpa using ⟨m, hg.2, hm⟩
    | false =>
      simp only [Bool.false_eq_true, false_iff, not_exists, not_and]
      intro m hm hpath
      have hg := hc m (hadj ▸ hpath.to_reflTransGen)
      have hne : src.tupid ≠ m := by
        rintro rfl
        exact hac _ hpath
      simp [isGoal, hne, hm] at hg

end Metatup
