import Metatup.Graph.Connected

/-!
# Building the partial DAG

`build_graph` follows the links of the nodes on the plist until it is empty. The plist is a stack
that holds a node from when it is first met until it comes to the head for the second time.

* `buildGraphLoop`: the loop, for the graph of an update and for the graph of groups.
* `Tracks`: the graph is in the state of a search of the library, with the root node at the bottom of
  its stack.
* `Tracks.visit_fresh`, `Tracks.leave`: what becomes of it when a node is met and when it is left.
* `buildGraphLoop_spec`: the loop ends, and keeps what following the links of one node keeps.
-/

namespace Metatup

open Relation Lib

/-- How `build_graph` fails: `make_edge` reports an edge, or a check of the lists fails. -/
inductive BuildError
  | circular (src dest : TupId)
  | internal
  deriving DecidableEq

/-- `struct graph` with what is counted while it is built. -/
structure DepGraph where
  g : Graph
  /-- `count_flags` -/
  countFlags : NodeType
  /-- The nodes whose `counted` field is set, newest first. -/
  counted : List TupId := []
  numNodes : ℕ := 0
  totalMtime : ℤ := 0
  /-- The nodes that a link between groups has put on the plist. Nothing reads this. -/
  viaGroup : List TupId := []

/-- Source: `graph.c` `expand_node`; `false` is its `-1` -/
def expandNode (g : Graph) (i : TupId) : Graph × Bool :=
  let g := g.setNode i { g.node i with expanded := true }
  match nodeRemoveList .nodeList g i with
  | none => (g, false)
  | some g =>
    match nodeInsertHead .plist g i with
    | none => (g, false)
    | some g => (g, true)

/-- The running total of `make_edge`; -1 stands for an unknown time. -/
def addMtime (total mtime : ℤ) : ℤ :=
  if total ≠ -1 then if mtime = -1 then -1 else total + mtime else total

/-- The node is of the type that is counted. -/
def countsType (countFlags : NodeType) (tent : TupEntry) : Bool :=
  tent.type = countFlags || countFlags = .root

/-- The node is counted if it is of the type that is; `root` counts everything. -/
def countNode (d : DepGraph) (i : TupId) : DepGraph :=
  let tent := (d.g.node i).tent
  if countsType d.countFlags tent then
    { d with
      counted := i :: d.counted
      numNodes := d.numNodes + 1
      totalMtime := addMtime d.totalMtime tent.mtime.1 }
  else d

/-- A node that an edge from the root node leads to has to be processed. -/
def clearSkip (cur : TupId) (g : Graph) (i : TupId) : Graph :=
  if cur = rootEntry.tupid then g.setNode i { g.node i with skip := false } else g

/-- Source: `graph.c` `make_edge`; `cur` is `g->cur`. What `expand_node` returns is not looked at. -/
def makeEdge (cur : TupId) (d : DepGraph) (i : TupId) : Except BuildError DepGraph :=
  if (d.g.node i).state = .processing then .error (.circular cur i)
  else
    let d :=
      if (d.g.node i).expanded then d
      else
        let d := countNode d i
        { d with g := (expandNode d.g i).1 }
    .ok { d with g := createEdge (clearSkip cur d.g i) cur i .normal }

/-- Source: `graph.c` `find_or_create_node` -/
def findOrCreateNode (g : Graph) (tent : TupEntry) : Option Graph :=
  if findNode g tent.tupid then some g else createNode g tent

/-- Source: `graph.c` `build_graph_cb` -/
def buildGraphCb (cur : TupId) (d : DepGraph) (tent : TupEntry) : Except BuildError DepGraph :=
  match findOrCreateNode d.g tent with
  | none => .error .internal
  | some g => makeEdge cur { d with g := g } tent.tupid

/-- A node is put on the plist unless it has been. -/
def expandOnce (g : Graph) (i : TupId) : Option Graph :=
  if (g.node i).expanded then some g
  else
    match expandNode g i with
    | (_, false) => none
    | (g, true) => some g

/-- Source: `graph.c` `build_graph_group_cb` -/
def buildGraphGroupCb (cur : TupId) (d : DepGraph) (tent : TupEntry) : Except BuildError DepGraph :=
  let i := tent.tupid
  match findOrCreateNode d.g tent with
  | none => .error .internal
  | some g =>
    let via := if (g.node i).expanded then d.viaGroup else i :: d.viaGroup
    match expandOnce g i with
    | none => .error .internal
    | some g => .ok { d with g := createEdge g cur i .normal, viaGroup := via }

/-- Source: `graph.c` `build_group_cb`; the entries are those of the group and of the command that a
row of `group_link` leads to -/
def buildGroupCb (cur : TupId) (d : DepGraph) (row : TupEntry × TupEntry) :
    Except BuildError DepGraph :=
  let built : Option Graph := do
    let g ← findOrCreateNode d.g row.1
    let g ← findOrCreateNode g row.2
    let g ← expandOnce g row.1.tupid
    let g ← expandOnce g row.2.tupid
    return createEdge (createEdge g cur row.2.tupid .normal) row.2.tupid row.1.tupid .normal
  match built with
  | none => .error .internal
  | some g => .ok { d with g := g }

/-- Source: `db.c` `tup_db_select_node_by_distinct_group_link`, the entries it calls back for -/
def distinctGroupLinks (db : Db) (i : TupId) : Option (List TupEntry) :=
  ((db.groupLink.filter (·.fromId = i)).map GroupLink.toId).dedup.mapM (tupEntryAdd db)

/-- Source: `db.c` `tup_db_select_node_by_group_link`, the entries it calls back for. The rows are
put at the head of a list. -/
def groupLinkRows (db : Db) (i : TupId) : Option (List (TupEntry × TupEntry)) :=
  (db.groupLink.filter (·.fromId = i)).reverse.mapM fun l => do
    let tent ← tupEntryAdd db l.toId
    let cmdtent ← tupEntryAdd db l.cmdid
    return (tent, cmdtent)

/-- A list of entries that cannot be read is an error. -/
def entriesOr {α : Type} (o : Option α) : Except BuildError α :=
  match o with
  | none => .error .internal
  | some a => .ok a

/-- What `build_graph` does with the head of the plist when it has not been expanded. -/
def findDeps (db : Db) (d : DepGraph) (cur : TupId) : Except BuildError DepGraph :=
  if d.countFlags = .group then do
    let rows ← entriesOr (groupLinkRows db cur)
    rows.foldlM (buildGroupCb cur) d
  else do
    let outs ← entriesOr (getOutputs db cur)
    let d ← outs.foldlM (buildGraphCb cur) d
    if (d.g.node cur).tent.type = .group then do
      let groups ← entriesOr (distinctGroupLinks db cur)
      groups.foldlM (buildGraphGroupCb cur) d
    else return d

/-- The first loop of `build_graph`. `none` is that it goes round more often than the number says. -/
def buildGraphLoop (db : Db) : ℕ → DepGraph → Option (Except BuildError DepGraph)
  | 0, _ => none
  | fuel + 1, d =>
    match d.g.plist with
    | [] => some (.ok d)
    | i :: _ =>
      match (d.g.node i).state with
      | .initialized =>
        match findDeps db d i with
        | .error e => some (.error e)
        | .ok d => buildGraphLoop db fuel { d with g := d.g.setState i .processing }
      | .processing =>
        match (nodeRemoveList .plist d.g i).bind (nodeInsertTail .nodeList · i) with
        | none => some (.error .internal)
        | some g => buildGraphLoop db fuel { d with g := g.setState i .finished }
      | .finished => some (.error .internal)

/-! ### The graph as a search -/

/-- The graph is in the state the search is in; the root node is at the bottom of the stack of the
search and on the node list. Every node stands for a row of the database and is on a list. -/
structure Tracks (db : Db) (g : Graph) (s : Search TupId) : Prop where
  sim : Sim g { s with stack := g.plist }
  stack : s.stack = g.plist ++ [0]
  root_mem : 0 ∈ g.nodeList
  listed : ∀ i ∈ g.nodeRoot, i ∈ g.nodeList ∨ i ∈ g.plist
  tent : ∀ i ∈ g.nodeRoot, i ≠ 0 → (g.node i).tent ∈ db.node ∧ (g.node i).tent.tupid = i

section

variable {db : Db} {g g' : Graph} {s : Search TupId} {tent : TupEntry} {i : TupId}

/-- Two graphs with the same lists that differ in their edges and in fields the search does not
look at. -/
structure SameSearch (g g' : Graph) : Prop where
  nodeList : g'.nodeList = g.nodeList
  plist : g'.plist = g.plist
  nodeRoot : g'.nodeRoot = g.nodeRoot
  activeList : ∀ j, (g'.node j).activeList = (g.node j).activeList
  expanded : ∀ j, (g'.node j).expanded = (g.node j).expanded
  state : ∀ j, (g'.node j).state = (g.node j).state
  tent : ∀ j, (g'.node j).tent = (g.node j).tent

theorem SameSearch.refl (g : Graph) : SameSearch g g :=
  ⟨rfl, rfl, rfl, fun _ => rfl, fun _ => rfl, fun _ => rfl, fun _ => rfl⟩

theorem SameSearch.trans {g'' : Graph} (h : SameSearch g g') (h' : SameSearch g' g'') :
    SameSearch g g'' where
  nodeList := h'.nodeList.trans h.nodeList
  plist := h'.plist.trans h.plist
  nodeRoot := h'.nodeRoot.trans h.nodeRoot
  activeList j := (h'.activeList j).trans (h.activeList j)
  expanded j := (h'.expanded j).trans (h.expanded j)
  state j := (h'.state j).trans (h.state j)
  tent j := (h'.tent j).trans (h.tent j)

theorem SameSearch.createEdge (g : Graph) (a b : TupId) (st : LinkType) :
    SameSearch g (createEdge g a b st) :=
  ⟨rfl, rfl, rfl, fun _ => rfl, fun _ => rfl, fun _ => rfl, fun _ => rfl⟩

theorem SameSearch.clearSkip (cur : TupId) (g : Graph) (i : TupId) :
    SameSearch g (clearSkip cur g i) := by
  unfold Metatup.clearSkip
  split_ifs
  · constructor <;> first | rfl | (intro j; simp only [setNode_node]; split <;> simp_all)
  · exact .refl g

@[simp] theorem clearSkip_edges (cur : TupId) (g : Graph) (i : TupId) :
    (clearSkip cur g i).edges = g.edges := by
  unfold clearSkip
  split_ifs <;> rfl

theorem Tracks.congr (h : Tracks db g s) (hsame : SameSearch g g') : Tracks db g' s where
  sim := by
    rw [hsame.plist]
    refine ⟨⟨?_, ?_, ?_, ?_⟩, hsame.plist, ?_, ?_, ?_, ?_⟩
    · rw [hsame.nodeList]
      exact h.sim.ok.nodeList_nodup
    · rw [hsame.plist]
      exact h.sim.ok.plist_nodup
    · intro j
      rw [hsame.nodeList, hsame.activeList]
      exact h.sim.ok.mem_nodeList j
    · intro j
      rw [hsame.plist, hsame.activeList]
      exact h.sim.ok.mem_plist j
    · rw [hsame.nodeList, hsame.nodeRoot]
      exact h.sim.nodeList_sub
    · rw [hsame.plist, hsame.nodeRoot]
      exact h.sim.plist_sub
    · rw [hsame.nodeRoot]
      exact h.sim.nodeRoot
    · intro j
      rw [hsame.expanded, hsame.state]
      exact h.sim.mark j
  stack := by rw [hsame.plist]; exact h.stack
  root_mem := by rw [hsame.nodeList]; exact h.root_mem
  listed := by rw [hsame.nodeRoot, hsame.nodeList, hsame.plist]; exact h.listed
  tent := by
    intro j
    rw [hsame.nodeRoot, hsame.tent]
    exact h.tent j

/-! ### Meeting a node -/

theorem createNode_edges (h : createNode g tent = some g') : g'.edges = g.edges := by
  unfold createNode nodeInsertTail at h
  split at h
  · cases h
  · simp only [Option.bind_eq_bind, Option.bind_some] at h
    split at h
    · cases h
    · cases h
      simp

/-- What `expand_node` does when it succeeds. -/
structure ExpandedNode (g g' : Graph) (i : TupId) : Prop where
  nodeList : g'.nodeList = g.nodeList.erase i
  plist : g'.plist = i :: g.plist
  nodeRoot : g'.nodeRoot = g.nodeRoot
  edges : g'.edges = g.edges
  tent : ∀ j, (g'.node j).tent = (g.node j).tent

theorem expandNode_spec (h : expandNode g i = (g', true)) : ExpandedNode g g' i := by
  unfold expandNode at h
  dsimp only at h
  split at h
  · cases h
  · next g₁ h₁ =>
    split at h
    · cases h
    · next g₂ h₂ =>
      cases h
      unfold nodeRemoveList at h₁
      unfold nodeInsertHead at h₂
      split at h₁
      · cases h₁
      · cases h₁
        split at h₂
        · cases h₂
        · cases h₂
          constructor <;> first | rfl | (intro j; simp only [setNode_node, setList_node]; split <;> simp_all)

/-- A node that has not been met is made and put at the head of the plist. -/
theorem Tracks.visit_fresh (h : Tracks db g s) (ht : tent ∈ db.node) (hi : 0 < tent.tupid)
    (hf : s.mark tent.tupid = .fresh) :
    ∃ g₁ g₂, findOrCreateNode g tent = some g₁ ∧
      g₁.node tent.tupid = { newNode tent with activeList := some .nodeList } ∧
      expandNode g₁ tent.tupid = (g₂, true) ∧ Tracks db g₂ (s.see tent.tupid) ∧
      g₂.edges = g.edges ∧ (g₂.node tent.tupid).tent = tent ∧
      ∀ j, j ≠ tent.tupid → (g₂.node j).tent = (g.node j).tent := by
  have hnot : tent.tupid ∉ g.nodeRoot := by
    have := h.sim.nodeRoot tent.tupid hi
    simpa [hf] using this
  have hnl : tent.tupid ∉ g.nodeList := fun hl => hnot (h.sim.nodeList_sub _ hl)
  obtain ⟨g₁, hg₁, hc⟩ := createNode_spec tent h.sim.ok hnot hnl
    (fun hp => hnot (h.sim.plist_sub _ hp))
  obtain ⟨gr, g₂, hr, h₂, hsim⟩ := h.sim.expand_new hc
  have hexp : expandNode g₁ tent.tupid = (g₂, true) := by
    unfold expandNode
    simp only [hr, h₂]
  have hspec := expandNode_spec hexp
  have hplist : g₂.plist = tent.tupid :: g.plist := by rw [hspec.plist, hc.plist]
  have hself : (g₂.node tent.tupid).tent = tent := by rw [hspec.tent, hc.node_self, newNode]
  have hother : ∀ j, j ≠ tent.tupid → (g₂.node j).tent = (g.node j).tent := by
    intro j hj
    rw [hspec.tent, hc.node_other j hj]
  have hmem : ∀ j, j ∈ g₂.nodeList ↔ j ∈ g.nodeList := by
    intro j
    rw [hspec.nodeList, hc.nodeList, List.erase_append_right _ hnl]
    simp
  have hsee : s.see tent.tupid =
      ⟨tent.tupid :: s.stack, Function.update s.mark tent.tupid .waiting⟩ := if_pos hf
  refine ⟨g₁, g₂, ?_, hc.node_self, hexp, ⟨?_, ?_, ?_, ?_, ?_⟩, ?_, hself, hother⟩
  · have : findNode g tent.tupid = false := by simpa [findNode] using hnot
    simp [findOrCreateNode, this, hg₁]
  · rw [hsee, hplist]
    exact hsim
  · rw [hsee, hplist, h.stack]
    rfl
  · rw [hmem]
    exact h.root_mem
  · intro j hj
    rw [hspec.nodeRoot, hc.nodeRoot] at hj
    rw [hmem, hplist]
    rcases List.mem_cons.1 hj with rfl | hj
    · exact .inr List.mem_cons_self
    · exact (h.listed j hj).imp_right (List.mem_cons_of_mem _)
  · intro j hj hpos
    rw [hspec.nodeRoot, hc.nodeRoot] at hj
    by_cases hji : j = tent.tupid
    · subst hji
      rw [hself]
      exact ⟨ht, rfl⟩
    · rw [hother j hji]
      exact h.tent j ((List.mem_cons.1 hj).resolve_left hji) hpos
  · rw [hspec.edges, createNode_edges hg₁]

/-- A node that has been met is found, and it has been expanded. -/
theorem Tracks.visit_seen (h : Tracks db g s) (hi : 0 < tent.tupid)
    (hf : s.mark tent.tupid ≠ .fresh) :
    findOrCreateNode g tent = some g ∧ (g.node tent.tupid).expanded = true ∧
      s.mark tent.tupid = markOf (g.node tent.tupid).state := by
  have hmem : tent.tupid ∈ g.nodeRoot := (h.sim.nodeRoot _ hi).2 hf
  obtain ⟨hexp, hmark⟩ := h.sim.mark _ hi hf
  exact ⟨by simp [findOrCreateNode, findNode, hmem], hexp, hmark⟩

/-! ### Leaving a node -/

/-- Overwriting the `state` of a node that has been met. -/
theorem Tracks.setState (h : Tracks db g s) (hi : 0 < i) (hf : s.mark i ≠ .fresh) (st : NodeState) :
    Tracks db (g.setState i st) (s.setMark i (markOf st)) where
  sim := h.sim.setState hi hf st
  stack := h.stack
  root_mem := h.root_mem
  listed := h.listed
  tent j := by
    rw [(setState_sameNodes g i st).tent]
    exact h.tent j

/-- The head of the plist goes to the end of the node list. -/
theorem Tracks.leave {rest : List TupId} (h : Tracks db g s) (hi : 0 < i)
    (hs : g.plist = i :: rest) (hm : s.mark i = .active) :
    ∃ g', (nodeRemoveList .plist g i).bind (nodeInsertTail .nodeList · i) = some g' ∧
      Tracks db (g'.setState i .finished)
        (Search.setMark { s with stack := rest ++ [0] } i .done) ∧
      g'.edges = g.edges ∧ ∀ j, (g'.node j).tent = (g.node j).tent := by
  obtain ⟨g₁, g₂, h₁, h₂, hsim⟩ := h.sim.leave hi hs hm
  have hmem : i ∈ g.list .plist := by simp [Graph.list, hs]
  obtain ⟨g₁', h₁', hrem, hnone⟩ := nodeRemoveList_spec .plist h.sim.ok hmem
  rw [h₁] at h₁'
  cases h₁'
  obtain ⟨g₂', h₂', hins⟩ := nodeInsertTail_spec .nodeList hrem.ok hnone
  rw [h₂] at h₂'
  cases h₂'
  have hplist : g₂.plist = rest := hsim.plist
  have htent : ∀ j, (g₂.node j).tent = (g.node j).tent :=
    fun j => (hins.same.tent j).trans (hrem.same.tent j)
  have hroot : g₂.nodeRoot = g.nodeRoot := hins.same.nodeRoot.trans hrem.same.nodeRoot
  have hnl : g₁.nodeList = g.nodeList := hrem.other .nodeList (by decide)
  have hlist : ∀ j, j ∈ g₂.nodeList ↔ j = i ∨ j ∈ g.nodeList := by
    intro j
    rw [← hnl]
    exact hins.mem j
  refine ⟨g₂, by rw [h₁]; exact h₂, ⟨?_, ?_, ?_, ?_, ?_⟩, hins.edges.trans hrem.edges, htent⟩
  · have : (g₂.setState i .finished).plist = rest := hplist
    rw [this]
    exact hsim
  · have : (g₂.setState i .finished).plist = rest := hplist
    rw [this]
    rfl
  · exact (hlist 0).2 (.inr h.root_mem)
  · intro j hj
    have hj' : j ∈ g.nodeRoot := hroot ▸ hj
    have hp : (g₂.setState i .finished).plist = rest := hplist
    rw [hp]
    rcases h.listed j hj' with hl | hl
    · exact .inl ((hlist j).2 (.inr hl))
    · rw [hs] at hl
      rcases List.mem_cons.1 hl with rfl | hl
      · exact .inl ((hlist _).2 (.inl rfl))
      · exact .inr hl
  · intro j hj hpos
    rw [(setState_sameNodes g₂ i .finished).tent, htent]
    exact h.tent j (hroot ▸ hj) hpos

/-- The nodes on the node list are the root node and those that are done. -/
theorem Tracks.mem_nodeList (h : Tracks db g s)
    (hmem : ∀ n, n ∈ s.stack ↔ s.mark n = .waiting ∨ s.mark n = .active) (i : TupId) (hi : 0 < i) :
    i ∈ g.nodeList ↔ s.mark i = .done := by
  have hplist : i ∈ g.plist ↔ s.mark i = .waiting ∨ s.mark i = .active := by
    rw [← hmem, h.stack]
    simp [hi.ne']
  have hroot := h.sim.nodeRoot i hi
  constructor
  · intro hl
    have hne := hroot.1 (h.sim.nodeList_sub i hl)
    have hnot : i ∉ g.plist := h.sim.ok.not_mem_plist hl
    rw [hplist] at hnot
    cases hk : s.mark i <;> simp_all
  · intro hk
    have hin := hroot.2 (by simp [hk])
    refine (h.listed i hin).resolve_right ?_
    rw [hplist, hk]
    decide

end

/-! ### The loop -/

/-- The links of every node, and the starting nodes as those of the root node. -/
def rooted (starts : List TupId) (links : TupId → List TupId) (i : TupId) : List TupId :=
  if i = 0 then starts else links i

section

variable {starts : List TupId} {links : TupId → List TupId}

/-- Only the root node is not positive. -/
theorem pos_of_reach (hstarts : ∀ i ∈ starts, 0 < i) (hlinks : ∀ i, ∀ j ∈ links i, 0 < j) {i : TupId}
    (h : ReflTransGen (Next (rooted starts links)) 0 i) : i = 0 ∨ 0 < i := by
  rcases ReflTransGen.cases_tail h with rfl | ⟨j, -, hji⟩
  · exact .inl rfl
  · right
    unfold Next rooted at hji
    split at hji
    · exact hstarts i hji
    · exact hlinks j i hji

/-- Away from the root node, a path is a path of links. -/
theorem transGen_rooted (hlinks : ∀ i, ∀ j ∈ links i, 0 < j) {i j : TupId} (hi : 0 < i)
    (h : TransGen (Next (rooted starts links)) i j) : TransGen (Next links) i j := by
  have hstep : ∀ {a b}, 0 < a → Next (rooted starts links) a b → Next links a b := by
    intro a b ha hab
    unfold Next rooted at hab
    rwa [if_neg ha.ne'] at hab
  induction h using TransGen.head_induction_on with
  | single hab => exact .single (hstep hi hab)
  | head hab _ ih => exact .head (hstep hi hab) (ih (hlinks _ _ (hstep hi hab)))

/-- What can be reached from the root node is that node and what links lead to from the starting
nodes. -/
theorem reach_rooted (hstarts : ∀ i ∈ starts, 0 < i) (hlinks : ∀ i, ∀ j ∈ links i, 0 < j)
    {i : TupId} : ReflTransGen (Next (rooted starts links)) 0 i ↔
      i = 0 ∨ ∃ a ∈ starts, ReflTransGen (Next links) a i := by
  constructor
  · intro h
    rcases ReflTransGen.cases_head h with rfl | ⟨a, ha, hai⟩
    · exact .inl rfl
    · have ha' : a ∈ starts := by simpa [Next, rooted] using ha
      right
      rcases reflTransGen_iff_eq_or_transGen.1 hai with rfl | hai
      · exact ⟨_, ha', .refl⟩
      · exact ⟨a, ha', (transGen_rooted hlinks (hstarts a ha') hai).to_reflTransGen⟩
  · rintro (rfl | ⟨a, ha, hai⟩)
    · exact .refl
    · refine .head (b := a) (by simpa [Next, rooted] using ha) ?_
      have hpos := hstarts a ha
      clear ha
      induction hai using ReflTransGen.head_induction_on with
      | refl => exact .refl
      | head hab _ ih =>
        refine .head ?_ (ih (hlinks _ _ hab))
        unfold Next rooted
        rwa [if_neg hpos.ne']

/-- The search from the root node, at the head of the loop. -/
abbrev Rooted (starts : List TupId) (links : TupId → List TupId) (s : Search TupId) : Prop :=
  SearchInv (rooted starts links) (fun _ => false) 0 s

/-- The loop of `build_graph` ends, where following the links of a node (`hfind`) and leaving a node
(`hleave`) keep `I`, and a failure is one that `B` describes. -/
theorem buildGraphLoop_spec {db : Db} (hstarts : ∀ i ∈ starts, 0 < i)
    (hlinks : ∀ i, ∀ j ∈ links i, 0 < j) {B : BuildError → Prop}
    {I : DepGraph → Search TupId → Prop}
    (hfind : ∀ d s n rest, Tracks db d.g s → Rooted starts links s → I d s →
      d.g.plist = n :: rest → s.mark n = .waiting → 0 < n →
      (∃ e, findDeps db d n = .error e ∧ B e) ∨
        ∃ d', findDeps db d n = .ok d' ∧ Tracks db d'.g (s.seeAll (links n)) ∧
          I { d' with g := d'.g.setState n .processing } ((s.seeAll (links n)).setMark n .active))
    (hleave : ∀ d s n rest (g' : Graph), I d s → s.stack = n :: rest → s.mark n = .active →
      g'.edges = d.g.edges → (∀ j, (g'.node j).tent = (d.g.node j).tent) →
      I { d with g := g' } (Search.setMark { s with stack := rest } n .done))
    {fuel : ℕ} {d : DepGraph} {s : Search TupId} (htr : Tracks db d.g s)
    (hinv : Rooted starts links s) (hroot : s.mark 0 = .active) (hI : I d s)
    (hf : s.measure (db.node.map TupEntry.tupid).toFinset < fuel) :
    (∃ e, buildGraphLoop db fuel d = some (.error e) ∧ B e) ∨
      ∃ d' s', buildGraphLoop db fuel d = some (.ok d') ∧ Tracks db d'.g s' ∧
        Rooted starts links s' ∧ s'.mark 0 = .active ∧ I d' s' ∧ d'.g.plist = [] := by
  induction fuel generalizing d s with
  | zero => omega
  | succ fuel ih =>
    unfold buildGraphLoop
    cases hp : d.g.plist with
    | nil => exact .inr ⟨d, s, rfl, htr, hinv, hroot, hI, hp⟩
    | cons n rest =>
      have hstack : s.stack = n :: (rest ++ [0]) := by rw [htr.stack, hp, List.cons_append]
      have hmem : n ∈ s.stack := by simp [hstack]
      have hmark := (hinv.mem_stack n).1 hmem
      have hne : s.mark n ≠ .fresh := by rcases hmark with hk | hk <;> simp [hk]
      have hplist : n ∈ d.g.plist := by simp [hp]
      have hpos : 0 < n := by
        refine (pos_of_reach hstarts hlinks (hinv.reach n hne)).resolve_left ?_
        rintro rfl
        exact htr.sim.ok.not_mem_plist htr.root_mem hplist
      have hU : n ∈ (db.node.map TupEntry.tupid).toFinset := by
        obtain ⟨hnode, hid⟩ := htr.tent n (htr.sim.plist_sub n hplist) hpos.ne'
        simpa using ⟨_, hnode, hid⟩
      have hstate := (htr.sim.mark n hpos hne).2
      dsimp only
      rcases hmark with hk | hk
      · -- the node has not been expanded
        have hst : (d.g.node n).state = .initialized := htr.sim.state_of_mark hpos .initialized hk
        rw [hst]
        dsimp only
        have hreach : ReflTransGen (Next (rooted starts links)) 0 n := hinv.reach n hne
        have hsucc : rooted starts links n = links n := if_neg hpos.ne'
        have hnext : ∀ m ∈ links n, Next (rooted starts links) n m := by
          intro m hm
          unfold Next
          rwa [hsucc]
        obtain ⟨hsi, hpushed, hseen⟩ := hinv.seeAll
          (fun m (hm : m ∈ links n) => hreach.tail (hnext m hm))
          (fun m hm a ha => (hinv.active_reaches_top hstack hk ha).tail (hnext m hm))
        rcases hfind d s n rest htr hinv hI hp hk hpos with ⟨e, he, hbad⟩ | ⟨d', hd', htr', hI'⟩
        · exact .inl ⟨e, by rw [he], hbad⟩
        · rw [hd']
          dsimp only
          have hinv' := hinv.activate hstack hk rfl hsi (hsucc.symm ▸ hpushed)
            (hsucc.symm ▸ hseen)
          have hne' : (s.seeAll (links n)).mark n ≠ .fresh := hpushed.ne_fresh hne
          have hroot' : ((s.seeAll (links n)).setMark n .active).mark 0 = .active := by
            rw [Search.setMark_mark, if_neg hpos.ne, hpushed.mark_of_ne (by simp [hroot]), hroot]
          apply ih (htr'.setState hpos hne' .processing) hinv' hroot' hI'
          have hweight : (((s.seeAll (links n)).mark n)).weight = 2 := by
            rw [hpushed.mark_of_ne hne, hk]
            rfl
          have hlt := Search.measure_setMark_lt (k := .active) hU
            (show Mark.weight .active < ((s.seeAll (links n)).mark n).weight by
              rw [hweight]; decide)
          rw [Search.measure_pushed hpushed] at hlt
          omega
      · -- the node has come back to the head
        have hst : (d.g.node n).state = .processing := htr.sim.state_of_mark hpos .processing hk
        rw [hst]
        dsimp only
        obtain ⟨g', hg', htr', hedges, htent⟩ := htr.leave hpos hp hk
        rw [hg']
        dsimp only
        have hroot' : (Search.setMark { s with stack := rest ++ [0] } n .done).mark 0 = .active := by
          rw [Search.setMark_mark, if_neg hpos.ne]
          exact hroot
        apply ih htr' (hinv.leave hstack hk) hroot'
        · apply hleave d s n (rest ++ [0]) _ hI hstack hk
          · exact hedges
          · intro j
            rw [(setState_sameNodes g' n .finished).tent]
            exact htent j
        · have hlt := Search.measure_setMark_lt (s := { s with stack := rest ++ [0] })
            (k := .done) hU (by simp [hk, Mark.weight])
          have hm : Search.measure (db.node.map TupEntry.tupid).toFinset
              { s with stack := rest ++ [0] } =
              s.measure (db.node.map TupEntry.tupid).toFinset := rfl
          rw [hm] at hlt
          omega

/-- The search at the start, when the starting nodes have been met. -/
theorem rooted_start : Rooted starts links (((Search.init 0).seeAll starts).setMark 0 .active) := by
  have hstart : Rooted starts links (.init 0) := searchInv_init
  have hsucc : rooted starts links 0 = starts := if_pos rfl
  have hnext : ∀ m ∈ starts, Next (rooted starts links) 0 m := by
    intro m hm
    unfold Next
    rwa [hsucc]
  have hwait : (Search.init (0 : TupId)).mark 0 = .waiting := by simp [Search.init]
  obtain ⟨hsi, hpushed, hseen⟩ := hstart.seeAll
    (fun m (hm : m ∈ starts) => .single (hnext m hm))
    (fun m hm a ha => (hstart.active_reaches_top rfl hwait ha).tail (hnext m hm))
  exact hstart.activate rfl hwait rfl hsi (hsucc.symm ▸ hpushed) (hsucc.symm ▸ hseen)

/-- Nothing has been left or expanded at the start. -/
theorem measure_seeAll_init (U : Finset TupId) (h0 : 0 ∉ U) :
    (((Search.init 0).seeAll starts).setMark 0 .active).measure U = 2 * U.card := by
  have hw : ∀ ms (t : Search TupId), (∀ n, (t.mark n).weight = 2) →
      ∀ n, ((t.seeAll ms).mark n).weight = 2 := by
    intro ms
    induction ms with
    | nil => exact fun t ht => ht
    | cons m ms ih =>
      intro t ht
      apply ih
      intro n
      unfold Search.see
      split_ifs with hk
      · by_cases hn : n = m
        · simp [hn, Mark.weight]
        · simp [hn, ht n]
      · exact ht n
  have hinit : ∀ n, ((Search.init (0 : TupId)).mark n).weight = 2 := by
    intro n
    by_cases hn : n = 0 <;> simp [Search.init, hn, Mark.weight]
  have hall : ∀ n ∈ U, ((((Search.init 0).seeAll starts).setMark 0 .active).mark n).weight = 2 := by
    intro n hn
    have hne : n ≠ 0 := fun h => h0 (h ▸ hn)
    simpa [hne] using hw starts _ hinit n
  rw [Search.measure, Finset.sum_congr rfl hall, Finset.sum_const, Nat.nsmul_eq_mul, Nat.mul_comm]

/-- When the plist is empty, every node that has been met is done. -/
theorem Rooted.done_of_ne_fresh {s : Search TupId} (h : Rooted starts links s) (hs : s.stack = [0])
    {i : TupId} (hi : i ≠ 0) (hne : s.mark i ≠ .fresh) : s.mark i = .done := by
  have hmem := h.mem_stack i
  rw [hs, List.mem_singleton] at hmem
  cases hk : s.mark i <;> simp_all

/-- When the plist is empty, everything that can be reached is done. -/
theorem Rooted.exhausted {s : Search TupId} (h : Rooted starts links s) (hs : s.stack = [0])
    (hroot : s.mark 0 = .active) {i : TupId} (hi : i ≠ 0) :
    s.mark i = .done ↔ ReflTransGen (Next (rooted starts links)) 0 i := by
  have hdone : ∀ x, x ≠ 0 → s.mark x ≠ .fresh → s.mark x = .done :=
    fun x hx hne => h.done_of_ne_fresh hs hx hne
  constructor
  · intro hk
    exact h.reach i (by simp [hk])
  · intro hreach
    refine hdone i hi ?_
    clear hi
    induction hreach with
    | refl => exact h.source
    | tail _ hstep ih =>
      refine (h.closed _ ?_).2 _ hstep
      rename_i x y _
      by_cases hx : x = 0
      · exact .inl (hx ▸ hroot)
      · exact .inr (hdone x hx ih)

end

end Metatup
