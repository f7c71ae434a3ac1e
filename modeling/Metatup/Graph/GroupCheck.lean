import Metatup.Graph.BuildUpdate
import Metatup.Graph.Trim

/-!
# Circular dependencies between groups

The groups that a run of the parser touches are registered, and their graph is built at the end: from
a group through a command that reads it to the group that the command writes. What is left of the
graph when it is trimmed is reported.

* `groupCircCheck`: the check of the registered groups.
* `groupCircCheck_spec`: it fails where there is a cycle, and only there.
-/

namespace Metatup

open Relation Lib

/-- Source: `graph.c` `add_group_circ_check`; the graph is `group_graph`, once it is initialized. -/
def addGroupCircCheck (groupGraph : Option Graph) (tent : TupEntry) : Option Graph := do
  let g ← groupGraph.or createGraph
  if findNode g tent.tupid then return g
  else
    let g ← createNode g tent
    let g ← nodeRemoveList .nodeList g tent.tupid
    let g ← nodeInsertHead .plist g tent.tupid
    return g.setNode tent.tupid { g.node tent.tupid with expanded := true }

/-- The calls that register groups, in order. -/
def registerGroups (tents : List TupEntry) : Option (Option Graph) :=
  tents.foldlM (fun groupGraph tent => (addGroupCircCheck groupGraph tent).map some) none

/-- Source: `graph.c` `group_circ_check`, as whether it succeeds. `none` is that a loop goes round
more often than there are nodes for. -/
def groupCircCheck (db : Db) (groupGraph : Option Graph) : Option Bool :=
  match groupGraph with
  | none => some true
  | some g =>
    match buildGraphLoop db (2 * db.node.length + 1) { g := g, countFlags := .group } with
    | none => none
    | some (.error _) => some false
    | some (.ok d) => do
      let g ← trimGraph (d.g.nodeList.length + 1) d.g
      return g.nodeList.isEmpty

/-! ### The relation that is checked -/

/-- The nodes that the rows of `group_link` put on the plist from a node. -/
def groupNext (db : Db) (i : TupId) : List TupId :=
  (db.groupLink.filter (·.fromId = i)).reverse.flatMap fun l => [l.toId, l.cmdid]

/-- A row of `group_link` joins two groups. -/
def GroupAdj (db : Db) (a b : TupId) : Prop := ∃ l ∈ db.groupLink, l.fromId = a ∧ l.toId = b

/-- From group to command and from command to group, for the rows of the groups that the registered
ones lead to. -/
def GroupEdge (db : Db) (starts : List TupId) (a b : TupId) : Prop :=
  ∃ l ∈ db.groupLink, (∃ i ∈ starts, ReflTransGen (GroupAdj db) i l.fromId) ∧
    (a = l.fromId ∧ b = l.cmdid ∨ a = l.cmdid ∧ b = l.toId)

section

variable {db : Db} {g g₁ g₂ : Graph} {s : Search TupId} {tent cmdtent : TupEntry} {i cur : TupId}

theorem mem_groupNext {a b : TupId} :
    b ∈ groupNext db a ↔ ∃ l ∈ db.groupLink, l.fromId = a ∧ (b = l.toId ∨ b = l.cmdid) := by
  simp only [groupNext, List.mem_flatMap, List.mem_reverse, List.mem_filter, decide_eq_true_eq,
    List.mem_cons, List.not_mem_nil, or_false, and_assoc]

theorem groupNext_pos (hdb : db.Ok) (hgl : db.GroupsOk) {a b : TupId} (h : b ∈ groupNext db a) :
    0 < b := by
  obtain ⟨l, hl, -, hb⟩ := mem_groupNext.1 h
  obtain ⟨-, ⟨t, ht, htid, -⟩, u, hu, huid, -⟩ := hgl l hl
  rcases hb with rfl | rfl
  · exact htid ▸ hdb.node_pos t ht
  · exact huid ▸ hdb.node_pos u hu

/-- No row comes from a command. -/
theorem groupNext_cmd (hdb : db.Ok) (hgl : db.GroupsOk) {l : GroupLink} (hl : l ∈ db.groupLink) :
    groupNext db l.cmdid = [] := by
  rw [List.eq_nil_iff_forall_not_mem]
  intro b hb
  obtain ⟨l', hl', hfrom, -⟩ := mem_groupNext.1 hb
  obtain ⟨⟨t, ht, htid, htype⟩, -⟩ := hgl l' hl'
  obtain ⟨-, -, u, hu, huid, hutype⟩ := hgl l hl
  have heq : t = u := List.inj_on_of_nodup_map hdb.node_nodup ht hu (by rw [htid, huid, hfrom])
  rw [heq, hutype] at htype
  cases htype

/-- The rows that are found from the starting groups are those of the groups they lead to. -/
theorem reach_groupNext (hdb : db.Ok) (hgl : db.GroupsOk) {a : TupId} {l : GroupLink}
    (hl : l ∈ db.groupLink) :
    ReflTransGen (Next (groupNext db)) a l.fromId ↔ ReflTransGen (GroupAdj db) a l.fromId := by
  constructor
  · have hrow : groupNext db l.fromId ≠ [] := by
      have : l.toId ∈ groupNext db l.fromId := mem_groupNext.2 ⟨l, hl, rfl, .inl rfl⟩
      exact List.ne_nil_of_mem this
    -- every node on the way has rows, so none is a command
    generalize l.fromId = b at hrow
    intro h
    induction h with
    | refl => exact .refl
    | @tail x y hpath hxy ih =>
      obtain ⟨l', hl', rfl, rfl | rfl⟩ := mem_groupNext.1 hxy
      · exact (ih (List.ne_nil_of_mem hxy)).tail ⟨l', hl', rfl, rfl⟩
      · exact absurd (groupNext_cmd hdb hgl hl') hrow
  · apply ReflTransGen.mono
    rintro x y ⟨l', hl', rfl, rfl⟩
    exact mem_groupNext.2 ⟨l', hl', rfl, .inl rfl⟩

/-! ### Two nodes at a time -/

/-- The graph in which an entry has just been given a node. -/
theorem createNode_eq (hroot : tent.tupid ∉ g.nodeRoot) :
    createNode g tent = some { g with
      nodeList := g.nodeList ++ [tent.tupid]
      nodeRoot := tent.tupid :: g.nodeRoot
      node := Function.update g.node tent.tupid
        { newNode tent with activeList := some .nodeList } } := by
  have hnone : ((g.setNode tent.tupid (newNode tent)).node tent.tupid).activeList = .none := by
    simp [newNode]
  simp only [createNode, nodeInsertTail, hnone, ne_eq, not_true_eq_false, if_false,
    Option.bind_eq_bind, Option.bind_some]
  rw [if_neg (by simpa [findNode, Graph.setNode, Graph.setList] using hroot)]
  simp [Graph.setNode, Graph.setList, Graph.list]

/-- The graph in which a node of the node list has just been expanded. -/
theorem expandNode_eq (hlist : (g.node i).activeList = some .nodeList) :
    expandNode g i = ({ g with
      nodeList := g.nodeList.erase i
      plist := i :: g.plist
      node := Function.update g.node i
        { g.node i with expanded := true, activeList := some .plist } }, true) := by
  simp only [expandNode, nodeRemoveList, nodeInsertHead, setNode_node, if_true, hlist, ne_eq,
    not_true_eq_false, if_false]
  simp [Graph.setNode, Graph.setList, Graph.list]

/-- Registering a group puts it on the plist as `expand_node` does. -/
theorem register_eq (hlist : (g.node i).activeList = some .nodeList) :
    (do
      let g ← nodeRemoveList .nodeList g i
      let g ← nodeInsertHead .plist g i
      return g.setNode i { g.node i with expanded := true }) = some (expandNode g i).1 := by
  rw [expandNode_eq hlist]
  simp only [nodeRemoveList, nodeInsertHead, hlist, ne_eq, not_true_eq_false, if_false,
    Option.bind_eq_bind, Option.bind_some, setNode_node, if_true]
  simp [Graph.setNode, Graph.setList, Graph.list]

theorem findOrCreateNode_of_mem (h : tent.tupid ∈ g.nodeRoot) : findOrCreateNode g tent = some g := by
  simp [findOrCreateNode, findNode, h]

theorem findOrCreateNode_of_not_mem (h : tent.tupid ∉ g.nodeRoot) :
    findOrCreateNode g tent = createNode g tent := by
  simp [findOrCreateNode, findNode, h]

theorem expandOnce_of_expanded (h : (g.node i).expanded = true) : expandOnce g i = some g := by
  simp [expandOnce, h]

theorem expandOnce_of_new (h : (g.node i).expanded = false)
    (hlist : (g.node i).activeList = some .nodeList) :
    expandOnce g i = some (expandNode g i).1 := by
  rw [expandOnce, h, if_neg Bool.false_ne_true, expandNode_eq hlist]

/-- The node of the command may as well be made after the group has been expanded. -/
theorem findOrCreate_expand_comm (tent : TupEntry) (hroot : i ∈ g.nodeRoot)
    (hlist : (g.node i).expanded = false → (g.node i).activeList = some .nodeList) :
    (findOrCreateNode g tent).bind (expandOnce · i) =
      (expandOnce g i).bind (findOrCreateNode · tent) := by
  by_cases hmem : tent.tupid ∈ g.nodeRoot
  · rw [findOrCreateNode_of_mem hmem, Option.bind_some]
    cases hexp : (g.node i).expanded with
    | true => rw [expandOnce_of_expanded hexp, Option.bind_some, findOrCreateNode_of_mem hmem]
    | false =>
      rw [expandOnce_of_new hexp (hlist hexp), expandNode_eq (hlist hexp), Option.bind_some,
        findOrCreateNode_of_mem (by exact hmem)]
  · have hne : i ≠ tent.tupid := fun heq => hmem (heq ▸ hroot)
    rw [findOrCreateNode_of_not_mem hmem, createNode_eq hmem, Option.bind_some]
    cases hexp : (g.node i).expanded with
    | true =>
      rw [expandOnce_of_expanded hexp, Option.bind_some, findOrCreateNode_of_not_mem hmem,
        createNode_eq hmem]
      exact expandOnce_of_expanded (by simpa [hne] using hexp)
    | false =>
      have hlist' := hlist hexp
      rw [expandOnce_of_new hexp hlist', expandNode_eq hlist', Option.bind_some,
        findOrCreateNode_of_not_mem (by exact hmem), createNode_eq (by exact hmem),
        expandOnce_of_new (by simpa [hne] using hexp) (by simpa [hne] using hlist'),
        expandNode_eq (by simpa [hne] using hlist')]
      have herase : (g.nodeList ++ [tent.tupid]).erase i = g.nodeList.erase i ++ [tent.tupid] := by
        by_cases hi : i ∈ g.nodeList
        · exact List.erase_append_left _ hi
        · rw [List.erase_append_right _ hi, List.erase_of_not_mem hi,
            List.erase_of_not_mem (by simpa using hne)]
      simp [herase, Function.update_of_ne hne, Function.update_comm hne]

/-- A node is made and put on the plist, unless it has been. -/
def visitNode (g : Graph) (tent : TupEntry) : Option Graph :=
  (findOrCreateNode g tent).bind (expandOnce · tent.tupid)

theorem Tracks.visit (h : Tracks db g s) (ht : tent ∈ db.node) (hi : 0 < tent.tupid) :
    ∃ g', visitNode g tent = some g' ∧ Tracks db g' (s.see tent.tupid) ∧ g'.edges = g.edges := by
  by_cases hf : s.mark tent.tupid = .fresh
  · obtain ⟨g₁, g₂, hfind, hnode, hexp, htr, hedges, -⟩ := h.visit_fresh ht hi hf
    have hnew : (g₁.node tent.tupid).expanded = false := by simp [hnode, newNode]
    refine ⟨g₂, ?_, htr, hedges⟩
    rw [visitNode, hfind, Option.bind_some, expandOnce, hnew, hexp]
    rfl
  · obtain ⟨hfind, hexp, -⟩ := h.visit_seen hi hf
    refine ⟨g, ?_, ?_, rfl⟩
    · rw [visitNode, hfind, Option.bind_some, expandOnce_of_expanded hexp]
    · rw [see_of_ne_fresh hf]
      exact h

/-- `build_group_cb` meets the group and the command, in either order. -/
theorem buildGroupCb_nodes (cmdtent : TupEntry) (h : Tracks db g s) (ht : tent ∈ db.node) (hi : 0 < tent.tupid) :
    (do
      let g ← findOrCreateNode g tent
      let g ← findOrCreateNode g cmdtent
      let g ← expandOnce g tent.tupid
      expandOnce g cmdtent.tupid) = (visitNode g tent).bind (visitNode · cmdtent) := by
  have hmade : ∃ g₁, findOrCreateNode g tent = some g₁ ∧ tent.tupid ∈ g₁.nodeRoot ∧
      ((g₁.node tent.tupid).expanded = false →
        (g₁.node tent.tupid).activeList = some .nodeList) := by
    by_cases hf : s.mark tent.tupid = .fresh
    · obtain ⟨g₁, g₂, hfind, hnode, hexp, htr, -⟩ := h.visit_fresh ht hi hf
      refine ⟨g₁, hfind, ?_, fun _ => by simp [hnode]⟩
      have hroot := (htr.sim.nodeRoot tent.tupid hi).2 (by simp [see_mark_of_fresh hf])
      rwa [(expandNode_spec hexp).nodeRoot] at hroot
    · obtain ⟨hfind, hexp, -⟩ := h.visit_seen hi hf
      exact ⟨g, hfind, (h.sim.nodeRoot _ hi).2 hf, fun hno => by simp [hexp] at hno⟩
  obtain ⟨g₁, hfind, hroot, hlist⟩ := hmade
  have hcomm := findOrCreate_expand_comm cmdtent hroot hlist
  simp only [Option.bind_eq_bind, visitNode, hfind, Option.bind_some]
  rw [← Option.bind_assoc, hcomm, Option.bind_assoc]

/-- The edges that a list of rows makes from a group, newest first. -/
def rowEdges (cur : TupId) (ls : List GroupLink) : List Edge :=
  (ls.flatMap fun l => [⟨cur, l.cmdid, .normal⟩, ⟨l.cmdid, l.toId, .normal⟩]).reverse

/-- The entries that are read for a row of `group_link`. -/
structure RowOf (db : Db) (row : TupEntry × TupEntry) (l : GroupLink) : Prop where
  mem : row.1 ∈ db.node
  pos : 0 < row.1.tupid
  toId : row.1.tupid = l.toId
  cmd_mem : row.2 ∈ db.node
  cmd_pos : 0 < row.2.tupid
  cmdid : row.2.tupid = l.cmdid

/-- `build_group_cb` over rows meets the groups and the commands. -/
theorem foldlM_buildGroupCb_spec {d : DepGraph} {rows : List (TupEntry × TupEntry)}
    {ls : List GroupLink} (cur : TupId) (h : Tracks db d.g s)
    (hrows : List.Forall₂ (RowOf db) rows ls) :
    ∃ g', rows.foldlM (buildGroupCb cur) d = .ok { d with g := g' } ∧
      Tracks db g' (s.seeAll (ls.flatMap fun l => [l.toId, l.cmdid])) ∧
      g'.edges = rowEdges cur ls ++ d.g.edges := by
  induction hrows generalizing d s with
  | nil => exact ⟨d.g, rfl, h, rfl⟩
  | @cons row l rows ls hrow _ ih =>
    obtain ⟨ht, hi, hto, hc, hic, hcmd⟩ := hrow
    obtain ⟨g₁, hg₁, htr₁, hedges₁⟩ := h.visit ht hi
    obtain ⟨g₂, hg₂, htr₂, hedges₂⟩ := htr₁.visit hc hic
    have hnodes := buildGroupCb_nodes row.2 h ht hi
    rw [hg₁, Option.bind_some, hg₂] at hnodes
    set g₃ := createEdge (createEdge g₂ cur row.2.tupid .normal) row.2.tupid row.1.tupid .normal
      with hg₃
    have hcb : buildGroupCb cur d row = .ok { d with g := g₃ } := by
      unfold buildGroupCb
      dsimp only
      simp only [Option.bind_eq_bind, Option.pure_def] at hnodes ⊢
      simp only [← Option.bind_assoc] at hnodes ⊢
      rw [hnodes]
      rfl
    have hsame : SameSearch g₂ g₃ := (SameSearch.createEdge g₂ cur row.2.tupid .normal).trans
      (.createEdge _ row.2.tupid row.1.tupid .normal)
    obtain ⟨g', hg', htr', hedges'⟩ := ih (d := { d with g := g₃ }) (htr₂.congr hsame)
    refine ⟨g', ?_, ?_, ?_⟩
    · rw [List.foldlM_cons, hcb]
      exact hg'
    · rw [hto, hcmd] at htr'
      exact htr'
    · rw [hedges']
      simp [rowEdges, hg₃, createEdge, hedges₂, hedges₁, hto, hcmd]

/-- The rows of a group can be read. -/
theorem groupLinkRows_spec (hdb : db.Ok) (hgl : db.GroupsOk) (i : TupId) :
    ∃ rows, groupLinkRows db i = some rows ∧
      List.Forall₂ (RowOf db) rows (db.groupLink.filter (·.fromId = i)).reverse := by
  have key : ∀ ls : List GroupLink, (∀ l ∈ ls, l ∈ db.groupLink) →
      ∃ rows, (ls.mapM fun l => do
        let tent ← tupEntryAdd db l.toId
        let cmdtent ← tupEntryAdd db l.cmdid
        return (tent, cmdtent)) = some rows ∧ List.Forall₂ (RowOf db) rows ls := by
    intro ls
    induction ls with
    | nil => exact fun _ => ⟨[], rfl, .nil⟩
    | cons l ls ih =>
      intro hls
      obtain ⟨rows, hrows, hall⟩ := ih fun x hx => hls x (List.mem_cons_of_mem l hx)
      obtain ⟨-, ⟨t, ht, htid, -⟩, u, hu, huid, -⟩ := hgl l (hls l List.mem_cons_self)
      refine ⟨(t, u) :: rows, ?_,
        .cons ⟨ht, hdb.node_pos t ht, htid, hu, hdb.node_pos u hu, huid⟩ hall⟩
      have ht' := hdb.tupEntryAdd_of_mem ht
      have hu' := hdb.tupEntryAdd_of_mem hu
      rw [htid] at ht'
      rw [huid] at hu'
      rw [List.mapM_cons, ht', hu', hrows]
      rfl
  exact key _ fun l hl => List.mem_of_mem_filter (List.mem_reverse.1 hl)

theorem mem_rowEdges {ls : List GroupLink} {e : Edge} :
    e ∈ rowEdges cur ls ↔ ∃ l ∈ ls, e = ⟨cur, l.cmdid, .normal⟩ ∨ e = ⟨l.cmdid, l.toId, .normal⟩ := by
  simp [rowEdges]

/-! ### The run -/

/-- While the graph of groups is built: its edges are those of the rows that have been followed. -/
structure GroupInv (db : Db) (d : DepGraph) (s : Search TupId) : Prop where
  countFlags : d.countFlags = .group
  adj : ∀ a b, Adj d.g a b ↔ ∃ l ∈ db.groupLink, (s.mark l.fromId = .active ∨ s.mark l.fromId = .done) ∧
    (a = l.fromId ∧ b = l.cmdid ∨ a = l.cmdid ∧ b = l.toId)

theorem GroupInv.congr {d : DepGraph} {s' : Search TupId} {g' : Graph} (h : GroupInv db d s)
    (hedges : g'.edges = d.g.edges)
    (hseen : ∀ i, (s'.mark i = .active ∨ s'.mark i = .done) ↔
      (s.mark i = .active ∨ s.mark i = .done)) : GroupInv db { d with g := g' } s' where
  countFlags := h.countFlags
  adj a b := by
    have := h.adj a b
    simp only [Adj, hedges, hseen] at this ⊢
    exact this

/-- What the rows of a group make are the edges of that group. -/
theorem GroupInv.follow {d : DepGraph} {g' : Graph} (h : GroupInv db d s)
    (hedges : g'.edges = rowEdges cur (db.groupLink.filter (·.fromId = cur)).reverse ++ d.g.edges) :
    GroupInv db { d with g := g' } ((s.seeAll (groupNext db cur)).setMark cur .active) where
  countFlags := h.countFlags
  adj a b := by
    have hpushed := pushed_seeAll s (groupNext db cur)
    have hold : Adj g' a b ↔ (∃ e ∈ rowEdges cur (db.groupLink.filter (·.fromId = cur)).reverse,
        e.src = a ∧ e.dest = b) ∨ Adj d.g a b := by
      simp only [Adj, hedges, List.mem_append, or_and_right, exists_or]
    have hmark : ∀ i, (((s.seeAll (groupNext db cur)).setMark cur .active).mark i = .active ∨
        ((s.seeAll (groupNext db cur)).setMark cur .active).mark i = .done) ↔
        i = cur ∨ s.mark i = .active ∨ s.mark i = .done := by
      intro i
      rw [Search.setMark_mark]
      split_ifs with hi
      · simp [hi]
      · simp only [hpushed.active_iff, hpushed.done_iff, hi, false_or]
    rw [hold, h.adj]
    simp only [mem_rowEdges, List.mem_reverse, List.mem_filter, decide_eq_true_eq, hmark]
    constructor
    · rintro (⟨e, ⟨l, ⟨hl, hfrom⟩, rfl | rfl⟩, rfl, rfl⟩ | ⟨l, hl, hseen, hends⟩)
      · exact ⟨l, hl, .inl hfrom, .inl ⟨hfrom.symm, rfl⟩⟩
      · exact ⟨l, hl, .inl hfrom, .inr ⟨rfl, rfl⟩⟩
      · exact ⟨l, hl, .inr hseen, hends⟩
    · rintro ⟨l, hl, hfrom | hseen, hends⟩
      · refine .inl ?_
        rcases hends with ⟨rfl, rfl⟩ | ⟨rfl, rfl⟩
        · exact ⟨_, ⟨l, ⟨hl, hfrom⟩, .inl rfl⟩, hfrom.symm, rfl⟩
        · exact ⟨_, ⟨l, ⟨hl, hfrom⟩, .inr rfl⟩, rfl, rfl⟩
      · exact .inr ⟨l, hl, hseen, hends⟩

/-- Following the links of a node in the graph of groups. -/
theorem findDeps_group_spec {d : DepGraph} (cur : TupId) (hdb : db.Ok) (hgl : db.GroupsOk)
    (h : Tracks db d.g s) (hI : GroupInv db d s) :
    ∃ g', findDeps db d cur = .ok { d with g := g' } ∧
      Tracks db g' (s.seeAll (groupNext db cur)) ∧
      g'.edges = rowEdges cur (db.groupLink.filter (·.fromId = cur)).reverse ++ d.g.edges := by
  obtain ⟨rows, hrows, hall⟩ := groupLinkRows_spec hdb hgl cur
  obtain ⟨g', hg', htr, hedges⟩ := foldlM_buildGroupCb_spec cur h hall
  refine ⟨g', ?_, htr, hedges⟩
  rw [findDeps, if_pos hI.countFlags, hrows]
  exact hg'

/-! ### Registering the groups -/

theorem addGroupCircCheck_spec (h : Tracks db g s) (ht : tent ∈ db.node) (hi : 0 < tent.tupid) :
    ∃ g', addGroupCircCheck (some g) tent = some g' ∧ Tracks db g' (s.see tent.tupid) ∧
      g'.edges = g.edges := by
  by_cases hf : s.mark tent.tupid = .fresh
  · obtain ⟨g₁, g₂, hfind, hnode, hexp, htr, hedges, -⟩ := h.visit_fresh ht hi hf
    have hnot : tent.tupid ∉ g.nodeRoot := by simpa [hf] using h.sim.nodeRoot tent.tupid hi
    have hcreate : createNode g tent = some g₁ := findOrCreateNode_of_not_mem hnot ▸ hfind
    have hfound : findNode g tent.tupid = false := by simp [findNode, hnot]
    have hreg := register_eq (g := g₁) (i := tent.tupid) (by simp [hnode])
    rw [hexp] at hreg
    refine ⟨g₂, ?_, htr, hedges⟩
    simp only [addGroupCircCheck, Option.some_or, Option.bind_eq_bind, Option.bind_some, hfound, Bool.false_eq_true, if_false, hcreate]
    exact hreg
  · obtain ⟨hfind, hexp, -⟩ := h.visit_seen hi hf
    have hfound : findNode g tent.tupid = true := by
      simpa [findNode] using (h.sim.nodeRoot _ hi).2 hf
    refine ⟨g, ?_, ?_, rfl⟩
    · simp [addGroupCircCheck, hfound]
    · rw [see_of_ne_fresh hf]
      exact h

theorem addGroupCircCheck_first (h : createGraph = some g) :
    addGroupCircCheck none tent = addGroupCircCheck (some g) tent := by
  simp [addGroupCircCheck, h]

/-- Registering puts the groups on the plist. -/
theorem registerGroups_spec {tents : List TupEntry}
    (htents : ∀ t ∈ tents, t ∈ db.node ∧ 0 < t.tupid) (h : Tracks db g s) :
    ∃ g', tents.foldlM (fun groupGraph tent => (addGroupCircCheck groupGraph tent).map some)
        (some g) = some (some g') ∧
      Tracks db g' (s.seeAll (tents.map TupEntry.tupid)) ∧ g'.edges = g.edges := by
  induction tents generalizing g s with
  | nil => exact ⟨g, rfl, h, rfl⟩
  | cons t tents ih =>
    obtain ⟨ht, hi⟩ := htents t List.mem_cons_self
    obtain ⟨g₁, hg₁, htr₁, hedges₁⟩ := addGroupCircCheck_spec h ht hi
    obtain ⟨g', hg', htr', hedges'⟩ := ih (fun u hu => htents u (List.mem_cons_of_mem t hu)) htr₁
    refine ⟨g', ?_, htr', hedges'.trans hedges₁⟩
    rw [List.foldlM_cons, hg₁]
    exact hg'

/-! ### The check -/

/-- When the loop has ended, the edges are those of the relation, between nodes of the list. -/
theorem edges_of_run {d : DepGraph} {starts : List TupId} (hdb : db.Ok) (hgl : db.GroupsOk)
    (hstarts : ∀ i ∈ starts, 0 < i) (htr : Tracks db d.g s)
    (hinv : Rooted starts (groupNext db) s) (hroot : s.mark 0 = .active) (hI : GroupInv db d s)
    (hp : d.g.plist = []) :
    (∀ a b, Adj d.g a b ↔ GroupEdge db starts a b) ∧ EdgesListed d.g := by
  have hlinks : ∀ i, ∀ j ∈ groupNext db i, 0 < j := fun i j hj => groupNext_pos hdb hgl hj
  have hstack : s.stack = [0] := by rw [htr.stack, hp, List.nil_append]
  have hpos : ∀ l ∈ db.groupLink, 0 < l.fromId := by
    intro l hl
    obtain ⟨⟨t, ht, htid, -⟩, -⟩ := hgl l hl
    exact htid ▸ hdb.node_pos t ht
  have hseen : ∀ l ∈ db.groupLink, (s.mark l.fromId = .active ∨ s.mark l.fromId = .done) ↔
      s.mark l.fromId = .done := by
    intro l hl
    refine ⟨?_, .inr⟩
    rintro (hk | hk)
    · exact hinv.done_of_ne_fresh hstack (hpos l hl).ne' (by simp [hk])
    · exact hk
  constructor
  · intro a b
    rw [hI.adj, GroupEdge]
    refine exists_congr fun l => and_congr_right fun hl => and_congr_left fun _ => ?_
    rw [hseen l hl, hinv.exhausted hstack hroot (hpos l hl).ne', reach_rooted hstarts hlinks]
    constructor
    · rintro (h0 | ⟨i, hi, hreach⟩)
      · exact absurd h0 (hpos l hl).ne'
      · exact ⟨i, hi, (reach_groupNext hdb hgl hl).1 hreach⟩
    · rintro ⟨i, hi, hreach⟩
      exact .inr ⟨i, hi, (reach_groupNext hdb hgl hl).2 hreach⟩
  · intro e he
    obtain ⟨l, hl, hfrom, hends⟩ := (hI.adj e.src e.dest).1 ⟨e, he, rfl, rfl⟩
    have hlisted : ∀ i, 0 < i → s.mark i ≠ .fresh → i ∈ d.g.nodeList := by
      intro i hi hne
      exact (htr.mem_nodeList hinv.mem_stack i hi).2 (hinv.done_of_ne_fresh hstack hi.ne' hne)
    have hfrom' : l.fromId ∈ d.g.nodeList :=
      hlisted _ (hpos l hl) (by simp [(hseen l hl).1 hfrom])
    have hnext : ∀ j ∈ groupNext db l.fromId, j ∈ d.g.nodeList := by
      intro j hj
      refine hlisted j (hlinks _ j hj) ((hinv.closed _ hfrom).2 j ?_)
      rwa [rooted, if_neg (hpos l hl).ne']
    have hcmd := hnext l.cmdid (mem_groupNext.2 ⟨l, hl, rfl, .inr rfl⟩)
    have hto := hnext l.toId (mem_groupNext.2 ⟨l, hl, rfl, .inl rfl⟩)
    rcases hends with ⟨hsrc, hdest⟩ | ⟨hsrc, hdest⟩ <;> rw [hsrc, hdest]
    · exact ⟨hfrom', hcmd⟩
    · exact ⟨hcmd, hto⟩

/-- The check of registered groups ends, and it fails if and only if there is a cycle. -/
theorem groupCircCheck_iff (hdb : db.Ok) (hgl : db.GroupsOk) {tents : List TupEntry}
    (htents : ∀ t ∈ tents, t ∈ db.node) :
    ∃ graph passes, registerGroups tents = some graph ∧ groupCircCheck db graph = some passes ∧
      (passes = false ↔ ∃ n, TransGen (GroupEdge db (tents.map TupEntry.tupid)) n n) := by
  have hpos : ∀ t ∈ tents, t ∈ db.node ∧ 0 < t.tupid :=
    fun t ht => ⟨htents t ht, hdb.node_pos t (htents t ht)⟩
  cases tents with
  | nil =>
    refine ⟨none, true, rfl, rfl, iff_of_false Bool.true_eq_false.mp ?_⟩
    rintro ⟨n, hcyc⟩
    obtain ⟨b, ⟨l, -, ⟨i, hi, -⟩, -⟩, -⟩ := TransGen.head'_iff.1 hcyc
    exact absurd hi List.not_mem_nil
  | cons t ts =>
    set ids := (t :: ts).map TupEntry.tupid with hids
    have hids_pos : ∀ i ∈ ids, 0 < i := by
      intro i hi
      obtain ⟨u, hu, rfl⟩ := List.mem_map.1 hi
      exact (hpos u hu).2
    have hlinks : ∀ i, ∀ j ∈ groupNext db i, 0 < j := fun i j hj => groupNext_pos hdb hgl hj
    obtain ⟨g₀, hg₀, htr₀, hedges₀⟩ := createGraph_tracks db
    obtain ⟨g, hg, htr, hedges⟩ := registerGroups_spec hpos htr₀
    have hreg : registerGroups (t :: ts) = some (some g) := by
      rw [registerGroups, List.foldlM_cons, addGroupCircCheck_first hg₀]
      exact hg
    have hpushed := pushed_seeAll (Search.init (0 : TupId)) ids
    have hstart : GroupInv db { g := g, countFlags := .group }
        (((Search.init 0).seeAll ids).setMark 0 .active) := by
      refine ⟨rfl, fun a b => iff_of_false ?_ ?_⟩
      · simp [Adj, hedges, hedges₀]
      · rintro ⟨l, hl, hseen, -⟩
        obtain ⟨⟨u, hu, huid, -⟩, -⟩ := hgl l hl
        have hne : l.fromId ≠ 0 := by
          rw [← huid]
          exact (hdb.node_pos u hu).ne'
        rw [Search.setMark_mark, if_neg hne, hpushed.active_iff, hpushed.done_iff] at hseen
        simp [hne, Search.init] at hseen
    have h0 : 0 ∉ (db.node.map TupEntry.tupid).toFinset := by
      intro h
      obtain ⟨u, hu, hid⟩ := List.mem_map.1 (List.mem_toFinset.1 h)
      exact (hdb.node_pos u hu).ne' hid
    have hcard : (db.node.map TupEntry.tupid).toFinset.card ≤ db.node.length := by
      simpa using List.toFinset_card_le (db.node.map TupEntry.tupid)
    have hrun := buildGraphLoop_spec (B := fun _ => False) (I := GroupInv db)
      hids_pos hlinks ?find ?leave (htr.mark_root .active)
      rooted_start (by simp) hstart
      (show _ < 2 * db.node.length + 1 by rw [measure_seeAll_init _ h0]; omega)
    · obtain ⟨d, s, hd, htr, hinv, hroot, hI, hp⟩ := hrun.resolve_left (by rintro ⟨_, _, hno⟩; exact hno)
      obtain ⟨hadj, hlisted⟩ := edges_of_run hdb hgl hids_pos htr hinv hroot hI hp
      obtain ⟨g', hg', -, hmem⟩ := trimGraph_spec htr.sim.ok hlisted
      refine ⟨some g, g'.nodeList.isEmpty, hreg, by simp [groupCircCheck, hd, hg'], ?_⟩
      have hrel : GroupEdge db ids = Adj d.g := by
        funext a b
        exact propext (hadj a b).symm
      rw [hrel, ← exists_between_iff, ← Bool.not_eq_true, List.isEmpty_iff]
      constructor
      · intro hne
        obtain ⟨n, hn⟩ := List.exists_mem_of_ne_nil _ hne
        exact ⟨n, ((hmem n).1 hn).2⟩
      · rintro ⟨n, hn⟩
        obtain ⟨q, ⟨e, he, rfl, rfl⟩, -⟩ := hn.pred
        exact List.ne_nil_of_mem ((hmem _).2 ⟨(hlisted e he).2, hn⟩)
    case find =>
      intro d s n rest htr hinv hI hp hk hn
      obtain ⟨g', hg', htr', hedges'⟩ := findDeps_group_spec n hdb hgl htr hI
      refine .inr ⟨{ d with g := g' }, hg', htr', ?_⟩
      exact (hI.follow hedges').congr rfl fun _ => .rfl
    case leave =>
      intro d s n rest g' hI hs hk hedges htent
      apply hI.congr hedges
      intro i
      by_cases hi : i = n <;> simp [hi, hk]

/-- `trim_graph` ends on every graph, and leaves the nodes that can be reached from a cycle and can
reach one; and so `group_circ_check` fails if and only if the registered groups lead to a cycle. -/
theorem groupCircCheck_spec (hdb : db.Ok) (hgl : db.GroupsOk) {tents : List TupEntry}
    (htents : ∀ t ∈ tents, t ∈ db.node) :
    (∀ g, ListOk g → EdgesListed g → ∃ g', trimGraph (g.nodeList.length + 1) g = some g' ∧
      ∀ n, n ∈ g'.nodeList ↔ n ∈ g.nodeList ∧ Between (Adj g) n) ∧
    ∃ graph passes, registerGroups tents = some graph ∧ groupCircCheck db graph = some passes ∧
      (passes = false ↔ ∃ n, TransGen (GroupEdge db (tents.map TupEntry.tupid)) n n) := by
  refine ⟨fun g hok hg => ?_, groupCircCheck_iff hdb hgl htents⟩
  obtain ⟨g', hg', -, hmem⟩ := trimGraph_spec hok hg
  exact ⟨g', hg', hmem⟩

end

theorem groupCircCheck_twoGroups :
    (∀ g, ListOk g → EdgesListed g → ∃ g', trimGraph (g.nodeList.length + 1) g = some g' ∧
      ∀ n, n ∈ g'.nodeList ↔ n ∈ g.nodeList ∧ Between (Adj g) n) ∧
    ∃ graph passes, registerGroups (twoGroups.node.take 1) = some graph ∧
      groupCircCheck twoGroups graph = some passes ∧
      (passes = false ↔
        ∃ n, TransGen (GroupEdge twoGroups ((twoGroups.node.take 1).map TupEntry.tupid)) n n) :=
  groupCircCheck_spec ⟨by decide, by decide, by decide, by decide⟩
    (by unfold Db.GroupsOk; decide) (by decide)

end Metatup
