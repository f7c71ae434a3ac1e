import Metatup.Db.RuleLinks
import Metatup.Graph.Build
import Mathlib.Algebra.BigOperators.Group.List.Basic
import Mathlib.Algebra.Ring.Int.Defs

/-!
# The graph of an update

`build_graph` for the graphs that are executed: the starting nodes are those with a flag, the links
are the normal links and, from a group, the links to the groups that its commands write. Meeting a
node that is on the plist for the second time is reported as a circular dependency.

* `buildGraph`: from the starting nodes to the end of the loop.
* `BuildInv`: the edges and the counts while it runs.
* `buildGraph_spec`: it ends; a reported edge is on a cycle, and otherwise the graph is complete and
  counted.
-/

namespace Metatup

open Relation Lib

/-- The groups that the commands a group is an input of write. -/
def groupTargets (db : Db) (i : TupId) : List TupId :=
  ((db.groupLink.filter (·.fromId = i)).map GroupLink.toId).dedup

/-- The node is a group. -/
def isGroupNode (db : Db) (i : TupId) : Bool := (tupEntryAdd db i).any (·.type = .group)

/-- What `build_graph` follows from a node. -/
def linksOf (db : Db) (i : TupId) : List TupId :=
  outputsOf db i ++ if isGroupNode db i then groupTargets db i else []

/-- The rows of `group_link` go from groups to groups, through commands. -/
def Db.GroupsOk (db : Db) : Prop := ∀ l ∈ db.groupLink,
  (∃ t ∈ db.node, t.tupid = l.fromId ∧ t.type = .group) ∧
    (∃ t ∈ db.node, t.tupid = l.toId ∧ t.type = .group) ∧
      ∃ t ∈ db.node, t.tupid = l.cmdid ∧ t.type = .cmd

/-- Sticky links come from nodes. -/
def Db.StickyOk (db : Db) : Prop := ∀ l ∈ db.stickyLink, ∃ t ∈ db.node, t.tupid = l.fromId

/-- A sticky link from a node of the graph becomes an edge. -/
def addStickyEdge (n : TupId) (g : Graph) (i : TupId) : Graph :=
  if findNode g i then createEdge g i n .sticky else g

/-- Source: `graph.c` `add_graph_stickies` -/
def addGraphStickies (db : Db) (g : Graph) : Option Graph :=
  g.nodeList.foldlM (fun g n =>
    if (g.node n).tent.type = .cmd then do
      let stickyRoot ← getStickyInputs db n
      return stickyRoot.ids.foldl (addStickyEdge n) g
    else return g) g

/-- The end of `build_graph`, where there are no commands with transient outputs to attach. -/
def finishGraph (db : Db) (d : DepGraph) : Except BuildError DepGraph :=
  if d.countFlags = .group ∨ d.countFlags = .dir then .ok d
  else
    match addGraphStickies db d.g with
    | none => .error .internal
    | some g => .ok { d with g := g }

/-- Source: `graph.c` `build_graph`, with what its callers do before: `create_graph`, and
`build_graph_cb` for every starting node. -/
def buildGraph (db : Db) (countFlags : NodeType) (starts : List TupEntry) :
    Option (Except BuildError DepGraph) :=
  match createGraph with
  | none => some (.error .internal)
  | some g =>
    match starts.foldlM (buildGraphCb rootEntry.tupid) { g := g, countFlags := countFlags } with
    | .error e => some (.error e)
    | .ok d => do
      match ← buildGraphLoop db (2 * db.node.length + 1) d with
      | .error e => some (.error e)
      | .ok d => some (finishGraph db d)

/-! ### Counting -/

/-- The seconds of the mtime of a node. -/
def mtimeOf (g : Graph) (i : TupId) : ℤ := (g.node i).tent.mtime.1

/-- The running total over a list, of which the last is added first. -/
def addMtimes : List ℤ → ℤ
  | [] => 0
  | m :: l => addMtime (addMtimes l) m

/-- What has been counted when the search is in state `s`: every node of the type that has been met,
but for those that were met over a link between groups. -/
structure Counts (d : DepGraph) (s : Search TupId) : Prop where
  nodup : d.counted.Nodup
  mem : ∀ i, i ∈ d.counted ↔ 0 < i ∧ s.mark i ≠ .fresh ∧
    countsType d.countFlags (d.g.node i).tent = true ∧ i ∉ d.viaGroup
  via : ∀ i ∈ d.viaGroup, 0 < i ∧ s.mark i ≠ .fresh
  numNodes : d.numNodes = d.counted.length
  totalMtime : d.totalMtime = addMtimes (d.counted.map (mtimeOf d.g))

/-- One unknown time makes the total unknown. -/
theorem addMtimes_eq_neg_one {l : List ℤ} (h : -1 ∈ l) : addMtimes l = -1 := by
  induction l with
  | nil => cases h
  | cons m l ih =>
    rw [addMtimes, addMtime]
    rcases List.mem_cons.1 h with rfl | h
    · by_cases hne : addMtimes l = -1
      · rw [if_neg (not_not.2 hne), hne]
      · rw [if_pos hne, if_pos rfl]
    · rw [if_neg (by simp [ih h]), ih h]

/-- Known times are added up. -/
theorem addMtimes_eq_sum {l : List ℤ} (h : ∀ m ∈ l, 0 ≤ m) : addMtimes l = l.sum := by
  have key : addMtimes l = l.sum ∧ 0 ≤ l.sum := by
    induction l with
    | nil => simp [addMtimes]
    | cons m l ih =>
      obtain ⟨heq, hpos⟩ := ih fun x hx => h x (List.mem_cons_of_mem m hx)
      have hm := h m List.mem_cons_self
      rw [addMtimes, heq, List.sum_cons, addMtime, if_pos (by omega), if_neg (by omega)]
      omega
  exact key.1

section

variable {db : Db} {d : DepGraph} {s : Search TupId} {tent : TupEntry} {cur : TupId}

theorem see_of_ne_fresh {i : TupId} (h : s.mark i ≠ .fresh) : s.see i = s := if_neg h

theorem see_mark_of_fresh {i : TupId} (h : s.mark i = .fresh) (j : TupId) :
    (s.see i).mark j = if j = i then .waiting else s.mark j := by
  simp [Search.see, h, Function.update_apply]

/-- The lists, the edges and the fields of `struct node` are not counted. -/
theorem Counts.congr {d' : DepGraph} (h : Counts d s) (hc : d'.counted = d.counted)
    (hn : d'.numNodes = d.numNodes) (hm : d'.totalMtime = d.totalMtime)
    (hv : d'.viaGroup = d.viaGroup) (hf : d'.countFlags = d.countFlags)
    (ht : ∀ i, (d'.g.node i).tent = (d.g.node i).tent) : Counts d' s where
  nodup := by rw [hc]; exact h.nodup
  mem i := by rw [hc, hf, ht, hv]; exact h.mem i
  via := by rw [hv]; exact h.via
  numNodes := by rw [hc, hn]; exact h.numNodes
  totalMtime := by
    have hmt : mtimeOf d'.g = mtimeOf d.g := by
      funext i
      simp [mtimeOf, ht]
    rw [hc, hm, hmt]
    exact h.totalMtime

/-- The marks matter only for which nodes have been met. -/
theorem Counts.mark {s' : Search TupId} (h : Counts d s)
    (hm : ∀ i, s'.mark i = .fresh ↔ s.mark i = .fresh) : Counts d s' where
  nodup := h.nodup
  mem i := by rw [h.mem, Ne, Ne, hm]
  via i hi := by
    rw [Ne, hm]
    exact h.via i hi
  numNodes := h.numNodes
  totalMtime := h.totalMtime

/-- A node that is met is counted. -/
theorem Counts.count {g₁ g₂ : Graph} (h : Counts d s) (hi : 0 < tent.tupid)
    (hf : s.mark tent.tupid = .fresh) (h₁ : (g₁.node tent.tupid).tent = tent)
    (h₂ : (g₂.node tent.tupid).tent = tent)
    (hother : ∀ j, j ≠ tent.tupid → (g₂.node j).tent = (d.g.node j).tent) :
    Counts { countNode { d with g := g₁ } tent.tupid with g := g₂ } (s.see tent.tupid) := by
  have hnot : tent.tupid ∉ d.counted := fun hm => ((h.mem _).1 hm).2.1 hf
  have hnotvia : tent.tupid ∉ d.viaGroup := fun hm => (h.via _ hm).2 hf
  have hmtime : d.counted.map (mtimeOf g₂) = d.counted.map (mtimeOf d.g) := by
    apply List.map_congr_left
    intro j hj
    have hne : j ≠ tent.tupid := fun heq => hnot (heq ▸ hj)
    simp only [mtimeOf]
    rw [hother j hne]
  have hvia : ∀ j ∈ d.viaGroup, 0 < j ∧ (s.see tent.tupid).mark j ≠ .fresh := by
    intro j hj
    obtain ⟨hpos, hne⟩ := h.via j hj
    refine ⟨hpos, ?_⟩
    rw [see_mark_of_fresh hf]
    split_ifs
    · decide
    · exact hne
  unfold countNode
  simp only [h₁]
  split_ifs with hcount
  · refine ⟨List.nodup_cons.2 ⟨hnot, h.nodup⟩, ?_, hvia, by simp [h.numNodes], ?_⟩
    · intro j
      simp only [List.mem_cons]
      by_cases hj : j = tent.tupid
      · subst hj
        simp [see_mark_of_fresh hf, h₂, hcount, hnotvia, hi]
      · rw [see_mark_of_fresh hf, if_neg hj, hother j hj, h.mem]
        simp [hj]
    · have hself : mtimeOf g₂ tent.tupid = tent.mtime.1 := by simp [mtimeOf, h₂]
      simp only [List.map_cons, addMtimes, hself, hmtime]
      rw [h.totalMtime]
  · refine ⟨h.nodup, ?_, hvia, h.numNodes, ?_⟩
    · intro j
      by_cases hj : j = tent.tupid
      · subst hj
        simp [hnot, h₂, hcount]
      · simp only
        rw [see_mark_of_fresh hf, if_neg hj, hother j hj, h.mem]
    · simp only [hmtime]
      exact h.totalMtime

/-- A group that is met over a link between groups is not counted. -/
theorem Counts.skip {g₂ : Graph} (h : Counts d s) (hi : 0 < tent.tupid)
    (hf : s.mark tent.tupid = .fresh)
    (hother : ∀ j, j ≠ tent.tupid → (g₂.node j).tent = (d.g.node j).tent) :
    Counts { d with g := g₂, viaGroup := tent.tupid :: d.viaGroup } (s.see tent.tupid) := by
  have hnot : tent.tupid ∉ d.counted := fun hm => ((h.mem _).1 hm).2.1 hf
  have hmtime : d.counted.map (mtimeOf g₂) = d.counted.map (mtimeOf d.g) := by
    apply List.map_congr_left
    intro j hj
    have hne : j ≠ tent.tupid := fun heq => hnot (heq ▸ hj)
    simp only [mtimeOf]
    rw [hother j hne]
  refine ⟨h.nodup, ?_, ?_, h.numNodes, ?_⟩
  · intro j
    by_cases hj : j = tent.tupid
    · subst hj
      simp [hnot]
    · simp only [List.mem_cons]
      rw [see_mark_of_fresh hf, if_neg hj, hother j hj, h.mem]
      simp [hj]
  · intro j hj
    rw [see_mark_of_fresh hf]
    rcases List.mem_cons.1 hj with heq | hj
    · rw [heq, if_pos rfl]
      exact ⟨hi, by decide⟩
    · obtain ⟨hpos, hne⟩ := h.via j hj
      refine ⟨hpos, ?_⟩
      split_ifs
      · decide
      · exact hne
  · simp only [hmtime]
    exact h.totalMtime

@[simp] theorem countNode_g (d : DepGraph) (i : TupId) : (countNode d i).g = d.g := by
  unfold countNode
  dsimp only
  split_ifs <;> rfl

@[simp] theorem countNode_countFlags (d : DepGraph) (i : TupId) :
    (countNode d i).countFlags = d.countFlags := by
  unfold countNode
  dsimp only
  split_ifs <;> rfl

@[simp] theorem countNode_viaGroup (d : DepGraph) (i : TupId) :
    (countNode d i).viaGroup = d.viaGroup := by
  unfold countNode
  dsimp only
  split_ifs <;> rfl

/-! ### The callbacks -/

/-- The edges from a node to the nodes of a list, newest first. -/
def edgesTo (i : TupId) (l : List TupId) : List Edge := (l.map (Edge.mk i · .normal)).reverse

theorem style_of_mem_edgesTo {i : TupId} {l : List TupId} {e : Edge} (h : e ∈ edgesTo i l) :
    e.style = .normal := by
  obtain ⟨j, -, rfl⟩ := List.mem_map.1 (List.mem_reverse.1 h)
  rfl

theorem src_of_mem_edgesTo {i : TupId} {l : List TupId} {e : Edge} (h : e ∈ edgesTo i l) :
    e.src = i := by
  obtain ⟨j, -, rfl⟩ := List.mem_map.1 (List.mem_reverse.1 h)
  rfl

/-- `d'` is `d` after callbacks that have met `ids` from `cur`. -/
structure Met (db : Db) (cur : TupId) (ids : List TupId) (d d' : DepGraph) (s : Search TupId) :
    Prop where
  tracks : Tracks db d'.g (s.seeAll ids)
  counts : Counts d' (s.seeAll ids)
  edges : d'.g.edges = edgesTo cur ids ++ d.g.edges
  countFlags : d'.countFlags = d.countFlags
  viaGroup : ∀ i ∈ d'.viaGroup, i ∈ d.viaGroup ∨ i ∈ groupTargets db cur

theorem seeAll_append (s : Search TupId) (l l' : List TupId) :
    s.seeAll (l ++ l') = (s.seeAll l).seeAll l' := List.foldl_append

theorem Met.trans {ids ids' : List TupId} {d' d'' : DepGraph} (h : Met db cur ids d d' s)
    (h' : Met db cur ids' d' d'' (s.seeAll ids)) : Met db cur (ids ++ ids') d d'' s where
  tracks := seeAll_append s ids ids' ▸ h'.tracks
  counts := seeAll_append s ids ids' ▸ h'.counts
  edges := by
    rw [h'.edges, h.edges, ← List.append_assoc, edgesTo, edgesTo, edgesTo, List.map_append,
      List.reverse_append]
  countFlags := h'.countFlags.trans h.countFlags
  viaGroup i hi := by
    rcases h'.viaGroup i hi with hi | hi
    · exact h.viaGroup i hi
    · exact .inr hi

/-- `build_graph_cb` reports a node that is being processed, and meets any other. -/
theorem buildGraphCb_spec (cur : TupId) (h : Tracks db d.g s) (hc : Counts d s) (ht : tent ∈ db.node)
    (hi : 0 < tent.tupid) :
    (s.mark tent.tupid = .active →
      buildGraphCb cur d tent = .error (.circular cur tent.tupid)) ∧
    (s.mark tent.tupid ≠ .active →
      ∃ d', buildGraphCb cur d tent = .ok d' ∧ Met db cur [tent.tupid] d d' s) := by
  by_cases hf : s.mark tent.tupid = .fresh
  · refine ⟨fun hk => absurd (hf.symm.trans hk) (by decide), fun _ => ?_⟩
    obtain ⟨g₁, g₂, hfind, hnode, hexp, htr, hedges, htent, hother⟩ := h.visit_fresh ht hi hf
    have hstate : (g₁.node tent.tupid).state ≠ .processing := by
      rw [hnode]
      simp [newNode]
    have hnew : (g₁.node tent.tupid).expanded = false := by simp [hnode, newNode]
    have hcount := hc.count hi hf (by rw [hnode, newNode]) htent hother
    have hall := (SameSearch.clearSkip cur g₂ tent.tupid).trans (.createEdge _ cur tent.tupid .normal)
    refine ⟨{ countNode { d with g := g₁ } tent.tupid with
        g := createEdge (clearSkip cur g₂ tent.tupid) cur tent.tupid .normal }, ?_,
      htr.congr hall, hcount.congr rfl rfl rfl rfl rfl hall.tent, ?_, countNode_countFlags _ _,
      fun i hi => .inl ?_⟩
    · simp only [buildGraphCb, hfind, makeEdge]
      rw [if_neg hstate]
      simp only [hnew, countNode_g, hexp, Bool.false_eq_true, if_false]
    · simp only [createEdge, clearSkip_edges, hedges]
      rfl
    · simpa using hi
  · obtain ⟨hfind, hexp, hmark⟩ := h.visit_seen hi hf
    constructor
    · intro hk
      have hst : (d.g.node tent.tupid).state = .processing := h.sim.state_of_mark hi .processing hk
      simp [buildGraphCb, hfind, makeEdge, hst]
    · intro hk
      have hst : (d.g.node tent.tupid).state ≠ .processing := by
        intro hst
        rw [hst] at hmark
        exact hk hmark
      have hall :=
        (SameSearch.clearSkip cur d.g tent.tupid).trans (.createEdge _ cur tent.tupid .normal)
      have hsee : s.see tent.tupid = s := see_of_ne_fresh hf
      refine ⟨{ d with g := createEdge (clearSkip cur d.g tent.tupid) cur tent.tupid .normal },
        ?_, ?_, ?_, ?_, rfl, fun i hi => .inl hi⟩
      · simp only [buildGraphCb, hfind, makeEdge]
        rw [if_neg hst]
        simp only [hexp, if_true]
      · rw [Search.seeAll, List.foldl_cons, hsee]
        exact h.congr hall
      · rw [Search.seeAll, List.foldl_cons, hsee]
        exact hc.congr rfl rfl rfl rfl rfl hall.tent
      · simp only [createEdge, clearSkip_edges]
        rfl

/-- `build_graph_group_cb` meets the node, and counts nothing. -/
theorem buildGraphGroupCb_spec (h : Tracks db d.g s) (hc : Counts d s) (ht : tent ∈ db.node)
    (hi : 0 < tent.tupid) (htarget : tent.tupid ∈ groupTargets db cur) :
    ∃ d', buildGraphGroupCb cur d tent = .ok d' ∧ Met db cur [tent.tupid] d d' s := by
  by_cases hf : s.mark tent.tupid = .fresh
  · obtain ⟨g₁, g₂, hfind, hnode, hexp, htr, hedges, htent, hother⟩ := h.visit_fresh ht hi hf
    have hnew : (g₁.node tent.tupid).expanded = false := by simp [hnode, newNode]
    have hall := SameSearch.createEdge g₂ cur tent.tupid .normal
    refine ⟨{ d with
        g := createEdge g₂ cur tent.tupid .normal
        viaGroup := tent.tupid :: d.viaGroup }, ?_, htr.congr hall,
      (hc.skip hi hf hother).congr rfl rfl rfl rfl rfl hall.tent, ?_, rfl, ?_⟩
    · simp [buildGraphGroupCb, hfind, expandOnce, hnew, hexp]
    · simp only [createEdge, hedges]
      rfl
    · intro i hmem
      rcases List.mem_cons.1 hmem with rfl | hmem
      · exact .inr htarget
      · exact .inl hmem
  · obtain ⟨hfind, hexp, -⟩ := h.visit_seen hi hf
    have hall := SameSearch.createEdge d.g cur tent.tupid .normal
    have hsee : s.see tent.tupid = s := see_of_ne_fresh hf
    refine ⟨{ d with g := createEdge d.g cur tent.tupid .normal }, ?_, ?_, ?_, rfl, rfl,
      fun i hmem => .inl hmem⟩
    · simp [buildGraphGroupCb, hfind, expandOnce, hexp]
    · rw [Search.seeAll, List.foldl_cons, hsee]
      exact h.congr hall
    · rw [Search.seeAll, List.foldl_cons, hsee]
      exact hc.congr rfl rfl rfl rfl rfl hall.tent

/-- `build_graph_cb` over a list: a node of it is being processed, or all of them are met. -/
theorem foldlM_buildGraphCb_spec {outs : List TupEntry} (cur : TupId) (h : Tracks db d.g s) (hc : Counts d s)
    (houts : ∀ t ∈ outs, t ∈ db.node ∧ 0 < t.tupid) :
    (∃ t ∈ outs, s.mark t.tupid = .active ∧
        outs.foldlM (buildGraphCb cur) d = .error (.circular cur t.tupid)) ∨
      ∃ d', outs.foldlM (buildGraphCb cur) d = .ok d' ∧
        Met db cur (outs.map TupEntry.tupid) d d' s := by
  induction outs generalizing d s with
  | nil => exact .inr ⟨d, rfl, h, hc, rfl, rfl, fun i hi => .inl hi⟩
  | cons t outs ih =>
    obtain ⟨ht, hi⟩ := houts t List.mem_cons_self
    obtain ⟨hbad, hgood⟩ := buildGraphCb_spec cur h hc ht hi
    rw [List.foldlM_cons]
    by_cases hk : s.mark t.tupid = .active
    · exact .inl ⟨t, List.mem_cons_self, hk, by rw [hbad hk]; rfl⟩
    · obtain ⟨d₁, hd₁, hl₁⟩ := hgood hk
      rw [hd₁]
      rcases ih hl₁.tracks hl₁.counts fun u hu => houts u (List.mem_cons_of_mem t hu) with
        ⟨u, hu, hact, herr⟩ | ⟨d', hd', hl'⟩
      · exact .inl ⟨u, List.mem_cons_of_mem t hu, (pushed_see s t.tupid).active_iff.1 hact, herr⟩
      · exact .inr ⟨d', hd', hl₁.trans hl'⟩

/-- `build_graph_group_cb` over a list meets all of it. -/
theorem foldlM_buildGraphGroupCb_spec {outs : List TupEntry} (h : Tracks db d.g s)
    (hc : Counts d s)
    (houts : ∀ t ∈ outs, t ∈ db.node ∧ 0 < t.tupid ∧ t.tupid ∈ groupTargets db cur) :
    ∃ d', outs.foldlM (buildGraphGroupCb cur) d = .ok d' ∧
      Met db cur (outs.map TupEntry.tupid) d d' s := by
  induction outs generalizing d s with
  | nil => exact ⟨d, rfl, h, hc, rfl, rfl, fun i hi => .inl hi⟩
  | cons t outs ih =>
    obtain ⟨ht, hi, htarget⟩ := houts t List.mem_cons_self
    obtain ⟨d₁, hd₁, hl₁⟩ := buildGraphGroupCb_spec h hc ht hi htarget
    obtain ⟨d', hd', hl'⟩ :=
      ih hl₁.tracks hl₁.counts fun u hu => houts u (List.mem_cons_of_mem t hu)
    refine ⟨d', ?_, hl₁.trans hl'⟩
    rw [List.foldlM_cons, hd₁]
    exact hd'

/-! ### Following the links of a node -/

theorem Db.Ok.isGroupNode_iff (hdb : db.Ok) (ht : tent ∈ db.node) :
    isGroupNode db tent.tupid = true ↔ tent.type = .group := by
  simp [isGroupNode, hdb.tupEntryAdd_of_mem ht]

theorem linksOf_pos (hdb : db.Ok) (hgl : db.GroupsOk) {i j : TupId} (hj : j ∈ linksOf db i) :
    0 < j := by
  unfold linksOf outputsOf groupTargets at hj
  rcases List.mem_append.1 hj with hj | hj
  · obtain ⟨l, hl, rfl⟩ := List.mem_map.1 hj
    obtain ⟨t, ht, hid⟩ := (hdb.normal_mem l (List.mem_of_mem_filter hl)).2
    exact hid ▸ hdb.node_pos t ht
  · split_ifs at hj
    · obtain ⟨l, hl, rfl⟩ := List.mem_map.1 (List.mem_dedup.1 hj)
      obtain ⟨t, ht, hid, -⟩ := (hgl l (List.mem_of_mem_filter hl)).2.1
      exact hid ▸ hdb.node_pos t ht
    · cases hj

/-- The groups that a group leads to can be read. -/
theorem distinctGroupLinks_spec (hdb : db.Ok) (hgl : db.GroupsOk) (i : TupId) :
    ∃ outs, distinctGroupLinks db i = some outs ∧ outs.map TupEntry.tupid = groupTargets db i ∧
      ∀ t ∈ outs, t ∈ db.node := by
  refine hdb.mapM_tupEntryAdd fun j hj => ?_
  obtain ⟨l, hl, rfl⟩ := List.mem_map.1 (List.mem_dedup.1 hj)
  obtain ⟨t, ht, hid, -⟩ := (hgl l (List.mem_of_mem_filter hl)).2.1
  exact ⟨t, ht, hid⟩

/-- Following the links of a node in the graph of an update: a node that a normal link leads to is
being processed, or all that `linksOf` names are met. -/
theorem findDeps_spec (hdb : db.Ok) (hgl : db.GroupsOk) (h : Tracks db d.g s) (hc : Counts d s)
    (hflags : d.countFlags ≠ .group) (hcur : cur ∈ d.g.nodeRoot) (hpos : 0 < cur) :
    (∃ m ∈ linksOf db cur, s.mark m = .active ∧
        findDeps db d cur = .error (.circular cur m)) ∨
      ∃ d', findDeps db d cur = .ok d' ∧ Met db cur (linksOf db cur) d d' s := by
  obtain ⟨outs, hout, hmap, hmem⟩ := hdb.getOutputs cur
  have houts : ∀ t ∈ outs, t ∈ db.node ∧ 0 < t.tupid :=
    fun t ht => ⟨hmem t ht, hdb.node_pos t (hmem t ht)⟩
  unfold findDeps
  rw [if_neg hflags, hout]
  rcases foldlM_buildGraphCb_spec cur h hc houts with ⟨t, ht, hact, herr⟩ | ⟨d₁, hd₁, hl₁⟩
  · refine .inl ⟨t.tupid, ?_, hact, ?_⟩
    · rw [linksOf, ← hmap]
      exact List.mem_append_left _ (List.mem_map_of_mem ht)
    · simp only [entriesOr, bind, Except.bind, herr]
  · right
    rw [hmap] at hl₁
    have hroot : cur ∈ d₁.g.nodeRoot := by
      have hfresh := (pushed_seeAll s (outputsOf db cur)).ne_fresh
        ((h.sim.nodeRoot cur hpos).1 hcur)
      exact (hl₁.tracks.sim.nodeRoot cur hpos).2 hfresh
    obtain ⟨hnode, hid⟩ := hl₁.tracks.tent cur hroot hpos.ne'
    have hgroup : isGroupNode db cur = true ↔ (d₁.g.node cur).tent.type = .group := by
      have := hdb.isGroupNode_iff hnode
      rwa [hid] at this
    by_cases hg : (d₁.g.node cur).tent.type = .group
    · obtain ⟨groups, hgroups, hgmap, hgmem⟩ := distinctGroupLinks_spec hdb hgl cur
      have htargets : ∀ t ∈ groups, t ∈ db.node ∧ 0 < t.tupid ∧ t.tupid ∈ groupTargets db cur := by
        intro t ht
        refine ⟨hgmem t ht, hdb.node_pos t (hgmem t ht), ?_⟩
        rw [← hgmap]
        exact List.mem_map_of_mem ht
      obtain ⟨d₂, hd₂, hl₂⟩ := foldlM_buildGraphGroupCb_spec hl₁.tracks hl₁.counts htargets
      refine ⟨d₂, ?_, ?_⟩
      · simp only [entriesOr, bind, Except.bind, hd₁, hgroups, if_pos hg, hd₂]
      · rw [linksOf, if_pos (hgroup.2 hg), ← hgmap]
        exact hl₁.trans hl₂
    · refine ⟨d₁, ?_, ?_⟩
      · simp only [entriesOr, bind, Except.bind, hd₁, if_neg hg]
        rfl
      · rw [linksOf, if_neg (mt hgroup.1 hg), List.append_nil]
        exact hl₁

/-! ### The run -/

/-- While the graph is built: a node has one edge for each of its links once they have been followed,
and none before. -/
structure BuildInv (db : Db) (countFlags : NodeType) (starts : List TupId) (d : DepGraph)
    (s : Search TupId) : Prop where
  counts : Counts d s
  countFlags : d.countFlags = countFlags
  via : ∀ i ∈ d.viaGroup, ∃ l ∈ db.groupLink, l.toId = i
  edges : ∀ i, outEdges d.g i = if s.mark i = .active ∨ s.mark i = .done then
    edgesTo i (rooted starts (linksOf db) i) else []

variable {countFlags : NodeType} {starts : List TupId} {starts' : List TupEntry}

/-- Neither the lists nor the states matter. -/
theorem BuildInv.congr {s' : Search TupId} {g' : Graph} (h : BuildInv db countFlags starts d s)
    (hedges : g'.edges = d.g.edges) (htent : ∀ j, (g'.node j).tent = (d.g.node j).tent)
    (hfresh : ∀ i, s'.mark i = .fresh ↔ s.mark i = .fresh)
    (hseen : ∀ i, (s'.mark i = .active ∨ s'.mark i = .done) ↔
      (s.mark i = .active ∨ s.mark i = .done)) :
    BuildInv db countFlags starts { d with g := g' } s' where
  counts := (h.counts.mark hfresh).congr rfl rfl rfl rfl rfl htent
  countFlags := h.countFlags
  via := h.via
  edges i := by
    have heq : outEdges g' i = outEdges d.g i := by rw [outEdges, outEdges, hedges]
    simp only [heq, hseen]
    exact h.edges i

theorem mem_groupTargets {i j : TupId} (h : j ∈ groupTargets db i) :
    ∃ l ∈ db.groupLink, l.toId = j := by
  obtain ⟨l, hl, rfl⟩ := List.mem_map.1 (List.mem_dedup.1 h)
  exact ⟨l, List.mem_of_mem_filter hl, rfl⟩

/-- What has been met from a node becomes its edges. -/
theorem BuildInv.follow {d' : DepGraph} (h : BuildInv db countFlags starts d s)
    (hwait : s.mark cur = .waiting)
    (hl : Met db cur (rooted starts (linksOf db) cur) d d' s) :
    BuildInv db countFlags starts d'
      ((s.seeAll (rooted starts (linksOf db) cur)).setMark cur .active) := by
  have hpushed := pushed_seeAll s (rooted starts (linksOf db) cur)
  refine ⟨hl.counts.mark ?_, hl.countFlags.trans h.countFlags, ?_, ?_⟩
  · intro i
    rw [Search.setMark_mark]
    split_ifs with hi
    · rw [hi, hpushed.mark_of_ne (by simp [hwait]), hwait]
      decide
    · rfl
  · intro i hi
    rcases hl.viaGroup i hi with hi | hi
    · exact h.via i hi
    · exact mem_groupTargets hi
  · intro i
    have hold := h.edges i
    rw [outEdges, hl.edges, List.filter_append, ← outEdges, hold]
    by_cases hi : i = cur
    · have hall : ∀ e ∈ edgesTo cur (rooted starts (linksOf db) cur),
          decide (e.src = cur) = true := fun e he => by simp [src_of_mem_edgesTo he]
      rw [hi, List.filter_eq_self.2 hall, hwait]
      simp
    · have hnone : ∀ e ∈ edgesTo cur (rooted starts (linksOf db) cur),
          ¬ decide (e.src = i) = true := by
        intro e he
        rw [src_of_mem_edgesTo he]
        simpa using Ne.symm hi
      rw [List.filter_eq_nil_iff.2 hnone, List.nil_append, Search.setMark_mark, if_neg hi]
      simp only [hpushed.active_iff, hpushed.done_iff]

/-- Where an error comes from: the reported edge is a link, and links lead back along it. -/
def OnCycle (db : Db) : BuildError → Prop
  | .circular a b => b ∈ linksOf db a ∧ TransGen (Next (linksOf db)) b a
  | .internal => False

/-- The graph at the start is one in which only the root node has been met. -/
theorem createGraph_tracks (db : Db) : ∃ g, createGraph = some g ∧ Tracks db g (.init 0) ∧ g.edges = [] := by
  have h0 : ListOk { node := fun _ => newNode rootEntry } := by
    constructor <;> simp [newNode]
  obtain ⟨g, hg, hc⟩ := createNode_spec rootEntry h0 (by simp) (by simp) (by simp)
  have hlist : g.nodeList = [0] := hc.nodeList
  have hplist : g.plist = [] := hc.plist
  have hroot : g.nodeRoot = [0] := hc.nodeRoot
  refine ⟨g, hg, ⟨⟨hc.ok, rfl, ?_, ?_, ?_, ?_⟩, ?_, ?_, ?_, ?_⟩, createNode_edges hg⟩
  · rw [hlist, hroot]
    exact fun i hi => hi
  · rw [hplist]
    exact fun i hi => absurd hi List.not_mem_nil
  · intro i hi
    simp [hroot, Search.init, hi.ne']
  · intro i hi hne
    simp [Search.init, hi.ne'] at hne
  · rw [hplist]
    rfl
  · rw [hlist]
    exact List.mem_singleton_self 0
  · rw [hroot, hlist]
    exact fun i hi => .inl hi
  · intro i hi hpos
    rw [hroot] at hi
    exact absurd (List.mem_singleton.1 hi) hpos

/-- The mark of the root node is not in the graph. -/
theorem Tracks.mark_root {g : Graph} (h : Tracks db g s) (k : Mark) :
    Tracks db g (s.setMark 0 k) where
  sim := by
    refine ⟨h.sim.ok, rfl, h.sim.nodeList_sub, h.sim.plist_sub, ?_, ?_⟩
    · intro i hi
      have := h.sim.nodeRoot i hi
      rw [this, Search.setMark]
      simp [hi.ne']
    · intro i hi hne
      have hmark : (s.setMark 0 k).mark i = s.mark i := by simp [hi.ne']
      have := h.sim.mark i hi
      simp only [hmark] at hne ⊢
      exact this hne
  stack := h.stack
  root_mem := h.root_mem
  listed := h.listed
  tent := h.tent

/-- The graph when the starting nodes have been met, and the root node counts as expanded. -/
theorem start_spec (countFlags : NodeType) (hdb : db.Ok) (hstarts : ∀ t ∈ starts', t ∈ db.node) :
    ∃ g d, createGraph = some g ∧
      starts'.foldlM (buildGraphCb rootEntry.tupid) { g := g, countFlags := countFlags } = .ok d ∧
      Tracks db d.g (((Search.init 0).seeAll (starts'.map TupEntry.tupid)).setMark 0 .active) ∧
      BuildInv db countFlags (starts'.map TupEntry.tupid) d
        (((Search.init 0).seeAll (starts'.map TupEntry.tupid)).setMark 0 .active) := by
  obtain ⟨g, hg, htr, hedges⟩ := createGraph_tracks db
  have hpos : ∀ t ∈ starts', t ∈ db.node ∧ 0 < t.tupid :=
    fun t ht => ⟨hstarts t ht, hdb.node_pos t (hstarts t ht)⟩
  have hmark : ∀ i, 0 < i → (Search.init (0 : TupId)).mark i = .fresh := by
    intro i hi
    simp [Search.init, hi.ne']
  have hzero : (Search.init (0 : TupId)).mark 0 = .waiting := by simp [Search.init]
  set d₀ : DepGraph := { g := g, countFlags := countFlags } with hd₀
  have hinv : BuildInv db countFlags (starts'.map TupEntry.tupid) d₀ (.init 0) := by
    refine ⟨⟨List.nodup_nil, ?_, by simp [hd₀], rfl, rfl⟩, rfl, by simp [hd₀], ?_⟩
    · intro i
      simp only [hd₀, List.not_mem_nil, false_iff]
      rintro ⟨hi, hne, -⟩
      exact hne (hmark i hi)
    · intro i
      have hnot : ¬((Search.init (0 : TupId)).mark i = .active ∨
          (Search.init (0 : TupId)).mark i = .done) := by
        by_cases hi : i = 0 <;> simp [Search.init, hi]
      rw [if_neg hnot, outEdges, hedges, List.filter_nil]
  rcases foldlM_buildGraphCb_spec rootEntry.tupid htr hinv.counts hpos with
    ⟨t, ht, hact, -⟩ | ⟨d, hd, hl⟩
  · rw [hmark t.tupid (hpos t ht).2] at hact
    cases hact
  · exact ⟨g, d, hg, hd, hl.tracks.mark_root .active, hinv.follow hzero hl⟩

/-- The nodes that are counted: those of the type, but for the root node and the groups that were
met over a link between groups. -/
def countedNodes (d : DepGraph) : List TupId :=
  d.g.nodeList.filter fun i =>
    i ≠ 0 ∧ countsType d.countFlags (d.g.node i).tent = true ∧ i ∉ d.viaGroup

/-- What `build_graph` leaves. -/
structure Built (db : Db) (countFlags : NodeType) (starts : List TupId) (d : DepGraph) : Prop where
  plist : d.g.plist = []
  nodup : d.g.nodeList.Nodup
  nodeList : ∀ i, i ∈ d.g.nodeList ↔
    i = 0 ∨ ∃ a ∈ starts, ReflTransGen (Next (linksOf db)) a i
  finished : ∀ i ∈ d.g.nodeList, i ≠ 0 →
    (d.g.node i).state = .finished ∧ (d.g.node i).expanded = true ∧
      (outEdges d.g i).filter (·.style = .normal) = edgesTo i (linksOf db i)
  countFlags : d.countFlags = countFlags
  via : ∀ i ∈ d.viaGroup, ∃ l ∈ db.groupLink, l.toId = i
  numNodes : d.numNodes = (countedNodes d).length
  unknown : (∃ i ∈ countedNodes d, mtimeOf d.g i = -1) → d.totalMtime = -1
  known : (∀ i ∈ countedNodes d, 0 ≤ mtimeOf d.g i) →
    d.totalMtime = ((countedNodes d).map (mtimeOf d.g)).sum

/-- When the loop has ended, what holds of the run gives what `build_graph` leaves. -/
theorem built_of_run (hdb : db.Ok) (hgl : db.GroupsOk) {starts : List TupId}
    (hstarts : ∀ i ∈ starts, 0 < i) (htr : Tracks db d.g s)
    (hinv : Rooted starts (linksOf db) s) (hroot : s.mark 0 = .active)
    (hI : BuildInv db countFlags starts d s) (hp : d.g.plist = []) :
    Built db countFlags starts d := by
  have hlinks : ∀ i, ∀ j ∈ linksOf db i, 0 < j := fun i j hj => linksOf_pos hdb hgl hj
  have hstack : s.stack = [0] := by rw [htr.stack, hp, List.nil_append]
  have hpos : ∀ i ∈ d.g.nodeList, i = 0 ∨ 0 < i := by
    intro i hi
    by_cases h0 : i = 0
    · exact .inl h0
    · obtain ⟨hnode, hid⟩ := htr.tent i (htr.sim.nodeList_sub i hi) h0
      exact .inr (hid ▸ hdb.node_pos _ hnode)
  have hlisted : ∀ i, 0 < i → (i ∈ d.g.nodeList ↔ s.mark i = .done) :=
    fun i hi => htr.mem_nodeList hinv.mem_stack i hi
  have hdone : ∀ i, 0 < i → (s.mark i ≠ .fresh ↔ s.mark i = .done) :=
    fun i hi => ⟨hinv.done_of_ne_fresh hstack hi.ne', fun hk => by simp [hk]⟩
  have hperm : (countedNodes d).Perm d.counted := by
    refine (List.perm_ext_iff_of_nodup (htr.sim.ok.nodeList_nodup.filter _) hI.counts.nodup).2 ?_
    intro i
    rw [hI.counts.mem, List.mem_filter, decide_eq_true_eq]
    constructor
    · rintro ⟨hi, h0, hcount, hvia⟩
      have hi0 := (hpos i hi).resolve_left h0
      exact ⟨hi0, (hdone i hi0).2 ((hlisted i hi0).1 hi), hcount, hvia⟩
    · rintro ⟨hi0, hne, hcount, hvia⟩
      exact ⟨(hlisted i hi0).2 ((hdone i hi0).1 hne), hi0.ne', hcount, hvia⟩
  have hmtimes := hperm.map (mtimeOf d.g)
  refine ⟨hp, htr.sim.ok.nodeList_nodup, ?_, ?_, hI.countFlags, hI.via, ?_, ?_, ?_⟩
  · intro i
    rw [← reach_rooted hstarts hlinks]
    by_cases hi : i = 0
    · subst hi
      exact iff_of_true htr.root_mem .refl
    · rw [← hinv.exhausted hstack hroot hi]
      constructor
      · exact fun hm => (hlisted i ((hpos i hm).resolve_left hi)).1 hm
      · intro hk
        have hreach := hinv.reach i (by simp [hk])
        exact (hlisted i ((pos_of_reach hstarts hlinks hreach).resolve_left hi)).2 hk
  · intro i hi h0
    have hi0 : 0 < i := (hpos i hi).resolve_left h0
    have hk := (hlisted i hi0).1 hi
    refine ⟨htr.sim.state_of_mark hi0 .finished hk, (htr.sim.mark i hi0 (by simp [hk])).1, ?_⟩
    rw [hI.edges, if_pos (.inr hk), rooted, if_neg h0, List.filter_eq_self]
    exact fun e he => by simp [style_of_mem_edgesTo he]
  · rw [hI.counts.numNodes, hperm.length_eq]
  · rintro ⟨i, hi, hm⟩
    rw [hI.counts.totalMtime]
    exact addMtimes_eq_neg_one (hm ▸ List.mem_map_of_mem (hperm.mem_iff.1 hi))
  · intro hall
    rw [hI.counts.totalMtime, hmtimes.sum_eq]
    apply addMtimes_eq_sum
    intro m hm
    obtain ⟨i, hi, rfl⟩ := List.mem_map.1 hm
    exact hall i (hperm.mem_iff.2 hi)

/-- Sticky edges leave everything but the edges as it is, and no edge of another style is made. -/
structure OnlySticky (g g' : Graph) : Prop where
  same : SameSearch g g'
  edges : ∃ new, g'.edges = new ++ g.edges ∧ ∀ e ∈ new, e.style = .sticky

theorem OnlySticky.refl (g : Graph) : OnlySticky g g := ⟨.refl g, [], rfl, by simp⟩

theorem OnlySticky.trans {g g' g'' : Graph} (h : OnlySticky g g') (h' : OnlySticky g' g'') :
    OnlySticky g g'' := by
  obtain ⟨new, hnew, hst⟩ := h.edges
  obtain ⟨new', hnew', hst'⟩ := h'.edges
  refine ⟨h.same.trans h'.same, new' ++ new, by rw [hnew', hnew, List.append_assoc], fun e he => ?_⟩
  exact (List.mem_append.1 he).elim (hst' e) (hst e)

theorem addStickyEdge_spec (n : TupId) (g : Graph) (i : TupId) : OnlySticky g (addStickyEdge n g i) := by
  unfold addStickyEdge
  split_ifs
  · exact ⟨.createEdge g i n .sticky, [⟨i, n, .sticky⟩], rfl, by simp⟩
  · exact .refl g

theorem foldl_addStickyEdge (n : TupId) (l : List TupId) (g : Graph) :
    OnlySticky g (l.foldl (addStickyEdge n) g) := by
  induction l generalizing g with
  | nil => exact .refl g
  | cons i l ih => exact (addStickyEdge_spec n g i).trans (ih _)

/-- The sticky inputs of a node can be read. -/
theorem getStickyInputs_isSome (hdb : db.Ok) (hst : db.StickyOk) (n : TupId) :
    ∃ root, getStickyInputs db n = some root := by
  have key : ∀ l : List TupId, (∀ j ∈ l, ∃ t ∈ db.node, t.tupid = j) → ∀ root : TentTree,
      ∃ root', l.foldlM (fun root j => do
        let tent ← tupEntryAdd db j
        return tentTreeAddDup root tent.tupid) root = some root' := by
    intro l
    induction l with
    | nil => exact fun _ root => ⟨root, rfl⟩
    | cons j l ih =>
      intro hl root
      obtain ⟨t, ht, rfl⟩ := hl j List.mem_cons_self
      rw [List.foldlM_cons, hdb.tupEntryAdd_of_mem ht]
      exact ih (fun k hk => hl k (List.mem_cons_of_mem _ hk)) _
  apply key
  intro j hj
  obtain ⟨l, hl, rfl⟩ := List.mem_map.1 hj
  exact hst l (List.mem_of_mem_filter hl)

/-- `add_graph_stickies` succeeds, and only makes sticky edges. -/
theorem addGraphStickies_spec (hdb : db.Ok) (hst : db.StickyOk) (g : Graph) :
    ∃ g', addGraphStickies db g = some g' ∧ OnlySticky g g' := by
  unfold addGraphStickies
  generalize g.nodeList = l
  induction l generalizing g with
  | nil => exact ⟨g, rfl, .refl g⟩
  | cons n l ih =>
    rw [List.foldlM_cons]
    by_cases hcmd : (g.node n).tent.type = .cmd
    · obtain ⟨root, hroot⟩ := getStickyInputs_isSome hdb hst n
      obtain ⟨g', hg', hsame⟩ := ih (root.ids.foldl (addStickyEdge n) g)
      refine ⟨g', ?_, (foldl_addStickyEdge n root.ids g).trans hsame⟩
      rw [if_pos hcmd, hroot]
      exact hg'
    · obtain ⟨g', hg', hsame⟩ := ih g
      refine ⟨g', ?_, hsame⟩
      rw [if_neg hcmd]
      exact hg'

/-- Sticky edges are not among what `build_graph` is to leave. -/
theorem Built.sticky {starts : List TupId} {g' : Graph} (h : Built db countFlags starts d)
    (hg : OnlySticky d.g g') : Built db countFlags starts { d with g := g' } := by
  obtain ⟨hsame, new, hnew, hst⟩ := hg
  have hcounted : countedNodes { d with g := g' } = countedNodes d := by
    simp only [countedNodes, hsame.nodeList, hsame.tent]
  have hmtime : mtimeOf g' = mtimeOf d.g := by
    funext i
    rw [mtimeOf, mtimeOf, hsame.tent]
  refine ⟨hsame.plist.trans h.plist, ?_, ?_, ?_, h.countFlags, h.via, ?_, ?_, ?_⟩
  · simp only [hsame.nodeList]
    exact h.nodup
  · simp only [hsame.nodeList]
    exact h.nodeList
  · simp only [hsame.nodeList, hsame.state, hsame.expanded]
    intro i hi h0
    obtain ⟨hfin, hexp, hedges⟩ := h.finished i hi h0
    refine ⟨hfin, hexp, ?_⟩
    have hnone : (new.filter (·.src = i)).filter (·.style = .normal) = [] := by
      rw [List.filter_eq_nil_iff]
      intro e he
      simp [hst e (List.mem_of_mem_filter he)]
    rw [outEdges, hnew, List.filter_append, List.filter_append, hnone, List.nil_append]
    exact hedges
  · rw [hcounted]
    exact h.numNodes
  · rw [hcounted, hmtime]
    exact h.unknown
  · rw [hcounted, hmtime]
    exact h.known

end

/-- A group that a command reads and the group that this command writes. -/
def twoGroups : Db where
  node := [
    { tupid := 2, dt := 1, type := .group, name := ['a'] },
    { tupid := 3, dt := 1, type := .cmd, name := ['c'], mtime := (7, 0) },
    { tupid := 4, dt := 1, type := .group, name := ['b'] }]
  normalLink := [⟨2, 3⟩, ⟨3, 4⟩]
  stickyLink := [⟨2, 3⟩]
  groupLink := [⟨2, 4, 3⟩]

/-- Three files in a row, with times before the epoch among them. -/
def oldFiles : Db where
  node := [
    { tupid := 2, dt := 1, type := .file, name := ['a'], mtime := (-3, 0) },
    { tupid := 3, dt := 1, type := .file, name := ['b'], mtime := (2, 0) },
    { tupid := 4, dt := 1, type := .file, name := ['c'], mtime := (5, 0) }]
  normalLink := [⟨2, 3⟩, ⟨3, 4⟩]

end Metatup
