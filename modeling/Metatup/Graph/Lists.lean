import Metatup.Graph.Basic

/-!
# Moving nodes between the lists

What `nodeInsertTail`, `nodeInsertHead` and `nodeRemoveList` do when they succeed, and when they
do: a node is inserted when it is on no list and removed from the list it is on. All three leave
edges, the node tree and every other field of every node alone (`SameNodes`).
-/

namespace Metatup

/-- Two graphs whose nodes differ at most in `active_list` and `state`, with the same node tree. -/
structure SameNodes (g g' : Graph) : Prop where
  nodeRoot : g'.nodeRoot = g.nodeRoot
  tent : ∀ i, (g'.node i).tent = (g.node i).tent
  expanded : ∀ i, (g'.node i).expanded = (g.node i).expanded
  skip : ∀ i, (g'.node i).skip = (g.node i).skip
  transient : ∀ i, (g'.node i).transient = (g.node i).transient

namespace SameNodes

theorem refl (g : Graph) : SameNodes g g := ⟨rfl, fun _ => rfl, fun _ => rfl, fun _ => rfl, fun _ => rfl⟩

theorem trans {g g' g'' : Graph} (h : SameNodes g g') (h' : SameNodes g' g'') :
    SameNodes g g'' where
  nodeRoot := h'.nodeRoot.trans h.nodeRoot
  tent i := (h'.tent i).trans (h.tent i)
  expanded i := (h'.expanded i).trans (h.expanded i)
  skip i := (h'.skip i).trans (h.skip i)
  transient i := (h'.transient i).trans (h.transient i)

end SameNodes

section fields

variable (g : Graph) (i j : TupId) (n : Node) (l : ListId) (xs : List TupId)

@[simp] theorem setNode_node : (g.setNode i n).node j = if j = i then n else g.node j := by
  simp [Graph.setNode, Function.update_apply]

@[simp] theorem setNode_nodeList : (g.setNode i n).nodeList = g.nodeList := rfl
@[simp] theorem setNode_plist : (g.setNode i n).plist = g.plist := rfl
@[simp] theorem setNode_nodeRoot : (g.setNode i n).nodeRoot = g.nodeRoot := rfl
@[simp] theorem setNode_edges : (g.setNode i n).edges = g.edges := rfl
@[simp] theorem setNode_list : (g.setNode i n).list l = g.list l := by cases l <;> rfl

@[simp] theorem setList_node : (g.setList l xs).node = g.node := by cases l <;> rfl
@[simp] theorem setList_nodeRoot : (g.setList l xs).nodeRoot = g.nodeRoot := by cases l <;> rfl
@[simp] theorem setList_edges : (g.setList l xs).edges = g.edges := by cases l <;> rfl

@[simp] theorem setList_list (l' : ListId) :
    (g.setList l xs).list l' = if l' = l then xs else g.list l' := by
  cases l <;> cases l' <;> simp [Graph.setList, Graph.list]

theorem setState_sameNodes (st : NodeState) : SameNodes g (g.setState i st) := by
  constructor <;> intros <;> simp only [Graph.setState, setNode_node, setNode_nodeRoot] <;>
    split <;> simp_all

/-- A change of `state` is invisible to the lists. -/
theorem ListOk.setState {g : Graph} (h : ListOk g) (i : TupId) (st : NodeState) :
    ListOk (g.setState i st) := by
  constructor
  · exact h.nodeList_nodup
  · exact h.plist_nodup
  · intro j
    simp only [Graph.setState, setNode_nodeList, setNode_node, h.mem_nodeList]
    split <;> simp_all
  · intro j
    simp only [Graph.setState, setNode_plist, setNode_node, h.mem_plist]
    split <;> simp_all

end fields

/-- What an insertion of `i` on the list `l` does. -/
structure Inserted (l : ListId) (g g' : Graph) (i : TupId) : Prop where
  ok : ListOk g'
  same : SameNodes g g'
  edges : g'.edges = g.edges
  mem : ∀ j, j ∈ g'.list l ↔ j = i ∨ j ∈ g.list l
  other : ∀ l', l' ≠ l → g'.list l' = g.list l'
  length : (g'.list l).length = (g.list l).length + 1
  state : ∀ j, (g'.node j).state = (g.node j).state

/-- What a removal of `i` from the list `l` does. -/
structure Removed (l : ListId) (g g' : Graph) (i : TupId) : Prop where
  ok : ListOk g'
  same : SameNodes g g'
  edges : g'.edges = g.edges
  mem : ∀ j, j ∈ g'.list l ↔ j ≠ i ∧ j ∈ g.list l
  other : ∀ l', l' ≠ l → g'.list l' = g.list l'
  length : (g'.list l).length + 1 = (g.list l).length
  state : ∀ j, (g'.node j).state = (g.node j).state

section insert

variable {g : Graph} {i : TupId} (l : ListId) (h : ListOk g)

include h

/-- Both insertions put `i` on the list `l` and nowhere else. -/
theorem inserted_of_perm {xs : List TupId} (hi : (g.node i).activeList = .none)
    (hxs : xs.Perm (i :: g.list l)) :
    Inserted l g ((g.setList l xs).setNode i { g.node i with activeList := some l }) i := by
  have hnot : ∀ l', i ∉ g.list l' := by
    intro l' hm
    rw [h.mem_list] at hm
    simp [hi] at hm
  have hnd : xs.Nodup := by
    rw [hxs.nodup_iff, List.nodup_cons]
    refine ⟨hnot l, ?_⟩
    cases l
    · exact h.nodeList_nodup
    · exact h.plist_nodup
  have hmem : ∀ j, j ∈ xs ↔ j = i ∨ j ∈ g.list l := fun j => by rw [hxs.mem_iff, List.mem_cons]
  refine ⟨⟨?_, ?_, ?_, ?_⟩, ⟨?_, ?_, ?_, ?_, ?_⟩, ?_, ?_, ?_, ?_, ?_⟩
  · cases l
    · exact hnd
    · exact h.nodeList_nodup
  · cases l
    · exact h.plist_nodup
    · exact hnd
  · intro j
    have hn := h.mem_nodeList j
    have hni := hnot .nodeList
    cases l
    · simp only [setNode_node, Graph.setList, setNode_nodeList, hmem, Graph.list]
      by_cases hj : j = i <;> simp [hj, hn]
    · simp only [setNode_node, Graph.setList, setNode_nodeList]
      by_cases hj : j = i
      · simp only [hj, if_true, Option.some.injEq, reduceCtorEq, iff_false]; exact hni
      · simp [hj, hn]
  · intro j
    have hn := h.mem_plist j
    have hni := hnot .plist
    cases l
    · simp only [setNode_node, Graph.setList, setNode_plist]
      by_cases hj : j = i
      · simp only [hj, if_true, Option.some.injEq, reduceCtorEq, iff_false]; exact hni
      · simp [hj, hn]
    · simp only [setNode_node, Graph.setList, setNode_plist, hmem, Graph.list]
      by_cases hj : j = i <;> simp [hj, hn]
  · simp
  all_goals intros
  all_goals try (simp only [setNode_node, setList_node]; split <;> simp_all)
  · simp
  · simp [hmem]
  · simp_all
  · simp [hxs.length_eq]

/-- Source: `graph.c` `node_insert_tail`: it succeeds on a node that is on no list. -/
theorem nodeInsertTail_spec (hi : (g.node i).activeList = .none) :
    ∃ g', nodeInsertTail l g i = some g' ∧ Inserted l g g' i := by
  refine ⟨_, by rw [nodeInsertTail, if_neg (by simp [hi])], ?_⟩
  exact inserted_of_perm l h hi (List.perm_append_singleton i _)

/-- Source: `graph.c` `node_insert_head`: it succeeds on a node that is on no list. -/
theorem nodeInsertHead_spec (hi : (g.node i).activeList = .none) :
    ∃ g', nodeInsertHead l g i = some g' ∧ Inserted l g g' i ∧ g'.list l = i :: g.list l := by
  refine ⟨_, by rw [nodeInsertHead, if_neg (by simp [hi])], ?_, by simp⟩
  exact inserted_of_perm l h hi (List.Perm.refl _)

/-- Source: `graph.c` `node_remove_list`: it succeeds on a node of the list. -/
theorem nodeRemoveList_spec (hi : i ∈ g.list l) :
    ∃ g', nodeRemoveList l g i = some g' ∧ Removed l g g' i ∧
      (g'.node i).activeList = .none := by
  have hp := (h.mem_list l i).1 hi
  have hnd : (g.list l).Nodup := by
    cases l
    · exact h.nodeList_nodup
    · exact h.plist_nodup
  have hmem : ∀ j, j ∈ (g.list l).erase i ↔ j ≠ i ∧ j ∈ g.list l := fun j => hnd.mem_erase_iff
  have hnot : ∀ l', l' ≠ l → i ∉ g.list l' := by
    intro l' hl hm
    rw [h.mem_list, hp] at hm
    exact hl (Option.some.inj hm).symm
  refine ⟨_, by rw [nodeRemoveList, if_neg (by simp [hp])], ?_, by simp⟩
  refine ⟨⟨?_, ?_, ?_, ?_⟩, ⟨?_, ?_, ?_, ?_, ?_⟩, ?_, ?_, ?_, ?_, ?_⟩
  · cases l
    · exact hnd.erase i
    · exact h.nodeList_nodup
  · cases l
    · exact h.plist_nodup
    · exact hnd.erase i
  · intro j
    have hn := h.mem_nodeList j
    cases l
    · have hm : j ∈ g.nodeList.erase i ↔ j ≠ i ∧ j ∈ g.nodeList := hmem j
      simp only [setNode_node, Graph.setList, setNode_nodeList, Graph.list, hm]
      by_cases hj : j = i <;> simp [hj, hn]
    · have hni : i ∉ g.nodeList := hnot .nodeList (by decide)
      simp only [setNode_node, Graph.setList, setNode_nodeList]
      by_cases hj : j = i
      · simp [hj, hni]
      · simp [hj, hn]
  · intro j
    have hn := h.mem_plist j
    cases l
    · have hni : i ∉ g.plist := hnot .plist (by decide)
      simp only [setNode_node, Graph.setList, setNode_plist]
      by_cases hj : j = i
      · simp [hj, hni]
      · simp [hj, hn]
    · have hm : j ∈ g.plist.erase i ↔ j ≠ i ∧ j ∈ g.plist := hmem j
      simp only [setNode_node, Graph.setList, setNode_plist, Graph.list, hm]
      by_cases hj : j = i <;> simp [hj, hn]
  · simp
  all_goals intros
  all_goals try (simp only [setNode_node, setList_node]; split <;> simp_all)
  · simp
  · simp [hmem]
  · simp_all
  · have := List.length_erase_of_mem hi
    have := List.length_pos_of_mem hi
    simp only [setNode_list, setList_list, if_true]
    omega

end insert

theorem nodeRemoveList_list {g g' : Graph} {l : ListId} {i : TupId}
    (h : nodeRemoveList l g i = some g') : g'.list l = (g.list l).erase i := by
  unfold nodeRemoveList at h
  split at h
  · cases h
  · obtain rfl := Option.some.inj h
    simp

/-- What `create_node` does to a graph. -/
structure Created (g g' : Graph) (tent : TupEntry) : Prop where
  ok : ListOk g'
  nodeRoot : g'.nodeRoot = tent.tupid :: g.nodeRoot
  nodeList : g'.nodeList = g.nodeList ++ [tent.tupid]
  plist : g'.plist = g.plist
  node_self : g'.node tent.tupid = { newNode tent with activeList := some .nodeList }
  node_other : ∀ j, j ≠ tent.tupid → g'.node j = g.node j

theorem Created.createEdge {g g' : Graph} {tent : TupEntry} (h : Created g g' tent) (a b : TupId)
    (st : LinkType) : Created g (createEdge g' a b st) tent :=
  ⟨⟨h.ok.nodeList_nodup, h.ok.plist_nodup, h.ok.mem_nodeList, h.ok.mem_plist⟩, h.nodeRoot,
    h.nodeList, h.plist, h.node_self, h.node_other⟩

/-- Source: `graph.c` `create_node`: it succeeds for an entry without a node. -/
theorem createNode_spec {g : Graph} (tent : TupEntry) (h : ListOk g)
    (hroot : tent.tupid ∉ g.nodeRoot) (hl : tent.tupid ∉ g.nodeList) (hp : tent.tupid ∉ g.plist) :
    ∃ g', createNode g tent = some g' ∧ Created g g' tent := by
  have hok : ListOk (g.setNode tent.tupid (newNode tent)) := by
    refine ⟨h.nodeList_nodup, h.plist_nodup, fun j => ?_, fun j => ?_⟩
    · by_cases hj : j = tent.tupid
      · simp [hj, hl, newNode]
      · simp [hj, h.mem_nodeList]
    · by_cases hj : j = tent.tupid
      · simp [hj, hp, newNode]
      · simp [hj, h.mem_plist]
  have hnone : ((g.setNode tent.tupid (newNode tent)).node tent.tupid).activeList = .none := by
    simp [newNode]
  obtain ⟨g', hg', hins⟩ := nodeInsertTail_spec .nodeList hok hnone
  have heq : g' = ((g.setNode tent.tupid (newNode tent)).setList .nodeList
      (g.nodeList ++ [tent.tupid])).setNode tent.tupid
        { newNode tent with activeList := some .nodeList } := by
    rw [nodeInsertTail, if_neg (by simpa using hnone)] at hg'
    rw [← Option.some.inj hg']
    simp [Graph.list]
  have hnot : findNode g' tent.tupid = false := by simp [findNode, hins.same.nodeRoot, hroot]
  refine ⟨{ g' with nodeRoot := tent.tupid :: g'.nodeRoot }, by simp [createNode, hg', hnot], ?_⟩
  refine ⟨⟨hins.ok.nodeList_nodup, hins.ok.plist_nodup, hins.ok.mem_nodeList, hins.ok.mem_plist⟩,
    congrArg _ hins.same.nodeRoot, ?_, ?_, ?_, fun j hj => ?_⟩
  · rw [heq]
    rfl
  · rw [heq]
    rfl
  · rw [heq]
    simp
  · rw [heq]
    simp [hj]

end Metatup
