import Mathlib.Data.List.Nodup
import Mathlib.Logic.Function.Basic
import Metatup.Entry

/-!
# The partial DAG

`struct graph` with its two node lists and its edges. A node is a record found by its id; the two
`TAILQ` lists hold ids, and the `active_list` pointer of a node says which of them it is on.

Every edge the modelled functions create goes to the head of both lists it is on, so one list of
edges, newest first, determines both: `outEdges g n` is `n->edges` and `inEdges g n` is
`n->incoming`, each in its own order.

* `ListOk g`: the pointers and the lists agree.
* `Adj g a b`: some edge goes from `a` to `b`.
-/

namespace Metatup

/-- Source: `graph.h` `STATE_*`. -/
inductive NodeState
  | initialized | processing | finished
  deriving DecidableEq, Repr

/-- Source: `graph.h` `enum transient_type`. -/
inductive Transient
  | none | processing | delete
  deriving DecidableEq, Repr

/-- The lists an `active_list` pointer can name. Source: `graph.h` `struct graph`. -/
inductive ListId
  | nodeList | plist
  deriving DecidableEq, Repr

/-- Source: `graph.h` `struct node`. -/
structure Node where
  /-- The entry the node stands for. -/
  tent : TupEntry
  /-- The list the node is on. -/
  activeList : Option ListId := .none
  /-- Where the node is in the traversal. -/
  state : NodeState := .initialized
  /-- Set once the node has been put on the plist to have its links followed. -/
  expanded : Bool := false
  /-- Cleared when the node has to be processed. -/
  skip : Bool := true
  /-- When the transient file of the node is to be removed. -/
  transient : Transient := .none
  deriving DecidableEq, Repr

/-- Source: `graph.h` `struct edge`. -/
structure Edge where
  /-- Where the edge starts. -/
  src : TupId
  /-- Where it ends. -/
  dest : TupId
  /-- The table the link is from. -/
  style : LinkType
  deriving DecidableEq, Repr

/-- Source: `graph.h` `struct graph`. -/
structure Graph where
  /-- Nodes that wait. -/
  nodeList : List TupId := []
  /-- Nodes to be processed. -/
  plist : List TupId := []
  /-- The keys of the `node_root` tree: the nodes that exist. -/
  nodeRoot : List TupId := []
  /-- The record of each node. -/
  node : TupId → Node
  /-- Every edge, newest first. -/
  edges : List Edge := []

/-- The nodes on a list. -/
def Graph.list (g : Graph) : ListId → List TupId
  | .nodeList => g.nodeList
  | .plist => g.plist

/-- `n->edges`. -/
def outEdges (g : Graph) (n : TupId) : List Edge := g.edges.filter (·.src = n)

/-- `n->incoming`. -/
def inEdges (g : Graph) (n : TupId) : List Edge := g.edges.filter (·.dest = n)

/-- Overwrite the record of a node. -/
def Graph.setNode (g : Graph) (i : TupId) (n : Node) : Graph :=
  { g with node := Function.update g.node i n }

/-- Overwrite the `state` of a node. -/
def Graph.setState (g : Graph) (i : TupId) (st : NodeState) : Graph :=
  g.setNode i { g.node i with state := st }

/-- Replace one of the lists. -/
def Graph.setList (g : Graph) : ListId → List TupId → Graph
  | .nodeList, l => { g with nodeList := l }
  | .plist, l => { g with plist := l }

/-- Source: `graph.c` `node_insert_tail`; `none` is the `-1` of a node already in a list. -/
def nodeInsertTail (head : ListId) (g : Graph) (i : TupId) : Option Graph :=
  if (g.node i).activeList ≠ .none then .none
  else some ((g.setList head (g.list head ++ [i])).setNode i
    { g.node i with activeList := some head })

/-- Source: `graph.c` `node_insert_head`. -/
def nodeInsertHead (head : ListId) (g : Graph) (i : TupId) : Option Graph :=
  if (g.node i).activeList ≠ .none then .none
  else some ((g.setList head (i :: g.list head)).setNode i
    { g.node i with activeList := some head })

/-- Source: `graph.c` `node_remove_list`; `none` is the `-1` of a node that is on no list or on
another one. -/
def nodeRemoveList (head : ListId) (g : Graph) (i : TupId) : Option Graph :=
  if (g.node i).activeList ≠ some head then .none
  else some ((g.setList head ((g.list head).erase i)).setNode i
    { g.node i with activeList := .none })

/-- Source: `graph.c` `create_edge`. -/
def createEdge (g : Graph) (n1 n2 : TupId) (style : LinkType) : Graph :=
  { g with edges := ⟨n1, n2, style⟩ :: g.edges }

/-- Source: `graph.c` `remove_edge`. -/
def removeEdge (g : Graph) (e : Edge) : Graph := { g with edges := g.edges.erase e }

/-- Source: `graph.c` `remove_node`. -/
def removeNode (g : Graph) (i : TupId) : Graph := { g with nodeRoot := g.nodeRoot.erase i }

/-- Source: `graph.c` `find_node`, as a test. -/
def findNode (g : Graph) (i : TupId) : Bool := g.nodeRoot.contains i

/-- The node `create_node` makes of an entry. -/
def newNode (tent : TupEntry) : Node :=
  { tent := tent
    transient := if tent.type = .generated && isTransientTent tent then .processing else .none }

/-- Source: `graph.c` `create_node`; `none` is the `-1` of a node that exists. -/
def createNode (g : Graph) (tent : TupEntry) : Option Graph := do
  let g ← nodeInsertTail .nodeList (g.setNode tent.tupid (newNode tent)) tent.tupid
  if findNode g tent.tupid then .none
  else return { g with nodeRoot := tent.tupid :: g.nodeRoot }

/-- Source: `graph.c` `root_entry`, as `create_graph` fills it in. -/
def rootEntry : TupEntry :=
  { tupid := 0, dt := 0, type := .root, name := ['r', 'o', 'o', 't'] }

/-- Source: `graph.c` `create_graph`; the root node is the first one in the node list. -/
def createGraph : Option Graph := createNode { node := fun _ => newNode rootEntry } rootEntry

/-- Some edge goes from `a` to `b`. -/
def Adj (g : Graph) (a b : TupId) : Prop := ∃ e ∈ g.edges, e.src = a ∧ e.dest = b

instance (g : Graph) (a b : TupId) : Decidable (Adj g a b) := by
  unfold Adj; infer_instance

/-! ### Edges -/

theorem mem_outEdges {g : Graph} {n : TupId} {e : Edge} :
    e ∈ outEdges g n ↔ e ∈ g.edges ∧ e.src = n := by
  simp [outEdges]

theorem outEdges_eq_nil {g : Graph} {n : TupId} : outEdges g n = [] ↔ ∀ b, ¬ Adj g n b := by
  simp only [outEdges, Adj, List.filter_eq_nil_iff, decide_eq_true_eq, not_exists, not_and]
  constructor
  · intro h b e he hs _
    exact h e he hs
  · intro h e he hs
    exact h e.dest e he hs rfl

theorem inEdges_eq_nil {g : Graph} {n : TupId} : inEdges g n = [] ↔ ∀ a, ¬ Adj g a n := by
  simp only [inEdges, Adj, List.filter_eq_nil_iff, decide_eq_true_eq, not_exists, not_and]
  constructor
  · intro h a e he _ hd
    exact h e he hd
  · intro h e he hd
    exact h e.src e he rfl hd

/-! ### The lists and the pointers -/

/-- The `active_list` pointers and the two lists say the same. -/
structure ListOk (g : Graph) : Prop where
  nodeList_nodup : g.nodeList.Nodup
  plist_nodup : g.plist.Nodup
  mem_nodeList : ∀ i, i ∈ g.nodeList ↔ (g.node i).activeList = some .nodeList
  mem_plist : ∀ i, i ∈ g.plist ↔ (g.node i).activeList = some .plist

namespace ListOk

variable {g : Graph} (h : ListOk g)

include h

theorem mem_list (l : ListId) (i : TupId) : i ∈ g.list l ↔ (g.node i).activeList = some l := by
  cases l
  · exact h.mem_nodeList i
  · exact h.mem_plist i

theorem not_mem_plist {i : TupId} (hi : i ∈ g.nodeList) : i ∉ g.plist := by
  rw [h.mem_plist, (h.mem_nodeList i).1 hi]
  decide

theorem not_mem_nodeList {i : TupId} (hi : i ∈ g.plist) : i ∉ g.nodeList :=
  fun hn => h.not_mem_plist hn hi

/-- A node on no list has a null pointer. -/
theorem activeList_none {i : TupId} (h1 : i ∉ g.nodeList) (h2 : i ∉ g.plist) :
    (g.node i).activeList = .none := by
  rw [h.mem_nodeList] at h1
  rw [h.mem_plist] at h2
  match hl : (g.node i).activeList with
  | .none => rfl
  | some .nodeList => exact absurd hl h1
  | some .plist => exact absurd hl h2

end ListOk

end Metatup
