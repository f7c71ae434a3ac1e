import Metatup.Db.Removal
import Metatup.Lib.Marking
import Metatup.Updater.Order

/-!
# `prune_graph`

A partial update names its targets. Their nodes are marked, with everything they need; what is left
unmarked is taken out of the graph before it is executed.

* `Kept`: the nodes the targets need.
* `pruneGraph`: the arguments, the marks and the removal.
* `prune_graph_spec`: what is left of the graph, and what is written down for the next update.
-/

namespace Metatup

open Lib Relation

/-- What `prune_graph` asks for. -/
structure PruneEnv where
  /-- The entry of a path that is relative to the directory the command was started in. -/
  getTentDt : Text → Option TupEntry
  /-- Source: `entry.c` `exclusion_dt` -/
  exclusionDt : TupId

/-- Source: `graph.h` `enum graph_prune_type` -/
inductive GraphPruneType
  | generated | all
  deriving DecidableEq, Repr

/-! ### Arguments -/

/-- What the arguments amount to; `pruneList` are the targets that are no directories. -/
structure PruneArgs where
  dashdash : Bool := false
  doPrune : Bool := false
  pruneList : List TupEntry := []
  dirRoot : Finset TupId := ∅

/-- One argument; `none` is a path without an entry. -/
def pruneArg (env : PruneEnv) (a : PruneArgs) (arg : Text) : Option PruneArgs :=
  if !a.dashdash && arg.head? = some '-' then some { a with dashdash := arg = ['-', '-'] }
  else
    match env.getTentDt arg with
    | none => none
    | some tent =>
      if tent.type = .dir ∨ tent.type = .generatedDir then
        some { a with doPrune := true, dirRoot := insert tent.tupid a.dirRoot }
      else some { a with doPrune := true, pruneList := tent :: a.pruneList }

/-- The first loop of `prune_graph`. -/
def pruneArgs (env : PruneEnv) (argv : List Text) : Option PruneArgs := argv.foldlM (pruneArg env) {}

/-! ### Marks -/

/-- The nodes `mark_nodes` goes on to: the outputs of a command, and the inputs of any node. -/
def nextMark (env : PruneEnv) (g : Graph) (n : TupId) : List TupId :=
  (if (g.node n).tent.type = .cmd then
      ((outEdges g n).map Edge.dest).filter fun d =>
        (g.node d).tent.type ≠ .group && (g.node d).tent.dt ≠ env.exclusionDt
    else []) ++
    (inEdges g n).map Edge.src

/-- Source: `graph.c` `mark_nodes`. The depth of the recursion is bounded by the number of nodes. -/
def markNodes (env : PruneEnv) (g : Graph) (marked : TupId → Bool) (n : TupId) :
    Option (TupId → Bool) :=
  visit (nextMark env g) (g.nodeList.length + 1) marked n

/-- One of the directories is above an entry that is in `dt`. The fuel bounds the length of the
walk from parent to parent. -/
def underDirs (db : Db) (dirs : Finset TupId) : ℕ → TupId → Bool
  | 0, _ => false
  | fuel + 1, dt =>
    match tupEntryAdd db dt with
    | none => false
    | some dtent => dtent.tupid ∈ dirs || underDirs db dirs fuel dtent.dt

/-- The node is marked if the graph has it. -/
def markTarget (env : PruneEnv) (g : Graph) (marked : TupId → Bool) (tent : TupEntry) :
    Option (TupId → Bool) :=
  if findNode g tent.tupid then markNodes env g marked tent.tupid else some marked

/-- The node is marked if it is below one of the directories. -/
def markBelow (env : PruneEnv) (db : Db) (g : Graph) (dirs : Finset TupId) (marked : TupId → Bool)
    (n : TupId) : Option (TupId → Bool) :=
  if !marked n && (g.node n).tent.type ≠ .root &&
      underDirs db dirs (db.node.length + 1) (g.node n).tent.dt then
    markNodes env g marked n
  else some marked

/-- The two loops of `prune_graph` that mark nodes. -/
def markTargets (env : PruneEnv) (db : Db) (g : Graph) (a : PruneArgs) (marked : TupId → Bool) :
    Option (TupId → Bool) := do
  let marked ← a.pruneList.foldlM (markTarget env g) marked
  g.nodeList.foldlM (markBelow env db g a.dirRoot) marked

/-! ### Removal -/

/-- What `prune_graph` works on: the graph with the `marked` and `counted` fields of its nodes and
its two counters, and the flag tables. -/
structure Pruning where
  g : Graph
  marked : TupId → Bool := fun _ => false
  counted : TupId → Bool
  numNodes : ℤ
  totalMtime : ℤ
  numPruned : ℤ := 0
  flags : Flags

/-- Source: `graph.c` `remove_node_internal`. The loops that remove the edges of the node leave those
of other nodes. -/
def removeNodeInternal (g : Graph) (n : TupId) : Graph :=
  let g :=
    match (g.node n).activeList with
    | some l => (nodeRemoveList l g n).getD g
    | none => g
  removeNode { g with edges := g.edges.filter fun e => e.src ≠ n && e.dest ≠ n } n

/-- A counted node that is pruned has to be executed in the next update; `none` is the internal
error of a node that is no command. -/
def pruneCounted (p : Pruning) (n : TupId) : Option Pruning :=
  if p.counted n then
    if (p.g.node n).tent.type ≠ .cmd then none
    else some { p with
      flags := tupDbAddModifyList p.flags n
      numNodes := p.numNodes - 1
      totalMtime :=
        if p.totalMtime ≠ -1 ∧ (p.g.node n).tent.mtime.1 ≠ -1 then
          p.totalMtime - (p.g.node n).tent.mtime.1
        else p.totalMtime
      numPruned := p.numPruned + 1 }
  else some p

/-- The transient files a pruned node needs are kept for it. -/
def keepTransient (g : Graph) (n : TupId) : Graph :=
  (inEdges g n).foldl
    (fun g e =>
      if (g.node e.src).transient ≠ .none then
        g.setNode e.src { g.node e.src with transient := .none }
      else g) g

/-- Source: `graph.c` `prune_node` -/
def pruneNode (gpt : GraphPruneType) (p : Pruning) (n : TupId) : Option Pruning :=
  (pruneCounted p n).map fun p =>
    let g := keepTransient p.g n
    if gpt = .all ∨ (g.node n).tent.type ≠ .file then { p with g := removeNodeInternal g n }
    else { p with g := g }

/-- A step of the last loop of `prune_graph`. -/
def pruneUnmarked (gpt : GraphPruneType) (root : TupId) (p : Pruning) (n : TupId) : Option Pruning :=
  if !p.marked n && n ≠ root then pruneNode gpt p n else some p

/-- Source: `graph.c` `prune_graph` -/
def pruneGraph (env : PruneEnv) (gpt : GraphPruneType) (root : TupId) (db : Db) (p : Pruning)
    (argv : List Text) : Option Pruning := do
  let a ← pruneArgs env argv
  if a.doPrune then do
    let marked ← markTargets env db p.g a p.marked
    p.g.nodeList.foldlM (pruneUnmarked gpt root) { p with marked := marked, numPruned := 0 }
  else return { p with numPruned := 0 }

/-! ### The nodes the targets need -/

/-- The node stands for an entry below a target directory. -/
def Below (db : Db) (g : Graph) (a : PruneArgs) (n : TupId) : Prop :=
  (g.node n).tent.type ≠ .root ∧ ∃ d ∈ a.dirRoot, (∃ t ∈ db.node, t.tupid = d) ∧
    ReflTransGen (ParentOf db) (g.node n).tent.dt d

/-- The least set that has the targets, and with a node its predecessors, and with a command its
outputs other than groups and exclusions. -/
inductive Kept (env : PruneEnv) (db : Db) (g : Graph) (a : PruneArgs) : TupId → Prop
  | target {tent} : tent ∈ a.pruneList → tent.tupid ∈ g.nodeRoot → Kept env db g a tent.tupid
  | inDir {n} : n ∈ g.nodeList → Below db g a n → Kept env db g a n
  | pred {n b} : Kept env db g a b → Adj g n b → Kept env db g a n
  | output {c d} : Kept env db g a c → (g.node c).tent.type = .cmd → Adj g c d →
      (g.node d).tent.type ≠ .group → (g.node d).tent.dt ≠ env.exclusionDt → Kept env db g a d

section

variable {env : PruneEnv} {db : Db} {g : Graph} {a : PruneArgs} {n b : TupId}
  {m m' : TupId → Bool}

theorem mem_nextMark : b ∈ nextMark env g n ↔ Adj g b n ∨ (g.node n).tent.type = .cmd ∧ Adj g n b ∧
    (g.node b).tent.type ≠ .group ∧ (g.node b).tent.dt ≠ env.exclusionDt := by
  have hin : b ∈ (inEdges g n).map Edge.src ↔ Adj g b n := by
    simp only [List.mem_map, inEdges, List.mem_filter, decide_eq_true_eq, Adj]
    exact exists_congr fun e => by tauto
  have hout : b ∈ (outEdges g n).map Edge.dest ↔ Adj g n b := by
    simp only [List.mem_map, mem_outEdges, Adj]
    exact exists_congr fun e => by tauto
  unfold nextMark
  rw [List.mem_append, hin]
  split
  · next hcmd =>
    rw [List.mem_filter, hout]
    simp [hcmd, or_comm]
  · next hcmd => simp [hcmd]

/-- The walk over the parents finds the directories above. -/
theorem underDirs_iff (h : db.Tree) {dirs : Finset TupId} {dt : TupId} :
    underDirs db dirs (db.node.length + 1) dt = true ↔
      ∃ d ∈ dirs, (∃ t ∈ db.node, t.tupid = d) ∧ ReflTransGen (ParentOf db) dt d := by
  constructor
  · generalize db.node.length + 1 = fuel
    intro hu
    induction fuel generalizing dt with
    | zero => cases hu
    | succ fuel ih =>
      unfold underDirs at hu
      split at hu
      · cases hu
      · next dtent hrow =>
        obtain ⟨hmem, rfl⟩ := mem_node_of_tupEntryAdd hrow
        rcases Bool.or_eq_true_iff.1 hu with hd | hu
        · exact ⟨_, of_decide_eq_true hd, ⟨dtent, hmem, rfl⟩, .refl⟩
        · obtain ⟨d, hd, hrow', hreach⟩ := ih hu
          exact ⟨d, hd, hrow', .head ⟨dtent, hmem, rfl, rfl⟩ hreach⟩
  · rintro ⟨d, hd, ⟨u, hu, rfl⟩, hreach⟩
    obtain ⟨depth, hdepth⟩ := h.depth
    have key : ∀ fuel dt, (db.node.filter fun t => depth t.tupid ≤ depth dt).length < fuel →
        ReflTransGen (ParentOf db) dt u.tupid → underDirs db dirs fuel dt = true := by
      intro fuel
      induction fuel with
      | zero => exact fun _ hlt => absurd hlt (Nat.not_lt_zero _)
      | succ fuel ih =>
        intro dt hlt hreach
        unfold underDirs
        rcases ReflTransGen.cases_head hreach with rfl | ⟨b, ⟨t, ht, hid, rfl⟩, hrest⟩
        · rw [h.tupEntryAdd_of_mem hu]
          simp [hd]
        · subst hid
          rw [h.tupEntryAdd_of_mem ht]
          refine Bool.or_eq_true_iff.2 (.inr (ih _ ?_ hrest))
          -- the parent is deeper than nothing that `t` is not deeper than, and `t` itself is left out
          have hsub : (db.node.filter fun s => decide (depth s.tupid ≤ depth t.dt)).Sublist
              (db.node.filter fun s => decide (depth s.tupid ≤ depth t.tupid)) := by
            apply List.monotone_filter_right
            intro s hs
            have hle := of_decide_eq_true hs
            have hdt := hdepth t ht
            exact decide_eq_true (by omega)
          have hne : (db.node.filter fun s => decide (depth s.tupid ≤ depth t.dt)).length ≠
              (db.node.filter fun s => decide (depth s.tupid ≤ depth t.tupid)).length := by
            intro heq
            have hin : t ∈ db.node.filter fun s => decide (depth s.tupid ≤ depth t.tupid) :=
              List.mem_filter.2 ⟨ht, decide_eq_true le_rfl⟩
            rw [← hsub.eq_of_length heq] at hin
            have hle := of_decide_eq_true (List.mem_filter.1 hin).2
            have hdt := hdepth t ht
            omega
          have hle := hsub.length_le
          omega
    apply key _ _ _ hreach
    have hle := List.length_filter_le (fun t => decide (depth t.tupid ≤ depth dt)) db.node
    omega

/-! ### The marks -/

theorem kept_of_reach {r x : TupId} (hr : Kept env db g a r)
    (hreach : ReflTransGen (Next (nextMark env g)) r x) : Kept env db g a x := by
  induction hreach with
  | refl => exact hr
  | tail _ hstep ih =>
    rcases mem_nextMark.1 hstep with hpred | ⟨hcmd, hadj, hgroup, hexcl⟩
    · exact .pred ih hpred
    · exact .output ih hcmd hadj hgroup hexcl

theorem markTarget_spec {tent : TupEntry} (hm : MarksClosed (nextMark env g) m)
    (h : markTarget env g m tent = some m') : MarksClosed (nextMark env g) m' ∧
      ∀ x, m' x = true ↔ m x = true ∨ ∃ s ∈ {s | s = tent.tupid ∧ s ∈ g.nodeRoot},
        ReflTransGen (Next (nextMark env g)) s x := by
  unfold markTarget at h
  split at h
  · next hfind =>
    have hmem : tent.tupid ∈ g.nodeRoot := by simpa [findNode] using hfind
    obtain ⟨hclosed, hadd⟩ := mem_visit_iff hm h
    refine ⟨hclosed, fun x => (hadd x).trans (or_congr_right ⟨fun hx => ?_, ?_⟩)⟩
    · exact ⟨_, ⟨rfl, hmem⟩, hx⟩
    · rintro ⟨s, ⟨rfl, -⟩, hx⟩
      exact hx
  · next hfind =>
    cases h
    have hmem : tent.tupid ∉ g.nodeRoot := by simpa [findNode] using hfind
    refine ⟨hm, fun x => ⟨.inl, ?_⟩⟩
    rintro (hx | ⟨s, ⟨rfl, hs⟩, -⟩)
    · exact hx
    · exact absurd hs hmem

theorem markBelow_spec (htree : db.Tree) (hm : MarksClosed (nextMark env g) m)
    (h : markBelow env db g a.dirRoot m n = some m') : MarksClosed (nextMark env g) m' ∧
      ∀ x, m' x = true ↔ m x = true ∨ ∃ s ∈ {s | s = n ∧ Below db g a n},
        ReflTransGen (Next (nextMark env g)) s x := by
  have hbelow : Below db g a n ↔ (g.node n).tent.type ≠ .root ∧
      underDirs db a.dirRoot (db.node.length + 1) (g.node n).tent.dt = true := by
    rw [underDirs_iff htree]
    rfl
  unfold markBelow at h
  split at h
  · next hcond =>
    simp only [Bool.and_eq_true, decide_eq_true_eq] at hcond
    obtain ⟨hclosed, hadd⟩ := mem_visit_iff hm h
    refine ⟨hclosed, fun x => (hadd x).trans (or_congr_right ⟨fun hx => ?_, ?_⟩)⟩
    · exact ⟨n, ⟨rfl, hbelow.2 ⟨hcond.1.2, hcond.2⟩⟩, hx⟩
    · rintro ⟨s, ⟨rfl, -⟩, hx⟩
      exact hx
  · next hcond =>
    cases h
    refine ⟨hm, fun x => ⟨.inl, ?_⟩⟩
    rintro (hx | ⟨s, ⟨rfl, hs⟩, hreach⟩)
    · exact hx
    · -- a node below that is passed over is marked, and so is what can be reached from it
      have hmark : m s = true := by
        obtain ⟨htype, hunder⟩ := hbelow.1 hs
        by_contra hno
        rw [Bool.not_eq_true] at hno
        exact hcond (by simp [hno, htype, hunder])
      clear hcond hs hbelow
      induction hreach with
      | refl => exact hmark
      | tail _ hstep ih => exact hm _ ih _ hstep

/-- The marks are the nodes the targets need. -/
theorem markTargets_spec (htree : db.Tree) (hm : ∀ i, m i = false)
    (h : markTargets env db g a m = some m') (x : TupId) : m' x = true ↔ Kept env db g a x := by
  have hclosed : MarksClosed (nextMark env g) m := by
    intro i hi
    rw [hm i] at hi
    cases hi
  obtain ⟨m₁, hfiles, hdirs⟩ := Option.bind_eq_some_iff.1 h
  obtain ⟨hclosed₁, hadd₁⟩ := mem_foldlM_iff (f := markTarget env g)
    (fun _ _ _ => markTarget_spec) hclosed hfiles
  obtain ⟨-, hadd⟩ := mem_foldlM_iff (f := markBelow env db g a.dirRoot)
    (fun _ _ _ => markBelow_spec htree) hclosed₁ hdirs
  rw [hadd, hadd₁, hm x]
  constructor
  · rintro ((hx | ⟨tent, htent, s, ⟨rfl, hs⟩, hreach⟩) | ⟨n, hn, s, ⟨rfl, hs⟩, hreach⟩)
    · cases hx
    · exact kept_of_reach (.target htent hs) hreach
    · exact kept_of_reach (.inDir hn hs) hreach
  · intro hx
    have hstep : ∀ y z, z ∈ nextMark env g y → ∀ s, ReflTransGen (Next (nextMark env g)) s y →
        ReflTransGen (Next (nextMark env g)) s z := fun y z hz s hs => hs.tail hz
    induction hx with
    | target htent hroot => exact .inl (.inr ⟨_, htent, _, ⟨rfl, hroot⟩, .refl⟩)
    | inDir hn hb => exact .inr ⟨_, hn, _, ⟨rfl, hb⟩, .refl⟩
    | pred _ hadj ih =>
      have hz := hstep _ _ (mem_nextMark.2 (.inl hadj))
      rcases ih with (hx | ⟨t, ht, s, hs, hr⟩) | ⟨k, hk, s, hs, hr⟩
      · cases hx
      · exact .inl (.inr ⟨t, ht, s, hs, hz s hr⟩)
      · exact .inr ⟨k, hk, s, hs, hz s hr⟩
    | output _ hcmd hadj hgroup hexcl ih =>
      have hz := hstep _ _ (mem_nextMark.2 (.inr ⟨hcmd, hadj, hgroup, hexcl⟩))
      rcases ih with (hx | ⟨t, ht, s, hs, hr⟩) | ⟨k, hk, s, hs, hr⟩
      · cases hx
      · exact .inl (.inr ⟨t, ht, s, hs, hz s hr⟩)
      · exact .inr ⟨k, hk, s, hs, hz s hr⟩

/-! ### The removal of one node -/

/-- What the loop of `prune_node` over the incoming edges does. -/
structure KeptTransient (g g' : Graph) (n : TupId) : Prop where
  nodeList : g'.nodeList = g.nodeList
  plist : g'.plist = g.plist
  nodeRoot : g'.nodeRoot = g.nodeRoot
  edges : g'.edges = g.edges
  activeList : ∀ i, (g'.node i).activeList = (g.node i).activeList
  tent : ∀ i, (g'.node i).tent = (g.node i).tent
  transient : ∀ i, (g'.node i).transient = if Adj g i n then .none else (g.node i).transient

theorem keepTransient_spec (g : Graph) (n : TupId) : KeptTransient g (keepTransient g n) n := by
  have key : ∀ (l : List Edge) (g₁ : Graph), ∃ g', l.foldl (fun g e =>
      if (g.node e.src).transient ≠ .none then
        g.setNode e.src { g.node e.src with transient := .none }
      else g) g₁ = g' ∧ g'.nodeList = g₁.nodeList ∧ g'.plist = g₁.plist ∧
        g'.nodeRoot = g₁.nodeRoot ∧ g'.edges = g₁.edges ∧
        ∀ i, (g'.node i).activeList = (g₁.node i).activeList ∧
          (g'.node i).tent = (g₁.node i).tent ∧
          (g'.node i).transient =
            if ∃ e ∈ l, e.src = i then .none else (g₁.node i).transient := by
    intro l
    induction l with
    | nil => exact fun g₁ => ⟨g₁, rfl, rfl, rfl, rfl, rfl, fun i => ⟨rfl, rfl, by simp⟩⟩
    | cons e l ih =>
      intro g₁
      rw [List.foldl_cons]
      split
      · next hsome =>
        obtain ⟨g', hg', h1, h2, h3, h4, h5⟩ :=
          ih (g₁.setNode e.src { g₁.node e.src with transient := .none })
        refine ⟨g', hg', h1, h2, h3, h4, fun i => ?_⟩
        obtain ⟨hact, htent, htrans⟩ := h5 i
        rw [setNode_node] at hact htent htrans
        by_cases hi : i = e.src
        · subst hi
          rw [if_pos rfl] at hact htent htrans
          refine ⟨hact, htent, htrans.trans ?_⟩
          simp
        · rw [if_neg hi] at hact htent htrans
          refine ⟨hact, htent, htrans.trans ?_⟩
          simp [Ne.symm hi]
      · next hnone =>
        obtain ⟨g', hg', h1, h2, h3, h4, h5⟩ := ih g₁
        refine ⟨g', hg', h1, h2, h3, h4, fun i => ?_⟩
        obtain ⟨hact, htent, htrans⟩ := h5 i
        refine ⟨hact, htent, htrans.trans ?_⟩
        by_cases hi : e.src = i
        · have hz : (g₁.node i).transient = .none := hi ▸ not_not.1 hnone
          simp [hi, hz]
        · simp [hi]
  obtain ⟨g', hg', h1, h2, h3, h4, h5⟩ := key (inEdges g n) g
  have heq : keepTransient g n = g' := hg'
  rw [heq]
  refine ⟨h1, h2, h3, h4, fun i => (h5 i).1, fun i => (h5 i).2.1, fun i => ?_⟩
  have hadj : (∃ e ∈ inEdges g n, e.src = i) ↔ Adj g i n := by
    unfold inEdges Adj
    exact exists_congr fun e => by rw [List.mem_filter, decide_eq_true_eq]; tauto
  rw [(h5 i).2.2]
  exact if_congr hadj rfl rfl

theorem KeptTransient.ok {g' : Graph} (h : KeptTransient g g' n) (hok : ListOk g) : ListOk g' where
  nodeList_nodup := h.nodeList ▸ hok.nodeList_nodup
  plist_nodup := h.plist ▸ hok.plist_nodup
  mem_nodeList i := by rw [h.nodeList, h.activeList, hok.mem_nodeList]
  mem_plist i := by rw [h.plist, h.activeList, hok.mem_plist]

/-- What the removal of a node on the node list does. -/
structure NodeGone (g g' : Graph) (n : TupId) : Prop where
  ok : ListOk g'
  plist : g'.plist = g.plist
  mem_nodeList : ∀ i, i ∈ g'.nodeList ↔ i ≠ n ∧ i ∈ g.nodeList
  nodeRoot : g'.nodeRoot = g.nodeRoot.erase n
  edges : ∀ e, e ∈ g'.edges ↔ e ∈ g.edges ∧ e.src ≠ n ∧ e.dest ≠ n
  tent : ∀ i, (g'.node i).tent = (g.node i).tent
  transient : ∀ i, (g'.node i).transient = (g.node i).transient

theorem removeNodeInternal_spec (hok : ListOk g) (hn : n ∈ g.nodeList) :
    NodeGone g (removeNodeInternal g n) n := by
  obtain ⟨g₁, hrm, hremoved, -⟩ := nodeRemoveList_spec (l := .nodeList) hok hn
  have hact : (g.node n).activeList = some .nodeList := (hok.mem_nodeList n).1 hn
  have heq : removeNodeInternal g n =
      removeNode { g₁ with edges := g₁.edges.filter fun e => e.src ≠ n && e.dest ≠ n } n := by
    unfold removeNodeInternal
    simp only [hact, hrm, Option.getD_some]
  rw [heq]
  refine ⟨⟨hremoved.ok.nodeList_nodup, hremoved.ok.plist_nodup, hremoved.ok.mem_nodeList,
    hremoved.ok.mem_plist⟩, hremoved.other .plist (by decide), hremoved.mem, ?_, ?_,
    hremoved.same.tent, hremoved.same.transient⟩
  · exact congrArg (List.erase · n) hremoved.same.nodeRoot
  · intro e
    show e ∈ g₁.edges.filter _ ↔ _
    rw [List.mem_filter, hremoved.edges]
    simp

/-! ### The removal of the unmarked nodes -/

/-- The last loop prunes the node. -/
def Unneeded (root : TupId) (p : Pruning) (n : TupId) : Prop := p.marked n = false ∧ n ≠ root

/-- The last loop takes the node out of the graph. -/
def Gone (gpt : GraphPruneType) (root : TupId) (p : Pruning) (n : TupId) : Prop :=
  Unneeded root p n ∧ (gpt = .all ∨ (p.g.node n).tent.type ≠ .file)

/-- What the last loop has done to `p` when it has come to the nodes `done`. -/
structure PruneInv (gpt : GraphPruneType) (root : TupId) (p : Pruning) (done : List TupId)
    (p' : Pruning) : Prop where
  ok : ListOk p'.g
  plist : p'.g.plist = p.g.plist
  marked : p'.marked = p.marked
  counted : p'.counted = p.counted
  tent : ∀ i, (p'.g.node i).tent = (p.g.node i).tent
  nodeList : ∀ i, i ∈ p'.g.nodeList ↔ i ∈ p.g.nodeList ∧ ¬ (i ∈ done ∧ Gone gpt root p i)
  edges : ∀ e ∈ p.g.edges, ¬ (e.src ∈ done ∧ Gone gpt root p e.src) →
    ¬ (e.dest ∈ done ∧ Gone gpt root p e.dest) → e ∈ p'.g.edges
  modify : p.flags.modify ⊆ p'.flags.modify
  flagged : ∀ i ∈ done, Unneeded root p i → p.counted i = true → i ∈ p'.flags.modify
  numNodes : p'.numNodes + p'.numPruned = p.numNodes + p.numPruned
  transient : ∀ f ∈ p'.g.nodeList, (p'.g.node f).transient = .processing →
    ∀ c ∈ done, Unneeded root p c → ¬ Adj p.g f c

variable {gpt : GraphPruneType} {root : TupId} {p p₁ p₂ : Pruning} {done : List TupId}

theorem PruneInv.start (hok : ListOk p.g) : PruneInv gpt root p [] p := by
  refine ⟨hok, rfl, rfl, rfl, fun _ => rfl, ?_, ?_, subset_rfl, ?_, rfl, ?_⟩
  · simp
  · exact fun e he _ _ => he
  · simp
  · simp

theorem pruneCounted_spec (h : pruneCounted p n = some p₁) :
    p₁.g = p.g ∧ p₁.marked = p.marked ∧ p₁.counted = p.counted ∧
      p.flags.modify ⊆ p₁.flags.modify ∧ (p.counted n = true → n ∈ p₁.flags.modify) ∧
      p₁.numNodes + p₁.numPruned = p.numNodes + p.numPruned := by
  unfold pruneCounted at h
  split at h
  · split at h
    · cases h
    · cases h
      refine ⟨rfl, rfl, rfl, Finset.subset_insert _ _, fun _ => Finset.mem_insert_self _ _, ?_⟩
      dsimp only
      omega
  · next hno =>
    cases h
    exact ⟨rfl, rfl, rfl, subset_rfl, fun hc => absurd hc hno, rfl⟩

/-- The loop comes to the next node. -/
theorem PruneInv.step (h : PruneInv gpt root p done p₁) (hn : n ∈ p.g.nodeList) (hnew : n ∉ done)
    (hrun : pruneUnmarked gpt root p₁ n = some p₂) : PruneInv gpt root p (done ++ [n]) p₂ := by
  have hdone : ∀ i, i ∈ done ++ [n] ↔ i ∈ done ∨ i = n := fun i => by simp
  have hmem₁ : n ∈ p₁.g.nodeList := (h.nodeList n).2 ⟨hn, fun hd => hnew hd.1⟩
  unfold pruneUnmarked at hrun
  split at hrun
  · next hcond =>
    have hdrop : Unneeded root p n := by
      rw [h.marked] at hcond
      simpa [Unneeded] using hcond
    obtain ⟨q, hq, rfl⟩ := Option.map_eq_some_iff.1 hrun
    obtain ⟨hg, hmarked, hcounted, hmodify, hflag, hnum⟩ := pruneCounted_spec hq
    have hkeep := keepTransient_spec q.g n
    have hmod₂ : p.flags.modify ⊆ q.flags.modify := h.modify.trans hmodify
    have hflag₂ : ∀ i ∈ done ++ [n], Unneeded root p i → p.counted i = true →
        i ∈ q.flags.modify := by
      intro i hi hdi hci
      rcases (hdone i).1 hi with hi | rfl
      · exact hmodify (h.flagged i hi hdi hci)
      · exact hflag (h.counted ▸ hci)
    have hnum₂ := hnum.trans h.numNodes
    -- a node that is left and leads to `n` has lost its transient flag
    have htrans : ∀ f ∈ p₁.g.nodeList, ((keepTransient q.g n).node f).transient = .processing →
        ∀ c ∈ done ++ [n], Unneeded root p c → ¬ Adj p.g f c := by
      intro f hf hproc c hc hdc hadj
      rw [hkeep.transient, hg] at hproc
      rcases (hdone c).1 hc with hc | rfl
      · split at hproc
        · cases hproc
        · exact h.transient f hf hproc c hc hdc hadj
      · obtain ⟨e, he, rfl, rfl⟩ := hadj
        have hleft : e ∈ p₁.g.edges :=
          h.edges e he ((h.nodeList _).1 hf).2 ((h.nodeList _).1 hmem₁).2
        rw [if_pos ⟨e, hleft, rfl, rfl⟩] at hproc
        cases hproc
    have htype : ((keepTransient q.g n).node n).tent = (p.g.node n).tent := by
      rw [hkeep.tent, hg, h.tent]
    dsimp only
    rw [htype]
    split
    · next hout =>
      have hgone : Gone gpt root p n := ⟨hdrop, hout⟩
      have hok : ListOk (keepTransient q.g n) := hkeep.ok (hg ▸ h.ok)
      have hin : n ∈ (keepTransient q.g n).nodeList := by
        rw [hkeep.nodeList, hg]
        exact hmem₁
      have hrm := removeNodeInternal_spec hok hin
      refine ⟨hrm.ok, ?_, hmarked.trans h.marked, hcounted.trans h.counted, ?_, ?_, ?_, hmod₂, hflag₂,
        hnum₂, ?_⟩
      · exact hrm.plist.trans (hkeep.plist.trans (hg ▸ h.plist))
      · intro i
        rw [hrm.tent, hkeep.tent, hg, h.tent]
      · intro i
        rw [hrm.mem_nodeList, hkeep.nodeList, hg, h.nodeList, hdone]
        constructor
        · rintro ⟨hne, hi, hnot⟩
          refine ⟨hi, ?_⟩
          rintro ⟨hd | rfl, hgi⟩
          · exact hnot ⟨hd, hgi⟩
          · exact hne rfl
        · rintro ⟨hi, hnot⟩
          refine ⟨?_, hi, fun hd => hnot ⟨.inl hd.1, hd.2⟩⟩
          rintro rfl
          exact hnot ⟨.inr rfl, hgone⟩
      · intro e he hsrc hdest
        rw [hdone] at hsrc hdest
        refine (hrm.edges e).2 ⟨?_, ?_, ?_⟩
        · rw [hkeep.edges, hg]
          exact h.edges e he (fun hd => hsrc ⟨.inl hd.1, hd.2⟩) fun hd => hdest ⟨.inl hd.1, hd.2⟩
        · intro heq
          exact hsrc ⟨.inr heq, heq ▸ hgone⟩
        · intro heq
          exact hdest ⟨.inr heq, heq ▸ hgone⟩
      · intro f hf hproc
        rw [hrm.transient] at hproc
        rw [hrm.mem_nodeList, hkeep.nodeList, hg] at hf
        exact htrans f hf.2 hproc
    · next hout =>
      have hstay : ¬ Gone gpt root p n := fun hgone => hout hgone.2
      have hsame : ∀ i, i ∈ done ++ [n] ∧ Gone gpt root p i ↔ i ∈ done ∧ Gone gpt root p i := by
        intro i
        rw [hdone]
        constructor
        · rintro ⟨hd | rfl, hgi⟩
          · exact ⟨hd, hgi⟩
          · exact absurd hgi hstay
        · exact fun hd => ⟨.inl hd.1, hd.2⟩
      refine ⟨hkeep.ok (hg ▸ h.ok), ?_, hmarked.trans h.marked, hcounted.trans h.counted, ?_, ?_, ?_,
        hmod₂, hflag₂, hnum₂, ?_⟩
      · exact hkeep.plist.trans (hg ▸ h.plist)
      · intro i
        rw [hkeep.tent, hg, h.tent]
      · intro i
        rw [hkeep.nodeList, hg, h.nodeList, hsame]
      · intro e he hsrc hdest
        rw [hsame] at hsrc hdest
        show e ∈ (keepTransient q.g n).edges
        rw [hkeep.edges, hg]
        exact h.edges e he hsrc hdest
      · intro f hf hproc
        rw [hkeep.nodeList, hg] at hf
        exact htrans f hf hproc
  · next hcond =>
    cases hrun
    have hstay : ¬ Unneeded root p n := by
      rw [h.marked] at hcond
      simpa [Unneeded] using hcond
    have hsame : ∀ i, i ∈ done ++ [n] ∧ Gone gpt root p i ↔ i ∈ done ∧ Gone gpt root p i := by
      intro i
      rw [hdone]
      constructor
      · rintro ⟨hd | rfl, hgi⟩
        · exact ⟨hd, hgi⟩
        · exact absurd hgi.1 hstay
      · exact fun hd => ⟨.inl hd.1, hd.2⟩
    refine ⟨h.ok, h.plist, h.marked, h.counted, h.tent, ?_, ?_, h.modify, ?_, h.numNodes, ?_⟩
    · intro i
      rw [h.nodeList, hsame]
    · intro e he hsrc hdest
      rw [hsame] at hsrc hdest
      exact h.edges e he hsrc hdest
    · intro i hi hdi
      rcases (hdone i).1 hi with hi | rfl
      · exact h.flagged i hi hdi
      · exact absurd hdi hstay
    · intro f hf hproc c hc hdc
      rcases (hdone c).1 hc with hc | rfl
      · exact h.transient f hf hproc c hc hdc
      · exact absurd hdc hstay

theorem PruneInv.run {l : List TupId} (h : PruneInv gpt root p done p₁) (hl : ∀ i ∈ l, i ∈ p.g.nodeList)
    (hnodup : (done ++ l).Nodup) (hrun : l.foldlM (pruneUnmarked gpt root) p₁ = some p₂) :
    PruneInv gpt root p (done ++ l) p₂ := by
  induction l generalizing done p₁ with
  | nil =>
    cases hrun
    rwa [List.append_nil]
  | cons n l ih =>
    rw [List.foldlM_cons, Option.bind_eq_bind, Option.bind_eq_some_iff] at hrun
    obtain ⟨q, hq, hrun⟩ := hrun
    have hnew : n ∉ done := fun hd => (List.disjoint_of_nodup_append hnodup) hd List.mem_cons_self
    rw [List.append_cons] at hnodup ⊢
    exact ih (h.step (hl n List.mem_cons_self) hnew hq)
      (fun i hi => hl i (List.mem_cons_of_mem n hi)) hnodup hrun

/-! ### Partial updates -/

/-- Whatever the targets need is in the graph. -/
theorem Kept.mem_nodeList (h : BuiltGraph g root) (hk : Kept env db g a n) : n ∈ g.nodeList := by
  induction hk with
  | target _ hroot => exact (h.mem_nodeRoot _).1 hroot
  | inDir hn _ => exact hn
  | pred _ hadj _ => exact (h.mem_nodeRoot _).1 (h.ends _ _ hadj).1
  | output _ _ hadj _ _ _ => exact (h.mem_nodeRoot _).1 (h.ends _ _ hadj).2

/-- The marks are the nodes the targets need; those are left, with the root, and with the files when
only generated nodes are pruned. A command that has gone and was counted is in the modify list, the
number of nodes has dropped by the number of pruned nodes, and no transient file that is still to be
removed is an input of a command that has gone. -/
theorem prune_graph_spec {argv : List Text} (h : BuiltGraph p.g root) (htree : db.Tree)
    (hnew : ∀ i, p.marked i = false) (hargs : pruneArgs env argv = some a) (hdo : a.doPrune = true)
    (hrun : pruneGraph env gpt root db p argv = some p₁) :
    (∀ i, p₁.marked i = true ↔ Kept env db p.g a i) ∧
      (∀ i, i ∈ p₁.g.nodeList ↔ Kept env db p.g a i ∨ i = root ∨
        gpt = .generated ∧ i ∈ p.g.nodeList ∧ (p.g.node i).tent.type = .file) ∧
      (∀ i ∈ p.g.nodeList, i ∉ p₁.g.nodeList → (p.g.node i).tent.type = .cmd →
        p.counted i = true → i ∈ p₁.flags.modify) ∧
      p₁.numNodes = p.numNodes - p₁.numPruned ∧
      ∀ f ∈ p₁.g.nodeList, (p₁.g.node f).transient = .processing → ∀ c, Adj p.g f c →
        (p.g.node c).tent.type = .cmd → c ∈ p₁.g.nodeList := by
  obtain ⟨a', ha', hrun⟩ := Option.bind_eq_some_iff.1 hrun
  rw [hargs] at ha'
  cases ha'
  rw [if_pos hdo] at hrun
  obtain ⟨m, hm, hrun⟩ := Option.bind_eq_some_iff.1 hrun
  have hmarks := markTargets_spec htree hnew hm
  have hstart : PruneInv gpt root { p with marked := m, numPruned := 0 } []
      { p with marked := m, numPruned := 0 } := .start h.ok
  have hinv := hstart.run (l := p.g.nodeList) (fun i hi => hi) h.ok.nodeList_nodup hrun
  rw [List.nil_append] at hinv
  have hdropped : ∀ i, Unneeded root { p with marked := m, numPruned := 0 } i ↔
      ¬ Kept env db p.g a i ∧ i ≠ root := by
    intro i
    rw [← hmarks, Bool.not_eq_true]
    rfl
  have hroot : root ∈ p.g.nodeList := by
    obtain ⟨l, hl⟩ := h.nodeList
    rw [hl]
    exact List.mem_cons_self
  refine ⟨?_, ?_, ?_, ?_, ?_⟩
  · intro i
    rw [hinv.marked]
    exact hmarks i
  · intro i
    rw [hinv.nodeList]
    unfold Gone
    rw [hdropped]
    show i ∈ p.g.nodeList ∧ ¬ (i ∈ p.g.nodeList ∧ (¬ Kept env db p.g a i ∧ i ≠ root) ∧
      (gpt = .all ∨ (p.g.node i).tent.type ≠ .file)) ↔ _
    constructor
    · rintro ⟨hi, hnot⟩
      by_contra hno
      push Not at hno
      obtain ⟨hk, hne, hfile⟩ := hno
      refine hnot ⟨hi, ⟨hk, hne⟩, ?_⟩
      cases gpt with
      | all => exact .inl rfl
      | generated => exact .inr (hfile rfl hi)
    · rintro (hk | rfl | ⟨rfl, hi, hfile⟩)
      · exact ⟨hk.mem_nodeList h, fun hd => hd.2.1.1 hk⟩
      · exact ⟨hroot, fun hd => hd.2.1.2 rfl⟩
      · refine ⟨hi, ?_⟩
        rintro ⟨-, -, hall | hne⟩
        · cases hall
        · exact hne hfile
  · intro i hi hout _ hcounted
    rw [hinv.nodeList, not_and, not_not] at hout
    exact hinv.flagged i hi (hout hi).2.1 hcounted
  · have hnum := hinv.numNodes
    dsimp only at hnum
    omega
  · intro f hf hproc c hadj hcmd
    have hc : c ∈ p.g.nodeList := (h.mem_nodeRoot c).1 (h.ends f c hadj).2
    rw [hinv.nodeList]
    refine ⟨hc, fun hd => ?_⟩
    exact hinv.transient f hf hproc c hc hd.2.1 hadj

/-! ### The recursion ends -/

theorem markNodes_isSome (h : BuiltGraph g root) (hn : n ∈ g.nodeList) :
    (markNodes env g m n).isSome := by
  apply visit_isSome (U := g.nodeList.toFinset)
  · intro x _ y hy
    rw [List.mem_toFinset, ← h.mem_nodeRoot]
    rcases mem_nextMark.1 hy with hadj | ⟨-, hadj, -⟩
    · exact (h.ends y x hadj).1
    · exact (h.ends x y hadj).2
  · exact List.mem_toFinset.2 hn
  · have hle := Finset.card_filter_le g.nodeList.toFinset fun x => m x = false
    have hcard := List.toFinset_card_le g.nodeList
    unfold unmarked
    omega

theorem foldlM_isSome {β γ : Type} {f : β → γ → Option β} {l : List γ} (b : β)
    (hf : ∀ b, ∀ c ∈ l, (f b c).isSome) : (l.foldlM f b).isSome := by
  induction l generalizing b with
  | nil => rfl
  | cons c l ih =>
    obtain ⟨b₁, hb₁⟩ := Option.isSome_iff_exists.1 (hf b c List.mem_cons_self)
    rw [List.foldlM_cons, hb₁]
    exact ih b₁ fun b d hd => hf b d (List.mem_cons_of_mem c hd)

theorem markTargets_isSome (h : BuiltGraph g root) : (markTargets env db g a m).isSome := by
  obtain ⟨m₁, hm₁⟩ : ∃ m₁, a.pruneList.foldlM (markTarget env g) m = some m₁ := by
    apply Option.isSome_iff_exists.1
    apply foldlM_isSome
    intro m tent _
    unfold markTarget
    split
    · next hfind =>
      apply markNodes_isSome h
      rw [← h.mem_nodeRoot]
      simpa [findNode] using hfind
    · rfl
  unfold markTargets
  rw [hm₁]
  apply foldlM_isSome
  intro m n hn
  unfold markBelow
  split
  · exact markNodes_isSome h hn
  · rfl

/-- When only commands are counted, targets that have an entry can always be pruned for. -/
theorem pruneGraph_isSome {argv : List Text} (h : BuiltGraph p.g root)
    (hcounted : ∀ i, p.counted i = true → (p.g.node i).tent.type = .cmd)
    (hargs : pruneArgs env argv = some a) : (pruneGraph env gpt root db p argv).isSome := by
  unfold pruneGraph
  rw [hargs, Option.bind_eq_bind, Option.bind_some]
  split
  · have hmarks : (markTargets env db p.g a p.marked).isSome := markTargets_isSome h
    obtain ⟨m, hm⟩ := Option.isSome_iff_exists.1 hmarks
    rw [hm]
    have key : ∀ (l done : List TupId) (q : Pruning), (∀ i ∈ l, i ∈ p.g.nodeList) →
        (done ++ l).Nodup →
        PruneInv gpt root { p with marked := m, numPruned := 0 } done q →
        (l.foldlM (pruneUnmarked gpt root) q).isSome := by
      intro l
      induction l with
      | nil => exact fun _ _ _ _ _ => rfl
      | cons n l ih =>
        intro done q hl hnodup hq
        obtain ⟨q₁, hq₁⟩ : ∃ q₁, pruneUnmarked gpt root q n = some q₁ := by
          unfold pruneUnmarked pruneNode pruneCounted
          split
          · split
            · next hc =>
              rw [hq.counted] at hc
              rw [if_neg (by rw [hq.tent]; simp [hcounted n hc])]
              exact ⟨_, rfl⟩
            · exact ⟨_, rfl⟩
          · exact ⟨_, rfl⟩
        have hnew : n ∉ done :=
          fun hd => (List.disjoint_of_nodup_append hnodup) hd List.mem_cons_self
        rw [List.append_cons] at hnodup
        rw [List.foldlM_cons, hq₁]
        exact ih _ q₁ (fun i hi => hl i (List.mem_cons_of_mem n hi)) hnodup
          (hq.step (hl n List.mem_cons_self) hnew hq₁)
    exact key _ [] _ (fun i hi => hi) h.ok.nodeList_nodup (.start h.ok)
  · rfl

end

/-! ### A target that is up to date -/

/-- Every path is that of the entry `i`. -/
def targetEnv (i : TupId) : PruneEnv where
  getTentDt := fun _ => some { tupid := i, dt := dotDt, type := .generated }
  exclusionDt := 9

/-- The chain before a partial update. -/
def chainPruning : Pruning :=
  { g := chainGraph, counted := fun i => i = 1, numNodes := 1, totalMtime := -1, flags := {} }

theorem empty_tree : Db.Tree {} := ⟨List.nodup_nil, by simp, fun _ => 0, by simp⟩

example : (pruneGraph (targetEnv 2) .generated 0 {} chainPruning [['x']]).map
    (fun p => (p.g.nodeList, p.numPruned)) = some ([0, 1, 2], 0) := by decide

/-- When no target is in the graph, the root is left although nothing needs it. -/
theorem root_not_pruned : ¬ ∀ (env : PruneEnv) (gpt : GraphPruneType) (root : TupId) (db : Db)
    (p p₁ : Pruning) (argv : List Text) (a : PruneArgs), BuiltGraph p.g root → db.Tree →
      (∀ i, p.marked i = false) → pruneArgs env argv = some a → a.doPrune = true →
      pruneGraph env gpt root db p argv = some p₁ → ∀ i, i ∈ p₁.g.nodeList ↔
        Kept env db p.g a i ∨
          gpt = .generated ∧ i ∈ p.g.nodeList ∧ (p.g.node i).tent.type = .file := by
  intro h
  obtain ⟨p₁, hrun⟩ : ∃ p₁, pruneGraph (targetEnv 5) .all 0 {} chainPruning [['x']] = some p₁ :=
    ⟨_, rfl⟩
  have hroot := (h _ _ _ _ _ p₁ _ _ chainGraph_built empty_tree (fun _ => rfl) rfl rfl hrun 0).1
    (by cases hrun; decide)
  rcases hroot with hk | ⟨hgpt, -⟩
  · -- nothing is kept
    have hnone : ∀ n, ¬ Kept (targetEnv 5) {} chainGraph
        { doPrune := true, pruneList := [{ tupid := 5, dt := dotDt, type := .generated }] } n := by
      intro n hn
      induction hn with
      | target htent hmem =>
        rw [List.mem_singleton.1 htent] at hmem
        revert hmem
        decide
      | inDir _ hbelow =>
        obtain ⟨-, d, hd, -⟩ := hbelow
        exact absurd hd (Finset.notMem_empty d)
      | pred _ _ ih => exact ih
      | output _ _ _ _ _ ih => exact ih
    exact hnone 0 hk
  · cases hgpt

/-- The chain pruned for a target that is up to date: the command is left for the next update. -/
theorem prune_graph_spec_chain : ∃ p₁,
    pruneGraph (targetEnv 5) .generated 0 {} chainPruning [['x']] = some p₁ ∧
      (1 ∉ p₁.g.nodeList → 1 ∈ p₁.flags.modify) ∧ p₁.numNodes = 1 - p₁.numPruned := by
  obtain ⟨p₁, hrun⟩ : ∃ p₁,
    pruneGraph (targetEnv 5) .generated 0 {} chainPruning [['x']] = some p₁ := ⟨_, rfl⟩
  obtain ⟨-, -, hflag, hnum, -⟩ :=
    prune_graph_spec chainGraph_built empty_tree (fun _ => rfl) rfl rfl hrun
  exact ⟨p₁, hrun, fun hout => hflag 1 (by decide) hout rfl rfl, hnum⟩

end Metatup
