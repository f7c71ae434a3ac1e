import Metatup.Lib.Lts
import Metatup.Updater.Pop

/-!
# `execute_graph`

The main loop and the worker threads as one transition system. The main thread is deterministic
(`mainStep`): it takes nodes from the plist to free workers, and waits for finished ones when it
has to. A worker that has been given a node may finish at any time and with any return code, and
the server may be killed at any time. Every interleaving of these is a run of `Step cfg`.

A worker does nothing between being signalled and calling the work function, so the hand-over and
the start of the work are one event, `start`. A finished worker waits on the `fin_list` until the
main thread takes it (`reap`).

* `BuiltGraph`: what `build_graph` leaves.
* `startGraph`: the prologue, up to the main loop.
* `Step`, `Exec`: the transition system.
-/

namespace Metatup

/-- What is fixed for a call of `execute_graph`. -/
structure Config where
  /-- Continue after a failed job. -/
  keepGoing : Bool
  /-- The number of worker threads. -/
  jobs : ℕ

/-- Where the main thread is. -/
inductive Pc
  /-- At the test of the main loop. -/
  | head
  /-- At `check_empties`. -/
  | checkEmpties
  /-- Behind the main loop. -/
  | after
  /-- All threads have been told to quit; waiting for them, to return the code. -/
  | join (rc : Int)
  /-- Returned. -/
  | done (rc : Int)
  /-- `LIST_FIRST` of an empty `free_list` was dereferenced. -/
  | fault
  deriving DecidableEq, Repr

/-- The state of a call. Source: `updater.c` `execute_graph`, the local variables. -/
structure Exec where
  /-- The graph. -/
  g : Graph
  /-- Where the main thread is. -/
  pc : Pc
  /-- Workers without a job. -/
  freeList : List ℕ
  /-- Workers at work, with the node (`wt->n`). -/
  activeList : List (ℕ × TupId)
  /-- Workers that are done, with the node and its return code (`wt->retn`, `wt->rc`). -/
  finList : List (ℕ × TupId × Int)
  /-- Jobs handed out and not taken back. -/
  active : ℕ
  /-- Failed jobs. -/
  failed : ℕ
  /-- `server_is_dead()`. -/
  dead : Bool

/-- What happens in a step. -/
inductive Event
  /-- The main thread moved on without touching a node. -/
  | tau
  /-- A node with incoming edges went back to the node list. -/
  | requeue (n : TupId)
  /-- A node that was never expanded was popped. -/
  | popUnexpanded (n : TupId)
  /-- The work function was called on a node. -/
  | start (n : TupId)
  /-- The work function returned. -/
  | finish (n : TupId) (rc : Int)
  /-- The main thread took the finished worker back; with return code 0 it popped the node. -/
  | reap (n : TupId) (rc : Int)
  /-- The server was killed. -/
  | signal
  deriving DecidableEq, Repr

/-- `node_remove_list` or `node_insert_*` or `pop_node` failed: `return -2`. -/
def Exec.abort (s : Exec) : Exec := { s with pc := .done (-2) }

/-- Neither killed, nor failed without `keep_going`. -/
def Exec.going (cfg : Config) (s : Exec) : Bool := !s.dead && (s.failed == 0 || cfg.keepGoing)

/-- The body of the main loop up to `check_empties`, for the first node `n` of the plist.
Source: `updater.c` `execute_graph` -/
def dispatch (s : Exec) (n : TupId) : Event × Exec :=
  if !(inEdges s.g n).isEmpty then
    -- not ready for processing: wait on the node list
    match nodeRemoveList .plist s.g n >>= fun g => nodeInsertHead .nodeList g n with
    | .none => (.requeue n, s.abort)
    | some g => (.requeue n, { s with g := g.setState n .finished, pc := .checkEmpties })
  else if !(s.g.node n).expanded then
    match nodeRemoveList .plist s.g n >>= fun g => popNode g n with
    | .none => (.popUnexpanded n, s.abort)
    | some g => (.popUnexpanded n, { s with g := g, pc := .checkEmpties })
  else
    match nodeRemoveList .plist s.g n with
    | .none => (.tau, s.abort)
    | some g =>
        match s.freeList with
        | [] => (.tau, { s with g := g, active := s.active + 1, pc := .fault })
        | wt :: free =>
            (.start n, { s with
              g := g, active := s.active + 1, freeList := free
              activeList := (wt, n) :: s.activeList, pc := .checkEmpties })

/-- The body of the loop at `check_empties`, for the first worker of the `fin_list`.
Source: `updater.c` `execute_graph` -/
def takeFinished (s : Exec) (wt : ℕ) (n : TupId) (rc : Int) (fin : List (ℕ × TupId × Int)) :
    Event × Exec :=
  let s := { s with finList := fin, freeList := wt :: s.freeList, active := s.active - 1 }
  if rc = 0 then
    match popNode s.g n with
    | .none => (.reap n rc, s.abort)
    | some g => (.reap n rc, { s with g := g })
  else
    -- failed jobs sit on the node list until the graph is destroyed
    match nodeInsertTail .nodeList s.g n with
    | .none => (.reap n rc, s.abort)
    | some g => (.reap n rc, { s with g := g, failed := s.failed + 1 })

/-- The code `execute_graph` returns. Source: `updater.c` `execute_graph`, after the main loop -/
def resultCode (s : Exec) : Int :=
  if s.dead then -1
  else if s.failed ≠ 0 then -1
  else if !s.g.nodeList.isEmpty || !s.g.plist.isEmpty then -1
  else 0

/-- One step of the main thread; `none` when it waits or has returned.
Source: `updater.c` `execute_graph` -/
def mainStep (cfg : Config) (s : Exec) : Option (Event × Exec) :=
  match s.pc with
  | .head =>
      match s.g.plist with
      | n :: _ => if s.going cfg then some (dispatch s n) else some (.tau, { s with pc := .after })
      | [] => some (.tau, { s with pc := .after })
  | .checkEmpties =>
      if s.freeList.isEmpty || ((s.g.plist.isEmpty || !s.going cfg) && s.active != 0) then
        match s.finList with
        | (wt, n, rc) :: fin => some (takeFinished s wt n rc fin)
        | [] => .none
      else some (.tau, { s with pc := .head })
  | .after => some (.tau, { s with pc := .join (resultCode s) })
  | .join rc => if s.activeList.isEmpty then some (.tau, { s with pc := .done rc }) else .none
  | .done _ => .none
  | .fault => .none

/-- A worker hands its result over. Source: `updater.c` `worker_ret` -/
def workerRet (s : Exec) (wt : ℕ) (n : TupId) (rc : Int) : Exec :=
  { s with activeList := s.activeList.erase (wt, n), finList := (wt, n, rc) :: s.finList }

/-- The steps of a call: of the main thread, of a worker whose work function returns, and the
signal that kills the server. -/
inductive Step (cfg : Config) : Exec → Event → Exec → Prop
  | main {s e s'} : mainStep cfg s = some (e, s') → Step cfg s e s'
  | worker {s wt n} (rc : Int) :
      (wt, n) ∈ s.activeList → Step cfg s (.finish n rc) (workerRet s wt n rc)
  | signal {s} : s.dead = false → Step cfg s .signal { s with dead := true }

/-- The prologue: all workers are free, and the first node of the node list, the root, is popped.
Source: `updater.c` `execute_graph` -/
def startGraph (cfg : Config) (g : Graph) : Exec :=
  let s : Exec :=
    { g := g, pc := .head, freeList := (List.range cfg.jobs).reverse, activeList := []
      finList := [], active := 0, failed := 0, dead := false }
  match g.nodeList with
  | [] => { s with pc := .fault }
  | root :: _ =>
      match nodeRemoveList .nodeList g root >>= fun g => popNode g root with
      | .none => s.abort
      | some g => { s with g := g }

/-- What `build_graph` leaves: every node waits on the node list, with the root first; all of them
have been expanded except the root; no edge goes into the root, and every other node has been put
into the graph by an edge. `create_node` marks a file as transient only when it is generated.
Source: `graph.c` `create_graph`, `create_node`, `make_edge`, `build_graph` -/
structure BuiltGraph (g : Graph) (root : TupId) : Prop where
  ok : ListOk g
  nodeList : ∃ l, g.nodeList = root :: l
  nodeRoot_nodup : g.nodeRoot.Nodup
  mem_nodeRoot : ∀ i, i ∈ g.nodeRoot ↔ i ∈ g.nodeList
  plist : g.plist = []
  state : ∀ i, (g.node i).state ≠ .processing
  transient : ∀ i, (g.node i).transient ≠ .delete
  generated : ∀ i, (g.node i).transient = .processing → (g.node i).tent.type = .generated
  root_type : (g.node root).tent.type = .root
  expanded : ∀ i ∈ g.nodeRoot, i ≠ root → (g.node i).expanded = true
  ends : ∀ a b, Adj g a b → a ∈ g.nodeRoot ∧ b ∈ g.nodeRoot
  root_in : ∀ a, ¬ Adj g a root
  has_in : ∀ b ∈ g.nodeRoot, b ≠ root → ∃ a, Adj g a b

/-- The runs of `execute_graph` on a graph. -/
abbrev ExecRun (cfg : Config) (g : Graph) : List Event → Exec → Prop :=
  Lib.Run (Step cfg) (startGraph cfg g)

end Metatup
