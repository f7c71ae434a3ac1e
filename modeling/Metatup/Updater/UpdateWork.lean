import Metatup.Db.Flags
import Metatup.Updater.Outcome

/-!
# `update_work`

The work function of the update, run by the workers of `execute_graph` side by side. The system is
that of `execute_graph` with, for each node, its `skip` flag and how far its worker is (`Stage`),
and the flag tables. What a worker does with the `db_mutex` held is one step; each of the `skip`
flags that `unlink_outputs` clears without it is a step of its own.

What the command itself does is left open: it may fail at any point, and the records written for
it (`write_files`) may flag more nodes; `write_files` takes no command off a list.

* `modifyOutputs`, `unskipOutputs`, `checkOutputs`, `finishCmd`, `finishFile`: the functions.
* `WorkStep`: the steps of `update` for one command.
* `UpdateStep`, `UpdateRun`: the whole system.
* `UpdateGraph`: what `process_update_nodes` leaves for `execute_graph`.
-/

namespace Metatup

/-- What the workers share: the `skip` flag of each node and the flag tables. -/
structure Work where
  skip : TupId → Bool
  flags : Flags

/-- Clear the `skip` flag of a node. -/
def Work.unskip (w : Work) (n : TupId) : Work := { w with skip := Function.update w.skip n false }

/-- How far the worker of a command is. -/
inductive Stage
  /-- `update_work` has been called. -/
  | begun
  /-- In the loop of `unlink_outputs`, with these edges to go. -/
  | unlinking (todo : List Edge)
  /-- The outputs are out of the way. -/
  | running
  /-- `update` has returned, or was not called because the command is skipped. -/
  | returned (rc : Int)
  deriving DecidableEq

/-- Source: `updater.c` `skip_output`; `entry` gives the parent of the node. -/
def skipOutput (entry : TupId → TupEntry) (tent : TupEntry) : Bool :=
  tent.type == .group || isVirtualTent (entry tent.dt)

/-! ### The outputs of a node -/

/-- The turn of the loop of `modify_outputs` for one edge. -/
def modifyOutput (g : Graph) (w : Work) (e : Edge) : Work :=
  if e.style = .normal then
    let w := if (g.node e.dest).tent.type = .cmd then
      { w with flags := tupDbAddModifyList w.flags e.dest } else w
    w.unskip e.dest
  else w

/-- Source: `updater.c` `modify_outputs` -/
def modifyOutputs (g : Graph) (w : Work) (n : TupId) : Work :=
  (outEdges g n).foldl (modifyOutput g) w

/-- Source: `updater.c` `unskip_outputs` -/
def unskipOutputs (g : Graph) (w : Work) (n : TupId) : Work :=
  (outEdges g n).foldl (fun w e => w.unskip e.dest) w

/-- The loop of `check_outputs`. The outcome of `compare_paths` for each output is `same`, with
`none` for an error, which ends the loop. -/
def checkOutputsLoop (entry : TupId → TupEntry) (g : Graph) (same : TupId → Option Bool) :
    List Edge → Work → Work × Int
  | [], w => (w, 0)
  | e :: es, w =>
      if skipOutput entry (g.node e.dest).tent then checkOutputsLoop entry g same es w
      else match same e.dest with
        | .none => (w, -1)
        | some true => checkOutputsLoop entry g same es w
        | some false => checkOutputsLoop entry g same es (w.unskip e.dest)

/-- Source: `updater.c` `check_outputs` -/
def checkOutputs (entry : TupId → TupEntry) (g : Graph) (same : TupId → Option Bool) (w : Work)
    (n : TupId) : Work × Int :=
  checkOutputsLoop entry g same (outEdges g n) w

/-! ### The end of `update_work` -/

/-- The part of `update_work` behind the call of `update`, for a command.
Source: `updater.c` `update_work`, with the `db_mutex` held -/
def finishCmd (g : Graph) (w : Work) (n : TupId) (rc : Int) : Work :=
  if rc = 0 then
    let w := (outEdges g n).foldl (fun w e => if w.skip e.dest then w else modifyOutputs g w e.dest) w
    let flags := tupDbUnflagModify w.flags n
    { w with
      flags := if isTransientTent (g.node n).tent then tupDbUnflagTransient flags n else flags }
  else w

/-- The part of `update_work` that removes a transient file. `unlinked` is the outcome of
`unlink_node`. -/
def finishTransient (g : Graph) (w : Work) (n : TupId) (unlinked : Bool) : Work × Int :=
  if (g.node n).transient = .delete then
    if unlinked then ({ w with flags := tupDbUnflagTransient w.flags n }, 0) else (w, -1)
  else (w, 0)

/-- The part of `update_work` that removes a variable of the environment that nothing uses.
`deleted` is the outcome of `delete_name_file`, which takes the variable off every list. -/
def finishVar (envDt : TupId) (g : Graph) (w : Work) (n : TupId) (rc : Int) (deleted : Bool) :
    Work × Int :=
  if (g.node n).tent.type = .var ∧ (g.node n).tent.dt = envDt ∧ (outEdges g n).isEmpty ∧ rc = 0 then
    if deleted then
      ({ w with flags := tupDbUnflagConfig (tupDbUnflagCreate (tupDbUnflagModify
          (tupDbUnflagVariant (tupDbUnflagTransient w.flags n) n) n) n) n }, 0)
    else (w, -1)
  else (w, rc)

/-- The part of `update_work` for any other node.
Source: `updater.c` `update_work`, with the `db_mutex` held -/
def finishFile (envDt : TupId) (g : Graph) (w : Work) (n : TupId) (unlinked deleted : Bool) :
    Work × Int :=
  let w := if w.skip n then w else modifyOutputs g w n
  let w := { w with flags := tupDbUnflagModify w.flags n }
  let (w, rc) := finishTransient g w n unlinked
  finishVar envDt g w n rc deleted

/-! ### Steps -/

/-- What stays fixed during an update: the entries, for the parents of nodes, and the directory of
the environment variables. -/
structure UpdateEnv where
  entry : TupId → TupEntry
  envDt : TupId

/-- The flags of a command that `update` knows. Source: `updater.c` `update`, the first `switch` -/
def knownFlags : List Char := ['c', 'o', 'b', 'j', 't', 's']

/-- What `write_files` and `mark_transient_outputs` do to the flag tables while a command is
handled: no command is taken off the modify or the transient list. -/
structure Written (g : Graph) (f f' : Flags) : Prop where
  modify : ∀ c ∈ f.modify, (g.node c).tent.type = .cmd → c ∈ f'.modify
  transient : ∀ c ∈ f.transient, (g.node c).tent.type = .cmd → c ∈ f'.transient

/-- How `update` starts on a command: without the `o` flag the outputs are unlinked one by one;
with it they are moved away, which leaves the `skip` flags alone. Opening the directory or moving
an output can fail. Source: `updater.c` `update` -/
inductive UpdateBegin (g : Graph) (n : TupId) : Stage → Prop
  | failed : UpdateBegin g n (.returned (-1))
  | unlink : (g.node n).tent.flags.all knownFlags.contains → !hasFlag (g.node n).tent 'o' →
      UpdateBegin g n (.unlinking (outEdges g n))
  | move : (g.node n).tent.flags.all knownFlags.contains → hasFlag (g.node n).tent 'o' →
      UpdateBegin g n .running

/-- The steps of `update` for the command `n`, once it has started.
Source: `updater.c` `update`, `unlink_outputs`, `process_output` -/
inductive WorkStep (env : UpdateEnv) (g : Graph) (n : TupId) : Work → Stage → Work → Stage → Prop
  /-- An output that `unlink_outputs` passes over. -/
  | keep {w e todo} :
      skipOutput env.entry (g.node e.dest).tent ∨ (g.node e.dest).transient = .delete →
      WorkStep env g n w (.unlinking (e :: todo)) w (.unlinking todo)
  /-- An output that it unlinks, after clearing its flag; `unlinkat` can fail. -/
  | unlink {w e todo st} :
      ¬ skipOutput env.entry (g.node e.dest).tent → (g.node e.dest).transient ≠ .delete →
      st = .unlinking todo ∨ st = .returned (-1) →
      WorkStep env g n w (.unlinking (e :: todo)) (w.unskip e.dest) st
  | unlinked {w} : WorkStep env g n w (.unlinking []) w .running
  /-- The command could not be run. -/
  | failed {w} : WorkStep env g n w .running w (.returned (-1))
  /-- `process_output` without the `o` flag, and with it when the command failed. -/
  | output {w f rc} : !hasFlag (g.node n).tent 'o' ∨ rc ≠ 0 → Written g w.flags f →
      WorkStep env g n w .running { w with flags := f } (.returned rc)
  /-- `process_output` with the `o` flag, when a needed link was removed. -/
  | unskip {w f rc} : hasFlag (g.node n).tent 'o' → Written g w.flags f →
      WorkStep env g n w .running (unskipOutputs g { w with flags := f } n) (.returned rc)
  /-- `process_output` with the `o` flag otherwise. An error behind it still makes the work fail. -/
  | check {w f same w' rc rc'} : hasFlag (g.node n).tent 'o' → Written g w.flags f →
      checkOutputs env.entry g same { w with flags := f } n = (w', rc) → rc' = rc ∨ rc' = -1 →
      WorkStep env g n w .running w' (.returned rc')

/-- The state of an update. -/
structure Update where
  /-- `execute_graph`. -/
  exec : Exec
  /-- What the workers share. -/
  work : Work
  /-- How far each node's worker is. -/
  stage : TupId → Stage

/-- What happens in a step of an update. -/
inductive UpdateEvent
  /-- A step of `execute_graph`. -/
  | exec (e : Event)
  /-- `update` was called on a command. -/
  | update (n : TupId)
  /-- The worker of a command moved on. -/
  | work (n : TupId)
  deriving DecidableEq

/-- A node that is handed to a worker is at the beginning. -/
def startStage (stage : TupId → Stage) : Event → TupId → Stage
  | .start n => Function.update stage n .begun
  | _ => stage

/-- The steps of an update. -/
inductive UpdateStep (env : UpdateEnv) (cfg : Config) : Update → UpdateEvent → Update → Prop
  | main {u e s'} : mainStep cfg u.exec = some (e, s') →
      UpdateStep env cfg u (.exec e) { u with exec := s', stage := startStage u.stage e }
  | signal {u} : u.exec.dead = false →
      UpdateStep env cfg u (.exec .signal) { u with exec := { u.exec with dead := true } }
  | skip {u wt n} : (wt, n) ∈ u.exec.activeList → (u.exec.g.node n).tent.type = .cmd →
      u.stage n = .begun → u.work.skip n = true →
      UpdateStep env cfg u (.work n) { u with stage := Function.update u.stage n (.returned 0) }
  | update {u wt n st} : (wt, n) ∈ u.exec.activeList → (u.exec.g.node n).tent.type = .cmd →
      u.stage n = .begun → u.work.skip n = false → UpdateBegin u.exec.g n st →
      UpdateStep env cfg u (.update n) { u with stage := Function.update u.stage n st }
  | work {u wt n w' st'} : (wt, n) ∈ u.exec.activeList → (u.exec.g.node n).tent.type = .cmd →
      WorkStep env u.exec.g n u.work (u.stage n) w' st' →
      UpdateStep env cfg u (.work n)
        { u with work := w', stage := Function.update u.stage n st' }
  | finishCmd {u wt n rc} : (wt, n) ∈ u.exec.activeList → (u.exec.g.node n).tent.type = .cmd →
      u.stage n = .returned rc →
      UpdateStep env cfg u (.exec (.finish n rc))
        { u with exec := workerRet u.exec wt n rc, work := finishCmd u.exec.g u.work n rc }
  | finishFile {u wt n unlinked deleted w' rc} : (wt, n) ∈ u.exec.activeList →
      (u.exec.g.node n).tent.type ≠ .cmd → u.stage n = .begun →
      finishFile env.envDt u.exec.g u.work n unlinked deleted = (w', rc) →
      UpdateStep env cfg u (.exec (.finish n rc))
        { u with exec := workerRet u.exec wt n rc, work := w' }

/-- The graph `process_update_nodes` has built from the flag tables `f`. The root points to the
nodes that are in the modify list or in the transient list, and to transient commands of the modify
list that were attached; those are the nodes with a cleared `skip` flag. A command points to no
command. Source: `updater.c` `process_update_nodes`; `graph.c` `make_edge`,
`build_graph_non_transient_cb`, `build_graph_transient_cb`, `attach_transient_nodes` -/
structure UpdateGraph (g : Graph) (root : TupId) (f : Flags) : Prop where
  built : BuiltGraph g root
  skip : ∀ n, (g.node n).skip = false ↔ Adj g root n
  root_cmd : ∀ n, Adj g root n → (g.node n).tent.type = .cmd → n ∈ f.modify ∨ n ∈ f.transient
  cmd_edges : ∀ a b, Adj g a b → (g.node a).tent.type = .cmd → (g.node b).tent.type ≠ .cmd

/-- An update on the graph `g` with the flag tables `f`. -/
def startUpdate (cfg : Config) (g : Graph) (f : Flags) : Update where
  exec := startGraph cfg g
  work := { skip := fun n => (g.node n).skip, flags := f }
  stage := fun _ => .begun

/-- The runs of an update. -/
abbrev UpdateRun (env : UpdateEnv) (cfg : Config) (g : Graph) (f : Flags) :
    List UpdateEvent → Update → Prop :=
  Lib.Run (UpdateStep env cfg) (startUpdate cfg g f)

end Metatup
