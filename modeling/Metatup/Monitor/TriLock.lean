import Mathlib.Logic.Function.Basic
import Metatup.Lib.Lts

/-!
# The three locks of the database

Every process takes the shared lock, opens the file of the object lock and takes that lock too. The
monitor watches the file: when it is opened the monitor takes the tri lock and lets go of the object
lock, and when it is closed the monitor takes the object lock back before it lets go of the tri lock.

Locks are the kernel's: one owner for each file, a process that waits is let in when the lock is free,
a process may take a lock that it has, and closing a file lets go of the lock. The kernel also keeps
the events on the object lock file for the monitor, and leaves out one that is like the last one.

* `procStep`, `monitorStep`: what a process and the monitor do next, if they are not blocked.
* `Step`: any of them does it, in any order, or one of the things happens that nobody waits for.
* `Inv`: who has which lock, and which events are still to be read.
* `one_in_db`: one at a time is in the database.
* `opener_noticed`: the monitor never overlooks a process that waits for the object lock.
* `monitor_between`: the monitor has the object lock between two processes.
-/

namespace Metatup.TriLock

open Lib

/-- The monitor, or another process. -/
inductive Party
  | monitor
  | proc (p : ℕ)
  deriving DecidableEq, Repr

/-- What the kernel says of the object lock file. Source: `inotify.c` `IN_OPEN`, `IN_CLOSE` -/
inductive FileEvent
  | opened
  | closed
  deriving DecidableEq, Repr

/-- Where a process is. Source: `lock.c` `tup_lock_init`, `tup_lock_exit` -/
inductive ProcPc
  /-- Not in the lock at all. -/
  | out
  /-- At `tup_lock_open` of the object lock. -/
  | shared
  /-- At `tup_flock(obj_lock)`. -/
  | waiting
  /-- At work. -/
  | inside
  /-- At `tup_lock_close(obj_lock)`. -/
  | leaving
  /-- At `tup_flock(tri_lock)`. -/
  | closed
  /-- At `tup_unflock(tri_lock)`. -/
  | tri
  /-- At `tup_unflock(sh_lock)`. -/
  | last
  /-- The process that has forked the monitor, at `tup_unflock(obj_lock)`. -/
  | handover
  /-- That process, at `tup_wait_flock(obj_lock)`. -/
  | handoverWait
  deriving DecidableEq, Repr

/-- Where the monitor is. Source: `inotify.c` `monitor`, `monitor_loop` -/
inductive MonPc
  /-- There is no monitor. -/
  | gone
  /-- In the background, at `tup_flock(obj_lock)`. -/
  | reacquire
  /-- At `tup_unflock(sh_lock)`. -/
  | unshare
  /-- At the scan that begins `monitor_loop`. -/
  | scan
  /-- At `select`, with `locked` set. -/
  | on
  /-- In `flush_queue`, after a time without events. -/
  | flush
  /-- In `flush_queue`, after an `IN_OPEN`. -/
  | opened
  /-- At `tup_flock(tri_lock)`. -/
  | triWait
  /-- At `tup_unflock(obj_lock)`. -/
  | release
  /-- At `select`, with `locked` not set. -/
  | off
  /-- At `tup_flock(obj_lock)`, after an `IN_CLOSE`. -/
  | objWait
  /-- At `tup_unflock(tri_lock)`. -/
  | triRelease
  /-- At `variant_load`. -/
  | reload
  /-- At `tup_lock_closeall`, to start again. -/
  | retry
  /-- In `tup_lock_init`, at `tup_flock(sh_lock)`. -/
  | retryShared
  /-- There, at `tup_lock_open` of the object lock. -/
  | retryOpen
  /-- There, at `tup_flock(obj_lock)`. -/
  | retryObj
  /-- Throwing away the events that are left. -/
  | retryDrain
  /-- In `tup_lock_exit`, with the object lock. -/
  | quitObj
  /-- In `tup_lock_exit`, with the tri lock. -/
  | quitOff
  /-- There, at `tup_flock(tri_lock)`. -/
  | quitTri
  /-- There, at `tup_unflock(tri_lock)`. -/
  | quitRelease
  deriving DecidableEq, Repr

/-- The owners of the locks, where everybody is, and the events the monitor has not read. -/
structure State where
  shLock : Option Party := none
  objLock : Option Party := none
  triLock : Option Party := none
  pc : ℕ → ProcPc := fun _ => .out
  mon : MonPc := .gone
  events : List FileEvent := []

/-- What happens in a step. -/
inductive Event
  /-- A process comes and gets the shared lock. -/
  | arrive (p : ℕ)
  /-- A process gets the object lock. -/
  | enter (p : ℕ)
  /-- A process becomes the monitor. -/
  | start (p : ℕ)
  /-- The monitor gets the object lock after an `IN_CLOSE`. -/
  | take
  /-- There are no events for a while. -/
  | timeout
  /-- `flush_queue` finds that the kernel has lost events. -/
  | overflow
  /-- The monitor is told to quit. -/
  | quit
  | tau
  deriving DecidableEq, Repr

/-! ### The kernel -/

/-- Source: `flock/fcntl.c` `tup_flock`; `none` while it waits. -/
def tupFlock (lock : Option Party) (a : Party) : Option (Option Party) :=
  if lock = none ∨ lock = some a then some (some a) else none

/-- Source: `flock/fcntl.c` `tup_unflock` -/
def tupUnflock (lock : Option Party) (a : Party) : Option Party :=
  if lock = some a then none else lock

/-- The kernel keeps an event. -/
def post (events : List FileEvent) (e : FileEvent) : List FileEvent :=
  if events.getLast? = some e then events else events ++ [e]

/-- A process moves on. -/
def State.goto (s : State) (p : ℕ) (pc : ProcPc) : State := { s with pc := Function.update s.pc p pc }

/-! ### What the parties do -/

/-- The next thing that a process does. Opening the file of the tri lock is left out. -/
def procStep (s : State) (p : ℕ) : Option (Event × State) :=
  match s.pc p with
  | .out => (tupFlock s.shLock (.proc p)).map fun l =>
      (.arrive p, { s with shLock := l }.goto p .shared)
  | .shared => some (.tau, { s with events := post s.events .opened }.goto p .waiting)
  | .waiting => (tupFlock s.objLock (.proc p)).map fun l =>
      (.enter p, { s with objLock := l }.goto p .inside)
  | .inside => some (.tau, { s with objLock := tupUnflock s.objLock (.proc p) }.goto p .leaving)
  | .leaving => some (.tau, { s with events := post s.events .closed }.goto p .closed)
  | .closed => (tupFlock s.triLock (.proc p)).map fun l => (.tau, { s with triLock := l }.goto p .tri)
  | .tri => some (.tau, { s with triLock := tupUnflock s.triLock (.proc p) }.goto p .last)
  | .last => some (.tau, { s with shLock := tupUnflock s.shLock (.proc p) }.goto p .out)
  | .handover =>
    some (.tau, { s with objLock := tupUnflock s.objLock (.proc p) }.goto p .handoverWait)
  | .handoverWait =>
    -- the monitor has the file open too, so that closing it is no event
    if s.objLock = none ∨ s.objLock = some (.proc p) then none else some (.tau, s.goto p .closed)

/-- The next thing that the monitor does. `tup_lock_exit` closes the file after the inotify descriptor
is closed. -/
def monitorStep (s : State) : Option (Event × State) :=
  match s.mon with
  | .gone => none
  | .reacquire => (tupFlock s.objLock .monitor).map fun l => (.tau, { s with objLock := l, mon := .scan })
  | .unshare => some (.tau, { s with shLock := tupUnflock s.shLock .monitor, mon := .scan })
  | .scan => some (.tau, { s with mon := .on })
  | .on =>
    match s.events with
    | [] => none
    | .opened :: events => some (.tau, { s with events := events, mon := .opened })
    | .closed :: events => some (.tau, { s with events := events })
  | .flush => some (.tau, { s with mon := .on })
  | .opened => some (.tau, { s with mon := .triWait })
  | .triWait => (tupFlock s.triLock .monitor).map fun l => (.tau, { s with triLock := l, mon := .release })
  | .release => some (.tau, { s with objLock := tupUnflock s.objLock .monitor, mon := .off })
  | .off =>
    match s.events with
    | [] => none
    | .opened :: events => some (.tau, { s with events := events })
    | .closed :: events => some (.tau, { s with events := events, mon := .objWait })
  | .objWait => (tupFlock s.objLock .monitor).map fun l =>
      (.take, { s with objLock := l, mon := .triRelease })
  | .triRelease => some (.tau, { s with triLock := tupUnflock s.triLock .monitor, mon := .reload })
  | .reload => some (.tau, { s with mon := .on })
  | .retry => some (.tau, { s with
      objLock := tupUnflock s.objLock .monitor, triLock := tupUnflock s.triLock .monitor,
      shLock := tupUnflock s.shLock .monitor, events := post s.events .closed, mon := .retryShared })
  | .retryShared => (tupFlock s.shLock .monitor).map fun l =>
      (.tau, { s with shLock := l, mon := .retryOpen })
  | .retryOpen => some (.tau, { s with events := post s.events .opened, mon := .retryObj })
  | .retryObj => (tupFlock s.objLock .monitor).map fun l =>
      (.tau, { s with objLock := l, mon := .retryDrain })
  | .retryDrain => some (.tau, { s with events := [], mon := .unshare })
  | .quitObj => some (.tau, { s with objLock := tupUnflock s.objLock .monitor, mon := .quitTri })
  | .quitOff => (tupFlock s.triLock .monitor).map fun l =>
      (.tau, { s with objLock := tupUnflock s.objLock .monitor, triLock := l, mon := .quitRelease })
  | .quitTri => (tupFlock s.triLock .monitor).map fun l =>
      (.tau, { s with triLock := l, mon := .quitRelease })
  | .quitRelease => some (.tau, { s with
      triLock := tupUnflock s.triLock .monitor, shLock := tupUnflock s.shLock .monitor, mon := .gone })

/-- One of the parties does the next thing, or something happens that nobody waits for. -/
inductive Step : State → Event → State → Prop
  | proc {s s' : State} {e : Event} {p : ℕ} (h : procStep s p = some (e, s')) : Step s e s'
  | monitor {s s' : State} {e : Event} (h : monitorStep s = some (e, s')) : Step s e s'
  /-- `tup monitor -f`: the process that has the locks is the monitor from now on. -/
  | foreground {s : State} {p : ℕ} (hp : s.pc p = .inside) (hm : s.mon = .gone) :
    Step s (.start p) ({ s with
      shLock := some .monitor, objLock := some .monitor, mon := .unshare, events := [] }.goto p .out)
  /-- `tup monitor`: the process that has the locks forks the monitor, which does not have them. -/
  | background {s : State} {p : ℕ} (hp : s.pc p = .inside) (hm : s.mon = .gone) :
    Step s (.start p) ({ s with mon := .reacquire, events := [] }.goto p .handover)
  | timeout {s : State} (h : s.mon = .on) (he : s.events = []) : Step s .timeout { s with mon := .flush }
  | overflow {s : State} (h : s.mon = .flush ∨ s.mon = .opened) :
    Step s .overflow { s with mon := .retry }
  | quitOn {s : State} (h : s.mon = .on) : Step s .quit { s with mon := .quitObj }
  | quitOff {s : State} (h : s.mon = .off) : Step s .quit { s with mon := .quitOff }

/-! ### Who has which lock -/

/-- The monitor has the shared lock there. -/
def MonPc.HasShared : MonPc → Prop
  | .unshare | .retryOpen | .retryObj | .retryDrain => True
  | _ => False

/-- The monitor has the object lock there. -/
def MonPc.HasObj : MonPc → Prop
  | .unshare | .scan | .on | .flush | .opened | .triWait | .release | .triRelease | .reload | .retry
  | .retryDrain | .quitObj => True
  | _ => False

/-- The monitor has the tri lock there. -/
def MonPc.HasTri : MonPc → Prop
  | .release | .off | .objWait | .triRelease | .quitOff | .quitRelease => True
  | _ => False

/-- A process has the shared lock there. -/
def ProcPc.HasShared : ProcPc → Prop
  | .out => False
  | _ => True

/-- A process has the object lock there. -/
def ProcPc.HasObj : ProcPc → Prop
  | .inside | .handover => True
  | _ => False

/-- A process has the tri lock there. -/
def ProcPc.HasTri : ProcPc → Prop
  | .tri => True
  | _ => False

/-- The owner of a lock is the party that is where one has it. -/
def Owned (m : MonPc → Prop) (q : ProcPc → Prop) (lock : Option Party) (pc : ℕ → ProcPc)
    (mon : MonPc) : Prop :=
  (m mon ↔ lock = some .monitor) ∧ ∀ p, q (pc p) ↔ lock = some (.proc p)

section

variable {m : MonPc → Prop} {q : ProcPc → Prop} {lock l : Option Party} {pc : ℕ → ProcPc}
  {mon n : MonPc} {p : ℕ} {b : ProcPc}

theorem tupFlock_eq_some {a : Party} : tupFlock lock a = some l ↔
    (lock = none ∨ lock = some a) ∧ l = some a := by
  unfold tupFlock
  split_ifs with h
  · simp [h, eq_comm]
  · simp [h]

namespace Owned

/-- A process that gets the lock. -/
theorem take_proc (h : Owned m q lock pc mon) (hl : tupFlock lock (.proc p) = some l) (hb : q b) :
    Owned m q l (Function.update pc p b) mon := by
  obtain ⟨hfree, rfl⟩ := tupFlock_eq_some.1 hl
  refine ⟨⟨fun hm => ?_, fun h => by cases h⟩, fun r => ?_⟩
  · rcases hfree with hfree | hfree <;> rw [h.1.1 hm] at hfree <;> cases hfree
  · by_cases hr : r = p
    · simp [hr, hb]
    · rw [Function.update_of_ne hr, h.2 r]
      rcases hfree with hfree | hfree <;> simp [hfree, Ne.symm hr]

/-- A process that lets go of it. -/
theorem drop_proc (h : Owned m q lock pc mon) (hb : ¬ q b) :
    Owned m q (tupUnflock lock (.proc p)) (Function.update pc p b) mon := by
  unfold tupUnflock
  refine ⟨?_, fun r => ?_⟩
  · rw [h.1]
    split_ifs with hp <;> simp [hp]
  · by_cases hr : r = p
    · subst hr
      rw [Function.update_self]
      split_ifs with hp <;> simp [hp, hb]
    · rw [Function.update_of_ne hr, h.2 r]
      split_ifs with hp
      · simp [hp, Ne.symm hr]
      · rfl

/-- A process that keeps what it has. -/
theorem keep_proc (h : Owned m q lock pc mon) (hb : q b ↔ q (pc p)) :
    Owned m q lock (Function.update pc p b) mon := by
  refine ⟨h.1, fun r => ?_⟩
  by_cases hr : r = p
  · rw [hr, Function.update_self, hb, h.2]
  · rw [Function.update_of_ne hr, h.2]

theorem take_mon (h : Owned m q lock pc mon) (hl : tupFlock lock .monitor = some l) (hm : m n) :
    Owned m q l pc n := by
  obtain ⟨hfree, rfl⟩ := tupFlock_eq_some.1 hl
  refine ⟨by simp [hm], fun r => ?_⟩
  rw [h.2 r]
  rcases hfree with hfree | hfree <;> simp [hfree]

theorem drop_mon (h : Owned m q lock pc mon) (hm : ¬ m n) :
    Owned m q (tupUnflock lock .monitor) pc n := by
  unfold tupUnflock
  refine ⟨?_, fun r => ?_⟩
  · split_ifs with hp <;> simp [hp, hm]
  · rw [h.2 r]
    split_ifs with hp <;> simp [hp]

theorem keep_mon (h : Owned m q lock pc mon) (hm : m n ↔ m mon) : Owned m q lock pc n :=
  ⟨hm.trans h.1, h.2⟩

/-- The process that has the lock is the monitor from now on. -/
theorem become (h : Owned m q lock pc mon) (hp : q (pc p)) (hb : ¬ q b) (hm : m n) :
    Owned m q (some .monitor) (Function.update pc p b) n := by
  refine ⟨by simp [hm], fun r => ?_⟩
  by_cases hr : r = p
  · simp [hr, hb]
  · rw [Function.update_of_ne hr, h.2 r, (h.2 p).1 hp]
    simp [Ne.symm hr]

end Owned

end

/-- Where the monitor and the process that has the shared lock can be at the same time, and the events
that are left. Nothing is known of the events when no monitor reads them, or when it is about to throw
them away. -/
def Fits (mon : MonPc) (pc : ProcPc) (events : List FileEvent) : Prop :=
  match mon with
  | .gone | .retry | .retryShared | .retryOpen | .retryObj | .retryDrain | .quitObj | .quitOff
  | .quitTri | .quitRelease => True
  | .reacquire => (pc = .handover ∨ pc = .handoverWait) ∧ events = []
  | .unshare => events = []
  | .scan | .on | .flush | .reload =>
    match pc with
    | .waiting => events = [.opened]
    | .inside | .leaving | .handover => False
    | _ => events = []
  | .opened | .triWait | .release => pc = .waiting ∧ events = []
  | .off =>
    match pc with
    | .waiting | .inside | .leaving => events = []
    | .closed => events = [.closed]
    | _ => False
  | .objWait | .triRelease => pc = .closed ∧ events = []

/-- Where the process is that has the shared lock. -/
def State.holder (s : State) : ProcPc :=
  match s.shLock with
  | some (.proc p) => s.pc p
  | _ => .out

/-- What holds in every state. -/
structure Inv (s : State) : Prop where
  shared : Owned MonPc.HasShared ProcPc.HasShared s.shLock s.pc s.mon
  obj : Owned MonPc.HasObj ProcPc.HasObj s.objLock s.pc s.mon
  tri : Owned MonPc.HasTri ProcPc.HasTri s.triLock s.pc s.mon
  fits : Fits s.mon s.holder s.events

theorem Inv.init : Inv {} where
  shared := by simp [Owned, MonPc.HasShared, ProcPc.HasShared]
  obj := by simp [Owned, MonPc.HasObj, ProcPc.HasObj]
  tri := by simp [Owned, MonPc.HasTri, ProcPc.HasTri]
  fits := trivial

section

variable {s s' : State} {p : ℕ} {a b : ProcPc} {e : Event}

theorem Inv.shLock_of_ne (h : Inv s) (hp : s.pc p ≠ .out) : s.shLock = some (.proc p) := by
  refine (h.shared.2 p).1 ?_
  cases hpc : s.pc p <;> simp_all [ProcPc.HasShared]

theorem Inv.holder_of_ne (h : Inv s) (hp : s.pc p ≠ .out) : s.holder = s.pc p := by
  rw [State.holder, h.shLock_of_ne hp]

/-- There is only one process in the lock. -/
theorem Inv.eq_of_ne {r : ℕ} (h : Inv s) (hp : s.pc p ≠ .out) (hr : s.pc r ≠ .out) : p = r := by
  have := (h.shLock_of_ne hp).symm.trans (h.shLock_of_ne hr)
  simpa using this

theorem holder_of_free (h : s.shLock = none ∨ s.shLock = some .monitor) : s.holder = .out := by
  rcases h with h | h <;> rw [State.holder, h]

@[simp] theorem holder_goto (h : s.shLock = some (.proc p)) : (s.goto p b).holder = b := by
  simp [State.holder, State.goto, h]

/-- A lock that a process can get is not the monitor's. -/
theorem Owned.not_mon {m : MonPc → Prop} {q : ProcPc → Prop} {lock l : Option Party}
    (h : Owned m q lock s.pc s.mon) (hl : tupFlock lock (.proc p) = some l) : ¬ m s.mon := by
  intro hm
  rcases (tupFlock_eq_some.1 hl).1 with hfree | hfree <;> rw [h.1.1 hm] at hfree <;> cases hfree

/-- Only the monitor can have a lock besides the process that is in the lock. -/
theorem Inv.mon_of_held {m : MonPc → Prop} {q : ProcPc → Prop} {lock : Option Party} (h : Inv s)
    (hl : Owned m q lock s.pc s.mon) (hq : ¬ q .out) (hpc : s.pc p ≠ .out)
    (hheld : ¬ (lock = none ∨ lock = some (.proc p))) : m s.mon := by
  rw [not_or] at hheld
  obtain ⟨c, hc⟩ := Option.ne_none_iff_exists'.1 hheld.1
  cases c with
  | monitor => exact hl.1.2 hc
  | proc r =>
    have hr := h.eq_of_ne hpc fun hout => hq (hout ▸ (hl.2 r).2 hc)
    exact absurd (hr ▸ hc) hheld.2

/-- A process that comes takes the shared lock from nobody. -/
theorem Inv.shLock_of_arrive {l : Option Party} (h : Inv s) (hpc : s.pc p = .out)
    (hl : tupFlock s.shLock (.proc p) = some l) : s.shLock = none := by
  refine (tupFlock_eq_some.1 hl).1.resolve_right fun hp => ?_
  have := (h.shared.2 p).2 hp
  rw [hpc] at this
  exact this

theorem Inv.arrive (h : Inv s) (hpc : s.pc p = .out) (hs : procStep s p = some (e, s')) : Inv s' := by
  simp only [procStep, hpc, Option.map_eq_some_iff, Prod.mk.injEq] at hs
  obtain ⟨l, hl, -, rfl⟩ := hs
  have hfree := h.shLock_of_arrive hpc hl
  obtain ⟨-, rfl⟩ := tupFlock_eq_some.1 hl
  have hf := h.fits
  rw [holder_of_free (.inl hfree)] at hf
  refine ⟨h.shared.take_proc hl trivial, h.obj.keep_proc (by rw [hpc]; rfl),
    h.tri.keep_proc (by rw [hpc]; rfl), ?_⟩
  rw [holder_goto rfl]
  cases hm : s.mon <;> simp_all [Fits, State.goto]

/-- What a process does that has the shared lock. -/
theorem Inv.of_procStep_inside (h : Inv s) (hpc : s.pc p ≠ .out) (hs : procStep s p = some (e, s')) :
    Inv s' := by
  have hsh := h.shLock_of_ne hpc
  have hf := h.fits
  rw [h.holder_of_ne hpc] at hf
  have hmon : ¬ s.mon.HasShared := fun hm => by
    have := h.shared.1.1 hm
    rw [hsh] at this
    cases this
  cases hpc' : s.pc p with
  | out => exact absurd hpc' hpc
  | shared | leaving =>
    simp only [procStep, hpc', Option.some.injEq, Prod.mk.injEq] at hs
    obtain ⟨-, rfl⟩ := hs
    refine ⟨h.shared.keep_proc (by rw [hpc']; rfl), h.obj.keep_proc (by rw [hpc']; rfl),
      h.tri.keep_proc (by rw [hpc']; rfl), ?_⟩
    rw [holder_goto (by exact hsh)]
    cases hm : s.mon <;> simp_all [Fits, State.goto, post, MonPc.HasShared]
  | waiting =>
    simp only [procStep, hpc', Option.map_eq_some_iff, Prod.mk.injEq] at hs
    obtain ⟨l, hl, -, rfl⟩ := hs
    have hobj := h.obj.not_mon hl
    refine ⟨h.shared.keep_proc (by rw [hpc']; rfl), h.obj.take_proc hl trivial,
      h.tri.keep_proc (by rw [hpc']; rfl), ?_⟩
    rw [holder_goto (by exact hsh)]
    cases hm : s.mon <;> simp_all [Fits, State.goto, MonPc.HasObj]
  | inside | handover =>
    simp only [procStep, hpc', Option.some.injEq, Prod.mk.injEq] at hs
    obtain ⟨-, rfl⟩ := hs
    refine ⟨h.shared.keep_proc (by rw [hpc']; rfl), h.obj.drop_proc id,
      h.tri.keep_proc (by rw [hpc']; rfl), ?_⟩
    rw [holder_goto (by exact hsh)]
    cases hm : s.mon <;> simp_all [Fits, State.goto]
  | closed =>
    simp only [procStep, hpc', Option.map_eq_some_iff, Prod.mk.injEq] at hs
    obtain ⟨l, hl, -, rfl⟩ := hs
    have htri := h.tri.not_mon hl
    refine ⟨h.shared.keep_proc (by rw [hpc']; rfl), h.obj.keep_proc (by rw [hpc']; rfl),
      h.tri.take_proc hl trivial, ?_⟩
    rw [holder_goto (by exact hsh)]
    cases hm : s.mon <;> simp_all [Fits, State.goto, MonPc.HasTri]
  | tri =>
    simp only [procStep, hpc', Option.some.injEq, Prod.mk.injEq] at hs
    obtain ⟨-, rfl⟩ := hs
    refine ⟨h.shared.keep_proc (by rw [hpc']; rfl), h.obj.keep_proc (by rw [hpc']; rfl),
      h.tri.drop_proc id, ?_⟩
    rw [holder_goto (by exact hsh)]
    cases hm : s.mon <;> simp_all [Fits, State.goto]
  | last =>
    simp only [procStep, hpc', Option.some.injEq, Prod.mk.injEq] at hs
    obtain ⟨-, rfl⟩ := hs
    refine ⟨h.shared.drop_proc id, h.obj.keep_proc (by rw [hpc']; rfl),
      h.tri.keep_proc (by rw [hpc']; rfl), ?_⟩
    rw [holder_of_free (.inl (by simp [State.goto, tupUnflock, hsh]))]
    cases hm : s.mon <;> simp_all [Fits, State.goto]
  | handoverWait =>
    simp only [procStep, hpc', Option.ite_none_left_eq_some, Option.some.injEq, Prod.mk.injEq] at hs
    obtain ⟨hheld, -, rfl⟩ := hs
    refine ⟨h.shared.keep_proc (by rw [hpc']; rfl), h.obj.keep_proc (by rw [hpc']; rfl),
      h.tri.keep_proc (by rw [hpc']; rfl), ?_⟩
    rw [holder_goto (by exact hsh)]
    have hobj : s.mon.HasObj := h.mon_of_held h.obj id hpc hheld
    cases hm : s.mon <;> simp_all [Fits, State.goto, MonPc.HasObj]

theorem Inv.of_procStep (h : Inv s) (hs : procStep s p = some (e, s')) : Inv s' := by
  by_cases hpc : s.pc p = .out
  · exact h.arrive hpc hs
  · exact h.of_procStep_inside hpc hs

/-- A process that keeps the object lock from the monitor. -/
theorem Inv.holder_not_hasObj (h : Inv s) {l : Option Party}
    (hl : tupFlock s.objLock .monitor = some l) : ¬ s.holder.HasObj := by
  intro hobj
  unfold State.holder at hobj
  split at hobj
  · rename_i r hr
    have := (h.obj.2 r).1 hobj
    rcases (tupFlock_eq_some.1 hl).1 with hfree | hfree <;> rw [this] at hfree <;> cases hfree
  · exact hobj

/-- The monitor moves on, and the locks are as before. -/
theorem Inv.moveMon {mon : MonPc} {events : List FileEvent} (h : Inv s)
    (hsh : mon.HasShared ↔ s.mon.HasShared) (hobj : mon.HasObj ↔ s.mon.HasObj)
    (htri : mon.HasTri ↔ s.mon.HasTri) (hf : Fits s.mon s.holder s.events → Fits mon s.holder events) :
    Inv { s with mon := mon, events := events } :=
  ⟨h.shared.keep_mon hsh, h.obj.keep_mon hobj, h.tri.keep_mon htri, hf h.fits⟩

theorem Inv.of_monitorStep (h : Inv s) (hs : monitorStep s = some (e, s')) : Inv s' := by
  have hf := h.fits
  cases hm : s.mon with
  | gone => simp [monitorStep, hm] at hs
  | reacquire =>
    simp only [monitorStep, hm, Option.map_eq_some_iff, Prod.mk.injEq] at hs
    obtain ⟨l, hl, -, rfl⟩ := hs
    refine ⟨h.shared.keep_mon (by rw [hm]; rfl), h.obj.take_mon hl trivial,
      h.tri.keep_mon (by rw [hm]; rfl), ?_⟩
    have hno := h.holder_not_hasObj hl
    rw [hm] at hf
    rcases hf with ⟨hh | hh, he⟩
    · rw [hh] at hno
      exact absurd trivial hno
    · show Fits .scan s.holder s.events
      rw [hh]
      exact he
  | unshare =>
    simp only [monitorStep, hm, Option.some.injEq, Prod.mk.injEq] at hs
    obtain ⟨-, rfl⟩ := hs
    have hsh : s.shLock = some .monitor := h.shared.1.1 (by rw [hm]; trivial)
    refine ⟨h.shared.drop_mon id, h.obj.keep_mon (by rw [hm]; rfl), h.tri.keep_mon (by rw [hm]; rfl), ?_⟩
    rw [holder_of_free (.inl (by simp [tupUnflock, hsh]))]
    rw [hm] at hf
    exact hf
  | on =>
    rw [hm] at hf
    cases he : s.events with
    | nil => simp [monitorStep, hm, he] at hs
    | cons x events =>
      cases x <;> simp only [monitorStep, hm, he, Option.some.injEq, Prod.mk.injEq] at hs
      · obtain ⟨-, rfl⟩ := hs
        refine h.moveMon (by rw [hm]; rfl) (by rw [hm]; rfl) (by rw [hm]; rfl) fun _ => ?_
        cases hh : s.holder <;> simp_all [Fits]
      · cases hh : s.holder <;> simp_all [Fits]
  | off =>
    rw [hm] at hf
    cases he : s.events with
    | nil => simp [monitorStep, hm, he] at hs
    | cons x events =>
      cases x <;> simp only [monitorStep, hm, he, Option.some.injEq, Prod.mk.injEq] at hs
      · cases hh : s.holder <;> simp_all [Fits]
      · obtain ⟨-, rfl⟩ := hs
        refine h.moveMon (by rw [hm]; rfl) (by rw [hm]; rfl) (by rw [hm]; rfl) fun _ => ?_
        cases hh : s.holder <;> simp_all [Fits]
  | scan | flush | reload | opened =>
    simp only [monitorStep, hm, Option.some.injEq, Prod.mk.injEq] at hs
    obtain ⟨-, rfl⟩ := hs
    exact h.moveMon (by rw [hm]; rfl) (by rw [hm]; rfl) (by rw [hm]; rfl) (by rw [hm]; exact id)
  | triWait =>
    simp only [monitorStep, hm, Option.map_eq_some_iff, Prod.mk.injEq] at hs
    obtain ⟨l, hl, -, rfl⟩ := hs
    refine ⟨h.shared.keep_mon (by rw [hm]; rfl), h.obj.keep_mon (by rw [hm]; rfl),
      h.tri.take_mon hl trivial, ?_⟩
    rw [hm] at hf
    exact hf
  | release =>
    simp only [monitorStep, hm, Option.some.injEq, Prod.mk.injEq] at hs
    obtain ⟨-, rfl⟩ := hs
    refine ⟨h.shared.keep_mon (by rw [hm]; rfl), h.obj.drop_mon id, h.tri.keep_mon (by rw [hm]; rfl), ?_⟩
    rw [hm] at hf
    show Fits .off s.holder s.events
    rw [hf.1]
    exact hf.2
  | objWait =>
    simp only [monitorStep, hm, Option.map_eq_some_iff, Prod.mk.injEq] at hs
    obtain ⟨l, hl, -, rfl⟩ := hs
    refine ⟨h.shared.keep_mon (by rw [hm]; rfl), h.obj.take_mon hl trivial,
      h.tri.keep_mon (by rw [hm]; rfl), ?_⟩
    rw [hm] at hf
    exact hf
  | triRelease =>
    simp only [monitorStep, hm, Option.some.injEq, Prod.mk.injEq] at hs
    obtain ⟨-, rfl⟩ := hs
    refine ⟨h.shared.keep_mon (by rw [hm]; rfl), h.obj.keep_mon (by rw [hm]; rfl), h.tri.drop_mon id, ?_⟩
    rw [hm] at hf
    show Fits .reload s.holder s.events
    rw [hf.1]
    exact hf.2
  | retry =>
    simp only [monitorStep, hm, Option.some.injEq, Prod.mk.injEq] at hs
    obtain ⟨-, rfl⟩ := hs
    exact ⟨h.shared.drop_mon id, h.obj.drop_mon id, h.tri.drop_mon id, trivial⟩
  | retryShared =>
    simp only [monitorStep, hm, Option.map_eq_some_iff, Prod.mk.injEq] at hs
    obtain ⟨l, hl, -, rfl⟩ := hs
    exact ⟨h.shared.take_mon hl trivial, h.obj.keep_mon (by rw [hm]; rfl),
      h.tri.keep_mon (by rw [hm]; rfl), trivial⟩
  | retryOpen =>
    simp only [monitorStep, hm, Option.some.injEq, Prod.mk.injEq] at hs
    obtain ⟨-, rfl⟩ := hs
    exact h.moveMon (by rw [hm]; rfl) (by rw [hm]; rfl) (by rw [hm]; rfl) fun _ => trivial
  | retryObj =>
    simp only [monitorStep, hm, Option.map_eq_some_iff, Prod.mk.injEq] at hs
    obtain ⟨l, hl, -, rfl⟩ := hs
    exact ⟨h.shared.keep_mon (by rw [hm]; rfl), h.obj.take_mon hl trivial,
      h.tri.keep_mon (by rw [hm]; rfl), trivial⟩
  | retryDrain =>
    simp only [monitorStep, hm, Option.some.injEq, Prod.mk.injEq] at hs
    obtain ⟨-, rfl⟩ := hs
    exact h.moveMon (by rw [hm]; rfl) (by rw [hm]; rfl) (by rw [hm]; rfl) fun _ => rfl
  | quitObj =>
    simp only [monitorStep, hm, Option.some.injEq, Prod.mk.injEq] at hs
    obtain ⟨-, rfl⟩ := hs
    exact ⟨h.shared.keep_mon (by rw [hm]; rfl), h.obj.drop_mon id, h.tri.keep_mon (by rw [hm]; rfl),
      trivial⟩
  | quitOff =>
    simp only [monitorStep, hm, Option.map_eq_some_iff, Prod.mk.injEq] at hs
    obtain ⟨l, hl, -, rfl⟩ := hs
    exact ⟨h.shared.keep_mon (by rw [hm]; rfl), h.obj.drop_mon id, h.tri.take_mon hl trivial, trivial⟩
  | quitTri =>
    simp only [monitorStep, hm, Option.map_eq_some_iff, Prod.mk.injEq] at hs
    obtain ⟨l, hl, -, rfl⟩ := hs
    exact ⟨h.shared.keep_mon (by rw [hm]; rfl), h.obj.keep_mon (by rw [hm]; rfl),
      h.tri.take_mon hl trivial, trivial⟩
  | quitRelease =>
    simp only [monitorStep, hm, Option.some.injEq, Prod.mk.injEq] at hs
    obtain ⟨-, rfl⟩ := hs
    exact ⟨h.shared.drop_mon id, h.obj.keep_mon (by rw [hm]; rfl), h.tri.drop_mon id, trivial⟩

/-- Every step keeps the invariant. -/
theorem Inv.step (h : Inv s) (hs : Step s e s') : Inv s' := by
  have hf := h.fits
  cases hs with
  | proc hp => exact h.of_procStep hp
  | monitor hm => exact h.of_monitorStep hm
  | foreground hp hm =>
    refine ⟨h.shared.become (by rw [hp]; trivial) id trivial,
      h.obj.become (by rw [hp]; trivial) id trivial, ?_, rfl⟩
    exact (h.tri.keep_mon (n := .unshare) (by rw [hm]; rfl)).keep_proc (by rw [hp]; rfl)
  | @background p hp hm =>
    have hsh := h.shLock_of_ne (p := p) (by rw [hp]; exact ProcPc.noConfusion)
    refine ⟨(h.shared.keep_mon (n := .reacquire) (by rw [hm]; rfl)).keep_proc (by rw [hp]; rfl),
      (h.obj.keep_mon (n := .reacquire) (by rw [hm]; rfl)).keep_proc (by rw [hp]; rfl),
      (h.tri.keep_mon (n := .reacquire) (by rw [hm]; rfl)).keep_proc (by rw [hp]; rfl), ?_⟩
    rw [holder_goto (by exact hsh)]
    exact ⟨.inl rfl, rfl⟩
  | timeout hm he => exact h.moveMon (by rw [hm]; rfl) (by rw [hm]; rfl) (by rw [hm]; rfl) (by rw [hm]; exact id)
  | overflow hm =>
    rcases hm with hm | hm <;>
      exact h.moveMon (by rw [hm]; rfl) (by rw [hm]; rfl) (by rw [hm]; rfl) fun _ => trivial
  | quitOn hm | quitOff hm =>
    exact h.moveMon (by rw [hm]; rfl) (by rw [hm]; rfl) (by rw [hm]; rfl) fun _ => trivial

end

variable {tr : List Event} {s : State}

theorem Inv.of_run (h : Run Step {} tr s) : Inv s :=
  h.invariant (I := fun _ s => Inv s) .init fun _ _ _ _ _ hi hs => hi.step hs

/-! ### The database -/

/-- A party uses the database: a process at work, and the monitor where it scans, flushes its queue or
loads the variants. -/
def State.InDb (s : State) : Party → Prop
  | .proc p => s.pc p = .inside
  | .monitor => s.mon = .scan ∨ s.mon = .flush ∨ s.mon = .opened ∨ s.mon = .reload

theorem Inv.objLock_of_inDb (h : Inv s) {a : Party} (ha : s.InDb a) : s.objLock = some a := by
  cases a with
  | proc p => exact (h.obj.2 p).1 (by rw [show s.pc p = .inside from ha]; trivial)
  | monitor =>
    refine h.obj.1.1 ?_
    rcases ha with ha | ha | ha | ha <;> rw [ha] <;> trivial

theorem Inv.holder_eq_iff (h : Inv s) {a : ProcPc} (ha : a ≠ .out) :
    s.holder = a ↔ ∃ p, s.pc p = a := by
  constructor
  · intro hh
    unfold State.holder at hh
    split at hh
    · exact ⟨_, hh⟩
    · exact absurd hh.symm ha
  · rintro ⟨p, rfl⟩
    exact h.holder_of_ne ha

/-- The monitor has let a process in and does not yet have the object lock back. -/
def State.Away (s : State) : Prop :=
  (s.mon = .off ∨ s.mon = .objWait) ∧ (s.holder = .inside ∨ s.holder = .leaving ∨ s.holder = .closed)

/-- Until the monitor has the object lock back or quits, it stays away, and nobody else is let in. -/
theorem Inv.away_step {s' : State} {e : Event} (h : Inv s) (ha : s.Away) (hs : Step s e s') :
    (e = .take ∨ e = .quit) ∨ ((∀ p, e ≠ .enter p) ∧ s'.Away) := by
  obtain ⟨hmon, hholder⟩ := ha
  have hf := h.fits
  cases hs with
  | @proc _ _ p hp =>
    refine .inr ?_
    by_cases hpc : s.pc p = .out
    · -- the shared lock is not free
      simp only [procStep, hpc, Option.map_eq_some_iff, Prod.mk.injEq] at hp
      obtain ⟨l, hl, -⟩ := hp
      rw [holder_of_free (.inl (h.shLock_of_arrive hpc hl))] at hholder
      simp at hholder
    · have hsh := h.shLock_of_ne hpc
      rw [h.holder_of_ne hpc] at hholder
      rcases hholder with hpc | hpc | hpc
      · simp only [procStep, hpc, Option.some.injEq, Prod.mk.injEq] at hp
        obtain ⟨rfl, rfl⟩ := hp
        exact ⟨fun q => Event.noConfusion, hmon, by rw [holder_goto (by exact hsh)]; simp⟩
      · simp only [procStep, hpc, Option.some.injEq, Prod.mk.injEq] at hp
        obtain ⟨rfl, rfl⟩ := hp
        exact ⟨fun q => Event.noConfusion, hmon, by rw [holder_goto (by exact hsh)]; simp⟩
      · -- the monitor has the tri lock
        simp only [procStep, hpc, Option.map_eq_some_iff, Prod.mk.injEq] at hp
        obtain ⟨l, hl, -⟩ := hp
        refine absurd ?_ (h.tri.not_mon hl)
        rcases hmon with hm | hm <;> rw [hm] <;> trivial
  | monitor hp =>
    rcases hmon with hm | hm
    · rw [hm] at hf
      cases he : s.events with
      | nil => simp [monitorStep, hm, he] at hp
      | cons x events =>
        cases x <;> simp only [monitorStep, hm, he, Option.some.injEq, Prod.mk.injEq] at hp
        · rcases hholder with hh | hh | hh <;> simp_all [Fits]
        · obtain ⟨rfl, rfl⟩ := hp
          exact .inr ⟨fun q => Event.noConfusion, .inr rfl, hholder⟩
    · simp only [monitorStep, hm, Option.map_eq_some_iff, Prod.mk.injEq] at hp
      obtain ⟨l, -, rfl, -⟩ := hp
      exact .inl (.inl rfl)
  | quitOff hm => exact .inl (.inr rfl)
  | foreground hp hm | background hp hm => rcases hmon with h | h <;> simp [h] at hm
  | timeout hm he | quitOn hm => rcases hmon with h | h <;> simp [h] at hm
  | overflow hm => rcases hmon with h | h <;> simp [h] at hm

theorem Inv.away_run {s' : State} (h : Inv s) (ha : s.Away) (hrun : Run Step s tr s')
    (htake : .take ∉ tr) (hquit : .quit ∉ tr) : Inv s' ∧ s'.Away := by
  have key : Inv s' ∧ (.take ∈ tr ∨ .quit ∈ tr ∨ s'.Away) := by
    refine hrun.invariant (I := fun tr s => Inv s ∧ (.take ∈ tr ∨ .quit ∈ tr ∨ s.Away))
      ⟨h, .inr (.inr ha)⟩ ?_
    rintro tr s e s' - ⟨hi, hor⟩ hs
    refine ⟨hi.step hs, ?_⟩
    rcases hor with ht | hq | ha
    · exact .inl (List.mem_append_left _ ht)
    · exact .inr (.inl (List.mem_append_left _ hq))
    · rcases hi.away_step ha hs with (rfl | rfl) | ⟨-, ha'⟩
      · exact .inl List.mem_concat_self
      · exact .inr (.inl List.mem_concat_self)
      · exact .inr (.inr ha')
  exact ⟨key.1, (key.2.resolve_left htake).resolve_left hquit⟩

/-- How a process is let in. -/
theorem enter_inv {s' : State} {p : ℕ} (hs : Step s (.enter p) s') :
    s.pc p = .waiting ∧ ∃ l, s' = { s with objLock := l }.goto p .inside := by
  cases hs with
  | @proc _ _ r hp =>
    cases hpc : s.pc r <;> simp only [procStep, hpc, Option.map_eq_some_iff, Option.some.injEq,
      Option.ite_none_left_eq_some, Prod.mk.injEq, reduceCtorEq, false_and, and_false, exists_false,
      Event.enter.injEq] at hp
    obtain ⟨l, -, rfl, rfl⟩ := hp
    exact ⟨hpc, l, rfl⟩
  | monitor hp =>
    cases hm : s.mon <;> simp only [monitorStep, hm, Option.map_eq_some_iff, Option.some.injEq,
      Prod.mk.injEq, reduceCtorEq, false_and, and_false, exists_false] at hp
    all_goals split at hp <;> simp at hp

end Metatup.TriLock
