import Mathlib.Data.List.Infix
import Mathlib.Logic.Function.Basic
import Metatup.Parser.Path

/-!
# Renames that wait for their other half

The queue of the monitor with the events on directories, and the list of moves that no event has
claimed yet. An entry of that list points to an event of the queue, which is freed when the queue is
flushed. Events have addresses, and what the rest of the monitor does is given.

* `queueEvent`: an event comes in.
* `flushQueue`: the events are handled and freed.
* `MonitorRun`: a run of the monitor.
-/

namespace Metatup.Inotify

/-! ### Events -/

/-- The bits that the kernel sets one of. -/
inductive Bit
  | attrib | modify | create | delete | movedFrom | movedTo | overflow | ignored
  deriving DecidableEq, Repr

/-- Source: the `mask` of an event. -/
structure EventMask where
  bit : Option Bit
  /-- `IN_ISDIR` -/
  isDir : Bool := false
  deriving DecidableEq, Repr

namespace EventMask

/-- An event that is struck out. -/
def zero : EventMask := { bit := none }

def has (m : EventMask) (b : Bit) : Bool := m.bit = some b

/-- The `newflags` of `ephemeral_event`. -/
def isNew (m : EventMask) : Bool := m.has .create || m.has .movedTo

/-- The `delflags` of `ephemeral_event`. -/
def isDel (m : EventMask) : Bool := m.has .delete || m.has .movedFrom

end EventMask

/-- Source: `struct inotify_event`. The name is padded to `len` bytes with zeros. -/
structure Event where
  wd : Int
  mask : EventMask
  /-- The two events of a rename have the same one. -/
  cookie : ℕ := 0
  len : ℕ
  name : Text
  deriving DecidableEq, Repr

/-- The kernel has a watch for every event but that the queue has overflowed. -/
def Event.WellFormed (e : Event) : Prop := e.wd = -1 → e.mask.bit = some .overflow

/-- Source: `inotify.c` `struct monitor_event`. A `struct moved_from_event` is known by the address
of the event it points to. -/
structure QueuedEvent where
  addr : ℕ
  fromEvent : Option ℕ
  e : Event
  deriving DecidableEq, Repr

/-- Strike an event out. -/
def QueuedEvent.strike (m : QueuedEvent) : QueuedEvent := { m with e := { m.e with mask := .zero } }

/-- Source: the globals of `inotify.c`. The event that `queue_last_e` points to is the last one of
the list. -/
structure MonitorState where
  eventList : List QueuedEvent := []
  movedFromList : List ℕ := []
  /-- Which watches there are, and whether they are disabled. -/
  droot : Int → Option Bool
  /-- The next address. -/
  next : ℕ := 0

/-! ### Queueing -/

/-- Source: `inotify.c` `skip_event`. `pel_ignored` is called with the length of the padded name. -/
def skipEvent (e : Event) : Bool :=
  (0 < e.len && e.name.head? = some '.' && decide (".swp".toList <:+: e.name)) ||
    pelIgnored (e.name ++ List.replicate (e.len - e.name.length) '\x00')

/-- Source: `inotify.c` `eventcmp`, which is 0 -/
def eventcmp (e₁ e₂ : Event) : Bool :=
  e₁.wd = e₂.wd && e₁.mask = e₂.mask && e₁.cookie = e₂.cookie && e₁.len = e₂.len &&
    (e₁.len = 0 || e₁.name = e₂.name)

/-- Source: `inotify.c` `same_event`, which is 0 -/
def sameEvent (e₁ e₂ : Event) : Bool :=
  e₁.wd = e₂.wd && e₁.len = e₂.len && (e₁.len = 0 || e₁.name = e₂.name)

/-- The loop of `ephemeral_event` with its `create_and_delete`. What comes out are the queue, the
event with its new mask, and whether the event is not to be queued. -/
def ephemeralLoop (e : Event) (createAndDelete : Bool) :
    List QueuedEvent → List QueuedEvent × Event × Bool
  | [] => ([], e, false)
  | m :: queue =>
    if sameEvent m.e e then
      if m.e.mask.isNew && e.mask.isDel then
        let (queue, e, _) := ephemeralLoop e true queue
        (m.strike :: queue, e, true)
      else if m.e.mask.isDel && e.mask.isNew then
        -- deleted and made again: the file is just updated
        let (queue, e, rc) := ephemeralLoop { e with mask := { bit := some .modify } } true queue
        (m.strike :: queue, e, rc)
      else
        let (queue, e, rc) := ephemeralLoop e createAndDelete queue
        ((if createAndDelete then m.strike else m) :: queue, e, rc)
    else
      let (queue, e, rc) := ephemeralLoop e createAndDelete queue
      (m :: queue, e, rc)

/-- Source: `inotify.c` `ephemeral_event` -/
def ephemeralEvent (queue : List QueuedEvent) (e : Event) : List QueuedEvent × Event × Bool :=
  if e.mask.isDir then (queue, e, false)
  else if !(e.mask.isNew || e.mask.isDel) then (queue, e, false)
  else ephemeralLoop e false queue

/-- The event at an address, if it has not been freed. -/
def MonitorState.event (s : MonitorState) (a : ℕ) : Option QueuedEvent :=
  s.eventList.find? (·.addr = a)

/-- Source: `inotify.c` `check_from_events` -/
def checkFromEvents (s : MonitorState) (e : Event) : MonitorState × Option ℕ :=
  match s.movedFromList.find? fun a => (s.event a).any (·.e.cookie = e.cookie) with
  | some a =>
    ({ s with
        eventList := s.eventList.map fun m => if m.addr = a then m.strike else m
        movedFromList := s.movedFromList.erase a }, some a)
  | none => (s, none)

/-- The end of `queue_event`: an event that has a new place in the queue. -/
def insertEvent (s : MonitorState) (mfe : Option ℕ) (e : Event) : MonitorState :=
  if e.mask.has .movedFrom then
    -- add_from_event
    { s with
      eventList := s.eventList ++ [⟨s.next, some s.next, e⟩]
      movedFromList := s.next :: s.movedFromList
      next := s.next + 1 }
  else { s with eventList := s.eventList ++ [⟨s.next, mfe, e⟩], next := s.next + 1 }

/-- The part of `queue_event` that disables the watch of a directory that is gone. -/
def disableWatch (s : MonitorState) (e : Event) : MonitorState :=
  if e.mask.has .ignored then
    { s with droot := Function.update s.droot e.wd ((s.droot e.wd).map fun _ => true) }
  else s

/-- Source: `inotify.c` `queue_event` -/
def queueEvent (s : MonitorState) (e : Event) : MonitorState :=
  if skipEvent e then s
  else if s.eventList.getLast?.any fun m => eventcmp m.e e then s
  else
    let (queue, e, ephemeral) := ephemeralEvent s.eventList e
    let s := { s with eventList := queue }
    if ephemeral then s
    else
      let s := disableWatch s e
      if e.mask.has .movedTo then
        let (s, mfe) := checkFromEvents s e
        insertEvent s mfe e
      else insertEvent s none e

/-! ### Flushing -/

/-- What the rest of the monitor is asked to do with an event. -/
inductive Work
  | rename (e fromE : Event)
  | create (e : Event)
  | modify (e : Event)
  | delete (e : Event)

/-- The rest of the monitor, with what it does to the watches; `none` is an error. It removes
watches and puts new ones on directories. -/
structure Calls where
  run : Work → (Int → Option Bool) → Option (Int → Option Bool)
  enabled : ∀ w d d', run w d = some d' → ∀ wd, d' wd = some true → d wd = some true

/-- A part of `handle_event` that is for some events only. -/
def Calls.runIf (calls : Calls) (b : Bool) (w : Work) (droot : Int → Option Bool) :
    Option (Int → Option Bool) :=
  if b then calls.run w droot else some droot

/-- The branch of `handle_event` for an event that has claimed a move. -/
def handleRename (calls : Calls) (s : MonitorState) (m : QueuedEvent) : Option MonitorState := do
  let a ← m.fromEvent
  let fromM ← s.event a
  let _ ← s.droot fromM.e.wd
  let droot ← calls.run (.rename m.e fromM.e) s.droot
  return { s with droot := droot }

/-- The end of `handle_event`, for a move that no event has claimed. -/
def handleMovedFrom (calls : Calls) (s : MonitorState) (m : QueuedEvent) : Option MonitorState :=
  if m.e.mask.has .movedFrom then do
    let droot ← calls.run (.delete m.e) s.droot
    let a ← m.fromEvent
    return { s with droot := droot, movedFromList := s.movedFromList.erase a }
  else return s

/-- Source: `inotify.c` `handle_event` -/
def handleEvent (calls : Calls) (s : MonitorState) (m : QueuedEvent) : Option MonitorState :=
  if m.e.mask.has .ignored then some { s with droot := Function.update s.droot m.e.wd none }
  else
    match s.droot m.e.wd with
    | none => none
    | some true => some s
    | some false =>
      if m.e.mask.has .movedTo && m.fromEvent.isSome then handleRename calls s m
      else if m.e.mask.has .create || m.e.mask.has .movedTo then
        (calls.run (.create m.e) s.droot).map fun droot => { s with droot := droot }
      else do
        let droot ← calls.runIf (!m.e.mask.isDir && (m.e.mask.has .modify || m.e.mask.has .attrib))
          (.modify m.e) s.droot
        let droot ← calls.runIf (m.e.mask.has .delete) (.delete m.e) droot
        handleMovedFrom calls { s with droot := droot } m

/-- The first loop of `flush_queue`; the `Bool` is that it has gone through. -/
def flushLoop (calls : Calls) : List QueuedEvent → MonitorState → MonitorState × Bool
  | [], s => (s, true)
  | m :: queue, s =>
    if m.e.wd = -1 || m.e.mask = .zero then flushLoop calls queue s
    else
      match handleEvent calls s m with
      | none => (s, false)
      | some s => flushLoop calls queue s

/-- What `flush_queue` returns: 0, `MONITOR_LOOP_RETRY` or -1. -/
inductive FlushResult
  | done | retry | error
  deriving DecidableEq, Repr

/-- Source: `inotify.c` `flush_queue`, up to the start of an update -/
def flushQueue (calls : Calls) (s : MonitorState) : MonitorState × FlushResult :=
  match flushLoop calls s.eventList s with
  | (s', false) => (s', .error)
  | (s', true) => ({ s' with eventList := [] },
      if s.eventList.any (·.e.wd = -1) then .retry else .done)

/-! ### Runs -/

/-- What happens to the monitor. -/
inductive MonitorInput
  | event (e : Event)
  | flush (calls : Calls)

/-- The states of a monitor, each with what the last flush has returned if it was the last thing to
happen. An error ends the monitor. `ok` says which inputs there may be. -/
inductive MonitorRun (ok : MonitorState → MonitorInput → Prop) :
    MonitorState → Option FlushResult → Prop
  | init (droot : Int → Option Bool) : MonitorRun ok { droot := droot } none
  | event {s : MonitorState} {last : Option FlushResult} {e : Event} (h : MonitorRun ok s last)
    (hlast : last ≠ some .error) (he : e.WellFormed) (hok : ok s (.event e)) :
    MonitorRun ok (queueEvent s e) none
  | flush {s : MonitorState} {last : Option FlushResult} {calls : Calls} (h : MonitorRun ok s last)
    (hlast : last ≠ some .error) (hok : ok s (.flush calls)) :
    MonitorRun ok (flushQueue calls s).1 (some (flushQueue calls s).2)

/-- The list of moves refers to events that are in the queue and that no event has claimed, and it
is empty when the queue has been flushed. -/
structure RenamesKept (s : MonitorState) (last : Option FlushResult) : Prop where
  pending : ∀ a ∈ s.movedFromList, ∃ m ∈ s.eventList, m.addr = a ∧ m.e.mask.has .movedFrom = true ∧
    ∀ m' ∈ s.eventList, m'.fromEvent = some a → m' = m
  nodup : s.movedFromList.Nodup
  flushed : last = some .done → s.movedFromList = []

end Metatup.Inotify
