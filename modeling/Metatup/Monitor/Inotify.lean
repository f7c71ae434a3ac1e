import Mathlib.Data.List.Infix
import Metatup.Db.CreateNode
import Metatup.Parser.Path

/-!
# The file monitor

The monitor keeps the kernel's events on the watched directories in a queue. An event that comes in
may undo events that are in the queue already; what is left is handled, in order, when the queue is
flushed. The events here are those on files; the ones on directories are not modelled.

* `queueEvent`: an event comes in.
* `handleEvent`: an event is handled.
* `flushQueue`: all of them are.
-/

namespace Metatup

/-! ### Events -/

/-- What an event is about. The kernel sets one of the bits; `none` is an event that the monitor has
struck out. -/
inductive Mask
  | none | attrib | modify | create | delete | movedFrom | movedTo | overflow
  deriving DecidableEq, Repr

/-- The `newflags` of `ephemeral_event`. -/
def Mask.isNew : Mask → Bool
  | .create | .movedTo => true
  | _ => false

/-- The `delflags` of `ephemeral_event`. -/
def Mask.isDel : Mask → Bool
  | .delete | .movedFrom => true
  | _ => false

/-- Source: `struct inotify_event`. The name is padded to `len` bytes with zeros. -/
structure InotifyEvent where
  wd : Int
  mask : Mask
  /-- The two events of a rename have the same one. -/
  cookie : ℕ := 0
  len : ℕ
  name : Text
  deriving DecidableEq, Repr

/-- Source: `inotify.c` `struct moved_from_event`: where the event it points to is in the queue, and
what it says there. -/
structure MovedFromEvent where
  m : ℕ
  e : InotifyEvent
  deriving DecidableEq, Repr

/-- Source: `inotify.c` `struct monitor_event` -/
structure MonitorEvent where
  /-- For a `movedFrom` event the event itself, for a `movedTo` event the one that it belongs to. -/
  fromEvent : Option MovedFromEvent
  e : InotifyEvent
  deriving DecidableEq, Repr

/-- Strike an event out. -/
def MonitorEvent.strike (m : MonitorEvent) : MonitorEvent := { m with e := { m.e with mask := .none } }

/-- Source: the globals `event_list` and `moved_from_list` of `inotify.c`. The event that
`queue_last_e` points to is the last one of the list. -/
structure Monitor where
  eventList : List MonitorEvent := []
  movedFromList : List MovedFromEvent := []
  deriving DecidableEq, Repr

/-! ### Queueing -/

/-- The name of an event with the zeros it is padded with. -/
def InotifyEvent.padded (e : InotifyEvent) : Text :=
  e.name ++ List.replicate (e.len - e.name.length) '\x00'

/-- Source: `inotify.c` `skip_event`. `pel_ignored` is called with the length of the padded name. -/
def skipEvent (e : InotifyEvent) : Bool :=
  (0 < e.len && e.name.head? = some '.' &&
    decide (".swp".toList <:+: e.name)) || pelIgnored e.padded

/-- Source: `inotify.c` `eventcmp`, which is 0 -/
def eventcmp (e₁ e₂ : InotifyEvent) : Bool :=
  e₁.wd = e₂.wd && e₁.mask = e₂.mask && e₁.cookie = e₂.cookie && e₁.len = e₂.len &&
    (e₁.len = 0 || e₁.name = e₂.name)

/-- Source: `inotify.c` `same_event`, which is 0 -/
def sameEvent (e₁ e₂ : InotifyEvent) : Bool :=
  e₁.wd = e₂.wd && e₁.len = e₂.len && (e₁.len = 0 || e₁.name = e₂.name)

/-- The loop of `ephemeral_event` with its `create_and_delete`. What comes out are the queue, the
event with its new mask, and whether the event is not to be queued. -/
def ephemeralLoop (e : InotifyEvent) (createAndDelete : Bool) :
    List MonitorEvent → List MonitorEvent × InotifyEvent × Bool
  | [] => ([], e, false)
  | m :: queue =>
    if sameEvent m.e e then
      if m.e.mask.isNew && e.mask.isDel then
        let (queue, e, _) := ephemeralLoop e true queue
        (m.strike :: queue, e, true)
      else if m.e.mask.isDel && e.mask.isNew then
        -- deleted and made again: the file is just updated
        let (queue, e, rc) := ephemeralLoop { e with mask := .modify } true queue
        (m.strike :: queue, e, rc)
      else
        let (queue, e, rc) := ephemeralLoop e createAndDelete queue
        ((if createAndDelete then m.strike else m) :: queue, e, rc)
    else
      let (queue, e, rc) := ephemeralLoop e createAndDelete queue
      (m :: queue, e, rc)

/-- Source: `inotify.c` `ephemeral_event` -/
def ephemeralEvent (queue : List MonitorEvent) (e : InotifyEvent) :
    List MonitorEvent × InotifyEvent × Bool :=
  if !(e.mask.isNew || e.mask.isDel) then (queue, e, false) else ephemeralLoop e false queue

/-- Source: `inotify.c` `check_from_events` -/
def checkFromEvents (mon : Monitor) (e : InotifyEvent) : Monitor × Option MovedFromEvent :=
  match mon.movedFromList.find? (·.e.cookie = e.cookie) with
  | some mfe =>
    ({ eventList := mon.eventList.modify mfe.m MonitorEvent.strike
       movedFromList := mon.movedFromList.erase mfe }, some mfe)
  | none => (mon, none)

/-- The end of `queue_event`: an event that has a new place in the queue. -/
def insertEvent (mon : Monitor) (fromEvent : Option MovedFromEvent) (e : InotifyEvent) : Monitor :=
  if e.mask = .movedFrom then
    -- add_from_event
    let self : MovedFromEvent := ⟨mon.eventList.length, e⟩
    { eventList := mon.eventList ++ [⟨some self, e⟩], movedFromList := self :: mon.movedFromList }
  else { mon with eventList := mon.eventList ++ [⟨fromEvent, e⟩] }

/-- Source: `inotify.c` `queue_event` -/
def queueEvent (mon : Monitor) (e : InotifyEvent) : Monitor :=
  if skipEvent e then mon
  else if mon.eventList.getLast?.any fun m => eventcmp m.e e then mon
  else
    let (queue, e, ephemeral) := ephemeralEvent mon.eventList e
    let mon := { mon with eventList := queue }
    if ephemeral then mon
    else if e.mask = .movedTo then
      let (mon, mfe) := checkFromEvents mon e
      insertEvent mon mfe e
    else insertEvent mon none e

/-! ### Handling -/

/-- A file as `lstat` shows it: its time. -/
abbrev Lstat := TupId → Text → Option (Int × Int)

/-- Source: `create_name_file.c` `tup_file_del`; the `Bool` is `*modified`. -/
def tupFileDel (fuel : ℕ) (db : Db) (dt : TupId) (file : Text) : Option (Db × Bool) := do
  let _ ← tupEntryAdd db dt
  match tupDbSelectTent db dt file with
  | none => return (db, false)
  | some tent =>
    let db := if file = gitignore then db.addCreate dt else db
    let db := if file = tupignore then db.addCreate dt else db
    tupDelIdType fuel db tent.tupid false

/-- Source: `create_name_file.c` `tup_file_mod` -/
def tupFileMod (lstat : Lstat) (fuel : ℕ) (db : Db) (dt : TupId) (file : Text) : Option (Db × Bool) :=
  match lstat dt file with
  | none => tupFileDel fuel db dt file
  | some mtime => (tupFileModMtime fuel db dt file mtime true true).map fun (db, _, b) => (db, b)

/-- Source: `path.c` `watch_path`, of a file -/
def watchFile (lstat : Lstat) (fuel : ℕ) (db : Db) (dt : TupId) (file : Text) : Option Db :=
  match lstat dt file with
  | none => some db
  | some mtime => (tupFileModMtime fuel db dt file mtime false false).map Prod.fst

/-- Source: `dircache.h` `struct dircache_root`: which watch is on which directory. Both trees have
one entry for a key, and a watch descriptor is never negative. -/
structure DirCache where
  entries : List (Int × TupId)
  wd_nonneg : ∀ x ∈ entries, 0 ≤ x.1
  wd_nodup : (entries.map Prod.fst).Nodup
  dt_nodup : (entries.map Prod.snd).Nodup

/-- Source: `dircache.c` `dircache_lookup_wd` -/
def DirCache.lookupWd (droot : DirCache) (wd : Int) : Option TupId :=
  (droot.entries.find? (·.1 = wd)).map Prod.snd

/-- Source: `dircache.c` `dircache_lookup_dt` -/
def DirCache.lookupDt (droot : DirCache) (dt : TupId) : Option Int :=
  (droot.entries.find? (·.2 = dt)).map Prod.fst

/-- The branch of `handle_event` for a file that has been moved from a watched directory. -/
def handleMove (lstat : Lstat) (droot : DirCache) (fuel : ℕ) (db : Db) (dt : TupId) (name : Text)
    (mfe : MovedFromEvent) : Option (Db × Bool) := do
  let fromDt ← droot.lookupWd mfe.e.wd
  let _ ← tupEntryAdd db fromDt
  let _ ← tupEntryAdd db dt
  let (db, _) ← tupFileMod lstat fuel db dt name
  let (db, _) ← tupFileDel fuel db fromDt mfe.e.name
  return (db, true)

/-- The branch of `handle_event` for a file that is new in a watched directory. -/
def handleCreate (lstat : Lstat) (fuel : ℕ) (db : Db) (dt : TupId) (name : Text) (moved : Bool) :
    Option (Db × Bool) := do
  let db ← watchFile lstat fuel db dt name
  let _ ← tupEntryAdd db dt
  -- only new files, not generated ones, set the modified flag
  if (tupDbSelectTent db dt name).any (·.type ≠ .generated) then
    if moved then
      let (db, _) ← tupFileMod lstat fuel db dt name
      return (db, true)
    else return (db, true)
  else return (db, false)

/-- The branch of `handle_event` for a file that has been modified. -/
def handleModify (lstat : Lstat) (fuel : ℕ) (db : Db) (dt : TupId) (name : Text) :
    Option (Db × Bool) := do
  let _ ← tupEntryAdd db dt
  let generated := (tupDbSelectTent db dt name).any (·.type = .generated)
  let (db, modified) ← tupFileMod lstat fuel db dt name
  return (db, modified && !generated)

/-- Source: `inotify.c` `handle_event`; the `Bool` is `*modified`. -/
def handleEvent (lstat : Lstat) (droot : DirCache) (fuel : ℕ) (db : Db) (m : MonitorEvent) :
    Option (Db × Bool) := do
  let dt ← droot.lookupWd m.e.wd
  match m.e.mask, m.fromEvent with
  | .movedTo, some mfe => handleMove lstat droot fuel db dt m.e.name mfe
  | .movedTo, none => handleCreate lstat fuel db dt m.e.name true
  | .create, _ => handleCreate lstat fuel db dt m.e.name false
  | .modify, _ | .attrib, _ => handleModify lstat fuel db dt m.e.name
  | .delete, _ | .movedFrom, _ => tupFileDel fuel db dt m.e.name
  | .none, _ | .overflow, _ => return (db, false)

/-- What `flush_queue` leaves behind. -/
structure Flushed where
  db : Db
  eventsHandled : Bool := false
  overflow : Bool := false
  deriving DecidableEq

/-- One event of the loop of `flush_queue`. -/
def flushEvent (lstat : Lstat) (droot : DirCache) (fuel : ℕ) (s : Flushed) (m : MonitorEvent) :
    Option Flushed :=
  if m.e.wd = -1 then some { s with overflow := true }
  else if m.e.mask = .none then some s
  else (handleEvent lstat droot fuel s.db m).map fun (db, modified) =>
    { s with db := db, eventsHandled := s.eventsHandled || modified }

/-- Source: `inotify.c` `flush_queue` -/
def flushQueue (lstat : Lstat) (droot : DirCache) (fuel : ℕ) (db : Db) (mon : Monitor) :
    Option Flushed :=
  mon.eventList.foldlM (flushEvent lstat droot fuel) { db := db }

end Metatup
