import Metatup.Lib.Lts
import Metatup.Monitor.Account
import Metatup.Monitor.Flush

/-!
# No change is lost by the monitor

Files of watched directories are created, modified, deleted and renamed while the monitor queues the
events; then the queue is flushed.

* `FileOp`, `FileStep`: what happens to a file, with the events that the kernel sends for it.
* `MonitorInv.step`: one operation that undoes no move of a file.
* `monitor_loses_no_change`: after a run of such operations the flush brings the database up to date.
* `renamed_then_deleted_is_lost`: a file that is renamed, and then deleted under its new name, keeps
  its node.
-/

namespace Metatup

open Lib

/-! ### The events are on the files -/

/-- All queued events are on files of `files`. -/
structure QueueOn (files : Set (Int × Text)) (mon : Monitor) : Prop where
  events : ∀ m ∈ mon.eventList, EventOn files m
  froms : ∀ mfe ∈ mon.movedFromList, mfe.e.file ∈ files

section

variable {files : Set (Int × Text)} {mon : Monitor} {p : Int × Text} {mask : Mask} {cookie : ℕ}

theorem Struck.eventOn {queue queue' : List MonitorEvent} (h : Struck p queue queue')
    (hq : ∀ m ∈ queue, EventOn files m) : ∀ m ∈ queue', EventOn files m := by
  induction h with
  | nil => exact hq
  | @cons a b l l' hhead _ ih =>
    intro m hm
    rcases List.mem_cons.1 hm with rfl | hm
    · have ha := hq a List.mem_cons_self
      rcases hhead with rfl | ⟨-, rfl⟩
      · exact ha
      · exact ha
    · exact ih (fun x hx => hq x (List.mem_cons_of_mem _ hx)) m hm

theorem Undoes.eventOn {e : InotifyEvent} {queue : List MonitorEvent}
    {res : List MonitorEvent × InotifyEvent × Bool} (h : Undoes e queue res)
    (hq : ∀ m ∈ queue, EventOn files m) : (∀ m ∈ res.1, EventOn files m) ∧ res.2.1.file = e.file := by
  cases h with
  | nothing => exact ⟨hq, rfl⟩
  | ended _ _ hstruck => exact ⟨hstruck.eventOn hq, rfl⟩
  | renewed _ _ hstruck _ => exact ⟨hstruck.eventOn hq, rfl⟩

theorem QueueOn.insertEvent (h : QueueOn files mon) {e : InotifyEvent} (he : e.file ∈ files)
    {f : Option MovedFromEvent} (hf : ∀ mfe, f = some mfe → mfe.e.file ∈ files) :
    QueueOn files (insertEvent mon f e) := by
  unfold Metatup.insertEvent
  split
  · constructor
    · intro m hm
      rcases List.mem_append.1 hm with hm | hm
      · exact h.events m hm
      · rw [List.mem_singleton.1 hm]
        refine ⟨he, fun mfe hmfe => ?_⟩
        obtain rfl := Option.some.inj hmfe
        exact he
    · intro mfe hmfe
      rcases List.mem_cons.1 hmfe with rfl | hmfe
      · exact he
      · exact h.froms mfe hmfe
  · refine ⟨fun m hm => ?_, h.froms⟩
    rcases List.mem_append.1 hm with hm | hm
    · exact h.events m hm
    · rw [List.mem_singleton.1 hm]
      exact ⟨he, hf⟩

theorem QueueOn.checkFromEvents (h : QueueOn files mon) (e : InotifyEvent) :
    QueueOn files (checkFromEvents mon e).1 ∧
      ∀ mfe, (checkFromEvents mon e).2 = some mfe → mfe.e.file ∈ files := by
  unfold Metatup.checkFromEvents
  split
  · next mfe hfind =>
    refine ⟨⟨fun m hm => ?_, fun g hg => h.froms g (List.mem_of_mem_erase hg)⟩, fun g hg => ?_⟩
    · obtain ⟨n, hn, hget⟩ := List.mem_iff_getElem.1 hm
      rw [List.getElem_modify] at hget
      rw [List.length_modify] at hn
      have hold := h.events _ (List.getElem_mem hn)
      split at hget
      · rw [← hget]
        exact hold
      · rw [← hget]
        exact hold
    · obtain rfl := Option.some.inj hg
      exact h.froms mfe (List.mem_of_find?_eq_some hfind)
  · exact ⟨h, fun g hg => by cases hg⟩

theorem QueueOn.queueEvent (h : QueueOn files mon) (hpad : ∀ m ∈ mon.eventList, m.e.Padded)
    (hp : p ∈ files) (hshown : Shown p) : QueueOn files (queueEvent mon (fileEvent p mask cookie)) := by
  rcases @queueEvent_cases cookie mon p mask hpad hshown with ⟨-, hrun⟩ | ⟨res, hundo, hrun⟩
  · rw [hrun]
    exact h
  · rw [hrun]
    obtain ⟨hres, hfile⟩ := hundo.eventOn h.events
    have hon : QueueOn files { mon with eventList := res.1 } := ⟨hres, h.froms⟩
    have he : res.2.1.file ∈ files := by
      rw [hfile]
      exact hp
    unfold queueRest
    split
    · exact hon
    · split
      · obtain ⟨hcheck, hmfe⟩ := hon.checkFromEvents res.2.1
        exact hcheck.insertEvent he hmfe
      · exact hon.insertEvent he fun g hg => by cases hg

end

/-! ### What happens to the files -/

/-- What a user does with a file, at a time that the file then shows. -/
inductive FileOp
  | create (p : Int × Text) (mtime : Int × Int)
  | modify (p : Int × Text) (mtime : Int × Int) (attrib : Bool)
  | delete (p : Int × Text)
  | rename (x p : Int × Text)
  deriving DecidableEq, Repr

/-- The files on disk and the monitor, with what is noted of the past: the files that have been
written to since they last appeared, and those that have been gone at some time. -/
structure World where
  disk : Disk
  monitor : Monitor := {}
  cookie : ℕ := 1
  written : Set (Int × Text) := ∅
  gone : Set (Int × Text) := ∅

/-- An operation changes the files, and the kernel sends its events. -/
def World.after (w : World) : FileOp → World
  | .create p mtime =>
    { w with
      disk := Function.update w.disk p (some mtime)
      monitor := queueEvent w.monitor (fileEvent p .create 0)
      written := w.written \ {p} }
  | .modify p mtime attrib =>
    { w with
      disk := Function.update w.disk p (some mtime)
      monitor := queueEvent w.monitor (fileEvent p (if attrib then .attrib else .modify) 0)
      written := insert p w.written }
  | .delete p =>
    { w with
      disk := Function.update w.disk p none
      monitor := queueEvent w.monitor (fileEvent p .delete 0)
      gone := insert p w.gone }
  | .rename x p =>
    { disk := Function.update (Function.update w.disk x none) p (w.disk x)
      monitor := queueEvent (queueEvent w.monitor (fileEvent x .movedFrom w.cookie))
        (fileEvent p .movedTo w.cookie)
      cookie := w.cookie + 1
      written := writtenAt w.disk.here p w.written
      gone := insert x w.gone }

/-- The operation can be done to files of `files`. A rename to the same name is nothing. -/
def FileOp.Possible (files : Set (Int × Text)) (disk : Disk) : FileOp → Prop
  | .create p _ => p ∈ files ∧ disk.here p = false
  | .modify p _ _ => p ∈ files ∧ disk.here p = true
  | .delete p => p ∈ files ∧ disk.here p = true
  | .rename x p => x ∈ files ∧ p ∈ files ∧ x ≠ p ∧ disk.here x = true

/-- One operation. -/
def FileStep (files : Set (Int × Text)) (w : World) (op : FileOp) (w' : World) : Prop :=
  op.Possible files w.disk ∧ w' = w.after op

/-- The end of a file by the operation undoes no move of a file in the queue. -/
def FileOp.UndoesNoMove (disk₀ : Disk) (mon : Monitor) : FileOp → Prop
  | .delete p | .rename p _ => Undoable disk₀.here p mon.eventList
  | .create _ _ | .modify _ _ _ => True

/-- One operation that undoes no move. -/
def SafeFileStep (disk₀ : Disk) (files : Set (Int × Text)) (w : World) (op : FileOp) (w' : World) :
    Prop :=
  FileStep files w op w' ∧ op.UndoesNoMove disk₀ w.monitor

section

variable {files : Set (Int × Text)} {disk₀ : Disk} {w w' : World} {op : FileOp} {p : Int × Text}
  {o : Option (Int × Int)}

theorem here_update (disk : Disk) :
    Disk.here (Function.update disk p o) = Function.update disk.here p o.isSome := by
  funext q
  unfold Disk.here
  by_cases hq : q = p
  · rw [hq, Function.update_self, Function.update_self]
  · rw [Function.update_of_ne hq, Function.update_of_ne hq]

/-- The queue accounts for what has happened. -/
structure WorldInv (disk₀ : Disk) (files : Set (Int × Text)) (w : World) : Prop where
  inv : MonitorInv disk₀.here w.disk.here w.written w.gone w.cookie w.monitor
  on : QueueOn files w.monitor

/-- One operation that undoes no move. -/
theorem WorldInv.step (h : WorldInv disk₀ files w) (hshown : ∀ p ∈ files, Shown p)
    (hstep : SafeFileStep disk₀ files w op w') : WorldInv disk₀ files w' := by
  obtain ⟨⟨hposs, rfl⟩, hsafe⟩ := hstep
  have hpad := h.inv.queue.form.padded
  cases op with
  | create p mtime =>
    obtain ⟨hp, hfree⟩ := hposs
    refine ⟨?_, h.on.queueEvent hpad hp (hshown p hp)⟩
    unfold World.after
    rw [here_update]
    exact h.inv.created hfree (hshown p hp)
  | modify p mtime attrib =>
    obtain ⟨hp, hhere⟩ := hposs
    refine ⟨?_, h.on.queueEvent hpad hp (hshown p hp)⟩
    have hsame : Function.update w.disk.here p true = w.disk.here := by
      rw [← hhere]
      exact Function.update_eq_self p w.disk.here
    unfold World.after
    rw [here_update, Option.isSome_some, hsame]
    apply h.inv.modified hhere (hshown p hp)
    cases attrib
    · exact .inl rfl
    · exact .inr rfl
  | delete p =>
    obtain ⟨hp, hhere⟩ := hposs
    refine ⟨?_, h.on.queueEvent hpad hp (hshown p hp)⟩
    have hrem := h.inv.removed hhere (hshown p hp) (rfl : Mask.delete.isDel = true) hsafe 0
    unfold World.after
    rw [here_update]
    refine ⟨hrem.queue, hrem.moves, ?_⟩
    rcases hrem.froms with hsame | ⟨hmask, -⟩
    · rw [hsame]
      exact h.inv.froms
    · cases hmask
  | rename x p =>
    obtain ⟨hx, hp, hne, hhere⟩ := hposs
    have hrem := h.inv.removed hhere (hshown x hx) (rfl : Mask.movedFrom.isDel = true) hsafe w.cookie
    constructor
    · have hmoved := h.inv.moved hhere hne (hshown x hx) (hshown p hp) hsafe
      unfold World.after
      rw [here_update, here_update, show (w.disk x).isSome = true from hhere]
      exact hmoved
    · exact (h.on.queueEvent hpad hx (hshown x hx)).queueEvent hrem.queue.form.padded hp (hshown p hp)

/-- The start of a run. -/
theorem WorldInv.start (disk₀ : Disk) (files : Set (Int × Text)) :
    WorldInv disk₀ files { disk := disk₀ } where
  inv := ⟨.nil _, fun _ hm => absurd hm List.not_mem_nil, fun _ hm => absurd hm List.not_mem_nil⟩
  on := ⟨fun _ hm => absurd hm List.not_mem_nil, fun _ hm => absurd hm List.not_mem_nil⟩

/-- After every run of operations that undo no move the queue accounts for what has happened. -/
theorem WorldInv.run {ops : List FileOp} (hshown : ∀ p ∈ files, Shown p)
    (hrun : Run (SafeFileStep disk₀ files) { disk := disk₀ } ops w) : WorldInv disk₀ files w :=
  Run.invariant (I := fun _ w => WorldInv disk₀ files w) hrun (.start disk₀ files)
    fun _ _ _ _ _ hinv hstep => hinv.step hshown hstep

end

/-! ### The database -/

/-- The node of a file: a node at its place that is a file. -/
def FileNodeAt (droot : DirCache) (db : Db) (p : Int × Text) (t : TupEntry) : Prop :=
  t ∈ db.node ∧ t.type = .file ∧ droot.lookupWd p.1 = some t.dt ∧ t.name = p.2

/-- The database describes the files: they are shown files of watched directories, whose names belong
to no other kind of node, and those that are on disk have a node. -/
structure Described (droot : DirCache) (files : Set (Int × Text)) (disk : Disk) (db : Db) : Prop where
  sound : db.Sound
  shown : ∀ p ∈ files, Shown p
  watched : ∀ p ∈ files, ∃ dt, droot.lookupWd p.1 = some dt ∧ IsFolder db dt ∧
    ∀ t ∈ db.node, t.place = (dt, p.2) → t.Plain
  nodes : ∀ p ∈ files, disk.here p = true ↔ ∃ t, FileNodeAt droot db p t

/-- The node of a file is in the modify list. -/
def InModify (droot : DirCache) (db : Db) (p : Int × Text) : Prop :=
  ∃ t, FileNodeAt droot db p t ∧ t.tupid ∈ db.flags.modify

/-- The dependents of the node `t` of `db₀` have been flagged: those of a `tup.config` are its
variables, and it is in the config list itself. -/
def DependentsFlagged (db₀ : Db) (t : TupEntry) (db : Db) : Prop :=
  (t.name = tupConfig → t.tupid ∈ db.flags.config) ∧ (t.name ≠ tupConfig → Noted db₀ t.tupid db)

/-- The database is up to date with the world after having described the files as `db₀`: the names
that have file nodes are those on disk, the files that were written to are in the modify list, and the
dependents of a file that has been gone have been flagged, unless it is there again and in the modify
list itself. -/
structure UpToDate (droot : DirCache) (files : Set (Int × Text)) (db₀ : Db) (w : World) (db : Db) :
    Prop where
  names : ∀ p ∈ files, w.disk.here p = true ↔ ∃ t, FileNodeAt droot db p t
  written : ∀ p ∈ files, p ∈ w.written → w.disk.here p = true → InModify droot db p
  gone : ∀ p ∈ files, ∀ t, FileNodeAt droot db₀ p t → p ∈ w.gone ∨ w.disk.here p = false →
    DependentsFlagged db₀ t db ∨ (w.disk.here p = true ∧ InModify droot db p)

section

variable {droot : DirCache} {files : Set (Int × Text)} {disk₀ : Disk} {db₀ db : Db} {w : World}
  {p : Int × Text} {dt : TupId} {t : TupEntry} {fuel : ℕ} {s : PlaceState}

theorem fileNodeAt_iff (hdt : droot.lookupWd p.1 = some dt) :
    FileNodeAt droot db p t ↔ t ∈ db.node ∧ t.place = (dt, p.2) ∧ t.type = .file := by
  unfold FileNodeAt TupEntry.place
  rw [hdt, Option.some.injEq, Prod.mk.injEq]
  constructor
  · rintro ⟨ht, hfile, hd, hname⟩
    exact ⟨ht, ⟨hd.symm, hname⟩, hfile⟩
  · rintro ⟨ht, ⟨hd, hname⟩, hfile⟩
    exact ⟨ht, hfile, hd.symm, hname⟩

/-- At first every file shows that it is known or is not. -/
theorem Described.flushInv (h : Described droot files disk₀ db₀) (hfuel : generatedDirs db₀ < fuel) :
    FlushInv droot files db₀ fuel (fun p => .start (disk₀.here p)) db₀ where
  sound := h.sound
  kinds _ _ _ hc := hc
  watched p hp := by
    obtain ⟨dt, hdt, hfolder, -⟩ := h.watched p hp
    exact ⟨dt, hdt, hfolder⟩
  dirs := hfuel
  shows p hp dt hdt := by
    obtain ⟨dt', hdt', -, hplain⟩ := h.watched p hp
    rw [hdt] at hdt'
    obtain rfl := Option.some.inj hdt'
    have hnodes := h.nodes p hp
    simp only [fileNodeAt_iff hdt] at hnodes
    refine ⟨hplain, hnodes, fun _ hd => ?_, fun _ t₀ ht₀ hplace hfile => ?_, fun hl => ?_⟩
    · cases hd
    · exact ⟨⟨t₀, ht₀, hplace, hfile, rfl⟩, fun _ _ hl => hl⟩
    · cases hl

theorem Shows.inModify (h : Shows db₀ db (dt, p.2) s) (hdt : droot.lookupWd p.1 = some dt)
    (hthere : s.there = true) (hdirty : s.dirty = true) : InModify droot db p := by
  obtain ⟨t, ht, hplace, hfile, hmod⟩ := h.dirty hthere hdirty
  exact ⟨t, (fileNodeAt_iff hdt).2 ⟨ht, hplace, hfile⟩, hmod⟩

theorem Shows.dependentsFlagged (h : Shows db₀ db (dt, p.2) s) (hdt : droot.lookupWd p.1 = some dt)
    (hlost : s.lost = true) (ht : FileNodeAt droot db₀ p t) : DependentsFlagged db₀ t db := by
  obtain ⟨hmem, hplace, hfile⟩ := (fileNodeAt_iff hdt).1 ht
  obtain ⟨hconfig, hnoted⟩ := h.noted hlost t hmem hplace hfile
  have hname : t.name = p.2 := ht.2.2.2
  exact ⟨fun hn => (hconfig (hname.symm.trans hn)).2.2, fun hn => hnoted fun hc => hn (hname.trans hc)⟩

/-- After every run of operations on files that undo no move of a file in the queue, the flush
succeeds and brings the database up to date. -/
theorem monitor_loses_no_change {ops : List FileOp} (h : Described droot files disk₀ db₀)
    (hrun : Run (SafeFileStep disk₀ files) { disk := disk₀ } ops w)
    (hfuel : generatedDirs db₀ < fuel) :
    ∃ r, flushQueue (w.disk.lstat droot) droot fuel db₀ w.monitor = some r ∧ r.overflow = false ∧
      UpToDate droot files db₀ w r.db := by
  have hinv := WorldInv.run h.shown hrun
  obtain ⟨r, hflush, hover, hdb⟩ := flushQueue_total (h.flushInv hfuel) hinv.on.events w.disk
  refine ⟨r, hflush, hover, fun p hp => ?_, fun p hp hwritten hhere => ?_, fun p hp t ht hgone => ?_⟩
  all_goals
    obtain ⟨dt, hdt, -, -⟩ := h.watched p hp
    have hshows := hdb.shows p hp dt hdt
    have hacc := hinv.inv.queue.accounted p
  · simp only [fileNodeAt_iff hdt]
    rw [← hshows.there]
    rcases hhere : w.disk.here p with _ | _
    · rw [hhere] at hacc
      rw [settleAll_absent fun hknown => ⟨.drop, hacc.absent rfl hknown, by decide⟩]
    · rw [hhere] at hacc
      rw [hacc.present rfl]
  · rw [hhere] at hacc hshows
    exact hshows.inModify hdt (hacc.present rfl) (hacc.dirty rfl hwritten)
  · have hknown : disk₀.here p = true := (h.nodes p hp).2 ⟨t, ht⟩
    rcases hhere : w.disk.here p with _ | _
    · rw [hhere] at hacc hshows
      exact .inl (hshows.dependentsFlagged hdt (settleAll_drop hknown (hacc.absent rfl hknown)) ht)
    · rw [hhere] at hacc hshows hgone
      rcases hacc.lost rfl hknown (hgone.resolve_right (by decide)) with hlost | hdirty
      · exact .inl (hshows.dependentsFlagged hdt hlost ht)
      · exact .inr ⟨rfl, hshows.inModify hdt (hacc.present rfl) hdirty⟩

end

/-! ### A file that is renamed and deleted -/

/-- The top directory with its watch. -/
def topWatch : DirCache where
  entries := [(1, dotDt)]
  wd_nonneg := by decide
  wd_nodup := by decide
  dt_nodup := by decide

/-- The file `x` of the top directory. -/
def fileX : Int × Text := (1, ['x'])

/-- Another name in the top directory. -/
def fileY : Int × Text := (1, ['y'])

/-- The file `x` is there. -/
def diskX : Disk := fun p => if p = fileX then some (0, 0) else none

theorem readBy_file_sound : (readBy .file).Sound where
  referential :=
    { dir := by decide
      links := by
        intro style l hl
        cases style with
        | normal =>
          rw [List.mem_singleton.1 hl]
          decide
        | sticky => cases hl
      srcid := by decide }
  tree := readBy_tree .file
  pos := by decide

theorem fileNodeAt_readBy {p : Int × Text} (hp : p = fileX ∨ p = fileY) :
    (∃ t, FileNodeAt topWatch (readBy .file) p t) ↔ p = fileX := by
  have hdt : topWatch.lookupWd p.1 = some dotDt := by
    rcases hp with rfl | rfl
    · rfl
    · rfl
  simp only [fileNodeAt_iff hdt]
  rcases hp with rfl | rfl
  · decide
  · decide

/-- A command reads the file `x`. -/
theorem readBy_described : Described topWatch {fileX, fileY} diskX (readBy .file) where
  sound := readBy_file_sound
  shown p hp := by
    rcases hp with rfl | rfl
    · decide
    · decide
  watched p hp := by
    refine ⟨dotDt, ?_, by decide, ?_⟩
    · rcases hp with rfl | rfl
      · rfl
      · rfl
    · rcases hp with rfl | rfl
      · decide
      · decide
  nodes p hp := by
    rw [fileNodeAt_readBy hp]
    rcases hp with rfl | rfl
    · decide
    · decide

/-- The file is renamed and deleted under its new name: its node stays, so that the claim that no change
is lost fails. -/
theorem renamed_then_deleted_is_lost : ¬ ∀ (droot : DirCache) (files : Set (Int × Text)) (disk₀ : Disk)
    (db₀ : Db) (ops : List FileOp) (w : World) (fuel : ℕ), Described droot files disk₀ db₀ →
    Run (FileStep files) { disk := disk₀ } ops w → generatedDirs db₀ < fuel →
    ∃ r, flushQueue (w.disk.lstat droot) droot fuel db₀ w.monitor = some r ∧
      UpToDate droot files db₀ w r.db := by
  intro h
  let w₀ : World := { disk := diskX }
  let w₁ := w₀.after (.rename fileX fileY)
  let w₂ := w₁.after (.delete fileY)
  have hrun₁ : Run (FileStep {fileX, fileY}) w₀ [.rename fileX fileY] w₁ :=
    Run.snoc .nil ⟨⟨.inl rfl, .inr rfl, by decide, by decide⟩, rfl⟩
  have hrun₂ : Run (FileStep {fileX, fileY}) w₀ ([.rename fileX fileY] ++ [.delete fileY]) w₂ :=
    hrun₁.snoc ⟨⟨.inr rfl, by decide⟩, rfl⟩
  obtain ⟨r, hflush, hup⟩ := h topWatch {fileX, fileY} diskX (readBy .file) _ w₂ 1 readBy_described
    hrun₂ (by decide)
  have hnothing : flushQueue (w₂.disk.lstat topWatch) topWatch 1 (readBy .file) w₂.monitor =
      some { db := readBy .file } := rfl
  rw [hnothing] at hflush
  obtain rfl := Option.some.inj hflush
  have hnode := (hup.names fileX (.inl rfl)).2 ((fileNodeAt_readBy (.inl rfl)).2 rfl)
  have hgone : w₂.disk.here fileX = false := by decide
  rw [hgone] at hnode
  cases hnode

/-- Renamed only, it is accounted for. -/
theorem monitor_loses_no_change_rename : ∃ w r, Run (SafeFileStep diskX {fileX, fileY})
    { disk := diskX } [.rename fileX fileY] w ∧
    flushQueue (w.disk.lstat topWatch) topWatch 1 (readBy .file) w.monitor = some r ∧
      UpToDate topWatch {fileX, fileY} (readBy .file) w r.db := by
  have hrun : Run (SafeFileStep diskX {fileX, fileY}) { disk := diskX } [.rename fileX fileY]
      (World.after { disk := diskX } (.rename fileX fileY)) :=
    Run.snoc .nil ⟨⟨⟨.inl rfl, .inr rfl, by decide, by decide⟩, rfl⟩,
      fun m hm => absurd hm List.not_mem_nil⟩
  obtain ⟨r, hflush, -, hup⟩ := monitor_loses_no_change readBy_described hrun
    (by decide : generatedDirs (readBy .file) < 1)
  exact ⟨_, r, hrun, hflush, hup⟩

end Metatup
