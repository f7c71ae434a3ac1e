import Mathlib.Data.List.AList
import Mathlib.Data.List.ReduceOption
import Metatup.Lib.Lts

/-!
# The process that forks

Commands are not forked by tup itself but by a process that it forks early, the master. A thread that
runs a command puts itself into a tree under the id of its server, writes a message to the master and
waits until its entry is set. The master forks, another thread of the master waits for the children and
writes their statuses back, and a thread of tup hands them out.

A message is written under a mutex and read by one thread, and the kernel keeps the order of what is
written, so that messages are taken as a whole. Errors of system calls are left out.

* `masterForkExec`, `masterForkLoop`, `childWaiter`, `childWaitNotifier`: the next line of each thread.
* `Step`: any of them, a child that exits, a new call, the end.
* `Registered`: the children and the tree of the master.
* `Routed`: a thread waits as long as its call is on its way, and its entry is the one in the tree.
* `Witnessed`: statuses are those of the children.
* `Ended`: where the message that ends it all is.
* `own_status`: a call returns the status of the child that was forked for it, and that is the only one.

Which call a message belongs to is not in the message. `Call.num` and `State.exits` say so for the
proofs; nothing that happens depends on them.
-/

set_option linter.unusedSectionVars false

namespace Metatup.MasterFork

open Lib

/-- A call of `master_fork_exec`. Source: `master_fork.h` `struct execmsg` -/
structure Call (α : Type*) where
  /-- How many were written before. -/
  num : ℕ
  sid : ℤ
  /-- The rest of the message, and the texts that follow it. -/
  rest : α
  deriving DecidableEq

/-- Where a thread is in `master_fork_exec`, with the `set` and `status` of its entry. -/
inductive CallerPc (α : Type*)
  | idle
  /-- At the first `write_all`. -/
  | inserted (sid : ℤ) (rest : α) (st : Option ℤ)
  /-- In `wait_for_my_sid`. -/
  | waiting (c : Call α) (st : Option ℤ)
  | returned (c : Call α) (st : ℤ)

/-- The entry of the thread is set. -/
def CallerPc.setStatus {α : Type*} (pc : CallerPc α) (status : ℤ) : CallerPc α :=
  match pc with
  | .inserted sid rest _ => .inserted sid rest (some status)
  | .waiting c _ => .waiting c (some status)
  | pc => pc

/-- Where the master is in `master_fork_loop`. -/
inductive MasterPc (α : Type*)
  /-- At `read_all`. -/
  | reading
  /-- Has forked, at `thread_tree_insert`. -/
  | forked (pid : ℕ) (c : Call α)
  /-- Behind the loop, at the `write`. -/
  | stopping
  /-- At `child_waiter_exiting = 1`. -/
  | signalling
  | done

/-- A child of the master, with its status when it has exited. -/
structure Child (α : Type*) where
  pid : ℕ
  call : Call α
  status : Option ℤ
  deriving DecidableEq

/-- Where `child_waiter` is. The call is not known to it. -/
inductive WaiterPc (α : Type*)
  /-- At `pthread_cond_wait`. -/
  | cond
  /-- At `wait`. -/
  | wait
  /-- At `thread_tree_search`. -/
  | reaped (pid : ℕ) (status : ℤ) (c : Call α)
  /-- At the `write`. -/
  | found (sid status : ℤ) (c : Call α)
  /-- Has returned: the pid was not in the tree. -/
  | lost (pid : ℕ) (c : Call α)
  /-- Has returned: there was nothing to wait for. -/
  | failed
  /-- Has returned because of `child_waiter_exiting`. -/
  | quit

/-- Source: `master_fork.c` `struct rcmsg`. The call is not in the message. -/
structure RcMsg (α : Type*) where
  sid : ℤ
  status : ℤ
  call : Call α

/-- Where `child_wait_notifier` is. -/
inductive NotifierPc
  | reading
  /-- Has returned: the id was not in the tree. -/
  | lost
  | quit
  deriving DecidableEq

/-- The state of all threads. In the two streams `none` is the message with the id -1. -/
structure State (T α : Type*) where
  caller : T → CallerPc α
  /-- Source: `master_fork.c` `status_root` -/
  statusRoot : AList fun _ : ℤ => T
  toMaster : List (Option (Call α))
  master : MasterPc α
  /-- Source: `master_fork.c` `child_waiter_root`, pids with the ids they have been forked for. -/
  childWaiterRoot : AList fun _ : ℕ => ℤ
  children : List (Child α)
  waiter : WaiterPc α
  /-- Source: `master_fork.c` `child_waiter_exiting` -/
  exiting : Bool
  toMain : List (Option (RcMsg α))
  notifier : NotifierPc
  /-- `server_post_exit` has been called. -/
  shut : Bool
  /-- How many messages were written. -/
  written : ℕ
  /-- The children that exited. -/
  exits : List (Call α × ℤ)

section

variable {T α : Type*} [DecidableEq T] [DecidableEq α]

/-- After `server_pre_init`. -/
def State.init : State T α where
  caller _ := .idle
  statusRoot := ∅
  toMaster := []
  master := .reading
  childWaiterRoot := ∅
  children := []
  waiter := .cond
  exiting := false
  toMain := []
  notifier := .reading
  shut := false
  written := 0
  exits := []

/-! ### The threads -/

/-- Source: `master_fork.c` `master_fork_exec`, up to the first `write_all`; `none` is a -1. -/
def masterForkInsert (s : State T α) (t : T) (sid : ℤ) (rest : α) : Option (State T α) :=
  if sid ∈ s.statusRoot then none
  else some { s with
    statusRoot := s.statusRoot.insert sid t
    caller := Function.update s.caller t (.inserted sid rest none) }

/-- Source: `master_fork.c` `master_fork_exec`, the rest of it -/
def masterForkExec (s : State T α) (t : T) : Option (State T α) :=
  match s.caller t with
  | .idle => none
  | .inserted sid rest st => some { s with
      toMaster := s.toMaster ++ [some ⟨s.written, sid, rest⟩]
      written := s.written + 1
      caller := Function.update s.caller t (.waiting ⟨s.written, sid, rest⟩ st) }
  | .waiting _ none => none
  | .waiting c (some st) =>
    some { s with caller := Function.update s.caller t (.returned c st) }
  | .returned _ _ => none

/-- Source: `master_fork.c` `master_fork_loop`; `pid` is what `fork` returns. -/
def masterForkLoop (s : State T α) (pid : ℕ) : Option (State T α) :=
  match s.master with
  | .reading =>
    match s.toMaster with
    | [] => none
    | none :: l => some { s with toMaster := l, master := .stopping }
    | some c :: l => some { s with
        toMaster := l, master := .forked pid c, children := s.children ++ [⟨pid, c, none⟩] }
  | .forked pid c => some { s with
      childWaiterRoot := s.childWaiterRoot.insert pid c.sid, master := .reading }
  | .stopping => some { s with toMain := s.toMain ++ [none], master := .signalling }
  | .signalling => some { s with exiting := true, master := .done }
  | .done => none

/-- Source: `master_fork.c` `child_waiter`; `pid` is what `wait` returns when there are children. -/
def childWaiter (s : State T α) (pid : ℕ) : Option (State T α) :=
  match s.waiter with
  | .cond =>
    if s.exiting then some { s with waiter := .quit }
    else if s.childWaiterRoot.entries.isEmpty then none
    else some { s with waiter := .wait }
  | .wait =>
    if s.children.isEmpty then some { s with waiter := .failed }
    else
      match s.children.find? fun k => k.pid = pid && k.status.isSome with
      | some ⟨p, c, some status⟩ =>
        some { s with children := s.children.erase ⟨p, c, some status⟩, waiter := .reaped p status c }
      | _ => none
  | .reaped pid status c =>
    match s.childWaiterRoot.lookup pid with
    | none => some { s with waiter := .lost pid c }
    | some sid => some { s with
        childWaiterRoot := s.childWaiterRoot.erase pid, waiter := .found sid status c }
  | .found sid status c =>
    some { s with toMain := s.toMain ++ [some ⟨sid, status, c⟩], waiter := .cond }
  | .lost _ _ | .failed | .quit => none

/-- Source: `master_fork.c` `child_wait_notifier` -/
def childWaitNotifier (s : State T α) : Option (State T α) :=
  match s.notifier, s.toMain with
  | .reading, none :: l => some { s with toMain := l, notifier := .quit }
  | .reading, some m :: l =>
    match s.statusRoot.lookup m.sid with
    | none => some { s with toMain := l, notifier := .lost }
    | some t => some { s with
        toMain := l
        statusRoot := s.statusRoot.erase m.sid
        caller := Function.update s.caller t ((s.caller t).setStatus m.status) }
  | _, _ => none

/-- A call that has not returned. -/
def CallerPc.Active : CallerPc α → Prop
  | .inserted _ _ _ | .waiting _ _ => True
  | _ => False

/-- The pids that the kernel does not give out: those of children, and the one that `wait` has just
returned, since pids are given out in turn. -/
def WaiterPc.pids : WaiterPc α → List (ℕ × ℤ)
  | .reaped pid _ c | .lost pid c => [(pid, c.sid)]
  | _ => []

/-- The children and the one that `wait` has just returned, with their ids. -/
def State.pids (s : State T α) : List (ℕ × ℤ) :=
  s.waiter.pids ++ s.children.map fun k => (k.pid, k.call.sid)

/-- What happens in a step. -/
inductive Event
  /-- A call of `master_fork_exec`. -/
  | call
  /-- A call of `server_post_exit`. -/
  | shutdown
  /-- A child exits. -/
  | exit (pid : ℕ) (status : ℤ)
  | caller
  | master
  | waiter
  | notifier
  deriving DecidableEq

/-- The next line of one of the threads, a child that exits, a call, or the end. -/
inductive Step : State T α → Event → State T α → Prop
  | call {s s' : State T α} {t : T} {n : ℤ} {r : α} (ht : ¬ (s.caller t).Active)
    (hs : s.shut = false) (h : masterForkInsert s t n r = some s') : Step s .call s'
  | caller {s s' : State T α} {t : T} (h : masterForkExec s t = some s') : Step s .caller s'
  | master {s s' : State T α} {p : ℕ} (hpid : p ∉ s.pids.map Prod.fst)
    (h : masterForkLoop s p = some s') : Step s .master s'
  | exit {s : State T α} {l m : List (Child α)} {p : ℕ} {c : Call α} {n : ℤ}
    (h : s.children = l ++ ⟨p, c, none⟩ :: m) : Step s (.exit p n) { s with
      children := l ++ ⟨p, c, some n⟩ :: m, exits := s.exits ++ [(c, n)] }
  | waiter {s s' : State T α} {p : ℕ} (h : childWaiter s p = some s') : Step s .waiter s'
  | notifier {s s' : State T α} (h : childWaitNotifier s = some s') : Step s .notifier s'
  | shutdown {s : State T α} (ht : ∀ t, ¬ (s.caller t).Active) (hs : s.shut = false) :
    Step s .shutdown { s with toMaster := s.toMaster ++ [none], shut := true }

/-! ### What a thread can do -/

section

variable {s s' : State T α}

theorem masterForkExec_cases {t : T} (h : masterForkExec s t = some s') :
    (∃ sid rest st, s.caller t = .inserted sid rest st ∧ s' = { s with
      toMaster := s.toMaster ++ [some ⟨s.written, sid, rest⟩], written := s.written + 1,
      caller := Function.update s.caller t (.waiting ⟨s.written, sid, rest⟩ st) }) ∨
    ∃ c st, s.caller t = .waiting c (some st) ∧
      s' = { s with caller := Function.update s.caller t (.returned c st) } := by
  unfold masterForkExec at h
  split at h
  · cases h
  · rename_i sid rest st hpc
    exact .inl ⟨sid, rest, st, hpc, (Option.some.inj h).symm⟩
  · cases h
  · rename_i c st hpc
    exact .inr ⟨c, st, hpc, (Option.some.inj h).symm⟩
  · cases h

theorem masterForkLoop_cases {pid : ℕ} (h : masterForkLoop s pid = some s') :
    (∃ l, s.master = .reading ∧ s.toMaster = none :: l ∧
      s' = { s with toMaster := l, master := .stopping }) ∨
    (∃ c l, s.master = .reading ∧ s.toMaster = some c :: l ∧ s' = { s with
      toMaster := l, master := .forked pid c, children := s.children ++ [⟨pid, c, none⟩] }) ∨
    (∃ q c, s.master = .forked q c ∧ s' = { s with
      childWaiterRoot := s.childWaiterRoot.insert q c.sid, master := .reading }) ∨
    (s.master = .stopping ∧ s' = { s with toMain := s.toMain ++ [none], master := .signalling }) ∨
    (s.master = .signalling ∧ s' = { s with exiting := true, master := .done }) := by
  unfold masterForkLoop at h
  split at h
  · rename_i hm
    split at h
    · cases h
    · rename_i l hl
      exact .inl ⟨l, hm, hl, (Option.some.inj h).symm⟩
    · rename_i c l hl
      exact .inr (.inl ⟨c, l, hm, hl, (Option.some.inj h).symm⟩)
  · rename_i q c hm
    exact .inr (.inr (.inl ⟨q, c, hm, (Option.some.inj h).symm⟩))
  · rename_i hm
    exact .inr (.inr (.inr (.inl ⟨hm, (Option.some.inj h).symm⟩)))
  · rename_i hm
    exact .inr (.inr (.inr (.inr ⟨hm, (Option.some.inj h).symm⟩)))
  · cases h

theorem childWaiter_cases {p : ℕ} (h : childWaiter s p = some s') :
    (s.waiter = .cond ∧ s.exiting = true ∧ s' = { s with waiter := .quit }) ∨
    (s.waiter = .cond ∧ s.exiting = false ∧ s.childWaiterRoot.entries ≠ [] ∧
      s' = { s with waiter := .wait }) ∨
    (s.waiter = .wait ∧ s.children = [] ∧ s' = { s with waiter := .failed }) ∨
    (∃ pid st c, s.waiter = .wait ∧ ⟨pid, c, some st⟩ ∈ s.children ∧ s' = { s with
      children := s.children.erase ⟨pid, c, some st⟩, waiter := .reaped pid st c }) ∨
    (∃ pid st c, s.waiter = .reaped pid st c ∧ s.childWaiterRoot.lookup pid = none ∧
      s' = { s with waiter := .lost pid c }) ∨
    (∃ pid st c sid, s.waiter = .reaped pid st c ∧ s.childWaiterRoot.lookup pid = some sid ∧
      s' = { s with childWaiterRoot := s.childWaiterRoot.erase pid, waiter := .found sid st c }) ∨
    ∃ sid st c, s.waiter = .found sid st c ∧
      s' = { s with toMain := s.toMain ++ [some ⟨sid, st, c⟩], waiter := .cond } := by
  unfold childWaiter at h
  split at h
  · rename_i hw
    split_ifs at h with hexit hempty
    · exact .inl ⟨hw, hexit, (Option.some.inj h).symm⟩
    · exact .inr (.inl ⟨hw, by simpa using hexit, by simpa using hempty, (Option.some.inj h).symm⟩)
  · rename_i hw
    split_ifs at h with hempty
    · exact .inr (.inr (.inl ⟨hw, by simpa using hempty, (Option.some.inj h).symm⟩))
    · split at h
      · rename_i pid c st hk
        have hmem := List.mem_of_find?_eq_some hk
        exact .inr (.inr (.inr (.inl ⟨pid, st, c, hw, hmem, (Option.some.inj h).symm⟩)))
      · cases h
  · rename_i pid st c hw
    split at h
    · rename_i hl
      exact .inr (.inr (.inr (.inr (.inl ⟨pid, st, c, hw, hl, (Option.some.inj h).symm⟩))))
    · rename_i sid hl
      exact .inr (.inr (.inr (.inr (.inr (.inl ⟨pid, st, c, sid, hw, hl, (Option.some.inj h).symm⟩)))))
  · rename_i sid st c hw
    exact .inr (.inr (.inr (.inr (.inr (.inr ⟨sid, st, c, hw, (Option.some.inj h).symm⟩)))))
  all_goals cases h

theorem childWaitNotifier_cases (h : childWaitNotifier s = some s') :
    (∃ l, s.notifier = .reading ∧ s.toMain = none :: l ∧
      s' = { s with toMain := l, notifier := .quit }) ∨
    (∃ m l, s.notifier = .reading ∧ s.toMain = some m :: l ∧ s.statusRoot.lookup m.sid = none ∧
      s' = { s with toMain := l, notifier := .lost }) ∨
    ∃ m l t, s.notifier = .reading ∧ s.toMain = some m :: l ∧ s.statusRoot.lookup m.sid = some t ∧
      s' = { s with toMain := l, statusRoot := s.statusRoot.erase m.sid,
                    caller := Function.update s.caller t ((s.caller t).setStatus m.status) } := by
  unfold childWaitNotifier at h
  split at h
  · rename_i l hn hl
    exact .inl ⟨l, hn, hl, (Option.some.inj h).symm⟩
  · rename_i m l hn hl
    split at h
    · rename_i ht
      exact .inr (.inl ⟨m, l, hn, hl, ht, (Option.some.inj h).symm⟩)
    · rename_i t ht
      exact .inr (.inr ⟨m, l, t, hn, hl, ht, (Option.some.inj h).symm⟩)
  · cases h

end

/-! ### Pids -/

/-- The tree of the master has the children but the one that has just been forked. -/
structure Registered (s : State T α) : Prop where
  nodup : (s.pids.map Prod.fst).Nodup
  registered : ∀ x ∈ s.pids, s.childWaiterRoot.lookup x.1 = some x.2 ∨
    ∃ c, s.master = .forked x.1 c ∧ c.sid = x.2
  known : ∀ pid sid, s.childWaiterRoot.lookup pid = some sid → (pid, sid) ∈ s.pids
  fresh : ∀ pid c, s.master = .forked pid c → (pid, c.sid) ∈ s.pids ∧ pid ∉ s.childWaiterRoot
  wait : s.waiter = .wait → s.childWaiterRoot.entries ≠ []
  found : ∀ sid st c, s.waiter = .found sid st c → c.sid = sid
  toMain : ∀ m, some m ∈ s.toMain → m.call.sid = m.sid
  waiter : s.waiter ≠ .failed

theorem Registered.init : Registered (State.init : State T α) where
  nodup := by simp [State.pids, State.init, WaiterPc.pids]
  registered x hx := by simp [State.pids, State.init, WaiterPc.pids] at hx
  known pid sid h := by simp [State.init] at h
  fresh pid c h := by cases h
  wait h := by cases h
  found sid st c h := by cases h
  toMain m h := by cases h
  waiter h := by cases h

section

variable {s s' : State T α}

theorem Registered.eq_of_mem (h : Registered s) {pid : ℕ} {a b : ℤ} (ha : (pid, a) ∈ s.pids)
    (hb : (pid, b) ∈ s.pids) : a = b := by
  have := List.inj_on_of_nodup_map h.nodup ha hb rfl
  simpa using this

/-- Only the child that has just been forked is not in the tree. -/
theorem Registered.lookup_of_mem (h : Registered s) {x : ℕ × ℤ} (hx : x ∈ s.pids)
    (hm : ∀ c, s.master ≠ .forked x.1 c) : s.childWaiterRoot.lookup x.1 = some x.2 := by
  refine (h.registered x hx).resolve_right ?_
  rintro ⟨c, hc, -⟩
  exact hm c hc

/-- Steps that leave the processes of the master alone. -/
theorem Registered.congr (h : Registered s) (hp : s'.pids.Perm s.pids)
    (hroot : s'.childWaiterRoot = s.childWaiterRoot) (hmaster : s'.master = s.master)
    (hwait : s'.waiter = .wait → s.childWaiterRoot.entries ≠ [])
    (hfound : ∀ sid st c, s'.waiter = .found sid st c → c.sid = sid)
    (hwaiter : s'.waiter ≠ .failed) (hmain : ∀ m, some m ∈ s'.toMain → m.call.sid = m.sid) :
    Registered s' where
  nodup := ((hp.map Prod.fst).nodup_iff).2 h.nodup
  registered x hx := by
    rw [hroot, hmaster]
    exact h.registered x (hp.mem_iff.1 hx)
  known pid sid hl := hp.mem_iff.2 (h.known pid sid (by rw [← hroot]; exact hl))
  fresh pid c hm := by
    obtain ⟨hmem, hnot⟩ := h.fresh pid c (hmaster ▸ hm)
    exact ⟨hp.mem_iff.2 hmem, by rw [hroot]; exact hnot⟩
  wait hw := by
    rw [hroot]
    exact hwait hw
  found := hfound
  toMain := hmain
  waiter := hwaiter

theorem entries_insert_ne_nil {κ β : Type*} [DecidableEq κ] {t : AList fun _ : κ => β} {k : κ} {b : β} :
    (t.insert k b).entries ≠ [] := by
  rw [AList.entries_insert]
  exact List.cons_ne_nil _ _

theorem Registered.children_ne_nil (h : Registered s) (hw : s.waiter = .wait) : s.children ≠ [] := by
  intro hnil
  obtain ⟨x, l, hx⟩ := List.exists_cons_of_ne_nil (h.wait hw)
  have hl : s.childWaiterRoot.lookup x.1 = some x.2 := by
    rw [← Option.mem_def, AList.mem_lookup_iff, hx]
    exact List.mem_cons_self
  have := h.known x.1 x.2 hl
  simp [State.pids, hw, WaiterPc.pids, hnil] at this

theorem Registered.of_masterForkLoop (h : Registered s) {pid : ℕ} (hpid : pid ∉ s.pids.map Prod.fst)
    (hs : masterForkLoop s pid = some s') : Registered s' := by
  rcases masterForkLoop_cases hs with ⟨l, hm, -, rfl⟩ | ⟨c, l, hm, -, rfl⟩ | ⟨q, c, hm, rfl⟩ |
    ⟨hm, rfl⟩ | ⟨hm, rfl⟩
  · exact { h with registered := fun x hx => .inl (h.lookup_of_mem hx (by simp [hm])), fresh := nofun }
  · have hpids : State.pids { s with
        toMaster := l
        master := .forked pid c
        children := s.children ++ [⟨pid, c, none⟩] } = s.pids ++ [(pid, c.sid)] := by
      simp [State.pids]
    refine { h with nodup := ?_, registered := ?_, known := ?_, fresh := ?_ }
    · rw [hpids, List.map_append, List.nodup_append_comm]
      exact List.nodup_cons.2 ⟨hpid, h.nodup⟩
    · intro x hx
      rw [hpids, List.mem_append, List.mem_singleton] at hx
      rcases hx with hx | rfl
      · exact .inl (h.lookup_of_mem hx (by simp [hm]))
      · exact .inr ⟨c, rfl, rfl⟩
    · intro q sid hl
      rw [hpids]
      exact List.mem_append_left _ (h.known q sid hl)
    · rintro q c' hq
      cases hq
      refine ⟨by simp [hpids], fun hmem => hpid ?_⟩
      obtain ⟨sid, hsid⟩ := Option.isSome_iff_exists.1 (AList.lookup_isSome.2 hmem)
      exact List.mem_map_of_mem (h.known _ _ hsid)
  · obtain ⟨hmem, hnot⟩ := h.fresh q c hm
    refine { h with registered := ?_, known := ?_, fresh := ?_, wait := ?_ }
    · rintro ⟨p, a⟩ hx
      refine .inl ?_
      by_cases hp : p = q
      · subst hp
        rw [AList.lookup_insert, h.eq_of_mem hx hmem]
      · rw [AList.lookup_insert_ne hp]
        exact h.lookup_of_mem hx (by simp [hm, Ne.symm hp])
    · intro p sid hl
      by_cases hp : p = q
      · subst hp
        rw [AList.lookup_insert] at hl
        cases hl
        exact hmem
      · rw [AList.lookup_insert_ne hp] at hl
        exact h.known p sid hl
    · intro p c' hc
      cases hc
    · intro hw
      exact entries_insert_ne_nil
  · refine { h with registered := fun x hx => .inl (h.lookup_of_mem hx (by simp [hm])), fresh := nofun,
                    toMain := fun m hmem => h.toMain m ?_ }
    simpa using hmem
  · exact { h with registered := fun x hx => .inl (h.lookup_of_mem hx (by simp [hm])), fresh := nofun }

theorem Registered.of_childWaiter (h : Registered s) {p : ℕ}
    (hs : childWaiter s p = some s') : Registered s' := by
  rcases childWaiter_cases hs with ⟨hw, -, rfl⟩ | ⟨hw, -, hne, rfl⟩ | ⟨hw, hnil, rfl⟩ |
    ⟨pid, st, c, hw, hk, rfl⟩ | ⟨pid, st, c, hw, -, rfl⟩ | ⟨pid, st, c, sid, hw, hl, rfl⟩ |
    ⟨sid, st, c, hw, rfl⟩
  · refine h.congr ?_ rfl rfl nofun nofun nofun h.toMain
    simp [State.pids, hw, WaiterPc.pids]
  · refine h.congr ?_ rfl rfl (fun _ => hne) nofun nofun h.toMain
    simp [State.pids, hw, WaiterPc.pids]
  · exact absurd hnil (h.children_ne_nil hw)
  · refine h.congr ?_ rfl rfl nofun nofun nofun h.toMain
    have hperm := (List.perm_cons_erase hk).map fun k => (k.pid, k.call.sid)
    simpa [State.pids, hw, WaiterPc.pids] using hperm.symm
  · refine h.congr ?_ rfl rfl nofun nofun nofun h.toMain
    simp [State.pids, hw, WaiterPc.pids]
  · have hpids : s.pids = (pid, c.sid) :: s.children.map fun k => (k.pid, k.call.sid) := by
      simp [State.pids, hw, WaiterPc.pids]
    have hpids' : State.pids { s with
        childWaiterRoot := s.childWaiterRoot.erase pid
        waiter := .found sid st c } = s.children.map fun k => (k.pid, k.call.sid) := by
      simp [State.pids, WaiterPc.pids]
    have hnodup := h.nodup
    rw [hpids, List.map_cons, List.nodup_cons] at hnodup
    have hne : ∀ x ∈ s.children.map fun k => (k.pid, k.call.sid), x.1 ≠ pid := by
      rintro x hx rfl
      exact hnodup.1 (List.mem_map.2 ⟨x, hx, rfl⟩)
    refine { h with nodup := ?_, registered := ?_, known := ?_, fresh := ?_, wait := nofun,
                    found := ?_, waiter := nofun }
    · rw [hpids']
      exact hnodup.2
    · intro x hx
      rw [hpids'] at hx
      rw [AList.lookup_erase_ne (hne x hx)]
      exact h.registered x (by rw [hpids]; exact List.mem_cons_of_mem _ hx)
    · intro q a hq
      have hqp : q ≠ pid := by
        rintro rfl
        rw [AList.lookup_erase] at hq
        cases hq
      rw [AList.lookup_erase_ne hqp] at hq
      have hmem := h.known q a hq
      rw [hpids, List.mem_cons] at hmem
      rw [hpids']
      refine hmem.resolve_left fun heq => hqp ?_
      exact congrArg Prod.fst heq
    · intro q c' hq
      obtain ⟨hmem, hnot⟩ := h.fresh q c' hq
      have hqp : q ≠ pid := by
        rintro rfl
        exact hnot (AList.lookup_isSome.1 (by rw [hl]; rfl))
      rw [hpids, List.mem_cons] at hmem
      refine ⟨?_, fun hmem => hnot (AList.mem_erase.1 hmem).2⟩
      rw [hpids']
      exact hmem.resolve_left fun heq => hqp (congrArg Prod.fst heq)
    · rintro a b d hf
      cases hf
      exact h.eq_of_mem (by rw [hpids]; exact List.mem_cons_self) (h.known pid sid hl)
  · refine h.congr ?_ rfl rfl nofun nofun nofun fun m hm => ?_
    · simp [State.pids, hw, WaiterPc.pids]
    · rw [List.mem_append, List.mem_singleton] at hm
      rcases hm with hm | hm
      · exact h.toMain m hm
      · cases hm
        exact h.found sid st c hw

theorem Registered.step {e : Event} (h : Registered s) (hs : Step s e s') : Registered s' := by
  cases hs with
  | call ht hs hi =>
    unfold masterForkInsert at hi
    split_ifs at hi
    cases hi
    exact h.congr (List.Perm.refl _) rfl rfl h.wait h.found h.waiter h.toMain
  | caller hi =>
    rcases masterForkExec_cases hi with ⟨sid, rest, st, -, rfl⟩ | ⟨c, st, -, rfl⟩ <;>
      exact h.congr (List.Perm.refl _) rfl rfl h.wait h.found h.waiter h.toMain
  | master hpid hi => exact h.of_masterForkLoop hpid hi
  | exit hc =>
    refine h.congr ?_ rfl rfl h.wait h.found h.waiter h.toMain
    simp [State.pids, hc]
  | waiter hi => exact h.of_childWaiter hi
  | notifier hi =>
    rcases childWaitNotifier_cases hi with ⟨l, -, hl, rfl⟩ | ⟨m, l, -, hl, -, rfl⟩ | ⟨m, l, t, -, hl, -, rfl⟩ <;>
      exact h.congr (List.Perm.refl _) rfl rfl h.wait h.found h.waiter fun m' hm' =>
        h.toMain m' (by rw [hl]; exact List.mem_cons_of_mem _ hm')
  | shutdown ht hs => exact h.congr (List.Perm.refl _) rfl rfl h.wait h.found h.waiter h.toMain

end

/-! ### Threads -/

/-- The calls that the waiter has. -/
def WaiterPc.calls : WaiterPc α → List (Call α)
  | .reaped _ _ c | .found _ _ c | .lost _ c => [c]
  | _ => []

/-- The calls that are on their way, or lost. -/
def State.flight (s : State T α) : List (Call α) :=
  s.toMaster.reduceOption ++ s.children.map Child.call ++ s.waiter.calls ++
    s.toMain.reduceOption.map RcMsg.call

/-- A thread whose entry is in the tree under an id. -/
def CallerPc.Pending (pc : CallerPc α) (sid : ℤ) : Prop :=
  (∃ rest, pc = .inserted sid rest none) ∨ ∃ c, c.sid = sid ∧ pc = .waiting c none

/-- The tree has the threads that wait, and a thread waits as long as its call is on its way. -/
structure Routed (s : State T α) : Prop where
  tree : ∀ sid t, s.statusRoot.lookup sid = some t ↔ (s.caller t).Pending sid
  pending : ∀ c, c ∈ s.flight ↔ ∃ t, s.caller t = .waiting c none
  unset : ∀ t sid rest st, s.caller t = .inserted sid rest st → st = none
  nodup : (s.flight.map Call.num).Nodup
  lt : ∀ c ∈ s.flight, c.num < s.written
  notifier : s.notifier ≠ .lost

section

variable {s s' : State T α}

theorem Routed.init : Routed (State.init : State T α) where
  tree sid t := by simp [State.init, CallerPc.Pending]
  pending c := by simp [State.init, State.flight, WaiterPc.calls]
  unset t sid rest st h := by cases h
  nodup := by simp [State.init, State.flight, WaiterPc.calls]
  lt c hc := by simp [State.init, State.flight, WaiterPc.calls] at hc
  notifier h := by cases h

/-- Steps that only pass the calls on. -/
theorem Routed.congr (h : Routed s) (hf : s'.flight.Perm s.flight) (hroot : s'.statusRoot = s.statusRoot)
    (hcaller : s'.caller = s.caller) (hwritten : s'.written = s.written)
    (hnotifier : s'.notifier ≠ .lost) : Routed s' where
  tree sid t := by rw [hroot, hcaller, h.tree]
  pending c := by rw [hf.mem_iff, hcaller, h.pending]
  unset t := by
    rw [hcaller]
    exact h.unset t
  nodup := ((hf.map _).nodup_iff).2 h.nodup
  lt c hc := by
    rw [hwritten]
    exact h.lt c (hf.mem_iff.1 hc)
  notifier := hnotifier

theorem CallerPc.Pending.active {pc : CallerPc α} {sid : ℤ} (h : pc.Pending sid) : pc.Active := by
  rcases h with ⟨rest, rfl⟩ | ⟨c, -, rfl⟩ <;> trivial

theorem CallerPc.Pending.sid_eq {pc : CallerPc α} {a b : ℤ} (ha : pc.Pending a) (hb : pc.Pending b) :
    a = b := by
  rcases ha with ⟨rest, rfl⟩ | ⟨c, rfl, rfl⟩ <;> rcases hb with ⟨rest', hb⟩ | ⟨c', rfl, hb⟩ <;> cases hb <;> rfl

/-- A thread that neither waited nor waits now. -/
theorem exists_waiting_update {f : T → CallerPc α} {t : T} {pc : CallerPc α}
    (hold : ∀ c, f t ≠ .waiting c none) (hnew : ∀ c, pc ≠ .waiting c none) (c : Call α) :
    (∃ u, Function.update f t pc u = .waiting c none) ↔ ∃ u, f u = .waiting c none := by
  constructor
  · rintro ⟨u, hu⟩
    by_cases hut : u = t
    · rw [hut, Function.update_self] at hu
      exact absurd hu (hnew c)
    · rw [Function.update_of_ne hut] at hu
      exact ⟨u, hu⟩
  · rintro ⟨u, hu⟩
    have hut : u ≠ t := by
      rintro rfl
      exact hold c hu
    exact ⟨u, by rw [Function.update_of_ne hut, hu]⟩

/-- A thread that has no status before it has written its message. -/
theorem Routed.unset_update (h : Routed s) {t : T} {pc : CallerPc α}
    (hpc : ∀ sid rest st, pc = .inserted sid rest st → st = none) (u : T) (sid : ℤ) (rest : α)
    (st : Option ℤ) (hu : Function.update s.caller t pc u = .inserted sid rest st) : st = none := by
  by_cases hut : u = t
  · rw [hut, Function.update_self] at hu
    exact hpc sid rest st hu
  · rw [Function.update_of_ne hut] at hu
    exact h.unset u sid rest st hu

theorem Routed.of_insert (h : Routed s) {t : T} {sid : ℤ} {rest : α} (ht : ¬ (s.caller t).Active)
    (hs : masterForkInsert s t sid rest = some s') : Routed s' := by
  unfold masterForkInsert at hs
  split_ifs at hs with hmem
  cases hs
  have hnone : s.statusRoot.lookup sid = none := AList.lookup_eq_none.2 hmem
  refine { h with tree := ?_, pending := ?_, unset := h.unset_update ?_ }
  · intro a u
    show (s.statusRoot.insert sid t).lookup a = some u ↔
      (Function.update s.caller t (.inserted sid rest none) u).Pending a
    by_cases hu : u = t
    · subst hu
      rw [Function.update_self]
      by_cases ha : a = sid
      · subst ha
        simp [AList.lookup_insert, CallerPc.Pending]
      · rw [AList.lookup_insert_ne ha, h.tree]
        constructor
        · intro hp
          exact absurd hp.active ht
        · intro hp
          refine absurd (hp.sid_eq (b := sid) ?_) ha
          exact .inl ⟨rest, rfl⟩
    · rw [Function.update_of_ne hu]
      by_cases ha : a = sid
      · subst ha
        rw [AList.lookup_insert, ← h.tree, hnone]
        simp [Ne.symm hu]
      · rw [AList.lookup_insert_ne ha, h.tree]
  · intro c
    show c ∈ s.flight ↔ _
    rw [h.pending]
    refine (exists_waiting_update (fun c hc => ht ?_) (fun c hc => by cases hc) c).symm
    rw [hc]
    trivial
  · intro a b st hst
    cases hst
    rfl

theorem Routed.of_masterForkExec (h : Routed s) {t : T} (hs : masterForkExec s t = some s') :
    Routed s' := by
  rcases masterForkExec_cases hs with ⟨sid, rest, st, hpc, rfl⟩ | ⟨c, st, hpc, rfl⟩
  · obtain rfl := h.unset t sid rest st hpc
    have hflight : State.flight { s with
        toMaster := s.toMaster ++ [some ⟨s.written, sid, rest⟩]
        written := s.written + 1
        caller := Function.update s.caller t (.waiting ⟨s.written, sid, rest⟩ none) } |>.Perm
          (⟨s.written, sid, rest⟩ :: s.flight) := by
      refine List.perm_iff_count.2 fun x => ?_
      simp only [State.flight, List.reduceOption_append, List.reduceOption_singleton, Option.toList_some,
        List.count_append, List.count_cons, List.count_nil]
      omega
    refine { h with tree := ?_, pending := ?_, unset := h.unset_update nofun, nodup := ?_, lt := ?_ }
    · intro a u
      show s.statusRoot.lookup a = some u ↔ (Function.update s.caller t (.waiting _ none) u).Pending a
      rw [h.tree]
      by_cases hu : u = t
      · rw [hu, Function.update_self, hpc]
        simp [CallerPc.Pending, eq_comm]
      · rw [Function.update_of_ne hu]
    · intro c
      rw [hflight.mem_iff, List.mem_cons, h.pending]
      show _ ↔ ∃ u, Function.update s.caller t (.waiting _ none) u = .waiting c none
      constructor
      · rintro (rfl | ⟨u, hu⟩)
        · exact ⟨t, by rw [Function.update_self]⟩
        · have hut : u ≠ t := by
            rintro rfl
            rw [hpc] at hu
            cases hu
          exact ⟨u, by rw [Function.update_of_ne hut, hu]⟩
      · rintro ⟨u, hu⟩
        by_cases hut : u = t
        · rw [hut, Function.update_self] at hu
          cases hu
          exact .inl rfl
        · rw [Function.update_of_ne hut] at hu
          exact .inr ⟨u, hu⟩
    · refine ((hflight.map _).nodup_iff).2 (List.nodup_cons.2 ⟨fun hmem => ?_, h.nodup⟩)
      obtain ⟨c, hc, hnum⟩ := List.mem_map.1 hmem
      exact absurd (hnum ▸ h.lt c hc) (lt_irrefl _)
    · intro c hc
      rcases List.mem_cons.1 (hflight.mem_iff.1 hc) with rfl | hc
      · exact Nat.lt_succ_self _
      · exact (h.lt c hc).trans (Nat.lt_succ_self _)
  · refine { h with tree := ?_, pending := ?_, unset := h.unset_update nofun }
    · intro a u
      show s.statusRoot.lookup a = some u ↔ (Function.update s.caller t (.returned c st) u).Pending a
      rw [h.tree]
      by_cases hu : u = t
      · rw [hu, Function.update_self, hpc]
        simp [CallerPc.Pending]
      · rw [Function.update_of_ne hu]
    · intro c'
      show c' ∈ s.flight ↔ _
      rw [h.pending]
      refine (exists_waiting_update (fun c hc => ?_) (fun c hc => by cases hc) c').symm
      rw [hpc] at hc
      cases hc

/-- The thread that an answer is for. -/
theorem Routed.waiting_of_lookup (h : Routed s) (hr : Registered s) {m : RcMsg α}
    (hm : some m ∈ s.toMain) : ∃ t, s.statusRoot.lookup m.sid = some t ∧ s.caller t = .waiting m.call none := by
  have hmem : m.call ∈ s.flight := by
    refine List.mem_append_right _ (List.mem_map_of_mem ?_)
    exact List.reduceOption_mem_iff.2 hm
  obtain ⟨t, ht⟩ := (h.pending m.call).1 hmem
  exact ⟨t, (h.tree _ _).2 (.inr ⟨m.call, hr.toMain m hm, ht⟩), ht⟩

/-- The thread that hands the statuses out finds whom they are for. -/
theorem Routed.notifier_cases (h : Routed s) (hr : Registered s) (hs : childWaitNotifier s = some s') :
    (∃ l, s.toMain = none :: l ∧ s' = { s with toMain := l, notifier := .quit }) ∨
    ∃ m l t, some m ∈ s.toMain ∧ s.toMain = some m :: l ∧ s.notifier = .reading ∧
      s.statusRoot.lookup m.sid = some t ∧ s.caller t = .waiting m.call none ∧ s' = { s with
        toMain := l
        statusRoot := s.statusRoot.erase m.sid
        caller := Function.update s.caller t (.waiting m.call (some m.status)) } := by
  rcases childWaitNotifier_cases hs with ⟨l, -, hl, rfl⟩ | ⟨m, l, hn, hl, hnone, -⟩ |
    ⟨m, l, t, hn, hl, hlook, rfl⟩
  · exact .inl ⟨l, hl, rfl⟩
  all_goals
    have hm : some m ∈ s.toMain := by
      rw [hl]
      exact List.mem_cons_self
    obtain ⟨u, hu, hpc⟩ := h.waiting_of_lookup hr hm
  · rw [hnone] at hu
    cases hu
  · obtain rfl := Option.some.inj (hu.symm.trans hlook)
    refine .inr ⟨m, l, u, hm, hl, hn, hu, hpc, ?_⟩
    rw [hpc]
    rfl

theorem Routed.of_childWaitNotifier (h : Routed s) (hr : Registered s)
    (hs : childWaitNotifier s = some s') : Routed s' := by
  rcases h.notifier_cases hr hs with ⟨l, hl, rfl⟩ | ⟨m, l, u, hm, hl, -, hu, hpc, rfl⟩
  · refine h.congr ?_ rfl rfl rfl nofun
    simp [State.flight, hl]
  · have hflight : s.flight.Perm (m.call :: State.flight { s with
        toMain := l
        statusRoot := s.statusRoot.erase m.sid
        caller := Function.update s.caller u (.waiting m.call (some m.status)) }) := by
      refine List.perm_iff_count.2 fun x => ?_
      simp only [State.flight, hl, List.reduceOption_cons_of_some, List.map_cons, List.count_append,
        List.count_cons]
      omega
    have hnodup := ((hflight.map Call.num).nodup_iff).1 h.nodup
    rw [List.map_cons, List.nodup_cons] at hnodup
    refine { h with tree := ?_, pending := ?_, unset := h.unset_update nofun, nodup := hnodup.2,
                    lt := ?_ }
    · intro a v
      show (s.statusRoot.erase m.sid).lookup a = some v ↔
        (Function.update s.caller u (.waiting m.call (some m.status)) v).Pending a
      have hsid : (s.caller u).Pending m.sid := (h.tree _ _).1 hu
      by_cases hv : v = u
      · subst hv
        rw [Function.update_self]
        constructor
        · intro ha
          by_cases has : a = m.sid
          · rw [has, AList.lookup_erase] at ha
            cases ha
          · rw [AList.lookup_erase_ne has, h.tree] at ha
            exact absurd (ha.sid_eq hsid) has
        · rintro (⟨rest, hrest⟩ | ⟨c, -, hc⟩)
          · cases hrest
          · cases hc
      · rw [Function.update_of_ne hv]
        by_cases has : a = m.sid
        · rw [has, AList.lookup_erase, ← h.tree, hu]
          simp [Ne.symm hv]
        · rw [AList.lookup_erase_ne has, h.tree]
    · intro c
      show _ ↔ ∃ v, Function.update s.caller u (.waiting m.call (some m.status)) v = .waiting c none
      constructor
      · intro hc
        obtain ⟨v, hv⟩ := (h.pending c).1 (hflight.mem_iff.2 (List.mem_cons_of_mem _ hc))
        have hvu : v ≠ u := by
          rintro rfl
          rw [hpc] at hv
          cases hv
          exact hnodup.1 (List.mem_map_of_mem hc)
        exact ⟨v, by rw [Function.update_of_ne hvu, hv]⟩
      · rintro ⟨v, hv⟩
        by_cases hvu : v = u
        · rw [hvu, Function.update_self] at hv
          cases hv
        · rw [Function.update_of_ne hvu] at hv
          refine (List.mem_cons.1 (hflight.mem_iff.1 ((h.pending c).2 ⟨v, hv⟩))).resolve_left ?_
          rintro rfl
          refine hvu (Option.some.inj (Eq.trans (Eq.symm ?_) hu))
          exact (h.tree _ _).2 (.inr ⟨m.call, hr.toMain m hm, hv⟩)
    · intro c hc
      exact h.lt c (hflight.mem_iff.2 (List.mem_cons_of_mem _ hc))

theorem flight_of_masterForkLoop {pid : ℕ} (hs : masterForkLoop s pid = some s') :
    s'.flight.Perm s.flight := by
  refine List.perm_iff_count.2 fun x => ?_
  rcases masterForkLoop_cases hs with ⟨l, -, hl, rfl⟩ | ⟨c, l, -, hl, rfl⟩ | ⟨q, c, -, rfl⟩ |
    ⟨-, rfl⟩ | ⟨-, rfl⟩
  · simp [State.flight, hl]
  · simp only [State.flight, hl, List.reduceOption_cons_of_some, List.map_append, List.map_cons,
      List.map_nil, List.count_append, List.count_cons, List.count_nil]
    omega
  · rfl
  · simp [State.flight, List.reduceOption_append]
  · rfl

theorem flight_of_childWaiter {p : ℕ} (hs : childWaiter s p = some s') :
    s'.flight.Perm s.flight := by
  rcases childWaiter_cases hs with ⟨hw, -, rfl⟩ | ⟨hw, -, -, rfl⟩ | ⟨hw, -, rfl⟩ |
    ⟨pid, st, c, hw, hk, rfl⟩ | ⟨pid, st, c, hw, -, rfl⟩ | ⟨pid, st, c, sid, hw, -, rfl⟩ |
    ⟨sid, st, c, hw, rfl⟩
  · simp [State.flight, hw, WaiterPc.calls]
  · simp [State.flight, hw, WaiterPc.calls]
  · simp [State.flight, hw, WaiterPc.calls]
  · refine List.perm_iff_count.2 fun x => ?_
    have hperm := (((List.perm_cons_erase hk).map Child.call).count_eq x)
    simp only [State.flight, hw, WaiterPc.calls, List.count_append, List.count_cons, List.count_nil,
      List.map_cons] at hperm ⊢
    omega
  · simp [State.flight, hw, WaiterPc.calls]
  · simp [State.flight, hw, WaiterPc.calls]
  · refine List.perm_iff_count.2 fun x => ?_
    simp only [State.flight, hw, WaiterPc.calls, List.reduceOption_append, List.reduceOption_singleton,
      Option.toList_some, List.map_append, List.map_cons, List.map_nil, List.count_append,
      List.count_cons, List.count_nil]
    omega

theorem Routed.step {e : Event} (h : Routed s) (hr : Registered s) (hs : Step s e s') : Routed s' := by
  cases hs with
  | call ht hs hi => exact h.of_insert ht hi
  | caller hi => exact h.of_masterForkExec hi
  | master hpid hi =>
    have hf := flight_of_masterForkLoop hi
    rcases masterForkLoop_cases hi with ⟨l, -, -, rfl⟩ | ⟨c, l, -, -, rfl⟩ | ⟨q, c, -, rfl⟩ |
      ⟨-, rfl⟩ | ⟨-, rfl⟩ <;> exact h.congr hf rfl rfl rfl h.notifier
  | exit hc =>
    refine h.congr ?_ rfl rfl rfl h.notifier
    simp [State.flight, hc]
  | waiter hi =>
    have hf := flight_of_childWaiter hi
    rcases childWaiter_cases hi with ⟨-, -, rfl⟩ | ⟨-, -, -, rfl⟩ | ⟨-, -, rfl⟩ | ⟨pid, st, c, -, -, rfl⟩ |
      ⟨pid, st, c, -, -, rfl⟩ | ⟨pid, st, c, sid, -, -, rfl⟩ | ⟨sid, st, c, -, rfl⟩ <;>
      exact h.congr hf rfl rfl rfl h.notifier
  | notifier hi => exact h.of_childWaitNotifier hr hi
  | shutdown ht hs =>
    refine h.congr ?_ rfl rfl rfl h.notifier
    simp [State.flight, List.reduceOption_append]

end

/-! ### Statuses -/

/-- The calls whose child has not exited. -/
def State.unexited (s : State T α) : List (Call α) :=
  s.toMaster.reduceOption ++ (s.children.filter (·.status.isNone)).map Child.call

/-- The status that a thread has got, with the call. -/
def CallerPc.Got (pc : CallerPc α) (c : Call α) (st : ℤ) : Prop :=
  pc = .waiting c (some st) ∨ pc = .returned c st

/-- The statuses on their way are those of the children, and no call has two children. -/
structure Witnessed (s : State T α) : Prop where
  once : ((s.exits.map Prod.fst ++ s.unexited).map Call.num).Nodup
  lt : ∀ x ∈ s.exits, x.1.num < s.written
  zombie : ∀ k ∈ s.children, ∀ st, k.status = some st → (k.call, st) ∈ s.exits
  reaped : ∀ pid st c, s.waiter = .reaped pid st c → (c, st) ∈ s.exits
  found : ∀ sid st c, s.waiter = .found sid st c → (c, st) ∈ s.exits
  toMain : ∀ m, some m ∈ s.toMain → (m.call, m.status) ∈ s.exits
  got : ∀ t c st, (s.caller t).Got c st → (c, st) ∈ s.exits

section

variable {s s' : State T α}

theorem Witnessed.init : Witnessed (State.init : State T α) where
  once := by simp [State.init, State.unexited]
  lt x hx := by cases hx
  zombie k hk := by cases hk
  reaped pid st c h := by cases h
  found sid st c h := by cases h
  toMain m h := by cases h
  got t c st h := by rcases h with h | h <;> cases h

theorem unexited_subset (s : State T α) : ∀ c ∈ s.unexited, c ∈ s.flight := by
  intro c hc
  unfold State.flight
  rcases List.mem_append.1 hc with hc | hc
  · simp [hc]
  · obtain ⟨k, hk, rfl⟩ := List.mem_map.1 hc
    have : k.call ∈ s.children.map Child.call := List.mem_map_of_mem (List.mem_filter.1 hk).1
    simp [this]

/-- Steps in which no child exits. -/
theorem Witnessed.congr (h : Witnessed s) (hexits : s'.exits = s.exits)
    (hunexited : s'.unexited.Perm s.unexited) (hwritten : s'.written = s.written)
    (hchildren : ∀ k ∈ s'.children, ∀ st, k.status = some st → k ∈ s.children)
    (hreaped : ∀ pid st c, s'.waiter = .reaped pid st c → (c, st) ∈ s.exits)
    (hfound : ∀ sid st c, s'.waiter = .found sid st c → (c, st) ∈ s.exits)
    (hmain : ∀ m, some m ∈ s'.toMain → (m.call, m.status) ∈ s.exits)
    (hgot : ∀ t c st, (s'.caller t).Got c st → (c, st) ∈ s.exits) : Witnessed s' where
  once := by
    rw [hexits]
    exact (((hunexited.append_left _).map _).nodup_iff).2 h.once
  lt x hx := by
    rw [hwritten]
    exact h.lt x (by rwa [hexits] at hx)
  zombie k hk st hst := by
    rw [hexits]
    exact h.zombie k (hchildren k hk st hst) st hst
  reaped := by rwa [hexits]
  found := by rwa [hexits]
  toMain := by rwa [hexits]
  got := by rwa [hexits]

/-- A thread that has no status, or had it before. -/
theorem Witnessed.got_update (h : Witnessed s) {t : T} {pc : CallerPc α}
    (hpc : ∀ c st, pc.Got c st → (c, st) ∈ s.exits) (u : T) (c : Call α) (st : ℤ)
    (hu : (Function.update s.caller t pc u).Got c st) : (c, st) ∈ s.exits := by
  by_cases hut : u = t
  · rw [hut, Function.update_self] at hu
    exact hpc c st hu
  · rw [Function.update_of_ne hut] at hu
    exact h.got u c st hu

theorem Witnessed.of_masterForkExec (h : Witnessed s) (hr : Routed s) {t : T}
    (hs : masterForkExec s t = some s') : Witnessed s' := by
  rcases masterForkExec_cases hs with ⟨sid, rest, st, hpc, rfl⟩ | ⟨c, st, hpc, rfl⟩
  · obtain rfl := hr.unset t sid rest st hpc
    refine { h with once := ?_, lt := ?_, got := h.got_update ?_ }
    · have hperm : (s.exits.map Prod.fst ++ State.unexited { s with
          toMaster := s.toMaster ++ [some ⟨s.written, sid, rest⟩]
          written := s.written + 1
          caller := Function.update s.caller t (.waiting ⟨s.written, sid, rest⟩ none) }).Perm
            (⟨s.written, sid, rest⟩ :: (s.exits.map Prod.fst ++ s.unexited)) := by
        refine List.perm_iff_count.2 fun x => ?_
        simp only [State.unexited, List.reduceOption_append, List.reduceOption_singleton,
          Option.toList_some, List.count_append, List.count_cons, List.count_nil]
        omega
      refine ((hperm.map _).nodup_iff).2 (List.nodup_cons.2 ⟨fun hmem => ?_, h.once⟩)
      obtain ⟨c, hc, hnum⟩ := List.mem_map.1 hmem
      -- the number is new
      have hlt : c.num < s.written := by
        rcases List.mem_append.1 hc with hc | hc
        · obtain ⟨x, hx, rfl⟩ := List.mem_map.1 hc
          exact h.lt x hx
        · exact hr.lt c (unexited_subset s c hc)
      exact absurd (hnum ▸ hlt) (lt_irrefl _)
    · intro x hx
      exact (h.lt x hx).trans (Nat.lt_succ_self _)
    · rintro c st (hc | hc) <;> cases hc
  · refine { h with got := h.got_update ?_ }
    rintro c' st' (hc | hc)
    · cases hc
    · cases hc
      exact h.got t c st (.inl hpc)

theorem Witnessed.of_childWaitNotifier (h : Witnessed s) (hr : Routed s) (hg : Registered s)
    (hs : childWaitNotifier s = some s') : Witnessed s' := by
  rcases hr.notifier_cases hg hs with ⟨l, hl, rfl⟩ | ⟨m, l, t, hm, hl, -, -, -, rfl⟩
  · refine { h with toMain := fun m hm => h.toMain m ?_ }
    rw [hl]
    exact List.mem_cons_of_mem _ hm
  · refine { h with toMain := fun m hm => h.toMain m ?_, got := h.got_update ?_ }
    · rw [hl]
      exact List.mem_cons_of_mem _ hm
    · rintro c st (hc | hc)
      · cases hc
        exact h.toMain m hm
      · cases hc

theorem Witnessed.of_masterForkLoop (h : Witnessed s) {pid : ℕ}
    (hs : masterForkLoop s pid = some s') : Witnessed s' := by
  rcases masterForkLoop_cases hs with ⟨l, -, hl, rfl⟩ | ⟨c, l, -, hl, rfl⟩ | ⟨q, c, -, rfl⟩ |
    ⟨-, rfl⟩ | ⟨-, rfl⟩
  · refine h.congr rfl ?_ rfl (fun k hk _ _ => hk) h.reaped h.found h.toMain h.got
    simp [State.unexited, hl]
  · refine h.congr rfl (List.perm_iff_count.2 fun x => ?_) rfl ?_ h.reaped h.found h.toMain h.got
    · simp only [State.unexited, hl, List.reduceOption_cons_of_some, List.filter_append,
        List.filter_cons, List.filter_nil, Option.isNone_none, if_true, List.map_append, List.map_cons,
        List.map_nil, List.count_append, List.count_cons, List.count_nil]
      omega
    · intro k hk st hst
      rcases List.mem_append.1 hk with hk | hk
      · exact hk
      · obtain rfl := List.mem_singleton.1 hk
        cases hst
  · exact { h with }
  · refine { h with toMain := fun m hm => h.toMain m ?_ }
    simpa using hm
  · exact { h with }

theorem Witnessed.of_childWaiter (h : Witnessed s) {p : ℕ}
    (hs : childWaiter s p = some s') : Witnessed s' := by
  rcases childWaiter_cases hs with ⟨-, -, rfl⟩ | ⟨-, -, -, rfl⟩ | ⟨-, -, rfl⟩ | ⟨pid, st, c, -, hk, rfl⟩ |
    ⟨pid, st, c, -, -, rfl⟩ | ⟨pid, st, c, sid, hw, -, rfl⟩ | ⟨sid, st, c, hw, rfl⟩
  · exact { h with reaped := nofun, found := nofun }
  · exact { h with reaped := nofun, found := nofun }
  · exact { h with reaped := nofun, found := nofun }
  · refine h.congr rfl ?_ rfl (fun x hx _ _ => List.mem_of_mem_erase hx) ?_ nofun h.toMain h.got
    · refine List.Perm.append_left _ (List.Perm.map _ ?_)
      have hperm := (List.perm_cons_erase hk).filter (·.status.isNone)
      rw [List.filter_cons_of_neg (by simp)] at hperm
      exact hperm.symm
    · rintro a b d hw
      cases hw
      exact h.zombie _ hk st rfl
  · exact { h with reaped := nofun, found := nofun }
  · refine { h with reaped := nofun, found := ?_ }
    rintro a b d hf
    cases hf
    exact h.reaped pid st c hw
  · refine { h with reaped := nofun, found := nofun, toMain := ?_ }
    intro m hm
    rw [List.mem_append, List.mem_singleton] at hm
    rcases hm with hm | hm
    · exact h.toMain m hm
    · cases hm
      exact h.found sid st c hw

theorem Witnessed.of_exit (h : Witnessed s) (hr : Routed s) {l₁ l₂ : List (Child α)} {pid : ℕ}
    {c : Call α} {status : ℤ} (hc : s.children = l₁ ++ ⟨pid, c, none⟩ :: l₂) :
    Witnessed { s with
      children := l₁ ++ ⟨pid, c, some status⟩ :: l₂, exits := s.exits ++ [(c, status)] } := by
  have hmem : c ∈ s.unexited := by
    refine List.mem_append_right _ (List.mem_map.2 ⟨⟨pid, c, none⟩, ?_, rfl⟩)
    simp [hc]
  have hold : ∀ x ∈ s.exits, x ∈ s.exits ++ [(c, status)] := fun x hx => List.mem_append_left _ hx
  refine { h with
    once := ?_, lt := ?_, zombie := ?_
    reaped := fun a b d hw => hold _ (h.reaped a b d hw)
    found := fun a b d hw => hold _ (h.found a b d hw)
    toMain := fun m hm => hold _ (h.toMain m hm)
    got := fun t d st hg => hold _ (h.got t d st hg) }
  · refine (((List.perm_iff_count.2 fun x => ?_).map _).nodup_iff).2 h.once
    simp only [State.unexited, hc, List.filter_append, List.filter_cons, Option.isNone_none,
      Option.isNone_some, if_true, Bool.false_eq_true, if_false, List.map_append, List.map_cons,
      List.map_nil, List.count_append, List.count_cons, List.count_nil]
    omega
  · intro x hx
    rcases List.mem_append.1 hx with hx | hx
    · exact h.lt x hx
    · obtain rfl := List.mem_singleton.1 hx
      exact hr.lt c (unexited_subset s c hmem)
  · intro k hk st hst
    rcases List.mem_append.1 hk with hk | hk
    · exact hold _ (h.zombie k (by rw [hc]; exact List.mem_append_left _ hk) st hst)
    rcases List.mem_cons.1 hk with rfl | hk
    · cases hst
      exact List.mem_append_right _ (List.mem_singleton_self _)
    · refine hold _ (h.zombie k ?_ st hst)
      rw [hc]
      exact List.mem_append_right _ (List.mem_cons_of_mem _ hk)

theorem Witnessed.step {e : Event} (h : Witnessed s) (hr : Routed s) (hg : Registered s)
    (hs : Step s e s') : Witnessed s' := by
  cases hs with
  | call ht hs hi =>
    unfold masterForkInsert at hi
    split_ifs at hi
    cases hi
    refine { h with got := h.got_update ?_ }
    rintro c st (hc | hc) <;> cases hc
  | caller hi => exact h.of_masterForkExec hr hi
  | master hpid hi => exact h.of_masterForkLoop hi
  | exit hc => exact h.of_exit hr hc
  | waiter hi => exact h.of_childWaiter hi
  | notifier hi => exact h.of_childWaitNotifier hr hg hi
  | shutdown ht hs =>
    refine h.congr rfl ?_ rfl (fun k hk _ _ => hk) h.reaped h.found h.toMain h.got
    simp [State.unexited, List.reduceOption_append]

end

/-! ### The end -/

/-- The loop of the master has ended. -/
def MasterPc.Ended : MasterPc α → Prop
  | .reading | .forked _ _ => False
  | _ => True

/-- The master has told the notifier. -/
def MasterPc.Told : MasterPc α → Prop
  | .signalling | .done => True
  | _ => False

/-- Where the message with the id -1 is. -/
structure Ended (s : State T α) : Prop where
  idle : s.shut = true → ∀ t, ¬ (s.caller t).Active
  shut : s.shut = true ↔ none ∈ s.toMaster ∨ s.master.Ended
  told : s.master.Told ↔ none ∈ s.toMain ∨ s.notifier = .quit
  exiting : s.exiting = true ↔ s.master = .done
  quit : s.waiter = .quit → s.exiting = true
  one : s.toMaster.count none ≤ 1
  first : s.master.Ended → none ∉ s.toMaster

section

variable {s s' : State T α}

theorem Ended.init : Ended (State.init : State T α) where
  idle h := by cases h
  shut := by simp [State.init, MasterPc.Ended]
  told := by simp [State.init, MasterPc.Told]
  exiting := by simp [State.init]
  quit h := by cases h
  one := by simp [State.init]
  first h := h.elim

theorem MasterPc.Told.ended {m : MasterPc α} (h : m.Told) : m.Ended := by
  cases m with
  | reading => exact h.elim
  | forked pid c => exact h.elim
  | stopping => exact h.elim
  | signalling => trivial
  | done => trivial

theorem Ended.step {e : Event} (h : Ended s) (hg : Routed s) (hr : Registered s) (hs : Step s e s') :
    Ended s' := by
  cases hs with
  | call ht hshut hi =>
    unfold masterForkInsert at hi
    split_ifs at hi
    cases hi
    refine { h with idle := fun hsh => ?_ }
    exact absurd (hshut.symm.trans hsh) Bool.false_ne_true
  | @caller _ t hi =>
    have hact : (s.caller t).Active := by
      rcases masterForkExec_cases hi with ⟨sid, rest, st, hpc, -⟩ | ⟨c, st, hpc, -⟩ <;> rw [hpc] <;> trivial
    have hnot : s.shut ≠ true := fun hsh => h.idle hsh t hact
    rcases masterForkExec_cases hi with ⟨sid, rest, st, -, rfl⟩ | ⟨c, st, -, rfl⟩
    · refine { h with idle := fun hsh => absurd hsh hnot, shut := ?_, one := ?_, first := ?_ }
      · rw [List.mem_append]
        simpa using h.shut
      · simpa [List.count_append] using h.one
      · intro hm
        simpa using h.first hm
    · exact { h with idle := fun hsh => absurd hsh hnot }
  | master hpid hi =>
    rcases masterForkLoop_cases hi with ⟨l, hm, hl, rfl⟩ | ⟨c, l, hm, hl, rfl⟩ | ⟨q, c, hm, rfl⟩ |
      ⟨hm, rfl⟩ | ⟨hm, rfl⟩
    · have hone := h.one
      rw [hl, List.count_cons_self] at hone
      refine { h with shut := ?_, told := ?_, exiting := ?_, one := ?_, first := ?_ }
      · refine iff_of_true (h.shut.2 (.inl ?_)) (.inr trivial)
        rw [hl]
        exact List.mem_cons_self
      · simpa [hm, MasterPc.Told] using h.told
      · simpa [hm] using h.exiting
      · show l.count none ≤ 1
        omega
      · intro _ (hmem : none ∈ l)
        have := List.count_pos_iff.2 hmem
        omega
    · refine { h with shut := ?_, told := ?_, exiting := ?_, one := ?_, first := fun hm => hm.elim }
      · simpa [hm, hl, MasterPc.Ended] using h.shut
      · simpa [hm, MasterPc.Told] using h.told
      · simpa [hm] using h.exiting
      · simpa [hl] using h.one
    · refine { h with shut := ?_, told := ?_, exiting := ?_, first := fun hm => hm.elim }
      · simpa [hm, MasterPc.Ended] using h.shut
      · simpa [hm, MasterPc.Told] using h.told
      · simpa [hm] using h.exiting
    · refine { h with shut := ?_, told := ?_, exiting := ?_, first := fun _ => h.first ?_ }
      · simpa [hm, MasterPc.Ended] using h.shut
      · refine iff_of_true trivial (.inl ?_)
        simp
      · simpa [hm] using h.exiting
      · rw [hm]
        trivial
    · refine { h with
        shut := ?_, told := ?_, exiting := iff_of_true rfl rfl, first := fun _ => h.first ?_
        quit := fun _ => rfl }
      · simpa [hm, MasterPc.Ended] using h.shut
      · simpa [hm, MasterPc.Told] using h.told
      · rw [hm]
        trivial
  | exit hc => exact { h with }
  | waiter hi =>
    rcases childWaiter_cases hi with ⟨-, hexit, rfl⟩ | ⟨-, -, -, rfl⟩ | ⟨-, -, rfl⟩ | ⟨pid, st, c, -, -, rfl⟩ |
      ⟨pid, st, c, -, -, rfl⟩ | ⟨pid, st, c, sid, -, -, rfl⟩ | ⟨sid, st, c, -, rfl⟩
    · exact { h with quit := fun _ => hexit }
    all_goals refine { h with quit := nofun, told := ?_ }
    all_goals simpa using h.told
  | notifier hi =>
    rcases hg.notifier_cases hr hi with ⟨l, hl, rfl⟩ | ⟨m, l, t, -, hl, -, -, hpc, rfl⟩
    · refine { h with told := iff_of_true (h.told.2 (.inl ?_)) (.inr rfl) }
      rw [hl]
      exact List.mem_cons_self
    · have hact : (s.caller t).Active := by
        rw [hpc]
        trivial
      refine { h with idle := fun hsh => absurd hact (h.idle hsh t), told := ?_ }
      simpa [hl] using h.told
  | shutdown ht hshut =>
    have hnot : ¬ (none ∈ s.toMaster ∨ s.master.Ended) := by
      rw [← h.shut, hshut]
      exact Bool.false_ne_true
    rw [not_or] at hnot
    refine { h with idle := fun _ => ht, shut := ?_, one := ?_, first := ?_ }
    · refine iff_of_true rfl (.inl ?_)
      simp
    · simp [List.count_append, List.count_eq_zero.2 hnot.1]
    · intro hm
      exact absurd hm hnot.2

/-! ### Every state that can be reached -/

/-- What holds in every state. -/
structure Inv (s : State T α) : Prop where
  registered : Registered s
  routed : Routed s
  witnessed : Witnessed s
  ended : Ended s

theorem Inv.init : Inv (State.init : State T α) := ⟨.init, .init, .init, .init⟩

theorem Inv.step {e : Event} (h : Inv s) (hs : Step s e s') : Inv s' where
  registered := h.registered.step hs
  routed := h.routed.step h.registered hs
  witnessed := h.witnessed.step h.routed h.registered hs
  ended := h.ended.step h.routed h.registered hs

theorem Inv.of_run {tr : List Event} (h : Run Step State.init tr s) : Inv s :=
  h.invariant (I := fun _ s => Inv s) .init fun _ _ _ _ _ hi hs => hi.step hs

/-- A call that returns has the status of the child that was forked for it, and it has only one. The
thread that hands the statuses out always finds whom they are for, and there is always a child to wait
for. -/
theorem own_status {tr : List Event} (h : Run Step State.init tr s) :
    (∀ t c st, s.caller t = .returned c st → (c, st) ∈ s.exits) ∧
      (s.exits.map fun x => x.1.num).Nodup ∧ s.notifier ≠ .lost ∧ s.waiter ≠ .failed := by
  have hi := Inv.of_run h
  refine ⟨fun t c st hc => hi.witnessed.got t c st (.inr hc), ?_, hi.routed.notifier, hi.registered.waiter⟩
  have hnodup := hi.witnessed.once
  rw [List.map_append, List.map_map] at hnodup
  exact (List.nodup_append.1 hnodup).1

theorem own_status_three : ∃ s : State Unit Unit, s.caller () = .returned ⟨0, 7, ()⟩ 3 ∧
    (⟨0, 7, ()⟩, 3) ∈ s.exits :=
  have hfork := ((Run.nil : Run Step (State.init : State Unit Unit) [] State.init).snoc
    (.call (t := ()) (n := 7) (r := ()) id rfl rfl)).snoc (.caller (t := ()) rfl) |>.snoc
    (.master (p := 5) (List.not_mem_nil) rfl) |>.snoc (.master (p := 6) (by decide) rfl)
  have hexit := hfork.snoc (.waiter (p := 5) rfl) |>.snoc
    (.exit (l := []) (m := []) (n := 3) rfl) |>.snoc
    (.waiter (p := 5) rfl)
  have hback := hexit.snoc (.waiter (p := 5) rfl) |>.snoc
    (.waiter (p := 5) rfl) |>.snoc (.notifier rfl) |>.snoc (.caller (t := ()) rfl)
  ⟨_, rfl, (own_status hback).1 () _ _ rfl⟩

end

end

end Metatup.MasterFork
