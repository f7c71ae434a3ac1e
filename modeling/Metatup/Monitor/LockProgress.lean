import Metatup.Monitor.TriLock

/-!
# Nobody waits for a lock for ever

Apart from new processes, timeouts and signals, every step leaves less to do: a process has so many
lines of `tup_lock_init` and `tup_lock_exit` left, an event on the object lock file sends the monitor
once around a part of its loop.

* `Busy`: a step of somebody who has something to do.
* `State.left`: how much there is left to do.
* `lock_progress`: everybody gets through.

There is one exception. The process that has forked the monitor polls for the object lock being taken.
If the monitor takes it and lets go of it again between two polls, it polls for ever.
-/

namespace Metatup.TriLock

open Lib

/-- A step of a process that is in the lock, or of the monitor. -/
inductive Busy : State → Event → State → Prop
  | proc {s s' : State} {e : Event} {p : ℕ} (hpc : s.pc p ≠ .out)
    (h : procStep s p = some (e, s')) : Busy s e s'
  | monitor {s s' : State} {e : Event} (h : monitorStep s = some (e, s')) : Busy s e s'

theorem Busy.step {s s' : State} {e : Event} (h : Busy s e s') : Step s e s' := by
  cases h with
  | proc _ h => exact .proc h
  | monitor h => exact .monitor h

/-! ### How much is left -/

/-- An event that is still to come counts ten. -/
def ProcPc.left : ProcPc → ℕ
  | .out => 0
  | .shared => 30
  | .waiting => 19
  | .inside => 18
  | .leaving => 17
  | .handover => 8
  | .handoverWait => 7
  | .closed => 6
  | .tri => 5
  | .last => 4

def MonPc.left : MonPc → ℕ
  | .gone | .on => 0
  | .flush | .scan => 1
  | .unshare | .reacquire | .reload => 2
  | .triRelease => 3
  | .objWait => 4
  | .off => 6
  | .release => 7
  | .triWait => 8
  | .opened => 9
  | .retry => 40
  | .retryShared => 29
  | .retryOpen => 28
  | .retryObj => 17
  | .retryDrain => 16
  | .quitObj | .quitOff => 5
  | .quitTri => 4
  | .quitRelease => 3

def State.left (s : State) : ℕ := s.holder.left + s.mon.left + 10 * s.events.length

theorem length_post_le (events : List FileEvent) (e : FileEvent) :
    (post events e).length ≤ events.length + 1 := by
  unfold post
  split_ifs <;> simp

section

variable {s s' : State} {e : Event} {p : ℕ}

theorem Inv.left_lt_of_procStep (h : Inv s) (hpc : s.pc p ≠ .out)
    (hs : procStep s p = some (e, s')) : s'.left < s.left := by
  have hsh := h.shLock_of_ne hpc
  have hho := h.holder_of_ne hpc
  have hlen := length_post_le s.events
  unfold State.left
  rw [hho]
  cases hpc' : s.pc p with
  | out => exact absurd hpc' hpc
  | last =>
    simp only [procStep, hpc', Option.some.injEq, Prod.mk.injEq] at hs
    obtain ⟨-, rfl⟩ := hs
    rw [holder_of_free (.inl (by simp [State.goto, tupUnflock, hsh]))]
    simp [State.goto, ProcPc.left]
  | handoverWait =>
    simp only [procStep, hpc', Option.ite_none_left_eq_some, Option.some.injEq, Prod.mk.injEq] at hs
    obtain ⟨-, -, rfl⟩ := hs
    rw [holder_goto (by exact hsh)]
    simp [State.goto, ProcPc.left]
  | shared =>
    simp only [procStep, hpc', Option.some.injEq, Prod.mk.injEq] at hs
    obtain ⟨-, rfl⟩ := hs
    rw [holder_goto (by exact hsh)]
    have := hlen .opened
    simp only [State.goto, ProcPc.left]
    omega
  | leaving =>
    simp only [procStep, hpc', Option.some.injEq, Prod.mk.injEq] at hs
    obtain ⟨-, rfl⟩ := hs
    rw [holder_goto (by exact hsh)]
    have := hlen .closed
    simp only [State.goto, ProcPc.left]
    omega
  | waiting | closed =>
    simp only [procStep, hpc', Option.map_eq_some_iff, Prod.mk.injEq] at hs
    obtain ⟨l, -, -, rfl⟩ := hs
    rw [holder_goto (by exact hsh)]
    simp [State.goto, ProcPc.left]
  | inside | tri | handover =>
    simp only [procStep, hpc', Option.some.injEq, Prod.mk.injEq] at hs
    obtain ⟨-, rfl⟩ := hs
    rw [holder_goto (by exact hsh)]
    simp [State.goto, ProcPc.left]

theorem holder_monitorStep (hs : monitorStep s = some (e, s')) : s'.holder = s.holder := by
  have hdrop : ∀ t : State, t.shLock = tupUnflock s.shLock .monitor → t.pc = s.pc →
      t.holder = s.holder := by
    intro t ht hpc
    unfold State.holder
    rw [ht, hpc]
    unfold tupUnflock
    split_ifs with h
    · rw [h]
    · rfl
  have hsame : ∀ t : State, t.shLock = s.shLock → t.pc = s.pc → t.holder = s.holder := by
    intro t ht hpc
    unfold State.holder
    rw [ht, hpc]
  cases hm : s.mon with
  | gone => simp [monitorStep, hm] at hs
  | on | off =>
    cases he : s.events with
    | nil => simp [monitorStep, hm, he] at hs
    | cons x events =>
      cases x <;> simp only [monitorStep, hm, he, Option.some.injEq, Prod.mk.injEq] at hs <;>
        obtain ⟨-, rfl⟩ := hs <;> exact hsame _ rfl rfl
  | unshare | retry | quitRelease =>
    simp only [monitorStep, hm, Option.some.injEq, Prod.mk.injEq] at hs
    obtain ⟨-, rfl⟩ := hs
    exact hdrop _ rfl rfl
  | retryShared =>
    simp only [monitorStep, hm, Option.map_eq_some_iff, Prod.mk.injEq] at hs
    obtain ⟨l, hl, -, rfl⟩ := hs
    obtain ⟨hfree, rfl⟩ := tupFlock_eq_some.1 hl
    rw [holder_of_free hfree]
    rfl
  | scan | flush | opened | release | triRelease | reload | retryOpen | retryDrain | quitObj =>
    simp only [monitorStep, hm, Option.some.injEq, Prod.mk.injEq] at hs
    obtain ⟨-, rfl⟩ := hs
    exact hsame _ rfl rfl
  | reacquire | triWait | objWait | retryObj | quitOff | quitTri =>
    simp only [monitorStep, hm, Option.map_eq_some_iff, Prod.mk.injEq] at hs
    obtain ⟨l, -, -, rfl⟩ := hs
    exact hsame _ rfl rfl

theorem left_lt_of_monitorStep (hs : monitorStep s = some (e, s')) : s'.left < s.left := by
  have hlen := length_post_le s.events
  unfold State.left
  rw [holder_monitorStep hs]
  cases hm : s.mon with
  | gone => simp [monitorStep, hm] at hs
  | on | off =>
    cases he : s.events with
    | nil => simp [monitorStep, hm, he] at hs
    | cons x events =>
      cases x <;> simp only [monitorStep, hm, he, Option.some.injEq, Prod.mk.injEq] at hs <;>
        obtain ⟨-, rfl⟩ := hs <;> simp only [MonPc.left, List.length_cons] <;> omega
  | retry =>
    simp only [monitorStep, hm, Option.some.injEq, Prod.mk.injEq] at hs
    obtain ⟨-, rfl⟩ := hs
    have := hlen .closed
    simp only [MonPc.left]
    omega
  | retryOpen =>
    simp only [monitorStep, hm, Option.some.injEq, Prod.mk.injEq] at hs
    obtain ⟨-, rfl⟩ := hs
    have := hlen .opened
    simp only [MonPc.left]
    omega
  | unshare | scan | flush | opened | release | triRelease | reload | retryDrain | quitObj |
    quitRelease =>
    simp only [monitorStep, hm, Option.some.injEq, Prod.mk.injEq] at hs
    obtain ⟨-, rfl⟩ := hs
    simp only [MonPc.left, List.length_nil]
    omega
  | reacquire | triWait | objWait | retryShared | retryObj | quitOff | quitTri =>
    simp only [monitorStep, hm, Option.map_eq_some_iff, Prod.mk.injEq] at hs
    obtain ⟨l, -, -, rfl⟩ := hs
    simp only [MonPc.left]
    omega

end

/-- Steps of those who have something to do come to an end. -/
def busyTerminating : Terminating Busy Inv where
  M := ℕ
  lt := (· < ·)
  wf := Nat.lt_wfRel.wf
  m := State.left
  keeps _ _ _ h hs := h.step hs.step
  decreases _ _ _ h hs := by
    cases hs with
    | proc hpc hs => exact h.left_lt_of_procStep hpc hs
    | monitor hs => exact left_lt_of_monitorStep hs

/-! ### Where it ends -/

section

variable {s : State} {p : ℕ}

theorem tupFlock_eq_none {lock : Option Party} {a : Party} :
    tupFlock lock a = none ↔ ¬ (lock = none ∨ lock = some a) := by
  unfold tupFlock
  split_ifs with h <;> simp [h]

theorem monitorStep_eq_none : monitorStep s = none ↔
    (s.mon = .gone ∨ (s.mon = .on ∨ s.mon = .off) ∧ s.events = []) ∨
      ((s.mon = .reacquire ∨ s.mon = .objWait ∨ s.mon = .retryObj) ∧
        ¬ (s.objLock = none ∨ s.objLock = some .monitor)) ∨
      ((s.mon = .triWait ∨ s.mon = .quitOff ∨ s.mon = .quitTri) ∧
        ¬ (s.triLock = none ∨ s.triLock = some .monitor)) ∨
      (s.mon = .retryShared ∧ ¬ (s.shLock = none ∨ s.shLock = some .monitor)) := by
  cases hm : s.mon with
  | on | off => cases he : s.events with
    | nil => simp [monitorStep, hm, he]
    | cons x events => cases x <;> simp [monitorStep, hm, he]
  | _ => simp [monitorStep, hm, tupFlock_eq_none, not_or]

/-- A lock that the monitor has to wait for is the process's that is in the lock. -/
theorem Owned.pc_of_held {m : MonPc → Prop} {q : ProcPc → Prop} {lock : Option Party}
    (h : Owned m q lock s.pc s.mon) (hheld : ¬ (lock = none ∨ lock = some .monitor)) :
    ∃ r, q (s.pc r) := by
  rw [not_or] at hheld
  obtain ⟨c, hc⟩ := Option.ne_none_iff_exists'.1 hheld.1
  cases c with
  | monitor => exact absurd hc hheld.2
  | proc r => exact ⟨r, (h.2 r).2 hc⟩

/-- The monitor has stopped, at its `select` or for good, when it and everybody else can do nothing. -/
theorem Inv.halted (h : Inv s) (hno : ∀ e s', ¬ Busy s e s') :
    ((∀ p, s.pc p = .out) ∧ (s.mon = .gone ∨ s.mon = .on ∧ s.events = [])) ∨
      ∃ p, s.pc p = .handoverWait ∧ s.objLock = none := by
  have hmon : monitorStep s = none :=
    Option.eq_none_iff_forall_ne_some.2 fun r hm => hno r.1 r.2 (.monitor hm)
  have hproc : ∀ p, s.pc p ≠ .out → procStep s p = none := fun p hp =>
    Option.eq_none_iff_forall_ne_some.2 fun r hs => hno r.1 r.2 (.proc hp hs)
  have hf := h.fits
  by_cases hall : ∀ p, s.pc p = .out
  · refine .inl ⟨hall, ?_⟩
    have hout : s.holder = .out := by
      unfold State.holder
      split
      · exact hall _
      · rfl
    have hfree : ∀ {m : MonPc → Prop} {q : ProcPc → Prop} {lock : Option Party},
        Owned m q lock s.pc s.mon → ¬ q .out → lock = none ∨ lock = some .monitor := by
      intro m q lock hl hq
      by_contra hheld
      obtain ⟨r, hr⟩ := hl.pc_of_held hheld
      rw [hall r] at hr
      exact hq hr
    rcases monitorStep_eq_none.1 hmon with (hm | ⟨hm | hm, he⟩) | ⟨-, hheld⟩ | ⟨-, hheld⟩ | ⟨-, hheld⟩
    · exact .inl hm
    · exact .inr ⟨hm, he⟩
    · rw [hm, hout] at hf
      exact hf.elim
    · exact absurd (hfree h.obj id) hheld
    · exact absurd (hfree h.tri id) hheld
    · exact absurd (hfree h.shared id) hheld
  · obtain ⟨p, hp⟩ := not_forall.1 hall
    have hblocked := hproc p hp
    rw [h.holder_of_ne hp] at hf
    cases hpc : s.pc p with
    | waiting =>
      simp only [procStep, hpc, Option.map_eq_none_iff, tupFlock_eq_none] at hblocked
      have hobj := h.mon_of_held h.obj id hp hblocked
      rw [hpc] at hf
      rcases monitorStep_eq_none.1 hmon with (hm | ⟨hm | hm, he⟩) | ⟨hm, -⟩ | ⟨hm, hheld⟩ | ⟨hm, -⟩
      · exact absurd hobj (by rw [hm]; exact id)
      · rw [hm, he] at hf
        cases hf
      · exact absurd hobj (by rw [hm]; exact id)
      · exact absurd hobj (by rcases hm with hm | hm | hm <;> rw [hm] <;> exact id)
      · obtain ⟨r, hr⟩ := h.tri.pc_of_held hheld
        rw [h.eq_of_ne (p := r) (fun hout => by rw [hout] at hr; exact hr) hp, hpc] at hr
        exact hr.elim
      · exact absurd hobj (by rw [hm]; exact id)
    | closed =>
      simp only [procStep, hpc, Option.map_eq_none_iff, tupFlock_eq_none] at hblocked
      have htri := h.mon_of_held h.tri id hp hblocked
      rw [hpc] at hf
      rcases monitorStep_eq_none.1 hmon with (hm | ⟨hm | hm, he⟩) | ⟨-, hheld⟩ | ⟨-, hheld⟩ | ⟨hm, -⟩
      · exact absurd htri (by rw [hm]; exact id)
      · exact absurd htri (by rw [hm]; exact id)
      · rw [hm, he] at hf
        cases hf
      · obtain ⟨r, hr⟩ := h.obj.pc_of_held hheld
        rw [h.eq_of_ne (p := r) (fun hout => by rw [hout] at hr; exact hr) hp, hpc] at hr
        exact hr.elim
      · exact absurd (.inr (h.tri.1.1 htri)) hheld
      · exact absurd htri (by rw [hm]; exact id)
    | handoverWait =>
      simp only [procStep, hpc, ite_eq_left_iff, reduceCtorEq, imp_false, not_not] at hblocked
      refine .inr ⟨p, hpc, hblocked.resolve_right fun hobj => ?_⟩
      have := (h.obj.2 p).2 hobj
      rw [hpc] at this
      exact this
    | out => exact absurd hpc hp
    | _ => simp [procStep, hpc] at hblocked

end

end Metatup.TriLock
