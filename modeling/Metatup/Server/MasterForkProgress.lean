import Mathlib.Algebra.BigOperators.Fin
import Metatup.Server.MasterFork

/-!
# Every call returns, or a child is lost

The waiter looks up the pid of a child that has exited in a tree where the master puts it after it has
forked. It may look too early, when another child was already there to be waited for and the new one
exits at once. Then it returns, and nobody waits for children from then on.

* `Busy`: a step of somebody who has something to do. Children exit at some time.
* `calls_return`: without such a child every call returns, and so does the end.
* `lost_race`: when a child is lost, and that its call never returns.
-/

set_option linter.unusedSectionVars false

namespace Metatup.MasterFork

open Lib

variable {T α : Type*} [DecidableEq T] [DecidableEq α]

/-- A step that is neither a new call nor the call for the end. -/
inductive Busy : State T α → Event → State T α → Prop
  | of {s s' : State T α} {e : Event} (h : Step s e s') (hcall : e ≠ .call) (hshut : e ≠ .shutdown) :
    Busy s e s'

/-! ### How much is left -/

def CallerPc.left : CallerPc α → ℕ
  | .inserted _ _ _ => 20
  | .waiting _ (some _) => 1
  | _ => 0

def MasterPc.left : MasterPc α → ℕ
  | .forked _ _ => 1
  | .stopping => 3
  | .signalling => 1
  | .reading | .done => 0

def WaiterPc.left : WaiterPc α → ℕ
  | .cond => 1
  | .reaped _ _ _ => 6
  | .found _ _ _ => 5
  | _ => 0

/-- A message to the master. -/
def callLeft : Option (Call α) → ℕ
  | none => 4
  | some _ => 12

/-- A message to the notifier. -/
def rcLeft : Option (RcMsg α) → ℕ
  | none => 1
  | some _ => 3

def Child.left (k : Child α) : ℕ := if k.status = none then 10 else 8

def State.left [Fintype T] (s : State T α) : ℕ :=
  ∑ t, (s.caller t).left + (s.toMaster.map callLeft).sum + s.master.left +
    (s.children.map Child.left).sum + s.waiter.left + (s.toMain.map rcLeft).sum

section

variable [Fintype T] {s s' : State T α}

theorem sum_left_update (f : T → CallerPc α) (t : T) (pc : CallerPc α) :
    ∑ u, (Function.update f t pc u).left + (f t).left = ∑ u, (f u).left + pc.left := by
  have hcongr : ∑ u ∈ Finset.univ.erase t, (Function.update f t pc u).left =
      ∑ u ∈ Finset.univ.erase t, (f u).left := by
    refine Finset.sum_congr rfl fun u hu => ?_
    rw [Function.update_of_ne (Finset.ne_of_mem_erase hu)]
  rw [← Finset.add_sum_erase _ _ (Finset.mem_univ t), ← Finset.add_sum_erase _ (fun u => (f u).left)
    (Finset.mem_univ t), hcongr, Function.update_self]
  omega

theorem left_lt_of_masterForkExec {t : T} (hs : masterForkExec s t = some s') : s'.left < s.left := by
  unfold State.left
  rcases masterForkExec_cases hs with ⟨sid, rest, st, hpc, rfl⟩ | ⟨c, st, hpc, rfl⟩
  · have hsum := sum_left_update s.caller t (.waiting ⟨s.written, sid, rest⟩ st)
    have hle : (CallerPc.waiting ⟨s.written, sid, rest⟩ st).left ≤ 1 := by
      cases st <;> simp [CallerPc.left]
    rw [hpc] at hsum
    simp only [CallerPc.left, List.map_append, List.map_cons, List.map_nil, List.sum_append,
      List.sum_cons, List.sum_nil, callLeft] at hsum hle ⊢
    omega
  · have hsum := sum_left_update s.caller t (.returned c st)
    have hold : (s.caller t).left = 1 := by
      rw [hpc]
      rfl
    have hnew : (CallerPc.returned c st).left = 0 := rfl
    rw [hold, hnew] at hsum
    dsimp only
    omega

theorem left_lt_of_masterForkLoop {pid : ℕ} (hs : masterForkLoop s pid = some s') :
    s'.left < s.left := by
  unfold State.left
  rcases masterForkLoop_cases hs with ⟨l, hm, hl, rfl⟩ | ⟨c, l, hm, hl, rfl⟩ | ⟨q, c, hm, rfl⟩ |
    ⟨hm, rfl⟩ | ⟨hm, rfl⟩
  · simp only [hm, hl, MasterPc.left, List.map_cons, List.sum_cons, callLeft]
    omega
  · simp only [hm, hl, MasterPc.left, List.map_cons, List.sum_cons, callLeft, List.map_append,
      List.map_nil, List.sum_append, List.sum_nil, Child.left, if_true]
    omega
  · simp only [hm, MasterPc.left]
    omega
  · simp only [hm, MasterPc.left, List.map_cons, List.sum_cons, List.map_append, List.map_nil,
      List.sum_append, List.sum_nil, rcLeft]
    omega
  · simp only [hm, MasterPc.left]
    omega

theorem Inv.left_lt_of_childWaiter (h : Inv s) {p : ℕ} (hs : childWaiter s p = some s') :
    s'.left < s.left := by
  unfold State.left
  rcases childWaiter_cases hs with ⟨hw, -, rfl⟩ | ⟨hw, -, -, rfl⟩ | ⟨hw, hnil, -⟩ | ⟨pid, st, c, hw, hk, rfl⟩ |
    ⟨pid, st, c, hw, -, rfl⟩ | ⟨pid, st, c, sid, hw, -, rfl⟩ | ⟨sid, st, c, hw, rfl⟩
  · simp only [hw, WaiterPc.left]
    omega
  · simp only [hw, WaiterPc.left]
    omega
  · exact absurd hnil (h.registered.children_ne_nil hw)
  · have hsum := ((List.perm_cons_erase hk).map Child.left).sum_eq
    have hleft : (⟨pid, c, some st⟩ : Child α).left = 8 := rfl
    simp only [List.map_cons, List.sum_cons, hleft] at hsum
    simp only [hw, WaiterPc.left]
    omega
  · simp only [hw, WaiterPc.left]
    omega
  · simp only [hw, WaiterPc.left]
    omega
  · simp only [hw, WaiterPc.left, List.map_cons, List.sum_cons, List.map_append, List.map_nil,
      List.sum_append, List.sum_nil, rcLeft]
    omega

theorem Inv.left_lt_of_childWaitNotifier (h : Inv s) (hs : childWaitNotifier s = some s') :
    s'.left < s.left := by
  unfold State.left
  rcases h.routed.notifier_cases h.registered hs with ⟨l, hl, rfl⟩ | ⟨m, l, t, -, hl, -, -, -, rfl⟩
  · simp only [hl, List.map_cons, List.sum_cons, rcLeft]
    omega
  · have hsum := sum_left_update s.caller t (.waiting m.call (some m.status))
    have hleft : (CallerPc.waiting m.call (some m.status)).left = 1 := rfl
    rw [hleft] at hsum
    simp only [hl, List.map_cons, List.sum_cons, rcLeft]
    omega

theorem Inv.left_lt (h : Inv s) {e : Event} (hs : Busy s e s') : s'.left < s.left := by
  obtain ⟨hs, hcall, hshut⟩ := hs
  cases hs with
  | call => exact absurd rfl hcall
  | shutdown => exact absurd rfl hshut
  | caller hi => exact left_lt_of_masterForkExec hi
  | master hpid hi => exact left_lt_of_masterForkLoop hi
  | exit hc =>
    unfold State.left
    simp only [hc, List.map_append, List.map_cons, List.sum_append, List.sum_cons, Child.left, if_true,
      reduceCtorEq, if_false]
    omega
  | waiter hi => exact h.left_lt_of_childWaiter hi
  | notifier hi => exact h.left_lt_of_childWaitNotifier hi

end

theorem Busy.step {s s' : State T α} {e : Event} (h : Busy s e s') : Step s e s' := by
  cases h with
  | of h => exact h

/-- Whoever has something to do has done it at some time. -/
def busyTerminating [Fintype T] : Terminating (Busy (T := T) (α := α)) Inv where
  M := ℕ
  lt := (· < ·)
  wf := Nat.lt_wfRel.wf
  m := State.left
  keeps _ _ _ h hs := h.step hs.step
  decreases _ _ _ h hs := h.left_lt hs

/-! ### Where it ends -/

section

variable {s : State T α}

/-- A pid that no process has. -/
theorem exists_pid (s : State T α) : ∃ pid, pid ∉ s.pids.map Prod.fst :=
  Infinite.exists_notMem_finset (s.pids.map Prod.fst).toFinset |>.imp fun pid h => by simpa using h

theorem master_of_halted (hno : ∀ e s', ¬ Busy s e s') :
    s.master = .done ∨ s.master = .reading ∧ s.toMaster = [] := by
  obtain ⟨pid, hpid⟩ := exists_pid s
  have hnone : masterForkLoop s pid = none := Option.eq_none_iff_forall_ne_some.2 fun s' hs =>
    hno _ s' (.of (.master hpid hs) (by simp) (by simp))
  unfold masterForkLoop at hnone
  cases hm : s.master with
  | reading =>
    rw [hm] at hnone
    cases hl : s.toMaster with
    | nil => exact .inr ⟨rfl, rfl⟩
    | cons x l => cases x <;> simp [hl] at hnone
  | done => exact .inl rfl
  | _ => simp [hm] at hnone

theorem childWaiter_eq_none (hnone : ∀ pid, childWaiter s pid = none) :
    s.waiter = .quit ∨ s.waiter = .failed ∨ (∃ pid c, s.waiter = .lost pid c) ∨
      (s.waiter = .cond ∧ s.exiting = false ∧ s.childWaiterRoot.entries = []) ∨
      s.waiter = .wait ∧ s.children ≠ [] ∧ ∀ k ∈ s.children, k.status = none := by
  cases hw : s.waiter with
  | quit => exact .inl rfl
  | failed => exact .inr (.inl rfl)
  | lost pid c => exact .inr (.inr (.inl ⟨pid, c, rfl⟩))
  | cond =>
    refine .inr (.inr (.inr (.inl ⟨rfl, ?_⟩)))
    have h := hnone 0
    simp only [childWaiter, hw] at h
    split_ifs at h with hexit hempty
    exact ⟨by simpa using hexit, by simpa using hempty⟩
  | wait =>
    have hne : s.children ≠ [] := by
      intro hnil
      simpa [childWaiter, hw, hnil] using hnone 0
    refine .inr (.inr (.inr (.inr ⟨rfl, hne, fun k hk => ?_⟩)))
    have h := hnone k.pid
    simp only [childWaiter, hw, List.isEmpty_iff, hne, if_false] at h
    by_contra hst
    obtain ⟨x, hx⟩ : ∃ x, s.children.find? (fun x => x.pid = k.pid && x.status.isSome) = some x := by
      rw [← Option.isSome_iff_exists, List.find?_isSome]
      exact ⟨k, hk, by simpa [Option.isSome_iff_ne_none] using hst⟩
    have hsome := List.find?_some hx
    obtain ⟨p, c, status⟩ := x
    rw [hx] at h
    cases status with
    | none => simp at hsome
    | some st => cases h
  | reaped pid st c =>
    have h := hnone 0
    simp only [childWaiter, hw] at h
    split at h <;> cases h
  | found sid st c =>
    have h := hnone 0
    simp only [childWaiter, hw] at h
    cases h

theorem childWaitNotifier_eq_none (hnone : childWaitNotifier s = none) :
    s.notifier = .quit ∨ s.notifier = .lost ∨ s.toMain = [] := by
  unfold childWaitNotifier at hnone
  split at hnone
  · cases hnone
  · split at hnone <;> cases hnone
  · rename_i hcons hnil
    cases hn : s.notifier with
    | quit => exact .inl rfl
    | lost => exact .inr (.inl rfl)
    | reading =>
      refine .inr (.inr ?_)
      cases hl : s.toMain with
      | nil => rfl
      | cons x l =>
        cases x with
        | none => exact absurd hl (hcons l hn)
        | some m => exact absurd hl (hnil m l hn)

/-- Where the waiter stops, unless it has lost a child. -/
theorem Inv.waiter_of_halted (h : Inv s) (hno : ∀ e s', ¬ Busy s e s')
    (hlost : ∀ pid c, s.waiter ≠ .lost pid c) :
    s.waiter = .quit ∨ s.exiting = false ∧ s.children = [] ∧ s.waiter.calls = [] := by
  have hnone : ∀ pid, childWaiter s pid = none := fun pid =>
    Option.eq_none_iff_forall_ne_some.2 fun s' hs => hno _ s' (.of (.waiter hs) (by simp) (by simp))
  rcases childWaiter_eq_none hnone with hw | hw | ⟨pid, c, hw⟩ | ⟨hw, hexit, htree⟩ | ⟨hw, hne, hdead⟩
  · exact .inl hw
  · exact absurd hw h.registered.waiter
  · exact absurd hw (hlost pid c)
  · refine .inr ⟨hexit, ?_, by rw [hw]; rfl⟩
    -- a child is in the tree, since the master has nothing to do
    rw [List.eq_nil_iff_forall_not_mem]
    intro k hk
    have hmem : (k.pid, k.call.sid) ∈ s.pids :=
      List.mem_append_right _ (List.mem_map.2 ⟨k, hk, rfl⟩)
    rcases h.registered.registered _ hmem with hl | ⟨c, hm, -⟩
    · have := AList.lookup_isSome.1 (Option.isSome_of_eq_some hl)
      rw [AList.mem_keys, AList.keys, htree] at this
      cases this
    · rcases master_of_halted hno with hm' | ⟨hm', -⟩ <;> rw [hm] at hm' <;> cases hm'
  · obtain ⟨k, l, hl⟩ := List.exists_cons_of_ne_nil hne
    obtain ⟨pid, c, status⟩ := k
    obtain rfl : status = none := hdead _ (by rw [hl]; exact List.mem_cons_self)
    exact absurd (.of (.exit (l := []) (n := 0) hl) (by simp) (by simp)) (hno _ _)

theorem Inv.halted (h : Inv s) (hno : ∀ e s', ¬ Busy s e s')
    (hlost : ∀ pid c, s.waiter ≠ .lost pid c) :
    (∀ t, ¬ (s.caller t).Active) ∧
      (s.shut = true → s.master = .done ∧ s.waiter = .quit ∧ s.notifier = .quit) := by
  have hmaster := master_of_halted hno
  have hwaiter := h.waiter_of_halted hno hlost
  have hnotifier := childWaitNotifier_eq_none (Option.eq_none_iff_forall_ne_some.2 fun s' hs =>
    hno _ s' (.of (.notifier hs) (by simp) (by simp)))
  have hdone : s.master = .done → s.shut = true := by
    intro hm
    rw [h.ended.shut, hm]
    exact .inr trivial
  have hquit : s.waiter = .quit → s.shut = true := by
    intro hw
    exact hdone (h.ended.exiting.1 (h.ended.quit hw))
  have hquit' : s.notifier = .quit → s.shut = true := by
    intro hn
    exact h.ended.shut.2 (.inr (h.ended.told.2 (.inr hn)).ended)
  constructor
  · intro t ht
    have hshut : s.shut ≠ true := fun hsh => h.ended.idle hsh t ht
    have hempty : s.flight = [] := by
      rcases hmaster with hm | ⟨-, hm⟩
      · exact absurd (hdone hm) hshut
      rcases hwaiter with hw | ⟨-, hc, hw⟩
      · exact absurd (hquit hw) hshut
      rcases hnotifier with hn | hn | hn
      · exact absurd (hquit' hn) hshut
      · exact absurd hn h.routed.notifier
      · simp [State.flight, hm, hc, hw, hn]
    cases hpc : s.caller t with
    | inserted sid rest st =>
      have hs : masterForkExec s t ≠ none := by simp [masterForkExec, hpc]
      obtain ⟨s', hs⟩ := Option.ne_none_iff_exists'.1 hs
      exact hno _ s' (.of (.caller hs) (by simp) (by simp))
    | waiting c st =>
      cases st with
      | none =>
        have := (h.routed.pending c).2 ⟨t, hpc⟩
        rw [hempty] at this
        cases this
      | some st =>
        have hs : masterForkExec s t ≠ none := by simp [masterForkExec, hpc]
        obtain ⟨s', hs⟩ := Option.ne_none_iff_exists'.1 hs
        exact hno _ s' (.of (.caller hs) (by simp) (by simp))
    | idle => rw [hpc] at ht; exact ht
    | returned c st => rw [hpc] at ht; exact ht
  · intro hsh
    have hm : s.master = .done := by
      refine hmaster.resolve_right ?_
      rintro ⟨hm, hl⟩
      have := h.ended.shut.1 hsh
      rw [hm, hl] at this
      simp [MasterPc.Ended] at this
    have hexit : s.exiting = true := h.ended.exiting.2 hm
    refine ⟨hm, hwaiter.resolve_right ?_, ?_⟩
    · rintro ⟨hexit', -⟩
      rw [hexit] at hexit'
      cases hexit'
    · have htold := h.ended.told.1 (by rw [hm]; trivial)
      rcases htold with htold | htold
      · rcases hnotifier with hn | hn | hn
        · exact hn
        · exact absurd hn h.routed.notifier
        · rw [hn] at htold
          cases htold
      · exact htold

/-- The thread whose child is lost waits. -/
theorem Inv.waiting_of_lost (h : Inv s) {pid : ℕ} {c : Call α} (hw : s.waiter = .lost pid c) :
    ∃ t, s.caller t = .waiting c none := by
  refine (h.routed.pending c).1 ?_
  simp [State.flight, hw, WaiterPc.calls]

theorem waiter_of_lost {s' : State T α} {e : Event} {pid : ℕ} {c : Call α} (hw : s.waiter = .lost pid c)
    (hs : Step s e s') : s'.waiter = .lost pid c := by
  cases hs with
  | call ht hs hi =>
    unfold masterForkInsert at hi
    split_ifs at hi
    cases hi
    exact hw
  | caller hi => rcases masterForkExec_cases hi with ⟨_, _, _, -, rfl⟩ | ⟨_, _, -, rfl⟩ <;> exact hw
  | master hpid hi =>
    rcases masterForkLoop_cases hi with ⟨l, -, -, rfl⟩ | ⟨c, l, -, -, rfl⟩ | ⟨q, c, -, rfl⟩ |
      ⟨-, rfl⟩ | ⟨-, rfl⟩ <;> exact hw
  | exit hc => exact hw
  | waiter hi => simp [childWaiter, hw] at hi
  | notifier hi =>
    rcases childWaitNotifier_cases hi with ⟨l, -, -, rfl⟩ | ⟨m, l, -, -, -, rfl⟩ |
      ⟨m, l, t, -, -, -, rfl⟩ <;> exact hw
  | shutdown ht hs => exact hw

theorem Inv.caller_of_lost {s' : State T α} {e : Event} {pid : ℕ} {c : Call α} {t : T} (h : Inv s)
    (hw : s.waiter = .lost pid c) (ht : s.caller t = .waiting c none) (hs : Step s e s') :
    s'.caller t = .waiting c none := by
  have hupdate : ∀ {u : T} {pc : CallerPc α}, u ≠ t →
      Function.update s.caller u pc t = .waiting c none := by
    intro u pc hu
    rw [Function.update_of_ne (Ne.symm hu), ht]
  cases hs with
  | call hact hs hi =>
    unfold masterForkInsert at hi
    split_ifs at hi
    cases hi
    refine hupdate ?_
    rintro rfl
    rw [ht] at hact
    exact hact trivial
  | caller hi =>
    rcases masterForkExec_cases hi with ⟨_, _, _, hpc, rfl⟩ | ⟨_, _, hpc, rfl⟩
    all_goals
      refine hupdate ?_
      rintro rfl
      rw [ht] at hpc
      cases hpc
  | master hpid hi =>
    rcases masterForkLoop_cases hi with ⟨l, -, -, rfl⟩ | ⟨c, l, -, -, rfl⟩ | ⟨q, c, -, rfl⟩ |
      ⟨-, rfl⟩ | ⟨-, rfl⟩ <;> exact ht
  | exit hc => exact ht
  | waiter hi => simp [childWaiter, hw] at hi
  | notifier hi =>
    rcases h.routed.notifier_cases h.registered hi with ⟨l, -, rfl⟩ | ⟨m, l, u, hm, -, -, -, hpc, rfl⟩
    · exact ht
    · refine hupdate ?_
      rintro rfl
      rw [ht] at hpc
      have hmc : m.call = c := by
        cases hpc
        rfl
      -- the call would be on its way twice
      have hnodup := h.routed.nodup
      rw [State.flight, List.map_append, List.nodup_append] at hnodup
      refine hnodup.2.2 c.num ?_ c.num ?_ rfl
      · refine List.mem_map_of_mem (List.mem_append_right _ ?_)
        rw [hw]
        exact List.mem_singleton_self c
      · refine List.mem_map_of_mem ?_
        rw [← hmc]
        exact List.mem_map_of_mem (List.reduceOption_mem_iff.2 hm)
  | shutdown hact hs => exact ht

theorem Inv.lookup_eq_none (h : Inv s) {pid : ℕ} {st : ℤ} {c : Call α}
    (hw : s.waiter = .reaped pid st c) :
    s.childWaiterRoot.lookup pid = none ↔ ∃ c', s.master = .forked pid c' := by
  constructor
  · intro hl
    have hmem : (pid, c.sid) ∈ s.pids := by
      unfold State.pids
      rw [hw]
      exact List.mem_append_left _ (List.mem_singleton_self _)
    refine (h.registered.registered _ hmem).elim (fun hsome => ?_) fun ⟨c', hm, _⟩ => ⟨c', hm⟩
    rw [hl] at hsome
    cases hsome
  · rintro ⟨c', hm⟩
    exact AList.lookup_eq_none.2 (h.registered.fresh pid c' hm).2

end

/-- From every state that can be reached, there is only so much to do, and then every call has returned,
and after a call for the end so have all threads, or the waiter has lost a child. -/
theorem calls_return [Fintype T] {tr : List Event} {s : State T α} (h : Run Step State.init tr s) :
    (¬ ∃ (f : ℕ → State T α) (ev : ℕ → Event), f 0 = s ∧ ∀ n, Busy (f n) (ev n) (f (n + 1))) ∧
      ∀ tr' s', Run Busy s tr' s' → (∀ e s'', ¬ Busy s' e s'') →
        ((∀ t, ¬ (s'.caller t).Active) ∧
          (s'.shut = true → s'.master = .done ∧ s'.waiter = .quit ∧ s'.notifier = .quit)) ∨
        ∃ pid c, s'.waiter = .lost pid c := by
  have hi := Inv.of_run h
  constructor
  · rintro ⟨f, ev, rfl, hf⟩
    exact busyTerminating.not_infinite f ev hi hf
  · intro tr' s' hrun hno
    have hi' : Inv s' := hrun.invariant (I := fun _ s => Inv s) hi
      fun _ _ _ _ _ hi hs => hi.step hs.step
    by_cases hlost : ∃ pid c, s'.waiter = .lost pid c
    · exact .inr hlost
    · refine .inl (hi'.halted hno fun pid c hw => hlost ⟨pid, c, hw⟩)

theorem calls_return_called : ∃ s : State Unit Unit, s.caller () = .inserted 7 () none ∧
    ¬ ∃ (f : ℕ → State Unit Unit) (ev : ℕ → Event), f 0 = s ∧ ∀ n, Busy (f n) (ev n) (f (n + 1)) :=
  ⟨_, rfl, (calls_return (Run.nil.snoc (.call (t := ()) (n := 7) (r := ()) id rfl rfl))).1⟩

/-- The waiter loses a child exactly when it looks it up between the `fork` and the `thread_tree_insert`
of the master, and then the call that the child was forked for never returns. -/
theorem lost_race {tr : List Event} {s : State T α} (h : Run Step State.init tr s) :
    (∀ pid st c, s.waiter = .reaped pid st c →
      ((∃ p s', childWaiter s p = some s' ∧ s'.waiter = .lost pid c) ↔ ∃ c', s.master = .forked pid c')) ∧
      ∀ pid c, s.waiter = .lost pid c →
        ∃ t, ∀ tr' s', Run Step s tr' s' → s'.waiter = .lost pid c ∧ s'.caller t = .waiting c none := by
  have hi := Inv.of_run h
  constructor
  · intro pid st c hw
    rw [← hi.lookup_eq_none hw]
    constructor
    · rintro ⟨p, s', hs, hw'⟩
      unfold childWaiter at hs
      rw [hw] at hs
      cases hl : s.childWaiterRoot.lookup pid with
      | none => rfl
      | some sid =>
        simp only [hl, Option.some.injEq] at hs
        rw [← hs] at hw'
        cases hw'
    · intro hl
      exact ⟨0, { s with waiter := .lost pid c }, by simp only [childWaiter, hw, hl], rfl⟩
  · intro pid c hw
    obtain ⟨t, ht⟩ := hi.waiting_of_lost hw
    refine ⟨t, fun tr' s' hrun => ?_⟩
    have hkeep : Inv s' ∧ s'.waiter = .lost pid c ∧ s'.caller t = .waiting c none := by
      refine hrun.invariant (I := fun _ s => Inv s ∧ s.waiter = .lost pid c ∧ s.caller t = .waiting c none)
        ⟨hi, hw, ht⟩ ?_
      rintro tr m e m' - ⟨hm, hmw, hmt⟩ hs
      exact ⟨hm.step hs, waiter_of_lost hmw hs, hm.caller_of_lost hmw hmt hs⟩
    exact hkeep.2

/-- The master of two calls: the first child is there to be waited for, the second one is not yet. -/
theorem lost_race_two : ∃ s : State Bool Unit, s.waiter = .lost 6 ⟨1, 8, ()⟩ ∧
    ∃ t, ∀ tr' s', Run Step s tr' s' →
      s'.waiter = .lost 6 ⟨1, 8, ()⟩ ∧ s'.caller t = .waiting ⟨1, 8, ()⟩ none :=
  have hwritten := ((Run.nil : Run Step (State.init : State Bool Unit) [] State.init).snoc
    (.call (t := false) (n := 7) (r := ()) id rfl rfl)).snoc (.caller (t := false) rfl) |>.snoc
    (.call (t := true) (n := 8) (r := ()) id rfl rfl) |>.snoc (.caller (t := true) rfl)
  have hforked := hwritten.snoc (.master (p := 5) List.not_mem_nil rfl) |>.snoc
    (.master (p := 6) (by decide) rfl) |>.snoc (.waiter (p := 0) rfl) |>.snoc
    (.master (p := 6) (by decide) rfl)
  have hlost := hforked.snoc (.exit (l := [⟨5, ⟨0, 7, ()⟩, none⟩]) (m := []) (n := 3) rfl) |>.snoc
    (.waiter (p := 6) rfl) |>.snoc (.waiter (p := 0) rfl)
  ⟨_, rfl, (lost_race hlost).2 6 _ rfl⟩

end Metatup.MasterFork
