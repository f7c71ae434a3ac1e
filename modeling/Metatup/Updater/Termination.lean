import Mathlib.Algebra.GroupWithZero.Nat
import Mathlib.Algebra.Order.BigOperators.Group.List
import Mathlib.Data.Prod.Lex
import Metatup.Lib.Digraph
import Metatup.Updater.Order

/-!
# Termination of `execute_graph`

Every step decreases, in this order: whether the server is alive, the pops that can still happen
(`passesLeft`), the length of the plist, the number of busy workers, and the place of the main
thread inside the loop.

* `execTerminating`: the transition system terminates from every reachable state.
* `ExecInv.step_or_done`: a state in which nothing can happen is one in which the call has returned.
-/

set_option linter.unusedSectionVars false

namespace Metatup

/-- The pops a node can still go through; none when it failed. -/
def passesLeftOf (g : Graph) (n : TupId) : ℕ :=
  if n ∈ g.nodeList ∧ inEdges g n = [] then 0
  else if (g.node n).transient = .processing then 2 else 1

/-- The pops that can still happen. -/
def passesLeft (g : Graph) : ℕ := (g.nodeRoot.map (passesLeftOf g)).sum

/-- The place of the main thread inside the loop. -/
def Pc.rank : Pc → ℕ
  | .checkEmpties => 4
  | .head => 3
  | .after => 2
  | .join _ => 1
  | .done _ => 0
  | .fault => 0

/-- What every step decreases. -/
def execMeasure (s : Exec) : ℕ ×ₗ ℕ ×ₗ ℕ ×ₗ ℕ ×ₗ ℕ :=
  toLex ((!s.dead).toNat, toLex (passesLeft s.g, toLex (s.g.plist.length,
    toLex (s.activeList.length, s.pc.rank))))

section measure

variable {s s' : Exec}

theorem execMeasure_dead (h : s.dead = false) (h' : s'.dead = true) :
    execMeasure s' < execMeasure s := by
  simp [execMeasure, Prod.Lex.toLex_lt_toLex, h, h']

theorem execMeasure_passes (hd : s'.dead = s.dead) (h : passesLeft s'.g < passesLeft s.g) :
    execMeasure s' < execMeasure s := by
  simp [execMeasure, Prod.Lex.toLex_lt_toLex, hd, h]

theorem execMeasure_plist (hd : s'.dead = s.dead) (h : passesLeft s'.g = passesLeft s.g)
    (hp : s'.g.plist.length < s.g.plist.length) : execMeasure s' < execMeasure s := by
  simp [execMeasure, Prod.Lex.toLex_lt_toLex, hd, h, hp]

theorem execMeasure_active (hd : s'.dead = s.dead) (h : s'.g = s.g)
    (ha : s'.activeList.length < s.activeList.length) : execMeasure s' < execMeasure s := by
  simp [execMeasure, Prod.Lex.toLex_lt_toLex, hd, h, ha]

theorem execMeasure_pc (hd : s'.dead = s.dead) (h : s'.g = s.g)
    (ha : s'.activeList = s.activeList) (hp : s'.pc.rank < s.pc.rank) :
    execMeasure s' < execMeasure s := by
  simp [execMeasure, Prod.Lex.toLex_lt_toLex, hd, h, ha, hp]

end measure

namespace DagInv

variable {g₀ g g' : Graph} {flight flight' : List TupId} {bad bad' : TupId → Prop} {n : TupId}

/-- The nodes that wait for nothing on the node list are those that failed. -/
theorem waits_for_nothing (h : DagInv g₀ flight bad g) (m : TupId) :
    (m ∈ g.nodeList ∧ inEdges g m = []) ↔ bad m := by
  rw [inEdges_eq_nil]
  constructor
  · rintro ⟨hl, hno⟩
    exact (h.waits m hl).resolve_left fun ⟨a, ha⟩ => hno a ha
  · exact h.bad_waits m

theorem passesLeftOf_congr {m : TupId} (h : DagInv g₀ flight bad g) (h' : DagInv g₀ flight' bad' g')
    (hb : bad' m ↔ bad m) (ht : (g'.node m).transient = (g.node m).transient) :
    passesLeftOf g' m = passesLeftOf g m := by
  unfold passesLeftOf
  rw [ht]
  exact if_congr ((h'.waits_for_nothing m).trans (hb.trans (h.waits_for_nothing m).symm)) rfl rfl

/-- A move that pops nothing and lets nothing fail leaves the passes. -/
theorem passesLeft_congr (h : DagInv g₀ flight bad g) (h' : DagInv g₀ flight' bad g')
    (hs : SameNodes g g') : passesLeft g' = passesLeft g := by
  have : passesLeftOf g' = passesLeftOf g :=
    funext fun m => h.passesLeftOf_congr h' Iff.rfl (hs.transient m)
  rw [passesLeft, passesLeft, hs.nodeRoot, this]

theorem passesLeftOf_pos (h : DagInv g₀ flight bad g) (hn : ¬ bad n) : 0 < passesLeftOf g n := by
  unfold passesLeftOf
  rw [if_neg fun hc => hn ((h.waits_for_nothing n).1 hc)]
  split_ifs <;> omega

/-- One node has fewer passes left, the others as many as before. -/
theorem passesLeft_lt (hn : n ∈ g.nodeRoot) (hnd : g.nodeRoot.Nodup)
    (hroot : g'.nodeRoot = g.nodeRoot) (hother : ∀ m, m ≠ n → passesLeftOf g' m = passesLeftOf g m)
    (hself : passesLeftOf g' n < passesLeftOf g n) : passesLeft g' < passesLeft g := by
  have hperm := List.perm_cons_erase hn
  have hrest : (g.nodeRoot.erase n).map (passesLeftOf g') =
      (g.nodeRoot.erase n).map (passesLeftOf g) := by
    refine List.map_congr_left fun m hm => hother m ?_
    exact (hnd.mem_erase_iff.1 hm).1
  rw [passesLeft, passesLeft, hroot, (hperm.map _).sum_eq, (hperm.map _).sum_eq]
  simp only [List.map_cons, List.sum_cons, hrest]
  omega

/-- Putting a failed node away takes its passes. -/
theorem passesLeft_putAway (h : DagInv g₀ (n :: flight) bad g)
    (h' : DagInv g₀ flight (fun m => m = n ∨ bad m) g') (hs : SameNodes g g') :
    passesLeft g' < passesLeft g := by
  refine passesLeft_lt (h.flight_live n List.mem_cons_self) h.nodeRoot_nodup hs.nodeRoot ?_ ?_
  · intro m hm
    exact h.passesLeftOf_congr h' (by simp [hm]) (hs.transient m)
  · have h0 : passesLeftOf g' n = 0 := by
      rw [passesLeftOf, if_pos ((h'.waits_for_nothing n).2 (.inl rfl))]
    rw [h0]
    exact h.passesLeftOf_pos (h.not_bad List.mem_cons_self)

/-- A pop takes one pass. -/
theorem passesLeft_pop (h : DagInv g₀ (n :: flight) bad g) (h' : DagInv g₀ flight bad g')
    (hp : Popped g g' n) : passesLeft g' < passesLeft g := by
  have hlive := h.flight_live n List.mem_cons_self
  have hnb : ¬ bad n := h.not_bad List.mem_cons_self
  have hother : ∀ m, m ≠ n → passesLeftOf g' m = passesLeftOf g m := by
    intro m hm
    exact h.passesLeftOf_congr h' Iff.rfl (hp.transient_of_ne m hm)
  by_cases ht : (g.node n).transient = .processing
  · obtain ⟨hroot, hdel, -, -⟩ := hp.kept ht
    refine passesLeft_lt hlive h.nodeRoot_nodup hroot hother ?_
    unfold passesLeftOf
    rw [if_neg fun hc => hnb ((h'.waits_for_nothing n).1 hc),
      if_neg fun hc => hnb ((h.waits_for_nothing n).1 hc), hdel, ht]
    decide
  · obtain ⟨hroot, -, -, -⟩ := hp.gone ht
    have hperm := List.perm_cons_erase hlive
    have hrest : (g.nodeRoot.erase n).map (passesLeftOf g') =
        (g.nodeRoot.erase n).map (passesLeftOf g) := by
      refine List.map_congr_left fun m hm => hother m ?_
      exact (h.nodeRoot_nodup.mem_erase_iff.1 hm).1
    rw [passesLeft, passesLeft, hroot, (hperm.map (passesLeftOf g)).sum_eq, hrest]
    simp only [List.map_cons, List.sum_cons]
    have := h.passesLeftOf_pos hnb
    omega

end DagInv

/-- Every step decreases the measure. -/
theorem Move.decreases {cfg : Config} {g₀ : Graph} {root : TupId} {tr : List Event} {s s' : Exec}
    {e : Event} (h : ExecInv cfg g₀ root tr s) (hm : Move cfg g₀ tr s e s') :
    execMeasure s' < execMeasure s := by
  cases hm with
  | tau ht =>
    refine execMeasure_pc rfl rfl rfl ?_
    cases ht with
    | leave hp _ => simp [hp, Pc.rank]
    | loop hp _ _ => simp [hp, Pc.rank]
    | quit hp => simp [hp, Pc.rank]
    | ret hp _ => simp [hp, Pc.rank]
  | requeue _ _ hdag hlen hsame _ =>
    exact execMeasure_plist rfl (h.dag.passesLeft_congr hdag hsame) (by simp only; omega)
  | start _ _ _ _ hdag hlen hsame _ =>
    exact execMeasure_plist rfl (h.dag.passesLeft_congr hdag hsame) (by simp only; omega)
  | @finish wt n rc hmem =>
    refine execMeasure_active rfl rfl ?_
    have h1 := List.length_erase_of_mem hmem
    have h2 := List.length_pos_of_mem hmem
    simp only [workerRet]
    omega
  | succeed _ _ _ hdag hp _ hdag' => exact execMeasure_passes rfl (hdag.passesLeft_pop hdag' hp)
  | fail _ _ _ _ hdag hdag' _ hsame _ =>
    exact execMeasure_passes rfl (hdag.passesLeft_putAway hdag' hsame)
  | signal hd => exact execMeasure_dead hd rfl

/-- `execute_graph` terminates from every reachable state, under any part of its steps. -/
def execTerminating {cfg : Config} {g₀ : Graph} {root : TupId} (hb : BuiltGraph g₀ root)
    {step : Exec → Event → Exec → Prop} (hstep : ∀ s e s', step s e s' → Step cfg s e s') :
    Lib.Terminating step fun s => ∃ tr, ExecInv cfg g₀ root tr s where
  M := ℕ ×ₗ ℕ ×ₗ ℕ ×ₗ ℕ ×ₗ ℕ
  lt := (· < ·)
  wf := wellFounded_lt
  m := execMeasure
  keeps := fun _ _ _ ⟨_, h⟩ hst => ⟨_, h.step hb (hstep _ _ _ hst)⟩
  decreases := fun _ _ _ ⟨_, h⟩ hst => (h.move hb (hstep _ _ _ hst)).decreases h

/-- As long as the call has not returned, the main thread can go on or a worker is at work. -/
theorem ExecInv.step_or_done {cfg : Config} {g₀ : Graph} {root : TupId} {tr : List Event} {s : Exec}
    (hj : 1 ≤ cfg.jobs) (h : ExecInv cfg g₀ root tr s) :
    (∃ rc, s.pc = .done rc) ∨ (∃ e s', mainStep cfg s = some (e, s')) ∨
      ∃ wt n, (wt, n) ∈ s.activeList := by
  have hpc := h.pc
  have hwork := h.workers
  have hact := h.active
  have hworker : s.activeList ≠ [] → ∃ wt n, (wt, n) ∈ s.activeList := by
    intro hne
    obtain ⟨⟨wt, n⟩, hm⟩ := List.exists_mem_of_ne_nil _ hne
    exact ⟨wt, n, hm⟩
  unfold mainStep
  cases hp : s.pc with
  | head =>
    right; left
    cases s.g.plist with
    | nil => exact ⟨_, _, rfl⟩
    | cons n rest =>
      by_cases hg : s.going cfg <;> simp only [hg, if_true, Bool.false_eq_true, if_false]
      · exact ⟨_, _, rfl⟩
      · exact ⟨_, _, rfl⟩
  | checkEmpties =>
    right
    simp only
    split
    next hwait =>
      cases hf : s.finList with
      | cons w fin => exact .inl ⟨_, _, rfl⟩
      | nil =>
        -- the main thread waits; then somebody is at work
        refine .inr (hworker fun hnil => ?_)
        have hlen : (inFlight s).length = 0 := by simp [inFlight, hf, hnil]
        simp only [Bool.or_eq_true, Bool.and_eq_true, List.isEmpty_iff, bne_iff_ne] at hwait
        rcases hwait with hfree | ⟨-, ha⟩
        · rw [hfree, hlen] at hwork
          simp only [List.length_nil] at hwork
          omega
        · omega
    next => exact .inl ⟨_, _, rfl⟩
  | after => exact .inr (.inl ⟨_, _, rfl⟩)
  | join rc =>
    right
    simp only
    by_cases hnil : s.activeList = []
    · exact .inl ⟨.tau, _, by rw [if_pos (by simp [hnil])]⟩
    · exact .inr (hworker hnil)
  | done rc => exact .inl ⟨rc, rfl⟩
  | fault =>
    rw [PcOk, hp] at hpc
    exact hpc.elim

end Metatup
