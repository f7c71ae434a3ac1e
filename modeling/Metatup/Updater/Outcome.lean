import Metatup.Updater.Termination

/-!
# The outcome of `execute_graph`

When the work on each node has a fixed result, the call goes on after failures, and nobody kills
the server, then neither the number of workers nor the order in which they finish matters. The
nodes that are worked on and the code that is returned are functions of the graph (`Runnable`).

* `FixedStep`, `FixedRun`: the runs with fixed results.
* `execute_graph_outcome`: how such a run ends, that it ends, and that no internal error occurs.
-/

set_option linter.unusedSectionVars false

namespace Metatup

open Relation

/-- The steps of a call in which the work on `n` always returns `res n` and the server lives. -/
def FixedStep (cfg : Config) (res : TupId → Int) (s : Exec) (e : Event) (s' : Exec) : Prop :=
  Step cfg s e s' ∧ e ≠ .signal ∧ ∀ n rc, e = .finish n rc → rc = res n

/-- The runs of such a call. -/
abbrev FixedRun (cfg : Config) (res : TupId → Int) (g : Graph) : List Event → Exec → Prop :=
  Lib.Run (FixedStep cfg res) (startGraph cfg g)

/-- Nothing can happen any more. -/
def Halted (cfg : Config) (res : TupId → Int) (s : Exec) : Prop :=
  ∀ e s', ¬ FixedStep cfg res s e s'

/-- Some node before `n` fails. The root is popped without being worked on; it does not fail. -/
def FailingAncestor (g : Graph) (root : TupId) (res : TupId → Int) (n : TupId) : Prop :=
  ∃ p, p ≠ root ∧ res p ≠ 0 ∧ TransGen (Adj g) p n

/-- The nodes that get to be worked on: nothing before them fails or waits for itself. -/
def Runnable (g : Graph) (root : TupId) (res : TupId → Int) (n : TupId) : Prop :=
  n ∈ g.nodeRoot ∧ n ≠ root ∧ ¬ FailingAncestor g root res n ∧ ¬ Lib.Tangled (Adj g) n

/-- The graph has no cycle. -/
def Acyclic (g : Graph) : Prop := ∀ a, ¬ TransGen (Adj g) a a

/-- What holds of a state of a run with fixed results, beyond `ExecInv`. -/
structure FixedInv (g₀ : Graph) (res : TupId → Int) (tr : List Event) (s : Exec) : Prop where
  alive : s.dead = false
  fin : ∀ wt n rc, (wt, n, rc) ∈ s.finList → rc = res n
  reaped : ∀ n rc, Event.reap n rc ∈ tr → rc = res n
  tangled : ∀ n, Lib.Tangled (Adj g₀) n → Unpopped s.g n

section fixed

variable {cfg : Config} {g₀ : Graph} {root : TupId} {res : TupId → Int} {tr : List Event}
  {s s' : Exec} {e : Event} {n : TupId}

namespace FixedInv

/-- A node on or behind a cycle stays where it is. -/
theorem tangled_step (h : ExecInv cfg g₀ root tr s) (hf : FixedInv g₀ res tr s)
    (hm : Move cfg g₀ tr s e s') (n : TupId) (hn : Lib.Tangled (Adj g₀) n) : Unpopped s'.g n := by
  have hu := hf.tangled n hn
  rcases hm.graph with ⟨hsame, -⟩ | ⟨k, -, hk, -, hph⟩
  · exact (DagInv.phases_congr hsame n).1.2 hu
  · have hnk : n ≠ k := by
      rintro rfl
      obtain ⟨q, hqn, hq⟩ := hn.pred
      exact h.dag.flight_in hk q ((h.dag.adj q n).2 (.inl ⟨hqn, hf.tangled q hq⟩))
    exact (hph.other n hnk).1.2 hu

theorem step (h : ExecInv cfg g₀ root tr s) (hf : FixedInv g₀ res tr s)
    (hm : Move cfg g₀ tr s e s') (hsig : e ≠ .signal)
    (hres : ∀ n rc, e = .finish n rc → rc = res n) : FixedInv g₀ res (tr ++ [e]) s' := by
  have ht := hf.tangled_step h hm
  have hold : (∀ n rc, e ≠ .reap n rc) → ∀ n rc, Event.reap n rc ∈ tr ++ [e] → rc = res n := by
    intro hne n rc hmem
    rcases List.mem_append.1 hmem with hmem | hmem
    · exact hf.reaped n rc hmem
    · exact absurd (List.mem_singleton.1 hmem).symm (hne n rc)
  have hnew : ∀ wt n rc fin, s.finList = (wt, n, rc) :: fin →
      (∀ wt' n' rc', (wt', n', rc') ∈ fin → rc' = res n') ∧
      ∀ n' rc', Event.reap n' rc' ∈ tr ++ [.reap n rc] → rc' = res n' := by
    intro wt n rc fin hfin
    refine ⟨fun wt' n' rc' hm' => hf.fin wt' n' rc' (by rw [hfin]; simp [hm']), ?_⟩
    intro n' rc' hmem
    rcases List.mem_append.1 hmem with hmem | hmem
    · exact hf.reaped n' rc' hmem
    · cases List.mem_singleton.1 hmem
      exact hf.fin wt n rc (by rw [hfin]; simp)
  cases hm with
  | tau _ => exact ⟨hf.alive, hf.fin, hold (by simp), ht⟩
  | requeue _ _ _ _ _ _ => exact ⟨hf.alive, hf.fin, hold (by simp), ht⟩
  | start _ _ _ _ _ _ _ _ => exact ⟨hf.alive, hf.fin, hold (by simp), ht⟩
  | @finish wt n rc _ =>
    refine ⟨hf.alive, ?_, hold (by simp), ht⟩
    intro wt' n' rc' hmem
    rcases List.mem_cons.1 hmem with hmem | hmem
    · cases hmem
      exact hres n rc rfl
    · exact hf.fin wt' n' rc' hmem
  | succeed _ hfin _ _ _ _ _ =>
    obtain ⟨h1, h2⟩ := hnew _ _ _ _ hfin
    exact ⟨hf.alive, h1, h2, ht⟩
  | fail _ hfin _ _ _ _ _ _ _ =>
    obtain ⟨h1, h2⟩ := hnew _ _ _ _ hfin
    exact ⟨hf.alive, h1, h2, ht⟩
  | signal _ => exact absurd rfl hsig

theorem init (hb : BuiltGraph g₀ root) (hj : 1 ≤ cfg.jobs) :
    FixedInv g₀ res [] (startGraph cfg g₀) := by
  have h := ExecInv.init hb hj
  have hs : (startGraph cfg g₀).dead = false ∧ (startGraph cfg g₀).finList = [] := by
    unfold startGraph
    split
    · exact ⟨rfl, rfl⟩
    · split <;> exact ⟨rfl, rfl⟩
  refine ⟨hs.1, ?_, by simp, ?_⟩
  · intro wt n rc hm
    rw [hs.2] at hm
    cases hm
  · intro n hn
    obtain ⟨q, hqn, -⟩ := hn.pred
    by_contra hu
    rcases h.completed (hb.ends q n hqn).2 hu with rfl | hc
    · exact hb.root_in q hqn
    · cases hc

end FixedInv

/-- Both invariants hold after every run with fixed results. -/
theorem fixedInv_of_run (hb : BuiltGraph g₀ root) (hj : 1 ≤ cfg.jobs)
    (hr : FixedRun cfg res g₀ tr s) : ExecInv cfg g₀ root tr s ∧ FixedInv g₀ res tr s :=
  hr.invariant (I := fun tr s => ExecInv cfg g₀ root tr s ∧ FixedInv g₀ res tr s)
    ⟨.init hb hj, .init hb hj⟩ fun _ _ _ _ _ ⟨hi, hf⟩ ⟨hst, hsig, hres⟩ =>
      ⟨hi.step hb hst, hf.step hi (hi.move hb hst) hsig hres⟩

/-! ### Which nodes are started -/

/-- A node that has been started is unpopped only while it is in flight or when it has failed; in
particular nothing unpopped was before it. -/
theorem ExecInv.pred_of_started (h : ExecInv cfg g₀ root tr s) (hs : Event.start n ∈ tr) {q : TupId}
    (hqn : Adj g₀ q n) : ¬ Unpopped s.g q := by
  intro hq
  have hun : Unpopped s.g n := h.dag.succ q n hqn hq
  have hadj : Adj s.g q n := (h.dag.adj q n).2 (.inl ⟨hqn, hq⟩)
  have hnr : ¬ Completed root tr n := fun hc => h.not_unpopped hc hun
  have hpos := List.count_pos_iff.2 hs
  have hidle := h.idle n (fun hf => h.dag.flight_in hf q hadj)
    fun hf => (h.dag.bad_waits n hf).2 q hadj
  rw [hidle] at hpos
  exact hnr (.inr (List.count_pos_iff.1 hpos))

/-- Soundness: only runnable nodes are started. -/
theorem runnable_of_started (hb : BuiltGraph g₀ root) (h : ExecInv cfg g₀ root tr s)
    (hf : FixedInv g₀ res tr s) (hs : Event.start n ∈ tr) : Runnable g₀ root res n := by
  have hnode : n ∈ g₀.nodeRoot ∧ n ≠ root := by
    by_cases hbusy : n ∈ inFlight s ∨ Failed tr n
    · rcases hbusy with hfl | ⟨rc, -, hm⟩
      · exact h.live (h.dag.flight_live n hfl)
      · exact h.reaped n rc hm
    · obtain ⟨h1, h2⟩ := not_or.1 hbusy
      have hpos := List.count_pos_iff.2 hs
      rw [h.idle n h1 h2] at hpos
      exact h.reaped n 0 (List.count_pos_iff.1 hpos)
  refine ⟨hnode.1, hnode.2, ?_, ?_⟩
  · rintro ⟨p, hpr, hpres, hpn⟩
    -- a node that fails is never popped, so nothing behind it is
    have hpu : Unpopped s.g p := by
      obtain ⟨x, hpx, -⟩ := TransGen.head'_iff.1 hpn
      by_contra hu
      rcases h.completed (hb.ends p x hpx).1 hu with hc | hc
      · exact hpr hc
      · exact hpres (hf.reaped p 0 hc).symm
    obtain ⟨q, hpq, hqn⟩ := TransGen.tail'_iff.1 hpn
    refine h.pred_of_started hs hqn ?_
    clear hqn hpn
    induction hpq with
    | refl => exact hpu
    | tail _ hxy ih => exact h.dag.succ _ _ hxy ih
  · intro ht
    obtain ⟨q, hqn, hq⟩ := ht.pred
    exact h.pred_of_started hs hqn (hf.tangled q hq)

section halted

variable (hb : BuiltGraph g₀ root) (h : ExecInv cfg g₀ root tr s)

include hb h

/-- When nothing is in flight and the plist is empty, an unpopped node that has not failed waits
for another unpopped one. -/
theorem unpopped_pred (hpl : s.g.plist = []) (hfl : inFlight s = []) (hu : Unpopped s.g n)
    (hnf : ¬ Failed tr n) : ∃ a, Adj g₀ a n ∧ Unpopped s.g a := by
  have hl : n ∈ s.g.nodeList := by
    rcases h.dag.place n hu.1 with hl | hl | hl
    · exact hl
    · rw [hpl] at hl
      cases hl
    · rw [hfl] at hl
      cases hl
  obtain ⟨a, ha⟩ := (h.dag.waits n hl).resolve_right hnf
  rcases (h.dag.adj a n).1 ha with ⟨h0, hua⟩ | ⟨-, hp, -⟩ | ⟨-, -, hp⟩
  · exact ⟨a, h0, hua⟩
  · exact absurd hp hu.not_pending
  · exact absurd hp hu.not_pending

/-- What is left unpopped at the end without having failed is behind a failed node or a cycle. -/
theorem blocked_of_unpopped (hf : FixedInv g₀ res tr s) (hpl : s.g.plist = [])
    (hfl : inFlight s = []) (hu : Unpopped s.g n) (hnf : ¬ Failed tr n) :
    FailingAncestor g₀ root res n ∨ Lib.Tangled (Adj g₀) n := by
  classical
  by_contra hc
  obtain ⟨hno, hnt⟩ := not_or.1 hc
  -- the unpopped nodes at or before `n` that did not fail, each with one of them before it
  let l := g₀.nodeRoot.filter fun q => ReflTransGen (Adj g₀) q n ∧ Unpopped s.g q ∧ ¬ Failed tr q
  have hmem : ∀ q, q ∈ l ↔ q ∈ g₀.nodeRoot ∧ ReflTransGen (Adj g₀) q n ∧ Unpopped s.g q ∧
      ¬ Failed tr q := by
    intro q
    simp [l]
  have hpred : ∀ x ∈ l, ∃ y ∈ l, Adj g₀ y x := by
    intro x hx
    obtain ⟨-, hxn, hxu, hxf⟩ := (hmem x).1 hx
    obtain ⟨a, hax, hau⟩ := unpopped_pred hb h hpl hfl hxu hxf
    refine ⟨a, (hmem a).2 ⟨(hb.ends a x hax).1, hxn.head hax, hau, ?_⟩, hax⟩
    rintro ⟨rc, hrc, hm⟩
    refine hno ⟨a, (h.reaped a rc hm).2, ?_, TransGen.head' hax hxn⟩
    rw [← hf.reaped a rc hm]
    exact hrc
  obtain ⟨a, ha, hcyc⟩ := Lib.exists_cycle
    ((hmem n).2 ⟨h.dag.sub n hu.1, .refl, hu, hnf⟩) hpred
  exact hnt ⟨a, hcyc, ((hmem a).1 ha).2.1⟩

/-- Completeness: when nothing can happen any more, all runnable nodes have been started. -/
theorem started_of_runnable (hf : FixedInv g₀ res tr s) (hpl : s.g.plist = [])
    (hfl : inFlight s = []) (hrun : Runnable g₀ root res n) : Event.start n ∈ tr := by
  obtain ⟨hn, hnr, hno, hnt⟩ := hrun
  have hnotin : n ∉ inFlight s := by
    rw [hfl]
    exact List.not_mem_nil
  by_cases hfail : Failed tr n
  · have := h.busy n (.inr hfail)
    exact List.count_pos_iff.1 (by omega)
  · have hnu : ¬ Unpopped s.g n := fun hu =>
      (blocked_of_unpopped hb h hf hpl hfl hu hfail).elim hno hnt
    have hc := (h.completed hn hnu).resolve_left hnr
    have hpos := List.count_pos_iff.2 hc
    rw [← h.idle n hnotin hfail] at hpos
    exact List.count_pos_iff.1 hpos

/-- In an acyclic graph nothing is left at the end unless something failed. -/
theorem empty_of_acyclic (hpl : s.g.plist = []) (hfl : inFlight s = []) (hac : Acyclic g₀)
    (hok : ∀ n, ¬ Failed tr n) : s.g.nodeList = [] := by
  classical
  by_contra hne
  -- every node left has one left before it; first for the unpopped ones, then for all
  have hnou : ∀ n, ¬ Unpopped s.g n := by
    intro n hu
    have hmem : ∀ q, q ∈ s.g.nodeRoot.filter (fun q => Unpopped s.g q) ↔ Unpopped s.g q := by
      intro q
      simp only [List.mem_filter, decide_eq_true_eq, and_iff_right_iff_imp]
      exact And.left
    obtain ⟨a, -, hcyc⟩ := Lib.exists_cycle (r := Adj g₀) ((hmem n).2 hu) fun x hx => by
      obtain ⟨a, hax, hau⟩ := unpopped_pred hb h hpl hfl ((hmem x).1 hx) (hok x)
      exact ⟨a, (hmem a).2 hau, hax⟩
    exact hac a hcyc
  obtain ⟨n, hn⟩ := List.exists_mem_of_ne_nil _ hne
  obtain ⟨a, -, hcyc⟩ := Lib.exists_cycle (r := Adj g₀) hn fun x hx => by
    obtain ⟨a, ha⟩ := (h.dag.waits x hx).resolve_right (hok x)
    have hal : a ∈ s.g.nodeList := by
      rcases h.dag.place a (h.dag.ends ha).1 with hl | hl | hl
      · exact hl
      · rw [hpl] at hl
        cases hl
      · rw [hfl] at hl
        cases hl
    rcases (h.dag.adj a x).1 ha with ⟨h0, -⟩ | ⟨-, -, hua⟩ | ⟨h0, -, -⟩
    · exact ⟨a, hal, h0⟩
    · exact absurd hua (hnou a)
    · exact ⟨a, hal, h0⟩
  exact hac a hcyc

/-- A cycle is left. -/
theorem nonempty_of_cycle (hf : FixedInv g₀ res tr s) (hpl : s.g.plist = [])
    (hfl : inFlight s = []) (hcyc : ¬ Acyclic g₀) : s.g.nodeList ≠ [] := by
  simp only [Acyclic, not_forall, not_not] at hcyc
  obtain ⟨a, ha⟩ := hcyc
  have hu := hf.tangled a ⟨a, ha, .refl⟩
  rcases h.dag.place a hu.1 with hl | hl | hl
  · exact List.ne_nil_of_mem hl
  · rw [hpl] at hl
    cases hl
  · rw [hfl] at hl
    cases hl

end halted

/-- The main thread neither finishes a job nor kills the server. -/
theorem mainStep_event (hst : mainStep cfg s = some (e, s')) :
    e ≠ .signal ∧ ∀ n rc, e ≠ .finish n rc := by
  have hd : ∀ n, (dispatch s n).1 ≠ .signal ∧ ∀ m rc, (dispatch s n).1 ≠ .finish m rc := by
    intro n
    unfold dispatch
    split_ifs
    · split <;> simp
    · split <;> simp
    · split
      · simp
      · split <;> simp
  have ht : ∀ wt n rc fin, (takeFinished s wt n rc fin).1 = .reap n rc := by
    intro wt n rc fin
    unfold takeFinished
    simp only
    split_ifs
    · split <;> rfl
    · split <;> rfl
  unfold mainStep at hst
  split at hst
  · split at hst
    · split at hst
      · obtain ⟨rfl, rfl⟩ := Prod.mk.inj (Option.some.inj hst)
        exact hd _
      · cases hst
        simp
    · cases hst
      simp
  · split at hst
    · split at hst
      · have he := congrArg Prod.fst (Option.some.inj hst)
        rw [ht] at he
        rw [← show Event.reap _ _ = e from he]
        simp
      · cases hst
    · cases hst
      simp
  · cases hst
    simp
  · split at hst
    · cases hst
      simp
    · cases hst
  · cases hst
  · cases hst

/-- A run with fixed results stops only when the call has returned. -/
theorem done_of_halted (hj : 1 ≤ cfg.jobs) (h : ExecInv cfg g₀ root tr s)
    (hh : Halted cfg res s) : ∃ rc, s.pc = .done rc := by
  rcases h.step_or_done hj with hd | ⟨e, s', hst⟩ | ⟨wt, n, hm⟩
  · exact hd
  · obtain ⟨hsig, hfin⟩ := mainStep_event hst
    exact absurd ⟨.main hst, hsig, fun n rc hc => absurd hc (hfin n rc)⟩ (hh e s')
  · refine absurd ⟨.worker (res n) hm, by simp, ?_⟩ (hh _ _)
    rintro n' rc ⟨⟩
    rfl

/-- The lists and the workers when a call that goes on after failures has returned. -/
theorem at_return (h : ExecInv cfg g₀ root tr s) (hf : FixedInv g₀ res tr s)
    (hk : cfg.keepGoing = true) {rc : Int} (hd : s.pc = .done rc) :
    s.g.plist = [] ∧ inFlight s = [] ∧ rc = resultCode s := by
  have hpc := h.pc
  rw [PcOk, hd] at hpc
  obtain ⟨-, hpc⟩ := hpc
  obtain ⟨⟨hpl, hact⟩, hrc⟩ := hpc hf.alive
  refine ⟨?_, ?_, hrc⟩
  · refine hpl.resolve_right ?_
    simp [Exec.going, hf.alive, hk]
  · rw [← List.length_eq_zero_iff, ← h.active]
    exact hact

/-- At the end a node has failed exactly when some runnable node has the result of a failure. -/
theorem failed_iff (hb : BuiltGraph g₀ root) (h : ExecInv cfg g₀ root tr s)
    (hf : FixedInv g₀ res tr s) (hpl : s.g.plist = []) (hfl : inFlight s = []) :
    Failed tr n ↔ Runnable g₀ root res n ∧ res n ≠ 0 := by
  constructor
  · intro hn
    have hstart : Event.start n ∈ tr := by
      have := h.busy n (.inr hn)
      exact List.count_pos_iff.1 (by omega)
    obtain ⟨rc, hrc, hm⟩ := hn
    exact ⟨runnable_of_started hb h hf hstart, hf.reaped n rc hm ▸ hrc⟩
  · rintro ⟨hrun, hres⟩
    by_contra hn
    have hstart := List.count_pos_iff.2 (started_of_runnable hb h hf hpl hfl hrun)
    rw [h.idle n (by simp [hfl]) hn] at hstart
    exact hres (hf.reaped n 0 (List.count_pos_iff.1 hstart)).symm

end fixed

/-- How a call of `execute_graph` ends. No list operation fails and no call runs for ever. When the
work on each node has a fixed result, failures do not stop the call and nobody kills it, then for
any number of workers and any order of completions the nodes worked on are the runnable ones; the
code is 0, with both lists empty, when all of them succeed and the graph is acyclic, and -1
otherwise. Source: `updater.c` `execute_graph`, `pop_node` -/
theorem execute_graph_outcome {cfg : Config} {g₀ : Graph} {root : TupId} (hb : BuiltGraph g₀ root)
    (hj : 1 ≤ cfg.jobs) :
    (∀ tr s, ExecRun cfg g₀ tr s → s.pc ≠ .fault ∧ s.pc ≠ .done (-2)) ∧
    (∀ (f : ℕ → Exec) (ev : ℕ → Event), f 0 = startGraph cfg g₀ →
      ¬ ∀ k, Step cfg (f k) (ev k) (f (k + 1))) ∧
    ∀ res tr s, cfg.keepGoing = true → FixedRun cfg res g₀ tr s →
      (∃ tr' s', Lib.Run (FixedStep cfg res) s tr' s' ∧ Halted cfg res s') ∧
      (Halted cfg res s →
        (∀ n, Event.start n ∈ tr ↔ Runnable g₀ root res n) ∧
        ((∃ n, Runnable g₀ root res n ∧ res n ≠ 0) → s.pc = .done (-1)) ∧
        ((∀ n, Runnable g₀ root res n → res n = 0) →
          (Acyclic g₀ → s.pc = .done 0 ∧ s.g.plist = [] ∧ s.g.nodeList = []) ∧
          (¬ Acyclic g₀ → s.pc = .done (-1) ∧ s.g.nodeList ≠ []))) := by
  refine ⟨fun tr s hr => ?_, fun f ev h0 => ?_, fun res tr s hk hr => ⟨?_, fun hh => ?_⟩⟩
  · have hpc := (execInv_of_run hb hj hr).pc
    constructor
    · intro hc
      rw [PcOk, hc] at hpc
      exact hpc
    · intro hc
      rw [PcOk, hc] at hpc
      exact hpc.1 rfl
  · exact (execTerminating hb fun _ _ _ => id).not_infinite f ev ⟨[], h0 ▸ .init hb hj⟩
  · have hterm : ∀ s e s', FixedStep cfg res s e s' → Step cfg s e s' := fun _ _ _ hst => hst.1
    obtain ⟨tr', s', hrun, -, hhalt⟩ :=
      (execTerminating hb hterm).exists_halt ⟨tr, (fixedInv_of_run hb hj hr).1⟩
    exact ⟨tr', s', hrun, hhalt⟩
  · obtain ⟨h, hf⟩ := fixedInv_of_run hb hj hr
    obtain ⟨rc, hd⟩ := done_of_halted hj h hh
    obtain ⟨hpl, hfl, hrc⟩ := at_return h hf hk hd
    have hfailed : ∀ n, Failed tr n ↔ Runnable g₀ root res n ∧ res n ≠ 0 :=
      fun n => failed_iff hb h hf hpl hfl
    refine ⟨fun n => ⟨runnable_of_started hb h hf, started_of_runnable hb h hf hpl hfl⟩, ?_, ?_⟩
    · rintro ⟨n, hn⟩
      have hne : s.failed ≠ 0 := fun hc => h.failed.1 hc n ((hfailed n).2 hn)
      rw [hd, hrc, resultCode, if_neg (by simp [hf.alive]), if_pos hne]
    · intro hok
      have hnf : ∀ n, ¬ Failed tr n := fun n hn => ((hfailed n).1 hn).2 (hok n ((hfailed n).1 hn).1)
      have hz : s.failed = 0 := h.failed.2 hnf
      refine ⟨fun hac => ?_, fun hcyc => ?_⟩
      · have hnl := empty_of_acyclic hb h hpl hfl hac hnf
        refine ⟨?_, hpl, hnl⟩
        rw [hd, hrc]
        simp [resultCode, hf.alive, hz, hpl, hnl]
      · have hnl := nonempty_of_cycle hb h hf hpl hfl hcyc
        refine ⟨?_, hnl⟩
        rw [hd, hrc]
        simp [resultCode, hf.alive, hz, hnl]

theorem chainGraph_acyclic : Acyclic chainGraph := by
  have hlt : ∀ a b, TransGen (Adj chainGraph) a b → a < b := by
    intro a b h
    induction h with
    | single h => rcases (chainGraph_adj _ _).1 h with ⟨rfl, rfl⟩ | ⟨rfl, rfl⟩ <;> decide
    | tail _ h ih =>
      refine ih.trans ?_
      rcases (chainGraph_adj _ _).1 h with ⟨rfl, rfl⟩ | ⟨rfl, rfl⟩ <;> decide
  exact fun a ha => (hlt a a ha).false

/-- When both nodes of the chain succeed, a call with two workers comes to an end and returns 0. -/
theorem execute_graph_outcome_chain : ∃ tr s, FixedRun ⟨true, 2⟩ (fun _ => 0) chainGraph tr s ∧
    s.pc = .done 0 := by
  have h := (@execute_graph_outcome ⟨true, 2⟩ _ _ chainGraph_built (by decide)).2.2 fun _ => 0
  obtain ⟨tr, s, hr, hh⟩ := (h [] _ rfl .nil).1
  exact ⟨tr, s, hr, (((h tr s rfl hr).2 hh).2.2 fun _ _ => rfl).1 chainGraph_acyclic |>.1⟩

end Metatup
