import Metatup.Updater.Invariant

/-!
# The order in which nodes are started

A node is started only after everything that pointed to it in the graph that was built has been
popped, and a second time only to remove a transient file that nobody needs any more.

* `start_after_predecessors`: both, for every run.
-/

set_option linter.unusedSectionVars false

namespace Metatup

/-- The node has been popped: the root at the start, any other node after its work returned 0. -/
def Completed (root : TupId) (tr : List Event) (n : TupId) : Prop :=
  n = root ∨ Event.reap n 0 ∈ tr

/-- What is known when a node is started again: it is a transient file, and everything it pointed
to when it was first popped (in `m`) has been popped since then. -/
structure SecondStart (cfg : Config) (g₀ : Graph) (tr : List Event) (s : Exec) (n : TupId) :
    Prop where
  once : tr.count (.start n) = 1
  type : (g₀.node n).tent.type = .generated
  before : (g₀.node n).transient = .processing
  now : (s.g.node n).transient = .delete
  after : ∃ tr₁ m m' tr₂, tr = tr₁ ++ .reap n 0 :: tr₂ ∧ Event.reap n 0 ∉ tr₁ ∧
    ExecRun cfg g₀ tr₁ m ∧ Step cfg m (.reap n 0) m' ∧ Lib.Run (Step cfg) m' tr₂ s ∧
    (∀ b, Adj g₀ n b → Adj m.g n b) ∧ ∀ b, Adj m.g n b → Event.reap b 0 ∈ tr₂

section move

variable {cfg : Config} {g₀ : Graph} {root : TupId} {tr : List Event} {s s' : Exec} {e : Event}

/-- A step changes edges and phases only by popping a node. -/
theorem Move.graph (h : Move cfg g₀ tr s e s') :
    (SameNodes s.g s'.g ∧ s'.g.edges = s.g.edges) ∨
      ∃ k, e = .reap k 0 ∧ k ∈ inFlight s ∧ Popped s.g s'.g k ∧ DagInv.PhasesPopped s.g s'.g k := by
  cases h with
  | tau _ => exact .inl ⟨.refl _, rfl⟩
  | requeue _ _ _ _ hsame hedges => exact .inl ⟨hsame, hedges⟩
  | start _ _ _ _ _ _ hsame hedges => exact .inl ⟨hsame, hedges⟩
  | finish _ => exact .inl ⟨.refl _, rfl⟩
  | succeed _ hfin hrest _ hp hph _ =>
    exact .inr ⟨_, rfl, (ExecInv.mem_inFlight hfin hrest _).2 (.inl rfl), hp, hph⟩
  | fail _ _ _ _ _ _ _ hsame hedges => exact .inl ⟨hsame, hedges⟩
  | signal _ => exact .inl ⟨.refl _, rfl⟩

/-- A node is started from the plist, when nothing points to it. -/
theorem Move.start_inv {n : TupId} (h : Move cfg g₀ tr s (.start n) s') :
    n ∈ s.g.plist ∧ ∀ a, ¬ Adj s.g a n := by
  cases h with
  | start _ hn hin _ _ _ _ _ => exact ⟨hn, hin⟩

end move

namespace ExecInv

variable {cfg : Config} {g₀ : Graph} {root : TupId} {tr : List Event} {s s' : Exec} {n : TupId}

/-- What is no longer unpopped has been popped. -/
theorem completed (h : ExecInv cfg g₀ root tr s) (hn : n ∈ g₀.nodeRoot) (hu : ¬ Unpopped s.g n) :
    Completed root tr n := by
  by_cases hr : n = root
  · exact .inl hr
  · have hp := h.pops n hn hr
    refine .inr (List.count_pos_iff.1 ?_)
    rw [hp]
    simp only [Unpopped, not_and, not_not] at hu
    unfold passes
    split_ifs with h1 h2
    · exact Nat.one_pos
    · exact absurd (hu h1) h2
    · exact Nat.two_pos
    · exact Nat.one_pos

/-- Conversely, what has been popped is no longer unpopped. -/
theorem not_unpopped (h : ExecInv cfg g₀ root tr s) (hc : Completed root tr n) :
    ¬ Unpopped s.g n := by
  rintro ⟨hlive, htr⟩
  rcases hc with rfl | hc
  · exact h.root_gone hlive
  · obtain ⟨hn, hr⟩ := h.reaped n 0 hc
    have hp := h.pops n hn hr
    have hpos := List.count_pos_iff.2 hc
    simp only [passes, hlive, htr, if_true, if_false] at hp
    omega

/-- The predecessors of a node that nothing points to any more. -/
theorem preds_of_in (hb : BuiltGraph g₀ root) (h : ExecInv cfg g₀ root tr s)
    (hlive : n ∈ s.g.nodeRoot) (hin : ∀ a, ¬ Adj s.g a n) {p : TupId} (hp : Adj g₀ p n) :
    Completed root tr p ∧ ¬ Unpopped s.g p ∧ p ∉ inFlight s ∧ ¬ Failed tr p := by
  have hu : ¬ Unpopped s.g p := h.dag.not_unpopped_of_in hin hp
  -- a predecessor that is left waits for this very node
  have hpoint : p ∈ s.g.nodeRoot → ∃ a, Adj s.g a p := by
    intro hpl
    have hpp : Pending s.g p := (unpopped_or_pending hpl).resolve_left hu
    rcases unpopped_or_pending hlive with hun | hpn
    · exact ⟨n, (h.dag.adj n p).2 (.inr (.inl ⟨hp, hpp, hun⟩))⟩
    · exact absurd ((h.dag.adj p n).2 (.inr (.inr ⟨hp, hpp, hpn⟩))) (hin p)
  refine ⟨h.completed (hb.ends p n hp).1 hu, hu, fun hf => ?_, fun hf => ?_⟩
  · obtain ⟨a, ha⟩ := hpoint (h.dag.flight_live p hf)
    exact h.dag.flight_in hf a ha
  · obtain ⟨hl, hno⟩ := h.dag.bad_waits p hf
    obtain ⟨a, ha⟩ := hpoint (h.dag.live p (.inl hl))
    exact hno a ha

/-- While a transient file is pending, whatever it pointed to when it was popped either points to
it or has been popped since. -/
theorem waits_for_readers (hb : BuiltGraph g₀ root) {m m' : Exec} {tr₁ tr₂ : List Event}
    (h₁ : ExecInv cfg g₀ root tr₁ m) (hst : Step cfg m (.reap n 0) m')
    (hr : Lib.Run (Step cfg) m' tr₂ s) (hpend : Pending s.g n) :
    ∀ b, Adj m.g n b → Adj s.g b n ∨ Event.reap b 0 ∈ tr₂ := by
  have hinv : ExecInv cfg g₀ root (tr₁ ++ [.reap n 0] ++ tr₂) s ∧ ¬ Unpopped s.g n ∧
      (Pending s.g n → ∀ b, Adj m.g n b → Adj s.g b n ∨ Event.reap b 0 ∈ tr₂) := by
    refine hr.invariant (I := fun tr s => ExecInv cfg g₀ root (tr₁ ++ [.reap n 0] ++ tr) s ∧
      ¬ Unpopped s.g n ∧
      (Pending s.g n → ∀ b, Adj m.g n b → Adj s.g b n ∨ Event.reap b 0 ∈ tr)) ?_ ?_
    · refine ⟨by simpa using h₁.step hb hst, ?_⟩
      rcases (h₁.move hb hst).graph with ⟨hsame, -⟩ | ⟨k, hk, -, hp, hph⟩
      · -- the node was popped in this step
        cases h₁.move hb hst with
        | succeed _ _ _ _ hp hph _ =>
          refine ⟨hph.self.1, fun hpd b hnb => .inl ?_⟩
          exact (hp.adj b n).2 (.inr ⟨hph.self.2.1 hpd, rfl, hnb⟩)
        | fail _ _ hrc _ _ _ _ _ _ => exact absurd rfl hrc
      · cases hk
        refine ⟨hph.self.1, fun hpd b hnb => .inl ?_⟩
        exact (hp.adj b n).2 (.inr ⟨hph.self.2.1 hpd, rfl, hnb⟩)
    · rintro tr t e t' - ⟨hi, hu, hw⟩ hst'
      refine ⟨by rw [← List.append_assoc]; exact hi.step hb hst', ?_⟩
      rcases (hi.move hb hst').graph with ⟨hsame, hedges⟩ | ⟨k, rfl, hkf, hp, hph⟩
      · obtain ⟨hU, hP⟩ := DagInv.phases_congr hsame n
        rw [hU, hP]
        refine ⟨hu, fun hpd b hnb => ?_⟩
        simp only [Adj, hedges, List.mem_append]
        exact (hw hpd b hnb).imp_right .inl
      · by_cases hkn : n = k
        · subst hkn
          have hpd : Pending t.g n :=
            (unpopped_or_pending (hi.dag.flight_live n hkf)).resolve_left hu
          refine ⟨hph.self.1, fun hpd' => ?_⟩
          have := hph.self.2.1 hpd'
          rw [hpd.2] at this
          cases this
        · obtain ⟨hU, hP⟩ := hph.other n hkn
          rw [hU, hP]
          refine ⟨hu, fun hpd b hnb => ?_⟩
          rw [List.mem_append]
          rcases hw hpd b hnb with hbn | hbn
          · by_cases hbk : b = k
            · exact .inr (.inr (by simp [hbk]))
            · exact .inl ((hp.adj b n).2 (.inl ⟨hbk, hbn⟩))
          · exact .inr (.inl hbn)
  exact hinv.2.2 hpend

end ExecInv

/-- In every run, whatever the workers return and in whatever order: when a node is started, all
its predecessors in the graph that was built have been popped, after their work returned 0; none
of them still waits to be worked on, is being worked on or has failed. A node is started again only
as a transient file to be removed, after everything it pointed to.
Source: `updater.c` `execute_graph`, `pop_node` -/
theorem start_after_predecessors {cfg : Config} {g₀ : Graph} {root : TupId} {tr : List Event}
    {s s' : Exec} {n : TupId} (hb : BuiltGraph g₀ root) (hj : 1 ≤ cfg.jobs)
    (hr : ExecRun cfg g₀ tr s) (hst : Step cfg s (.start n) s') :
    (∀ p, Adj g₀ p n →
      Completed root tr p ∧ ¬ Unpopped s.g p ∧ p ∉ inFlight s ∧ ¬ Failed tr p) ∧
    (Event.start n ∉ tr ∨ SecondStart cfg g₀ tr s n) := by
  have h := execInv_of_run hb hj hr
  obtain ⟨hn, hin⟩ := (h.move hb hst).start_inv
  have hlive := h.dag.live n (.inr hn)
  refine ⟨fun p hp => h.preds_of_in hb hlive hin hp, ?_⟩
  obtain ⟨hn₀, hnr⟩ := h.live hlive
  have hidle := h.idle n (h.dag.not_flight (.inr hn))
    fun hc => h.dag.ok.not_mem_plist (h.dag.bad_waits n hc).1 hn
  rw [h.pops n hn₀ hnr] at hidle
  rcases unpopped_or_pending hlive with hu | hpend
  · left
    rw [← List.count_eq_zero, hidle]
    simp [passes, hlive, hu.2]
  · right
    have hpass : passes g₀ s.g n = 1 := by simp [passes, hlive, hpend.2]
    have hproc : (g₀.node n).transient = .processing := by
      rcases h.dag.transient n with ht | ht
      · exact absurd (ht.symm.trans hpend.2) (hb.transient n)
      · exact ht.1
    refine ⟨hidle.trans hpass, hb.generated n hproc, hproc, hpend.2, ?_⟩
    -- the first pop
    have hcount : tr.count (.reap n 0) = 1 := (h.pops n hn₀ hnr).trans hpass
    have hmem : Event.reap n 0 ∈ tr := List.count_pos_iff.1 (by omega)
    obtain ⟨tr₁, tr₂, rfl⟩ := List.append_of_mem hmem
    obtain ⟨m, m', hr₁, hst₁, hr₂⟩ := Lib.Run.split_at hr
    have hfirst : Event.reap n 0 ∉ tr₁ := by
      rw [List.count_append, List.count_cons_self] at hcount
      rw [← List.count_eq_zero]
      omega
    have h₁ := execInv_of_run hb hj hr₁
    have hu₁ : Unpopped m.g n := by
      by_contra hc
      exact (h₁.completed hn₀ hc).elim hnr hfirst
    refine ⟨tr₁, m, m', tr₂, rfl, hfirst, hr₁, hst₁, hr₂, fun b hb' => ?_, fun b hb' => ?_⟩
    · exact (h₁.dag.adj n b).2 (.inl ⟨hb', hu₁⟩)
    · exact (ExecInv.waits_for_readers hb h₁ hst₁ hr₂ hpend b hb').resolve_left (hin b)

/-- The root, a command the root points to, and the file the command writes. -/
def chainGraph : Graph where
  nodeList := [0, 1, 2]
  nodeRoot := [0, 1, 2]
  node i :=
    { tent :=
        { tupid := i, dt := dotDt
          type := if i = 0 then .root else if i = 1 then .cmd else .generated }
      activeList := if i ∈ [0, 1, 2] then some .nodeList else .none
      state := .finished
      expanded := i ≠ 0
      skip := i ≠ 1 }
  edges := [⟨1, 2, .normal⟩, ⟨0, 1, .normal⟩]

theorem chainGraph_adj (a b : TupId) : Adj chainGraph a b ↔ (a = 1 ∧ b = 2) ∨ (a = 0 ∧ b = 1) := by
  simp [Adj, chainGraph, eq_comm]

theorem chainGraph_built : BuiltGraph chainGraph 0 where
  ok := ⟨by decide, by decide, by simp [chainGraph]; tauto, by simp [chainGraph]⟩
  nodeList := ⟨[1, 2], rfl⟩
  nodeRoot_nodup := by decide
  mem_nodeRoot _ := Iff.rfl
  plist := rfl
  state := by simp [chainGraph]
  transient := by simp [chainGraph]
  generated := by simp [chainGraph]
  root_type := rfl
  expanded := by simp [chainGraph]
  ends a b h := by
    rcases (chainGraph_adj a b).1 h with ⟨rfl, rfl⟩ | ⟨rfl, rfl⟩ <;> decide
  root_in a h := by simp [chainGraph_adj] at h
  has_in b hb h0 := by
    simp only [chainGraph, List.mem_cons, h0, List.not_mem_nil, or_false, false_or] at hb
    rcases hb with rfl | rfl
    · exact ⟨0, by decide⟩
    · exact ⟨1, by decide⟩

/-- With one worker, the file is started after the command has been popped. -/
theorem start_after_predecessors_chain :
    ∃ s s', ExecRun ⟨false, 1⟩ chainGraph [.start 1, .finish 1 0, .reap 1 0, .tau] s ∧
      Step ⟨false, 1⟩ s (.start 2) s' ∧
      Completed 0 [.start 1, .finish 1 0, .reap 1 0, .tau] 1 := by
  obtain ⟨s, hr, s', hst⟩ : ∃ s, ExecRun ⟨false, 1⟩ chainGraph
      [.start 1, .finish 1 0, .reap 1 0, .tau] s ∧ ∃ s', Step ⟨false, 1⟩ s (.start 2) s' :=
    ⟨_, (((Lib.Run.nil.snoc (.main rfl)).snoc (.worker 0 List.mem_cons_self)).snoc
      (.main rfl)).snoc (.main rfl), _, .main rfl⟩
  have h := start_after_predecessors chainGraph_built (by decide) hr hst
  exact ⟨s, s', hr, hst, (h.1 1 (by decide)).1⟩

end Metatup
