import Metatup.Updater.Dag

/-!
# Every reachable state of `execute_graph`

`ExecInv` relates the state of a call to what has happened in it, and every step keeps it
(`ExecInv.step`), whatever the workers return and in whatever order, and whenever the server is
killed. It holds after every run (`execInv_of_run`).

* `inFlight s`: the nodes that have been handed to a worker and not been taken back.
* `passes g₀ g n`: how often `n` has been popped.
-/

set_option linter.unusedSectionVars false

namespace Metatup

/-- The nodes that have been handed to a worker and not been taken back. -/
def inFlight (s : Exec) : List TupId := s.activeList.map (·.2) ++ s.finList.map (·.2.1)

/-- The node has been worked on without success. -/
def Failed (tr : List Event) (n : TupId) : Prop := ∃ rc, rc ≠ 0 ∧ Event.reap n rc ∈ tr

/-- How often a node of the graph has been popped. -/
def passes (g₀ g : Graph) (n : TupId) : ℕ :=
  if n ∈ g.nodeRoot then if (g.node n).transient = .delete then 1 else 0
  else if (g₀.node n).transient = .processing then 2 else 1

/-- What holds at each place of the main thread. Behind the main loop no job is running, unless
the server has been killed. -/
def PcOk (cfg : Config) (s : Exec) : Prop :=
  match s.pc with
  | .head => s.freeList ≠ [] ∧
      (s.dead = false → s.g.plist = [] ∨ s.going cfg = false → s.active = 0)
  | .checkEmpties => True
  | .after => s.dead = false → (s.g.plist = [] ∨ s.going cfg = false) ∧ s.active = 0
  | .join rc => rc ≠ -2 ∧ (s.dead = false →
      ((s.g.plist = [] ∨ s.going cfg = false) ∧ s.active = 0) ∧ rc = resultCode s)
  | .done rc => rc ≠ -2 ∧ (s.dead = false →
      ((s.g.plist = [] ∨ s.going cfg = false) ∧ s.active = 0) ∧ rc = resultCode s)
  | .fault => False

/-- What holds of a state of a call on `g₀` after the events `tr`. -/
structure ExecInv (cfg : Config) (g₀ : Graph) (root : TupId) (tr : List Event) (s : Exec) :
    Prop where
  dag : DagInv g₀ (inFlight s) (Failed tr) s.g
  active : s.active = (inFlight s).length
  workers : s.freeList.length + (inFlight s).length = cfg.jobs
  failed : s.failed = 0 ↔ ∀ n, ¬ Failed tr n
  root_gone : root ∉ s.g.nodeRoot
  pops : ∀ n ∈ g₀.nodeRoot, n ≠ root → tr.count (.reap n 0) = passes g₀ s.g n
  reaped : ∀ n rc, Event.reap n rc ∈ tr → n ∈ g₀.nodeRoot ∧ n ≠ root
  idle : ∀ n, n ∉ inFlight s → ¬ Failed tr n → tr.count (.start n) = tr.count (.reap n 0)
  busy : ∀ n, n ∈ inFlight s ∨ Failed tr n → tr.count (.start n) = tr.count (.reap n 0) + 1
  pc : PcOk cfg s

/-! ### Histories -/

/-- Events that neither start a node nor take one back. -/
def Event.quiet : Event → Prop
  | .start _ => False
  | .reap _ _ => False
  | _ => True

section history

variable {tr : List Event} {e : Event} {n m : TupId} {rc : Int}

theorem failed_snoc : Failed (tr ++ [e]) n ↔ Failed tr n ∨ ∃ rc, rc ≠ 0 ∧ e = .reap n rc := by
  simp only [Failed, List.mem_append, List.mem_singleton]
  constructor
  · rintro ⟨rc, h0, h | h⟩
    · exact .inl ⟨rc, h0, h⟩
    · exact .inr ⟨rc, h0, h.symm⟩
  · rintro (⟨rc, h0, h⟩ | ⟨rc, h0, h⟩)
    · exact ⟨rc, h0, .inl h⟩
    · exact ⟨rc, h0, .inr h.symm⟩

theorem failed_snoc_reap : Failed (tr ++ [.reap m rc]) n ↔ Failed tr n ∨ (rc ≠ 0 ∧ m = n) := by
  rw [failed_snoc]
  refine or_congr_right ?_
  constructor
  · rintro ⟨rc', h0, h⟩
    cases h
    exact ⟨h0, rfl⟩
  · rintro ⟨h0, rfl⟩
    exact ⟨rc, h0, rfl⟩

theorem failed_snoc_quiet (he : ∀ rc, e ≠ .reap n rc) : Failed (tr ++ [e]) n ↔ Failed tr n := by
  rw [failed_snoc]
  constructor
  · rintro (h | ⟨rc, -, h⟩)
    · exact h
    · exact absurd h (he rc)
  · exact .inl

theorem count_snoc (f : Event) :
    (tr ++ [e]).count f = tr.count f + if e = f then 1 else 0 := by
  rw [List.count_append, List.count_singleton]
  by_cases h : e = f <;> simp [h]

end history

namespace ExecInv

variable {cfg : Config} {g₀ : Graph} {root : TupId} {tr : List Event} {s : Exec}

/-- A step that touches neither the workers nor the phases of the graph, with an event to match. -/
theorem quiet {e : Event} {s' : Exec} (h : ExecInv cfg g₀ root tr s) (he : e.quiet)
    (hfl : (inFlight s).Perm (inFlight s')) (hdag : DagInv g₀ (inFlight s) (Failed tr) s'.g)
    (hact : s'.active = s.active) (hfree : s'.freeList = s.freeList) (hfailed : s'.failed = s.failed)
    (hphase : ∀ n, passes g₀ s'.g n = passes g₀ s.g n) (hroot : root ∉ s'.g.nodeRoot)
    (hpc : PcOk cfg s') : ExecInv cfg g₀ root (tr ++ [e]) s' := by
  have hne : ∀ n rc, e ≠ .reap n rc := by
    rintro n rc rfl
    exact he
  have hne' : ∀ n, e ≠ .start n := by
    rintro n rfl
    exact he
  have hf : ∀ n, Failed (tr ++ [e]) n ↔ Failed tr n := fun n => failed_snoc_quiet (hne n)
  have hc : ∀ n, (tr ++ [e]).count (.reap n 0) = tr.count (.reap n 0) := fun n => by
    rw [count_snoc, if_neg (hne n 0), Nat.add_zero]
  have hc' : ∀ n, (tr ++ [e]).count (.start n) = tr.count (.start n) := fun n => by
    rw [count_snoc, if_neg (hne' n), Nat.add_zero]
  constructor
  · exact (hdag.perm hfl).congr_bad fun m => (hf m).symm
  · rw [hact, h.active, hfl.length_eq]
  · rw [hfree, ← h.workers, hfl.length_eq]
  · simp only [hfailed, hf, h.failed]
  · exact hroot
  · intro n hn hr
    rw [hc, hphase]
    exact h.pops n hn hr
  · intro n rc hm
    rcases List.mem_append.1 hm with hm | hm
    · exact h.reaped n rc hm
    · exact absurd (List.mem_singleton.1 hm).symm (hne n rc)
  · intro n hn hb
    rw [hc, hc']
    exact h.idle n (fun hm => hn (hfl.mem_iff.1 hm)) fun hm => hb ((hf n).2 hm)
  · intro n hn
    rw [hc, hc']
    exact h.busy n (hn.imp hfl.mem_iff.2 (hf n).1)
  · exact hpc

theorem live {n : TupId} (h : ExecInv cfg g₀ root tr s) (hn : n ∈ s.g.nodeRoot) :
    n ∈ g₀.nodeRoot ∧ n ≠ root :=
  ⟨h.dag.sub n hn, fun hc => h.root_gone (hc ▸ hn)⟩

/-- A phase that stays is a number of passes that stays. -/
theorem passes_congr {g g' : Graph} (hs : SameNodes g g') (n : TupId) :
    passes g₀ g' n = passes g₀ g n := by
  simp only [passes, hs.nodeRoot, hs.transient]

/-- A pop is one more pass of its node. -/
theorem passes_pop (hb : BuiltGraph g₀ root) {g g' : Graph} {flight : List TupId} {bad : TupId → Prop} {n : TupId}
    (h : DagInv g₀ (n :: flight) bad g) (hp : Popped g g' n) (m : TupId) :
    passes g₀ g' m = passes g₀ g m + if n = m then 1 else 0 := by
  have hlive := h.flight_live n List.mem_cons_self
  have hnd := h.nodeRoot_nodup
  by_cases hmn : m = n
  · subst hmn
    have htr := h.transient m
    by_cases ht : (g.node m).transient = .processing
    · obtain ⟨hroot, hdel, -, -⟩ := hp.kept ht
      simp [passes, hroot, hdel, hlive, ht]
    · obtain ⟨hroot, hsame, -, -⟩ := hp.gone ht
      have hnot : m ∉ g'.nodeRoot := by rw [hroot, hnd.mem_erase_iff]; simp
      by_cases hdel : (g.node m).transient = .delete
      · have h0 : (g₀.node m).transient = .processing := by
          rcases htr with h0 | h0
          · exact absurd (h0.symm.trans hdel) (hb.transient m)
          · exact h0.1
        simp [passes, hnot, hlive, hdel, h0]
      · have h0 : (g₀.node m).transient ≠ .processing := by
          rcases htr with h0 | h0
          · rw [← h0]; exact ht
          · exact absurd h0.2 hdel
        simp [passes, hnot, hlive, hdel, h0]
  · have hmem : m ∈ g'.nodeRoot ↔ m ∈ g.nodeRoot := by
      by_cases ht : (g.node n).transient = .processing
      · rw [(hp.kept ht).1]
      · rw [(hp.gone ht).1, hnd.mem_erase_iff]
        simp [hmn]
    have hnm : n ≠ m := fun hc => hmn hc.symm
    simp [passes, hmem, hp.transient_of_ne m hmn, hnm]

/-! ### What a step does -/

end ExecInv

/-- Where the main thread goes on its own. -/
inductive TauTo (cfg : Config) (s : Exec) : Pc → Prop
  | leave : s.pc = .head → s.g.plist = [] ∨ s.going cfg = false → TauTo cfg s .after
  | loop : s.pc = .checkEmpties → s.freeList ≠ [] →
      (s.g.plist = [] ∨ s.going cfg = false → s.active = 0) → TauTo cfg s .head
  | quit : s.pc = .after → TauTo cfg s (.join (resultCode s))
  | ret {rc} : s.pc = .join rc → s.activeList = [] → TauTo cfg s (.done rc)

/-- Everything a step from a reachable state can do. No list operation fails. -/
inductive Move (cfg : Config) (g₀ : Graph) (tr : List Event) (s : Exec) : Event → Exec → Prop
  | tau {pc} : TauTo cfg s pc → Move cfg g₀ tr s .tau { s with pc := pc }
  | requeue {n g} : s.pc = .head → n ∈ s.g.plist → DagInv g₀ (inFlight s) (Failed tr) g →
      g.plist.length + 1 = s.g.plist.length → SameNodes s.g g → g.edges = s.g.edges →
      Move cfg g₀ tr s (.requeue n) { s with g := g, pc := .checkEmpties }
  | start {n g wt free} : s.pc = .head → n ∈ s.g.plist → (∀ a, ¬ Adj s.g a n) →
      s.freeList = wt :: free → DagInv g₀ (n :: inFlight s) (Failed tr) g →
      g.plist.length + 1 = s.g.plist.length → SameNodes s.g g → g.edges = s.g.edges →
      Move cfg g₀ tr s (.start n) { s with
        g := g, active := s.active + 1, freeList := free
        activeList := (wt, n) :: s.activeList, pc := .checkEmpties }
  | finish {wt n rc} : (wt, n) ∈ s.activeList →
      Move cfg g₀ tr s (.finish n rc) (workerRet s wt n rc)
  | succeed {wt n fin rest g} : s.pc = .checkEmpties → s.finList = (wt, n, 0) :: fin →
      rest = s.activeList.map (·.2) ++ fin.map (·.2.1) → DagInv g₀ (n :: rest) (Failed tr) s.g →
      Popped s.g g n → DagInv.PhasesPopped s.g g n → DagInv g₀ rest (Failed tr) g →
      Move cfg g₀ tr s (.reap n 0) { s with
        finList := fin, freeList := wt :: s.freeList, active := s.active - 1, g := g }
  | fail {wt n rc fin rest g} : s.pc = .checkEmpties → s.finList = (wt, n, rc) :: fin → rc ≠ 0 →
      rest = s.activeList.map (·.2) ++ fin.map (·.2.1) → DagInv g₀ (n :: rest) (Failed tr) s.g →
      DagInv g₀ rest (fun m => m = n ∨ Failed tr m) g → g.plist = s.g.plist → SameNodes s.g g →
      g.edges = s.g.edges →
      Move cfg g₀ tr s (.reap n rc) { s with
        finList := fin, freeList := wt :: s.freeList, active := s.active - 1, g := g
        failed := s.failed + 1 }
  | signal : s.dead = false → Move cfg g₀ tr s .signal { s with dead := true }

namespace ExecInv

variable {cfg : Config} {g₀ : Graph} {root : TupId} {tr : List Event} {s : Exec}

/-- One turn of the main loop, up to `check_empties`. -/
theorem dispatch_move {n : TupId} (hb : BuiltGraph g₀ root) (h : ExecInv cfg g₀ root tr s)
    (hpc : s.pc = .head) (hn : n ∈ s.g.plist) (hfree : s.freeList ≠ []) :
    Move cfg g₀ tr s (dispatch s n).1 (dispatch s n).2 := by
  have hlive := h.live (h.dag.live n (.inr hn))
  by_cases hin : inEdges s.g n = []
  · have hexp : (s.g.node n).expanded = true := by
      rw [h.dag.expanded]
      exact hb.expanded n hlive.1 hlive.2
    obtain ⟨g₁, h₁, hdag, hlen, hsame, hedges⟩ := h.dag.take hn (inEdges_eq_nil.1 hin)
    obtain ⟨wt, free, hfr⟩ := List.exists_cons_of_ne_nil hfree
    have hd : dispatch s n = (.start n, { s with
        g := g₁, active := s.active + 1, freeList := free
        activeList := (wt, n) :: s.activeList, pc := .checkEmpties }) := by
      simp [dispatch, hin, hexp, h₁, hfr]
    rw [hd]
    exact .start hpc hn (inEdges_eq_nil.1 hin) hfr hdag hlen hsame hedges
  · have hex : ∃ a, Adj s.g a n := by
      by_contra hc
      exact hin (inEdges_eq_nil.2 fun a ha => hc ⟨a, ha⟩)
    obtain ⟨g₁, g₂, h₁, h₂, hdag, hlen, hsame, hedges⟩ := h.dag.requeue hn hex
    have hd : dispatch s n = (.requeue n, { s with
        g := g₂.setState n .finished, pc := .checkEmpties }) := by
      simp [dispatch, hin, h₁, h₂]
    rw [hd]
    exact .requeue hpc hn hdag hlen hsame hedges

/-- The main thread takes a finished worker back. -/
theorem takeFinished_move {wt : ℕ} {n : TupId} {rc : Int} {fin : List (ℕ × TupId × Int)}
    (h : ExecInv cfg g₀ root tr s) (hpc : s.pc = .checkEmpties)
    (hfin : s.finList = (wt, n, rc) :: fin) :
    Move cfg g₀ tr s (takeFinished s wt n rc fin).1 (takeFinished s wt n rc fin).2 := by
  obtain ⟨rest, hrest⟩ : ∃ rest, rest = s.activeList.map (·.2) ++ fin.map (·.2.1) := ⟨_, rfl⟩
  have hperm : (inFlight s).Perm (n :: rest) := by
    rw [inFlight, hfin, hrest]
    exact List.perm_middle
  have hdag := h.dag.perm hperm
  by_cases hrc : rc = 0
  · subst hrc
    obtain ⟨g', hpop, hp, hdag', hph⟩ := hdag.pop
    have ht : takeFinished s wt n 0 fin = (.reap n 0, { s with
        finList := fin, freeList := wt :: s.freeList, active := s.active - 1, g := g' }) := by
      simp [takeFinished, hpop]
    rw [ht]
    exact .succeed hpc hfin hrest hdag hp hph hdag'
  · obtain ⟨g', hput, hdag', hpl, hsame, hedges⟩ := hdag.putAway
    have ht : takeFinished s wt n rc fin = (.reap n rc, { s with
        finList := fin, freeList := wt :: s.freeList, active := s.active - 1, g := g'
        failed := s.failed + 1 }) := by
      simp [takeFinished, hput, hrc]
    rw [ht]
    exact .fail hpc hfin hrc hrest hdag hdag' hpl hsame hedges

theorem mainStep_move {e : Event} {s' : Exec} (hb : BuiltGraph g₀ root)
    (h : ExecInv cfg g₀ root tr s) (hst : mainStep cfg s = some (e, s')) :
    Move cfg g₀ tr s e s' := by
  have hpc := h.pc
  unfold mainStep at hst
  cases hp : s.pc with
  | head =>
    simp only [hp, PcOk] at hst hpc
    cases hl : s.g.plist with
    | nil =>
      simp only [hl, Option.some.injEq, Prod.mk.injEq] at hst
      obtain ⟨rfl, rfl⟩ := hst
      exact .tau (.leave hp (.inl hl))
    | cons n rest =>
      simp only [hl] at hst
      by_cases hg : s.going cfg
      · simp only [hg, if_true, Option.some.injEq] at hst
        have hn : n ∈ s.g.plist := by rw [hl]; exact List.mem_cons_self
        have := h.dispatch_move hb hp hn hpc.1
        rw [hst] at this
        exact this
      · simp only [hg, Bool.false_eq_true, if_false, Option.some.injEq, Prod.mk.injEq] at hst
        obtain ⟨rfl, rfl⟩ := hst
        exact .tau (.leave hp (.inr (by simpa using hg)))
  | checkEmpties =>
    simp only [hp] at hst
    split at hst
    next hwait =>
      cases hl : s.finList with
      | nil => simp [hl] at hst
      | cons w fin =>
        obtain ⟨wt, n, rc⟩ := w
        simp only [hl, Option.some.injEq] at hst
        have := h.takeFinished_move hp hl
        rw [hst] at this
        exact this
    next hgo =>
      simp only [Option.some.injEq, Prod.mk.injEq] at hst
      obtain ⟨rfl, rfl⟩ := hst
      simp only [Bool.or_eq_true, Bool.and_eq_true, List.isEmpty_iff, Bool.not_eq_true',
        bne_iff_ne, ne_eq, not_or, not_and, not_not] at hgo
      exact .tau (.loop hp hgo.1 hgo.2)
  | after =>
    simp only [hp, Option.some.injEq, Prod.mk.injEq] at hst
    obtain ⟨rfl, rfl⟩ := hst
    exact .tau (.quit hp)
  | join rc =>
    simp only [hp] at hst
    split at hst
    next he =>
      simp only [Option.some.injEq, Prod.mk.injEq] at hst
      obtain ⟨rfl, rfl⟩ := hst
      exact .tau (.ret hp (List.isEmpty_iff.1 he))
    · cases hst
  | done rc => simp [hp] at hst
  | fault => simp [hp] at hst

/-- Every step from a reachable state is a `Move`. -/
theorem move {e : Event} {s' : Exec} (hb : BuiltGraph g₀ root) (h : ExecInv cfg g₀ root tr s)
    (hst : Step cfg s e s') : Move cfg g₀ tr s e s' := by
  cases hst with
  | main hm => exact h.mainStep_move hb hm
  | worker rc hmem => exact .finish hmem
  | signal hd => exact .signal hd

/-! ### The invariant is kept -/

/-- The code is never that of an internal error. -/
theorem resultCode_ne (s : Exec) : resultCode s ≠ -2 := by
  unfold resultCode
  split_ifs <;> decide

theorem pcOk_tauTo {pc : Pc} (h : PcOk cfg s) (ht : TauTo cfg s pc) :
    PcOk cfg { s with pc := pc } := by
  unfold PcOk at h
  cases ht with
  | leave hp hl =>
    rw [hp] at h
    exact fun hd => ⟨hl, h.2 hd hl⟩
  | loop hp hfree hact => exact ⟨hfree, fun _ => hact⟩
  | quit hp =>
    rw [hp] at h
    exact ⟨resultCode_ne s, fun hd => ⟨h hd, rfl⟩⟩
  | ret hp _ =>
    rw [hp] at h
    exact h

theorem pcOk_signal (h : PcOk cfg s) : PcOk cfg { s with dead := true } := by
  unfold PcOk at h ⊢
  cases hp : s.pc <;> simp_all

/-- A node is taken from the plist and handed to a worker. -/
theorem start_step {n : TupId} {g : Graph} {wt : ℕ} {free : List ℕ}
    (h : ExecInv cfg g₀ root tr s) (hn : n ∈ s.g.plist) (hfr : s.freeList = wt :: free)
    (hdag : DagInv g₀ (n :: inFlight s) (Failed tr) g) (hsame : SameNodes s.g g) :
    ExecInv cfg g₀ root (tr ++ [.start n]) { s with
      g := g, active := s.active + 1, freeList := free
      activeList := (wt, n) :: s.activeList, pc := .checkEmpties } := by
  have hnf : n ∉ inFlight s := h.dag.not_flight (.inr hn)
  have hnbad : ¬ Failed tr n := fun hc => h.dag.ok.not_mem_plist (h.dag.bad_waits n hc).1 hn
  have hfl : inFlight { s with
      g := g, active := s.active + 1, freeList := free
      activeList := (wt, n) :: s.activeList, pc := .checkEmpties } = n :: inFlight s := rfl
  have hf : ∀ m, Failed (tr ++ [.start n]) m ↔ Failed tr m :=
    fun m => failed_snoc_quiet fun _ => by simp
  have hc : ∀ m, (tr ++ [Event.start n]).count (.reap m 0) = tr.count (.reap m 0) := fun m => by
    simp
  constructor
  · rw [hfl]
    exact hdag.congr_bad fun m => (hf m).symm
  · rw [hfl]
    simp [h.active]
  · have := h.workers
    rw [hfr] at this
    rw [hfl]
    simp only [List.length_cons] at this ⊢
    omega
  · simp only [hf, h.failed]
  · show root ∉ g.nodeRoot
    rw [hsame.nodeRoot]
    exact h.root_gone
  · intro m hm hr
    rw [hc, passes_congr hsame]
    exact h.pops m hm hr
  · intro m rc hm
    exact h.reaped m rc (by simpa using hm)
  · intro m hm hbad
    rw [hfl, List.mem_cons, not_or] at hm
    rw [hc, count_snoc, if_neg (by simpa using fun hc => hm.1 hc.symm)]
    exact h.idle m hm.2 fun hc => hbad ((hf m).2 hc)
  · intro m hm
    rw [hfl, List.mem_cons, hf] at hm
    rw [hc, count_snoc]
    by_cases hmn : n = m
    · subst hmn
      simp [h.idle n hnf hnbad]
    · rw [if_neg (by simpa using hmn)]
      refine h.busy m ?_
      rcases hm with (hm | hm) | hm
      · exact absurd hm.symm hmn
      · exact .inl hm
      · exact .inr hm
  · trivial

section reap

variable {wt : ℕ} {n : TupId} {rc : Int} {fin : List (ℕ × TupId × Int)} {rest : List TupId}
  {g : Graph} (h : ExecInv cfg g₀ root tr s) (hpc : s.pc = .checkEmpties)
  (hfin : s.finList = (wt, n, rc) :: fin)
  (hrest : rest = s.activeList.map (·.2) ++ fin.map (·.2.1))

include hfin hrest in
theorem mem_inFlight (m : TupId) : m ∈ inFlight s ↔ m = n ∨ m ∈ rest := by
  rw [inFlight, hfin, hrest]
  simp only [List.map_cons, List.mem_append, List.mem_cons]
  tauto

include h hfin hrest in
/-- The job counts once the worker has been taken back. -/
theorem counts_reap :
    s.active - 1 = rest.length ∧ s.freeList.length + 1 + rest.length = cfg.jobs := by
  have hlen : (inFlight s).length = rest.length + 1 := by
    rw [inFlight, hfin, hrest]
    simp only [List.length_append, List.map_cons, List.length_cons]
    omega
  have h1 := h.active
  have h2 := h.workers
  omega

include h hfin in
theorem reaped_reap (m : TupId) (rc' : Int) (hm : Event.reap m rc' ∈ tr ++ [.reap n rc]) :
    m ∈ g₀.nodeRoot ∧ m ≠ root := by
  rcases List.mem_append.1 hm with hm | hm
  · exact h.reaped m rc' hm
  · cases List.mem_singleton.1 hm
    refine h.live (h.dag.flight_live n ?_)
    rw [mem_inFlight hfin rfl]
    exact .inl rfl

include h hpc hrest in
/-- A worker that succeeded is taken back, and its node is popped. -/
theorem succeed_step (hb : BuiltGraph g₀ root) (hfin : s.finList = (wt, n, 0) :: fin)
    (hdag : DagInv g₀ (n :: rest) (Failed tr) s.g) (hp : Popped s.g g n)
    (hdag' : DagInv g₀ rest (Failed tr) g) :
    ExecInv cfg g₀ root (tr ++ [.reap n 0]) { s with
      finList := fin, freeList := wt :: s.freeList, active := s.active - 1, g := g } := by
  have hmem := mem_inFlight hfin hrest
  obtain ⟨hact, hwork⟩ := h.counts_reap hfin hrest
  have hnr : n ∉ rest := (List.nodup_cons.1 hdag.flight_nodup).1
  have hnbad : ¬ Failed tr n := hdag.not_bad List.mem_cons_self
  have hf : ∀ m, Failed (tr ++ [.reap n 0]) m ↔ Failed tr m := fun m => by
    simp [failed_snoc_reap]
  have hfl : inFlight { s with
      finList := fin, freeList := wt :: s.freeList, active := s.active - 1, g := g } = rest :=
    hrest.symm
  have hcs : ∀ m, (tr ++ [Event.reap n 0]).count (.start m) = tr.count (.start m) := fun m => by
    simp
  have hcr : ∀ m, (tr ++ [Event.reap n 0]).count (.reap m 0) =
      tr.count (.reap m 0) + if n = m then 1 else 0 := fun m => by
    rw [count_snoc]
    simp
  constructor
  · rw [hfl]
    exact hdag'.congr_bad fun m => (hf m).symm
  · rw [hfl]
    exact hact
  · rw [hfl]
    exact hwork
  · simp only [hf, h.failed]
  · exact fun hc => h.root_gone (by
      by_cases hproc : (s.g.node n).transient = .processing
      · rwa [(hp.kept hproc).1] at hc
      · rw [(hp.gone hproc).1] at hc
        exact List.mem_of_mem_erase hc)
  · intro m hm hr
    rw [hcr, passes_pop hb hdag hp, h.pops m hm hr]
  · exact fun m rc' => h.reaped_reap hfin m rc'
  · intro m hm hbad
    rw [hfl] at hm
    rw [hcs, hcr]
    by_cases hmn : n = m
    · subst hmn
      rw [if_pos rfl]
      exact h.busy n (.inl ((hmem n).2 (.inl rfl)))
    · rw [if_neg hmn]
      refine h.idle m (fun hc => ?_) fun hc => hbad ((hf m).2 hc)
      exact ((hmem m).1 hc).elim (fun hc => hmn hc.symm) hm
  · intro m hm
    rw [hfl, hf] at hm
    have hmn : n ≠ m := by
      rintro rfl
      exact hm.elim hnr hnbad
    rw [hcs, hcr, if_neg hmn]
    exact h.busy m (hm.imp_left fun hm => (hmem m).2 (.inr hm))
  · simp [PcOk, hpc]

include h hpc hfin hrest in
/-- A worker that failed is taken back, and its node is put away. -/
theorem fail_step (hrc : rc ≠ 0) (hdag' : DagInv g₀ rest (fun m => m = n ∨ Failed tr m) g)
    (hsame : SameNodes s.g g) :
    ExecInv cfg g₀ root (tr ++ [.reap n rc]) { s with
      finList := fin, freeList := wt :: s.freeList, active := s.active - 1, g := g
      failed := s.failed + 1 } := by
  have hmem := mem_inFlight hfin hrest
  obtain ⟨hact, hwork⟩ := h.counts_reap hfin hrest
  have hf : ∀ m, Failed (tr ++ [.reap n rc]) m ↔ m = n ∨ Failed tr m := fun m => by
    rw [failed_snoc_reap, or_comm]
    simp [hrc, eq_comm]
  have hfl : inFlight { s with
      finList := fin, freeList := wt :: s.freeList, active := s.active - 1, g := g
      failed := s.failed + 1 } = rest := hrest.symm
  have hcs : ∀ m, (tr ++ [Event.reap n rc]).count (.start m) = tr.count (.start m) := fun m => by
    simp
  have hcr : ∀ m, (tr ++ [Event.reap n rc]).count (.reap m 0) = tr.count (.reap m 0) :=
    fun m => by simp [hrc]
  constructor
  · rw [hfl]
    exact hdag'.congr_bad fun m => (hf m).symm
  · rw [hfl]
    exact hact
  · rw [hfl]
    exact hwork
  · refine ⟨fun hc => absurd hc (Nat.succ_ne_zero _), fun hc => absurd ((hf n).2 (.inl rfl)) (hc n)⟩
  · show root ∉ g.nodeRoot
    rw [hsame.nodeRoot]
    exact h.root_gone
  · intro m hm hr
    rw [hcr, passes_congr hsame]
    exact h.pops m hm hr
  · exact fun m rc' => h.reaped_reap hfin m rc'
  · intro m hm hbad
    rw [hfl] at hm
    rw [hf, not_or] at hbad
    rw [hcs, hcr]
    exact h.idle m (fun hc => ((hmem m).1 hc).elim hbad.1 hm) hbad.2
  · intro m hm
    rw [hfl, hf] at hm
    rw [hcs, hcr]
    refine h.busy m ?_
    rw [hmem]
    rcases hm with hm | hm | hm
    · exact .inl (.inr hm)
    · exact .inl (.inl hm)
    · exact .inr hm
  · simp [PcOk, hpc]

end reap

/-- Every step keeps the invariant. -/
theorem step {e : Event} {s' : Exec} (hb : BuiltGraph g₀ root) (h : ExecInv cfg g₀ root tr s)
    (hst : Step cfg s e s') : ExecInv cfg g₀ root (tr ++ [e]) s' := by
  cases h.move hb hst with
  | tau ht =>
    exact h.quiet trivial (.refl _) h.dag rfl rfl rfl (fun _ => rfl) h.root_gone
      (pcOk_tauTo h.pc ht)
  | @requeue n g _ hn hdag _ hsame _ =>
    refine h.quiet trivial (.refl _) hdag rfl rfl rfl (passes_congr hsame) ?_ trivial
    show root ∉ g.nodeRoot
    rw [hsame.nodeRoot]
    exact h.root_gone
  | start _ hn _ hfr hdag _ hsame _ => exact h.start_step hn hfr hdag hsame
  | @finish wt n rc hmem =>
    refine h.quiet trivial ?_ h.dag rfl rfl rfl (fun _ => rfl) h.root_gone h.pc
    have h1 := ((List.perm_cons_erase hmem).map Prod.snd).append_right (s.finList.map (·.2.1))
    exact h1.trans List.perm_middle.symm
  | succeed hpc hfin hrest hdag hp _ hdag' => exact h.succeed_step hpc hrest hb hfin hdag hp hdag'
  | fail hpc hfin hrc hrest _ hdag' _ hsame _ => exact h.fail_step hpc hfin hrest hrc hdag' hsame
  | signal hd =>
    exact h.quiet trivial (.refl _) h.dag rfl rfl rfl (fun _ => rfl) h.root_gone
      (pcOk_signal h.pc)

/-- The main loop starts with the invariant. -/
theorem init (hb : BuiltGraph g₀ root) (hj : 1 ≤ cfg.jobs) :
    ExecInv cfg g₀ root [] (startGraph cfg g₀) := by
  obtain ⟨l, hl⟩ := hb.nodeList
  obtain ⟨g₁, h₁, hdag, -, hsame⟩ := DagInv.start hb
  obtain ⟨g', hpop, hp, hdag', -⟩ := hdag.pop
  have hs : startGraph cfg g₀ =
      { g := g', pc := .head, freeList := (List.range cfg.jobs).reverse, activeList := []
        finList := [], active := 0, failed := 0, dead := false } := by
    simp only [startGraph, hl, h₁, hpop, Option.bind_eq_bind, Option.bind_some]
  have hroot : (g₁.node root).transient ≠ .processing := by
    intro hc
    rw [hsame.transient] at hc
    have := hb.generated root hc
    rw [hb.root_type] at this
    cases this
  have hgone := (hp.gone hroot).1
  have hnf : ∀ n, ¬ Failed [] n := by
    rintro n ⟨rc, -, hm⟩
    cases hm
  have hnd := hdag.nodeRoot_nodup
  rw [hs]
  constructor
  · exact hdag'.congr_bad fun m => (iff_false_intro (hnf m)).symm
  · rfl
  · simp [inFlight]
  · exact iff_of_true rfl hnf
  · rw [hgone, hnd.mem_erase_iff]
    simp
  · intro n hn hr
    have hmem : n ∈ g'.nodeRoot := by
      rw [hgone, hnd.mem_erase_iff, hsame.nodeRoot]
      exact ⟨hr, hn⟩
    have htr : (g'.node n).transient ≠ .delete := by
      rw [hp.transient_of_ne n hr, hsame.transient]
      exact hb.transient n
    simp [passes, hmem, htr]
  · simp
  · simp
  · intro n hn
    rcases hn with hn | hn
    · simp [inFlight] at hn
    · exact absurd hn (hnf n)
  · refine ⟨?_, fun _ _ => rfl⟩
    rw [ne_eq, List.reverse_eq_nil_iff, List.range_eq_nil]
    omega

end ExecInv

/-- Every reachable state satisfies the invariant. -/
theorem execInv_of_run {cfg : Config} {g₀ : Graph} {root : TupId} {tr : List Event} {s : Exec}
    (hb : BuiltGraph g₀ root) (hj : 1 ≤ cfg.jobs) (hr : ExecRun cfg g₀ tr s) :
    ExecInv cfg g₀ root tr s :=
  hr.invariant (.init hb hj) fun _ _ _ _ _ hi hst => hi.step hb hst

end Metatup
