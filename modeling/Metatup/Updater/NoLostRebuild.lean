import Metatup.Updater.UpdateWork

/-!
# No rebuild is lost

A command whose `skip` flag has been cleared is recorded in the flag tables until it has been
executed with success, at every point of every run of an update; so an update that stops anywhere
is picked up by the next one.

* `Marked`: what the functions that clear `skip` flags do.
* `UpdateInv`: the invariant of an update.
* `no_lost_rebuild`: the result.
* `not_in_modify_list`: the record can be in the transient list only.
-/

set_option linter.unusedSectionVars false

namespace Metatup

/-- The node is a command. -/
def IsCmd (g : Graph) (n : TupId) : Prop := (g.node n).tent.type = .cmd

/-- An edge of the table `normal_link` goes from `a` to `b`. -/
def NormalEdge (g : Graph) (a b : TupId) : Prop :=
  ∃ e ∈ outEdges g a, e.dest = b ∧ e.style = .normal

theorem NormalEdge.adj {g : Graph} {a b : TupId} (h : NormalEdge g a b) : Adj g a b := by
  obtain ⟨e, he, hb, -⟩ := h
  obtain ⟨he, ha⟩ := mem_outEdges.1 he
  exact ⟨e, he, ha, hb⟩

theorem adj_of_mem_outEdges {g : Graph} {n : TupId} {e : Edge} (h : e ∈ outEdges g n) :
    Adj g n e.dest := by
  obtain ⟨he, hs⟩ := mem_outEdges.1 h
  exact ⟨e, he, hs, rfl⟩

/-! ### The functions -/

/-- The `skip` flags of the nodes in `lo`, and of no node outside `hi`, have been cleared, and the
commands among them have been put in the modify list. -/
structure Marked (g : Graph) (lo hi : TupId → Prop) (w w' : Work) : Prop where
  lo : ∀ d, lo d → w'.skip d = false ∧ (IsCmd g d → d ∈ w'.flags.modify)
  skip : ∀ d, w.skip d = false → w'.skip d = false
  modify : ∀ d ∈ w.flags.modify, d ∈ w'.flags.modify
  hi : ∀ d, w'.skip d = false → w.skip d = false ∨ (hi d ∧ (IsCmd g d → d ∈ w'.flags.modify))
  transient : w'.flags.transient = w.flags.transient

namespace Marked

variable {g : Graph} {lo lo' hi hi' : TupId → Prop} {w w' w'' : Work}

theorem refl (w : Work) : Marked g (fun _ => False) hi w w :=
  ⟨fun _ h => h.elim, fun _ h => h, fun _ h => h, fun _ h => .inl h, rfl⟩

theorem trans (h : Marked g lo hi w w') (h' : Marked g lo' hi w' w'') :
    Marked g (fun d => lo d ∨ lo' d) hi w w'' where
  lo d hd := by
    rcases hd with hd | hd
    · exact ⟨h'.skip d (h.lo d hd).1, fun hc => h'.modify d ((h.lo d hd).2 hc)⟩
    · exact h'.lo d hd
  skip d hd := h'.skip d (h.skip d hd)
  modify d hd := h'.modify d (h.modify d hd)
  hi d hd := by
    rcases h'.hi d hd with hd | hd
    · rcases h.hi d hd with hd | ⟨hd, hm⟩
      · exact .inl hd
      · exact .inr ⟨hd, fun hc => h'.modify d (hm hc)⟩
    · exact .inr hd
  transient := h'.transient.trans h.transient

theorem weaken (h : Marked g lo hi w w') (hlo : ∀ d, lo' d → lo d) (hhi : ∀ d, hi d → hi' d) :
    Marked g lo' hi' w w' :=
  ⟨fun d hd => h.lo d (hlo d hd), h.skip, h.modify,
    fun d hd => (h.hi d hd).imp_right (And.imp_left (hhi d)), h.transient⟩

end Marked

theorem unskip_skip (w : Work) (n d : TupId) :
    (w.unskip n).skip d = if d = n then false else w.skip d := by
  simp [Work.unskip, Function.update_apply]

theorem modifyOutput_marked (g : Graph) (w : Work) (e : Edge) :
    Marked g (fun d => e.dest = d ∧ e.style = .normal) (fun d => e.dest = d ∧ e.style = .normal)
      w (modifyOutput g w e) := by
  unfold modifyOutput
  by_cases hs : e.style = .normal
  · rw [if_pos hs]
    by_cases hc : (g.node e.dest).tent.type = .cmd
    · rw [if_pos hc]
      refine ⟨?_, ?_, ?_, ?_, rfl⟩
      · rintro d ⟨rfl, -⟩
        exact ⟨by simp [unskip_skip], fun _ => Finset.mem_insert_self _ _⟩
      · intro d hd
        simp [unskip_skip, hd]
      · exact fun d hd => Finset.mem_insert_of_mem hd
      · intro d hd
        by_cases hde : d = e.dest
        · exact .inr ⟨⟨hde.symm, hs⟩, fun _ => hde ▸ Finset.mem_insert_self _ _⟩
        · simp only [unskip_skip, hde, if_false] at hd
          exact .inl hd
    · rw [if_neg hc]
      refine ⟨?_, ?_, fun d hd => hd, ?_, rfl⟩
      · rintro d ⟨rfl, -⟩
        exact ⟨by simp [unskip_skip], fun h => absurd h hc⟩
      · intro d hd
        simp [unskip_skip, hd]
      · intro d hd
        by_cases hde : d = e.dest
        · exact .inr ⟨⟨hde.symm, hs⟩, fun h => absurd (hde ▸ h) hc⟩
        · simp only [unskip_skip, hde, if_false] at hd
          exact .inl hd
  · rw [if_neg hs]
    exact (Marked.refl w).weaken (fun d hd => hs hd.2) fun _ hd => hd

/-- Source: `updater.c` `modify_outputs` -/
theorem modifyOutputs_marked (g : Graph) (w : Work) (n : TupId) :
    Marked g (NormalEdge g n) (NormalEdge g n) w (modifyOutputs g w n) := by
  have hfold : ∀ (l : List Edge) (w : Work),
      Marked g (fun d => ∃ e ∈ l, e.dest = d ∧ e.style = .normal)
        (fun d => ∃ e ∈ l, e.dest = d ∧ e.style = .normal) w (l.foldl (modifyOutput g) w) := by
    intro l
    induction l with
    | nil => exact fun w => (Marked.refl w).weaken (by simp) fun _ hd => hd
    | cons e l ih =>
      intro w
      have h1 : Marked g _ (fun d => ∃ f ∈ e :: l, f.dest = d ∧ f.style = .normal) w _ :=
        (modifyOutput_marked g w e).weaken (fun _ hd => hd) fun d hd => ⟨e, by simp, hd⟩
      have h2 : Marked g _ (fun d => ∃ f ∈ e :: l, f.dest = d ∧ f.style = .normal) _ _ :=
        (ih (modifyOutput g w e)).weaken (fun _ hd => hd) fun d ⟨f, hf, hd⟩ =>
          ⟨f, by simp [hf], hd⟩
      refine (h1.trans h2).weaken ?_ fun _ hd => hd
      rintro d ⟨f, hf, hd⟩
      rcases List.mem_cons.1 hf with rfl | hf
      · exact .inl hd
      · exact .inr ⟨f, hf, hd⟩
  exact hfold (outEdges g n) w

/-- The loop over the outputs of a command that has succeeded. -/
theorem markNext_marked (g : Graph) (l : List Edge) (w : Work) :
    Marked g (fun d => ∃ e ∈ l, w.skip e.dest = false ∧ NormalEdge g e.dest d)
      (fun d => ∃ e ∈ l, NormalEdge g e.dest d) w
      (l.foldl (fun w e => if w.skip e.dest then w else modifyOutputs g w e.dest) w) := by
  induction l generalizing w with
  | nil => exact (Marked.refl w).weaken (by simp) fun _ hd => hd
  | cons e l ih =>
    simp only [List.foldl_cons]
    by_cases hs : w.skip e.dest = true
    · rw [if_pos hs]
      refine (ih w).weaken ?_ ?_
      · rintro d ⟨f, hf, hsk, hd⟩
        rcases List.mem_cons.1 hf with rfl | hf
        · rw [hs] at hsk
          cases hsk
        · exact ⟨f, hf, hsk, hd⟩
      · rintro d ⟨f, hf, hd⟩
        exact ⟨f, List.mem_cons_of_mem _ hf, hd⟩
    · rw [if_neg hs]
      have h1 : Marked g _ (fun d => ∃ f ∈ e :: l, NormalEdge g f.dest d) w _ :=
        (modifyOutputs_marked g w e.dest).weaken (fun _ hd => hd) fun d hd => ⟨e, by simp, hd⟩
      have h2 : Marked g _ (fun d => ∃ f ∈ e :: l, NormalEdge g f.dest d) _ _ :=
        (ih (modifyOutputs g w e.dest)).weaken (fun _ hd => hd) fun d ⟨f, hf, hd⟩ =>
          ⟨f, List.mem_cons_of_mem _ hf, hd⟩
      refine (h1.trans h2).weaken ?_ fun _ hd => hd
      rintro d ⟨f, hf, hsk, hd⟩
      rcases List.mem_cons.1 hf with rfl | hf
      · exact .inl hd
      · exact .inr ⟨f, hf, h1.skip _ hsk, hd⟩

/-- The nodes a node marks when its work has succeeded: what its outputs point to, or what it
points to itself if it is no command, where the one in between has its `skip` flag cleared. -/
def Marks (g : Graph) (w : Work) (n d : TupId) : Prop :=
  ∃ f, w.skip f = false ∧ ((IsCmd g n ∧ Adj g n f) ∨ (¬ IsCmd g n ∧ f = n)) ∧ NormalEdge g f d

/-- What the end of `update_work` does for `n`, with the result `rc`. -/
structure Finished (g : Graph) (n : TupId) (rc : Int) (w w' : Work) : Prop where
  marks : rc = 0 → ∀ d, Marks g w n d → w'.skip d = false ∧ (IsCmd g d → d ≠ n → d ∈ w'.flags.modify)
  skip : ∀ d, w.skip d = false → w'.skip d = false
  cleared : ∀ d, w'.skip d = false → w.skip d = false ∨
    ((∃ f, NormalEdge g f d) ∧ (IsCmd g d → d ≠ n → d ∈ w'.flags.modify))
  modify : ∀ d ∈ w.flags.modify, (d = n → rc ≠ 0 ∧ IsCmd g n) → d ∈ w'.flags.modify
  transient : ∀ d ∈ w.flags.transient,
    (d = n → IsCmd g n ∧ (rc ≠ 0 ∨ ¬ isTransientTent (g.node n).tent)) → d ∈ w'.flags.transient

theorem finishCmd_finished {g : Graph} {n : TupId} (hc : IsCmd g n) (w : Work) (rc : Int) :
    Finished g n rc w (finishCmd g w n rc) := by
  unfold finishCmd
  by_cases hrc : rc = 0
  · rw [if_pos hrc]
    have h := markNext_marked g (outEdges g n) w
    -- the modify list is that of the loop without `n`, the transient list loses `n` at most
    have hmod : ∀ (b : Bool) (f : Flags), (if b then tupDbUnflagTransient (tupDbUnflagModify f n) n
        else tupDbUnflagModify f n).modify = f.modify.erase n := by
      intro b f
      cases b <;> rfl
    refine ⟨fun _ d hd => ?_, h.skip, fun d hd => ?_, fun d hd hdn => ?_, fun d hd hdn => ?_⟩
    · obtain ⟨f, hf, ⟨-, hnf⟩ | ⟨hnc, -⟩, hfd⟩ := hd
      · obtain ⟨e, he, hsrc, rfl⟩ := hnf
        have := h.lo d ⟨e, mem_outEdges.2 ⟨he, hsrc⟩, hf, hfd⟩
        refine ⟨this.1, fun hcd hdn => ?_⟩
        rw [hmod]
        exact Finset.mem_erase.2 ⟨hdn, this.2 hcd⟩
      · exact absurd hc hnc
    · rcases h.hi d hd with hd | ⟨⟨e, -, hed⟩, hm⟩
      · exact .inl hd
      · refine .inr ⟨⟨e.dest, hed⟩, fun hcd hdn => ?_⟩
        rw [hmod]
        exact Finset.mem_erase.2 ⟨hdn, hm hcd⟩
    · rw [hmod]
      exact Finset.mem_erase.2 ⟨fun hc' => (hdn hc').1 hrc, h.modify d hd⟩
    · by_cases ht : isTransientTent (g.node n).tent = true
      · simp only [ht, if_true, tupDbUnflagTransient, tupDbUnflagModify, h.transient]
        exact Finset.mem_erase.2 ⟨fun hc' => (hdn hc').2.elim (fun h' => h' hrc) (fun h' => h' ht), hd⟩
      · simp only [ht, tupDbUnflagModify, h.transient]
        exact hd
  · rw [if_neg hrc]
    exact ⟨fun h => absurd h hrc, fun _ hd => hd, fun _ hd => .inl hd, fun _ hd _ => hd,
      fun _ hd _ => hd⟩

/-- `n`, and nothing else, may have been taken off the lists. -/
structure Dropped (n : TupId) (w w' : Work) : Prop where
  skip : w'.skip = w.skip
  modify : ∀ d ∈ w.flags.modify, d ≠ n → d ∈ w'.flags.modify
  transient : ∀ d ∈ w.flags.transient, d ≠ n → d ∈ w'.flags.transient

theorem Dropped.refl (n : TupId) (w : Work) : Dropped n w w :=
  ⟨rfl, fun _ hd _ => hd, fun _ hd _ => hd⟩

theorem Dropped.trans {n : TupId} {w w' w'' : Work} (h : Dropped n w w') (h' : Dropped n w' w'') :
    Dropped n w w'' :=
  ⟨h'.skip.trans h.skip, fun d hd hdn => h'.modify d (h.modify d hd hdn) hdn,
    fun d hd hdn => h'.transient d (h.transient d hd hdn) hdn⟩

theorem finishTransient_dropped (g : Graph) (w : Work) (n : TupId) (unlinked : Bool) :
    Dropped n w (finishTransient g w n unlinked).1 := by
  unfold finishTransient
  split_ifs
  · exact ⟨rfl, fun _ hd _ => hd, fun d hd hdn => Finset.mem_erase.2 ⟨hdn, hd⟩⟩
  · exact .refl n w
  · exact .refl n w

theorem finishVar_dropped (envDt : TupId) (g : Graph) (w : Work) (n : TupId) (rc : Int)
    (deleted : Bool) : Dropped n w (finishVar envDt g w n rc deleted).1 := by
  unfold finishVar
  split_ifs
  · exact ⟨rfl, fun d hd hdn => Finset.mem_erase.2 ⟨hdn, hd⟩,
      fun d hd hdn => Finset.mem_erase.2 ⟨hdn, hd⟩⟩
  · exact .refl n w
  · exact .refl n w

theorem finishFile_finished {g : Graph} {n : TupId} (hc : ¬ IsCmd g n) {envDt : TupId} {w w' : Work}
    {unlinked deleted : Bool} {rc : Int}
    (hfin : finishFile envDt g w n unlinked deleted = (w', rc)) : Finished g n rc w w' := by
  obtain ⟨w₁, hw₁⟩ : ∃ w₁, w₁ = if w.skip n then w else modifyOutputs g w n := ⟨_, rfl⟩
  have h : Marked g (fun d => w.skip n = false ∧ NormalEdge g n d) (NormalEdge g n) w w₁ := by
    rw [hw₁]
    by_cases hs : w.skip n = true
    · rw [if_pos hs]
      refine (Marked.refl w).weaken ?_ fun _ hd => hd
      rintro d ⟨hd, -⟩
      rw [hs] at hd
      cases hd
    · rw [if_neg hs]
      exact (modifyOutputs_marked g w n).weaken (fun _ hd => hd.2) fun _ hd => hd
  have hw : Dropped n w₁ w' := by
    have h1 : Dropped n w₁ { w₁ with flags := tupDbUnflagModify w₁.flags n } :=
      ⟨rfl, fun d hd hdn => Finset.mem_erase.2 ⟨hdn, hd⟩, fun d hd _ => hd⟩
    have h2 := h1.trans (finishTransient_dropped g _ n unlinked)
    have h3 := h2.trans (finishVar_dropped envDt g _ n (finishTransient g
      { w₁ with flags := tupDbUnflagModify w₁.flags n } n unlinked).2 deleted)
    have hfst := congrArg Prod.fst hfin
    simp only [finishFile, ← hw₁] at hfst
    rw [← hfst]
    exact h3
  obtain ⟨hskip, hmod, htr⟩ := hw
  refine ⟨fun _ d hd => ?_, fun d hd => ?_, fun d hd => ?_, fun d hd hdn => ?_, fun d hd hdn => ?_⟩
  · obtain ⟨f, hf, ⟨hcn, -⟩ | ⟨-, rfl⟩, hfd⟩ := hd
    · exact absurd hcn hc
    · have := h.lo d ⟨hf, hfd⟩
      exact ⟨by rw [hskip]; exact this.1, fun hcd hdn => hmod d (this.2 hcd) hdn⟩
  · rw [hskip]
    exact h.skip d hd
  · rw [hskip] at hd
    rcases h.hi d hd with hd | ⟨hd, hm⟩
    · exact .inl hd
    · exact .inr ⟨⟨n, hd⟩, fun hcd hdn => hmod d (hm hcd) hdn⟩
  · exact hmod d (h.modify d hd) fun hdn' => hc (hdn hdn').2
  · exact htr d (h.transient.symm ▸ hd) fun hdn' => hc (hdn hdn').1

/-! ### The steps -/

/-- What a worker does to the shared state before the end of `update_work`: the flags of commands
stay, flags of other nodes are cleared at most, and no command is taken off a list. -/
structure Touched (g : Graph) (w w' : Work) : Prop where
  skip : ∀ d, w.skip d = false → w'.skip d = false
  cmd : ∀ d, IsCmd g d → w'.skip d = w.skip d
  written : Written g w.flags w'.flags

namespace Touched

variable {g : Graph} {w w' w'' : Work}

theorem refl (g : Graph) (w : Work) : Touched g w w :=
  ⟨fun _ hd => hd, fun _ _ => rfl, fun _ hc _ => hc, fun _ hc _ => hc⟩

theorem trans (h : Touched g w w') (h' : Touched g w' w'') : Touched g w w'' :=
  ⟨fun d hd => h'.skip d (h.skip d hd), fun d hd => (h'.cmd d hd).trans (h.cmd d hd),
    fun c hm hc => h'.written.modify c (h.written.modify c hm hc) hc,
    fun c hm hc => h'.written.transient c (h.written.transient c hm hc) hc⟩

theorem unskip {n : TupId} (hn : ¬ IsCmd g n) : Touched g w (w.unskip n) := by
  refine ⟨fun d hd => by simp [unskip_skip, hd], fun d hd => ?_, (refl g w).written⟩
  have hdn : d ≠ n := by
    rintro rfl
    exact hn hd
  rw [unskip_skip, if_neg hdn]

theorem flags {f : Flags} (h : Written g w.flags f) : Touched g w { w with flags := f } :=
  ⟨fun _ hd => hd, fun _ _ => rfl, h⟩

/-- Source: `updater.c` `unskip_outputs` -/
theorem unskipOutputs {n : TupId} (hn : ∀ b, Adj g n b → ¬ IsCmd g b) :
    Touched g w (unskipOutputs g w n) := by
  have hfold : ∀ (l : List Edge) (w : Work), (∀ e ∈ l, ¬ IsCmd g e.dest) →
      Touched g w (l.foldl (fun w e => w.unskip e.dest) w) := by
    intro l
    induction l with
    | nil => exact fun w _ => refl g w
    | cons e l ih =>
      intro w hl
      have h1 : Touched g w (w.unskip e.dest) := unskip (hl e (by simp))
      exact h1.trans (ih _ fun f hf => hl f (by simp [hf]))
  exact hfold _ w fun e he => hn e.dest (adj_of_mem_outEdges he)

/-- Source: `updater.c` `check_outputs` -/
theorem checkOutputs {n : TupId} (hn : ∀ b, Adj g n b → ¬ IsCmd g b) (entry : TupId → TupEntry)
    (same : TupId → Option Bool) : Touched g w (checkOutputs entry g same w n).1 := by
  have hloop : ∀ (l : List Edge) (w : Work), (∀ e ∈ l, ¬ IsCmd g e.dest) →
      Touched g w (checkOutputsLoop entry g same l w).1 := by
    intro l
    induction l with
    | nil => exact fun w _ => refl g w
    | cons e l ih =>
      intro w hl
      have ht : ∀ w, Touched g w (checkOutputsLoop entry g same l w).1 :=
        fun w => ih w fun f hf => hl f (by simp [hf])
      unfold checkOutputsLoop
      split_ifs
      · exact ht w
      · split
        · exact refl g w
        · exact ht w
        · exact (unskip (hl e (by simp))).trans (ht _)
  exact hloop _ w fun e he => hn e.dest (adj_of_mem_outEdges he)

end Touched

/-- A step of `update` touches no command. -/
theorem WorkStep.touched {env : UpdateEnv} {g : Graph} {n : TupId} {w w' : Work} {st st' : Stage}
    (h : WorkStep env g n w st w' st') (hn : ∀ b, Adj g n b → ¬ IsCmd g b)
    (hst : ∀ todo, st = .unlinking todo → ∀ e ∈ todo, ¬ IsCmd g e.dest) :
    Touched g w w' ∧ ∀ todo, st' = .unlinking todo → ∀ e ∈ todo, ¬ IsCmd g e.dest := by
  cases h with
  | keep _ =>
    refine ⟨.refl g w, ?_⟩
    rintro todo ⟨⟩ f hf
    exact hst _ rfl f (List.mem_cons_of_mem _ hf)
  | unlink _ _ hor =>
    refine ⟨.unskip (hst _ rfl _ List.mem_cons_self), ?_⟩
    rintro todo rfl f hf
    rcases hor with hor | hor
    · cases hor
      exact hst _ rfl f (List.mem_cons_of_mem _ hf)
    · cases hor
  | unlinked => exact ⟨.refl g w, by rintro todo ⟨⟩⟩
  | failed => exact ⟨.refl g w, by rintro todo ⟨⟩⟩
  | output _ hf => exact ⟨.flags hf, by rintro todo ⟨⟩⟩
  | unskip _ hf => exact ⟨(Touched.flags hf).trans (.unskipOutputs hn), by rintro todo ⟨⟩⟩
  | check _ hf hc _ =>
    have := congrArg Prod.fst hc
    refine ⟨?_, by rintro todo ⟨⟩⟩
    rw [← show _ = w' from this]
    exact (Touched.flags hf).trans (.checkOutputs hn _ _)

section run

variable {env : UpdateEnv} {cfg : Config} {g₀ : Graph} {root : TupId} {f : Flags}
  {tr : List UpdateEvent} {u u' : Update} {e : UpdateEvent}

/-- The step of `execute_graph` in a step of the update, if there is one. -/
def execEvent : UpdateEvent → List Event
  | .exec e => [e]
  | _ => []

theorem mem_execEvents {e : Event} : e ∈ tr.flatMap execEvent ↔ UpdateEvent.exec e ∈ tr := by
  rw [List.mem_flatMap]
  constructor
  · rintro ⟨a, ha, he⟩
    cases a <;> simp only [execEvent, List.mem_singleton, List.not_mem_nil] at he
    rw [he]
    exact ha
  · exact fun h => ⟨_, h, by simp [execEvent]⟩

/-- A step of the update is a step of `execute_graph` or leaves it alone. -/
theorem UpdateStep.exec (h : UpdateStep env cfg u e u') :
    Lib.Run (Step cfg) u.exec (execEvent e) u'.exec := by
  cases h with
  | main hst => exact Lib.Run.nil.snoc (.main hst)
  | signal hd => exact Lib.Run.nil.snoc (.signal hd)
  | skip _ _ _ _ => exact .nil
  | update _ _ _ _ _ => exact .nil
  | work _ _ _ => exact .nil
  | finishCmd hm _ _ => exact Lib.Run.nil.snoc (.worker _ hm)
  | finishFile hm _ _ _ => exact Lib.Run.nil.snoc (.worker _ hm)

/-- Forgetting what the workers do leaves a run of `execute_graph`. -/
theorem UpdateRun.exec (h : UpdateRun env cfg g₀ f tr u) :
    ExecRun cfg g₀ (tr.flatMap execEvent) u.exec :=
  h.map (f := Update.exec) fun _ _ _ hst => hst.exec

/-! ### The invariant -/

/-- What holds in every state of an update, beyond the invariant of `execute_graph`. -/
structure UpdateInv (g₀ : Graph) (root : TupId) (tr : List UpdateEvent) (u : Update) : Prop where
  /-- The edges a worker still has to go through lead to no command. -/
  todo : ∀ n todo, u.stage n = .unlinking todo → ∀ e ∈ todo, ¬ IsCmd g₀ e.dest
  root_skip : ∀ d, Adj g₀ root d → u.work.skip d = false
  /-- A command to be executed is on a list until it has been executed. -/
  listed : ∀ d, IsCmd g₀ d → ¬ isTransientTent (g₀.node d).tent → u.work.skip d = false →
    UpdateEvent.exec (.finish d 0) ∈ tr ∨ d ∈ u.work.flags.modify ∨ d ∈ u.work.flags.transient

section graph

variable (hb : UpdateGraph g₀ root f) (h : ExecInv cfg g₀ root (tr.flatMap execEvent) u.exec)

include h

theorem isCmd_iff (d : TupId) : IsCmd u.exec.g d ↔ IsCmd g₀ d := by
  rw [IsCmd, IsCmd, h.dag.tent]

include hb

/-- No command is ever waiting to be removed. -/
theorem not_pending_of_cmd {d : TupId} (hd : IsCmd g₀ d) : ¬ Pending u.exec.g d := by
  intro hp
  rcases h.dag.transient d with ht | ht
  · exact hb.built.transient d (ht.symm.trans hp.2)
  · have := hb.built.generated d ht.1
    rw [IsCmd] at hd
    rw [hd] at this
    cases this

/-- At any time a command points to no command. -/
theorem cmd_out {n b : TupId} (hn : IsCmd g₀ n) (hnb : Adj u.exec.g n b) : ¬ IsCmd g₀ b := by
  intro hbc
  rcases (h.dag.adj n b).1 hnb with ⟨h0, -⟩ | ⟨-, hp, -⟩ | ⟨-, -, hp⟩
  · exact hb.cmd_edges n b h0 hn hbc
  · exact not_pending_of_cmd hb h hbc hp
  · exact not_pending_of_cmd hb h hbc hp

/-- Nothing points to a command that has been started. -/
theorem no_in_of_started {d : TupId} (hd : IsCmd g₀ d) (hs : UpdateEvent.exec (.start d) ∈ tr)
    (p : TupId) : ¬ Adj u.exec.g p d := by
  intro hpd
  rcases (h.dag.adj p d).1 hpd with ⟨h0, hu⟩ | ⟨-, hp, -⟩ | ⟨-, -, hp⟩
  · exact h.pred_of_started (mem_execEvents.2 hs) h0 hu
  · exact not_pending_of_cmd hb h hd hp
  · exact not_pending_of_cmd hb h hd hp

end graph

/-- What a step of an update does to the shared state. -/
inductive Effect (g : Graph) (w w' : Work) : UpdateEvent → Prop
  | touched {ev} : (∀ n rc, ev ≠ .exec (.finish n rc)) → Touched g w w' → Effect g w w' ev
  | finished {n rc} : (∀ p, ¬ Adj g p n) → Finished g n rc w w' →
      Effect g w w' (.exec (.finish n rc))

/-- Every step of an update, from a state where the invariants hold. -/
theorem UpdateStep.effect (hb : UpdateGraph g₀ root f)
    (h : ExecInv cfg g₀ root (tr.flatMap execEvent) u.exec) (hi : UpdateInv g₀ root tr u)
    (hst : UpdateStep env cfg u e u') :
    Effect u.exec.g u.work u'.work e ∧
      ∀ n todo, u'.stage n = .unlinking todo → ∀ e ∈ todo, ¬ IsCmd g₀ e.dest := by
  have hset : ∀ (n : TupId) (st : Stage),
      (∀ todo, st = .unlinking todo → ∀ e ∈ todo, ¬ IsCmd g₀ e.dest) → ∀ m todo,
        Function.update u.stage n st m = .unlinking todo → ∀ e ∈ todo, ¬ IsCmd g₀ e.dest := by
    intro n st hst' m todo hm
    by_cases hmn : m = n
    · rw [hmn, Function.update_self] at hm
      exact hst' todo hm
    · rw [Function.update_of_ne hmn] at hm
      exact hi.todo m todo hm
  have hout : ∀ n, IsCmd u.exec.g n → ∀ b, Adj u.exec.g n b → ¬ IsCmd g₀ b :=
    fun n hn b hnb => cmd_out hb h ((isCmd_iff h n).1 hn) hnb
  have hin : ∀ {wt n}, (wt, n) ∈ u.exec.activeList → ∀ p, ¬ Adj u.exec.g p n := by
    intro wt n hm
    refine h.dag.flight_in ?_
    exact List.mem_append_left _ (List.mem_map.2 ⟨(wt, n), hm, rfl⟩)
  cases hst with
  | @main ev s' hm =>
    refine ⟨.touched ?_ (.refl _ _), ?_⟩
    · rintro n rc ⟨⟩
      exact (mainStep_event hm).2 n rc rfl
    · cases ev with
      | start n => exact hset n .begun fun _ h' => by cases h'
      | _ => exact hi.todo
  | signal _ => exact ⟨.touched (by simp) (.refl _ _), hi.todo⟩
  | skip _ _ _ _ =>
    exact ⟨.touched (by simp) (.refl _ _), hset _ _ fun _ h' => by cases h'⟩
  | @update wt n st _ hc _ _ hbegin =>
    refine ⟨.touched (by simp) (.refl _ _), hset _ _ fun todo h' e he => ?_⟩
    cases hbegin with
    | failed => cases h'
    | unlink _ _ =>
      cases h'
      exact hout n hc e.dest (adj_of_mem_outEdges he)
    | move _ _ => cases h'
  | @work wt n w' st' _ hc hw =>
    obtain ⟨ht, htodo⟩ := hw.touched
      (fun b hnb hbc => hout n hc b hnb ((isCmd_iff h b).1 hbc))
      fun todo h' e he hec => hi.todo n todo h' e he ((isCmd_iff h _).1 hec)
    refine ⟨.touched (by simp) ht, hset _ _ fun todo h' e he hec => ?_⟩
    exact htodo todo h' e he ((isCmd_iff h _).2 hec)
  | finishCmd hm hc _ => exact ⟨.finished (hin hm) (finishCmd_finished hc _ _), hi.todo⟩
  | finishFile hm hc _ hf => exact ⟨.finished (hin hm) (finishFile_finished hc hf), hi.todo⟩

/-- A step never sets a `skip` flag again. -/
theorem Effect.skip_mono {g : Graph} {w w' : Work} (h : Effect g w w' e) {d : TupId}
    (hd : w.skip d = false) : w'.skip d = false := by
  cases h with
  | touched _ ht => exact ht.skip d hd
  | finished _ hf => exact hf.skip d hd

/-- The flag of a command that nothing points to stays. -/
theorem Effect.skip_eq {g : Graph} {w w' : Work} (h : Effect g w w' e) {d : TupId} (hd : IsCmd g d)
    (hin : ∀ p, ¬ Adj g p d) : w'.skip d = w.skip d := by
  cases h with
  | touched _ ht => exact ht.cmd d hd
  | finished _ hf =>
    cases hs : w'.skip d with
    | true =>
      cases hs' : w.skip d with
      | true => rfl
      | false => rw [hf.skip d hs'] at hs; cases hs
    | false =>
      rcases hf.cleared d hs with hs' | ⟨⟨p, hp⟩, -⟩
      · exact hs'.symm
      · exact absurd hp.adj (hin p)

theorem UpdateInv.step (hb : UpdateGraph g₀ root f)
    (h : ExecInv cfg g₀ root (tr.flatMap execEvent) u.exec) (hi : UpdateInv g₀ root tr u)
    (hst : UpdateStep env cfg u e u') : UpdateInv g₀ root (tr ++ [e]) u' := by
  obtain ⟨heff, htodo⟩ := hst.effect hb h hi
  refine ⟨htodo, fun d hd => heff.skip_mono (hi.root_skip d hd), fun d hd hnt hs => ?_⟩
  simp only [List.mem_append, List.mem_singleton]
  have hc := (isCmd_iff h d).2 hd
  have hold : u.work.skip d = false → (UpdateEvent.exec (.finish d 0) ∈ tr ∨
      d ∈ u.work.flags.modify ∨ d ∈ u.work.flags.transient) := hi.listed d hd hnt
  cases heff with
  | touched _ ht =>
    rw [ht.cmd d hc] at hs
    rcases hold hs with hf | hm | ht'
    · exact .inl (.inl hf)
    · exact .inr (.inl (ht.written.modify d hm hc))
    · exact .inr (.inr (ht.written.transient d ht' hc))
  | @finished n rc hin hfin =>
    by_cases hself : n = d ∧ rc = 0
    · obtain ⟨rfl, rfl⟩ := hself
      exact .inl (.inr rfl)
    · -- another node, or the command itself, which has failed
      have hkeep : d = n → rc ≠ 0 := fun hdn hrc => hself ⟨hdn.symm, hrc⟩
      rcases hfin.cleared d hs with hs | ⟨⟨p, hp⟩, hm⟩
      · rcases hold hs with hf | hm | ht
        · exact .inl (.inl hf)
        · exact .inr (.inl (hfin.modify d hm fun hdn => ⟨hkeep hdn, hdn ▸ hc⟩))
        · exact .inr (.inr (hfin.transient d ht fun hdn => ⟨hdn ▸ hc, .inl (hkeep hdn)⟩))
      · refine .inr (.inl (hm hc ?_))
        rintro rfl
        exact hin p hp.adj

/-- Both invariants hold after every run of an update. -/
theorem updateInv_of_run (hb : UpdateGraph g₀ root f) (hj : 1 ≤ cfg.jobs)
    (hr : UpdateRun env cfg g₀ f tr u) :
    ExecInv cfg g₀ root (tr.flatMap execEvent) u.exec ∧ UpdateInv g₀ root tr u := by
  have hexec : ∀ {tr u}, UpdateRun env cfg g₀ f tr u →
      ExecInv cfg g₀ root (tr.flatMap execEvent) u.exec :=
    fun hr => execInv_of_run hb.built hj hr.exec
  refine ⟨hexec hr, hr.invariant (I := UpdateInv g₀ root) ?_ ?_⟩
  · refine ⟨fun _ _ h' => (by cases h'), fun d hd => (hb.skip d).2 hd, fun d hd _ hs => .inr ?_⟩
    exact hb.root_cmd d ((hb.skip d).1 hs) hd
  · exact fun _ _ _ _ hr hi hst => hi.step hb (hexec hr) hst

/-- A command that is to be skipped when it is reached is never executed. -/
theorem not_executed_of_skip (hb : UpdateGraph g₀ root f) (hj : 1 ≤ cfg.jobs)
    (hr : UpdateRun env cfg g₀ f tr u) {n : TupId} (hn : IsCmd g₀ n)
    (hst : UpdateStep env cfg u (.exec (.start n)) u') (hs : u.work.skip n = true)
    {tr' : List UpdateEvent} {u'' : Update} (hr' : Lib.Run (UpdateStep env cfg) u' tr' u'') :
    UpdateEvent.update n ∉ tr' := by
  have hr₁ := hr.snoc hst
  have hmem : ∀ l, UpdateEvent.exec (.start n) ∈ tr ++ [.exec (.start n)] ++ l := by simp
  have hskip : u'.work.skip n = true := by
    cases hst with
    | main _ => exact hs
  have hinv : UpdateRun env cfg g₀ f (tr ++ [.exec (.start n)] ++ tr') u'' ∧
      u''.work.skip n = true ∧ UpdateEvent.update n ∉ tr' := by
    refine hr'.invariant (I := fun l s => UpdateRun env cfg g₀ f (tr ++ [.exec (.start n)] ++ l) s ∧
      s.work.skip n = true ∧ UpdateEvent.update n ∉ l) ⟨by simpa using hr₁, hskip, by simp⟩ ?_
    rintro l s e s' - ⟨hrs, hss, hl⟩ hst'
    obtain ⟨he, hi⟩ := updateInv_of_run hb hj hrs
    have hc := (isCmd_iff he n).2 hn
    obtain ⟨heff, -⟩ := hst'.effect hb he hi
    refine ⟨by rw [← List.append_assoc]; exact hrs.snoc hst', ?_, ?_⟩
    · rw [heff.skip_eq hc (no_in_of_started hb he hn (hmem l))]
      exact hss
    · simp only [List.mem_append, List.mem_singleton, not_or]
      refine ⟨hl, ?_⟩
      rintro rfl
      cases hst' with
      | update _ _ _ hs' _ =>
        rw [hss] at hs'
        cases hs'
  exact hinv.2.2

end run

/-- The chain as the graph of an update for the command of the chain. -/
theorem chainGraph_update {f : Flags} (h : 1 ∈ f.modify ∨ 1 ∈ f.transient) :
    UpdateGraph chainGraph 0 f where
  built := chainGraph_built
  skip n := by
    rw [chainGraph_adj]
    simp [chainGraph]
  root_cmd n hn _ := by
    rcases (chainGraph_adj 0 n).1 hn with ⟨h0, -⟩ | ⟨-, rfl⟩
    · cases h0
    · exact h
  cmd_edges a b hab _ := by
    rcases (chainGraph_adj a b).1 hab with ⟨rfl, rfl⟩ | ⟨rfl, rfl⟩
    · decide
    · simp_all [chainGraph]

/-- Directories with nothing special about them. -/
def plainEnv : UpdateEnv where
  entry i := { tupid := i, dt := 0, type := .dir }
  envDt := 3

/-- An update of the chain whose command is in the modify list and in the transient list, but is
not flagged transient (any more): the command is executed with success, and afterwards it is in the
transient list alone. -/
theorem chainGraph_run : ∃ tr u,
    UpdateRun plainEnv ⟨false, 1⟩ chainGraph { modify := {1}, transient := {1} } tr u ∧
      u.exec.pc = .done 0 ∧ u.work.flags = { transient := {1} } := by
  refine ⟨[.exec (.start 1), .update 1, .work 1, .work 1, .work 1, .exec (.finish 1 0),
    .exec (.reap 1 0), .exec .tau, .exec (.start 2), .exec (.finish 2 0), .exec (.reap 2 0),
    .exec .tau, .exec .tau, .exec .tau, .exec .tau], _, ((((((((((((((Lib.Run.nil.snoc (.main rfl)).snoc
    -- the command is handed to the worker, which unlinks the file and runs it
    (.update List.mem_cons_self rfl rfl rfl (.unlink rfl rfl))).snoc
    (.work List.mem_cons_self rfl (.unlink (by decide) (by decide) (.inl rfl)))).snoc
    (.work List.mem_cons_self rfl .unlinked)).snoc
    (.work List.mem_cons_self rfl (.output (.inl rfl) ⟨fun _ h _ => h, fun _ h _ => h⟩))).snoc
    (.finishCmd List.mem_cons_self rfl rfl)).snoc (.main rfl)).snoc (.main rfl)).snoc
    -- then the file
    (.main rfl)).snoc (.finishFile List.mem_cons_self (by decide) rfl
      (show finishFile _ _ _ _ true true = (_, 0) from rfl))).snoc
    (.main rfl)).snoc (.main rfl)).snoc (.main rfl)).snoc (.main rfl)).snoc (.main rfl),
    rfl, ?_⟩
  decide

end Metatup
