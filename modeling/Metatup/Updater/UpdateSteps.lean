import Metatup.Updater.Mislaid

/-!
# `update` as steps of the system

The model of `update` with everything it does to the files is a run of the steps of `UpdateWork`,
which only speak of the flags.

* `update_workStep`: the run.
-/

namespace Metatup

variable {job : UpdateJob} {s : OutputState} {i : TupId}

/-! ### `update` as steps of the system -/

theorem eachOutput_work {path : TupId → Text} {turn : TupId → OutputPlace → Bool × OutputPlace}
    {l : List Edge} {s : OutputState} (hturn : ∀ j p, (turn j p).2.skip = p.skip) :
    (eachOutput path turn l s).2.work = s.work := by
  have hput : ∀ (s : OutputState) (j : TupId) (p : OutputPlace),
      (turn j (s.place path j)).2 = p → (s.put path j p).work = s.work := by
    rintro s j p rfl
    unfold OutputState.put
    rw [hturn]
    exact congrArg (fun skip => { s.work with skip }) (Function.update_eq_self j s.work.skip)
  induction l generalizing s with
  | nil => rfl
  | cons e es ih =>
    rw [eachOutput]
    split
    · next p hp => exact hput s e.dest p (congrArg Prod.snd hp)
    · next p hp => exact ih.trans (hput s e.dest p (congrArg Prod.snd hp))

theorem moveOutputs_work : (moveOutputs job s).2.work = s.work := by
  apply eachOutput_work
  intro j p
  unfold moveOutput
  split
  · rfl
  split
  · rfl
  split
  · rfl
  split <;> rfl

theorem restoreOutputs_work : (restoreOutputs job s).2.work = s.work := by
  apply eachOutput_work
  intro j p
  unfold restoreOutput
  split
  · rfl
  split
  · rfl
  split <;> rfl

theorem checkOutputs_flags {entry : TupId → TupEntry} {g : Graph} {same : TupId → Option Bool}
    (n : TupId) (w : Work) (f : Flags) :
    checkOutputs entry g same { w with flags := f } n =
      ({ (checkOutputs entry g same w n).1 with flags := f }, (checkOutputs entry g same w n).2) := by
  have hloop : ∀ (l : List Edge) (w : Work), checkOutputsLoop entry g same l { w with flags := f } =
      ({ (checkOutputsLoop entry g same l w).1 with flags := f },
        (checkOutputsLoop entry g same l w).2) := by
    intro l
    induction l with
    | nil => exact fun w => rfl
    | cons e es ih =>
      intro w
      simp only [checkOutputsLoop]
      split
      · exact ih w
      split
      · rfl
      · exact ih w
      · exact ih (w.unskip e.dest)
  exact hloop _ w

theorem unskipOutputs_flags (g : Graph) (n : TupId) (w : Work) (f : Flags) :
    unskipOutputs g { w with flags := f } n = { unskipOutputs g w n with flags := f } := by
  have hfold : ∀ (l : List Edge) (w : Work),
      l.foldl (fun w e => w.unskip e.dest) { w with flags := f } =
        { l.foldl (fun w e => w.unskip e.dest) w with flags := f } := by
    intro l
    induction l with
    | nil => exact fun w => rfl
    | cons e es ih => exact fun w => ih (w.unskip e.dest)
  exact hfold _ w

/-- Marking the outputs only puts nodes on the transient list. -/
theorem markTransientOutputs_work (job : UpdateJob) {f : Flags} (hw : Written job.g f s.work.flags) :
    ∃ f', Written job.g f f' ∧
      (markTransientOutputs job s).2.work = { s.work with flags := f' } := by
  have hloop : ∀ (l : List Edge) (s : OutputState), Written job.g f s.work.flags →
      ∃ f', Written job.g f f' ∧
        (markTransientLoop job l s).2.work = { s.work with flags := f' } := by
    intro l
    induction l with
    | nil => exact fun s hw => ⟨_, hw, rfl⟩
    | cons e es ih =>
      intro s hw
      rw [markTransientLoop]
      split
      · exact ih s hw
      split
      · exact ⟨_, hw, rfl⟩
      · obtain ⟨f', hf', hwork⟩ := ih
          { s with work := { s.work with flags := tupDbAddTransientList s.work.flags e.dest } }
          ⟨hw.modify, fun c hc ht => Finset.mem_insert_of_mem (hw.transient c hc ht)⟩
        exact ⟨f', hf', hwork⟩
  exact hloop _ s hw

/-- What `process_output` leaves is what a step of the system leaves, with any further flags. -/
theorem processOutput_workStep (ho : hasFlag job.tent 'o' = true)
    (htmp : job.outcome.tmpfile = true)
    (hw : Written job.g s.work.flags job.outcome.flags) :
    Written job.g s.work.flags (processOutput job s).2.work.flags ∧
      ∀ f rc, Written job.g s.work.flags f → (rc = 0 ∧ (processOutput job s).1 = true ∨ rc = -1) →
        WorkStep job.env job.g job.n s.work .running
          { (processOutput job s).2.work with flags := f } (.returned rc) := by
  set s₁ : OutputState := { s with work := { s.work with flags := job.outcome.flags } } with hs₁
  have hprocess : processOutput job s =
      ((processCompared job s₁).1 && job.outcome.display && (exitResult job.outcome).isSome &&
        job.outcome.setMtime, (processCompared job s₁).2) := by
    unfold processOutput
    simp [htmp, ho, ← hs₁]
  rw [hprocess]
  unfold processCompared
  cases hexit : exitResult job.outcome with
  | none =>
    dsimp only
    rw [restoreOutputs_work]
    refine ⟨hw, fun f rc hf hrc => .output (.inr ?_) hf⟩
    rcases hrc with ⟨-, hrc⟩ | rfl
    · simp at hrc
    · decide
  | some b =>
  cases b with
  | true =>
    dsimp only
    rw [hs₁, unskipOutputs_flags]
    refine ⟨hw, fun f rc hf _ => ?_⟩
    rw [← unskipOutputs_flags _ _ _ f]
    exact .unskip ho hf
  | false =>
    dsimp only
    have hsame : samePaths job s₁ = samePaths job s := rfl
    rw [hs₁, ← hs₁, hsame, checkOutputs_flags]
    refine ⟨hw, fun f rc hf hrc => ?_⟩
    refine .check ho hf (checkOutputs_flags _ s.work f) ?_
    rcases hrc with ⟨rfl, hrc⟩ | rfl
    · simp only [Bool.and_eq_true, decide_eq_true_eq] at hrc
      exact .inl hrc.1.1.1.symm
    · exact .inr rfl

/-- A run of `update` is a run of the steps of `UpdateWork`. -/
theorem update_workStep (ho : hasFlag job.tent 'o' = true)
    (hw : Written job.g s.work.flags job.outcome.flags) :
    ∃ rc, ((update job s).1 = true ↔ rc = 0) ∧
      (UpdateBegin job.g job.n (.returned rc) ∧ (update job s).2.work = s.work ∨
        UpdateBegin job.g job.n .running ∧ WorkStep job.env job.g job.n s.work .running
          (update job s).2.work (.returned rc)) := by
  have hfail : ∀ {r : Bool × OutputState}, update job s = r → r.1 = false →
      r.2.work = s.work → ∃ rc, ((update job s).1 = true ↔ rc = 0) ∧
        (UpdateBegin job.g job.n (.returned rc) ∧ (update job s).2.work = s.work ∨
          UpdateBegin job.g job.n .running ∧ WorkStep job.env job.g job.n s.work .running
            (update job s).2.work (.returned rc)) := by
    rintro r rfl hfalse hwork
    exact ⟨-1, by simp [hfalse], .inl ⟨.failed, hwork⟩⟩
  cases hop : job.opened with
  | false => exact hfail (update_of_not_opened hop) rfl rfl
  | true =>
  cases hm : (moveOutputs job s).1 with
  | false => exact hfail (update_of_not_moved hop ho hm) rfl moveOutputs_work
  | true =>
  have hupd := update_of_moved hop ho hm
  split at hupd
  · exact hfail hupd rfl moveOutputs_work
  split at hupd
  · exact hfail hupd rfl moveOutputs_work
  cases htmp : job.outcome.tmpfile with
  | false =>
    rw [finishUpdate, processOutput, if_pos (by simp [htmp])] at hupd
    exact hfail hupd rfl moveOutputs_work
  | true =>
  have hbegin : UpdateBegin job.g job.n .running := by
    unfold UpdateJob.opened at hop
    exact .move (Bool.and_eq_true _ _ ▸ hop).1 ho
  set s₂ := job.through s with hs₂
  have hwork₂ : s₂.work = s.work := moveOutputs_work
  obtain ⟨hflags, hstep⟩ := processOutput_workStep (s := s₂) ho htmp (by rw [hwork₂]; exact hw)
  rw [hwork₂] at hflags hstep
  change update job s = finishUpdate job s₂ at hupd
  rw [hupd, finishUpdate]
  generalize processOutput job s₂ = r at hflags hstep ⊢
  obtain ⟨ok, s₃⟩ := r
  cases ok with
  | false => exact ⟨-1, by simp, .inr ⟨hbegin, hstep _ _ hflags (.inr rfl)⟩⟩
  | true =>
    obtain ⟨f', hf', hmark⟩ := markTransientOutputs_work job hflags
    dsimp only
    cases ht : hasFlag job.tent 't' with
    | false =>
      cases hpost : job.outcome.postexec with
      | false => exact ⟨-1, by simp, .inr ⟨hbegin, hstep _ _ hflags (.inr rfl)⟩⟩
      | true => exact ⟨0, by simp, .inr ⟨hbegin, hstep _ _ hflags (.inl ⟨rfl, rfl⟩)⟩⟩
    | true =>
      simp only [if_true]
      rw [hmark]
      cases hend : (markTransientOutputs job s₃).1 && job.outcome.postexec with
      | false => exact ⟨-1, by simp, .inr ⟨hbegin, hstep _ _ hf' (.inr rfl)⟩⟩
      | true => exact ⟨0, by simp, .inr ⟨hbegin, hstep _ _ hf' (.inl ⟨rfl, rfl⟩)⟩⟩

end Metatup
