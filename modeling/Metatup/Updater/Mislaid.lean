import Metatup.Updater.OutputLoops

/-!
# Outputs that are mislaid

The outputs are only moved back by `restore_outputs`, which `update` calls for a command that has been
run and has failed. Every other way to fail leaves them in the backup, and the next server removes it.

* `KeepsOutputs`, `SkipsSame`: what should come out of an update.
* `UpdateReach`: the states in which a command is updated.
* `Mislaid`: the ways in which an output does not come back.
* `update_iff`: an update does what it should exactly when it mislays nothing.
-/

namespace Metatup

open Lib

/-! ### What should come out -/

/-- When `update` fails, every output that was there is back. -/
def KeepsOutputs (job : UpdateJob) (s : OutputState) : Prop :=
  (update job s).1 = false → ∀ i f, job.IsOutput i → s.files (job.path i) = some f →
    (update job s).2.files (job.path i) = some f

/-- When it succeeds, an output stays skipped exactly when no link from a generated file was dropped
and the output was there and is the same. -/
def SkipsSame (job : UpdateJob) (s : OutputState) : Prop :=
  (update job s).1 = true → ∀ i, job.IsOutput i →
    ((update job s).2.work.skip i = true ↔ s.work.skip i = true ∧
      ¬ job.outcome.reads.LinkDropped ∧ ∃ f f', s.files (job.path i) = some f ∧
        (update job s).2.files (job.path i) = some f' ∧
        f.kind = f'.kind ∧ f.mode = f'.mode ∧ f.content = f'.content)

/-- The states in which a command is updated, with the commands updated before it. The server
starts with an empty `.metatup/tmp`, and whatever else runs leaves it alone. -/
inductive UpdateReach : List UpdateJob → OutputState → Prop
  | start {s} : (∀ i, s.backup i = none) → UpdateReach [] s
  | update {done job s} : UpdateReach done s → UpdateReach (job :: done) (update job s).2
  | other {done s s'} : UpdateReach done s → s'.backup = s.backup → UpdateReach done s'

/-- No other command has written the outputs of this one, and it has not been updated before. -/
def OwnOutputs (job : UpdateJob) (done : List UpdateJob) : Prop :=
  ∀ i, job.IsOutput i → ∀ job' ∈ done, ¬ job'.IsOutput i

/-! ### What is left in the backup -/

/-- What `check_outputs` finds in the backup of a node. -/
def UpdateJob.kept (job : UpdateJob) (s : OutputState) (i : TupId) : Option OutputFile :=
  if (job.g.node i).transient = .delete then s.backup i else s.files (job.path i)

/-- The outputs of a command that has succeeded can be compared, and nothing fails behind that. -/
structure UpdateJob.Finishes (job : UpdateJob) (s : OutputState) : Prop where
  compares : job.outcome.reads.LinkDropped ∨ ∀ i, Adj job.g job.n i → job.skips i = false →
    (comparePaths (job.outcome.statBackup i) (job.outcome.statOutput i) (job.outcome.readBoth i)
      (job.kept s i) (job.outcome.after (job.path i))).isSome
  display : job.outcome.display = true
  setMtime : job.outcome.setMtime = true
  transient : hasFlag job.tent 't' = true → ∀ i, Adj job.g job.n i → job.skips i = false →
    job.outcome.addTransient i = true
  postexec : job.outcome.postexec = true

/-- The command was started, ended in some way, and `process_output` could begin. -/
def UpdateOutcome.ran (o : UpdateOutcome) : Bool := o.exec && o.closeDirs && o.tmpfile

/-- The ways in which an output that was there does not come back when the update fails. -/
inductive Mislaid (job : UpdateJob) (s : OutputState) (i : TupId) : Prop
  /-- It is moved, and another output cannot be. -/
  | moving {j} : Adj job.g job.n j → ¬ job.Moves j → job.ComesTo job.Moves i → job.Moves i →
      Mislaid job s i
  /-- The command is never started. -/
  | setup : (∀ j, job.Moves j) → job.outcome.setup = false → Mislaid job s i
  /-- The command does not run to its end, and leaves another file. -/
  | run : (∀ j, job.Moves j) → job.outcome.setup = true → job.outcome.ran = false →
      job.outcome.after (job.path i) ≠ s.files (job.path i) → Mislaid job s i
  /-- The command fails, and `restore_outputs` does not get so far. -/
  | restore : (∀ j, job.Moves j) → job.outcome.setup = true → job.outcome.ran = true →
      exitResult job.outcome = none →
      ¬ (job.ComesTo job.Restores i ∧ job.outcome.restores i = true) →
      job.outcome.after (job.path i) ≠ s.files (job.path i) → Mislaid job s i
  /-- The command succeeds, and something behind it fails. -/
  | finish : (∀ j, job.Moves j) → job.outcome.setup = true → job.outcome.ran = true →
      exitResult job.outcome ≠ none → ¬ job.Finishes s →
      job.outcome.after (job.path i) ≠ s.files (job.path i) → Mislaid job s i

variable {job : UpdateJob} {s : OutputState} {i : TupId}

/-! ### The backups -/

theorem eachOutput_backup {path : TupId → Text} {turn : TupId → OutputPlace → Bool × OutputPlace}
    {Q : TupId → Prop} {l : List Edge} {s : OutputState}
    (hturn : ∀ e ∈ l, ∀ p, (turn e.dest p).2.backup ≠ none → p.backup ≠ none ∨ Q e.dest)
    (h : (eachOutput path turn l s).2.backup i ≠ none) : s.backup i ≠ none ∨ Q i := by
  have hput : ∀ (s : OutputState) (e : Edge) (p : OutputPlace), e ∈ l →
      (turn e.dest (s.place path e.dest)).2 = p → (s.put path e.dest p).backup i ≠ none →
      s.backup i ≠ none ∨ Q i := by
    rintro s e p he rfl hput
    unfold OutputState.put at hput
    by_cases hi : i = e.dest
    · subst hi
      simp only [Function.update_self] at hput
      exact hturn e he _ hput
    · simp only [Function.update_of_ne hi] at hput
      exact .inl hput
  induction l generalizing s with
  | nil => exact .inl h
  | cons e es ih =>
    rw [eachOutput] at h
    split at h
    · next p hp => exact hput s e p List.mem_cons_self (congrArg Prod.snd hp) h
    · next p hp =>
      rcases ih (fun e' he' => hturn e' (List.mem_cons_of_mem _ he')) h
        (fun s e' p he' => hput s e' p (List.mem_cons_of_mem _ he')) with h | h
      · exact hput s e p List.mem_cons_self (congrArg Prod.snd hp) h
      · exact .inr h

theorem moveOutputs_backup (h : (moveOutputs job s).2.backup i ≠ none) :
    s.backup i ≠ none ∨ job.IsOutput i := by
  refine eachOutput_backup (Q := job.IsOutput) (fun e he p hp => ?_) h
  by_cases hout : job.IsOutput e.dest
  · exact .inr hout
  · rw [moveOutput_of_not_output (UpdateJob.adj_of_mem he) hout] at hp
    exact .inl hp

theorem unlinkOutputs_backup (h : (unlinkOutputs job s).2.backup i ≠ none) :
    s.backup i ≠ none := by
  have hturn : ∀ e ∈ outEdges job.g job.n, ∀ p,
      (unlinkOutput job e.dest p).2.backup ≠ none → p.backup ≠ none ∨ False := by
    intro e _ p hp
    unfold unlinkOutput at hp
    split at hp
    · exact .inl hp
    dsimp only at hp
    split at hp
    · exact .inl hp
    split at hp <;> exact .inl hp
  rcases eachOutput_backup (Q := fun _ => False) hturn h with h | h
  · exact h
  · exact h.elim

theorem restoreOutputs_backup (h : (restoreOutputs job s).2.backup i ≠ none) :
    s.backup i ≠ none := by
  have hturn : ∀ e ∈ outEdges job.g job.n, ∀ p,
      (restoreOutput job e.dest p).2.backup ≠ none → p.backup ≠ none ∨ False := by
    intro e _ p hp
    unfold restoreOutput at hp
    split at hp
    · exact .inl hp
    split at hp
    · exact .inl hp
    split at hp
    · exact .inl hp
    · exact absurd rfl hp
  rcases eachOutput_backup (Q := fun _ => False) hturn h with h | h
  · exact h
  · exact h.elim

theorem processCompared_backup (h : (processCompared job s).2.backup i ≠ none) :
    s.backup i ≠ none := by
  unfold processCompared at h
  split at h
  · exact restoreOutputs_backup h
  · exact h
  · exact h

theorem processOutput_backup (job : UpdateJob) (h : (processOutput job s).2.backup i ≠ none) :
    s.backup i ≠ none := by
  unfold processOutput at h
  split at h
  · exact h
  dsimp only at h
  split at h
  · exact processCompared_backup (s := { s with work := { s.work with flags := job.outcome.flags } }) h
  · exact h

theorem finishUpdate_backup (h : (finishUpdate job s).2.backup i ≠ none) : s.backup i ≠ none := by
  unfold finishUpdate at h
  split at h
  · next s' hp =>
    apply processOutput_backup job
    rw [hp]
    exact h
  · next s' hp =>
    apply processOutput_backup job
    rw [hp]
    dsimp only at h
    split at h
    · rw [(markTransientOutputs_spec job s').2.2.1] at h
      exact h
    · exact h

/-- An update makes backups of its own outputs only. -/
theorem update_backup (h : (update job s).2.backup i ≠ none) :
    s.backup i ≠ none ∨ job.IsOutput i := by
  have hfirst : (if hasFlag job.tent 'o' then moveOutputs job s else unlinkOutputs job s).2.backup i ≠
      none → s.backup i ≠ none ∨ job.IsOutput i := by
    split
    · exact moveOutputs_backup
    · exact fun h => .inl (unlinkOutputs_backup h)
  unfold update at h
  split at h
  · exact .inl h
  split at h
  · next s' hp =>
    rw [hp] at hfirst
    exact hfirst h
  next s' hp =>
  rw [hp] at hfirst
  split at h
  · exact hfirst h
  dsimp only at h
  split at h
  · exact hfirst h
  · exact hfirst (finishUpdate_backup (s := { s' with files := job.outcome.after }) h)

/-- A backup belongs to an output of a command that has been updated. -/
theorem UpdateReach.backup {done : List UpdateJob} (hr : UpdateReach done s)
    (hi : s.backup i ≠ none) : ∃ job ∈ done, job.IsOutput i := by
  induction hr with
  | start h => exact absurd (h i) hi
  | update _ ih =>
    rcases update_backup hi with hi | hi
    · obtain ⟨job, hjob, hout⟩ := ih hi
      exact ⟨job, List.mem_cons_of_mem _ hjob, hout⟩
    · exact ⟨_, List.mem_cons_self, hi⟩
  | other _ hsame ih =>
    rw [hsame] at hi
    exact ih hi

theorem UpdateReach.no_backup {done : List UpdateJob} (hr : UpdateReach done s)
    (hown : OwnOutputs job done) (hi : job.IsOutput i) : s.backup i = none := by
  by_contra hsome
  obtain ⟨job', hjob', hout⟩ := hr.backup hsome
  exact hown i hi job' hjob' hout

/-! ### The phases of `update` -/

theorem update_of_not_opened (h : job.opened = false) : update job s = (false, s) := by
  unfold update
  rw [if_pos (by simp [h])]

theorem update_of_not_moved (hop : job.opened = true) (ho : hasFlag job.tent 'o' = true)
    (h : (moveOutputs job s).1 = false) : update job s = (false, (moveOutputs job s).2) := by
  unfold update
  rw [if_neg (by simp [hop]), if_pos ho]
  generalize moveOutputs job s = r at h ⊢
  obtain ⟨ok, s'⟩ := r
  cases h
  rfl

theorem update_of_moved (hop : job.opened = true) (ho : hasFlag job.tent 'o' = true)
    (h : (moveOutputs job s).1 = true) : update job s =
      if !job.outcome.setup then (false, (moveOutputs job s).2)
      else if !(job.outcome.exec && job.outcome.closeDirs) then
        (false, { (moveOutputs job s).2 with files := job.outcome.after })
      else finishUpdate job { (moveOutputs job s).2 with files := job.outcome.after } := by
  unfold update
  rw [if_neg (by simp [hop]), if_pos ho]
  generalize moveOutputs job s = r at h ⊢
  obtain ⟨ok, s'⟩ := r
  cases h
  rfl

/-- The end of an update whose command has failed. -/
theorem finishUpdate_of_failed (ho : hasFlag job.tent 'o' = true)
    (htmp : job.outcome.tmpfile = true) (h : exitResult job.outcome = none) :
    (finishUpdate job s).1 = false ∧ ∀ i, job.IsOutput i →
      (finishUpdate job s).2.files (job.path i) =
        open Classical in
        if job.ComesTo job.Restores i ∧ job.outcome.restores i = true then
          (s.backup i).or (s.files (job.path i))
        else s.files (job.path i) := by
  set s₁ : OutputState := { s with work := { s.work with flags := job.outcome.flags } }
  have hp : processOutput job s = (false, (restoreOutputs job s₁).2) := by
    unfold processOutput processCompared
    simp [htmp, ho, h, s₁]
  unfold finishUpdate
  rw [hp]
  exact ⟨rfl, fun i hi => restoreOutputs_file (s := s₁) hi⟩

/-! ### The update as a whole -/

/-- An update that fails keeps the outputs when every one that was there is where it was. -/
theorem keeps_iff_of_failed {C : Prop} (h : (update job s).1 = false)
    (hiff : (∀ i f, job.IsOutput i → s.files (job.path i) = some f →
      (update job s).2.files (job.path i) = some f) ↔ C) :
    KeepsOutputs job s ∧ SkipsSame job s ↔ C := by
  rw [← hiff]
  constructor
  · exact fun hks => hks.1 h
  · refine fun hall => ⟨fun _ => hall, fun htrue => ?_⟩
    rw [h] at htrue
    cases htrue

theorem kept_eq (hr : UpdateReach done s) (hown : OwnOutputs job done) (hm : ∀ j, job.Moves j)
    (hi : Adj job.g job.n i) (hskip : job.skips i = false) :
    (moveOutputs job s).2.backup i = job.kept s i := by
  unfold UpdateJob.kept
  split
  · next htr =>
    have hplace := moveOutputs_place_of_not (s := s) hi fun h => h.1.2.2 htr
    exact congrArg OutputPlace.backup hplace
  · next htr =>
    have hout : job.IsOutput i := ⟨hi, hskip, htr⟩
    have hplace := moveOutputs_place (s := s) hout
      (UpdateJob.comesTo_of_forall (fun j _ => hm j) hi) (hm i)
    rw [hr.no_backup hown hout, Option.or_none] at hplace
    exact congrArg OutputPlace.backup hplace

/-- One output is moved and another cannot be. -/
theorem mislaid_moving {f : OutputFile} (hm : ¬ ∀ j, job.Moves j) (hi : job.IsOutput i)
    (hf : s.files (job.path i) = some f) :
    (moveOutputs job s).2.files (job.path i) = some f ↔ ¬ Mislaid job s i := by
  by_cases hc : job.ComesTo job.Moves i ∧ job.Moves i
  · have hplace := congrArg OutputPlace.file (moveOutputs_place (s := s) hi hc.1 hc.2)
    have hnone : (moveOutputs job s).2.files (job.path i) = none := hplace
    refine iff_of_false (by simp [hnone]) fun hnot => ?_
    obtain ⟨j, hj⟩ := not_forall.1 hm
    have hadj : Adj job.g job.n j := by
      by_contra hadj
      exact hj fun hout => absurd hout.1 hadj
    exact hnot (.moving hadj hj hc.1 hc.2)
  · have hplace := congrArg OutputPlace.file
      (moveOutputs_place_of_not (s := s) hi.1 fun h => hc h.2)
    refine iff_of_true (hplace.trans hf) fun hmis => ?_
    cases hmis with
    | moving _ _ hcomes hmoves => exact hc ⟨hcomes, hmoves⟩
    | setup h => exact hm h
    | run h => exact hm h
    | restore h => exact hm h
    | finish h => exact hm h

/-- The command is never started. -/
theorem mislaid_setup {f : OutputFile} (hm : ∀ j, job.Moves j) (hset : job.outcome.setup = false)
    (hi : job.IsOutput i) :
    (moveOutputs job s).2.files (job.path i) = some f ↔ ¬ Mislaid job s i := by
  have hcomes := UpdateJob.comesTo_of_forall (fun j _ => hm j) hi.1
  have hplace := congrArg OutputPlace.file (moveOutputs_place (s := s) hi hcomes (hm i))
  have hnone : (moveOutputs job s).2.files (job.path i) = none := hplace
  exact iff_of_false (by simp [hnone]) fun hnot => hnot (.setup hm hset)

/-- Once the command has been started, an output is only mislaid where another file has been left. -/
theorem Mislaid.changed (hmis : Mislaid job s i) (hm : ∀ j, job.Moves j)
    (hset : job.outcome.setup = true) : job.outcome.after (job.path i) ≠ s.files (job.path i) := by
  cases hmis with
  | moving _ h => exact absurd (hm _) h
  | setup _ h => simp [hset] at h
  | run _ _ _ h => exact h
  | restore _ _ _ _ _ h => exact h
  | finish _ _ _ _ _ h => exact h

/-- The command does not get to its end. -/
theorem mislaid_run {f : OutputFile} (hm : ∀ j, job.Moves j) (hset : job.outcome.setup = true)
    (hran : job.outcome.ran = false) (hf : s.files (job.path i) = some f) :
    job.outcome.after (job.path i) = some f ↔ ¬ Mislaid job s i := by
  rw [← hf]
  constructor
  · exact fun hsame hmis => hmis.changed hm hset hsame
  · intro hnot
    by_contra hne
    exact hnot (.run hm hset hran hne)

/-- The command fails. -/
theorem mislaid_restore {f : OutputFile} (hm : ∀ j, job.Moves j) (hset : job.outcome.setup = true)
    (hran : job.outcome.ran = true) (hexit : exitResult job.outcome = none)
    (hf : s.files (job.path i) = some f) :
    (open Classical in
      if job.ComesTo job.Restores i ∧ job.outcome.restores i = true then
        (s.files (job.path i)).or (job.outcome.after (job.path i))
      else job.outcome.after (job.path i)) = some f ↔ ¬ Mislaid job s i := by
  split
  · next hback =>
    rw [hf]
    refine iff_of_true rfl fun hmis => ?_
    cases hmis with
    | moving _ h => exact h (hm _)
    | setup _ h => simp [hset] at h
    | run _ _ h => simp [hran] at h
    | restore _ _ _ _ h => exact h hback
    | finish _ _ _ h => exact h hexit
  · next hback =>
    rw [← hf]
    constructor
    · exact fun hsame hmis => hmis.changed hm hset hsame
    · intro hnot
      by_contra hne
      exact hnot (.restore hm hset hran hexit hback hne)

/-- The command succeeds. -/
theorem mislaid_finish (hm : ∀ j, job.Moves j) (hset : job.outcome.setup = true)
    (hran : job.outcome.ran = true) (hexit : exitResult job.outcome ≠ none) :
    Mislaid job s i ↔ ¬ job.Finishes s ∧ job.outcome.after (job.path i) ≠ s.files (job.path i) := by
  constructor
  · intro hmis
    refine ⟨?_, hmis.changed hm hset⟩
    cases hmis with
    | moving _ h => exact absurd (hm _) h
    | setup _ h => simp [hset] at h
    | run _ _ h => simp [hran] at h
    | restore _ _ _ h => exact absurd h hexit
    | finish _ _ _ _ h => exact h
  · exact fun h => .finish hm hset hran hexit h.1 h.2

/-- The state in which the command has got through. -/
def UpdateJob.through (job : UpdateJob) (s : OutputState) : OutputState :=
  { (moveOutputs job s).2 with files := job.outcome.after }

theorem samePaths_through (hr : UpdateReach done s) (hown : OwnOutputs job done)
    (hm : ∀ j, job.Moves j) (hi : Adj job.g job.n i) (hskip : job.skips i = false) :
    samePaths job (job.through s) i =
      comparePaths (job.outcome.statBackup i) (job.outcome.statOutput i) (job.outcome.readBoth i)
        (job.kept s i) (job.outcome.after (job.path i)) := by
  unfold samePaths UpdateJob.through
  rw [kept_eq hr hown hm hi hskip]

theorem finishes_iff {b : Bool} (hr : UpdateReach done s) (hown : OwnOutputs job done)
    (ho : hasFlag job.tent 'o' = true) (hm : ∀ j, job.Moves j) (htmp : job.outcome.tmpfile = true)
    (hexit : exitResult job.outcome = some b) :
    (finishUpdate job (job.through s)).1 = true ↔ job.Finishes s := by
  rw [(finishUpdate_spec ho htmp hexit).1, exitResult_iff hexit]
  have hsame : (∀ i, Adj job.g job.n i → job.skips i = false →
      (samePaths job (job.through s) i).isSome) ↔ ∀ i, Adj job.g job.n i → job.skips i = false →
      (comparePaths (job.outcome.statBackup i) (job.outcome.statOutput i)
        (job.outcome.readBoth i) (job.kept s i) (job.outcome.after (job.path i))).isSome := by
    refine forall_congr' fun i => forall₂_congr fun hi hskip => ?_
    rw [samePaths_through hr hown hm hi hskip]
  rw [hsame]
  constructor
  · rintro ⟨hcmp, hdisplay, hmtime, htransient, hpost⟩
    exact ⟨hcmp, hdisplay, hmtime, htransient, hpost⟩
  · rintro ⟨hcmp, hdisplay, hmtime, htransient, hpost⟩
    exact ⟨hcmp, hdisplay, hmtime, htransient, hpost⟩

/-- An update that succeeds leaves exactly the outputs skipped that are the same. -/
theorem skipsSame_of_finished {b : Bool} (hr : UpdateReach done s) (hown : OwnOutputs job done)
    (ho : hasFlag job.tent 'o' = true) (hm : ∀ j, job.Moves j) (htmp : job.outcome.tmpfile = true)
    (hexit : exitResult job.outcome = some b)
    (hupd : update job s = finishUpdate job (job.through s)) : SkipsSame job s := by
  intro hok i hi
  rw [hupd] at hok ⊢
  obtain ⟨-, hfiles, hskip⟩ := finishUpdate_spec (s := job.through s) ho htmp hexit
  have hcomes := UpdateJob.comesTo_of_forall (fun j _ => hm j) hi.1
  have hmoved : (job.through s).work.skip i = s.work.skip i :=
    congrArg OutputPlace.skip (moveOutputs_place (s := s) hi hcomes (hm i))
  have hkept : job.kept s i = s.files (job.path i) := if_neg hi.2.2
  have hafter : (finishUpdate job (job.through s)).2.files = job.outcome.after := hfiles
  rw [hskip hok i hi, hmoved, samePaths_through hr hown hm hi.1 hi.2.1, hkept, hafter,
    ← exitResult_iff hexit, Bool.not_eq_true]
  refine and_congr_right fun _ => and_congr_right fun hb => ?_
  have hcmp := ((finishes_iff hr hown ho hm htmp hexit).1 hok).compares.resolve_left fun h => by
    rw [(exitResult_iff hexit).2 h] at hb
    cases hb
  have hsome := hcmp i hi.1 hi.2.1
  rw [hkept] at hsome
  obtain ⟨eq, heq⟩ := Option.isSome_iff_exists.1 hsome
  rw [heq, Option.some.injEq, comparePaths_iff heq]
  constructor
  · rintro ⟨hthere, hsame⟩
    obtain ⟨f, hf⟩ := Option.isSome_iff_exists.1 hthere
    exact ⟨f, f, hf, hsame.symm.trans hf, rfl, rfl, rfl⟩
  · rintro ⟨f, f', hf, hf', hkind, hmode, hcontent⟩
    rw [hf, hf', OutputFile.ext hkind hmode hcontent]
    exact ⟨rfl, rfl⟩

/-- The command has got through to `process_output`. -/
theorem update_iff_of_ran {done : List UpdateJob} (hr : UpdateReach done s)
    (hown : OwnOutputs job done) (ho : hasFlag job.tent 'o' = true) (hm : ∀ j, job.Moves j)
    (hset : job.outcome.setup = true) (hran : job.outcome.ran = true)
    (hupd : update job s = finishUpdate job (job.through s)) :
    KeepsOutputs job s ∧ SkipsSame job s ↔
      ∀ i f, job.IsOutput i → s.files (job.path i) = some f → ¬ Mislaid job s i := by
  have htmp : job.outcome.tmpfile = true := by
    unfold UpdateOutcome.ran at hran
    rw [Bool.and_eq_true] at hran
    exact hran.2
  cases hexit : exitResult job.outcome with
  | none =>
    obtain ⟨hfail, hfiles⟩ := finishUpdate_of_failed (s := job.through s) ho htmp hexit
    rw [← hupd] at hfail hfiles
    apply keeps_iff_of_failed hfail
    refine forall₂_congr fun i f => forall₂_congr fun hi hf => ?_
    have hback : (job.through s).backup i = s.files (job.path i) := by
      apply (kept_eq hr hown hm hi.1 hi.2.1).trans
      exact if_neg hi.2.2
    rw [hfiles i hi, ← mislaid_restore hm hset hran hexit hf, hback]
    rfl
  | some b =>
    have hne : exitResult job.outcome ≠ none := by simp [hexit]
    have hfin := finishes_iff hr hown ho hm htmp hexit
    rw [← hupd] at hfin
    cases hrc : (update job s).1 with
    | false =>
      obtain ⟨-, hfiles, -⟩ := finishUpdate_spec (s := job.through s) ho htmp hexit
      rw [← hupd] at hfiles
      have hnot : ¬ job.Finishes s := fun h => by
        rw [hfin.2 h] at hrc
        cases hrc
      apply keeps_iff_of_failed hrc
      refine forall₂_congr fun i f => forall₂_congr fun _ hf => ?_
      rw [hfiles, mislaid_finish hm hset hran hne, ← hf, and_iff_right hnot, not_not]
      rfl
    | true =>
      have hskips := skipsSame_of_finished hr hown ho hm htmp hexit hupd
      refine iff_of_true ⟨fun h => ?_, hskips⟩ fun i f _ _ => ?_
      · rw [hrc] at h
        cases h
      · rw [mislaid_finish hm hset hran hne]
        exact fun h => h.1 (hfin.1 hrc)

/-- A run of a command with the flag `o` does what it should exactly when it mislays nothing. -/
theorem update_iff {done : List UpdateJob} (hr : UpdateReach done s) (hown : OwnOutputs job done)
    (ho : hasFlag job.tent 'o' = true) :
    KeepsOutputs job s ∧ SkipsSame job s ↔ (job.opened = true → ∀ i f, job.IsOutput i →
      s.files (job.path i) = some f → ¬ Mislaid job s i) := by
  cases hop : job.opened with
  | false =>
    have hupd := update_of_not_opened (s := s) hop
    apply keeps_iff_of_failed (by rw [hupd])
    rw [hupd]
    exact iff_of_true (fun i f _ h => h) fun h => by cases h
  | true =>
  simp only [true_imp_iff]
  by_cases hm : ∀ j, job.Moves j
  · have hupd := update_of_moved (s := s) hop ho (moveOutputs_fst.2 hm)
    cases hset : job.outcome.setup with
    | false =>
      rw [if_pos (by simp [hset])] at hupd
      apply keeps_iff_of_failed (by rw [hupd])
      rw [hupd]
      exact forall₂_congr fun i f => forall₂_congr fun hi _ => mislaid_setup hm hset hi
    | true =>
    rw [if_neg (by simp [hset])] at hupd
    cases hran : job.outcome.ran with
    | false =>
      have hfail : (update job s).1 = false ∧ (update job s).2.files = job.outcome.after := by
        rw [hupd]
        split
        · exact ⟨rfl, rfl⟩
        · next hexec =>
          have htmp : job.outcome.tmpfile = false := by
            unfold UpdateOutcome.ran at hran
            simp only [Bool.not_eq_true', Bool.not_eq_false] at hexec
            simpa [hexec] using hran
          unfold finishUpdate processOutput
          simp [htmp]
      apply keeps_iff_of_failed hfail.1
      rw [hfail.2]
      exact forall₂_congr fun i f => forall₂_congr fun _ hf => mislaid_run hm hset hran hf
    | true =>
      have hexec : (job.outcome.exec && job.outcome.closeDirs) = true := by
        unfold UpdateOutcome.ran at hran
        rw [Bool.and_eq_true] at hran
        exact hran.1
      rw [if_neg (by simp [hexec])] at hupd
      exact update_iff_of_ran hr hown ho hm hset hran hupd
  · have hstop : (moveOutputs job s).1 = false := by
      rw [← Bool.not_eq_true, moveOutputs_fst]
      exact hm
    have hupd := update_of_not_moved hop ho hstop
    apply keeps_iff_of_failed (by rw [hupd])
    rw [hupd]
    exact forall₂_congr fun i f => forall₂_congr fun hi hf => mislaid_moving hm hi hf

/-! ### A run -/

/-- Every call works; the command exits with 1 and has removed its outputs. -/
def failingOutcome : UpdateOutcome where
  openDir := true
  openOutputDir := fun _ => true
  moves := fun _ => true
  unlinks := fun _ => true
  closeOutputDir := fun _ => true
  openSrcdir := true
  initServer := true
  getEnviron := true
  expand := true
  exec := true
  after := fun _ => none
  closeDirs := true
  tmpfile := true
  exit := .exited 1
  tmpdirs := true
  writeInfo := true
  addNodes := true
  reads := ⟨fun _ _ _ => true, {}, 2, ∅, ∅, ∅, ∅, ∅⟩
  flags := {}
  restores := fun _ => true
  noted := fun _ => true
  statBackup := fun _ => true
  statOutput := fun _ => true
  readBoth := fun _ => true
  display := true
  setMtime := true
  addTransient := fun _ => true
  postexec := true

/-- The command 2 with the flag `o` writes the file 3. -/
def compareGraph : Graph where
  node := fun i => if i = 2 then { tent := ⟨2, 1, .cmd, -1, ['c', 'c'], [], ['o'], (-1, 0)⟩ }
    else { tent := ⟨i, 1, .generated, 2, ['a'], [], [], (-1, 0)⟩ }
  edges := [⟨2, 3, .normal⟩]

theorem adj_compareGraph {i : TupId} (h : Adj compareGraph 2 i) : i = 3 := by
  obtain ⟨e, he, -, rfl⟩ := h
  cases List.mem_singleton.1 he
  rfl

def compareJob (o : UpdateOutcome) : UpdateJob where
  env := ⟨fun _ => ⟨1, 0, .dir, -1, [], [], [], (-1, 0)⟩, 4⟩
  path := fun _ => ['a']
  g := compareGraph
  n := 2
  outcome := o
  nodup := by decide
  path_inj := by
    intro a b ha hb _
    exact (adj_compareGraph ha).trans (adj_compareGraph hb).symm

/-- The output is there. -/
def compareState : OutputState where
  files := fun p => if p = ['a'] then some ⟨.regular, 0o644, [65], by decide⟩ else none
  backup := fun _ => none
  work := { skip := fun _ => false, flags := {} }

/-- The output comes back when the command fails. -/
theorem update_iff_restored :
    KeepsOutputs (compareJob failingOutcome) compareState ∧
      SkipsSame (compareJob failingOutcome) compareState := by
  apply (update_iff (.start fun _ => rfl) (fun _ _ _ h => by cases h) rfl).2
  intro _ i f hi _ hmis
  cases hmis with
  | moving _ h => exact h fun _ => ⟨rfl, rfl⟩
  | setup _ h => cases h
  | run _ _ h => cases h
  | restore _ _ _ _ h =>
    exact h ⟨UpdateJob.comesTo_of_forall (fun _ _ _ => ⟨rfl, rfl⟩) hi.1, rfl⟩
  | finish _ _ _ h => exact h rfl

/-- A command that names an unknown group is never started, and its output stays in the backup. -/
theorem update_unknown_group : UpdateReach [] compareState ∧
    hasFlag (compareJob { failingOutcome with expand := false }).tent 'o' = true ∧
    ¬ KeepsOutputs (compareJob { failingOutcome with expand := false }) compareState := by
  refine ⟨.start fun _ => rfl, rfl, fun hkeeps => ?_⟩
  have hout : (compareJob { failingOutcome with expand := false }).IsOutput 3 :=
    ⟨⟨_, List.mem_singleton_self _, rfl, rfl⟩, by decide, by decide⟩
  have hback := hkeeps rfl 3 _ hout rfl
  cases hback

end Metatup
