import Metatup.Updater.CompareOutputs

/-!
# The loops over the outputs

* `eachOutput_place`: what a loop that stops at the first failing turn leaves for each node.
* `moveOutputs_place`, `restoreOutputs_file`: the loops that rename.
* `checkOutputs_spec`, `unskipOutputs_skip`: the `skip` flags after a comparison.
* `finishUpdate_spec`: the end of an update whose command has succeeded.
-/

namespace Metatup

open Lib

/-! ### Where a loop gets -/

/-- `move_outputs` can handle the node. -/
def UpdateJob.Moves (job : UpdateJob) (i : TupId) : Prop :=
  job.IsOutput i → job.outcome.openOutputDir i = true ∧ job.outcome.moves i = true

/-- `restore_outputs` can handle the node and go on. -/
def UpdateJob.Restores (job : UpdateJob) (i : TupId) : Prop :=
  job.skips i = false → job.outcome.restores i = true ∧ job.outcome.noted i = true

/-- A loop over the outputs whose turns fail for the nodes without `P` comes to the node `i`. -/
def UpdateJob.ComesTo (job : UpdateJob) (P : TupId → Prop) (i : TupId) : Prop :=
  ∃ pre e post, outEdges job.g job.n = pre ++ e :: post ∧ e.dest = i ∧ ∀ e ∈ pre, P e.dest

section

variable {path : TupId → Text} {turn : TupId → OutputPlace → Bool × OutputPlace}
  {s : OutputState} {i j : TupId} {p : OutputPlace}

@[simp]
theorem OutputState.place_put : (s.put path i p).place path i = p := by
  unfold OutputState.place OutputState.put
  simp only [Function.update_self]

theorem OutputState.place_put_of_ne (h : i ≠ j) (hpath : path i ≠ path j) :
    (s.put path i p).place path j = s.place path j := by
  unfold OutputState.place OutputState.put
  simp only [Function.update_of_ne h.symm, Function.update_of_ne hpath.symm]

/-- The nodes of the edges are different, and so are their paths. -/
def Apart (path : TupId → Text) (e e' : Edge) : Prop :=
  e.dest ≠ e'.dest ∧ path e.dest ≠ path e'.dest

theorem eachOutput_place_of_ne {l : List Edge}
    (h : ∀ e ∈ l, e.dest ≠ i ∧ path e.dest ≠ path i) :
    (eachOutput path turn l s).2.place path i = s.place path i := by
  induction l generalizing s with
  | nil => rfl
  | cons e es ih =>
    obtain ⟨hne, hpath⟩ := h e List.mem_cons_self
    rw [eachOutput]
    split
    · exact s.place_put_of_ne hne hpath
    · rw [ih fun e he => h e (List.mem_cons_of_mem _ he)]
      exact s.place_put_of_ne hne hpath

/-- The loop gets through when every turn does. -/
theorem eachOutput_fst {l : List Edge} (hl : l.Pairwise (Apart path)) :
    (eachOutput path turn l s).1 = true ↔ ∀ e ∈ l, (turn e.dest (s.place path e.dest)).1 = true := by
  induction l generalizing s with
  | nil => simp [eachOutput]
  | cons e es ih =>
    obtain ⟨he, hes⟩ := List.pairwise_cons.1 hl
    rw [eachOutput, List.forall_mem_cons]
    split
    · next p hturn => simp [hturn]
    · next p hturn =>
      rw [ih hes, hturn]
      simp only [true_and]
      refine forall₂_congr fun e' he' => ?_
      rw [s.place_put_of_ne (he e' he').1 (he e' he').2]

/-- The turn for a node leaves what it makes of what was there before the loop. -/
theorem eachOutput_reached {pre post : List Edge} {e : Edge}
    (hl : (pre ++ e :: post).Pairwise (Apart path))
    (hpre : ∀ e ∈ pre, (turn e.dest (s.place path e.dest)).1 = true) :
    (eachOutput path turn (pre ++ e :: post) s).2.place path e.dest =
      (turn e.dest (s.place path e.dest)).2 := by
  induction pre generalizing s with
  | nil =>
    rw [List.nil_append, eachOutput]
    have hpost := (List.pairwise_cons.1 hl).1
    split
    · next p hturn => rw [OutputState.place_put, hturn]
    · next p hturn =>
      rw [eachOutput_place_of_ne fun e' he' => ⟨(hpost e' he').1.symm, (hpost e' he').2.symm⟩,
        OutputState.place_put, hturn]
  | cons e₀ pre ih =>
    obtain ⟨he₀, hes⟩ := List.pairwise_cons.1 hl
    have hput : ∀ (e' : Edge) (p : OutputPlace), e' ∈ pre ++ e :: post →
        (s.put path e₀.dest p).place path e'.dest = s.place path e'.dest :=
      fun e' p he' => s.place_put_of_ne (he₀ e' he').1 (he₀ e' he').2
    rw [List.cons_append, eachOutput]
    split
    · next p hturn =>
      have hok := hpre e₀ List.mem_cons_self
      rw [hturn] at hok
      cases hok
    · next p hturn =>
      rw [ih hes, hput e p (List.mem_append_right _ List.mem_cons_self)]
      intro e' he'
      rw [hput e' p (List.mem_append_left _ he')]
      exact hpre e' (List.mem_cons_of_mem _ he')

/-- Behind a turn that fails nothing changes. -/
theorem eachOutput_stopped {pre post : List Edge} {e e' : Edge}
    (hl : (pre ++ e :: post).Pairwise (Apart path)) (he' : e' ∈ pre)
    (hturn : (turn e'.dest (s.place path e'.dest)).1 = false) :
    (eachOutput path turn (pre ++ e :: post) s).2.place path e.dest = s.place path e.dest := by
  induction pre generalizing s with
  | nil => cases he'
  | cons e₀ pre ih =>
    obtain ⟨he₀, hes⟩ := List.pairwise_cons.1 hl
    have hput : ∀ (e' : Edge) (p : OutputPlace), e' ∈ pre ++ e :: post →
        (s.put path e₀.dest p).place path e'.dest = s.place path e'.dest :=
      fun e' p he' => s.place_put_of_ne (he₀ e' he').1 (he₀ e' he').2
    rw [List.cons_append, eachOutput]
    split
    · exact hput e _ (List.mem_append_right _ List.mem_cons_self)
    · next p hok =>
      rcases List.mem_cons.1 he' with rfl | he'
      · rw [hok] at hturn
        cases hturn
      · rw [ih hes he', hput e p (List.mem_append_right _ List.mem_cons_self)]
        rw [hput e' p (List.mem_append_left _ he')]
        exact hturn

end

variable {job : UpdateJob} {s : OutputState} {i : TupId}

theorem UpdateJob.adj_of_mem {e : Edge} (he : e ∈ outEdges job.g job.n) : Adj job.g job.n e.dest :=
  ⟨e, (mem_outEdges.1 he).1, (mem_outEdges.1 he).2, rfl⟩

theorem UpdateJob.exists_edge (hi : Adj job.g job.n i) : ∃ e ∈ outEdges job.g job.n, e.dest = i := by
  obtain ⟨e, he, hsrc, hdest⟩ := hi
  exact ⟨e, mem_outEdges.2 ⟨he, hsrc⟩, hdest⟩

theorem UpdateJob.apart (job : UpdateJob) : (outEdges job.g job.n).Pairwise (Apart job.path) := by
  have hnd := List.pairwise_map.1 job.nodup
  refine hnd.imp_of_mem fun {e e'} he he' hne => ⟨hne, fun hpath => ?_⟩
  exact hne (job.path_inj _ _ (adj_of_mem he) (adj_of_mem he') hpath)

/-- What a loop leaves for a node: when its turns fail where `P` does not hold, the node has been
handled if the loop comes to it, and is as it was else. -/
theorem eachOutput_place {turn : TupId → OutputPlace → Bool × OutputPlace} {P : TupId → Prop}
    (hP : ∀ j, Adj job.g job.n j → ((turn j (s.place job.path j)).1 = true ↔ P j))
    (hi : Adj job.g job.n i) :
    (job.ComesTo P i → (eachOutput job.path turn (outEdges job.g job.n) s).2.place job.path i =
        (turn i (s.place job.path i)).2) ∧
      (¬ job.ComesTo P i → (eachOutput job.path turn (outEdges job.g job.n) s).2.place job.path i =
        s.place job.path i) := by
  have hedge : ∀ e ∈ outEdges job.g job.n,
      ((turn e.dest (s.place job.path e.dest)).1 = true ↔ P e.dest) :=
    fun e he => hP e.dest (UpdateJob.adj_of_mem he)
  constructor
  · rintro ⟨pre, e, post, hl, rfl, hpre⟩
    have hapart := job.apart
    rw [hl] at hapart hedge ⊢
    exact eachOutput_reached hapart fun e' he' =>
      (hedge e' (List.mem_append_left _ he')).2 (hpre e' he')
  · intro hnot
    obtain ⟨e, he, rfl⟩ := UpdateJob.exists_edge hi
    obtain ⟨pre, post, hl⟩ := List.append_of_mem he
    obtain ⟨e', he', hPe'⟩ : ∃ e' ∈ pre, ¬ P e'.dest := by
      by_contra hall
      push Not at hall
      exact hnot ⟨pre, e, post, hl, rfl, hall⟩
    have hapart := job.apart
    rw [hl] at hapart hedge ⊢
    apply eachOutput_stopped hapart he'
    rw [← Bool.not_eq_true, hedge e' (List.mem_append_left _ he')]
    exact hPe'

theorem eachOutput_ok {turn : TupId → OutputPlace → Bool × OutputPlace} {P : TupId → Prop}
    (hP : ∀ j, Adj job.g job.n j → ((turn j (s.place job.path j)).1 = true ↔ P j)) :
    (eachOutput job.path turn (outEdges job.g job.n) s).1 = true ↔
      ∀ j, Adj job.g job.n j → P j := by
  rw [eachOutput_fst job.apart]
  constructor
  · intro h j hj
    obtain ⟨e, he, rfl⟩ := UpdateJob.exists_edge hj
    exact (hP _ hj).1 (h e he)
  · intro h e he
    exact (hP _ (UpdateJob.adj_of_mem he)).2 (h _ (UpdateJob.adj_of_mem he))

theorem UpdateJob.comesTo_of_forall {P : TupId → Prop} (hP : ∀ j, Adj job.g job.n j → P j)
    (hi : Adj job.g job.n i) : job.ComesTo P i := by
  obtain ⟨e, he, hdest⟩ := exists_edge hi
  obtain ⟨pre, post, hl⟩ := List.append_of_mem he
  refine ⟨pre, e, post, hl, hdest, fun e' he' => hP _ (adj_of_mem ?_)⟩
  rw [hl]
  exact List.mem_append_left _ he'

/-! ### Moving and restoring -/

theorem moveOutput_fst {p : OutputPlace} (hi : Adj job.g job.n i) :
    (moveOutput job i p).1 = true ↔ job.Moves i := by
  unfold moveOutput UpdateJob.Moves UpdateJob.IsOutput
  split
  · next hno =>
    simp only [Bool.or_eq_true, decide_eq_true_eq] at hno
    refine iff_of_true rfl fun hout => ?_
    rcases hno with hno | hno
    · rw [hout.2.1] at hno
      cases hno
    · exact absurd hno hout.2.2
  next hout =>
  simp only [Bool.or_eq_true, decide_eq_true_eq, not_or, Bool.not_eq_true] at hout
  have hthis : Adj job.g job.n i ∧ job.skips i = false ∧ (job.g.node i).transient ≠ .delete :=
    ⟨hi, hout⟩
  split
  · next hopen => simpa [hthis] using fun h => absurd h (by simpa using hopen)
  split
  · next hmove => simpa [hthis] using fun _ => by simpa using hmove
  next hopen hmove =>
  have hmoves : job.outcome.openOutputDir i = true ∧ job.outcome.moves i = true :=
    ⟨by simpa using hopen, by simpa using hmove⟩
  split <;> exact iff_of_true rfl fun _ => hmoves

theorem moveOutput_snd {p : OutputPlace} (hi : job.IsOutput i) (hm : job.Moves i) :
    (moveOutput job i p).2 =
      { file := none, backup := p.file.or p.backup, skip := p.skip } := by
  obtain ⟨hopen, hmove⟩ := hm hi
  unfold moveOutput
  rw [if_neg (by simp [hi.2.1, hi.2.2]), if_neg (by simp [hopen]), if_neg (by simp [hmove])]
  obtain ⟨file, backup, skip⟩ := p
  cases file <;> rfl

theorem moveOutput_of_not_moves {p : OutputPlace} (hm : ¬ job.Moves i) :
    (moveOutput job i p).2 = p := by
  unfold moveOutput
  split
  · rfl
  split
  · rfl
  split
  · rfl
  next hno hopen hmove =>
  exact absurd (fun _ => ⟨by simpa using hopen, by simpa using hmove⟩) hm

/-- A node that is no output is left where it is. -/
theorem moveOutput_of_not_output {p : OutputPlace} (hi : Adj job.g job.n i)
    (hout : ¬ job.IsOutput i) : moveOutput job i p = (true, p) := by
  unfold moveOutput
  rw [if_pos]
  by_contra hno
  simp only [Bool.or_eq_true, decide_eq_true_eq, not_or, Bool.not_eq_true] at hno
  exact hout ⟨hi, hno⟩

theorem restoreOutput_fst {p : OutputPlace} :
    (restoreOutput job i p).1 = true ↔ job.Restores i := by
  unfold restoreOutput UpdateJob.Restores
  split
  · next hskip => simp [hskip]
  next hskip =>
  rw [Bool.not_eq_true] at hskip
  split
  · next hres =>
    have hres : job.outcome.restores i = false := by simpa using hres
    simp [hskip, hres]
  next hres =>
  have hres : job.outcome.restores i = true := by simpa using hres
  split <;> simp [hskip, hres]

theorem restoreOutput_file {p : OutputPlace} (hskip : job.skips i = false) :
    (restoreOutput job i p).2.file =
      if job.outcome.restores i then p.backup.or p.file else p.file := by
  unfold restoreOutput
  rw [if_neg (by simp [hskip])]
  obtain ⟨file, backup, skip⟩ := p
  cases hres : job.outcome.restores i with
  | false => rfl
  | true => cases backup <;> rfl

theorem moveOutputs_fst : (moveOutputs job s).1 = true ↔ ∀ j, job.Moves j := by
  unfold moveOutputs
  rw [eachOutput_ok fun j hj => moveOutput_fst hj]
  exact ⟨fun h j hj => h j hj.1 hj, fun h j _ => h j⟩

/-- An output the loop comes to is moved to the backup. -/
theorem moveOutputs_place (hi : job.IsOutput i) (hcomes : job.ComesTo job.Moves i)
    (hm : job.Moves i) : (moveOutputs job s).2.place job.path i =
      { file := none, backup := (s.files (job.path i)).or (s.backup i), skip := s.work.skip i } := by
  unfold moveOutputs
  rw [(eachOutput_place (fun j hj => moveOutput_fst hj) hi.1).1 hcomes, moveOutput_snd hi hm]
  rfl

/-- Every other node is left as it was. -/
theorem moveOutputs_place_of_not (hi : Adj job.g job.n i)
    (h : ¬ (job.IsOutput i ∧ job.ComesTo job.Moves i ∧ job.Moves i)) :
    (moveOutputs job s).2.place job.path i = s.place job.path i := by
  unfold moveOutputs
  obtain ⟨hcomes, hnot⟩ := eachOutput_place (s := s) (fun j hj => moveOutput_fst hj) hi
  by_cases hc : job.ComesTo job.Moves i
  · rw [hcomes hc]
    by_cases hout : job.IsOutput i
    · exact moveOutput_of_not_moves fun hm => h ⟨hout, hc, hm⟩
    · rw [moveOutput_of_not_output hi hout]
  · exact hnot hc

theorem restoreOutputs_file (hi : job.IsOutput i) :
    (restoreOutputs job s).2.files (job.path i) =
      open Classical in
      if job.ComesTo job.Restores i ∧ job.outcome.restores i = true then
        (s.backup i).or (s.files (job.path i))
      else s.files (job.path i) := by
  obtain ⟨hcomes, hnot⟩ :=
    eachOutput_place (s := s) (fun j _ => restoreOutput_fst (p := s.place job.path j)) hi.1
  by_cases hc : job.ComesTo job.Restores i
  · have hplace := congrArg OutputPlace.file (hcomes hc)
    rw [restoreOutput_file hi.2.1] at hplace
    simp only [hc, true_and]
    exact hplace
  · rw [if_neg fun h => hc h.1]
    exact congrArg OutputPlace.file (hnot hc)

/-! ### Comparing and marking -/

theorem checkOutputsLoop_spec (entry : TupId → TupEntry) (g : Graph) (same : TupId → Option Bool)
    (l : List Edge) (w : Work) :
    ((checkOutputsLoop entry g same l w).2 = 0 ↔
      ∀ e ∈ l, skipOutput entry (g.node e.dest).tent = false → (same e.dest).isSome) ∧
    ((checkOutputsLoop entry g same l w).2 = 0 → ∀ i,
      ((checkOutputsLoop entry g same l w).1.skip i = true ↔ w.skip i = true ∧
        ∀ e ∈ l, e.dest = i → skipOutput entry (g.node i).tent = false → same i = some true)) := by
  induction l generalizing w with
  | nil => simp [checkOutputsLoop]
  | cons e es ih =>
    rw [checkOutputsLoop]
    split
    · next hskip =>
      obtain ⟨hrc, hw⟩ := ih w
      refine ⟨?_, fun h i => ?_⟩
      · rw [hrc, List.forall_mem_cons]
        simp [hskip]
      · rw [hw h i, List.forall_mem_cons]
        refine and_congr_right fun _ => ⟨fun h => ⟨?_, h⟩, fun h => h.2⟩
        rintro rfl hno
        rw [hskip] at hno
        cases hno
    next hskip =>
    rw [Bool.not_eq_true] at hskip
    split
    · next hsame =>
      refine ⟨iff_of_false (by simp) fun h => ?_, fun h => absurd h (by simp)⟩
      have hsome := h e List.mem_cons_self hskip
      rw [hsame] at hsome
      cases hsome
    · next hsame =>
      obtain ⟨hrc, hw⟩ := ih w
      refine ⟨?_, fun h i => ?_⟩
      · rw [hrc, List.forall_mem_cons]
        simp [hsame]
      · rw [hw h i, List.forall_mem_cons]
        refine and_congr_right fun _ => ⟨fun h => ⟨?_, h⟩, fun h => h.2⟩
        rintro rfl -
        exact hsame
    · next hsame =>
      obtain ⟨hrc, hw⟩ := ih (w.unskip e.dest)
      refine ⟨?_, fun h i => ?_⟩
      · rw [hrc, List.forall_mem_cons]
        simp [hsame]
      · rw [hw h i, List.forall_mem_cons]
        by_cases hi : e.dest = i
        · subst hi
          refine iff_of_false (fun h => ?_) fun h => ?_
          · have hfalse := h.1
            unfold Work.unskip at hfalse
            simp only [Function.update_self] at hfalse
            cases hfalse
          · have htrue := h.2.1 rfl hskip
            rw [hsame] at htrue
            cases htrue
        · have hother : (w.unskip e.dest).skip i = w.skip i := by
            unfold Work.unskip
            simp only [Function.update_of_ne (Ne.symm hi)]
          rw [hother]
          exact and_congr_right fun _ => ⟨fun h => ⟨fun h' => absurd h' hi, h⟩, fun h => h.2⟩

/-- The outputs that stay skipped are those that are the same. -/
theorem checkOutputs_spec (entry : TupId → TupEntry) (g : Graph) (same : TupId → Option Bool)
    (w : Work) (n : TupId) :
    ((checkOutputs entry g same w n).2 = 0 ↔ ∀ i, Adj g n i →
      skipOutput entry (g.node i).tent = false → (same i).isSome) ∧
    ((checkOutputs entry g same w n).2 = 0 → ∀ i, Adj g n i →
      skipOutput entry (g.node i).tent = false →
      ((checkOutputs entry g same w n).1.skip i = true ↔
        w.skip i = true ∧ same i = some true)) := by
  obtain ⟨hrc, hw⟩ := checkOutputsLoop_spec entry g same (outEdges g n) w
  refine ⟨?_, fun h i hi hskip => ?_⟩
  · unfold checkOutputs
    rw [hrc]
    constructor
    · rintro h i ⟨e, he, hsrc, rfl⟩ hskip
      exact h e (mem_outEdges.2 ⟨he, hsrc⟩) hskip
    · exact fun h e he => h _ ⟨e, (mem_outEdges.1 he).1, (mem_outEdges.1 he).2, rfl⟩
  · unfold checkOutputs
    rw [hw h i]
    obtain ⟨e, he, hsrc, hdest⟩ := hi
    exact and_congr_right fun _ => ⟨fun h => h e (mem_outEdges.2 ⟨he, hsrc⟩) hdest hskip,
      fun h _ _ _ _ => h⟩

theorem unskipOutputs_skip {g : Graph} {w : Work} {n : TupId} (hi : Adj g n i) :
    (unskipOutputs g w n).skip i = false := by
  have hfold : ∀ (l : List Edge) (w : Work), w.skip i = false ∨ (∃ e ∈ l, e.dest = i) →
      (l.foldl (fun w e => w.unskip e.dest) w).skip i = false := by
    intro l
    induction l with
    | nil => simp
    | cons e es ih =>
      intro w h
      rw [List.foldl_cons]
      apply ih
      by_cases he : e.dest = i
      · left
        unfold Work.unskip
        simp [he]
      · rcases h with h | ⟨e', he', hdest⟩
        · left
          unfold Work.unskip
          simp only [Function.update_of_ne (Ne.symm he)]
          exact h
        · rcases List.mem_cons.1 he' with rfl | he'
          · exact absurd hdest he
          · exact .inr ⟨e', he', hdest⟩
  obtain ⟨e, he, hsrc, hdest⟩ := hi
  exact hfold _ _ (.inr ⟨e, mem_outEdges.2 ⟨he, hsrc⟩, hdest⟩)

theorem markTransientLoop_spec (job : UpdateJob) (l : List Edge) (s : OutputState) :
    ((markTransientLoop job l s).1 = true ↔
      ∀ e ∈ l, job.skips e.dest = false → job.outcome.addTransient e.dest = true) ∧
    (markTransientLoop job l s).2.files = s.files ∧
    (markTransientLoop job l s).2.backup = s.backup ∧
    (markTransientLoop job l s).2.work.skip = s.work.skip := by
  induction l generalizing s with
  | nil => simp [markTransientLoop]
  | cons e es ih =>
    rw [markTransientLoop, List.forall_mem_cons]
    split
    · next hskip =>
      obtain ⟨hrc, hrest⟩ := ih s
      refine ⟨?_, hrest⟩
      rw [hrc]
      simp [hskip]
    next hskip =>
    rw [Bool.not_eq_true] at hskip
    split
    · next hadd =>
      refine ⟨iff_of_false (by simp) fun h => ?_, rfl, rfl, rfl⟩
      rw [h.1 hskip] at hadd
      cases hadd
    · next hadd =>
      obtain ⟨hrc, hrest⟩ := ih
        { s with work := { s.work with flags := tupDbAddTransientList s.work.flags e.dest } }
      refine ⟨?_, hrest⟩
      rw [hrc]
      simp only [Bool.not_eq_true', Bool.not_eq_false] at hadd
      simp [hadd]

theorem markTransientOutputs_spec (job : UpdateJob) (s : OutputState) :
    ((markTransientOutputs job s).1 = true ↔ ∀ i, Adj job.g job.n i → job.skips i = false →
      job.outcome.addTransient i = true) ∧
    (markTransientOutputs job s).2.files = s.files ∧
    (markTransientOutputs job s).2.backup = s.backup ∧
    (markTransientOutputs job s).2.work.skip = s.work.skip := by
  obtain ⟨hrc, hrest⟩ := markTransientLoop_spec job (outEdges job.g job.n) s
  refine ⟨?_, hrest⟩
  unfold markTransientOutputs
  rw [hrc]
  constructor
  · intro h i hi
    obtain ⟨e, he, rfl⟩ := UpdateJob.exists_edge hi
    exact h e he
  · exact fun h e he => h _ (UpdateJob.adj_of_mem he)

/-! ### The end of `update` -/

theorem writeFiles_iff {o : UpdateOutcome} {b : Bool} (h : writeFiles o = some b) :
    b = true ↔ o.reads.LinkDropped := by
  unfold writeFiles at h
  split at h
  · cases h
  split at h
  · cases h
  next res hcheck =>
  split at h
  · cases h
    exact CommandReads.check_importantLinkRemoved hcheck
  · cases h

theorem exitResult_iff {o : UpdateOutcome} {b : Bool} (h : exitResult o = some b) :
    b = true ↔ o.reads.LinkDropped := by
  unfold exitResult at h
  split at h
  · exact writeFiles_iff h
  · cases h

/-- The comparison only changes the `skip` flags, and leaves the files where they are. -/
theorem processCompared_spec {b : Bool} (h : exitResult job.outcome = some b) :
    ((processCompared job s).1 = true ↔ b = true ∨ ∀ i, Adj job.g job.n i → job.skips i = false →
      (samePaths job s i).isSome) ∧
    (processCompared job s).2.files = s.files ∧
    ((processCompared job s).1 = true → ∀ i, job.IsOutput i →
      ((processCompared job s).2.work.skip i = true ↔
        s.work.skip i = true ∧ b = false ∧ samePaths job s i = some true)) := by
  unfold processCompared
  rw [h]
  cases b with
  | true =>
    refine ⟨by simp, rfl, fun _ i hi => ?_⟩
    dsimp only
    rw [unskipOutputs_skip hi.1]
    simp
  | false =>
    obtain ⟨hrc, hskip⟩ := checkOutputs_spec job.env.entry job.g (samePaths job s) s.work job.n
    dsimp only
    rw [decide_eq_true_eq, hrc]
    refine ⟨by simp [UpdateJob.skips], rfl, fun hall i hi => ?_⟩
    rw [hskip (hrc.2 hall) i hi.1 hi.2.1]
    simp

/-- The end of an update whose command has succeeded. -/
theorem finishUpdate_spec {b : Bool} (ho : hasFlag job.tent 'o' = true)
    (htmp : job.outcome.tmpfile = true) (h : exitResult job.outcome = some b) :
    ((finishUpdate job s).1 = true ↔
      (b = true ∨ ∀ i, Adj job.g job.n i → job.skips i = false → (samePaths job s i).isSome) ∧
      job.outcome.display = true ∧ job.outcome.setMtime = true ∧
      (hasFlag job.tent 't' = true → ∀ i, Adj job.g job.n i → job.skips i = false →
        job.outcome.addTransient i = true) ∧ job.outcome.postexec = true) ∧
    (finishUpdate job s).2.files = s.files ∧
    ((finishUpdate job s).1 = true → ∀ i, job.IsOutput i →
      ((finishUpdate job s).2.work.skip i = true ↔
        s.work.skip i = true ∧ b = false ∧ samePaths job s i = some true)) := by
  obtain ⟨hrc, hfiles, hskip⟩ :=
    processCompared_spec (s := { s with work := { s.work with flags := job.outcome.flags } }) h
  generalize hp : processCompared job { s with work := { s.work with flags := job.outcome.flags } } =
    r at hrc hfiles hskip
  obtain ⟨ok, s'⟩ := r
  have hprocess : processOutput job s = (ok && job.outcome.display && job.outcome.setMtime, s') := by
    unfold processOutput
    simp [htmp, ho, hp, h]
  have hsame : ∀ i, samePaths job { s with work := { s.work with flags := job.outcome.flags } } i =
      samePaths job s i := fun _ => rfl
  simp only [hsame] at hrc hskip
  unfold finishUpdate
  rw [hprocess]
  split
  · next s₁ heq =>
    obtain ⟨hfalse, rfl⟩ := Prod.mk.inj heq
    refine ⟨iff_of_false (by simp) ?_, hfiles, by simp⟩
    rintro ⟨hcmp, hdisplay, hmtime, -⟩
    rw [hrc.2 hcmp, hdisplay, hmtime] at hfalse
    cases hfalse
  · next s₁ heq =>
    obtain ⟨htrue, rfl⟩ := Prod.mk.inj heq
    simp only [Bool.and_eq_true] at htrue
    obtain ⟨⟨hok, hdisplay⟩, hmtime⟩ := htrue
    obtain ⟨hmark, hmfiles, -, hmskip⟩ := markTransientOutputs_spec job s'
    cases ht : hasFlag job.tent 't' with
    | false =>
      refine ⟨?_, hfiles, fun _ => hskip hok⟩
      simp [hrc.1 hok, hdisplay, hmtime]
    | true =>
      refine ⟨?_, hmfiles.trans hfiles, fun _ i hi => ?_⟩
      · simp [hrc.1 hok, hdisplay, hmtime, hmark]
      · simp only [if_true]
        rw [hmskip]
        exact hskip hok i hi

end Metatup
