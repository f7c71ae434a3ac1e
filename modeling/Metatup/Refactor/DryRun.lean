import Metatup.Refactor.RuleGuards

/-!
# Refactoring as a dry run

A pass with refactoring on accepts what it does without it, and with the same result. The guards
catch all that a rule changes but four things: the display string of its command, the fields of
outputs it has already, the type of a `.gitignore` file that is there, and what the end of the pass
does to files and directories that no rule is about.

* `passEvent_within`: with refactoring off the same happens.
* `refactoring_is_dry_run`: when the four do not occur, nothing changes or something is reported.
-/

namespace Metatup

open Lib

/-! ### The same run without refactoring -/

section

variable {env : PassEnv} {db db' : Db} {s s' : PassState} {dt c cmdid : TupId} {r : RuleSpec}
  {out : RuleOutputs} {group oldGroup : Option TupId} {modified : Bool} {e : ParseEnd}

theorem ruleCommand_within {onl : List TupId} :
    Lib.Within (ruleCommand env true r onl s modified) (ruleCommand env false r onl s modified) := by
  unfold ruleCommand
  split
  · refine .ite (fun _ => .refl _) fun _ => Lib.Within.bind ?_ fun _ _ => .refl _
    exact .ite (fun _ => .refused _ _) fun _ => .refl _
  · refine (Lib.Within.refl _).bind fun p _ => ?_
    obtain ⟨link, owner⟩ := p
    cases owner with
    | none => exact .refused _ _
    | some c => exact (Lib.Within.refl _).bind fun _ _ => .refused _ _

theorem writeOutputs_within :
    Lib.Within (writeOutputs env true s cmdid out modified) (writeOutputs env false s cmdid out modified) := by
  refine (Lib.Within.refl _).bind fun cmdtent _ => Lib.Within.bind ?_ fun _ _ => .refl _
  rintro ⟨db', oldGroup⟩ h
  obtain ⟨rfl, rfl, rfl, hget⟩ := dryWriteOutputs_ok h
  apply need_eq_ok.2
  have hchange : ∀ old : CmdOutputs, old.group = out.group →
      changeGroup cmdtent.tupid old out.outputRoot out.group s.db = some s.db := by
    intro old hgroup
    unfold changeGroup
    exact if_pos hgroup
  unfold tupDbWriteOutputs
  dsimp only
  rw [hget, Option.bind_eq_bind, Option.bind_some, hchange _ rfl, Option.bind_eq_bind,
    Option.bind_some, compareTentTrees_self, Option.bind_eq_bind, Option.bind_some,
    compareTentTrees_self, Option.bind_some]
  simp

theorem writeInputs_within {inputRoot envRoot : TentTree} :
    Lib.Within (writeInputs true s cmdid inputRoot envRoot group oldGroup)
      (writeInputs false s cmdid inputRoot envRoot group oldGroup) := by
  refine Lib.Within.bind ?_ fun _ _ => .refl _
  intro db' h
  rw [cond_true, dryWriteInputs_eq] at h
  obtain ⟨sticky, hsticky, h⟩ := bind_eq_ok.1 h
  obtain ⟨db₁, hchange, h⟩ := bind_eq_ok.1 h
  split at h
  · next hnil =>
    cases h
    rw [List.isEmpty_iff, List.map_eq_nil_iff] at hnil
    have hsame := eq_of_diff_eq_nil hnil
    apply need_eq_ok.2
    unfold tupDbWriteInputs
    dsimp only
    rw [need_eq_ok.1 hsticky, ← hsame, Option.bind_eq_bind, Option.bind_some,
      compareTentTrees_self, Option.bind_eq_bind, Option.bind_some]
    exact need_eq_ok.1 hchange
  · cases h

theorem doRule_within : Lib.Within (doRule env true dt r s) (doRule env false dt r s) := by
  refine .ite (fun _ => .refl _) fun _ => (Lib.Within.refl _).bind fun _ _ =>
    ruleCommand_within.bind fun _ _ => Lib.Within.bind ?_ fun _ _ => (Lib.Within.refl _).bind fun _ _ => ?_
  · exact .ite (fun _ => .refused _ _) fun _ => .refl _
  · refine (Lib.Within.refl _).bind fun _ _ => (Lib.Within.refl _).bind fun _ _ => ?_
    exact .ite (fun _ => .refl _) fun _ => writeOutputs_within.bind fun _ _ => writeInputs_within

theorem parserGitignore_within {d : TupId} :
    Lib.Within (parserGitignore env true s d) (parserGitignore env false s d) := by
  unfold parserGitignore
  split
  · exact .refused _ _
  · exact .refl _

theorem parseGitignore_within :
    Lib.Within (parseGitignore env true dt e s) (parseGitignore env false dt e s) := by
  refine .ite (fun _ => .foldlM (fun _ _ => parserGitignore_within) _ _) fun _ => ?_
  split
  · exact .ite (fun _ => .refused _ _) fun _ => .refl _
  · exact .refl _

theorem finishParse_within : Lib.Within (finishParse env true dt e s) (finishParse env false dt e s) := by
  refine .ite (fun _ => .refl _) fun _ => parseGitignore_within.bind fun s _ =>
    (Lib.Within.refl _).bind fun db _ => ?_
  intro s' h
  rw [Bool.true_and] at h
  split at h
  · cases h
  · exact h

/-- What a pass with refactoring accepts, the pass without it does. -/
theorem passEvent_within (ev : ParseEvent) :
    Lib.Within (passEvent env true s ev) (passEvent env false s ev) := by
  cases ev with
  | start dt => exact .refl _
  | rule dt r => exact doRule_within
  | finish dt e => exact finishParse_within

/-! ### The conditions -/

/-- The conditions of one event. -/
def ParseEvent.Guarded (env : PassEnv) (db : Db) : ParseEvent → Prop
  -- the files that the Tupfile has made are outputs of its commands, and its directory is no
  -- generated one
  | .start dt =>
    (∀ t ∈ db.node, t.srcid = dt → t.type = .generated →
      (∃ c ∈ db.node, c.dt = dt ∧ c.type = .cmd ∧ NormalAdj db c.tupid t.tupid) ∨
        tupDbSelectTent db dt gitignore = some t) ∧
      ∀ tent, tupEntryAdd db dt = some tent → (tupEntryVariant db tent).any (·.rootVariant) = true →
        tupDbIsGeneratedDir db dt = false
  | .rule dt r => r.Guarded env dt db
  -- a .gitignore file that is to be made is a generated one if it is there, and the same files are
  -- read as before
  | .finish dt e =>
    (e.ign = true → ∀ d ∈ e.srctent.toList ++ [dt], ∀ t,
      tupDbSelectTent db d gitignore = some t → t.type = .generated) ∧
      getNormalInputs db dt = some e.inputRoot

/-- The directories whose parse is going on after an event. -/
def nextRunning (l : List TupId) : ParseEvent → List TupId
  | .start dt => dt :: l
  | .rule _ _ => l
  | .finish dt _ => l.erase dt

/-- Every parse that begins ends. -/
def Complete (events : List ParseEvent) : Prop := events.foldl nextRunning [] = []

/-! ### What holds of every state -/

/-- Nothing has changed, and what is noted for deletion belongs to a parse that is going on: it is a
command of that directory that no rule has made yet, a file that such a command makes, or the
`.gitignore` file. -/
structure PassInv (db : Db) (s : PassState) : Prop where
  steady : Steady db s
  cmds : ∀ i ∈ s.cmdDeleteRoot, ∃ dt ∈ s.running, i ∈ s.refactoringCmdDeleteRoot dt
  files : ∀ i, i ∈ s.genDeleteRoot ∨ i ∈ s.saveRoot → ∃ t ∈ db.node, t.tupid = i ∧
    t.type = .generated ∧ ∃ dt ∈ s.running, (∃ c ∈ s.refactoringCmdDeleteRoot dt, NormalAdj db c i) ∨
      tupDbSelectTent db dt gitignore = some t
  normalDir : ∀ dt ∈ s.normalDirRoot, tupDbIsGeneratedDir db dt = false
  running : ∀ dt ∈ s.running, dt ∈ s.parsing

theorem passInv_start (db : Db) : PassInv db { link := { db := db } } := by
  refine ⟨⟨.refl db, rfl, rfl, ?_⟩, ?_, ?_, ?_, ?_⟩
  · intro o c hc
    cases hc
  · intro i hi
    exact absurd hi (TentTree.not_mem_empty i)
  · rintro i (hi | hi)
    · exact absurd hi (TentTree.not_mem_empty i)
    · exact absurd hi (TentTree.not_mem_empty i)
  · intro i hi
    exact absurd hi (TentTree.not_mem_empty i)
  · intro i hi
    cases hi

/-- A rule that passes. -/
theorem PassInv.rule (h : PassInv db s) (hs : db.Sound) (hguard : r.Guarded env dt db)
    (hrun : doRule env true dt r s = .ok s') : PassInv db s' := by
  obtain ⟨hst, cmdid, onl, hnoted, houtputs⟩ := doRule_steady hs h.steady hguard hrun
  have hroot : ∀ d i, i ≠ cmdid → i ∈ s.refactoringCmdDeleteRoot d →
      i ∈ s'.refactoringCmdDeleteRoot d := by
    intro d i hne hi
    rw [hnoted.refactoring]
    by_cases hd : d = dt
    · subst hd
      rw [Function.update_self, mem_tentTreeRemove]
      exact ⟨hne, hi⟩
    · rw [Function.update_of_ne hd]
      exact hi
  refine ⟨hst, ?_, ?_, ?_, ?_⟩
  · intro i hi
    rw [hnoted.cmdDelete, mem_tentTreeRemove] at hi
    obtain ⟨d, hd, hid⟩ := h.cmds i hi.2
    exact ⟨d, hnoted.running ▸ hd, hroot d i hi.1 hid⟩
  · intro i hi
    rw [hnoted.genDelete, hnoted.save] at hi
    obtain ⟨t, ht, rfl, htype, d, hd, hwhy⟩ := h.files i (hi.imp And.left And.left)
    have hnot : t.tupid ∉ onl := hi.elim And.right And.right
    refine ⟨t, ht, rfl, htype, d, hnoted.running ▸ hd, ?_⟩
    rcases hwhy with ⟨c, hc, hadj⟩ | hgit
    · refine .inl ⟨c, hroot d c ?_ hc, hadj⟩
      rintro rfl
      exact hnot (houtputs t ht htype hadj)
    · exact .inr hgit
  · intro d hd
    exact h.normalDir d (hnoted.normalDir ▸ hd)
  · intro d hd
    rw [hnoted.parsing]
    exact h.running d (hnoted.running ▸ hd)

theorem mem_foldlM_tentTreeAdd_of {l : List TupId} {t t' : TentTree} {i : TupId}
    (h : l.foldlM tentTreeAdd t = some t') : i ∈ t' ↔ i ∈ t ∨ i ∈ l := by
  induction l generalizing t with
  | nil =>
    cases h
    simp
  | cons x l ih =>
    rw [List.foldlM_cons, Option.bind_eq_bind, Option.bind_eq_some_iff] at h
    obtain ⟨m, hm, h⟩ := h
    rw [ih h, mem_of_tentTreeAdd hm, List.mem_cons]
    tauto

/-- The files of a Tupfile are noted for deletion or for saving. -/
theorem foldlM_splitRoot {l : List TupId} (h : l.foldlM splitRoot s = .ok s') :
    (s'.link = s.link ∧ s'.changes = s.changes ∧ s'.parsing = s.parsing ∧ s'.running = s.running ∧
      s'.refactoringCmdDeleteRoot = s.refactoringCmdDeleteRoot ∧
        s'.cmdDeleteRoot = s.cmdDeleteRoot ∧ s'.normalDirRoot = s.normalDirRoot ∧
          s'.cmdRoot = s.cmdRoot) ∧
      ∀ i, i ∈ s'.genDeleteRoot ∨ i ∈ s'.saveRoot ↔ (i ∈ s.genDeleteRoot ∨ i ∈ s.saveRoot) ∨ i ∈ l := by
  induction l generalizing s with
  | nil =>
    cases h
    simp
  | cons x l ih =>
    rw [List.foldlM_cons] at h
    obtain ⟨m, hm, h⟩ := bind_eq_ok.1 h
    obtain ⟨hsame, hmem⟩ := ih h
    unfold splitRoot at hm
    split at hm
    all_goals
      obtain ⟨root, hroot, hm⟩ := bind_eq_ok.1 hm
      have hadd := fun j => mem_of_tentTreeAdd (j := j) (need_eq_ok.1 hroot)
      cases hm
      refine ⟨hsame, fun i => ?_⟩
      rw [hmem, hadd, List.mem_cons]
      tauto

theorem Steady.tupEntryVariant (h : Steady db s) (t : TupEntry) :
    tupEntryVariant s.db t = tupEntryVariant db t := by
  have key : ∀ fuel t, tupEntryVariantLoop s.db fuel t = tupEntryVariantLoop db fuel t := by
    intro fuel
    induction fuel with
    | zero => exact fun _ => rfl
    | succ fuel ih =>
      intro t
      unfold tupEntryVariantLoop variantSearch
      rw [h.variants, h.rows.tupEntryAdd]
      simp only [ih]
  unfold Metatup.tupEntryVariant
  rw [key, h.rows.node]

/-- The beginning of a parse. -/
theorem PassInv.start (h : PassInv db s) (hguard : (ParseEvent.start dt).Guarded env db)
    (hrun : startParse dt s = .ok s') : PassInv db s' := by
  unfold startParse at hrun
  split at hrun
  · cases hrun
  next hnew =>
  obtain ⟨tent, htent, hrun⟩ := bind_eq_ok.1 hrun
  obtain ⟨cmdRoot, hcmdRoot, hrun⟩ := bind_eq_ok.1 hrun
  obtain ⟨dirRoot, hdirRoot, hrun⟩ := bind_eq_ok.1 hrun
  obtain ⟨⟨hlink, hchanges, hparsing, hrunning, hrefactoring, hcmdDelete, hnormalDir,
    -⟩, hmem⟩ := foldlM_splitRoot hrun
  dsimp only at hlink hchanges hparsing hrunning hrefactoring hcmdDelete hnormalDir hmem
  have hst : Steady db s' := by
    refine ⟨?_, ?_, hchanges.trans h.steady.changes, hlink ▸ h.steady.incoming⟩
    · have hrows := h.steady.rows
      unfold PassState.db at hrows ⊢
      rwa [hlink]
    · have hvar := h.steady.variants
      unfold PassState.db at hvar ⊢
      rwa [hlink]
  have hrows := h.steady.rows
  have hdir : ∀ i, i ∈ dirRoot ↔ ∃ c ∈ db.node, c.dt = dt ∧ c.type = .cmd ∧ c.tupid = i := by
    intro i
    rw [mem_foldlM_tentTreeAdd (need_eq_ok.1 hdirRoot)]
    simp [tupDbDirtype, hrows.node, and_assoc]
  have hold : ∀ d ∈ s.running, d ≠ dt := by
    rintro d hd rfl
    exact hnew (h.running d hd)
  refine ⟨hst, ?_, ?_, ?_, ?_⟩
  · intro i hi
    rw [hcmdDelete, mem_foldlM_tentTreeAdd_of (need_eq_ok.1 hcmdRoot)] at hi
    rw [hrunning, hrefactoring]
    rcases hi with hi | hi
    · obtain ⟨d, hd, hid⟩ := h.cmds i hi
      refine ⟨d, List.mem_cons_of_mem dt hd, ?_⟩
      rw [Function.update_of_ne (hold d hd)]
      exact hid
    · refine ⟨dt, List.mem_cons_self, ?_⟩
      rw [Function.update_self, mem_foldlM_tentTreeAdd (need_eq_ok.1 hdirRoot)]
      exact hi
  · intro i hi
    rw [hrunning, hrefactoring]
    rcases (hmem i).1 hi with hi | hi
    · obtain ⟨t, ht, hid, htype, d, hd, hwhy⟩ := h.files i hi
      refine ⟨t, ht, hid, htype, d, List.mem_cons_of_mem dt hd, ?_⟩
      rw [Function.update_of_ne (hold d hd)]
      exact hwhy
    · unfold tupDbSrcidToTree at hi
      obtain ⟨t, ht, rfl⟩ := List.mem_map.1 hi
      rw [hrows.node, List.mem_filter, Bool.and_eq_true, decide_eq_true_eq, decide_eq_true_eq] at ht
      obtain ⟨htmem, hsrc, htype⟩ := ht
      refine ⟨t, htmem, rfl, htype, dt, List.mem_cons_self, ?_⟩
      rw [Function.update_self]
      refine (hguard.1 t htmem hsrc htype).imp_left ?_
      rintro ⟨c, hc, hcdt, hctype, hadj⟩
      exact ⟨c.tupid, (hdir c.tupid).2 ⟨c, hc, hcdt, hctype, rfl⟩, hadj⟩
  · intro d hd
    rw [hnormalDir] at hd
    split at hd
    · next hroot =>
      rcases mem_tentTreeAddDup.1 hd with rfl | hd
      · rw [h.steady.tupEntryVariant] at hroot
        refine hguard.2 tent ?_ hroot
        rw [← hrows.tupEntryAdd]
        exact need_eq_ok.1 htent
      · exact h.normalDir d hd
    · exact h.normalDir d hd
  · intro d hd
    rw [hrunning] at hd
    rw [hparsing]
    rcases List.mem_cons.1 hd with rfl | hd
    · exact List.mem_cons_self
    · exact List.mem_cons_of_mem dt (h.running d hd)

/-! ### The end of a parse -/

/-- The trees of files may lose members. -/
structure FilesKept (s s' : PassState) : Prop where
  parsing : s'.parsing = s.parsing
  running : s'.running = s.running
  refactoring : s'.refactoringCmdDeleteRoot = s.refactoringCmdDeleteRoot
  cmdDelete : s'.cmdDeleteRoot = s.cmdDeleteRoot
  normalDir : s'.normalDirRoot = s.normalDirRoot
  files : ∀ i, i ∈ s'.genDeleteRoot ∨ i ∈ s'.saveRoot → i ∈ s.genDeleteRoot ∨ i ∈ s.saveRoot

theorem FilesKept.refl (s : PassState) : FilesKept s s := ⟨rfl, rfl, rfl, rfl, rfl, fun _ => id⟩

theorem FilesKept.trans {m : PassState} (h : FilesKept s m) (h₁ : FilesKept m s') : FilesKept s s' :=
  ⟨h₁.parsing.trans h.parsing, h₁.running.trans h.running, h₁.refactoring.trans h.refactoring,
    h₁.cmdDelete.trans h.cmdDelete, h₁.normalDir.trans h.normalDir,
    fun i hi => h.files i (h₁.files i hi)⟩

theorem parserGitignore_steady {d : TupId} (hst : Steady db s)
    (hguard : ∀ t, tupDbSelectTent db d gitignore = some t → t.type = .generated)
    (h : parserGitignore env true s d = .ok s') : Steady db s' ∧ FilesKept s s' ∧
      ∀ t, tupDbSelectTent db d gitignore = some t → t.tupid ∉ s'.genDeleteRoot ∧
        t.tupid ∉ s'.saveRoot := by
  unfold parserGitignore at h
  split at h
  · cases h
  · next t hsel =>
    rw [hst.rows.select] at hsel
    rw [if_neg (not_not.2 (hguard t hsel))] at h
    cases h
    refine ⟨⟨hst.rows, hst.variants, hst.changes, hst.incoming⟩, ⟨rfl, rfl, rfl, rfl, rfl, ?_⟩, ?_⟩
    · intro i hi
      simp only [PassState.keep, mem_tentTreeRemove] at hi
      exact hi.imp And.right And.right
    · intro t' hsel'
      rw [hsel] at hsel'
      cases hsel'
      simp [PassState.keep]

/-- The `.gitignore` files: nothing changes, and the one of the directory is not left over. -/
theorem parseGitignore_steady (hst : Steady db s) (hguard : (ParseEvent.finish dt e).Guarded env db)
    (h : parseGitignore env true dt e s = .ok s') : Steady db s' ∧ FilesKept s s' ∧
      ∀ t, tupDbSelectTent db dt gitignore = some t → t.type = .generated →
        t.tupid ∉ s'.genDeleteRoot ∧ t.tupid ∉ s'.saveRoot := by
  unfold parseGitignore at h
  split at h
  · next hign =>
    have hall := hguard.1 hign
    rw [List.foldlM_append] at h
    obtain ⟨m, hm, h⟩ := bind_eq_ok.1 h
    rw [List.foldlM_cons] at h
    obtain ⟨s₁, hs₁, h⟩ := bind_eq_ok.1 h
    cases h
    have hfirst : Steady db m ∧ FilesKept s m := by
      cases hsrc : e.srctent with
      | none =>
        rw [hsrc] at hm
        cases hm
        exact ⟨hst, .refl _⟩
      | some d =>
        rw [hsrc, Option.toList_some, List.foldlM_cons] at hm
        obtain ⟨m', hm', hm⟩ := bind_eq_ok.1 hm
        cases hm
        obtain ⟨h₁, h₂, -⟩ := parserGitignore_steady hst (hall d (by simp [hsrc])) hm'
        exact ⟨h₁, h₂⟩
    obtain ⟨h₁, h₂, h₃⟩ := parserGitignore_steady hfirst.1 (hall dt (by simp)) hs₁
    exact ⟨h₁, hfirst.2.trans h₂, fun t ht _ => h₃ t ht⟩
  · split at h
    · next t hsel =>
      split at h
      · cases h
      · next htype =>
        cases h
        refine ⟨hst, .refl _, fun t' hsel' htype' => ?_⟩
        rw [hst.rows.select, hsel'] at hsel
        cases hsel
        exact absurd htype' htype
    · next hnone =>
      cases h
      refine ⟨hst, .refl _, fun t' hsel' => ?_⟩
      rw [hst.rows.select, hsel'] at hnone
      cases hnone

/-- The end of a parse that passes. -/
theorem PassInv.finish (h : PassInv db s) (hguard : (ParseEvent.finish dt e).Guarded env db)
    (hrun : finishParse env true dt e s = .ok s') : PassInv db s' := by
  unfold finishParse at hrun
  split at hrun
  · cases hrun
  obtain ⟨m, hm, hrun⟩ := bind_eq_ok.1 hrun
  obtain ⟨db₁, hdb₁, hrun⟩ := bind_eq_ok.1 hrun
  obtain ⟨hst, hkept, hgit⟩ := parseGitignore_steady h.steady hguard hm
  have hdir : db₁ = m.db := by
    have hdb₁ := need_eq_ok.1 hdb₁
    unfold tupDbWriteDirInputs at hdb₁
    obtain ⟨sticky, -, hdb₁⟩ := Option.bind_eq_some_iff.1 hdb₁
    rw [hst.rows.getNormalInputs, hguard.2, Option.bind_eq_bind, Option.bind_some] at hdb₁
    split at hdb₁
    · cases hdb₁
    · rw [compareTentTrees_self] at hdb₁
      exact (Option.some.inj hdb₁).symm
  rw [hdir] at hrun
  dsimp only at hrun
  split at hrun
  · cases hrun
  next hleft =>
  cases hrun
  have hnone : ∀ i, i ∉ m.refactoringCmdDeleteRoot dt := by
    intro i hi
    rw [Bool.true_and, Bool.not_eq_true, Bool.not_eq_false', List.isEmpty_iff] at hleft
    rw [TentTree.mem_def, hleft] at hi
    cases hi
  refine ⟨⟨?_, hst.variants, hst.changes, hst.incoming⟩, ?_, ?_, ?_, ?_⟩
  · exact ⟨hst.rows.node, hst.rows.normalLink, hst.rows.stickyLink, hst.rows.groupLink,
      hst.rows.allowRead⟩
  · intro i hi
    obtain ⟨d, hd, hid⟩ := h.cmds i (hkept.cmdDelete ▸ hi)
    rw [← hkept.refactoring] at hid
    have hne : d ≠ dt := fun heq => hnone i (heq ▸ hid)
    refine ⟨d, ?_, hid⟩
    exact (List.mem_erase_of_ne hne).2 (hkept.running ▸ hd)
  · intro i hi
    obtain ⟨t, ht, rfl, htype, d, hd, hwhy⟩ := h.files i (hkept.files i hi)
    rw [← hkept.refactoring] at hwhy
    have hne : d ≠ dt := by
      rintro rfl
      rcases hwhy with ⟨c, hc, -⟩ | hsel
      · exact hnone c hc
      · obtain ⟨hgen, hsave⟩ := hgit t hsel htype
        exact hi.elim hgen hsave
    exact ⟨t, ht, rfl, htype, d, (List.mem_erase_of_ne hne).2 (hkept.running ▸ hd), hwhy⟩
  · intro d hd
    exact h.normalDir d (hkept.normalDir ▸ hd)
  · intro d hd
    have hmem := List.mem_of_mem_erase hd
    rw [hkept.running] at hmem
    have hparsing := h.running d hmem
    rw [← hkept.parsing] at hparsing
    exact hparsing

/-- One event. -/
theorem PassInv.step {ev : ParseEvent} (h : PassInv db s) (hs : db.Sound)
    (hguard : ev.Guarded env db) (hrun : passEvent env true s ev = .ok s') : PassInv db s' := by
  cases ev with
  | start dt => exact h.start hguard hrun
  | rule dt r => exact h.rule hs hguard hrun
  | finish dt e => exact h.finish hguard hrun

theorem finishParse_refuses : Refuses Reported (finishParse env true dt e s) := by
  refine .ite (fun _ => reported_refuse (by simp)) fun _ => Refuses.bind ?_ fun m _ =>
    (reported_need _).bind fun _ _ => ?_
  · refine .ite (fun _ => .foldlM (fun s d => ?_) _ _) fun _ => ?_
    · unfold parserGitignore
      split
      · exact reported_refuse (by simp)
      · exact .ite (fun _ => .ok _) fun _ => .ok _
    · split
      · exact .ite (fun _ => reported_refuse (by simp)) fun _ => .ok _
      · exact .ok _
  · refine .ite (fun hleft => ?_) fun _ => .ok _
    rw [Bool.true_and, Bool.not_eq_true', ← Bool.not_eq_true, List.isEmpty_iff, ← ne_eq] at hleft
    obtain ⟨i, l, hl⟩ := List.exists_cons_of_ne_nil hleft
    refine Refuses.error ⟨.deleteCommand i, ?_, by simp⟩
    rw [hl]
    exact List.mem_cons_self

theorem startParse_refuses : Refuses Reported (startParse dt s) := by
  refine .ite (fun _ => reported_refuse (by simp)) fun _ => (reported_need _).bind fun _ _ =>
    (reported_need _).bind fun _ _ => (reported_need _).bind fun _ _ => .foldlM (fun s i => ?_) _ _
  exact .ite (fun _ => (reported_need _).bind fun _ _ => .ok _)
    fun _ => (reported_need _).bind fun _ _ => .ok _

/-- A pass that comes to its end has changed nothing, and a pass that does not is reported. -/
theorem PassInv.run {events : List ParseEvent} (h : PassInv db s) (hs : db.Sound)
    (hguard : ∀ ev ∈ events, ev.Guarded env db) :
    (∀ s', events.foldlM (passEvent env true) s = .ok s' → PassInv db s' ∧
      s'.running = events.foldl nextRunning s.running) ∧
        Refuses Reported (events.foldlM (passEvent env true) s) := by
  induction events generalizing s with
  | nil =>
    refine ⟨fun s' hs' => ?_, .ok s⟩
    cases hs'
    exact ⟨h, rfl⟩
  | cons ev events ih =>
    have hev := hguard ev List.mem_cons_self
    have hrest := fun ev' hev' => hguard ev' (List.mem_cons_of_mem ev hev')
    rw [List.foldlM_cons]
    refine ⟨fun s' hrun => ?_, Refuses.bind ?_ fun m hm => (ih (h.step hs hev hm) hrest).2⟩
    · obtain ⟨m, hm, hrun⟩ := bind_eq_ok.1 hrun
      obtain ⟨hinv, hrunning⟩ := (ih (h.step hs hev hm) hrest).1 s' hrun
      refine ⟨hinv, hrunning.trans ?_⟩
      have hnext : m.running = nextRunning s.running ev := by
        cases ev with
        | start dt =>
          have hm : startParse dt s = .ok m := hm
          unfold startParse at hm
          split at hm
          · cases hm
          obtain ⟨_, -, hm⟩ := bind_eq_ok.1 hm
          obtain ⟨_, -, hm⟩ := bind_eq_ok.1 hm
          obtain ⟨_, -, hm⟩ := bind_eq_ok.1 hm
          exact (foldlM_splitRoot hm).1.2.2.2.1
        | rule dt r =>
          obtain ⟨-, cmdid, onl, hnoted, -⟩ := doRule_steady hs h.steady hev hm
          exact hnoted.running
        | finish dt e =>
          have hm : finishParse env true dt e s = .ok m := hm
          unfold finishParse at hm
          split at hm
          · cases hm
          obtain ⟨m₁, hm₁, hm⟩ := bind_eq_ok.1 hm
          obtain ⟨_, -, hm⟩ := bind_eq_ok.1 hm
          obtain ⟨-, hkept, -⟩ := parseGitignore_steady h.steady hev hm₁
          dsimp only at hm
          split at hm
          · cases hm
          · cases hm
            exact congrArg (List.erase · dt) hkept.running
      rw [hnext]
      rfl
    · cases ev with
      | start dt => exact startParse_refuses
      | rule dt r => exact doRule_refuses hs h.steady hev
      | finish dt e => exact finishParse_refuses

/-! ### The end of the pass -/

/-- No directory is converted. -/
theorem convertDirs_steady {fuel : ℕ} (hdirs : ∀ dt ∈ s.normalDirRoot, tupDbIsGeneratedDir s.db dt = false) :
    Refuses Reported (convertDirs env fuel s) ∧ ∀ s', convertDirs env fuel s = .ok s' →
      ∃ root, s' = { s with normalDirRoot := root } := by
  induction fuel generalizing s with
  | zero =>
    refine ⟨.ok s, fun s' h => ?_⟩
    cases h
    exact ⟨_, rfl⟩
  | succ fuel ih =>
    unfold convertDirs
    split
    · refine ⟨.ok s, fun s' h => ?_⟩
      cases h
      exact ⟨_, rfl⟩
    · next dt l hl =>
      have hdt : tupDbIsGeneratedDir ({ s with
          normalDirRoot := tentTreeRemove s.normalDirRoot dt } : PassState).db dt = false := by
        apply hdirs
        rw [TentTree.mem_def, hl]
        exact List.mem_cons_self
      have hrest := ih (s := { s with normalDirRoot := tentTreeRemove s.normalDirRoot dt })
        fun d hd => hdirs d (mem_tentTreeRemove.1 hd).2
      simp only [hdt, Bool.false_eq_true, if_false]
      refine ⟨(reported_need _).bind fun _ _ => hrest.1, fun s' h => ?_⟩
      obtain ⟨tent, -, h⟩ := bind_eq_ok.1 h
      obtain ⟨root, hroot⟩ := hrest.2 s' h
      exact ⟨root, hroot⟩

/-- When nothing is left over, the updater has nothing to do. -/
theorem processCreateNodes_steady {events : List ParseEvent} (h : PassInv db s) (hs : db.Sound)
    (hguard : ∀ ev ∈ events, ev.Guarded env db) (hdone : events.foldl nextRunning s.running = []) :
    Faithful db (processCreateNodes env true s events) := by
  obtain ⟨hpass, hrefuses⟩ := h.run hs hguard
  have key : Refuses Reported (processCreateNodes env true s events) ∧
      ∀ s', processCreateNodes env true s events = .ok s' → SameRows db s'.db := by
    have hend : ∀ m, events.foldlM (passEvent env true) s = .ok m → ∀ fuel m',
        convertDirs env fuel m = .ok m' → deleteFiles env m' = .ok m' ∧ m'.link = m.link ∧
          m'.changes = 0 := by
      intro m hm fuel m' hm'
      obtain ⟨hinv, hrunning⟩ := hpass m hm
      rw [hdone] at hrunning
      have hnil : ∀ t : TentTree, (∀ i, i ∉ t) → t.ids = [] :=
        fun t ht => List.eq_nil_iff_forall_not_mem.2 ht
      have hfiles : ∀ i, ¬ (i ∈ m.genDeleteRoot ∨ i ∈ m.saveRoot) := by
        intro i hi
        obtain ⟨t, -, -, -, dt, hdt, -⟩ := hinv.files i hi
        rw [hrunning] at hdt
        cases hdt
      have hcmds : ∀ i, i ∉ m.cmdDeleteRoot := by
        intro i hi
        obtain ⟨dt, hdt, -⟩ := hinv.cmds i hi
        rw [hrunning] at hdt
        cases hdt
      have hdirs : ∀ dt ∈ m.normalDirRoot, tupDbIsGeneratedDir m.db dt = false := by
        intro dt hdt
        have hdir := hinv.normalDir dt hdt
        unfold tupDbIsGeneratedDir at hdir ⊢
        rwa [hinv.steady.rows.node]
      obtain ⟨root, rfl⟩ := (convertDirs_steady hdirs).2 m' hm'
      refine ⟨?_, rfl, hinv.steady.changes⟩
      unfold deleteFiles
      rw [hnil m.genDeleteRoot fun i hi => hfiles i (.inl hi)]
      simp only [List.foldlM_nil, pure_bind]
      rw [hnil m.cmdDeleteRoot hcmds]
      simp only [List.foldlM_nil, pure_bind]
      rw [hnil m.saveRoot fun i hi => hfiles i (.inr hi)]
      rfl
    have hconvert : ∀ m, events.foldlM (passEvent env true) s = .ok m → ∀ fuel,
        Refuses Reported (convertDirs env fuel m) := by
      intro m hm fuel
      obtain ⟨hinv, -⟩ := hpass m hm
      apply (convertDirs_steady _).1
      intro dt hdt
      have hdir := hinv.normalDir dt hdt
      unfold tupDbIsGeneratedDir at hdir ⊢
      rwa [hinv.steady.rows.node]
    refine ⟨hrefuses.bind fun m hm => (hconvert m hm _).bind fun m' hm' => ?_, fun s' hrun => ?_⟩
    · obtain ⟨hdel, -, hchanges⟩ := hend m hm _ m' hm'
      rw [hdel]
      refine (Refuses.ok m').bind fun m'' hm'' => ?_
      cases hm''
      rw [if_neg (by simp [hchanges])]
      exact .ok m'
    · obtain ⟨m, hm, hrun⟩ := bind_eq_ok.1 hrun
      obtain ⟨m', hm', hrun⟩ := bind_eq_ok.1 hrun
      obtain ⟨m'', hm'', hrun⟩ := bind_eq_ok.1 hrun
      obtain ⟨hdel, hlink, -⟩ := hend m hm _ m' hm'
      rw [hdel] at hm''
      cases hm''
      split at hrun
      · cases hrun
      · cases hrun
        have hrows := (hpass m hm).1.steady.rows
        unfold PassState.db at hrows ⊢
        rwa [hlink]
  cases hres : processCreateNodes env true s events with
  | ok s' => exact key.2 s' hres
  | error l => exact key.1 l hres

end

/-- A project whose Tupfile has one rule, which has been parsed: the node of the Tupfile is read for
the directory, and the command makes a file. -/
def oneRule : Db where
  node := [
    { tupid := 1, dt := 0, type := .dir, name := ".".toList },
    { tupid := 2, dt := 1, type := .file, name := "Tupfile".toList },
    { tupid := 3, dt := 1, type := .cmd, name := "cc".toList, display := "CC".toList },
    { tupid := 4, dt := 1, type := .generated, srcid := 1, name := "o".toList }]
  normalLink := [⟨2, 1⟩, ⟨3, 4⟩]

/-- The events of a parse of that Tupfile when the rule shows this text. -/
def oneRuleEvents (display : Text) : List ParseEvent :=
  [.start 1,
    .rule 1 { curtent := 1, cmd := "cc".toList, display := display,
              outputs := [.file 1 "o".toList "o".toList] },
    .finish 1 { ign := false, inputRoot := tentTreeAddDup ∅ 2 }]

/-- The project has no exclusions. -/
def oneRuleEnv : PassEnv := { fuel := 5, exclusionDt := 100, inGraph := fun _ => true }

theorem oneRule_sound : oneRule.Sound where
  referential :=
    { dir := by decide
      links := by
        intro style
        cases style <;> decide
      srcid := by decide }
  tree :=
    { nodup := by decide
      names := by decide
      depth := ⟨fun i => if i = 0 then 0 else if i = 1 then 1 else 2, by decide⟩ }
  pos := by decide

theorem oneRule_guarded : ∀ ev ∈ oneRuleEvents "CC".toList, ev.Guarded oneRuleEnv oneRule := by
  have hstart : (ParseEvent.start 1).Guarded oneRuleEnv oneRule := ⟨by decide, fun _ _ _ => by decide⟩
  have hselect : tupDbSelectTent oneRule 1 "cc".toList = oneRule.node[2]? ∧
      tupDbSelectTent oneRule 1 "o".toList = oneRule.node[3]? := by decide
  have hrule : RuleSpec.Guarded oneRuleEnv 1 oneRule
      { curtent := 1, cmd := "cc".toList, display := "CC".toList,
        outputs := [.file 1 "o".toList "o".toList] } := by
    intro c hc _
    rw [hselect.1] at hc
    cases hc
    refine ⟨rfl, fun spec hspec t ht _ => ?_⟩
    obtain rfl := List.mem_singleton.1 hspec
    have hto : oneRule.node[3]? = some t := hselect.2 ▸ ht
    cases hto
    exact ⟨rfl, .inr rfl, rfl, by simp⟩
  have hfinish : (ParseEvent.finish 1 { ign := false, inputRoot := tentTreeAddDup ∅ 2 }).Guarded
      oneRuleEnv oneRule := by
    refine ⟨fun h => ?_, by decide⟩
    cases h
  intro ev hev
  simp only [oneRuleEvents, List.mem_cons, List.not_mem_nil, or_false] at hev
  rcases hev with rfl | rfl | rfl
  · exact hstart
  · exact hrule
  · exact hfinish

theorem oneRule_passes : (processCreateNodes oneRuleEnv true { link := { db := oneRule } }
    (oneRuleEvents "CC".toList)).isOk = true := by decide +kernel

end Metatup
