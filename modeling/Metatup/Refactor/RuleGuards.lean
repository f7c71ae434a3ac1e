import Metatup.Db.FileNode
import Metatup.Refactor.Guards

/-!
# What a rule that passes has left alone

The command of a rule that passes is recorded with its flags, its allowed reads, its outputs, its
group and its inputs; a rule for which one of these differs is refused with a report that names it.

* `doRule_steady`: a rule that passes has changed nothing.
* `doRule_refuses`: a rule that does not pass is reported.
-/

namespace Metatup

open Lib

/-- There is a report, and of something other than that the database has changed. -/
def Reported (refusals : List Refusal) : Prop := ∃ r ∈ refusals, r ≠ .databaseChanged

theorem reported_refuse {α : Type} {r : Refusal} (h : r ≠ .databaseChanged) :
    Refuses Reported (refuse r : Checked α) := .error ⟨r, List.mem_singleton_self r, h⟩

theorem reported_need {α : Type} (x : Option α) : Refuses Reported (need x) := by
  cases x with
  | none => exact reported_refuse (by simp)
  | some a => exact .ok a

/-! ### Comparing -/

/-- Callbacks that only report report the difference. -/
theorem compareTentTrees_report (f g : TupId → Refusal) (a b : TentTree) (l : List Refusal) :
    compareTentTrees a b (fun l i => some (l ++ [f i])) (fun l i => some (l ++ [g i])) l =
      some (l ++ (diff a.ids b.ids).map (Sum.elim f g)) := by
  rw [compareTentTrees_eq]
  generalize diff a.ids b.ids = d
  induction d generalizing l with
  | nil => simp
  | cons z d ih =>
    rw [List.foldlM_cons]
    have hz : onDiff (fun l i => some (l ++ [f i])) (fun l i => some (l ++ [g i])) l z =
        some (l ++ [Sum.elim f g z]) := by
      cases z <;> rfl
    rw [hz, Option.bind_eq_bind, Option.bind_some, ih]
    simp

theorem eq_of_diff_eq_nil {a b : TentTree} (h : diff a.ids b.ids = []) : a = b := by
  apply TentTree.ext_mem
  intro i
  have hmem := mem_diff a.sorted b.sorted
  rw [h] at hmem
  have hl := hmem (.inl i)
  have hr := hmem (.inr i)
  simp only [List.not_mem_nil, false_iff, Sum.elim_inl, Sum.elim_inr, not_and, not_not] at hl hr
  exact ⟨hl, hr⟩

theorem diff_self (a : TentTree) : diff a.ids a.ids = [] := by
  rw [List.eq_nil_iff_forall_not_mem]
  intro z hz
  rw [mem_diff a.sorted a.sorted] at hz
  cases z <;> exact hz.2 hz.1

/-- Two trees that are the same call nothing back. -/
theorem compareTentTrees_self {σ : Type} (a : TentTree) (f g : σ → TupId → Option σ) (s : σ) :
    compareTentTrees a a f g s = some s := by
  rw [compareTentTrees_eq, diff_self]
  rfl

section

variable {env : PassEnv} {db db' : Db} {s s' : PassState} {dt c cmdid : TupId} {r : RuleSpec}
  {out : RuleOutputs} {group old oldGroup : Option TupId} {modified modified' : Bool}

theorem groupRefusals_eq_nil : groupRefusals cmdid old group = [] ↔ old = group := by
  unfold groupRefusals
  by_cases h : old = group
  · simp [h]
  · cases old <;> cases group <;> simp_all

/-- What refactoring reports about the outputs. -/
def outputRefusals (cmdid : TupId) (old : CmdOutputs) (root exclusionRoot : TentTree)
    (group : Option TupId) : List Refusal :=
  groupRefusals cmdid old.group group ++
    (diff old.outputRoot.ids root.ids).map (Sum.elim .removeOutput .addOutput) ++
      (diff old.exclusionRoot.ids exclusionRoot.ids).map (Sum.elim .removeOutput .addOutput)

theorem outputRefusals_eq_nil {old : CmdOutputs} {root exclusionRoot : TentTree}
    (h : outputRefusals cmdid old root exclusionRoot group = []) :
    old.group = group ∧ old.outputRoot = root ∧ old.exclusionRoot = exclusionRoot := by
  unfold outputRefusals at h
  rw [List.append_eq_nil_iff, List.append_eq_nil_iff, List.map_eq_nil_iff, List.map_eq_nil_iff,
    groupRefusals_eq_nil] at h
  exact ⟨h.1.1, eq_of_diff_eq_nil h.1.2, eq_of_diff_eq_nil h.2⟩

theorem dryWriteOutputs_eq {exclusionDt : TupId} {cmdtent : TupEntry} {root exclusionRoot : TentTree} :
    dryWriteOutputs exclusionDt db cmdtent root exclusionRoot group modified =
      need (tupDbGetOutputs exclusionDt db cmdtent.tupid) >>= fun old =>
        need (changeGroup cmdtent.tupid old root group db) >>= fun db =>
          if modified || !(outputRefusals cmdtent.tupid old root exclusionRoot group).isEmpty then
            .error (outputRefusals cmdtent.tupid old root exclusionRoot group)
          else .ok (db, old.group) := by
  unfold dryWriteOutputs outputRefusals
  simp only [compareTentTrees_report]
  rfl

/-- Outputs that pass are the recorded ones, and nothing is written. -/
theorem dryWriteOutputs_ok {exclusionDt : TupId} {cmdtent : TupEntry} {root exclusionRoot : TentTree}
    (h : dryWriteOutputs exclusionDt db cmdtent root exclusionRoot group modified =
      .ok (db', oldGroup)) :
    db' = db ∧ oldGroup = group ∧ modified = false ∧
      tupDbGetOutputs exclusionDt db cmdtent.tupid = some ⟨root, exclusionRoot, group⟩ := by
  rw [dryWriteOutputs_eq] at h
  obtain ⟨old, hold, h⟩ := bind_eq_ok.1 h
  obtain ⟨db₁, hdb₁, h⟩ := bind_eq_ok.1 h
  split at h
  · cases h
  next hnone =>
  cases h
  rw [Bool.not_eq_true, Bool.or_eq_false_iff, Bool.not_eq_false', List.isEmpty_iff] at hnone
  obtain ⟨hgroup, hroot, hexclusion⟩ := outputRefusals_eq_nil hnone.2
  have hchange := need_eq_ok.1 hdb₁
  unfold changeGroup at hchange
  rw [if_pos hgroup] at hchange
  cases hchange
  refine ⟨rfl, hgroup, hnone.1, ?_⟩
  rw [need_eq_ok.1 hold, ← hgroup, ← hroot, ← hexclusion]

/-- Outputs that do not pass are reported, when a node that was changed for the rule is one that the
command has no link to. -/
theorem dryWriteOutputs_refuses {cmdtent : TupEntry}
    (h : modified = true → ∃ i, out.Has i ∧ ¬ NormalAdj db cmdtent.tupid i) :
    Refuses Reported (dryWriteOutputs env.exclusionDt db cmdtent out.outputRoot out.exclusionRoot
      out.group modified) := by
  rw [dryWriteOutputs_eq]
  refine (reported_need _).bind fun old hold => (reported_need _).bind fun db₁ _ => ?_
  apply Refuses.ite
  · intro hdiff
    apply Refuses.error
    have hne : outputRefusals cmdtent.tupid old out.outputRoot out.exclusionRoot out.group ≠ [] := by
      intro hnil
      rw [hnil, List.isEmpty_nil, Bool.not_true, Bool.or_false] at hdiff
      obtain ⟨i, hi, hnot⟩ := h hdiff
      obtain ⟨hgroup, hroot, hexclusion⟩ := outputRefusals_eq_nil hnil
      have hof := tupDbGetOutputs_spec (need_eq_ok.1 hold)
      rcases hi with hi | hi | hi
      · rw [← hroot] at hi
        exact hnot ((hof.output i).1 hi).1
      · rw [← hexclusion] at hi
        exact hnot ((hof.exclusion i).1 hi).1
      · rw [← hgroup] at hi
        exact hnot ((hof.group i).1 hi).1
    obtain ⟨x, l, hl⟩ := List.exists_cons_of_ne_nil hne
    have hx : x ∈ outputRefusals cmdtent.tupid old out.outputRoot out.exclusionRoot out.group := by
      rw [hl]
      exact List.mem_cons_self
    refine ⟨x, hx, ?_⟩
    unfold outputRefusals groupRefusals at hx
    simp only [List.mem_append, List.mem_map] at hx
    rintro rfl
    rcases hx with (hx | ⟨z, -, hz⟩) | ⟨z, -, hz⟩
    · split at hx
      · cases hx
      · cases hg : out.group <;> cases ho : old.group <;> simp_all
    · cases z <;> cases hz
    · cases z <;> cases hz
  · exact fun _ => .ok _

theorem dryWriteInputs_eq {inputRoot : TentTree} :
    dryWriteInputs db cmdid inputRoot group oldGroup =
      need (getStickyInputs db cmdid) >>= fun stickyRoot =>
        need (changeGroupLinks cmdid inputRoot group oldGroup db) >>= fun db =>
          if ((diff inputRoot.ids stickyRoot.ids).map
            (Sum.elim Refusal.addInput .removeInput)).isEmpty then .ok db
          else .error ((diff inputRoot.ids stickyRoot.ids).map
            (Sum.elim Refusal.addInput .removeInput)) := by
  unfold dryWriteInputs
  simp only [compareTentTrees_report]
  rfl

/-- Inputs that pass are the recorded ones, and nothing is written. -/
theorem dryWriteInputs_ok {inputRoot : TentTree}
    (h : dryWriteInputs db cmdid inputRoot group group = .ok db') :
    db' = db ∧ getStickyInputs db cmdid = some inputRoot := by
  rw [dryWriteInputs_eq] at h
  obtain ⟨sticky, hsticky, h⟩ := bind_eq_ok.1 h
  obtain ⟨db₁, hdb₁, h⟩ := bind_eq_ok.1 h
  split at h
  · next hnil =>
    cases h
    rw [List.isEmpty_iff, List.map_eq_nil_iff] at hnil
    have hchange := need_eq_ok.1 hdb₁
    unfold changeGroupLinks at hchange
    rw [if_pos rfl] at hchange
    cases hchange
    refine ⟨rfl, ?_⟩
    rw [need_eq_ok.1 hsticky, eq_of_diff_eq_nil hnil]
  · cases h

theorem dryWriteInputs_refuses {inputRoot : TentTree} :
    Refuses Reported (dryWriteInputs db cmdid inputRoot group oldGroup) := by
  rw [dryWriteInputs_eq]
  refine (reported_need _).bind fun sticky _ => (reported_need _).bind fun db₁ _ => ?_
  apply Refuses.ite
  · exact fun _ => .ok _
  · intro hne
    rw [List.isEmpty_iff, ← ne_eq] at hne
    obtain ⟨x, l, hl⟩ := List.exists_cons_of_ne_nil hne
    have hx : x ∈ (diff inputRoot.ids sticky.ids).map
        (Sum.elim Refusal.addInput .removeInput) := by
      rw [hl]
      exact List.mem_cons_self
    refine Refuses.error ⟨x, hx, ?_⟩
    rintro rfl
    obtain ⟨z, -, hz⟩ := List.mem_map.1 hx
    cases z <;> cases hz

/-! ### The command -/

/-- The command that a rule finds is in the database with its string and its flags. -/
theorem ruleCommand_dry {onl : List TupId}
    (h : ruleCommand env true r onl s modified = .ok (s', cmdid, modified')) :
    ∃ cmdtent, tupDbSelectTent s.db r.curtent r.cmd = some cmdtent ∧ cmdtent.type = .cmd ∧
      cmdid = cmdtent.tupid ∧ modified' = modified ∧ s' = compareDisplay r cmdtent s := by
  unfold ruleCommand at h
  split at h
  · next cmdtent hsel =>
    split at h
    · cases h
    next htype =>
    obtain ⟨⟨s₁, modified₁⟩, hflags, h⟩ := bind_eq_ok.1 h
    unfold compareFlags at hflags
    split at hflags
    · cases hflags
    · cases hflags
      cases h
      exact ⟨cmdtent, hsel, not_not.1 htype, rfl, rfl, rfl⟩
  · unfold newCommand at h
    obtain ⟨⟨link, owner⟩, -, h⟩ := bind_eq_ok.1 h
    cases owner with
    | none => cases h
    | some c =>
      obtain ⟨cmdtent, -, h⟩ := bind_eq_ok.1 h
      cases h

theorem ruleCommand_refuses {onl : List TupId} :
    Refuses Reported (ruleCommand env true r onl s modified) := by
  unfold ruleCommand
  split
  · apply Refuses.ite
    · exact fun _ => reported_refuse (by simp)
    · refine fun _ => Refuses.bind ?_ fun _ _ => .ok _
      exact .ite (fun _ => reported_refuse (by simp)) fun _ => .ok _
  · refine (reported_need _).bind fun p _ => ?_
    obtain ⟨link, owner⟩ := p
    cases owner with
    | none => exact reported_refuse (by simp)
    | some c => exact (reported_need _).bind fun _ _ => reported_refuse (by simp)

theorem compareAllowReads_dry (h : compareAllowReads true r cmdid s modified = .ok (s', modified')) :
    s' = s ∧ modified' = modified := by
  unfold compareAllowReads at h
  split at h
  · cases h
  · cases h
    exact ⟨rfl, rfl⟩

theorem compareAllowReads_refuses : Refuses Reported (compareAllowReads true r cmdid s modified) :=
  .ite (fun _ => reported_refuse (by simp)) fun _ => .ok _

theorem compareDisplay_lessens (r : RuleSpec) (t : TupEntry) (s : PassState) :
    Lessens s.db (compareDisplay r t s).db ∧ SameNotes s (compareDisplay r t s) := by
  unfold compareDisplay
  split
  · exact ⟨.updateNode (fun _ => ⟨rfl, rfl, rfl⟩) fun _ hc => hc, sameNotes_write _ _⟩
  · exact ⟨.refl _, .refl _⟩

/-! ### Taking outputs and collecting inputs -/

theorem Lessens.of_edit {R : Row → Prop} (h : Edit R Row.never db db') : Lessens db db' where
  links style l hl := by
    cases style with
    | normal => exact ((h.mem (.normal l.fromId l.toId)).1 hl).elim (·.1) False.elim
    | sticky => exact ((h.mem (.sticky l.fromId l.toId)).1 hl).elim (·.1) False.elim
  cmds t ht hc := ⟨t, h.node ▸ ht, hc, rfl, rfl, rfl⟩

theorem lessens_createUniqueLink {l l' : LinkState} {o : TupId}
    (h : tupDbCreateUniqueLink c l o = some l') : Lessens l.db l'.db := by
  obtain ⟨⟨m, owner⟩, hget, h⟩ := Option.bind_eq_some_iff.1 h
  obtain ⟨hdb, -⟩ := tupDbGetIncomingLink_spec hget
  cases owner with
  | none =>
    obtain ⟨db₁, hrm, h⟩ := Option.bind_eq_some_iff.1 h
    cases h
    rw [← hdb]
    exact .of_edit (removeFromGroupOf_edit hrm)
  | some c' =>
    dsimp only at h
    split at h
    · cases h
      rw [hdb]
      exact .refl _
    · obtain ⟨db₁, hrm, h⟩ := Option.bind_eq_some_iff.1 h
      cases h
      rw [← hdb]
      exact (Lessens.of_edit (removeFromGroupOf_edit hrm)).trans
        (.of_edit (linkRemove_edit _ _ _ .normal))

/-- The trees of the files that are to be deleted or saved lose the outputs; the rest stays. -/
structure OutputsKept (onl : List TupId) (s s' : PassState) : Prop where
  parsing : s'.parsing = s.parsing
  running : s'.running = s.running
  cmdRoot : s'.cmdRoot = s.cmdRoot
  refactoring : s'.refactoringCmdDeleteRoot = s.refactoringCmdDeleteRoot
  cmdDelete : s'.cmdDeleteRoot = s.cmdDeleteRoot
  normalDir : s'.normalDirRoot = s.normalDirRoot
  genDelete : ∀ i, i ∈ s'.genDeleteRoot ↔ i ∈ s.genDeleteRoot ∧ i ∉ onl
  save : ∀ i, i ∈ s'.saveRoot ↔ i ∈ s.saveRoot ∧ i ∉ onl

theorem takeOutputs_spec {onl : List TupId} (h : onl.foldlM (takeOutput c) s = .ok s') :
    Lessens s.db s'.db ∧ OutputsKept onl s s' ∧
      ∀ db, Steady db s → (∀ o ∈ onl, NormalAdj db c o) → Steady db s' := by
  induction onl generalizing s with
  | nil =>
    cases h
    refine ⟨.refl _, ⟨rfl, rfl, rfl, rfl, rfl, rfl, ?_, ?_⟩, fun _ hs _ => hs⟩ <;> simp
  | cons o onl ih =>
    rw [List.foldlM_cons] at h
    obtain ⟨m, hm, h⟩ := bind_eq_ok.1 h
    obtain ⟨link, hlink, hm⟩ := bind_eq_ok.1 hm
    have hlink := need_eq_ok.1 hlink
    cases hm
    obtain ⟨hless, hkept, hsteady⟩ := ih h
    refine ⟨(lessens_createUniqueLink hlink).trans hless, ⟨hkept.parsing, hkept.running,
      hkept.cmdRoot, hkept.refactoring, hkept.cmdDelete, hkept.normalDir, ?_, ?_⟩, ?_⟩
    · intro i
      rw [hkept.genDelete, mem_tentTreeRemove, List.mem_cons]
      tauto
    · intro i
      rw [hkept.save, mem_tentTreeRemove, List.mem_cons]
      tauto
    · intro db hs hadj
      refine hsteady db ?_ fun x hx => hadj x (List.mem_cons_of_mem o hx)
      obtain ⟨⟨l, owner⟩, hget, hlink⟩ := Option.bind_eq_some_iff.1 hlink
      obtain ⟨hdb, hs', howner⟩ := hs.lookup hget
      have hown := (howner c).1 (hadj o List.mem_cons_self)
      dsimp only at hlink hown
      rw [hown] at hlink
      dsimp only at hlink
      rw [if_pos rfl] at hlink
      cases hlink
      refine ⟨hs'.rows, hs'.variants, ?_, hs'.incoming⟩
      have hc := hs.changes
      simpa [PassState.write, PassState.db, hdb] using hc

theorem addInput_spec {force : Bool} {p q : LinkState × TentTree} {i : TupId}
    (h : addInput force p i = .ok q) : q.1.db = p.1.db ∧
      ∀ db (s : PassState), Steady db { s with link := p.1 } → Steady db { s with link := q.1 } := by
  obtain ⟨link, root⟩ := p
  obtain ⟨tent, -, h⟩ := bind_eq_ok.1 h
  cases htype : tent.type with
  | generated =>
    rw [htype] at h
    obtain ⟨⟨link', cmd⟩, hget, h⟩ := bind_eq_ok.1 h
    obtain ⟨cmd, -, h⟩ := bind_eq_ok.1 h
    obtain ⟨extra, -, h⟩ := bind_eq_ok.1 h
    cases h
    have hget := need_eq_ok.1 hget
    refine ⟨(tupDbGetIncomingLink_spec hget).1, fun db s hs => ?_⟩
    obtain ⟨-, hs', -⟩ := hs.lookup hget
    exact hs'
  | file | var | group | ghost | cmd | dir | root | generatedDir =>
    rw [htype] at h
    cases h
    exact ⟨rfl, fun _ _ => id⟩

theorem ruleInputs_spec {link : LinkState} {q : LinkState × TentTree}
    (h : ruleInputs r link = .ok q) : q.1.db = link.db ∧
      ∀ db (s : PassState), Steady db { s with link := link } → Steady db { s with link := q.1 } := by
  have key : ∀ (force : Bool) (l : List TupId) (p q : LinkState × TentTree),
      l.foldlM (addInput force) p = .ok q → q.1.db = p.1.db ∧
        ∀ db (s : PassState), Steady db { s with link := p.1 } → Steady db { s with link := q.1 } := by
    intro force l
    induction l with
    | nil =>
      intro p q h
      cases h
      exact ⟨rfl, fun _ _ => id⟩
    | cons i l ih =>
      intro p q h
      rw [List.foldlM_cons] at h
      obtain ⟨m, hm, h⟩ := bind_eq_ok.1 h
      obtain ⟨hdb, hst⟩ := addInput_spec hm
      obtain ⟨hdb', hst'⟩ := ih m q h
      exact ⟨hdb'.trans hdb, fun db s hs => hst' db s (hst db s hs)⟩
  obtain ⟨p₁, h₁, h⟩ := bind_eq_ok.1 h
  obtain ⟨p₂, h₂, h⟩ := bind_eq_ok.1 h
  obtain ⟨hdb₁, hst₁⟩ := key _ _ _ _ h₁
  obtain ⟨hdb₂, hst₂⟩ := key _ _ _ _ h₂
  obtain ⟨hdb₃, hst₃⟩ := key _ _ _ _ h
  exact ⟨hdb₃.trans (hdb₂.trans hdb₁), fun db s hs => hst₃ db s (hst₂ db s (hst₁ db s hs))⟩

theorem addInput_refuses (force : Bool) (p : LinkState × TentTree) (i : TupId) :
    Refuses Reported (addInput force p i) := by
  obtain ⟨link, root⟩ := p
  refine (reported_need _).bind fun tent _ => ?_
  cases tent.type with
  | generated =>
    exact (reported_need _).bind fun _ _ => (reported_need _).bind fun _ _ =>
      (reported_need _).bind fun _ _ => .ok _
  | file | var | group | ghost | cmd | dir | root | generatedDir => exact .ok _

theorem ruleInputs_refuses (link : LinkState) : Refuses Reported (ruleInputs r link) :=
  (Refuses.foldlM (addInput_refuses true) _ _).bind fun _ _ =>
    (Refuses.foldlM (addInput_refuses false) _ _).bind fun _ _ =>
      Refuses.foldlM (addInput_refuses false) _ _

/-! ### The whole rule -/

/-- When the command of the rule is there, its display string is the one of the rule, and what it
makes is as the rule wants it. -/
def RuleSpec.Guarded (env : PassEnv) (dt : TupId) (db : Db) (r : RuleSpec) : Prop :=
  ∀ c, tupDbSelectTent db r.curtent r.cmd = some c → c.type = .cmd →
    c.display = r.display ∧ ∀ spec ∈ r.outputs ++ r.extraOutputs, ∀ t,
      tupDbSelectTent db (spec.row env dt r.flags).dt (spec.row env dt r.flags).name = some t →
        NormalAdj db c.tupid t.tupid → Settles db (spec.row env dt r.flags) t

/-- The steps of a rule up to the writing of the outputs. -/
structure RuleSteps (env : PassEnv) (dt : TupId) (r : RuleSpec) (s : PassState) (out : RuleOutputs)
    (cmdid : TupId) (modified : Bool) (kept taken : PassState) (link : LinkState)
    (inputRoot : TentTree) : Prop where
  outputs : ∃ onl, doRuleOutputs env dt r s = .ok (out, onl) ∧ ∃ s₁ modified₁ s₂,
    ruleCommand env true r onl out.state out.commandModified = .ok (s₁, cmdid, modified₁) ∧
      compareAllowReads true r cmdid s₁ modified₁ = .ok (s₂, modified) ∧
        keepCommand dt cmdid s₂ = .ok kept
  take : out.onl.foldlM (takeOutput cmdid) kept = .ok taken
  inputs : ruleInputs r taken.link = .ok (link, inputRoot)

/-- What is noted when a rule has passed. -/
structure RuleNoted (dt cmdid : TupId) (onl : List TupId) (s s' : PassState) : Prop where
  parsing : s'.parsing = s.parsing
  running : s'.running = s.running
  normalDir : s'.normalDirRoot = s.normalDirRoot
  cmdDelete : s'.cmdDeleteRoot = tentTreeRemove s.cmdDeleteRoot cmdid
  refactoring : s'.refactoringCmdDeleteRoot = Function.update s.refactoringCmdDeleteRoot dt
    (tentTreeRemove (s.refactoringCmdDeleteRoot dt) cmdid)
  genDelete : ∀ i, i ∈ s'.genDeleteRoot ↔ i ∈ s.genDeleteRoot ∧ i ∉ onl
  save : ∀ i, i ∈ s'.saveRoot ↔ i ∈ s.saveRoot ∧ i ∉ onl

variable {kept taken : PassState} {link : LinkState} {inputRoot : TentTree}

/-- Before the outputs are written, nothing has changed, or the command has no link to an output. -/
theorem RuleSteps.spec (h : RuleSteps env dt r s out cmdid modified kept taken link inputRoot)
    (hs : db.Sound) (hst : Steady db s) (hguard : r.Guarded env dt db) :
    RuleNoted dt cmdid out.onl s { taken with link := link } ∧
      ((∃ i, out.Has i ∧ ¬ NormalAdj link.db cmdid i) ∨
        SteadyOutputs db out ∧ modified = false ∧ Lessens db link.db ∧
          ((∀ o ∈ out.onl, NormalAdj db cmdid o) → Steady db { taken with link := link })) := by
  obtain ⟨⟨onl, hout, s₁, modified₁, s₂, hcmd, hallow, hkeep⟩, htake, hinputs⟩ := h
  obtain ⟨cmdtent, hsel, htype, rfl, rfl, rfl⟩ := ruleCommand_dry hcmd
  obtain ⟨rfl, rfl⟩ := compareAllowReads_dry hallow
  obtain ⟨root, hroot, hkeep⟩ := bind_eq_ok.1 hkeep
  obtain ⟨hlink, hlinkSteady⟩ := ruleInputs_spec hinputs
  obtain ⟨htakeLess, htaken, htakeSteady⟩ := takeOutputs_spec htake
  obtain ⟨hdisplayLess, hdisplayNotes⟩ := compareDisplay_lessens r cmdtent out.state
  -- the command was one of that name before
  have hfurther : Further { state := s } out := doRuleOutputs_further hout
  obtain ⟨hmem, hdt, hname⟩ := mem_of_tupDbSelectTent hsel
  obtain ⟨t, htmem, htcmd, htid, htdt, htname⟩ := hfurther.lessens.cmds cmdtent hmem htype
  have htmem : t ∈ db.node := by
    have hnode := hst.rows.node
    exact hnode ▸ htmem
  have htsel : tupDbSelectTent db r.curtent r.cmd = some t :=
    (select_eq_some_iff hs.tree).2 ⟨htmem, Prod.ext (htdt.trans hdt) (htname.trans hname)⟩
  obtain ⟨hdisplay, hrows⟩ := hguard t htsel htcmd
  rw [htid] at hrows
  have hcases := doRuleOutputs_steady hs hst hrows hout
  have hkeptDb : kept.db = (compareDisplay r cmdtent out.state).db := by
    cases hkeep
    rfl
  have hlinkLess : Lessens out.state.db link.db := by
    rw [hlink]
    exact hdisplayLess.trans (hkeptDb ▸ htakeLess)
  refine ⟨?_, ?_⟩
  · have hnotes := hfurther.notes.trans hdisplayNotes
    cases hkeep
    refine ⟨htaken.parsing.trans hnotes.parsing, htaken.running.trans hnotes.running,
      htaken.normalDir.trans hnotes.normalDir, ?_, ?_, ?_, ?_⟩
    · rw [htaken.cmdDelete]
      dsimp only
      rw [hnotes.cmdDelete]
    · rw [htaken.refactoring]
      dsimp only
      rw [hnotes.refactoring]
    · intro i
      rw [htaken.genDelete]
      dsimp only
      rw [hnotes.genDelete]
    · intro i
      rw [htaken.save]
      dsimp only
      rw [hnotes.save]
  · rcases hcases with hsteady | ⟨i, hi, hnot⟩
    · have hrow : cmdtent = t := by
        rw [hsteady.state.rows.select, htsel] at hsel
        exact (Option.some.inj hsel).symm
      have hsame : compareDisplay r cmdtent out.state = out.state := by
        unfold compareDisplay
        rw [if_neg]
        rw [hrow, hdisplay]
        exact not_not.2 rfl
      rw [hsame] at hkeep
      have hkeptSteady : Steady db kept := by
        cases hkeep
        exact ⟨hsteady.state.rows, hsteady.state.variants, hsteady.state.changes,
          hsteady.state.incoming⟩
      have hdbLess : Lessens db link.db := by
        refine Lessens.trans (.of_keepsRows ?_) hlinkLess
        have hrows := hsteady.state.rows
        exact .of_eq hrows.node hrows.normalLink hrows.stickyLink
      exact .inr ⟨hsteady, hsteady.notModified, hdbLess,
        fun hadj => hlinkSteady db taken (htakeSteady db hkeptSteady hadj)⟩
    · exact .inl ⟨i, hi, fun hadj => hnot (hlinkLess.normalAdj hadj)⟩

/-- The steps of a rule that passes. -/
theorem doRule_ok (h : doRule env true dt r s = .ok s') :
    ∃ out cmdid modified kept taken link inputRoot s₁ oldGroup,
      RuleSteps env dt r s out cmdid modified kept taken link inputRoot ∧
        writeOutputs env true { taken with link := link } cmdid out modified = .ok (s₁, oldGroup) ∧
          writeInputs true s₁ cmdid inputRoot r.envRoot out.group oldGroup = .ok s' := by
  unfold doRule at h
  split at h
  · cases h
  obtain ⟨⟨out, onl⟩, hout, h⟩ := bind_eq_ok.1 h
  obtain ⟨⟨s₁, cmdid, modified₁⟩, hcmd, h⟩ := bind_eq_ok.1 h
  obtain ⟨⟨s₂, modified⟩, hallow, h⟩ := bind_eq_ok.1 h
  obtain ⟨kept, hkeep, h⟩ := bind_eq_ok.1 h
  obtain ⟨taken, htake, h⟩ := bind_eq_ok.1 h
  obtain ⟨⟨link, inputRoot⟩, hinputs, h⟩ := bind_eq_ok.1 h
  dsimp only at h
  split at h
  · cases h
  obtain ⟨⟨s₃, oldGroup⟩, hwrite, h⟩ := bind_eq_ok.1 h
  exact ⟨out, cmdid, modified, kept, taken, link, inputRoot, s₃, oldGroup,
    ⟨⟨onl, hout, s₁, modified₁, s₂, hcmd, hallow, hkeep⟩, htake, hinputs⟩, hwrite, h⟩

/-- A rule that passes has changed nothing. Its command is noted as kept, and so is every generated
file that the command makes. -/
theorem doRule_steady (hs : db.Sound) (hst : Steady db s) (hguard : r.Guarded env dt db)
    (h : doRule env true dt r s = .ok s') : Steady db s' ∧ ∃ cmdid onl,
      RuleNoted dt cmdid onl s s' ∧
        ∀ t ∈ db.node, t.type = .generated → NormalAdj db cmdid t.tupid → t.tupid ∈ onl := by
  obtain ⟨out, cmdid, modified, kept, taken, link, inputRoot, s₁, oldGroup, hrun, hwrite, hin⟩ :=
    doRule_ok h
  obtain ⟨hnoted, hcases⟩ := hrun.spec hs hst hguard
  obtain ⟨cmdtent, hcmdtent, hwrite⟩ := bind_eq_ok.1 hwrite
  obtain ⟨-, hid⟩ := mem_node_of_tupEntryAdd (need_eq_ok.1 hcmdtent)
  obtain ⟨⟨db₁, oldGroup'⟩, hdry, hwrite⟩ := bind_eq_ok.1 hwrite
  obtain ⟨hdb₁, hgroup, -, hget⟩ := dryWriteOutputs_ok hdry
  cases hwrite
  subst hgroup
  obtain ⟨db₂, hdryIn, hin'⟩ := bind_eq_ok.1 hin
  obtain ⟨hdb₂, -⟩ := dryWriteInputs_ok hdryIn
  have hof := tupDbGetOutputs_spec hget
  rw [hid] at hof
  rcases hcases with ⟨i, hi, hnot⟩ | ⟨hsteady, -, hless, htaken⟩
  · exfalso
    rcases hi with hi | hi | hi
    · exact hnot ((hof.output i).1 hi).1
    · exact hnot ((hof.exclusion i).1 hi).1
    · exact hnot ((hof.group i).1 hi).1
  · have hst' := htaken fun o ho => hless.normalAdj ((hof.output o).1 ((hsteady.onl o).2 ho)).1
    have heq : s' = { taken with link := link } := by
      cases hin'
      rw [hdb₂, hdb₁, PassState.write_self, PassState.write_self]
    rw [heq]
    refine ⟨hst', cmdid, out.onl, hnoted, fun t ht htype hadj => ?_⟩
    rw [← hsteady.onl]
    have hrows := hst'.rows
    have hadj' := (hrows.normalAdj cmdid t.tupid).2 hadj
    have hgrp : Db.isGroup link.db t.tupid = false := by
      have hcongr : link.db.isGroup t.tupid = db.isGroup t.tupid := hrows.isGroup t.tupid
      rw [hcongr, ← Bool.not_eq_true, isGroup_of_tupEntryAdd (hs.tree.tupEntryAdd_of_mem ht), htype]
      simp
    cases hexc : link.db.isExclusion env.exclusionDt t.tupid with
    | false => exact (hof.output _).2 ⟨hadj', hgrp, hexc⟩
    | true =>
      obtain ⟨t', ht', hid', htype'⟩ := hsteady.exclusion _ ((hof.exclusion _).2 ⟨hadj', hgrp, hexc⟩)
      rw [hs.tree.eq_of_tupid ht' ht hid', htype] at htype'
      cases htype'

/-- A rule that does not pass is reported. -/
theorem doRule_refuses (hs : db.Sound) (hst : Steady db s) (hguard : r.Guarded env dt db) :
    Refuses Reported (doRule env true dt r s) := by
  refine .ite (fun _ => reported_refuse (by simp)) fun _ => Refuses.bind ?_ fun p hout => ?_
  · have key : ∀ out spec, Refuses Reported (doRuleOutput env dt r.flags out spec) := by
      intro out spec
      have hreq : ∀ s row, Refuses Reported (requestNode env s row) :=
        fun s row => (reported_need _).bind fun _ _ => .ok _
      cases spec with
      | group gdt name =>
        exact .ite (fun _ => reported_refuse (by simp)) fun _ => (hreq _ _).bind fun _ _ => .ok _
      | exclusion name =>
        exact (hreq _ _).bind fun _ _ => (reported_need _).bind fun _ _ => .ok _
      | file fdt base path =>
        refine .ite (fun _ => reported_refuse (by simp)) fun _ => Refuses.bind ?_ fun _ _ =>
          (hreq _ _).bind fun _ _ => (reported_need _).bind fun _ _ => .ok _
        unfold validateOutput
        split
        · exact .ok _
        · refine .ite (fun _ => (reported_need _).bind fun _ _ => ?_)
            fun _ => reported_refuse (by simp)
          exact .ite (fun _ => .ok _) fun _ => reported_refuse (by simp)
    exact (Refuses.foldlM key _ _).bind fun _ _ => (Refuses.foldlM key _ _).bind fun _ _ => .ok _
  obtain ⟨out, onl⟩ := p
  refine ruleCommand_refuses.bind fun p hcmd => ?_
  obtain ⟨s₁, cmdid, modified₁⟩ := p
  refine compareAllowReads_refuses.bind fun p hallow => ?_
  obtain ⟨s₂, modified⟩ := p
  refine Refuses.bind ((reported_need _).bind fun _ _ => .ok _) fun kept hkeep => ?_
  refine Refuses.bind ?_ fun taken htake => ?_
  · exact Refuses.foldlM (fun _ _ => (reported_need _).bind fun _ _ => .ok _) _ _
  refine (ruleInputs_refuses _).bind fun p hinputs => ?_
  obtain ⟨link, inputRoot⟩ := p
  refine .ite (fun _ => reported_refuse (by simp)) fun _ => Refuses.bind ?_ fun p _ => ?_
  · refine (reported_need _).bind fun cmdtent hcmdtent => ?_
    obtain ⟨-, hid⟩ := mem_node_of_tupEntryAdd (need_eq_ok.1 hcmdtent)
    refine Refuses.bind ?_ fun _ _ => .ok _
    apply dryWriteOutputs_refuses
    intro hmod
    rw [hid]
    have hrun : RuleSteps env dt r s out cmdid modified kept taken link inputRoot :=
      ⟨⟨onl, hout, s₁, modified₁, s₂, hcmd, hallow, hkeep⟩, htake, hinputs⟩
    rcases (hrun.spec hs hst hguard).2 with hdoomed | ⟨-, hfalse, -⟩
    · exact hdoomed
    · rw [hmod] at hfalse
      cases hfalse
  · exact dryWriteInputs_refuses.bind fun _ _ => .ok _

end

end Metatup
