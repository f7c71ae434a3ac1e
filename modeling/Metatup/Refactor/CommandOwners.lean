import Metatup.Lib.Merge
import Metatup.Refactor.DryRun

/-!
# Commands that no rule makes any more

The parse of a directory begins by putting the commands of that directory into the tree of those to
be deleted, and each rule takes its command out again. The rule makes its command in the directory
that the called function or the included file has set, which need not be the one that is parsed.

* `ParseRun`: passes one after another, with the Tupfile that has made each command.
* `Collects`: the tree has the commands that the parsed files no longer make, and no other.
* `collects_of_parseRun`: so it is in every run whose rules make their commands in the directory
  that is parsed.
-/

namespace Metatup

open Lib

/-! ### Commands stay where they are -/

/-- Every command was a command in the same directory before. -/
def KeepsCmds (db db' : Db) : Prop :=
  ∀ t' ∈ db'.node, t'.type = .cmd → ∃ t ∈ db.node, t.type = .cmd ∧ t.tupid = t'.tupid ∧ t.dt = t'.dt

section

variable {env : PassEnv} {db db₁ db' : Db} {s s' : PassState} {dt c cmdid : TupId} {r : RuleSpec}
  {out : RuleOutputs} {group oldGroup : Option TupId} {modified modified' refactoring : Bool}
  {e : ParseEnd}

namespace KeepsCmds

theorem of_lessens (h : Lessens db db') : KeepsCmds db db' := by
  intro t' ht' hc
  obtain ⟨t, ht, htc, hid, hdt, -⟩ := h.cmds t' ht' hc
  exact ⟨t, ht, htc, hid, hdt⟩

theorem of_node (h : db'.node = db.node) : KeepsCmds db db' :=
  fun t ht hc => ⟨t, h ▸ ht, hc, rfl, rfl⟩

theorem refl (db : Db) : KeepsCmds db db := of_node rfl

theorem trans (h : KeepsCmds db db₁) (h₁ : KeepsCmds db₁ db') : KeepsCmds db db' := by
  intro t₂ ht₂ hc₂
  obtain ⟨t₁, ht₁, hc₁, hid₁, hdt₁⟩ := h₁ t₂ ht₂ hc₂
  obtain ⟨t, ht, hc, hid, hdt⟩ := h t₁ ht₁ hc₁
  exact ⟨t, ht, hc, hid.trans hid₁, hdt.trans hdt₁⟩

end KeepsCmds

/-- The command is now in the directory `dt`: it was found there, or it is the only one that is not
where it was before. -/
def TakesCmd (c dt : TupId) (db db' : Db) : Prop :=
  KeepsCmds db db' ∧ (∃ t ∈ db.node, t.type = .cmd ∧ t.tupid = c ∧ t.dt = dt) ∨
    ∀ t' ∈ db'.node, t'.type = .cmd → t'.tupid = c ∧ t'.dt = dt ∨
      t'.tupid ≠ c ∧ ∃ t ∈ db.node, t.type = .cmd ∧ t.tupid = t'.tupid ∧ t.dt = t'.dt

namespace TakesCmd

theorem before (h : KeepsCmds db db₁) (h₁ : TakesCmd c dt db₁ db') : TakesCmd c dt db db' := by
  rcases h₁ with ⟨hk, t, ht, hc, rfl, rfl⟩ | h₁
  · obtain ⟨t₀, ht₀, hc₀, hid, hdt⟩ := h t ht hc
    exact .inl ⟨h.trans hk, t₀, ht₀, hc₀, hid, hdt⟩
  · refine .inr fun t' ht' hc' => (h₁ t' ht' hc').imp_right ?_
    rintro ⟨hne, t, ht, hc, hid, hdt⟩
    obtain ⟨t₀, ht₀, hc₀, hid₀, hdt₀⟩ := h t ht hc
    exact ⟨hne, t₀, ht₀, hc₀, hid₀.trans hid, hdt₀.trans hdt⟩

theorem after (h : TakesCmd c dt db db₁) (h₁ : KeepsCmds db₁ db') : TakesCmd c dt db db' := by
  rcases h with ⟨hk, hfound⟩ | h
  · exact .inl ⟨hk.trans h₁, hfound⟩
  · refine .inr fun t' ht' hc' => ?_
    obtain ⟨t, ht, hc, hid, hdt⟩ := h₁ t' ht' hc'
    rw [← hid, ← hdt]
    exact h t ht hc

end TakesCmd

/-! ### The evaluation of a rule -/

theorem compareFlags_lessens {t : TupEntry}
    (h : compareFlags refactoring r t s modified = .ok (s', modified')) :
    Lessens s.db s'.db ∧ SameNotes s s' := by
  unfold compareFlags at h
  split at h
  · split at h
    · cases h
    · cases h
      exact ⟨.setFlags _, sameNotes_write _ _⟩
  · cases h
    exact ⟨.refl _, .refl _⟩

theorem findExistingCommand_db {link link' : LinkState} {onl : List TupId} {owner : Option TupId}
    (h : findExistingCommand link onl = some (link', owner)) : link'.db = link.db := by
  induction onl generalizing link with
  | nil =>
    cases h
    rfl
  | cons o onl ih =>
    unfold findExistingCommand at h
    split at h
    · cases h
    · next hget =>
      cases h
      exact (tupDbGetIncomingLink_spec hget).1
    · next hget => exact (ih h).trans (tupDbGetIncomingLink_spec hget).1

/-- A node of a name that is not there yet. -/
theorem node_create_of_none {row : TupEntry} {fuel : ℕ} {i : TupId} {b : Bool}
    (hnone : tupDbSelectTent db row.dt row.name = none)
    (h : tupDbCreateNodePartDisplay fuel db row = some (db', i, b)) :
    db'.node = db.node ++ [{ row with tupid := i }] ∧ ∀ t ∈ db.node, t.tupid < i := by
  cases fuel with
  | zero => cases h
  | succ fuel =>
    rw [tupDbCreateNodePartDisplay, hnone] at h
    obtain ⟨⟨m, t⟩, hins, h⟩ := Option.bind_eq_some_iff.1 h
    cases h
    obtain ⟨rfl, hnode, -⟩ := node_nodeInsert hins
    exact ⟨hnode, fun t ht => lt_newNodeId db ht⟩

/-- A new node for the command. -/
theorem requestNode_takes {row : TupEntry} {b : Bool}
    (hnone : tupDbSelectTent s.db row.dt row.name = none)
    (h : requestNode env s row = .ok (s', c, b)) : TakesCmd c row.dt s.db s'.db ∧ SameNotes s s' := by
  obtain ⟨⟨db', i, b'⟩, hrun, h⟩ := bind_eq_ok.1 h
  obtain ⟨hnode, hlt⟩ := node_create_of_none hnone (need_eq_ok.1 hrun)
  rw [hnone] at h
  cases h
  refine ⟨.inr fun t' ht' hc' => ?_, ⟨rfl, rfl, rfl, rfl, rfl, rfl, rfl, rfl⟩⟩
  have ht' : t' ∈ db'.node := ht'
  rw [hnode] at ht'
  rcases List.mem_append.1 ht' with ht' | ht'
  · exact .inr ⟨(hlt t' ht').ne, t', ht', hc', rfl, rfl⟩
  · rw [List.mem_singleton.1 ht']
    exact .inl ⟨rfl, rfl⟩

/-- A command that gets a name that no node has. -/
theorem setName_takes {name : Text} (hnone : tupDbSelectTent db dt name = none)
    (h : tupDbSetName db c name dt = some db') : TakesCmd c dt db db' := by
  obtain ⟨tent, htent, h⟩ := Option.bind_eq_some_iff.1 h
  rw [if_neg] at h
  · rw [hnone] at h
    cases h
    refine .inr fun t' ht' hc' => ?_
    obtain ⟨t, ht, rfl⟩ := List.mem_map.1 ht'
    by_cases heq : t.tupid = c
    · rw [if_pos heq]
      exact .inl ⟨heq, rfl⟩
    · rw [if_neg heq] at hc' ⊢
      exact .inr ⟨heq, t, ht, hc', rfl, rfl⟩
  · rintro ⟨rfl, rfl⟩
    have hno := List.find?_eq_none.1 hnone tent (mem_node_of_tupEntryAdd htent).1
    simp at hno

theorem newCommand_takes {onl : List TupId} (hnone : tupDbSelectTent s.db r.curtent r.cmd = none)
    (h : newCommand env refactoring r onl s modified = .ok (s', cmdid, modified')) :
    TakesCmd cmdid r.curtent s.db s'.db ∧ SameNotes s s' := by
  obtain ⟨⟨link, owner⟩, hfind, h⟩ := bind_eq_ok.1 h
  have hnotes : SameNotes s { s with link := link } := ⟨rfl, rfl, rfl, rfl, rfl, rfl, rfl, rfl⟩
  have hdb : ({ s with link := link } : PassState).db = s.db :=
    findExistingCommand_db (need_eq_ok.1 hfind)
  dsimp only at h
  generalize ({ s with link := link } : PassState) = s₀ at h hnotes hdb
  rw [← hdb] at hnone ⊢
  cases owner with
  | none =>
    dsimp only at h
    split at h
    · cases h
    obtain ⟨⟨m, i, b⟩, hreq, h⟩ := bind_eq_ok.1 h
    cases h
    exact (requestNode_takes hnone hreq).imp_right hnotes.trans
  | some c =>
    obtain ⟨cmdtent, -, h⟩ := bind_eq_ok.1 h
    split at h
    · cases h
    obtain ⟨db', hname, h⟩ := bind_eq_ok.1 h
    obtain ⟨⟨m, b⟩, hflags, h⟩ := bind_eq_ok.1 h
    cases h
    obtain ⟨hless, hdisplay⟩ := compareDisplay_lessens r cmdtent (s₀.write db')
    obtain ⟨hless', hflags⟩ := compareFlags_lessens hflags
    have htakes := setName_takes hnone (need_eq_ok.1 hname)
    exact ⟨htakes.after (.of_lessens (hless.trans hless')),
      ((hnotes.trans (sameNotes_write s₀ db')).trans hdisplay).trans hflags⟩

theorem ruleCommand_takes {onl : List TupId}
    (h : ruleCommand env refactoring r onl s modified = .ok (s', cmdid, modified')) :
    TakesCmd cmdid r.curtent s.db s'.db ∧ SameNotes s s' := by
  unfold ruleCommand at h
  split at h
  · next cmdtent hsel =>
    split at h
    · cases h
    next htype =>
    obtain ⟨⟨m, b⟩, hflags, h⟩ := bind_eq_ok.1 h
    cases h
    obtain ⟨hless, hdisplay⟩ := compareDisplay_lessens r cmdtent s
    obtain ⟨hless', hflags⟩ := compareFlags_lessens hflags
    obtain ⟨hmem, hdt, -⟩ := mem_of_tupDbSelectTent hsel
    exact ⟨.inl ⟨.of_lessens (hless.trans hless'), cmdtent, hmem, not_not.1 htype, rfl, hdt⟩,
      hdisplay.trans hflags⟩
  · next hnone => exact newCommand_takes hnone h

theorem compareAllowReads_keeps
    (h : compareAllowReads refactoring r cmdid s modified = .ok (s', modified')) :
    KeepsCmds s.db s'.db ∧ SameNotes s s' := by
  unfold compareAllowReads at h
  split at h
  · split at h
    · cases h
    · cases h
      exact ⟨.of_node rfl, sameNotes_write _ _⟩
  · cases h
    exact ⟨.refl _, .refl _⟩

/-! ### The links of a rule -/

/-- A walk over two trees whose steps leave the nodes alone. -/
theorem node_compareTentTrees {σ : Type} (π : σ → Db) {a b : TentTree} {f g : σ → TupId → Option σ}
    {x y : σ} (hf : ∀ x i y, f x i = some y → (π y).node = (π x).node)
    (hg : ∀ x i y, g x i = some y → (π y).node = (π x).node)
    (h : compareTentTrees a b f g x = some y) : (π y).node = (π x).node := by
  rw [compareTentTrees_eq] at h
  refine foldlM_keeps (P := fun _ m => (π m).node = (π x).node) h rfl ?_
  rintro - (i | i) - m m' - hm hstep
  · exact (hf m i m' hstep).trans hm
  · exact (hg m i m' hstep).trans hm

theorem node_tupDbWriteOutputs {exclusionDt : TupId} {cmdtent : TupEntry}
    {root exclusionRoot : TentTree} {old : Option TupId}
    (h : tupDbWriteOutputs exclusionDt db cmdtent root exclusionRoot group modified =
      some (db', old)) : db'.node = db.node := by
  obtain ⟨outs, -, h⟩ := Option.bind_eq_some_iff.1 h
  obtain ⟨db₁, hgroup, h⟩ := Option.bind_eq_some_iff.1 h
  obtain ⟨s₁, houtputs, h⟩ := Option.bind_eq_some_iff.1 h
  obtain ⟨s₂, hexclusions, h⟩ := Option.bind_eq_some_iff.1 h
  cases h
  have hwalk := node_compareTentTrees ParseOutputState.db (fun _ _ _ h => (rmOutput_edit h).node)
    (fun _ _ _ h => (addOutput_edit h).node) houtputs
  have hwalk' := node_compareTentTrees ParseOutputState.db (fun _ _ _ h => (rmOutput_edit h).node)
    (fun _ _ _ h => (addOutput_edit h).node) hexclusions
  have hnode : s₂.db.node = db.node := hwalk'.trans (hwalk.trans (changeGroup_edit hgroup).node)
  split
  · exact (flagOutputsDiffer_edit cmdtent group).node.trans hnode
  · exact hnode

theorem node_tupDbWriteInputs {inputRoot envRoot : TentTree}
    (h : tupDbWriteInputs db c inputRoot envRoot group oldGroup = some db') :
    db'.node = db.node := by
  obtain ⟨sticky, -, h⟩ := Option.bind_eq_some_iff.1 h
  obtain ⟨s, hwalk, h⟩ := Option.bind_eq_some_iff.1 h
  obtain ⟨db₁, hnormal, h⟩ := Option.bind_eq_some_iff.1 h
  have hnode := node_compareTentTrees WriteInputState.db (fun _ _ _ h => (addSticky_edit h).node)
    (fun _ _ _ h => (rmSticky_edit h).node) hwalk
  exact (changeGroupLinks_edit h).node.trans ((renewNormalInputs_edit hnormal).node.trans hnode)

/-- What a rule leaves: its command is noted as one that stays. -/
structure RuleTakes (dt curtent : TupId) (s s' : PassState) (c : TupId) : Prop where
  takes : TakesCmd c curtent s.db s'.db
  parsing : s'.parsing = s.parsing
  running : s'.running = s.running
  fresh : c ∉ s.cmdRoot dt
  cmdRoot : ∀ d i, i ∈ s'.cmdRoot d ↔ i ∈ s.cmdRoot d ∨ d = dt ∧ i = c
  cmdDelete : ∀ i, i ∈ s'.cmdDeleteRoot ↔ i ∈ s.cmdDeleteRoot ∧ i ≠ c

/-- The links change no node and no note but those about outputs. -/
structure LinksOnly (s s' : PassState) : Prop where
  keeps : KeepsCmds s.db s'.db
  parsing : s'.parsing = s.parsing
  running : s'.running = s.running
  cmdRoot : s'.cmdRoot = s.cmdRoot
  cmdDelete : s'.cmdDeleteRoot = s.cmdDeleteRoot

theorem ruleLinks_only (h : ruleLinks env false r cmdid out modified s = .ok s') :
    LinksOnly s s' := by
  obtain ⟨taken, htake, h⟩ := bind_eq_ok.1 h
  obtain ⟨⟨link, inputRoot⟩, hinputs, h⟩ := bind_eq_ok.1 h
  obtain ⟨hless, hkept, -⟩ := takeOutputs_spec htake
  have hlink : link.db = taken.db := (ruleInputs_spec hinputs).1
  dsimp only at h
  split at h
  · cases h
  obtain ⟨⟨s₁, old⟩, houtputs, h⟩ := bind_eq_ok.1 h
  obtain ⟨cmdtent, -, houtputs⟩ := bind_eq_ok.1 houtputs
  obtain ⟨⟨db₁, old'⟩, hwrite, houtputs⟩ := bind_eq_ok.1 houtputs
  cases houtputs
  obtain ⟨db₂, hwrite', h⟩ := bind_eq_ok.1 h
  cases h
  have hnode : db₂.node = taken.db.node := by
    rw [← hlink]
    exact (node_tupDbWriteInputs (need_eq_ok.1 hwrite')).trans
      (node_tupDbWriteOutputs (need_eq_ok.1 hwrite))
  exact ⟨(KeepsCmds.of_lessens hless).trans (.of_node hnode), hkept.parsing, hkept.running,
    hkept.cmdRoot, hkept.cmdDelete⟩

theorem not_mem_of_tentTreeAdd {t t' : TentTree} {i : TupId} (h : tentTreeAdd t i = some t') :
    i ∉ t := by
  intro hi
  rw [tentTreeAdd, tentTreeSearch_eq, decide_eq_true hi] at h
  cases h

theorem doRule_takes (h : doRule env false dt r s = .ok s') :
    ∃ c, RuleTakes dt r.curtent s s' c := by
  unfold doRule at h
  split at h
  · cases h
  obtain ⟨⟨out, onl⟩, hout, h⟩ := bind_eq_ok.1 h
  obtain ⟨⟨s₁, cmdid, modified₁⟩, hcmd, h⟩ := bind_eq_ok.1 h
  obtain ⟨⟨s₂, modified₂⟩, hallow, h⟩ := bind_eq_ok.1 h
  obtain ⟨s₃, hkeep, h⟩ := bind_eq_ok.1 h
  have hfurther := doRuleOutputs_further hout
  obtain ⟨htakes, hnotes₁⟩ := ruleCommand_takes hcmd
  obtain ⟨hkeeps, hnotes₂⟩ := compareAllowReads_keeps hallow
  have hlinks := ruleLinks_only h
  obtain ⟨root, hroot, hkeep⟩ := bind_eq_ok.1 hkeep
  have hroot := need_eq_ok.1 hroot
  have hnotes : SameNotes s s₂ := (hfurther.notes.trans hnotes₁).trans hnotes₂
  cases hkeep
  refine ⟨cmdid, ?_, hlinks.parsing.trans hnotes.parsing, hlinks.running.trans hnotes.running, ?_,
    ?_, ?_⟩
  · exact (htakes.before (.of_lessens hfurther.lessens)).after (hkeeps.trans hlinks.keeps)
  · rw [← hnotes.cmdRoot]
    exact not_mem_of_tentTreeAdd hroot
  · intro d i
    rw [hlinks.cmdRoot]
    dsimp only
    rw [hnotes.cmdRoot] at hroot ⊢
    by_cases hd : d = dt
    · subst hd
      rw [Function.update_self, mem_of_tentTreeAdd hroot]
      tauto
    · rw [Function.update_of_ne hd]
      simp [hd]
  · intro i
    rw [hlinks.cmdDelete]
    dsimp only
    rw [hnotes.cmdDelete, mem_tentTreeRemove]
    exact and_comm

/-! ### The end of a parse, and of a pass -/

theorem LinksOnly.refl (s : PassState) : LinksOnly s s := ⟨.refl _, rfl, rfl, rfl, rfl⟩

theorem LinksOnly.trans {m : PassState} (h : LinksOnly s m) (h₁ : LinksOnly m s') :
    LinksOnly s s' :=
  ⟨h.keeps.trans h₁.keeps, h₁.parsing.trans h.parsing, h₁.running.trans h.running,
    h₁.cmdRoot.trans h.cmdRoot, h₁.cmdDelete.trans h.cmdDelete⟩

theorem LinksOnly.foldlM {β : Type} {f : PassState → β → Checked PassState} {l : List β}
    (hf : ∀ s b s', f s b = .ok s' → LinksOnly s s') (h : l.foldlM f s = .ok s') :
    LinksOnly s s' := by
  induction l generalizing s with
  | nil =>
    cases h
    exact .refl _
  | cons b l ih =>
    rw [List.foldlM_cons] at h
    obtain ⟨m, hm, h⟩ := bind_eq_ok.1 h
    exact (hf s b m hm).trans (ih h)

theorem dropGitignore_only (env : PassEnv) (s : PassState) (tent : TupEntry) :
    LinksOnly s (dropGitignore env s tent) := by
  unfold dropGitignore
  split
  · have hless : Lessens s.db (tupDbSetSrcid (tupDbSetType s.db tent.tupid .file) tent.tupid (-1)) :=
      (Lessens.setType (by decide)).trans (.setSrcid _)
    exact ⟨.of_lessens hless, rfl, rfl, rfl, rfl⟩
  · exact .refl s

theorem parserGitignore_only {d : TupId} (h : parserGitignore env refactoring s d = .ok s') :
    LinksOnly s s' := by
  unfold parserGitignore at h
  split at h
  · split at h
    · cases h
    obtain ⟨⟨m, i, b⟩, hreq, h⟩ := bind_eq_ok.1 h
    cases h
    obtain ⟨hless, hnotes⟩ := requestNode_lessens (by simp) hreq
    exact ⟨.of_lessens hless, hnotes.parsing, hnotes.running, hnotes.cmdRoot, hnotes.cmdDelete⟩
  · next tent hsel =>
    dsimp only at h
    split at h
    · cases h
      have hless : Lessens s.db (tupDbSetSrcid (tupDbSetType s.db tent.tupid .generated)
          tent.tupid d) := (Lessens.setType (by decide)).trans (.setSrcid _)
      exact ⟨.of_lessens hless, rfl, rfl, rfl, rfl⟩
    · cases h
      exact ⟨.refl _, rfl, rfl, rfl, rfl⟩

theorem parseGitignore_only (h : parseGitignore env refactoring dt e s = .ok s') :
    LinksOnly s s' := by
  unfold parseGitignore at h
  split at h
  · exact .foldlM (fun _ _ _ hstep => parserGitignore_only hstep) h
  · split at h
    · split at h
      · split at h
        · cases h
        · cases h
          exact dropGitignore_only env s _
      · cases h
        exact .refl _
    · cases h
      exact .refl _

theorem node_tupDbWriteDirInputs {root : TentTree}
    (h : tupDbWriteDirInputs db dt root = some db') : db'.node = db.node := by
  obtain ⟨sticky, -, h⟩ := Option.bind_eq_some_iff.1 h
  obtain ⟨normal, -, h⟩ := Option.bind_eq_some_iff.1 h
  split at h
  · cases h
  refine node_compareTentTrees id (fun db i db' hadd => ?_) (fun db i db' hrm => ?_) h
  · obtain ⟨tent, -, hadd⟩ := Option.bind_eq_some_iff.1 hadd
    split at hadd
    · cases hadd
    · exact (linkInsert_edit hadd).node
  · obtain ⟨tent, -, hrm⟩ := Option.bind_eq_some_iff.1 hrm
    cases hrm
    exact (linkRemove_edit _ _ _ _).node.trans (tupEntryAddGhostTree_edit tent).node

theorem finishParse_only (h : finishParse env false dt e s = .ok s') :
    LinksOnly { s with running := s.running.erase dt } s' := by
  unfold finishParse at h
  split at h
  · cases h
  obtain ⟨m, hgit, h⟩ := bind_eq_ok.1 h
  obtain ⟨db', hdir, h⟩ := bind_eq_ok.1 h
  have honly := parseGitignore_only hgit
  have hnode : db'.node = m.db.node := node_tupDbWriteDirInputs (need_eq_ok.1 hdir)
  cases h
  exact ⟨honly.keeps.trans (.of_node hnode), honly.parsing, congrArg (·.erase dt) honly.running,
    honly.cmdRoot, honly.cmdDelete⟩

theorem lessens_makeDirsNormal {fuel : ℕ} (h : makeDirsNormal fuel db dt = some db') :
    Lessens db db' := by
  induction fuel generalizing db dt with
  | zero => cases h
  | succ fuel ih =>
    unfold makeDirsNormal at h
    split at h
    · cases h
      exact .refl _
    · split at h
      · have hset : Lessens db (tupDbSetType db dt .dir) := .setType (by decide)
        have hghost : Lessens (tupDbSetType db dt .dir) { tupDbSetType db dt .dir with
            ghostRoot := tentTreeRemove (tupDbSetType db dt .dir).ghostRoot dt } :=
          .of_keepsRows (.of_eq rfl rfl rfl)
        exact (hset.trans hghost).trans (ih h)
      · split at h
        · cases h
          exact .of_keepsRows (.ite (.addCreate _ _) (.refl _))
        · cases h
          exact .refl _

theorem deleteLeftover_only {i : TupId} (h : deleteLeftover env s i = .ok s') : LinksOnly s s' := by
  obtain ⟨⟨db', b⟩, hdel, h⟩ := bind_eq_ok.1 h
  cases h
  exact ⟨.of_lessens (Lessens.frames.delIdType (need_eq_ok.1 hdel)), rfl, rfl, rfl, rfl⟩

theorem saveFile_only {i : TupId} (h : saveFile env s i = .ok s') : LinksOnly s s' := by
  obtain ⟨tent, -, h⟩ := bind_eq_ok.1 h
  split at h
  · cases h
  obtain ⟨db₁, hlinks, h⟩ := bind_eq_ok.1 h
  obtain ⟨db₂, hdirs, h⟩ := bind_eq_ok.1 h
  cases h
  have hflags : Lessens s.db (tupDbModifyCmdsByInput s.db i) := .of_keepsRows (.setFlags _ _)
  have hremoved := hflags.trans (Lessens.frames.deleteLinks (need_eq_ok.1 hlinks))
  have htype : Lessens db₁ (tupDbSetType db₁ i .file) := .setType (by decide)
  exact ⟨.of_lessens ((hremoved.trans htype).trans (lessens_makeDirsNormal (need_eq_ok.1 hdirs))),
    rfl, rfl, rfl, rfl⟩

theorem deleteFiles_only (h : deleteFiles env s = .ok s') : LinksOnly s s' := by
  obtain ⟨s₁, hgen, h⟩ := bind_eq_ok.1 h
  obtain ⟨s₂, hcmd, h⟩ := bind_eq_ok.1 h
  have hleft : ∀ {l : List TupId} {s s' : PassState}, l.foldlM (deleteLeftover env) s = .ok s' →
      LinksOnly s s' := fun h => .foldlM (fun _ _ _ hstep => deleteLeftover_only hstep) h
  exact ((hleft hgen).trans (hleft hcmd)).trans (.foldlM (fun _ _ _ hstep => saveFile_only hstep) h)

theorem keeps_normalDirToGenerated {i : TupId} (h : tupDbNormalDirToGenerated db i = some db') :
    KeepsCmds db db' := by
  obtain ⟨db₁, hghost, h⟩ := Option.bind_eq_some_iff.1 h
  cases h
  have hless : Lessens db db₁ := .of_keepsRows (.addGhostChecks hghost)
  have hlinks : KeepsCmds db₁ { db₁ with normalLink := withoutNode db₁.normalLink i } :=
    .of_node rfl
  exact ((KeepsCmds.of_lessens hless).trans hlinks).trans (.of_lessens (.setType (by decide)))

theorem convertDir_only {tent : TupEntry} (h : convertDir env s tent = .ok s') :
    LinksOnly s s' := by
  obtain ⟨db', hdir, h⟩ := bind_eq_ok.1 h
  have hkeeps := keeps_normalDirToGenerated (need_eq_ok.1 hdir)
  have honly : ∀ normalDirs files, LinksOnly s { s.write db' with
      normalDirRoot := normalDirs, genDeleteRoot := files } :=
    fun _ _ => ⟨hkeeps, rfl, rfl, rfl, rfl⟩
  dsimp only at h
  split at h
  · split at h
    · cases h
      exact (honly _ _).trans (dropGitignore_only env _ _)
    · cases h
      exact honly _ _
  · cases h
    exact honly _ _

theorem convertDirs_only {fuel : ℕ} (h : convertDirs env fuel s = .ok s') : LinksOnly s s' := by
  induction fuel generalizing s with
  | zero =>
    cases h
    exact .refl _
  | succ fuel ih =>
    unfold convertDirs at h
    split at h
    · cases h
      exact .refl _
    · next dt l hids =>
      obtain ⟨tent, -, h⟩ := bind_eq_ok.1 h
      have hremove : LinksOnly s { s with normalDirRoot := tentTreeRemove s.normalDirRoot dt } :=
        ⟨.refl _, rfl, rfl, rfl, rfl⟩
      dsimp only at h
      split at h
      · obtain ⟨m, hm, h⟩ := bind_eq_ok.1 h
        exact (hremove.trans (convertDir_only hm)).trans (ih h)
      · exact hremove.trans (ih h)

/-! ### Who has made a command -/

/-- The directory whose Tupfile has evaluated a command last. -/
abbrev Owners := TupId → Option TupId

/-- A rule in the Tupfile of `dt` becomes the maker of the command that it has found or made. -/
def nextOwners (dt : TupId) (s s' : PassState) (own : Owners) : Owners := fun c =>
  if c ∈ s'.cmdRoot dt ∧ c ∉ s.cmdRoot dt then some dt else own c

/-- The states of one update after another, from a database without commands on, where every rule
is one that `ok` allows. In a pass the Tupfiles may be parsed in any order, also one within another;
between two passes files may come and go. -/
inductive ParseRun (ok : TupId → RuleSpec → Prop) : PassState → Owners → Prop
  | init {db : Db} (h : ∀ t ∈ db.node, t.type ≠ .cmd) :
    ParseRun ok { link := { db := db } } fun _ => none
  | start {s s' : PassState} {own : Owners} (env : PassEnv) (refactoring : Bool) (dt : TupId)
    (h : ParseRun ok s own) (hrun : passEvent env refactoring s (.start dt) = .ok s') :
    ParseRun ok s' own
  | rule {s s' : PassState} {own : Owners} (env : PassEnv) (refactoring : Bool) (dt : TupId)
    (r : RuleSpec) (h : ParseRun ok s own) (hdt : dt ∈ s.running) (hr : ok dt r)
    (hrun : passEvent env refactoring s (.rule dt r) = .ok s') :
    ParseRun ok s' (nextOwners dt s s' own)
  | finish {s s' : PassState} {own : Owners} (env : PassEnv) (refactoring : Bool) (dt : TupId)
    (e : ParseEnd) (h : ParseRun ok s own)
    (hrun : passEvent env refactoring s (.finish dt e) = .ok s') : ParseRun ok s' own
  | next {s s₁ s₂ : PassState} {own : Owners} {db : Db} (env : PassEnv) (fuel : ℕ)
    (h : ParseRun ok s own) (hdone : s.running = []) (hdirs : convertDirs env fuel s = .ok s₁)
    (hdelete : deleteFiles env s₁ = .ok s₂) (hdb : KeepsCmds s₂.db db) :
    ParseRun ok { link := { db := db } } own

/-- The tree of commands to be deleted is the right one. -/
structure Collects (s : PassState) (own : Owners) : Prop where
  /-- Of what a parsed file has made, it has what the file does not make any more. -/
  parsed : ∀ t ∈ s.db.node, t.type = .cmd → ∀ dt ∈ s.parsing, own t.tupid = some dt →
    (t.tupid ∈ s.cmdDeleteRoot ↔ t.tupid ∉ s.cmdRoot dt)
  /-- It has nothing of what a file has made that is not parsed. -/
  others : ∀ t ∈ s.db.node, t.type = .cmd → ∀ dt, dt ∉ s.parsing → own t.tupid = some dt →
    t.tupid ∉ s.cmdDeleteRoot
  /-- It has nothing that a file makes. -/
  kept : ∀ dt, ∀ i ∈ s.cmdRoot dt, i ∉ s.cmdDeleteRoot

/-- What holds in every state besides: commands are in the directory of their Tupfile. -/
structure OwnersInv (s : PassState) (own : Owners) : Prop extends Collects s own where
  home : ∀ t ∈ s.db.node, t.type = .cmd → own t.tupid = some t.dt
  running : ∀ dt ∈ s.running, dt ∈ s.parsing
  unparsed : ∀ dt, dt ∉ s.parsing → ∀ i, i ∉ s.cmdRoot dt
  evaluated : ∀ dt, ∀ i ∈ s.cmdRoot dt, ∃ d ∈ s.parsing, own i = some d

variable {own : Owners}

/-- A pass begins. -/
theorem ownersInv_begin (hhome : ∀ t ∈ db.node, t.type = .cmd → own t.tupid = some t.dt) :
    OwnersInv { link := { db := db } } own where
  parsed _ _ _ _ hdt := by cases hdt
  others _ _ _ _ _ _ := TentTree.not_mem_empty _
  kept _ i _ := TentTree.not_mem_empty i
  home := hhome
  running _ hdt := by cases hdt
  unparsed _ _ i := TentTree.not_mem_empty i
  evaluated _ i hi := absurd hi (TentTree.not_mem_empty i)

/-- What leaves the notes alone. -/
theorem OwnersInv.only (h : OwnersInv s own) (honly : LinksOnly s s') : OwnersInv s' own := by
  have hback : ∀ t' ∈ s'.db.node, t'.type = .cmd → ∃ t ∈ s.db.node, t.type = .cmd ∧
      t.tupid = t'.tupid ∧ t.dt = t'.dt := honly.keeps
  refine ⟨⟨?_, ?_, ?_⟩, ?_, ?_, ?_, ?_⟩
  · intro t' ht' hc' dt hdt hown
    obtain ⟨t, ht, hc, hid, -⟩ := hback t' ht' hc'
    rw [honly.parsing] at hdt
    rw [honly.cmdDelete, honly.cmdRoot, ← hid]
    exact h.parsed t ht hc dt hdt (hid ▸ hown)
  · intro t' ht' hc' dt hdt hown
    obtain ⟨t, ht, hc, hid, -⟩ := hback t' ht' hc'
    rw [honly.parsing] at hdt
    rw [honly.cmdDelete, ← hid]
    exact h.others t ht hc dt hdt (hid ▸ hown)
  · rw [honly.cmdDelete, honly.cmdRoot]
    exact h.kept
  · intro t' ht' hc'
    obtain ⟨t, ht, hc, hid, hdt⟩ := hback t' ht' hc'
    rw [← hid, ← hdt]
    exact h.home t ht hc
  · rw [honly.running, honly.parsing]
    exact h.running
  · rw [honly.parsing, honly.cmdRoot]
    exact h.unparsed
  · rw [honly.parsing, honly.cmdRoot]
    exact h.evaluated

/-- What the beginning of a parse does to the notes. -/
structure Starts (dt : TupId) (s s' : PassState) : Prop where
  new : dt ∉ s.parsing
  db : s'.db = s.db
  parsing : s'.parsing = dt :: s.parsing
  running : s'.running = dt :: s.running
  cmdRoot : s'.cmdRoot = s.cmdRoot
  cmdDelete : ∀ i, i ∈ s'.cmdDeleteRoot ↔
    i ∈ s.cmdDeleteRoot ∨ ∃ t ∈ s.db.node, t.type = .cmd ∧ t.dt = dt ∧ t.tupid = i

theorem startParse_starts (h : startParse dt s = .ok s') : Starts dt s s' := by
  unfold startParse at h
  split at h
  · cases h
  next hnew =>
  obtain ⟨tent, -, h⟩ := bind_eq_ok.1 h
  obtain ⟨cmdDeleteRoot, hdelete, h⟩ := bind_eq_ok.1 h
  obtain ⟨dirRoot, -, h⟩ := bind_eq_ok.1 h
  obtain ⟨⟨hlink, -, hparsing, hrunning, -, hcmdDelete, -, hcmdRoot⟩, -⟩ := foldlM_splitRoot h
  refine ⟨hnew, congrArg LinkState.db hlink, hparsing, hrunning, hcmdRoot, fun i => ?_⟩
  rw [hcmdDelete, mem_foldlM_tentTreeAdd_of (need_eq_ok.1 hdelete)]
  simp [tupDbDirtype, and_assoc, and_left_comm]

theorem OwnersInv.start (h : OwnersInv s own) (hs : Starts dt s s') : OwnersInv s' own := by
  -- what comes into the tree is a command that this file has made
  have hadded : ∀ i, i ∈ s'.cmdDeleteRoot ↔ i ∈ s.cmdDeleteRoot ∨
      ∃ t ∈ s.db.node, t.type = .cmd ∧ t.dt = dt ∧ t.tupid = i := hs.cmdDelete
  have hother : ∀ i d, own i = some d → d ≠ dt → (i ∈ s'.cmdDeleteRoot ↔ i ∈ s.cmdDeleteRoot) := by
    intro i d hown hne
    rw [hadded, or_iff_left]
    rintro ⟨t, ht, hc, rfl, rfl⟩
    rw [h.home t ht hc] at hown
    exact hne (Option.some.inj hown).symm
  refine ⟨⟨?_, ?_, ?_⟩, ?_, ?_, ?_, ?_⟩
  · intro t ht hc d hd hown
    rw [hs.db] at ht
    rw [hs.cmdRoot]
    by_cases heq : d = dt
    · subst heq
      have hdt : t.dt = d := Option.some.inj ((h.home t ht hc).symm.trans hown)
      exact iff_of_true ((hadded _).2 (.inr ⟨t, ht, hc, hdt, rfl⟩)) (h.unparsed d hs.new _)
    · rw [hs.parsing] at hd
      rw [hother _ d hown heq]
      exact h.parsed t ht hc d ((List.mem_cons.1 hd).resolve_left heq) hown
  · intro t ht hc d hd hown
    rw [hs.db] at ht
    rw [hs.parsing, List.mem_cons, not_or] at hd
    rw [hother _ d hown hd.1]
    exact h.others t ht hc d hd.2 hown
  · intro d i hi
    rw [hs.cmdRoot] at hi
    obtain ⟨d', hd', hown⟩ := h.evaluated d i hi
    rw [hother i d' hown fun heq => hs.new (heq ▸ hd')]
    exact h.kept d i hi
  · rw [hs.db]
    exact h.home
  · rw [hs.running, hs.parsing]
    intro d hd
    exact List.mem_cons.2 ((List.mem_cons.1 hd).imp_right (h.running d))
  · rw [hs.parsing, hs.cmdRoot]
    intro d hd
    exact h.unparsed d fun hmem => hd (List.mem_cons_of_mem dt hmem)
  · rw [hs.parsing, hs.cmdRoot]
    intro d i hi
    obtain ⟨d', hd', hown⟩ := h.evaluated d i hi
    exact ⟨d', List.mem_cons_of_mem dt hd', hown⟩

/-- The command of a rule has its new maker, the others keep theirs. -/
theorem RuleTakes.owners {curtent : TupId} (h : RuleTakes dt curtent s s' c) :
    nextOwners dt s s' own = Function.update own c (some dt) := by
  funext i
  unfold nextOwners
  by_cases hi : i = c
  · subst hi
    rw [Function.update_self, if_pos ⟨(h.cmdRoot dt i).2 (.inr ⟨rfl, rfl⟩), h.fresh⟩]
  · rw [Function.update_of_ne hi, if_neg]
    rintro ⟨hnow, hbefore⟩
    exact ((h.cmdRoot dt i).1 hnow).elim hbefore fun heq => hi heq.2

/-- Where the commands are after a rule. -/
theorem RuleTakes.back (hinv : OwnersInv s own) (h : RuleTakes dt dt s s' c) :
    ∀ t' ∈ s'.db.node, t'.type = .cmd → t'.tupid = c ∧ t'.dt = dt ∨
      t'.tupid ≠ c ∧ ∃ t ∈ s.db.node, t.type = .cmd ∧ t.tupid = t'.tupid ∧ t.dt = t'.dt := by
  intro t' ht' hc'
  rcases h.takes with ⟨hkeeps, u, hu, huc, hid, hudt⟩ | htakes
  · obtain ⟨t, ht, hc, htid, htdt⟩ := hkeeps t' ht' hc'
    by_cases heq : t'.tupid = c
    · -- it had been made here before
      refine .inl ⟨heq, ?_⟩
      have hsame : some t.dt = some u.dt := by
        rw [← hinv.home t ht hc, ← hinv.home u hu huc, htid, heq, hid]
      rw [← htdt, Option.some.inj hsame, hudt]
    · exact .inr ⟨heq, t, ht, hc, htid, htdt⟩
  · exact htakes t' ht' hc'

theorem OwnersInv.rule (h : OwnersInv s own) (hdt : dt ∈ s.running) (hr : RuleTakes dt dt s s' c) :
    OwnersInv s' (Function.update own c (some dt)) := by
  have hback := hr.back h
  have hparsing : dt ∈ s.parsing := h.running dt hdt
  refine ⟨⟨?_, ?_, ?_⟩, ?_, ?_, ?_, ?_⟩
  · intro t' ht' hc' d hd hown
    rw [hr.cmdDelete, hr.cmdRoot]
    rcases hback t' ht' hc' with ⟨rfl, -⟩ | ⟨hne, t, ht, hc, hid, -⟩
    · rw [Function.update_self, Option.some.injEq] at hown
      simp [hown]
    · rw [Function.update_of_ne hne] at hown
      rw [hr.parsing] at hd
      have hold := h.parsed t ht hc d hd (hid ▸ hown)
      rw [hid] at hold
      simp [hne, hold]
  · intro t' ht' hc' d hd hown
    rw [hr.cmdDelete]
    rw [hr.parsing] at hd
    rcases hback t' ht' hc' with ⟨rfl, -⟩ | ⟨hne, t, ht, hc, hid, -⟩
    · exact fun hmem => hmem.2 rfl
    · rw [Function.update_of_ne hne] at hown
      rw [← hid]
      exact fun hmem => h.others t ht hc d hd (hid ▸ hown) hmem.1
  · intro d i hi hmem
    rw [hr.cmdDelete] at hmem
    rcases (hr.cmdRoot d i).1 hi with hi | ⟨-, hi⟩
    · exact h.kept d i hi hmem.1
    · exact hmem.2 hi
  · intro t' ht' hc'
    rcases hback t' ht' hc' with ⟨rfl, hhere⟩ | ⟨hne, t, ht, hc, hid, hsame⟩
    · rw [Function.update_self, hhere]
    · rw [Function.update_of_ne hne, ← hid, ← hsame]
      exact h.home t ht hc
  · rw [hr.running, hr.parsing]
    exact h.running
  · intro d hd i hi
    rw [hr.parsing] at hd
    rcases (hr.cmdRoot d i).1 hi with hi | ⟨rfl, -⟩
    · exact h.unparsed d hd i hi
    · exact hd hparsing
  · intro d i hi
    rw [hr.parsing]
    by_cases heq : i = c
    · exact ⟨dt, hparsing, by rw [heq, Function.update_self]⟩
    · rw [Function.update_of_ne heq]
      rcases (hr.cmdRoot d i).1 hi with hi | ⟨-, hi⟩
      · exact h.evaluated d i hi
      · exact absurd hi heq

theorem OwnersInv.finish (h : OwnersInv s own) :
    OwnersInv { s with running := s.running.erase dt } own :=
  ⟨⟨h.parsed, h.others, h.kept⟩, h.home, fun d hd => h.running d (List.mem_of_mem_erase hd),
    h.unparsed, h.evaluated⟩

/-- Refactoring makes no difference to a step that is accepted. -/
theorem passEvent_plain {ev : ParseEvent} (h : passEvent env refactoring s ev = .ok s') :
    passEvent env false s ev = .ok s' := by
  cases refactoring with
  | false => exact h
  | true => exact passEvent_within ev s' h

theorem ownersInv_of_parseRun (h : ParseRun (fun dt r => r.curtent = dt) s own) :
    OwnersInv s own := by
  induction h with
  | init hnone =>
    apply ownersInv_begin
    intro t ht hc
    exact absurd hc (hnone t ht)
  | start env refactoring dt _ hrun ih => exact ih.start (startParse_starts (passEvent_plain hrun))
  | rule env refactoring dt r _ hdt hr hrun ih =>
    obtain ⟨c, htakes⟩ := doRule_takes (passEvent_plain hrun)
    rw [hr] at htakes
    rw [htakes.owners]
    exact ih.rule hdt htakes
  | finish env refactoring dt e _ hrun ih =>
    exact ih.finish.only (finishParse_only (passEvent_plain hrun))
  | next env fuel _ _ hdirs hdelete hdb ih =>
    have hend := ih.only ((convertDirs_only hdirs).trans (deleteFiles_only hdelete))
    apply ownersInv_begin
    intro t' ht' hc'
    obtain ⟨t, ht, hc, hid, hdt⟩ := hdb t' ht' hc'
    rw [← hid, ← hdt]
    exact hend.home t ht hc

end

/-- When every rule makes its command in the directory whose Tupfile is parsed, the commands that
are to be deleted are those the parsed files no longer make. -/
theorem collects_of_parseRun {s : PassState} {own : Owners}
    (h : ParseRun (fun dt r => r.curtent = dt) s own) : Collects s own :=
  (ownersInv_of_parseRun h).toCollects

/-! ### Two updates -/

/-- A project of two directories. -/
def appWithLib : Db where
  node := [
    { tupid := 1, dt := 0, type := .dir, name := ".".toList },
    { tupid := 2, dt := 1, type := .dir, name := "app".toList },
    { tupid := 3, dt := 1, type := .dir, name := "lib".toList }]

/-- The first update parses the Tupfile of `app`, whose rule makes its command in `curtent`; the
second one begins with the Tupfile of `dt`. What comes out are the states before and after the rule,
and the last one. -/
def twoUpdates (curtent dt : TupId) : Checked (PassState × PassState × PassState) := do
  let s₁ ← startParse 2 { link := { db := appWithLib } }
  let s₂ ← doRule oneRuleEnv false 2 { curtent := curtent, cmd := "cc".toList } s₁
  let s₃ ← finishParse oneRuleEnv false 2 { ign := false, inputRoot := ∅ } s₂
  let s₄ ← convertDirs oneRuleEnv 0 s₃
  let s₅ ← deleteFiles oneRuleEnv s₄
  let s₆ ← startParse dt { link := { db := s₅.db } }
  return (s₁, s₂, s₆)

theorem parseRun_twoUpdates {ok : TupId → RuleSpec → Prop} {curtent dt : TupId}
    {s₁ s₂ s₆ : PassState} (hok : ok 2 { curtent := curtent, cmd := "cc".toList })
    (h : twoUpdates curtent dt = .ok (s₁, s₂, s₆)) :
    ParseRun ok s₆ (nextOwners 2 s₁ s₂ fun _ => none) := by
  obtain ⟨m₁, h₁, h⟩ := bind_eq_ok.1 h
  obtain ⟨m₂, h₂, h⟩ := bind_eq_ok.1 h
  obtain ⟨m₃, h₃, h⟩ := bind_eq_ok.1 h
  obtain ⟨m₄, h₄, h⟩ := bind_eq_ok.1 h
  obtain ⟨m₅, h₅, h⟩ := bind_eq_ok.1 h
  obtain ⟨m₆, h₆, h⟩ := bind_eq_ok.1 h
  cases h
  -- no parse is going on when the first update ends
  have hstart := (startParse_starts h₁).running
  obtain ⟨c, htakes⟩ := doRule_takes h₂
  have hrule : s₂.running = [2] := htakes.running.trans hstart
  have hfinish : m₃.running = [] := by
    rw [(finishParse_only h₃).running]
    exact congrArg (·.erase 2) hrule
  have hbegin : ParseRun ok s₁ fun _ => none :=
    .start oneRuleEnv false 2 (.init (by decide)) h₁
  have hmade := ParseRun.rule oneRuleEnv false 2 _ hbegin (hstart ▸ List.mem_cons_self) hok h₂
  have hparsed := ParseRun.finish oneRuleEnv false 2 _ hmade h₃
  have hnext := ParseRun.next oneRuleEnv 0 hparsed hfinish h₄ h₅ (.refl m₅.db)
  exact .start oneRuleEnv false dt hnext h₆

/-- The second update of `app`: its Tupfile does not make the command any more. -/
theorem collects_of_parseRun_app : ∃ s own, ParseRun (fun dt r => r.curtent = dt) s own ∧
    Collects s own ∧ s.cmdDeleteRoot.ids = [4] := by
  have hres : (match twoUpdates 2 2 with
    | .ok (_, _, s) => s.cmdDeleteRoot.ids
    | .error _ => []) = [4] := by decide +kernel
  cases hrun : twoUpdates 2 2 with
  | error l =>
    rw [hrun] at hres
    cases hres
  | ok p =>
    obtain ⟨s₁, s₂, s⟩ := p
    rw [hrun] at hres
    have hstates : ParseRun (fun dt r => r.curtent = dt) s (nextOwners 2 s₁ s₂ fun _ => none) :=
      parseRun_twoUpdates rfl hrun
    exact ⟨s, _, hstates, collects_of_parseRun hstates, hres⟩

/-- The Tupfile of `app` makes its command in `lib`. When the Tupfile of `lib` is parsed, and only
that, the command is to be deleted. -/
theorem stray_command_is_collected :
    ¬ ∀ s own, ParseRun (fun _ _ => True) s own → Collects s own := by
  intro hall
  have hres : (match twoUpdates 3 3 with
    | .ok (s₁, s₂, s) => decide (4 ∈ s.cmdDeleteRoot ∧ 2 ∉ s.parsing ∧ 4 ∈ s₂.cmdRoot 2 ∧
        4 ∉ s₁.cmdRoot 2 ∧ ∃ t ∈ s.db.node, t.type = .cmd ∧ t.tupid = 4)
    | .error _ => false) = true := by decide +kernel
  cases hrun : twoUpdates 3 3 with
  | error l =>
    rw [hrun] at hres
    cases hres
  | ok p =>
    obtain ⟨s₁, s₂, s⟩ := p
    rw [hrun] at hres
    obtain ⟨hdelete, hparsing, hnow, hbefore, t, ht, hc, hid⟩ := of_decide_eq_true hres
    have hcollects := hall s _ (parseRun_twoUpdates trivial hrun)
    have hown : nextOwners 2 s₁ s₂ (fun _ => none) t.tupid = some 2 := by
      rw [hid]
      exact if_pos ⟨hnow, hbefore⟩
    exact hcollects.others t ht hc 2 hparsing hown (hid ▸ hdelete)

end Metatup
