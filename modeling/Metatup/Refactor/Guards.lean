import Metatup.Db.Frames
import Metatup.Db.RuleEdits
import Metatup.Refactor.Pass

/-!
# The guards of a rule

What a rule that passes with refactoring on has done to the database: nothing, as long as each node
that it asks for is as the rule wants it or is no output of its command yet. A node of the second
kind may be changed, but then the command gets a new output, and that is refused.

* `Steady`: the state of a pass in which nothing has changed.
* `Doomed`: an output of the rule is none of the recorded ones.
* `dryWriteOutputs_ok`, `dryWriteInputs_ok`: a state in which something differs does not pass.
-/

namespace Metatup

open Lib

/-! ### States in which nothing has changed -/

theorem SameRows.refl (db : Db) : SameRows db db := ⟨rfl, rfl, rfl, rfl, rfl⟩

/-- Nothing has changed, and what is cached is right. -/
structure Steady (db : Db) (s : PassState) : Prop where
  rows : SameRows db s.db
  variants : s.db.variants = db.variants
  changes : s.changes = 0
  incoming : ∀ o c, s.link.incoming o = some c → ∀ x, NormalAdj db x o ↔ x = c

/-- What the graph and the Tupfiles have noted is the same. -/
structure SameNotes (s s' : PassState) : Prop where
  parsing : s'.parsing = s.parsing
  running : s'.running = s.running
  cmdRoot : s'.cmdRoot = s.cmdRoot
  refactoring : s'.refactoringCmdDeleteRoot = s.refactoringCmdDeleteRoot
  cmdDelete : s'.cmdDeleteRoot = s.cmdDeleteRoot
  genDelete : s'.genDeleteRoot = s.genDeleteRoot
  save : s'.saveRoot = s.saveRoot
  normalDir : s'.normalDirRoot = s.normalDirRoot

theorem SameNotes.refl (s : PassState) : SameNotes s s := ⟨rfl, rfl, rfl, rfl, rfl, rfl, rfl, rfl⟩

theorem SameNotes.trans {s s₁ s₂ : PassState} (h : SameNotes s s₁) (h₁ : SameNotes s₁ s₂) :
    SameNotes s s₂ :=
  ⟨h₁.parsing.trans h.parsing, h₁.running.trans h.running, h₁.cmdRoot.trans h.cmdRoot,
    h₁.refactoring.trans h.refactoring, h₁.cmdDelete.trans h.cmdDelete,
    h₁.genDelete.trans h.genDelete, h₁.save.trans h.save, h₁.normalDir.trans h.normalDir⟩

section

variable {db db' : Db} {s s' : PassState} {i o c dt : TupId} {name : Text}

@[simp] theorem PassState.write_db (s : PassState) (db : Db) : (s.write db).db = db := rfl

@[simp] theorem PassState.setDb_db (s : PassState) (db : Db) : (s.setDb db).db = db := rfl

@[simp] theorem PassState.write_self (s : PassState) : s.write s.db = s := by
  simp [PassState.write, PassState.setDb, PassState.db]

theorem sameNotes_write (s : PassState) (db : Db) : SameNotes s (s.write db) :=
  ⟨rfl, rfl, rfl, rfl, rfl, rfl, rfl, rfl⟩

theorem SameRows.select (h : SameRows db db') (dt : TupId) (name : Text) :
    tupDbSelectTent db' dt name = tupDbSelectTent db dt name := by
  unfold tupDbSelectTent
  rw [h.node]

theorem SameRows.tupEntryAdd (h : SameRows db db') (i : TupId) :
    tupEntryAdd db' i = tupEntryAdd db i := by
  unfold Metatup.tupEntryAdd
  rw [h.node]

theorem SameRows.normalAdj (h : SameRows db db') (a b : TupId) :
    NormalAdj db' a b ↔ NormalAdj db a b := by
  unfold NormalAdj
  rw [h.normalLink]

theorem SameRows.isGroup (h : SameRows db db') (i : TupId) : db'.isGroup i = db.isGroup i :=
  isGroup_congr h.node i

theorem SameRows.getNormalInputs (h : SameRows db db') (i : TupId) :
    getNormalInputs db' i = getNormalInputs db i := by
  unfold Metatup.getNormalInputs
  rw [h.normalLink]
  simp only [h.tupEntryAdd]

theorem SameRows.sound (h : SameRows db db') (hs : db.Sound) : db'.Sound := by
  apply hs.shrinks
  apply Shrinks.of_keepsRows
  exact .of_eq h.node h.normalLink h.stickyLink

/-- Looking up the command of an output only fills the cache. -/
theorem Steady.lookup (h : Steady db s) {link : LinkState} {owner : Option TupId}
    (hget : tupDbGetIncomingLink s.link o = some (link, owner)) :
    link.db = s.db ∧ Steady db { s with link := link } ∧ ∀ x, NormalAdj db x o ↔ owner = some x := by
  obtain ⟨hdb, hinc, hnone, hsome⟩ := tupDbGetIncomingLink_spec hget
  have howner : ∀ x, NormalAdj db x o ↔ owner = some x := by
    intro x
    cases ho : s.link.incoming o with
    | none => exact (h.rows.normalAdj x o).symm.trans (hnone ho x)
    | some c =>
      rw [h.incoming o c ho x, hsome c ho, Option.some.injEq, eq_comm]
  have hdb' : link.db = s.db := hdb
  refine ⟨hdb', ⟨?_, ?_, h.changes, ?_⟩, howner⟩
  · have hrows := h.rows
    rw [← hdb'] at hrows
    exact hrows
  · have hvar := h.variants
    rw [← hdb'] at hvar
    exact hvar
  · intro o' c hc x
    rw [hinc] at hc
    by_cases heq : o' = o
    · subst heq
      rw [Function.update_self] at hc
      rw [howner, hc, Option.some.injEq, eq_comm]
    · rw [Function.update_of_ne heq] at hc
      exact h.incoming o' c hc x

theorem need_eq_ok {α : Type} {x : Option α} {a : α} : need x = .ok a ↔ x = some a := by
  cases x with
  | none => exact ⟨fun h => (by cases h), fun h => (by cases h)⟩
  | some b => exact ⟨fun h => by cases h; rfl, fun h => by cases h; rfl⟩

/-! ### Asking for the nodes of the outputs -/

/-- The node is as the row wants it. -/
structure Settles (db : Db) (row t : TupEntry) : Prop where
  type : t.type = row.type
  srcid : row.srcid = -1 ∨ t.srcid = row.srcid
  flags : t.flags = row.flags
  variant : t.type = .ghost → ∀ v ∈ db.variants, v.dtnode ≠ t.tupid

theorem requestNode_settles {env : PassEnv} {row t : TupEntry} {b : Bool} (hk : Steady db s)
    (hsel : tupDbSelectTent db row.dt row.name = some t) (hset : Settles db row t)
    (h : requestNode env s row = .ok (s', i, b)) : s' = s ∧ i = t.tupid ∧ b = false := by
  obtain ⟨⟨db', i', b'⟩, hrun, h⟩ := bind_eq_ok.1 h
  have hsel' := hsel
  rw [← hk.rows.select] at hsel'
  obtain ⟨-, -, htname⟩ := mem_of_tupDbSelectTent hsel
  have hc := need_eq_ok.1 hrun
  have hsame : db' = s.db ∧ i' = t.tupid ∧ b' = false := by
    cases hfuel : env.fuel with
    | zero =>
      rw [hfuel] at hc
      cases hc
    | succ fuel =>
      rw [hfuel, tupDbCreateNodePartDisplay, hsel'] at hc
      dsimp only at hc
      split at hc
      · next hghost =>
        rw [← hset.type, hghost] at hc
        cases hc
        have hvar : s.db.variants.filter (fun v => decide (v.dtnode ≠ t.tupid)) =
            s.db.variants := by
          rw [List.filter_eq_self]
          intro v hv
          rw [hk.variants] at hv
          exact decide_eq_true (hset.variant hghost v hv)
        have hdb : { s.db with variants := s.db.variants.filter (·.dtnode ≠ t.tupid) } = s.db := by
          rw [hvar]
        exact ⟨hdb, rfl, rfl⟩
      rw [if_neg (by simp [hset.type])] at hc
      unfold refreshNode respellNode at hc
      have hsrc : ¬ (row.srcid ≠ -1 ∧ t.srcid ≠ row.srcid) := by
        have := hset.srcid
        tauto
      simp only [hsrc, htname, hset.flags, ne_eq, not_true_eq_false, if_false,
        Option.bind_eq_bind, Option.bind_some, decide_false] at hc
      split at hc
      · cases hc
      · cases hc
        exact ⟨rfl, rfl, rfl⟩
  obtain ⟨rfl, rfl, rfl⟩ := hsame
  rw [hsel'] at h
  cases h
  refine ⟨?_, rfl, rfl⟩
  simp

theorem requestNode_lessens {env : PassEnv} {row : TupEntry} {b : Bool} (htype : row.type ≠ .cmd)
    (h : requestNode env s row = .ok (s', i, b)) : Lessens s.db s'.db ∧ SameNotes s s' := by
  obtain ⟨⟨db', i', b'⟩, hrun, h⟩ := bind_eq_ok.1 h
  have hless := lessens_create htype (need_eq_ok.1 hrun)
  cases h
  split
  · exact ⟨hless, ⟨rfl, rfl, rfl, rfl, rfl, rfl, rfl, rfl⟩⟩
  · exact ⟨hless, sameNotes_write s _⟩

theorem requestNode_unlinked {env : PassEnv} {row : TupEntry} {b : Bool} (hs : s.db.Sound)
    (htype : row.type ≠ .cmd)
    (hun : ∀ t, tupDbSelectTent s.db row.dt row.name = some t → ¬ NormalAdj s.db c t.tupid)
    (h : requestNode env s row = .ok (s', i, b)) : ¬ NormalAdj s'.db c i := by
  obtain ⟨⟨db', i', b'⟩, hrun, h⟩ := bind_eq_ok.1 h
  have hnot := unlinked_create hs htype hun (need_eq_ok.1 hrun)
  cases h
  split
  · exact hnot
  · exact hnot

end

/-! ### The outputs of a rule -/

section

variable {env : PassEnv} {dt c : TupId} {flags : Text} {spec : OutputSpec} {db : Db}
  {out out' m : RuleOutputs} {s s' : PassState}

theorem type_row (env : PassEnv) (dt : TupId) (flags : Text) (spec : OutputSpec) :
    (spec.row env dt flags).type ≠ .cmd := by
  cases spec <;> simp [OutputSpec.row]

theorem validateOutput_spec {name : Text} (h : validateOutput env s dt name = .ok s') :
    s'.db = s.db ∧ SameNotes s s' ∧ ∀ db, Steady db s → Steady db s' := by
  unfold validateOutput at h
  split at h
  · cases h
    exact ⟨rfl, .refl s, fun _ => id⟩
  · next tent hsel =>
    split at h
    · obtain ⟨⟨link, owner⟩, hget, h⟩ := bind_eq_ok.1 h
      have hc := need_eq_ok.1 hget
      obtain ⟨hdb, -⟩ := tupDbGetIncomingLink_spec hc
      dsimp only at h
      split at h
      · cases h
        exact ⟨hdb, ⟨rfl, rfl, rfl, rfl, rfl, rfl, rfl, rfl⟩, fun db hs => (hs.lookup hc).2.1⟩
      · cases h
    · cases h

/-- An entry asks for one node and notes it. -/
structure Requested (env : PassEnv) (dt : TupId) (flags : Text) (out : RuleOutputs)
    (spec : OutputSpec) (out' : RuleOutputs) (s : PassState) (i : TupId) (b : Bool) : Prop where
  db : s.db = out.state.db
  notes : SameNotes out.state s
  steady : ∀ db, Steady db out.state → Steady db s
  request : requestNode env s (spec.row env dt flags) = .ok (out'.state, i, b)
  modified : b = false → out'.commandModified = out.commandModified
  group : ∀ g, out'.group = some g ↔
    out.group = some g ∨ (spec.row env dt flags).type = .group ∧ g = i
  exclusion : ∀ j, j ∈ out'.exclusionRoot ↔
    j ∈ out.exclusionRoot ∨ (spec.row env dt flags).type = .ghost ∧ j = i
  output : ∀ j, j ∈ out'.outputRoot ↔
    j ∈ out.outputRoot ∨ (spec.row env dt flags).type = .generated ∧ j = i
  onl : ∀ j, j ∈ out'.onl ↔ j ∈ out.onl ∨ (spec.row env dt flags).type = .generated ∧ j = i

theorem doRuleOutput_requested (h : doRuleOutput env dt flags out spec = .ok out') :
    ∃ s i b, Requested env dt flags out spec out' s i b := by
  unfold doRuleOutput at h
  cases spec with
  | group gdt name =>
    dsimp only at h
    split at h
    · cases h
    next hnone =>
    obtain ⟨⟨s, g, b⟩, hreq, h⟩ := bind_eq_ok.1 h
    cases h
    rw [Bool.not_eq_true, Option.isSome_eq_false_iff, Option.isNone_iff_eq_none] at hnone
    refine ⟨out.state, g, b, rfl, .refl _, fun _ => id, hreq, fun _ => rfl, ?_, ?_, ?_, ?_⟩
    · intro g'
      simp [OutputSpec.row, hnone, eq_comm]
    all_goals simp [OutputSpec.row]
  | exclusion name =>
    obtain ⟨⟨s, i, b⟩, hreq, h⟩ := bind_eq_ok.1 h
    obtain ⟨root, hroot, h⟩ := bind_eq_ok.1 h
    cases h
    have hadd := need_eq_ok.1 hroot
    refine ⟨out.state, i, b, rfl, .refl _, fun _ => id, hreq, fun _ => rfl, ?_, ?_, ?_, ?_⟩
    · simp [OutputSpec.row]
    · intro j
      simp [mem_of_tentTreeAdd hadd, OutputSpec.row, or_comm]
    all_goals simp [OutputSpec.row]
  | file fdt base path =>
    dsimp only at h
    split at h
    · cases h
    obtain ⟨s, hval, h⟩ := bind_eq_ok.1 h
    obtain ⟨⟨s', i, b⟩, hreq, h⟩ := bind_eq_ok.1 h
    obtain ⟨root, hroot, h⟩ := bind_eq_ok.1 h
    cases h
    have hadd := need_eq_ok.1 hroot
    obtain ⟨hdb, hnotes, hsteady⟩ := validateOutput_spec hval
    refine ⟨s, i, b, hdb, hnotes, hsteady, hreq, ?_, ?_, ?_, ?_, ?_⟩
    · rintro rfl
      simp
    · simp [OutputSpec.row]
    · simp [OutputSpec.row]
    · intro j
      simp [mem_of_tentTreeAdd hadd, OutputSpec.row, or_comm]
    · intro j
      simp [OutputSpec.row]

/-- Nothing has changed, and the nodes are of the types that the rule wants. -/
structure SteadyOutputs (db : Db) (out : RuleOutputs) : Prop where
  state : Steady db out.state
  notModified : out.commandModified = false
  group : ∀ g, out.group = some g → ∃ t ∈ db.node, t.tupid = g ∧ t.type = .group
  exclusion : ∀ i ∈ out.exclusionRoot, ∃ t ∈ db.node, t.tupid = i ∧ t.type = .ghost
  onl : ∀ i, i ∈ out.outputRoot ↔ i ∈ out.onl

/-- The node is an output, an exclusion or the group of the rule. -/
def RuleOutputs.Has (out : RuleOutputs) (i : TupId) : Prop :=
  i ∈ out.outputRoot ∨ i ∈ out.exclusionRoot ∨ out.group = some i

/-- The command has no link to some output. -/
def Doomed (c : TupId) (out : RuleOutputs) : Prop := ∃ i, out.Has i ∧ ¬ NormalAdj out.state.db c i

/-- Outputs that come in addition, and links that go. -/
structure Further (out out' : RuleOutputs) : Prop where
  lessens : Lessens out.state.db out'.state.db
  notes : SameNotes out.state out'.state
  has : ∀ i, out.Has i → out'.Has i

theorem Further.refl (out : RuleOutputs) : Further out out := ⟨.refl _, .refl _, fun _ => id⟩

theorem Further.trans (h : Further out m) (h₁ : Further m out') : Further out out' :=
  ⟨h.lessens.trans h₁.lessens, h.notes.trans h₁.notes, fun i hi => h₁.has i (h.has i hi)⟩

theorem Doomed.further (h : Doomed c out) (hf : Further out out') : Doomed c out' := by
  obtain ⟨i, hi, hnot⟩ := h
  exact ⟨i, hf.has i hi, fun hadj => hnot (hf.lessens.normalAdj hadj)⟩

theorem doRuleOutput_further (h : doRuleOutput env dt flags out spec = .ok out') :
    Further out out' := by
  obtain ⟨s, i, b, hreq⟩ := doRuleOutput_requested h
  obtain ⟨hless, hnotes⟩ := requestNode_lessens (type_row env dt flags spec) hreq.request
  refine ⟨hreq.db ▸ hless, hreq.notes.trans hnotes, ?_⟩
  rintro j (hj | hj | hj)
  · exact .inl ((hreq.output j).2 (.inl hj))
  · exact .inr (.inl ((hreq.exclusion j).2 (.inl hj)))
  · exact .inr (.inr ((hreq.group j).2 (.inl hj)))

/-- One entry: nothing changes, or its node is no output of the command. -/
theorem doRuleOutput_steady (hs : db.Sound) (hout : SteadyOutputs db out)
    (hguard : ∀ t, tupDbSelectTent db (spec.row env dt flags).dt (spec.row env dt flags).name =
      some t → NormalAdj db c t.tupid → Settles db (spec.row env dt flags) t)
    (h : doRuleOutput env dt flags out spec = .ok out') :
    SteadyOutputs db out' ∨ Doomed c out' := by
  obtain ⟨s, i, b, hreq⟩ := doRuleOutput_requested h
  have hst := hreq.steady db hout.state
  by_cases hlinked : ∃ t, tupDbSelectTent db (spec.row env dt flags).dt
      (spec.row env dt flags).name = some t ∧ NormalAdj db c t.tupid
  · obtain ⟨t, hsel, hadj⟩ := hlinked
    have hset := hguard t hsel hadj
    obtain ⟨hstate, rfl, rfl⟩ := requestNode_settles hst hsel hset hreq.request
    have htmem := (mem_of_tupDbSelectTent hsel).1
    refine .inl ⟨hstate ▸ hst, (hreq.modified rfl).trans hout.notModified, ?_, ?_, ?_⟩
    · intro g hg
      rcases (hreq.group g).1 hg with hg | ⟨htype, rfl⟩
      · exact hout.group g hg
      · exact ⟨t, htmem, rfl, hset.type.trans htype⟩
    · intro j hj
      rcases (hreq.exclusion j).1 hj with hj | ⟨htype, rfl⟩
      · exact hout.exclusion j hj
      · exact ⟨t, htmem, rfl, hset.type.trans htype⟩
    · intro j
      rw [hreq.output, hreq.onl, hout.onl]
  · have hun : ∀ t, tupDbSelectTent s.db (spec.row env dt flags).dt
        (spec.row env dt flags).name = some t → ¬ NormalAdj s.db c t.tupid := by
      intro t hsel hadj
      rw [hst.rows.select] at hsel
      exact hlinked ⟨t, hsel, (hst.rows.normalAdj _ _).1 hadj⟩
    refine .inr ⟨i, ?_, requestNode_unlinked (hst.rows.sound hs) (type_row env dt flags spec) hun
      hreq.request⟩
    unfold RuleOutputs.Has
    rw [hreq.output, hreq.exclusion, hreq.group]
    cases spec <;> simp [OutputSpec.row]

theorem foldlM_further {l : List OutputSpec} (h : l.foldlM (doRuleOutput env dt flags) out = .ok out') :
    Further out out' := by
  induction l generalizing out with
  | nil =>
    cases h
    exact .refl _
  | cons spec l ih =>
    rw [List.foldlM_cons] at h
    obtain ⟨m, hm, h⟩ := bind_eq_ok.1 h
    exact (doRuleOutput_further hm).trans (ih h)

theorem foldlM_steady {l : List OutputSpec} (hs : db.Sound)
    (hguard : ∀ spec ∈ l, ∀ t,
      tupDbSelectTent db (spec.row env dt flags).dt (spec.row env dt flags).name = some t →
        NormalAdj db c t.tupid → Settles db (spec.row env dt flags) t)
    (hout : SteadyOutputs db out ∨ Doomed c out)
    (h : l.foldlM (doRuleOutput env dt flags) out = .ok out') :
    SteadyOutputs db out' ∨ Doomed c out' := by
  induction l generalizing out with
  | nil =>
    cases h
    exact hout
  | cons spec l ih =>
    rw [List.foldlM_cons] at h
    obtain ⟨m, hm, h⟩ := bind_eq_ok.1 h
    refine ih (fun x hx => hguard x (List.mem_cons_of_mem _ hx)) ?_ h
    rcases hout with hout | hout
    · exact doRuleOutput_steady hs hout (hguard spec List.mem_cons_self) hm
    · exact .inr (hout.further (doRuleOutput_further hm))

variable {r : RuleSpec} {onl : List TupId}

theorem doRuleOutputs_further (h : doRuleOutputs env dt r s = .ok (out, onl)) :
    Further { state := s } out := by
  obtain ⟨first, hfirst, h⟩ := bind_eq_ok.1 h
  obtain ⟨all, hall, h⟩ := bind_eq_ok.1 h
  cases h
  exact (foldlM_further hfirst).trans (foldlM_further hall)

/-- The output lists of a rule. -/
theorem doRuleOutputs_steady (hs : db.Sound) (hst : Steady db s)
    (hguard : ∀ spec ∈ r.outputs ++ r.extraOutputs, ∀ t,
      tupDbSelectTent db (spec.row env dt r.flags).dt (spec.row env dt r.flags).name = some t →
        NormalAdj db c t.tupid → Settles db (spec.row env dt r.flags) t)
    (h : doRuleOutputs env dt r s = .ok (out, onl)) : SteadyOutputs db out ∨ Doomed c out := by
  obtain ⟨first, hfirst, h⟩ := bind_eq_ok.1 h
  obtain ⟨all, hall, h⟩ := bind_eq_ok.1 h
  cases h
  have hstart : SteadyOutputs db { state := s } := by
    refine ⟨hst, rfl, ?_, ?_, ?_⟩
    · intro g hg
      cases hg
    · intro i hi
      exact absurd hi (TentTree.not_mem_empty i)
    · intro i
      simp
  apply foldlM_steady hs (fun x hx => hguard x (List.mem_append_right _ hx)) _ hall
  exact foldlM_steady hs (fun x hx => hguard x (List.mem_append_left _ hx)) (.inl hstart) hfirst

end

end Metatup
