import Metatup.Db.RuleEdits
import Metatup.Lib.Lts

/-!
# Group links

The group links of the commands, their links to a group and those of their outputs have to agree.
Three functions keep them in step, and a run mixes evaluations of rules with deletions of commands.

* `GroupLinksOk`: what has to hold of the three tables.
* `LinkInv`: what holds of every state of a run as long as it does.
* `Evaluated.ok_iff`: an evaluation keeps it exactly when no output is stuck in an old group.
* `group_links_ok_iff`: the same for whole runs.
-/

namespace Metatup

open Lib

/-- A node that is neither a group nor an output exclusion nor a command: an output of a rule. -/
structure IsOutput (exclusionDt : TupId) (db : Db) (i : TupId) : Prop where
  notGroup : db.isGroup i = false
  notExclusion : db.isExclusion exclusionDt i = false
  notCmd : db.isCmd i = false

/-- The group links follow from the groups a command reads and the one it writes to, which is one at
most, and the outputs of a command are in its group. -/
structure GroupLinksOk (exclusionDt : TupId) (db : Db) : Prop where
  groupLink : ∀ a b c, db.Has (.group a b c) ↔
    (db.isGroup a = true ∧ db.isCmd c = true ∧ db.Has (.sticky a c)) ∧
      db.isGroup b = true ∧ NormalAdj db c b
  oneGroup : ∀ c g g', db.isCmd c = true → db.isGroup g = true → db.isGroup g' = true →
    NormalAdj db c g → NormalAdj db c g' → g = g'
  outputs : ∀ c o, db.isCmd c = true → NormalAdj db c o → db.isGroup o = false →
    db.isExclusion exclusionDt o = false → ∀ g, db.isGroup g = true →
      (NormalAdj db o g ↔ NormalAdj db c g)

/-- What the parser has seen to before it writes the links of a rule. -/
structure Evaluation.Ok (exclusionDt : TupId) (db : Db) (e : Evaluation) : Prop where
  cmd : db.isCmd e.cmdid = true
  outputs : ∀ o ∈ e.outputs, (tupEntryAdd db o).isSome = true ∧ IsOutput exclusionDt db o
  exclusions : ∀ x ∈ e.exclusionRoot, db.isGroup x = false ∧ db.isCmd x = false ∧
    db.isExclusion exclusionDt x = true
  group : ∀ g, e.group = some g → db.isGroup g = true
  inputs : ∀ i ∈ e.inputRoot, (tupEntryAdd db i).isSome = true
  env : ∀ i ∈ e.envRoot, (tupEntryAdd db i).isSome = true ∧ db.isCmd i = false

/-- What other code may do between two of these calls: it may set flags, and create nodes and change
them, but a node stays or becomes neither a group, nor a command, nor an output exclusion. -/
structure KeepsLinks (exclusionDt : TupId) (db db' : Db) : Prop where
  mem : ∀ r, db'.Has r ↔ db.Has r
  node : ∀ i, (tupEntryAdd db i).isSome = true → (tupEntryAdd db' i).isSome = true ∧
    db'.isGroup i = db.isGroup i ∧ db'.isCmd i = db.isCmd i ∧
      db'.isExclusion exclusionDt i = db.isExclusion exclusionDt i

/-- What happens to the links. -/
inductive LinkEvent
  | other (db : Db)
  | evaluate (e : Evaluation)
  /-- The parser asks for the command of an output. -/
  | lookup (o : TupId)
  /-- Another process goes on, with no entry cached. -/
  | restart
  /-- A command is deleted. -/
  | delete (c : TupId)

/-- One event. -/
inductive LinkStep (exclusionDt : TupId) : LinkState → LinkEvent → LinkState → Prop
  | other {s : LinkState} {db : Db} : KeepsLinks exclusionDt s.db db →
      LinkStep exclusionDt s (.other db) { s with db := db }
  | evaluate {s s' : LinkState} {e : Evaluation} : e.Ok exclusionDt s.db →
      evaluate exclusionDt s e = some s' → LinkStep exclusionDt s (.evaluate e) s'
  | lookup {s s' : LinkState} {o : TupId} {c : Option TupId} : IsOutput exclusionDt s.db o →
      tupDbGetIncomingLink s o = some (s', c) → LinkStep exclusionDt s (.lookup o) s'
  | restart {s : LinkState} : LinkStep exclusionDt s .restart { s with incoming := fun _ => none }
  | delete {s : LinkState} {c : TupId} {db : Db} : s.db.isCmd c = true →
      tupDbDeleteLinks s.db c = some db → LinkStep exclusionDt s (.delete c) { s with db := db }

/-- What holds of every state: the tables agree, a link joins two nodes, of which one is the command
that it is about or the second is a group, an output has one command, and a cached entry does not
name a wrong command, though perhaps one that no longer produces the output. -/
structure LinkInv (exclusionDt : TupId) (s : LinkState) : Prop where
  ok : GroupLinksOk exclusionDt s.db
  normalEnds : ∀ a b, NormalAdj s.db a b →
    (tupEntryAdd s.db a).isSome = true ∧ (tupEntryAdd s.db b).isSome = true
  stickyEnds : ∀ a b, s.db.Has (.sticky a b) →
    (tupEntryAdd s.db a).isSome = true ∧ (tupEntryAdd s.db b).isSome = true
  fromCmd : ∀ a b, NormalAdj s.db a b → s.db.isCmd a = true → s.db.isCmd b = false
  toFile : ∀ a b, NormalAdj s.db a b → s.db.isGroup b = false → s.db.isCmd b = false →
    s.db.isCmd a = true
  oneCmd : ∀ a a' o, IsOutput exclusionDt s.db o → NormalAdj s.db a o → NormalAdj s.db a' o → a = a'
  cached : ∀ o c a, IsOutput exclusionDt s.db o → s.incoming o = some c → NormalAdj s.db a o → a = c
  cachedEnds : ∀ o c, s.incoming o = some c →
    (tupEntryAdd s.db o).isSome = true ∧ s.db.isCmd c = true

/-- No output of the rule is stuck: its entry names a command that still produces it, or one that is
not the command of the rule and is in every group the output is in. -/
def Evaluation.Releases (s : LinkState) (e : Evaluation) : Prop :=
  ∀ o ∈ e.outputs, ∀ g, s.db.isGroup g = true → NormalAdj s.db o g → ¬ StaleFor e.cmdid s o g

variable {exclusionDt : TupId} {s s' : LinkState} {e : Evaluation}

/-! ### Taking the outputs -/

/-- What the calls of `tup_db_create_unique_link` for all outputs of the rule leave. -/
structure OutputsTaken (a : TupId) (s : LinkState) (L : List TupId) (s' : LinkState) : Prop where
  node : s'.db.node = s.db.node
  sticky : ∀ x y, s'.db.Has (.sticky x y) ↔ s.db.Has (.sticky x y)
  groupLink : ∀ x y z, s'.db.Has (.group x y z) ↔ s.db.Has (.group x y z)
  other : ∀ x y, x ∉ L → y ∉ L → (NormalAdj s'.db x y ↔ NormalAdj s.db x y)
  into : ∀ o ∈ L, ∀ x, NormalAdj s'.db x o ↔ NormalAdj s.db x o ∧ x = a
  outOf : ∀ o ∈ L, ∀ y, y ∉ L → (NormalAdj s'.db o y ↔ NormalAdj s.db o y ∧
    (s.db.isGroup y = true → NormalAdj s.db a o ∨ StaleFor a s o y))
  incoming : ∀ x, x ∉ L → s'.incoming x = s.incoming x
  incoming_self : ∀ o ∈ L, s'.incoming o = none ∨ s'.incoming o = some a

theorem OutputsTaken.snoc {a x : TupId} {pre : List TupId} {m m' : LinkState}
    (hinv : LinkInv exclusionDt s) (hpre : ∀ o ∈ pre, IsOutput exclusionDt s.db o)
    (hx : IsOutput exclusionDt s.db x) (hxpre : x ∉ pre) (h : OutputsTaken a s pre m)
    (hstep : tupDbCreateUniqueLink a m x = some m') : OutputsTaken a s (pre ++ [x]) m' := by
  have hout : ∀ o, IsOutput exclusionDt s.db o → ∀ y, IsOutput exclusionDt s.db y →
      ¬ NormalAdj s.db o y := by
    intro o ho y hy hadj
    have := hinv.toFile o y hadj hy.notGroup hy.notCmd
    rw [ho.notCmd] at this
    cases this
  have hcmd : ∀ c, s.db.isCmd c = true → c ∉ pre := by
    intro c hc hcpre
    rw [(hpre c hcpre).notCmd] at hc
    cases hc
  have hgrp : ∀ g, s.db.isGroup g = true → g ∉ pre := by
    intro g hg hgpre
    rw [(hpre g hgpre).notGroup] at hg
    cases hg
  have hinto : ∀ y, NormalAdj m.db y x ↔ NormalAdj s.db y x := by
    intro y
    by_cases hy : y ∈ pre
    · have h1 := hout y (hpre y hy) x hx
      rw [h.outOf y hy x hxpre]
      simp [h1]
    · exact h.other y x hy hxpre
  have hcmdOf : ∀ c, NormalAdj s.db c x → s.db.isCmd c = true :=
    fun c hc => hinv.toFile c x hc hx.notGroup hx.notCmd
  have ht : Taken a m m' x := by
    apply tupDbCreateUniqueLink_spec _ _ hstep
    · intro c g hc hg
      rw [isGroup_congr h.node] at hg
      rw [hinto] at hc
      rw [h.other x g hxpre (hgrp g hg), h.other c g (hcmd c (hcmdOf c hc)) (hgrp g hg)]
      exact hinv.ok.outputs c x (hcmdOf c hc) hc hx.notGroup hx.notExclusion g hg
    · intro c y hc hy
      rw [h.incoming x hxpre] at hc
      exact hinv.cached x c y hx hc ((hinto y).1 hy)
  have hstale : ∀ y, s.db.isGroup y = true → (StaleFor a m x y ↔ StaleFor a s x y) := by
    intro y hy
    unfold StaleFor
    rw [h.incoming x hxpre]
    apply exists_congr
    intro c
    apply and_congr_right
    intro hc
    have hcc := hcmd c (hinv.cachedEnds x c hc).2
    rw [hinto, h.other c y hcc (hgrp y hy)]
  refine ⟨ht.node.trans h.node, ?_, ?_, ?_, ?_, ?_, ?_, ?_⟩
  · intro y z
    rw [ht.sticky, h.sticky]
  · intro y z w
    rw [ht.group, h.groupLink]
  · intro y z hy hz
    simp only [List.mem_append, List.mem_singleton, not_or] at hy hz
    rw [ht.other y z hy.2 hz.2, h.other y z hy.1 hz.1]
  · intro o ho y
    rcases List.mem_append.1 ho with ho | ho
    · have hox : o ≠ x := fun heq => hxpre (heq ▸ ho)
      by_cases hyx : y = x
      · have h1 := hout x hx o (hpre o ho)
        rw [hyx, ht.outOf o hox, h.into o ho]
        simp [h1]
      · rw [ht.other y o hyx hox, h.into o ho]
    · rw [List.mem_singleton.1 ho, ht.into, hinto]
  · intro o ho y hy
    simp only [List.mem_append, List.mem_singleton, not_or] at hy
    rcases List.mem_append.1 ho with ho | ho
    · have hox : o ≠ x := fun heq => hxpre (heq ▸ ho)
      rw [ht.other o y hox hy.2, h.outOf o ho y hy.1]
    · rw [List.mem_singleton.1 ho, ht.outOf y hy.2, h.other x y hxpre hy.1, isGroup_congr h.node,
        hinto]
      apply and_congr_right
      intro _
      apply forall_congr'
      intro hg
      rw [hstale y hg]
  · intro y hy
    simp only [List.mem_append, List.mem_singleton, not_or] at hy
    rw [ht.incoming y hy.2, h.incoming y hy.1]
  · intro o ho
    rcases List.mem_append.1 ho with ho | ho
    · have hox : o ≠ x := fun heq => hxpre (heq ▸ ho)
      rw [ht.incoming o hox]
      exact h.incoming_self o ho
    · rw [List.mem_singleton.1 ho]
      exact ht.incoming_self

theorem outputsTaken {a : TupId} {L : List TupId} (hinv : LinkInv exclusionDt s) (hnd : L.Nodup)
    (hL : ∀ o ∈ L, IsOutput exclusionDt s.db o)
    (h : L.foldlM (tupDbCreateUniqueLink a) s = some s') : OutputsTaken a s L s' := by
  apply foldlM_keeps h
  · refine ⟨rfl, fun _ _ => .rfl, fun _ _ _ => .rfl, fun _ _ _ _ => .rfl, ?_, ?_, fun _ _ => rfl,
      ?_⟩
    · exact fun o ho => absurd ho List.not_mem_nil
    · exact fun o ho => absurd ho List.not_mem_nil
    · exact fun o ho => absurd ho List.not_mem_nil
  · rintro pre x post m m' rfl hm hstep
    have hx : x ∉ pre := by
      rw [List.nodup_middle, List.nodup_cons] at hnd
      exact fun hx => hnd.1 (List.mem_append_left post hx)
    exact hm.snoc hinv (fun o ho => hL o (List.mem_append_left _ ho)) (hL x (by simp)) hx hstep

/-! ### One evaluation -/

/-- What the evaluation of a rule leaves. -/
structure Evaluated (exclusionDt : TupId) (s : LinkState) (e : Evaluation) (s' : LinkState) :
    Prop where
  node : s'.db.node = s.db.node
  sticky : ∀ x y, s'.db.Has (.sticky x y) ↔
    y ≠ e.cmdid ∧ s.db.Has (.sticky x y) ∨ y = e.cmdid ∧ x ∈ e.inputRoot
  otherGroup : ∀ x y z, z ≠ e.cmdid → (s'.db.Has (.group x y z) ↔ s.db.Has (.group x y z))
  groupLink : ∀ x y, s'.db.Has (.group x y e.cmdid) ↔
    x ∈ e.inputRoot ∧ s.db.isGroup x = true ∧ e.group = some y
  ofCmd : ∀ y, y ≠ e.cmdid → (NormalAdj s'.db e.cmdid y ↔
    y ∈ e.outputs ∨ y ∈ e.exclusionRoot ∨ e.group = some y)
  toCmd : ∀ x, NormalAdj s'.db x e.cmdid → NormalAdj s.db x e.cmdid ∨ x ∈ e.envRoot
  toOutput : ∀ o ∈ e.outputs, ∀ x, x ≠ e.cmdid → ¬ NormalAdj s'.db x o
  ofOutput : ∀ o ∈ e.outputs, ∀ y, y ≠ e.cmdid → s.db.isGroup y = false → NormalAdj s'.db o y →
    NormalAdj s.db o y
  outputGroup : ∀ o ∈ e.outputs, ∀ g, s.db.isGroup g = true → (NormalAdj s'.db o g ↔
    e.group = some g ∨ NormalAdj s.db o g ∧ StaleFor e.cmdid s o g)
  other : ∀ x y, x ∉ e.outputs → y ∉ e.outputs → x ≠ e.cmdid → y ≠ e.cmdid →
    (NormalAdj s'.db x y ↔ NormalAdj s.db x y ∧ ¬ (NormalAdj s.db e.cmdid x ∧
      s.db.isGroup x = false ∧ s.db.isExclusion exclusionDt x = false ∧ s.db.isGroup y = true))
  fresh : ∀ o ∈ e.outputs, ∀ g, e.group = some g → NormalAdj s.db o g →
    ¬ StaleFor e.cmdid s o g
  incoming : ∀ x, x ∉ e.outputs → s'.incoming x = s.incoming x
  incoming_self : ∀ o ∈ e.outputs, s'.incoming o = none ∨ s'.incoming o = some e.cmdid

theorem nodup_of_foldlM_tentTreeAdd {l : List TupId} {t : TentTree}
    (h : l.foldlM tentTreeAdd ∅ = some t) : l.Nodup := by
  have key := foldlM_keeps (P := fun pre t => pre.Nodup ∧ ∀ i, i ∈ t ↔ i ∈ pre) h (by simp) (by
    rintro pre x post m m' - ⟨hnd, hmem⟩ hm
    have hx : x ∉ m := by
      intro hx
      unfold tentTreeAdd at hm
      simp [hx] at hm
    refine ⟨?_, ?_⟩
    · rw [List.nodup_append_comm, List.singleton_append, List.nodup_cons, ← hmem]
      exact ⟨hx, hnd⟩
    · intro i
      rw [mem_of_tentTreeAdd hm, hmem, List.mem_append, List.mem_singleton, or_comm])
  exact key.1

/-- A stale entry of an output excludes that a command produces it. -/
theorem LinkInv.not_stale {a o g : TupId} (hinv : LinkInv exclusionDt s)
    (ho : IsOutput exclusionDt s.db o) (hao : NormalAdj s.db a o) : ¬ StaleFor a s o g := by
  rintro ⟨c, hc, hco, -⟩
  rw [← hinv.cached o c a ho hc hao] at hco
  exact hco hao

theorem evaluate_spec (hinv : LinkInv exclusionDt s) (he : e.Ok exclusionDt s.db)
    (h : evaluate exclusionDt s e = some s') : Evaluated exclusionDt s e s' := by
  obtain ⟨cmdtent, hcmdtent, h₀⟩ := Option.bind_eq_some_iff.1 h
  obtain ⟨root, hroot, h₁⟩ := Option.bind_eq_some_iff.1 h₀
  obtain ⟨s₁, htake, h₂⟩ := Option.bind_eq_some_iff.1 h₁
  obtain ⟨⟨db₂, old⟩, hwo, h₃⟩ := Option.bind_eq_some_iff.1 h₂
  obtain ⟨db₃, hwi, h₄⟩ := Option.bind_eq_some_iff.1 h₃
  cases h₄
  have hid : cmdtent.tupid = e.cmdid := (mem_node_of_tupEntryAdd hcmdtent).2
  have hmem : ∀ o, o ∈ root ↔ o ∈ e.outputs := fun o => mem_foldlM_tentTreeAdd hroot
  have hout := fun o ho => (he.outputs o ho).2
  have ht := outputsTaken hinv (nodup_of_foldlM_tentTreeAdd hroot) hout htake
  have hgrpNot : ∀ g, s.db.isGroup g = true → g ∉ e.outputs := by
    intro g hg hgo
    rw [(hout g hgo).notGroup] at hg
    cases hg
  have hcmdNot : e.cmdid ∉ e.outputs := by
    intro hc
    have := (hout _ hc).notCmd
    rw [he.cmd] at this
    cases this
  have hfromCmd : ∀ o, NormalAdj s.db e.cmdid o → o ≠ e.cmdid := by
    rintro o ho rfl
    have := hinv.fromCmd _ _ ho he.cmd
    rw [he.cmd] at this
    cases this
  -- the links of the command are as they were
  have hcmdOf : ∀ o, NormalAdj s₁.db e.cmdid o ↔ NormalAdj s.db e.cmdid o := by
    intro o
    by_cases ho : o ∈ e.outputs
    · rw [ht.into o ho]
      simp
    · exact ht.other _ o hcmdNot ho
  have hw : OutputsWritten exclusionDt s₁.db e.cmdid root e.exclusionRoot e.group db₂ old := by
    rw [← hid]
    apply tupDbWriteOutputs_spec _ _ _ _ _ hwo
    · rw [hid, hcmdOf]
      exact fun hself => hfromCmd _ hself rfl
    · intro o ho
      rw [hmem] at ho
      rw [hid, isGroup_congr ht.node, isExclusion_congr ht.node]
      exact ⟨fun heq => hcmdNot (heq ▸ ho), (hout o ho).notGroup, (hout o ho).notExclusion⟩
    · intro x hx
      rw [isGroup_congr ht.node, isExclusion_congr ht.node]
      exact ⟨(he.exclusions x hx).1, (he.exclusions x hx).2.2⟩
    · intro g hg
      rw [isGroup_congr ht.node]
      exact he.group g hg
    · intro o g
      rw [hid, isGroup_congr ht.node, isGroup_congr ht.node, isExclusion_congr ht.node, hcmdOf,
        hcmdOf]
      intro hco hog hox hg
      rw [← hinv.ok.outputs e.cmdid o he.cmd hco hog hox g hg]
      by_cases ho : o ∈ e.outputs
      · rw [ht.outOf o ho g (hgrpNot g hg)]
        exact and_iff_left_of_imp fun _ _ => .inl hco
      · exact ht.other o g ho (hgrpNot g hg)
  have hi : InputsWritten db₂ e.cmdid e.inputRoot e.envRoot e.group db₃ := by
    apply tupDbWriteInputs_spec _ hwi
    intro x y
    rw [hw.groupLink, ht.groupLink, hw.sticky, ht.sticky, hw.old, isGroup_congr hw.node,
      isGroup_congr ht.node, isGroup_congr ht.node, hcmdOf, hinv.ok.groupLink]
    simp only [he.cmd, true_and]
    tauto
  have hnode₂ : db₂.node = s.db.node := hw.node.trans ht.node
  have hnotCmd : ∀ x y, y ∈ e.outputs → x ≠ e.cmdid → ¬ NormalAdj db₂ x y := by
    intro x y hy hx
    rw [hw.other x y hx, ht.into y hy]
    rintro (⟨⟨-, rfl⟩, -⟩ | ⟨-, hg⟩)
    · exact hx rfl
    · exact hgrpNot y (he.group y hg) hy
  refine ⟨hi.node.trans hnode₂, ?_, ?_, ?_, ?_, ?_, ?_, ?_, ?_, ?_, ?_, ht.incoming,
    ht.incoming_self⟩
  · intro x y
    rw [hi.sticky, hw.sticky, ht.sticky]
  · intro x y z hz
    rw [hi.otherGroup x y z hz, hw.groupLink, ht.groupLink]
  · intro x y
    rw [hi.groupLink, isGroup_congr hnode₂]
  · intro y hy
    rw [hi.other _ y hy, hw.ofCmd, hmem]
  · intro x hx
    rcases hi.into x hx with hx | hx
    · by_cases hxc : x = e.cmdid
      · subst hxc
        rw [hw.ofCmd, hmem] at hx
        rcases hx with hx | hx | hx
        · exact absurd hx hcmdNot
        · have := (he.exclusions _ hx).2.1
          rw [he.cmd] at this
          cases this
        · have := not_isCmd_of_isGroup (he.group _ hx)
          rw [he.cmd] at this
          cases this
      · rw [hw.other x _ hxc] at hx
        rcases hx with ⟨hx, -⟩ | ⟨-, hx⟩
        · by_cases hxo : x ∈ e.outputs
          · exact .inl ((ht.outOf x hxo _ hcmdNot).1 hx).1
          · exact .inl ((ht.other x _ hxo hcmdNot).1 hx)
        · have := not_isCmd_of_isGroup (he.group _ hx)
          rw [he.cmd] at this
          cases this
    · exact .inr hx
  · intro o ho x hx
    rw [hi.other x o (fun heq => hcmdNot (heq ▸ ho))]
    exact hnotCmd x o ho hx
  · intro o ho y hy hyg hadj
    have hoc : o ≠ e.cmdid := fun heq => hcmdNot (heq ▸ ho)
    rw [hi.other o y hy] at hadj
    by_cases hyo : y ∈ e.outputs
    · exact absurd hadj (hnotCmd o y hyo hoc)
    · rw [hw.other o y hoc, ht.outOf o ho y hyo] at hadj
      rcases hadj with ⟨⟨hadj, -⟩, -⟩ | ⟨-, hg⟩
      · exact hadj
      · rw [he.group y hg] at hyg
        cases hyg
  · intro o ho g hg
    have hoc : o ≠ e.cmdid := fun heq => hcmdNot (heq ▸ ho)
    have hgc : g ≠ e.cmdid := by
      rintro rfl
      have := not_isCmd_of_isGroup hg
      rw [he.cmd] at this
      cases this
    rw [hi.other o g hgc, hw.other o g hoc, ht.outOf o ho g (hgrpNot g hg), hcmdOf, hmem,
      isGroup_congr ht.node, isGroup_congr ht.node, isExclusion_congr ht.node]
    have h1 := hinv.not_stale (g := g) (a := e.cmdid) (hout o ho)
    have h2 := (hout o ho).notGroup
    have h3 := (hout o ho).notExclusion
    simp only [ho, hg, h2, h3, true_and, and_true, forall_const]
    tauto
  · intro x y hx hy hxc hyc
    rw [hi.other x y hyc, hw.other x y hxc, ht.other x y hx hy, hcmdOf, hmem,
      isGroup_congr ht.node, isGroup_congr ht.node, isExclusion_congr ht.node]
    simp only [hx, false_and, or_false]
  · intro o ho g hg hog hstale
    have hco : ¬ NormalAdj s.db e.cmdid o :=
      fun hco => hinv.not_stale (hout o ho) hco hstale
    refine hw.fresh o ((hmem o).2 ho) (fun h => hco ((hcmdOf o).1 h)) g hg ?_
    rw [ht.outOf o ho g (hgrpNot g (he.group g hg))]
    exact ⟨hog, fun _ => .inr hstale⟩

namespace Evaluated

variable (hev : Evaluated exclusionDt s e s')

include hev

theorem isOutput_iff {o : TupId} : IsOutput exclusionDt s'.db o ↔ IsOutput exclusionDt s.db o := by
  constructor
  · intro h
    exact ⟨isGroup_congr hev.node o ▸ h.notGroup, isExclusion_congr hev.node o ▸ h.notExclusion,
      isCmd_congr hev.node o ▸ h.notCmd⟩
  · intro h
    exact ⟨(isGroup_congr hev.node o).trans h.notGroup,
      (isExclusion_congr hev.node o).trans h.notExclusion, (isCmd_congr hev.node o).trans h.notCmd⟩

/-- The command is linked to its group and to no other. -/
theorem cmdGroup_iff (he : e.Ok exclusionDt s.db) {g : TupId} (hg : s.db.isGroup g = true) :
    NormalAdj s'.db e.cmdid g ↔ e.group = some g := by
  have hgc : g ≠ e.cmdid := by
    rintro rfl
    have := not_isCmd_of_isGroup hg
    rw [he.cmd] at this
    cases this
  rw [hev.ofCmd g hgc]
  constructor
  · rintro (ho | hx | hgrp)
    · have := (he.outputs g ho).2.notGroup
      rw [hg] at this
      cases this
    · have := (he.exclusions g hx).1
      rw [hg] at this
      cases this
    · exact hgrp
  · exact fun hgrp => .inr (.inr hgrp)

/-- The other commands keep their groups. -/
theorem otherGroup_iff (he : e.Ok exclusionDt s.db) {c g : TupId} (hc : s.db.isCmd c = true)
    (hce : c ≠ e.cmdid) (hinv : LinkInv exclusionDt s) (hg : s.db.isGroup g = true) :
    NormalAdj s'.db c g ↔ NormalAdj s.db c g := by
  have hgc := not_isCmd_of_isGroup hg
  rw [hev.other c g]
  · apply and_iff_left
    rintro ⟨hadj, -⟩
    have := hinv.fromCmd _ _ hadj he.cmd
    rw [hc] at this
    cases this
  · intro ho
    have := (he.outputs c ho).2.notCmd
    rw [hc] at this
    cases this
  · intro ho
    have := (he.outputs g ho).2.notGroup
    rw [hg] at this
    cases this
  · exact hce
  · rintro rfl
    rw [he.cmd] at hgc
    cases hgc

theorem releases_of_ok (he : e.Ok exclusionDt s.db) (hok : GroupLinksOk exclusionDt s'.db) :
    e.Releases s := by
  intro o ho g hg hog hstale
  obtain ⟨-, hout⟩ := he.outputs o ho
  have hoc : o ≠ e.cmdid := by
    rintro rfl
    have := hout.notCmd
    rw [he.cmd] at this
    cases this
  have hgrp : e.group = some g := by
    rw [← hev.cmdGroup_iff he hg]
    apply (hok.outputs e.cmdid o _ ((hev.ofCmd o hoc).2 (.inl ho)) _ _ g _).1
    · exact (hev.outputGroup o ho g hg).2 (.inr ⟨hog, hstale⟩)
    · exact (isCmd_congr hev.node _).trans he.cmd
    · exact (isGroup_congr hev.node o).trans hout.notGroup
    · exact (isExclusion_congr hev.node o).trans hout.notExclusion
    · exact (isGroup_congr hev.node g).trans hg
  exact hev.fresh o ho g hgrp hog hstale

theorem ok_of_releases (hinv : LinkInv exclusionDt s) (he : e.Ok exclusionDt s.db)
    (hrel : e.Releases s) : GroupLinksOk exclusionDt s'.db := by
  have hout := fun o ho => (he.outputs o ho).2
  refine ⟨?_, ?_, ?_⟩
  · intro a b c
    rw [isGroup_congr hev.node, isGroup_congr hev.node, isCmd_congr hev.node, hev.sticky]
    by_cases hc : c = e.cmdid
    · subst hc
      rw [hev.groupLink]
      constructor
      · rintro ⟨ha, hag, hg⟩
        exact ⟨⟨hag, he.cmd, .inr ⟨rfl, ha⟩⟩, he.group b hg,
          (hev.cmdGroup_iff he (he.group b hg)).2 hg⟩
      · rintro ⟨⟨hag, -, ha⟩, hb, hadj⟩
        rcases ha with ⟨hne, -⟩ | ⟨-, ha⟩
        · exact absurd rfl hne
        · exact ⟨ha, hag, (hev.cmdGroup_iff he hb).1 hadj⟩
    · rw [hev.otherGroup a b c hc, hinv.ok.groupLink]
      constructor
      · rintro ⟨⟨ha, hcmd, hst⟩, hb, hadj⟩
        exact ⟨⟨ha, hcmd, .inl ⟨hc, hst⟩⟩, hb, (hev.otherGroup_iff he hcmd hc hinv hb).2 hadj⟩
      · rintro ⟨⟨ha, hcmd, hst⟩, hb, hadj⟩
        rcases hst with ⟨-, hst⟩ | ⟨heq, -⟩
        · exact ⟨⟨ha, hcmd, hst⟩, hb, (hev.otherGroup_iff he hcmd hc hinv hb).1 hadj⟩
        · exact absurd heq hc
  · intro c g g' hc hg hg' h h'
    rw [isCmd_congr hev.node] at hc
    rw [isGroup_congr hev.node] at hg hg'
    by_cases hce : c = e.cmdid
    · subst hce
      rw [hev.cmdGroup_iff he hg] at h
      rw [hev.cmdGroup_iff he hg', h] at h'
      exact Option.some.inj h'
    · rw [hev.otherGroup_iff he hc hce hinv hg] at h
      rw [hev.otherGroup_iff he hc hce hinv hg'] at h'
      exact hinv.ok.oneGroup c g g' hc hg hg' h h'
  · intro c o hc hco hog hox g hg
    rw [isCmd_congr hev.node] at hc
    rw [isGroup_congr hev.node] at hog hg
    rw [isExclusion_congr hev.node] at hox
    have hge : g ∉ e.outputs := by
      intro h
      have := (hout g h).notGroup
      rw [hg] at this
      cases this
    have hgc : g ≠ e.cmdid := by
      rintro rfl
      have := not_isCmd_of_isGroup hg
      rw [he.cmd] at this
      cases this
    have hoe : o ≠ e.cmdid := by
      rintro rfl
      rcases hev.toCmd c hco with hadj | henv
      · have := hinv.fromCmd _ _ hadj hc
        rw [he.cmd] at this
        cases this
      · have := (he.env c henv).2
        rw [hc] at this
        cases this
    by_cases hce : c = e.cmdid
    · subst hce
      rw [hev.cmdGroup_iff he hg]
      rcases (hev.ofCmd o hoe).1 hco with ho | hx | hgrp
      · rw [hev.outputGroup o ho g hg]
        exact or_iff_left fun h => hrel o ho g hg h.1 h.2
      · have := (he.exclusions o hx).2.2
        rw [hox] at this
        cases this
      · have := he.group o hgrp
        rw [hog] at this
        cases this
    · have ho : o ∉ e.outputs := fun ho => hev.toOutput o ho c hce hco
      have hcL : c ∉ e.outputs := by
        intro h
        have := (hout c h).notCmd
        rw [hc] at this
        cases this
      have hadj := ((hev.other c o hcL ho hce hoe).1 hco).1
      have hnot : ¬ NormalAdj s.db e.cmdid o := by
        intro h
        have hoCmd := hinv.fromCmd _ _ hadj hc
        exact hce (hinv.oneCmd c e.cmdid o ⟨hog, hox, hoCmd⟩ hadj h)
      rw [hev.other o g ho hge hoe hgc, hev.otherGroup_iff he hc hce hinv hg,
        ← hinv.ok.outputs c o hc hadj hog hox g hg]
      exact and_iff_left fun h => hnot h.1

/-- An evaluation keeps the tables in step exactly when no output is stuck in an old group. -/
theorem ok_iff (hinv : LinkInv exclusionDt s) (he : e.Ok exclusionDt s.db) :
    GroupLinksOk exclusionDt s'.db ↔ e.Releases s :=
  ⟨hev.releases_of_ok he, hev.ok_of_releases hinv he⟩

end Evaluated

/-! ### Runs -/

namespace Evaluated

variable (hev : Evaluated exclusionDt s e s')

include hev

/-- The links after an evaluation: old ones and those of the rule. -/
theorem adj_cases {a b : TupId} (hadj : NormalAdj s'.db a b) : NormalAdj s.db a b ∨
    a = e.cmdid ∧ (b ∈ e.outputs ∨ b ∈ e.exclusionRoot ∨ e.group = some b) ∨
    a ∈ e.outputs ∧ e.group = some b ∨ b = e.cmdid ∧ a ∈ e.envRoot := by
  by_cases hb : b = e.cmdid
  · subst hb
    rcases hev.toCmd a hadj with h | h
    · exact .inl h
    · exact .inr (.inr (.inr ⟨rfl, h⟩))
  · by_cases ha : a = e.cmdid
    · subst ha
      exact .inr (.inl ⟨rfl, (hev.ofCmd b hb).1 hadj⟩)
    · by_cases hbo : b ∈ e.outputs
      · exact absurd hadj (hev.toOutput b hbo a ha)
      · by_cases hao : a ∈ e.outputs
        · by_cases hbg : s.db.isGroup b = true
          · rcases (hev.outputGroup a hao b hbg).1 hadj with h | h
            · exact .inr (.inr (.inl ⟨hao, h⟩))
            · exact .inl h.1
          · exact .inl (hev.ofOutput a hao b hb (Bool.not_eq_true _ ▸ hbg) hadj)
        · exact .inl ((hev.other a b hao hbo ha hb).1 hadj).1

theorem isSome_iff (i : TupId) : tupEntryAdd s'.db i = tupEntryAdd s.db i := by
  unfold tupEntryAdd
  rw [hev.node]

theorem linkInv (hinv : LinkInv exclusionDt s) (he : e.Ok exclusionDt s.db)
    (hok : GroupLinksOk exclusionDt s'.db) : LinkInv exclusionDt s' := by
  have hcmd : (tupEntryAdd s.db e.cmdid).isSome = true := Option.isSome_of_any he.cmd
  have hgroup : ∀ g, e.group = some g → (tupEntryAdd s.db g).isSome = true :=
    fun g hg => Option.isSome_of_any (he.group g hg)
  have hold : ∀ a o, IsOutput exclusionDt s.db o → o ∉ e.outputs → NormalAdj s'.db a o →
      NormalAdj s.db a o := by
    intro a o ho hoe hadj
    rcases hev.adj_cases hadj with h | ⟨rfl, h | h | h⟩ | ⟨-, h⟩ | ⟨rfl, -⟩
    · exact h
    · exact absurd h hoe
    · have := ho.notExclusion
      rw [(he.exclusions o h).2.2] at this
      cases this
    · have := ho.notGroup
      rw [he.group o h] at this
      cases this
    · have := ho.notGroup
      rw [he.group o h] at this
      cases this
    · have := ho.notCmd
      rw [he.cmd] at this
      cases this
  have hfrom : ∀ a, ∀ o ∈ e.outputs, NormalAdj s'.db a o → a = e.cmdid :=
    fun a o ho hadj => by_contra fun hne => hev.toOutput o ho a hne hadj
  refine ⟨hok, ?_, ?_, ?_, ?_, ?_, ?_, ?_⟩
  · intro a b hadj
    rw [hev.isSome_iff, hev.isSome_iff]
    rcases hev.adj_cases hadj with h | ⟨rfl, h | h | h⟩ | ⟨ha, h⟩ | ⟨rfl, h⟩
    · exact hinv.normalEnds a b h
    · exact ⟨hcmd, (he.outputs b h).1⟩
    · exact ⟨hcmd, Option.isSome_of_any (he.exclusions b h).2.2⟩
    · exact ⟨hcmd, hgroup b h⟩
    · exact ⟨(he.outputs a ha).1, hgroup b h⟩
    · exact ⟨(he.env a h).1, hcmd⟩
  · intro a b hst
    rw [hev.isSome_iff, hev.isSome_iff]
    rcases (hev.sticky a b).1 hst with ⟨-, h⟩ | ⟨rfl, h⟩
    · exact hinv.stickyEnds a b h
    · exact ⟨he.inputs a h, hcmd⟩
  · intro a b hadj ha
    rw [isCmd_congr hev.node] at ha ⊢
    rcases hev.adj_cases hadj with h | ⟨rfl, h | h | h⟩ | ⟨hao, h⟩ | ⟨rfl, h⟩
    · exact hinv.fromCmd a b h ha
    · exact (he.outputs b h).2.notCmd
    · exact (he.exclusions b h).2.1
    · exact not_isCmd_of_isGroup (he.group b h)
    · exact not_isCmd_of_isGroup (he.group b h)
    · rw [(he.env a h).2] at ha
      cases ha
  · intro a b hadj hbg hbc
    rw [isGroup_congr hev.node] at hbg
    rw [isCmd_congr hev.node] at hbc ⊢
    rcases hev.adj_cases hadj with h | ⟨rfl, -⟩ | ⟨-, h⟩ | ⟨rfl, -⟩
    · exact hinv.toFile a b h hbg hbc
    · exact he.cmd
    · rw [he.group b h] at hbg
      cases hbg
    · rw [he.cmd] at hbc
      cases hbc
  · intro a a' o ho h h'
    rw [hev.isOutput_iff] at ho
    by_cases hoe : o ∈ e.outputs
    · rw [hfrom a o hoe h, hfrom a' o hoe h']
    · exact hinv.oneCmd a a' o ho (hold a o ho hoe h) (hold a' o ho hoe h')
  · intro o c a ho hc hadj
    rw [hev.isOutput_iff] at ho
    by_cases hoe : o ∈ e.outputs
    · rw [hfrom a o hoe hadj]
      rcases hev.incoming_self o hoe with h | h
      · rw [h] at hc
        cases hc
      · rw [h] at hc
        exact Option.some.inj hc
    · rw [hev.incoming o hoe] at hc
      exact hinv.cached o c a ho hc (hold a o ho hoe hadj)
  · intro o c hc
    rw [hev.isSome_iff, isCmd_congr hev.node]
    by_cases hoe : o ∈ e.outputs
    · rcases hev.incoming_self o hoe with h | h
      · rw [h] at hc
        cases hc
      · rw [h] at hc
        obtain rfl := Option.some.inj hc
        exact ⟨(he.outputs o hoe).1, he.cmd⟩
    · rw [hev.incoming o hoe] at hc
      exact hinv.cachedEnds o c hc

end Evaluated

namespace LinkInv

theorem empty (exclusionDt : TupId) : LinkInv exclusionDt {} := by
  refine ⟨⟨?_, ?_, ?_⟩, ?_, ?_, ?_, ?_, ?_, ?_, ?_⟩ <;> simp [Db.Has, NormalAdj]

/-- What other code does keeps the invariant. -/
theorem other {db : Db} (hinv : LinkInv exclusionDt s) (hk : KeepsLinks exclusionDt s.db db) :
    LinkInv exclusionDt { s with db := db } := by
  have hadj : ∀ a b, NormalAdj db a b ↔ NormalAdj s.db a b := fun a b => hk.mem (.normal a b)
  have hends := fun a b (h : NormalAdj db a b) => hinv.normalEnds a b ((hadj a b).1 h)
  have hsticky := fun a b (h : db.Has (.sticky a b)) => hinv.stickyEnds a b ((hk.mem _).1 h)
  have hgroup := fun i h => (hk.node i h).2.1
  have hcmd := fun i h => (hk.node i h).2.2.1
  have hexc := fun i h => (hk.node i h).2.2.2
  have hout : ∀ o, (tupEntryAdd s.db o).isSome = true → IsOutput exclusionDt db o →
      IsOutput exclusionDt s.db o := fun o h ho =>
    ⟨(hgroup o h).symm.trans ho.notGroup, (hexc o h).symm.trans ho.notExclusion,
      (hcmd o h).symm.trans ho.notCmd⟩
  refine ⟨⟨?_, ?_, ?_⟩, ?_, ?_, ?_, ?_, ?_, ?_, ?_⟩
  · intro a b c
    change db.Has _ ↔ (db.isGroup a = true ∧ db.isCmd c = true ∧ db.Has _) ∧
      db.isGroup b = true ∧ NormalAdj db c b
    rw [hk.mem, hinv.ok.groupLink, hk.mem, hadj]
    constructor
    · rintro ⟨⟨ha, hc, hst⟩, hb, h⟩
      obtain ⟨h1, h2⟩ := hinv.stickyEnds a c hst
      obtain ⟨h3, h4⟩ := hinv.normalEnds c b h
      rw [hgroup a h1, hcmd c h2, hgroup b h4]
      exact ⟨⟨ha, hc, hst⟩, hb, h⟩
    · rintro ⟨⟨ha, hc, hst⟩, hb, h⟩
      obtain ⟨h1, h2⟩ := hinv.stickyEnds a c hst
      obtain ⟨h3, h4⟩ := hinv.normalEnds c b h
      rw [hgroup a h1] at ha
      rw [hcmd c h2] at hc
      rw [hgroup b h4] at hb
      exact ⟨⟨ha, hc, hst⟩, hb, h⟩
  · intro c g g' hc hg hg' h h'
    obtain ⟨h1, h2⟩ := hends c g h
    obtain ⟨-, h4⟩ := hends c g' h'
    exact hinv.ok.oneGroup c g g' ((hcmd c h1).symm.trans hc) ((hgroup g h2).symm.trans hg)
      ((hgroup g' h4).symm.trans hg') ((hadj c g).1 h) ((hadj c g').1 h')
  · intro c o hc hco hog hox g hg
    obtain ⟨h1, h2⟩ := hends c o hco
    have hiff : s.db.isGroup g = true → (NormalAdj db o g ↔ NormalAdj db c g) := by
      intro hg'
      rw [hadj, hadj]
      exact hinv.ok.outputs c o ((hcmd c h1).symm.trans hc) ((hadj c o).1 hco)
        ((hgroup o h2).symm.trans hog) ((hexc o h2).symm.trans hox) g hg'
    constructor
    · intro h
      obtain ⟨-, h4⟩ := hends o g h
      exact (hiff ((hgroup g h4).symm.trans hg)).1 h
    · intro h
      obtain ⟨-, h4⟩ := hends c g h
      exact (hiff ((hgroup g h4).symm.trans hg)).2 h
  · intro a b h
    obtain ⟨h1, h2⟩ := hends a b h
    exact ⟨(hk.node a h1).1, (hk.node b h2).1⟩
  · intro a b h
    obtain ⟨h1, h2⟩ := hsticky a b h
    exact ⟨(hk.node a h1).1, (hk.node b h2).1⟩
  · intro a b h ha
    obtain ⟨h1, h2⟩ := hends a b h
    exact (hcmd b h2).trans (hinv.fromCmd a b ((hadj a b).1 h) ((hcmd a h1).symm.trans ha))
  · intro a b h hg hc
    obtain ⟨h1, h2⟩ := hends a b h
    exact (hcmd a h1).trans (hinv.toFile a b ((hadj a b).1 h) ((hgroup b h2).symm.trans hg)
      ((hcmd b h2).symm.trans hc))
  · intro a a' o ho h h'
    exact hinv.oneCmd a a' o (hout o (hends a o h).2 ho) ((hadj a o).1 h) ((hadj a' o).1 h')
  · intro o c a ho hc h
    exact hinv.cached o c a (hout o (hends a o h).2 ho) hc ((hadj a o).1 h)
  · intro o c hc
    obtain ⟨h1, h2⟩ := hinv.cachedEnds o c hc
    exact ⟨(hk.node o h1).1, (hcmd c (Option.isSome_of_any h2)).trans h2⟩

theorem lookup {o : TupId} {c : Option TupId} (hinv : LinkInv exclusionDt s)
    (ho : IsOutput exclusionDt s.db o) (h : tupDbGetIncomingLink s o = some (s', c)) :
    LinkInv exclusionDt s' := by
  obtain ⟨hdb, hinc, hnone, hsome⟩ := tupDbGetIncomingLink_spec h
  obtain ⟨db', incoming'⟩ := s'
  subst hdb hinc
  have hself : ∀ x, c = some x → (NormalAdj s.db x o ∨ s.incoming o = some x) := by
    rintro x rfl
    cases hs : s.incoming o with
    | none => exact .inl ((hnone hs x).2 rfl)
    | some y => rw [Option.some.inj (hsome y hs)]; exact .inr rfl
  refine ⟨hinv.ok, hinv.normalEnds, hinv.stickyEnds, hinv.fromCmd, hinv.toFile, hinv.oneCmd, ?_, ?_⟩
  · intro o' c' a ho' hc' hadj
    change Function.update s.incoming o c o' = some c' at hc'
    by_cases heq : o' = o
    · subst heq
      rw [Function.update_self] at hc'
      rcases hself c' hc' with h | h
      · exact hinv.oneCmd a c' o' ho' hadj h
      · exact hinv.cached o' c' a ho' h hadj
    · rw [Function.update_of_ne heq] at hc'
      exact hinv.cached o' c' a ho' hc' hadj
  · intro o' c' hc'
    change Function.update s.incoming o c o' = some c' at hc'
    by_cases heq : o' = o
    · subst heq
      rw [Function.update_self] at hc'
      rcases hself c' hc' with h | h
      · exact ⟨(hinv.normalEnds c' o' h).2, hinv.toFile c' o' h ho.notGroup ho.notCmd⟩
      · exact hinv.cachedEnds o' c' h
    · rw [Function.update_of_ne heq] at hc'
      exact hinv.cachedEnds o' c' hc'

theorem restart (hinv : LinkInv exclusionDt s) :
    LinkInv exclusionDt { s with incoming := fun _ => none } :=
  ⟨hinv.ok, hinv.normalEnds, hinv.stickyEnds, hinv.fromCmd, hinv.toFile, hinv.oneCmd,
    fun _ _ _ _ h => (Option.some_ne_none _ h.symm).elim,
    fun _ _ h => (Option.some_ne_none _ h.symm).elim⟩

/-- The deletion of a command keeps the invariant; its outputs may stay in its group. -/
theorem delete {c : TupId} {db : Db} (hinv : LinkInv exclusionDt s) (hc : s.db.isCmd c = true)
    (h : tupDbDeleteLinks s.db c = some db) : LinkInv exclusionDt { s with db := db } := by
  have hedit := tupDbDeleteLinks_edit h
  have hadj : ∀ a b, NormalAdj db a b ↔ NormalAdj s.db a b ∧ a ≠ c ∧ b ≠ c := by
    intro a b
    rw [← has_normal, hedit.mem]
    simp [Row.TouchedBy, Row.never, has_normal]
  have hst : ∀ a b, db.Has (.sticky a b) ↔ s.db.Has (.sticky a b) ∧ a ≠ c ∧ b ≠ c := by
    intro a b
    rw [hedit.mem]
    simp [Row.TouchedBy, Row.never]
  have hgl : ∀ a b d, db.Has (.group a b d) ↔ s.db.Has (.group a b d) ∧ d ≠ c := by
    intro a b d
    rw [hedit.mem]
    simp [Row.TouchedBy, Row.never]
  have hgc : ∀ g, s.db.isGroup g = true → g ≠ c := by
    rintro g hg rfl
    have := not_isCmd_of_isGroup hg
    rw [hc] at this
    cases this
  have hent : ∀ i, tupEntryAdd db i = tupEntryAdd s.db i := by
    intro i
    unfold tupEntryAdd
    rw [hedit.node]
  have hgroup : ∀ i, db.isGroup i = s.db.isGroup i := isGroup_congr hedit.node
  have hcmd : ∀ i, db.isCmd i = s.db.isCmd i := isCmd_congr hedit.node
  have hexc : ∀ i, db.isExclusion exclusionDt i = s.db.isExclusion exclusionDt i :=
    isExclusion_congr hedit.node
  have hout : ∀ o, IsOutput exclusionDt db o → IsOutput exclusionDt s.db o := fun o ho =>
    ⟨(hgroup o).symm.trans ho.notGroup, (hexc o).symm.trans ho.notExclusion,
      (hcmd o).symm.trans ho.notCmd⟩
  refine ⟨⟨?_, ?_, ?_⟩, ?_, ?_, ?_, ?_, ?_, ?_, ?_⟩
  · intro a b d
    change db.Has _ ↔ (db.isGroup a = true ∧ db.isCmd d = true ∧ db.Has _) ∧
      db.isGroup b = true ∧ NormalAdj db d b
    rw [hgl, hst, hadj, hgroup, hgroup, hcmd, hinv.ok.groupLink]
    have := hgc a
    have := hgc b
    tauto
  · intro d g g' hd hg hg' hdg hdg'
    exact hinv.ok.oneGroup d g g' ((hcmd d).symm.trans hd) ((hgroup g).symm.trans hg)
      ((hgroup g').symm.trans hg') ((hadj d g).1 hdg).1 ((hadj d g').1 hdg').1
  · intro d o hd hdo hog hox g hg
    obtain ⟨hdo, hdc, hoc⟩ := (hadj d o).1 hdo
    change NormalAdj db o g ↔ NormalAdj db d g
    rw [hadj, hadj, hinv.ok.outputs d o ((hcmd d).symm.trans hd) hdo ((hgroup o).symm.trans hog)
      ((hexc o).symm.trans hox) g ((hgroup g).symm.trans hg)]
    simp [hdc, hoc]
  · intro a b hab
    change (tupEntryAdd db a).isSome = true ∧ (tupEntryAdd db b).isSome = true
    rw [hent, hent]
    exact hinv.normalEnds a b ((hadj a b).1 hab).1
  · intro a b hab
    change (tupEntryAdd db a).isSome = true ∧ (tupEntryAdd db b).isSome = true
    rw [hent, hent]
    exact hinv.stickyEnds a b ((hst a b).1 hab).1
  · intro a b hab ha
    exact (hcmd b).trans (hinv.fromCmd a b ((hadj a b).1 hab).1 ((hcmd a).symm.trans ha))
  · intro a b hab hg hb
    exact (hcmd a).trans (hinv.toFile a b ((hadj a b).1 hab).1 ((hgroup b).symm.trans hg)
      ((hcmd b).symm.trans hb))
  · intro a a' o ho h h'
    exact hinv.oneCmd a a' o (hout o ho) ((hadj a o).1 h).1 ((hadj a' o).1 h').1
  · intro o d a ho hd h
    exact hinv.cached o d a (hout o ho) hd ((hadj a o).1 h).1
  · intro o d hd
    change (tupEntryAdd db o).isSome = true ∧ db.isCmd d = true
    rw [hent, hcmd]
    exact hinv.cachedEnds o d hd

/-- The step lemma: an evaluation may break what the tables have to agree on, and nothing else can
be broken. -/
theorem step {ev : LinkEvent} (hinv : LinkInv exclusionDt s) (h : LinkStep exclusionDt s ev s')
    (hev : ∀ e, ev = .evaluate e → GroupLinksOk exclusionDt s'.db) : LinkInv exclusionDt s' := by
  cases h with
  | other hk => exact hinv.other hk
  | evaluate he heval => exact (evaluate_spec hinv he heval).linkInv hinv he (hev _ rfl)
  | lookup ho hget => exact hinv.lookup ho hget
  | restart => exact hinv.restart
  | delete hc hdel => exact hinv.delete hc hdel

end LinkInv

/-- The tables agree in every state of a run exactly when each of its evaluations finds no output
stuck in an old group. -/
theorem group_links_ok_iff (exclusionDt : TupId) (tr : List LinkEvent) :
    (∀ tr₁ s₁, tr₁ <+: tr → Run (LinkStep exclusionDt) {} tr₁ s₁ → GroupLinksOk exclusionDt s₁.db) ↔
      ∀ tr₁ e s₁ s₂, tr₁ ++ [.evaluate e] <+: tr → Run (LinkStep exclusionDt) {} tr₁ s₁ →
        LinkStep exclusionDt s₁ (.evaluate e) s₂ → e.Releases s₁ := by
  constructor
  · intro hok tr₁ e s₁ s₂ hpre hrun hstep
    have hinv : tr₁ <+: tr → LinkInv exclusionDt s₁ := by
      apply hrun.invariant (I := fun tr₁ s => tr₁ <+: tr → LinkInv exclusionDt s)
      · exact fun _ => .empty exclusionDt
      · intro tr₀ s ev s' hrun₀ ih hst hpre₀
        exact (ih ((List.prefix_append tr₀ [ev]).trans hpre₀)).step hst
          fun _ _ => hok _ s' hpre₀ (hrun₀.snoc hst)
    have hinv₁ := hinv ((List.prefix_append tr₁ _).trans hpre)
    have hok₂ := hok _ s₂ hpre (hrun.snoc hstep)
    cases hstep with
    | evaluate he heval => exact ((evaluate_spec hinv₁ he heval).ok_iff hinv₁ he).1 hok₂
  · intro hrel tr₁ s₁ hpre hrun
    have hinv : tr₁ <+: tr → LinkInv exclusionDt s₁ := by
      apply hrun.invariant (I := fun tr₁ s => tr₁ <+: tr → LinkInv exclusionDt s)
      · exact fun _ => .empty exclusionDt
      · intro tr₀ s ev s' hrun₀ ih hst hpre₀
        have hinv₀ := ih ((List.prefix_append tr₀ [ev]).trans hpre₀)
        refine hinv₀.step hst ?_
        rintro e rfl
        have hrel₀ := hrel tr₀ e s s' hpre₀ hrun₀ hst
        cases hst with
        | evaluate he heval =>
          exact ((evaluate_spec hinv₀ he heval).ok_iff hinv₀ he).2 hrel₀
    exact (hinv hpre).ok

/-! ### A stale entry -/

/-- Two commands, an output and two groups. -/
def stuckDb : Db where
  node := [⟨2, 1, .cmd, -1, [], [], [], (-1, 0)⟩, ⟨3, 1, .cmd, -1, [], [], [], (-1, 0)⟩,
    ⟨4, 1, .generated, -1, [], [], [], (-1, 0)⟩, ⟨5, 1, .group, -1, [], [], [], (-1, 0)⟩,
    ⟨6, 1, .group, -1, [], [], [], (-1, 0)⟩]

/-- The rule that makes this command write the output to this group. -/
def stuckRule (cmdid group : TupId) : Evaluation where
  cmdid := cmdid
  outputs := [4]
  exclusionRoot := ∅
  group := some group
  inputRoot := ∅
  envRoot := ∅
  commandModified := false

/-- The first command takes the output, is evaluated again and is deleted; then the second takes the
output. These are the states in between. -/
def stuckStates : Option (LinkState × LinkState × Db × LinkState) := do
  let s₁ ← evaluate 9 { db := stuckDb } (stuckRule 2 5)
  let s₂ ← evaluate 9 s₁ (stuckRule 2 5)
  let db ← tupDbDeleteLinks s₂.db 2
  let s₃ ← evaluate 9 { s₂ with db := db } (stuckRule 3 6)
  return (s₁, s₂, db, s₃)

theorem stuckStates_spec : ∃ s₁ s₂ db s₃, stuckStates = some (s₁, s₂, db, s₃) ∧
    s₁.db.node = stuckDb.node ∧ s₂.db.node = stuckDb.node ∧ db.node = stuckDb.node ∧
    s₃.db.node = stuckDb.node ∧ NormalAdj s₃.db 3 4 ∧ NormalAdj s₃.db 4 5 ∧
    ¬ NormalAdj s₃.db 3 5 := by
  have h : stuckStates.any (fun (s₁, s₂, db, s₃) => decide (s₁.db.node = stuckDb.node ∧
      s₂.db.node = stuckDb.node ∧ db.node = stuckDb.node ∧ s₃.db.node = stuckDb.node ∧
      NormalAdj s₃.db 3 4 ∧ NormalAdj s₃.db 4 5 ∧ ¬ NormalAdj s₃.db 3 5)) = true := by
    decide +kernel
  obtain ⟨⟨s₁, s₂, db, s₃⟩, hs, hp⟩ := (Option.any_eq_true _ _).1 h
  exact ⟨s₁, s₂, db, s₃, hs, of_decide_eq_true hp⟩

theorem stuckRule_ok {db : Db} (h : db.node = stuckDb.node) {c g : TupId}
    (hc : stuckDb.isCmd c = true) (hg : stuckDb.isGroup g = true) : (stuckRule c g).Ok 9 db := by
  refine ⟨(isCmd_congr h c).trans hc, ?_, ?_, ?_, ?_, ?_⟩
  · intro o ho
    rw [List.mem_singleton.1 ho]
    refine ⟨?_, (isGroup_congr h 4).trans (by decide), (isExclusion_congr h 4).trans (by decide),
      (isCmd_congr h 4).trans (by decide)⟩
    unfold tupEntryAdd
    rw [h]
    decide
  · exact fun x hx => absurd hx (TentTree.not_mem_empty x)
  · rintro g' hg'
    cases hg'
    exact (isGroup_congr h g).trans hg
  · exact fun x hx => absurd hx (TentTree.not_mem_empty x)
  · exact fun x hx => absurd hx (TentTree.not_mem_empty x)

/-- The output stays in the group of the deleted command. -/
theorem group_links_stuck : ¬ ∀ (exclusionDt : TupId) (tr : List LinkEvent) (s : LinkState),
    Run (LinkStep exclusionDt) {} tr s → GroupLinksOk exclusionDt s.db := by
  intro hall
  obtain ⟨s₁, s₂, db, s₃, hs, hn₁, hn₂, hdb, hn₃, h34, h45, h35⟩ := stuckStates_spec
  obtain ⟨s₁', h₁, hs⟩ := Option.bind_eq_some_iff.1 hs
  obtain ⟨s₂', h₂, hs⟩ := Option.bind_eq_some_iff.1 hs
  obtain ⟨db', h₃, hs⟩ := Option.bind_eq_some_iff.1 hs
  obtain ⟨s₃', h₄, hs⟩ := Option.bind_eq_some_iff.1 hs
  cases hs
  have hkeeps : KeepsLinks 9 {} stuckDb := by
    refine ⟨?_, ?_⟩
    · intro r
      cases r <;> simp [Db.Has, stuckDb]
    · intro i hi
      cases hi
  have h0 : Run (LinkStep 9) {} [] {} := .nil
  have hrun := (((h0.snoc (.other hkeeps)).snoc
    (.evaluate (stuckRule_ok rfl rfl rfl) h₁)).snoc
    (.evaluate (stuckRule_ok hn₁ rfl rfl) h₂)).snoc
    (.delete ((isCmd_congr hn₂ 2).trans rfl) h₃)
  have hok := hall 9 _ s₃ (hrun.snoc (.evaluate (stuckRule_ok hdb rfl rfl) h₄))
  apply h35
  apply (hok.outputs 3 4 _ h34 _ _ 5 _).1 h45
  · exact (isCmd_congr hn₃ 3).trans rfl
  · exact (isGroup_congr hn₃ 4).trans rfl
  · exact (isExclusion_congr hn₃ 4).trans rfl
  · exact (isGroup_congr hn₃ 5).trans rfl

end Metatup
