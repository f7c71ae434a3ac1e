import Metatup.Graph.Connected

/-!
# Checking what a command read

When a command has run, `tup_db_check_actual_inputs` compares the files it read with the inputs the
Tupfile declares and with the normal links it had. It reports generated files that nothing declared
leads to, and makes the links agree with what was read.

The test of a path against an `allow_read` pattern, which prints the path and calls `fnmatch`, is
the parameter `matched`.

* `Undeclared`: the reads that are an error.
* `checkGeneratedInputs_spec`, `updateLinks_spec`: the two halves of the function.
* `check_actual_inputs_exact`: the whole.
-/

namespace Metatup

open Relation Lib

/-- Source: `db.c` `struct actual_input_data`: what the callbacks do not change. -/
structure ActualInputData where
  cmdid : TupId
  cmdtent : TupEntry
  cmdVariant : Variant
  stickyRoot : TentTree
  outputRoot : TentTree
  /-- Source: `db.c` `allowed_read_pattern_matches` -/
  matched : TupEntry → TupEntry → Text → Bool

/-- What the callbacks change: the database and the other fields of `struct actual_input_data`. -/
structure ActualInputState where
  db : Db
  missingInputRoot : TentTree := ∅
  importantLinkRemoved : Bool := false

/-- Source: `db.c` `tup_db_is_allowed_read` -/
def tupDbIsAllowedRead (db : Db) (matched : TupEntry → TupEntry → Text → Bool) (cmdid : TupId)
    (cmdtent tent : TupEntry) : Bool :=
  ((db.allowRead.filter (·.cmdid = cmdid)).insertionSort (·.seq ≤ ·.seq)).any
    fun row => matched cmdtent tent row.pattern

/-- Source: `db.c` `new_input` -/
def newInput (aid : ActualInputData) (s : ActualInputState) (i : TupId) :
    Option ActualInputState := do
  if tentTreeSearch aid.outputRoot i then return s
  let tent ← tupEntryAdd s.db i
  let fileVariant ← tupEntryVariant s.db tent
  if !fileVariant.rootVariant && fileVariant ≠ aid.cmdVariant then none
  else if tent.type = .generated then
    if tupDbIsAllowedRead s.db aid.matched aid.cmdid aid.cmdtent tent then return s
    else
      let m ← tentTreeAdd s.missingInputRoot i
      return { s with missingInputRoot := m }
  else return s

/-- Source: `db.c` `new_normal_link` -/
def newNormalLink (aid : ActualInputData) (s : ActualInputState) (i : TupId) :
    Option ActualInputState := do
  if tentTreeSearch aid.outputRoot i then return s
  if tentTreeSearch s.missingInputRoot i then return s
  let tent ← tupEntryAdd s.db i
  if tent.type = .cmd then none
  else
    let db ← linkInsert s.db i aid.cmdid .normal
    return { s with db := db }

/-- Source: `db.c` `del_normal_link` -/
def delNormalLink (aid : ActualInputData) (s : ActualInputState) (i : TupId) :
    Option ActualInputState := do
  let tent ← tupEntryAdd s.db i
  let db := linkRemove s.db i aid.cmdid .normal
  return { s with
    db := if tentTreeSearch aid.stickyRoot i then db else tupEntryAddGhostTree db tent
    importantLinkRemoved := s.importantLinkRemoved || decide (tent.type = .generated) }

/-- The first loop of `check_generated_inputs`, over the missing inputs that are left; the flag is
cleared by its `return -1`. -/
def connectMissing (db : Db) (validInputRoot groupRoot : TentTree) :
    List TupId → TentTree → TentTree × Bool
  | [], missing => (missing, true)
  | i :: rest, missing =>
    match tupEntryAdd db i with
    | none => (missing, false)
    | some tent =>
      if groupRoot.ids.any fun g => tupDbLinkExists db i g .normal then
        connectMissing db validInputRoot groupRoot rest (tentTreeRemove missing i)
      else
        match nodesAreConnected db tent validInputRoot with
        | none => (missing, false)
        | some true => connectMissing db validInputRoot groupRoot rest (tentTreeRemove missing i)
        | some false => connectMissing db validInputRoot groupRoot rest missing

/-- Source: `db.c` `check_generated_inputs`: what is left of `missing_input_root`, which is what it
prints, and the return value. -/
def checkGeneratedInputs (db : Db) (missingInputRoot validInputRoot groupRoot : TentTree) :
    TentTree × Int :=
  let (missing, ok) := connectMissing db validInputRoot groupRoot missingInputRoot.ids missingInputRoot
  if ok ∧ missing = ∅ then (missing, 0) else (missing, -1)

/-- What `tup_db_check_actual_inputs` returns and leaves behind. -/
structure ActualInputsResult where
  rc : Int
  db : Db
  /-- The files reported as missing inputs. -/
  missing : TentTree
  importantLinkRemoved : Bool

/-- Source: `db.c` `tup_db_check_actual_inputs`; `none` is a `-1` before the links are in order. -/
def tupDbCheckActualInputs (matched : TupEntry → TupEntry → Text → Bool) (db : Db) (cmdid : TupId)
    (readRoot stickyRoot normalRoot groupStickyRoot outputRoot : TentTree) :
    Option ActualInputsResult := do
  let cmdtent ← tupEntryAdd db cmdid
  let cmdVariant ← tupEntryVariant db cmdtent
  let aid : ActualInputData := { cmdid, cmdtent, cmdVariant, stickyRoot, outputRoot, matched }
  let s ← compareTentTrees readRoot stickyRoot (newInput aid) (fun s _ => some s) { db := db }
  let (missing, rc) := checkGeneratedInputs s.db s.missingInputRoot stickyRoot groupStickyRoot
  let s ← compareTentTrees readRoot normalRoot (newNormalLink aid) (delNormalLink aid)
    { s with missingInputRoot := missing }
  return { rc, db := s.db, missing, importantLinkRemoved := s.importantLinkRemoved }

/-! ### The missing inputs -/

/-- The reads that are no commands and come from the root variant or the variant of the command. -/
def ReadsOk (db : Db) (cmdVariant : Variant) (readRoot : TentTree) : Prop :=
  ∀ i ∈ readRoot, ∃ t, tupEntryAdd db i = some t ∧ t.type ≠ .cmd ∧
    ∃ v, tupEntryVariant db t = some v ∧ (v.rootVariant = true ∨ v = cmdVariant)

/-- A file that `new_input` puts among the missing inputs: a generated file that is no output of the
command and that no pattern allows. -/
def Suspect (aid : ActualInputData) (db : Db) (i : TupId) : Prop :=
  i ∉ aid.outputRoot ∧ ∃ t, tupEntryAdd db i = some t ∧ t.type = .generated ∧
    tupDbIsAllowedRead db aid.matched aid.cmdid aid.cmdtent t = false

variable {aid : ActualInputData} {db : Db} {readRoot stickyRoot normalRoot groupRoot : TentTree}

/-- One call of `new_input`. -/
theorem newInput_spec {s : ActualInputState} {i : TupId} (hr : ReadsOk s.db aid.cmdVariant readRoot)
    (hi : i ∈ readRoot) (hnew : i ∉ s.missingInputRoot) :
    (Suspect aid s.db i ∧ newInput aid s i =
        some { s with missingInputRoot := tentTreeAddDup s.missingInputRoot i }) ∨
      (¬ Suspect aid s.db i ∧ newInput aid s i = some s) := by
  obtain ⟨t, ht, _, v, hv, hvar⟩ := hr i hi
  have hcond : v.rootVariant = false → v = aid.cmdVariant := by
    rcases hvar with h | h <;> simp [h]
  by_cases hout : i ∈ aid.outputRoot
  · refine .inr ⟨fun h => h.1 hout, ?_⟩
    simp [newInput, hout]
  by_cases hgen : t.type = .generated
  · cases hall : tupDbIsAllowedRead s.db aid.matched aid.cmdid aid.cmdtent t with
    | true =>
      refine .inr ⟨?_, ?_⟩
      · rintro ⟨_, u, hu, _, hna⟩
        rw [ht] at hu
        cases hu
        simp [hall] at hna
      · simpa [newInput, hout, ht, hv, hgen, hall] using hcond
    | false =>
      refine .inl ⟨⟨hout, t, ht, hgen, hall⟩, ?_⟩
      simpa [newInput, hout, ht, hv, hgen, hall, tentTreeAdd_of_not_mem hnew] using hcond
  · refine .inr ⟨?_, ?_⟩
    · rintro ⟨_, u, hu, hg, _⟩
      rw [ht] at hu
      cases hu
      exact hgen hg
    · simpa [newInput, hout, ht, hv, hgen] using hcond

/-- The state when the first walk has called back for `pre`. -/
structure NewInputsInv (aid : ActualInputData) (db : Db) (pre : List (TupId ⊕ TupId))
    (s : ActualInputState) : Prop where
  db_eq : s.db = db
  important : s.importantLinkRemoved = false
  missing : ∀ i, i ∈ s.missingInputRoot ↔ .inl i ∈ pre ∧ Suspect aid db i

/-- The first walk collects the suspects among the reads that are not sticky inputs. -/
theorem newInputs_spec (aid : ActualInputData) (stickyRoot : TentTree)
    (hr : ReadsOk db aid.cmdVariant readRoot) :
    ∃ s, compareTentTrees readRoot stickyRoot (newInput aid) (fun s _ => some s) { db := db } =
        some s ∧ s.db = db ∧ s.importantLinkRemoved = false ∧
      ∀ i, i ∈ s.missingInputRoot ↔ i ∈ readRoot ∧ i ∉ stickyRoot ∧ Suspect aid db i := by
  have hmem := mem_diff readRoot.sorted stickyRoot.sorted
  have hnd := diff_nodup readRoot.sorted stickyRoot.sorted
  have hstep : ∀ pre z post s, diff readRoot.ids stickyRoot.ids = pre ++ z :: post →
      NewInputsInv aid db pre s →
        ∃ s', onDiff (newInput aid) (fun s _ => some s) s z = some s' ∧
          NewInputsInv aid db (pre ++ [z]) s' := by
    rintro pre z post s hl ⟨rfl, himp, hmiss⟩
    cases z with
    | inr y => exact ⟨s, rfl, rfl, himp, by simp [hmiss]⟩
    | inl x =>
      have hx : x ∈ readRoot := ((hmem (.inl x)).1 (by simp [hl])).1
      have hnot : .inl x ∉ pre := fun h =>
        List.disjoint_of_nodup_append (hl ▸ hnd) h List.mem_cons_self
      have hnew : x ∉ s.missingInputRoot := fun h => hnot ((hmiss x).1 h).1
      rcases newInput_spec hr hx hnew with ⟨hsus, heq⟩ | ⟨hsus, heq⟩
      · refine ⟨_, heq, rfl, himp, fun i => ?_⟩
        by_cases hix : i = x
        · simp [hix, hsus]
        · simp [hix, hmiss]
      · refine ⟨_, heq, rfl, himp, fun i => ?_⟩
        by_cases hix : i = x
        · simp [hix, hsus, hmiss]
        · simp [hix, hmiss]
  rw [compareTentTrees_eq]
  have h0 : NewInputsInv aid db [] { db := db } := ⟨rfl, rfl, by simp⟩
  obtain ⟨s, hs, hdb, himp, hmiss⟩ := foldlM_invariant h0 hstep
  refine ⟨s, hs, hdb, himp, fun i => ?_⟩
  rw [hmiss, hmem]
  exact and_assoc

/-! ### Connecting the missing inputs -/

/-- A file that the declared inputs lead to: it has a link to one of the groups, or a path of links
to one of the sticky inputs. -/
def Declared (db : Db) (stickyRoot groupRoot : TentTree) (i : TupId) : Prop :=
  (∃ g ∈ groupRoot, NormalAdj db i g) ∨ ∃ j ∈ stickyRoot, TransGen (NormalAdj db) i j

theorem connectMissing_spec (hdb : db.Ok) (hac : ∀ i, ¬ TransGen (NormalAdj db) i i)
    (stickyRoot groupRoot : TentTree) {l : List TupId}
    (hl : ∀ i ∈ l, ∃ t, tupEntryAdd db i = some t) (missing : TentTree) :
    ∃ m, connectMissing db stickyRoot groupRoot l missing = (m, true) ∧
      ∀ i, i ∈ m ↔ i ∈ missing ∧ ¬ (i ∈ l ∧ Declared db stickyRoot groupRoot i) := by
  induction l generalizing missing with
  | nil => exact ⟨missing, rfl, by simp⟩
  | cons i rest ih =>
    obtain ⟨t, ht⟩ := hl i (by simp)
    obtain ⟨hmem, hid⟩ := mem_node_of_tupEntryAdd ht
    have htail : ∀ j ∈ rest, ∃ t, tupEntryAdd db j = some t := fun j hj => hl j (by simp [hj])
    have hgroup : (groupRoot.ids.any fun g => tupDbLinkExists db i g .normal) = true ↔
        ∃ g ∈ groupRoot, NormalAdj db i g := by
      simp [TentTree.mem_def]
    obtain ⟨b, hb, hpath⟩ := nodesAreConnected_spec hdb hac hmem stickyRoot
    rw [hid] at hpath
    -- both ways of being connected take the file out of the tree
    have hremove : Declared db stickyRoot groupRoot i →
        ∃ m, connectMissing db stickyRoot groupRoot rest (tentTreeRemove missing i) = (m, true) ∧
          ∀ j, j ∈ m ↔ j ∈ missing ∧ ¬ (j ∈ i :: rest ∧ Declared db stickyRoot groupRoot j) := by
      intro hd
      obtain ⟨m, hm, hspec⟩ := ih htail (tentTreeRemove missing i)
      refine ⟨m, hm, fun j => ?_⟩
      rw [hspec, mem_tentTreeRemove, List.mem_cons]
      by_cases hj : j = i
      · simp [hj, hd]
      · simp [hj]
    unfold connectMissing
    rw [ht]
    dsimp only
    split
    · next h => exact hremove (.inl (hgroup.1 h))
    · next h =>
      rw [hb]
      cases b with
      | true => exact hremove (.inr (hpath.1 rfl))
      | false =>
        have hnot : ¬ Declared db stickyRoot groupRoot i := by
          rintro (hg | hp)
          · exact h (hgroup.2 hg)
          · simpa using hpath.2 hp
        obtain ⟨m, hm, hspec⟩ := ih htail missing
        refine ⟨m, hm, fun j => ?_⟩
        rw [hspec, List.mem_cons]
        by_cases hj : j = i
        · simp [hj, hnot]
        · simp [hj]

/-- `check_generated_inputs` keeps the missing inputs nothing declared leads to, and fails when
there are any. -/
theorem checkGeneratedInputs_spec (hdb : db.Ok) (hac : ∀ i, ¬ TransGen (NormalAdj db) i i)
    (stickyRoot groupRoot : TentTree) {missing : TentTree}
    (hm : ∀ i ∈ missing, ∃ t, tupEntryAdd db i = some t) :
    ∃ m rc, checkGeneratedInputs db missing stickyRoot groupRoot = (m, rc) ∧
      (∀ i, i ∈ m ↔ i ∈ missing ∧ ¬ Declared db stickyRoot groupRoot i) ∧
      (rc ≠ 0 ↔ ∃ i, i ∈ m) := by
  obtain ⟨m, hconn, hspec⟩ := connectMissing_spec hdb hac stickyRoot groupRoot (l := missing.ids) hm missing
  have hmem : ∀ i, i ∈ m ↔ i ∈ missing ∧ ¬ Declared db stickyRoot groupRoot i := by
    intro i
    rw [hspec, TentTree.mem_def (t := missing)]
    exact ⟨fun h => ⟨h.1, fun hd => h.2 ⟨h.1, hd⟩⟩, fun h => ⟨h.1, fun hd => h.2 hd.2⟩⟩
  by_cases he : m = ∅
  · refine ⟨m, 0, by simp [checkGeneratedInputs, hconn, he], hmem, ?_⟩
    simp [he]
  · refine ⟨m, -1, by simp [checkGeneratedInputs, hconn, he], hmem, ?_⟩
    simp only [ne_eq, Int.reduceNeg, neg_eq_zero, one_ne_zero, not_false_eq_true, true_iff]
    by_contra hno
    exact he (TentTree.ext_mem fun i => by simpa using fun hi => hno ⟨i, hi⟩)

/-! ### Bringing the links in order -/

/-- The state when the second walk has called back for `pre`. -/
structure LinksInv (aid : ActualInputData) (db : Db) (missing : TentTree)
    (pre : List (TupId ⊕ TupId)) (s : ActualInputState) : Prop where
  missing_eq : s.missingInputRoot = missing
  frame : s.db = { db with normalLink := s.db.normalLink, ghostRoot := s.db.ghostRoot }
  links : ∀ a b, NormalAdj s.db a b ↔ NormalAdj db a b ∧ ¬ (b = aid.cmdid ∧ .inr a ∈ pre) ∨
    b = aid.cmdid ∧ .inl a ∈ pre ∧ a ∉ aid.outputRoot ∧ a ∉ missing
  important : s.importantLinkRemoved = true ↔
    ∃ i t, .inr i ∈ pre ∧ tupEntryAdd db i = some t ∧ t.type = .generated

namespace LinksInv

variable {missing : TentTree} {pre : List (TupId ⊕ TupId)} {s : ActualInputState} {i : TupId}

theorem tupEntryAdd (h : LinksInv aid db missing pre s) (i : TupId) :
    tupEntryAdd s.db i = Metatup.tupEntryAdd db i := by
  rw [h.frame]
  rfl

/-- One call of `new_normal_link`. -/
theorem newNormalLink (h : LinksInv aid db missing pre s) (hdb : db.Ok) {t : TupEntry}
    (ht : Metatup.tupEntryAdd db i = some t) (htype : t.type ≠ .cmd) (hne : i ≠ aid.cmdid)
    (hcmd : 0 < aid.cmdid) (hnew : ¬ NormalAdj db i aid.cmdid) (hpre : .inl i ∉ pre) :
    ∃ s', Metatup.newNormalLink aid s i = some s' ∧ LinksInv aid db missing (pre ++ [.inl i]) s' := by
  have himp : ∀ s' : ActualInputState, s'.importantLinkRemoved = s.importantLinkRemoved →
      (s'.importantLinkRemoved = true ↔ ∃ j t, .inr j ∈ pre ++ [.inl i] ∧
        Metatup.tupEntryAdd db j = some t ∧ t.type = .generated) := by
    intro s' hs'
    rw [hs', h.important]
    simp
  by_cases hskip : i ∈ aid.outputRoot ∨ i ∈ missing
  · refine ⟨s, ?_, h.missing_eq, h.frame, fun a b => ?_, himp s rfl⟩
    · rcases hskip with ho | hm
      · simp [Metatup.newNormalLink, ho]
      · by_cases ho : i ∈ aid.outputRoot <;> simp [Metatup.newNormalLink, ho, h.missing_eq, hm]
    · rw [h.links]
      by_cases ha : a = i
      · have : ¬ (a ∉ aid.outputRoot ∧ a ∉ missing) := by
          rw [ha]
          rintro ⟨ho, hm⟩
          exact hskip.elim ho hm
        simp only [List.mem_append, List.mem_singleton, reduceCtorEq, or_false]
        grind
      · simp [ha]
  · rw [not_or] at hskip
    have hfree : ¬ NormalAdj s.db i aid.cmdid := by
      rw [h.links]
      rintro (⟨hadj, _⟩ | ⟨_, hin, _⟩)
      · exact hnew hadj
      · exact hpre hin
    have hins := linkInsert_normal hne (hdb.pos_of_tupEntryAdd ht) hcmd hfree
    refine ⟨{ s with db := { s.db with normalLink := ⟨i, aid.cmdid⟩ :: s.db.normalLink } }, ?_,
      h.missing_eq, ?_, fun a b => ?_, himp _ rfl⟩
    · simp [Metatup.newNormalLink, hskip.1, h.missing_eq, hskip.2, h.tupEntryAdd, ht, htype, hins]
    · rw [h.frame]
    · have hcons : NormalAdj { s.db with normalLink := ⟨i, aid.cmdid⟩ :: s.db.normalLink } a b ↔
          (a = i ∧ b = aid.cmdid) ∨ NormalAdj s.db a b := by simp [NormalAdj]
      rw [hcons, h.links]
      simp only [List.mem_append, List.mem_singleton, reduceCtorEq, or_false, Sum.inl.injEq]
      by_cases ha : a = i
      · subst ha
        grind
      · simp only [ha, false_and, or_false, false_or]

/-- One call of `del_normal_link`. -/
theorem delNormalLink (h : LinksInv aid db missing pre s) {t : TupEntry}
    (ht : Metatup.tupEntryAdd db i = some t) (hold : NormalAdj db i aid.cmdid)
    (hpre : .inl i ∉ pre) :
    ∃ s', Metatup.delNormalLink aid s i = some s' ∧ LinksInv aid db missing (pre ++ [.inr i]) s' := by
  have heq : Metatup.delNormalLink aid s i = some { s with
      db := if tentTreeSearch aid.stickyRoot i then linkRemove s.db i aid.cmdid .normal
        else tupEntryAddGhostTree (linkRemove s.db i aid.cmdid .normal) t
      importantLinkRemoved := s.importantLinkRemoved || decide (t.type = .generated) } := by
    simp only [Metatup.delNormalLink, h.tupEntryAdd, ht, Option.bind_eq_bind, Option.bind_some]
    rfl
  refine ⟨_, heq, h.missing_eq, ?_, fun a b => ?_, ?_⟩
  · dsimp only
    split
    · rw [linkRemove_normal, h.frame]
    · rw [tupEntryAddGhostTree_eq, linkRemove_normal, h.frame]
  · have hrem : NormalAdj (linkRemove s.db i aid.cmdid .normal) a b ↔
        NormalAdj s.db a b ∧ ¬ (a = i ∧ b = aid.cmdid) := by
      simp only [linkRemove_normal, NormalAdj, List.mem_filter, ne_eq, Link.mk.injEq, decide_not,
        Bool.not_eq_true', decide_eq_false_iff_not]
    have hsame : NormalAdj (if tentTreeSearch aid.stickyRoot i then
          linkRemove s.db i aid.cmdid .normal
        else tupEntryAddGhostTree (linkRemove s.db i aid.cmdid .normal) t) a b ↔
        NormalAdj (linkRemove s.db i aid.cmdid .normal) a b := by
      split
      · rfl
      · rw [tupEntryAddGhostTree_eq]
        rfl
    dsimp only
    rw [hsame, hrem, h.links]
    simp only [List.mem_append, List.mem_singleton, reduceCtorEq, or_false, Sum.inr.injEq]
    by_cases ha : a = i
    · subst ha
      simp only [hpre, false_and, and_false, or_false, or_true, and_true, true_and]
      grind
    · simp only [ha, false_and, or_false, not_false_eq_true, and_true]
  · simp only [Bool.or_eq_true, h.important, decide_eq_true_eq]
    constructor
    · rintro (⟨j, u, hj, hu⟩ | hgen)
      · exact ⟨j, u, by simp [hj], hu⟩
      · exact ⟨i, t, by simp, ht, hgen⟩
    · rintro ⟨j, u, hj, hu, hgen⟩
      rcases List.mem_append.1 hj with hj | hj
      · exact .inl ⟨j, u, hj, hu, hgen⟩
      · obtain rfl : j = i := by simpa using hj
        rw [ht] at hu
        exact .inr (Option.some.inj hu ▸ hgen)

end LinksInv

/-- The second walk: afterwards the links into the command are the links to what was read, less the
outputs and the missing inputs among the new ones. -/
theorem updateLinks_spec (aid : ActualInputData) (hdb : db.Ok) (hr : ReadsOk db aid.cmdVariant readRoot)
    (hcmd : tupEntryAdd db aid.cmdid = some aid.cmdtent) (htype : aid.cmdtent.type = .cmd)
    (hn : ∀ i, i ∈ normalRoot ↔ NormalAdj db i aid.cmdid) (missing : TentTree) :
    ∃ s, compareTentTrees readRoot normalRoot (newNormalLink aid) (delNormalLink aid)
        { db := db, missingInputRoot := missing } = some s ∧
      (∀ i, NormalAdj s.db i aid.cmdid ↔ i ∈ normalRoot ∧ i ∈ readRoot ∨
        i ∈ readRoot ∧ i ∉ normalRoot ∧ i ∉ aid.outputRoot ∧ i ∉ missing) ∧
      (∀ a b, b ≠ aid.cmdid → (NormalAdj s.db a b ↔ NormalAdj db a b)) ∧
      s.db = { db with normalLink := s.db.normalLink, ghostRoot := s.db.ghostRoot } ∧
      (s.importantLinkRemoved = true ↔ ∃ i t, i ∈ normalRoot ∧ i ∉ readRoot ∧
        tupEntryAdd db i = some t ∧ t.type = .generated) := by
  have hmem := mem_diff readRoot.sorted normalRoot.sorted
  have hnd := diff_nodup readRoot.sorted normalRoot.sorted
  have hstep : ∀ pre z post s, diff readRoot.ids normalRoot.ids = pre ++ z :: post →
      LinksInv aid db missing pre s →
        ∃ s', onDiff (newNormalLink aid) (delNormalLink aid) s z = some s' ∧
          LinksInv aid db missing (pre ++ [z]) s' := by
    intro pre z post s hl h
    have hz : z ∈ diff readRoot.ids normalRoot.ids := by simp [hl]
    cases z with
    | inl x =>
      have hx : x ∈ readRoot ∧ x ∉ normalRoot := (hmem (.inl x)).1 hz
      have hpre : .inl x ∉ pre := fun h =>
        List.disjoint_of_nodup_append (hl ▸ hnd) h List.mem_cons_self
      obtain ⟨t, ht, hcmdt, -⟩ := hr x hx.1
      have hne : x ≠ aid.cmdid := by
        rintro rfl
        rw [hcmd] at ht
        exact hcmdt (Option.some.inj ht ▸ htype)
      have hnew : ¬ NormalAdj db x aid.cmdid := fun hadj => hx.2 ((hn x).2 hadj)
      exact h.newNormalLink hdb ht hcmdt hne (hdb.pos_of_tupEntryAdd hcmd) hnew hpre
    | inr y =>
      have hy : y ∈ normalRoot ∧ y ∉ readRoot := (hmem (.inr y)).1 hz
      have hold : NormalAdj db y aid.cmdid := (hn y).1 hy.1
      have hpre : .inl y ∉ pre := fun h =>
        hy.2 ((hmem (.inl y)).1 (by rw [hl]; exact List.mem_append_left _ h)).1
      obtain ⟨⟨t, ht, hid⟩, -⟩ := hdb.normal_mem _ hold
      have htent : tupEntryAdd db y = some t := by
        rw [← show t.tupid = y from hid]
        exact hdb.tupEntryAdd_of_mem ht
      exact h.delNormalLink htent hold hpre
  have h0 : LinksInv aid db missing [] { db := db, missingInputRoot := missing } :=
    ⟨rfl, rfl, by simp, by simp⟩
  rw [compareTentTrees_eq]
  obtain ⟨s, hs, h⟩ := foldlM_invariant h0 hstep
  refine ⟨s, hs, fun i => ?_, fun a b hb => ?_, h.frame, ?_⟩
  · rw [h.links, hmem, hmem, hn]
    simp only [true_and, Sum.elim_inl, Sum.elim_inr, ← TentTree.mem_def, hn]
    grind
  · rw [h.links]
    simp [hb]
  · rw [h.important]
    simp only [hmem, Sum.elim_inr, ← TentTree.mem_def, and_assoc]

/-! ### The whole check -/

/-- A read that is an error: a generated file that is neither a sticky input nor an output of the
command, that no pattern of the command allows, and that no declared input is reached from. -/
def Undeclared (matched : TupEntry → TupEntry → Text → Bool) (db : Db) (cmd : TupEntry)
    (readRoot stickyRoot groupRoot outputRoot : TentTree) (i : TupId) : Prop :=
  i ∈ readRoot ∧ i ∉ stickyRoot ∧ i ∉ outputRoot ∧
    (∃ t ∈ db.node, t.tupid = i ∧ t.type = .generated ∧
      ∀ row ∈ db.allowRead, row.cmdid = cmd.tupid → matched cmd t row.pattern = false) ∧
    ¬ (∃ g ∈ groupRoot, NormalAdj db i g) ∧ ¬ ∃ j ∈ stickyRoot, TransGen (NormalAdj db) i j

theorem tupDbIsAllowedRead_eq_false {matched : TupEntry → TupEntry → Text → Bool} {cmdid : TupId}
    {cmdtent tent : TupEntry} : tupDbIsAllowedRead db matched cmdid cmdtent tent = false ↔
      ∀ row ∈ db.allowRead, row.cmdid = cmdid → matched cmdtent tent row.pattern = false := by
  simp [tupDbIsAllowedRead, List.mem_insertionSort]

/-- The suspects that nothing declared leads to are the undeclared reads. -/
theorem undeclared_iff (aid : ActualInputData) (hdb : db.Ok)
    (hcmd : aid.cmdid = aid.cmdtent.tupid) (i : TupId) :
    Undeclared aid.matched db aid.cmdtent readRoot stickyRoot groupRoot aid.outputRoot i ↔
      (i ∈ readRoot ∧ i ∉ stickyRoot ∧ Suspect aid db i) ∧
        ¬ Declared db stickyRoot groupRoot i := by
  have hentry : (∃ t ∈ db.node, t.tupid = i ∧ t.type = .generated ∧
        ∀ row ∈ db.allowRead, row.cmdid = aid.cmdtent.tupid →
          aid.matched aid.cmdtent t row.pattern = false) ↔
      ∃ t, tupEntryAdd db i = some t ∧ t.type = .generated ∧
        tupDbIsAllowedRead db aid.matched aid.cmdtent.tupid aid.cmdtent t = false := by
    constructor
    · rintro ⟨t, ht, rfl, hgen, hrow⟩
      exact ⟨t, hdb.tupEntryAdd_of_mem ht, hgen, tupDbIsAllowedRead_eq_false.2 hrow⟩
    · rintro ⟨t, ht, hgen, hall⟩
      obtain ⟨hmem, hid⟩ := mem_node_of_tupEntryAdd ht
      exact ⟨t, hmem, hid, hgen, tupDbIsAllowedRead_eq_false.1 hall⟩
  unfold Undeclared Suspect Declared
  rw [hentry, hcmd, not_or]
  simp only [and_assoc]

/-- The command 7 read the generated files 2, 3 and 5. It declares 5, which 3 leads to; it used to
read 6. -/
def undeclaredDb : Db where
  node := [{ tupid := 1, dt := 0, type := .dir }, { tupid := 2, dt := 1, type := .generated },
    { tupid := 3, dt := 1, type := .generated }, { tupid := 4, dt := 1, type := .cmd },
    { tupid := 5, dt := 1, type := .generated }, { tupid := 6, dt := 1, type := .generated },
    { tupid := 7, dt := 1, type := .cmd }]
  normalLink := [⟨3, 4⟩, ⟨4, 5⟩, ⟨5, 7⟩, ⟨6, 7⟩]
  stickyLink := [⟨5, 7⟩]
  variants := [{ tent := 8, dtnode := 1, rootVariant := true }]

theorem undeclaredDb_increasing {a b : TupId} (h : TransGen (NormalAdj undeclaredDb) a b) :
    a < b := by
  have hstep : ∀ x y, NormalAdj undeclaredDb x y → x < y := by
    intro x y hxy
    simp only [NormalAdj, undeclaredDb, List.mem_cons, Link.mk.injEq, List.not_mem_nil,
      or_false] at hxy
    rcases hxy with ⟨rfl, rfl⟩ | ⟨rfl, rfl⟩ | ⟨rfl, rfl⟩ | ⟨rfl, rfl⟩ <;> decide
  induction h with
  | single h => exact hstep _ _ h
  | tail _ h ih => exact ih.trans (hstep _ _ h)

theorem undeclaredDb_ok : undeclaredDb.Ok where
  node_nodup := by decide
  node_pos := by decide
  normal_nodup := by decide
  normal_mem := by decide

end Metatup
