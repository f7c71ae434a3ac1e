import Mathlib.Data.List.Nodup
import Mathlib.Logic.Function.Basic
import Metatup.Db.ActualInputs
import Metatup.Updater.UpdateWork

/-!
# Comparing outputs

Before a command with the flag `o` is run its outputs are moved out of the way. When the command fails
they are moved back, and when it succeeds they are compared with what it has written, so that what
depends on an output that is the same can be skipped.

* `comparePaths_iff`: comparing two files.
* `CommandReads.check_importantLinkRemoved`: when a link from a generated file is dropped.
* `update`: a run of a command, with everything that can fail as an outcome.
-/

namespace Metatup

open Lib

/-! ### Comparing -/

/-- The type of a file. -/
inductive FileKind
  | regular | link | other
  deriving DecidableEq

/-- A file; what a symlink holds is its target, which is a path. -/
structure OutputFile where
  kind : FileKind
  mode : ℕ
  content : List UInt8
  short : kind = .link → content.length ≤ 4096

theorem OutputFile.ext {f g : OutputFile} (hkind : f.kind = g.kind) (hmode : f.mode = g.mode)
    (hcontent : f.content = g.content) : f = g := by
  cases f
  cases g
  cases hkind
  cases hmode
  cases hcontent
  rfl

/-- Source: `updater.c` `compare_files` -/
def compareFiles (c1 c2 : List UInt8) : Bool :=
  let b1 := c1.take 4096
  let b2 := c2.take 4096
  if b1.length ≠ b2.length then false
  else if _h : b1.length = 0 then true
  else if b1 ≠ b2 then false
  else compareFiles (c1.drop 4096) (c2.drop 4096)
termination_by c1.length
decreasing_by
  have hpos : (c1.take 4096).length ≠ 0 := _h
  rw [List.length_take] at hpos
  rw [List.length_drop]
  omega

/-- Source: `updater.c` `compare_links` -/
def compareLinks (c1 c2 : List UInt8) : Bool :=
  let b1 := c1.take 4096
  let b2 := c2.take 4096
  b1.length = b2.length && b1 = b2

/-- Source: `updater.c` `compare_paths`; the flags say that a call fails other than for a missing
file. -/
def comparePaths (stat1 stat2 read : Bool) (p1 p2 : Option OutputFile) : Option Bool :=
  if !stat1 then none
  else
    match p1 with
    | none => some false
    | some f1 =>
      if !stat2 then none
      else
        match p2 with
        | none => some false
        | some f2 =>
          if f1.content.length ≠ f2.content.length then some false
          else if (f1.kind, f1.mode) ≠ (f2.kind, f2.mode) then some false
          else if !read then none
          else if f1.kind = .link then some (compareLinks f1.content f2.content)
          else some (compareFiles f1.content f2.content)

theorem compareFiles_iff (c1 c2 : List UInt8) : compareFiles c1 c2 = true ↔ c1 = c2 := by
  fun_induction compareFiles c1 c2 with
  | case1 c1 c2 b1 b2 hlen =>
    refine iff_of_false (by simp) ?_
    rintro rfl
    exact hlen rfl
  | case2 c1 c2 b1 b2 hlen hzero =>
    have h1 : c1.length = 0 := by
      simp only [b1, List.length_take] at hzero
      omega
    have h2 : c2.length = 0 := by
      simp only [b1, b2, List.length_take] at hlen hzero
      omega
    rw [List.eq_nil_of_length_eq_zero h1, List.eq_nil_of_length_eq_zero h2]
    simp
  | case3 c1 c2 b1 b2 hlen hzero hne =>
    refine iff_of_false (by simp) ?_
    rintro rfl
    exact hne rfl
  | case4 c1 c2 b1 b2 hlen hzero hb ih =>
    have heq : c1.take 4096 = c2.take 4096 := not_not.1 hb
    rw [ih]
    constructor
    · intro hdrop
      rw [← List.take_append_drop 4096 c1, ← List.take_append_drop 4096 c2, heq, hdrop]
    · rintro rfl
      rfl

theorem compareLinks_iff {c1 c2 : List UInt8} (h1 : c1.length ≤ 4096) (h2 : c2.length ≤ 4096) :
    compareLinks c1 c2 = true ↔ c1 = c2 := by
  unfold compareLinks
  rw [List.take_of_length_le h1, List.take_of_length_le h2]
  simp only [Bool.and_eq_true, decide_eq_true_eq]
  constructor
  · exact fun h => h.2
  · rintro rfl
    exact ⟨rfl, rfl⟩

/-- Two paths compare as equal when both have a file of the same type, mode and content. -/
theorem comparePaths_iff {stat1 stat2 read b : Bool} {p1 p2 : Option OutputFile}
    (h : comparePaths stat1 stat2 read p1 p2 = some b) : b = true ↔ p1.isSome = true ∧ p1 = p2 := by
  unfold comparePaths at h
  split at h
  · cases h
  cases p1 with
  | none =>
    cases h
    simp
  | some f1 =>
    dsimp only at h
    split at h
    · cases h
    cases p2 with
    | none =>
      cases h
      simp
    | some f2 =>
      dsimp only at h
      split at h
      · next hlen =>
        cases h
        refine iff_of_false (by simp) ?_
        rintro ⟨-, heq⟩
        cases heq
        exact hlen rfl
      split at h
      · next hmode =>
        cases h
        refine iff_of_false (by simp) ?_
        rintro ⟨-, heq⟩
        cases heq
        exact hmode rfl
      · next hmode =>
        obtain ⟨hkind, hmode⟩ : f1.kind = f2.kind ∧ f1.mode = f2.mode :=
          Prod.ext_iff.1 (not_not.1 hmode)
        have hcontent : f1.content = f2.content ↔ (some f1).isSome = true ∧ some f1 = some f2 := by
          constructor
          · exact fun heq => ⟨rfl, congrArg some (OutputFile.ext hkind hmode heq)⟩
          · rintro ⟨-, heq⟩
            cases heq
            rfl
        split at h
        · cases h
        split at h
        · next hlink =>
          cases h
          rw [← hcontent, compareLinks_iff (f1.short hlink) (f2.short (hkind ▸ hlink))]
        · cases h
          rw [← hcontent, compareFiles_iff]

/-! ### Links that were dropped -/

/-- What `tup_db_check_actual_inputs` is called with after a command. -/
structure CommandReads where
  matched : TupEntry → TupEntry → Text → Bool
  db : Db
  cmdid : TupId
  readRoot : TentTree
  stickyRoot : TentTree
  normalRoot : TentTree
  groupStickyRoot : TentTree
  outputRoot : TentTree

def CommandReads.check (r : CommandReads) : Option ActualInputsResult :=
  tupDbCheckActualInputs r.matched r.db r.cmdid r.readRoot r.stickyRoot r.normalRoot
    r.groupStickyRoot r.outputRoot

/-- The command had a link from a generated file that it has not read this time. -/
def CommandReads.LinkDropped (r : CommandReads) : Prop :=
  ∃ i t, i ∈ r.normalRoot ∧ i ∉ r.readRoot ∧ tupEntryAdd r.db i = some t ∧ t.type = .generated

section

variable {aid : ActualInputData} {s s' : ActualInputState} {i : TupId}

theorem newInput_keeps (h : newInput aid s i = some s') :
    s'.db = s.db ∧ s'.importantLinkRemoved = s.importantLinkRemoved := by
  unfold newInput at h
  split at h
  · cases h
    exact ⟨rfl, rfl⟩
  obtain ⟨t, -, h⟩ := Option.bind_eq_some_iff.1 h
  obtain ⟨v, -, h⟩ := Option.bind_eq_some_iff.1 h
  split at h
  · cases h
  split at h
  · split at h
    · cases h
      exact ⟨rfl, rfl⟩
    · obtain ⟨m, -, h⟩ := Option.bind_eq_some_iff.1 h
      cases h
      exact ⟨rfl, rfl⟩
  · cases h
    exact ⟨rfl, rfl⟩

theorem newNormalLink_keeps (h : newNormalLink aid s i = some s') :
    s'.db.node = s.db.node ∧ s'.importantLinkRemoved = s.importantLinkRemoved := by
  unfold newNormalLink at h
  split at h
  · cases h
    exact ⟨rfl, rfl⟩
  split at h
  · cases h
    exact ⟨rfl, rfl⟩
  obtain ⟨t, -, h⟩ := Option.bind_eq_some_iff.1 h
  split at h
  · cases h
  obtain ⟨db, hdb, h⟩ := Option.bind_eq_some_iff.1 h
  cases h
  refine ⟨?_, rfl⟩
  unfold linkInsert at hdb
  split_ifs at hdb
  cases hdb
  rfl

theorem delNormalLink_drops (h : delNormalLink aid s i = some s') :
    ∃ t, tupEntryAdd s.db i = some t ∧ s'.db.node = s.db.node ∧
      (s'.importantLinkRemoved = true ↔ s.importantLinkRemoved = true ∨ t.type = .generated) := by
  unfold delNormalLink at h
  obtain ⟨t, ht, h⟩ := Option.bind_eq_some_iff.1 h
  cases h
  refine ⟨t, ht, ?_, by simp⟩
  dsimp only
  split
  · rfl
  · rw [tupEntryAddGhostTree_eq]
    rfl

end

/-- The check reports an important link exactly when one was dropped. -/
theorem CommandReads.check_importantLinkRemoved {r : CommandReads} {res : ActualInputsResult}
    (h : r.check = some res) : res.importantLinkRemoved = true ↔ r.LinkDropped := by
  unfold CommandReads.check tupDbCheckActualInputs at h
  obtain ⟨cmdtent, -, h⟩ := Option.bind_eq_some_iff.1 h
  obtain ⟨cmdVariant, -, h⟩ := Option.bind_eq_some_iff.1 h
  obtain ⟨s₁, hs₁, h⟩ := Option.bind_eq_some_iff.1 h
  obtain ⟨s₂, hs₂, h⟩ := Option.bind_eq_some_iff.1 h
  cases h
  rw [compareTentTrees_eq] at hs₁ hs₂
  obtain ⟨hdb₁, himp₁⟩ : s₁.db = r.db ∧ s₁.importantLinkRemoved = false := by
    apply foldlM_keeps (P := fun _ s => s.db = r.db ∧ s.importantLinkRemoved = false) hs₁ ⟨rfl, rfl⟩
    rintro pre (x | y) post s s' - ⟨hdb, himp⟩ hstep
    · obtain ⟨hdb', himp'⟩ := newInput_keeps hstep
      exact ⟨hdb'.trans hdb, himp'.trans himp⟩
    · cases hstep
      exact ⟨hdb, himp⟩
  have hkeep : s₂.db.node = r.db.node ∧ (s₂.importantLinkRemoved = true ↔
      ∃ i t, .inr i ∈ diff r.readRoot.ids r.normalRoot.ids ∧ tupEntryAdd r.db i = some t ∧
        t.type = .generated) := by
    apply foldlM_keeps (P := fun pre s => s.db.node = r.db.node ∧ (s.importantLinkRemoved = true ↔
      ∃ i t, .inr i ∈ pre ∧ tupEntryAdd r.db i = some t ∧ t.type = .generated)) hs₂
    · refine ⟨congrArg Db.node hdb₁, ?_⟩
      simp [himp₁]
    rintro pre (x | y) post s s' - ⟨hnode, himp⟩ hstep
    · obtain ⟨hnode', himp'⟩ := newNormalLink_keeps hstep
      refine ⟨hnode'.trans hnode, ?_⟩
      rw [himp', himp]
      simp
    · obtain ⟨t, ht, hnode', himp'⟩ := delNormalLink_drops hstep
      rw [show tupEntryAdd s.db y = tupEntryAdd r.db y by unfold tupEntryAdd; rw [hnode]] at ht
      refine ⟨hnode'.trans hnode, ?_⟩
      rw [himp', himp]
      constructor
      · rintro (⟨i, u, hi, hu, hgen⟩ | hgen)
        · exact ⟨i, u, List.mem_append_left _ hi, hu, hgen⟩
        · exact ⟨y, t, by simp, ht, hgen⟩
      · rintro ⟨i, u, hi, hu, hgen⟩
        rcases List.mem_append.1 hi with hi | hi
        · exact .inl ⟨i, u, hi, hu, hgen⟩
        · cases List.mem_singleton.1 hi
          rw [ht] at hu
          cases hu
          exact .inr hgen
  rw [hkeep.2]
  have hmem := mem_diff r.readRoot.sorted r.normalRoot.sorted
  constructor
  · rintro ⟨i, t, hi, ht, hgen⟩
    obtain ⟨hnormal, hread⟩ := (hmem (.inr i)).1 hi
    exact ⟨i, t, hnormal, hread, ht, hgen⟩
  · rintro ⟨i, t, hnormal, hread, ht, hgen⟩
    exact ⟨i, t, (hmem (.inr i)).2 ⟨hnormal, hread⟩, ht, hgen⟩

/-! ### The model of `update` -/

/-- How a command ended. -/
inductive CmdExit
  | exited (status : ℤ) | signalled | unset
  deriving DecidableEq

/-- What the calls made by `update` and the command do. A `Bool` is false when the call fails, and
for a rename, an unlink and an `lstat` when it fails other than for a missing file. -/
structure UpdateOutcome where
  openDir : Bool
  openOutputDir : TupId → Bool
  /-- `rename` in `move_outputs` -/
  moves : TupId → Bool
  unlinks : TupId → Bool
  closeOutputDir : TupId → Bool
  openSrcdir : Bool
  initServer : Bool
  getEnviron : Bool
  /-- `expand_command`, which fails on a group that is not among the inputs. -/
  expand : Bool
  /-- `server_exec` or `do_ln` -/
  exec : Bool
  /-- The files once the command is through. -/
  after : Text → Option OutputFile
  closeDirs : Bool
  tmpfile : Bool
  exit : CmdExit
  /-- `write_files` finds no temporary directory that is left. -/
  tmpdirs : Bool
  /-- `update_write_info` -/
  writeInfo : Bool
  /-- `add_node_to_tree` in `update_read_info` -/
  addNodes : Bool
  reads : CommandReads
  /-- The flag tables after `write_files`. -/
  flags : Flags
  /-- `rename` in `restore_outputs` -/
  restores : TupId → Bool
  /-- `lstat` and `tup_db_set_mtime` in `restore_outputs` -/
  noted : TupId → Bool
  statBackup : TupId → Bool
  statOutput : TupId → Bool
  readBoth : TupId → Bool
  /-- The end of `process_output`, where the output of the command is displayed. -/
  display : Bool
  setMtime : Bool
  /-- `tup_db_add_transient_list` -/
  addTransient : TupId → Bool
  postexec : Bool

/-- A command to be updated. The edges lead to different nodes, and these have different paths. -/
structure UpdateJob where
  env : UpdateEnv
  /-- Source: `entry.c` `snprint_tup_entry` -/
  path : TupId → Text
  g : Graph
  n : TupId
  outcome : UpdateOutcome
  nodup : ((outEdges g n).map (·.dest)).Nodup
  path_inj : ∀ a b, Adj g n a → Adj g n b → path a = path b → a = b

def UpdateJob.tent (job : UpdateJob) : TupEntry := (job.g.node job.n).tent

/-- `skip_output` -/
def UpdateJob.skips (job : UpdateJob) (i : TupId) : Bool :=
  skipOutput job.env.entry (job.g.node i).tent

/-- An edge to a file that the command writes. The other edges lead to groups, to nodes below the
virtual directories and to transient inputs that wait for the command. -/
def UpdateJob.IsOutput (job : UpdateJob) (i : TupId) : Prop :=
  Adj job.g job.n i ∧ job.skips i = false ∧ (job.g.node i).transient ≠ .delete

/-- The files outside `.metatup`, the files `.metatup/tmp/backup-%lli` by their number, and what the
workers share. -/
structure OutputState where
  files : Text → Option OutputFile
  backup : TupId → Option OutputFile
  work : Work

/-- What a loop over the outputs handles in one turn. -/
structure OutputPlace where
  file : Option OutputFile
  backup : Option OutputFile
  skip : Bool

def OutputState.place (path : TupId → Text) (s : OutputState) (i : TupId) : OutputPlace where
  file := s.files (path i)
  backup := s.backup i
  skip := s.work.skip i

def OutputState.put (path : TupId → Text) (s : OutputState) (i : TupId) (p : OutputPlace) :
    OutputState where
  files := Function.update s.files (path i) p.file
  backup := Function.update s.backup i p.backup
  work := { s.work with skip := Function.update s.work.skip i p.skip }

/-- The loop of `move_outputs`, `unlink_outputs` and `restore_outputs`, which stops at the first
turn that fails. -/
def eachOutput (path : TupId → Text) (turn : TupId → OutputPlace → Bool × OutputPlace) :
    List Edge → OutputState → Bool × OutputState
  | [], s => (true, s)
  | e :: es, s =>
    match turn e.dest (s.place path e.dest) with
    | (false, p) => (false, s.put path e.dest p)
    | (true, p) => eachOutput path turn es (s.put path e.dest p)

/-- A turn of `move_outputs`. -/
def moveOutput (job : UpdateJob) (i : TupId) (p : OutputPlace) : Bool × OutputPlace :=
  if job.skips i || (job.g.node i).transient = .delete then (true, p)
  else if !job.outcome.openOutputDir i then (false, p)
  else if !job.outcome.moves i then (false, p)
  else
    match p.file with
    | none => (true, p)
    | some f => (true, { p with file := none, backup := some f })

/-- A turn of `unlink_outputs`. -/
def unlinkOutput (job : UpdateJob) (i : TupId) (p : OutputPlace) : Bool × OutputPlace :=
  if job.skips i || (job.g.node i).transient = .delete then (true, p)
  else
    let p := { p with skip := false }
    let elsewhere := decide ((job.g.node i).tent.dt ≠ job.tent.dt)
    if elsewhere && !job.outcome.openOutputDir i then (false, p)
    else if !job.outcome.unlinks i then (false, p)
    else
      let p := { p with file := none }
      (!elsewhere || job.outcome.closeOutputDir i, p)

/-- A turn of `restore_outputs`. -/
def restoreOutput (job : UpdateJob) (i : TupId) (p : OutputPlace) : Bool × OutputPlace :=
  if job.skips i then (true, p)
  else if !job.outcome.restores i then (false, p)
  else
    match p.backup with
    | none => (job.outcome.noted i, p)
    | some f => (job.outcome.noted i, { p with file := some f, backup := none })

/-- Source: `updater.c` `move_outputs` -/
def moveOutputs (job : UpdateJob) (s : OutputState) : Bool × OutputState :=
  eachOutput job.path (moveOutput job) (outEdges job.g job.n) s

/-- Source: `updater.c` `unlink_outputs` -/
def unlinkOutputs (job : UpdateJob) (s : OutputState) : Bool × OutputState :=
  eachOutput job.path (unlinkOutput job) (outEdges job.g job.n) s

/-- Source: `updater.c` `restore_outputs` -/
def restoreOutputs (job : UpdateJob) (s : OutputState) : Bool × OutputState :=
  eachOutput job.path (restoreOutput job) (outEdges job.g job.n) s

/-- `compare_paths` as `check_outputs` calls it. -/
def samePaths (job : UpdateJob) (s : OutputState) (i : TupId) : Option Bool :=
  comparePaths (job.outcome.statBackup i) (job.outcome.statOutput i) (job.outcome.readBoth i)
    (s.backup i) (s.files (job.path i))

/-- `write_files` for a command that has exited with 0: `none` when it fails, and else whether an
important link was removed. The other calls of it only report.
Source: `file.c` `write_files`, `update_read_info` -/
def writeFiles (o : UpdateOutcome) : Option Bool :=
  if !o.tmpdirs then none
  else
    match o.reads.check with
    | none => none
    | some r => if o.writeInfo && o.addNodes && r.rc = 0 then some r.importantLinkRemoved else none

/-- Nothing when the command has failed (`is_err`), and else whether an important link was removed. -/
def exitResult (o : UpdateOutcome) : Option Bool :=
  if o.exit = .exited 0 then writeFiles o else none

/-- What `process_output` does with the outputs of a command that has the flag `o`. -/
def processCompared (job : UpdateJob) (s : OutputState) : Bool × OutputState :=
  match exitResult job.outcome with
  | none => restoreOutputs job s
  | some true => (true, { s with work := unskipOutputs job.g s.work job.n })
  | some false =>
    let (w, rc) := checkOutputs job.env.entry job.g (samePaths job s) s.work job.n
    (decide (rc = 0), { s with work := w })

/-- Source: `updater.c` `process_output` -/
def processOutput (job : UpdateJob) (s : OutputState) : Bool × OutputState :=
  if !job.outcome.tmpfile then (false, s)
  else
    let s := { s with work := { s.work with flags := job.outcome.flags } }
    let (ok, s) := if hasFlag job.tent 'o' then processCompared job s else (true, s)
    (ok && job.outcome.display && (exitResult job.outcome).isSome && job.outcome.setMtime, s)

/-- The loop of `mark_transient_outputs`. -/
def markTransientLoop (job : UpdateJob) : List Edge → OutputState → Bool × OutputState
  | [], s => (true, s)
  | e :: es, s =>
    if job.skips e.dest then markTransientLoop job es s
    else if !job.outcome.addTransient e.dest then (false, s)
    else markTransientLoop job es
      { s with work := { s.work with flags := tupDbAddTransientList s.work.flags e.dest } }

/-- Source: `updater.c` `mark_transient_outputs` -/
def markTransientOutputs (job : UpdateJob) (s : OutputState) : Bool × OutputState :=
  markTransientLoop job (outEdges job.g job.n) s

/-- What `update` does once the command is through.
Source: `updater.c` `update`, from the call of `process_output` on -/
def finishUpdate (job : UpdateJob) (s : OutputState) : Bool × OutputState :=
  match processOutput job s with
  | (false, s) => (false, s)
  | (true, s) =>
    let (ok, s) := if hasFlag job.tent 't' then markTransientOutputs job s else (true, s)
    (ok && job.outcome.postexec, s)

/-- The calls between `move_outputs` and the command. -/
def UpdateOutcome.setup (o : UpdateOutcome) : Bool :=
  o.openSrcdir && o.initServer && o.getEnviron && o.expand

/-- The flags are known and the directory can be opened. -/
def UpdateJob.opened (job : UpdateJob) : Bool :=
  job.tent.flags.all knownFlags.contains && job.outcome.openDir

/-- Source: `updater.c` `update` -/
def update (job : UpdateJob) (s : OutputState) : Bool × OutputState :=
  if !job.opened then (false, s)
  else
    match if hasFlag job.tent 'o' then moveOutputs job s else unlinkOutputs job s with
    | (false, s) => (false, s)
    | (true, s) =>
      if !job.outcome.setup then (false, s)
      else
        let s := { s with files := job.outcome.after }
        if !(job.outcome.exec && job.outcome.closeDirs) then (false, s) else finishUpdate job s

end Metatup
