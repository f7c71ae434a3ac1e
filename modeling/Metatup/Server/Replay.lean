import Mathlib.Logic.Function.Basic
import Metatup.Lib.Lts
import Metatup.Server.Fuse

/-!
# Replaying the accesses of a job

The accesses of a job are noted in three lists without times. A rename edits the names that are in the
lists, a write takes a name back out of the unlink list, and what is in the unlink list is taken out
of the other lists when the job is done.

* `replay`: the lists after the accesses of a job.
* `Performs`: the regular files, with which of them the job has written.
* `Replayed`: what the lists have to do with the files and with the history.
* `replay_exact`: the write list has the files that the job has written and that are still there, and
  the read list the names that have been read.
-/

namespace Metatup

open Lib

/-! ### The lists -/

/-- Source: `access_event.h` `struct access_event`, for the accesses to files. -/
inductive Access
  | read (filename : Text)
  | write (filename : Text)
  | unlink (filename : Text)
  | rename (src dst : Text)
  deriving DecidableEq

/-- Source: `file.c` `handle_file` -/
def Access.handle (info : FileInfo) : Access → FileInfo
  | .read filename => handleOpenFile .read filename info
  | .write filename => handleOpenFile .write filename info
  | .unlink filename => handleOpenFile .unlink filename info
  | .rename src dst => handleRename src dst info

/-- Source: `file.c` `init_file_info` -/
def initFileInfo : FileInfo where
  readList := []
  writeList := []
  unlinkList := []
  varList := []
  mappingList := []
  tmpdirList := []

/-- The lists when `write_files` looks at them. -/
def replay (tr : List Access) : FileInfo := handleUnlink (tr.foldl Access.handle initFileInfo)

/-! ### The files -/

/-- The regular files that are there; of each, whether the job has written it. -/
abbrev JobFiles := Text → Option Bool

/-- What a job can do. It removes and renames files that it has written only. -/
inductive Performs (fs : JobFiles) : Access → JobFiles → Prop
  | read (n : Text) : Performs fs (.read n) fs
  | write (n : Text) : Performs fs (.write n) (Function.update fs n (some true))
  | unlink (n : Text) : fs n = some true → Performs fs (.unlink n) (Function.update fs n none)
  | rename (src dst : Text) : fs src = some true →
      Performs fs (.rename src dst) (Function.update (Function.update fs src none) dst (some true))

/-- The access puts a file of the job at the name. -/
def Access.Puts (n : Text) : Access → Prop
  | .write m => n = m
  | .rename _ dst => n = dst
  | _ => False

/-- Where an access moves a name to. -/
def Access.moves (n : Text) : Access → Text
  | .rename src dst => if n = src then dst else n
  | _ => n

/-- The name after accesses that rename files. -/
def followed (tr : List Access) (n : Text) : Text := tr.foldl Access.moves n

/-- A name that has been read, as the files have been renamed since. -/
def ReadName (tr : List Access) (n : Text) : Prop :=
  ∃ pre m post, tr = pre ++ .read m :: post ∧ followed post m = n

/-- A name that has been unlinked, and neither written nor renamed into again. -/
def UnlinkedName (tr : List Access) (n : Text) : Prop :=
  ∃ pre post, tr = pre ++ .unlink n :: post ∧ ∀ e ∈ post, ¬ e.Puts n

/-! ### The last access -/

section

variable {fs fs₀ fs' : JobFiles} {tr : List Access} {e : Access} {n : Text} {info : FileInfo}

/-- A place in a history is the last one or a place before it. -/
theorem concat_eq_split {α : Type} {l pre post : List α} {a x : α} :
    l ++ [a] = pre ++ x :: post ↔
      (l = pre ∧ a = x ∧ post = []) ∨ ∃ post', l = pre ++ x :: post' ∧ post = post' ++ [a] := by
  constructor
  · intro h
    rcases List.eq_nil_or_concat post with rfl | ⟨post', b, rfl⟩
    · obtain ⟨rfl, hax⟩ := List.append_inj' h rfl
      exact .inl ⟨rfl, List.singleton_inj.1 hax, rfl⟩
    · rw [List.concat_eq_append, ← List.cons_append, ← List.append_assoc] at h
      obtain ⟨rfl, hab⟩ := List.append_inj' h rfl
      exact .inr ⟨post', rfl, by rw [List.concat_eq_append, hab]⟩
  · rintro (⟨rfl, rfl, rfl⟩ | ⟨post', rfl, rfl⟩)
    · rfl
    · simp

theorem readName_concat :
    ReadName (tr ++ [e]) n ↔ e = .read n ∨ ∃ m, ReadName tr m ∧ e.moves m = n := by
  constructor
  · rintro ⟨pre, m, post, htr, rfl⟩
    rcases concat_eq_split.1 htr with ⟨-, rfl, rfl⟩ | ⟨post', rfl, rfl⟩
    · exact .inl rfl
    · refine .inr ⟨followed post' m, ⟨pre, m, post', rfl, rfl⟩, ?_⟩
      unfold followed
      rw [List.foldl_append]
      rfl
  · rintro (rfl | ⟨-, ⟨pre, m, post, rfl, rfl⟩, rfl⟩)
    · exact ⟨tr, n, [], rfl, rfl⟩
    · refine ⟨pre, m, post ++ [e], by simp, ?_⟩
      unfold followed
      rw [List.foldl_append]
      rfl

theorem unlinkedName_concat :
    UnlinkedName (tr ++ [e]) n ↔ e = .unlink n ∨ (UnlinkedName tr n ∧ ¬ e.Puts n) := by
  constructor
  · rintro ⟨pre, post, htr, hpost⟩
    rcases concat_eq_split.1 htr with ⟨-, rfl, -⟩ | ⟨post', rfl, rfl⟩
    · exact .inl rfl
    · refine .inr ⟨⟨pre, post', rfl, fun a ha => hpost a (List.mem_append_left _ ha)⟩, ?_⟩
      exact hpost e (List.mem_append_right _ List.mem_cons_self)
  · rintro (rfl | ⟨⟨pre, post, rfl, hpost⟩, he⟩)
    · exact ⟨tr, [], rfl, fun a ha => absurd ha List.not_mem_nil⟩
    · refine ⟨pre, post ++ [e], by simp, fun a ha => ?_⟩
      rcases List.mem_append.1 ha with ha | ha
      · exact hpost a ha
      · rwa [List.mem_singleton.1 ha]

/-! ### The invariant -/

/-- What the lists have to do with the files and the history. A name in the unlink list may still be
in the write list: it is taken out in the end. -/
structure Replayed (fs : JobFiles) (tr : List Access) (info : FileInfo) : Prop where
  write : ∀ n, (n ∈ info.writeList ∧ n ∉ info.unlinkList) ↔ fs n = some true
  read : ∀ n, n ∈ info.readList ↔ ReadName tr n
  unlink : ∀ n, n ∈ info.unlinkList ↔ UnlinkedName tr n

theorem Replayed.init (h₀ : ∀ n, fs₀ n ≠ some true) : Replayed fs₀ [] initFileInfo where
  write n := iff_of_false (fun h => List.not_mem_nil h.1) (h₀ n)
  read n := by
    refine iff_of_false List.not_mem_nil ?_
    rintro ⟨pre, m, post, htr, -⟩
    simp at htr
  unlink n := by
    refine iff_of_false List.not_mem_nil ?_
    rintro ⟨pre, post, htr, -⟩
    simp at htr

/-- The read list follows an access that is no read. -/
theorem read_handle (h : ∀ n, n ∈ info.readList ↔ ReadName tr n) :
    n ∈ (e.handle info).readList ↔ ReadName (tr ++ [e]) n := by
  have hsame : (∃ m, ReadName tr m ∧ m = n) ↔ n ∈ info.readList := by
    rw [exists_eq_right, h]
  rw [readName_concat]
  cases e with
  | read m =>
    simp only [Access.handle, handleOpenFile, Access.moves, hsame, List.mem_append,
      List.mem_singleton, Access.read.injEq]
    rw [or_comm, eq_comm]
  | write m | unlink m =>
    simp only [Access.handle, handleOpenFile, Access.moves, hsame, reduceCtorEq, false_or]
  | rename src dst =>
    simp only [Access.handle, handleRename, Access.moves, List.mem_map, h, reduceCtorEq, false_or]

/-- The unlink list has the names that have been unlinked, and not put there again. -/
theorem unlink_handle (h : ∀ n, n ∈ info.unlinkList ↔ UnlinkedName tr n) :
    n ∈ (e.handle info).unlinkList ↔ UnlinkedName (tr ++ [e]) n := by
  rw [unlinkedName_concat, ← h]
  cases e with
  | read m => simp [Access.handle, handleOpenFile, Access.Puts]
  | write m => simp [Access.handle, handleOpenFile, checkUnlinkList, Access.Puts]
  | unlink m =>
    simp only [Access.handle, handleOpenFile, Access.Puts, List.mem_append, List.mem_singleton,
      Access.unlink.injEq, not_false_eq_true, and_true]
    rw [or_comm, eq_comm]
  | rename src dst => simp [Access.handle, handleRename, checkUnlinkList, Access.Puts]

/-- The write list, but for the names in the unlink list, has the files of the job. -/
theorem write_handle (h : ∀ n, (n ∈ info.writeList ∧ n ∉ info.unlinkList) ↔ fs n = some true)
    (hstep : Performs fs e fs') :
    (n ∈ (e.handle info).writeList ∧ n ∉ (e.handle info).unlinkList) ↔ fs' n = some true := by
  cases hstep with
  | read m => exact h n
  | write m =>
    rw [Function.update_apply]
    split
    · next hnm => simp [Access.handle, handleOpenFile, checkUnlinkList, hnm]
    · next hnm =>
      rw [← h n]
      simp [Access.handle, handleOpenFile, checkUnlinkList, hnm]
  | unlink m hm =>
    rw [Function.update_apply]
    split
    · next hnm => simp [Access.handle, handleOpenFile, hnm]
    · next hnm =>
      rw [← h n]
      simp [Access.handle, handleOpenFile, hnm]
  | rename src dst hsrc =>
    obtain ⟨hwritten, hkept⟩ := (h src).2 hsrc
    rw [Function.update_apply]
    split
    · next hdst =>
      -- the file that has been renamed is in the write list
      refine iff_of_true ⟨List.mem_map.2 ⟨src, hwritten, ?_⟩, ?_⟩ rfl
      · rw [if_pos rfl, hdst]
      · simp [Access.handle, handleRename, checkUnlinkList, hdst]
    · next hdst =>
      rw [Function.update_apply]
      have hunlink : n ∈ (Access.handle info (.rename src dst)).unlinkList ↔ n ∈ info.unlinkList := by
        simp [Access.handle, handleRename, checkUnlinkList, hdst]
      rw [hunlink]
      split
      · next hnsrc =>
        refine iff_of_false (fun hmem => ?_) (by simp)
        obtain ⟨m, -, hm⟩ := List.mem_map.1 hmem.1
        split at hm
        · exact hdst hm.symm
        · next hne => exact hne (hm.trans hnsrc)
      · next hnsrc =>
        rw [← h n, and_congr_left_iff]
        intro _
        constructor
        · intro hmem
          obtain ⟨m, hm, heq⟩ := List.mem_map.1 hmem
          split at heq
          · exact absurd heq.symm hdst
          · rwa [← heq]
        · exact fun hmem => List.mem_map.2 ⟨n, hmem, if_neg hnsrc⟩

theorem Replayed.step (h : Replayed fs tr info) (hstep : Performs fs e fs') :
    Replayed fs' (tr ++ [e]) (e.handle info) where
  write _ := write_handle h.write hstep
  read _ := read_handle h.read
  unlink _ := unlink_handle h.unlink

theorem replayed_of_run (h₀ : ∀ n, fs₀ n ≠ some true) (hrun : Run Performs fs₀ tr fs) :
    Replayed fs tr (tr.foldl Access.handle initFileInfo) := by
  induction hrun with
  | nil => exact .init h₀
  | snoc _ hstep ih =>
    rw [List.foldl_append]
    exact ih.step hstep

/-- After the accesses of a job the write list has the files that the job has written or renamed into
and that are still there; the read list has the names that have been read, as they have been renamed
since, but for those that have been unlinked and not written or renamed into again. -/
theorem replay_exact (h₀ : ∀ n, fs₀ n ≠ some true) (hrun : Run Performs fs₀ tr fs) :
    (∀ n, n ∈ (replay tr).writeList ↔ fs n = some true) ∧
      ∀ n, n ∈ (replay tr).readList ↔ ReadName tr n ∧ ¬ UnlinkedName tr n := by
  have hlists := replayed_of_run h₀ hrun
  unfold replay handleUnlink
  refine ⟨fun n => ?_, fun n => ?_⟩
  · rw [← hlists.write n]
    simp
  · rw [← hlists.read n, ← hlists.unlink n]
    simp

end

/-- A job that reads `i`, writes `t` and renames it to `o`, and has a temporary file `s`. -/
def temporaries : List Access :=
  [.read ['i'], .write ['t'], .read ['t'], .rename ['t'] ['o'], .write ['s'], .unlink ['s']]

theorem replay_exact_temporaries : ∃ fs, Run Performs (fun _ => none) temporaries fs ∧
    (∀ n, n ∈ (replay temporaries).writeList ↔ fs n = some true) ∧
      ∀ n, n ∈ (replay temporaries).readList ↔
        ReadName temporaries n ∧ ¬ UnlinkedName temporaries n := by
  have hwritten : Run Performs (fun _ => none) ([] ++ [.read ['i']] ++ [.write ['t']] ++
      [.read ['t']]) _ := ((Run.nil.snoc (.read ['i'])).snoc (.write ['t'])).snoc (.read ['t'])
  have hrun := ((hwritten.snoc (.rename ['t'] ['o'] rfl)).snoc (.write ['s'])).snoc
    (.unlink ['s'] rfl)
  exact ⟨_, hrun, replay_exact (fun _ => by simp) hrun⟩

end Metatup
