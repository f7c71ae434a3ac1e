import Mathlib.Data.Fintype.EquivFin
import Metatup.Lib.CallTree
import Metatup.Parser.Path
import Metatup.Server.Fuse

/-!
# The context of the parser

What of `struct tupfile` is changed while an included file or a function is parsed and has to be put
back, with the descriptors that are opened for it. What the file system and the database answer, and
which allocations fail, comes with each call.

* `parserIncludeFile`, `loadFunctionFile`, `invokeFunctionPath`, `executeFunction`: the functions that
  change the context.
* `Return.Misses`: the failures behind which `curtent` is not put back.
* `restored_iff_no_miss`: nothing else is left behind.
-/

namespace Metatup.Context

open Lib

/-! ### The context -/

/-- Source: `parser.h` `struct tupfile`, the fields that are saved and put back; the descriptors that are
open, of directories and of files; and the address of the next allocation. -/
structure ParseState where
  curtent : TupId
  /-- No descriptor is the `-1` of an open that failed. -/
  curDfd : Option ℕ
  functionRegistry : Option ℕ
  funcFrame : Option ℕ
  inFunctionBody : Bool
  allowFunctionIncludes : Bool
  functionRelDirOverride : Option Text
  dirs : Finset ℕ
  files : Finset ℕ
  nextAddr : ℕ

namespace ParseState

/-- The lowest descriptor that is not in use. -/
def newFd (s : ParseState) : ℕ := Nat.find (Infinite.exists_notMem_finset (s.dirs ∪ s.files))

/-- Open a directory and make it the current one, if it opens. -/
def openDir (s : ParseState) (opens : Bool) : ParseState :=
  if opens then { s with curDfd := some s.newFd, dirs := insert s.newFd s.dirs }
  else { s with curDfd := none }

/-- Open a file. -/
def openFile (s : ParseState) : ParseState := { s with files := insert s.newFd s.files }

/-- `close`; there is nothing to close at `-1` -/
def close (s : ParseState) : Option ℕ → ParseState
  | none => s
  | some fd => { s with dirs := s.dirs.erase fd, files := s.files.erase fd }

end ParseState

/-! ### Calls -/

/-- What `parser_include_file` is answered. -/
structure IncludeAnswers where
  file : Text
  /-- `find_dir_tupid_dt_pg`, if it is greater than `0` -/
  newdt : Option TupId
  /-- There is a last name. -/
  pel : Bool
  sameVariant : Bool
  /-- `variant_get_srctent` succeeds. -/
  srctent : Bool
  /-- `tup_db_select_tent_part` finds the file. -/
  tent : Bool
  dirOpens : Bool
  fileOpens : Bool
  slurps : Bool
  /-- The registry can be allocated. -/
  allocs : Bool
  fileCloses : Bool
  dirCloses : Bool

/-- What `load_function_file` has found out before it takes the path apart. -/
inductive Located
  /-- One of the errors on the way. -/
  | error
  /-- A file of the standard library, with its directory if that is inside of the project. -/
  | direct (relDir : Option Text)
  | relative (resolvedFile : Text) (allowHidden : Bool)

/-- What `load_function_file` is answered. -/
structure LoadAnswers where
  located : Located
  /-- The directory of a direct file can be copied. -/
  relDirCopied : Bool
  /-- `find_dir_tupid_dt_pg`, if it is greater than `0` and there is a last name -/
  newdt : Option TupId
  sameVariant : Bool
  /-- `variant_get_srctent` succeeds. -/
  srctent : Bool
  /-- `tup_db_select_tent_part` finds the file. -/
  tent : Bool
  /-- The path of the file fits its buffer. -/
  pathFits : Bool
  keyCopied : Bool
  /-- `function_registry_mark_loaded_file`: an error, or whether the file was marked before -/
  marked : Option Bool
  fileOpens : Bool
  dirOpens : Bool
  slurps : Bool

/-- What `execute_function` is answered. -/
structure ExecAnswers where
  argsCloned : Bool
  reldirSet : Bool
  brdirSet : Bool
  varsInit : Bool
  returnsInit : Bool
  bodyCopied : Bool
  /-- The caller asks for what is returned, and something is. -/
  hasReturn : Bool
  returnsCloned : Bool

/-- What `invoke_function_path` is answered. -/
structure InvokeAnswers where
  /-- The registry can be allocated. -/
  allocs : Bool
  load : LoadAnswers
  /-- The function is in the registry. -/
  found : Bool
  inheritReldir : Bool
  exec : ExecAnswers

/-- What the parser comes to in a file: a line that leaves the context alone, or a call of one of the
functions that change it. -/
inductive ParseCall
  | line (ok : Bool)
  | includeFile (a : IncludeAnswers)
  | loadFile (a : LoadAnswers)
  | invokePath (a : InvokeAnswers)
  | execute (a : ExecAnswers)

/-- A call that has returned, with the states around it. -/
structure Return where
  call : ParseCall
  before : ParseState
  after : ParseState

/-- What comes out of a function. -/
abbrev Parsed := Outcome ParseState Return

/-- A return of `-1`. -/
def failed (s : ParseState) : Parsed := ⟨false, s, []⟩

/-! ### Included files -/

section

variable (old : ParseState) (a : IncludeAnswers)

/-- `out_err` of `parser_include_file` -/
def outErr (o : Parsed) : Parsed :=
  { o with state := { o.state with curtent := old.curtent, curDfd := old.curDfd } }

/-- `out_close_dfd` of `parser_include_file` -/
def outCloseDfd (o : Parsed) : Parsed :=
  outErr old { o with ok := o.ok && a.dirCloses, state := o.state.close o.state.curDfd }

/-- `out_close` of `parser_include_file` -/
def outClose (fd : ℕ) (o : Parsed) : Parsed :=
  outCloseDfd old a { o with ok := o.ok && a.fileCloses, state := o.state.close fd }

/-- `out_free` of `parser_include_file` -/
def outFree (fd : ℕ) (o : Parsed) : Parsed :=
  outClose old a fd { o with
    state := { o.state with
      allowFunctionIncludes := old.allowFunctionIncludes
      functionRegistry := if o.state.functionRegistry ≠ old.functionRegistry then old.functionRegistry
        else o.state.functionRegistry } }

end

/-- The file has the extension of a Lua script. -/
def isLuaFile (file : Text) : Bool := strstrEnd ".lua".toList file = some []

/-- Source: `parser.c` `parser_include_file`; `parse` parses the contents. -/
def parserIncludeFile (top : Text) (a : IncludeAnswers) (parse : ParseState → Parsed)
    (s : ParseState) : Parsed :=
  if (getPathElements top a.file).hidden then outErr s (failed s)
  else
    match a.newdt with
    | none => outErr s (failed s)
    | some newtent =>
      if !a.pel then outErr s (failed s)
      else if !a.sameVariant then failed s
      else
        let s₁ := { s with curtent := newtent }
        -- this return and the one above do not go through `out_err`
        if !a.srctent then failed s₁
        else if !a.tent then outErr s (failed s₁)
        else
          let s₂ := s₁.openDir a.dirOpens
          if !a.dirOpens then outErr s (failed s₂)
          else if !a.fileOpens then outCloseDfd s a (failed s₂)
          else
            let fd := s₂.newFd
            let s₃ := s₂.openFile
            if !a.slurps then outClose s a fd (failed s₃)
            else if isLuaFile a.file then outFree s a fd (parse s₃)
            else if !a.allocs then outFree s a fd (failed { s₃ with functionRegistry := none })
            else
              outFree s a fd (parse { s₃ with
                functionRegistry := some s₃.nextAddr
                nextAddr := s₃.nextAddr + 1
                allowFunctionIncludes := false })

/-! ### Functions -/

/-- Source: `parser.c` `execute_function`; `parse` parses the body. -/
def executeFunction (a : ExecAnswers) (parse : ParseState → Parsed) (s : ParseState) : Parsed :=
  if !(a.argsCloned && a.reldirSet && a.brdirSet && a.varsInit && a.returnsInit && a.bodyCopied) then
    failed s
  else
    let o := parse { s with
      funcFrame := some s.nextAddr
      nextAddr := s.nextAddr + 1
      inFunctionBody := true }
    { o with
      ok := o.ok && (!a.hasReturn || a.returnsCloned)
      state := { o.state with inFunctionBody := s.inFunctionBody, funcFrame := s.funcFrame } }

section

variable (old : ParseState)

/-- `out` of `load_function_file` -/
def loadOut (o : Parsed) : Parsed :=
  { o with state := { o.state with
      allowFunctionIncludes := old.allowFunctionIncludes
      functionRelDirOverride := old.functionRelDirOverride } }

/-- `out_dfd` of `load_function_file` -/
def loadOutDfd (o : Parsed) : Parsed :=
  loadOut old { o with state := if o.ok then o.state else o.state.close o.state.curDfd }

/-- `out_fd` of `load_function_file` -/
def loadOutFd (fd : ℕ) (o : Parsed) : Parsed :=
  loadOutDfd old { o with state := o.state.close fd }

/-- `out_buf` of `load_function_file` -/
def loadOutBuf (fd : ℕ) (o : Parsed) : Parsed :=
  loadOutFd old fd { o with state := { o.state with
    allowFunctionIncludes := old.allowFunctionIncludes } }

end

/-- Where a file is loaded into a registry, `scan` reads its functions. The result of the scan is
overwritten by the one that marking the file has left. -/
def scanInto (reg : Option ℕ) (scan : ParseState → Parsed) (s : ParseState) : Parsed :=
  { scan { s with functionRegistry := reg, allowFunctionIncludes := true } with ok := true }

/-- `load_function_file` for a file of the standard library. From the mark on the result is `0`. -/
def loadDirect (a : LoadAnswers) (reg : Option ℕ) (scan : ParseState → Parsed) (relDir : Option Text)
    (s : ParseState) : Parsed :=
  if relDir.isSome && !a.relDirCopied then loadOut s (failed s)
  else
    let s₁ := { s with functionRelDirOverride := if relDir.isSome then relDir else s.functionRelDirOverride }
    if !a.keyCopied then loadOut s (failed s₁)
    else
      match a.marked with
      | none => loadOut s (failed s₁)
      | some true => loadOut s ⟨true, s₁, []⟩
      | some false =>
        if !a.fileOpens then loadOut s ⟨true, s₁, []⟩
        else
          let fd := s₁.newFd
          let s₂ := s₁.openFile.openDir a.dirOpens
          if !a.dirOpens then loadOutFd s fd ⟨true, s₂, []⟩
          else if !a.slurps then
            loadOutDfd s ⟨true, { s₂ with functionRegistry := reg, allowFunctionIncludes := true }, []⟩
          else loadOutBuf s fd (scanInto reg scan s₂)

/-- `load_function_file` for a file of the project. From the mark on the result is `0`. -/
def loadRelative (top : Text) (a : LoadAnswers) (reg : Option ℕ) (scan : ParseState → Parsed)
    (resolvedFile : Text) (allowHidden : Bool) (s : ParseState) : Parsed :=
  if (getPathElements top resolvedFile).hidden && !allowHidden then loadOut s (failed s)
  else
    match a.newdt with
    | none => loadOut s (failed s)
    | some newtent =>
      if !a.sameVariant then loadOut s (failed s)
      else
        let s₁ := { s with curtent := newtent }
        if !(a.srctent && a.tent && a.pathFits && a.keyCopied) then loadOut s (failed s₁)
        else
          match a.marked with
          | none => loadOut s (failed s₁)
          | some true => loadOut s ⟨true, s₁, []⟩
          | some false =>
            let s₂ := s₁.openDir a.dirOpens
            if !a.dirOpens then loadOut s ⟨true, s₂, []⟩
            else if !a.fileOpens then loadOutDfd s ⟨true, s₂, []⟩
            else
              let fd := s₂.newFd
              let s₃ := s₂.openFile
              if !a.slurps then loadOutFd s fd ⟨true, s₃, []⟩
              else loadOutBuf s fd (scanInto reg scan s₃)

/-- Source: `parser.c` `load_function_file`; `*oldtent` and `*old_dfd` are those of the state it is
called in. -/
def loadFunctionFile (top : Text) (a : LoadAnswers) (reg : Option ℕ) (scan : ParseState → Parsed)
    (s : ParseState) : Parsed :=
  match a.located with
  | .error => loadOut s (failed s)
  | .direct relDir => loadDirect a reg scan relDir s
  | .relative resolvedFile allowHidden => loadRelative top a reg scan resolvedFile allowHidden s

/-- Source: `parser.c` `restore_loaded_function_file` -/
def restoreLoadedFunctionFile (oldtent : TupId) (oldDfd : Option ℕ) (s : ParseState) : ParseState :=
  let s₁ := if s.curDfd.isSome ∧ s.curDfd ≠ oldDfd then s.close s.curDfd else s
  { s₁ with curtent := oldtent, curDfd := oldDfd }

/-- What `scan_tupfile_functions` does at an include line. -/
def scanIncludeLine (top : Text) (a : LoadAnswers) (scan : ParseState → Parsed) (s : ParseState) :
    Parsed :=
  let o := loadFunctionFile top a s.functionRegistry scan s
  if o.ok then { o with state := restoreLoadedFunctionFile s.curtent s.curDfd o.state } else o

/-- Source: `parser.c` `invoke_function_path` -/
def invokeFunctionPath (top : Text) (a : InvokeAnswers) (scan parse : ParseState → Parsed)
    (s : ParseState) : Parsed :=
  if !a.allocs then failed s
  else
    let tmpRegistry := some s.nextAddr
    let o := loadFunctionFile top a.load tmpRegistry scan { s with nextAddr := s.nextAddr + 1 }
    let done (o' : Parsed) : Parsed :=
      ⟨o'.ok, { restoreLoadedFunctionFile s.curtent s.curDfd o'.state with
        functionRegistry := s.functionRegistry }, o.returns ++ o'.returns⟩
    if !o.ok then { o with state := { o.state with functionRegistry := s.functionRegistry } }
    else if !a.found then done (failed o.state)
    else if a.inheritReldir then done (executeFunction a.exec parse o.state)
    else
      let o' := executeFunction a.exec parse { o.state with curtent := s.curtent, curDfd := s.curDfd }
      done { o' with state := { o'.state with curtent := o.state.curtent, curDfd := o.state.curDfd } }

/-! ### A whole parse -/

/-- Put a return on record. -/
def record (c : ParseCall) (f : ParseState → Parsed) (s : ParseState) : Parsed :=
  { f s with returns := (f s).returns ++ [⟨c, s, (f s).state⟩] }

/-- What the parser does at a line; the blocks are the functions of a file that is loaded, and the
contents of what is parsed. -/
def parseCall (top : Text) (c : ParseCall) (scan parse : ParseState → Parsed) : ParseState → Parsed :=
  match c with
  | .line ok => fun s => ⟨ok, s, []⟩
  | .includeFile a => record c (parserIncludeFile top a parse)
  | .loadFile a => record c (scanIncludeLine top a scan)
  | .invokePath a => record c (invokeFunctionPath top a scan parse)
  | .execute a => record c (executeFunction a parse)

/-- The lines of a file with all that is called from them. -/
abbrev Tupfile := CallTree ParseCall

/-- Source: `parser.c` `parse_tupfile` and `scan_tupfile_functions`, as far as they change the context -/
def parseTupfile (top : Text) (t : Tupfile) (s : ParseState) : Parsed := t.run (parseCall top) s

/-! ### What is put back -/

/-- The current directory is open, and what is allocated next is a new registry. -/
structure ParseState.Ok (s : ParseState) : Prop where
  dfd_open : ∀ fd, s.curDfd = some fd → fd ∈ s.dirs
  registry_lt : ∀ addr, s.functionRegistry = some addr → addr < s.nextAddr

/-- Everything but `curtent` is as before: the fields, and the directories that are open. No file that
was open is closed. -/
structure SameButTent (s s' : ParseState) : Prop where
  curDfd : s'.curDfd = s.curDfd
  functionRegistry : s'.functionRegistry = s.functionRegistry
  funcFrame : s'.funcFrame = s.funcFrame
  inFunctionBody : s'.inFunctionBody = s.inFunctionBody
  allowFunctionIncludes : s'.allowFunctionIncludes = s.allowFunctionIncludes
  functionRelDirOverride : s'.functionRelDirOverride = s.functionRelDirOverride
  dirs : s'.dirs = s.dirs
  files : s.files ⊆ s'.files
  nextAddr : s.nextAddr ≤ s'.nextAddr

/-- The context is put back. -/
structure Restored (s s' : ParseState) : Prop extends SameButTent s s' where
  curtent : s'.curtent = s.curtent

/-- `parser_include_file` returns without putting the directory back that it has made the current
one. -/
def IncludeAnswers.Misses (top : Text) (a : IncludeAnswers) (curtent : TupId) : Prop :=
  (getPathElements top a.file).hidden = false ∧ a.pel = true ∧ a.sameVariant = true ∧
    a.srctent = false ∧ ∃ newtent, a.newdt = some newtent ∧ newtent ≠ curtent

/-- `load_function_file` fails after it has made another directory the current one, and then nobody puts
it back. -/
def LoadAnswers.Misses (top : Text) (a : LoadAnswers) (curtent : TupId) : Prop :=
  ∃ resolvedFile allowHidden, a.located = .relative resolvedFile allowHidden ∧
    ((getPathElements top resolvedFile).hidden && !allowHidden) = false ∧ a.sameVariant = true ∧
    ((a.srctent && a.tent && a.pathFits && a.keyCopied) = false ∨ a.marked = none) ∧
    ∃ newtent, a.newdt = some newtent ∧ newtent ≠ curtent

/-- The call fails where `curtent` has changed and is not put back. -/
def Misses (top : Text) (c : ParseCall) (s : ParseState) : Prop :=
  match c with
  | .line _ => False
  | .includeFile a => a.Misses top s.curtent
  | .loadFile a => a.Misses top s.curtent
  | .invokePath a => a.allocs = true ∧ a.load.Misses top s.curtent
  | .execute _ => False

section

variable {s s' s'' : ParseState} {top : Text} {fd fd' : ℕ} {o : Parsed} {c : ParseCall}
  {F parse scan : ParseState → Parsed} {l l' : List Return}

theorem SameButTent.refl (s : ParseState) : SameButTent s s :=
  ⟨rfl, rfl, rfl, rfl, rfl, rfl, rfl, subset_rfl, le_rfl⟩

theorem SameButTent.trans (h : SameButTent s s') (h' : SameButTent s' s'') : SameButTent s s'' where
  curDfd := h'.curDfd.trans h.curDfd
  functionRegistry := h'.functionRegistry.trans h.functionRegistry
  funcFrame := h'.funcFrame.trans h.funcFrame
  inFunctionBody := h'.inFunctionBody.trans h.inFunctionBody
  allowFunctionIncludes := h'.allowFunctionIncludes.trans h.allowFunctionIncludes
  functionRelDirOverride := h'.functionRelDirOverride.trans h.functionRelDirOverride
  dirs := h'.dirs.trans h.dirs
  files := h.files.trans h'.files
  nextAddr := h.nextAddr.trans h'.nextAddr

theorem SameButTent.ok (h : SameButTent s s') (hs : s.Ok) : s'.Ok where
  dfd_open fd hfd := by
    rw [h.dirs]
    exact hs.dfd_open fd (h.curDfd ▸ hfd)
  registry_lt addr haddr := (hs.registry_lt addr (h.functionRegistry ▸ haddr)).trans_le h.nextAddr

theorem newFd_notMem (s : ParseState) : s.newFd ∉ s.dirs ∧ s.newFd ∉ s.files := by
  have h := Nat.find_spec (Infinite.exists_notMem_finset (s.dirs ∪ s.files))
  rw [Finset.mem_union, not_or] at h
  exact h

/-- What is to hold of the calls of a parse: all but `curtent` is put back, and `curtent` too when no
call misses it. -/
def Kept (top : Text) (s s' : ParseState) (l : List Return) : Prop :=
  s.Ok → SameButTent s s' ∧
    (∀ r ∈ l, SameButTent r.before r.after ∧
      (Misses top r.call r.before → r.after.curtent ≠ r.before.curtent)) ∧
    ((∀ r ∈ l, ¬ Misses top r.call r.before) →
      s'.curtent = s.curtent ∧ ∀ r ∈ l, r.after.curtent = r.before.curtent)

theorem Kept.nil (top : Text) (s : ParseState) : Kept top s s [] := fun _ =>
  ⟨.refl s, fun _ hr => absurd hr List.not_mem_nil, fun _ => ⟨rfl, fun _ hr => absurd hr List.not_mem_nil⟩⟩

theorem Kept.append (h : Kept top s s' l) (h' : Kept top s' s'' l') : Kept top s s'' (l ++ l') := by
  intro hs
  obtain ⟨hsame, hall, htent⟩ := h hs
  obtain ⟨hsame', hall', htent'⟩ := h' (hsame.ok hs)
  refine ⟨hsame.trans hsame', fun r hr => ?_, fun hmiss => ?_⟩
  · exact (List.mem_append.1 hr).elim (hall r) (hall' r)
  · obtain ⟨hcur, hr⟩ := htent fun r hr => hmiss r (List.mem_append_left l' hr)
    obtain ⟨hcur', hr'⟩ := htent' fun r hr => hmiss r (List.mem_append_right l hr)
    exact ⟨hcur'.trans hcur, fun r hmem => (List.mem_append.1 hmem).elim (hr r) (hr' r)⟩

/-- What is to hold of what comes out of a function before it goes on record. -/
def KeepsAt (top : Text) (c : ParseCall) (s : ParseState) (o : Parsed) : Prop :=
  SameButTent s o.state ∧
    (∀ r ∈ o.returns, SameButTent r.before r.after ∧
      (Misses top r.call r.before → r.after.curtent ≠ r.before.curtent)) ∧
    (Misses top c s → o.state.curtent ≠ s.curtent) ∧
    ((∀ r ∈ o.returns, ¬ Misses top r.call r.before) →
      (¬ Misses top c s → o.state.curtent = s.curtent) ∧
        ∀ r ∈ o.returns, r.after.curtent = r.before.curtent)

theorem record_kept (h : ∀ s, s.Ok → KeepsAt top c s (F s)) : Meets (Kept top) (record c F) := by
  intro s hs
  obtain ⟨hsame, hall, hmiss, htent⟩ := h s hs
  refine ⟨hsame, fun r hr => ?_, fun hno => ?_⟩
  · rcases List.mem_append.1 hr with hr | hr
    · exact hall r hr
    · rw [List.mem_singleton.1 hr]
      exact ⟨hsame, hmiss⟩
  · obtain ⟨hcur, hr⟩ := htent fun r hr => hno r (List.mem_append_left _ hr)
    have hself := hcur (hno ⟨c, s, (F s).state⟩ (List.mem_append_right _ List.mem_cons_self))
    refine ⟨hself, fun r hmem => ?_⟩
    rcases List.mem_append.1 hmem with hmem | hmem
    · exact hr r hmem
    · rw [List.mem_singleton.1 hmem]
      exact hself

/-- A function that puts everything back, around calls that do what they should. -/
theorem KeepsAt.of_restored {s₁ s₂ : ParseState} (h : Restored s o.state) (hmiss : ¬ Misses top c s)
    (hk : Kept top s₁ s₂ o.returns) (hok : s₁.Ok) : KeepsAt top c s o := by
  obtain ⟨-, hall, htent⟩ := hk hok
  exact ⟨h.toSameButTent, hall, fun hm => absurd hm hmiss, fun hno => ⟨fun _ => h.curtent, (htent hno).2⟩⟩

theorem KeepsAt.of_no_returns (h : SameButTent s o.state) (hret : o.returns = [])
    (hmiss : Misses top c s ↔ o.state.curtent ≠ s.curtent) : KeepsAt top c s o := by
  unfold KeepsAt
  rw [hret]
  refine ⟨h, fun _ hr => absurd hr List.not_mem_nil, hmiss.1, fun _ => ⟨fun hm => ?_, ?_⟩⟩
  · by_contra hne
    exact hm (hmiss.2 hne)
  · exact fun _ hr => absurd hr List.not_mem_nil

/-! ### Descriptors -/

/-- A directory has been opened and made the current one. -/
structure Opened (s s' : ParseState) (fd : ℕ) : Prop where
  not_dir : fd ∉ s.dirs
  not_file : fd ∉ s.files
  curDfd : s'.curDfd = some fd
  dirs : s'.dirs = insert fd s.dirs
  files : s.files ⊆ s'.files
  funcFrame : s'.funcFrame = s.funcFrame
  inFunctionBody : s'.inFunctionBody = s.inFunctionBody
  nextAddr : s.nextAddr ≤ s'.nextAddr

theorem Opened.sameButTent (h : Opened s s' fd) (h' : SameButTent s' s'') : Opened s s'' fd where
  not_dir := h.not_dir
  not_file := h.not_file
  curDfd := h'.curDfd.trans h.curDfd
  dirs := h'.dirs.trans h.dirs
  files := h.files.trans h'.files
  funcFrame := h'.funcFrame.trans h.funcFrame
  inFunctionBody := h'.inFunctionBody.trans h.inFunctionBody
  nextAddr := h.nextAddr.trans h'.nextAddr

theorem Opened.ok (h : Opened s s' fd) (hreg : ∀ addr, s'.functionRegistry = some addr → addr < s'.nextAddr) :
    s'.Ok where
  dfd_open fd' hfd := by
    rw [h.curDfd] at hfd
    rw [h.dirs, Option.some.inj hfd]
    exact Finset.mem_insert_self _ _
  registry_lt := hreg

/-- A file that was opened since is closed. -/
theorem Opened.closeFile (h : Opened s s' fd) (hd : fd' ∉ s.dirs) (hf : fd' ∉ s.files) (hne : fd' ≠ fd) :
    Opened s (s'.close (some fd')) fd where
  not_dir := h.not_dir
  not_file := h.not_file
  curDfd := h.curDfd
  dirs := by
    have hnot : fd' ∉ insert fd s.dirs := by
      rw [Finset.mem_insert, not_or]
      exact ⟨hne, hd⟩
    change s'.dirs.erase fd' = _
    rw [h.dirs, Finset.erase_eq_of_notMem hnot]
  files := by
    intro x hx
    refine Finset.mem_erase.2 ⟨?_, h.files hx⟩
    rintro rfl
    exact hf hx
  funcFrame := h.funcFrame
  inFunctionBody := h.inFunctionBody
  nextAddr := h.nextAddr

/-- The directory is closed. -/
theorem Opened.closeDir (h : Opened s s' fd) :
    (s'.close s'.curDfd).dirs = s.dirs ∧ s.files ⊆ (s'.close s'.curDfd).files := by
  rw [h.curDfd]
  constructor
  · change s'.dirs.erase fd = _
    rw [h.dirs, Finset.erase_insert h.not_dir]
  · intro x hx
    refine Finset.mem_erase.2 ⟨?_, h.files hx⟩
    rintro rfl
    exact h.not_file hx

@[simp] theorem close_fields (s : ParseState) (fd : Option ℕ) :
    (s.close fd).curtent = s.curtent ∧ (s.close fd).curDfd = s.curDfd ∧
    (s.close fd).functionRegistry = s.functionRegistry ∧ (s.close fd).funcFrame = s.funcFrame ∧
    (s.close fd).inFunctionBody = s.inFunctionBody ∧
    (s.close fd).allowFunctionIncludes = s.allowFunctionIncludes ∧
    (s.close fd).functionRelDirOverride = s.functionRelDirOverride ∧
    (s.close fd).nextAddr = s.nextAddr := by
  rcases fd with _ | fd
  · exact ⟨rfl, rfl, rfl, rfl, rfl, rfl, rfl, rfl⟩
  · exact ⟨rfl, rfl, rfl, rfl, rfl, rfl, rfl, rfl⟩

/-! ### Included files -/

theorem outCloseDfd_restored {a : IncludeAnswers} (h : Opened s o.state fd)
    (hreg : o.state.functionRegistry = s.functionRegistry)
    (hallow : o.state.allowFunctionIncludes = s.allowFunctionIncludes)
    (hrel : o.state.functionRelDirOverride = s.functionRelDirOverride) :
    Restored s (outCloseDfd s a o).state := by
  obtain ⟨hdirs, hfiles⟩ := h.closeDir
  obtain ⟨-, -, hr, hf, hi, ha, ho, hn⟩ := close_fields o.state o.state.curDfd
  exact ⟨⟨rfl, hr.trans hreg, hf.trans h.funcFrame, hi.trans h.inFunctionBody, ha.trans hallow,
    ho.trans hrel, hdirs, hfiles, hn ▸ h.nextAddr⟩, rfl⟩

theorem outClose_restored {a : IncludeAnswers} (h : Opened s o.state fd) (hd : fd' ∉ s.dirs)
    (hf : fd' ∉ s.files) (hne : fd' ≠ fd) (hreg : o.state.functionRegistry = s.functionRegistry)
    (hallow : o.state.allowFunctionIncludes = s.allowFunctionIncludes)
    (hrel : o.state.functionRelDirOverride = s.functionRelDirOverride) :
    Restored s (outClose s a fd' o).state :=
  outCloseDfd_restored (h.closeFile hd hf hne) hreg hallow hrel

theorem outFree_restored {a : IncludeAnswers} (h : Opened s o.state fd) (hd : fd' ∉ s.dirs)
    (hf : fd' ∉ s.files) (hne : fd' ≠ fd)
    (hrel : o.state.functionRelDirOverride = s.functionRelDirOverride) :
    Restored s (outFree s a fd' o).state := by
  have hreg : (if o.state.functionRegistry ≠ s.functionRegistry then s.functionRegistry
      else o.state.functionRegistry) = s.functionRegistry := by
    split
    · rfl
    · next heq => exact not_not.1 heq
  have hopen : Opened s { o.state with
      allowFunctionIncludes := s.allowFunctionIncludes
      functionRegistry := if o.state.functionRegistry ≠ s.functionRegistry then s.functionRegistry
        else o.state.functionRegistry } fd :=
    ⟨h.not_dir, h.not_file, h.curDfd, h.dirs, h.files, h.funcFrame, h.inFunctionBody, h.nextAddr⟩
  exact @outClose_restored s fd fd' ⟨o.ok, _, o.returns⟩ a hopen hd hf hne hreg rfl hrel

/-- What opening a directory and a file for parsing gives. -/
theorem opened_both (s : ParseState) (newtent : TupId) :
    let s₂ := { s with curtent := newtent }.openDir true
    Opened s s₂ s.newFd ∧ Opened s s₂.openFile s.newFd ∧ s₂.newFd ∉ s.dirs ∧ s₂.newFd ∉ s.files ∧
      s₂.newFd ≠ s.newFd := by
  intro s₂
  obtain ⟨hd, hf⟩ := newFd_notMem s
  obtain ⟨hd₂, hf₂⟩ := newFd_notMem s₂
  have hopen : Opened s s₂ s.newFd := ⟨hd, hf, rfl, rfl, subset_rfl, rfl, rfl, le_rfl⟩
  rw [hopen.dirs, Finset.mem_insert, not_or] at hd₂
  exact ⟨hopen, ⟨hd, hf, rfl, rfl, Finset.subset_insert _ _, rfl, rfl, le_rfl⟩, hd₂.2, hf₂, hd₂.1⟩

theorem parserIncludeFile_keepsAt (a : IncludeAnswers) (hparse : Meets (Kept top) parse) (s : ParseState)
    (hs : s.Ok) : KeepsAt top (.includeFile a) s (parserIncludeFile top a parse s) := by
  have hexit : ∀ o : Parsed, o.returns = [] → Restored s o.state →
      ¬ a.Misses top s.curtent → KeepsAt top (.includeFile a) s o := by
    intro o hret hres hmiss
    exact .of_restored hres hmiss (hret ▸ Kept.nil top s) hs
  have hback : ∀ newtent, Restored s (outErr s (failed { s with curtent := newtent })).state :=
    fun _ => ⟨.refl s, rfl⟩
  unfold parserIncludeFile
  split
  · next hhid =>
    refine hexit _ rfl (hback s.curtent) fun hm => ?_
    rw [hm.1] at hhid
    cases hhid
  next hhid =>
  split
  · next hdt =>
    refine hexit _ rfl (hback s.curtent) fun hm => ?_
    obtain ⟨-, -, -, -, newtent, hnew, -⟩ := hm
    rw [hdt] at hnew
    cases hnew
  next newtent hdt =>
  split
  · next hpel =>
    refine hexit _ rfl (hback s.curtent) fun hm => ?_
    rw [hm.2.1] at hpel
    cases hpel
  next hpel =>
  split
  · next hvar =>
    refine hexit _ rfl ⟨.refl s, rfl⟩ fun hm => ?_
    rw [hm.2.2.1] at hvar
    cases hvar
  next hvar =>
  dsimp only
  split
  · next hsrc =>
    refine .of_no_returns (o := failed { s with curtent := newtent })
      ⟨rfl, rfl, rfl, rfl, rfl, rfl, rfl, subset_rfl, le_rfl⟩ rfl ?_
    constructor
    · rintro ⟨-, -, -, -, newtent', hnew, hne⟩
      rw [hdt] at hnew
      rwa [← Option.some.inj hnew] at hne
    · intro hne
      exact ⟨by simpa using hhid, by simpa using hpel, by simpa using hvar, by simpa using hsrc, newtent, hdt, hne⟩
  next hsrc =>
  have hmiss : ¬ a.Misses top s.curtent := by
    rintro ⟨-, -, -, hm, -⟩
    rw [hm] at hsrc
    exact hsrc rfl
  split
  · exact hexit _ rfl (hback newtent) hmiss
  split
  · next hdir =>
    have hclosed : a.dirOpens = false := by simpa using hdir
    rw [hclosed]
    exact hexit _ rfl (hback newtent) hmiss
  next hdir =>
  have hopens : a.dirOpens = true := by simpa using hdir
  rw [hopens]
  obtain ⟨hopen, hboth, hd, hf, hne⟩ := opened_both s newtent
  split
  · exact hexit _ rfl (outCloseDfd_restored hopen rfl rfl rfl) hmiss
  split
  · exact hexit _ rfl (outClose_restored hboth hd hf hne rfl rfl rfl) hmiss
  split
  · have hok := hboth.ok hs.registry_lt
    have hkept := hparse _ hok
    exact .of_restored (outFree_restored (hboth.sameButTent hkept.1) hd hf hne hkept.1.functionRelDirOverride)
      hmiss (hparse _) hok
  split
  · have hnull : Opened s { ({ s with curtent := newtent }.openDir true).openFile with
        functionRegistry := none } s.newFd :=
      ⟨hboth.not_dir, hboth.not_file, rfl, rfl, hboth.files, rfl, rfl, le_rfl⟩
    exact hexit _ rfl (outFree_restored hnull hd hf hne rfl) hmiss
  · have hinner : Opened s { ({ s with curtent := newtent }.openDir true).openFile with
        functionRegistry := some s.nextAddr
        nextAddr := s.nextAddr + 1
        allowFunctionIncludes := false } s.newFd :=
      ⟨hboth.not_dir, hboth.not_file, rfl, rfl, hboth.files, rfl, rfl, Nat.le_succ _⟩
    have hok := hinner.ok fun addr haddr => Option.some.inj haddr ▸ Nat.lt_succ_self _
    have hkept := hparse _ hok
    exact .of_restored
      (outFree_restored (hinner.sameButTent hkept.1) hd hf hne hkept.1.functionRelDirOverride)
      hmiss (hparse _) hok

/-! ### Functions -/

/-- The context of a function is put back around its body; where `curtent` is afterwards is up to the
body. -/
theorem executeFunction_kept (a : ExecAnswers) (hparse : Meets (Kept top) parse) :
    Meets (Kept top) (executeFunction a parse) := by
  intro s hs
  unfold executeFunction
  split
  · exact Kept.nil top s hs
  · have hok : ParseState.Ok { s with
        funcFrame := some s.nextAddr
        nextAddr := s.nextAddr + 1
        inFunctionBody := true } :=
      ⟨hs.dfd_open, fun addr haddr => (hs.registry_lt addr haddr).trans (Nat.lt_succ_self _)⟩
    obtain ⟨hsame, hall, htent⟩ := hparse _ hok
    refine ⟨?_, hall, htent⟩
    exact ⟨hsame.curDfd, hsame.functionRegistry, rfl, rfl, hsame.allowFunctionIncludes,
      hsame.functionRelDirOverride, hsame.dirs, hsame.files, (Nat.le_succ _).trans hsame.nextAddr⟩

theorem executeFunction_keepsAt (a : ExecAnswers) (hparse : Meets (Kept top) parse) (s : ParseState)
    (hs : s.Ok) : KeepsAt top (.execute a) s (executeFunction a parse s) := by
  obtain ⟨hsame, hall, htent⟩ := executeFunction_kept a hparse s hs
  exact ⟨hsame, hall, False.elim, fun hno => ⟨fun _ => (htent hno).1, (htent hno).2⟩⟩

/-! ### Loading functions -/

/-- What loading has done to the context when it succeeds: at most a directory is open and a registry is
in use; where the current directory could not be opened there is none. -/
structure Loaded (reg : Option ℕ) (s s' : ParseState) : Prop where
  funcFrame : s'.funcFrame = s.funcFrame
  inFunctionBody : s'.inFunctionBody = s.inFunctionBody
  allowFunctionIncludes : s'.allowFunctionIncludes = s.allowFunctionIncludes
  functionRelDirOverride : s'.functionRelDirOverride = s.functionRelDirOverride
  functionRegistry : s'.functionRegistry = s.functionRegistry ∨ s'.functionRegistry = reg
  files : s.files ⊆ s'.files
  nextAddr : s.nextAddr ≤ s'.nextAddr
  dirs : ((s'.curDfd = s.curDfd ∨ s'.curDfd = none) ∧ s'.dirs = s.dirs) ∨
    ∃ fd, fd ∉ s.dirs ∧ fd ∉ s.files ∧ s'.curDfd = some fd ∧ s'.dirs = insert fd s.dirs

/-- What comes out of `load_function_file` -/
structure LoadKept (top : Text) (a : LoadAnswers) (reg : Option ℕ) (s : ParseState) (o : Parsed) :
    Prop where
  returns : ∃ s₁ s₂, s₁.Ok ∧ Kept top s₁ s₂ o.returns
  loaded : o.ok = true → Loaded reg s o.state ∧ ¬ a.Misses top s.curtent
  failed : o.ok = false → SameButTent s o.state ∧ o.returns = [] ∧
    (a.Misses top s.curtent ↔ o.state.curtent ≠ s.curtent)

variable {reg : Option ℕ} {a : LoadAnswers}

theorem Opened.loaded (h : Opened s s' fd)
    (hallow : s'.allowFunctionIncludes = s.allowFunctionIncludes)
    (hrel : s'.functionRelDirOverride = s.functionRelDirOverride)
    (hreg : s'.functionRegistry = s.functionRegistry ∨ s'.functionRegistry = reg) : Loaded reg s s' :=
  ⟨h.funcFrame, h.inFunctionBody, hallow, hrel, hreg, h.files, h.nextAddr,
    .inr ⟨fd, h.not_dir, h.not_file, h.curDfd, h.dirs⟩⟩

/-- Nothing is closed at the end of a load that succeeds but the file. -/
theorem loadOutFd_loaded (h : Opened s o.state fd) (hok : o.ok = true) (hd : fd' ∉ s.dirs)
    (hf : fd' ∉ s.files) (hne : fd' ≠ fd)
    (hreg : o.state.functionRegistry = s.functionRegistry ∨ o.state.functionRegistry = reg) :
    Loaded reg s (loadOutFd s fd' o).state := by
  obtain ⟨h₁, h₂, h₃, h₄, h₅, h₆, h₇, h₈⟩ := h.closeFile hd hf hne
  unfold loadOutFd loadOutDfd
  dsimp only
  rw [if_pos hok]
  have hout : Opened s (loadOut s ⟨o.ok, o.state.close (some fd'), o.returns⟩).state fd :=
    ⟨h₁, h₂, h₃, h₄, h₅, h₆, h₇, h₈⟩
  exact hout.loaded rfl rfl hreg

theorem loadOutDfd_loaded (h : Opened s o.state fd) (hok : o.ok = true)
    (hreg : o.state.functionRegistry = s.functionRegistry ∨ o.state.functionRegistry = reg) :
    Loaded reg s (loadOutDfd s o).state := by
  obtain ⟨h₁, h₂, h₃, h₄, h₅, h₆, h₇, h₈⟩ := h
  unfold loadOutDfd
  rw [if_pos hok]
  have hout : Opened s (loadOut s ⟨o.ok, o.state, o.returns⟩).state fd :=
    ⟨h₁, h₂, h₃, h₄, h₅, h₆, h₇, h₈⟩
  exact hout.loaded rfl rfl hreg

/-- The functions of the file are read in the directory that was opened. -/
theorem loadOutBuf_scanInto (h : Opened s s' fd) (hscan : Meets (Kept top) scan) (hd : fd' ∉ s.dirs)
    (hf : fd' ∉ s.files) (hne : fd' ≠ fd) (hreg : ∀ addr, reg = some addr → addr < s.nextAddr) :
    Loaded reg s (loadOutBuf s fd' (scanInto reg scan s')).state ∧
      ∃ s₁ s₂, s₁.Ok ∧ Kept top s₁ s₂ (loadOutBuf s fd' (scanInto reg scan s')).returns := by
  have hinner : Opened s { s' with functionRegistry := reg, allowFunctionIncludes := true } fd :=
    ⟨h.not_dir, h.not_file, h.curDfd, h.dirs, h.files, h.funcFrame, h.inFunctionBody, h.nextAddr⟩
  have hok := hinner.ok fun addr haddr => (hreg addr haddr).trans_le h.nextAddr
  have hkept := hscan _ hok
  obtain ⟨h₁, h₂, h₃, h₄, h₅, h₆, h₇, h₈⟩ := hinner.sameButTent hkept.1
  refine ⟨?_, _, _, hok, hscan _⟩
  have hread : Opened s { (scanInto reg scan s').state with
      allowFunctionIncludes := s.allowFunctionIncludes } fd := ⟨h₁, h₂, h₃, h₄, h₅, h₆, h₇, h₈⟩
  exact @loadOutFd_loaded s fd fd' ⟨true, _, _⟩ reg hread rfl hd hf hne (.inr hkept.1.functionRegistry)

theorem LoadKept.of_loaded (h : Loaded reg s o.state) (hok : o.ok = true) (hmiss : ¬ a.Misses top s.curtent)
    (hret : ∃ s₁ s₂, s₁.Ok ∧ Kept top s₁ s₂ o.returns) : LoadKept top a reg s o where
  returns := hret
  loaded _ := ⟨h, hmiss⟩
  failed hno := by rw [hok] at hno; cases hno

theorem LoadKept.of_failed (hs : s.Ok) (h : SameButTent s o.state) (hok : o.ok = false)
    (hret : o.returns = []) (hmiss : a.Misses top s.curtent ↔ o.state.curtent ≠ s.curtent) :
    LoadKept top a reg s o where
  returns := ⟨s, s, hs, hret ▸ Kept.nil top s⟩
  loaded hyes := by rw [hok] at hyes; cases hyes
  failed _ := ⟨h, hret, hmiss⟩

/-- The file is opened first and then its directory. -/
theorem opened_file_first (s : ParseState) (dir : Option Text) :
    let s₁ := { s with functionRelDirOverride := dir }
    Opened s (s₁.openFile.openDir true) s₁.openFile.newFd ∧ s.newFd ∉ s.dirs ∧ s.newFd ∉ s.files ∧
      s.newFd ≠ s₁.openFile.newFd := by
  intro s₁
  obtain ⟨hd, hf⟩ := newFd_notMem s
  obtain ⟨hd₁, hf₁⟩ := newFd_notMem s₁.openFile
  have hfiles : s₁.openFile.files = insert s.newFd s.files := rfl
  rw [hfiles, Finset.mem_insert, not_or] at hf₁
  exact ⟨⟨hd₁, hf₁.2, rfl, rfl, Finset.subset_insert _ _, rfl, rfl, le_rfl⟩, hd, hf, Ne.symm hf₁.1⟩

theorem loadDirect_kept (hscan : Meets (Kept top) scan) (hs : s.Ok)
    (hreg : ∀ addr, reg = some addr → addr < s.nextAddr) {relDir : Option Text}
    (hloc : a.located = .direct relDir) : LoadKept top a reg s (loadDirect a reg scan relDir s) := by
  have hmiss : ¬ a.Misses top s.curtent := by
    rintro ⟨resolvedFile, allowHidden, hloc', -⟩
    rw [hloc] at hloc'
    cases hloc'
  have hfail : ∀ dir, LoadKept top a reg s (loadOut s (failed { s with functionRelDirOverride := dir })) :=
    fun _ => .of_failed hs ⟨rfl, rfl, rfl, rfl, rfl, rfl, rfl, subset_rfl, le_rfl⟩ rfl rfl
      ⟨fun hm => absurd hm hmiss, fun hne => absurd rfl hne⟩
  have hnone : ∃ s₁ s₂, s₁.Ok ∧ Kept top s₁ s₂ [] := ⟨s, s, hs, .nil top s⟩
  have hold : ∀ dir, LoadKept top a reg s (loadOut s ⟨true, { s with functionRelDirOverride := dir }, []⟩) :=
    fun _ => .of_loaded ⟨rfl, rfl, rfl, rfl, .inl rfl, subset_rfl, le_rfl, .inl ⟨.inl rfl, rfl⟩⟩ rfl hmiss hnone
  unfold loadDirect
  split
  · exact hfail s.functionRelDirOverride
  dsimp only
  split
  · exact hfail _
  split
  · exact hfail _
  · exact hold _
  split
  · exact hold _
  generalize (if relDir.isSome = true then relDir else s.functionRelDirOverride) = dir
  obtain ⟨hopen, hd, hf, hne⟩ := opened_file_first s dir
  split
  · next hdir =>
    have hclosed : a.dirOpens = false := by simpa using hdir
    rw [hclosed]
    refine .of_loaded ⟨rfl, rfl, rfl, rfl, .inl rfl, ?_, le_rfl, .inl ⟨.inr rfl, ?_⟩⟩ rfl hmiss hnone
    · exact fun x hx => Finset.mem_erase.2
        ⟨ne_of_mem_of_not_mem hx hf, Finset.mem_insert_of_mem hx⟩
    · exact Finset.erase_eq_of_notMem hd
  next hdir =>
  have hopens : a.dirOpens = true := by simpa using hdir
  rw [hopens]
  split
  · have hset : Opened s { ({ s with functionRelDirOverride := dir }.openFile.openDir true) with
        functionRegistry := reg
        allowFunctionIncludes := true } _ :=
      ⟨hopen.not_dir, hopen.not_file, rfl, rfl, hopen.files, rfl, rfl, le_rfl⟩
    exact .of_loaded (loadOutDfd_loaded hset rfl (.inr rfl)) rfl hmiss hnone
  · obtain ⟨hloaded, hret⟩ := loadOutBuf_scanInto hopen hscan hd hf hne hreg
    exact .of_loaded hloaded rfl hmiss hret

theorem loadRelative_kept (hscan : Meets (Kept top) scan) (hs : s.Ok)
    (hreg : ∀ addr, reg = some addr → addr < s.nextAddr) {resolvedFile : Text} {allowHidden : Bool}
    (hloc : a.located = .relative resolvedFile allowHidden) :
    LoadKept top a reg s (loadRelative top a reg scan resolvedFile allowHidden s) := by
  have hfail : ¬ a.Misses top s.curtent → LoadKept top a reg s (loadOut s (failed s)) := fun hmiss =>
    .of_failed hs (.refl s) rfl rfl ⟨fun hm => absurd hm hmiss, fun hne => absurd rfl hne⟩
  have hnone : ∃ s₁ s₂, s₁.Ok ∧ Kept top s₁ s₂ [] := ⟨s, s, hs, .nil top s⟩
  unfold loadRelative
  split
  · next hhid =>
    refine hfail ?_
    rintro ⟨r, b, hr, hm, -⟩
    rw [hloc] at hr
    cases hr
    rw [hhid] at hm
    cases hm
  next hhid =>
  split
  · next hdt =>
    refine hfail ?_
    rintro ⟨r, b, -, -, -, -, newtent, hnew, -⟩
    rw [hdt] at hnew
    cases hnew
  next newtent hdt =>
  split
  · next hvar =>
    refine hfail ?_
    rintro ⟨r, b, -, -, hm, -⟩
    rw [hm] at hvar
    cases hvar
  next hvar =>
  dsimp only
  -- from here on the directory has changed
  have hmoved : (a.srctent && a.tent && a.pathFits && a.keyCopied) = false ∨ a.marked = none →
      LoadKept top a reg s (loadOut s (failed { s with curtent := newtent })) := by
    intro hbad
    refine .of_failed hs ⟨rfl, rfl, rfl, rfl, rfl, rfl, rfl, subset_rfl, le_rfl⟩ rfl rfl ⟨?_, fun hne => ?_⟩
    · rintro ⟨-, -, -, -, -, -, newtent', hnew, hne⟩
      rw [hdt] at hnew
      rwa [← Option.some.inj hnew] at hne
    · exact ⟨resolvedFile, allowHidden, hloc, by simpa using hhid, by simpa using hvar, hbad, newtent, hdt, hne⟩
  split
  · next hbad =>
    rw [Bool.not_eq_true'] at hbad
    exact hmoved (.inl hbad)
  next hgood =>
  have hmiss : ∀ b, a.marked = some b → ¬ a.Misses top s.curtent := by
    rintro b hb ⟨-, -, -, -, -, hm | hm, -⟩
    · rw [hm] at hgood
      exact hgood rfl
    · rw [hb] at hm
      cases hm
  split
  · next hmark => exact hmoved (.inr hmark)
  · next hmark =>
    exact .of_loaded ⟨rfl, rfl, rfl, rfl, .inl rfl, subset_rfl, le_rfl, .inl ⟨.inl rfl, rfl⟩⟩ rfl
      (hmiss _ hmark) hnone
  next hmark =>
  have hmiss' := hmiss _ hmark
  split
  · next hdir =>
    have hclosed : a.dirOpens = false := by simpa using hdir
    rw [hclosed]
    exact .of_loaded ⟨rfl, rfl, rfl, rfl, .inl rfl, subset_rfl, le_rfl, .inl ⟨.inr rfl, rfl⟩⟩ rfl hmiss' hnone
  next hdir =>
  have hopens : a.dirOpens = true := by simpa using hdir
  rw [hopens]
  obtain ⟨hopen, hboth, hd, hf, hne⟩ := opened_both s newtent
  split
  · exact .of_loaded (loadOutDfd_loaded hopen rfl (.inl rfl)) rfl hmiss' hnone
  split
  · exact .of_loaded (loadOutFd_loaded hboth rfl hd hf hne (.inl rfl)) rfl hmiss' hnone
  · obtain ⟨hloaded, hret⟩ := loadOutBuf_scanInto hboth hscan hd hf hne hreg
    exact .of_loaded hloaded rfl hmiss' hret

theorem loadFunctionFile_kept (a : LoadAnswers) (hscan : Meets (Kept top) scan) (hs : s.Ok)
    (hreg : ∀ addr, reg = some addr → addr < s.nextAddr) :
    LoadKept top a reg s (loadFunctionFile top a reg scan s) := by
  unfold loadFunctionFile
  split
  · next hloc =>
    refine .of_failed hs (.refl s) rfl rfl ⟨?_, fun hne => absurd rfl hne⟩
    rintro ⟨resolvedFile, allowHidden, hloc', -⟩
    rw [hloc] at hloc'
    cases hloc'
  · next relDir hloc => exact loadDirect_kept hscan hs hreg hloc
  · next resolvedFile allowHidden hloc => exact loadRelative_kept hscan hs hreg hloc

/-! ### Using what is loaded -/

/-- The directory that was opened is closed again. -/
theorem restore_loaded (h : Loaded reg s s') (hs : s.Ok) :
    let s'' := restoreLoadedFunctionFile s.curtent s.curDfd s'
    s''.dirs = s.dirs ∧ s.files ⊆ s''.files ∧ s''.curDfd = s.curDfd ∧ s''.curtent = s.curtent ∧
      s''.functionRegistry = s'.functionRegistry ∧ s''.funcFrame = s.funcFrame ∧
      s''.inFunctionBody = s.inFunctionBody ∧ s''.allowFunctionIncludes = s.allowFunctionIncludes ∧
      s''.functionRelDirOverride = s.functionRelDirOverride ∧ s.nextAddr ≤ s''.nextAddr := by
  intro s''
  obtain ⟨h₁, h₂, h₃, h₄, -, h₆, h₇, h₈⟩ := h
  rcases h₈ with ⟨hcur, hdirs⟩ | ⟨fd, hnd, hnf, hcur, hdirs⟩
  · have hno : ¬ (s'.curDfd.isSome = true ∧ s'.curDfd ≠ s.curDfd) := by
      rintro ⟨hsome, hne⟩
      rcases hcur with hcur | hcur
      · exact hne hcur
      · rw [hcur] at hsome
        cases hsome
    have hs'' : s'' = { s' with curtent := s.curtent, curDfd := s.curDfd } := by
      unfold s'' restoreLoadedFunctionFile
      rw [if_neg hno]
    rw [hs'']
    exact ⟨hdirs, h₆, rfl, rfl, rfl, h₁, h₂, h₃, h₄, h₇⟩
  · have hne : s'.curDfd ≠ s.curDfd := by
      intro heq
      exact hnd (hs.dfd_open fd (heq ▸ hcur))
    have hyes : s'.curDfd.isSome = true ∧ s'.curDfd ≠ s.curDfd := ⟨by rw [hcur]; rfl, hne⟩
    have hs'' : s'' = { (s'.close s'.curDfd) with curtent := s.curtent, curDfd := s.curDfd } := by
      unfold s'' restoreLoadedFunctionFile
      rw [if_pos hyes]
    rw [hs'', hcur]
    refine ⟨?_, ?_, rfl, rfl, rfl, h₁, h₂, h₃, h₄, h₇⟩
    · change s'.dirs.erase fd = s.dirs
      rw [hdirs, Finset.erase_insert hnd]
    · exact fun x hx => Finset.mem_erase.2 ⟨ne_of_mem_of_not_mem hx hnf, h₆ hx⟩

theorem scanIncludeLine_keepsAt (a : LoadAnswers) (hscan : Meets (Kept top) scan) (s : ParseState)
    (hs : s.Ok) : KeepsAt top (.loadFile a) s (scanIncludeLine top a scan s) := by
  obtain ⟨hret, hloaded, hfailed⟩ := loadFunctionFile_kept a hscan hs hs.registry_lt
  unfold scanIncludeLine
  dsimp only
  split
  · next hok =>
    obtain ⟨h, hmiss⟩ := hloaded hok
    obtain ⟨hdirs, hfiles, hcur, htent, hreg, hframe, hbody, hallow, hrel, hnext⟩ := restore_loaded h hs
    obtain ⟨s₁, s₂, hs₁, hk⟩ := hret
    have hreg' := h.functionRegistry
    rw [or_self] at hreg'
    exact .of_restored ⟨⟨hcur, hreg.trans hreg', hframe, hbody, hallow, hrel, hdirs, hfiles, hnext⟩, htent⟩
      hmiss hk hs₁
  · next hok =>
    obtain ⟨hsame, hnil, hmiss⟩ := hfailed (by simpa using hok)
    exact .of_no_returns hsame hnil hmiss

/-- What was loaded stays so around a call that puts everything but `curtent` back. -/
theorem Loaded.sameButTent (h : Loaded reg s s') (h' : SameButTent s' s'') : Loaded reg s s'' where
  funcFrame := h'.funcFrame.trans h.funcFrame
  inFunctionBody := h'.inFunctionBody.trans h.inFunctionBody
  allowFunctionIncludes := h'.allowFunctionIncludes.trans h.allowFunctionIncludes
  functionRelDirOverride := h'.functionRelDirOverride.trans h.functionRelDirOverride
  functionRegistry := by
    rw [h'.functionRegistry]
    exact h.functionRegistry
  files := h.files.trans h'.files
  nextAddr := h.nextAddr.trans h'.nextAddr
  dirs := by
    rw [h'.curDfd, h'.dirs]
    exact h.dirs

theorem Loaded.ok (h : Loaded reg s s') (hs : s.Ok) (hreg : ∀ addr, reg = some addr → addr < s.nextAddr) :
    s'.Ok where
  dfd_open fd hfd := by
    rcases h.dirs with ⟨hcur | hcur, hdirs⟩ | ⟨fd', -, -, hcur, hdirs⟩
    · rw [hdirs]
      exact hs.dfd_open fd (hcur ▸ hfd)
    · rw [hcur] at hfd
      cases hfd
    · rw [hcur] at hfd
      rw [hdirs, Option.some.inj hfd]
      exact Finset.mem_insert_self _ _
  registry_lt addr haddr := by
    rcases h.functionRegistry with heq | heq
    · exact (hs.registry_lt addr (heq ▸ haddr)).trans_le h.nextAddr
    · exact (hreg addr (heq ▸ haddr)).trans_le h.nextAddr

theorem invokeFunctionPath_keepsAt (a : InvokeAnswers) (hscan : Meets (Kept top) scan)
    (hparse : Meets (Kept top) parse) (s : ParseState) (hs : s.Ok) :
    KeepsAt top (.invokePath a) s (invokeFunctionPath top a scan parse s) := by
  unfold invokeFunctionPath
  split
  · next halloc =>
    refine .of_no_returns (o := failed s) (.refl s) rfl ⟨fun hm => ?_, fun hne => absurd rfl hne⟩
    rw [hm.1] at halloc
    cases halloc
  next halloc =>
  have hs' : ParseState.Ok { s with nextAddr := s.nextAddr + 1 } :=
    ⟨hs.dfd_open, fun addr haddr => (hs.registry_lt addr haddr).trans (Nat.lt_succ_self _)⟩
  have hreg : ∀ addr, some s.nextAddr = some addr → addr < s.nextAddr + 1 := by
    intro addr haddr
    rw [← Option.some.inj haddr]
    exact Nat.lt_succ_self _
  have hload : LoadKept top a.load _ _ _ := loadFunctionFile_kept a.load hscan hs' hreg
  obtain ⟨hret, hloaded, hfailed⟩ := hload
  dsimp only
  generalize loadFunctionFile top a.load (some s.nextAddr) scan { s with nextAddr := s.nextAddr + 1 } = o
    at hret hloaded hfailed ⊢
  have halloc' : a.allocs = true := by simpa using halloc
  split
  · next hno =>
    obtain ⟨hsame, hnil, hmiss⟩ := hfailed (by simpa using hno)
    refine .of_no_returns (o := ⟨o.ok, { o.state with functionRegistry := s.functionRegistry }, o.returns⟩)
      ⟨hsame.curDfd, rfl, hsame.funcFrame, hsame.inFunctionBody, hsame.allowFunctionIncludes,
        hsame.functionRelDirOverride, hsame.dirs, hsame.files, (Nat.le_succ _).trans hsame.nextAddr⟩ hnil ?_
    exact (and_iff_right halloc').trans hmiss
  next hyes =>
  obtain ⟨h, hmiss⟩ := hloaded (by simpa using hyes)
  have hmiss' : ¬ Misses top (.invokePath a) s := fun hm => hmiss hm.2
  obtain ⟨s₁, s₂, hs₁, hk⟩ := hret
  -- whatever runs between the load and the end, as long as it keeps what was loaded
  have hdone : ∀ o' : Parsed, Loaded (some s.nextAddr) { s with nextAddr := s.nextAddr + 1 } o'.state →
      (∃ t₁ t₂, t₁.Ok ∧ Kept top t₁ t₂ o'.returns) → KeepsAt top (.invokePath a) s
        ⟨o'.ok, { restoreLoadedFunctionFile s.curtent s.curDfd o'.state with
          functionRegistry := s.functionRegistry }, o.returns ++ o'.returns⟩ := by
    rintro o' h' ⟨t₁, t₂, ht₁, hk'⟩
    obtain ⟨hdirs, hfiles, hcur, htent, -, hframe, hbody, hallow, hrel, hnext⟩ := restore_loaded h' hs'
    obtain ⟨-, hall, hno⟩ := hk hs₁
    obtain ⟨-, hall', hno'⟩ := hk' ht₁
    have hres : Restored s { restoreLoadedFunctionFile s.curtent s.curDfd o'.state with
        functionRegistry := s.functionRegistry } :=
      ⟨⟨hcur, rfl, hframe, hbody, hallow, hrel, hdirs, hfiles, (Nat.le_succ _).trans hnext⟩, htent⟩
    refine ⟨hres.toSameButTent, fun r hr => ?_, fun hm => absurd hm hmiss', fun hnone => ⟨fun _ => htent, ?_⟩⟩
    · exact (List.mem_append.1 hr).elim (hall r) (hall' r)
    · intro r hr
      rcases List.mem_append.1 hr with hr | hr
      · exact (hno fun r hr => hnone r (List.mem_append_left _ hr)).2 r hr
      · exact (hno' fun r hr => hnone r (List.mem_append_right _ hr)).2 r hr
  have hexec := executeFunction_kept a.exec hparse
  have hok := h.ok hs' hreg
  split
  · exact hdone (failed o.state) h ⟨s, s, hs, .nil top s⟩
  split
  · exact hdone _ (h.sameButTent (hexec _ hok).1) ⟨_, _, hok, hexec _⟩
  · have hok₂ : ParseState.Ok { o.state with curtent := s.curtent, curDfd := s.curDfd } := by
      refine ⟨fun fd hfd => ?_, hok.registry_lt⟩
      rcases h.dirs with ⟨-, hdirs⟩ | ⟨fd', -, -, -, hdirs⟩
      · exact hdirs ▸ hs.dfd_open fd hfd
      · exact hdirs ▸ Finset.mem_insert_of_mem (hs.dfd_open fd hfd)
    have hsame := (hexec _ hok₂).1
    refine hdone ⟨_, _, _⟩ (h.sameButTent ⟨rfl, hsame.functionRegistry, hsame.funcFrame, hsame.inFunctionBody,
      hsame.allowFunctionIncludes, hsame.functionRelDirOverride, hsame.dirs, hsame.files, hsame.nextAddr⟩)
      ⟨_, _, hok₂, hexec _⟩

end

/-! ### Every return of a parse -/

theorem parseTupfile_kept (top : Text) (t : Tupfile) : Meets (Kept top) (parseTupfile top t) := by
  apply CallTree.run_meets (Kept.nil top)
  · exact fun h h' => h.append h'
  · intro c scan parse hscan hparse
    rcases c with ok | a | a | a | a
    · exact fun s => Kept.nil top s
    · exact record_kept (parserIncludeFile_keepsAt a hparse)
    · exact record_kept (scanIncludeLine_keepsAt a hscan)
    · exact record_kept (invokeFunctionPath_keepsAt a hscan hparse)
    · exact record_kept (executeFunction_keepsAt a hparse)

/-- Whatever fails, the other fields and the descriptors are as they were at the call. -/
theorem returns_sameButTent (top : Text) (t : Tupfile) {s : ParseState} (hs : s.Ok) :
    ∀ r ∈ (parseTupfile top t s).returns, SameButTent r.before r.after := fun r hr =>
  ((parseTupfile_kept top t s hs).2.1 r hr).1

/-- The context is put back by every call of a parse just when no call fails where it has made another
directory the current one and does not go back. -/
theorem restored_iff_no_miss (top : Text) (t : Tupfile) {s : ParseState} (hs : s.Ok) :
    (∀ r ∈ (parseTupfile top t s).returns, Restored r.before r.after) ↔
      ∀ r ∈ (parseTupfile top t s).returns, ¬ Misses top r.call r.before := by
  obtain ⟨-, hall, htent⟩ := parseTupfile_kept top t s hs
  constructor
  · intro h r hr hmiss
    exact (hall r hr).2 hmiss (h r hr).curtent
  · intro h r hr
    exact ⟨(hall r hr).1, (htent h).2 r hr⟩

/-- A file that is there. -/
def presentFile : IncludeAnswers :=
  ⟨"lib/rules.tup".toList, some 2, true, true, true, true, true, true, true, true, true, true⟩

/-- A function of a file that is not in its directory. -/
def missingFile : InvokeAnswers where
  allocs := true
  load := ⟨.relative "lib/Tupfile".toList false, true, some 2, true, true, false, true, true, some false, true,
    true, true⟩
  found := true
  inheritReldir := true
  exec := ⟨true, true, true, true, true, true, false, true⟩

/-- The top directory is parsed. -/
def atTop : ParseState := ⟨1, some 3, some 0, none, false, false, none, {3}, ∅, 1⟩

theorem atTop_ok : atTop.Ok where
  dfd_open _ hfd := Finset.mem_singleton.2 (Option.some.inj hfd).symm
  registry_lt _ haddr := (Option.some.inj haddr) ▸ Nat.one_pos

/-- From the included file the call does not leave its directory. -/
theorem restored_iff_no_miss_include :
    let t : Tupfile := .call (.includeFile presentFile) false .done
      (.call (.invokePath missingFile) false .done .done .done) .done
    ((∀ r ∈ (parseTupfile "/w".toList t atTop).returns, Restored r.before r.after) ↔
      ∀ r ∈ (parseTupfile "/w".toList t atTop).returns, ¬ Misses "/w".toList r.call r.before) ∧
    (parseTupfile "/w".toList t atTop).returns.length = 2 :=
  ⟨restored_iff_no_miss _ _ atTop_ok, rfl⟩

/-- From the top directory it does. -/
theorem missing_function_file_moves_context :
    let t : Tupfile := .call (.invokePath missingFile) false .done .done .done
    ∃ r ∈ (parseTupfile "/w".toList t atTop).returns,
      r.before.curtent = 1 ∧ r.after.curtent = 2 ∧ ¬ Restored r.before r.after :=
  ⟨_, List.mem_singleton_self _, rfl, rfl, fun h => absurd h.curtent (by decide)⟩

end Metatup.Context
