import Mathlib.Data.List.DropRight
import Mathlib.Data.List.Infix
import Metatup.Lib.FileTree
import Metatup.Parser.Outside

/-!
# The file system of a job

A job sees the file system through `tup_fs_*`. What it makes is kept in temporary files: a mapping says
which temporary file stands at which path, and directories are only names in a list. What it does to
files is noted in lists, from which the dependencies are worked out when the job is done.

The handlers take the path as it comes, with the name of the job in front, and `peel` it.
-/

namespace Metatup

open Lib

/-- What a file that is no directory holds. -/
inductive Content
  | reg (bytes : List UInt8)
  | fifo
  | sock
  | link (target : Text)
  deriving DecidableEq

/-- Source: `file.h` `struct mapping`; `tmpname` is the number in the name of the temporary file. -/
structure Mapping where
  realname : Text
  tmpname : ℕ
  deriving DecidableEq

/-- Source: `file.h` `struct file_info` -/
structure FileInfo where
  readList : List Text
  writeList : List Text
  unlinkList : List Text
  varList : List Text
  mappingList : List Mapping
  tmpdirList : List Text
  deriving DecidableEq

/-- What the handlers work on: the lists of the job, its temporary files and the number of the next
one. -/
structure FuseState where
  finfo : FileInfo
  tmp : ℕ → Option Content
  filenum : ℕ

/-- What the handlers ask about the project and the real files. -/
structure Host where
  /-- `get_tup_top` -/
  top : Text
  /-- What is at an absolute path. -/
  look : Text → Option (Item Content)
  /-- `faccessat` for writing -/
  access : Text → Bool
  /-- `faccessat` for writing in the top directory -/
  topAccess : Bool
  /-- `exclusion_match` -/
  exclusionMatch : Text → Bool
  /-- The working directory is the top directory, so that `unlink` finds a temporary file. -/
  inTop : Bool

inductive Errno
  | perm | noent | acces | exist | notdir | isdir | inval | notempty | nosys | io
  deriving DecidableEq

inductive Reply
  | err (e : Errno)
  | done
  | attr (i : Item Content)
  | target (t : Text)
  /-- The call is made on the real files. -/
  | passed
  deriving DecidableEq

/-- Source: `access_event.h` `enum access_type` -/
inductive AccessType
  | read | write | unlink | var
  deriving DecidableEq

/-! ### The lists -/

/-- Source: `file.c` `check_unlink_list` -/
def checkUnlinkList (filename : Text) (u : List Text) : List Text := u.filter (· ≠ filename)

/-- Source: `file.c` `handle_open_file` -/
def handleOpenFile (at_ : AccessType) (filename : Text) (info : FileInfo) : FileInfo :=
  match at_ with
  | .read => { info with readList := info.readList ++ [filename] }
  | .write =>
    { info with
      unlinkList := checkUnlinkList filename info.unlinkList
      writeList := info.writeList ++ [filename] }
  | .unlink => { info with unlinkList := info.unlinkList ++ [filename] }
  | .var => { info with varList := info.varList ++ [filename] }

/-- Source: `file.c` `handle_rename` -/
def handleRename (src dst : Text) (info : FileInfo) : FileInfo :=
  let set : Text → Text := fun filename => if filename = src then dst else filename
  { info with
    writeList := info.writeList.map set
    readList := info.readList.map set
    unlinkList := checkUnlinkList dst info.unlinkList }

/-- Source: `file.c` `handle_unlink` -/
def handleUnlink (info : FileInfo) : FileInfo :=
  { info with
    writeList := info.writeList.filter (· ∉ info.unlinkList)
    readList := info.readList.filter (· ∉ info.unlinkList)
    unlinkList := [] }

/-! ### Names -/

def strstr (path sub : Text) : Bool := decide (sub <:+: path)

/-- What is behind the first occurrence of `sub`. -/
def strstrEnd (sub : Text) : Text → Option Text
  | [] => if sub = [] then some [] else none
  | c :: path =>
    if sub.isPrefixOf (c :: path) then some ((c :: path).drop sub.length) else strstrEnd sub path

/-- `TUP_JOB` -/
def tupJob : Text := "@tupjob-".toList

/-- Source: `fuse_fs.c` `peel` -/
def peel (path : Text) : Text :=
  if ('/' :: tupJob).isPrefixOf path then
    let rest := (path.drop (tupJob.length + 1)).dropWhile (· ≠ '/')
    if rest = [] then ['/'] else rest
  else path

/-- Source: `ccache.c` `is_ccache_path` -/
def isCcachePath (path : Text) : Bool :=
  strstr path "/.ccache".toList || strstr path "/.cache/ccache".toList
    || strstr path "/ccache-tmp/".toList || "/tmp/.icecream-".toList.isPrefixOf path

/-- Source: `fuse_fs.c` `is_hidden` -/
def isHidden (path : Text) : Bool :=
  strstr path "/.git".toList || strstr path "/.metatup".toList || strstr path "/.hg".toList
    || strstr path "/.svn".toList || strstr path "/.bzr".toList || isCcachePath path

/-- Source: `fuse_fs.c` `ignore_file` -/
def ignoreFile (path : Text) : Bool :=
  "/dev".toList.isPrefixOf path || "/sys".toList.isPrefixOf path || "/proc".toList.isPrefixOf path
    || isCcachePath path

/-- `TUP_VAR_VIRTUAL_DIR` -/
def tupVarVirtualDir : Text := "@metatup@".toList

/-- Source: `fuse_fs.c` `get_virtual_var` -/
def getVirtualVar (top peeled : Text) : Option Text :=
  if top.isPrefixOf peeled then
    match peeled.drop top.length with
    | '/' :: stripped => strstrEnd tupVarVirtualDir stripped
    | _ => none
  else none

/-- `.metatup/mnt` -/
def tupMnt : Text := ".metatup/mnt".toList

/-- `dirname`: the path up to the last separator, without the separators at its end. -/
def dirname (path : Text) : Text :=
  let dir := (path.rdropWhile (· = '/')).rdropWhile (· ≠ '/')
  if dir = [] then (if path.head? = some '/' then ['/'] else ['.'])
  else
    let dir := dir.rdropWhile (· = '/')
    if dir = [] then ['/'] else dir

/-! ### Mappings -/

namespace FuseState

def mapFinfo (s : FuseState) (f : FileInfo → FileInfo) : FuseState := { s with finfo := f s.finfo }

/-- Source: `fuse_fs.c` `add_mapping_internal`; the number of the new temporary file is `s.filenum`. -/
def addMapping (s : FuseState) (path : Text) : FuseState :=
  let peeled := peel path
  let info := if isHidden peeled then s.finfo else handleOpenFile .write peeled s.finfo
  { s with
    finfo := { info with mappingList := info.mappingList ++ [⟨peeled, s.filenum⟩] }
    filenum := s.filenum + 1 }

/-- Source: `fuse_fs.c` `find_mapping` -/
def findMapping (s : FuseState) (path : Text) : Option Mapping :=
  s.finfo.mappingList.find? (·.realname = peel path)

/-- Source: `file.c` `del_map` of the mapping that `find_mapping` finds. -/
def delMap (s : FuseState) (path : Text) : FuseState :=
  s.mapFinfo fun info =>
    { info with mappingList := info.mappingList.eraseP (·.realname = peel path) }

/-- The mapping that `find_mapping` finds gets another name. -/
def setRealname (s : FuseState) (path dst : Text) : FuseState :=
  s.mapFinfo fun info =>
    { info with
      mappingList := info.mappingList.replaceF fun map =>
        if map.realname = peel path then some { map with realname := dst } else none }

def setTmp (s : FuseState) (n : ℕ) (c : Option Content) : FuseState :=
  { s with tmp := Function.update s.tmp n c }

/-- Source: `fuse_fs.c` `tup_fuse_handle_file` -/
def handleFile (s : FuseState) (path : Text) (at_ : AccessType) : FuseState :=
  if ignoreFile (peel path) then s else s.mapFinfo (handleOpenFile at_ (peel path))

end FuseState

/-! ### The handlers -/

variable (host : Host)

/-- Source: `fuse_fs.c` `tup_fs_getattr` -/
def tupFsGetattr (s : FuseState) (path : Text) : Reply × FuseState :=
  let peeled := peel path
  if peeled = tupMnt ∨ strstr peeled ('/' :: tupMnt) then (.err .perm, s)
  else if peeled ∈ s.finfo.tmpdirList then (.attr .dir, s)
  else
    match s.findMapping path with
    | some map =>
      (match s.tmp map.tmpname with
        | some c => .attr (.leaf c)
        | none => .err .noent, s.handleFile path .read)
    | none =>
      match getVirtualVar host.top peeled with
      | some [] => (.attr .dir, s)
      | some (_ :: var) => (.err .perm, s.mapFinfo (handleOpenFile .var var))
      | none =>
        (match host.look peeled with
          | some i => .attr i
          | none => .err .noent, s.handleFile path .read)

/-- Source: `fuse_fs.c` `tup_fs_access` for writing -/
def tupFsAccess (s : FuseState) (path : Text) : Option Errno :=
  let peeled := peel path
  match s.findMapping path with
  | some map => if (s.tmp map.tmpname).isSome then none else some .noent
  | none =>
    if peeled ∈ s.finfo.tmpdirList then if host.topAccess then none else some .acces
    else if getVirtualVar host.top peeled = some [] then none
    else if host.access peeled then none else some .acces

/-- Source: `fuse_fs.c` `tup_fs_readlink` -/
def tupFsReadlink (s : FuseState) (path : Text) : Reply × FuseState :=
  let found := match s.findMapping path with
    | some map => (s.tmp map.tmpname).map Item.leaf
    | none => host.look (peel path)
  if (s.findMapping path).isNone ∧ peel path = "/proc/self".toList then (.passed, s.handleFile path .read)
  else
    match found with
    | some (.leaf (.link target)) => (.target target, s.handleFile path .read)
    | some _ => (.err .inval, s)
    | none => (.err .noent, s)

/-- What `mknod` can be asked to make. -/
inductive NodeKind
  | reg | fifo | sock | other
  deriving DecidableEq

/-- A new file of a kind, other kinds not being permitted. -/
def NodeKind.content : NodeKind → Option Content
  | .reg => some (.reg [])
  | .fifo => some .fifo
  | .sock => some .sock
  | .other => none

/-- Source: `fuse_fs.c` `mknod_internal`; `made` says whether the temporary file can be made. -/
def mknodInternal (s : FuseState) (path : Text) (kind : NodeKind) (made : Bool) : Reply × FuseState :=
  match tupFsAccess host s (dirname path) with
  | some e => (.err e, s)
  | none =>
    match kind.content with
    | none => (.err .perm, s)
    | some c =>
      let n := s.filenum
      let s := s.addMapping path
      let s := if kind = .reg then s.handleFile path .write else s
      if made then (.done, s.setTmp n (some c)) else (.err .io, s)

/-- Source: `fuse_fs.c` `tup_fs_mkdir` -/
def tupFsMkdir (s : FuseState) (path : Text) : Reply × FuseState :=
  let peeled := peel path
  if ignoreFile peeled then (.passed, s)
  else (.done, s.mapFinfo fun info => { info with tmpdirList := info.tmpdirList ++ [peeled] })

/-- Source: `fuse_fs.c` `tup_fs_unlink` -/
def tupFsUnlink (s : FuseState) (path : Text) : Reply × FuseState :=
  match s.findMapping path with
  | some map => (.done, ((s.setTmp map.tmpname none).delMap path).handleFile path .unlink)
  | none => if strstr path ".fuse_hidden".toList then (.passed, s) else (.err .perm, s)

/-- The path is below a directory. -/
def isBelow (dir path : Text) : Bool := (dir ++ ['/']).isPrefixOf path

/-- Source: `fuse_fs.c` `tup_fs_rmdir` -/
def tupFsRmdir (s : FuseState) (path : Text) : Reply × FuseState :=
  let peeled := peel path
  if s.finfo.tmpdirList.any (isBelow peeled) then (.err .notempty, s)
  else if s.finfo.mappingList.any (isBelow peeled ·.realname) then (.err .notempty, s)
  else if peeled ∈ s.finfo.tmpdirList then
    (.done, s.mapFinfo fun info => { info with tmpdirList := info.tmpdirList.erase peeled })
  else (.err .perm, s)

/-- Source: `fuse_fs.c` `tup_fs_symlink`; `made` says whether the temporary file can be made. -/
def tupFsSymlink (s : FuseState) (target path : Text) (made : Bool) : Reply × FuseState :=
  let n := s.filenum
  let s := s.addMapping path
  if made then (.done, s.setTmp n (some (.link target))) else (.err .io, s)

/-- Source: `fuse_fs.c` `tup_fs_rename` -/
def tupFsRename (s : FuseState) (src dst : Text) : Reply × FuseState :=
  let peelfrom := peel src
  let peelto := peel dst
  if peelfrom ∈ s.finfo.tmpdirList then
    (.done, s.mapFinfo fun info => { info with tmpdirList := info.tmpdirList.replace peelfrom peelto })
  else
    -- what the new file is renamed over
    let s := match s.findMapping dst with
      | some map => (if host.inTop then s.setTmp map.tmpname none else s).delMap dst
      | none => s
    match s.findMapping src with
    | none => (.err .noent, s)
    | some map =>
      if strstr peelto ".fuse_hidden".toList then
        (.done, ((s.setTmp map.tmpname none).delMap src).handleFile src .unlink)
      else (.done, (s.setRealname src peelto).mapFinfo (handleRename peelfrom peelto))

/-- The content after `ftruncate`; only a regular file can be opened and truncated. -/
def Content.truncate (size : ℕ) : Content → Option Content
  | .reg bytes => some (.reg (bytes.take size ++ List.replicate (size - bytes.length) 0))
  | _ => none

/-- Source: `fuse_fs.c` `tup_fs_truncate`; `made` says whether the file system can do it. -/
def tupFsTruncate (s : FuseState) (path : Text) (size : ℕ) (made : Bool) : Reply × FuseState :=
  let s := s.handleFile path .write
  match s.findMapping path with
  | some map =>
    match (s.tmp map.tmpname).bind (·.truncate size), made with
    | some c, true => (.done, s.setTmp map.tmpname (some c))
    | _, _ => (.err .io, s)
  | none =>
    if host.exclusionMatch (peel path) || isHidden (peel path) then (.passed, s) else (.err .perm, s)

/-- How a file is opened. -/
inductive OpenFlags
  | rdonly | wronly | rdwr
  deriving DecidableEq

/-- Source: `fuse_fs.c` `tup_fs_open` with `FUSE3` -/
def tupFsOpen (s : FuseState) (path : Text) (flags : OpenFlags) : Reply × FuseState :=
  let at_ : AccessType := if flags = .rdonly then .read else .write
  let fresh := (s.findMapping path).isNone && at_ = .write && !isHidden path && !host.exclusionMatch path
  let s := if fresh then s.addMapping path else s
  let found := match s.findMapping path with
    | some map => (s.tmp map.tmpname).map Item.leaf
    | none => host.look (peel path)
  (if found.isSome then .done else .err .noent, s.handleFile path at_)

/-! ### The paths of a job -/

/-- A name in a path that the kernel has resolved. -/
abbrev PathName := {name : Text // IsName name ∧ name ≠ ['.'] ∧ name ≠ dotdot}

/-- The text of a path below the root, which is empty for the root itself. -/
def belowText (p : List PathName) : Text := topText (p.map Subtype.val)

/-- The text of an absolute path. -/
def pathText (p : List PathName) : Text := if p = [] then ['/'] else belowText p

/-- A path as it comes from the job `n`. -/
def jobPath (n : ℕ) (p : List PathName) : Text := '/' :: tupJob ++ Nat.toDigits 10 n ++ belowText p

section

variable {n : ℕ} {name : Text} {p q : List PathName}

theorem not_sep_mem_toDigits (n : ℕ) : '/' ∉ Nat.toDigits 10 n := by
  intro hmem
  have hdigit := Nat.isDigit_of_mem_toDigits (by decide) (by decide) hmem
  exact absurd hdigit (by decide)

theorem belowText_cons (c : PathName) (p : List PathName) :
    belowText (c :: p) = '/' :: (c.1 ++ belowText p) := rfl

theorem belowText_append (p q : List PathName) : belowText (p ++ q) = belowText p ++ belowText q := by
  unfold belowText topText
  rw [List.map_append, List.flatMap_append]

theorem belowText_concat (p : List PathName) (c : PathName) :
    belowText (p ++ [c]) = belowText p ++ '/' :: c.1 := by
  rw [belowText_append, belowText_cons]
  exact congrArg (fun t => belowText p ++ '/' :: t) (List.append_nil c.1)

theorem pathText_of_ne_nil (hp : p ≠ []) : pathText p = belowText p := if_neg hp

@[simp] theorem peel_jobPath (n : ℕ) (p : List PathName) : peel (jobPath n p) = pathText p := by
  have hdrop : (jobPath n p).drop (tupJob.length + 1) = Nat.toDigits 10 n ++ belowText p := by
    show ('/' :: tupJob ++ Nat.toDigits 10 n ++ belowText p).drop ('/' :: tupJob).length = _
    rw [List.append_assoc, List.drop_left]
  have hskip : (Nat.toDigits 10 n ++ belowText p).dropWhile (· ≠ '/') = belowText p := by
    rw [List.dropWhile_append_of_pos]
    · rcases p with _ | ⟨name, p⟩
      · rfl
      · exact List.dropWhile_cons_of_neg (by decide)
    · intro c hc
      have hne : c ≠ '/' := fun heq => not_sep_mem_toDigits n (heq ▸ hc)
      simpa using hne
  have hpre : ('/' :: tupJob).isPrefixOf (jobPath n p) = true :=
    List.isPrefixOf_iff_prefix.2 ((List.prefix_append _ _).trans (List.prefix_append _ _))
  unfold peel
  rw [if_pos hpre, hdrop, hskip]
  rcases p with _ | ⟨name, p⟩
  · rfl
  · rfl

/-- A name ends where the text does or where a separator is. -/
theorem append_inj_of_sep {c d x y : Text} (hc : '/' ∉ c) (hd : '/' ∉ d) (hx : ∀ a ∈ x.head?, a = '/')
    (hy : ∀ a ∈ y.head?, a = '/') (h : c ++ x = d ++ y) : c = d ∧ x = y := by
  have key : ∀ {c d x y : Text}, '/' ∉ d → (∀ a ∈ x.head?, a = '/') → ∀ b, d = c ++ b → x = b ++ y →
      c = d ∧ x = y := by
    intro c d x y hd hx b hdb hxb
    rcases b with _ | ⟨a, b⟩
    · rw [List.append_nil] at hdb
      exact ⟨hdb.symm, hxb⟩
    · have ha : a = '/' := hx a (by rw [hxb]; rfl)
      rw [hdb, ha] at hd
      exact absurd (List.mem_append_right c List.mem_cons_self) hd
  rcases List.append_eq_append_iff.1 h with ⟨b, hdb, hxb⟩ | ⟨b, hcb, hyb⟩
  · exact key hd hx b hdb hxb
  · obtain ⟨h₁, h₂⟩ := key hc hy b hcb hyb
    exact ⟨h₁.symm, h₂.symm⟩

theorem head_belowText (p : List PathName) : ∀ a ∈ (belowText p).head?, a = '/' := by
  rcases p with _ | ⟨name, p⟩
  · exact fun a ha => absurd ha (Option.not_mem_none a)
  · intro a ha
    exact (Option.mem_some_iff.1 ha).symm

theorem belowText_injective : Function.Injective belowText := by
  intro p q h
  induction p generalizing q with
  | nil =>
    rcases q with _ | ⟨d, q⟩
    · rfl
    · cases h
  | cons c p ih =>
    rcases q with _ | ⟨d, q⟩
    · cases h
    obtain ⟨hcd, hrest⟩ := append_inj_of_sep c.2.1.no_sep d.2.1.no_sep (head_belowText p) (head_belowText q)
      (List.cons_inj_right _ |>.1 h)
    rw [Subtype.ext hcd, ih hrest]

/-- A separator behind the text of a path is in front of the next name. -/
theorem belowText_sep_iff : belowText p ++ ['/'] <+: belowText q ↔ FileTree.Below p q := by
  constructor
  · rintro ⟨rest, hrest⟩
    induction p generalizing q with
    | nil =>
      refine ⟨List.nil_prefix, ?_⟩
      rintro rfl
      cases hrest
    | cons c p ih =>
      rcases q with _ | ⟨d, q⟩
      · cases hrest
      have heq : c.1 ++ (belowText p ++ '/' :: rest) = d.1 ++ belowText q := by
        rw [belowText_cons, belowText_cons, List.append_assoc, List.cons_append, List.append_assoc] at hrest
        exact (List.cons_inj_right _).1 hrest
      have hhead : ∀ a ∈ (belowText p ++ '/' :: rest).head?, a = '/' := by
        intro a ha
        rw [List.head?_append] at ha
        rcases hhd : (belowText p).head? with _ | b
        · rw [hhd] at ha
          exact (Option.mem_some_iff.1 ha).symm
        · rw [hhd] at ha
          exact head_belowText p a (hhd ▸ ha)
      obtain ⟨hcd, hrest⟩ := append_inj_of_sep c.2.1.no_sep d.2.1.no_sep hhead (head_belowText q) heq
      obtain ⟨hpre, hne⟩ := ih (by rw [← hrest, List.append_assoc]; rfl)
      exact ⟨List.cons_prefix_cons.2 ⟨Subtype.ext hcd, hpre⟩, fun heq => hne (List.cons.inj heq).2⟩
  · rintro ⟨⟨r, rfl⟩, hne⟩
    rcases r with _ | ⟨name, r⟩
    · exact absurd (List.append_nil p).symm hne
    · rw [belowText_append, List.prefix_append_right_inj]
      exact ⟨name.1 ++ belowText r, rfl⟩

theorem pathText_cons_ne (c : PathName) (p : List PathName) : pathText (c :: p) ≠ ['/'] := by
  rw [pathText_of_ne_nil (List.cons_ne_nil _ _), belowText_cons, ne_eq, List.cons.injEq,
    List.append_eq_nil_iff]
  exact fun h => c.2.1.ne_nil h.2.1

theorem pathText_injective : Function.Injective pathText := by
  intro p q h
  rcases p with _ | ⟨c, p⟩
  · rcases q with _ | ⟨d, q⟩
    · rfl
    · exact absurd h.symm (pathText_cons_ne d q)
  · rcases q with _ | ⟨d, q⟩
    · exact absurd h (pathText_cons_ne c p)
    · rw [pathText_of_ne_nil (List.cons_ne_nil _ _), pathText_of_ne_nil (List.cons_ne_nil _ _)] at h
      exact belowText_injective h

theorem isBelow_iff (hp : p ≠ []) : isBelow (pathText p) (pathText q) ↔ FileTree.Below p q := by
  unfold isBelow
  rw [List.isPrefixOf_iff_prefix, pathText_of_ne_nil hp]
  by_cases hq : q = []
  · subst hq
    constructor
    · intro h
      have hlen := h.length_le
      rcases p with _ | ⟨name, p⟩
      · exact absurd rfl hp
      · rw [belowText_cons] at hlen
        simp [pathText] at hlen
    · exact fun h => absurd rfl h.ne_nil
  · rw [pathText_of_ne_nil hq]
    exact belowText_sep_iff

theorem rdropWhile_append {P : Char → Bool} {l r : Text} (h : ∀ c ∈ r, P c = true) :
    (l ++ r).rdropWhile P = l.rdropWhile P := by
  induction r using List.reverseRecOn with
  | nil => rw [List.append_nil]
  | append_singleton r c ih =>
    rw [← List.append_assoc, List.rdropWhile_concat_pos _ _ _ (h c (List.mem_append_right _ (by simp)))]
    exact ih fun c hc => h c (List.mem_append_left _ hc)

/-- What is in front of a name and its separator. -/
theorem dirname_append {l : Text} (hl : l.getLast? ≠ some '/') (hne : l ≠ []) (hname : IsName name) :
    dirname (l ++ '/' :: name) = l := by
  have hkeep : ∀ {t : Text}, t.getLast? ≠ some '/' → t.rdropWhile (fun c => decide (c = '/')) = t := by
    intro t ht
    apply List.rdropWhile_eq_self_iff.2
    intro hnil hlast
    rw [List.getLast?_eq_some_getLast hnil] at ht
    exact ht (congrArg some (of_decide_eq_true hlast))
  have hlast : (l ++ '/' :: name).getLast? ≠ some '/' := by
    obtain ⟨init, c, rfl⟩ := (List.eq_nil_or_concat' name).resolve_left hname.ne_nil
    rw [← List.cons_append, ← List.append_assoc, List.getLast?_concat]
    rintro ⟨rfl⟩
    exact hname.no_sep (List.mem_append_right _ (List.mem_singleton_self _))
  have hcut : (l ++ '/' :: name).rdropWhile (fun c => decide (c ≠ '/')) = l ++ ['/'] := by
    rw [show l ++ '/' :: name = (l ++ ['/']) ++ name by simp, rdropWhile_append]
    · exact List.rdropWhile_concat_neg _ _ _ (by decide)
    · intro c hc
      have hcne : c ≠ '/' := fun heq => hname.no_sep (heq ▸ hc)
      simpa using hcne
  have hend : (l ++ ['/']).rdropWhile (fun c => decide (c = '/')) = l := by
    rw [List.rdropWhile_concat_pos _ _ _ (by decide)]
    exact hkeep hl
  simp only [dirname, hkeep hlast, hcut, hend, if_neg hne, List.append_eq_nil_iff, List.cons_ne_nil,
    and_false, if_false]

theorem getLast_belowText (p : List PathName) : (belowText p).getLast? ≠ some '/' := by
  rcases List.eq_nil_or_concat' p with rfl | ⟨q, ⟨name, hname, -⟩, rfl⟩
  · exact fun h => absurd h (Option.some_ne_none _).symm
  · obtain ⟨init, c, rfl⟩ := (List.eq_nil_or_concat' name).resolve_left hname.ne_nil
    rw [belowText_concat, ← List.cons_append, ← List.append_assoc, List.getLast?_concat]
    rintro ⟨rfl⟩
    exact hname.no_sep (List.mem_append_right _ (List.mem_singleton_self _))

theorem dirname_jobPath (hp : p ≠ []) : dirname (jobPath n p) = jobPath n p.dropLast := by
  obtain ⟨q, name, rfl⟩ := (List.eq_nil_or_concat' p).resolve_left hp
  have htext : jobPath n (q ++ [name]) = jobPath n q ++ '/' :: name.1 := by
    unfold jobPath
    rw [belowText_concat, ← List.append_assoc]
  rw [List.dropLast_concat, htext]
  apply dirname_append _ _ name.2.1
  · unfold jobPath
    rw [List.getLast?_append]
    rcases hlast : (belowText q).getLast? with _ | c
    · rw [Option.none_or, List.getLast?_append_of_ne_nil _ Nat.toDigits_ne_nil]
      intro h
      exact not_sep_mem_toDigits n (List.mem_of_getLast? h)
    · rw [Option.some_or, ← hlast]
      exact getLast_belowText q
  · exact List.cons_ne_nil _ _

end

end Metatup
