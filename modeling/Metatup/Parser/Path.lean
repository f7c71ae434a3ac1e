import Metatup.Entry
import Metatup.Lib.Lexical

/-!
# Paths in a Tupfile

How the parser splits a path text and finds the directory it leads to. A directory of the project is
given by the names that lead to it from the top; which names are taken by something that is no
directory is given by `blocked`.

* `getPathElements`: the split, with the flags it finds.
* `pathListFillDtPel`: the directory and the last name of an output path.
-/

namespace Metatup

open Lib

/-- A directory of the project, by the names from the top. -/
abbrev Dir := List Text

/-- The name of the parent directory. -/
def dotdot : Text := ['.', '.']

/-- Source: `compat.h` `is_path_sep` -/
def isPathSep (c : Char) : Bool := c = '/'

/-- Source: `compat.h` `is_full_path` -/
def isFullPath (path : Text) : Bool := path.head? = some '/'

/-- The names between the separators of a path, with `cur` the name being read. -/
def namesLoop : Text → Text → List Text
  | cur, [] => if cur = [] then [] else [cur]
  | cur, c :: path =>
    if isPathSep c then if cur = [] then namesLoop [] path else cur :: namesLoop [] path
    else namesLoop (cur ++ [c]) path

/-- The names between the separators of a path. -/
def namesOf (path : Text) : List Text := namesLoop [] path

/-- What `split_path_elements` does with one name; the number is `num_elements`. -/
def splitStep (s : List Text × ℕ) (name : Text) : List Text × ℕ :=
  if name = ['.'] then s
  else if name = dotdot then
    if s.2 ≠ 0 then (s.1.dropLast, s.2 - 1) else (s.1 ++ [name], s.2)
  else (s.1 ++ [name], s.2 + 1)

/-- Source: `pel_group.c` `split_path_elements` -/
def splitPathElements (dir : Text) : List Text := ((namesOf dir).foldl splitStep ([], 0)).1

/-- Source: `pel_group.h` `struct pel_group` -/
structure PelGroup where
  /-- `PG_ROOT` -/
  root : Bool
  /-- `PG_OUTSIDE_TUP` -/
  outsideTup : Bool
  /-- `PG_HIDDEN` -/
  hidden : Bool
  /-- `PG_GROUP` -/
  group : Bool
  pathList : List Text
  deriving DecidableEq

/-- Source: `pel_group.c` `pel_ignored` -/
def pelIgnored (path : Text) : Bool :=
  path ∈ ["." , "..", ".metatup", ".git", ".hg", ".bzr", ".svn", ".ccache"].map String.toList

/-- The loop of `get_path_elements` over the names of the top directory: what is left of `top`, and
how many names were compared with success. -/
def matchTop : Text → List Text → Text × ℕ
  | top, [] => (top, 0)
  | top, pel :: rest =>
    let top := top.dropWhile isPathSep
    if pel.isPrefixOf top then
      let (top, n) := matchTop (top.drop pel.length) rest
      (top, n + 1)
    else (top, 0)

/-- Some name is one that tup ignores. -/
def anyHidden (list : List Text) : Bool :=
  list.any fun pel => pel.head? = some '.' && pel ≠ dotdot && pelIgnored pel

/-- Source: `pel_group.c` `get_path_elements`; `top` is the path of the project. -/
def getPathElements (top path : Text) : PelGroup :=
  let root := isFullPath path
  let list := splitPathElements path
  let (left, numPels) := matchTop top list
  let outside := root && left ≠ []
  let list := if root && !outside then list.drop numPels else list
  { root := root
    outsideTup := outside
    hidden := anyHidden list
    group := match list.getLast? with
      | some pel => pel.head? = some '<' && pel.getLast? = some '>'
      | none => false
    pathList := list }

/-- Source: `create_name_file.c` `find_dir_tupid_dt_pg` with `SOTGV_CREATE_DIRS`, after the last name
has been taken off. -/
def findDir (blocked : Dir → Bool) : Dir → List Text → Option Dir
  | d, [] => some d
  | d, pel :: rest =>
    if pel = dotdot then if d = [] then none else findDir blocked d.dropLast rest
    else if blocked (d ++ [pel]) then none
    else findDir blocked (d ++ [pel]) rest

/-- Source: `parser.c` `path_list_fill_dt_pel` for a path that is to be created, with `dt` the
directory it is relative to: the directory that comes out and the last name. -/
def pathListFillDtPel (top : Text) (blocked : Dir → Bool) (mem : Text) (dt : Dir) :
    Option (Dir × Text) :=
  let pg := getPathElements top mem
  if pg.outsideTup then none
  else if pg.hidden then none
  else
    match pg.pathList.getLast? with
    | none => none
    | some pel =>
      match findDir blocked (if pg.root then [] else dt) pg.pathList.dropLast with
      | none => none
      | some d => some (d, pel)

/-- The path of a directory relative to the top. Source: `entry.c` `snprint_tup_entry` -/
def joinNames (d : List Text) : Text := ['/'].intercalate d

/-! ### Directories without obstacles -/

/-- Where nothing is in the way, a path leads where it leads lexically. -/
theorem findDir_eq_walk (d : Dir) (p : List Text) :
    findDir (fun _ => false) d p = walk dotdot d p := by
  induction p generalizing d with
  | nil => rfl
  | cons pel p ih =>
    unfold findDir walk
    simp [ih]

/-- What is in the way can only stop a path. -/
theorem walk_of_findDir {blocked : Dir → Bool} {d D : Dir} {p : List Text}
    (h : findDir blocked d p = some D) : walk dotdot d p = some D := by
  induction p generalizing d with
  | nil => exact h
  | cons pel p ih =>
    unfold findDir at h
    unfold walk
    split_ifs at h ⊢
    · exact ih h
    · exact ih h

theorem pathListFillDtPel_unblocked {top mem : Text} {blocked : Dir → Bool} {dt : Dir}
    {r : Dir × Text} (h : pathListFillDtPel top blocked mem dt = some r) :
    pathListFillDtPel top (fun _ => false) mem dt = some r := by
  unfold pathListFillDtPel at h ⊢
  dsimp only at h ⊢
  split at h
  · cases h
  · next hout =>
    rw [if_neg hout]
    split at h
    · cases h
    · next hhid =>
      rw [if_neg hhid]
      split at h
      · cases h
      · split at h
        · cases h
        · next hd =>
          rw [findDir_eq_walk, walk_of_findDir hd]
          exact h

/-! ### Splitting -/

/-- The split is the lexical normal form of the names that are not `.`. -/
theorem splitPathElements_eq (dir : Text) :
    splitPathElements dir = norm dotdot ((namesOf dir).filter (· ≠ ['.'])) := by
  have key : ∀ (l : List Text) (s : List Text × ℕ),
      l.foldl splitStep s = (l.filter (· ≠ ['.'])).foldl (normStep dotdot) s := by
    intro l
    induction l with
    | nil => exact fun _ => rfl
    | cons name l ih =>
      intro s
      rw [List.foldl_cons, ih]
      by_cases h : name = ['.']
      · simp [splitStep, h]
      · have hstep : splitStep s name = normStep dotdot s name := by
          unfold splitStep normStep
          rw [if_neg h]
          split
          · next hd => rw [hd]
          · rfl
        simp [h, hstep]
  unfold splitPathElements Lib.norm
  rw [key]

/-- A text that starts with a name and a separator. -/
theorem namesOf_cons {name : Text} (hne : name ≠ []) (hsep : '/' ∉ name) (path : Text) :
    namesOf (name ++ '/' :: path) = name :: namesOf path := by
  have key : ∀ (l cur : Text), '/' ∉ l → cur ++ l ≠ [] →
      namesLoop cur (l ++ '/' :: path) = (cur ++ l) :: namesLoop [] path := by
    intro l
    induction l with
    | nil =>
      intro cur _ hcur
      rw [List.append_nil] at hcur ⊢
      simp [namesLoop, isPathSep, hcur]
    | cons c l ih =>
      intro cur hl hcur
      rw [List.mem_cons, not_or] at hl
      have hc : isPathSep c = false := by simpa [isPathSep] using Ne.symm hl.1
      rw [List.cons_append, namesLoop, hc, if_neg Bool.false_ne_true]
      rw [ih _ hl.2 (by simp)]
      simp
  exact key name [] hsep (by simpa using hne)

/-- A text without separators is one name. -/
theorem namesOf_single {name : Text} (hne : name ≠ []) (hsep : '/' ∉ name) :
    namesOf name = [name] := by
  have key : ∀ (l cur : Text), '/' ∉ l → cur ++ l ≠ [] → namesLoop cur l = [cur ++ l] := by
    intro l
    induction l with
    | nil =>
      intro cur _ hcur
      rw [List.append_nil] at hcur ⊢
      simp [namesLoop, hcur]
    | cons c l ih =>
      intro cur hl hcur
      rw [List.mem_cons, not_or] at hl
      have hc : isPathSep c = false := by simpa [isPathSep] using Ne.symm hl.1
      rw [namesLoop, hc, if_neg Bool.false_ne_true, ih _ hl.2 (by simp)]
      simp
  exact key name [] hsep (by simpa using hne)

/-- The names on both sides of a separator. -/
theorem namesOf_append_sep (a b : Text) : namesOf (a ++ '/' :: b) = namesOf a ++ namesOf b := by
  have key : ∀ (l cur : Text), namesLoop cur (l ++ '/' :: b) = namesLoop cur l ++ namesOf b := by
    intro l
    induction l with
    | nil =>
      intro cur
      by_cases hcur : cur = [] <;> simp [namesLoop, isPathSep, hcur, namesOf]
    | cons c l ih =>
      intro cur
      rw [List.cons_append, namesLoop, namesLoop]
      split
      · split
        · exact ih []
        · rw [ih [], List.cons_append]
      · exact ih _
  exact key a []

/-- The last name of a path that ends in a separator and a name. -/
theorem namesOf_append_name (path : Text) {name : Text} (hne : name ≠ []) (hsep : '/' ∉ name) :
    namesOf (path ++ '/' :: name) = namesOf path ++ [name] := by
  rw [namesOf_append_sep, namesOf_single hne hsep]

/-! ### Climbing out of a directory -/

/-- A path that climbs so often before it goes on with `tail`. -/
def climbText (n : ℕ) (tail : Text) : Text :=
  ['.', '/'] ++ (List.replicate n ['.', '.', '/']).flatten ++ tail

theorem splitPathElements_climbText (n : ℕ) {tail : Text} (h : dotdot ∉ namesOf tail)
    (hdot : ['.'] ∉ namesOf tail) :
    splitPathElements (climbText n tail) = List.replicate n dotdot ++ namesOf tail := by
  have hnames : namesOf ((List.replicate n ['.', '.', '/']).flatten ++ tail) =
      List.replicate n dotdot ++ namesOf tail := by
    induction n with
    | zero => rfl
    | succ n ih =>
      have hsep : '/' ∉ dotdot := by decide
      have hcons := namesOf_cons (by decide) hsep
        ((List.replicate n ['.', '.', '/']).flatten ++ tail)
      rw [ih] at hcons
      exact hcons
  have hfilter : (List.replicate n dotdot ++ namesOf tail).filter (· ≠ ['.']) =
      List.replicate n dotdot ++ namesOf tail := by
    rw [List.filter_eq_self]
    intro name hname
    rcases List.mem_append.1 hname with hname | hname
    · rw [List.eq_of_mem_replicate hname]
      decide
    · simpa using fun heq : name = ['.'] => hdot (heq ▸ hname)
  have htext : climbText n tail =
      ['.'] ++ '/' :: ((List.replicate n ['.', '.', '/']).flatten ++ tail) := rfl
  rw [splitPathElements_eq, htext, namesOf_cons (by decide) (by decide), hnames, List.filter_cons,
    if_neg (by decide), hfilter, norm_replicate_append n h]

/-- Where a relative path leads when nothing is in the way. -/
theorem pathListFillDtPel_relative (top : Text) {mem : Text} (dt : Dir) (hrel : isFullPath mem = false)
    {p : List Text} {pel : Text} (hsplit : splitPathElements mem = p ++ [pel]) :
    pathListFillDtPel top (fun _ => false) mem dt =
      if anyHidden (p ++ [pel]) then none else (walk dotdot dt p).map fun d => (d, pel) := by
  simp only [pathListFillDtPel, getPathElements, hrel, hsplit, Bool.false_and, Bool.false_eq_true,
    if_false, List.getLast?_concat, List.dropLast_concat, findDir_eq_walk]
  split
  · rfl
  · cases walk dotdot dt p <;> rfl

/-- From any directory a path leads to the top and from there to `names`. -/
theorem pathListFillDtPel_climbText (top : Text) (dt : Dir) {tail last : Text} {names : List Text}
    (htail : namesOf tail = names ++ [last])
    (hclean : ∀ name ∈ namesOf tail, name.head? ≠ some '.') :
    pathListFillDtPel top (fun _ => false) (climbText dt.length tail) dt = some (names, last) := by
  have hdd : dotdot ∉ namesOf tail := fun h => hclean _ h rfl
  have hdot : ['.'] ∉ namesOf tail := fun h => hclean _ h rfl
  have hsplit := splitPathElements_climbText dt.length hdd hdot
  rw [htail, ← List.append_assoc] at hsplit
  have hhid : anyHidden (List.replicate dt.length dotdot ++ names ++ [last]) = false := by
    rw [List.append_assoc, ← htail]
    unfold anyHidden
    rw [List.any_eq_false]
    intro name hname
    rcases List.mem_append.1 hname with hname | hname
    · rw [List.eq_of_mem_replicate hname]
      decide
    · simp [hclean name hname]
  rw [pathListFillDtPel_relative top dt rfl hsplit, hhid, walk_append, walk_replicate]
  have hnames : dotdot ∉ names := fun h => hdd (by rw [htail]; exact List.mem_append_left _ h)
  simp [walk_names _ hnames]

end Metatup
