import Metatup.Parser.Frame
import Metatup.Parser.Outside

/-!
# The directory a component is built in

A function of a TupBuild file finds in `brdir` where its outputs belong: the directory of the component
below the build directory. It is made of the path elements of the two, joined, and these say neither
that the path was absolute nor what was taken off it.

* `denotes`: the directory that a path text means, seen from a directory.
* `denotes_brdir`: where the text of `tupbuildCombineBuilddirReldir` leads.
* `brdir_iff`: when `brdir` means what it should.
-/

namespace Metatup

open Lib

/-! ### What is meant -/

/-- Where a path starts that is used in the directory `base`. -/
def startOf (base : Dir) (path : Text) : Dir := if isFullPath path then [] else base

/-- The directory a path means in the directory `base`, both by their names from the root of the file
system. -/
def denotes (base : Dir) (path : Text) : Dir := climb dotdot (startOf base path) (components path)

/-- The directory of the component: `reldir` is followed from the build directory. -/
def componentDir (base : Dir) (builddir reldir : Text) : Dir :=
  climb dotdot (denotes base builddir) (components reldir)

/-- The path elements that `get_path_elements` takes off the front of a path: the top directory, if the
path is inside of it. -/
def strippedElements (top path : Text) : List Text :=
  let list := splitPathElements path
  if isFullPath path && (matchTop top list).1 = [] then list.take (matchTop top list).2 else []

/-- What is taken off leads from where the build directory starts to `base`, as far as the `..` that
are left at the front let one see. -/
def StripsTo (top : Text) (base : Dir) (builddir reldir : Text) : Prop :=
  let path := builddir ++ '/' :: reldir
  let ups := (getPathElements top path).pathList.takeWhile (· = dotdot)
  climb dotdot (climb dotdot (startOf base builddir) (strippedElements top path)) ups =
    climb dotdot base ups

section

variable {top builddir reldir path : Text} {base : Dir}

/-! ### The text -/

theorem namesOf_joinNames {l : List Text} (h : ∀ name ∈ l, IsName name) :
    namesOf (joinNames l) = l := by
  induction l with
  | nil => rfl
  | cons name l ih =>
    have hname := h name List.mem_cons_self
    cases l with
    | nil =>
      have hjoin : joinNames [name] = name := by simp [joinNames]
      rw [hjoin, namesOf_single hname.ne_nil hname.no_sep]
    | cons name' l =>
      have hjoin : joinNames (name :: name' :: l) = name ++ '/' :: joinNames (name' :: l) := rfl
      rw [hjoin, namesOf_cons hname.ne_nil hname.no_sep,
        ih fun n hn => h n (List.mem_cons_of_mem name hn)]

/-- Joined names are a relative path. -/
theorem isFullPath_joinNames {l : List Text} (h : ∀ name ∈ l, IsName name) :
    isFullPath (joinNames l) = false := by
  cases l with
  | nil => rfl
  | cons name l =>
    have hname := h name List.mem_cons_self
    obtain ⟨c, cs, hcons⟩ := List.exists_cons_of_ne_nil hname.ne_nil
    have hc : c ≠ '/' := by
      rintro rfl
      exact hname.no_sep (hcons ▸ List.mem_cons_self)
    have hhead : ∃ rest, joinNames (name :: l) = c :: rest := by
      cases l with
      | nil => exact ⟨cs, by simp [joinNames, hcons]⟩
      | cons name' l => exact ⟨cs ++ '/' :: joinNames (name' :: l), by rw [hcons]; rfl⟩
    obtain ⟨rest, hrest⟩ := hhead
    simp [isFullPath, hrest, hc]

/-! ### The elements -/

/-- No element of a path is `.`. -/
theorem ne_dot_of_mem_split {name : Text} (h : name ∈ splitPathElements path) : name ≠ ['.'] := by
  obtain ⟨-, k, hk⟩ := splitPathElements_eq_normalised path
  rw [hk] at h
  rcases List.mem_append.1 h with h | h
  · rw [List.eq_of_mem_replicate h]
    decide
  · simpa using (List.mem_filter.1 (resolve_subset _ _ h)).2

/-- What is taken off and what is left are the elements of the path. -/
theorem stripped_append (top path : Text) :
    strippedElements top path ++ (getPathElements top path).pathList = splitPathElements path := by
  unfold strippedElements getPathElements
  dsimp only
  by_cases hroot : isFullPath path = true
  · by_cases hleft : (matchTop top (splitPathElements path)).1 = []
    · simp [hroot, hleft]
    · simp [hroot, hleft]
  · simp [hroot]

/-- Behind the `..` at the front there are none. -/
theorem dotdot_not_mem_dropWhile (top path : Text) :
    dotdot ∉ (getPathElements top path).pathList.dropWhile (· = dotdot) := by
  obtain ⟨-, k, hk⟩ := splitPathElements_eq_normalised path
  have hnot : dotdot ∉ normalised path := (norm_eq_resolve dotdot (components path)).1
  have hlist : (getPathElements top path).pathList =
      (splitPathElements path).drop (strippedElements top path).length := by
    rw [← stripped_append top path, List.drop_left]
  have hups : ∀ k, (List.replicate k dotdot).dropWhile (· = dotdot) = [] := by
    intro k
    rw [List.dropWhile_eq_nil_iff]
    exact fun x hx => by simp [List.eq_of_mem_replicate hx]
  rw [hlist, hk, List.drop_append, List.drop_replicate, List.dropWhile_append, hups]
  intro hmem
  rw [List.isEmpty_nil, if_pos rfl] at hmem
  exact hnot (List.mem_of_mem_drop ((List.dropWhile_sublist _).subset hmem))

/-! ### What the text means -/

/-- `brdir` leads from any directory along the elements that are left. -/
theorem denotes_brdir (top builddir reldir : Text) (base : Dir) :
    denotes base (tupbuildCombineBuilddirReldir top builddir reldir) =
      climb dotdot base (getPathElements top (builddir ++ '/' :: reldir)).pathList := by
  unfold tupbuildCombineBuilddirReldir
  dsimp only
  have hmem : ∀ name ∈ (getPathElements top (builddir ++ '/' :: reldir)).pathList,
      name ∈ splitPathElements (builddir ++ '/' :: reldir) := by
    intro name h
    rw [← stripped_append top]
    exact List.mem_append_right _ h
  have hnames := fun name h => isName_of_mem_split (hmem name h)
  split_ifs with hnil
  · rw [hnil]
    rfl
  · have hcomp : components (joinNames (getPathElements top (builddir ++ '/' :: reldir)).pathList) =
        (getPathElements top (builddir ++ '/' :: reldir)).pathList := by
      rw [components, namesOf_joinNames hnames, List.filter_eq_self]
      exact fun name h => by simpa using ne_dot_of_mem_split (hmem name h)
    rw [denotes, startOf, isFullPath_joinNames hnames, hcomp, if_neg Bool.false_ne_true]

/-- The directory of the component is where the elements of the joined path lead. -/
theorem componentDir_eq (base : Dir) (builddir reldir : Text) :
    componentDir base builddir reldir =
      climb dotdot (startOf base builddir) (splitPathElements (builddir ++ '/' :: reldir)) := by
  have hcomp : components (builddir ++ '/' :: reldir) = components builddir ++ components reldir := by
    rw [components, namesOf_append_sep, List.filter_append]
    rfl
  rw [splitPathElements_eq, climb_norm, ← components, hcomp, climb_append]
  rfl

/-- `brdir` means the directory of the component if and only if what `get_path_elements` takes off the
joined path leads to the directory in which `brdir` is used. -/
theorem brdir_iff (top builddir reldir : Text) (base : Dir) :
    denotes base (tupbuildCombineBuilddirReldir top builddir reldir) =
      componentDir base builddir reldir ↔ StripsTo top base builddir reldir := by
  set path := builddir ++ '/' :: reldir with hpath
  set list := (getPathElements top path).pathList with hlist
  have hsplit : list = list.takeWhile (· = dotdot) ++ list.dropWhile (· = dotdot) :=
    List.takeWhile_append_dropWhile.symm
  have hrest : dotdot ∉ list.dropWhile (· = dotdot) := dotdot_not_mem_dropWhile top path
  have hclimb : ∀ d, climb dotdot d list =
      climb dotdot d (list.takeWhile (· = dotdot)) ++ list.dropWhile (· = dotdot) := by
    intro d
    conv_lhs => rw [hsplit]
    rw [climb_append, climb_names _ hrest]
  rw [denotes_brdir, componentDir_eq, ← hpath, ← stripped_append top path, climb_append, ← hlist,
    hclimb, hclimb, List.append_cancel_right_eq]
  exact eq_comm

/-- Nothing is taken off where the build directory is relative. -/
theorem stripsTo_of_relative (hne : builddir ≠ []) (hrel : isFullPath builddir = false) :
    StripsTo top base builddir reldir := by
  obtain ⟨c, cs, rfl⟩ := List.exists_cons_of_ne_nil hne
  have hpath : isFullPath (c :: cs ++ '/' :: reldir) = false := hrel
  have hnone : strippedElements top (c :: cs ++ '/' :: reldir) = [] := by
    simp only [strippedElements, hpath, Bool.false_and, Bool.false_eq_true, if_false]
  simp only [StripsTo, hnone, startOf, hrel, Bool.false_eq_true, if_false]
  rfl

/-- Where nothing climbs, what is taken off an absolute path has to be the names of the directory. -/
theorem stripsTo_iff_of_absolute (habs : isFullPath builddir = true)
    (hdd : dotdot ∉ splitPathElements (builddir ++ '/' :: reldir)) :
    StripsTo top base builddir reldir ↔ strippedElements top (builddir ++ '/' :: reldir) = base := by
  rw [← stripped_append top, List.mem_append, not_or] at hdd
  have hups : (getPathElements top (builddir ++ '/' :: reldir)).pathList.takeWhile (· = dotdot) =
      [] := by
    rw [List.takeWhile_eq_nil_iff]
    intro hlen
    have hmem := List.getElem_mem hlen
    simp only [decide_eq_true_eq]
    exact fun heq => hdd.2 (heq ▸ hmem)
  simp only [StripsTo, hups, startOf, habs, if_true]
  rw [climb_names _ hdd.1, List.nil_append]
  rfl

end

/-- A build directory outside of the project, and one inside of it that is used below the top. -/
theorem brdir_of_absolute :
    tupbuildCombineBuilddirReldir "/p".toList "/t".toList "s".toList = "t/s".toList ∧
    denotes ["p".toList] "t/s".toList ≠ componentDir ["p".toList] "/t".toList "s".toList ∧
    tupbuildCombineBuilddirReldir "/p".toList "/p/o".toList "s".toList = "o/s".toList ∧
    denotes ["p".toList, "d".toList] "o/s".toList ≠
      componentDir ["p".toList, "d".toList] "/p/o".toList "s".toList := by
  decide

end Metatup
