import Metatup.Gen.Component
import Metatup.Parser.Brdir
import Metatup.Parser.Globs
import Mathlib.Algebra.GroupWithZero.Nat

/-!
# Canonical paths and relative paths

The parser and the compile database each bring a path into lexical normal form, and the generator and
the parser each find the relative path from a directory to a path.

* `LexicalNormal`: what the normal form of a path is.
* `canonicalize_lexicalNormal`: both functions compute it, in the buffer they have made.
* `relpath_canonicalize`: a relative path leads from its directory to its path.
-/

namespace Metatup

open Lib

/-! ### The copy -/

/-- One token of `compiledb_canonicalize_path_simple`, with the length that has been summed up. What is
taken off the parts is not taken off the length. -/
def compiledbCanonicalizeStep (absolute : Bool) (s : List Text × ℕ) (tok : Text) : List Text × ℕ :=
  if tok = ['.'] ∨ tok = [] then s
  else if tok = dotdot ∧ s.1 ≠ [] ∧ s.1.getLast? ≠ some dotdot then (s.1.dropLast, s.2)
  else if tok = dotdot ∧ absolute = true then s
  else (s.1 ++ [tok], s.2 + (tok.length + if absolute = true ∨ s.1 ≠ [] then 1 else 0))

/-- The parts and the length once the tokens have been read. -/
def compiledbCanonicalizeParts (path : Text) : List Text × ℕ :=
  (namesOf path).foldl (compiledbCanonicalizeStep (isFullPath path))
    ([], if isFullPath path then 1 else 0)

/-- The length that the buffer of the two functions is made for, the null byte not counted. -/
def canonicalizeLen (path : Text) : ℕ := (compiledbCanonicalizeParts path).2

/-- The loop that writes the parts into the buffer. -/
def writeParts (absolute : Bool) (parts : List Text) : Text :=
  (if absolute then ['/'] else []) ++ joinNames parts

/-- Source: `db.c` `compiledb_canonicalize_path_simple` -/
def compiledbCanonicalizePathSimple (path : Text) : Text :=
  let parts := (compiledbCanonicalizeParts path).1
  if parts = [] ∧ isFullPath path = false then ['.'] else writeParts (isFullPath path) parts

/-! ### The normal form -/

/-- The names that are left of a path: an absolute path cannot climb beyond the root. -/
def remaining (path : Text) : List Text :=
  if isFullPath path then normalised path else Lib.norm dotdot (components path)

/-- `out` is the lexical normal form of `path`. -/
structure LexicalNormal (path out : Text) : Prop where
  absolute : isFullPath out = isFullPath path
  /-- The names are joined by single separators; none is empty or `.`, and the `..` are at the front of a
  relative path. -/
  text : ∃ k names, (∀ n ∈ names, IsName n ∧ n ≠ ['.'] ∧ n ≠ dotdot) ∧
    (isFullPath path = true → k = 0) ∧ remaining path = List.replicate k dotdot ++ names ∧
    out = if remaining path = [] ∧ isFullPath path = false then ['.']
      else writeParts (isFullPath path) (remaining path)
  dot_iff : out = ['.'] ↔ isFullPath path = false ∧ remaining path = []
  root_iff : out = ['/'] ↔ isFullPath path = true ∧ remaining path = []
  /-- From every directory the two lead to one place. -/
  denotes : ∀ base, denotes base out = denotes base path

section

variable {path : Text} {parts l : List Text}

/-- The test for a part that `..` takes away. -/
theorem last_ne_dotdot {k : ℕ} {names : List Text} (h : dotdot ∉ names) :
    (List.replicate k dotdot ++ names ≠ [] ∧
      (List.replicate k dotdot ++ names).getLast? ≠ some dotdot) ↔ names ≠ [] := by
  constructor
  · rintro ⟨hne, hlast⟩ rfl
    rw [List.append_nil] at hne hlast
    apply hlast
    rw [List.getLast?_replicate, if_neg (by simpa using hne)]
  · intro hne
    refine ⟨by simp [hne], fun hlast => h ?_⟩
    rw [List.getLast?_append_of_ne_nil _ hne] at hlast
    exact List.mem_of_getLast? hlast

/-- Below the root the parts are the place that the tokens lead to. -/
theorem foldl_canonicalizeStep_true (l : List Text) :
    l.foldl (canonicalizeStep true) [] = resolve dotdot (l.filter (· ≠ ['.'])) := by
  induction l using List.reverseRecOn with
  | nil => rfl
  | append_singleton l tok ih =>
    have hup := (norm_eq_resolve dotdot (l.filter (· ≠ ['.']))).1
    rw [List.foldl_append, ih, List.filter_append, List.foldl_cons, List.foldl_nil, canonicalizeStep]
    by_cases hdot : tok = ['.']
    · simp [hdot]
    · have hkeep : [tok].filter (· ≠ ['.']) = [tok] := by simp [hdot]
      rw [if_neg hdot, hkeep, resolve_concat]
      split
      · have hlast := last_ne_dotdot (k := 0) hup
        rw [List.replicate_zero, List.nil_append] at hlast
        by_cases hnil : resolve dotdot (l.filter (· ≠ ['.'])) = []
        · rw [hnil, if_neg fun h => h.1 rfl, if_pos rfl]
          rfl
        · rw [if_pos (hlast.2 hnil)]
      · rfl

/-- Otherwise they are the normal form of the tokens. -/
theorem foldl_canonicalizeStep_false (l : List Text) :
    l.foldl (canonicalizeStep false) [] = Lib.norm dotdot (l.filter (· ≠ ['.'])) := by
  induction l using List.reverseRecOn with
  | nil => rfl
  | append_singleton l tok ih =>
    obtain ⟨hup, k, hk⟩ := norm_eq_resolve dotdot (l.filter (· ≠ ['.']))
    have hnorm : Lib.norm dotdot (l.filter (· ≠ ['.'])) =
        List.replicate k dotdot ++ resolve dotdot (l.filter (· ≠ ['.'])) := congrArg Prod.fst hk
    rw [List.foldl_append, ih, List.filter_append, List.foldl_cons, List.foldl_nil, canonicalizeStep]
    by_cases hdot : tok = ['.']
    · simp [hdot]
    · have hkeep : [tok].filter (· ≠ ['.']) = [tok] := by simp [hdot]
      have hstep : Lib.norm dotdot (l.filter (· ≠ ['.']) ++ [tok]) =
          (normStep dotdot (List.replicate k dotdot ++ resolve dotdot (l.filter (· ≠ ['.'])),
            (resolve dotdot (l.filter (· ≠ ['.']))).length) tok).1 := by
        rw [← hk]
        unfold Lib.norm
        rw [List.foldl_append]
        rfl
      rw [if_neg hdot, hkeep, hstep, hnorm, normStep]
      by_cases hdd : tok = dotdot
      · rw [if_pos hdd, if_pos hdd, if_neg Bool.false_ne_true]
        by_cases hnil : resolve dotdot (l.filter (· ≠ ['.'])) = []
        · rw [if_neg fun h => (last_ne_dotdot hup).1 h hnil, if_neg fun h => h (List.length_eq_zero_iff.2 hnil), hdd]
        · rw [if_pos ((last_ne_dotdot hup).2 hnil), if_pos (by simpa using hnil)]
      · rw [if_neg hdd, if_neg hdd]

/-- The function writes the names that remain. -/
theorem canonicalizePathSimple_eq (path : Text) :
    canonicalizePathSimple path =
      if remaining path = [] ∧ isFullPath path = false then ['.']
      else writeParts (isFullPath path) (remaining path) := by
  unfold canonicalizePathSimple remaining writeParts normalised components
  cases isFullPath path with
  | true => simp [foldl_canonicalizeStep_true]
  | false => simp [foldl_canonicalizeStep_false]

/-! ### The copy computes the same -/

theorem compiledbCanonicalizeParts_fst (path : Text) :
    (compiledbCanonicalizeParts path).1 =
      (namesOf path).foldl (canonicalizeStep (isFullPath path)) [] := by
  have key : ∀ (absolute : Bool) (l : List Text) (s : List Text × ℕ), (∀ tok ∈ l, tok ≠ []) →
      (l.foldl (compiledbCanonicalizeStep absolute) s).1 = l.foldl (canonicalizeStep absolute) s.1 := by
    intro absolute l
    induction l with
    | nil => exact fun _ _ => rfl
    | cons tok l ih =>
      intro s h
      have hne := h tok List.mem_cons_self
      have hstep : (compiledbCanonicalizeStep absolute s tok).1 = canonicalizeStep absolute s.1 tok := by
        unfold compiledbCanonicalizeStep canonicalizeStep
        simp only [hne, or_false]
        split_ifs <;> simp_all
      rw [List.foldl_cons, List.foldl_cons, ih _ fun t ht => h t (List.mem_cons_of_mem _ ht), hstep]
  exact key _ _ _ fun tok htok => (isName_of_mem_namesOf htok).ne_nil

theorem compiledbCanonicalizePathSimple_eq (path : Text) :
    compiledbCanonicalizePathSimple path = canonicalizePathSimple path := by
  unfold compiledbCanonicalizePathSimple canonicalizePathSimple writeParts
  rw [compiledbCanonicalizeParts_fst]
  cases isFullPath path <;> simp

/-! ### The buffer -/

theorem length_joinNames_concat (l : List Text) (tok : Text) :
    (joinNames (l ++ [tok])).length =
      (joinNames l).length + (tok.length + if l = [] then 0 else 1) := by
  induction l with
  | nil => simp [joinNames]
  | cons n l ih =>
    cases l with
    | nil => simp [joinNames]
    | cons m l =>
      have hcons : ∀ l', joinNames (n :: m :: l') = n ++ '/' :: joinNames (m :: l') := fun _ => rfl
      rw [List.cons_append, List.cons_append, hcons, hcons, ← List.cons_append, List.length_append,
        List.length_append, List.length_cons, List.length_cons, ih, if_neg (by simp), if_neg (by simp)]
      omega

theorem length_writeParts_concat (absolute : Bool) (l : List Text) (tok : Text) :
    (writeParts absolute (l ++ [tok])).length =
      (writeParts absolute l).length + (tok.length + if l = [] then 0 else 1) := by
  unfold writeParts
  rw [List.length_append, List.length_append, length_joinNames_concat, Nat.add_assoc]

theorem length_writeParts_dropLast (absolute : Bool) (l : List Text) :
    (writeParts absolute l.dropLast).length ≤ (writeParts absolute l).length := by
  rcases List.eq_nil_or_concat' l with rfl | ⟨l, tok, rfl⟩
  · exact le_rfl
  · rw [List.dropLast_concat, length_writeParts_concat]
    exact Nat.le_add_right _ _

/-- What has been summed up is enough for the parts. -/
theorem compiledbCanonicalizeStep_fits {absolute : Bool} {s : List Text × ℕ}
    (h : (writeParts absolute s.1).length ≤ s.2) (tok : Text) :
    (writeParts absolute (compiledbCanonicalizeStep absolute s tok).1).length ≤
      (compiledbCanonicalizeStep absolute s tok).2 := by
  unfold compiledbCanonicalizeStep
  split
  · exact h
  split
  · exact (length_writeParts_dropLast absolute s.1).trans h
  split
  · exact h
  · rw [length_writeParts_concat]
    apply Nat.add_le_add h
    by_cases hnil : s.1 = []
    · simp [hnil]
    · simp [hnil]

theorem length_writeParts_le (path : Text) :
    (writeParts (isFullPath path) (remaining path)).length ≤ canonicalizeLen path := by
  have key : ∀ (absolute : Bool) (l : List Text) (s : List Text × ℕ),
      (writeParts absolute s.1).length ≤ s.2 →
      (writeParts absolute (l.foldl (compiledbCanonicalizeStep absolute) s).1).length ≤
        (l.foldl (compiledbCanonicalizeStep absolute) s).2 := by
    intro absolute l
    induction l with
    | nil => exact fun s h => h
    | cons tok l ih => exact fun s h => ih _ (compiledbCanonicalizeStep_fits h tok)
  have hparts : (compiledbCanonicalizeParts path).1 = remaining path := by
    rw [compiledbCanonicalizeParts_fst]
    unfold remaining normalised components
    cases isFullPath path with
    | true => simp [foldl_canonicalizeStep_true]
    | false => simp [foldl_canonicalizeStep_false]
  rw [← hparts]
  apply key
  cases isFullPath path <;> exact le_rfl

theorem sum_namesLoop (cur path : Text) :
    ((namesLoop cur path).map fun n => n.length + 1).sum ≤ cur.length + path.length + 1 := by
  induction path generalizing cur with
  | nil =>
    unfold namesLoop
    split <;> simp
  | cons c path ih =>
    unfold namesLoop
    split
    · split
      · have := ih []
        simp only [List.length_nil, List.length_cons] at this ⊢
        omega
      · have := ih []
        simp only [List.length_nil, List.length_cons, List.map_cons, List.sum_cons] at this ⊢
        omega
    · have := ih (cur ++ [c])
      simp only [List.length_append, List.length_cons, List.length_nil] at this ⊢
      omega

/-- The sum stays below the length of the path and one, so that it does not overflow an `int` for a
path that is shorter than that. -/
theorem canonicalizeLen_le (path : Text) : canonicalizeLen path ≤ path.length + 1 := by
  have key : ∀ (absolute : Bool) (l : List Text) (s : List Text × ℕ),
      (l.foldl (compiledbCanonicalizeStep absolute) s).2 ≤
        s.2 + (l.map fun n => n.length + 1).sum := by
    intro absolute l
    induction l with
    | nil => exact fun s => le_rfl
    | cons tok l ih =>
      intro s
      have hstep : (compiledbCanonicalizeStep absolute s tok).2 ≤ s.2 + (tok.length + 1) := by
        unfold compiledbCanonicalizeStep
        split_ifs <;> omega
      have hrest := ih (compiledbCanonicalizeStep absolute s tok)
      rw [List.foldl_cons, List.map_cons, List.sum_cons]
      omega
  have hfold := key (isFullPath path) (namesOf path) ([], if isFullPath path then 1 else 0)
  have hsum : ((namesOf path).map fun n => n.length + 1).sum +
      (if isFullPath path then 1 else 0) ≤ path.length + 1 := by
    cases path with
    | nil => exact sum_namesLoop [] []
    | cons c path =>
      by_cases hc : c = '/'
      · subst hc
        exact Nat.succ_le_succ (by simpa [namesOf, namesLoop, isPathSep] using sum_namesLoop [] path)
      · have hrel : isFullPath (c :: path) = false := by simp [isFullPath, hc]
        rw [hrel, if_neg Bool.false_ne_true, Nat.add_zero]
        simpa [namesOf] using sum_namesLoop [] (c :: path)
  unfold canonicalizeLen compiledbCanonicalizeParts
  omega

/-! ### What is written -/

theorem isName_of_mem_remaining {name : Text} (h : name ∈ remaining path) :
    IsName name ∧ name ≠ ['.'] := by
  have hsplit : splitPathElements path = Lib.norm dotdot (components path) :=
    (splitPathElements_eq_normalised path).1
  unfold remaining at h
  split at h
  · exact ⟨isName_of_mem_normalised h,
      by simpa using (List.mem_filter.1 (resolve_subset _ _ h)).2⟩
  · rw [← hsplit] at h
    exact ⟨isName_of_mem_split h, ne_dot_of_mem_split h⟩

theorem mem_of_mem_namesOf {path name : Text} (h : name ∈ namesOf path) {c : Char} (hc : c ∈ name) :
    c ∈ path := by
  have key : ∀ (l cur : Text), ∀ name ∈ namesLoop cur l, ∀ c ∈ name, c ∈ cur ∨ c ∈ l := by
    intro l
    induction l with
    | nil =>
      intro cur name hname c hc
      unfold namesLoop at hname
      split at hname
      · cases hname
      · rw [List.mem_singleton.1 hname] at hc
        exact .inl hc
    | cons d l ih =>
      intro cur name hname c hc
      have hrest : ∀ cur', (∀ x ∈ cur', x ∈ cur ∨ x = d) → name ∈ namesLoop cur' l →
          c ∈ cur ∨ c ∈ d :: l := by
        intro cur' hcur' hname
        rcases ih cur' name hname c hc with h | h
        · rcases hcur' c h with h | rfl
          · exact .inl h
          · exact .inr List.mem_cons_self
        · exact .inr (List.mem_cons_of_mem d h)
      unfold namesLoop at hname
      split at hname
      · split at hname
        · exact hrest [] (by simp) hname
        · rcases List.mem_cons.1 hname with rfl | hname
          · exact .inl hc
          · exact hrest [] (by simp) hname
      · exact hrest (cur ++ [d]) (by simp) hname
  rcases key path [] name h c hc with h | h
  · cases h
  · exact h

theorem namesOf_writeParts {absolute : Bool} {l : List Text} (h : ∀ name ∈ l, IsName name) :
    namesOf (writeParts absolute l) = l := by
  cases absolute with
  | true => exact namesOf_canonText h
  | false => exact namesOf_joinNames h

theorem isFullPath_writeParts {absolute : Bool} {l : List Text} (h : ∀ name ∈ l, IsName name) :
    isFullPath (writeParts absolute l) = absolute := by
  cases absolute with
  | true => rfl
  | false => exact isFullPath_joinNames h

theorem components_writeParts {absolute : Bool} {l : List Text}
    (h : ∀ name ∈ l, IsName name ∧ name ≠ ['.']) : components (writeParts absolute l) = l := by
  rw [components, namesOf_writeParts fun name hname => (h name hname).1, List.filter_eq_self]
  exact fun name hname => by simpa using (h name hname).2

theorem remaining_eq (path : Text) : ∃ k, dotdot ∉ normalised path ∧
    (isFullPath path = true → k = 0) ∧ remaining path = List.replicate k dotdot ++ normalised path := by
  have hup : dotdot ∉ normalised path := (norm_eq_resolve dotdot (components path)).1
  obtain ⟨k, hk⟩ := norm_eq_replicate dotdot (components path)
  unfold remaining
  cases isFullPath path with
  | true => exact ⟨0, hup, fun _ => rfl, rfl⟩
  | false => exact ⟨k, hup, nofun, hk⟩

/-- There are no other names in a canonical path than those of the path. -/
theorem mem_of_mem_remaining {path name : Text} (h : name ∈ remaining path) :
    name = dotdot ∨ name ∈ namesOf path := by
  obtain ⟨k, -, -, hrem⟩ := remaining_eq path
  rw [hrem, List.mem_append] at h
  rcases h with h | h
  · exact .inl (List.eq_of_mem_replicate h)
  · exact .inr (List.mem_of_mem_filter (resolve_subset _ _ h))

theorem isFullPath_canonicalizePathSimple (path : Text) :
    isFullPath (canonicalizePathSimple path) = isFullPath path := by
  rw [canonicalizePathSimple_eq]
  split
  · next h => rw [h.2]; rfl
  · exact isFullPath_writeParts fun name h => (isName_of_mem_remaining h).1

theorem components_canonicalizePathSimple (path : Text) :
    components (canonicalizePathSimple path) = remaining path := by
  rw [canonicalizePathSimple_eq]
  split
  · next h => rw [h.1]; rfl
  · exact components_writeParts fun name h => isName_of_mem_remaining h

/-- The names that remain lead to where the path leads. -/
theorem climb_remaining (base : Dir) (path : Text) :
    climb dotdot (startOf base path) (remaining path) = denotes base path := by
  unfold denotes remaining startOf
  cases isFullPath path with
  | true => exact climb_names [] (norm_eq_resolve dotdot (components path)).1
  | false => exact climb_norm base (components path)

theorem lexicalNormal_canonicalize (path : Text) :
    LexicalNormal path (canonicalizePathSimple path) where
  absolute := isFullPath_canonicalizePathSimple path
  text := by
    obtain ⟨k, hup, hroot, hrem⟩ := remaining_eq path
    refine ⟨k, normalised path, fun n hn => ?_, hroot, hrem, canonicalizePathSimple_eq path⟩
    have hmem : n ∈ remaining path := hrem ▸ List.mem_append_right _ hn
    obtain ⟨hname, hdot⟩ := isName_of_mem_remaining hmem
    exact ⟨hname, hdot, fun heq => hup (heq ▸ hn)⟩
  dot_iff := by
    rw [canonicalizePathSimple_eq]
    split
    · next h => exact iff_of_true rfl h.symm
    · next h =>
      refine iff_of_false (fun heq => ?_) fun hnot => h hnot.symm
      have hisname : ∀ name ∈ remaining path, IsName name := fun name hn =>
        (isName_of_mem_remaining hn).1
      have hnames : namesOf (writeParts (isFullPath path) (remaining path)) = remaining path :=
        namesOf_writeParts hisname
      rw [heq] at hnames
      have hmem : ['.'] ∈ remaining path := hnames ▸ List.mem_singleton_self _
      exact (isName_of_mem_remaining hmem).2 rfl
  root_iff := by
    constructor
    · intro heq
      have habs := isFullPath_canonicalizePathSimple path
      have hcomp := components_canonicalizePathSimple path
      rw [heq] at habs hcomp
      exact ⟨habs.symm, hcomp.symm⟩
    · rintro ⟨habs, hrem⟩
      rw [canonicalizePathSimple_eq, habs, hrem]
      rfl
  denotes := fun base => by
    have hstart : startOf base (canonicalizePathSimple path) = startOf base path := by
      unfold startOf
      rw [isFullPath_canonicalizePathSimple]
    rw [← climb_remaining base path, Metatup.denotes, hstart, components_canonicalizePathSimple]

theorem remaining_canonicalizePathSimple (path : Text) :
    remaining (canonicalizePathSimple path) = remaining path := by
  obtain ⟨k, hup, hroot, hrem⟩ := remaining_eq path
  have hnorm : Lib.norm dotdot (remaining path) = remaining path := by
    rw [hrem]
    exact norm_replicate_append k hup
  have hresolve : isFullPath path = true → resolve dotdot (remaining path) = remaining path := by
    intro habs
    rw [hrem, hroot habs, List.replicate_zero, List.nil_append]
    exact climb_names [] hup
  rw [remaining, normalised, components_canonicalizePathSimple, isFullPath_canonicalizePathSimple]
  split
  · next habs => exact hresolve habs
  · exact hnorm

/-- Both functions compute the lexical normal form in the buffer that they have made, and computing it
again changes nothing. -/
theorem canonicalize_lexicalNormal (path : Text) :
    compiledbCanonicalizePathSimple path = canonicalizePathSimple path ∧
      LexicalNormal path (canonicalizePathSimple path) ∧
      (¬ (remaining path = [] ∧ isFullPath path = false) →
        (canonicalizePathSimple path).length ≤ canonicalizeLen path) ∧
      canonicalizeLen path ≤ path.length + 1 ∧
      canonicalizePathSimple (canonicalizePathSimple path) = canonicalizePathSimple path := by
  refine ⟨compiledbCanonicalizePathSimple_eq path, lexicalNormal_canonicalize path, fun h => ?_,
    canonicalizeLen_le path, ?_⟩
  · rw [canonicalizePathSimple_eq, if_neg h]
    exact length_writeParts_le path
  · rw [canonicalizePathSimple_eq (canonicalizePathSimple path), remaining_canonicalizePathSimple,
      isFullPath_canonicalizePathSimple, ← canonicalizePathSimple_eq]

end

/-! ### Relative paths -/

/-- The text of the path up over the first names and down along the others, in both functions. -/
def relText (up down : List Text) : Text :=
  if up = [] ∧ down = [] then ['.'] else joinNames (up.map (fun _ => dotdot) ++ down)

/-- Source: `parser.c` `relpath_simple` -/
def relpathSimple (fromDir toDir : Text) : Text :=
  let (up, down) := dropCommon (components fromDir) (components toDir)
  relText up down

theorem mtRelpath_eq (fromDir toPath : Text) :
    mtRelpath fromDir toPath =
      relText (dropCommon (namesOf fromDir) (namesOf toPath)).1
        (dropCommon (namesOf fromDir) (namesOf toPath)).2 := rfl

/-- What is dropped is the same on both sides. -/
theorem dropCommon_spec (a b : List Text) :
    ∃ common, a = common ++ (dropCommon a b).1 ∧ b = common ++ (dropCommon a b).2 := by
  induction a generalizing b with
  | nil => exact ⟨[], by cases b <;> rfl, by cases b <;> rfl⟩
  | cons x a ih =>
    cases b with
    | nil => exact ⟨[], rfl, rfl⟩
    | cons y b =>
      by_cases hxy : x = y
      · obtain ⟨common, ha, hb⟩ := ih b
        refine ⟨x :: common, ?_, ?_⟩
        · rw [dropCommon, if_pos hxy, List.cons_append, ← ha]
        · rw [dropCommon, if_pos hxy, List.cons_append, ← hb, hxy]
      · exact ⟨[], by rw [dropCommon, if_neg hxy]; rfl, by rw [dropCommon, if_neg hxy]; rfl⟩

/-- Climbing over the names that a path ends in cancels them. -/
theorem resolve_climb (common : List Text) {names : List Text} (h : dotdot ∉ names) (rest : List Text) :
    resolve dotdot (common ++ names ++ (List.replicate names.length dotdot ++ rest)) =
      resolve dotdot (common ++ rest) := by
  show climb dotdot [] _ = climb dotdot [] _
  rw [climb_append, climb_append, climb_append, climb_append, climb_names _ h, climb_replicate,
    List.length_append, Nat.add_sub_cancel, List.take_left]

theorem relText_spec {up down : List Text} (h : ∀ name ∈ down, IsName name) :
    isFullPath (relText up down) = false ∧
      components (relText up down) =
        List.replicate up.length dotdot ++ down.filter (· ≠ ['.']) := by
  unfold relText
  split
  · next hnil =>
    rw [hnil.1, hnil.2]
    exact ⟨rfl, rfl⟩
  · have hnames : ∀ name ∈ up.map (fun _ => dotdot) ++ down, IsName name := by
      intro name hname
      rcases List.mem_append.1 hname with hname | hname
      · obtain ⟨-, -, rfl⟩ := List.mem_map.1 hname
        decide
      · exact h name hname
    refine ⟨isFullPath_joinNames hnames, ?_⟩
    have hups : (List.replicate up.length dotdot).filter (· ≠ ['.']) =
        List.replicate up.length dotdot := by
      rw [List.filter_eq_self]
      intro name hname
      rw [List.eq_of_mem_replicate hname]
      decide
    rw [components, namesOf_joinNames hnames, List.filter_append, List.map_const', hups]

/-- A relative path between two lists of names with the same names before them leads from the one to
the other. -/
theorem canonicalize_relText {fromDir toPath : Text} {common up down : List Text}
    (hfrom : isFullPath fromDir = true) (hto : isFullPath toPath = true)
    (hup : dotdot ∉ up) (hdown : ∀ name ∈ down, IsName name)
    (hcfrom : components fromDir = common ++ up)
    (hcto : components toPath = common ++ down.filter (· ≠ ['.'])) :
    isFullPath (relText up down) = false ∧
      canonicalizePathSimple (mtJoin fromDir (relText up down)) = canonicalizePathSimple toPath := by
  obtain ⟨hrel, hcomp⟩ : isFullPath (relText up down) = false ∧ _ := relText_spec hdown
  refine ⟨hrel, ?_⟩
  have hjoin : isFullPath (mtJoin fromDir (relText up down)) = true := by
    cases fromDir with
    | nil => cases hfrom
    | cons c s => exact hfrom
  have hnorm : normalised (mtJoin fromDir (relText up down)) = normalised toPath := by
    have hsplit : components (mtJoin fromDir (relText up down)) =
        components fromDir ++ components (relText up down) := by
      unfold components
      rw [mtJoin, namesOf_append_sep, List.filter_append]
    rw [normalised, normalised, hsplit, hcomp, hcfrom, hcto, resolve_climb common hup]
  have hrem : remaining (mtJoin fromDir (relText up down)) = remaining toPath := by
    rw [remaining, remaining, hjoin, hto, hnorm]
    rfl
  rw [canonicalizePathSimple_eq, canonicalizePathSimple_eq toPath, hrem, hjoin, hto]

/-- From a directory without `.` and `..` both functions find a relative path that leads to the path. -/
theorem relpath_canonicalize {fromDir toPath : Text} (hfrom : isFullPath fromDir = true)
    (hto : isFullPath toPath = true) (hdot : ['.'] ∉ namesOf fromDir)
    (hdotdot : dotdot ∉ namesOf fromDir) :
    (isFullPath (mtRelpath fromDir toPath) = false ∧
      canonicalizePathSimple (mtJoin fromDir (mtRelpath fromDir toPath)) =
        canonicalizePathSimple toPath) ∧
    isFullPath (relpathSimple fromDir toPath) = false ∧
      canonicalizePathSimple (mtJoin fromDir (relpathSimple fromDir toPath)) =
        canonicalizePathSimple toPath := by
  have hcfrom : components fromDir = namesOf fromDir := by
    rw [components, List.filter_eq_self]
    intro name hname
    simpa using fun heq : name = ['.'] => hdot (heq ▸ hname)
  constructor
  · obtain ⟨common, ha, hb⟩ := dropCommon_spec (namesOf fromDir) (namesOf toPath)
    obtain ⟨up, hup⟩ : ∃ up, (dropCommon (namesOf fromDir) (namesOf toPath)).1 = up := ⟨_, rfl⟩
    obtain ⟨down, hdown⟩ : ∃ down, (dropCommon (namesOf fromDir) (namesOf toPath)).2 = down := ⟨_, rfl⟩
    rw [hup] at ha
    rw [hdown] at hb
    rw [mtRelpath_eq, hup, hdown]
    apply canonicalize_relText hfrom hto
    · rw [ha] at hdotdot
      exact fun h => hdotdot (List.mem_append_right _ h)
    · intro name h
      apply isName_of_mem_namesOf
      rw [hb]
      exact List.mem_append_right _ h
    · exact hcfrom.trans ha
    · -- The common names are names of the directory, so that none of them is `.`.
      have hcommon : common.filter (· ≠ ['.']) = common := by
        rw [ha] at hdot
        rw [List.filter_eq_self]
        intro name hname
        simpa using fun heq : name = ['.'] => hdot (List.mem_append_left _ (heq ▸ hname))
      rw [components, hb, List.filter_append, hcommon]
  · obtain ⟨common, ha, hb⟩ := dropCommon_spec (components fromDir) (components toPath)
    obtain ⟨up, hup⟩ : ∃ up, (dropCommon (components fromDir) (components toPath)).1 = up := ⟨_, rfl⟩
    obtain ⟨down, hdown⟩ : ∃ down, (dropCommon (components fromDir) (components toPath)).2 = down :=
      ⟨_, rfl⟩
    rw [hup] at ha
    rw [hdown] at hb
    have htext : relpathSimple fromDir toPath = relText up down := by rw [← hup, ← hdown]; rfl
    have hmem : ∀ name ∈ down, name ∈ namesOf toPath ∧ name ≠ ['.'] := by
      intro name hname
      have hcomp : name ∈ components toPath := hb ▸ List.mem_append_right _ hname
      exact ⟨(List.mem_filter.1 hcomp).1, by simpa using (List.mem_filter.1 hcomp).2⟩
    rw [htext]
    apply canonicalize_relText hfrom hto
    · rw [← hcfrom, ha] at hdotdot
      exact fun h => hdotdot (List.mem_append_right _ h)
    · exact fun name h => isName_of_mem_namesOf (hmem name h).1
    · exact ha
    · have hkeep : down.filter (· ≠ ['.']) = down := by
        rw [List.filter_eq_self]
        exact fun name hname => by simpa using (hmem name hname).2
      rw [hkeep]
      exact hb

/-- The tupfile of a component may climb out of its package. -/
theorem relpath_tupfile :
    canonicalizePathSimple (mtJoin "/w/app".toList
        (mtRelpath "/w/app".toList "/w/lib/a/../x/TupBuild".toList)) =
      canonicalizePathSimple "/w/lib/a/../x/TupBuild".toList :=
  (relpath_canonicalize (by decide) (by decide) (by decide) (by decide)).1.2

end Metatup
