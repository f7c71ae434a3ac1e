import Mathlib.Data.List.DropRight
import Metatup.Lib.NameTree
import Metatup.Parser.Outside

/-!
# The function `$(globs ...)`

A pattern is compared with a path segment by segment, where `**` stands for any number of segments and
the others are left to `fnmatch`, of which nothing is assumed. The paths that are compared are found by
walking the tree from the directory that the literal segments at the front of the pattern name.

* `SegMatch`: when the segments of a pattern match those of a path.
* `globPathMatchComponents_iff`: the matcher decides this.
* `evalGlobsOnePattern_iff`: when the paths that are listed are those that match.
-/

namespace Metatup

open Lib

/-! ### The matcher -/

/-- Source: `parser.c` `next_glob_segment`: the segment and what is behind it -/
def nextGlobSegment (s : Text) : Text × Text :=
  let s := s.dropWhile isPathSep
  (s.takeWhile (!isPathSep ·), s.dropWhile (!isPathSep ·))

/-- Source: `parser.c` `glob_segment_is_doublestar` -/
def globSegmentIsDoublestar (seg : Text) : Bool := seg = ['*', '*']

/-- The loop for `**`: whether `found` accepts what is left of a path when some of its segments, at
least one, have been skipped. -/
def skipSegments (found : Text → Bool) : ℕ → Text → Bool
  | 0, _ => false
  | fuel + 1, path =>
    let s := nextGlobSegment path
    if s.1 = [] then false else found s.2 || skipSegments found fuel s.2

/-- The recursion of `glob_path_match_components`; `fnmatch` is the function of the C library with
`FNM_PERIOD`. -/
def globMatchLoop (fnmatch : Text → Text → Bool) (pathMax : ℕ) : ℕ → Text → Text → Bool
  | 0, _, _ => false
  | fuel + 1, path, pattern =>
    let p := nextGlobSegment pattern
    let s := nextGlobSegment path
    if p.1 = [] then s.1 = []
    else if globSegmentIsDoublestar p.1 then
      globMatchLoop fnmatch pathMax fuel path p.2 ||
        skipSegments (globMatchLoop fnmatch pathMax fuel · p.2) (path.length + 1) path
    else if s.1 = [] then false
    else if p.1.length ≥ pathMax ∨ s.1.length ≥ pathMax then false
    else if !fnmatch p.1 s.1 then false
    else globMatchLoop fnmatch pathMax fuel s.2 p.2

/-- Source: `parser.c` `glob_path_match_components` -/
def globPathMatchComponents (fnmatch : Text → Text → Bool) (pathMax : ℕ) (path pattern : Text) : Bool :=
  globMatchLoop fnmatch pathMax (pattern.length + 1) path pattern

/-- Source: `parser.c` `glob_path_match` -/
def globPathMatch (fnmatch : Text → Text → Bool) (pathMax : ℕ) (path pattern : Text) : Bool :=
  if isFullPath pattern ≠ isFullPath path then false
  else globPathMatchComponents fnmatch pathMax path pattern

/-! ### The walk -/

/-- The characters that make a segment a pattern. -/
def isMagic (c : Char) : Bool := c = '*' || c = '?' || c = '['

/-- Source: `parser.c` `glob_pattern_has_magic` -/
def globPatternHasMagic (pattern : Text) : Bool := pattern.any isMagic

/-- The loop of `glob_root_from_pattern`; the last number is how much is behind `root_end`. -/
def globRootLoop : ℕ → Text → ℕ → ℕ
  | 0, _, left => left
  | fuel + 1, next, left =>
    let s := nextGlobSegment next
    if s.1 = [] then left
    else if globSegmentIsDoublestar s.1 || s.1.any isMagic then left
    else globRootLoop fuel s.2 s.2.length

/-- Source: `parser.c` `glob_root_from_pattern` -/
def globRootFromPattern (pattern : Text) : Text :=
  let absolute := isFullPath pattern
  let next := if absolute then pattern.dropWhile isPathSep else pattern
  let left := globRootLoop pattern.length next
    (if absolute then pattern.length - 1 else pattern.length)
  if left = pattern.length then if absolute then ['/'] else ['.']
  else pattern.take (pattern.length - left)

mutual

/-- Source: `parser.c` `eval_globs_walk`, with the tree that is at `root`: the paths that are
appended -/
def evalGlobsWalk (fnmatch : Text → Text → Bool) (pathMax : ℕ) (pattern root : Text) :
    NameTree Text → List Text
  | .leaf => if globPathMatch fnmatch pathMax root pattern then [root] else []
  | .branch f => (if globPathMatch fnmatch pathMax root pattern then [root] else []) ++
      evalGlobsEntries fnmatch pathMax pattern root f

/-- The loop of `eval_globs_walk` over the entries of a directory. -/
def evalGlobsEntries (fnmatch : Text → Text → Bool) (pathMax : ℕ) (pattern root : Text) :
    List (Text × NameTree Text) → List Text
  | [] => []
  | (filename, t) :: f =>
    (if filename = ['.'] ∨ filename = dotdot then []
      else evalGlobsWalk fnmatch pathMax pattern (root ++ '/' :: filename) t) ++
      evalGlobsEntries fnmatch pathMax pattern root f

end

/-- One token of `canonicalize_path_simple`. -/
def canonicalizeStep (absolute : Bool) (parts : List Text) (tok : Text) : List Text :=
  if tok = ['.'] then parts
  else if tok = dotdot then
    if parts ≠ [] ∧ parts.getLast? ≠ some dotdot then parts.dropLast
    else if absolute then parts
    else parts ++ [tok]
  else parts ++ [tok]

/-- Source: `parser.c` `canonicalize_path_simple` -/
def canonicalizePathSimple (path : Text) : Text :=
  let absolute := isFullPath path
  let parts := (namesOf path).foldl (canonicalizeStep absolute) []
  if parts = [] ∧ absolute = false then ['.']
  else if absolute then '/' :: joinNames parts
  else joinNames parts

/-- What is at an absolute path without `.` and `..`. -/
def lstatPath (fs : NameTree Text) (path : Text) : Option (NameTree Text) := fs.subtree (namesOf path)

/-- Source: `parser.c` `eval_globs_one_pattern`: the paths that are appended; `cwd` is what
`snprint_tup_entry` prints for the current directory -/
def evalGlobsOnePattern (fnmatch : Text → Text → Bool) (pathMax : ℕ) (fs : NameTree Text)
    (top cwd pattern : Text) : List Text :=
  let joined := if isFullPath pattern then pattern
    else if cwd = ['.'] ∨ cwd = [] then top ++ '/' :: pattern
    else top ++ '/' :: (cwd ++ '/' :: pattern)
  let canon := canonicalizePathSimple joined
  if !globPatternHasMagic canon then if (lstatPath fs canon).isSome then [canon] else []
  else
    let root := globRootFromPattern canon
    match lstatPath fs root with
    | none => []
    | some t => evalGlobsWalk fnmatch pathMax canon root t

/-! ### What is meant -/

/-- The segments of a pattern match those of a path. -/
inductive SegMatch (fnmatch : Text → Text → Bool) : List Text → List Text → Prop
  | nil : SegMatch fnmatch [] []
  | seg {p s : Text} {ps ss : List Text} (hp : globSegmentIsDoublestar p = false)
      (hs : fnmatch p s = true) (h : SegMatch fnmatch ps ss) : SegMatch fnmatch (p :: ps) (s :: ss)
  | stars (skipped : List Text) {ps ss : List Text} (h : SegMatch fnmatch ps ss) :
      SegMatch fnmatch (['*', '*'] :: ps) (skipped ++ ss)

/-- The text of an absolute path in canonical form. -/
def canonText (p : List Text) : Text := '/' :: joinNames p

/-- The name of something in a directory. -/
structure EntryName (pathMax : ℕ) (name : Text) : Prop where
  isName : IsName name
  ne_dot : name ≠ ['.']
  ne_dotdot : name ≠ dotdot
  short : name.length < pathMax

/-- Every path of the tree that matches is listed once, in canonical form, and nothing else is. -/
structure GlobsExact (fnmatch : Text → Text → Bool) (fs : NameTree Text) (pattern : List Text)
    (listed : List Text) : Prop where
  nodup : listed.Nodup
  mem : ∀ path, path ∈ listed ↔
    ∃ p, (fs.subtree p).isSome ∧ SegMatch fnmatch pattern p ∧ path = canonText p

/-- The segments at the front of a pattern that are no patterns. -/
def literalSegments (pattern : List Text) : List Text := pattern.takeWhile (!·.any isMagic)

/-- What the literal segments name covers what is to be found: without patterns nothing but the path
itself matches, if it is there; with one, all that matches is below the directory that is walked, and
that directory is not the root of the file system unless only the root matches. -/
structure RootFits (fnmatch : Text → Text → Bool) (fs : NameTree Text) (pattern : List Text) :
    Prop where
  literal : pattern.any (·.any isMagic) = false →
    ∀ p, (fs.subtree p).isSome → (SegMatch fnmatch pattern p ↔ p = pattern)
  magic : pattern.any (·.any isMagic) = true → ∀ p, (fs.subtree p).isSome →
    SegMatch fnmatch pattern p →
      literalSegments pattern <+: p ∧ (literalSegments pattern = [] → p = [])

section

variable {fnmatch : Text → Text → Bool} {pathMax : ℕ} {path pattern name : Text}

/-! ### Segments -/

theorem namesOf_dropWhile_sep (s : Text) : namesOf (s.dropWhile isPathSep) = namesOf s := by
  induction s with
  | nil => rfl
  | cons c s ih =>
    by_cases hc : isPathSep c = true
    · rw [List.dropWhile_cons, if_pos hc, ih]
      simp [namesOf, namesLoop, hc]
    · rw [List.dropWhile_cons, if_neg hc]

/-- What is behind a segment is empty or begins with a separator. -/
theorem namesOf_segment (s : Text) (hs : ∀ c, s.head? = some c → isPathSep c = false) :
    namesOf s = if s.takeWhile (!isPathSep ·) = [] then []
      else s.takeWhile (!isPathSep ·) :: namesOf (s.dropWhile (!isPathSep ·)) := by
  have hsplit := List.takeWhile_append_dropWhile (p := (!isPathSep ·)) (l := s)
  have hseg : '/' ∉ s.takeWhile (!isPathSep ·) := by
    intro hmem
    have := List.mem_takeWhile_imp hmem
    simp [isPathSep] at this
  split_ifs with hnil
  · cases s with
    | nil => rfl
    | cons c s =>
      have hc := hs c rfl
      rw [List.takeWhile_cons, hc] at hnil
      cases hnil
  · cases hrest : s.dropWhile (!isPathSep ·) with
    | nil =>
      rw [hrest, List.append_nil] at hsplit
      conv_lhs => rw [← hsplit]
      rw [namesOf_single hnil hseg]
      rfl
    | cons c rest =>
      have hc : c = '/' := by
        have hnot := List.head?_dropWhile_not (!isPathSep ·) s
        rw [hrest] at hnot
        simpa [isPathSep] using hnot
      subst hc
      conv_lhs => rw [← hsplit, hrest]
      rw [namesOf_cons hnil hseg]
      congr 1

/-- A text without names has no segment; otherwise the segment is the first name. -/
theorem namesOf_next (s : Text) : namesOf s =
    if (nextGlobSegment s).1 = [] then [] else (nextGlobSegment s).1 :: namesOf (nextGlobSegment s).2 := by
  rw [← namesOf_dropWhile_sep]
  apply namesOf_segment
  intro c hc
  have hnot := List.head?_dropWhile_not isPathSep s
  rw [hc] at hnot
  simpa using hnot

theorem length_next (s : Text) (h : (nextGlobSegment s).1 ≠ []) :
    (nextGlobSegment s).2.length < s.length := by
  have h₁ : (s.dropWhile isPathSep).length ≤ s.length := (List.dropWhile_sublist _).length_le
  have h₂ := congrArg List.length
    (List.takeWhile_append_dropWhile (p := (!isPathSep ·)) (l := s.dropWhile isPathSep))
  rw [List.length_append] at h₂
  have h₃ := List.length_pos_of_ne_nil h
  simp only [nextGlobSegment] at h₃ ⊢
  omega

/-! ### Matching -/

theorem segMatch_nil {l : List Text} : SegMatch fnmatch [] l ↔ l = [] := by
  constructor
  · intro h
    cases h
    rfl
  · rintro rfl
    exact .nil

theorem segMatch_seg {p : Text} {ps l : List Text} (hp : globSegmentIsDoublestar p = false) :
    SegMatch fnmatch (p :: ps) l ↔
      ∃ s ss, l = s :: ss ∧ fnmatch p s = true ∧ SegMatch fnmatch ps ss := by
  constructor
  · intro h
    cases h with
    | seg _ hs h => exact ⟨_, _, rfl, hs, h⟩
    | stars skipped h => simp [globSegmentIsDoublestar] at hp
  · rintro ⟨s, ss, rfl, hs, h⟩
    exact .seg hp hs h

theorem segMatch_stars {p : Text} {ps l : List Text} (hp : globSegmentIsDoublestar p = true) :
    SegMatch fnmatch (p :: ps) l ↔ ∃ skipped ss, l = skipped ++ ss ∧ SegMatch fnmatch ps ss := by
  constructor
  · intro h
    cases h with
    | seg hp' hs h => simp [hp] at hp'
    | stars skipped h => exact ⟨skipped, _, rfl, h⟩
  · rintro ⟨skipped, ss, rfl, h⟩
    have hp' : p = ['*', '*'] := by simpa [globSegmentIsDoublestar] using hp
    subst hp'
    exact .stars skipped h

/-- All names are short enough for the buffers of the matcher. -/
def Short (pathMax : ℕ) (l : List Text) : Prop := ∀ s ∈ l, s.length < pathMax

/-- The loop tries every rest of the path but the path itself. -/
theorem skipSegments_iff {found : Text → Bool} {Q : List Text → Prop}
    (hfound : ∀ t, Short pathMax (namesOf t) → (found t = true ↔ Q (namesOf t))) {fuel : ℕ}
    (hf : path.length < fuel) (hshort : Short pathMax (namesOf path)) :
    skipSegments found fuel path = true ↔
      ∃ c skipped rest, namesOf path = c :: (skipped ++ rest) ∧ Q rest := by
  induction fuel generalizing path with
  | zero => omega
  | succ fuel ih =>
    have hnames := namesOf_next path
    unfold skipSegments
    dsimp only
    by_cases hseg : (nextGlobSegment path).1 = []
    · rw [if_pos hseg] at hnames ⊢
      simp [hnames]
    · rw [if_neg hseg] at hnames ⊢
      have hlen := length_next path hseg
      have hshort' : Short pathMax (namesOf (nextGlobSegment path).2) := by
        intro s hs
        exact hshort s (hnames ▸ List.mem_cons_of_mem _ hs)
      rw [Bool.or_eq_true, hfound _ hshort', ih (by omega) hshort', hnames]
      constructor
      · rintro (hQ | ⟨c, skipped, rest, hrest, hQ⟩)
        · exact ⟨_, [], _, rfl, hQ⟩
        · exact ⟨_, c :: skipped, rest, by rw [hrest]; rfl, hQ⟩
      · rintro ⟨c, skipped, rest, heq, hQ⟩
        obtain ⟨-, htail⟩ := List.cons.inj heq
        cases skipped with
        | nil => exact .inl (htail ▸ hQ)
        | cons d skipped => exact .inr ⟨d, skipped, rest, htail, hQ⟩

/-- The matcher decides whether the segments match. -/
theorem globMatchLoop_iff {fuel : ℕ} (hf : pattern.length < fuel)
    (hpattern : Short pathMax (namesOf pattern)) (hpath : Short pathMax (namesOf path)) :
    globMatchLoop fnmatch pathMax fuel path pattern = true ↔
      SegMatch fnmatch (namesOf pattern) (namesOf path) := by
  induction fuel generalizing path pattern with
  | zero => omega
  | succ fuel ih =>
    have hp := namesOf_next pattern
    have hs := namesOf_next path
    unfold globMatchLoop
    dsimp only
    by_cases hpseg : (nextGlobSegment pattern).1 = []
    · rw [if_pos hpseg] at hp ⊢
      rw [hp, segMatch_nil, hs, decide_eq_true_eq]
      split_ifs with hsseg <;> simp [hsseg]
    · rw [if_neg hpseg] at hp ⊢
      have hplen := length_next pattern hpseg
      have hpattern' : Short pathMax (namesOf (nextGlobSegment pattern).2) :=
        fun s h => hpattern s (hp ▸ List.mem_cons_of_mem _ h)
      have hrec : ∀ t, Short pathMax (namesOf t) →
          (globMatchLoop fnmatch pathMax fuel t (nextGlobSegment pattern).2 = true ↔
            SegMatch fnmatch (namesOf (nextGlobSegment pattern).2) (namesOf t)) :=
        fun t ht => ih (by omega) hpattern' ht
      rw [hp]
      by_cases hstar : globSegmentIsDoublestar (nextGlobSegment pattern).1 = true
      · rw [if_pos hstar, Bool.or_eq_true, hrec path hpath,
          skipSegments_iff hrec (Nat.lt_succ_self _) hpath, segMatch_stars hstar]
        constructor
        · rintro (h | ⟨c, skipped, rest, heq, h⟩)
          · exact ⟨[], _, rfl, h⟩
          · exact ⟨c :: skipped, rest, heq, h⟩
        · rintro ⟨skipped, ss, heq, h⟩
          cases skipped with
          | nil => exact .inl (heq ▸ h)
          | cons c skipped => exact .inr ⟨c, skipped, ss, heq, h⟩
      · rw [if_neg hstar, segMatch_seg (by simpa using hstar)]
        by_cases hsseg : (nextGlobSegment path).1 = []
        · rw [if_pos hsseg] at hs ⊢
          simp [hs]
        · rw [if_neg hsseg] at hs ⊢
          have hpshort : (nextGlobSegment pattern).1.length < pathMax :=
            hpattern _ (hp ▸ List.mem_cons_self)
          have hsshort : (nextGlobSegment path).1.length < pathMax := hpath _ (hs ▸ List.mem_cons_self)
          have hpath' : Short pathMax (namesOf (nextGlobSegment path).2) :=
            fun s h => hpath s (hs ▸ List.mem_cons_of_mem _ h)
          rw [if_neg (by omega), hs]
          by_cases hm : fnmatch (nextGlobSegment pattern).1 (nextGlobSegment path).1 = true
          · rw [hm, Bool.not_true, if_neg Bool.false_ne_true, hrec _ hpath']
            constructor
            · exact fun h => ⟨_, _, rfl, hm, h⟩
            · rintro ⟨s, ss, heq, -, h⟩
              exact (List.cons.inj heq).2 ▸ h
          · rw [if_pos (by simpa using hm)]
            refine iff_of_false Bool.false_ne_true ?_
            rintro ⟨s, ss, heq, hm', -⟩
            exact hm ((List.cons.inj heq).1 ▸ hm')

theorem globPathMatchComponents_iff (hpattern : Short pathMax (namesOf pattern))
    (hpath : Short pathMax (namesOf path)) :
    globPathMatchComponents fnmatch pathMax path pattern = true ↔
      SegMatch fnmatch (namesOf pattern) (namesOf path) :=
  globMatchLoop_iff (Nat.lt_succ_self _) hpattern hpath

/-! ### Texts of paths -/

theorem topText_append (p q : List Text) : topText (p ++ q) = topText p ++ topText q :=
  List.flatMap_append

theorem joinNames_cons (n : Text) (l : List Text) : joinNames (n :: l) = n ++ topText l := by
  induction l generalizing n with
  | nil => simp [joinNames, topText]
  | cons m l ih =>
    have hjoin : joinNames (n :: m :: l) = n ++ '/' :: joinNames (m :: l) := rfl
    rw [hjoin, ih, topText_cons]

theorem canonText_of_ne_nil {l : List Text} (h : l ≠ []) : canonText l = topText l := by
  obtain ⟨n, l, rfl⟩ := List.exists_cons_of_ne_nil h
  rw [canonText, joinNames_cons, topText_cons]

theorem canonText_nil : canonText [] = ['/'] := rfl

/-- The names of a path to which names are appended. -/
theorem namesOf_append_topText (a : Text) {l : List Text} (h : ∀ n ∈ l, IsName n) :
    namesOf (a ++ topText l) = namesOf a ++ l := by
  induction l generalizing a with
  | nil => simp [topText]
  | cons n l ih =>
    have hn := h n List.mem_cons_self
    have hsplit : a ++ topText (n :: l) = a ++ '/' :: n ++ topText l := by
      rw [topText_cons, List.append_assoc, List.cons_append]
    rw [hsplit, ih _ fun m hm => h m (List.mem_cons_of_mem n hm),
      namesOf_append_name a hn.ne_nil hn.no_sep, List.append_assoc]
    rfl

theorem namesOf_canonText {l : List Text} (h : ∀ n ∈ l, IsName n) : namesOf (canonText l) = l := by
  by_cases hl : l = []
  · rw [hl]
    rfl
  · rw [canonText_of_ne_nil hl]
    exact namesOf_append_topText [] h

theorem isFullPath_canonText (l : List Text) : isFullPath (canonText l) = true := rfl

/-- A canonical path stays as it is. -/
theorem canonicalizePathSimple_canonText {l : List Text} (h : ∀ n ∈ l, EntryName pathMax n) :
    canonicalizePathSimple (canonText l) = canonText l := by
  have key : ∀ (l parts : List Text), (∀ n ∈ l, EntryName pathMax n) →
      l.foldl (canonicalizeStep true) parts = parts ++ l := by
    intro l
    induction l with
    | nil => simp
    | cons n l ih =>
      intro parts hl
      have hn := hl n List.mem_cons_self
      have hstep : canonicalizeStep true parts n = parts ++ [n] := by
        rw [canonicalizeStep, if_neg hn.ne_dot, if_neg hn.ne_dotdot]
      rw [List.foldl_cons, hstep, ih _ fun m hm => hl m (List.mem_cons_of_mem n hm),
        List.append_assoc]
      rfl
  unfold canonicalizePathSimple
  rw [namesOf_canonText fun n hn => (h n hn).isName]
  simp only [isFullPath_canonText, key l [] h, List.nil_append]
  simp [canonText]

/-! ### The root of the walk -/

theorem next_dropWhile (s : Text) : nextGlobSegment (s.dropWhile isPathSep) = nextGlobSegment s := by
  simp only [nextGlobSegment, List.dropWhile_idempotent]

theorem next_topText {n : Text} (hn : IsName n) (l : List Text) :
    nextGlobSegment (topText (n :: l)) = (n, topText l) := by
  have hall : ∀ c ∈ n, (!isPathSep c) = true := by
    intro c hc
    have hne : c ≠ '/' := fun heq => hn.no_sep (heq ▸ hc)
    simpa [isPathSep] using hne
  have hdrop : (topText (n :: l)).dropWhile isPathSep = n ++ topText l := by
    rw [topText_cons, List.dropWhile_cons, if_pos (by rfl)]
    exact dropWhile_sep hn.ne_nil hn.no_sep _
  have hend : (topText l).takeWhile (!isPathSep ·) = [] ∧
      (topText l).dropWhile (!isPathSep ·) = topText l := by
    cases l with
    | nil => exact ⟨rfl, rfl⟩
    | cons m l => exact ⟨rfl, rfl⟩
  unfold nextGlobSegment
  rw [hdrop]
  dsimp only
  rw [List.takeWhile_append_of_pos hall, List.dropWhile_append_of_pos hall, hend.1, hend.2,
    List.append_nil]

theorem isMagic_of_doublestar {seg : Text} (h : globSegmentIsDoublestar seg = true) :
    seg.any isMagic = true := by
  have hseg : seg = ['*', '*'] := by simpa [globSegmentIsDoublestar] using h
  rw [hseg]
  rfl

theorem literalSegments_cons (n : Text) (l : List Text) :
    literalSegments (n :: l) = if n.any isMagic = true then [] else n :: literalSegments l := by
  unfold literalSegments
  rw [List.takeWhile_cons]
  cases n.any isMagic <;> rfl

/-- The segments behind the literal ones. -/
def restSegments (pattern : List Text) : List Text := pattern.dropWhile (!·.any isMagic)

theorem restSegments_cons (n : Text) (l : List Text) :
    restSegments (n :: l) = if n.any isMagic = true then n :: l else restSegments l := by
  unfold restSegments
  rw [List.dropWhile_cons]
  cases n.any isMagic <;> rfl

theorem literalSegments_append (l : List Text) : literalSegments l ++ restSegments l = l :=
  List.takeWhile_append_dropWhile

/-- The loop stops behind the literal segments. -/
theorem globRootLoop_topText {l : List Text} (hl : ∀ n ∈ l, IsName n) {fuel : ℕ}
    (hf : l.length ≤ fuel) (left : ℕ) :
    globRootLoop fuel (topText l) left = if literalSegments l = [] then left
      else (topText (restSegments l)).length := by
  induction fuel generalizing l left with
  | zero =>
    have hnil : l = [] := List.length_eq_zero_iff.1 (Nat.le_zero.1 hf)
    rw [hnil]
    rfl
  | succ fuel ih =>
    unfold globRootLoop
    cases l with
    | nil => rfl
    | cons n l =>
      have hn := hl n List.mem_cons_self
      dsimp only
      rw [next_topText hn, if_neg hn.ne_nil]
      by_cases hm : n.any isMagic = true
      · rw [hm, Bool.or_true, if_pos rfl, literalSegments_cons, if_pos hm, if_pos rfl]
      · have hstar : globSegmentIsDoublestar n = false := by
          rw [Bool.eq_false_iff]
          exact fun h => hm (isMagic_of_doublestar h)
        rw [hstar, Bool.false_or, if_neg hm,
          ih (fun m hm => hl m (List.mem_cons_of_mem n hm)) (by simpa using hf),
          literalSegments_cons, if_neg hm, if_neg (List.cons_ne_nil _ _), restSegments_cons, if_neg hm]
        split_ifs with hnil
        · have hrest := literalSegments_append l
          rw [hnil, List.nil_append] at hrest
          rw [hrest]
        · rfl

/-- The walk starts where the literal segments lead. -/
theorem globRootFromPattern_canonText {l : List Text} (hl : ∀ n ∈ l, IsName n) (hne : l ≠ []) :
    globRootFromPattern (canonText l) = canonText (literalSegments l) := by
  have hlen : l.length ≤ (topText l).length := by
    clear hne
    induction l with
    | nil => exact Nat.zero_le _
    | cons n l ih =>
      have := ih fun m hm => hl m (List.mem_cons_of_mem n hm)
      rw [topText_cons, List.length_cons, List.length_cons, List.length_append]
      omega
  have hsplit : topText l = topText (literalSegments l) ++ topText (restSegments l) := by
    rw [← topText_append, literalSegments_append]
  have hpos : 0 < l.length := List.length_pos_of_ne_nil hne
  have hloop : ∀ left, globRootLoop (topText l).length ((topText l).dropWhile isPathSep) left =
      globRootLoop (topText l).length (topText l) left := by
    intro left
    obtain ⟨k, hk⟩ : ∃ k, (topText l).length = k + 1 := ⟨(topText l).length - 1, by omega⟩
    rw [hk, globRootLoop, globRootLoop, next_dropWhile]
  have hfull : isFullPath (topText l) = true := canonText_of_ne_nil hne ▸ isFullPath_canonText l
  unfold globRootFromPattern
  rw [canonText_of_ne_nil hne]
  simp only [hfull, if_true, hloop, globRootLoop_topText hl hlen]
  by_cases hnil : literalSegments l = []
  · rw [if_pos hnil, if_neg (by omega), hnil]
    have hone : (topText l).length - ((topText l).length - 1) = 1 := by omega
    obtain ⟨n, l, rfl⟩ := List.exists_cons_of_ne_nil hne
    rw [hone]
    rfl
  · have hrest : 0 < (topText (literalSegments l)).length := by
      obtain ⟨n, r, hr⟩ := List.exists_cons_of_ne_nil hnil
      rw [hr, topText_cons]
      exact Nat.succ_pos _
    have hsum := congrArg List.length hsplit
    rw [List.length_append] at hsum
    rw [if_neg hnil, if_neg (by omega), canonText_of_ne_nil hnil]
    conv_lhs => rw [hsplit]
    apply List.take_left'
    rw [List.length_append]
    omega

/-! ### The walk -/

mutual

/-- The walk lists the paths of the tree that match. -/
theorem evalGlobsWalk_eq (root : Text) : ∀ t : NameTree Text, t.Named (EntryName pathMax) →
    evalGlobsWalk fnmatch pathMax pattern root t =
      (t.paths.map (root ++ topText ·)).filter (globPathMatch fnmatch pathMax · pattern)
  | .leaf, _ => by
    simp [evalGlobsWalk, NameTree.paths, topText, List.filter_cons]
  | .branch f, h => by
    rw [evalGlobsWalk, evalGlobsEntries_eq root f h.2, NameTree.paths, List.map_cons,
      List.filter_cons]
    simp only [topText, List.flatMap_nil, List.append_nil]
    split <;> rfl

theorem evalGlobsEntries_eq (root : Text) : ∀ f : List (Text × NameTree Text),
    NameTree.NamedIn (EntryName pathMax) f →
    evalGlobsEntries fnmatch pathMax pattern root f =
      ((NameTree.pathsIn f).map (root ++ topText ·)).filter (globPathMatch fnmatch pathMax · pattern)
  | [], _ => rfl
  | (filename, t) :: f, h => by
    have hname := h.1
    have htext : ∀ p : List Text, root ++ '/' :: filename ++ topText p =
        root ++ topText (filename :: p) := by
      intro p
      rw [topText_cons, List.append_assoc, List.cons_append]
    rw [evalGlobsEntries, if_neg (by simp [hname.ne_dot, hname.ne_dotdot]),
      evalGlobsWalk_eq _ t h.2.1, evalGlobsEntries_eq root f h.2.2, NameTree.pathsIn,
      List.map_append, List.filter_append, List.map_map]
    simp only [htext]
    rfl

end

/-! ### What is listed -/

theorem canonText_inj {p q : List Text} (hp : ∀ n ∈ p, IsName n) (hq : ∀ n ∈ q, IsName n)
    (h : canonText p = canonText q) : p = q := by
  rw [← namesOf_canonText hp, ← namesOf_canonText hq, h]

/-- A path below the root of the walk is in canonical form, unless the root is that of the file system
and the path is not. -/
theorem canonText_append_topText {r q : List Text} (hr : ∀ n ∈ r, IsName n) (hq : ∀ n ∈ q, IsName n) :
    (∃ p, (∀ n ∈ p, IsName n) ∧ canonText r ++ topText q = canonText p) ↔ r ≠ [] ∨ q = [] := by
  constructor
  · rintro ⟨p, hp, heq⟩
    by_contra hno
    obtain ⟨hr', hq'⟩ := not_or.1 hno
    rw [not_not.1 hr', canonText_nil] at heq
    obtain ⟨n, q, rfl⟩ := List.exists_cons_of_ne_nil hq'
    cases p with
    | nil =>
      rw [topText_cons] at heq
      cases heq
    | cons m p =>
      -- the second character is a separator on one side only
      rw [canonText_of_ne_nil (List.cons_ne_nil m p), topText_cons, topText_cons] at heq
      obtain ⟨c, cs, hc⟩ := List.exists_cons_of_ne_nil (hp m List.mem_cons_self).ne_nil
      rw [hc] at heq
      have hsep : '/' = c := (List.cons.inj (List.cons.inj heq).2).1
      exact (hp m List.mem_cons_self).no_sep (hc ▸ hsep ▸ List.mem_cons_self)
  · rintro (hne | rfl)
    · refine ⟨r ++ q, fun n hn => (List.mem_append.1 hn).elim (hr n) (hq n), ?_⟩
      rw [canonText_of_ne_nil hne, canonText_of_ne_nil (by simp [hne]), topText_append]
    · exact ⟨r, hr, by simp [topText]⟩

/-- The text of a path in canonical form is that of the names on it. -/
theorem canonText_append_topText_eq {r q p : List Text} (hr : ∀ n ∈ r, IsName n)
    (hq : ∀ n ∈ q, IsName n) (hp : ∀ n ∈ p, IsName n)
    (h : canonText r ++ topText q = canonText p) : p = r ++ q := by
  rw [← namesOf_canonText hp, ← h, namesOf_append_topText _ hq, namesOf_canonText hr]

/-- The paths of a canonical pattern that are listed. -/
theorem evalGlobsOnePattern_eq {fs : NameTree Text} {top cwd : Text} {l : List Text}
    (hl : ∀ n ∈ l, EntryName pathMax n) :
    evalGlobsOnePattern fnmatch pathMax fs top cwd (canonText l) =
      if l.any (·.any isMagic) = true then
        match fs.subtree (literalSegments l) with
        | none => []
        | some t => evalGlobsWalk fnmatch pathMax (canonText l) (canonText (literalSegments l)) t
      else if (fs.subtree l).isSome then [canonText l] else [] := by
  have hnames : ∀ n ∈ l, IsName n := fun n hn => (hl n hn).isName
  have hlit : ∀ n ∈ literalSegments l, IsName n := by
    intro n hn
    exact hnames n (literalSegments_append l ▸ List.mem_append_left _ hn)
  have hmagic : globPatternHasMagic (canonText l) = l.any (·.any isMagic) := by
    have key : ∀ l : List Text, (topText l).any isMagic = l.any (·.any isMagic) := by
      intro l
      induction l with
      | nil => rfl
      | cons n l ih =>
        rw [topText_cons, List.any_cons, List.any_append, ih, List.any_cons]
        rfl
    by_cases hnil : l = []
    · rw [hnil]
      rfl
    · rw [canonText_of_ne_nil hnil]
      exact key l
  unfold evalGlobsOnePattern lstatPath
  simp only [isFullPath_canonText, if_true, canonicalizePathSimple_canonText hl, hmagic,
    namesOf_canonText hnames]
  by_cases hm : l.any (·.any isMagic) = true
  · have hne : l ≠ [] := by
      rintro rfl
      cases hm
    rw [hm, Bool.not_true, if_neg Bool.false_ne_true, if_pos rfl,
      globRootFromPattern_canonText hnames hne, namesOf_canonText hlit]
  · rw [if_pos (by simpa using hm), if_neg hm]

variable {fs : NameTree Text} {top cwd : Text} {l : List Text}

/-- What the walk lists: the matching paths below its root. -/
theorem mem_evalGlobsWalk {t : NameTree Text} (hfs : fs.Named (EntryName pathMax))
    (hl : ∀ n ∈ l, EntryName pathMax n) (ht : fs.subtree (literalSegments l) = some t)
    (path : Text) :
    path ∈ evalGlobsWalk fnmatch pathMax (canonText l) (canonText (literalSegments l)) t ↔
      ∃ q, (fs.subtree (literalSegments l ++ q)).isSome ∧
        SegMatch fnmatch l (literalSegments l ++ q) ∧
        path = canonText (literalSegments l) ++ topText q := by
  obtain ⟨htn, hlit⟩ := hfs.subtree ht
  rw [evalGlobsWalk_eq _ t htn, List.mem_filter, List.mem_map]
  have hsub : ∀ q, (fs.subtree (literalSegments l ++ q)).isSome ↔ q ∈ t.paths := by
    intro q
    rw [NameTree.subtree_append, ht, Option.bind_some, NameTree.mem_paths_iff t q htn]
  have hmatch : ∀ q ∈ t.paths, (globPathMatch fnmatch pathMax
      (canonText (literalSegments l) ++ topText q) (canonText l) = true ↔
        SegMatch fnmatch l (literalSegments l ++ q)) := by
    intro q hq
    obtain ⟨u, hu⟩ := Option.isSome_iff_exists.1 ((NameTree.mem_paths_iff t q htn).1 hq)
    have hqn := (htn.subtree hu).2
    have hnames : namesOf (canonText (literalSegments l) ++ topText q) = literalSegments l ++ q := by
      rw [namesOf_append_topText _ fun n hn => (hqn n hn).isName,
        namesOf_canonText fun n hn => (hlit n hn).isName]
    have hfull : isFullPath (canonText (literalSegments l) ++ topText q) = true := rfl
    rw [globPathMatch, hfull, isFullPath_canonText, if_neg (by simp),
      globPathMatchComponents_iff, hnames, namesOf_canonText fun n hn => (hl n hn).isName]
    · rw [namesOf_canonText fun n hn => (hl n hn).isName]
      exact fun n hn => (hl n hn).short
    · rw [hnames]
      exact fun n hn => (List.mem_append.1 hn).elim (fun h => (hlit n h).short)
        fun h => (hqn n h).short
  constructor
  · rintro ⟨⟨q, hq, rfl⟩, hm⟩
    exact ⟨q, (hsub q).2 hq, (hmatch q hq).1 hm, rfl⟩
  · rintro ⟨q, hq, hm, rfl⟩
    exact ⟨⟨q, (hsub q).1 hq, rfl⟩, (hmatch q ((hsub q).1 hq)).2 hm⟩

theorem evalGlobsWalk_nodup {t : NameTree Text} {root : Text} (ht : t.Named (EntryName pathMax)) :
    (evalGlobsWalk fnmatch pathMax pattern root t).Nodup := by
  rw [evalGlobsWalk_eq root t ht]
  apply List.Nodup.filter
  refine (NameTree.paths_nodup t ht).map_on ?_
  intro p hp q hq heq
  have hnames : ∀ p ∈ t.paths, ∀ n ∈ p, IsName n := by
    intro p hp n hn
    obtain ⟨u, hu⟩ := Option.isSome_iff_exists.1 ((NameTree.mem_paths_iff t p ht).1 hp)
    exact ((ht.subtree hu).2 n hn).isName
  have hp' := namesOf_append_topText root (hnames p hp)
  have hq' := namesOf_append_topText root (hnames q hq)
  rw [heq, hq'] at hp'
  exact (List.append_cancel_left hp').symm

/-- For every tree and every function `fnmatch`: the paths that are listed for a canonical pattern are
those that match, if and only if the literal segments cover what is to be found. -/
theorem evalGlobsOnePattern_iff (hfs : fs.Named (EntryName pathMax))
    (hl : ∀ n ∈ l, EntryName pathMax n) :
    GlobsExact fnmatch fs l (evalGlobsOnePattern fnmatch pathMax fs top cwd (canonText l)) ↔
      RootFits fnmatch fs l := by
  have hnames : ∀ n ∈ l, IsName n := fun n hn => (hl n hn).isName
  have hexist : ∀ p, (fs.subtree p).isSome → ∀ n ∈ p, IsName n := by
    intro p hp n hn
    obtain ⟨u, hu⟩ := Option.isSome_iff_exists.1 hp
    exact ((hfs.subtree hu).2 n hn).isName
  rw [evalGlobsOnePattern_eq hl]
  by_cases hm : l.any (·.any isMagic) = true
  · rw [if_pos hm]
    have hlit : ∀ n ∈ literalSegments l, IsName n := by
      intro n hn
      exact hnames n (literalSegments_append l ▸ List.mem_append_left _ hn)
    constructor
    · intro h
      refine ⟨fun hno => absurd (hm.symm.trans hno) (by decide), fun _ p hp hmatch => ?_⟩
      have hlisted := (h.mem _).2 ⟨p, hp, hmatch, rfl⟩
      cases ht : fs.subtree (literalSegments l) with
      | none =>
        rw [ht] at hlisted
        cases hlisted
      | some t =>
        rw [ht] at hlisted
        obtain ⟨q, hq, -, heq⟩ := (mem_evalGlobsWalk hfs hl ht _).1 hlisted
        have hqn : ∀ n ∈ q, IsName n :=
          fun n hn => hexist _ hq n (List.mem_append_right _ hn)
        have hpq := canonText_append_topText_eq hlit hqn (hexist p hp) heq.symm
        refine ⟨hpq ▸ List.prefix_append _ _, fun hnil => ?_⟩
        have hcanon := (canonText_append_topText hlit hqn).1 ⟨p, hexist p hp, heq.symm⟩
        rw [hpq, hnil, hcanon.resolve_left (not_not.2 hnil), List.append_nil]
    · intro h
      have hfit := h.magic hm
      cases ht : fs.subtree (literalSegments l) with
      | none =>
        refine ⟨List.nodup_nil, fun path => iff_of_false List.not_mem_nil ?_⟩
        rintro ⟨p, hp, hmatch, -⟩
        obtain ⟨q, hq⟩ := (hfit p hp hmatch).1
        rw [← hq, NameTree.subtree_append, ht] at hp
        cases hp
      | some t =>
        refine ⟨evalGlobsWalk_nodup (hfs.subtree ht).1, fun path => ?_⟩
        rw [mem_evalGlobsWalk hfs hl ht]
        have htext : ∀ q, (fs.subtree (literalSegments l ++ q)).isSome →
            SegMatch fnmatch l (literalSegments l ++ q) →
            canonText (literalSegments l) ++ topText q = canonText (literalSegments l ++ q) := by
          intro q hq hmatch
          have hqn : ∀ n ∈ q, IsName n := fun n hn => hexist _ hq n (List.mem_append_right _ hn)
          have hside : literalSegments l ≠ [] ∨ q = [] := by
            by_cases hnil : literalSegments l = []
            · have := (hfit _ hq hmatch).2 hnil
              exact .inr (List.append_eq_nil_iff.1 this).2
            · exact .inl hnil
          obtain ⟨p, hpn, hp⟩ := (canonText_append_topText hlit hqn).2 hside
          rw [hp, canonText_append_topText_eq hlit hqn hpn hp]
        constructor
        · rintro ⟨q, hq, hmatch, rfl⟩
          exact ⟨_, hq, hmatch, htext q hq hmatch⟩
        · rintro ⟨p, hp, hmatch, rfl⟩
          obtain ⟨q, rfl⟩ := (hfit p hp hmatch).1
          exact ⟨q, hp, hmatch, (htext q hp hmatch).symm⟩
  · rw [if_neg hm]
    have hm' : l.any (·.any isMagic) = false := by simpa using hm
    constructor
    · intro h
      refine ⟨fun _ p hp => ⟨fun hmatch => ?_, ?_⟩, fun hno => absurd hno hm⟩
      · have hlisted := (h.mem _).2 ⟨p, hp, hmatch, rfl⟩
        split_ifs at hlisted
        · exact canonText_inj (hexist p hp) hnames (List.mem_singleton.1 hlisted)
        · exact absurd hlisted List.not_mem_nil
      · rintro rfl
        rw [if_pos hp] at h
        obtain ⟨q, hq, hmatch, heq⟩ := (h.mem _).1 (List.mem_singleton_self _)
        rw [canonText_inj (hexist q hq) hnames heq.symm] at hmatch
        exact hmatch
    · intro h
      have hfit := h.literal hm'
      by_cases hl' : (fs.subtree l).isSome
      · rw [if_pos hl']
        refine ⟨List.nodup_singleton _, fun path => ?_⟩
        rw [List.mem_singleton]
        constructor
        · rintro rfl
          exact ⟨l, hl', (hfit l hl').2 rfl, rfl⟩
        · rintro ⟨p, hp, hmatch, rfl⟩
          rw [(hfit p hp).1 hmatch]
      · rw [if_neg hl']
        refine ⟨List.nodup_nil, fun path => iff_of_false List.not_mem_nil ?_⟩
        rintro ⟨p, hp, hmatch, -⟩
        rw [(hfit p hp).1 hmatch] at hp
        exact hl' hp

/-! ### When the literal segments fit -/

/-- `fnmatch` takes a text without special characters for itself. -/
def FnmatchLiteral (fnmatch : Text → Text → Bool) : Prop :=
  ∀ p s, p.any isMagic = false → '\\' ∉ p → (fnmatch p s = true ↔ p = s)

/-- What matches begins with the literal segments, where these are free of escapes. -/
theorem SegMatch.literal_prefix (hfn : FnmatchLiteral fnmatch) {p : List Text}
    (hescape : ∀ n ∈ literalSegments l, '\\' ∉ n) (h : SegMatch fnmatch l p) :
    ∃ q, p = literalSegments l ++ q ∧ SegMatch fnmatch (restSegments l) q := by
  induction l generalizing p with
  | nil => exact ⟨p, rfl, h⟩
  | cons n l ih =>
    rw [literalSegments_cons] at hescape ⊢
    rw [restSegments_cons]
    by_cases hm : n.any isMagic = true
    · rw [if_pos hm, if_pos hm]
      exact ⟨p, rfl, h⟩
    · rw [if_neg hm] at hescape ⊢
      rw [if_neg hm]
      have hstar : globSegmentIsDoublestar n = false := by
        rw [Bool.eq_false_iff]
        exact fun h => hm (isMagic_of_doublestar h)
      obtain ⟨s, ss, rfl, hs, hss⟩ := (segMatch_seg hstar).1 h
      have hns := (hfn n s (by simpa using hm) (hescape n List.mem_cons_self)).1 hs
      obtain ⟨q, hq, hrest⟩ := ih (fun m hm' => hescape m (List.mem_cons_of_mem n hm')) hss
      exact ⟨q, by rw [← hns, hq]; rfl, hrest⟩

/-- Without escapes in the literal segments, the one thing that goes wrong is a pattern without any that
matches something other than the root of the file system. -/
theorem rootFits_iff (hfn : FnmatchLiteral fnmatch) (hescape : ∀ n ∈ literalSegments l, '\\' ∉ n) :
    RootFits fnmatch fs l ↔ (l ≠ [] → literalSegments l = [] →
      ∀ p, (fs.subtree p).isSome → SegMatch fnmatch l p → p = []) := by
  constructor
  · intro h hne hnil p hp hmatch
    have hm : l.any (·.any isMagic) = true := by
      obtain ⟨n, l, rfl⟩ := List.exists_cons_of_ne_nil hne
      rw [literalSegments_cons] at hnil
      split_ifs at hnil with hm
      rw [List.any_cons, hm, Bool.true_or]
    exact (h.magic hm p hp hmatch).2 hnil
  · intro h
    refine ⟨fun hm p hp => ?_, fun hm p hp hmatch => ⟨?_, fun hnil => ?_⟩⟩
    · have hall : ∀ n ∈ l, n.any isMagic = false := by simpa using hm
      have hlit : literalSegments l = l := by
        unfold literalSegments
        rw [List.takeWhile_eq_self_iff]
        exact fun n hn => by simp [hall n hn]
      have hrest : restSegments l = [] := by
        have := literalSegments_append l
        rw [hlit] at this
        simpa using this
      constructor
      · intro hmatch
        obtain ⟨q, hq, hq'⟩ := hmatch.literal_prefix hfn hescape
        rw [hrest, segMatch_nil] at hq'
        rw [hq, hq', hlit, List.append_nil]
      · rintro rfl
        clear hm hrest hp h
        rw [hlit] at hescape
        clear hlit
        induction p with
        | nil => exact .nil
        | cons n p ih =>
          have hn := hall n List.mem_cons_self
          refine .seg ?_ ((hfn n n hn (hescape n List.mem_cons_self)).2 rfl)
            (ih (fun m hm => hescape m (List.mem_cons_of_mem n hm))
              fun m hm => hall m (List.mem_cons_of_mem n hm))
          rw [Bool.eq_false_iff]
          intro hstar
          rw [isMagic_of_doublestar hstar] at hn
          cases hn
    · obtain ⟨q, hq, -⟩ := hmatch.literal_prefix hfn hescape
      exact ⟨q, hq.symm⟩
    · refine h ?_ hnil p hp hmatch
      rintro rfl
      cases hm

end

/-! ### Two runs -/

/-- What `fnmatch` does with a star and with an escaped letter. -/
def fnmatchSimple (p s : Text) : Bool :=
  p = s && '\\' ∉ p || p = ['*'] && s.head? ≠ some '.' || p = ['\\', 'b'] && s = ['b']

/-- A directory with a file in a file system. -/
def smallFs : NameTree Text := .branch [(['b'], .branch [(['c'], .leaf)])]

theorem smallFs_named : smallFs.Named (EntryName 4096) := by
  have hb : EntryName 4096 ['b'] := ⟨by decide, by decide, by decide, by decide⟩
  have hc : EntryName 4096 ['c'] := ⟨by decide, by decide, by decide, by decide⟩
  exact ⟨by decide, hb, ⟨by decide, hc, trivial, trivial⟩, trivial⟩

theorem evalGlobsOnePattern_smallFs :
    GlobsExact fnmatchSimple smallFs [['b'], ['*']] (evalGlobsOnePattern fnmatchSimple 4096 smallFs
      [] [] (canonText [['b'], ['*']])) ↔ RootFits fnmatchSimple smallFs [['b'], ['*']] :=
  evalGlobsOnePattern_iff smallFs_named (by
    intro n hn
    rcases List.mem_cons.1 hn with rfl | hn
    · exact ⟨by decide, by decide, by decide, by decide⟩
    · rw [List.mem_singleton.1 hn]
      exact ⟨by decide, by decide, by decide, by decide⟩)

/-- `/*` lists `//b`, and `/\b/*` lists nothing although `/b/c` matches. -/
theorem evalGlobsOnePattern_misses :
    evalGlobsOnePattern fnmatchSimple 4096 smallFs [] [] "/*".toList = ["//b".toList] ∧
    ¬ GlobsExact fnmatchSimple smallFs [['*']]
      (evalGlobsOnePattern fnmatchSimple 4096 smallFs [] [] (canonText [['*']])) ∧
    evalGlobsOnePattern fnmatchSimple 4096 smallFs [] [] "/\\b/*".toList = [] ∧
    ¬ GlobsExact fnmatchSimple smallFs [['\\', 'b'], ['*']]
      (evalGlobsOnePattern fnmatchSimple 4096 smallFs [] [] (canonText [['\\', 'b'], ['*']])) := by
  refine ⟨by decide, fun h => ?_, by decide, fun h => ?_⟩
  · have hmem := (h.mem "/b".toList).2
      ⟨[['b']], by decide, .seg (by decide) (by decide) .nil, by decide⟩
    revert hmem
    decide
  · have hmem := (h.mem "/b/c".toList).2 ⟨[['b'], ['c']], by decide,
      .seg (by decide) (by decide) (.seg (by decide) (by decide) .nil), by decide⟩
    revert hmem
    decide

end Metatup
