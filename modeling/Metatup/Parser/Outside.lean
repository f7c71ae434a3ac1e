import Mathlib.Data.List.TakeWhile
import Metatup.Parser.Path

/-!
# Paths inside and outside of the project

`get_path_elements` compares the elements of an absolute path with the text of the top directory. An
element only has to be the beginning of what is left of the text, so that several elements may use up
one name of the top directory.

* `Classified`: what the result says about the path.
* `matchTop_eq_nil_iff`: which elements use up the text.
* `classified_iff`: when the result is right.
-/

namespace Metatup

open Lib

/-! ### What is meant -/

/-- The text of a directory, by its names from the root of the file system. -/
def topText (top : List Text) : Text := top.flatMap ('/' :: ·)

/-- The text of a name in a path. -/
structure IsName (name : Text) : Prop where
  ne_nil : name ≠ []
  no_sep : '/' ∉ name

instance (name : Text) : Decidable (IsName name) :=
  decidable_of_iff (name ≠ [] ∧ '/' ∉ name) ⟨fun h => ⟨h.1, h.2⟩, fun h => ⟨h.ne_nil, h.no_sep⟩⟩

/-- A canonical top directory that is not the root of the file system. -/
structure CanonicalTop (top : List Text) : Prop where
  ne_nil : top ≠ []
  names : ∀ name ∈ top, IsName name ∧ name ≠ ['.'] ∧ name ≠ dotdot

/-- The names of a path without the empty ones and `.`. -/
def components (path : Text) : List Text := (namesOf path).filter (· ≠ ['.'])

/-- The names of the path when `..` at the root stays at the root. -/
def normalised (path : Text) : List Text := resolve dotdot (components path)

/-- A path is outside when its normal form is not at or below the top directory, and otherwise what is
left of it are the names below. -/
structure Classified (top : List Text) (path : Text) : Prop where
  outside : (getPathElements (topText top) path).outsideTup = true ↔ ¬ top <+: normalised path
  inside : (getPathElements (topText top) path).outsideTup = false →
    (getPathElements (topText top) path).pathList = (normalised path).drop top.length

/-- The names of the top directory come out when some first elements are glued together in groups. -/
def Spells (top elements : List Text) : Prop :=
  ∃ groups : List (List Text), groups.map List.flatten = top ∧ groups.flatten <+: elements

/-! ### Using up the text -/

theorem isName_of_mem_namesOf {path name : Text} (h : name ∈ namesOf path) : IsName name := by
  have key : ∀ (l cur : Text), '/' ∉ cur → ∀ name ∈ namesLoop cur l, IsName name := by
    intro l
    induction l with
    | nil =>
      intro cur hcur name hname
      unfold namesLoop at hname
      split at hname
      · exact absurd hname List.not_mem_nil
      · next hne =>
        rw [List.mem_singleton] at hname
        exact hname ▸ ⟨hne, hcur⟩
    | cons c l ih =>
      intro cur hcur name hname
      unfold namesLoop at hname
      split at hname
      · split at hname
        · exact ih [] List.not_mem_nil name hname
        · next hne =>
          rcases List.mem_cons.1 hname with rfl | hname
          · exact ⟨hne, hcur⟩
          · exact ih [] List.not_mem_nil name hname
      · next hsep =>
        refine ih (cur ++ [c]) ?_ name hname
        rw [List.mem_append, not_or, List.mem_singleton]
        exact ⟨hcur, fun heq => hsep (heq ▸ rfl)⟩
  exact key path [] List.not_mem_nil name h

section

variable {r c e : Text} {top es elements : List Text}

theorem topText_cons (c : Text) (top : List Text) : topText (c :: top) = '/' :: (c ++ topText top) := rfl

theorem dropWhile_sep (hne : r ≠ []) (hsep : '/' ∉ r) (t : Text) :
    (r ++ t).dropWhile isPathSep = r ++ t := by
  obtain ⟨a, r, rfl⟩ := List.exists_cons_of_ne_nil hne
  rw [List.mem_cons, not_or] at hsep
  have ha : isPathSep a = false := by simpa [isPathSep] using Ne.symm hsep.1
  rw [List.cons_append, List.dropWhile_cons, ha]
  rfl

/-- An element that is the beginning of the text is within one name. -/
theorem isPrefix_topText (hsep : '/' ∉ e) : e <+: r ++ topText top ↔ e <+: r := by
  refine ⟨fun h => ?_, fun h => h.trans (List.prefix_append _ _)⟩
  rcases top with _ | ⟨c, top⟩
  · rw [topText, List.flatMap_nil, List.append_nil] at h
    exact h
  rcases Nat.lt_or_ge r.length e.length with hlt | hge
  · have hpre : r ++ ['/'] <+: r ++ topText (c :: top) :=
      (List.prefix_append_right_inj r).2 ⟨c ++ topText top, rfl⟩
    have hle : (r ++ ['/']).length ≤ e.length := by
      rw [List.length_append, List.length_singleton]
      omega
    have hmem := (List.prefix_of_prefix_length_le hpre h hle).subset
      (List.mem_append_right r (List.mem_singleton_self '/'))
    exact absurd hmem hsep
  · exact List.prefix_of_prefix_length_le h (List.prefix_append _ _) hge

/-- Elements whose texts are in front of the names of the top directory, `r` being what is left of a
name. -/
def SpellsFrom (r : Text) (top elements : List Text) : Prop :=
  ∃ (g : List Text) (gs : List (List Text)),
    g.flatten = r ∧ gs.map List.flatten = top ∧ g ++ gs.flatten <+: elements

theorem eq_nil_of_flatten {g : List Text} (h : ∀ e ∈ g, IsName e) (hg : g.flatten = []) : g = [] := by
  rcases g with _ | ⟨e, g⟩
  · rfl
  · rw [List.flatten_cons, List.append_eq_nil_iff] at hg
    exact absurd hg.1 (h e List.mem_cons_self).ne_nil

/-- A new name is begun when nothing is left of the last one. -/
theorem spellsFrom_nil (hes : ∀ e ∈ elements, IsName e) :
    SpellsFrom [] (c :: top) elements ↔ SpellsFrom c top elements := by
  constructor
  · rintro ⟨g, gs, hg, hgs, hpre⟩
    have hnil : g = [] := eq_nil_of_flatten
      (fun e he => hes e (hpre.subset (List.mem_append_left _ he))) hg
    rw [hnil, List.nil_append] at hpre
    obtain ⟨g', gs', rfl, hg', hgs'⟩ := List.map_eq_cons_iff.1 hgs
    exact ⟨g', gs', hg', hgs', hpre⟩
  · rintro ⟨g, gs, hg, hgs, hpre⟩
    exact ⟨[], g :: gs, rfl, congrArg₂ List.cons hg hgs, hpre⟩

theorem spellsFrom_cons (hr : r ≠ []) (e : Text) (es : List Text) :
    SpellsFrom r top (e :: es) ↔ ∃ r', r = e ++ r' ∧ SpellsFrom r' top es := by
  constructor
  · rintro ⟨g, gs, rfl, hgs, hpre⟩
    obtain ⟨e', g, rfl⟩ := List.exists_cons_of_ne_nil (show g ≠ [] by rintro rfl; exact hr rfl)
    rw [List.cons_append, List.cons_prefix_cons] at hpre
    obtain ⟨rfl, hpre⟩ := hpre
    exact ⟨g.flatten, rfl, g, gs, rfl, hgs, hpre⟩
  · rintro ⟨r', rfl, g, gs, rfl, hgs, hpre⟩
    exact ⟨e :: g, gs, rfl, hgs, List.cons_prefix_cons.2 ⟨rfl, hpre⟩⟩

theorem matchTop_cons (top e : Text) (es : List Text) : matchTop top (e :: es) =
    if e.isPrefixOf (top.dropWhile isPathSep) then
      ((matchTop ((top.dropWhile isPathSep).drop e.length) es).1,
        (matchTop ((top.dropWhile isPathSep).drop e.length) es).2 + 1)
    else (top.dropWhile isPathSep, 0) := rfl

theorem dropWhile_topText_cons (hc : IsName c) (top : List Text) :
    (topText (c :: top)).dropWhile isPathSep = c ++ topText top := by
  have hslash : isPathSep '/' = true := by decide
  rw [topText_cons, List.dropWhile_cons, if_pos hslash]
  exact dropWhile_sep hc.ne_nil hc.no_sep _

/-- The text is used up exactly when elements spell it. -/
theorem matchTop_eq_nil_iff (hes : ∀ e ∈ elements, IsName e) (hr : '/' ∉ r)
    (htop : ∀ c ∈ top, IsName c) :
    (matchTop (r ++ topText top) elements).1 = [] ↔ SpellsFrom r top elements := by
  induction elements generalizing r top with
  | nil =>
    show r ++ topText top = [] ↔ _
    constructor
    · intro h
      obtain ⟨rfl, htext⟩ := List.append_eq_nil_iff.1 h
      rcases top with _ | ⟨c, top⟩
      · exact ⟨[], [], rfl, rfl, List.prefix_rfl⟩
      · cases htext
    · rintro ⟨g, gs, rfl, rfl, hpre⟩
      obtain ⟨rfl, hgs⟩ := List.append_eq_nil_iff.1 (List.prefix_nil.1 hpre)
      rcases gs with _ | ⟨g, gs⟩
      · rfl
      · rw [List.flatten_cons, List.append_eq_nil_iff] at hgs
        have hname := htop g.flatten (List.mem_cons_self ..)
        rw [hgs.1] at hname
        exact absurd rfl hname.ne_nil
  | cons e es ih =>
    obtain ⟨he, hes'⟩ := List.forall_mem_cons.1 hes
    -- the names are compared one after another, so that something of a name is left
    have key : ∀ (r : Text) (top : List Text), r ≠ [] → '/' ∉ r → (∀ c ∈ top, IsName c) →
        (((if e.isPrefixOf (r ++ topText top) then
          ((matchTop ((r ++ topText top).drop e.length) es).1,
            (matchTop ((r ++ topText top).drop e.length) es).2 + 1)
          else (r ++ topText top, 0)) : Text × ℕ).1 = [] ↔ SpellsFrom r top (e :: es)) := by
      intro r top hne hr htop
      rw [spellsFrom_cons hne]
      by_cases hpre : e <+: r
      · obtain ⟨r', rfl⟩ := hpre
        have hr' : '/' ∉ r' := fun h => hr (List.mem_append_right _ h)
        have htext : e.isPrefixOf (e ++ r' ++ topText top) = true :=
          List.isPrefixOf_iff_prefix.2 ((List.prefix_append _ _).trans (List.prefix_append _ _))
        rw [if_pos htext, List.append_assoc, List.drop_left, ih hes' hr' htop]
        constructor
        · exact fun h => ⟨r', rfl, h⟩
        · rintro ⟨r'', heq, h⟩
          exact List.append_cancel_left heq ▸ h
      · have htext : ¬ e.isPrefixOf (r ++ topText top) = true := by
          rw [List.isPrefixOf_iff_prefix, isPrefix_topText he.no_sep]
          exact hpre
        rw [if_neg htext]
        constructor
        · intro h
          exact absurd (List.append_eq_nil_iff.1 h).1 hne
        · rintro ⟨r', rfl, -⟩
          exact absurd (List.prefix_append _ _) hpre
    rw [matchTop_cons]
    by_cases hnil : r = []
    · subst hnil
      rcases top with _ | ⟨c, top⟩
      · have hno : ¬ e.isPrefixOf ([] : Text) = true := by
          rw [List.isPrefixOf_iff_prefix, List.prefix_nil]
          exact he.ne_nil
        have hstop : matchTop ([] ++ topText []) (e :: es) = ([], 0) := if_neg hno
        rw [← matchTop_cons, hstop]
        exact ⟨fun _ => ⟨[], [], rfl, rfl, List.nil_prefix⟩, fun _ => rfl⟩
      · obtain ⟨hc, htop'⟩ := List.forall_mem_cons.1 htop
        rw [spellsFrom_nil hes, List.nil_append, dropWhile_topText_cons hc]
        exact key c top hc.ne_nil hc.no_sep htop'
    · rw [dropWhile_sep hnil hr]
      exact key r top hnil hr htop

/-- The names of the top directory use up its text. -/
theorem matchTop_names (htop : ∀ c ∈ top, IsName c) (hes : ∀ e ∈ elements, IsName e) :
    matchTop (topText top) (top ++ elements) = ([], top.length) := by
  induction top with
  | nil =>
    rcases elements with _ | ⟨e, es⟩
    · rfl
    · have hno : ¬ e.isPrefixOf ([] : Text) = true := by
        rw [List.isPrefixOf_iff_prefix, List.prefix_nil]
        exact (hes e List.mem_cons_self).ne_nil
      exact if_neg hno
  | cons c top ih =>
    obtain ⟨hc, htop'⟩ := List.forall_mem_cons.1 htop
    have hpre : c.isPrefixOf (c ++ topText top) = true :=
      List.isPrefixOf_iff_prefix.2 (List.prefix_append _ _)
    rw [List.cons_append, matchTop_cons, dropWhile_topText_cons hc, if_pos hpre, List.drop_left,
      ih htop']
    rfl

/-- What has been compared with success is what is gone of the text, without its separators. -/
theorem matchTop_flatten (hes : ∀ e ∈ elements, IsName e) (text : Text) :
    text.filter (· ≠ '/') = (elements.take (matchTop text elements).2).flatten ++
      (matchTop text elements).1.filter (· ≠ '/') := by
  induction elements generalizing text with
  | nil => rfl
  | cons e es ih =>
    obtain ⟨he, hes'⟩ := List.forall_mem_cons.1 hes
    have hdrop : text.filter (· ≠ '/') = (text.dropWhile isPathSep).filter (· ≠ '/') := by
      have hsplit := List.takeWhile_append_dropWhile (p := isPathSep) (l := text)
      have hgone : (text.takeWhile isPathSep).filter (· ≠ '/') = [] := by
        rw [List.filter_eq_nil_iff]
        intro c hc
        have hsep : isPathSep c = true := List.mem_takeWhile_imp hc
        simpa [isPathSep] using hsep
      rw [← hsplit, List.filter_append, hgone, List.nil_append, hsplit]
    rw [matchTop_cons, hdrop]
    split
    · next hpre =>
      obtain ⟨rest, hrest⟩ := List.isPrefixOf_iff_prefix.1 hpre
      have hall : e.filter (· ≠ '/') = e := by
        rw [List.filter_eq_self]
        intro c hc
        simpa using fun heq : c = '/' => he.no_sep (heq ▸ hc)
      rw [← hrest, List.drop_left, List.filter_append, hall, List.take_succ_cons, List.flatten_cons,
        List.append_assoc, ← ih hes']
    · rfl

end

/-! ### When the result is right -/

section

variable {top : List Text} {path : Text}

theorem CanonicalTop.isName (h : CanonicalTop top) : ∀ c ∈ top, IsName c := fun c hc => (h.names c hc).1

theorem isName_dotdot : IsName dotdot := ⟨by decide, by decide⟩

/-- The elements of a path: so many `..` that would climb beyond the root, and the normal form. -/
theorem splitPathElements_eq_normalised (path : Text) : splitPathElements path = norm dotdot (components path) ∧
    ∃ k, splitPathElements path = List.replicate k dotdot ++ normalised path := by
  have hsplit : splitPathElements path = norm dotdot (components path) := splitPathElements_eq path
  refine ⟨hsplit, ?_⟩
  rw [hsplit]
  exact norm_eq_replicate dotdot (components path)

theorem resolve_subset (up : Text) (p : List Text) : resolve up p ⊆ p := by
  induction p using List.reverseRecOn with
  | nil => exact List.Subset.refl []
  | append_singleton p c ih =>
    rw [resolve_concat]
    split
    · intro a ha
      exact List.mem_append_left _ (ih ((List.dropLast_sublist _).subset ha))
    · intro a ha
      rcases List.mem_append.1 ha with ha | ha
      · exact List.mem_append_left _ (ih ha)
      · exact List.mem_append_right _ ha

theorem isName_of_mem_normalised {name : Text} (h : name ∈ normalised path) : IsName name := by
  apply isName_of_mem_namesOf
  exact (List.mem_filter.1 (resolve_subset _ _ h)).1

theorem isName_of_mem_split {name : Text} (h : name ∈ splitPathElements path) : IsName name := by
  obtain ⟨-, k, hk⟩ := splitPathElements_eq_normalised path
  rw [hk] at h
  rcases List.mem_append.1 h with h | h
  · rw [List.eq_of_mem_replicate h]
    exact isName_dotdot
  · exact isName_of_mem_normalised h

theorem spellsFrom_nil_iff {elements : List Text} (hes : ∀ e ∈ elements, IsName e) :
    SpellsFrom [] top elements ↔ Spells top elements := by
  constructor
  · rintro ⟨g, gs, hg, hgs, hpre⟩
    have hnil : g = [] := eq_nil_of_flatten
      (fun e he => hes e (hpre.subset (List.mem_append_left _ he))) hg
    rw [hnil] at hpre
    exact ⟨gs, hgs, hpre⟩
  · rintro ⟨gs, hgs, hpre⟩
    exact ⟨[], gs, rfl, hgs, hpre⟩

theorem outsideTup_eq_false_iff (htop : CanonicalTop top) (hpath : isFullPath path = true) :
    (getPathElements (topText top) path).outsideTup = false ↔ Spells top (splitPathElements path) := by
  have hes : ∀ e ∈ splitPathElements path, IsName e := fun _ => isName_of_mem_split
  rw [← spellsFrom_nil_iff hes, ← matchTop_eq_nil_iff hes List.not_mem_nil htop.isName]
  unfold getPathElements
  simp [hpath]

theorem pathList_of_inside (hpath : isFullPath path = true)
    (hin : (getPathElements (topText top) path).outsideTup = false) :
    (getPathElements (topText top) path).pathList =
      (splitPathElements path).drop (matchTop (topText top) (splitPathElements path)).2 := by
  have hleft : (matchTop (topText top) (splitPathElements path)).1 = [] := by
    unfold getPathElements at hin
    simpa [hpath] using hin
  unfold getPathElements
  simp [hpath, hleft]

theorem filter_topText (htop : ∀ c ∈ top, IsName c) : (topText top).filter (· ≠ '/') = top.flatten := by
  induction top with
  | nil => rfl
  | cons c top ih =>
    obtain ⟨hc, htop'⟩ := List.forall_mem_cons.1 htop
    have hall : c.filter (· ≠ '/') = c := by
      rw [List.filter_eq_self]
      intro a ha
      simpa using fun heq : a = '/' => hc.no_sep (heq ▸ ha)
    rw [topText_cons, List.filter_cons_of_neg (by decide), List.filter_append, hall, ih htop',
      List.flatten_cons]

/-- When the path is inside but its elements begin with `..`, the result is never that of the normal
form: all that is used up of the elements would be the top directory and more. -/
theorem dotdot_notMem_of_classified (htop : CanonicalTop top) (hpath : isFullPath path = true)
    (h : Classified top path) (hin : top <+: normalised path) : dotdot ∉ splitPathElements path := by
  obtain ⟨-, k, hk⟩ := splitPathElements_eq_normalised path
  obtain ⟨below, hbelow⟩ := hin
  have hout : (getPathElements (topText top) path).outsideTup = false := by
    rw [Bool.eq_false_iff, ne_eq, h.outside, not_not]
    exact ⟨below, hbelow⟩
  have hes : ∀ e ∈ splitPathElements path, IsName e := fun _ => isName_of_mem_split
  have hleft := (matchTop_eq_nil_iff hes List.not_mem_nil htop.isName).2
    ((spellsFrom_nil_iff hes).2 ((outsideTup_eq_false_iff htop hpath).1 hout))
  rw [List.nil_append] at hleft
  have hgone := matchTop_flatten hes (topText top)
  have hrest := h.inside hout
  rw [pathList_of_inside hpath hout] at hrest
  generalize (matchTop (topText top) (splitPathElements path)).2 = n at hgone hrest
  rw [hleft, filter_topText htop.isName, List.filter_nil, List.append_nil] at hgone
  rw [← hbelow, List.drop_left] at hrest
  have htake : (splitPathElements path).take n = List.replicate k dotdot ++ top := by
    have hall := List.take_append_drop n (splitPathElements path)
    have helements : splitPathElements path = List.replicate k dotdot ++ top ++ below := by
      rw [hk, ← hbelow, List.append_assoc]
    rw [hrest] at hall
    exact List.append_cancel_right (hall.trans helements)
  rw [htake, List.flatten_append, ← List.nil_append top.flatten] at hgone
  have hnone : (List.replicate k dotdot).flatten = [] := by
    have h := congrArg List.length hgone
    rw [List.length_append, List.length_append] at h
    exact List.length_eq_zero_iff.1 (by simpa using h)
  have hzero : List.replicate k dotdot = [] := eq_nil_of_flatten
    (fun e he => List.eq_of_mem_replicate he ▸ isName_dotdot) hnone
  rw [hk, hzero, List.nil_append]
  exact (norm_eq_resolve dotdot (components path)).1

/-- The result is right exactly when a path at or below the top directory does not try to climb beyond
the root, and the elements of another path do not spell the names of the top directory. -/
theorem classified_iff (htop : CanonicalTop top) (hpath : isFullPath path = true) :
    Classified top path ↔
      (top <+: normalised path → dotdot ∉ norm dotdot (components path)) ∧
        (¬ top <+: normalised path → ¬ Spells top (norm dotdot (components path))) := by
  obtain ⟨hsplit, k, hk⟩ := splitPathElements_eq_normalised path
  rw [← hsplit]
  constructor
  · intro h
    refine ⟨dotdot_notMem_of_classified htop hpath h, fun hout hspells => ?_⟩
    have hflag := h.outside.2 hout
    rw [(outsideTup_eq_false_iff htop hpath).2 hspells] at hflag
    cases hflag
  · rintro ⟨hclimb, hglue⟩
    by_cases hin : top <+: normalised path
    · -- nothing climbs, so that the elements are those of the normal form
      have hsame : splitPathElements path = normalised path := by
        rcases k with _ | k
        · exact hk
        · rw [hk] at hclimb
          exact absurd (List.mem_append_left _ (by simp)) (hclimb hin)
      obtain ⟨below, hbelow⟩ := hin
      have hes : ∀ e ∈ below, IsName e := fun e he =>
        isName_of_mem_normalised (hbelow ▸ List.mem_append_right _ he)
      have hmatch := matchTop_names htop.isName hes
      rw [hbelow, ← hsame] at hmatch
      have hflag : (getPathElements (topText top) path).outsideTup = false := by
        unfold getPathElements
        simp [hpath, hmatch]
      refine ⟨?_, fun _ => ?_⟩
      · rw [hflag]
        exact ⟨fun h => absurd h Bool.false_ne_true, fun h => absurd ⟨below, hbelow⟩ h⟩
      · rw [pathList_of_inside hpath hflag, hmatch, hsame]
    · have hflag : (getPathElements (topText top) path).outsideTup = true := by
        rw [← Bool.not_eq_false, outsideTup_eq_false_iff htop hpath]
        exact hglue hin
      refine ⟨⟨fun _ => hin, fun _ => hflag⟩, fun hfalse => ?_⟩
      rw [hflag] at hfalse
      cases hfalse

end

/-- `/w/src` is the top directory of `/w/./lib/../src/main.c`. -/
theorem classified_main : Classified ["w".toList, "src".toList] "/w/./lib/../src/main.c".toList := by
  have htop : CanonicalTop ["w".toList, "src".toList] := ⟨List.cons_ne_nil _ _, by decide⟩
  have hin : ["w".toList, "src".toList] <+: normalised "/w/./lib/../src/main.c".toList := by
    decide +kernel
  exact (classified_iff htop (by decide)).2 ⟨fun _ => by decide +kernel, fun hout => absurd hin hout⟩

/-- `/a/bc/d` is taken to be the directory `/abc/d`. -/
theorem glued_path_inside : CanonicalTop ["abc".toList, "d".toList] ∧
    isFullPath "/a/bc/d".toList = true ∧
    ¬ Classified ["abc".toList, "d".toList] "/a/bc/d".toList := by
  refine ⟨⟨List.cons_ne_nil _ _, by decide⟩, by decide, fun h => ?_⟩
  have hout := h.outside.2 (by decide +kernel)
  exact absurd hout (by decide +kernel)

end Metatup
