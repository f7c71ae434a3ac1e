import Metatup.Parser.Brdir
import Metatup.Parser.NameList

/-!
# Where the texts of a rule lead

The path of an input is made from the names of its node, seen from the directory of the Tupfile. The path
of an output is the text that was written, up to the end of its last element, and in a variant the path
from the source directory to the variant stands before it.

* `writtenPath`: what is left of a path that was written.
* `denotes_getRelativeDir`: the path to a node leads to the node.
* `denotes_writtenPath`: a path leads to the node it was resolved to.
-/

namespace Metatup

open Lib

/-! ### What is meant -/

/-- The names that lead to a directory of the project: nothing in them climbs. -/
structure ProperDir (d : List Text) : Prop where
  isName : ∀ name ∈ d, IsName name
  ne_dot : ['.'] ∉ d
  ne_dotdot : dotdot ∉ d

/-- Where the path of a node leads, from the root of the file system; `top` is the directory of the
project. -/
def nodeAt (top names : List Text) : Dir := denotes [] (topText (top ++ names))

theorem ProperDir.append {a b : List Text} (ha : ProperDir a) (hb : ProperDir b) : ProperDir (a ++ b) where
  isName name h := (List.mem_append.1 h).elim (ha.isName name) (hb.isName name)
  ne_dot h := (List.mem_append.1 h).elim ha.ne_dot hb.ne_dot
  ne_dotdot h := (List.mem_append.1 h).elim ha.ne_dotdot hb.ne_dotdot

theorem ProperDir.filter {a : List Text} (ha : ProperDir a) : a.filter (· ≠ ['.']) = a := by
  rw [List.filter_eq_self]
  exact fun name h => by simpa using fun heq : name = ['.'] => ha.ne_dot (heq ▸ h)

theorem CanonicalTop.properDir {top : List Text} (h : CanonicalTop top) : ProperDir top where
  isName name hn := (h.names name hn).1
  ne_dot hn := (h.names _ hn).2.1 rfl
  ne_dotdot hn := (h.names _ hn).2.2 rfl

section

variable {top names d p : List Text} {path : Text} {base : Dir}

theorem namesOf_topText (h : ∀ name ∈ names, IsName name) : namesOf (topText names) = names := by
  have key : ∀ l : List Text, (∀ name ∈ l, IsName name) → ∀ a : Text,
      namesOf (a ++ topText l) = namesOf a ++ l := by
    intro l
    induction l using List.reverseRecOn with
    | nil =>
      intro _ a
      simp [topText]
    | append_singleton l name ih =>
      intro hl a
      have hname := hl name (List.mem_append_right l (List.mem_singleton_self name))
      have htext : a ++ topText (l ++ [name]) = a ++ topText l ++ '/' :: name := by
        simp [topText]
      rw [htext, namesOf_append_name _ hname.ne_nil hname.no_sep,
        ih (fun n hn => hl n (List.mem_append_left _ hn)), List.append_assoc]
  exact key names h []

theorem nodeAt_eq (htop : ∀ name ∈ top, IsName name) (hnames : ∀ name ∈ names, IsName name) :
    nodeAt top names = climb dotdot [] ((top ++ names).filter (· ≠ ['.'])) := by
  have hall : ∀ name ∈ top ++ names, IsName name :=
    fun name h => (List.mem_append.1 h).elim (htop name) (hnames name)
  have hstart : startOf [] (topText (top ++ names)) = [] := by
    unfold startOf
    split <;> rfl
  rw [nodeAt, denotes, hstart, components, namesOf_topText hall]

/-- A node whose directory is proper. -/
theorem nodeAt_append (htop : ProperDir top) (hd : ProperDir d) (hp : ∀ name ∈ p, IsName name) :
    nodeAt top (d ++ p) = climb dotdot (top ++ d) (p.filter (· ≠ ['.'])) := by
  have hnames : ∀ name ∈ d ++ p, IsName name :=
    fun name h => (List.mem_append.1 h).elim (hd.isName name) (hp name)
  have htd := htop.append hd
  rw [nodeAt_eq htop.isName hnames, ← List.append_assoc, List.filter_append, htd.filter, climb_append,
    climb_names [] htd.ne_dotdot]
  rfl

/-- The place of a proper directory. -/
theorem nodeAt_properDir (htop : ProperDir top) (hd : ProperDir d) : nodeAt top d = top ++ d := by
  have h := nodeAt_append (p := []) htop hd (by simp)
  rw [List.append_nil] at h
  exact h

/-- A relative path behind another path starts where the other one leads. -/
theorem denotes_append (hne : path ≠ []) {rest : Text} (hrest : isFullPath rest = false) :
    denotes base (path ++ '/' :: rest) = denotes (denotes base path) rest := by
  obtain ⟨c, cs, rfl⟩ := List.exists_cons_of_ne_nil hne
  have hstart : startOf base (c :: cs ++ '/' :: rest) = startOf base (c :: cs) := rfl
  have hcomp : components (c :: cs ++ '/' :: rest) = components (c :: cs) ++ components rest := by
    rw [components, namesOf_append_sep, List.filter_append]
    rfl
  have hbase : startOf (denotes base (c :: cs)) rest = denotes base (c :: cs) := by
    rw [startOf, hrest, if_neg Bool.false_ne_true]
  rw [denotes, hstart, hcomp, climb_append, denotes, hbase]
  rfl

/-! ### The path to a node -/

/-- The path to a node climbs out of what the node does not share with the start. -/
theorem relativeNames_shared (start stop : List Text) : ∃ c s e, start = c ++ s ∧ stop = c ++ e ∧
    relativeNames start stop = List.replicate s.length dotdot ++ e := by
  induction start generalizing stop with
  | nil => exact ⟨[], [], stop, rfl, rfl, by simp [relativeNames]⟩
  | cons s start ih =>
    cases stop with
    | nil =>
      refine ⟨[], s :: start, [], rfl, rfl, ?_⟩
      simp [relativeNames, List.map_const', List.replicate_succ]
    | cons e stop =>
      rw [relativeNames]
      split
      · next heq =>
        obtain ⟨c, s', e', rfl, rfl, h⟩ := ih stop
        exact ⟨e :: c, s', e', by rw [heq]; rfl, rfl, h⟩
      · exact ⟨[], s :: start, e :: stop, rfl, rfl, by rw [List.map_const']⟩

/-- A relative path, from the names it is joined of. -/
theorem denotes_joinNames (hp : ∀ name ∈ p, IsName name) :
    denotes base (joinNames p) = climb dotdot base (p.filter (· ≠ ['.'])) := by
  rw [denotes, startOf, isFullPath_joinNames hp, components, namesOf_joinNames hp]
  rfl

/-- The path to a node leads to the node. -/
theorem denotes_getRelativeDir (htop : ProperDir top) (hd : ProperDir d)
    (hnames : ∀ name ∈ names, IsName name) :
    denotes (top ++ d) (getRelativeDir d names) = nodeAt top names := by
  obtain ⟨c, s, e, rfl, rfl, hrel⟩ := relativeNames_shared d names
  have hc : ProperDir c :=
    ⟨fun n h => hd.isName n (List.mem_append_left s h), fun h => hd.ne_dot (List.mem_append_left s h),
      fun h => hd.ne_dotdot (List.mem_append_left s h)⟩
  have he : ∀ name ∈ e, IsName name := fun n h => hnames n (List.mem_append_right c h)
  have hfilter : (List.replicate s.length dotdot).filter (· ≠ ['.']) =
      List.replicate s.length dotdot := by
    rw [List.filter_eq_self]
    intro name h
    rw [List.eq_of_mem_replicate h]
    decide
  have hup : climb dotdot (top ++ (c ++ s)) (List.replicate s.length dotdot) = top ++ c := by
    rw [climb_replicate, ← List.append_assoc, List.length_append, Nat.add_sub_cancel, List.take_left]
  have hpath : climb dotdot (top ++ (c ++ s))
      ((List.replicate s.length dotdot ++ e).filter (· ≠ ['.'])) = nodeAt top (c ++ e) := by
    rw [List.filter_append, hfilter, climb_append, hup, nodeAt_append htop hc he]
  unfold getRelativeDir
  dsimp only
  rw [hrel]
  split
  · next hnil =>
    rw [← hpath, hnil]
    rfl
  · rw [denotes_joinNames, hpath]
    intro name h
    rcases List.mem_append.1 h with h | h
    · rw [List.eq_of_mem_replicate h]
      exact isName_dotdot
    · exact he name h

/-- The path to a node is relative. -/
theorem isFullPath_getRelativeDir (hnames : ∀ name ∈ names, IsName name) :
    getRelativeDir d names ≠ [] ∧ isFullPath (getRelativeDir d names) = false := by
  obtain ⟨c, s, e, rfl, rfl, hrel⟩ := relativeNames_shared d names
  have hall : ∀ name ∈ List.replicate s.length dotdot ++ e, IsName name := by
    intro name h
    rcases List.mem_append.1 h with h | h
    · rw [List.eq_of_mem_replicate h]
      exact isName_dotdot
    · exact hnames name (List.mem_append_right c h)
  unfold getRelativeDir
  dsimp only
  rw [hrel]
  split
  · exact ⟨by simp, rfl⟩
  · next hne =>
    refine ⟨fun hnil => hne ?_, isFullPath_joinNames hall⟩
    have h := namesOf_joinNames hall
    rw [hnil] at h
    exact h.symm

end

/-! ### The path that was written -/

/-- The names of a path, each with the text up to its end; `read` is what has been read of the path and
`cur` the name being read. -/
def writtenLoop : Text → Text → Text → List (Text × Text)
  | read, cur, [] => if cur = [] then [] else [(read, cur)]
  | read, cur, c :: path =>
    if isPathSep c then
      if cur = [] then writtenLoop (read ++ [c]) [] path
      else (read, cur) :: writtenLoop (read ++ [c]) [] path
    else writtenLoop (read ++ [c]) (cur ++ [c]) path

/-- What `split_path_elements` does with one name, when the elements are positions in the path. -/
def writtenStep (s : List (Text × Text) × ℕ) (p : Text × Text) : List (Text × Text) × ℕ :=
  if p.2 = ['.'] then s
  else if p.2 = dotdot then
    if s.2 ≠ 0 then (s.1.dropLast, s.2 - 1) else (s.1 ++ [p], s.2)
  else (s.1 ++ [p], s.2 + 1)

/-- The text of a path up to the end of its last element, which is `dir` and `pel` of a `path_list`
together. Source: `parser.c` `path_list_fill_dt_pel` -/
def writtenPath (mem : Text) : Text :=
  ((((writtenLoop [] [] mem).foldl writtenStep ([], 0)).1.getLast?).map Prod.fst).getD []

section

variable {mem : Text} {l : List (Text × Text)}

theorem namesOf_concat_sep (path : Text) : namesOf (path ++ ['/']) = namesOf path := by
  rw [namesOf_append_sep]
  exact List.append_nil _

/-- A name that is read behind a separator, or at the front. -/
theorem namesOf_concat_name {before cur : Text} (hbefore : before = [] ∨ before.getLast? = some '/')
    (hne : cur ≠ []) (hsep : '/' ∉ cur) : namesOf (before ++ cur) = namesOf before ++ [cur] := by
  rcases hbefore with rfl | hlast
  · exact namesOf_single hne hsep
  · obtain ⟨b, rfl⟩ := List.getLast?_eq_some_iff.1 hlast
    rw [namesOf_concat_sep, List.append_assoc]
    exact namesOf_append_name b hne hsep

theorem writtenLoop_names (read cur path : Text) :
    (writtenLoop read cur path).map Prod.snd = namesLoop cur path := by
  induction path generalizing read cur with
  | nil =>
    unfold writtenLoop namesLoop
    split <;> rfl
  | cons c path ih =>
    unfold writtenLoop namesLoop
    split
    · split
      · exact ih _ _
      · rw [List.map_cons, ih]
    · exact ih _ _

theorem writtenLoop_prefix {read cur path : Text} {p : Text × Text} (h : p ∈ writtenLoop read cur path) :
    p.1 <+: read ++ path := by
  induction path generalizing read cur with
  | nil =>
    unfold writtenLoop at h
    split at h
    · cases h
    · obtain rfl := List.mem_singleton.1 h
      exact List.prefix_append read []
  | cons c path ih =>
    have hread : read ++ [c] ++ path = read ++ c :: path := by rw [List.append_assoc]; rfl
    unfold writtenLoop at h
    split at h
    · split at h
      · exact hread ▸ ih h
      · rcases List.mem_cons.1 h with rfl | h
        · exact List.prefix_append _ _
        · exact hread ▸ ih h
    · exact hread ▸ ih h

/-- The text up to the end of a name has the names up to there. -/
theorem writtenLoop_namesOf (before cur : Text) {path : Text} {pre post : List (Text × Text)}
    {p : Text × Text} (hbefore : before = [] ∨ before.getLast? = some '/') (hsep : '/' ∉ cur)
    (h : writtenLoop (before ++ cur) cur path = pre ++ p :: post) :
    namesOf p.1 = namesOf before ++ (pre ++ [p]).map Prod.snd := by
  induction path generalizing before cur pre with
  | nil =>
    unfold writtenLoop at h
    split at h
    · simp at h
    · next hne =>
      obtain ⟨rfl, hcons⟩ := List.singleton_eq_append_iff.1 h |>.resolve_right (by simp)
      cases hcons
      exact namesOf_concat_name hbefore hne hsep
  | cons c path ih =>
    unfold writtenLoop at h
    split at h
    · next hc =>
      obtain rfl : c = '/' := by simpa [isPathSep] using hc
      split at h
      · next hnil =>
        have hrest := ih (before ++ ['/']) [] (.inr (by simp)) (by simp)
          (by rw [← h, hnil]; simp)
        rw [hrest, namesOf_concat_sep]
      · next hne =>
        have hname := namesOf_concat_name hbefore hne hsep
        cases pre with
        | nil =>
          obtain ⟨rfl, -⟩ := List.cons_eq_cons.1 h
          exact hname
        | cons q pre =>
          obtain ⟨rfl, hrest⟩ := List.cons_eq_cons.1 h
          have hnames := ih (before ++ cur ++ ['/']) [] (.inr (by simp)) (by simp)
            ((congrArg (writtenLoop · [] path) (List.append_nil _)).trans hrest)
          rw [hnames, namesOf_concat_sep, hname]
          simp
    · next hc =>
      have hcur : '/' ∉ cur ++ [c] := by
        rw [List.mem_append, List.mem_singleton, not_or]
        exact ⟨hsep, fun heq => hc (heq ▸ rfl)⟩
      refine ih before (cur ++ [c]) hbefore hcur ?_
      rw [← h, List.append_assoc]

/-- The elements are those of the path, and the text up to the end of an element has the elements up to
there. -/
theorem writtenStep_spec
    (hl : ∀ pre p post, l = pre ++ p :: post → namesOf p.1 = (pre ++ [p]).map Prod.snd) :
    ((l.foldl writtenStep ([], 0)).1.map Prod.snd, (l.foldl writtenStep ([], 0)).2) =
      (l.map Prod.snd).foldl splitStep ([], 0) ∧
    ∀ t p u, (l.foldl writtenStep ([], 0)).1 = t ++ p :: u →
      splitPathElements p.1 = (t ++ [p]).map Prod.snd := by
  induction l using List.reverseRecOn with
  | nil => exact ⟨rfl, fun t p u h => by simp at h⟩
  | append_singleton l q ih =>
    obtain ⟨hnames, htexts⟩ := ih fun pre p post h => hl pre p (post ++ [q]) (by rw [h]; simp)
    have hq := hl l q [] rfl
    rw [List.map_append] at hq ⊢
    rw [List.foldl_append, List.foldl_append]
    set s := l.foldl writtenStep ([], 0) with hs
    have hstep : ((writtenStep s q).1.map Prod.snd, (writtenStep s q).2) =
        splitStep ((l.map Prod.snd).foldl splitStep ([], 0)) q.2 := by
      rw [← hnames]
      unfold writtenStep splitStep
      dsimp only
      split_ifs <;> simp [List.map_dropLast]
    have hsplit : splitPathElements q.1 = (writtenStep s q).1.map Prod.snd := by
      unfold splitPathElements
      rw [hq, List.foldl_append]
      exact (congrArg Prod.fst hstep).symm
    refine ⟨hstep, fun t p u h => ?_⟩
    have hpush : (writtenStep s q).1 = s.1 ++ [q] →
        splitPathElements p.1 = (t ++ [p]).map Prod.snd := by
      intro hpushed
      have heq : s.1 ++ [q] = t ++ p :: u := by rw [← hpushed]; exact h
      rcases List.eq_nil_or_concat' u with rfl | ⟨u, x, rfl⟩
      · obtain ⟨rfl, hqp⟩ := List.append_inj' heq rfl
        obtain rfl : q = p := by simpa using hqp
        rw [hsplit, hpushed]
      · rw [← List.cons_append, ← List.append_assoc] at heq
        exact htexts t p u (List.append_inj' heq rfl).1
    by_cases hdot : q.2 = ['.']
    · have hsame : writtenStep s q = s := by rw [writtenStep, if_pos hdot]
      exact htexts t p u (hsame ▸ h)
    · by_cases hdd : q.2 = dotdot
      · by_cases hzero : s.2 ≠ 0
        · -- the last element is taken off, and those before it stay
          have hdrop : (writtenStep s q).1 = s.1.dropLast := by
            rw [writtenStep, if_neg hdot, if_pos hdd, if_pos hzero]
          have heq : s.1.dropLast = t ++ p :: u := by rw [← hdrop]; exact h
          rcases List.eq_nil_or_concat' s.1 with hnil | ⟨r, x, hr⟩
          · rw [hnil] at heq
            simp at heq
          · rw [hr, List.dropLast_concat] at heq
            refine htexts t p (u ++ [x]) ?_
            rw [hr, heq]
            simp
        · exact hpush (by rw [writtenStep, if_neg hdot, if_pos hdd, if_neg hzero])
      · exact hpush (by rw [writtenStep, if_neg hdot, if_neg hdd])

/-- Every element was a name of the path. -/
theorem writtenStep_subset (l : List (Text × Text)) : (l.foldl writtenStep ([], 0)).1 ⊆ l := by
  induction l using List.reverseRecOn with
  | nil => exact List.Subset.refl _
  | append_singleton l q ih =>
    rw [List.foldl_append]
    show (writtenStep _ q).1 ⊆ _
    have hkeep : (l.foldl writtenStep ([], 0)).1 ⊆ l ++ [q] :=
      List.subset_append_of_subset_left _ ih
    have hpush : (l.foldl writtenStep ([], 0)).1 ++ [q] ⊆ l ++ [q] :=
      List.append_subset.2 ⟨hkeep, List.subset_append_right _ _⟩
    unfold writtenStep
    split_ifs
    · exact hkeep
    · exact fun p hp => hkeep (List.dropLast_subset _ hp)
    · exact hpush
    · exact hpush

/-- What was written is a path with the same elements. -/
theorem writtenPath_spec (hne : splitPathElements mem ≠ []) :
    splitPathElements (writtenPath mem) = splitPathElements mem ∧ writtenPath mem <+: mem ∧
      writtenPath mem ≠ [] := by
  have hl : ∀ pre p post, writtenLoop [] [] mem = pre ++ p :: post →
      namesOf p.1 = (pre ++ [p]).map Prod.snd := by
    intro pre p post h
    have hnames := writtenLoop_namesOf [] [] (.inl rfl) (by simp) h
    exact hnames
  obtain ⟨hnames, htexts⟩ := writtenStep_spec hl
  have helements : ((writtenLoop [] [] mem).foldl writtenStep ([], 0)).1.map Prod.snd =
      splitPathElements mem := by
    rw [writtenLoop_names] at hnames
    exact congrArg Prod.fst hnames
  set s := (writtenLoop [] [] mem).foldl writtenStep ([], 0) with hs
  rcases List.eq_nil_or_concat' s.1 with hnil | ⟨t, p, hp⟩
  · rw [hnil] at helements
    exact absurd helements.symm hne
  · have hwritten : writtenPath mem = p.1 := by
      unfold writtenPath
      rw [← hs, hp, List.getLast?_concat]
      rfl
    have hsplit := htexts t p [] hp
    rw [← hp, helements] at hsplit
    rw [hwritten]
    refine ⟨hsplit, ?_, ?_⟩
    · have hmem : p ∈ s.1 := by
        rw [hp]
        exact List.mem_append_right t (List.mem_singleton_self p)
      exact writtenLoop_prefix (writtenStep_subset _ hmem)
    · intro hnil
      rw [hnil] at hsplit
      exact hne hsplit.symm

/-- What is kept of a relative path is relative. -/
theorem isFullPath_writtenPath (hne : splitPathElements mem ≠ []) :
    isFullPath (writtenPath mem) = isFullPath mem := by
  obtain ⟨-, ⟨rest, hrest⟩, hnil⟩ := writtenPath_spec hne
  obtain ⟨c, cs, hcons⟩ := List.exists_cons_of_ne_nil hnil
  have hmem : mem = c :: (cs ++ rest) := by rw [← hrest, hcons, List.cons_append]
  rw [isFullPath, isFullPath, hcons, hmem]
  rfl

/-! ### Where it leads -/

/-- A walk that succeeds leads where the path leads. -/
theorem climb_of_walk {d p D : List Text} (top : List Text) (h : walk dotdot d p = some D) :
    climb dotdot (top ++ d) p = top ++ D := by
  induction p generalizing d with
  | nil =>
    cases h
    rfl
  | cons name p ih =>
    rw [walk] at h
    rw [← List.singleton_append, climb_append]
    split at h
    · next hup =>
      split at h
      · cases h
      · next hne =>
        have hstep : climb dotdot (top ++ d) [name] = top ++ d.dropLast := by
          rw [show climb dotdot (top ++ d) [name] = if name = dotdot then (top ++ d).dropLast
            else top ++ d ++ [name] from rfl, if_pos hup, List.dropLast_append_of_ne_nil hne]
        rw [hstep]
        exact ih h
    · next hup =>
      have hstep : climb dotdot (top ++ d) [name] = top ++ (d ++ [name]) := by
        rw [show climb dotdot (top ++ d) [name] = if name = dotdot then (top ++ d).dropLast
          else top ++ d ++ [name] from rfl, if_neg hup, List.append_assoc]
      rw [hstep]
      exact ih h

/-- A walk through proper names stays in proper directories. -/
theorem ProperDir.walk {d p D : List Text} (hd : ProperDir d)
    (hp : ∀ name ∈ p, IsName name ∧ name ≠ ['.']) (h : Lib.walk dotdot d p = some D) :
    ProperDir D := by
  induction p generalizing d with
  | nil =>
    cases h
    exact hd
  | cons name p ih =>
    obtain ⟨⟨hname, hdot⟩, hrest⟩ := List.forall_mem_cons.1 hp
    rw [Lib.walk] at h
    split at h
    · split at h
      · cases h
      · refine ih ⟨fun n hn => hd.isName n (List.dropLast_subset _ hn),
          fun hn => hd.ne_dot (List.dropLast_subset _ hn),
          fun hn => hd.ne_dotdot (List.dropLast_subset _ hn)⟩ hrest h
    · next hup =>
      have hone : ProperDir [name] :=
        ⟨fun n hn => List.mem_singleton.1 hn ▸ hname, fun hn => hdot (List.mem_singleton.1 hn).symm,
          fun hn => hup (List.mem_singleton.1 hn).symm⟩
      exact ih (hd.append hone) hrest h

/-- A path that was resolved has elements. -/
theorem split_ne_nil_of_fill {topPath : Text} {blocked : Dir → Bool} {dt : Dir} {r : Dir × Text}
    (h : pathListFillDtPel topPath blocked mem dt = some r) : splitPathElements mem ≠ [] := by
  intro hnil
  simp [pathListFillDtPel, getPathElements, hnil] at h

/-- From the directory it was resolved in, a relative path leads to its node. -/
theorem denotes_writtenPath {top : List Text} {topPath : Text} {blocked : Dir → Bool} {dt d : Dir}
    {pel : Text} (htop : ProperDir top) (hdt : ProperDir dt) (hrel : isFullPath mem = false)
    (h : pathListFillDtPel topPath blocked mem dt = some (d, pel)) :
    denotes (top ++ dt) (writtenPath mem) = nodeAt top (d ++ [pel]) := by
  have hfill := pathListFillDtPel_unblocked h
  have hne := split_ne_nil_of_fill h
  rcases List.eq_nil_or_concat' (splitPathElements mem) with hnil | ⟨p, last, hsplit⟩
  · exact absurd hnil hne
  · rw [pathListFillDtPel_relative topPath dt hrel hsplit] at hfill
    split at hfill
    · cases hfill
    · obtain ⟨D, hwalk, heq⟩ := Option.map_eq_some_iff.1 hfill
      cases heq
      have hnames : ∀ name ∈ p ++ [pel], IsName name ∧ name ≠ ['.'] := by
        intro name hn
        rw [← hsplit] at hn
        exact ⟨isName_of_mem_split hn, ne_dot_of_mem_split hn⟩
      have hD : ProperDir d := hdt.walk (fun n hn => hnames n (List.mem_append_left _ hn)) hwalk
      have hlast := hnames pel (List.mem_append_right p (List.mem_singleton_self pel))
      have hpath : denotes (top ++ dt) (writtenPath mem) = climb dotdot (top ++ dt) (p ++ [pel]) := by
        rw [denotes, startOf, isFullPath_writtenPath hne, hrel, if_neg Bool.false_ne_true, ← hsplit,
          ← (writtenPath_spec hne).1, splitPathElements_eq, climb_norm]
        rfl
      have hone : [pel].filter (· ≠ ['.']) = [pel] := by
        rw [List.filter_cons_of_pos (by simpa using hlast.2)]
        rfl
      rw [hpath, climb_append, climb_of_walk top hwalk,
        nodeAt_append htop hD (fun n hn => List.mem_singleton.1 hn ▸ hlast.1), hone]

end

end Metatup
