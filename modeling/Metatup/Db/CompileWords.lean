import Metatup.Db.CompileDb

/-!
# The words of the compile database

When the entry of a command says what the command says: its text is decoded to the rewritten command, whose
words are those of the command with the relative paths made absolute, and which is not rewritten again.

* `reads_absolutePath`: a path that is read name by name stands for the absolute path once it is
  rewritten.
* `tokenSays_of_pathReads`: what becomes of a token with such a path.
* `split_rewriteLoop`: the words of a rewritten command.
* `decodes_iff`: when the text of an entry is decoded to the rewritten command.
* `prints_faithfully_of_quotable`: what is enough for an entry to be faithful.
-/

namespace Metatup

open Lib Lib.ShellWords

/-! ### What an entry is to say -/

/-- The absolute path of a path from a directory. -/
def absolutePath (baseDir path : Text) : Text :=
  if path = [] ∨ isFullPath path = true then path
  else canonText (denotes (denotes [] baseDir) path)

/-- The word that is to stand for a word with its marks. -/
def absoluteWord (baseDir : Text) (nextIsPath : Bool) (word : Text) : Text :=
  match (classifyArg nextIsPath word).1 with
  | none => unquote word
  | some k => word.take k ++ absolutePath baseDir (unquote (word.drop k))

/-- The words that are to stand for those of a command. An operator is no argument of a flag. -/
def absoluteItems (baseDir : Text) : Bool → List Item → List Item
  | _, [] => []
  | nextIsPath, .word w :: l =>
    .word (absoluteWord baseDir nextIsPath w) :: absoluteItems baseDir (classifyArg nextIsPath w).2 l
  | _, .operator c :: l => .operator c :: absoluteItems baseDir false l

/-- What an entry is to say of its command. -/
structure PrintsFaithfully (tupTop : Text) (dir : Option Text) (cmd : Text) (file : Option Text) : Prop where
  /-- The command of the entry is decoded to the rewritten command. -/
  decodes : ∃ entry, printCompileDb tupTop dir cmd file = some entry ∧
    JsonString.decode entry.command = some (compiledbRewriteCommand cmd (entryDirectory tupTop dir))
  words : ∃ l, split cmd = some l ∧
    (split (compiledbRewriteCommand cmd (entryDirectory tupTop dir))).map (List.map Item.unquoted) =
      some (absoluteItems (entryDirectory tupTop dir) false l)
  again : compiledbRewriteCommand (compiledbRewriteCommand cmd (entryDirectory tupTop dir))
      (entryDirectory tupTop dir) = compiledbRewriteCommand cmd (entryDirectory tupTop dir)

/-! ### When it does -/

/-- Between the marks `m` the tokenizer and the shell read a text up to the marks `m'`, and it stands
for `v`. -/
structure Reads (m : Mode) (t : Text) (m' : Mode) (v : Text) : Prop where
  tokenizer : ShellWords.read tokenizer isSpace (inside m) t = some (inside m')
  shell : ShellWords.read posix isStop (inside m) t = some (inside m')
  value : ShellWords.value (inside m) t = v

/-- Read a name: the marks behind it, and what it stands for. -/
def readName (m : Mode) (name : Text) : Option (Mode × Text) :=
  match ShellWords.read tokenizer isSpace (inside m) name, ShellWords.read posix isStop (inside m) name with
  | some q, some q' =>
    if q = q' ∧ q.escaped = false then some (q.mode, ShellWords.value (inside m) name) else none
  | _, _ => none

/-- Read the names of a path: the marks behind them, how often the path climbs out of itself, and what the
names stand for. `before` has the marks in front of the names that no `..` has taken back. A `..` takes
back a name only where the marks are those in front of the name, and no quoting makes or hides a `.`, a
`..` or an empty name. -/
def readNames : Mode → List Mode → List Text → Option (Mode × ℕ × List Text)
  | m, _, [] => some (m, 0, [])
  | m, before, name :: names =>
    if name = dotdot then
      match before with
      | [] => (readNames m [] names).map fun r => (r.1, r.2.1 + 1, dotdot :: r.2.2)
      | b :: before =>
        if b = m then (readNames m before names).map fun r => (r.1, r.2.1, dotdot :: r.2.2) else none
    else
      (readName m name).bind fun (m', value) =>
        if value = [] ∨ value = ['.'] ∨ value = dotdot then none
        else (readNames m' (m :: before) names).map fun r => (r.1, r.2.1, value :: r.2.2)

/-- The names of a directory that are left by a path that climbs so often. -/
def keptNames (baseDir : Text) (ups : ℕ) : List Text :=
  (normalised baseDir).take ((normalised baseDir).length - ups)

/-- The marks behind a quotation mark. -/
def modeOf : Option Char → Mode
  | some '\'' => .single
  | some '"' => .double
  | _ => .bare

/-- Whether the next argument is a path, when no path is found in the words so far. -/
def keptNext : Bool → List Item → Option Bool
  | nextIsPath, [] => some nextIsPath
  | nextIsPath, .word w :: l =>
    if pathPart nextIsPath w = none then keptNext (classifyArg nextIsPath w).2 l else none
  | _, .operator _ :: l => keptNext false l

/-- A name that is not left out of a path. -/
def RealName (name : Text) : Prop := IsName name ∧ name ≠ ['.'] ∧ name ≠ dotdot

instance (name : Text) : Decidable (RealName name) := inferInstanceAs (Decidable (_ ∧ _ ∧ _))

/-- An operator stands right behind a path, with what follows it up to the next blank: the last name of the
path is one, nothing is left out of the names that follow, and no path is found in them. -/
structure GluedTo (nextIsPath : Bool) (p : PathPart) (body tail : Text) : Prop where
  mark : p.quote = none
  ends : ∃ front name, body = front ++ name ∧ (front = [] ∨ front.getLast? = some '/') ∧ RealName name
  follows : ∃ c first names, isOperator c = true ∧ '/' ∉ first ∧ (∀ name ∈ names, RealName name) ∧
    tail = c :: first ++ topText names
  found : pathPart nextIsPath (p.flag ++ body) = some { p with path := body }
  kept : ∃ l ∈ complete tail, keptNext false l = some false

/-- A path is read name by name up to the mark that is taken off it or an operator, and the names of the
directory in front of it stand for themselves between the marks and are printable. -/
def PathReads (baseDir : Text) (nextIsPath : Bool) (p : PathPart) : Prop :=
  ∃ body tail, p.path = body ++ tail ∧ (tail = [] ∨ GluedTo nextIsPath p body tail) ∧
    ∃ r ∈ readNames (modeOf p.quote) [] (components body), r.1 = modeOf p.quote ∧
      ∀ name ∈ keptNames baseDir r.2.1,
        readName (modeOf p.quote) name = some (modeOf p.quote, name) ∧ ∀ c ∈ name, ¬ c < ' '

/-- No comment starts in a token. -/
def noComment (token : Text) : Bool := (token.foldl Lexer.step (between [])).comment = false

/-- The quoting of a command and of the directory does not get in the way of the entry. -/
structure Quotable (baseDir cmd : Text) : Prop where
  printable : ∀ c ∈ cmd, ¬ c < ' '
  /-- Not all characters are escaped. -/
  plain : ∃ c ∈ cmd, c ≠ '\\' ∧ c ≠ '"'
  paths : ∀ e ∈ commandTokens cmd, ∀ p ∈ pathPart e.1 e.2, PathReads baseDir e.1 p
  /-- The shell ends its last word where a token ends that is kept, and it is classified as its words are. -/
  words : ∀ e ∈ (commandTokens cmd).takeWhile (noComment ·.2), pathPart e.1 e.2 = none →
    ∃ l ∈ complete e.2, keptNext e.1 l = some (classifyArg e.1 e.2).2
  /-- No path is found in the token that starts a comment, up to where it does. -/
  comment : ∀ e ∈ ((commandTokens cmd).dropWhile (noComment ·.2)).head?, pathPart e.1 e.2 = none ∧
    ∃ l ∈ split e.2, (keptNext e.1 l).isSome = true

/-! ### Reading -/

section

variable {m m' m₁ : Mode} {s t v w name : Text}

theorem readName_eq_some : readName m name = some (m', v) ↔ Reads m name m' v := by
  unfold readName
  constructor
  · intro h
    split at h
    · next q q' hq hq' =>
      split at h
      · next hcond =>
        obtain ⟨rfl, hesc⟩ := hcond
        obtain ⟨rfl, rfl⟩ := Prod.mk.inj (Option.some.inj h)
        have hinside : q = inside q.mode := by
          cases q
          exact congrArg (Quote.mk _) hesc
        exact ⟨hinside ▸ hq, hinside ▸ hq', rfl⟩
      · cases h
    · cases h
  · rintro ⟨ht, hs, rfl⟩
    rw [ht, hs]
    exact if_pos ⟨rfl, rfl⟩

theorem Reads.append (h : Reads m s m₁ v) (h' : Reads m₁ t m' w) : Reads m (s ++ t) m' (v ++ w) where
  tokenizer := by rw [read_append, h.tokenizer, Option.bind_some, h'.tokenizer]
  shell := by rw [read_append, h.shell, Option.bind_some, h'.shell]
  value := by rw [value_append, foldl_step_of_read h.shell, h.value, h'.value]

theorem reads_nil (m : Mode) : Reads m [] m [] := ⟨rfl, rfl, rfl⟩

theorem reads_sep (m : Mode) : Reads m ['/'] m ['/'] := by
  cases m <;> exact ⟨by decide, by decide, by decide⟩

theorem reads_dot (m : Mode) : Reads m ['.'] m ['.'] := by
  cases m <;> exact ⟨by decide, by decide, by decide⟩

theorem reads_dotdot (m : Mode) : Reads m dotdot m dotdot := by
  cases m <;> exact ⟨by decide, by decide, by decide⟩

theorem Reads.sep_not_mem (h : Reads m s m' v) (hs : '/' ∉ s) : '/' ∉ v := by
  intro hmem
  rw [← h.value] at hmem
  rcases mem_value hmem with hmem | hmem
  · exact hs hmem
  · exact absurd hmem (by decide)

/-! ### The names of a path -/

/-- The names that are left of a path, what they stand for, and the marks in front of them. -/
inductive Stacked (m : Mode) : List Mode → List Text → List Text → Mode → Prop
  | nil : Stacked m [] [] [] m
  | push {before names values m₁ name value m₂} (h : Stacked m before names values m₁)
      (hname : Reads m₁ name m₂ value) :
      Stacked m (m₁ :: before) (names ++ [name]) (values ++ [value]) m₂

namespace Stacked

variable {before : List Mode} {names values : List Text} {b : Mode}

theorem reads (h : Stacked m before names values m') : Reads m (topText names) m' (topText values) := by
  induction h with
  | nil => exact reads_nil m
  | push h hname ih =>
    rw [topText_append, topText_append]
    refine ih.append ?_
    simpa [topText] using (reads_sep _).append hname

theorem eq_nil (h : Stacked m [] names values m') : names = [] ∧ values = [] ∧ m' = m := by
  cases h
  exact ⟨rfl, rfl, rfl⟩

theorem pop (h : Stacked m (b :: before) names values m') :
    names ≠ [] ∧ values ≠ [] ∧ Stacked m before names.dropLast values.dropLast b := by
  cases h with
  | push h hname =>
    rw [List.dropLast_concat, List.dropLast_concat]
    exact ⟨by simp, by simp, h⟩

theorem nil_iff (h : Stacked m before names values m') : names = [] ↔ values = [] := by
  cases h <;> simp

theorem mode_of_nil (h : Stacked m before names values m') (hnil : names = []) : m' = m := by
  cases h with
  | nil => rfl
  | push => simp at hnil

end Stacked

/-- What is left of a path and what is left of what it stands for, both behind the names of the directory
that are left. -/
theorem stacked_readNames {before : List Mode} {names values l : List Text}
    {r : Mode × ℕ × List Text} (h : readNames m₁ before l = some r) (hs : Stacked m before names values m₁)
    (dir : List Text) : ∃ before' names' values', Stacked m before' names' values' r.1 ∧
      climb dotdot (dir ++ names) l = dir.take (dir.length - r.2.1) ++ names' ∧
      climb dotdot (dir ++ values) r.2.2 = dir.take (dir.length - r.2.1) ++ values' ∧
      names' ⊆ names ++ l := by
  have hcons : ∀ (d : List Text) (c : Text) (l : List Text), climb dotdot d (c :: l) =
      climb dotdot (if c = dotdot then d.dropLast else d ++ [c]) l := fun _ _ _ => rfl
  induction l generalizing m₁ before names values r dir with
  | nil =>
    cases Option.some.inj h
    exact ⟨before, names, values, hs, by simp [climb], by simp [climb], by simp⟩
  | cons name l ih =>
    rw [readNames.eq_def] at h
    dsimp only at h
    by_cases hup : name = dotdot
    · rw [if_pos hup] at h
      cases before with
      | nil =>
        -- The path climbs out of itself.
        obtain ⟨rfl, rfl, rfl⟩ := hs.eq_nil
        obtain ⟨r', hr', rfl⟩ := Option.map_eq_some_iff.1 h
        obtain ⟨before', names', values', hs', hnames, hvalues, hsub⟩ := ih hr' .nil dir.dropLast
        have htake : dir.dropLast.take (dir.dropLast.length - r'.2.1) =
            dir.take (dir.length - (r'.2.1 + 1)) := by
          rw [List.dropLast_eq_take, List.take_take, List.length_take]
          congr 1
          omega
        rw [List.append_nil, htake] at hnames hvalues
        refine ⟨before', names', values', hs', ?_, ?_, ?_⟩
        · rw [hcons, if_pos hup, List.append_nil, hnames]
        · rw [hcons, if_pos rfl, List.append_nil, hvalues]
        · exact fun n hn => List.mem_cons_of_mem name (hsub hn)
      | cons b before =>
        -- It takes back the last name.
        dsimp only at h
        split at h
        · next hb =>
          subst hb
          obtain ⟨r', hr', rfl⟩ := Option.map_eq_some_iff.1 h
          obtain ⟨hne, hne', hpop⟩ := hs.pop
          obtain ⟨before', names', values', hs', hnames, hvalues, hsub⟩ := ih hr' hpop dir
          refine ⟨before', names', values', hs', ?_, ?_, ?_⟩
          · rw [hcons, if_pos hup, List.dropLast_append_of_ne_nil hne, hnames]
          · rw [hcons, if_pos rfl, List.dropLast_append_of_ne_nil hne', hvalues]
          · intro n hn
            rcases List.mem_append.1 (hsub hn) with hn | hn
            · exact List.mem_append_left _ ((List.dropLast_sublist _).subset hn)
            · exact List.mem_append_right _ (List.mem_cons_of_mem name hn)
        · cases h
    · rw [if_neg hup] at h
      obtain ⟨⟨m₂, value⟩, hread, h⟩ := Option.bind_eq_some_iff.1 h
      dsimp only at h
      split at h
      · cases h
      · next hreal =>
        obtain ⟨r', hr', rfl⟩ := Option.map_eq_some_iff.1 h
        rw [not_or, not_or] at hreal
        obtain ⟨before', names', values', hs', hnames, hvalues, hsub⟩ :=
          ih hr' (hs.push (readName_eq_some.1 hread)) dir
        refine ⟨before', names', values', hs', ?_, ?_, ?_⟩
        · rw [hcons, if_neg hup, List.append_assoc, hnames]
        · rw [hcons, if_neg hreal.2.2, List.append_assoc, hvalues]
        · intro n hn
          simpa using hsub hn

theorem components_append_sep (a b : Text) : components (a ++ '/' :: b) = components a ++ components b := by
  unfold components
  rw [namesOf_append_sep, List.filter_append]

theorem components_single (hsep : '/' ∉ s) : components s = if s = [] ∨ s = ['.'] then [] else [s] := by
  by_cases hnil : s = []
  · rw [hnil]
    rfl
  · unfold components
    rw [namesOf_single hnil hsep]
    by_cases hdot : s = ['.'] <;> simp [hnil, hdot]

/-- One piece of a path between its separators. -/
theorem reads_piece {before : List Mode} {l : List Text} {r : Mode × ℕ × List Text} (hsep : '/' ∉ s)
    (h : readNames m before (components s ++ l) = some r) :
    ∃ m₁ v before₁ r₁, Reads m s m₁ v ∧ '/' ∉ v ∧ (s ≠ [] → v ≠ []) ∧
      readNames m₁ before₁ l = some r₁ ∧ r.1 = r₁.1 ∧ r.2.2 = components v ++ r₁.2.2 := by
  rw [components_single hsep] at h
  by_cases hnil : s = []
  · rw [if_pos (Or.inl hnil), List.nil_append] at h
    exact ⟨m, [], before, r, hnil ▸ reads_nil m, by simp, fun hne => absurd hnil hne, h, rfl, rfl⟩
  by_cases hdot : s = ['.']
  · rw [if_pos (Or.inr hdot), List.nil_append] at h
    exact ⟨m, ['.'], before, r, hdot ▸ reads_dot m, by simp, fun _ => by simp, h, rfl, rfl⟩
  rw [if_neg (not_or.2 ⟨hnil, hdot⟩), List.singleton_append, readNames.eq_def] at h
  dsimp only at h
  by_cases hup : s = dotdot
  · rw [if_pos hup] at h
    have hfound : ∃ before₁ r₁, readNames m before₁ l = some r₁ ∧ r.1 = r₁.1 ∧ r.2.2 = dotdot :: r₁.2.2 := by
      cases before with
      | nil =>
        obtain ⟨r', hr', rfl⟩ := Option.map_eq_some_iff.1 h
        exact ⟨[], r', hr', rfl, rfl⟩
      | cons b before =>
        dsimp only at h
        split at h
        · obtain ⟨r', hr', rfl⟩ := Option.map_eq_some_iff.1 h
          exact ⟨before, r', hr', rfl, rfl⟩
        · cases h
    obtain ⟨before₁, r₁, hr₁, hmode, hvalues⟩ := hfound
    exact ⟨m, dotdot, before₁, r₁, hup ▸ reads_dotdot m, by decide, fun _ => by decide, hr₁, hmode, hvalues⟩
  · rw [if_neg hup] at h
    obtain ⟨⟨m₁, v⟩, hread, h⟩ := Option.bind_eq_some_iff.1 h
    dsimp only at h
    split at h
    · cases h
    · next hreal =>
      rw [not_or, not_or] at hreal
      obtain ⟨r', hr', rfl⟩ := Option.map_eq_some_iff.1 h
      have hreads := readName_eq_some.1 hread
      have hvsep := hreads.sep_not_mem hsep
      refine ⟨m₁, v, m :: before, r', hreads, hvsep, fun _ => hreal.1, hr', rfl, ?_⟩
      rw [components_single hvsep, if_neg (not_or.2 ⟨hreal.1, hreal.2.1⟩)]
      rfl

/-- The shell and the tokenizer read the path, and it stands for a path of the names read. -/
theorem reads_path {before : List Mode} {path : Text} {r : Mode × ℕ × List Text}
    (h : readNames m before (components path) = some r) :
    ∃ v, Reads m path r.1 v ∧ components v = r.2.2 ∧
      (path ≠ [] → isFullPath path = false → v ≠ [] ∧ isFullPath v = false) := by
  induction hn : path.length using Nat.strong_induction_on generalizing path m before r with
  | _ n ih =>
    have hhead : ∀ v : Text, v ≠ [] → '/' ∉ v → ∀ t, isFullPath (v ++ t) = false := by
      intro v hne hsep t
      obtain ⟨c, v, rfl⟩ := List.exists_cons_of_ne_nil hne
      have hc : c ≠ '/' := fun hc => hsep (hc ▸ List.mem_cons_self)
      simp [isFullPath, hc]
    by_cases hsep : '/' ∈ path
    · obtain ⟨s, rest, rfl, hs⟩ := List.eq_append_cons_of_mem hsep
      rw [components_append_sep] at h
      obtain ⟨m₁, v, before₁, r₁, hreads, hv, hne, hr₁, hmode, hvalues⟩ := reads_piece hs h
      have hlt : rest.length < n := by
        rw [← hn, List.length_append, List.length_cons]
        omega
      obtain ⟨w, hw, hcomp, -⟩ := ih rest.length hlt hr₁ rfl
      refine ⟨v ++ '/' :: w, ?_, ?_, fun _ hrel => ?_⟩
      · rw [hmode]
        exact hreads.append ((reads_sep m₁).append hw)
      · rw [components_append_sep, hcomp, hvalues]
      · have hsne : s ≠ [] := by
          rintro rfl
          simp [isFullPath] at hrel
        exact ⟨by simp, hhead v (hne hsne) hv _⟩
    · rw [← List.append_nil (components path)] at h
      obtain ⟨m₁, v, before₁, r₁, hreads, hv, hne, hr₁, hmode, hvalues⟩ := reads_piece hsep h
      rw [readNames] at hr₁
      cases Option.some.inj hr₁
      rw [List.append_nil] at hvalues
      refine ⟨v, hmode ▸ hreads, hvalues.symm, fun hpne _ => ⟨hne hpne, ?_⟩⟩
      simpa using hhead v (hne hpne) hv []

/-! ### The absolute path -/

theorem appendAbsolutePath_eq {baseDir path : Text} (habs : isFullPath baseDir = true) :
    compiledbAppendAbsolutePath baseDir path =
      canonText (climb dotdot (normalised baseDir) (components path)) := by
  have hfull : isFullPath (baseDir ++ '/' :: path) = true := by
    obtain ⟨s, rfl⟩ := exists_of_isFullPath habs
    rfl
  have hrem : remaining (baseDir ++ '/' :: path) =
      climb dotdot (normalised baseDir) (components path) := by
    unfold remaining normalised
    rw [if_pos hfull, components_append_sep]
    exact climb_append [] _ _
  unfold compiledbAppendAbsolutePath
  rw [compiledbCanonicalizePathSimple_eq, canonicalizePathSimple_eq, hfull, hrem, if_neg (by simp)]
  rfl

theorem absolutePath_eq {baseDir path : Text} (habs : isFullPath baseDir = true) (hne : path ≠ [])
    (hrel : isFullPath path = false) :
    absolutePath baseDir path = canonText (climb dotdot (normalised baseDir) (components path)) := by
  unfold absolutePath denotes startOf
  rw [if_neg (not_or.2 ⟨hne, by simp [hrel]⟩), if_pos habs, hrel, if_neg Bool.false_ne_true]
  rfl

/-- Names that stand for themselves. -/
theorem reads_topText {names : List Text} (h : ∀ name ∈ names, Reads m name m name) :
    Reads m (topText names) m (topText names) := by
  induction names with
  | nil => exact reads_nil m
  | cons name names ih =>
    rw [List.forall_mem_cons] at h
    rw [topText_cons]
    exact (reads_sep m).append (h.1.append (ih h.2))

/-- Where a path is read name by name, it stands for the absolute path once it is rewritten. -/
theorem reads_absolutePath {baseDir path : Text} {r : Mode × ℕ × List Text}
    (habs : isFullPath baseDir = true) (hne : path ≠ []) (hrel : isFullPath path = false)
    (h : readNames m [] (components path) = some r)
    (hkept : ∀ name ∈ keptNames baseDir r.2.1, Reads m name m name) :
    ∃ v, Reads m path r.1 v ∧
      Reads m (compiledbAppendAbsolutePath baseDir path) r.1 (absolutePath baseDir v) := by
  obtain ⟨v, hv, hcomp, hvrel⟩ := reads_path h
  obtain ⟨hvne, hvrel⟩ := hvrel hne hrel
  obtain ⟨before', names', values', hs, hnames, hvalues, -⟩ := stacked_readNames h .nil (normalised baseDir)
  rw [List.append_nil] at hnames hvalues
  refine ⟨v, hv, ?_⟩
  rw [appendAbsolutePath_eq habs, absolutePath_eq habs hvne hvrel, hcomp, hnames, hvalues]
  have hall := (reads_topText hkept).append hs.reads
  rw [← topText_append, ← topText_append] at hall
  unfold keptNames at hall
  by_cases hnil : (normalised baseDir).take ((normalised baseDir).length - r.2.1) ++ names' = []
  · -- The root is left.
    obtain ⟨hdir, hnil⟩ := List.append_eq_nil_iff.1 hnil
    rw [hdir, hnil, hs.nil_iff.1 hnil, hs.mode_of_nil hnil]
    exact reads_sep m
  · have hnil' : (normalised baseDir).take ((normalised baseDir).length - r.2.1) ++ values' ≠ [] := by
      rw [Ne, List.append_eq_nil_iff, ← hs.nil_iff, ← List.append_eq_nil_iff]
      exact hnil
    rw [canonText_of_ne_nil hnil, canonText_of_ne_nil hnil']
    exact hall

theorem mem_canonText {l : List Text} {c : Char} (h : c ∈ canonText l) : c = '/' ∨ ∃ name ∈ l, c ∈ name := by
  by_cases hnil : l = []
  · rw [hnil, canonText_nil, List.mem_singleton] at h
    exact Or.inl h
  · rw [canonText_of_ne_nil hnil, topText, List.mem_flatMap] at h
    obtain ⟨name, hname, hc⟩ := h
    rcases List.mem_cons.1 hc with hc | hc
    · exact Or.inl hc
    · exact Or.inr ⟨name, hname, hc⟩

/-- The characters of the absolute path are those of the names that are left. -/
theorem mem_appendAbsolutePath {baseDir path : Text} {r : Mode × ℕ × List Text} {c : Char}
    (habs : isFullPath baseDir = true) (h : readNames m [] (components path) = some r)
    (hc : c ∈ compiledbAppendAbsolutePath baseDir path) :
    c = '/' ∨ (∃ name ∈ keptNames baseDir r.2.1, c ∈ name) ∨ c ∈ path := by
  obtain ⟨before', names', values', -, hnames, -, hsub⟩ := stacked_readNames h .nil (normalised baseDir)
  rw [List.append_nil] at hnames
  rw [appendAbsolutePath_eq habs, hnames] at hc
  rcases mem_canonText hc with hc | ⟨name, hname, hc⟩
  · exact Or.inl hc
  · rcases List.mem_append.1 hname with hname | hname
    · exact Or.inr (Or.inl ⟨name, hname, hc⟩)
    · have hmem : name ∈ components path := by simpa using hsub hname
      exact Or.inr (Or.inr (mem_of_mem_namesOf (List.mem_of_mem_filter hmem) hc))

/-- What is glued to a path stays glued to it. -/
theorem appendAbsolutePath_glued {baseDir front name first : Text} {names : List Text} {c : Char}
    (habs : isFullPath baseDir = true) (hfront : front = [] ∨ front.getLast? = some '/')
    (hname : RealName name) (hc : isOperator c = true) (hfirst : '/' ∉ first)
    (hnames : ∀ name ∈ names, RealName name) :
    compiledbAppendAbsolutePath baseDir (front ++ name ++ (c :: first ++ topText names)) =
      compiledbAppendAbsolutePath baseDir (front ++ name) ++ (c :: first ++ topText names) := by
  obtain ⟨l, hl⟩ : ∃ l, ∀ t, components (front ++ t) = l ++ components t := by
    rcases hfront with rfl | hfront
    · exact ⟨[], fun t => rfl⟩
    · obtain ⟨d, rfl⟩ := List.getLast?_eq_some_iff.1 hfront
      refine ⟨components d, fun t => ?_⟩
      rw [List.append_assoc]
      exact components_append_sep d t
  have hops : [';', '&', '|', '<', '>', '(', ')', '\n'].all (fun c => c ≠ '/' ∧ c ≠ '.') = true := by
    decide
  obtain ⟨hsep, hdot⟩ := of_decide_eq_true (List.all_eq_true.1 hops c (by simpa [isOperator] using hc))
  have hlast : RealName (name ++ c :: first) := by
    refine ⟨⟨by simp, ?_⟩, ?_, ?_⟩
    · simp [hname.1.no_sep, Ne.symm hsep, hfirst]
    · intro heq
      have hmem : c ∈ ['.'] := heq ▸ List.mem_append_right _ List.mem_cons_self
      exact hdot (List.mem_singleton.1 hmem)
    · intro heq
      have hmem : c ∈ dotdot := heq ▸ List.mem_append_right _ List.mem_cons_self
      exact hdot (by simpa [dotdot] using hmem)
  have hone : ∀ name : Text, RealName name → components name = [name] := by
    intro name hname
    rw [components_single hname.1.no_sep, if_neg (not_or.2 ⟨hname.1.ne_nil, hname.2.1⟩)]
  have hall : components (name ++ (c :: first ++ topText names)) = (name ++ c :: first) :: names := by
    have hself : names.filter (· ≠ ['.']) = names := by
      rw [List.filter_eq_self]
      exact fun name hname => by simpa using (hnames name hname).2.1
    have hcomp := hone _ hlast
    unfold components at hcomp ⊢
    rw [← List.append_assoc, namesOf_append_topText _ fun name hname => (hnames name hname).1,
      List.filter_append, hcomp, hself]
    rfl
  have hup : dotdot ∉ (name ++ c :: first) :: names := by
    rw [List.mem_cons, not_or]
    exact ⟨Ne.symm hlast.2.2, fun hmem => (hnames _ hmem).2.2 rfl⟩
  have hup' : dotdot ∉ [name] := by simpa using Ne.symm hname.2.2
  rw [List.append_assoc, appendAbsolutePath_eq habs, appendAbsolutePath_eq habs, hl, hl, hall,
    hone _ hname, climb_append, climb_append, climb_names _ hup, climb_names _ hup',
    canonText_of_ne_nil (by simp), canonText_of_ne_nil (by simp), topText_append, topText_append,
    topText_cons, topText_cons]
  simp [topText]

/-! ### A token -/

theorem classifyArg_snd {next : Bool} {arg : Text} {k : ℕ} (h : (classifyArg next arg).1 = some k) :
    (classifyArg next arg).2 = false := by
  unfold classifyArg at h ⊢
  by_cases hnext : next = true
  · rw [if_pos hnext]
  rw [if_neg hnext] at h ⊢
  by_cases hflag : compiledbPathFlagNeedsSeparateArg arg = true
  · rw [if_pos hflag] at h
    cases h
  rw [if_neg hflag]
  cases compiledbPathFlagPrefix arg <;> rfl

/-- What is in front of a path is nothing or a flag. -/
theorem reads_flag {next : Bool} {arg : Text} {k : ℕ} (h : (classifyArg next arg).1 = some k) :
    Reads .bare (arg.take k) .bare (arg.take k) := by
  have hflags : ∀ f ∈ pathFlagPrefixes, Reads .bare f .bare f := by
    have hread : ∀ f ∈ pathFlagPrefixes, readName .bare f = some (.bare, f) := by decide
    exact fun f hf => readName_eq_some.1 (hread f hf)
  unfold classifyArg at h
  by_cases hnext : next = true
  · rw [if_pos hnext] at h
    cases Option.some.inj h
    exact reads_nil .bare
  rw [if_neg hnext] at h
  by_cases hflag : compiledbPathFlagNeedsSeparateArg arg = true
  · rw [if_pos hflag] at h
    cases h
  rw [if_neg hflag] at h
  cases hk : compiledbPathFlagPrefix arg with
  | some k' =>
    rw [hk] at h
    cases Option.some.inj h
    obtain ⟨f, hf, rfl, s, rfl⟩ := pathFlagPrefix_spec hk
    rw [List.take_left]
    exact hflags f hf
  | none =>
    rw [hk] at h
    dsimp only at h
    split at h
    · cases Option.some.inj h
      exact reads_nil .bare
    · cases h

/-- A path that is kept stands for a text that is kept. -/
theorem unquote_kept {arg : Text} (h : betweenQuotes arg = [] ∨ isFullPath (betweenQuotes arg) = true) :
    unquote arg = [] ∨ isFullPath (unquote arg) = true := by
  cases hq : quoteAround arg with
  | none =>
    rw [betweenQuotes_of_none hq] at h
    rcases h with rfl | h
    · exact Or.inl rfl
    · obtain ⟨s, rfl⟩ := exists_of_isFullPath h
      exact Or.inr rfl
  | some c =>
    obtain ⟨hc, harg⟩ := quoteAround_eq_some hq
    rw [harg]
    rcases h with h | h
    · rw [h]
      rcases hc with rfl | rfl <;> exact Or.inl rfl
    · obtain ⟨s, hs⟩ := exists_of_isFullPath h
      rw [hs]
      rcases hc with rfl | rfl <;> exact Or.inr rfl

theorem absoluteWord_kept {baseDir word : Text} {next : Bool} (h : pathPart next word = none) :
    absoluteWord baseDir next word = unquote word := by
  unfold absoluteWord
  cases hk : (classifyArg next word).1 with
  | none => rfl
  | some k =>
    unfold pathPart at h
    rw [hk, Option.bind_some] at h
    split at h
    · next hkept =>
      have hflag := reads_flag hk
      have hsplit : unquote word = word.take k ++ unquote (word.drop k) := by
        conv_lhs => rw [← List.take_append_drop k word]
        unfold unquote
        rw [value_append, foldl_step_of_read hflag.shell, hflag.value]
      dsimp only
      rw [hsplit, absolutePath, if_pos (unquote_kept hkept)]
    · cases h

theorem absoluteItems_kept {baseDir : Text} {next next' : Bool} {l : List Item}
    (h : keptNext next l = some next') (l' : List Item) :
    absoluteItems baseDir next (l ++ l') = l.map Item.unquoted ++ absoluteItems baseDir next' l' := by
  induction l generalizing next with
  | nil =>
    cases Option.some.inj h
    rfl
  | cons i l ih =>
    cases i with
    | word w =>
      rw [keptNext] at h
      split at h
      · next hkept =>
        rw [List.cons_append, absoluteItems, ih h, absoluteWord_kept hkept]
        rfl
      · cases h
    | operator c =>
      rw [List.cons_append, absoluteItems, ih h]
      rfl

/-- What is to be said of a token once it is rewritten. -/
structure TokenSays (baseDir : Text) (nextIsPath : Bool) (token : Text) : Prop where
  tokenizer : ShellWords.read tokenizer isSpace (inside .bare) (rewritten baseDir nextIsPath token) =
    ShellWords.read tokenizer isSpace (inside .bare) token
  words : noComment token = true → ∃ l l', complete token = some l ∧
    complete (rewritten baseDir nextIsPath token) = some l' ∧
    ∀ l₂, absoluteItems baseDir nextIsPath (l ++ l₂) =
      l'.map Item.unquoted ++ absoluteItems baseDir (classifyArg nextIsPath token).2 l₂

theorem reads_marks {quote : Option Char} (hmark : quote = none ∨ quote = some '\'' ∨ quote = some '"')
    (h : Reads (modeOf quote) s (modeOf quote) v) :
    Reads .bare (quote.toList ++ s ++ quote.toList) .bare v := by
  have hopen : ∀ m c, (m, c) ∈ [(Mode.single, '\''), (Mode.double, '"')] →
      Reads .bare [c] m [] ∧ Reads m [c] .bare [] := by
    intro m c hmem
    have hread : ∀ e ∈ [(Mode.single, '\''), (Mode.double, '"')],
        readName .bare [e.2] = some (e.1, []) ∧ readName e.1 [e.2] = some (.bare, []) := by decide
    exact ⟨readName_eq_some.1 (hread _ hmem).1, readName_eq_some.1 (hread _ hmem).2⟩
  rcases hmark with rfl | rfl | rfl
  · have hbare : Reads .bare s .bare v := h
    simpa using hbare
  · obtain ⟨hfront, hback⟩ := hopen .single '\'' (by simp)
    simpa using (hfront.append h).append hback
  · obtain ⟨hfront, hback⟩ := hopen .double '"' (by simp)
    simpa using (hfront.append h).append hback

section

variable {baseDir token body tail : Text} {next : Bool} {p : PathPart}

theorem withPath_append (h : tail = [] ∨ GluedTo next p body tail) (path : Text) :
    p.withPath (path ++ tail) = p.withPath path ++ tail := by
  rcases h with rfl | hglued
  · rw [List.append_nil, List.append_nil]
  · unfold PathPart.withPath
    simp [hglued.mark]

theorem appendAbsolutePath_append (habs : isFullPath baseDir = true)
    (h : tail = [] ∨ GluedTo next p body tail) :
    compiledbAppendAbsolutePath baseDir (body ++ tail) =
      compiledbAppendAbsolutePath baseDir body ++ tail := by
  rcases h with rfl | hglued
  · rw [List.append_nil, List.append_nil]
  · obtain ⟨front, name, rfl, hfront, hname⟩ := hglued.ends
    obtain ⟨c, first, names, hc, hfirst, hnames, rfl⟩ := hglued.follows
    exact appendAbsolutePath_glued habs hfront hname hc hfirst hnames

/-- A token with what is glued to its path, before and after. -/
theorem rewritten_of_glued (habs : isFullPath baseDir = true) (hp : pathPart next token = some p)
    (hpath : p.path = body ++ tail) (h : tail = [] ∨ GluedTo next p body tail) :
    token = p.withPath body ++ tail ∧
      rewritten baseDir next token =
        p.withPath (compiledbAppendAbsolutePath baseDir body) ++ tail := by
  obtain ⟨-, htoken, -⟩ := pathPart_eq_some hp
  have hrewritten : rewritten baseDir next token =
      p.withPath (compiledbAppendAbsolutePath baseDir p.path) := by
    unfold rewritten
    rw [hp]
  rw [hrewritten, ← withPath_append h, ← withPath_append h, ← appendAbsolutePath_append habs h, ← hpath]
  exact ⟨htoken, rfl⟩

/-- The path without what is glued to it is found as before. -/
theorem pathPart_of_glued (hp : pathPart next token = some p) (hpath : p.path = body ++ tail)
    (h : tail = [] ∨ GluedTo next p body tail) :
    pathPart next (p.withPath body) = some { p with path := body } := by
  rcases h with rfl | hglued
  · rw [List.append_nil] at hpath
    obtain ⟨-, htoken, -⟩ := pathPart_eq_some hp
    rw [← hpath, ← htoken]
    exact hp
  · have hword : p.withPath body = p.flag ++ body := by
      unfold PathPart.withPath
      simp [hglued.mark]
    rw [hword]
    exact hglued.found

/-- A word that ends where the glued text begins, and the items of the text. -/
theorem complete_append_glued (h : tail = [] ∨ GluedTo next p body tail) :
    ∃ l, keptNext false l = some false ∧ ∀ w v, Reads .bare w .bare v → w ≠ [] → w.head? ≠ some '#' →
      '\n' ∉ w → complete (w ++ tail) = some (.word w :: l) := by
  rcases h with rfl | hglued
  · refine ⟨[], rfl, fun w v hw hne hhead hline => ?_⟩
    rw [List.append_nil]
    exact complete_word hw.shell hne hhead hline
  · obtain ⟨l, hl, hnext⟩ := hglued.kept
    obtain ⟨c, first, names, hc, -, -, rfl⟩ := hglued.follows
    refine ⟨l, hnext, fun w v hw hne hhead hline => ?_⟩
    rw [List.cons_append, complete_append_operator hw.shell hne hhead hline hc]
    exact Option.map_eq_some_iff.2 ⟨l, hl, rfl⟩

/-- The word that a path is in is read, before and after. -/
theorem reads_withPath {r : Mode × ℕ × List Text} (habs : isFullPath baseDir = true)
    (h : pathPart next (p.withPath body) = some { p with path := body })
    (hr : readNames (modeOf p.quote) [] (components body) = some r) (hmode : r.1 = modeOf p.quote)
    (hkept : ∀ name ∈ keptNames baseDir r.2.1, Reads (modeOf p.quote) name (modeOf p.quote) name) :
    ∃ v, Reads .bare (p.withPath body) .bare v ∧
      Reads .bare (p.withPath (compiledbAppendAbsolutePath baseDir body)) .bare
        (absoluteWord baseDir next (p.withPath body)) := by
  obtain ⟨hlen, -, hne, hrel, hmark⟩ := pathPart_eq_some h
  dsimp only at hlen hne hrel hmark
  obtain ⟨v, hv, hvabs⟩ := reads_absolutePath habs hne hrel hr hkept
  rw [hmode] at hv hvabs
  have hflag : Reads .bare p.flag .bare p.flag := by
    have hreads := reads_flag hlen
    unfold PathPart.withPath at hreads
    rwa [List.take_left] at hreads
  have hword : absoluteWord baseDir next (p.withPath body) = p.flag ++ absolutePath baseDir v := by
    unfold absoluteWord
    rw [hlen]
    unfold PathPart.withPath unquote
    dsimp only
    rw [List.take_left, List.drop_left, (reads_marks hmark hv).value]
  rw [hword]
  exact ⟨p.flag ++ v, hflag.append (reads_marks hmark hv), hflag.append (reads_marks hmark hvabs)⟩

/-- A control character of a rewritten token is one of the token. -/
theorem printable_rewritten (habs : isFullPath baseDir = true)
    (hpaths : ∀ p ∈ pathPart next token, PathReads baseDir next p) (h : ∀ c ∈ token, ¬ c < ' ') :
    ∀ c ∈ rewritten baseDir next token, ¬ c < ' ' := by
  cases hp : pathPart next token with
  | none =>
    rw [rewritten_of_none hp]
    exact h
  | some p =>
    obtain ⟨body, tail, hpath, htail, r, hr, -, hkept⟩ := hpaths p hp
    obtain ⟨htoken, hrewritten⟩ := rewritten_of_glued habs hp hpath htail
    rw [hrewritten]
    rw [htoken] at h
    unfold PathPart.withPath at h ⊢
    simp only [List.forall_mem_append] at h ⊢
    obtain ⟨⟨hflag, ⟨hopen, hbody⟩, hclose⟩, htail⟩ := h
    refine ⟨⟨hflag, ⟨hopen, fun c hc => ?_⟩, hclose⟩, htail⟩
    rcases mem_appendAbsolutePath habs hr hc with rfl | ⟨name, hname, hc⟩ | hc
    · decide
    · exact (hkept name hname).2 c hc
    · exact hbody c hc

/-- The mark or the flag in front of a path does not start a comment when the path is rewritten. -/
theorem head_withPath {abs : Text} (hp : pathPart next token = some p) (habs : isFullPath abs = true)
    {path : Text} (h : (p.withPath path).head? ≠ some '#') : (p.withPath abs).head? ≠ some '#' := by
  obtain ⟨-, -, -, -, hmark⟩ := pathPart_eq_some hp
  obtain ⟨s, rfl⟩ := exists_of_isFullPath habs
  unfold PathPart.withPath at h ⊢
  cases hf : p.flag with
  | cons c f =>
    rw [hf] at h
    exact h
  | nil => rcases hmark with hq | hq | hq <;> simp [hq]

/-- A token is rewritten faithfully when its path is read name by name. -/
theorem tokenSays_of_pathReads (habs : isFullPath baseDir = true) (hp : pathPart next token = some p)
    (h : PathReads baseDir next p) (hprint : ∀ c ∈ token, ¬ c < ' ') :
    TokenSays baseDir next token := by
  have hprint' : ∀ c ∈ rewritten baseDir next token, ¬ c < ' ' :=
    printable_rewritten habs (fun p' hp' => Option.some.inj (hp.symm.trans hp') ▸ h) hprint
  obtain ⟨body, tail, hpath, htail, r, hr, hmode, hkept⟩ := h
  obtain ⟨htoken, hrewritten⟩ := rewritten_of_glued habs hp hpath htail
  have hbody := pathPart_of_glued hp hpath htail
  obtain ⟨hlen, -, hne, -⟩ := pathPart_eq_some hbody
  obtain ⟨v, hw, hw'⟩ := reads_withPath habs hbody hr hmode fun name hname =>
    readName_eq_some.1 (hkept name hname).1
  constructor
  · rw [hrewritten, read_append, hw'.tokenizer, ← hw.tokenizer, ← read_append, ← htoken]
  intro hcomment
  have hline : '\n' ∉ token := fun hmem => hprint _ hmem (by decide)
  have hline' : '\n' ∉ rewritten baseDir next token := fun hmem => hprint' _ hmem (by decide)
  have hhead : (p.withPath body).head? ≠ some '#' := by
    intro hhash
    obtain ⟨t, ht⟩ := List.head?_eq_some_iff.1 hhash
    have hstart : token.head? = some '#' := by
      rw [htoken, ht]
      rfl
    unfold noComment at hcomment
    rw [comment_of_head hstart hline] at hcomment
    exact absurd hcomment (by decide)
  have hfull := isFullPath_absolutePath habs body
  have hwne : p.withPath body ≠ [] := by
    dsimp only at hne
    unfold PathPart.withPath
    simp [hne]
  have hwne' : p.withPath (compiledbAppendAbsolutePath baseDir body) ≠ [] := by
    obtain ⟨s, hs⟩ := exists_of_isFullPath hfull
    unfold PathPart.withPath
    simp [hs]
  rw [htoken, List.mem_append, not_or] at hline
  rw [hrewritten, List.mem_append, not_or] at hline'
  obtain ⟨l, hnext, hcomplete⟩ := complete_append_glued htail
  refine ⟨.word (p.withPath body) :: l,
    .word (p.withPath (compiledbAppendAbsolutePath baseDir body)) :: l, ?_, ?_, fun l₂ => ?_⟩
  · rw [htoken]
    exact hcomplete _ _ hw hwne hhead hline.1
  · rw [hrewritten]
    exact hcomplete _ _ hw' hwne' (head_withPath hp hfull hhead) hline'.1
  · obtain ⟨hlen', -⟩ := pathPart_eq_some hp
    have hunquoted : Item.unquoted (.word (p.withPath (compiledbAppendAbsolutePath baseDir body))) =
        .word (absoluteWord baseDir next (p.withPath body)) := congrArg Item.word hw'.value
    rw [List.cons_append, absoluteItems, List.map_cons, hunquoted, classifyArg_snd hlen,
      absoluteItems_kept hnext, classifyArg_snd hlen']
    rfl

theorem tokenSays_of_kept (hp : pathPart next token = none)
    (h : noComment token = true →
      ∃ l ∈ complete token, keptNext next l = some (classifyArg next token).2) :
    TokenSays baseDir next token := by
  constructor
  · rw [rewritten_of_none hp]
  · intro hcomment
    obtain ⟨l, hl, hnext⟩ := h hcomment
    exact ⟨l, l, hl, (rewritten_of_none hp).symm ▸ hl, fun l₂ => absoluteItems_kept hnext l₂⟩

end

end

/-! ### A command -/

section

variable {baseDir s : Text} {next : Bool} {fuel : ℕ}

theorem isBlank_of_isSpace {c : Char} (hspace : isSpace c = true) (h : ¬ c < ' ') : isBlank c = true := by
  unfold isSpace at hspace
  unfold isBlank
  have hle : 32 ≤ c.toNat := by
    have hnot : ¬ c.toNat < 32 := h
    omega
  simp only [Bool.or_eq_true, decide_eq_true_eq] at hspace
  rcases hspace with ((((hc | rfl) | rfl) | rfl) | hc) | hc
  · simp [hc]
  · exact absurd (by decide) h
  · exact absurd (by decide) h
  · exact absurd (by decide) h
  · omega
  · omega

theorem EndsToken.blank {q : Quote} {rest : Text} (h : EndsToken q rest) (hprint : ∀ c ∈ rest, ¬ c < ' ') :
    rest = [] ∨ ∃ b r, rest = b :: r ∧ isBlank b = true := by
  rcases h with h | ⟨-, b, r, rfl, hb⟩
  · exact Or.inl h
  · exact Or.inr ⟨b, r, rfl, isBlank_of_isSpace hb (hprint b List.mem_cons_self)⟩

theorem printable_rewriteLoop (habs : isFullPath baseDir = true) (hfuel : s.length < fuel)
    (hpaths : ∀ e ∈ tokensLoop fuel next s, ∀ p ∈ pathPart e.1 e.2, PathReads baseDir e.1 p)
    (h : ∀ c ∈ s, ¬ c < ' ') : ∀ c ∈ rewriteLoop baseDir fuel next s, ¬ c < ' ' := by
  induction fuel generalizing s next with
  | zero => exact absurd hfuel (Nat.not_lt_zero _)
  | succ fuel ih =>
    by_cases hblanks : s.dropWhile isSpace = []
    · rw [rewriteLoop_blanks hblanks]
      exact h
    · obtain ⟨token, rest, hfirst⟩ := exists_firstToken hblanks
      have hlt := hfirst.length_lt
      rw [hfirst.tokensLoop, List.forall_mem_cons] at hpaths
      rw [hfirst.text] at h
      rw [hfirst.rewriteLoop]
      simp only [List.forall_mem_append] at h ⊢
      exact ⟨h.1, printable_rewritten habs hpaths.1 h.2.1, ih (by omega) hpaths.2 h.2.2⟩

/-- A character that is not escaped is printed when there is one in the command. -/
theorem plain_rewriteLoop (habs : isFullPath baseDir = true) (hfuel : s.length < fuel)
    (h : ∃ c ∈ s, c ≠ '\\' ∧ c ≠ '"') :
    ∃ c ∈ rewriteLoop baseDir fuel next s, c ≠ '\\' ∧ c ≠ '"' := by
  induction fuel generalizing s next with
  | zero => exact absurd hfuel (Nat.not_lt_zero _)
  | succ fuel ih =>
    by_cases hblanks : s.dropWhile isSpace = []
    · rw [rewriteLoop_blanks hblanks]
      exact h
    · obtain ⟨token, rest, hfirst⟩ := exists_firstToken hblanks
      have hlt := hfirst.length_lt
      obtain ⟨c, hc, hplain⟩ := h
      rw [hfirst.text, List.mem_append, List.mem_append] at hc
      rw [hfirst.rewriteLoop]
      simp only [List.mem_append]
      rcases hc with hc | hc | hc
      · exact ⟨c, Or.inl hc, hplain⟩
      · cases hp : pathPart next token with
        | none =>
          rw [rewritten_of_none hp]
          exact ⟨c, Or.inr (Or.inl hc), hplain⟩
        | some p =>
          obtain ⟨s, hs⟩ := exists_of_isFullPath (isFullPath_absolutePath habs p.path)
          refine ⟨'/', Or.inr (Or.inl ?_), by decide⟩
          unfold rewritten PathPart.withPath
          rw [hp]
          simp [hs]
      · obtain ⟨d, hd, hplain⟩ := ih (by omega) ⟨c, hc, hplain⟩
        exact ⟨d, Or.inr (Or.inr hd), hplain⟩

/-- The words of a rewritten command. -/
theorem split_rewriteLoop (hfuel : s.length < fuel)
    (hprint : ∀ c ∈ s, ¬ c < ' ') (hprint' : ∀ c ∈ rewriteLoop baseDir fuel next s, ¬ c < ' ')
    (hfaithful : ∀ e ∈ (tokensLoop fuel next s).takeWhile (noComment ·.2), TokenSays baseDir e.1 e.2)
    (hcomment : ∀ e ∈ ((tokensLoop fuel next s).dropWhile (noComment ·.2)).head?,
      pathPart e.1 e.2 = none ∧ ∃ l ∈ split e.2, (keptNext e.1 l).isSome = true) :
    ∃ l, split s = some l ∧
      (split (rewriteLoop baseDir fuel next s)).map (List.map Item.unquoted) =
        some (absoluteItems baseDir next l) := by
  induction fuel generalizing s next with
  | zero => exact absurd hfuel (Nat.not_lt_zero _)
  | succ fuel ih =>
    by_cases hblanks : s.dropWhile isSpace = []
    · have hall : ∀ c ∈ s, isBlank c = true := fun c hc =>
        isBlank_of_isSpace (List.dropWhile_eq_nil_iff.1 hblanks c hc) (hprint c hc)
      have hsplit : split s = some [] := by
        rw [← List.append_nil s, split_blanks hall]
        rfl
      rw [rewriteLoop_blanks hblanks, hsplit]
      exact ⟨[], rfl, rfl⟩
    · obtain ⟨token, rest, hfirst⟩ := exists_firstToken hblanks
      generalize s.takeWhile isSpace = blanks at hfirst
      obtain ⟨q, -, hend⟩ := hfirst.read
      have hlt := hfirst.length_lt
      have hend' : EndsToken q (rewriteLoop baseDir fuel (classifyArg next token).2 rest) :=
        hend.rewriteLoop (by omega)
      rw [hfirst.rewriteLoop] at hprint' ⊢
      rw [hfirst.tokensLoop] at hfaithful hcomment
      have hprintAll := hprint
      rw [hfirst.text] at hprintAll
      simp only [List.forall_mem_append] at hprintAll hprint'
      obtain ⟨hprintBlanks, hprintToken, hprintRest⟩ := hprintAll
      have hblank : ∀ c ∈ blanks, isBlank c = true := fun c hc =>
        isBlank_of_isSpace (hfirst.blanks c hc) (hprintBlanks c hc)
      rw [hfirst.text, split_blanks hblank, split_blanks hblank]
      cases hc : noComment token with
      | true =>
        rw [List.takeWhile_cons, hc, if_pos rfl, List.forall_mem_cons] at hfaithful
        rw [List.dropWhile_cons, hc, if_pos rfl] at hcomment
        obtain ⟨l, l', hl, hl', hitems⟩ := hfaithful.1.words hc
        obtain ⟨l₂, hl₂, hwords⟩ := ih (by omega) hprintRest hprint'.2.2 hfaithful.2 hcomment
        rw [split_append hl (hend.blank hprintRest), split_append hl' (hend'.blank hprint'.2.2), hl₂]
        refine ⟨l ++ l₂, rfl, ?_⟩
        obtain ⟨l₂', hl₂', hunquoted⟩ := Option.map_eq_some_iff.1 hwords
        rw [hl₂', hitems, ← hunquoted]
        simp
      | false =>
        rw [List.dropWhile_cons, hc, if_neg Bool.false_ne_true] at hcomment
        obtain ⟨hp, l, hl, hkept⟩ := hcomment (next, token) rfl
        obtain ⟨next', hnext⟩ := Option.isSome_iff_exists.1 hkept
        have hline : ∀ t : Text, (∀ c ∈ t, ¬ c < ' ') → '\n' ∉ t := fun t ht hmem => ht _ hmem (by decide)
        have hstart : (token.foldl Lexer.step (between [])).comment = true := by
          unfold noComment at hc
          simpa using hc
        rw [rewritten_of_none hp, split_append_comment hstart (hline _ hprintRest),
          split_append_comment hstart (hline _ hprint'.2.2), hl]
        refine ⟨l, rfl, ?_⟩
        have hitems : absoluteItems baseDir next (l ++ []) = _ := absoluteItems_kept hnext []
        rw [List.append_nil, absoluteItems, List.append_nil] at hitems
        rw [hitems]
        rfl

end

/-! ### An entry -/

theorem isFullPath_entryDirectory {tupTop : Text} (htop : isFullPath tupTop = true) (dir : Option Text) :
    isFullPath (entryDirectory tupTop dir) = true := by
  obtain ⟨t, rfl⟩ := exists_of_isFullPath htop
  rfl

/-- The text of the command is that of a string of JSON unless it has control characters or all of its
characters are escaped. -/
theorem decodes_iff {tupTop : Text} (htop : isFullPath tupTop = true) (dir : Option Text) (cmd : Text)
    (file : Option Text) :
    (∃ entry, printCompileDb tupTop dir cmd file = some entry ∧
      JsonString.decode entry.command =
        some (compiledbRewriteCommand cmd (entryDirectory tupTop dir))) ↔
      (∃ c ∈ compiledbRewriteCommand cmd (entryDirectory tupTop dir), c ≠ '\\' ∧ c ≠ '"') ∧
        ∀ c ∈ compiledbRewriteCommand cmd (entryDirectory tupTop dir), ¬ c < ' ' := by
  have hfile : isFullPath (tupTop ++ (file.map ('/' :: ·)).getD []) = true := by
    obtain ⟨t, rfl⟩ := exists_of_isFullPath htop
    rfl
  unfold printCompileDb
  rw [printJson_of_isFullPath (isFullPath_entryDirectory htop dir), printJson_of_isFullPath hfile,
    printJson_eq]
  by_cases hplain : ∃ c ∈ compiledbRewriteCommand cmd (entryDirectory tupTop dir), c ≠ '\\' ∧ c ≠ '"'
  · rw [if_pos (by simpa using hplain)]
    constructor
    · rintro ⟨entry, hentry, hdecode⟩
      cases Option.some.inj hentry
      exact ⟨hplain, JsonString.decode_escape_iff.1 hdecode⟩
    · exact fun h => ⟨_, rfl, JsonString.decode_escape_iff.2 h.2⟩
  · rw [if_neg (by simpa using hplain)]
    exact iff_of_false (by rintro ⟨entry, hentry, -⟩; cases hentry) fun h => hplain h.1

theorem printable_of_all {t : Text} (h : t.all (fun c => !decide (c < ' ')) = true) : ∀ c ∈ t, ¬ c < ' ' :=
  fun c hc => by simpa using List.all_eq_true.1 h c hc

end Metatup
