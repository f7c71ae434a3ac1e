import Metatup.Parser.Eval

/-!
# One path of a list

An element of an input or output list is written with quotes, with backslashes in front of blanks and
with references. It is read as one path, its quoting is removed, and then its references are replaced;
when that changes the path, it is taken apart at the blanks.

* `Element`: an element as it is written, with the path it means.
* `getPathList_listText`: an element is read as one path.
* `stays_one_path_iff`: when it still is one path afterwards.
-/

namespace Metatup.Eval

/-! ### Elements as they are written -/

/-- What an element is written with. -/
inductive Part
  /-- A double quote, which opens or closes. -/
  | quote
  | escaped (c : Char)
  | lit (c : Char)
  | ref (sign : Char) (name : Text)
  deriving DecidableEq

/-- The part as it is written. -/
def Part.raw : Part → Text
  | .quote => ['"']
  | .escaped c => ['\\', c]
  | .lit c => [c]
  | .ref sign name => (Piece.ref sign name).text

/-- What the part is without its quoting. -/
def Part.piece : Part → Option Piece
  | .quote => none
  | .escaped c | .lit c => some (.lit c)
  | .ref sign name => some (.ref sign name)

/-- The quotes are closed, and blanks that are not escaped are inside of them. -/
def Protected : Bool → List Part → Prop
  | quoted, [] => quoted = false
  | quoted, .quote :: l => Protected (!quoted) l
  | quoted, .escaped _ :: l => Protected quoted l
  | quoted, .lit c :: l =>
    c ≠ '\\' ∧ c ≠ '"' ∧ c ≠ '`' ∧ (quoted = false → isSpace c = false) ∧ Protected quoted l
  | quoted, .ref _ _ :: l => Protected quoted l

/-- The parts without their quoting. -/
def pieces (l : List Part) : List Piece := l.filterMap Part.piece

/-- The parts as they are written. -/
def rawOf (l : List Part) : Text := l.flatMap Part.raw

/-- An element of an input or output list. Its references are where they are written: its quoting does
not make or hide one. -/
structure Element where
  parts : List Part
  ne_nil : parts ≠ []
  closed : Protected false parts
  legible : Legible (pieces parts)

namespace Element

/-- The element as it is written. -/
def raw (e : Element) : Text := rawOf e.parts

/-- The element with its quoting removed. -/
def unquoted (e : Element) : Text := textOf (pieces e.parts)

/-- The element with its quoting removed and its references replaced. -/
def replaced (env : EvalEnv) (expandNodes : ExpandNodes) (e : Element) : Option Text :=
  (substitute env (pieces e.parts)).bind (finish env expandNodes)

/-- The element is a reference and nothing else, without quotes. -/
def isReference (e : Element) : Bool :=
  match e.parts with
  | [.ref _ _] => true
  | _ => false

/-- The path that is read for the element, with its number. -/
def path (tf : Tupfile) (bl : Option (List Text)) (e : Element) (orderid : ℕ) : Option RulePath :=
  (newPl tf e.unquoted bl).map fun pl => { pl with orderid := orderid, origin := .rule orderid }

end Element

/-- The words of a text. -/
def words (t : Text) : List Text := (t.splitOnP fun c => c = ' ' || c = '\t').filter (· ≠ [])

/-- Elements with the blanks behind them. -/
def listText (es : List (Element × Text)) : Text := es.flatMap fun e => e.1.raw ++ e.2

/-- There are blanks behind every element but the last. -/
def Spaced : List (Element × Text) → Prop
  | [] => True
  | (_, blanks) :: es => (∀ c ∈ blanks, isSpace c = true) ∧ (es ≠ [] → blanks ≠ []) ∧ Spaced es

/-! ### Reading an element -/

section

variable {q : Bool} {depth : ℕ} {c : Char} {s t rest : Text} {l : List Part} {r : Option (Text × Text)}

/-- Put a text in front of a path. -/
def pushAll (t : Text) (r : Option (Text × Text)) : Option (Text × Text) :=
  r.map fun r => (t ++ r.1, r.2)

theorem push_eq (c : Char) (r : Option (Text × Text)) : nextPathLoop.push c r = pushAll [c] r := by
  cases r <;> rfl

theorem pushAll_pushAll (t t' : Text) (r : Option (Text × Text)) :
    pushAll t (pushAll t' r) = pushAll (t ++ t') r := by
  cases r
  · rfl
  · simp [pushAll]

/-- What the loop does with a character. -/
theorem nextPathLoop_cons (st : PathScan) (c : Char) (s : Text) : nextPathLoop st (c :: s) =
    if st.espace then pushAll [c] (nextPathLoop { st with espace := false } s)
    else if c = '\\' then nextPathLoop { st with espace := true } s
    else if c = '"' then nextPathLoop { st with quoted := !st.quoted } s
    else if c = '`' then pushAll [c] (nextPathLoop { st with backtick := !st.backtick } s)
    else if isSign c && s.head? = some '(' && st.plain then
      pushAll [c, '('] (nextPathLoop { st with parenDepth := st.parenDepth + 1 } (s.drop 1))
    else if c = '(' && decide (0 < st.parenDepth) && st.plain then
      pushAll [c] (nextPathLoop { st with parenDepth := st.parenDepth + 1 } s)
    else if c = ')' && decide (0 < st.parenDepth) && st.plain then
      pushAll [c] (nextPathLoop { st with parenDepth := st.parenDepth - 1 } s)
    else if isSpace c && st.plain && st.parenDepth = 0 then some ([], c :: s)
    else pushAll [c] (nextPathLoop st s) := by
  rw [nextPathLoop.eq_def]
  cases s with
  | nil => simp [push_eq]
  | cons d s =>
    by_cases hd : d = '('
    · subst hd
      simp only [push_eq, pushAll_pushAll]
      rfl
    · simp [push_eq, hd]

theorem nextPathLoop_espace (st : PathScan) (h : st.espace = true) (c : Char) (s : Text) :
    nextPathLoop st (c :: s) = pushAll [c] (nextPathLoop { st with espace := false } s) := by
  rw [nextPathLoop_cons, if_pos h]

theorem nextPathLoop_escaped (c : Char) (s : Text) :
    nextPathLoop { quoted := q } ('\\' :: c :: s) = pushAll [c] (nextPathLoop { quoted := q } s) := by
  rw [nextPathLoop_cons, if_neg Bool.false_ne_true, if_pos rfl, nextPathLoop_espace _ rfl]

theorem nextPathLoop_quote (s : Text) :
    nextPathLoop { quoted := q } ('"' :: s) = nextPathLoop { quoted := !q } s := by
  rw [nextPathLoop_cons, if_neg Bool.false_ne_true, if_neg (by decide), if_pos rfl]

/-- A character that is nothing special is copied. -/
theorem nextPathLoop_lit (hc : c ≠ '\\' ∧ c ≠ '"' ∧ c ≠ '`') (hspace : q = false → isSpace c = false)
    (hsign : q = false → isSign c = true → s.head? ≠ some '(') :
    nextPathLoop { quoted := q } (c :: s) = pushAll [c] (nextPathLoop { quoted := q } s) := by
  have href : ¬ (isSign c && s.head? = some '(' &&
      PathScan.plain { quoted := q }) = true := by
    cases q with
    | true => simp [PathScan.plain]
    | false =>
      intro h
      rw [Bool.and_eq_true, Bool.and_eq_true, decide_eq_true_eq] at h
      exact hsign rfl h.1.1 h.1.2
  have hblank : ¬ (isSpace c && PathScan.plain { quoted := q } && decide (0 = 0)) = true := by
    cases q with
    | true => simp [PathScan.plain]
    | false => simp [hspace rfl]
  rw [nextPathLoop_cons, if_neg Bool.false_ne_true, if_neg hc.1, if_neg hc.2.1, if_neg hc.2.2, if_neg href,
    if_neg (by simp), if_neg (by simp), if_neg hblank]

/-- Inside of quotes everything is copied that is no quoting itself. -/
theorem nextPathLoop_quoted (ht : ∀ c ∈ t, c ≠ '\\' ∧ c ≠ '"' ∧ c ≠ '`') :
    nextPathLoop { quoted := true } (t ++ s) = pushAll t (nextPathLoop { quoted := true } s) := by
  induction t with
  | nil => cases h : nextPathLoop { quoted := true } s <;> simp [pushAll, h]
  | cons c t ih =>
    obtain ⟨hc, ht⟩ := List.forall_mem_cons.1 ht
    rw [List.cons_append, nextPathLoop_lit (q := true) hc nofun nofun, ih ht, pushAll_pushAll]
    rfl

/-- Outside of quotes a reference opens a parenthesis. -/
theorem nextPathLoop_sign (hc : isSign c = true) (s : Text) :
    nextPathLoop { parenDepth := depth } (c :: '(' :: s) =
      pushAll [c, '('] (nextPathLoop { parenDepth := depth + 1 } s) := by
  obtain ⟨-, hback, hquote, htick⟩ := isSign_ne hc
  have href : (isSign c && ('(' :: s).head? = some '(' &&
      PathScan.plain { parenDepth := depth }) = true := by
    rw [hc]
    rfl
  rw [nextPathLoop_cons, if_neg Bool.false_ne_true, if_neg hback, if_neg hquote, if_neg htick, if_pos href]
  rfl

theorem nextPathLoop_open (s : Text) : nextPathLoop { parenDepth := depth + 1 } ('(' :: s) =
    pushAll ['('] (nextPathLoop { parenDepth := depth + 2 } s) := by
  rw [nextPathLoop_cons, if_neg Bool.false_ne_true, if_neg (by decide), if_neg (by decide),
    if_neg (by decide), if_neg (by simp [isSign]), if_pos (by simp [PathScan.plain])]

theorem nextPathLoop_close (s : Text) : nextPathLoop { parenDepth := depth + 1 } (')' :: s) =
    pushAll [')'] (nextPathLoop { parenDepth := depth } s) := by
  rw [nextPathLoop_cons, if_neg Bool.false_ne_true, if_neg (by decide), if_neg (by decide),
    if_neg (by decide), if_neg (by simp [isSign]), if_neg (by simp), if_pos (by simp [PathScan.plain])]
  rfl

/-- Inside of a reference every character is copied, and the parentheses are counted. -/
theorem nextPathLoop_paren (hc : c ≠ '\\' ∧ c ≠ '"' ∧ c ≠ '`') (s : Text) :
    nextPathLoop { parenDepth := depth + 1 } (c :: s) = pushAll [c] (nextPathLoop
      { parenDepth := if c = '(' then depth + 2 else if c = ')' then depth else depth + 1 } s) := by
  by_cases hparen : c = '('
  · subst hparen
    exact nextPathLoop_open s
  by_cases hclose : c = ')'
  · subst hclose
    exact nextPathLoop_close s
  rw [if_neg hparen, if_neg hclose]
  by_cases hsign : isSign c = true ∧ s.head? = some '('
  · -- the two characters are copied at once, as they would be one after the other
    obtain ⟨hsign, hs⟩ := hsign
    obtain ⟨s, rfl⟩ : ∃ s', s = '(' :: s' := by
      cases s with
      | nil => cases hs
      | cons d s => exact ⟨s, by rw [Option.some.inj hs]⟩
    rw [nextPathLoop_sign hsign, nextPathLoop_open, pushAll_pushAll]
    rfl
  · have href : ¬ (isSign c && s.head? = some '(' &&
        PathScan.plain { parenDepth := depth + 1 }) = true := by
      intro h
      rw [Bool.and_eq_true, Bool.and_eq_true, decide_eq_true_eq] at h
      exact hsign h.1
    rw [nextPathLoop_cons, if_neg Bool.false_ne_true, if_neg hc.1, if_neg hc.2.1, if_neg hc.2.2, if_neg href,
      if_neg (by simp [hparen]), if_neg (by simp [hclose]), if_neg (by simp)]

theorem nextPathLoop_name {name : Text} (hbal : Balanced depth name)
    (hq : ∀ c ∈ name, c ≠ '\\' ∧ c ≠ '"' ∧ c ≠ '`') (s : Text) :
    nextPathLoop { parenDepth := depth + 1 } (name ++ ')' :: s) =
      pushAll (name ++ [')']) (nextPathLoop {} s) := by
  induction name generalizing depth with
  | nil =>
    obtain rfl : depth = 0 := hbal
    exact nextPathLoop_close s
  | cons c name ih =>
    obtain ⟨hc, hq⟩ := List.forall_mem_cons.1 hq
    rw [List.cons_append, nextPathLoop_paren hc]
    unfold Balanced at hbal
    split at hbal
    · next hopen =>
      rw [if_pos hopen, ih hbal hq, pushAll_pushAll]
      rfl
    · next hopen =>
      rw [if_neg hopen]
      split at hbal
      · next hclose =>
        obtain ⟨hpos, hbal⟩ := hbal
        obtain ⟨depth, rfl⟩ := Nat.exists_eq_add_one.2 hpos
        rw [Nat.add_sub_cancel] at hbal
        rw [if_pos hclose, ih hbal hq, pushAll_pushAll]
        rfl
      · next hclose =>
        rw [if_neg hclose, ih hbal hq, pushAll_pushAll]
        rfl

/-- A reference is copied, in quotes and outside of them. -/
theorem nextPathLoop_ref {sign : Char} {name : Text} (hsign : isSign sign = true) (hname : IsRefName name)
    (s : Text) : nextPathLoop { quoted := q } ((Piece.ref sign name).text ++ s) =
      pushAll (Piece.ref sign name).text (nextPathLoop { quoted := q } s) := by
  cases q with
  | true =>
    refine nextPathLoop_quoted fun c hc => ?_
    rcases List.mem_cons.1 hc with rfl | hc
    · exact (isSign_ne hsign).2
    rcases List.mem_cons.1 hc with rfl | hc
    · decide
    rcases List.mem_append.1 hc with hc | hc
    · exact hname.no_quoting c hc
    · obtain rfl := List.mem_singleton.1 hc
      decide
  | false =>
    have htext : (Piece.ref sign name).text ++ s = sign :: '(' :: (name ++ ')' :: s) := by
      simp [Piece.text]
    rw [htext, nextPathLoop_sign hsign, nextPathLoop_name hname.balanced hname.no_quoting, pushAll_pushAll]
    rfl

theorem isSign_of_isSpace (h : isSpace c = true) : isSign c = false ∧ c ≠ '\\' ∧ c ≠ '"' ∧ c ≠ '`' := by
  refine ⟨Bool.eq_false_iff.2 fun hsign => ?_, ?_, ?_, ?_⟩
  · unfold isSign at hsign
    simp only [Bool.or_eq_true, decide_eq_true_eq] at hsign
    rcases hsign with (rfl | rfl) | rfl
    all_goals cases h
  all_goals
    rintro rfl
    cases h

/-- A path ends where the text does, or at a blank. -/
theorem nextPathLoop_end (hrest : ∀ c ∈ rest.head?, isSpace c = true) :
    nextPathLoop {} rest = some ([], rest) := by
  cases rest with
  | nil => rfl
  | cons c s =>
    have hc : isSpace c = true := hrest c rfl
    obtain ⟨hsign, hback, hquote, htick⟩ := isSign_of_isSpace hc
    have href : ¬ (isSign c && s.head? = some '(' && PathScan.plain {}) = true := by
      simp [hsign]
    rw [nextPathLoop_cons, if_neg Bool.false_ne_true, if_neg hback, if_neg hquote, if_neg htick, if_neg href,
      if_neg (by simp), if_neg (by simp), if_pos (by simp [hc, PathScan.plain])]

/-- What stands behind a sign that is itself. -/
theorem rawOf_head?_ne (hlegible : Legible (.lit c :: pieces l)) (hc : isSign c = true)
    (hrest : ∀ c ∈ rest.head?, isSpace c = true) : (rawOf l ++ rest).head? ≠ some '(' := by
  intro hhead
  cases l with
  | nil =>
    cases hrest '(' hhead
  | cons part l =>
    cases part with
    | quote => cases hhead
    | escaped d => cases hhead
    | lit d =>
      obtain rfl : d = '(' := Option.some.inj hhead
      exact (List.isChain_cons_cons.1 hlegible.apart).1.1 ⟨⟨c, rfl, hc⟩, rfl⟩
    | ref sign name =>
      obtain rfl : sign = '(' := Option.some.inj hhead
      exact (isSign_ne (hlegible.names '(' name (by simp [pieces, Part.piece])).1).1 rfl

/-- The parts are read as one path, and their quoting is removed. -/
theorem nextPathLoop_rawOf (hclosed : Protected q l) (hlegible : Legible (pieces l))
    (hrest : ∀ c ∈ rest.head?, isSpace c = true) :
    nextPathLoop { quoted := q } (rawOf l ++ rest) = some (textOf (pieces l), rest) := by
  induction l generalizing q with
  | nil =>
    obtain rfl : q = false := hclosed
    exact nextPathLoop_end hrest
  | cons part l ih =>
    have hraw : rawOf (part :: l) ++ rest = part.raw ++ (rawOf l ++ rest) := by
      simp [rawOf]
    rw [hraw]
    cases part with
    | quote => exact (nextPathLoop_quote _).trans (ih hclosed hlegible)
    | escaped c =>
      exact (nextPathLoop_escaped c _).trans (congrArg (pushAll [c]) (ih hclosed hlegible.tail))
    | lit c =>
      obtain ⟨hback, hquote, htick, hspace, hclosed⟩ := hclosed
      have hparen : q = false → isSign c = true → (rawOf l ++ rest).head? ≠ some '(' :=
        fun _ hc => rawOf_head?_ne hlegible hc hrest
      exact (nextPathLoop_lit ⟨hback, hquote, htick⟩ hspace hparen).trans
        (congrArg (pushAll [c]) (ih hclosed hlegible.tail))
    | ref sign name =>
      obtain ⟨hsign, hname⟩ := hlegible.names sign name List.mem_cons_self
      exact (nextPathLoop_ref hsign hname _).trans (congrArg (pushAll _) (ih hclosed hlegible.tail))

end

/-! ### Reading a list -/

section

variable {tf : Tupfile} {bl : Option (List Text)} {es : List (Element × Text)} {t : Text}

/-- An element starts with something that is no blank. -/
theorem Element.raw_eq_cons (e : Element) : ∃ c s, e.raw = c :: s ∧ isSpace c = false := by
  obtain ⟨parts, hne, hclosed, hlegible⟩ := e
  cases parts with
  | nil => exact absurd rfl hne
  | cons part l =>
    cases part with
    | quote => exact ⟨'"', rawOf l, rfl, rfl⟩
    | escaped c => exact ⟨'\\', c :: rawOf l, rfl, rfl⟩
    | lit c => exact ⟨c, rawOf l, rfl, hclosed.2.2.2.1 rfl⟩
    | ref sign name =>
      refine ⟨sign, _, rfl, ?_⟩
      have hsign : isSign sign = true := (hlegible.names sign name List.mem_cons_self).1
      rw [Bool.eq_false_iff]
      intro hspace
      rw [(isSign_of_isSpace hspace).1] at hsign
      cases hsign

theorem skipSpace_listText {blanks : Text} (hblanks : ∀ c ∈ blanks, isSpace c = true) :
    skipSpace (blanks ++ listText es) = listText es := by
  unfold skipSpace
  rw [List.dropWhile_append_of_pos hblanks]
  cases es with
  | nil => rfl
  | cons e es =>
    obtain ⟨c, s, hraw, hc⟩ := e.1.raw_eq_cons
    have htext : listText (e :: es) = c :: (s ++ e.2 ++ listText es) := by
      simp [listText, hraw]
    rw [htext, List.dropWhile_cons_of_neg (by simp [hc])]

theorem nextPath_listText {e : Element} {blanks : Text} (hs : Spaced ((e, blanks) :: es)) :
    nextPath (listText ((e, blanks) :: es)) = some (e.unquoted, blanks ++ listText es) := by
  obtain ⟨hblanks, hbetween, -⟩ := hs
  have htext : listText ((e, blanks) :: es) = rawOf e.parts ++ (blanks ++ listText es) := by
    simp [listText, Element.raw]
  rw [htext]
  refine nextPathLoop_rawOf e.closed e.legible fun c hc => ?_
  cases blanks with
  | cons d blanks =>
    obtain rfl : d = c := Option.some.inj hc
    exact hblanks d List.mem_cons_self
  | nil =>
    have hes : es = [] := Classical.byContradiction fun hes => hbetween hes rfl
    rw [hes] at hc
    cases hc

theorem getPathListLoop_listText (hs : Spaced es) {fuel : ℕ} (hfuel : (listText es).length ≤ fuel)
    (k : ℕ) : getPathListLoop tf bl .rule fuel k (listText es) =
      (es.zipIdx k).mapM fun x => x.1.1.path tf bl x.2 := by
  induction es generalizing fuel k with
  | nil => cases fuel <;> rfl
  | cons e es ih =>
    obtain ⟨e, blanks⟩ := e
    obtain ⟨c, s, hraw, -⟩ := e.raw_eq_cons
    have htext : listText ((e, blanks) :: es) = c :: (s ++ blanks ++ listText es) := by
      simp [listText, hraw]
    have hnext := nextPath_listText hs
    rw [htext] at hfuel hnext ⊢
    rw [List.length_cons, List.length_append] at hfuel
    obtain ⟨fuel, rfl⟩ := Nat.exists_eq_add_one.2 (Nat.lt_of_lt_of_le (Nat.succ_pos _) hfuel)
    rw [getPathListLoop.eq_def, List.zipIdx_cons, List.mapM_cons]
    dsimp only
    rw [hnext]
    dsimp only [Option.bind_eq_bind, Option.bind_some]
    rw [skipSpace_listText hs.1, ih hs.2.2 (by omega)]
    unfold Element.path
    cases newPl tf e.unquoted bl <;> rfl

/-- An element is read as one path. -/
theorem getPathList_listText (hs : Spaced es) : getPathList tf bl .rule (listText es) =
    (es.zipIdx 1).mapM fun x => x.1.1.path tf bl x.2 :=
  getPathListLoop_listText hs le_rfl 1

theorem not_mem_of_splitOnP {α : Type} {p : α → Bool} {l w : List α} (hw : w ∈ l.splitOnP p) :
    ∀ x ∈ w, p x = false := by
  induction l generalizing w with
  | nil =>
    obtain rfl := List.mem_singleton.1 hw
    simp
  | cons x l ih =>
    rw [List.splitOnP_cons_eq_if_modifyHead] at hw
    split at hw
    · rcases List.mem_cons.1 hw with rfl | hw
      · simp
      · exact ih hw
    · next hx =>
      obtain ⟨w₀, ws, hsplit⟩ := List.exists_cons_of_ne_nil (List.splitOnP_ne_nil p l)
      rw [hsplit] at hw ih
      rcases List.mem_cons.1 hw with rfl | hw
      · rw [List.forall_mem_cons]
        exact ⟨Bool.eq_false_iff.2 hx, ih List.mem_cons_self⟩
      · exact ih (List.mem_cons_of_mem w₀ hw)

/-- A text is a word when there is no blank in it. -/
theorem words_eq_singleton_iff : words t = [t] ↔ t ≠ [] ∧ ' ' ∉ t ∧ '\t' ∉ t := by
  constructor
  · intro h
    obtain ⟨hmem, hne⟩ := List.mem_filter.1 (h ▸ List.mem_singleton_self t : t ∈ words t)
    have hblank := not_mem_of_splitOnP hmem
    refine ⟨of_decide_eq_true hne, fun hspace => ?_, fun htab => ?_⟩
    · cases hblank ' ' hspace
    · cases hblank '\t' htab
  · rintro ⟨hne, hspace, htab⟩
    have hsplit : t.splitOnP (fun c => c = ' ' || c = '\t') = [t] := by
      refine List.splitOnP_eq_singleton fun c hc => ?_
      have hc₁ : c ≠ ' ' := fun heq => hspace (heq ▸ hc)
      have hc₂ : c ≠ '\t' := fun heq => htab (heq ▸ hc)
      simp [hc₁, hc₂]
    rw [words, hsplit]
    simp [hne]

end

/-! ### Replacing the references of a list -/

namespace Element

/-- What the element is to become: a reference alone the items of its value, and everything else one
path. -/
def texts (env : EvalEnv) (expandNodes : ExpandNodes) (e : Element) : Option (List Text) :=
  (e.replaced env expandNodes).map fun t => if e.isReference then words t else [t]

/-- The parser takes the path of the element, and what it is replaced by. -/
structure Accepted (w : RuleWorld) (bl : Option (List Text)) (env : EvalEnv) (expandNodes : ExpandNodes)
    (e : Element) : Prop where
  read : ∃ pl, newPl w.tf e.unquoted bl = some pl
  replaced : ∃ t, e.replaced env expandNodes = some t ∧
    (t ≠ e.unquoted → ∀ p ∈ words t, ∃ pl, newPl w.tf p none = some pl)

/-- Replacing the references leaves the element as it is or has no blank in its result, which then is
not empty. For a reference alone it is the other way around: when it is left as it is, it has no blank. -/
def Whole (env : EvalEnv) (expandNodes : ExpandNodes) (e : Element) : Prop :=
  ∀ t, e.replaced env expandNodes = some t →
    if e.isReference then t = e.unquoted → ' ' ∉ t ∧ '\t' ∉ t
    else t = e.unquoted ∨ t ≠ [] ∧ ' ' ∉ t ∧ '\t' ∉ t

end Element

/-- The paths of a text, with their references replaced. -/
def readPaths (w : RuleWorld) (env : EvalEnv) (expandNodes : ExpandNodes) (bl : Option (List Text))
    (inputNl : Option FoundList) (p : Text) : Option (List RulePath) :=
  (getPathList w.tf bl .rule p).bind (evalPathList { w with eval := eval env expandNodes } inputNl)

/-- The texts of the paths with a number. -/
def textsAt (pls : List RulePath) (orderid : ℕ) : List Text :=
  (pls.filter (·.orderid = orderid)).map (·.mem)

theorem tupPrintf_of_not_mem {args : PrintfArgs} {b : Bool} {s : Text} (h : '%' ∉ s) :
    tupPrintf args b s = some s := by
  induction s with
  | nil => rfl
  | cons c s ih =>
    rw [List.mem_cons, not_or] at h
    unfold tupPrintf at ih ⊢
    rw [List.length_cons, tupPrintfLoop, if_neg (Ne.symm h.1), ih h.2]
    rfl

theorem exists_mapM_iff {α β : Type} {f : α → Option β} {l : List α} :
    (∃ l', l.mapM f = some l') ↔ ∀ x ∈ l, ∃ y, f x = some y := by
  induction l with
  | nil => simp
  | cons x l ih =>
    rw [List.forall_mem_cons, ← ih]
    constructor
    · rintro ⟨l', h⟩
      rw [List.mapM_cons] at h
      obtain ⟨y, hy, h⟩ := Option.bind_eq_some_iff.1 h
      obtain ⟨ys, hys, -⟩ := Option.bind_eq_some_iff.1 h
      exact ⟨⟨y, hy⟩, ys, hys⟩
    · rintro ⟨⟨y, hy⟩, ys, hys⟩
      exact ⟨y :: ys, by rw [List.mapM_cons, hy, hys]; rfl⟩

theorem mapM_bind_mapM {α β γ : Type} (f : α → Option β) (g : β → Option γ) (l : List α) :
    ((l.mapM f).bind fun ys => ys.mapM g) = l.mapM fun x => (f x).bind g := by
  induction l with
  | nil => rfl
  | cons x l ih =>
    rw [List.mapM_cons, List.mapM_cons, ← ih]
    cases f x with
    | none => rfl
    | some y =>
      cases l.mapM f with
      | none => cases hg : g y <;> simp [hg]
      | some ys =>
        dsimp only [Option.bind_eq_bind, Option.bind_some, Option.pure_def]
        rw [List.mapM_cons]
        rfl

section

variable {w : RuleWorld} {env : EvalEnv} {expandNodes : ExpandNodes} {bl : Option (List Text)}
  {inputNl : Option FoundList} {e : Element} {k : ℕ} {pl : RulePath} {t : Text}

theorem eval_unquoted (e : Element) : eval env expandNodes e.unquoted = e.replaced env expandNodes := by
  unfold eval Element.replaced Element.unquoted
  rw [evalLoop_pieces e.legible le_rfl]

theorem newPl_mem {tf : Tupfile} {p : Text} {newpl : PathList} (h : newPl tf p bl = some newpl) :
    newpl.mem = p := by
  unfold newPl at h
  grind

theorem Element.path_spec {tf : Tupfile} (h : e.path tf bl k = some pl) :
    pl.mem = e.unquoted ∧ pl.orderid = k := by
  obtain ⟨newpl, hpl, rfl⟩ := Option.map_eq_some_iff.1 h
  exact ⟨newPl_mem hpl, rfl⟩

/-- A word of the result as a path, with what the path had. -/
def renewed (w : RuleWorld) (pl : RulePath) (newpl : PathList) : RulePath :=
  { newpl with
    tentRelative := pl.tentRelative && !w.callerPathVar pl.mem
    orderid := pl.orderid
    origin := pl.origin }

/-- A text without flags is not changed by the inputs. -/
theorem evalPath_input (hpercent : inputNl = none ∨ '%' ∉ t) :
    (inputNl.elim (some t) fun nl => tupPrintf { nl := nl.names, dirName := w.dirName } true t) =
      some t := by
  cases inputNl with
  | none => rfl
  | some nl => exact tupPrintf_of_not_mem (hpercent.resolve_left nofun)

theorem evalPath_eq (hpercent : inputNl = none ∨ '%' ∉ e.unquoted) (h : e.path w.tf bl k = some pl) :
    evalPath { w with eval := eval env expandNodes } inputNl pl =
      (e.replaced env expandNodes).bind fun t => if t = e.unquoted then some [pl]
        else (words t).mapM fun p => (newPl w.tf p none).map (renewed w pl) := by
  obtain ⟨hmem, -⟩ := Element.path_spec h
  have hinput := evalPath_input (w := w) (hmem ▸ hpercent : inputNl = none ∨ '%' ∉ pl.mem)
  unfold evalPath
  dsimp only
  rw [hinput]
  dsimp only [Option.bind_eq_bind, Option.bind_some]
  rw [← eval_unquoted, ← hmem]
  rfl

/-- Something becomes of the path of an element when the parser takes it. -/
theorem exists_evalPath_iff (hpercent : inputNl = none ∨ '%' ∉ e.unquoted)
    (h : e.path w.tf bl k = some pl) :
    (∃ part, evalPath { w with eval := eval env expandNodes } inputNl pl = some part) ↔
      ∃ t, e.replaced env expandNodes = some t ∧
        (t ≠ e.unquoted → ∀ p ∈ words t, ∃ pl, newPl w.tf p none = some pl) := by
  have hwords : ∀ t, (∃ part, (words t).mapM (fun p => (newPl w.tf p none).map (renewed w pl)) =
      some part) ↔ ∀ p ∈ words t, ∃ pl, newPl w.tf p none = some pl := by
    intro t
    rw [exists_mapM_iff]
    simp only [Option.map_eq_some_iff]
    constructor
    · intro hp p hmem
      obtain ⟨-, pl, hpl, -⟩ := hp p hmem
      exact ⟨pl, hpl⟩
    · intro hp p hmem
      obtain ⟨pl, hpl⟩ := hp p hmem
      exact ⟨_, pl, hpl, rfl⟩
  rw [evalPath_eq hpercent h]
  constructor
  · rintro ⟨part, hpart⟩
    obtain ⟨t, ht, hpart⟩ := Option.bind_eq_some_iff.1 hpart
    refine ⟨t, ht, fun hne => ?_⟩
    rw [if_neg hne] at hpart
    exact (hwords t).1 ⟨part, hpart⟩
  · rintro ⟨t, ht, hp⟩
    rw [ht, Option.bind_some]
    by_cases hne : t = e.unquoted
    · exact ⟨[pl], if_pos hne⟩
    · rw [if_neg hne]
      exact (hwords t).2 (hp hne)

/-- A path whose text is left as it is stays, and any other is taken apart. -/
theorem evalPath_mem {tinput : Text} {part : List RulePath}
    (hinput : (inputNl.elim (some pl.mem) fun nl =>
      tupPrintf { nl := nl.names, dirName := w.dirName } true pl.mem) = some tinput)
    (h : evalPath w inputNl pl = some part) :
    ∃ t, w.eval tinput = some t ∧ part.map (·.mem) = if t = pl.mem then [t] else words t := by
  unfold evalPath at h
  rw [hinput, Option.bind_eq_bind, Option.bind_some] at h
  obtain ⟨t, ht, h⟩ := Option.bind_eq_some_iff.1 h
  refine ⟨t, ht, ?_⟩
  split at h
  · next heq =>
    cases h
    rw [if_pos heq, heq]
    rfl
  · next hne =>
    have hmem : ∀ p q, (newPl w.tf p none).map (renewed w pl) = some q → q.mem = p := by
      intro p q hq
      obtain ⟨newpl, hnew, rfl⟩ := Option.map_eq_some_iff.1 hq
      have hp : newpl.mem = p := newPl_mem hnew
      exact hp
    have hmap := map_eq_of_forall₂ (f := id) (forall₂_of_mapM hmem h)
    rw [if_neg hne]
    exact hmap.trans (List.map_id _)

/-- What becomes of the path of an element. -/
theorem evalPath_texts {part : List RulePath} (hpercent : inputNl = none ∨ '%' ∉ e.unquoted)
    (h : e.path w.tf bl k = some pl)
    (hpart : evalPath { w with eval := eval env expandNodes } inputNl pl = some part) :
    ∃ t, e.replaced env expandNodes = some t ∧
      part.map (·.mem) = (if t = e.unquoted then [t] else words t) := by
  have hmem := (Element.path_spec h).1
  rw [← hmem] at hpercent
  obtain ⟨t, ht, hpart⟩ := evalPath_mem (evalPath_input hpercent) hpart
  rw [← eval_unquoted, ← hmem]
  exact ⟨t, ht, hpart⟩

theorem Element.unquoted_ne_nil (h : e.isReference = true) : e.unquoted ≠ [] := by
  unfold Element.isReference at h
  split at h
  · next sign name hparts =>
    unfold Element.unquoted
    rw [hparts]
    exact nofun
  · cases h

/-- The element becomes what it is to become when replacing its references leaves it whole. -/
theorem Element.whole_iff (ht : e.replaced env expandNodes = some t) :
    some (if t = e.unquoted then [t] else words t) = e.texts env expandNodes ↔
      e.Whole env expandNodes := by
  have hwhole : e.Whole env expandNodes ↔ (if e.isReference then t = e.unquoted → ' ' ∉ t ∧ '\t' ∉ t
      else t = e.unquoted ∨ t ≠ [] ∧ ' ' ∉ t ∧ '\t' ∉ t) := by
    unfold Element.Whole
    rw [ht]
    simp
  unfold Element.texts
  rw [hwhole, ht, Option.map_some, Option.some.injEq]
  cases href : e.isReference with
  | true =>
    rw [if_pos rfl, if_pos rfl]
    by_cases heq : t = e.unquoted
    · have hne : t ≠ [] := heq ▸ unquoted_ne_nil href
      rw [if_pos heq, eq_comm, words_eq_singleton_iff]
      exact ⟨fun h _ => h.2, fun h => ⟨hne, h heq⟩⟩
    · rw [if_neg heq]
      exact iff_of_true rfl fun h => absurd h heq
  | false =>
    rw [if_neg Bool.false_ne_true, if_neg Bool.false_ne_true]
    by_cases heq : t = e.unquoted
    · rw [if_pos heq]
      exact iff_of_true rfl (.inl heq)
    · rw [if_neg heq, words_eq_singleton_iff]
      exact ⟨.inr, fun h => h.resolve_left heq⟩

/-! ### One path for each element -/

variable {es : List (Element × Text)} {pls : List RulePath}

theorem textsAt_append (pls' : List RulePath) :
    textsAt (pls ++ pls') k = textsAt pls k ++ textsAt pls' k := by
  simp [textsAt]

theorem textsAt_eq (h : ∀ pl ∈ pls, pl.orderid = k) : textsAt pls k = pls.map (·.mem) := by
  have hfilter : pls.filter (·.orderid = k) = pls :=
    List.filter_eq_self.2 fun pl hpl => decide_eq_true (h pl hpl)
  rw [textsAt, hfilter]

theorem textsAt_eq_nil (h : ∀ pl ∈ pls, pl.orderid ≠ k) : textsAt pls k = [] := by
  have hfilter : pls.filter (·.orderid = k) = [] :=
    List.filter_eq_nil_iff.2 fun pl hpl => by simpa using h pl hpl
  rw [textsAt, hfilter]
  rfl

/-- The parts that the elements of a list become stand in their order. -/
theorem textsAt_flatten {α : Type} {l : List α} {parts : List (List RulePath)}
    (h : List.Forall₂ (fun (x : α × ℕ) part => ∀ pl ∈ part, pl.orderid = x.2) (l.zipIdx k) parts) :
    (∀ pl ∈ parts.flatten, k ≤ pl.orderid) ∧ parts.flatten.Pairwise (·.orderid ≤ ·.orderid) ∧
      ∀ i part, parts[i]? = some part → textsAt parts.flatten (k + i) = part.map (·.mem) := by
  induction l generalizing k parts with
  | nil =>
    cases h
    simp
  | cons x l ih =>
    rw [List.zipIdx_cons] at h
    obtain ⟨part, parts, hpart, hparts, rfl⟩ := List.forall₂_cons_left_iff.1 h
    obtain ⟨hle, hsorted, htexts⟩ := ih hparts
    rw [List.flatten_cons]
    refine ⟨fun pl hpl => ?_, List.pairwise_append.2 ⟨?_, hsorted, ?_⟩, fun i part' hi => ?_⟩
    · rcases List.mem_append.1 hpl with hpl | hpl
      · exact (hpart pl hpl).ge
      · exact Nat.le_of_succ_le (hle pl hpl)
    · refine List.Pairwise.imp_of_mem ?_ (List.pairwise_of_forall (R := fun _ _ => True) fun _ _ => trivial)
      intro pl pl' hpl hpl' _
      rw [hpart pl hpl, hpart pl' hpl']
    · intro pl hpl pl' hpl'
      rw [hpart pl hpl]
      exact Nat.le_of_succ_le (hle pl' hpl')
    rw [textsAt_append]
    cases i with
    | zero =>
      obtain rfl : part = part' := Option.some.inj hi
      rw [Nat.add_zero, textsAt_eq hpart, textsAt_eq_nil fun pl hpl => ?_, List.append_nil]
      exact Nat.ne_of_gt (hle pl hpl)
    | succ i =>
      have hother : ∀ pl ∈ part, pl.orderid ≠ k + (i + 1) := fun pl hpl => by
        rw [hpart pl hpl]
        omega
      rw [textsAt_eq_nil hother, List.nil_append, ← htexts i part' hi, Nat.add_right_comm, Nat.add_assoc]

theorem readPaths_eq (hs : Spaced es) : readPaths w env expandNodes bl inputNl (listText es) =
    ((es.zipIdx 1).mapM fun x : (Element × Text) × ℕ => (x.1.1.path w.tf bl x.2).bind
      (evalPath { w with eval := eval env expandNodes } inputNl)).map List.flatten := by
  unfold readPaths
  rw [getPathList_listText hs, ← mapM_bind_mapM]
  cases (es.zipIdx 1).mapM fun x : (Element × Text) × ℕ => x.1.1.path w.tf bl x.2 <;> rfl

/-- A list is read when the parser takes its elements. -/
theorem exists_readPaths_iff (hs : Spaced es)
    (hpercent : inputNl = none ∨ ∀ x ∈ es, '%' ∉ x.1.unquoted) :
    (∃ pls, readPaths w env expandNodes bl inputNl (listText es) = some pls) ↔
      ∀ x ∈ es, x.1.Accepted w bl env expandNodes := by
  have hone : ∀ x ∈ es, ∀ k, (∃ part, (x.1.path w.tf bl k).bind
      (evalPath { w with eval := eval env expandNodes } inputNl) = some part) ↔
        x.1.Accepted w bl env expandNodes := by
    intro x hx k
    have hx : inputNl = none ∨ '%' ∉ x.1.unquoted := hpercent.imp_right fun h => h x hx
    constructor
    · rintro ⟨part, hpart⟩
      obtain ⟨pl, hpl, hpart⟩ := Option.bind_eq_some_iff.1 hpart
      obtain ⟨newpl, hnew, -⟩ := Option.map_eq_some_iff.1 hpl
      exact ⟨⟨newpl, hnew⟩, (exists_evalPath_iff hx hpl).1 ⟨part, hpart⟩⟩
    · rintro ⟨⟨newpl, hnew⟩, hreplaced⟩
      have hpl : x.1.path w.tf bl k = some { newpl with orderid := k, origin := .rule k } := by
        unfold Element.path
        rw [hnew]
        rfl
      obtain ⟨part, hpart⟩ := (exists_evalPath_iff hx hpl).2 hreplaced
      exact ⟨part, by rw [hpl]; exact hpart⟩
  rw [readPaths_eq hs]
  have hflatten : ∀ r : Option (List (List RulePath)),
      (∃ pls, r.map List.flatten = some pls) ↔ ∃ parts, r = some parts := by
    rintro (- | parts) <;> simp
  rw [hflatten, exists_mapM_iff]
  constructor
  · intro h x hx
    obtain ⟨i, hi, rfl⟩ := List.getElem_of_mem hx
    have hmem : (es[i], 1 + i) ∈ es.zipIdx 1 :=
      List.mk_add_mem_zipIdx_iff_getElem?.2 (List.getElem?_eq_getElem hi)
    exact (hone es[i] hx (1 + i)).1 (h (es[i], 1 + i) hmem)
  · rintro h ⟨x, k⟩ hx
    have hmem : x ∈ es := List.fst_mem_of_mem_zipIdx hx
    exact (hone x hmem k).2 (h x hmem)

/-- What the elements of a list that is read become. -/
theorem readPaths_spec (hs : Spaced es) (hpercent : inputNl = none ∨ ∀ x ∈ es, '%' ∉ x.1.unquoted)
    (h : readPaths w env expandNodes bl inputNl (listText es) = some pls) :
    pls.Pairwise (·.orderid ≤ ·.orderid) ∧ ∀ i e blanks, es[i]? = some (e, blanks) →
      ∃ t, e.replaced env expandNodes = some t ∧
        textsAt pls (i + 1) = if t = e.unquoted then [t] else words t := by
  rw [readPaths_eq hs] at h
  obtain ⟨parts, hparts, rfl⟩ := Option.map_eq_some_iff.1 h
  have hall := forall₂_of_mapM (fun x part hpart => hpart) hparts
  have horder : List.Forall₂ (fun (x : (Element × Text) × ℕ) part => ∀ pl ∈ part, pl.orderid = x.2)
      (es.zipIdx 1) parts := by
    refine hall.imp fun x part hpart q hq => ?_
    obtain ⟨pl, hpl, hpart⟩ := Option.bind_eq_some_iff.1 hpart
    have hkey : q.key = pl.key := evalPath_key hpart q hq
    have horderid : q.orderid = pl.orderid := congrArg Prod.fst hkey
    exact horderid.trans (Element.path_spec hpl).2
  obtain ⟨-, hsorted, htexts⟩ := textsAt_flatten horder
  refine ⟨hsorted, fun i e blanks hi => ?_⟩
  obtain ⟨hlt, hget⟩ := List.getElem?_eq_some_iff.1 hi
  have hlt' : i < parts.length := by
    rw [← hall.length_eq, List.length_zipIdx]
    exact hlt
  have hpart := hall.get (by rw [List.length_zipIdx]; exact hlt) hlt'
  rw [List.get_eq_getElem, List.getElem_zipIdx] at hpart
  dsimp only at hpart
  rw [hget] at hpart
  obtain ⟨pl, hpl, hpart⟩ := Option.bind_eq_some_iff.1 hpart
  have hnone : inputNl = none ∨ '%' ∉ e.unquoted :=
    hpercent.imp_right fun h => h (e, blanks) (hget ▸ List.getElem_mem hlt)
  obtain ⟨t, ht, hmap⟩ := evalPath_texts hnone hpl hpart
  refine ⟨t, ht, ?_⟩
  rw [← hmap, Nat.add_comm i 1]
  exact htexts i _ (List.getElem?_eq_getElem hlt')

end

/-- `$(x)` is `a.c`, and `$(srcs)` is `a.c b.c`. -/
def twoVariables : EvalEnv where
  value _ name := if name = ['x'] then some "a.c".toList else some "a.c b.c".toList
  runScript _ := none
  nodePath _ := none

/-- `my\ dir/a.c` -/
def escapedElement : Element where
  parts := [.lit 'm', .lit 'y', .escaped ' ', .lit 'd', .lit 'i', .lit 'r']
  ne_nil := nofun
  closed := by simp [Protected, isSpace]
  legible := ⟨by simp [pieces, Part.piece], by simp [pieces, Part.piece]⟩

/-- `$(srcs)` -/
def listElement : Element where
  parts := [.ref '$' "srcs".toList]
  ne_nil := nofun
  closed := rfl
  legible := by
    refine ⟨fun sign name hmem => ?_, .singleton _⟩
    obtain ⟨rfl, rfl⟩ : sign = '$' ∧ name = "srcs".toList := by simpa [pieces, Part.piece] using hmem
    exact ⟨rfl, by simp [Balanced], by simp⟩

/-- `"my dir/$(x)"` -/
def quotedElement : Element where
  parts := [.quote, .lit 'm', .lit 'y', .lit ' ', .lit 'd', .lit 'i', .lit 'r', .lit '/', .ref '$' ['x'],
    .quote]
  ne_nil := nofun
  closed := by simp [Protected, isSpace]
  legible := by
    refine ⟨fun sign name hmem => ?_, by simp [pieces, Part.piece, Piece.IsSign, isSign, List.filterMap]⟩
    obtain ⟨rfl, rfl⟩ : '$' = sign ∧ ['x'] = name := by simpa [pieces, Part.piece] using hmem
    exact ⟨rfl, by simp [Balanced], by simp⟩

end Metatup.Eval
