import Mathlib.Data.List.Basic
import Mathlib.Data.List.Flatten

/-!
# Words of a shell

How a shell takes a command apart. A character is bare, or it is quoted by the quotation marks around it
or by a backslash in front of it. Bare blanks and operators end a word; what a word stands for is left of
it once the marks are removed. Nothing is expanded, so that `$` and the backquote are ordinary characters.

A reader of quoted text is a parameter where only the marks matter: readers differ in the marks between
which a backslash quotes.

* `read_append`, `value_append`: a text is read in parts.
* `split_append_blank`: what is behind a bare blank is split on its own.
* `complete_word`, `split_word`: a text without bare blanks and operators is one word.
-/

namespace Metatup.Lib.ShellWords

/-! ### Quoted text -/

/-- The quotation marks around a character. -/
inductive Mode
  | bare
  | single
  | double
  deriving DecidableEq

/-- The marks around what is behind a character that no backslash quotes. -/
def Mode.next : Mode → Char → Mode
  | .bare, c => if c = '\'' then .single else if c = '"' then .double else .bare
  | .single, c => if c = '\'' then .bare else .single
  | .double, c => if c = '"' then .bare else .double

/-- Where a reader stands. -/
structure Quote where
  mode : Mode
  /-- A backslash in front quotes the next character. -/
  escaped : Bool
  deriving DecidableEq

/-- Between the marks `m`, with no backslash in front. -/
def inside (m : Mode) : Quote := ⟨m, false⟩

/-- One character, where a backslash quotes between the marks of `slash`. -/
def Quote.step (slash : Mode → Bool) (q : Quote) (c : Char) : Quote :=
  if q.escaped then inside q.mode
  else if c = '\\' ∧ slash q.mode = true then ⟨q.mode, true⟩
  else inside (q.mode.next c)

/-- Read a text in which no bare character is one of `stop`. -/
def read (slash : Mode → Bool) (stop : Char → Bool) : Quote → List Char → Option Quote
  | q, [] => some q
  | q, c :: s => if q = inside .bare ∧ stop c = true then none else read slash stop (q.step slash c) s

/-- Between single quotes a backslash is an ordinary character. -/
def posix : Mode → Bool
  | .single => false
  | _ => true

/-- What a character adds to the word that it is read in. Between double quotes a backslash stays in front
of what it does not quote there; in front of the end of a line it joins the lines. -/
def emit (q : Quote) (c : Char) : List Char :=
  if q.escaped then
    if c = '\n' then []
    else if q.mode = .double ∧ c ∉ ['$', '`', '"', '\\'] then ['\\', c]
    else [c]
  else if c = '\\' ∧ posix q.mode = true then []
  else if q.mode.next c = q.mode then [c]
  else []

/-- What is left of a text without the marks. -/
def value : Quote → List Char → List Char
  | _, [] => []
  | q, c :: s => emit q c ++ value (q.step posix c) s

/-- What a word stands for. -/
def unquote (s : List Char) : List Char := value (inside .bare) s

section

variable {slash : Mode → Bool} {stop : Char → Bool} {q q' : Quote} {s t : List Char} {c : Char}

theorem read_append (slash : Mode → Bool) (stop : Char → Bool) (q : Quote) (s t : List Char) :
    read slash stop q (s ++ t) = (read slash stop q s).bind (read slash stop · t) := by
  induction s generalizing q with
  | nil => rfl
  | cons c s ih =>
    rw [List.cons_append, read, read]
    split
    · rfl
    · exact ih _

theorem foldl_step_of_read (h : read slash stop q s = some q') : s.foldl (Quote.step slash) q = q' := by
  induction s generalizing q with
  | nil => exact Option.some.inj h
  | cons c s ih =>
    rw [read] at h
    split at h
    · cases h
    · exact ih h

theorem value_append (q : Quote) (s t : List Char) :
    value q (s ++ t) = value q s ++ value (s.foldl (Quote.step posix) q) t := by
  induction s generalizing q with
  | nil => rfl
  | cons c s ih => rw [List.cons_append, value, value, ih, List.append_assoc, List.foldl_cons]

theorem mem_value (h : c ∈ value q s) : c ∈ s ∨ c = '\\' := by
  induction s generalizing q with
  | nil => exact absurd h List.not_mem_nil
  | cons d s ih =>
    rw [value, List.mem_append] at h
    rcases h with h | h
    · unfold emit at h
      split_ifs at h <;> simp_all
      tauto
    · rcases ih h with h | h
      · exact Or.inl (List.mem_cons_of_mem _ h)
      · exact Or.inr h

end

/-! ### Words -/

/-- What a command is taken apart into. -/
inductive Item
  | word (s : List Char)
  | operator (c : Char)
  deriving DecidableEq

def isBlank (c : Char) : Bool := c = ' ' || c = '\t'

/-- The characters of the operators, the end of a line among them. -/
def isOperator (c : Char) : Bool := c ∈ [';', '&', '|', '<', '>', '(', ')', '\n']

/-- What a bare character of a word is not. -/
def isStop (c : Char) : Bool := isBlank c || isOperator c

/-- A command being taken apart. -/
structure Lexer where
  /-- The words and operators that are complete. -/
  items : List Item
  /-- The word that is being read, with its marks. -/
  word : Option (List Char)
  quote : Quote
  /-- A bare `#` has started a comment where no word was being read. -/
  comment : Bool
  deriving DecidableEq

/-- Between two words. -/
def between (l : List Item) : Lexer := ⟨l, none, inside .bare, false⟩

/-- The items once the word being read is complete. -/
def Lexer.flush (s : Lexer) : List Item := s.items ++ s.word.toList.map .word

@[simp] theorem between_quote (l : List Item) : (between l).quote = inside .bare := rfl

@[simp] theorem between_comment (l : List Item) : (between l).comment = false := rfl

@[simp] theorem flush_between (l : List Item) : (between l).flush = l := List.append_nil l

/-- Read one more character of the word. -/
def Lexer.push (s : Lexer) (c : Char) : Lexer :=
  { s with word := some (s.word.getD [] ++ [c]), quote := s.quote.step posix c }

/-- Take back the backslash that joins two lines. -/
def Lexer.joinLines (s : Lexer) : Lexer :=
  { s with
    word := if (s.word.getD []).dropLast = [] then none else some (s.word.getD []).dropLast
    quote := inside s.quote.mode }

def Lexer.step (s : Lexer) (c : Char) : Lexer :=
  if s.comment then if c = '\n' then between (s.items ++ [.operator c]) else s
  else if s.quote = inside .bare then
    if isBlank c then between s.flush
    else if isOperator c then between (s.flush ++ [.operator c])
    else if c = '#' ∧ s.word = none then { s with comment := true }
    else s.push c
  else if s.quote.escaped ∧ c = '\n' then s.joinLines
  else s.push c

/-- The words and operators of a command, when no quotation mark is left open. -/
def split (s : List Char) : Option (List Item) :=
  let r := s.foldl Lexer.step (between [])
  if r.quote = inside .bare then some r.flush else none

/-- The words and operators of a part of a command, when what is behind it is read as after a word. -/
def complete (s : List Char) : Option (List Item) :=
  let r := s.foldl Lexer.step (between [])
  if r.quote = inside .bare ∧ r.comment = false then some r.flush else none

/-- What an item stands for. -/
def Item.unquoted : Item → Item
  | .word s => .word (unquote s)
  | .operator c => .operator c

section

variable {q' : Quote} {s t : List Char} {l : List Item} {b : Char}

/-- The complete items are only added to. -/
theorem step_items (l : List Item) (s : Lexer) (c : Char) :
    Lexer.step { s with items := l ++ s.items } c =
      { s.step c with items := l ++ (s.step c).items } := by
  unfold Lexer.step Lexer.flush between Lexer.push Lexer.joinLines
  dsimp only
  split_ifs <;> simp

theorem foldl_between (l : List Item) (t : List Char) :
    t.foldl Lexer.step (between l) =
      { t.foldl Lexer.step (between []) with items := l ++ (t.foldl Lexer.step (between [])).items } := by
  have key : ∀ (t : List Char) (s : Lexer), t.foldl Lexer.step { s with items := l ++ s.items } =
      { t.foldl Lexer.step s with items := l ++ (t.foldl Lexer.step s).items } := by
    intro t
    induction t with
    | nil => exact fun _ => rfl
    | cons c t ih =>
      intro s
      rw [List.foldl_cons, step_items, ih, List.foldl_cons]
  rw [← key t (between [])]
  exact congrArg (List.foldl Lexer.step · t) (congrArg between (List.append_nil l).symm)

theorem step_blank {s : Lexer} (hq : s.quote = inside .bare) (hc : s.comment = false)
    (hb : isBlank b = true) : s.step b = between s.flush := by
  unfold Lexer.step
  rw [if_neg (by simp [hc]), if_pos hq, if_pos hb]

theorem split_of_complete (h : complete s = some l) : split s = some l := by
  unfold complete at h
  unfold split
  dsimp only at h ⊢
  split at h
  · next hcond => rw [if_pos hcond.1, ← h]
  · cases h

theorem split_append_blank (h : complete s = some l) (hb : isBlank b = true) (t : List Char) :
    split (s ++ b :: t) = (split t).map (l ++ ·) := by
  unfold complete at h
  dsimp only at h
  split at h
  · next hcond =>
    unfold split
    rw [List.foldl_append, List.foldl_cons, step_blank hcond.1 hcond.2 hb, Option.some.inj h,
      foldl_between l t]
    dsimp only
    split
    · simp [Lexer.flush]
    · rfl
  · cases h

/-- Blanks in front of a command are passed over. -/
theorem split_blanks {s : List Char} (h : ∀ c ∈ s, isBlank c = true) (t : List Char) :
    split (s ++ t) = split t := by
  induction s with
  | nil => rfl
  | cons b s ih =>
    rw [List.forall_mem_cons] at h
    have hnil : complete [] = some [] := rfl
    have hstep := split_append_blank hnil h.1 (s ++ t)
    rw [List.nil_append, ih h.2] at hstep
    rw [List.cons_append, hstep]
    simp

/-- A text is split in parts where the second is empty or begins with a blank. -/
theorem split_append (h : complete s = some l) (ht : t = [] ∨ ∃ b r, t = b :: r ∧ isBlank b = true) :
    split (s ++ t) = (split t).map (l ++ ·) := by
  rcases ht with rfl | ⟨b, r, rfl, hb⟩
  · rw [List.append_nil, split_of_complete h]
    exact congrArg some (List.append_nil l).symm
  · have hblank : split (b :: r) = split r := split_blanks (s := [b]) (by simpa using hb) r
    rw [split_append_blank h hb, hblank]

/-- A comment ends at the end of its line. -/
theorem foldl_comment {r : Lexer} (h : r.comment = true) (hline : '\n' ∉ t) : t.foldl Lexer.step r = r := by
  induction t with
  | nil => rfl
  | cons c t ih =>
    rw [List.mem_cons, not_or] at hline
    have hstep : r.step c = r := by
      unfold Lexer.step
      rw [if_pos h, if_neg (Ne.symm hline.1)]
    rw [List.foldl_cons, hstep, ih hline.2]

theorem comment_of_head (h : s.head? = some '#') (hline : '\n' ∉ s) :
    (s.foldl Lexer.step (between [])).comment = true := by
  obtain ⟨t, rfl⟩ := List.head?_eq_some_iff.1 h
  have hcomment : ((between []).step '#').comment = true := rfl
  rw [List.foldl_cons, foldl_comment hcomment fun hmem => hline (List.mem_cons_of_mem _ hmem)]
  exact hcomment

theorem split_append_comment (h : (s.foldl Lexer.step (between [])).comment = true) (hline : '\n' ∉ t) :
    split (s ++ t) = split s := by
  unfold split
  rw [List.foldl_append, foldl_comment h hline]

/-- A word goes on over a text that ends it nowhere. -/
theorem foldl_word {q : Quote} (w : List Char) (h : read posix isStop q s = some q') (hline : '\n' ∉ s) :
    s.foldl Lexer.step ⟨[], some w, q, false⟩ = ⟨[], some (w ++ s), q', false⟩ := by
  induction s generalizing q w with
  | nil => rw [List.append_nil, Option.some.inj h]; rfl
  | cons c s ih =>
    rw [List.mem_cons, not_or] at hline
    rw [read] at h
    split at h
    · cases h
    · next hstop =>
      have hstep : Lexer.step ⟨[], some w, q, false⟩ c =
          ⟨[], some (w ++ [c]), q.step posix c, false⟩ := by
        unfold Lexer.step
        dsimp only
        rw [if_neg Bool.false_ne_true]
        split
        · next hq =>
          have hnot : isBlank c = false ∧ isOperator c = false := by
            have hc : isStop c ≠ true := fun hc => hstop ⟨hq, hc⟩
            simpa [isStop] using hc
          rw [if_neg (by simp [hnot.1]), if_neg (by simp [hnot.2]), if_neg (by simp)]
          rfl
        · rw [if_neg fun h => hline.1 h.2.symm]
          rfl
      rw [List.foldl_cons, hstep, ih _ h hline.2, List.append_assoc]
      rfl

theorem foldl_of_read (h : read posix isStop (inside .bare) s = some q') (hne : s ≠ [])
    (hcomment : s.head? ≠ some '#') (hline : '\n' ∉ s) :
    s.foldl Lexer.step (between []) = ⟨[], some s, q', false⟩ := by
  cases s with
  | nil => exact absurd rfl hne
  | cons c s =>
    have hhash : c ≠ '#' := fun hc => hcomment (congrArg some hc)
    rw [List.mem_cons, not_or] at hline
    rw [read] at h
    split at h
    · cases h
    · next hstop =>
      have hnot : isBlank c = false ∧ isOperator c = false := by
        have hc : isStop c ≠ true := fun hc => hstop ⟨rfl, hc⟩
        simpa [isStop] using hc
      have hstep : (between []).step c = ⟨[], some [c], (inside .bare).step posix c, false⟩ := by
        unfold Lexer.step between
        dsimp only
        rw [if_neg Bool.false_ne_true, if_pos rfl, if_neg (by simp [hnot.1]), if_neg (by simp [hnot.2]),
          if_neg fun h => hhash h.1]
        rfl
      rw [List.foldl_cons, hstep, foldl_word _ h hline.2]
      rfl

/-- An operator ends the word in front of it. -/
theorem complete_append_operator {w : List Char} (h : read posix isStop (inside .bare) w = some (inside .bare))
    (hne : w ≠ []) (hcomment : w.head? ≠ some '#') (hline : '\n' ∉ w) (hb : isOperator b = true)
    (t : List Char) : complete (w ++ b :: t) = (complete (b :: t)).map (.word w :: ·) := by
  have hblank : isBlank b = false := by
    have hops : [';', '&', '|', '<', '>', '(', ')', '\n'].all (fun c => !isBlank c) = true := by decide
    simpa using List.all_eq_true.1 hops b (by simpa [isOperator] using hb)
  have hstep : ∀ s : Lexer, s.quote = inside .bare → s.comment = false →
      s.step b = between (s.flush ++ [.operator b]) := by
    intro s hq hc
    unfold Lexer.step
    rw [if_neg (by simp [hc]), if_pos hq, if_neg (by simp [hblank]), if_pos hb]
  unfold complete
  rw [List.foldl_append, foldl_of_read h hne hcomment hline, List.foldl_cons, hstep _ rfl rfl,
    List.foldl_cons, hstep (between []) rfl rfl, foldl_between, foldl_between ((between []).flush ++ _)]
  dsimp only
  split
  · simp [Lexer.flush, between]
  · rfl

theorem complete_word (h : read posix isStop (inside .bare) s = some (inside .bare)) (hne : s ≠ [])
    (hcomment : s.head? ≠ some '#') (hline : '\n' ∉ s) : complete s = some [.word s] := by
  unfold complete
  rw [foldl_of_read h hne hcomment hline]
  rfl

end

end Metatup.Lib.ShellWords
