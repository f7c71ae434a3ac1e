import Metatup.Lib.Yaml
import Mathlib.Algebra.GroupWithZero.Nat

/-!
# A reader of block style

A reader of the texts that `Block` describes. On other texts it gives up, where a reader of all of YAML
may have more to say.

* `readBlocks`: the reader.
* `readBlocks_spec`: it reads blocks.
-/

namespace Metatup.Lib.Yaml

/-! ### The reader -/

/-- The value of a double-quoted scalar and what comes after it. -/
def scanQuoted : List Char → Option (List Char × List Char)
  | [] => none
  | '"' :: rest => some ([], rest)
  | '\\' :: '"' :: s => (scanQuoted s).map fun (v, rest) => ('"' :: v, rest)
  | '\\' :: '\\' :: s => (scanQuoted s).map fun (v, rest) => ('\\' :: v, rest)
  | c :: s =>
    if c ≠ '\\' ∧ isInLine c = true then (scanQuoted s).map fun (v, rest) => (c :: v, rest)
    else none

/-- The value of a scalar that ends the line. -/
def scanScalar : List Char → Option (List Char)
  | '"' :: s =>
    match scanQuoted s with
    | some (v, []) => some v
    | _ => none
  | s => if plainOk s then some s else none

/-- The value of a key and what comes after its colon. -/
def scanKey : List Char → Option (List Char × List Char)
  | '"' :: s =>
    match scanQuoted s with
    | some (v, ':' :: rest) => some (v, rest)
    | _ => none
  | s =>
    match s.dropWhile isWordChar with
    | ':' :: rest => some (s.takeWhile isWordChar, rest)
    | _ => none

/-- The collection whose first line this is. -/
def kindOf : List Char → Kind
  | '-' :: ' ' :: _ => .sequence
  | _ => .mapping

/-- The parts of a collection at this indentation, up to the first line that is indented less. The fuel
bounds the number of characters. -/
def readBlock : ℕ → Kind → ℕ → List Line → Option (List Event × List Line)
  | 0, _, _, _ => none
  | _ + 1, _, _, [] => some ([], [])
  | fuel + 1, kind, n, l :: rest =>
    if l.indent < n then some ([], l :: rest)
    else if n < l.indent then none
    else match kind with
      | .mapping =>
        match scanKey l.content with
        | some (k, ' ' :: value) => do
          let v ← scanScalar value
          let (events, rest) ← readBlock fuel .mapping n rest
          some (.scalar k :: .scalar v :: events, rest)
        | some (k, []) =>
          match rest with
          | [] => none
          | first :: _ =>
            if n < first.indent then do
              let kind := kindOf first.content
              let (subEvents, rest) ← readBlock fuel kind first.indent rest
              let (events, rest) ← readBlock fuel .mapping n rest
              some (.scalar k :: kind.start :: (subEvents ++ kind.stop :: events), rest)
            else none
        | _ => none
      | .sequence =>
        match l.content with
        | '-' :: ' ' :: c => do
          let kind := kindOf c
          let (subEvents, rest) ← readBlock fuel kind (n + 2) (⟨n + 2, c⟩ :: rest)
          let (events, rest) ← readBlock fuel .sequence n rest
          some (kind.start :: (subEvents ++ kind.stop :: events), rest)
        | _ => none

/-- The lines of a text, the last of which may lack its line feed. -/
def splitLines : List Char → List Char → List (List Char)
  | [], [] => []
  | c :: current, [] => [(c :: current).reverse]
  | current, '\n' :: s => current.reverse :: splitLines [] s
  | current, c :: s => splitLines (c :: current) s

/-- The spaces of a line and the rest of it. -/
def lineOf (s : List Char) : Line := ⟨(s.takeWhile (· = ' ')).length, s.dropWhile (· = ' ')⟩

/-- The reader. -/
def readBlocks (text : List Char) : List Event :=
  match (splitLines [] text).map lineOf with
  | [] => []
  | l :: rest =>
    match readBlock (text.length + 1) (kindOf l.content) 0 (l :: rest) with
    | some (events, []) => streamOf (kindOf l.content) events
    | _ => []

/-! ### Scalars -/

theorem scanQuoted_unquote {body s : List Char} (h : unquote body = some s) (rest : List Char) :
    scanQuoted (body ++ '"' :: rest) = some (s, rest) := by
  induction body using unquote.induct generalizing s with
  | case1 =>
    cases h
    rfl
  | case2 t ih =>
    obtain ⟨v, hv, rfl⟩ := Option.map_eq_some_iff.1 (by simpa only [unquote] using h)
    simp [scanQuoted, ih hv]
  | case3 t ih =>
    obtain ⟨v, hv, rfl⟩ := Option.map_eq_some_iff.1 (by simpa only [unquote] using h)
    simp [scanQuoted, ih hv]
  | case4 c t _ _ hc ih =>
    rw [unquote] at h
    · rw [if_pos hc] at h
      obtain ⟨v, hv, rfl⟩ := Option.map_eq_some_iff.1 h
      obtain ⟨hback, hquote, hline⟩ := hc
      rw [List.cons_append, scanQuoted]
      · rw [if_pos ⟨hback, hline⟩, ih hv]
        rfl
      · exact fun heq => hquote heq
      · rintro _ rfl
        exact absurd rfl hback
      · rintro _ rfl
        exact absurd rfl hback
    · assumption
    · assumption
  | case5 c t _ _ hc =>
    rw [unquote] at h
    · rw [if_neg hc] at h
      cases h
    · assumption
    · assumption

theorem scanScalar_scalar {written value : List Char} (h : Scalar written value) :
    scanScalar written = some value := by
  cases h with
  | plain hok =>
    unfold scanScalar
    split
    · next s =>
      -- no plain scalar begins with a quote
      simp [plainOk, plainStart] at hok
    · exact if_pos hok
  | quoted hbody =>
    show (match scanQuoted _ with
      | some (v, []) => some v
      | _ => none) = some value
    rw [scanQuoted_unquote hbody]

theorem scanKey_key {written key : List Char} (h : Key written key) (rest : List Char) :
    scanKey (written ++ ':' :: rest) = some (key, rest) := by
  cases h with
  | word hne hall _ =>
    have hcolon : isWordChar ':' = false := by decide
    have htake : (written ++ ':' :: rest).takeWhile isWordChar = written := by
      rw [List.takeWhile_append_of_pos (List.all_eq_true.1 hall), List.takeWhile_cons_of_neg (by simp [hcolon])]
      exact List.append_nil _
    have hdrop : (written ++ ':' :: rest).dropWhile isWordChar = ':' :: rest := by
      rw [List.dropWhile_append_of_pos (List.all_eq_true.1 hall), List.dropWhile_cons_of_neg (by simp [hcolon])]
    unfold scanKey
    split
    · next s heq =>
      -- no word begins with a quote
      obtain ⟨c, t, rfl⟩ := List.exists_cons_of_ne_nil hne
      have hquote : isWordChar '"' = false := by decide
      have hc : c = '"' := (List.cons.inj heq).1
      have hword := List.all_eq_true.1 hall c List.mem_cons_self
      rw [hc, hquote] at hword
      cases hword
    · rw [hdrop, htake]
      rfl
  | @quoted body _ hbody _ =>
    have hwritten : quoted body ++ ':' :: rest = '"' :: (body ++ '"' :: ':' :: rest) := by
      simp [quoted]
    rw [hwritten, scanKey, scanQuoted_unquote hbody]
    rfl

/-! ### Lines -/

/-- The characters of a line. -/
theorem unquote_inLine {body s : List Char} (h : unquote body = some s) :
    ∀ c ∈ body, isInLine c = true := by
  have hback : isInLine '\\' = true := by decide
  have hquote : isInLine '"' = true := by decide
  induction body using unquote.induct generalizing s with
  | case1 => simp
  | case2 t ih =>
    obtain ⟨v, hv, rfl⟩ := Option.map_eq_some_iff.1 (by simpa only [unquote] using h)
    simpa [hback, hquote] using ih hv
  | case3 t ih =>
    obtain ⟨v, hv, rfl⟩ := Option.map_eq_some_iff.1 (by simpa only [unquote] using h)
    simpa [hback] using ih hv
  | case4 c t _ _ hc ih =>
    rw [unquote] at h
    · rw [if_pos hc] at h
      obtain ⟨v, hv, rfl⟩ := Option.map_eq_some_iff.1 h
      rw [List.forall_mem_cons]
      exact ⟨hc.2.2, ih hv⟩
    · assumption
    · assumption
  | case5 c t _ _ hc =>
    rw [unquote] at h
    · rw [if_neg hc] at h
      cases h
    · assumption
    · assumption

theorem plainRest_inLine {s : List Char} {afterBlank : Bool} (h : plainRest afterBlank s = true) :
    ∀ c ∈ s, isInLine c = true := by
  induction s generalizing afterBlank with
  | nil => simp
  | cons c s ih =>
    simp only [plainRest, Bool.and_eq_true] at h
    rw [List.forall_mem_cons]
    exact ⟨h.1.1.1, ih h.2⟩

theorem quoted_inLine {body s : List Char} (h : unquote body = some s) :
    ∀ c ∈ quoted body, isInLine c = true := by
  have hquote : isInLine '"' = true := by decide
  intro c hc
  rcases List.mem_cons.1 hc with rfl | hc
  · exact hquote
  rcases List.mem_append.1 hc with hc | hc
  · exact unquote_inLine h c hc
  · exact List.mem_singleton.1 hc ▸ hquote

theorem Scalar.inLine {written value : List Char} (h : Scalar written value) :
    ∀ c ∈ written, isInLine c = true := by
  cases h with
  | plain hok =>
    cases written with
    | nil => simp
    | cons c s =>
      simp only [plainOk, Bool.and_eq_true] at hok
      exact plainRest_inLine hok.2
  | quoted hbody => exact quoted_inLine hbody

theorem isInLine_of_isWordChar {c : Char} (h : isWordChar c = true) : isInLine c = true := by
  have hbounds : 0x30 ≤ c.toNat ∧ c.toNat ≤ 0x7a := by
    simp only [isWordChar, Bool.or_eq_true, Bool.and_eq_true, decide_eq_true_eq] at h
    rcases h with ((⟨ha, hb⟩ | ⟨ha, hb⟩) | ⟨ha, hb⟩) | rfl
    · exact ⟨ha, Nat.le_trans hb (by decide)⟩
    · exact ⟨Nat.le_trans (by decide) ha, Nat.le_trans hb (by decide)⟩
    · exact ⟨Nat.le_trans (by decide) ha, hb⟩
    · decide
  obtain ⟨hlow, hhigh⟩ := hbounds
  have hne : ∀ {d : Char}, d.toNat < 0x30 → c ≠ d := by
    rintro d hd rfl
    omega
  have hprint : isPrintable c = true := by
    have hlow' : 0x20 ≤ c.toNat := by omega
    have hhigh' : c.toNat ≤ 0x7e := by omega
    simp [isPrintable, hlow', hhigh']
  have hbreak : isBreak c = false := by
    have hnl : c ≠ '\n' := hne (by decide)
    have hcr : c ≠ '\r' := hne (by decide)
    have hnel : c.toNat ≠ 0x85 := by omega
    have hls : c.toNat ≠ 0x2028 := by omega
    have hps : c.toNat ≠ 0x2029 := by omega
    simp [isBreak, hnl, hcr, hnel, hls, hps]
  simp [isInLine, hprint, hbreak]

theorem Key.inLine {written key : List Char} (h : Key written key) :
    ∀ c ∈ written, isInLine c = true := by
  cases h with
  | word _ hall _ => exact fun c hc => isInLine_of_isWordChar (List.all_eq_true.1 hall c hc)
  | quoted hbody _ => exact quoted_inLine hbody

/-- The content of a line: it begins with something else than a space. -/
structure LineOk (l : Line) : Prop where
  inLine : ∀ c ∈ l.content, isInLine c = true
  head_ne : ∀ c s, l.content = c :: s → c ≠ ' '

theorem Key.exists_cons {written key : List Char} (h : Key written key) :
    ∃ c s, written = c :: s ∧ c ≠ ' ' ∧ c ≠ '-' := by
  cases h with
  | word hne hall _ =>
    obtain ⟨c, s, rfl⟩ := List.exists_cons_of_ne_nil hne
    have hc := List.all_eq_true.1 hall c List.mem_cons_self
    refine ⟨c, s, rfl, ?_, ?_⟩
    · rintro rfl
      exact absurd hc (by decide)
    · rintro rfl
      exact absurd hc (by decide)
  | quoted => exact ⟨_, _, rfl, by decide, by decide⟩

theorem Block.lineOk {kind : Kind} {n : ℕ} {lines : List Line} {events : List Event}
    (h : Block kind n lines events) : ∀ l ∈ lines, LineOk l := by
  have hcolon : isInLine ':' = true := by decide
  have hspace : isInLine ' ' = true := by decide
  have hdash : isInLine '-' = true := by decide
  induction h with
  | nil => simp
  | scalar hkey hvalue _ ih =>
    rw [List.forall_mem_cons]
    refine ⟨⟨?_, ?_⟩, ih⟩
    · intro c hc
      rcases List.mem_append.1 hc with hc | hc
      · exact hkey.inLine c hc
      rcases List.mem_cons.1 hc with rfl | hc
      · exact hcolon
      rcases List.mem_cons.1 hc with rfl | hc
      · exact hspace
      · exact hvalue.inLine c hc
    · obtain ⟨d, t, rfl, hd, -⟩ := hkey.exists_cons
      rintro c s heq rfl
      exact hd (List.cons.inj heq).1
  | nested hkey _ _ _ _ _ ihsub ih =>
    rw [List.forall_mem_cons, List.forall_mem_append]
    refine ⟨⟨?_, ?_⟩, ihsub, ih⟩
    · intro c hc
      rcases List.mem_append.1 hc with hc | hc
      · exact hkey.inLine c hc
      · exact List.mem_singleton.1 hc ▸ hcolon
    · obtain ⟨d, t, rfl, hd, -⟩ := hkey.exists_cons
      rintro c s heq rfl
      exact hd (List.cons.inj heq).1
  | item _ _ _ ihsub ih =>
    rw [List.forall_mem_cons] at ihsub
    rw [List.forall_mem_cons, List.forall_mem_append]
    refine ⟨⟨?_, ?_⟩, ihsub.2, ih⟩
    · intro c hc
      rcases List.mem_cons.1 hc with rfl | hc
      · exact hdash
      rcases List.mem_cons.1 hc with rfl | hc
      · exact hspace
      · exact ihsub.1.inLine c hc
    · rintro c s heq rfl
      exact absurd (List.cons.inj heq).1 (by decide)

theorem splitLines_append {s : List Char} (h : '\n' ∉ s) (current rest : List Char) :
    splitLines current (s ++ '\n' :: rest) = (current.reverse ++ s) :: splitLines [] rest := by
  induction s generalizing current with
  | nil => simp [splitLines]
  | cons c s ih =>
    rw [List.mem_cons, not_or] at h
    have hstep : splitLines current (c :: (s ++ '\n' :: rest)) =
        splitLines (c :: current) (s ++ '\n' :: rest) := by
      rw [splitLines]
      exact fun heq => h.1 heq.symm
    rw [List.cons_append, hstep, ih h.2]
    simp

theorem lineOf_eq {l : Line} (h : LineOk l) :
    lineOf (List.replicate l.indent ' ' ++ l.content) = l := by
  have hspaces : ∀ c ∈ List.replicate l.indent ' ', decide (c = ' ') = true := by
    intro c hc
    exact decide_eq_true (List.eq_of_mem_replicate hc)
  unfold lineOf
  rw [List.takeWhile_append_of_pos hspaces, List.dropWhile_append_of_pos hspaces]
  obtain ⟨n, content⟩ := l
  cases content with
  | nil => simp
  | cons c s =>
    have hc : decide (c = ' ') = false := decide_eq_false (h.head_ne c s rfl)
    simp [hc]

theorem lines_textOf {lines : List Line} (h : ∀ l ∈ lines, LineOk l) :
    (splitLines [] (textOf lines)).map lineOf = lines := by
  induction lines with
  | nil => rfl
  | cons l lines ih =>
    rw [List.forall_mem_cons] at h
    have hbreak : '\n' ∉ List.replicate l.indent ' ' ++ l.content := by
      intro hmem
      rcases List.mem_append.1 hmem with hmem | hmem
      · exact absurd (List.eq_of_mem_replicate hmem) (by decide)
      · exact absurd (h.1.inLine _ hmem) (by decide)
    have htext : textOf (l :: lines) =
        (List.replicate l.indent ' ' ++ l.content) ++ '\n' :: textOf lines := by
      simp [textOf, Line.text]
    rw [htext, splitLines_append hbreak, List.map_cons, ih h.2]
    rw [List.reverse_nil, List.nil_append, lineOf_eq h.1]

/-! ### Blocks -/

/-- The number of characters, without the indentation. -/
def size (lines : List Line) : ℕ := (lines.map fun l => l.content.length + 1).sum

theorem size_cons (l : Line) (lines : List Line) :
    size (l :: lines) = l.content.length + 1 + size lines := by
  simp [size]

theorem size_append (lines lines' : List Line) :
    size (lines ++ lines') = size lines + size lines' := by
  simp [size]

theorem size_le_length (lines : List Line) : size lines ≤ (textOf lines).length := by
  induction lines with
  | nil => exact Nat.le_refl 0
  | cons l lines ih =>
    have htext : (textOf (l :: lines)).length =
        l.indent + l.content.length + 1 + (textOf lines).length := by
      simp [textOf, Line.text]
      omega
    rw [size_cons, htext]
    omega

/-- The first line tells the kind of the collection. -/
theorem Block.first {kind : Kind} {n : ℕ} {l : Line} {lines : List Line} {events : List Event}
    (h : Block kind n (l :: lines) events) : l.indent = n ∧ kindOf l.content = kind := by
  have hmapping : ∀ {written key : List Char} (rest : List Char), Key written key →
      kindOf (written ++ rest) = .mapping := by
    intro written key rest hkey
    obtain ⟨c, s, rfl, -, hdash⟩ := hkey.exists_cons
    rw [List.cons_append]
    unfold kindOf
    split
    · next heq => exact absurd (List.cons.inj heq).1 hdash
    · rfl
  cases h with
  | scalar hkey _ _ => exact ⟨rfl, hmapping _ hkey⟩
  | nested hkey _ _ _ _ _ => exact ⟨rfl, hmapping _ hkey⟩
  | item => exact ⟨rfl, rfl⟩

/-- Lines that do not belong to a collection at this indentation. -/
def Below (n : ℕ) (lines : List Line) : Prop := ∀ l rest, lines = l :: rest → l.indent < n

theorem Below.mono {n m : ℕ} {lines : List Line} (h : Below n lines) (hnm : n ≤ m) : Below m lines :=
  fun l rest heq => Nat.lt_of_lt_of_le (h l rest heq) hnm

theorem below_append {kind : Kind} {n m : ℕ} {lines rest : List Line} {events : List Event}
    (h : Block kind n lines events) (hnm : n < m) (hrest : Below n rest) : Below m (lines ++ rest) := by
  cases lines with
  | nil => exact hrest.mono (Nat.le_of_lt hnm)
  | cons l lines =>
    rintro l' rest' heq
    rw [← (List.cons.inj heq).1, h.first.1]
    exact hnm

theorem readBlock_block {kind : Kind} {n : ℕ} {lines : List Line} {events : List Event}
    (h : Block kind n lines events) {rest : List Line} (hrest : Below n rest) {fuel : ℕ}
    (hfuel : size lines < fuel) : readBlock fuel kind n (lines ++ rest) = some (events, rest) := by
  induction h generalizing rest fuel with
  | nil =>
    obtain ⟨fuel, rfl⟩ := Nat.exists_eq_succ_of_ne_zero (Nat.ne_zero_of_lt hfuel)
    cases rest with
    | nil => rfl
    | cons l rest =>
      have hlt := hrest l rest rfl
      simp [readBlock, hlt]
  | @scalar n key k value v rest' events hkey hvalue _ ih =>
    obtain ⟨fuel, rfl⟩ := Nat.exists_eq_succ_of_ne_zero (Nat.ne_zero_of_lt hfuel)
    rw [size_cons] at hfuel
    have hfuel' : size rest' < fuel := by omega
    have hread := ih hrest hfuel'
    simp [readBlock, scanKey_key hkey, scanScalar_scalar hvalue, hread]
  | @nested kind n m key k sub rest' subEvents events hkey hlt _ hne hsub hblock ihsub ih =>
    obtain ⟨fuel, rfl⟩ := Nat.exists_eq_succ_of_ne_zero (Nat.ne_zero_of_lt hfuel)
    rw [size_cons, size_append] at hfuel
    have hfuel' : size rest' < fuel := by omega
    have hfuelSub : size sub < fuel := by omega
    have hread := ih hrest hfuel'
    have hreadSub := ihsub (below_append hblock hlt hrest) hfuelSub
    obtain ⟨first, sub, rfl⟩ := List.exists_cons_of_ne_nil hne
    obtain ⟨hindent, hkind⟩ := hsub.first
    rw [List.cons_append] at hreadSub
    simp [readBlock, scanKey_key hkey, hindent, hkind, hlt, hreadSub, hread]
  | @item kind n c sub rest' subEvents events _ hsub hblock ihsub ih =>
    obtain ⟨fuel, rfl⟩ := Nat.exists_eq_succ_of_ne_zero (Nat.ne_zero_of_lt hfuel)
    rw [size_cons, size_append, List.length_cons, List.length_cons] at hfuel
    have hfuel' : size rest' < fuel := by omega
    have hfuelSub : size (⟨n + 2, c⟩ :: sub) < fuel := by
      rw [size_cons]
      show c.length + 1 + size sub < fuel
      omega
    have hread := ih hrest hfuel'
    have hreadSub := ihsub (below_append hblock (by omega) hrest) hfuelSub
    have hkind := hsub.first.2
    rw [List.cons_append] at hreadSub
    simp [readBlock, hkind, hreadSub, hread]

/-- The reader reads blocks. -/
theorem readBlocks_spec : ReadsBlocks readBlocks := by
  intro kind lines events hne h
  obtain ⟨l, lines, rfl⟩ := List.exists_cons_of_ne_nil hne
  have hfuel := Nat.lt_succ_of_le (size_le_length (l :: lines))
  have hnone : Below 0 [] := fun _ _ heq => nomatch heq
  have hread := readBlock_block h hnone hfuel
  rw [List.append_nil] at hread
  unfold readBlocks
  rw [lines_textOf h.lineOk]
  dsimp only
  rw [h.first.2, hread]

end Metatup.Lib.Yaml
