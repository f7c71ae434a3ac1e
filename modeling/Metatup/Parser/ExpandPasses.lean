import Metatup.Parser.Expansion

/-!
# The passes over a text

What each pass does to a text that is made of elements: it replaces those it is there for, when its scan
finds them where they are.

* `tupPrintf_written`: `tup_printf` and the flags.
* `evalLoop_flagged`: `eval` and the references.
* `expandNodeStrings_valued`: `expand_node_strings` and the nodes.
* `expandCommandLoop_final`: `expand_command` and the groups.
-/

namespace Metatup.Eval

section

variable {α β : Type} {args : PrintfArgs} {b : Bool} {c : Char} {s t rest : Text}

/-! ### Replacing element by element -/

theorem spread_cons (f : α → Option (List β)) (x : α) (l : List α) :
    spread f (x :: l) = (f x).bind fun ys => (spread f l).map (ys ++ ·) := by
  unfold spread
  rw [List.mapM_cons]
  cases f x with
  | none => rfl
  | some ys => cases l.mapM f <;> rfl

theorem spread_append (f : α → Option (List β)) (l l' : List α) :
    spread f (l ++ l') = (spread f l).bind fun ys => (spread f l').map (ys ++ ·) := by
  unfold spread
  rw [List.mapM_append]
  cases l.mapM f with
  | none => rfl
  | some ys => cases l'.mapM f <;> simp

/-- The text of some elements that are replaced one by one. -/
theorem map_spread_cons {T : List β → Text} (hT : ∀ l l', T (l ++ l') = T l ++ T l')
    (f : α → Option (List β)) (x : α) (l : List α) : (spread f (x :: l)).map T =
      ((f x).map T).bind fun t => ((spread f l).map T).map (t ++ ·) := by
  rw [spread_cons]
  cases f x with
  | none => rfl
  | some ys => cases spread f l <;> simp [hT]

@[simp] theorem finalText_append (fs gs : List Final) :
    finalText b (fs ++ gs) = finalText b fs ++ finalText b gs := List.flatMap_append

@[simp] theorem flaggedText_append (ms ns : List Flagged) :
    flaggedText b (ms ++ ns) = flaggedText b ms ++ flaggedText b ns := List.flatMap_append

@[simp] theorem valuedText_append (ms ns : List Valued) :
    valuedText b (ms ++ ns) = valuedText b ms ++ valuedText b ns := List.flatMap_append

@[simp] theorem finalText_putIn (t : Text) : finalText b (putIn t) = t := by
  induction t with
  | nil => rfl
  | cons c t ih =>
    exact congrArg (c :: ·) ih

theorem flaggedText_final (fs : List Final) : flaggedText b (fs.map .final) = finalText b fs := by
  simp [flaggedText, finalText, List.flatMap_map, Flagged.text]

/-! ### Flags -/

theorem takeWhile_stop {p : Char → Bool} (hc : p c = false) (s rest : Text) :
    (s ++ c :: rest).takeWhile p = s.takeWhile p := by
  induction s with
  | nil => simp [hc]
  | cons d s ih =>
    rw [List.cons_append, List.takeWhile_cons, List.takeWhile_cons, ih]

theorem dropWhile_stop {p : Char → Bool} (hc : p c = false) (s rest : Text) :
    (s ++ c :: rest).dropWhile p = s.dropWhile p ++ c :: rest := by
  induction s with
  | nil => simp [hc]
  | cons d s ih =>
    rw [List.cons_append, List.dropWhile_cons, List.dropWhile_cons, ih]
    split <;> rfl

theorem tupPrintf_cons (hc : c ≠ '%') :
    tupPrintf args b (c :: s) = (tupPrintf args b s).map (c :: ·) := by
  unfold tupPrintf
  rw [List.length_cons, tupPrintfLoop, if_neg hc]

theorem tupPrintf_append (ht : '%' ∉ t) (s : Text) :
    tupPrintf args b (t ++ s) = (tupPrintf args b s).map (t ++ ·) := by
  induction t with
  | nil => simp
  | cons c t ih =>
    rw [List.mem_cons, not_or] at ht
    rw [List.cons_append, tupPrintf_cons (Ne.symm ht.1), ih ht.2, Option.map_map]
    rfl

/-- A number that is no flag is none in front of a parenthesis. -/
theorem readNumber_paren (s rest : Text) :
    readNumber (s ++ ')' :: rest) = (readNumber s).map fun r => (r.1, r.2 ++ ')' :: rest) := by
  unfold readNumber
  rw [takeWhile_stop (by decide), dropWhile_stop (by decide)]
  generalize s.takeWhile Char.isDigit = digits
  dsimp only [Option.bind_eq_bind]
  cases strtolInt digits with
  | none => rfl
  | some num =>
    rw [Option.bind_some, Option.bind_some]
    rcases s.dropWhile Char.isDigit with _ | ⟨c, p⟩
    · simp
    · dsimp only [List.cons_append]
      split_ifs <;> rfl

/-- A character that starts no flag but one with a number. -/
theorem readFlag_plain (hc : c ∉ "fbBieoOdg<%'\"".toList) (p : Text) :
    readFlag (c :: p) = if c.isDigit then readNumber (c :: p) else none := by
  unfold readFlag
  split <;> simp_all

/-- A quote that starts no flag. -/
theorem readFlag_quote {d : Char} (hc : c = '\'' ∨ c = '"') (hf : d ≠ 'f') (ho : d ≠ 'o') (p : Text) :
    readFlag (c :: d :: p) = none := by
  rcases hc with rfl | rfl
  all_goals simp [readFlag, hf, ho, Char.isDigit]

theorem readFlag_paren (s rest : Text) :
    readFlag (s ++ ')' :: rest) = (readFlag s).map fun r => (r.1, r.2 ++ ')' :: rest) := by
  rcases s with _ | ⟨c, p⟩
  · rfl
  rw [List.cons_append]
  by_cases hc : c ∈ "fbBieoOdg<%'\"".toList
  · by_cases hquote : c = '\'' ∨ c = '"'
    · rcases p with _ | ⟨d, p⟩
      · rw [List.nil_append, readFlag_quote hquote (by decide) (by decide)]
        rcases hquote with rfl | rfl <;> rfl
      · by_cases hf : d = 'f'
        · rcases hquote with rfl | rfl <;> subst hf <;> rfl
        by_cases ho : d = 'o'
        · rcases hquote with rfl | rfl <;> subst ho <;> rfl
        rw [List.cons_append, readFlag_quote hquote hf ho, readFlag_quote hquote hf ho]
        rfl
    · rw [not_or] at hquote
      simp only [String.reduceToList, List.mem_cons, List.not_mem_nil, or_false, hquote] at hc
      rcases hc with rfl | rfl | rfl | rfl | rfl | rfl | rfl | rfl | rfl | rfl | rfl
      all_goals rfl
  · rw [readFlag_plain hc, readFlag_plain hc, ← List.cons_append, readNumber_paren]
    split <;> rfl

/-- The name of a reference and what comes after it are replaced one after the other. -/
theorem tupPrintf_name (name rest : Text) : tupPrintf args b (name ++ ')' :: rest) =
    (tupPrintf args b name).bind fun n => (tupPrintf args b rest).map (n ++ ')' :: ·) := by
  induction h : name.length using Nat.strong_induction_on generalizing name with
  | _ n ih =>
    subst h
    rcases name with _ | ⟨c, s⟩
    · exact tupPrintf_cons (by decide)
    by_cases hc : c = '%'
    · subst hc
      rw [List.cons_append, tupPrintf_percent, tupPrintf_percent, readFlag_paren]
      cases hflag : readFlag s with
      | none => rfl
      | some r =>
        obtain ⟨flag, p⟩ := r
        have hlt : p.length < ('%' :: s).length := (readFlag_length hflag).trans (Nat.lt_succ_self _)
        dsimp only [Option.map_some, Option.bind_some]
        rw [ih p.length hlt p rfl]
        cases expandFlag args b flag with
        | none => rfl
        | some text =>
          dsimp only [Option.bind_some]
          cases tupPrintf args b p with
          | none => rfl
          | some q => cases tupPrintf args b rest <;> simp
    · rw [List.cons_append, tupPrintf_cons hc, tupPrintf_cons hc, ih s.length (Nat.lt_succ_self _) s rfl]
      cases tupPrintf args b s with
      | none => rfl
      | some q => cases tupPrintf args b rest <;> simp

theorem expandFlag_flagged (flag : PercentFlag) : expandFlag args b flag =
    ((Written.flag flag).flagged args).map (flaggedText b) := by
  have hput : ∀ t : Option Text,
      (t.map fun t => (putIn t).map Flagged.final).map (flaggedText b) = t := by
    rintro (_ | t)
    · rfl
    · simp [flaggedText_final]
  cases flag with
  | percent => cases b <;> rfl
  | group => rfl
  | _ => exact (hput _).symm

theorem findMatchingParen_eq {espace : Bool} {depth : ℕ} {name : Text}
    (h : findMatchingParen espace depth s = some (name, rest)) : s = name ++ ')' :: rest := by
  induction s generalizing espace depth name with
  | nil => cases h
  | cons c s ih =>
    have hpush : ∀ {espace depth},
        findMatchingParen.push c (findMatchingParen espace depth s) = some (name, rest) →
          c :: s = name ++ ')' :: rest := by
      intro espace depth h
      obtain ⟨⟨name', rest'⟩, hfind, heq⟩ := Option.map_eq_some_iff.1 h
      cases heq
      rw [ih hfind]
      rfl
    unfold findMatchingParen at h
    split at h
    · exact hpush h
    split at h
    · exact hpush h
    split at h
    · exact hpush h
    split at h
    · next hc =>
      split at h
      · cases h
        rw [hc]
        rfl
      · exact hpush h
    · exact hpush h

theorem dotRes_append (h : s.take 4 = dotRes) : s = dotRes ++ s.drop 4 := by
  rw [← h, List.take_append_drop]

/-- `tup_printf` replaces the flags that are written. -/
theorem tupPrintf_writtenLoop {fuel : ℕ} {inGroup : Bool} {ws : List Written}
    (h : writtenLoop fuel inGroup s = some ws)
    (hnames : ∀ sign name, .ref sign name ∈ ws → tupPrintf args b name = tupPrintf args true name) :
    tupPrintf args b s = (spread (Written.flagged args) ws).map (flaggedText b) := by
  induction fuel generalizing inGroup s ws with
  | zero =>
    cases s with
    | nil =>
      cases inGroup <;> cases h
      rfl
    | cons c s => cases h
  | succ fuel ih =>
    rcases s with _ | ⟨c, s⟩
    · cases inGroup <;> cases h
      rfl
    rw [writtenLoop] at h
    -- what is left is replaced in the same way
    have hstep : ∀ {w s' t inGroup}, (writtenLoop fuel inGroup s').map (w :: ·) = some ws →
        tupPrintf args b (t ++ s') = ((w.flagged args).map (flaggedText b)).bind (fun x =>
          (tupPrintf args b s').map (x ++ ·)) →
            tupPrintf args b (t ++ s') = (spread (Written.flagged args) ws).map (flaggedText b) := by
      intro w s' t inGroup hws ht
      obtain ⟨ws', hws', rfl⟩ := Option.map_eq_some_iff.1 hws
      rw [ht, ih hws' fun sign name hmem => hnames sign name (List.mem_cons_of_mem w hmem),
        map_spread_cons flaggedText_append]
    split at h
    · next hc =>
      subst hc
      obtain ⟨⟨flag, p⟩, hflag, h⟩ := Option.bind_eq_some_iff.1 h
      obtain ⟨ws', hws', h⟩ := Option.bind_eq_some_iff.1 h
      cases h
      rw [tupPrintf_percent, hflag, map_spread_cons flaggedText_append, ← expandFlag_flagged]
      dsimp only [Option.bind_some]
      rw [ih hws' fun sign name hmem => hnames sign name (List.mem_cons_of_mem _ hmem)]
    next hc =>
    split at h
    · next hclose =>
      rw [Bool.and_eq_true, decide_eq_true_eq] at hclose
      obtain ⟨-, rfl⟩ := hclose
      by_cases hres : s.take 4 = dotRes
      · have htext : '>' :: s = ('>' :: dotRes) ++ s.drop 4 := congrArg ('>' :: ·) (dotRes_append hres)
        rw [htext]
        simp only [hres, decide_true, if_true] at h
        exact hstep h (tupPrintf_append (by decide) _)
      · simp only [hres, decide_false] at h
        exact hstep (t := ['>']) h (tupPrintf_append (by decide) _)
    split at h
    · next href =>
      obtain ⟨⟨name, rest⟩, hfind, h⟩ := Option.bind_eq_some_iff.1 h
      obtain ⟨ws', hws', h⟩ := Option.bind_eq_some_iff.1 h
      cases h
      obtain ⟨s, rfl⟩ : ∃ s', s = '(' :: s' := by
        cases s with
        | nil => cases href.2
        | cons d s => exact ⟨s, by rw [Option.some.inj href.2]⟩
      rw [List.drop_one, List.tail_cons] at hfind
      rw [tupPrintf_cons hc, tupPrintf_cons (by decide), findMatchingParen_eq hfind, tupPrintf_name,
        map_spread_cons flaggedText_append, hnames _ name List.mem_cons_self,
        ih hws' fun sign name hmem => hnames sign name (List.mem_cons_of_mem _ hmem)]
      have hflagged : ∀ sign, (Written.ref sign name).flagged args =
          (tupPrintf args true name).map fun n => [.ref sign n] := fun _ => rfl
      rw [hflagged]
      generalize spread (Written.flagged args) ws' = ms
      cases tupPrintf args true name with
      | none => rfl
      | some n => cases ms <;> simp [flaggedText, Flagged.text]
    · split at h
      · exact hstep (t := ['\\', '$', '(']) h (tupPrintf_append (by decide) _)
      · exact hstep (t := ['\\', '@', '(']) h (tupPrintf_append (by decide) _)
      · exact hstep (t := [c]) h (tupPrintf_cons hc)

theorem tupPrintf_written {ws : List Written} (hws : written s = some ws)
    (hnames : ∀ sign name, .ref sign name ∈ ws → tupPrintf args b name = tupPrintf args true name) :
    tupPrintf args b s = (spread (Written.flagged args) ws).map (flaggedText b) :=
  tupPrintf_writtenLoop hws hnames

/-! ### References -/

variable {env : EvalEnv} {fuel : ℕ}

theorem evalLoop_char (h : startsReference (c :: s) = false) :
    evalLoop env (fuel + 1) (c :: s) = (evalLoop env fuel s).map (c :: ·) := by
  rcases s with _ | ⟨d, s⟩
  · cases fuel <;> rfl
  · unfold startsReference at h
    rw [Bool.or_eq_false_iff] at h
    rw [evalLoop]
    split
    · next hc =>
      have hesc : ((d = '$' || d = '@') && s.head? = some '(') = false := by
        simpa [hc] using h.2
      rw [if_neg (Bool.eq_false_iff.1 hesc)]
    · rw [if_neg (Bool.eq_false_iff.1 h.1)]

theorem startsReference_inert (hback : c ≠ '\\') (hsign : isSign c = false) (s : Text) :
    startsReference (c :: s) = false := by
  cases s with
  | nil => rfl
  | cons d s => simp [startsReference, hback, hsign]

/-- A text without signs and backslashes stays as it is. -/
theorem evalLoop_inert (ht : ∀ c ∈ t, c ≠ '\\' ∧ isSign c = false) (s : Text) :
    evalLoop env (t.length + fuel) (t ++ s) = (evalLoop env fuel s).map (t ++ ·) := by
  induction t with
  | nil => simp
  | cons c t ih =>
    obtain ⟨hc, ht⟩ := List.forall_mem_cons.1 ht
    rw [List.length_cons, Nat.add_right_comm, List.cons_append,
      evalLoop_char (startsReference_inert hc.1 hc.2 _), ih ht, Option.map_map]
    rfl

theorem evalLoop_escaped (sign : EscapedSign) (s : Text) :
    evalLoop env (fuel + 2) ('\\' :: sign.1 :: '(' :: s) =
      (evalLoop env fuel s).map (fun t => sign.1 :: '(' :: t) := by
  have hsign : (sign.1 = '$' || sign.1 = '@') = true := by
    simpa using sign.2
  have hstart : startsReference ('(' :: s) = false := startsReference_inert (by decide) (by decide) s
  rw [evalLoop, if_pos rfl, if_pos (by rw [hsign]; rfl), evalLoop_char hstart, Option.map_map]
  rfl

theorem readNode_eq {number : NodeNumber} (h : readNode s = some (number, rest)) :
    s = number.digits ++ 't' :: rest := by
  unfold readNode at h
  split at h
  · next hrest =>
    split at h
    · cases h
      rw [← hrest]
      exact List.takeWhile_append_dropWhile.symm
    · cases h
  · cases h

/-- A value is the text of what it is taken apart into. -/
theorem valuedText_valueLoop (h : s.length ≤ fuel) : valuedText b (valueLoop fuel s) = s := by
  induction fuel generalizing s with
  | zero =>
    obtain rfl := List.eq_nil_of_length_eq_zero (Nat.le_zero.1 h)
    rfl
  | succ fuel ih =>
    rcases s with _ | ⟨c, s⟩
    · rfl
    have hs : s.length ≤ fuel := Nat.le_of_succ_le_succ h
    rw [valueLoop]
    split
    · next hc =>
      split
      · next number rest hread =>
        have heq := readNode_eq hread
        have hlen : rest.length ≤ fuel := by
          rw [heq, List.length_append, List.length_cons] at hs
          omega
        have htext : valuedText b (.node number :: valueLoop fuel rest) =
            '%' :: (number.digits ++ ['t']) ++ valuedText b (valueLoop fuel rest) := rfl
        rw [htext, ih hlen, hc, heq]
        simp
      · exact congrArg (c :: ·) (ih hs)
    · exact congrArg (c :: ·) (ih hs)

theorem valuedText_valueOf (s : Text) : valuedText b (valueOf s) = s := valuedText_valueLoop le_rfl

/-- The characters that groups and `%%` leave. -/
theorem mem_text_of_ne_char {f : Final} (hf : ∀ c, f ≠ .char c) (hc : c ∈ f.text b) :
    c = '%' ∨ c = '<' ∨ c = '>' ∨ c = '.' ∨ c = 'r' ∨ c = 'e' ∨ c = 's' := by
  cases f with
  | char c => exact absurd rfl (hf c)
  | percent =>
    cases b with
    | true => exact .inl (List.mem_singleton.1 hc)
    | false => exact .inl ((List.mem_pair.1 hc).elim id id)
  | group => exact (List.mem_pair.1 hc).imp_right .inl
  | close res =>
    cases res with
    | false => exact .inr (.inr (.inl (List.mem_singleton.1 hc)))
    | true =>
      have hc : c = '>' ∨ c = '.' ∨ c = 'r' ∨ c = 'e' ∨ c = 's' := by
        simpa [Final.text, dotRes] using hc
      exact .inr (.inr hc)

theorem final_inert {f : Final} (hf : ∀ c, f ≠ .char c) :
    ∀ c ∈ f.text b, c ≠ '\\' ∧ isSign c = false := by
  intro c hc
  rcases mem_text_of_ne_char hf hc with rfl | rfl | rfl | rfl | rfl | rfl | rfl
  all_goals exact ⟨by decide, rfl⟩

/-- `eval` replaces the references that are written. -/
theorem evalLoop_flagged {ms : List Flagged} (h : RefsApart b ms)
    (hfuel : (flaggedText b ms).length ≤ fuel) :
    evalLoop env fuel (flaggedText b ms) =
      (spread (Flagged.valued env) ms).map (valuedText b) := by
  induction ms generalizing fuel with
  | nil => cases fuel <;> rfl
  | cons m ms ih =>
    have htext : flaggedText b (m :: ms) = m.text b ++ flaggedText b ms := rfl
    rw [htext, List.length_append] at hfuel
    rw [htext, map_spread_cons valuedText_append]
    obtain ⟨fuel, rfl⟩ := Nat.exists_eq_add_of_le (Nat.le_of_add_right_le hfuel)
    have hrest : (flaggedText b ms).length ≤ fuel := Nat.le_of_add_le_add_left hfuel
    -- an element that is no character and no reference has nothing in it that `eval` looks at
    have hinert : ∀ f : Final, (∀ c, f ≠ .char c) → RefsApart b ms →
        evalLoop env ((f.text b).length + fuel) (f.text b ++ flaggedText b ms) =
          (((Flagged.final f).valued env).map (valuedText b)).bind fun t =>
            ((spread (Flagged.valued env) ms).map (valuedText b)).map (t ++ ·) := by
      intro f hf h
      have hvalued : ((Flagged.final f).valued env).map (valuedText b) = some (f.text b) := by
        simp [Flagged.valued, valuedText, Valued.text]
      rw [evalLoop_inert (final_inert hf), ih h hrest, hvalued]
      rfl
    cases m with
    | final f =>
      cases f with
      | char c =>
        have hstep : evalLoop env (1 + fuel) (c :: flaggedText b ms) =
            (evalLoop env fuel (flaggedText b ms)).map (c :: ·) := by
          rw [Nat.add_comm]
          exact evalLoop_char h.1
        exact hstep.trans (congrArg (Option.map (c :: ·)) (ih h.2 hrest))
      | percent => exact hinert .percent (by simp) h
      | group => exact hinert .group (by simp) h
      | close res => exact hinert (.close res) (by simp) h
    | escaped sign =>
      have hstep : evalLoop env (3 + fuel) ('\\' :: sign.1 :: '(' :: flaggedText b ms) =
          (evalLoop env (fuel + 1) (flaggedText b ms)).map (fun t => sign.1 :: '(' :: t) := by
        rw [Nat.add_comm]
        exact evalLoop_escaped sign _
      exact hstep.trans (congrArg (Option.map fun t => sign.1 :: '(' :: t)
        (ih h (Nat.le_succ_of_le hrest)))
    | ref sign name =>
      obtain ⟨hfind, h⟩ := h
      have hlen : 0 < ((Piece.ref sign.1 name).text).length := Nat.succ_pos _
      obtain ⟨n, hn⟩ := Nat.exists_eq_add_one.2 hlen
      have hstep : evalLoop env ((Piece.ref sign.1 name).text.length + fuel)
          ((Piece.ref sign.1 name).text ++ flaggedText b ms) = (env.value sign.1 name).bind fun v =>
            (evalLoop env (n + fuel) (flaggedText b ms)).map (v ++ ·) := by
        rw [hn, Nat.add_right_comm]
        exact evalLoop_ref sign.2 hfind
      refine hstep.trans ?_
      rw [ih h (Nat.le_add_left_of_le hrest)]
      have hvalued : ((Flagged.ref sign name).valued env).map (valuedText b) = env.value sign.1 name := by
        have hunfold : (Flagged.ref sign name).valued env = (env.value sign.1 name).map valueOf := rfl
        rw [hunfold]
        cases env.value sign.1 name with
        | none => rfl
        | some v => exact congrArg some (valuedText_valueOf v)
      rw [hvalued]

/-! ### Nodes -/

theorem nodeReference_ne (hc : c ≠ '%') (s : Text) : nodeReference (c :: s) = none := by
  unfold nodeReference
  split
  · next heq =>
    cases heq
    exact absurd rfl hc
  · rfl

theorem nodeReference_percent (s : Text) : nodeReference ('%' :: s) =
    match s.dropWhile Char.isDigit with
    | 't' :: rest =>
      if s.takeWhile Char.isDigit ≠ [] ∧ decimal (s.takeWhile Char.isDigit) < 2 ^ 63 then
        some (decimal (s.takeWhile Char.isDigit), rest)
      else none
    | _ => none := rfl

theorem nodeReference_no_digit (hc : c.isDigit = false) (s : Text) :
    nodeReference ('%' :: c :: s) = none := by
  have hdigits : (c :: s).takeWhile Char.isDigit = [] := List.takeWhile_cons_of_neg (by simp [hc])
  rw [nodeReference_percent, hdigits]
  split
  · exact if_neg fun h => h.1 rfl
  · rfl

theorem nodeReference_number (number : NodeNumber) (rest : Text) :
    nodeReference ('%' :: (number.digits ++ 't' :: rest)) = some (decimal number.digits, rest) := by
  have ht : Char.isDigit 't' = false := by decide
  have htake : (number.digits ++ 't' :: rest).takeWhile Char.isDigit = number.digits := by
    rw [takeWhile_stop ht, List.takeWhile_eq_self_iff.2 number.isDigit]
  have hdrop : (number.digits ++ 't' :: rest).dropWhile Char.isDigit = 't' :: rest := by
    rw [dropWhile_stop ht, List.dropWhile_eq_nil_iff.2 number.isDigit, List.nil_append]
  rw [nodeReference_percent, htake, hdrop]
  exact if_pos ⟨number.ne_nil, number.lt⟩

theorem expandNodeStringsLoop_char (h : nodeReference (c :: s) = none) :
    expandNodeStringsLoop env (fuel + 1) (c :: s) =
      (expandNodeStringsLoop env fuel s).map (c :: ·) := by
  rw [expandNodeStringsLoop, h]

theorem expandNodeStringsLoop_append (ht : '%' ∉ t) (s : Text) :
    expandNodeStringsLoop env (t.length + fuel) (t ++ s) =
      (expandNodeStringsLoop env fuel s).map (t ++ ·) := by
  induction t with
  | nil => simp
  | cons c t ih =>
    rw [List.mem_cons, not_or] at ht
    rw [List.length_cons, Nat.add_right_comm, List.cons_append,
      expandNodeStringsLoop_char (nodeReference_ne (Ne.symm ht.1) _), ih ht.2, Option.map_map]
    rfl

/-- Two characters that are no node and the start of none. -/
theorem expandNodeStringsLoop_pair (hc : c.isDigit = false) (h : nodeReference (c :: s) = none) :
    expandNodeStringsLoop env (fuel + 2) ('%' :: c :: s) =
      (expandNodeStringsLoop env fuel s).map fun t => '%' :: c :: t := by
  rw [expandNodeStringsLoop_char (nodeReference_no_digit hc s), expandNodeStringsLoop_char h,
    Option.map_map]
  rfl

/-- What is put in for good is passed over. -/
theorem expandNodeStringsLoop_final {f : Final} {ms : List Valued} (h : NodesApart b (.final f :: ms)) :
    expandNodeStringsLoop env ((f.text b).length + fuel) (f.text b ++ valuedText b ms) =
      (expandNodeStringsLoop env fuel (valuedText b ms)).map (f.text b ++ ·) := by
  cases f with
  | char c =>
    rw [Nat.add_comm]
    exact expandNodeStringsLoop_char h.1
  | percent =>
    rw [Nat.add_comm]
    cases b with
    | true => exact expandNodeStringsLoop_char h.1
    | false => exact expandNodeStringsLoop_pair (by decide) h.1
  | group =>
    rw [Nat.add_comm]
    exact expandNodeStringsLoop_pair (by decide) (nodeReference_ne (by decide) _)
  | close res => exact expandNodeStringsLoop_append (by cases b <;> cases res <;> decide) _

theorem NodesApart.tail {m : Valued} {ms : List Valued} (h : NodesApart b (m :: ms)) :
    NodesApart b ms := by
  rcases m with (c | _ | _ | res) | number
  · exact h.2
  · exact h.2
  all_goals exact h

/-- `expand_node_strings` replaces the nodes that values stand for. -/
theorem expandNodeStrings_valued {ms : List Valued} (h : NodesApart b ms)
    (hfuel : (valuedText b ms).length ≤ fuel) :
    expandNodeStringsLoop env fuel (valuedText b ms) =
      (spread (Valued.replaced env) ms).map (finalText b) := by
  induction ms generalizing fuel with
  | nil => cases fuel <;> rfl
  | cons m ms ih =>
    have htext : valuedText b (m :: ms) = m.text b ++ valuedText b ms := rfl
    rw [htext, List.length_append] at hfuel
    rw [htext, map_spread_cons finalText_append]
    obtain ⟨fuel, rfl⟩ := Nat.exists_eq_add_of_le (Nat.le_of_add_right_le hfuel)
    have hrest : (valuedText b ms).length ≤ fuel := Nat.le_of_add_le_add_left hfuel
    cases m with
    | final f =>
      have hreplaced : ((Valued.final f).replaced env).map (finalText b) = some (f.text b) := by
        simp [Valued.replaced, finalText]
      rw [hreplaced]
      exact (expandNodeStringsLoop_final h).trans (congrArg (Option.map (f.text b ++ ·)) (ih h.tail hrest))
    | node number =>
      have hnode : (Valued.node number).text b ++ valuedText b ms =
          '%' :: (number.digits ++ 't' :: valuedText b ms) := by
        simp [Valued.text]
      have hlen : ((Valued.node number).text b).length = number.digits.length + 1 + 1 := by
        simp [Valued.text]
      rw [hnode, hlen, Nat.add_right_comm _ 1 fuel, expandNodeStringsLoop, nodeReference_number]
      dsimp only [Option.bind_eq_bind]
      rw [ih h (by omega)]
      have hreplaced : ((Valued.node number).replaced env).map (finalText b) =
          env.nodePath (decimal number.digits) := by
        have hunfold : (Valued.node number).replaced env =
            (env.nodePath (decimal number.digits)).map putIn := rfl
        rw [hunfold]
        cases env.nodePath (decimal number.digits) <;> simp
      rw [hreplaced]
      cases env.nodePath (decimal number.digits) with
      | none => rfl
      | some path => cases spread (Valued.replaced env) ms <;> rfl

/-! ### Groups -/

variable {groups : GroupEnv} {n : ℕ}

theorem expandCommandLoop_char (h : (c :: s).take 2 ≠ "%<".toList) :
    expandCommandLoop groups (fuel + 1) n (c :: s) =
      (expandCommandLoop groups fuel n s).map fun r => (c :: r.1, r.2) := by
  rw [expandCommandLoop, if_neg]
  intro hstart
  rw [Bool.and_eq_true, decide_eq_true_eq, decide_eq_true_eq] at hstart
  obtain ⟨rfl, hs⟩ := hstart
  cases s with
  | nil => cases hs
  | cons d s =>
    obtain rfl : d = '<' := Option.some.inj hs
    exact h rfl

theorem expandCommandLoop_append (ht : '%' ∉ t) (s : Text) :
    expandCommandLoop groups (t.length + fuel) n (t ++ s) =
      (expandCommandLoop groups fuel n s).map fun r => (t ++ r.1, r.2) := by
  induction t with
  | nil => simp
  | cons c t ih =>
    rw [List.mem_cons, not_or] at ht
    have hc : (c :: (t ++ s)).take 2 ≠ "%<".toList := by
      intro heq
      exact ht.1 (List.cons.inj heq).1.symm
    rw [List.length_cons, Nat.add_right_comm, List.cons_append, expandCommandLoop_char hc, ih ht.2,
      Option.map_map]
    rfl

/-- A group whose name does not end. -/
theorem expandCommandLoop_open (ht : '>' ∉ t) :
    expandCommandLoop groups (fuel + 1) n ('%' :: '<' :: t) = none := by
  have hdrop : ('<' :: t).dropWhile (fun c => decide (c ≠ '>')) = [] := by
    rw [List.dropWhile_eq_nil_iff]
    intro c hc
    rcases List.mem_cons.1 hc with rfl | hc
    · rfl
    · exact decide_eq_true fun heq => ht (heq ▸ hc)
  rw [expandCommandLoop, if_pos (by simp), hdrop]

/-- A group, with what comes after its name. -/
theorem expandCommandLoop_group (ht : '>' ∉ t) (s : Text) :
    expandCommandLoop groups (fuel + 1) n ('%' :: '<' :: (t ++ '>' :: s)) =
      (groups.expand n ('<' :: (t ++ ['>'])) (s.take 4 = dotRes)).bind fun r =>
        (expandCommandLoop groups fuel r.2 (if s.take 4 = dotRes then s.drop 4 else s)).map
          fun q => (r.1 ++ q.1, q.2) := by
  have hstop : (fun c : Char => decide (c ≠ '>')) '>' = false := by decide
  have hname : ∀ c ∈ '<' :: t, decide (c ≠ '>') = true := by
    intro c hc
    rcases List.mem_cons.1 hc with rfl | hc
    · rfl
    · exact decide_eq_true fun heq => ht (heq ▸ hc)
  have htake : ('<' :: (t ++ '>' :: s)).takeWhile (fun c => decide (c ≠ '>')) = '<' :: t := by
    rw [← List.cons_append, takeWhile_stop hstop, List.takeWhile_eq_self_iff.2 hname]
  have hdrop : ('<' :: (t ++ '>' :: s)).dropWhile (fun c => decide (c ≠ '>')) = '>' :: s := by
    rw [← List.cons_append, dropWhile_stop hstop, List.dropWhile_eq_nil_iff.2 hname, List.nil_append]
  rw [expandCommandLoop, if_pos (by simp), htake, hdrop]
  simp only [decide_eq_true_eq, List.cons_append]
  cases groups.expand n ('<' :: (t ++ ['>'])) (s.take 4 = dotRes) with
  | none => rfl
  | some r =>
    dsimp only [Option.bind_eq_bind, Option.bind_some]
    cases expandCommandLoop groups fuel r.2 (if s.take 4 = dotRes then s.drop 4 else s) <;> rfl

/-- `expand_command` replaces the groups that are written, also when the name of one is open. -/
theorem expandCommandLoop_final (fs : List Final) :
    (∀ fuel n, (finalText true fs).length ≤ fuel → GroupsApart false fs →
      expandCommandLoop groups fuel n (finalText true fs) = replaceGroups groups none n fs) ∧
    ∀ fuel n t, (finalText true fs).length ≤ fuel → '>' ∉ t → GroupsApart true fs →
      expandCommandLoop groups (fuel + 1) n ('%' :: '<' :: (t ++ finalText true fs)) =
        replaceGroups groups (some t) n fs := by
  induction fs with
  | nil =>
    constructor
    · intro fuel n _ _
      cases fuel <;> rfl
    · intro fuel n t _ ht _
      rw [finalText, List.flatMap_nil, List.append_nil]
      exact expandCommandLoop_open ht
  | cons f fs ih =>
    have htext : finalText true (f :: fs) = f.text true ++ finalText true fs := rfl
    rw [htext]
    constructor
    · intro fuel n hfuel h
      rw [List.length_append] at hfuel
      obtain ⟨fuel, rfl⟩ := Nat.exists_eq_add_of_le (Nat.le_of_add_right_le hfuel)
      have hrest : (finalText true fs).length ≤ fuel := Nat.le_of_add_le_add_left hfuel
      cases f with
      | char c =>
        rw [Nat.add_comm]
        exact (expandCommandLoop_char h.1).trans (congrArg _ (ih.1 fuel n hrest h.2))
      | percent =>
        rw [Nat.add_comm]
        exact (expandCommandLoop_char h.1).trans (congrArg _ (ih.1 fuel n hrest h.2))
      | group =>
        rw [Nat.add_comm]
        exact ih.2 (fuel + 1) n [] (Nat.le_succ_of_le hrest) List.not_mem_nil h
      | close res =>
        rw [expandCommandLoop_append (by cases res <;> decide), ih.1 fuel n hrest h.2]
        rfl
    · intro fuel n t hfuel ht h
      rw [List.length_append] at hfuel
      have hrest : (finalText true fs).length ≤ fuel := by omega
      -- an element of the name
      have hname : '>' ∉ f.text true → GroupsApart true fs →
          expandCommandLoop groups (fuel + 1) n ('%' :: '<' :: (t ++ (f.text true ++ finalText true fs))) =
            replaceGroups groups (some (t ++ f.text true)) n fs := by
        intro hf h
        rw [← List.append_assoc]
        refine ih.2 fuel n (t ++ f.text true) hrest (fun hmem => ?_) h
        exact (List.mem_append.1 hmem).elim ht hf
      cases f with
      | char c => exact hname h.1 h.2
      | percent => exact hname h.1 h.2
      | group => exact hname h.1 h.2
      | close res =>
        have hclose : (Final.close res).text true ++ finalText true fs =
            '>' :: ((if res then dotRes else []) ++ finalText true fs) := rfl
        rw [hclose, expandCommandLoop_group ht]
        cases res with
        | true =>
          have htake : (dotRes ++ finalText true fs).take 4 = dotRes := List.take_left' rfl
          have hdrop : (dotRes ++ finalText true fs).drop 4 = finalText true fs := List.drop_left' rfl
          simp only [if_true, htake, hdrop, decide_true]
          unfold replaceGroups
          cases groups.expand n ('<' :: (t ++ ['>'])) true with
          | none => rfl
          | some r =>
            dsimp only [Option.bind_eq_bind, Option.bind_some]
            rw [ih.1 fuel r.2 hrest h.2]
            cases replaceGroups groups none r.2 fs <;> rfl
        | false =>
          have htake : ¬ (finalText true fs).take 4 = dotRes := h.1 rfl
          simp only [Bool.false_eq_true, if_false, List.nil_append, htake, decide_false]
          unfold replaceGroups
          cases groups.expand n ('<' :: (t ++ ['>'])) false with
          | none => rfl
          | some r =>
            dsimp only [Option.bind_eq_bind, Option.bind_some]
            rw [ih.1 fuel r.2 hrest h.2]
            cases replaceGroups groups none r.2 fs <;> rfl

end

end Metatup.Eval
