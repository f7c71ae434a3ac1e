import Mathlib.Algebra.Group.Nat.Defs
import Mathlib.Data.List.Chain
import Metatup.Parser.NumberedFlags

/-!
# Replacing references

How the parser replaces the references in a text: `$(..)`, `@(..)` and `&(..)` first, then what is
between backticks, and at last the nodes that a variable stands for.

* `eval`: the three passes.
* `Piece`, `evalLoop_pieces`: the first pass as a substitution.
-/

namespace Metatup.Eval

/-! ### The passes -/

/-- What is not modelled: variables and functions, scripts, and the database. -/
structure EvalEnv where
  /-- What a reference of this sign stands for, before nodes are expanded; none for an error. -/
  value : Char → Text → Option Text
  /-- Source: `parser.c` `capture_run_script_output` -/
  runScript : Text → Option Text
  /-- The path of a node, from the directory that `expand_nodes` asks for. -/
  nodePath : ℕ → Option Text

/-- The signs a reference starts with. -/
def isSign (c : Char) : Bool := c = '$' || c = '@' || c = '&'

/-- Source: `parser.c` `find_matching_paren`: the text in front of the parenthesis and the one behind
it; `espace` is set behind a backslash. -/
def findMatchingParen (espace : Bool) (depth : ℕ) : Text → Option (Text × Text)
  | [] => none
  | c :: s =>
    if espace then push c (findMatchingParen false depth s)
    else if c = '\\' then push c (findMatchingParen true depth s)
    else if c = '(' then push c (findMatchingParen false (depth + 1) s)
    else if c = ')' then
      if depth = 1 then some ([], s) else push c (findMatchingParen false (depth - 1) s)
    else push c (findMatchingParen false depth s)
where
  /-- Put a character in front of what was found. -/
  push (c : Char) (r : Option (Text × Text)) : Option (Text × Text) := r.map fun r => (c :: r.1, r.2)

/-- The loop of `eval`; the fuel is the length of what is left. -/
def evalLoop (env : EvalEnv) : ℕ → Text → Option Text
  | _, [] => some []
  | 0, _ :: _ => none
  | fuel + 1, c :: s =>
    match s with
    | [] => some [c]
    | d :: s' =>
      if c = '\\' then
        -- `\$(` and `\@(` stand for themselves without the backslash
        if (d = '$' || d = '@') && s'.head? = some '(' then (evalLoop env fuel s').map (d :: ·)
        else (evalLoop env fuel s).map (c :: ·)
      else if isSign c && d = '(' then do
        let (var, rest) ← findMatchingParen false 1 s'
        let value ← env.value c var
        let more ← evalLoop env fuel rest
        return value ++ more
      else (evalLoop env fuel s).map (c :: ·)

/-- The output of a script without the line ends at its end, on one line. -/
def scriptText (output : Text) : Text :=
  (output.reverse.dropWhile fun c => c = '\n' || c = '\r').reverse.map fun c =>
    if c = '\n' || c = '\r' then ' ' else c

/-- The loop of `eval_backticks`. -/
def evalBackticksLoop (env : EvalEnv) : ℕ → Text → Option Text
  | 0, _ => none
  | fuel + 1, s =>
    match s.dropWhile (· ≠ '`') with
    | [] => some s
    | _ :: s' =>
      match s'.dropWhile (· ≠ '`') with
      | [] => none
      | _ :: rest => do
        let output ← env.runScript (s'.takeWhile (· ≠ '`'))
        let more ← evalBackticksLoop env fuel rest
        return s.takeWhile (· ≠ '`') ++ scriptText output ++ more

/-- Source: `parser.c` `eval_backticks` -/
def evalBackticks (env : EvalEnv) (string : Text) : Option Text :=
  evalBackticksLoop env (string.length + 1) string

/-- A node reference at the start of a text: its number and what is behind it. A number that does not
fit a `long long` is none. -/
def nodeReference : Text → Option (ℕ × Text)
  | '%' :: s =>
    let digits := s.takeWhile Char.isDigit
    let num := digits.foldl (fun n c => 10 * n + (c.toNat - '0'.toNat)) 0
    match s.dropWhile Char.isDigit with
    | 't' :: rest => if digits ≠ [] ∧ num < 2 ^ 63 then some (num, rest) else none
    | _ => none
  | _ => none

/-- The loop of `expand_node_strings`. -/
def expandNodeStringsLoop (env : EvalEnv) : ℕ → Text → Option Text
  | _, [] => some []
  | 0, _ :: _ => none
  | fuel + 1, c :: s =>
    match nodeReference (c :: s) with
    | some (tupid, rest) => do
      let path ← env.nodePath tupid
      let more ← expandNodeStringsLoop env fuel rest
      return path ++ more
    | none => (expandNodeStringsLoop env fuel s).map (c :: ·)

/-- Source: `parser.c` `expand_node_strings` -/
def expandNodeStrings (env : EvalEnv) (string : Text) : Option Text :=
  expandNodeStringsLoop env string.length string

/-- Source: `parser.h` `KEEP_NODES` and the others -/
inductive ExpandNodes
  | keep | nodes | src | cmd
  deriving DecidableEq

/-- What `eval` does once the references are replaced. -/
def finish (env : EvalEnv) (expandNodes : ExpandNodes) (e : Text) : Option Text := do
  let rc ← if expandNodes ≠ .cmd then evalBackticks env e else some e
  if expandNodes ≠ .keep then expandNodeStrings env rc else some rc

/-- Source: `parser.c` `eval` -/
def eval (env : EvalEnv) (expandNodes : ExpandNodes) (string : Text) : Option Text :=
  (evalLoop env string.length string).bind (finish env expandNodes)

/-! ### References as pieces -/

/-- What a text consists of. -/
inductive Piece
  | lit (c : Char)
  | ref (sign : Char) (name : Text)
  deriving DecidableEq

/-- The piece as it is written. -/
def Piece.text : Piece → Text
  | .lit c => [c]
  | .ref sign name => sign :: '(' :: (name ++ [')'])

/-- The piece with references replaced. -/
def Piece.subst (env : EvalEnv) : Piece → Option Text
  | .lit c => some [c]
  | .ref sign name => env.value sign name

/-- The text of some pieces. -/
def textOf (ps : List Piece) : Text := ps.flatMap Piece.text

/-- The text with its references replaced. -/
def substitute (env : EvalEnv) (ps : List Piece) : Option Text :=
  (ps.mapM (Piece.subst env)).map List.flatten

/-- Every parenthesis that is opened is closed, and none is closed before; `depth` are open. -/
def Balanced : ℕ → Text → Prop
  | depth, [] => depth = 0
  | depth, c :: s =>
    if c = '(' then Balanced (depth + 1) s
    else if c = ')' then 0 < depth ∧ Balanced (depth - 1) s
    else Balanced depth s

/-- The name of a reference: without quoting, its parentheses balanced. -/
structure IsRefName (name : Text) : Prop where
  balanced : Balanced 0 name
  no_quoting : ∀ c ∈ name, c ≠ '\\' ∧ c ≠ '"' ∧ c ≠ '`'

/-- The piece is a literal sign of a reference. -/
def Piece.IsSign (p : Piece) : Prop := ∃ c, p = .lit c ∧ isSign c = true

/-- The pieces are read as they stand: no two characters look like the start of a reference, and no
backslash stands in front of one. -/
structure Legible (ps : List Piece) : Prop where
  names : ∀ sign name, Piece.ref sign name ∈ ps → isSign sign = true ∧ IsRefName name
  apart : ps.IsChain fun p q => ¬ (p.IsSign ∧ q = .lit '(') ∧
    ¬ (p = .lit '\\' ∧ ∃ sign name, q = .ref sign name)

section

variable {env : EvalEnv} {ps : List Piece} {p : Piece} {name rest : Text} {depth : ℕ}

theorem findMatchingParen_name (hbal : Balanced depth name) (hback : '\\' ∉ name) (rest : Text) :
    findMatchingParen false (depth + 1) (name ++ ')' :: rest) = some (name, rest) := by
  induction name generalizing depth with
  | nil =>
    obtain rfl : depth = 0 := hbal
    rfl
  | cons c name ih =>
    rw [List.mem_cons, not_or] at hback
    rw [List.cons_append, findMatchingParen, if_neg Bool.false_ne_true, if_neg (Ne.symm hback.1)]
    unfold Balanced at hbal
    split at hbal
    · next hc =>
      rw [if_pos hc, ih hbal hback.2]
      rfl
    · next hc =>
      rw [if_neg hc]
      split at hbal
      · next hc' =>
        obtain ⟨hpos, hbal⟩ := hbal
        have hne : ¬ depth + 1 = 1 := by omega
        have hd : depth + 1 - 1 = depth - 1 + 1 := by omega
        rw [if_pos hc', if_neg hne, hd, ih hbal hback.2]
        rfl
      · next hc' =>
        rw [if_neg hc', ih hbal hback.2]
        rfl

theorem Legible.tail (h : Legible (p :: ps)) : Legible ps :=
  ⟨fun sign name hmem => h.names sign name (List.mem_cons_of_mem p hmem), h.apart.tail⟩

theorem substitute_cons (env : EvalEnv) (p : Piece) (ps : List Piece) : substitute env (p :: ps) =
    (p.subst env).bind fun v => (substitute env ps).map (v ++ ·) := by
  unfold substitute
  rw [List.mapM_cons]
  cases p.subst env with
  | none => rfl
  | some v => cases ps.mapM (Piece.subst env) <;> rfl

theorem isSign_ne {c : Char} (h : isSign c = true) : c ≠ '(' ∧ c ≠ '\\' ∧ c ≠ '"' ∧ c ≠ '`' := by
  unfold isSign at h
  simp only [Bool.or_eq_true, decide_eq_true_eq] at h
  rcases h with (rfl | rfl) | rfl
  all_goals decide

/-- What the text of some pieces starts with. -/
theorem textOf_eq_cons {d : Char} {s : Text} (h : textOf ps = d :: s) :
    (∃ ps', ps = .lit d :: ps' ∧ s = textOf ps') ∨ ∃ name ps', ps = .ref d name :: ps' := by
  rcases ps with _ | ⟨p, ps'⟩
  · cases h
  · rcases p with c | ⟨sign, name⟩
    · obtain ⟨rfl, rfl⟩ := List.cons.inj h
      exact .inl ⟨ps', rfl, rfl⟩
    · obtain ⟨rfl, -⟩ := List.cons.inj h
      exact .inr ⟨name, ps', rfl⟩

/-- A literal character is passed over. -/
theorem evalLoop_lit {c : Char} {fuel : ℕ} (h : Legible (.lit c :: ps)) :
    evalLoop env (fuel + 1) (c :: textOf ps) = (evalLoop env fuel (textOf ps)).map (c :: ·) := by
  rcases hps : textOf ps with _ | ⟨d, s⟩
  · cases fuel <;> rfl
  have hparen : ¬ (isSign c && d = '(') = true := by
    intro hsign
    rw [Bool.and_eq_true, decide_eq_true_eq] at hsign
    obtain ⟨hc, rfl⟩ := hsign
    rcases textOf_eq_cons hps with ⟨ps', rfl, -⟩ | ⟨name, ps', rfl⟩
    · exact (List.isChain_cons_cons.1 h.apart).1.1 ⟨⟨c, rfl, hc⟩, rfl⟩
    · exact (isSign_ne (h.names '(' name (by simp)).1).1 rfl
  rw [evalLoop]
  by_cases hc : c = '\\'
  · subst hc
    rw [if_pos rfl]
    have hescape : ¬ ((d = '$' || d = '@') && s.head? = some '(') = true := by
      intro hesc
      rw [Bool.and_eq_true, decide_eq_true_eq] at hesc
      obtain ⟨hd, hs⟩ := hesc
      rcases textOf_eq_cons hps with ⟨ps', rfl, rfl⟩ | ⟨name, ps', rfl⟩
      · have hsign : isSign d = true := by
          unfold isSign
          rw [hd, Bool.true_or]
        obtain ⟨s', hs'⟩ : ∃ s', textOf ps' = '(' :: s' := by
          rcases hps' : textOf ps' with _ | ⟨x, s'⟩
          · rw [hps'] at hs
            cases hs
          · rw [hps'] at hs
            exact ⟨s', by rw [Option.some.inj hs]⟩
        rcases textOf_eq_cons hs' with ⟨ps'', rfl, -⟩ | ⟨name, ps'', rfl⟩
        · exact (List.isChain_cons_cons.1 h.tail.apart).1.1 ⟨⟨d, rfl, hsign⟩, rfl⟩
        · exact (isSign_ne (h.names '(' name (by simp)).1).1 rfl
      · exact (List.isChain_cons_cons.1 h.apart).1.2 ⟨rfl, d, name, rfl⟩
    rw [if_neg hescape]
  · rw [if_neg hc, if_neg hparen]

theorem evalLoop_ref {sign : Char} {fuel : ℕ} (hsign : isSign sign = true)
    (hfind : findMatchingParen false 1 (name ++ ')' :: rest) = some (name, rest)) :
    evalLoop env (fuel + 1) ((Piece.ref sign name).text ++ rest) =
      (env.value sign name).bind fun v => (evalLoop env fuel rest).map (v ++ ·) := by
  have hne : sign ≠ '\\' := (isSign_ne hsign).2.1
  have hparen : (isSign sign && '(' = '(') = true := by
    rw [hsign]
    rfl
  have htext : (Piece.ref sign name).text ++ rest = sign :: '(' :: (name ++ ')' :: rest) := by
    simp [Piece.text]
  rw [htext, evalLoop, if_neg hne, if_pos hparen, hfind]
  dsimp only [Option.bind_eq_bind, Option.bind_some]
  cases env.value sign name with
  | none => rfl
  | some v => cases evalLoop env fuel rest <;> rfl

/-- What the loop of `eval` finds are the references of the text. -/
theorem evalLoop_pieces (h : Legible ps) {fuel : ℕ} (hfuel : (textOf ps).length ≤ fuel) :
    evalLoop env fuel (textOf ps) = substitute env ps := by
  induction ps generalizing fuel with
  | nil => cases fuel <;> rfl
  | cons p ps ih =>
    rw [substitute_cons]
    rcases p with c | ⟨sign, name⟩
    · have htext : textOf (.lit c :: ps) = c :: textOf ps := rfl
      rw [htext] at hfuel ⊢
      obtain ⟨fuel, rfl⟩ := Nat.exists_eq_add_one.2 (Nat.lt_of_lt_of_le (Nat.succ_pos _) hfuel)
      rw [evalLoop_lit h, ih h.tail (Nat.le_of_succ_le_succ hfuel)]
      rfl
    · have htext : textOf (.ref sign name :: ps) = (Piece.ref sign name).text ++ textOf ps := rfl
      obtain ⟨hsign, hname⟩ := h.names sign name List.mem_cons_self
      rw [htext, List.length_append] at hfuel
      have hlen : 0 < (Piece.ref sign name).text.length := Nat.succ_pos _
      obtain ⟨fuel, rfl⟩ := Nat.exists_eq_add_one.2 (show 0 < fuel by omega)
      have hback : '\\' ∉ name := fun hmem => (hname.no_quoting _ hmem).1 rfl
      rw [htext, evalLoop_ref hsign (findMatchingParen_name hname.balanced hback _), ih h.tail (by omega)]
      rfl

end

end Metatup.Eval
