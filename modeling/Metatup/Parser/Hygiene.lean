import Metatup.Parser.ExpandPasses

/-!
# Expanding everything once

The passes over a command and over the paths of the outputs give what an expansion gives that never reads
what it has put in, as long as nothing that one pass puts in is taken for something else by a later one.

* `shellText_written`: the text that the shell gets.
* `outputTexts_written`, `ruleOutputPaths_texts`: the paths of the outputs.
* `expanded_once`: both, for a rule.
-/

namespace Metatup.Eval

/-! ### Commands -/

section

variable {α β : Type} {env : EvalEnv} {groups : GroupEnv} {args : PrintfArgs} {b : Bool} {n : ℕ}
  {s t : Text} {ws : List Written} {cmd : Text} {extraCommand : Option Text}

theorem tupPrintfExtra_written (hws : writtenCommand cmd extraCommand = some ws) :
    tupPrintfExtra args cmd extraCommand =
      (spread (Written.flagged args) ws).map (flaggedText true) := by
  cases extraCommand with
  | none => exact tupPrintf_written hws fun _ _ _ => rfl
  | some extra =>
    obtain ⟨ws₁, h₁, hws⟩ := Option.bind_eq_some_iff.1 hws
    obtain ⟨ws₂, h₂, hws⟩ := Option.bind_eq_some_iff.1 hws
    cases hws
    unfold tupPrintfExtra
    dsimp only
    rw [tupPrintf_written h₁ fun _ _ _ => rfl, tupPrintf_written h₂ fun _ _ _ => rfl, spread_append,
      spread_cons]
    have hblank : (Written.char ' ').flagged args = some [.final (.char ' ')] := rfl
    rw [hblank]
    cases spread (Written.flagged args) ws₁ with
    | none => rfl
    | some ms =>
      cases spread (Written.flagged args) ws₂ with
      | none => rfl
      | some ns => simp [flaggedText, Flagged.text, Final.text]

/-- What is stored for a command, in which nothing that is put in is read again. -/
theorem eval_command (hws : writtenCommand cmd extraCommand = some ws)
    (h : CommandApart env args ws) : (tupPrintfExtra args cmd extraCommand).bind (eval env .cmd) =
      (replaceAll env args ws).map (finalText true) := by
  rw [tupPrintfExtra_written hws]
  unfold replaceAll
  cases hms : spread (Written.flagged args) ws with
  | none => rfl
  | some ms =>
    dsimp only [Option.map_some, Option.bind_some]
    unfold eval
    rw [evalLoop_flagged (h.refs ms hms) le_rfl]
    cases hms' : spread (Flagged.valued env) ms with
    | none => rfl
    | some ms' => exact expandNodeStrings_valued (h.nodes ms hms ms' hms') le_rfl

theorem shellText_written (hws : writtenCommand cmd extraCommand = some ws)
    (h : CommandApart env args ws) : shellText env groups n args cmd extraCommand =
      reference env groups n args ws := by
  unfold shellText reference
  rw [eval_command hws h]
  cases hfs : replaceAll env args ws with
  | none => rfl
  | some fs => exact (expandCommandLoop_final fs).1 _ n le_rfl (h.groups fs hfs)

/-! ### Outputs -/

/-- What becomes of the text of one path. -/
def outputTexts (env : EvalEnv) (args : PrintfArgs) (t : Text) : Option (List Text) := do
  let toutput ← tupPrintf args false t
  let evalP ← eval env .src toutput
  (if evalP = toutput then [evalP] else words evalP).mapM (tupPrintf args true)

variable {w : RuleWorld} {fs : List Final}

theorem evalBackticks_of_not_mem (ht : '`' ∉ t) : evalBackticks env t = some t := by
  have hdrop : t.dropWhile (fun c => decide (c ≠ '`')) = [] := by
    rw [List.dropWhile_eq_nil_iff]
    intro c hc
    exact decide_eq_true fun heq => ht (heq ▸ hc)
  rw [evalBackticks, evalBackticksLoop, hdrop]

/-- The last pass only finds what is left of `%%` and groups. -/
theorem tupPrintf_final (h : .char '%' ∉ fs) :
    tupPrintf args true (finalText false fs) = some (finalText true fs) := by
  induction fs with
  | nil => rfl
  | cons f fs ih =>
    rw [List.mem_cons, not_or] at h
    have htext : ∀ b, finalText b (f :: fs) = f.text b ++ finalText b fs := fun _ => rfl
    rw [htext, htext]
    cases f with
    | char c =>
      have hc : c ≠ '%' := fun heq => h.1 (heq ▸ rfl)
      exact (tupPrintf_cons hc).trans (congrArg _ (ih h.2))
    | percent =>
      have hstep : tupPrintf args true ('%' :: '%' :: finalText false fs) =
          (tupPrintf args true (finalText false fs)).map ("%".toList ++ ·) := by
        rw [tupPrintf_percent]
        rfl
      exact hstep.trans (congrArg _ (ih h.2))
    | group =>
      have hstep : tupPrintf args true ('%' :: '<' :: finalText false fs) =
          (tupPrintf args true (finalText false fs)).map ("%<".toList ++ ·) := by
        rw [tupPrintf_percent]
        rfl
      exact hstep.trans (congrArg _ (ih h.2))
    | close res => exact (tupPrintf_append (by cases res <;> decide) _).trans (congrArg _ (ih h.2))

/-- The element is a blank. -/
def Final.isBlank : Final → Bool
  | .char c => c = ' ' || c = '\t'
  | _ => false

theorem splitOnP_append {p : Char → Bool} (ht : ∀ c ∈ t, p c = false) (s : Text) :
    (t ++ s).splitOnP p = (s.splitOnP p).modifyHead (t ++ ·) := by
  induction t with
  | nil =>
    obtain ⟨x, xs, hx⟩ := List.exists_cons_of_ne_nil (List.splitOnP_ne_nil p s)
    rw [List.nil_append, hx]
    rfl
  | cons c t ih =>
    obtain ⟨hc, ht⟩ := List.forall_mem_cons.1 ht
    rw [List.cons_append, List.splitOnP_cons_eq_if_modifyHead, if_neg (by simp [hc]), ih ht]
    obtain ⟨x, xs, hx⟩ := List.exists_cons_of_ne_nil (List.splitOnP_ne_nil p s)
    rw [hx]
    rfl

theorem splitOnP_finalText (fs : List Final) :
    (finalText b fs).splitOnP (fun c => c = ' ' || c = '\t') =
      (fs.splitOnP Final.isBlank).map (finalText b) := by
  induction fs with
  | nil => rfl
  | cons f fs ih =>
    have htext : finalText b (f :: fs) = f.text b ++ finalText b fs := rfl
    rw [htext, List.splitOnP_cons_eq_if_modifyHead (p := Final.isBlank)]
    by_cases hf : f.isBlank = true
    · rw [if_pos hf, List.map_cons, ← ih]
      cases f with
      | char c =>
        have hsplit := List.splitOnP_cons_eq_if_modifyHead (p := fun c => c = ' ' || c = '\t') c
          (finalText b fs)
        exact hsplit.trans (if_pos hf)
      | percent | group | close res => cases hf
    · have hblank : ∀ c ∈ f.text b, (c = ' ' || c = '\t') = false := by
        intro c hc
        by_cases hchar : ∃ d, f = .char d
        · obtain ⟨d, rfl⟩ := hchar
          rw [List.mem_singleton.1 hc]
          exact Bool.eq_false_iff.2 hf
        · rcases mem_text_of_ne_char (not_exists.1 hchar) hc with rfl | rfl | rfl | rfl | rfl | rfl | rfl
          all_goals rfl
      rw [if_neg hf, splitOnP_append hblank, ih]
      obtain ⟨x, xs, hx⟩ := List.exists_cons_of_ne_nil (List.splitOnP_ne_nil Final.isBlank fs)
      rw [hx]
      rfl

theorem finalText_eq_nil : finalText b fs = [] ↔ fs = [] := by
  cases fs with
  | nil => exact iff_of_true rfl rfl
  | cons f fs =>
    refine iff_of_false (fun h => ?_) nofun
    have hf : f.text b = [] := (List.append_eq_nil_iff.1 h).1
    cases f with
    | percent => cases b <;> cases hf
    | char | group | close => cases hf

theorem words_finalText (fs : List Final) : words (finalText b fs) =
    ((fs.splitOnP Final.isBlank).filter (· ≠ [])).map (finalText b) := by
  unfold words
  rw [splitOnP_finalText, List.filter_map]
  congr 1
  apply List.filter_congr
  intro fs _
  exact decide_eq_decide.2 (not_congr finalText_eq_nil)

theorem mapM_congr_mem {l : List α} {f g : α → Option β} (h : ∀ x ∈ l, f x = g x) :
    l.mapM f = l.mapM g := by
  induction l with
  | nil => rfl
  | cons x l ih =>
    obtain ⟨hx, hl⟩ := List.forall_mem_cons.1 h
    rw [List.mapM_cons, List.mapM_cons, hx, ih hl]

theorem mapM_some_map {l : List α} {f : α → Option β} {g : α → β} (h : ∀ x ∈ l, f x = some (g x)) :
    l.mapM f = some (l.map g) := (mapM_congr_mem h).trans List.mapM_pure

theorem mem_of_mem_splitOnP {p : α → Bool} {l w : List α} {x : α} (hw : w ∈ l.splitOnP p) (hx : x ∈ w) :
    x ∈ l := by
  induction l generalizing w with
  | nil =>
    rw [List.mem_singleton.1 hw] at hx
    exact hx
  | cons y l ih =>
    rw [List.splitOnP_cons_eq_if_modifyHead] at hw
    split at hw
    · rcases List.mem_cons.1 hw with rfl | hw
      · cases hx
      · exact List.mem_cons_of_mem y (ih hw hx)
    · obtain ⟨w₀, ws, hsplit⟩ := List.exists_cons_of_ne_nil (List.splitOnP_ne_nil p l)
      rw [hsplit] at hw ih
      rcases List.mem_cons.1 hw with rfl | hw
      · exact List.mem_cons.2 ((List.mem_cons.1 hx).imp_right (ih List.mem_cons_self))
      · exact List.mem_cons_of_mem y (ih (List.mem_cons_of_mem w₀ hw) hx)

theorem mapM_words_final (h : .char '%' ∉ fs) :
    (words (finalText false fs)).mapM (tupPrintf args true) = some (words (finalText true fs)) := by
  rw [words_finalText, words_finalText, List.mapM_map]
  apply mapM_some_map
  intro gs hgs
  exact tupPrintf_final fun hmem => h (mem_of_mem_splitOnP (List.mem_filter.1 hgs).1 hmem)

/-- The paths of an output in which nothing that is put in is read again. -/
theorem outputTexts_written (hws : written t = some ws) (h : OutputApart env args ws) :
    outputTexts env args t = outputReference env args ws := by
  unfold outputTexts outputReference
  rw [tupPrintf_written hws fun sign name hmem => of_decide_eq_true (h.names _ hmem)]
  have hall : replaceAll env args ws = ((spread (Written.flagged args) ws).bind
    (spread (Flagged.valued env))).bind (spread (Valued.replaced env)) := rfl
  cases hms : spread (Written.flagged args) ws with
  | none => rfl
  | some ms =>
    rw [hms] at hall
    dsimp only [Option.map_some, Option.bind_eq_bind, Option.bind_some] at hall ⊢
    unfold eval
    rw [evalLoop_flagged (h.refs ms hms) le_rfl]
    cases hms' : spread (Flagged.valued env) ms with
    | none =>
      rw [hms'] at hall
      rw [hall]
      rfl
    | some ms' =>
      rw [hms'] at hall
      dsimp only [Option.map_some, Option.bind_some] at hall ⊢
      obtain ⟨hnodes, htick⟩ := h.nodes ms hms ms' hms'
      have hfinish : finish env .src (valuedText false ms') =
          (spread (Valued.replaced env) ms').map (finalText false) := by
        unfold finish
        rw [if_pos (by decide), evalBackticks_of_not_mem htick]
        exact expandNodeStrings_valued hnodes le_rfl
      rw [hfinish, ← hall]
      cases hfs : replaceAll env args ws with
      | none => rfl
      | some fs =>
        have hpercent := h.flags fs hfs
        dsimp only [Option.map_some, Option.bind_some, Option.pure_def]
        split
        · rw [mapM_some_map (g := fun _ => finalText true fs)]
          · rfl
          · intro x hx
            rw [List.mem_singleton.1 hx]
            exact tupPrintf_final hpercent
        · exact mapM_words_final hpercent

theorem printfPaths_mem {pls pls' : List RulePath} (h : printfPaths w args b pls = some pls') :
    pls.mapM (fun pl => tupPrintf args b pl.mem) = some (pls'.map (·.mem)) := by
  induction pls generalizing pls' with
  | nil =>
    cases h
    rfl
  | cons pl pls ih =>
    unfold printfPaths at h ih
    rw [List.mapM_cons] at h
    obtain ⟨newpl, hnew, h⟩ := Option.bind_eq_some_iff.1 h
    obtain ⟨rest, hrest, h⟩ := Option.bind_eq_some_iff.1 h
    cases h
    obtain ⟨toutput, htext, hnew⟩ := Option.bind_eq_some_iff.1 hnew
    obtain ⟨p, hp, hnew⟩ := Option.bind_eq_some_iff.1 hnew
    cases hnew
    have hmem : p.mem = toutput := newPl_mem hp
    rw [List.mapM_cons, htext, ih hrest, ← hmem]
    rfl

/-- The three loops over the paths as one. -/
theorem spread_outputTexts {oplist tmplist : List RulePath} {parts : List (List RulePath)}
    {texts : List Text}
    (hfirst : oplist.mapM (fun pl => tupPrintf args false pl.mem) = some (tmplist.map (·.mem)))
    (hparts : tmplist.mapM (evalPath { w with eval := eval env .src } none) = some parts)
    (hlast : parts.flatten.mapM (fun pl => tupPrintf args true pl.mem) = some texts) :
    spread (fun pl => outputTexts env args pl.mem) oplist = some texts := by
  induction oplist generalizing tmplist parts texts with
  | nil =>
    obtain rfl : tmplist = [] := List.map_eq_nil_iff.1 (Option.some.inj hfirst).symm
    cases hparts
    cases hlast
    rfl
  | cons pl oplist ih =>
    rw [List.mapM_cons] at hfirst
    obtain ⟨t, ht, hfirst⟩ := Option.bind_eq_some_iff.1 hfirst
    obtain ⟨ts, hts, hfirst⟩ := Option.bind_eq_some_iff.1 hfirst
    obtain ⟨newpl, tmplist, rfl, rfl, rfl⟩ := List.map_eq_cons_iff.1 (Option.some.inj hfirst).symm
    rw [List.mapM_cons] at hparts
    obtain ⟨part, hpart, hparts⟩ := Option.bind_eq_some_iff.1 hparts
    obtain ⟨parts, hparts', hparts⟩ := Option.bind_eq_some_iff.1 hparts
    cases hparts
    rw [List.flatten_cons, List.mapM_append] at hlast
    obtain ⟨x, hx, hlast⟩ := Option.bind_eq_some_iff.1 hlast
    obtain ⟨xs, hxs, hlast⟩ := Option.bind_eq_some_iff.1 hlast
    cases hlast
    obtain ⟨evalP, hevalP, hmem⟩ := evalPath_mem rfl hpart
    have hevalP : eval env .src newpl.mem = some evalP := hevalP
    have hone : outputTexts env args pl.mem = some x := by
      unfold outputTexts
      rw [ht]
      dsimp only [Option.bind_eq_bind, Option.bind_some]
      rw [hevalP, Option.bind_some, ← hmem, List.mapM_map]
      exact hx
    rw [spread_cons, hone, ih hts hparts' hxs]
    rfl

/-- What becomes of the paths is what becomes of their texts, one by one. -/
theorem ruleOutputPaths_texts {oplist pls : List RulePath}
    (h : ruleOutputPaths { w with eval := eval env .src } args oplist = some pls) :
    spread (fun pl => outputTexts env args pl.mem) oplist = some (pls.map (·.mem)) := by
  obtain ⟨tmplist, hfirst, h⟩ := Option.bind_eq_some_iff.1 h
  obtain ⟨tmplist₁, heval, h⟩ := Option.bind_eq_some_iff.1 h
  obtain ⟨parts, hparts, rfl⟩ := Option.map_eq_some_iff.1 heval
  exact spread_outputTexts (printfPaths_mem hfirst) hparts (printfPaths_mem h)

theorem ruleOutputPaths_written {oplist pls : List RulePath}
    (hws : ∀ pl ∈ oplist, ∃ ws, written pl.mem = some ws ∧ OutputApart env args ws)
    (h : ruleOutputPaths { w with eval := eval env .src } args oplist = some pls) :
    spread (fun pl => (written pl.mem).bind (outputReference env args)) oplist =
      some (pls.map (·.mem)) := by
  rw [← ruleOutputPaths_texts h]
  unfold spread
  congr 1
  apply mapM_congr_mem
  intro pl hpl
  obtain ⟨ws, hws, hapart⟩ := hws pl hpl
  rw [outputTexts_written hws hapart, hws]
  rfl

end

/-- When nothing that is put in is read again, the text that the shell gets and the paths of the outputs
are those of an expansion that replaces everything once. -/
theorem expanded_once (env outputEnv : EvalEnv) (groups : GroupEnv) (resfile : ℕ) (w : RuleWorld)
    (r : RuleTexts) (h : r.Apart env outputEnv) : r.ExpandedOnce env outputEnv groups resfile w where
  command := by
    obtain ⟨ws, hws⟩ := Option.isSome_iff_exists.1 h.command
    rw [shellText_written hws (h.commandApart ws hws), hws]
    rfl
  outputs := by
    intro sec hsec pls hpls
    refine ruleOutputPaths_written (fun pl hpl => ?_) hpls
    obtain ⟨ws, hws⟩ := Option.isSome_iff_exists.1 (h.outputs sec hsec pl hpl)
    exact ⟨ws, hws, h.outputsApart sec hsec pl hpl ws hws⟩

/-- `$(flags_a)` is `-O2 100%`, and `$(x)` is `y`. -/
def flagsEnv : EvalEnv where
  value _ name :=
    if name = "flags_a".toList then some "-O2 100%".toList
    else if name = "x".toList then some "y".toList else none
  runScript _ := none
  nodePath _ := none

/-- The group `<libs>` has two files. -/
def libsEnv : GroupEnv where
  paths groupname := if groupname = "<libs>".toList then some "x.a y.a".toList else none
  numDotdots := 1

/-- A rule with one input that has this name. -/
def oneInput (name cmd : String) : RuleTexts where
  cmd := cmd.toList
  args := { nl := ⟨[outputEntry name.toList 2 1], 0⟩, dirName := "src".toList }

/-- `cc $(flags_%B) %f %<libs> -o 5%%`, with the output `$(x)_%B.o`. -/
def ccRule : RuleTexts :=
  { oneInput "a.$c" "cc $(flags_%B) %f %<libs> -o 5%%" with
    outputs := [{
      args := (oneInput "a.$c" "").args
      oplist := [{
        mem := "$(x)_%B.o".toList
        kind := .path
        tentRelative := false
        orderid := 1
        origin := .rule 1 }] }] }

theorem ccRule_apart : ccRule.Apart flagsEnv flagsEnv where
  command := by decide
  outputs := by decide
  commandApart := by decide
  outputsApart := by decide

/-- What becomes of `ccRule`. -/
theorem expanded_once_cc : ccRule.ExpandedOnce flagsEnv flagsEnv libsEnv 0 plainWorld ∧
    shellText flagsEnv libsEnv 0 ccRule.args ccRule.cmd none =
      some ("cc -O2 100% a.$c x.a y.a -o 5%".toList, 0) := by
  have h := expanded_once flagsEnv flagsEnv libsEnv 0 plainWorld ccRule ccRule_apart
  refine ⟨h, h.command.trans ?_⟩
  decide

/-- A file that is called `$(x)` becomes another one. -/
theorem name_is_expanded : ¬ ∀ env outputEnv groups resfile w (r : RuleTexts), r.Readable →
    r.ExpandedOnce env outputEnv groups resfile w := by
  intro hall
  have h := (hall flagsEnv flagsEnv libsEnv 0 plainWorld (oneInput "$(x)" "rm %f")
    ⟨by decide, by decide⟩).command
  exact absurd h (by decide)

end Metatup.Eval
