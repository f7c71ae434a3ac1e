import Metatup.Parser.PathList
import Metatup.Parser.Printf

/-!
# Flags with a number

Every path of a section of a rule has the number of its place, and the names that are found for it have
that number too, so that `%2f` are the inputs of the second path. A rule in the function of a build gets
the stamps and the outputs of the build context as further order-only inputs; these were numbered on
their own.

* `getPathList`, `BuildCtx`: where the numbers come from.
* `ruleCalls`: the lists that a rule hands to `tup_printf`.
* `InSections`: what the numbers in such a list mean.
* `numbered_flags_iff`: when a flag with a number stands for the names of that path.
-/

namespace Metatup

/-! ### Paths with numbers -/

/-- Where a path was written: in a section of the rule, at this place, or in the build context. The
program does not keep it. -/
inductive PathOrigin
  | rule (place : ℕ)
  | context
  deriving DecidableEq, Repr

/-- Source: `parser.h` `struct path_list`, with its number -/
structure RulePath extends PathList where
  orderid : ℕ
  origin : PathOrigin
  deriving DecidableEq, Repr

/-- The number of a path and where the path was written. -/
def RulePath.key (pl : RulePath) : ℕ × PathOrigin := (pl.orderid, pl.origin)

/-- The state of `next_path`: whether the last character was a `\`, whether it is in quotes or in
backticks, and how many parentheses of variables are open. -/
structure PathScan where
  espace : Bool := false
  quoted : Bool := false
  backtick : Bool := false
  parenDepth : ℕ := 0

/-- What is special about a character is so only outside of quotes and backticks. -/
def PathScan.plain (st : PathScan) : Bool := !st.quoted && !st.backtick

/-- The loop of `next_path`: the path, and what is left of the text. -/
def nextPathLoop (st : PathScan) : Text → Option (Text × Text)
  | [] => if st.quoted || st.backtick then none else some ([], [])
  | c :: s =>
    if st.espace then push c (nextPathLoop { st with espace := false } s)
    else if c = '\\' then nextPathLoop { st with espace := true } s
    else if c = '"' then nextPathLoop { st with quoted := !st.quoted } s
    else if c = '`' then push c (nextPathLoop { st with backtick := !st.backtick } s)
    else if (c = '$' || c = '@' || c = '&') && s.head? = some '(' && st.plain then
      match s with
      | [] => none
      | d :: s => push c (push d (nextPathLoop { st with parenDepth := st.parenDepth + 1 } s))
    else if c = '(' && decide (0 < st.parenDepth) && st.plain then
      push c (nextPathLoop { st with parenDepth := st.parenDepth + 1 } s)
    else if c = ')' && decide (0 < st.parenDepth) && st.plain then
      push c (nextPathLoop { st with parenDepth := st.parenDepth - 1 } s)
    else if isSpace c && st.plain && st.parenDepth = 0 then some ([], c :: s)
    else push c (nextPathLoop st s)
where
  /-- Put a character in front of the path. -/
  push (c : Char) (r : Option (Text × Text)) : Option (Text × Text) :=
    r.map fun (dest, rest) => (c :: dest, rest)

/-- Source: `parser.c` `next_path` -/
def nextPath (s : Text) : Option (Text × Text) := nextPathLoop {} s

/-- The loop of `get_path_list`; each path takes at least a character. -/
def getPathListLoop (tf : Tupfile) (bl : Option (List Text)) (origin : ℕ → PathOrigin) :
    ℕ → ℕ → Text → Option (List RulePath)
  | _, _, [] => some []
  | 0, _, _ :: _ => none
  | fuel + 1, orderid, s => do
    let (dest, rest) ← nextPath s
    let pl ← newPl tf dest bl
    let more ← getPathListLoop tf bl origin fuel (orderid + 1) (skipSpace rest)
    return { pl with orderid := orderid, origin := origin orderid } :: more

/-- Source: `parser.c` `get_path_list` -/
def getPathList (tf : Tupfile) (bl : Option (List Text)) (origin : ℕ → PathOrigin) (p : Text) :
    Option (List RulePath) :=
  getPathListLoop tf bl origin p.length 1 p

/-- Source: `parser.c` `copy_path_list`; `bl` is `current_bin_head` -/
def copyPathList (tf : Tupfile) (bl : Option (List Text)) (src : List RulePath) :
    Option (List RulePath) :=
  src.mapM fun pl => (newPl tf pl.mem bl).map fun newpl =>
    { newpl with tentRelative := pl.tentRelative, orderid := pl.orderid, origin := pl.origin }

/-! ### Build contexts -/

/-- Source: `parser.c` `struct tup_build_ctx`, what is about the inputs of its rules -/
structure BuildCtx where
  orderOnlyInputPaths : List RulePath := []
  /-- The paths of the outputs of the rules so far. -/
  outputs : List Text := []
  context : ∀ pl ∈ orderOnlyInputPaths, pl.origin = .context

/-- The number after those of a list. -/
def nextOrderid (pls : List RulePath) : ℕ :=
  pls.foldl (fun orderid pl => if orderid ≤ pl.orderid then pl.orderid + 1 else orderid) 1

/-- The paths for outputs, numbered on. -/
def outputPaths (tf : Tupfile) : ℕ → List Text → Option (List RulePath)
  | _, [] => some []
  | orderid, path :: paths => do
    let pl ← newPl tf path none
    let more ← outputPaths tf (orderid + 1) paths
    return { pl with tentRelative := false, orderid := orderid, origin := .context } :: more

theorem getPathListLoop_origin {tf : Tupfile} {bl : Option (List Text)} {origin : ℕ → PathOrigin}
    {fuel k : ℕ} {s : Text} {pls : List RulePath}
    (h : getPathListLoop tf bl origin fuel k s = some pls) :
    ∀ pl ∈ pls, k ≤ pl.orderid ∧ pl.origin = origin pl.orderid := by
  induction fuel generalizing k s pls with
  | zero =>
    cases s with
    | nil =>
      cases h
      simp
    | cons c s => cases h
  | succ fuel ih =>
    cases s with
    | nil =>
      cases h
      simp
    | cons c s =>
      obtain ⟨⟨dest, rest⟩, -, h⟩ := Option.bind_eq_some_iff.1 h
      obtain ⟨pl, -, h⟩ := Option.bind_eq_some_iff.1 h
      obtain ⟨more, hmore, h⟩ := Option.bind_eq_some_iff.1 h
      cases h
      rintro q (- | ⟨-, hq⟩)
      · exact ⟨le_rfl, rfl⟩
      · obtain ⟨hle, horigin⟩ := ih hmore q hq
        exact ⟨by omega, horigin⟩

theorem outputPaths_spec {tf : Tupfile} {k : ℕ} {paths : List Text} {pls : List RulePath}
    (h : outputPaths tf k paths = some pls) : ∀ pl ∈ pls, k ≤ pl.orderid ∧ pl.origin = .context := by
  induction paths generalizing k pls with
  | nil =>
    cases h
    simp
  | cons path paths ih =>
    obtain ⟨pl, -, h⟩ := Option.bind_eq_some_iff.1 h
    obtain ⟨more, hmore, h⟩ := Option.bind_eq_some_iff.1 h
    cases h
    rintro q (- | ⟨-, hq⟩)
    · exact ⟨le_rfl, rfl⟩
    · obtain ⟨hle, horigin⟩ := ih hmore q hq
      exact ⟨by omega, horigin⟩

/-- More paths for the rules of a context. -/
def BuildCtx.add (ctx : BuildCtx) (pls : List RulePath) (h : ∀ pl ∈ pls, pl.origin = .context) :
    BuildCtx where
  orderOnlyInputPaths := ctx.orderOnlyInputPaths ++ pls
  outputs := ctx.outputs
  context pl hpl := (List.mem_append.1 hpl).elim (ctx.context pl) (h pl)

/-- The stamp of a build that this one depends on. Source: `parser.c` `parse_tupbuild` -/
def BuildCtx.addStamp (tf : Tupfile) (ctx : BuildCtx) (stampPath : Text) : Option BuildCtx :=
  match h : getPathList tf none (fun _ => .context) stampPath with
  | none => none
  | some pls => some (ctx.add pls fun pl hpl => (getPathListLoop_origin h pl hpl).2)

/-- Source: `parser.c` `build_ctx_add_outputs_as_order_only_inputs`; the outputs of the context that
are new are those after the first `old`. -/
def BuildCtx.addOutputs (tf : Tupfile) (ctx : BuildCtx) (old : ℕ) : Option BuildCtx :=
  match h : outputPaths tf (nextOrderid ctx.orderOnlyInputPaths) (ctx.outputs.drop old) with
  | none => none
  | some pls => some (ctx.add pls fun pl hpl => (outputPaths_spec h pl hpl).2)

theorem lt_nextOrderid {pls : List RulePath} {pl : RulePath} (h : pl ∈ pls) :
    pl.orderid < nextOrderid pls := by
  have key : ∀ (l : List RulePath) (k : ℕ), k ≤ l.foldl (fun orderid pl =>
      if orderid ≤ pl.orderid then pl.orderid + 1 else orderid) k ∧
      ∀ q ∈ l, q.orderid < l.foldl (fun orderid pl =>
        if orderid ≤ pl.orderid then pl.orderid + 1 else orderid) k := by
    intro l
    induction l with
    | nil => simp
    | cons p l ih =>
      intro k
      rw [List.foldl_cons]
      obtain ⟨hk, hl⟩ := ih (if k ≤ p.orderid then p.orderid + 1 else k)
      have hp : k ≤ (if k ≤ p.orderid then p.orderid + 1 else k) ∧
          p.orderid < (if k ≤ p.orderid then p.orderid + 1 else k) := by
        split <;> omega
      refine ⟨by omega, fun q hq => ?_⟩
      rcases List.mem_cons.1 hq with rfl | hq
      · omega
      · exact hl q hq
  exact (key pls 1).2 pl h

/-- Among themselves the paths of a context are told apart: an output has a larger number than what was
there before. -/
theorem BuildCtx.addOutputs_lt {tf : Tupfile} {ctx ctx' : BuildCtx} {old : ℕ}
    (h : ctx.addOutputs tf old = some ctx') : ∃ pls,
      ctx'.orderOnlyInputPaths = ctx.orderOnlyInputPaths ++ pls ∧
      ∀ pl ∈ ctx.orderOnlyInputPaths, ∀ new ∈ pls, pl.orderid < new.orderid := by
  unfold BuildCtx.addOutputs at h
  split at h
  · cases h
  · next pls hpls =>
    cases h
    exact ⟨pls, rfl, fun pl hpl new hnew =>
      (lt_nextOrderid hpl).trans_le (outputPaths_spec hpls new hnew).1⟩

/-! ### What the numbers mean -/

/-- A path of a section has the number of its place. -/
def Placed (context : Prop) (p : ℕ × PathOrigin) : Prop :=
  match p.2 with
  | .rule k => p.1 = k
  | .context => context

/-- The numbers of a list whose paths are placed do not fall, and what the build context adds comes
after them, if it can add anything. -/
def InSections (context : Prop) (l : List (ℕ × PathOrigin)) : Prop :=
  (∀ p ∈ l, Placed context p) ∧ l.Pairwise fun a b => b.2 ≠ .context → a.2 ≠ .context ∧ a.1 ≤ b.1

variable {context : Prop}

theorem InSections.sublist {l l' : List (ℕ × PathOrigin)} (h : InSections context l)
    (hs : l'.Sublist l) : InSections context l' :=
  ⟨fun p hp => h.1 p (hs.subset hp), h.2.sublist hs⟩

/-- In the place of a path, there can be any number of what has its number. -/
theorem InSections.replicate {a c : List (ℕ × PathOrigin)} {p : ℕ × PathOrigin}
    (h : InSections context (a ++ p :: c)) (n : ℕ) :
    InSections context (a ++ (List.replicate n p ++ c)) := by
  induction n with
  | zero => exact h.sublist ((List.sublist_cons_self p c).append_left a)
  | succ n ih =>
    obtain ⟨hplace, hpair⟩ := h
    obtain ⟨ha, hpc, hac⟩ := List.pairwise_append.1 hpair
    obtain ⟨hp, hc⟩ := List.pairwise_cons.1 hpc
    obtain ⟨-, hrest, harest⟩ := List.pairwise_append.1 ih.2
    constructor
    · intro q hq
      apply hplace
      simp only [List.replicate_succ, List.cons_append, List.mem_append, List.mem_cons,
        List.mem_replicate] at hq ⊢
      tauto
    · rw [List.replicate_succ, List.cons_append, List.pairwise_append, List.pairwise_cons]
      refine ⟨ha, ⟨fun q hq hq2 => ?_, hrest⟩, fun q hq r hr => ?_⟩
      · rcases List.mem_append.1 hq with hq | hq
        · rw [(List.mem_replicate.1 hq).2] at hq2 ⊢
          exact ⟨hq2, le_rfl⟩
        · exact hp q hq hq2
      · rcases List.mem_cons.1 hr with rfl | hr
        · exact hac q hq r List.mem_cons_self
        · exact harest q hq r hr

/-- Each path is replaced by any number of elements with its number. -/
theorem InSections.flatten {α β : Type*} {f : α → ℕ × PathOrigin} {g : β → ℕ × PathOrigin}
    {l : List α} {parts : List (List β)} {a : List (ℕ × PathOrigin)}
    (hparts : List.Forall₂ (fun x part => ∀ y ∈ part, g y = f x) l parts)
    (h : InSections context (a ++ l.map f)) : InSections context (a ++ parts.flatten.map g) := by
  induction hparts generalizing a with
  | nil => exact h
  | cons hpart hrest ih =>
    next x part l parts =>
    have hmap : part.map g = List.replicate part.length (f x) :=
      List.eq_replicate_iff.2 ⟨List.length_map g, fun q hq => by
        obtain ⟨y, hy, rfl⟩ := List.mem_map.1 hq
        exact hpart y hy⟩
    rw [List.map_cons] at h
    have hone := h.replicate part.length
    rw [← hmap, ← List.append_assoc] at hone
    rw [List.flatten_cons, List.map_append, ← List.append_assoc]
    exact ih hone

/-- What `get_path_list` makes of a section is numbered by the places. -/
theorem getPathList_inSections {tf : Tupfile} {bl : Option (List Text)} {s : Text}
    {pls : List RulePath} (h : getPathList tf bl .rule s = some pls) :
    InSections False (pls.map RulePath.key) := by
  have hpair : ∀ {fuel k : ℕ} {s : Text} {pls : List RulePath},
      getPathListLoop tf bl .rule fuel k s = some pls →
        pls.Pairwise fun a b => a.orderid ≤ b.orderid := by
    intro fuel
    induction fuel with
    | zero =>
      intro k s pls h
      cases s with
      | nil =>
        cases h
        exact .nil
      | cons c s => cases h
    | succ fuel ih =>
      intro k s pls h
      cases s with
      | nil =>
        cases h
        exact .nil
      | cons c s =>
        obtain ⟨⟨dest, rest⟩, -, h⟩ := Option.bind_eq_some_iff.1 h
        obtain ⟨pl, -, h⟩ := Option.bind_eq_some_iff.1 h
        obtain ⟨more, hmore, h⟩ := Option.bind_eq_some_iff.1 h
        cases h
        refine List.pairwise_cons.2 ⟨fun q hq => ?_, ih hmore⟩
        have hle := (getPathListLoop_origin hmore q hq).1
        show k ≤ q.orderid
        omega
  constructor
  · intro p hp
    obtain ⟨pl, hpl, rfl⟩ := List.mem_map.1 hp
    rw [Placed, show pl.key.2 = .rule pl.orderid from (getPathListLoop_origin h pl hpl).2]
    rfl
  · rw [List.pairwise_map]
    refine (hpair h).imp_of_mem fun ha _ hle _ => ⟨?_, hle⟩
    rw [show (RulePath.key _).2 = .rule _ from (getPathListLoop_origin h _ ha).2]
    simp

/-! ### Taking what has a number -/

theorem numbered_map {α β : Type*} (f : α → β) (number : β → ℕ) (num : ℕ) (l : List α) :
    numbered number num (l.map f) = (numbered (fun x => number (f x)) num l).map f := by
  induction l with
  | nil => rfl
  | cons x l ih =>
    rw [List.map_cons, numbered, numbered]
    split
    · rw [List.map_cons, ih]
    · split
      · rfl
      · exact ih

theorem numbered_eq {α : Type*} (number : α → ℕ) (num : ℕ) (l : List α) : numbered number num l =
    (l.takeWhile (number · ≤ num)).filter (number · = num) := by
  induction l with
  | nil => rfl
  | cons x l ih =>
    rw [numbered]
    by_cases heq : number x = num
    · rw [if_pos heq, List.takeWhile_cons_of_pos (by simpa using heq.le),
        List.filter_cons_of_pos (by simpa using heq), ih]
    · rw [if_neg heq]
      by_cases hlt : num < number x
      · rw [if_pos hlt, List.takeWhile_cons_of_neg (by simpa using hlt)]
        rfl
      · rw [if_neg hlt, List.takeWhile_cons_of_pos (by simpa using hlt),
          List.filter_cons_of_neg (by simpa using heq), ih]

/-- The walk takes what was written at the place with the number, unless it comes to something of the
build context that has the number before it comes to a larger one. -/
theorem numbered_iff {α : Type*} {number : α → ℕ} {origin : α → PathOrigin} {l : List α}
    (h : InSections context (l.map fun x => (number x, origin x))) (num : ℕ) :
    numbered number num l = l.filter (origin · = .rule num) ↔
      ∀ pre x post, l = pre ++ x :: post → origin x = .context → number x = num →
        ∃ y ∈ pre, num < number y := by
  obtain ⟨hplace, hpair⟩ := h
  have hplace' : ∀ x ∈ l, ∀ k, origin x = .rule k → number x = k := fun x hx k hk => by
    have hp := hplace _ (List.mem_map.2 ⟨x, hx, rfl⟩)
    simpa [Placed, hk] using hp
  rw [List.pairwise_map] at hpair
  constructor
  · intro heq pre x post hl hctx hnum
    by_contra hno
    have hpre : ∀ y ∈ pre, number y ≤ num := fun y hy => le_of_not_gt fun hlt => hno ⟨y, hy, hlt⟩
    have hmem : x ∈ numbered number num l := by
      rw [numbered_eq, hl, List.takeWhile_append_of_pos (by simpa using hpre),
        List.takeWhile_cons_of_pos (by simpa using hnum.le)]
      simp [hnum]
    rw [heq, List.mem_filter, hctx] at hmem
    simp at hmem
  · intro hctx
    rw [numbered_eq]
    have hsplit := List.takeWhile_append_dropWhile (p := fun x => decide (number x ≤ num)) (l := l)
    set front := l.takeWhile (number · ≤ num) with hfront
    set back := l.dropWhile (number · ≤ num) with hback
    have hle : ∀ y ∈ front, number y ≤ num := fun y hy => by
      simpa using List.mem_takeWhile_imp hy
    have hfrontEq : front.filter (number · = num) = front.filter (origin · = .rule num) := by
      apply List.filter_congr
      intro x hx
      have hxl : x ∈ l := hsplit ▸ List.mem_append_left back hx
      rw [decide_eq_decide]
      constructor
      · intro hnum
        cases horigin : origin x with
        | rule k =>
          rw [← hplace' x hxl k horigin, hnum]
        | context =>
          obtain ⟨pre, post, hpp⟩ := List.append_of_mem hx
          obtain ⟨y, hy, hlt⟩ := hctx pre x (post ++ back) (by
            rw [← hsplit, hpp, List.append_assoc, List.cons_append]) horigin hnum
          have hyle := hle y (hpp ▸ List.mem_append_left _ hy)
          omega
      · exact hplace' x hxl num
    have hbackEq : back.filter (origin · = .rule num) = [] := by
      rw [List.filter_eq_nil_iff]
      intro x hx
      rw [decide_eq_true_eq]
      intro horigin
      have hxl : x ∈ l := hsplit ▸ List.mem_append_right front hx
      have hnum := hplace' x hxl num horigin
      -- what stopped the walk is in front of it
      obtain ⟨y, rest, hyr⟩ : ∃ y rest, back = y :: rest :=
        List.exists_cons_of_ne_nil (List.ne_nil_of_mem hx)
      have hy : num < number y := by
        have hhead := List.head?_dropWhile_not (fun x => decide (number x ≤ num)) l
        rw [← hback, hyr] at hhead
        simpa using hhead
      rw [hyr] at hx
      rcases List.mem_cons.1 hx with rfl | hx
      · omega
      · rw [← hsplit, hyr] at hpair
        have hyx := (List.pairwise_cons.1 (List.pairwise_append.1 hpair).2.1).1 x hx
        have hle := (hyx (by simp [horigin])).2
        omega
    rw [hfrontEq, ← hsplit, List.filter_append, hbackEq, List.append_nil]

/-! ### The lists of a rule -/

/-- What is not modelled: variables, bins, patterns, and the database. -/
structure RuleWorld where
  tf : Tupfile
  /-- The last name of the directory of the Tupfile. -/
  dirName : Text
  /-- Source: `parser.c` `eval` -/
  eval : Text → Option Text
  /-- Source: `parser.c` `path_uses_caller_path_var` -/
  callerPathVar : Text → Bool
  /-- The bins that can be used. Source: `parser.c` `current_bin_head` -/
  bins : Option (List Text)
  bin : Text → List BinEntry
  /-- A pattern matches a path. -/
  excludes : Text → Text → Bool
  /-- What `path_list_fill_dt_pel` and `nl_add_path` find for a path: nothing in the database when it is
  outside of the project. -/
  found : PathList → Option (Option (BuildNameListArgs × List FileTent))
  /-- The path and the node of an output, if it is neither a group nor an exclusion. Source: `parser.c`
  `do_rule_outputs` -/
  output : PathList → Option (Option (Text × TupId))

/-- An element of a name list, with where its path was written. -/
structure Found where
  nle : NameEntry
  origin : PathOrigin

/-- The number of a name and where its path was written. -/
def Found.key (e : Found) : ℕ × PathOrigin := (e.nle.orderid, e.origin)

/-- A name list whose elements know where they come from. -/
structure FoundList where
  entries : List Found := []
  globcnt : ℕ := 0

/-- The list as the program has it. -/
def FoundList.names (nl : FoundList) : NameList := ⟨nl.entries.map Found.nle, nl.globcnt⟩

/-- `add_name_list_entry` -/
def FoundList.add (nl : FoundList) (e : Found) : FoundList := ⟨nl.entries ++ [e], e.nle.globcnt⟩

/-- A path with its variables replaced, which can be several. Source: `parser.c` `eval_path_list`, the
body of its loop -/
def evalPath (w : RuleWorld) (inputNl : Option FoundList) (pl : RulePath) : Option (List RulePath) := do
  let tinput ← inputNl.elim (some pl.mem) fun nl =>
    tupPrintf { nl := nl.names, dirName := w.dirName } true pl.mem
  let evalP ← w.eval tinput
  if evalP = pl.mem then return [pl]
  else
    let words := (evalP.splitOnP fun c => c = ' ' || c = '\t').filter (· ≠ [])
    words.mapM fun p => (newPl w.tf p none).map fun newpl =>
      { newpl with
        tentRelative := pl.tentRelative && !w.callerPathVar pl.mem
        orderid := pl.orderid
        origin := pl.origin }

/-- Source: `parser.c` `eval_path_list` -/
def evalPathList (w : RuleWorld) (inputNl : Option FoundList) (plist : List RulePath) :
    Option (List RulePath) :=
  (plist.mapM (evalPath w inputNl)).map List.flatten

/-- The names that are found for a path. -/
def pathEntries (w : RuleWorld) (pl : RulePath) : Option (List NameEntry) :=
  match pl.kind with
  | .bin => some ((w.bin pl.mem).map fun be => binEntry be pl.orderid)
  | .exclusion => some []
  | .path | .group =>
    match w.found pl.toPathList with
    | none => none
    | some none => some [externalEntry pl.mem pl.orderid]
    | some (some (args, tents)) =>
      (tents.foldlM (buildNameListCb { args with orderid := pl.orderid }) initNameList).map
        NameList.entries

/-- The body of the loop of `get_name_list`. -/
def getName (w : RuleWorld) (nl : FoundList) (pl : RulePath) : Option FoundList :=
  if pl.kind = .exclusion then
    some { nl with entries := nl.entries.filter fun e => !w.excludes pl.mem e.nle.path }
  else (pathEntries w pl).map fun l => (l.map (Found.mk · pl.origin)).foldl FoundList.add nl

/-- Source: `parser.c` `path_list_to_nl`, `get_name_list` -/
def pathListToNl (w : RuleWorld) (inputNl : Option FoundList) (plist : List RulePath) :
    Option FoundList := do
  let pls ← evalPathList w inputNl plist
  pls.foldlM (getName w) {}

/-- Source: `parser.c` `make_name_list_unique` -/
def uniqueFound : List TupId → List Found → List Found
  | _, [] => []
  | root, e :: l =>
    match e.nle.tent with
    | none => e :: uniqueFound root l
    | some tupid => if tupid ∈ root then uniqueFound root l else e :: uniqueFound (tupid :: root) l

/-- The paths of a list with their flags replaced. Source: `parser.c` `do_rule_outputs` -/
def printfPaths (w : RuleWorld) (args : PrintfArgs) (expandPercperc : Bool) (pls : List RulePath) :
    Option (List RulePath) :=
  pls.mapM fun pl => do
    let toutput ← tupPrintf args expandPercperc pl.mem
    let newpl ← newPl w.tf toutput none
    return { newpl with orderid := pl.orderid, origin := pl.origin }

/-- The entry of an output, if it has one. -/
def outputFound (w : RuleWorld) (pl : RulePath) : Option (List Found) :=
  (w.output pl.toPathList).map fun o =>
    (o.map fun (path, tent) => ⟨outputEntry path tent pl.orderid, pl.origin⟩).toList

/-- Source: `parser.c` `do_rule_outputs`, for the outputs that `%o` is about -/
def ruleOutputNames (w : RuleWorld) (args : PrintfArgs) (oplist : List RulePath) : Option FoundList := do
  let tmplist ← printfPaths w args false oplist
  let tmplist ← evalPathList w none tmplist
  let tmplist2 ← printfPaths w args true tmplist
  let onles ← tmplist2.mapM (outputFound w)
  return onles.flatten.foldl FoundList.add {}

/-- A section of a rule: each path has the number of its place. -/
structure PathSection where
  paths : List RulePath
  places : InSections False (paths.map RulePath.key)

/-- The section of a text. -/
def PathSection.read (tf : Tupfile) (bl : Option (List Text)) (s : Text) : Option PathSection :=
  match h : getPathList tf bl .rule s with
  | none => none
  | some pls => some ⟨pls, getPathList_inSections h⟩

/-- Source: `parser.h` `struct rule`, once a macro has been looked up -/
structure NumberedRule where
  foreach : Bool
  emptyInput : Bool
  inputs : PathSection
  orderOnlyInputPaths : PathSection
  outputs : PathSection

/-- The lists that `do_rule` hands to `tup_printf` for the command. -/
structure RuleCall where
  nl : FoundList
  onl : FoundList
  orderOnlyInputs : FoundList
  ext : Option Text

/-- The arguments of `tup_printf` for the command. -/
def RuleCall.args (w : RuleWorld) (call : RuleCall) : PrintfArgs where
  nl := call.nl.names
  onl := some call.onl.names
  ooinputNl := some call.orderOnlyInputs.names
  ext := call.ext
  dirName := w.dirName

/-- Source: `parser.c` `do_rule`, until it expands the command -/
def ruleCall (w : RuleWorld) (r : NumberedRule) (nl orderOnlyInputs : FoundList) (ext : Option Text) :
    Option RuleCall :=
  (ruleOutputNames w { nl := nl.names, ext, dirName := w.dirName } r.outputs.paths).map fun onl =>
    { nl, onl, orderOnlyInputs, ext }

/-- The loop of `execute_rule` over the inputs, until something fails. -/
def foreachCalls (w : RuleWorld) (r : NumberedRule) (paths : List RulePath) : List Found → List RuleCall
  | [] => []
  | e :: l =>
    let nl : FoundList := FoundList.add {} e
    let call : Option RuleCall := do
      let ext ← e.nle.ext
      let tmpOoInputs ← copyPathList w.tf w.bins paths
      let orderOnlyInputs ← pathListToNl w (some nl) tmpOoInputs
      ruleCall w r nl orderOnlyInputs ext
    match call with
    | none => []
    | some call => call :: foreachCalls w r paths l

/-- The calls of `tup_printf` for the commands of a rule, until something fails. Source: `parser.c`
`execute_rule` -/
def ruleCalls (w : RuleWorld) (ctx : Option BuildCtx) (r : NumberedRule) : List RuleCall :=
  let lists : Option (FoundList × List RulePath) := do
    let inputs ← pathListToNl w none r.inputs.paths
    -- `build_ctx_copy_order_only_inputs`
    let more ← copyPathList w.tf w.bins (ctx.elim [] BuildCtx.orderOnlyInputPaths)
    return ({ inputs with entries := uniqueFound [] inputs.entries }, r.orderOnlyInputPaths.paths ++ more)
  match lists with
  | none => []
  | some (inputs, paths) =>
    if r.foreach then foreachCalls w r paths inputs.entries
    else
      let call : Option RuleCall := do
        let orderOnlyInputs ← pathListToNl w (some inputs) paths
        if inputs.entries ≠ [] ∨ r.emptyInput then ruleCall w r inputs orderOnlyInputs none else none
      call.toList

/-! ### The numbers in the lists of a rule -/

theorem forall₂_of_mapM {α β : Type} {f : α → Option β} {R : α → β → Prop} {l : List α} {l' : List β}
    (hf : ∀ x y, f x = some y → R x y) (h : l.mapM f = some l') : List.Forall₂ R l l' := by
  induction l generalizing l' with
  | nil =>
    cases h
    exact .nil
  | cons x l ih =>
    rw [List.mapM_cons] at h
    obtain ⟨y, hy, h⟩ := Option.bind_eq_some_iff.1 h
    obtain ⟨ys, hys, h⟩ := Option.bind_eq_some_iff.1 h
    cases h
    exact .cons (hf x y hy) (ih hys)

theorem exists_of_mem_mapM {α β : Type} {f : α → Option β} {l : List α} {l' : List β} {y : β}
    (h : l.mapM f = some l') (hy : y ∈ l') : ∃ x ∈ l, f x = some y := by
  induction l generalizing l' with
  | nil =>
    cases h
    cases hy
  | cons x l ih =>
    rw [List.mapM_cons] at h
    obtain ⟨z, hz, h⟩ := Option.bind_eq_some_iff.1 h
    obtain ⟨zs, hzs, h⟩ := Option.bind_eq_some_iff.1 h
    cases h
    rcases List.mem_cons.1 hy with rfl | hy
    · exact ⟨x, List.mem_cons_self, hz⟩
    · obtain ⟨v, hv, hfv⟩ := ih hzs hy
      exact ⟨v, List.mem_cons_of_mem x hv, hfv⟩

/-- A step for each path that keeps its number keeps the numbers. -/
theorem map_eq_of_forall₂ {α β γ : Type} {f : α → γ} {g : β → γ} {l : List α} {l' : List β}
    (h : List.Forall₂ (fun x y => g y = f x) l l') : l'.map g = l.map f := by
  induction h with
  | nil => rfl
  | cons hxy _ ih => rw [List.map_cons, List.map_cons, hxy, ih]

section

variable {w : RuleWorld} {inputNl : Option FoundList}

theorem copyPathList_key {tf : Tupfile} {bl : Option (List Text)} {src pls : List RulePath}
    (h : copyPathList tf bl src = some pls) : pls.map RulePath.key = src.map RulePath.key := by
  refine map_eq_of_forall₂ (forall₂_of_mapM (fun pl newpl hnew => ?_) h)
  obtain ⟨q, -, rfl⟩ := Option.map_eq_some_iff.1 hnew
  rfl

theorem printfPaths_key {args : PrintfArgs} {b : Bool} {src pls : List RulePath}
    (h : printfPaths w args b src = some pls) : pls.map RulePath.key = src.map RulePath.key := by
  refine map_eq_of_forall₂ (forall₂_of_mapM (fun pl newpl hnew => ?_) h)
  obtain ⟨text, -, hnew⟩ := Option.bind_eq_some_iff.1 hnew
  obtain ⟨q, -, hnew⟩ := Option.bind_eq_some_iff.1 hnew
  cases hnew
  rfl

theorem evalPath_key {pl : RulePath} {part : List RulePath} (h : evalPath w inputNl pl = some part) :
    ∀ q ∈ part, q.key = pl.key := by
  unfold evalPath at h
  obtain ⟨tinput, -, h⟩ := Option.bind_eq_some_iff.1 h
  obtain ⟨evalP, -, h⟩ := Option.bind_eq_some_iff.1 h
  split at h
  · cases h
    simp
  · intro q hq
    obtain ⟨word, -, hword⟩ := exists_of_mem_mapM h hq
    obtain ⟨newpl, -, rfl⟩ := Option.map_eq_some_iff.1 hword
    rfl

theorem evalPathList_inSections {plist pls : List RulePath} {a : List (ℕ × PathOrigin)}
    (hs : InSections context (a ++ plist.map RulePath.key))
    (h : evalPathList w inputNl plist = some pls) :
    InSections context (a ++ pls.map RulePath.key) := by
  obtain ⟨parts, hparts, rfl⟩ := Option.map_eq_some_iff.1 h
  exact hs.flatten (forall₂_of_mapM (fun pl part => evalPath_key) hparts)

theorem buildNameList_orderid {args : BuildNameListArgs} {tents : List FileTent} {nl nl' : NameList}
    (hnl : ∀ nle ∈ nl.entries, nle.orderid = args.orderid)
    (h : tents.foldlM (buildNameListCb args) nl = some nl') :
    ∀ nle ∈ nl'.entries, nle.orderid = args.orderid := by
  induction tents generalizing nl with
  | nil =>
    cases h
    exact hnl
  | cons tent tents ih =>
    rw [List.foldlM_cons] at h
    obtain ⟨m, hm, h⟩ := Option.bind_eq_some_iff.1 h
    apply ih _ h
    unfold buildNameListCb at hm
    split at hm
    · split at hm
      · cases hm
        exact hnl
      · cases hm
    · cases hm
      intro nle hnle
      rcases List.mem_append.1 hnle with hnle | hnle
      · exact hnl nle hnle
      · rw [List.mem_singleton.1 hnle]
        rfl

/-- The names found for a path have its number. -/
theorem pathEntries_orderid {pl : RulePath} {l : List NameEntry} (h : pathEntries w pl = some l) :
    ∀ nle ∈ l, nle.orderid = pl.orderid := by
  have hfound : ∀ {r : Option (Option (BuildNameListArgs × List FileTent))} {l : List NameEntry},
      (match r with
        | none => none
        | some none => some [externalEntry pl.mem pl.orderid]
        | some (some (args, tents)) =>
          (tents.foldlM (buildNameListCb { args with orderid := pl.orderid }) initNameList).map
            NameList.entries) = some l → ∀ nle ∈ l, nle.orderid = pl.orderid := by
    intro r l h
    split at h
    · cases h
    · cases h
      intro nle hnle
      rw [List.mem_singleton.1 hnle]
      rfl
    · next args tents =>
      obtain ⟨nl, hnl, rfl⟩ := Option.map_eq_some_iff.1 h
      have hnone : ∀ nle ∈ initNameList.entries,
          nle.orderid = ({ args with orderid := pl.orderid } : BuildNameListArgs).orderid := by
        intro nle hnle
        cases hnle
      exact buildNameList_orderid hnone hnl
  unfold pathEntries at h
  split at h
  · cases h
    intro nle hnle
    obtain ⟨be, -, rfl⟩ := List.mem_map.1 hnle
    rfl
  · cases h
    simp
  · exact hfound h
  · exact hfound h

theorem foldl_add_entries (l : List Found) (nl : FoundList) :
    (l.foldl FoundList.add nl).entries = nl.entries ++ l := by
  induction l generalizing nl with
  | nil => simp
  | cons e l ih =>
    rw [List.foldl_cons, ih]
    simp [FoundList.add]

/-- The names of the paths so far come with the numbers of the paths that are left. -/
theorem getName_inSections {nl nl' : FoundList} {pl : RulePath} {c : List (ℕ × PathOrigin)}
    (hs : InSections context (nl.entries.map Found.key ++ pl.key :: c))
    (h : getName w nl pl = some nl') : InSections context (nl'.entries.map Found.key ++ c) := by
  unfold getName at h
  split at h
  · cases h
    exact hs.sublist (((List.filter_sublist.map Found.key)).append (List.sublist_cons_self _ _))
  · obtain ⟨l, hl, rfl⟩ := Option.map_eq_some_iff.1 h
    have hkeys : (l.map (Found.mk · pl.origin)).map Found.key = List.replicate l.length pl.key := by
      rw [List.map_map, List.eq_replicate_iff]
      refine ⟨List.length_map _, fun q hq => ?_⟩
      obtain ⟨nle, hnle, rfl⟩ := List.mem_map.1 hq
      exact Prod.ext (pathEntries_orderid hl nle hnle) rfl
    rw [foldl_add_entries, List.map_append, hkeys, List.append_assoc]
    exact hs.replicate l.length

theorem getNameList_inSections {pls : List RulePath} {nl nl' : FoundList}
    (hs : InSections context (nl.entries.map Found.key ++ pls.map RulePath.key))
    (h : pls.foldlM (getName w) nl = some nl') : InSections context (nl'.entries.map Found.key) := by
  induction pls generalizing nl with
  | nil =>
    cases h
    simpa using hs
  | cons pl pls ih =>
    rw [List.foldlM_cons] at h
    obtain ⟨m, hm, h⟩ := Option.bind_eq_some_iff.1 h
    exact ih (getName_inSections hs hm) h

theorem pathListToNl_inSections {plist : List RulePath} {nl : FoundList}
    (hs : InSections context (plist.map RulePath.key))
    (h : pathListToNl w inputNl plist = some nl) : InSections context (nl.entries.map Found.key) := by
  obtain ⟨pls, hpls, h⟩ := Option.bind_eq_some_iff.1 h
  have hstart : InSections context (({} : FoundList).entries.map Found.key ++
      pls.map RulePath.key) := evalPathList_inSections hs hpls
  exact getNameList_inSections hstart h

theorem uniqueFound_sublist (root : List TupId) (l : List Found) : (uniqueFound root l).Sublist l := by
  induction l generalizing root with
  | nil => exact .slnil
  | cons e l ih =>
    unfold uniqueFound
    split
    · exact (ih root).cons_cons e
    · split
      · exact (ih root).cons e
      · exact (ih _).cons_cons e

theorem ruleOutputNames_inSections {args : PrintfArgs} {oplist : List RulePath} {onl : FoundList}
    (hs : InSections context (oplist.map RulePath.key))
    (h : ruleOutputNames w args oplist = some onl) : InSections context (onl.entries.map Found.key) := by
  unfold ruleOutputNames at h
  obtain ⟨l₁, h₁, h⟩ := Option.bind_eq_some_iff.1 h
  obtain ⟨l₂, h₂, h⟩ := Option.bind_eq_some_iff.1 h
  obtain ⟨l₃, h₃, h⟩ := Option.bind_eq_some_iff.1 h
  obtain ⟨onles, honles, h⟩ := Option.bind_eq_some_iff.1 h
  cases h
  have hs₁ : InSections context ([] ++ l₁.map RulePath.key) := by
    rw [printfPaths_key h₁]
    exact hs
  have hs₂ : InSections context ([] ++ l₂.map RulePath.key) := evalPathList_inSections hs₁ h₂
  have hs₃ : InSections context ([] ++ l₃.map RulePath.key) := by
    rw [printfPaths_key h₃]
    exact hs₂
  rw [foldl_add_entries]
  refine hs₃.flatten (forall₂_of_mapM (fun pl part hpart => ?_) honles)
  obtain ⟨o, -, rfl⟩ := Option.map_eq_some_iff.1 hpart
  intro e he
  cases o with
  | none => cases he
  | some o =>
    simp only [Option.map_some, Option.toList_some, List.mem_singleton] at he
    rw [he]
    rfl

end

/-! ### Flags with a number -/

/-- The list of a call that a flag is about. -/
def RuleCall.list (call : RuleCall) (kind : Char) : FoundList :=
  match kind with
  | 'o' => call.onl
  | 'i' => call.orderOnlyInputs
  | _ => call.nl

/-- The names that a flag with a number stands for. -/
def RuleCall.flagged (call : RuleCall) (kind : Char) (num : ℕ) : List Found :=
  numbered (fun e => e.nle.orderid) num (call.list kind).entries

/-- The names that come from the path at a place of the rule's own section. -/
def RuleCall.fromPath (call : RuleCall) (kind : Char) (num : ℕ) : List Found :=
  (call.list kind).entries.filter (·.origin = .rule num)

/-- The letters that can follow a number. -/
def numberKinds : Text := "fbBoi".toList

/-- `%`, a number and a letter. -/
def numberFlag (digits : Text) (kind : Char) : Text := '%' :: digits ++ [kind]

/-- Everything in the lists of a call is where it was written, and only the order-only inputs have
something of the build context. -/
structure RuleCall.Ok (call : RuleCall) : Prop where
  nl : InSections False (call.nl.entries.map Found.key)
  onl : InSections False (call.onl.entries.map Found.key)
  orderOnlyInputs : InSections True (call.orderOnlyInputs.entries.map Found.key)

theorem InSections.append_context {l l' : List (ℕ × PathOrigin)} (h : InSections False l)
    (h' : ∀ p ∈ l', p.2 = .context) : InSections True (l ++ l') := by
  have hrule : ∀ p ∈ l, p.2 ≠ .context := by
    intro p hp hctx
    have hplaced := h.1 p hp
    rw [Placed, hctx] at hplaced
    exact hplaced
  constructor
  · intro p hp
    rcases List.mem_append.1 hp with hp | hp
    · have hplaced := h.1 p hp
      unfold Placed at hplaced ⊢
      split
      · next k hk =>
        rwa [hk] at hplaced
      · trivial
    · rw [Placed, h' p hp]
      trivial
  · rw [List.pairwise_append]
    refine ⟨h.2, ?_, fun p _ q hq hne => absurd (h' q hq) hne⟩
    exact List.pairwise_of_forall_mem_list fun p _ q hq hne => absurd (h' q hq) hne

theorem ruleCall_ok {w : RuleWorld} {r : NumberedRule} {nl orderOnlyInputs : FoundList}
    {ext : Option Text} {call : RuleCall} (hnl : InSections False (nl.entries.map Found.key))
    (hoo : InSections True (orderOnlyInputs.entries.map Found.key))
    (h : ruleCall w r nl orderOnlyInputs ext = some call) : call.Ok := by
  obtain ⟨onl, honl, rfl⟩ := Option.map_eq_some_iff.1 h
  exact ⟨hnl, ruleOutputNames_inSections r.outputs.places honl, hoo⟩

theorem foreachCalls_ok {w : RuleWorld} {r : NumberedRule} {paths : List RulePath}
    (hpaths : InSections True (paths.map RulePath.key)) {l : List Found}
    (hl : InSections False (l.map Found.key)) : ∀ call ∈ foreachCalls w r paths l, call.Ok := by
  induction l with
  | nil =>
    intro call hcall
    cases hcall
  | cons e l ih =>
    intro call hcall
    have hone : InSections False ((FoundList.add {} e).entries.map Found.key) :=
      hl.sublist ((List.nil_sublist l).cons_cons e |>.map Found.key)
    unfold foreachCalls at hcall
    dsimp only at hcall
    split at hcall
    · cases hcall
    · next call' hcall' =>
      rcases List.mem_cons.1 hcall with rfl | hcall
      · obtain ⟨ext, -, hcall'⟩ := Option.bind_eq_some_iff.1 hcall'
        obtain ⟨tmp, htmp, hcall'⟩ := Option.bind_eq_some_iff.1 hcall'
        obtain ⟨oo, hoo, hcall'⟩ := Option.bind_eq_some_iff.1 hcall'
        refine ruleCall_ok hone (pathListToNl_inSections ?_ hoo) hcall'
        rw [copyPathList_key htmp]
        exact hpaths
      · exact ih (hl.sublist (List.sublist_cons_self _ _)) call hcall

theorem ruleCalls_ok (w : RuleWorld) (ctx : Option BuildCtx) (r : NumberedRule) :
    ∀ call ∈ ruleCalls w ctx r, call.Ok := by
  intro call hcall
  unfold ruleCalls at hcall
  dsimp only at hcall
  split at hcall
  · cases hcall
  · next inputs paths hlists =>
    obtain ⟨nl, hnl, hlists⟩ := Option.bind_eq_some_iff.1 hlists
    obtain ⟨more, hmore, hlists⟩ := Option.bind_eq_some_iff.1 hlists
    cases hlists
    have hinputs : InSections False ((uniqueFound [] nl.entries).map Found.key) :=
      (pathListToNl_inSections r.inputs.places hnl).sublist
        ((uniqueFound_sublist [] nl.entries).map Found.key)
    have hpaths : InSections True ((r.orderOnlyInputPaths.paths ++ more).map RulePath.key) := by
      rw [List.map_append, copyPathList_key hmore]
      apply r.orderOnlyInputPaths.places.append_context
      intro p hp
      obtain ⟨pl, hpl, rfl⟩ := List.mem_map.1 hp
      cases ctx with
      | none => cases hpl
      | some ctx => exact ctx.context pl hpl
    split at hcall
    · exact foreachCalls_ok hpaths hinputs call hcall
    · rw [Option.mem_toList] at hcall
      obtain ⟨oo, hoo, hcall⟩ := Option.bind_eq_some_iff.1 hcall
      split at hcall
      · exact ruleCall_ok hinputs (pathListToNl_inSections hpaths hoo) hcall
      · cases hcall

/-- With nothing of a build context in the list, the number is that of the path. -/
theorem numbered_of_rule {l : List Found} (h : InSections False (l.map Found.key)) (num : ℕ) :
    numbered (fun e => e.nle.orderid) num l = l.filter (·.origin = .rule num) := by
  apply (numbered_iff h num).2
  intro pre e post hl hctx _
  have hplaced := h.1 e.key (List.mem_map.2 ⟨e, hl ▸ List.mem_append_right pre List.mem_cons_self, rfl⟩)
  have hkey : e.key.2 = .context := hctx
  rw [Placed, hkey] at hplaced
  exact hplaced.elim

theorem readFlag_digit {c : Char} (h : c.isDigit = true) (p : Text) :
    readFlag (c :: p) = readNumber (c :: p) := by
  unfold readFlag
  split
  case h_16 d q _ _ _ _ _ _ _ _ _ _ _ _ _ _ _ heq =>
    cases heq
    rw [if_pos h]
  case h_17 heq => cases heq
  all_goals
    next heq =>
      cases heq
      exact absurd h (by decide)

theorem readFlag_number {digits : Text} {kind : Char} (hne : digits ≠ [])
    (hdigits : ∀ c ∈ digits, c.isDigit = true) (hlow : 1 ≤ decimal digits) (hhigh : decimal digits ≤ 98)
    (hkind : kind ∈ numberKinds) (p : Text) :
    readFlag (digits ++ kind :: p) = some (.number (decimal digits) kind, p) := by
  have hkinds : kind = 'f' ∨ kind = 'b' ∨ kind = 'B' ∨ kind = 'o' ∨ kind = 'i' := by
    simpa [numberKinds] using hkind
  have hnot : kind.isDigit = false ∧ kind ≠ 't' := by
    rcases hkinds with rfl | rfl | rfl | rfl | rfl <;> decide
  have htake : (digits ++ kind :: p).takeWhile Char.isDigit = digits := by
    rw [List.takeWhile_append_of_pos hdigits, List.takeWhile_cons_of_neg (by simp [hnot.1]),
      List.append_nil]
  have hdrop : (digits ++ kind :: p).dropWhile Char.isDigit = kind :: p := by
    rw [List.dropWhile_append_of_pos hdigits, List.dropWhile_cons_of_neg (by simp [hnot.1])]
  have hint : strtolInt digits = some (decimal digits : ℤ) := by
    have hsmall : decimal digits < 2 ^ 63 := hhigh.trans_lt (by decide)
    have hbmod : Int.bmod (decimal digits) (2 ^ 32) = decimal digits := by
      rw [show (2 : ℕ) ^ 32 = 4294967296 from rfl]
      apply Int.bmod_eq_of_le
      · omega
      · omega
    rw [strtolInt, if_pos hsmall, hbmod]
  have hrange : ¬ ((decimal digits : ℤ) ≤ 0 ∨ 99 ≤ (decimal digits : ℤ)) := by omega
  obtain ⟨c, cs, rfl⟩ := List.exists_cons_of_ne_nil hne
  rw [List.cons_append, readFlag_digit (hdigits c List.mem_cons_self), ← List.cons_append]
  unfold readNumber
  rw [htake, hdrop]
  dsimp only
  rw [hint]
  simp only [Option.bind_eq_bind, Option.bind_some, if_neg hnot.2, if_neg hrange, if_pos hkinds,
    Int.toNat_natCast]

/-- A flag with a number stands for the names that the walk takes. -/
theorem tupPrintf_numberFlag (args : PrintfArgs) (b : Bool) {digits : Text} {kind : Char}
    (hne : digits ≠ []) (hdigits : ∀ c ∈ digits, c.isDigit = true) (hlow : 1 ≤ decimal digits)
    (hhigh : decimal digits ≤ 98) (hkind : kind ∈ numberKinds) :
    tupPrintf args b (numberFlag digits kind) = (numberedList args kind).bind fun nl =>
      ((numbered NameEntry.orderid (decimal digits) nl.entries).mapM (numberedText kind)).map spaced := by
  unfold numberFlag
  rw [List.cons_append, tupPrintf_percent, readFlag_number hne hdigits hlow hhigh hkind,
    Option.bind_some]
  simp only [tupPrintf_nil, Option.map_some, List.append_nil, expandFlag, Option.bind_fun_some]

theorem numberedList_args (w : RuleWorld) (call : RuleCall) {kind : Char} (hkind : kind ∈ numberKinds) :
    numberedList (call.args w) kind = some (call.list kind).names := by
  have hkinds : kind = 'f' ∨ kind = 'b' ∨ kind = 'B' ∨ kind = 'o' ∨ kind = 'i' := by
    simpa [numberKinds] using hkind
  rcases hkinds with rfl | rfl | rfl | rfl | rfl <;> rfl

/-- A world in which every file is outside of the project and nothing else exists. -/
def plainWorld : RuleWorld where
  tf := { tent := [], curtent := [] }
  dirName := "top".toList
  eval := some
  callerPathVar _ := false
  bins := none
  bin _ := []
  excludes _ _ := false
  found _ := some none
  output _ := some none

/-- The section `own.h`. -/
def ownHeader : PathSection where
  paths := [{ mem := "own.h".toList, kind := .path, tentRelative := false, orderid := 1, origin := .rule 1 }]
  places := by simp [InSections, Placed, RulePath.key]

def noPaths : PathSection := ⟨[], by simp [InSections]⟩

/-- The context of a build that depends on another one. -/
def stampCtx : BuildCtx where
  orderOnlyInputPaths := [
    { mem := "lib.stamp".toList, kind := .path, tentRelative := false, orderid := 1, origin := .context }]
  context := by simp

/-- `: | own.h |> cmd %1i |>` -/
def headerRule : NumberedRule where
  foreach := false
  emptyInput := true
  inputs := noPaths
  orderOnlyInputPaths := ownHeader
  outputs := noPaths

end Metatup
