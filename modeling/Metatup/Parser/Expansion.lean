import Mathlib.Data.List.TakeWhile
import Metatup.Parser.OnePath

/-!
# Expanding a rule

The command of a rule is expanded three times before the shell gets it: `tup_printf` replaces the flags,
`eval` the references and then the nodes, and the updater the groups when it runs the command. The path of
an output goes through `tup_printf` once more. Each of them reads what the one before it has put in.

* `shellText`, `ruleOutputPaths`: what becomes of a command, and of the paths of the outputs.
* `Written`: what a text is written with.
* `reference`, `outputReference`: the expansion that never reads what it has put in.
-/

namespace Metatup.Eval

/-! ### At run time -/

/-- What the updater knows about the groups of a command. -/
structure GroupEnv where
  /-- The paths of the generated files in a group among the inputs of the command, with blanks between
  them; none if there is no such group. Source: `updater.c` `expand_group` -/
  paths : Text → Option Text
  /-- The directories from that of the command up to the top. -/
  numDotdots : ℕ

/-- The path of a resource file. -/
def GroupEnv.resFile (env : GroupEnv) (resfile : ℕ) : Text :=
  (List.replicate env.numDotdots "../".toList).flatten ++
    (".metatup/tmp/res-".toList ++ Nat.toDigits 10 resfile)

/-- What stands for a group, and the number of the next resource file. Source: `updater.c`
`expand_res_file`, `expand_group_inline` -/
def GroupEnv.expand (env : GroupEnv) (resfile : ℕ) (groupname : Text) (res : Bool) :
    Option (Text × ℕ) :=
  (env.paths groupname).map fun paths => if res then (env.resFile resfile, resfile + 1) else (paths, resfile)

/-- The end of the name of a resource file in a command. -/
def dotRes : Text := ".res".toList

/-- The loop of `expand_command`. -/
def expandCommandLoop (env : GroupEnv) : ℕ → ℕ → Text → Option (Text × ℕ)
  | _, resfile, [] => some ([], resfile)
  | 0, _, _ :: _ => none
  | fuel + 1, resfile, c :: s =>
    if c = '%' && s.head? = some '<' then
      match s.dropWhile (· ≠ '>') with
      | [] => none
      | _ :: tcmd => do
        let res := decide (tcmd.take 4 = dotRes)
        let (text, resfile) ← env.expand resfile (s.takeWhile (· ≠ '>') ++ ['>']) res
        let (more, resfile) ← expandCommandLoop env fuel resfile (if res then tcmd.drop 4 else tcmd)
        return (text ++ more, resfile)
    else (expandCommandLoop env fuel resfile s).map fun r => (c :: r.1, r.2)

/-- Source: `updater.c` `expand_command`; `resfile` is the number of the next resource file. -/
def expandCommand (env : GroupEnv) (resfile : ℕ) (cmd : Text) : Option (Text × ℕ) :=
  expandCommandLoop env cmd.length resfile cmd

/-! ### The passes over a rule -/

/-- What the shell gets for a command: as `do_rule` stores it, and as `update` expands it. -/
def shellText (env : EvalEnv) (groups : GroupEnv) (resfile : ℕ) (args : PrintfArgs) (cmd : Text)
    (extraCommand : Option Text) : Option (Text × ℕ) :=
  ((tupPrintfExtra args cmd extraCommand).bind (eval env .cmd)).bind (expandCommand groups resfile)

/-- The paths of the outputs. Source: `parser.c` `do_rule_outputs` -/
def ruleOutputPaths (w : RuleWorld) (args : PrintfArgs) (oplist : List RulePath) :
    Option (List RulePath) := do
  let tmplist ← printfPaths w args false oplist
  let tmplist ← evalPathList w none tmplist
  printfPaths w args true tmplist

theorem ruleOutputNames_eq (w : RuleWorld) (args : PrintfArgs) (oplist : List RulePath) :
    ruleOutputNames w args oplist = (ruleOutputPaths w args oplist).bind fun pls =>
      (pls.mapM (outputFound w)).map fun onles => onles.flatten.foldl FoundList.add {} := by
  unfold ruleOutputNames ruleOutputPaths
  cases printfPaths w args false oplist with
  | none => rfl
  | some tmplist =>
    dsimp only [Option.bind_eq_bind, Option.bind_some]
    cases evalPathList w none tmplist with
    | none => rfl
    | some tmplist =>
      dsimp only [Option.bind_some]
      cases printfPaths w args true tmplist with
      | none => rfl
      | some tmplist2 =>
        dsimp only [Option.bind_some]
        cases tmplist2.mapM (outputFound w) <;> rfl

/-! ### What is written -/

/-- The sign of a reference. -/
abbrev Sign := { c : Char // isSign c = true }

/-- A sign that a backslash makes stand for itself. -/
abbrev EscapedSign := { c : Char // c = '$' ∨ c = '@' }

/-- What a text of a rule is written with. A group is a flag, a name and its end. -/
inductive Written
  | char (c : Char)
  | flag (flag : PercentFlag)
  /-- `>` or `>.res` -/
  | close (res : Bool)
  /-- `\$(` or `\@(` -/
  | escaped (sign : EscapedSign)
  | ref (sign : Sign) (name : Text)
  deriving DecidableEq

/-- The loop of `written`. -/
def writtenLoop : ℕ → Bool → Text → Option (List Written)
  | _, inGroup, [] => if inGroup then none else some []
  | 0, _, _ :: _ => none
  | fuel + 1, inGroup, c :: s =>
    if c = '%' then do
      let (flag, p) ← readFlag s
      let more ← writtenLoop fuel (inGroup || flag = .group) p
      return .flag flag :: more
    else if inGroup && c = '>' then
      let res := decide (s.take 4 = dotRes)
      (writtenLoop fuel false (if res then s.drop 4 else s)).map (.close res :: ·)
    else if h : isSign c = true ∧ s.head? = some '(' then do
      let (name, rest) ← findMatchingParen false 1 (s.drop 1)
      let more ← writtenLoop fuel inGroup rest
      return .ref ⟨c, h.1⟩ name :: more
    else
      match c, s with
      | '\\', '$' :: '(' :: s => (writtenLoop fuel inGroup s).map (.escaped ⟨'$', .inl rfl⟩ :: ·)
      | '\\', '@' :: '(' :: s => (writtenLoop fuel inGroup s).map (.escaped ⟨'@', .inr rfl⟩ :: ·)
      | c, s => (writtenLoop fuel inGroup s).map (.char c :: ·)

/-- What a text is written with; none if it has a `%` that is no flag, or a reference or group that does
not end. -/
def written (s : Text) : Option (List Written) := writtenLoop s.length false s

/-- What a command is written with. -/
def writtenCommand (cmd : Text) : Option Text → Option (List Written)
  | none => written cmd
  | some extra => do
    let ws ← written cmd
    let more ← written extra
    return ws ++ .char ' ' :: more

/-! ### Replacing everything once -/

/-- What is not replaced any more, or only when the command is run. -/
inductive Final
  | char (c : Char)
  /-- The `%` that `%%` stands for. -/
  | percent
  | group
  | close (res : Bool)
  deriving DecidableEq

/-- What is left when the flags are replaced. -/
inductive Flagged
  | final (f : Final)
  | escaped (sign : EscapedSign)
  | ref (sign : Sign) (name : Text)
  deriving DecidableEq

/-- The number of a node, as it stands in a value. -/
structure NodeNumber where
  digits : Text
  ne_nil : digits ≠ []
  isDigit : ∀ c ∈ digits, c.isDigit = true
  lt : decimal digits < 2 ^ 63
  deriving DecidableEq

/-- What is left when the references are replaced too. -/
inductive Valued
  | final (f : Final)
  | node (number : NodeNumber)
  deriving DecidableEq

/-- Replace every element by some others. -/
def spread {α β : Type} (f : α → Option (List β)) (l : List α) : Option (List β) :=
  (l.mapM f).map List.flatten

/-- The characters of a text that is put in. -/
def putIn (t : Text) : List Final := t.map .char

/-- What the element is when flags are replaced. -/
def Written.flagged (args : PrintfArgs) : Written → Option (List Flagged)
  | .char c => some [.final (.char c)]
  | .flag .percent => some [.final .percent]
  | .flag .group => some [.final .group]
  | .flag f => (expandFlag args true f).map fun t => (putIn t).map .final
  | .close res => some [.final (.close res)]
  | .escaped sign => some [.escaped sign]
  | .ref sign name => (tupPrintf args true name).map fun name => [.ref sign name]

/-- The number of a node behind a `%`, and what comes after it. -/
def readNode (s : Text) : Option (NodeNumber × Text) :=
  match s.dropWhile Char.isDigit with
  | 't' :: rest =>
    if h : s.takeWhile Char.isDigit ≠ [] ∧ decimal (s.takeWhile Char.isDigit) < 2 ^ 63 then
      some (⟨s.takeWhile Char.isDigit, h.1, fun _ hc => List.mem_takeWhile_imp hc, h.2⟩, rest)
    else none
  | _ => none

/-- The loop of `valueOf`. -/
def valueLoop : ℕ → Text → List Valued
  | _, [] => []
  | 0, _ :: _ => []
  | fuel + 1, c :: s =>
    if c = '%' then
      match readNode s with
      | some (number, rest) => .node number :: valueLoop fuel rest
      | none => .final (.char c) :: valueLoop fuel s
    else .final (.char c) :: valueLoop fuel s

/-- A value, with the nodes it stands for. -/
def valueOf (value : Text) : List Valued := valueLoop value.length value

/-- What the element is when references are replaced. -/
def Flagged.valued (env : EvalEnv) : Flagged → Option (List Valued)
  | .final f => some [.final f]
  | .escaped sign => some [.final (.char sign.1), .final (.char '(')]
  | .ref sign name => (env.value sign.1 name).map valueOf

/-- What the element is when nodes are replaced. -/
def Valued.replaced (env : EvalEnv) : Valued → Option (List Final)
  | .final f => some [f]
  | .node number => (env.nodePath (decimal number.digits)).map putIn

/-- A text with its flags, its references and their nodes replaced. -/
def replaceAll (env : EvalEnv) (args : PrintfArgs) (ws : List Written) : Option (List Final) :=
  ((spread (Written.flagged args) ws).bind (spread (Flagged.valued env))).bind (spread (Valued.replaced env))

/-- The text of a `%`, before `%%` is replaced or after it. -/
def percentText (expandPercperc : Bool) : Text := if expandPercperc then "%".toList else "%%".toList

/-- The element as it is in a text. -/
def Final.text (b : Bool) : Final → Text
  | .char c => [c]
  | .percent => percentText b
  | .group => "%<".toList
  | .close res => '>' :: if res then dotRes else []

/-- The element as it is in a text. -/
def Flagged.text (b : Bool) : Flagged → Text
  | .final f => f.text b
  | .escaped sign => ['\\', sign.1, '(']
  | .ref sign name => sign.1 :: '(' :: (name ++ [')'])

/-- The element as it is in a text. -/
def Valued.text (b : Bool) : Valued → Text
  | .final f => f.text b
  | .node number => '%' :: (number.digits ++ ['t'])

/-- The text of some elements. -/
def finalText (b : Bool) (fs : List Final) : Text := fs.flatMap (Final.text b)

/-- The text of some elements. -/
def flaggedText (b : Bool) (ms : List Flagged) : Text := ms.flatMap (Flagged.text b)

/-- The text of some elements. -/
def valuedText (b : Bool) (ms : List Valued) : Text := ms.flatMap (Valued.text b)

/-- Replace the groups; `groupname` is what there is of the name of one that is open. -/
def replaceGroups (env : GroupEnv) : Option Text → ℕ → List Final → Option (Text × ℕ)
  | none, resfile, [] => some ([], resfile)
  | some _, _, [] => none
  | none, resfile, .group :: fs => replaceGroups env (some []) resfile fs
  | some groupname, resfile, .close res :: fs => do
    let (text, resfile) ← env.expand resfile ('<' :: (groupname ++ ['>'])) res
    let (more, resfile) ← replaceGroups env none resfile fs
    return (text ++ more, resfile)
  | some groupname, resfile, f :: fs => replaceGroups env (some (groupname ++ f.text true)) resfile fs
  | none, resfile, f :: fs => (replaceGroups env none resfile fs).map fun r => (f.text true ++ r.1, r.2)

/-- What the shell is to get for a command: each flag, reference and group that is written is replaced
once, and so are the nodes that references stand for. -/
def reference (env : EvalEnv) (groups : GroupEnv) (resfile : ℕ) (args : PrintfArgs)
    (ws : List Written) : Option (Text × ℕ) :=
  (replaceAll env args ws).bind (replaceGroups groups none resfile)

/-- What the paths of an output are to be: when the references have changed its text, the words of it. -/
def outputReference (env : EvalEnv) (args : PrintfArgs) (ws : List Written) : Option (List Text) := do
  let flagged ← spread (Written.flagged args) ws
  let fs ← replaceAll env args ws
  return if finalText false fs = flaggedText false flagged then [finalText true fs]
    else words (finalText true fs)

/-! ### Texts that are not read again -/

/-- The text starts with a reference, or with one that stands for itself. -/
def startsReference : Text → Bool
  | c :: d :: s => isSign c && d = '(' || c = '\\' && (d = '$' || d = '@') && s.head? = some '('
  | _ => false

/-- `eval` finds the references that are written. -/
def RefsApart (b : Bool) : List Flagged → Prop
  | [] => True
  | .final (.char c) :: ms => startsReference (c :: flaggedText b ms) = false ∧ RefsApart b ms
  | .ref _ name :: ms =>
    findMatchingParen false 1 (name ++ ')' :: flaggedText b ms) = some (name, flaggedText b ms) ∧
      RefsApart b ms
  | _ :: ms => RefsApart b ms

/-- `expand_node_strings` finds the nodes that values stand for. -/
def NodesApart (b : Bool) : List Valued → Prop
  | [] => True
  | .final (.char c) :: ms => nodeReference (c :: valuedText b ms) = none ∧ NodesApart b ms
  | .final .percent :: ms => nodeReference ('%' :: valuedText b ms) = none ∧ NodesApart b ms
  | _ :: ms => NodesApart b ms

/-- `expand_command` finds the groups that are written. -/
def GroupsApart : Bool → List Final → Prop
  | _, [] => True
  | false, .group :: fs => GroupsApart true fs
  | true, .close res :: fs => (res = false → (finalText true fs).take 4 ≠ dotRes) ∧ GroupsApart false fs
  | true, f :: fs => '>' ∉ f.text true ∧ GroupsApart true fs
  | false, f :: fs => (f.text true ++ finalText true fs).take 2 ≠ "%<".toList ∧ GroupsApart false fs

instance decidableRefsApart (b : Bool) : ∀ ms, Decidable (RefsApart b ms)
  | [] => isTrue trivial
  | .final (.char _) :: ms => @instDecidableAnd _ _ _ (decidableRefsApart b ms)
  | .final .percent :: ms => decidableRefsApart b ms
  | .final .group :: ms => decidableRefsApart b ms
  | .final (.close _) :: ms => decidableRefsApart b ms
  | .escaped _ :: ms => decidableRefsApart b ms
  | .ref _ _ :: ms => @instDecidableAnd _ _ _ (decidableRefsApart b ms)

instance decidableNodesApart (b : Bool) : ∀ ms, Decidable (NodesApart b ms)
  | [] => isTrue trivial
  | .final (.char _) :: ms => @instDecidableAnd _ _ _ (decidableNodesApart b ms)
  | .final .percent :: ms => @instDecidableAnd _ _ _ (decidableNodesApart b ms)
  | .final .group :: ms => decidableNodesApart b ms
  | .final (.close _) :: ms => decidableNodesApart b ms
  | .node _ :: ms => decidableNodesApart b ms

instance decidableGroupsApart : ∀ inGroup fs, Decidable (GroupsApart inGroup fs)
  | _, [] => isTrue trivial
  | false, .group :: fs => decidableGroupsApart true fs
  | false, .char _ :: fs => @instDecidableAnd _ _ _ (decidableGroupsApart false fs)
  | false, .percent :: fs => @instDecidableAnd _ _ _ (decidableGroupsApart false fs)
  | false, .close _ :: fs => @instDecidableAnd _ _ _ (decidableGroupsApart false fs)
  | true, .group :: fs => @instDecidableAnd _ _ _ (decidableGroupsApart true fs)
  | true, .char _ :: fs => @instDecidableAnd _ _ _ (decidableGroupsApart true fs)
  | true, .percent :: fs => @instDecidableAnd _ _ _ (decidableGroupsApart true fs)
  | true, .close _ :: fs => @instDecidableAnd _ _ _ (decidableGroupsApart false fs)

/-- The name of a reference has no `%%`, which is not replaced in an output before the name is looked up. -/
def Written.nameKept (args : PrintfArgs) : Written → Bool
  | .ref _ name => tupPrintf args false name = tupPrintf args true name
  | _ => true

/-- In a command, nothing that is put in is read again. -/
structure CommandApart (env : EvalEnv) (args : PrintfArgs) (ws : List Written) : Prop where
  refs : ∀ ms ∈ spread (Written.flagged args) ws, RefsApart true ms
  nodes : ∀ ms ∈ spread (Written.flagged args) ws, ∀ ms' ∈ spread (Flagged.valued env) ms,
    NodesApart true ms'
  groups : ∀ fs ∈ replaceAll env args ws, GroupsApart false fs

/-- In the path of an output, nothing that is put in is read again, and there are no scripts. -/
structure OutputApart (env : EvalEnv) (args : PrintfArgs) (ws : List Written) : Prop where
  names : ∀ w ∈ ws, w.nameKept args = true
  refs : ∀ ms ∈ spread (Written.flagged args) ws, RefsApart false ms
  nodes : ∀ ms ∈ spread (Written.flagged args) ws, ∀ ms' ∈ spread (Flagged.valued env) ms,
    NodesApart false ms' ∧ '`' ∉ valuedText false ms'
  flags : ∀ fs ∈ replaceAll env args ws, .char '%' ∉ fs

instance decidableCommandApart (env : EvalEnv) (args : PrintfArgs) (ws : List Written) :
    Decidable (CommandApart env args ws) :=
  decidable_of_iff ((∀ ms ∈ spread (Written.flagged args) ws, RefsApart true ms) ∧
      (∀ ms ∈ spread (Written.flagged args) ws, ∀ ms' ∈ spread (Flagged.valued env) ms,
        NodesApart true ms') ∧ ∀ fs ∈ replaceAll env args ws, GroupsApart false fs)
    ⟨fun h => ⟨h.1, h.2.1, h.2.2⟩, fun h => ⟨h.refs, h.nodes, h.groups⟩⟩

instance decidableOutputApart (env : EvalEnv) (args : PrintfArgs) (ws : List Written) :
    Decidable (OutputApart env args ws) :=
  decidable_of_iff ((∀ w ∈ ws, w.nameKept args = true) ∧
      (∀ ms ∈ spread (Written.flagged args) ws, RefsApart false ms) ∧
      (∀ ms ∈ spread (Written.flagged args) ws, ∀ ms' ∈ spread (Flagged.valued env) ms,
        NodesApart false ms' ∧ '`' ∉ valuedText false ms') ∧
      ∀ fs ∈ replaceAll env args ws, .char '%' ∉ fs)
    ⟨fun h => ⟨h.1, h.2.1, h.2.2.1, h.2.2.2⟩, fun h => ⟨h.names, h.refs, h.nodes, h.flags⟩⟩

/-! ### Rules -/

/-- A section of outputs, with what their flags stand for. -/
structure OutputSection where
  args : PrintfArgs
  oplist : List RulePath

/-- The texts of a rule, with what the flags of the command stand for. -/
structure RuleTexts where
  /-- The command, without its own flags and its display text. -/
  cmd : Text
  extraCommand : Option Text := none
  args : PrintfArgs
  outputs : List OutputSection := []

namespace RuleTexts

/-- The texts are written with flags, references and groups that end. -/
structure Readable (r : RuleTexts) : Prop where
  command : (writtenCommand r.cmd r.extraCommand).isSome
  outputs : ∀ sec ∈ r.outputs, ∀ pl ∈ sec.oplist, (written pl.mem).isSome

/-- Nothing that is put in is read again. Nodes are replaced by paths from another directory in outputs. -/
structure Apart (env outputEnv : EvalEnv) (r : RuleTexts) : Prop extends Readable r where
  commandApart : ∀ ws ∈ writtenCommand r.cmd r.extraCommand, CommandApart env r.args ws
  outputsApart : ∀ sec ∈ r.outputs, ∀ pl ∈ sec.oplist, ∀ ws ∈ written pl.mem,
    OutputApart outputEnv sec.args ws

/-- The shell gets what it is to get, and the paths that are recorded are what they are to be. -/
structure ExpandedOnce (env outputEnv : EvalEnv) (groups : GroupEnv) (resfile : ℕ) (w : RuleWorld)
    (r : RuleTexts) : Prop where
  command : shellText env groups resfile r.args r.cmd r.extraCommand =
    (writtenCommand r.cmd r.extraCommand).bind (reference env groups resfile r.args)
  outputs : ∀ sec ∈ r.outputs, ∀ pls,
    ruleOutputPaths { w with eval := eval outputEnv .src } sec.args sec.oplist = some pls →
      spread (fun pl => (written pl.mem).bind (outputReference outputEnv sec.args)) sec.oplist =
        some (pls.map (·.mem))

end RuleTexts

end Metatup.Eval
