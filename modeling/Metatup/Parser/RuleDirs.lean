import Metatup.Lib.Lts
import Metatup.Parser.DistBlock
import Metatup.Parser.RelativeText

/-!
# The directory a command runs in

The command of a rule is created in the directory of the file that is being read, and runs in the source
directory of that. The paths of its inputs are printed relative to the directory of the Tupfile, and those
of its outputs are relative to the one or the other. In an included file and in a function that was called
the two directories can differ.

* `evalRule`: the calls of a rule, with the names that stand for `%f` and `%o`.
* `LevelStep`: what happens while a Tupfile is read.
* `CallAgrees`: every name leads to its node from where the command runs.
* `commands_agree`: this is so when rules are evaluated in the directory of the Tupfile.
-/

namespace Metatup

open Lib

/-! ### The project and its nodes -/

/-- The project, and what is asked about the variant that is parsed. -/
structure Project where
  /-- The directory of the project. -/
  top : List Text
  top_proper : ProperDir top
  /-- Source: `variant.h` `root_variant` -/
  rootVariant : Bool
  /-- Source: `variant.c` `variant_tent_to_srctent` -/
  srctent : Dir → List FileName
  srctent_proper : ∀ d, ProperDir ((srctent d).map Subtype.val)
  srctent_root : rootVariant = true → ∀ d, ProperDir d → (srctent d).map Subtype.val = d
  /-- The names that lead to a node from the top. -/
  names : TupId → Dir

/-- The source directory of a directory, by its names from the top. -/
def Project.source (P : Project) (d : Dir) : Dir := (P.srctent d).map Subtype.val

/-- What a rule finds when it is evaluated: the variables, the nodes of the database, and what the build
context adds. -/
structure RuleEnv (P : Project) where
  eval : Text → Option Text
  callerPathVar : Text → Bool
  excludes : Text → Text → Bool
  dirName : Text
  ctx : Option BuildCtx
  /-- The id of `tf->tent`. -/
  tentId : TupId
  /-- A directory of an input is not there. -/
  missing : Dir → Bool
  /-- A directory of an output cannot be made. -/
  blocked : Dir → Bool
  /-- The nodes that `nl_add_path` finds in a directory and its source directory. -/
  tents : Dir → Text → Option (List {t : FileTent // P.names t.tupid = t.names})
  /-- The node that an output gets, if nothing is wrong with it. -/
  create : (d : Dir) → (pel : Text) → Option {i : TupId // P.names i = d ++ [pel]}

/-- One file or function that is being read. -/
structure ParseLevel where
  tf : Tupfile
  /-- Source: `parser.c` `current_bin_head` -/
  bins : List (Text × List BinEntry) := []
  /-- An included file has the bins of the file that includes it. -/
  included : Bool := false

/-- The start of a directory's file. -/
def startLevel (d : Dir) : ParseLevel := { tf := { tent := d, curtent := d } }

/-! ### Rules -/

/-- The name in `{name}`. -/
def binName (mem : Text) : Text := (mem.drop 1).takeWhile (· ≠ '\x7d')

/-- What `path_list_fill_dt_pel` and `nl_add_path` find for an input. -/
def findInput (P : Project) (env : RuleEnv P) (tf : Tupfile) (pl : PathList) :
    Option (Option (BuildNameListArgs × List FileTent)) :=
  if (getPathElements (topText P.top) pl.mem).outsideTup then some none
  else
    (pathListFillDtPel (topText P.top) env.missing pl.mem (pl.base tf)).bind fun (d, pel) =>
      (env.tents d pel).map fun tents =>
        some ({ globstr := pel, wildcard := pel.any fun c => c = '*' || c = '?' || c = '[', orderid := 0,
                tupid := env.tentId, src := P.srctent tf.tent }, tents.map Subtype.val)

/-- The `variant_prefix` of `do_rule`. -/
def variantPrefix (P : Project) (tf : Tupfile) : Text :=
  if P.source tf.tent = tf.tent then [] else getRelativeDir (P.source tf.tent) tf.tent

/-- The path of an output. Source: `parser.c` `do_rule_outputs` -/
def outputText (P : Project) (tf : Tupfile) (mem : Text) : Text :=
  if P.rootVariant then writtenPath mem else variantPrefix P tf ++ '/' :: writtenPath mem

/-- The path and the node of an output. Source: `parser.c` `do_rule_outputs` -/
def ruleOutput (P : Project) (env : RuleEnv P) (tf : Tupfile) (pl : PathList) :
    Option (Option (Text × TupId)) :=
  let place := pathListFillDtPel (topText P.top) env.blocked pl.mem (pl.base tf)
  match pl.kind with
  | .bin => none
  | .exclusion => some none
  | .group => place.map fun _ => none
  | .path => place.bind fun (d, pel) => (env.create d pel).map fun i => some (outputText P tf pl.mem, i.val)

/-- What the evaluation of a rule reads. -/
def ruleWorld (P : Project) (env : RuleEnv P) (lv : ParseLevel) : RuleWorld where
  tf := lv.tf
  dirName := env.dirName
  eval := env.eval
  callerPathVar := env.callerPathVar
  bins := some (lv.bins.map Prod.fst)
  bin mem := (lv.bins.lookup (binName mem)).getD []
  excludes := env.excludes
  found := findInput P env lv.tf
  output := ruleOutput P env lv.tf

/-- A rule with its bin; without a command it only puts its inputs there. -/
structure RuleStmt extends NumberedRule where
  bin : Option Text
  emptyCommand : Bool

/-- Source: `bin.c` `bin_add` -/
def binAdd (bins : List (Text × List BinEntry)) (name : Text) : List (Text × List BinEntry) :=
  if bins.any (·.1 = name) then bins else (name, []) :: bins

/-- Source: `bin.c` `bin_add_entry` -/
def binAddEntry (name : Text) (bins : List (Text × List BinEntry)) (be : BinEntry) :
    List (Text × List BinEntry) :=
  bins.map fun b => if b.1 = name then (b.1, b.2 ++ [be]) else b

/-- The level once the bin of a rule is there. -/
def ParseLevel.declare (lv : ParseLevel) (r : RuleStmt) : ParseLevel :=
  { lv with bins := r.bin.elim lv.bins (binAdd lv.bins) }

/-- What is evaluated of a rule: without a command the outputs are not looked at. -/
def RuleStmt.evaluated (r : RuleStmt) : NumberedRule :=
  if r.emptyCommand then { r.toNumberedRule with outputs := noPaths } else r.toNumberedRule

/-- The calls of `do_rule` for a rule. Source: `parser.c` `execute_rule` -/
def evalRule (P : Project) (env : RuleEnv P) (lv : ParseLevel) (r : RuleStmt) : List RuleCall :=
  ruleCalls (ruleWorld P env (lv.declare r)) env.ctx r.evaluated

/-- The names that a call puts into the bin. -/
def RuleStmt.binEntries (r : RuleStmt) (call : RuleCall) : List BinEntry :=
  (if r.emptyCommand then call.nl else call.onl).entries.map fun e => ⟨e.nle.path, e.nle.tent⟩

/-- The level once the rule has been executed. -/
def ParseLevel.execute (P : Project) (env : RuleEnv P) (lv : ParseLevel) (r : RuleStmt) : ParseLevel :=
  { lv.declare r with
    bins := r.bin.elim (lv.declare r).bins fun name =>
      ((evalRule P env lv r).flatMap r.binEntries).foldl (binAddEntry name) (lv.declare r).bins }

theorem tupbuildCreateCopyRule_sections {tf : Tupfile} {src dest : Bytes} {destFromCallerRoot : Bool}
    {rule : CopyRule} (h : tupbuildCreateCopyRule tf src dest destFromCallerRoot = some rule) :
    InSections False (rule.inputs.map RulePath.key) ∧
      InSections False (rule.outputs.map RulePath.key) := by
  obtain ⟨inputs, hinputs, h⟩ := Option.bind_eq_some_iff.1 h
  obtain ⟨outputs, houtputs, h⟩ := Option.bind_eq_some_iff.1 h
  cases h
  refine ⟨getPathList_inSections hinputs, ?_⟩
  have hkeys : (if destFromCallerRoot then
      outputs.map fun pl => { pl with tentRelative := false } else outputs).map RulePath.key =
      outputs.map RulePath.key := by
    split
    · rw [List.map_map]
      rfl
    · rfl
  rw [hkeys]
  exact getPathList_inSections houtputs

/-- Where a rule comes from: it is written, copies an entry of a dist value, or makes a stamp. -/
inductive RuleSource
  | written (r : RuleStmt)
  | copy (src dest : Bytes) (destFromCallerRoot : Bool)
  | stamp (stampPath : Text)

/-- The rule of `tupbuild_create_copy_rule`. -/
def copyStmt (tf : Tupfile) (src dest : Bytes) (destFromCallerRoot : Bool) : Option RuleStmt :=
  match h : tupbuildCreateCopyRule tf src dest destFromCallerRoot with
  | none => none
  | some rule => some
    { foreach := false
      emptyInput := false
      inputs := ⟨rule.inputs, (tupbuildCreateCopyRule_sections h).1⟩
      orderOnlyInputPaths := noPaths
      outputs := ⟨rule.outputs, (tupbuildCreateCopyRule_sections h).2⟩
      bin := none
      emptyCommand := false }

/-- Source: `parser.c` `tupbuild_create_stamp_rule` -/
def tupbuildCreateStampRule (tf : Tupfile) (stampPath : Text) : Option RuleStmt :=
  (PathSection.read tf none stampPath).map fun outputs =>
    { foreach := false
      emptyInput := true
      inputs := noPaths
      orderOnlyInputPaths := noPaths
      outputs := outputs
      bin := none
      emptyCommand := false }

/-- The rule that is executed. -/
def RuleSource.stmt (tf : Tupfile) : RuleSource → Option RuleStmt
  | .written r => some r
  | .copy src dest destFromCallerRoot => copyStmt tf src dest destFromCallerRoot
  | .stamp stampPath => tupbuildCreateStampRule tf stampPath

/-! ### Runs -/

/-- What happens while a file is read. -/
inductive LevelEvent (P : Project)
  | invoke (inv : Invocation)
  /-- The function of a build of a TupBuild file. -/
  | build (resolve : Text → Option Text) (tb : TupbuildFile) (build : TupbuildBuild) (fnDir : Option Dir)
  | includeFile (dir : Dir)
  | leave
  | rule (env : RuleEnv P) (source : RuleSource)

/-- The parser enters a function or an included file, returns, or evaluates a rule. What it will return
to is below the current level. -/
inductive LevelStep (P : Project) : List ParseLevel → LevelEvent P → List ParseLevel → Prop
  | invoke {lv : ParseLevel} {st : List ParseLevel} {inv : Invocation} {tf : Tupfile}
      (hdir : ∀ dir, inv.fnDir = some dir → ProperDir dir)
      (h : parseFunctionInvoke (topText P.top) lv.tf inv = .ok tf) :
      LevelStep P (lv :: st) (.invoke inv) ({ tf := tf } :: lv :: st)
  | build {lv : ParseLevel} {st : List ParseLevel} {resolve : Text → Option Text} {tb : TupbuildFile}
      {build : TupbuildBuild} {fnDir : Option Dir} {tf : Tupfile}
      (hlv : lv.tf = { tent := lv.tf.tent, curtent := lv.tf.tent })
      (h : tupbuildStart (topText P.top) resolve tb build lv.tf.tent fnDir = some tf) :
      LevelStep P (lv :: st) (.build resolve tb build fnDir) ({ tf := tf } :: lv :: st)
  | includeFile {lv : ParseLevel} {st : List ParseLevel} {dir : Dir} (hdir : ProperDir dir) :
      LevelStep P (lv :: st) (.includeFile dir)
        ({ lv with tf := { lv.tf with curtent := dir }, included := true } :: lv :: st)
  | leave {lv' lv : ParseLevel} {st : List ParseLevel} :
      LevelStep P (lv' :: lv :: st) .leave
        ((if lv'.included then { lv with bins := lv'.bins } else lv) :: st)
  | rule {lv : ParseLevel} {st : List ParseLevel} {env : RuleEnv P} {source : RuleSource} {r : RuleStmt}
      (h : source.stmt lv.tf = some r) :
      LevelStep P (lv :: st) (.rule env source) (lv.execute P env r :: st)

/-! ### Agreement -/

/-- The directory a command is created in. Source: `parser.c` `do_rule` -/
def commandDir (tf : Tupfile) : Dir := tf.curtent

/-- The directory from whose source directory the paths of inputs are printed. Source: `parser.c`
`build_name_list_cb` -/
def inputDir (tf : Tupfile) : Dir := tf.tent

/-- Where a command of the directory runs. Source: `updater.c` `update` -/
def Project.workingDir (P : Project) (d : Dir) : Dir := P.top ++ P.source d

/-- A relative path with a node leads to it from where the commands of the directory run. -/
def LeadsToNode (P : Project) (d : Dir) (path : Text) (tent : Option TupId) : Prop :=
  isFullPath path = false → ∀ i ∈ tent, denotes (P.workingDir d) path = nodeAt P.top (P.names i)

/-- The paths of the outputs with their flags and variables replaced. Source: `parser.c`
`do_rule_outputs` -/
def expandedOutputs (w : RuleWorld) (args : PrintfArgs) (oplist : List RulePath) :
    Option (List RulePath) := do
  let tmplist ← printfPaths w args false oplist
  let tmplist ← evalPathList w none tmplist
  printfPaths w args true tmplist

/-- The paths of the outputs of one call. -/
def callOutputs (P : Project) (env : RuleEnv P) (lv : ParseLevel) (r : RuleStmt) (call : RuleCall) :
    List RulePath :=
  (expandedOutputs (ruleWorld P env (lv.declare r))
    { nl := call.nl.names, ext := call.ext, dirName := env.dirName } r.evaluated.outputs.paths).getD []

/-- The directory of the command is the one that the paths are relative to, and every path that is
substituted leads to its node from there. -/
structure CallAgrees (P : Project) (env : RuleEnv P) (lv : ParseLevel) (r : RuleStmt) (call : RuleCall) :
    Prop where
  inputDir : call.nl.entries ≠ [] → inputDir lv.tf = commandDir lv.tf
  outputDir : ∀ pl ∈ callOutputs P env lv r call, pl.base lv.tf = commandDir lv.tf
  inputs : ∀ e ∈ call.nl.entries, LeadsToNode P (commandDir lv.tf) e.nle.path e.nle.tent
  outputs : ∀ e ∈ call.onl.entries, LeadsToNode P (commandDir lv.tf) e.nle.path e.nle.tent

/-- The rule is evaluated in the directory of the Tupfile, where in a variant no output is absolute; or it
is in a function, without inputs, bin and variant. -/
def InPlace (P : Project) (env : RuleEnv P) (lv : ParseLevel) (r : RuleStmt) : Prop :=
  (lv.tf.curtent = lv.tf.tent ∧ (P.rootVariant = false → ∀ call ∈ evalRule P env lv r,
    ∀ pl ∈ callOutputs P env lv r call, isFullPath pl.mem = false)) ∨
  (lv.tf.funcFrame.isSome = true ∧ P.rootVariant = true ∧ r.inputs.paths = [] ∧ r.bin = none)

/-- A step that evaluates a rule only in place. -/
def InPlaceStep (P : Project) (s : List ParseLevel) (e : LevelEvent P) (s' : List ParseLevel) : Prop :=
  LevelStep P s e s' ∧ ∀ env source, e = .rule env source → ∀ lv ∈ s.head?,
    ∀ r ∈ source.stmt lv.tf, InPlace P env lv r

section

variable {w : RuleWorld} {Q : NameEntry → Prop}

/-! ### The names of a call -/

/-- What holds of the names that are found for every path holds of the names of a section. -/
theorem getName_entries {nl nl' : FoundList} {pl : RulePath}
    (hw : ∀ l, pathEntries w pl = some l → ∀ nle ∈ l, Q nle) (hnl : ∀ e ∈ nl.entries, Q e.nle)
    (h : getName w nl pl = some nl') : ∀ e ∈ nl'.entries, Q e.nle := by
  unfold getName at h
  split at h
  · cases h
    exact fun e he => hnl e (List.mem_filter.1 he).1
  · obtain ⟨l, hl, rfl⟩ := Option.map_eq_some_iff.1 h
    intro e he
    rw [foldl_add_entries] at he
    rcases List.mem_append.1 he with he | he
    · exact hnl e he
    · obtain ⟨nle, hnle, rfl⟩ := List.mem_map.1 he
      exact hw l hl nle hnle

theorem pathListToNl_entries {inputNl : Option FoundList} {plist : List RulePath} {nl : FoundList}
    (hw : ∀ pl l, pathEntries w pl = some l → ∀ nle ∈ l, Q nle)
    (h : pathListToNl w inputNl plist = some nl) : ∀ e ∈ nl.entries, Q e.nle := by
  obtain ⟨pls, -, h⟩ := Option.bind_eq_some_iff.1 h
  have key : ∀ (pls : List RulePath) (nl nl' : FoundList), (∀ e ∈ nl.entries, Q e.nle) →
      pls.foldlM (getName w) nl = some nl' → ∀ e ∈ nl'.entries, Q e.nle := by
    intro pls
    induction pls with
    | nil =>
      intro nl nl' hnl h
      cases h
      exact hnl
    | cons pl pls ih =>
      intro nl nl' hnl h
      rw [List.foldlM_cons] at h
      obtain ⟨m, hm, h⟩ := Option.bind_eq_some_iff.1 h
      exact ih m nl' (getName_entries (hw pl) hnl hm) h
  exact key pls {} nl (by simp) h

/-- A section without paths has no names. -/
theorem pathListToNl_nil {inputNl : Option FoundList} {nl : FoundList}
    (h : pathListToNl w inputNl [] = some nl) : nl.entries = [] := by
  have hrun : pathListToNl w inputNl [] = some {} := rfl
  rw [hrun] at h
  cases h
  rfl

/-- The names of a call, with the outputs that were made for them. -/
structure CallOf (w : RuleWorld) (r : NumberedRule) (Q : NameEntry → Prop) (call : RuleCall) : Prop where
  inputs : ∀ e ∈ call.nl.entries, Q e.nle
  no_inputs : r.inputs.paths = [] → call.nl.entries = []
  outputs : ruleOutputNames w { nl := call.nl.names, ext := call.ext, dirName := w.dirName }
    r.outputs.paths = some call.onl

theorem foreachCalls_of {r : NumberedRule} {paths : List RulePath} {l : List Found}
    (hl : ∀ e ∈ l, Q e.nle) (hnone : r.inputs.paths = [] → l = []) :
    ∀ call ∈ foreachCalls w r paths l, CallOf w r Q call := by
  induction l with
  | nil =>
    intro call hcall
    cases hcall
  | cons e l ih =>
    intro call hcall
    have hne : r.inputs.paths ≠ [] := fun hnil => by simpa using hnone hnil
    unfold foreachCalls at hcall
    dsimp only at hcall
    split at hcall
    · cases hcall
    · next c hc =>
      rcases List.mem_cons.1 hcall with rfl | hcall
      · obtain ⟨ext, -, hc⟩ := Option.bind_eq_some_iff.1 hc
        obtain ⟨tmp, -, hc⟩ := Option.bind_eq_some_iff.1 hc
        obtain ⟨oo, -, hc⟩ := Option.bind_eq_some_iff.1 hc
        obtain ⟨onl, honl, rfl⟩ := Option.map_eq_some_iff.1 hc
        refine ⟨fun x hx => ?_, fun hnil => absurd hnil hne, honl⟩
        obtain rfl : x = e := by simpa [FoundList.add] using hx
        exact hl x List.mem_cons_self
      · exact ih (fun x hx => hl x (List.mem_cons_of_mem e hx)) (fun hnil => absurd hnil hne) call hcall

theorem ruleCalls_of (w : RuleWorld) (ctx : Option BuildCtx) (r : NumberedRule)
    (hw : ∀ pl l, pathEntries w pl = some l → ∀ nle ∈ l, Q nle) :
    ∀ call ∈ ruleCalls w ctx r, CallOf w r Q call := by
  intro call hcall
  unfold ruleCalls at hcall
  dsimp only at hcall
  split at hcall
  · cases hcall
  · next inputs paths hlists =>
    obtain ⟨nl, hnl, hlists⟩ := Option.bind_eq_some_iff.1 hlists
    obtain ⟨more, -, hlists⟩ := Option.bind_eq_some_iff.1 hlists
    cases hlists
    have hentries : ∀ e ∈ uniqueFound [] nl.entries, Q e.nle := fun e he =>
      pathListToNl_entries hw hnl e ((uniqueFound_sublist [] nl.entries).subset he)
    have hnone : r.inputs.paths = [] → uniqueFound [] nl.entries = [] := by
      intro hnil
      rw [hnil] at hnl
      rw [pathListToNl_nil hnl]
      rfl
    split at hcall
    · exact foreachCalls_of hentries hnone call hcall
    · rw [Option.mem_toList] at hcall
      obtain ⟨oo, -, hcall⟩ := Option.bind_eq_some_iff.1 hcall
      split at hcall
      · obtain ⟨onl, honl, rfl⟩ := Option.map_eq_some_iff.1 hcall
        exact ⟨hentries, hnone, honl⟩
      · cases hcall

/-- Every output of a call was made for one of its paths. -/
theorem ruleOutputNames_entries {args : PrintfArgs} {oplist : List RulePath} {onl : FoundList}
    (h : ruleOutputNames w args oplist = some onl) : ∃ pls, expandedOutputs w args oplist = some pls ∧
      ∀ e ∈ onl.entries, ∃ pl ∈ pls, ∃ path i, w.output pl.toPathList = some (some (path, i)) ∧
        e.nle.path = path ∧ e.nle.tent = some i := by
  obtain ⟨tmplist, htmp, h⟩ := Option.bind_eq_some_iff.1 h
  obtain ⟨evaluated, heval, h⟩ := Option.bind_eq_some_iff.1 h
  obtain ⟨tmplist2, htmp2, h⟩ := Option.bind_eq_some_iff.1 h
  obtain ⟨onles, honles, h⟩ := Option.bind_eq_some_iff.1 h
  cases h
  refine ⟨tmplist2, ?_, fun e he => ?_⟩
  · have hrest := Option.bind_eq_some_iff.2 ⟨evaluated, heval, htmp2⟩
    exact Option.bind_eq_some_iff.2 ⟨tmplist, htmp, hrest⟩
  · rw [foldl_add_entries, List.nil_append] at he
    obtain ⟨onle, honle, he⟩ := List.mem_flatten.1 he
    obtain ⟨pl, hpl, hfound⟩ := exists_of_mem_mapM honles honle
    obtain ⟨o, ho, rfl⟩ := Option.map_eq_some_iff.1 hfound
    cases o with
    | none => simp at he
    | some p =>
      obtain ⟨path, i⟩ := p
      obtain rfl : e = ⟨outputEntry path i pl.orderid, pl.origin⟩ := by simpa using he
      exact ⟨pl, hpl, path, i, ho, rfl, rfl⟩

end

section

variable {P : Project} {d : Dir} {env : RuleEnv P} {lv : ParseLevel} {r : RuleStmt}

/-! ### Where the names lead -/

/-- The names of a project's node. -/
theorem FileTent.isName (t : FileTent) : ∀ name ∈ t.names, IsName name := by
  intro name h
  obtain ⟨n, -, rfl⟩ := List.mem_map.1 h
  exact ⟨n.2.1, n.2.2⟩

theorem buildNameList_entries {args : BuildNameListArgs} {tents : List FileTent} {nl nl' : NameList}
    {Q : NameEntry → Prop} (ht : ∀ t ∈ tents, Q (databaseEntry args t))
    (hnl : ∀ nle ∈ nl.entries, Q nle) (h : tents.foldlM (buildNameListCb args) nl = some nl') :
    ∀ nle ∈ nl'.entries, Q nle := by
  induction tents generalizing nl with
  | nil =>
    cases h
    exact hnl
  | cons t tents ih =>
    obtain ⟨htent, hrest⟩ := List.forall_mem_cons.1 ht
    rw [List.foldlM_cons] at h
    obtain ⟨m, hm, h⟩ := Option.bind_eq_some_iff.1 h
    refine ih hrest ?_ h
    unfold buildNameListCb at hm
    split at hm
    · split at hm
      · cases hm
        exact hnl
      · cases hm
    · cases hm
      intro nle hnle
      rcases List.mem_append.1 hnle with hnle | hnle
      · exact hnl nle hnle
      · exact List.mem_singleton.1 hnle ▸ htent

/-- The bins hold paths that lead to their nodes from where the commands of `d` run. -/
def BinsLead (P : Project) (d : Dir) (bins : List (Text × List BinEntry)) : Prop :=
  ∀ b ∈ bins, ∀ be ∈ b.2, LeadsToNode P d be.path be.tent

/-- The four ways in which names are found for a path. -/
theorem pathEntries_cases {w : RuleWorld} {pl : RulePath} {l : List NameEntry}
    (h : pathEntries w pl = some l) : l = (w.bin pl.mem).map (binEntry · pl.orderid) ∨ l = [] ∨
      l = [externalEntry pl.mem pl.orderid] ∨
      ∃ args tents nl, w.found pl.toPathList = some (some (args, tents)) ∧
        tents.foldlM (buildNameListCb { args with orderid := pl.orderid }) initNameList = some nl ∧
        l = nl.entries := by
  unfold pathEntries at h
  split at h
  · cases h
    exact .inl rfl
  · cases h
    exact .inr (.inl rfl)
  all_goals
    split at h
    · cases h
    · cases h
      exact .inr (.inr (.inl rfl))
    · next args tents hfound =>
      obtain ⟨nl, hnl, rfl⟩ := Option.map_eq_some_iff.1 h
      exact .inr (.inr (.inr ⟨args, tents, nl, hfound, hnl, rfl⟩))

/-- The path of an input leads to its node from where the commands of the Tupfile's directory run. -/
theorem pathEntries_lead (hbins : BinsLead P lv.tf.tent lv.bins) (pl : RulePath) (l : List NameEntry)
    (h : pathEntries (ruleWorld P env lv) pl = some l) :
    ∀ nle ∈ l, LeadsToNode P lv.tf.tent nle.path nle.tent := by
  rcases pathEntries_cases h with rfl | rfl | rfl | ⟨args, tents, nl, hfound, hnl, rfl⟩
  · intro nle hnle
    obtain ⟨be, hbe, rfl⟩ := List.mem_map.1 hnle
    obtain ⟨entries, hentries, hmem⟩ : ∃ entries, lv.bins.lookup (binName pl.mem) = some entries ∧
        be ∈ entries := by
      cases hlookup : lv.bins.lookup (binName pl.mem) with
      | none => simp [ruleWorld, hlookup] at hbe
      | some entries => exact ⟨entries, rfl, by simpa [ruleWorld, hlookup] using hbe⟩
    obtain ⟨l₁, l₂, hl, -⟩ := List.lookup_eq_some_iff.1 hentries
    exact hbins (binName pl.mem, entries) (by rw [hl]; simp) be hmem
  · simp
  · -- a path outside of the project has no node
    intro nle hnle
    rw [List.mem_singleton.1 hnle]
    intro _ i hi
    cases hi
  · have hinput : findInput P env lv.tf pl.toPathList = some (some (args, tents)) := hfound
    unfold findInput at hinput
    split at hinput
    · cases hinput
    · obtain ⟨⟨dir, pel⟩, -, hinput⟩ := Option.bind_eq_some_iff.1 hinput
      obtain ⟨found, -, hinput⟩ := Option.map_eq_some_iff.1 hinput
      cases hinput
      refine buildNameList_entries ?_ (by simp [initNameList]) hnl
      intro t ht
      obtain ⟨⟨t, hnames⟩, -, rfl⟩ := List.mem_map.1 ht
      intro _ i hi
      cases hi
      rw [hnames]
      exact denotes_getRelativeDir P.top_proper (P.srctent_proper _) t.isName

theorem source_proper (P : Project) (d : Dir) : ProperDir (P.source d) := P.srctent_proper d

/-- Outside of variants every directory is its source. -/
theorem source_eq (hroot : P.rootVariant = true) (hd : ProperDir d) : P.source d = d :=
  P.srctent_root hroot d hd

/-- The path of an output leads to its node, when it was resolved in the directory that the command runs
in. -/
theorem ruleOutput_leads {dir : Dir} {pl : RulePath} {path : Text} {i : TupId}
    (htent : ProperDir lv.tf.tent) (hdir : ProperDir dir) (hbase : pl.base lv.tf = dir)
    (hvariant : P.rootVariant = false → dir = lv.tf.tent ∧ isFullPath pl.mem = false)
    (h : ruleOutput P env lv.tf pl.toPathList = some (some (path, i))) :
    LeadsToNode P dir path (some i) := by
  unfold ruleOutput at h
  dsimp only at h
  split at h
  · cases h
  · cases h
  · obtain ⟨x, -, hx⟩ := Option.map_eq_some_iff.1 h
    cases hx
  · obtain ⟨⟨D, pel⟩, hfill, h⟩ := Option.bind_eq_some_iff.1 h
    obtain ⟨⟨node, hnode⟩, -, h⟩ := Option.map_eq_some_iff.1 h
    cases h
    intro hrel j hj
    cases hj
    rw [hbase] at hfill
    have hne := split_ne_nil_of_fill hfill
    rw [hnode]
    cases hroot : P.rootVariant with
    | true =>
      have htext : outputText P lv.tf pl.mem = writtenPath pl.mem := by rw [outputText, if_pos hroot]
      rw [htext, isFullPath_writtenPath hne] at hrel
      rw [htext, Project.workingDir, source_eq hroot hdir]
      exact denotes_writtenPath P.top_proper hdir hrel hfill
    | false =>
      obtain ⟨rfl, hmem⟩ := hvariant hroot
      have htext : outputText P lv.tf pl.mem = variantPrefix P lv.tf ++ '/' :: writtenPath pl.mem := by
        rw [outputText, hroot, if_neg Bool.false_ne_true]
      rw [htext] at hrel ⊢
      unfold variantPrefix at hrel ⊢
      split at hrel
      · cases hrel
      · next hsource =>
        have hprefix := isFullPath_getRelativeDir (d := P.source lv.tf.tent) htent.isName
        rw [if_neg hsource, denotes_append hprefix.1 ((isFullPath_writtenPath hne).trans hmem),
          Project.workingDir, denotes_getRelativeDir P.top_proper (source_proper P _) htent.isName,
          nodeAt_properDir P.top_proper htent]
        exact denotes_writtenPath P.top_proper htent hmem hfill

/-! ### One rule -/

/-- What is known of every level while the file of `d` is read. -/
structure LevelOk (P : Project) (d : Dir) (lv : ParseLevel) : Prop where
  tent : lv.tf.tent = d
  curtent : ProperDir lv.tf.curtent
  bins : BinsLead P d lv.bins

theorem BinsLead.declare {bins : List (Text × List BinEntry)} (h : BinsLead P d bins) (name : Text) :
    BinsLead P d (binAdd bins name) := by
  unfold binAdd
  split
  · exact h
  · intro b hb be hbe
    rcases List.mem_cons.1 hb with rfl | hb
    · cases hbe
    · exact h b hb be hbe

theorem BinsLead.addEntries {bins : List (Text × List BinEntry)} {name : Text} {bes : List BinEntry}
    (h : BinsLead P d bins) (hbes : ∀ be ∈ bes, LeadsToNode P d be.path be.tent) :
    BinsLead P d (bes.foldl (binAddEntry name) bins) := by
  induction bes generalizing bins with
  | nil => exact h
  | cons be bes ih =>
    obtain ⟨hbe, hrest⟩ := List.forall_mem_cons.1 hbes
    refine ih ?_ hrest
    intro b hb x hx
    obtain ⟨old, hold, rfl⟩ := List.mem_map.1 hb
    split at hx
    · rcases List.mem_append.1 hx with hx | hx
      · exact h old hold x hx
      · exact List.mem_singleton.1 hx ▸ hbe
    · exact h old hold x hx

theorem LevelOk.declare (h : LevelOk P d lv) (r : RuleStmt) : LevelOk P d (lv.declare r) where
  tent := h.tent
  curtent := h.curtent
  bins := by
    unfold ParseLevel.declare
    cases r.bin with
    | none => exact h.bins
    | some name => exact h.bins.declare name

/-- New paths are relative to the directory of the file in a function, and to that of the Tupfile
elsewhere. -/
theorem newPl_base {tf : Tupfile} {s : Text} {bl : Option (List Text)} {pl : PathList}
    (h : newPl tf s bl = some pl) : pl.base tf = if tf.funcFrame.isSome then tf.curtent else tf.tent := by
  have hrel : pl.tentRelative = tf.funcFrame.isSome := by
    unfold newPl at h
    dsimp only at h
    split at h
    · cases bl with
      | none => cases h
      | some bins =>
        dsimp only at h
        split at h
        · cases h
          rfl
        · cases h
    · split_ifs at h <;> cases h <;> rfl
  rw [PathList.base, hrel]

theorem expandedOutputs_base {w : RuleWorld} {args : PrintfArgs} {oplist pls : List RulePath}
    (h : expandedOutputs w args oplist = some pls) : ∀ pl ∈ pls,
      pl.base w.tf = if w.tf.funcFrame.isSome then w.tf.curtent else w.tf.tent := by
  obtain ⟨tmplist, -, h⟩ := Option.bind_eq_some_iff.1 h
  obtain ⟨evaluated, -, h⟩ := Option.bind_eq_some_iff.1 h
  intro pl hpl
  obtain ⟨src, -, hnew⟩ := exists_of_mem_mapM h hpl
  obtain ⟨text, -, hnew⟩ := Option.bind_eq_some_iff.1 hnew
  obtain ⟨q, hq, hnew⟩ := Option.bind_eq_some_iff.1 hnew
  cases hnew
  exact newPl_base hq

/-- A rule that is evaluated in place agrees with its paths. -/
theorem evalRule_agrees (hd : ProperDir d) (hlv : LevelOk P d lv) (hp : InPlace P env lv r) :
    ∀ call ∈ evalRule P env lv r, CallAgrees P env lv r call := by
  intro call hcall
  obtain rfl := hlv.tent
  have hof := ruleCalls_of (ruleWorld P env (lv.declare r)) env.ctx r.evaluated
    (Q := fun nle => LeadsToNode P lv.tf.tent nle.path nle.tent)
    (@pathEntries_lead P env (lv.declare r) (hlv.declare r).bins) call hcall
  obtain ⟨pls, hpls, honl⟩ := ruleOutputNames_entries hof.outputs
  have houtputs : callOutputs P env lv r call = pls := congrArg (Option.getD · []) hpls
  have hbase : ∀ pl ∈ pls,
      pl.base lv.tf = if lv.tf.funcFrame.isSome then lv.tf.curtent else lv.tf.tent :=
    expandedOutputs_base hpls
  rcases hp with ⟨heq, hrel⟩ | ⟨hframe, hroot, hnil, -⟩
  · have hcur : ∀ pl ∈ pls, pl.base lv.tf = lv.tf.curtent := by
      intro pl hpl
      rw [hbase pl hpl, heq, ite_self]
    refine ⟨fun _ => heq.symm, ?_, ?_, ?_⟩
    · rw [houtputs]
      exact hcur
    · rw [commandDir, heq]
      exact hof.inputs
    · intro e he
      obtain ⟨pl, hpl, path, i, hout, hpath, htent⟩ := honl e he
      rw [hpath, htent]
      refine ruleOutput_leads hd hlv.curtent (hcur pl hpl) (fun hroot => ⟨heq, ?_⟩) hout
      exact hrel hroot call hcall pl (houtputs ▸ hpl)
  · have hcur : ∀ pl ∈ pls, pl.base lv.tf = lv.tf.curtent := by
      intro pl hpl
      rw [hbase pl hpl, if_pos hframe]
    have hnone : call.nl.entries = [] := by
      refine hof.no_inputs ?_
      unfold RuleStmt.evaluated
      split <;> exact hnil
    refine ⟨fun hne => absurd hnone hne, ?_, ?_, ?_⟩
    · rw [houtputs]
      exact hcur
    · rw [hnone]
      simp
    · intro e he
      obtain ⟨pl, hpl, path, i, hout, hpath, htent⟩ := honl e he
      rw [hpath, htent]
      refine ruleOutput_leads hd hlv.curtent (hcur pl hpl) (fun hfalse => ?_) hout
      rw [hroot] at hfalse
      cases hfalse

/-- What a rule puts into its bin leads to its node, too. -/
theorem LevelOk.execute (hd : ProperDir d) (hlv : LevelOk P d lv) (hp : InPlace P env lv r) :
    LevelOk P d (lv.execute P env r) where
  tent := hlv.tent
  curtent := hlv.curtent
  bins := by
    have hdeclared := (hlv.declare r).bins
    unfold ParseLevel.execute
    dsimp only
    cases hbin : r.bin with
    | none => exact hdeclared
    | some name =>
      refine hdeclared.addEntries fun be hbe => ?_
      obtain ⟨call, hcall, hbe⟩ := List.mem_flatMap.1 hbe
      have hagrees := evalRule_agrees hd hlv hp call hcall
      have hdir : commandDir lv.tf = d := by
        rcases hp with ⟨heq, -⟩ | ⟨-, -, -, hnone⟩
        · exact heq.trans hlv.tent
        · rw [hbin] at hnone
          cases hnone
      obtain ⟨e, he, rfl⟩ := List.mem_map.1 hbe
      rw [← hdir]
      split at he
      · exact hagrees.inputs e he
      · exact hagrees.outputs e he

/-! ### Every run -/

theorem parseFunctionInvoke_dirs {top : Text} {tf tf' : Tupfile} {inv : Invocation}
    (h : parseFunctionInvoke top tf inv = .ok tf') :
    tf'.tent = tf.tent ∧ (tf'.curtent = tf.curtent ∨ inv.fnDir = some tf'.curtent) := by
  unfold parseFunctionInvoke at h
  split at h
  · cases h
  · cases h
    unfold invokeFunctionPath
    dsimp only
    split
    · exact ⟨rfl, .inl rfl⟩
    · refine ⟨rfl, ?_⟩
      cases hdir : inv.fnDir with
      | none => exact .inl (by simp [executeFunction])
      | some dir => exact .inr (by simp [executeFunction])

theorem tupbuildStart_dirs {top : Text} {resolve : Text → Option Text} {tb : TupbuildFile}
    {build : TupbuildBuild} {base : Dir} {fnDir : Option Dir} {tf : Tupfile}
    (h : tupbuildStart top resolve tb build base fnDir = some tf) :
    tf.tent = base ∧ tf.curtent = base := by
  obtain ⟨args, -, h⟩ := Option.bind_eq_some_iff.1 h
  cases h
  exact ⟨rfl, rfl⟩

/-- A step keeps what is known of the levels. -/
theorem InPlaceStep.levels {s s' : List ParseLevel} {e : LevelEvent P} (hd : ProperDir d)
    (h : InPlaceStep P s e s') (hok : ∀ lv ∈ s, LevelOk P d lv) : ∀ lv ∈ s', LevelOk P d lv := by
  obtain ⟨h, hp⟩ := h
  cases h with
  | @invoke lv st inv tf hdir hinv =>
    have hlv := hok lv List.mem_cons_self
    obtain ⟨htent, hcur⟩ := parseFunctionInvoke_dirs hinv
    refine List.forall_mem_cons.2 ⟨⟨htent.trans hlv.tent, ?_, by simp [BinsLead]⟩, hok⟩
    rcases hcur with hcur | hcur
    · exact hcur ▸ hlv.curtent
    · exact hdir _ hcur
  | @build lv st resolve tb build fnDir tf hlv hstart =>
    have htent := (hok lv List.mem_cons_self).tent
    obtain ⟨htent', hcur⟩ := tupbuildStart_dirs hstart
    refine List.forall_mem_cons.2 ⟨⟨htent'.trans htent, ?_, by simp [BinsLead]⟩, hok⟩
    show ProperDir tf.curtent
    rw [hcur, htent]
    exact hd
  | @includeFile lv st dir hdir =>
    have hlv := hok lv List.mem_cons_self
    exact List.forall_mem_cons.2 ⟨⟨hlv.tent, hdir, hlv.bins⟩, hok⟩
  | @leave lv' lv st =>
    obtain ⟨hlv', hrest⟩ := List.forall_mem_cons.1 hok
    obtain ⟨hlv, hst⟩ := List.forall_mem_cons.1 hrest
    refine List.forall_mem_cons.2 ⟨?_, hst⟩
    split
    · exact ⟨hlv.tent, hlv.curtent, hlv'.bins⟩
    · exact hlv
  | @rule lv st env source r hr =>
    obtain ⟨hlv, hst⟩ := List.forall_mem_cons.1 hok
    exact List.forall_mem_cons.2 ⟨hlv.execute hd (hp env source rfl lv rfl r hr), hst⟩

/-- In every run in which rules are evaluated in place, the directory of each command is the one that its
paths are relative to, and each path that is substituted for `%f` and `%o` leads to its node from where the
command runs. -/
theorem commands_agree (P : Project) {d : Dir} (hd : ProperDir d) {tr : List (LevelEvent P)}
    {lv : ParseLevel} {st s : List ParseLevel} {env : RuleEnv P} {source : RuleSource}
    (h : Run (InPlaceStep P) [startLevel d] tr (lv :: st))
    (hstep : InPlaceStep P (lv :: st) (.rule env source) s) :
    ∀ r ∈ source.stmt lv.tf, ∀ call ∈ evalRule P env lv r, CallAgrees P env lv r call := by
  have hlevels : ∀ l ∈ lv :: st, LevelOk P d l := by
    refine h.invariant (I := fun _ s => ∀ l ∈ s, LevelOk P d l) ?_ ?_
    · intro l hl
      rw [List.mem_singleton.1 hl]
      exact ⟨rfl, hd, by simp [BinsLead, startLevel]⟩
    · exact fun _ s _ s' _ hok hstep => hstep.levels hd hok
  intro r hr
  exact evalRule_agrees hd (hlevels lv List.mem_cons_self) (hstep.2 env source rfl lv rfl r hr)

end

/-! ### A rule in an included file -/

/-- A name that a directory can have. -/
def properName (s : Text) : Option FileName :=
  if h : (s ≠ [] ∧ '/' ∉ s) ∧ s ≠ ['.'] ∧ s ≠ dotdot then some ⟨s, h.1⟩ else none

theorem properName_spec {s : Text} {n : FileName} (h : properName s = some n) :
    n.val = s ∧ s ≠ ['.'] ∧ s ≠ dotdot := by
  unfold properName at h
  split at h
  · next hs =>
    cases h
    exact ⟨rfl, hs.2⟩
  · cases h

theorem properName_of_mem {d : Dir} (hd : ProperDir d) : (d.filterMap properName).map Subtype.val = d := by
  induction d with
  | nil => rfl
  | cons s d ih =>
    have hs := hd.isName s List.mem_cons_self
    have hdot : s ≠ ['.'] := fun heq => hd.ne_dot (heq ▸ List.mem_cons_self)
    have hdd : s ≠ dotdot := fun heq => hd.ne_dotdot (heq ▸ List.mem_cons_self)
    have hname : properName s = some ⟨s, hs.ne_nil, hs.no_sep⟩ :=
      dif_pos ⟨⟨hs.ne_nil, hs.no_sep⟩, hdot, hdd⟩
    have hrest : ProperDir d :=
      ⟨fun n hn => hd.isName n (List.mem_cons_of_mem s hn),
        fun hn => hd.ne_dot (List.mem_cons_of_mem s hn),
        fun hn => hd.ne_dotdot (List.mem_cons_of_mem s hn)⟩
    rw [List.filterMap_cons_some hname, List.map_cons, ih hrest]

/-- A project without variants: `app/foo.c`, from which `app/foo.o` is made. -/
def appProject : Project where
  top := ["w".toList]
  top_proper := ⟨by decide, by decide, by decide⟩
  rootVariant := true
  srctent d := d.filterMap properName
  srctent_proper d := by
    have hmem : ∀ name ∈ (d.filterMap properName).map Subtype.val,
        IsName name ∧ name ≠ ['.'] ∧ name ≠ dotdot := by
      intro name h
      obtain ⟨n, hn, rfl⟩ := List.mem_map.1 h
      obtain ⟨s, -, hs⟩ := List.mem_filterMap.1 hn
      obtain ⟨hval, hdot, hdd⟩ := properName_spec hs
      exact ⟨⟨n.2.1, n.2.2⟩, hval ▸ hdot, hval ▸ hdd⟩
    exact ⟨fun n hn => (hmem n hn).1, fun hn => (hmem _ hn).2.1 rfl, fun hn => (hmem _ hn).2.2 rfl⟩
  srctent_root _ _ hd := properName_of_mem hd
  names i := if i = 5 then ["app".toList, "foo.c".toList] else ["app".toList, "foo.o".toList]

/-- The node of `app/foo.c`. -/
def appSource : FileTent where
  tupid := 5
  dt := 2
  srcid := -1
  dir := [⟨"app".toList, by decide⟩]
  name := ⟨"foo.c".toList, by decide⟩

/-- What the rule finds there, with the nodes of the two files. -/
def appEnv : RuleEnv appProject where
  eval := some
  callerPathVar _ := false
  excludes _ _ := false
  dirName := "app".toList
  ctx := none
  tentId := 2
  missing _ := false
  blocked _ := false
  tents _ _ := some [⟨appSource, by decide⟩]
  create d pel := if h : ["app".toList, "foo.o".toList] = d ++ [pel] then some ⟨6, h⟩ else none

/-- A section with one path. -/
def onePath (mem : Text) : PathSection where
  paths := [{ mem := mem, kind := .path, tentRelative := false, orderid := 1, origin := .rule 1 }]
  places := by simp [InSections, Placed, RulePath.key]

/-- `: foo.c |> gcc -c %f -o %o |> foo.o {objs}` -/
def compileStmt : RuleStmt where
  foreach := false
  emptyInput := false
  inputs := onePath "foo.c".toList
  orderOnlyInputPaths := noPaths
  outputs := onePath "foo.o".toList
  bin := some "objs".toList
  emptyCommand := false

theorem app_proper : ProperDir ["app".toList] := ⟨by decide, by decide, by decide⟩

theorem commands_agree_app :
    ∃ call ∈ evalRule appProject appEnv (startLevel ["app".toList]) compileStmt,
    CallAgrees appProject appEnv (startLevel ["app".toList]) compileStmt call := by
  have hplace : ∀ env source, LevelEvent.rule appEnv (.written compileStmt) = .rule env source →
      ∀ lv ∈ [startLevel ["app".toList]].head?, ∀ r ∈ source.stmt lv.tf,
        InPlace appProject env lv r := by
    rintro env source heq lv hlv r hr
    cases heq
    cases hlv
    cases hr
    exact .inl ⟨rfl, fun hroot => by cases hroot⟩
  have hagree := commands_agree appProject app_proper .nil ⟨.rule rfl, hplace⟩ compileStmt rfl _
    List.mem_cons_self
  exact ⟨_, List.mem_cons_self, hagree⟩

/-- `app/Tupfile` includes `lib/rules.tup`, where the rule is: the command is created in `lib`, and its `%f`
is `foo.c`. -/
theorem included_rule_runs_elsewhere : ¬ ∀ (P : Project) (d : Dir), ProperDir d →
    ∀ (tr : List (LevelEvent P)) (lv : ParseLevel) (st s : List ParseLevel) (env : RuleEnv P)
      (source : RuleSource), Run (LevelStep P) [startLevel d] tr (lv :: st) →
      LevelStep P (lv :: st) (.rule env source) s →
      ∀ r ∈ source.stmt lv.tf, ∀ call ∈ evalRule P env lv r, CallAgrees P env lv r call := by
  intro h
  have hlib : ProperDir ["lib".toList] := ⟨by decide, by decide, by decide⟩
  have hrun : Run (LevelStep appProject) [startLevel ["app".toList]] [.includeFile ["lib".toList]]
      [{ tf := { tent := ["app".toList], curtent := ["lib".toList] }, included := true },
        startLevel ["app".toList]] :=
    Run.snoc .nil (.includeFile hlib)
  have hagrees := h appProject _ app_proper _ _ _ _ appEnv (.written compileStmt) hrun (.rule rfl)
    compileStmt rfl _ List.mem_cons_self
  have hleads := hagrees.inputs _ List.mem_cons_self (by decide) 5 rfl
  exact absurd hleads (by decide)

end Metatup
