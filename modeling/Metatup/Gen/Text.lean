import Metatup.Gen.Termination
import Metatup.Gen.Written
import Metatup.Lib.YamlReader
import Metatup.Parser.TupbuildRead

/-!
# The text of the written file

`mt_write_tupbuild` prints a line for every field, with the keys and values of the arguments in quotes
and everything else as it is. Read again, this is the same file when every text can stand where it is
printed. In this module a character of a text is a code point.

* `mtWriteTupbuildText`: the text.
* `Writable`: the texts of a build can stand where they are printed.
* `tupbuildParse_fileEvents`: the events of a file are read as the file.
* `written_text_read_iff`: the text is read as the file that was meant.
-/

namespace Metatup

open Lib.Yaml

/-! ### The text -/

/-- Source: `metatup.c` `mt_yaml_quote` -/
def mtYamlQuote : Text → Text
  | [] => []
  | c :: s => if c = '"' ∨ c = '\\' then '\\' :: c :: mtYamlQuote s else c :: mtYamlQuote s

/-- A key and a scalar. -/
def field (key : String) (value : Text) : Text := key.toList ++ ':' :: ' ' :: value

/-- A key before a collection. -/
def header (key : String) : Text := key.toList ++ [':']

/-- The arguments of a build. -/
def mtWriteArgs (args : List (Text × Text)) : List Line :=
  if args = [] then []
  else ⟨4, header "args"⟩ :: args.map fun kv =>
    ⟨6, quoted (mtYamlQuote kv.1) ++ ':' :: ' ' :: quoted (mtYamlQuote kv.2)⟩

/-- The dependencies of a build. -/
def mtWriteDepends (depends : List TupbuildDep) : List Line :=
  if depends = [] then []
  else ⟨4, header "depends"⟩ :: depends.flatMap fun d =>
    [⟨6, '-' :: ' ' :: field "build" d.build⟩, ⟨8, field "as" d.as⟩]

/-- The dists of a build. -/
def mtWriteDists (dists : List TupbuildDist) : List Line :=
  if dists = [] then []
  else ⟨4, header "dists"⟩ :: dists.flatMap fun d =>
    [⟨6, '-' :: ' ' :: field "from_return" d.fromReturn⟩, ⟨8, field "path" d.path⟩]

/-- A field that is printed when it is there. -/
def optionalField (key : String) (value : Option Text) : List Line :=
  value.toList.map fun v => ⟨4, field key v⟩

/-- Source: `metatup.c` `mt_write_generated_build` -/
def mtWriteGeneratedBuild (b : TupbuildBuild) : List Line :=
  ⟨2, '-' :: ' ' :: field "name" b.name⟩ ::
    (optionalField "tupfile" b.tupfile ++ optionalField "function" b.function ++
      [⟨4, field "builddir" b.builddir⟩] ++ optionalField "profile" b.profile ++
      mtWriteArgs b.args ++ mtWriteDepends b.depends ++ mtWriteDists b.dists)

/-- Source: `metatup.c` `mt_write_existing_build` -/
def mtWriteExistingBuild (b : TupbuildBuild) : List Line :=
  ⟨2, '-' :: ' ' :: field "name" b.name⟩ ::
    ([⟨4, field "tupfile" (b.tupfile.getD nullText)⟩] ++
      [⟨4, field "function" (b.function.getD nullText)⟩] ++
      [⟨4, field "builddir" b.builddir⟩] ++ optionalField "profile" b.profile ++
      mtWriteArgs b.args ++ mtWriteDepends b.depends ++ mtWriteDists b.dists)

/-- `true` or `false`. -/
def boolText (b : Bool) : Text := if b then "true".toList else "false".toList

/-- The lines before the builds, and the builds. -/
def withHeader (strict autoCompiledb : Bool) (builds : List Line) : List Line :=
  ⟨0, field "strict" (boolText strict)⟩ :: ⟨0, field "auto_compiledb" (boolText autoCompiledb)⟩ ::
    ⟨0, header "builds"⟩ :: builds

/-- Source: `metatup.c` `mt_write_tupbuild` -/
def mtWriteTupbuildText (setup : MtSetup) (gen : Generated) : Text :=
  let existing := (setup.env.existingTb.map TupbuildFile.builds).getD []
  textOf (withHeader setup.strict setup.autoCompiledb
    ((existing.flatMap fun b =>
      match (mtFindGeneratedByName gen b.name).bind (gen[·]?) with
      | some g => mtWriteGeneratedBuild g.toTupbuildBuild
      | none => mtWriteExistingBuild b) ++
    (gen.zipIdx.filter fun p => p.2 ∉ mtEmitted gen existing).flatMap fun p =>
      mtWriteGeneratedBuild p.1.toTupbuildBuild))

/-- The lines of a file without global arguments. -/
def fileLines (tb : TupbuildFile) : List Line :=
  withHeader tb.strict tb.autoCompiledb (tb.builds.flatMap mtWriteGeneratedBuild)

/-- The text is that of the builds that are written. -/
theorem mtWriteTupbuildText_eq (setup : MtSetup) (gen : Generated) :
    mtWriteTupbuildText setup gen = textOf (fileLines (mtWriteTupbuild setup gen)) := by
  have hexisting : ∀ b : TupbuildBuild, (match (mtFindGeneratedByName gen b.name).bind (gen[·]?) with
      | some g => mtWriteGeneratedBuild g.toTupbuildBuild
      | none => mtWriteExistingBuild b) = mtWriteGeneratedBuild (mtRewriteBuild gen b) := by
    intro b
    unfold mtRewriteBuild
    cases (mtFindGeneratedByName gen b.name).bind (gen[·]?) with
    | none => rfl
    | some g => rfl
  unfold mtWriteTupbuildText fileLines mtWriteTupbuild mtWrittenBuilds
  simp only [hexisting, List.flatMap_append, List.flatMap_map]

/-! ### The events -/

/-- A key and a scalar. -/
def fieldEvents (key : String) (value : Text) : List Event := [.scalar key.toList, .scalar value]

/-- A key and a collection, when it is not empty. -/
def partEvents {α : Type} (key : String) (kind : Kind) (events : α → List Event) (l : List α) :
    List Event :=
  if l = [] then [] else .scalar key.toList :: kind.start :: (l.flatMap events ++ [kind.stop])

/-- An argument. -/
def argEvents (kv : Text × Text) : List Event := [.scalar kv.1, .scalar kv.2]

/-- A dependency. -/
def depEvents (d : TupbuildDep) : List Event :=
  .mappingStart :: (fieldEvents "build" d.build ++ fieldEvents "as" d.as ++ [.mappingEnd])

/-- A dist. -/
def distEvents (d : TupbuildDist) : List Event :=
  .mappingStart :: (fieldEvents "from_return" d.fromReturn ++ fieldEvents "path" d.path ++ [.mappingEnd])

/-- The parts of a build. -/
def bodyEvents (b : TupbuildBuild) : List Event :=
  fieldEvents "name" b.name ++ (b.tupfile.toList.flatMap (fieldEvents "tupfile") ++
    b.function.toList.flatMap (fieldEvents "function") ++ fieldEvents "builddir" b.builddir ++
    b.profile.toList.flatMap (fieldEvents "profile") ++ partEvents "args" .mapping argEvents b.args ++
    partEvents "depends" .sequence depEvents b.depends ++ partEvents "dists" .sequence distEvents b.dists)

/-- A build. -/
def buildEvents (b : TupbuildBuild) : List Event := .mappingStart :: (bodyEvents b ++ [.mappingEnd])

/-- The parts of a file. -/
def fileEvents (tb : TupbuildFile) : List Event :=
  fieldEvents "strict" (boolText tb.strict) ++
    fieldEvents "auto_compiledb" (boolText tb.autoCompiledb) ++
    partEvents "builds" .sequence buildEvents tb.builds

/-! ### What can be written -/

/-- The text stays on its line. -/
def OneLine (s : Text) : Prop := ∀ c ∈ s, isInLine c = true

instance (s : Text) : Decidable (OneLine s) :=
  decidable_of_iff (s.all isInLine = true) List.all_eq_true

/-- The texts of a build can stand where they are printed. -/
structure Writable (b : TupbuildBuild) : Prop where
  name : plainOk b.name = true
  tupfile : ∀ t ∈ b.tupfile, plainOk t = true
  function : ∀ f ∈ b.function, plainOk f = true
  builddir : plainOk b.builddir = true
  profile : ∀ p ∈ b.profile, plainOk p = true
  args : ∀ kv ∈ b.args, OneLine kv.1 ∧ (quoted (mtYamlQuote kv.1)).length ≤ 1024 ∧ OneLine kv.2
  depends : ∀ d ∈ b.depends, plainOk d.build = true ∧ plainOk d.as = true
  dists : ∀ d ∈ b.dists, plainOk d.fromReturn = true ∧ plainOk d.path = true

/-- What `mt_yaml_quote` writes is read as what it was. -/
theorem unquote_mtYamlQuote {s : Text} (h : OneLine s) : unquote (mtYamlQuote s) = some s := by
  induction s with
  | nil => rfl
  | cons c s ih =>
    obtain ⟨hc, hs⟩ := List.forall_mem_cons.1 h
    have hrest := ih hs
    unfold mtYamlQuote
    split
    · next hescape =>
      rcases hescape with rfl | rfl
      · rw [unquote, hrest]
        rfl
      · rw [unquote, hrest]
        rfl
    · next hescape =>
      rw [not_or] at hescape
      rw [unquote]
      · rw [if_pos ⟨hescape.2, hescape.1, hc⟩, hrest]
        rfl
      · exact fun _ heq => absurd heq hescape.2
      · exact fun _ heq => absurd heq hescape.2

/-! ### The text is a block -/

/-- The name is a key. -/
def IsWord (key : String) : Prop :=
  key.toList ≠ [] ∧ key.toList.all isWordChar = true ∧ key.toList.length ≤ 1024

instance (key : String) : Decidable (IsWord key) :=
  inferInstanceAs (Decidable (_ ∧ _ ∧ _))

theorem IsWord.key {key : String} (h : IsWord key) : Key key.toList key.toList :=
  .word h.1 h.2.1 h.2.2

theorem block_field {n : ℕ} {key : String} {value : Text} (hkey : IsWord key)
    (hvalue : plainOk value = true) : Block .mapping n [⟨n, field key value⟩] (fieldEvents key value) :=
  .scalar hkey.key (.plain hvalue) .nil

theorem block_optional {key : String} {value : Option Text} (hkey : IsWord key)
    (hvalue : ∀ v ∈ value, plainOk v = true) :
    Block .mapping 4 (optionalField key value) (value.toList.flatMap (fieldEvents key)) := by
  cases value with
  | none => exact .nil
  | some v =>
    have hfield : Block .mapping 4 [⟨4, field key v⟩] (fieldEvents key v) :=
      block_field hkey (hvalue v rfl)
    simpa [optionalField] using hfield

/-- A key and a collection whose parts are blocks. -/
theorem block_part {α : Type} {n m : ℕ} {key : String} {kind : Kind} {lines : α → List Line}
    {events : α → List Event} {l : List α} (hkey : IsWord key) (hlt : n < m) (hmax : m < maxIndent)
    (hne : ∀ a, lines a ≠ []) (h : ∀ a ∈ l, Block kind m (lines a) (events a)) :
    Block .mapping n (if l = [] then [] else ⟨n, header key⟩ :: l.flatMap lines)
      (partEvents key kind events l) := by
  unfold partEvents
  cases l with
  | nil => exact .nil
  | cons a l =>
    have hlines : (a :: l).flatMap lines ≠ [] := by
      rw [List.flatMap_cons]
      exact List.append_ne_nil_of_left_ne_nil (hne a) _
    have hblock := Block.nested hkey.key hlt hmax hlines (Block.flatMap h) .nil
    rw [List.append_nil] at hblock
    rw [if_neg (List.cons_ne_nil a l), if_neg (List.cons_ne_nil a l)]
    exact hblock

theorem block_args {args : List (Text × Text)} (h : ∀ kv ∈ args, OneLine kv.1 ∧
    (quoted (mtYamlQuote kv.1)).length ≤ 1024 ∧ OneLine kv.2) :
    Block .mapping 4 (mtWriteArgs args) (partEvents "args" .mapping argEvents args) := by
  have hblock : ∀ kv ∈ args, Block .mapping 6
      [⟨6, quoted (mtYamlQuote kv.1) ++ ':' :: ' ' :: quoted (mtYamlQuote kv.2)⟩] (argEvents kv) := by
    intro kv hkv
    obtain ⟨hkey, hlen, hvalue⟩ := h kv hkv
    exact .scalar (.quoted (unquote_mtYamlQuote hkey) hlen) (.quoted (unquote_mtYamlQuote hvalue)) .nil
  have hpart := block_part (by decide : IsWord "args") (by decide : 4 < 6) (by decide)
    (fun _ => List.cons_ne_nil _ _) hblock
  rw [← List.map_eq_flatMap] at hpart
  exact hpart

/-- An item with two fields. -/
theorem block_pair {first second : String} {a b : Text} (hfirst : IsWord first)
    (hsecond : IsWord second) (ha : plainOk a = true) (hb : plainOk b = true) :
    Block .sequence 6 [⟨6, '-' :: ' ' :: field first a⟩, ⟨8, field second b⟩]
      (.mappingStart :: (fieldEvents first a ++ fieldEvents second b ++ [.mappingEnd])) := by
  have hsub : Block .mapping 8 (⟨8, field first a⟩ :: [⟨8, field second b⟩])
      (fieldEvents first a ++ fieldEvents second b) :=
    (block_field hfirst ha).append (block_field hsecond hb)
  exact .item (by decide) hsub .nil

theorem block_build {b : TupbuildBuild} (h : Writable b) :
    Block .sequence 2 (mtWriteGeneratedBuild b) (buildEvents b) := by
  have hname : Block .mapping 4 [⟨4, field "name" b.name⟩] (fieldEvents "name" b.name) :=
    block_field (by decide) h.name
  have htupfile := block_optional (by decide : IsWord "tupfile") h.tupfile
  have hfunction := block_optional (by decide : IsWord "function") h.function
  have hbuilddir : Block .mapping 4 [⟨4, field "builddir" b.builddir⟩]
      (fieldEvents "builddir" b.builddir) := block_field (by decide) h.builddir
  have hprofile := block_optional (by decide : IsWord "profile") h.profile
  have hdepends : Block .mapping 4 (mtWriteDepends b.depends)
      (partEvents "depends" .sequence depEvents b.depends) := by
    apply block_part (m := 6) (by decide) (by decide) (by decide) (fun _ => List.cons_ne_nil _ _)
    intro d hd
    exact block_pair (by decide) (by decide) (h.depends d hd).1 (h.depends d hd).2
  have hdists : Block .mapping 4 (mtWriteDists b.dists)
      (partEvents "dists" .sequence distEvents b.dists) := by
    apply block_part (m := 6) (by decide) (by decide) (by decide) (fun _ => List.cons_ne_nil _ _)
    intro d hd
    exact block_pair (by decide) (by decide) (h.dists d hd).1 (h.dists d hd).2
  have hbody := hname.append ((((((htupfile.append hfunction).append hbuilddir).append hprofile).append
    (block_args h.args)).append hdepends).append hdists)
  have hitem := Block.item (by decide) hbody .nil
  rw [List.append_nil] at hitem
  exact hitem

theorem block_file {tb : TupbuildFile} (hne : tb.builds ≠ []) (h : ∀ b ∈ tb.builds, Writable b) :
    Block .mapping 0 (fileLines tb) (fileEvents tb) := by
  have hbool : ∀ b, plainOk (boolText b) = true := by decide
  have hbuilds := block_part (by decide : IsWord "builds") (by decide : 0 < 2) (by decide)
    (fun b => List.cons_ne_nil _ _) (fun b hb => block_build (h b hb))
  rw [if_neg hne] at hbuilds
  exact ((block_field (by decide) (hbool _)).append (block_field (by decide) (hbool _))).append hbuilds

/-! ### The events are the file -/

theorem tupbuildParseStringMapLoop_args {acc args : List (Text × Text)}
    (h : ((acc ++ args).map Prod.fst).Nodup) (rest : List Event) :
    tupbuildParseStringMapLoop acc (args.flatMap argEvents ++ .mappingEnd :: rest) =
      .ok (acc ++ args, rest) := by
  induction args generalizing acc with
  | nil =>
    rw [List.append_nil]
    rfl
  | cons kv args ih =>
    have happend : acc ++ kv :: args = acc ++ [kv] ++ args := by simp
    have hfresh : kv.1 ∉ acc.map Prod.fst := by
      rw [List.map_append, List.map_cons] at h
      exact fun hmem => (List.nodup_append.1 h).2.2 _ hmem _ List.mem_cons_self rfl
    have hrest := ih (happend ▸ h)
    show tupbuildParseStringMapLoop acc
      (.scalar kv.1 :: .scalar kv.2 :: (args.flatMap argEvents ++ .mappingEnd :: rest)) = _
    rw [tupbuildParseStringMapLoop, if_neg hfresh, hrest, happend]

theorem tupbuildParseDep_depEvents (d : TupbuildDep) (rest : List Event) :
    tupbuildParseDep (depEvents d ++ rest) = .ok (d, rest) := rfl

theorem tupbuildParseDist_distEvents (d : TupbuildDist) (rest : List Event) :
    tupbuildParseDist (distEvents d ++ rest) = .ok (d, rest) := rfl

/-- A sequence whose items are mappings. -/
theorem tupbuildParseItems_flatMap {α : Type} {item : List Event → Except Text (α × List Event)}
    {events : α → List Event} {l : List α}
    (hstart : ∀ a, ∃ body, events a = .mappingStart :: body)
    (hitem : ∀ a ∈ l, ∀ rest, item (events a ++ rest) = .ok (a, rest)) (rest : List Event) {fuel : ℕ}
    (hfuel : (l.flatMap events).length < fuel) :
    tupbuildParseItems item fuel (l.flatMap events ++ .sequenceEnd :: rest) = .ok (l, rest) := by
  induction l generalizing fuel with
  | nil =>
    obtain ⟨fuel, rfl⟩ := Nat.exists_eq_succ_of_ne_zero (Nat.ne_zero_of_lt hfuel)
    rfl
  | cons a l ih =>
    obtain ⟨fuel, rfl⟩ := Nat.exists_eq_succ_of_ne_zero (Nat.ne_zero_of_lt hfuel)
    rw [List.flatMap_cons, List.length_append] at hfuel
    obtain ⟨body, hbody⟩ := hstart a
    have hlen : 0 < (events a).length := by
      rw [hbody]
      exact Nat.succ_pos _
    have hfuel' : (l.flatMap events).length < fuel := by omega
    have hrest := ih (fun b hb => hitem b (List.mem_cons_of_mem a hb)) hfuel'
    have hhead := hitem a List.mem_cons_self (l.flatMap events ++ .sequenceEnd :: rest)
    rw [List.flatMap_cons, List.append_assoc]
    rw [hbody, List.cons_append] at hhead ⊢
    rw [tupbuildParseItems]
    · rw [hhead]
      show (tupbuildParseItems item fuel _ >>= _) = _
      rw [hrest]
      rfl
    · exact fun heq => nomatch heq
    · exact fun _ heq => nomatch heq

/-- A value of a build that is read, as a step of the loop over its keys. -/
def Steps (b : PartialBuild) (events : List Event) (b' : PartialBuild) (events' : List Event) : Prop :=
  ∀ fuel, events.length < fuel → ∃ fuel', events'.length < fuel' ∧
    tupbuildParseBuildLoop fuel b events = tupbuildParseBuildLoop fuel' b' events'

theorem Steps.refl (b : PartialBuild) (events : List Event) : Steps b events b events :=
  fun fuel hfuel => ⟨fuel, hfuel, rfl⟩

theorem Steps.trans {b b' b'' : PartialBuild} {events events' events'' : List Event}
    (h : Steps b events b' events') (h' : Steps b' events' b'' events'') :
    Steps b events b'' events'' := by
  intro fuel hfuel
  obtain ⟨fuel', hfuel', heq⟩ := h fuel hfuel
  obtain ⟨fuel'', hfuel'', heq'⟩ := h' fuel' hfuel'
  exact ⟨fuel'', hfuel'', heq.trans heq'⟩

theorem Steps.value {b b' : PartialBuild} {key : Text} {event : Event} {events rest : List Event}
    (h : tupbuildParseBuildValue b key (event :: (events ++ rest)) = .ok (b', rest)) :
    Steps b (.scalar key :: event :: (events ++ rest)) b' rest := by
  intro fuel hfuel
  obtain ⟨fuel, rfl⟩ := Nat.exists_eq_succ_of_ne_zero (Nat.ne_zero_of_lt hfuel)
  refine ⟨fuel, ?_, ?_⟩
  · simp only [List.length_cons, List.length_append] at hfuel
    omega
  · rw [tupbuildParseBuildLoop]
    · rw [h]
      rfl
    · exact fun heq => nomatch heq

theorem Steps.field {b b' : PartialBuild} {key : String} {value : Text} {rest : List Event}
    (h : tupbuildParseBuildValue b key.toList (.scalar value :: ([] ++ rest)) = .ok (b', rest)) :
    Steps b (fieldEvents key value ++ rest) b' rest := Steps.value h

theorem steps_args {b : PartialBuild} {args : List (Text × Text)} (hb : b.args = [])
    (hnodup : (args.map Prod.fst).Nodup) (rest : List Event) :
    Steps b (partEvents "args" .mapping argEvents args ++ rest) { b with args } rest := by
  unfold partEvents
  split
  · next hnil =>
    have heq : { b with args } = b := by rw [hnil, ← hb]
    rw [heq]
    exact .refl b rest
  · have hacc : (([] ++ args).map Prod.fst).Nodup := hnodup
    have hloop := tupbuildParseStringMapLoop_args hacc rest
    have hvalue : tupbuildParseBuildValue b "args".toList
        (.mappingStart :: (args.flatMap argEvents ++ [.mappingEnd] ++ rest)) =
          .ok ({ b with args }, rest) := by
      unfold tupbuildParseBuildValue
      rw [if_pos rfl, if_neg (not_not.2 hb), List.append_assoc]
      show Except.map _ (tupbuildParseStringMapLoop [] (args.flatMap argEvents ++ .mappingEnd :: rest)) = _
      rw [hloop]
      rfl
    exact Steps.value hvalue

theorem tupbuildParseSeq_flatMap {α : Type} {item : List Event → Except Text (α × List Event)}
    {events : α → List Event} {l : List α} (expected : String)
    (hstart : ∀ a, ∃ body, events a = .mappingStart :: body)
    (hitem : ∀ a ∈ l, ∀ rest, item (events a ++ rest) = .ok (a, rest)) (rest : List Event) :
    tupbuildParseSeq item expected
      (.sequenceStart :: (l.flatMap events ++ [.sequenceEnd] ++ rest)) = .ok (l, rest) := by
  show tupbuildParseItems item _ (l.flatMap events ++ [.sequenceEnd] ++ rest) = _
  rw [List.append_assoc]
  apply tupbuildParseItems_flatMap hstart hitem
  simp only [List.length_append]
  omega

theorem steps_depends {b : PartialBuild} {depends : List TupbuildDep} (hb : b.depends = [])
    (rest : List Event) :
    Steps b (partEvents "depends" .sequence depEvents depends ++ rest) { b with depends } rest := by
  unfold partEvents
  split
  · next hnil =>
    have heq : { b with depends } = b := by rw [hnil, ← hb]
    rw [heq]
    exact .refl b rest
  · have hstart : ∀ d, ∃ body, depEvents d = .mappingStart :: body := fun d => ⟨_, rfl⟩
    have hitem : ∀ d ∈ depends, ∀ rest, tupbuildParseDep (depEvents d ++ rest) = .ok (d, rest) :=
      fun d _ rest => tupbuildParseDep_depEvents d rest
    have hseq := tupbuildParseSeq_flatMap "expected dependency sequence" hstart hitem rest
    have hvalue : tupbuildParseBuildValue b "depends".toList
        (.sequenceStart :: (depends.flatMap depEvents ++ [.sequenceEnd] ++ rest)) =
          .ok ({ b with depends }, rest) := by
      unfold tupbuildParseBuildValue
      rw [if_neg (by decide), if_pos rfl, if_neg (not_not.2 hb)]
      show Except.map _ (tupbuildParseSeq tupbuildParseDep "expected dependency sequence" _) = _
      rw [hseq]
      rfl
    exact Steps.value hvalue

theorem steps_dists {b : PartialBuild} {dists : List TupbuildDist} (hb : b.dists = [])
    (rest : List Event) :
    Steps b (partEvents "dists" .sequence distEvents dists ++ rest) { b with dists } rest := by
  unfold partEvents
  split
  · next hnil =>
    have heq : { b with dists } = b := by rw [hnil, ← hb]
    rw [heq]
    exact .refl b rest
  · have hstart : ∀ d, ∃ body, distEvents d = .mappingStart :: body := fun d => ⟨_, rfl⟩
    have hitem : ∀ d ∈ dists, ∀ rest, tupbuildParseDist (distEvents d ++ rest) = .ok (d, rest) :=
      fun d _ rest => tupbuildParseDist_distEvents d rest
    have hseq := tupbuildParseSeq_flatMap "expected dist sequence" hstart hitem rest
    have hvalue : tupbuildParseBuildValue b "dists".toList
        (.sequenceStart :: (dists.flatMap distEvents ++ [.sequenceEnd] ++ rest)) =
          .ok ({ b with dists }, rest) := by
      unfold tupbuildParseBuildValue
      rw [if_neg (by decide), if_neg (by decide), if_pos rfl, if_neg (not_not.2 hb)]
      show Except.map _ (tupbuildParseSeq tupbuildParseDist "expected dist sequence" _) = _
      rw [hseq]
      rfl
    exact Steps.value hvalue

/-- The scalars of a build. -/
theorem steps_scalars (b : TupbuildBuild) (rest : List Event) :
    Steps {} (fieldEvents "name" b.name ++ (b.tupfile.toList.flatMap (fieldEvents "tupfile") ++
        (b.function.toList.flatMap (fieldEvents "function") ++ (fieldEvents "builddir" b.builddir ++
          (b.profile.toList.flatMap (fieldEvents "profile") ++ rest)))))
      { name := some b.name, tupfile := b.tupfile, function := b.function, builddir := some b.builddir
        profile := b.profile } rest := by
  obtain ⟨name, tupfile, function, builddir, profile, args, depends, dists⟩ := b
  have hname : ∀ rest, Steps {} (fieldEvents "name" name ++ rest) { name := some name } rest :=
    fun rest => Steps.field rfl
  refine (hname _).trans ?_
  have htupfile : ∀ rest, Steps { name := some name }
      (tupfile.toList.flatMap (fieldEvents "tupfile") ++ rest) { name := some name, tupfile } rest := by
    intro rest
    cases tupfile with
    | none => exact .refl _ _
    | some t => exact Steps.field rfl
  refine (htupfile _).trans ?_
  have hfunction : ∀ rest, Steps { name := some name, tupfile }
      (function.toList.flatMap (fieldEvents "function") ++ rest)
      { name := some name, tupfile, function } rest := by
    intro rest
    cases function with
    | none => exact .refl _ _
    | some f => exact Steps.field rfl
  refine (hfunction _).trans ?_
  have hbuilddir : ∀ rest, Steps { name := some name, tupfile, function }
      (fieldEvents "builddir" builddir ++ rest)
      { name := some name, tupfile, function, builddir := some builddir } rest :=
    fun rest => Steps.field rfl
  refine (hbuilddir _).trans ?_
  cases profile with
  | none => exact .refl _ _
  | some p => exact Steps.field rfl

/-- A build, as what is read of it. -/
def partialOf (b : TupbuildBuild) : PartialBuild :=
  { b with name := some b.name, builddir := some b.builddir }

theorem steps_body {b : TupbuildBuild} (hkeys : (b.args.map Prod.fst).Nodup) (rest : List Event) :
    Steps {} (bodyEvents b ++ rest) (partialOf b) rest := by
  unfold bodyEvents
  simp only [List.append_assoc]
  refine (steps_scalars b _).trans ?_
  refine (steps_args rfl hkeys _).trans ?_
  refine (steps_depends rfl _).trans ?_
  exact steps_dists rfl rest

theorem tupbuildFinishBuild_partialOf {b : TupbuildBuild} (h : BuildAccepted b) :
    tupbuildFinishBuild (partialOf b) = .ok b := by
  have hdists : ¬ (b.tupfile.isNone = true ∧ b.dists ≠ []) :=
    fun hno => hno.2 (h.dists (Option.isNone_iff_eq_none.1 hno.1))
  unfold tupbuildFinishBuild partialOf
  dsimp only
  rw [if_neg (not_not.2 h.both), if_neg hdists]

theorem tupbuildParseBuild_buildEvents {b : TupbuildBuild} (h : BuildAccepted b) (rest : List Event) :
    tupbuildParseBuild (buildEvents b ++ rest) = .ok (b, rest) := by
  obtain ⟨fuel, hfuel, heq⟩ := steps_body h.keys (.mappingEnd :: rest) _ (Nat.lt_succ_self _)
  obtain ⟨fuel, rfl⟩ := Nat.exists_eq_succ_of_ne_zero (Nat.ne_zero_of_lt hfuel)
  have hevents : bodyEvents b ++ [Event.mappingEnd] ++ rest = bodyEvents b ++ Event.mappingEnd :: rest :=
    List.append_assoc ..
  show tupbuildParseBuildLoop ((bodyEvents b ++ [Event.mappingEnd] ++ rest).length + 1) {}
    (bodyEvents b ++ [Event.mappingEnd] ++ rest) = _
  rw [hevents, heq, tupbuildParseBuildLoop, tupbuildFinishBuild_partialOf h]
  rfl

theorem tupbuildParseLoop_value {fuel : ℕ} {tf tf' : TupbuildFile} {key : Text} {event : Event}
    {events rest : List Event}
    (h : tupbuildParseFileValue tf key (event :: events) = .ok (tf', rest)) :
    tupbuildParseLoop (fuel + 1) tf (.scalar key :: event :: events) =
      tupbuildParseLoop fuel tf' rest := by
  rw [tupbuildParseLoop]
  · rw [h]
    rfl
  · exact fun heq => nomatch heq

theorem tupbuildParseBool_boolText (b : Bool) (msg : String) (rest : List Event) :
    tupbuildParseBool msg (.scalar (boolText b) :: rest) = .ok (b, rest) := by
  cases b with
  | false => rfl
  | true => rfl

/-- The events of the builds of a file and of its end. -/
def tailEvents (builds : List TupbuildBuild) : List Event :=
  .sequenceStart :: (builds.flatMap buildEvents ++ [.sequenceEnd] ++
    [.mappingEnd, .documentEnd, .streamEnd])

/-- A file is read up to its builds. -/
theorem tupbuildParse_fileEvents_builds (strict autoCompiledb : Bool) {builds : List TupbuildBuild}
    (hne : builds ≠ []) : ∃ fuel,
    tupbuildParse (streamOf .mapping (fileEvents { strict, autoCompiledb, builds })) = (do
      let (tf, events) ← tupbuildParseLoop (fuel + 2) { strict, autoCompiledb, builds := [] }
        (.scalar "builds".toList :: tailEvents builds)
      let events ← tupbuildExpect .documentEnd "expected document end" events
      let _ ← tupbuildExpect .streamEnd "expected stream end" events
      .ok tf) := by
  have hstrict : ∀ rest, tupbuildParseFileValue { strict := false, builds := [] } "strict".toList
      (.scalar (boolText strict) :: rest) = .ok ({ strict, builds := [] }, rest) := by
    intro rest
    unfold tupbuildParseFileValue
    rw [if_pos rfl, tupbuildParseBool_boolText]
    rfl
  have hauto : ∀ rest, tupbuildParseFileValue { strict, builds := [] } "auto_compiledb".toList
      (.scalar (boolText autoCompiledb) :: rest) =
        .ok ({ strict, autoCompiledb, builds := [] }, rest) := by
    intro rest
    unfold tupbuildParseFileValue
    rw [if_neg (by decide), if_pos rfl, tupbuildParseBool_boolText]
    rfl
  have hevents : streamOf .mapping (fileEvents { strict, autoCompiledb, builds }) =
      .streamStart :: .documentStart :: .mappingStart ::
        .scalar "strict".toList :: .scalar (boolText strict) :: .scalar "auto_compiledb".toList ::
        .scalar (boolText autoCompiledb) :: .scalar "builds".toList :: tailEvents builds := by
    unfold streamOf fileEvents partEvents
    rw [if_neg hne]
    rfl
  have hloop : ∀ fuel, tupbuildParseLoop (fuel + 4) { strict := false, builds := [] }
      (.scalar "strict".toList :: .scalar (boolText strict) :: .scalar "auto_compiledb".toList ::
        .scalar (boolText autoCompiledb) :: .scalar "builds".toList :: tailEvents builds) =
      tupbuildParseLoop (fuel + 2) { strict, autoCompiledb, builds := [] }
        (.scalar "builds".toList :: tailEvents builds) := by
    intro fuel
    rw [tupbuildParseLoop_value (hstrict _), tupbuildParseLoop_value (hauto _)]
  refine ⟨(tailEvents builds).length + 2, ?_⟩
  rw [hevents, ← hloop]
  rfl

/-- The builds of a file are read as a sequence. -/
theorem tupbuildParseFileValue_builds (strict autoCompiledb : Bool) (events : List Event) :
    tupbuildParseFileValue { strict, autoCompiledb, builds := [] } "builds".toList events =
      (tupbuildParseBuilds events).map fun (builds, rest) =>
        ({ strict, autoCompiledb, builds }, rest) := by
  unfold tupbuildParseFileValue
  rw [if_neg (by decide), if_neg (by decide), if_neg (by decide), if_pos rfl,
    if_neg (not_not.2 rfl)]

theorem buildEvents_start (b : TupbuildBuild) : ∃ body, buildEvents b = .mappingStart :: body :=
  ⟨_, rfl⟩

/-- The events of a file are read as the file. -/
theorem tupbuildParse_fileEvents {tb : TupbuildFile} (hglobal : tb.globalArgs = [])
    (h : ParseAccepts tb) : tupbuildParse (streamOf .mapping (fileEvents tb)) = .ok tb := by
  obtain ⟨strict, autoCompiledb, globalArgs, builds⟩ := tb
  cases hglobal
  have hne : builds ≠ [] := h.nonempty
  have hitem : ∀ b ∈ builds, ∀ rest, tupbuildParseBuild (buildEvents b ++ rest) = .ok (b, rest) :=
    fun b hb rest => tupbuildParseBuild_buildEvents (h.builds b hb) rest
  have hseq : tupbuildParseBuilds (tailEvents builds) = _ :=
    tupbuildParseSeq_flatMap "expected builds sequence" buildEvents_start hitem _
  have hvalue := tupbuildParseFileValue_builds strict autoCompiledb (tailEvents builds)
  rw [hseq] at hvalue
  obtain ⟨fuel, heq⟩ := tupbuildParse_fileEvents_builds strict autoCompiledb hne
  rw [heq]
  unfold tailEvents at hvalue ⊢
  rw [tupbuildParseLoop_value hvalue, tupbuildParseLoop, if_neg hne]
  rfl

/-! ### A file that is read is accepted -/

theorem accepted_of_tupbuildParseBuild {b b' : TupbuildBuild} {rest rest' : List Event}
    (hkeys : (b.args.map Prod.fst).Nodup)
    (h : tupbuildParseBuild (buildEvents b ++ rest) = .ok (b', rest')) :
    BuildAccepted b ∧ rest' = rest := by
  obtain ⟨fuel, hfuel, heq⟩ := steps_body hkeys (.mappingEnd :: rest) _ (Nat.lt_succ_self _)
  obtain ⟨fuel, rfl⟩ := Nat.exists_eq_succ_of_ne_zero (Nat.ne_zero_of_lt hfuel)
  have hevents : bodyEvents b ++ [Event.mappingEnd] ++ rest = bodyEvents b ++ Event.mappingEnd :: rest :=
    List.append_assoc ..
  change tupbuildParseBuildLoop ((bodyEvents b ++ [Event.mappingEnd] ++ rest).length + 1) {}
    (bodyEvents b ++ [Event.mappingEnd] ++ rest) = _ at h
  rw [hevents, heq, tupbuildParseBuildLoop] at h
  obtain ⟨b'', hfinish, hpair⟩ := ok_of_map h
  cases hpair
  refine ⟨?_, rfl⟩
  have haccepted := buildAccepted_of_finish hkeys hfinish
  unfold tupbuildFinishBuild partialOf at hfinish
  dsimp only at hfinish
  split at hfinish
  · cases hfinish
  · split at hfinish
    · cases hfinish
    · cases hfinish
      exact haccepted

theorem forall_of_tupbuildParseItems_flatMap {α : Type}
    {item : List Event → Except Text (α × List Event)} {events : α → List Event} {p : α → Prop}
    {l as : List α} {rest rest' : List Event} {fuel : ℕ}
    (hstart : ∀ a, ∃ body, events a = .mappingStart :: body)
    (hitem : ∀ a ∈ l, ∀ rest a' rest', item (events a ++ rest) = .ok (a', rest') →
      p a ∧ rest' = rest)
    (h : tupbuildParseItems item fuel (l.flatMap events ++ .sequenceEnd :: rest) = .ok (as, rest')) :
    ∀ a ∈ l, p a := by
  induction l generalizing fuel as with
  | nil => exact List.forall_mem_nil p
  | cons a l ih =>
    cases fuel with
    | zero => cases h
    | succ fuel =>
      obtain ⟨body, hbody⟩ := hstart a
      have hhead := hitem a List.mem_cons_self (l.flatMap events ++ .sequenceEnd :: rest)
      rw [List.flatMap_cons, List.append_assoc, hbody, List.cons_append] at h
      rw [hbody, List.cons_append] at hhead
      rw [tupbuildParseItems] at h
      · obtain ⟨⟨a', rest₁⟩, ha, h⟩ := ok_of_bind h
        obtain ⟨⟨as', rest₂⟩, has, h⟩ := ok_of_bind h
        cases h
        obtain ⟨hp, rfl⟩ := hhead a' rest₁ ha
        rw [List.forall_mem_cons]
        exact ⟨hp, ih (fun b hb => hitem b (List.mem_cons_of_mem a hb)) has⟩
      · exact fun heq => nomatch heq
      · exact fun _ heq => nomatch heq

/-- A file whose events are read has builds that the reader accepts. -/
theorem accepted_of_tupbuildParse_fileEvents {tb out : TupbuildFile} (hglobal : tb.globalArgs = [])
    (hne : tb.builds ≠ []) (hkeys : ∀ b ∈ tb.builds, (b.args.map Prod.fst).Nodup)
    (h : tupbuildParse (streamOf .mapping (fileEvents tb)) = .ok out) : ParseAccepts tb := by
  obtain ⟨strict, autoCompiledb, globalArgs, builds⟩ := tb
  cases hglobal
  obtain ⟨fuel, heq⟩ := tupbuildParse_fileEvents_builds strict autoCompiledb hne
  rw [heq] at h
  obtain ⟨⟨tf, events⟩, hloop, -⟩ := ok_of_bind h
  unfold tailEvents at hloop
  rw [tupbuildParseLoop] at hloop
  · obtain ⟨⟨tf', rest⟩, hvalue, -⟩ := ok_of_bind hloop
    rw [tupbuildParseFileValue_builds] at hvalue
    obtain ⟨⟨builds', rest'⟩, hbuilds, -⟩ := ok_of_map hvalue
    obtain ⟨events', hexpect, hitems⟩ := ok_of_bind hbuilds
    cases hexpect
    rw [List.append_assoc] at hitems
    refine ⟨hne, List.nodup_nil, forall_of_tupbuildParseItems_flatMap buildEvents_start ?_ hitems⟩
    exact fun b hb _ _ _ hb' => accepted_of_tupbuildParseBuild (hkeys b hb) hb'
  · exact fun heq => nomatch heq

/-! ### The whole way -/

/-- Where the texts of the builds can be written, the text of a file is read as the file exactly when
the reader accepts such a file. -/
theorem read_fileLines_iff {yaml : Text → List Event} (hyaml : ReadsBlocks yaml) {tb : TupbuildFile}
    (hglobal : tb.globalArgs = []) (hwritable : ∀ b ∈ tb.builds, Writable b) :
    tupbuildParse (yaml (textOf (fileLines tb))) = .ok tb ↔ ParseAccepts tb := by
  constructor
  · exact parseAccepts_of_tupbuildParse
  · intro h
    rw [hyaml .mapping (fileLines tb) (fileEvents tb) (List.cons_ne_nil _ _)
      (block_file h.nonempty hwritable)]
    exact tupbuildParse_fileEvents hglobal h

/-- The text of a file is read as this file or not at all. -/
theorem read_fileLines_eq {yaml : Text → List Event} (hyaml : ReadsBlocks yaml) {tb out : TupbuildFile}
    (hglobal : tb.globalArgs = []) (hne : tb.builds ≠ [])
    (hkeys : ∀ b ∈ tb.builds, (b.args.map Prod.fst).Nodup) (hwritable : ∀ b ∈ tb.builds, Writable b)
    (h : tupbuildParse (yaml (textOf (fileLines tb))) = .ok out) : ParseAccepts tb ∧ out = tb := by
  have hevents := hyaml .mapping (fileLines tb) (fileEvents tb) (List.cons_ne_nil _ _)
    (block_file hne hwritable)
  rw [hevents] at h
  have haccepts := accepted_of_tupbuildParse_fileEvents hglobal hne hkeys h
  rw [tupbuildParse_fileEvents hglobal haccepts] at h
  exact ⟨haccepts, (Except.ok.inj h).symm⟩

/-- Without an old file, what is written is read as the generated builds exactly when there are some
and the reader accepts each of them, where their texts can stand where they are printed. -/
theorem written_text_read_iff {yaml : Text → List Event} (hyaml : ReadsBlocks yaml) {setup : MtSetup}
    {gen : Generated} (hnew : setup.env.existingTb = none)
    (hwritable : ∀ b ∈ gen, Writable b.toTupbuildBuild) :
    tupbuildParse (yaml (mtWriteTupbuildText setup gen)) = .ok
        { strict := setup.strict, autoCompiledb := setup.autoCompiledb
          builds := gen.map fun b => b.toTupbuildBuild } ↔
      gen ≠ [] ∧ ∀ b ∈ gen, BuildAccepted b.toTupbuildBuild := by
  have hbuilds : (mtWriteTupbuild setup gen).builds = gen.map fun b => b.toTupbuildBuild := by
    unfold mtWriteTupbuild
    rw [hnew]
    exact mtWrittenBuilds_nil gen
  have hfile : mtWriteTupbuild setup gen =
      { strict := setup.strict, autoCompiledb := setup.autoCompiledb
        builds := gen.map fun b => b.toTupbuildBuild } := by
    rw [← hbuilds]
    rfl
  have hwritable' : ∀ b ∈ (mtWriteTupbuild setup gen).builds, Writable b := by
    rw [hbuilds, List.forall_mem_map]
    exact hwritable
  rw [mtWriteTupbuildText_eq, ← hfile, read_fileLines_iff hyaml rfl hwritable']
  constructor
  · intro h
    have hne := h.nonempty
    have hall := h.builds
    rw [hbuilds] at hne hall
    rw [List.forall_mem_map] at hall
    exact ⟨fun hnil => hne (by rw [hnil]; rfl), hall⟩
  · rintro ⟨hne, hall⟩
    refine ⟨?_, List.nodup_nil, ?_⟩
    · rw [hbuilds]
      exact mt List.map_eq_nil_iff.1 hne
    · rw [hbuilds, List.forall_mem_map]
      exact hall

/-- `tup gen lib -O <builddir> -B v=<value>` in a workspace with one component. -/
def libArgs (builddir value : String) : List Text :=
  ["-O".toList, builddir.toList, "-B".toList, 'v' :: '=' :: value.toList]

/-- What the run starts from. -/
def libSetup (builddir value : String) : MtSetup where
  env := oneComponent independent
  opts := { overrideBuilddir := some builddir.toList, cliArgs := [(['v'], value.toList)] }
  strict := true
  autoCompiledb := false
  root := { rootInstance independent with args := [(['v'], value.toList)] }
  builddir := builddir.toList

/-- What it generates. -/
def libBuild (builddir value : String) : MtGeneratedBuild where
  name := "lib".toList
  identity := "lib".toList
  tupfile := some "build.tup".toList
  function := some "lib".toList
  builddir := builddir.toList
  args := [(['v'], value.toList)]
  origin := (libSetup builddir value).root

theorem run_lib (builddir value : String) :
    metatupGen 1 (oneComponent independent) "lib".toList (libArgs builddir value) =
      .ok (libSetup builddir value, { idx := 0, name := "lib".toList }, [libBuild builddir value]) := rfl

/-- A directory in quotes is read without them. -/
theorem quoted_builddir_lost : ReadsBlocks readBlocks ∧ ∃ setup ref gen,
    metatupGen 1 (oneComponent independent) "lib".toList (libArgs "\"out\"" "1") =
      .ok (setup, ref, gen) ∧ setup.env.existingTb = none ∧
    tupbuildParse (readBlocks (mtWriteTupbuildText setup gen)) ≠ .ok
      { strict := setup.strict, autoCompiledb := setup.autoCompiledb
        builds := gen.map fun b => b.toTupbuildBuild } := by
  refine ⟨readBlocks_spec, _, _, _, run_lib _ _, rfl, fun heq => ?_⟩
  have hread : (tupbuildParse (readBlocks (mtWriteTupbuildText (libSetup "\"out\"" "1")
      [libBuild "\"out\"" "1"]))).toOption.map (fun tb => tb.builds.map TupbuildBuild.builddir) =
        some ["out".toList] := by decide +kernel
  rw [heq] at hread
  exact absurd hread (by decide)

/-- A value in quotes is read as it was. -/
theorem written_text_read_lib : ∃ setup ref gen,
    metatupGen 1 (oneComponent independent) "lib".toList (libArgs "./out dir" "say \"hi\"") =
      .ok (setup, ref, gen) ∧
    tupbuildParse (readBlocks (mtWriteTupbuildText setup gen)) = .ok
      { strict := setup.strict, autoCompiledb := setup.autoCompiledb
        builds := gen.map fun b => b.toTupbuildBuild } := by
  refine ⟨_, _, _, run_lib _ _, (written_text_read_iff readBlocks_spec rfl ?_).2 ?_⟩
  · intro b hb
    cases List.mem_singleton.1 hb
    have hargs : ∀ kv ∈ (libBuild "./out dir" "say \"hi\"").args, OneLine kv.1 ∧
        (quoted (mtYamlQuote kv.1)).length ≤ 1024 ∧ OneLine kv.2 := by decide
    exact ⟨by decide, by decide, by decide, by decide, by decide, hargs, by decide, by decide⟩
  · refine ⟨List.cons_ne_nil _ _, fun b hb => ?_⟩
    cases List.mem_singleton.1 hb
    exact ⟨by decide, rfl, fun _ => rfl⟩

end Metatup
