import Metatup.Lib.Yaml
import Metatup.Parser.FileChecks

/-!
# Reading a TupBuild file

`tupbuild_parse` goes through the events of the YAML parser. The state of each function is the list of
the events from the current one on; it is empty when the YAML parser has failed. Positions in the file
and warnings are left out.

* `tupbuildParse`: the file of a list of events.
* `parseAccepts_of_tupbuildParse`: what is known of it.
-/

namespace Metatup

open Lib.Yaml

/-! ### Texts -/

/-- The text for an error of the YAML parser. -/
def yamlError : Text := "yaml parse error".toList

/-- The error of `tupbuild_strdup_scalar`. -/
def expectedScalar : Text := "expected scalar value".toList

/-- Source: `tupbuild.c` `tupbuild_expect`, with the step to the next event. -/
def tupbuildExpect (event : Event) (msg : String) : List Event → Except Text (List Event)
  | [] => .error yamlError
  | e :: rest => if e = event then .ok rest else .error msg.toList

/-! ### Mappings and sequences -/

/-- The loop of `tupbuild_parse_string_map`. -/
def tupbuildParseStringMapLoop (kvs : List (Text × Text)) :
    List Event → Except Text (List (Text × Text) × List Event)
  | [] => .error yamlError
  | .mappingEnd :: rest => .ok (kvs, rest)
  | .scalar key :: rest =>
    if key ∈ kvs.map Prod.fst then .error "duplicate key in mapping".toList
    else match rest with
      | [] => .error yamlError
      | .scalar value :: rest => tupbuildParseStringMapLoop (kvs ++ [(key, value)]) rest
      | _ => .error expectedScalar
  | _ => .error expectedScalar

/-- Source: `tupbuild.c` `tupbuild_parse_string_map` -/
def tupbuildParseStringMap (events : List Event) :
    Except Text (List (Text × Text) × List Event) := do
  let events ← tupbuildExpect .mappingStart "expected mapping" events
  tupbuildParseStringMapLoop [] events

/-- The keys and the errors of a mapping with two keys. -/
structure PairTexts where
  expected : String
  first : String
  second : String
  duplicateFirst : String
  duplicateSecond : String
  missing : String

/-- The loop of `tupbuild_parse_dep` and `tupbuild_parse_dist`. After an unknown key a single event is
skipped. -/
def tupbuildParsePairLoop (texts : PairTexts) (a b : Option Text) :
    List Event → Except Text ((Text × Text) × List Event)
  | [] => .error yamlError
  | .mappingEnd :: rest =>
    match a, b with
    | some a, some b => .ok ((a, b), rest)
    | _, _ => .error texts.missing.toList
  | [.scalar _] => .error yamlError
  | .scalar key :: value :: rest =>
    if key = texts.first.toList then
      match value with
      | .scalar v =>
        if a.isSome then .error texts.duplicateFirst.toList
        else tupbuildParsePairLoop texts (some v) b rest
      | _ => .error expectedScalar
    else if key = texts.second.toList then
      match value with
      | .scalar v =>
        if b.isSome then .error texts.duplicateSecond.toList
        else tupbuildParsePairLoop texts a (some v) rest
      | _ => .error expectedScalar
    else tupbuildParsePairLoop texts a b rest
  | _ => .error expectedScalar

/-- A mapping with two keys. -/
def tupbuildParsePair (texts : PairTexts) (events : List Event) :
    Except Text ((Text × Text) × List Event) := do
  let events ← tupbuildExpect .mappingStart texts.expected events
  tupbuildParsePairLoop texts none none events

/-- The texts of `tupbuild_parse_dep`. -/
def depTexts : PairTexts where
  expected := "expected dependency mapping"
  first := "build"
  second := "as"
  duplicateFirst := "duplicate dependency build key"
  duplicateSecond := "duplicate dependency alias key"
  missing := "dependency requires both build and as"

/-- Source: `tupbuild.c` `tupbuild_parse_dep` -/
def tupbuildParseDep (events : List Event) : Except Text (TupbuildDep × List Event) :=
  (tupbuildParsePair depTexts events).map fun (p, rest) => ({ build := p.1, as := p.2 }, rest)

/-- The texts of `tupbuild_parse_dist`. -/
def distTexts : PairTexts where
  expected := "expected dist mapping"
  first := "from_return"
  second := "path"
  duplicateFirst := "duplicate dist from_return key"
  duplicateSecond := "duplicate dist path key"
  missing := "dist requires both from_return and path"

/-- Source: `tupbuild.c` `tupbuild_parse_dist` -/
def tupbuildParseDist (events : List Event) : Except Text (TupbuildDist × List Event) :=
  (tupbuildParsePair distTexts events).map fun (p, rest) => ({ fromReturn := p.1, path := p.2 }, rest)

section

variable {α : Type} (item : List Event → Except Text (α × List Event))

/-- The loop over the items of a sequence. The fuel bounds the number of the events. -/
def tupbuildParseItems : ℕ → List Event → Except Text (List α × List Event)
  | 0, _ => .error yamlError
  | _ + 1, [] => .error yamlError
  | _ + 1, .sequenceEnd :: rest => .ok ([], rest)
  | fuel + 1, events => do
    let (a, events) ← item events
    let (as, events) ← tupbuildParseItems fuel events
    .ok (a :: as, events)

/-- The loop of `tupbuild_parse_dep_seq`, `tupbuild_parse_dist_seq` and `tupbuild_parse_builds`. -/
def tupbuildParseSeq (expected : String) (events : List Event) :
    Except Text (List α × List Event) := do
  let events ← tupbuildExpect .sequenceStart expected events
  tupbuildParseItems item (events.length + 1) events

end

/-- Source: `tupbuild.c` `tupbuild_parse_dep_seq` -/
def tupbuildParseDepSeq : List Event → Except Text (List TupbuildDep × List Event) :=
  tupbuildParseSeq tupbuildParseDep "expected dependency sequence"

/-- Source: `tupbuild.c` `tupbuild_parse_dist_seq` -/
def tupbuildParseDistSeq : List Event → Except Text (List TupbuildDist × List Event) :=
  tupbuildParseSeq tupbuildParseDist "expected dist sequence"

mutual

/-- Source: `tupbuild.c` `tupbuild_skip`; the fuel bounds the number of the events. -/
def tupbuildSkip : ℕ → List Event → Except Text (List Event)
  | 0, _ => .error yamlError
  | _ + 1, [] => .error yamlError
  | _ + 1, .scalar _ :: rest => .ok rest
  | _ + 1, .alias _ :: rest => .ok rest
  | fuel + 1, .sequenceStart :: rest => tupbuildSkipItems fuel rest
  | fuel + 1, .mappingStart :: rest => tupbuildSkipEntries fuel rest
  | _ + 1, _ => .error "unable to skip yaml node".toList

/-- The items of a sequence. -/
def tupbuildSkipItems : ℕ → List Event → Except Text (List Event)
  | 0, _ => .error yamlError
  | _ + 1, .sequenceEnd :: rest => .ok rest
  | fuel + 1, events => do
    let events ← tupbuildSkip fuel events
    tupbuildSkipItems fuel events

/-- The keys and values of a mapping. -/
def tupbuildSkipEntries : ℕ → List Event → Except Text (List Event)
  | 0, _ => .error yamlError
  | _ + 1, .mappingEnd :: rest => .ok rest
  | fuel + 1, events => do
    let events ← tupbuildSkip fuel events
    let events ← tupbuildSkip fuel events
    tupbuildSkipEntries fuel events

end

/-! ### Builds -/

/-- A `struct tupbuild_build` while it is read. -/
structure PartialBuild where
  name : Option Text := none
  tupfile : Option Text := none
  function : Option Text := none
  builddir : Option Text := none
  profile : Option Text := none
  args : List (Text × Text) := []
  depends : List TupbuildDep := []
  dists : List TupbuildDist := []

/-- The keys of a build whose values are scalars. -/
def scalarKeys : List Text := ["name", "tupfile", "function", "builddir", "profile"].map String.toList

/-- One of the scalars of a build. -/
def tupbuildSetScalar (b : PartialBuild) (key value : Text) : Except Text PartialBuild :=
  if key = "name".toList then
    if b.name.isSome then .error "duplicate build name".toList
    else .ok { b with name := some value }
  else if key = "tupfile".toList then
    if b.tupfile.isSome then .error "duplicate tupfile key".toList
    else .ok { b with tupfile := some value }
  else if key = "function".toList then
    if b.function.isSome then .error "duplicate function key".toList
    else .ok { b with function := some value }
  else if key = "builddir".toList then
    if b.builddir.isSome then .error "duplicate builddir key".toList
    else .ok { b with builddir := some value }
  else
    if b.profile.isSome then .error "duplicate profile key".toList
    else .ok { b with profile := some value }

/-- The checks at the end of `tupbuild_parse_build`. -/
def tupbuildFinishBuild (b : PartialBuild) : Except Text TupbuildBuild :=
  match b.name, b.builddir with
  | some name, some builddir =>
    if b.tupfile.isSome ≠ b.function.isSome then
      .error "build must specify both tupfile and function, or neither".toList
    else if b.tupfile.isNone ∧ b.dists ≠ [] then
      .error "dependency-only build cannot declare dists".toList
    else .ok { b with name, builddir }
  | _, _ => .error "build requires name and builddir".toList

/-- The value of a key of a build. -/
def tupbuildParseBuildValue (b : PartialBuild) (key : Text) (events : List Event) :
    Except Text (PartialBuild × List Event) :=
  if key = "args".toList then
    if b.args ≠ [] then .error "duplicate args key".toList
    else (tupbuildParseStringMap events).map fun (args, rest) => ({ b with args }, rest)
  else if key = "depends".toList then
    if b.depends ≠ [] then .error "duplicate depends key".toList
    else (tupbuildParseDepSeq events).map fun (depends, rest) => ({ b with depends }, rest)
  else if key = "dists".toList then
    if b.dists ≠ [] then .error "duplicate dists key".toList
    else (tupbuildParseDistSeq events).map fun (dists, rest) => ({ b with dists }, rest)
  else if key ∈ scalarKeys then
    match events with
    | .scalar value :: rest => (tupbuildSetScalar b key value).map fun b => (b, rest)
    | _ => .error expectedScalar
  else (tupbuildSkip (events.length + 1) events).map fun rest => (b, rest)

/-- The loop of `tupbuild_parse_build`. -/
def tupbuildParseBuildLoop : ℕ → PartialBuild → List Event → Except Text (TupbuildBuild × List Event)
  | 0, _, _ => .error yamlError
  | _ + 1, _, [] => .error yamlError
  | _ + 1, b, .mappingEnd :: rest => (tupbuildFinishBuild b).map fun build => (build, rest)
  | _ + 1, _, [.scalar _] => .error yamlError
  | fuel + 1, b, .scalar key :: rest => do
    let (b, rest) ← tupbuildParseBuildValue b key rest
    tupbuildParseBuildLoop fuel b rest
  | _ + 1, _, _ => .error expectedScalar

/-- Source: `tupbuild.c` `tupbuild_parse_build` -/
def tupbuildParseBuild (events : List Event) : Except Text (TupbuildBuild × List Event) := do
  let events ← tupbuildExpect .mappingStart "expected build mapping" events
  tupbuildParseBuildLoop (events.length + 1) {} events

/-- Source: `tupbuild.c` `tupbuild_parse_builds` -/
def tupbuildParseBuilds : List Event → Except Text (List TupbuildBuild × List Event) :=
  tupbuildParseSeq tupbuildParseBuild "expected builds sequence"

/-! ### The file -/

/-- The value of a key that is `true` or `false`. -/
def tupbuildParseBool (msg : String) : List Event → Except Text (Bool × List Event)
  | .scalar value :: rest =>
    if value = "true".toList then .ok (true, rest)
    else if value = "false".toList then .ok (false, rest)
    else .error msg.toList
  | _ => .error expectedScalar

/-- The value of a key of the file. -/
def tupbuildParseFileValue (tf : TupbuildFile) (key : Text) (events : List Event) :
    Except Text (TupbuildFile × List Event) :=
  if key = "strict".toList then
    (tupbuildParseBool "strict must be true or false" events).map fun (strict, rest) =>
      ({ tf with strict }, rest)
  else if key = "auto_compiledb".toList then
    (tupbuildParseBool "auto_compiledb must be true or false" events).map fun (autoCompiledb, rest) =>
      ({ tf with autoCompiledb }, rest)
  else if key = "globalArgs".toList then
    if tf.globalArgs ≠ [] then .error "duplicate globalArgs key".toList
    else (tupbuildParseStringMap events).map fun (globalArgs, rest) => ({ tf with globalArgs }, rest)
  else if key = "builds".toList then
    if tf.builds ≠ [] then .error "duplicate builds key".toList
    else (tupbuildParseBuilds events).map fun (builds, rest) => ({ tf with builds }, rest)
  else (tupbuildSkip (events.length + 1) events).map fun rest => (tf, rest)

/-- The loop of `tupbuild_parse`. -/
def tupbuildParseLoop : ℕ → TupbuildFile → List Event → Except Text (TupbuildFile × List Event)
  | 0, _, _ => .error yamlError
  | _ + 1, _, [] => .error yamlError
  | _ + 1, tf, .mappingEnd :: rest =>
    if tf.builds = [] then .error "TupBuild.yaml requires at least one build".toList
    else .ok (tf, rest)
  | _ + 1, _, [.scalar _] => .error yamlError
  | fuel + 1, tf, .scalar key :: rest => do
    let (tf, rest) ← tupbuildParseFileValue tf key rest
    tupbuildParseLoop fuel tf rest
  | _ + 1, _, _ => .error expectedScalar

/-- Source: `tupbuild.c` `tupbuild_parse` -/
def tupbuildParse (events : List Event) : Except Text TupbuildFile := do
  let events ← tupbuildExpect .streamStart "expected stream start" events
  let events ← tupbuildExpect .documentStart "expected document start" events
  let events ← tupbuildExpect .mappingStart "expected top-level mapping" events
  let (tf, events) ← tupbuildParseLoop (events.length + 1) { strict := false, builds := [] } events
  let events ← tupbuildExpect .documentEnd "expected document end" events
  let _ ← tupbuildExpect .streamEnd "expected stream end" events
  .ok tf

/-! ### What has been read -/

section

variable {α β : Type}

theorem ok_of_bind {x : Except Text α} {f : α → Except Text β} {b : β}
    (h : (x >>= f) = .ok b) : ∃ a, x = .ok a ∧ f a = .ok b := by
  cases x with
  | error e => cases h
  | ok a => exact ⟨a, rfl, h⟩

theorem ok_of_map {x : Except Text α} {f : α → β} {b : β} (h : x.map f = .ok b) :
    ∃ a, x = .ok a ∧ f a = b := by
  cases x with
  | error e => cases h
  | ok a => exact ⟨a, rfl, Except.ok.inj h⟩

end

theorem nodup_of_tupbuildParseStringMapLoop {kvs out : List (Text × Text)} {events rest : List Event}
    (hkvs : (kvs.map Prod.fst).Nodup) (h : tupbuildParseStringMapLoop kvs events = .ok (out, rest)) :
    (out.map Prod.fst).Nodup := by
  fun_induction tupbuildParseStringMapLoop kvs events with
  | case1 => cases h
  | case2 =>
    cases h
    exact hkvs
  | case3 => cases h
  | case4 => cases h
  | case5 kvs key hfresh value rest ih =>
    refine ih ?_ h
    rw [List.map_append, List.nodup_append]
    refine ⟨hkvs, List.nodup_singleton _, ?_⟩
    intro k hk k' hk' heq
    cases List.mem_singleton.1 hk'
    change k = key at heq
    exact hfresh (heq ▸ hk)
  | case6 => cases h
  | case7 => cases h

theorem nodup_of_tupbuildParseStringMap {out : List (Text × Text)} {events rest : List Event}
    (h : tupbuildParseStringMap events = .ok (out, rest)) : (out.map Prod.fst).Nodup := by
  obtain ⟨events', -, hloop⟩ := ok_of_bind h
  have hnil : (([] : List (Text × Text)).map Prod.fst).Nodup := List.nodup_nil
  exact nodup_of_tupbuildParseStringMapLoop hnil hloop

theorem forall_of_tupbuildParseItems {α : Type} {item : List Event → Except Text (α × List Event)}
    {p : α → Prop} (hitem : ∀ events a rest, item events = .ok (a, rest) → p a) {fuel : ℕ}
    {events rest : List Event} {as : List α}
    (h : tupbuildParseItems item fuel events = .ok (as, rest)) : ∀ a ∈ as, p a := by
  fun_induction tupbuildParseItems item fuel events generalizing as rest with
  | case1 => cases h
  | case2 => cases h
  | case3 =>
    cases h
    exact List.forall_mem_nil p
  | case4 events fuel _ _ ih =>
    obtain ⟨⟨a, events'⟩, ha, h⟩ := ok_of_bind h
    obtain ⟨⟨as', events''⟩, has, h⟩ := ok_of_bind h
    cases h
    rw [List.forall_mem_cons]
    exact ⟨hitem _ _ _ ha, ih _ has⟩

theorem tupbuildSetScalar_args {b b' : PartialBuild} {key value : Text}
    (h : tupbuildSetScalar b key value = .ok b') : b'.args = b.args := by
  unfold tupbuildSetScalar at h
  split at h
  · split at h <;> cases h
    rfl
  split at h
  · split at h <;> cases h
    rfl
  split at h
  · split at h <;> cases h
    rfl
  split at h
  · split at h <;> cases h
    rfl
  · split at h <;> cases h
    rfl

theorem tupbuildParseBuildValue_keys {b b' : PartialBuild} {key : Text} {events rest : List Event}
    (hb : (b.args.map Prod.fst).Nodup)
    (h : tupbuildParseBuildValue b key events = .ok (b', rest)) : (b'.args.map Prod.fst).Nodup := by
  unfold tupbuildParseBuildValue at h
  split at h
  · split at h
    · cases h
    · obtain ⟨⟨args, rest'⟩, hargs, heq⟩ := ok_of_map h
      cases heq
      exact nodup_of_tupbuildParseStringMap hargs
  split at h
  · split at h
    · cases h
    · obtain ⟨⟨depends, rest'⟩, -, heq⟩ := ok_of_map h
      cases heq
      exact hb
  split at h
  · split at h
    · cases h
    · obtain ⟨⟨dists, rest'⟩, -, heq⟩ := ok_of_map h
      cases heq
      exact hb
  split at h
  · split at h
    · obtain ⟨b'', hset, heq⟩ := ok_of_map h
      cases heq
      rw [tupbuildSetScalar_args hset]
      exact hb
    · cases h
  · obtain ⟨rest', -, heq⟩ := ok_of_map h
    cases heq
    exact hb

theorem buildAccepted_of_finish {b : PartialBuild} {build : TupbuildBuild}
    (hb : (b.args.map Prod.fst).Nodup) (h : tupbuildFinishBuild b = .ok build) :
    BuildAccepted build := by
  unfold tupbuildFinishBuild at h
  split at h
  · split at h
    · cases h
    · next hboth =>
      split at h
      · cases h
      · next hdists =>
        cases h
        refine ⟨hb, not_not.1 hboth, fun hnone => ?_⟩
        have htup : b.tupfile.isNone = true := Option.isNone_iff_eq_none.2 hnone
        exact not_not.1 fun hne => hdists ⟨htup, hne⟩
  · cases h

theorem buildAccepted_of_loop {fuel : ℕ} {b : PartialBuild} {events rest : List Event}
    {build : TupbuildBuild} (hb : (b.args.map Prod.fst).Nodup)
    (h : tupbuildParseBuildLoop fuel b events = .ok (build, rest)) : BuildAccepted build := by
  fun_induction tupbuildParseBuildLoop fuel b events with
  | case1 => cases h
  | case2 => cases h
  | case3 _ b rest' =>
    obtain ⟨build', hfinish, heq⟩ := ok_of_map h
    cases heq
    exact buildAccepted_of_finish hb hfinish
  | case4 => cases h
  | case5 fuel b key rest' _ ih =>
    obtain ⟨⟨b', rest''⟩, hvalue, h⟩ := ok_of_bind h
    exact ih b' rest'' (tupbuildParseBuildValue_keys hb hvalue) h
  | case6 => cases h

theorem buildAccepted_of_tupbuildParseBuild {events rest : List Event} {build : TupbuildBuild}
    (h : tupbuildParseBuild events = .ok (build, rest)) : BuildAccepted build := by
  obtain ⟨events', -, hloop⟩ := ok_of_bind h
  have hnil : ((({} : PartialBuild).args).map Prod.fst).Nodup := List.nodup_nil
  exact buildAccepted_of_loop hnil hloop

/-- What holds of the file while it is read. -/
structure FileInv (tf : TupbuildFile) : Prop where
  globalKeys : (tf.globalArgs.map Prod.fst).Nodup
  builds : ∀ b ∈ tf.builds, BuildAccepted b

theorem FileInv.value {tf tf' : TupbuildFile} {key : Text} {events rest : List Event}
    (htf : FileInv tf) (h : tupbuildParseFileValue tf key events = .ok (tf', rest)) : FileInv tf' := by
  unfold tupbuildParseFileValue at h
  split at h
  · obtain ⟨⟨strict, rest'⟩, -, heq⟩ := ok_of_map h
    cases heq
    exact ⟨htf.globalKeys, htf.builds⟩
  split at h
  · obtain ⟨⟨autoCompiledb, rest'⟩, -, heq⟩ := ok_of_map h
    cases heq
    exact ⟨htf.globalKeys, htf.builds⟩
  split at h
  · split at h
    · cases h
    · obtain ⟨⟨globalArgs, rest'⟩, hargs, heq⟩ := ok_of_map h
      cases heq
      exact ⟨nodup_of_tupbuildParseStringMap hargs, htf.builds⟩
  split at h
  · split at h
    · cases h
    · obtain ⟨⟨builds, rest'⟩, hbuilds, heq⟩ := ok_of_map h
      cases heq
      obtain ⟨events', -, hitems⟩ := ok_of_bind hbuilds
      have hitem : ∀ events b rest, tupbuildParseBuild events = .ok (b, rest) → BuildAccepted b :=
        fun _ _ _ => buildAccepted_of_tupbuildParseBuild
      exact ⟨htf.globalKeys, forall_of_tupbuildParseItems hitem hitems⟩
  · obtain ⟨rest', -, heq⟩ := ok_of_map h
    cases heq
    exact htf

theorem parseAccepts_of_loop {fuel : ℕ} {tf tf' : TupbuildFile} {events rest : List Event}
    (htf : FileInv tf) (h : tupbuildParseLoop fuel tf events = .ok (tf', rest)) :
    ParseAccepts tf' := by
  fun_induction tupbuildParseLoop fuel tf events with
  | case1 => cases h
  | case2 => cases h
  | case3 => cases h
  | case4 _ tf rest' hne =>
    cases h
    exact ⟨hne, htf.globalKeys, htf.builds⟩
  | case5 => cases h
  | case6 fuel tf key rest' _ ih =>
    obtain ⟨⟨tf'', rest''⟩, hvalue, h⟩ := ok_of_bind h
    exact ih tf'' rest'' (htf.value hvalue) h
  | case7 => cases h

/-- What has been read passes the checks of the reader. -/
theorem parseAccepts_of_tupbuildParse {events : List Event} {tf : TupbuildFile}
    (h : tupbuildParse events = .ok tf) : ParseAccepts tf := by
  obtain ⟨events₁, -, h⟩ := ok_of_bind h
  obtain ⟨events₂, -, h⟩ := ok_of_bind h
  obtain ⟨events₃, -, h⟩ := ok_of_bind h
  obtain ⟨⟨tf', events₄⟩, hloop, h⟩ := ok_of_bind h
  obtain ⟨events₅, -, h⟩ := ok_of_bind h
  obtain ⟨events₆, -, h⟩ := ok_of_bind h
  cases h
  have hinit : FileInv { strict := false, builds := [] } :=
    ⟨List.nodup_nil, fun b hb => absurd hb List.not_mem_nil⟩
  exact parseAccepts_of_loop hinit hloop

end Metatup
