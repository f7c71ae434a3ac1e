import Metatup.Lib.PrefixReader
import Metatup.Parser.TupbuildRead

/-!
# Unknown keys of a TupBuild file

`tupbuild_parse` warns about a key that it does not know and goes on. The top-level loop and the loop
of a build skip the value with `tupbuild_skip`. The loops of a dependency and of a dist take a single
event instead, so they read on inside of a value that is a sequence or a mapping.

* `Reaches`: the loops that the parse of a stream gets to, with what is left of the stream there.
* `Ignored`: what the value of an unknown key has to look like for the loop to get past it.
-/

namespace Metatup

open Lib Lib.Yaml

/-! ### The loops -/

/-- A loop over the keys of a mapping or over the items of a sequence, with what has been read. -/
inductive ReadLoop
  | file (tf : TupbuildFile)
  | builds (tf : TupbuildFile) (done : List TupbuildBuild)
  | build (tf : TupbuildFile) (done : List TupbuildBuild) (b : PartialBuild)
  | depends (tf : TupbuildFile) (done : List TupbuildBuild) (b : PartialBuild)
      (deps : List TupbuildDep)
  | dep (tf : TupbuildFile) (done : List TupbuildBuild) (b : PartialBuild) (deps : List TupbuildDep)
      (build as : Option Text)
  | dists (tf : TupbuildFile) (done : List TupbuildBuild) (b : PartialBuild)
      (dists : List TupbuildDist)
  | dist (tf : TupbuildFile) (done : List TupbuildBuild) (b : PartialBuild)
      (dists : List TupbuildDist) (fromReturn path : Option Text)

/-- One key of a dependency or of a dist, with the event after it. -/
def tupbuildPairKey (texts : PairTexts) (a b : Option Text) (key : Text) (value : Event) :
    Except Text (Option Text × Option Text) :=
  if key = texts.first.toList then
    match value with
    | .scalar v => if a.isSome then .error texts.duplicateFirst.toList else .ok (some v, b)
    | _ => .error expectedScalar
  else if key = texts.second.toList then
    match value with
    | .scalar v => if b.isSome then .error texts.duplicateSecond.toList else .ok (a, some v)
    | _ => .error expectedScalar
  else .ok (a, b)

theorem tupbuildParsePairLoop_key (texts : PairTexts) (a b : Option Text) (key : Text) (value : Event)
    (rest : List Event) :
    tupbuildParsePairLoop texts a b (.scalar key :: value :: rest) =
      (tupbuildPairKey texts a b key value).bind fun p =>
        tupbuildParsePairLoop texts p.1 p.2 rest := by
  rw [tupbuildParsePairLoop.eq_def]
  unfold tupbuildPairKey
  by_cases hfirst : key = texts.first.toList
  · simp only [if_pos hfirst]
    cases value with
    | scalar v => by_cases hset : a.isSome <;> simp [hset, Except.bind]
    | _ => rfl
  · simp only [if_neg hfirst]
    by_cases hsecond : key = texts.second.toList
    · simp only [if_pos hsecond]
      cases value with
      | scalar v => by_cases hset : b.isSome <;> simp [hset, Except.bind]
      | _ => rfl
    · simp only [if_neg hsecond, Except.bind]

/-- The parse of the stream gets to the head of a loop, and this is left of the stream there. -/
inductive Reaches (events : List Event) : ReadLoop → List Event → Prop
  | start {rest : List Event}
      (h : events = .streamStart :: .documentStart :: .mappingStart :: rest) :
      Reaches events (.file { strict := false, builds := [] }) rest
  | fileKey {tf tf' : TupbuildFile} {key : Text} {rest rest' : List Event}
      (h : Reaches events (.file tf) (.scalar key :: rest))
      (hvalue : tupbuildParseFileValue tf key rest = .ok (tf', rest')) :
      Reaches events (.file tf') rest'
  | builds {tf : TupbuildFile} {rest : List Event}
      (h : Reaches events (.file tf) (.scalar "builds".toList :: .sequenceStart :: rest))
      (hnone : tf.builds = []) : Reaches events (.builds tf []) rest
  | buildsItem {tf : TupbuildFile} {done : List TupbuildBuild} {build : TupbuildBuild}
      {rest rest' : List Event} (h : Reaches events (.builds tf done) rest)
      (hitem : tupbuildParseBuild rest = .ok (build, rest')) :
      Reaches events (.builds tf (done ++ [build])) rest'
  | build {tf : TupbuildFile} {done : List TupbuildBuild} {rest : List Event}
      (h : Reaches events (.builds tf done) (.mappingStart :: rest)) :
      Reaches events (.build tf done {}) rest
  | buildKey {tf : TupbuildFile} {done : List TupbuildBuild} {b b' : PartialBuild} {key : Text}
      {rest rest' : List Event} (h : Reaches events (.build tf done b) (.scalar key :: rest))
      (hvalue : tupbuildParseBuildValue b key rest = .ok (b', rest')) :
      Reaches events (.build tf done b') rest'
  | depends {tf : TupbuildFile} {done : List TupbuildBuild} {b : PartialBuild} {rest : List Event}
      (h : Reaches events (.build tf done b) (.scalar "depends".toList :: .sequenceStart :: rest))
      (hnone : b.depends = []) : Reaches events (.depends tf done b []) rest
  | dependsItem {tf : TupbuildFile} {done : List TupbuildBuild} {b : PartialBuild}
      {deps : List TupbuildDep} {d : TupbuildDep} {rest rest' : List Event}
      (h : Reaches events (.depends tf done b deps) rest)
      (hitem : tupbuildParseDep rest = .ok (d, rest')) :
      Reaches events (.depends tf done b (deps ++ [d])) rest'
  | dep {tf : TupbuildFile} {done : List TupbuildBuild} {b : PartialBuild}
      {deps : List TupbuildDep} {rest : List Event}
      (h : Reaches events (.depends tf done b deps) (.mappingStart :: rest)) :
      Reaches events (.dep tf done b deps none none) rest
  | depKey {tf : TupbuildFile} {done : List TupbuildBuild} {b : PartialBuild}
      {deps : List TupbuildDep} {build as build' as' : Option Text} {key : Text} {value : Event}
      {rest : List Event}
      (h : Reaches events (.dep tf done b deps build as) (.scalar key :: value :: rest))
      (hkey : tupbuildPairKey depTexts build as key value = .ok (build', as')) :
      Reaches events (.dep tf done b deps build' as') rest
  | dists {tf : TupbuildFile} {done : List TupbuildBuild} {b : PartialBuild} {rest : List Event}
      (h : Reaches events (.build tf done b) (.scalar "dists".toList :: .sequenceStart :: rest))
      (hnone : b.dists = []) : Reaches events (.dists tf done b []) rest
  | distsItem {tf : TupbuildFile} {done : List TupbuildBuild} {b : PartialBuild}
      {dists : List TupbuildDist} {d : TupbuildDist} {rest rest' : List Event}
      (h : Reaches events (.dists tf done b dists) rest)
      (hitem : tupbuildParseDist rest = .ok (d, rest')) :
      Reaches events (.dists tf done b (dists ++ [d])) rest'
  | dist {tf : TupbuildFile} {done : List TupbuildBuild} {b : PartialBuild}
      {dists : List TupbuildDist} {rest : List Event}
      (h : Reaches events (.dists tf done b dists) (.mappingStart :: rest)) :
      Reaches events (.dist tf done b dists none none) rest
  | distKey {tf : TupbuildFile} {done : List TupbuildBuild} {b : PartialBuild}
      {dists : List TupbuildDist} {fromReturn path fromReturn' path' : Option Text} {key : Text}
      {value : Event} {rest : List Event}
      (h : Reaches events (.dist tf done b dists fromReturn path) (.scalar key :: value :: rest))
      (hkey : tupbuildPairKey distTexts fromReturn path key value = .ok (fromReturn', path')) :
      Reaches events (.dist tf done b dists fromReturn' path') rest

/-! ### Unknown keys -/

/-- The mappings whose unknown keys are warned about. -/
inductive Place
  | file
  | build
  | dep
  | dist
  deriving DecidableEq

/-- The mapping whose keys a loop reads. -/
def ReadLoop.place : ReadLoop → Option Place
  | .file _ => some .file
  | .build _ _ _ => some .build
  | .dep _ _ _ _ _ _ => some .dep
  | .dist _ _ _ _ _ _ => some .dist
  | _ => none

/-- The keys of a mapping. -/
def Place.keys : Place → List Text
  | .file => ["strict", "auto_compiledb", "globalArgs", "builds"].map String.toList
  | .build => ["args", "depends", "dists"].map String.toList ++ scalarKeys
  | .dep => [depTexts.first, depTexts.second].map String.toList
  | .dist => [distTexts.first, distTexts.second].map String.toList

/-- The events come in pairs, and each pair starts with a scalar that is none of these keys. -/
def PairsUp (keys : List Text) : List Event → Prop
  | [] => True
  | .scalar key :: _ :: rest => key ∉ keys ∧ PairsUp keys rest
  | _ => False

/-- The loop gets past an unknown key with a value of these events. -/
def Ignored (place : Place) (value : List Event) : Prop :=
  match place with
  | .file | .build => True
  | .dep | .dist => PairsUp place.keys value.tail

/-! ### What a reader takes -/

theorem ne_nil_of_length_pos {α : Type} {l : List α} (h : 0 < l.length) : l ≠ [] :=
  List.length_pos_iff.1 h

theorem prefixReader_stringMapLoop (kvs : List (Text × Text)) :
    PrefixReader (tupbuildParseStringMapLoop kvs) := by
  intro l out rest h
  fun_induction tupbuildParseStringMapLoop kvs l with
  | case1 => cases h
  | case2 kvs rest' =>
    cases h
    exact ⟨[.mappingEnd], rfl, List.cons_ne_nil _ _, fun s => rfl⟩
  | case3 => cases h
  | case4 => cases h
  | case5 kvs key hfresh value rest' ih =>
    obtain ⟨pre, rfl, htakes⟩ := ih h
    refine ⟨.scalar key :: .scalar value :: pre, rfl, List.cons_ne_nil _ _, fun s => ?_⟩
    rw [List.cons_append, List.cons_append, tupbuildParseStringMapLoop, if_neg hfresh]
    exact htakes.read s
  | case6 => cases h
  | case7 => cases h

theorem prefixReader_pairLoop (texts : PairTexts) (a b : Option Text) :
    PrefixReader (tupbuildParsePairLoop texts a b) := by
  intro l
  induction hn : l.length using Nat.strong_induction_on generalizing l a b with
  | _ n ih =>
    intro out rest h
    match l, h with
    | [], h => cases h
    | .mappingEnd :: rest', h =>
      cases a with
      | none => cases h
      | some a =>
        cases b with
        | none => cases h
        | some b =>
          cases h
          exact ⟨[.mappingEnd], rfl, List.cons_ne_nil _ _, fun s => rfl⟩
    | [.scalar key], h => cases h
    | .scalar key :: value :: rest', h =>
      rw [tupbuildParsePairLoop_key] at h
      obtain ⟨⟨a', b'⟩, hkey, h⟩ := ok_of_bind h
      have hlt : rest'.length < n := by
        rw [← hn, List.length_cons, List.length_cons]
        omega
      obtain ⟨pre, rfl, htakes⟩ := ih _ hlt a' b' rest' rfl out rest h
      refine ⟨.scalar key :: value :: pre, rfl, List.cons_ne_nil _ _, fun s => ?_⟩
      rw [List.cons_append, List.cons_append, tupbuildParsePairLoop_key, hkey]
      exact htakes.read s
    | .streamStart :: _, h => cases h
    | .streamEnd :: _, h => cases h
    | .documentStart :: _, h => cases h
    | .documentEnd :: _, h => cases h
    | .alias _ :: _, h => cases h
    | .sequenceStart :: _, h => cases h
    | .sequenceEnd :: _, h => cases h
    | .mappingStart :: _, h => cases h

theorem tupbuildExpect_eq_ok {event : Event} {msg : String} {l rest : List Event}
    (h : tupbuildExpect event msg l = .ok rest) : l = event :: rest := by
  cases l with
  | nil => cases h
  | cons e l' =>
    by_cases heq : e = event
    · rw [tupbuildExpect, if_pos heq] at h
      cases h
      rw [heq]
    · rw [tupbuildExpect, if_neg heq] at h
      cases h

theorem tupbuildExpect_self (event : Event) (msg : String) (rest : List Event) :
    tupbuildExpect event msg (event :: rest) = .ok rest := if_pos rfl

/-- A reader that comes after one event. -/
theorem prefixReader_after {α : Type} {f : List Event → Except Text (α × List Event)}
    (hf : PrefixReader f) (event : Event) (msg : String) :
    PrefixReader fun l => (tupbuildExpect event msg l).bind f := by
  intro l a rest h
  obtain ⟨l', hl', hread⟩ := ok_of_bind h
  obtain rfl := tupbuildExpect_eq_ok hl'
  obtain ⟨pre, rfl, htakes⟩ := hf l' a rest hread
  refine ⟨event :: pre, rfl, List.cons_ne_nil _ _, fun s => ?_⟩
  rw [List.cons_append, tupbuildExpect_self]
  exact htakes.read s

theorem prefixReader_stringMap : PrefixReader tupbuildParseStringMap :=
  prefixReader_after (prefixReader_stringMapLoop []) .mappingStart "expected mapping"

theorem prefixReader_pair (texts : PairTexts) : PrefixReader (tupbuildParsePair texts) :=
  prefixReader_after (prefixReader_pairLoop texts none none) .mappingStart texts.expected

theorem prefixReader_dep : PrefixReader tupbuildParseDep :=
  (prefixReader_pair depTexts).map fun p => TupbuildDep.mk p.1 p.2

theorem prefixReader_dist : PrefixReader tupbuildParseDist :=
  (prefixReader_pair distTexts).map fun p => TupbuildDist.mk p.1 p.2

section

variable {α : Type} {item : List Event → Except Text (α × List Event)}

theorem tupbuildParseItems_cons {fuel : ℕ} {e : Event} {l : List Event} (he : e ≠ .sequenceEnd) :
    tupbuildParseItems item (fuel + 1) (e :: l) =
      (item (e :: l)).bind fun p =>
        (tupbuildParseItems item fuel p.2).bind fun q => .ok (p.1 :: q.1, q.2) := by
  cases e with
  | sequenceEnd => exact absurd rfl he
  | _ => rfl

theorem fuelReader_items (hitem : PrefixReader item) : FuelReader (tupbuildParseItems item) := by
  intro fuel
  induction fuel with
  | zero =>
    intro l as rest h
    cases h
  | succ fuel ih =>
    intro l as rest h
    cases l with
    | nil => cases h
    | cons e l' =>
      by_cases he : e = .sequenceEnd
      · subst he
        cases h
        refine ⟨[.sequenceEnd], List.cons_ne_nil _ _, rfl, fun fuel' s hlt => ?_⟩
        obtain ⟨n, rfl⟩ : ∃ n, fuel' = n + 1 := Nat.exists_eq_add_one.2 (Nat.zero_lt_of_lt hlt)
        rfl
      rw [tupbuildParseItems_cons he] at h
      obtain ⟨⟨a, l₁⟩, ha, h⟩ := ok_of_bind h
      obtain ⟨⟨as', l₂⟩, has, h⟩ := ok_of_bind h
      cases h
      obtain ⟨first, hfirst, htakes⟩ := hitem _ _ _ ha
      obtain ⟨pre, hpre, rfl, hread⟩ := ih _ _ _ has
      obtain ⟨e', first', rfl⟩ := List.exists_cons_of_ne_nil htakes.ne_nil
      rw [List.cons_append, List.cons.injEq] at hfirst
      obtain ⟨rfl, rfl⟩ := hfirst
      refine ⟨e :: first' ++ pre, List.cons_ne_nil _ _, by simp, fun fuel' s hlt => ?_⟩
      obtain ⟨n, rfl⟩ : ∃ n, fuel' = n + 1 := Nat.exists_eq_add_one.2 (Nat.zero_lt_of_lt hlt)
      have hn : pre.length < n := by
        rw [List.length_append, List.length_cons] at hlt
        omega
      have htake : item (e :: (first' ++ (pre ++ s))) = .ok (a, pre ++ s) := htakes.read (pre ++ s)
      rw [List.append_assoc, List.cons_append, tupbuildParseItems_cons he, htake]
      change (tupbuildParseItems item n (pre ++ s)).bind _ = _
      rw [hread n s hn]
      rfl

theorem prefixReader_seq (hitem : PrefixReader item) (expected : String) :
    PrefixReader (tupbuildParseSeq item expected) := by
  apply (fuelReader_items hitem).after (x := .sequenceStart)
  · intro l
    rw [tupbuildParseSeq, tupbuildExpect_self]
    rfl
  · intro l a rest h
    obtain ⟨l', hl', -⟩ := ok_of_bind h
    exact ⟨l', tupbuildExpect_eq_ok hl'⟩

/-- The fuel of the loop is only a bound. -/
theorem tupbuildParseItems_fuel (hitem : PrefixReader item) {n m : ℕ} {l : List Event}
    (hn : l.length < n) (hm : l.length < m) :
    tupbuildParseItems item n l = tupbuildParseItems item m l := by
  induction n generalizing l m with
  | zero => omega
  | succ n ih =>
    obtain ⟨m, rfl⟩ : ∃ k, m = k + 1 := Nat.exists_eq_add_one.2 (Nat.zero_lt_of_lt hm)
    cases l with
    | nil => rfl
    | cons e l' =>
      by_cases he : e = .sequenceEnd
      · subst he
        rfl
      rw [tupbuildParseItems_cons he, tupbuildParseItems_cons he]
      cases ha : item (e :: l') with
      | error err => rfl
      | ok p =>
        obtain ⟨a, l₁⟩ := p
        have hlt : l₁.length < (e :: l').length := hitem.length_lt ha
        have heq := @ih m l₁ (by omega) (by omega)
        change (tupbuildParseItems item n l₁).bind _ = (tupbuildParseItems item m l₁).bind _
        rw [heq]

end

/-! ### Skipping a value -/

/-- The three functions of the skipper. -/
def skipPart : Part → ℕ → List Event → Except Text (List Event)
  | .node => tupbuildSkip
  | .items => tupbuildSkipItems
  | .entries => tupbuildSkipEntries

theorem tupbuildSkipItems_cons {fuel : ℕ} {e : Event} {l : List Event} (he : e ≠ .sequenceEnd) :
    tupbuildSkipItems (fuel + 1) (e :: l) =
      (tupbuildSkip fuel (e :: l)).bind (tupbuildSkipItems fuel) := by
  cases e with
  | sequenceEnd => exact absurd rfl he
  | _ => rfl

theorem tupbuildSkipEntries_cons {fuel : ℕ} {e : Event} {l : List Event} (he : e ≠ .mappingEnd) :
    tupbuildSkipEntries (fuel + 1) (e :: l) =
      (tupbuildSkip fuel (e :: l)).bind fun l =>
        (tupbuildSkip fuel l).bind (tupbuildSkipEntries fuel) := by
  cases e with
  | mappingEnd => exact absurd rfl he
  | _ => rfl

/-- What is well formed is skipped. The fuel is an event for each call. -/
theorem skipPart_wellformed {part : Part} {events : List Event} (h : Wellformed part events)
    {fuel : ℕ} (hfuel : (events ++ part.stop).length ≤ fuel) (post : List Event) :
    skipPart part fuel (events ++ (part.stop ++ post)) = .ok post := by
  induction h generalizing fuel post with
  | scalar =>
    obtain ⟨n, rfl⟩ : ∃ n, fuel = n + 1 := Nat.exists_eq_add_one.2 hfuel
    rfl
  | reference =>
    obtain ⟨n, rfl⟩ : ∃ n, fuel = n + 1 := Nat.exists_eq_add_one.2 hfuel
    rfl
  | @sequence events _ ih =>
    simp only [Part.stop, List.append_nil, List.length_cons, List.length_append] at hfuel
    obtain ⟨n, rfl⟩ : ∃ n, fuel = n + 1 := Nat.exists_eq_add_one.2 (by omega)
    have hn : (events ++ Part.items.stop).length ≤ n := by
      simp only [Part.stop, List.length_cons, List.length_append]
      omega
    have := ih hn post
    simpa [Part.stop, skipPart, tupbuildSkip] using this
  | @mapping events _ ih =>
    simp only [Part.stop, List.append_nil, List.length_cons, List.length_append] at hfuel
    obtain ⟨n, rfl⟩ : ∃ n, fuel = n + 1 := Nat.exists_eq_add_one.2 (by omega)
    have hn : (events ++ Part.entries.stop).length ≤ n := by
      simp only [Part.stop, List.length_cons, List.length_append]
      omega
    have := ih hn post
    simpa [Part.stop, skipPart, tupbuildSkip] using this
  | noItems =>
    obtain ⟨n, rfl⟩ : ∃ n, fuel = n + 1 := Nat.exists_eq_add_one.2 hfuel
    rfl
  | @item first events hfirst _ ihfirst ih =>
    obtain ⟨e, first', rfl, he, -⟩ := hfirst.head
    simp only [Part.stop, List.cons_append, List.length_cons, List.length_append] at hfuel
    obtain ⟨n, rfl⟩ : ∃ n, fuel = n + 1 := Nat.exists_eq_add_one.2 (by omega)
    have hnode := @ihfirst n (by simp [Part.stop]; omega) (events ++ (Part.items.stop ++ post))
    have hitems := @ih n (by simp [Part.stop]; omega) post
    change tupbuildSkipItems (n + 1) (e :: (first' ++ events ++ (Part.items.stop ++ post))) = _
    rw [tupbuildSkipItems_cons he, List.append_assoc]
    change tupbuildSkip n (e :: (first' ++ (events ++ (Part.items.stop ++ post)))) = _ at hnode
    rw [hnode]
    exact hitems
  | noEntries =>
    obtain ⟨n, rfl⟩ : ∃ n, fuel = n + 1 := Nat.exists_eq_add_one.2 hfuel
    rfl
  | @entry key value events hkey hvalue _ ihkey ihvalue ih =>
    obtain ⟨e, key', rfl, -, he⟩ := hkey.head
    obtain ⟨e₂, value', rfl, -, -⟩ := hvalue.head
    simp only [Part.stop, List.cons_append, List.length_cons, List.length_append] at hfuel
    obtain ⟨n, rfl⟩ : ∃ n, fuel = n + 1 := Nat.exists_eq_add_one.2 (by omega)
    have hk : tupbuildSkip n
        (e :: (key' ++ (e₂ :: (value' ++ (events ++ (Part.entries.stop ++ post)))))) = .ok _ :=
      @ihkey n (by simp [Part.stop]; omega) _
    have hv : tupbuildSkip n (e₂ :: (value' ++ (events ++ (Part.entries.stop ++ post)))) = .ok _ :=
      @ihvalue n (by simp [Part.stop]; omega) _
    have hentries := @ih n (by simp [Part.stop]; omega) post
    have hsplit : e :: key' ++ (e₂ :: value' ++ events) ++ (Part.entries.stop ++ post) =
        e :: (key' ++ (e₂ :: (value' ++ (events ++ (Part.entries.stop ++ post))))) := by simp
    rw [hsplit]
    change tupbuildSkipEntries (n + 1) _ = _
    rw [tupbuildSkipEntries_cons he, hk]
    change (tupbuildSkip n (e₂ :: (value' ++ _))).bind _ = _
    rw [hv]
    exact hentries

/-- What is skipped is well formed. -/
theorem wellformed_of_skipPart {part : Part} {fuel : ℕ} {l rest : List Event}
    (h : skipPart part fuel l = .ok rest) :
    ∃ events, Wellformed part events ∧ l = events ++ (part.stop ++ rest) := by
  induction fuel generalizing part l rest with
  | zero => cases part <;> cases h
  | succ fuel ih =>
    cases part with
    | node =>
      match l, h with
      | .scalar value :: _, h =>
        cases h
        exact ⟨_, .scalar, rfl⟩
      | .alias anchor :: _, h =>
        cases h
        exact ⟨_, .reference, rfl⟩
      | .sequenceStart :: l', h =>
        obtain ⟨events, hwf, rfl⟩ := @ih .items l' rest h
        exact ⟨_, .sequence hwf, by simp [Part.stop]⟩
      | .mappingStart :: l', h =>
        obtain ⟨events, hwf, rfl⟩ := @ih .entries l' rest h
        exact ⟨_, .mapping hwf, by simp [Part.stop]⟩
    | items =>
      cases l with
      | nil =>
        obtain ⟨l₁, hfirst, -⟩ := ok_of_bind h
        cases fuel <;> cases hfirst
      | cons e l' =>
        by_cases he : e = .sequenceEnd
        · subst he
          cases h
          exact ⟨[], .noItems, rfl⟩
        change tupbuildSkipItems (fuel + 1) (e :: l') = _ at h
        rw [tupbuildSkipItems_cons he] at h
        obtain ⟨l₁, hskip, hitems⟩ := ok_of_bind h
        obtain ⟨first, hfirst, heq⟩ := @ih .node _ _ hskip
        obtain ⟨events, hwf, rfl⟩ := @ih .items _ _ hitems
        refine ⟨first ++ events, .item hfirst hwf, ?_⟩
        rw [heq, List.append_assoc]
        rfl
    | entries =>
      cases l with
      | nil =>
        obtain ⟨l₁, hkey, -⟩ := ok_of_bind h
        cases fuel <;> cases hkey
      | cons e l' =>
        by_cases he : e = .mappingEnd
        · subst he
          cases h
          exact ⟨[], .noEntries, rfl⟩
        change tupbuildSkipEntries (fuel + 1) (e :: l') = _ at h
        rw [tupbuildSkipEntries_cons he] at h
        obtain ⟨l₁, hskip, h⟩ := ok_of_bind h
        obtain ⟨l₂, hskip', hentries⟩ := ok_of_bind h
        obtain ⟨key, hkey, heq⟩ := @ih .node _ _ hskip
        obtain ⟨value, hvalue, rfl⟩ := @ih .node _ _ hskip'
        obtain ⟨events, hwf, rfl⟩ := @ih .entries _ _ hentries
        refine ⟨key ++ (value ++ events), .entry hkey hvalue hwf, ?_⟩
        rw [heq, List.append_assoc, List.append_assoc]
        rfl

theorem tupbuildSkip_wellformed {value : List Event} (h : Wellformed .node value)
    (post : List Event) :
    tupbuildSkip ((value ++ post).length + 1) (value ++ post) = .ok post := by
  have hfuel : (value ++ Part.node.stop).length ≤ (value ++ post).length + 1 := by
    rw [Part.stop, List.append_nil, List.length_append]
    omega
  exact skipPart_wellformed h hfuel post

theorem prefixReader_skip {α : Type} (a : α) :
    PrefixReader fun l => (tupbuildSkip (l.length + 1) l).map fun rest => (a, rest) := by
  intro l b rest h
  obtain ⟨rest', hskip, heq⟩ := ok_of_map h
  cases heq
  have hpart : skipPart .node (l.length + 1) l = .ok rest := hskip
  obtain ⟨value, hvalue, rfl⟩ := wellformed_of_skipPart hpart
  obtain ⟨e, value', rfl, -, -⟩ := hvalue.head
  refine ⟨e :: value', rfl, List.cons_ne_nil _ _, fun s => ?_⟩
  rw [tupbuildSkip_wellformed hvalue]
  rfl

/-! ### Values -/

section

variable {α : Type} {f g : List Event → Except Text (α × List Event)}

theorem prefixReader_error (msg : Text) :
    PrefixReader fun _ => (.error msg : Except Text (α × List Event)) := by
  intro l a rest h
  cases h

theorem prefixReader_ite {p : Prop} [Decidable p] (hf : p → PrefixReader f)
    (hg : ¬p → PrefixReader g) : PrefixReader fun l => if p then f l else g l := by
  by_cases hp : p
  · simpa only [if_pos hp] using hf hp
  · simpa only [if_neg hp] using hg hp

end

theorem prefixReader_bool (msg : String) : PrefixReader (tupbuildParseBool msg) := by
  intro l a rest h
  match l, h with
  | .scalar value :: rest', h =>
    rw [tupbuildParseBool] at h
    by_cases htrue : value = "true".toList
    · rw [if_pos htrue] at h
      cases h
      exact ⟨[.scalar value], rfl, List.cons_ne_nil _ _, fun s => if_pos htrue⟩
    rw [if_neg htrue] at h
    by_cases hfalse : value = "false".toList
    · rw [if_pos hfalse] at h
      cases h
      refine ⟨[.scalar value], rfl, List.cons_ne_nil _ _, fun s => ?_⟩
      exact (if_neg htrue).trans (if_pos hfalse)
    · rw [if_neg hfalse] at h
      cases h

theorem prefixReader_buildValue (b : PartialBuild) (key : Text) :
    PrefixReader (tupbuildParseBuildValue b key) := by
  unfold tupbuildParseBuildValue
  apply prefixReader_ite
  · intro _
    apply prefixReader_ite
    · exact fun _ => prefixReader_error _
    · exact fun _ => prefixReader_stringMap.map fun args => { b with args }
  intro _
  apply prefixReader_ite
  · intro _
    apply prefixReader_ite
    · exact fun _ => prefixReader_error _
    · exact fun _ => (prefixReader_seq prefixReader_dep _).map fun depends => { b with depends }
  intro _
  apply prefixReader_ite
  · intro _
    apply prefixReader_ite
    · exact fun _ => prefixReader_error _
    · exact fun _ => (prefixReader_seq prefixReader_dist _).map fun dists => { b with dists }
  intro _
  apply prefixReader_ite
  · intro _ l b' rest h
    match l, h with
    | .scalar value :: rest', h =>
      obtain ⟨b'', hset, heq⟩ := ok_of_map h
      cases heq
      refine ⟨[.scalar value], rfl, List.cons_ne_nil _ _, fun s => ?_⟩
      change (tupbuildSetScalar b key value).map _ = _
      rw [hset]
      rfl
  · exact fun _ => prefixReader_skip b

/-! ### The loops over the keys -/

section

variable {σ τ : Type} (value : σ → Text → List Event → Except Text (σ × List Event))
  (finish : σ → Except Text τ)

/-- The loop over the keys of a mapping, with what reads the value of a key. -/
def keyLoop : ℕ → σ → List Event → Except Text (τ × List Event)
  | 0, _, _ => .error yamlError
  | _ + 1, _, [] => .error yamlError
  | _ + 1, st, .mappingEnd :: rest => (finish st).map fun t => (t, rest)
  | _ + 1, _, [.scalar _] => .error yamlError
  | fuel + 1, st, .scalar key :: rest => do
    let (st, rest) ← value st key rest
    keyLoop fuel st rest
  | _ + 1, _, _ => .error expectedScalar

variable {value finish}

theorem keyLoop_key {fuel : ℕ} {st : σ} {key : Text} {rest : List Event} (hne : rest ≠ []) :
    keyLoop value finish (fuel + 1) st (.scalar key :: rest) =
      (value st key rest).bind fun p => keyLoop value finish fuel p.1 p.2 := by
  cases rest with
  | nil => exact absurd rfl hne
  | cons e rest => rfl

theorem except_bind_congr {ε α β : Type} {x : Except ε α} {f g : α → Except ε β}
    (h : ∀ a, x = .ok a → f a = g a) : x.bind f = x.bind g := by
  cases x with
  | error e => rfl
  | ok a => exact h a rfl

/-- The fuel of the loop is only a bound. -/
theorem keyLoop_fuel (hvalue : ∀ st key, PrefixReader (value st key)) {n m : ℕ} {st : σ}
    {l : List Event} (hn : l.length < n) (hm : l.length < m) :
    keyLoop value finish n st l = keyLoop value finish m st l := by
  induction n generalizing l m st with
  | zero => omega
  | succ n ih =>
    obtain ⟨m, rfl⟩ : ∃ k, m = k + 1 := Nat.exists_eq_add_one.2 (Nat.zero_lt_of_lt hm)
    match l with
    | .scalar key :: e :: rest =>
      rw [keyLoop_key (List.cons_ne_nil e rest), keyLoop_key (List.cons_ne_nil e rest)]
      apply except_bind_congr
      rintro ⟨st', l'⟩ hl'
      have hlt : l'.length < (e :: rest).length := (hvalue st key).length_lt hl'
      rw [List.length_cons] at hn hm
      have hn' : l'.length < n := by omega
      have hm' : l'.length < m := by omega
      exact ih hn' hm'
    | [.scalar _] => rfl
    | [] => rfl
    | .mappingEnd :: _ => rfl
    | .streamStart :: _ => rfl
    | .streamEnd :: _ => rfl
    | .documentStart :: _ => rfl
    | .documentEnd :: _ => rfl
    | .alias _ :: _ => rfl
    | .sequenceStart :: _ => rfl
    | .sequenceEnd :: _ => rfl
    | .mappingStart :: _ => rfl

/-- One key, with the fuel that the loop has from its start. -/
theorem keyLoop_step (hvalue : ∀ st key, PrefixReader (value st key)) {st st' : σ} {key : Text}
    {rest rest' : List Event} (h : value st key rest = .ok (st', rest')) :
    keyLoop value finish ((.scalar key :: rest : List Event).length + 1) st (.scalar key :: rest) =
      keyLoop value finish (rest'.length + 1) st' rest' := by
  have hlt : rest'.length < rest.length := (hvalue st key).length_lt h
  have hne : rest ≠ [] := ne_nil_of_length_pos (Nat.zero_lt_of_lt hlt)
  rw [keyLoop_key hne, h]
  have hn : rest'.length < (.scalar key :: rest : List Event).length := by
    rw [List.length_cons]
    omega
  exact keyLoop_fuel hvalue hn (Nat.lt_succ_self _)

theorem fuelReader_keyLoop (hvalue : ∀ st key, PrefixReader (value st key)) (st : σ) :
    FuelReader fun fuel => keyLoop value finish fuel st := by
  intro fuel
  induction fuel generalizing st with
  | zero =>
    intro l t rest h
    cases h
  | succ fuel ih =>
    intro l t rest h
    match l, h with
    | .mappingEnd :: rest', h =>
      obtain ⟨t', ht, heq⟩ := ok_of_map h
      cases heq
      refine ⟨[.mappingEnd], List.cons_ne_nil _ _, rfl, fun fuel' s hlt => ?_⟩
      obtain ⟨n, rfl⟩ : ∃ n, fuel' = n + 1 := Nat.exists_eq_add_one.2 (Nat.zero_lt_of_lt hlt)
      change (finish st).map _ = _
      rw [ht]
      rfl
    | .scalar key :: e :: rest', h =>
      beta_reduce at h
      rw [keyLoop_key (List.cons_ne_nil e rest')] at h
      obtain ⟨⟨st', l'⟩, hst, hloop⟩ := ok_of_bind h
      obtain ⟨first, hfirst, htakes⟩ := hvalue st key _ _ _ hst
      obtain ⟨pre, hpre, rfl, hread⟩ := ih st' l' t rest hloop
      refine ⟨.scalar key :: (first ++ pre), List.cons_ne_nil _ _, ?_, fun fuel' s hlt => ?_⟩
      · rw [hfirst, List.cons_append, List.append_assoc]
      rw [List.length_cons, List.length_append] at hlt
      obtain ⟨n, rfl⟩ : ∃ n, fuel' = n + 1 := Nat.exists_eq_add_one.2 (Nat.zero_lt_of_lt hlt)
      have hne : first ++ (pre ++ s) ≠ [] :=
        List.append_ne_nil_of_left_ne_nil htakes.ne_nil _
      beta_reduce
      rw [List.cons_append, List.append_assoc, keyLoop_key hne, htakes.read]
      exact hread n s (by omega)

end

theorem tupbuildParseBuildLoop_eq :
    tupbuildParseBuildLoop = keyLoop tupbuildParseBuildValue tupbuildFinishBuild := by
  funext n
  induction n with
  | zero => rfl
  | succ n ih =>
    funext b l
    match l with
    | .scalar key :: e :: rest =>
      rw [keyLoop_key (List.cons_ne_nil e rest), ← ih]
      rfl
    | [.scalar _] => rfl
    | [] => rfl
    | .mappingEnd :: _ => rfl
    | .streamStart :: _ => rfl
    | .streamEnd :: _ => rfl
    | .documentStart :: _ => rfl
    | .documentEnd :: _ => rfl
    | .alias _ :: _ => rfl
    | .sequenceStart :: _ => rfl
    | .sequenceEnd :: _ => rfl
    | .mappingStart :: _ => rfl

/-- The end of the loop of `tupbuild_parse`. -/
def tupbuildFinishFile (tf : TupbuildFile) : Except Text TupbuildFile :=
  if tf.builds = [] then .error "TupBuild.yaml requires at least one build".toList else .ok tf

theorem tupbuildParseLoop_eq :
    tupbuildParseLoop = keyLoop tupbuildParseFileValue tupbuildFinishFile := by
  funext n
  induction n with
  | zero => rfl
  | succ n ih =>
    funext tf l
    match l with
    | .scalar key :: e :: rest =>
      rw [keyLoop_key (List.cons_ne_nil e rest), ← ih]
      rfl
    | .mappingEnd :: rest =>
      rw [tupbuildParseLoop, keyLoop, tupbuildFinishFile]
      split
      · rfl
      · rfl
    | [.scalar _] => rfl
    | [] => rfl
    | .streamStart :: _ => rfl
    | .streamEnd :: _ => rfl
    | .documentStart :: _ => rfl
    | .documentEnd :: _ => rfl
    | .alias _ :: _ => rfl
    | .sequenceStart :: _ => rfl
    | .sequenceEnd :: _ => rfl
    | .mappingStart :: _ => rfl

theorem prefixReader_build : PrefixReader tupbuildParseBuild := by
  have hloop : FuelReader fun n => tupbuildParseBuildLoop n {} := by
    rw [tupbuildParseBuildLoop_eq]
    exact fuelReader_keyLoop prefixReader_buildValue {}
  apply hloop.after (x := .mappingStart)
  · intro l
    rw [tupbuildParseBuild, tupbuildExpect_self]
    rfl
  · intro l a rest h
    obtain ⟨l', hl', -⟩ := ok_of_bind h
    exact ⟨l', tupbuildExpect_eq_ok hl'⟩

theorem prefixReader_fileValue (tf : TupbuildFile) (key : Text) :
    PrefixReader (tupbuildParseFileValue tf key) := by
  unfold tupbuildParseFileValue
  apply prefixReader_ite
  · exact fun _ => (prefixReader_bool _).map fun strict => { tf with strict }
  intro _
  apply prefixReader_ite
  · exact fun _ => (prefixReader_bool _).map fun autoCompiledb => { tf with autoCompiledb }
  intro _
  apply prefixReader_ite
  · intro _
    apply prefixReader_ite
    · exact fun _ => prefixReader_error _
    · exact fun _ => prefixReader_stringMap.map fun globalArgs => { tf with globalArgs }
  intro _
  apply prefixReader_ite
  · intro _
    apply prefixReader_ite
    · exact fun _ => prefixReader_error _
    · exact fun _ => (prefixReader_seq prefixReader_build _).map fun builds => { tf with builds }
  · exact fun _ => prefixReader_skip tf

/-! ### The rest of the parse -/

/-- What is done after the loop of `tupbuild_parse`. -/
def tupbuildEnd (p : TupbuildFile × List Event) : Except Text TupbuildFile := do
  let l ← tupbuildExpect .documentEnd "expected document end" p.2
  let _ ← tupbuildExpect .streamEnd "expected stream end" l
  .ok p.1

/-- What is done from the loop of `tupbuild_parse` on. -/
def resumeFile (tf : TupbuildFile) (l : List Event) : Except Text TupbuildFile :=
  (tupbuildParseLoop (l.length + 1) tf l).bind tupbuildEnd

/-- What is done from the loop of `tupbuild_parse_builds` on. -/
def resumeBuilds (tf : TupbuildFile) (done : List TupbuildBuild) (l : List Event) :
    Except Text TupbuildFile :=
  (tupbuildParseItems tupbuildParseBuild (l.length + 1) l).bind fun p =>
    resumeFile { tf with builds := done ++ p.1 } p.2

/-- What is done from the loop of `tupbuild_parse_build` on. -/
def resumeBuild (tf : TupbuildFile) (done : List TupbuildBuild) (b : PartialBuild)
    (l : List Event) : Except Text TupbuildFile :=
  (tupbuildParseBuildLoop (l.length + 1) b l).bind fun p => resumeBuilds tf (done ++ [p.1]) p.2

/-- What is done from the loop of `tupbuild_parse_dep_seq` on. -/
def resumeDepends (tf : TupbuildFile) (done : List TupbuildBuild) (b : PartialBuild)
    (deps : List TupbuildDep) (l : List Event) : Except Text TupbuildFile :=
  (tupbuildParseItems tupbuildParseDep (l.length + 1) l).bind fun p =>
    resumeBuild tf done { b with depends := deps ++ p.1 } p.2

/-- What is done from the loop of `tupbuild_parse_dist_seq` on. -/
def resumeDists (tf : TupbuildFile) (done : List TupbuildBuild) (b : PartialBuild)
    (ds : List TupbuildDist) (l : List Event) : Except Text TupbuildFile :=
  (tupbuildParseItems tupbuildParseDist (l.length + 1) l).bind fun p =>
    resumeBuild tf done { b with dists := ds ++ p.1 } p.2

/-- What is done from this loop on. -/
def ReadLoop.resume : ReadLoop → List Event → Except Text TupbuildFile
  | .file tf, l => resumeFile tf l
  | .builds tf done, l => resumeBuilds tf done l
  | .build tf done b, l => resumeBuild tf done b l
  | .depends tf done b deps, l => resumeDepends tf done b deps l
  | .dep tf done b deps x y, l =>
    (tupbuildParsePairLoop depTexts x y l).bind fun p =>
      resumeDepends tf done b (deps ++ [{ build := p.1.1, as := p.1.2 }]) p.2
  | .dists tf done b ds, l => resumeDists tf done b ds l
  | .dist tf done b ds x y, l =>
    (tupbuildParsePairLoop distTexts x y l).bind fun p =>
      resumeDists tf done b (ds ++ [{ fromReturn := p.1.1, path := p.1.2 }]) p.2

theorem except_bind_assoc {ε α β γ : Type} (x : Except ε α) (f : α → Except ε β)
    (g : β → Except ε γ) : (x.bind f).bind g = x.bind fun a => (f a).bind g := by
  cases x <;> rfl

theorem except_bind_map {ε α β γ : Type} (x : Except ε α) (f : α → β) (g : β → Except ε γ) :
    (x.map f).bind g = x.bind fun a => g (f a) := by
  cases x <;> rfl

/-- The first item, with the fuel that the loop has from its start. -/
theorem tupbuildParseItems_start {α : Type} {item : List Event → Except Text (α × List Event)}
    (hitem : PrefixReader item) (l : List Event) :
    tupbuildParseItems item ((.mappingStart :: l : List Event).length + 1) (.mappingStart :: l) =
      (item (.mappingStart :: l)).bind fun p =>
        (tupbuildParseItems item (p.2.length + 1) p.2).bind fun q => .ok (p.1 :: q.1, q.2) := by
  rw [tupbuildParseItems_cons Event.noConfusion]
  apply except_bind_congr
  intro p hp
  have hlt : p.2.length < (.mappingStart :: l : List Event).length := hitem.length_lt hp
  rw [tupbuildParseItems_fuel hitem hlt (Nat.lt_succ_self _)]

theorem tupbuildParseItems_step {α : Type} {item : List Event → Except Text (α × List Event)}
    (hitem : PrefixReader item) {a : α} {l rest : List Event} (hstart : ∃ l', l = .mappingStart :: l')
    (h : item l = .ok (a, rest)) :
    tupbuildParseItems item (l.length + 1) l =
      (tupbuildParseItems item (rest.length + 1) rest).bind fun q => .ok (a :: q.1, q.2) := by
  obtain ⟨l', rfl⟩ := hstart
  rw [tupbuildParseItems_start hitem, h]
  rfl

theorem mappingStart_of_build {l rest : List Event} {x : TupbuildBuild}
    (h : tupbuildParseBuild l = .ok (x, rest)) : ∃ l', l = .mappingStart :: l' := by
  obtain ⟨l', hl', -⟩ := ok_of_bind h
  exact ⟨l', tupbuildExpect_eq_ok hl'⟩

theorem mappingStart_of_dep {l rest : List Event} {x : TupbuildDep}
    (h : tupbuildParseDep l = .ok (x, rest)) : ∃ l', l = .mappingStart :: l' := by
  obtain ⟨p, hp, -⟩ := ok_of_map h
  obtain ⟨l', hl', -⟩ := ok_of_bind hp
  exact ⟨l', tupbuildExpect_eq_ok hl'⟩

theorem mappingStart_of_dist {l rest : List Event} {x : TupbuildDist}
    (h : tupbuildParseDist l = .ok (x, rest)) : ∃ l', l = .mappingStart :: l' := by
  obtain ⟨p, hp, -⟩ := ok_of_map h
  obtain ⟨l', hl', -⟩ := ok_of_bind hp
  exact ⟨l', tupbuildExpect_eq_ok hl'⟩

/-- A key whose value is a sequence: the rest of the loop comes after the items. -/
theorem keyLoop_seq {σ τ α : Type} {value : σ → Text → List Event → Except Text (σ × List Event)}
    {finish : σ → Except Text τ} (hvalue : ∀ st key, PrefixReader (value st key))
    {item : List Event → Except Text (α × List Event)} {expected : String} (set : List α → σ)
    {st : σ} {key : Text} {rest : List Event}
    (hset : value st key (.sequenceStart :: rest) =
      (tupbuildParseSeq item expected (.sequenceStart :: rest)).map fun p => (set p.1, p.2)) :
    keyLoop value finish ((.scalar key :: .sequenceStart :: rest : List Event).length + 1) st
        (.scalar key :: .sequenceStart :: rest) =
      (tupbuildParseItems item (rest.length + 1) rest).bind fun p =>
        keyLoop value finish (p.2.length + 1) (set p.1) p.2 := by
  have hseq : tupbuildParseSeq item expected (.sequenceStart :: rest) =
      tupbuildParseItems item (rest.length + 1) rest := by
    rw [tupbuildParseSeq, tupbuildExpect_self]
    rfl
  rw [keyLoop_key (List.cons_ne_nil _ _), hset, except_bind_map, hseq]
  apply except_bind_congr
  rintro ⟨as, l⟩ hl
  have hlt : l.length < (.sequenceStart :: rest : List Event).length := by
    apply (hvalue st key).length_lt
    rw [hset, hseq, hl]
    rfl
  apply keyLoop_fuel hvalue
  · rw [List.length_cons]
    exact Nat.lt_succ_of_lt hlt
  · exact Nat.lt_succ_self _

/-- The parse of a stream is what is done from each loop that it gets to. -/
theorem tupbuildParse_eq_resume {events l : List Event} {loop : ReadLoop}
    (h : Reaches events loop l) : tupbuildParse events = loop.resume l := by
  induction h with
  | start h =>
    rw [h, tupbuildParse, tupbuildExpect_self]
    rfl
  | @fileKey tf tf' key rest rest' _ hvalue ih =>
    rw [ih, ReadLoop.resume, ReadLoop.resume, resumeFile, resumeFile, tupbuildParseLoop_eq,
      keyLoop_step prefixReader_fileValue hvalue]
  | @builds tf rest _ hnone ih =>
    have hset : tupbuildParseFileValue tf "builds".toList (.sequenceStart :: rest) =
        (tupbuildParseBuilds (.sequenceStart :: rest)).map fun p =>
          ({ tf with builds := p.1 }, p.2) := by
      rw [tupbuildParseFileValue, if_neg (by decide), if_neg (by decide), if_neg (by decide),
        if_pos rfl, if_neg (not_not.2 hnone)]
    rw [ih, ReadLoop.resume, ReadLoop.resume, resumeFile, resumeBuilds, tupbuildParseLoop_eq,
      keyLoop_seq prefixReader_fileValue _ hset, except_bind_assoc]
    apply except_bind_congr
    intro p _
    rw [resumeFile, tupbuildParseLoop_eq]
    rfl
  | @buildsItem tf done x rest rest' _ hitem ih =>
    rw [ih, ReadLoop.resume, ReadLoop.resume, resumeBuilds, resumeBuilds,
      tupbuildParseItems_step prefixReader_build (mappingStart_of_build hitem) hitem,
      except_bind_assoc]
    apply except_bind_congr
    intro p _
    rw [List.append_assoc]
    rfl
  | @build tf done rest _ ih =>
    have hitem : tupbuildParseBuild (.mappingStart :: rest) =
        tupbuildParseBuildLoop (rest.length + 1) {} rest := by
      rw [tupbuildParseBuild, tupbuildExpect_self]
      rfl
    rw [ih, ReadLoop.resume, ReadLoop.resume, resumeBuilds, resumeBuild,
      tupbuildParseItems_start prefixReader_build, except_bind_assoc, hitem]
    apply except_bind_congr
    intro p _
    rw [resumeBuilds, except_bind_assoc]
    apply except_bind_congr
    intro q _
    rw [List.append_assoc]
    rfl
  | @buildKey tf done b b' key rest rest' _ hvalue ih =>
    rw [ih, ReadLoop.resume, ReadLoop.resume, resumeBuild, resumeBuild, tupbuildParseBuildLoop_eq,
      keyLoop_step prefixReader_buildValue hvalue]
  | @depends tf done b rest _ hnone ih =>
    have hset : tupbuildParseBuildValue b "depends".toList (.sequenceStart :: rest) =
        (tupbuildParseDepSeq (.sequenceStart :: rest)).map fun p =>
          ({ b with depends := p.1 }, p.2) := by
      unfold tupbuildParseBuildValue
      rw [if_neg (by decide), if_pos rfl, if_neg (not_not.2 hnone)]
    rw [ih, ReadLoop.resume, ReadLoop.resume, resumeBuild, resumeDepends, tupbuildParseBuildLoop_eq,
      keyLoop_seq prefixReader_buildValue (fun deps => { b with depends := deps }) hset, except_bind_assoc]
    apply except_bind_congr
    intro p _
    rw [resumeBuild, tupbuildParseBuildLoop_eq]
    rfl
  | @dependsItem tf done b deps d rest rest' _ hitem ih =>
    rw [ih, ReadLoop.resume, ReadLoop.resume, resumeDepends, resumeDepends,
      tupbuildParseItems_step prefixReader_dep (mappingStart_of_dep hitem) hitem,
      except_bind_assoc]
    apply except_bind_congr
    intro p _
    rw [List.append_assoc]
    rfl
  | @dep tf done b deps rest _ ih =>
    have hitem : tupbuildParseDep (.mappingStart :: rest) =
        (tupbuildParsePairLoop depTexts none none rest).map fun p =>
          (TupbuildDep.mk p.1.1 p.1.2, p.2) := by
      rw [tupbuildParseDep, tupbuildParsePair, tupbuildExpect_self]
      rfl
    rw [ih, ReadLoop.resume, ReadLoop.resume, resumeDepends,
      tupbuildParseItems_start prefixReader_dep, except_bind_assoc, hitem, except_bind_map]
    apply except_bind_congr
    intro p _
    rw [resumeDepends, except_bind_assoc]
    apply except_bind_congr
    intro q _
    rw [List.append_assoc]
    rfl
  | @depKey tf done b deps x y x' y' key value rest _ hkey ih =>
    rw [ih, ReadLoop.resume, ReadLoop.resume, tupbuildParsePairLoop_key, hkey]
    rfl
  | @dists tf done b rest _ hnone ih =>
    have hset : tupbuildParseBuildValue b "dists".toList (.sequenceStart :: rest) =
        (tupbuildParseDistSeq (.sequenceStart :: rest)).map fun p =>
          ({ b with dists := p.1 }, p.2) := by
      unfold tupbuildParseBuildValue
      rw [if_neg (by decide), if_neg (by decide), if_pos rfl, if_neg (not_not.2 hnone)]
    rw [ih, ReadLoop.resume, ReadLoop.resume, resumeBuild, resumeDists, tupbuildParseBuildLoop_eq,
      keyLoop_seq prefixReader_buildValue (fun ds => { b with dists := ds }) hset, except_bind_assoc]
    apply except_bind_congr
    intro p _
    rw [resumeBuild, tupbuildParseBuildLoop_eq]
    rfl
  | @distsItem tf done b ds d rest rest' _ hitem ih =>
    rw [ih, ReadLoop.resume, ReadLoop.resume, resumeDists, resumeDists,
      tupbuildParseItems_step prefixReader_dist (mappingStart_of_dist hitem) hitem,
      except_bind_assoc]
    apply except_bind_congr
    intro p _
    rw [List.append_assoc]
    rfl
  | @dist tf done b ds rest _ ih =>
    have hitem : tupbuildParseDist (.mappingStart :: rest) =
        (tupbuildParsePairLoop distTexts none none rest).map fun p =>
          (TupbuildDist.mk p.1.1 p.1.2, p.2) := by
      rw [tupbuildParseDist, tupbuildParsePair, tupbuildExpect_self]
      rfl
    rw [ih, ReadLoop.resume, ReadLoop.resume, resumeDists,
      tupbuildParseItems_start prefixReader_dist, except_bind_assoc, hitem, except_bind_map]
    apply except_bind_congr
    intro p _
    rw [resumeDists, except_bind_assoc]
    apply except_bind_congr
    intro q _
    rw [List.append_assoc]
    rfl
  | @distKey tf done b ds x y x' y' key value rest _ hkey ih =>
    rw [ih, ReadLoop.resume, ReadLoop.resume, tupbuildParsePairLoop_key, hkey]
    rfl

/-- The stream is split where the parse has got to a loop, and what comes behind can be replaced. -/
structure Splits (events : List Event) (loop : ReadLoop) (pre l : List Event) : Prop where
  eq : events = pre ++ l
  replace : ∀ s, Reaches (pre ++ s) loop s

theorem Splits.next {events pre l l' : List Event} {loop loop' : ReadLoop} (first : List Event)
    (h : Splits events loop pre l) (hl : l = first ++ l')
    (hstep : ∀ {events' s}, Reaches events' loop (first ++ s) → Reaches events' loop' s) :
    ∃ pre', Splits events loop' pre' l' := by
  refine ⟨pre ++ first, ?_, fun s => ?_⟩
  · rw [h.eq, hl, List.append_assoc]
  · apply hstep
    rw [List.append_assoc]
    exact h.replace (first ++ s)

/-- What comes behind the place that the parse has got to can be replaced. -/
theorem Reaches.split {events l : List Event} {loop : ReadLoop} (h : Reaches events loop l) :
    ∃ pre, Splits events loop pre l := by
  induction h with
  | start h =>
    exact ⟨[.streamStart, .documentStart, .mappingStart], h, fun s => .start rfl⟩
  | @fileKey tf tf' key rest rest' _ hvalue ih =>
    obtain ⟨pre, ih⟩ := ih
    obtain ⟨first, rfl, htakes⟩ := prefixReader_fileValue tf key _ _ _ hvalue
    exact ih.next (.scalar key :: first) rfl fun {_ s} h => h.fileKey (htakes.read s)
  | builds _ hnone ih =>
    obtain ⟨pre, ih⟩ := ih
    exact ih.next [_, _] rfl fun h => h.builds hnone
  | buildsItem _ hitem ih =>
    obtain ⟨pre, ih⟩ := ih
    obtain ⟨first, rfl, htakes⟩ := prefixReader_build _ _ _ hitem
    exact ih.next first rfl fun {_ s} h => h.buildsItem (htakes.read s)
  | build _ ih =>
    obtain ⟨pre, ih⟩ := ih
    exact ih.next [.mappingStart] rfl fun h => h.build
  | @buildKey tf done b b' key rest rest' _ hvalue ih =>
    obtain ⟨pre, ih⟩ := ih
    obtain ⟨first, rfl, htakes⟩ := prefixReader_buildValue b key _ _ _ hvalue
    exact ih.next (.scalar key :: first) rfl fun {_ s} h => h.buildKey (htakes.read s)
  | depends _ hnone ih =>
    obtain ⟨pre, ih⟩ := ih
    exact ih.next [_, _] rfl fun h => h.depends hnone
  | dependsItem _ hitem ih =>
    obtain ⟨pre, ih⟩ := ih
    obtain ⟨first, rfl, htakes⟩ := prefixReader_dep _ _ _ hitem
    exact ih.next first rfl fun {_ s} h => h.dependsItem (htakes.read s)
  | dep _ ih =>
    obtain ⟨pre, ih⟩ := ih
    exact ih.next [.mappingStart] rfl fun h => h.dep
  | depKey _ hkey ih =>
    obtain ⟨pre, ih⟩ := ih
    exact ih.next [_, _] rfl fun h => h.depKey hkey
  | dists _ hnone ih =>
    obtain ⟨pre, ih⟩ := ih
    exact ih.next [_, _] rfl fun h => h.dists hnone
  | distsItem _ hitem ih =>
    obtain ⟨pre, ih⟩ := ih
    obtain ⟨first, rfl, htakes⟩ := prefixReader_dist _ _ _ hitem
    exact ih.next first rfl fun {_ s} h => h.distsItem (htakes.read s)
  | dist _ ih =>
    obtain ⟨pre, ih⟩ := ih
    exact ih.next [.mappingStart] rfl fun h => h.dist
  | distKey _ hkey ih =>
    obtain ⟨pre, ih⟩ := ih
    exact ih.next [_, _] rfl fun h => h.distKey hkey

/-! ### What is ignored -/

/-- The loop of a dependency or of a dist takes an unknown key with one event. -/
theorem tupbuildParsePairLoop_unknown {texts : PairTexts} {a b : Option Text} {key : Text}
    {value : Event} {rest : List Event}
    (hkey : key ∉ [texts.first, texts.second].map String.toList) :
    tupbuildParsePairLoop texts a b (.scalar key :: value :: rest) =
      tupbuildParsePairLoop texts a b rest := by
  simp only [List.map_cons, List.map_nil, List.mem_cons, List.not_mem_nil, or_false, not_or] at hkey
  rw [tupbuildParsePairLoop_key]
  unfold tupbuildPairKey
  rw [if_neg hkey.1, if_neg hkey.2]
  rfl

theorem tupbuildParsePairLoop_pairsUp {texts : PairTexts} {a b : Option Text}
    {keys : List Text} (hkeys : keys = [texts.first, texts.second].map String.toList)
    {value : List Event} (h : PairsUp keys value) (post : List Event) :
    tupbuildParsePairLoop texts a b (value ++ post) = tupbuildParsePairLoop texts a b post := by
  fun_induction PairsUp keys value with
  | case1 => rfl
  | case2 key e rest ih =>
    rw [List.cons_append, List.cons_append, tupbuildParsePairLoop_unknown (hkeys ▸ h.1), ih h.2]
  | case3 => exact h.elim

theorem keyLoop_skip {σ τ : Type} {value : σ → Text → List Event → Except Text (σ × List Event)}
    {finish : σ → Except Text τ} (hvalue : ∀ st key, PrefixReader (value st key)) {st : σ}
    {key : Text} (hskip : ∀ l, value st key l =
      (tupbuildSkip (l.length + 1) l).map fun rest => (st, rest))
    {node : List Event} (hnode : Wellformed .node node) (post : List Event) :
    keyLoop value finish ((.scalar key :: (node ++ post) : List Event).length + 1) st
        (.scalar key :: (node ++ post)) = keyLoop value finish (post.length + 1) st post := by
  apply keyLoop_step hvalue
  rw [hskip, tupbuildSkip_wellformed hnode]
  rfl

/-- An unknown key of this kind makes no difference from its loop on. -/
theorem resume_unknown {loop : ReadLoop} {place : Place} (hplace : loop.place = some place)
    {key : Text} (hkey : key ∉ place.keys) {value : List Event} (hvalue : Wellformed .node value)
    (h : Ignored place value) (post : List Event) :
    loop.resume (.scalar key :: (value ++ post)) = loop.resume post := by
  obtain ⟨e, rest, rfl, -, -⟩ := hvalue.head
  cases loop with
  | file tf =>
    cases hplace
    have hskip : ∀ l, tupbuildParseFileValue tf key l =
        (tupbuildSkip (l.length + 1) l).map fun rest => (tf, rest) := by
      intro l
      simp only [Place.keys, List.map_cons, List.map_nil, List.mem_cons, List.not_mem_nil, or_false,
        not_or] at hkey
      rw [tupbuildParseFileValue, if_neg hkey.1, if_neg hkey.2.1, if_neg hkey.2.2.1,
        if_neg hkey.2.2.2]
    rw [ReadLoop.resume, ReadLoop.resume, resumeFile, resumeFile, tupbuildParseLoop_eq,
      keyLoop_skip prefixReader_fileValue hskip hvalue]
  | build tf done b =>
    cases hplace
    have hskip : ∀ l, tupbuildParseBuildValue b key l =
        (tupbuildSkip (l.length + 1) l).map fun rest => (b, rest) := by
      intro l
      simp only [Place.keys, List.map_cons, List.map_nil, List.mem_append, List.mem_cons,
        List.not_mem_nil, or_false, not_or] at hkey
      unfold tupbuildParseBuildValue
      rw [if_neg hkey.1.1, if_neg hkey.1.2.1, if_neg hkey.1.2.2, if_neg hkey.2]
    rw [ReadLoop.resume, ReadLoop.resume, resumeBuild, resumeBuild, tupbuildParseBuildLoop_eq,
      keyLoop_skip prefixReader_buildValue hskip hvalue]
  | dep tf done b deps x y =>
    cases hplace
    have hup : PairsUp Place.dep.keys rest := h
    rw [ReadLoop.resume, ReadLoop.resume, List.cons_append, tupbuildParsePairLoop_unknown hkey,
      tupbuildParsePairLoop_pairsUp rfl hup]
  | dist tf done b ds x y =>
    cases hplace
    have hup : PairsUp Place.dist.keys rest := h
    rw [ReadLoop.resume, ReadLoop.resume, List.cons_append, tupbuildParsePairLoop_unknown hkey,
      tupbuildParsePairLoop_pairsUp rfl hup]
  | _ => cases hplace

/-! ### What is not ignored -/

/-- The first event of a pair that is no unknown key. -/
theorem exists_of_not_pairsUp {keys : List Text} {l : List Event} (h : ¬PairsUp keys l) :
    ∃ pre e rest, l = pre ++ e :: rest ∧ PairsUp keys pre ∧
      ∀ key, e = .scalar key → rest = [] ∨ key ∈ keys := by
  fun_induction PairsUp keys l with
  | case1 => exact absurd trivial h
  | case2 key e rest ih =>
    by_cases hkey : key ∈ keys
    · refine ⟨[], .scalar key, e :: rest, rfl, trivial, ?_⟩
      rintro _ ⟨⟩
      exact Or.inr hkey
    · obtain ⟨pre, e', rest', rfl, hpre, hstop⟩ := ih fun hrest => h ⟨hkey, hrest⟩
      exact ⟨.scalar key :: e :: pre, e', rest', rfl, ⟨hkey, hpre⟩, hstop⟩
  | case3 l hnil hpair =>
    cases l with
    | nil => exact absurd rfl hnil
    | cons e rest =>
      refine ⟨[], e, rest, rfl, trivial, ?_⟩
      rintro key rfl
      cases rest with
      | nil => exact Or.inl rfl
      | cons e' rest' => exact absurd rfl (hpair key e' rest')

/-- The last event of a node of more than one event is no scalar. -/
theorem Lib.Yaml.Wellformed.last {events pre : List Event} {e : Event} {value : List Char}
    (h : Wellformed .node events) : events ≠ e :: (pre ++ [.scalar value]) := by
  intro heq
  have hlast := congrArg List.getLast? heq
  cases h with
  | scalar =>
    have hlen := congrArg List.length heq
    simp at hlen
  | reference =>
    have hlen := congrArg List.length heq
    simp at hlen
  | sequence => simp [List.getLast?_cons] at hlast
  | mapping => simp [List.getLast?_cons] at hlast

/-- The text of a stream up to the first key of a dependency or of a dist. -/
def sampleHead (place : Place) : List Event :=
  .mappingStart :: .scalar "builds".toList :: .sequenceStart :: .mappingStart ::
    (["name", "a", "builddir", "b", "tupfile", "c", "function", "d",
      if place = .dist then "dists" else "depends"].map fun s => .scalar s.toList) ++
    [.sequenceStart, .mappingStart]

/-- The two entries of a dependency or of a dist. -/
def sampleEntries (place : Place) : List Event :=
  match place.keys with
  | [first, second] =>
    [.scalar first, .scalar "x".toList, .scalar second, .scalar "y".toList]
  | _ => []

/-- What comes after the last entry. -/
def sampleTail : List Event := [.mappingEnd, .sequenceEnd, .mappingEnd, .sequenceEnd, .mappingEnd]

/-- The build that is being read. -/
def sampleBuild : PartialBuild where
  name := some "a".toList
  builddir := some "b".toList
  tupfile := some "c".toList
  function := some "d".toList

/-- The loop over the entries of the dependency or of the dist. -/
def sampleLoop (place : Place) (a b : Option Text) : ReadLoop :=
  if place = .dist then .dist { strict := false, builds := [] } [] sampleBuild [] a b
  else .dep { strict := false, builds := [] } [] sampleBuild [] a b

theorem reaches_sampleHead {place : Place} (hplace : place = .dep ∨ place = .dist)
    (s : List Event) :
    Reaches (.streamStart :: .documentStart :: (sampleHead place ++ s))
      (sampleLoop place none none) s := by
  have hbuild : Reaches (.streamStart :: .documentStart :: (sampleHead place ++ s))
      (.build { strict := false, builds := [] } [] sampleBuild)
        (.scalar (if place = .dist then "dists" else "depends").toList :: .sequenceStart ::
          .mappingStart :: s) := by
    have hstart := @Reaches.start (.streamStart :: .documentStart :: (sampleHead place ++ s)) _ rfl
    have hname := ((hstart.builds rfl).build).buildKey rfl
    have hbuilddir := hname.buildKey rfl
    have htupfile := hbuilddir.buildKey rfl
    exact htupfile.buildKey rfl
  obtain rfl | rfl := hplace
  · exact (hbuild.depends rfl).dep
  · exact (hbuild.dists rfl).dist

theorem reaches_sampleEntries {place : Place} (hplace : place = .dep ∨ place = .dist)
    (s : List Event) :
    Reaches (.streamStart :: .documentStart :: (sampleHead place ++ (sampleEntries place ++ s)))
      (sampleLoop place (some "x".toList) (some "y".toList)) s := by
  have h := reaches_sampleHead hplace (sampleEntries place ++ s)
  obtain rfl | rfl := hplace
  · exact Reaches.depKey (Reaches.depKey h rfl) rfl
  · exact Reaches.distKey (Reaches.distKey h rfl) rfl

theorem tupbuildParse_sample {place : Place} (hplace : place = .dep ∨ place = .dist) :
    ∃ tf, tupbuildParse (documentOf (sampleHead place ++ (sampleEntries place ++ sampleTail))) =
      .ok tf := by
  obtain rfl | rfl := hplace
  · exact ⟨_, rfl⟩
  · exact ⟨_, rfl⟩

theorem wellformed_sample (place : Place) {entries : List Event} (h : Wellformed .entries entries) :
    Wellformed .node (sampleHead place ++ (entries ++ sampleTail)) := by
  have hbuild := Wellformed.scalarEntry "name".toList "a".toList
    (.scalarEntry "builddir".toList "b".toList (.scalarEntry "tupfile".toList "c".toList
      (.scalarEntry "function".toList "d".toList
        (.keyEntry (if place = .dist then "dists" else "depends").toList (.singleMapping h)
          .noEntries))))
  have hroot := Wellformed.mapping (.keyEntry "builds".toList (.singleMapping hbuild) .noEntries)
  simpa [sampleHead, sampleTail] using hroot

theorem wellformed_sampleEntries {place : Place} (hplace : place = .dep ∨ place = .dist)
    {entries : List Event} (h : Wellformed .entries entries) :
    Wellformed .entries (sampleEntries place ++ entries) := by
  obtain rfl | rfl := hplace
  · exact .scalarEntry _ _ (.scalarEntry _ _ h)
  · exact .scalarEntry _ _ (.scalarEntry _ _ h)

/-- With both keys set, the loop fails at what is neither its end nor an unknown key. -/
theorem tupbuildParsePairLoop_stuck {texts : PairTexts} {x y : Text} {e : Event} {rest : List Event}
    (hend : e ≠ .mappingEnd) (hstop : ∀ key, e = .scalar key →
      rest ≠ [] ∧ key ∈ [texts.first, texts.second].map String.toList) :
    ∃ msg, tupbuildParsePairLoop texts (some x) (some y) (e :: rest) = .error msg := by
  match e, hend, hstop with
  | .scalar key, _, hstop =>
    obtain ⟨hne, hmem⟩ := hstop key rfl
    obtain ⟨value, rest', rfl⟩ := List.exists_cons_of_ne_nil hne
    simp only [List.map_cons, List.map_nil, List.mem_cons, List.not_mem_nil, or_false] at hmem
    rw [tupbuildParsePairLoop_key]
    unfold tupbuildPairKey
    by_cases hfirst : key = texts.first.toList
    · rw [if_pos hfirst]
      cases value <;> exact ⟨_, rfl⟩
    · rw [if_neg hfirst, if_pos (hmem.resolve_left hfirst)]
      cases value <;> exact ⟨_, rfl⟩
  | .streamStart, _, _ => exact ⟨_, rfl⟩
  | .streamEnd, _, _ => exact ⟨_, rfl⟩
  | .documentStart, _, _ => exact ⟨_, rfl⟩
  | .documentEnd, _, _ => exact ⟨_, rfl⟩
  | .alias _, _, _ => exact ⟨_, rfl⟩
  | .sequenceStart, _, _ => exact ⟨_, rfl⟩
  | .sequenceEnd, _, _ => exact ⟨_, rfl⟩
  | .mappingStart, _, _ => exact ⟨_, rfl⟩

/-- The rest of the parse of a sample fails where its loop does. -/
theorem resume_sampleLoop_error {place : Place} (hplace : place = .dep ∨ place = .dist)
    {a b : Option Text} {key : Text} (hkey : key ∉ place.keys) {first : Event}
    {pre l : List Event} (hpre : PairsUp place.keys pre)
    (hstuck : ∀ texts : PairTexts, place.keys = [texts.first, texts.second].map String.toList →
      ∃ msg, tupbuildParsePairLoop texts a b l = .error msg) :
    ∃ msg, (sampleLoop place a b).resume (.scalar key :: first :: (pre ++ l)) = .error msg := by
  obtain rfl | rfl := hplace
  · obtain ⟨msg, hmsg⟩ := hstuck depTexts rfl
    refine ⟨msg, ?_⟩
    change (tupbuildParsePairLoop depTexts a b _).bind _ = _
    rw [tupbuildParsePairLoop_unknown hkey, tupbuildParsePairLoop_pairsUp rfl hpre, hmsg]
    rfl
  · obtain ⟨msg, hmsg⟩ := hstuck distTexts rfl
    refine ⟨msg, ?_⟩
    change (tupbuildParsePairLoop distTexts a b _).bind _ = _
    rw [tupbuildParsePairLoop_unknown hkey, tupbuildParsePairLoop_pairsUp rfl hpre, hmsg]
    rfl

theorem sampleLoop_place {place : Place} (hplace : place = .dep ∨ place = .dist)
    (a b : Option Text) : (sampleLoop place a b).place = some place := by
  obtain rfl | rfl := hplace
  · rfl
  · rfl

/-- The key with this value can be taken out of every document in which the parse warns about it
here. -/
def TakenOut (place : Place) (key : Text) (value : List Event) : Prop :=
  ∀ root loop pre post, Wellformed .node root → loop.place = some place →
    documentOf root = pre ++ .scalar key :: (value ++ post) →
    Reaches (documentOf root) loop (.scalar key :: (value ++ post)) →
    tupbuildParse (pre ++ post) = tupbuildParse (documentOf root)

theorem takenOut_of_ignored {place : Place} {key : Text} (hkey : key ∉ place.keys)
    {value : List Event} (hvalue : Wellformed .node value) (h : Ignored place value) :
    TakenOut place key value := by
  intro root loop pre post _ hplace hdoc hreach
  obtain ⟨pre', hsplit⟩ := hreach.split
  obtain rfl : pre = pre' := List.append_cancel_right (hdoc.symm.trans hsplit.eq)
  rw [tupbuildParse_eq_resume (hsplit.replace post), tupbuildParse_eq_resume hreach,
    resume_unknown hplace hkey hvalue h]

/-- A document with the key, and the document without it. -/
theorem TakenOut.resume_eq {place : Place} {key : Text} {value before after : List Event}
    (h : TakenOut place key value) {loop : ReadLoop} (hplace : loop.place = some place)
    (hroot : Wellformed .node (before ++ (.scalar key :: (value ++ after))))
    (hreach : ∀ s, Reaches (.streamStart :: .documentStart :: (before ++ s)) loop s) :
    tupbuildParse (documentOf (before ++ after)) =
      loop.resume (.scalar key :: (value ++ (after ++ [.documentEnd, .streamEnd]))) := by
  have hdoc : documentOf (before ++ (.scalar key :: (value ++ after))) =
      (.streamStart :: .documentStart :: before) ++
        .scalar key :: (value ++ (after ++ [.documentEnd, .streamEnd])) := by
    simp [documentOf]
  have hreach' : Reaches (documentOf (before ++ (.scalar key :: (value ++ after)))) loop
      (.scalar key :: (value ++ (after ++ [.documentEnd, .streamEnd]))) := by
    rw [hdoc]
    exact hreach _
  have hsame := h _ loop _ _ hroot hplace hdoc hreach'
  rw [← tupbuildParse_eq_resume hreach', ← hsame]
  simp [documentOf]

theorem pairsUp_of_takenOut {place : Place} (hplace : place = .dep ∨ place = .dist) {key : Text}
    (hkey : key ∉ place.keys) {value : List Event} (hvalue : Wellformed .node value)
    (h : TakenOut place key value) : PairsUp place.keys value.tail := by
  by_contra hnot
  obtain ⟨first, value', rfl, -, -⟩ := hvalue.head
  obtain ⟨pre, e, rest, hsplit, hpre, hstop⟩ := exists_of_not_pairsUp hnot
  change value' = pre ++ e :: rest at hsplit
  obtain ⟨tf, hok⟩ := tupbuildParse_sample hplace
  by_cases hend : e = .mappingEnd
  · -- in front of the two entries, the loop stops before it has read them
    have hroot := wellformed_sample place
      (.keyEntry key hvalue (wellformed_sampleEntries hplace .noEntries))
    rw [List.append_nil, List.cons_append, List.append_assoc] at hroot
    have hsame := h.resume_eq (sampleLoop_place hplace none none) hroot (reaches_sampleHead hplace)
    rw [hok, hsplit, List.cons_append, List.append_assoc] at hsame
    have hstuck : ∀ texts : PairTexts,
        place.keys = [texts.first, texts.second].map String.toList → ∃ msg,
          tupbuildParsePairLoop texts none none (e :: rest ++ (sampleEntries place ++ sampleTail ++
            [.documentEnd, .streamEnd])) = .error msg := by
      intro texts _
      rw [hend]
      exact ⟨_, rfl⟩
    obtain ⟨msg, hmsg⟩ := resume_sampleLoop_error hplace hkey hpre hstuck
    rw [hmsg] at hsame
    cases hsame
  · -- behind the two entries, the loop fails
    have hroot := wellformed_sample place
      (wellformed_sampleEntries hplace (.keyEntry key hvalue .noEntries))
    rw [List.append_nil, List.append_assoc, ← List.append_assoc, List.cons_append] at hroot
    have hreach : ∀ s, Reaches
        (.streamStart :: .documentStart :: (sampleHead place ++ sampleEntries place ++ s))
        (sampleLoop place (some "x".toList) (some "y".toList)) s := by
      intro s
      rw [List.append_assoc]
      exact reaches_sampleEntries hplace s
    have hsame := h.resume_eq (sampleLoop_place hplace _ _) hroot hreach
    rw [List.append_assoc, hok, hsplit, List.cons_append, List.append_assoc] at hsame
    have hstuck : ∀ texts : PairTexts,
        place.keys = [texts.first, texts.second].map String.toList → ∃ msg,
          tupbuildParsePairLoop texts (some "x".toList) (some "y".toList)
            (e :: rest ++ (sampleTail ++ [.documentEnd, .streamEnd])) = .error msg := by
      intro texts hkeys
      apply tupbuildParsePairLoop_stuck hend
      intro key' he
      refine ⟨List.append_ne_nil_of_right_ne_nil rest (List.cons_ne_nil _ _), ?_⟩
      rw [← hkeys]
      apply (hstop key' he).resolve_left
      rintro rfl
      rw [hsplit, he] at hvalue
      exact hvalue.last rfl
    obtain ⟨msg, hmsg⟩ := resume_sampleLoop_error hplace hkey hpre hstuck
    rw [hmsg] at hsame
    cases hsame

/-- An unknown key and its value can be taken out of every document exactly if it is a key of the file
or of a build, or if the events of the value after the first one come in pairs that start with
unknown keys. -/
theorem takenOut_iff {place : Place} {key : Text} (hkey : key ∉ place.keys) {value : List Event}
    (hvalue : Wellformed .node value) : TakenOut place key value ↔ Ignored place value := by
  constructor
  · intro h
    cases place with
    | file => exact trivial
    | build => exact trivial
    | dep => exact pairsUp_of_takenOut (Or.inl rfl) hkey hvalue h
    | dist => exact pairsUp_of_takenOut (Or.inr rfl) hkey hvalue h
  · exact takenOut_of_ignored hkey hvalue

theorem takenOut_scalar :
    TakenOut .dep "note".toList [.scalar "p".toList] ↔ Ignored .dep [.scalar "p".toList] :=
  takenOut_iff (by decide) .scalar

/-- A dependency with both of its keys and with a third one, whose value is a sequence. -/
theorem note_not_ignored :
    Wellformed .node (sampleHead .dep ++ (sampleEntries .dep ++ [.scalar "note".toList,
        .sequenceStart, .scalar "p".toList, .scalar "q".toList, .sequenceEnd] ++ sampleTail)) ∧
      Reaches (documentOf (sampleHead .dep ++ (sampleEntries .dep ++ [.scalar "note".toList,
          .sequenceStart, .scalar "p".toList, .scalar "q".toList, .sequenceEnd] ++ sampleTail)))
        (sampleLoop .dep (some "x".toList) (some "y".toList))
        ([.scalar "note".toList, .sequenceStart, .scalar "p".toList, .scalar "q".toList,
          .sequenceEnd] ++ sampleTail ++ [.documentEnd, .streamEnd]) ∧
      tupbuildParse (documentOf (sampleHead .dep ++ (sampleEntries .dep ++ [.scalar "note".toList,
          .sequenceStart, .scalar "p".toList, .scalar "q".toList, .sequenceEnd] ++ sampleTail))) =
        .error expectedScalar ∧
      ∃ tf, tupbuildParse (documentOf (sampleHead .dep ++ (sampleEntries .dep ++ sampleTail))) =
        .ok tf := by
  refine ⟨?_, ?_, rfl, tupbuildParse_sample (Or.inl rfl)⟩
  · have hvalue : Wellformed .node [.sequenceStart, .scalar "p".toList, .scalar "q".toList,
        .sequenceEnd] := .sequence (.item .scalar (.item .scalar .noItems))
    exact wellformed_sample .dep
      (wellformed_sampleEntries (Or.inl rfl) (.keyEntry "note".toList hvalue .noEntries))
  · exact reaches_sampleEntries (Or.inl rfl) _

end Metatup
