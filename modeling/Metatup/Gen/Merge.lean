import Metatup.Gen.Checked
import Metatup.Gen.Text

/-!
# Generating again

`tup gen` reads the old TupBuild file and writes a new one. The old builds that are generated again are
replaced in their places, the new ones follow, and everything else of the old file should stay as it is.

* `Preserved`: what the new file should be.
* `mtWrittenBuilds_eq_iff`: when the builds that are written are these.
* `regeneration_preserves_iff`: when what is written is read as such a file.
-/

namespace Metatup

open Lib.Yaml

/-! ### The merge -/

/-- A build of the old file, or what has been generated under its name. -/
def regenerated (gen : Generated) (b : TupbuildBuild) : TupbuildBuild :=
  ((gen.find? (·.name = b.name)).map fun g => g.toTupbuildBuild).getD b

/-- The generated builds that take no place of the old file. -/
def newBuilds (old : List TupbuildBuild) (gen : Generated) : List TupbuildBuild :=
  (gen.zipIdx.filter fun p => p.1.name ∉ old.map TupbuildBuild.name ∨
    p.1.name ∈ (gen.take p.2).map fun g => g.name).map fun p => p.1.toTupbuildBuild

/-- A file that keeps what is not generated again. -/
structure Preserved (old : TupbuildFile) (gen : Generated) (out : TupbuildFile) : Prop where
  globalArgs : out.globalArgs = old.globalArgs
  builds : out.builds = old.builds.map (regenerated gen) ++ newBuilds old.builds gen

section

variable {old : List TupbuildBuild} {gen : Generated}

theorem mtRewriteBuild_eq (gen : Generated) (b : TupbuildBuild) :
    mtRewriteBuild gen b =
      ((gen.find? (·.name = b.name)).map fun g => g.toTupbuildBuild).getD (mtExistingBuild b) := by
  unfold mtRewriteBuild mtFindGeneratedByName
  rw [← List.find?_eq_bind_findIdx?_getElem?]
  cases gen.find? (·.name = b.name) with
  | none => rfl
  | some g => rfl

theorem mtWrittenBuilds_eq (old : List TupbuildBuild) (gen : Generated) :
    mtWrittenBuilds old gen = old.map (mtRewriteBuild gen) ++ newBuilds old gen := by
  unfold mtWrittenBuilds newBuilds
  congr 2
  apply List.filter_congr
  rintro ⟨g, i⟩ hmem
  rw [decide_eq_decide, mem_mtEmitted_iff (List.mem_zipIdx_iff_getElem?.1 hmem)]
  tauto

/-- Exactly the builds that only depend on others are not kept. -/
theorem mtWrittenBuilds_eq_iff (hold : ∀ b ∈ old, BuildAccepted b) :
    mtWrittenBuilds old gen = old.map (regenerated gen) ++ newBuilds old gen ↔
      ∀ b ∈ old, (∀ g ∈ gen, g.name ≠ b.name) → b.tupfile.isSome = true := by
  rw [mtWrittenBuilds_eq, List.append_left_inj, List.map_inj_left]
  refine forall₂_congr fun b hb => ?_
  rw [mtRewriteBuild_eq, regenerated]
  cases hfind : gen.find? (·.name = b.name) with
  | some g =>
    have hg : g ∈ gen := List.mem_of_find?_eq_some hfind
    have hname : g.name = b.name := by simpa using List.find?_some hfind
    exact ⟨fun _ hno => absurd hname (hno g hg), fun _ => rfl⟩
  | none =>
    have hno : ∀ g ∈ gen, g.name ≠ b.name := by
      intro g hg
      simpa using List.find?_eq_none.1 hfind g hg
    have hboth := (hold b hb).both
    constructor
    · intro heq _
      have htupfile : some (b.tupfile.getD nullText) = b.tupfile := congrArg TupbuildBuild.tupfile heq
      rw [← htupfile]
      rfl
    · intro hsome
      have htupfile := hsome hno
      obtain ⟨tupfile, htupfile'⟩ := Option.isSome_iff_exists.1 htupfile
      obtain ⟨function, hfunction⟩ := Option.isSome_iff_exists.1 (hboth ▸ htupfile)
      show mtExistingBuild b = b
      unfold mtExistingBuild
      rw [htupfile', hfunction]
      show _ = b
      rw [Option.getD_some, Option.getD_some, ← htupfile', ← hfunction]

theorem accepted_written_iff (hold : ∀ b ∈ old, BuildAccepted b)
    (hgen : ∀ g ∈ gen, (g.args.map Prod.fst).Nodup ∧ g.tupfile.isSome = g.function.isSome) :
    (∀ b ∈ mtWrittenBuilds old gen, BuildAccepted b) ↔ ∀ g ∈ gen, g.tupfile = none → g.dists = [] := by
  constructor
  · intro h g hg
    exact (h g.toTupbuildBuild (mem_mtWrittenBuilds.2 (.inl ⟨g, hg, rfl⟩))).dists
  · intro h b hb
    rcases mem_mtWrittenBuilds.1 hb with ⟨g, hg, rfl⟩ | ⟨x, hx, -, rfl⟩
    · exact ⟨(hgen g hg).1, (hgen g hg).2, h g hg⟩
    · exact ⟨(hold x hx).keys, rfl, fun hnone => nomatch hnone⟩

/-- The texts that are written are those of the generated builds and of the builds that stay. -/
theorem writable_written (hold : ∀ b ∈ old, (∀ g ∈ gen, g.name ≠ b.name) → Writable b)
    (hgen : ∀ g ∈ gen, Writable g.toTupbuildBuild) : ∀ b ∈ mtWrittenBuilds old gen, Writable b := by
  have hnull : ∀ value : Option Text, (∀ t ∈ value, plainOk t = true) →
      ∀ t ∈ some (value.getD nullText), plainOk t = true := by
    rintro (_ | value) hvalue t ht
    · cases ht
      decide
    · exact hvalue t ht
  intro b hb
  rcases mem_mtWrittenBuilds.1 hb with ⟨g, hg, rfl⟩ | ⟨x, hx, hno, rfl⟩
  · exact hgen g hg
  · have hx := hold x hx hno
    exact { hx with tupfile := hnull _ hx.tupfile, function := hnull _ hx.function }

end

/-! ### The runs -/

/-- The root has no tupfile and stands for several builds. -/
def DependencyOnlyRoot (setup : MtSetup) : Prop :=
  ∃ inst args ls, Reached setup.env setup.root (.build inst setup.env.rootName) ∧
    IsBundle setup.env inst args ∧ Leaves setup.env { inst with args := args } ls ∧ 2 ≤ ls.length

section

variable {fuel : ℕ} {world : MtEnv} {componentName : Text} {args : List Text} {setup : MtSetup}
  {ref : BuildRef} {gen : Generated}

theorem existing_of_run (h : metatupGen fuel world componentName args = .ok (setup, ref, gen)) :
    setup.env.existingTb = world.existingTb := by
  obtain ⟨opts, mf, component, -, -, -, henv, -⟩ := mtSetup_ok (metatupGen_ok h).1
  rw [henv]

theorem accepted_of_run (h : metatupGen fuel world componentName args = .ok (setup, ref, gen)) :
    ∀ g ∈ gen, (g.args.map Prod.fst).Nodup ∧ g.tupfile.isSome = g.function.isSome := by
  obtain ⟨-, gen₀, hbuild, rfl⟩ := metatupGen_ok h
  intro g hg
  obtain ⟨g₀, hg₀, heq⟩ := (sameButDists_mtAddDists setup.opts.cliDists ref gen₀).mem hg
  have haccepted := (root_spec fuel isTop_root hbuild).accepted hg₀
  rw [heq]
  exact haccepted

theorem dists_of_run (h : metatupGen fuel world componentName args = .ok (setup, ref, gen)) :
    (∀ g ∈ gen, g.tupfile = none → g.dists = []) ↔
      (DependencyOnlyRoot setup → setup.opts.cliDists = []) := by
  obtain ⟨-, gen₀, hbuild, rfl⟩ := metatupGen_ok h
  have hres := root_spec fuel isTop_root hbuild
  rw [hres.dists_iff, hres.dependencyOnly_iff]
  rfl

/-- What a run writes over an old file is read as a file that keeps the rest of the old one exactly
when this has no global arguments and no build that only depends on others stays, and no such build is
given dists; where the texts can stand where they are printed. -/
theorem regeneration_preserves_iff {yaml : Text → List Event} (hyaml : ReadsBlocks yaml) {text : Text}
    {old : TupbuildFile} (hold : tupbuildParse (yaml text) = .ok old)
    (hexisting : world.existingTb = some old)
    (h : metatupGen fuel world componentName args = .ok (setup, ref, gen))
    (hstays : ∀ b ∈ old.builds, (∀ g ∈ gen, g.name ≠ b.name) → Writable b)
    (hgen : ∀ g ∈ gen, Writable g.toTupbuildBuild) :
    (∃ out, tupbuildParse (yaml (mtWriteTupbuildText setup gen)) = .ok out ∧
        Preserved old gen out) ↔
      old.globalArgs = [] ∧
        (∀ b ∈ old.builds, (∀ g ∈ gen, g.name ≠ b.name) → b.tupfile.isSome = true) ∧
        (DependencyOnlyRoot setup → setup.opts.cliDists = []) := by
  have hparse := parseAccepts_of_tupbuildParse hold
  have haccepted := accepted_written_iff hparse.builds (accepted_of_run h)
  have hbuilds : (mtWriteTupbuild setup gen).builds = mtWrittenBuilds old.builds gen := by
    unfold mtWriteTupbuild
    rw [existing_of_run h, hexisting]
    rfl
  have hwritable : ∀ b ∈ (mtWriteTupbuild setup gen).builds, Writable b := by
    rw [hbuilds]
    exact writable_written hstays hgen
  have hne : (mtWriteTupbuild setup gen).builds ≠ [] := by
    rw [hbuilds, mtWrittenBuilds_eq]
    intro hnil
    exact hparse.nonempty (List.map_eq_nil_iff.1 (List.append_eq_nil_iff.1 hnil).1)
  have hkeys : ∀ b ∈ (mtWriteTupbuild setup gen).builds, (b.args.map Prod.fst).Nodup := by
    rw [hbuilds]
    intro b hb
    rcases mem_mtWrittenBuilds.1 hb with ⟨g, hg, rfl⟩ | ⟨x, hx, -, rfl⟩
    · exact (accepted_of_run h g hg).1
    · exact (hparse.builds x hx).keys
  rw [mtWriteTupbuildText_eq, ← dists_of_run h, ← haccepted, ← mtWrittenBuilds_eq_iff hparse.builds,
    ← hbuilds]
  constructor
  · rintro ⟨out, hout, hpreserved⟩
    obtain ⟨haccepts, rfl⟩ := read_fileLines_eq hyaml rfl hne hkeys hwritable hout
    exact ⟨hpreserved.globalArgs.symm, hpreserved.builds, haccepts.builds⟩
  · rintro ⟨hglobal, hmerged, hall⟩
    refine ⟨mtWriteTupbuild setup gen, ?_, hglobal.symm, hmerged⟩
    exact (read_fileLines_iff hyaml rfl hwritable).2 ⟨hne, List.nodup_nil, hall⟩

end

/-- A workspace of one component that has been generated before, with `old` in its TupBuild file. -/
def generatedBefore (old : TupbuildFile) : MtEnv :=
  { oneComponent independent with existingTb := some old }

/-- What the run starts from. -/
def againSetup (old : TupbuildFile) : MtSetup where
  env := generatedBefore old
  opts := {}
  strict := old.strict
  autoCompiledb := old.autoCompiledb
  root := rootInstance independent
  builddir := "./lib.build".toList

/-- What it generates. -/
def againBuild : MtGeneratedBuild where
  name := "lib".toList
  identity := "lib".toList
  tupfile := some "build.tup".toList
  function := some "lib".toList
  builddir := "./lib.build".toList
  origin := rootInstance independent

theorem run_again (old : TupbuildFile) : metatupGen 1 (generatedBefore old) "lib".toList [] =
    .ok (againSetup old, { idx := 0, name := "lib".toList }, [againBuild]) := rfl

/-- A file with global arguments. -/
def globalText : Text := textOf [
  ⟨0, header "globalArgs"⟩,
  ⟨2, field "opt" "fast".toList⟩,
  ⟨0, header "builds"⟩,
  ⟨2, '-' :: ' ' :: field "name" "lib".toList⟩,
  ⟨4, field "builddir" "./out".toList⟩]

/-- The file as it is read. -/
def globalFile : TupbuildFile where
  strict := false
  globalArgs := [("opt".toList, "fast".toList)]
  builds := [{ name := "lib".toList, tupfile := none, function := none, builddir := "./out".toList }]

/-- The global arguments are lost. -/
theorem global_args_lost : ReadsBlocks readBlocks ∧
    tupbuildParse (readBlocks globalText) = .ok globalFile ∧ ∃ setup ref gen,
      metatupGen 1 (generatedBefore globalFile) "lib".toList [] = .ok (setup, ref, gen) ∧
      ¬ ∃ out, tupbuildParse (readBlocks (mtWriteTupbuildText setup gen)) = .ok out ∧
        Preserved globalFile gen out := by
  have hread : (tupbuildParse (readBlocks (mtWriteTupbuildText (againSetup globalFile)
      [againBuild]))).toOption.map TupbuildFile.globalArgs = some [] := by decide +kernel
  refine ⟨readBlocks_spec, by decide +kernel, _, _, _, run_again globalFile, ?_⟩
  rintro ⟨out, hout, hpreserved⟩
  rw [hout] at hread
  have hnil : out.globalArgs = [] := Option.some.inj hread
  rw [hpreserved.globalArgs] at hnil
  exact absurd hnil (by decide)

/-- A file with a build of its own and one to be generated again. -/
def keptText : Text := textOf [
  ⟨0, header "builds"⟩,
  ⟨2, '-' :: ' ' :: field "name" "tool".toList⟩,
  ⟨4, field "tupfile" "tool.tup".toList⟩,
  ⟨4, field "function" "tool".toList⟩,
  ⟨4, field "builddir" "./tool".toList⟩,
  ⟨2, '-' :: ' ' :: field "name" "lib".toList⟩,
  ⟨4, field "builddir" "./out".toList⟩]

/-- The file as it is read. -/
def keptFile : TupbuildFile where
  strict := false
  builds := [
    { name := "tool".toList, tupfile := some "tool.tup".toList, function := some "tool".toList
      builddir := "./tool".toList },
    { name := "lib".toList, tupfile := none, function := none, builddir := "./out".toList }]

/-- The build of its own stays. -/
theorem regeneration_preserves_tool : ∃ setup ref gen,
    metatupGen 1 (generatedBefore keptFile) "lib".toList [] = .ok (setup, ref, gen) ∧
      ∃ out, tupbuildParse (readBlocks (mtWriteTupbuildText setup gen)) = .ok out ∧
        Preserved keptFile gen out := by
  have hread : tupbuildParse (readBlocks keptText) = .ok keptFile := by decide +kernel
  refine ⟨_, _, _, run_again keptFile, (regeneration_preserves_iff readBlocks_spec hread rfl
    (run_again keptFile) ?_ ?_).2 ⟨rfl, by decide +kernel, fun _ => rfl⟩⟩
  · intro b hb _
    rcases List.mem_pair.1 hb with rfl | rfl
    · exact ⟨by decide, by decide, by decide, by decide, by decide, nofun, nofun, nofun⟩
    · exact ⟨by decide, by decide, by decide, by decide, by decide, nofun, nofun, nofun⟩
  · intro g hg
    cases List.mem_singleton.1 hg
    exact ⟨by decide, by decide, by decide, by decide, by decide, nofun, nofun, nofun⟩

end Metatup
