import Metatup.Gen.Run

/-!
# The written file

`mt_write_tupbuild` writes the builds of the old file in their places, those that were generated again
as they are now, and the other generated builds after them.

* `mem_mtWrittenBuilds`: the builds of the file.
* `nodup_mtWrittenBuilds`: when their names are different.
-/

namespace Metatup

variable {existing : List TupbuildBuild} {gen : Generated}

theorem mtFindGeneratedByName_some {name : Text} {g : MtGeneratedBuild}
    (h : (mtFindGeneratedByName gen name).bind (gen[·]?) = some g) : g ∈ gen ∧ g.name = name := by
  obtain ⟨i, hi, hg⟩ := Option.bind_eq_some_iff.1 h
  obtain ⟨hlt, hname, -⟩ := List.findIdx?_eq_some_iff_getElem.1 hi
  rw [List.getElem?_eq_getElem hlt] at hg
  cases hg
  exact ⟨List.getElem_mem hlt, by simpa using hname⟩

theorem mtFindGeneratedByName_none {name : Text}
    (h : (mtFindGeneratedByName gen name).bind (gen[·]?) = none) : ∀ g ∈ gen, g.name ≠ name := by
  intro g hg hname
  cases hi : mtFindGeneratedByName gen name with
  | none =>
    have hno := List.findIdx?_eq_none_iff.1 hi g hg
    simp [hname] at hno
  | some i =>
    obtain ⟨hlt, -, -⟩ := List.findIdx?_eq_some_iff_getElem.1 hi
    rw [hi, Option.bind_some, List.getElem?_eq_getElem hlt] at h
    cases h

@[simp] theorem mtRewriteBuild_name (gen : Generated) (b : TupbuildBuild) :
    (mtRewriteBuild gen b).name = b.name := by
  unfold mtRewriteBuild
  split
  · next g h => exact (mtFindGeneratedByName_some h).2
  · rfl

/-- A generated build takes the places of its name when it is the first of this name. -/
theorem mem_mtEmitted_iff {g : MtGeneratedBuild} {i : ℕ} (hg : gen[i]? = some g) :
    i ∈ mtEmitted gen existing ↔
      g.name ∈ existing.map TupbuildBuild.name ∧ g.name ∉ (gen.take i).map fun g => g.name := by
  obtain ⟨hlt, rfl⟩ := List.getElem?_eq_some_iff.1 hg
  have hfind : mtFindGeneratedByName gen gen[i].name = some i ↔
      gen[i].name ∉ (gen.take i).map fun g => g.name := by
    unfold mtFindGeneratedByName
    rw [List.findIdx?_eq_some_iff_getElem]
    constructor
    · rintro ⟨_, _, hfirst⟩ hmem
      obtain ⟨g, hg, hname⟩ := List.mem_map.1 hmem
      obtain ⟨j, hj, rfl⟩ := List.mem_take_iff_getElem.1 hg
      exact hfirst j (by omega) (by simpa using hname)
    · intro hno
      refine ⟨hlt, by simp, fun j hj hname => hno ?_⟩
      apply List.mem_map.2
      exact ⟨gen[j], List.mem_take_iff_getElem.2 ⟨j, by omega, rfl⟩, by simpa using hname⟩
  unfold mtEmitted
  rw [List.mem_filterMap, ← hfind]
  constructor
  · rintro ⟨x, hx, hi⟩
    have hname : gen[i].name = x.name := by
      obtain ⟨_, hname, _⟩ := List.findIdx?_eq_some_iff_getElem.1 hi
      simpa using hname
    rw [hname]
    exact ⟨List.mem_map_of_mem hx, hi⟩
  · rintro ⟨hmem, hi⟩
    obtain ⟨x, hx, hname⟩ := List.mem_map.1 hmem
    exact ⟨x, hx, hname ▸ hi⟩

theorem name_notMem_take (hnodup : (gen.map fun b => b.name).Nodup) {g : MtGeneratedBuild} {i : ℕ}
    (hg : gen[i]? = some g) : g.name ∉ (gen.take i).map fun g => g.name := by
  obtain ⟨hlt, rfl⟩ := List.getElem?_eq_some_iff.1 hg
  intro htake
  obtain ⟨g, hmem, hname⟩ := List.mem_map.1 htake
  obtain ⟨j, hj, rfl⟩ := List.mem_take_iff_getElem.1 hmem
  have hsame : (gen.map fun b => b.name)[j]? = (gen.map fun b => b.name)[i]? := by
    rw [List.getElem?_map, List.getElem?_map, hg, List.getElem?_eq_getElem (by omega)]
    exact congrArg some hname
  have hij : j = i := (List.getElem?_inj (by rw [List.length_map]; omega) hnodup).1 hsame
  omega

theorem mem_mtWrittenBuilds {b : TupbuildBuild} :
    b ∈ mtWrittenBuilds existing gen ↔ (∃ g ∈ gen, b = g.toTupbuildBuild) ∨
      ∃ x ∈ existing, (∀ g ∈ gen, g.name ≠ x.name) ∧ b = mtExistingBuild x := by
  unfold mtWrittenBuilds
  rw [List.mem_append]
  constructor
  · rintro (h | h)
    · obtain ⟨x, hx, rfl⟩ := List.mem_map.1 h
      unfold mtRewriteBuild
      split
      · next g hg => exact .inl ⟨g, (mtFindGeneratedByName_some hg).1, rfl⟩
      · next hnone => exact .inr ⟨x, hx, mtFindGeneratedByName_none hnone, rfl⟩
    · obtain ⟨⟨g, i⟩, hmem, rfl⟩ := List.mem_map.1 h
      exact .inl ⟨g, List.fst_mem_of_mem_zipIdx (List.mem_filter.1 hmem).1, rfl⟩
  · rintro (⟨g, hg, rfl⟩ | ⟨x, hx, hno, rfl⟩)
    · obtain ⟨i, hi⟩ := List.mem_iff_getElem?.1 hg
      by_cases hold : i ∈ mtEmitted gen existing
      · obtain ⟨x, hx, hfind⟩ := List.mem_filterMap.1 hold
        refine .inl (List.mem_map.2 ⟨x, hx, ?_⟩)
        have hbind : (mtFindGeneratedByName gen x.name).bind (gen[·]?) = some g := by
          rw [hfind]
          exact hi
        unfold mtRewriteBuild
        rw [hbind]
      · refine .inr (List.mem_map.2 ⟨(g, i), List.mem_filter.2
          ⟨List.mem_zipIdx_iff_getElem?.2 hi, ?_⟩, rfl⟩)
        exact decide_eq_true hold
    · refine .inl (List.mem_map.2 ⟨x, hx, ?_⟩)
      have hbind : (mtFindGeneratedByName gen x.name).bind (gen[·]?) = none := by
        cases hfind : (mtFindGeneratedByName gen x.name).bind (gen[·]?) with
        | none => rfl
        | some g =>
          obtain ⟨hg, hname⟩ := mtFindGeneratedByName_some hfind
          exact absurd hname (hno g hg)
      unfold mtRewriteBuild
      rw [hbind]

/-- Without an old file the builds are the generated ones. -/
theorem mtWrittenBuilds_nil (gen : Generated) :
    mtWrittenBuilds [] gen = gen.map fun b => b.toTupbuildBuild := by
  have hfst : gen.zipIdx.map Prod.fst = gen := List.zipIdx_map_fst ..
  have hall : (gen.zipIdx.filter fun p => p.2 ∉ mtEmitted gen []) = gen.zipIdx := by
    simp [mtEmitted]
  have hmap := congrArg (List.map fun b : MtGeneratedBuild => b.toTupbuildBuild) hfst
  rw [List.map_map] at hmap
  unfold mtWrittenBuilds
  rw [hall, List.map_nil, List.nil_append]
  exact hmap

/-- The names of the file are different when those of the old file are. -/
theorem nodup_mtWrittenBuilds (hnodup : (gen.map fun b => b.name).Nodup) :
    ((mtWrittenBuilds existing gen).map TupbuildBuild.name).Nodup ↔
      (existing.map TupbuildBuild.name).Nodup := by
  unfold mtWrittenBuilds
  have hold : (existing.map (mtRewriteBuild gen)).map TupbuildBuild.name =
      existing.map TupbuildBuild.name := by
    simp
  rw [List.map_append, hold, List.nodup_append]
  refine ⟨fun h => h.1, fun h => ⟨h, ?_, ?_⟩⟩
  · have hsub : (((gen.zipIdx.filter fun p => p.2 ∉ mtEmitted gen existing).map
        fun p => p.1.toTupbuildBuild).map TupbuildBuild.name).Sublist (gen.map fun b => b.name) := by
      have hzip : gen.map (fun b => b.name) = gen.zipIdx.map fun p => p.1.name := by
        have hfst : gen.zipIdx.map Prod.fst = gen := List.zipIdx_map_fst ..
        have hmap := congrArg (List.map fun b : MtGeneratedBuild => b.name) hfst
        rw [List.map_map] at hmap
        exact hmap.symm
      rw [hzip, List.map_map]
      exact List.filter_sublist.map _
    exact hsub.nodup hnodup
  · intro n hn m hm heq
    obtain ⟨b, hb, rfl⟩ := List.mem_map.1 hm
    obtain ⟨⟨g, i⟩, hmem, rfl⟩ := List.mem_map.1 hb
    obtain ⟨hzip, hrest⟩ := List.mem_filter.1 hmem
    have hget := List.mem_zipIdx_iff_getElem?.1 hzip
    have hfirst := name_notMem_take hnodup hget
    exact of_decide_eq_true hrest ((mem_mtEmitted_iff hget).2 ⟨heq ▸ hn, hfirst⟩)

end Metatup
