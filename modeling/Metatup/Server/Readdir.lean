import Metatup.Server.JobTree

/-!
# Listing a directory

What a job sees when it lists a directory is put together from three places: the files it has made, the
directories it has made, and the real directory, if there is one.

* `tupFsReaddir`: the handler.
* `readdir_lists_tree`: the list has each name of the directory once, and listing leaves the files of the
  job alone.
-/

namespace Metatup

open Lib FileTree

/-- The name of a path directly in a directory. -/
def childName (dir path : Text) : Option Text :=
  if (dir ++ ['/']).isPrefixOf path then
    let realname := path.drop (dir.length + 1)
    if '/' ∈ realname then none else some realname
  else none

/-- The name under which a mapping is listed. A path that begins with a dot is not cut. -/
def mappingName (peeled : Text) (map : Mapping) : Option Text :=
  if peeled.head? = some '.' then (if '/' ∈ map.realname then none else some map.realname)
  else childName peeled map.realname

/-- Source: `fuse_fs.c` `fill_actual_directory`; `entries` are the names in a real directory. -/
def fillActualDirectory (entries : Text → List Text) (peeled : Text) : List Text :=
  (entries peeled).filter (· ≠ ".metatup".toList)

/-- The names that are listed, or none when a temporary file is missing. What is listed of a directory
that the job has made is only what the job has made in it.
Source: `fuse_fs.c` `tup_fs_readdir` -/
def tupFsReaddir (entries : Text → List Text) (s : FuseState) (path : Text) :
    Option (List Text) × FuseState :=
  let peeled := peel path
  let maps := s.finfo.mappingList.filter fun map => (mappingName peeled map).isSome
  if maps.any fun map => (s.tmp map.tmpname).isNone then (none, s)
  else
    let names := maps.filterMap (mappingName peeled) ++ s.finfo.tmpdirList.filterMap (childName peeled)
    if peeled ∈ s.finfo.tmpdirList then (some names, s)
    else (some (names ++ fillActualDirectory entries peeled), s.handleFile path .read)

/-- What `opendir` and `readdir` give of the real files, each name once. Those of the directory itself and
of the one above it may be among them. -/
structure ListsReal (host : Host) (entries : Text → List Text) : Prop where
  nodup : ∀ path, (entries path).Nodup
  mem : ∀ p (c : PathName), c.1 ∈ entries (pathText p) ↔ (host.look (pathText (p ++ [c]))).isSome

section

variable {host : Host} {n : ℕ} {s : FuseState} {p q : List PathName} {name : Text}
  {entries : Text → List Text}

theorem childName_eq_some (hp : p ≠ []) :
    childName (pathText p) (pathText q) = some name ↔ ∃ c : PathName, c.1 = name ∧ q = p ++ [c] := by
  have hpre := isBelow_iff (q := q) hp
  unfold isBelow at hpre
  unfold childName
  constructor
  · intro h
    split_ifs at h with hbelow
    simp only [Option.ite_none_left_eq_some, Option.some.injEq] at h
    obtain ⟨hsep, rfl⟩ := h
    obtain ⟨⟨t, rfl⟩, hne⟩ := hpre.1 hbelow
    have hq : pathText (p ++ t) = belowText p ++ belowText t := by
      rw [pathText_of_ne_nil (by simp [hp]), belowText_append]
    rw [hq, pathText_of_ne_nil hp] at hsep ⊢
    rcases t with _ | ⟨c, t⟩
    · simp at hne
    have hdrop : (belowText p ++ belowText (c :: t)).drop ((belowText p).length + 1) = c.1 ++ belowText t := by
      rw [List.drop_append, belowText_cons]
      simp
    rw [hdrop] at hsep ⊢
    rcases t with _ | ⟨d, t⟩
    · exact ⟨c, (List.append_nil c.1).symm, rfl⟩
    · rw [belowText_cons] at hsep
      simp at hsep
  · rintro ⟨c, rfl, rfl⟩
    have hq : pathText (p ++ [c]) = pathText p ++ '/' :: c.1 := by
      rw [pathText_of_ne_nil (by simp), belowText_concat, pathText_of_ne_nil hp]
    have hbelow := hpre.2 (FileTree.below_append p (List.cons_ne_nil c []))
    rw [if_pos hbelow, hq]
    have hdrop : (pathText p ++ '/' :: c.1).drop ((pathText p).length + 1) = c.1 := by
      simp [List.drop_append]
    rw [hdrop, if_neg c.2.1.no_sep]

theorem mappingName_pathText (map : Mapping) :
    mappingName (pathText p) map = childName (pathText p) map.realname := by
  unfold mappingName
  rw [if_neg]
  rw [head_pathText]
  simp

theorem mem_filterMap_childName {l : List Text} (hp : p ≠ []) (hl : ∀ path ∈ l, ∃ q, path = pathText q) :
    name ∈ l.filterMap (childName (pathText p)) ↔
      ∃ c : PathName, c.1 = name ∧ pathText (p ++ [c]) ∈ l := by
  rw [List.mem_filterMap]
  constructor
  · rintro ⟨path, hpath, hname⟩
    obtain ⟨q, rfl⟩ := hl path hpath
    obtain ⟨c, hc, rfl⟩ := (childName_eq_some hp).1 hname
    exact ⟨c, hc, hpath⟩
  · rintro ⟨c, hc, hpath⟩
    exact ⟨_, hpath, (childName_eq_some hp).2 ⟨c, hc, rfl⟩⟩

/-- Different paths give different names. -/
theorem nodup_filterMap_childName {l : List Text} (hp : p ≠ []) (hnodup : l.Nodup)
    (hl : ∀ path ∈ l, ∃ q, path = pathText q) : (l.filterMap (childName (pathText p))).Nodup := by
  refine List.pairwise_filterMap.2 (List.Pairwise.imp_of_mem ?_ hnodup)
  intro a b ha hb hne x hx y hy hxy
  obtain ⟨q, rfl⟩ := hl a ha
  obtain ⟨r, rfl⟩ := hl b hb
  obtain ⟨c, rfl, rfl⟩ := (childName_eq_some hp).1 hx
  obtain ⟨d, rfl, rfl⟩ := (childName_eq_some hp).1 hy
  rw [Subtype.ext hxy] at hne
  exact hne rfl

namespace FuseState

/-- The names of what the job has made in a directory. -/
def madeNames (s : FuseState) (p : List PathName) : List Text :=
  (s.finfo.mappingList.map Mapping.realname).filterMap (childName (pathText p)) ++
    s.finfo.tmpdirList.filterMap (childName (pathText p))

theorem Kept.mapped_named (hk : s.Kept) :
    ∀ path ∈ s.finfo.mappingList.map Mapping.realname, ∃ q, path = pathText q := by
  intro path hpath
  obtain ⟨map, hmem, rfl⟩ := List.mem_map.1 hpath
  exact hk.mapped map hmem

theorem realTree_eq_none : realTree host p = none ↔ host.look (pathText p) = none := by
  unfold realTree
  rw [Option.map_eq_none_iff]

theorem Kept.mem_madeNames (hk : s.Kept) (hp : p ≠ []) : name ∈ s.madeNames p ↔
    ∃ c : PathName, c.1 = name ∧ (pathText (p ++ [c]) ∈ s.finfo.mappingList.map Mapping.realname ∨
      pathText (p ++ [c]) ∈ s.finfo.tmpdirList) := by
  unfold madeNames
  rw [List.mem_append, mem_filterMap_childName hp hk.mapped_named, mem_filterMap_childName hp hk.named,
    ← exists_or]
  simp only [and_or_left]

theorem Kept.nodup_madeNames (hk : s.Kept) (hp : p ≠ []) : (s.madeNames p).Nodup := by
  refine List.nodup_append.2 ⟨nodup_filterMap_childName hp hk.mapping_nodup hk.mapped_named,
    nodup_filterMap_childName hp hk.tmpdir_nodup hk.named, ?_⟩
  rintro a ha _ hb rfl
  obtain ⟨c, hc, hmap⟩ := (mem_filterMap_childName hp hk.mapped_named).1 ha
  obtain ⟨d, hd, hdir⟩ := (mem_filterMap_childName hp hk.named).1 hb
  obtain rfl := Subtype.ext (hc.trans hd.symm)
  obtain ⟨map, hmem, hname⟩ := List.mem_map.1 hmap
  exact hk.apart map hmem (hname ▸ hdir)

/-- What the job has made in a directory is its own in the tree, and is not in the real directory. -/
theorem Kept.look_of_madeNames (hk : s.Kept) {may : List PathName → Bool}
    (hg : Grown may (realTree host) (s.overlay host)) {c : PathName} (hp : p ≠ [])
    (hc : c.1 ∈ s.madeNames p) : s.overlay host (p ++ [c]) ≠ none ∧ host.look (pathText (p ++ [c])) = none := by
  obtain ⟨d, hd, hmade⟩ := (hk.mem_madeNames hp).1 hc
  obtain rfl := Subtype.ext hd
  have hmine : ∃ i, s.overlay host (p ++ [d]) = some ⟨i, true⟩ := by
    rcases hmade with hmap | hdir
    · obtain ⟨map, hmem, hname⟩ := List.mem_map.1 hmap
      obtain ⟨c, -, htree⟩ := hk.overlay_of_find host ((find_eq_some_key hk.mapping_nodup).2 ⟨hmem, hname⟩)
      exact ⟨_, htree⟩
    · exact ⟨_, overlay_of_mem host hdir⟩
  obtain ⟨i, hi⟩ := hmine
  have hbase := hg.base_none_of_mine hi (realTree_not_mine host _)
  exact ⟨by rw [hi]; exact Option.some_ne_none _, realTree_eq_none.1 hbase⟩

/-- What is in the tree and not the job's own is in the real directory. -/
theorem Kept.look_of_overlay (hk : s.Kept) {c : PathName} (hp : p ≠ []) (hc : c.1 ∉ s.madeNames p) :
    s.overlay host (p ++ [c]) = realTree host (p ++ [c]) := by
  rw [hk.mem_madeNames hp] at hc
  have hnot : ¬ (pathText (p ++ [c]) ∈ s.finfo.mappingList.map Mapping.realname ∨
      pathText (p ++ [c]) ∈ s.finfo.tmpdirList) := fun h => hc ⟨c, rfl, h⟩
  rw [not_or] at hnot
  refine overlay_of_none hnot.2 ?_
  rw [List.find?_eq_none]
  intro map hmem hname
  exact hnot.1 (List.mem_map.2 ⟨map, hmem, by simpa using hname⟩)

end FuseState

/-- What is listed when the lists are kept. -/
theorem readdir_eq (hk : s.Kept) (entries : Text → List Text) (n : ℕ) (p : List PathName) :
    tupFsReaddir entries s (jobPath n p) =
      if pathText p ∈ s.finfo.tmpdirList then (some (s.madeNames p), s)
      else (some (s.madeNames p ++ fillActualDirectory entries (pathText p)),
        s.handleFile (jobPath n p) .read) := by
  unfold tupFsReaddir
  have hmaps : (s.finfo.mappingList.filter fun map => (mappingName (pathText p) map).isSome).filterMap
      (mappingName (pathText p)) =
        (s.finfo.mappingList.map Mapping.realname).filterMap (childName (pathText p)) := by
    rw [List.filterMap_filter, List.filterMap_map]
    refine List.filterMap_congr fun map _ => ?_
    rw [mappingName_pathText]
    show _ = childName (pathText p) map.realname
    cases childName (pathText p) map.realname <;> rfl
  have hpresent : ¬ (s.finfo.mappingList.filter fun map => (mappingName (pathText p) map).isSome).any
      (fun map => (s.tmp map.tmpname).isNone) := by
    rw [List.any_eq_true]
    rintro ⟨map, hmem, hnone⟩
    have hsome := (hk.present map (List.mem_filter.1 hmem).1).1
    rw [Option.isNone_iff_eq_none] at hnone
    rw [hnone] at hsome
    cases hsome
  simp only [peel_jobPath]
  rw [if_neg hpresent, hmaps]
  rfl

end

/-- In a run of requests that fit, a directory below the root is listed as the ordinary tree has it after
the same requests, each name once, and the job's files are as before. The directory of tup itself is not
listed. -/
theorem readdir_lists_tree (host : HostTree) {n k : ℕ} {rs : List JobRequest} {s : FuseState}
    (hrun : Run (FitStep host.toHost n) (freshJob k) rs s) {entries : Text → List Text}
    (hreal : ListsReal host.toHost entries) {p : List PathName} (hp : p ≠ []) :
    ∃ names s', tupFsReaddir entries s (jobPath n p) = (some names, s') ∧ names.Nodup ∧
      (∀ c : PathName, c.1 ≠ ".metatup".toList →
        (c.1 ∈ names ↔ treeAfter host.toHost rs (p ++ [c]) ≠ none)) ∧
      Unchanged s s' := by
  obtain ⟨hk, htree, hg⟩ := lists_of_run host hrun
  rw [← htree]
  have hown : ∀ c : PathName, c.1 ∈ s.madeNames p → s.overlay host.toHost (p ++ [c]) ≠ none :=
    fun c hc => (hk.look_of_madeNames hg hp hc).1
  rw [readdir_eq hk]
  by_cases hmade : pathText p ∈ s.finfo.tmpdirList
  · rw [if_pos hmade]
    refine ⟨_, _, rfl, hk.nodup_madeNames hp, fun c _ => ⟨hown c, fun hc => ?_⟩, .rfl⟩
    by_contra hnot
    rw [hk.look_of_overlay hp hnot] at hc
    -- nothing real is below a directory of the job
    have hbase := hg.base_none_of_mine (FuseState.overlay_of_mem host.toHost hmade)
      (FuseState.realTree_not_mine host.toHost _)
    exact hc (host.closed.eq_none_of_none hbase (List.prefix_append p [c]))
  · rw [if_neg hmade]
    refine ⟨_, _, rfl, ?_, fun c hc => ?_, (unchanged_handleFile _ _ _).1⟩
    · refine List.nodup_append.2 ⟨hk.nodup_madeNames hp, (hreal.nodup _).filter _, ?_⟩
      rintro a ha _ hb rfl
      have hlisted := (List.mem_filter.1 hb).1
      obtain ⟨c, rfl, -⟩ := (hk.mem_madeNames hp).1 ha
      have hlook := (hreal.mem p c).1 hlisted
      rw [(hk.look_of_madeNames hg hp ha).2] at hlook
      cases hlook
    · unfold fillActualDirectory
      rw [List.mem_append, List.mem_filter, hreal.mem]
      constructor
      · rintro (hown' | ⟨hlook, -⟩)
        · exact hown c hown'
        · intro hnone
          rw [FuseState.realTree_eq_none.1 (hg.base_none hnone)] at hlook
          cases hlook
      · intro hsome
        by_cases hown' : c.1 ∈ s.madeNames p
        · exact .inl hown'
        · rw [hk.look_of_overlay hp hown'] at hsome
          refine .inr ⟨?_, decide_eq_true hc⟩
          rwa [Ne, FuseState.realTree_eq_none, ← Ne, Option.ne_none_iff_isSome] at hsome

/-- What is in the directories of a project whose real tree is the root directory. -/
theorem listsReal_rootHost : ListsReal rootHost fun _ => [] := by
  refine ⟨fun _ => .nil, fun p c => ?_⟩
  have hne : pathText (p ++ [c]) ≠ ['/'] := by
    intro heq
    have hnil := @pathText_injective (p ++ [c]) [] heq
    simp at hnil
  simp [rootHost, hne]

/-- A job that makes a directory and a file in it lists the file. -/
theorem readdir_lists_tree_make : ∃ names s', tupFsReaddir (fun _ => [])
    (serveAll rootHost 1 (freshJob 0) [.mkdir pathD, .create pathDF .reg true]) (jobPath 1 pathD) =
      (some names, s') ∧ names.Nodup ∧
      (∀ c : PathName, c.1 ≠ ".metatup".toList → (c.1 ∈ names ↔
        treeAfter rootHost [.mkdir pathD, .create pathDF .reg true] (pathD ++ [c]) ≠ none)) ∧
      Unchanged (serveAll rootHost 1 (freshJob 0) [.mkdir pathD, .create pathDF .reg true]) s' :=
  readdir_lists_tree ⟨rootHost, closed_rootHost⟩ run_make_dir listsReal_rootHost (by decide)

end Metatup
