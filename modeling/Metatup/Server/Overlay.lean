import Metatup.Lib.Keyed
import Metatup.Server.Fuse

/-!
# The tree that a job sees

The mappings and temporary directories of a job, laid over the real files.

* `overlay`: the tree that the lists stand for.
* `Kept`: the invariant of the lists.
* `Kept.view_eq`: what `tup_fs_getattr` answers on a regular path.
* `Kept.add_dir`, `Kept.move_dir`, `Kept.add_map`, `Kept.drop_map`, `Kept.move_map`, `Kept.edit_tmp`: the
  tree after a change of the lists.
-/

namespace Metatup

open Lib FileTree

/-! ### Paths and files -/

/-- The tree that the job sees: what `tup_fs_getattr` answers. -/
def view (host : Host) (n : ℕ) (s : FuseState) (p : List PathName) : Option (Item Content) :=
  match (tupFsGetattr host s (jobPath n p)).1 with
  | .attr i => some i
  | _ => none

/-- The state of a job that has asked for nothing. -/
def freshJob (filenum : ℕ) : FuseState :=
  { finfo := ⟨[], [], [], [], [], []⟩, tmp := fun _ => none, filenum := filenum }

/-- A path that is treated neither as hidden or ignored nor as something special. -/
structure RegularPath (host : Host) (p : List PathName) : Prop where
  shown : isHidden (pathText p) = false
  minded : ignoreFile (pathText p) = false
  named : strstr (pathText p) ".fuse_hidden".toList = false
  real : getVirtualVar host.top (pathText p) = none

/-- The real tree, in which nothing is the job's own. -/
def realTree (host : Host) : FileTree PathName Content := fun p => (host.look (pathText p)).map (⟨·, false⟩)

/-- The real files of a project. -/
structure HostTree extends Host where
  /-- What has something below it is a directory. -/
  closed : Closed (realTree toHost)

/-! ### The lists of a job -/

namespace FuseState

/-- What the job has made at a path. -/
def made (s : FuseState) (name : Text) : Option (Item Content) :=
  if name ∈ s.finfo.tmpdirList then some .dir
  else (s.finfo.mappingList.find? (·.realname = name)).bind fun map => (s.tmp map.tmpname).map .leaf

/-- The tree that the lists stand for: what the job has made, and the real files. -/
def overlay (host : Host) (s : FuseState) : FileTree PathName Content := fun p =>
  match s.made (pathText p) with
  | some i => some ⟨i, true⟩
  | none => realTree host p

/-- Every entry of the lists is for another path, every mapping for another temporary file, and this
file is there. -/
structure Kept (s : FuseState) : Prop where
  mapped : ∀ map ∈ s.finfo.mappingList, ∃ p, map.realname = pathText p
  named : ∀ dir ∈ s.finfo.tmpdirList, ∃ p, dir = pathText p
  mapping_nodup : (s.finfo.mappingList.map Mapping.realname).Nodup
  tmpdir_nodup : s.finfo.tmpdirList.Nodup
  apart : ∀ map ∈ s.finfo.mappingList, map.realname ∉ s.finfo.tmpdirList
  tmp_nodup : (s.finfo.mappingList.map Mapping.tmpname).Nodup
  present : ∀ map ∈ s.finfo.mappingList, (s.tmp map.tmpname).isSome ∧ map.tmpname < s.filenum

end FuseState

section

variable {host : Host} {n : ℕ} {s s' : FuseState} {p q : List PathName} {map : Mapping} {name : Text}

namespace FuseState

@[simp] theorem findMapping_jobPath (s : FuseState) (n : ℕ) (p : List PathName) :
    s.findMapping (jobPath n p) = s.finfo.mappingList.find? (·.realname = pathText p) := by
  unfold findMapping
  rw [peel_jobPath]

theorem overlay_of_mem (host : Host) (h : pathText p ∈ s.finfo.tmpdirList) : s.overlay host p = some ⟨.dir, true⟩ := by
  unfold overlay made
  rw [if_pos h]

theorem overlay_of_none (hdir : pathText p ∉ s.finfo.tmpdirList)
    (hmap : s.finfo.mappingList.find? (·.realname = pathText p) = none) :
    s.overlay host p = realTree host p := by
  unfold overlay made
  rw [if_neg hdir, hmap]
  rfl

theorem Kept.overlay_of_find (h : Kept s) (host : Host)
    (hmap : s.finfo.mappingList.find? (·.realname = pathText p) = some map) :
    ∃ c, s.tmp map.tmpname = some c ∧ s.overlay host p = some ⟨.leaf c, true⟩ := by
  obtain ⟨hmem, hname⟩ := (find_eq_some_key h.mapping_nodup).1 hmap
  obtain ⟨c, hc⟩ := Option.isSome_iff_exists.1 (h.present map hmem).1
  refine ⟨c, hc, ?_⟩
  unfold overlay made
  rw [if_neg (hname ▸ h.apart map hmem), hmap, Option.bind_some, hc]
  rfl

theorem realTree_not_mine (host : Host) (p : List PathName) (i : Item Content) :
    realTree host p ≠ some ⟨i, true⟩ := by
  unfold realTree
  intro h
  obtain ⟨j, -, hj⟩ := Option.map_eq_some_iff.1 h
  cases hj

/-- The directories of the job in the tree. -/
theorem Kept.overlay_dir_iff (h : Kept s) (host : Host) :
    s.overlay host p = some ⟨.dir, true⟩ ↔ pathText p ∈ s.finfo.tmpdirList := by
  refine ⟨fun htree => ?_, overlay_of_mem host⟩
  by_contra hdir
  rcases hmap : s.finfo.mappingList.find? (·.realname = pathText p) with _ | map
  · exact realTree_not_mine host p _ (overlay_of_none hdir hmap ▸ htree)
  · obtain ⟨c, -, hc⟩ := h.overlay_of_find host hmap
    rw [hc] at htree
    cases htree

/-- The files of the job in the tree. -/
theorem Kept.overlay_leaf_iff (h : Kept s) {c : Content} :
    s.overlay host p = some ⟨.leaf c, true⟩ ↔
      ∃ map ∈ s.finfo.mappingList, map.realname = pathText p ∧ s.tmp map.tmpname = some c := by
  constructor
  · intro htree
    by_cases hdir : pathText p ∈ s.finfo.tmpdirList
    · rw [overlay_of_mem host hdir] at htree
      cases htree
    rcases hmap : s.finfo.mappingList.find? (·.realname = pathText p) with _ | map
    · exact absurd (overlay_of_none hdir hmap ▸ htree) (realTree_not_mine host p _)
    · obtain ⟨c', hc', htree'⟩ := h.overlay_of_find host hmap
      rw [htree'] at htree
      cases htree
      obtain ⟨hmem, hname⟩ := (find_eq_some_key h.mapping_nodup).1 hmap
      exact ⟨map, hmem, hname, hc'⟩
  · rintro ⟨map, hmem, hname, hc⟩
    obtain ⟨c', hc', htree⟩ := h.overlay_of_find host
      ((find_eq_some_key h.mapping_nodup).2 ⟨hmem, hname⟩)
    rw [hc] at hc'
    cases hc'
    exact htree

theorem made_congr (hdir : name ∈ s'.finfo.tmpdirList ↔ name ∈ s.finfo.tmpdirList)
    (hfind : s'.finfo.mappingList.find? (·.realname = name) = s.finfo.mappingList.find? (·.realname = name))
    (htmp : ∀ map ∈ s.finfo.mappingList, map.realname = name → s'.tmp map.tmpname = s.tmp map.tmpname) :
    s'.made name = s.made name := by
  unfold made
  refine if_congr hdir rfl ?_
  rw [hfind]
  apply Option.bind_congr
  intro map hmap
  have hname := of_decide_eq_true (List.find?_some (p := fun map : Mapping => decide (map.realname = name)) hmap)
  rw [htmp map (List.mem_of_find?_eq_some hmap) hname]

/-- States that differ at one path. -/
theorem overlay_eq_update (h : ∀ q, q ≠ p → s'.made (pathText q) = s.made (pathText q)) :
    s'.overlay host = Function.update (s.overlay host) p (s'.overlay host p) := by
  funext q
  by_cases hqp : q = p
  · rw [hqp, Function.update_self]
  · rw [Function.update_of_ne hqp]
    unfold overlay
    rw [h q hqp]

end FuseState

/-! ### Regular paths -/

theorem strstr_mono {path path' sub : Text} (hpre : path <+: path') (h : strstr path' sub = false) :
    strstr path sub = false :=
  decide_eq_false fun hsub => of_decide_eq_false h (hsub.trans hpre.isInfix)

theorem isPrefixOf_mono {path path' sub : Text} (hpre : path <+: path')
    (h : sub.isPrefixOf path' = false) : sub.isPrefixOf path = false := by
  rw [Bool.eq_false_iff, ne_eq, List.isPrefixOf_iff_prefix] at h ⊢
  exact fun hsub => h (hsub.trans hpre)

theorem strstrEnd_eq_none_iff {sub path : Text} : strstrEnd sub path = none ↔ ¬ sub <:+: path := by
  induction path with
  | nil =>
    unfold strstrEnd
    rw [List.infix_nil]
    split <;> simp_all
  | cons c path ih =>
    unfold strstrEnd
    rw [List.infix_cons_iff, not_or, ← ih, ← List.isPrefixOf_iff_prefix]
    split <;> simp_all

theorem getVirtualVar_mono {top path path' : Text} (hpre : path <+: path')
    (h : getVirtualVar top path' = none) : getVirtualVar top path = none := by
  unfold getVirtualVar at h ⊢
  split
  · next htop =>
    rw [if_pos (List.isPrefixOf_iff_prefix.2 ((List.isPrefixOf_iff_prefix.1 htop).trans hpre))] at h
    obtain ⟨rest, rfl⟩ := hpre
    obtain ⟨left, rfl⟩ := List.isPrefixOf_iff_prefix.1 htop
    rw [List.append_assoc, List.drop_left] at h
    rw [List.drop_left]
    split
    · next stripped =>
      rw [List.cons_append] at h
      have hnot := strstrEnd_eq_none_iff.1 h
      exact strstrEnd_eq_none_iff.2 fun hsub => hnot (hsub.trans (List.prefix_append _ _).isInfix)
    · rfl
  · rfl

theorem isCcachePath_mono {path path' : Text} (hpre : path <+: path')
    (h : isCcachePath path' = false) : isCcachePath path = false := by
  simp only [isCcachePath, Bool.or_eq_false_iff] at h ⊢
  obtain ⟨⟨⟨h₁, h₂⟩, h₃⟩, h₄⟩ := h
  exact ⟨⟨⟨strstr_mono hpre h₁, strstr_mono hpre h₂⟩, strstr_mono hpre h₃⟩,
    isPrefixOf_mono hpre h₄⟩

theorem belowText_mono (h : p <+: q) : belowText p <+: belowText q := by
  obtain ⟨r, rfl⟩ := h
  exact ⟨belowText r, (belowText_append p r).symm⟩

theorem pathText_mono (h : p <+: q) : pathText p <+: pathText q := by
  rcases q with _ | ⟨d, q⟩
  · rw [List.prefix_nil.1 h]
  rw [pathText_of_ne_nil (List.cons_ne_nil d q)]
  rcases p with _ | ⟨c, p⟩
  · exact ⟨d.1 ++ belowText q, rfl⟩
  · rw [pathText_of_ne_nil (List.cons_ne_nil c p)]
    exact belowText_mono h

/-- A regular path leads through regular ones. -/
theorem RegularPath.above (h : RegularPath host q) (hpq : p <+: q) : RegularPath host p := by
  have hpre := pathText_mono hpq
  obtain ⟨hshown, hminded, hnamed, hreal⟩ := h
  refine ⟨?_, ?_, strstr_mono hpre hnamed, getVirtualVar_mono hpre hreal⟩
  · simp only [isHidden, Bool.or_eq_false_iff] at hshown ⊢
    obtain ⟨⟨⟨⟨⟨h₁, h₂⟩, h₃⟩, h₄⟩, h₅⟩, h₆⟩ := hshown
    exact ⟨⟨⟨⟨⟨strstr_mono hpre h₁, strstr_mono hpre h₂⟩, strstr_mono hpre h₃⟩,
      strstr_mono hpre h₄⟩, strstr_mono hpre h₅⟩, isCcachePath_mono hpre h₆⟩
  · simp only [ignoreFile, Bool.or_eq_false_iff] at hminded ⊢
    obtain ⟨⟨⟨h₁, h₂⟩, h₃⟩, h₄⟩ := hminded
    exact ⟨⟨⟨isPrefixOf_mono hpre h₁, isPrefixOf_mono hpre h₂⟩, isPrefixOf_mono hpre h₃⟩,
      isCcachePath_mono hpre h₄⟩

theorem RegularPath.dropLast (h : RegularPath host p) : RegularPath host p.dropLast :=
  h.above (List.dropLast_prefix p)

/-- A text that begins with a dot is not cut by the name of the job. -/
theorem strstr_jobPath {sub : Text} (h : strstr (pathText p) ('.' :: sub) = false) :
    strstr (jobPath n p) ('.' :: sub) = false := by
  apply decide_eq_false
  rintro ⟨a, b, hab⟩
  have hjob : '.' ∉ '/' :: tupJob ++ Nat.toDigits 10 n := by
    rw [List.mem_append, not_or]
    refine ⟨by decide, fun hmem => ?_⟩
    exact absurd (Nat.isDigit_of_mem_toDigits (by decide) (by decide) hmem) (by decide)
  have hbelow : ¬ ('.' :: sub) <:+: belowText p := by
    rcases p with _ | ⟨c, p⟩
    · rw [show belowText [] = [] from rfl, List.infix_nil]
      exact List.cons_ne_nil _ _
    · rw [pathText_of_ne_nil (List.cons_ne_nil c p)] at h
      exact of_decide_eq_false h
  unfold jobPath at hab
  rw [List.append_assoc] at hab
  rcases List.append_eq_append_iff.1 hab with ⟨x, hx, hy⟩ | ⟨x, hx, hy⟩
  · rcases x with _ | ⟨c, x⟩
    · exact hbelow ⟨[], b, by simpa using hy⟩
    · rw [List.cons_append, List.cons_append, List.cons.injEq] at hy
      rw [hx, ← hy.1] at hjob
      exact hjob (List.mem_append_right _ List.mem_cons_self)
  · exact hbelow ⟨x, b, by rw [hy]; simp⟩

/-! ### What the job sees -/

theorem head_pathText (p : List PathName) : (pathText p).head? = some '/' := by
  rcases p with _ | ⟨name, p⟩
  · rfl
  · rfl

/-- A path that is not hidden is not in the directory of the mount. -/
theorem RegularPath.not_mnt (h : RegularPath host p) :
    ¬ (pathText p = tupMnt ∨ strstr (pathText p) ('/' :: tupMnt) = true) := by
  rintro (heq | hsub)
  · have hhead := head_pathText p
    rw [heq] at hhead
    exact absurd hhead (by decide)
  · have hshown : strstr (pathText p) "/.metatup".toList = false := by
      have hall := h.shown
      simp only [isHidden, Bool.or_eq_false_iff] at hall
      exact hall.1.1.1.1.2
    refine absurd ?_ (of_decide_eq_false hshown)
    have hpre : "/.metatup".toList <+: '/' :: tupMnt := ⟨"/mnt".toList, by decide⟩
    exact hpre.isInfix.trans (of_decide_eq_true hsub)

/-- What the job sees at a regular path. -/
theorem FuseState.Kept.view_eq (hk : s.Kept) (h : RegularPath host p) :
    view host n s p = (s.overlay host p).map Slot.item := by
  unfold view tupFsGetattr
  simp only [peel_jobPath, FuseState.findMapping_jobPath, if_neg h.not_mnt]
  by_cases hdir : pathText p ∈ s.finfo.tmpdirList
  · rw [if_pos hdir, FuseState.overlay_of_mem host hdir]
    rfl
  rw [if_neg hdir]
  rcases hmap : s.finfo.mappingList.find? (·.realname = pathText p) with _ | map
  · rw [FuseState.overlay_of_none hdir hmap]
    simp only [hmap, h.real, realTree]
    rcases host.look (pathText p) with _ | i
    · rfl
    · rfl
  · obtain ⟨c, hc, htree⟩ := hk.overlay_of_find host hmap
    simp only [hmap, hc, htree]
    rfl

/-! ### Changes of the lists -/

/-- What a failed request leaves as it was. -/
structure Unchanged (s s' : FuseState) : Prop where
  mappingList : s'.finfo.mappingList = s.finfo.mappingList
  tmpdirList : s'.finfo.tmpdirList = s.finfo.tmpdirList
  tmp : s'.tmp = s.tmp

theorem Unchanged.rfl : Unchanged s s := ⟨.refl _, .refl _, .refl _⟩

theorem Unchanged.made_eq (h : Unchanged s s') : s'.made = s.made := by
  funext name
  unfold FuseState.made
  rw [h.mappingList, h.tmpdirList, h.tmp]

theorem Unchanged.overlay_eq (h : Unchanged s s') : s'.overlay host = s.overlay host := by
  funext p
  unfold FuseState.overlay
  rw [h.made_eq]

theorem Unchanged.kept (h : Unchanged s s') (hle : s.filenum ≤ s'.filenum) (hk : s.Kept) : s'.Kept := by
  obtain ⟨h₁, h₂, h₃, h₄, h₅, h₆, h₇⟩ := hk
  constructor
  all_goals simp only [h.mappingList, h.tmpdirList, h.tmp]
  · exact h₁
  · exact h₂
  · exact h₃
  · exact h₄
  · exact h₅
  · exact h₆
  · exact fun map hmap => ⟨(h₇ map hmap).1, (h₇ map hmap).2.trans_le hle⟩

theorem unchanged_handleFile (s : FuseState) (path : Text) (at_ : AccessType) :
    Unchanged s (s.handleFile path at_) ∧ (s.handleFile path at_).filenum = s.filenum := by
  unfold FuseState.handleFile
  split
  · exact ⟨.rfl, rfl⟩
  · cases at_
    all_goals exact ⟨⟨rfl, rfl, rfl⟩, rfl⟩

namespace FuseState

/-- The lists with a new directory. -/
theorem Kept.add_dir (hk : s.Kept) (hdir : pathText p ∉ s.finfo.tmpdirList)
    (hmap : pathText p ∉ s.finfo.mappingList.map Mapping.realname) :
    (s.mapFinfo fun info => { info with tmpdirList := info.tmpdirList ++ [pathText p] }).Kept := by
  refine ⟨hk.mapped, fun dir hmem => ?_, hk.mapping_nodup, ?_, fun map hmem => ?_, hk.tmp_nodup, hk.present⟩
  · rcases List.mem_append.1 hmem with hold | hnew
    · exact hk.named dir hold
    · exact ⟨p, List.mem_singleton.1 hnew⟩
  · exact List.nodup_append.2 ⟨hk.tmpdir_nodup, List.nodup_singleton _, fun a ha b hb heq =>
      hdir (List.mem_singleton.1 hb ▸ heq ▸ ha)⟩
  · intro hin
    rcases List.mem_append.1 hin with hold | hnew
    · exact hk.apart map hmem hold
    · exact hmap (List.mem_singleton.1 hnew ▸ List.mem_map_of_mem hmem)

theorem overlay_add_dir (p : List PathName) :
    (s.mapFinfo fun info => { info with tmpdirList := info.tmpdirList ++ [pathText p] }).overlay host =
      Function.update (s.overlay host) p (some ⟨.dir, true⟩) := by
  have hother : ∀ q, q ≠ p →
      (s.mapFinfo fun info => { info with tmpdirList := info.tmpdirList ++ [pathText p] }).made (pathText q) =
        s.made (pathText q) := by
    intro q hqp
    have hne : pathText q ≠ pathText p := fun heq => hqp (pathText_injective heq)
    have hiff : pathText q ∈ s.finfo.tmpdirList ++ [pathText p] ↔ pathText q ∈ s.finfo.tmpdirList := by
      rw [List.mem_append, List.mem_singleton, or_iff_left hne]
    unfold made
    exact if_congr hiff rfl rfl
  rw [overlay_eq_update hother, overlay_of_mem host]
  exact List.mem_append_right _ (List.mem_singleton_self _)

/-- The lists without a directory. -/
theorem Kept.erase_dir (hk : s.Kept) (name : Text) :
    (s.mapFinfo fun info => { info with tmpdirList := info.tmpdirList.erase name }).Kept :=
  ⟨hk.mapped, fun dir hmem => hk.named dir (List.mem_of_mem_erase hmem), hk.mapping_nodup,
    hk.tmpdir_nodup.erase _, fun map hmem hin => hk.apart map hmem (List.mem_of_mem_erase hin),
    hk.tmp_nodup, hk.present⟩

theorem Kept.overlay_erase_dir (hk : s.Kept) (hdir : pathText p ∈ s.finfo.tmpdirList)
    (hreal : realTree host p = none) :
    (s.mapFinfo fun info => { info with tmpdirList := info.tmpdirList.erase (pathText p) }).overlay host =
      Function.update (s.overlay host) p none := by
  have hother : ∀ q, q ≠ p →
      (s.mapFinfo fun info => { info with tmpdirList := info.tmpdirList.erase (pathText p) }).made
        (pathText q) = s.made (pathText q) := by
    intro q hqp
    have hne : pathText q ≠ pathText p := fun heq => hqp (pathText_injective heq)
    unfold made
    exact if_congr (List.mem_erase_of_ne hne) rfl rfl
  rw [overlay_eq_update hother, overlay_of_none, hreal]
  · exact hk.tmpdir_nodup.not_mem_erase
  · apply find_eq_none_key.2
    intro hmem
    obtain ⟨map, hmem, hname⟩ := List.mem_map.1 hmem
    exact hk.apart map hmem (hname ▸ hdir)

/-- States that differ at two paths, at one of which nothing is left. -/
theorem overlay_eq_move (h : ∀ r, r ≠ p → r ≠ q → s'.made (pathText r) = s.made (pathText r))
    (hp : s'.overlay host p = none) :
    s'.overlay host = Function.update (Function.update (s.overlay host) p none) q (s'.overlay host q) := by
  funext r
  by_cases hrq : r = q
  · rw [hrq, Function.update_self]
  rw [Function.update_of_ne hrq]
  by_cases hrp : r = p
  · rw [hrp, Function.update_self, hp]
  · rw [Function.update_of_ne hrp]
    unfold overlay
    rw [h r hrp hrq]

/-- The lists with a new name for a directory. -/
theorem Kept.move_dir (hk : s.Kept) (host : Host) (hp : pathText p ∈ s.finfo.tmpdirList)
    (hreal : realTree host p = none) (hqdir : pathText q ∉ s.finfo.tmpdirList)
    (hqmap : pathText q ∉ s.finfo.mappingList.map Mapping.realname) :
    let s' := s.mapFinfo fun info =>
      { info with tmpdirList := info.tmpdirList.replace (pathText p) (pathText q) }
    s'.Kept ∧ s'.overlay host =
      Function.update (Function.update (s.overlay host) p none) q (some ⟨.dir, true⟩) := by
  intro s'
  have hdirs : s'.finfo.tmpdirList =
      s.finfo.tmpdirList.map fun dir => if dir = pathText p then pathText q else dir :=
    replace_eq_map hk.tmpdir_nodup _ _
  have hmem : ∀ name, name ∈ s'.finfo.tmpdirList ↔
      name = pathText q ∨ name ≠ pathText p ∧ name ∈ s.finfo.tmpdirList := by
    intro name
    rw [hdirs, List.mem_map]
    constructor
    · rintro ⟨dir, hdir, rfl⟩
      by_cases heq : dir = pathText p
      · exact .inl (if_pos heq)
      · rw [if_neg heq]
        exact .inr ⟨heq, hdir⟩
    · rintro (rfl | ⟨hne, hold⟩)
      · exact ⟨pathText p, hp, if_pos rfl⟩
      · exact ⟨name, hold, if_neg hne⟩
  have hne : p ≠ q := by
    rintro rfl
    exact hqdir hp
  constructor
  · refine ⟨hk.mapped, fun dir hdir => ?_, hk.mapping_nodup, ?_, fun map hmap hdir => ?_, hk.tmp_nodup,
      hk.present⟩
    · rcases (hmem dir).1 hdir with rfl | ⟨-, hold⟩
      · exact ⟨q, rfl⟩
      · exact hk.named dir hold
    · rw [hdirs]
      apply hk.tmpdir_nodup.map_on
      intro a ha b hb heq
      split_ifs at heq with hap hbp hbp
      · rw [hap, hbp]
      · exact absurd (heq ▸ hb) hqdir
      · exact absurd (heq ▸ ha) hqdir
      · exact heq
    · rcases (hmem map.realname).1 hdir with heq | ⟨-, hold⟩
      · exact hqmap (heq ▸ List.mem_map_of_mem hmap)
      · exact hk.apart map hmap hold
  · have hgone : s'.overlay host p = none := by
      rw [overlay_of_none, hreal]
      · rw [hmem, not_or, not_and]
        exact ⟨fun heq => hne (pathText_injective heq), fun h => absurd rfl h⟩
      · apply find_eq_none_key.2
        intro hmap
        obtain ⟨map, hmap, hname⟩ := List.mem_map.1 hmap
        exact hk.apart map hmap (hname ▸ hp)
    rw [@overlay_eq_move _ s s' p q _ hgone, overlay_of_mem host ((hmem _).2 (.inl rfl))]
    intro r hrp hrq
    have hiff : pathText r ∈ s'.finfo.tmpdirList ↔ pathText r ∈ s.finfo.tmpdirList := by
      rw [hmem, or_iff_right fun heq => hrq (pathText_injective heq),
        and_iff_right fun heq => hrp (pathText_injective heq)]
    unfold made
    exact if_congr hiff rfl rfl

/-- The lists with a mapping to a new temporary file. -/
theorem Kept.add_map (hk : s.Kept) (host : Host) {c : Content}
    (hmaps : s'.finfo.mappingList = s.finfo.mappingList ++ [⟨pathText p, s.filenum⟩])
    (hdirs : s'.finfo.tmpdirList = s.finfo.tmpdirList)
    (htmp : s'.tmp = Function.update s.tmp s.filenum (some c)) (hnum : s'.filenum = s.filenum + 1)
    (hpdir : pathText p ∉ s.finfo.tmpdirList)
    (hpmap : pathText p ∉ s.finfo.mappingList.map Mapping.realname) :
    s'.Kept ∧ s'.overlay host = Function.update (s.overlay host) p (some ⟨.leaf c, true⟩) := by
  have hold : ∀ map ∈ s.finfo.mappingList, s'.tmp map.tmpname = s.tmp map.tmpname := by
    intro map hmem
    rw [htmp, Function.update_of_ne (hk.present map hmem).2.ne]
  have hk' : s'.Kept := by
    constructor
    · intro map hmem
      rw [hmaps, List.mem_append, List.mem_singleton] at hmem
      rcases hmem with hmem | rfl
      · exact hk.mapped map hmem
      · exact ⟨p, rfl⟩
    · rw [hdirs]
      exact hk.named
    · rw [hmaps, List.map_append]
      refine List.nodup_append.2 ⟨hk.mapping_nodup, List.nodup_singleton _, fun a ha b hb heq => hpmap ?_⟩
      rwa [heq, List.mem_singleton.1 hb] at ha
    · rw [hdirs]
      exact hk.tmpdir_nodup
    · intro map hmem
      rw [hdirs]
      rw [hmaps, List.mem_append, List.mem_singleton] at hmem
      rcases hmem with hmem | rfl
      · exact hk.apart map hmem
      · exact hpdir
    · rw [hmaps, List.map_append]
      refine List.nodup_append.2 ⟨hk.tmp_nodup, List.nodup_singleton _, fun a ha b hb heq => ?_⟩
      obtain ⟨map, hmem, rfl⟩ := List.mem_map.1 ha
      exact (hk.present map hmem).2.ne (heq.trans (List.mem_singleton.1 hb))
    · intro map hmem
      rw [hmaps, List.mem_append, List.mem_singleton] at hmem
      rcases hmem with hmem | rfl
      · rw [hold map hmem, hnum]
        exact ⟨(hk.present map hmem).1, (hk.present map hmem).2.trans (Nat.lt_succ_self _)⟩
      · rw [htmp, hnum, Function.update_self]
        exact ⟨rfl, Nat.lt_succ_self _⟩
  refine ⟨hk', ?_⟩
  have hother : ∀ q, q ≠ p → s'.made (pathText q) = s.made (pathText q) := by
    intro q hqp
    have hfind : s'.finfo.mappingList.find? (·.realname = pathText q) =
        s.finfo.mappingList.find? (·.realname = pathText q) := by
      have hne : decide (pathText p = pathText q) = false :=
        decide_eq_false fun heq => hqp (pathText_injective heq.symm)
      rw [hmaps, List.find?_append, List.find?_singleton, hne]
      exact Option.or_none
    exact made_congr (by rw [hdirs]) hfind fun map hmem _ => hold map hmem
  rw [overlay_eq_update hother]
  congr 1
  refine hk'.overlay_leaf_iff.2 ⟨⟨pathText p, s.filenum⟩, ?_, rfl, ?_⟩
  · rw [hmaps]
    exact List.mem_append_right _ (List.mem_singleton_self _)
  · rw [htmp, Function.update_self]

/-- The lists without a mapping, whose temporary file may be gone. -/
theorem Kept.drop_map (hk : s.Kept) (host : Host) (hmem : map ∈ s.finfo.mappingList)
    (hname : map.realname = pathText p)
    (hmaps : s'.finfo.mappingList = s.finfo.mappingList.filter (·.realname ≠ pathText p))
    (hdirs : s'.finfo.tmpdirList = s.finfo.tmpdirList)
    (htmp : ∀ k, k ≠ map.tmpname → s'.tmp k = s.tmp k) (hnum : s.filenum ≤ s'.filenum)
    (hreal : realTree host p = none) :
    s'.Kept ∧ s'.overlay host = Function.update (s.overlay host) p none := by
  have hsub : s'.finfo.mappingList.Sublist s.finfo.mappingList := hmaps ▸ List.filter_sublist
  have hold : ∀ other ∈ s.finfo.mappingList, other.realname ≠ pathText p →
      s'.tmp other.tmpname = s.tmp other.tmpname := by
    intro other hother hne
    apply htmp
    intro heq
    have hsame := List.inj_on_of_nodup_map hk.tmp_nodup hother hmem heq
    exact hne (hsame ▸ hname)
  constructor
  · constructor
    · exact fun other hother => hk.mapped other (hsub.subset hother)
    · rw [hdirs]
      exact hk.named
    · exact hk.mapping_nodup.sublist (hsub.map _)
    · rw [hdirs]
      exact hk.tmpdir_nodup
    · rw [hdirs]
      exact fun other hother => hk.apart other (hsub.subset hother)
    · exact hk.tmp_nodup.sublist (hsub.map _)
    · intro other hother
      rw [hmaps, List.mem_filter] at hother
      obtain ⟨hother, hne⟩ := hother
      rw [hold other hother (of_decide_eq_true hne)]
      exact ⟨(hk.present other hother).1, (hk.present other hother).2.trans_le hnum⟩
  · have hother : ∀ q, q ≠ p → s'.made (pathText q) = s.made (pathText q) := by
      intro q hqp
      have hne : pathText q ≠ pathText p := fun heq => hqp (pathText_injective heq)
      refine made_congr (by rw [hdirs]) ?_ fun other hmem' heq => hold other hmem' (heq ▸ hne)
      rw [hmaps, List.find?_filter]
      congr 1
      funext other
      by_cases heq : other.realname = pathText q
      · rw [decide_eq_true heq, heq, decide_eq_true hne]
        rfl
      · rw [decide_eq_false heq]
        exact decide_eq_false fun h => Bool.false_ne_true h.2
    rw [overlay_eq_update hother, overlay_of_none, hreal]
    · rw [hdirs, ← hname]
      exact hk.apart map hmem
    · rw [hmaps, find_eq_none_key]
      intro hin
      obtain ⟨other, hother, heq⟩ := List.mem_map.1 hin
      exact of_decide_eq_true (List.mem_filter.1 hother).2 heq

/-- The lists with a new name for a mapping. -/
theorem Kept.move_map (hk : s.Kept) (host : Host) {c : Content} (hmem : map ∈ s.finfo.mappingList)
    (hname : map.realname = pathText p) (hc : s.tmp map.tmpname = some c)
    (hmaps : s'.finfo.mappingList = s.finfo.mappingList.map fun other =>
      if other.realname = pathText p then { other with realname := pathText q } else other)
    (hdirs : s'.finfo.tmpdirList = s.finfo.tmpdirList) (htmp : s'.tmp = s.tmp)
    (hnum : s.filenum ≤ s'.filenum) (hreal : realTree host p = none)
    (hqdir : pathText q ∉ s.finfo.tmpdirList)
    (hqmap : pathText q ∉ s.finfo.mappingList.map Mapping.realname) :
    s'.Kept ∧ s'.overlay host =
      Function.update (Function.update (s.overlay host) p none) q (some ⟨.leaf c, true⟩) := by
  have hne : pathText p ≠ pathText q := by
    intro heq
    exact hqmap (heq ▸ hname ▸ List.mem_map_of_mem hmem)
  have hnames : s'.finfo.mappingList.map Mapping.realname =
      (s.finfo.mappingList.map Mapping.realname).map fun name =>
        if name = pathText p then pathText q else name := by
    rw [hmaps, List.map_map, List.map_map]
    refine List.map_congr_left fun other _ => ?_
    simp only [Function.comp_apply]
    split <;> rfl
  have htmps : s'.finfo.mappingList.map Mapping.tmpname = s.finfo.mappingList.map Mapping.tmpname := by
    rw [hmaps, List.map_map]
    refine List.map_congr_left fun other _ => ?_
    simp only [Function.comp_apply]
    split <;> rfl
  have hin : ∀ other ∈ s'.finfo.mappingList, other.realname = pathText q ∨ other ∈ s.finfo.mappingList ∧
      other.realname ≠ pathText p := by
    intro other hother
    rw [hmaps] at hother
    obtain ⟨old, hold, rfl⟩ := List.mem_map.1 hother
    by_cases heq : old.realname = pathText p
    · rw [if_pos heq]
      exact .inl rfl
    · rw [if_neg heq]
      exact .inr ⟨hold, heq⟩
  have hk' : s'.Kept := by
    constructor
    · intro other hother
      rcases hin other hother with heq | ⟨hold, -⟩
      · exact ⟨q, heq⟩
      · exact hk.mapped other hold
    · rw [hdirs]
      exact hk.named
    · rw [hnames]
      apply hk.mapping_nodup.map_on
      intro a ha b hb heq
      split_ifs at heq with hap hbp hbp
      · rw [hap, hbp]
      · exact absurd (heq ▸ hb) hqmap
      · exact absurd (heq ▸ ha) hqmap
      · exact heq
    · rw [hdirs]
      exact hk.tmpdir_nodup
    · rw [hdirs]
      intro other hother
      rcases hin other hother with heq | ⟨hold, -⟩
      · exact heq ▸ hqdir
      · exact hk.apart other hold
    · rw [htmps]
      exact hk.tmp_nodup
    · intro other hother
      rw [htmp]
      have htmpmem : other.tmpname ∈ s.finfo.mappingList.map Mapping.tmpname :=
        htmps ▸ List.mem_map_of_mem hother
      obtain ⟨old, hold, heq⟩ := List.mem_map.1 htmpmem
      rw [← heq]
      exact ⟨(hk.present old hold).1, (hk.present old hold).2.trans_le hnum⟩
  refine ⟨hk', ?_⟩
  have hgone : s'.overlay host p = none := by
    rw [overlay_of_none, hreal]
    · rw [hdirs, ← hname]
      exact hk.apart map hmem
    · rw [find_eq_none_key]
      intro hmap
      obtain ⟨other, hother, heq⟩ := List.mem_map.1 hmap
      rcases hin other hother with hq | ⟨-, hp⟩
      · exact hne (heq.symm.trans hq)
      · exact hp heq
  have hnew : s'.overlay host q = some ⟨.leaf c, true⟩ := by
    refine hk'.overlay_leaf_iff.2 ⟨{ map with realname := pathText q }, ?_, rfl, htmp ▸ hc⟩
    rw [hmaps]
    exact List.mem_map.2 ⟨map, hmem, if_pos hname⟩
  rw [@overlay_eq_move _ s s' p q _ hgone, hnew]
  intro r hrp hrq
  have hnep : pathText p ≠ pathText r := fun heq => hrp (pathText_injective heq).symm
  have hneq : pathText q ≠ pathText r := fun heq => hrq (pathText_injective heq).symm
  refine made_congr (by rw [hdirs]) ?_ fun other _ _ => by rw [htmp]
  apply Option.ext
  intro other
  rw [find_eq_some_key hk'.mapping_nodup, find_eq_some_key hk.mapping_nodup]
  constructor
  · rintro ⟨hother, heq⟩
    rcases hin other hother with hq | ⟨hold, -⟩
    · exact absurd (hq.symm.trans heq) hneq
    · exact ⟨hold, heq⟩
  · rintro ⟨hother, heq⟩
    refine ⟨?_, heq⟩
    rw [hmaps]
    exact List.mem_map.2 ⟨other, hother, if_neg fun hp => hnep (hp.symm.trans heq)⟩

/-- The lists with another content of a temporary file. -/
theorem Kept.edit_tmp (hk : s.Kept) (host : Host) {c : Content} (hmem : map ∈ s.finfo.mappingList)
    (hname : map.realname = pathText p) (hmaps : s'.finfo.mappingList = s.finfo.mappingList)
    (hdirs : s'.finfo.tmpdirList = s.finfo.tmpdirList)
    (htmp : s'.tmp = Function.update s.tmp map.tmpname (some c)) (hnum : s.filenum ≤ s'.filenum) :
    s'.Kept ∧ s'.overlay host = Function.update (s.overlay host) p (some ⟨.leaf c, true⟩) := by
  have hold : ∀ other ∈ s.finfo.mappingList, other.realname ≠ pathText p →
      s'.tmp other.tmpname = s.tmp other.tmpname := by
    intro other hother hne
    rw [htmp, Function.update_of_ne]
    intro heq
    exact hne (List.inj_on_of_nodup_map hk.tmp_nodup hother hmem heq ▸ hname)
  have hk' : s'.Kept := by
    obtain ⟨h₁, h₂, h₃, h₄, h₅, h₆, h₇⟩ := hk
    constructor
    all_goals simp only [hmaps, hdirs]
    · exact h₁
    · exact h₂
    · exact h₃
    · exact h₄
    · exact h₅
    · exact h₆
    · intro other hother
      refine ⟨?_, (h₇ other hother).2.trans_le hnum⟩
      by_cases heq : other.tmpname = map.tmpname
      · rw [htmp, heq, Function.update_self]
        rfl
      · rw [htmp, Function.update_of_ne heq]
        exact (h₇ other hother).1
  refine ⟨hk', ?_⟩
  have hother : ∀ q, q ≠ p → s'.made (pathText q) = s.made (pathText q) := by
    intro q hqp
    have hne : pathText q ≠ pathText p := fun heq => hqp (pathText_injective heq)
    exact made_congr (by rw [hdirs]) (by rw [hmaps]) fun other hmem' heq => hold other hmem' (heq ▸ hne)
  rw [overlay_eq_update hother]
  congr 1
  refine hk'.overlay_leaf_iff.2 ⟨map, hmaps ▸ hmem, hname, ?_⟩
  rw [htmp, Function.update_self]

end FuseState

end

end Metatup
