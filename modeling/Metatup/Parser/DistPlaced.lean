import Metatup.Lib.Merge
import Metatup.Parser.DistBlock

/-!
# Where the entries of a dist block come to be

A block keeps its destinations distinct and canonical, and the paths below a root keep them apart. An
empty prefix and an empty root are taken for `/`, and a destination is read as a list of paths.

* `CanonicalManifest`: what the entries of a block are.
* `DistBlockOk`: what should come out of a block.
* `distBlock_iff`: it does so exactly when no prefix or root is empty and every path is plain.
-/

namespace Metatup

open Lib

/-! ### What should come out -/

/-- An absolute path in canonical form. -/
def CanonicalDest (dest : Bytes) : Prop :=
  ∃ names, (∀ n ∈ names, IsName n ∧ n ≠ ['.'] ∧ n ≠ dotdot) ∧ chars dest = writeParts true names

/-- The path is the root, or names below it. -/
def AtOrBelow (root path : Text) : Prop :=
  isFullPath path = isFullPath root ∧ ∃ names, dotdot ∉ names ∧ remaining path = remaining root ++ names

/-- The entries that a block can have. -/
structure CanonicalManifest (dm : DistManifest) : Prop extends ManifestOk dm where
  canonical : ∀ e ∈ dm, CanonicalDest e.dest

/-- The values that a block mounts, each with its prefix. -/
def distMounts (ev : DistEval) (text : Bytes) : List (CStr × CStr) :=
  ((distBody text).toList.flatMap distStmts).filterMap (distMount ev)

/-- A dist value of a block that mounts such values. -/
inductive BuiltDist : Bytes → Prop
  | block {ev text spec} : parseDistBlock ev text = some spec →
      (∀ m ∈ distMounts ev text, BuiltDist m.1) → BuiltDist spec

/-- The path of an entry below a root. -/
def entryPath (root : Bytes) (e : DistEntry) : Text :=
  canonicalizePathSimple (chars (root ++ byte '/' :: e.dest))

/-- The outputs of a rule, and what they are. -/
def CopyRule.outputTexts (rule : CopyRule) : List (PlKind × Text) :=
  rule.outputs.map fun pl => (pl.kind, pl.mem)

/-- What should come out of a block with these entries, and of copying them below the root. -/
structure DistBlockOk (ev : DistEval) (text : Bytes) (dm : DistManifest) (root : Bytes)
    (rules : List CopyRule) : Prop where
  distinct : (dm.map DistEntry.dest).Nodup
  canonical : ∀ e ∈ dm, CanonicalDest e.dest
  mounts : ∀ m ∈ distMounts ev text, ∀ mounted, distParseManifest m.1 = some mounted → ∀ e ∈ mounted,
    ∀ dest, distNormalizeDest m.2 e.dest = some dest →
      AtOrBelow (canonicalizePathSimple (chars m.2)) (chars dest)
  /-- There is a rule for each entry, and its output is the path of the entry. -/
  copies : rules.map CopyRule.outputTexts = dm.map fun e => [(.path, entryPath root e)]
  copiesDistinct : ((rules.flatMap CopyRule.outputTexts).map Prod.snd).Nodup
  copiesBelow : ∀ rule ∈ rules, ∀ out ∈ rule.outputTexts,
    AtOrBelow (canonicalizePathSimple (chars root)) out.2

/-- A text that is read as one path, as it stands. -/
structure PlainPath (t : Text) : Prop where
  word : nextPath t = some (t, [])
  inclusion : t.head? ≠ some '^'
  noGroup : '<' ∉ t

/-- Nothing is mounted at an empty prefix, and nothing is copied below an empty root or to a path that
is read as something else. -/
structure WellPlaced (ev : DistEval) (text : Bytes) (dm : DistManifest) (root : Bytes) : Prop where
  mounts : ∀ m ∈ distMounts ev text, m.2.val = [] → distParseManifest m.1 = some []
  nonempty : root = [] → dm = []
  plain : ∀ e ∈ dm, PlainPath (entryPath root e)

/-! ### The characters of a canonical path -/

theorem byte_ofNat (b : Byte) : byte (Char.ofNat b.val) = b := by
  have key : ∀ b : Byte, byte (Char.ofNat b.val) = b := by decide +kernel
  exact key b

theorem ofNat_eq_iff {b : Byte} {c : Char} (hc : c.toNat < 256) : Char.ofNat b.val = c ↔ b = byte c := by
  constructor
  · rintro rfl
    exact (byte_ofNat b).symm
  · rintro rfl
    have hval : (byte c).val = c.toNat := Nat.mod_eq_of_lt hc
    rw [hval, Char.ofNat_toNat]

theorem unchars_chars (s : Bytes) : unchars (chars s) = s := by
  unfold unchars chars
  rw [List.map_map]
  exact (List.map_congr_left fun b _ => byte_ofNat b).trans (List.map_id s)

theorem chars_unchars {t : Text} (h : ∀ c ∈ t, Char.ofNat (byte c).val = c) : chars (unchars t) = t := by
  unfold unchars chars
  rw [List.map_map]
  exact (List.map_congr_left h).trans (List.map_id t)

theorem mem_joinNames {l : List Text} {c : Char} (h : c ∈ joinNames l) :
    c = '/' ∨ ∃ name ∈ l, c ∈ name := by
  cases l with
  | nil => cases h
  | cons name l =>
    rw [joinNames_cons, List.mem_append] at h
    rcases h with h | h
    · exact .inr ⟨name, List.mem_cons_self, h⟩
    · obtain ⟨name', hname', h⟩ := List.mem_flatMap.1 h
      rcases List.mem_cons.1 h with h | h
      · exact .inl h
      · exact .inr ⟨name', List.mem_cons_of_mem name hname', h⟩

/-- A canonical path has no other characters than the path but for separators and dots. -/
theorem mem_of_mem_canonicalize {path : Text} {c : Char} (h : c ∈ canonicalizePathSimple path) :
    c ∈ path ∨ c = '/' ∨ c = '.' := by
  have hjoin : c ∈ joinNames (remaining path) → c ∈ path ∨ c = '/' ∨ c = '.' := by
    intro h
    rcases mem_joinNames h with h | ⟨name, hname, h⟩
    · exact .inr (.inl h)
    · rcases mem_of_mem_remaining hname with rfl | hname
      · exact .inr (.inr (by simpa [dotdot] using h))
      · exact .inl (mem_of_mem_namesOf hname h)
  rw [canonicalizePathSimple_eq] at h
  split at h
  · exact .inr (.inr (List.mem_singleton.1 h))
  · rcases List.mem_append.1 h with h | h
    · split at h
      · exact .inr (.inl (List.mem_singleton.1 h))
      · cases h
    · exact hjoin h

section

variable {s path name dest : Bytes}

theorem ofNat_byte_of_mem {c : Char} (h : c ∈ chars s) : Char.ofNat (byte c).val = c := by
  obtain ⟨b, -, rfl⟩ := List.mem_map.1 h
  rw [byte_ofNat]

theorem chars_unchars_canonicalize (path : Bytes) :
    chars (unchars (canonicalizePathSimple (chars path))) = canonicalizePathSimple (chars path) := by
  refine chars_unchars fun c hc => ?_
  rcases mem_of_mem_canonicalize hc with h | rfl | rfl
  · exact ofNat_byte_of_mem h
  · rfl
  · rfl

/-- No null byte comes in. -/
theorem zero_notMem_canonicalize (h : (0 : Byte) ∉ path) :
    (0 : Byte) ∉ unchars (canonicalizePathSimple (chars path)) := by
  intro hmem
  obtain ⟨c, hc, hzero⟩ := List.mem_map.1 hmem
  rcases mem_of_mem_canonicalize hc with hc | rfl | rfl
  · obtain ⟨b, hb, rfl⟩ := List.mem_map.1 hc
    rw [byte_ofNat] at hzero
    exact h (hzero ▸ hb)
  · exact absurd hzero (by decide)
  · exact absurd hzero (by decide)

/-! ### Destinations -/

theorem isFullPath_chars (s : Bytes) : isFullPath (chars s) = true ↔ s.head? = some (byte '/') := by
  cases s with
  | nil => decide
  | cons b s =>
    unfold isFullPath chars
    simpa using ofNat_eq_iff (b := b) (c := '/') (by decide)

theorem chars_append_sep (s t : Bytes) : chars (s ++ byte '/' :: t) = chars s ++ '/' :: chars t := by
  unfold chars
  rw [List.map_append, List.map_cons]
  rfl

theorem distCanonicalDest_eq (path : Bytes) : distCanonicalDest path =
    if isFullPath (chars path) then some (unchars (canonicalizePathSimple (chars path))) else none := by
  unfold distCanonicalDest
  have hiff : (unchars (canonicalizePathSimple (chars path))).head? = some (byte '/') ↔
      isFullPath (chars path) = true := by
    rw [← isFullPath_chars, chars_unchars_canonicalize, isFullPath_canonicalizePathSimple]
  simp only [hiff]

theorem canonicalDest_unchars (h : isFullPath (chars path) = true) :
    CanonicalDest (unchars (canonicalizePathSimple (chars path))) := by
  obtain ⟨k, names, hnames, hk, hrem, hout⟩ := (lexicalNormal_canonicalize (chars path)).text
  refine ⟨names, hnames, ?_⟩
  rw [chars_unchars_canonicalize, hout, if_neg (by simp [h]), h, hrem, hk h, List.replicate_zero,
    List.nil_append]

theorem CanonicalDest.isFullPath (h : CanonicalDest dest) : isFullPath (chars dest) = true := by
  obtain ⟨names, -, heq⟩ := h
  rw [heq]
  rfl

/-- The names of a canonical destination. -/
theorem CanonicalDest.components (h : CanonicalDest dest) :
    chars dest = writeParts true (components (chars dest)) ∧ dotdot ∉ components (chars dest) := by
  obtain ⟨names, hnames, heq⟩ := h
  have hcomp : Metatup.components (chars dest) = names := by
    rw [heq]
    exact components_writeParts fun name h => ⟨(hnames name h).1, (hnames name h).2.1⟩
  rw [hcomp]
  exact ⟨heq, fun hmem => (hnames dotdot hmem).2.2 rfl⟩

/-- Names behind a path that is not empty are kept. -/
theorem remaining_append_sep {root rest : Text} (hroot : root ≠ []) (hup : dotdot ∉ components rest) :
    remaining (root ++ '/' :: rest) = remaining root ++ components rest := by
  have hcomp : components (root ++ '/' :: rest) = components root ++ components rest := by
    unfold components
    rw [namesOf_append_sep, List.filter_append]
  have hfull : Metatup.isFullPath (root ++ '/' :: rest) = Metatup.isFullPath root := by
    obtain ⟨c, root, rfl⟩ := List.exists_cons_of_ne_nil hroot
    rfl
  unfold remaining normalised
  rw [hcomp, hfull]
  split
  · show climb dotdot [] _ = climb dotdot [] _ ++ _
    rw [climb_append, climb_names _ hup]
  · exact norm_append_names hup

theorem atOrBelow_append {root : Bytes} (hroot : root ≠ []) (h : CanonicalDest dest) :
    AtOrBelow (canonicalizePathSimple (chars root))
      (canonicalizePathSimple (chars (root ++ byte '/' :: dest))) := by
  have hne : chars root ≠ [] := fun heq => hroot (List.map_eq_nil_iff.1 heq)
  unfold AtOrBelow
  rw [isFullPath_canonicalizePathSimple, isFullPath_canonicalizePathSimple,
    remaining_canonicalizePathSimple, remaining_canonicalizePathSimple, chars_append_sep,
    remaining_append_sep hne h.components.2]
  refine ⟨?_, _, h.components.2, rfl⟩
  obtain ⟨c, root, heq⟩ := List.exists_cons_of_ne_nil hne
  rw [heq]
  rfl

/-- Behind an empty path there is an absolute one. -/
theorem not_atOrBelow_nil (dest : Bytes) : ¬ AtOrBelow (canonicalizePathSimple (chars []))
    (canonicalizePathSimple (chars ([] ++ byte '/' :: dest))) := by
  intro h
  have hfull := h.1
  rw [isFullPath_canonicalizePathSimple, isFullPath_canonicalizePathSimple] at hfull
  cases hfull

/-- Two destinations with the same path below a root are the same. -/
theorem canonicalize_append_inj {root dest' : Bytes} (hroot : root ≠ []) (h : CanonicalDest dest)
    (h' : CanonicalDest dest') (heq : canonicalizePathSimple (chars (root ++ byte '/' :: dest)) =
      canonicalizePathSimple (chars (root ++ byte '/' :: dest'))) : dest = dest' := by
  have hne : chars root ≠ [] := fun heq => hroot (List.map_eq_nil_iff.1 heq)
  have hrem := congrArg remaining heq
  rw [remaining_canonicalizePathSimple, remaining_canonicalizePathSimple, chars_append_sep,
    chars_append_sep, remaining_append_sep hne h.components.2,
    remaining_append_sep hne h'.components.2] at hrem
  have hcomp := List.append_cancel_left hrem
  rw [← unchars_chars dest, ← unchars_chars dest', h.components.1, h'.components.1, hcomp]

end

/-! ### The entries of a block -/

section

variable {ev : DistEval} {text stmt spec : Bytes} {dm dm' : DistManifest}

theorem CanonicalManifest.add (h : CanonicalManifest dm) {src dest : Bytes} (hsrc : (0 : Byte) ∉ src)
    (hdest : (0 : Byte) ∉ dest) (hcanon : CanonicalDest dest) (hadd : distManifestAdd dm src dest = some dm') :
    CanonicalManifest dm' := by
  unfold distManifestAdd at hadd
  split at hadd
  · cases hadd
  next hany =>
  cases hadd
  have hnew : dest ∉ dm.map DistEntry.dest := by
    intro hmem
    obtain ⟨e, he, heq⟩ := List.mem_map.1 hmem
    exact hany (List.any_eq_true.2 ⟨e, he, decide_eq_true heq⟩)
  refine ⟨⟨?_, fun e he => ?_⟩, fun e he => ?_⟩
  · rw [List.map_append, List.nodup_append']
    refine ⟨h.distinct, List.nodup_singleton _, ?_⟩
    exact List.disjoint_singleton.2 hnew
  · rcases List.mem_append.1 he with he | he
    · exact h.strings e he
    · cases List.mem_singleton.1 he
      exact ⟨hsrc, hdest⟩
  · rcases List.mem_append.1 he with he | he
    · exact h.canonical e he
    · cases List.mem_singleton.1 he
      exact hcanon

/-- What a destination is when it is accepted. -/
theorem distCanonicalDest_spec {path dest : Bytes} (h : distCanonicalDest path = some dest)
    (hzero : (0 : Byte) ∉ path) : (0 : Byte) ∉ dest ∧ CanonicalDest dest := by
  rw [distCanonicalDest_eq] at h
  split at h
  · next hfull =>
    cases h
    exact ⟨zero_notMem_canonicalize hzero, canonicalDest_unchars hfull⟩
  · cases h

theorem distNormalizeDest_spec {base name dest : Bytes} (h : distNormalizeDest base name = some dest)
    (hbase : (0 : Byte) ∉ base) (hname : (0 : Byte) ∉ name) : (0 : Byte) ∉ dest ∧ CanonicalDest dest := by
  refine distCanonicalDest_spec h ?_
  rw [List.mem_append, List.mem_cons]
  rintro (h | h | h)
  · exact hbase h
  · exact absurd h (by decide)
  · exact hname h

theorem distMappingDest_spec {dst dest : Bytes} (h : distMappingDest ev dst = some dest) :
    (0 : Byte) ∉ dest ∧ CanonicalDest dest := by
  unfold distMappingDest at h
  split at h
  · obtain ⟨dstbase, -, h⟩ := Option.bind_eq_some_iff.1 h
    obtain ⟨dstname, -, h⟩ := Option.bind_eq_some_iff.1 h
    obtain ⟨-, -, h⟩ := Option.bind_eq_some_iff.1 h
    exact distNormalizeDest_spec h dstbase.2 dstname.2
  · obtain ⟨dstpath, -, h⟩ := Option.bind_eq_some_iff.1 h
    obtain ⟨-, -, h⟩ := Option.bind_eq_some_iff.1 h
    exact distCanonicalDest_spec h dstpath.2

theorem distParseMappingStmt_canonical (h : distParseMappingStmt ev stmt dm = some dm')
    (hdm : CanonicalManifest dm) : CanonicalManifest dm' := by
  unfold distParseMappingStmt at h
  obtain ⟨-, -, h⟩ := Option.bind_eq_some_iff.1 h
  obtain ⟨srcEnd, -, h⟩ := Option.bind_eq_some_iff.1 h
  obtain ⟨-, -, h⟩ := Option.bind_eq_some_iff.1 h
  obtain ⟨srcbase, -, h⟩ := Option.bind_eq_some_iff.1 h
  obtain ⟨src, -, h⟩ := Option.bind_eq_some_iff.1 h
  obtain ⟨-, -, h⟩ := Option.bind_eq_some_iff.1 h
  obtain ⟨dest, hdest, h⟩ := Option.bind_eq_some_iff.1 h
  have hspec := distMappingDest_spec hdest
  exact hdm.add src.2 hspec.1 hspec.2 h

theorem distParseMountStmt_canonical (h : distParseMountStmt ev stmt dm = some dm')
    (hbuilt : ∀ m, distMount ev stmt = some m →
      ∃ mounted, m.1.val = distSerializeManifest mounted ∧ CanonicalManifest mounted)
    (hdm : CanonicalManifest dm) : CanonicalManifest dm' := by
  unfold distParseMountStmt at h
  obtain ⟨⟨spec, pre⟩, hm, h⟩ := Option.bind_eq_some_iff.1 h
  obtain ⟨mounted, hparse, h⟩ := Option.bind_eq_some_iff.1 h
  obtain ⟨mounted', heq, hcanon⟩ := hbuilt _ hm
  rw [show spec.val = _ from heq, distParseManifest_serialize hcanon.toManifestOk] at hparse
  cases hparse
  refine foldlM_keeps (P := fun _ => CanonicalManifest) h hdm ?_
  intro l e l' dm dm' hl hdm hadd
  have he : e ∈ mounted := hl ▸ List.mem_append_right _ List.mem_cons_self
  obtain ⟨dest, hdest, hadd⟩ := Option.bind_eq_some_iff.1 hadd
  have hspec := distNormalizeDest_spec hdest pre.2 (hcanon.strings e he).2
  exact hdm.add (hcanon.strings e he).1 hspec.1 hspec.2 hadd

/-- A block of mounts that are canonical is canonical. -/
theorem distBlockManifest_canonical (h : distBlockManifest ev text = some dm)
    (hbuilt : ∀ m ∈ distMounts ev text,
      ∃ mounted, m.1.val = distSerializeManifest mounted ∧ CanonicalManifest mounted) :
    CanonicalManifest dm := by
  obtain ⟨body, hbody, h⟩ := Option.bind_eq_some_iff.1 h
  refine foldlM_keeps (P := fun _ => CanonicalManifest) h ⟨⟨List.nodup_nil, by simp⟩, by simp⟩ ?_
  intro l stmt l' dm dm' hl hdm hstmt
  unfold distParseStmt at hstmt
  split at hstmt
  · exact distParseMappingStmt_canonical hstmt hdm
  split at hstmt
  · refine distParseMountStmt_canonical hstmt (fun m hm => hbuilt m ?_) hdm
    refine List.mem_filterMap.2 ⟨stmt, List.mem_flatMap.2 ⟨body, ?_, ?_⟩, hm⟩
    · rw [hbody]
      exact List.mem_singleton_self body
    · rw [hl]
      exact List.mem_append_right l List.mem_cons_self
  · cases hstmt

/-- The same with values mounted to any depth. -/
theorem BuiltDist.canonical (h : BuiltDist spec) :
    ∃ dm, spec = distSerializeManifest dm ∧ CanonicalManifest dm := by
  induction h with
  | block hblock _ ih =>
    obtain ⟨dm, hdm, rfl⟩ := Option.map_eq_some_iff.1 hblock
    exact ⟨dm, rfl, distBlockManifest_canonical hdm ih⟩

end

/-! ### Copies -/

theorem canonicalizePathSimple_congr {p q : Text} (hfull : isFullPath p = isFullPath q)
    (hnames : namesOf p = namesOf q) : canonicalizePathSimple p = canonicalizePathSimple q := by
  unfold canonicalizePathSimple
  rw [hfull, hnames]

/-- The separators in front of a destination do not matter. -/
theorem chars_distOutputPath (root : Bytes) (e : DistEntry) :
    chars (tupbuildDistOutputPath root e.dest) = entryPath root e := by
  have hdrop : chars (e.dest.dropWhile (· = byte '/')) = (chars e.dest).dropWhile isPathSep := by
    have hsep : ∀ b : Byte, isPathSep (Char.ofNat b.val) = decide (b = byte '/') := fun b =>
      decide_eq_decide.2 (ofNat_eq_iff (by decide))
    unfold chars
    rw [List.dropWhile_map]
    congr 2
    exact funext fun b => (hsep b).symm
  unfold tupbuildDistOutputPath entryPath
  rw [chars_unchars_canonicalize, chars_append_sep, chars_append_sep, hdrop]
  apply canonicalizePathSimple_congr
  · cases chars root <;> rfl
  · rw [namesOf_append_sep, namesOf_append_sep, namesOf_dropWhile_sep]

theorem canonicalizePathSimple_ne_nil (path : Text) : canonicalizePathSimple path ≠ [] := by
  intro hnil
  have hfull := isFullPath_canonicalizePathSimple path
  have hcomp := components_canonicalizePathSimple path
  rw [hnil] at hfull hcomp
  rw [canonicalizePathSimple_eq, if_pos ⟨hcomp.symm, hfull.symm⟩] at hnil
  cases hnil

section

variable {tf : Tupfile} {t rest dest : Text}

/-- A path and what is behind it are no longer than the text. -/
theorem nextPathLoop_length {st : PathScan} (h : nextPathLoop st t = some (dest, rest)) :
    dest.length + rest.length ≤ t.length := by
  have hpush : ∀ {c : Char} {r : Option (Text × Text)} {n : ℕ},
      (∀ dest rest, r = some (dest, rest) → dest.length + rest.length ≤ n) → ∀ dest rest,
      nextPathLoop.push c r = some (dest, rest) → dest.length + rest.length ≤ n + 1 := by
    intro c r n hr dest rest h
    obtain ⟨⟨dest', rest'⟩, hr', heq⟩ := Option.map_eq_some_iff.1 h
    cases heq
    have hle := hr _ _ hr'
    rw [List.length_cons]
    omega
  fun_induction nextPathLoop st t generalizing dest rest with
  | case1 => cases h
  | case2 =>
    cases h
    exact Nat.le_refl 0
  | case3 st c s _ ih => exact hpush (fun _ _ => ih) _ _ h
  | case4 st s _ ih => exact Nat.le_succ_of_le (ih h)
  | case5 st s _ _ ih => exact Nat.le_succ_of_le (ih h)
  | case6 st s _ _ _ ih => exact hpush (fun _ _ => ih) _ _ h
  | case7 => cases h
  | case8 st c _ _ _ _ d s _ ih => exact hpush (hpush fun _ _ => ih) _ _ h
  | case9 st c s _ _ _ _ _ _ ih => exact hpush (fun _ _ => ih) _ _ h
  | case10 st c s _ _ _ _ _ _ _ ih => exact hpush (fun _ _ => ih) _ _ h
  | case11 =>
    cases h
    simp
  | case12 st c s _ _ _ _ _ _ _ _ ih => exact hpush (fun _ _ => ih) _ _ h

theorem newPl_path {pl : PathList} (h : newPl tf t none = some pl) :
    pl.mem = t ∧ (pl.kind = .path ↔ t.head? ≠ some '^' ∧ '<' ∉ t) := by
  unfold newPl at h
  split at h
  · cases h
  split at h
  · next hexcl =>
    cases h
    exact ⟨rfl, iff_of_false nofun fun hnot => hnot.1 hexcl⟩
  next hexcl =>
  split at h
  · next hgroup =>
    split at h
    · cases h
      exact ⟨rfl, iff_of_false nofun fun hnot => hnot.2 (List.contains_iff_mem.1 hgroup)⟩
    · cases h
  · next hgroup =>
    cases h
    exact ⟨rfl, iff_of_true rfl ⟨hexcl, fun hmem => hgroup (List.contains_iff_mem.2 hmem)⟩⟩

/-- A text is read as one path, which it is, exactly when it is plain. -/
theorem getPathList_iff {pls : List RulePath} {origin : ℕ → PathOrigin} (ht : t ≠ [])
    (h : getPathList tf none origin t = some pls) :
    pls.map (fun pl => (pl.kind, pl.mem)) = [(.path, t)] ↔ PlainPath t := by
  obtain ⟨c, s, rfl⟩ := List.exists_cons_of_ne_nil ht
  unfold getPathList at h
  rw [List.length_cons] at h
  obtain ⟨⟨dest, rest⟩, hnext, h⟩ := Option.bind_eq_some_iff.1 h
  obtain ⟨pl, hpl, h⟩ := Option.bind_eq_some_iff.1 h
  obtain ⟨more, hmore, h⟩ := Option.bind_eq_some_iff.1 h
  cases h
  obtain ⟨hmem, hkind⟩ := newPl_path hpl
  constructor
  · intro heq
    rw [List.map_cons, List.cons.injEq, Prod.mk.injEq] at heq
    obtain ⟨⟨hpath, htext⟩, -⟩ := heq
    obtain rfl : dest = c :: s := hmem.symm.trans htext
    have hlen := nextPathLoop_length hnext
    obtain rfl : rest = [] := List.length_eq_zero_iff.1 (by omega)
    exact ⟨hnext, (hkind.1 hpath).1, (hkind.1 hpath).2⟩
  · intro hplain
    rw [hplain.word] at hnext
    cases hnext
    obtain rfl : more = [] := by
      have hnil : getPathListLoop tf none origin s.length 2 [] = some [] := by rw [getPathListLoop]
      exact Option.some.inj (hmore.symm.trans hnil)
    rw [List.map_cons, List.map_nil, hkind.2 ⟨hplain.inclusion, hplain.noGroup⟩, hmem]

/-- What a rule copies to. -/
theorem copyRule_outputs {src dest : Bytes} {fromCaller : Bool} {rule : CopyRule}
    (h : tupbuildCreateCopyRule tf src dest fromCaller = some rule) (hdest : chars dest ≠ []) :
    rule.outputTexts = [(.path, chars dest)] ↔ PlainPath (chars dest) := by
  obtain ⟨inputs, -, h⟩ := Option.bind_eq_some_iff.1 h
  obtain ⟨outputs, houtputs, h⟩ := Option.bind_eq_some_iff.1 h
  cases h
  rw [← getPathList_iff hdest houtputs]
  unfold CopyRule.outputTexts
  cases fromCaller with
  | false => rfl
  | true => simp

/-- There is a rule for each entry. -/
theorem materializeLoop_spec {execute : List CopyRule → CopyRule → Bool} {root : Bytes}
    {fromCaller : Bool} {done rules : List CopyRule} {dm : DistManifest}
    (h : materializeLoop tf execute root fromCaller done dm = some rules) :
    List.Forall₂ (fun e rule => rule.outputTexts = [(.path, entryPath root e)] ↔
      PlainPath (entryPath root e)) dm rules := by
  induction dm generalizing done rules with
  | nil =>
    cases h
    exact .nil
  | cons e dm ih =>
    obtain ⟨rule, hrule, h⟩ := Option.bind_eq_some_iff.1 h
    obtain ⟨-, -, h⟩ := Option.bind_eq_some_iff.1 h
    obtain ⟨rules', hrules, h⟩ := Option.bind_eq_some_iff.1 h
    cases h
    refine .cons ?_ (ih hrules)
    have hout := copyRule_outputs hrule
    rw [chars_distOutputPath] at hout
    exact hout (canonicalizePathSimple_ne_nil _)

end

/-- Two lists go with one another when each pair does. -/
theorem map_eq_map_iff_of_forall₂ {α β γ : Type} {f : α → γ} {g : β → γ} {P : α → Prop} {l : List α}
    {l' : List β} (h : List.Forall₂ (fun x y => g y = f x ↔ P x) l l') :
    l'.map g = l.map f ↔ ∀ x ∈ l, P x := by
  induction h with
  | nil => simp
  | cons hxy _ ih => rw [List.map_cons, List.map_cons, List.cons.injEq, hxy, ih, List.forall_mem_cons]

/-! ### What comes out -/

section

variable {ev : DistEval} {text root : Bytes} {dm : DistManifest} {rules : List CopyRule} {tf : Tupfile}
  {execute : List CopyRule → CopyRule → Bool} {rootFromCallerRoot : Bool}

/-- The rules have the paths of the entries for outputs. -/
theorem mem_outputTexts (hcopies : rules.map CopyRule.outputTexts =
    dm.map fun e => [(PlKind.path, entryPath root e)]) {rule : CopyRule} (hrule : rule ∈ rules)
    {out : PlKind × Text} (hout : out ∈ rule.outputTexts) :
    ∃ e ∈ dm, out = (PlKind.path, entryPath root e) := by
  have hmem : rule.outputTexts ∈ dm.map fun e => [(PlKind.path, entryPath root e)] :=
    hcopies ▸ List.mem_map_of_mem hrule
  obtain ⟨e, he, heq⟩ := List.mem_map.1 hmem
  rw [← heq] at hout
  exact ⟨e, he, List.mem_singleton.1 hout⟩

theorem outputTexts_flatMap (hcopies : rules.map CopyRule.outputTexts =
    dm.map fun e => [(PlKind.path, entryPath root e)]) :
    (rules.flatMap CopyRule.outputTexts).map Prod.snd = dm.map (entryPath root) := by
  have hflat : rules.flatMap CopyRule.outputTexts = dm.map fun e => (PlKind.path, entryPath root e) := by
    rw [List.flatMap_def, hcopies, ← List.flatMap_def, ← List.map_eq_flatMap]
  rw [hflat, List.map_map]
  rfl

end

/-! ### Two blocks -/

/-- A text without variables. -/
def literalText (s : Bytes) : Option CStr := if h : (0 : Byte) ∉ s then some ⟨s, h⟩ else none

/-- A block with one entry. -/
def binBlock : Bytes := bytes "dist \x7b at a => at /b \x7d"

def binManifest : DistManifest := [⟨bytes "a", bytes "/b"⟩]

theorem distBlockManifest_binBlock :
    distBlockManifest ⟨literalText, literalText⟩ binBlock = some binManifest ∧
      distMounts ⟨literalText, literalText⟩ binBlock = [] := by
  decide +kernel

theorem builtDist_binBlock : BuiltDist (distSerializeManifest binManifest) := by
  obtain ⟨hdm, hmounts⟩ := distBlockManifest_binBlock
  refine @BuiltDist.block ⟨literalText, literalText⟩ binBlock _ ?_ ?_
  · rw [parseDistBlock, hdm, Option.map_some]
  · rw [hmounts]
    exact fun m hm => absurd hm List.not_mem_nil

/-- The rule that copies it. -/
def binRule : CopyRule where
  inputs := [⟨⟨['a'], .path, false⟩, 1, .rule 1⟩]
  outputs := [⟨⟨"out/b".toList, .path, false⟩, 1, .rule 1⟩]

theorem materialize_binManifest :
    tupbuildMaterializeDist ⟨[], [], none⟩ (fun _ _ => true) (bytes "out")
      (distSerializeManifest binManifest) false = some [binRule] := by
  decide +kernel

/-- The variable `S` has the value of the other block. -/
def mountEval : DistEval where
  expandNodes := literalText
  keepNodes := fun s => if s = bytes "S" then literalText (distSerializeManifest binManifest)
    else literalText s

/-- A block that mounts it at an empty prefix. -/
def mountBlock : Bytes := bytes "dist \x7b mounts S at \"\" \x7d"

end Metatup
