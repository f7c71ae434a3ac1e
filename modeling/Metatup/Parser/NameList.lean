import Metatup.Parser.GlobParse
import Metatup.Parser.Path

/-!
# Name lists

The inputs and outputs of a rule are lists of names, each split once into what the `%`-flags ask for:
the last name of the path, and both without the extension. Four places of the parser make an entry,
and each looks for the extension in its own way.

* `externalEntry`, `binEntry`, `databaseEntry`, `outputEntry`: the four constructors.
* `SplitsRight`: what every one of them should do, whatever the path.
* `name_split_iff`: for which paths each does.
-/

namespace Metatup

/-- A name in a directory. -/
abbrev FileName := { s : Text // s ≠ [] ∧ '/' ∉ s }

/-- Source: `parser.h` `struct name_list_entry`, all that its constructors fill in. `base` points into
`path`, and is kept as the text from there on. -/
structure NameEntry where
  path : Text
  base : Text
  len : ℤ
  extlesslen : ℤ
  baselen : ℤ
  extlessbaselen : ℤ
  glob : GlobIdx
  globcnt : ℕ
  orderid : ℕ
  tent : Option TupId

/-- Source: `parser.h` `struct name_list`; `num_entries` is the length of the list -/
structure NameList where
  entries : List NameEntry
  globcnt : ℕ

/-- Source: `parser.c` `init_name_list` -/
def initNameList : NameList := ⟨[], 0⟩

/-- Source: `parser.c` `add_name_list_entry` -/
def addNameListEntry (nl : NameList) (nle : NameEntry) : NameList :=
  ⟨nl.entries ++ [nle], nle.globcnt⟩

/-- The loop of `set_nle_base`, with the path before `base` backwards. -/
def baseLoop : Text → Text → Text
  | [], base => base
  | c :: before, base => if isPathSep c then base else baseLoop before (c :: base)

/-- The part of a path after its last separator. -/
def baseOf (path : Text) : Text := baseLoop path.reverse []

/-- Source: `parser.c` `set_nle_base` -/
def setNleBase (nle : NameEntry) : NameEntry :=
  let base := baseOf nle.path
  { nle with
    base := base
    baselen := base.length
    extlessbaselen := base.length - (nle.len - nle.extlesslen)
    globcnt := 0 }

/-- The scan to the left for a `.`, which does not look at the first character. -/
def scanDot (s : Text) : ℕ → ℕ
  | 0 => 0
  | n + 1 => if s[n + 1]? = some '.' then n + 1 else scanDot s n

/-- The scan from the last character of a path. In an empty path it does not begin. -/
def scanPath (path : Text) : ℤ := if path = [] then -1 else scanDot path (path.length - 1)

/-- An entry before `set_nle_base`. -/
def newEntry (path : Text) (extlesslen : ℤ) (tent : Option TupId) (orderid : ℕ) : NameEntry :=
  { path := path, base := [], len := path.length, extlesslen := extlesslen, baselen := 0
    extlessbaselen := 0, glob := .unwritten, globcnt := 0, orderid := orderid, tent := tent }

/-! ### The four constructors -/

/-- The entry that `nl_add_external_path` makes. -/
def externalEntry (path : Text) (orderid : ℕ) : NameEntry :=
  let extlesslen := scanPath path
  let extlesslen := if extlesslen = 0 then (path.length : ℤ) else extlesslen
  setNleBase (newEntry path extlesslen none orderid)

/-- Source: `parser.c` `nl_add_external_path`; `mem` is the text of the path -/
def nlAddExternalPath (mem : Text) (nl : NameList) (orderid : ℕ) : NameList :=
  addNameListEntry nl (externalEntry mem orderid)

/-- Source: `bin.h` `struct bin_entry`; a path outside of the project has no node -/
structure BinEntry where
  path : Text
  tent : Option TupId

/-- The entry that `nl_add_bin` makes. -/
def binEntry (be : BinEntry) (orderid : ℕ) : NameEntry :=
  let extlesslen := scanPath be.path
  let extlesslen := if extlesslen = 0 then (be.path.length : ℤ) else extlesslen
  setNleBase (newEntry be.path extlesslen be.tent orderid)

/-- Source: `parser.c` `nl_add_bin` -/
def nlAddBin (b : List BinEntry) (nl : NameList) (orderid : ℕ) : NameList :=
  b.foldl (fun nl be => addNameListEntry nl (binEntry be orderid)) nl

/-- The names of a path from one directory to a node: the common ones go, and each that is left of
the first path is left by a `..`. -/
def relativeNames : List Text → List Text → List Text
  | s :: start, e :: stop =>
    if s = e then relativeNames start stop
    else (s :: start).map (fun _ => dotdot) ++ e :: stop
  | start, stop => start.map (fun _ => dotdot) ++ stop

/-- Source: `entry.c` `get_relative_dir`; both nodes are given by their names from the top -/
def getRelativeDir (start stop : List Text) : Text :=
  let names := relativeNames start stop
  if names = [] then ['.'] else joinNames names

/-- A node of the database that can be an input. -/
structure FileTent where
  tupid : TupId
  dt : TupId
  srcid : TupId
  /-- The names of its directory, from the top. -/
  dir : List FileName
  name : FileName

/-- The names of a node, from the top. -/
def FileTent.names (tent : FileTent) : List Text := (tent.dir ++ [tent.name]).map Subtype.val

/-- Source: `parser.c` `struct build_name_list_args`, with what is read of the Tupfile -/
structure BuildNameListArgs where
  globstr : Text
  wildcard : Bool
  orderid : ℕ
  /-- The id of `tf->tent`. -/
  tupid : TupId
  /-- `tf->srctent`, by its names from the top. -/
  src : List FileName

/-- The entry that `build_name_list_cb` makes. -/
def databaseEntry (args : BuildNameListArgs) (tent : FileTent) : NameEntry :=
  let e := getRelativeDir (args.src.map Subtype.val) tent.names
  let name := tent.name.val
  let len := scanDot name name.length
  let extlesslen : ℤ := if len = 0 then e.length else e.length - (name.length - len)
  let nle := setNleBase (newEntry e extlesslen (some tent.tupid) args.orderid)
  let (globcnt, glob) := globParse args.globstr name
  { nle with globcnt := globcnt, glob := glob }

/-- Source: `parser.c` `build_name_list_cb`; `none` is the error for a file that another directory
generated -/
def buildNameListCb (args : BuildNameListArgs) (nl : NameList) (tent : FileTent) :
    Option NameList :=
  if tent.srcid ≠ -1 ∧ tent.srcid ≠ args.tupid ∧ tent.srcid ≠ tent.dt then
    if args.wildcard then some nl else none
  else some (addNameListEntry nl (databaseEntry args tent))

/-- The entry that `do_rule_outputs` makes for the path of an output. -/
def outputEntry (path : Text) (tent : TupId) (orderid : ℕ) : NameEntry :=
  setNleBase (newEntry path (scanPath path) (some tent) orderid)

/-! ### What is read of an entry -/

/-- The first `n` characters of a text; a negative number of them is not there. -/
def takeInt (s : Text) (n : ℤ) : Option Text := if n < 0 then none else some (s.take n.toNat)

/-- `%B`. Source: `parser.c` `tup_printf` -/
def NameEntry.percentB (nle : NameEntry) : Option Text :=
  takeInt nle.base nle.extlessbaselen

/-- `%O`. Source: `parser.c` `tup_printf` -/
def NameEntry.percentO (nle : NameEntry) : Option Text :=
  takeInt nle.path nle.extlesslen

/-- The extension a `foreach` rule has for `%e` and for the lookup of a `!`-macro, if there is one.
Source: `parser.c` `execute_rule` -/
def NameEntry.ext (nle : NameEntry) : Option (Option Text) :=
  if nle.extlessbaselen = nle.baselen then some none
  else if nle.extlessbaselen + 1 < 0 then none
  else some (some (nle.base.drop (nle.extlessbaselen + 1).toNat))

/-! ### What the split should be -/

/-- A name without its last extension; what begins with the first character is none. -/
def stem (s : Text) : Text :=
  if '.' ∈ s.tail then ((s.reverse.dropWhile (· ≠ '.')).drop 1).reverse else s

/-- The entry is split at the last separator and at the last extension of the name after it. -/
structure SplitsRight (nle : NameEntry) : Prop where
  len_eq : nle.len = nle.path.length
  base_eq : ∃ dir, nle.path = dir ++ nle.base ∧ '/' ∉ nle.base ∧ (dir = [] ∨ dir.getLast? = some '/')
  baselen_eq : nle.baselen = nle.base.length
  nonneg : 0 ≤ nle.extlessbaselen
  le : nle.extlessbaselen ≤ nle.baselen
  stem_eq : nle.base.take nle.extlessbaselen.toNat = stem nle.base
  extlesslen_eq : nle.extlesslen = nle.len - nle.baselen + nle.extlessbaselen

/-! ### The base -/

theorem baseLoop_append {base r acc : Text} (h : '/' ∉ base) (hr : r = [] ∨ r.head? = some '/') :
    baseLoop (base.reverse ++ r) acc = base ++ acc := by
  induction base using List.reverseRecOn generalizing acc with
  | nil =>
    rcases hr with rfl | hr
    · rfl
    · obtain ⟨r, rfl⟩ : ∃ t, r = '/' :: t := by
        cases r with
        | nil => cases hr
        | cons c t => exact ⟨t, by simpa using hr⟩
      simp [baseLoop, isPathSep]
  | append_singleton base c ih =>
    rw [List.mem_append, not_or] at h
    have hc : isPathSep c = false := by simpa [isPathSep, eq_comm] using h.2
    rw [List.reverse_append, List.reverse_singleton, List.singleton_append, List.cons_append,
      baseLoop, hc, if_neg (by simp), ih h.1]
    simp

/-- The base is what follows the last separator, if there is one. -/
theorem baseOf_append {dir base : Text} (hbase : '/' ∉ base)
    (hdir : dir = [] ∨ dir.getLast? = some '/') : baseOf (dir ++ base) = base := by
  rw [baseOf, List.reverse_append, baseLoop_append hbase, List.append_nil]
  rcases hdir with rfl | hdir
  · exact Or.inl rfl
  · right
    rw [List.head?_reverse]
    exact hdir

/-- Every path is a directory and its base. -/
theorem exists_baseOf (path : Text) : ∃ dir, path = dir ++ baseOf path ∧ '/' ∉ baseOf path ∧
    (dir = [] ∨ dir.getLast? = some '/') := by
  obtain ⟨dir, base, rfl, hbase, hdir⟩ : ∃ dir base, path = dir ++ base ∧ '/' ∉ base ∧
      (dir = [] ∨ dir.getLast? = some '/') := by
    by_cases h : '/' ∈ path
    · obtain ⟨a, t, ha, ht⟩ := List.eq_append_cons_of_mem (List.mem_reverse.mpr h)
      refine ⟨t.reverse ++ ['/'], a.reverse, ?_, by simpa using ht, Or.inr (by simp)⟩
      have := congrArg List.reverse ha
      simpa using this
    · exact ⟨[], path, rfl, h, Or.inl rfl⟩
  rw [baseOf_append hbase hdir]
  exact ⟨dir, rfl, hbase, hdir⟩

/-! ### The extension -/

theorem stem_of_not_mem {s : Text} (h : '.' ∉ s.tail) : stem s = s := if_neg h

/-- The last extension of a name is its last `.` and what follows. -/
theorem stem_append {s t : Text} (hs : s ≠ []) (ht : '.' ∉ t) : stem (s ++ '.' :: t) = s := by
  have hmem : '.' ∈ (s ++ '.' :: t).tail := by
    rw [List.tail_append_of_ne_nil hs]
    simp
  rw [stem, if_pos hmem, List.reverse_append, List.reverse_cons, List.append_assoc,
    List.dropWhile_append_of_pos]
  · simp
  · intro b hb
    rw [List.mem_reverse] at hb
    simpa using fun h : b = '.' => ht (h ▸ hb)

/-- A name with a `.` after its first character has a last extension. -/
theorem exists_ext {s : Text} (h : '.' ∈ s.tail) : ∃ a t, s = a ++ '.' :: t ∧ a ≠ [] ∧ '.' ∉ t := by
  cases s with
  | nil => cases h
  | cons b s =>
    obtain ⟨a, t, ha, ht⟩ := List.eq_append_cons_of_mem (List.mem_reverse.mpr h)
    refine ⟨b :: t.reverse, a.reverse, ?_, by simp, by simpa using ht⟩
    have := congrArg List.reverse ha
    simpa using this

/-- The scan finds the last `.` of a name after its first character. -/
theorem scanDot_ext {s t : Text} (hs : s ≠ []) (ht : '.' ∉ t) {n : ℕ} (hn : s.length ≤ n) :
    scanDot (s ++ '.' :: t) n = s.length := by
  induction n with
  | zero =>
    have := List.length_pos_of_ne_nil hs
    omega
  | succ n ih =>
    rw [scanDot]
    by_cases heq : s.length = n + 1
    · rw [if_pos]
      · exact heq.symm
      · rw [← heq, List.getElem?_append_right (Nat.le_refl _)]
        simp
    · rw [if_neg, ih (by omega)]
      rw [List.getElem?_append_right (by omega)]
      obtain ⟨k, hk⟩ : ∃ k, n + 1 - s.length = k + 1 := ⟨n - s.length, by omega⟩
      rw [hk, List.getElem?_cons_succ]
      exact fun h => ht (List.mem_of_getElem? h)

/-- Without a `.` after the first character the scan comes to the beginning. -/
theorem scanDot_eq_zero {s : Text} (h : '.' ∉ s.tail) (n : ℕ) : scanDot s n = 0 := by
  induction n with
  | zero => rfl
  | succ n ih =>
    rw [scanDot, if_neg, ih]
    rw [← List.getElem?_tail]
    exact fun h' => h (List.mem_of_getElem? h')

/-- The scan of a name, from its end on. -/
theorem scanDot_eq (s : Text) {n : ℕ} (hn : s.length ≤ n + 1) :
    scanDot s n = if '.' ∈ s.tail then (stem s).length else 0 := by
  split_ifs with h
  · obtain ⟨a, t, rfl, ha, ht⟩ := exists_ext h
    rw [stem_append ha ht]
    apply scanDot_ext ha ht
    simp only [List.length_append, List.length_cons] at hn
    omega
  · exact scanDot_eq_zero h n

theorem stem_isPrefix (s : Text) : stem s <+: s := by
  by_cases h : '.' ∈ s.tail
  · obtain ⟨a, t, rfl, ha, ht⟩ := exists_ext h
    rw [stem_append ha ht]
    exact List.prefix_append a _
  · exact ⟨[], by rw [stem_of_not_mem h, List.append_nil]⟩

/-- The extension of a path is that of its base, if that has one. -/
theorem stem_dir_append (dir : Text) {base : Text} (h : '.' ∈ base.tail) :
    stem (dir ++ base) = dir ++ stem base := by
  obtain ⟨a, t, rfl, ha, ht⟩ := exists_ext h
  rw [stem_append ha ht, ← List.append_assoc, stem_append (by simp [ha]) ht]

theorem stem_length_lt {s : Text} (h : '.' ∈ s.tail) :
    0 < (stem s).length ∧ (stem s).length < s.length := by
  obtain ⟨a, t, rfl, ha, ht⟩ := exists_ext h
  rw [stem_append ha ht]
  have := List.length_pos_of_ne_nil ha
  simp only [List.length_append, List.length_cons]
  omega

/-! ### The entries -/

/-- After `set_nle_base`, an entry is split right if `extlesslen` was. -/
theorem splitsRight_iff {nle : NameEntry} (hlen : nle.len = nle.path.length) :
    SplitsRight (setNleBase nle) ↔
      nle.extlesslen = nle.path.length - (baseOf nle.path).length + (stem (baseOf nle.path)).length := by
  have hstem := stem_isPrefix (baseOf nle.path)
  have hle := hstem.length_le
  constructor
  · intro h
    have hnonneg : 0 ≤ (setNleBase nle).extlessbaselen := h.nonneg
    have hup : (setNleBase nle).extlessbaselen ≤ (baseOf nle.path).length := h.le
    have htake := congrArg List.length h.stem_eq
    rw [List.length_take] at htake
    simp only [setNleBase] at htake hnonneg hup
    omega
  · intro h
    have hext : (setNleBase nle).extlessbaselen = (stem (baseOf nle.path)).length := by
      simp only [setNleBase]
      omega
    refine ⟨hlen, exists_baseOf nle.path, rfl, by omega, ?_, ?_, ?_⟩
    · rw [hext]
      simp only [setNleBase]
      omega
    · rw [hext, Int.toNat_natCast]
      exact (List.prefix_iff_eq_take.mp hstem).symm
    · rw [hext]
      simp only [setNleBase]
      omega

/-- What is read of an entry that is split right depends on the path alone. -/
theorem SplitsRight.read {nle : NameEntry} (h : SplitsRight nle) :
    nle.percentB = some (stem nle.base) ∧
      nle.percentO = some (nle.path.take (nle.path.length - nle.base.length + (stem nle.base).length)) ∧
      nle.ext = some (if stem nle.base = nle.base then none
        else some (nle.base.drop ((stem nle.base).length + 1))) := by
  have hpre := stem_isPrefix nle.base
  have hlen := congrArg List.length h.stem_eq
  obtain ⟨dir, hpath, -⟩ := h.base_eq
  have hpathlen := congrArg List.length hpath
  have h1 := h.len_eq
  have h2 := h.baselen_eq
  have h3 := h.nonneg
  have h4 := h.le
  have h5 := h.extlesslen_eq
  rw [List.length_take] at hlen
  rw [List.length_append] at hpathlen
  refine ⟨?_, ?_, ?_⟩
  · rw [NameEntry.percentB, takeInt, if_neg (by omega), h.stem_eq]
  · rw [NameEntry.percentO, takeInt, if_neg (by omega)]
    congr 2
    omega
  · unfold NameEntry.ext
    by_cases heq : stem nle.base = nle.base
    · have := congrArg List.length heq
      rw [if_pos (by omega), if_pos heq]
    · have hne : (stem nle.base).length ≠ nle.base.length :=
        fun hl => heq (hpre.eq_of_length hl)
      rw [if_neg (by omega), if_neg (by omega), if_neg heq]
      congr 3
      omega

/-- Entries of one path that are split right give the same answers. -/
theorem SplitsRight.agree {nle nle' : NameEntry} (h : SplitsRight nle) (h' : SplitsRight nle')
    (hpath : nle.path = nle'.path) :
    nle.percentB = nle'.percentB ∧ nle.percentO = nle'.percentO ∧ nle.ext = nle'.ext := by
  have hbase : nle.base = nle'.base := by
    obtain ⟨dir, hp, hb, hd⟩ := h.base_eq
    obtain ⟨dir', hp', hb', hd'⟩ := h'.base_eq
    rw [← baseOf_append hb hd, ← baseOf_append hb' hd', ← hp, ← hp', hpath]
  obtain ⟨hB, hO, hext⟩ := h.read
  obtain ⟨hB', hO', hext'⟩ := h'.read
  rw [hB, hB', hO, hO', hext, hext', hpath, hbase]
  exact ⟨rfl, rfl, rfl⟩

theorem scanPath_eq (path : Text) : scanPath path =
    if path = [] then -1 else if '.' ∈ path.tail then ((stem path).length : ℤ) else 0 := by
  unfold scanPath
  rw [scanDot_eq path (by omega)]
  split_ifs <;> simp

/-- The scan over the whole path finds the extension of the base, unless it is the directory that
has the last `.`. -/
theorem stem_length_iff {path : Text} : ((stem path).length : ℤ) =
    path.length - (baseOf path).length + (stem (baseOf path)).length ↔
      ('.' ∈ path.tail → '.' ∈ (baseOf path).tail) := by
  obtain ⟨dir, hpath, -⟩ := exists_baseOf path
  have hlen := congrArg List.length hpath
  rw [List.length_append] at hlen
  by_cases hbase : '.' ∈ (baseOf path).tail
  · have hstem := stem_dir_append dir hbase
    rw [← hpath] at hstem
    have := congrArg List.length hstem
    rw [List.length_append] at this
    simp only [hbase, implies_true, iff_true]
    omega
  · rw [stem_of_not_mem hbase]
    by_cases hdot : '.' ∈ path.tail
    · have := stem_length_lt hdot
      simp only [hbase, hdot, true_imp_iff, iff_false]
      omega
    · rw [stem_of_not_mem hdot]
      simp only [hdot, false_imp_iff, iff_true]
      omega

theorem length_baseOf_le (path : Text) : (baseOf path).length ≤ path.length := by
  obtain ⟨dir, hpath, -⟩ := exists_baseOf path
  have := congrArg List.length hpath
  rw [List.length_append] at this
  omega

/-- With the length restored, the scan over the path is right unless the path is empty or the last
`.` is that of a directory. -/
theorem splitsRight_restored (path : Text) (tent : Option TupId) (orderid : ℕ) :
    SplitsRight (setNleBase (newEntry path
        (if scanPath path = 0 then (path.length : ℤ) else scanPath path) tent orderid)) ↔
      path ≠ [] ∧ ('.' ∈ path.tail → '.' ∈ (baseOf path).tail) := by
  have hle := length_baseOf_le path
  rw [splitsRight_iff rfl, ← stem_length_iff]
  simp only [newEntry]
  rw [scanPath_eq]
  by_cases hnil : path = []
  · rw [if_pos hnil, if_neg (by decide)]
    simp only [hnil, ne_eq, not_true_eq_false, false_and, iff_false]
    rw [hnil] at hle
    simp only [List.length_nil] at hle ⊢
    omega
  · by_cases hdot : '.' ∈ path.tail
    · have := (stem_length_lt hdot).1
      rw [if_neg hnil, if_pos hdot, if_neg (by omega)]
      simp [hnil]
    · rw [if_neg hnil, if_neg hdot, if_pos rfl, stem_of_not_mem hdot]
      simp [hnil]

/-- With the length not restored, the base has to have an extension. -/
theorem splitsRight_scan (path : Text) (tent : Option TupId) (orderid : ℕ) :
    SplitsRight (setNleBase (newEntry path (scanPath path) tent orderid)) ↔
      '.' ∈ (baseOf path).tail := by
  obtain ⟨dir, hpath, -⟩ := exists_baseOf path
  have hle := length_baseOf_le path
  have hsub : '.' ∈ (baseOf path).tail → '.' ∈ path.tail := by
    intro h
    rw [hpath]
    cases dir with
    | nil => exact h
    | cons c dir =>
      rw [List.cons_append, List.tail_cons]
      exact List.mem_append_right dir (List.mem_of_mem_tail h)
  rw [splitsRight_iff rfl]
  simp only [newEntry]
  rw [scanPath_eq]
  by_cases hbase : '.' ∈ (baseOf path).tail
  · have hdot := hsub hbase
    have hnil : path ≠ [] := by
      rintro rfl
      cases hdot
    rw [if_neg hnil, if_pos hdot, stem_length_iff]
    simp [hbase]
  · simp only [hbase, iff_false]
    rw [stem_of_not_mem hbase]
    split_ifs with hnil hdot
    · omega
    · have := (stem_length_lt hdot).2
      omega
    · have := List.length_pos_of_ne_nil hnil
      omega

/-! ### Files of the database -/

theorem relativeNames_of_above {start stop : List Text} (h : stop <+: start) :
    relativeNames start stop = List.replicate (start.length - stop.length) dotdot := by
  induction start generalizing stop with
  | nil =>
    rw [List.prefix_nil.mp h]
    rfl
  | cons s start ih =>
    cases stop with
    | nil => simp [relativeNames, List.map_const', List.replicate_succ]
    | cons e stop =>
      obtain ⟨rfl, hpre⟩ := List.cons_prefix_cons.mp h
      rw [relativeNames, if_pos rfl, ih hpre]
      simp

/-- The path to a node that is not above the start ends in the name of the node. -/
theorem relativeNames_of_not_above {start dir : List Text} {name : Text}
    (h : ¬ dir ++ [name] <+: start) :
    ∃ l, relativeNames start (dir ++ [name]) = l ++ [name] := by
  induction start generalizing dir with
  | nil => exact ⟨dir, by cases dir <;> rfl⟩
  | cons s start ih =>
    cases dir with
    | nil =>
      by_cases hs : s = name
      · exact absurd ⟨start, by rw [hs]; rfl⟩ h
      · exact ⟨(s :: start).map fun _ => dotdot, by simp [relativeNames, hs]⟩
    | cons e dir =>
      rw [List.cons_append] at h ⊢
      by_cases hs : s = e
      · subst hs
        rw [relativeNames, if_pos rfl]
        apply ih
        exact fun hpre => h (List.cons_prefix_cons.mpr ⟨rfl, hpre⟩)
      · rw [relativeNames, if_neg hs]
        exact ⟨(s :: start).map (fun _ => dotdot) ++ e :: dir, by simp⟩

/-- A joined path ends in its last name. -/
theorem exists_joinNames (l : List Text) (name : Text) : ∃ dir, joinNames (l ++ [name]) = dir ++ name ∧
    (dir = [] ∨ dir.getLast? = some '/') := by
  induction l with
  | nil => exact ⟨[], by simp [joinNames, List.intercalate], Or.inl rfl⟩
  | cons x l ih =>
    obtain ⟨dir, hdir, hlast⟩ := ih
    refine ⟨x ++ '/' :: dir, ?_, Or.inr ?_⟩
    · have hcons : joinNames (x :: (l ++ [name])) = x ++ '/' :: joinNames (l ++ [name]) := by
        cases l <;> simp [joinNames, List.intercalate]
      rw [List.cons_append, hcons, hdir]
      simp
    · rcases hlast with rfl | hlast
      · simp
      · rw [List.getLast?_append, List.getLast?_cons, hlast]
        rfl

/-- The extension that the scan of the name finds is counted off the path. -/
theorem splitsRight_database (args : BuildNameListArgs) (tent : FileTent) (path : Text)
    (hpath : getRelativeDir (args.src.map Subtype.val) tent.names = path) :
    SplitsRight (databaseEntry args tent) ↔
      (tent.name.val.length : ℤ) - (stem tent.name.val).length =
        (baseOf path).length - (stem (baseOf path)).length := by
  subst hpath
  set path := getRelativeDir (args.src.map Subtype.val) tent.names
  set name := tent.name.val
  have hle := length_baseOf_le path
  have hstem := (stem_isPrefix name).length_le
  have hglob : SplitsRight (databaseEntry args tent) ↔ SplitsRight (setNleBase (newEntry path
      (if scanDot name name.length = 0 then (path.length : ℤ)
        else path.length - (name.length - scanDot name name.length))
      (some tent.tupid) args.orderid)) :=
    ⟨fun h => ⟨h.1, h.2, h.3, h.4, h.5, h.6, h.7⟩, fun h => ⟨h.1, h.2, h.3, h.4, h.5, h.6, h.7⟩⟩
  rw [hglob, splitsRight_iff rfl]
  simp only [newEntry]
  rw [scanDot_eq name (by omega)]
  by_cases hdot : '.' ∈ name.tail
  · have := (stem_length_lt hdot).1
    rw [if_pos hdot, if_neg (by omega)]
    omega
  · rw [if_neg hdot, if_pos rfl, stem_of_not_mem hdot]
    omega

/-- A database file's entry is right unless the file is the directory of the Tupfile or above it:
then it is right for a directory without extension, or above it for one that ends in a `.`. -/
def DatabaseSplit (src names : List Text) (name : Text) : Prop :=
  if names = src then '.' ∉ name.tail
  else names <+: src → name.tail.getLast? = some '.'

theorem stem_length_eq_iff {s : Text} : (stem s).length = s.length ↔ '.' ∉ s.tail := by
  constructor
  · intro h hdot
    have := (stem_length_lt hdot).2
    omega
  · intro h
    rw [stem_of_not_mem h]

theorem stem_length_succ_iff {s : Text} :
    (stem s).length + 1 = s.length ↔ s.tail.getLast? = some '.' := by
  constructor
  · intro h
    have hdot : '.' ∈ s.tail := by
      by_contra hno
      rw [stem_of_not_mem hno] at h
      omega
    obtain ⟨a, t, rfl, ha, ht⟩ := exists_ext hdot
    rw [stem_append ha ht] at h
    obtain rfl : t = [] := by
      apply List.eq_nil_of_length_eq_zero
      simp only [List.length_append, List.length_cons] at h
      omega
    rw [List.tail_append_of_ne_nil ha]
    simp
  · intro h
    obtain ⟨a, rfl, ha⟩ : ∃ a, s = a ++ ['.'] ∧ a ≠ [] := by
      cases s with
      | nil => cases h
      | cons b s =>
        obtain ⟨l, hl⟩ := List.getLast?_eq_some_iff.mp h
        exact ⟨b :: l, by rw [List.tail_cons] at hl; rw [hl]; rfl, by simp⟩
    rw [stem_append ha (by simp)]
    simp

theorem databaseEntry_iff (args : BuildNameListArgs) (tent : FileTent) :
    SplitsRight (databaseEntry args tent) ↔
      DatabaseSplit (args.src.map Subtype.val) tent.names tent.name.val := by
  set src := args.src.map Subtype.val with hsrc
  have hname : '/' ∉ tent.name.val := tent.name.property.2
  have hnames : tent.names = tent.dir.map Subtype.val ++ [tent.name.val] := by
    simp [FileTent.names]
  have hstem := (stem_isPrefix tent.name.val).length_le
  unfold DatabaseSplit
  split_ifs with heq
  · -- the path is `.`
    have hpath : getRelativeDir src tent.names = ['.'] := by
      rw [getRelativeDir, heq, relativeNames_of_above List.prefix_rfl]
      simp
    rw [splitsRight_database args tent _ hpath, ← stem_length_eq_iff]
    have hbase : baseOf ['.'] = ['.'] := by decide
    have hdotstem : stem ['.'] = ['.'] := by decide
    rw [hbase, hdotstem]
    omega
  · by_cases hpre : tent.names <+: src
    · -- the path is a row of `..`
      have hlt : tent.names.length < src.length := by
        rcases Nat.lt_or_ge tent.names.length src.length with hlt | hge
        · exact hlt
        · exact absurd (hpre.eq_of_length_le hge) heq
      obtain ⟨k, hk⟩ : ∃ k, src.length - tent.names.length = k + 1 :=
        ⟨src.length - tent.names.length - 1, by omega⟩
      obtain ⟨dir, hdir, hlast⟩ := exists_joinNames (List.replicate k dotdot) dotdot
      have hpath : getRelativeDir src tent.names = dir ++ dotdot := by
        rw [getRelativeDir, relativeNames_of_above hpre, hk, List.replicate_succ', if_neg (by simp),
          hdir]
      rw [splitsRight_database args tent _ hpath, baseOf_append (by decide) hlast]
      simp only [hpre, true_imp_iff]
      rw [← stem_length_succ_iff]
      have hdotstem : (stem dotdot).length = 1 := by decide
      have hdotlen : dotdot.length = 2 := rfl
      omega
    · -- the path ends in the name
      obtain ⟨l, hl⟩ := relativeNames_of_not_above (hnames ▸ hpre)
      obtain ⟨dir, hdir, hlast⟩ := exists_joinNames l tent.name.val
      have hpath : getRelativeDir src tent.names = dir ++ tent.name.val := by
        rw [getRelativeDir, hnames, hl, if_neg (by simp), hdir]
      rw [splitsRight_database args tent _ hpath, baseOf_append hname hlast]
      simp [hpre]

/-! ### The constructors -/

/-- For which paths each constructor splits the name as it should, and that the entries of one path
that are split right give the same answers. -/
theorem name_split_iff (path : Text) (orderid : ℕ) (id : TupId) (args : BuildNameListArgs)
    (tent : FileTent) :
    (SplitsRight (externalEntry path orderid) ↔
      path ≠ [] ∧ ('.' ∈ path.tail → '.' ∈ (baseOf path).tail)) ∧
    (SplitsRight (binEntry ⟨path, id⟩ orderid) ↔
      path ≠ [] ∧ ('.' ∈ path.tail → '.' ∈ (baseOf path).tail)) ∧
    (SplitsRight (outputEntry path id orderid) ↔ '.' ∈ (baseOf path).tail) ∧
    (SplitsRight (databaseEntry args tent) ↔
      DatabaseSplit (args.src.map Subtype.val) tent.names tent.name.val) ∧
    ∀ nle nle', SplitsRight nle → SplitsRight nle' → nle.path = nle'.path →
      nle.percentB = nle'.percentB ∧ nle.percentO = nle'.percentO ∧ nle.ext = nle'.ext :=
  ⟨splitsRight_restored path none orderid, splitsRight_restored path (some id) orderid,
    splitsRight_scan path (some id) orderid, databaseEntry_iff args tent,
    fun _ _ h h' hpath => h.agree h' hpath⟩

/-- The base of the output `foo` without its extension is empty. -/
theorem output_split_differs : ¬ ∀ (path : Text) (orderid : ℕ) (id : TupId)
    (args : BuildNameListArgs) (tent : FileTent),
    SplitsRight (externalEntry path orderid) ∧ SplitsRight (binEntry ⟨path, id⟩ orderid) ∧
      SplitsRight (outputEntry path id orderid) ∧ SplitsRight (databaseEntry args tent) := by
  intro h
  have hsplit := (h "foo".toList 0 5 ⟨[], false, 0, 1, []⟩ ⟨5, 1, -1, [], ⟨['a'], by decide⟩⟩).2.2.1
  have hstem := hsplit.stem_eq
  exact absurd hstem (by decide)

end Metatup
