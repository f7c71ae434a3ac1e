import Metatup.Vars.TupConfig

/-!
# The vardict file

The variables of a variant are written to a file that processes map into memory: their number, an
index of offsets, and the texts `name=value` in the order of the tree. A variable is searched for by
halving, and the search compares plain `char`s, which are signed.

* `Searchable`: the names that the order of the tree and the order of the search agree on.
* `tupConfigVar_iff`: every key is answered from the map just when its names are searchable.
-/

namespace Metatup

open Lib

/-- A byte as a plain `char`. -/
def signedChar (b : Byte) : ℤ := if b < 128 then (b : ℕ) else (b : ℕ) - 256

/-- A 32-bit number in memory, the low byte first. -/
def u32 (n : ℕ) : Bytes :=
  [Fin.ofNat 256 n, Fin.ofNat 256 (n / 2 ^ 8), Fin.ofNat 256 (n / 2 ^ 16), Fin.ofNat 256 (n / 2 ^ 24)]

def readU32 : Bytes → ℕ
  | b₀ :: b₁ :: b₂ :: b₃ :: _ => b₀ + 2 ^ 8 * b₁ + 2 ^ 16 * b₂ + 2 ^ 24 * b₃
  | _ => 0

/-- The text of a C string. -/
def cString (p : Bytes) : Bytes := p.takeWhile (· ≠ 0)

/-! ### Writing -/

/-- The first loop of `save_vardict_file`. -/
def saveIndex : ℕ → List (Bytes × Bytes) → Bytes
  | _, [] => []
  | x, (name, value) :: l =>
    u32 x ++ saveIndex ((x + name.length + 1 + value.length + 1) % 2 ^ 32) l

/-- The second loop of `save_vardict_file`. -/
def saveEntries (l : List (Bytes × Bytes)) : Bytes :=
  l.flatMap fun e => e.1 ++ byte '=' :: (e.2 ++ [0])

/-- The file after a call, given `tup_db_var_changed` and the file before it.
Source: `db.c` `save_vardict_file` -/
def saveVardictFile (varChanged : ℕ) (old : Option Bytes) (vdb : VarTree) : Option Bytes :=
  if varChanged = 0 then old
  else some (u32 vdb.entries.length ++ saveIndex 0 vdb.entries ++ saveEntries vdb.entries)

/-! ### Reading -/

/-- Source: `vardict.c` `struct vardict`; the pointers are what they point to. -/
structure Vardict where
  len : ℕ := 0
  numEntries : ℕ := 0
  offsets : Bytes := []
  entries : Bytes := []

/-- Source: `vardict.c` `tup_vardict_init` -/
def tupVardictInit : Option Bytes → Option Vardict
  | none => some {}
  | some file =>
    let len := file.length % 2 ^ 32
    if len = 0 then some {}
    else if len < 4 then none
    else
      let map := file.take len
      let numEntries := readU32 map
      let expected := (4 + 4 * numEntries) % 2 ^ 32
      if len < expected then none
      else some { len, numEntries, offsets := map.drop 4, entries := map.drop expected }

/-- The inner loop of `tup_config_var`: the text at `p` is below the key, above it or the one
searched for. -/
def compareVar : Bytes → Bytes → Probe Bytes
  | p, [] => if p.headD 0 = byte '=' then .done (some (cString p.tail)) else .above
  | p, k :: key =>
    if p.headD 0 = byte '=' then .below
    else if signedChar (p.headD 0) < signedChar k then .below
    else if signedChar k < signedChar (p.headD 0) then .above
    else compareVar p.tail key

/-- The body of the outer loop of `tup_config_var`. -/
def probeVar (v : Vardict) (key : Bytes) (cur : ℤ) : Probe Bytes :=
  if (v.numEntries : ℤ).bmod (2 ^ 32) ≤ cur then .done none
  else
    let offset := readU32 (v.offsets.drop (4 * cur.toNat))
    if v.len ≤ offset then .done none else compareVar (v.entries.drop offset) key

/-- Source: `vardict.c` `tup_config_var` -/
def tupConfigVar (v : Vardict) (key : Bytes) : Option Bytes :=
  bisect (probeVar v key) (-1) ((v.numEntries : ℤ).bmod (2 ^ 32))

/-! ### Comparing -/

theorem signedChar_injective : Function.Injective signedChar := by
  intro a b h
  have ha := a.isLt
  have hb := b.isLt
  unfold signedChar at h
  ext
  split_ifs at h <;> omega

/-- A text before `=` is compared as the list of its signed bytes. -/
theorem compareVar_entry {name rest key : Bytes} (h : byte '=' ∉ name) :
    compareVar (name ++ byte '=' :: rest) key =
      if name.map signedChar < key.map signedChar then .below
      else if key.map signedChar < name.map signedChar then .above
      else .done (some (cString rest)) := by
  induction key generalizing name with
  | nil =>
    cases name with
    | nil => simp [compareVar]
    | cons c name =>
      have hc : c ≠ byte '=' := fun hc => h (hc ▸ List.mem_cons_self)
      simp [compareVar, hc]
  | cons k key ih =>
    cases name with
    | nil => simp [compareVar]
    | cons c name =>
      rw [List.mem_cons, not_or] at h
      have hc : c ≠ byte '=' := Ne.symm h.1
      simp only [compareVar, List.cons_append, List.headD_cons, if_neg hc, List.tail_cons, ih h.2,
        List.map_cons, List.cons_lt_cons_iff]
      rcases lt_trichotomy (signedChar c) (signedChar k) with hlt | heq | hgt
      · simp [hlt]
      · simp [heq]
      · simp [hgt, hgt.not_gt, hgt.ne']

/-- A key with an `=` in it is never found. -/
theorem not_mem_of_compareVar {p key v : Bytes} (h : compareVar p key = .done (some v)) :
    byte '=' ∉ key := by
  induction key generalizing p with
  | nil => exact List.not_mem_nil
  | cons k key ih =>
    unfold compareVar at h
    split_ifs at h with heq hlt hgt
    rw [List.mem_cons, not_or]
    refine ⟨fun hk => heq ?_, ih h⟩
    exact hk ▸ signedChar_injective (le_antisymm (not_lt.1 hgt) (not_lt.1 hlt))

/-! ### The file that is written -/

@[simp] theorem length_u32 (n : ℕ) : (u32 n).length = 4 := rfl

theorem readU32_u32 {n : ℕ} (h : n < 2 ^ 32) (p : Bytes) : readU32 (u32 n ++ p) = n := by
  simp only [u32, List.cons_append, readU32, Fin.val_ofNat]
  omega

@[simp] theorem length_saveIndex (x : ℕ) (l : List (Bytes × Bytes)) :
    (saveIndex x l).length = 4 * l.length := by
  induction l generalizing x with
  | nil => rfl
  | cons e l ih =>
    rw [saveIndex, List.length_append, ih, length_u32, List.length_cons]
    omega

@[simp] theorem saveEntries_cons (name value : Bytes) (l : List (Bytes × Bytes)) :
    saveEntries ((name, value) :: l) = name ++ byte '=' :: (value ++ 0 :: saveEntries l) := by
  simp [saveEntries]

theorem saveEntries_append (l l' : List (Bytes × Bytes)) :
    saveEntries (l ++ l') = saveEntries l ++ saveEntries l' := List.flatMap_append

/-- The offset of a variable is where its text begins. -/
theorem readU32_saveIndex {x i : ℕ} {l : List (Bytes × Bytes)} {p : Bytes} (hi : i < l.length)
    (h : x + (saveEntries l).length < 2 ^ 32) :
    readU32 ((saveIndex x l ++ p).drop (4 * i)) = x + (saveEntries (l.take i)).length := by
  induction l generalizing x i with
  | nil => cases hi
  | cons e l ih =>
    obtain ⟨name, value⟩ := e
    have hlen : (saveEntries ((name, value) :: l)).length =
        name.length + 1 + value.length + 1 + (saveEntries l).length := by
      simp only [saveEntries_cons, List.length_append, List.length_cons]
      omega
    rw [hlen] at h
    cases i with
    | zero =>
      rw [Nat.mul_zero, List.drop_zero, saveIndex, List.append_assoc]
      exact readU32_u32 (by omega) _
    | succ i =>
      have hdrop : (saveIndex x ((name, value) :: l) ++ p).drop (4 * (i + 1)) =
          (saveIndex ((x + name.length + 1 + value.length + 1) % 2 ^ 32) l ++ p).drop (4 * i) := by
        rw [saveIndex, List.append_assoc, List.drop_append, length_u32,
          List.drop_eq_nil_of_le (by rw [length_u32]; omega)]
        rfl
      rw [hdrop, ih (Nat.lt_of_succ_lt_succ hi) (by omega), List.take_succ_cons, saveEntries_cons]
      simp only [List.length_append, List.length_cons]
      omega

theorem sum_entryBytes (l : List (Bytes × Bytes)) :
    (l.map entryBytes).sum = (saveEntries l).length + 4 * l.length := by
  induction l with
  | nil => rfl
  | cons e l ih =>
    obtain ⟨name, value⟩ := e
    rw [List.map_cons, List.sum_cons, ih, saveEntries_cons]
    simp only [entryBytes, List.length_append, List.length_cons]
    omega

section

variable {vdb : VarTree} {n varChanged : ℕ} {old : Option Bytes}

/-- What is mapped of a file that has been written. -/
def savedVardict (vdb : VarTree) : Vardict where
  len := 4 + 4 * vdb.entries.length + (saveEntries vdb.entries).length
  numEntries := vdb.entries.length
  offsets := saveIndex 0 vdb.entries ++ saveEntries vdb.entries
  entries := saveEntries vdb.entries

theorem tupVardictInit_saveVardictFile (h : TreeFits vdb n) (hn : n < 2 ^ 31)
    (hchanged : varChanged ≠ 0) :
    tupVardictInit (saveVardictFile varChanged old vdb) = some (savedVardict vdb) := by
  have hsize := h.size
  rw [sum_entryBytes] at hsize
  have hcount := readU32_u32 (n := vdb.entries.length) (by omega)
    (saveIndex 0 vdb.entries ++ saveEntries vdb.entries)
  have hdrop : (u32 vdb.entries.length ++ (saveIndex 0 vdb.entries ++ saveEntries vdb.entries)).drop
      (4 + 4 * vdb.entries.length) = saveEntries vdb.entries := by
    rw [← List.append_assoc]
    exact List.drop_left' (by simp)
  have hlen : (u32 vdb.entries.length ++ (saveIndex 0 vdb.entries ++
      saveEntries vdb.entries)).length =
        4 + 4 * vdb.entries.length + (saveEntries vdb.entries).length := by
    simp [Nat.add_assoc]
  rw [saveVardictFile, if_neg hchanged, tupVardictInit, List.append_assoc]
  simp only [hlen]
  rw [Nat.mod_eq_of_lt (by omega), List.take_of_length_le hlen.le, hcount,
    Nat.mod_eq_of_lt (by omega), if_neg (by omega), if_neg (by omega), if_neg (by omega), hdrop]
  rfl

theorem numEntries_savedVardict (h : TreeFits vdb n) (hn : n < 2 ^ 31) :
    ((savedVardict vdb).numEntries : ℤ).bmod (2 ^ 32) = vdb.entries.length := by
  have hsize := h.size
  rw [sum_entryBytes] at hsize
  refine Int.bmod_eq_of_le ?_ ?_ <;> simp only [savedVardict] <;> omega

theorem probeVar_savedVardict (h : TreeFits vdb n) (hn : n < 2 ^ 31) (key : Bytes) {i : ℕ}
    (hi : i < vdb.entries.length) :
    probeVar (savedVardict vdb) key i = compareVar (saveEntries (vdb.entries.drop i)) key := by
  have hsize := h.size
  rw [sum_entryBytes] at hsize
  have happ : saveEntries vdb.entries =
      saveEntries (vdb.entries.take i) ++ saveEntries (vdb.entries.drop i) := by
    rw [← saveEntries_append, List.take_append_drop]
  have hle : (saveEntries (vdb.entries.take i)).length ≤ (saveEntries vdb.entries).length := by
    rw [happ, List.length_append]
    exact Nat.le_add_right _ _
  have hoffset : readU32 ((savedVardict vdb).offsets.drop (4 * (i : ℤ).toNat)) =
      (saveEntries (vdb.entries.take i)).length := by
    rw [Int.toNat_natCast, savedVardict, readU32_saveIndex hi (by omega), Nat.zero_add]
  have hdrop : (savedVardict vdb).entries.drop (saveEntries (vdb.entries.take i)).length =
      saveEntries (vdb.entries.drop i) := by
    show (saveEntries vdb.entries).drop _ = _
    conv_lhs => rw [happ]
    exact List.drop_left' rfl
  rw [probeVar, numEntries_savedVardict h hn, if_neg (by omega)]
  simp only [hoffset, hdrop]
  rw [if_neg]
  show ¬ 4 + 4 * vdb.entries.length + (saveEntries vdb.entries).length ≤ _
  omega

/-- The variables with their names as they are compared in a search. -/
def signedTable (vdb : VarTree) : List (List ℤ × Bytes) :=
  vdb.entries.map fun e => (e.1.map signedChar, e.2)

/-- Without an `=` in a name the search is the search of a table. -/
theorem tupConfigVar_savedVardict (h : TreeFits vdb n) (hn : n < 2 ^ 31)
    (heq : ∀ e ∈ vdb.entries, byte '=' ∉ e.1) (key : Bytes) :
    tupConfigVar (savedVardict vdb) key =
      bisect (probeAt (signedTable vdb) (key.map signedChar)) (-1) (signedTable vdb).length := by
  have hlen : (signedTable vdb).length = vdb.entries.length := List.length_map _
  rw [tupConfigVar, numEntries_savedVardict h hn, hlen]
  apply bisect_congr
  intro j hj hj'
  obtain ⟨i, rfl⟩ := Int.eq_ofNat_of_zero_le (show 0 ≤ j by omega)
  have hi : i < vdb.entries.length := by omega
  have hmem := List.getElem_mem hi
  obtain ⟨⟨name, value⟩, hentry⟩ : ∃ e, vdb.entries[i] = e := ⟨_, rfl⟩
  rw [hentry] at hmem
  have hvalue : ∀ p, cString (value ++ 0 :: p) = value := fun p => by
    rw [cString, List.takeWhile_append_of_pos, List.takeWhile_cons_of_neg (by simp),
      List.append_nil]
    intro b hb
    simpa using fun hb0 : b = 0 => h.noNull _ hmem (hb0 ▸ hb)
  have hprobe := probeVar_savedVardict h hn key hi
  rw [List.drop_eq_getElem_cons hi, hentry, saveEntries_cons,
    compareVar_entry (heq _ hmem), hvalue] at hprobe
  rw [hprobe, probeAt, Int.toNat_natCast, signedTable, List.getElem?_map,
    List.getElem?_eq_getElem hi, hentry, Option.map_some]
  dsimp only
  split_ifs <;> rfl

end

/-! ### Answers -/

/-- No name has an `=` in it, and names that increase as unsigned bytes increase as signed ones. -/
structure Searchable (m : Bytes → Option Bytes) : Prop where
  noEquals : ∀ k, (m k).isSome → byte '=' ∉ k
  increasing : ∀ k l, (m k).isSome → (m l).isSome → k < l →
    k.map signedChar < l.map signedChar

theorem isSome_get_iff {vdb : VarTree} {k : Bytes} :
    (vdb.get k).isSome ↔ ∃ e ∈ vdb.entries, e.1 = k := by
  rw [SortedTable.get, List.lookup_isSome_iff]
  exact exists_congr fun e => and_congr_right fun _ => beq_iff_eq.trans eq_comm

theorem map_signedChar_injective : Function.Injective (List.map signedChar) :=
  List.map_injective_iff.2 signedChar_injective

theorem lookup_signedTable (vdb : VarTree) (key : Bytes) :
    (signedTable vdb).lookup (key.map signedChar) = vdb.get key := by
  rw [signedTable, SortedTable.get]
  induction vdb.entries with
  | nil => rfl
  | cons e l ih =>
    rw [List.map_cons, List.lookup_cons, List.lookup_cons, ih]
    by_cases hk : key = e.1
    · simp [hk]
    · have hbeq : (key == e.1) = false := beq_eq_false_iff_ne.2 hk
      have hbeq' : (key.map signedChar == e.1.map signedChar) = false :=
        beq_eq_false_iff_ne.2 fun heq => hk (map_signedChar_injective heq)
      rw [hbeq, hbeq']

/-- The order of the search agrees with that of the tree. -/
theorem pairwise_signedTable {vdb : VarTree} :
    ((signedTable vdb).Pairwise fun a b => a.1 < b.1) ↔
      ∀ k l, (vdb.get k).isSome → (vdb.get l).isSome → k < l →
        k.map signedChar < l.map signedChar := by
  rw [signedTable, List.pairwise_map]
  constructor
  · intro h k l hk hl
    obtain ⟨a, ha, rfl⟩ := isSome_get_iff.1 hk
    obtain ⟨b, hb, rfl⟩ := isSome_get_iff.1 hl
    have hboth := h.and vdb.sorted
    exact List.Pairwise.forall_of_forall_of_flip
      (R := fun a b => a.1 < b.1 → a.1.map signedChar < b.1.map signedChar)
      (fun e _ hlt => absurd hlt (lt_irrefl _)) (hboth.imp fun hab _ => hab.1)
      (hboth.imp fun hab hlt => absurd hlt hab.2.not_gt) ha hb
  · intro h
    refine vdb.sorted.imp_of_mem fun {a b} ha hb hlt => ?_
    exact h _ _ (isSome_get_iff.2 ⟨a, ha, rfl⟩) (isSome_get_iff.2 ⟨b, hb, rfl⟩) hlt

/-- Every key is answered with its value just when the names are searchable. -/
theorem tupConfigVar_iff {vdb : VarTree} {n : ℕ} (h : TreeFits vdb n) (hn : n < 2 ^ 31) :
    (∀ key, tupConfigVar (savedVardict vdb) key = vdb.get key) ↔ Searchable vdb.get := by
  constructor
  · intro hget
    have heq : ∀ k, (vdb.get k).isSome → byte '=' ∉ k := by
      intro k hk
      obtain ⟨v, hv⟩ := Option.isSome_iff_exists.1 hk
      obtain ⟨j, hj, hj', hprobe⟩ := probe_of_bisect ((hget k).trans hv)
      rw [numEntries_savedVardict h hn] at hj'
      obtain ⟨i, rfl⟩ := Int.eq_ofNat_of_zero_le (show 0 ≤ j by omega)
      rw [probeVar_savedVardict h hn k (by omega)] at hprobe
      exact not_mem_of_compareVar hprobe
    have heq' : ∀ e ∈ vdb.entries, byte '=' ∉ e.1 := fun e he =>
      heq _ (isSome_get_iff.2 ⟨e, he, rfl⟩)
    refine ⟨heq, pairwise_signedTable.1 (pairwise_of_bisect ?_ ?_)⟩
    · rw [signedTable, List.map_map]
      show (vdb.entries.map fun e => e.1.map signedChar).Nodup
      exact (List.pairwise_map.2 (vdb.sorted.imp fun hlt => map_signedChar_injective.ne hlt.ne))
    · intro e he
      obtain ⟨e, hmem, rfl⟩ := List.mem_map.1 he
      rw [← tupConfigVar_savedVardict h hn heq', hget]
      exact Option.isSome_iff_ne_none.1 (isSome_get_iff.2 ⟨e, hmem, rfl⟩)
  · intro hs key
    have heq : ∀ e ∈ vdb.entries, byte '=' ∉ e.1 := fun e he =>
      hs.noEquals _ (isSome_get_iff.2 ⟨e, he, rfl⟩)
    rw [tupConfigVar_savedVardict h hn heq, bisect_eq_lookup (pairwise_signedTable.2 hs.increasing),
      lookup_signedTable]

end Metatup
