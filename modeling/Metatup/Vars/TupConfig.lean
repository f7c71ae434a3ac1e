import Mathlib.Algebra.GroupWithZero.Nat
import Mathlib.Data.List.DropRight
import Mathlib.Order.Fin.Basic
import Metatup.Lib.SortedTable

/-!
# Reading `tup.config`

A `tup.config` file as its bytes, and the variable tree that is read from it. The tree is ordered by
`strcmp`, which compares unsigned bytes.

* `Denotes`: what the lines of a file say, each on its own and the last one of a name winning.
* `getFileVarTree_iff`: the tree that is read is the map the lines denote.
-/

namespace Metatup

open Lib

abbrev Byte := Fin 256

instance Byte.neZero : NeZero 256 := ⟨by decide⟩

instance : LawfulBEq Byte := inferInstance

/-- A C string, or the contents of a file. -/
abbrev Bytes := List Byte

/-- The byte of a character. -/
def byte (c : Char) : Byte := Fin.ofNat 256 c.toNat

def bytes (s : String) : Bytes := s.toList.map byte

/-- Source: `vardb.h` `struct vardb`, ordered as by `string_tree.c` `string_tree_cmp`. -/
abbrev VarTree := SortedTable Bytes Bytes

/-- `isspace` in the C locale. -/
def isspace (b : Byte) : Bool := b = byte ' ' || (9 ≤ b && b ≤ 13)

/-- `strchr`: the text before the first `c` of a string and the text after it. A string ends at its
first null byte. -/
def strchr (c : Byte) : Bytes → Option (Bytes × Bytes)
  | [] => none
  | b :: p =>
    if b = c then some ([], p)
    else if b = 0 then none
    else (strchr c p).map fun r => (b :: r.1, r.2)

/-- Source: `fslurp.c` `do_slurp`. The size is an `int`; the UTF-8 byte-order mark is dropped. -/
def fslurp (file : Bytes) : Option Bytes :=
  let readBytes := file.length % 2 ^ 32
  if 2 ^ 31 ≤ readBytes then none
  else
    let b := file.take readBytes
    some (if b.take 3 = [0xef, 0xbb, 0xbf] then b.drop 3 else b)

def configPrefix : Bytes := bytes "CONFIG_"

def unsetPrefix : Bytes := bytes "# CONFIG_"

/-- The branches of the loop of `get_file_var_tree` for one line. -/
def readLine (p : Bytes) (vdb : VarTree) : Option VarTree :=
  if p = [] then some vdb
  else if p.head? = some (byte '#') then
    if unsetPrefix.isPrefixOf p then
      match strchr (byte ' ') (p.drop 9) with
      | none => none
      | some (name, _) => some (vdb.set name (bytes "n"))
    else some vdb
  else if !configPrefix.isPrefixOf p then none
  else
    match strchr (byte '=') p with
    | none => none
    | some (var, eq) =>
      if eq.head? = some (byte '"') then
        match strchr (byte '"') eq.tail with
        | none => none
        | some (value, _) => some (vdb.set (var.drop 7) value)
      else some (vdb.set (var.drop 7) eq)

/-- The loop of `get_file_var_tree`. The newline moves back over white space, and the next line
begins after it. -/
def getFileVarTreeLoop : Bytes → VarTree → Option VarTree
  | [], vdb => some vdb
  | c :: p, vdb =>
    match strchr (byte '\n') (c :: p) with
    | none => none
    | some (line, _) =>
      let line := line.rdropWhile isspace
      match readLine line vdb with
      | none => none
      | some vdb => getFileVarTreeLoop ((c :: p).drop (line.length + 1)) vdb
termination_by p => p.length
decreasing_by
  simp only [List.drop_succ_cons, List.length_drop, List.length_cons]
  omega

/-- Source: `db.c` `get_file_var_tree` -/
def getFileVarTree (file : Bytes) : Option VarTree :=
  (fslurp file).bind fun p => getFileVarTreeLoop p .empty

/-! ### What the lines say -/

/-- What a line says about a variable, the white space at its end taken away. -/
inductive TextAssigns : Bytes → Option (Bytes × Bytes) → Prop
  | blank : TextAssigns [] none
  | comment {p : Bytes} (h : ¬ unsetPrefix <+: byte '#' :: p) : TextAssigns (byte '#' :: p) none
  | unset {name rest : Bytes} (h : byte ' ' ∉ name) :
    TextAssigns (unsetPrefix ++ name ++ byte ' ' :: rest) (some (name, bytes "n"))
  | quoted {name value rest : Bytes} (h : byte '=' ∉ name) (hv : byte '"' ∉ value) :
    TextAssigns (configPrefix ++ name ++ byte '=' :: byte '"' :: value ++ byte '"' :: rest)
      (some (name, value))
  | plain {name value : Bytes} (h : byte '=' ∉ name) (hv : value.head? ≠ some (byte '"')) :
    TextAssigns (configPrefix ++ name ++ byte '=' :: value) (some (name, value))

/-- What a line says about a variable. -/
def LineAssigns (line : Bytes) (s : Option (Bytes × Bytes)) : Prop :=
  ∃ text ws, line = text ++ ws ∧ (∀ b ∈ ws, isspace b = true) ∧
    (∀ b ∈ text.getLast?, isspace b = false) ∧ TextAssigns text s

/-- The bytes of a line: no newline and no null byte. -/
def CleanLine (line : Bytes) : Prop := byte '\n' ∉ line ∧ (0 : Byte) ∉ line

/-- The lines of a file, each with its newline. -/
def unlines (lines : List Bytes) : Bytes := lines.flatMap (· ++ [byte '\n'])

/-- The text of a file after a byte-order mark. -/
def dropBom (file : Bytes) : Bytes :=
  if [0xef, 0xbb, 0xbf] <+: file then file.drop 3 else file

/-- The map that the lines of a file denote. -/
def Denotes (file : Bytes) (m : Bytes → Option Bytes) : Prop :=
  ∃ lines effects, dropBom file = unlines lines ∧ (∀ l ∈ lines, CleanLine l) ∧
    List.Forall₂ LineAssigns lines effects ∧ m = fun k => effects.reduceOption.reverse.lookup k

/-! ### Searching for a byte -/

section

variable {c : Byte} {p q r : Bytes}

theorem strchr_append_left (h : c ∉ p) (h0 : (0 : Byte) ∉ p) :
    strchr c (p ++ q) = (strchr c q).map fun r => (p ++ r.1, r.2) := by
  induction p with
  | nil => simp
  | cons b p ih =>
    rw [List.mem_cons, not_or] at h h0
    simp [strchr, ih h.2 h0.2, Ne.symm h.1, Ne.symm h0.1, Function.comp_def]

theorem strchr_append (h : c ∉ p) (h0 : (0 : Byte) ∉ p) : strchr c (p ++ c :: q) = some (p, q) := by
  rw [strchr_append_left h h0]
  simp [strchr]

theorem strchr_spec (h : strchr c p = some (q, r)) : p = q ++ c :: r ∧ c ∉ q ∧ (0 : Byte) ∉ q := by
  induction p generalizing q with
  | nil => cases h
  | cons b p ih =>
    unfold strchr at h
    split_ifs at h with hc h0
    · cases h
      simp [hc]
    · obtain ⟨⟨q', r'⟩, hqr, heq⟩ := Option.map_eq_some_iff.1 h
      cases heq
      obtain ⟨rfl, hq, hq0⟩ := ih hqr
      rw [List.mem_cons, List.mem_cons, not_or, not_or]
      exact ⟨rfl, ⟨Ne.symm hc, hq⟩, Ne.symm h0, hq0⟩

end

/-! ### One line -/

/-- Set the variable that a line assigns, if it assigns one. -/
def applyLine (vdb : VarTree) : Option (Bytes × Bytes) → VarTree
  | none => vdb
  | some (name, value) => vdb.set name value

theorem drop_configPrefix (p : Bytes) : (configPrefix ++ p).drop 7 = p := List.drop_left' rfl

theorem drop_unsetPrefix (p : Bytes) : (unsetPrefix ++ p).drop 9 = p := List.drop_left' rfl

theorem strchr_configPrefix (p : Bytes) :
    strchr (byte '=') (configPrefix ++ p) =
      (strchr (byte '=') p).map fun r => (configPrefix ++ r.1, r.2) :=
  strchr_append_left (by decide) (by decide)

theorem readLine_assign {name v : Bytes} (h : byte '=' ∉ name)
    (h0 : (0 : Byte) ∉ configPrefix ++ name ++ byte '=' :: v) (vdb : VarTree) :
    readLine (configPrefix ++ name ++ byte '=' :: v) vdb =
      if v.head? = some (byte '"') then
        (strchr (byte '"') v.tail).map fun r => vdb.set name r.1
      else some (vdb.set name v) := by
  have hhead : (configPrefix ++ name ++ byte '=' :: v).head? ≠ some (byte '#') := by
    show some (byte 'C') ≠ some (byte '#')
    decide
  have hpre : configPrefix.isPrefixOf (configPrefix ++ name ++ byte '=' :: v) = true := by
    rw [List.isPrefixOf_iff_prefix, List.append_assoc]
    exact List.prefix_append _ _
  have heq : strchr (byte '=') (configPrefix ++ name ++ byte '=' :: v) =
      some (configPrefix ++ name, v) := by
    rw [List.append_assoc, strchr_configPrefix, strchr_append h fun h => h0 (by simp [h])]
    rfl
  rw [readLine, if_neg (by simp), if_neg hhead, hpre, if_neg (by decide), heq]
  simp only [drop_configPrefix]
  split
  · cases strchr (byte '"') v.tail <;> rfl
  · rfl

theorem readLine_of_textAssigns {p : Bytes} {s : Option (Bytes × Bytes)} (h : TextAssigns p s)
    (h0 : (0 : Byte) ∉ p) (vdb : VarTree) : readLine p vdb = some (applyLine vdb s) := by
  cases h with
  | blank => rfl
  | @comment p h =>
    have hpre : unsetPrefix.isPrefixOf (byte '#' :: p) = false := by
      rw [← Bool.not_eq_true, List.isPrefixOf_iff_prefix]
      exact h
    simp [readLine, hpre, applyLine]
  | @unset name rest h =>
    have hpre : unsetPrefix.isPrefixOf (unsetPrefix ++ name ++ byte ' ' :: rest) = true := by
      rw [List.isPrefixOf_iff_prefix, List.append_assoc]
      exact List.prefix_append _ _
    have hname : strchr (byte ' ') (name ++ byte ' ' :: rest) = some (name, rest) :=
      strchr_append h fun h => h0 (by simp [h])
    have hhead : (unsetPrefix ++ name ++ byte ' ' :: rest).head? = some (byte '#') := rfl
    rw [readLine, if_neg (by simp), if_pos hhead, if_pos hpre, List.append_assoc, drop_unsetPrefix,
      hname]
    rfl
  | @quoted name value rest h hv =>
    have hvalue : strchr (byte '"') (value ++ byte '"' :: rest) = some (value, rest) :=
      strchr_append hv fun h => h0 (by simp [h])
    rw [List.append_assoc, List.cons_append, List.cons_append] at h0 ⊢
    rw [readLine_assign h h0, if_pos List.head?_cons, List.tail_cons, hvalue]
    rfl
  | @plain name value h hv =>
    rw [readLine_assign h h0, if_neg hv]
    rfl

theorem textAssigns_of_readLine {p : Bytes} {vdb vdb' : VarTree} (h0 : (0 : Byte) ∉ p)
    (h : readLine p vdb = some vdb') : ∃ s, TextAssigns p s ∧ vdb' = applyLine vdb s := by
  have h' := h
  unfold readLine at h'
  split_ifs at h' with hnil hhash hunset hconfig
  · cases h'
    exact ⟨none, hnil ▸ .blank, rfl⟩
  · obtain ⟨t, rfl⟩ := List.isPrefixOf_iff_prefix.1 hunset
    split at h'
    · cases h'
    · rename_i name rest hname
      cases h'
      obtain ⟨heq, hspace, -⟩ := strchr_spec hname
      rw [drop_unsetPrefix] at heq
      refine ⟨some (name, bytes "n"), ?_, rfl⟩
      rw [heq, ← List.append_assoc]
      exact .unset hspace
  · cases h'
    obtain ⟨p, rfl⟩ := List.head?_eq_some_iff.1 hhash
    exact ⟨none, .comment fun hpre => hunset (List.isPrefixOf_iff_prefix.2 hpre), rfl⟩
  · rw [Bool.not_eq_true, Bool.not_eq_false'] at hconfig
    obtain ⟨t, rfl⟩ := List.isPrefixOf_iff_prefix.1 hconfig
    rw [strchr_configPrefix] at h'
    cases heq : strchr (byte '=') t with
    | none =>
      rw [heq] at h'
      cases h'
    | some r =>
      obtain ⟨name, v⟩ := r
      obtain ⟨rfl, hname, -⟩ := strchr_spec heq
      rw [← List.append_assoc] at h h0 ⊢
      rw [readLine_assign hname h0] at h
      split_ifs at h with hquote
      · obtain ⟨v, rfl⟩ := List.head?_eq_some_iff.1 hquote
        obtain ⟨⟨value, rest⟩, hvalue, hset⟩ := Option.map_eq_some_iff.1 h
        obtain ⟨heqv, hv, -⟩ := strchr_spec hvalue
        rw [List.tail_cons] at heqv
        refine ⟨some (name, value), ?_, hset.symm⟩
        simpa [heqv] using @TextAssigns.quoted name value rest hname hv
      · exact ⟨some (name, v), .plain hname hquote, (Option.some.inj h).symm⟩

/-- A line is read as what it says about a variable. -/
theorem readLine_iff {p : Bytes} {vdb vdb' : VarTree} (h0 : (0 : Byte) ∉ p) :
    readLine p vdb = some vdb' ↔ ∃ s, TextAssigns p s ∧ vdb' = applyLine vdb s := by
  constructor
  · exact textAssigns_of_readLine h0
  · rintro ⟨s, hs, rfl⟩
    exact readLine_of_textAssigns hs h0 vdb

/-! ### All the lines -/

section

variable {line rest ws : Bytes} {vdb : VarTree}

theorem getFileVarTreeLoop_step (h : CleanLine line) :
    getFileVarTreeLoop (line ++ byte '\n' :: rest) vdb =
      (readLine (line.rdropWhile isspace) vdb).bind
        (getFileVarTreeLoop
          ((line ++ byte '\n' :: rest).drop ((line.rdropWhile isspace).length + 1))) := by
  have hne : line ++ byte '\n' :: rest ≠ [] := by simp
  obtain ⟨c, p, hcp⟩ := List.exists_cons_of_ne_nil hne
  have hnl : strchr (byte '\n') (c :: p) = some (line, rest) := hcp ▸ strchr_append h.1 h.2
  rw [hcp, getFileVarTreeLoop, hnl]
  cases hread : readLine (line.rdropWhile isspace) vdb <;> simp [hread]

/-- What white space is left before a newline is read as blank lines. -/
theorem getFileVarTreeLoop_blank (hws : ∀ b ∈ ws, isspace b = true) (h : CleanLine ws) :
    getFileVarTreeLoop (ws ++ byte '\n' :: rest) vdb = getFileVarTreeLoop rest vdb := by
  induction ws with
  | nil =>
    rw [getFileVarTreeLoop_step h]
    rfl
  | cons w ws ih =>
    have htrim : (w :: ws).rdropWhile isspace = [] := List.rdropWhile_eq_nil_iff.2 hws
    have hws' : CleanLine ws :=
      ⟨fun hm => h.1 (List.mem_cons_of_mem _ hm), fun hm => h.2 (List.mem_cons_of_mem _ hm)⟩
    rw [getFileVarTreeLoop_step h, htrim]
    exact ih (fun b hb => hws b (List.mem_cons_of_mem _ hb)) hws'

/-- The loop reads one line and goes on with the next. -/
theorem getFileVarTreeLoop_line (h : CleanLine line) :
    getFileVarTreeLoop (line ++ byte '\n' :: rest) vdb =
      (readLine (line.rdropWhile isspace) vdb).bind (getFileVarTreeLoop rest) := by
  rw [getFileVarTreeLoop_step h]
  congr 1
  funext vdb'
  obtain ⟨ws, hline⟩ := line.rdropWhile_prefix isspace
  have hws : ws = line.rtakeWhile isspace :=
    List.append_cancel_left (hline.trans List.rdropWhile_append_rtakeWhile.symm)
  have hdrop : (line ++ byte '\n' :: rest).drop ((line.rdropWhile isspace).length + 1) =
      (ws ++ byte '\n' :: rest).drop 1 := by
    have hassoc : line ++ byte '\n' :: rest =
        line.rdropWhile isspace ++ (ws ++ byte '\n' :: rest) := by
      rw [← List.append_assoc, hline]
    rw [hassoc, List.drop_append, List.drop_eq_nil_of_le (Nat.le_succ _), Nat.add_sub_cancel_left]
    rfl
  rw [hdrop]
  cases hw : ws with
  | nil => rfl
  | cons w ws =>
    have hspace : ∀ b ∈ ws, isspace b = true := fun b hb =>
      List.mem_rtakeWhile_imp (hws ▸ hw ▸ List.mem_cons_of_mem _ hb)
    have hmem : ∀ b ∈ ws, b ∈ line := fun b hb => by
      rw [← hline, hw]
      exact List.mem_append_right _ (List.mem_cons_of_mem _ hb)
    exact getFileVarTreeLoop_blank hspace ⟨fun hb => h.1 (hmem _ hb), fun hb => h.2 (hmem _ hb)⟩

end

theorem lineAssigns_iff {line : Bytes} {s : Option (Bytes × Bytes)} :
    LineAssigns line s ↔ TextAssigns (line.rdropWhile isspace) s := by
  constructor
  · rintro ⟨text, ws, rfl, hws, hlast, h⟩
    have htext : text.rdropWhile isspace = text := by
      rw [List.rdropWhile_eq_self_iff]
      intro hne
      rw [hlast _ (List.getLast?_eq_some_getLast hne)]
      exact Bool.false_ne_true
    have htrim : (text ++ ws).rdropWhile isspace = text := by
      rw [List.rdropWhile, List.reverse_append,
        List.dropWhile_append_of_pos fun b hb => hws b (List.mem_reverse.1 hb)]
      exact htext
    rwa [htrim]
  · intro h
    refine ⟨_, _, List.rdropWhile_append_rtakeWhile.symm, fun b => List.mem_rtakeWhile_imp,
      fun b hb => ?_, h⟩
    obtain ⟨hne, rfl⟩ := List.mem_getLast?_eq_getLast hb
    exact Bool.eq_false_iff.2 (List.rdropWhile_last_not _ _ hne)

section

variable {lines : List Bytes} {vdb t : VarTree}

/-- The loop sets, line by line, what the lines assign. -/
theorem getFileVarTreeLoop_unlines (h : ∀ l ∈ lines, CleanLine l) :
    getFileVarTreeLoop (unlines lines) vdb = some t ↔
      ∃ effects, List.Forall₂ LineAssigns lines effects ∧ t = effects.foldl applyLine vdb := by
  induction lines generalizing vdb with
  | nil => simp [unlines, getFileVarTreeLoop, eq_comm]
  | cons line lines ih =>
    have hline := h line List.mem_cons_self
    have h0 : (0 : Byte) ∉ line.rdropWhile isspace := fun hm =>
      hline.2 ((List.rdropWhile_prefix _ _).subset hm)
    have hcons : unlines (line :: lines) = line ++ byte '\n' :: unlines lines := by
      simp [unlines]
    rw [hcons, getFileVarTreeLoop_line hline, Option.bind_eq_some_iff]
    simp only [readLine_iff h0, ih fun l hl => h l (List.mem_cons_of_mem _ hl), ← lineAssigns_iff]
    constructor
    · rintro ⟨vdb', ⟨s, hs, rfl⟩, effects, heffects, rfl⟩
      exact ⟨s :: effects, .cons hs heffects, rfl⟩
    · rintro ⟨effects, heffects, rfl⟩
      obtain ⟨s, effects, hs, hrest, rfl⟩ := List.forall₂_cons_left_iff.1 heffects
      exact ⟨_, ⟨s, hs, rfl⟩, effects, hrest, rfl⟩

/-- What the loop accepts is made of lines. -/
theorem exists_lines_of_getFileVarTreeLoop {p : Bytes} (h : getFileVarTreeLoop p vdb = some t) :
    ∃ lines, p = unlines lines ∧ ∀ l ∈ lines, CleanLine l := by
  induction hn : p.length using Nat.strong_induction_on generalizing p vdb with
  | _ n ih =>
    cases p with
    | nil => exact ⟨[], rfl, fun l hl => absurd hl List.not_mem_nil⟩
    | cons c p =>
      cases hnl : strchr (byte '\n') (c :: p) with
      | none =>
        rw [getFileVarTreeLoop, hnl] at h
        cases h
      | some r =>
        obtain ⟨line, rest⟩ := r
        obtain ⟨heq, hclean⟩ := strchr_spec hnl
        rw [heq] at h hn ⊢
        rw [getFileVarTreeLoop_line hclean] at h
        obtain ⟨vdb', -, hrest⟩ := Option.bind_eq_some_iff.1 h
        have hlt : rest.length < n := by simp at hn; omega
        obtain ⟨lines, rfl, hlines⟩ := ih _ hlt hrest rfl
        refine ⟨line :: lines, by simp [unlines], fun l hl => ?_⟩
        rcases List.mem_cons.1 hl with rfl | hl
        · exact hclean
        · exact hlines l hl

end

theorem get_foldl_applyLine (effects : List (Option (Bytes × Bytes))) (vdb : VarTree) (k : Bytes) :
    (effects.foldl applyLine vdb).get k =
      (effects.reduceOption.reverse.lookup k).or (vdb.get k) := by
  rw [← SortedTable.get_foldl_set]
  congr 1
  induction effects generalizing vdb with
  | nil => rfl
  | cons s effects ih =>
    cases s with
    | none => exact ih vdb
    | some e => exact ih _

/-! ### The file -/

theorem fslurp_eq_some {file p : Bytes} :
    fslurp file = some p ↔
      file.length % 2 ^ 32 < 2 ^ 31 ∧ p = dropBom (file.take (file.length % 2 ^ 32)) := by
  have hbom : ∀ b : Bytes, ([0xef, 0xbb, 0xbf] <+: b) ↔ b.take 3 = [0xef, 0xbb, 0xbf] := fun b => by
    rw [List.prefix_iff_eq_take, eq_comm]
    rfl
  simp only [fslurp, dropBom, hbom]
  split
  · rename_i hlen
    constructor
    · rintro ⟨⟩
    · exact fun h => absurd h.1 (Nat.not_lt.2 hlen)
  · rename_i hlen
    rw [Option.some.injEq, eq_comm, and_iff_right (Nat.lt_of_not_le hlen)]

/-- A file below 2 GiB is read as the map it denotes. -/
theorem getFileVarTree_iff {file : Bytes} (hlen : file.length < 2 ^ 31)
    {m : Bytes → Option Bytes} :
    (∃ t, getFileVarTree file = some t ∧ t.get = m) ↔ Denotes file m := by
  have htake : file.take (file.length % 2 ^ 32) = file :=
    List.take_of_length_le (by rw [Nat.mod_eq_of_lt (by omega)])
  have hslurp : fslurp file = some (dropBom file) := by
    rw [fslurp_eq_some, htake, Nat.mod_eq_of_lt (by omega)]
    exact ⟨hlen, rfl⟩
  have hget : ∀ effects : List (Option (Bytes × Bytes)),
      (effects.foldl applyLine .empty).get = fun k => effects.reduceOption.reverse.lookup k :=
    fun effects => by
      funext k
      rw [get_foldl_applyLine, SortedTable.get_empty, Option.or_none]
  rw [getFileVarTree, hslurp, Option.bind_some]
  constructor
  · rintro ⟨t, ht, rfl⟩
    obtain ⟨lines, heq, hlines⟩ := exists_lines_of_getFileVarTreeLoop ht
    rw [heq, getFileVarTreeLoop_unlines hlines] at ht
    obtain ⟨effects, heffects, rfl⟩ := ht
    exact ⟨lines, effects, heq, hlines, heffects, hget effects⟩
  · rintro ⟨lines, effects, heq, hlines, heffects, rfl⟩
    rw [heq]
    exact ⟨_, (getFileVarTreeLoop_unlines hlines).2 ⟨effects, heffects, rfl⟩, hget effects⟩

/-- Of a file of 4 GiB or more the loop sees what is left of its size in 32 bits. -/
theorem getFileVarTree_take {file : Bytes} {t : VarTree} (h : getFileVarTree file = some t) :
    (file.take (file.length % 2 ^ 32)).length < 2 ^ 31 ∧
      getFileVarTree (file.take (file.length % 2 ^ 32)) = some t := by
  obtain ⟨p, hp, hloop⟩ := Option.bind_eq_some_iff.1 h
  obtain ⟨hlen, rfl⟩ := fslurp_eq_some.1 hp
  have hlen' : (file.take (file.length % 2 ^ 32)).length = file.length % 2 ^ 32 :=
    List.length_take_of_le (Nat.mod_le _ _)
  refine ⟨hlen'.trans_lt hlen, ?_⟩
  have hslurp : fslurp (file.take (file.length % 2 ^ 32)) =
      some (dropBom (file.take (file.length % 2 ^ 32))) := by
    rw [fslurp_eq_some, hlen', Nat.mod_mod, List.take_take, Nat.min_self]
    exact ⟨hlen, rfl⟩
  rw [getFileVarTree, hslurp]
  exact hloop

/-- The tree that is read is the one map that is denoted by what the loop sees of the file. -/
theorem getFileVarTree_denotes {file : Bytes} {t : VarTree} (h : getFileVarTree file = some t)
    (m : Bytes → Option Bytes) : Denotes (file.take (file.length % 2 ^ 32)) m ↔ m = t.get := by
  obtain ⟨hlen, ht⟩ := getFileVarTree_take h
  rw [← getFileVarTree_iff hlen, ht]
  exact ⟨fun ⟨t', ht', hm⟩ => hm ▸ Option.some.inj ht' ▸ rfl, fun hm => ⟨t, rfl, hm.symm⟩⟩

/-! ### How large the tree is -/

/-- The bytes that a variable takes in a file with an index. -/
def entryBytes (e : Bytes × Bytes) : ℕ := e.1.length + e.2.length + 6

/-- The variables of a tree take at most so many bytes, and their values are C strings. -/
structure TreeFits (t : VarTree) (n : ℕ) : Prop where
  size : (t.entries.map entryBytes).sum ≤ n
  noNull : ∀ e ∈ t.entries, (0 : Byte) ∉ e.2

theorem sum_insertKey (name value : Bytes) (l : List (Bytes × Bytes)) :
    ((insertKey name value l).map entryBytes).sum ≤
      (l.map entryBytes).sum + entryBytes (name, value) := by
  induction l with
  | nil => simp [insertKey]
  | cons e l ih =>
    obtain ⟨n, w⟩ := e
    unfold insertKey
    split_ifs <;> simp only [List.map_cons, List.sum_cons] <;> omega

theorem TreeFits.set {t : VarTree} {n : ℕ} {name value : Bytes} (h : TreeFits t n)
    (h0 : (0 : Byte) ∉ value) : TreeFits (t.set name value) (n + entryBytes (name, value)) where
  size := (sum_insertKey name value t.entries).trans (Nat.add_le_add_right h.size _)
  noNull := fun e he => by
    rcases mem_insertKey he with rfl | he
    · exact h0
    · exact h.noNull e he

theorem TextAssigns.bound {text name value : Bytes} (h : TextAssigns text (some (name, value))) :
    entryBytes (name, value) ≤ text.length + 1 ∧ ((0 : Byte) ∉ text → (0 : Byte) ∉ value) := by
  have hconfig : configPrefix.length = 7 := rfl
  have hunset : unsetPrefix.length = 9 := rfl
  have hn : bytes "n" = [110] := rfl
  cases h with
  | unset h =>
    refine ⟨?_, fun _ => by decide⟩
    simp only [entryBytes, hn, List.length_append, List.length_cons, List.length_nil, hunset]
    omega
  | quoted h hv =>
    refine ⟨?_, fun h0 hm => h0 (by simp [hm])⟩
    simp only [entryBytes, List.length_append, List.length_cons, hconfig]
    omega
  | plain h hv =>
    refine ⟨?_, fun h0 hm => h0 (by simp [hm])⟩
    simp only [entryBytes, List.length_append, List.length_cons, hconfig]
    omega

theorem TreeFits.foldl_applyLine {lines : List Bytes} {effects : List (Option (Bytes × Bytes))}
    (hlines : ∀ l ∈ lines, CleanLine l) (h : List.Forall₂ LineAssigns lines effects) {t : VarTree}
    {n : ℕ} (ht : TreeFits t n) : TreeFits (effects.foldl applyLine t) (n + (unlines lines).length) := by
  induction h generalizing t n with
  | nil => exact ht
  | @cons line s lines effects hs hrest ih =>
    have hlen : (unlines (line :: lines)).length = line.length + 1 + (unlines lines).length := by
      simp [unlines, Nat.add_assoc, Nat.add_comm 1]
    obtain ⟨text, ws, heq, -, -, hs⟩ := hs
    have htext : text.length ≤ line.length := by simp [heq]
    have hstep : TreeFits (applyLine t s) (n + (line.length + 1)) := by
      cases s with
      | none => exact ⟨ht.size.trans (Nat.le_add_right _ _), ht.noNull⟩
      | some e =>
        obtain ⟨name, value⟩ := e
        have h0 : (0 : Byte) ∉ text := fun hm =>
          (hlines line List.mem_cons_self).2 (heq ▸ List.mem_append_left _ hm)
        have hset : TreeFits (t.set name value) _ := ht.set (hs.bound.2 h0)
        exact ⟨hset.size.trans (by have := hs.bound.1; omega), hset.noNull⟩
    rw [hlen, ← Nat.add_assoc]
    exact ih (fun l hl => hlines l (List.mem_cons_of_mem _ hl)) hstep

/-- The variables of a file fit into as many bytes as the file has. -/
theorem fits_of_getFileVarTree {file : Bytes} {t : VarTree} (h : getFileVarTree file = some t) :
    ∃ n < 2 ^ 31, TreeFits t n := by
  obtain ⟨p, hp, hloop⟩ := Option.bind_eq_some_iff.1 h
  obtain ⟨hlen, rfl⟩ := fslurp_eq_some.1 hp
  obtain ⟨lines, heq, hlines⟩ := exists_lines_of_getFileVarTreeLoop hloop
  rw [heq, getFileVarTreeLoop_unlines hlines] at hloop
  obtain ⟨effects, heffects, rfl⟩ := hloop
  have hempty : TreeFits (SortedTable.empty : VarTree) 0 :=
    ⟨le_rfl, fun e he => absurd he List.not_mem_nil⟩
  refine ⟨_, ?_, hempty.foldl_applyLine hlines heffects⟩
  rw [← heq, Nat.zero_add]
  refine lt_of_le_of_lt ?_ hlen
  have htake : (file.take (file.length % 2 ^ 32)).length ≤ file.length % 2 ^ 32 := by simp
  unfold dropBom
  split
  · exact (by simp : _ ≤ _).trans htake
  · exact htake

end Metatup
