import Mathlib.Data.List.Basic

/-!
# Strings of JSON

The contents of a string of JSON, between its quotation marks, and the text that it stands for. A
character above the control characters that is no quotation mark and no backslash stands for itself, be
it a code point or a byte of one.

* `decode_escape_iff`: putting a backslash in front of quotation marks and backslashes is enough exactly
  for the texts without control characters.
-/

namespace Metatup.Lib.JsonString

/-- What a character behind a backslash stands for, `u` apart. -/
def named : Char → Option Char
  | '"' => some '"'
  | '\\' => some '\\'
  | '/' => some '/'
  | 'b' => some (Char.ofNat 8)
  | 'f' => some (Char.ofNat 12)
  | 'n' => some '\n'
  | 'r' => some '\r'
  | 't' => some '\t'
  | _ => none

/-- The value of a hexadecimal digit. -/
def hexDigit (c : Char) : Option ℕ :=
  if '0' ≤ c ∧ c ≤ '9' then some (c.toNat - '0'.toNat)
  else if 'a' ≤ c ∧ c ≤ 'f' then some (c.toNat - 'a'.toNat + 10)
  else if 'A' ≤ c ∧ c ≤ 'F' then some (c.toNat - 'A'.toNat + 10)
  else none

/-- The code unit of four digits. -/
def codeUnit (a b c d : Char) : Option ℕ := do
  let a ← hexDigit a
  let b ← hexDigit b
  let c ← hexDigit c
  let d ← hexDigit d
  some (((a * 16 + b) * 16 + c) * 16 + d)

/-- The first half of a character that takes two code units. -/
def isHigh (n : ℕ) : Bool := 0xD800 ≤ n && n < 0xDC00

/-- The second half. -/
def isLow (n : ℕ) : Bool := 0xDC00 ≤ n && n < 0xE000

/-- The text that the contents of a string stand for. -/
def decode : List Char → Option (List Char)
  | [] => some []
  | '\\' :: 'u' :: a :: b :: c :: d :: '\\' :: 'u' :: a' :: b' :: c' :: d' :: s => do
    let n ← codeUnit a b c d
    let m ← codeUnit a' b' c' d'
    if isHigh n then
      if isLow m then (Char.ofNat (0x10000 + (n - 0xD800) * 0x400 + (m - 0xDC00)) :: ·) <$> decode s
      else none
    else if isLow n then none
    else (Char.ofNat n :: ·) <$> decode ('\\' :: 'u' :: a' :: b' :: c' :: d' :: s)
  | '\\' :: 'u' :: a :: b :: c :: d :: s => do
    let n ← codeUnit a b c d
    if isHigh n || isLow n then none else (Char.ofNat n :: ·) <$> decode s
  | '\\' :: e :: s => do
    let c ← named e
    (c :: ·) <$> decode s
  | c :: s => if c = '"' ∨ c = '\\' ∨ c < ' ' then none else (c :: ·) <$> decode s

/-- Put a backslash in front of the quotation marks and backslashes. -/
def escape (s : List Char) : List Char :=
  s.flatMap fun c => if c = '\\' ∨ c = '"' then ['\\', c] else [c]

variable {s : List Char}

theorem decode_plain {c : Char} (hquote : c ≠ '"') (hslash : c ≠ '\\') :
    decode (c :: s) = if c < ' ' then none else (c :: ·) <$> decode s := by
  rw [decode.eq_def]
  simp [hquote, hslash]

theorem decode_escape_cons (c : Char) (s : List Char) :
    decode (escape (c :: s)) = if c < ' ' then none else (c :: ·) <$> decode (escape s) := by
  unfold escape
  rw [List.flatMap_cons]
  split
  · next h =>
    rcases h with rfl | rfl
    · rfl
    · rfl
  · next h =>
    rw [not_or] at h
    exact decode_plain h.2 h.1

theorem decode_escape_iff : decode (escape s) = some s ↔ ∀ c ∈ s, ¬ c < ' ' := by
  induction s with
  | nil => simp [escape, decode]
  | cons c s ih =>
    rw [decode_escape_cons, List.forall_mem_cons, ← ih]
    split
    · next h => simp [h]
    · next h =>
      constructor
      · intro heq
        obtain ⟨t, ht, hcons⟩ := Option.map_eq_some_iff.1 heq
        rw [ht, (List.cons.inj hcons).2]
        exact ⟨h, rfl⟩
      · rintro ⟨-, heq⟩
        rw [heq]
        rfl

end Metatup.Lib.JsonString
