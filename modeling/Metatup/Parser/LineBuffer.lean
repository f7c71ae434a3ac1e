import Mathlib.Logic.Function.Basic
import Metatup.Vars.TupConfig

/-!
# The lines of a Tupfile in memory

`parse_tupfile` and `scan_tupfile_functions` split a Tupfile in the buffer it was read into. They
search for the end of a line, look at the bytes in front of it, and overwrite line ends with blanks
and with null bytes. A pointer is an index here; what is read or written outside of `0..b->len` is a
fault. Line numbers and error texts are left out.

* `splitLine`: the part of the loop of `parse_tupfile` that finds the next statement.
* `skipCurlyBlock`: the lines of a block up to its closing brace.
-/

namespace Metatup

/-! ### The buffer -/

/-- An access outside of the buffer, or a loop that does not end. -/
inductive Fault
  | outOfBounds
  | diverges
  deriving DecidableEq

/-- The bytes from `b->s` on. -/
abbrev Memory := ℕ → Byte

/-- Source: `fslurp.h` `struct buf`. The buffer holds the indexes `0..len`. -/
structure Buf where
  s : Memory
  len : ℕ

/-- Source: `fslurp.c` `fslurp_null` -/
def fslurpNull (file : Bytes) : Option Buf :=
  (fslurp file).map fun b => { s := fun i => b.getD i 0, len := b.length }

/-- The bytes of the buffer from one index up to another. -/
def slice (m : Memory) (i j : ℕ) : Bytes := (List.range' i (j - i)).map m

/-- A line feed or a null byte. -/
def endsLine (c : Byte) : Bool := c = byte '\n' || c = 0

section

variable (len : ℕ)

def readAt (m : Memory) (i : ℤ) : Except Fault Byte :=
  if 0 ≤ i ∧ i ≤ len then .ok (m i.toNat) else .error .outOfBounds

def writeAt (m : Memory) (i : ℤ) (c : Byte) : Except Fault Memory :=
  if 0 ≤ i ∧ i ≤ len then .ok (Function.update m i.toNat c) else .error .outOfBounds

/-- The search for the end of a line in the next bytes. -/
def getNewlineFrom (m : Memory) : ℕ → ℕ → Except Fault ℕ
  | 0, _ => .error .outOfBounds
  | k + 1, p => if endsLine (m p) then .ok p else getNewlineFrom m k (p + 1)

/-- Source: `parser.c` `get_newline`. Both searches of `strchr` read up to the byte that is found. -/
def getNewline (m : Memory) (p : ℕ) : Except Fault ℕ := getNewlineFrom m (len + 1 - p) p

/-- The search for the end of a string in the next bytes. -/
def cStringFrom (m : Memory) : ℕ → ℕ → Except Fault Bytes
  | 0, _ => .error .outOfBounds
  | k + 1, p =>
    if m p = 0 then .ok [] else (cStringFrom m k (p + 1)).map fun text => m p :: text

/-- The string at this index. -/
def cStringAt (m : Memory) (p : ℕ) : Except Fault Bytes := cStringFrom m (len + 1 - p) p

/-- `strncmp` with a literal and its length. -/
def startsAt (m : Memory) : ℕ → Bytes → Except Fault Bool
  | _, [] => .ok true
  | p, c :: lit => do
    let x ← readAt len m p
    if x = c then startsAt m (p + 1) lit else .ok false

/-- One of the literals stands at this index. -/
def startsAnyAt (m : Memory) (p : ℕ) : List Bytes → Except Fault Bool
  | [] => .ok false
  | lit :: lits => do
    let found ← startsAt len m p lit
    if found then .ok true else startsAnyAt m p lits

/-! ### Statements of several lines -/

/-- The counters of `statement_needs_more_lines`. -/
structure Nesting where
  paren : ℤ := 0
  brace : ℤ := 0
  bracket : ℤ := 0
  inQuote : Bool := false
  escaped : Bool := false

/-- One byte of `statement_needs_more_lines`. -/
def Nesting.step (n : Nesting) (c : Byte) : Nesting :=
  if n.inQuote then
    if n.escaped then { n with escaped := false }
    else if c = byte '\\' then { n with escaped := true }
    else if c = byte '"' then { n with inQuote := false }
    else n
  else if c = byte '"' then { n with inQuote := true }
  else if c = byte '(' then { n with paren := n.paren + 1 }
  else if c = byte ')' then { n with paren := n.paren - 1 }
  else if c = byte '\x7b' then { n with brace := n.brace + 1 }
  else if c = byte '\x7d' then { n with brace := n.brace - 1 }
  else if c = byte '[' then { n with bracket := n.bracket + 1 }
  else if c = byte ']' then { n with bracket := n.bracket - 1 }
  else n

/-- Source: `parser.c` `statement_needs_more_lines` -/
def statementNeedsMoreLines (line : Bytes) : Bool :=
  let n := line.foldl Nesting.step {}
  n.inQuote || 0 < n.paren || 0 < n.brace || 0 < n.bracket

/-- The statements that go on until their brackets are closed. -/
def multiLineStarts : List Bytes :=
  ["call ", "spawn ", "bind ", "fbind ", "return ", "inspect "].map bytes

/-- The loop that joins the lines of such a statement. The byte at `newline` is null, and `saved` was
there before. The result is `none` where the file ends first. -/
def joinStatement (line : ℕ) : ℕ → Memory → ℕ → Byte → Except Fault (Option (Memory × ℕ × Byte))
  | 0, _, _, _ => .error .diverges
  | k + 1, m, newline, saved => do
    let text ← cStringAt len m line
    if statementNeedsMoreLines text then
      if saved = 0 then .ok none
      else do
        let m ← writeAt len m newline (byte ' ')
        let next ← getNewline len m (newline + 1)
        let saved ← readAt len m next
        let m ← writeAt len m next 0
        joinStatement line k m next saved
    else .ok (some (m, newline, saved))

/-! ### Backslashes -/

/-- The condition of the loop over the lines that end with a backslash. -/
def lineContinues (m : Memory) (newline : ℕ) : Except Fault Bool := do
  let a ← readAt len m (newline - 1)
  if a = byte '\\' then .ok true
  else do
    let b ← readAt len m (newline - 2)
    .ok (b = byte '\\' && a = byte '\r')

/-- The backslash in front of a carriage return. -/
def blankBackslash (m : Memory) (newline : ℕ) : Except Fault Memory := do
  let a ← readAt len m (newline - 1)
  if a = byte '\r' then writeAt len m (newline - 2) (byte ' ') else .ok m

/-- The loop over the lines that end with a backslash. -/
def joinContinued (p : ℕ) : ℕ → Memory → ℕ → Except Fault (Memory × ℕ)
  | 0, _, _ => .error .diverges
  | k + 1, m, newline => do
    let more ← lineContinues len m newline
    if more then do
      let m ← blankBackslash len m newline
      let m ← writeAt len m (newline - 1) (byte ' ')
      let m ← writeAt len m newline (byte ' ')
      let newline ← getNewline len m p
      joinContinued p k m newline
    else .ok (m, newline)

/-! ### The next statement -/

/-- The loop over white space in front of a statement. -/
def skipLeading (m : Memory) : ℕ → ℕ → ℕ
  | 0, p => p
  | k + 1, p => if isspace (m p) then skipLeading m k (p + 1) else p

/-- The loop over white space at the end of a statement. -/
def trimEnd (m : Memory) (line : ℕ) : ℕ → Except Fault ℕ
  | 0 => .ok 0
  | n + 1 =>
    if line < n + 1 then do
      let c ← readAt len m n
      if isspace c then trimEnd m line n else .ok (n + 1)
    else .ok (n + 1)

/-- What is found at the head of the loop of `parse_tupfile`. -/
inductive Split
  | done
  | unterminated
  | line (m : Memory) (line stop next : ℕ)

/-- The end of a statement is trimmed and marked with a null byte. -/
def finishLine (m : Memory) (line newline : ℕ) : Except Fault Split := do
  let stop ← trimEnd len m line newline
  let m ← writeAt len m stop 0
  .ok (.line m line stop (newline + 1))

/-- The lines of a statement with brackets are joined. -/
def splitStatement (m : Memory) (line newline : ℕ) : Except Fault Split := do
  let saved ← readAt len m newline
  let m ← writeAt len m newline 0
  let joined ← joinStatement len line (len + 2) m newline saved
  match joined with
  | none => .ok .unterminated
  | some (m, newline, _) => do
    let m ← writeAt len m newline 0
    finishLine len m line newline

/-- Source: `parser.c` `parse_tupfile`, from the head of its loop up to the test for a comment. -/
def splitLine (m : Memory) (p : ℕ) : Except Fault Split :=
  let line := skipLeading m (len - p) p
  if line = len then .ok .done
  else do
    let newline ← getNewline len m line
    let (m, newline) ← joinContinued len line (len + 2) m newline
    let multi ← startsAnyAt len m line multiLineStarts
    if multi then splitStatement len m line newline else finishLine len m line newline

/-! ### Blocks -/

/-- Source: `parser.c` `line_starts_with_trimmed` -/
def lineStartsWithTrimmed (line lit : Bytes) : Bool := lit.isPrefixOf (line.dropWhile isspace)

/-- Source: `parser.c` `line_is_trimmed_close_brace` -/
def lineIsTrimmedCloseBrace (line : Bytes) : Bool :=
  (line.dropWhile isspace).rdropWhile isspace = [byte '\x7d']

/-- The starts of the blocks that can be nested. -/
def blockStarts : List Bytes := ["function ", "rules \x7b"].map bytes

/-- Source: `parser.c` `skip_curly_block`. The result is the start of the line with the closing brace
and the index behind that line. -/
def skipCurlyBlock : ℕ → Memory → ℕ → ℕ → Except Fault (Option (Memory × ℕ × ℕ))
  | 0, _, _, _ => .error .diverges
  | k + 1, m, p, depth =>
    if len ≤ p then .ok none
    else do
      let newline ← getNewline len m p
      let text := slice m p newline
      if multiLineStarts.any (lineStartsWithTrimmed text) then do
        let saved ← readAt len m newline
        let m ← writeAt len m newline 0
        let joined ← joinStatement len p (len + 2) m newline saved
        match joined with
        | none => .ok none
        | some (m, newline, saved) => do
          let m ← writeAt len m newline saved
          skipCurlyBlock k m (newline + 1) depth
      else if blockStarts.any (lineStartsWithTrimmed text) then
        skipCurlyBlock k m (newline + 1) (depth + 1)
      else if lineIsTrimmedCloseBrace text && depth = 1 then .ok (some (m, p, newline + 1))
      else if lineIsTrimmedCloseBrace text then skipCurlyBlock k m (newline + 1) (depth - 1)
      else skipCurlyBlock k m (newline + 1) depth

end

end Metatup
