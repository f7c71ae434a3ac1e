import Metatup.Parser.LineSplit

/-!
# Finding the functions of a Tupfile

`parse_tupfile` first calls `scan_tupfile_functions`, which goes over a copy of the Tupfile and
registers its functions, and then goes over the Tupfile itself, where it skips the blocks of the
functions. The two split the text into lines each in its own way.

What a statement does that is neither a condition nor a function is the parameter `accepts`: whether
the parse goes on behind it.

* `scanTupfileFunctions`: the blocks that are registered.
* `ParseHead`: the runs of the loop of `parse_tupfile`, with the blocks that it has skipped.
-/

namespace Metatup

/-! ### Conditions -/

/-- Source: `if_stmt.h` `struct if_stmt` -/
structure IfStmt where
  ifness : UInt8 := 0
  level : UInt8 := 0
  deriving DecidableEq

/-- Source: `if_stmt.c` `if_add` -/
def ifAdd (ifs : IfStmt) (isTrue : Bool) : Option IfStmt :=
  if 0x80 ≤ ifs.level then none
  else
    let level : UInt8 := if ifs.level = 0 then 1 else ifs.level <<< 1
    some { ifness := if isTrue then ifs.ifness else ifs.ifness ||| level, level }

/-- Source: `if_stmt.c` `if_else` -/
def ifElse (ifs : IfStmt) : Option IfStmt :=
  if ifs.level = 0 then none else some { ifs with ifness := ifs.ifness ^^^ ifs.level }

/-- Source: `if_stmt.c` `if_endif` -/
def ifEndif (ifs : IfStmt) : Option IfStmt :=
  if ifs.level = 0 then none
  else some { ifness := ifs.ifness &&& ~~~ifs.level, level := ifs.level >>> 1 }

/-- Source: `if_stmt.c` `if_true` -/
def ifTrue (ifs : IfStmt) : Bool := ifs.ifness = 0

/-- The statements that open and close a condition, where every condition is true. A condition inside
of a skipped part is not looked at, and its result is 0. The outer `none` is another statement. -/
def ifDirective (ifs : IfStmt) (text : Bytes) : Option (Option IfStmt) :=
  if text = bytes "else" then some (ifElse ifs)
  else if text = bytes "endif" then some (ifEndif ifs)
  else if (bytes "ifeq ").isPrefixOf text || (bytes "ifdef ").isPrefixOf text then
    some (ifAdd ifs (ifTrue ifs))
  else if (bytes "ifneq ").isPrefixOf text || (bytes "ifndef ").isPrefixOf text then
    some (ifAdd ifs true)
  else none

/-! ### The scan -/

/-- A function in a Tupfile: the line of its header, and the text up to the closing brace. -/
structure FunctionBlock where
  start : ℕ
  header : Bytes
  bodyStart : ℕ
  body : Bytes
  deriving DecidableEq

def functionStart : Bytes := bytes "function "

/-- The name a function is registered with. Blanks in front of the last brace end it; without them
the brace is part of it. Source: `parser.c` `parse_function_definition` -/
def functionName (line : Bytes) : Option Bytes :=
  let name := (line.drop 8).dropWhile isspace
  if byte '\x7b' ∉ name then none
  else
    let front := (name.rdropWhile (· ≠ byte '\x7b')).dropLast
    let trimmed := front.rdropWhile isspace
    let name := if trimmed = front then name else trimmed
    if name = [] then none else some name

/-- Source: `parser.c` `scan_tupfile_functions`, from the head of its loop up to the test for a
comment. -/
def scanLine (len : ℕ) (m : Memory) (p : ℕ) : Except Fault Split :=
  let line := skipLeading m (len - p) p
  if line = len then .ok .done
  else do
    let newline ← getNewline len m line
    finishLine len m line newline

/-- The loop of `scan_tupfile_functions`. The result is `none` where a block is not closed, or where
its name is missing or taken. -/
def scanFunctionsLoop (len : ℕ) :
    ℕ → Memory → ℕ → List FunctionBlock → Except Fault (Option (List FunctionBlock))
  | 0, _, _, _ => .error .diverges
  | k + 1, m, p, found =>
    if len ≤ p then .ok (some found)
    else do
      let split ← scanLine len m p
      match split with
      | .line m line stop next =>
        let text := slice m line stop
        if text.head? = some (byte '#') then scanFunctionsLoop len k m next found
        else if functionStart.isPrefixOf text then do
          let block ← skipCurlyBlock len (len + 1) m next 1
          match block with
          | none => .ok none
          | some (m, close, next') =>
            let name := functionName text
            if name = none ∨ name ∈ found.map (functionName ·.header) then .ok none
            else
              scanFunctionsLoop len k m next' (found ++ [⟨line, text, next, slice m next close⟩])
        else scanFunctionsLoop len k m next found
      | _ => .ok (some found)

/-- Source: `parser.c` `scan_tupfile_functions` for a Tupfile, where `include` lines are left alone.
The registry is empty before. -/
def scanTupfileFunctions (b : Buf) : Except Fault (Option (List FunctionBlock)) :=
  scanFunctionsLoop b.len (b.len + 1) b.s 0 []

/-! ### The parse -/

/-- What becomes of a statement. -/
inductive Handled
  | stops
  | goesOn (ifs : IfStmt)
  | function
  deriving DecidableEq

/-- Source: `parser.c` `parse_tupfile`, from the test for a comment on, outside of functions -/
def handleStatement (accepts : ℕ → Bytes → Bool) (ifs : IfStmt) (line : ℕ) (text : Bytes) : Handled :=
  if text.head? = some (byte '#') then .goesOn ifs
  else
    match ifDirective ifs text with
    | some none => .stops
    | some (some ifs) => .goesOn ifs
    | none =>
      if !ifTrue ifs then .goesOn ifs
      else if functionStart.isPrefixOf text then .function
      else if (bytes "rules \x7b").isPrefixOf text || (bytes "return ").isPrefixOf text then .stops
      else if accepts line text then .goesOn ifs
      else .stops

/-- The states at the head of the loop of `parse_tupfile`, with the blocks that have been skipped. What
is done with a statement may write to its text. -/
inductive ParseHead (b : Buf) (accepts : ℕ → Bytes → Bool) :
    Memory → ℕ → IfStmt → List FunctionBlock → Prop
  | start : ParseHead b accepts b.s 0 {} []
  | statement {m m' m'' : Memory} {p line stop next : ℕ} {ifs ifs' : IfStmt}
      {found : List FunctionBlock} (h : ParseHead b accepts m p ifs found) (hp : p < b.len)
      (hsplit : splitLine b.len m p = .ok (.line m' line stop next))
      (hstep : handleStatement accepts ifs line (slice m' line stop) = .goesOn ifs')
      (hrun : ∀ j, j < line ∨ stop ≤ j → m'' j = m' j) : ParseHead b accepts m'' next ifs' found
  | block {m m' m'' : Memory} {p line stop next close next' : ℕ} {ifs : IfStmt}
      {found : List FunctionBlock} (h : ParseHead b accepts m p ifs found) (hp : p < b.len)
      (hsplit : splitLine b.len m p = .ok (.line m' line stop next))
      (hstep : handleStatement accepts ifs line (slice m' line stop) = .function)
      (hskip : skipCurlyBlock b.len (b.len + 1) m' next 1 = .ok (some (m'', close, next'))) :
      ParseHead b accepts m'' next' ifs
        (found ++ [⟨line, slice m' line stop, next, slice m'' next close⟩])

end Metatup
