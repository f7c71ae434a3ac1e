import Mathlib.Data.List.Basic

/-!
# YAML in block style

The part of YAML 1.1 in which a program writes its data line by line: block mappings and block
sequences, with plain and double-quoted scalars that stay on their line. A character is a code point.

* `plainOk`, `unquote`: the two kinds of scalars.
* `Block`: the lines of a collection, with the events it stands for.
* `ReadsBlocks`: what a reader of YAML does with such a text. Nothing is said of any other text.
* `Wellformed`: the events of a node, whatever its style.
-/

namespace Metatup.Lib.Yaml

/-- What a reader tells about a text, one after the other. -/
inductive Event
  | streamStart
  | streamEnd
  | documentStart
  | documentEnd
  | alias (anchor : List Char)
  | scalar (value : List Char)
  | sequenceStart
  | sequenceEnd
  | mappingStart
  | mappingEnd
  deriving DecidableEq

/-! ### Characters -/

/-- A space or a tab. -/
def isBlank (c : Char) : Bool := c = ' ' || c = '\t'

/-- A line feed, a carriage return, a next line, a line separator or a paragraph separator. -/
def isBreak (c : Char) : Bool :=
  c = '\n' || c = '\r' || c.toNat = 0x85 || c.toNat = 0x2028 || c.toNat = 0x2029

/-- A character that a text may contain. -/
def isPrintable (c : Char) : Bool :=
  c = '\t' || c = '\n' || c = '\r' || (0x20 ≤ c.toNat && c.toNat ≤ 0x7e) || c.toNat = 0x85 ||
    (0xa0 ≤ c.toNat && c.toNat ≤ 0xfffd) || 0x10000 ≤ c.toNat

/-- A character that a line may contain. -/
def isInLine (c : Char) : Bool := isPrintable c && !isBreak c

/-! ### Scalars -/

/-- A colon before this text ends a key. -/
def endsKey : List Char → Bool
  | [] => true
  | c :: _ => isBlank c

/-- A plain scalar starts with this character before this text. -/
def plainStart (c : Char) (s : List Char) : Bool :=
  if c = '-' || c = '?' || c = ':' then !endsKey s
  else !isBlank c && c ∉ ",[]\x7b\x7d#&*!|>'\"%@`".toList

/-- The rest of a plain scalar: there is no comment and no key in it, and no blank at its end. -/
def plainRest : Bool → List Char → Bool
  | afterBlank, [] => !afterBlank
  | afterBlank, c :: s =>
    isInLine c && !(c = '#' && afterBlank) && !(c = ':' && endsKey s) && plainRest (isBlank c) s

/-- The text is a plain scalar on one line. The empty text is what stands for nothing. -/
def plainOk : List Char → Bool
  | [] => true
  | c :: s => plainStart c s && plainRest false (c :: s)

/-- What stands between two quotes on one line, with no escapes but those of quotes and
backslashes. -/
def unquote : List Char → Option (List Char)
  | [] => some []
  | '\\' :: '"' :: s => (unquote s).map ('"' :: ·)
  | '\\' :: '\\' :: s => (unquote s).map ('\\' :: ·)
  | c :: s => if c ≠ '\\' ∧ c ≠ '"' ∧ isInLine c = true then (unquote s).map (c :: ·) else none

/-- The text between quotes. -/
def quoted (body : List Char) : List Char := '"' :: (body ++ ['"'])

/-- A scalar as it is written, with its value. -/
inductive Scalar : List Char → List Char → Prop
  | plain {s : List Char} (h : plainOk s = true) : Scalar s s
  | quoted {body s : List Char} (h : unquote body = some s) : Scalar (quoted body) s

/-- A letter, a digit or an underscore. -/
def isWordChar (c : Char) : Bool :=
  ('0' ≤ c && c ≤ '9') || ('A' ≤ c && c ≤ 'Z') || ('a' ≤ c && c ≤ 'z') || c = '_'

/-- A key as it is written, with its value. What stands before the colon has at most 1024
characters. -/
inductive Key : List Char → List Char → Prop
  | word {s : List Char} (hne : s ≠ []) (h : s.all isWordChar = true) (hlen : s.length ≤ 1024) :
      Key s s
  | quoted {body s : List Char} (h : unquote body = some s) (hlen : (quoted body).length ≤ 1024) :
      Key (quoted body) s

/-! ### Lines -/

/-- A line: its spaces, and what comes after them. -/
structure Line where
  indent : ℕ
  content : List Char
  deriving DecidableEq

/-- The line as a text. -/
def Line.text (l : Line) : List Char := List.replicate l.indent ' ' ++ l.content ++ ['\n']

/-- The text of the lines. -/
def textOf (lines : List Line) : List Char := lines.flatMap Line.text

/-- The two collections. -/
inductive Kind
  | mapping
  | sequence
  deriving DecidableEq

/-- The event before the parts of a collection. -/
def Kind.start : Kind → Event
  | .mapping => .mappingStart
  | .sequence => .sequenceStart

/-- The event after the parts of a collection. -/
def Kind.stop : Kind → Event
  | .mapping => .mappingEnd
  | .sequence => .sequenceEnd

/-- An indentation that readers do not refuse; each level of nesting has one of its own. -/
def maxIndent : ℕ := 500

/-- The lines of the entries of a mapping or of the items of a sequence at this indentation, with
their events. -/
inductive Block : Kind → ℕ → List Line → List Event → Prop
  | nil {kind : Kind} {n : ℕ} : Block kind n [] []
  /-- A key and a scalar on one line. -/
  | scalar {n : ℕ} {key k value v : List Char} {rest : List Line} {events : List Event}
      (hkey : Key key k) (hvalue : Scalar value v) (hrest : Block .mapping n rest events) :
      Block .mapping n (⟨n, key ++ ':' :: ' ' :: value⟩ :: rest) (.scalar k :: .scalar v :: events)
  /-- A key, and a collection on the lines below it. -/
  | nested {kind : Kind} {n m : ℕ} {key k : List Char} {sub rest : List Line}
      {subEvents events : List Event} (hkey : Key key k) (hlt : n < m) (hmax : m < maxIndent)
      (hne : sub ≠ []) (hsub : Block kind m sub subEvents) (hrest : Block .mapping n rest events) :
      Block .mapping n (⟨n, key ++ [':']⟩ :: (sub ++ rest))
        (.scalar k :: kind.start :: (subEvents ++ kind.stop :: events))
  /-- An item, which starts on the line of its dash. -/
  | item {kind : Kind} {n : ℕ} {c : List Char} {sub rest : List Line}
      {subEvents events : List Event} (hmax : n + 2 < maxIndent)
      (hsub : Block kind (n + 2) (⟨n + 2, c⟩ :: sub) subEvents)
      (hrest : Block .sequence n rest events) :
      Block .sequence n (⟨n, '-' :: ' ' :: c⟩ :: (sub ++ rest))
        (kind.start :: (subEvents ++ kind.stop :: events))

/-- The events of a stream with one document. -/
def streamOf (kind : Kind) (events : List Event) : List Event :=
  .streamStart :: .documentStart :: kind.start :: (events ++ [kind.stop, .documentEnd, .streamEnd])

/-- The reader reads every text in block style as what it stands for. Its result is the events up to
the end of the stream or up to the first error. -/
def ReadsBlocks (read : List Char → List Event) : Prop :=
  ∀ kind lines events, lines ≠ [] → Block kind 0 lines events →
    read (textOf lines) = streamOf kind events

/-! ### Composing blocks -/

theorem Block.append {kind : Kind} {n : ℕ} {lines lines' : List Line} {events events' : List Event}
    (h : Block kind n lines events) (h' : Block kind n lines' events') :
    Block kind n (lines ++ lines') (events ++ events') := by
  induction h with
  | nil => exact h'
  | scalar hkey hvalue _ ih => exact .scalar hkey hvalue (ih h')
  | nested hkey hlt hmax hne hsub _ _ ih =>
    have hrest := Block.nested hkey hlt hmax hne hsub (ih h')
    simpa using hrest
  | item hmax hsub _ _ ih =>
    have hrest := Block.item hmax hsub (ih h')
    simpa using hrest

/-- The blocks of the elements of a list, one after the other. -/
theorem Block.flatMap {α : Type*} {kind : Kind} {n : ℕ} {lines : α → List Line}
    {events : α → List Event} {l : List α} (h : ∀ a ∈ l, Block kind n (lines a) (events a)) :
    Block kind n (l.flatMap lines) (l.flatMap events) := by
  induction l with
  | nil => exact .nil
  | cons a l ih =>
    rw [List.flatMap_cons, List.flatMap_cons]
    exact (h a List.mem_cons_self).append (ih fun b hb => h b (List.mem_cons_of_mem a hb))

/-! ### Nodes -/

/-- A node, the items of a sequence or the entries of a mapping. -/
inductive Part
  | node
  | items
  | entries
  deriving DecidableEq

/-- The events of a part. -/
inductive Wellformed : Part → List Event → Prop
  | scalar {value : List Char} : Wellformed .node [.scalar value]
  | reference {anchor : List Char} : Wellformed .node [.alias anchor]
  | sequence {events : List Event} (h : Wellformed .items events) :
      Wellformed .node (.sequenceStart :: (events ++ [.sequenceEnd]))
  | mapping {events : List Event} (h : Wellformed .entries events) :
      Wellformed .node (.mappingStart :: (events ++ [.mappingEnd]))
  | noItems : Wellformed .items []
  | item {first events : List Event} (hfirst : Wellformed .node first)
      (h : Wellformed .items events) : Wellformed .items (first ++ events)
  | noEntries : Wellformed .entries []
  | entry {key value events : List Event} (hkey : Wellformed .node key)
      (hvalue : Wellformed .node value) (h : Wellformed .entries events) :
      Wellformed .entries (key ++ (value ++ events))

/-- The events of a stream with one document. -/
def documentOf (root : List Event) : List Event :=
  .streamStart :: .documentStart :: (root ++ [.documentEnd, .streamEnd])

/-- What ends the part. -/
def Part.stop : Part → List Event
  | .node => []
  | .items => [.sequenceEnd]
  | .entries => [.mappingEnd]

/-- A node starts with an event that ends nothing. -/
theorem Wellformed.head {events : List Event} (h : Wellformed .node events) :
    ∃ e rest, events = e :: rest ∧ e ≠ .sequenceEnd ∧ e ≠ .mappingEnd := by
  cases h with
  | scalar => exact ⟨_, _, rfl, Event.noConfusion, Event.noConfusion⟩
  | reference => exact ⟨_, _, rfl, Event.noConfusion, Event.noConfusion⟩
  | sequence => exact ⟨_, _, rfl, Event.noConfusion, Event.noConfusion⟩
  | mapping => exact ⟨_, _, rfl, Event.noConfusion, Event.noConfusion⟩

/-- A key and a value. -/
theorem Wellformed.keyEntry (key : List Char) {value events : List Event}
    (hvalue : Wellformed .node value) (h : Wellformed .entries events) :
    Wellformed .entries (.scalar key :: (value ++ events)) := .entry .scalar hvalue h

/-- A key and a scalar. -/
theorem Wellformed.scalarEntry (key value : List Char) {events : List Event}
    (h : Wellformed .entries events) :
    Wellformed .entries (.scalar key :: .scalar value :: events) := .entry .scalar .scalar h

/-- A sequence of one mapping. -/
theorem Wellformed.singleMapping {events : List Event} (h : Wellformed .entries events) :
    Wellformed .node (.sequenceStart :: .mappingStart :: (events ++ [.mappingEnd, .sequenceEnd])) := by
  simpa using Wellformed.sequence (.item (.mapping h) .noItems)

end Metatup.Lib.Yaml
