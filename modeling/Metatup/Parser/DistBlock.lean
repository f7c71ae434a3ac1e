import Mathlib.Data.List.DropRight
import Metatup.Parser.Canonical
import Metatup.Parser.DistManifest
import Metatup.Parser.NumberedFlags

/-!
# Dist blocks

A dist block maps sources to destinations and mounts the dist values of other blocks. To materialise
its value is to write a rule for each entry that copies the source below a root.

* `distBlockManifest`: the entries of a block; `parseDistBlock` writes them as a text.
* `tupbuildMaterializeDist`: the rules that copy them.
-/

namespace Metatup

open Lib

/-! ### Bytes and characters -/

/-- A C string has no null byte in it. -/
abbrev CStr := {s : Bytes // (0 : Byte) ∉ s}

/-- The characters of a text, one for each byte. -/
def chars (s : Bytes) : Text := s.map fun b : Byte => Char.ofNat b.val

/-- The bytes of a text. -/
def unchars (t : Text) : Bytes := t.map byte

/-! ### Expressions and keywords -/

/-- The two ways in which `eval` is called. -/
structure DistEval where
  expandNodes : Bytes → Option CStr
  keepNodes : Bytes → Option CStr

/-- Source: `parser.c` `dist_eval_expr` -/
def distEvalExpr (eval : Bytes → Option CStr) (expr : Bytes) : Option CStr :=
  if 2 ≤ expr.length ∧ expr.head? = some (byte '"') ∧ expr.getLast? = some (byte '"') then
    eval (expr.drop 1).dropLast
  else eval expr

/-- Source: `parser.c` `dup_trimmed_range`; when the end is in front of the start, `strndup` is called
with a length that no string has. -/
def dupTrimmedRange (s : Bytes) (start stop : ℕ) : Bytes :=
  if start ≤ stop then (((s.take stop).drop start).dropWhile isspace).rdropWhile isspace
  else s.drop start

/-- What `find_top_level_keyword` and `find_next_dist_stmt` have counted. -/
structure OpenBrackets where
  paren : ℕ := 0
  brace : ℕ := 0
  bracket : ℕ := 0
  inQuote : Bool := false
  escaped : Bool := false

/-- The branches of the two loops that go on with the next character. -/
def OpenBrackets.step (n : OpenBrackets) (c : Byte) : Option OpenBrackets :=
  if n.inQuote then
    some (if n.escaped then { n with escaped := false }
      else if c = byte '\\' then { n with escaped := true }
      else if c = byte '"' then { n with inQuote := false }
      else n)
  else if c = byte '"' then some { n with inQuote := true }
  else if c = byte '(' then some { n with paren := n.paren + 1 }
  else if c = byte ')' ∧ 0 < n.paren then some { n with paren := n.paren - 1 }
  else if c = byte '\x7b' then some { n with brace := n.brace + 1 }
  else if c = byte '\x7d' ∧ 0 < n.brace then some { n with brace := n.brace - 1 }
  else if c = byte '[' then some { n with bracket := n.bracket + 1 }
  else if c = byte ']' ∧ 0 < n.bracket then some { n with bracket := n.bracket - 1 }
  else none

/-- The two loops: the index of what `here` finds outside of all brackets. -/
def findTopLevel (here : Bytes → Option ℕ) : OpenBrackets → Bytes → Option ℕ
  | _, [] => none
  | n, c :: s =>
    match n.step c with
    | some n' => (findTopLevel here n' s).map (· + 1)
    | none =>
      match if n.paren = 0 ∧ n.brace = 0 ∧ n.bracket = 0 then here (c :: s) else none with
      | some k => some k
      | none => (findTopLevel here n s).map (· + 1)

/-- Source: `parser.c` `find_top_level_keyword` -/
def findTopLevelKeyword (s kw : Bytes) : Option ℕ :=
  findTopLevel (fun s => if kw.isPrefixOf s then some 0 else none) {} s

/-- Source: `parser.c` `find_next_dist_stmt` -/
def findNextDistStmt (s : Bytes) : Option ℕ :=
  findTopLevel (fun s =>
    let count := (s.takeWhile isspace).length
    let next := s.dropWhile isspace
    if 2 ≤ count ∧ ((bytes "at ").isPrefixOf next ∨ (bytes "mounts ").isPrefixOf next) then some count
    else none) {} s

/-! ### Statements -/

/-- What the two functions for destinations do with a path. -/
def distCanonicalDest (path : Bytes) : Option Bytes :=
  let canon := unchars (canonicalizePathSimple (chars path))
  if canon.head? = some (byte '/') then some canon else none

/-- Source: `parser.c` `dist_normalize_dest` -/
def distNormalizeDest (base name : Bytes) : Option Bytes := distCanonicalDest (base ++ byte '/' :: name)

/-- Source: `parser.c` `dist_normalize_dest_path` -/
def distNormalizeDestPath (path : Bytes) : Option Bytes := distCanonicalDest path

/-- The destination of a mapping: a base and a name, or a path. -/
def distMappingDest (ev : DistEval) (dst : Bytes) : Option Bytes :=
  match findTopLevelKeyword dst (bytes " as ") with
  | some dstbaseEnd => do
    let dstbase ← distEvalExpr ev.keepNodes (dupTrimmedRange dst 0 dstbaseEnd)
    let dstname ← distEvalExpr ev.keepNodes (dupTrimmedRange dst (dstbaseEnd + 4) dst.length)
    guard (dstbase.val ≠ [] ∧ dstname.val ≠ [])
    distNormalizeDest dstbase dstname
  | none => do
    let dstpath ← distEvalExpr ev.keepNodes (dupTrimmedRange dst 0 dst.length)
    guard (dstpath.val ≠ [])
    distNormalizeDestPath dstpath

/-- Source: `parser.c` `dist_parse_mapping_stmt` -/
def distParseMappingStmt (ev : DistEval) (stmt : Bytes) (dm : DistManifest) : Option DistManifest := do
  guard ((bytes "at ").isPrefixOf stmt)
  let stmt := stmt.drop 3
  let srcEnd ← findTopLevelKeyword stmt (bytes " => ")
  let srcbaseEnd := (findTopLevelKeyword stmt (bytes " as ")).filter (· < srcEnd)
  let srcbaseRaw := srcbaseEnd.map (dupTrimmedRange stmt 0)
  let srcRaw := dupTrimmedRange stmt ((srcbaseEnd.map (· + 4)).getD 0) srcEnd
  let dst := stmt.drop (srcEnd + 4)
  guard ((bytes "at ").isPrefixOf dst)
  let dst := dst.drop 3
  let srcbase ← srcbaseRaw.mapM (distEvalExpr ev.expandNodes)
  let src ← distEvalExpr ev.expandNodes srcRaw
  guard (src.val ≠ [] ∧ srcbase.map Subtype.val ≠ some [])
  let dest ← distMappingDest ev dst
  distManifestAdd dm src dest

/-- The value and the prefix of a statement that mounts. -/
def distMount (ev : DistEval) (stmt : Bytes) : Option (CStr × CStr) := do
  guard ((bytes "mounts ").isPrefixOf stmt)
  let stmt := stmt.drop 7
  let atKw ← findTopLevelKeyword stmt (bytes " at ")
  let spec ← distEvalExpr ev.keepNodes (dupTrimmedRange stmt 0 atKw)
  let mountPrefix ← distEvalExpr ev.keepNodes (dupTrimmedRange stmt (atKw + 4) stmt.length)
  return (spec, mountPrefix)

/-- One entry of a value that is mounted. -/
def distMountEntry (mountPrefix : Bytes) (dm : DistManifest) (e : DistEntry) : Option DistManifest :=
  (distNormalizeDest mountPrefix e.dest).bind (distManifestAdd dm e.src)

/-- Source: `parser.c` `dist_parse_mount_stmt` -/
def distParseMountStmt (ev : DistEval) (stmt : Bytes) (dm : DistManifest) : Option DistManifest := do
  let (spec, mountPrefix) ← distMount ev stmt
  let mounted ← distParseManifest spec
  mounted.foldlM (distMountEntry mountPrefix) dm

/-! ### Blocks -/

/-- The statements between the braces of a block. -/
def distBody (text : Bytes) : Option Bytes :=
  let text := text.dropWhile isspace
  if (bytes "dist").isPrefixOf text ∨ (bytes "dest").isPrefixOf text then
    let brace := (text.drop 4).dropWhile isspace
    if brace.head? = some (byte '\x7b') then
      let brace := brace.rdropWhile isspace
      if brace.getLast? = some (byte '\x7d') then some (dupTrimmedRange brace 1 (brace.length - 1))
      else none
    else none
  else none

/-- The loop of `parse_dist_block` over the statements. -/
def distStmts (s : Bytes) : List Bytes :=
  match _hs : s.dropWhile isspace with
  | [] => []
  | c :: rest =>
    match findNextDistStmt rest with
    | some k => dupTrimmedRange (c :: rest) 0 (k + 1) :: distStmts (rest.drop k)
    | none => [c :: rest]
termination_by s.length
decreasing_by
  have hle := (List.dropWhile_sublist (l := s) isspace).length_le
  rw [_hs] at hle
  rw [List.length_drop]
  rw [List.length_cons] at hle
  omega

/-- A statement of a block. -/
def distParseStmt (ev : DistEval) (dm : DistManifest) (stmt : Bytes) : Option DistManifest :=
  if (bytes "at ").isPrefixOf stmt then distParseMappingStmt ev stmt dm
  else if (bytes "mounts ").isPrefixOf stmt then distParseMountStmt ev stmt dm
  else none

/-- The entries of a block. -/
def distBlockManifest (ev : DistEval) (text : Bytes) : Option DistManifest :=
  (distBody text).bind fun body => (distStmts body).foldlM (distParseStmt ev) []

/-- Source: `parser.c` `parse_dist_block` -/
def parseDistBlock (ev : DistEval) (text : Bytes) : Option Bytes :=
  (distBlockManifest ev text).map distSerializeManifest

/-! ### Copies -/

/-- What `tupbuild_create_copy_rule` sets of a rule. -/
structure CopyRule where
  inputs : List RulePath
  outputs : List RulePath
  deriving DecidableEq

/-- Source: `parser.c` `tupbuild_create_copy_rule`, up to the call of `execute_rule` -/
def tupbuildCreateCopyRule (tf : Tupfile) (src dest : Bytes) (destFromCallerRoot : Bool) :
    Option CopyRule := do
  let inputs ← getPathList tf none .rule (chars src)
  let outputs ← getPathList tf none .rule (chars dest)
  return ⟨inputs, if destFromCallerRoot then
    outputs.map fun pl => { pl with tentRelative := false } else outputs⟩

/-- Source: `parser.c` `tupbuild_dist_output_path` -/
def tupbuildDistOutputPath (root dest : Bytes) : Bytes :=
  unchars (canonicalizePathSimple (chars (root ++ byte '/' :: dest.dropWhile (· = byte '/'))))

/-- The loop of `tupbuild_materialize_dist`; `execute` tells whether a rule can be executed behind
others. -/
def materializeLoop (tf : Tupfile) (execute : List CopyRule → CopyRule → Bool) (root : Bytes)
    (rootFromCallerRoot : Bool) : List CopyRule → DistManifest → Option (List CopyRule)
  | _, [] => some []
  | done, e :: dm => do
    let rule ← tupbuildCreateCopyRule tf e.src (tupbuildDistOutputPath root e.dest) rootFromCallerRoot
    guard (execute done rule)
    let rules ← materializeLoop tf execute root rootFromCallerRoot (done ++ [rule]) dm
    return rule :: rules

/-- Source: `parser.c` `tupbuild_materialize_dist` -/
def tupbuildMaterializeDist (tf : Tupfile) (execute : List CopyRule → CopyRule → Bool) (root spec : Bytes)
    (rootFromCallerRoot : Bool) : Option (List CopyRule) :=
  (distParseManifest spec).bind (materializeLoop tf execute root rootFromCallerRoot [])

end Metatup
