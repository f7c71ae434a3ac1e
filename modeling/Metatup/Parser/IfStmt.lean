import Mathlib.Data.List.Infix
import Metatup.Lib.BitStack
import Metatup.Parser.FunctionScan

/-!
# The open conditions of a Tupfile

`if_stmt.c` keeps the open `if` blocks of a Tupfile in two bytes. Here its functions change them one
assignment after the other and return what the source returns, so that a call that is refused shows what it
leaves behind.

* `ifAdd_eq` and the others: the same functions where the parser stops at the first call that is refused.
* `Represents.call`: one call does to the blocks what it does to a stack of conditions.
* `if_stmt_refines_stack`: so does a sequence of calls that nests no deeper than the bytes have bits.
-/

namespace Metatup

open Lib

/-- Source: `if_stmt.c` `if_init` -/
def ifInit : IfStmt := { ifness := 0, level := 0 }

namespace IfStmt

/-- Source: `if_stmt.c` `if_add` -/
def ifAdd (cond : Bool) : StateM IfStmt ℤ := do
  if 0x80 ≤ (← get).level then return -1
  if (← get).level = 0 then modify fun ifs => { ifs with level := 1 }
  else modify fun ifs => { ifs with level := ifs.level <<< 1 }
  if !cond then modify fun ifs => { ifs with ifness := ifs.ifness ||| ifs.level }
  return 0

/-- Source: `if_stmt.c` `if_else` -/
def ifElse : StateM IfStmt ℤ := do
  if (← get).level = 0 then return -2
  modify fun ifs => { ifs with ifness := ifs.ifness ^^^ ifs.level }
  return 0

/-- Source: `if_stmt.c` `if_endif` -/
def ifEndif : StateM IfStmt ℤ := do
  if (← get).level = 0 then return -2
  modify fun ifs => { ifs with ifness := ifs.ifness &&& ~~~ifs.level }
  modify fun ifs => { ifs with level := ifs.level >>> 1 }
  return 0

/-- Source: `if_stmt.c` `if_check` -/
def ifCheck (ifs : IfStmt) : ℤ := if ifs.level = 0 then 0 else -1

/-- The open blocks, the innermost first: whether each is in its true part. -/
def openBlocks (ifs : IfStmt) : List Bool :=
  BitStack.entries ifs.level.toBitVec ifs.ifness.toBitVec

end IfStmt

/-- A call that changes the conditions. -/
inductive IfCall
  | ifAdd (cond : Bool)
  | ifElse
  | ifEndif

/-- The call on the two bytes. -/
def IfCall.run : IfCall → StateM IfStmt ℤ
  | .ifAdd cond => IfStmt.ifAdd cond
  | .ifElse => IfStmt.ifElse
  | .ifEndif => IfStmt.ifEndif

/-- What the call is for: a stack of conditions, the innermost first. Outside of all blocks `else` and
`endif` are refused. -/
def IfCall.onStack : IfCall → StateM (List Bool) ℤ
  | .ifAdd cond => fun l => (0, cond :: l)
  | .ifElse => fun
    | [] => (-2, [])
    | b :: l => (0, (!b) :: l)
  | .ifEndif => fun
    | [] => (-2, [])
    | _ :: l => (0, l)

/-- The stack is never deeper than `n` during the calls. -/
def NestsWithin (n : ℕ) (calls : List IfCall) : Prop :=
  ∀ pre ∈ calls.inits, ((pre.mapM IfCall.onStack).run []).2.length ≤ n

instance (n : ℕ) (calls : List IfCall) : Decidable (NestsWithin n calls) :=
  inferInstanceAs (Decidable (∀ pre ∈ calls.inits, _))

/-- The two bytes act as the stack `l` of open blocks. -/
structure RefinesStack (ifs : IfStmt) (l : List Bool) : Prop where
  blocks : ifs.openBlocks = l
  allTrue : ifTrue ifs = true ↔ ∀ b ∈ l, b = true
  check : ifs.ifCheck = if l = [] then 0 else -1
  ifAdd : l.length < 8 → ∀ cond, ∃ ifs', (IfStmt.ifAdd cond).run ifs = (0, ifs') ∧ ifs'.openBlocks = cond :: l
  /-- A ninth block is refused, and the bytes stay as they are. -/
  ninth : l.length = 8 → ∀ cond, (IfStmt.ifAdd cond).run ifs = (-1, ifs)
  ifElse : ∀ b l', l = b :: l' →
    ∃ ifs', IfStmt.ifElse.run ifs = (0, ifs') ∧ ifs'.openBlocks = (!b) :: l'
  ifEndif : ∀ b l', l = b :: l' →
    ∃ ifs', IfStmt.ifEndif.run ifs = (0, ifs') ∧ ifs'.openBlocks = l'
  outside : l = [] → IfStmt.ifElse.run ifs = (-2, ifs) ∧ IfStmt.ifEndif.run ifs = (-2, ifs)

/-! ### One call -/

section

variable {ifs : IfStmt} {l : List Bool} {b : Bool}

/-- The parser stops at a call that is refused, so that it has no use for what the call leaves behind. -/
theorem ifAdd_eq (ifs : IfStmt) (cond : Bool) :
    (IfStmt.ifAdd cond).run ifs = match ifAdd ifs cond with
      | some ifs => (0, ifs)
      | none => (-1, ifs) := by
  unfold ifAdd IfStmt.ifAdd
  by_cases hfull : 0x80 ≤ ifs.level
  · rw [if_pos hfull]
    simp only [bind_pure_comp, StateT.run_bind, StateT.run_get, pure_bind, if_pos hfull, StateT.run_pure]
    rfl
  · rw [if_neg hfull]
    by_cases hzero : ifs.level = 0
    · cases cond <;> simp [hzero] <;> rfl
    · cases cond <;> simp [hfull, hzero] <;> rfl

theorem ifElse_eq (ifs : IfStmt) :
    IfStmt.ifElse.run ifs = match ifElse ifs with
      | some ifs => (0, ifs)
      | none => (-2, ifs) := by
  unfold ifElse IfStmt.ifElse
  by_cases hzero : ifs.level = 0
  · rw [if_pos hzero]
    simp [hzero]
    rfl
  · rw [if_neg hzero]
    simp [hzero]
    rfl

theorem ifEndif_eq (ifs : IfStmt) :
    IfStmt.ifEndif.run ifs = match ifEndif ifs with
      | some ifs => (0, ifs)
      | none => (-2, ifs) := by
  unfold ifEndif IfStmt.ifEndif
  by_cases hzero : ifs.level = 0
  · rw [if_pos hzero]
    simp [hzero]
    rfl
  · rw [if_neg hzero]
    simp [hzero]
    rfl

/-- The bytes stand for the blocks of the stack. -/
structure Represents (ifs : IfStmt) (l : List Bool) : Prop where
  room : l.length ≤ 8
  level : ifs.level.toBitVec = BitStack.topBit 8 l.length
  ifness : ifs.ifness.toBitVec = BitStack.falseBits 8 l

namespace Represents

theorem blocks (h : Represents ifs l) : ifs.openBlocks = l := by
  unfold IfStmt.openBlocks
  rw [h.level, h.ifness, BitStack.entries_falseBits h.room]

theorem level_eq_zero (h : Represents ifs l) : ifs.level = 0 ↔ l = [] := by
  rw [← List.length_eq_zero_iff, ← BitStack.topBit_eq_zero h.room, ← h.level, ← UInt8.toBitVec_inj]
  rfl

/-- The highest bit is that of an eighth block. -/
theorem full_iff (h : Represents ifs l) : 0x80 ≤ ifs.level ↔ l.length = 8 := by
  have hroom : ∀ n ≤ 8, (0x80 : BitVec 8) ≤ BitStack.topBit 8 n ↔ n = 8 := by decide
  rw [UInt8.le_iff_toBitVec_le, h.level]
  exact hroom _ h.room

theorem allTrue (h : Represents ifs l) : ifTrue ifs = true ↔ ∀ b ∈ l, b = true := by
  unfold ifTrue
  rw [decide_eq_true_iff, ← BitStack.falseBits_eq_zero h.room, ← h.ifness, ← UInt8.toBitVec_inj]
  rfl

theorem add (h : Represents ifs l) (hroom : l.length < 8) (cond : Bool) :
    ∃ ifs', ifAdd ifs cond = some ifs' ∧ Represents ifs' (cond :: l) := by
  have hlevel : (if ifs.level = 0 then (1 : UInt8) else ifs.level <<< 1).toBitVec =
      BitStack.topBit 8 (l.length + 1) := by
    split
    · next hzero =>
      rw [h.level_eq_zero.1 hzero]
      rfl
    · next hzero =>
      have hne : l.length ≠ 0 := fun hlen => hzero (h.level_eq_zero.2 (List.length_eq_zero_iff.1 hlen))
      rw [UInt8.toBitVec_shiftLeft, h.level]
      exact BitStack.topBit_shiftLeft hne
  unfold ifAdd
  rw [if_neg fun hfull => by have := h.full_iff.1 hfull; omega]
  refine ⟨_, rfl, hroom, hlevel, ?_⟩
  cases cond with
  | true => exact h.ifness
  | false => exact congrArg₂ (· ||| ·) h.ifness hlevel

theorem flip (h : Represents ifs (b :: l)) :
    ∃ ifs', ifElse ifs = some ifs' ∧ Represents ifs' ((!b) :: l) := by
  unfold ifElse
  rw [if_neg fun hzero => by cases h.level_eq_zero.1 hzero]
  refine ⟨_, rfl, h.room, h.level, ?_⟩
  rw [UInt8.toBitVec_xor, h.ifness, h.level]
  exact BitStack.falseBits_xor b l

theorem close (h : Represents ifs (b :: l)) : ∃ ifs', ifEndif ifs = some ifs' ∧ Represents ifs' l := by
  have hroom : l.length + 1 ≤ 8 := h.room
  unfold ifEndif
  rw [if_neg fun hzero => by cases h.level_eq_zero.1 hzero]
  refine ⟨_, rfl, by omega, ?_, ?_⟩
  · rw [UInt8.toBitVec_shiftRight, h.level]
    exact BitStack.topBit_shiftRight hroom
  · rw [UInt8.toBitVec_and, UInt8.toBitVec_not, h.ifness, h.level]
    exact BitStack.falseBits_and_not b l

theorem outside (h : Represents ifs []) : ifElse ifs = none ∧ ifEndif ifs = none := by
  have hzero := h.level_eq_zero.2 rfl
  exact ⟨if_pos hzero, if_pos hzero⟩

/-- One call does to the blocks what it does to the stack, unless it is one `if` too many. -/
theorem call (h : Represents ifs l) (call : IfCall) (hroom : (call.onStack.run l).2.length ≤ 8) :
    ∃ ifs', call.run.run ifs = ((call.onStack.run l).1, ifs') ∧
      Represents ifs' (call.onStack.run l).2 := by
  cases call with
  | ifAdd cond =>
    obtain ⟨ifs', hadd, h'⟩ := h.add hroom cond
    refine ⟨ifs', ?_, h'⟩
    exact (ifAdd_eq ifs cond).trans (by rw [hadd]; rfl)
  | ifElse =>
    cases l with
    | nil => exact ⟨ifs, (ifElse_eq ifs).trans (by rw [h.outside.1]; rfl), h⟩
    | cons b l =>
      obtain ⟨ifs', hflip, h'⟩ := h.flip
      exact ⟨ifs', (ifElse_eq ifs).trans (by rw [hflip]; rfl), h'⟩
  | ifEndif =>
    cases l with
    | nil => exact ⟨ifs, (ifEndif_eq ifs).trans (by rw [h.outside.2]; rfl), h⟩
    | cons b l =>
      obtain ⟨ifs', hclose, h'⟩ := h.close
      exact ⟨ifs', (ifEndif_eq ifs).trans (by rw [hclose]; rfl), h'⟩

/-- The bytes act as the stack whose blocks they stand for. -/
theorem refinesStack (h : Represents ifs l) : RefinesStack ifs l where
  blocks := h.blocks
  allTrue := h.allTrue
  check := by
    unfold IfStmt.ifCheck
    simp only [h.level_eq_zero]
  ifAdd := fun hroom cond => by
    obtain ⟨ifs', hadd, h'⟩ := h.add hroom cond
    exact ⟨ifs', (ifAdd_eq ifs cond).trans (by rw [hadd]), h'.blocks⟩
  ninth := fun hlen cond => by
    have hnone : Metatup.ifAdd ifs cond = none := if_pos (h.full_iff.2 hlen)
    exact (ifAdd_eq ifs cond).trans (by rw [hnone])
  ifElse := by
    rintro b l' rfl
    obtain ⟨ifs', hflip, h'⟩ := h.flip
    exact ⟨ifs', (ifElse_eq ifs).trans (by rw [hflip]), h'.blocks⟩
  ifEndif := by
    rintro b l' rfl
    obtain ⟨ifs', hclose, h'⟩ := h.close
    exact ⟨ifs', (ifEndif_eq ifs).trans (by rw [hclose]), h'.blocks⟩
  outside := by
    rintro rfl
    exact ⟨(ifElse_eq ifs).trans (by rw [h.outside.1]), (ifEndif_eq ifs).trans (by rw [h.outside.2])⟩

end Represents

/-! ### A sequence of calls -/

theorem represents_ifInit : Represents ifInit [] := ⟨Nat.zero_le 8, rfl, rfl⟩

theorem run_mapM_concat {σ : Type} (f : IfCall → StateM σ ℤ) (calls : List IfCall) (call : IfCall) (s : σ) :
    ((calls ++ [call]).mapM f).run s =
      (((calls.mapM f).run s).1 ++ [((f call).run ((calls.mapM f).run s).2).1],
        ((f call).run ((calls.mapM f).run s).2).2) := by
  rw [List.mapM_append]
  simp only [List.mapM_cons, List.mapM_nil, bind_pure_comp, map_pure, StateT.run_bind, StateT.run_map]
  rfl

theorem NestsWithin.init {n : ℕ} {calls : List IfCall} {call : IfCall}
    (h : NestsWithin n (calls ++ [call])) : NestsWithin n calls := by
  intro pre hpre
  rw [List.mem_inits] at hpre
  exact h pre ((List.mem_inits _ _).2 (hpre.trans (List.prefix_append _ _)))

theorem NestsWithin.last {n : ℕ} {calls : List IfCall} (h : NestsWithin n calls) :
    ((calls.mapM IfCall.onStack).run []).2.length ≤ n :=
  h calls ((List.mem_inits _ _).2 List.prefix_rfl)

/-- The calls, one after the other, on the bytes and on the stack. -/
theorem represents_calls {calls : List IfCall} (h : NestsWithin 8 calls) :
    ∃ ifs, (calls.mapM IfCall.run).run ifInit = (((calls.mapM IfCall.onStack).run []).1, ifs) ∧
      Represents ifs ((calls.mapM IfCall.onStack).run []).2 := by
  induction calls using List.reverseRecOn with
  | nil => exact ⟨ifInit, rfl, represents_ifInit⟩
  | append_singleton calls call ih =>
    obtain ⟨ifs, hrun, hrep⟩ := ih h.init
    have hlast := h.last
    rw [run_mapM_concat] at hlast ⊢
    obtain ⟨ifs', hcall, hrep'⟩ := hrep.call call hlast
    rw [run_mapM_concat, hrun]
    dsimp only
    rw [hcall]
    exact ⟨ifs', rfl, hrep'⟩

/-- Calls that nest no deeper than eight levels return what they return on the stack, and leave bytes that
act as the stack. -/
theorem if_stmt_refines_stack (calls : List IfCall) (h : NestsWithin 8 calls) :
    ((calls.mapM IfCall.run).run ifInit).1 = ((calls.mapM IfCall.onStack).run []).1 ∧
      RefinesStack ((calls.mapM IfCall.run).run ifInit).2 ((calls.mapM IfCall.onStack).run []).2 := by
  obtain ⟨ifs, hrun, hrep⟩ := represents_calls h
  rw [hrun]
  exact ⟨rfl, hrep.refinesStack⟩

/-- Eight blocks, the fourth in its `else`; a ninth is refused. -/
theorem if_stmt_refines_stack_eight :
    RefinesStack { ifness := 0x08, level := 0x80 } [true, true, true, true, false, true, true, true] := by
  have h := if_stmt_refines_stack [.ifAdd true, .ifAdd true, .ifAdd true, .ifAdd true, .ifElse, .ifAdd true,
    .ifAdd true, .ifAdd true, .ifAdd true] (by decide)
  exact h.2

end

end Metatup
