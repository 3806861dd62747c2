import Mathlib.Data.Nat.Notation
import Mathlib.Algebra.Group.Nat.Defs

/-!
# Bytecode programs

The instruction set of the N-FDL virtual machine and the arithmetic of its
operators. Slot numbers and jump targets are natural numbers; the compiler is
where their sixteen-bit width matters. Slot values are machine words, and an
operator that would panic in an overflow-checked build has no result.
-/

namespace NFdl

/-- Resource limits of one interpreter run. -/
structure Limits where
  maxInstructions : Nat
  maxLoopIterations : Nat
deriving DecidableEq, Repr

/-- The limits of `Limits::default`. -/
def Limits.default : Limits where
  maxInstructions := 100000
  maxLoopIterations := 10000

inductive BytecodeBinOp where
  | add | sub | mul | div | mod
  | eq | ne | gt | lt | ge | le
  | and | or
  | bitAnd | bitOr | bitXor | shl | shr
deriving DecidableEq, Repr

inductive BytecodeUnaryOp where
  | not | bitNot | neg
deriving DecidableEq, Repr

/-- The instructions, with the fields of the source. -/
inductive Instruction where
  | readU8 (slot : Nat)
  | readU16 (slot : Nat) (le : Bool)
  | readU24 (slot : Nat) (le : Bool)
  | readU32 (slot : Nat) (le : Bool)
  | readSlice (lenSlot dstSlot : Nat)
  | readBits (bits : UInt8) (slot : Nat)
  | readRest (name : String) (slot : Nat)
  | validate (predSlot : Nat) (message : String)
  | emitField (name : String) (slot : Nat)
  | loadConst (value : UInt64) (dst : Nat)
  | binOp (op : BytecodeBinOp) (left right dst : Nat)
  | unaryOp (op : BytecodeUnaryOp) (src dst : Nat)
  | copySlot (src dst : Nat)
  | updateOffset (slot : Nat)
  | jump (target : Nat)
  | jumpIfZero (condSlot target : Nat)
  | ret
deriving DecidableEq, Repr

structure BytecodeProgram where
  instructions : List Instruction
  slotCount : Nat
deriving DecidableEq, Repr

/-- `u16::MAX`, which `ReadSlice` treats as "no length slot". -/
def u16Max : Nat := 65535

/-- The conversion `as u16` of an instruction index. -/
def asU16 (n : Nat) : Nat := n % 65536

theorem asU16_of_le {n : Nat} (h : n ≤ u16Max) : asU16 n = n := by
  unfold u16Max at h
  unfold asU16
  omega

theorem asU16_le (n : Nat) : asU16 n ≤ n := Nat.mod_le _ _

/-- An addition of `usize` values, which panics when it overflows. -/
def addUsize (a b : Nat) : Option Nat := if a + b < 2 ^ 64 then some (a + b) else none

@[simp] theorem addUsize_eq_some {a b c : Nat} :
    addUsize a b = some c ↔ a + b < 2 ^ 64 ∧ a + b = c := by
  unfold addUsize
  split
  · simp_all
  · simp only [reduceCtorEq, false_iff, not_and]
    omega

/-- The word a comparison or a logical operator stores. -/
def boolWord (b : Bool) : UInt64 := if b then 1 else 0

/-- Addition of words, without a result when it overflows. -/
def addWord (l r : UInt64) : Option UInt64 :=
  if l.toNat + r.toNat < 2 ^ 64 then some (l + r) else none

/-- Multiplication of words, without a result when it overflows. -/
def mulWord (l r : UInt64) : Option UInt64 :=
  if l.toNat * r.toNat < 2 ^ 64 then some (l * r) else none

/-- `saturating_sub`. -/
def subWord (l r : UInt64) : UInt64 := if l < r then 0 else l - r

/-- The amount of a shift is cast to `u32` first; a shift by a word's width or
more has no result. -/
def shiftAmount (r : UInt64) : Option UInt64 :=
  let k := r.toNat % 2 ^ 32
  if k < 64 then some (UInt64.ofNat k) else none

/-- The operators as the interpreter computes them. Division and remainder by
zero give zero. -/
def BytecodeBinOp.apply (op : BytecodeBinOp) (l r : UInt64) : Option UInt64 :=
  match op with
  | .add => addWord l r
  | .sub => some (subWord l r)
  | .mul => mulWord l r
  | .div => some (if r = 0 then 0 else l / r)
  | .mod => some (if r = 0 then 0 else l % r)
  | .eq => some (boolWord (l == r))
  | .ne => some (boolWord (l != r))
  | .gt => some (boolWord (l > r))
  | .lt => some (boolWord (l < r))
  | .ge => some (boolWord (l ≥ r))
  | .le => some (boolWord (l ≤ r))
  | .and => some (boolWord (l != 0 && r != 0))
  | .or => some (boolWord (l != 0 || r != 0))
  | .bitAnd => some (l &&& r)
  | .bitOr => some (l ||| r)
  | .bitXor => some (l ^^^ r)
  | .shl => (shiftAmount r).map (l <<< ·)
  | .shr => (shiftAmount r).map (l >>> ·)

def BytecodeUnaryOp.apply (op : BytecodeUnaryOp) (v : UInt64) : UInt64 :=
  match op with
  | .not => boolWord (v == 0)
  | .bitNot => ~~~v
  | .neg => 0 - v

end NFdl
