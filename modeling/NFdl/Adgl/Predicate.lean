import NFdl.Adgl.Binding
import Mathlib.Logic.Function.Basic

/-!
# The predicate interpreter

A predicate is run over sixteen slots. Arithmetic is checked, loads from a binding
that is not bound are unknown, and an unknown operand makes the result unknown.
-/

namespace Adgl

inductive CorrelateError where
  | arithOverflow
  | divisionByZero
  | typeMismatch (op : String)
  | unknownBinding (binding : BindingIdx)
  | unknownTopoFunction (func : TopoFuncIdx)
deriving DecidableEq, Repr

structure PredCtx where
  bindings : List Binding
  scope : ScopeId
  interner : ScopeInterner
  topo : TopologyProvider

/-- The content of a slot. An unknown truth value stands for a missing value, too. -/
inductive Slot where
  | empty
  | int (value : Int64)
  | truth (t : T3)
deriving DecidableEq, Repr

/-- The number in a slot, none if it is unknown. -/
def asNum (op : String) : Slot → Except CorrelateError (Option Int64)
  | .int i => .ok (some i)
  | .truth .unknown => .ok none
  | .truth _ | .empty => .error (.typeMismatch op)

/-- The truth value in a slot. A number is true unless it is zero. -/
def asTruth (op : String) : Slot → Except CorrelateError T3
  | .truth t => .ok t
  | .int i => .ok (.ofBool (i ≠ 0))
  | .empty => .error (.typeMismatch op)

def PredCtx.binding (ctx : PredCtx) (idx : BindingIdx) : Except CorrelateError Binding :=
  match ctx.bindings[idx.toNat]? with
  | some b => .ok b
  | none => .error (.unknownBinding idx)

def Binding.loadEventField (b : Binding) (field : FieldIdx) : Except CorrelateError Slot :=
  match b with
  | .bound (.event e) =>
      .ok <|
        if field = eventFieldTime then .int e.time.millis
        else if field = eventFieldTarget then
          .int ((e.field eventFieldTarget).getD (scopeKeyI64 e.scope))
        else match e.field field with
          | some v => .int v
          | none => .truth .unknown
  | .bound _ => .error (.typeMismatch "LOAD_EVENT_FIELD")
  | .absent | .unknown => .ok (.truth .unknown)

def Binding.loadCauseField (b : Binding) (field : FieldIdx) : Except CorrelateError Slot :=
  match b with
  | .bound (.cause c) =>
      .ok <|
        if field = 2 then .int (.ofNat c.confidence.value)
        else if field = 0 then .int (scopeKeyI64 c.target)
        else if field = 1 then .int c.time.millis
        else .truth .unknown
  | .bound _ => .error (.typeMismatch "LOAD_CAUSE_FIELD")
  | .absent | .unknown => .ok (.truth .unknown)

def Binding.loadProblemField (b : Binding) (field : FieldIdx) : Except CorrelateError Slot :=
  match b with
  | .bound (.problem p) =>
      .ok <|
        if field = 0 then .int (scopeKeyI64 p.target)
        else if field = 1 then .int p.time.millis
        else .truth .unknown
  | .bound _ => .error (.typeMismatch "LOAD_PROBLEM_FIELD")
  | .absent | .unknown => .ok (.truth .unknown)

/-- The number, unless it leaves the 64 bits. -/
def checked (n : Int) : Except CorrelateError Int64 :=
  if -9223372036854775808 ≤ n ∧ n ≤ 9223372036854775807 then .ok (.ofInt n)
  else .error .arithOverflow

/-- Division truncates; the remainder of the least number by minus one is an
overflow like its quotient. -/
def ArithOp.apply (op : ArithOp) (a b : Int64) : Except CorrelateError Int64 :=
  match op with
  | .add => checked (a.toInt + b.toInt)
  | .sub => checked (a.toInt - b.toInt)
  | .mul => checked (a.toInt * b.toInt)
  | .div =>
      if b = 0 then .error .divisionByZero else checked (a.toInt.tdiv b.toInt)
  | .mod =>
      if b = 0 then .error .divisionByZero
      else (checked (a.toInt.tdiv b.toInt)).map fun _ => .ofInt (a.toInt.tmod b.toInt)

def ArithOp.name : ArithOp → String
  | .add => "ADD" | .sub => "SUB" | .mul => "MUL" | .div => "DIV" | .mod => "MOD"

def CmpOp.apply (op : CmpOp) (a b : Int64) : Bool :=
  match op with
  | .eq => a == b
  | .ne => a != b
  | .lt => a < b
  | .le => a ≤ b
  | .gt => b < a
  | .ge => b ≤ a

def CmpOp.name : CmpOp → String
  | .eq => "CMP_EQ" | .ne => "CMP_NE" | .lt => "CMP_LT" | .le => "CMP_LE"
  | .gt => "CMP_GT" | .ge => "CMP_GE"

/-- Checked arithmetic on two slots. -/
def arith (op : String) (f : Int64 → Int64 → Except CorrelateError Int64) (lhs rhs : Slot) :
    Except CorrelateError Slot := do
  let a ← asNum op lhs
  let b ← asNum op rhs
  match a, b with
  | some a, some b => return .int (← f a b)
  | _, _ => return .truth .unknown

/-- A comparison of two slots. -/
def cmp (op : String) (f : Int64 → Int64 → Bool) (lhs rhs : Slot) : Except CorrelateError Slot := do
  let a ← asNum op lhs
  let b ← asNum op rhs
  match a, b with
  | some a, some b => return .truth (.ofBool (f a b))
  | _, _ => return .truth .unknown

def connect (op : String) (f : T3 → T3 → T3) (lhs rhs : Slot) : Except CorrelateError Slot := do
  let a ← asTruth op lhs
  let b ← asTruth op rhs
  return .truth (f a b)

def Binding.presence : Binding → T3
  | .bound _ => .true
  | .absent => .false
  | .unknown => .unknown

/-- The topology call: unknown keys have unknown identities. -/
def topoCall (ctx : PredCtx) (func : TopoFuncIdx) (a b : Slot) : Except CorrelateError Slot :=
  match TopoFunc.fromIdx func with
  | none => .error (.unknownTopoFunction func)
  | some f => do
      let ka ← asNum "TOPO_CALL" a
      let kb ← asNum "TOPO_CALL" b
      match ka.bind ctx.interner.resolve, kb.bind ctx.interner.resolve with
      | some sa, some sb => return .truth (f.call ctx.topo sa sb)
      | _, _ => return .truth .unknown

def winIn (x lo hi : Slot) : Except CorrelateError Slot := do
  let x ← asNum "WIN_IN" x
  let lo ← asNum "WIN_IN" lo
  let hi ← asNum "WIN_IN" hi
  match x, lo, hi with
  | some x, some lo, some hi => return .truth (.ofBool (lo ≤ x ∧ x ≤ hi))
  | _, _, _ => return .truth .unknown

abbrev Slots := SlotIdx → Slot

namespace PredOp

/-- The slot that an operation writes. -/
def dst : PredOp → SlotIdx
  | .loadEventField _ _ dst | .loadCauseField _ _ dst | .loadProblemField _ _ dst
  | .loadConst _ dst | .loadDuration _ dst | .loadScopeKey dst | .arith _ _ _ dst
  | .cmp _ _ _ dst | .and _ _ dst | .or _ _ dst | .not _ dst | .present _ dst | .absent _ dst
  | .topoCall _ _ _ dst | .winBack _ _ dst | .winFwd _ _ dst | .winIn _ _ _ dst => dst

/-- The slots that an operation reads. -/
def srcs : PredOp → List SlotIdx
  | .arith _ lhs rhs _ | .cmp _ lhs rhs _ | .and lhs rhs _ | .or lhs rhs _ => [lhs, rhs]
  | .not src _ => [src]
  | .topoCall _ a b _ => [a, b]
  | .winBack time dur _ | .winFwd time dur _ => [time, dur]
  | .winIn x lo hi _ => [x, lo, hi]
  | _ => []

/-- The value that an operation computes. -/
def value (ctx : PredCtx) (slots : Slots) : PredOp → Except CorrelateError Slot
  | .loadEventField b field _ => do (← ctx.binding b).loadEventField field
  | .loadCauseField b field _ => do (← ctx.binding b).loadCauseField field
  | .loadProblemField b field _ => do (← ctx.binding b).loadProblemField field
  | .loadConst imm _ => .ok (.int imm)
  | .loadDuration dur _ => .ok (.int dur.millis)
  | .loadScopeKey _ => .ok (.int (scopeKeyI64 ctx.scope))
  | .arith op lhs rhs _ => Adgl.arith op.name op.apply (slots lhs) (slots rhs)
  | .cmp op lhs rhs _ => Adgl.cmp op.name op.apply (slots lhs) (slots rhs)
  | .and lhs rhs _ => connect "AND" T3.and (slots lhs) (slots rhs)
  | .or lhs rhs _ => connect "OR" T3.or (slots lhs) (slots rhs)
  | .not src _ => do return .truth (← asTruth "NOT" (slots src)).not
  | .present b _ => do return .truth (← ctx.binding b).presence
  | .absent b _ => do return .truth (← ctx.binding b).presence.not
  | .topoCall func a b _ => Adgl.topoCall ctx func (slots a) (slots b)
  | .winBack time dur _ => Adgl.arith "WIN_BACK" ArithOp.sub.apply (slots time) (slots dur)
  | .winFwd time dur _ => Adgl.arith "WIN_FWD" ArithOp.add.apply (slots time) (slots dur)
  | .winIn x lo hi _ => Adgl.winIn (slots x) (slots lo) (slots hi)

end PredOp

/-- Run the operations in order, up to the first error. -/
def execOps (ctx : PredCtx) : List PredOp → Slots → Except CorrelateError Slots
  | [], slots => .ok slots
  | op :: ops, slots =>
      match op.value ctx slots with
      | .error e => .error e
      | .ok v => execOps ctx ops (Function.update slots op.dst v)

def evalPredicate (pred : Predicate) (ctx : PredCtx) : Except CorrelateError T3 :=
  match execOps ctx pred.ops fun _ => .empty with
  | .error e => .error e
  | .ok slots => asTruth "RESULT" (slots pred.result)

theorem execOps_append (ctx : PredCtx) (ops ops' : List PredOp) (slots : Slots) :
    execOps ctx (ops ++ ops') slots = execOps ctx ops slots >>= execOps ctx ops' := by
  induction ops generalizing slots with
  | nil => rfl
  | cons op ops ih =>
      rw [List.cons_append, execOps, execOps]
      cases op.value ctx slots with
      | error e => rfl
      | ok v => exact ih _

end Adgl
