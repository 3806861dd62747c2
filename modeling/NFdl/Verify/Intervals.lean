import NFdl.Lib.Text
import NFdl.Syntax.Ast
import Mathlib.Data.Int.Bitwise
import Mathlib.Data.List.AList

/-!
# Interval analysis of slice lengths

The verifier knows an interval for the value of every scalar field. It renders the
length of a slice as text and splits the text at operators to find an interval for
the length. Arithmetic on the bounds of intervals is that of 64-bit integers, and has
no result where it overflows.
-/

namespace NFdl

open Text

/-! ### Intervals -/

structure Interval where
  lo : ℤ
  hi : ℤ
deriving DecidableEq, Repr

/-- The integer, if it is one of 64 bits. -/
def checkedInt64 (i : ℤ) : Option ℤ := if -2 ^ 63 ≤ i ∧ i < 2 ^ 63 then some i else none

namespace Interval

/-- The interval between two bounds, in either order. -/
def new (lo hi : ℤ) : Interval := ⟨min lo hi, max hi lo⟩

def contains (i : Interval) (val : ℤ) : Prop := i.lo ≤ val ∧ val ≤ i.hi

def add (i other : Interval) : Option Interval := do
  let lo ← checkedInt64 (i.lo + other.lo)
  let hi ← checkedInt64 (i.hi + other.hi)
  some (new lo hi)

def sub (i other : Interval) : Option Interval := do
  let lo ← checkedInt64 (i.lo - other.hi)
  let hi ← checkedInt64 (i.hi - other.lo)
  some (new lo hi)

/-- Half of the range of 64-bit integers, for everything that is not known. -/
def wide : Interval := ⟨-2 ^ 62, 2 ^ 62 - 1⟩

end Interval

/-- The known intervals of fields. -/
abbrev Facts := AList fun _ : String => Interval

/-- The divisor after the first `%`, if it is a positive literal. -/
def modulusBound (expr : List Char) : Option ℤ :=
  (splitFirst '%' expr).bind fun parts => (parseInt64 (trim parts.2)).filter (0 < ·)

/-- The divisor of a text is a numeral behind the first `%`. -/
theorem modulusBound_eq_some {cs : List Char} {x : ℤ} (h : modulusBound cs = some x) :
    ∃ before after, splitFirst '%' cs = some (before, after) ∧
      parseInt64 (trim after) = some x ∧ 0 < x := by
  obtain ⟨⟨before, after⟩, hsplit, hx⟩ := Option.bind_eq_some_iff.mp h
  obtain ⟨hparse, hpos⟩ := Option.filter_eq_some_iff.mp hx
  exact ⟨before, after, hsplit, hparse, of_decide_eq_true hpos⟩

/-- The text around the first minus sign, or around the first plus sign if there is
no minus sign. -/
def parseSimpleArith (expr : List Char) : Option (List Char × Char × List Char) :=
  let expr := trim expr
  match splitFirst '-' expr with
  | some (left, right) => some (trim left, '-', trim right)
  | none => (splitFirst '+' expr).map fun parts => (trim parts.1, '+', trim parts.2)

/-- The interval of a known field, moved by a literal. -/
def shiftedFact (facts : Facts) (expr : List Char) : Option (Option Interval) := do
  let (left, op, right) ← parseSimpleArith expr
  let leftInt ← facts.lookup (String.ofList left)
  let c ← parseInt64 right
  match op with
  | '-' => some (leftInt.sub (.new c c))
  | '+' => some (leftInt.add (.new c c))
  | _ => none

def analyzeExpr (facts : Facts) (expr : List Char) : Option Interval :=
  let expr := trim expr
  match parseInt64 expr with
  | some c => some (.new c c)
  | none =>
      match modulusBound expr with
      | some x => some (.new 0 (x - 1))
      | none =>
          match shiftedFact facts expr with
          | some result => result
          | none => some ((facts.lookup (String.ofList expr)).getD .wide)

/-! ### Rendering -/

def binopStr : BinOp → List Char
  | .add => ['+']
  | .sub => ['-']
  | .mul => ['*']
  | .div => ['/']
  | .mod => ['%']
  | .eq => ['=', '=']
  | .ne => ['!', '=']
  | .lt => ['<']
  | .le => ['<', '=']
  | .gt => ['>']
  | .ge => ['>', '=']
  | .and => ['&', '&']
  | .or => ['|', '|']
  | .bitAnd => ['&']
  | .bitOr => ['|']
  | .bitXor => ['^']
  | .shl => ['<', '<']
  | .shr => ['>', '>']

def unaryopStr : UnaryOp → Char
  | .not => '!'
  | .bitNot => '~'
  | .neg => '-'

mutual

/-- The text that is analysed. It has no parentheses around operands. -/
def exprToString : Expr → List Char
  | .ident s => s.toList
  | .int v => decimal v.toInt
  | .str s => '"' :: s.toList ++ ['"']
  | .binary op left right =>
      exprToString left ++ ' ' :: binopStr op ++ ' ' :: exprToString right
  | .unary op expr => unaryopStr op :: exprToString expr
  | .ternary cond thenBranch elseBranch =>
      '(' :: exprToString cond ++ [' ', '?', ' '] ++ exprToString thenBranch ++
        [' ', ':', ' '] ++ exprToString elseBranch ++ [')']
  | .coalesce value default =>
      '(' :: exprToString value ++ [' ', '?', '?', ' '] ++ exprToString default ++ [')']
  | .call name args => name.toList ++ '(' :: exprsToString args ++ [')']
  | .tuple elems => '(' :: exprsToString elems ++ [')']
  | .field base field => exprToString base ++ '.' :: field.toList

/-- The texts of several expressions, with commas between them. -/
def exprsToString : List Expr → List Char
  | [] => []
  | [e] => exprToString e
  | e :: rest => exprToString e ++ ',' :: ' ' :: exprsToString rest

end

/-! ### Checks -/

inductive Severity where
  | warning | note
deriving DecidableEq, Repr

structure SliceDiagnostic where
  severity : Severity
  code : String
  message : String
deriving DecidableEq, Repr

/-- The values that a scalar of this type can have, with a cap for 32 bits. -/
def scalarInterval : NfdlType → Option Interval
  | .u8 => some (.new 0 (2 ^ 8 - 1))
  | .u16 => some (.new 0 (2 ^ 16 - 1))
  | .u24 => some (.new 0 (2 ^ 24 - 1))
  | .u32 => some (.new 0 (2 ^ 63 - 1))
  | _ => none

/-- Add the intervals of scalar fields. The last field of a name counts. -/
def seedFieldIntervals (fields : List Field) (facts : Facts) : Facts :=
  fields.foldl (fun facts f => match scalarInterval f.ty with
    | some value => facts.insert f.name value
    | none => facts) facts

def checkFieldSlice (facts : Facts) (field : Field) : Option (List SliceDiagnostic) :=
  match field.ty with
  | .bytes len => do
      let text := String.ofList (exprToString len)
      let lenInt ← analyzeExpr facts (exprToString len)
      if lenInt.lo < 0 then
        some [⟨.warning, "NFDV01", "`bytes[...]` length `" ++ text ++
          "` may be negative (interval [" ++ toString lenInt.lo ++ "," ++ toString lenInt.hi ++
          "]); add a `validate` guard"⟩]
      else if lenInt.hi = 2 ^ 62 - 1 then
        some [⟨.note, "NFDV02", "`bytes[...]` length `" ++ text ++
          "` is not statically bounded; relies on runtime `validate`/`__rem`"⟩]
      else some []
  | _ => some []

/-- What is known of the fields of a message and of its loops. -/
def messageFacts (msg : Message) : Facts :=
  msg.loops.foldl (fun facts lp => seedFieldIntervals lp.body facts)
    (seedFieldIntervals msg.fields ∅)

def verifyMessage (msg : Message) : Option (List SliceDiagnostic) := do
  let diags ← (msg.fields ++ msg.loops.flatMap Loop.body).mapM
    (checkFieldSlice (messageFacts msg))
  some diags.flatten

def verifyProtocol (proto : Protocol) : Option (List SliceDiagnostic) := do
  let diags ← proto.messages.mapM verifyMessage
  some diags.flatten

/-! ### Values over the integers -/

/-- The operators on integers without bounds. Division truncates, and has the result
zero for the divisor zero. -/
def BinOp.overInt (op : BinOp) (l r : ℤ) : ℤ :=
  let truth (b : Bool) : ℤ := if b then 1 else 0
  match op with
  | .add => l + r
  | .sub => l - r
  | .mul => l * r
  | .div => l.tdiv r
  | .mod => if r = 0 then 0 else l.tmod r
  | .eq => truth (l == r)
  | .ne => truth (l != r)
  | .gt => truth (l > r)
  | .lt => truth (l < r)
  | .ge => truth (l ≥ r)
  | .le => truth (l ≤ r)
  | .and => truth (l != 0 && r != 0)
  | .or => truth (l != 0 || r != 0)
  | .bitAnd => Int.land l r
  | .bitOr => Int.lor l r
  | .bitXor => Int.xor l r
  | .shl => l * 2 ^ r.toNat
  | .shr => l / 2 ^ r.toNat

def UnaryOp.overInt (op : UnaryOp) (v : ℤ) : ℤ :=
  match op with
  | .not => if v = 0 then 1 else 0
  | .bitNot => Int.not v
  | .neg => -v

/-- The value of an expression over the integers, by its tree. As in the evaluator,
what is not a scalar counts as zero. -/
def intValue (values : String → ℤ) : Expr → ℤ
  | .int v => v.toInt
  | .ident name => values name
  | .binary op left right => op.overInt (intValue values left) (intValue values right)
  | .unary op expr => op.overInt (intValue values expr)
  | .ternary cond thenBranch elseBranch =>
      if intValue values cond ≠ 0 then intValue values thenBranch else intValue values elseBranch
  | .coalesce value default =>
      if intValue values value ≠ 0 then intValue values value else intValue values default
  | .call _ _ => 0
  | .tuple _ => 0
  | .field _ _ => 0
  | .str _ => 0

/-- That the values of the fields lie in the intervals that are known. -/
def Facts.Hold (facts : Facts) (values : String → ℤ) : Prop :=
  ∀ name i, facts.lookup name = some i → i.contains (values name)

end NFdl
