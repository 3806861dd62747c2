import Mathlib.Data.Nat.Notation

/-!
# The N-FDL syntax tree

Messages, their bodies and the expressions in them, as the parser builds them.
Positions and doc comments are left out, because no later stage reads them.
`MatchArm` and `Match` refer to each other, since an arm is a small message body.
-/

namespace NFdl

inductive BinOp where
  | or | and
  | bitOr | bitXor | bitAnd
  | eq | ne | gt | lt | ge | le
  | shl | shr
  | add | sub | mul | div | mod
deriving DecidableEq, Repr

inductive UnaryOp where
  | not | bitNot | neg
deriving DecidableEq, Repr

inductive Expr where
  | ident (name : String)
  | int (v : Int64)
  | str (s : String)
  | binary (op : BinOp) (left right : Expr)
  | unary (op : UnaryOp) (expr : Expr)
  | ternary (cond thenBranch elseBranch : Expr)
  | coalesce (value default : Expr)
  | call (name : String) (args : List Expr)
  | tuple (items : List Expr)
  | field (base : Expr) (name : String)

namespace Expr

/-- Induction over expressions. Arguments of calls and items of tuples are
never evaluated, so they carry no hypothesis. -/
@[induction_eliminator] theorem ind {P : Expr → Prop} (ident : ∀ name, P (.ident name))
    (int : ∀ v, P (.int v)) (str : ∀ s, P (.str s))
    (binary : ∀ op left right, P left → P right → P (.binary op left right))
    (unary : ∀ op expr, P expr → P (.unary op expr))
    (ternary : ∀ cond thenBranch elseBranch, P cond → P thenBranch → P elseBranch →
      P (.ternary cond thenBranch elseBranch))
    (coalesce : ∀ value default, P value → P default → P (.coalesce value default))
    (call : ∀ name args, P (.call name args)) (tuple : ∀ items, P (.tuple items))
    (field : ∀ base name, P base → P (.field base name)) : ∀ e, P e
  | .ident name => ident name
  | .int v => int v
  | .str s => str s
  | .binary op l r =>
      binary op l r (ind ident int str binary unary ternary coalesce call tuple field l)
        (ind ident int str binary unary ternary coalesce call tuple field r)
  | .unary op e =>
      unary op e (ind ident int str binary unary ternary coalesce call tuple field e)
  | .ternary c t e =>
      ternary c t e (ind ident int str binary unary ternary coalesce call tuple field c)
        (ind ident int str binary unary ternary coalesce call tuple field t)
        (ind ident int str binary unary ternary coalesce call tuple field e)
  | .coalesce v d =>
      coalesce v d (ind ident int str binary unary ternary coalesce call tuple field v)
        (ind ident int str binary unary ternary coalesce call tuple field d)
  | .call name args => call name args
  | .tuple items => tuple items
  | .field b name =>
      field b name (ind ident int str binary unary ternary coalesce call tuple field b)

/-- The expression contains no dotted reference, outside of calls and tuples. -/
def FieldFree : Expr → Prop
  | .binary _ left right => left.FieldFree ∧ right.FieldFree
  | .unary _ expr => expr.FieldFree
  | .ternary cond thenBranch elseBranch =>
      cond.FieldFree ∧ thenBranch.FieldFree ∧ elseBranch.FieldFree
  | .coalesce value default => value.FieldFree ∧ default.FieldFree
  | .field _ _ => False
  | _ => True

end Expr

inductive NfdlType where
  | u8 | u16 | u24 | u32
  | bytes (len : Expr)
  | bytesRest | bytesEof | bytesStream
  | bitfield (bits : UInt8)
  | messageRef (name : String)

structure Validate where
  expr : Expr
  message : String
  order : Nat

structure Field where
  name : String
  ty : NfdlType
  validate : Option Validate
  conditional : Option Expr
  order : Nat

structure Let where
  name : String
  value : Expr
  order : Nat

structure Carry where
  name : String
  ty : NfdlType
  init : Expr

structure NextStmt where
  name : String
  value : Expr

structure Loop where
  name : String
  carries : List Carry
  condition : Expr
  body : List Field
  nexts : List NextStmt
  order : Nat

mutual

inductive Match where
  | mk (tag : Expr) (arms : List MatchArm) (order : Nat)

/-- An arm with its case constant, `none` for `default`. -/
inductive MatchArm where
  | mk (case : Option Int64) (fields : List Field) (lets : List Let) (loops : List Loop)
      (validates : List Validate) (matches_ : List Match)

end

def Match.order : Match → Nat
  | .mk _ _ order => order

structure Message where
  name : String
  fields : List Field
  lets : List Let
  loops : List Loop
  validates : List Validate
  matches_ : List Match

structure Bind where
  layer : String
  source : String
  field : String
  when_ : Expr

structure Protocol where
  name : String
  endian : String
  messages : List Message
  binds : List Bind

end NFdl
