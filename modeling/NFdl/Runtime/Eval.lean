import NFdl.Syntax.Ast
import NFdl.Bytecode.Instruction

/-!
# Direct evaluation of expressions

`evalExpr` is the evaluator the runner uses for `when` conditions. It shares
the word arithmetic of the virtual machine, and like it has no result where an
overflow-checked build panics.
-/

namespace NFdl

/-- Names and their values, as a lookup. -/
abbrev Env := String → Option UInt64

/-- The value of a name; an unknown name counts as zero. -/
def Env.value (vars : Env) (name : String) : UInt64 := (vars name).getD 0

/-- The operator the compiler emits for a source operator. -/
def BinOp.toBytecode : BinOp → BytecodeBinOp
  | .add => .add
  | .sub => .sub
  | .mul => .mul
  | .div => .div
  | .mod => .mod
  | .eq => .eq
  | .ne => .ne
  | .gt => .gt
  | .lt => .lt
  | .ge => .ge
  | .le => .le
  | .and => .and
  | .or => .or
  | .bitAnd => .bitAnd
  | .bitOr => .bitOr
  | .bitXor => .bitXor
  | .shl => .shl
  | .shr => .shr

def UnaryOp.toBytecode : UnaryOp → BytecodeUnaryOp
  | .not => .not
  | .bitNot => .bitNot
  | .neg => .neg

/-- The operators of `eval_expr`. -/
def evalBinOp (op : BinOp) (l r : UInt64) : Option UInt64 :=
  match op with
  | .add => addWord l r
  | .sub => some (subWord l r)
  | .mul => mulWord l r
  | .div => some (if r = 0 then 0 else l / r)
  | .mod => some (if r = 0 then 0 else l % r)
  | .eq => some (boolWord (l == r))
  | .ne => some (boolWord (l != r))
  | .gt => some (boolWord (l > r))
  | .lt => some (boolWord (l < r))
  | .ge => some (boolWord (l ≥ r))
  | .le => some (boolWord (l ≤ r))
  | .and => some (boolWord (l != 0 && r != 0))
  | .or => some (boolWord (l != 0 || r != 0))
  | .bitAnd => some (l &&& r)
  | .bitOr => some (l ||| r)
  | .bitXor => some (l ^^^ r)
  | .shl => (shiftAmount r).map (l <<< ·)
  | .shr => (shiftAmount r).map (l >>> ·)

def evalUnaryOp (op : UnaryOp) (v : UInt64) : UInt64 :=
  match op with
  | .not => boolWord (v == 0)
  | .bitNot => ~~~v
  | .neg => 0 - v

/-- Evaluator and machine agree on the operators. -/
theorem toBytecode_apply (op : BinOp) (l r : UInt64) :
    op.toBytecode.apply l r = evalBinOp op l r := by
  cases op <;> rfl

theorem unary_toBytecode_apply (op : UnaryOp) (v : UInt64) :
    op.toBytecode.apply v = evalUnaryOp op v := by
  cases op <;> rfl

/-- The evaluator of `eval_expr`. Calls, tuples, strings and dotted references
are not scalar values here and give zero. -/
def evalExpr (vars : Env) : Expr → Option UInt64
  | .int v => some v.toUInt64
  | .ident name =>
      if name = "__current_offset" then some (vars.value "__current_offset")
      else some (vars.value name)
  | .binary op left right => do
      let l ← evalExpr vars left
      let r ← evalExpr vars right
      evalBinOp op l r
  | .unary op expr => do
      let v ← evalExpr vars expr
      some (evalUnaryOp op v)
  | .ternary cond thenBranch elseBranch => do
      let c ← evalExpr vars cond
      if c ≠ 0 then evalExpr vars thenBranch else evalExpr vars elseBranch
  | .coalesce value default => do
      let v ← evalExpr vars value
      if v ≠ 0 then some v else evalExpr vars default
  | .call _ _ => some 0
  | .tuple _ => some 0
  | .field _ _ => some 0
  | .str _ => some 0

/-- Dotted references as the compiler resolves them: the dotted name, then the
field's name, then the base's name, and zero when none of them is known. -/
def fieldValue (vars : Env) (base : Expr) (field : String) : UInt64 :=
  match base with
  | .ident name =>
      (((vars (name ++ "." ++ field)).or (vars field)).or (vars name)).getD 0
  | _ => 0

/-- Evaluation as compiled code sees names: `__current_offset` is the offset
slot, whatever the table says, and dotted references are resolved. -/
def evalNamed (offset : UInt64) (vars : Env) : Expr → Option UInt64
  | .int v => some v.toUInt64
  | .ident name =>
      if name = "__current_offset" then some offset else some (vars.value name)
  | .binary op left right => do
      let l ← evalNamed offset vars left
      let r ← evalNamed offset vars right
      evalBinOp op l r
  | .unary op expr => do
      let v ← evalNamed offset vars expr
      some (evalUnaryOp op v)
  | .ternary cond thenBranch elseBranch => do
      let c ← evalNamed offset vars cond
      if c ≠ 0 then evalNamed offset vars thenBranch else evalNamed offset vars elseBranch
  | .coalesce value default => do
      let v ← evalNamed offset vars value
      if v ≠ 0 then some v else evalNamed offset vars default
  | .call _ _ => some 0
  | .tuple _ => some 0
  | .field base field => some (fieldValue vars base field)
  | .str _ => some 0

/-- Without dotted references both evaluations agree on agreeing names. -/
theorem evalNamed_eq_evalExpr {offset : UInt64} {vars env : Env}
    (hoffset : env.value "__current_offset" = offset)
    (hvars : ∀ name, name ≠ "__current_offset" → env.value name = vars.value name) {e : Expr}
    (h : e.FieldFree) : evalNamed offset vars e = evalExpr env e := by
  induction e with
  | ident name =>
      unfold evalNamed evalExpr
      split
      · rw [hoffset]
      · rename_i hname
        rw [hvars name hname]
  | binary op left right ihl ihr =>
      unfold evalNamed evalExpr
      rw [ihl h.1, ihr h.2]
  | unary op expr ih =>
      unfold evalNamed evalExpr
      rw [ih h]
  | ternary cond thenBranch elseBranch ihc iht ihe =>
      unfold evalNamed evalExpr
      rw [ihc h.1, iht h.2.1, ihe h.2.2]
  | coalesce value default ihv ihd =>
      unfold evalNamed evalExpr
      rw [ihv h.1, ihd h.2]
  | field base name => exact absurd h id
  | int v => rfl
  | str s => rfl
  | call name args => rfl
  | tuple items => rfl

end NFdl
