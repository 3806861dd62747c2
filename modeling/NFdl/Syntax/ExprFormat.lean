import NFdl.Lib.Text
import NFdl.Syntax.Ast
import NFdl.Syntax.Lexer

/-!
# Printed expressions

The formatter prints an expression with the parentheses that its precedence needs. The
lexer gives the tokens of the printed text, which are computed here a second time from the
expression.
-/

namespace NFdl

namespace Expr

def children : Expr → List Expr
  | .ident _ | .int _ | .str _ => []
  | .binary _ left right => [left, right]
  | .unary _ expr => [expr]
  | .ternary cond thenBranch elseBranch => [cond, thenBranch, elseBranch]
  | .coalesce value default => [value, default]
  | .call _ args => args
  | .tuple items => items
  | .field base _ => [base]

/-- Something holds of an expression and of everything inside it. -/
inductive Everywhere (P : Expr → Prop) : Expr → Prop where
  | intro {e : Expr} (here : P e) (inside : ∀ c ∈ e.children, Everywhere P c) : Everywhere P e

theorem Everywhere.here {P : Expr → Prop} {e : Expr} (h : Everywhere P e) : P e := by
  obtain ⟨here, -⟩ := h
  exact here

theorem Everywhere.inside {P : Expr → Prop} {e : Expr} (h : Everywhere P e) :
    ∀ c ∈ e.children, Everywhere P c := by
  obtain ⟨-, inside⟩ := h
  exact inside

end Expr

namespace Fmt

/-! ### The printer -/

/-- The text of a string between its quotes. -/
def escape (cs : List Char) : List Char := cs.flatMap fun
  | '"' => ['\\', '"']
  | '\\' => ['\\', '\\']
  | c => [c]

def emitStringLit (s : String) : List Char := '"' :: escape s.toList ++ ['"']

def binopPrec : BinOp → ℕ
  | .or => 3
  | .and => 4
  | .bitOr => 5
  | .bitXor => 6
  | .bitAnd => 7
  | .eq | .ne => 8
  | .gt | .lt | .ge | .le => 9
  | .shl | .shr => 10
  | .add | .sub => 11
  | .mul | .div | .mod => 12

/-- How tightly an expression binds. -/
def exprPrec : Expr → ℕ
  | .ident _ | .int _ | .str _ | .call _ _ | .tuple _ => 13
  | .field _ _ => 13
  | .unary _ _ => 12
  | .binary op _ _ => binopPrec op
  | .coalesce _ _ => 2
  | .ternary _ _ _ => 1

def binopStr : BinOp → List Char
  | .add => ['+']
  | .sub => ['-']
  | .mul => ['*']
  | .div => ['/']
  | .mod => ['%']
  | .eq => ['=', '=']
  | .ne => ['!', '=']
  | .lt => ['<']
  | .le => ['<', '=']
  | .gt => ['>']
  | .ge => ['>', '=']
  | .and => ['&', '&']
  | .or => ['|', '|']
  | .bitAnd => ['&']
  | .bitOr => ['|']
  | .bitXor => ['^']
  | .shl => ['<', '<']
  | .shr => ['>', '>']

def unaryStr : UnaryOp → Char
  | .not => '!'
  | .bitNot => '~'
  | .neg => '-'

/-- Parentheses around a text where an expression stands in a tighter place. -/
def wrap (parentPrec : ℕ) (expr : Expr) (text : List Char) : List Char :=
  if exprPrec expr < parentPrec then '(' :: text ++ [')'] else text

mutual

/-- The text of an expression without parentheses around it. -/
def emitBare : Expr → List Char
  | .ident s => s.toList
  | .int v => Text.decimal v.toInt
  | .str s => emitStringLit s
  | .unary op expr => unaryStr op :: wrap 13 expr (emitBare expr)
  | .binary op left right =>
      wrap (binopPrec op) left (emitBare left) ++ ' ' :: binopStr op ++
        ' ' :: wrap (binopPrec op + 1) right (emitBare right)
  | .ternary cond thenBranch elseBranch =>
      wrap 2 cond (emitBare cond) ++ [' ', '?', ' '] ++ wrap 1 thenBranch (emitBare thenBranch) ++
        [' ', ':', ' '] ++ wrap 1 elseBranch (emitBare elseBranch)
  | .coalesce value default =>
      wrap 3 value (emitBare value) ++ [' ', '?', '?', ' '] ++ wrap 2 default (emitBare default)
  | .call name args => name.toList ++ '(' :: emitItems args ++ [')']
  | .tuple items => '(' :: emitItems items ++ [')']
  | .field base field => wrap 13 base (emitBare base) ++ '.' :: field.toList

def emitItems : List Expr → List Char
  | [] => []
  | e :: es => wrap 0 e (emitBare e) ++ if es.isEmpty then [] else ',' :: ' ' :: emitItems es

end

/-- The text of an expression inside another one of the given precedence. -/
def emitExpr (expr : Expr) (parentPrec : ℕ) : List Char := wrap parentPrec expr (emitBare expr)

/-! ### The tokens of a printed expression -/

def binopTokens : BinOp → List Token
  | .add => [.error "unexpected +"]
  | .sub => [.minus]
  | .mul => [.star]
  | .div => [.slash]
  | .mod => [.mod]
  | .eq => [.eq, .eq]
  | .ne => [.ne]
  | .lt => [.lt]
  | .le => [.le]
  | .gt => [.gt]
  | .ge => [.ge]
  | .and => [.and]
  | .or => [.or]
  | .bitAnd => [.bitAnd]
  | .bitOr => [.bitOr]
  | .bitXor => [.bitXor]
  | .shl => [.shl]
  | .shr => [.shr]

def unaryToken : UnaryOp → Token
  | .not => .bang
  | .bitNot => .tilde
  | .neg => .minus

def wrapTokens (parentPrec : ℕ) (expr : Expr) (ts : List Token) : List Token :=
  if exprPrec expr < parentPrec then .lParen :: ts ++ [.rParen] else ts

mutual

def bareTokens : Expr → List Token
  | .ident s => [.ident s]
  | .int v => [.int v]
  | .str s => [.string (.ofList (escape s.toList))]
  | .unary op expr => unaryToken op :: wrapTokens 13 expr (bareTokens expr)
  | .binary op left right =>
      wrapTokens (binopPrec op) left (bareTokens left) ++ binopTokens op ++
        wrapTokens (binopPrec op + 1) right (bareTokens right)
  | .ternary cond thenBranch elseBranch =>
      wrapTokens 2 cond (bareTokens cond) ++ [.question] ++
        wrapTokens 1 thenBranch (bareTokens thenBranch) ++ [.colon] ++
        wrapTokens 1 elseBranch (bareTokens elseBranch)
  | .coalesce value default =>
      wrapTokens 3 value (bareTokens value) ++ [.coalesce] ++
        wrapTokens 2 default (bareTokens default)
  | .call name args => .ident name :: .lParen :: itemTokens args ++ [.rParen]
  | .tuple items => .lParen :: itemTokens items ++ [.rParen]
  | .field base field => wrapTokens 13 base (bareTokens base) ++ [.dot, .ident field]

def itemTokens : List Expr → List Token
  | [] => []
  | e :: es => wrapTokens 0 e (bareTokens e) ++ if es.isEmpty then [] else .comma :: itemTokens es

end

def exprTokens (expr : Expr) (parentPrec : ℕ) : List Token :=
  wrapTokens parentPrec expr (bareTokens expr)

end Fmt

end NFdl
