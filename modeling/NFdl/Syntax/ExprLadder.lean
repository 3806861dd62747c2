import NFdl.Lib.Precedence
import NFdl.Syntax.ExprParser

/-!
# The ladder of the expression parser

The levels of the expression parser are a ladder of infix operators over unary expressions,
from the coalescing operator up to multiplication.
-/

namespace NFdl

open ExprParser

/-! ### Infix operators -/

inductive Infix where
  | coalesce
  | binary (op : BinOp)

namespace Infix

def mk : Infix → Expr → Expr → Expr
  | coalesce => .coalesce
  | binary op => .binary op

/-- The level at which the parser takes an operator. -/
def prec : Infix → ℕ
  | coalesce => 2
  | binary .or => 3
  | binary .and => 4
  | binary .eq | binary .ne => 5
  | binary .bitOr => 6
  | binary .bitXor => 7
  | binary .bitAnd => 8
  | binary .gt | binary .lt | binary .ge | binary .le => 9
  | binary .shl | binary .shr => 10
  | binary .add | binary .sub => 11
  | binary .mul | binary .div | binary .mod => 12

/-- The operator at the front of the tokens. -/
def next : List Token → Option (Infix × List Token)
  | .coalesce :: ts => some (coalesce, ts)
  | .or :: ts => some (binary .or, ts)
  | .and :: ts => some (binary .and, ts)
  | .eq :: ts => some (binary .eq, Parser.skipIf .eq ts)
  | .ne :: ts => some (binary .ne, ts)
  | .bitOr :: ts => some (binary .bitOr, ts)
  | .bitXor :: ts => some (binary .bitXor, ts)
  | .bitAnd :: ts => some (binary .bitAnd, ts)
  | .gt :: ts => some (binary .gt, ts)
  | .lt :: ts => some (binary .lt, ts)
  | .ge :: ts => some (binary .ge, ts)
  | .le :: ts => some (binary .le, ts)
  | .shl :: ts => some (binary .shl, ts)
  | .shr :: ts => some (binary .shr, ts)
  | .plus :: ts => some (binary .add, ts)
  | .minus :: ts => some (binary .sub, ts)
  | .star :: ts => some (binary .mul, ts)
  | .slash :: ts => some (binary .div, ts)
  | .mod :: ts => some (binary .mod, ts)
  | _ => none

theorem prec_bounds (o : Infix) : 2 ≤ o.prec ∧ o.prec < 13 := by
  cases o with
  | coalesce => decide
  | binary op => cases op <;> decide

theorem next_takes : Parser.Takes next := by
  intro ts o ts' h
  unfold next at h
  split at h <;> cases h
  case h_4 =>
    exact ⟨(Parser.skipIf_suffix _ _).trans (List.suffix_cons ..),
      Nat.lt_succ_of_le (Parser.skipIf_length _ _)⟩
  all_goals exact ⟨List.suffix_cons .., Nat.lt_succ_self _⟩

end Infix

/-! ### Levels -/

/-- The parser of the uppermost levels. -/
def infixLadder (d : ℕ) : TokenParser Expr :=
  Precedence.ladder (parseUnary parseExpr) Infix.next Infix.prec Infix.mk .overrun 13 d

theorem parseUnary_shrinks : Parser.Shrinks (parseUnary parseExpr) :=
  parseUnary_descends.shrinks parseExpr_shrinks

/-- One level of the parser is one level of the ladder. -/
theorem binaryLevel_eq {op : List Token → Option (BinOp × List Token)} {d : ℕ}
    (hnil : op [] = none)
    (h : ∀ t ts, Precedence.atLevel Infix.next Infix.prec (13 - (d + 1)) (t :: ts) =
      (op (t :: ts)).map fun r => (.binary r.1, r.2)) :
    binaryLevel op (infixLadder d) = infixLadder (d + 1) := by
  have hop : ∀ ts, Precedence.atLevel Infix.next Infix.prec (13 - (d + 1)) ts =
      (op ts).map fun r => (.binary r.1, r.2) := by
    intro ts
    cases ts with
    | nil =>
        rw [hnil]
        rfl
    | cons t ts => exact h t ts
  have hrename : Parser.leftAssoc (Precedence.atLevel Infix.next Infix.prec (13 - (d + 1)))
      Infix.mk .overrun (infixLadder d) = Parser.leftAssoc op .binary .overrun (infixLadder d) :=
    Parser.leftAssoc_rename .binary hop fun _ => rfl
  exact hrename.symm

/-- The levels of the parser, one after the other. -/
theorem parseLogicOr_ladder : parseLogicOr parseExpr = infixLadder 10 := by
  have hmul : parseMultiplicative parseExpr = infixLadder 1 :=
    @binaryLevel_eq multiplicativeOp 0 rfl fun t ts => by cases t <;> rfl
  have hadd : parseAdditive parseExpr = infixLadder 2 := by
    rw [parseAdditive, hmul]
    exact binaryLevel_eq rfl fun t ts => by cases t <;> rfl
  have hshift : parseShift parseExpr = infixLadder 3 := by
    rw [parseShift, hadd]
    exact binaryLevel_eq rfl fun t ts => by cases t <;> rfl
  have hrel : parseRelational parseExpr = infixLadder 4 := by
    rw [parseRelational, hshift]
    exact binaryLevel_eq rfl fun t ts => by cases t <;> rfl
  have hbitAnd : parseBitAnd parseExpr = infixLadder 5 := by
    rw [parseBitAnd, hrel]
    exact binaryLevel_eq rfl fun t ts => by cases t <;> rfl
  have hbitXor : parseBitXor parseExpr = infixLadder 6 := by
    rw [parseBitXor, hbitAnd]
    exact binaryLevel_eq rfl fun t ts => by cases t <;> rfl
  have hbitOr : parseBitOr parseExpr = infixLadder 7 := by
    rw [parseBitOr, hbitXor]
    exact binaryLevel_eq rfl fun t ts => by cases t <;> rfl
  have heq : parseEquality parseExpr = infixLadder 8 := by
    rw [parseEquality, hbitOr]
    exact binaryLevel_eq rfl fun t ts => by cases t <;> rfl
  have hand : parseLogicAnd parseExpr = infixLadder 9 := by
    rw [parseLogicAnd, heq]
    exact binaryLevel_eq rfl fun t ts => by cases t <;> rfl
  rw [parseLogicOr, hand]
  exact binaryLevel_eq rfl fun t ts => by cases t <;> rfl

theorem parseCoalesce_ladder : parseCoalesce parseExpr = infixLadder 11 := by
  have hop : ∀ ts, Precedence.atLevel Infix.next Infix.prec 2 ts =
      (coalesceOp ts).map fun r => (.coalesce, r.2) := by
    intro ts
    rcases ts with _ | ⟨t, ts⟩
    · rfl
    · cases t <;> rfl
  have hrename : Parser.leftAssoc (Precedence.atLevel Infix.next Infix.prec 2) Infix.mk .overrun
      (infixLadder 10) = Parser.leftAssoc coalesceOp (fun _ => .coalesce) .overrun (infixLadder 10) :=
    Parser.leftAssoc_rename (fun _ => .coalesce) hop fun _ => rfl
  rw [parseCoalesce, parseLogicOr_ladder]
  exact hrename.symm

/-- The parser reads a chain of infix operators as its canonical tree. -/
theorem parseCoalesce_reads {ts rest : List Token} {a : Expr} {l : List (Infix × Expr)}
    (hend : Infix.next rest = none)
    (h : Precedence.Reads (parseUnary parseExpr) Infix.next a l ts rest) :
    ∃ t : Precedence.Tree Infix Expr, t.Canonical Infix.prec ∧ t.first = a ∧ t.links = l ∧
      parseCoalesce parseExpr ts = (.ok (t.value Infix.mk), rest) := by
  rw [parseCoalesce_ladder]
  exact Precedence.ladder_reads Infix.next_takes parseUnary_shrinks (fun o => o.prec_bounds.2)
    (Precedence.endsBelow_none hend _) (by decide) h fun x _ => x.1.prec_bounds.1

end NFdl
