import NFdl.Lib.Parsing
import NFdl.Syntax.Ast
import NFdl.Syntax.Lexer

/-!
# The N-FDL expression parser

One function for each level of precedence, from the ternary operator down to primary
expressions. An expression in parentheses starts from the top again. The depth of these
has a bound that is never reached.
-/

namespace NFdl

/-- A syntax error, or that a bound was too low. -/
inductive ParseError where
  | syntax_ (msg : String)
  | overrun
deriving DecidableEq, Repr

abbrev TokenParser (α : Type) : Type := Parser Token ParseError α

/-- The token that the parser looks at. -/
def current (ts : List Token) : Token := ts.headD .eof

def tokenLabel : Token → String
  | .protocol => "protocol"
  | .message => "message"
  | .meta_ => "meta"
  | .endian => "endian"
  | .mode => "mode"
  | .big => "big"
  | .datagram => "datagram"
  | .validate => "validate"
  | .bind => "bind"
  | .to => "to"
  | .when => "when"
  | .ident s => s
  | .int v => toString v
  | .string _ => "string literal"
  | .lBrace => "\x7b"
  | .rBrace => "\x7d"
  | .lBracket => "["
  | .rBracket => "]"
  | .lParen => "("
  | .rParen => ")"
  | .colon => ":"
  | .semicolon => ";"
  | .eq => "="
  | .ne => "!="
  | .dot => "."
  | .minus => "-"
  | .plus => "+"
  | .star => "*"
  | .slash => "/"
  | .gt => ">"
  | .lt => "<"
  | .ge => ">="
  | .le => "<="
  | .and => "&&"
  | .or => "||"
  | .arrow => "->"
  | .question => "?"
  | .coalesce => "??"
  | .bitAnd => "&"
  | .bitOr => "|"
  | .bitXor => "^"
  | .shl => "<<"
  | .shr => ">>"
  | .mod => "%"
  | .bang => "!"
  | .tilde => "~"
  | .comma => ","
  | .eof => "end of input"
  | .error s => "error(" ++ s ++ ")"

namespace ExprParser

open Parser (skipIf)

/-! ### Operators -/

def multiplicativeOp : List Token → Option (BinOp × List Token) := Parser.tokenOp fun
  | .star => some .mul
  | .slash => some .div
  | .mod => some .mod
  | _ => none

def additiveOp : List Token → Option (BinOp × List Token) := Parser.tokenOp fun
  | .plus => some .add
  | .minus => some .sub
  | _ => none

def shiftOp : List Token → Option (BinOp × List Token) := Parser.tokenOp fun
  | .shl => some .shl
  | .shr => some .shr
  | _ => none

def relationalOp : List Token → Option (BinOp × List Token) := Parser.tokenOp fun
  | .gt => some .gt
  | .lt => some .lt
  | .ge => some .ge
  | .le => some .le
  | _ => none

def bitAndOp : List Token → Option (BinOp × List Token) := Parser.tokenOp fun
  | .bitAnd => some .bitAnd
  | _ => none

def bitXorOp : List Token → Option (BinOp × List Token) := Parser.tokenOp fun
  | .bitXor => some .bitXor
  | _ => none

def bitOrOp : List Token → Option (BinOp × List Token) := Parser.tokenOp fun
  | .bitOr => some .bitOr
  | _ => none

/-- Equality is written with one equals sign or with two. -/
def equalityOp : List Token → Option (BinOp × List Token)
  | .eq :: ts => some (.eq, skipIf .eq ts)
  | .ne :: ts => some (.ne, ts)
  | _ => none

def logicAndOp : List Token → Option (BinOp × List Token) := Parser.tokenOp fun
  | .and => some .and
  | _ => none

def logicOrOp : List Token → Option (BinOp × List Token) := Parser.tokenOp fun
  | .or => some .or
  | _ => none

def coalesceOp : List Token → Option (Unit × List Token) := Parser.tokenOp fun
  | .coalesce => some ()
  | _ => none

/-! ### Levels -/

section Levels

variable (expr : TokenParser Expr)

/-- The arguments of a call and its closing parenthesis, which may be missing. -/
def parseArgs (ts : List Token) : Except ParseError (List Expr) × List Token :=
  if current ts = .rParen then (.ok [], skipIf .rParen ts)
  else
    match Parser.sepBy .comma .overrun expr ts with
    | (.ok args, ts) => (.ok args, skipIf .rParen ts)
    | (.error e, ts) => (.error e, ts)

/-- What parentheses around expressions stand for. -/
def group : List Expr → Expr
  | [e] => e
  | elems => .tuple elems

def parseAtom : TokenParser Expr
  | .ident n :: ts =>
      if n = "true" then (.ok (.int 1), ts)
      else if n = "false" then (.ok (.int 0), ts)
      else if current ts = .lParen then
        Parser.map (.call n) (parseArgs expr) (skipIf .lParen ts)
      else (.ok (.ident n), ts)
  | .int v :: ts => (.ok (.int v), ts)
  | .string s :: ts => (.ok (.str s), ts)
  | .lParen :: ts =>
      match Parser.sepBy .comma .overrun expr ts with
      | (.ok elems, ts) => (.ok (group elems), skipIf .rParen ts)
      | (.error e, ts) => (.error e, ts)
  | ts => (.error (.syntax_ ("bad primary: expected expression, found " ++ tokenLabel (current ts) ++
      "; tip: start with ident, literal, or `(`")), ts)

/-- Names after dots. A dot without a name is taken as well. -/
def parsePostfix (atom : Expr) : List Token → Expr × List Token
  | .dot :: .ident f :: ts => parsePostfix (.field atom f) ts
  | .dot :: ts => (atom, ts)
  | ts => (atom, ts)

def parsePrimary : TokenParser Expr := fun ts =>
  match parseAtom expr ts with
  | (.ok atom, ts) => (.ok (parsePostfix atom ts).1, (parsePostfix atom ts).2)
  | (.error e, ts) => (.error e, ts)

def parseUnary : TokenParser Expr
  | .bang :: ts => ((parseUnary ts).1.map (.unary .not), (parseUnary ts).2)
  | .tilde :: ts => ((parseUnary ts).1.map (.unary .bitNot), (parseUnary ts).2)
  | .minus :: ts => ((parseUnary ts).1.map (.unary .neg), (parseUnary ts).2)
  | ts => parsePrimary expr ts

def binaryLevel (op : List Token → Option (BinOp × List Token)) (next : TokenParser Expr) :
    TokenParser Expr :=
  Parser.leftAssoc op .binary .overrun next

def parseMultiplicative : TokenParser Expr := binaryLevel multiplicativeOp (parseUnary expr)

def parseAdditive : TokenParser Expr := binaryLevel additiveOp (parseMultiplicative expr)

def parseShift : TokenParser Expr := binaryLevel shiftOp (parseAdditive expr)

def parseRelational : TokenParser Expr := binaryLevel relationalOp (parseShift expr)

def parseBitAnd : TokenParser Expr := binaryLevel bitAndOp (parseRelational expr)

def parseBitXor : TokenParser Expr := binaryLevel bitXorOp (parseBitAnd expr)

def parseBitOr : TokenParser Expr := binaryLevel bitOrOp (parseBitXor expr)

def parseEquality : TokenParser Expr := binaryLevel equalityOp (parseBitOr expr)

def parseLogicAnd : TokenParser Expr := binaryLevel logicAndOp (parseEquality expr)

def parseLogicOr : TokenParser Expr := binaryLevel logicOrOp (parseLogicAnd expr)

def parseCoalesce : TokenParser Expr :=
  Parser.leftAssoc coalesceOp (fun _ => .coalesce) .overrun (parseLogicOr expr)

def parseTernary : TokenParser Expr := fun ts =>
  match parseCoalesce expr ts with
  | (.error e, ts) => (.error e, ts)
  | (.ok cond, .question :: ts) =>
      match expr ts with
      | (.error e, ts) => (.error e, ts)
      | (.ok thenBranch, .colon :: ts) => Parser.map (.ternary cond thenBranch) expr ts
      | (.ok _, ts) => (.error (.syntax_ ("expected `:` in ternary (expected: `:`, found: " ++
          tokenLabel (current ts) ++ "); tip: write `cond ? then : else`")), ts)
  | (.ok e, ts) => (.ok e, ts)

end Levels

/-! ### Nesting -/

section Nesting

variable {expr expr' : TokenParser Expr} {k : ℕ}

theorem equalityOp_takes : Parser.Takes equalityOp := by
  intro ts b ts' h
  unfold equalityOp at h
  split at h
  · cases h
    exact ⟨(Parser.skipIf_suffix _ _).trans (List.suffix_cons ..),
      Nat.lt_succ_of_le (Parser.skipIf_length _ _)⟩
  · cases h
    exact ⟨List.suffix_cons .., Nat.lt_succ_self _⟩
  · cases h

theorem parseArgs_shrinks (hexpr : Parser.Shrinks expr) : Parser.Shrinks (parseArgs expr) := by
  intro ts
  unfold parseArgs
  split
  · exact Parser.skipIf_suffix _ _
  · have hargs : (Parser.sepBy .comma .overrun expr ts).2 <:+ ts :=
      Parser.sepBy_shrinks hexpr ts
    split
    · rename_i args rest hr
      rw [hr] at hargs
      exact (Parser.skipIf_suffix _ _).trans hargs
    · rename_i e rest hr
      rw [hr] at hargs
      exact hargs

theorem parseArgs_agree (hexpr : Parser.Shrinks expr) (h : Parser.AgreeBelow k expr expr') :
    Parser.AgreeBelow k (parseArgs expr) (parseArgs expr') := by
  intro ts hts
  unfold parseArgs
  rw [Parser.sepBy_agree hexpr h ts hts]

theorem parseAtom_descends : Parser.Descends parseAtom where
  shrinks := by
    intro expr hexpr ts
    unfold parseAtom
    split
    · rename_i n ts
      split
      · exact List.suffix_cons ..
      · split
        · exact List.suffix_cons ..
        · split
          · refine ((parseArgs_shrinks hexpr).map _).trans ?_
            exact (Parser.skipIf_suffix _ _).trans (List.suffix_cons ..)
          · exact List.suffix_cons ..
    · exact List.suffix_cons ..
    · exact List.suffix_cons ..
    · rename_i ts
      have helems : (Parser.sepBy .comma .overrun expr ts).2 <:+ ts :=
        Parser.sepBy_shrinks hexpr ts
      split
      · rename_i elems rest hr
        rw [hr] at helems
        exact (Parser.skipIf_suffix _ _).trans (helems.trans (List.suffix_cons ..))
      · rename_i e rest hr
        rw [hr] at helems
        exact helems.trans (List.suffix_cons ..)
    · exact List.suffix_rfl
  agree := by
    intro expr expr' k hexpr h ts hts
    unfold parseAtom
    split
    · rename_i n ts
      have hargs : (skipIf .lParen ts).length < k :=
        Nat.lt_of_le_of_lt (Parser.skipIf_length _ _) (Nat.lt_of_succ_lt_succ hts)
      unfold Parser.map
      rw [parseArgs_agree hexpr h _ hargs]
    · rfl
    · rfl
    · rename_i ts
      rw [Parser.sepBy_agree hexpr h ts (Nat.lt_of_succ_lt_succ hts)]
    · rfl

theorem parsePostfix_suffix (atom : Expr) (ts : List Token) : (parsePostfix atom ts).2 <:+ ts := by
  fun_induction parsePostfix atom ts with
  | case1 atom f ts ih => exact ih.trans ((List.suffix_cons ..).trans (List.suffix_cons ..))
  | case2 => exact List.suffix_cons ..
  | case3 => exact List.suffix_rfl

theorem parsePrimary_descends : Parser.Descends parsePrimary where
  shrinks := by
    intro expr hexpr ts
    have hatom := parseAtom_descends.shrinks hexpr ts
    unfold parsePrimary
    split
    · rename_i atom rest hr
      rw [hr] at hatom
      exact (parsePostfix_suffix _ _).trans hatom
    · rename_i e rest hr
      rw [hr] at hatom
      exact hatom
  agree := by
    intro expr expr' k hexpr h ts hts
    unfold parsePrimary
    rw [parseAtom_descends.agree hexpr h ts hts]

theorem parseUnary_descends : Parser.Descends parseUnary where
  shrinks := by
    intro expr hexpr ts
    fun_induction parseUnary expr ts with
    | case1 ts ih => exact ih.trans (List.suffix_cons ..)
    | case2 ts ih => exact ih.trans (List.suffix_cons ..)
    | case3 ts ih => exact ih.trans (List.suffix_cons ..)
    | case4 => exact parsePrimary_descends.shrinks hexpr _
  agree := by
    intro expr expr' k hexpr h ts hts
    fun_induction parseUnary expr ts with
    | case1 ts ih => rw [parseUnary, ih (Nat.lt_of_succ_lt hts)]
    | case2 ts ih => rw [parseUnary, ih (Nat.lt_of_succ_lt hts)]
    | case3 ts ih => rw [parseUnary, ih (Nat.lt_of_succ_lt hts)]
    | case4 ts hbang htilde hminus =>
        rw [parseUnary]
        · exact parsePrimary_descends.agree hexpr h ts hts
        all_goals assumption

theorem binaryLevel_descends {f : TokenParser Expr → TokenParser Expr}
    {op : List Token → Option (BinOp × List Token)} (hop : Parser.Takes op)
    (h : Parser.Descends f) : Parser.Descends fun expr => binaryLevel op (f expr) :=
  h.leftAssoc hop

/-- What holds of the unary operators and is kept by a level of binary operators. -/
theorem parseLogicOr_ladder {P : (TokenParser Expr → TokenParser Expr) → Prop} (hunary : P parseUnary)
    (hlevel : ∀ {op f}, Parser.Takes op → P f → P fun expr => binaryLevel op (f expr)) :
    P parseLogicOr := by
  have hmul : P parseMultiplicative := hlevel (Parser.tokenOp_takes _) hunary
  have hadd : P parseAdditive := hlevel (Parser.tokenOp_takes _) hmul
  have hshift : P parseShift := hlevel (Parser.tokenOp_takes _) hadd
  have hrel : P parseRelational := hlevel (Parser.tokenOp_takes _) hshift
  have hbitAnd : P parseBitAnd := hlevel (Parser.tokenOp_takes _) hrel
  have hbitXor : P parseBitXor := hlevel (Parser.tokenOp_takes _) hbitAnd
  have hbitOr : P parseBitOr := hlevel (Parser.tokenOp_takes _) hbitXor
  have heq : P parseEquality := hlevel equalityOp_takes hbitOr
  have hand : P parseLogicAnd := hlevel (Parser.tokenOp_takes _) heq
  exact hlevel (Parser.tokenOp_takes _) hand

theorem parseLogicOr_descends : Parser.Descends parseLogicOr :=
  parseLogicOr_ladder parseUnary_descends binaryLevel_descends

theorem parseCoalesce_descends : Parser.Descends parseCoalesce :=
  parseLogicOr_descends.leftAssoc (Parser.tokenOp_takes _)

theorem parseTernary_descends : Parser.Descends parseTernary where
  shrinks := by
    intro expr hexpr ts
    have hcond := parseCoalesce_descends.shrinks hexpr ts
    unfold parseTernary
    split
    · rename_i e rest hr
      rw [hr] at hcond
      exact hcond
    · rename_i cond rest hr
      rw [hr] at hcond
      have hthen := hexpr rest
      split
      · rename_i e rest' hr'
        rw [hr'] at hthen
        exact hthen.trans ((List.suffix_cons ..).trans hcond)
      · rename_i thenBranch rest' hr'
        rw [hr'] at hthen
        exact (hexpr.map rest').trans ((List.suffix_cons ..).trans (hthen.trans ((List.suffix_cons ..).trans hcond)))
      · rename_i rest' _ hr'
        rw [hr'] at hthen
        exact hthen.trans ((List.suffix_cons ..).trans hcond)
    · rename_i e rest _ hr
      rw [hr] at hcond
      exact hcond
  agree := by
    intro expr expr' k hexpr h ts hts
    have hcond := (parseCoalesce_descends.shrinks hexpr).length ts
    unfold parseTernary
    rw [← parseCoalesce_descends.agree hexpr h ts hts]
    split
    · rfl
    · rename_i cond rest hr
      rw [hr] at hcond
      have hrest : rest.length < k :=
        Nat.lt_of_lt_of_le (Nat.lt_succ_self _) (hcond.trans (Nat.le_of_lt_succ hts))
      have hthen := hexpr.length rest
      rw [← h rest hrest]
      split
      · rfl
      · rename_i thenBranch rest' hr'
        rw [hr'] at hthen
        unfold Parser.map
        rw [h rest' (Nat.lt_of_lt_of_le (Nat.lt_succ_self _) (hthen.trans hrest.le))]
      · rfl
    · rfl

end Nesting

end ExprParser

/-- Parse an expression. There are not more levels of parentheses than tokens. -/
def parseExpr : TokenParser Expr := Parser.nested ExprParser.parseTernary .overrun

theorem parseExpr_shrinks : Parser.Shrinks parseExpr :=
  Parser.nested_shrinks ExprParser.parseTernary_descends

theorem parseExpr_eq : parseExpr = ExprParser.parseTernary parseExpr :=
  Parser.nested_eq ExprParser.parseTernary_descends

end NFdl
