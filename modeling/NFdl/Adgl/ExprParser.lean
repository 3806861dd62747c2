import NFdl.Adgl.Ast
import NFdl.Adgl.Lexer
import NFdl.Adgl.NearMiss
import NFdl.Lib.ParserRules

/-!
# The ADGL expression parser

One function for each level of precedence, from `or` down to the suffixes of a primary
expression. An expression in brackets starts from the top again. The depth of these has a
bound that is never reached. An error names what was expected and what was found.
-/

namespace Adgl

open Ast (Expr BinaryOp)

/-- A syntax error. -/
structure SyntaxErr where
  code : String
  message : String
  expected : String
  found : Option String
  help : Option String
deriving DecidableEq, Repr

/-- An error of the lexer or of the parser, or that a bound was too low. -/
inductive ParseError where
  | lexical (err : ParseErr)
  | syntax_ (err : SyntaxErr)
  | overrun

abbrev TokenParser (α : Type) : Type := Parser Token ParseError α

/-- The token that the parser looks at. -/
def current (ts : List Token) : Token := ts.headD .eof

namespace ExprParser

/-! ### Errors -/

def keywords : List String := Keyword.all.map Keyword.text

/-- What the parser suggests in place of what it found. -/
def nearMissHelp (found : String) (candidates : List String) : Option String :=
  (suggestNearMiss found candidates).map helpDidYouMean

/-- The error of a token of another kind. -/
def unexpectedKind (expected : String) (ts : List Token) : ParseError :=
  let found := describeTokenKind (current ts)
  .syntax_ ⟨"ADGL0100", "unexpected token", expected, some found,
    if expected = ":" then some "expected `:` after field name" else nearMissHelp found keywords⟩

/-- The members of a ruleset. -/
def memberKeywords : List String :=
  ["evidence", "decision", "mutually_exclusive", "requires", "version"]

/-- The error of another token than the given one. -/
def unexpectedPunct (kind : Token) (ts : List Token) : ParseError :=
  let found := describeTokenKind (current ts)
  .syntax_ ⟨"ADGL0100", "unexpected token", describeTokenKind kind, some found,
    match kind with
    | .rBrace => nearMissHelp found memberKeywords
    | .colon => some "expected `:` after field name"
    | .eq => some "expected `=` in assignment"
    | _ => nearMissHelp found keywords⟩

/-! ### Tokens -/

def consumePunct (kind : Token) : TokenParser Unit :=
  Parser.one (fun t => if t = kind then some () else none) (unexpectedPunct kind)

/-- The keywords that are names as well. -/
def isNameKeyword (k : Keyword) : Bool := k = .event || k = .cause || k = .problem

def reservedKeyword : ParseError :=
  .syntax_ ⟨"ADGL0100", "reserved keyword is not allowed here", "identifier (non-keyword)", none,
    none⟩

/-- A name. A reserved keyword is taken before it is rejected. -/
def parseIdentAny : TokenParser String
  | .ident s :: ts => (.ok s, ts)
  | .kw k :: ts => if isNameKeyword k then (.ok k.text, ts) else (.error reservedKeyword, ts)
  | ts => (.error (unexpectedKind "identifier" ts), ts)

/-! ### Operators -/

def notOp : Token → Option (Expr → Expr)
  | .bang | .kw .not => some (.unary .not)
  | _ => none

def multiplicativeOp : Token → Option BinaryOp
  | .star => some .mul
  | .slash => some .div
  | .percent => some .rem
  | _ => none

def additiveOp : Token → Option BinaryOp
  | .plus => some .add
  | .minus => some .sub
  | _ => none

def equalityOp : Token → Option BinaryOp
  | .eqEq => some .eq
  | .ne => some .ne
  | .lt => some .lt
  | .le => some .le
  | .gt => some .gt
  | .ge => some .ge
  | .kw .in_ => some .in_
  | _ => none

def logicAndOp : Token → Option BinaryOp
  | .andAnd | .kw .and => some .and
  | _ => none

def logicOrOp : Token → Option BinaryOp
  | .orOr | .kw .or => some .or
  | _ => none

/-! ### Levels -/

open Parser (andThen onHead prefixes suffixes ret)

section Levels

variable (expr : TokenParser Expr)

/-- The expressions of a list up to its closing token, which is left. -/
def parseExprs (close : Token) : TokenParser (List Expr) := fun ts =>
  if current ts = close then ret [] ts else Parser.sepBy .comma .overrun expr ts

/-- The arguments of a call, behind its opening parenthesis. -/
def parseArgs : TokenParser (List Expr) :=
  andThen (parseExprs expr .rParen) fun args => Parser.map (fun _ => args) (consumePunct .rParen)

/-- A name in parentheses. -/
def parseTested : TokenParser String :=
  andThen (consumePunct .lParen) fun _ => andThen parseIdentAny fun name =>
    Parser.map (fun _ => name) (consumePunct .rParen)

/-- What a primary expression is behind its first token. -/
def primaryHead : Token → Option (TokenParser Expr → TokenParser Expr)
  | .int v => some fun _ => ret (.int v)
  | .duration ms => some fun _ => ret (.duration ms)
  | .string s => some fun _ => ret (.string s)
  | .kw .true => some fun _ => ret (.bool true)
  | .kw .false => some fun _ => ret (.bool false)
  | .kw .present => some fun _ => Parser.map .present parseTested
  | .kw .absent => some fun _ => Parser.map .absent parseTested
  | .ident s => some fun _ => ret (.ident s)
  | .kw k => if isNameKeyword k then some fun _ => ret (.ident k.text) else none
  | .lParen => some fun expr =>
      andThen expr fun e => Parser.map (fun _ => e) (consumePunct .rParen)
  | _ => none

def expectedPrimary (ts : List Token) : ParseError :=
  .syntax_ ⟨"ADGL0100", "expected expression primary", "literal | identifier | (expr)",
    some (describeTokenKind (current ts)),
    some "start an expression with a literal, identifier, or `(`"⟩

def parsePrimary : TokenParser Expr := onHead primaryHead (Parser.fail expectedPrimary) expr

/-- What is done with an expression behind the first token of a suffix. -/
def postfixHead (base : Expr) : Token → Option (TokenParser Expr → TokenParser Expr)
  | .dot => some fun _ => Parser.map (.field base) parseIdentAny
  | .lParen => some fun expr => Parser.map (.call base) (parseArgs expr)
  | .lBracket => some fun expr =>
      andThen expr fun i => Parser.map (fun _ => Expr.index base i) (consumePunct .rBracket)
  | _ => none

def parsePostfix : TokenParser Expr :=
  andThen (parsePrimary expr) (suffixes postfixHead .overrun expr)

def parseUnary : TokenParser Expr := prefixes notOp (parsePostfix expr)

def binaryLevel (op : Token → Option BinaryOp) (next : TokenParser Expr) : TokenParser Expr :=
  Parser.leftAssoc (Parser.tokenOp op) .binary .overrun next

def parseMultiplicative : TokenParser Expr := binaryLevel multiplicativeOp (parseUnary expr)

def parseAdditive : TokenParser Expr := binaryLevel additiveOp (parseMultiplicative expr)

def parseEquality : TokenParser Expr := binaryLevel equalityOp (parseAdditive expr)

def parseLogicAnd : TokenParser Expr := binaryLevel logicAndOp (parseEquality expr)

def parseLogicOr : TokenParser Expr := binaryLevel logicOrOp (parseLogicAnd expr)

end Levels

/-! ### Nesting -/

section Nesting

open Parser (Inner Outer)

theorem unexpectedPunct_ne (kind : Token) (ts : List Token) :
    unexpectedPunct kind ts ≠ .overrun := nofun

theorem consumePunct_inner (kind : Token) :
    Inner ParseError.overrun fun _ : TokenParser Expr => consumePunct kind :=
  .one (unexpectedPunct_ne kind)

theorem parseIdentAny_inner :
    Inner ParseError.overrun fun _ : TokenParser Expr => parseIdentAny := by
  refine .const (fun ts => ?_) fun ts => ?_
  · unfold parseIdentAny
    split
    · exact List.suffix_cons ..
    · split <;> exact List.suffix_cons ..
    · exact List.suffix_rfl
  · unfold parseIdentAny
    split
    · nofun
    · split <;> nofun
    · nofun

theorem parseTested_inner : Inner ParseError.overrun fun _ : TokenParser Expr => parseTested :=
  (consumePunct_inner .lParen).andThen fun _ => parseIdentAny_inner.andThen fun name =>
    (consumePunct_inner .rParen).map fun _ => name

theorem parseExprs_inner (close : Token) :
    Inner ParseError.overrun fun expr => parseExprs expr close :=
  .ite (.ret []) (Inner.self.sepBy Token.comma)

theorem parseArgs_inner : Inner ParseError.overrun parseArgs :=
  (parseExprs_inner .rParen).andThen fun args => (consumePunct_inner .rParen).map fun _ => args

theorem primaryHead_inner {t : Token} {q : TokenParser Expr → TokenParser Expr}
    (h : primaryHead t = some q) : Inner .overrun q := by
  cases t with
  | int v | duration ms | string s | ident s =>
      cases h
      exact .ret _
  | lParen =>
      cases h
      exact Inner.self.andThen fun e => (consumePunct_inner .rParen).map fun _ => e
  | kw k =>
      cases k with
      | true | false | event | cause | problem =>
          cases h
          exact .ret _
      | present | absent =>
          cases h
          exact parseTested_inner.map _
      | _ => cases h
  | _ => cases h

theorem postfixHead_inner {base : Expr} {t : Token} {q : TokenParser Expr → TokenParser Expr}
    (h : postfixHead base t = some q) : Inner .overrun q := by
  unfold postfixHead at h
  split at h <;> cases h
  · exact parseIdentAny_inner.map _
  · exact parseArgs_inner.map _
  · exact Inner.self.andThen fun i => (consumePunct_inner .rBracket).map fun _ => Expr.index base i

theorem parsePrimary_outer : Outer ParseError.overrun parsePrimary :=
  .onHead (fun _ _ => primaryHead_inner) (fun _ => List.suffix_rfl) fun _ => nofun

theorem parsePostfix_outer : Outer ParseError.overrun parsePostfix :=
  parsePrimary_outer.suffixes fun _ _ _ => postfixHead_inner

theorem parseUnary_outer : Outer ParseError.overrun parseUnary :=
  parsePostfix_outer.prefixes

theorem binaryLevel_outer {op : Token → Option BinaryOp}
    {f : TokenParser Expr → TokenParser Expr}
    (hf : Outer .overrun f) : Outer ParseError.overrun fun expr => binaryLevel op (f expr) :=
  .leftAssoc (Parser.tokenOp_takes op) hf

theorem parseAdditive_outer : Outer ParseError.overrun parseAdditive :=
  binaryLevel_outer (binaryLevel_outer parseUnary_outer)

theorem parseLogicOr_outer : Outer ParseError.overrun parseLogicOr :=
  binaryLevel_outer (binaryLevel_outer (binaryLevel_outer parseAdditive_outer))

end Nesting

end ExprParser

/-- Parse an expression. There are not more levels of brackets than tokens. -/
def parseExpr : TokenParser Expr := Parser.nested ExprParser.parseLogicOr .overrun

theorem parseExpr_shrinks : Parser.Shrinks parseExpr :=
  Parser.nested_shrinks ExprParser.parseLogicOr_outer.descends

theorem parseExpr_eq : parseExpr = ExprParser.parseLogicOr parseExpr :=
  Parser.nested_eq ExprParser.parseLogicOr_outer.descends

theorem parseExpr_fits (ts : List Token) : (parseExpr ts).1 ≠ .error .overrun :=
  Parser.nested_fits ExprParser.parseLogicOr_outer.descends ExprParser.parseLogicOr_outer.fits ts

end Adgl
