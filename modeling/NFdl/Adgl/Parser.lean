import NFdl.Adgl.ExprParser
import NFdl.Lib.Recovery

/-!
# The ADGL parser

Declarations and rules are parsed up to their first error. The ruleset around them either
stops there as well or records the error and goes on at its next member, which it finds by
the depth of the braces.
-/

namespace Adgl

open Ast
open Scanner (untilStop)
open ExprParser (nearMissHelp keywords consumePunct unexpectedKind parseIdentAny)

/-- What the parser makes of a ruleset, without the spans of its parts and without the
documentation that stands in front of it and of its rules. -/
structure SourceRuleset extends Ruleset where
  version : String

/-- A parser of a declaration, a rule or a part of one. -/
abbrev TokenM (α : Type) : Type := EStateM ParseError (List Token) α

namespace RulesetParser

variable {α : Type}

/-! ### Tokens -/

def peek : TokenM Token := fun ts => .ok (current ts) ts

def advance : TokenM Unit := fun ts => .ok () ts.tail

def run (p : TokenParser α) : TokenM α := fun ts =>
  match p ts with
  | (.ok a, ts) => .ok a ts
  | (.error e, ts) => .error e ts

def expr : TokenM Expr := run parseExpr

def punct (kind : Token) : TokenM Unit := run (consumePunct kind)

def expectedKeyword (kw : Keyword) (ts : List Token) : ParseError :=
  let found := describeTokenKind (current ts)
  .syntax_ ⟨"ADGL0100", "expected keyword '" ++ kw.text ++ "'", kw.text, some found,
    (nearMissHelp found [kw.text]).or (nearMissHelp found keywords)⟩

def consumeKw (kw : Keyword) : TokenM Unit :=
  run (Parser.one (fun t => if t = .kw kw then some () else none) (expectedKeyword kw))

def expectedWord (word : String) (ts : List Token) : ParseError :=
  let found := describeTokenKind (current ts)
  .syntax_ ⟨"ADGL0100", "expected '" ++ word ++ "'", word, some found, nearMissHelp found [word]⟩

def wordText : Token → Option String
  | .ident s => some s
  | .kw k => some k.text
  | _ => none

def identText : Token → Option String
  | .ident s => some s
  | _ => none

def stringText : Token → Option String
  | .string s => some s
  | _ => none

def intValue : Token → Option Int64
  | .int v => some v
  | _ => none

def consumeWordExact (word : String) : TokenM Unit :=
  run (Parser.one (fun t => if wordText t = some word then some () else none) (expectedWord word))

def identAny : TokenM String := run parseIdentAny

def wordAny : TokenM String := run (Parser.one wordText (unexpectedKind "identifier or keyword"))

def identNonKw : TokenM String := run (Parser.one identText (unexpectedKind "identifier"))

def stringLit : TokenM String := run (Parser.one stringText (unexpectedKind "string literal"))

def integer : TokenM Int64 := run (Parser.one intValue (unexpectedKind "integer"))

/-- An error that says neither what was found nor what to do. -/
def plainError (code message expected : String) : ParseError :=
  .syntax_ ⟨code, message, expected, none, none⟩

def rejectIf (c : Prop) [Decidable c] (e : ParseError) : TokenM Unit :=
  if c then throw e else pure ()

/-! ### Repetition -/

/-- Repeat a step up to a stop. -/
def tokensUntil (stop : List Token → Bool) (step : α → TokenM α) (a : α) : TokenM α :=
  untilStop List.length stop .overrun step a

/-- Add what a parser gives at the end of a list. -/
def pushed (p : TokenM α) (as : List α) : TokenM (List α) := do
  let a ← p
  pure (as ++ [a])

def repeated (stop : List Token → Bool) (p : TokenM α) : TokenM (List α) :=
  tokensUntil stop (pushed p) []

/-- One value, and another one after every comma. -/
def commaSep (p : TokenM α) : TokenM (List α) := do
  let a ← p
  tokensUntil (fun ts => current ts ≠ .comma) (fun as => do
    advance
    pushed p as) [a]

/-- Values up to a closing token, which is left. -/
def listUntil (close : Token) (p : TokenM α) : TokenM (List α) := do
  let t ← peek
  if t = close then pure [] else commaSep p

/-- A part that its first token announces. -/
def optional_ (first : Token) (p : TokenM α) : TokenM (Option α) := do
  let t ← peek
  if t = first then some <$> p else pure none

/-- The end of a block or of the input. -/
def atClose (ts : List Token) : Bool := current ts = .rBrace || current ts = .eof

/-! ### Names of a kind -/

def scopeType? : String → Option ScopeType
  | "Session" => some .session
  | "Port" => some .port
  | "ClientMac" => some .clientMac
  | "Vlan" => some .vlan
  | "AccessPoint" => some .accessPoint
  | "Global" => some .global
  | _ => none

def severity? : String → Option Severity
  | "Critical" => some .critical
  | "High" => some .high
  | "Medium" => some .medium
  | "Low" => some .low
  | "Recommended" => some .recommended
  | "Optional" => some .optional
  | _ => none

/-- A name out of a list of known ones. -/
def known (names : String → Option α) (e : ParseError) : TokenM α := do
  let name ← identAny
  match names name with
  | some a => pure a
  | none => throw e

def parseScopeType : TokenM ScopeType := known scopeType? (plainError "ADGL0100"
  "invalid scope type" "Session | Port | ClientMac | Vlan | AccessPoint | Global")

def parseSeverity : TokenM Severity := known severity? (plainError "ADGL0100"
  "invalid severity" "Critical | High | Medium | Low | Recommended | Optional")

def actionOfName : String → ActionName
  | "request_observation" => .known .requestObservation
  | "run_check" => .known .runCheck
  | "suppress_symptom" => .known .suppressSymptom
  | "mark_ambiguous" => .known .markAmbiguous
  | "request_topology" => .known .requestTopology
  | name => .custom name

/-- Words with dots between them. -/
def parseKindIdent : TokenM KindIdent := do
  let name ← wordAny
  tokensUntil (fun ts => current ts ≠ .dot) (fun segments => do
    advance
    pushed wordAny segments) [name]

def parenthesized (p : TokenM α) : TokenM α := do
  punct .lParen
  let a ← p
  punct .rParen
  pure a

def parseRefList : TokenM (List String) := do
  punct .lBracket
  let refs ← listUntil .rBracket identAny
  punct .rBracket
  pure refs

/-! ### Declarations -/

def parseRequiresDecl : TokenM (List String) := do
  consumeKw .requires
  punct .eq
  punct .lBracket
  let caps ← listUntil .rBracket stringLit
  rejectIf (caps.length > 32)
    (plainError "ADGL0105" "too many requires entries" "at most 32 entries")
  punct .rBracket
  pure caps

def parseMutuallyExclusiveDecl : TokenM (List String) := do
  consumeKw .mutuallyExclusive
  parenthesized (commaSep identAny)

/-! ### Statements -/

/-- The fields of a statement in braces, each behind its name and a colon. -/
def parseFields (field : String → TokenM α) : TokenM (List α) := do
  punct .lBrace
  let fields ← listUntil .rBrace (do
    let key ← wordAny
    punct .colon
    field key)
  punct .rBrace
  pure fields

/-- The sign of a weight, which has to be there. -/
def parseSign : TokenM Int64 := do
  let t ← peek
  match t with
  | .plus => do
      advance
      pure 1
  | .minus => do
      advance
      pure (-1)
  | _ => throw (plainError "ADGL0100" "weight requires explicit sign"
      "'+' or '-' before integer literal")

def parseInferField : String → TokenM InferField
  | "target" => .target <$> expr
  | "weight" => do
      let sign ← parseSign
      let v ← integer
      pure (.weight (saturatingMul sign v))
  | "evidence" => .evidence <$> parseRefList
  | _ => throw (plainError "ADGL0100" "unknown infer field" "target | weight | evidence")

def parseInferStmt : TokenM InferStmt := do
  consumeKw .infer
  consumeKw .cause
  let cause ← parenthesized identNonKw
  let fields ← parseFields parseInferField
  pure ⟨cause, fields⟩

def parseEmitField : String → TokenM EmitField
  | "target" => .target <$> expr
  | "severity" => .severity <$> parseSeverity
  | "evidence" => .evidence <$> parseRefList
  | "sarif_id" => .sarifId <$> stringLit
  | _ => throw (plainError "ADGL0100" "unknown emit field"
      "target | severity | evidence | sarif_id")

def parseEmitStmt : TokenM EmitStmt := do
  consumeKw .emit
  consumeKw .problem
  let problem ← parenthesized identNonKw
  let fields ← parseFields parseEmitField
  pure ⟨problem, fields⟩

def parseActionField : String → TokenM ActionField
  | "target" => .target <$> expr
  | "reason" => .reason <$> stringLit
  | "evidence" => .evidence <$> parseRefList
  | _ => throw (plainError "ADGL0100" "unknown action field" "target | reason | evidence")

def parseActionStmt : TokenM ActionStmt := do
  consumeKw .action
  let name ← identAny
  let arg ← optional_ .lParen (parenthesized parseKindIdent)
  let fields ← parseFields parseActionField
  pure ⟨actionOfName name, arg, fields⟩

def unexpectedStatement (t : Token) : ParseError :=
  .syntax_ ⟨"ADGL0100", "unexpected statement", "infer | emit | action",
    some (describeTokenKind t),
    nearMissHelp (describeTokenKind t) ["infer", "emit", "action", "if"]⟩

def parseStmtAny : TokenM Stmt := do
  let t ← peek
  match t with
  | .kw .infer => .infer <$> parseInferStmt
  | .kw .emit => .emit <$> parseEmitStmt
  | .kw .action => .action <$> parseActionStmt
  | _ => throw (unexpectedStatement t)

/-- The error of a statement that belongs into a rule of the other kind. -/
def misplaced? (evidence : Bool) : Stmt → Option ParseError
  | .emit _ =>
      if evidence then
        some (.syntax_ ⟨"ADGL0450", "emit is not allowed in evidence rule body", "infer | action",
          some "emit", some "move `emit` into a decision rule"⟩)
      else none
  | .infer _ =>
      if evidence then none
      else
        some (.syntax_ ⟨"ADGL0450", "infer is not allowed in decision rule body", "emit | action",
          some "infer", some "move `infer` into an evidence rule"⟩)
  | .action _ => none

/-- A statement of a rule body. The branches of an `if` block are not checked in this way. -/
def parseStmtInRule (evidence : Bool) : TokenM Stmt := do
  let stmt ← parseStmtAny
  match misplaced? evidence stmt with
  | some e => throw e
  | none => pure stmt

def parseBlock : TokenM (List Stmt) := do
  punct .lBrace
  let body ← repeated atClose parseStmtAny
  punct .rBrace
  pure body

def parseIfElseBlock : TokenM IfElseBlock := do
  consumeKw .if_
  let condition ← expr
  let thenBody ← parseBlock
  let elseBody ← optional_ (.kw .else_) (do
    consumeKw .else_
    parseBlock)
  pure ⟨condition, thenBody, elseBody⟩

/-! ### Anchors and correlates -/

/-- A predicate in front of a closing brace. -/
def exprOrClose : TokenM (Option Expr) := do
  let t ← peek
  if t = .rBrace then pure none else some <$> expr

/-- A predicate in braces, which may be empty. -/
def parsePredicate : TokenM (Option Expr) := do
  advance
  let pred ← exprOrClose
  punct .rBrace
  pure pred

/-- The predicate of an anchor, where there is one. -/
def optionalPredicate : TokenM (Option Expr) := do
  let pred ← optional_ .lBrace parsePredicate
  pure pred.join

def parseBinding : TokenM String := do
  let binding ← identNonKw
  punct .colon
  pure binding

def parseAnchorBlock : TokenM AnchorBlock := do
  consumeKw .anchor
  let binding ← parseBinding
  consumeKw .event
  let eventType ← parenthesized parseKindIdent
  let predicate ← optionalPredicate
  pure ⟨binding, eventType, predicate⟩

def expectedAnchor (t : Token) : ParseError :=
  let found := describeTokenKind t
  .syntax_ ⟨"ADGL0100", "expected Cause(...) or Problem(...)", "Cause/Problem anchor", some found,
    some ((nearMissHelp found ["Cause", "Problem"]).getD "use Cause(Name) or Problem(Name)")⟩

def parseDecisionAnchor : TokenM DecisionAnchor := do
  consumeKw .anchor
  let binding ← parseBinding
  let t ← peek
  match t with
  | .kw .cause => do
      consumeKw .cause
      let cause ← parenthesized identNonKw
      punct .lBrace
      let predicate ← expr
      punct .rBrace
      pure (.cause ⟨binding, cause, predicate⟩)
  | .kw .problem => do
      consumeKw .problem
      let problem ← parenthesized identNonKw
      let predicate ← optionalPredicate
      pure (.problem ⟨binding, problem, predicate⟩)
  | _ => throw (expectedAnchor t)

def parseCorrelateSource : TokenM Ast.CorrelateSource := do
  let t ← peek
  match t with
  | .kw .event => do
      consumeKw .event
      .event <$> parenthesized parseKindIdent
  | .kw .problem => do
      consumeKw .problem
      .problem <$> parenthesized identNonKw
  | .kw .cause => do
      consumeKw .cause
      .cause <$> parenthesized identNonKw
  | _ => throw (plainError "ADGL0100" "invalid correlate source"
      "event(...) | Problem(...) | Cause(...)")

def parseTopoPredicate : TokenM TopoPredicate := do
  let name ← identNonKw
  punct .lParen
  let args ← run (ExprParser.parseArgs parseExpr)
  pure ⟨name, args⟩

/-- A time window. The probe ends at its `in`, which is no operator here. -/
def parseTimeWindow : TokenM TimeWindow := do
  let probe ← run (ExprParser.parseAdditive parseExpr)
  consumeKw .in_
  punct .lBracket
  let lo ← expr
  punct .comma
  let hi ← expr
  punct .rBracket
  pure ⟨probe, lo, hi⟩

def parseMinMatch : TokenM ℕ := do
  consumeKw .having
  punct .colon
  consumeWordExact "count"
  punct .ge
  let v ← integer
  rejectIf (v < 0) (plainError "ADGL0100"
    "min match count must be a non-negative integer literal" "non-negative integer literal")
  pure v.toInt.toNat

def parseCorrelateBlock : TokenM CorrelateBlock := do
  consumeKw .correlate
  let binding ← parseBinding
  let source ← parseCorrelateSource
  punct .lBrace
  consumeWordExact "topo"
  punct .colon
  let topo ← parseTopoPredicate
  consumeWordExact "time"
  punct .colon
  let time ← parseTimeWindow
  let minMatch ← optional_ (.kw .having) parseMinMatch
  punct .rBrace
  pure ⟨binding, source, topo, time, minMatch⟩

/-! ### Rules -/

def atCorrelate (ts : List Token) : Bool := current ts = .kw .correlate

/-- The name, the scope and the anchor of a rule. -/
def parseRuleHead (kw : Keyword) (anchor : TokenM α) : TokenM (String × ScopeType × α) := do
  consumeKw kw
  let name ← identNonKw
  punct .lBrace
  consumeKw .scope
  punct .colon
  let scope ← parseScopeType
  let anchor ← anchor
  pure (name, scope, anchor)

/-- What follows the anchor of a rule. -/
def parseRuleBody (evidence : Bool) :
    TokenM (List CorrelateBlock × Option IfElseBlock × List Stmt) := do
  let correlates ← repeated (fun ts => !atCorrelate ts) parseCorrelateBlock
  let ifElse ← optional_ (.kw .if_) parseIfElseBlock
  let body ← repeated atClose (parseStmtInRule evidence)
  punct .rBrace
  pure (correlates, ifElse, body)

def parseEvidenceRule : TokenM EvidenceRule := do
  let (name, scope, anchor) ← parseRuleHead .evidence parseAnchorBlock
  let (correlates, ifElse, body) ← parseRuleBody true
  pure ⟨name, scope, anchor, correlates, ifElse, body⟩

def parseDecisionRule : TokenM DecisionRule := do
  let (name, scope, anchor) ← parseRuleHead .decision parseDecisionAnchor
  let (correlates, ifElse, body) ← parseRuleBody false
  pure ⟨name, scope, anchor, correlates, ifElse, body⟩

/-! ### Recovery -/

/-- The tokens that are left, and the number of braces that are open. -/
structure Input where
  tokens : List Token
  braceDepth : ℕ

/-- The open braces behind a token. -/
def bracesAfter (depth : ℕ) : Token → ℕ
  | .lBrace => depth + 1
  | .rBrace => depth - 1
  | _ => depth

/-- Go on with the tokens that a parser left. -/
def Input.leave (i : Input) (ts : List Token) : Input :=
  ⟨ts, (i.tokens.take (i.tokens.length - ts.length)).foldl bracesAfter i.braceDepth⟩

def isSyncKeyword (k : Keyword) : Bool :=
  k = .evidence || k = .decision || k = .mutuallyExclusive || k = .version || k = .requires

def isSync : Token → Bool
  | .kw k => isSyncKeyword k
  | _ => false

/-- Skip to the next member of the ruleset, to the end of the ruleset or behind the end of
the member that failed. The members stand at depth 1. -/
def skipMember (depth : ℕ) : List Token → Input
  | [] => ⟨[], depth⟩
  | t :: ts =>
      if depth = 1 ∧ (isSync t = true ∨ t = .rBrace) then ⟨t :: ts, depth⟩
      else if depth = 2 ∧ t = .rBrace then ⟨ts, 1⟩
      else skipMember (bracesAfter depth t) ts

/-- Skip at least one token, where the parser would not stop at the first. -/
def resyncDeclOrRule (i : Input) : Input :=
  let skipped := skipMember i.braceDepth i.tokens
  if skipped.tokens.length = i.tokens.length then
    match skipped.tokens with
    | [] => skipped
    | t :: ts =>
        if isSync t = true ∨ t = .rBrace ∧ skipped.braceDepth ≤ 1 then skipped
        else ⟨ts, bracesAfter skipped.braceDepth t⟩
  else skipped

abbrev ItemM (α : Type) : Type := Recovery.M Input ParseError α

def item (p : TokenM α) : EStateM ParseError Input α := fun i =>
  match p i.tokens with
  | .ok a ts => .ok a (i.leave ts)
  | .error e ts => .error e (i.leave ts)

/-- Repeat a step with recovery up to a stop. -/
def membersUntil (stop : List Token → Bool) (step : α → ItemM α) (a : α) : ItemM α :=
  untilStop (fun s => s.input.tokens.length) (fun s => stop s.input.tokens) .overrun step a

/-- Add a member at the end of a list, if there is no error in it. -/
def member (p : TokenM α) (as : List α) : ItemM (List α) := do
  let a ← Recovery.recoverItem resyncDeclOrRule (item p : ItemM α)
  pure (as ++ a.toList)

/-! ### Rulesets -/

def atDecl (ts : List Token) : Bool :=
  current ts = .kw .requires || current ts = .kw .mutuallyExclusive

def atRule (ts : List Token) : Bool :=
  current ts = .kw .evidence || current ts = .kw .decision

def parseDecl : TokenM Decl := do
  let t ← peek
  if t = .kw .requires then .requires <$> parseRequiresDecl
  else .mutuallyExclusive <$> parseMutuallyExclusiveDecl

def parseRule : TokenM RuleDecl := do
  let t ← peek
  if t = .kw .evidence then .evidence <$> parseEvidenceRule
  else .decision <$> parseDecisionRule

/-- The beginning of a ruleset, up to its version. -/
def parseHead : TokenM (String × String) := do
  consumeKw .ruleset
  let name ← stringLit
  punct .lBrace
  consumeKw .version
  punct .eq
  let version ← stringLit
  pure (name, version)

def parseEnd : TokenM Unit := do
  punct .rBrace
  let t ← peek
  rejectIf (t ≠ .eof)
    (plainError "ADGL0100" "unexpected tokens after ruleset" "end of input")

def rulesetParser : ItemM SourceRuleset := do
  let (name, version) ← (item parseHead : ItemM _)
  let decls ← membersUntil (fun ts => !atDecl ts) (member parseDecl) []
  let rules ← membersUntil (fun ts => !atRule ts) (member parseRule) []
  (item parseEnd : ItemM _)
  pure { name, version, decls, rules }

end RulesetParser

/-! ### Sources -/

/-- The code and the message of an error. -/
def diagOf : ParseError → String × String
  | .lexical e => (e.code, e.message ++ " (expected: " ++ e.expected ++ ")")
  | .syntax_ e =>
      let message := match e.found with
        | some found => e.message ++ " (expected: " ++ e.expected ++ ", found: " ++ found ++ ")"
        | none => e.message ++ " (expected: " ++ e.expected ++ ")"
      (e.code, match e.help with
        | some help => message ++ "; " ++ help
        | none => message)
  | .overrun => ("", "")

/-- Parse a source and collect all its errors. -/
def parseRuleset (cs : List Char) : Except (List (String × String)) SourceRuleset :=
  match Lexer.tokenize cs with
  | .error e => .error [diagOf (.lexical e)]
  | .ok ts =>
      match RulesetParser.rulesetParser ⟨⟨ts, 0⟩, true, []⟩ with
      | .ok ast s => if s.diags = [] then .ok ast else .error (s.diags.map diagOf)
      | .error e s => .error ((s.diags ++ [e]).map diagOf)

/-- Parse a source up to its first error. -/
def parseRulesetFailFast (cs : List Char) : Except (String × String) SourceRuleset :=
  match Lexer.tokenize cs with
  | .error e => .error (diagOf (.lexical e))
  | .ok ts =>
      match Recovery.failFast RulesetParser.rulesetParser ⟨ts, 0⟩ with
      | .ok ast => .ok ast
      | .error e => .error (diagOf e)

/-- Parse a source that is an expression. -/
def parseExpression (cs : List Char) : Except (String × String) Expr :=
  match Lexer.tokenize cs with
  | .error e => .error (diagOf (.lexical e))
  | .ok ts =>
      match parseExpr ts with
      | (.ok e, []) => .ok e
      | (.ok _, _) => .error (diagOf (RulesetParser.plainError "ADGL0100"
          "unexpected trailing tokens" "end of input"))
      | (.error e, _) => .error (diagOf e)

end Adgl
