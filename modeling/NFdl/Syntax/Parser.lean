import NFdl.Lib.Recovery
import NFdl.Runtime.Efsm
import NFdl.Syntax.ExprParser

/-!
# The N-FDL parser

Types, message bodies, state machines and protocols. Types and state machines are parsed
without recovery. A message body recovers from an error at the next end of a statement, and
a message whose body has an error is left out. Bodies are nested in the arms of a match.
-/

namespace NFdl

open Scanner (attempt untilStop)
open Recovery (recoverItem reject)

/-- What the parser makes of a protocol block. -/
structure SourceProtocol extends Protocol where
  mode : String
  eof : String
  stateMachines : List StateMachine

/-- A parser without recovery. -/
abbrev TokenM (α : Type) : Type := EStateM ParseError (List Token) α

/-- A parser with recovery. -/
abbrev StmtM (α : Type) : Type := Recovery.M (List Token) ParseError α

namespace StmtParser

/-! ### Tokens -/

def peek : TokenM Token := fun ts => .ok (current ts) ts

def advance : TokenM Unit := fun ts => .ok () ts.tail

/-- Take a token that may be missing. -/
def skip (t : Token) : TokenM Unit := fun ts => .ok () (Parser.skipIf t ts)

/-- A name, or a default when there is none. -/
def nameOr (default : String) : TokenM String
  | .ident n :: ts => .ok n ts
  | ts => .ok default ts

def expr : TokenM Expr := fun ts =>
  match parseExpr ts with
  | (.ok e, ts) => .ok e ts
  | (.error e, ts) => .error e ts

/-- An expression, or a default where there is an error in it. -/
def exprOr (default : Expr) : TokenM Expr := do
  let e ← attempt expr
  pure (e.getD default)

/-- The end of a block or of the input. -/
def atClose (ts : List Token) : Bool := current ts = .rBrace || current ts = .eof

/-- The end of a statement, of a block or of the input. -/
def atEnd (ts : List Token) : Bool := current ts = .semicolon || atClose ts

def skipToEnd : TokenM Unit := fun ts => .ok () (ts.dropWhile fun t => !atEnd [t])

/-- Repeat a step up to a stop. -/
def tokensUntil {α : Type} (stop : List Token → Bool) (step : α → TokenM α) (a : α) : TokenM α :=
  untilStop List.length stop .overrun step a

/-- Repeat a step with recovery up to a stop. -/
def stmtsUntil {α : Type} (stop : List Token → Bool) (step : α → StmtM α) (a : α) : StmtM α :=
  untilStop (fun s => s.input.length) (fun s => stop s.input) .overrun step a

/-! ### Recovery -/

def isSyncWord (s : String) : Bool :=
  s ∈ ["state_machine", "let", "loop", "match", "next", "carry"]

def resyncStatement : List Token → List Token
  | [] => []
  | .eof :: ts => .eof :: ts
  | .semicolon :: ts => ts
  | .rBrace :: ts => .rBrace :: ts
  | .message :: ts => .message :: ts
  | .meta_ :: ts => .meta_ :: ts
  | .bind :: ts => .bind :: ts
  | .protocol :: ts => .protocol :: ts
  | .validate :: ts => .validate :: ts
  | .ident s :: ts => if isSyncWord s then .ident s :: ts else resyncStatement ts
  | _ :: ts => resyncStatement ts

def recoverStmt {α : Type} (p : StmtM α) : StmtM (Option α) := recoverItem resyncStatement p

def recoverReject (msg : String) : StmtM Unit := reject resyncStatement (.syntax_ msg)

/-- Record an error and go on at the same token. -/
def report (msg : String) : StmtM Unit := reject id (.syntax_ msg)

/-! ### Types -/

def scalarType? : String → Option NfdlType
  | "u8" => some .u8
  | "u16" => some .u16
  | "u24" => some .u24
  | "u32" => some .u32
  | _ => none

/-- What stands between the brackets of `bytes`. -/
def parseLength : TokenM NfdlType
  | .ident "EOF" :: ts => .ok .bytesEof ts
  | .ident "stream" :: ts => .ok .bytesStream ts
  | .dot :: ts => .ok .bytesRest (Parser.skipIf .dot ts)
  | ts => (NfdlType.bytes <$> exprOr (.int 0)) ts

def parseBytes : TokenM NfdlType
  | .lBracket :: ts => (do
      let ty ← parseLength
      skip .rBracket
      pure ty) ts
  | ts => .ok .bytesRest ts

def parseBitfield : TokenM NfdlType
  | .lBrace :: .int v :: ts =>
      if 1 ≤ v ∧ v ≤ 64 then
        match ts with
        | .rBrace :: ts => .ok (.bitfield v.toUInt64.toUInt8) ts
        | ts => .error (.syntax_ ("expected `\x7d` after bitfield width (expected: `\x7d`, found: " ++
            tokenLabel (current ts) ++ ")")) ts
      else
        .error (.syntax_ ("bitfield width must be in 1..=64 (expected: integer 1..=64, found: " ++
          toString v ++ "); tip: use e.g. bitfield\x7b8\x7d")) (Parser.skipIf .rBrace ts)
  | .lBrace :: ts =>
      .error (.syntax_ ("expected INT bit width in bitfield\x7bk\x7d (expected: integer 1..=64, found: " ++
        tokenLabel (current (Parser.skipIf .rBrace ts)) ++ "); tip: write bitfield\x7b8\x7d"))
        (Parser.skipIf .rBrace ts)
  | ts => .error (.syntax_ ("expected `\x7b` after bitfield (expected: `\x7b`, found: " ++
      tokenLabel (current ts) ++ "); did you mean `bitfield\x7bk\x7d`?")) ts

/-- A type. A token that begins none is taken and stands for a byte. -/
def parseType : TokenM NfdlType
  | .ident t :: ts =>
      match scalarType? t with
      | some ty => .ok ty ts
      | none =>
          if t = "bytes" then parseBytes ts
          else if t = "bitfield" then parseBitfield ts
          else .ok (.messageRef t) ts
  | ts => .ok .u8 ts.tail

/-! ### Statements -/

/-- What has been read of a message body, with the number of its statements. -/
structure Body where
  fields : List Field
  lets : List Let
  loops : List Loop
  validates : List Validate
  matches_ : List Match
  bodySeq : ℕ

namespace Body

def empty : Body := ⟨[], [], [], [], [], 0⟩

def tick (b : Body) : Body := { b with bodySeq := b.bodySeq + 1 }

def addField (b : Body) (name : String) (ty : NfdlType) (validate : Option Validate)
    (conditional : Option Expr) : Body :=
  { b.tick with fields := b.fields ++ [⟨name, ty, validate, conditional, b.bodySeq⟩] }

def addLet (b : Body) (name : String) (value : Expr) : Body :=
  { b.tick with lets := b.lets ++ [⟨name, value, b.bodySeq⟩] }

def addLoop (b : Body) (name : String) (carries : List Carry) (condition : Expr)
    (body : List Field) (nexts : List NextStmt) : Body :=
  { b.tick with loops := b.loops ++ [⟨name, carries, condition, body, nexts, b.bodySeq⟩] }

def addValidate (b : Body) (expr : Expr) (message : String) : Body :=
  { b.tick with validates := b.validates ++ [⟨expr, message, b.bodySeq⟩] }

def addMatch (b : Body) (tag : Expr) (arms : List MatchArm) : Body :=
  { b.tick with matches_ := b.matches_ ++ [.mk tag arms b.bodySeq] }

end Body

mutual

/-- The name of the rest of a stream occurs in the expression. -/
def containsRem : Expr → Bool
  | .ident s => s = "__rem"
  | .binary _ left right => containsRem left || containsRem right
  | .unary _ expr => containsRem expr
  | .ternary cond thenBranch elseBranch =>
      containsRem cond || containsRem thenBranch || containsRem elseBranch
  | .coalesce value default => containsRem value || containsRem default
  | .call _ args => anyContainsRem args
  | .field base _ => containsRem base
  | .tuple xs => anyContainsRem xs
  | .int _ | .str _ => false

def anyContainsRem : List Expr → Bool
  | [] => false
  | e :: es => containsRem e || anyContainsRem es

end

/-- The message behind an arrow. -/
def validateMessage : TokenM String
  | .arrow :: .string s :: ts => .ok s ts
  | .arrow :: ts => .ok "constraint" ts
  | ts => .ok "constraint" ts

def validateClause : TokenM (Expr × String) := do
  let e ← exprOr (.int 1)
  let message ← validateMessage
  skipToEnd
  pure (e, message)

/-- The constraint of a field. -/
def fieldValidate : TokenM (Option (Expr × String))
  | .ident "validate" :: ts => (some <$> validateClause) ts
  | ts => .ok none ts

/-- Reject an expression about the rest of a stream. -/
def remRejected (e : Expr) (msg : String) : StmtM Bool :=
  if containsRem e then do
    recoverReject msg
    pure true
  else pure false

/-- The condition of a field, or nothing where it was rejected. -/
def conditionalClause (skipRest : TokenM Unit) : StmtM (Option (Option Expr)) := do
  let e ← recoverStmt expr
  match e with
  | none => pure none
  | some e => do
      let rejected ← remRejected e
        "StreamRemControlFlow: __rem forbidden in conditional field (layout-affecting)"
      if rejected then pure none
      else do
        skipRest
        pure (some (some e))

def conditional (skipRest : TokenM Unit) : StmtM (Option (Option Expr)) := do
  let t ← peek
  if t = .ident "if" then do
    advance
    conditionalClause skipRest
  else pure (some none)

/-- The end of a field. Without a semicolon the next statement may follow at once. -/
def fieldEnd : StmtM Unit := do
  let t ← peek
  match t with
  | .semicolon => advance
  | .rBrace | .eof | .message | .meta_ | .validate => pure ()
  | .ident _ => report ("expected `;` after field (expected: `;`, found: " ++ tokenLabel t ++
      "); tip: terminate each field with `;`")
  | _ => recoverReject ("expected `;` after field (expected: `;`, found: " ++ tokenLabel t ++
      "); tip: terminate each field with `;`")

def fieldStmt (b : Body) (name : String) : StmtM Body := do
  skip .colon
  let ty ← recoverStmt parseType
  match ty with
  | none => pure b
  | some ty => do
      let v ← fieldValidate
      let validate := v.map fun (e, message) => (⟨e, message, b.bodySeq⟩ : Validate)
      let b := if v.isSome then b.tick else b
      let cond ← conditional skipToEnd
      match cond with
      | none => pure b
      | some cond => do
          fieldEnd
          pure (b.addField name ty validate cond)

def validateStmt (b : Body) : TokenM Body := do
  let (e, message) ← validateClause
  skip .semicolon
  pure (b.addValidate e message)

def letStmt (b : Body) (name : String) : TokenM Body := do
  skip .eq
  let value ← attempt expr
  skip .semicolon
  pure (match value with
    | some value => b.addLet name value
    | none => b)

/-- The word `let` begins a binding in front of a name and a field elsewhere. -/
def letOrField (b : Body) : StmtM Body := do
  let t ← peek
  match t with
  | .ident name => do
      advance
      letStmt b name
  | _ => fieldStmt b "let"

/-! ### Loops -/

def atCarry (ts : List Token) : Bool := current ts = .ident "carry"

def carryStep (carries : List Carry) : StmtM (List Carry) := do
  advance
  let name ← nameOr ""
  skip .colon
  let ty ← recoverStmt parseType
  match ty with
  | none => pure carries
  | some ty => do
      skip .eq
      let init ← exprOr (.int 0)
      skip .semicolon
      pure (carries ++ [⟨name, ty, init⟩])

def loopCondition : TokenM Expr := do
  let t ← peek
  if t = .lBrace ∨ t = .semicolon then pure (.int 1) else exprOr (.int 1)

def nextStmt : TokenM NextStmt := do
  let name ← nameOr ""
  skip .eq
  let value ← exprOr (.int 0)
  skip .semicolon
  pure ⟨name, value⟩

/-- A field of a loop, which has no place of its own. -/
def loopField (body : List Field) (name : String) : StmtM (List Field) := do
  skip .colon
  let ty ← recoverStmt parseType
  match ty with
  | none => pure body
  | some ty => do
      let cond ← conditional (pure ())
      match cond with
      | none => pure body
      | some cond => do
          skip .semicolon
          pure (body ++ [⟨name, ty, none, cond, 0⟩])

def loopItem (acc : List Field × List NextStmt) : StmtM (List Field × List NextStmt) := do
  let t ← peek
  advance
  match t with
  | .ident "next" => do
      let n ← nextStmt
      pure (acc.1, acc.2 ++ [n])
  | .ident name => do
      let body ← loopField acc.1 name
      pure (body, acc.2)
  | _ => do
      skip .semicolon
      pure acc

def loopStmt (b : Body) : StmtM Body := do
  let name ← nameOr "loop"
  let carries ← stmtsUntil (fun ts => !atCarry ts) carryStep []
  skip (.ident "while")
  let condition ← loopCondition
  skip .lBrace
  let (body, nexts) ← stmtsUntil atClose loopItem ([], [])
  skip .rBrace
  let rejected ← remRejected condition
    "StreamRemControlFlow: __rem forbidden in loop while condition (see spec 05-verification)"
  pure (if rejected then b else b.addLoop name carries condition body nexts)

/-! ### Bodies -/

/-- The label of an arm, `none` for the default. -/
def caseLabel : TokenM (Option Int64)
  | .ident "default" :: ts => .ok none ts
  | .ident "case" :: .int v :: ts => .ok (some v) ts
  | .ident "case" :: ts => .ok (some 0) ts.tail
  | ts => .ok none ts.tail

def matchArm (inner : StmtM Body) (arms : List MatchArm) : StmtM (List MatchArm) := do
  let label ← caseLabel
  skip .arrow
  skip .lBrace
  let arm ← recoverStmt inner
  match arm with
  | none => pure arms
  | some b => do
      skip .comma
      pure (arms ++ [.mk label b.fields b.lets b.loops b.validates b.matches_])

def matchStmt (inner : StmtM Body) (b : Body) : StmtM Body := do
  let tag ← exprOr (.int 0)
  skip .lBrace
  let arms ← stmtsUntil atClose (matchArm inner) []
  skip .rBrace
  pure (b.addMatch tag arms)

def bodyItem (inner : StmtM Body) (b : Body) : StmtM Body := do
  let t ← peek
  advance
  match t with
  | .validate => validateStmt b
  | .ident "match" => matchStmt inner b
  | .ident "let" => letOrField b
  | .ident "loop" => loopStmt b
  | .ident name => fieldStmt b name
  | _ => do
      skip .semicolon
      pure b

/-- A body up to its closing brace. -/
def parseBlock (inner : StmtM Body) : StmtM Body := do
  let b ← stmtsUntil atClose (bodyItem inner) .empty
  skip .rBrace
  pure b

/-- A body with a bound on its depth. -/
def parseBodyWithin : ℕ → StmtM Body
  | 0 => throw .overrun
  | n + 1 => parseBlock (parseBodyWithin n)

def parseBody : StmtM Body := fun s => parseBodyWithin (s.input.length + 1) s

/-! ### State machines -/

def keyClause : TokenM (Option Expr)
  | .ident "key" :: ts => (do
      skip .eq
      let key ← expr
      skip .semicolon
      pure (some key)) ts
  | ts => .ok none ts

def guardClause : TokenM (Option Expr)
  | .ident "guard" :: ts => (do
      skip .lParen
      let guard ← expr
      skip .rParen
      pure (some guard)) ts
  | ts => .ok none ts

def skipArrow : TokenM Unit
  | .arrow :: ts => .ok () ts
  | .ident "->" :: ts => .ok () ts
  | ts => .ok () ts

def actionItem (actions : List Action) : TokenM (List Action) := do
  let t ← peek
  advance
  match t with
  | .ident "set" => do
      let var ← nameOr ""
      advance
      let value ← expr
      skip .semicolon
      pure (actions ++ [.set var value])
  | .ident "emit" => do
      let event ← nameOr ""
      skip .semicolon
      pure (actions ++ [.emit event])
  | _ => pure actions

def transitionItem (state : String) (transitions : List Transition) :
    TokenM (List Transition) := do
  let t ← peek
  advance
  if t = .ident "on" then do
    let msgType ← nameOr ""
    let guard ← guardClause
    skipArrow
    let toState ← nameOr "UNKNOWN"
    skip .lBrace
    let actions ← tokensUntil atClose actionItem []
    skip .rBrace
    pure (transitions ++ [⟨some state, msgType, guard, toState, actions⟩])
  else pure transitions

def stateItem (blocks : List State) : TokenM (List State) := do
  let t ← peek
  advance
  if t = .ident "state" then do
    let name ← nameOr "UNKNOWN"
    skip .lBrace
    let transitions ← tokensUntil atClose (transitionItem name) []
    skip .rBrace
    pure (blocks ++ [⟨name, transitions⟩])
  else pure blocks

def parseStateMachine : TokenM StateMachine := do
  advance
  let name ← nameOr "SM"
  skip .lBrace
  let key ← keyClause
  let blocks ← tokensUntil atClose stateItem []
  skip .rBrace
  pure (.ofBlocks name key blocks)

/-! ### Protocols -/

/-- The value of an attribute: its keyword or a name. Anything else leaves the old one. -/
def attributeValue (keyword : Token) (word : String) (old : String) : TokenM String
  | .ident v :: ts => .ok v ts
  | t :: ts => if t = keyword then .ok word ts else .ok old (t :: ts)
  | [] => .ok old []

def attribute_ (keyword : Token) (word : String) (old : String) : TokenM String := do
  skip .eq
  let v ← attributeValue keyword word old
  skip .semicolon
  pure v

def endianDecl (p : SourceProtocol) : TokenM SourceProtocol := do
  let v ← attribute_ .big "big" p.endian
  pure { p with endian := v }

def modeDecl (p : SourceProtocol) : TokenM SourceProtocol := do
  let v ← attribute_ .datagram "datagram" p.mode
  pure { p with mode := v }

/-- A plugin in parentheses, which is not kept. -/
def skipPlugin : TokenM Unit
  | .lParen :: .string _ :: ts => .ok () (Parser.skipIf .rParen ts)
  | .lParen :: ts => .ok () (Parser.skipIf .rParen ts)
  | ts => .ok () ts

def eofDecl (p : SourceProtocol) : TokenM SourceProtocol := do
  skip .eq
  let v ← nameOr p.eof
  skipPlugin
  skip .semicolon
  pure { p with eof := v }

def metaItem (p : SourceProtocol) : TokenM SourceProtocol := do
  let t ← peek
  advance
  match t with
  | .endian => endianDecl p
  | .mode => modeDecl p
  | .ident "eof" => eofDecl p
  | _ => pure p

def metaDecl (p : SourceProtocol) : TokenM SourceProtocol := do
  skip .lBrace
  let p ← tokensUntil atClose metaItem p
  skip .rBrace
  pure p

/-- The name of a protocol. Behind it a token is taken even when there is no name. -/
def protocolDecl (p : SourceProtocol) : TokenM SourceProtocol := do
  let t ← peek
  advance
  skip .lBrace
  pure (match t with
    | .ident n => { p with name := n }
    | _ => p)

def messageDecl (p : SourceProtocol) : StmtM SourceProtocol := do
  let name ← nameOr "Msg"
  skip .lBrace
  let body ← recoverStmt parseBody
  pure (match body with
    | some b => { p with
        messages := p.messages ++ [⟨name, b.fields, b.lets, b.loops, b.validates, b.matches_⟩] }
    | none => p)

def bindSource : TokenM String
  | .to :: ts => nameOr "" ts
  | ts => .ok "" ts

def bindWhen : TokenM Expr
  | .when :: ts => exprOr (.int 1) ts
  | ts => .ok (.int 1) ts

def bindDecl (p : SourceProtocol) : TokenM SourceProtocol := do
  let layer ← nameOr ""
  let field ← nameOr ""
  let source ← bindSource
  let when_ ← bindWhen
  skipToEnd
  skip .semicolon
  pure { p with binds := p.binds ++ [⟨layer, source, field, when_⟩] }

/-- A state machine. One with an error in it is left out, with the token behind the error. -/
def stateMachineDecl (p : SourceProtocol) : TokenM SourceProtocol := do
  let sm ← attempt parseStateMachine
  match sm with
  | some sm => pure { p with stateMachines := p.stateMachines ++ [sm] }
  | none => do
      advance
      pure p

def protocolItem (p : SourceProtocol) : StmtM SourceProtocol := do
  let t ← peek
  match t with
  | .ident "state_machine" => stateMachineDecl p
  | _ => do
      advance
      match t with
      | .protocol => protocolDecl p
      | .meta_ => metaDecl p
      | .endian => endianDecl p
      | .mode => modeDecl p
      | .message => messageDecl p
      | .bind => bindDecl p
      | _ => pure p

def emptyProtocol : SourceProtocol :=
  { name := "", endian := "big", mode := "datagram", eof := "", messages := [], binds := [],
    stateMachines := [] }

end StmtParser

open StmtParser

def atEof (ts : List Token) : Bool := current ts = .eof

/-- The parser of a source, with or without recovery. -/
def protocolParser : StmtM SourceProtocol := stmtsUntil atEof protocolItem emptyProtocol

/-- Parse a source up to its first error. -/
def parseProtocol (ts : List Token) : Except ParseError SourceProtocol :=
  Recovery.failFast protocolParser ts

/-- Parse a source and collect all its errors. -/
def parseProtocolWithDiagnostics (ts : List Token) : SourceProtocol × List ParseError :=
  Recovery.collecting protocolParser emptyProtocol ts

end NFdl
