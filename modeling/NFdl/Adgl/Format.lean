import NFdl.Adgl.Lexemes
import NFdl.Adgl.Parser

/-!
# The ADGL formatter

A ruleset is printed from its syntax tree, with the parentheses that the precedence of an
expression needs. The comments of the source go in front of it.
-/

namespace Adgl

open Ast

namespace Fmt

structure FormatOptions where
  indent : ℕ

/-! ### Comments -/

/-- Where the search for comments is, with the text of the comment that it is in. -/
inductive Place where
  | code
  | line (text : List Char)
  | block (text : List Char)
  | string

/-- The comments of a text. What looks like one inside a string is none. -/
def collectComments : Place → List Char → List (List Char)
  | .code, '/' :: '/' :: rest => collectComments (.line ['/', '/']) rest
  | .code, '/' :: '*' :: rest => collectComments (.block ['/', '*']) rest
  | .code, '"' :: rest => collectComments .string rest
  | .code, _ :: rest => collectComments .code rest
  | .code, [] => []
  | .line text, c :: rest =>
      if c = '\n' then text :: collectComments .code rest
      else collectComments (.line (text ++ [c])) rest
  | .line text, [] => [text]
  | .block text, '*' :: '/' :: rest => (text ++ ['*', '/']) :: collectComments .code rest
  | .block text, c :: rest => collectComments (.block (text ++ [c])) rest
  | .block _, [] => []
  | .string, '\\' :: _ :: rest => collectComments .string rest
  | .string, '"' :: rest => collectComments .code rest
  | .string, _ :: rest => collectComments .string rest
  | .string, [] => []

def collectAdglComments (src : List Char) : List (List Char) := collectComments .code src

example : collectAdglComments "a \"/*\\\"\" /* b */ // c".toList =
    ["/* b */".toList, "// c".toList] := by decide +kernel

def emitComments (comments : List (List Char)) : List Char := comments.flatMap (· ++ ['\n'])

/-! ### Names and literals -/

def indentStr (opts : FormatOptions) (level : ℕ) : List Char :=
  List.replicate (min (opts.indent * level) (2 ^ 64 - 1)) ' '

/-- Texts with commas between them. -/
def commas : List (List Char) → List Char
  | [] => []
  | [text] => text
  | text :: texts => text ++ ", ".toList ++ commas texts

def emitKindIdent : KindIdent → List Char
  | [] => []
  | [seg] => seg.toList
  | seg :: segs => seg.toList ++ ".".toList ++ emitKindIdent segs

def emitStringLit (s : String) : List Char := '"' :: Lexer.escape s.toList ++ ['"']

def emitInt (v : Int64) : List Char := Text.decimal v.toInt

/-- A duration in the largest unit that divides it. -/
def emitDuration (ms : Int64) : List Char :=
  if ms ≠ 0 ∧ ms % 60000 = 0 then emitInt (ms / 60000) ++ "min".toList
  else if ms ≠ 0 ∧ ms % 1000 = 0 then emitInt (ms / 1000) ++ "s".toList
  else emitInt ms ++ "ms".toList

def emitRefList (refs : List String) : List Char :=
  "[".toList ++ commas (refs.map String.toList) ++ "]".toList

/-! ### Expressions -/

def binopPrec : BinaryOp → ℕ
  | .or => 3
  | .and => 4
  | .eq | .ne | .lt | .le | .gt | .ge | .in_ => 8
  | .add | .sub => 11
  | .mul | .div | .rem => 12

/-- How tightly an expression binds. -/
def exprPrec : Expr → ℕ
  | .int _ | .duration _ | .string _ | .ident _ | .bool _ | .present _ | .absent _ => 13
  | .field _ _ | .call _ _ | .index _ _ => 13
  | .unary _ _ => 12
  | .binary op _ _ => binopPrec op

def binopStr : BinaryOp → String
  | .or => "or"
  | .and => "and"
  | .eq => "=="
  | .ne => "!="
  | .lt => "<"
  | .le => "<="
  | .gt => ">"
  | .ge => ">="
  | .in_ => "in"
  | .add => "+"
  | .sub => "-"
  | .mul => "*"
  | .div => "/"
  | .rem => "%"

def unaryStr : UnaryOp → String
  | .not => "!"

/-- Parentheses around a text where an expression stands in a tighter place. -/
def wrap (parentPrec : ℕ) (expr : Expr) (text : List Char) : List Char :=
  if exprPrec expr < parentPrec then "(".toList ++ text ++ ")".toList else text

mutual

/-- The text of an expression without parentheses around it. -/
def emitBare : Expr → List Char
  | .int v => emitInt v
  | .duration ms => emitDuration ms
  | .string s => emitStringLit s
  | .ident name => name.toList
  | .bool b => if b then "true".toList else "false".toList
  | .present name => "present(".toList ++ name.toList ++ ")".toList
  | .absent name => "absent(".toList ++ name.toList ++ ")".toList
  | .unary op expr => (unaryStr op).toList ++ wrap 13 expr (emitBare expr)
  | .binary op left right =>
      wrap (binopPrec op) left (emitBare left) ++ (" ".toList ++ (binopStr op).toList ++ " ".toList) ++
        wrap (binopPrec op + 1) right (emitBare right)
  | .field base name => wrap 13 base (emitBare base) ++ ".".toList ++ name.toList
  | .call callee args =>
      wrap 13 callee (emitBare callee) ++ "(".toList ++ emitItems args ++ ")".toList
  | .index base index =>
      wrap 13 base (emitBare base) ++ "[".toList ++ wrap 0 index (emitBare index) ++ "]".toList

def emitItems : List Expr → List Char
  | [] => []
  | e :: es =>
      wrap 0 e (emitBare e) ++ if es.isEmpty then [] else ", ".toList ++ emitItems es

end

/-- The text of an expression inside another one of the given precedence. -/
def emitExpr (expr : Expr) (parentPrec : ℕ) : List Char := wrap parentPrec expr (emitBare expr)

/-! ### Statements -/

section Statements

variable (opts : FormatOptions) (level : ℕ)

def emitInferField : InferField → List Char
  | .target e => "target: ".toList ++ emitExpr e 0
  | .weight value =>
      "weight: ".toList ++ (if 0 ≤ value then "+".toList else []) ++ emitInt value
  | .evidence refs => "evidence: ".toList ++ emitRefList refs

/-- A statement on a line, with its fields in braces. -/
def emitStmtLine (head : List Char) (fields : List (List Char)) : List Char :=
  indentStr opts level ++ head ++ " \x7b ".toList ++ commas fields ++ " \x7d\n".toList

def emitInfer (stmt : InferStmt) : List Char :=
  emitStmtLine opts level ("infer Cause(".toList ++ stmt.cause.toList ++ ")".toList)
    (stmt.fields.map emitInferField)

def severityStr : Severity → String
  | .critical => "Critical"
  | .high => "High"
  | .medium => "Medium"
  | .low => "Low"
  | .recommended => "Recommended"
  | .optional => "Optional"

def emitEmitField : EmitField → List Char
  | .target e => "target: ".toList ++ emitExpr e 0
  | .severity sev => "severity: ".toList ++ (severityStr sev).toList
  | .evidence refs => "evidence: ".toList ++ emitRefList refs
  | .sarifId s => "sarif_id: ".toList ++ emitStringLit s

def emitEmit (stmt : EmitStmt) : List Char :=
  emitStmtLine opts level ("emit Problem(".toList ++ stmt.problem.toList ++ ")".toList)
    (stmt.fields.map emitEmitField)

def emitActionField : ActionField → List Char
  | .target e => "target: ".toList ++ emitExpr e 0
  | .reason s => "reason: ".toList ++ emitStringLit s
  | .evidence refs => "evidence: ".toList ++ emitRefList refs

def emitActionArg : Option KindIdent → List Char
  | some arg => "(".toList ++ emitKindIdent arg ++ ")".toList
  | none => []

def emitAction (stmt : ActionStmt) : List Char :=
  emitStmtLine opts level
    ("action ".toList ++ (actionName stmt).toList ++ emitActionArg stmt.arg)
    (stmt.fields.map emitActionField)

def emitStmt : Stmt → List Char
  | .infer stmt => emitInfer opts level stmt
  | .emit stmt => emitEmit opts level stmt
  | .action stmt => emitAction opts level stmt

/-- Statements in braces on lines of their own. -/
def emitBlock (body : List Stmt) : List Char :=
  " \x7b\n".toList ++ body.flatMap (emitStmt opts (level + 1)) ++ indentStr opts level ++
    "\x7d".toList

def emitElse : Option (List Stmt) → List Char
  | some body => " else".toList ++ emitBlock opts level body
  | none => []

def emitIfElse (block : IfElseBlock) : List Char :=
  indentStr opts level ++ "if ".toList ++ emitExpr block.condition 0 ++
    emitBlock opts level block.thenBody ++ emitElse opts level block.elseBody ++ "\n".toList

/-! ### Anchors and correlates -/

def scopeStr : ScopeType → String
  | .session => "Session"
  | .port => "Port"
  | .clientMac => "ClientMac"
  | .vlan => "Vlan"
  | .accessPoint => "AccessPoint"
  | .global => "Global"

def emitScope (scope : ScopeType) : List Char :=
  indentStr opts level ++ "scope: ".toList ++ (scopeStr scope).toList ++ "\n".toList

/-- A predicate in braces on lines of their own. -/
def emitPredicate (pred : Expr) : List Char :=
  " \x7b\n".toList ++ indentStr opts (level + 1) ++ emitExpr pred 0 ++ "\n".toList ++
    indentStr opts level ++ "\x7d".toList

def emitOptionalPredicate : Option Expr → List Char
  | some pred => emitPredicate opts level pred
  | none => []

def emitAnchorBlock (a : AnchorBlock) : List Char :=
  indentStr opts level ++ "anchor ".toList ++ a.binding.toList ++ ": event(".toList ++
    emitKindIdent a.eventType ++ ")".toList ++ emitOptionalPredicate opts level a.predicate ++
    "\n".toList

def emitCauseAnchor (c : CauseAnchor) : List Char :=
  c.binding.toList ++ ": Cause(".toList ++ c.cause.toList ++ ")".toList ++
    emitPredicate opts level c.predicate ++ "\n".toList

def emitProblemAnchor (p : ProblemAnchor) : List Char :=
  p.binding.toList ++ ": Problem(".toList ++ p.problem.toList ++ ")".toList ++
    emitOptionalPredicate opts level p.predicate ++ "\n".toList

def emitDecisionAnchor (a : DecisionAnchor) : List Char :=
  indentStr opts level ++ "anchor ".toList ++ match a with
    | .cause c => emitCauseAnchor opts level c
    | .problem p => emitProblemAnchor opts level p

def emitCorrelateSource : Ast.CorrelateSource → List Char
  | .event kind => "event(".toList ++ emitKindIdent kind ++ ")".toList
  | .problem name => "Problem(".toList ++ name.toList ++ ")".toList
  | .cause name => "Cause(".toList ++ name.toList ++ ")".toList

def emitTopo (t : TopoPredicate) : List Char :=
  t.name.toList ++ "(".toList ++ emitItems t.args ++ ")".toList

def emitTimeWindow (tw : TimeWindow) : List Char :=
  emitExpr tw.probe 0 ++ " in [".toList ++ emitExpr tw.start 0 ++ ", ".toList ++
    emitExpr tw.end_ 0 ++ "]".toList

def emitMinMatch : Option ℕ → List Char
  | some count =>
      indentStr opts (level + 1) ++ "having: count >= ".toList ++ Nat.toDigits 10 count ++
        "\n".toList
  | none => []

def emitCorrelate (c : CorrelateBlock) : List Char :=
  indentStr opts level ++ "correlate ".toList ++ c.binding.toList ++ ": ".toList ++
    emitCorrelateSource c.source ++ " \x7b\n".toList ++ indentStr opts (level + 1) ++
    "topo: ".toList ++ emitTopo c.topo ++ "\n".toList ++ indentStr opts (level + 1) ++
    "time: ".toList ++ emitTimeWindow c.time ++ "\n".toList ++ emitMinMatch opts level c.minMatch ++
    indentStr opts level ++ "\x7d\n".toList

/-! ### Rules -/

def emitOptionalIfElse : Option IfElseBlock → List Char
  | some block => emitIfElse opts level block
  | none => []

/-- A rule around the text of its anchor. -/
def emitRule (kw : List Char) (name : String) (scope : ScopeType) (anchor : List Char)
    (correlates : List CorrelateBlock) (ifElse : Option IfElseBlock) (body : List Stmt) :
    List Char :=
  indentStr opts level ++ kw ++ name.toList ++ " \x7b\n".toList ++ emitScope opts (level + 1) scope ++
    anchor ++ correlates.flatMap (emitCorrelate opts (level + 1)) ++
    emitOptionalIfElse opts (level + 1) ifElse ++ body.flatMap (emitStmt opts (level + 1)) ++
    indentStr opts level ++ "\x7d\n".toList

def emitEvidence (rule : EvidenceRule) : List Char :=
  emitRule opts level "evidence ".toList rule.name rule.scope
    (emitAnchorBlock opts (level + 1) rule.anchor) rule.correlates rule.ifElse rule.body

def emitDecision (rule : DecisionRule) : List Char :=
  emitRule opts level "decision ".toList rule.name rule.scope
    (emitDecisionAnchor opts (level + 1) rule.anchor) rule.correlates rule.ifElse rule.body

def emitRuleDecl : RuleDecl → List Char
  | .evidence rule => emitEvidence opts level rule
  | .decision rule => emitDecision opts level rule

def emitRequires (caps : List String) : List Char :=
  indentStr opts level ++ "requires = [".toList ++ commas (caps.map emitStringLit) ++ "]\n".toList

def emitMutuallyExclusive (idents : List String) : List Char :=
  indentStr opts level ++ "mutually_exclusive(".toList ++ commas (idents.map String.toList) ++
    ")\n".toList

def emitDecl : Decl → List Char
  | .requires caps => emitRequires opts level caps
  | .mutuallyExclusive idents => "\n".toList ++ emitMutuallyExclusive opts level idents

end Statements

def emitRuleset (ruleset : SourceRuleset) (opts : FormatOptions) : List Char :=
  "ruleset ".toList ++ emitStringLit ruleset.name ++ " \x7b\n".toList ++ indentStr opts 1 ++
    "version = ".toList ++ emitStringLit ruleset.version ++ "\n".toList ++
    ruleset.decls.flatMap (emitDecl opts 1) ++
    ruleset.rules.flatMap (fun rule => "\n".toList ++ emitRuleDecl opts 1 rule) ++ "\x7d\n".toList

/-- The text of a ruleset behind comments. -/
def emitSource (comments : List (List Char)) (ruleset : SourceRuleset) (opts : FormatOptions) :
    List Char :=
  let out := emitComments comments ++ emitRuleset ruleset opts
  if out.getLast? = some '\n' then out else out ++ ['\n']

end Fmt

open Fmt

/-- Parse a source and print it. -/
def formatAdglSourceWith (src : List Char) (opts : FormatOptions) :
    Except (List (String × String)) (List Char) :=
  (parseRuleset src).map fun ruleset => emitSource (collectAdglComments src) ruleset opts

def formatAdglSource (src : List Char) : Except (List (String × String)) (List Char) :=
  formatAdglSourceWith src ⟨4⟩

end Adgl
