import NFdl.Adgl.Types

/-!
# The syntax tree of ADGL

A ruleset has header declarations and rules. An evidence rule is anchored on an
event and infers causes, a decision rule is anchored on a cause or a problem and
emits problems. Source spans and doc comments are left out.
-/

namespace Adgl.Ast

inductive UnaryOp where
  | not
deriving DecidableEq, Repr

inductive BinaryOp where
  | or | and | eq | ne | lt | le | gt | ge | in_ | add | sub | mul | div | rem
deriving DecidableEq, Repr

inductive Expr where
  | int (value : Int64)
  | duration (millis : Int64)
  | string (value : String)
  | ident (name : String)
  | bool (value : Bool)
  | present (name : String)
  | absent (name : String)
  | unary (op : UnaryOp) (expr : Expr)
  | binary (op : BinaryOp) (left right : Expr)
  | field (base : Expr) (name : String)
  | call (callee : Expr) (args : List Expr)
  | index (base index : Expr)

namespace Expr

/-- Induction over expressions, without a hypothesis for the arguments of a call:
no predicate that is compiled has one. -/
@[induction_eliminator] theorem ind {P : Expr → Prop} (int : ∀ v, P (.int v))
    (duration : ∀ ms, P (.duration ms)) (string : ∀ s, P (.string s))
    (ident : ∀ name, P (.ident name)) (bool : ∀ b, P (.bool b))
    (present : ∀ name, P (.present name)) (absent : ∀ name, P (.absent name))
    (unary : ∀ op expr, P expr → P (.unary op expr))
    (binary : ∀ op left right, P left → P right → P (.binary op left right))
    (field : ∀ base name, P base → P (.field base name))
    (call : ∀ callee args, P callee → P (.call callee args))
    (index : ∀ base index, P base → P index → P (.index base index)) : ∀ e, P e
  | .int v => int v
  | .duration ms => duration ms
  | .string s => string s
  | .ident name => ident name
  | .bool b => bool b
  | .present name => present name
  | .absent name => absent name
  | .unary op expr => unary op expr (ind int duration string ident bool present absent unary
      binary field call index expr)
  | .binary op left right => binary op left right
      (ind int duration string ident bool present absent unary binary field call index left)
      (ind int duration string ident bool present absent unary binary field call index right)
  | .field base name => field base name
      (ind int duration string ident bool present absent unary binary field call index base)
  | .call callee args => call callee args
      (ind int duration string ident bool present absent unary binary field call index callee)
  | .index base idx => index base idx
      (ind int duration string ident bool present absent unary binary field call index base)
      (ind int duration string ident bool present absent unary binary field call index idx)

mutual

/-- Whether the expression has a `present` or `absent` test. -/
def containsPresentAbsent : Expr → Bool
  | .present _ | .absent _ => true
  | .unary _ expr => containsPresentAbsent expr
  | .binary _ left right => containsPresentAbsent left || containsPresentAbsent right
  | .field base _ => containsPresentAbsent base
  | .call callee args => containsPresentAbsent callee || anyContainsPresentAbsent args
  | .index base idx => containsPresentAbsent base || containsPresentAbsent idx
  | _ => false

def anyContainsPresentAbsent : List Expr → Bool
  | [] => false
  | e :: es => containsPresentAbsent e || anyContainsPresentAbsent es

end

mutual

/-- The nesting depth that the verifier bounds. -/
def depth : Expr → Nat
  | .unary _ expr => 1 + depth expr
  | .binary _ left right => 1 + max (depth left) (depth right)
  | .field base _ => 1 + depth base
  | .call callee args => 1 + maxDepth (depth callee) args
  | .index base idx => 1 + max (depth base) (depth idx)
  | _ => 1

def maxDepth (acc : Nat) : List Expr → Nat
  | [] => acc
  | e :: es => maxDepth (max acc (depth e)) es

end

end Expr

abbrev KindIdent := List String

/-- The segments, joined with dots. -/
def kindIdentName (kind : KindIdent) : String := ".".intercalate kind

inductive CorrelateSource where
  | event (kind : KindIdent)
  | problem (name : String)
  | cause (name : String)

structure TopoPredicate where
  name : String
  args : List Expr

structure TimeWindow where
  probe : Expr
  start : Expr
  end_ : Expr

/-- The parser rejects a negative count. -/
structure CorrelateBlock where
  binding : String
  source : CorrelateSource
  topo : TopoPredicate
  time : TimeWindow
  minMatch : Option Nat

inductive InferField where
  | target (expr : Expr)
  | weight (value : Int64)
  | evidence (ids : List String)

structure InferStmt where
  cause : String
  fields : List InferField

inductive EmitField where
  | target (expr : Expr)
  | severity (sev : Severity)
  | evidence (ids : List String)
  | sarifId (id : String)

structure EmitStmt where
  problem : String
  fields : List EmitField

inductive ActionName where
  | known (kind : ActionKind)
  | custom (name : String)

inductive ActionField where
  | target (expr : Expr)
  | reason (text : String)
  | evidence (ids : List String)

structure ActionStmt where
  action : ActionName
  arg : Option KindIdent
  fields : List ActionField

def actionName (action : ActionStmt) : String :=
  match action.action with
  | .known kind => kind.asStr
  | .custom name => name

inductive Stmt where
  | infer (stmt : InferStmt)
  | emit (stmt : EmitStmt)
  | action (stmt : ActionStmt)

structure IfElseBlock where
  condition : Expr
  thenBody : List Stmt
  elseBody : Option (List Stmt)

structure AnchorBlock where
  binding : String
  eventType : KindIdent
  predicate : Option Expr

structure CauseAnchor where
  binding : String
  cause : String
  predicate : Expr

structure ProblemAnchor where
  binding : String
  problem : String
  predicate : Option Expr

inductive DecisionAnchor where
  | cause (anchor : CauseAnchor)
  | problem (anchor : ProblemAnchor)

structure EvidenceRule where
  name : String
  scope : ScopeType
  anchor : AnchorBlock
  correlates : List CorrelateBlock
  ifElse : Option IfElseBlock
  body : List Stmt

structure DecisionRule where
  name : String
  scope : ScopeType
  anchor : DecisionAnchor
  correlates : List CorrelateBlock
  ifElse : Option IfElseBlock
  body : List Stmt

inductive RuleDecl where
  | evidence (rule : EvidenceRule)
  | decision (rule : DecisionRule)

namespace RuleDecl

def name : RuleDecl → String
  | .evidence e => e.name
  | .decision d => d.name

def scope : RuleDecl → ScopeType
  | .evidence e => e.scope
  | .decision d => d.scope

/-- The binding of the anchor. -/
def anchorBinding : RuleDecl → String
  | .evidence e => e.anchor.binding
  | .decision d => match d.anchor with
    | .cause c => c.binding
    | .problem p => p.binding

/-- The predicate of the anchor, where there is one. -/
def anchorPredicate : RuleDecl → Option Expr
  | .evidence e => e.anchor.predicate
  | .decision d => match d.anchor with
    | .cause c => some c.predicate
    | .problem p => p.predicate

def correlates : RuleDecl → List CorrelateBlock
  | .evidence e => e.correlates
  | .decision d => d.correlates

def ifElse : RuleDecl → Option IfElseBlock
  | .evidence e => e.ifElse
  | .decision d => d.ifElse

def body : RuleDecl → List Stmt
  | .evidence e => e.body
  | .decision d => d.body

/-- The statements of the `if` block, the ones of its `else` last. -/
def branchStatements (rule : RuleDecl) : List Stmt :=
  match rule.ifElse with
  | some ifElse => ifElse.thenBody ++ ifElse.elseBody.getD []
  | none => []

/-- All statements, the unconditional ones first. -/
def gatherStatements (rule : RuleDecl) : List Stmt := rule.body ++ rule.branchStatements

end RuleDecl

inductive Decl where
  | requires (capabilities : List String)
  | mutuallyExclusive (idents : List String)

structure Ruleset where
  name : String
  decls : List Decl
  rules : List RuleDecl

end Adgl.Ast
