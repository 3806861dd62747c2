import NFdl.Adgl.Ast
import NFdl.Adgl.Catalog
import Mathlib.Algebra.GroupWithZero.Nat

/-!
# The verifier

Twelve phases check a ruleset and collect diagnostics; an error in any of them
rejects it. Every phase is the list of the diagnostics that it pushes.
-/

namespace Adgl

open Ast

/-! ### Diagnostics -/

inductive DiagSeverity where
  | error | warning
deriving DecidableEq, Repr

structure Diagnostic where
  severity : DiagSeverity
  code : String
  message : String
deriving DecidableEq, Repr

abbrev DiagBuffer := List Diagnostic

def err (code message : String) : Diagnostic := ⟨.error, code, message⟩

def warn (code message : String) : Diagnostic := ⟨.warning, code, message⟩

def hasErrors (diags : DiagBuffer) : Bool := diags.any (·.severity == .error)

@[simp] theorem hasErrors_nil : hasErrors [] = false := rfl

@[simp] theorem hasErrors_append (ds ds' : DiagBuffer) :
    hasErrors (ds ++ ds') = (hasErrors ds || hasErrors ds') := List.any_append

@[simp] theorem hasErrors_err_cons (code message : String) (ds : DiagBuffer) :
    hasErrors (err code message :: ds) = true := rfl

theorem hasErrors_flatMap {α : Type} {xs : List α} {f : α → DiagBuffer} :
    hasErrors (xs.flatMap f) = false ↔ ∀ x ∈ xs, hasErrors (f x) = false := by
  induction xs with
  | nil => simp
  | cons x xs ih => rw [List.flatMap_cons, hasErrors_append, Bool.or_eq_false_iff, ih,
      List.forall_mem_cons]

/-- One error unless the condition holds. -/
def check (ok : Bool) (code message : String) : DiagBuffer :=
  if ok then [] else [err code message]

@[simp] theorem hasErrors_check {ok : Bool} {code message : String} :
    hasErrors (check ok code message) = !ok := by cases ok <;> rfl

/-! ### The names of a rule -/

def maxLookbackDefault : Int64 := 60000
def dedupWindowDefault : Int64 := 1000
def maxNesting : Nat := 64
def maxCorrelatesPerRule : Nat := 8
def maxIntentsPerRule : Nat := 16
def maxRequires : Nat := 32
def maxExclusivityGroup : Nat := 8

structure VerifyConfig where
  maxLookbackMs : Int64
  dedupWindowMs : Int64

def VerifyConfig.default : VerifyConfig := ⟨maxLookbackDefault, dedupWindowDefault⟩

/-- What the names of a rule are bound to, and at which index. -/
structure RuleEnv where
  ruleScope : ScopeType
  bindings : AList fun _ : String => BindingTy
  bindingIdx : AList fun _ : String => BindingIdx

def Ast.RuleDecl.anchorTy : RuleDecl → BindingTy
  | .evidence e => .event (kindIdentName e.anchor.eventType)
  | .decision d => match d.anchor with
    | .cause c => .cause c.cause
    | .problem p => .problem p.problem

def correlateBindingTy (c : CorrelateBlock) : BindingTy :=
  match c.source with
  | .event kind => .event (kindIdentName kind)
  | .cause name => .cause name
  | .problem name => .problem name

namespace RuleEnv

def push (env : RuleEnv) (name : String) (ty : BindingTy) (idx : BindingIdx) : RuleEnv :=
  { env with
    bindings := env.bindings.insert name ty
    bindingIdx := env.bindingIdx.insert name idx }

/-- The anchor has index zero, the correlates follow in order. -/
def forRule (rule : RuleDecl) : RuleEnv :=
  rule.correlates.zipIdx.foldl
    (fun env entry => env.push entry.1.binding (correlateBindingTy entry.1)
      (UInt8.ofNat (entry.2 + 1)))
    (RuleEnv.push ⟨rule.scope, ∅, ∅⟩ rule.anchorBinding rule.anchorTy 0)

end RuleEnv

section Phases

variable (catalog : Catalog)

/-! ### Phase 1: names of the catalog -/

def checkBindingTy : BindingTy → DiagBuffer
  | .event event => check (catalog.resolveEvent event).isSome "ADGL0201" "unknown event type"
  | .cause cause => check (catalog.resolveCause cause).isSome "ADGL0202" "unknown cause kind"
  | .problem problem =>
      check (catalog.resolveProblem problem).isSome "ADGL0203" "unknown problem kind"

def checkEvidence (env : RuleEnv) (ids : List String) : DiagBuffer :=
  ids.flatMap fun id =>
    check (env.bindings.lookup id).isSome "ADGL0209" "unknown evidence binding"

def suppressSymptomMessage : String := "suppress_symptom argument must be a ProblemRef binding"

def checkActionArg (env : RuleEnv) (schema : ActionSchema) (arg : Option KindIdent) :
    DiagBuffer :=
  match schema.argKind, arg with
  | .observationKind, none => [err "ADGL0207" "missing observation kind argument"]
  | .observationKind, some arg =>
      check (catalog.observationKinds.contains (kindIdentName arg)) "ADGL0207"
        "unknown observation kind"
  | .checkKind, none => [err "ADGL0208" "missing check kind argument"]
  | .checkKind, some arg =>
      check (catalog.checkKinds.contains (kindIdentName arg)) "ADGL0208" "unknown check kind"
  | .problemRefBinding, none => [err "ADGL0209" "missing suppress_symptom binding argument"]
  | .problemRefBinding, some [id] =>
      match env.bindings.lookup id with
      | some (.problem _) => []
      | _ => [err "ADGL0209" suppressSymptomMessage]
  | .problemRefBinding, some _ => [err "ADGL0209" suppressSymptomMessage]
  | .none, arg => check arg.isNone "ADGL0206" "action does not accept argument"

def validateStmtCatalog (env : RuleEnv) : Stmt → DiagBuffer
  | .infer i =>
      checkBindingTy catalog (.cause i.cause) ++ i.fields.flatMap fun
        | .evidence ids => checkEvidence env ids
        | _ => []
  | .emit e =>
      checkBindingTy catalog (.problem e.problem) ++ e.fields.flatMap fun
        | .evidence ids => checkEvidence env ids
        | _ => []
  | .action a =>
      match resolveAction (actionName a) with
      | none => [err "ADGL0206" "unknown action kind"]
      | some schema => checkActionArg catalog env schema a.arg

def phase01CatalogResolution (ruleset : Ruleset) : DiagBuffer :=
  ruleset.rules.flatMap fun rule =>
    checkBindingTy catalog rule.anchorTy ++
    rule.correlates.flatMap (fun c => checkBindingTy catalog (correlateBindingTy c)) ++
    rule.gatherStatements.flatMap (validateStmtCatalog catalog (.forRule rule))

/-! ### Phase 2: names and types -/

def isNumericType : FieldType → Bool
  | .int | .confidence => true
  | _ => false

def isIntListType (ty : FieldType) : Bool := ty == .intList

def rejectIntlistPredicateUse : Diagnostic :=
  err "ADGL0213" "IntList fields are evidence-only until list predicate IR exists"

def typesCompatibleForOrdering (left right : FieldType) : Bool :=
  (isNumericType left && isNumericType right) ||
    match left, right with
    | .string, .string | .severity, .severity => true
    | _, _ => false

def typesCompatibleForEquality (left right : FieldType) : Bool :=
  typesCompatibleForOrdering left right ||
    match left, right with
    | .scopeId _, .scopeId _ | .scopeIdList, .scopeIdList | .nodeIdList, .nodeIdList
    | .sarifId, .sarifId => true
    | _, _ => false

/-- The complaints about the operand types of a binary operator. -/
def checkOperands (op : BinaryOp) (lt rt : FieldType) : DiagBuffer :=
  (if isIntListType lt || isIntListType rt then [rejectIntlistPredicateUse] else []) ++
  match op with
  | .eq | .ne =>
      check (typesCompatibleForEquality lt rt) "ADGL0210" "comparison operand type mismatch"
  | .lt | .le | .gt | .ge =>
      check (typesCompatibleForOrdering lt rt) "ADGL0210"
        "ordered comparison requires compatible scalar types"
  | .in_ => check (rt == .scopeIdList) "ADGL0210" "`in` RHS must be a ScopeIdList"
  | .add | .sub | .mul | .div | .rem =>
      check (isNumericType lt && isNumericType rt) "ADGL0210" "arithmetic operands must be numeric"
  | .and | .or => []

/-- The type of an expression. Comparisons, tests and connectives are integers. -/
def inferExprType (env : RuleEnv) : Expr → Option FieldType × DiagBuffer
  | .int _ | .duration _ | .bool _ => (some .int, [])
  | .string _ => (some .string, [])
  | .ident id =>
      if (env.bindings.lookup id).isSome then (some .nodeIdList, [])
      else (none, [err "ADGL0209" "unknown identifier"])
  | .present id | .absent id =>
      if (env.bindings.lookup id).isSome then (some .int, [])
      else (none, [err "ADGL0209" "unknown correlate binding"])
  | .unary _ expr => inferExprType env expr
  | .binary op left right =>
      let (lt, diags) := inferExprType env left
      let (rt, diags') := inferExprType env right
      let operands := match lt, rt with
        | some lt, some rt => checkOperands op lt rt
        | _, _ => []
      (some .int, diags ++ diags' ++ operands)
  | .field base field =>
      match base with
      | .ident id =>
          match env.bindings.lookup id with
          | none => (none, [err "ADGL0209" "unknown binding"])
          | some ty =>
              match catalog.resolveMetricPath ty (id ++ "." ++ field) with
              | none => (none, [err "ADGL0209" "unknown metric path field"])
              | some (_, ty) =>
                  if isIntListType ty then (none, [rejectIntlistPredicateUse])
                  else (some ty, [])
      | _ => (none, [err "ADGL0209" "invalid field access base"])
  | .call _ _ =>
      (none, [err "ADGL0501" "effectful/topology calls are disallowed in pure expressions"])
  | .index base index =>
      let (ty, diags) := inferExprType env base
      let list := match ty with
        | some ty => if isIntListType ty then [rejectIntlistPredicateUse] else []
        | none => []
      (none, diags ++ list ++ (inferExprType env index).2)

def Ast.InferField.target? : InferField → Option Expr
  | .target expr => some expr
  | _ => none

def Ast.EmitField.target? : EmitField → Option Expr
  | .target expr => some expr
  | _ => none

def Ast.ActionField.target? : ActionField → Option Expr
  | .target expr => some expr
  | _ => none

def Ast.InferField.weightValue : InferField → Option Int64
  | .weight value => some value
  | _ => none

/-- The target expressions of a statement. -/
def Ast.Stmt.targets : Stmt → List Expr
  | .infer i => i.fields.filterMap InferField.target?
  | .emit e => e.fields.filterMap EmitField.target?
  | .action a => a.fields.filterMap ActionField.target?

/-- The predicates of a rule: of its anchor and of its `if`. -/
def Ast.RuleDecl.predicates (rule : RuleDecl) : List Expr :=
  rule.anchorPredicate.toList ++ (rule.ifElse.map IfElseBlock.condition).toList

/-- The expressions that are typed. -/
def Ast.RuleDecl.exprs (rule : RuleDecl) : List Expr :=
  rule.anchorPredicate.toList ++
  rule.correlates.flatMap (fun c => [c.time.probe, c.time.start, c.time.end_] ++ c.topo.args) ++
  rule.body.flatMap Stmt.targets ++
  (rule.ifElse.map IfElseBlock.condition).toList ++ rule.branchStatements.flatMap Stmt.targets

def validateActionTargetTypes (env : RuleEnv) (action : ActionStmt) : DiagBuffer :=
  match resolveAction (actionName action) with
  | none => []
  | some schema =>
      match action.fields.findSome? ActionField.target? with
      | some expr =>
          let (ty, diags) := inferExprType catalog env expr
          diags ++ match ty with
            | none => []
            | some ty =>
                check (schema.targetTypes.any fun allowed => match allowed, ty with
                  | .scopeId, .scopeId _ | .scopeIdList, .scopeIdList => true
                  | _, _ => false)
                  "ADGL0210" "action target type is incompatible with action contract"
      | none =>
          check (schema.targetTypes.isEmpty || schema.kind == .suppressSymptom) "ADGL0210"
            "action requires a target field"

def checkStmtFields (env : RuleEnv) : Stmt → DiagBuffer
  | .infer infer =>
      check (infer.fields.any fun f => f.target?.isSome) "ADGL0210"
        "infer requires an explicit target field" ++
      (infer.fields.filterMap InferField.weightValue).flatMap fun weight =>
        check (-100 ≤ weight.toInt && weight.toInt ≤ 100) "ADGL0205"
          "weight must be within [-100, 100]"
  | .action action => validateActionTargetTypes catalog env action
  | .emit _ => []

def phase02NameAndTypecheck (ruleset : Ruleset) : DiagBuffer :=
  ruleset.rules.flatMap fun rule =>
    rule.exprs.flatMap (fun e => (inferExprType catalog (.forRule rule) e).2) ++
    rule.gatherStatements.flatMap (checkStmtFields catalog (.forRule rule))

/-! ### Phase 3: effects in pure positions -/

def checkNoCalls : Expr → DiagBuffer
  | .call _ _ => [err "ADGL0501" "calls are not allowed in pure expression positions"]
  | .unary _ expr => checkNoCalls expr
  | .binary _ left right => checkNoCalls left ++ checkNoCalls right
  | .field base _ => checkNoCalls base
  | .index base idx => checkNoCalls base ++ checkNoCalls idx
  | _ => []

def phase03EffectInPure (ruleset : Ruleset) : DiagBuffer :=
  ruleset.rules.flatMap fun rule =>
    rule.anchorPredicate.toList.flatMap checkNoCalls ++
    rule.correlates.flatMap (fun c => checkNoCalls c.time.start ++ checkNoCalls c.time.end_) ++
    (rule.ifElse.map IfElseBlock.condition).toList.flatMap checkNoCalls

/-! ### Phases 4 and 5: capabilities, scopes of targets -/

def phase04Capability (ruleset : Ruleset) : DiagBuffer :=
  ruleset.decls.flatMap fun
    | .requires capabilities => capabilities.flatMap fun cap =>
        check (catalog.capabilityFor cap).isSome "ADGL0430" "unknown capability"
    | .mutuallyExclusive _ => []

def onlyScope : List ScopeType → Option ScopeType
  | [scope] => some scope
  | _ => none

/-- The scope type of a target expression, where it is known. -/
def inferTargetScopeExpr (env : RuleEnv) : Expr → Option ScopeType
  | .field (.ident id) field =>
      match env.bindings.lookup id with
      | some (.event event) =>
          match catalog.resolveMetricPath (.event event) (id ++ "." ++ field) with
          | some (_, .scopeId scope) => some scope
          | _ => none
      | some (.cause cause) =>
          if field = "target" then
            (catalog.resolveCause cause).bind fun c => onlyScope c.validScopes
          else none
      | some (.problem problem) =>
          if field = "target" then
            (catalog.resolveProblem problem).bind fun p => onlyScope p.validScopes
          else none
      | none => none
  | _ => none

def targetScopeMessage : String := "target scope not compatible with rule scope"

def checkTargetScope (env : RuleEnv) : Stmt → DiagBuffer
  | .infer infer =>
      let targetScope := ((infer.fields.filterMap InferField.target?).findSome?
        (inferTargetScopeExpr catalog env)).getD env.ruleScope
      check (env.ruleScope.isSubsumedBy targetScope) "ADGL0210" targetScopeMessage ++
      match catalog.resolveCause infer.cause with
      | some schema => check (schema.validScopes.contains targetScope) "ADGL0211"
          "cause is invalid for target scope"
      | none => []
  | .emit emit =>
      let targetScope := ((emit.fields.filterMap EmitField.target?).findSome?
        (inferTargetScopeExpr catalog env)).getD env.ruleScope
      check (env.ruleScope.isSubsumedBy targetScope) "ADGL0210" targetScopeMessage ++
      match catalog.resolveProblem emit.problem with
      | some schema => check (schema.validScopes.contains targetScope) "ADGL0212"
          "problem is invalid for target scope"
      | none => []
  | .action _ => []

def phase05ScopeTarget (ruleset : Ruleset) : DiagBuffer :=
  ruleset.rules.flatMap fun rule =>
    rule.gatherStatements.flatMap (checkTargetScope catalog (.forRule rule))

/-! ### Phase 6: time windows -/

def isBindingTimeProbe (binding : String) : Expr → Bool
  | .field (.ident id) field => id == binding && field == "time"
  | _ => false

/-- The offset of a window bound from the anchor. Additions wrap as in a build
without overflow checks. -/
def asAnchorOffset (anchorBinding : String) : Expr → Option Int64
  | .field (.ident id) field => if id = anchorBinding ∧ field = "time" then some 0 else none
  | .binary .add left (.duration millis) => (asAnchorOffset anchorBinding left).map (· + millis)
  | .binary .sub left (.duration millis) => (asAnchorOffset anchorBinding left).map (· - millis)
  | _ => none

/-- How far a window reaches backward and forward from the anchor. -/
def calculableWindow (anchorBinding : String) (start end_ : Expr) : Option (Int64 × Int64) := do
  let back ← asAnchorOffset anchorBinding start
  let forward ← asAnchorOffset anchorBinding end_
  if 0 < back ∨ forward < 0 then none else some (-back, forward)

def Ast.CorrelateBlock.window (anchorBinding : String) (c : CorrelateBlock) :
    Option (Int64 × Int64) :=
  calculableWindow anchorBinding c.time.start c.time.end_

def rulesetMaxForwardWindowMs (ruleset : Ruleset) : Int64 :=
  ruleset.rules.foldl (fun acc rule =>
    rule.correlates.foldl (fun acc c => match c.window rule.anchorBinding with
      | some (_, forward) => if acc ≤ forward then forward else acc
      | none => acc) acc) 0

def checkWindow (anchorBinding : String) (allowed : Int64) (c : CorrelateBlock) : DiagBuffer :=
  check (isBindingTimeProbe c.binding c.time.probe) "ADGL0413"
    "malformed window probe, expected <binding>.time" ++
  match c.window anchorBinding with
  | some (back, forward) =>
      check (!(allowed < back || allowed < forward)) "ADGL0412" "window exceeds MAX_LOOKBACK"
  | none => [err "ADGL0411" "non calculable window expression"]

/-- The windows have to fit into the look-back, less the longest forward window. -/
def phase06Temporal (config : VerifyConfig) (ruleset : Ruleset) : DiagBuffer :=
  let allowed := saturatingSub config.maxLookbackMs (rulesetMaxForwardWindowMs ruleset)
  ruleset.rules.flatMap fun rule =>
    rule.correlates.flatMap (checkWindow rule.anchorBinding allowed)

/-! ### Phase 7: topology functions -/

def checkTopoCall (env : RuleEnv) (topo : TopoPredicate) : DiagBuffer :=
  match resolveTopoFn topo.name with
  | none => [err "ADGL0420" "unknown topology function"]
  | some topoFn =>
      let argScopes := topo.args.filterMap (inferTargetScopeExpr catalog env)
      check (topoFn.arity == topo.args.length) "ADGL0421" "topology function arity mismatch" ++
      topo.args.flatMap (fun arg => check (inferTargetScopeExpr catalog env arg).isSome "ADGL0421"
        "topology args must be scope-id paths") ++
      match argScopes with
      | [a, b] => check (!(topo.name == "upstream_of" && a != b)) "ADGL0421"
          "upstream_of requires same scope type for both args"
      | _ => []

def phase07TopologySignatures (ruleset : Ruleset) : DiagBuffer :=
  ruleset.rules.flatMap fun rule =>
    rule.correlates.flatMap fun c => checkTopoCall catalog (.forRule rule) c.topo

/-! ### Phase 8: cycles of rules -/

/-- Whether running a statement can wake the decision rule. -/
def wakes (stmt : Stmt) (rule : RuleDecl) : Bool :=
  match stmt, rule with
  | .infer i, .decision { anchor := .cause c, .. } => i.cause == c.cause
  | .emit e, .decision { anchor := .problem p, .. } => e.problem == p.problem
  | _, _ => false

/-- The positions of the rules that each rule can wake. -/
def rulesetEdges (ruleset : Ruleset) : List (List Nat) :=
  ruleset.rules.map fun rule => rule.gatherStatements.flatMap fun stmt =>
    (ruleset.rules.zipIdx.filter fun entry => wakes stmt entry.1).map Prod.snd

inductive Mark where
  | white | grey | black
deriving DecidableEq, Repr

/-- Visit the white successors. A grey one closes a cycle. -/
def dfsNexts (visit : Nat → List Mark → Bool × List Mark) :
    List Nat → List Mark → Bool × List Mark
  | [], state => (false, state)
  | next :: nexts, state =>
      match state[next]?.getD .black with
      | .grey => (true, state)
      | .black => dfsNexts visit nexts state
      | .white =>
          match visit next state with
          | (true, state) => (true, state)
          | (false, state) => dfsNexts visit nexts state

/-- Depth-first search from a node. The fuel is the number of nodes that can still
turn grey. -/
def dfsCycle (edges : List (List Nat)) : Nat → Nat → List Mark → Bool × List Mark
  | 0, _, state => (false, state)
  | fuel + 1, node, state =>
      match dfsNexts (dfsCycle edges fuel) (edges[node]?.getD []) (state.set node .grey) with
      | (true, state) => (true, state)
      | (false, state) => (false, state.set node .black)

def hasCycle (edges : List (List Nat)) : Bool :=
  ((List.range edges.length).foldl (fun found node => match found with
    | (true, state) => (true, state)
    | (false, state) => if state[node]? = some Mark.white then dfsCycle edges edges.length node state
        else (false, state)) (false, List.replicate edges.length .white)).1

def phase08Acyclicity (ruleset : Ruleset) : DiagBuffer :=
  check (!hasCycle (rulesetEdges ruleset)) "ADGL0410" "cyclic rule dependency detected"

/-! ### Phase 9: exclusive causes -/

def pairsInOrder {α : Type} : List α → List (α × α)
  | [] => []
  | x :: xs => xs.map (fun y => (x, y)) ++ pairsInOrder xs

def orderedPair (a b : String) : String × String := if a ≤ b then (a, b) else (b, a)

def redundantPair (a b : String) : Bool :=
  match catalog.resolveCause a, catalog.resolveCause b with
  | some sa, some sb => !sa.validScopes.any sb.validScopes.contains
  | _, _ => false

/-- The pairs of a group, with the pairs of the groups before it. -/
def checkPairs (seen : List (String × String)) :
    List (String × String) → DiagBuffer × List (String × String)
  | [] => ([], seen)
  | (a, b) :: pairs =>
      let (diags, seen') := checkPairs (orderedPair a b :: seen) pairs
      (check (!seen.contains (orderedPair a b)) "ADGL0440" "overlapping exclusivity pair" ++
        (if redundantPair catalog a b then
          [warn "ADGL0502" "redundant exclusivity pair has no common scope"] else []) ++ diags,
        seen')

def checkGroups (seen : List (String × String)) : List Decl → DiagBuffer
  | [] => []
  | .requires _ :: decls => checkGroups seen decls
  | .mutuallyExclusive idents :: decls =>
      let (diags, seen') := checkPairs catalog seen (pairsInOrder idents)
      check (idents.length ≤ maxExclusivityGroup) "ADGL0441"
        "mutually_exclusive group is too large" ++
      idents.flatMap (fun id => check (catalog.resolveCause id).isSome "ADGL0202"
        "unknown cause in exclusivity group") ++
      diags ++ checkGroups seen' decls

def phase09Exclusivity (ruleset : Ruleset) : DiagBuffer := checkGroups catalog [] ruleset.decls

/-! ### Phases 10 to 12: rule kinds, limits, privacy -/

def phase10Bipartite (ruleset : Ruleset) : DiagBuffer :=
  ruleset.rules.flatMap fun rule => rule.gatherStatements.flatMap fun stmt =>
    match rule, stmt with
    | .evidence _, .emit _ => [err "ADGL0450" "evidence rule cannot emit Problem"]
    | .decision _, .infer _ => [err "ADGL0450" "decision rule cannot infer Cause"]
    | _, _ => []

/-- The expressions whose depth is bounded. -/
def Ast.RuleDecl.boundedExprs (rule : RuleDecl) : List Expr :=
  rule.predicates ++
  rule.correlates.flatMap (fun c => [c.time.probe, c.time.start, c.time.end_]) ++
  rule.gatherStatements.flatMap Stmt.targets

def maxExprDepthRule (rule : RuleDecl) : Nat :=
  rule.boundedExprs.foldl (fun acc e => max acc e.depth) 0

def requiresCount (decls : List Decl) : Nat :=
  (decls.map fun
    | .requires capabilities => capabilities.length
    | .mutuallyExclusive _ => 0).sum

def checkLimits (rule : RuleDecl) : DiagBuffer :=
  check (rule.correlates.length ≤ maxCorrelatesPerRule) "ADGL0204" "too many correlate blocks" ++
  check (rule.gatherStatements.length ≤ maxIntentsPerRule) "ADGL0205"
    "too many infer/emit/action intents" ++
  check (maxExprDepthRule rule ≤ maxNesting) "ADGL0103" "nesting exceeds supported maximum"

def phase11DosLimits (config : VerifyConfig) (ruleset : Ruleset) : DiagBuffer :=
  check (1 ≤ config.dedupWindowMs) "ADGL0503" "dedup window must be at least 1ms" ++
  check (requiresCount ruleset.decls ≤ maxRequires) "ADGL0105" "too many requires entries" ++
  ruleset.rules.flatMap checkLimits

/-- The private fields of events, under the names of their bindings in any rule. -/
def phase12PrivacyAnnotations (ruleset : Ruleset) : List String :=
  ruleset.rules.flatMap fun rule => (RuleEnv.forRule rule).bindings.entries.flatMap fun entry =>
    match entry.2 with
    | .event event =>
        (catalog.resolveEvent event).elim [] fun schema =>
          (schema.fields.filter FieldSchema.pii).map fun field => entry.1 ++ "." ++ field.name
    | _ => []

/-- The diagnostics of all phases that can reject a ruleset. -/
def runPhases (config : VerifyConfig) (ruleset : Ruleset) : DiagBuffer :=
  phase01CatalogResolution catalog ruleset ++ phase02NameAndTypecheck catalog ruleset ++
  phase03EffectInPure ruleset ++ phase04Capability catalog ruleset ++
  phase05ScopeTarget catalog ruleset ++ phase06Temporal config ruleset ++
  phase07TopologySignatures catalog ruleset ++ phase08Acyclicity ruleset ++
  phase09Exclusivity catalog ruleset ++ phase10Bipartite ruleset ++
  phase11DosLimits config ruleset

end Phases

end Adgl
