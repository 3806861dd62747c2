import NFdl.Adgl.Verify
import Mathlib.Data.List.Sort

/-!
# Lowering to the intermediate representation

A ruleset without errors is lowered rule by rule: predicates become straight-line
code, windows become offsets and statements become intents. Lowering pushes
diagnostics of its own, and an error among them rejects the ruleset as well.
-/

namespace Adgl

open Ast

/-! ### Predicates -/

/-- The code so far, the next free slot and the diagnostics. -/
structure CompileState where
  ops : List PredOp
  next : Nat
  diags : DiagBuffer

namespace CompileState

def empty : CompileState := ⟨[], 0, []⟩

def emit (st : CompileState) (op : PredOp) : CompileState := { st with ops := st.ops ++ [op] }

def complain (st : CompileState) (diag : Diagnostic) : CompileState :=
  { st with diags := st.diags ++ [diag] }

/-- A fresh slot, or the first one with an error when there are no more. -/
def alloc (st : CompileState) : SlotIdx × CompileState :=
  let st' := { st with next := min (st.next + 1) 255 }
  match SlotIdx.new st.next with
  | some slot => (slot, st')
  | none => (0, st'.complain (err "ADGL0205" "predicate exceeded max slots"))

/-- Store the result of one operation in a fresh slot. -/
def push (st : CompileState) (op : SlotIdx → PredOp) : Option SlotIdx × CompileState :=
  let (dst, st) := st.alloc
  (some dst, st.emit (op dst))

end CompileState

/-- The operation of a binary operator. Membership has none. -/
def Ast.BinaryOp.predOp (lhs rhs : SlotIdx) : BinaryOp → Option (SlotIdx → PredOp)
  | .or => some (.or lhs rhs)
  | .and => some (.and lhs rhs)
  | .eq => some (.cmp .eq lhs rhs)
  | .ne => some (.cmp .ne lhs rhs)
  | .lt => some (.cmp .lt lhs rhs)
  | .le => some (.cmp .le lhs rhs)
  | .gt => some (.cmp .gt lhs rhs)
  | .ge => some (.cmp .ge lhs rhs)
  | .in_ => none
  | .add => some (.arith .add lhs rhs)
  | .sub => some (.arith .sub lhs rhs)
  | .mul => some (.arith .mul lhs rhs)
  | .div => some (.arith .div lhs rhs)
  | .rem => some (.arith .mod lhs rhs)

def loadField (ty : BindingTy) (binding : BindingIdx) (field : FieldIdx) : SlotIdx → PredOp :=
  match ty with
  | .event _ => .loadEventField binding field
  | .cause _ => .loadCauseField binding field
  | .problem _ => .loadProblemField binding field

def RuleEnv.indexOf (env : RuleEnv) (name : String) : BindingIdx :=
  (env.bindingIdx.lookup name).getD 0

section Lowering

variable (catalog : Catalog)

/-- Compile an expression: the operands first, then one operation on their slots. -/
def compileExpr (env : RuleEnv) : Expr → CompileState → Option SlotIdx × CompileState
  | .int value, st => st.push (.loadConst value)
  | .duration millis, st => st.push (.loadDuration (.ofMillis millis))
  | .string value, st => st.push (.loadConst (stableStringI64 value))
  | .bool value, st => st.push (.loadConst (if value then 1 else 0))
  | .ident name, st =>
      if name = "scope" then st.push .loadScopeKey
      else (none, st.complain (err "ADGL0501" "bare identifier is not a predicate value"))
  | .present name, st => st.push (.present (env.indexOf name))
  | .absent name, st => st.push (.absent (env.indexOf name))
  | .field base field, st =>
      match base with
      | .ident id =>
          match env.bindings.lookup id with
          | none => (none, st.complain (err "ADGL0209" "unknown binding"))
          | some ty =>
              match catalog.resolveMetricPath ty (id ++ "." ++ field) with
              | none => (none, st)
              | some (fieldIdx, fieldTy) =>
                  if isIntListType fieldTy then (none, st.complain rejectIntlistPredicateUse)
                  else st.push (loadField ty (env.indexOf id) fieldIdx)
      | _ => (none, st.complain (err "ADGL0501" "field access base must be a binding"))
  | .unary .not expr, st =>
      match compileExpr env expr st with
      | (none, st) => (none, st)
      | (some src, st) => st.push (.not src)
  | .binary op left right, st =>
      match compileExpr env left st with
      | (none, st) => (none, st)
      | (some lhs, st) =>
          match compileExpr env right st with
          | (none, st) => (none, st)
          | (some rhs, st) =>
              match op.predOp lhs rhs with
              | some predOp => st.push predOp
              | none => (none, st.alloc.2.complain rejectIntlistPredicateUse)
  | .call _ _, st => (none, st.complain (err "ADGL0501" "calls are not allowed in pure positions"))
  | .index _ _, st =>
      (none, st.complain (err "ADGL0501" "indexing is not supported in predicates"))

def compilePredicate (env : RuleEnv) (expr : Expr) : Predicate × DiagBuffer :=
  let (result, st) := compileExpr catalog env expr .empty
  (⟨st.ops, result.getD 0⟩, st.diags)

/-! ### Correlates and statements -/

/-- A path `<binding>.<field>`, or a binding alone. -/
def metricPathFromExpr : Expr → Option MetricPath
  | .field (.ident id) field => some ⟨id ++ "." ++ field⟩
  | .ident id => some ⟨id⟩
  | _ => none

def lowerSource (c : CorrelateBlock) : CorrelateSource :=
  match c.source with
  | .event kind => .event (kindIdentName kind)
  | .cause name => .cause name
  | .problem name => .problem name

def lowerWindow (anchorBinding : String) (c : CorrelateBlock) : WindowProof :=
  match c.window anchorBinding with
  | some (back, forward) => .calculable (.ofMillis back) (.ofMillis forward)
  | none => .runtimeCheck

def lowerMinMatch : Option Nat → Except Diagnostic Nat
  | none => .ok 1
  | some count =>
      if count = 0 then .error (err "ADGL0504" "min match count must be at least 1")
      else if 32 < count then
        .error (err "ADGL0505" "min match count exceeds maximum of 32 per correlate")
      else .ok count

def lowerCorrelate (anchorBinding : String) (c : CorrelateBlock) :
    Option CorrelateSpec × DiagBuffer :=
  match resolveTopoFn c.topo.name with
  | none => (none, [])
  | some topoFn =>
      match c.topo.args.mapM metricPathFromExpr with
      | none => (none, [err "ADGL0421" "topology arg must be a metric path"])
      | some args =>
          match lowerMinMatch c.minMatch with
          | .error diag => (none, [diag])
          | .ok minMatch =>
              (some {
                binding := c.binding
                source := lowerSource c
                topo := ⟨c.topo.name, topoFn.funcIdx, args⟩
                window := lowerWindow anchorBinding c
                minMatch := minMatch }, [])

/-- Lower the correlates up to the first one that cannot be lowered. -/
def lowerCorrelates (anchorBinding : String) :
    List CorrelateBlock → Option (List CorrelateSpec) × DiagBuffer
  | [] => (some [], [])
  | c :: cs =>
      match lowerCorrelate anchorBinding c with
      | (none, diags) => (none, diags)
      | (some spec, diags) =>
          let (specs, diags') := lowerCorrelates anchorBinding cs
          (specs.map (spec :: ·), diags ++ diags')

/-- The private paths of the bindings that are listed as evidence, sorted. -/
def evidencePii (piiPaths evidence : List String) : List MetricPath :=
  ((piiPaths.filter fun path => evidence.any fun sym =>
    (sym ++ ".").toList.isPrefixOf path.toList).dedup.insertionSort (· ≤ ·)).map MetricPath.mk

def Ast.InferField.evidence? : InferField → Option (List String)
  | .evidence ids => some ids
  | _ => none

def Ast.EmitField.evidence? : EmitField → Option (List String)
  | .evidence ids => some ids
  | _ => none

def Ast.ActionField.evidence? : ActionField → Option (List String)
  | .evidence ids => some ids
  | _ => none

def lowerInfer (piiPaths : List String) (ruleId : RuleId) (infer : InferStmt) :
    Option Intent × DiagBuffer :=
  match (infer.fields.filterMap InferField.target?).findSome? metricPathFromExpr with
  | none => (none, [err "ADGL0210" "infer requires an explicit target field"])
  | some target =>
      let weightVal := ((infer.fields.findSome? InferField.weightValue).getD 0).toInt
      if weightVal < -128 ∨ 127 < weightVal then
        (none, [err "ADGL0205" "weight out of i8 range"])
      else match Weight.new weightVal with
      | none => (none, [err "ADGL0205" "weight out of allowed range [-100,100]"])
      | some weight =>
          let evidence := (infer.fields.findSome? InferField.evidence?).getD []
          (some (.inferCause infer.cause target weight evidence
            ⟨ruleId, infer.cause, stableHashU64 target.asStr⟩ (evidencePii piiPaths evidence)), [])

def lowerEmit (piiPaths : List String) (emit : EmitStmt) : Intent :=
  let schema := catalog.resolveProblem emit.problem
  let evidence := (emit.fields.findSome? EmitField.evidence?).getD []
  let severity := (emit.fields.findSome? fun
    | .severity sev => some sev
    | _ => none).or (schema.bind ProblemSchema.severity)
  let sarifId := (emit.fields.findSome? fun
    | .sarifId id => some id
    | _ => none).or (schema.map ProblemSchema.defaultSarifId)
  .emitProblem emit.problem
    ((emit.fields.filterMap EmitField.target?).findSome? metricPathFromExpr)
    (severity.getD .medium) evidence (sarifId.getD "unknown") (evidencePii piiPaths evidence)

/-- A suppressed symptom is a superseded problem and an action. -/
def lowerAction (env : RuleEnv) (action : ActionStmt) : Option (List Intent) × DiagBuffer :=
  match resolveAction (actionName action) with
  | none => (none, [])
  | some known =>
      let reason := action.fields.findSome? fun
        | .reason text => some text
        | _ => none
      let evidence := (action.fields.findSome? ActionField.evidence?).getD []
      if known.kind = .suppressSymptom then
        match action.arg with
        | none => (none, [err "ADGL0209" "suppress_symptom requires binding arg"])
        | some [binding] =>
            match env.bindings.lookup binding with
            | some (.problem problem) =>
                let target : MetricPath := ⟨binding ++ ".target"⟩
                (some [.supersedeProblem problem target,
                  .emitAction .suppressSymptom (some binding) (some target) reason evidence], [])
            | _ => (none, [err "ADGL0209" "suppress_symptom arg must be ProblemRef binding"])
        | some _ => (none, [err "ADGL0209" "suppress_symptom arg must be one binding"])
      else
        (some [.emitAction known.kind (action.arg.map kindIdentName)
          ((action.fields.filterMap ActionField.target?).findSome? metricPathFromExpr) reason
          evidence], [])

def lowerStmt (piiPaths : List String) (env : RuleEnv) (ruleId : RuleId) :
    Stmt → Option (List Intent) × DiagBuffer
  | .infer i => let (intent, diags) := lowerInfer piiPaths ruleId i; (intent.map ([·]), diags)
  | .emit e => (some [lowerEmit catalog piiPaths e], [])
  | .action a => lowerAction env a

/-- The intents of a block. -/
def lowerStmts (piiPaths : List String) (env : RuleEnv) (ruleId : RuleId) :
    List Stmt → List Intent × DiagBuffer
  | [] => ([], [])
  | stmt :: stmts =>
      let (intents, diags) := lowerStmt catalog piiPaths env ruleId stmt
      let (intents', diags') := lowerStmts piiPaths env ruleId stmts
      (intents.getD [] ++ intents', diags ++ diags')

/-! ### Rules -/

def lowerAnchorSource (rule : RuleDecl) : AnchorSource :=
  match rule.anchorTy with
  | .event event => .event event
  | .cause cause => .cause cause
  | .problem problem => .problem problem

def Ast.RuleDecl.kind : RuleDecl → RuleKind
  | .evidence _ => .evidence
  | .decision _ => .decision

/-- The forward and backward reach of the windows that are known. -/
def windowReach (reach : WindowProof → Option DurationMs) (correlates : List CorrelateSpec) :
    DurationMs :=
  (correlates.filterMap fun c => reach c.window).foldl max .zero

def WindowProof.back? : WindowProof → Option DurationMs
  | .calculable back _ => some back
  | .runtimeCheck => none

def WindowProof.forward? : WindowProof → Option DurationMs
  | .calculable _ forward => some forward
  | .runtimeCheck => none

/-- Asked for when a test of a binding is undecided. -/
def unknownBody (condition : Expr) : List Intent :=
  if condition.containsPresentAbsent then [.emitAction .requestTopology none none none []] else []

def lowerBranches (piiPaths : List String) (env : RuleEnv) (ruleId : RuleId)
    (ifElse : IfElseBlock) : BranchTable × DiagBuffer :=
  let (cond, diags) := compilePredicate catalog env ifElse.condition
  let (thenBody, diags') := lowerStmts catalog piiPaths env ruleId ifElse.thenBody
  let (elseIntents, diags'') :=
    lowerStmts catalog piiPaths env ruleId (ifElse.elseBody.getD [])
  ({ cond := cond
     thenBody := thenBody
     elseBody := if elseIntents.isEmpty then none else some elseIntents
     unknownBody := unknownBody ifElse.condition }, diags ++ diags' ++ diags'')

def lowerAnchorPredicate (env : RuleEnv) (rule : RuleDecl) : Predicate × DiagBuffer :=
  match rule.anchorPredicate with
  | some predicate => compilePredicate catalog env predicate
  | none => (.alwaysTrue, [])

def lowerRule (piiPaths : List String) (rule : RuleDecl) : Option RuleInstance × DiagBuffer :=
  let env := RuleEnv.forRule rule
  let (predicate, diags) := lowerAnchorPredicate catalog env rule
  match lowerCorrelates rule.anchorBinding rule.correlates with
  | (none, diags') => (none, diags ++ diags')
  | (some correlates, diags') =>
      let (body, bodyDiags) := lowerStmts catalog piiPaths env rule.name rule.body
      let branches := rule.ifElse.map (lowerBranches catalog piiPaths env rule.name)
      (some {
        id := rule.name
        kind := rule.kind
        scope := rule.scope
        anchor := ⟨rule.anchorBinding, lowerAnchorSource rule, predicate⟩
        correlates := correlates
        branches := branches.map Prod.fst
        body := body
        annotations := ⟨windowReach WindowProof.back? correlates,
          windowReach WindowProof.forward? correlates, some rule.scope⟩ },
        diags ++ diags' ++ bodyDiags ++ (branches.map Prod.snd).getD [])

def lowerToImage (ruleset : Ruleset) : ProgramImage × DiagBuffer :=
  let piiPaths := phase12PrivacyAnnotations catalog ruleset
  let lowered := ruleset.rules.map (lowerRule catalog piiPaths)
  (.new ruleset.name
    (ruleset.decls.filterMap fun
      | .mutuallyExclusive idents => some ⟨idents⟩
      | .requires _ => none)
    (lowered.filterMap Prod.fst), lowered.flatMap Prod.snd)

/-- Verify a ruleset and lower it, or reject it with the diagnostics. -/
def verifyWithConfig (config : VerifyConfig) (ruleset : Ruleset) :
    Except DiagBuffer ProgramImage :=
  let diags := runPhases catalog config ruleset
  if hasErrors diags then .error diags
  else
    let (image, diags') := lowerToImage catalog ruleset
    if hasErrors (diags ++ diags') then .error (diags ++ diags') else .ok image

end Lowering

end Adgl
