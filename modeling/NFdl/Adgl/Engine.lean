import NFdl.Adgl.Correlate

/-!
# The engine

An event is routed into the ring of its scope, the watermark advances, matches
whose windows have closed are resumed, the rings are swept, and the rules anchored
on the event are matched. A rule that runs resolves its bindings and executes
intents; a change of a confidence or an emission runs decision rules in turn,
within a budget of firings.
-/

namespace Adgl

/-- A resolved action, as it is handed to the sink. -/
structure ActionIntent where
  kind : ActionKind
  rule : RuleId
  arg : Option Symbol
  target : Option ScopeId
  targetPath : Option MetricPath
  reason : Option String
  evidence : List EdgeEndpoint
  causes : Option (CauseKind × CauseKind)
deriving DecidableEq, Repr

/-- A correlate that resolved absent, with its window. -/
structure ResolvedAbsent where
  scope : ScopeId
  rule : RuleId
  eventType : EventType
  lo : EventTime
  hi : EventTime
deriving DecidableEq, Repr

/-- The correlates on events that resolved absent, with their windows. -/
def absentCorrelates (rule : RuleInstance) (bindings : List Binding) (anchor : Bound)
    (scope : ScopeId) : List ResolvedAbsent :=
  rule.correlates.zipIdx.filterMap fun entry =>
    match bindings[entry.2 + 1]?, entry.1.source, entry.1.window with
    | some .absent, .event eventType, .calculable back fwd =>
        some ⟨scope, rule.id, eventType, anchor.time.sub back, anchor.time.add fwd⟩
    | _, _, _ => none

/-- The live watermark of one source. -/
structure SourceWm where
  localWm : EventTime
  lastSeenWall : EventTime
deriving DecidableEq, Repr

/-- That the bindings of a rule were resolved, and at which watermark. -/
structure Resolution where
  rule : RuleInstance
  anchor : Bound
  scope : ScopeId
  bindings : List Binding
  wm : EventTime

/-- That a rule suspended a match. -/
structure Suspension where
  rule : RuleInstance
  anchor : EventNode
  pending : PendingMatch

/-- What has happened so far. The program keeps no such record: nothing is computed
from it, and it only serves to say what happens in a run. -/
structure Trace where
  resolutions : List Resolution
  suspensions : List Suspension

abbrev ScopeSet := SortedMap ScopeId Unit

/-- The state of an engine. The log of what the sink received stands for the sink,
and the trace is not part of the program. -/
structure Engine where
  store : GraphStore
  interner : ScopeInterner
  diagnostics : List EngineDiagnostic
  touched : ScopeSet
  nextNodeId : Nat
  lastEventTime : Option EventTime
  finished : Bool
  suspended : Nat
  resumed : Nat
  lateSideOutput : List EventNode
  resolvedAbsent : List ResolvedAbsent
  sources : Table ScopeId SourceWm
  wallClock : EventTime
  sinkLog : List (ActionIntent × RunMode × EventTime)
  trace : Trace

namespace Engine

def new : Engine where
  store := .new
  interner := ∅
  diagnostics := []
  touched := .empty
  nextNodeId := 0
  lastEventTime := none
  finished := false
  suspended := 0
  resumed := 0
  lateSideOutput := []
  resolvedAbsent := []
  sources := ∅
  wallClock := .minimum
  sinkLog := []
  trace := ⟨[], []⟩

def report (e : Engine) (diags : List EngineDiagnostic) : Engine :=
  { e with diagnostics := e.diagnostics ++ diags }

/-- Note a partition and make its scope known as a target. -/
def touch (e : Engine) (scope : ScopeId) : Engine :=
  { e with touched := e.touched.insert scope (), interner := e.interner.intern scope }

def internScope (e : Engine) (scope : ScopeId) : Engine :=
  { e with interner := e.interner.intern scope }

def openPartition (e : Engine) (scope : ScopeId) : Engine :=
  { e with store := e.store.openPartition scope }

def setPartition (e : Engine) (scope : ScopeId) (g : SubGraph) : Engine :=
  { e with store := e.store.setPartition scope g }

def setNextNodeId (e : Engine) (id : Nat) : Engine := { e with nextNodeId := id }

/-- Hand an action to the sink. -/
def emit (e : Engine) (host : Host) (intent : ActionIntent) : Engine :=
  { e with sinkLog := e.sinkLog ++ [(intent, host.mode, e.store.watermark)] }

/-- Remember the correlates that resolved absent, for the audit of late evidence. -/
def recordResolvedAbsent (e : Engine) (rule : RuleInstance) (bindings : List Binding)
    (anchor : Bound) (scope : ScopeId) : Engine :=
  { e with resolvedAbsent := e.resolvedAbsent ++ absentCorrelates rule bindings anchor scope }

def recordResolution (e : Engine) (r : Resolution) : Engine :=
  { e with trace := { e.trace with resolutions := e.trace.resolutions ++ [r] } }

def recordSuspension (e : Engine) (s : Suspension) : Engine :=
  { e with trace := { e.trace with suspensions := e.trace.suspensions ++ [s] } }

end Engine

/-- Mix the hash of a target expression with the scope that it denotes. -/
def mixTarget (exprHash targetKey : UInt64) : UInt64 :=
  let z := exprHash ^^^ (targetKey * 0x9E3779B97F4A7C15)
  let z := (z ^^^ (z >>> 30)) * 0xBF58476D1CE4E5B9
  let z := (z ^^^ (z >>> 27)) * 0x94D049BB133111EB
  z ^^^ (z >>> 31)

/-- The key under which an inference is counted. -/
def runtimeProvKey (provenanceKey : ProvKey) (target : ScopeId) (time : EventTime)
    (dedupWindow : DurationMs) : RuntimeProvKey where
  key := { provenanceKey with
    targetExprHash := mixTarget provenanceKey.targetExprHash target.hashKey }
  windowId := windowId time dedupWindow

/-- The exclusivity groups of the image, with the default pairs of the catalog that
are not among them. -/
def effectiveExclusivityGroups (host : Host) : List ExclusivityGroup :=
  host.catalog.exclusivityDefaults.foldl (fun groups pair =>
    if groups.any fun g => g.causes == [pair.1, pair.2] || g.causes == [pair.2, pair.1] then groups
    else groups ++ [⟨[pair.1, pair.2]⟩]) host.image.exclusivity

def absDiff (a b : Nat) : Nat := (a - b) + (b - a)

def orderedCauses (a b : CauseKind) : CauseKind × CauseKind := if a ≤ b then (a, b) else (b, a)

/-- An engine with what is left of the budget of firings. -/
structure Run where
  engine : Engine
  budget : Nat

namespace Run

/-- Change the engine only. -/
def map (run : Run) (f : Engine → Engine) : Run := { run with engine := f run.engine }

def report (run : Run) (diags : List EngineDiagnostic) : Run := run.map (·.report diags)

@[simp] theorem map_engine (run : Run) (f : Engine → Engine) : (run.map f).engine = f run.engine :=
  rfl

@[simp] theorem map_budget (run : Run) (f : Engine → Engine) : (run.map f).budget = run.budget :=
  rfl

end Run

/-- How a rule is run on an anchor in a scope. -/
abbrev Fire := RuleInstance → Bound → ScopeId → Run → Run

variable (host : Host)

/-! ### Inference -/

/-- Apply an inference to the partition: nothing happens if the partition is full or
the key was seen. -/
def applyInfer (cause : CauseKind) (target : ScopeId) (weight : Weight) (key : RuntimeProvKey)
    (endpoints : List EdgeEndpoint) (anchorTime : EventTime) (scope : ScopeId) (e : Engine) :
    Engine × Option CauseSnapshot :=
  let e := e.openPartition scope
  let part := e.store.partitionOf scope
  let existing := part.causes.lookup (cause, target)
  if existing.isNone && host.limits.maxCausesPerScope ≤ part.causes.entries.length then
    (e.report [.causeCapacity scope], none)
  else
    match part.tryInsertProvenance key with
    | none => (e, none)
    | some part =>
        let candidateNodeId := e.nextNodeId + 1
        let node := existing.getD
          ⟨candidateNodeId, cause, target, anchorTime, .minimum, [], []⟩
        let node : CauseNode := { node with
          confidence := node.confidence.apply weight
          provenance := node.provenance ++ [key] }
        let edgeKind : EvidenceEdgeKind := if weight.isSupporting then .supports else .contradicts
        let part : SubGraph := { part with
          causes := AList.insert (cause, target) node part.causes
          edges := part.edges ++ endpoints.map fun src => ⟨edgeKind, src, node.id⟩ }
        let e := e.setPartition scope part
        let e := if existing.isNone then e.setNextNodeId candidateNodeId else e
        (e, some ⟨node.id, cause, target, node.time, node.confidence⟩)

/-- The greatest confidence of a cause among the partitions below a scope. -/
def childConfidence (cause : CauseKind) (target parentScope : ScopeId) (e : Engine) : Confidence :=
  e.touched.entries.foldl (fun best entry =>
    if entry.1 = parentScope ∨ !entry.1.scopeType.isSubsumedBy parentScope.scopeType then best
    else
      match (e.store.partition entry.1).bind fun part => part.causes.lookup (cause, target) with
      | some node => if best.value ≤ node.confidence.value then node.confidence else best
      | none => best) .minimum

/-- Set the cause in the parent partition to the greatest confidence below it. -/
def applyRollup (cause : CauseKind) (target childScope : ScopeId) (e : Engine) :
    Engine × Option CauseSnapshot :=
  let parentScope := target
  let maxConf := childConfidence cause target parentScope e
  let childNode := ((e.store.partition childScope).bind fun part =>
    part.causes.lookup (cause, target)).map CauseNode.id
  let e := (e.touch parentScope).openPartition parentScope
  let part := e.store.partitionOf parentScope
  let existing := part.causes.lookup (cause, target)
  if existing.isNone && host.limits.maxCausesPerScope ≤ part.causes.entries.length then
    (e.report [.causeCapacity parentScope], none)
  else
    let candidateNodeId := e.nextNodeId + 1
    let node := existing.getD
      ⟨candidateNodeId, cause, target, e.store.watermark, .minimum, [], []⟩
    let node : CauseNode := { node with confidence := maxConf }
    let edges := match childNode with
      | some src =>
          let edge : EvidenceEdge := ⟨.rollsUp, .node src, node.id⟩
          if edge ∈ part.edges then part.edges else part.edges ++ [edge]
      | none => part.edges
    let part : SubGraph := { part with
      causes := AList.insert (cause, target) node part.causes
      edges := edges }
    let e := e.setPartition parentScope part
    let e := if existing.isNone then e.setNextNodeId candidateNodeId else e
    (e, some ⟨node.id, cause, target, node.time, node.confidence⟩)

/-! ### Ambiguity -/

/-- The two causes are both probable and too close to call: they become an
ambiguity, with a problem, unless they are one already. -/
def raiseAmbiguity (snapshot : CauseSnapshot) (scope : ScopeId) (other : CauseKind) (e : Engine) :
    Engine :=
  let wm := e.store.watermark
  let e := e.openPartition scope
  let pair := orderedCauses snapshot.kind other
  let part := e.store.partitionOf scope
  match part.ambiguities.lookup (pair, snapshot.target) with
  | some _ => e
  | none =>
      let ambNodeId := e.nextNodeId + 1
      let problemNodeId := ambNodeId + 1
      let schema := host.catalog.resolveProblem "AmbiguousDiagnosis"
      let otherNode := (part.causes.lookup (other, snapshot.target)).map CauseNode.id
      let problem : ProblemNode := {
        id := problemNodeId
        kind := "AmbiguousDiagnosis"
        target := snapshot.target
        time := wm
        severity := (schema.bind ProblemSchema.severity).getD .medium
        evidence := snapshot.node :: (otherNode.filter (· ≠ snapshot.node)).toList
        sarifId := (schema.map ProblemSchema.defaultSarifId).getD "ap_ambiguous"
        superseded := false }
      let part : SubGraph := { part with
        ambiguities := AList.insert (pair, snapshot.target)
          ⟨ambNodeId, pair, snapshot.target, .active⟩ part.ambiguities }
      ((e.setPartition scope (part.pushProblem problem)).setNextNodeId problemNodeId).emit host
        { kind := .markAmbiguous, rule := host.image.rulesetId, arg := none
          target := some snapshot.target, targetPath := none, reason := none, evidence := []
          causes := some pair }

/-- One cause is confirmed or the two are apart: their ambiguity is resolved. -/
def resolveAmbiguity (snapshot : CauseSnapshot) (scope : ScopeId) (other : CauseKind)
    (e : Engine) : Engine :=
  let e := e.openPartition scope
  let part := e.store.partitionOf scope
  let key := (orderedCauses snapshot.kind other, snapshot.target)
  match part.ambiguities.lookup key with
  | some node =>
      e.setPartition scope { part with
        ambiguities := AList.insert key { node with state := .resolved } part.ambiguities }
  | none => e

/-- Compare the changed cause with one it excludes. -/
def compareCauses (snapshot : CauseSnapshot) (scope : ScopeId) (e : Engine) (other : CauseKind) :
    Engine :=
  let c1 := snapshot.confidence
  let c2 := (((e.store.partition scope).bind fun part =>
    part.causes.lookup (other, snapshot.target)).map CauseNode.confidence).getD .minimum
  let close := absDiff c1.value c2.value < 15
  if c1.isProbable && c2.isProbable && close then raiseAmbiguity host snapshot scope other e
  else if c1.isConfirmed || c2.isConfirmed || !close then resolveAmbiguity snapshot scope other e
  else e

/-- Compare the changed cause with all causes that it excludes. -/
def synthesizeAmbiguity (snapshot : CauseSnapshot) (scope : ScopeId) (e : Engine) : Engine :=
  let others := (effectiveExclusivityGroups host).flatMap fun group =>
    if snapshot.kind ∈ group.causes then group.causes.filter (· ≠ snapshot.kind) else []
  others.foldl (compareCauses host snapshot scope) e

/-! ### Cascades -/

/-- Run a decision rule on its anchor if the anchor's predicate is true. -/
def fireIfMatched (fire : Fire) (anchor : Bound) (scope : ScopeId) (run : Run)
    (rule : RuleInstance) : Run :=
  let matched := evalPred host run.engine.interner rule rule.anchor.predicate [.bound anchor] scope
  let run := run.report matched.2
  if matched.1 = some .true then fire rule anchor scope run else run

/-- A confidence has changed: decision rules on the cause, then ambiguities. -/
def onConfidenceMutation (fire : Fire) (snapshot : CauseSnapshot) (scope : ScopeId) (run : Run) :
    Run :=
  let rules := host.image.rulesFor (.cause snapshot.kind) scope.scopeType .decision
  (rules.foldl (fireIfMatched host fire (.cause snapshot) scope) run).map
    (synthesizeAmbiguity host snapshot scope)

/-- A problem was emitted: decision rules on the problem. -/
def onProblemEmission (fire : Fire) (snapshot : ProblemSnapshot) (scope : ScopeId) (run : Run) :
    Run :=
  let rules := host.image.rulesFor (.problem snapshot.kind) scope.scopeType .decision
  rules.foldl (fireIfMatched host fire (.problem snapshot) scope) run

/-- Follow up what has become of a cause, if it changed. -/
def followUp (fire : Fire) (scope : ScopeId) (applied : Engine × Option CauseSnapshot)
    (run : Run) : Run :=
  let run : Run := { run with engine := applied.1 }
  match applied.2 with
  | some mutation => onConfidenceMutation host fire mutation scope run
  | none => run

/-- Roll a cause up into the partition of its target. -/
def rollupCauseToParent (fire : Fire) (cause : CauseKind) (target childScope : ScopeId)
    (run : Run) : Run :=
  followUp host fire target (applyRollup host cause target childScope run.engine) run

/-! ### Intents -/

/-- Continue with the scope that a target expression denotes, else report it. -/
def withTarget (rule : RuleInstance) (path : MetricPath) (bindings : List Binding) (run : Run)
    (k : ScopeId → Run → Run) : Run :=
  let resolved := resolveTarget host run.engine.interner rule path bindings
  let run := run.report resolved.2
  match resolved.1 with
  | some target => k target run
  | none => run.report [.unresolvedTarget rule.id path]

def execInfer (fire : Fire) (rule : RuleInstance) (cause : CauseKind) (targetPath : MetricPath)
    (weight : Weight) (evidence : List Symbol) (provenanceKey : ProvKey) (bindings : List Binding)
    (anchor : Bound) (scope : ScopeId) (run : Run) : Run :=
  withTarget host rule targetPath bindings run fun target run =>
    let key := runtimeProvKey provenanceKey target anchor.time host.limits.dedupWindow
    let applied := applyInfer host cause target weight key
      (evidenceEndpoints rule evidence bindings) anchor.time scope run.engine
    let run := followUp host fire scope applied run
    if applied.2.isSome && scope ≠ target && scope.scopeType.isSubsumedBy target.scopeType then
      rollupCauseToParent host fire cause target scope run
    else run

/-- Append the problem, unless its rule emitted it within the cooldown. -/
def applyEmit (rule : RuleInstance) (problem : ProblemKind) (target : ScopeId)
    (severity : Severity) (evidence : List NodeId) (sarifId : SarifId) (scope : ScopeId)
    (e : Engine) : Engine × Option ProblemSnapshot :=
  let wm := e.store.watermark
  let nodeId := e.nextNodeId + 1
  let e := e.openPartition scope
  match (e.store.partitionOf scope).tryMarkEmitted rule.id problem target wm
      host.problemCooldown with
  | none => (e, none)
  | some part =>
      let node : ProblemNode := ⟨nodeId, problem, target, wm, severity, evidence, sarifId, false⟩
      ((e.setPartition scope (part.pushProblem node)).setNextNodeId nodeId, some node.snapshot)

def execEmitProblem (fire : Fire) (rule : RuleInstance) (problem : ProblemKind)
    (targetPath : Option MetricPath) (severity : Severity) (evidence : List Symbol)
    (sarifId : SarifId) (bindings : List Binding) (scope : ScopeId) (run : Run) : Run :=
  let emitTo (target : ScopeId) (run : Run) : Run :=
    let applied := applyEmit host rule problem target severity
      (evidenceNodes rule evidence bindings) sarifId scope run.engine
    let run : Run := { run with engine := applied.1 }
    match applied.2 with
    | some snapshot => onProblemEmission host fire snapshot scope run
    | none => run
  match targetPath with
  | some path => withTarget host rule path bindings run emitTo
  | none => emitTo scope run

/-- Emit a problem at a target, and run the decisions on it. -/
def emitProblemAt (fire : Fire) (rule : RuleInstance) (problem : ProblemKind) (severity : Severity)
    (evidence : List Symbol) (sarifId : SarifId) (bindings : List Binding) (scope target : ScopeId)
    (run : Run) : Run :=
  let applied := applyEmit host rule problem target severity
    (evidenceNodes rule evidence bindings) sarifId scope run.engine
  let run : Run := { run with engine := applied.1 }
  match applied.2 with
  | some snapshot => onProblemEmission host fire snapshot scope run
  | none => run

section EmitProblem

variable (fire : Fire) (rule : RuleInstance) (problem : ProblemKind) (severity : Severity)
  (evidence : List Symbol) (sarifId : SarifId) (bindings : List Binding) (scope : ScopeId)
  (run : Run)

theorem execEmitProblem_path (path : MetricPath) :
    execEmitProblem host fire rule problem (some path) severity evidence sarifId bindings scope run =
      withTarget host rule path bindings run
        (emitProblemAt host fire rule problem severity evidence sarifId bindings scope) := rfl

theorem execEmitProblem_scope :
    execEmitProblem host fire rule problem none severity evidence sarifId bindings scope run =
      emitProblemAt host fire rule problem severity evidence sarifId bindings scope scope run := rfl

end EmitProblem

def execAction (rule : RuleInstance) (kind : ActionKind) (arg : Option Symbol)
    (targetPath : Option MetricPath) (reason : Option String) (evidence : List Symbol)
    (bindings : List Binding) (run : Run) : Run :=
  let resolved := match targetPath with
    | some path => resolveTarget host run.engine.interner rule path bindings
    | none => (none, [])
  (run.report resolved.2).map (·.emit host
    { kind := kind, rule := rule.id, arg := arg, target := resolved.1, targetPath := targetPath
      reason := reason, evidence := evidenceEndpoints rule evidence bindings, causes := none })

/-- Mark the problems of a kind and target in the partition as superseded. -/
def applySupersede (problem : ProblemKind) (target scope : ScopeId) (e : Engine) : Engine :=
  let e := e.openPartition scope
  e.setPartition scope ((e.store.partitionOf scope).supersedeProblems problem target)

def execSupersede (rule : RuleInstance) (problem : ProblemKind) (targetPath : MetricPath)
    (bindings : List Binding) (scope : ScopeId) (run : Run) : Run :=
  withTarget host rule targetPath bindings run fun target run =>
    run.map (applySupersede problem target scope)

/-- Mark a pair of causes ambiguous, unless it is already. -/
def applyMark (pair : CauseKind × CauseKind) (target scope : ScopeId) (e : Engine) : Engine :=
  let e := e.openPartition scope
  let part := e.store.partitionOf scope
  match part.ambiguities.lookup (pair, target) with
  | some _ => e
  | none =>
      let nodeId := e.nextNodeId + 1
      (e.setPartition scope { part with
        ambiguities := AList.insert (pair, target) ⟨nodeId, pair, target, .active⟩
          part.ambiguities }).setNextNodeId nodeId

def execMarkAmbiguous (rule : RuleInstance) (causes : CauseKind × CauseKind)
    (targetPath : MetricPath) (bindings : List Binding) (scope : ScopeId) (run : Run) : Run :=
  withTarget host rule targetPath bindings run fun target run => run.map fun e =>
    let pair := orderedCauses causes.1 causes.2
    (applyMark pair target scope e).emit host
      { kind := .markAmbiguous, rule := rule.id, arg := none, target := some target
        targetPath := some targetPath, reason := none, evidence := [], causes := some pair }

def execIntent (fire : Fire) (rule : RuleInstance) (bindings : List Binding) (anchor : Bound)
    (scope : ScopeId) (run : Run) : Intent → Run
  | .inferCause cause target weight evidence provenanceKey _ =>
      execInfer host fire rule cause target weight evidence provenanceKey bindings anchor scope run
  | .emitProblem problem target severity evidence sarifId _ =>
      execEmitProblem host fire rule problem target severity evidence sarifId bindings scope run
  | .emitAction kind arg target reason evidence =>
      execAction host rule kind arg target reason evidence bindings run
  | .supersedeProblem problem target => execSupersede host rule problem target bindings scope run
  | .markAmbiguous causes target => execMarkAmbiguous host rule causes target bindings scope run

def execIntents (fire : Fire) (intents : List Intent) (rule : RuleInstance)
    (bindings : List Binding) (anchor : Bound) (scope : ScopeId) (run : Run) : Run :=
  intents.foldl (execIntent host fire rule bindings anchor scope) run

/-! ### Rules -/

/-- The intents that a rule executes: those of the selected branch, or its body
where it has no branches. -/
def selectedIntents (rule : RuleInstance) (truth : Option T3) : List Intent :=
  match rule.branches with
  | some table =>
      match truth with
      | some .true => table.thenBody
      | some .false => table.elseBody.getD []
      | some .unknown => table.unknownBody
      | none => []
  | none => rule.body

/-- The truth of a rule's condition. -/
def branchTruth (interner : ScopeInterner) (rule : RuleInstance) (bindings : List Binding)
    (scope : ScopeId) : Option T3 × List EngineDiagnostic :=
  match rule.branches with
  | some table => evalPred host interner rule table.cond bindings scope
  | none => (none, [])

/-- Resolve the bindings and record them. -/
def bindRule (rule : RuleInstance) (anchor : Bound) (scope : ScopeId) (e : Engine) :
    List Binding × Engine :=
  let resolved := resolveBindings host e.interner e.store rule anchor scope
  let e := e.recordResolution ⟨rule, anchor, scope, resolved.1, e.store.watermark⟩
  (resolved.1, (e.report resolved.2).recordResolvedAbsent rule resolved.1 anchor scope)

/-- Run a rule within the budget: resolve its bindings, select the branch, execute
the intents. -/
def fireRule (fire : Fire) (rule : RuleInstance) (anchor : Bound) (scope : ScopeId) (run : Run) :
    Run :=
  let bound := bindRule host rule anchor scope run.engine
  let truth := branchTruth host bound.2.interner rule bound.1 scope
  let run : Run := ⟨bound.2.report truth.2, run.budget - 1⟩
  execIntents host fire (selectedIntents rule truth.1) rule bound.1 anchor scope run

/-- Run a rule unless the budget of firings is exhausted. The recursion is as deep
as the budget at most. -/
def runRule : Nat → Fire
  | 0, _, _, scope, run => run.report [.ruleFiringsExceeded scope]
  | depth + 1, rule, anchor, scope, run =>
      if run.budget = 0 then run.report [.ruleFiringsExceeded scope]
      else fireRule host (runRule depth) rule anchor scope run

/-- Run a rule with what is left of the budget. -/
def runWithin (rule : RuleInstance) (anchor : Bound) (scope : ScopeId) (run : Run) : Run :=
  runRule host run.budget rule anchor scope run

/-! ### The pipeline -/

/-- Resume one match: look up its anchor and its rule, and run the rule with a fresh
budget. -/
def resumeMatch (e : Engine) (m : PendingMatch) : Engine :=
  match (e.store.rings.lookup m.scope).bind (·.get m.anchorEvent) with
  | none => e.report [.missingAnchor m.rule]
  | some evt =>
      match host.image.rules.find? (·.id == m.rule) with
      | none => e.report [.ruleNotInImage m.rule]
      | some rule =>
          (runWithin host rule (.event evt) m.scope
            ⟨{ e with resumed := e.resumed + 1 }, host.limits.maxRuleFiringsPerEvent⟩).engine

/-- The engine when the expired matches are taken out of the queues. -/
def popExpired (e : Engine) (wm : EventTime) : Engine := { e with store := e.store.popExpired wm }

def resumeExpired (wm : EventTime) (e : Engine) : Engine :=
  (e.store.expired wm).foldl (resumeMatch host) (popExpired e wm)

def gcSweep (wm : EventTime) (e : Engine) : Engine :=
  { e with store := (e.store.gc host.limits wm).pruneEmitted wm host.problemCooldown }

/-- Suspend a match until its window closes. -/
def suspendMatch (rule : RuleInstance) (event : EventNode) (e : Engine) : Engine :=
  let pending : PendingMatch :=
    ⟨rule.id, event.id, event.time.add rule.maxForward, event.scope⟩
  let pushed := e.store.suspend host.limits pending
  let e := { e.recordSuspension ⟨rule, event, pending⟩ with
    suspended := e.suspended + 1
    store := pushed.1 }
  match pushed.2 with
  | some diag => e.report [.store diag]
  | none => e

/-- Match one rule with the event: suspend it while its forward window is open, else
run it. -/
def matchAnchor (event : EventNode) (wm : EventTime) (run : Run) (rule : RuleInstance) : Run :=
  let anchor : Bound := .event event
  let matched := evalPred host run.engine.interner rule rule.anchor.predicate [.bound anchor]
    event.scope
  let run := run.report matched.2
  if matched.1 = some .true then
    if wm < event.time.add rule.maxForward then run.map (suspendMatch host rule event)
    else runWithin host rule anchor event.scope run
  else run

/-- Match the rules anchored on the event, within one budget. -/
def matchAnchors (event : EventNode) (wm : EventTime) (e : Engine) : Engine :=
  let rules := host.image.rulesFor (.event event.eventType) event.scope.scopeType .evidence
  (rules.foldl (matchAnchor host event wm) ⟨e, host.limits.maxRuleFiringsPerEvent⟩).engine

/-- Audit an event that arrives after a correlate that it matches resolved absent:
the first such correlate is reported. -/
def auditOfflineLateEvidence (event : EventNode) (wm : EventTime) (e : Engine) : Engine :=
  match e.resolvedAbsent.find? fun ra =>
      ra.scope == event.scope && ra.eventType == event.eventType &&
        ra.lo ≤ event.time && event.time ≤ ra.hi with
  | some ra => e.report [.lateEvidence event.scope ra.rule event.id event.eventType wm]
  | none => e

/-- Advance the watermark of an event's source, and the global one to the least among
the sources that are not idle. -/
def advanceLiveWatermark (scope : ScopeId) (eventTime : EventTime) (e : Engine) : Engine :=
  let wall := if e.wallClock = .minimum ∨ e.wallClock < eventTime then eventTime else e.wallClock
  let candidate := eventTime.sub host.limits.maxDisorder
  let sources := Table.update e.sources scope ⟨candidate, wall⟩ fun source =>
    ⟨max source.localWm candidate, wall⟩
  let active := sources.values.filter fun source =>
    (saturatingSub wall.millis source.lastSeenWall.millis).toInt < host.limits.idleTimeout.toInt
  let target := match active with
    | [] => e.store.watermark
    | source :: rest => rest.foldl (fun wm s => min wm s.localWm) source.localWm
  { e with
    wallClock := wall
    sources := sources
    store := e.store.advanceWatermark target }

/-- Whether an event is at or before the watermark. -/
def Engine.isLate (e : Engine) (event : EventNode) : Bool :=
  e.store.watermark ≠ .minimum && event.time ≤ e.store.watermark

/-- Whether an event is dropped to the side output: live and later than allowed. -/
def Engine.isDropped (e : Engine) (event : EventNode) : Bool :=
  host.mode == .live && e.isLate event &&
    event.time ≤ e.store.watermark.sub host.limits.allowedLateness

/-- Note an event's scope and time, before anything is decided about it. -/
def Engine.note (e : Engine) (event : EventNode) : Engine :=
  { e.touch event.scope with
    lastEventTime := some (max (e.lastEventTime.getD event.time) event.time) }

def Engine.drop (e : Engine) (event : EventNode) : Engine :=
  { e.report [.lateEventDropped event.scope event.id event.time e.store.watermark] with
    lateSideOutput := e.lateSideOutput ++ [event] }

/-- Push an event into the ring of its scope. -/
def pushEvent (event : EventNode) (e : Engine) : Engine :=
  let diags := (e.store.pushSpill host.limits event).toList.map EngineDiagnostic.store
  { e with store := e.store.pushEvent host.limits event }.report diags

/-- An accepted event, up to the resume sweep: audit it, advance the watermark and
push it. -/
def acceptEvent (event : EventNode) (e : Engine) : Engine :=
  match host.mode with
  | .offline =>
      let e := if e.isLate event then auditOfflineLateEvidence event e.store.watermark e else e
      pushEvent host event { e with store := e.store.advanceWatermark event.time }
  | .live => pushEvent host event (advanceLiveWatermark host event.scope event.time e)

/-- The resume sweep and the garbage collection at the current watermark. -/
def sweep (e : Engine) : Engine :=
  let wm := e.store.watermark
  gcSweep host wm (resumeExpired host wm e)

/-- Ingest one event. -/
def ingest (event : EventNode) (e : Engine) : Engine :=
  let e := e.note event
  if e.isDropped host event then e.drop event
  else
    let e := acceptEvent host event e
    matchAnchors host event e.store.watermark (sweep host e)

/-- Advance the watermark explicitly. -/
def advanceWatermark (t : EventTime) (e : Engine) : Engine :=
  sweep host { e with store := e.store.advanceWatermark t }

def advanceWallClock (t : EventTime) (e : Engine) : Engine :=
  if host.mode = .live ∧ (e.wallClock = .minimum ∨ e.wallClock < t) then { e with wallClock := t }
  else e

/-- Flush at the end of the stream: push the watermark past every waiting match. -/
def finish (e : Engine) : Engine :=
  if e.finished then e
  else
    let e := { e with finished := true }
    match e.lastEventTime with
    | none => e
    | some last =>
        advanceWatermark host ((last.add host.imageMaxForward).add (.ofMillis 1)) e

/-- The calls that a host makes. -/
inductive Call where
  | ingest (event : EventNode)
  | advanceWatermark (t : EventTime)
  | advanceWallClock (t : EventTime)
  | internScope (scope : ScopeId)
  | finish

def call (e : Engine) : Call → Engine
  | .ingest event => ingest host event e
  | .advanceWatermark t => advanceWatermark host t e
  | .advanceWallClock t => advanceWallClock host t e
  | .internScope scope => e.internScope scope
  | .finish => finish host e

/-- The engine after a list of calls. -/
def runCalls (calls : List Call) : Engine := calls.foldl (call host) .new

end Adgl
