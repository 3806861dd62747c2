import NFdl.Adgl.Agreement
import NFdl.Adgl.Nodes
import NFdl.Lib.Iteration

/-!
# The order of hash maps

The engine loops over hash maps: over the causes of a partition for the candidates of a
correlate, over the sources for the live watermark, over the queues, rings and partitions
in a sweep. Here every such loop goes in an order that is given from outside, and the
engine is the same as in the order of the tables unless two matches that are not the same
compare equal when they expire together.
-/

namespace Adgl

/-- The orders in which the engine goes over its hash maps. They may depend on the engine
and on the map. -/
structure HashOrders where
  keys : {κ β : Type} → Engine → Table κ β → List κ
  perm : ∀ {κ β : Type} (e : Engine) (t : Table κ β), (keys e t).Perm t.keys

namespace HashOrders

/-- The order of the tables. -/
def forward : HashOrders := ⟨fun _ t => t.keys, fun _ _ => .refl _⟩

/-- The reverse order. -/
def backward : HashOrders := ⟨fun _ t => t.keys.reverse, fun _ _ => List.reverse_perm _⟩

end HashOrders

section Ordered

variable (orders : HashOrders) (host : Host)

/-! ### Rules -/

/-- The candidates of a correlate. Only those among the causes come from a hash map. -/
def candidatesIn (e : Engine) (spec : CorrelateSpec) (anchor : Bound) (scope : ScopeId)
    (back fwd : DurationMs) : List Bound :=
  match spec.source with
  | .event _ | .problem _ => candidates e.store spec anchor scope back fwd
  | .cause kind =>
      let lo := anchor.time.sub back
      let hi := anchor.time.add fwd
      match e.store.partition scope with
      | none => []
      | some part =>
          (((part.causes.entriesIn (orders.keys e part.causes)).filter fun entry =>
            entry.1.1 == kind && lo ≤ entry.2.time && entry.2.time ≤ hi &&
              !anchor.isCause entry.2.id).map fun entry =>
              .cause ⟨entry.2.id, entry.1.1, entry.1.2, entry.2.time, entry.2.confidence⟩).insertionSort
            Bound.le

def resolveCorrelateIn (e : Engine) (rule : RuleInstance) (anchor : Bound) (scope : ScopeId)
    (bindings : List Binding) (spec : CorrelateSpec) : Binding × List EngineDiagnostic :=
  match spec.window with
  | .runtimeCheck => (.absent, [.runtimeCheckWindow rule.id])
  | .calculable back fwd =>
      let func := TopoFunc.fromIdx spec.topo.funcIdx
      let diags : List EngineDiagnostic := match func with
        | some _ => []
        | none => [.predicateError rule.id (.unknownTopoFunction spec.topo.funcIdx)]
      let scan := scanCandidates (evalTopo host e.interner spec func rule bindings) spec.minMatch
        (candidatesIn orders e spec anchor scope back fwd) ⟨0, none, false, diags⟩
      (scan.binding spec.minMatch, scan.diagnostics)

def resolveBindingsIn (e : Engine) (rule : RuleInstance) (anchor : Bound) (scope : ScopeId) :
    List Binding × List EngineDiagnostic :=
  rule.correlates.foldl (fun acc spec =>
    let resolved := resolveCorrelateIn orders host e rule anchor scope acc.1 spec
    (acc.1 ++ [resolved.1], acc.2 ++ resolved.2)) ([.bound anchor], [])

def bindRuleIn (rule : RuleInstance) (anchor : Bound) (scope : ScopeId) (e : Engine) :
    List Binding × Engine :=
  let resolved := resolveBindingsIn orders host e rule anchor scope
  let e := e.recordResolution ⟨rule, anchor, scope, resolved.1, e.store.watermark⟩
  (resolved.1, (e.report resolved.2).recordResolvedAbsent rule resolved.1 anchor scope)

def fireRuleIn (fire : Fire) (rule : RuleInstance) (anchor : Bound) (scope : ScopeId) (run : Run) :
    Run :=
  let bound := bindRuleIn orders host rule anchor scope run.engine
  let truth := branchTruth host bound.2.interner rule bound.1 scope
  let run : Run := ⟨bound.2.report truth.2, run.budget - 1⟩
  execIntents host fire (selectedIntents rule truth.1) rule bound.1 anchor scope run

def runRuleIn : Nat → Fire
  | 0, _, _, scope, run => run.report [.ruleFiringsExceeded scope]
  | depth + 1, rule, anchor, scope, run =>
      if run.budget = 0 then run.report [.ruleFiringsExceeded scope]
      else fireRuleIn orders host (runRuleIn depth) rule anchor scope run

def runWithinIn (rule : RuleInstance) (anchor : Bound) (scope : ScopeId) (run : Run) : Run :=
  runRuleIn orders host run.budget rule anchor scope run

/-! ### The pipeline -/

def resumeMatchIn (e : Engine) (m : PendingMatch) : Engine :=
  match (e.store.rings.lookup m.scope).bind (·.get m.anchorEvent) with
  | none => e.report [.missingAnchor m.rule]
  | some evt =>
      match host.image.rules.find? (·.id == m.rule) with
      | none => e.report [.ruleNotInImage m.rule]
      | some rule =>
          (runWithinIn orders host rule (.event evt) m.scope
            ⟨{ e with resumed := e.resumed + 1 }, host.limits.maxRuleFiringsPerEvent⟩).engine

/-- The expired matches of all queues, sorted after the loop over the queues. -/
def expiredIn (e : Engine) (wm : EventTime) : List PendingMatch :=
  ((Table.valuesIn e.store.pending (orders.keys e e.store.pending)).flatMap
    (·.expired wm)).insertionSort PendingMatch.le

def popExpiredIn (e : Engine) (wm : EventTime) : Engine :=
  { e with
    store := { e.store with
      pending := Table.sweepIn e.store.pending (·.waiting wm) (orders.keys e e.store.pending) } }

def resumeExpiredIn (wm : EventTime) (e : Engine) : Engine :=
  (expiredIn orders e wm).foldl (resumeMatchIn orders host) (popExpiredIn orders e wm)

/-- Sweep the rings and the keys of the partitions. -/
def gcIn (limits : Limits) (wm : EventTime) (e : Engine) : Engine :=
  { e with
    store := { e.store with
      rings := Table.sweepIn e.store.rings (·.gc wm limits.maxLookback)
        (orders.keys e e.store.rings)
      partitions := Table.sweepIn e.store.partitions
        (·.pruneProvenance wm limits.maxLookback limits.dedupWindow)
        (orders.keys e e.store.partitions) } }

/-- Sweep the records of emissions of the partitions. -/
def pruneEmittedIn (wm : EventTime) (maxCooldown : DurationMs) (e : Engine) : Engine :=
  { e with
    store := { e.store with
      partitions := Table.sweepIn e.store.partitions (·.pruneEmitted wm maxCooldown)
        (orders.keys e e.store.partitions) } }

def gcSweepIn (wm : EventTime) (e : Engine) : Engine :=
  pruneEmittedIn orders wm host.problemCooldown (gcIn orders host.limits wm e)

def matchAnchorIn (event : EventNode) (wm : EventTime) (run : Run) (rule : RuleInstance) : Run :=
  let anchor : Bound := .event event
  let matched := evalPred host run.engine.interner rule rule.anchor.predicate [.bound anchor]
    event.scope
  let run := run.report matched.2
  if matched.1 = some .true then
    if wm < event.time.add rule.maxForward then run.map (suspendMatch host rule event)
    else runWithinIn orders host rule anchor event.scope run
  else run

def matchAnchorsIn (event : EventNode) (wm : EventTime) (e : Engine) : Engine :=
  let rules := host.image.rulesFor (.event event.eventType) event.scope.scopeType .evidence
  (rules.foldl (matchAnchorIn orders host event wm)
    ⟨e, host.limits.maxRuleFiringsPerEvent⟩).engine

def advanceLiveWatermarkIn (scope : ScopeId) (eventTime : EventTime) (e : Engine) : Engine :=
  let wall := if e.wallClock = .minimum ∨ e.wallClock < eventTime then eventTime else e.wallClock
  let candidate := eventTime.sub host.limits.maxDisorder
  let sources := Table.update e.sources scope ⟨candidate, wall⟩ fun source =>
    ⟨max source.localWm candidate, wall⟩
  let active := (Table.valuesIn sources (orders.keys e sources)).filter fun source =>
    (saturatingSub wall.millis source.lastSeenWall.millis).toInt < host.limits.idleTimeout.toInt
  let target := match active with
    | [] => e.store.watermark
    | source :: rest => rest.foldl (fun wm s => min wm s.localWm) source.localWm
  { e with
    wallClock := wall
    sources := sources
    store := e.store.advanceWatermark target }

def acceptEventIn (event : EventNode) (e : Engine) : Engine :=
  match host.mode with
  | .offline =>
      let e := if e.isLate event then auditOfflineLateEvidence event e.store.watermark e else e
      pushEvent host event { e with store := e.store.advanceWatermark event.time }
  | .live => pushEvent host event (advanceLiveWatermarkIn orders host event.scope event.time e)

def sweepIn (e : Engine) : Engine :=
  let wm := e.store.watermark
  gcSweepIn orders host wm (resumeExpiredIn orders host wm e)

def ingestIn (event : EventNode) (e : Engine) : Engine :=
  let e := e.note event
  if e.isDropped host event then e.drop event
  else
    let e := acceptEventIn orders host event e
    matchAnchorsIn orders host event e.store.watermark (sweepIn orders host e)

def advanceWatermarkIn (t : EventTime) (e : Engine) : Engine :=
  sweepIn orders host { e with store := e.store.advanceWatermark t }

def finishIn (e : Engine) : Engine :=
  if e.finished then e
  else
    let e := { e with finished := true }
    match e.lastEventTime with
    | none => e
    | some last =>
        advanceWatermarkIn orders host ((last.add host.imageMaxForward).add (.ofMillis 1)) e

def callIn (e : Engine) : Call → Engine
  | .ingest event => ingestIn orders host event e
  | .advanceWatermark t => advanceWatermarkIn orders host t e
  | .advanceWallClock t => advanceWallClock host t e
  | .internScope scope => e.internScope scope
  | .finish => finishIn orders host e

def operateIn (e : Engine) : Operation → Engine
  | .call c => callIn orders host e c
  | .gc watermark maxLookback =>
      gcIn orders { host.limits with maxLookback := maxLookback } watermark e
  | .pruneEmitted wm maxCooldown => pruneEmittedIn orders wm maxCooldown e

end Ordered

/-- The engine after operations, each of which goes over the hash maps in orders of its own. -/
def runIn (host : Host) (steps : List (HashOrders × Operation)) : Engine :=
  steps.foldl (fun e step => operateIn step.1 host e step.2) .new

end Adgl
