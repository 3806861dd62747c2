import NFdl.Adgl.Store
import NFdl.Adgl.Predicate
import NFdl.Adgl.Catalog

/-!
# Correlation

The bindings of a rule are resolved against the store: the candidates of each
correlate in the window around the anchor are filtered by the topology call, in
the order of their times. What goes wrong on the way is returned as diagnostics;
nothing is changed.
-/

namespace Adgl

/-- A non-fatal diagnostic of the engine. -/
inductive EngineDiagnostic where
  | store (diag : StoreDiagnostic)
  | predicateError (rule : RuleId) (error : CorrelateError)
  | unresolvedTarget (rule : RuleId) (path : MetricPath)
  | unsupportedTargetTail (rule : RuleId) (path : MetricPath) (binding tail : String)
  | causeCapacity (scope : ScopeId)
  | ruleFiringsExceeded (scope : ScopeId)
  | runtimeCheckWindow (rule : RuleId)
  | missingAnchor (rule : RuleId)
  | ruleNotInImage (rule : RuleId)
  | lateEvidence (scope : ScopeId) (rule : RuleId) (event : EventId) (eventType : EventType)
      (wm : EventTime)
  | lateEventDropped (scope : ScopeId) (event : EventId) (time wm : EventTime)
deriving DecidableEq, Repr

inductive RunMode where
  | offline | live
deriving DecidableEq, Repr

/-- What an engine is set up with and never changes. -/
structure Host where
  catalog : Catalog
  image : ProgramImage
  topo : TopologyProvider
  mode : RunMode
  limits : Limits
  problemCooldown : DurationMs

namespace Host

/-- The greatest forward window of the image. -/
def imageMaxForward (host : Host) : DurationMs :=
  (host.image.rules.map RuleInstance.maxForward).foldl max .zero

end Host

/-- The index of a binding: the anchor is the first, the correlates follow. -/
def bindingIndexOf (rule : RuleInstance) (name : String) : Option Nat :=
  if rule.anchor.binding == name then some 0
  else (rule.correlates.findIdx? (·.binding == name)).map (· + 1)

namespace Bound

/-- Whether the value is the event, the problem or the cause with this identifier. -/
def isEvent (id : EventId) : Bound → Bool
  | .event e => e.id == id
  | .cause _ | .problem _ => false

def isProblem (id : NodeId) : Bound → Bool
  | .problem p => p.node == id
  | .event _ | .cause _ => false

def isCause (id : NodeId) : Bound → Bool
  | .cause c => c.node == id
  | .event _ | .problem _ => false

def id : Bound → Nat
  | .event e => e.id
  | .cause c => c.node
  | .problem p => p.node

/-- The order of the candidates: earliest first, then by identifier. -/
def le (a b : Bound) : Prop := a.time < b.time ∨ a.time = b.time ∧ a.id ≤ b.id

instance : DecidableRel le := fun a b =>
  inferInstanceAs (Decidable (a.time < b.time ∨ a.time = b.time ∧ a.id ≤ b.id))

theorem le_iff {a b : Bound} : a.le b ↔ toLex (a.time, a.id) ≤ toLex (b.time, b.id) :=
  (Prod.Lex.toLex_le_toLex (x := (a.time, a.id)) (y := (b.time, b.id))).symm

instance : Std.Total le := ⟨fun a b => by
  rw [le_iff, le_iff]
  exact le_total _ _⟩

instance : IsTrans Bound le := ⟨fun _ _ _ hab hbc =>
  le_iff.mpr ((le_iff.mp hab).trans (le_iff.mp hbc))⟩

theorem time_le {a b : Bound} (h : a.le b) : a.time ≤ b.time :=
  h.elim le_of_lt fun h => le_of_eq h.1

def endpoint : Bound → EdgeEndpoint
  | .event e => .event e.id
  | .cause c => .node c.node
  | .problem p => .node p.node

end Bound

def CauseNode.snapshot (n : CauseNode) : CauseSnapshot :=
  ⟨n.id, n.kind, n.target, n.time, n.confidence⟩

def ProblemNode.snapshot (p : ProblemNode) : ProblemSnapshot := ⟨p.id, p.kind, p.target, p.time⟩

variable (host : Host) (interner : ScopeInterner)

/-- The truth of a predicate. An error is reported and leaves it without a value. -/
def evalPred (rule : RuleInstance) (pred : Predicate) (bindings : List Binding) (scope : ScopeId) :
    Option T3 × List EngineDiagnostic :=
  match evalPredicate pred ⟨bindings, scope, interner, host.topo⟩ with
  | .ok t => (some t, [])
  | .error error => (none, [.predicateError rule.id error])

/-- The scope that a path `<binding>.<tail>` denotes for a bound value. -/
def resolveScopePathFromBound (rule : RuleInstance) (path : MetricPath) (bindingName : String)
    (bound : Bound) : Option ScopeId × List EngineDiagnostic :=
  let unsupported (tail : String) : Option ScopeId × List EngineDiagnostic :=
    (none, [.unsupportedTargetTail rule.id path bindingName tail])
  match path.segments with
  | [] => (none, [])
  | _ :: tail :: _ :: _ => unsupported tail
  | [_] | [_, "target"] => (bound.target interner, [])
  | [_, tail] =>
      match bound with
      | .event event =>
          match host.catalog.resolveEvent event.eventType with
          | none => (none, [])
          | some schema =>
              match host.catalog.resolveMetricPath (.event event.eventType) tail with
              | none => unsupported tail
              | some (fieldIdx, fieldTy) =>
                  let isScopeField := match fieldTy with
                    | .scopeId _ => true
                    | _ => false
                  if schema.routingPaths.any (·.path == tail) || isScopeField then
                    ((event.field fieldIdx).bind interner.resolve, [])
                  else unsupported tail
      | .cause _ | .problem _ => unsupported tail

/-- The scope that the target expression of an intent denotes. -/
def resolveTarget (rule : RuleInstance) (path : MetricPath) (bindings : List Binding) :
    Option ScopeId × List EngineDiagnostic :=
  match path.segments.head? with
  | none => (none, [])
  | some head =>
      match (bindingIndexOf rule head).bind fun idx => bindings[idx]?.bind Binding.bound? with
      | none => (none, [])
      | some bound => resolveScopePathFromBound host interner rule path head bound

/-- An argument of a topology call: the candidate goes by the name of the correlate. -/
def resolveTopoArg (spec : CorrelateSpec) (rule : RuleInstance) (bindings : List Binding)
    (candidate : Bound) (path : MetricPath) : Option ScopeId × List EngineDiagnostic :=
  match path.segments.head? with
  | none => (none, [])
  | some head =>
      if head == spec.binding then
        resolveScopePathFromBound host interner rule path head candidate
      else
        match (bindingIndexOf rule head).bind fun idx => bindings[idx]?.bind Binding.bound? with
        | none => (none, [])
        | some bound => resolveScopePathFromBound host interner rule path head bound

/-- The topology call of a correlate for one candidate. What cannot be resolved is
unknown. -/
def evalTopo (spec : CorrelateSpec) (func : Option TopoFunc) (rule : RuleInstance)
    (bindings : List Binding) (candidate : Bound) : T3 × List EngineDiagnostic :=
  match func, spec.topo.args with
  | some func, [argA, argB] =>
      let a := resolveTopoArg host interner spec rule bindings candidate argA
      let b := resolveTopoArg host interner spec rule bindings candidate argB
      match a.1, b.1 with
      | some scopeA, some scopeB => (func.call host.topo scopeA scopeB, a.2 ++ b.2)
      | _, _ => (.unknown, a.2 ++ b.2)
  | _, _ => (.unknown, [])

/-- The candidates of a correlate, earliest first. The anchor itself is none. -/
def candidates (store : GraphStore) (spec : CorrelateSpec) (anchor : Bound) (scope : ScopeId)
    (back fwd : DurationMs) : List Bound :=
  let lo := anchor.time.sub back
  let hi := anchor.time.add fwd
  match spec.source with
  | .event eventType =>
      match store.rings.lookup scope with
      | none => []
      | some ring =>
          ((ring.scanWindow anchor.time back fwd).filter fun e =>
            e.eventType == eventType && !anchor.isEvent e.id).map .event
  | .problem kind =>
      match store.partition scope with
      | none => []
      | some part =>
          ((part.problems.filter fun p =>
            p.kind == kind && lo ≤ p.time && p.time ≤ hi && !anchor.isProblem p.id).map fun p =>
              .problem p.snapshot).insertionSort Bound.le
  | .cause kind =>
      match store.partition scope with
      | none => []
      | some part =>
          ((part.causes.entries.filter fun entry =>
            entry.1.1 == kind && lo ≤ entry.2.time && entry.2.time ≤ hi &&
              !anchor.isCause entry.2.id).map fun entry =>
              .cause ⟨entry.2.id, entry.1.1, entry.1.2, entry.2.time, entry.2.confidence⟩).insertionSort
            Bound.le

/-- What the scan over the candidates has seen. -/
structure Scan where
  matchCount : Nat
  witness : Option Bound
  sawUnknown : Bool
  diagnostics : List EngineDiagnostic

/-- Scan the candidates and stop at the needed number of matches. -/
def scanCandidates (topo : Bound → T3 × List EngineDiagnostic) (minMatch : Nat) :
    List Bound → Scan → Scan
  | [], scan => scan
  | cand :: rest, scan =>
      match topo cand with
      | (.true, diags) =>
          let scan : Scan := { scan with
            matchCount := min 255 (scan.matchCount + 1)
            witness := scan.witness.or (some cand)
            diagnostics := scan.diagnostics ++ diags }
          if minMatch ≤ scan.matchCount then scan else scanCandidates topo minMatch rest scan
      | (.unknown, diags) =>
          scanCandidates topo minMatch rest
            { scan with sawUnknown := true, diagnostics := scan.diagnostics ++ diags }
      | (.false, diags) =>
          scanCandidates topo minMatch rest { scan with diagnostics := scan.diagnostics ++ diags }

/-- The binding that a finished scan gives. -/
def Scan.binding (scan : Scan) (minMatch : Nat) : Binding :=
  if minMatch ≤ scan.matchCount then
    match scan.witness with
    | some witness => .bound witness
    | none => .unknown
  else if scan.sawUnknown then .unknown
  else .absent

/-- The binding of one correlate, given those before it. -/
def resolveCorrelate (store : GraphStore) (rule : RuleInstance) (anchor : Bound) (scope : ScopeId)
    (bindings : List Binding) (spec : CorrelateSpec) : Binding × List EngineDiagnostic :=
  match spec.window with
  | .runtimeCheck => (.absent, [.runtimeCheckWindow rule.id])
  | .calculable back fwd =>
      let func := TopoFunc.fromIdx spec.topo.funcIdx
      let diags : List EngineDiagnostic := match func with
        | some _ => []
        | none => [.predicateError rule.id (.unknownTopoFunction spec.topo.funcIdx)]
      let scan := scanCandidates (evalTopo host interner spec func rule bindings) spec.minMatch
        (candidates store spec anchor scope back fwd) ⟨0, none, false, diags⟩
      (scan.binding spec.minMatch, scan.diagnostics)

/-- The bindings of a rule: the anchor and the correlates in order. -/
def resolveBindings (store : GraphStore) (rule : RuleInstance) (anchor : Bound) (scope : ScopeId) :
    List Binding × List EngineDiagnostic :=
  rule.correlates.foldl (fun acc spec =>
    let resolved := resolveCorrelate host interner store rule anchor scope acc.1 spec
    (acc.1 ++ [resolved.1], acc.2 ++ resolved.2)) ([.bound anchor], [])

/-- The edge sources of the bindings that an intent names as its evidence. -/
def evidenceEndpoints (rule : RuleInstance) (evidence : List Symbol) (bindings : List Binding) :
    List EdgeEndpoint :=
  evidence.filterMap fun sym =>
    ((bindingIndexOf rule sym).bind fun idx => bindings[idx]?.bind Binding.bound?).map Bound.endpoint

/-- The graph nodes among the evidence of an intent. -/
def evidenceNodes (rule : RuleInstance) (evidence : List Symbol) (bindings : List Binding) :
    List NodeId :=
  evidence.filterMap fun sym =>
    match (bindingIndexOf rule sym).bind fun idx => bindings[idx]?.bind Binding.bound? with
    | some (.cause c) => some c.node
    | some (.problem p) => some p.node
    | some (.event _) | none => none

end Adgl
