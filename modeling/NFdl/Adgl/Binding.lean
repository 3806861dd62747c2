import NFdl.Adgl.Ir
import NFdl.Lib.SortedMap
import Mathlib.Order.Fin.Basic

/-!
# Bindings

An event carries metric fields and fields of lists under catalog indices. A binding is bound to a
snapshot of an event, a cause or a problem, or it is absent or unknown.
-/

namespace Adgl

def eventFieldTarget : FieldIdx := 65535
def eventFieldTime : FieldIdx := 65534

structure EventNode where
  id : EventId
  eventType : EventType
  time : EventTime
  scope : ScopeId
  fields : SortedMap FieldIdx Int64
  intListFields : SortedMap FieldIdx (List Int64)

namespace EventNode

/-- Sort the fields by index. The first of several fields with one index counts. -/
def new (id : EventId) (eventType : EventType) (time : EventTime) (scope : ScopeId)
    (fields : List (FieldIdx × Int64)) : EventNode :=
  ⟨id, eventType, time, scope, fields.foldr (fun f m => m.insert f.1 f.2) .empty, .empty⟩

/-- The number of values that a field of lists keeps. -/
def maxEventIntListValues : Nat := 64

/-- Add or replace a field of lists: the lowest values, each of them once. -/
def withIntListField (event : EventNode) (idx : FieldIdx) (values : List Int64) : EventNode :=
  let sorted := (values.mergeSort fun a b => decide (a.toInt ≤ b.toInt)).dedup
  { event with
    intListFields := event.intListFields.insert idx (sorted.take maxEventIntListValues) }

def field (event : EventNode) (idx : FieldIdx) : Option Int64 := event.fields.get? idx

end EventNode

structure CauseSnapshot where
  node : NodeId
  kind : CauseKind
  target : ScopeId
  time : EventTime
  confidence : Confidence

structure ProblemSnapshot where
  node : NodeId
  kind : ProblemKind
  target : ScopeId
  time : EventTime

inductive Bound where
  | event (event : EventNode)
  | cause (cause : CauseSnapshot)
  | problem (problem : ProblemSnapshot)

inductive Binding where
  | bound (b : Bound)
  | absent
  | unknown

def Binding.bound? : Binding → Option Bound
  | .bound b => some b
  | .absent | .unknown => none

/-- The key of a scope in the integer domain of fields. -/
def scopeKeyI64 (scope : ScopeId) : Int64 := scope.hashKey.toInt64

/-- The scopes that fields can refer to, by their keys. -/
abbrev ScopeInterner := AList fun _ : Int64 => ScopeId

namespace ScopeInterner

def intern (interner : ScopeInterner) (scope : ScopeId) : ScopeInterner :=
  AList.insert (scopeKeyI64 scope) scope interner

def resolve (interner : ScopeInterner) (key : Int64) : Option ScopeId := AList.lookup key interner

end ScopeInterner

namespace Bound

def time : Bound → EventTime
  | .event e => e.time
  | .cause c => c.time
  | .problem p => p.time

/-- The scope that the bound value is about. -/
def target (interner : ScopeInterner) : Bound → Option ScopeId
  | .event e => match e.field eventFieldTarget with
    | some key => interner.resolve key
    | none => some e.scope
  | .cause c => some c.target
  | .problem p => some p.target

end Bound

/-- The topology oracle. -/
structure TopologyProvider where
  sameSession : ScopeId → ScopeId → T3
  sameClient : ScopeId → ScopeId → T3
  samePort : ScopeId → ScopeId → T3
  sameAp : ScopeId → ScopeId → T3
  sameVlan : ScopeId → ScopeId → T3
  upstreamOf : ScopeId → ScopeId → T3

inductive TopoFunc where
  | sameSession | sameClient | samePort | sameAp | sameVlan | upstreamOf
deriving DecidableEq, Repr

namespace TopoFunc

def fromIdx (idx : TopoFuncIdx) : Option TopoFunc :=
  [sameSession, sameClient, samePort, sameAp, sameVlan, upstreamOf][idx.toNat]?

def call (func : TopoFunc) (topo : TopologyProvider) : ScopeId → ScopeId → T3 :=
  match func with
  | .sameSession => topo.sameSession
  | .sameClient => topo.sameClient
  | .samePort => topo.samePort
  | .sameAp => topo.sameAp
  | .sameVlan => topo.sameVlan
  | .upstreamOf => topo.upstreamOf

end TopoFunc

end Adgl
