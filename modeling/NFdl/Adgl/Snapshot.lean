import NFdl.Adgl.OrderFree
import Mathlib.Data.List.Perm.Basic
import Mathlib.Data.String.Basic
import Mathlib.Order.WithBot

/-!
# Snapshots

A snapshot lists the causes of all partitions sorted by their keys, the problems in the
order of their emission with what their evidence says, and the actions that were
audited. It is the same for every order of the hash maps.
-/

namespace Adgl

open Ast (Ruleset RuleDecl)

/-- A cause as the host sees it. -/
structure CauseView where
  scope : ScopeId
  kind : CauseKind
  target : ScopeId
  time : EventTime
  confidence : Confidence
deriving DecidableEq, Repr

namespace CauseView

def key (v : CauseView) : ScopeId ×ₗ CauseKind ×ₗ ScopeId := toLex (v.scope, toLex (v.kind, v.target))

/-- The order of the causes: by scope, kind and target. -/
def le (a b : CauseView) : Prop := a.key ≤ b.key

instance : DecidableRel le := fun a b => inferInstanceAs (Decidable (a.key ≤ b.key))
instance : Std.Total le := ⟨fun a b => le_total a.key b.key⟩
instance : IsTrans CauseView le := ⟨fun _ _ _ => le_trans⟩

end CauseView

/-- A problem as the host sees it. -/
structure ProblemView where
  scope : ScopeId
  kind : ProblemKind
  target : ScopeId
  time : EventTime
  severity : Severity
  sarifId : SarifId
  causeKinds : List CauseKind
  evidenceFields : SortedMap String String
  superseded : Bool

/-- An audited action. -/
structure AuditEntry where
  code : Option String
  intent : ActionIntent
  wm : EventTime
deriving DecidableEq, Repr

/-- The declaration order. -/
def ActionKind.index : ActionKind → Nat
  | .requestObservation => 0 | .runCheck => 1 | .suppressSymptom => 2 | .markAmbiguous => 3
  | .requestTopology => 4

namespace AuditEntry

/-- The record of what the audit sink received. -/
def record (entry : ActionIntent × RunMode × EventTime) : AuditEntry where
  code := match entry.2.1, entry.1.kind with
    | .offline, .requestObservation => some "ADGL3001"
    | _, _ => none
  intent := entry.1
  wm := entry.2.2

def key (a : AuditEntry) : EventTime ×ₗ RuleId ×ₗ ℕ ×ₗ WithBot ScopeId :=
  toLex (a.wm, toLex (a.intent.rule, toLex (a.intent.kind.index, a.intent.target)))

/-- The order of the audit: by watermark, rule, kind and target. -/
def le (a b : AuditEntry) : Prop := a.key ≤ b.key

instance : DecidableRel le := fun a b => inferInstanceAs (Decidable (a.key ≤ b.key))

end AuditEntry

structure Snapshot where
  causes : List CauseView
  problems : List ProblemView
  audit : List AuditEntry

/-! ### Evidence -/

/-- A list of integers as text. -/
def renderList (values : List Int64) : String :=
  "[" ++ String.intercalate "," (values.map fun v => toString v.toInt) ++ "]"

/-- Add the fields of an event under the names that the catalog has for them. -/
def mergeEventFields (catalog : Catalog) (out : SortedMap String String) (event : EventNode) :
    SortedMap String String :=
  match catalog.resolveEvent event.eventType with
  | none => out
  | some schema =>
      let named (out : SortedMap String String) (idx : FieldIdx) (text : String) :=
        match schema.fields.find? (·.idx == idx) with
        | none => out
        | some field => out.insert field.name text
      let out := event.fields.entries.foldl (fun out f => named out f.1 (toString f.2.toInt)) out
      event.intListFields.entries.foldl (fun out f => named out f.1 (renderList f.2)) out

/-- The fields of the events that the edges to one cause come from. -/
def mergeCauseFields (catalog : Catalog) (ring : RingBuffer) (edges : List EvidenceEdge)
    (out : SortedMap String String) (cause : CauseNode) : SortedMap String String :=
  edges.foldl (fun out edge =>
    match edge.src with
    | .event id =>
        if edge.dst = cause.id then
          match ring.get id with
          | some event => mergeEventFields catalog out event
          | none => out
        else out
    | .node _ => out) out

/-- The fields of the events that the causes of a problem rest on. The causes of the
partition are searched in the given order. -/
def collectProblemEvidence (catalog : Catalog) (store : GraphStore) (scope : ScopeId)
    (problem : ProblemNode) (part : SubGraph) (causes : List CauseNode) :
    SortedMap String String :=
  match store.rings.lookup scope with
  | none => .empty
  | some ring =>
      problem.evidence.foldl (fun out causeId =>
        match causes.find? (·.id == causeId) with
        | none => out
        | some cause => mergeCauseFields catalog ring part.edges out cause) .empty

/-- The kinds of the causes among the evidence of a problem, each of them once. Of causes
with one identifier the last one in the given order counts. -/
def causeKinds (problem : ProblemNode) (causes : List CauseNode) : List CauseKind :=
  problem.evidence.foldl (fun kinds node =>
    match causes.reverse.find? (·.id == node) with
    | none => kinds
    | some cause => if cause.kind ∈ kinds then kinds else kinds ++ [cause.kind]) []

/-! ### Views -/

section Views

variable (orders : HashOrders) (host : Host)

/-- The causes of the partition of a scope. -/
def causeViewsIn (e : Engine) (scope : ScopeId) : List CauseView :=
  match e.store.partition scope with
  | none => []
  | some part => (part.causes.entriesIn (orders.keys e part.causes)).map fun entry =>
      ⟨scope, entry.1.1, entry.1.2, entry.2.time, entry.2.confidence⟩

/-- The problems of the partition of a scope. -/
def problemViewsIn (e : Engine) (scope : ScopeId) : List ProblemView :=
  match e.store.partition scope with
  | none => []
  | some part =>
      let causes := part.causes.valuesIn (orders.keys e part.causes)
      part.problems.map fun p =>
        { scope := scope, kind := p.kind, target := p.target, time := p.time
          severity := p.severity, sarifId := p.sarifId, causeKinds := causeKinds p causes
          evidenceFields := collectProblemEvidence host.catalog e.store scope p part causes
          superseded := p.superseded }

/-- The state of the graph. The audit is that of the sink. -/
def graphSnapshotIn (e : Engine) : Snapshot where
  causes := (e.touched.entries.flatMap fun entry =>
    causeViewsIn orders e entry.1).insertionSort CauseView.le
  problems := e.touched.entries.flatMap fun entry => problemViewsIn orders host e entry.1
  audit := []

/-- The state of the graph with the audited actions. -/
def snapshotIn (e : Engine) : Snapshot :=
  { graphSnapshotIn orders host e with
    audit := (e.sinkLog.map AuditEntry.record).insertionSort AuditEntry.le }

end Views

/-! ### Freedom of the order -/

variable {host : Host} {e : Engine}

theorem causeKinds_eq {causes causes' : List CauseNode} (h : causes.Perm causes')
    (hone : ∀ a ∈ causes, ∀ b ∈ causes, a.id = b.id → a = b) (problem : ProblemNode) :
    causeKinds problem causes = causeKinds problem causes' := by
  have hreverse : causes.reverse.Perm causes'.reverse :=
    (List.reverse_perm _).trans (h.trans (List.reverse_perm _).symm)
  have hfind : ∀ node, causes.reverse.find? (·.id == node) = causes'.reverse.find? (·.id == node) := by
    intro node
    refine hreverse.find?_eq fun a ha b hb hid hid' => ?_
    rw [beq_iff_eq] at hid hid'
    exact hone a (List.mem_reverse.mp ha) b (List.mem_reverse.mp hb) (hid.trans hid'.symm)
  unfold causeKinds
  simp only [hfind]

theorem collectProblemEvidence_eq {causes causes' : List CauseNode} (h : causes.Perm causes')
    (hone : ∀ a ∈ causes, ∀ b ∈ causes, a.id = b.id → a = b) (catalog : Catalog)
    (store : GraphStore) (scope : ScopeId) (problem : ProblemNode) (part : SubGraph) :
    collectProblemEvidence catalog store scope problem part causes =
      collectProblemEvidence catalog store scope problem part causes' := by
  have hfind : ∀ node, causes.find? (·.id == node) = causes'.find? (·.id == node) := by
    intro node
    refine h.find?_eq fun a ha b hb hid hid' => ?_
    rw [beq_iff_eq] at hid hid'
    exact hone a ha b hb (hid.trans hid'.symm)
  unfold collectProblemEvidence
  simp only [hfind]

/-- The causes of a partition have identifiers of their own. -/
theorem UniqueIds.values_inj (h : UniqueIds e) {scope : ScopeId} {part : SubGraph}
    (hpart : e.store.partition scope = some part) {a b : CauseNode} (ha : a ∈ part.causes.values)
    (hb : b ∈ part.causes.values) (hid : a.id = b.id) : a = b := by
  obtain ⟨key, hkey⟩ := Table.mem_values_iff.mp ha
  obtain ⟨key', hkey'⟩ := Table.mem_values_iff.mp hb
  rw [← part_of_partition hpart] at hkey hkey'
  exact (h.cause_inj hkey hkey' hid).2

theorem problemViewsIn_eq (h : UniqueIds e) (orders orders' : HashOrders) (scope : ScopeId) :
    problemViewsIn orders host e scope = problemViewsIn orders' host e scope := by
  unfold problemViewsIn
  cases hpart : e.store.partition scope with
  | none => rfl
  | some part =>
      have hperm := Table.valuesIn_perm (orders.perm e part.causes)
      have hperm' := Table.valuesIn_perm (orders'.perm e part.causes)
      have hboth := hperm.trans hperm'.symm
      have hone : ∀ a ∈ part.causes.valuesIn (orders.keys e part.causes),
          ∀ b ∈ part.causes.valuesIn (orders.keys e part.causes), a.id = b.id → a = b :=
        fun a ha b hb => h.values_inj hpart (hperm.mem_iff.mp ha) (hperm.mem_iff.mp hb)
      refine List.map_congr_left fun p _ => ?_
      rw [causeKinds_eq hboth hone, collectProblemEvidence_eq hboth hone]

theorem causeViewsIn_perm (orders orders' : HashOrders) (e : Engine) (scope : ScopeId) :
    (causeViewsIn orders e scope).Perm (causeViewsIn orders' e scope) := by
  unfold causeViewsIn
  cases e.store.partition scope with
  | none => exact .refl _
  | some part =>
      have hperm := Table.entriesIn_perm (orders.perm e part.causes)
      have hperm' := Table.entriesIn_perm (orders'.perm e part.causes)
      exact (hperm.trans hperm'.symm).map _

/-- A cause in a snapshot is the one that its key stands for. -/
theorem mem_causeViewsIn {orders : HashOrders} {scope : ScopeId} {v : CauseView}
    (h : v ∈ causeViewsIn orders e scope) : v.scope = scope ∧
      ∃ node, e.cause v.scope (v.kind, v.target) = some node ∧ v.time = node.time ∧
        v.confidence = node.confidence := by
  unfold causeViewsIn at h
  cases hpart : e.store.partition scope with
  | none =>
      rw [hpart] at h
      exact absurd h List.not_mem_nil
  | some part =>
      rw [hpart] at h
      obtain ⟨entry, hentry, rfl⟩ := List.mem_map.mp h
      have hmem := (Table.entriesIn_perm (orders.perm e part.causes)).mem_iff.mp hentry
      refine ⟨rfl, entry.2, ?_, rfl, rfl⟩
      change (e.part scope).causes.lookup entry.1 = some entry.2
      rw [part_of_partition hpart]
      exact AList.mem_lookup_iff.mpr hmem

/-- Two causes of a snapshot with one key are one cause. -/
theorem causeView_inj {orders : HashOrders} {scope scope' : ScopeId} {v v' : CauseView}
    (h : v ∈ causeViewsIn orders e scope) (h' : v' ∈ causeViewsIn orders e scope')
    (hkey : v.key = v'.key) : v = v' := by
  obtain ⟨-, node, hnode, htime, hconfidence⟩ := mem_causeViewsIn h
  obtain ⟨-, node', hnode', htime', hconfidence'⟩ := mem_causeViewsIn h'
  obtain ⟨vscope, kind, target, time, confidence⟩ := v
  obtain ⟨vscope', kind', target', time', confidence'⟩ := v'
  have hpair := toLex.injective hkey
  obtain ⟨hscope, hrest⟩ := Prod.mk.inj hpair
  obtain ⟨hkind, htarget⟩ := Prod.mk.inj (toLex.injective hrest)
  subst hscope hkind htarget
  obtain rfl := Option.some.inj (hnode.symm.trans hnode')
  exact CauseView.mk.injEq .. |>.mpr ⟨rfl, rfl, rfl, htime.trans htime'.symm,
    hconfidence.trans hconfidence'.symm⟩

/-- In a state of a run, the snapshot is the same for every order of the hash maps. -/
theorem graphSnapshotIn_eq (h : UniqueIds e) (orders orders' : HashOrders) :
    graphSnapshotIn orders host e = graphSnapshotIn orders' host e := by
  have hcauses : (e.touched.entries.flatMap fun entry => causeViewsIn orders e entry.1).Perm
      (e.touched.entries.flatMap fun entry => causeViewsIn orders' e entry.1) :=
    .flatMap_left _ fun entry _ => causeViewsIn_perm orders orders' e entry.1
  have hsorted := hcauses.insertionSort_eq (r := CauseView.le) (by
    intro a ha b hb hab hba
    obtain ⟨entry, -, ha⟩ := List.mem_flatMap.mp ha
    obtain ⟨entry', -, hb⟩ := List.mem_flatMap.mp hb
    exact causeView_inj ha hb (le_antisymm hab hba))
  unfold graphSnapshotIn
  simp only [hsorted, problemViewsIn_eq h orders orders']

theorem snapshotIn_eq (h : UniqueIds e) (orders orders' : HashOrders) :
    snapshotIn orders host e = snapshotIn orders' host e := by
  unfold snapshotIn
  rw [graphSnapshotIn_eq h orders orders']

/-- In a run in no sweep of which two different matches compare equal, the snapshot, the
diagnostics, the actions that the sink received and the watermark are the same for all
orders of the hash maps, at every step and in the snapshot. -/
theorem results_order_free (host : Host) {steps steps' : List (HashOrders × Operation)}
    (huntied : UntiedRun host steps) (hops : steps'.map Prod.snd = steps.map Prod.snd)
    (orders orders' : HashOrders) :
    let e := runIn host steps
    let e' := runIn host steps'
    snapshotIn orders host e = snapshotIn orders' host e' ∧ e.diagnostics = e'.diagnostics ∧
      e.sinkLog = e'.sinkLog ∧ e.store.watermark = e'.store.watermark := by
  intro e e'
  have huntied' : UntiedRun host steps' := by
    rw [untiedRun_iff, hops, ← untiedRun_iff]
    exact huntied
  have heq : e = runOperations host (steps.map Prod.snd) := runIn_eq huntied
  have heq' : e' = runOperations host (steps.map Prod.snd) := hops ▸ runIn_eq huntied'
  rw [heq, heq']
  exact ⟨snapshotIn_eq (uniqueIds host _) orders orders', rfl, rfl, rfl⟩

/-! ### Ports with one hash -/

/-- The scope of a port of a switch. -/
def ScopeId.port (switchId : UInt64) (portId : UInt32) : ScopeId :=
  ⟨.port, fnv1a (fnv1a fnvOffset (beBytes switchId)) (beBytes portId.toUInt64)⟩

/-- The catalog with two kinds of events of ports. -/
def portCatalog : Catalog :=
  { Catalog.seed with
    events := ["port.crc_errors", "port.link_flap"].map fun name =>
      { name := name
        fields := [⟨"target", .scopeId .port, false, 0⟩, ⟨"time", .int, false, 1⟩,
          ⟨"count", .int, false, 2⟩]
        routingPaths := [⟨.port, "target"⟩] } }

/-- Damage of a cable, and a check of it, half a second after errors of a port. -/
def crcRule : RuleDecl :=
  .evidence {
    name := "crc_link_flap"
    scope := .port
    anchor := ⟨"crc", ["port", "crc_errors"], none⟩
    correlates := [{
      binding := "flap"
      source := .event ["port", "link_flap"]
      topo := ⟨"same_port", [.field (.ident "crc") "target", .field (.ident "flap") "target"]⟩
      time := ⟨.field (.ident "flap") "time", .field (.ident "crc") "time",
        .binary .add (.field (.ident "crc") "time") (.duration 500)⟩
      minMatch := none }]
    ifElse := none
    body := [.infer ⟨"PhysicalCableDamage", [.target (.field (.ident "crc") "target"), .weight 40]⟩,
      .action ⟨.known .runCheck, some ["cable_loopback"], [.target (.field (.ident "crc") "target")]⟩] }

def crcRules : Ruleset := ⟨"port_diagnostics", [.requires ["topology"]], [crcRule]⟩

/-- An engine for the rule, whose partitions have room for some causes. -/
def portHost (maxCauses : Nat) : Host where
  catalog := portCatalog
  image := (lowerToImage portCatalog crcRules).1
  topo := silentTopology
  mode := .offline
  limits := { Limits.default with maxCausesPerScope := maxCauses }
  problemCooldown := Limits.default.dedupWindow

/-- Errors of two ports, with the end of the windows. -/
def portErrors (id id' : EventId) (port port' : ScopeId) : List Operation :=
  [.call (.ingest (.new id "port.crc_errors" ⟨1000⟩ port [(2, 7)])),
    .call (.ingest (.new id' "port.crc_errors" ⟨1000⟩ port' [(2, 7)])),
    .call (.advanceWatermark ⟨5000⟩)]

/-- A run with one order throughout. -/
def runAlong (host : Host) (orders : HashOrders) (ops : List Operation) : Engine :=
  runIn host (ops.map (orders, ·))

/-- Two ports whose scopes have one hash. -/
def onePort : ScopeId := .port 17679811429252909010 1
def otherPort : ScopeId := .port 1488475046863566986 1

theorem results_order_free_ports :
    (runAlong (portHost 0) .forward (portErrors 1 2 onePort otherPort)).diagnostics =
      (runAlong (portHost 0) .backward (portErrors 1 2 onePort otherPort)).diagnostics := by
  have huntied : UntiedRun (portHost 0)
      ((portErrors 1 2 onePort otherPort).map (HashOrders.forward, ·)) := by
    decide +kernel
  have hops : ((portErrors 1 2 onePort otherPort).map (HashOrders.backward, ·)).map Prod.snd =
      ((portErrors 1 2 onePort otherPort).map (HashOrders.forward, ·)).map Prod.snd := rfl
  exact (results_order_free (portHost 0) huntied hops .forward .backward).2.1

/-- One event that was routed to both ports is resumed for one or the other first: the
sink receives the checks in another order, and the rejected causes are reported in
another order. -/
theorem tiedPorts_depend_on_order :
    (verifyWithConfig portCatalog .default crcRules).isOk = true ∧
    onePort.hashKey = otherPort.hashKey ∧
    (runAlong (portHost 256) .forward (portErrors 1 1 onePort otherPort)).sinkLog ≠
      (runAlong (portHost 256) .backward (portErrors 1 1 onePort otherPort)).sinkLog ∧
    (runAlong (portHost 0) .forward (portErrors 1 1 onePort otherPort)).diagnostics ≠
      (runAlong (portHost 0) .backward (portErrors 1 1 onePort otherPort)).diagnostics :=
  ⟨by decide, by decide, by decide +kernel, by decide +kernel⟩

end Adgl
