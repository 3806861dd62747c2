import NFdl.Adgl.Ir

/-!
# The catalog

The catalog lists what rules may name: events with their fields, causes and
problems with the scopes they are valid for, actions, topology functions and
capabilities. The verifier and the engine only look entries up, so they take the
catalog as a parameter.
-/

namespace Adgl

inductive FieldType where
  | int | string | severity | confidence | sarifId
  | scopeId (scope : ScopeType)
  | scopeIdList | intList | nodeIdList
deriving DecidableEq, Repr

structure FieldSchema where
  name : String
  fieldType : FieldType
  pii : Bool
  idx : FieldIdx
deriving DecidableEq, Repr

/-- The route from an event to a scope key. -/
structure ScopeRoute where
  scope : ScopeType
  path : String
deriving DecidableEq, Repr

structure EventSchema where
  name : EventType
  fields : List FieldSchema
  routingPaths : List ScopeRoute
deriving DecidableEq, Repr

structure CauseSchema where
  name : CauseKind
  validScopes : List ScopeType
deriving DecidableEq, Repr

structure ProblemSchema where
  name : ProblemKind
  validScopes : List ScopeType
  defaultSarifId : SarifId
  severity : Option Severity
deriving DecidableEq, Repr

inductive ActionTargetType where
  | scopeId | scopeIdList
deriving DecidableEq, Repr

inductive ActionArgKind where
  | observationKind | checkKind | problemRefBinding | none
deriving DecidableEq, Repr

structure ActionSchema where
  kind : ActionKind
  argKind : ActionArgKind
  targetTypes : List ActionTargetType
deriving DecidableEq, Repr

namespace ActionSchema

/-- The keyword of the action. -/
def name (schema : ActionSchema) : String := schema.kind.asStr

def all : List ActionSchema :=
  [⟨.requestObservation, .observationKind, [.scopeId, .scopeIdList]⟩,
    ⟨.runCheck, .checkKind, [.scopeId]⟩, ⟨.suppressSymptom, .problemRefBinding, []⟩,
    ⟨.markAmbiguous, .none, [.scopeId]⟩, ⟨.requestTopology, .none, [.scopeId]⟩]

end ActionSchema

structure TopoFnSchema where
  name : String
  funcIdx : TopoFuncIdx
  arity : Nat
deriving DecidableEq, Repr

def TopoFnSchema.all : List TopoFnSchema :=
  [⟨"same_session", 0, 2⟩, ⟨"same_client", 1, 2⟩, ⟨"same_port", 2, 2⟩, ⟨"same_ap", 3, 2⟩,
    ⟨"same_vlan", 4, 2⟩, ⟨"upstream_of", 5, 2⟩]

def causeFieldTarget : FieldIdx := 0
def causeFieldTime : FieldIdx := 1
def causeFieldConfidence : FieldIdx := 2
def problemFieldTarget : FieldIdx := 0
def problemFieldTime : FieldIdx := 1

def causeFields : List FieldSchema :=
  [⟨"target", .scopeId .global, false, causeFieldTarget⟩, ⟨"time", .int, false, causeFieldTime⟩,
    ⟨"confidence", .confidence, false, causeFieldConfidence⟩, ⟨"evidence", .nodeIdList, false, 3⟩]

def problemFields : List FieldSchema :=
  [⟨"target", .scopeId .global, false, problemFieldTarget⟩,
    ⟨"time", .int, false, problemFieldTime⟩, ⟨"severity", .severity, false, 2⟩,
    ⟨"evidence", .nodeIdList, false, 3⟩, ⟨"sarif_id", .sarifId, false, 4⟩]

/-- The tables of the catalog. Causes, problems, actions and topology functions
have the same fields in every catalog. -/
structure Catalog where
  events : List EventSchema
  causes : List CauseSchema
  problems : List ProblemSchema
  capabilities : List Capability
  observationKinds : List String
  checkKinds : List String
  exclusivityDefaults : List (CauseKind × CauseKind)

/-- The type of a binding: what it is bound to. -/
inductive BindingTy where
  | event (eventType : EventType)
  | cause (kind : CauseKind)
  | problem (kind : ProblemKind)
deriving DecidableEq, Repr

def resolveAction (name : String) : Option ActionSchema :=
  ActionSchema.all.find? (·.name == name)

def resolveTopoFn (name : String) : Option TopoFnSchema :=
  TopoFnSchema.all.find? (·.name == name)

/-- The last segment of a dotted path. -/
def lastSegment (path : String) : String :=
  String.ofList ((splitDots path.toList).getLastD [])

namespace Catalog

def resolveEvent (catalog : Catalog) (name : EventType) : Option EventSchema :=
  catalog.events.find? (·.name == name)

def resolveCause (catalog : Catalog) (name : CauseKind) : Option CauseSchema :=
  catalog.causes.find? (·.name == name)

def resolveProblem (catalog : Catalog) (name : ProblemKind) : Option ProblemSchema :=
  catalog.problems.find? (·.name == name)

def capabilityFor (catalog : Catalog) (name : String) : Option Capability :=
  catalog.capabilities.find? (· == name)

/-- Look up the field that the last segment of the path names. -/
def resolveMetricPath (catalog : Catalog) (ty : BindingTy) (path : String) :
    Option (FieldIdx × FieldType) := do
  let fields ← match ty with
    | .event event => (catalog.resolveEvent event).map EventSchema.fields
    | .cause cause => (catalog.resolveCause cause).map fun _ => causeFields
    | .problem problem => (catalog.resolveProblem problem).map fun _ => problemFields
  let field ← fields.find? (·.name == lastSegment path)
  return (field.idx, field.fieldType)

/-- The first entries of each table, with the complete small tables. -/
def seed : Catalog where
  events := [
    { name := "tcp.retransmission_burst"
      fields := [⟨"segment_size", .int, false, 0⟩, ⟨"target", .scopeId .session, false, 1⟩,
        ⟨"time", .int, false, 2⟩, ⟨"vlan", .scopeId .vlan, false, 3⟩,
        ⟨"path", .scopeIdList, false, 4⟩, ⟨"dst_ip", .int, true, 5⟩, ⟨"src_ip", .int, true, 6⟩]
      routingPaths := [⟨.session, "target"⟩, ⟨.vlan, "vlan"⟩, ⟨.vlan, "path"⟩] },
    { name := "icmp.ptb"
      fields := [⟨"target", .scopeId .session, false, 0⟩, ⟨"time", .int, false, 1⟩,
        ⟨"quoted_mtu", .int, false, 2⟩, ⟨"path", .scopeIdList, false, 3⟩,
        ⟨"dst_ip", .int, true, 4⟩]
      routingPaths := [⟨.session, "target"⟩] }]
  causes := [⟨"PmtudBlackhole", [.session, .vlan]⟩, ⟨"Congestion", [.session]⟩,
    ⟨"TransientL2Disruption", [.session, .vlan]⟩, ⟨"PhysicalCableDamage", [.port]⟩,
    ⟨"AuthServerOutage", [.vlan]⟩, ⟨"RfInterference", [.accessPoint]⟩,
    ⟨"UpstreamOutage", [.global]⟩, ⟨"PhysicalLinkAbsent", [.port]⟩]
  problems := [⟨"XlIcmpTcpMss", [.session], "l3_pmtud_blackhole", none⟩,
    ⟨"CableDisconnected", [.port], "ap_port_cable_disconnected", none⟩,
    ⟨"SpanningTreeInstability", [.vlan], "l3_stp_spanning_tree", none⟩,
    ⟨"ClientOnboardingFailure", [.vlan], "l3_dot1x_wired", none⟩,
    ⟨"WlanRadiusOutage", [.vlan], "ap_wlan_radius_outage", none⟩,
    ⟨"DeviceUnreachable", [.global], "ap_device_unreachable", none⟩,
    ⟨"AmbiguousDiagnosis", [.session, .port, .clientMac, .vlan, .accessPoint, .global],
      "ap_ambiguous", some .medium⟩]
  capabilities := ["l3-deep", "topology", "wifi-ota", "radio-nemo"]
  observationKinds := ["icmp.visibility", "aaa.telemetry", "wifi.rf_metrics"]
  checkKinds := ["cable_loopback", "lldp_poll", "stp_root_check"]
  exclusivityDefaults := [("Congestion", "PmtudBlackhole"),
    ("Congestion", "TransientL2Disruption"), ("PmtudBlackhole", "TransientL2Disruption"),
    ("PhysicalCableDamage", "PhysicalLinkAbsent"), ("AuthServerOutage", "RfInterference"),
    ("PacketLossPath", "SpuriousRetransmission"), ("PacketLossPath", "RadioChannelDegradation"),
    ("BufferbloatQueue", "MiddleboxInterference"), ("PmtudPathIssue", "PacketLossPath")]

end Catalog

end Adgl
