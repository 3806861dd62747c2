import NFdl.Adgl.Binding
import NFdl.Lib.Table
import NFdl.Lib.Timeline
import Mathlib.Data.List.Sort
import Mathlib.Data.List.TakeWhile

/-!
# The graph store

Every scope has a ring of events in the order of their times, a queue of matches
that wait for their windows to close, and a subgraph of causes, problems and
ambiguities. The store owns these with the global watermark. It never fails: what
overflows is dropped and reported.
-/

namespace Adgl

/-- The bounds of the runtime. -/
structure Limits where
  maxRingbufferEventsPerScope : Nat
  maxPendingPerScope : Nat
  maxCausesPerScope : Nat
  maxRuleFiringsPerEvent : Nat
  maxLookback : DurationMs
  dedupWindow : DurationMs
  maxDisorder : DurationMs
  allowedLateness : DurationMs
  idleTimeout : DurationMs

def Limits.default : Limits where
  maxRingbufferEventsPerScope := 4096
  maxPendingPerScope := 1024
  maxCausesPerScope := 256
  maxRuleFiringsPerEvent := 64
  maxLookback := .ofMillis 60000
  dedupWindow := .ofMillis 1000
  maxDisorder := .zero
  allowedLateness := .zero
  idleTimeout := .ofMillis 30000

/-- What a bounded structure drops when it is full. -/
inductive StoreDiagnostic where
  | ringBufferSpill (scope : ScopeId) (dropped : EventId) (capacity : Nat)
  | waitQueueSpill (scope : ScopeId) (dropped : PendingMatch) (capacity : Nat)
deriving DecidableEq, Repr

/-! ### Rings of events -/

/-- The events of one scope, earliest first, events of one time in the order of
their arrival. -/
structure RingBuffer where
  buf : List EventNode
  scope : ScopeId
  capacity : Nat
  ordered : Timeline.Ordered EventNode.time buf
  length_le : buf.length ≤ capacity
  capacity_pos : 0 < capacity

theorem room_pos (capacity : Nat) : 0 < max capacity 1 := by omega

namespace RingBuffer

/-- An empty ring. A ring without room gets room for one event. -/
def new (scope : ScopeId) (capacity : Nat) : RingBuffer where
  buf := []
  scope := scope
  capacity := max capacity 1
  ordered := .nil
  length_le := Nat.zero_le _
  capacity_pos := room_pos capacity

/-- What stays of the buffer when an event is to be added: a full ring drops its
earliest event. -/
def room (r : RingBuffer) : List EventNode :=
  if r.buf.length = r.capacity then r.buf.tail else r.buf

theorem ordered_room (r : RingBuffer) : Timeline.Ordered EventNode.time r.room := by
  unfold room
  split
  · exact r.ordered.sublist (List.tail_sublist _)
  · exact r.ordered

theorem length_room_lt (r : RingBuffer) : r.room.length < r.capacity := by
  have hle := r.length_le
  have hpos := r.capacity_pos
  unfold room
  split
  · rw [List.length_tail]
    omega
  · omega

/-- Insert an event at its time, after the events of the same time. -/
def push (r : RingBuffer) (event : EventNode) : RingBuffer :=
  { r with
    buf := Timeline.place EventNode.time event r.room
    ordered := r.ordered_room.place event
    length_le := by
      rw [(Timeline.place_perm event r.room).length_eq]
      exact r.length_room_lt }

/-- The event that a push drops. -/
def spill (r : RingBuffer) : Option StoreDiagnostic :=
  if r.buf.length = r.capacity then
    r.buf.head?.map fun dropped => .ringBufferSpill r.scope dropped.id r.capacity
  else none

/-- The events of the window around an anchor, both ends included. -/
def scanWindow (r : RingBuffer) (anchor : EventTime) (back fwd : DurationMs) : List EventNode :=
  Timeline.window EventNode.time (anchor.sub back) (anchor.add fwd) r.buf

def get (r : RingBuffer) (id : EventId) : Option EventNode := r.buf.find? (·.id == id)

/-- Drop what is older than the look-back of the watermark. -/
def gc (r : RingBuffer) (watermark : EventTime) (maxLookback : DurationMs) : RingBuffer :=
  { r with
    buf := Timeline.dropBefore EventNode.time (watermark.sub maxLookback) r.buf
    ordered := r.ordered.dropBefore _
    length_le := (List.dropWhile_sublist _).length_le.trans r.length_le }

@[simp] theorem new_buf (scope : ScopeId) (capacity : Nat) : (new scope capacity).buf = [] := rfl

theorem mem_push {r : RingBuffer} {event e : EventNode} (h : e ∈ (r.push event).buf) :
    e = event ∨ e ∈ r.buf := by
  refine (Timeline.mem_place.mp h).imp id fun hroom => ?_
  unfold room at hroom
  split at hroom
  · exact List.mem_of_mem_tail hroom
  · exact hroom

/-- A push that drops nothing adds the event. -/
theorem push_perm {r : RingBuffer} (h : r.spill = none) (event : EventNode) :
    (r.push event).buf.Perm (event :: r.buf) := by
  have hroom : r.room = r.buf := by
    unfold room
    refine if_neg fun hfull => ?_
    have hnonempty : r.buf ≠ [] := by
      intro hnil
      have := r.capacity_pos
      rw [hnil] at hfull
      simp only [List.length_nil] at hfull
      omega
    rw [spill, if_pos hfull, Option.map_eq_none_iff, List.head?_eq_none_iff] at h
    exact hnonempty h
  change (Timeline.place EventNode.time event r.room).Perm _
  rw [hroom]
  exact Timeline.place_perm event r.buf

theorem mem_gc {r : RingBuffer} {watermark : EventTime} {maxLookback : DurationMs} {e : EventNode} :
    e ∈ (r.gc watermark maxLookback).buf ↔ e ∈ r.buf ∧ watermark.sub maxLookback ≤ e.time :=
  Timeline.mem_dropBefore r.ordered

theorem mem_of_get {r : RingBuffer} {id : EventId} {e : EventNode} (h : r.get id = some e) :
    e ∈ r.buf ∧ e.id = id :=
  ⟨List.mem_of_find?_eq_some h, by simpa using List.find?_some h⟩

end RingBuffer

/-! ### Queues of waiting matches -/

/-- The matches of one scope that wait, the one to be resumed first in front. -/
structure WaitQueue where
  entries : List PendingMatch
  scope : ScopeId
  capacity : Nat
  ordered : entries.Pairwise PendingMatch.le
  length_le : entries.length ≤ capacity
  capacity_pos : 0 < capacity

namespace WaitQueue

def new (scope : ScopeId) (capacity : Nat) : WaitQueue where
  entries := []
  scope := scope
  capacity := max capacity 1
  ordered := .nil
  length_le := Nat.zero_le _
  capacity_pos := room_pos capacity

/-- Add a match to a queue with room. -/
def add (q : WaitQueue) (pending : PendingMatch) (h : q.entries.length < q.capacity) : WaitQueue :=
  { q with
    entries := q.entries.orderedInsert PendingMatch.le pending
    ordered := q.ordered.orderedInsert pending _
    length_le := by rwa [List.orderedInsert_length] }

/-- Take out the match that would be resumed last. -/
def dropLast (q : WaitQueue) : WaitQueue :=
  { q with
    entries := q.entries.dropLast
    ordered := q.ordered.sublist (List.dropLast_sublist _)
    length_le := (List.dropLast_sublist _).length_le.trans q.length_le }

theorem length_dropLast_lt (q : WaitQueue) :
    q.dropLast.entries.length < q.dropLast.capacity := by
  have hle := q.length_le
  have hpos := q.capacity_pos
  change q.entries.dropLast.length < q.capacity
  rw [List.length_dropLast]
  omega

/-- Suspend a match. A full queue drops the match that would be resumed last, which
may be the new one. -/
def push (q : WaitQueue) (pending : PendingMatch) : WaitQueue × Option StoreDiagnostic :=
  if h : q.entries.length < q.capacity then (q.add pending h, none)
  else
    match q.entries.getLast? with
    | some last =>
        if pending.cmp last = .lt then
          (q.dropLast.add pending q.length_dropLast_lt,
            some (.waitQueueSpill q.scope last q.capacity))
        else (q, some (.waitQueueSpill q.scope pending q.capacity))
    | none => (q, some (.waitQueueSpill q.scope pending q.capacity))

/-- The matches whose windows have closed, strictly before the watermark. -/
def expired (q : WaitQueue) (wm : EventTime) : List PendingMatch :=
  q.entries.takeWhile (·.upperBound < wm)

/-- What is left when the expired matches are popped. -/
def waiting (q : WaitQueue) (wm : EventTime) : WaitQueue :=
  { q with
    entries := q.entries.dropWhile (·.upperBound < wm)
    ordered := q.ordered.sublist (List.dropWhile_sublist _)
    length_le := (List.dropWhile_sublist _).length_le.trans q.length_le }

@[simp] theorem new_entries (scope : ScopeId) (capacity : Nat) : (new scope capacity).entries = [] :=
  rfl

theorem mem_push {q : WaitQueue} {pending m : PendingMatch} (h : m ∈ (q.push pending).1.entries) :
    m = pending ∨ m ∈ q.entries := by
  unfold push at h
  split at h
  · exact (List.mem_orderedInsert _).mp h
  · split at h
    · split at h
      · exact ((List.mem_orderedInsert _).mp h).imp id
          fun hmem => (List.dropLast_sublist _).subset hmem
      · exact .inr h
    · exact .inr h

theorem ordered_upperBound (q : WaitQueue) :
    Timeline.Ordered PendingMatch.upperBound q.entries :=
  q.ordered.imp PendingMatch.upperBound_le

theorem mem_waiting {q : WaitQueue} {wm : EventTime} {m : PendingMatch} :
    m ∈ (q.waiting wm).entries ↔ m ∈ q.entries ∧ wm ≤ m.upperBound :=
  Timeline.mem_dropBefore q.ordered_upperBound

theorem mem_expired {q : WaitQueue} {wm : EventTime} {m : PendingMatch}
    (h : m ∈ q.expired wm) : m ∈ q.entries ∧ m.upperBound < wm :=
  ⟨(List.takeWhile_sublist _).subset h, by simpa using List.mem_takeWhile_imp h⟩

end WaitQueue

/-! ### Subgraphs -/

/-- What one inference is counted under: once per rule, cause, target and window. -/
structure RuntimeProvKey where
  key : ProvKey
  windowId : Int
deriving DecidableEq, Repr

/-- A hypothesis. Its time is that of the first inference, and its provenance lists
the keys that were applied to its confidence. -/
structure CauseNode where
  id : NodeId
  kind : CauseKind
  target : ScopeId
  time : EventTime
  confidence : Confidence
  evidence : List NodeId
  provenance : List RuntimeProvKey
deriving DecidableEq, Repr

structure ProblemNode where
  id : NodeId
  kind : ProblemKind
  target : ScopeId
  time : EventTime
  severity : Severity
  evidence : List NodeId
  sarifId : SarifId
  superseded : Bool
deriving DecidableEq, Repr

inductive AmbiguityState where
  | active | resolved
deriving DecidableEq, Repr

structure AmbiguityNode where
  id : NodeId
  causes : CauseKind × CauseKind
  target : ScopeId
  state : AmbiguityState
deriving DecidableEq, Repr

inductive EvidenceEdgeKind where
  | supports | contradicts | explains | rollsUp
deriving DecidableEq, Repr

inductive EdgeEndpoint where
  | event (id : EventId)
  | node (id : NodeId)
deriving DecidableEq, Repr

structure EvidenceEdge where
  kind : EvidenceEdgeKind
  src : EdgeEndpoint
  dst : NodeId
deriving DecidableEq, Repr

/-- The record of an emission, for the cooldown. -/
structure EmittedProblem where
  rule : RuleId
  problem : ProblemKind
  target : ScopeId
  wm : EventTime
deriving DecidableEq, Repr

def EmittedProblem.sameKey (p : EmittedProblem) (rule : RuleId) (problem : ProblemKind)
    (target : ScopeId) : Bool :=
  p.rule == rule && p.problem == problem && p.target == target

structure SubGraph where
  causes : Table (CauseKind × ScopeId) CauseNode
  problems : List ProblemNode
  ambiguities : Table ((CauseKind × CauseKind) × ScopeId) AmbiguityNode
  edges : List EvidenceEdge
  seenProvenance : List RuntimeProvKey
  emittedProblems : List EmittedProblem

namespace SubGraph

def empty : SubGraph := ⟨∅, [], ∅, [], [], []⟩

/-- Register a key, unless it was seen. -/
def tryInsertProvenance (g : SubGraph) (key : RuntimeProvKey) : Option SubGraph :=
  if key ∈ g.seenProvenance then none
  else some { g with seenProvenance := key :: g.seenProvenance }

/-- Forget the keys of the windows before the look-back of the watermark. -/
def pruneProvenance (g : SubGraph) (wm : EventTime) (maxLookback dedupWindow : DurationMs) :
    SubGraph :=
  { g with
    seenProvenance := g.seenProvenance.filter fun k =>
      windowId (wm.sub maxLookback) dedupWindow ≤ k.windowId }

/-- Record an emission, unless the last one of the same key is within its cooldown. -/
def tryMarkEmitted (g : SubGraph) (rule : RuleId) (problem : ProblemKind) (target : ScopeId)
    (wm : EventTime) (cooldown : DurationMs) : Option SubGraph :=
  if g.emittedProblems.any fun p => p.sameKey rule problem target &&
      (saturatingSub wm.millis p.wm.millis).toInt ≤ cooldown.toInt then none
  else some { g with
    emittedProblems := ⟨rule, problem, target, wm⟩ ::
      g.emittedProblems.filter fun p => !p.sameKey rule problem target }

def pruneEmitted (g : SubGraph) (wm : EventTime) (maxCooldown : DurationMs) : SubGraph :=
  { g with emittedProblems := g.emittedProblems.filter fun p => wm.sub maxCooldown ≤ p.wm }

def pushProblem (g : SubGraph) (problem : ProblemNode) : SubGraph :=
  { g with problems := g.problems ++ [problem] }

/-- Mark the problems of a kind and target. -/
def supersedeProblems (g : SubGraph) (kind : ProblemKind) (target : ScopeId) : SubGraph :=
  { g with
    problems := g.problems.map fun p =>
      if !p.superseded && p.kind == kind && p.target == target then { p with superseded := true }
      else p }

end SubGraph

/-! ### The store -/

structure GraphStore where
  partitions : Table ScopeId SubGraph
  rings : Table ScopeId RingBuffer
  watermark : EventTime
  pending : Table ScopeId WaitQueue

namespace GraphStore

def new : GraphStore := ⟨∅, ∅, .minimum, ∅⟩

/-- The watermark never goes back. -/
def advanceWatermark (s : GraphStore) (t : EventTime) : GraphStore :=
  { s with watermark := max s.watermark t }

variable (limits : Limits)

/-- The ring of a scope, which is created on the first use. -/
def ringOf (s : GraphStore) (scope : ScopeId) : RingBuffer :=
  (s.rings.lookup scope).getD (.new scope limits.maxRingbufferEventsPerScope)

def pushEvent (s : GraphStore) (event : EventNode) : GraphStore :=
  { s with
    rings := Table.update s.rings event.scope
      (.new event.scope limits.maxRingbufferEventsPerScope) (·.push event) }

/-- The events that the store still has of a scope. -/
def events (s : GraphStore) (scope : ScopeId) : List EventNode :=
  ((s.rings.lookup scope).map RingBuffer.buf).getD []

/-- What pushing an event drops. -/
def pushSpill (s : GraphStore) (event : EventNode) : Option StoreDiagnostic :=
  (s.ringOf limits event.scope).spill

def partition (s : GraphStore) (scope : ScopeId) : Option SubGraph := s.partitions.lookup scope

/-- The subgraph of a scope, which is created on the first use. -/
def partitionOf (s : GraphStore) (scope : ScopeId) : SubGraph :=
  (s.partitions.lookup scope).getD .empty

/-- Mutable access creates the subgraph. -/
def openPartition (s : GraphStore) (scope : ScopeId) : GraphStore :=
  { s with partitions := Table.update s.partitions scope .empty id }

def setPartition (s : GraphStore) (scope : ScopeId) (g : SubGraph) : GraphStore :=
  { s with partitions := AList.insert scope g s.partitions }

/-- The queue of a scope, which is created on the first use. -/
def queueOf (s : GraphStore) (scope : ScopeId) : WaitQueue :=
  (s.pending.lookup scope).getD (.new scope limits.maxPendingPerScope)

def suspend (s : GraphStore) (pending : PendingMatch) : GraphStore × Option StoreDiagnostic :=
  let pushed := (s.queueOf limits pending.scope).push pending
  ({ s with pending := AList.insert pending.scope pushed.1 s.pending }, pushed.2)

/-- The matches of all scopes whose windows have closed, in the order of
resumption. -/
def expired (s : GraphStore) (wm : EventTime) : List PendingMatch :=
  (s.pending.values.flatMap (·.expired wm)).insertionSort PendingMatch.le

/-- The store without the expired matches. -/
def popExpired (s : GraphStore) (wm : EventTime) : GraphStore :=
  { s with pending := s.pending.mapValues (·.waiting wm) }

/-- Drop the events and forget the keys behind the look-back of the watermark. -/
def gc (s : GraphStore) (watermark : EventTime) : GraphStore :=
  { s with
    rings := s.rings.mapValues (·.gc watermark limits.maxLookback)
    partitions := s.partitions.mapValues
      (·.pruneProvenance watermark limits.maxLookback limits.dedupWindow) }

def pruneEmitted (s : GraphStore) (wm : EventTime) (maxCooldown : DurationMs) : GraphStore :=
  { s with partitions := s.partitions.mapValues (·.pruneEmitted wm maxCooldown) }

variable {limits}

theorem mem_expired {s : GraphStore} {wm : EventTime} {m : PendingMatch} (h : m ∈ s.expired wm) :
    ∃ scope q, s.pending.lookup scope = some q ∧ m ∈ q.entries ∧ m.upperBound < wm := by
  obtain ⟨q, hq, hm⟩ := List.mem_flatMap.mp ((List.mem_insertionSort _).mp h)
  obtain ⟨scope, hscope⟩ := Table.mem_values_iff.mp hq
  exact ⟨scope, q, hscope, WaitQueue.mem_expired hm⟩

end GraphStore

end Adgl
