import NFdl.Adgl.Store

/-!
# Rings of events over whole runs

A ring is filled by pushes and emptied by garbage collections. Whatever their order, its
events stand in the order of their times and those of one time in the order of their
arrival, and a scan finds the events of its window. A full ring makes room before it looks
at the new event, so that it keeps the newest events only if the new one is not older than
all others.
-/

namespace Adgl

namespace RingBuffer

/-! ### Runs -/

inductive Op where
  | push (event : EventNode)
  | gc (watermark : EventTime) (maxLookback : DurationMs)

def apply (r : RingBuffer) : Op → RingBuffer
  | .push event => r.push event
  | .gc watermark maxLookback => r.gc watermark maxLookback

/-- A ring after some operations. -/
def run (scope : ScopeId) (capacity : ℕ) (ops : List Op) : RingBuffer :=
  ops.foldl apply (new scope capacity)

/-- The events that some operations push, in the order of their arrival. -/
def arrivals (ops : List Op) : List EventNode :=
  ops.filterMap fun
    | .push event => some event
    | .gc _ _ => none

/-- Events of one time. -/
def atTime (t : EventTime) (l : List EventNode) : List EventNode := l.filter fun e => e.time = t

/-- Beside what its type says, a ring holds the events of every time in the order in which
they arrived. -/
def InArrivalOrder (r : RingBuffer) (arrived : List EventNode) : Prop :=
  ∀ t, (atTime t r.buf).Sublist (atTime t arrived)

variable {r : RingBuffer} {arrived : List EventNode}

@[simp] theorem apply_capacity (r : RingBuffer) (op : Op) : (r.apply op).capacity = r.capacity := by
  cases op <;> rfl

theorem InArrivalOrder.push (h : r.InArrivalOrder arrived) (event : EventNode) :
    (r.push event).InArrivalOrder (arrived ++ [event]) := by
  intro t
  have hroom : (atTime t r.room).Sublist (atTime t r.buf) := by
    refine List.Sublist.filter _ ?_
    unfold room
    split
    · exact List.tail_sublist _
    · exact .refl _
  have hplace : atTime t (r.push event).buf =
      atTime t r.room ++ if event.time = t then [event] else [] :=
    Timeline.filter_place r.ordered_room event t
  rw [hplace]
  unfold atTime at hroom ⊢
  rw [List.filter_append]
  refine (hroom.trans (h t)).append ?_
  by_cases ht : event.time = t
  · rw [if_pos ht, List.filter_cons_of_pos (by simpa using ht)]
    exact .refl _
  · rw [if_neg ht]
    exact List.nil_sublist _

theorem InArrivalOrder.gc (h : r.InArrivalOrder arrived) (watermark : EventTime)
    (maxLookback : DurationMs) : (r.gc watermark maxLookback).InArrivalOrder arrived :=
  fun t => ((List.dropWhile_sublist _).filter _).trans (h t)

theorem InArrivalOrder.apply (h : r.InArrivalOrder arrived) (op : Op) :
    (r.apply op).InArrivalOrder (arrived ++ arrivals [op]) := by
  cases op with
  | push event => exact h.push event
  | gc watermark maxLookback =>
      change (r.gc watermark maxLookback).InArrivalOrder (arrived ++ [])
      rw [List.append_nil]
      exact h.gc watermark maxLookback

theorem inArrivalOrder_foldl (h : r.InArrivalOrder arrived) (ops : List Op) :
    (ops.foldl RingBuffer.apply r).InArrivalOrder (arrived ++ arrivals ops) := by
  induction ops generalizing r arrived with
  | nil =>
      change r.InArrivalOrder (arrived ++ [])
      rwa [List.append_nil]
  | cons op ops ih =>
      have hops : arrivals (op :: ops) = arrivals [op] ++ arrivals ops :=
        List.filterMap_append (l := [op])
      rw [hops, ← List.append_assoc]
      exact ih (h.apply op)

theorem run_capacity (scope : ScopeId) (capacity : ℕ) (ops : List Op) :
    (run scope capacity ops).capacity = max capacity 1 := by
  have hfold : ∀ r : RingBuffer, (ops.foldl RingBuffer.apply r).capacity = r.capacity := by
    induction ops with
    | nil => exact fun _ => rfl
    | cons op ops ih => exact fun r => (ih _).trans (apply_capacity r op)
  exact hfold _

/-! ### Windows -/

/-- The ends of a window saturate, but no event lies beyond them. -/
theorem mem_window_iff (t anchor : EventTime) (back fwd : DurationMs) :
    anchor.sub back ≤ t ∧ t ≤ anchor.add fwd ↔
      anchor.toInt - back.toInt ≤ t.toInt ∧ t.toInt ≤ anchor.toInt + fwd.toInt := by
  have hmin : -2 ^ 63 ≤ t.toInt := Int64.le_toInt t.millis
  have hmax : t.toInt < 2 ^ 63 := Int64.toInt_lt t.millis
  have hanchor : -2 ^ 63 ≤ anchor.toInt := Int64.le_toInt anchor.millis
  have hanchor' : anchor.toInt < 2 ^ 63 := Int64.toInt_lt anchor.millis
  have hback : 0 ≤ back.toInt := back.nonneg
  have hfwd : 0 ≤ fwd.toInt := fwd.nonneg
  rw [EventTime.le_iff, EventTime.le_iff, EventTime.toInt_sub, EventTime.toInt_add]
  omega

theorem scanWindow_eq (r : RingBuffer) (anchor : EventTime) (back fwd : DurationMs) :
    r.scanWindow anchor back fwd = r.buf.filter fun e =>
      anchor.toInt - back.toInt ≤ e.time.toInt ∧ e.time.toInt ≤ anchor.toInt + fwd.toInt := by
  unfold scanWindow
  rw [Timeline.window_eq_filter r.ordered]
  exact List.filter_congr fun e _ => decide_eq_decide.mpr (mem_window_iff e.time anchor back fwd)

/-- After all operations the ring is sorted, events of one time in the order of their
arrival, it is within its capacity, and a scan gives the events of the window, in order. -/
theorem ring_represents (scope : ScopeId) (capacity : ℕ) (ops : List Op) :
    Timeline.Ordered EventNode.time (run scope capacity ops).buf ∧
      (∀ t, (atTime t (run scope capacity ops).buf).Sublist (atTime t (arrivals ops))) ∧
      (run scope capacity ops).buf.length ≤ max capacity 1 ∧
      ∀ anchor back fwd, (run scope capacity ops).scanWindow anchor back fwd =
        (run scope capacity ops).buf.filter fun e =>
          anchor.toInt - back.toInt ≤ e.time.toInt ∧
            e.time.toInt ≤ anchor.toInt + fwd.toInt := by
  have hempty : (new scope capacity).InArrivalOrder [] := fun _ => .refl _
  refine ⟨(run scope capacity ops).ordered, ?_, ?_, scanWindow_eq _⟩
  · exact inArrivalOrder_foldl hempty ops
  · rw [← run_capacity scope capacity ops]
    exact (run scope capacity ops).length_le

/-! ### Overflow -/

/-- The newest of some events in the order of their arrival, in the order of their times. -/
def newest (n : ℕ) (l : List EventNode) : List EventNode :=
  (l.insertionSort (Timeline.NotLater EventNode.time)).drop (l.length - n)

theorem newest_full (hfull : r.buf.length = r.capacity) (event : EventNode) :
    newest r.capacity (r.buf ++ [event]) = (Timeline.place EventNode.time event r.buf).tail := by
  have hone : (r.buf ++ [event]).length - r.capacity = 1 := by
    rw [List.length_append, List.length_singleton]
    omega
  unfold newest
  rw [hone, ← Timeline.place_eq_insertionSort r.ordered, List.drop_one]

/-- A full ring keeps the newest events exactly if the new event is not older than the
oldest one in the ring. -/
theorem overflow_keeps_newest_iff (r : RingBuffer) (hfull : r.buf.length = r.capacity)
    (event : EventNode) :
    (r.push event).buf = newest r.capacity (r.buf ++ [event]) ↔
      ∀ front ∈ r.buf.head?, front.time ≤ event.time := by
  have hpush : (r.push event).buf = Timeline.place EventNode.time event r.buf.tail := by
    change Timeline.place EventNode.time event r.room = _
    unfold room
    rw [if_pos hfull]
  rw [hpush, newest_full hfull]
  cases hbuf : r.buf with
  | nil =>
      have hpos := r.capacity_pos
      rw [hbuf] at hfull
      exact absurd hpos (by rw [← hfull]; exact Nat.lt_irrefl 0)
  | cons front rest =>
      obtain ⟨hfront, -⟩ := List.pairwise_cons.mp (hbuf ▸ r.ordered)
      have hhead : (∀ e ∈ (front :: rest).head?, e.time ≤ event.time) ↔
          front.time ≤ event.time := by simp
      rw [hhead, List.tail_cons]
      by_cases hle : front.time ≤ event.time
      · rw [Timeline.place_cons_of_le hle, List.tail_cons]
        exact ⟨fun _ => hle, fun _ => rfl⟩
      · have hfirst : ∀ e ∈ front :: rest, ¬ e.time ≤ event.time := by
          intro e he hee
          obtain rfl | he := List.mem_cons.mp he
          · exact hle hee
          · exact hle ((hfront e he).trans hee)
        rw [Timeline.place_of_earlier hfirst,
          Timeline.place_of_earlier fun e he => hfirst e (List.mem_cons_of_mem _ he), List.tail_cons]
        refine ⟨fun heq => ?_, fun h => absurd h hle⟩
        obtain ⟨rfl, -⟩ := List.cons.inj heq
        exact absurd le_rfl hle

/-- An event at some time of a session. -/
def sessionEvent (id : EventId) (millis : Int64) : EventNode :=
  .new id "tcp.retransmission" ⟨millis⟩ ⟨.session, 7⟩ []

/-- A ring with room for one event, which it has. -/
def single : RingBuffer := (new ⟨.session, 7⟩ 1).push (sessionEvent 1 10)

theorem overflow_keeps_newest_iff_single :
    (single.push (sessionEvent 2 5)).buf = newest single.capacity
        (single.buf ++ [sessionEvent 2 5]) ↔
      ∀ front ∈ single.buf.head?, front.time ≤ (sessionEvent 2 5).time :=
  overflow_keeps_newest_iff single (by rfl) (sessionEvent 2 5)

/-- An event that is older than all others takes the place of a newer one. -/
theorem late_event_evicts_newer : ¬ ∀ (r : RingBuffer) (event : EventNode),
    r.buf.length = r.capacity →
      (r.push event).buf = newest r.capacity (r.buf ++ [event]) := by
  intro h
  have hids := congrArg (List.map EventNode.id) (h single (sessionEvent 2 5) rfl)
  exact absurd hids (by decide)

end RingBuffer

end Adgl
