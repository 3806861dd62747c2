import NFdl.Adgl.Store
import NFdl.Lib.Heap

/-!
# Waiting matches

The source keeps the matches that wait in a binary heap. In every run such a queue holds
what was pushed and has not gone, and nothing goes without being reported or returned. For
the matches of one scope the arrangement of the heap does not show, and the sorted queue of
the store answers the same.
-/

namespace Adgl

/-- The matches that wait, in the order of their heap. -/
structure WaitHeap where
  heap : Heap PendingMatch.le
  scope : ScopeId
  capacity : ℕ
  length_le : heap.entries.length ≤ capacity
  capacity_pos : 0 < capacity

theorem empty_length_le (capacity : ℕ) :
    (Heap.empty : Heap PendingMatch.le).entries.length ≤ max capacity 1 := Nat.zero_le _

namespace WaitHeap

def new (scope : ScopeId) (capacity : ℕ) : WaitHeap where
  heap := .empty
  scope := scope
  capacity := max capacity 1
  length_le := empty_length_le capacity
  capacity_pos := room_pos capacity

variable (L : Heap.Layout PendingMatch.le)

/-- Add a match to a queue with room. -/
def add (q : WaitHeap) (pending : PendingMatch) (h : q.heap.entries.length < q.capacity) :
    WaitHeap :=
  { q with
    heap := q.heap.push L pending
    length_le := by rwa [(Heap.push_perm _ _).length_eq] }

/-- Rebuild the heap with a match in the place of another one. -/
def replace (q : WaitHeap) {max : PendingMatch} (hmax : max ∈ q.heap.entries)
    (pending : PendingMatch) : WaitHeap :=
  { q with
    heap := .collect L (pending :: q.heap.entries.erase max)
    length_le := by
      have hpos := List.length_pos_of_mem hmax
      have hle := q.length_le
      rw [(Heap.collect_perm _).length_eq, List.length_cons, List.length_erase_of_mem hmax]
      omega }

/-- Suspend a match. A full queue drops the least urgent match, which may be the new one. -/
def push (q : WaitHeap) (pending : PendingMatch) : WaitHeap × Option StoreDiagnostic :=
  if h : q.heap.entries.length < q.capacity then (q.add L pending h, none)
  else
    match hmax : Heap.greatest PendingMatch.le q.heap.entries with
    | some max =>
        if pending.cmp max = .lt then
          (q.replace L (Heap.greatest_mem hmax).1 pending,
            some (.waitQueueSpill q.scope max q.capacity))
        else (q, some (.waitQueueSpill q.scope pending q.capacity))
    | none => (q, some (.waitQueueSpill q.scope pending q.capacity))

/-- Pop the matches whose windows have closed, strictly before the watermark. -/
def popExpired (q : WaitHeap) (wm : EventTime) : List PendingMatch × WaitHeap :=
  let popped := q.heap.popWhile L (·.upperBound < wm)
  (popped.1, { q with
    heap := popped.2
    length_le := (Heap.popWhile_length q.heap).trans q.length_le })

/-- Take out all matches in the order of resumption. -/
def drainAll (q : WaitHeap) : List PendingMatch × WaitHeap :=
  (q.heap.entries.insertionSort PendingMatch.le, { q with
    heap := .empty
    length_le := Nat.zero_le _ })

@[simp] theorem new_entries (scope : ScopeId) (capacity : ℕ) :
    (new scope capacity).heap.entries = [] := rfl

variable {L} {q : WaitHeap}

/-! ### One operation -/

theorem push_of_room (h : q.heap.entries.length < q.capacity) (pending : PendingMatch) :
    (q.push L pending).2 = none ∧
      (q.push L pending).1.heap.entries.Perm (pending :: q.heap.entries) := by
  unfold push
  rw [dif_pos h]
  exact ⟨rfl, Heap.push_perm _ _⟩

/-- What a full queue drops is reported and is a greatest one of the matches that it had
and the new one. -/
theorem push_of_full (h : q.heap.entries.length = q.capacity) (pending : PendingMatch) :
    ∃ dropped ∈ pending :: q.heap.entries, (∀ m ∈ pending :: q.heap.entries, m.le dropped) ∧
      (q.push L pending).2 = some (.waitQueueSpill q.scope dropped q.capacity) ∧
      (pending :: q.heap.entries).Perm (dropped :: (q.push L pending).1.heap.entries) := by
  have hrefl : pending.le pending := (Std.Total.total pending pending).elim id id
  unfold push
  rw [dif_neg (by omega)]
  split
  · next max hmax =>
      obtain ⟨hmem, hle⟩ := Heap.greatest_mem hmax
      split
      · next hlt =>
          refine ⟨max, List.mem_cons_of_mem _ hmem, fun m hm => ?_, rfl, ?_⟩
          · obtain rfl | hm := List.mem_cons.mp hm
            · unfold PendingMatch.le
              rw [hlt]
              rfl
            · exact hle m hm
          · refine .trans ?_ ((Heap.collect_perm _).symm.cons max)
            exact ((List.perm_cons_erase hmem).cons pending).trans (.swap max pending _)
      · next hge =>
          have hmax_le : max.le pending := by
            refine (Std.Total.total max pending).elim id fun hle' => ?_
            have hgt : (max.cmp pending) ≠ .gt := fun hgt =>
              hge (Std.OrientedCmp.lt_of_gt hgt)
            exact Ordering.isLE_iff_ne_gt.mpr hgt
          refine ⟨pending, List.mem_cons_self .., fun m hm => ?_, rfl, .refl _⟩
          obtain rfl | hm := List.mem_cons.mp hm
          · exact hrefl
          · exact IsTrans.trans _ _ _ (hle m hm) hmax_le
  · next hnone =>
      have hpos := q.capacity_pos
      rw [Heap.greatest_eq_none hnone] at h
      exact absurd hpos (by rw [← h]; exact Nat.lt_irrefl 0)

theorem expired_down (wm : EventTime) (a b : PendingMatch) (hab : a.le b)
    (hb : decide (b.upperBound < wm) = true) : decide (a.upperBound < wm) = true := by
  rw [decide_eq_true_iff] at hb ⊢
  exact lt_of_le_of_lt (PendingMatch.upperBound_le hab) hb

theorem popExpired_ordered (wm : EventTime) : (q.popExpired L wm).1.Pairwise PendingMatch.le :=
  Heap.popWhile_ordered (expired_down wm) q.heap

theorem popExpired_perm (wm : EventTime) :
    (q.popExpired L wm).1.Perm (q.heap.entries.filter (·.upperBound < wm)) :=
  (Heap.popWhile_perm (expired_down wm) q.heap).1

theorem popExpired_rest (wm : EventTime) :
    (q.popExpired L wm).2.heap.entries.Perm
      (q.heap.entries.filter fun m => !decide (m.upperBound < wm)) :=
  (Heap.popWhile_perm (expired_down wm) q.heap).2

theorem drainAll_ordered (q : WaitHeap) : q.drainAll.1.Pairwise PendingMatch.le :=
  List.pairwise_insertionSort _ _

theorem drainAll_perm (q : WaitHeap) : q.drainAll.1.Perm q.heap.entries :=
  List.perm_insertionSort _ _

@[simp] theorem push_capacity (pending : PendingMatch) :
    (q.push L pending).1.capacity = q.capacity := by
  unfold push
  split
  · rfl
  · split
    · split <;> rfl
    · rfl

@[simp] theorem push_scope (pending : PendingMatch) : (q.push L pending).1.scope = q.scope := by
  unfold push
  split
  · rfl
  · split
    · split <;> rfl
    · rfl

@[simp] theorem popExpired_capacity (wm : EventTime) :
    (q.popExpired L wm).2.capacity = q.capacity := rfl

/-- What a push does: a queue with room takes the match, a full one drops a greatest of
the matches that it had and the new one, and reports it. -/
structure Suspends (L : Heap.Layout PendingMatch.le) (q : WaitHeap) (pending : PendingMatch) :
    Prop where
  room : q.heap.entries.length < q.capacity → (q.push L pending).2 = none ∧
    (q.push L pending).1.heap.entries.Perm (pending :: q.heap.entries)
  full : q.heap.entries.length = q.capacity →
    ∃ dropped ∈ pending :: q.heap.entries, (∀ m ∈ pending :: q.heap.entries, m.le dropped) ∧
      (q.push L pending).2 = some (.waitQueueSpill q.scope dropped q.capacity) ∧
      (pending :: q.heap.entries).Perm (dropped :: (q.push L pending).1.heap.entries)

/-- What popping the expired matches does: exactly these are returned, in their order, and
all others stay. -/
structure Expires (L : Heap.Layout PendingMatch.le) (q : WaitHeap) (wm : EventTime) : Prop where
  returned : (q.popExpired L wm).1.Perm (q.heap.entries.filter (·.upperBound < wm))
  ordered : (q.popExpired L wm).1.Pairwise PendingMatch.le
  rest : (q.popExpired L wm).2.heap.entries.Perm
    (q.heap.entries.filter fun m => !decide (m.upperBound < wm))

/-- Draining returns everything in its order. -/
structure Drains (q : WaitHeap) : Prop where
  returned : q.drainAll.1.Perm q.heap.entries
  ordered : q.drainAll.1.Pairwise PendingMatch.le
  rest : q.drainAll.2.heap.entries = []

/-! ### Runs -/

inductive Op where
  | push (pending : PendingMatch)
  | popExpired (wm : EventTime)
  | drainAll

/-- What an operation reports as dropped and what it returns. -/
structure Reply where
  dropped : List PendingMatch
  returned : List PendingMatch

/-- The match that a report is about. -/
def droppedMatches : Option StoreDiagnostic → List PendingMatch
  | some (.waitQueueSpill _ dropped _) => [dropped]
  | some (.ringBufferSpill ..) | none => []

/-- A queue with the answers that it has given. -/
structure Run where
  queue : WaitHeap
  replies : List Reply

/-- All matches that have gone from the queue. -/
def Run.gone (r : Run) : List PendingMatch := r.replies.flatMap fun a => a.dropped ++ a.returned

variable (L)

def apply (q : WaitHeap) : Op → WaitHeap × Reply
  | .push pending => ((q.push L pending).1, ⟨droppedMatches (q.push L pending).2, []⟩)
  | .popExpired wm => ((q.popExpired L wm).2, ⟨[], (q.popExpired L wm).1⟩)
  | .drainAll => (q.drainAll.2, ⟨[], q.drainAll.1⟩)

def Run.step (r : Run) (op : Op) : Run :=
  ⟨(r.queue.apply L op).1, r.replies ++ [(r.queue.apply L op).2]⟩

def run (scope : ScopeId) (capacity : ℕ) (ops : List Op) : Run :=
  ops.foldl (Run.step L) ⟨new scope capacity, []⟩

variable {L}

/-- The matches that an operation brings. -/
def Op.brought : Op → List PendingMatch
  | .push pending => [pending]
  | .popExpired _ | .drainAll => []

/-- Nothing is lost or duplicated by an operation. -/
theorem apply_perm (q : WaitHeap) (op : Op) :
    (op.brought ++ q.heap.entries).Perm ((q.apply L op).1.heap.entries ++
      ((q.apply L op).2.dropped ++ (q.apply L op).2.returned)) := by
  cases op with
  | push pending =>
      change (pending :: q.heap.entries).Perm
        ((q.push L pending).1.heap.entries ++ (droppedMatches (q.push L pending).2 ++ []))
      rw [List.append_nil]
      rcases Nat.lt_or_eq_of_le q.length_le with hroom | hfull
      · obtain ⟨hnone, hperm⟩ := push_of_room (L := L) hroom pending
        rw [hnone, droppedMatches, List.append_nil]
        exact hperm.symm
      · obtain ⟨dropped, -, -, hspill, hperm⟩ := push_of_full (L := L) hfull pending
        rw [hspill]
        exact hperm.trans (List.perm_append_singleton dropped _).symm
  | popExpired wm =>
      have hsplit := List.filter_append_perm (·.upperBound < wm) q.heap.entries
      exact hsplit.symm.trans <| List.perm_append_comm.trans <|
        (popExpired_rest wm).symm.append (popExpired_perm wm).symm
  | drainAll => exact (drainAll_perm q).symm

@[simp] theorem apply_capacity (q : WaitHeap) (op : Op) :
    (q.apply L op).1.capacity = q.capacity := by
  cases op with
  | push pending => exact push_capacity pending
  | popExpired wm => rfl
  | drainAll => rfl

/-- The queue and what has gone from it are what the operations brought. -/
theorem foldl_step_perm (r : Run) (ops : List Op) :
    ((ops.flatMap Op.brought) ++ (r.queue.heap.entries ++ r.gone)).Perm
      ((ops.foldl (Run.step L) r).queue.heap.entries ++ (ops.foldl (Run.step L) r).gone) := by
  induction ops generalizing r with
  | nil => exact .refl _
  | cons op ops ih =>
      refine .trans ?_ (ih (r.step L op))
      have hgone : (r.step L op).gone = r.gone ++
          ((r.queue.apply L op).2.dropped ++ (r.queue.apply L op).2.returned) := by
        unfold Run.gone Run.step
        rw [List.flatMap_append, List.flatMap_singleton]
      have hqueue : (r.step L op).queue = (r.queue.apply L op).1 := rfl
      rw [List.flatMap_cons, hgone, hqueue]
      refine List.perm_iff_count.mpr fun m => ?_
      have hone := List.perm_iff_count.mp (apply_perm (L := L) r.queue op) m
      simp only [List.count_append] at hone ⊢
      omega

theorem run_capacity (scope : ScopeId) (capacity : ℕ) (ops : List Op) :
    (run L scope capacity ops).queue.capacity = max capacity 1 := by
  have hfold : ∀ r : Run, (ops.foldl (Run.step L) r).queue.capacity = r.queue.capacity := by
    induction ops with
    | nil => exact fun _ => rfl
    | cons op ops ih => exact fun r => (ih _).trans (apply_capacity r.queue op)
  exact hfold _

/-- In every run nothing goes from the queue unless it is reported as dropped or returned,
and it goes once. A full queue drops a greatest match, and the expired ones are returned in
the order of resumption, as are those left at the end. -/
theorem queue_represents (L : Heap.Layout PendingMatch.le) (scope : ScopeId) (capacity : ℕ)
    (ops : List Op) :
    ((run L scope capacity ops).queue.heap.entries ++ (run L scope capacity ops).gone).Perm
        (ops.flatMap Op.brought) ∧
      (run L scope capacity ops).queue.heap.entries.length ≤ max capacity 1 ∧
      (∀ pending, (run L scope capacity ops).queue.Suspends L pending) ∧
      (∀ wm, (run L scope capacity ops).queue.Expires L wm) ∧
      (run L scope capacity ops).queue.Drains := by
  refine ⟨?_, ?_, fun pending => ⟨fun h => push_of_room h pending, fun h => push_of_full h pending⟩,
    fun wm => ⟨popExpired_perm wm, popExpired_ordered wm, popExpired_rest wm⟩,
    ⟨drainAll_perm _, drainAll_ordered _, rfl⟩⟩
  · have hrun := foldl_step_perm (L := L) ⟨new scope capacity, []⟩ ops
    rw [new_entries, List.nil_append] at hrun
    exact (hrun.symm.trans (by rw [Run.gone, List.flatMap_nil, List.append_nil]))
  · rw [← run_capacity (L := L) scope capacity ops]
    exact (run L scope capacity ops).queue.length_le

/-! ### The queue of the store -/

/-- In the order of resumption two matches of one scope are never equivalent. -/
theorem pending_eq_of_le_of_le {a b : PendingMatch} (hscope : a.scope = b.scope)
    (hab : a.le b) (hba : b.le a) : a = b := by
  have heq : a.cmp b = .eq := Std.OrientedCmp.isLE_antisymm hab hba
  unfold PendingMatch.cmp at heq
  simp only [Ordering.then_eq_eq, compare_eq_iff_eq] at heq
  obtain ⟨hbound, -, hrule, hanchor⟩ := heq
  obtain ⟨rule, anchor, bound, scope⟩ := a
  obtain ⟨rule', anchor', bound', scope'⟩ := b
  simp_all

/-- The heap holds the matches of the sorted queue, which are all of its scope. -/
structure Simulates (h : WaitHeap) (q : WaitQueue) : Prop where
  perm : h.heap.entries.Perm q.entries
  scope : h.scope = q.scope
  capacity : h.capacity = q.capacity
  atHome : ∀ m ∈ q.entries, m.scope = q.scope

section Simulation

variable {h : WaitHeap} {s : WaitQueue}

theorem new_simulates (scope : ScopeId) (capacity : ℕ) :
    Simulates (new scope capacity) (.new scope capacity) :=
  ⟨.refl _, rfl, rfl, nofun⟩

theorem Simulates.eq_of_le_of_le (hsim : Simulates h s) {a b : PendingMatch}
    (ha : a ∈ s.entries) (hb : b ∈ s.entries) (hab : a.le b) (hba : b.le a) : a = b :=
  pending_eq_of_le_of_le ((hsim.atHome a ha).trans (hsim.atHome b hb).symm) hab hba

/-- The last match of a sorted queue is a greatest one. -/
theorem le_last {last : PendingMatch} (hlast : s.entries.getLast? = some last) :
    last ∈ s.entries ∧ ∀ m ∈ s.entries, m.le last := by
  have hsplit := List.dropLast_append_getLast? last hlast
  have hordered := s.ordered
  rw [← hsplit] at hordered ⊢
  obtain ⟨-, -, hle⟩ := List.pairwise_append.mp hordered
  refine ⟨List.mem_append_right _ (List.mem_singleton_self _), fun m hm => ?_⟩
  obtain hm | hm := List.mem_append.mp hm
  · exact hle m hm last (List.mem_singleton_self _)
  · obtain rfl := List.mem_singleton.mp hm
    exact (Std.Total.total m m).elim id id

theorem Simulates.greatest (hsim : Simulates h s) :
    Heap.greatest PendingMatch.le h.heap.entries = s.entries.getLast? := by
  cases hmax : Heap.greatest PendingMatch.le h.heap.entries with
  | none =>
      have hperm := hsim.perm
      rw [Heap.greatest_eq_none hmax] at hperm
      rw [hperm.symm.eq_nil]
      rfl
  | some max =>
      obtain ⟨hmem, hle⟩ := Heap.greatest_mem hmax
      cases hlast : s.entries.getLast? with
      | none =>
          rw [List.getLast?_eq_none_iff] at hlast
          rw [hsim.perm.mem_iff, hlast] at hmem
          cases hmem
      | some last =>
          obtain ⟨hlast_mem, hle_last⟩ := le_last hlast
          have hmem' := hsim.perm.mem_iff.mp hmem
          rw [hsim.eq_of_le_of_le hmem' hlast_mem (hle_last max hmem')
            (hle last (hsim.perm.mem_iff.mpr hlast_mem))]

theorem Simulates.erase_last (hsim : Simulates h s) {last : PendingMatch}
    (hlast : s.entries.getLast? = some last) :
    (h.heap.entries.erase last).Perm s.entries.dropLast := by
  have hsplit : h.heap.entries.Perm (last :: s.entries.dropLast) := by
    have hlast_first := List.perm_append_singleton last s.entries.dropLast
    rw [List.dropLast_append_getLast? last hlast] at hlast_first
    exact hsim.perm.trans hlast_first
  have herase := hsplit.erase last
  rwa [List.erase_cons_head] at herase

/-- The two queues drop and report the same. -/
theorem Simulates.push (hsim : Simulates h s) {pending : PendingMatch}
    (hscope : pending.scope = s.scope) :
    (h.push L pending).2 = (s.push pending).2 ∧
      Simulates (h.push L pending).1 (s.push pending).1 := by
  have hlength := hsim.perm.length_eq
  have hcapacity := hsim.capacity
  unfold WaitHeap.push WaitQueue.push
  by_cases hroom : s.entries.length < s.capacity
  · have hroom' : h.heap.entries.length < h.capacity := by omega
    rw [dif_pos hroom, dif_pos hroom']
    have hinsert := List.perm_orderedInsert PendingMatch.le pending s.entries
    refine ⟨rfl, ?_, hsim.scope, hsim.capacity, fun m hm => ?_⟩
    · exact (Heap.push_perm _ _).trans ((hsim.perm.cons pending).trans hinsert.symm)
    · obtain rfl | hm := List.mem_cons.mp (hinsert.mem_iff.mp hm)
      · exact hscope
      · exact hsim.atHome m hm
  · have hfull' : ¬ h.heap.entries.length < h.capacity := by omega
    rw [dif_neg hroom, dif_neg hfull']
    have hgreatest := hsim.greatest
    split
    · next max hmax =>
        have hlast : s.entries.getLast? = some max := hgreatest.symm.trans hmax
        rw [hlast]
        dsimp only
        split
        · refine ⟨by rw [hsim.scope, hsim.capacity], ?_, hsim.scope, hsim.capacity, fun m hm => ?_⟩
          · have herase := hsim.erase_last hlast
            have hinsert := List.perm_orderedInsert PendingMatch.le pending s.entries.dropLast
            exact (Heap.collect_perm _).trans ((herase.cons pending).trans hinsert.symm)
          · have hinsert := List.perm_orderedInsert PendingMatch.le pending s.entries.dropLast
            obtain rfl | hm := List.mem_cons.mp (hinsert.mem_iff.mp hm)
            · exact hscope
            · exact hsim.atHome m ((List.dropLast_sublist _).subset hm)
        · exact ⟨by rw [hsim.scope, hsim.capacity], hsim⟩
    · next hnone =>
        rw [← hgreatest, hnone]
        exact ⟨by rw [hsim.scope, hsim.capacity], hsim⟩

/-- The two queues return the same, in the same order. -/
theorem Simulates.popExpired (hsim : Simulates h s) (wm : EventTime) :
    (h.popExpired L wm).1 = s.expired wm ∧
      Simulates (h.popExpired L wm).2 (s.waiting wm) := by
  have hexpired : s.expired wm = s.entries.filter (·.upperBound < wm) :=
    Timeline.takeWhile_eq_filter (fun a b hab hb => by
      rw [decide_eq_true_iff] at hb ⊢
      exact lt_of_le_of_lt hab hb) s.ordered_upperBound
  have hrest : (s.waiting wm).entries =
      s.entries.filter fun m => !decide (m.upperBound < wm) :=
    Timeline.dropWhile_eq_filter (fun a b hab hb => by
      rw [decide_eq_true_iff] at hb ⊢
      exact lt_of_le_of_lt hab hb) s.ordered_upperBound
  refine ⟨?_, ?_, hsim.scope, hsim.capacity, fun m hm => hsim.atHome m ?_⟩
  · have hperm : (h.popExpired L wm).1.Perm (s.expired wm) := by
      rw [hexpired]
      exact (popExpired_perm wm).trans (hsim.perm.filter _)
    refine hperm.eq_of_pairwise (fun a b ha hb => ?_) (popExpired_ordered wm)
      (s.ordered.sublist (List.takeWhile_sublist _))
    exact hsim.eq_of_le_of_le (WaitQueue.mem_expired (hperm.mem_iff.mp ha)).1
      (WaitQueue.mem_expired hb).1
  · rw [hrest]
    exact (popExpired_rest wm).trans (hsim.perm.filter _)
  · exact (WaitQueue.mem_waiting.mp hm).1

end Simulation

end WaitHeap

end Adgl
