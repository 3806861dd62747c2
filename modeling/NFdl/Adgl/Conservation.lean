import NFdl.Adgl.PartitionSteps
import NFdl.Adgl.Windows
import Mathlib.Order.Lattice
import Mathlib.Algebra.GroupWithZero.Nat

/-!
# Conservation of suspended matches

Every match that was suspended is resumed, is dropped with a diagnostic, or still
waits in the queue of its scope. At the end of the stream no match waits.
-/

namespace Adgl

/-- The report of a match whose anchor or rule is gone. -/
def EngineDiagnostic.isDropped : EngineDiagnostic → Bool
  | .missingAnchor _ | .ruleNotInImage _ => true
  | .store _ | .predicateError .. | .unresolvedTarget .. | .unsupportedTargetTail ..
  | .causeCapacity _ | .ruleFiringsExceeded _ | .runtimeCheckWindow _ | .lateEvidence ..
  | .lateEventDropped .. => false

/-- The report of a match for which its queue had no room. -/
def EngineDiagnostic.isSpilled : EngineDiagnostic → Bool
  | .store (.waitQueueSpill ..) => true
  | .store (.ringBufferSpill ..) | .missingAnchor _ | .ruleNotInImage _ | .predicateError ..
  | .unresolvedTarget .. | .unsupportedTargetTail .. | .causeCapacity _ | .ruleFiringsExceeded _
  | .runtimeCheckWindow _ | .lateEvidence .. | .lateEventDropped .. => false

/-- The matches that wait in all queues. -/
def GraphStore.queued (s : GraphStore) : Nat := (s.pending.values.map fun q => q.entries.length).sum

namespace Engine

def dropped (e : Engine) : Nat := e.diagnostics.countP EngineDiagnostic.isDropped

def spilled (e : Engine) : Nat := e.diagnostics.countP EngineDiagnostic.isSpilled

/-- The matches of which it is known what has become of them. -/
def settledMatches (e : Engine) : Nat := e.resumed + e.dropped + e.spilled + e.store.queued

end Engine

variable {host : Host} {e e' e'' : Engine}

/-- The engine goes on, and every match that is suspended is accounted for. -/
structure Conserves (e e' : Engine) : Prop where
  balance : e'.suspended + e.settledMatches = e.suspended + e'.settledMatches
  lastEventTime : e'.lastEventTime = e.lastEventTime
  finished : e'.finished = e.finished

/-- Diagnostics are appended that report no match. -/
def OtherReports (e e' : Engine) : Prop :=
  ∃ ds, e'.diagnostics = e.diagnostics ++ ds ∧
    ∀ d ∈ ds, d.isDropped = false ∧ d.isSpilled = false

namespace OtherReports

theorem of_eq (h : e'.diagnostics = e.diagnostics) : OtherReports e e' :=
  ⟨[], by rw [h, List.append_nil], fun _ hd => absurd hd List.not_mem_nil⟩

theorem single {d : EngineDiagnostic} (h : e'.diagnostics = e.diagnostics ++ [d])
    (hdropped : d.isDropped = false) (hspilled : d.isSpilled = false) : OtherReports e e' := by
  refine ⟨[d], h, fun d' hd' => ?_⟩
  obtain rfl := List.mem_singleton.mp hd'
  exact ⟨hdropped, hspilled⟩

theorem dropped (h : OtherReports e e') : e'.dropped = e.dropped := by
  obtain ⟨ds, hds, hall⟩ := h
  unfold Engine.dropped
  have hnone : ds.countP EngineDiagnostic.isDropped = 0 :=
    List.countP_eq_zero.mpr fun d hd => Bool.eq_false_iff.mp (hall d hd).1
  rw [hds, List.countP_append, hnone, Nat.add_zero]

theorem spilled (h : OtherReports e e') : e'.spilled = e.spilled := by
  obtain ⟨ds, hds, hall⟩ := h
  unfold Engine.spilled
  have hnone : ds.countP EngineDiagnostic.isSpilled = 0 :=
    List.countP_eq_zero.mpr fun d hd => Bool.eq_false_iff.mp (hall d hd).2
  rw [hds, List.countP_append, hnone, Nat.add_zero]

end OtherReports

namespace Conserves

theorem refl (e : Engine) : Conserves e e := ⟨rfl, rfl, rfl⟩

theorem trans (h : Conserves e e') (h' : Conserves e' e'') : Conserves e e'' := by
  have hfirst := h.balance
  have hsecond := h'.balance
  exact ⟨by omega, h'.lastEventTime.trans h.lastEventTime, h'.finished.trans h.finished⟩

/-- A change that concerns no match. -/
theorem of_other (hreports : OtherReports e e') (hsuspended : e'.suspended = e.suspended)
    (hresumed : e'.resumed = e.resumed) (hpending : e'.store.pending = e.store.pending)
    (hlast : e'.lastEventTime = e.lastEventTime) (hfinished : e'.finished = e.finished) :
    Conserves e e' := by
  refine ⟨?_, hlast, hfinished⟩
  unfold Engine.settledMatches GraphStore.queued
  rw [hreports.dropped, hreports.spilled, hsuspended, hresumed, hpending]

end Conserves

theorem EngineDiagnostic.not_match_of_isRule {d : EngineDiagnostic} (h : d.isRule = true) :
    d.isDropped = false ∧ d.isSpilled = false := by
  cases d <;> first | exact ⟨rfl, rfl⟩ | cases h

theorem Goes.conserves {fires : RuleInstance → Bound → ScopeId → Prop} (h : Goes fires e e') :
    Conserves e e' := by
  obtain ⟨ds, hds, hall⟩ := h.diagnostics
  exact .of_other ⟨ds, hds, fun d hd => EngineDiagnostic.not_match_of_isRule (hall d hd)⟩
    (congrArg Outside.suspended h.outside) (congrArg Outside.resumed h.outside) h.pending
    (congrArg Outside.lastEventTime h.outside) (congrArg Outside.finished h.outside)

/-! ### Suspension -/

/-- A queue takes a match in, or drops one. -/
theorem WaitQueue.length_push (q : WaitQueue) (m : PendingMatch) :
    ((q.push m).2 = none ∧ (q.push m).1.entries.length = q.entries.length + 1) ∨
    ∃ dropped, (q.push m).2 = some (.waitQueueSpill q.scope dropped q.capacity) ∧
      (q.push m).1.entries.length = q.entries.length := by
  unfold push
  split
  · exact .inl ⟨rfl, List.orderedInsert_length _ _ _⟩
  · rename_i hfull
    split
    · rename_i last hlast
      split
      · refine .inr ⟨last, rfl, ?_⟩
        have hpos : 0 < q.entries.length := by
          have hcapacity := q.capacity_pos
          omega
        have hlength : (q.dropLast.add m q.length_dropLast_lt).entries.length =
            q.dropLast.entries.length + 1 := List.orderedInsert_length _ _ _
        have hdrop : q.dropLast.entries.length = q.entries.length - 1 := List.length_dropLast
        rw [hlength, hdrop]
        omega
      · exact .inr ⟨m, rfl, rfl⟩
    · exact .inr ⟨m, rfl, rfl⟩

theorem queued_suspend (host : Host) (s : GraphStore) (m : PendingMatch) :
    ((s.suspend host.limits m).2 = none ∧
      (s.suspend host.limits m).1.queued = s.queued + 1) ∨
    ∃ scope dropped capacity,
      (s.suspend host.limits m).2 = some (.waitQueueSpill scope dropped capacity) ∧
      (s.suspend host.limits m).1.queued = s.queued := by
  let q := s.queueOf host.limits m.scope
  have hold : ((s.pending.lookup m.scope).map fun q => q.entries.length).getD 0 =
      q.entries.length := by
    unfold q GraphStore.queueOf
    cases s.pending.lookup m.scope <;> rfl
  have hsum : (s.suspend host.limits m).1.queued + q.entries.length =
      s.queued + (q.push m).1.entries.length := by
    rw [← hold]
    exact Table.sum_insert (fun q : WaitQueue => q.entries.length) s.pending m.scope (q.push m).1
  obtain ⟨hnone, hlength⟩ | ⟨dropped, hspill, hlength⟩ := q.length_push m
  · exact .inl ⟨hnone, by omega⟩
  · exact .inr ⟨q.scope, dropped, q.capacity, hspill, by omega⟩

theorem suspendMatch_conserves (rule : RuleInstance) (event : EventNode) (e : Engine) :
    Conserves e (suspendMatch host rule event e) := by
  let m : PendingMatch := ⟨rule.id, event.id, event.time.add rule.maxForward, event.scope⟩
  unfold suspendMatch
  obtain ⟨hnone, hqueued⟩ | ⟨scope, dropped, capacity, hspill, hqueued⟩ :=
    queued_suspend host e.store m
  · simp only [m, hnone] at hqueued ⊢
    refine ⟨?_, rfl, rfl⟩
    change e.suspended + 1 + e.settledMatches =
      e.suspended + (e.resumed + e.dropped + e.spilled + (e.store.suspend host.limits m).1.queued)
    unfold Engine.settledMatches
    simp only [m]
    omega
  · simp only [m, hspill] at hqueued ⊢
    refine ⟨?_, rfl, rfl⟩
    let d : EngineDiagnostic := .store (.waitQueueSpill scope dropped capacity)
    have hdropped : (e.report [d]).dropped = e.dropped := List.countP_append
    have hspilled : (e.report [d]).spilled = e.spilled + 1 := List.countP_append
    change e.suspended + 1 + e.settledMatches = e.suspended + (e.resumed + (e.report [d]).dropped +
      (e.report [d]).spilled + (e.store.suspend host.limits m).1.queued)
    rw [hdropped, hspilled]
    unfold Engine.settledMatches
    simp only [m]
    omega

/-! ### Resumption -/

/-- A match that was taken out is resumed or dropped. -/
structure Settles (n : Nat) (e e' : Engine) : Prop where
  settled : e'.settledMatches = e.settledMatches + n
  suspended : e'.suspended = e.suspended
  lastEventTime : e'.lastEventTime = e.lastEventTime
  finished : e'.finished = e.finished

theorem resumeMatch_settles (host : Host) (e : Engine) (m : PendingMatch) :
    Settles 1 e (resumeMatch host e m) := by
  have hreported : ∀ d : EngineDiagnostic, d.isDropped = true → d.isSpilled = false →
      Settles 1 e (e.report [d]) := by
    intro d hdropped hspilled
    refine ⟨?_, rfl, rfl, rfl⟩
    have hone : (e.report [d]).dropped = e.dropped + 1 := by
      refine List.countP_append.trans ?_
      rw [List.countP_singleton, if_pos hdropped]
      rfl
    have hnone : (e.report [d]).spilled = e.spilled := by
      refine List.countP_append.trans ?_
      rw [List.countP_singleton, hspilled, if_neg Bool.false_ne_true]
      rfl
    change e.resumed + (e.report [d]).dropped + (e.report [d]).spilled + e.store.queued = _
    rw [hone, hnone]
    unfold Engine.settledMatches
    omega
  obtain h | h | ⟨ring, event, rule, -, -, -, h⟩ := resumeMatch_cases host e m
  · rw [h]
    exact hreported _ rfl rfl
  · rw [h]
    exact hreported _ rfl rfl
  · rw [h]
    let counted : Engine := { e with resumed := e.resumed + 1 }
    have hgoes := runWithin_goes_any host rule (.event event) m.scope
      ⟨counted, host.limits.maxRuleFiringsPerEvent⟩
    generalize runWithin host rule (.event event) m.scope _ = run at hgoes ⊢
    have hconserves := hgoes.conserves
    have hbalance := hconserves.balance
    have hsuspended : run.engine.suspended = e.suspended := congrArg Outside.suspended hgoes.outside
    have hcounted : counted.settledMatches = e.settledMatches + 1 := by
      change e.resumed + 1 + e.dropped + e.spilled + e.store.queued = _
      unfold Engine.settledMatches
      omega
    change run.engine.suspended + counted.settledMatches = e.suspended + _ at hbalance
    exact ⟨by omega, hsuspended, hconserves.lastEventTime, hconserves.finished⟩

theorem foldl_resumeMatch_settles (host : Host) (ms : List PendingMatch) (e : Engine) :
    Settles ms.length e (ms.foldl (resumeMatch host) e) := by
  induction ms generalizing e with
  | nil => exact ⟨rfl, rfl, rfl, rfl⟩
  | cons m rest ih =>
      have hfirst := resumeMatch_settles host e m
      have hrest := ih (resumeMatch host e m)
      refine ⟨?_, hrest.suspended.trans hfirst.suspended,
        hrest.lastEventTime.trans hfirst.lastEventTime, hrest.finished.trans hfirst.finished⟩
      rw [List.foldl_cons, hrest.settled, hfirst.settled, List.length_cons]
      omega

/-- What is taken out of the queues is what they have less. -/
theorem queued_popExpired (s : GraphStore) (wm : EventTime) :
    (s.popExpired wm).queued + (s.expired wm).length = s.queued := by
  have hvalues : (s.popExpired wm).pending.values = s.pending.values.map (·.waiting wm) := by
    unfold GraphStore.popExpired Table.values Table.mapValues
    rw [List.map_map, List.map_map]
    rfl
  unfold GraphStore.queued GraphStore.expired
  rw [List.length_insertionSort, hvalues]
  induction s.pending.values with
  | nil => rfl
  | cons q rest ih =>
      have hsplit : (q.expired wm).length + (q.waiting wm).entries.length = q.entries.length := by
        rw [← List.length_append]
        exact congrArg List.length List.takeWhile_append_dropWhile
      simp only [List.map_cons, List.sum_cons, List.flatMap_cons, List.length_append]
      omega

theorem sweep_conserves (e : Engine) : Conserves e (sweep host e) := by
  have hsettles := foldl_resumeMatch_settles host
    (e.store.expired e.store.watermark) (popExpired e e.store.watermark)
  have hqueued := queued_popExpired e.store e.store.watermark
  have hpopped : (popExpired e e.store.watermark).settledMatches =
      e.resumed + e.dropped + e.spilled + (e.store.popExpired e.store.watermark).queued := rfl
  have hsettled : (sweep host e).settledMatches =
      (resumeExpired host e.store.watermark e).settledMatches := rfl
  refine ⟨?_, hsettles.lastEventTime, hsettles.finished⟩
  have hsame : (sweep host e).suspended = e.suspended := hsettles.suspended
  rw [hsettled, hsame]
  have hresumed : (resumeExpired host e.store.watermark e).settledMatches = _ := hsettles.settled
  rw [hresumed, hpopped]
  unfold Engine.settledMatches
  omega

/-! ### Calls -/

theorem matchAnchors_conserves (event : EventNode) (wm : EventTime) (e : Engine) :
    Conserves e (matchAnchors host event wm e) := by
  have hone : ∀ (run : Run) (rule : RuleInstance),
      Conserves run.engine (matchAnchor host event wm run rule).engine := by
    intro run rule
    have hreported : Conserves run.engine (run.report
        (evalPred host run.engine.interner rule rule.anchor.predicate [.bound (.event event)]
          event.scope).2).engine :=
      .of_other ⟨_, rfl, fun d hd => EngineDiagnostic.not_match_of_isRule (evalPred_isRule d hd)⟩
        rfl rfl rfl rfl rfl
    unfold matchAnchor
    simp only
    split
    · split
      · exact hreported.trans (suspendMatch_conserves rule event _)
      · exact hreported.trans (runWithin_goes_any ..).conserves
    · exact hreported
  have hfold : ∀ (rules : List RuleInstance) (run : Run),
      Conserves run.engine (rules.foldl (matchAnchor host event wm) run).engine := by
    intro rules
    induction rules with
    | nil => exact fun run => .refl _
    | cons rule rest ih => exact fun run => (hone run rule).trans (ih _)
  exact hfold _ ⟨e, host.limits.maxRuleFiringsPerEvent⟩

theorem acceptEvent_conserves (event : EventNode) (e : Engine) :
    Conserves e (acceptEvent host event e) := by
  have hpush : ∀ e : Engine, Conserves e (pushEvent host event e) := by
    intro e
    refine .of_other ⟨_, rfl, fun d hd => ?_⟩ rfl rfl rfl rfl rfl
    obtain ⟨diag, hdiag, rfl⟩ := List.mem_map.mp hd
    unfold GraphStore.pushSpill RingBuffer.spill at hdiag
    split at hdiag
    · rw [Option.mem_toList, Option.map_eq_some_iff] at hdiag
      obtain ⟨dropped, -, rfl⟩ := hdiag
      exact ⟨rfl, rfl⟩
    · cases hdiag
  unfold acceptEvent
  split
  · simp only
    refine .trans ?_ (hpush _)
    split
    · unfold auditOfflineLateEvidence
      split
      · exact .of_other (.single rfl rfl rfl) rfl rfl rfl rfl rfl
      · exact .of_other (.of_eq rfl) rfl rfl rfl rfl rfl
    · exact .of_other (.of_eq rfl) rfl rfl rfl rfl rfl
  · have hadvanced : Conserves e (advanceLiveWatermark host event.scope event.time e) :=
      .of_other (.of_eq rfl) rfl rfl rfl rfl rfl
    exact hadvanced.trans (hpush _)

/-- After it has noted the event, ingesting conserves matches. -/
theorem ingest_conserves (host : Host) (event : EventNode) (e : Engine) :
    Conserves (e.note event) (ingest host event e) := by
  unfold ingest
  simp only
  split
  · exact .of_other (.single rfl rfl rfl) rfl rfl rfl rfl rfl
  · exact (acceptEvent_conserves event _).trans ((sweep_conserves _).trans (matchAnchors_conserves ..))

theorem advanceWatermark_conserves (t : EventTime) (e : Engine) :
    Conserves e (advanceWatermark host t e) := by
  have hadvanced : Conserves e { e with store := e.store.advanceWatermark t } :=
    .of_other (.of_eq rfl) rfl rfl rfl rfl rfl
  exact hadvanced.trans (sweep_conserves _)

/-- Every suspended match is accounted for. -/
def Engine.Balanced (e : Engine) : Prop := e.suspended = e.settledMatches

theorem Conserves.balanced (h : Conserves e e') (he : e.Balanced) : e'.Balanced := by
  have hbalance := h.balance
  unfold Engine.Balanced at *
  omega

theorem operate_balanced (he : e.Balanced) (op : Operation) : (operate host e op).Balanced := by
  cases op with
  | gc watermark maxLookback => exact he
  | pruneEmitted wm maxCooldown => exact he
  | call c =>
      cases c with
      | ingest event =>
          have hnoted : (e.note event).Balanced := he
          exact (ingest_conserves host event e).balanced hnoted
      | advanceWatermark t => exact (advanceWatermark_conserves t e).balanced he
      | advanceWallClock t =>
          change (advanceWallClock host t e).Balanced
          unfold advanceWallClock
          split <;> exact he
      | internScope scope => exact he
      | finish =>
          change (finish host e).Balanced
          have hfinished : Engine.Balanced { e with finished := true } := he
          unfold finish
          split
          · exact he
          · simp only
            split
            · exact hfinished
            · exact (advanceWatermark_conserves _ _).balanced hfinished

/-! ### The end of the stream -/

/-- That an operation is not the end of the stream, and that the window of an event that
it ingests ends before the latest time. -/
def Operation.Fits (host : Host) : Operation → Prop
  | .call (.ingest event) => event.time.toInt + host.imageMaxForward.toInt < 9223372036854775807
  | .call .finish => False
  | _ => True

/-- What is known of the events while the stream is open. -/
structure Streaming (host : Host) (past : List EventNode) (e : Engine) : Prop where
  accounted : Accounted host past e
  unfinished : e.finished = false
  last : ∀ event ∈ past, ∃ last, e.lastEventTime = some last ∧ event.time ≤ last
  fits : ∀ last, e.lastEventTime = some last →
    last.toInt + host.imageMaxForward.toInt < 9223372036854775807

variable {past : List EventNode}

theorem Streaming.noted (h : Streaming host past e) {event : EventNode}
    (hfits : event.time.toInt + host.imageMaxForward.toInt < 9223372036854775807) :
    (∀ event' ∈ past ++ [event], ∃ last, (e.note event).lastEventTime = some last ∧
      event'.time ≤ last) ∧
    ∀ last, (e.note event).lastEventTime = some last →
      last.toInt + host.imageMaxForward.toInt < 9223372036854775807 := by
  refine ⟨fun event' hevent' => ⟨_, rfl, ?_⟩, fun last hlast => ?_⟩
  · obtain hold | hnew := List.mem_append.mp hevent'
    · obtain ⟨last, hlast, hle⟩ := h.last event' hold
      rw [hlast]
      exact hle.trans (le_max_left _ _)
    · obtain rfl := List.mem_singleton.mp hnew
      exact le_max_right _ _
  · obtain rfl := Option.some.inj hlast
    obtain hle | hle := le_total event.time (e.lastEventTime.getD event.time)
    · rw [max_eq_left hle]
      cases htime : e.lastEventTime with
      | none => exact hfits
      | some last => exact h.fits last htime
    · rw [max_eq_right hle]
      exact hfits

theorem Streaming.operate (h : Streaming host past e) {op : Operation} (hop : op.Fits host) :
    Streaming host (past ++ acceptedBy host e op) (operate host e op) := by
  have haccounted := h.accounted.operate op
  have hkeep : ∀ {e' : Engine}, Conserves e e' → acceptedBy host e op = [] →
      Accounted host (past ++ acceptedBy host e op) e' →
      Streaming host (past ++ acceptedBy host e op) e' := by
    intro e' hconserves hnone haccounted
    rw [hnone, List.append_nil] at haccounted ⊢
    exact ⟨haccounted, hconserves.finished.trans h.unfinished,
      hconserves.lastEventTime ▸ h.last, hconserves.lastEventTime ▸ h.fits⟩
  cases op with
  | gc watermark maxLookback =>
      exact hkeep (.of_other (.of_eq rfl) rfl rfl rfl rfl rfl) rfl haccounted
  | pruneEmitted wm maxCooldown =>
      exact hkeep (.of_other (.of_eq rfl) rfl rfl rfl rfl rfl) rfl haccounted
  | call c =>
      cases c with
      | ingest event =>
          obtain ⟨hlast, hfits⟩ := h.noted hop
          have hconserves := ingest_conserves host event e
          refine ⟨haccounted, hconserves.finished.trans h.unfinished, fun event' hevent' => ?_,
            fun last htime => hfits last (hconserves.lastEventTime ▸ htime)⟩
          have hmem : event' ∈ past ++ [event] := by
            refine (List.mem_append.mp hevent').elim (List.mem_append_left _) fun hnew => ?_
            have hone : acceptedBy host e (.call (.ingest event)) = [] ∨
                acceptedBy host e (.call (.ingest event)) = [event] := ite_eq_or_eq ..
            obtain hnil | hevent := hone
            · rw [hnil] at hnew
              exact absurd hnew List.not_mem_nil
            · exact List.mem_append_right _ (hevent ▸ hnew)
          obtain ⟨last, htime, hle⟩ := hlast event' hmem
          exact ⟨last, hconserves.lastEventTime.trans htime, hle⟩
      | advanceWatermark t => exact hkeep (advanceWatermark_conserves t e) rfl haccounted
      | advanceWallClock t =>
          refine hkeep ?_ rfl haccounted
          change Conserves e (advanceWallClock host t e)
          unfold advanceWallClock
          split
          · exact .of_other (.of_eq rfl) rfl rfl rfl rfl rfl
          · exact .refl e
      | internScope scope =>
          exact hkeep (.of_other (.of_eq rfl) rfl rfl rfl rfl rfl) rfl haccounted
      | finish => exact hop.elim

theorem runOperations_streaming {ops : List Operation} (hops : ∀ op ∈ ops, op.Fits host) :
    ∃ past, Streaming host past (runOperations host ops) := by
  have hrun : ∀ (ops : List Operation) (past : List EventNode) (e : Engine),
      (∀ op ∈ ops, op.Fits host) → Streaming host past e →
        ∃ past, Streaming host past (ops.foldl (Adgl.operate host) e) := by
    intro ops
    induction ops with
    | nil => exact fun past e _ h => ⟨past, h⟩
    | cons op rest ih =>
        intro past e hops h
        exact ih _ _ (fun op' hop' => hops op' (List.mem_cons_of_mem _ hop'))
          (h.operate (hops op (List.mem_cons_self ..)))
  exact hrun ops [] .new hops ⟨Accounted.new, rfl, nofun, nofun⟩

theorem maxForward_le_image {rule : RuleInstance} (h : rule ∈ host.image.rules) :
    rule.maxForward ≤ host.imageMaxForward :=
  le_foldl_max.2 _ (List.mem_map_of_mem h)

/-- A match that waits expires before the flush. -/
theorem Streaming.expires (h : Streaming host past e) {scope : ScopeId} {q : WaitQueue}
    (hq : e.store.pending.lookup scope = some q) {m : PendingMatch} (hm : m ∈ q.entries) :
    ∃ last, e.lastEventTime = some last ∧
      m.upperBound < (last.add host.imageMaxForward).add (.ofMillis 1) := by
  obtain ⟨-, s, hs, rfl⟩ := h.accounted.queues scope q hq m hm
  have hfits := h.accounted.suspensions s hs
  obtain ⟨last, hlast, hle⟩ := h.last s.anchor hfits.anchor
  refine ⟨last, hlast, ?_⟩
  have hroom := h.fits last hlast
  have htime := EventTime.le_iff.mp hle
  have hforward := DurationMs.le_iff.mp (maxForward_le_image (ProgramImage.mem_rulesFor hfits.rule).1)
  have hmin : -2 ^ 63 ≤ last.toInt := Int64.le_toInt last.millis
  have hnonneg : 0 ≤ host.imageMaxForward.toInt := host.imageMaxForward.nonneg
  have hone : (DurationMs.ofMillis 1).toInt = 1 := by decide
  rw [hfits.pending, EventTime.lt_iff, EventTime.toInt_add, EventTime.toInt_add,
    EventTime.toInt_add, hone]
  omega

/-- After the sweep, what waits has not expired. -/
theorem sweep_waits {scope : ScopeId} {q : WaitQueue}
    (hq : (sweep host e).store.pending.lookup scope = some q) {m : PendingMatch}
    (hm : m ∈ q.entries) : ∃ q', e.store.pending.lookup scope = some q' ∧ m ∈ q'.entries ∧
      e.store.watermark ≤ m.upperBound := by
  have hframe := foldl_resumeMatch_frame host (e.store.expired e.store.watermark)
    (popExpired e e.store.watermark)
  have hpending : (sweep host e).store.pending =
      e.store.pending.mapValues (·.waiting e.store.watermark) := hframe.pending
  rw [hpending, Table.lookup_mapValues, Option.map_eq_some_iff] at hq
  obtain ⟨q', hq', rfl⟩ := hq
  exact ⟨q', hq', WaitQueue.mem_waiting.mp hm⟩

/-- The end of the stream empties all queues. -/
theorem Streaming.finish_empties (h : Streaming host past e) {scope : ScopeId} {q : WaitQueue}
    (hq : (finish host e).store.pending.lookup scope = some q) : q.entries = [] := by
  refine List.eq_nil_iff_forall_not_mem.mpr fun m hm => ?_
  unfold finish at hq
  rw [h.unfinished, if_neg Bool.false_ne_true] at hq
  cases htime : e.lastEventTime with
  | none =>
      simp only [htime] at hq
      obtain ⟨last, hlast, -⟩ := h.expires hq hm
      rw [htime] at hlast
      cases hlast
  | some last =>
      simp only [htime] at hq
      obtain ⟨q', hq', hm', hwaits⟩ := sweep_waits hq hm
      obtain ⟨last', hlast', hlt⟩ := h.expires hq' hm'
      rw [htime] at hlast'
      obtain rfl := Option.some.inj hlast'
      exact absurd ((le_max_right _ _).trans hwaits) (not_le.mpr hlt)

/-- In every state of every run, the matches that were ever suspended are those that were
resumed, dropped for a missing anchor or rule, reported as spilled, or that wait in the
queue of some scope. When a stream ends whose windows end before the latest time, no match
waits. -/
theorem matches_conserved (host : Host) (ops : List Operation) :
    let e := runOperations host ops
    e.suspended = e.resumed + e.dropped + e.spilled + e.store.queued ∧
    ((∀ op ∈ ops, op.Fits host) → ∀ scope q,
      (operate host e (.call .finish)).store.pending.lookup scope = some q → q.entries = []) := by
  constructor
  · exact Inputs.foldl_invariant (Q := Engine.Balanced) (fun e op he => operate_balanced he op)
      (show Engine.Balanced .new from rfl) ops
  · intro hops scope q hq
    obtain ⟨past, hstreaming⟩ := runOperations_streaming hops
    exact hstreaming.finish_empties hq

instance (host : Host) : DecidablePred (Operation.Fits host)
  | .call (.ingest event) => inferInstanceAs
      (Decidable (event.time.toInt + host.imageMaxForward.toInt < 9223372036854775807))
  | .call .finish => .isFalse id
  | .call (.advanceWatermark _) | .call (.advanceWallClock _) | .call (.internScope _)
  | .gc _ _ | .pruneEmitted _ _ => .isTrue trivial

theorem matches_conserved_waiting :
    (runOperations (seedHost waitingRules) [.call (.ingest (burst 1400))]).suspended = 1 ∧
    ∀ scope q, (operate (seedHost waitingRules)
      (runOperations (seedHost waitingRules) [.call (.ingest (burst 1400))])
      (.call .finish)).store.pending.lookup scope = some q → q.entries = [] :=
  ⟨rfl, (matches_conserved _ _).2 (by decide)⟩

end Adgl
