import NFdl.Adgl.Phases
import NFdl.Adgl.Windows
import NFdl.Adgl.Closed

/-!
# Retention

Between two calls the rings hold all accepted events that are not older than the
look-back of the watermark, and every waiting match closes at or after the
watermark. An accepted image never looks back further from an anchor that waits.
-/

namespace Adgl

open Ast (RuleDecl Ruleset)

/-! ### Events in the rings -/

namespace GraphStore

/-- From a time on, the store has exactly the events of the past. -/
def Retains (s : GraphStore) (past : List EventNode) (lo : EventTime) : Prop :=
  ∀ scope, ((s.events scope).filter fun event => lo ≤ event.time).Perm
    (past.filter fun event => event.scope = scope ∧ lo ≤ event.time)

variable {s s' : GraphStore} {past : List EventNode} {lo lo' : EventTime} {limits : Limits}

theorem filter_and {l : List EventNode} {scope : ScopeId} {lo lo' : EventTime} (h : lo ≤ lo') :
    (l.filter fun event => event.scope = scope ∧ lo ≤ event.time).filter
        (fun event => lo' ≤ event.time) =
      l.filter fun event => event.scope = scope ∧ lo' ≤ event.time := by
  rw [List.filter_filter]
  refine List.filter_congr fun event _ => ?_
  rw [← Bool.decide_and, decide_eq_decide]
  exact ⟨fun ⟨hlo, hscope, _⟩ => ⟨hscope, hlo⟩, fun ⟨hscope, hlo⟩ => ⟨hlo, hscope, h.trans hlo⟩⟩

theorem filter_time {l : List EventNode} {lo lo' : EventTime} (h : lo ≤ lo') :
    (l.filter fun event => lo ≤ event.time).filter (fun event => lo' ≤ event.time) =
      l.filter fun event => lo' ≤ event.time := by
  rw [List.filter_filter]
  refine List.filter_congr fun event _ => ?_
  rw [← Bool.decide_and, decide_eq_decide]
  exact ⟨fun ⟨hlo, _⟩ => hlo, fun hlo => ⟨hlo, h.trans hlo⟩⟩

theorem Retains.mono (h : s.Retains past lo) (hle : lo ≤ lo') : s.Retains past lo' := by
  intro scope
  have hfiltered := (h scope).filter fun event => decide (lo' ≤ event.time)
  rwa [filter_time hle, filter_and hle] at hfiltered

theorem Retains.of_rings (h : s.Retains past lo) (hrings : s'.rings = s.rings) :
    s'.Retains past lo := by
  unfold Retains events at h ⊢
  rwa [hrings]

theorem events_pushEvent (event : EventNode) (scope : ScopeId) :
    (s.pushEvent limits event).events scope =
      if scope = event.scope then ((s.ringOf limits event.scope).push event).buf
      else s.events scope := by
  unfold events pushEvent ringOf
  split
  · rename_i hscope
    subst hscope
    rw [Table.lookup_update]
    rfl
  · rename_i hscope
    rw [Table.lookup_update_ne hscope]

theorem events_eq_ringOf (scope : ScopeId) : s.events scope = (s.ringOf limits scope).buf := by
  unfold events ringOf
  rcases s.rings.lookup scope with _ | ring
  · rfl
  · rfl

/-- A push that drops nothing adds one event. -/
theorem Retains.pushEvent (h : s.Retains past lo) {event : EventNode}
    (hspill : s.pushSpill limits event = none) :
    (s.pushEvent limits event).Retains (past ++ [event]) lo := by
  intro scope
  rw [events_pushEvent, List.filter_append]
  by_cases hscope : scope = event.scope
  · subst hscope
    rw [if_pos rfl]
    have hpush := (RingBuffer.push_perm hspill event).filter fun event => decide (lo ≤ event.time)
    refine hpush.trans ?_
    rw [← events_eq_ringOf]
    by_cases hlo : lo ≤ event.time
    · rw [List.filter_cons_of_pos (by simpa using hlo),
        List.filter_cons_of_pos (by simpa using hlo), List.filter_nil]
      exact ((h event.scope).cons event).trans (List.perm_append_singleton _ _).symm
    · rw [List.filter_cons_of_neg (by simpa using hlo),
        List.filter_cons_of_neg (by simpa using hlo), List.filter_nil, List.append_nil]
      exact h event.scope
  · rw [if_neg hscope, List.filter_cons_of_neg (by simpa using fun heq => absurd heq.symm hscope),
      List.filter_nil, List.append_nil]
    exact h scope

theorem events_gc (wm : EventTime) (scope : ScopeId) : (s.gc limits wm).events scope =
    (s.events scope).filter fun event => wm.sub limits.maxLookback ≤ event.time := by
  unfold events GraphStore.gc
  rw [Table.lookup_mapValues]
  rcases s.rings.lookup scope with _ | ring
  · rfl
  · exact Timeline.dropBefore_eq_filter ring.ordered _

/-- Garbage collection forgets what is older than the look-back, and nothing else. -/
theorem Retains.gc (h : s.Retains past lo) {wm : EventTime}
    (hle : lo ≤ wm.sub limits.maxLookback) :
    (s.gc limits wm).Retains past (wm.sub limits.maxLookback) := by
  intro scope
  rw [events_gc, filter_time le_rfl]
  exact h.mono hle scope

end GraphStore

/-! ### Between two calls -/

/-- What holds of the rings and the queues between two calls. -/
structure Kept (host : Host) (past : List EventNode) (e : Engine) : Prop where
  retains : e.store.Retains past (e.store.watermark.sub host.limits.maxLookback)
  waits : ∀ scope q, e.store.pending.lookup scope = some q →
    ∀ m ∈ q.entries, e.store.watermark ≤ m.upperBound

variable {host : Host} {past : List EventNode} {e e' : Engine}

namespace Kept

theorem new : Kept host [] .new := by
  refine ⟨fun scope => ?_, fun scope q hq => ?_⟩
  · exact .refl _
  · cases hq

theorem of_same (h : Kept host past e) (hrings : e'.store.rings = e.store.rings)
    (hpending : e'.store.pending = e.store.pending)
    (hwatermark : e'.store.watermark = e.store.watermark) : Kept host past e' := by
  refine ⟨?_, ?_⟩
  · rw [hwatermark]
    exact h.retains.of_rings hrings
  · rw [hwatermark, hpending]
    exact h.waits

end Kept

/-- An accepted event is pushed and moves the watermark forward. -/
theorem acceptEvent_store (event : EventNode) (e : Engine) :
    (acceptEvent host event e).store.rings = (e.store.pushEvent host.limits event).rings ∧
    (acceptEvent host event e).store.pending = e.store.pending ∧
    e.store.watermark ≤ (acceptEvent host event e).store.watermark := by
  unfold acceptEvent
  split
  · simp only
    split
    · rw [audit_eq]
      exact ⟨rfl, rfl, le_max_left _ _⟩
    · exact ⟨rfl, rfl, le_max_left _ _⟩
  · exact ⟨rfl, rfl, le_max_left _ _⟩

/-- The rings when a call begins its sweep. -/
theorem Kept.sweepStart (h : Kept host past e) {c : Call} {start : Engine}
    (hstart : sweepStart host e c = some start)
    (hspill : ∀ d, EngineDiagnostic.store d ∉ start.diagnostics) :
    start.store.Retains (past ++ accepted host e c)
      (e.store.watermark.sub host.limits.maxLookback) ∧
    start.store.pending = e.store.pending ∧ e.store.watermark ≤ start.store.watermark := by
  obtain ⟨event, rfl, hkept, rfl⟩ | ⟨t, rfl, rfl⟩ | ⟨last, rfl, -, -, rfl⟩ :=
    sweepStart_cases hstart
  · have hnone : e.store.pushSpill host.limits event = none := by
      rw [Option.eq_none_iff_forall_ne_some]
      intro d hd
      refine hspill d ?_
      rw [acceptEvent_diagnostics]
      refine List.mem_append_right _ (List.mem_append_right _ (List.mem_map.mpr ⟨d, ?_, rfl⟩))
      exact Option.mem_toList.mpr hd
    rw [accepted, hkept, if_neg Bool.false_ne_true]
    obtain ⟨hrings, hpending, hwatermark⟩ := @acceptEvent_store host event (e.note event)
    exact ⟨(h.retains.pushEvent hnone).of_rings hrings, hpending, hwatermark⟩
  · rw [accepted, List.append_nil]
    exact ⟨h.retains, rfl, le_max_left _ _⟩
  · rw [accepted, List.append_nil]
    exact ⟨h.retains, rfl, le_max_left _ _⟩

/-- A sweep ends with what is kept at its watermark. -/
theorem kept_sweep {lo : EventTime} (h : e.store.Retains past lo)
    (hle : lo ≤ e.store.watermark.sub host.limits.maxLookback) : Kept host past (sweep host e) := by
  have hframe := foldl_resumeMatch_frame host (e.store.expired e.store.watermark)
    (popExpired e e.store.watermark)
  refine ⟨?_, ?_⟩
  · rw [sweep_watermark]
    have hresumed : (resumeExpired host e.store.watermark e).store.Retains past lo :=
      h.of_rings hframe.rings
    exact (hresumed.gc hle).of_rings rfl
  · rw [sweep_watermark]
    change ∀ scope q, AList.lookup scope (resumeExpired host e.store.watermark e).store.pending =
      some q → ∀ m ∈ q.entries, e.store.watermark ≤ m.upperBound
    rw [show (resumeExpired host e.store.watermark e).store.pending = _ from hframe.pending]
    exact Table.forall_mapValues fun scope q _ m hm => (WaitQueue.mem_waiting.mp hm).2

theorem Kept.suspendMatch (h : Kept host past e) {rule : RuleInstance} {event : EventNode}
    (hopen : e.store.watermark < event.time.add rule.maxForward) :
    Kept host past (suspendMatch host rule event e) := by
  refine ⟨?_, ?_⟩
  · rw [suspendMatch_watermark]
    refine h.retains.of_rings ?_
    unfold Adgl.suspendMatch
    simp only
    split <;> rfl
  · rw [suspendMatch_watermark]
    have hpending : (Adgl.suspendMatch host rule event e).store.pending =
        (e.store.suspend host.limits
          ⟨rule.id, event.id, event.time.add rule.maxForward, event.scope⟩).1.pending := by
      unfold Adgl.suspendMatch
      simp only
      split <;> rfl
    rw [hpending]
    intro scope q hq m hm
    change AList.lookup scope (AList.insert event.scope _ e.store.pending) = some q at hq
    by_cases hscope : scope = event.scope
    · subst hscope
      rw [AList.lookup_insert] at hq
      obtain rfl := Option.some.inj hq
      obtain rfl | hm := WaitQueue.mem_push hm
      · exact le_of_lt hopen
      · unfold GraphStore.queueOf at hm
        rcases hlookup : e.store.pending.lookup event.scope with _ | q'
        · rw [hlookup] at hm
          exact absurd hm List.not_mem_nil
        · rw [hlookup] at hm
          exact h.waits _ q' hlookup m hm
    · rw [AList.lookup_insert_ne hscope] at hq
      exact h.waits scope q hq m hm

theorem Kept.matchAnchor {run : Run} (h : Kept host past run.engine) (event : EventNode)
    (rule : RuleInstance) :
    Kept host past (matchAnchor host event run.engine.store.watermark run rule).engine := by
  unfold Adgl.matchAnchor
  simp only
  generalize evalPred host _ _ _ _ _ = matched
  have hreported : Kept host past (run.report matched.2).engine := h.of_same rfl rfl rfl
  split
  · split
    · rename_i hopen
      exact hreported.suspendMatch hopen
    · have hgoes := runWithin_goes_any host rule (.event event) event.scope (run.report matched.2)
      exact hreported.of_same hgoes.rings hgoes.pending hgoes.watermark
  · exact hreported

theorem Kept.matchAnchors (h : Kept host past e) (event : EventNode) :
    Kept host past (matchAnchors host event e.store.watermark e) := by
  have hfold : ∀ (rules : List RuleInstance) (run : Run), Kept host past run.engine →
      run.engine.store.watermark = e.store.watermark →
      Kept host past (rules.foldl (Adgl.matchAnchor host event e.store.watermark) run).engine := by
    intro rules
    induction rules with
    | nil => exact fun _ h _ => h
    | cons rule rest ih =>
        intro run h hwm
        refine ih _ ?_ ?_
        · rw [← hwm]
          exact h.matchAnchor event rule
        · rw [matchAnchor_watermark, hwm]
  exact hfold _ _ h rfl

/-- A call without an overflow keeps what is kept. -/
theorem Kept.call (h : Kept host past e) {c : Call}
    (hspill : ∀ d, EngineDiagnostic.store d ∉ (call host e c).diagnostics) :
    Kept host (past ++ accepted host e c) (call host e c) := by
  rcases hstart : Adgl.sweepStart host e c with _ | start
  · obtain ⟨hnone, hidle⟩ := call_of_noSweep hstart
    rw [hnone, List.append_nil]
    exact h.of_same (congrArg GraphStore.rings hidle.store)
      (congrArg GraphStore.pending hidle.store) (congrArg GraphStore.watermark hidle.store)
  · have hquiet := call_quiet hstart
    obtain ⟨hretains, -, hle⟩ := h.sweepStart hstart fun d hd => hspill d (hquiet.subset hd)
    have hswept : Kept host (past ++ accepted host e c) (sweep host start) :=
      kept_sweep hretains (EventTime.sub_mono hle _)
    rw [call_of_sweepStart hstart]
    split
    · have hmatched := hswept.matchAnchors ‹_›
      rwa [sweep_watermark] at hmatched
    · exact hswept

/-! ### Resumed matches -/

/-- What is kept along a run without an overflow. -/
theorem runCalls_kept {calls : List Call}
    (hspill : ∀ d, EngineDiagnostic.store d ∉ (runCalls host calls).diagnostics) :
    Kept host (history host calls) (runCalls host calls) := by
  induction calls using List.reverseRecOn with
  | nil => exact Kept.new
  | append_singleton calls c ih =>
      rw [runCalls_append] at hspill ⊢
      rw [history_append]
      exact (ih fun d hd => hspill d (call_diagnostics_subset c hd)).call hspill

/-- A ring finds an event by its identifier if it has no other under it. -/
theorem RingBuffer.get_of_mem {r : RingBuffer} {event : EventNode} (hmem : event ∈ r.buf)
    (hunique : ∀ other ∈ r.buf, other.id = event.id → other = event) :
    r.get event.id = some event := by
  unfold RingBuffer.get
  rcases hfind : r.buf.find? (·.id == event.id) with _ | found
  · have hnone := List.find?_eq_none.mp hfind event hmem
    exact absurd (beq_self_eq_true _) hnone
  · have hid : found.id = event.id := by simpa using List.find?_some hfind
    exact hfind.trans (congrArg some (hunique found (List.mem_of_find?_eq_some hfind) hid))

theorem GraphStore.ring_of_mem {store : GraphStore} {scope : ScopeId} {event : EventNode}
    (h : event ∈ store.events scope) :
    ∃ ring, store.rings.lookup scope = some ring ∧ store.events scope = ring.buf := by
  unfold GraphStore.events at h ⊢
  rcases hlookup : store.rings.lookup scope with _ | ring
  · rw [hlookup] at h
    exact absurd h List.not_mem_nil
  · exact ⟨ring, rfl, rfl⟩

/-- A ring that keeps the events of a scope since some time has all of them in a window
that begins later. -/
theorem RingBuffer.scanWindow_perm {ring : RingBuffer} {events : List EventNode} {scope : ScopeId}
    {since time : EventTime} {back forward : DurationMs}
    (h : (ring.buf.filter fun event => since ≤ event.time).Perm
      (events.filter fun event => event.scope = scope ∧ since ≤ event.time))
    (hsince : since ≤ time.sub back) :
    (ring.scanWindow time back forward).Perm (events.filter fun event =>
      event.scope = scope ∧ time.sub back ≤ event.time ∧ event.time ≤ time.add forward) := by
  unfold RingBuffer.scanWindow
  rw [Timeline.window_eq_filter ring.ordered]
  have hfiltered := h.filter fun event =>
    decide (time.sub back ≤ event.time ∧ event.time ≤ time.add forward)
  rw [List.filter_filter, List.filter_filter] at hfiltered
  convert hfiltered using 1
  · refine List.filter_congr fun event _ => ?_
    rw [← Bool.decide_and, decide_eq_decide]
    exact ⟨fun hw => ⟨hw, hsince.trans hw.1⟩, fun hw => hw.1⟩
  · refine List.filter_congr fun event _ => ?_
    rw [← Bool.decide_and, decide_eq_decide]
    exact ⟨fun ⟨hs, hw⟩ => ⟨hw, hs, hsince.trans hw.1⟩, fun ⟨hw, hs, _⟩ => ⟨hs, hw⟩⟩

variable {catalog : Catalog} {config : VerifyConfig} {ruleset : Ruleset}

/-- In a run of an accepted image without an overflow, a match that is resumed finds
its anchor, and the windows of all rules around the anchor hold exactly the accepted
events of the scope that fall into them. -/
theorem resumed_scan_complete (h : verifyWithConfig catalog config ruleset = .ok host.image)
    (hlookback : host.limits.maxLookback.toInt = config.maxLookbackMs.toInt)
    {calls : List Call} {c : Call} (hids : ((history host (calls ++ [c])).map EventNode.id).Nodup)
    (hspill : ∀ d, EngineDiagnostic.store d ∉ (runCalls host (calls ++ [c])).diagnostics)
    {m : PendingMatch} (hresumes : ResumesIn host (runCalls host calls) c m e) :
    ∃ s ∈ e.trace.suspensions, s.pending = m ∧ ∃ ring, e.store.rings.lookup m.scope = some ring ∧
      ring.get m.anchorEvent = some s.anchor ∧
      ∀ rule ∈ host.image.rules, ∀ spec ∈ rule.correlates, ∃ back forward,
        spec.window = .calculable back forward ∧
        (ring.scanWindow s.anchor.time back forward).Perm
          ((history host (calls ++ [c])).filter fun event => event.scope = m.scope ∧
            s.anchor.time.sub back ≤ event.time ∧ event.time ≤ s.anchor.time.add forward) := by
  obtain ⟨haccounted, ⟨s, hs, rfl⟩, -⟩ := (runCalls_accounted calls).resumesIn hresumes
  obtain ⟨start, taken, rest, hstart, hexpired, rfl⟩ := hresumes
  rw [runCalls_append] at hspill
  have hbefore := runCalls_kept fun d hd => hspill d (call_diagnostics_subset c hd)
  obtain ⟨hretains, hpending, -⟩ :=
    hbefore.sweepStart hstart fun d hd => hspill d ((call_quiet hstart).subset hd)
  have hframe := foldl_resumeMatch_frame host taken (popExpired start start.store.watermark)
  rw [← history_append] at hretains haccounted
  -- the match was waiting when the call began
  obtain ⟨scope, q, hq, hmem, -⟩ := GraphStore.mem_expired
    (hexpired ▸ List.mem_append_right _ (List.mem_cons_self ..) :
      s.pending ∈ start.store.expired start.store.watermark)
  rw [hpending] at hq
  have hwaits := hbefore.waits scope q hq s.pending hmem
  have hfits := haccounted.suspensions s hs
  rw [hfits.pending] at hwaits ⊢
  have hrule := (ProgramImage.mem_rulesFor hfits.rule).1
  -- so its anchor and its windows are within the look-back
  have hcutoff : ∀ back : DurationMs, s.rule.maxForward.toInt + back.toInt ≤
      config.maxLookbackMs.toInt →
      (runCalls host calls).store.watermark.sub host.limits.maxLookback ≤
        s.anchor.time.sub back :=
    fun back hle => EventTime.sub_le_sub_of_le_add hwaits (by omega)
  have hscope := hretains s.anchor.scope
  have hanchorTime : (runCalls host calls).store.watermark.sub host.limits.maxLookback ≤
      s.anchor.time := by
    have hmax := accepted_maxForward_le h hrule (hlookback ▸ host.limits.maxLookback.nonneg)
    have hzero := hcutoff .zero (by rw [DurationMs.toInt_zero]; omega)
    rwa [EventTime.sub_zero] at hzero
  have hanchor : s.anchor ∈ start.store.events s.anchor.scope := by
    have hpast : s.anchor ∈ (history host (calls ++ [c])).filter fun event =>
        event.scope = s.anchor.scope ∧
          (runCalls host calls).store.watermark.sub host.limits.maxLookback ≤ event.time :=
      List.mem_filter.mpr ⟨hfits.anchor, by simpa using hanchorTime⟩
    exact (List.mem_filter.mp (hscope.mem_iff.mpr hpast)).1
  obtain ⟨ring, hring, hbuf⟩ := GraphStore.ring_of_mem hanchor
  rw [hbuf] at hanchor hscope
  have hring' : (taken.foldl (resumeMatch host)
      (popExpired start start.store.watermark)).store.rings.lookup s.anchor.scope = some ring := by
    rw [hframe.rings]
    exact hring
  refine ⟨s, hs, hfits.pending, ring, hring', ?_, fun rule hruleMem spec hspec => ?_⟩
  · refine RingBuffer.get_of_mem hanchor fun other hother hid => ?_
    exact eq_of_id hids (haccounted.rings _ ring hring' other hother).1 hfits.anchor hid
  · obtain ⟨back, forward, hwindow, -, hback⟩ := accepted_window h hruleMem hspec
    refine ⟨back, forward, hwindow, ?_⟩
    have hmax := accepted_maxForward h hrule
    have hlo := hcutoff back (by omega)
    exact RingBuffer.scanWindow_perm hscope hlo

/-- The events that the calls of a run bring in, accepted or not. -/
def ingested (calls : List Call) : List EventNode :=
  calls.filterMap fun
    | .ingest event => some event
    | _ => none

/-- A message about the path of a session. -/
def messageAt (id : EventId) (time : Int64) : EventNode :=
  .new id "icmp.ptb" ⟨time⟩ ⟨.session, 7⟩ []

/-- A burst, and two messages in its window that come in the wrong order. -/
def swappedMessages : List Call :=
  [.ingest (burst 1400), .ingest (messageAt 2 1300), .ingest (messageAt 3 1200)]

/-- The engine in which the match of the burst is resumed. -/
def resumedAfter (host : Host) (calls : List Call) : Engine :=
  popExpired { runCalls host calls with
    store := (runCalls host calls).store.advanceWatermark ⟨5000⟩ } ⟨5000⟩

theorem resumed_scan_complete_swapped :
    ∃ s ∈ (resumedAfter (seedHost waitingRules) swappedMessages).trace.suspensions,
      s.pending = waitingPtb ∧
      ∃ ring, (resumedAfter (seedHost waitingRules) swappedMessages).store.rings.lookup
          ⟨.session, 7⟩ = some ring ∧
        ring.get 1 = some s.anchor ∧
        ∀ rule ∈ (seedHost waitingRules).image.rules, ∀ spec ∈ rule.correlates,
          ∃ back forward, spec.window = .calculable back forward ∧
          (ring.scanWindow s.anchor.time back forward).Perm
            ((history (seedHost waitingRules) (swappedMessages ++ [.advanceWatermark ⟨5000⟩])).filter
              fun event => event.scope = ⟨.session, 7⟩ ∧ s.anchor.time.sub back ≤ event.time ∧
                event.time ≤ s.anchor.time.add forward) := by
  have hverify : verifyWithConfig .seed .default waitingRules = .ok (seedHost waitingRules).image :=
    verify_eq_ok (by decide) (by decide)
  have hresumes : ResumesIn (seedHost waitingRules)
      (runCalls (seedHost waitingRules) swappedMessages) (.advanceWatermark ⟨5000⟩) waitingPtb
      (resumedAfter (seedHost waitingRules) swappedMessages) := ⟨_, [], [], rfl, by decide, rfl⟩
  have hdiagnostics : (runCalls (seedHost waitingRules)
      (swappedMessages ++ [.advanceWatermark ⟨5000⟩])).diagnostics = [] := by decide
  exact resumed_scan_complete hverify (by decide) (by decide)
    (fun d hd => by rw [hdiagnostics] at hd; cases hd) hresumes

/-- A live engine for a ruleset over the seed catalog. -/
def liveHost (ruleset : Ruleset) : Host := { seedHost ruleset with mode := .live }

/-- A live engine drops the message that comes late, so the window of the resumed
match misses an event that was ingested. -/
theorem live_scan_misses_dropped :
    (verifyWithConfig .seed .default waitingRules).isOk = true ∧
    ((ingested swappedMessages).map EventNode.id).Nodup ∧
    (∀ d, EngineDiagnostic.store d ∉ (runCalls (liveHost waitingRules)
      (swappedMessages ++ [.advanceWatermark ⟨5000⟩])).diagnostics) ∧
    ResumesIn (liveHost waitingRules) (runCalls (liveHost waitingRules) swappedMessages)
      (.advanceWatermark ⟨5000⟩) waitingPtb (resumedAfter (liveHost waitingRules) swappedMessages) ∧
    messageAt 3 1200 ∈ ingested swappedMessages ∧
    ∃ ring, (resumedAfter (liveHost waitingRules) swappedMessages).store.rings.lookup
        ⟨.session, 7⟩ = some ring ∧
      (ring.scanWindow ⟨1000⟩ .zero (.ofMillis 500)).map EventNode.id = [1, 2] := by
  refine ⟨by decide, by decide, fun d hd => ?_, ⟨_, [], [], rfl, by decide, rfl⟩,
    List.mem_cons_of_mem _ (List.mem_cons_of_mem _ (List.mem_cons_self ..)), _, rfl, by decide⟩
  have hdiagnostics : (runCalls (liveHost waitingRules)
      (swappedMessages ++ [.advanceWatermark ⟨5000⟩])).diagnostics =
        [.lateEventDropped ⟨.session, 7⟩ 3 ⟨1200⟩ ⟨1300⟩] := by decide
  rw [hdiagnostics] at hd
  cases List.mem_singleton.mp hd

end Adgl
