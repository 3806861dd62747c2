import NFdl.Adgl.PartitionSteps
import NFdl.Adgl.Retention

/-!
# The live watermark

In live mode the watermark follows the sources: each source has a watermark of its
own behind the latest event it sent, and the global one is the least among those
that are not idle. An event that arrives too far behind it goes to the side output
and not into the ring of its scope.
-/

namespace Adgl

variable {host : Host} {e e' : Engine}

/-! ### Intake -/

/-- The part of an engine that decides which events are late, and that receives them. -/
structure Intake where
  rings : Table ScopeId RingBuffer
  watermark : EventTime
  sources : Table ScopeId SourceWm
  lateSideOutput : List EventNode

def Engine.intake (e : Engine) : Intake where
  rings := e.store.rings
  watermark := e.store.watermark
  sources := e.sources
  lateSideOutput := e.lateSideOutput

theorem Goes.intake {fires : RuleInstance → Bound → ScopeId → Prop} (h : Goes fires e e') :
    e'.intake = e.intake :=
  congrArg (fun o : Outside => (⟨o.rings, o.watermark, o.sources, o.lateSideOutput⟩ : Intake))
    h.outside

theorem runWithin_intake (rule : RuleInstance) (anchor : Bound) (scope : ScopeId) (run : Run) :
    (runWithin host rule anchor scope run).engine.intake = run.engine.intake :=
  (runWithin_goes_any host rule anchor scope run).intake

theorem resumeMatch_intake (e : Engine) (m : PendingMatch) :
    (resumeMatch host e m).intake = e.intake := by
  obtain h | h | ⟨ring, event, rule, -, -, -, h⟩ := resumeMatch_cases host e m
  · rw [h]
    rfl
  · rw [h]
    rfl
  · rw [h, runWithin_intake]
    rfl

theorem foldl_resumeMatch_intake (ms : List PendingMatch) (e : Engine) :
    (ms.foldl (resumeMatch host) e).intake = e.intake := by
  induction ms generalizing e with
  | nil => rfl
  | cons m rest ih => exact (ih _).trans (resumeMatch_intake e m)

/-- A sweep changes nothing but the rings. -/
theorem sweep_intake (e : Engine) : (sweep host e).intake = { e.intake with
    rings := e.store.rings.mapValues (·.gc e.store.watermark host.limits.maxLookback) } := by
  have hresumed : (resumeExpired host e.store.watermark e).intake = e.intake :=
    foldl_resumeMatch_intake (e.store.expired e.store.watermark) (popExpired e e.store.watermark)
  have hgc : ∀ (wm : EventTime) (e : Engine), (gcSweep host wm e).intake = { e.intake with
      rings := e.intake.rings.mapValues (·.gc wm host.limits.maxLookback) } := fun _ _ => rfl
  unfold sweep
  simp only
  rw [hgc, hresumed]
  rfl

theorem suspendMatch_intake (rule : RuleInstance) (event : EventNode) (e : Engine) :
    (suspendMatch host rule event e).intake = e.intake := by
  unfold suspendMatch
  simp only
  split <;> rfl

theorem matchAnchor_intake (event : EventNode) (wm : EventTime) (run : Run)
    (rule : RuleInstance) :
    (matchAnchor host event wm run rule).engine.intake = run.engine.intake := by
  unfold matchAnchor
  simp only
  split
  · split
    · exact suspendMatch_intake rule event _
    · exact runWithin_intake ..
  · rfl

theorem matchAnchors_intake (event : EventNode) (wm : EventTime) (e : Engine) :
    (matchAnchors host event wm e).intake = e.intake := by
  have hfold : ∀ (rules : List RuleInstance) (run : Run),
      (rules.foldl (matchAnchor host event wm) run).engine.intake = run.engine.intake := by
    intro rules
    induction rules with
    | nil => exact fun run => rfl
    | cons rule rest ih => exact fun run => (ih _).trans (matchAnchor_intake event wm run rule)
  exact hfold _ _

/-- A dropped event goes to the side output, and nothing else changes. -/
theorem ingest_intake_dropped {event : EventNode} (h : (e.note event).isDropped host event = true) :
    (ingest host event e).intake =
      { e.intake with lateSideOutput := e.lateSideOutput ++ [event] } := by
  unfold ingest
  simp only [h, if_true]
  rfl

/-- An accepted event is pushed before the rings are swept. -/
theorem ingest_intake_kept {event : EventNode}
    (h : (e.note event).isDropped host event = false) :
    (ingest host event e).intake = { (acceptEvent host event (e.note event)).intake with
      rings := (acceptEvent host event (e.note event)).store.rings.mapValues
        (·.gc (acceptEvent host event (e.note event)).store.watermark host.limits.maxLookback) } := by
  unfold ingest
  simp only [h, Bool.false_eq_true, if_false]
  rw [matchAnchors_intake, sweep_intake]

theorem acceptEvent_live (hmode : host.mode = .live) (event : EventNode) (e : Engine) :
    acceptEvent host event e =
      pushEvent host event (advanceLiveWatermark host event.scope event.time e) := by
  unfold acceptEvent
  rw [hmode]

/-! ### Operations -/

/-- The events that an operation presents to the engine. -/
def Operation.ingested : Operation → List EventNode
  | .call (.ingest event) => [event]
  | _ => []

/-- That an operation neither advances the watermark explicitly nor ends the stream. -/
def Operation.Passive : Operation → Prop
  | .call (.advanceWatermark _) | .call .finish => False
  | _ => True

/-- What an operation of a live engine makes of its intake. -/
inductive Operation.Takes (host : Host) (e : Engine) : Operation → Intake → Prop
  | quiet {op : Operation} (hnone : op.ingested = []) : Takes host e op e.intake
  | sweep {op : Operation} (hnone : op.ingested = []) (wm : EventTime) (lookback : DurationMs) :
      Takes host e op { e.intake with rings := e.store.rings.mapValues (·.gc wm lookback) }
  | advance {op : Operation} (hnone : op.ingested = []) (hactive : ¬ op.Passive) (t : EventTime)
      (lookback : DurationMs) :
      Takes host e op { e.intake with
        watermark := max e.store.watermark t
        rings := e.store.rings.mapValues (·.gc (max e.store.watermark t) lookback) }
  | drop {event : EventNode} (hlate : event.time ≤ e.store.watermark) :
      Takes host e (.call (.ingest event))
        { e.intake with lateSideOutput := e.lateSideOutput ++ [event] }
  | accept {event : EventNode} {live : Engine}
      (hlive : live = advanceLiveWatermark host event.scope event.time (e.note event)) :
      Takes host e (.call (.ingest event)) { live.intake with
        rings := (e.store.pushEvent host.limits event).rings.mapValues
          (·.gc live.store.watermark host.limits.maxLookback) }

/-- A sweep after an explicit advance. -/
theorem sweep_advanced (e start : Engine) (t : EventTime)
    (hstart : start.intake = { e.intake with watermark := max e.store.watermark t }) :
    (sweep host start).intake = { e.intake with
      watermark := max e.store.watermark t
      rings := e.store.rings.mapValues
        (·.gc (max e.store.watermark t) host.limits.maxLookback) } := by
  have hwatermark : start.store.watermark = max e.store.watermark t :=
    congrArg Intake.watermark hstart
  have hrings : start.store.rings = e.store.rings := congrArg Intake.rings hstart
  rw [sweep_intake, hstart, hwatermark, hrings]

theorem ingest_takes (hmode : host.mode = .live) (e : Engine) (event : EventNode) :
    Operation.Takes host e (.call (.ingest event)) (ingest host event e).intake := by
  cases hdropped : (e.note event).isDropped host event with
  | true =>
      rw [ingest_intake_dropped hdropped]
      have hlate : (e.note event).isLate event = true := by
        unfold Engine.isDropped at hdropped
        exact (Bool.and_eq_true_iff.mp (Bool.and_eq_true_iff.mp hdropped).1).2
      exact .drop (of_decide_eq_true (Bool.and_eq_true_iff.mp hlate).2)
  | false =>
      rw [ingest_intake_kept hdropped, acceptEvent_live hmode]
      have haccept : Operation.Takes host e (.call (.ingest event))
          { (advanceLiveWatermark host event.scope event.time (e.note event)).intake with
            rings := (e.store.pushEvent host.limits event).rings.mapValues
              (·.gc (advanceLiveWatermark host event.scope event.time (e.note event)).store.watermark
                host.limits.maxLookback) } := .accept rfl
      exact haccept

/-- What every operation of a live engine does. -/
theorem operate_takes (hmode : host.mode = .live) (e : Engine) (op : Operation) :
    op.Takes host e (operate host e op).intake := by
  cases op with
  | gc watermark maxLookback => exact .sweep rfl watermark maxLookback
  | pruneEmitted wm maxCooldown => exact .quiet rfl
  | call c =>
      cases c with
      | ingest event => exact ingest_takes hmode e event
      | internScope scope => exact .quiet rfl
      | advanceWallClock t =>
          have hquiet : (advanceWallClock host t e).intake = e.intake := by
            unfold advanceWallClock
            split <;> rfl
          change Operation.Takes host e _ (advanceWallClock host t e).intake
          rw [hquiet]
          exact .quiet rfl
      | advanceWatermark t =>
          change Operation.Takes host e _ (advanceWatermark host t e).intake
          unfold advanceWatermark
          rw [sweep_advanced e _ t rfl]
          have hactive : ¬ Operation.Passive (.call (.advanceWatermark t)) := not_false
          exact .advance rfl hactive t _
      | finish =>
          change Operation.Takes host e _ (finish host e).intake
          unfold finish
          split
          · exact .quiet rfl
          · simp only
            split
            · exact .quiet rfl
            · rename_i last hlast
              unfold advanceWatermark
              rw [sweep_advanced e _ ((last.add host.imageMaxForward).add (.ofMillis 1)) rfl]
              have hactive : ¬ Operation.Passive (.call .finish) := not_false
              exact .advance rfl hactive _ _

/-! ### The watermark never goes back -/

theorem advanceLiveWatermark_le (scope : ScopeId) (eventTime : EventTime) (e : Engine) :
    e.store.watermark ≤ (advanceLiveWatermark host scope eventTime e).store.watermark :=
  le_max_left _ _

theorem Operation.Takes.watermark_le {op : Operation} {intake : Intake}
    (h : op.Takes host e intake) : e.store.watermark ≤ intake.watermark := by
  cases h with
  | quiet | sweep | drop => exact le_rfl
  | advance => exact le_max_left _ _
  | accept hlive =>
      rw [hlive]
      exact advanceLiveWatermark_le _ _ (e.note _)

theorem runOperations_watermark_le (hmode : host.mode = .live) (ops ops' : List Operation) :
    (runOperations host ops).store.watermark ≤
      (runOperations host (ops ++ ops')).store.watermark := by
  rw [runOperations_append]
  generalize runOperations host ops = e
  induction ops' generalizing e with
  | nil => exact le_rfl
  | cons op rest ih => exact (operate_takes hmode e op).watermark_le.trans (ih _)

/-! ### Where the events go -/

/-- The rings after any number of sweeps. -/
def Swept : Table ScopeId RingBuffer → Table ScopeId RingBuffer → Prop :=
  Relation.ReflTransGen fun rings rings' =>
    ∃ wm lookback, rings' = rings.mapValues (·.gc wm lookback)

theorem Swept.single (rings : Table ScopeId RingBuffer) (wm : EventTime)
    (lookback : DurationMs) : Swept rings (rings.mapValues (·.gc wm lookback)) :=
  Relation.ReflTransGen.single ⟨wm, lookback, rfl⟩

/-- That an operation pushes some of its events into the rings of their scopes and
appends the others to the side output. -/
structure Operation.Routes (host : Host) (e : Engine) (op : Operation)
    (pushed late : List EventNode) : Prop where
  ingested : op.ingested = pushed ++ late
  rings : Swept (pushed.foldl (GraphStore.pushEvent host.limits) e.store).rings
    (operate host e op).store.rings
  late : (operate host e op).lateSideOutput = e.lateSideOutput ++ late

/-- Every event goes one way: into the ring of its scope or to the side output. -/
theorem operate_routes (hmode : host.mode = .live) (e : Engine) (op : Operation) :
    ∃ pushed late, op.Routes host e pushed late := by
  have htakes := operate_takes hmode e op
  have hrings : (operate host e op).store.rings = (operate host e op).intake.rings := rfl
  have hlate : (operate host e op).lateSideOutput =
    (operate host e op).intake.lateSideOutput := rfl
  suffices h : ∃ pushed late, op.ingested = pushed ++ late ∧
      Swept (pushed.foldl (GraphStore.pushEvent host.limits) e.store).rings
        (operate host e op).intake.rings ∧
      (operate host e op).intake.lateSideOutput = e.lateSideOutput ++ late by
    obtain ⟨pushed, late, hingested, hswept, happended⟩ := h
    exact ⟨pushed, late, hingested, hrings ▸ hswept, hlate.trans happended⟩
  generalize (operate host e op).intake = intake at htakes
  cases htakes with
  | quiet hnone => exact ⟨[], [], hnone, .refl, (List.append_nil _).symm⟩
  | sweep hnone wm lookback => exact ⟨[], [], hnone, .single _ _ _, (List.append_nil _).symm⟩
  | advance hnone hactive t lookback =>
      exact ⟨[], [], hnone, .single _ _ _, (List.append_nil _).symm⟩
  | drop hlate => exact ⟨[], [_], rfl, .refl, rfl⟩
  | accept hlive =>
      refine ⟨[_], [], rfl, .single _ _ _, ?_⟩
      rw [hlive]
      exact (List.append_nil _).symm

/-! ### How far the watermark can go -/

/-- That neither the watermark nor that of a source is beyond a bound. -/
structure Behind (bound : EventTime) (intake : Intake) : Prop where
  watermark : intake.watermark ≤ bound
  sources : ∀ scope source, intake.sources.lookup scope = some source → source.localWm ≤ bound

theorem Behind.new (bound : EventTime) : Behind bound Engine.new.intake := by
  refine ⟨?_, fun scope source hsource => ?_⟩
  · exact EventTime.le_iff.mpr (Int64.le_toInt bound.millis)
  · cases hsource

theorem foldl_min_le (sources : List SourceWm) (wm : EventTime) :
    sources.foldl (fun wm s => min wm s.localWm) wm ≤ wm := by
  induction sources generalizing wm with
  | nil => exact le_rfl
  | cons source rest ih => exact (ih _).trans (min_le_left _ _)

/-- A source that sends an event stays behind the time of the event, and so does the
least watermark of those that are not idle. -/
theorem Behind.advanceLiveWatermark {bound : EventTime} (h : Behind bound e.intake)
    (scope : ScopeId) {eventTime : EventTime}
    (hevent : eventTime.sub host.limits.maxDisorder ≤ bound) :
    Behind bound (advanceLiveWatermark host scope eventTime e).intake := by
  have hsources : ∀ scope' source, (Adgl.advanceLiveWatermark host scope eventTime e).sources.lookup
      scope' = some source → source.localWm ≤ bound := by
    refine Table.forall_update h.sources (max_le ?_ hevent)
    cases hlookup : e.sources.lookup scope with
    | none => exact hevent
    | some source => exact h.sources scope source hlookup
  refine ⟨?_, hsources⟩
  change max e.store.watermark _ ≤ bound
  refine max_le h.watermark ?_
  split
  · exact h.watermark
  · rename_i source rest hactive
    have hmem : source ∈ (Adgl.advanceLiveWatermark host scope eventTime e).sources.values :=
      List.mem_of_mem_filter (hactive ▸ List.mem_cons_self ..)
    obtain ⟨scope', hlookup⟩ := Table.mem_values_iff.mp hmem
    exact (foldl_min_le rest source.localWm).trans (hsources scope' source hlookup)

theorem Operation.Takes.behind {bound : EventTime} {op : Operation} {intake : Intake}
    (h : op.Takes host e intake) (hbehind : Behind bound e.intake) (hpassive : op.Passive)
    (hbound : ∀ event ∈ op.ingested, event.time.sub host.limits.maxDisorder ≤ bound) :
    Behind bound intake := by
  cases h with
  | quiet => exact hbehind
  | sweep | drop => exact ⟨hbehind.watermark, hbehind.sources⟩
  | advance hnone hactive => exact absurd hpassive hactive
  | @accept event live hlive =>
      have hnoted : Behind bound (e.note event).intake := hbehind
      have hadvanced := hnoted.advanceLiveWatermark event.scope
        (hbound event (List.mem_singleton_self event))
      rw [← hlive] at hadvanced
      exact ⟨hadvanced.watermark, hadvanced.sources⟩

/-- The latest time of the events, the minimum if there are none. -/
def latestTime (events : List EventNode) : EventTime :=
  (events.map EventNode.time).foldl max .minimum

/-- In a run of passive operations the watermarks stay behind the latest event. -/
theorem runOperations_behind (hmode : host.mode = .live) {ops : List Operation}
    (hpassive : ∀ op ∈ ops, op.Passive) :
    Behind ((latestTime (ops.flatMap Operation.ingested)).sub host.limits.maxDisorder)
      (runOperations host ops).intake := by
  have hbound : ∀ op ∈ ops, ∀ event ∈ op.ingested, event.time.sub host.limits.maxDisorder ≤
      (latestTime (ops.flatMap Operation.ingested)).sub host.limits.maxDisorder := by
    intro op hop event hevent
    have hmem : event ∈ ops.flatMap Operation.ingested := List.mem_flatMap.mpr ⟨op, hop, hevent⟩
    exact EventTime.sub_mono (le_foldl_max.2 event.time (List.mem_map_of_mem hmem)) _
  generalize (latestTime (ops.flatMap Operation.ingested)).sub host.limits.maxDisorder = bound
    at hbound
  have hrun : ∀ (ops : List Operation) (e : Engine), Behind bound e.intake →
      (∀ op ∈ ops, op.Passive) → (∀ op ∈ ops, ∀ event ∈ op.ingested,
        event.time.sub host.limits.maxDisorder ≤ bound) →
      Behind bound (ops.foldl (operate host) e).intake := by
    intro ops
    induction ops with
    | nil => exact fun _ h _ _ => h
    | cons op rest ih =>
        intro e h hpassive hbound
        have hstep := (operate_takes hmode e op).behind h (hpassive op (List.mem_cons_self ..))
          (hbound op (List.mem_cons_self ..))
        exact ih _ hstep (fun op' hop' => hpassive op' (List.mem_cons_of_mem _ hop'))
          (fun op' hop' => hbound op' (List.mem_cons_of_mem _ hop'))
  exact hrun ops .new (.new bound) hpassive hbound

/-- An event after the watermark is not dropped. -/
theorem ingest_lateSideOutput {event : EventNode} (hmode : host.mode = .live)
    (h : e.store.watermark < event.time) :
    (operate host e (.call (.ingest event))).lateSideOutput = e.lateSideOutput := by
  have htakes := operate_takes hmode e (.call (.ingest event))
  change (operate host e (.call (.ingest event))).intake.lateSideOutput = e.lateSideOutput
  generalize (operate host e (.call (.ingest event))).intake = intake at htakes
  cases htakes with
  | quiet hnone | sweep hnone | advance hnone => cases hnone
  | drop hlate => exact absurd h (not_lt.mpr hlate)
  | accept hlive =>
      rw [hlive]
      rfl

/-- The discipline of a live run. The watermark never goes back. Every event goes
one way. Unless the host advances the watermark or ends the stream, it stays behind
the latest event by the allowed disorder, and no event that is less far behind is
dropped. -/
theorem live_watermark_discipline (hmode : host.mode = .live) (ops : List Operation) :
    (∀ ops', (runOperations host ops).store.watermark ≤
      (runOperations host (ops ++ ops')).store.watermark) ∧
    (∀ op : Operation, ∃ pushed late, op.Routes host (runOperations host ops) pushed late) ∧
    ((∀ op ∈ ops, op.Passive) →
      (runOperations host ops).store.watermark ≤
        (latestTime (ops.flatMap Operation.ingested)).sub host.limits.maxDisorder ∧
      ∀ event : EventNode, (latestTime (ops.flatMap Operation.ingested)).sub
          host.limits.maxDisorder < event.time →
        (runOperations host (ops ++ [.call (.ingest event)])).lateSideOutput =
          (runOperations host ops).lateSideOutput) := by
  refine ⟨runOperations_watermark_le hmode ops, operate_routes hmode _, fun hpassive => ?_⟩
  have hbehind := (runOperations_behind hmode hpassive).watermark
  refine ⟨hbehind, fun event hevent => ?_⟩
  rw [runOperations_append]
  exact ingest_lateSideOutput hmode (lt_of_le_of_lt hbehind hevent)

/-- The messages come at 1000, 1300 and 1200 without any allowed disorder: the last
one goes to the side output, and none after 1300 would. -/
theorem live_watermark_of_swapped :
    (runOperations (liveHost waitingRules) (swappedMessages.map .call)).store.watermark = ⟨1300⟩ ∧
    (runOperations (liveHost waitingRules) (swappedMessages.map .call)).lateSideOutput.map
      EventNode.id = [3] ∧
    (∀ event : EventNode, (⟨1300⟩ : EventTime) < event.time →
      (runOperations (liveHost waitingRules)
        (swappedMessages.map .call ++ [.call (.ingest event)])).lateSideOutput =
      (runOperations (liveHost waitingRules) (swappedMessages.map .call)).lateSideOutput) := by
  have hpassive : ∀ op ∈ swappedMessages.map Operation.call, op.Passive := by
    intro op hop
    obtain ⟨c, hc, rfl⟩ := List.mem_map.mp hop
    rcases List.mem_cons.mp hc with rfl | hc
    · trivial
    rcases List.mem_cons.mp hc with rfl | hc
    · trivial
    cases List.mem_singleton.mp hc
    trivial
  have hlatest : (latestTime ((swappedMessages.map Operation.call).flatMap
      Operation.ingested)).sub (liveHost waitingRules).limits.maxDisorder = ⟨1300⟩ := by decide
  have hmode : (liveHost waitingRules).mode = .live := rfl
  have hrun := (live_watermark_discipline hmode (swappedMessages.map .call)).2.2 hpassive
  rw [hlatest] at hrun
  exact ⟨by decide, by decide, hrun.2⟩

end Adgl
