import NFdl.Adgl.Retention

/-!
# Late evidence

A correlate that resolved absent is remembered with its window. An event that falls
into such a window afterwards comes behind the watermark, since the window had
closed, and is reported once.
-/

namespace Adgl

open Ast (RuleDecl Ruleset)

variable {host : Host} {e e' : Engine}

/-! ### Absences lie behind the watermark -/

/-- Every resolution was made at or before the watermark. -/
def Timely (e : Engine) : Prop := ∀ r ∈ e.trace.resolutions, r.wm ≤ e.store.watermark

theorem Timely.of_same (h : Timely e) (htrace : e'.trace.resolutions = e.trace.resolutions)
    (hwatermark : e.store.watermark ≤ e'.store.watermark) : Timely e' := by
  unfold Timely
  rw [htrace]
  exact fun r hr => (h r hr).trans hwatermark

theorem Timely.goes {fires : RuleInstance → Bound → ScopeId → Prop} (h : Timely e)
    (hgoes : Goes fires e e') : Timely e' := by
  obtain ⟨rs, hrs, -, hall⟩ := hgoes.resolutions
  unfold Timely
  rw [hrs, hgoes.watermark]
  intro r hr
  obtain hr | hr := List.mem_append.mp hr
  · exact h r hr
  · exact le_of_eq (hall r hr).2

theorem Timely.phase {past : List EventNode} {guard : Guard} (h : Timely e)
    (hphase : Phase host past guard e e') : Timely e' := by
  cases hphase with
  | book hbook =>
      exact h.of_same (congrArg Trace.resolutions hbook.trace)
        (le_of_eq (congrArg GraphStore.watermark hbook.store).symm)
  | push hevent hpushes => exact h.of_same rfl le_rfl
  | advance t => exact h.of_same rfl (le_max_left _ _)
  | pop => exact h.of_same rfl le_rfl
  | gc => exact h.of_same rfl le_rfl
  | suspend hevent hrule hopen =>
      refine h.of_same ?_ (le_of_eq (suspendMatch_watermark _ _ _).symm)
      unfold suspendMatch
      simp only
      split <;> rfl
  | run run hstarted hanchor => exact h.goes (runWithin_goes_any ..)

theorem runCalls_timely (calls : List Call) : Timely (runCalls host calls) := by
  refine runCalls_invariant (P := fun _ e => Timely e) .open (fun r hr => ?_)
    (fun past e c h => ?_) (fun _ _ _ h hphase => h.phase hphase) (along_open calls)
  · cases hr
  · cases c <;> exact h.of_same rfl le_rfl

/-- That an event falls into the window of an absence, in its scope and type. -/
structure ResolvedAbsent.Covers (ra : ResolvedAbsent) (event : EventNode) : Prop where
  scope : ra.scope = event.scope
  eventType : ra.eventType = event.eventType
  lo : ra.lo ≤ event.time
  hi : event.time ≤ ra.hi

/-- The window of an absence is one of the windows of the rule around its anchor. -/
theorem Resolution.absences_window {r : Resolution} {ra : ResolvedAbsent} (h : ra ∈ r.absences) :
    ∃ spec ∈ r.rule.correlates, ∃ back forward, spec.window = .calculable back forward ∧
      ra.hi = r.anchor.time.add forward := by
  unfold Resolution.absences absentCorrelates at h
  obtain ⟨⟨spec, i⟩, hentry, hra⟩ := List.mem_filterMap.mp h
  have hspec : spec ∈ r.rule.correlates :=
    List.mem_of_getElem? (List.mem_zipIdx_iff_getElem?.mp hentry)
  split at hra
  · obtain rfl := Option.some.inj hra
    exact ⟨spec, hspec, _, _, ‹_›, rfl⟩
  · cases hra

variable {catalog : Catalog} {config : VerifyConfig} {ruleset : Ruleset}

/-- In a run of an accepted image of evidence rules that are found by their
identifiers, the windows of all absences have closed. -/
theorem absent_window_closed (h : verifyWithConfig catalog config ruleset = .ok host.image)
    (hevidence : ∀ rule ∈ host.image.rules, rule.kind = .evidence)
    (hfinds : host.image.FindsMatched) {calls : List Call}
    (hids : ((history host calls).map EventNode.id).Nodup) {r : Resolution}
    (hr : r ∈ (runCalls host calls).trace.resolutions) {ra : ResolvedAbsent}
    (hra : ra ∈ r.absences) : ra.hi ≤ (runCalls host calls).store.watermark := by
  have haccounted : Accounted host _ _ := runCalls_accounted calls
  obtain ⟨spec, hspec, back, forward, hwindow, hhi⟩ := Resolution.absences_window hra
  refine le_trans ?_ (runCalls_timely calls r hr)
  obtain hcascades | hstarted := haccounted.resolutions r hr
  · obtain ⟨hmem, hkind⟩ := hcascades.kind
    rw [hevidence r.rule hmem] at hkind
    cases hkind
  · rw [hhi]
    exact Started.window_closed h (hstarted.closed haccounted.suspensions hfinds hids) hspec hwindow

/-! ### Reports of late evidence -/

/-- The test of the audit. -/
def ResolvedAbsent.matchesEvent (event : EventNode) (ra : ResolvedAbsent) : Bool :=
  ra.scope == event.scope && ra.eventType == event.eventType &&
    ra.lo ≤ event.time && event.time ≤ ra.hi

theorem ResolvedAbsent.matchesEvent_iff {ra : ResolvedAbsent} {event : EventNode} :
    ra.matchesEvent event = true ↔ ra.Covers event := by
  unfold matchesEvent
  simp only [Bool.and_eq_true, beq_iff_eq, decide_eq_true_iff]
  exact ⟨fun ⟨⟨⟨hscope, htype⟩, hlo⟩, hhi⟩ => ⟨hscope, htype, hlo, hhi⟩,
    fun ⟨hscope, htype, hlo, hhi⟩ => ⟨⟨⟨hscope, htype⟩, hlo⟩, hhi⟩⟩

theorem lateReport_eq (event : EventNode) (e : Engine) :
    lateReport event e = match e.resolvedAbsent.find? (ResolvedAbsent.matchesEvent event) with
      | some ra => [.lateEvidence event.scope ra.rule event.id event.eventType e.store.watermark]
      | none => [] := rfl

/-- The report is about an absence that covers the event, if there is one. -/
theorem lateReport_cases (event : EventNode) (e : Engine) :
    (∃ ra ∈ e.resolvedAbsent, ra.Covers event ∧ lateReport event e =
      [.lateEvidence event.scope ra.rule event.id event.eventType e.store.watermark]) ∨
    (∀ ra ∈ e.resolvedAbsent, ¬ ra.Covers event) ∧ lateReport event e = [] := by
  rw [lateReport_eq]
  rcases hfind : e.resolvedAbsent.find? (ResolvedAbsent.matchesEvent event) with _ | found
  · refine .inr ⟨fun ra hra hcovers => ?_, rfl⟩
    exact absurd (ResolvedAbsent.matchesEvent_iff.mpr hcovers) (List.find?_eq_none.mp hfind ra hra)
  · exact .inl ⟨found, List.mem_of_find?_eq_some hfind,
      ResolvedAbsent.matchesEvent_iff.mp (List.find?_some hfind), rfl⟩

/-- What a call appends to the diagnostics about late events, and the rest. -/
theorem ingest_diagnostics (hmode : host.mode = .offline) (e : Engine) (event : EventNode) :
    ∃ ds, (call host e (.ingest event)).diagnostics = e.diagnostics ++ ds ∧
      ds.filter EngineDiagnostic.isLate =
        if e.isLate event = true then lateReport event e else [] := by
  have hkept : (e.note event).isDropped host event = false := by
    unfold Engine.isDropped
    rw [hmode]
    rfl
  have hstart : sweepStart host e (.ingest event) = some (acceptEvent host event (e.note event)) :=
    if_neg (by rw [hkept]; exact Bool.false_ne_true)
  obtain ⟨quiet, hquiet, hall⟩ := call_quiet hstart
  rw [acceptEvent_diagnostics, List.append_assoc] at hquiet
  refine ⟨_, hquiet, ?_⟩
  have hlate : (e.note event).isLate event = e.isLate event := rfl
  have hreport : lateReport event (e.note event) = lateReport event e := rfl
  have hspill : ∀ d ∈ ((e.note event).store.pushSpill host.limits event).toList.map
      EngineDiagnostic.store, d.isLate = false := by
    intro d hd
    obtain ⟨diag, -, rfl⟩ := List.mem_map.mp hd
    rfl
  have hnone : ∀ ds : List EngineDiagnostic, (∀ d ∈ ds, d.isLate = false) →
      ds.filter EngineDiagnostic.isLate = [] := fun ds hds =>
    List.filter_eq_nil_iff.mpr fun d hd => by rw [hds d hd]; exact Bool.false_ne_true
  rw [List.filter_append, List.filter_append, hnone _ hall, hnone _ hspill, hlate, hreport, hmode,
    List.append_nil, List.append_nil]
  simp only [true_and]
  split
  · unfold lateReport
    split <;> rfl
  · rfl

/-- In an offline run of an accepted image of evidence rules, an ingested event that
falls into the window of an absence is reported once, with a rule that has such a
window, and an event that falls into none is not reported. -/
theorem late_evidence_reported_once (h : verifyWithConfig catalog config ruleset = .ok host.image)
    (hmode : host.mode = .offline) (hevidence : ∀ rule ∈ host.image.rules, rule.kind = .evidence)
    (hfinds : host.image.FindsMatched) (calls : List Call)
    (hids : ((history host calls).map EventNode.id).Nodup)
    (hwatermark : (runCalls host calls).store.watermark ≠ .minimum) (event : EventNode) :
    ∃ ds, (call host (runCalls host calls) (.ingest event)).diagnostics =
        (runCalls host calls).diagnostics ++ ds ∧
      ((∃ r ∈ (runCalls host calls).trace.resolutions, ∃ ra ∈ r.absences, ra.Covers event) →
        ∃ r ∈ (runCalls host calls).trace.resolutions, ∃ ra ∈ r.absences, ra.Covers event ∧
          ds.filter EngineDiagnostic.isLate = [.lateEvidence event.scope ra.rule event.id
            event.eventType (runCalls host calls).store.watermark]) ∧
      ((¬ ∃ r ∈ (runCalls host calls).trace.resolutions, ∃ ra ∈ r.absences, ra.Covers event) →
        ds.filter EngineDiagnostic.isLate = []) := by
  have haccounted : Accounted host _ _ := runCalls_accounted calls
  have habsences : ∀ ra, ra ∈ (runCalls host calls).resolvedAbsent ↔
      ∃ r ∈ (runCalls host calls).trace.resolutions, ra ∈ r.absences := by
    intro ra
    rw [haccounted.absences, List.mem_flatMap]
  obtain ⟨ds, hds, hlate⟩ := ingest_diagnostics hmode (runCalls host calls) event
  refine ⟨ds, hds, ?_, ?_⟩
  · rintro ⟨r, hr, ra, hra, hcovers⟩
    have hclosed := absent_window_closed h hevidence hfinds hids hr hra
    have hisLate : (runCalls host calls).isLate event = true := by
      unfold Engine.isLate
      rw [Bool.and_eq_true, decide_eq_true_iff, decide_eq_true_iff]
      exact ⟨hwatermark, hcovers.hi.trans hclosed⟩
    rw [if_pos hisLate] at hlate
    obtain ⟨found, hfound, hfoundCovers, hreport⟩ | ⟨hnone, -⟩ :=
      lateReport_cases event (runCalls host calls)
    · obtain ⟨r', hr', hra'⟩ := (habsences found).mp hfound
      exact ⟨r', hr', found, hra', hfoundCovers, hlate.trans hreport⟩
    · exact absurd hcovers (hnone ra ((habsences ra).mpr ⟨r, hr, hra⟩))
  · intro hnone
    rw [hlate]
    split
    · obtain ⟨found, hfound, hcovers, -⟩ | ⟨-, hreport⟩ :=
        lateReport_cases event (runCalls host calls)
      · obtain ⟨r, hr, hra⟩ := (habsences found).mp hfound
        exact absurd ⟨r, hr, found, hra, hcovers⟩ hnone
      · exact hreport
    · rfl

/-- A burst whose window closes without a message about the path. -/
def unansweredBurst : List Call := [.ingest (burst 1400), .advanceWatermark ⟨2000⟩]

theorem late_evidence_reported_once_unanswered :
    ∃ ds, (call (seedHost waitingRules) (runCalls (seedHost waitingRules) unansweredBurst)
        (.ingest (messageAt 2 1200))).diagnostics =
        (runCalls (seedHost waitingRules) unansweredBurst).diagnostics ++ ds ∧
      ds.filter EngineDiagnostic.isLate =
        [.lateEvidence ⟨.session, 7⟩ "ptb" 2 "icmp.ptb" ⟨2000⟩] := by
  have hverify : verifyWithConfig .seed .default waitingRules = .ok (seedHost waitingRules).image :=
    verify_eq_ok (by decide) (by decide)
  have hcovered : ∃ r ∈ (runCalls (seedHost waitingRules) unansweredBurst).trace.resolutions,
      ∃ ra ∈ r.absences, ra = ⟨⟨.session, 7⟩, "ptb", "icmp.ptb", ⟨1000⟩, ⟨1500⟩⟩ := by decide
  have hrules : ∀ r ∈ (runCalls (seedHost waitingRules) unansweredBurst).trace.resolutions,
      ∀ ra ∈ r.absences, ra.rule = "ptb" := by decide
  have hwatermark : (runCalls (seedHost waitingRules) unansweredBurst).store.watermark = ⟨2000⟩ := by
    decide
  obtain ⟨ds, hds, hreported, -⟩ := late_evidence_reported_once hverify rfl (by decide) (by decide)
    unansweredBurst (by decide) (by decide) (messageAt 2 1200)
  obtain ⟨r, hr, ra, hra, rfl⟩ := hcovered
  obtain ⟨r', hr', ra', hra', -, hreport⟩ := hreported ⟨r, hr, _, hra, rfl, rfl, by decide, by decide⟩
  rw [hrules r' hr' ra' hra', hwatermark] at hreport
  exact ⟨ds, hds, hreport⟩

/-- Two rules under one name, the first of which waits longer. -/
def longerFirstRules : Ruleset :=
  ⟨"longer", [], [waitingRule "ptb" "PmtudBlackhole" 5000, waitingRule "ptb" "Congestion" 500]⟩

/-- The match of the second rule is resumed as the first one, whose window is still
open. An event in this window is not late, and is not reported. -/
theorem longerFirst_unreported :
    (verifyWithConfig .seed .default longerFirstRules).isOk = true ∧
    (∃ r ∈ (runCalls (seedHost longerFirstRules) unansweredBurst).trace.resolutions,
      ∃ ra ∈ r.absences, ra.Covers (messageAt 2 3000)) ∧
    (call (seedHost longerFirstRules) (runCalls (seedHost longerFirstRules) unansweredBurst)
      (.ingest (messageAt 2 3000))).diagnostics = [] := by
  have hcovered : ∃ r ∈ (runCalls (seedHost longerFirstRules) unansweredBurst).trace.resolutions,
      ∃ ra ∈ r.absences, ra = ⟨⟨.session, 7⟩, "ptb", "icmp.ptb", ⟨1000⟩, ⟨6000⟩⟩ := by decide
  obtain ⟨r, hr, ra, hra, rfl⟩ := hcovered
  exact ⟨by decide, ⟨r, hr, _, hra, rfl, rfl, by decide, by decide⟩, by decide⟩

end Adgl
