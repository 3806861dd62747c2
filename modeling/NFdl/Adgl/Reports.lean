import NFdl.Adgl.Resumption

/-!
# What is reported

Diagnostics are appended only. Sweeping and matching report nothing about late
events: these reports are made when an event comes in, before the sweep.
-/

namespace Adgl

/-- A diagnostic about an event that came late. -/
def EngineDiagnostic.isLate : EngineDiagnostic → Bool
  | .lateEvidence .. | .lateEventDropped .. => true
  | .store .. | .predicateError .. | .unresolvedTarget .. | .unsupportedTargetTail ..
  | .causeCapacity .. | .ruleFiringsExceeded .. | .runtimeCheckWindow .. | .missingAnchor ..
  | .ruleNotInImage .. => false

theorem EngineDiagnostic.isLate_of_isRule {d : EngineDiagnostic} (h : d.isRule = true) :
    d.isLate = false := by
  cases d <;> first | rfl | cases h

/-- That diagnostics are appended, none of them about a late event. -/
def Quiet (e e' : Engine) : Prop :=
  ∃ ds, e'.diagnostics = e.diagnostics ++ ds ∧ ∀ d ∈ ds, d.isLate = false

variable {host : Host} {e e' e'' : Engine}

namespace Quiet

theorem of_eq (h : e'.diagnostics = e.diagnostics) : Quiet e e' :=
  ⟨[], by rw [h, List.append_nil], fun d hd => absurd hd List.not_mem_nil⟩

theorem refl (e : Engine) : Quiet e e := .of_eq rfl

theorem trans (h : Quiet e e') (h' : Quiet e' e'') : Quiet e e'' := by
  obtain ⟨ds, hds, hall⟩ := h
  obtain ⟨ds', hds', hall'⟩ := h'
  refine ⟨ds ++ ds', ?_, fun d hd => (List.mem_append.mp hd).elim (hall d) (hall' d)⟩
  rw [hds', hds, List.append_assoc]

theorem report {diags : List EngineDiagnostic} (h : ∀ d ∈ diags, d.isLate = false) :
    Quiet e (e.report diags) :=
  ⟨diags, rfl, h⟩

theorem subset (h : Quiet e e') : e.diagnostics ⊆ e'.diagnostics := by
  obtain ⟨ds, hds, -⟩ := h
  rw [hds]
  exact List.subset_append_left _ _

end Quiet

theorem Goes.quiet {fires : RuleInstance → Bound → ScopeId → Prop} (h : Goes fires e e') :
    Quiet e e' := by
  obtain ⟨ds, hds, hall⟩ := h.diagnostics
  exact ⟨ds, hds, fun d hd => EngineDiagnostic.isLate_of_isRule (hall d hd)⟩

theorem ResumeFrame.quiet (h : ResumeFrame e e') : Quiet e e' := by
  obtain ⟨ds, hds, hall⟩ := h.diagnostics
  refine ⟨ds, hds, fun d hd => ?_⟩
  obtain hrule | ⟨r, rfl⟩ | ⟨r, rfl⟩ := hall d hd
  · exact EngineDiagnostic.isLate_of_isRule hrule
  · rfl
  · rfl

variable (host)

theorem sweep_quiet (e : Engine) : Quiet e (sweep host e) :=
  (foldl_resumeMatch_frame host _ (popExpired e e.store.watermark)).quiet

theorem suspendMatch_quiet (rule : RuleInstance) (event : EventNode) (e : Engine) :
    Quiet e (suspendMatch host rule event e) := by
  unfold suspendMatch
  simp only
  split
  · exact Quiet.report fun d hd => by rw [List.mem_singleton.mp hd]; rfl
  · exact .of_eq rfl

theorem matchAnchor_quiet (event : EventNode) (wm : EventTime) (run : Run) (rule : RuleInstance) :
    Quiet run.engine (matchAnchor host event wm run rule).engine := by
  let matched := evalPred host run.engine.interner rule rule.anchor.predicate
    [.bound (.event event)] event.scope
  have hmatched : ∀ d ∈ matched.2, d.isRule = true := evalPred_isRule
  have hreported : Quiet run.engine (run.report matched.2).engine :=
    .report fun d hd => EngineDiagnostic.isLate_of_isRule (hmatched d hd)
  refine hreported.trans ?_
  unfold matchAnchor
  simp only
  split
  · split
    · exact suspendMatch_quiet host rule event _
    · exact (runWithin_goes_any ..).quiet
  · exact .refl _

theorem matchAnchors_quiet (event : EventNode) (wm : EventTime) (e : Engine) :
    Quiet e (matchAnchors host event wm e) := by
  have hfold : ∀ (rules : List RuleInstance) (run : Run),
      Quiet run.engine (rules.foldl (matchAnchor host event wm) run).engine := by
    intro rules
    induction rules with
    | nil => exact fun run => .refl _
    | cons rule rest ih => exact fun run => (matchAnchor_quiet host event wm run rule).trans (ih _)
  exact hfold _ _

variable {host}

/-- From the sweep on, a call reports nothing about late events. -/
theorem call_quiet {c : Call} {start : Engine} (h : sweepStart host e c = some start) :
    Quiet start (call host e c) := by
  rw [call_of_sweepStart h]
  split
  · exact (sweep_quiet host start).trans (matchAnchors_quiet host _ _ _)
  · exact sweep_quiet host start

/-- What is reported before the sweep. -/
def lateReport (event : EventNode) (e : Engine) : List EngineDiagnostic :=
  match e.resolvedAbsent.find? fun ra =>
      ra.scope == event.scope && ra.eventType == event.eventType &&
        ra.lo ≤ event.time && event.time ≤ ra.hi with
  | some ra => [.lateEvidence event.scope ra.rule event.id event.eventType e.store.watermark]
  | none => []

theorem audit_eq (event : EventNode) (e : Engine) :
    auditOfflineLateEvidence event e.store.watermark e = e.report (lateReport event e) := by
  unfold auditOfflineLateEvidence lateReport
  rcases e.resolvedAbsent.find? _ with _ | ra
  · change e = { e with diagnostics := e.diagnostics ++ [] }
    rw [List.append_nil]
  · rfl

/-- An accepted event is audited if it is late and the capture is offline, and what
its ring drops is reported. -/
theorem acceptEvent_diagnostics (event : EventNode) (e : Engine) :
    (acceptEvent host event e).diagnostics = e.diagnostics ++
      ((if host.mode = .offline ∧ e.isLate event = true then lateReport event e else []) ++
        (e.store.pushSpill host.limits event).toList.map EngineDiagnostic.store) := by
  unfold acceptEvent
  rw [← List.append_assoc]
  cases host.mode with
  | offline =>
      simp only [true_and]
      rcases hlate : e.isLate event with _ | _
      · simp only [Bool.false_eq_true, if_false, List.append_nil]
        rfl
      · simp only [if_true, audit_eq]
        rfl
  | live =>
      simp only [reduceCtorEq, false_and, if_false, List.append_nil]
      rfl

/-- What a call that does not sweep leaves as it is: it may note or drop an event. -/
structure Idle (e e' : Engine) : Prop where
  store : e'.store = e.store
  trace : e'.trace = e.trace
  resolvedAbsent : e'.resolvedAbsent = e.resolvedAbsent
  diagnostics : e'.diagnostics = e.diagnostics ∨ ∃ (event : EventNode) (wm : EventTime),
    e'.diagnostics = e.diagnostics ++ [.lateEventDropped event.scope event.id event.time wm]

/-- A call that does not sweep accepts no event. -/
theorem call_of_noSweep {c : Call} (h : sweepStart host e c = none) :
    accepted host e c = [] ∧ Idle e (call host e c) := by
  cases c with
  | ingest event =>
      change (if (e.note event).isDropped host event = true then none else _) = none at h
      rcases hdropped : (e.note event).isDropped host event with _ | _
      · rw [hdropped, if_neg Bool.false_ne_true] at h
        cases h
      · have hcall : call host e (.ingest event) = (e.note event).drop event := by
          change ingest host event e = _
          unfold ingest
          simp only [hdropped, if_true]
        rw [hcall]
        exact ⟨if_pos hdropped, rfl, rfl, rfl, .inr ⟨event, _, rfl⟩⟩
  | advanceWatermark t => cases h
  | advanceWallClock t =>
      refine ⟨rfl, ?_⟩
      change Idle e (advanceWallClock host t e)
      unfold advanceWallClock
      split <;> exact ⟨rfl, rfl, rfl, .inl rfl⟩
  | internScope scope => exact ⟨rfl, rfl, rfl, rfl, .inl rfl⟩
  | finish =>
      refine ⟨rfl, ?_⟩
      change (if e.finished = true then none else e.lastEventTime.map _) = none at h
      change Idle e (finish host e)
      unfold finish
      rcases hfinished : e.finished with _ | _
      · rw [hfinished, if_neg Bool.false_ne_true, Option.map_eq_none_iff] at h
        simp only [h, Bool.false_eq_true, if_false]
        exact ⟨rfl, rfl, rfl, .inl rfl⟩
      · rw [if_pos rfl]
        exact ⟨rfl, rfl, rfl, .inl rfl⟩

/-- Diagnostics are never taken back. -/
theorem call_diagnostics_subset (c : Call) : e.diagnostics ⊆ (call host e c).diagnostics := by
  rcases hstart : sweepStart host e c with _ | start
  · obtain hsame | ⟨event, wm, hdropped⟩ := (call_of_noSweep hstart).2.diagnostics
    · rw [hsame]
      exact List.Subset.refl _
    · rw [hdropped]
      exact List.subset_append_left _ _
  · have hbefore : e.diagnostics ⊆ start.diagnostics := by
      obtain ⟨event, -, -, rfl⟩ | ⟨t, -, rfl⟩ | ⟨last, -, -, -, rfl⟩ := sweepStart_cases hstart
      · rw [acceptEvent_diagnostics]
        exact List.subset_append_left _ _
      · exact List.Subset.refl _
      · exact List.Subset.refl _
    exact List.Subset.trans hbefore (call_quiet hstart).subset

end Adgl
