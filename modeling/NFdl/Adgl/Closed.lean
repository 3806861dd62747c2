import NFdl.Adgl.Resumption
import NFdl.Adgl.Windows

/-!
# Closed windows

An evidence rule with a window forward resolves its bindings when the watermark has
reached the end of the window, whichever way it was started. A decision rule is run
as soon as its cause or problem changes, and does not wait.
-/

namespace Adgl

open Ast (RuleDecl Ruleset)

/-- Every window that extends forward had closed when the bindings were resolved. -/
def Resolution.Closed (r : Resolution) : Prop :=
  ∀ spec ∈ r.rule.correlates, ∀ back forward, spec.window = .calculable back forward →
    DurationMs.zero < forward → r.anchor.time.add forward ≤ r.wm

variable {host : Host} {catalog : Catalog} {config : VerifyConfig} {ruleset : Ruleset}
  {past : List EventNode} {suspensions : List Suspension} {wm : EventTime}
  {rule : RuleInstance} {anchor : Bound} {scope : ScopeId}

theorem ProgramImage.mem_of_find? {image : ProgramImage} {id : RuleId}
    (h : image.rules.find? (·.id == id) = some rule) : rule ∈ image.rules :=
  List.mem_of_find?_eq_some h

/-- Two events of the past under one identifier are one event. -/
theorem eq_of_id (hids : (past.map EventNode.id).Nodup) {event event' : EventNode}
    (hevent : event ∈ past) (hevent' : event' ∈ past) (hid : event.id = event'.id) :
    event = event' :=
  List.inj_on_of_nodup_map hids hevent hevent' hid

/-- The engine starts rules of the image only. -/
theorem Started.mem (h : Started host past suspensions wm rule anchor scope) :
    rule ∈ host.image.rules := by
  cases h with
  | matched hevent hrule hclosed => exact (ProgramImage.mem_rulesFor hrule).1
  | resumed hevent hs hid hscope hrule hclosed => exact ProgramImage.mem_of_find? hrule

/-- However the engine starts a rule on an event, the forward windows of the rule
have closed. -/
theorem Started.closed (h : Started host past suspensions wm rule anchor scope)
    (hsuspensions : ∀ s ∈ suspensions, s.Fits host past)
    (hfinds : host.image.FindsMatched) (hids : (past.map EventNode.id).Nodup) :
    rule ∈ host.image.rules ∧ anchor.time.add rule.maxForward ≤ wm := by
  cases h with
  | matched hevent hrule hclosed => exact ⟨(ProgramImage.mem_rulesFor hrule).1, hclosed⟩
  | @resumed event s hevent hs hid hscope hrule hclosed =>
      have hfits := hsuspensions s hs
      obtain ⟨hmem, hkind, -⟩ := ProgramImage.mem_rulesFor hfits.rule
      obtain rfl := Option.some.inj (hrule.symm.trans (hfinds s.rule hmem hkind))
      obtain rfl := eq_of_id hids hevent hfits.anchor hid
      rw [hfits.pending] at hclosed
      exact ⟨hmem, le_of_lt hclosed⟩

/-- A rule that decides is never started on an event. -/
theorem Cascades.kind (h : Cascades host rule anchor scope) :
    rule ∈ host.image.rules ∧ rule.kind = .decision := by
  cases h with
  | cause h | problem h => exact ⟨(ProgramImage.mem_rulesFor h).1, (ProgramImage.mem_rulesFor h).2.1⟩

/-- All windows of a rule that the engine has started on an event have closed. -/
theorem Started.window_closed (h : verifyWithConfig catalog config ruleset = .ok host.image)
    (hclosed : rule ∈ host.image.rules ∧ anchor.time.add rule.maxForward ≤ wm)
    {spec : CorrelateSpec} (hspec : spec ∈ rule.correlates) {back forward : DurationMs}
    (hwindow : spec.window = .calculable back forward) : anchor.time.add forward ≤ wm := by
  obtain ⟨back', forward', hspecWindow, hle, -⟩ := accepted_window h hclosed.1 hspec
  obtain ⟨-, rfl⟩ := WindowProof.calculable.inj (hwindow.symm.trans hspecWindow)
  exact (EventTime.add_le_add hle).trans hclosed.2

/-- In a run of an accepted image whose rules are found by their identifiers, every
evidence rule, and every other rule without a window forward, resolves its bindings
on closed windows only. -/
theorem resolved_on_closed_windows
    (h : verifyWithConfig catalog config ruleset = .ok host.image)
    (hfinds : host.image.FindsMatched) {calls : List Call}
    (hids : ((history host calls).map EventNode.id).Nodup) {r : Resolution}
    (hr : r ∈ (runCalls host calls).trace.resolutions)
    (hrule : r.rule.kind = .evidence ∨ r.rule.maxForward = .zero) : r.Closed := by
  have haccounted : Accounted host _ _ := runCalls_accounted calls
  intro spec hspec back forward hcalculable hforward
  obtain hcascades | hstarted := haccounted.resolutions r hr
  · obtain ⟨hmem, hkind⟩ := hcascades.kind
    obtain hevidence | hzero := hrule
    · rw [hkind] at hevidence
      cases hevidence
    · obtain ⟨back', forward', hspecWindow, hle, -⟩ := accepted_window h hmem hspec
      obtain ⟨-, rfl⟩ := WindowProof.calculable.inj (hcalculable.symm.trans hspecWindow)
      rw [hzero] at hle
      exact absurd hforward (not_lt_of_ge hle)
  · exact Started.window_closed h (hstarted.closed haccounted.suspensions hfinds hids) hspec
      hcalculable

/-- A decision rule on a probable congestion that waits for messages about the path. -/
def confirmRule (forward : Int64) : RuleDecl :=
  .decision {
    name := "confirm"
    scope := .session
    anchor := .cause
      ⟨"hole", "Congestion", .binary .ge (.field (.ident "hole") "confidence") (.int 10)⟩
    correlates := [{
      binding := "ptb"
      source := .event ["icmp", "ptb"]
      topo := ⟨"same_session", [.field (.ident "hole") "target", .field (.ident "ptb") "target"]⟩
      time := ⟨.field (.ident "ptb") "time", .field (.ident "hole") "time",
        .binary .add (.field (.ident "hole") "time") (.duration forward)⟩
      minMatch := none }]
    ifElse := none
    body := [.emit ⟨"XlIcmpTcpMss", [.severity .high]⟩] }

/-- Congestion that is inferred from a burst, and the rule that confirms it. -/
def confirmRules (forward : Int64) : Ruleset :=
  ⟨"confirm", [], [burstRule (.bool true), confirmRule forward]⟩

theorem resolved_on_closed_windows_waiting :
    ∃ r ∈ (runCalls (seedHost waitingRules) [.ingest (burst 1400), .finish]).trace.resolutions,
      r.Closed := by
  have hverify : verifyWithConfig .seed .default waitingRules = .ok (seedHost waitingRules).image :=
    verify_eq_ok (by decide) (by decide)
  obtain ⟨r, hr⟩ := List.exists_mem_of_ne_nil
    (runCalls (seedHost waitingRules) [.ingest (burst 1400), .finish]).trace.resolutions (by
      intro h
      have hlength := congrArg List.length h
      revert hlength
      decide)
  have hkinds : ∀ r ∈ (runCalls (seedHost waitingRules)
      [.ingest (burst 1400), .finish]).trace.resolutions, r.rule.kind = .evidence := by decide
  exact ⟨r, hr, resolved_on_closed_windows hverify (by decide) (by decide) hr (.inl (hkinds r hr))⟩

/-- The decision rule resolves its window of half a second at once. -/
theorem decision_resolved_on_open_window :
    (verifyWithConfig .seed .default (confirmRules 500)).isOk = true ∧
    ∃ r ∈ (runCalls (seedHost (confirmRules 500)) [.ingest (burst 1400)]).trace.resolutions,
      r.rule.id = "confirm" ∧ r.wm = ⟨1000⟩ ∧ ¬ r.Closed := by
  have hopen : ∃ r ∈ (runCalls (seedHost (confirmRules 500))
      [.ingest (burst 1400)]).trace.resolutions, r.rule.id = "confirm" ∧ r.wm = ⟨1000⟩ ∧
      ∃ spec ∈ r.rule.correlates, spec.window = .calculable .zero (.ofMillis 500) ∧
        ¬ r.anchor.time.add (.ofMillis 500) ≤ r.wm := by decide
  obtain ⟨r, hr, hid, hwm, spec, hspec, hwindow, hnot⟩ := hopen
  exact ⟨by decide, r, hr, hid, hwm,
    fun hclosed => hnot (hclosed spec hspec _ _ hwindow (by decide))⟩

end Adgl
