import NFdl.Adgl.Pipeline
import NFdl.Adgl.TypeSound

/-!
# Resumption

Every call that advances the watermark resumes the expired matches one after the
other. A waiting match names its rule and its anchor by identifiers only, so which
rule is resumed depends on the identifiers being unique.
-/

namespace Adgl

open Ast (Expr RuleDecl Ruleset)

variable (host : Host)

/-- The engine in which the resume sweep of a call begins, if the call sweeps. -/
def sweepStart (e : Engine) : Call → Option Engine
  | .ingest event =>
      let e := e.note event
      if e.isDropped host event then none else some (acceptEvent host event e)
  | .advanceWatermark t => some { e with store := e.store.advanceWatermark t }
  | .finish =>
      if e.finished then none
      else e.lastEventTime.map fun last =>
        { e with
          finished := true
          store := e.store.advanceWatermark ((last.add host.imageMaxForward).add (.ofMillis 1)) }
  | .advanceWallClock _ | .internScope _ => none

/-- That a call resumes a match, in an engine in which the matches before it have
been resumed. -/
def ResumesIn (e : Engine) (c : Call) (m : PendingMatch) (e' : Engine) : Prop :=
  ∃ start taken rest, sweepStart host e c = some start ∧
    start.store.expired start.store.watermark = taken ++ m :: rest ∧
    e' = taken.foldl (resumeMatch host) (popExpired start start.store.watermark)

variable {host} {past : List EventNode} {e e' : Engine} {c : Call} {m : PendingMatch}

/-- The calls that sweep, and where the sweep begins. -/
theorem sweepStart_cases {start : Engine} (h : sweepStart host e c = some start) :
    (∃ event, c = .ingest event ∧ (e.note event).isDropped host event = false ∧
      start = acceptEvent host event (e.note event)) ∨
    (∃ t, c = .advanceWatermark t ∧ start = { e with store := e.store.advanceWatermark t }) ∨
    ∃ last, c = .finish ∧ e.finished = false ∧ e.lastEventTime = some last ∧
      start = { e with
        finished := true
        store := e.store.advanceWatermark
          ((last.add host.imageMaxForward).add (.ofMillis 1)) } := by
  cases c with
  | ingest event =>
      change (if (e.note event).isDropped host event = true then none
        else some (acceptEvent host event (e.note event))) = some start at h
      rcases hdropped : (e.note event).isDropped host event with _ | _
      · rw [hdropped, if_neg Bool.false_ne_true] at h
        exact .inl ⟨event, rfl, hdropped, (Option.some.inj h).symm⟩
      · rw [hdropped, if_pos rfl] at h
        cases h
  | advanceWatermark t => exact .inr (.inl ⟨t, rfl, (Option.some.inj h).symm⟩)
  | finish =>
      change (if e.finished = true then none else e.lastEventTime.map _) = some start at h
      rcases hfinished : e.finished with _ | _
      · rw [hfinished, if_neg Bool.false_ne_true] at h
        obtain ⟨last, hlast, rfl⟩ := Option.map_eq_some_iff.mp h
        exact .inr (.inr ⟨last, rfl, rfl, hlast, rfl⟩)
      · rw [hfinished, if_pos rfl] at h
        cases h
  | advanceWallClock t => cases h
  | internScope scope => cases h

/-- A call that sweeps goes through the sweep, and only an ingested event is matched
after it. -/
theorem call_of_sweepStart {start : Engine} (h : sweepStart host e c = some start) :
    call host e c = match c with
      | .ingest event => matchAnchors host event start.store.watermark (sweep host start)
      | _ => sweep host start := by
  obtain ⟨event, rfl, hkept, rfl⟩ | ⟨t, rfl, rfl⟩ | ⟨last, rfl, hopen, hlast, rfl⟩ :=
    sweepStart_cases h
  · change ingest host event e = _
    unfold ingest
    simp only [hkept, Bool.false_eq_true, if_false]
  · rfl
  · change finish host e = _
    unfold finish
    rw [hopen, if_neg Bool.false_ne_true]
    simp only [hlast]
    rfl

/-- What a sweep begins with is accounted for. -/
theorem Accounted.sweepStart (h : Accounted host past e) {start : Engine}
    (hstart : sweepStart host e c = some start) :
    Accounted host (past ++ accepted host e c) start := by
  obtain ⟨event, rfl, hkept, rfl⟩ | ⟨t, rfl, rfl⟩ | ⟨last, rfl, -, -, rfl⟩ :=
    sweepStart_cases hstart
  · have hnoted : Accounted host past (e.note event) := h.of_same rfl rfl rfl rfl
    rw [accepted, hkept, if_neg Bool.false_ne_true]
    exact hnoted.acceptEvent event
  · rw [accepted, List.append_nil]
    exact h.of_same rfl rfl rfl rfl
  · rw [accepted, List.append_nil]
    exact h.of_same rfl rfl rfl rfl

/-- An engine in which a match is resumed is accounted for, and the match was
suspended and has expired. -/
theorem Accounted.resumesIn (h : Accounted host past e) (hresumes : ResumesIn host e c m e') :
    Accounted host (past ++ accepted host e c) e' ∧ Expired e' m := by
  obtain ⟨start, taken, rest, hstart, hexpired, rfl⟩ := hresumes
  have hstarted := h.sweepStart hstart
  have hall : ∀ m' ∈ taken ++ m :: rest, Expired (Adgl.popExpired start start.store.watermark) m' :=
    fun m' hm' => hstarted.expired (hexpired ▸ hm')
  have hframe :=
    foldl_resumeMatch_frame host taken (Adgl.popExpired start start.store.watermark)
  refine ⟨(hstarted.popExpired _).foldl_resumeMatch fun m' hm' =>
    hall m' (List.mem_append_left _ hm'), ?_⟩
  have hm := hall m (List.mem_append_right _ (List.mem_cons_self ..))
  unfold Expired at hm ⊢
  rwa [hframe.suspensions, hframe.watermark]

/-! ### The resumed rule -/

/-- That the rule is the one that its identifier finds in the image. -/
def ProgramImage.Finds (image : ProgramImage) (rule : RuleInstance) : Prop :=
  image.rules.find? (·.id == rule.id) = some rule

instance (image : ProgramImage) : DecidablePred image.Finds := fun rule =>
  inferInstanceAs (Decidable (image.rules.find? (·.id == rule.id) = some rule))

/-- No other rule shares the identifier of a rule that can be suspended. -/
def ProgramImage.FindsMatched (image : ProgramImage) : Prop :=
  ∀ rule ∈ image.rules, rule.kind = .evidence → image.Finds rule

instance (image : ProgramImage) : Decidable image.FindsMatched :=
  inferInstanceAs (Decidable (∀ rule ∈ image.rules, rule.kind = .evidence → image.Finds rule))

/-- Where evidence rules are found by their identifiers, every match that is
resumed was suspended, and the rule that is looked up for it is each rule that
suspended it. -/
theorem resumed_rule_suspended (hfinds : host.image.FindsMatched) (calls : List Call) {c : Call}
    {m : PendingMatch} {e : Engine} (hresumes : ResumesIn host (runCalls host calls) c m e) :
    (∃ s ∈ e.trace.suspensions, s.pending = m) ∧
    ∀ s ∈ e.trace.suspensions, s.pending = m →
      host.image.rules.find? (·.id == m.rule) = some s.rule := by
  obtain ⟨haccounted, hsuspended, -⟩ := (runCalls_accounted calls).resumesIn hresumes
  refine ⟨hsuspended, fun s hs hm => ?_⟩
  have hfits := haccounted.suspensions s hs
  obtain ⟨hmem, hkind, -⟩ := ProgramImage.mem_rulesFor hfits.rule
  have hid : m.rule = s.rule.id := by rw [← hm, hfits.pending]
  rw [hid]
  exact hfinds s.rule hmem hkind

/-- A rule on bursts, with a message about the path in a window forward. -/
def waitingRule (name cause : String) (forward : Int64) : RuleDecl :=
  .evidence {
    name := name
    scope := .session
    anchor := ⟨"rtx", ["tcp", "retransmission_burst"], none⟩
    correlates := [{
      binding := "ptb"
      source := .event ["icmp", "ptb"]
      topo := ⟨"same_session", [.field (.ident "rtx") "target", .field (.ident "ptb") "target"]⟩
      time := ⟨.field (.ident "ptb") "time", .field (.ident "rtx") "time",
        .binary .add (.field (.ident "rtx") "time") (.duration forward)⟩
      minMatch := none }]
    ifElse := none
    body := [.infer ⟨cause, [.target (.field (.ident "rtx") "target"), .weight 40]⟩] }

/-- An engine for a ruleset over the seed catalog, offline with the default limits. -/
def seedHost (ruleset : Ruleset) : Host where
  catalog := .seed
  image := (lowerToImage .seed ruleset).1
  topo := silentTopology
  mode := .offline
  limits := .default
  problemCooldown := Limits.default.dedupWindow

/-- One rule that waits for half a second. -/
def waitingRules : Ruleset := ⟨"waiting", [], [waitingRule "ptb" "PmtudBlackhole" 500]⟩

/-- Two such rules under one name. -/
def sameNameRules : Ruleset :=
  ⟨"same", [], [waitingRule "ptb" "PmtudBlackhole" 500, waitingRule "ptb" "Congestion" 500]⟩

/-- The match that waits for the window of the burst to close. -/
def waitingPtb : PendingMatch := ⟨"ptb", 1, ⟨1500⟩, ⟨.session, 7⟩⟩

/-- The engine in which the waiting match is resumed. -/
def resumingEngine (ruleset : Ruleset) : Engine :=
  popExpired { runCalls (seedHost ruleset) [.ingest (burst 1400)] with
    store := (runCalls (seedHost ruleset) [.ingest (burst 1400)]).store.advanceWatermark ⟨5000⟩ }
    ⟨5000⟩

theorem resumed_rule_suspended_waiting :
    (seedHost waitingRules).image.rules.find? (·.id == waitingPtb.rule) =
      (resumingEngine waitingRules).trace.suspensions.head?.map Suspension.rule := by
  have hresumes : ResumesIn (seedHost waitingRules)
      (runCalls (seedHost waitingRules) [.ingest (burst 1400)]) (.advanceWatermark ⟨5000⟩) waitingPtb
      (resumingEngine waitingRules) := ⟨_, [], [], rfl, by decide, rfl⟩
  obtain ⟨-, hfound⟩ := resumed_rule_suspended (by decide) _ hresumes
  obtain ⟨s, hs⟩ : ∃ s, (resumingEngine waitingRules).trace.suspensions = [s] := ⟨_, rfl⟩
  have hpending : (resumingEngine waitingRules).trace.suspensions.map Suspension.pending =
      [waitingPtb] := by decide
  rw [hs] at hpending ⊢
  exact hfound s (hs ▸ List.mem_singleton_self s) (List.singleton_inj.mp hpending)

/-- Of two rules under one name, the first is resumed for the match that the second
suspended. -/
theorem sameName_resumes_other :
    (verifyWithConfig .seed .default sameNameRules).isOk = true ∧
    ResumesIn (seedHost sameNameRules)
      (runCalls (seedHost sameNameRules) [.ingest (burst 1400)]) (.advanceWatermark ⟨5000⟩) waitingPtb
      (resumingEngine sameNameRules) ∧
    ∃ s ∈ (resumingEngine sameNameRules).trace.suspensions, s.pending = waitingPtb ∧
      (seedHost sameNameRules).image.rules.find? (·.id == waitingPtb.rule) ≠ some s.rule :=
  ⟨by decide, ⟨_, [], [waitingPtb], rfl, by decide, rfl⟩, by decide⟩

end Adgl
