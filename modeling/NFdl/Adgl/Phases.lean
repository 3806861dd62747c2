import NFdl.Adgl.Reports
import Mathlib.Data.List.Induction

/-!
# The phases of a call

A call is a sequence of phases: bookkeeping, an accepted event that is pushed, an
advance of the watermark, expired matches that are taken out, rules that are run,
garbage collection and a suspension. What every phase preserves holds along every
run.
-/

namespace Adgl

/-- What is known of the events that a run accepts: when one is pushed, at the
watermark before it, and when its rules are matched, at the watermark after it. -/
structure Guard where
  pushed : EventTime → EventNode → Prop
  matched : EventTime → EventNode → Prop

/-- Nothing is known. -/
def Guard.open : Guard := ⟨fun _ _ => True, fun _ _ => True⟩

/-- That a call accepts only events as the guard says. -/
def Guard.Admits (guard : Guard) (host : Host) (e : Engine) (c : Call) : Prop :=
  ∀ event ∈ accepted host e c, guard.pushed e.store.watermark event ∧
    guard.matched (call host e c).store.watermark event

variable {host : Host} {past : List EventNode} {guard : Guard} {e e' e'' : Engine}

/-- A change of what no rule reads: diagnostics, counters and live watermarks. -/
structure Bookkeeping (e e' : Engine) : Prop where
  interner : e'.interner = e.interner
  store : e'.store = e.store
  trace : e'.trace = e.trace
  resolvedAbsent : e'.resolvedAbsent = e.resolvedAbsent
  nextNodeId : e'.nextNodeId = e.nextNodeId
  touched : e'.touched = e.touched

/-- One phase of a call. A rule is run on an event that is in the ring of its scope, or
on the one that is being matched. -/
inductive Phase (host : Host) (past : List EventNode) (guard : Guard) : Engine → Engine → Prop
  | book {e e' : Engine} (h : Bookkeeping e e') : Phase host past guard e e'
  | push {e : Engine} {event : EventNode} (hevent : event ∈ past)
      (h : guard.pushed e.store.watermark event) :
      Phase host past guard e { e with store := e.store.pushEvent host.limits event }
  | advance (e : Engine) (t : EventTime) :
      Phase host past guard e { e with store := e.store.advanceWatermark t }
  | pop (e : Engine) : Phase host past guard e (popExpired e e.store.watermark)
  | gc (e : Engine) : Phase host past guard e (gcSweep host e.store.watermark e)
  | suspend {e : Engine} {rule : RuleInstance} {event : EventNode} (hevent : event ∈ past)
      (hrule : rule ∈ host.image.rulesFor (.event event.eventType) event.scope.scopeType .evidence)
      (hopen : e.store.watermark < event.time.add rule.maxForward) :
      Phase host past guard e (suspendMatch host rule event e)
  | run {rule : RuleInstance} {event : EventNode} {scope : ScopeId} (run : Run)
      (h : Started host past run.engine.trace.suspensions run.engine.store.watermark rule
        (.event event) scope)
      (hanchor : event ∈ run.engine.store.events scope ∨
        guard.matched run.engine.store.watermark event) :
      Phase host past guard run.engine (runWithin host rule (.event event) scope run).engine

abbrev Phases (host : Host) (past : List EventNode) (guard : Guard) :=
  Relation.ReflTransGen (Phase host past guard)

namespace Phases

theorem book (h : Bookkeeping e e') : Phases host past guard e e' := .single (.book h)

theorem report (e : Engine) (diags : List EngineDiagnostic) :
    Phases host past guard e (e.report diags) :=
  .book ⟨rfl, rfl, rfl, rfl, rfl, rfl⟩

/-- What every phase preserves is preserved. -/
theorem invariant {P : Engine → Prop}
    (hstep : ∀ e e', P e → Phase host past guard e e' → P e')
    (h : Phases host past guard e e') (he : P e) : P e' := by
  induction h with
  | refl => exact he
  | tail _ hphase ih => exact hstep _ _ ih hphase

end Phases

theorem resumeMatch_phases (h : Accounted host past e) {m : PendingMatch} (hm : Expired e m) :
    Phases host past guard e (resumeMatch host e m) := by
  obtain heq | heq | ⟨ring, event, rule, hring, hget, hrule, heq⟩ := resumeMatch_cases host e m
  · rw [heq]
    exact Phases.report e _
  · rw [heq]
    exact Phases.report e _
  · rw [heq]
    have hstarted := h.resumed hm hring hget hrule
    have hcounted : Bookkeeping e { e with resumed := e.resumed + 1 } :=
      ⟨rfl, rfl, rfl, rfl, rfl, rfl⟩
    have hmem : event ∈ e.store.events m.scope := by
      unfold GraphStore.events
      rw [hring]
      exact (RingBuffer.mem_of_get hget).1
    exact .trans (Phases.book hcounted)
      (.single (.run ⟨{ e with resumed := e.resumed + 1 }, _⟩ hstarted (.inl hmem)))

theorem foldl_resumeMatch_phases {ms : List PendingMatch} (h : Accounted host past e)
    (hms : ∀ m ∈ ms, Expired e m) :
    Phases host past guard e (ms.foldl (resumeMatch host) e) := by
  induction ms generalizing e with
  | nil => exact .refl
  | cons m rest ih =>
      have hm := hms m (List.mem_cons_self ..)
      have hframe := resumeMatch_frame host e m
      refine (resumeMatch_phases h hm).trans (ih (h.resumeMatch hm) fun m' hm' => ?_)
      have hold := hms m' (List.mem_cons_of_mem _ hm')
      unfold Expired at hold ⊢
      rwa [hframe.suspensions, hframe.watermark]

theorem sweep_phases (h : Accounted host past e) :
    Phases host past guard e (sweep host e) := by
  have hresumed : Phases host past guard (popExpired e e.store.watermark)
      (resumeExpired host e.store.watermark e) :=
    foldl_resumeMatch_phases (h.popExpired e.store.watermark) fun _ hm => h.expired hm
  have hframe := foldl_resumeMatch_frame host (e.store.expired e.store.watermark)
    (popExpired e e.store.watermark)
  have hgc : Phase host past guard (resumeExpired host e.store.watermark e) (sweep host e) := by
    have hwatermark : (resumeExpired host e.store.watermark e).store.watermark =
        e.store.watermark := hframe.watermark
    have hphase : Phase host past guard (resumeExpired host e.store.watermark e)
        (gcSweep host (resumeExpired host e.store.watermark e).store.watermark
          (resumeExpired host e.store.watermark e)) := .gc _
    rwa [hwatermark] at hphase
  exact .head (.pop e) (hresumed.tail hgc)

theorem matchAnchor_phases {run : Run} {event : EventNode} (hevent : event ∈ past)
    (hmatched : guard.matched run.engine.store.watermark event) {rule : RuleInstance}
    (hrule : rule ∈ host.image.rulesFor (.event event.eventType) event.scope.scopeType .evidence) :
    Phases host past guard run.engine
      (matchAnchor host event run.engine.store.watermark run rule).engine := by
  unfold matchAnchor
  simp only
  generalize evalPred host _ _ _ _ _ = result
  have hreported : Phases host past guard run.engine (run.report result.2).engine :=
    Phases.report run.engine _
  split
  · split
    · rename_i hopen
      exact hreported.tail (.suspend hevent hrule hopen)
    · rename_i hclosed
      exact hreported.tail
        (.run (run.report result.2) (.matched hevent hrule (not_lt.mp hclosed)) (.inr hmatched))
  · exact hreported

theorem matchAnchors_watermark (event : EventNode) (wm : EventTime) (e : Engine) :
    (matchAnchors host event wm e).store.watermark = e.store.watermark := by
  have hfold : ∀ (rules : List RuleInstance) (run : Run),
      (rules.foldl (matchAnchor host event wm) run).engine.store.watermark =
        run.engine.store.watermark := by
    intro rules
    induction rules with
    | nil => exact fun run => rfl
    | cons rule rest ih => exact fun run => (ih _).trans (matchAnchor_watermark event wm run rule)
  exact hfold _ _

theorem matchAnchors_phases {event : EventNode} (hevent : event ∈ past)
    (hmatched : guard.matched e.store.watermark event) :
    Phases host past guard e (matchAnchors host event e.store.watermark e) := by
  have hfold : ∀ rules ⊆ host.image.rulesFor (.event event.eventType) event.scope.scopeType .evidence,
      ∀ run : Run, run.engine.store.watermark = e.store.watermark →
        Phases host past guard run.engine
          (rules.foldl (matchAnchor host event e.store.watermark) run).engine := by
    intro rules
    induction rules with
    | nil => exact fun _ _ _ => .refl
    | cons rule rest ih =>
        intro hsub run hwm
        have hmatch : Phases host past guard run.engine
            (matchAnchor host event run.engine.store.watermark run rule).engine :=
          matchAnchor_phases hevent (hwm ▸ hmatched) (hsub (List.mem_cons_self ..))
        rw [hwm] at hmatch
        exact hmatch.trans (ih (fun r hr => hsub (List.mem_cons_of_mem _ hr)) _
          (by rw [matchAnchor_watermark, hwm]))
  exact hfold _ (List.Subset.refl _) ⟨e, host.limits.maxRuleFiringsPerEvent⟩ rfl

/-- An event is pushed at the watermark before it, and the watermark advances. -/
theorem acceptEvent_phases {event : EventNode} (hevent : event ∈ past)
    (h : guard.pushed e.store.watermark event) :
    Phases host past guard e (acceptEvent host event e) := by
  unfold acceptEvent
  cases hmode : host.mode with
  | offline =>
      simp only
      have hpush : ∀ e₁ : Engine, Bookkeeping e e₁ → Phases host past guard e
          (pushEvent host event { e₁ with store := e₁.store.advanceWatermark event.time }) := by
        intro e₁ hbook
        have hpushed : Phase host past guard e₁
            { e₁ with store := e₁.store.pushEvent host.limits event } :=
          .push hevent (by rw [hbook.store]; exact h)
        exact .trans (Phases.book hbook)
          (.head hpushed (.head (.advance _ event.time) (Phases.report _ _)))
      split
      · rw [audit_eq]
        exact hpush _ ⟨rfl, rfl, rfl, rfl, rfl, rfl⟩
      · exact hpush _ ⟨rfl, rfl, rfl, rfl, rfl, rfl⟩
  | live =>
      simp only
      have hpushed : Phase host past guard e
          { e with store := e.store.pushEvent host.limits event } := .push hevent h
      obtain ⟨t, ht⟩ : ∃ t, (advanceLiveWatermark host event.scope event.time e).store =
          e.store.advanceWatermark t := ⟨_, rfl⟩
      have hstore := congrArg (GraphStore.pushEvent host.limits · event) ht
      exact .head hpushed (.head (.advance _ t)
        (Phases.book ⟨rfl, hstore, rfl, rfl, rfl, rfl⟩))

/-- The engine when a call has noted the scope of its event. -/
def Engine.noted (e : Engine) : Call → Engine
  | .ingest event => e.note event
  | .internScope scope => e.internScope scope
  | .advanceWatermark _ | .advanceWallClock _ | .finish => e

/-- When the scope is noted, a call is a sequence of phases. -/
theorem call_phases (h : Accounted host past e) {c : Call} (hguard : guard.Admits host e c) :
    Phases host (past ++ accepted host e c) guard (e.noted c) (call host e c) := by
  cases c with
  | ingest event =>
      change Phases host _ guard (e.note event) (ingest host event e)
      rcases hdropped : (e.note event).isDropped host event with _ | _
      · have hone : accepted host e (.ingest event) = [event] :=
          if_neg (by rw [hdropped]; exact Bool.false_ne_true)
        have hcall : ingest host event e =
            let swept := sweep host (acceptEvent host event (e.note event))
            matchAnchors host event swept.store.watermark swept := by
          unfold ingest
          simp only [hdropped, Bool.false_eq_true, if_false, sweep_watermark]
        obtain ⟨hpushed, hmatched⟩ := hguard event (by rw [hone]; exact List.mem_singleton_self _)
        change guard.matched (ingest host event e).store.watermark event at hmatched
        rw [hone]
        rw [hcall] at hmatched ⊢
        have hmem : event ∈ past ++ [event] := List.mem_append_right _ (List.mem_singleton_self _)
        have haccepted : Accounted host (past ++ [event]) (acceptEvent host event (e.note event)) :=
          (h.of_same rfl rfl rfl rfl : Accounted host past (e.note event)).acceptEvent event
        rw [matchAnchors_watermark] at hmatched
        have hpush : Phases host (past ++ [event]) guard (e.note event)
            (acceptEvent host event (e.note event)) := acceptEvent_phases hmem hpushed
        exact hpush.trans ((sweep_phases haccepted).trans (matchAnchors_phases hmem hmatched))
      · unfold ingest
        simp only [hdropped, if_true]
        exact Phases.book ⟨rfl, rfl, rfl, rfl, rfl, rfl⟩
  | advanceWatermark t =>
      rw [accepted, List.append_nil]
      have hadvanced : Accounted host past { e with store := e.store.advanceWatermark t } :=
        h.of_same rfl rfl rfl rfl
      exact .head (.advance e t) (sweep_phases hadvanced)
  | advanceWallClock t =>
      change Phases host _ guard e (advanceWallClock host t e)
      unfold advanceWallClock
      split
      · exact Phases.book ⟨rfl, rfl, rfl, rfl, rfl, rfl⟩
      · exact .refl
  | internScope scope => exact .refl
  | finish =>
      rw [accepted, List.append_nil]
      change Phases host past guard e (finish host e)
      unfold finish
      split
      · exact .refl
      · simp only
        split
        · exact Phases.book ⟨rfl, rfl, rfl, rfl, rfl, rfl⟩
        · rename_i last _
          have hfinished : Bookkeeping e { e with finished := true } :=
            ⟨rfl, rfl, rfl, rfl, rfl, rfl⟩
          have hadvanced : Accounted host past { e with
              finished := true
              store := e.store.advanceWatermark
                ((last.add host.imageMaxForward).add (.ofMillis 1)) } := h.of_same rfl rfl rfl rfl
          exact .trans (Phases.book hfinished) (.head (.advance _ _) (sweep_phases hadvanced))

theorem runCalls_append (calls : List Call) (c : Call) :
    runCalls host (calls ++ [c]) = call host (runCalls host calls) c := by
  unfold runCalls
  rw [List.foldl_append]
  rfl

theorem history_append (calls : List Call) (c : Call) :
    history host (calls ++ [c]) = history host calls ++ accepted host (runCalls host calls) c := by
  unfold history
  rw [Inputs.outputs_append]
  change _ ++ (accepted host _ c ++ []) = _
  rw [List.append_nil]
  rfl

/-- What noting a scope and every phase preserve holds along every run whose events are
as the guard says. -/
theorem runCalls_invariant (guard : Guard) {P : List EventNode → Engine → Prop} (hnew : P [] .new)
    (hnoted : ∀ past e c, P past e → P (past ++ accepted host e c) (e.noted c))
    (hstep : ∀ past e e', P past e → Phase host past guard e e' → P past e') {calls : List Call}
    (hguard : Inputs.Along (call host) (guard.Admits host) .new calls) :
    P (history host calls) (runCalls host calls) := by
  induction calls using List.reverseRecOn with
  | nil => exact hnew
  | append_singleton calls c ih =>
      obtain ⟨hbefore, hc, -⟩ := Inputs.along_append.mp hguard
      rw [runCalls_append, history_append]
      exact (call_phases (runCalls_accounted calls) hc).invariant (hstep _)
        (hnoted _ _ c (ih hbefore))

/-- Every run is as the open guard says. -/
theorem along_open (calls : List Call) :
    Inputs.Along (call host) (Guard.open.Admits host) .new calls :=
  Inputs.Along.mono (fun _ _ _ _ _ => ⟨trivial, trivial⟩) Inputs.along_true

end Adgl
