import NFdl.Adgl.Effects
import NFdl.Lib.Inputs

/-!
# The pipeline over runs

Along a run of calls everything in the engine can be accounted for by the events
that were accepted: what the rings hold, which matches wait, and which rules were
run on which anchors. The account is kept phase by phase, from one call to the
next.
-/

namespace Adgl

variable (host : Host)

/-- The events that a call accepts. -/
def accepted (e : Engine) : Call → List EventNode
  | .ingest event => if (e.note event).isDropped host event then [] else [event]
  | .advanceWatermark _ | .advanceWallClock _ | .internScope _ | .finish => []

/-- The events accepted along a run. -/
def history (calls : List Call) : List EventNode :=
  Inputs.outputs (call host) (accepted host) .new calls

/-- That a suspension is of a rule matched by its anchor. -/
structure Suspension.Fits (past : List EventNode) (s : Suspension) : Prop where
  rule : s.rule ∈ host.image.rulesFor (.event s.anchor.eventType) s.anchor.scope.scopeType .evidence
  anchor : s.anchor ∈ past
  pending : s.pending =
    ⟨s.rule.id, s.anchor.id, s.anchor.time.add s.rule.maxForward, s.anchor.scope⟩

/-- How the engine itself starts a rule on an event: at once, when the forward
window is closed, or on the resumption of a suspended match. -/
inductive Started (past : List EventNode) (suspensions : List Suspension) (wm : EventTime) :
    RuleInstance → Bound → ScopeId → Prop
  | matched {rule : RuleInstance} {event : EventNode} (hevent : event ∈ past)
      (hrule : rule ∈ host.image.rulesFor (.event event.eventType) event.scope.scopeType .evidence)
      (hclosed : event.time.add rule.maxForward ≤ wm) :
      Started past suspensions wm rule (.event event) event.scope
  | resumed {rule : RuleInstance} {event : EventNode} {s : Suspension} (hevent : event ∈ past)
      (hs : s ∈ suspensions) (hid : event.id = s.anchor.id) (hscope : event.scope = s.anchor.scope)
      (hrule : host.image.rules.find? (·.id == s.rule.id) = some rule)
      (hclosed : s.pending.upperBound < wm) :
      Started past suspensions wm rule (.event event) event.scope

/-- The firings that a run can log. -/
def Fires (past : List EventNode) (suspensions : List Suspension) (wm : EventTime)
    (rule : RuleInstance) (anchor : Bound) (scope : ScopeId) : Prop :=
  Cascades host rule anchor scope ∨ Started host past suspensions wm rule anchor scope

/-- The account of an engine: all it holds comes from the accepted events. -/
structure Accounted (past : List EventNode) (e : Engine) : Prop where
  rings : ∀ scope ring, e.store.rings.lookup scope = some ring →
    ∀ event ∈ ring.buf, event ∈ past ∧ event.scope = scope
  queues : ∀ scope q, e.store.pending.lookup scope = some q →
    ∀ m ∈ q.entries, m.scope = scope ∧ ∃ s ∈ e.trace.suspensions, s.pending = m
  suspensions : ∀ s ∈ e.trace.suspensions, s.Fits host past
  resolutions : ∀ r ∈ e.trace.resolutions,
    Fires host past e.trace.suspensions r.wm r.rule r.anchor r.scope
  absences : e.resolvedAbsent = e.trace.resolutions.flatMap Resolution.absences

variable {host} {past past' : List EventNode} {e e' : Engine}

theorem Suspension.Fits.mono {s : Suspension} (h : s.Fits host past) (hsub : past ⊆ past') :
    s.Fits host past' :=
  ⟨h.rule, hsub h.anchor, h.pending⟩

theorem Started.mono {suspensions suspensions' : List Suspension} {wm : EventTime}
    {rule : RuleInstance} {anchor : Bound} {scope : ScopeId}
    (h : Started host past suspensions wm rule anchor scope) (hsub : past ⊆ past')
    (hsub' : suspensions ⊆ suspensions') :
    Started host past' suspensions' wm rule anchor scope := by
  cases h with
  | matched hevent hrule hclosed => exact .matched (hsub hevent) hrule hclosed
  | resumed hevent hs hid hscope hrule hclosed =>
      exact .resumed (hsub hevent) (hsub' hs) hid hscope hrule hclosed

theorem Fires.mono {suspensions suspensions' : List Suspension} {wm : EventTime}
    {rule : RuleInstance} {anchor : Bound} {scope : ScopeId}
    (h : Fires host past suspensions wm rule anchor scope) (hsub : past ⊆ past')
    (hsub' : suspensions ⊆ suspensions') : Fires host past' suspensions' wm rule anchor scope :=
  h.imp id fun hstarted => hstarted.mono hsub hsub'

namespace Accounted

theorem new : Accounted host [] .new :=
  ⟨by simp [Engine.new, GraphStore.new], by simp [Engine.new, GraphStore.new],
    by simp [Engine.new], by simp [Engine.new], rfl⟩

theorem mono (h : Accounted host past e) (hsub : past ⊆ past') :
    Accounted host past' e :=
  ⟨fun scope ring hring event hevent =>
      (h.rings scope ring hring event hevent).imp (hsub ·) id,
    h.queues, fun s hs => (h.suspensions s hs).mono hsub,
    fun r hr => (h.resolutions r hr).mono hsub (List.Subset.refl _), h.absences⟩

/-- A change that keeps the rings, the queues and the trace. -/
theorem of_same (h : Accounted host past e) (hrings : e'.store.rings = e.store.rings)
    (hpending : e'.store.pending = e.store.pending) (htrace : e'.trace = e.trace)
    (habsent : e'.resolvedAbsent = e.resolvedAbsent) : Accounted host past e' := by
  refine ⟨?_, ?_, ?_, ?_, ?_⟩
  · rw [hrings]
    exact h.rings
  · rw [hpending, htrace]
    exact h.queues
  · rw [htrace]
    exact h.suspensions
  · rw [htrace]
    exact h.resolutions
  · rw [habsent, htrace]
    exact h.absences

/-- Running rules that may fire keeps the account. -/
theorem goes (h : Accounted host past e)
    (hgoes : Goes (Fires host past e.trace.suspensions e.store.watermark) e e') :
    Accounted host past e' := by
  have hsusp : e'.trace.suspensions = e.trace.suspensions :=
    congrArg Outside.suspensions hgoes.outside
  obtain ⟨rs, hrs, habsent, hfires⟩ := hgoes.resolutions
  refine ⟨?_, ?_, ?_, ?_, ?_⟩
  · rw [hgoes.rings]
    exact h.rings
  · rw [hgoes.pending, hsusp]
    exact h.queues
  · rw [hsusp]
    exact h.suspensions
  · rw [hrs, hsusp]
    intro r hr
    obtain hr | hr := List.mem_append.mp hr
    · exact h.resolutions r hr
    · obtain ⟨hr, hwm⟩ := hfires r hr
      rwa [hwm]
  · rw [habsent, hrs, List.flatMap_append, h.absences]

end Accounted

/-! ### The sweep -/

/-- Running a rule that may fire goes on as the account allows. -/
theorem runWithin_goes {rule : RuleInstance} {anchor : Bound} {scope : ScopeId}
    {suspensions : List Suspension} {wm : EventTime}
    (h : Fires host past suspensions wm rule anchor scope) (run : Run) :
    Goes (Fires host past suspensions wm) run.engine
      (runWithin host rule anchor scope run).engine :=
  (runRule_effects (fun _ _ _ => .inl) run.budget h run).goes

/-- Whatever rule is run, the engine goes on. -/
theorem runWithin_goes_any (host : Host) (rule : RuleInstance) (anchor : Bound) (scope : ScopeId) (run : Run) :
    Goes (fun _ _ _ => True) run.engine (runWithin host rule anchor scope run).engine :=
  (runRule_effects (fun _ _ _ _ => trivial) run.budget trivial run).goes

/-- What resuming a match leaves as it is. -/
structure ResumeFrame (e e' : Engine) : Prop where
  rings : e'.store.rings = e.store.rings
  pending : e'.store.pending = e.store.pending
  watermark : e'.store.watermark = e.store.watermark
  suspensions : e'.trace.suspensions = e.trace.suspensions
  diagnostics : ∃ ds, e'.diagnostics = e.diagnostics ++ ds ∧
    ∀ d ∈ ds, d.isRule = true ∨ (∃ r, d = .missingAnchor r) ∨ ∃ r, d = .ruleNotInImage r

namespace ResumeFrame

theorem refl (e : Engine) : ResumeFrame e e := ⟨rfl, rfl, rfl, rfl, ⟨[], by simp, by simp⟩⟩

theorem trans {e'' : Engine} (h : ResumeFrame e e') (h' : ResumeFrame e' e'') : ResumeFrame e e'' := by
  obtain ⟨ds, hds, hall⟩ := h.diagnostics
  obtain ⟨ds', hds', hall'⟩ := h'.diagnostics
  refine ⟨h'.rings.trans h.rings, h'.pending.trans h.pending, h'.watermark.trans h.watermark,
    h'.suspensions.trans h.suspensions, ⟨ds ++ ds', ?_, ?_⟩⟩
  · rw [hds', hds, List.append_assoc]
  · exact fun d hd => (List.mem_append.mp hd).elim (hall d) (hall' d)

end ResumeFrame

theorem Goes.resumeFrame {fires : RuleInstance → Bound → ScopeId → Prop} (h : Goes fires e e') :
    ResumeFrame e e' := by
  obtain ⟨ds, hds, hall⟩ := h.diagnostics
  exact ⟨h.rings, h.pending, h.watermark, congrArg Outside.suspensions h.outside,
    ⟨ds, hds, fun d hd => .inl (hall d hd)⟩⟩

/-- The three ways of a resumption. -/
theorem resumeMatch_cases (host : Host) (e : Engine) (m : PendingMatch) :
    resumeMatch host e m = e.report [.missingAnchor m.rule] ∨
    resumeMatch host e m = e.report [.ruleNotInImage m.rule] ∨
    ∃ ring event rule, e.store.rings.lookup m.scope = some ring ∧
      ring.get m.anchorEvent = some event ∧ host.image.rules.find? (·.id == m.rule) = some rule ∧
      resumeMatch host e m = (runWithin host rule (.event event) m.scope
        ⟨{ e with resumed := e.resumed + 1 }, host.limits.maxRuleFiringsPerEvent⟩).engine := by
  unfold resumeMatch
  split
  · exact .inl rfl
  · rename_i event hevent
    obtain ⟨ring, hring, hget⟩ := Option.bind_eq_some_iff.mp hevent
    split
    · exact .inr (.inl rfl)
    · rename_i rule hrule
      exact .inr (.inr ⟨ring, event, rule, hring, hget, hrule, rfl⟩)

theorem resumeMatch_frame (host : Host) (e : Engine) (m : PendingMatch) : ResumeFrame e (resumeMatch host e m) := by
  obtain h | h | ⟨ring, event, rule, -, -, -, h⟩ := resumeMatch_cases host e m
  · rw [h]
    exact ⟨rfl, rfl, rfl, rfl, ⟨_, rfl, by simp⟩⟩
  · rw [h]
    exact ⟨rfl, rfl, rfl, rfl, ⟨_, rfl, by simp⟩⟩
  · rw [h]
    have hcount : ResumeFrame e { e with resumed := e.resumed + 1 } :=
      ⟨rfl, rfl, rfl, rfl, ⟨[], by simp, by simp⟩⟩
    have hgoes := runWithin_goes_any host rule (.event event) m.scope
      ⟨{ e with resumed := e.resumed + 1 }, host.limits.maxRuleFiringsPerEvent⟩
    exact hcount.trans hgoes.resumeFrame

/-- The state after some of the expired matches were resumed. -/
theorem foldl_resumeMatch_frame (host : Host) (ms : List PendingMatch) (e : Engine) :
    ResumeFrame e (ms.foldl (resumeMatch host) e) := by
  induction ms generalizing e with
  | nil => exact .refl e
  | cons m rest ih => exact (resumeMatch_frame host e m).trans (ih _)

theorem sweep_watermark (e : Engine) : (sweep host e).store.watermark = e.store.watermark :=
  (foldl_resumeMatch_frame host _ (popExpired e e.store.watermark)).watermark

/-- That a match was suspended and has expired. -/
def Expired (e : Engine) (m : PendingMatch) : Prop :=
  (∃ s ∈ e.trace.suspensions, s.pending = m) ∧ m.upperBound < e.store.watermark

namespace Accounted

/-- A match that is resumed starts the rule that is found on the anchor that is found. -/
theorem resumed (h : Accounted host past e) {m : PendingMatch} (hm : Expired e m)
    {ring : RingBuffer} (hring : e.store.rings.lookup m.scope = some ring) {event : EventNode}
    (hget : ring.get m.anchorEvent = some event) {rule : RuleInstance}
    (hrule : host.image.rules.find? (·.id == m.rule) = some rule) :
    Started host past e.trace.suspensions e.store.watermark rule (.event event) m.scope := by
  obtain ⟨⟨s, hs, rfl⟩, hclosed⟩ := hm
  obtain ⟨hmem, hid⟩ := RingBuffer.mem_of_get hget
  obtain ⟨hevent, hscope⟩ := h.rings _ _ hring event hmem
  have hpending := (h.suspensions s hs).pending
  have hstarted : Started host past e.trace.suspensions e.store.watermark rule (.event event)
      event.scope := by
    refine .resumed hevent hs ?_ ?_ ?_ hclosed
    · rw [hid, hpending]
    · rw [hscope, hpending]
    · rw [hpending] at hrule
      exact hrule
  rwa [hscope] at hstarted

theorem resumeMatch (h : Accounted host past e) {m : PendingMatch} (hm : Expired e m) :
    Accounted host past (resumeMatch host e m) := by
  obtain heq | heq | ⟨ring, event, rule, hring, hget, hrule, heq⟩ := resumeMatch_cases host e m
  · rw [heq]
    exact h.of_same rfl rfl rfl rfl
  · rw [heq]
    exact h.of_same rfl rfl rfl rfl
  · rw [heq]
    have hcounted : Accounted host past { e with resumed := e.resumed + 1 } :=
      h.of_same rfl rfl rfl rfl
    have hgoes := runWithin_goes (.inr (h.resumed hm hring hget hrule))
      ⟨{ e with resumed := e.resumed + 1 }, host.limits.maxRuleFiringsPerEvent⟩
    exact hcounted.goes hgoes

theorem foldl_resumeMatch (h : Accounted host past e) {ms : List PendingMatch}
    (hms : ∀ m ∈ ms, Expired e m) : Accounted host past (ms.foldl (Adgl.resumeMatch host) e) := by
  induction ms generalizing e with
  | nil => exact h
  | cons m rest ih =>
      have hframe := resumeMatch_frame host e m
      refine ih (h.resumeMatch (hms m (List.mem_cons_self ..))) fun m' hm' => ?_
      have hold := hms m' (List.mem_cons_of_mem _ hm')
      unfold Expired at hold ⊢
      rwa [hframe.suspensions, hframe.watermark]

theorem popExpired (h : Accounted host past e) (wm : EventTime) :
    Accounted host past (popExpired e wm) := by
  refine ⟨h.rings, ?_, h.suspensions, h.resolutions, h.absences⟩
  refine Table.forall_mapValues fun scope q hq m hm => ?_
  exact h.queues scope q hq m (WaitQueue.mem_waiting.mp hm).1

/-- What the sweep takes out has been suspended and has expired. -/
theorem expired (h : Accounted host past e) {m : PendingMatch}
    (hm : m ∈ e.store.expired e.store.watermark) : Expired (Adgl.popExpired e e.store.watermark) m := by
  obtain ⟨scope, q, hq, hmem, hclosed⟩ := GraphStore.mem_expired hm
  exact ⟨(h.queues scope q hq m hmem).2, hclosed⟩

theorem gcSweep (h : Accounted host past e) (wm : EventTime) :
    Accounted host past (gcSweep host wm e) := by
  refine ⟨?_, h.queues, h.suspensions, h.resolutions, h.absences⟩
  refine Table.forall_mapValues fun scope ring hring event hevent => ?_
  exact h.rings scope ring hring event (RingBuffer.mem_gc.mp hevent).1

theorem sweep (h : Accounted host past e) : Accounted host past (sweep host e) :=
  ((h.popExpired _).foldl_resumeMatch fun _ hm => h.expired hm).gcSweep _

end Accounted

/-! ### Events -/

namespace Accounted

/-- Accepting an event accounts for it. -/
theorem pushEvent (h : Accounted host past e) (event : EventNode) :
    Accounted host (past ++ [event]) (pushEvent host event e) := by
  have hmono := h.mono (List.subset_append_left past [event])
  refine ⟨?_, hmono.queues, hmono.suspensions, hmono.resolutions, hmono.absences⟩
  refine Table.forall_update hmono.rings fun event' hevent' => ?_
  obtain rfl | hold := RingBuffer.mem_push hevent'
  · exact ⟨by simp, rfl⟩
  · cases hring : e.store.rings.lookup event.scope with
    | none =>
        rw [hring] at hold
        exact absurd hold List.not_mem_nil
    | some ring =>
        rw [hring] at hold
        exact hmono.rings _ _ hring event' hold

theorem acceptEvent (h : Accounted host past e) (event : EventNode) :
    Accounted host (past ++ [event]) (acceptEvent host event e) := by
  unfold Adgl.acceptEvent
  split
  · simp only
    refine (Accounted.pushEvent ?_ event)
    split
    · refine h.of_same ?_ ?_ ?_ ?_
      all_goals
        unfold auditOfflineLateEvidence
        split <;> rfl
    · exact h.of_same rfl rfl rfl rfl
  · have hadvanced : Accounted host past (advanceLiveWatermark host event.scope event.time e) :=
      h.of_same rfl rfl rfl rfl
    exact hadvanced.pushEvent event

theorem suspendMatch (h : Accounted host past e) {rule : RuleInstance} {event : EventNode}
    (hrule : rule ∈ host.image.rulesFor (.event event.eventType) event.scope.scopeType .evidence)
    (hevent : event ∈ past) : Accounted host past (suspendMatch host rule event e) := by
  let pending : PendingMatch :=
    ⟨rule.id, event.id, event.time.add rule.maxForward, event.scope⟩
  let recorded : Engine := e.recordSuspension ⟨rule, event, pending⟩
  have hsub : e.trace.suspensions ⊆ recorded.trace.suspensions := List.subset_append_left _ _
  have hnew : (⟨rule, event, pending⟩ : Suspension) ∈ recorded.trace.suspensions := by
    change _ ∈ e.trace.suspensions ++ [_]
    simp
  have hqueues : ∀ scope q, AList.lookup scope (e.store.suspend host.limits pending).1.pending =
      some q → ∀ m ∈ q.entries, m.scope = scope ∧ ∃ s ∈ recorded.trace.suspensions,
        s.pending = m := by
    have hold : ∀ scope q, e.store.pending.lookup scope = some q → ∀ m ∈ q.entries,
        m.scope = scope ∧ ∃ s ∈ recorded.trace.suspensions, s.pending = m :=
      fun scope q hq m hm => (h.queues scope q hq m hm).imp id
        fun ⟨s, hs, heq⟩ => ⟨s, hsub hs, heq⟩
    intro scope q hq m hm
    change AList.lookup scope (AList.insert event.scope
      ((e.store.queueOf host.limits event.scope).push pending).1 e.store.pending) = some q at hq
    by_cases hscope : scope = event.scope
    · subst hscope
      rw [AList.lookup_insert] at hq
      obtain rfl := Option.some.inj hq
      obtain rfl | hm := WaitQueue.mem_push hm
      · exact ⟨rfl, _, hnew, rfl⟩
      · unfold GraphStore.queueOf at hm
        cases hlookup : e.store.pending.lookup event.scope with
        | none =>
            rw [hlookup] at hm
            exact absurd hm List.not_mem_nil
        | some q' =>
            rw [hlookup] at hm
            exact hold _ q' hlookup m hm
    · rw [AList.lookup_insert_ne hscope] at hq
      exact hold scope q hq m hm
  have hsuspended : Accounted host past
      { recorded with
        suspended := e.suspended + 1
        store := (e.store.suspend host.limits pending).1 } := by
    refine ⟨h.rings, hqueues, ?_, ?_, h.absences⟩
    · intro s hs
      obtain hs | hs := List.mem_append.mp hs
      · exact h.suspensions s hs
      · obtain rfl := List.mem_singleton.mp hs
        exact ⟨hrule, hevent, rfl⟩
    · exact fun r hr => (h.resolutions r hr).mono (List.Subset.refl _) hsub
  unfold Adgl.suspendMatch
  simp only
  split
  · exact hsuspended.of_same rfl rfl rfl rfl
  · exact hsuspended

/-- Matching one rule keeps the account, and the watermark. -/
theorem matchAnchor {run : Run} (h : Accounted host past run.engine) {event : EventNode}
    (hevent : event ∈ past) {rule : RuleInstance}
    (hrule : rule ∈ host.image.rulesFor (.event event.eventType) event.scope.scopeType .evidence) :
    Accounted host past (matchAnchor host event run.engine.store.watermark run rule).engine := by
  unfold Adgl.matchAnchor
  simp only
  generalize evalPred host _ _ _ _ _ = matched
  have hreported : Accounted host past (run.report matched.2).engine :=
    h.of_same rfl rfl rfl rfl
  split
  · split
    · exact hreported.suspendMatch hrule hevent
    · rename_i hclosed
      exact hreported.goes
        (runWithin_goes (.inr (.matched hevent hrule (not_lt.mp hclosed))) (run.report matched.2))
  · exact hreported

end Accounted

theorem suspendMatch_watermark (rule : RuleInstance) (event : EventNode) (e : Engine) :
    (suspendMatch host rule event e).store.watermark = e.store.watermark := by
  unfold suspendMatch
  simp only
  split <;> rfl

theorem matchAnchor_watermark (event : EventNode) (wm : EventTime) (run : Run)
    (rule : RuleInstance) :
    (matchAnchor host event wm run rule).engine.store.watermark = run.engine.store.watermark := by
  unfold matchAnchor
  simp only
  split
  · split
    · exact suspendMatch_watermark rule event _
    · exact (runWithin_goes_any ..).watermark
  · rfl

theorem Accounted.matchAnchors (h : Accounted host past e) {event : EventNode}
    (hevent : event ∈ past) :
    Accounted host past (matchAnchors host event e.store.watermark e) := by
  have hfold : ∀ rules ⊆ host.image.rulesFor (.event event.eventType) event.scope.scopeType .evidence,
      ∀ run : Run, Accounted host past run.engine →
        run.engine.store.watermark = e.store.watermark →
        Accounted host past
          (rules.foldl (Adgl.matchAnchor host event e.store.watermark) run).engine := by
    intro rules
    induction rules with
    | nil => exact fun _ _ h _ => h
    | cons rule rest ih =>
        intro hsub run h hwm
        refine ih (fun r hr => hsub (List.mem_cons_of_mem _ hr)) _ ?_ ?_
        · rw [← hwm]
          exact h.matchAnchor hevent (hsub (List.mem_cons_self ..))
        · rw [matchAnchor_watermark, hwm]
  exact hfold _ (List.Subset.refl _) _ h rfl

namespace Accounted

theorem ingest (h : Accounted host past e) (event : EventNode) :
    Accounted host (past ++ accepted host e (.ingest event)) (ingest host event e) := by
  unfold Adgl.ingest accepted
  have hnoted : Accounted host past (e.note event) := h.of_same rfl rfl rfl rfl
  simp only
  split
  · rw [List.append_nil]
    exact hnoted.of_same rfl rfl rfl rfl
  · have hmem : event ∈ past ++ [event] := List.mem_append_right _ (List.mem_singleton_self _)
    have hmatched := ((hnoted.acceptEvent event).sweep).matchAnchors hmem
    rwa [sweep_watermark] at hmatched

theorem advanceWatermark (h : Accounted host past e) (t : EventTime) :
    Accounted host past (advanceWatermark host t e) := by
  have hadvanced : Accounted host past { e with store := e.store.advanceWatermark t } :=
    h.of_same rfl rfl rfl rfl
  exact hadvanced.sweep

theorem finish (h : Accounted host past e) : Accounted host past (finish host e) := by
  have hfinished : Accounted host past { e with finished := true } := h.of_same rfl rfl rfl rfl
  unfold Adgl.finish
  split
  · exact h
  · simp only
    split
    · exact hfinished
    · exact hfinished.advanceWatermark _

theorem call (h : Accounted host past e) (c : Call) :
    Accounted host (past ++ accepted host e c) (call host e c) := by
  cases c with
  | ingest event => exact h.ingest event
  | advanceWatermark t =>
      rw [accepted, List.append_nil]
      exact h.advanceWatermark t
  | advanceWallClock t =>
      rw [accepted, List.append_nil]
      change Accounted host past (advanceWallClock host t e)
      unfold advanceWallClock
      split
      · exact h.of_same rfl rfl rfl rfl
      · exact h
  | internScope scope =>
      rw [accepted, List.append_nil]
      exact h.of_same rfl rfl rfl rfl
  | finish =>
      rw [accepted, List.append_nil]
      exact h.finish

end Accounted

/-- After every run, everything in the engine comes from the accepted events. -/
theorem runCalls_accounted (calls : List Call) :
    Accounted host (history host calls) (runCalls host calls) := by
  have hstep : ∀ past e c, Accounted host past e → True →
      Accounted host (past ++ accepted host e c) (call host e c) := fun _ _ c h _ => h.call c
  have hrun := Inputs.Along.outputs_invariant hstep Accounted.new
    (Inputs.along_true : Inputs.Along (call host) (fun _ _ => True) Engine.new calls)
  exact hrun

end Adgl
