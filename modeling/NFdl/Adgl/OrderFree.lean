import NFdl.Adgl.HashOrder

/-!
# Freedom of the order of hash maps

Candidates are sorted by times and identifiers, which are unique in every state of every
run. The live watermark is a minimum, and a sweep changes every entry by itself. Expired
matches are sorted too, but not every two of them are apart.
-/

namespace Adgl

variable {host : Host} {orders : HashOrders} {e e' : Engine}

/-! ### Unique identifiers along the way -/

theorem UniqueIds.steps (h : UniqueIds e) (hsteps : PartitionSteps host e e') : UniqueIds e' :=
  hsteps.invariant (P := UniqueIds) (fun _ _ h hstep => h.step hstep) h

/-- A change of something other than the partitions and the counter. -/
theorem UniqueIds.of_part (h : UniqueIds e) (hpart : ∀ scope, e'.part scope = e.part scope)
    (hid : e'.nextNodeId = e.nextNodeId) : UniqueIds e' := by
  have hsame : ∀ at_, e'.idAt at_ = e.idAt at_ := fun at_ =>
    congrArg (SubGraph.idAt · at_.2) (hpart at_.1)
  refine ⟨fun at_ id hat => ?_, fun at_ at_' id hat hat' => ?_⟩
  · rw [hid]
    exact h.le at_ id (hsame at_ ▸ hat)
  · exact h.one at_ at_' id (hsame at_ ▸ hat) (hsame at_' ▸ hat')

/-- The course of the runs with unique identifiers. -/
def numbering (host : Host) : Course host where
  Admits run := UniqueIds run.engine
  Leads run run' := PartitionSteps host run.engine run'.engine
  refl _ := .refl
  trans h h' := h.trans h'
  admits h hsteps := h.steps hsteps
  between h _ := h.steps

/-- Two causes of a partition with one identifier are one cause. -/
theorem UniqueIds.cause_inj (h : UniqueIds e) {scope : ScopeId} {key key' : CauseKind × ScopeId}
    {node node' : CauseNode} (hnode : (e.part scope).causes.lookup key = some node)
    (hnode' : (e.part scope).causes.lookup key' = some node') (hid : node.id = node'.id) :
    key = key' ∧ node = node' := by
  have hplace : e.idAt (scope, .cause key) = some node.id :=
    Option.map_eq_some_iff.mpr ⟨node, hnode, rfl⟩
  have hplace' : e.idAt (scope, .cause key') = some node.id :=
    Option.map_eq_some_iff.mpr ⟨node', hnode', hid.symm⟩
  have hsame := h.one _ _ _ hplace hplace'
  obtain rfl : key = key' := by simpa using hsame
  exact ⟨rfl, Option.some.inj (hnode.symm.trans hnode')⟩

theorem UniqueIds.entry_inj (h : UniqueIds e) {scope : ScopeId}
    {entry entry' : Sigma fun _ : CauseKind × ScopeId => CauseNode}
    (hentry : entry ∈ (e.part scope).causes.entries)
    (hentry' : entry' ∈ (e.part scope).causes.entries) (hid : entry.2.id = entry'.2.id) :
    entry = entry' := by
  obtain ⟨key, node⟩ := entry
  obtain ⟨key', node'⟩ := entry'
  obtain ⟨rfl, rfl⟩ := h.cause_inj (AList.mem_lookup_iff.mpr hentry)
    (AList.mem_lookup_iff.mpr hentry') hid
  rfl

theorem part_of_partition {scope : ScopeId} {part : SubGraph}
    (h : e.store.partition scope = some part) : e.part scope = part :=
  congrArg (·.getD SubGraph.empty) h

/-! ### Rules -/

namespace Bound

theorem id_eq_of_le {a b : Bound} (hab : a.le b) (hba : b.le a) : a.id = b.id :=
  congrArg (fun p => (ofLex p).2) (le_antisymm (le_iff.mp hab) (le_iff.mp hba))

end Bound

/-- The candidates are apart by their identifiers. -/
theorem candidatesIn_eq (h : UniqueIds e) (spec : CorrelateSpec) (anchor : Bound) (scope : ScopeId)
    (back fwd : DurationMs) : candidatesIn orders e spec anchor scope back fwd =
      candidates e.store spec anchor scope back fwd := by
  unfold candidatesIn candidates
  cases spec.source with
  | event eventType => rfl
  | problem kind => rfl
  | cause kind =>
      simp only
      cases hpart : e.store.partition scope with
      | none => rfl
      | some part =>
          have hperm := Table.entriesIn_perm (orders.perm e part.causes)
          refine ((hperm.filter _).map _).insertionSort_eq ?_
          intro a ha b hb hab hba
          obtain ⟨entry, hentry, rfl⟩ := List.mem_map.mp ha
          obtain ⟨entry', hentry', rfl⟩ := List.mem_map.mp hb
          have hmem := hperm.mem_iff.mp (List.mem_filter.mp hentry).1
          have hmem' := hperm.mem_iff.mp (List.mem_filter.mp hentry').1
          rw [← part_of_partition hpart] at hmem hmem'
          rw [h.entry_inj hmem hmem' (Bound.id_eq_of_le hab hba)]

theorem resolveBindingsIn_eq (h : UniqueIds e) (rule : RuleInstance) (anchor : Bound)
    (scope : ScopeId) : resolveBindingsIn orders host e rule anchor scope =
      resolveBindings host e.interner e.store rule anchor scope := by
  have hcorrelate : ∀ bindings spec, resolveCorrelateIn orders host e rule anchor scope bindings spec =
      resolveCorrelate host e.interner e.store rule anchor scope bindings spec := by
    intro bindings spec
    unfold resolveCorrelateIn resolveCorrelate
    cases spec.window with
    | runtimeCheck => rfl
    | calculable back fwd =>
        cases TopoFunc.fromIdx spec.topo.funcIdx <;> simp only [candidatesIn_eq h]
  unfold resolveBindingsIn resolveBindings
  simp only [hcorrelate]

theorem bindRuleIn_eq (h : UniqueIds e) (rule : RuleInstance) (anchor : Bound) (scope : ScopeId) :
    bindRuleIn orders host rule anchor scope e = bindRule host rule anchor scope e := by
  unfold bindRuleIn bindRule
  rw [resolveBindingsIn_eq h]

theorem bindRule_steps (rule : RuleInstance) (anchor : Bound) (scope : ScopeId) (e : Engine) :
    PartitionSteps host e (bindRule host rule anchor scope e).2 :=
  .single (.of_part (fun _ => rfl) rfl)

/-- Rules run alike in every order. -/
theorem runRuleIn_agree (orders : HashOrders) (host : Host) (depth : Nat) :
    (numbering host).AgreeOn (runRuleIn orders host depth) (runRule host depth) := by
  induction depth with
  | zero =>
      intro rule anchor scope run _
      exact Course.report_agree _ run (by simp [EngineDiagnostic.isRule])
  | succ depth ih =>
      intro rule anchor scope run hrun
      unfold runRuleIn runRule
      split
      · exact Course.report_agree _ run (by simp [EngineDiagnostic.isRule])
      · unfold fireRuleIn fireRule
        rw [bindRuleIn_eq hrun]
        simp only
        generalize hbound : bindRule host rule anchor scope run.engine = bound
        have hsteps : PartitionSteps host run.engine bound.2 := by
          rw [← hbound]
          exact bindRule_steps rule anchor scope run.engine
        generalize branchTruth host bound.2.interner rule bound.1 scope = truth
        have hstart : (numbering host).Leads run ⟨bound.2.report truth.2, run.budget - 1⟩ :=
          hsteps.tail (.of_part (fun _ => rfl) rfl)
        have hexec := Course.execIntents_agree ih ((numbering host).admits hrun hstart)
          (selectedIntents rule truth.1) rule bound.1 anchor scope
        exact ⟨hexec.eq, hstart.trans hexec.leads⟩

theorem runWithinIn_agree (orders : HashOrders) (host : Host) :
    (numbering host).AgreeOn (runWithinIn orders host) (runWithin host) :=
  fun rule anchor scope run hrun => runRuleIn_agree orders host run.budget rule anchor scope run hrun

/-! ### The pipeline -/

theorem resumeMatchIn_eq (h : UniqueIds e) (m : PendingMatch) :
    resumeMatchIn orders host e m = resumeMatch host e m ∧ UniqueIds (resumeMatch host e m) := by
  unfold resumeMatchIn resumeMatch
  cases (e.store.rings.lookup m.scope).bind (·.get m.anchorEvent) with
  | none => exact ⟨rfl, h.of_part (fun _ => rfl) rfl⟩
  | some evt =>
      simp only
      cases host.image.rules.find? (·.id == m.rule) with
      | none => exact ⟨rfl, h.of_part (fun _ => rfl) rfl⟩
      | some rule =>
          have hstart : UniqueIds { e with resumed := e.resumed + 1 } :=
            h.of_part (fun _ => rfl) rfl
          have hagree := runWithinIn_agree orders host rule (.event evt) m.scope
            ⟨{ e with resumed := e.resumed + 1 }, host.limits.maxRuleFiringsPerEvent⟩ hstart
          refine ⟨congrArg Run.engine hagree.eq, ?_⟩
          have hunique := hagree.admits hstart
          rw [hagree.eq] at hunique
          exact hunique

/-- Among the matches that the watermark has passed, only the same compare equal. -/
def Engine.Untied (e : Engine) : Prop :=
  ∀ m ∈ e.store.expired e.store.watermark, ∀ m' ∈ e.store.expired e.store.watermark,
    m.cmp m' = .eq → m = m'

theorem expiredIn_eq (h : e.Untied) :
    expiredIn orders e e.store.watermark = e.store.expired e.store.watermark := by
  have hperm := (Table.valuesIn_perm (orders.perm e e.store.pending)).flatMap_right
    (·.expired e.store.watermark)
  refine hperm.insertionSort_eq fun m hm m' hm' hle hle' => ?_
  have hmem : ∀ m ∈ (Table.valuesIn e.store.pending (orders.keys e e.store.pending)).flatMap
      (·.expired e.store.watermark), m ∈ e.store.expired e.store.watermark :=
    fun m hm => (List.mem_insertionSort _).mpr (hperm.mem_iff.mp hm)
  exact h m (hmem m hm) m' (hmem m' hm') (Std.OrientedCmp.isLE_antisymm hle hle')

theorem popExpiredIn_eq (wm : EventTime) : popExpiredIn orders e wm = popExpired e wm := by
  unfold popExpiredIn popExpired GraphStore.popExpired
  rw [Table.sweepIn_eq _ (orders.perm e e.store.pending)]

theorem gcIn_eq (limits : Limits) (wm : EventTime) :
    gcIn orders limits wm e = { e with store := e.store.gc limits wm } := by
  unfold gcIn GraphStore.gc
  rw [Table.sweepIn_eq _ (orders.perm e e.store.rings),
    Table.sweepIn_eq _ (orders.perm e e.store.partitions)]

theorem pruneEmittedIn_eq (wm : EventTime) (maxCooldown : DurationMs) :
    pruneEmittedIn orders wm maxCooldown e =
      { e with store := e.store.pruneEmitted wm maxCooldown } := by
  unfold pruneEmittedIn GraphStore.pruneEmitted
  rw [Table.sweepIn_eq _ (orders.perm e e.store.partitions)]

theorem gcSweepIn_eq (wm : EventTime) : gcSweepIn orders host wm e = gcSweep host wm e := by
  unfold gcSweepIn gcSweep
  rw [gcIn_eq, pruneEmittedIn_eq]

/-- A sweep in which no two matches are tied. -/
theorem sweepIn_eq (h : UniqueIds e) (huntied : e.Untied) :
    sweepIn orders host e = sweep host e ∧ UniqueIds (sweep host e) := by
  have hpopped : UniqueIds (popExpired e e.store.watermark) := h.of_part (fun _ => rfl) rfl
  obtain ⟨heq, hunique⟩ : (e.store.expired e.store.watermark).foldl (resumeMatchIn orders host)
      (popExpired e e.store.watermark) = resumeExpired host e.store.watermark e ∧
        UniqueIds (resumeExpired host e.store.watermark e) :=
    List.foldl_eq_of_invariant (P := UniqueIds) (fun e m he => resumeMatchIn_eq he m) hpopped
  have hresumed : resumeExpiredIn orders host e.store.watermark e =
      resumeExpired host e.store.watermark e := by
    unfold resumeExpiredIn
    rw [expiredIn_eq huntied, popExpiredIn_eq, heq]
  unfold sweepIn sweep
  simp only
  rw [hresumed, gcSweepIn_eq]
  have hpruned : ∀ resumed : Engine,
      PartitionStep host resumed (gcSweep host e.store.watermark resumed) := by
    intro resumed
    refine .prune (fun scope => ?_) rfl
    rw [part_gcSweep]
    exact ⟨rfl, rfl, rfl, rfl⟩
  exact ⟨rfl, hunique.step (hpruned _)⟩

/-! ### Operations -/

theorem matchAnchorIn_eq (event : EventNode) (wm : EventTime) (run : Run) (rule : RuleInstance)
    (h : UniqueIds run.engine) :
    matchAnchorIn orders host event wm run rule = matchAnchor host event wm run rule ∧
      UniqueIds (matchAnchor host event wm run rule).engine := by
  unfold matchAnchorIn matchAnchor
  simp only
  generalize evalPred host _ _ _ _ _ = matched
  have hreported : UniqueIds (run.report matched.2).engine := h.of_part (fun _ => rfl) rfl
  split
  · split
    · have hsuspended : PartitionStep host (run.report matched.2).engine
          (suspendMatch host rule event (run.report matched.2).engine) := by
        unfold suspendMatch
        simp only
        split <;> exact .of_part (fun _ => rfl) rfl
      exact ⟨rfl, hreported.step hsuspended⟩
    · have hagree := runWithinIn_agree orders host rule (.event event) event.scope _ hreported
      have hunique := hagree.admits hreported
      rw [hagree.eq] at hunique
      exact ⟨hagree.eq, hunique⟩
  · exact ⟨rfl, hreported⟩

theorem matchAnchorsIn_eq (h : UniqueIds e) (event : EventNode) (wm : EventTime) :
    matchAnchorsIn orders host event wm e = matchAnchors host event wm e := by
  have hanchor : ∀ (run : Run) (rule : RuleInstance), UniqueIds run.engine →
      matchAnchorIn orders host event wm run rule = matchAnchor host event wm run rule ∧
        UniqueIds (matchAnchor host event wm run rule).engine :=
    fun run rule hrun => matchAnchorIn_eq event wm run rule hrun
  have hfold := List.foldl_eq_of_invariant (P := fun run : Run => UniqueIds run.engine)
    (l := host.image.rulesFor (.event event.eventType) event.scope.scopeType .evidence)
    (b := ⟨e, host.limits.maxRuleFiringsPerEvent⟩) hanchor h
  exact congrArg Run.engine hfold.1

/-- The least of the local watermarks, if there is one. -/
def leastLocalWm (default : EventTime) : List SourceWm → EventTime
  | [] => default
  | source :: rest => rest.foldl (fun wm s => min wm s.localWm) source.localWm

theorem leastLocalWm_eq_min? (default : EventTime) (sources : List SourceWm) :
    leastLocalWm default sources = (sources.map SourceWm.localWm).min?.getD default := by
  cases sources with
  | nil => rfl
  | cons source rest =>
      rw [List.map_cons, List.min?_cons', List.foldl_map]
      rfl

theorem advanceLiveWatermarkIn_eq (scope : ScopeId) (eventTime : EventTime) (e : Engine) :
    advanceLiveWatermarkIn orders host scope eventTime e =
      advanceLiveWatermark host scope eventTime e := by
  unfold advanceLiveWatermarkIn advanceLiveWatermark
  simp only
  generalize Table.update e.sources scope _ _ = sources
  have hperm := Table.valuesIn_perm (orders.perm e sources)
  generalize hactive : List.filter _ (Table.valuesIn sources (orders.keys e sources)) = active
  generalize hactive' : List.filter _ sources.values = active'
  have hleast : leastLocalWm e.store.watermark active = leastLocalWm e.store.watermark active' := by
    rw [leastLocalWm_eq_min?, leastLocalWm_eq_min?, ← hactive, ← hactive',
      ((hperm.filter _).map _).min?_eq]
  cases active <;> cases active' <;>
    · simp only [leastLocalWm] at hleast
      simp only [hleast]

theorem acceptEventIn_eq (event : EventNode) (e : Engine) :
    acceptEventIn orders host event e = acceptEvent host event e := by
  unfold acceptEventIn acceptEvent
  cases host.mode with
  | offline => rfl
  | live => exact congrArg (pushEvent host event) (advanceLiveWatermarkIn_eq ..)

theorem UniqueIds.acceptEvent (h : UniqueIds e) (event : EventNode) :
    UniqueIds (acceptEvent host event e) := by
  refine h.of_part (fun scope => ?_) ?_
  all_goals
    unfold Adgl.acceptEvent
    cases host.mode with
    | live => rfl
    | offline =>
        unfold auditOfflineLateEvidence
        simp only
        split
        · split <;> rfl
        · rfl

/-- The engine in which the sweep of an operation starts. -/
def sweptAt (host : Host) (e : Engine) : Operation → Option Engine
  | .call (.ingest event) =>
      if (e.note event).isDropped host event then none
      else some (acceptEvent host event (e.note event))
  | .call (.advanceWatermark t) => some { e with store := e.store.advanceWatermark t }
  | .call .finish =>
      if e.finished then none
      else e.lastEventTime.map fun last =>
        { e with
          finished := true
          store := e.store.advanceWatermark
            ((last.add host.imageMaxForward).add (.ofMillis 1)) }
  | .call (.advanceWallClock _) | .call (.internScope _) | .gc _ _ | .pruneEmitted _ _ => none

/-- An operation in whose sweep no two different matches compare equal. -/
def Operation.Untied (host : Host) (e : Engine) (op : Operation) : Prop :=
  ∀ e' ∈ sweptAt host e op, e'.Untied

theorem advanceWatermarkIn_eq (h : UniqueIds e) {t : EventTime}
    (huntied : Engine.Untied { e with store := e.store.advanceWatermark t }) :
    advanceWatermarkIn orders host t e = advanceWatermark host t e :=
  have hadvanced : UniqueIds { e with store := e.store.advanceWatermark t } :=
    h.of_part (fun _ => rfl) rfl
  (sweepIn_eq hadvanced huntied).1

/-- The flush at the end of the stream, of an engine that is marked as finished. -/
theorem flushIn_eq (h : UniqueIds e)
    (huntied : ∀ last, e.lastEventTime = some last → Engine.Untied { e with
      store := e.store.advanceWatermark ((last.add host.imageMaxForward).add (.ofMillis 1)) }) :
    (match e.lastEventTime with
      | none => e
      | some last => advanceWatermarkIn orders host
          ((last.add host.imageMaxForward).add (.ofMillis 1)) e) =
    match e.lastEventTime with
      | none => e
      | some last => advanceWatermark host
          ((last.add host.imageMaxForward).add (.ofMillis 1)) e := by
  cases hlast : e.lastEventTime with
  | none => rfl
  | some last => exact advanceWatermarkIn_eq h (huntied last hlast)

/-- An operation whose sweep has no ties does the same in every order. -/
theorem operateIn_eq (h : UniqueIds e) {op : Operation} (huntied : op.Untied host e) :
    operateIn orders host e op = operate host e op := by
  cases op with
  | gc watermark maxLookback => exact gcIn_eq _ _
  | pruneEmitted wm maxCooldown => exact pruneEmittedIn_eq _ _
  | call c =>
      cases c with
      | advanceWallClock t => rfl
      | internScope scope => rfl
      | advanceWatermark t => exact advanceWatermarkIn_eq h (huntied _ rfl)
      | finish =>
          simp only [Operation.Untied, sweptAt] at huntied
          change finishIn orders host e = finish host e
          unfold finishIn finish
          by_cases hfinished : e.finished = true
          · rw [if_pos hfinished, if_pos hfinished]
          · rw [if_neg hfinished, if_neg hfinished]
            rw [if_neg hfinished] at huntied
            have hclosed : UniqueIds { e with finished := true } := h.of_part (fun _ => rfl) rfl
            refine flushIn_eq hclosed fun last hlast => ?_
            exact huntied _ (Option.map_eq_some_iff.mpr ⟨last, hlast, rfl⟩)
      | ingest event =>
          simp only [Operation.Untied, sweptAt] at huntied
          change ingestIn orders host event e = ingest host event e
          unfold ingestIn ingest
          simp only
          by_cases hdropped : (e.note event).isDropped host event = true
          · rw [if_pos hdropped, if_pos hdropped]
          · rw [if_neg hdropped] at huntied ⊢
            rw [if_neg hdropped, acceptEventIn_eq]
            have hnoted : UniqueIds (e.note event) := h.of_part (fun _ => rfl) rfl
            obtain ⟨heq, hunique⟩ :
                sweepIn orders host (acceptEvent host event (e.note event)) =
                    sweep host (acceptEvent host event (e.note event)) ∧
                  UniqueIds (sweep host (acceptEvent host event (e.note event))) :=
              sweepIn_eq (hnoted.acceptEvent event) (huntied _ rfl)
            rw [heq, matchAnchorsIn_eq hunique]

instance (e : Engine) : Decidable e.Untied :=
  inferInstanceAs (Decidable (∀ m ∈ e.store.expired e.store.watermark,
    ∀ m' ∈ e.store.expired e.store.watermark, m.cmp m' = .eq → m = m'))

instance (host : Host) (e : Engine) (op : Operation) : Decidable (op.Untied host e) :=
  inferInstanceAs (Decidable (∀ e' ∈ sweptAt host e op, e'.Untied))

/-- A run over hash maps in no sweep of which two different matches compare equal. -/
def UntiedRun (host : Host) (steps : List (HashOrders × Operation)) : Prop :=
  Inputs.Along (fun e step => operateIn step.1 host e step.2) (fun e step => step.2.Untied host e)
    .new steps

instance (host : Host) (steps : List (HashOrders × Operation)) : Decidable (UntiedRun host steps) :=
  inferInstanceAs (Decidable (Inputs.Along _ _ _ steps))

/-- The run in any orders is the run in the order of the tables. -/
theorem runIn_eq {steps : List (HashOrders × Operation)} (huntied : UntiedRun host steps) :
    runIn host steps = runOperations host (steps.map Prod.snd) := by
  induction steps using List.reverseRecOn with
  | nil => rfl
  | append_singleton steps step ih =>
      obtain ⟨hbefore, hstep, -⟩ := Inputs.along_append.mp huntied
      have heq : runIn host steps = runOperations host (steps.map Prod.snd) := ih hbefore
      have hlast : operateIn step.1 host (runIn host steps) step.2 =
          operate host (runOperations host (steps.map Prod.snd)) step.2 := by
        rw [← heq]
        refine operateIn_eq ?_ hstep
        rw [heq]
        exact uniqueIds host (steps.map Prod.snd)
      calc runIn host (steps ++ [step])
          = operateIn step.1 host (runIn host steps) step.2 := List.foldl_append ..
        _ = operate host (runOperations host (steps.map Prod.snd)) step.2 := hlast
        _ = runOperations host ((steps ++ [step]).map Prod.snd) := by
          rw [List.map_append, runOperations_append]
          rfl

/-- Whether a run is without ties does not depend on the orders. -/
theorem untiedRun_iff (host : Host) (steps : List (HashOrders × Operation)) :
    UntiedRun host steps ↔ Inputs.Along (operate host) (fun e op => op.Untied host e) .new
      (steps.map Prod.snd) := by
  induction steps using List.reverseRecOn with
  | nil => exact Iff.rfl
  | append_singleton steps step ih =>
      rw [List.map_append]
      have hsplit : UntiedRun host (steps ++ [step]) ↔
          UntiedRun host steps ∧ step.2.Untied host (runIn host steps) := by
        refine Inputs.along_append.trans (and_congr_right fun _ => ?_)
        exact and_iff_left trivial
      have hsplit' : Inputs.Along (operate host) (fun e op => op.Untied host e) .new
          (steps.map Prod.snd ++ [step].map Prod.snd) ↔
          Inputs.Along (operate host) (fun e op => op.Untied host e) .new (steps.map Prod.snd) ∧
            step.2.Untied host (runOperations host (steps.map Prod.snd)) := by
        refine Inputs.along_append.trans (and_congr_right fun _ => ?_)
        exact and_iff_left trivial
      rw [hsplit, hsplit', ← ih]
      refine and_congr_right fun huntied => ?_
      rw [runIn_eq huntied]

end Adgl
