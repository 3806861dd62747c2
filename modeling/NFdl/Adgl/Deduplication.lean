import NFdl.Adgl.Partitions
import NFdl.Adgl.Retention

/-!
# Deduplication

An inference counts once under its key. Garbage collection forgets the keys of the
windows behind the look-back of the watermark: as long as no event arrives from such
a window, a key that was forgotten is never needed again.
-/

namespace Adgl

open Ast (RuleDecl Ruleset)

variable {host : Host} {e e' : Engine} {horizon : Int}

/-- The window of a time. -/
def Host.windowOf (host : Host) (t : EventTime) : Int := windowId t host.limits.dedupWindow

/-- The first window whose keys a sweep keeps. -/
def Host.horizonAt (host : Host) (wm : EventTime) : Int :=
  host.windowOf (wm.sub host.limits.maxLookback)

theorem horizonAt_mono {wm wm' : EventTime} (h : wm ≤ wm') :
    host.horizonAt wm ≤ host.horizonAt wm' :=
  windowId_mono (EventTime.sub_mono h _) _

/-- The keys under which the rules of an image infer, before a target is known. -/
def ProgramImage.provenanceKeys (image : ProgramImage) : List ProvKey :=
  image.rules.flatMap fun rule => rule.intents.filterMap fun
    | .inferCause _ _ _ _ key _ => some key
    | _ => none

/-- No rule infers one cause through two different target expressions. -/
def ProgramImage.OneTarget (image : ProgramImage) : Prop :=
  ∀ k ∈ image.provenanceKeys, ∀ k' ∈ image.provenanceKeys,
    k.rule = k'.rule → k.cause = k'.cause → k.targetExprHash = k'.targetExprHash

instance (image : ProgramImage) : Decidable image.OneTarget :=
  inferInstanceAs (Decidable (∀ k ∈ image.provenanceKeys, ∀ k' ∈ image.provenanceKeys,
    k.rule = k'.rule → k.cause = k'.cause → k.targetExprHash = k'.targetExprHash))

/-- What is counted in an engine of which every event is from the horizon on: each
key once, and the keys from the horizon on are not forgotten. -/
structure Counted (host : Host) (horizon : Int) (e : Engine) : Prop where
  horizon_le : horizon ≤ host.horizonAt e.store.watermark
  events : ∀ scope, ∀ event ∈ e.store.events scope, horizon ≤ host.windowOf event.time
  seen : ∀ scope key node, e.cause scope key = some node → ∀ k ∈ node.provenance,
    horizon ≤ k.windowId → k ∈ (e.part scope).seenProvenance
  nodup : ∀ scope key node, e.cause scope key = some node → node.provenance.Nodup
  keyed : ∀ scope key node, e.cause scope key = some node → ∀ k ∈ node.provenance,
    ∃ k' ∈ host.image.provenanceKeys, k'.cause = key.1 ∧
      k.key = { k' with targetExprHash := mixTarget k'.targetExprHash key.2.hashKey }

namespace Counted

theorem new : Counted host (host.horizonAt .minimum) .new where
  horizon_le := le_rfl
  events scope event hevent := absurd hevent List.not_mem_nil
  seen scope key node hnode := by cases hnode
  nodup scope key node hnode := by cases hnode
  keyed scope key node hnode := by cases hnode

/-- A change that writes no cause and forgets no key. -/
theorem of_parts (h : Counted host horizon e) (hpart : ∀ scope, e'.part scope = e.part scope)
    (hrings : e'.store.rings = e.store.rings) (hwatermark : e.store.watermark ≤ e'.store.watermark) :
    Counted host horizon e' := by
  have hcause : ∀ scope key, e'.cause scope key = e.cause scope key := fun scope key =>
    congrArg (fun part : SubGraph => part.causes.lookup key) (hpart scope)
  have hevents : ∀ scope, e'.store.events scope = e.store.events scope := fun scope => by
    unfold GraphStore.events
    rw [hrings]
  refine ⟨h.horizon_le.trans (horizonAt_mono hwatermark), fun scope => ?_, fun scope key => ?_,
    fun scope key => ?_, fun scope key => ?_⟩
  · rw [hevents]
    exact h.events scope
  · rw [hcause, hpart]
    exact h.seen scope key
  · rw [hcause]
    exact h.nodup scope key
  · rw [hcause]
    exact h.keyed scope key

theorem of_store (h : Counted host horizon e) (hstore : e'.store = e.store) :
    Counted host horizon e' :=
  h.of_parts (fun scope => congrArg (GraphStore.partitionOf · scope) hstore)
    (congrArg GraphStore.rings hstore) (le_of_eq (congrArg GraphStore.watermark hstore).symm)

/-- What the cause must satisfy that is written. -/
structure Counts (host : Host) (horizon : Int) (e : Engine) (scope : ScopeId)
    (key : CauseKind × ScopeId) (node : CauseNode) : Prop where
  seen : ∀ k ∈ node.provenance, horizon ≤ k.windowId → k ∈ (e.part scope).seenProvenance
  nodup : node.provenance.Nodup
  keyed : ∀ k ∈ node.provenance, ∃ k' ∈ host.image.provenanceKeys, k'.cause = key.1 ∧
    k.key = { k' with targetExprHash := mixTarget k'.targetExprHash key.2.hashKey }

theorem counts (h : Counted host horizon e) {scope : ScopeId} {key : CauseKind × ScopeId}
    {node : CauseNode} (hnode : e.cause scope key = some node) :
    Counts host horizon e scope key node :=
  ⟨h.seen scope key node hnode, h.nodup scope key node hnode, h.keyed scope key node hnode⟩

theorem of_writes (h : Counted host horizon e) {scope : ScopeId} {key : CauseKind × ScopeId}
    {node : CauseNode} (hrings : e'.store.rings = e.store.rings)
    (hwatermark : e'.store.watermark = e.store.watermark) (hwrites : Writes scope key node e e')
    (hseen : ∀ scope', (e.part scope').seenProvenance ⊆ (e'.part scope').seenProvenance)
    (hnode : Counts host horizon e' scope key node) : Counted host horizon e' := by
  have hall : ∀ scope' key' node', e'.cause scope' key' = some node' →
      Counts host horizon e' scope' key' node' := by
    intro scope' key' node' hcause
    by_cases hsame : (scope', key') = (scope, key)
    · obtain ⟨rfl, rfl⟩ := Prod.mk.inj hsame
      obtain rfl := Option.some.inj (hwrites.here.symm.trans hcause)
      exact hnode
    · rw [hwrites.there scope' key' hsame] at hcause
      have hold := h.counts hcause
      exact ⟨fun k hk hle => hseen scope' (hold.seen k hk hle), hold.nodup, hold.keyed⟩
  refine ⟨?_, fun scope' event hevent => ?_, fun scope' key' node' hcause => (hall _ _ _ hcause).seen,
    fun scope' key' node' hcause => (hall _ _ _ hcause).nodup,
    fun scope' key' node' hcause => (hall _ _ _ hcause).keyed⟩
  · rw [hwatermark]
    exact h.horizon_le
  · unfold GraphStore.events at hevent
    rw [hrings] at hevent
    exact h.events scope' event hevent

theorem of_sameCauses (h : Counted host horizon e) (hrings : e'.store.rings = e.store.rings)
    (hwatermark : e'.store.watermark = e.store.watermark) (hsame : SameCauses e e') :
    Counted host horizon e' := by
  refine ⟨?_, fun scope event hevent => ?_, fun scope key node hnode => ?_,
    fun scope key node hnode => ?_, fun scope key node hnode => ?_⟩
  · rw [hwatermark]
    exact h.horizon_le
  · unfold GraphStore.events at hevent
    rw [hrings] at hevent
    exact h.events scope event hevent
  all_goals rw [hsame.cause] at hnode
  · rw [hsame.seen]
    exact h.seen scope key node hnode
  · exact h.nodup scope key node hnode
  · exact h.keyed scope key node hnode

/-- A key that was not seen was not applied, if its window is from the horizon on. -/
theorem inferred (h : Counted host horizon e) (hrings : e'.store.rings = e.store.rings)
    (hwatermark : e'.store.watermark = e.store.watermark) {cause : CauseKind} {target : ScopeId}
    {weight : Weight} {provenanceKey : ProvKey} {time : EventTime} {scope : ScopeId}
    (hinferred : Inferred cause target weight
      (runtimeProvKey provenanceKey target time host.limits.dedupWindow) time scope e e')
    (hkey : provenanceKey ∈ host.image.provenanceKeys) (hcause : provenanceKey.cause = cause)
    (htime : horizon ≤ host.windowOf time) : Counted host horizon e' := by
  let key := runtimeProvKey provenanceKey target time host.limits.dedupWindow
  have hkeep : ∀ scope', (e.part scope').seenProvenance ⊆ (e'.part scope').seenProvenance := by
    intro scope'
    rw [hinferred.seen]
    split
    · rename_i heq
      rw [heq]
      exact List.subset_cons_self _ _
    · exact List.Subset.refl _
  have hnew : key ∈ (e'.part scope).seenProvenance := by
    rw [hinferred.seen, if_pos rfl]
    exact List.mem_cons_self ..
  refine h.of_writes hrings hwatermark hinferred.writes hkeep ?_
  -- The cause had the keys of the partition so far, or it is new and had none.
  have hbefore : Counts host horizon e scope (cause, target)
      ((e.cause scope (cause, target)).getD
        ⟨e.nextNodeId + 1, cause, target, time, .minimum, [], []⟩) := by
    cases hnode : e.cause scope (cause, target) with
    | none => exact ⟨nofun, List.nodup_nil, nofun⟩
    | some node => exact h.counts hnode
  refine ⟨fun k hk hle => ?_, ?_, fun k hk => ?_⟩
  · obtain hk | hk := List.mem_append.mp hk
    · exact hkeep scope (hbefore.seen k hk hle)
    · exact List.mem_singleton.mp hk ▸ hnew
  · refine List.nodup_append.mpr ⟨hbefore.nodup, List.nodup_singleton _, fun k hk k' hk' heq => ?_⟩
    obtain rfl := List.mem_singleton.mp hk'
    subst heq
    exact hinferred.fresh (hbefore.seen _ hk htime)
  · obtain hk | hk := List.mem_append.mp hk
    · exact hbefore.keyed k hk
    · obtain rfl := List.mem_singleton.mp hk
      exact ⟨provenanceKey, hkey, hcause, rfl⟩

/-- A roll-up applies no key. -/
theorem rolledUp (h : Counted host horizon e) (hrings : e'.store.rings = e.store.rings)
    (hwatermark : e'.store.watermark = e.store.watermark) {cause : CauseKind}
    {target childScope : ScopeId} (hrolled : RolledUp host cause target childScope e e') :
    Counted host horizon e' := by
  refine h.of_writes hrings hwatermark hrolled.writes
    (fun scope => (hrolled.seen scope).symm ▸ List.Subset.refl _) ?_
  cases hnode : e.cause target (cause, target) with
  | none =>
      unfold rolledUpNode
      rw [hnode]
      exact ⟨nofun, List.nodup_nil, nofun⟩
  | some node =>
      have hbefore := h.counts hnode
      unfold rolledUpNode
      rw [hnode]
      refine ⟨fun k hk hle => ?_, hbefore.nodup, hbefore.keyed⟩
      rw [hrolled.seen]
      exact hbefore.seen k hk hle

end Counted

/-- That a rule runs in a window from the horizon on, or infers nothing. -/
def RunsFrom (host : Host) (horizon : Int) (rule : RuleInstance) (anchor : Bound) (_ : ScopeId) :
    Prop :=
  rule.Infers → rule ∈ host.image.rules ∧ horizon ≤ host.windowOf anchor.time

theorem mem_provenanceKeys {image : ProgramImage} {rule : RuleInstance} (hmem : rule ∈ image.rules)
    {cause : CauseKind} {path : MetricPath} {weight : Weight} {evidence : List Symbol}
    {key : ProvKey} {pii : List MetricPath}
    (h : .inferCause cause path weight evidence key pii ∈ rule.intents) :
    key ∈ image.provenanceKeys :=
  List.mem_flatMap.mpr ⟨rule, hmem, List.mem_filterMap.mpr ⟨_, h, rfl⟩⟩

section Accepted

variable {catalog : Catalog} {config : VerifyConfig} {ruleset : Ruleset}

theorem Counted.effect (himage : verifyWithConfig catalog config ruleset = .ok host.image)
    (h : Counted host horizon e) (heffect : Effect host (RunsFrom host horizon) e e') :
    Counted host horizon e' := by
  have hgoes := heffect.goes
  obtain hsame | ⟨rule, anchor, scope, cause, path, weight, evidence, key, pii, target, hruns,
    hintent, hwrite⟩ := heffect.cases
  · exact h.of_sameCauses hgoes.rings hgoes.watermark hsame
  · obtain ⟨hmem, htime⟩ := hruns ⟨_, _, _, _, _, _, hintent⟩
    obtain ⟨hinferred, -⟩ | hrolled | hsame := hwrite
    · have hcause : key.cause = cause := by rw [(accepted_infer himage hmem hintent).2]
      exact h.inferred hgoes.rings hgoes.watermark hinferred (mem_provenanceKeys hmem hintent) hcause
        htime
    · exact h.rolledUp hgoes.rings hgoes.watermark hrolled
    · have htouched : Counted host horizon (e.touch target) := h.of_store rfl
      exact htouched.of_sameCauses hgoes.rings hgoes.watermark hsame

/-- What is known of the events of a run in which no key is needed again. -/
def windowGuard (host : Host) : Guard where
  pushed wm event := host.horizonAt wm ≤ host.windowOf event.time
  matched wm event := host.horizonAt wm ≤ host.windowOf event.time

theorem Counted.phase (himage : verifyWithConfig catalog config ruleset = .ok host.image)
    {past : List EventNode} (h : Counted host horizon e)
    (hphase : Phase host past (windowGuard host) e e') : ∃ horizon', Counted host horizon' e' := by
  cases hphase with
  | book hbook => exact ⟨horizon, h.of_store hbook.store⟩
  | push hevent hpushed =>
      rename_i event
      refine ⟨horizon, ?_⟩
      refine ⟨h.horizon_le, fun scope past hpast => ?_, h.seen, h.nodup, h.keyed⟩
      change past ∈ (e.store.pushEvent host.limits event).events scope at hpast
      rw [GraphStore.events_pushEvent] at hpast
      split at hpast
      · obtain rfl | hbefore := RingBuffer.mem_push hpast
        · exact h.horizon_le.trans hpushed
        · rw [← GraphStore.events_eq_ringOf] at hbefore
          exact h.events _ past hbefore
      · exact h.events scope past hpast
  | advance t => exact ⟨horizon, h.of_parts (fun _ => rfl) rfl (le_max_left _ _)⟩
  | pop => exact ⟨horizon, h.of_parts (fun _ => rfl) rfl le_rfl⟩
  | gc =>
      refine ⟨host.horizonAt e.store.watermark, le_rfl, fun scope event hevent => ?_,
        fun scope key node hnode k hk hle => ?_, fun scope key node hnode => ?_,
        fun scope key node hnode => ?_⟩
      · change event ∈ (e.store.gc host.limits e.store.watermark).events scope at hevent
        rw [GraphStore.events_gc] at hevent
        exact windowId_mono (of_decide_eq_true (List.mem_filter.mp hevent).2) _
      all_goals
        unfold Engine.cause at hnode
        rw [part_gcSweep] at hnode
      · rw [part_gcSweep]
        exact List.mem_filter.mpr
          ⟨h.seen scope key node hnode k hk (h.horizon_le.trans hle), decide_eq_true hle⟩
      · exact h.nodup scope key node hnode
      · exact h.keyed scope key node hnode
  | suspend hevent hrule hopen =>
      refine ⟨horizon, h.of_parts (fun scope => ?_) ?_ (le_of_eq (suspendMatch_watermark _ _ _).symm)⟩
      all_goals
        unfold suspendMatch
        simp only
        split <;> rfl
  | run run hstarted hanchor =>
      rename_i rule event scope
      refine ⟨horizon, ?_⟩
      have htime : horizon ≤ host.windowOf event.time :=
        hanchor.elim (h.events scope event) h.horizon_le.trans
      have heffects : Effects host (RunsFrom host horizon) run.engine
          (runWithin host rule (.event event) scope run).engine :=
        runRule_effects (fun _ _ _ hcascades hinfers => absurd hinfers (hcascades.not_infers himage))
          run.budget (fun _ => ⟨hstarted.mem, htime⟩) run
      exact heffects.invariant (fun _ _ hcounted heffect => hcounted.effect himage heffect) h

/-- That an event comes from a window whose keys are not forgotten when it arrives. -/
def InWindow (host : Host) (e : Engine) : Call → Prop
  | .ingest event => host.horizonAt e.store.watermark ≤ host.windowOf event.time
  | _ => True

instance (e : Engine) : DecidablePred (InWindow host e)
  | .ingest event =>
      inferInstanceAs (Decidable (host.horizonAt e.store.watermark ≤ host.windowOf event.time))
  | .advanceWatermark _ | .advanceWallClock _ | .internScope _ | .finish => .isTrue trivial

theorem isDropped_offline (hmode : host.mode = .offline) (event : EventNode) (e : Engine) :
    e.isDropped host event = false := by
  unfold Engine.isDropped
  rw [hmode]
  rfl

/-- An offline event advances the watermark to its time, if it is not late. -/
theorem ingest_watermark (hmode : host.mode = .offline) (event : EventNode) (e : Engine) :
    (ingest host event e).store.watermark = max e.store.watermark event.time := by
  unfold ingest
  simp only [isDropped_offline hmode, Bool.false_eq_true, if_false]
  rw [matchAnchors_watermark, sweep_watermark]
  unfold acceptEvent
  rw [hmode]
  simp only
  split
  · rw [audit_eq]
    rfl
  · rfl

theorem InWindow.admits (hmode : host.mode = .offline) {e : Engine} {c : Call}
    (h : InWindow host e c) : (windowGuard host).Admits host e c := by
  intro event hevent
  cases c with
  | ingest event' =>
      have hone : accepted host e (.ingest event') = [event'] :=
        if_neg (by rw [isDropped_offline hmode]; exact Bool.false_ne_true)
      rw [hone] at hevent
      obtain rfl := List.mem_singleton.mp hevent
      refine ⟨h, ?_⟩
      change host.horizonAt (ingest host event e).store.watermark ≤ _
      rw [ingest_watermark hmode]
      obtain hle | hle := le_total e.store.watermark event.time
      · rw [max_eq_right hle]
        exact windowId_mono (EventTime.sub_le _ _) _
      · rw [max_eq_left hle]
        exact h
  | advanceWatermark t => cases hevent
  | advanceWallClock t => cases hevent
  | internScope scope => cases hevent
  | finish => cases hevent

/-- The inferences that were applied to a cause, by rule and window. -/
def CauseNode.applications (node : CauseNode) : List (RuleId × Int) :=
  node.provenance.map fun k => (k.key.rule, k.windowId)

/-- In an offline run of an accepted image of which no event comes from a window whose
keys are forgotten, every key is applied to its cause at most once. That is once for a
rule and a window, if no rule infers a cause through two target expressions. -/
theorem applied_once (himage : verifyWithConfig catalog config ruleset = .ok host.image)
    (hmode : host.mode = .offline) {calls : List Call}
    (hwindow : Inputs.Along (call host) (InWindow host) .new calls) {scope : ScopeId}
    {key : CauseKind × ScopeId} {node : CauseNode}
    (hnode : (runCalls host calls).cause scope key = some node) :
    node.provenance.Nodup ∧ (host.image.OneTarget → node.applications.Nodup) := by
  have hguard : Inputs.Along (call host) ((windowGuard host).Admits host) .new calls :=
    hwindow.mono fun e c => InWindow.admits hmode
  obtain ⟨horizon, hcounted⟩ := runCalls_invariant
    (P := fun _ e => ∃ horizon, Counted host horizon e) (windowGuard host) ⟨_, Counted.new⟩
    (fun past e c ⟨horizon, h⟩ => ⟨horizon, h.of_store (by cases c <;> rfl)⟩)
    (fun _ _ _ ⟨_, h⟩ hphase => h.phase himage hphase) hguard
  have hcounts := hcounted.counts hnode
  refine ⟨hcounts.nodup, fun hone => ?_⟩
  refine (List.nodup_map_iff_inj_on hcounts.nodup).mpr fun k hk k' hk' heq => ?_
  obtain ⟨hrule, hwindow⟩ := Prod.mk.inj heq
  obtain ⟨source, hsource, hcause, hkey⟩ := hcounts.keyed k hk
  obtain ⟨source', hsource', hcause', hkey'⟩ := hcounts.keyed k' hk'
  have hrules : source.rule = source'.rule := by
    rw [hkey, hkey'] at hrule
    exact hrule
  have hcauses : source.cause = source'.cause := hcause.trans hcause'.symm
  have hhash := hone source hsource source' hsource' hrules hcauses
  have hkeys : k.key = k'.key := by rw [hkey, hkey', hrules, hcauses, hhash]
  obtain ⟨key, window⟩ := k
  obtain ⟨key', window'⟩ := k'
  exact congrArg₂ RuntimeProvKey.mk hkeys hwindow

end Accepted

/-- A burst under an identifier, at a time. -/
def burstAt (id : EventId) (time : EventTime) : EventNode :=
  .new id "tcp.retransmission_burst" time ⟨.session, 7⟩ [(0, 1400)]

/-- The rule that infers congestion from every burst. -/
def everyBurst : Ruleset := burstRules (.bool true)

/-- Two bursts of one window, and calls between them. -/
def twoBursts (between : List Call) : Engine :=
  runCalls (seedHost everyBurst)
    ([.ingest (burstAt 1 ⟨1000⟩)] ++ between ++ [.ingest (burstAt 2 ⟨1500⟩), .finish])

/-- The congestion that is inferred from the bursts. -/
def twoBurstsCause (between : List Call) : Option CauseNode :=
  (twoBursts between).cause ⟨.session, 7⟩ ("Congestion", ⟨.session, 7⟩)

theorem applied_once_bursts : ∃ node, twoBurstsCause [] = some node ∧ node.provenance.Nodup ∧
    node.applications.Nodup := by
  have himage : verifyWithConfig .seed .default everyBurst = .ok (seedHost everyBurst).image :=
    verify_eq_ok (by decide) (by decide)
  have hwindow : Inputs.Along (call (seedHost everyBurst)) (InWindow (seedHost everyBurst)) .new
      [.ingest (burstAt 1 ⟨1000⟩), .ingest (burstAt 2 ⟨1500⟩), .finish] :=
    ⟨by decide, by decide, trivial, trivial⟩
  have hsome : (twoBurstsCause []).isSome := by decide
  obtain ⟨node, hnode⟩ := Option.isSome_iff_exists.mp hsome
  obtain ⟨hkeys, happlications⟩ := applied_once himage rfl hwindow hnode
  exact ⟨node, hnode, hkeys, happlications (by decide)⟩

/-- A rule that infers congestion from a burst through two expressions for its target. -/
def twoTargetRules : Ruleset :=
  ⟨"targets", [], [.evidence {
    name := "burst"
    scope := .session
    anchor := ⟨"rtx", ["tcp", "retransmission_burst"], some (.bool true)⟩
    correlates := []
    ifElse := none
    body := [.infer ⟨"Congestion", [.target (.field (.ident "rtx") "target"), .weight 10]⟩,
      .infer ⟨"Congestion", [.target (.ident "rtx"), .weight 10]⟩] }]⟩

/-- The congestion that is inferred through the two expressions. -/
def twoTargetsCause : Option CauseNode :=
  (runCalls (seedHost twoTargetRules) [.ingest (burstAt 1 ⟨1000⟩), .finish]).cause ⟨.session, 7⟩
    ("Congestion", ⟨.session, 7⟩)

/-- That the rule was applied to the cause twice in one window. -/
def AppliedTwice (node : CauseNode) : Prop :=
  node.confidence.value = 20 ∧ node.applications = [("burst", 1), ("burst", 1)]

instance : DecidablePred AppliedTwice := fun node =>
  inferInstanceAs (Decidable (node.confidence.value = 20 ∧
    node.applications = [("burst", 1), ("burst", 1)]))

/-- The second burst is of the window of the first one, but the watermark has passed
its look-back: the key is forgotten and applied again. Two expressions for one target
have two keys. -/
theorem applied_twice :
    ((verifyWithConfig .seed .default everyBurst).isOk = true ∧
      ∃ node, twoBurstsCause [.advanceWatermark ⟨200000⟩] = some node ∧ AppliedTwice node) ∧
    ((verifyWithConfig .seed .default twoTargetRules).isOk = true ∧
      ∃ node, twoTargetsCause = some node ∧ AppliedTwice node) := by
  have hforgotten : (twoBurstsCause [.advanceWatermark ⟨200000⟩]).any AppliedTwice := by decide
  have htargets : twoTargetsCause.any AppliedTwice := by decide
  refine ⟨⟨by decide, ?_⟩, ⟨by decide, ?_⟩⟩
  · obtain ⟨node, hnode, htwice⟩ := (Option.any_eq_true _ _).mp hforgotten
    exact ⟨node, hnode, of_decide_eq_true htwice⟩
  · obtain ⟨node, hnode, htwice⟩ := (Option.any_eq_true _ _).mp htargets
    exact ⟨node, hnode, of_decide_eq_true htwice⟩

end Adgl
