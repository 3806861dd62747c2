import NFdl.Adgl.Closed
import NFdl.Adgl.RollUps
import Mathlib.Order.Bounds.Basic

/-!
# The greatest confidence below a target

A cause is inferred in the partition of its target or from a partition below it. Where the rules
of an image keep the two apart for the events of a run, every cause in the partition of its
target that has causes below it was rolled up, and has their greatest confidence.
-/

namespace Adgl

open Ast (Ruleset)

variable {host : Host} {events : List EventNode} {e e' : Engine}

/-! ### Inferences of an image -/

/-- Every scope is interned under its own key. -/
def ScopeInterner.Keyed (interner : ScopeInterner) : Prop :=
  ∀ key scope, interner.resolve key = some scope → scopeKeyI64 scope = key

theorem ScopeInterner.Keyed.intern {interner : ScopeInterner} (h : interner.Keyed)
    (scope : ScopeId) : (interner.intern scope).Keyed := by
  intro key scope' hresolve
  unfold ScopeInterner.resolve ScopeInterner.intern at hresolve
  by_cases hkey : key = scopeKeyI64 scope
  · rw [hkey, AList.lookup_insert] at hresolve
    rw [hkey, Option.some.inj hresolve]
  · rw [AList.lookup_insert_ne hkey] at hresolve
    exact h key scope' hresolve

/-- One of the events, of this scope, can make a rule of the image infer the cause for the
target. -/
def CanInfer (host : Host) (events : List EventNode) (cause : CauseKind) (target scope : ScopeId) :
    Prop :=
  ∃ rule ∈ host.image.rules, ∃ event ∈ events, event.scope = scope ∧
    ∃ path weight evidence provenanceKey pii,
      .inferCause cause path weight evidence provenanceKey pii ∈ rule.intents ∧
      ∃ (interner : ScopeInterner) (bindings : List Binding), interner.Keyed ∧
        bindings.head? = some (.bound (.event event)) ∧
        (resolveTarget host interner rule path bindings).1 = some target

/-- The rules infer no cause both in the partition of its target and from below it. -/
def InfersApart (host : Host) (events : List EventNode) : Prop :=
  ∀ cause target scope, CanInfer host events cause target target → scope ≠ target →
    scope.scopeType.isSubsumedBy target.scopeType = true → ¬ CanInfer host events cause target scope

theorem CanInfer.mono {more : List EventNode} {cause : CauseKind} {target scope : ScopeId}
    (h : CanInfer host events cause target scope) (hsub : ∀ event ∈ events, event ∈ more) :
    CanInfer host more cause target scope := by
  obtain ⟨rule, hrule, event, hevent, hrest⟩ := h
  exact ⟨rule, hrule, event, hsub event hevent, hrest⟩

/-- Where the causes come from: one that has a provenance, or that is not in the partition of its
target, was inferred there. -/
structure Sourced (host : Host) (events : List EventNode) (e : Engine) : Prop where
  keyed : e.interner.Keyed
  inferred : ∀ cause target scope node, e.cause scope (cause, target) = some node →
    node.provenance ≠ [] ∨ scope ≠ target → CanInfer host events cause target scope

namespace Sourced

theorem new : Sourced host [] .new where
  keyed _ _ h := by cases h
  inferred _ _ _ _ h := by cases h

theorem of_same (h : Sourced host events e) (hkeyed : e'.interner.Keyed)
    (hcause : ∀ scope key, e'.cause scope key = e.cause scope key) : Sourced host events e' where
  keyed := hkeyed
  inferred cause target scope node hnode hsource :=
    h.inferred cause target scope node (hcause scope _ ▸ hnode) hsource

end Sourced

/-- A rule that one of the events has started, or one that infers nothing. -/
def StartedBy (host : Host) (events : List EventNode) (rule : RuleInstance) (anchor : Bound)
    (scope : ScopeId) : Prop :=
  (rule ∈ host.image.rules ∧ ∃ event ∈ events, anchor = .event event ∧ event.scope = scope) ∨
    ¬ rule.Infers

section Effects

variable {fires : RuleInstance → Bound → ScopeId → Prop}

/-- An effect makes at most one scope known. -/
theorem Effect.interner (h : Effect host fires e e') :
    e'.interner = e.interner ∨ ∃ scope, e'.interner = e.interner.intern scope := by
  cases h with
  | report | bind | supersede | action => exact .inl rfl
  | infer =>
      refine .inl ?_
      unfold applyInfer
      simp only
      split
      · rfl
      · split
        · rfl
        · split <;> rfl
  | rollup target =>
      refine .inr ⟨target, ?_⟩
      unfold applyRollup
      simp only
      split
      · rfl
      · split <;> rfl
  | compare =>
      refine .inl ?_
      unfold compareCauses raiseAmbiguity resolveAmbiguity
      simp only
      split
      · split <;> rfl
      · split
        · split <;> rfl
        · rfl
  | problem =>
      refine .inl ?_
      unfold applyEmit
      simp only
      split <;> rfl
  | mark =>
      refine .inl ?_
      unfold applyMark
      simp only
      split <;> rfl

theorem Effect.keyed (h : Effect host fires e e') (hkeyed : e.interner.Keyed) :
    e'.interner.Keyed := by
  obtain hsame | ⟨scope, hintern⟩ := h.interner
  · rw [hsame]
    exact hkeyed
  · rw [hintern]
    exact hkeyed.intern scope

/-- What is written by an inference is inferred by a rule that an event has started; a roll-up
keeps the provenance that the cause has had. -/
theorem Sourced.effect (h : Sourced host events e)
    (heffect : Effect host (StartedBy host events) e e') : Sourced host events e' := by
  have hkeyed := heffect.keyed h.keyed
  obtain hsame | ⟨rule, anchor, scope, cause, path, weight, evidence, key, pii, target, hfires,
    hintent, ⟨hinferred, bindings, hhead, htarget⟩ | hrolled | hsame⟩ := heffect.cases
  · exact h.of_same hkeyed fun scope key => hsame.cause scope key
  · refine ⟨hkeyed, fun cause' target' scope' node hnode hsource => ?_⟩
    obtain ⟨rfl, hkey, -⟩ | ⟨-, hbefore⟩ := hinferred.writes.cases hnode
    · obtain ⟨rfl, rfl⟩ := Prod.mk.inj hkey
      obtain ⟨hrule, event, hevent, rfl, hscope⟩ | hnot := hfires
      · exact ⟨rule, hrule, event, hevent, hscope, path, weight, evidence, key, pii, hintent,
          e.interner, bindings, h.keyed, hhead, htarget⟩
      · exact absurd ⟨_, _, _, _, _, _, hintent⟩ hnot
    · exact h.inferred cause' target' scope' node hbefore hsource
  · refine ⟨hkeyed, fun cause' target' scope' node hnode hsource => ?_⟩
    obtain ⟨rfl, hkey, rfl⟩ | ⟨-, hbefore⟩ := hrolled.writes.cases hnode
    · obtain ⟨rfl, rfl⟩ := Prod.mk.inj hkey
      obtain hprovenance | hne := hsource
      · unfold rolledUpNode at hprovenance
        cases hold : e.cause target' (cause', target') with
        | none =>
            rw [hold] at hprovenance
            exact absurd rfl hprovenance
        | some old =>
            rw [hold] at hprovenance
            exact h.inferred cause' target' target' old hold (.inl hprovenance)
      · exact absurd rfl hne
    · exact h.inferred cause' target' scope' node hbefore hsource
  · exact h.of_same hkeyed fun scope key => hsame.cause scope key

end Effects

namespace Sourced

theorem more (h : Sourced host events e) (event : List EventNode) :
    Sourced host (events ++ event) e where
  keyed := h.keyed
  inferred cause target scope node hnode hsource :=
    (h.inferred cause target scope node hnode hsource).mono fun _ => List.mem_append_left _

theorem noted (h : Sourced host events e) (c : Call) :
    Sourced host (events ++ accepted host e c) (e.noted c) := by
  have hmore := h.more (accepted host e c)
  cases c with
  | ingest event => exact hmore.of_same (h.keyed.intern event.scope) fun _ _ => rfl
  | internScope scope => exact hmore.of_same (h.keyed.intern scope) fun _ _ => rfl
  | advanceWatermark t | advanceWallClock t | finish => exact hmore

theorem phase (hdecides : ∀ rule anchor scope, Cascades host rule anchor scope → ¬ rule.Infers)
    {guard : Guard} (h : Sourced host events e) (hphase : Phase host events guard e e') :
    Sourced host events e' := by
  cases hphase with
  | book hbook =>
      refine h.of_same (hbook.interner ▸ h.keyed) fun scope key => ?_
      exact congrArg (fun store : GraphStore => (store.partitionOf scope).causes.lookup key)
        hbook.store
  | push hevent hpushed => exact h.of_same h.keyed fun _ _ => rfl
  | advance t => exact h.of_same h.keyed fun _ _ => rfl
  | pop => exact h.of_same h.keyed fun _ _ => rfl
  | gc =>
      refine h.of_same h.keyed fun scope key => ?_
      unfold Engine.cause
      rw [part_gcSweep]
      rfl
  | suspend hevent hrule hopen =>
      unfold suspendMatch
      simp only
      split <;> exact h.of_same h.keyed fun _ _ => rfl
  | run run hstarted hanchor =>
      rename_i rule event scope
      have hstarts : StartedBy host events rule (.event event) scope := by
        refine .inl ⟨hstarted.mem, ?_⟩
        cases hstarted with
        | matched hevent | resumed hevent => exact ⟨event, hevent, rfl, rfl⟩
      have heffects : Effects host (StartedBy host events) run.engine
          (runWithin host rule (.event event) scope run).engine :=
        runRule_effects
          (fun rule anchor scope hcascades => .inr (hdecides rule anchor scope hcascades))
          run.budget hstarts run
      exact heffects.invariant (fun _ _ hsourced heffect => hsourced.effect heffect) h

end Sourced

/-- No cause is inferred both in the partition of its target and below it. -/
def Engine.Unmixed (e : Engine) : Prop :=
  ∀ cause target node, e.cause target (cause, target) = some node → node.provenance ≠ [] →
    ∀ scope child, ¬ Child e cause target scope child

/-- The accepted events were ingested. -/
theorem ingested_of_mem_history {calls : List Call} {event : EventNode}
    (h : event ∈ history host calls) : .ingest event ∈ calls := by
  unfold history at h
  generalize Engine.new = e at h
  induction calls generalizing e with
  | nil => cases h
  | cons c calls ih =>
      obtain hnow | hlater := List.mem_append.mp h
      · cases c with
        | ingest event' =>
            change event ∈ (if _ then [] else [event']) at hnow
            split at hnow
            · cases hnow
            · obtain rfl := List.mem_singleton.mp hnow
              exact List.mem_cons_self ..
        | _ => cases hnow
      · exact List.mem_cons_of_mem _ (ih _ hlater)

/-- Where the rules infer no cause both in the partition of its target and from below it, no
reached state holds one that was. -/
theorem unmixed_of_infersApart {catalog : Catalog} {config : VerifyConfig} {ruleset : Ruleset}
    (himage : verifyWithConfig catalog config ruleset = .ok host.image) {calls : List Call}
    (h : InfersApart host (history host calls)) : (runCalls host calls).Unmixed := by
  have hsourced : Sourced host (history host calls) (runCalls host calls) :=
    runCalls_invariant (P := Sourced host) .open .new (fun _ _ c h => h.noted c)
      (fun _ _ _ h hphase => h.phase (fun _ _ _ => Cascades.not_infers himage) hphase)
      (along_open calls)
  intro cause target node hnode hdirect scope child hchild
  exact h cause target scope (hsourced.inferred cause target target node hnode (.inl hdirect))
    hchild.ne hchild.below
    (hsourced.inferred cause target scope child hchild.holds (.inr hchild.ne))

/-- The confidences of a cause in the touched partitions below its target. -/
def Engine.below (e : Engine) (cause : CauseKind) (target : ScopeId) : Set Nat :=
  {value | ∃ scope child, Child e cause target scope child ∧ child.confidence.value = value}

/-- The edges that say that a cause was rolled up from a node. -/
def SubGraph.rollUpsFrom (g : SubGraph) (id : NodeId) : List EvidenceEdge :=
  g.edges.filter fun edge => edge.kind == .rollsUp && edge.src == .node id

theorem Rolled.rollUpsFrom (h : Settled host e) {cause : CauseKind} {target scope : ScopeId}
    {node child : CauseNode} (hnode : e.cause target (cause, target) = some node)
    (hrolled : node.provenance = []) (hchild : Child e cause target scope child) :
    (e.part target).rollUpsFrom child.id = [⟨.rollsUp, .node child.id, node.id⟩] := by
  have hfrom : (e.part target).rollUpsFrom child.id =
      (e.part target).rollUps.filter fun edge => edge.src == .node child.id := by
    unfold SubGraph.rollUpsFrom SubGraph.rollUps
    rw [List.filter_filter]
    exact List.filter_congr fun edge _ => Bool.and_comm _ _
  rw [hfrom]
  refine List.perm_singleton.mp ((List.perm_ext_iff_of_nodup ((h.edges_nodup target).filter _)
    (List.nodup_singleton _)).mpr fun edge => ?_)
  rw [List.mem_filter, List.mem_singleton, beq_iff_eq]
  constructor
  · rintro ⟨hedge, hsrc⟩
    obtain ⟨cause', scope', child', node', hchild', hnode', rfl⟩ := h.edges_from target edge hedge
    have hid : child'.id = child.id := EdgeEndpoint.node.inj hsrc
    obtain ⟨rfl, hkey⟩ := h.ids_inj _ _ _ _ _ _ hchild' hchild.holds hid
    obtain ⟨rfl, -⟩ := Prod.mk.inj hkey
    obtain rfl := Option.some.inj (hnode'.symm.trans hnode)
    rw [hid]
  · rintro rfl
    exact ⟨h.edge cause target node hnode hrolled scope child hchild id, rfl⟩

/-- In every reached state of an accepted image, a cause in the partition of its
target was inferred only there, or it has the greatest confidence of the touched
partitions below, with one edge from each of their causes. -/
theorem rolled_up_greatest {catalog : Catalog} {config : VerifyConfig} {ruleset : Ruleset}
    (himage : verifyWithConfig catalog config ruleset = .ok host.image) (calls : List Call)
    (hunmixed : (runCalls host calls).Unmixed) {cause : CauseKind} {target : ScopeId}
    {node : CauseNode} (hnode : (runCalls host calls).cause target (cause, target) = some node) :
    (node.provenance ≠ [] ∧ (runCalls host calls).below cause target = ∅) ∨
    (IsGreatest ((runCalls host calls).below cause target) node.confidence.value ∧
      ∀ scope child, Child (runCalls host calls) cause target scope child →
        ((runCalls host calls).part target).rollUpsFrom child.id =
          [⟨.rollsUp, .node child.id, node.id⟩]) := by
  have hrun : SettledRun host (history host calls) (runCalls host calls) :=
    runCalls_invariant (P := SettledRun host) .open .new (fun _ _ c h => h.noted c)
      (fun _ _ _ h hphase => h.phase (fun _ _ _ => Cascades.not_infers himage) hphase)
      (along_open calls)
  have hsettled := hrun.settled
  by_cases hrolled : node.provenance = []
  · refine .inr ⟨⟨?_, ?_⟩, fun scope child => hsettled.rollUpsFrom hnode hrolled⟩
    · obtain ⟨scope, child, hchild, heq⟩ := hsettled.attained cause target node hnode hrolled
        (fun _ => id)
      exact ⟨scope, child, hchild, congrArg Confidence.value heq⟩
    · rintro value ⟨scope, child, hchild, rfl⟩
      exact hsettled.upper cause target node hnode hrolled (fun _ => id) scope child hchild
  · refine .inl ⟨hrolled, Set.eq_empty_of_forall_notMem ?_⟩
    rintro value ⟨scope, child, hchild, -⟩
    exact hunmixed cause target node hnode hrolled scope child hchild

/-- A burst of another session on the same path. -/
def otherRoutedBurst : EventNode :=
  .new 2 "tcp.retransmission_burst" ⟨1200⟩ ⟨.session, 8⟩
    [(0, 1400), (4, scopeKeyI64 ⟨.vlan, 3⟩)]

/-- Two sessions of a virtual network with bursts. -/
def routedCalls : List Call :=
  [.internScope ⟨.vlan, 3⟩, .ingest routedBurst, .ingest otherRoutedBurst]

/-- Congestion of a virtual network, inferred from two of its sessions. -/
def routedBursts : Engine := runCalls (seedHost (targetRules "path")) routedCalls

/-- The bursts are of sessions, and what is inferred from them is about the network. -/
theorem routed_target {cause : CauseKind} {target scope : ScopeId}
    (h : CanInfer (seedHost (targetRules "path")) [routedBurst, otherRoutedBurst] cause target
      scope) : target ≠ scope := by
  obtain ⟨rule, hrule, event, hevent, rfl, path, weight, evidence, key, pii, hintent, interner,
    bindings, hkeyed, hhead, htarget⟩ := h
  have hrules : ∀ rule ∈ (seedHost (targetRules "path")).image.rules,
      bindingIndexOf rule "rtx" = some 0 ∧ ∀ intent ∈ rule.intents,
        intent = .inferCause "Congestion" ⟨"rtx.path"⟩ ⟨10, by decide, by decide⟩ []
          ⟨"burst", "Congestion", stableHashU64 "rtx.path"⟩ [] := by decide
  obtain ⟨hindex, hintents⟩ := hrules rule hrule
  cases hintents _ hintent
  have hbound : bindings[0]? = some (.bound (.event event)) := List.head?_eq_getElem? ▸ hhead
  have hrtx : IsIdent "rtx" := by
    unfold IsIdent
    decide
  have htail : ∀ field ∈ some "path", IsIdent field := by
    rintro _ ⟨⟩
    unfold IsIdent
    decide
  have hpath : (⟨"rtx.path"⟩ : MetricPath) = pathOf "rtx" (some "path") := by decide
  rw [hpath, resolveTarget_eq hrtx htail hindex hbound] at htarget
  have hcarried := carried_of_resolveScopePath hrtx htail htarget
  have hfield : (Catalog.seed.resolveMetricPath (.event "tcp.retransmission_burst") "path").map
      Prod.fst = some 4 := by decide
  obtain ⟨entry, hentry, hidx⟩ := Option.map_eq_some_iff.mp hfield
  have hresolved : interner.resolve (scopeKeyI64 ⟨.vlan, 3⟩) = some target := by
    have hevents : ∀ event ∈ [routedBurst, otherRoutedBurst],
        event.eventType = "tcp.retransmission_burst" ∧
          event.field 4 = some (scopeKeyI64 ⟨.vlan, 3⟩) := by decide
    obtain ⟨htype, hkey⟩ := hevents event hevent
    have hpath : ((Catalog.seed.resolveMetricPath (.event event.eventType) "path").bind fun entry =>
        (event.field entry.1).bind interner.resolve) = some target := hcarried
    rwa [htype, hentry, Option.bind_some, hidx, hkey] at hpath
  have hkey := hkeyed _ _ hresolved
  rintro rfl
  have hdiffers : ∀ event ∈ [routedBurst, otherRoutedBurst],
      scopeKeyI64 event.scope ≠ scopeKeyI64 ⟨.vlan, 3⟩ := by decide
  exact hdiffers event hevent hkey

theorem rolled_up_greatest_path : ∃ node,
    routedBursts.cause ⟨.vlan, 3⟩ ("Congestion", ⟨.vlan, 3⟩) = some node ∧
    IsGreatest (routedBursts.below "Congestion" ⟨.vlan, 3⟩) node.confidence.value := by
  have himage : verifyWithConfig .seed .default (targetRules "path") =
      .ok (seedHost (targetRules "path")).image := verify_eq_ok (by decide) (by decide)
  have hapart : InfersApart (seedHost (targetRules "path"))
      (history (seedHost (targetRules "path")) routedCalls) := by
    intro cause target scope hdirect _ _ _
    refine routed_target (hdirect.mono fun event hevent => ?_) rfl
    simpa [routedCalls] using ingested_of_mem_history hevent
  have hunmixed : routedBursts.Unmixed := unmixed_of_infersApart himage hapart
  have hrolled : (routedBursts.cause ⟨.vlan, 3⟩ ("Congestion", ⟨.vlan, 3⟩)).any
      (·.provenance = []) := by decide
  obtain ⟨node, hnode, hnil⟩ := (Option.any_eq_true _ _).mp hrolled
  obtain ⟨hdirect, -⟩ | ⟨hgreatest, -⟩ := rolled_up_greatest himage _ hunmixed hnode
  · exact absurd (of_decide_eq_true hnil) hdirect
  · exact ⟨node, hnode, hgreatest⟩

end Adgl
