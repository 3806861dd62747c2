import NFdl.Adgl.Engine
import Mathlib.Logic.Relation

/-!
# What running a rule can do

Running a rule changes an engine by a sequence of primitive effects: diagnostics
are reported, bindings are resolved, an inference is applied to a partition or
rolled up, ambiguities, problems and actions are recorded. Rings, queues and the
watermark are not touched. All invariants of runs are derived from the effects.
-/

namespace Adgl

/-- The diagnostics that running a rule can report. -/
def EngineDiagnostic.isRule : EngineDiagnostic → Bool
  | .predicateError .. | .unresolvedTarget .. | .unsupportedTargetTail .. | .causeCapacity ..
  | .ruleFiringsExceeded .. | .runtimeCheckWindow .. => true
  | .store .. | .missingAnchor .. | .ruleNotInImage .. | .lateEvidence .. | .lateEventDropped .. =>
      false

/-- The intents of a rule, of all branches and of the body. -/
def RuleInstance.intents (rule : RuleInstance) : List Intent :=
  (match rule.branches with
    | some table => table.thenBody ++ table.elseBody.getD [] ++ table.unknownBody
    | none => []) ++ rule.body

/-- That a decision rule of the image is woken by a cause or a problem. -/
inductive Cascades (host : Host) : RuleInstance → Bound → ScopeId → Prop
  | cause {rule : RuleInstance} {snapshot : CauseSnapshot} {scope : ScopeId}
      (h : rule ∈ host.image.rulesFor (.cause snapshot.kind) scope.scopeType .decision) :
      Cascades host rule (.cause snapshot) scope
  | problem {rule : RuleInstance} {snapshot : ProblemSnapshot} {scope : ScopeId}
      (h : rule ∈ host.image.rulesFor (.problem snapshot.kind) scope.scopeType .decision) :
      Cascades host rule (.problem snapshot) scope

/-- One primitive effect of running rules, all of which meet the condition `fires`. -/
inductive Effect (host : Host) (fires : RuleInstance → Bound → ScopeId → Prop) :
    Engine → Engine → Prop
  | report (e : Engine) {diags : List EngineDiagnostic} (h : ∀ d ∈ diags, d.isRule = true) :
      Effect host fires e (e.report diags)
  | bind (e : Engine) {rule : RuleInstance} {anchor : Bound} {scope : ScopeId}
      (h : fires rule anchor scope) : Effect host fires e (bindRule host rule anchor scope e).2
  | infer (e : Engine) {rule : RuleInstance} {anchor : Bound} {scope : ScopeId} {cause : CauseKind}
      {path : MetricPath} {weight : Weight} {evidence : List Symbol} {provenanceKey : ProvKey}
      {pii : List MetricPath} {target : ScopeId} {bindings : List Binding}
      (endpoints : List EdgeEndpoint) (h : fires rule anchor scope)
      (hintent : .inferCause cause path weight evidence provenanceKey pii ∈ rule.intents)
      (hhead : bindings.head? = some (.bound anchor))
      (htarget : (resolveTarget host e.interner rule path bindings).1 = some target) :
      Effect host fires e (applyInfer host cause target weight
        (runtimeProvKey provenanceKey target anchor.time host.limits.dedupWindow) endpoints
        anchor.time scope e).1
  | rollup (e : Engine) {rule : RuleInstance} {anchor : Bound} {scope : ScopeId} {cause : CauseKind}
      {path : MetricPath} {weight : Weight} {evidence : List Symbol} {provenanceKey : ProvKey}
      {pii : List MetricPath} (target : ScopeId) (h : fires rule anchor scope)
      (hintent : .inferCause cause path weight evidence provenanceKey pii ∈ rule.intents) :
      Effect host fires e (applyRollup host cause target scope e).1
  | compare (e : Engine) (snapshot : CauseSnapshot) (scope : ScopeId) (other : CauseKind) :
      Effect host fires e (compareCauses host snapshot scope e other)
  | problem (e : Engine) (rule : RuleInstance) (problem : ProblemKind) (target : ScopeId)
      (severity : Severity) (evidence : List NodeId) (sarifId : SarifId) (scope : ScopeId) :
      Effect host fires e (applyEmit host rule problem target severity evidence sarifId scope e).1
  | supersede (e : Engine) (problem : ProblemKind) (target scope : ScopeId) :
      Effect host fires e (applySupersede problem target scope e)
  | mark (e : Engine) (pair : CauseKind × CauseKind) (target scope : ScopeId) :
      Effect host fires e (applyMark pair target scope e)
  | action (e : Engine) (intent : ActionIntent) : Effect host fires e (e.emit host intent)

/-- A sequence of effects. -/
abbrev Effects (host : Host) (fires : RuleInstance → Bound → ScopeId → Prop) :
    Engine → Engine → Prop :=
  Relation.ReflTransGen (Effect host fires)

variable {host : Host} {interner : ScopeInterner} {fires : RuleInstance → Bound → ScopeId → Prop}

/-! ### Diagnostics of the correlation -/

section Diagnostics

theorem evalPred_isRule {rule : RuleInstance} {pred : Predicate} {bindings : List Binding}
    {scope : ScopeId} :
    ∀ d ∈ (evalPred host interner rule pred bindings scope).2, d.isRule = true := by
  unfold evalPred
  split
  · simp
  · simp [EngineDiagnostic.isRule]

theorem resolveScopePathFromBound_isRule {rule : RuleInstance} {path : MetricPath} {name : String}
    {bound : Bound} :
    ∀ d ∈ (resolveScopePathFromBound host interner rule path name bound).2, d.isRule = true := by
  intro d hd
  unfold resolveScopePathFromBound at hd
  simp only at hd
  repeat' split at hd
  all_goals first
    | exact absurd hd (List.not_mem_nil)
    | exact List.mem_singleton.mp hd ▸ rfl

theorem resolveTarget_isRule {rule : RuleInstance} {path : MetricPath} {bindings : List Binding} :
    ∀ d ∈ (resolveTarget host interner rule path bindings).2, d.isRule = true := by
  unfold resolveTarget
  split
  · simp
  · split
    · simp
    · exact resolveScopePathFromBound_isRule

theorem resolveTopoArg_isRule {spec : CorrelateSpec} {rule : RuleInstance}
    {bindings : List Binding} {candidate : Bound} {path : MetricPath} :
    ∀ d ∈ (resolveTopoArg host interner spec rule bindings candidate path).2, d.isRule = true := by
  unfold resolveTopoArg
  split
  · simp
  · split
    · exact resolveScopePathFromBound_isRule
    · split
      · simp
      · exact resolveScopePathFromBound_isRule

theorem evalTopo_isRule {spec : CorrelateSpec} {func : Option TopoFunc} {rule : RuleInstance}
    {bindings : List Binding} {candidate : Bound} :
    ∀ d ∈ (evalTopo host interner spec func rule bindings candidate).2, d.isRule = true := by
  have happend : ∀ {a b : List EngineDiagnostic}, (∀ d ∈ a, d.isRule = true) →
      (∀ d ∈ b, d.isRule = true) → ∀ d ∈ a ++ b, d.isRule = true := fun ha hb d hd =>
    (List.mem_append.mp hd).elim (ha d) (hb d)
  unfold evalTopo
  split
  · simp only
    split <;> exact happend resolveTopoArg_isRule resolveTopoArg_isRule
  · simp

theorem scanCandidates_isRule {topo : Bound → T3 × List EngineDiagnostic} {minMatch : Nat}
    (htopo : ∀ b, ∀ d ∈ (topo b).2, d.isRule = true) {cands : List Bound} {scan : Scan}
    (hscan : ∀ d ∈ scan.diagnostics, d.isRule = true) :
    ∀ d ∈ (scanCandidates topo minMatch cands scan).diagnostics, d.isRule = true := by
  induction cands generalizing scan with
  | nil => exact hscan
  | cons cand rest ih =>
      have hnext : ∀ d ∈ scan.diagnostics ++ (topo cand).2, d.isRule = true := fun d hd =>
        (List.mem_append.mp hd).elim (hscan d) (htopo cand d)
      unfold scanCandidates
      split
      · rename_i diags heq
        rw [heq] at hnext
        simp only
        split
        · exact hnext
        · exact ih hnext
      · rename_i diags heq
        rw [heq] at hnext
        exact ih hnext
      · rename_i diags heq
        rw [heq] at hnext
        exact ih hnext

theorem resolveCorrelate_isRule {store : GraphStore} {rule : RuleInstance} {anchor : Bound}
    {scope : ScopeId} {bindings : List Binding} {spec : CorrelateSpec} :
    ∀ d ∈ (resolveCorrelate host interner store rule anchor scope bindings spec).2,
      d.isRule = true := by
  unfold resolveCorrelate
  split
  · simp [EngineDiagnostic.isRule]
  · refine scanCandidates_isRule (fun _ => evalTopo_isRule) ?_
    simp only
    split
    · simp
    · simp [EngineDiagnostic.isRule]

theorem resolveBindings_isRule {store : GraphStore} {rule : RuleInstance} {anchor : Bound}
    {scope : ScopeId} :
    ∀ d ∈ (resolveBindings host interner store rule anchor scope).2, d.isRule = true := by
  have hfold : ∀ (specs : List CorrelateSpec) (acc : List Binding × List EngineDiagnostic),
      (∀ d ∈ acc.2, d.isRule = true) → ∀ d ∈ (specs.foldl (fun acc spec =>
        let resolved := resolveCorrelate host interner store rule anchor scope acc.1 spec
        (acc.1 ++ [resolved.1], acc.2 ++ resolved.2)) acc).2, d.isRule = true := by
    intro specs
    induction specs with
    | nil => exact fun acc hacc => hacc
    | cons spec rest ih =>
        intro acc hacc
        refine ih _ fun d hd => ?_
        exact (List.mem_append.mp hd).elim (hacc d) (resolveCorrelate_isRule d)
  exact hfold _ _ (by simp)

end Diagnostics

/-! ### Rules run by effects -/

section Rules

variable {fire : Fire}

/-- What running a decision rule does is a sequence of effects. -/
def FiresByEffects (host : Host) (fires : RuleInstance → Bound → ScopeId → Prop) (fire : Fire) :
    Prop :=
  ∀ rule anchor scope run, Cascades host rule anchor scope →
    Effects host fires run.engine (fire rule anchor scope run).engine

theorem report_effects (run : Run) {diags : List EngineDiagnostic}
    (h : ∀ d ∈ diags, d.isRule = true) :
    Effects host fires run.engine (run.report diags).engine :=
  .single (.report _ h)

theorem fireIfMatched_effects (hfire : FiresByEffects host fires fire) {anchor : Bound}
    {scope : ScopeId} {rule : RuleInstance} (hrule : Cascades host rule anchor scope) (run : Run) :
    Effects host fires run.engine (fireIfMatched host fire anchor scope run rule).engine := by
  let matched := evalPred host run.engine.interner rule rule.anchor.predicate [.bound anchor] scope
  have hmatched : ∀ d ∈ matched.2, d.isRule = true := evalPred_isRule
  refine (report_effects run hmatched).trans ?_
  unfold fireIfMatched
  simp only
  split
  · exact hfire _ _ _ _ hrule
  · exact .refl

theorem fireAll_effects (hfire : FiresByEffects host fires fire) {anchor : Bound} {scope : ScopeId}
    {rules : List RuleInstance} (hrules : ∀ rule ∈ rules, Cascades host rule anchor scope)
    (run : Run) :
    Effects host fires run.engine (rules.foldl (fireIfMatched host fire anchor scope) run).engine := by
  induction rules generalizing run with
  | nil => exact .refl
  | cons rule rest ih =>
      refine (fireIfMatched_effects hfire (hrules rule (List.mem_cons_self ..)) run).trans ?_
      exact ih (fun r hr => hrules r (List.mem_cons_of_mem _ hr)) _

theorem synthesizeAmbiguity_effects (snapshot : CauseSnapshot) (scope : ScopeId) (e : Engine) :
    Effects host fires e (synthesizeAmbiguity host snapshot scope e) := by
  unfold synthesizeAmbiguity
  simp only
  generalize (effectiveExclusivityGroups host).flatMap _ = others
  induction others generalizing e with
  | nil => exact .refl
  | cons other rest ih => exact .head (.compare e snapshot scope other) (ih _)

theorem onConfidenceMutation_effects (hfire : FiresByEffects host fires fire)
    (snapshot : CauseSnapshot) (scope : ScopeId) (run : Run) :
    Effects host fires run.engine (onConfidenceMutation host fire snapshot scope run).engine :=
  (fireAll_effects hfire (fun _ h => .cause h) run).trans (synthesizeAmbiguity_effects _ _ _)

theorem onProblemEmission_effects (hfire : FiresByEffects host fires fire)
    (snapshot : ProblemSnapshot) (scope : ScopeId) (run : Run) :
    Effects host fires run.engine (onProblemEmission host fire snapshot scope run).engine :=
  fireAll_effects hfire (fun _ h => .problem h) run

theorem followUp_effects (hfire : FiresByEffects host fires fire) (scope : ScopeId)
    {applied : Engine × Option CauseSnapshot} {run : Run}
    (happlied : Effects host fires run.engine applied.1) :
    Effects host fires run.engine (followUp host fire scope applied run).engine := by
  unfold followUp
  simp only
  split
  · exact happlied.trans (onConfidenceMutation_effects hfire _ scope ⟨applied.1, run.budget⟩)
  · exact happlied

theorem withTarget_effects {rule : RuleInstance} {path : MetricPath} {bindings : List Binding}
    {run : Run} {k : ScopeId → Run → Run}
    (hk : ∀ target run, (resolveTarget host run.engine.interner rule path bindings).1 = some target →
      Effects host fires run.engine (k target run).engine) :
    Effects host fires run.engine (withTarget host rule path bindings run k).engine := by
  let resolved := resolveTarget host run.engine.interner rule path bindings
  have hresolved : ∀ d ∈ resolved.2, d.isRule = true := resolveTarget_isRule
  refine (report_effects run hresolved).trans ?_
  unfold withTarget
  simp only
  split
  · rename_i htarget
    exact hk _ _ htarget
  · exact report_effects _ (by simp [EngineDiagnostic.isRule])

variable {rule : RuleInstance} {anchor : Bound} {scope : ScopeId}

theorem execInfer_effects (hfire : FiresByEffects host fires fire) (h : fires rule anchor scope)
    {cause : CauseKind} {path : MetricPath} {weight : Weight} {evidence : List Symbol}
    {provenanceKey : ProvKey} {pii : List MetricPath}
    (hintent : .inferCause cause path weight evidence provenanceKey pii ∈ rule.intents)
    {bindings : List Binding} (hhead : bindings.head? = some (.bound anchor)) (run : Run) :
    Effects host fires run.engine (execInfer host fire rule cause path weight evidence provenanceKey
      bindings anchor scope run).engine := by
  refine withTarget_effects fun target run htarget => ?_
  have hinfer := followUp_effects hfire scope (.single (.infer run.engine
    (evidenceEndpoints rule evidence bindings) h hintent hhead htarget))
  simp only
  split
  · exact hinfer.trans (followUp_effects hfire _ (.single (.rollup _ target h hintent)))
  · exact hinfer

theorem execEmitProblem_effects (hfire : FiresByEffects host fires fire) (problem : ProblemKind)
    (targetPath : Option MetricPath) (severity : Severity) (evidence : List Symbol)
    (sarifId : SarifId) (bindings : List Binding) (run : Run) :
    Effects host fires run.engine (execEmitProblem host fire rule problem targetPath severity
      evidence sarifId bindings scope run).engine := by
  have hemit : ∀ target (run : Run), Effects host fires run.engine (emitProblemAt host fire rule
      problem severity evidence sarifId bindings scope target run).engine := by
    intro target run
    let applied := applyEmit host rule problem target severity
      (evidenceNodes rule evidence bindings) sarifId scope run.engine
    have hproblem : Effects host fires run.engine applied.1 :=
      .single (.problem run.engine rule problem target severity
        (evidenceNodes rule evidence bindings) sarifId scope)
    unfold emitProblemAt
    simp only
    split
    · exact hproblem.trans (onProblemEmission_effects hfire _ scope ⟨applied.1, run.budget⟩)
    · exact hproblem
  cases targetPath with
  | some path =>
      rw [execEmitProblem_path]
      exact withTarget_effects fun target run _ => hemit target run
  | none =>
      rw [execEmitProblem_scope]
      exact hemit scope run

theorem execAction_effects (kind : ActionKind) (arg : Option Symbol)
    (targetPath : Option MetricPath) (reason : Option String) (evidence : List Symbol)
    (bindings : List Binding) (run : Run) :
    Effects host fires run.engine
      (execAction host rule kind arg targetPath reason evidence bindings run).engine := by
  cases targetPath with
  | some path => exact (report_effects run resolveTarget_isRule).trans (.single (.action _ _))
  | none =>
      have hnone : ∀ d ∈ ([] : List EngineDiagnostic), d.isRule = true :=
        fun d hd => absurd hd List.not_mem_nil
      exact (report_effects run hnone).trans (.single (.action _ _))

theorem execSupersede_effects (problem : ProblemKind) (path : MetricPath) (bindings : List Binding)
    (run : Run) :
    Effects host fires run.engine (execSupersede host rule problem path bindings scope run).engine :=
  withTarget_effects fun target _ _ => .single (.supersede _ problem target scope)

theorem execMarkAmbiguous_effects (causes : CauseKind × CauseKind) (path : MetricPath)
    (bindings : List Binding) (run : Run) :
    Effects host fires run.engine
      (execMarkAmbiguous host rule causes path bindings scope run).engine :=
  withTarget_effects fun target _ _ =>
    .head (.mark _ (orderedCauses causes.1 causes.2) target scope) (.single (.action _ _))

theorem execIntent_effects (hfire : FiresByEffects host fires fire) (h : fires rule anchor scope)
    {bindings : List Binding} (hhead : bindings.head? = some (.bound anchor)) (run : Run)
    {intent : Intent} (hintent : intent ∈ rule.intents) :
    Effects host fires run.engine
      (execIntent host fire rule bindings anchor scope run intent).engine := by
  cases intent with
  | inferCause cause target weight evidence provenanceKey pii =>
      exact execInfer_effects hfire h hintent hhead run
  | emitProblem problem target severity evidence sarifId pii =>
      exact execEmitProblem_effects hfire ..
  | emitAction kind arg target reason evidence => exact execAction_effects ..
  | supersedeProblem problem target => exact execSupersede_effects ..
  | markAmbiguous causes target => exact execMarkAmbiguous_effects ..

theorem execIntents_effects (hfire : FiresByEffects host fires fire) (h : fires rule anchor scope)
    {intents : List Intent} (hintents : ∀ intent ∈ intents, intent ∈ rule.intents)
    {bindings : List Binding} (hhead : bindings.head? = some (.bound anchor)) (run : Run) :
    Effects host fires run.engine
      (execIntents host fire intents rule bindings anchor scope run).engine := by
  unfold execIntents
  induction intents generalizing run with
  | nil => exact .refl
  | cons intent rest ih =>
      refine (execIntent_effects hfire h hhead run (hintents _ (List.mem_cons_self ..))).trans ?_
      exact ih (fun i hi => hintents i (List.mem_cons_of_mem _ hi)) _

theorem mem_intents_of_selected {truth : Option T3} {intent : Intent}
    (h : intent ∈ selectedIntents rule truth) : intent ∈ rule.intents := by
  unfold selectedIntents at h
  unfold RuleInstance.intents
  cases hbranches : rule.branches with
  | none =>
      rw [hbranches] at h
      exact h
  | some table =>
      rw [hbranches] at h
      simp only [List.mem_append]
      rcases truth with _ | (_ | _ | _)
      · exact absurd h List.not_mem_nil
      · exact .inl (.inl (.inl h))
      · exact .inl (.inl (.inr h))
      · exact .inl (.inr h)

theorem branchTruth_isRule {bindings : List Binding} :
    ∀ d ∈ (branchTruth host interner rule bindings scope).2, d.isRule = true := by
  unfold branchTruth
  split
  · exact evalPred_isRule
  · simp

/-- The anchor is the first binding of a rule. -/
theorem head_resolveBindings (interner : ScopeInterner) (store : GraphStore) :
    (resolveBindings host interner store rule anchor scope).1.head? = some (.bound anchor) := by
  have hfold : ∀ (specs : List CorrelateSpec) (acc : List Binding × List EngineDiagnostic),
      acc.1.head? = some (.bound anchor) → (specs.foldl (fun acc spec =>
        let resolved := resolveCorrelate host interner store rule anchor scope acc.1 spec
        (acc.1 ++ [resolved.1], acc.2 ++ resolved.2)) acc).1.head? = some (.bound anchor) := by
    intro specs
    induction specs with
    | nil => exact fun _ h => h
    | cons spec specs ih =>
        intro acc h
        refine ih _ ?_
        rw [List.head?_append, h]
        rfl
  exact hfold rule.correlates _ rfl

theorem fireRule_effects (hfire : FiresByEffects host fires fire) (h : fires rule anchor scope)
    (run : Run) :
    Effects host fires run.engine (fireRule host fire rule anchor scope run).engine := by
  let bound := bindRule host rule anchor scope run.engine
  let truth := branchTruth host bound.2.interner rule bound.1 scope
  have htruth : ∀ d ∈ truth.2, d.isRule = true := branchTruth_isRule
  refine .head (.bind run.engine h) (.head (.report bound.2 htruth) ?_)
  exact execIntents_effects hfire h (fun _ => mem_intents_of_selected)
    (head_resolveBindings run.engine.interner run.engine.store)
    ⟨bound.2.report truth.2, run.budget - 1⟩

/-- Running a rule, with all that it wakes, is a sequence of effects of this rule
and of decision rules. -/
theorem runRule_effects (hcascades : ∀ rule anchor scope, Cascades host rule anchor scope →
      fires rule anchor scope) (depth : Nat) (h : fires rule anchor scope) (run : Run) :
    Effects host fires run.engine (runRule host depth rule anchor scope run).engine := by
  have hexceeded : ∀ (scope : ScopeId) (run : Run), Effects host fires run.engine
      (run.report [.ruleFiringsExceeded scope]).engine := fun scope run =>
    report_effects run (by simp [EngineDiagnostic.isRule])
  induction depth generalizing rule anchor scope run with
  | zero => exact hexceeded scope run
  | succ depth ih =>
      unfold runRule
      split
      · exact hexceeded scope run
      · exact fireRule_effects (fun rule anchor scope run hc => ih (hcascades _ _ _ hc) run) h run

end Rules

/-! ### What effects leave as it is -/

/-- The part of an engine that running rules never changes. -/
structure Outside where
  rings : Table ScopeId RingBuffer
  pending : Table ScopeId WaitQueue
  watermark : EventTime
  sources : Table ScopeId SourceWm
  wallClock : EventTime
  lastEventTime : Option EventTime
  finished : Bool
  suspended : Nat
  resumed : Nat
  lateSideOutput : List EventNode
  suspensions : List Suspension

def Engine.outside (e : Engine) : Outside where
  rings := e.store.rings
  pending := e.store.pending
  watermark := e.store.watermark
  sources := e.sources
  wallClock := e.wallClock
  lastEventTime := e.lastEventTime
  finished := e.finished
  suspended := e.suspended
  resumed := e.resumed
  lateSideOutput := e.lateSideOutput
  suspensions := e.trace.suspensions

/-- The correlates that were absent in a resolution. -/
def Resolution.absences (r : Resolution) : List ResolvedAbsent :=
  absentCorrelates r.rule r.bindings r.anchor r.scope

/-- How an engine goes on: rule diagnostics are appended, and resolutions of rules
that meet the condition, at the current watermark. -/
structure Goes (fires : RuleInstance → Bound → ScopeId → Prop) (e e' : Engine) : Prop where
  outside : e'.outside = e.outside
  diagnostics : ∃ ds, e'.diagnostics = e.diagnostics ++ ds ∧ ∀ d ∈ ds, d.isRule = true
  resolutions : ∃ rs, e'.trace.resolutions = e.trace.resolutions ++ rs ∧
    e'.resolvedAbsent = e.resolvedAbsent ++ rs.flatMap Resolution.absences ∧
    ∀ r ∈ rs, fires r.rule r.anchor r.scope ∧ r.wm = e.store.watermark

namespace Goes

variable {e e' e'' : Engine}

theorem refl (e : Engine) : Goes fires e e :=
  ⟨rfl, ⟨[], by simp, by simp⟩, ⟨[], by simp, by simp, by simp⟩⟩

theorem watermark (h : Goes fires e e') : e'.store.watermark = e.store.watermark :=
  congrArg Outside.watermark h.outside

theorem rings (h : Goes fires e e') : e'.store.rings = e.store.rings :=
  congrArg Outside.rings h.outside

theorem pending (h : Goes fires e e') : e'.store.pending = e.store.pending :=
  congrArg Outside.pending h.outside

theorem trans (h : Goes fires e e') (h' : Goes fires e' e'') : Goes fires e e'' := by
  obtain ⟨ds, hds, hrule⟩ := h.diagnostics
  obtain ⟨ds', hds', hrule'⟩ := h'.diagnostics
  obtain ⟨rs, hrs, habs, hfires⟩ := h.resolutions
  obtain ⟨rs', hrs', habs', hfires'⟩ := h'.resolutions
  refine ⟨h'.outside.trans h.outside, ⟨ds ++ ds', ?_, ?_⟩, ⟨rs ++ rs', ?_, ?_, ?_⟩⟩
  · rw [hds', hds, List.append_assoc]
  · exact fun d hd => (List.mem_append.mp hd).elim (hrule d) (hrule' d)
  · rw [hrs', hrs, List.append_assoc]
  · rw [habs', habs, List.append_assoc, List.flatMap_append]
  · intro r hr
    obtain hr | hr := List.mem_append.mp hr
    · exact hfires r hr
    · exact ⟨(hfires' r hr).1, (hfires' r hr).2.trans h.watermark⟩

/-- A change of the partitions, identifiers and the log of the sink, with rule
diagnostics. -/
theorem of_inside (houtside : e'.outside = e.outside)
    (hdiag : ∃ ds, e'.diagnostics = e.diagnostics ++ ds ∧ ∀ d ∈ ds, d.isRule = true)
    (hres : e'.trace.resolutions = e.trace.resolutions)
    (habs : e'.resolvedAbsent = e.resolvedAbsent) : Goes fires e e' :=
  ⟨houtside, hdiag, ⟨[], by simpa using hres, by simpa using habs, by simp⟩⟩

/-- The same with no diagnostics. -/
theorem of_silent (houtside : e'.outside = e.outside) (hdiag : e'.diagnostics = e.diagnostics)
    (hres : e'.trace.resolutions = e.trace.resolutions)
    (habs : e'.resolvedAbsent = e.resolvedAbsent) : Goes fires e e' :=
  of_inside houtside ⟨[], by simpa using hdiag, by simp⟩ hres habs

end Goes

section Frame

variable (e : Engine)

theorem applyInfer_goes (cause : CauseKind) (target : ScopeId) (weight : Weight)
    (key : RuntimeProvKey) (endpoints : List EdgeEndpoint) (anchorTime : EventTime)
    (scope : ScopeId) :
    Goes fires e (applyInfer host cause target weight key endpoints anchorTime scope e).1 := by
  unfold applyInfer
  simp only
  split
  · exact .of_inside rfl ⟨[.causeCapacity scope], rfl, by simp [EngineDiagnostic.isRule]⟩ rfl rfl
  · split
    · exact .of_silent rfl rfl rfl rfl
    · split <;> exact .of_silent rfl rfl rfl rfl

theorem applyRollup_goes (cause : CauseKind) (target childScope : ScopeId) :
    Goes fires e (applyRollup host cause target childScope e).1 := by
  unfold applyRollup
  simp only
  split
  · exact .of_inside rfl ⟨[.causeCapacity target], rfl, by simp [EngineDiagnostic.isRule]⟩ rfl rfl
  · split <;> exact .of_silent rfl rfl rfl rfl

theorem compareCauses_goes (snapshot : CauseSnapshot) (scope : ScopeId) (other : CauseKind) :
    Goes fires e (compareCauses host snapshot scope e other) := by
  unfold compareCauses raiseAmbiguity resolveAmbiguity
  simp only
  split
  · split <;> exact .of_silent rfl rfl rfl rfl
  · split
    · split <;> exact .of_silent rfl rfl rfl rfl
    · exact .refl e

theorem applyEmit_goes (rule : RuleInstance) (problem : ProblemKind) (target : ScopeId)
    (severity : Severity) (evidence : List NodeId) (sarifId : SarifId) (scope : ScopeId) :
    Goes fires e (applyEmit host rule problem target severity evidence sarifId scope e).1 := by
  unfold applyEmit
  simp only
  split <;> exact .of_silent rfl rfl rfl rfl

theorem applyMark_goes (pair : CauseKind × CauseKind) (target scope : ScopeId) :
    Goes fires e (applyMark pair target scope e) := by
  unfold applyMark
  simp only
  split <;> exact .of_silent rfl rfl rfl rfl

theorem bindRule_goes {rule : RuleInstance} {anchor : Bound} {scope : ScopeId}
    (h : fires rule anchor scope) : Goes fires e (bindRule host rule anchor scope e).2 := by
  let resolved := resolveBindings host e.interner e.store rule anchor scope
  refine ⟨rfl, ⟨resolved.2, rfl, resolveBindings_isRule⟩,
    ⟨[⟨rule, anchor, scope, resolved.1, e.store.watermark⟩], rfl, ?_, ?_⟩⟩
  · exact congrArg (e.resolvedAbsent ++ ·) (List.append_nil _).symm
  · intro r hr
    obtain rfl := List.mem_singleton.mp hr
    exact ⟨h, rfl⟩

variable {e}

theorem Effect.goes {e' : Engine} (h : Effect host fires e e') : Goes fires e e' := by
  cases h with
  | report hdiags => exact .of_inside rfl ⟨_, rfl, hdiags⟩ rfl rfl
  | bind hfires => exact bindRule_goes e hfires
  | infer => exact applyInfer_goes e ..
  | rollup => exact applyRollup_goes e ..
  | compare => exact compareCauses_goes e ..
  | problem => exact applyEmit_goes e ..
  | supersede => exact .of_silent rfl rfl rfl rfl
  | mark => exact applyMark_goes e ..
  | action => exact .of_silent rfl rfl rfl rfl

theorem Effects.goes {e' : Engine} (h : Effects host fires e e') : Goes fires e e' := by
  induction h with
  | refl => exact .refl e
  | tail _ heffect ih => exact ih.trans heffect.goes

/-- What every effect preserves is preserved by running rules. -/
theorem Effects.invariant {P : Engine → Prop} (hstep : ∀ e e', P e → Effect host fires e e' → P e')
    {e' : Engine} (h : Effects host fires e e') (he : P e) : P e' := by
  induction h with
  | refl => exact he
  | tail _ heffect ih => exact hstep _ _ ih heffect

end Frame

end Adgl
