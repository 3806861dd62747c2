import NFdl.Adgl.PartitionSteps

/-!
# Agreement of two ways to run rules

What a rule does depends on how the rules that it wakes are run. Two ways to run them
that agree on the runs of a course have the same results, and the runs stay on the
course.
-/

namespace Adgl

variable {host : Host}

/-- A change of the engine by which no body of a rule is executed. -/
structure Between (host : Host) (e e' : Engine) : Prop where
  goes : Goes (fun _ _ _ => False) e e'
  steps : PartitionSteps host e e'

theorem Between.of_effects {e e' : Engine} (h : Effects host (fun _ _ _ => False) e e') :
    Between host e e' :=
  ⟨h.goes, h.steps⟩

theorem Between.of_effect {e e' : Engine} (h : Effect host (fun _ _ _ => False) e e') :
    Between host e e' :=
  .of_effects (.single h)

theorem Between.report (e : Engine) {diags : List EngineDiagnostic}
    (h : ∀ d ∈ diags, d.isRule = true) : Between host e (e.report diags) :=
  .of_effect (.report e h)

/-- The runs that are looked at, and how one of them leads to another. -/
structure Course (host : Host) where
  Admits : Run → Prop
  Leads : Run → Run → Prop
  refl : ∀ run, Leads run run
  trans : ∀ {run run' run''}, Leads run run' → Leads run' run'' → Leads run run''
  admits : ∀ {run run'}, Admits run → Leads run run' → Admits run'
  between : ∀ {run run'}, Between host run.engine run'.engine → run'.budget = run.budget →
    Leads run run'

namespace Course

variable {C : Course host} {run run' x y x' y' : Run} {fire fire' : Fire}

/-- Two results of a run are the same, and the run leads to them. -/
structure Agree (C : Course host) (run x y : Run) : Prop where
  eq : x = y
  leads : C.Leads run x

/-- Two ways to run rules agree on the runs of the course. -/
def AgreeOn (C : Course host) (fire fire' : Fire) : Prop :=
  ∀ rule anchor scope run, C.Admits run →
    C.Agree run (fire rule anchor scope run) (fire' rule anchor scope run)

namespace Agree

theorem refl (C : Course host) (run : Run) : C.Agree run run run := ⟨rfl, C.refl run⟩

/-- A change of the engine by which no body is executed. -/
theorem between (C : Course host) (h : Between host run.engine run'.engine)
    (hbudget : run'.budget = run.budget) : C.Agree run run' run' :=
  ⟨rfl, C.between h hbudget⟩

theorem trans (h : C.Agree run x y) (h' : C.Agree x x' y') : C.Agree run x' y' :=
  ⟨h'.eq, C.trans h.leads h'.leads⟩

theorem admits (h : C.Agree run x y) (hrun : C.Admits run) : C.Admits x :=
  C.admits hrun h.leads

/-- Along a list, every step of which agrees. -/
theorem foldl {α : Type} {f f' : Run → α → Run} {as : List α}
    (hstep : ∀ a ∈ as, ∀ run, C.Admits run → C.Agree run (f run a) (f' run a))
    (hrun : C.Admits run) : C.Agree run (as.foldl f run) (as.foldl f' run) := by
  induction as generalizing run with
  | nil => exact .refl C run
  | cons a rest ih =>
      have hfirst := hstep a (List.mem_cons_self ..) run hrun
      have hrest := ih (fun b hb => hstep b (List.mem_cons_of_mem _ hb)) (hfirst.admits hrun)
      rw [List.foldl_cons, List.foldl_cons, ← hfirst.eq]
      exact hfirst.trans hrest

end Agree

section Rules

variable (hfire : C.AgreeOn fire fire') (hrun : C.Admits run)

theorem report_agree (C : Course host) (run : Run) {diags : List EngineDiagnostic}
    (h : ∀ d ∈ diags, d.isRule = true) : C.Agree run (run.report diags) (run.report diags) :=
  .between C (.report _ h) rfl

include hfire hrun

theorem fireIfMatched_agree (anchor : Bound) (scope : ScopeId) (rule : RuleInstance) :
    C.Agree run (fireIfMatched host fire anchor scope run rule)
      (fireIfMatched host fire' anchor scope run rule) := by
  let matched := evalPred host run.engine.interner rule rule.anchor.predicate [.bound anchor] scope
  have hreport : C.Agree run (run.report matched.2) (run.report matched.2) :=
    report_agree C run evalPred_isRule
  unfold fireIfMatched
  simp only
  split
  · exact hreport.trans (hfire rule anchor scope _ (hreport.admits hrun))
  · exact hreport

theorem fireAll_agree (anchor : Bound) (scope : ScopeId) (rules : List RuleInstance) :
    C.Agree run (rules.foldl (fireIfMatched host fire anchor scope) run)
      (rules.foldl (fireIfMatched host fire' anchor scope) run) :=
  .foldl (fun rule _ _ hrun => fireIfMatched_agree hfire hrun anchor scope rule) hrun

theorem onProblemEmission_agree (snapshot : ProblemSnapshot) (scope : ScopeId) :
    C.Agree run (onProblemEmission host fire snapshot scope run)
      (onProblemEmission host fire' snapshot scope run) :=
  fireAll_agree hfire hrun _ scope _

theorem onConfidenceMutation_agree (snapshot : CauseSnapshot) (scope : ScopeId) :
    C.Agree run (onConfidenceMutation host fire snapshot scope run)
      (onConfidenceMutation host fire' snapshot scope run) := by
  have hfired := fireAll_agree hfire hrun (.cause snapshot) scope
    (host.image.rulesFor (.cause snapshot.kind) scope.scopeType .decision)
  unfold onConfidenceMutation
  simp only
  rw [← hfired.eq]
  exact hfired.trans (.between C (.of_effects (synthesizeAmbiguity_effects snapshot scope _)) rfl)

theorem followUp_agree (scope : ScopeId) {applied : Engine × Option CauseSnapshot}
    (happlied : Between host run.engine applied.1) :
    C.Agree run (followUp host fire scope applied run)
      (followUp host fire' scope applied run) := by
  have hchanged : C.Agree run ⟨applied.1, run.budget⟩ ⟨applied.1, run.budget⟩ :=
    .between C happlied rfl
  unfold followUp
  simp only
  split
  · exact hchanged.trans (onConfidenceMutation_agree hfire (hchanged.admits hrun) _ scope)
  · exact hchanged

theorem rollupCauseToParent_agree (cause : CauseKind) (target childScope : ScopeId) :
    C.Agree run (rollupCauseToParent host fire cause target childScope run)
      (rollupCauseToParent host fire' cause target childScope run) :=
  followUp_agree hfire hrun target
    ⟨applyRollup_goes run.engine cause target childScope, .single (applyRollup_step host _ ..)⟩

omit hfire in
theorem withTarget_agree (rule : RuleInstance) (path : MetricPath) (bindings : List Binding)
    {k k' : ScopeId → Run → Run}
    (hk : ∀ target run, C.Admits run → C.Agree run (k target run) (k' target run)) :
    C.Agree run (withTarget host rule path bindings run k)
      (withTarget host rule path bindings run k') := by
  let resolved := resolveTarget host run.engine.interner rule path bindings
  have hreport : C.Agree run (run.report resolved.2) (run.report resolved.2) :=
    report_agree C run resolveTarget_isRule
  unfold withTarget
  simp only
  split
  · exact hreport.trans (hk _ _ (hreport.admits hrun))
  · exact hreport.trans (report_agree C _ (by simp [EngineDiagnostic.isRule]))

theorem execIntent_agree (rule : RuleInstance) (bindings : List Binding) (anchor : Bound)
    (scope : ScopeId) (intent : Intent) :
    C.Agree run (execIntent host fire rule bindings anchor scope run intent)
      (execIntent host fire' rule bindings anchor scope run intent) := by
  cases intent with
  | inferCause cause path weight evidence provenanceKey pii =>
      simp only [execIntent]
      unfold execInfer
      refine withTarget_agree hrun rule path bindings fun target run hrun => ?_
      have hinfer := followUp_agree hfire hrun scope
        ⟨applyInfer_goes run.engine cause target weight
          (runtimeProvKey provenanceKey target anchor.time host.limits.dedupWindow)
          (evidenceEndpoints rule evidence bindings) anchor.time scope,
          .single (applyInfer_step host _ ..)⟩
      simp only
      rw [← hinfer.eq]
      split
      · exact hinfer.trans
          (rollupCauseToParent_agree hfire (hinfer.admits hrun) cause target scope)
      · exact ⟨rfl, hinfer.leads⟩
  | emitProblem problem path severity evidence sarifId pii =>
      have hemit : ∀ target (run : Run), C.Admits run → C.Agree run
          (emitProblemAt host fire rule problem severity evidence sarifId bindings scope target run)
          (emitProblemAt host fire' rule problem severity evidence sarifId bindings scope target
            run) := by
        intro target run hrun
        unfold emitProblemAt
        have hbetween : Between host run.engine (applyEmit host rule problem target severity
            (evidenceNodes rule evidence bindings) sarifId scope run.engine).1 :=
          .of_effect (.problem ..)
        simp only
        generalize applyEmit host _ _ _ _ _ _ _ _ = applied at hbetween
        have hchanged : C.Agree run ⟨applied.1, run.budget⟩ ⟨applied.1, run.budget⟩ :=
          .between C hbetween rfl
        split
        · exact hchanged.trans (onProblemEmission_agree hfire (hchanged.admits hrun) _ scope)
        · exact hchanged
      cases path with
      | some path => exact withTarget_agree hrun rule path bindings hemit
      | none => exact hemit scope run hrun
  | emitAction kind arg target reason evidence =>
      exact .between C (.of_effects (execAction_effects kind arg target reason evidence bindings run))
        rfl
  | supersedeProblem problem target =>
      simp only [execIntent]
      unfold execSupersede
      exact withTarget_agree hrun rule target bindings
        fun target _ _ => .between C (.of_effect (.supersede _ problem target scope)) rfl
  | markAmbiguous causes target =>
      simp only [execIntent]
      unfold execMarkAmbiguous
      refine withTarget_agree hrun rule target bindings fun target run _ => .between C ?_ rfl
      exact .of_effects (.head (.mark _ _ target scope) (.single (.action _ _)))

/-- Executing intents wakes rules only where the ways to run them agree. -/
theorem execIntents_agree (intents : List Intent) (rule : RuleInstance) (bindings : List Binding)
    (anchor : Bound) (scope : ScopeId) :
    C.Agree run (execIntents host fire intents rule bindings anchor scope run)
      (execIntents host fire' intents rule bindings anchor scope run) :=
  .foldl (fun intent _ _ hrun => execIntent_agree hfire hrun rule bindings anchor scope intent) hrun

end Rules

end Course

end Adgl
