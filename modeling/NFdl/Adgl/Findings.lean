import NFdl.Adgl.Partitions

/-!
# What decisions leave as it is

The decision rules of an accepted image infer nothing and mark nothing as ambiguous.
So between a change of a cause and its comparison with the causes that it excludes,
all causes and ambiguities stay as they are.
-/

namespace Adgl

open Ast (Stmt Ruleset)

variable {host : Host} {e e' e'' : Engine}

/-- The ambiguity that a partition holds under a key. -/
def Engine.ambiguity (e : Engine) (scope : ScopeId) (key : (CauseKind × CauseKind) × ScopeId) :
    Option AmbiguityNode :=
  (e.part scope).ambiguities.lookup key

/-- Causes and ambiguities stay as they are. -/
structure SameFindings (e e' : Engine) : Prop where
  causes : ∀ scope, (e'.part scope).causes = (e.part scope).causes
  ambiguities : ∀ scope, (e'.part scope).ambiguities = (e.part scope).ambiguities

namespace SameFindings

theorem refl (e : Engine) : SameFindings e e := ⟨fun _ => rfl, fun _ => rfl⟩

theorem trans (h : SameFindings e e') (h' : SameFindings e' e'') : SameFindings e e'' where
  causes scope := (h'.causes scope).trans (h.causes scope)
  ambiguities scope := (h'.ambiguities scope).trans (h.ambiguities scope)

theorem of_part (hpart : ∀ scope, e'.part scope = e.part scope) : SameFindings e e' where
  causes scope := congrArg SubGraph.causes (hpart scope)
  ambiguities scope := congrArg SubGraph.ambiguities (hpart scope)

/-- A partition is replaced by one with the same causes and ambiguities. -/
theorem setPartition {scope : ScopeId} {g : SubGraph} (hcauses : g.causes = (e.part scope).causes)
    (hambiguities : g.ambiguities = (e.part scope).ambiguities) :
    SameFindings e ((e.openPartition scope).setPartition scope g) := by
  constructor
  all_goals
    intro scope'
    rw [part_setPartition]
    split
    · rename_i heq
      rw [heq]
      assumption
    · rw [part_openPartition]

theorem report (run : Run) (diags : List EngineDiagnostic) :
    SameFindings run.engine (run.report diags).engine :=
  .of_part fun _ => rfl

theorem cause (h : SameFindings e e') (scope : ScopeId) (key : CauseKind × ScopeId) :
    e'.cause scope key = e.cause scope key := by
  unfold Engine.cause
  rw [h.causes]

theorem ambiguity (h : SameFindings e e') (scope : ScopeId)
    (key : (CauseKind × CauseKind) × ScopeId) : e'.ambiguity scope key = e.ambiguity scope key := by
  unfold Engine.ambiguity
  rw [h.ambiguities]

end SameFindings

/-! ### Effects of decisions -/

theorem applyEmit_sameFindings (host : Host) (rule : RuleInstance) (problem : ProblemKind) (target : ScopeId)
    (severity : Severity) (evidence : List NodeId) (sarifId : SarifId) (scope : ScopeId)
    (e : Engine) :
    SameFindings e (applyEmit host rule problem target severity evidence sarifId scope e).1 := by
  have hpart : (e.openPartition scope).store.partitionOf scope = e.part scope :=
    part_openPartition e scope scope
  unfold applyEmit
  simp only [hpart]
  split
  · exact .of_part (part_openPartition e scope)
  · rename_i g hmark
    have hkept : g.causes = (e.part scope).causes ∧ g.ambiguities = (e.part scope).ambiguities := by
      unfold SubGraph.tryMarkEmitted at hmark
      split at hmark
      · cases hmark
      · obtain rfl := Option.some.inj hmark
        exact ⟨rfl, rfl⟩
    let problemNode : ProblemNode :=
      ⟨e.nextNodeId + 1, problem, target, e.store.watermark, severity, evidence, sarifId, false⟩
    have hset : SameFindings e
        ((e.openPartition scope).setPartition scope (g.pushProblem problemNode)) :=
      .setPartition hkept.1 hkept.2
    exact ⟨hset.causes, hset.ambiguities⟩

theorem applySupersede_sameFindings (problem : ProblemKind) (target scope : ScopeId) (e : Engine) :
    SameFindings e (applySupersede problem target scope e) := by
  have hpart : (e.openPartition scope).store.partitionOf scope = e.part scope :=
    part_openPartition e scope scope
  unfold applySupersede
  simp only [hpart]
  exact .setPartition rfl rfl

/-- That a way to run rules keeps causes and ambiguities where decisions are woken. -/
def KeepsFindings (host : Host) (fire : Fire) : Prop :=
  ∀ rule anchor scope run, Cascades host rule anchor scope →
    SameFindings run.engine (fire rule anchor scope run).engine

/-- That an intent writes a cause or an ambiguity. -/
def Intent.Finds : Intent → Prop
  | .inferCause .. | .markAmbiguous .. => True
  | .emitProblem .. | .emitAction .. | .supersedeProblem .. => False

section Rules

variable {fire : Fire} (hfire : KeepsFindings host fire) {anchor : Bound} {scope : ScopeId}
include hfire

theorem fireAll_sameFindings {rules : List RuleInstance}
    (hrules : ∀ rule ∈ rules, Cascades host rule anchor scope) (run : Run) :
    SameFindings run.engine (rules.foldl (fireIfMatched host fire anchor scope) run).engine := by
  induction rules generalizing run with
  | nil => exact .refl _
  | cons rule rest ih =>
      have hfirst : SameFindings run.engine
          (fireIfMatched host fire anchor scope run rule).engine := by
        unfold fireIfMatched
        simp only
        split
        · exact (SameFindings.report ..).trans
            (hfire rule anchor scope _ (hrules rule (List.mem_cons_self ..)))
        · exact .report ..
      exact hfirst.trans (ih (fun r hr => hrules r (List.mem_cons_of_mem _ hr)) _)

omit hfire in
theorem withTarget_sameFindings {rule : RuleInstance} {path : MetricPath} {bindings : List Binding}
    {run : Run} {k : ScopeId → Run → Run}
    (hk : ∀ target run, SameFindings run.engine (k target run).engine) :
    SameFindings run.engine (withTarget host rule path bindings run k).engine := by
  unfold withTarget
  simp only
  split
  · exact (SameFindings.report ..).trans (hk _ _)
  · exact .of_part fun _ => rfl

theorem execEmitProblem_sameFindings (rule : RuleInstance) (problem : ProblemKind)
    (targetPath : Option MetricPath) (severity : Severity) (evidence : List Symbol)
    (sarifId : SarifId) (bindings : List Binding) (run : Run) :
    SameFindings run.engine (execEmitProblem host fire rule problem targetPath severity evidence
      sarifId bindings scope run).engine := by
  have hemit : ∀ target (run : Run), SameFindings run.engine (emitProblemAt host fire rule problem
      severity evidence sarifId bindings scope target run).engine := by
    intro target run
    unfold emitProblemAt
    have happlied := applyEmit_sameFindings host rule problem target severity
      (evidenceNodes rule evidence bindings) sarifId scope run.engine
    simp only
    split
    · exact happlied.trans (fireAll_sameFindings hfire (fun _ h => .problem h) ⟨_, run.budget⟩)
    · exact happlied
  cases targetPath with
  | some path =>
      rw [execEmitProblem_path]
      exact withTarget_sameFindings hemit
  | none =>
      rw [execEmitProblem_scope]
      exact hemit scope run

theorem execIntent_sameFindings (rule : RuleInstance) (bindings : List Binding) {intent : Intent}
    (hintent : ¬ intent.Finds) (run : Run) : SameFindings run.engine
      (execIntent host fire rule bindings anchor scope run intent).engine := by
  cases intent with
  | inferCause | markAmbiguous => exact absurd trivial hintent
  | emitProblem problem target severity evidence sarifId pii =>
      exact execEmitProblem_sameFindings hfire ..
  | emitAction => exact .of_part fun _ => rfl
  | supersedeProblem problem target =>
      exact withTarget_sameFindings fun target run =>
        applySupersede_sameFindings problem target scope run.engine

theorem fireRule_sameFindings {rule : RuleInstance} (hrule : ∀ intent ∈ rule.intents, ¬ intent.Finds)
    (run : Run) :
    SameFindings run.engine (fireRule host fire rule anchor scope run).engine := by
  have hintents : ∀ (bindings : List Binding) (intents : List Intent) (run : Run),
      (∀ intent ∈ intents, ¬ intent.Finds) → SameFindings run.engine
        (execIntents host fire intents rule bindings anchor scope run).engine := by
    intro bindings intents
    induction intents with
    | nil => exact fun run _ => .refl _
    | cons intent rest ih =>
        intro run hrest
        refine (execIntent_sameFindings hfire rule bindings (hrest _ (List.mem_cons_self ..)) run).trans
          (ih _ fun i hi => hrest i (List.mem_cons_of_mem _ hi))
  let bound := bindRule host rule anchor scope run.engine
  let truth := branchTruth host bound.2.interner rule bound.1 scope
  have hbound : SameFindings run.engine (bound.2.report truth.2) := .of_part fun _ => rfl
  exact hbound.trans (hintents bound.1 _ ⟨bound.2.report truth.2, run.budget - 1⟩
    fun intent hintent => hrule intent (mem_intents_of_selected hintent))

end Rules

/-- Where no decision rule infers or marks, decisions keep causes and ambiguities. -/
theorem runRule_keepsFindings
    (hdecides : ∀ rule anchor scope, Cascades host rule anchor scope →
      ∀ intent ∈ rule.intents, ¬ intent.Finds) (depth : Nat) :
    KeepsFindings host (runRule host depth) := by
  induction depth with
  | zero => exact fun _ _ _ _ _ => .of_part fun _ => rfl
  | succ depth ih =>
      intro rule anchor scope run hcascades
      unfold runRule
      split
      · exact .of_part fun _ => rfl
      · exact fireRule_sameFindings ih (hdecides rule anchor scope hcascades) run

/-! ### Accepted images -/

section Accepted

variable {catalog : Catalog} {config : VerifyConfig} {ruleset : Ruleset} {image : ProgramImage}

/-- No statement is lowered to a mark. -/
theorem markAmbiguous_notMem_intentsOf {piiPaths : List String} {env : RuleEnv} {ruleId : RuleId}
    {stmt : Stmt} {causes : CauseKind × CauseKind} {path : MetricPath} :
    .markAmbiguous causes path ∉ intentsOf catalog piiPaths env ruleId stmt :=
  fun h => nomatch mem_intentsOf h

/-- No rule of an accepted image marks causes as ambiguous. -/
theorem accepted_marks_nothing (h : verifyWithConfig catalog config ruleset = .ok image)
    {inst : RuleInstance} (hmem : inst ∈ image.rules) {causes : CauseKind × CauseKind}
    {path : MetricPath} : .markAmbiguous causes path ∉ inst.intents := by
  intro hintent
  obtain ⟨rule, hrule, hinst⟩ := (mem_image_iff h).mp hmem
  obtain ⟨stmt, hstmt, hfrom⟩ | haction := mem_intents hinst hintent
  · exact markAmbiguous_notMem_intentsOf hfrom
  · cases haction

/-- The decision rules of an accepted image write neither causes nor ambiguities. -/
theorem Cascades.not_finds (h : verifyWithConfig catalog config ruleset = .ok host.image)
    {rule : RuleInstance} {anchor : Bound} {scope : ScopeId}
    (hcascades : Cascades host rule anchor scope) : ∀ intent ∈ rule.intents, ¬ intent.Finds := by
  intro intent hintent hfinds
  cases intent with
  | inferCause => exact hcascades.not_infers h ⟨_, _, _, _, _, _, hintent⟩
  | markAmbiguous => exact accepted_marks_nothing h hcascades.kind.1 hintent
  | emitProblem | emitAction | supersedeProblem => exact hfinds

end Accepted

end Adgl
