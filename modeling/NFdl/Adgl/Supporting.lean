import NFdl.Adgl.Deduplication
import NFdl.Adgl.RollUps

/-!
# Supporting evidence

An inference with a weight that is not negative raises its own cause. The roll-up
after it does not add to what the target's partition has: it sets the cause there to
the greatest confidence below, which may be less than what was inferred directly.
-/

namespace Adgl

open Ast (RuleDecl Ruleset)

variable {host : Host} {e e' : Engine}

theorem Confidence.le_apply (c : Confidence) {weight : Weight} (h : 0 ≤ weight.value) :
    c.value ≤ (c.apply weight).value := by
  have hle := c.le
  unfold Confidence.apply
  simp only
  omega

/-- No cause is lost, and none is lowered, except that a cause may be lowered in the
partition of its target as far as the greatest confidence below. -/
structure Raises (e e' : Engine) : Prop where
  kept : ∀ scope key node, e.cause scope key = some node → ∃ node', e'.cause scope key = some node' ∧
    (node.confidence.value ≤ node'.confidence.value ∨
      scope = key.2 ∧ (childConfidence key.1 key.2 key.2 e).value ≤ node'.confidence.value)
  touched : ∀ scope, (scope, ()) ∈ e.touched.entries → (scope, ()) ∈ e'.touched.entries

namespace Raises

theorem refl (e : Engine) : Raises e e :=
  ⟨fun _ _ node hnode => ⟨node, hnode, .inl le_rfl⟩, fun _ => id⟩

/-- What is below a target rises. -/
theorem childConfidence_le (h : Raises e e') (cause : CauseKind) (target : ScopeId) :
    (childConfidence cause target target e).value ≤
      (childConfidence cause target target e').value := by
  obtain hmin | ⟨scope, child, hchild, heq⟩ := childConfidence_attained e cause target
  · rw [hmin]
    exact Nat.zero_le _
  · obtain ⟨child', hchild', hle | ⟨heq', -⟩⟩ := h.kept scope _ child hchild.holds
    · rw [← heq]
      exact hle.trans (Child.le_childConfidence
        ⟨h.touched scope hchild.touched, hchild.ne, hchild.below, hchild'⟩)
    · exact absurd heq' hchild.ne

theorem sameCauses {e'' : Engine} (h : Raises e e') (hsame : SameCauses e' e'') : Raises e e'' where
  kept scope key node hnode := by
    rw [hsame.cause]
    exact h.kept scope key node hnode
  touched scope hscope := hsame.touched ▸ h.touched scope hscope

theorem touch (h : Raises e e') (scope : ScopeId) : Raises e (e'.touch scope) where
  kept := h.kept
  touched scope' hscope := mem_touch_of_mem scope (h.touched scope' hscope)

/-- A cause that is written is raised, or is set to the greatest confidence below. -/
theorem writes {e'' : Engine} (h : Raises e e') {scope : ScopeId} {key : CauseKind × ScopeId}
    {node : CauseNode} (hwrites : Writes scope key node e' e'')
    (htouched : ∀ scope, (scope, ()) ∈ e'.touched.entries → (scope, ()) ∈ e''.touched.entries)
    (hnode : (∀ old, e'.cause scope key = some old → old.confidence.value ≤ node.confidence.value) ∨
      scope = key.2 ∧ (childConfidence key.1 key.2 key.2 e').value ≤ node.confidence.value) :
    Raises e e'' where
  kept scope' key' old hold := by
    obtain ⟨new, hnew, hraised⟩ := h.kept scope' key' old hold
    by_cases hsame : (scope', key') = (scope, key)
    · obtain ⟨rfl, rfl⟩ := Prod.mk.inj hsame
      refine ⟨node, hwrites.here, ?_⟩
      obtain hle | ⟨heq, hle⟩ := hnode
      · exact hraised.imp (fun h => h.trans (hle new hnew)) fun h => ⟨h.1, h.2.trans (hle new hnew)⟩
      · exact .inr ⟨heq, (h.childConfidence_le _ _).trans hle⟩
    · exact ⟨new, (hwrites.there scope' key' hsame).trans hnew, hraised⟩
  touched scope' hscope := htouched scope' (h.touched scope' hscope)

theorem inferred {e'' : Engine} (h : Raises e e') {cause : CauseKind} {target : ScopeId}
    {weight : Weight} {key : RuntimeProvKey} {anchorTime : EventTime} {scope : ScopeId}
    (hinferred : Inferred cause target weight key anchorTime scope e' e'')
    (hweight : 0 ≤ weight.value) : Raises e e'' := by
  refine h.writes hinferred.writes (fun _ hscope => hinferred.touched ▸ hscope) (.inl fun old hold => ?_)
  unfold inferredNode
  rw [hold]
  exact old.confidence.le_apply hweight

theorem rolledUp {e'' : Engine} (h : Raises e e') {cause : CauseKind} {target scope : ScopeId}
    (hrolledUp : RolledUp host cause target scope e' e'') : Raises e e'' := by
  refine h.writes hrolledUp.writes (fun _ hscope => ?_) (.inr ⟨rfl, le_rfl⟩)
  rw [hrolledUp.touched]
  exact mem_touch_of_mem target hscope

end Raises

/-- That an intent is no inference that contradicts its cause. -/
def Intent.Supports : Intent → Prop
  | .inferCause _ _ weight _ _ _ => 0 ≤ weight.value
  | _ => True

instance : DecidablePred Intent.Supports
  | .inferCause _ _ weight _ _ _ => inferInstanceAs (Decidable (0 ≤ weight.value))
  | .emitProblem .. | .emitAction .. | .supersedeProblem .. | .markAmbiguous .. => .isTrue trivial

/-- That no inference of a rule contradicts its cause. -/
def RuleInstance.Supports (rule : RuleInstance) : Prop := ∀ intent ∈ rule.intents, intent.Supports

instance : DecidablePred RuleInstance.Supports := fun rule =>
  inferInstanceAs (Decidable (∀ intent ∈ rule.intents, intent.Supports))

theorem Raises.effects {e'' : Engine} {fires : RuleInstance → Bound → ScopeId → Prop}
    (hsupports : ∀ rule anchor scope, fires rule anchor scope → rule.Supports) (h : Raises e e')
    (heffects : Effects host fires e' e'') : Raises e e'' := by
  refine heffects.invariant (P := Raises e) (fun e₁ e₂ h heffect => ?_) h
  obtain hsame | ⟨_, _, _, _, _, _, _, _, _, target, hfires, hintent,
    ⟨hinferred, -⟩ | hrolledUp | hsame⟩ := heffect.cases
  · exact h.sameCauses hsame
  · exact h.inferred hinferred (hsupports _ _ _ hfires _ hintent)
  · exact h.rolledUp hrolledUp
  · exact (h.touch target).sameCauses hsame

/-- The decisions that follow a change raise causes further. -/
theorem Raises.followUp (hsupports : ∀ rule anchor scope, Cascades host rule anchor scope →
      rule.Supports) {fire : Fire} (hfire : FiresByEffects host (Cascades host) fire)
    (scope : ScopeId) {applied : Engine × Option CauseSnapshot} (run : Run)
    (h : Raises e applied.1) : Raises e (followUp host fire scope applied run).engine := by
  have heffects : Effects host (Cascades host) (Run.mk applied.1 run.budget).engine
      (Adgl.followUp host fire scope applied ⟨applied.1, run.budget⟩).engine :=
    followUp_effects hfire scope .refl
  exact h.effects hsupports heffects

/-- Where no decision rule contradicts a cause, an inference with a weight that is not
negative loses and lowers no cause, with all decisions that it wakes. Only a cause in
the partition of its target may be lowered, by a roll-up, and not below the greatest
confidence that the partitions below had. -/
theorem supporting_raises
    (hsupports : ∀ rule ∈ host.image.rules, rule.kind = .decision → rule.Supports) (depth : Nat)
    (rule : RuleInstance) (cause : CauseKind) (path : MetricPath) {weight : Weight}
    (hweight : 0 ≤ weight.value) (evidence : List Symbol) (provenanceKey : ProvKey)
    (bindings : List Binding) (anchor : Bound) (scope : ScopeId) (run : Run) :
    Raises run.engine (execInfer host (runRule host depth) rule cause path weight evidence
      provenanceKey bindings anchor scope run).engine := by
  have hcascades : ∀ rule anchor scope, Cascades host rule anchor scope → rule.Supports :=
    fun rule anchor scope h => hsupports rule h.kind.1 h.kind.2
  have hfire : FiresByEffects host (Cascades host) (runRule host depth) :=
    fun _ _ _ run hcascades => runRule_effects (fun _ _ _ => id) depth hcascades run
  refine withTarget_preserves (fun _ _ h => h.sameCauses (.of_part (fun _ => rfl) rfl le_rfl))
    (fun target run' h => ?_) (.refl run.engine)
  simp only
  generalize runtimeProvKey _ _ _ _ = key
  generalize evidenceEndpoints _ _ _ = endpoints
  have hinfer : Raises run.engine
      (applyInfer host cause target weight key endpoints anchor.time scope run'.engine).1 := by
    obtain ⟨-, hsame⟩ | ⟨-, hinferred⟩ :=
      applyInfer_cases host run'.engine cause target weight key endpoints anchor.time scope
    · exact h.sameCauses hsame
    · exact h.inferred hinferred hweight
  have hfollowed := hinfer.followUp hcascades hfire scope run'
  split
  · generalize followUp _ _ _ _ _ = followed at hfollowed ⊢
    refine Raises.followUp hcascades hfire target followed ?_
    obtain ⟨-, -, -, hsame⟩ | ⟨-, hrolledUp⟩ :=
      applyRollup_cases host followed.engine cause target scope
    · exact (hfollowed.touch target).sameCauses hsame
    · exact hfollowed.rolledUp hrolledUp
  · exact hfollowed

theorem supporting_raises_burst : ∃ rule ∈ (seedHost everyBurst).image.rules,
    Raises (twoBursts []) (execInfer (seedHost everyBurst) (runRule (seedHost everyBurst) 64) rule
      "Congestion" ⟨"rtx.target"⟩ ⟨10, by decide, by decide⟩ [] ⟨"burst", "Congestion", 0⟩
      [.bound (.event (burstAt 3 ⟨4000⟩))] (.event (burstAt 3 ⟨4000⟩)) ⟨.session, 7⟩
      ⟨twoBursts [], 64⟩).engine := by
  obtain ⟨rule, hrule⟩ := List.exists_mem_of_ne_nil (seedHost everyBurst).image.rules (by decide)
  exact ⟨rule, hrule, supporting_raises (by decide) 64 rule "Congestion" ⟨"rtx.target"⟩ (by decide)
    [] ⟨"burst", "Congestion", 0⟩ _ _ ⟨.session, 7⟩ ⟨twoBursts [], 64⟩⟩

/-- A burst of a session, on a path that is the session 8. -/
def pathBurst (id : EventId) (time : EventTime) (session : UInt64) : EventNode :=
  .new id "tcp.retransmission_burst" time ⟨.session, session⟩
    [(0, 1400), (4, scopeKeyI64 ⟨.session, 8⟩)]

/-- A decision rule that infers against congestion. -/
def contradictRules : Ruleset :=
  ⟨"contradict", [], [burstRule (.bool true), .decision {
    name := "contradict"
    scope := .session
    anchor := .cause
      ⟨"hole", "Congestion", .binary .ge (.field (.ident "hole") "confidence") (.int 20)⟩
    correlates := []
    ifElse := none
    body := [.infer ⟨"Congestion", [.target (.field (.ident "hole") "target"), .weight (-30)]⟩] }]⟩

/-- The confidence of congestion in the partition of its session after some calls. -/
def congestionAfter (ruleset : Ruleset) (session : UInt64) (calls : List Call) : Option Nat :=
  ((runCalls (seedHost ruleset) calls).cause ⟨.session, session⟩
    ("Congestion", ⟨.session, session⟩)).map fun node => node.confidence.value

/-- A session has inferred congestion of itself twice. Then another session infers it for
the first one, and its lower confidence replaces the confidence of both inferences. In
an image that is not accepted, a decision rule lowers the cause whose rise has woken it. -/
theorem supporting_lowers :
    ((verifyWithConfig .seed .default (targetRules "path")).isOk = true ∧
      (∀ rule ∈ (seedHost (targetRules "path")).image.rules, rule.Supports) ∧
      congestionAfter (targetRules "path") 8
        [.ingest (pathBurst 1 ⟨1000⟩ 8), .ingest (pathBurst 2 ⟨2500⟩ 8)] = some 20 ∧
      congestionAfter (targetRules "path") 8 [.ingest (pathBurst 1 ⟨1000⟩ 8),
        .ingest (pathBurst 2 ⟨2500⟩ 8), .ingest (pathBurst 3 ⟨3000⟩ 7)] = some 10) ∧
    ((∀ rule ∈ (seedHost contradictRules).image.rules, rule.kind = .evidence → rule.Supports) ∧
      congestionAfter contradictRules 7 [.ingest (burstAt 1 ⟨1000⟩)] = some 10 ∧
      congestionAfter contradictRules 7 [.ingest (burstAt 1 ⟨1000⟩), .ingest (burstAt 2 ⟨2000⟩)] =
        some 0) := by decide

end Adgl
