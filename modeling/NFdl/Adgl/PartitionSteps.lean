import NFdl.Adgl.Partitions

/-!
# Steps of partitions

Whatever a host does with an engine, the partitions change in steps: one partition
is replaced by a subgraph with one cause, problem or ambiguity written, or all
partitions forget keys. New nodes take the next identifiers. What is claimed of all
partitions in all runs is derived from these steps.
-/

namespace Adgl

/-- One change of a subgraph, with the counter of identifiers before and after it. -/
inductive SubGraph.Step (host : Host) (g : SubGraph) (next : Nat) : SubGraph → Nat → Prop
  | keep : Step host g next g next
  | update {key : CauseKind × ScopeId} {old node : CauseNode} {edges : List EvidenceEdge}
      {seen : List RuntimeProvKey} (hold : g.causes.lookup key = some old) (hid : node.id = old.id) :
      Step host g next { g with
        causes := AList.insert key node g.causes
        edges := edges
        seenProvenance := seen } next
  | create {key : CauseKind × ScopeId} {node : CauseNode} {edges : List EvidenceEdge}
      {seen : List RuntimeProvKey} (hnew : g.causes.lookup key = none)
      (hroom : g.causes.entries.length < host.limits.maxCausesPerScope)
      (hid : node.id = next + 1) :
      Step host g next { g with
        causes := AList.insert key node g.causes
        edges := edges
        seenProvenance := seen } (next + 1)
  | raise {key : (CauseKind × CauseKind) × ScopeId} {node : AmbiguityNode} {problem : ProblemNode}
      (hnew : g.ambiguities.lookup key = none) (hid : node.id = next + 1)
      (hproblem : problem.id = next + 2) :
      Step host g next (SubGraph.pushProblem { g with
        ambiguities := AList.insert key node g.ambiguities } problem) (next + 2)
  | mark {key : (CauseKind × CauseKind) × ScopeId} {node : AmbiguityNode}
      (hnew : g.ambiguities.lookup key = none) (hid : node.id = next + 1) :
      Step host g next { g with ambiguities := AList.insert key node g.ambiguities } (next + 1)
  | resolve {key : (CauseKind × CauseKind) × ScopeId} {old : AmbiguityNode}
      (hold : g.ambiguities.lookup key = some old) :
      Step host g next { g with
        ambiguities := AList.insert key { old with state := .resolved } g.ambiguities } next
  | emit {problem : ProblemNode} {emitted : List EmittedProblem} (hid : problem.id = next + 1) :
      Step host g next
        (SubGraph.pushProblem { g with emittedProblems := emitted } problem) (next + 1)
  | supersede (kind : ProblemKind) (target : ScopeId) :
      Step host g next (g.supersedeProblems kind target) next

/-- The subgraph without some of its keys and records of emissions. -/
structure SubGraph.Pruned (g g' : SubGraph) : Prop where
  causes : g'.causes = g.causes
  problems : g'.problems = g.problems
  ambiguities : g'.ambiguities = g.ambiguities
  edges : g'.edges = g.edges

/-- One change of the partitions of an engine. -/
inductive PartitionStep (host : Host) (e e' : Engine) : Prop
  | write (scope : ScopeId) (g : SubGraph)
      (hpart : ∀ scope', e'.part scope' = if scope' = scope then g else e.part scope')
      (h : (e.part scope).Step host e.nextNodeId g e'.nextNodeId) : PartitionStep host e e'
  | prune (hpart : ∀ scope, (e.part scope).Pruned (e'.part scope))
      (hid : e'.nextNodeId = e.nextNodeId) : PartitionStep host e e'

abbrev PartitionSteps (host : Host) := Relation.ReflTransGen (PartitionStep host)

variable {host : Host} {e e' e'' : Engine}

/-- What every step preserves is preserved. -/
theorem PartitionSteps.invariant {P : Engine → Prop}
    (hstep : ∀ e e', P e → PartitionStep host e e' → P e') (h : PartitionSteps host e e')
    (he : P e) : P e' := by
  induction h with
  | refl => exact he
  | tail _ h ih => exact hstep _ _ ih h

namespace PartitionStep

/-- A change of something else. -/
theorem of_part (hpart : ∀ scope, e'.part scope = e.part scope)
    (hid : e'.nextNodeId = e.nextNodeId) : PartitionStep host e e' :=
  .prune (fun scope => by rw [hpart]; exact ⟨rfl, rfl, rfl, rfl⟩) hid

/-- Mutable access to a partition writes it back. -/
theorem of_setPartition {scope : ScopeId} {g : SubGraph} {id : Nat}
    (hpart : ∀ scope', e'.part scope' =
      ((e.openPartition scope).setPartition scope g).part scope')
    (hid : e'.nextNodeId = id) (h : (e.part scope).Step host e.nextNodeId g id) :
    PartitionStep host e e' := by
  refine .write scope g (fun scope' => ?_) (hid ▸ h)
  rw [hpart, part_setPartition, part_openPartition]

end PartitionStep

section Effects

variable (host) (e)

theorem applyInfer_step (cause : CauseKind) (target : ScopeId) (weight : Weight)
    (key : RuntimeProvKey) (endpoints : List EdgeEndpoint) (anchorTime : EventTime)
    (scope : ScopeId) :
    PartitionStep host e
      (applyInfer host cause target weight key endpoints anchorTime scope e).1 := by
  have hpart : (e.openPartition scope).store.partitionOf scope = e.part scope :=
    part_openPartition e scope scope
  unfold applyInfer SubGraph.tryInsertProvenance
  simp only [hpart]
  cases hold : (e.part scope).causes.lookup (cause, target) with
  | some old =>
      simp only [Option.isNone_some, Bool.false_and, Bool.false_eq_true, if_false]
      split
      · exact .of_part (part_openPartition e scope) rfl
      · rename_i part hfresh
        split at hfresh
        · cases hfresh
        · obtain rfl := Option.some.inj hfresh
          exact .of_setPartition (fun _ => rfl) rfl (.update hold rfl)
  | none =>
      simp only [Option.isNone_none, Bool.true_and, decide_eq_true_eq]
      split
      · exact .of_part (part_openPartition e scope) rfl
      · rename_i hroom
        split
        · exact .of_part (part_openPartition e scope) rfl
        · rename_i part hfresh
          split at hfresh
          · cases hfresh
          · obtain rfl := Option.some.inj hfresh
            exact .of_setPartition (fun _ => rfl) rfl (.create hold (Nat.lt_of_not_le hroom) rfl)

theorem applyRollup_step (cause : CauseKind) (target childScope : ScopeId) :
    PartitionStep host e (applyRollup host cause target childScope e).1 := by
  have hopen : ∀ scope, ((e.touch target).openPartition target).part scope = e.part scope :=
    part_openPartition (e.touch target) target
  have hpart : ((e.touch target).openPartition target).store.partitionOf target = e.part target :=
    hopen target
  unfold applyRollup
  simp only [hpart]
  cases hold : (e.part target).causes.lookup (cause, target) with
  | some old =>
      simp only [Option.isNone_some, Bool.false_and, Bool.false_eq_true, if_false]
      exact .of_setPartition (fun _ => rfl) rfl (.update hold rfl)
  | none =>
      simp only [Option.isNone_none, Bool.true_and, decide_eq_true_eq]
      split
      · exact .of_part hopen rfl
      · rename_i hroom
        exact .of_setPartition (fun _ => rfl) rfl (.create hold (Nat.lt_of_not_le hroom) rfl)

theorem compareCauses_step (snapshot : CauseSnapshot) (scope : ScopeId) (other : CauseKind) :
    PartitionStep host e (compareCauses host snapshot scope e other) := by
  have hpart : (e.openPartition scope).store.partitionOf scope = e.part scope :=
    part_openPartition e scope scope
  have hopen := part_openPartition e scope
  unfold compareCauses
  simp only
  split
  · unfold raiseAmbiguity
    simp only [hpart]
    split
    · exact .of_part hopen rfl
    · rename_i hnew
      exact .of_setPartition (fun _ => rfl) rfl (.raise hnew rfl rfl)
  · split
    · unfold resolveAmbiguity
      simp only [hpart]
      split
      · rename_i old hold
        exact .of_setPartition (fun _ => rfl) rfl (.resolve hold)
      · exact .of_part hopen rfl
    · exact .of_part (fun _ => rfl) rfl

theorem applyEmit_step (rule : RuleInstance) (problem : ProblemKind) (target : ScopeId)
    (severity : Severity) (evidence : List NodeId) (sarifId : SarifId) (scope : ScopeId) :
    PartitionStep host e
      (applyEmit host rule problem target severity evidence sarifId scope e).1 := by
  unfold applyEmit
  simp only
  split
  · exact .of_part (part_openPartition e scope) rfl
  · rename_i part hmark
    have hpart : (e.openPartition scope).store.partitionOf scope = e.part scope :=
      part_openPartition e scope scope
    rw [hpart] at hmark
    unfold SubGraph.tryMarkEmitted at hmark
    split at hmark
    · cases hmark
    · obtain rfl := Option.some.inj hmark
      exact .of_setPartition (fun _ => rfl) rfl (.emit rfl)

theorem applySupersede_step (problem : ProblemKind) (target scope : ScopeId) :
    PartitionStep host e (applySupersede problem target scope e) := by
  have hpart : (e.openPartition scope).store.partitionOf scope = e.part scope :=
    part_openPartition e scope scope
  unfold applySupersede
  simp only [hpart]
  exact .of_setPartition (fun _ => rfl) rfl (.supersede problem target)

theorem applyMark_step (pair : CauseKind × CauseKind) (target scope : ScopeId) :
    PartitionStep host e (applyMark pair target scope e) := by
  have hpart : (e.openPartition scope).store.partitionOf scope = e.part scope :=
    part_openPartition e scope scope
  unfold applyMark
  simp only [hpart]
  split
  · exact .of_part (part_openPartition e scope) rfl
  · rename_i hnew
    exact .of_setPartition (fun _ => rfl) rfl (.mark hnew rfl)

variable {host} {e} {fires : RuleInstance → Bound → ScopeId → Prop}

theorem Effect.step (h : Effect host fires e e') : PartitionStep host e e' := by
  cases h with
  | report => exact .of_part (fun _ => rfl) rfl
  | bind => exact .of_part (fun _ => rfl) rfl
  | infer => exact applyInfer_step host e ..
  | rollup => exact applyRollup_step host e ..
  | compare => exact compareCauses_step host e ..
  | problem => exact applyEmit_step host e ..
  | supersede => exact applySupersede_step host e ..
  | mark => exact applyMark_step host e ..
  | action => exact .of_part (fun _ => rfl) rfl

theorem Effects.steps (h : Effects host fires e e') : PartitionSteps host e e' :=
  Relation.ReflTransGen.mono (fun _ _ => Effect.step) _ _ h

end Effects

/-! ### Phases and operations -/

theorem Phase.steps {past : List EventNode} {guard : Guard} (h : Phase host past guard e e') :
    PartitionSteps host e e' := by
  cases h with
  | book hbook =>
      refine .single (.of_part (fun scope => ?_) hbook.nextNodeId)
      exact congrArg (GraphStore.partitionOf · scope) hbook.store
  | push | advance | pop => exact .single (.of_part (fun _ => rfl) rfl)
  | gc =>
      refine .single (.prune (fun scope => ?_) rfl)
      rw [part_gcSweep]
      exact ⟨rfl, rfl, rfl, rfl⟩
  | suspend =>
      refine .single (.of_part (fun _ => ?_) ?_)
      all_goals
        unfold suspendMatch
        simp only
        split <;> rfl
  | run run hstarted =>
      exact (runRule_effects (fun _ _ _ _ => trivial) run.budget trivial run :
        Effects host (fun _ _ _ => True) _ _).steps

/-- What a host does: it calls the engine, or it sweeps the store, which the engine
shows to the host. -/
inductive Operation where
  | call (c : Call)
  | gc (watermark : EventTime) (maxLookback : DurationMs)
  | pruneEmitted (wm : EventTime) (maxCooldown : DurationMs)

/-- The engine after an operation. -/
def operate (host : Host) (e : Engine) : Operation → Engine
  | .call c => call host e c
  | .gc watermark maxLookback =>
      { e with store := e.store.gc { host.limits with maxLookback := maxLookback } watermark }
  | .pruneEmitted wm maxCooldown => { e with store := e.store.pruneEmitted wm maxCooldown }

/-- The engine after a list of operations. -/
def runOperations (host : Host) (ops : List Operation) : Engine := ops.foldl (operate host) .new

/-- The events that an operation accepts. -/
def acceptedBy (host : Host) (e : Engine) : Operation → List EventNode
  | .call c => accepted host e c
  | .gc _ _ | .pruneEmitted _ _ => []

theorem Accounted.operate {past : List EventNode} (h : Accounted host past e) (op : Operation) :
    Accounted host (past ++ acceptedBy host e op) (operate host e op) := by
  cases op with
  | call c => exact h.call c
  | gc watermark maxLookback =>
      rw [acceptedBy, List.append_nil]
      refine ⟨?_, h.queues, h.suspensions, h.resolutions, h.absences⟩
      refine Table.forall_mapValues fun scope ring hring event hevent => ?_
      exact h.rings scope ring hring event (RingBuffer.mem_gc.mp hevent).1
  | pruneEmitted wm maxCooldown =>
      rw [acceptedBy, List.append_nil]
      exact h.of_same rfl rfl rfl rfl

theorem runOperations_append (ops ops' : List Operation) :
    runOperations host (ops ++ ops') = ops'.foldl (operate host) (runOperations host ops) :=
  List.foldl_append ..

theorem runOperations_accounted (host : Host) (ops : List Operation) :
    ∃ past, Accounted host past (runOperations host ops) := by
  refine Inputs.foldl_invariant (Q := fun e => ∃ past, Accounted host past e) ?_
    ⟨[], Accounted.new⟩ ops
  exact fun e op ⟨past, h⟩ => ⟨_, h.operate op⟩

theorem part_mapValues (f : SubGraph → SubGraph) (hf : f .empty = .empty) (e : Engine)
    (scope : ScopeId) : (Engine.part { e with store := { e.store with
      partitions := e.store.partitions.mapValues f } } scope) = f (e.part scope) := by
  unfold Engine.part GraphStore.partitionOf
  rw [Table.lookup_mapValues]
  cases e.store.partitions.lookup scope with
  | none => exact hf.symm
  | some g => rfl

/-- An operation changes the partitions in steps. -/
theorem Accounted.operate_steps {past : List EventNode} (h : Accounted host past e)
    (op : Operation) : PartitionSteps host e (Adgl.operate host e op) := by
  cases op with
  | call c =>
      have hnoted : PartitionStep host e (e.noted c) := by
        cases c <;> exact .of_part (fun _ => rfl) rfl
      have hguard : Guard.open.Admits host e c := fun _ _ => ⟨trivial, trivial⟩
      refine .head hnoted ((call_phases h hguard).invariant (P := PartitionSteps host (e.noted c)) ?_
        .refl)
      exact fun _ _ hsteps hphase => hsteps.trans hphase.steps
  | gc watermark maxLookback =>
      refine .single (.prune (fun scope => ?_) rfl)
      have hpart : (Adgl.operate host e (.gc watermark maxLookback)).part scope =
          (e.part scope).pruneProvenance watermark maxLookback host.limits.dedupWindow :=
        part_mapValues _ rfl e scope
      rw [hpart]
      exact ⟨rfl, rfl, rfl, rfl⟩
  | pruneEmitted wm maxCooldown =>
      refine .single (.prune (fun scope => ?_) rfl)
      have hpart : (Adgl.operate host e (.pruneEmitted wm maxCooldown)).part scope =
          (e.part scope).pruneEmitted wm maxCooldown := part_mapValues _ rfl e scope
      rw [hpart]
      exact ⟨rfl, rfl, rfl, rfl⟩

/-- What a change of other data, a loss of keys and a run of a rule of the image
preserve holds in every state of every run. -/
theorem runOperations_of_rules {P : Engine → Prop} (hnew : P .new)
    (hpruned : ∀ e e', P e → (∀ scope, (e.part scope).Pruned (e'.part scope)) → P e')
    (hrun : ∀ rule anchor scope (run : Run), rule ∈ host.image.rules → P run.engine →
      P (runWithin host rule anchor scope run).engine) (ops : List Operation) :
    P (runOperations host ops) := by
  have hsame : ∀ {e e' : Engine}, P e → (∀ scope, e'.part scope = e.part scope) → P e' :=
    fun he hpart => hpruned _ _ he fun scope => by rw [hpart]; exact ⟨rfl, rfl, rfl, rfl⟩
  have hphase : ∀ (past : List EventNode) (e e' : Engine), P e → Phase host past .open e e' →
      P e' := by
    intro past e e' he hphase
    cases hphase with
    | book hbook =>
        exact hsame he fun scope => congrArg (GraphStore.partitionOf · scope) hbook.store
    | push | advance | pop => exact hsame he fun _ => rfl
    | gc =>
        refine hpruned _ _ he fun scope => ?_
        rw [part_gcSweep]
        exact ⟨rfl, rfl, rfl, rfl⟩
    | suspend =>
        refine hsame he fun _ => ?_
        unfold suspendMatch
        simp only
        split <;> rfl
    | run run hstarted => exact hrun _ _ _ run hstarted.mem he
  have hoperate : ∀ (e : Engine) (op : Operation), (∃ past, Accounted host past e) ∧ P e →
      (∃ past, Accounted host past (operate host e op)) ∧ P (operate host e op) := by
    rintro e op ⟨⟨past, haccounted⟩, he⟩
    refine ⟨⟨_, haccounted.operate op⟩, ?_⟩
    cases op with
    | call c =>
        have hnoted : P (e.noted c) := hsame he fun _ => by cases c <;> rfl
        have hguard : Guard.open.Admits host e c := fun _ _ => ⟨trivial, trivial⟩
        exact (call_phases haccounted hguard).invariant (hphase _) hnoted
    | gc watermark maxLookback =>
        exact hpruned _ _ he fun scope => (part_mapValues
          (·.pruneProvenance watermark maxLookback host.limits.dedupWindow) rfl e scope) ▸
            ⟨rfl, rfl, rfl, rfl⟩
    | pruneEmitted wm maxCooldown =>
        exact hpruned _ _ he fun scope => (part_mapValues
          (·.pruneEmitted wm maxCooldown) rfl e scope) ▸ ⟨rfl, rfl, rfl, rfl⟩
  exact (Inputs.foldl_invariant hoperate ⟨⟨[], Accounted.new⟩, hnew⟩ ops).2

/-- From any state of a run to any later one, the partitions change in steps. -/
theorem runOperations_steps (host : Host) (ops ops' : List Operation) :
    PartitionSteps host (runOperations host ops) (runOperations host (ops ++ ops')) := by
  rw [runOperations_append]
  obtain ⟨past, haccounted⟩ := runOperations_accounted host ops
  generalize runOperations host ops = e at haccounted ⊢
  induction ops' generalizing e past with
  | nil => exact .refl
  | cons op rest ih =>
      exact (haccounted.operate_steps op).trans (ih _ _ (haccounted.operate op))

/-- What every step preserves holds in every state of every run. -/
theorem runOperations_invariant {P : Engine → Prop} (hnew : P .new)
    (hstep : ∀ e e', P e → PartitionStep host e e' → P e') (ops : List Operation) :
    P (runOperations host ops) := by
  have hsteps := runOperations_steps host [] ops
  exact hsteps.invariant hstep hnew

end Adgl
