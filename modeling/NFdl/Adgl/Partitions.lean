import NFdl.Adgl.Closed
import NFdl.Adgl.Phases
import NFdl.Adgl.Statements

/-!
# Causes in partitions

What the effects of running rules do to the causes of the partitions. An inference
writes one cause in the partition of its scope, a roll-up writes one cause in the
partition of its target, and no other effect changes a cause, a roll-up edge or the
keys that were seen.
-/

namespace Adgl

variable {host : Host} {e e' e'' : Engine}

/-! ### The partitions of an engine -/

/-- The subgraph of a scope. -/
def Engine.part (e : Engine) (scope : ScopeId) : SubGraph := e.store.partitionOf scope

/-- The cause that a partition holds under a key. -/
def Engine.cause (e : Engine) (scope : ScopeId) (key : CauseKind × ScopeId) : Option CauseNode :=
  (e.part scope).causes.lookup key

/-- The edges from causes of children. -/
def SubGraph.rollUps (g : SubGraph) : List EvidenceEdge := g.edges.filter (·.kind == .rollsUp)

@[simp] theorem part_report (e : Engine) (diags : List EngineDiagnostic) (scope : ScopeId) :
    (e.report diags).part scope = e.part scope := rfl

@[simp] theorem part_touch (e : Engine) (scope scope' : ScopeId) :
    (e.touch scope).part scope' = e.part scope' := rfl

@[simp] theorem part_setNextNodeId (e : Engine) (id : Nat) (scope : ScopeId) :
    (e.setNextNodeId id).part scope = e.part scope := rfl

@[simp] theorem part_emit (e : Engine) (intent : ActionIntent) (scope : ScopeId) :
    (e.emit host intent).part scope = e.part scope := rfl

@[simp] theorem part_openPartition (e : Engine) (scope scope' : ScopeId) :
    (e.openPartition scope).part scope' = e.part scope' := by
  change ((Table.update e.store.partitions scope .empty id).lookup scope').getD .empty =
    (e.store.partitions.lookup scope').getD .empty
  by_cases h : scope' = scope
  · subst h
    rw [Table.lookup_update]
    rfl
  · rw [Table.lookup_update_ne h]

@[simp] theorem part_setPartition (e : Engine) (scope scope' : ScopeId) (g : SubGraph) :
    (e.setPartition scope g).part scope' = if scope' = scope then g else e.part scope' := by
  change ((AList.insert scope g e.store.partitions).lookup scope').getD .empty = _
  split
  · rename_i h
    subst h
    rw [AList.lookup_insert]
    rfl
  · rename_i h
    rw [AList.lookup_insert_ne h]
    rfl

theorem partition_lookup (e : Engine) (scope : ScopeId) (key : CauseKind × ScopeId) :
    (e.store.partition scope).bind (fun part => part.causes.lookup key) = e.cause scope key := by
  unfold Engine.cause Engine.part GraphStore.partitionOf GraphStore.partition
  cases e.store.partitions.lookup scope with
  | none => rfl
  | some part => rfl

/-- The causes, edges and seen keys of a partition stay as they are. -/
structure SubGraph.SameCauses (g g' : SubGraph) : Prop where
  causes : g'.causes = g.causes
  edges : g'.edges = g.edges
  seen : g'.seenProvenance = g.seenProvenance

/-- Causes, roll-up edges and seen keys stay as they are. -/
structure SameCauses (e e' : Engine) : Prop where
  causes : ∀ scope, (e'.part scope).causes = (e.part scope).causes
  rollUps : ∀ scope, (e'.part scope).rollUps = (e.part scope).rollUps
  seen : ∀ scope, (e'.part scope).seenProvenance = (e.part scope).seenProvenance
  touched : e'.touched = e.touched
  nextNodeId : e.nextNodeId ≤ e'.nextNodeId

namespace SameCauses

theorem refl (e : Engine) : SameCauses e e :=
  ⟨fun _ => rfl, fun _ => rfl, fun _ => rfl, rfl, le_rfl⟩

theorem trans (h : SameCauses e e') (h' : SameCauses e' e'') : SameCauses e e'' where
  causes scope := (h'.causes scope).trans (h.causes scope)
  rollUps scope := (h'.rollUps scope).trans (h.rollUps scope)
  seen scope := (h'.seen scope).trans (h.seen scope)
  touched := h'.touched.trans h.touched
  nextNodeId := h.nextNodeId.trans h'.nextNodeId

theorem of_part (hpart : ∀ scope, e'.part scope = e.part scope) (htouched : e'.touched = e.touched)
    (hid : e.nextNodeId ≤ e'.nextNodeId) : SameCauses e e' where
  causes scope := congrArg SubGraph.causes (hpart scope)
  rollUps scope := congrArg SubGraph.rollUps (hpart scope)
  seen scope := congrArg SubGraph.seenProvenance (hpart scope)
  touched := htouched
  nextNodeId := hid

theorem openPartition (e : Engine) (scope : ScopeId) : SameCauses e (e.openPartition scope) :=
  .of_part (part_openPartition e scope) rfl le_rfl

/-- Then a partition is replaced by one with the same causes, edges and keys. -/
theorem setPartition (h : SameCauses e e') {scope : ScopeId} {g : SubGraph}
    (hg : (e'.part scope).SameCauses g) : SameCauses e (e'.setPartition scope g) := by
  refine h.trans ⟨fun scope' => ?_, fun scope' => ?_, fun scope' => ?_, rfl, le_rfl⟩
  all_goals
    rw [part_setPartition]
    split
    · rename_i heq
      subst heq
      simp only [SubGraph.rollUps, hg.causes, hg.edges, hg.seen]
    · rfl

theorem setNextNodeId (h : SameCauses e e') {id : Nat} (hid : e'.nextNodeId ≤ id) :
    SameCauses e (e'.setNextNodeId id) :=
  h.trans (.of_part (fun _ => rfl) rfl hid)

theorem emit (h : SameCauses e e') (intent : ActionIntent) : SameCauses e (e'.emit host intent) :=
  h.trans (.of_part (fun _ => rfl) rfl le_rfl)

theorem cause (h : SameCauses e e') (scope : ScopeId) (key : CauseKind × ScopeId) :
    e'.cause scope key = e.cause scope key := by
  unfold Engine.cause
  rw [h.causes]

end SameCauses

/-! ### Effects that write no cause -/

section Others

variable (e)

theorem bindRule_sameCauses (rule : RuleInstance) (anchor : Bound) (scope : ScopeId) :
    SameCauses e (bindRule host rule anchor scope e).2 :=
  .of_part (fun _ => rfl) rfl le_rfl

theorem raiseAmbiguity_sameCauses (snapshot : CauseSnapshot) (scope : ScopeId)
    (other : CauseKind) : SameCauses e (raiseAmbiguity host snapshot scope other e) := by
  unfold raiseAmbiguity
  simp only
  have hopen := SameCauses.openPartition e scope
  split
  · exact hopen
  · have hid : e.nextNodeId ≤ e.nextNodeId + 1 + 1 := by omega
    refine .emit (.setNextNodeId (.setPartition hopen ?_) hid) _
    exact ⟨rfl, rfl, rfl⟩

theorem resolveAmbiguity_sameCauses (snapshot : CauseSnapshot) (scope : ScopeId)
    (other : CauseKind) : SameCauses e (resolveAmbiguity snapshot scope other e) := by
  unfold resolveAmbiguity
  simp only
  have hopen := SameCauses.openPartition e scope
  split
  · exact hopen.setPartition ⟨rfl, rfl, rfl⟩
  · exact hopen

theorem compareCauses_sameCauses (snapshot : CauseSnapshot) (scope : ScopeId)
    (other : CauseKind) : SameCauses e (compareCauses host snapshot scope e other) := by
  unfold compareCauses
  simp only
  split
  · exact raiseAmbiguity_sameCauses e snapshot scope other
  · split
    · exact resolveAmbiguity_sameCauses e snapshot scope other
    · exact .refl e

theorem applyEmit_sameCauses (rule : RuleInstance) (problem : ProblemKind) (target : ScopeId)
    (severity : Severity) (evidence : List NodeId) (sarifId : SarifId) (scope : ScopeId) :
    SameCauses e (applyEmit host rule problem target severity evidence sarifId scope e).1 := by
  unfold applyEmit
  simp only
  have hopen := SameCauses.openPartition e scope
  split
  · exact hopen
  · rename_i part hmark
    unfold SubGraph.tryMarkEmitted at hmark
    split at hmark
    · cases hmark
    · obtain rfl := Option.some.inj hmark
      refine .setNextNodeId (.setPartition hopen ?_) (Nat.le_succ e.nextNodeId)
      exact ⟨rfl, rfl, rfl⟩

theorem applySupersede_sameCauses (problem : ProblemKind) (target scope : ScopeId) :
    SameCauses e (applySupersede problem target scope e) :=
  (SameCauses.openPartition e scope).setPartition ⟨rfl, rfl, rfl⟩

theorem applyMark_sameCauses (pair : CauseKind × CauseKind) (target scope : ScopeId) :
    SameCauses e (applyMark pair target scope e) := by
  unfold applyMark
  simp only
  have hopen := SameCauses.openPartition e scope
  split
  · exact hopen
  · refine .setNextNodeId (.setPartition hopen ?_) (Nat.le_succ e.nextNodeId)
    exact ⟨rfl, rfl, rfl⟩

end Others

/-! ### Effects that write a cause -/

/-- One cause is written in one partition. A new cause gets the next identifier. -/
structure Writes (scope : ScopeId) (key : CauseKind × ScopeId) (node : CauseNode)
    (e e' : Engine) : Prop where
  here : e'.cause scope key = some node
  there : ∀ scope' key', (scope', key') ≠ (scope, key) → e'.cause scope' key' = e.cause scope' key'
  size : ∀ scope', (e.part scope').causes.entries.length ≤ (e'.part scope').causes.entries.length
  nextNodeId : e'.nextNodeId = if (e.cause scope key).isNone then e.nextNodeId + 1 else e.nextNodeId

/-- The cause that an inference writes. -/
def inferredNode (cause : CauseKind) (target : ScopeId) (weight : Weight) (key : RuntimeProvKey)
    (anchorTime : EventTime) (scope : ScopeId) (e : Engine) : CauseNode :=
  let node := (e.cause scope (cause, target)).getD
    ⟨e.nextNodeId + 1, cause, target, anchorTime, .minimum, [], []⟩
  { node with confidence := node.confidence.apply weight, provenance := node.provenance ++ [key] }

/-- The cause that a roll-up writes. -/
def rolledUpNode (cause : CauseKind) (target : ScopeId) (e : Engine) : CauseNode :=
  { (e.cause target (cause, target)).getD
      ⟨e.nextNodeId + 1, cause, target, e.store.watermark, .minimum, [], []⟩ with
    confidence := childConfidence cause target target e }

/-- An inference whose key was not seen. -/
structure Inferred (cause : CauseKind) (target : ScopeId) (weight : Weight) (key : RuntimeProvKey)
    (anchorTime : EventTime) (scope : ScopeId) (e e' : Engine) : Prop where
  writes : Writes scope (cause, target)
    (inferredNode cause target weight key anchorTime scope e) e e'
  fresh : key ∉ (e.part scope).seenProvenance
  seen : ∀ scope', (e'.part scope').seenProvenance =
    if scope' = scope then key :: (e.part scope).seenProvenance else (e.part scope').seenProvenance
  rollUps : ∀ scope', (e'.part scope').rollUps = (e.part scope').rollUps
  touched : e'.touched = e.touched

/-- The edge from a cause of a child, or the edges as they are if there is one. -/
def SubGraph.withRollUp (edges : List EvidenceEdge) (edge : EvidenceEdge) : List EvidenceEdge :=
  if edge ∈ edges then edges else edges ++ [edge]

/-- The partition has no room for a new cause. -/
def Engine.Full (host : Host) (e : Engine) (scope : ScopeId) : Prop :=
  host.limits.maxCausesPerScope ≤ (e.part scope).causes.entries.length

/-- A roll-up that finds room in the partition of the target. -/
structure RolledUp (host : Host) (cause : CauseKind) (target childScope : ScopeId)
    (e e' : Engine) : Prop where
  room : e.cause target (cause, target) = none → ¬ e.Full host target
  writes : Writes target (cause, target) (rolledUpNode cause target e) e e'
  seen : ∀ scope, (e'.part scope).seenProvenance = (e.part scope).seenProvenance
  rollUps : ∀ scope, (e'.part scope).rollUps =
    match e.cause childScope (cause, target) with
    | some child => if scope = target then
        SubGraph.withRollUp (e.part target).rollUps
          ⟨.rollsUp, .node child.id, (rolledUpNode cause target e).id⟩
        else (e.part scope).rollUps
    | none => (e.part scope).rollUps
  touched : e'.touched = e.touched.insert target ()

section Written

variable {e₁ : Engine} {scope : ScopeId} {g : SubGraph}

theorem part_written (hopen : ∀ scope', e₁.part scope' = e.part scope')
    (hwritten : ∀ scope', e'.part scope' = (e₁.setPartition scope g).part scope')
    (scope' : ScopeId) : e'.part scope' = if scope' = scope then g else e.part scope' := by
  rw [hwritten, part_setPartition, hopen]

/-- Replacing a partition by one with a cause inserted writes this cause. -/
theorem Writes.of_setPartition {key : CauseKind × ScopeId} {node : CauseNode}
    (hpart : ∀ scope', e'.part scope' = if scope' = scope then g else e.part scope')
    (hcauses : g.causes = AList.insert key node (e.part scope).causes)
    (hid : e'.nextNodeId = if (e.cause scope key).isNone then e.nextNodeId + 1 else e.nextNodeId) :
    Writes scope key node e e' := by
  have hhere : (e'.part scope).causes = AList.insert key node (e.part scope).causes := by
    rw [hpart, if_pos rfl, hcauses]
  have hthere : ∀ scope', scope' ≠ scope → e'.part scope' = e.part scope' := fun scope' h => by
    rw [hpart, if_neg h]
  refine ⟨?_, fun scope' key' hne => ?_, fun scope' => ?_, hid⟩
  · unfold Engine.cause
    rw [hhere, AList.lookup_insert]
  · unfold Engine.cause
    by_cases hscope : scope' = scope
    · subst hscope
      have hkey : key' ≠ key := fun h => hne (by rw [h])
      rw [hhere, AList.lookup_insert_ne hkey]
    · rw [hthere scope' hscope]
  · by_cases hscope : scope' = scope
    · subst hscope
      rw [hhere]
      exact Table.length_le_insert ..
    · rw [hthere scope' hscope]

theorem Inferred.of_setPartition {cause : CauseKind} {target : ScopeId} {weight : Weight}
    {key : RuntimeProvKey} {anchorTime : EventTime}
    (hopen : ∀ scope', e₁.part scope' = e.part scope')
    (hwritten : ∀ scope', e'.part scope' = (e₁.setPartition scope g).part scope')
    (hfresh : key ∉ (e.part scope).seenProvenance)
    (hcauses : g.causes = AList.insert (cause, target)
      (inferredNode cause target weight key anchorTime scope e) (e.part scope).causes)
    (hseen : g.seenProvenance = key :: (e.part scope).seenProvenance)
    (hrollUps : g.rollUps = (e.part scope).rollUps)
    (hid : e'.nextNodeId =
      if (e.cause scope (cause, target)).isNone then e.nextNodeId + 1 else e.nextNodeId)
    (htouched : e'.touched = e.touched) :
    Inferred cause target weight key anchorTime scope e e' := by
  have hpart := part_written hopen hwritten
  refine ⟨.of_setPartition hpart hcauses hid, hfresh, fun scope' => ?_, fun scope' => ?_, htouched⟩
  · rw [hpart]
    split
    · exact hseen
    · rfl
  · rw [hpart]
    split
    · rename_i heq
      rw [hrollUps, heq]
    · rfl

theorem RolledUp.of_setPartition {cause : CauseKind} {childScope : ScopeId}
    (hroom : e.cause scope (cause, scope) = none → ¬ e.Full host scope)
    (hopen : ∀ scope', e₁.part scope' = e.part scope')
    (hwritten : ∀ scope', e'.part scope' = (e₁.setPartition scope g).part scope')
    (hcauses : g.causes = AList.insert (cause, scope) (rolledUpNode cause scope e)
      (e.part scope).causes)
    (hseen : g.seenProvenance = (e.part scope).seenProvenance)
    (hrollUps : g.rollUps = match e.cause childScope (cause, scope) with
      | some child => SubGraph.withRollUp (e.part scope).rollUps
          ⟨.rollsUp, .node child.id, (rolledUpNode cause scope e).id⟩
      | none => (e.part scope).rollUps)
    (hid : e'.nextNodeId =
      if (e.cause scope (cause, scope)).isNone then e.nextNodeId + 1 else e.nextNodeId)
    (htouched : e'.touched = e.touched.insert scope ()) :
    RolledUp host cause scope childScope e e' := by
  have hpart := part_written hopen hwritten
  refine ⟨hroom, .of_setPartition hpart hcauses hid, fun scope' => ?_, fun scope' => ?_, htouched⟩
  · rw [hpart]
    split
    · rename_i heq
      rw [hseen, heq]
    · rfl
  · rw [hpart]
    split
    · rename_i heq
      subst heq
      exact hrollUps
    · split <;> rfl

end Written

/-- A new cause takes the next identifier. -/
theorem nextNodeId_allocate (e : Engine) (new : Bool) (id : Nat) :
    (if new then e.setNextNodeId id else e).nextNodeId = if new then id else e.nextNodeId := by
  split <;> rfl

theorem part_allocate (e : Engine) (new : Bool) (id : Nat) (scope : ScopeId) :
    (if new then e.setNextNodeId id else e).part scope = e.part scope := by
  split <;> rfl

theorem touched_allocate (e : Engine) (new : Bool) (id : Nat) :
    (if new then e.setNextNodeId id else e).touched = e.touched := by
  split <;> rfl

/-- Edges of inferences are no roll-up edges. -/
theorem rollUps_append (edges : List EvidenceEdge) (weight : Weight)
    (endpoints : List EdgeEndpoint) (id : NodeId) :
    (edges ++ endpoints.map fun src =>
      (⟨if weight.isSupporting then .supports else .contradicts, src, id⟩ : EvidenceEdge)).filter
        (·.kind == .rollsUp) = edges.filter (·.kind == .rollsUp) := by
  rw [List.filter_append, List.append_right_eq_self, List.filter_eq_nil_iff]
  intro edge hedge
  obtain ⟨src, -, rfl⟩ := List.mem_map.mp hedge
  cases weight.isSupporting <;> exact Bool.false_ne_true

theorem rollUps_withRollUp (edges : List EvidenceEdge) {edge : EvidenceEdge}
    (h : edge.kind = .rollsUp) : (SubGraph.withRollUp edges edge).filter (·.kind == .rollsUp) =
      SubGraph.withRollUp (edges.filter (·.kind == .rollsUp)) edge := by
  have hkind : (edge.kind == .rollsUp) = true := by
    rw [h]
    rfl
  have hone : [edge].filter (·.kind == .rollsUp) = [edge] := List.filter_eq_self.mpr fun a ha =>
    List.mem_singleton.mp ha ▸ hkind
  have hmem : edge ∈ edges.filter (·.kind == .rollsUp) ↔ edge ∈ edges := by
    rw [List.mem_filter]
    exact and_iff_left hkind
  unfold SubGraph.withRollUp
  simp only [hmem]
  split
  · rfl
  · rw [List.filter_append, hone]

section Applied

variable (host) (e) (cause : CauseKind) (target : ScopeId)

/-- An inference changes nothing, or writes its cause. -/
theorem applyInfer_cases (weight : Weight) (key : RuntimeProvKey) (endpoints : List EdgeEndpoint)
    (anchorTime : EventTime) (scope : ScopeId) :
    let applied := applyInfer host cause target weight key endpoints anchorTime scope e
    (applied.2 = none ∧ SameCauses e applied.1) ∨
      (applied.2.isSome ∧ Inferred cause target weight key anchorTime scope e applied.1) := by
  have hpart : (e.openPartition scope).store.partitionOf scope = e.part scope :=
    part_openPartition e scope scope
  have hopen := SameCauses.openPartition e scope
  have hexisting : (e.part scope).causes.lookup (cause, target) = e.cause scope (cause, target) :=
    rfl
  unfold applyInfer SubGraph.tryInsertProvenance
  simp only [hpart, hexisting]
  split
  · exact .inl ⟨rfl, hopen.trans (.of_part (fun _ => rfl) rfl le_rfl)⟩
  · split
    · exact .inl ⟨rfl, hopen⟩
    · rename_i part hfresh
      split at hfresh
      · cases hfresh
      · rename_i hkey
        obtain rfl := Option.some.inj hfresh
        refine .inr ⟨rfl, ?_⟩
        refine .of_setPartition (part_openPartition e scope) (part_allocate _ _ _) hkey rfl rfl
          ?_ (nextNodeId_allocate _ _ _) (touched_allocate _ _ _)
        exact rollUps_append ..

/-- A roll-up writes its cause, unless it is new and there is no room for it. -/
theorem applyRollup_cases (childScope : ScopeId) :
    let applied := applyRollup host cause target childScope e
    (applied.2 = none ∧ e.cause target (cause, target) = none ∧ e.Full host target ∧
      SameCauses (e.touch target) applied.1) ∨
      (applied.2.isSome ∧ RolledUp host cause target childScope e applied.1) := by
  have hopen : ∀ scope, ((e.touch target).openPartition target).part scope = e.part scope :=
    part_openPartition (e.touch target) target
  have hpart : ((e.touch target).openPartition target).store.partitionOf target = e.part target :=
    hopen target
  have hexisting : (e.part target).causes.lookup (cause, target) = e.cause target (cause, target) :=
    rfl
  unfold applyRollup
  simp only [hpart, hexisting, partition_lookup]
  split
  · rename_i hfull
    obtain ⟨hnone, hfull⟩ := Bool.and_eq_true_iff.mp hfull
    have hroom : e.Full host target := by
      unfold Engine.Full
      exact of_decide_eq_true hfull
    refine .inl ⟨rfl, Option.isNone_iff_eq_none.mp hnone, hroom, ?_⟩
    exact (SameCauses.openPartition (e.touch target) target).trans (.of_part (fun _ => rfl) rfl le_rfl)
  · rename_i hroom
    refine .inr ⟨rfl, ?_⟩
    refine .of_setPartition (fun hnone hfull => hroom ?_) hopen (part_allocate _ _ _) rfl rfl ?_ (nextNodeId_allocate _ _ _)
      (touched_allocate _ _ _)
    · rw [hnone]
      unfold Engine.Full at hfull
      exact decide_eq_true hfull
    cases e.cause childScope (cause, target) with
    | none => rfl
    | some child => exact rollUps_withRollUp _ rfl

end Applied

/-- Continuing with a target keeps what a report and the continuation keep. -/
theorem withTarget_preserves {P : Engine → Prop} {rule : RuleInstance} {path : MetricPath}
    {bindings : List Binding} {run : Run} {k : ScopeId → Run → Run}
    (hreport : ∀ e diags, P e → P (e.report diags))
    (hk : ∀ target run, P run.engine → P (k target run).engine) (h : P run.engine) :
    P (withTarget host rule path bindings run k).engine := by
  unfold withTarget
  simp only
  split
  · exact hk _ _ (hreport _ _ h)
  · exact hreport _ _ (hreport _ _ h)

/-- What an effect does to the causes: nothing, or it is an inference or a roll-up of
a rule that runs. -/
theorem Effect.cases {fires : RuleInstance → Bound → ScopeId → Prop}
    (h : Effect host fires e e') :
    SameCauses e e' ∨ ∃ rule anchor scope cause path weight evidence provenanceKey pii target,
      fires rule anchor scope ∧
      .inferCause cause path weight evidence provenanceKey pii ∈ rule.intents ∧
      ((Inferred cause target weight
          (runtimeProvKey provenanceKey target anchor.time host.limits.dedupWindow) anchor.time
          scope e e' ∧ ∃ bindings, bindings.head? = some (.bound anchor) ∧
            (resolveTarget host e.interner rule path bindings).1 = some target) ∨
        RolledUp host cause target scope e e' ∨ SameCauses (e.touch target) e') := by
  cases h with
  | report hdiags => exact .inl (.of_part (fun _ => rfl) rfl le_rfl)
  | bind hfires => exact .inl (bindRule_sameCauses e _ _ _)
  | infer endpoints hfires hintent hhead htarget =>
      obtain ⟨-, hsame⟩ | ⟨-, hinferred⟩ := applyInfer_cases host e _ _ _ _ endpoints _ _
      · exact .inl hsame
      · exact .inr ⟨_, _, _, _, _, _, _, _, _, _, hfires, hintent,
          .inl ⟨hinferred, _, hhead, htarget⟩⟩
  | rollup target hfires hintent =>
      refine .inr ⟨_, _, _, _, _, _, _, _, _, target, hfires, hintent, .inr ?_⟩
      obtain ⟨-, -, -, hsame⟩ | ⟨-, hrolled⟩ := applyRollup_cases host e _ target _
      · exact .inr hsame
      · exact .inl hrolled
  | compare snapshot scope other => exact .inl (compareCauses_sameCauses e snapshot scope other)
  | problem => exact .inl (applyEmit_sameCauses e ..)
  | supersede problem target scope => exact .inl (applySupersede_sameCauses e problem target scope)
  | mark pair target scope => exact .inl (applyMark_sameCauses e pair target scope)
  | action intent => exact .inl ((SameCauses.refl e).emit intent)

/-- That a rule has an inference among its intents. -/
def RuleInstance.Infers (rule : RuleInstance) : Prop :=
  ∃ cause path weight evidence provenanceKey pii,
    .inferCause cause path weight evidence provenanceKey pii ∈ rule.intents

/-- No decision rule of an accepted image infers. -/
theorem Cascades.not_infers {catalog : Catalog} {config : VerifyConfig} {ruleset : Ast.Ruleset}
    (h : verifyWithConfig catalog config ruleset = .ok host.image) {rule : RuleInstance}
    {anchor : Bound} {scope : ScopeId} (hcascades : Cascades host rule anchor scope) :
    ¬ rule.Infers := by
  rintro ⟨cause, path, weight, evidence, key, pii, hintent⟩
  obtain ⟨hmem, hkind⟩ := hcascades.kind
  obtain ⟨hevidence, -⟩ := accepted_infer h hmem hintent
  rw [hkind] at hevidence
  cases hevidence

/-- Rules that infer nothing write no cause. -/
theorem Effects.sameCauses {fires : RuleInstance → Bound → ScopeId → Prop}
    (hfires : ∀ rule anchor scope, fires rule anchor scope → ¬ rule.Infers)
    (h : Effects host fires e e') : SameCauses e e' := by
  induction h with
  | refl => exact .refl e
  | tail _ heffect ih =>
      obtain hsame | ⟨_, _, _, _, _, _, _, _, _, _, hrule, hintent, -⟩ := heffect.cases
      · exact ih.trans hsame
      · exact absurd ⟨_, _, _, _, _, _, hintent⟩ (hfires _ _ _ hrule)

/-- What garbage collection leaves of a partition. -/
theorem part_gcSweep (wm : EventTime) (e : Engine) (scope : ScopeId) :
    (gcSweep host wm e).part scope =
      ((e.part scope).pruneProvenance wm host.limits.maxLookback
        host.limits.dedupWindow).pruneEmitted wm host.problemCooldown := by
  unfold Engine.part gcSweep GraphStore.partitionOf GraphStore.pruneEmitted GraphStore.gc
  simp only [Table.lookup_mapValues]
  cases e.store.partitions.lookup scope with
  | none => rfl
  | some part => rfl

/-! ### The greatest confidence below a scope -/

/-- The greater of the confidence so far and the next one, if there is one. -/
def Confidence.best (best : Confidence) : Option Confidence → Confidence
  | some c => if best.value ≤ c.value then c else best
  | none => best

/-- The fold is an upper bound, and it is attained. -/
theorem foldl_best {α : Type} (f : α → Option Confidence) (l : List α) (start : Confidence) :
    let best := l.foldl (fun best a => best.best (f a)) start
    start.value ≤ best.value ∧ (∀ a ∈ l, ∀ c, f a = some c → c.value ≤ best.value) ∧
      (best = start ∨ ∃ a ∈ l, f a = some best) := by
  induction l generalizing start with
  | nil => exact ⟨le_rfl, fun a ha => absurd ha List.not_mem_nil, .inl rfl⟩
  | cons a rest ih =>
      have hstep : start.value ≤ (start.best (f a)).value ∧
          (∀ c, f a = some c → c.value ≤ (start.best (f a)).value) ∧
          (start.best (f a) = start ∨ f a = some (start.best (f a))) := by
        cases f a with
        | none => exact ⟨le_rfl, nofun, .inl rfl⟩
        | some c =>
            simp only [Confidence.best, Option.some.injEq, forall_eq']
            by_cases hle : start.value ≤ c.value
            · rw [if_pos hle]
              exact ⟨hle, le_rfl, .inr rfl⟩
            · rw [if_neg hle]
              exact ⟨le_rfl, by omega, .inl rfl⟩
      obtain ⟨hstart, hnext, hattained⟩ := hstep
      obtain ⟨hge, hrest, hbest⟩ := ih (start.best (f a))
      refine ⟨hstart.trans hge, fun b hb c hc => ?_, ?_⟩
      · obtain rfl | hb := List.mem_cons.mp hb
        · exact (hnext c hc).trans hge
        · exact hrest b hb c hc
      · simp only [List.foldl_cons]
        obtain hbest | ⟨b, hb, hfb⟩ := hbest
        · rw [hbest]
          exact hattained.imp id fun ha => ⟨a, List.mem_cons_self .., ha⟩
        · exact .inr ⟨b, List.mem_cons_of_mem _ hb, hfb⟩

theorem mem_touch (e : Engine) (scope : ScopeId) : (scope, ()) ∈ (e.touch scope).touched.entries :=
  SortedMap.mem_insertList_self scope () e.touched.entries

theorem mem_touch_of_mem (scope : ScopeId) {scope' : ScopeId}
    (h : (scope', ()) ∈ e.touched.entries) : (scope', ()) ∈ (e.touch scope).touched.entries := by
  by_cases heq : scope' = scope
  · rw [heq]
    exact mem_touch e scope
  · exact SortedMap.mem_insertList_of_ne h heq

/-- A scope that was touched stays touched. -/
theorem Effects.touched {fires : RuleInstance → Bound → ScopeId → Prop}
    (h : Effects host fires e e') {scope : ScopeId} (hscope : (scope, ()) ∈ e.touched.entries) :
    (scope, ()) ∈ e'.touched.entries := by
  refine h.invariant (P := fun e => (scope, ()) ∈ e.touched.entries) ?_ hscope
  intro e₁ e₂ hscope heffect
  obtain hsame | ⟨_, _, _, _, _, _, _, _, _, target, -, -,
    ⟨hinferred, -⟩ | hrolled | hsame⟩ := heffect.cases
  · exact hsame.touched ▸ hscope
  · exact hinferred.touched ▸ hscope
  · exact hrolled.touched ▸ mem_touch_of_mem target hscope
  · exact hsame.touched ▸ mem_touch_of_mem target hscope

/-- That a partition below the target holds the cause. -/
structure Child (e : Engine) (cause : CauseKind) (target scope : ScopeId) (node : CauseNode) :
    Prop where
  touched : (scope, ()) ∈ e.touched.entries
  ne : scope ≠ target
  below : scope.scopeType.isSubsumedBy target.scopeType = true
  holds : e.cause scope (cause, target) = some node

section Greatest

variable {cause : CauseKind} {target : ScopeId}

/-- What a touched scope adds to the maximum. -/
def childConfidenceAt (cause : CauseKind) (target : ScopeId) (e : Engine)
    (entry : ScopeId × Unit) : Option Confidence :=
  if entry.1 = target ∨ !entry.1.scopeType.isSubsumedBy target.scopeType then none
  else (e.cause entry.1 (cause, target)).map CauseNode.confidence

theorem childConfidenceAt_eq_some {entry : ScopeId × Unit} {c : Confidence} :
    childConfidenceAt cause target e entry = some c ↔ entry.1 ≠ target ∧
      entry.1.scopeType.isSubsumedBy target.scopeType = true ∧
      ∃ node, e.cause entry.1 (cause, target) = some node ∧ node.confidence = c := by
  unfold childConfidenceAt
  split
  · rename_i h
    refine iff_of_false (fun hc => by cases hc) fun ⟨hne, hbelow, _⟩ => ?_
    obtain h | h := h
    · exact hne h
    · rw [hbelow] at h
      cases h
  · rename_i h
    obtain ⟨hne, hbelow⟩ := not_or.mp h
    rw [Option.map_eq_some_iff]
    simp only [Bool.not_eq_true', Bool.not_eq_false] at hbelow
    exact ⟨fun hnode => ⟨hne, hbelow, hnode⟩, fun ⟨_, _, hnode⟩ => hnode⟩

theorem childConfidence_eq : childConfidence cause target target e =
    e.touched.entries.foldl (fun best entry => best.best (childConfidenceAt cause target e entry))
      .minimum := by
  unfold childConfidence childConfidenceAt
  congr 1
  funext best entry
  rw [partition_lookup]
  split
  · rfl
  · cases e.cause entry.1 (cause, target) <;> rfl

theorem Child.le_childConfidence {scope : ScopeId} {node : CauseNode}
    (h : Child e cause target scope node) :
    node.confidence.value ≤ (childConfidence cause target target e).value := by
  rw [childConfidence_eq]
  exact (foldl_best _ _ _).2.1 _ h.touched _
    (childConfidenceAt_eq_some.mpr ⟨h.ne, h.below, node, h.holds, rfl⟩)

/-- The maximum is that of a child, unless there is none. -/
theorem childConfidence_attained (e : Engine) (cause : CauseKind) (target : ScopeId) :
    childConfidence cause target target e = .minimum ∨
    ∃ scope node, Child e cause target scope node ∧
      node.confidence = childConfidence cause target target e := by
  rw [childConfidence_eq]
  refine (foldl_best _ _ _).2.2.imp id ?_
  intro ⟨⟨scope, _⟩, hentry, hc⟩
  obtain ⟨hne, hbelow, node, hholds, heq⟩ := childConfidenceAt_eq_some.mp hc
  exact ⟨scope, node, ⟨hentry, hne, hbelow, hholds⟩, heq⟩

end Greatest

end Adgl
