import NFdl.Adgl.Partitions
import NFdl.Adgl.Targets

/-!
# Roll-ups

Between two calls a cause that was rolled up has the greatest confidence among the
partitions below its target, and one edge from each of their causes. An inference
breaks this for its own cause only, and the roll-up after it restores it.
-/

namespace Adgl

open Ast (Ruleset)

variable {host : Host} {e e' : Engine} {due : CauseKind → ScopeId → ScopeId → Prop}

/-- What holds of the causes of all partitions, except for the roll-ups that are due:
of a cause, a target, and the scope where the cause was inferred. -/
structure Rolled (host : Host) (due : CauseKind → ScopeId → ScopeId → Prop) (e : Engine) :
    Prop where
  touched : ∀ scope key node, e.cause scope key = some node → (scope, ()) ∈ e.touched.entries
  ids_le : ∀ scope key node, e.cause scope key = some node → node.id ≤ e.nextNodeId
  ids_inj : ∀ scope key node scope' key' node', e.cause scope key = some node →
    e.cause scope' key' = some node' → node.id = node'.id → scope = scope' ∧ key = key'
  full : ∀ cause target scope child, Child e cause target scope child → ¬ due cause target scope →
    e.cause target (cause, target) = none → e.Full host target
  upper : ∀ cause target node, e.cause target (cause, target) = some node → node.provenance = [] →
    (∀ scope, ¬ due cause target scope) → ∀ scope child, Child e cause target scope child →
      child.confidence.value ≤ node.confidence.value
  attained : ∀ cause target node, e.cause target (cause, target) = some node →
    node.provenance = [] → (∀ scope, ¬ due cause target scope) →
      ∃ scope child, Child e cause target scope child ∧ child.confidence = node.confidence
  edge : ∀ cause target node, e.cause target (cause, target) = some node → node.provenance = [] →
    ∀ scope child, Child e cause target scope child → ¬ due cause target scope →
      ⟨.rollsUp, .node child.id, node.id⟩ ∈ (e.part target).rollUps
  edges_nodup : ∀ target, (e.part target).rollUps.Nodup
  edges_from : ∀ target, ∀ edge ∈ (e.part target).rollUps, ∃ cause scope child node,
    e.cause scope (cause, target) = some child ∧ e.cause target (cause, target) = some node ∧
      edge = ⟨.rollsUp, .node child.id, node.id⟩

/-- No roll-up is due. -/
abbrev Settled (host : Host) (e : Engine) : Prop := Rolled host (fun _ _ _ => False) e

/-- The roll-up that an inference makes due: from its scope, if that is below the
target. -/
def dueAt (cause : CauseKind) (target scope : ScopeId) (cause' : CauseKind)
    (target' scope' : ScopeId) : Prop :=
  cause' = cause ∧ target' = target ∧ scope' = scope ∧ scope ≠ target ∧
    scope.scopeType.isSubsumedBy target.scopeType = true

/-! ### Changes that write no cause -/

/-- The same causes in scopes that were touched: what is below a target is the same. -/
theorem Child.of_same {cause : CauseKind} {target scope : ScopeId} {node : CauseNode}
    (h : Child e' cause target scope node) (hcause : e'.cause scope (cause, target) =
      e.cause scope (cause, target))
    (htouched : ∀ node, e.cause scope (cause, target) = some node → (scope, ()) ∈ e.touched.entries) :
    Child e cause target scope node :=
  ⟨htouched node (hcause ▸ h.holds), h.ne, h.below, hcause ▸ h.holds⟩

theorem Child.mono {cause : CauseKind} {target scope : ScopeId} {node : CauseNode}
    (h : Child e cause target scope node) (hcause : e'.cause scope (cause, target) =
      e.cause scope (cause, target))
    (htouched : ∀ scope, (scope, ()) ∈ e.touched.entries → (scope, ()) ∈ e'.touched.entries) :
    Child e' cause target scope node :=
  ⟨htouched scope h.touched, h.ne, h.below, hcause ▸ h.holds⟩

namespace Rolled

theorem of_same (h : Rolled host due e) (hcause : ∀ scope key, e'.cause scope key = e.cause scope key)
    (hsize : ∀ scope, (e.part scope).causes.entries.length ≤ (e'.part scope).causes.entries.length)
    (hrollUps : ∀ scope, (e'.part scope).rollUps = (e.part scope).rollUps)
    (htouched : ∀ scope, (scope, ()) ∈ e.touched.entries → (scope, ()) ∈ e'.touched.entries)
    (hid : e.nextNodeId ≤ e'.nextNodeId) : Rolled host due e' := by
  have hback : ∀ {cause target scope node}, Child e' cause target scope node →
      Child e cause target scope node := fun hchild =>
    hchild.of_same (hcause _ _) (h.touched _ _)
  refine ⟨fun scope key node hnode => ?_, fun scope key node hnode => ?_,
    fun scope key node scope' key' node' hnode hnode' => ?_,
    fun cause target scope child hchild hdue hnone => ?_,
    fun cause target node hnode hrolled hdue scope child hchild => ?_,
    fun cause target node hnode hrolled hdue => ?_,
    fun cause target node hnode hrolled scope child hchild hdue => ?_,
    fun target => ?_, fun target edge hedge => ?_⟩
  · rw [hcause] at hnode
    exact htouched scope (h.touched scope key node hnode)
  · rw [hcause] at hnode
    exact (h.ids_le scope key node hnode).trans hid
  · rw [hcause] at hnode hnode'
    exact h.ids_inj scope key node scope' key' node' hnode hnode'
  · rw [hcause] at hnone
    exact (h.full cause target scope child (hback hchild) hdue hnone).trans (hsize target)
  · rw [hcause] at hnode
    exact h.upper cause target node hnode hrolled hdue scope child (hback hchild)
  · rw [hcause] at hnode
    obtain ⟨scope, child, hchild, heq⟩ := h.attained cause target node hnode hrolled hdue
    exact ⟨scope, child, hchild.mono (hcause _ _) htouched, heq⟩
  · rw [hcause] at hnode
    rw [hrollUps]
    exact h.edge cause target node hnode hrolled scope child (hback hchild) hdue
  · rw [hrollUps]
    exact h.edges_nodup target
  · rw [hrollUps] at hedge
    simp only [hcause]
    exact h.edges_from target edge hedge

theorem of_sameCauses (h : Rolled host due e) (hsame : SameCauses e e') : Rolled host due e' :=
  h.of_same hsame.cause (fun scope => by rw [hsame.causes]) hsame.rollUps
    (fun scope hscope => hsame.touched ▸ hscope) hsame.nextNodeId

theorem touch (h : Rolled host due e) (scope : ScopeId) : Rolled host due (e.touch scope) :=
  h.of_same (fun _ _ => rfl) (fun _ => le_rfl) (fun _ => rfl)
    (fun _ hscope => mem_touch_of_mem scope hscope) le_rfl

/-- With no roll-up due the causes are settled. -/
theorem settled (h : Rolled host due e) (hdue : ∀ cause target scope, ¬ due cause target scope) :
    Settled host e where
  touched := h.touched
  ids_le := h.ids_le
  ids_inj := h.ids_inj
  full cause target scope child hchild _ := h.full cause target scope child hchild (hdue _ _ _)
  upper cause target node hnode hrolled _ := h.upper cause target node hnode hrolled (hdue _ _)
  attained cause target node hnode hrolled _ := h.attained cause target node hnode hrolled (hdue _ _)
  edge cause target node hnode hrolled scope child hchild _ :=
    h.edge cause target node hnode hrolled scope child hchild (hdue _ _ _)
  edges_nodup := h.edges_nodup
  edges_from := h.edges_from

end Rolled

/-! ### Identifiers of causes -/

/-- A cause that is written keeps its identifier, and a new one gets the next. -/
def writtenId (e : Engine) (scope : ScopeId) (key : CauseKind × ScopeId) : NodeId :=
  ((e.cause scope key).map CauseNode.id).getD (e.nextNodeId + 1)

theorem inferredNode_id (cause : CauseKind) (target : ScopeId) (weight : Weight)
    (key : RuntimeProvKey) (anchorTime : EventTime) (scope : ScopeId) :
    (inferredNode cause target weight key anchorTime scope e).id =
      writtenId e scope (cause, target) := by
  unfold inferredNode writtenId
  cases e.cause scope (cause, target) <;> rfl

theorem rolledUpNode_id (cause : CauseKind) (target : ScopeId) :
    (rolledUpNode cause target e).id = writtenId e target (cause, target) := by
  unfold rolledUpNode writtenId
  cases e.cause target (cause, target) <;> rfl

section Written

variable {scope : ScopeId} {key : CauseKind × ScopeId} {node : CauseNode}

/-- Every cause is the one that was written, or was there before. -/
theorem Writes.cases (h : Writes scope key node e e') {scope' : ScopeId}
    {key' : CauseKind × ScopeId} {node' : CauseNode} (hnode : e'.cause scope' key' = some node') :
    (scope' = scope ∧ key' = key ∧ node' = node) ∨
      ((scope', key') ≠ (scope, key) ∧ e.cause scope' key' = some node') := by
  by_cases hsame : (scope', key') = (scope, key)
  · obtain ⟨rfl, rfl⟩ := Prod.mk.inj hsame
    exact .inl ⟨rfl, rfl, Option.some.inj (hnode.symm.trans h.here)⟩
  · exact .inr ⟨hsame, h.there scope' key' hsame ▸ hnode⟩

theorem Writes.none (h : Writes scope key node e e') {scope' : ScopeId}
    {key' : CauseKind × ScopeId} (hnone : e'.cause scope' key' = none) :
    (scope', key') ≠ (scope, key) ∧ e.cause scope' key' = none := by
  have hne : (scope', key') ≠ (scope, key) := by
    intro hsame
    obtain ⟨rfl, rfl⟩ := Prod.mk.inj hsame
    rw [h.here] at hnone
    cases hnone
  exact ⟨hne, h.there scope' key' hne ▸ hnone⟩

theorem Writes.nextNodeId_le (h : Writes scope key node e e') : e.nextNodeId ≤ e'.nextNodeId := by
  rw [h.nextNodeId]
  split <;> omega

/-- No cause is lost, and none changes its identifier. -/
theorem Writes.kept (h : Writes scope key node e e') (hid : node.id = writtenId e scope key)
    {scope' : ScopeId} {key' : CauseKind × ScopeId} {old : CauseNode}
    (hold : e.cause scope' key' = some old) :
    ∃ new, e'.cause scope' key' = some new ∧ new.id = old.id := by
  by_cases hsame : (scope', key') = (scope, key)
  · obtain ⟨rfl, rfl⟩ := Prod.mk.inj hsame
    refine ⟨node, h.here, ?_⟩
    rw [hid, writtenId, hold]
    rfl
  · exact ⟨old, (h.there scope' key' hsame).trans hold, rfl⟩

variable (hle : ∀ scope key node, e.cause scope key = some node → node.id ≤ e.nextNodeId)
  (hid : node.id = writtenId e scope key)
include hle hid

theorem Writes.ids_le (h : Writes scope key node e e') {scope' : ScopeId}
    {key' : CauseKind × ScopeId} {node' : CauseNode} (hnode : e'.cause scope' key' = some node') :
    node'.id ≤ e'.nextNodeId := by
  obtain ⟨rfl, rfl, rfl⟩ | ⟨-, hbefore⟩ := h.cases hnode
  · rw [hid, h.nextNodeId, writtenId]
    cases hold : e.cause scope' key' with
    | none => exact le_rfl
    | some old => exact hle scope' key' old hold
  · exact (hle scope' key' node' hbefore).trans h.nextNodeId_le

/-- The identifier that is written belongs to no other cause. -/
theorem writtenId_ne (hinj : ∀ scope key node scope' key' node', e.cause scope key = some node →
      e.cause scope' key' = some node' → node.id = node'.id → scope = scope' ∧ key = key')
    {scope' : ScopeId} {key' : CauseKind × ScopeId} {node' : CauseNode}
    (hother : (scope', key') ≠ (scope, key)) (hnode : e.cause scope' key' = some node') :
    node.id ≠ node'.id := by
  intro heq
  rw [hid, writtenId] at heq
  cases hold : e.cause scope key with
  | none =>
      rw [hold] at heq
      have hbound := hle scope' key' node' hnode
      rw [← heq] at hbound
      exact Nat.not_succ_le_self _ hbound
  | some old =>
      rw [hold] at heq
      obtain ⟨rfl, rfl⟩ := hinj scope key old scope' key' node' hold hnode heq
      exact hother rfl

theorem Writes.ids_inj (h : Writes scope key node e e')
    (hinj : ∀ scope key node scope' key' node', e.cause scope key = some node →
      e.cause scope' key' = some node' → node.id = node'.id → scope = scope' ∧ key = key')
    {scope₁ scope₂ : ScopeId} {key₁ key₂ : CauseKind × ScopeId} {node₁ node₂ : CauseNode}
    (h₁ : e'.cause scope₁ key₁ = some node₁) (h₂ : e'.cause scope₂ key₂ = some node₂)
    (heq : node₁.id = node₂.id) : scope₁ = scope₂ ∧ key₁ = key₂ := by
  obtain ⟨rfl, rfl, rfl⟩ | ⟨hne₁, hbefore₁⟩ := h.cases h₁
  · obtain ⟨rfl, rfl, rfl⟩ | ⟨hne₂, hbefore₂⟩ := h.cases h₂
    · exact ⟨rfl, rfl⟩
    · exact absurd heq (writtenId_ne hle hid hinj hne₂ hbefore₂)
  · obtain ⟨rfl, rfl, rfl⟩ | ⟨hne₂, hbefore₂⟩ := h.cases h₂
    · exact absurd heq.symm (writtenId_ne hle hid hinj hne₁ hbefore₁)
    · exact hinj _ _ _ _ _ _ hbefore₁ hbefore₂ heq

end Written

/-! ### An inference and its roll-up -/

section Steps

variable {cause : CauseKind} {target scope : ScopeId}

theorem ne_nil_of_inferred {weight : Weight} {key : RuntimeProvKey} {anchorTime : EventTime} :
    (inferredNode cause target weight key anchorTime scope e).provenance ≠ [] := by
  unfold inferredNode
  exact List.append_ne_nil_of_right_ne_nil _ (List.cons_ne_nil _ _)

/-- After an inference only its own roll-up is due. -/
theorem Rolled.inferred (h : Settled host e) {weight : Weight} {key : RuntimeProvKey}
    {anchorTime : EventTime} (hscope : (scope, ()) ∈ e.touched.entries)
    (hinferred : Inferred cause target weight key anchorTime scope e e') :
    Rolled host (dueAt cause target scope) e' := by
  have hwrites := hinferred.writes
  have hid := inferredNode_id (e := e) cause target weight key anchorTime scope
  have htouched : ∀ scope', (scope', ()) ∈ e.touched.entries → (scope', ()) ∈ e'.touched.entries :=
    fun scope' hscope' => hinferred.touched ▸ hscope'
  -- What is below a target was there before, unless its roll-up is due now.
  have hback : ∀ {cause' target' scope' child}, Child e' cause' target' scope' child →
      ¬ dueAt cause target scope cause' target' scope' → Child e cause' target' scope' child ∧
        (scope', (cause', target')) ≠ (scope, (cause, target)) := by
    intro cause' target' scope' child hchild hdue
    obtain ⟨rfl, hkey, -⟩ | ⟨hne, hbefore⟩ := hwrites.cases hchild.holds
    · obtain ⟨rfl, rfl⟩ := Prod.mk.inj hkey
      exact absurd ⟨rfl, rfl, rfl, hchild.ne, hchild.below⟩ hdue
    · exact ⟨⟨hinferred.touched ▸ hchild.touched, hchild.ne, hchild.below, hbefore⟩, hne⟩
  have hparent : ∀ {cause' target' node}, e'.cause target' (cause', target') = some node →
      node.provenance = [] → e.cause target' (cause', target') = some node := by
    intro cause' target' node hnode hrolled
    obtain ⟨-, -, rfl⟩ | ⟨-, hbefore⟩ := hwrites.cases hnode
    · exact absurd hrolled ne_nil_of_inferred
    · exact hbefore
  refine ⟨fun scope' key' node hnode => ?_, fun scope' key' node => hwrites.ids_le h.ids_le hid,
    fun scope₁ key₁ node₁ scope₂ key₂ node₂ => hwrites.ids_inj h.ids_le hid h.ids_inj,
    fun cause' target' scope' child hchild hdue hnone => ?_,
    fun cause' target' node hnode hrolled hdue scope' child hchild => ?_,
    fun cause' target' node hnode hrolled hdue => ?_,
    fun cause' target' node hnode hrolled scope' child hchild hdue => ?_,
    fun target' => ?_, fun target' edge hedge => ?_⟩
  · obtain ⟨rfl, rfl, rfl⟩ | ⟨-, hbefore⟩ := hwrites.cases hnode
    · exact htouched _ hscope
    · exact htouched _ (h.touched scope' key' node hbefore)
  · exact (h.full cause' target' scope' child (hback hchild hdue).1 id (hwrites.none hnone).2).trans
      (hwrites.size target')
  · exact h.upper cause' target' node (hparent hnode hrolled) hrolled (fun _ => id) scope' child
      (hback hchild (hdue scope')).1
  · obtain ⟨scope', child, hchild, heq⟩ :=
      h.attained cause' target' node (hparent hnode hrolled) hrolled (fun _ => id)
    refine ⟨scope', child, hchild.mono (hwrites.there _ _ fun hsame => ?_) htouched, heq⟩
    obtain ⟨rfl, hkey⟩ := Prod.mk.inj hsame
    obtain ⟨rfl, rfl⟩ := Prod.mk.inj hkey
    exact hdue _ ⟨rfl, rfl, rfl, hchild.ne, hchild.below⟩
  · rw [hinferred.rollUps]
    exact h.edge cause' target' node (hparent hnode hrolled) hrolled scope' child
      (hback hchild hdue).1 id
  · rw [hinferred.rollUps]
    exact h.edges_nodup target'
  · rw [hinferred.rollUps] at hedge
    obtain ⟨cause', scope', child, node, hchild, hnode, rfl⟩ := h.edges_from target' edge hedge
    obtain ⟨child', hchild', hchildId⟩ := hwrites.kept hid hchild
    obtain ⟨node', hnode', hnodeId⟩ := hwrites.kept hid hnode
    exact ⟨cause', scope', child', node', hchild', hnode', by rw [hchildId, hnodeId]⟩

theorem mem_withRollUp {edges : List EvidenceEdge} {edge edge' : EvidenceEdge} :
    edge' ∈ SubGraph.withRollUp edges edge ↔ edge' ∈ edges ∨ edge' = edge := by
  unfold SubGraph.withRollUp
  split
  · rename_i hmem
    exact ⟨.inl, fun h => h.elim id fun heq => heq ▸ hmem⟩
  · rw [List.mem_append, List.mem_singleton]

theorem nodup_withRollUp {edges : List EvidenceEdge} (h : edges.Nodup) (edge : EvidenceEdge) :
    (SubGraph.withRollUp edges edge).Nodup := by
  unfold SubGraph.withRollUp
  split
  · exact h
  · rename_i hmem
    refine List.nodup_append.mpr ⟨h, List.nodup_singleton _, fun a ha b hb heq => hmem ?_⟩
    exact List.mem_singleton.mp hb ▸ heq ▸ ha

/-- The roll-up edges of the target after a roll-up from a scope that holds the cause. -/
theorem RolledUp.mem_rollUps {child : CauseNode} (h : RolledUp host cause target scope e e')
    (hchild : e.cause scope (cause, target) = some child) {target' : ScopeId}
    {edge : EvidenceEdge} : edge ∈ (e'.part target').rollUps ↔ edge ∈ (e.part target').rollUps ∨
      (target' = target ∧ edge = ⟨.rollsUp, .node child.id, (rolledUpNode cause target e).id⟩) := by
  rw [h.rollUps, hchild]
  simp only
  split
  · rename_i heq
    subst heq
    rw [mem_withRollUp]
    exact or_congr_right ⟨fun h => ⟨rfl, h⟩, And.right⟩
  · rename_i hne
    exact ⟨.inl, fun hedge => hedge.resolve_right fun hnew => hne hnew.1⟩

theorem Confidence.eq_minimum {c : Confidence} (h : c.value ≤ 0) : c = .minimum := by
  obtain ⟨value, hvalue⟩ := c
  obtain rfl := Nat.le_zero.mp h
  rfl

/-- With a child, the greatest confidence below a target is that of one. -/
theorem Child.attained {child : CauseNode} (h : Child e cause target scope child) :
    ∃ scope child, Child e cause target scope child ∧
      child.confidence = childConfidence cause target target e := by
  obtain hmin | hattained := childConfidence_attained e cause target
  · have hle := h.le_childConfidence
    rw [hmin] at hle
    exact ⟨scope, child, h, (Confidence.eq_minimum hle).trans hmin.symm⟩
  · exact hattained

/-- A roll-up finds the edges from the other children, since it finds room. -/
theorem Rolled.before_rollUp (h : Rolled host due e) {child : CauseNode}
    (hchild : Child e cause target scope child) (hdue : ¬ due cause target scope)
    (hroom : e.cause target (cause, target) = none → ¬ e.Full host target)
    (hrolled : (rolledUpNode cause target e).provenance = []) :
    ⟨.rollsUp, .node child.id, (rolledUpNode cause target e).id⟩ ∈ (e.part target).rollUps := by
  cases hold : e.cause target (cause, target) with
  | none => exact absurd (h.full cause target scope child hchild hdue hold) (hroom hold)
  | some old =>
      unfold rolledUpNode at hrolled ⊢
      rw [hold] at hrolled ⊢
      exact h.edge cause target old hold hrolled scope child hchild hdue

/-- The roll-up that was due settles the causes. -/
theorem Rolled.rolledUp (h : Rolled host (dueAt cause target scope) e) {child : CauseNode}
    (hchild : Child e cause target scope child) (hrolledUp : RolledUp host cause target scope e e') :
    Settled host e' := by
  have hwrites := hrolledUp.writes
  have hid := rolledUpNode_id (e := e) cause target
  have htouched : ∀ scope', (scope', ()) ∈ e.touched.entries → (scope', ()) ∈ e'.touched.entries := by
    intro scope' hscope'
    rw [hrolledUp.touched]
    exact mem_touch_of_mem target hscope'
  -- The roll-up writes in the partition of the target, which is not below itself.
  have hbelow : ∀ {cause' target' scope'}, scope' ≠ target' →
      e'.cause scope' (cause', target') = e.cause scope' (cause', target') := by
    intro cause' target' scope' hne
    refine hwrites.there _ _ fun hsame => ?_
    obtain ⟨rfl, hkey⟩ := Prod.mk.inj hsame
    exact hne (Prod.mk.inj hkey).2.symm
  have hback : ∀ {cause' target' scope' child'}, Child e' cause' target' scope' child' →
      Child e cause' target' scope' child' := fun hchild' =>
    hchild'.of_same (hbelow hchild'.ne) (h.touched _ _)
  have hmono : ∀ {cause' target' scope' child'}, Child e cause' target' scope' child' →
      Child e' cause' target' scope' child' := fun hchild' =>
    hchild'.mono (hbelow hchild'.ne) htouched
  have hother : ∀ {cause' target'}, (target', (cause', target')) ≠ (target, (cause, target)) →
      ∀ scope', ¬ dueAt cause target scope cause' target' scope' := by
    rintro cause' target' hne scope' ⟨rfl, rfl, -⟩
    exact hne rfl
  refine ⟨fun scope' key' node hnode => ?_, fun scope' key' node => hwrites.ids_le h.ids_le hid,
    fun scope₁ key₁ node₁ scope₂ key₂ node₂ => hwrites.ids_inj h.ids_le hid h.ids_inj,
    fun cause' target' scope' child' hchild' _ hnone => ?_,
    fun cause' target' node hnode hrolled _ scope' child' hchild' => ?_,
    fun cause' target' node hnode hrolled _ => ?_,
    fun cause' target' node hnode hrolled scope' child' hchild' _ => ?_,
    fun target' => ?_, fun target' edge hedge => ?_⟩
  · obtain ⟨rfl, rfl, rfl⟩ | ⟨-, hbefore⟩ := hwrites.cases hnode
    · rw [hrolledUp.touched]
      exact mem_touch e _
    · exact htouched _ (h.touched scope' key' node hbefore)
  · obtain ⟨hne, hbefore⟩ := hwrites.none hnone
    exact (h.full cause' target' scope' child' (hback hchild') (hother hne scope') hbefore).trans
      (hwrites.size target')
  · obtain ⟨rfl, hkey, rfl⟩ | ⟨hne, hbefore⟩ := hwrites.cases hnode
    · obtain ⟨rfl, -⟩ := Prod.mk.inj hkey
      exact (hback hchild').le_childConfidence
    · exact h.upper cause' target' node hbefore hrolled (hother hne) scope' child' (hback hchild')
  · obtain ⟨rfl, hkey, rfl⟩ | ⟨hne, hbefore⟩ := hwrites.cases hnode
    · obtain ⟨rfl, -⟩ := Prod.mk.inj hkey
      obtain ⟨scope', child', hchild', heq⟩ := hchild.attained
      exact ⟨scope', child', hmono hchild', heq⟩
    · obtain ⟨scope', child', hchild', heq⟩ :=
        h.attained cause' target' node hbefore hrolled (hother hne)
      exact ⟨scope', child', hmono hchild', heq⟩
  · rw [hrolledUp.mem_rollUps hchild.holds]
    obtain ⟨rfl, hkey, rfl⟩ | ⟨hne, hbefore⟩ := hwrites.cases hnode
    · obtain ⟨rfl, -⟩ := Prod.mk.inj hkey
      by_cases hscope : scope' = scope
      · subst hscope
        obtain rfl := Option.some.inj (hchild.holds.symm.trans (hback hchild').holds)
        exact .inr ⟨rfl, rfl⟩
      · have hold := h.before_rollUp (hback hchild') (fun hdue => hscope hdue.2.2.1) hrolledUp.room
          hrolled
        exact .inl hold
    · exact .inl (h.edge cause' target' node hbefore hrolled scope' child' (hback hchild')
        (hother hne scope'))
  · rw [hrolledUp.rollUps, hchild.holds]
    simp only
    split
    · exact nodup_withRollUp (h.edges_nodup target) _
    · exact h.edges_nodup target'
  · obtain hold | ⟨rfl, rfl⟩ := (hrolledUp.mem_rollUps hchild.holds).mp hedge
    · obtain ⟨cause', scope', child', node, hchild', hnode, rfl⟩ := h.edges_from target' edge hold
      obtain ⟨child₂, hchild₂, hchildId⟩ := hwrites.kept hid hchild'
      obtain ⟨node₂, hnode₂, hnodeId⟩ := hwrites.kept hid hnode
      exact ⟨cause', scope', child₂, node₂, hchild₂, hnode₂, by rw [hchildId, hnodeId]⟩
    · exact ⟨cause, scope, child, _, (hbelow hchild.ne).trans hchild.holds, hwrites.here, rfl⟩

/-- A roll-up that finds no room is not due: there is no cause to be kept up. -/
theorem Rolled.rejected (h : Rolled host (dueAt cause target scope) e)
    (hnone : e.cause target (cause, target) = none) (hfull : e.Full host target) :
    Settled host e where
  touched := h.touched
  ids_le := h.ids_le
  ids_inj := h.ids_inj
  full cause' target' scope' child hchild _ hnone' := by
    by_cases hdue : dueAt cause target scope cause' target' scope'
    · rw [hdue.2.1]
      exact hfull
    · exact h.full cause' target' scope' child hchild hdue hnone'
  upper cause' target' node hnode hrolled _ := by
    refine h.upper cause' target' node hnode hrolled ?_
    rintro scope' ⟨rfl, rfl, -⟩
    rw [hnone] at hnode
    cases hnode
  attained cause' target' node hnode hrolled _ := by
    refine h.attained cause' target' node hnode hrolled ?_
    rintro scope' ⟨rfl, rfl, -⟩
    rw [hnone] at hnode
    cases hnode
  edge cause' target' node hnode hrolled scope' child hchild _ := by
    refine h.edge cause' target' node hnode hrolled scope' child hchild ?_
    rintro ⟨rfl, rfl, -⟩
    rw [hnone] at hnode
    cases hnode
  edges_nodup := h.edges_nodup
  edges_from := h.edges_from

end Steps

/-! ### Running a rule -/

/-- The causes are settled, and the scope of the rule was touched. -/
structure SettledIn (host : Host) (scope : ScopeId) (e : Engine) : Prop where
  settled : Settled host e
  touched : (scope, ()) ∈ e.touched.entries

theorem SettledIn.of_sameCauses {scope : ScopeId} (h : SettledIn host scope e)
    (hsame : SameCauses e e') : SettledIn host scope e' :=
  ⟨h.settled.of_sameCauses hsame, hsame.touched ▸ h.touched⟩

section Running

variable {fire : Fire} {rule : RuleInstance} {anchor : Bound} {scope : ScopeId}
  (hdecides : ∀ rule anchor scope, Cascades host rule anchor scope → ¬ rule.Infers)
  (hfire : FiresByEffects host (Cascades host) fire)
include hdecides hfire

/-- The decisions that follow a change of a cause write no cause. -/
theorem followUp_sameCauses (scope : ScopeId) (applied : Engine × Option CauseSnapshot) (run : Run) :
    SameCauses applied.1 (followUp host fire scope applied run).engine := by
  have heffects : Effects host (Cascades host) (Run.mk applied.1 run.budget).engine
      (followUp host fire scope applied ⟨applied.1, run.budget⟩).engine :=
    followUp_effects hfire scope .refl
  exact heffects.sameCauses hdecides

/-- The roll-up that is due, with what follows it, settles the causes. -/
theorem rollupCauseToParent_settled {cause : CauseKind} {target : ScopeId} {child : CauseNode}
    {run : Run} (h : Rolled host (dueAt cause target scope) run.engine)
    (hchild : Child run.engine cause target scope child) :
    SettledIn host scope (rollupCauseToParent host fire cause target scope run).engine := by
  have hsame := followUp_sameCauses hdecides hfire target
    (applyRollup host cause target scope run.engine) run
  refine SettledIn.of_sameCauses ?_ hsame
  have htouch : (scope, ()) ∈ (run.engine.touch target).touched.entries :=
    mem_touch_of_mem target hchild.touched
  obtain ⟨-, hnone, hfull, hrejected⟩ | ⟨-, hrolledUp⟩ :=
    applyRollup_cases host run.engine cause target scope
  · refine ⟨?_, hrejected.touched ▸ htouch⟩
    exact (h.rejected hnone hfull).touch target |>.of_sameCauses hrejected
  · refine ⟨h.rolledUp hchild hrolledUp, ?_⟩
    rw [hrolledUp.touched]
    exact htouch

theorem execInfer_settled {cause : CauseKind} {path : MetricPath} {weight : Weight}
    {evidence : List Symbol} {provenanceKey : ProvKey} (bindings : List Binding) {run : Run}
    (h : SettledIn host scope run.engine) :
    SettledIn host scope (execInfer host fire rule cause path weight evidence provenanceKey bindings
      anchor scope run).engine := by
  refine withTarget_preserves (fun _ _ h => h.of_sameCauses (.of_part (fun _ => rfl) rfl le_rfl))
    (fun target run h => ?_) h
  simp only
  generalize hkey : runtimeProvKey _ _ _ _ = key
  generalize hendpoints : evidenceEndpoints _ _ _ = endpoints
  have hsame := followUp_sameCauses hdecides hfire scope
    (applyInfer host cause target weight key endpoints anchor.time scope run.engine) run
  obtain ⟨hnone, hunchanged⟩ | ⟨hsome, hinferred⟩ :=
    applyInfer_cases host run.engine cause target weight key endpoints anchor.time scope
  · rw [hnone]
    exact (h.of_sameCauses hunchanged).of_sameCauses hsame
  · rw [hsome, Bool.true_and]
    have hdue := (h.settled.inferred h.touched hinferred).of_sameCauses hsame
    have htouched := hsame.touched ▸ hinferred.touched ▸ h.touched
    split
    · rename_i hbelow
      obtain ⟨hne, hbelow⟩ := Bool.and_eq_true_iff.mp hbelow
      have hholds := (hsame.cause scope (cause, target)).trans hinferred.writes.here
      exact rollupCauseToParent_settled hdecides hfire hdue
        ⟨htouched, of_decide_eq_true hne, hbelow, hholds⟩
    · rename_i hnot
      refine ⟨hdue.settled ?_, htouched⟩
      rintro cause' target' scope' ⟨-, -, -, hne, hbelow⟩
      exact hnot (Bool.and_eq_true_iff.mpr ⟨decide_eq_true hne, hbelow⟩)

theorem execIntent_settled (bindings : List Binding) {run : Run} (intent : Intent)
    (h : SettledIn host scope run.engine) :
    SettledIn host scope (execIntent host fire rule bindings anchor scope run intent).engine := by
  have hother : ∀ {run' : Run}, Effects host (Cascades host) run.engine run'.engine →
      SettledIn host scope run'.engine := fun heffects =>
    h.of_sameCauses (heffects.sameCauses hdecides)
  cases intent with
  | inferCause cause target weight evidence provenanceKey pii =>
      exact execInfer_settled hdecides hfire bindings h
  | emitProblem problem target severity evidence sarifId pii =>
      exact hother (execEmitProblem_effects hfire ..)
  | emitAction kind arg target reason evidence => exact hother (execAction_effects ..)
  | supersedeProblem problem target => exact hother (execSupersede_effects ..)
  | markAmbiguous causes target => exact hother (execMarkAmbiguous_effects ..)

theorem fireRule_settled {run : Run} (h : SettledIn host scope run.engine) :
    SettledIn host scope (fireRule host fire rule anchor scope run).engine := by
  let bound := bindRule host rule anchor scope run.engine
  let truth := branchTruth host bound.2.interner rule bound.1 scope
  have hintents : ∀ (intents : List Intent) (run : Run), SettledIn host scope run.engine →
      SettledIn host scope (execIntents host fire intents rule bound.1 anchor scope run).engine := by
    intro intents
    induction intents with
    | nil => exact fun _ h => h
    | cons intent rest ih =>
        exact fun run h => ih _ (execIntent_settled hdecides hfire bound.1 intent h)
  have hresolved : SettledIn host scope bound.2 :=
    h.of_sameCauses (bindRule_sameCauses run.engine rule anchor scope)
  have hbound : SettledIn host scope (bound.2.report truth.2) :=
    hresolved.of_sameCauses (.of_part (fun _ => rfl) rfl le_rfl)
  exact hintents _ ⟨bound.2.report truth.2, run.budget - 1⟩ hbound

end Running

/-- A rule that runs in a touched scope, with all decisions that it wakes, keeps the
causes settled. -/
theorem runWithin_settled
    (hdecides : ∀ rule anchor scope, Cascades host rule anchor scope → ¬ rule.Infers)
    (rule : RuleInstance) (anchor : Bound) {scope : ScopeId} {run : Run}
    (h : SettledIn host scope run.engine) :
    SettledIn host scope (runWithin host rule anchor scope run).engine := by
  have hreport : SettledIn host scope (run.report [.ruleFiringsExceeded scope]).engine :=
    h.of_sameCauses (.of_part (fun _ => rfl) rfl le_rfl)
  unfold runWithin
  generalize run.budget = depth
  cases depth with
  | zero => exact hreport
  | succ depth =>
      unfold runRule
      split
      · exact hreport
      · have hfire : FiresByEffects host (Cascades host) (runRule host depth) :=
          fun _ _ _ run hcascades => runRule_effects (fun _ _ _ => id) depth hcascades run
        exact fireRule_settled hdecides hfire h

/-! ### Runs -/

/-- Between two calls the causes are settled, and the scopes of all events were touched. -/
structure SettledRun (host : Host) (past : List EventNode) (e : Engine) : Prop where
  settled : Settled host e
  touched : ∀ event ∈ past, (event.scope, ()) ∈ e.touched.entries

namespace SettledRun

variable {past : List EventNode}

theorem new : SettledRun host [] .new where
  settled := by
    have hnone : ∀ scope key, Engine.cause .new scope key = none := fun _ _ => rfl
    have hempty : ∀ cause target scope child, ¬ Child .new cause target scope child :=
      fun cause target scope child hchild => by cases (hnone _ _).symm.trans hchild.holds
    refine ⟨fun scope key node hnode => ?_, fun scope key node hnode => ?_,
      fun scope key node scope' key' node' hnode => ?_,
      fun cause target scope child hchild => absurd hchild (hempty _ _ _ _),
      fun cause target node hnode => ?_, fun cause target node hnode => ?_,
      fun cause target node hnode => ?_, fun target => List.nodup_nil,
      fun target edge hedge => absurd hedge List.not_mem_nil⟩
    all_goals cases (hnone _ _).symm.trans hnode
  touched event hevent := absurd hevent List.not_mem_nil

/-- A change that writes no cause and touches no new scope. -/
theorem of_same (h : SettledRun host past e)
    (hcauses : ∀ scope, (e'.part scope).causes = (e.part scope).causes)
    (hedges : ∀ scope, (e'.part scope).edges = (e.part scope).edges)
    (htouched : e'.touched = e.touched) (hid : e'.nextNodeId = e.nextNodeId) :
    SettledRun host past e' where
  settled := h.settled.of_same (fun scope key => by unfold Engine.cause; rw [hcauses])
    (fun scope => by rw [hcauses]) (fun scope => by unfold SubGraph.rollUps; rw [hedges])
    (fun _ hscope => htouched ▸ hscope) (le_of_eq hid.symm)
  touched event hevent := htouched ▸ h.touched event hevent

theorem noted (h : SettledRun host past e) (c : Call) :
    SettledRun host (past ++ accepted host e c) (e.noted c) := by
  have hsame : ∀ {e' : Engine}, e'.store = e.store → e'.touched = e.touched →
      e'.nextNodeId = e.nextNodeId → SettledRun host past e' := fun hstore htouched hid =>
    h.of_same (fun scope => congrArg (fun store => (store.partitionOf scope).causes) hstore)
      (fun scope => congrArg (fun store => (store.partitionOf scope).edges) hstore) htouched hid
  cases c with
  | ingest event =>
      have htouch : Settled host (e.note event) :=
        (h.settled.touch event.scope).of_same (fun _ _ => rfl) (fun _ => le_rfl) (fun _ => rfl)
          (fun _ => id) le_rfl
      refine ⟨htouch, fun event' hevent' => ?_⟩
      obtain hold | hnew := List.mem_append.mp hevent'
      · exact mem_touch_of_mem event.scope (h.touched event' hold)
      · change event' ∈ (if _ then [] else [event]) at hnew
        split at hnew
        · cases hnew
        · obtain rfl := List.mem_singleton.mp hnew
          exact mem_touch e _
  | internScope scope => exact (List.append_nil past).symm ▸ hsame rfl rfl rfl
  | advanceWatermark t | advanceWallClock t | finish => exact (List.append_nil past).symm ▸ h

theorem phase (hdecides : ∀ rule anchor scope, Cascades host rule anchor scope → ¬ rule.Infers)
    {guard : Guard} (h : SettledRun host past e) (hphase : Phase host past guard e e') :
    SettledRun host past e' := by
  cases hphase with
  | book hbook =>
      exact h.of_same (fun scope => congrArg (fun s => (s.partitionOf scope).causes) hbook.store)
        (fun scope => congrArg (fun s => (s.partitionOf scope).edges) hbook.store) hbook.touched
        hbook.nextNodeId
  | push hevent hpushed => exact h.of_same (fun _ => rfl) (fun _ => rfl) rfl rfl
  | advance t => exact h.of_same (fun _ => rfl) (fun _ => rfl) rfl rfl
  | pop => exact h.of_same (fun _ => rfl) (fun _ => rfl) rfl rfl
  | gc => exact h.of_same (fun _ => by rw [part_gcSweep]; rfl) (fun _ => by rw [part_gcSweep]; rfl) rfl rfl
  | suspend hevent hrule hopen =>
      refine h.of_same (fun scope => ?_) (fun scope => ?_) ?_ ?_
      all_goals
        unfold suspendMatch
        simp only
        split <;> rfl
  | run run hstarted hanchor =>
      rename_i rule event scope
      have hscope : (scope, ()) ∈ run.engine.touched.entries := by
        cases hstarted with
        | matched hevent | resumed hevent => exact h.touched event hevent
      have heffects : Effects host (fun _ _ _ => True) run.engine
          (runWithin host rule (.event event) scope run).engine :=
        runRule_effects (fun _ _ _ _ => trivial) run.budget trivial run
      exact ⟨(runWithin_settled hdecides rule (.event event) ⟨h.settled, hscope⟩).settled,
        fun event' hevent' => heffects.touched (h.touched event' hevent')⟩

end SettledRun

end Adgl
