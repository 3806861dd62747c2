import NFdl.Adgl.PartitionSteps
import Mathlib.Data.Set.Subsingleton

/-!
# Nodes of partitions

Causes, problems and ambiguities of all partitions are numbered by one counter. No
two nodes ever have the same number, problems are appended and then only superseded,
and no partition has more causes than its capacity.
-/

namespace Adgl

/-- Where a subgraph has a node. -/
inductive NodePlace where
  | cause (key : CauseKind × ScopeId)
  | problem (index : Nat)
  | ambiguity (key : (CauseKind × CauseKind) × ScopeId)

/-- The identifier of the node at a place. -/
def SubGraph.idAt (g : SubGraph) : NodePlace → Option NodeId
  | .cause key => (g.causes.lookup key).map CauseNode.id
  | .problem index => g.problems[index]?.map ProblemNode.id
  | .ambiguity key => (g.ambiguities.lookup key).map AmbiguityNode.id

/-- The nodes that an endpoint of an edge refers to. -/
def EdgeEndpoint.nodes : EdgeEndpoint → List NodeId
  | .event _ => []
  | .node id => [id]

/-- The nodes that the edges and the evidence of the problems refer to. -/
def SubGraph.references (g : SubGraph) : List NodeId :=
  g.edges.flatMap (fun edge => edge.dst :: edge.src.nodes) ++ g.problems.flatMap ProblemNode.evidence

/-- The identifier of the node at a place of a partition. -/
def Engine.idAt (e : Engine) (at_ : ScopeId × NodePlace) : Option NodeId :=
  (e.part at_.1).idAt at_.2

/-- The places of the nodes with an identifier. -/
def Engine.denoted (e : Engine) (id : NodeId) : Set (ScopeId × NodePlace) :=
  {at_ | e.idAt at_ = some id}

variable {host : Host} {e e' e'' : Engine} {g g' g'' : SubGraph} {next next' : Nat}

/-! ### Identifiers -/

/-- Nodes stay where they are, and new ones have identifiers of their own between the
counters. -/
structure Allocates (g : SubGraph) (next : Nat) (g' : SubGraph) (next' : Nat)
    (fresh : NodePlace → Nat → Prop) : Prop where
  le : next ≤ next'
  old_or_fresh : ∀ place id, g'.idAt place = some id → g.idAt place = some id ∨ fresh place id
  bound : ∀ place id, fresh place id → next < id ∧ id ≤ next'
  one : ∀ place place' id, fresh place id → fresh place' id → place = place'

/-- Nothing new. -/
theorem Allocates.none (h : ∀ place id, g'.idAt place = some id → g.idAt place = some id) :
    Allocates g next g' next fun _ _ => False :=
  ⟨le_rfl, fun place id hid => .inl (h place id hid), nofun, nofun⟩

/-- One new node. -/
theorem Allocates.single (place : NodePlace)
    (h : ∀ place' id, g'.idAt place' = some id →
      g.idAt place' = some id ∨ place' = place ∧ id = next + 1) :
    Allocates g next g' (next + 1) fun place' id => place' = place ∧ id = next + 1 := by
  refine ⟨Nat.le_succ _, h, ?_, ?_⟩
  · rintro place' id ⟨-, rfl⟩
    exact ⟨Nat.lt_succ_self _, le_rfl⟩
  · rintro place₁ place₂ id ⟨rfl, -⟩ ⟨rfl, -⟩
    rfl

theorem idAt_insert_cause {key : CauseKind × ScopeId} {node : CauseNode} {place : NodePlace}
    {id : NodeId} (h : g'.idAt place = some id)
    (hcauses : g'.causes = AList.insert key node g.causes)
    (hproblems : g'.problems = g.problems) (hambiguities : g'.ambiguities = g.ambiguities) :
    g.idAt place = some id ∨ place = .cause key ∧ id = node.id := by
  cases place with
  | cause key' =>
      obtain ⟨node', hnode', rfl⟩ := Option.map_eq_some_iff.mp h
      rw [hcauses] at hnode'
      obtain ⟨rfl, rfl⟩ | hold := Table.of_lookup_insert hnode'
      · exact .inr ⟨rfl, rfl⟩
      · exact .inl (Option.map_eq_some_iff.mpr ⟨node', hold, rfl⟩)
  | problem index =>
      unfold SubGraph.idAt at h ⊢
      rw [hproblems] at h
      exact .inl h
  | ambiguity key =>
      unfold SubGraph.idAt at h ⊢
      rw [hambiguities] at h
      exact .inl h

theorem idAt_insert_ambiguity {key : (CauseKind × CauseKind) × ScopeId} {node : AmbiguityNode}
    {place : NodePlace} {id : NodeId} (h : g'.idAt place = some id)
    (hambiguities : g'.ambiguities = AList.insert key node g.ambiguities)
    (hcauses : g'.causes = g.causes) (hproblems : g'.problems = g.problems) :
    g.idAt place = some id ∨ place = .ambiguity key ∧ id = node.id := by
  cases place with
  | cause key' =>
      unfold SubGraph.idAt at h ⊢
      rw [hcauses] at h
      exact .inl h
  | problem index =>
      unfold SubGraph.idAt at h ⊢
      rw [hproblems] at h
      exact .inl h
  | ambiguity key' =>
      obtain ⟨node', hnode', rfl⟩ := Option.map_eq_some_iff.mp h
      rw [hambiguities] at hnode'
      obtain ⟨rfl, rfl⟩ | hold := Table.of_lookup_insert hnode'
      · exact .inr ⟨rfl, rfl⟩
      · exact .inl (Option.map_eq_some_iff.mpr ⟨node', hold, rfl⟩)

theorem idAt_pushProblem {problem : ProblemNode} {place : NodePlace} {id : NodeId}
    (h : (g.pushProblem problem).idAt place = some id) :
    g.idAt place = some id ∨ place = .problem g.problems.length ∧ id = problem.id := by
  cases place with
  | cause key => exact .inl h
  | ambiguity key => exact .inl h
  | problem index =>
      obtain ⟨problem', hproblem', rfl⟩ := Option.map_eq_some_iff.mp h
      change (g.problems ++ [problem])[index]? = some problem' at hproblem'
      obtain hlt | hle := Nat.lt_or_ge index g.problems.length
      · rw [List.getElem?_append_left hlt] at hproblem'
        exact .inl (Option.map_eq_some_iff.mpr ⟨problem', hproblem', rfl⟩)
      · rw [List.getElem?_append_right hle, List.getElem?_singleton] at hproblem'
        split at hproblem'
        · obtain rfl := Option.some.inj hproblem'
          exact .inr ⟨congrArg NodePlace.problem (by omega), rfl⟩
        · cases hproblem'

theorem idAt_superseded (kind : ProblemKind) (target : ScopeId) (place : NodePlace) :
    (g.supersedeProblems kind target).idAt place = g.idAt place := by
  cases place with
  | cause key => rfl
  | ambiguity key => rfl
  | problem index =>
      unfold SubGraph.idAt SubGraph.supersedeProblems
      simp only [List.getElem?_map, Option.map_map]
      congr 1
      funext problem
      simp only [Function.comp_apply]
      split <;> rfl

/-- A step gives every new node a new identifier. -/
theorem SubGraph.Step.allocates (h : g.Step host next g' next') :
    ∃ fresh, Allocates g next g' next' fresh := by
  cases h with
  | keep => exact ⟨_, .none fun _ _ => id⟩
  | update hold hid =>
      refine ⟨_, .none fun place id h => ?_⟩
      obtain hbefore | ⟨rfl, rfl⟩ := idAt_insert_cause h rfl rfl rfl
      · exact hbefore
      · exact Option.map_eq_some_iff.mpr ⟨_, hold, hid.symm⟩
  | @create key node edges seen hnew hroom hid =>
      refine ⟨_, .single (.cause key) fun place id h => ?_⟩
      obtain hbefore | ⟨rfl, rfl⟩ := idAt_insert_cause h rfl rfl rfl
      · exact .inl hbefore
      · exact .inr ⟨rfl, hid⟩
  | @raise key node problem hnew hid hproblem =>
      refine ⟨fun place (id : Nat) => place = .problem g.problems.length ∧ id = next + 2 ∨
        place = .ambiguity key ∧ id = next + 1, by omega, fun place id h => ?_, ?_, ?_⟩
      · obtain hbefore | ⟨rfl, rfl⟩ := idAt_pushProblem h
        · obtain hbefore | ⟨rfl, rfl⟩ := idAt_insert_ambiguity hbefore rfl rfl rfl
          · exact .inl hbefore
          · exact .inr (.inr ⟨rfl, hid⟩)
        · exact .inr (.inl ⟨rfl, hproblem⟩)
      · rintro place id (⟨-, rfl⟩ | ⟨-, rfl⟩) <;> omega
      · rintro place place' id (⟨rfl, rfl⟩ | ⟨rfl, rfl⟩) (⟨rfl, hid⟩ | ⟨rfl, hid⟩)
        · rfl
        · omega
        · omega
        · rfl
  | @mark key node hnew hid =>
      refine ⟨_, .single (.ambiguity key) fun place id h => ?_⟩
      obtain hbefore | ⟨rfl, rfl⟩ := idAt_insert_ambiguity h rfl rfl rfl
      · exact .inl hbefore
      · exact .inr ⟨rfl, hid⟩
  | resolve hold =>
      refine ⟨_, .none fun place id h => ?_⟩
      obtain hbefore | ⟨rfl, rfl⟩ := idAt_insert_ambiguity h rfl rfl rfl
      · exact hbefore
      · exact Option.map_eq_some_iff.mpr ⟨_, hold, rfl⟩
  | emit hid =>
      refine ⟨_, .single (.problem g.problems.length) fun place id h => ?_⟩
      obtain hbefore | ⟨rfl, rfl⟩ := idAt_pushProblem h
      · exact .inl hbefore
      · exact .inr ⟨rfl, hid⟩
  | supersede kind target =>
      refine ⟨_, .none fun place id h => ?_⟩
      rwa [idAt_superseded] at h

/-- The nodes of all partitions have identifiers of their own, up to the counter. -/
structure UniqueIds (e : Engine) : Prop where
  le : ∀ at_ (id : Nat), e.idAt at_ = some id → id ≤ e.nextNodeId
  one : ∀ at_ at_' (id : Nat), e.idAt at_ = some id → e.idAt at_' = some id → at_ = at_'

theorem UniqueIds.step (h : UniqueIds e) (hstep : PartitionStep host e e') : UniqueIds e' := by
  cases hstep with
  | prune hpart hid =>
      have hsame : ∀ at_, e'.idAt at_ = e.idAt at_ := by
        rintro ⟨scope, place⟩
        have hpruned := hpart scope
        cases place <;>
          simp only [Engine.idAt, SubGraph.idAt, hpruned.causes, hpruned.problems,
            hpruned.ambiguities]
      refine ⟨fun at_ id hat => ?_, fun at_ at_' id hat hat' => ?_⟩
      · rw [hid]
        exact h.le at_ id (hsame at_ ▸ hat)
      · exact h.one at_ at_' id (hsame at_ ▸ hat) (hsame at_' ▸ hat')
  | write scope g hpart hstep =>
      obtain ⟨fresh, halloc⟩ := hstep.allocates
      have hcases : ∀ at_ id, e'.idAt at_ = some id →
          e.idAt at_ = some id ∨ at_.1 = scope ∧ fresh at_.2 id := by
        rintro ⟨scope', place⟩ id hat
        unfold Engine.idAt at hat
        rw [hpart] at hat
        split at hat
        · rename_i heq
          obtain rfl : scope' = scope := heq
          exact (halloc.old_or_fresh place id hat).imp_right fun hfresh => ⟨rfl, hfresh⟩
        · exact .inl hat
      refine ⟨fun at_ id hat => ?_, fun at_ at_' id hat hat' => ?_⟩
      · obtain hold | ⟨-, hfresh⟩ := hcases at_ id hat
        · exact (h.le at_ id hold).trans halloc.le
        · exact (halloc.bound _ _ hfresh).2
      · obtain hold | ⟨hscope, hfresh⟩ := hcases at_ id hat
        · obtain hold' | ⟨-, hfresh'⟩ := hcases at_' id hat'
          · exact h.one at_ at_' id hold hold'
          · have hle := h.le at_ id hold
            have hlt := (halloc.bound _ _ hfresh').1
            omega
        · obtain hold' | ⟨hscope', hfresh'⟩ := hcases at_' id hat'
          · have hle := h.le at_' id hold'
            have hlt := (halloc.bound _ _ hfresh).1
            omega
          · exact Prod.ext (hscope.trans hscope'.symm) (halloc.one _ _ _ hfresh hfresh')

theorem uniqueIds (host : Host) (ops : List Operation) : UniqueIds (runOperations host ops) := by
  refine runOperations_invariant ⟨?_, ?_⟩ (fun _ _ h hstep => h.step hstep) ops
  all_goals
    rintro ⟨scope, place⟩
    cases place <;> simp [Engine.idAt, SubGraph.idAt, Engine.part, Engine.new, GraphStore.new,
      GraphStore.partitionOf, SubGraph.empty]

/-- In every state of every run, the identifiers of all causes, problems and
ambiguities of all partitions are distinct and do not exceed the counter. An edge or
the evidence of a problem refers to at most one node. -/
theorem node_ids_unique (host : Host) (ops : List Operation) :
    let e := runOperations host ops
    (∀ at_ id, e.idAt at_ = some id → id ≤ e.nextNodeId) ∧
    (∀ at_ at_' id, e.idAt at_ = some id → e.idAt at_' = some id → at_ = at_') ∧
    ∀ scope, ∀ id ∈ (e.part scope).references, (e.denoted id).Subsingleton := by
  have h := uniqueIds host ops
  exact ⟨h.le, h.one, fun _ id _ at_ hat at_' hat' => h.one at_ at_' id hat hat'⟩

/-! ### Problems -/

/-- That a problem is as before, except that it may have been superseded. -/
structure ProblemNode.Kept (p p' : ProblemNode) : Prop where
  fields : p' = { p with superseded := p'.superseded }
  superseded : p.superseded = true → p'.superseded = true

theorem ProblemNode.Kept.refl (p : ProblemNode) : p.Kept p := ⟨rfl, fun h => h⟩

theorem ProblemNode.Kept.trans {p p' p'' : ProblemNode} (h : p.Kept p') (h' : p'.Kept p'') :
    p.Kept p'' := by
  refine ⟨?_, h'.superseded ∘ h.superseded⟩
  rw [h'.fields, h.fields]

theorem ProblemNode.Kept.forall₂_trans {ps ps' ps'' : List ProblemNode}
    (h : List.Forall₂ ProblemNode.Kept ps ps') (h' : List.Forall₂ ProblemNode.Kept ps' ps'') :
    List.Forall₂ ProblemNode.Kept ps ps'' := by
  induction h generalizing ps'' with
  | nil => exact h'
  | cons hp _ ih =>
      obtain ⟨p'', rest'', hp', hrest', rfl⟩ := List.forall₂_cons_left_iff.mp h'
      exact .cons (hp.trans hp') (ih hrest')

/-- The problems are kept, and new ones follow them. -/
def SubGraph.ProblemsGrow (g g' : SubGraph) : Prop :=
  ∃ kept new, g'.problems = kept ++ new ∧ List.Forall₂ ProblemNode.Kept g.problems kept

theorem SubGraph.ProblemsGrow.of_append {new : List ProblemNode}
    (h : g'.problems = g.problems ++ new) : g.ProblemsGrow g' :=
  ⟨g.problems, new, h, List.forall₂_same.mpr fun p _ => .refl p⟩

theorem SubGraph.ProblemsGrow.of_eq (h : g'.problems = g.problems) : g.ProblemsGrow g' :=
  .of_append (h.trans (List.append_nil _).symm)

theorem SubGraph.ProblemsGrow.trans (h : g.ProblemsGrow g') (h' : g'.ProblemsGrow g'') :
    g.ProblemsGrow g'' := by
  obtain ⟨kept, new, hproblems, hkept⟩ := h
  obtain ⟨kept', new', hproblems', hkept'⟩ := h'
  rw [hproblems] at hkept'
  -- The second list of kept problems is cut where the first one ends.
  have hfirst := List.forall₂_take kept.length hkept'
  rw [List.take_left] at hfirst
  refine ⟨kept'.take kept.length, kept'.drop kept.length ++ new', ?_, ?_⟩
  · rw [hproblems', ← List.append_assoc, List.take_append_drop]
  · exact ProblemNode.Kept.forall₂_trans hkept hfirst

theorem SubGraph.Step.problemsGrow (h : g.Step host next g' next') : g.ProblemsGrow g' := by
  cases h with
  | keep | update | create | mark | resolve => exact .of_eq rfl
  | raise | emit => exact .of_append rfl
  | supersede kind target =>
      refine ⟨_, [], (List.append_nil _).symm, ?_⟩
      refine List.forall₂_map_right_iff.mpr (List.forall₂_same.mpr fun p _ => ?_)
      split
      · exact ⟨rfl, fun _ => rfl⟩
      · exact .refl p

/-- From any state of a run to any later one, the problems of every partition are kept
in their order, new ones are appended, and a kept one changes in nothing but that it may
become superseded. -/
theorem problems_append_only (host : Host) (ops ops' : List Operation) (scope : ScopeId) :
    ((runOperations host ops).part scope).ProblemsGrow
      ((runOperations host (ops ++ ops')).part scope) := by
  have hsteps := runOperations_steps host ops ops'
  refine hsteps.invariant
    (P := fun e => ((runOperations host ops).part scope).ProblemsGrow (e.part scope))
    (fun e e' h hstep => h.trans ?_) (.of_eq rfl)
  cases hstep with
  | prune hpart hid => exact .of_eq (hpart scope).problems
  | write scope' g hpart hstep =>
      rw [hpart]
      split
      · rename_i heq
        subst heq
        exact hstep.problemsGrow
      · exact .of_eq rfl

/-! ### Capacity -/

theorem SubGraph.Step.causes_le (h : g.Step host next g' next')
    (hle : g.causes.entries.length ≤ host.limits.maxCausesPerScope) :
    g'.causes.entries.length ≤ host.limits.maxCausesPerScope := by
  cases h with
  | keep | raise | mark | resolve | emit | supersede => exact hle
  | update hold => exact (Table.length_insert_of_some hold).trans_le hle
  | create hnew hroom => exact (Table.length_insert_le ..).trans hroom

/-- No partition ever has more causes than its capacity. -/
theorem causes_within_capacity (host : Host) (ops : List Operation) (scope : ScopeId) :
    ((runOperations host ops).part scope).causes.entries.length ≤
      host.limits.maxCausesPerScope := by
  refine runOperations_invariant
    (P := fun e => (e.part scope).causes.entries.length ≤ host.limits.maxCausesPerScope)
    (Nat.zero_le _) (fun e e' h hstep => ?_) ops
  cases hstep with
  | prune hpart hid => rwa [(hpart scope).causes]
  | write scope' g hpart hstep =>
      rw [hpart]
      split
      · rename_i heq
        subst heq
        exact hstep.causes_le h
      · exact h

/-- A new cause for which its partition has no room. -/
def Engine.Rejects (host : Host) (e : Engine) (scope : ScopeId) (key : CauseKind × ScopeId) :
    Prop :=
  e.cause scope key = none ∧ e.Full host scope

/-- Nothing of the partitions and of the counter of identifiers has changed. -/
structure Untouched (e e' : Engine) : Prop where
  part : ∀ scope, e'.part scope = e.part scope
  nextNodeId : e'.nextNodeId = e.nextNodeId

section Rejected

variable {cause : CauseKind} {target scope : ScopeId}

theorem Engine.Rejects.condition (h : e.Rejects host scope (cause, target)) :
    (((e.part scope).causes.lookup (cause, target)).isNone &&
      decide (host.limits.maxCausesPerScope ≤ (e.part scope).causes.entries.length)) = true := by
  obtain ⟨hnone, hfull⟩ := h
  unfold Engine.cause at hnone
  unfold Engine.Full at hfull
  rw [hnone, decide_eq_true hfull]
  rfl

theorem applyInfer_rejected (h : e.Rejects host scope (cause, target)) (weight : Weight)
    (key : RuntimeProvKey) (endpoints : List EdgeEndpoint) (anchorTime : EventTime) :
    applyInfer host cause target weight key endpoints anchorTime scope e =
      ((e.openPartition scope).report [.causeCapacity scope], none) := by
  have hpart : (e.openPartition scope).store.partitionOf scope = e.part scope :=
    part_openPartition e scope scope
  unfold applyInfer
  simp only [hpart]
  exact if_pos h.condition

theorem applyRollup_rejected (h : e.Rejects host target (cause, target)) (childScope : ScopeId) :
    applyRollup host cause target childScope e =
      (((e.touch target).openPartition target).report [.causeCapacity target], none) := by
  have hpart : ((e.touch target).openPartition target).store.partitionOf target = e.part target :=
    part_openPartition (e.touch target) target target
  unfold applyRollup
  simp only [hpart]
  exact if_pos h.condition

theorem execInfer_rejected {fire : Fire} {rule : RuleInstance} {path : MetricPath} {weight : Weight}
    {evidence : List Symbol} {provenanceKey : ProvKey} {bindings : List Binding} {anchor : Bound}
    {run : Run} (htarget : (resolveTarget host run.engine.interner rule path bindings).1 = some target)
    (h : run.engine.Rejects host scope (cause, target)) :
    execInfer host fire rule cause path weight evidence provenanceKey bindings anchor scope run =
      (run.report (resolveTarget host run.engine.interner rule path bindings).2).map fun e =>
        (e.openPartition scope).report [.causeCapacity scope] := by
  let reported := run.report (resolveTarget host run.engine.interner rule path bindings).2
  have hreported : reported.engine.Rejects host scope (cause, target) := h
  unfold execInfer withTarget
  simp only [htarget]
  rw [applyInfer_rejected hreported]
  rfl

theorem rollupCauseToParent_rejected {run : Run} (h : run.engine.Rejects host target (cause, target))
    (fire : Fire) (childScope : ScopeId) :
    rollupCauseToParent host fire cause target childScope run = run.map fun e =>
      ((e.touch target).openPartition target).report [.causeCapacity target] := by
  unfold rollupCauseToParent
  rw [applyRollup_rejected h]
  rfl

end Rejected

/-- In every state of every run, no partition has more causes than its capacity. In any state,
also in the middle of a firing, an inference for which its partition has no room, direct or
rolled up, reports this and leaves all partitions, with their causes, keys and edges, and the
counter of identifiers as they were. -/
theorem capacity_rejection_atomic (host : Host) (ops : List Operation) :
    (∀ scope, ((runOperations host ops).part scope).causes.entries.length ≤
      host.limits.maxCausesPerScope) ∧
    (∀ (e : Engine) fire rule cause path weight evidence provenanceKey bindings anchor scope target
        budget,
      (resolveTarget host e.interner rule path bindings).1 = some target →
      e.Rejects host scope (cause, target) →
      let run := execInfer host fire rule cause path weight evidence provenanceKey bindings anchor
        scope ⟨e, budget⟩
      .causeCapacity scope ∈ run.engine.diagnostics ∧ Untouched e run.engine) ∧
    (∀ (e : Engine) fire cause target childScope budget,
      e.Rejects host target (cause, target) →
      let run := rollupCauseToParent host fire cause target childScope ⟨e, budget⟩
      .causeCapacity target ∈ run.engine.diagnostics ∧ Untouched e run.engine) := by
  refine ⟨causes_within_capacity host ops, ?_, ?_⟩
  · intro e fire rule cause path weight evidence provenanceKey bindings anchor scope target budget
      htarget hrejects run
    have hrun : run = _ := execInfer_rejected htarget hrejects
    rw [hrun]
    refine ⟨List.mem_append_right _ (List.mem_singleton_self _), fun scope' => ?_, rfl⟩
    exact part_openPartition e scope scope'
  · intro e fire cause target childScope budget hrejects run
    have hrun : run = _ := rollupCauseToParent_rejected hrejects fire childScope
    rw [hrun]
    refine ⟨List.mem_append_right _ (List.mem_singleton_self _), fun scope' => ?_, rfl⟩
    exact part_openPartition (e.touch target) target scope'

/-- A host whose partitions have no room for a cause. -/
def fullHost : Host := { seedHost waitingRules with
  limits := { Limits.default with maxCausesPerScope := 0 } }

theorem capacity_rejection_atomic_full :
    ∃ rule ∈ fullHost.image.rules, Untouched .new
      (execInfer fullHost (fun _ _ _ run => run) rule "PmtudBlackhole" ⟨"rtx.target"⟩
        ⟨40, by decide, by decide⟩ [] ⟨"ptb", "PmtudBlackhole", 0⟩ [.bound (.event (burst 1400))]
        (.event (burst 1400)) ⟨.session, 7⟩ ⟨.new, 1⟩).engine := by
  obtain ⟨rule, hrule⟩ := List.exists_mem_of_ne_nil fullHost.image.rules (by decide)
  have htargets : ∀ rule ∈ fullHost.image.rules, (resolveTarget fullHost Engine.new.interner rule
      ⟨"rtx.target"⟩ [.bound (.event (burst 1400))]).1 = some ⟨.session, 7⟩ := by decide
  exact ⟨rule, hrule, ((capacity_rejection_atomic fullHost []).2.1 .new _ _ _ _ _ _ _ _ _ _ _ _
    (htargets rule hrule) ⟨rfl, Nat.zero_le _⟩).2⟩

end Adgl
