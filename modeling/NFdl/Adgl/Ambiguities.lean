import NFdl.Adgl.Findings
import NFdl.Adgl.Nodes
import Mathlib.Data.Sym.Sym2

/-!
# The life of ambiguities

Between two operations an ambiguity is active only while its two causes are too close
to call. A change of a cause breaks this for the ambiguities of that cause only, and
the comparison with the causes that it excludes restores it. A comparison creates
each ambiguity with one problem and one action, and never takes a resolution back.
-/

namespace Adgl

open Ast (Ruleset)

variable {host : Host} {e e' e'' : Engine} {scope : ScopeId}

/-! ### Causes too close to call -/

/-- The confidence of a cause, the least one if there is no such cause. -/
def Engine.confidence (e : Engine) (scope : ScopeId) (key : CauseKind × ScopeId) : Confidence :=
  ((e.cause scope key).map CauseNode.confidence).getD .minimum

/-- Two confidences below that of a confirmed cause, less than 15 apart. -/
structure TooClose (c c' : Confidence) : Prop where
  left : c.value < 80
  right : c'.value < 80
  apart : absDiff c.value c'.value < 15

theorem absDiff_comm (a b : Nat) : absDiff a b = absDiff b a := by
  unfold absDiff
  omega

theorem TooClose.symm {c c' : Confidence} (h : TooClose c c') : TooClose c' c :=
  ⟨h.right, h.left, absDiff_comm c.value c'.value ▸ h.apart⟩

theorem orderedCauses_eq (a b : CauseKind) :
    orderedCauses a b = (a, b) ∨ orderedCauses a b = (b, a) := by
  unfold orderedCauses
  split
  · exact .inl rfl
  · exact .inr rfl

theorem orderedCauses_ordered {a b : CauseKind} (hne : b ≠ a) :
    (orderedCauses a b).1 ≤ (orderedCauses a b).2 ∧
      (orderedCauses a b).1 ≠ (orderedCauses a b).2 := by
  unfold orderedCauses
  split
  · rename_i hle
    exact ⟨hle, hne.symm⟩
  · rename_i hnot
    exact ⟨(String.le_total a b).resolve_left hnot, hne⟩

/-- Whichever cause comes first, they are as close. -/
theorem tooClose_ordered {f : CauseKind → Confidence} {a b : CauseKind} (h : TooClose (f a) (f b)) :
    TooClose (f (orderedCauses a b).1) (f (orderedCauses a b).2) := by
  obtain heq | heq := orderedCauses_eq a b
  · rw [heq]
    exact h
  · rw [heq]
    exact h.symm

theorem Confidence.lt_of_isProbable {c : Confidence} (h : c.isProbable = true) : c.value < 80 := by
  simp only [isProbable, Bool.and_eq_true, decide_eq_true_eq] at h
  omega

theorem Confidence.lt_of_not_isConfirmed {c : Confidence} (h : ¬ c.isConfirmed = true) :
    c.value < 80 := by
  simp only [isConfirmed, decide_eq_true_eq] at h
  omega

/-- A probable cause is there. -/
theorem isSome_of_isProbable {key : CauseKind × ScopeId}
    (h : (e.confidence scope key).isProbable = true) : (e.cause scope key).isSome = true := by
  unfold Engine.confidence at h
  cases hcause : e.cause scope key with
  | none =>
      rw [hcause] at h
      cases h
  | some node => rfl

/-! ### One comparison -/

/-- The key of the ambiguity between the changed cause and another. -/
def CauseSnapshot.pairKey (s : CauseSnapshot) (other : CauseKind) :
    (CauseKind × CauseKind) × ScopeId :=
  (orderedCauses s.kind other, s.target)

/-- The action that makes an ambiguity known. -/
def markAction (host : Host) (key : (CauseKind × CauseKind) × ScopeId) : ActionIntent where
  kind := .markAmbiguous
  rule := host.image.rulesetId
  arg := none
  target := some key.2
  targetPath := none
  reason := none
  evidence := []
  causes := some key.1

/-- What the comparison with one other cause does: nothing, or it creates the
ambiguity, or it resolves it. -/
inductive Compared (host : Host) (s : CauseSnapshot) (scope : ScopeId) (other : CauseKind)
    (e e' : Engine) : Prop
  | kept (hpart : ∀ scope', e'.part scope' = e.part scope') (hlog : e'.sinkLog = e.sinkLog)
      (h : e.ambiguity scope (s.pairKey other) = none ∨
        TooClose s.confidence (e.confidence scope (other, s.target)))
  | raised {node : AmbiguityNode} {problem : ProblemNode}
      (hnew : e.ambiguity scope (s.pairKey other) = none)
      (hnode : (node.causes, node.target) = s.pairKey other)
      (hclose : TooClose s.confidence (e.confidence scope (other, s.target)))
      (hother : (e.cause scope (other, s.target)).isSome = true)
      (hkind : problem.kind = "AmbiguousDiagnosis") (htarget : problem.target = s.target)
      (hpart : ∀ scope', e'.part scope' = if scope' = scope then
        SubGraph.pushProblem { e.part scope with
          ambiguities := AList.insert (s.pairKey other) node (e.part scope).ambiguities } problem
        else e.part scope')
      (hlog : e'.sinkLog =
        e.sinkLog ++ [(markAction host (s.pairKey other), host.mode, e.store.watermark)])
  | resolved {old : AmbiguityNode} (hold : e.ambiguity scope (s.pairKey other) = some old)
      (hpart : ∀ scope', e'.part scope' = if scope' = scope then { e.part scope with
          ambiguities := AList.insert (s.pairKey other) { old with state := .resolved }
            (e.part scope).ambiguities }
        else e.part scope')
      (hlog : e'.sinkLog = e.sinkLog)

theorem compareCauses_compared (s : CauseSnapshot) (scope : ScopeId) (e : Engine)
    (other : CauseKind) : Compared host s scope other e (compareCauses host s scope e other) := by
  have hopen := part_openPartition e scope
  have hpart : (e.openPartition scope).store.partitionOf scope = e.part scope := hopen scope
  have hwritten : ∀ (g : SubGraph) scope', ((e.openPartition scope).setPartition scope g).part scope' =
      if scope' = scope then g else e.part scope' := by
    intro g scope'
    rw [part_setPartition, hopen]
  unfold compareCauses
  simp only [partition_lookup]
  change Compared host s scope other e
    (if (s.confidence.isProbable && (e.confidence scope (other, s.target)).isProbable &&
        decide (absDiff s.confidence.value (e.confidence scope (other, s.target)).value < 15)) = true
      then _ else if (s.confidence.isConfirmed ||
        (e.confidence scope (other, s.target)).isConfirmed ||
        !decide (absDiff s.confidence.value (e.confidence scope (other, s.target)).value < 15)) = true
      then _ else _)
  split
  · rename_i hprobable
    rw [Bool.and_eq_true, Bool.and_eq_true, decide_eq_true_eq] at hprobable
    obtain ⟨⟨hthis, hother⟩, hapart⟩ := hprobable
    have hclose : TooClose s.confidence (e.confidence scope (other, s.target)) :=
      ⟨Confidence.lt_of_isProbable hthis, Confidence.lt_of_isProbable hother, hapart⟩
    unfold raiseAmbiguity
    simp only [hpart]
    split
    · exact .kept hopen rfl (.inr hclose)
    · rename_i hnew
      exact .raised hnew rfl hclose (isSome_of_isProbable hother) rfl rfl (hwritten _) rfl
  · split
    · unfold resolveAmbiguity
      simp only [hpart]
      split
      · rename_i old hold
        exact .resolved hold (hwritten _) rfl
      · rename_i hnone
        exact .kept hopen rfl (.inl hnone)
    · rename_i hundecided
      simp only [Bool.or_eq_true, not_or, Bool.not_eq_true', decide_eq_false_iff_not,
        not_not] at hundecided
      obtain ⟨⟨hthis, hother⟩, hapart⟩ := hundecided
      exact .kept (fun _ => rfl) rfl (.inr ⟨Confidence.lt_of_not_isConfirmed hthis,
        Confidence.lt_of_not_isConfirmed hother, hapart⟩)

namespace Compared

variable {s : CauseSnapshot} {other : CauseKind}

/-- The ambiguities of other pairs, targets and scopes stay as they are. -/
theorem elsewhere (h : Compared host s scope other e e') {scope' : ScopeId}
    {key : (CauseKind × CauseKind) × ScopeId} (hne : (scope', key) ≠ (scope, s.pairKey other)) :
    e'.ambiguity scope' key = e.ambiguity scope' key := by
  have hinsert : ∀ {g : SubGraph} {node : AmbiguityNode}, e'.part scope' =
      (if scope' = scope then g else e.part scope') → g.ambiguities =
        AList.insert (s.pairKey other) node (e.part scope).ambiguities →
      e'.ambiguity scope' key = e.ambiguity scope' key := by
    intro g node hpart hg
    unfold Engine.ambiguity
    rw [hpart]
    split
    · rename_i heq
      subst heq
      have hkey : key ≠ s.pairKey other := fun hkey => hne (by rw [hkey])
      rw [hg, AList.lookup_insert_ne hkey]
    · rfl
  cases h with
  | kept hpart => exact congrArg (fun g => g.ambiguities.lookup key) (hpart scope')
  | raised hnew hnode hclose hother hkind htarget hpart => exact hinsert (hpart scope') rfl
  | resolved hold hpart => exact hinsert (hpart scope') rfl

/-- The ambiguity of the pair that was compared: the causes are too close, or it is not
active. -/
theorem here (h : Compared host s scope other e e') {node : AmbiguityNode}
    (hnode : e'.ambiguity scope (s.pairKey other) = some node) :
    (TooClose s.confidence (e.confidence scope (other, s.target)) ∨ node.state = .resolved) ∧
      ((∃ old, e.ambiguity scope (s.pairKey other) = some old ∧ node.causes = old.causes ∧
          node.target = old.target) ∨
        ((node.causes, node.target) = s.pairKey other ∧
          (e.cause scope (other, s.target)).isSome = true)) := by
  cases h with
  | kept hpart hlog h =>
      have hsame : e'.ambiguity scope (s.pairKey other) = e.ambiguity scope (s.pairKey other) :=
        congrArg (fun g => g.ambiguities.lookup (s.pairKey other)) (hpart scope)
      rw [hsame] at hnode
      refine ⟨?_, .inl ⟨node, hnode, rfl, rfl⟩⟩
      obtain hnone | hclose := h
      · rw [hnone] at hnode
        cases hnode
      · exact .inl hclose
  | raised hnew hkeyed hclose hother hkind htarget hpart =>
      unfold Engine.ambiguity at hnode
      rw [hpart, if_pos rfl] at hnode
      change (AList.insert _ _ _).lookup _ = _ at hnode
      rw [AList.lookup_insert] at hnode
      obtain rfl := Option.some.inj hnode
      exact ⟨.inl hclose, .inr ⟨hkeyed, hother⟩⟩
  | resolved hold hpart =>
      unfold Engine.ambiguity at hnode
      rw [hpart, if_pos rfl, AList.lookup_insert] at hnode
      obtain rfl := Option.some.inj hnode
      exact ⟨.inr rfl, .inl ⟨_, hold, rfl, rfl⟩⟩

end Compared

/-! ### Ambiguities that are up to date -/

/-- An ambiguity is stored under its pair in order and its target, the pair is exclusive
and both causes are there. -/
structure Formed (host : Host) (e : Engine) (scope : ScopeId)
    (key : (CauseKind × CauseKind) × ScopeId) (node : AmbiguityNode) : Prop where
  keyed : (node.causes, node.target) = key
  ordered : key.1.1 ≤ key.1.2 ∧ key.1.1 ≠ key.1.2
  exclusive : ∃ group ∈ effectiveExclusivityGroups host,
    key.1.1 ∈ group.causes ∧ key.1.2 ∈ group.causes
  first : (e.cause scope (key.1.1, key.2)).isSome = true
  second : (e.cause scope (key.1.2, key.2)).isSome = true

/-- The ambiguities of all partitions are formed, and the active ones are too close to
call, except for those that wait for a comparison. -/
structure Judged (host : Host) (waits : ScopeId → (CauseKind × CauseKind) × ScopeId → Prop)
    (e : Engine) : Prop where
  formed : ∀ scope key node, e.ambiguity scope key = some node → Formed host e scope key node
  close : ∀ scope key node, e.ambiguity scope key = some node → node.state = .active →
    ¬ waits scope key →
      TooClose (e.confidence scope (key.1.1, key.2)) (e.confidence scope (key.1.2, key.2))

/-- Nothing waits for a comparison. -/
abbrev AllJudged (host : Host) (e : Engine) : Prop := Judged host (fun _ _ => False) e

/-- What waits after a change of a cause: the ambiguities of this cause. -/
def CauseSnapshot.awaits (s : CauseSnapshot) (scope scope' : ScopeId)
    (key : (CauseKind × CauseKind) × ScopeId) : Prop :=
  scope' = scope ∧ key.2 = s.target ∧ (key.1.1 = s.kind ∨ key.1.2 = s.kind)

/-- A cause is written in one partition, and no ambiguity is. -/
structure Mutates (scope : ScopeId) (s : CauseSnapshot) (e e' : Engine) : Prop where
  holds : ∃ node, e'.cause scope (s.kind, s.target) = some node ∧ node.confidence = s.confidence
  there : ∀ scope' key, (scope', key) ≠ (scope, (s.kind, s.target)) →
    e'.cause scope' key = e.cause scope' key
  ambiguities : ∀ scope', (e'.part scope').ambiguities = (e.part scope').ambiguities

section Steps

variable {waits waits' : ScopeId → (CauseKind × CauseKind) × ScopeId → Prop} {s : CauseSnapshot}

theorem Judged.new : AllJudged host .new where
  formed _ _ _ h := by cases h
  close _ _ _ h := by cases h

theorem Judged.mono (h : Judged host waits e)
    (hwaits : ∀ scope key node, e.ambiguity scope key = some node → waits scope key →
      waits' scope key) : Judged host waits' e where
  formed := h.formed
  close scope key node hnode hactive hnot :=
    h.close scope key node hnode hactive fun hwait => hnot (hwaits scope key node hnode hwait)

theorem Judged.of_sameFindings (h : Judged host waits e) (hsame : SameFindings e e') :
    Judged host waits e' where
  formed scope key node hnode := by
    rw [hsame.ambiguity] at hnode
    obtain ⟨hkeyed, hordered, hexclusive, hfirst, hsecond⟩ := h.formed scope key node hnode
    rw [← hsame.cause] at hfirst hsecond
    exact ⟨hkeyed, hordered, hexclusive, hfirst, hsecond⟩
  close scope key node hnode hactive hnot := by
    rw [hsame.ambiguity] at hnode
    unfold Engine.confidence
    rw [hsame.cause, hsame.cause]
    exact h.close scope key node hnode hactive hnot

/-- After a change of a cause its own ambiguities wait. -/
theorem Judged.mutated (h : AllJudged host e) (hmutates : Mutates scope s e e') :
    Judged host (s.awaits scope) e' := by
  obtain ⟨⟨written, hwritten, -⟩, hthere, hambiguities⟩ := hmutates
  have hsame : ∀ scope' key, e'.ambiguity scope' key = e.ambiguity scope' key := by
    intro scope' key
    unfold Engine.ambiguity
    rw [hambiguities]
  have hsome : ∀ {scope' key}, (e.cause scope' key).isSome = true →
      (e'.cause scope' key).isSome = true := by
    intro scope' key hold
    by_cases hkey : (scope', key) = (scope, (s.kind, s.target))
    · obtain ⟨rfl, rfl⟩ := Prod.mk.inj hkey
      rw [hwritten]
      rfl
    · rw [hthere scope' key hkey]
      exact hold
  refine ⟨fun scope' key node hnode => ?_, fun scope' key node hnode hactive hnot => ?_⟩
  · rw [hsame] at hnode
    obtain ⟨hkeyed, hordered, hexclusive, hfirst, hsecond⟩ := h.formed scope' key node hnode
    exact ⟨hkeyed, hordered, hexclusive, hsome hfirst, hsome hsecond⟩
  · rw [hsame] at hnode
    have hother : ∀ cause, cause = key.1.1 ∨ cause = key.1.2 →
        e'.confidence scope' (cause, key.2) = e.confidence scope' (cause, key.2) := by
      intro cause hcause
      unfold Engine.confidence
      rw [hthere]
      intro hkey
      obtain ⟨rfl, hcauses⟩ := Prod.mk.inj hkey
      obtain ⟨rfl, htarget⟩ := Prod.mk.inj hcauses
      exact hnot ⟨rfl, htarget, hcause.imp Eq.symm Eq.symm⟩
    rw [hother _ (.inl rfl), hother _ (.inr rfl)]
    exact h.close scope' key node hnode hactive id

/-- A comparison judges the ambiguity of its pair. -/
theorem Judged.compared {other : CauseKind} (h : Judged host waits e)
    (hcompared : Compared host s scope other e e') (hsame : SameCauses e e')
    (hholds : ∃ node, e.cause scope (s.kind, s.target) = some node ∧ node.confidence = s.confidence)
    (hne : other ≠ s.kind)
    (hgroup : ∃ group ∈ effectiveExclusivityGroups host, s.kind ∈ group.causes ∧
      other ∈ group.causes) :
    Judged host (fun scope' key => waits scope' key ∧ (scope', key) ≠ (scope, s.pairKey other))
      e' := by
  obtain ⟨written, hwritten, hsnapshot⟩ := hholds
  have hconfidence : ∀ scope' key, e'.confidence scope' key = e.confidence scope' key := by
    intro scope' key
    unfold Engine.confidence
    rw [hsame.cause]
  have hthis : e.confidence scope (s.kind, s.target) = s.confidence := by
    unfold Engine.confidence
    rw [hwritten]
    exact hsnapshot
  refine ⟨fun scope' key node hnode => ?_, fun scope' key node hnode hactive hnot => ?_⟩
  · by_cases hkey : (scope', key) = (scope, s.pairKey other)
    · obtain ⟨rfl, rfl⟩ := Prod.mk.inj hkey
      obtain ⟨-, ⟨old, hold, hcauses, htarget⟩ | ⟨hkeyed, hother⟩⟩ := hcompared.here hnode
      · obtain ⟨hkeyed, hordered, hexclusive, hfirst, hsecond⟩ := h.formed _ _ _ hold
        rw [← hsame.cause] at hfirst hsecond
        rw [← hcauses, ← htarget] at hkeyed
        exact ⟨hkeyed, hordered, hexclusive, hfirst, hsecond⟩
      · have hboth : ∀ cause, cause = s.kind ∨ cause = other →
            (e'.cause scope' (cause, s.target)).isSome = true := by
          rintro cause (rfl | rfl)
          · rw [hsame.cause, hwritten]
            rfl
          · rw [hsame.cause]
            exact hother
        obtain ⟨group, hmem, hkind, hin⟩ := hgroup
        refine ⟨hkeyed, orderedCauses_ordered hne, ⟨group, hmem, ?_⟩, hboth _ ?_, hboth _ ?_⟩
        all_goals
          simp only [CauseSnapshot.pairKey]
          obtain heq | heq := orderedCauses_eq s.kind other
          all_goals
            rw [heq]
            simp only [hkind, hin, true_or, or_true, and_self]
    · rw [hcompared.elsewhere hkey] at hnode
      obtain ⟨hkeyed, hordered, hexclusive, hfirst, hsecond⟩ := h.formed _ _ _ hnode
      rw [← hsame.cause] at hfirst hsecond
      exact ⟨hkeyed, hordered, hexclusive, hfirst, hsecond⟩
  · rw [hconfidence, hconfidence]
    by_cases hkey : (scope', key) = (scope, s.pairKey other)
    · obtain ⟨rfl, rfl⟩ := Prod.mk.inj hkey
      obtain ⟨hclose | hresolved, -⟩ := hcompared.here hnode
      · rw [← hthis] at hclose
        exact tooClose_ordered (f := fun cause => e.confidence scope' (cause, s.target)) hclose
      · rw [hresolved] at hactive
        cases hactive
    · rw [hcompared.elsewhere hkey] at hnode
      exact h.close _ _ _ hnode hactive fun hwait => hnot ⟨hwait, hkey⟩

/-- The causes that the changed one excludes, group by group. -/
def excludedBy (host : Host) (s : CauseSnapshot) : List CauseKind :=
  (effectiveExclusivityGroups host).flatMap fun group =>
    if s.kind ∈ group.causes then group.causes.filter (· ≠ s.kind) else []

theorem mem_excludedBy {other : CauseKind} : other ∈ excludedBy host s ↔ other ≠ s.kind ∧
    ∃ group ∈ effectiveExclusivityGroups host, s.kind ∈ group.causes ∧ other ∈ group.causes := by
  unfold excludedBy
  rw [List.mem_flatMap]
  constructor
  · rintro ⟨group, hgroup, hother⟩
    split at hother
    · rename_i hkind
      obtain ⟨hmem, hne⟩ := List.mem_filter.mp hother
      exact ⟨of_decide_eq_true hne, group, hgroup, hkind, hmem⟩
    · cases hother
  · rintro ⟨hne, group, hgroup, hkind, hmem⟩
    refine ⟨group, hgroup, ?_⟩
    rw [if_pos hkind]
    exact List.mem_filter.mpr ⟨hmem, decide_eq_true hne⟩

/-- Comparing with several causes judges the ambiguities with all of them. -/
theorem Judged.comparedAll (others : List CauseKind) (hothers : ∀ other ∈ others,
      other ∈ excludedBy host s) (h : Judged host waits e)
    (hholds : ∃ node, e.cause scope (s.kind, s.target) = some node ∧
      node.confidence = s.confidence) :
    Judged host (fun scope' key => waits scope' key ∧
        ∀ other ∈ others, (scope', key) ≠ (scope, s.pairKey other))
      (others.foldl (compareCauses host s scope) e) := by
  induction others generalizing e waits with
  | nil => exact h.mono fun _ _ _ _ hwait => ⟨hwait, fun _ hother => absurd hother List.not_mem_nil⟩
  | cons other rest ih =>
      rw [List.foldl_cons]
      have hsame : SameCauses e (compareCauses host s scope e other) :=
        compareCauses_sameCauses e s scope other
      obtain ⟨hne, hgroup⟩ := mem_excludedBy.mp (hothers other (List.mem_cons_self ..))
      have hfirst := h.compared (compareCauses_compared s scope e other) hsame hholds hne hgroup
      have hrest := ih (fun o ho => hothers o (List.mem_cons_of_mem _ ho)) hfirst
        (by rw [hsame.cause]; exact hholds)
      refine hrest.mono fun scope' key _ _ ⟨⟨hwait, hother⟩, hwaiting⟩ => ⟨hwait, fun o ho => ?_⟩
      obtain rfl | ho := List.mem_cons.mp ho
      · exact hother
      · exact hwaiting o ho

/-- The synthesis judges all ambiguities of the cause that has changed. -/
theorem Judged.synthesized (h : Judged host (s.awaits scope) e)
    (hholds : ∃ node, e.cause scope (s.kind, s.target) = some node ∧
      node.confidence = s.confidence) :
    AllJudged host (synthesizeAmbiguity host s scope e) := by
  have hall := h.comparedAll (excludedBy host s) (fun _ hother => hother) hholds
  refine hall.mono fun scope' key node hnode ⟨⟨hscope, htarget, hkind⟩, hothers⟩ => ?_
  obtain ⟨-, ⟨hle, hne⟩, hexclusive, -, -⟩ := hall.formed scope' key node hnode
  obtain ⟨⟨first, second⟩, target⟩ := key
  simp only at hle hne hexclusive htarget hkind
  obtain ⟨group, hgroup, hfirst, hsecond⟩ := hexclusive
  obtain rfl | rfl := hkind
  · refine hothers second (mem_excludedBy.mpr ⟨hne.symm, group, hgroup, hfirst, hsecond⟩) ?_
    rw [hscope, htarget, CauseSnapshot.pairKey, orderedCauses, if_pos hle]
  · refine hothers first (mem_excludedBy.mpr ⟨hne, group, hgroup, hsecond, hfirst⟩) ?_
    have hnot : ¬ s.kind ≤ first := fun hge => hne (String.le_antisymm hle hge)
    rw [hscope, htarget, CauseSnapshot.pairKey, orderedCauses, if_neg hnot]

end Steps

/-! ### Writing a cause -/

/-- Where a change of a cause is reported, this cause is written; else causes and
ambiguities stay as they are. -/
def Reports (scope : ScopeId) (e : Engine) (applied : Engine × Option CauseSnapshot) : Prop :=
  match applied.2 with
  | some s => Mutates scope s e applied.1
  | none => SameFindings e applied.1

/-- Replacing a partition by one with a cause inserted writes this cause. -/
theorem Mutates.of_setPartition {s : CauseSnapshot} {g : SubGraph} {node : CauseNode}
    (hpart : ∀ scope', e'.part scope' = if scope' = scope then g else e.part scope')
    (hcauses : g.causes = AList.insert (s.kind, s.target) node (e.part scope).causes)
    (hambiguities : g.ambiguities = (e.part scope).ambiguities)
    (hconfidence : node.confidence = s.confidence) : Mutates scope s e e' := by
  refine ⟨⟨node, ?_, hconfidence⟩, fun scope' key hne => ?_, fun scope' => ?_⟩
  · unfold Engine.cause
    rw [hpart, if_pos rfl, hcauses, AList.lookup_insert]
  · unfold Engine.cause
    rw [hpart]
    split
    · rename_i heq
      subst heq
      have hkey : key ≠ (s.kind, s.target) := fun hkey => hne (by rw [hkey])
      rw [hcauses, AList.lookup_insert_ne hkey]
    · rfl
  · rw [hpart]
    split
    · rename_i heq
      rw [hambiguities, heq]
    · rfl

theorem applyInfer_reports (host : Host) (cause : CauseKind) (target : ScopeId) (weight : Weight)
    (key : RuntimeProvKey) (endpoints : List EdgeEndpoint) (anchorTime : EventTime)
    (scope : ScopeId) (e : Engine) :
    Reports scope e (applyInfer host cause target weight key endpoints anchorTime scope e) := by
  have hpart : (e.openPartition scope).store.partitionOf scope = e.part scope :=
    part_openPartition e scope scope
  unfold applyInfer SubGraph.tryInsertProvenance
  simp only [hpart]
  split
  · exact .of_part (part_openPartition e scope)
  · split
    · exact .of_part (part_openPartition e scope)
    · rename_i part hfresh
      split at hfresh
      · cases hfresh
      · obtain rfl := Option.some.inj hfresh
        exact .of_setPartition (part_written (part_openPartition e scope) (part_allocate _ _ _)) rfl
          rfl rfl

theorem applyRollup_reports (host : Host) (cause : CauseKind) (target childScope : ScopeId) (e : Engine) :
    Reports target e (applyRollup host cause target childScope e) := by
  have hopen : ∀ scope, ((e.touch target).openPartition target).part scope = e.part scope :=
    part_openPartition (e.touch target) target
  have hpart : ((e.touch target).openPartition target).store.partitionOf target = e.part target :=
    hopen target
  unfold applyRollup
  simp only [hpart]
  split
  · exact .of_part hopen
  · exact .of_setPartition (part_written hopen (part_allocate _ _ _)) rfl rfl rfl

/-! ### Running a rule -/

section Running

variable {fire : Fire} (hfire : KeepsFindings host fire) {rule : RuleInstance} {anchor : Bound}
include hfire

/-- What follows a change of a cause judges its ambiguities. -/
theorem followUp_judged {applied : Engine × Option CauseSnapshot} {run : Run}
    (h : AllJudged host run.engine) (hreports : Reports scope run.engine applied) :
    AllJudged host (followUp host fire scope applied run).engine := by
  obtain ⟨e', _ | s⟩ := applied
  · exact h.of_sameFindings hreports
  · have hmutates : Mutates scope s run.engine e' := hreports
    let rules := host.image.rulesFor (.cause s.kind) scope.scopeType .decision
    have hdecided : SameFindings e'
        (rules.foldl (fireIfMatched host fire (.cause s) scope) ⟨e', run.budget⟩).engine :=
      fireAll_sameFindings hfire (fun _ hrule => .cause hrule) ⟨e', run.budget⟩
    refine ((h.mutated hmutates).of_sameFindings hdecided).synthesized ?_
    rw [hdecided.cause]
    exact hmutates.holds

theorem execInfer_judged {cause : CauseKind} {path : MetricPath} {weight : Weight}
    {evidence : List Symbol} {provenanceKey : ProvKey} (bindings : List Binding) {run : Run}
    (h : AllJudged host run.engine) :
    AllJudged host (execInfer host fire rule cause path weight evidence provenanceKey bindings
      anchor scope run).engine := by
  refine withTarget_preserves (fun _ _ h => h.of_sameFindings (.of_part fun _ => rfl))
    (fun target run h => ?_) h
  simp only
  have hinferred := followUp_judged hfire h (applyInfer_reports host cause target weight
    (runtimeProvKey provenanceKey target anchor.time host.limits.dedupWindow)
    (evidenceEndpoints rule evidence bindings) anchor.time scope run.engine)
  split
  · exact followUp_judged hfire hinferred (applyRollup_reports host cause target scope _)
  · exact hinferred

theorem execIntent_judged (bindings : List Binding) {run : Run} {intent : Intent}
    (hintent : ∀ causes path, intent ≠ .markAmbiguous causes path)
    (h : AllJudged host run.engine) :
    AllJudged host (execIntent host fire rule bindings anchor scope run intent).engine := by
  have hother : ¬ intent.Finds → AllJudged host
      (execIntent host fire rule bindings anchor scope run intent).engine := fun hnot =>
    h.of_sameFindings (execIntent_sameFindings hfire rule bindings hnot run)
  cases intent with
  | inferCause cause target weight evidence provenanceKey pii =>
      exact execInfer_judged hfire bindings h
  | emitProblem | emitAction | supersedeProblem => exact hother id
  | markAmbiguous causes target => exact absurd rfl (hintent causes target)

theorem fireRule_judged (hrule : ∀ causes path, .markAmbiguous causes path ∉ rule.intents)
    {run : Run} (h : AllJudged host run.engine) :
    AllJudged host (fireRule host fire rule anchor scope run).engine := by
  let bound := bindRule host rule anchor scope run.engine
  let truth := branchTruth host bound.2.interner rule bound.1 scope
  have hintents : ∀ (intents : List Intent) (run : Run), (∀ intent ∈ intents,
      ∀ causes path, intent ≠ .markAmbiguous causes path) → AllJudged host run.engine →
        AllJudged host (execIntents host fire intents rule bound.1 anchor scope run).engine := by
    intro intents
    induction intents with
    | nil => exact fun _ _ h => h
    | cons intent rest ih =>
        intro run hrest h
        exact ih _ (fun i hi => hrest i (List.mem_cons_of_mem _ hi))
          (execIntent_judged hfire bound.1 (hrest intent (List.mem_cons_self ..)) h)
  have hbound : AllJudged host (bound.2.report truth.2) := h.of_sameFindings (.of_part fun _ => rfl)
  refine hintents _ ⟨bound.2.report truth.2, run.budget - 1⟩ ?_ hbound
  rintro intent hintent causes path rfl
  exact hrule causes path (mem_intents_of_selected hintent)

end Running

/-- A rule of an accepted image, with all decisions that it wakes, judges the ambiguities. -/
theorem runWithin_judged {catalog : Catalog} {config : VerifyConfig} {ruleset : Ruleset}
    (himage : verifyWithConfig catalog config ruleset = .ok host.image) {rule : RuleInstance}
    (hrule : rule ∈ host.image.rules) (anchor : Bound) (scope : ScopeId) {run : Run}
    (h : AllJudged host run.engine) :
    AllJudged host (runWithin host rule anchor scope run).engine := by
  have hreport : AllJudged host (run.report [.ruleFiringsExceeded scope]).engine :=
    h.of_sameFindings (.of_part fun _ => rfl)
  unfold runWithin
  generalize run.budget = depth
  cases depth with
  | zero => exact hreport
  | succ depth =>
      unfold runRule
      split
      · exact hreport
      · have hfire : KeepsFindings host (runRule host depth) :=
          runRule_keepsFindings (fun _ _ _ => Cascades.not_finds himage) depth
        exact fireRule_judged hfire (fun _ _ => accepted_marks_nothing himage hrule) h

/-- In every state of every run of an accepted image, all ambiguities are judged. -/
theorem runOperations_judged {catalog : Catalog} {config : VerifyConfig} {ruleset : Ruleset}
    (himage : verifyWithConfig catalog config ruleset = .ok host.image) (ops : List Operation) :
    AllJudged host (runOperations host ops) :=
  runOperations_of_rules .new
    (fun _ _ h hpruned => h.of_sameFindings
      ⟨fun scope => (hpruned scope).causes, fun scope => (hpruned scope).ambiguities⟩)
    (fun _ anchor scope _ hrule h => runWithin_judged himage hrule anchor scope h) ops

/-! ### What the synthesis creates -/

/-- Ambiguities are created under new keys, one problem and one action for each. -/
structure Surfaces (host : Host) (scope : ScopeId)
    (raised : List ((CauseKind × CauseKind) × ScopeId)) (e e' : Engine) : Prop where
  created : ∀ scope' key, (e'.ambiguity scope' key).isSome = true ↔
    (e.ambiguity scope' key).isSome = true ∨ (scope' = scope ∧ key ∈ raised)
  fresh : ∀ key ∈ raised, e.ambiguity scope key = none
  nodup : raised.Nodup
  problems : ∃ problems, (e'.part scope).problems = (e.part scope).problems ++ problems ∧
    List.Forall₂ (fun key (problem : ProblemNode) =>
      problem.kind = "AmbiguousDiagnosis" ∧ problem.target = key.2) raised problems
  elsewhere : ∀ scope', scope' ≠ scope → (e'.part scope').problems = (e.part scope').problems
  actions : e'.sinkLog =
    e.sinkLog ++ raised.map fun key => (markAction host key, host.mode, e.store.watermark)
  watermark : e'.store.watermark = e.store.watermark

namespace Surfaces

variable {raised raised' : List ((CauseKind × CauseKind) × ScopeId)}

theorem refl (host : Host) (scope : ScopeId) (e : Engine) : Surfaces host scope [] e e where
  created _ _ := ⟨.inl, fun h => h.elim id fun ⟨_, hkey⟩ => absurd hkey List.not_mem_nil⟩
  fresh _ hkey := absurd hkey List.not_mem_nil
  nodup := List.nodup_nil
  problems := ⟨[], (List.append_nil _).symm, .nil⟩
  elsewhere _ _ := rfl
  actions := (List.append_nil _).symm
  watermark := rfl

theorem trans (h : Surfaces host scope raised e e') (h' : Surfaces host scope raised' e' e'') :
    Surfaces host scope (raised ++ raised') e e'' := by
  obtain ⟨problems, hproblems, hall⟩ := h.problems
  obtain ⟨problems', hproblems', hall'⟩ := h'.problems
  -- What is created second was not there before the first, nor created by it.
  have hnew : ∀ key ∈ raised', ¬ ((e.ambiguity scope key).isSome = true ∨ key ∈ raised) := by
    intro key hkey hbefore
    have hsome := (h.created scope key).mpr (hbefore.imp id fun hraised => ⟨rfl, hraised⟩)
    rw [h'.fresh key hkey] at hsome
    cases hsome
  refine ⟨fun scope' key => ?_, fun key hkey => ?_, ?_, ⟨problems ++ problems', ?_, ?_⟩,
    fun scope' hne => (h'.elsewhere scope' hne).trans (h.elsewhere scope' hne), ?_,
    h'.watermark.trans h.watermark⟩
  · rw [h'.created, h.created, List.mem_append]
    tauto
  · obtain hkey | hkey := List.mem_append.mp hkey
    · exact h.fresh key hkey
    · exact Option.not_isSome_iff_eq_none.mp fun hsome => hnew key hkey (.inl hsome)
  · refine List.nodup_append.mpr ⟨h.nodup, h'.nodup, fun key hkey key' hkey' heq => ?_⟩
    exact hnew key' hkey' (.inr (heq ▸ hkey))
  · rw [hproblems', hproblems, List.append_assoc]
  · exact List.rel_append hall hall'
  · rw [h'.actions, h.actions, h.watermark, List.map_append, List.append_assoc]

end Surfaces

/-- A comparison creates at most one ambiguity. -/
theorem Compared.surfaces {s : CauseSnapshot} {other : CauseKind}
    (h : Compared host s scope other e e') (hwatermark : e'.store.watermark = e.store.watermark) :
    ∃ raised, Surfaces host scope raised e e' := by
  have hlookup : ∀ {g : SubGraph} {key : (CauseKind × CauseKind) × ScopeId} {node : AmbiguityNode},
      (∀ scope', e'.part scope' = if scope' = scope then g else e.part scope') →
      g.ambiguities = AList.insert key node (e.part scope).ambiguities → ∀ scope' key',
      (e'.ambiguity scope' key').isSome = true ↔ (e.ambiguity scope' key').isSome = true ∨
        (scope' = scope ∧ key' ∈ [key]) := by
    intro g key node hpart hg scope' key'
    unfold Engine.ambiguity
    rw [hpart, List.mem_singleton]
    by_cases hscope : scope' = scope
    · subst hscope
      rw [if_pos rfl, hg]
      by_cases hkey : key' = key
      · subst hkey
        rw [AList.lookup_insert]
        exact ⟨fun _ => .inr ⟨rfl, rfl⟩, fun _ => rfl⟩
      · rw [AList.lookup_insert_ne hkey]
        exact ⟨.inl, fun h => h.resolve_right fun hnew => hkey hnew.2⟩
    · rw [if_neg hscope]
      exact ⟨.inl, fun h => h.resolve_right fun hnew => hscope hnew.1⟩
  cases h with
  | kept hpart hlog =>
      have hambiguity : ∀ scope' key, e'.ambiguity scope' key = e.ambiguity scope' key :=
        fun scope' key => congrArg (fun g => g.ambiguities.lookup key) (hpart scope')
      have hnothing := Surfaces.refl host scope e
      refine ⟨[], fun scope' key => ?_, hnothing.fresh, hnothing.nodup, ⟨[], ?_, .nil⟩,
        fun scope' _ => congrArg SubGraph.problems (hpart scope'), ?_, hwatermark⟩
      · rw [hambiguity]
        exact hnothing.created scope' key
      · rw [List.append_nil, hpart]
      · exact hlog.trans (List.append_nil _).symm
  | raised hnew hnode hclose hother hkind htarget hpart hlog =>
      rename_i node problem
      refine ⟨[s.pairKey other], hlookup hpart rfl, fun key hkey => ?_, List.nodup_singleton _,
        ⟨[problem], ?_, .cons ⟨hkind, htarget⟩ .nil⟩, fun scope' hne => ?_, hlog, hwatermark⟩
      · exact List.mem_singleton.mp hkey ▸ hnew
      · rw [hpart, if_pos rfl]
        rfl
      · rw [hpart, if_neg hne]
  | resolved hold hpart hlog =>
      have hnothing := Surfaces.refl host scope e
      refine ⟨[], fun scope' key => ?_, hnothing.fresh, hnothing.nodup, ⟨[], ?_, .nil⟩,
        fun scope' hne => ?_, hlog.trans (List.append_nil _).symm, hwatermark⟩
      · rw [hlookup hpart rfl, List.mem_singleton]
        refine ⟨fun h => .inl (h.elim id ?_), fun h => .inl (h.resolve_right fun hin =>
          absurd hin.2 List.not_mem_nil)⟩
        rintro ⟨rfl, rfl⟩
        rw [hold]
        rfl
      · rw [hpart, if_pos rfl, List.append_nil]
      · rw [hpart, if_neg hne]

/-- The synthesis surfaces what it creates. -/
theorem synthesizeAmbiguity_surfaces (host : Host) (s : CauseSnapshot) (scope : ScopeId)
    (e : Engine) : ∃ raised, Surfaces host scope raised e (synthesizeAmbiguity host s scope e) := by
  change ∃ raised, Surfaces host scope raised e
    ((excludedBy host s).foldl (compareCauses host s scope) e)
  generalize excludedBy host s = others
  induction others generalizing e with
  | nil => exact ⟨[], .refl host scope e⟩
  | cons other rest ih =>
      have hgoes : Goes (fun _ _ _ => False) e (compareCauses host s scope e other) :=
        compareCauses_goes e s scope other
      obtain ⟨raised, hfirst⟩ := (compareCauses_compared s scope e other).surfaces hgoes.watermark
      obtain ⟨raised', hrest⟩ := ih (compareCauses host s scope e other)
      exact ⟨raised ++ raised', hfirst.trans hrest⟩

/-! ### What becomes of an ambiguity -/

/-- A later state of an ambiguity: the same node, resolved if it was. -/
structure AmbiguityNode.Kept (node node' : AmbiguityNode) : Prop where
  id : node'.id = node.id
  causes : node'.causes = node.causes
  target : node'.target = node.target
  resolved : node.state = .resolved → node'.state = .resolved

theorem AmbiguityNode.Kept.refl (node : AmbiguityNode) : node.Kept node := ⟨rfl, rfl, rfl, fun h => h⟩

theorem AmbiguityNode.Kept.trans {a b c : AmbiguityNode} (h : a.Kept b) (h' : b.Kept c) :
    a.Kept c :=
  ⟨h'.id.trans h.id, h'.causes.trans h.causes, h'.target.trans h.target,
    fun ha => h'.resolved (h.resolved ha)⟩

/-- No step of a subgraph loses an ambiguity or takes its resolution back. -/
theorem SubGraph.Step.ambiguity_kept {g g' : SubGraph} {next next' : Nat}
    (h : g.Step host next g' next') {key : (CauseKind × CauseKind) × ScopeId} {node : AmbiguityNode}
    (hnode : g.ambiguities.lookup key = some node) :
    ∃ node', g'.ambiguities.lookup key = some node' ∧ node.Kept node' := by
  have hfresh : ∀ {key' : (CauseKind × CauseKind) × ScopeId} {new : AmbiguityNode},
      g.ambiguities.lookup key' = none →
        (AList.insert key' new g.ambiguities).lookup key = some node := by
    intro key' new hnew
    have hne : key ≠ key' := by
      rintro rfl
      rw [hnew] at hnode
      cases hnode
    rw [AList.lookup_insert_ne hne, hnode]
  cases h with
  | keep | update | create | emit | supersede => exact ⟨node, hnode, .refl node⟩
  | raise hnew | mark hnew => exact ⟨node, hfresh hnew, .refl node⟩
  | resolve hold =>
      rename_i key' old
      by_cases hkey : key = key'
      · subst hkey
        obtain rfl := Option.some.inj (hnode.symm.trans hold)
        exact ⟨_, AList.lookup_insert .., rfl, rfl, rfl, fun _ => rfl⟩
      · exact ⟨node, by rw [AList.lookup_insert_ne hkey, hnode], .refl node⟩

theorem PartitionStep.ambiguity_kept (h : PartitionStep host e e')
    {key : (CauseKind × CauseKind) × ScopeId} {node : AmbiguityNode}
    (hnode : e.ambiguity scope key = some node) :
    ∃ node', e'.ambiguity scope key = some node' ∧ node.Kept node' := by
  unfold Engine.ambiguity at hnode ⊢
  cases h with
  | write scope' g hpart hstep =>
      rw [hpart]
      split
      · rename_i heq
        subst heq
        exact hstep.ambiguity_kept hnode
      · exact ⟨node, hnode, .refl node⟩
  | prune hpart =>
      rw [(hpart scope).ambiguities]
      exact ⟨node, hnode, .refl node⟩

/-- In a later state of a run an ambiguity is still there. -/
theorem ambiguity_kept (host : Host) (ops ops' : List Operation)
    {key : (CauseKind × CauseKind) × ScopeId} {node : AmbiguityNode}
    (hnode : (runOperations host ops).ambiguity scope key = some node) :
    ∃ node', (runOperations host (ops ++ ops')).ambiguity scope key = some node' ∧
      node.Kept node' := by
  refine (runOperations_steps host ops ops').invariant
    (P := fun e => ∃ node', e.ambiguity scope key = some node' ∧ node.Kept node') ?_
    ⟨node, hnode, .refl node⟩
  rintro e e' ⟨node', hnode', hkept⟩ hstep
  obtain ⟨node'', hnode'', hkept'⟩ := hstep.ambiguity_kept hnode'
  exact ⟨node'', hnode'', hkept.trans hkept'⟩

/-- Two keys in order with the same pair and target are one. -/
theorem Formed.unique {key key' : (CauseKind × CauseKind) × ScopeId} {node node' : AmbiguityNode}
    (h : Formed host e scope key node) (h' : Formed host e scope key' node')
    (hpair : s(node.causes.1, node.causes.2) = s(node'.causes.1, node'.causes.2))
    (htarget : node.target = node'.target) : key = key' := by
  have hordered := h.ordered
  have hordered' := h'.ordered
  rw [← h.keyed] at hordered ⊢
  rw [← h'.keyed] at hordered' ⊢
  obtain ⟨hfirst, hsecond⟩ | ⟨hfirst, hsecond⟩ := Sym2.eq_iff.mp hpair
  · rw [htarget, Prod.ext hfirst hsecond]
  · simp only at hordered hordered'
    rw [hfirst, hsecond] at hordered
    exact absurd (String.le_antisymm hordered'.1 hordered.1) hordered'.2

/-- In every state of every run of an accepted image: an active ambiguity has two causes
in its partition, both below 80 and less than 15 apart; no two ambiguities of a partition
are of the same pair and target; and a resolved one stays resolved. From any state, the
synthesis emits one problem and one action for each ambiguity that it creates. -/
theorem ambiguity_lifecycle {catalog : Catalog} {config : VerifyConfig} {ruleset : Ruleset}
    (himage : verifyWithConfig catalog config ruleset = .ok host.image) (ops : List Operation) :
    (∀ scope key node, (runOperations host ops).ambiguity scope key = some node →
      node.state = .active → ∃ first second,
        (runOperations host ops).cause scope (node.causes.1, node.target) = some first ∧
        (runOperations host ops).cause scope (node.causes.2, node.target) = some second ∧
        TooClose first.confidence second.confidence) ∧
    (∀ scope key key' node node', (runOperations host ops).ambiguity scope key = some node →
      (runOperations host ops).ambiguity scope key' = some node' →
      s(node.causes.1, node.causes.2) = s(node'.causes.1, node'.causes.2) →
      node.target = node'.target → key = key') ∧
    (∀ s scope e, ∃ raised, Surfaces host scope raised e (synthesizeAmbiguity host s scope e)) ∧
    ∀ ops' scope key node, (runOperations host ops).ambiguity scope key = some node →
      node.state = .resolved → ∃ node',
        (runOperations host (ops ++ ops')).ambiguity scope key = some node' ∧
        node'.id = node.id ∧ node'.state = .resolved := by
  have hjudged := runOperations_judged himage ops
  refine ⟨fun scope key node hnode hactive => ?_, fun scope key key' node node' hnode hnode' => ?_,
    synthesizeAmbiguity_surfaces host, fun ops' scope key node hnode hresolved => ?_⟩
  · have hformed := hjudged.formed scope key node hnode
    have hclose := hjudged.close scope key node hnode hactive id
    have hfirst := hformed.first
    have hsecond := hformed.second
    rw [← hformed.keyed] at hfirst hsecond hclose
    obtain ⟨first, hfirst⟩ := Option.isSome_iff_exists.mp hfirst
    obtain ⟨second, hsecond⟩ := Option.isSome_iff_exists.mp hsecond
    unfold Engine.confidence at hclose
    rw [hfirst, hsecond] at hclose
    exact ⟨first, second, hfirst, hsecond, hclose⟩
  · exact (hjudged.formed scope key node hnode).unique (hjudged.formed scope key' node' hnode')
  · obtain ⟨node', hnode', hkept⟩ := ambiguity_kept host ops ops' hnode
    exact ⟨node', hnode', hkept.id, hkept.resolved hresolved⟩

/-- A rule that infers two exclusive causes from a burst. -/
def exclusiveRules : Ruleset :=
  ⟨"exclusive", [], [.evidence {
    name := "burst"
    scope := .session
    anchor := ⟨"rtx", ["tcp", "retransmission_burst"], some (.bool true)⟩
    correlates := []
    ifElse := none
    body := [.infer ⟨"Congestion", [.target (.field (.ident "rtx") "target"), .weight 50]⟩,
      .infer ⟨"PmtudBlackhole", [.target (.field (.ident "rtx") "target"), .weight 45]⟩] }]⟩

/-- A burst of the session 7. -/
def exclusiveBurst (id : EventId) (time : EventTime) : Operation :=
  .call (.ingest (.new id "tcp.retransmission_burst" time ⟨.session, 7⟩ [(0, 1400)]))

/-- The engine after some bursts. After one of them both causes are probable, after two
both are confirmed. -/
def exclusiveRun (bursts : List Operation) : Engine :=
  runOperations (seedHost exclusiveRules) bursts

/-- The ambiguity of the two causes in the partition of the session. -/
def exclusiveAmbiguity (bursts : List Operation) : Option AmbiguityNode :=
  (exclusiveRun bursts).ambiguity ⟨.session, 7⟩ (("Congestion", "PmtudBlackhole"), ⟨.session, 7⟩)

theorem ambiguity_lifecycle_bursts :
    (∃ first second,
      (exclusiveRun [exclusiveBurst 1 ⟨1000⟩]).cause ⟨.session, 7⟩
        ("Congestion", ⟨.session, 7⟩) = some first ∧
      (exclusiveRun [exclusiveBurst 1 ⟨1000⟩]).cause ⟨.session, 7⟩
        ("PmtudBlackhole", ⟨.session, 7⟩) = some second ∧
      TooClose first.confidence second.confidence) ∧
    ∃ node, exclusiveAmbiguity
        [exclusiveBurst 1 ⟨1000⟩, exclusiveBurst 2 ⟨3000⟩, exclusiveBurst 3 ⟨5000⟩] = some node ∧
      node.state = .resolved := by
  have himage : verifyWithConfig .seed .default exclusiveRules =
      .ok (seedHost exclusiveRules).image := verify_eq_ok (by decide) (by decide)
  have hactive : (exclusiveAmbiguity [exclusiveBurst 1 ⟨1000⟩]).any fun node =>
      node.state = .active ∧ node.causes = ("Congestion", "PmtudBlackhole") ∧
        node.target = ⟨.session, 7⟩ := by decide +kernel
  have hresolved : (exclusiveAmbiguity [exclusiveBurst 1 ⟨1000⟩, exclusiveBurst 2 ⟨3000⟩]).any
      (·.state = .resolved) := by decide +kernel
  obtain ⟨node, hnode, hstate⟩ := (Option.any_eq_true _ _).mp hactive
  obtain ⟨hstate, hcauses, htarget⟩ := of_decide_eq_true hstate
  obtain ⟨node', hnode', hstate'⟩ := (Option.any_eq_true _ _).mp hresolved
  obtain ⟨hclose, -⟩ := ambiguity_lifecycle himage [exclusiveBurst 1 ⟨1000⟩]
  obtain ⟨-, -, -, hstays⟩ :=
    ambiguity_lifecycle himage [exclusiveBurst 1 ⟨1000⟩, exclusiveBurst 2 ⟨3000⟩]
  obtain ⟨first, second, hfirst, hsecond, htooClose⟩ := hclose _ _ node hnode hstate
  obtain ⟨last, hlast, -, hstill⟩ :=
    hstays [exclusiveBurst 3 ⟨5000⟩] _ _ node' hnode' (of_decide_eq_true hstate')
  rw [hcauses, htarget] at hfirst hsecond
  exact ⟨⟨first, second, hfirst, hsecond, htooClose⟩, last, hlast, hstill⟩

end Adgl
