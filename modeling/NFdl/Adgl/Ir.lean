import NFdl.Adgl.Types
import Mathlib.Data.List.AList

/-!
# The intermediate representation of ADGL

Predicates are straight-line operations over sixteen slot registers, rule bodies
are lists of intents, and an image is a list of rule instances with an index by
anchor. A suspended match carries the time at which its window closes.
-/

namespace Adgl

def maxSlots : Nat := 16

abbrev SlotIdx := Fin 16
abbrev BindingIdx := UInt8
abbrev FieldIdx := Fin 65536
abbrev TopoFuncIdx := UInt8

-- The numerals of both index types are those of `Fin`, whose zero is that of the numerals.
instance slotIdx_neZero : @NeZero Nat Zero.ofOfNat0 16 := Nat.instNeZeroSucc

instance fieldIdx_neZero : @NeZero Nat Zero.ofOfNat0 65536 := Nat.instNeZeroSucc

def SlotIdx.new (raw : Nat) : Option SlotIdx := if h : raw < maxSlots then some ⟨raw, h⟩ else none

/-- The five checked operators. -/
inductive ArithOp where
  | add | sub | mul | div | mod
deriving DecidableEq, Repr

inductive CmpOp where
  | eq | ne | lt | le | gt | ge
deriving DecidableEq, Repr

inductive PredOp where
  | loadEventField (binding : BindingIdx) (field : FieldIdx) (dst : SlotIdx)
  | loadCauseField (binding : BindingIdx) (field : FieldIdx) (dst : SlotIdx)
  | loadProblemField (binding : BindingIdx) (field : FieldIdx) (dst : SlotIdx)
  | loadConst (imm : Int64) (dst : SlotIdx)
  | loadDuration (dur : DurationMs) (dst : SlotIdx)
  | loadScopeKey (dst : SlotIdx)
  | arith (op : ArithOp) (lhs rhs dst : SlotIdx)
  | cmp (op : CmpOp) (lhs rhs dst : SlotIdx)
  | and (lhs rhs dst : SlotIdx)
  | or (lhs rhs dst : SlotIdx)
  | not (src dst : SlotIdx)
  | present (binding : BindingIdx) (dst : SlotIdx)
  | absent (binding : BindingIdx) (dst : SlotIdx)
  | topoCall (func : TopoFuncIdx) (a b dst : SlotIdx)
  | winBack (time dur dst : SlotIdx)
  | winFwd (time dur dst : SlotIdx)
  | winIn (x lo hi dst : SlotIdx)
deriving DecidableEq, Repr

structure Predicate where
  ops : List PredOp
  result : SlotIdx
deriving DecidableEq, Repr

def Predicate.alwaysTrue : Predicate := ⟨[.loadConst 1 0], 0⟩

structure ProvKey where
  rule : RuleId
  cause : CauseKind
  targetExprHash : UInt64
deriving DecidableEq, Repr

inductive Intent where
  | inferCause (cause : CauseKind) (target : MetricPath) (weight : Weight) (evidence : List Symbol)
      (provenanceKey : ProvKey) (evidencePii : List MetricPath)
  | emitProblem (problem : ProblemKind) (target : Option MetricPath) (severity : Severity)
      (evidence : List Symbol) (sarifId : SarifId) (pii : List MetricPath)
  | emitAction (kind : ActionKind) (arg : Option Symbol) (target : Option MetricPath)
      (reason : Option String) (evidence : List Symbol)
  | supersedeProblem (problem : ProblemKind) (target : MetricPath)
  | markAmbiguous (causes : CauseKind × CauseKind) (target : MetricPath)
deriving DecidableEq, Repr

inductive RuleKind where
  | evidence | decision
deriving DecidableEq, Repr

inductive AnchorSource where
  | event (eventType : EventType)
  | cause (kind : CauseKind)
  | problem (kind : ProblemKind)
deriving DecidableEq, Repr

structure AnchorSpec where
  binding : Symbol
  source : AnchorSource
  predicate : Predicate
deriving DecidableEq, Repr

inductive CorrelateSource where
  | event (eventType : EventType)
  | problem (kind : ProblemKind)
  | cause (kind : CauseKind)
deriving DecidableEq, Repr

structure TopoCall where
  func : String
  funcIdx : TopoFuncIdx
  args : List MetricPath
deriving DecidableEq, Repr

inductive WindowProof where
  | calculable (back forward : DurationMs)
  | runtimeCheck
deriving DecidableEq, Repr

structure CorrelateSpec where
  binding : Symbol
  source : CorrelateSource
  topo : TopoCall
  window : WindowProof
  minMatch : Nat
deriving DecidableEq, Repr

structure BranchTable where
  cond : Predicate
  thenBody : List Intent
  elseBody : Option (List Intent)
  unknownBody : List Intent
deriving DecidableEq, Repr

structure VerifiedAnnotations where
  maxBackward : DurationMs
  maxForward : DurationMs
  targetScope : Option ScopeType
deriving DecidableEq, Repr

structure RuleInstance where
  id : RuleId
  kind : RuleKind
  scope : ScopeType
  anchor : AnchorSpec
  correlates : List CorrelateSpec
  branches : Option BranchTable
  body : List Intent
  annotations : VerifiedAnnotations
deriving DecidableEq, Repr

def RuleInstance.maxForward (r : RuleInstance) : DurationMs := r.annotations.maxForward

structure ExclusivityGroup where
  causes : List CauseKind
deriving DecidableEq, Repr

/-- What a rule is looked up by. -/
abbrev AnchorKey := AnchorSource

abbrev Positions := AList fun _ : String => List Nat

/-- The positions of the rules, by the kind and the name of their anchor. -/
structure RuleIndex where
  byEvent : Positions
  byCause : Positions
  byProblem : Positions

def u32Max : Nat := 4294967295

def pushPosition (positions : Positions) (name : String) (pos : Nat) : Positions :=
  positions.insert name ((positions.lookup name).getD [] ++ [pos])

def RuleIndex.push (index : RuleIndex) (pos : Nat) (rule : RuleInstance) : RuleIndex :=
  let pos := min pos u32Max
  match rule.anchor.source with
  | .event t => { index with byEvent := pushPosition index.byEvent t pos }
  | .cause k => { index with byCause := pushPosition index.byCause k pos }
  | .problem p => { index with byProblem := pushPosition index.byProblem p pos }

structure ProgramImage where
  rulesetId : String
  exclusivity : List ExclusivityGroup
  rules : List RuleInstance
  index : RuleIndex

namespace ProgramImage

def new (rulesetId : String) (exclusivity : List ExclusivityGroup) (rules : List RuleInstance) :
    ProgramImage where
  rulesetId := rulesetId
  exclusivity := exclusivity
  rules := rules
  index := rules.zipIdx.foldl (fun index entry => index.push entry.2 entry.1) ⟨∅, ∅, ∅⟩

/-- The rules with an anchor, of one scope type and kind. -/
def rulesFor (image : ProgramImage) (key : AnchorKey) (scope : ScopeType) (kind : RuleKind) :
    List RuleInstance :=
  let positions := match key with
    | .event t => image.index.byEvent.lookup t
    | .cause k => image.index.byCause.lookup k
    | .problem p => image.index.byProblem.lookup p
  ((positions.getD []).filterMap fun pos => image.rules[pos]?).filter fun r =>
    r.kind == kind && r.scope == scope

theorem mem_rulesFor {image : ProgramImage} {key : AnchorKey} {scope : ScopeType} {kind : RuleKind}
    {rule : RuleInstance} (h : rule ∈ image.rulesFor key scope kind) :
    rule ∈ image.rules ∧ rule.kind = kind ∧ rule.scope = scope := by
  unfold rulesFor at h
  obtain ⟨hmem, hmatch⟩ := List.mem_filter.mp h
  obtain ⟨pos, -, hpos⟩ := List.mem_filterMap.mp hmem
  rw [Bool.and_eq_true, beq_iff_eq, beq_iff_eq] at hmatch
  exact ⟨List.mem_of_getElem? hpos, hmatch⟩

end ProgramImage

/-- An anchor match that waits for its forward window to close. -/
structure PendingMatch where
  rule : RuleId
  anchorEvent : EventId
  upperBound : EventTime
  scope : ScopeId
deriving DecidableEq, Repr

namespace PendingMatch

/-- The order of resumption: by closing time, then by scope, rule and anchor. -/
def cmp (a b : PendingMatch) : Ordering :=
  (compare a.upperBound b.upperBound).then <|
    (compare a.scope.hashKey b.scope.hashKey).then <|
      (compare a.rule b.rule).then (compare a.anchorEvent b.anchorEvent)

def le (a b : PendingMatch) : Prop := (a.cmp b).isLE = true

instance : DecidableRel le := fun a b => inferInstanceAs (Decidable ((a.cmp b).isLE = true))

theorem transCmp_then {α : Type*} (time : α → EventTime) (scope : α → UInt64) (rule : α → RuleId)
    (anchor : α → EventId) : Std.TransCmp fun a b : α =>
      (compare (time a) (time b)).then <| (compare (scope a) (scope b)).then <|
        (compare (rule a) (rule b)).then (compare (anchor a) (anchor b)) :=
  inferInstanceAs (Std.TransCmp (compareLex (compareOn time)
    (compareLex (compareOn scope) (compareLex (compareOn rule) (compareOn anchor)))))

instance : Std.TransCmp cmp :=
  transCmp_then upperBound (fun m => m.scope.hashKey) rule anchorEvent

instance : IsTrans PendingMatch le := ⟨fun _ _ _ => Std.TransCmp.isLE_trans⟩

instance : Std.Total le := ⟨fun a b => by
  by_cases h : a.le b
  · exact .inl h
  · exact .inr (Ordering.isLE_of_eq_lt (Std.OrientedCmp.lt_of_not_isLE h))⟩

theorem upperBound_le {a b : PendingMatch} (h : a.le b) : a.upperBound ≤ b.upperBound := by
  by_contra hlt
  have hgt : compare a.upperBound b.upperBound = .gt := compare_gt_iff_gt.mpr (not_le.mp hlt)
  unfold le cmp at h
  rw [hgt] at h
  cases h

end PendingMatch

end Adgl
