import NFdl.Adgl.PredicateCorrect
import NFdl.Adgl.Accepted

/-!
# Verified predicates

A predicate of an accepted ruleset has the reference meaning, up to the errors of
operands that the reference skips. It is free of type errors as long as no
arithmetic or comparison meets a truth value, which the types of the verifier do
not exclude: they take truth values for integers.
-/

namespace Adgl

open Ast

section Accepted

variable {catalog : Catalog} {config : VerifyConfig} {ruleset : Ruleset} {rule : RuleDecl}
  {e : Expr}

/-- A predicate of an accepted ruleset. -/
structure VerifiedPredicate (catalog : Catalog) (config : VerifyConfig) (ruleset : Ruleset)
    (rule : RuleDecl) (e : Expr) : Prop where
  accepted : (verifyWithConfig catalog config ruleset).isOk = true
  mem_rules : rule ∈ ruleset.rules
  mem_predicates : e ∈ rule.predicates

theorem VerifiedPredicate.correct (h : VerifiedPredicate catalog config ruleset rule e) :
    Supported catalog (.forRule rule) e ∧
    (compilePredicate catalog (.forRule rule) e).1.WellWritten ∧
    ∀ ctx, evalPredicate (compilePredicate catalog (.forRule rule) e).1 ctx =
      strict catalog (.forRule rule) ctx e >>= asTruth "RESULT" := by
  cases hv : verifyWithConfig catalog config ruleset with
  | error diags =>
      have haccepted := h.accepted
      rw [hv] at haccepted
      cases haccepted
  | ok image =>
      obtain ⟨hno, -⟩ := verify_ok hv
      exact compilePredicate_correct (hno.typed h.mem_rules (mem_exprs h.mem_predicates))
        (hno.compiled h.mem_rules h.mem_predicates)

/-! ### The reference meaning -/

/-- The hashes of the string literals of an expression differ. -/
def DistinctHashes (e : Expr) : Prop :=
  ∀ s ∈ e.literals, ∀ t ∈ e.literals, stableStringI64 s = stableStringI64 t → s = t

/-- An operand that the reference skips has no error, or the one with which the
reference fails later. -/
def SkippedHarmless (catalog : Catalog) (env : RuleEnv) (ctx : PredCtx) (e : Expr) : Prop :=
  ∀ error, skippedError catalog env ctx e = some error → kleene catalog env ctx e = .error error

theorem compiled_eq_kleene_iff (h : VerifiedPredicate catalog config ruleset rule e)
    (hhashes : DistinctHashes e) (ctx : PredCtx) :
    evalPredicate (compilePredicate catalog (.forRule rule) e).1 ctx =
      kleeneTruth catalog (.forRule rule) ctx e ↔
      SkippedHarmless catalog (.forRule rule) ctx e := by
  rw [h.correct.2.2]
  exact strict_truth_iff "RESULT" hhashes

end Accepted

/-! A rule that guards a division. -/

/-- `rtx.segment_size > 0 and 1000 / rtx.segment_size > 1`. -/
def guardedDivision : Expr :=
  .binary .and (.binary .gt (.field (.ident "rtx") "segment_size") (.int 0))
    (.binary .gt (.binary .div (.int 1000) (.field (.ident "rtx") "segment_size")) (.int 1))

/-- An evidence rule on one retransmission burst. -/
def burstRule (predicate : Expr) : RuleDecl :=
  .evidence {
    name := "burst"
    scope := .session
    anchor := ⟨"rtx", ["tcp", "retransmission_burst"], some predicate⟩
    correlates := []
    ifElse := none
    body := [.infer ⟨"Congestion", [.target (.field (.ident "rtx") "target"), .weight 10]⟩] }

def burstRules (predicate : Expr) : Ruleset := ⟨"bursts", [], [burstRule predicate]⟩

/-- A burst with segments of one size. -/
def burst (segmentSize : Int64) : EventNode :=
  .new 1 "tcp.retransmission_burst" ⟨1000⟩ ⟨.session, 7⟩ [(0, segmentSize)]

/-- Topology without an answer. -/
def silentTopology : TopologyProvider :=
  ⟨fun _ _ => .unknown, fun _ _ => .unknown, fun _ _ => .unknown, fun _ _ => .unknown,
    fun _ _ => .unknown, fun _ _ => .unknown⟩

def burstCtx (segmentSize : Int64) : PredCtx :=
  ⟨[.bound (.event (burst segmentSize))], ⟨.session, 7⟩, ∅, silentTopology⟩

theorem guardedDivision_verified :
    VerifiedPredicate .seed .default (burstRules guardedDivision) (burstRule guardedDivision)
      guardedDivision :=
  ⟨by decide, List.mem_singleton_self _, List.mem_singleton_self _⟩

theorem compiled_eq_kleene_guardedDivision :
    evalPredicate (compilePredicate .seed (.forRule (burstRule guardedDivision))
      guardedDivision).1 (burstCtx 1400) = kleeneTruth .seed (.forRule (burstRule guardedDivision))
        (burstCtx 1400) guardedDivision :=
  (compiled_eq_kleene_iff guardedDivision_verified (fun _ hs => nomatch hs) (burstCtx 1400)).mpr (fun error herror => by
      have hnone : skippedError .seed (.forRule (burstRule guardedDivision)) (burstCtx 1400)
        guardedDivision = none := by decide
      rw [hnone] at herror
      cases herror)

/-- The guard does not keep the division by zero from failing. -/
theorem guardedDivision_divides_by_zero :
    (verifyWithConfig .seed .default (burstRules guardedDivision)).isOk = true ∧
    evalPredicate (compilePredicate .seed (.forRule (burstRule guardedDivision))
      guardedDivision).1 (burstCtx 0) = .error .divisionByZero ∧
    kleeneTruth .seed (.forRule (burstRule guardedDivision)) (burstCtx 0) guardedDivision =
      .ok .false := by
  refine ⟨by decide, rfl, rfl⟩

end Adgl
