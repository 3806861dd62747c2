import NFdl.Adgl.Agreement

/-!
# Firings

Running a rule runs further rules through causes and problems, which may wake each
other in a circle. Every body that is executed takes one from the budget of the event,
so the recursion ends, at a depth within the budget, and executes no more bodies than
the budget allows.
-/

namespace Adgl

variable {host : Host} {run run' : Run} {fire fire' : Fire} {budget : Nat}

/-- The rule bodies that were executed. -/
def Engine.firings (e : Engine) : Nat := e.trace.resolutions.length

/-- Every body that is executed takes one from the budget. -/
structure Spends (run run' : Run) : Prop where
  budget_le : run'.budget ≤ run.budget
  balance : run'.engine.firings + run'.budget = run.engine.firings + run.budget

namespace Spends

theorem refl (run : Run) : Spends run run := ⟨le_rfl, rfl⟩

theorem trans {run'' : Run} (h : Spends run run') (h' : Spends run' run'') : Spends run run'' :=
  ⟨h'.budget_le.trans h.budget_le, h'.balance.trans h.balance⟩

/-- A change of the engine by which no body is executed. -/
theorem of_firings (hfirings : run'.engine.firings = run.engine.firings)
    (hbudget : run'.budget = run.budget) : Spends run run' :=
  ⟨hbudget.le, by rw [hfirings, hbudget]⟩

theorem firings_le (h : Spends run run') :
    run'.engine.firings ≤ run.engine.firings + run.budget := by
  have hbalance := h.balance
  omega

end Spends

theorem Goes.firings {e e' : Engine} (h : Goes (fun _ _ _ => False) e e') :
    e'.firings = e.firings := by
  obtain ⟨rs, hrs, -, hfires⟩ := h.resolutions
  have hnil : rs = [] := List.eq_nil_iff_forall_not_mem.mpr fun r hr => (hfires r hr).1
  unfold Engine.firings
  rw [hrs, hnil, List.append_nil]

/-- Two results of a run are the same, and the run spends its budget. -/
structure Agree (run x y : Run) : Prop where
  eq : x = y
  spends : Spends run x

/-- Two ways to run rules agree on every run within the budget. -/
def AgreeWithin (budget : Nat) (fire fire' : Fire) : Prop :=
  ∀ rule anchor scope run, run.budget ≤ budget →
    Agree run (fire rule anchor scope run) (fire' rule anchor scope run)

/-- A change of the engine by which no body is executed. -/
theorem Agree.of_firings (hfirings : run'.engine.firings = run.engine.firings)
    (hbudget : run'.budget = run.budget) : Agree run run' run' :=
  ⟨rfl, .of_firings hfirings hbudget⟩

/-- The runs within a budget, which they spend. -/
def spending (host : Host) (budget : Nat) : Course host where
  Admits run := run.budget ≤ budget
  Leads := Spends
  refl := .refl
  trans := .trans
  admits hbudget h := h.budget_le.trans hbudget
  between h hbudget := .of_firings h.goes.firings hbudget

theorem AgreeWithin.agreeOn (h : AgreeWithin budget fire fire') :
    (spending host budget).AgreeOn fire fire' :=
  fun rule anchor scope run hrun =>
    have hagree := h rule anchor scope run hrun
    ⟨hagree.eq, hagree.spends⟩

/-- Running a rule executes its body, and then what agrees within the rest of the budget. -/
theorem fireRule_agree (hfire : AgreeWithin budget fire fire') (rule : RuleInstance)
    (anchor : Bound) (scope : ScopeId) (hrun : run.budget = budget + 1) :
    Agree run (fireRule host fire rule anchor scope run)
      (fireRule host fire' rule anchor scope run) := by
  let bound := bindRule host rule anchor scope run.engine
  let truth := branchTruth host bound.2.interner rule bound.1 scope
  have hbound : bound.2.firings = run.engine.firings + 1 := List.length_append ..
  have hspent : Spends run ⟨bound.2.report truth.2, run.budget - 1⟩ := by
    refine ⟨Nat.sub_le _ _, ?_⟩
    change bound.2.firings + (run.budget - 1) = _
    omega
  have hrest : (spending host budget).Admits ⟨bound.2.report truth.2, run.budget - 1⟩ := by
    change run.budget - 1 ≤ budget
    omega
  have hexec := Course.execIntents_agree hfire.agreeOn hrest (selectedIntents rule truth.1) rule
    bound.1 anchor scope
  exact ⟨hexec.eq, hspent.trans hexec.leads⟩

/-- The recursion of the rules cut off at a depth, below which it goes on as `cut` says. -/
def runRuleTo (host : Host) (cut : Fire) : Nat → Fire
  | 0 => cut
  | depth + 1 => fun rule anchor scope run =>
      if run.budget = 0 then run.report [.ruleFiringsExceeded scope]
      else fireRule host (runRuleTo host cut depth) rule anchor scope run

/-- Where the budget is below the depth, nothing depends on what is cut off. -/
theorem runRuleTo_agree (host : Host) (cut : Fire) (budget : Nat) :
    ∀ depth depth', budget < depth → budget ≤ depth' →
      AgreeWithin budget (runRuleTo host cut depth) (runRule host depth') := by
  induction budget with
  | zero =>
      intro depth depth' hdepth _ rule anchor scope run hbudget
      obtain ⟨depth, rfl⟩ := Nat.exists_eq_succ_of_ne_zero (Nat.ne_of_gt hdepth)
      have hzero : run.budget = 0 := Nat.le_zero.mp hbudget
      have hcut : runRuleTo host cut depth.succ rule anchor scope run =
          run.report [.ruleFiringsExceeded scope] := if_pos hzero
      have hrule : runRule host depth' rule anchor scope run =
          run.report [.ruleFiringsExceeded scope] := by
        cases depth' with
        | zero => rfl
        | succ depth' => exact if_pos hzero
      rw [hcut, hrule]
      exact .of_firings rfl rfl
  | succ budget ih =>
      intro depth depth' hdepth hdepth' rule anchor scope run hbudget
      obtain ⟨depth, rfl⟩ := Nat.exists_eq_succ_of_ne_zero (Nat.ne_of_gt (Nat.zero_lt_of_lt hdepth))
      obtain ⟨depth', rfl⟩ := Nat.exists_eq_succ_of_ne_zero
        (Nat.ne_of_gt (Nat.lt_of_lt_of_le (Nat.succ_pos budget) hdepth'))
      have hinner := ih depth depth' (Nat.lt_of_succ_lt_succ hdepth) (Nat.le_of_succ_le_succ hdepth')
      unfold runRuleTo runRule
      by_cases hzero : run.budget = 0
      · rw [if_pos hzero, if_pos hzero]
        exact .of_firings rfl rfl
      · rw [if_neg hzero, if_neg hzero]
        obtain ⟨rest, hrest⟩ := Nat.exists_eq_succ_of_ne_zero hzero
        refine fireRule_agree (fun rule anchor scope run hle => ?_) rule anchor scope hrest
        exact hinner rule anchor scope run (hle.trans (by omega))

theorem runRule_agree (host : Host) {budget depth depth' : Nat} (hdepth : budget ≤ depth)
    (hdepth' : budget ≤ depth') :
    AgreeWithin budget (runRule host depth) (runRule host depth') := by
  intro rule anchor scope run hbudget
  have h := runRuleTo_agree host (runRule host 0) budget (budget + 1)
  have hleft := h depth (Nat.lt_succ_self _) hdepth rule anchor scope run hbudget
  have hright := h depth' (Nat.lt_succ_self _) hdepth' rule anchor scope run hbudget
  rw [← hleft.eq, ← hright.eq]
  exact ⟨rfl, hleft.spends⟩

/-- Running a rule with what is left of the budget is the recursion of the program. -/
theorem runWithin_unfold (host : Host) (rule : RuleInstance) (anchor : Bound) (scope : ScopeId)
    (run : Run) : runWithin host rule anchor scope run =
      if run.budget = 0 then run.report [.ruleFiringsExceeded scope]
      else fireRule host (runWithin host) rule anchor scope run := by
  unfold runWithin
  by_cases hzero : run.budget = 0
  · rw [if_pos hzero, hzero]
    rfl
  · obtain ⟨rest, hrest⟩ := Nat.exists_eq_succ_of_ne_zero hzero
    have hagree : AgreeWithin rest (runRule host rest)
        fun rule anchor scope run => runRule host run.budget rule anchor scope run :=
      fun rule anchor scope run hle => runRule_agree host hle le_rfl rule anchor scope run le_rfl
    rw [if_neg hzero, ← (fireRule_agree hagree rule anchor scope hrest).eq, hrest]
    exact if_neg hzero

theorem runWithin_spends (host : Host) (rule : RuleInstance) (anchor : Bound) (scope : ScopeId)
    (run : Run) : Spends run (runWithin host rule anchor scope run) :=
  (runRule_agree host le_rfl le_rfl rule anchor scope run le_rfl).spends

/-- Matching an event with a rule spends the budget of the event. -/
theorem matchAnchor_spends (host : Host) (event : EventNode) (wm : EventTime) (run : Run)
    (rule : RuleInstance) : Spends run (matchAnchor host event wm run rule) := by
  unfold matchAnchor
  simp only
  generalize evalPred host _ _ _ _ _ = matched
  have hreport : Spends run (run.report matched.2) := .of_firings rfl rfl
  split
  · split
    · refine hreport.trans (.of_firings ?_ rfl)
      change (suspendMatch host rule event _).firings = _
      unfold suspendMatch
      simp only
      split <;> rfl
    · exact hreport.trans (runWithin_spends host rule _ event.scope _)
  · exact hreport

/-- The anchors of an event execute at most as many rule bodies as the budget of an
event allows. The recursion from a rule to the rules that it wakes ends within a depth
of one more than the budget: what would happen below is irrelevant. -/
theorem cascades_bounded (host : Host) :
    (∀ event wm e, (matchAnchors host event wm e).firings ≤
      e.firings + host.limits.maxRuleFiringsPerEvent) ∧
    ∀ rule anchor scope run,
      (runWithin host rule anchor scope run =
        if run.budget = 0 then run.report [.ruleFiringsExceeded scope]
        else fireRule host (runWithin host) rule anchor scope run) ∧
      (∀ cut depth, run.budget < depth →
        runRuleTo host cut depth rule anchor scope run = runWithin host rule anchor scope run) ∧
      (runWithin host rule anchor scope run).engine.firings ≤ run.engine.firings + run.budget := by
  refine ⟨fun event wm e => ?_, fun rule anchor scope run => ⟨?_, fun cut depth hdepth => ?_, ?_⟩⟩
  · have hfold : ∀ (rules : List RuleInstance) (run : Run),
        Spends run (rules.foldl (matchAnchor host event wm) run) := by
      intro rules
      induction rules with
      | nil => exact fun run => .refl run
      | cons rule rest ih =>
          exact fun run => (matchAnchor_spends host event wm run rule).trans (ih _)
    exact (hfold _ ⟨e, host.limits.maxRuleFiringsPerEvent⟩).firings_le
  · exact runWithin_unfold host rule anchor scope run
  · exact (runRuleTo_agree host cut run.budget depth run.budget hdepth le_rfl rule anchor scope run
      le_rfl).eq
  · exact (runWithin_spends host rule anchor scope run).firings_le

end Adgl
