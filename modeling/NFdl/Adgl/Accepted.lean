import NFdl.Adgl.Lower

/-!
# Accepted rulesets

What it means for a ruleset that the verifier returns an image for it: no phase
complained, every rule was lowered, and the rules of the image are the lowered
ones in order.
-/

namespace Adgl

open Ast

section Accepted

variable {catalog : Catalog} {config : VerifyConfig} {ruleset : Ruleset} {image : ProgramImage}
  {rule : RuleDecl}

/-- Neither a phase nor the lowering has reported an error. -/
structure NoErrors (catalog : Catalog) (config : VerifyConfig) (ruleset : Ruleset) : Prop where
  phase01 : hasErrors (phase01CatalogResolution catalog ruleset) = false
  phase02 : hasErrors (phase02NameAndTypecheck catalog ruleset) = false
  phase03 : hasErrors (phase03EffectInPure ruleset) = false
  phase04 : hasErrors (phase04Capability catalog ruleset) = false
  phase05 : hasErrors (phase05ScopeTarget catalog ruleset) = false
  phase06 : hasErrors (phase06Temporal config ruleset) = false
  phase07 : hasErrors (phase07TopologySignatures catalog ruleset) = false
  phase08 : hasErrors (phase08Acyclicity ruleset) = false
  phase09 : hasErrors (phase09Exclusivity catalog ruleset) = false
  phase10 : hasErrors (phase10Bipartite ruleset) = false
  phase11 : hasErrors (phase11DosLimits config ruleset) = false
  lowering : hasErrors (lowerToImage catalog ruleset).2 = false

theorem verify_ok (h : verifyWithConfig catalog config ruleset = .ok image) :
    NoErrors catalog config ruleset ∧ image = (lowerToImage catalog ruleset).1 := by
  unfold verifyWithConfig at h
  rcases hphases : hasErrors (runPhases catalog config ruleset) with _ | _
  · rcases hall : hasErrors (runPhases catalog config ruleset ++ (lowerToImage catalog ruleset).2)
      with _ | _
    · simp only [hphases, hall] at h
      simp only [hasErrors_append, runPhases, Bool.or_eq_false_iff] at hall
      obtain ⟨⟨⟨⟨⟨⟨⟨⟨⟨⟨⟨h1, h2⟩, h3⟩, h4⟩, h5⟩, h6⟩, h7⟩, h8⟩, h9⟩, h10⟩, h11⟩, hlower⟩ := hall
      exact ⟨⟨h1, h2, h3, h4, h5, h6, h7, h8, h9, h10, h11, hlower⟩, (Except.ok.inj h).symm⟩
    · simp only [hphases, hall] at h
      cases h
  · simp only [hphases] at h
    cases h

/-- The private paths that lowering annotates evidence with. -/
abbrev piiPaths (catalog : Catalog) (ruleset : Ruleset) : List String :=
  phase12PrivacyAnnotations catalog ruleset

namespace NoErrors

variable (h : NoErrors catalog config ruleset) (hrule : rule ∈ ruleset.rules)
include h hrule

theorem lowerRule : hasErrors (lowerRule catalog (piiPaths catalog ruleset) rule).2 = false := by
  have hlower := h.lowering
  unfold lowerToImage at hlower
  exact hasErrors_flatMap.mp hlower _ (List.mem_map_of_mem hrule)

theorem topoCall {c : CorrelateBlock} (hc : c ∈ rule.correlates) :
    hasErrors (checkTopoCall catalog (.forRule rule) c.topo) = false :=
  hasErrors_flatMap.mp (hasErrors_flatMap.mp h.phase07 _ hrule) _ hc

theorem typed {e : Expr} (he : e ∈ rule.exprs) :
    hasErrors (inferExprType catalog (.forRule rule) e).2 = false := by
  have hphase := hasErrors_flatMap.mp h.phase02 _ hrule
  rw [hasErrors_append, Bool.or_eq_false_iff] at hphase
  exact hasErrors_flatMap.mp hphase.1 _ he

theorem limits : hasErrors (checkLimits rule) = false := by
  have hphase := h.phase11
  simp only [phase11DosLimits, hasErrors_append, Bool.or_eq_false_iff] at hphase
  exact hasErrors_flatMap.mp hphase.2 _ hrule

theorem correlates_length_le : rule.correlates.length ≤ maxCorrelatesPerRule := by
  have hlimits := h.limits hrule
  simp only [checkLimits, hasErrors_append, Bool.or_eq_false_iff, hasErrors_check,
    Bool.not_eq_false', decide_eq_true_eq] at hlimits
  exact hlimits.1.1

end NoErrors

theorem lowerMinMatch_error {count : Option Nat} {diag : Diagnostic}
    (h : lowerMinMatch count = .error diag) : hasErrors [diag] ≠ false := by
  unfold lowerMinMatch at h
  cases count with
  | none => cases h
  | some n =>
      dsimp only at h
      split_ifs at h
      · cases h
        exact nofun
      · cases h
        exact nofun

/-- A correlate is lowered unless there is an error. -/
theorem lowerCorrelate_isSome {env : RuleEnv} (anchorBinding : String) {c : CorrelateBlock}
    (htopo : hasErrors (checkTopoCall catalog env c.topo) = false)
    (hlower : hasErrors (lowerCorrelate anchorBinding c).2 = false) :
    (lowerCorrelate anchorBinding c).1.isSome := by
  unfold lowerCorrelate at hlower ⊢
  unfold checkTopoCall at htopo
  rcases hfn : resolveTopoFn c.topo.name with _ | topoFn
  · simp only [hfn] at htopo
    cases htopo
  · simp only [hfn] at hlower ⊢
    rcases hargs : c.topo.args.mapM metricPathFromExpr with _ | args
    · simp only [hargs] at hlower
      cases hlower
    · simp only [hargs] at hlower ⊢
      rcases hcount : lowerMinMatch c.minMatch with diag | minMatch
      · simp only [hcount] at hlower
        exact absurd hlower (lowerMinMatch_error hcount)
      · rfl

theorem lowerCorrelates_isSome {env : RuleEnv} (anchorBinding : String) {cs : List CorrelateBlock}
    (htopo : ∀ c ∈ cs, hasErrors (checkTopoCall catalog env c.topo) = false)
    (hlower : hasErrors (lowerCorrelates anchorBinding cs).2 = false) :
    (lowerCorrelates anchorBinding cs).1.isSome := by
  induction cs with
  | nil => rfl
  | cons c cs ih =>
      have hsome := lowerCorrelate_isSome anchorBinding (htopo c (List.mem_cons_self ..))
      unfold lowerCorrelates at hlower ⊢
      rcases hc : lowerCorrelate anchorBinding c with ⟨_ | spec, diags⟩
      · simp only [hc] at hlower hsome
        cases hsome hlower
      · simp only [hc, hasErrors_append, Bool.or_eq_false_iff] at hlower ⊢
        rw [Option.isSome_map]
        exact ih (fun c hc => htopo c (List.mem_cons_of_mem _ hc)) hlower.2

/-- The correlates are lowered in order. -/
theorem lowerCorrelates_forall₂ {anchorBinding : String} {cs : List CorrelateBlock}
    {specs : List CorrelateSpec} (h : (lowerCorrelates anchorBinding cs).1 = some specs) :
    List.Forall₂ (fun c spec => (lowerCorrelate anchorBinding c).1 = some spec) cs specs := by
  induction cs generalizing specs with
  | nil =>
      obtain rfl := Option.some.inj h
      exact .nil
  | cons c cs ih =>
      unfold lowerCorrelates at h
      rcases hc : lowerCorrelate anchorBinding c with ⟨_ | spec, diags⟩
      · simp only [hc] at h
        cases h
      · simp only [hc] at h
        obtain ⟨specs', hspecs, rfl⟩ := Option.map_eq_some_iff.mp h
        exact .cons (by rw [hc]) (ih hspecs)

/-- Every lowered correlate comes from one of the correlates. -/
theorem lowerCorrelates_mem {anchorBinding : String} {cs : List CorrelateBlock}
    {specs : List CorrelateSpec} (h : (lowerCorrelates anchorBinding cs).1 = some specs)
    {spec : CorrelateSpec} (hspec : spec ∈ specs) :
    ∃ c ∈ cs, (lowerCorrelate anchorBinding c).1 = some spec := by
  obtain ⟨i, hi, rfl⟩ := List.mem_iff_getElem.mp hspec
  have hall := lowerCorrelates_forall₂ h
  have hlength := hall.length_eq
  exact ⟨cs[i], List.getElem_mem _, hall.get (by omega) hi⟩

/-- A lowered correlate has the name and the window of the correlate. -/
theorem lowerCorrelate_eq {anchorBinding : String} {c : CorrelateBlock} {spec : CorrelateSpec}
    (h : (lowerCorrelate anchorBinding c).1 = some spec) :
    spec.binding = c.binding ∧ spec.window = lowerWindow anchorBinding c := by
  unfold lowerCorrelate at h
  split at h
  · cases h
  · split at h
    · cases h
    · split at h
      · cases h
      · cases h
        exact ⟨rfl, rfl⟩

theorem lowerCorrelate_window {anchorBinding : String} {c : CorrelateBlock} {spec : CorrelateSpec}
    (h : (lowerCorrelate anchorBinding c).1 = some spec) :
    spec.window = lowerWindow anchorBinding c :=
  (lowerCorrelate_eq h).2

/-- The instance that a rule is lowered to. -/
theorem lowerRule_eq {piiPaths : List String} {inst : RuleInstance}
    (h : (lowerRule catalog piiPaths rule).1 = some inst) :
    ∃ specs, (lowerCorrelates rule.anchorBinding rule.correlates).1 = some specs ∧ inst =
      { id := rule.name
        kind := rule.kind
        scope := rule.scope
        anchor := ⟨rule.anchorBinding, lowerAnchorSource rule,
          (lowerAnchorPredicate catalog (.forRule rule) rule).1⟩
        correlates := specs
        branches := rule.ifElse.map fun ifElse =>
          (lowerBranches catalog piiPaths (.forRule rule) rule.name ifElse).1
        body := (lowerStmts catalog piiPaths (.forRule rule) rule.name rule.body).1
        annotations := ⟨windowReach WindowProof.back? specs, windowReach WindowProof.forward? specs,
          some rule.scope⟩ } := by
  unfold lowerRule at h
  rcases hc : lowerCorrelates rule.anchorBinding rule.correlates with ⟨_ | specs, diags⟩
  · simp only [hc] at h
    cases h
  · simp only [hc, Option.map_map] at h
    exact ⟨specs, rfl, (Option.some.inj h).symm⟩

/-- Every rule of an accepted ruleset is lowered. -/
theorem NoErrors.lowered (h : NoErrors catalog config ruleset) (hrule : rule ∈ ruleset.rules) :
    ∃ inst, (Adgl.lowerRule catalog (piiPaths catalog ruleset) rule).1 = some inst := by
  have hlower := h.lowerRule hrule
  unfold Adgl.lowerRule at hlower ⊢
  have hsome := lowerCorrelates_isSome rule.anchorBinding (fun c hc => h.topoCall hrule hc)
  rcases hc : lowerCorrelates rule.anchorBinding rule.correlates with ⟨_ | specs, diags⟩
  · simp only [hc, hasErrors_append, Bool.or_eq_false_iff] at hlower hsome
    cases hsome hlower.2
  · exact ⟨_, rfl⟩

theorem mem_image_iff (h : verifyWithConfig catalog config ruleset = .ok image)
    {inst : RuleInstance} : inst ∈ image.rules ↔ ∃ rule ∈ ruleset.rules,
      (lowerRule catalog (piiPaths catalog ruleset) rule).1 = some inst := by
  obtain ⟨-, rfl⟩ := verify_ok h
  change inst ∈ (ruleset.rules.map _).filterMap Prod.fst ↔ _
  rw [List.filterMap_map, List.mem_filterMap]
  rfl

/-- No part of an accepted rule is lowered with an error. -/
theorem NoErrors.lowerRule_parts (h : NoErrors catalog config ruleset)
    (hrule : rule ∈ ruleset.rules) :
    hasErrors (lowerAnchorPredicate catalog (.forRule rule) rule).2 = false ∧
      hasErrors (lowerStmts catalog (piiPaths catalog ruleset) (.forRule rule) rule.name
        rule.body).2 = false ∧
      ∀ ifElse, rule.ifElse = some ifElse → hasErrors (lowerBranches catalog
        (piiPaths catalog ruleset) (.forRule rule) rule.name ifElse).2 = false := by
  have hlower := h.lowerRule hrule
  obtain ⟨inst, hinst⟩ := h.lowered hrule
  unfold Adgl.lowerRule at hlower hinst
  rcases hc : lowerCorrelates rule.anchorBinding rule.correlates with ⟨_ | specs, diags⟩
  · simp only [hc] at hinst
    cases hinst
  · simp only [hc, hasErrors_append, Bool.or_eq_false_iff] at hlower
    obtain ⟨⟨⟨hanchor, -⟩, hbody⟩, hbranches⟩ := hlower
    refine ⟨hanchor, hbody, fun ifElse hif => ?_⟩
    rw [hif] at hbranches
    exact hbranches

/-- No predicate of an accepted rule is compiled with an error. -/
theorem NoErrors.compiled (h : NoErrors catalog config ruleset) (hrule : rule ∈ ruleset.rules)
    {e : Expr} (he : e ∈ rule.predicates) :
    hasErrors (compilePredicate catalog (.forRule rule) e).2 = false := by
  obtain ⟨hanchor, -, hbranches⟩ := h.lowerRule_parts hrule
  obtain he | he := List.mem_append.mp he
  · unfold lowerAnchorPredicate at hanchor
    rw [Option.mem_toList.mp he] at hanchor
    exact hanchor
  · obtain ⟨ifElse, hif, rfl⟩ := Option.map_eq_some_iff.mp (Option.mem_toList.mp he)
    have hparts := hbranches ifElse hif
    simp only [lowerBranches, hasErrors_append, Bool.or_eq_false_iff] at hparts
    exact hparts.1.1

theorem mem_exprs {e : Expr} (he : e ∈ rule.predicates) : e ∈ rule.exprs := by
  unfold RuleDecl.predicates at he
  unfold RuleDecl.exprs
  simp only [List.mem_append] at he ⊢
  tauto

end Accepted

end Adgl
