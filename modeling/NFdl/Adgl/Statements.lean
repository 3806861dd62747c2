import NFdl.Adgl.Resumption

/-!
# The statements that a rule runs

The statements of a rule are lowered one by one, and running the rule executes the
lowered intents of the selected block. An undecided condition executes what the
verifier has put in place of a block.
-/

namespace Adgl

open Ast (RuleDecl Ruleset Stmt Expr IfElseBlock)

variable {catalog : Catalog} {config : VerifyConfig} {ruleset : Ruleset} {image : ProgramImage}
  {rule : RuleDecl} {inst : RuleInstance}

/-! ### Lowering block by block -/

/-- The intents that one statement is lowered to. -/
def intentsOf (catalog : Catalog) (piiPaths : List String) (env : RuleEnv) (ruleId : RuleId)
    (stmt : Stmt) : List Intent :=
  (lowerStmt catalog piiPaths env ruleId stmt).1.getD []

theorem lowerStmts_eq (catalog : Catalog) (piiPaths : List String) (env : RuleEnv)
    (ruleId : RuleId) (stmts : List Stmt) :
    (lowerStmts catalog piiPaths env ruleId stmts).1 =
      stmts.flatMap (intentsOf catalog piiPaths env ruleId) := by
  induction stmts with
  | nil => rfl
  | cons stmt stmts ih =>
      rw [List.flatMap_cons, ← ih]
      rfl

theorem mem_lowerStmts_diags {piiPaths : List String} {env : RuleEnv} {ruleId : RuleId}
    {stmts : List Stmt} (h : hasErrors (lowerStmts catalog piiPaths env ruleId stmts).2 = false)
    {stmt : Stmt} (hstmt : stmt ∈ stmts) :
    hasErrors (lowerStmt catalog piiPaths env ruleId stmt).2 = false := by
  induction stmts with
  | nil => cases hstmt
  | cons stmt' stmts ih =>
      unfold lowerStmts at h
      rw [hasErrors_append, Bool.or_eq_false_iff] at h
      obtain rfl | hstmt := List.mem_cons.mp hstmt
      · exact h.1
      · exact ih h.2 hstmt

/-- Every statement of an accepted rule is lowered without an error. -/
theorem NoErrors.lowerStmt (h : NoErrors catalog config ruleset) (hrule : rule ∈ ruleset.rules)
    {stmt : Stmt} (hstmt : stmt ∈ rule.gatherStatements) :
    hasErrors (Adgl.lowerStmt catalog (piiPaths catalog ruleset) (.forRule rule) rule.name stmt).2 =
      false := by
  obtain ⟨-, hbody, hbranches⟩ := h.lowerRule_parts hrule
  obtain hstmt | hstmt := List.mem_append.mp hstmt
  · exact mem_lowerStmts_diags hbody hstmt
  · unfold RuleDecl.branchStatements at hstmt
    cases hif : rule.ifElse with
    | none =>
        rw [hif] at hstmt
        cases hstmt
    | some ifElse =>
        rw [hif] at hstmt
        have hparts := hbranches ifElse hif
        simp only [lowerBranches, hasErrors_append, Bool.or_eq_false_iff] at hparts
        obtain hstmt | hstmt := List.mem_append.mp hstmt
        · exact mem_lowerStmts_diags hparts.1.2 hstmt
        · exact mem_lowerStmts_diags hparts.2 hstmt

/-- Every statement of an accepted rule is checked against the catalog. -/
theorem NoErrors.checkedStmt (h : NoErrors catalog config ruleset) (hrule : rule ∈ ruleset.rules)
    {stmt : Stmt} (hstmt : stmt ∈ rule.gatherStatements) :
    hasErrors (validateStmtCatalog catalog (.forRule rule) stmt) = false := by
  have hphase := hasErrors_flatMap.mp h.phase01 _ hrule
  rw [hasErrors_append, Bool.or_eq_false_iff] at hphase
  exact hasErrors_flatMap.mp hphase.2 _ hstmt

theorem lowerInfer_ne_nil {piiPaths : List String} {ruleId : RuleId} {infer : Ast.InferStmt}
    (h : hasErrors (lowerInfer piiPaths ruleId infer).2 = false) :
    (lowerInfer piiPaths ruleId infer).1.isSome := by
  unfold lowerInfer at h ⊢
  split at h
  · cases h
  · dsimp only at h ⊢
    split at h
    · cases h
    · rename_i hrange
      rw [if_neg hrange]
      split at h
      · cases h
      · rfl

theorem lowerAction_ne_nil {env : RuleEnv} {action : Ast.ActionStmt}
    (hknown : (resolveAction (Ast.actionName action)).isSome)
    (h : hasErrors (lowerAction env action).2 = false) :
    ∃ intents, (lowerAction env action).1 = some intents ∧ intents ≠ [] := by
  obtain ⟨known, hknown⟩ := Option.isSome_iff_exists.mp hknown
  unfold lowerAction at h ⊢
  rw [hknown] at h ⊢
  dsimp only at h ⊢
  split at h
  · rename_i hkind
    rw [if_pos hkind]
    split at h
    · cases h
    · split at h
      · simp only
        exact ⟨_, rfl, List.cons_ne_nil _ _⟩
      · cases h
    · cases h
  · rename_i hkind
    rw [if_neg hkind]
    exact ⟨_, rfl, List.cons_ne_nil _ _⟩

/-- No statement of an accepted rule is lost when it is lowered. -/
theorem NoErrors.intentsOf_ne_nil (h : NoErrors catalog config ruleset)
    (hrule : rule ∈ ruleset.rules) {stmt : Stmt} (hstmt : stmt ∈ rule.gatherStatements) :
    intentsOf catalog (piiPaths catalog ruleset) (.forRule rule) rule.name stmt ≠ [] := by
  have hlower := h.lowerStmt hrule hstmt
  have hchecked := h.checkedStmt hrule hstmt
  cases stmt with
  | infer i =>
      obtain ⟨intent, hintent⟩ := Option.isSome_iff_exists.mp (lowerInfer_ne_nil hlower)
      have heq : intentsOf catalog (piiPaths catalog ruleset) (.forRule rule) rule.name (.infer i) =
          ((lowerInfer (piiPaths catalog ruleset) rule.name i).1.map ([·])).getD [] := rfl
      rw [heq, hintent]
      exact List.cons_ne_nil _ _
  | emit e => exact List.cons_ne_nil _ _
  | action a =>
      have hknown : (resolveAction (Ast.actionName a)).isSome := by
        rcases haction : resolveAction (Ast.actionName a) with _ | schema
        · simp only [validateStmtCatalog, haction] at hchecked
          cases hchecked
        · rfl
      obtain ⟨intents, hintents, hne⟩ := lowerAction_ne_nil hknown hlower
      have heq : intentsOf catalog (piiPaths catalog ruleset) (.forRule rule) rule.name (.action a) =
          (lowerAction (.forRule rule) a).1.getD [] := rfl
      rw [heq, hintents]
      exact hne

/-! ### What a truth selects -/

/-- The statements of a rule that a truth of its condition selects. A rule without a
condition runs its unconditional statements, a rule with one runs none of them. -/
def Ast.RuleDecl.selected (rule : RuleDecl) (truth : Option T3) : List Stmt :=
  match rule.ifElse with
  | none => rule.body
  | some ifElse =>
      match truth with
      | some .true => ifElse.thenBody
      | some .false => ifElse.elseBody.getD []
      | some .unknown | none => []

/-- What an undecided condition executes. -/
def Ast.RuleDecl.undecided (rule : RuleDecl) (truth : Option T3) : List Intent :=
  match rule.ifElse, truth with
  | some ifElse, some .unknown => unknownBody ifElse.condition
  | _, _ => []

theorem getD_elseBody (intents : List Intent) :
    (if intents.isEmpty then none else some intents).getD [] = intents := by
  cases intents <;> rfl

/-- A lowered rule selects the intents of the statements that its source selects. -/
theorem selectedIntents_eq {piiPaths : List String}
    (hinst : (lowerRule catalog piiPaths rule).1 = some inst) (truth : Option T3) :
    selectedIntents inst truth =
      (rule.selected truth).flatMap (intentsOf catalog piiPaths (.forRule rule) rule.name) ++
        rule.undecided truth := by
  obtain ⟨specs, -, rfl⟩ := lowerRule_eq hinst
  unfold selectedIntents RuleDecl.selected RuleDecl.undecided
  cases hif : rule.ifElse with
  | none =>
      simp only [Option.map_none, lowerStmts_eq, List.append_nil]
  | some ifElse =>
      simp only [Option.map_some, lowerBranches, lowerStmts_eq]
      rcases truth with _ | (_ | _ | _)
      · rfl
      · exact (List.append_nil _).symm
      · rw [getD_elseBody]
        exact (List.append_nil _).symm
      · rfl

/-! ### What rules infer -/

/-- Every intent of a lowered rule comes from a statement, or asks for a topology. -/
theorem mem_intents {piiPaths : List String}
    (hinst : (lowerRule catalog piiPaths rule).1 = some inst) {intent : Intent}
    (hintent : intent ∈ inst.intents) :
    (∃ stmt ∈ rule.gatherStatements,
      intent ∈ intentsOf catalog piiPaths (.forRule rule) rule.name stmt) ∨
    intent = .emitAction .requestTopology none none none [] := by
  obtain ⟨specs, -, rfl⟩ := lowerRule_eq hinst
  unfold RuleInstance.intents at hintent
  simp only [lowerStmts_eq] at hintent
  obtain hbranch | hbody := List.mem_append.mp hintent
  · cases hif : rule.ifElse with
    | none =>
        rw [hif] at hbranch
        cases hbranch
    | some ifElse =>
        rw [hif] at hbranch
        simp only [Option.map_some, lowerBranches, lowerStmts_eq, getD_elseBody] at hbranch
        have hstatements : rule.branchStatements = ifElse.thenBody ++ ifElse.elseBody.getD [] := by
          unfold RuleDecl.branchStatements
          rw [hif]
        unfold RuleDecl.gatherStatements
        rw [hstatements]
        obtain hstmts | hunknown := List.mem_append.mp hbranch
        · rw [← List.flatMap_append] at hstmts
          obtain ⟨stmt, hstmt, hmem⟩ := List.mem_flatMap.mp hstmts
          exact .inl ⟨stmt, List.mem_append_right _ hstmt, hmem⟩
        · unfold unknownBody at hunknown
          split at hunknown
          · exact .inr (List.mem_singleton.mp hunknown)
          · cases hunknown
  · obtain ⟨stmt, hstmt, hmem⟩ := List.mem_flatMap.mp hbody
    exact .inl ⟨stmt, List.mem_append_left _ hstmt, hmem⟩

/-- What a statement is lowered to. -/
inductive Intent.LoweredFrom (catalog : Catalog) (piiPaths : List String) (ruleId : RuleId) :
    Stmt → Intent → Prop
  | infer (i : Ast.InferStmt) (target : MetricPath) (weight : Weight) :
      LoweredFrom catalog piiPaths ruleId (.infer i) (.inferCause i.cause target weight
        ((i.fields.findSome? Ast.InferField.evidence?).getD [])
        ⟨ruleId, i.cause, stableHashU64 target.asStr⟩
        (evidencePii piiPaths ((i.fields.findSome? Ast.InferField.evidence?).getD [])))
  | emit (e : Ast.EmitStmt) :
      LoweredFrom catalog piiPaths ruleId (.emit e) (lowerEmit catalog piiPaths e)
  | action (a : Ast.ActionStmt) (kind : ActionKind) (arg : Option Symbol)
      (target : Option MetricPath) (reason : Option String) (evidence : List Symbol) :
      LoweredFrom catalog piiPaths ruleId (.action a) (.emitAction kind arg target reason evidence)
  | suppressed (a : Ast.ActionStmt) (problem : ProblemKind) (target : MetricPath) :
      LoweredFrom catalog piiPaths ruleId (.action a) (.supersedeProblem problem target)

theorem mem_intentsOf {piiPaths : List String} {env : RuleEnv} {ruleId : RuleId} {stmt : Stmt}
    {intent : Intent} (h : intent ∈ intentsOf catalog piiPaths env ruleId stmt) :
    intent.LoweredFrom catalog piiPaths ruleId stmt := by
  cases stmt with
  | infer infer =>
      change _ ∈ ((lowerInfer piiPaths ruleId infer).1.map ([·])).getD [] at h
      unfold lowerInfer at h
      split at h
      · cases h
      · dsimp only at h
        split at h
        · cases h
        · split at h
          · cases h
          · cases List.mem_singleton.mp h
            exact .infer infer _ _
  | emit emit =>
      cases List.mem_singleton.mp h
      exact .emit emit
  | action action =>
      change _ ∈ (lowerAction env action).1.getD [] at h
      unfold lowerAction at h
      split at h
      · cases h
      · dsimp only at h
        split at h
        · split at h
          · cases h
          · split at h
            · obtain rfl | hsuppress := List.mem_cons.mp h
              · exact .suppressed action _ _
              · cases List.mem_singleton.mp hsuppress
                exact .action action ..
            · cases h
          · cases h
        · cases List.mem_singleton.mp h
          exact .action action ..

/-- Only an inference is lowered to one. -/
theorem inferCause_intentsOf {piiPaths : List String} {env : RuleEnv} {ruleId : RuleId}
    {stmt : Stmt} {cause : CauseKind} {path : MetricPath} {weight : Weight}
    {evidence : List Symbol} {key : ProvKey} {pii : List MetricPath}
    (h : .inferCause cause path weight evidence key pii ∈
      intentsOf catalog piiPaths env ruleId stmt) :
    (∃ infer, stmt = .infer infer) ∧ key = ⟨ruleId, cause, stableHashU64 path.asStr⟩ := by
  cases mem_intentsOf h with
  | infer i => exact ⟨⟨i, rfl⟩, rfl⟩

/-- Only evidence rules of an accepted image infer, under the identifier of the rule,
the cause and the written target. -/
theorem accepted_infer (h : verifyWithConfig catalog config ruleset = .ok image)
    (hmem : inst ∈ image.rules) {cause : CauseKind} {path : MetricPath} {weight : Weight}
    {evidence : List Symbol} {key : ProvKey} {pii : List MetricPath}
    (hintent : .inferCause cause path weight evidence key pii ∈ inst.intents) :
    inst.kind = .evidence ∧ key = ⟨inst.id, cause, stableHashU64 path.asStr⟩ := by
  obtain ⟨hno, -⟩ := verify_ok h
  obtain ⟨rule, hrule, hinst⟩ := (mem_image_iff h).mp hmem
  obtain ⟨stmt, hstmt, hfrom⟩ | haction := mem_intents hinst hintent
  · obtain ⟨⟨infer, rfl⟩, hkey⟩ := inferCause_intentsOf hfrom
    have hphase := hasErrors_flatMap.mp (hasErrors_flatMap.mp hno.phase10 _ hrule) _ hstmt
    obtain ⟨specs, -, rfl⟩ := lowerRule_eq hinst
    cases rule with
    | evidence decl => exact ⟨rfl, hkey⟩
    | decision decl => cases hphase
  · cases haction

/-! ### What a rule executes -/

/-- The bindings and the truth with which a rule runs. -/
def boundTruth (host : Host) (inst : RuleInstance) (anchor : Bound) (scope : ScopeId)
    (e : Engine) : List Binding × Option T3 :=
  let bound := bindRule host inst anchor scope e
  (bound.1, (branchTruth host bound.2.interner inst bound.1 scope).1)

/-- The engine when the intents of a rule are about to be executed. -/
def decidedRun (host : Host) (inst : RuleInstance) (anchor : Bound) (scope : ScopeId)
    (run : Run) : Run :=
  let bound := bindRule host inst anchor scope run.engine
  ⟨bound.2.report (branchTruth host bound.2.interner inst bound.1 scope).2, run.budget - 1⟩

/-- Running a rule executes the selected intents in order. -/
theorem runWithin_eq (host : Host) (inst : RuleInstance) (anchor : Bound) (scope : ScopeId)
    {run : Run} (hbudget : run.budget ≠ 0) :
    runWithin host inst anchor scope run =
      execIntents host (runRule host (run.budget - 1))
        (selectedIntents inst (boundTruth host inst anchor scope run.engine).2) inst
        (boundTruth host inst anchor scope run.engine).1 anchor scope
        (decidedRun host inst anchor scope run) := by
  unfold runWithin
  obtain ⟨n, hn⟩ := Nat.exists_eq_succ_of_ne_zero hbudget
  rw [hn]
  change (if run.budget = 0 then _ else _) = _
  rw [if_neg hbudget]
  rfl

/-- An accepted rule loses no statement in lowering, and running it executes in
source order what the statements of the selected block are lowered to: the block
that the condition selects, or all statements of a rule without a condition. -/
theorem selected_statements_executed (h : verifyWithConfig catalog config ruleset = .ok image)
    (hrule : rule ∈ ruleset.rules)
    (hinst : (lowerRule catalog (piiPaths catalog ruleset) rule).1 = some inst) (host : Host)
    (anchor : Bound) (scope : ScopeId) (run : Run) (hbudget : run.budget ≠ 0) :
    (∀ stmt ∈ rule.gatherStatements,
      intentsOf catalog (piiPaths catalog ruleset) (.forRule rule) rule.name stmt ≠ []) ∧
    runWithin host inst anchor scope run =
      execIntents host (runRule host (run.budget - 1))
        ((rule.selected (boundTruth host inst anchor scope run.engine).2).flatMap
            (intentsOf catalog (piiPaths catalog ruleset) (.forRule rule) rule.name) ++
          rule.undecided (boundTruth host inst anchor scope run.engine).2) inst
        (boundTruth host inst anchor scope run.engine).1 anchor scope
        (decidedRun host inst anchor scope run) := by
  obtain ⟨hno, -⟩ := verify_ok h
  refine ⟨fun stmt hstmt => hno.intentsOf_ne_nil hrule hstmt, ?_⟩
  rw [runWithin_eq host inst anchor scope hbudget, selectedIntents_eq hinst]

/-- A rule on a burst and a message about the path in a window forward, with a
condition, one inference under it and statements after it. -/
def conditionRule (condition : Expr) (after : List Stmt) : RuleDecl :=
  .evidence {
    name := "ptb"
    scope := .session
    anchor := ⟨"rtx", ["tcp", "retransmission_burst"], none⟩
    correlates := [{
      binding := "ptb"
      source := .event ["icmp", "ptb"]
      topo := ⟨"same_session", [.field (.ident "rtx") "target", .field (.ident "ptb") "target"]⟩
      time := ⟨.field (.ident "ptb") "time",
        .binary .sub (.field (.ident "rtx") "time") (.duration 500), .field (.ident "rtx") "time"⟩
      minMatch := none }]
    ifElse := some ⟨condition,
      [.infer ⟨"PmtudBlackhole", [.target (.field (.ident "rtx") "target"), .weight 40]⟩], none⟩
    body := after }

def conditionRules (condition : Expr) (after : List Stmt) : Ruleset :=
  ⟨"condition", [], [conditionRule condition after]⟩

/-- An inference that follows a condition. -/
def congestion : Stmt :=
  .infer ⟨"Congestion", [.target (.field (.ident "rtx") "target"), .weight 30]⟩

/-- Without a message about the path, the burst executes the one inference under the condition
that there is none, and there is a cause then. -/
theorem selected_statements_executed_ptb :
    ∃ inst, (lowerRule .seed (piiPaths .seed (conditionRules (.absent "ptb") []))
      (conditionRule (.absent "ptb") [])).1 = some inst ∧
      (∀ stmt ∈ (conditionRule (.absent "ptb") []).gatherStatements,
        intentsOf .seed (piiPaths .seed (conditionRules (.absent "ptb") []))
          (.forRule (conditionRule (.absent "ptb") [])) "ptb" stmt ≠ []) ∧
      let host := seedHost (conditionRules (.absent "ptb") [])
      let rtx := Bound.event (burst 1400)
      let run := runWithin host inst rtx ⟨.session, 7⟩ ⟨.new, 1⟩
      run = execIntents host (runRule host 0)
        [.inferCause "PmtudBlackhole" ⟨"rtx.target"⟩ ⟨40, by decide, by decide⟩ []
          ⟨"ptb", "PmtudBlackhole", stableHashU64 "rtx.target"⟩ []] inst
        (boundTruth host inst rtx ⟨.session, 7⟩ .new).1 rtx ⟨.session, 7⟩
        (decidedRun host inst rtx ⟨.session, 7⟩ ⟨.new, 1⟩) ∧
      (run.engine.store.partitionOf ⟨.session, 7⟩).causes.entries.length = 1 := by
  have hverify : verifyWithConfig .seed .default (conditionRules (.absent "ptb") []) =
      .ok (lowerToImage .seed (conditionRules (.absent "ptb") [])).1 :=
    verify_eq_ok (by decide) (by decide)
  have hrule := List.mem_singleton_self (conditionRule (.absent "ptb") [])
  obtain ⟨inst, hinst⟩ := (verify_ok hverify).1.lowered hrule
  have htrue : ∀ inst ∈ (lowerRule .seed (piiPaths .seed (conditionRules (.absent "ptb") []))
      (conditionRule (.absent "ptb") [])).1,
      (boundTruth (seedHost (conditionRules (.absent "ptb") [])) inst (.event (burst 1400))
        ⟨.session, 7⟩ .new).2 = some .true ∧
      ((runWithin (seedHost (conditionRules (.absent "ptb") [])) inst (.event (burst 1400))
        ⟨.session, 7⟩ ⟨.new, 1⟩).engine.store.partitionOf ⟨.session, 7⟩).causes.entries.length
        = 1 := by decide +kernel
  obtain ⟨htrue, hcauses⟩ := htrue inst hinst
  obtain ⟨hlowered, hruns⟩ := selected_statements_executed hverify hrule hinst
    (seedHost (conditionRules (.absent "ptb") [])) (.event (burst 1400)) ⟨.session, 7⟩
    ⟨.new, 1⟩ Nat.one_ne_zero
  refine ⟨inst, hinst, hlowered, ?_, hcauses⟩
  rw [htrue] at hruns
  exact hruns

/-- The statement after the condition is accepted and lowered, and no truth of the
condition executes it. -/
theorem statement_after_condition_lost :
    (verifyWithConfig .seed .default (conditionRules (.present "ptb") [congestion])).isOk = true ∧
    ∃ inst, (lowerRule .seed (piiPaths .seed (conditionRules (.present "ptb") [congestion]))
      (conditionRule (.present "ptb") [congestion])).1 = some inst ∧
      congestion ∈ (conditionRule (.present "ptb") [congestion]).body ∧
      (intentsOf .seed (piiPaths .seed (conditionRules (.present "ptb") [congestion]))
        (.forRule (conditionRule (.present "ptb") [congestion])) "ptb" congestion).length = 1 ∧
      ∀ truth, ∀ intent ∈ intentsOf .seed
          (piiPaths .seed (conditionRules (.present "ptb") [congestion]))
          (.forRule (conditionRule (.present "ptb") [congestion])) "ptb" congestion,
        intent ∉ selectedIntents inst truth := by
  refine ⟨by decide, _, rfl, List.mem_singleton_self _, by decide, ?_⟩
  rintro (_ | _ | _ | _) <;> decide

/-! ### Undecided conditions -/

/-- That a rule with an undecided condition executes the body that the verifier made
for it, and asks for the topology there. -/
def UnknownHandled (host : Host) (inst : RuleInstance) (anchor : Bound) (scope : ScopeId)
    (run : Run) : Prop :=
  ∃ table, inst.branches = some table ∧
    runWithin host inst anchor scope run =
      execIntents host (runRule host (run.budget - 1)) table.unknownBody inst
        (boundTruth host inst anchor scope run.engine).1 anchor scope
        (decidedRun host inst anchor scope run) ∧
    ∃ arg target reason evidence,
      .emitAction .requestTopology arg target reason evidence ∈ table.unknownBody

/-- A rule whose condition is undecided asks for the topology exactly if the
condition has a test of a binding. -/
theorem unknown_handled_iff (h : verifyWithConfig catalog config ruleset = .ok image)
    (hrule : rule ∈ ruleset.rules)
    (hinst : (lowerRule catalog (piiPaths catalog ruleset) rule).1 = some inst)
    {ifElse : IfElseBlock} (hif : rule.ifElse = some ifElse) (host : Host) (anchor : Bound)
    (scope : ScopeId) (run : Run) (hbudget : run.budget ≠ 0)
    (hunknown : (boundTruth host inst anchor scope run.engine).2 = some .unknown) :
    UnknownHandled host inst anchor scope run ↔ ifElse.condition.containsPresentAbsent = true := by
  have hbranches : inst.branches =
      some (lowerBranches catalog (piiPaths catalog ruleset) (.forRule rule) rule.name ifElse).1 := by
    obtain ⟨specs, -, rfl⟩ := lowerRule_eq hinst
    simp only [hif, Option.map_some]
  have hexecuted := (selected_statements_executed h hrule hinst host anchor scope run hbudget).2
  have hnone : rule.selected (some .unknown) = [] := by
    unfold RuleDecl.selected
    rw [hif]
  have hundecided : rule.undecided (some .unknown) = unknownBody ifElse.condition := by
    unfold RuleDecl.undecided
    rw [hif]
  rw [hunknown, hnone, hundecided, List.flatMap_nil, List.nil_append] at hexecuted
  constructor
  · rintro ⟨table, htable, -, arg, target, reason, evidence, hmem⟩
    obtain rfl := Option.some.inj (hbranches.symm.trans htable)
    change _ ∈ unknownBody ifElse.condition at hmem
    unfold unknownBody at hmem
    split at hmem
    · assumption
    · cases hmem
  · intro htest
    refine ⟨_, hbranches, hexecuted, none, none, none, [], ?_⟩
    change _ ∈ unknownBody ifElse.condition
    rw [unknownBody, if_pos htest]
    exact List.mem_singleton_self _

/-- A message about the path, half a second before the burst. -/
def ptbMessage : EventNode := .new 2 "icmp.ptb" ⟨900⟩ ⟨.session, 7⟩ [(2, 1300)]

/-- The run of a rule on the burst, when the message has arrived. -/
def afterMessage (condition : Expr) : Run :=
  ⟨runCalls (seedHost (conditionRules condition [])) [.ingest ptbMessage], 64⟩

/-- `ptb.quoted_mtu < 1400`. -/
def smallMtu : Expr := .binary .lt (.field (.ident "ptb") "quoted_mtu") (.int 1400)

theorem unknown_handled_present :
    ∃ inst, (lowerRule .seed (piiPaths .seed (conditionRules (.present "ptb") []))
      (conditionRule (.present "ptb") [])).1 = some inst ∧
      (UnknownHandled (seedHost (conditionRules (.present "ptb") [])) inst (.event (burst 1400))
        ⟨.session, 7⟩ (afterMessage (.present "ptb")) ↔
          Expr.containsPresentAbsent (.present "ptb") = true) := by
  have hverify : verifyWithConfig .seed .default (conditionRules (.present "ptb") []) =
      .ok (lowerToImage .seed (conditionRules (.present "ptb") [])).1 :=
    verify_eq_ok (by decide) (by decide)
  exact ⟨_, rfl, unknown_handled_iff hverify (List.mem_singleton_self _) rfl rfl _ _ _ _
    (by decide) (by decide)⟩

/-- Where the topology is silent, a comparison with a field of a correlate is
undecided, and nothing is executed or asked for. -/
theorem smallMtu_unknown_silent :
    (verifyWithConfig .seed .default (conditionRules smallMtu [])).isOk = true ∧
    ∃ inst, (lowerRule .seed (piiPaths .seed (conditionRules smallMtu []))
      (conditionRule smallMtu [])).1 = some inst ∧
      (boundTruth (seedHost (conditionRules smallMtu [])) inst (.event (burst 1400)) ⟨.session, 7⟩
        (afterMessage smallMtu).engine).2 = some .unknown ∧
      (runCalls (seedHost (conditionRules smallMtu []))
        [.ingest ptbMessage, .ingest (burst 1400)]).sinkLog = [] ∧
      ¬ UnknownHandled (seedHost (conditionRules smallMtu [])) inst (.event (burst 1400))
        ⟨.session, 7⟩ (afterMessage smallMtu) := by
  refine ⟨by decide, _, rfl, by decide, by decide, ?_⟩
  rintro ⟨table, htable, -, arg, target, reason, evidence, hmem⟩
  obtain rfl := Option.some.inj htable
  cases hmem

end Adgl
