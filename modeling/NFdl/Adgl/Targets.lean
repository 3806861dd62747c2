import NFdl.Adgl.Resumption

/-!
# Targets

The verifier types the target of an inference or an emission by the fields of the
catalog, and the engine resolves it by the name of the field. Where the verifier
knows the type of the scope, the engine finds a scope, and the scope is as the
verifier has checked it.
-/

namespace Adgl

open Ast (Expr RuleDecl Ruleset Stmt)

/-! ### Paths -/

theorem splitDots_of_notMem {cs : List Char} (h : '.' ∉ cs) : splitDots cs = [cs] := by
  induction cs with
  | nil => rfl
  | cons c cs ih =>
      rw [List.mem_cons, not_or] at h
      rw [splitDots, if_neg (Ne.symm h.1), ih h.2]

theorem splitDots_append {cs : List Char} (h : '.' ∉ cs) (ds : List Char) :
    splitDots (cs ++ '.' :: ds) = cs :: splitDots ds := by
  induction cs with
  | nil =>
      rw [List.nil_append, splitDots, if_pos rfl]
  | cons c cs ih =>
      rw [List.mem_cons, not_or] at h
      rw [List.cons_append, splitDots, if_neg (Ne.symm h.1), ih h.2]

/-- An identifier of the lexer has no dot. -/
def IsIdent (name : String) : Prop := '.' ∉ name.toList

/-- A path of a binding and, for most, a field. -/
def pathOf (id : String) : Option String → MetricPath
  | some field => ⟨id ++ "." ++ field⟩
  | none => ⟨id⟩

theorem toList_dotted (id field : String) :
    (id ++ "." ++ field).toList = id.toList ++ '.' :: field.toList := by
  rw [String.toList_append, String.toList_append, List.append_assoc]
  rfl

theorem pathOf_segments {id : String} {tail : Option String} (hid : IsIdent id)
    (htail : ∀ field ∈ tail, IsIdent field) : (pathOf id tail).segments = id :: tail.toList := by
  unfold MetricPath.segments
  cases tail with
  | none =>
      change (splitDots id.toList).map String.ofList = [id]
      rw [splitDots_of_notMem hid, List.map_singleton, String.ofList_toList]
  | some field =>
      change (splitDots (id ++ "." ++ field).toList).map String.ofList = [id, field]
      rw [toList_dotted, splitDots_append hid, splitDots_of_notMem (htail field rfl),
        List.map_cons, List.map_singleton, String.ofList_toList, String.ofList_toList]

theorem lastSegment_of_ident {name : String} (h : IsIdent name) : lastSegment name = name := by
  unfold lastSegment
  rw [splitDots_of_notMem h, List.getLastD_cons, List.getLastD_nil, String.ofList_toList]

theorem lastSegment_dotted {id field : String} (hid : IsIdent id) (hfield : IsIdent field) :
    lastSegment (id ++ "." ++ field) = field := by
  unfold lastSegment
  rw [toList_dotted, splitDots_append hid, splitDots_of_notMem hfield, List.getLastD_cons,
    List.getLastD_cons, List.getLastD_nil, String.ofList_toList]

/-- The binding does not matter for the type of a field. -/
theorem resolveMetricPath_dotted (catalog : Catalog) (ty : BindingTy) {id field : String}
    (hid : IsIdent id) (hfield : IsIdent field) :
    catalog.resolveMetricPath ty (id ++ "." ++ field) = catalog.resolveMetricPath ty field := by
  unfold Catalog.resolveMetricPath
  rw [lastSegment_dotted hid hfield, lastSegment_of_ident hfield]

/-- The binding and the field of a target expression that has a path. -/
def Ast.Expr.targetOf : Expr → Option (String × Option String)
  | .field (.ident id) name => some (id, some name)
  | .ident id => some (id, none)
  | _ => none

theorem metricPathFromExpr_eq (e : Expr) :
    metricPathFromExpr e = e.targetOf.map fun t => pathOf t.1 t.2 := by
  cases e with
  | field base name => cases base <;> rfl
  | _ => rfl

/-! ### Scopes at run time -/

/-- The scope that a bound value carries under a field, if the field is present and
its key was interned. -/
def Bound.carried (catalog : Catalog) (interner : ScopeInterner) (bound : Bound) :
    Option String → Option ScopeId
  | none | some "target" => bound.target interner
  | some field =>
      match bound with
      | .event e => (catalog.resolveMetricPath (.event e.eventType) field).bind fun entry =>
          (e.field entry.1).bind interner.resolve
      | .cause _ | .problem _ => none

/-- Whether the engine takes the field for a scope: the target, and of an event the
scope fields and the routes. -/
def supportedTail (catalog : Catalog) (ty : BindingTy) : Option String → Bool
  | none | some "target" => true
  | some field =>
      match ty with
      | .event t =>
          match catalog.resolveEvent t, catalog.resolveMetricPath (.event t) field with
          | some schema, some (_, fieldTy) =>
              let isScopeField := match fieldTy with
                | .scopeId _ => true
                | _ => false
              schema.routingPaths.any (·.path == field) || isScopeField
          | _, _ => false
      | .cause _ | .problem _ => false

variable {catalog : Catalog} {config : VerifyConfig} {ruleset : Ruleset} {image : ProgramImage}
  {rule : RuleDecl} {inst : RuleInstance} {interner : ScopeInterner} {host : Host}

/-- A carried scope is resolved if its field is supported, and is reported if not. -/
theorem resolveScopePath_eq {id : String} {tail : Option String} (hid : IsIdent id)
    (htail : ∀ field ∈ tail, IsIdent field) {ty : BindingTy} {bound : Bound}
    (hmatch : ty.Matches (.bound bound)) {scope : ScopeId}
    (hcarried : bound.carried host.catalog interner tail = some scope) :
    resolveScopePathFromBound host interner inst (pathOf id tail) id bound =
      if supportedTail host.catalog ty tail then (some scope, [])
      else (none, [.unsupportedTargetTail inst.id (pathOf id tail) id (tail.getD "")]) := by
  unfold resolveScopePathFromBound
  rw [pathOf_segments hid htail]
  unfold Bound.carried at hcarried
  unfold supportedTail
  cases tail with
  | none => exact congrArg (·, []) hcarried
  | some field =>
      by_cases htarget : field = "target"
      · subst htarget
        exact congrArg (·, []) hcarried
      · cases bound with
        | event e =>
            cases ty with
            | event t =>
                obtain rfl : e.eventType = t := hmatch
                simp only [Option.toList_some] at hcarried ⊢
                obtain ⟨⟨idx, fieldTy⟩, hpath, hkey⟩ := Option.bind_eq_some_iff.mp hcarried
                have hschema : ∃ schema, host.catalog.resolveEvent e.eventType = some schema := by
                  unfold Catalog.resolveMetricPath at hpath
                  rcases hevent : host.catalog.resolveEvent e.eventType with _ | schema
                  · simp only [hevent] at hpath
                    cases hpath
                  · exact ⟨schema, rfl⟩
                obtain ⟨schema, hschema⟩ := hschema
                simp only [hschema, hpath, hkey]
                rfl
            | cause | problem => cases hmatch
        | cause c =>
            simp only at hcarried
            cases hcarried
        | problem p =>
            simp only at hcarried
            cases hcarried

/-- The engine resolves a path to nothing but the scope that is carried. -/
theorem carried_of_resolveScopePath {id : String} {tail : Option String} (hid : IsIdent id)
    (htail : ∀ field ∈ tail, IsIdent field) {bound : Bound} {scope : ScopeId}
    (h : (resolveScopePathFromBound host interner inst (pathOf id tail) id bound).1 = some scope) :
    bound.carried host.catalog interner tail = some scope := by
  unfold resolveScopePathFromBound at h
  rw [pathOf_segments hid htail] at h
  unfold Bound.carried
  cases tail with
  | none => exact h
  | some field =>
      by_cases htarget : field = "target"
      · subst htarget
        exact h
      · cases bound with
        | event e =>
            simp only [Option.toList_some] at h ⊢
            cases hevent : host.catalog.resolveEvent e.eventType with
            | none =>
                simp only [hevent] at h
                cases h
            | some schema =>
                cases hpath : host.catalog.resolveMetricPath (.event e.eventType) field with
                | none =>
                    simp only [hevent, hpath] at h
                    cases h
                | some entry =>
                    obtain ⟨idx, ty⟩ := entry
                    simp only [hevent, hpath] at h
                    -- The type of the field is looked at first, then whether it is supported.
                    split at h <;> split at h
                    · exact h
                    · cases h
                    · exact h
                    · cases h
        | cause c =>
            simp only [Option.toList_some] at h
            cases h
        | problem p =>
            simp only [Option.toList_some] at h
            cases h

theorem resolveTarget_eq {id : String} {tail : Option String} (hid : IsIdent id)
    (htail : ∀ field ∈ tail, IsIdent field) {bindings : List Binding} {idx : Nat}
    (hidx : bindingIndexOf inst id = some idx) {bound : Bound}
    (hbound : bindings[idx]? = some (.bound bound)) :
    resolveTarget host interner inst (pathOf id tail) bindings =
      resolveScopePathFromBound host interner inst (pathOf id tail) id bound := by
  unfold resolveTarget
  simp only [pathOf_segments hid htail, List.head?_cons, hidx, Option.bind_some, hbound,
    Binding.bound?]

/-! ### Scopes in the verifier -/

/-- The target expression that is lowered: the first one with a path. -/
def Ast.Stmt.loweredTarget (stmt : Stmt) : Option Expr :=
  stmt.targets.find? fun e => e.targetOf.isSome

/-- The scopes for which the catalog lists the conclusion of a statement. -/
def Ast.Stmt.validScopes (catalog : Catalog) : Stmt → Option (List ScopeType)
  | .infer i => (catalog.resolveCause i.cause).map CauseSchema.validScopes
  | .emit e => (catalog.resolveProblem e.problem).map ProblemSchema.validScopes
  | .action _ => none

theorem findSome?_metricPath (targets : List Expr) : targets.findSome? metricPathFromExpr =
    (targets.find? fun e => e.targetOf.isSome).bind metricPathFromExpr := by
  induction targets with
  | nil => rfl
  | cons e targets ih =>
      rw [List.findSome?_cons, List.find?_cons]
      rcases hparts : e.targetOf with _ | parts
      · have hnone : metricPathFromExpr e = none := by rw [metricPathFromExpr_eq, hparts]; rfl
        rw [hnone, ih]
        rfl
      · have hsome : metricPathFromExpr e = some (pathOf parts.1 parts.2) := by
          rw [metricPathFromExpr_eq, hparts]
          rfl
        rw [hsome]
        exact hsome.symm

/-- The scope type of a target is known for the scope fields of events, and for the
target of a cause or a problem with one valid scope. -/
theorem inferTargetScope_cases {env : RuleEnv} {e : Expr} {scope : ScopeType}
    (h : inferTargetScopeExpr catalog env e = some scope) :
    ∃ id field ty, e.targetOf = some (id, some field) ∧ env.bindings.lookup id = some ty ∧
      (field = "target" ∨ ∃ t idx, ty = .event t ∧
        catalog.resolveMetricPath (.event t) (id ++ "." ++ field) = some (idx, .scopeId scope)) := by
  unfold inferTargetScopeExpr at h
  split at h
  · rename_i id field
    rcases hlookup : env.bindings.lookup id with _ | ty
    · simp only [hlookup] at h
      cases h
    · refine ⟨id, field, ty, rfl, hlookup, ?_⟩
      simp only [hlookup] at h
      cases ty with
      | event t =>
          rcases hpath : catalog.resolveMetricPath (.event t) (id ++ "." ++ field) with
            _ | ⟨idx, fieldTy⟩
          · simp only [hpath] at h
            cases h
          · simp only [hpath] at h
            cases fieldTy with
            | scopeId σ =>
                obtain rfl := Option.some.inj h
                exact .inr ⟨t, idx, rfl, hpath⟩
            | _ => cases h
      | cause kind =>
          refine .inl ?_
          by_contra hfield
          simp only [if_neg hfield] at h
          cases h
      | problem kind =>
          refine .inl ?_
          by_contra hfield
          simp only [if_neg hfield] at h
          cases h
  · cases h

theorem targetOf_isSome_of_inferTargetScope {env : RuleEnv} {e : Expr} {scope : ScopeType}
    (h : inferTargetScopeExpr catalog env e = some scope) : e.targetOf.isSome := by
  obtain ⟨id, field, -, hparts, -⟩ := inferTargetScope_cases h
  rw [hparts]
  rfl

/-- A known scope type is one of a supported field. -/
theorem supportedTail_of_inferTargetScope {env : RuleEnv} {e : Expr} {scope : ScopeType}
    (h : inferTargetScopeExpr catalog env e = some scope) {id : String} {tail : Option String}
    (hparts : e.targetOf = some (id, tail)) (hid : IsIdent id)
    (htail : ∀ field ∈ tail, IsIdent field) {ty : BindingTy}
    (hty : env.bindings.lookup id = some ty) : supportedTail catalog ty tail = true := by
  obtain ⟨id', field, ty', hparts', hlookup, hcases⟩ := inferTargetScope_cases h
  obtain ⟨rfl, rfl⟩ := Prod.mk.inj (Option.some.inj (hparts.symm.trans hparts'))
  obtain rfl := Option.some.inj (hty.symm.trans hlookup)
  obtain rfl | ⟨t, idx, rfl, hpath⟩ := hcases
  · rfl
  · rw [resolveMetricPath_dotted _ _ hid (htail field rfl)] at hpath
    have hschema : ∃ schema, catalog.resolveEvent t = some schema := by
      unfold Catalog.resolveMetricPath at hpath
      rcases hevent : catalog.resolveEvent t with _ | schema
      · simp only [hevent] at hpath
        cases hpath
      · exact ⟨schema, rfl⟩
    obtain ⟨schema, hschema⟩ := hschema
    unfold supportedTail
    split
    · rfl
    · rfl
    · rename_i heq
      obtain rfl := Option.some.inj heq
      simp only [hschema, hpath, Bool.or_true]

/-- The verifier types a statement by its lowered target, where it knows its type. -/
theorem findSome?_inferTargetScope {env : RuleEnv} {targets : List Expr} {e : Expr}
    (he : targets.find? (fun e => e.targetOf.isSome) = some e) {scope : ScopeType}
    (hscope : inferTargetScopeExpr catalog env e = some scope) :
    targets.findSome? (inferTargetScopeExpr catalog env) = some scope := by
  induction targets with
  | nil => cases he
  | cons e' targets ih =>
      rw [List.findSome?_cons]
      rw [List.find?_cons] at he
      rcases hparts : e'.targetOf.isSome with _ | _
      · rw [hparts] at he
        rcases hinfer : inferTargetScopeExpr catalog env e' with _ | σ
        · exact ih he
        · rw [targetOf_isSome_of_inferTargetScope hinfer] at hparts
          cases hparts
      · rw [hparts] at he
        obtain rfl := Option.some.inj he
        rw [hscope]

theorem forRule_ruleScope (rule : RuleDecl) : (RuleEnv.forRule rule).ruleScope = rule.scope := by
  have hfoldl : ∀ (entries : List (Ast.CorrelateBlock × Nat)) (env : RuleEnv),
      (entries.foldl (fun env entry => env.push entry.1.binding (correlateBindingTy entry.1)
        (UInt8.ofNat (entry.2 + 1))) env).ruleScope = env.ruleScope := by
    intro entries
    induction entries with
    | nil => exact fun _ => rfl
    | cons entry entries ih => exact fun env => ih _
  exact hfoldl _ _

/-- The checks of the scope phase on a statement with a target of a known type. -/
theorem NoErrors.targetScope (h : NoErrors catalog config ruleset) (hrule : rule ∈ ruleset.rules)
    {stmt : Stmt} (hstmt : stmt ∈ rule.gatherStatements) {scopes : List ScopeType}
    (hscopes : stmt.validScopes catalog = some scopes) {e : Expr}
    (he : stmt.loweredTarget = some e) {scope : ScopeType}
    (hscope : inferTargetScopeExpr catalog (.forRule rule) e = some scope) :
    rule.scope.isSubsumedBy scope = true ∧ scope ∈ scopes := by
  have hcheck := hasErrors_flatMap.mp (hasErrors_flatMap.mp h.phase05 _ hrule) _ hstmt
  have henv := forRule_ruleScope rule
  have htyped := findSome?_inferTargetScope he hscope
  cases stmt with
  | infer i =>
      obtain ⟨schema, hschema, rfl⟩ := Option.map_eq_some_iff.mp hscopes
      simp only [checkTargetScope, hschema, hasErrors_append, hasErrors_check,
        Bool.or_eq_false_iff, Bool.not_eq_false'] at hcheck
      change (i.fields.filterMap Ast.InferField.target?).findSome? _ = _ at htyped
      rw [htyped, Option.getD_some, henv] at hcheck
      exact ⟨hcheck.1, List.contains_iff_mem.mp hcheck.2⟩
  | emit e =>
      obtain ⟨schema, hschema, rfl⟩ := Option.map_eq_some_iff.mp hscopes
      simp only [checkTargetScope, hschema, hasErrors_append, hasErrors_check,
        Bool.or_eq_false_iff, Bool.not_eq_false'] at hcheck
      change (e.fields.filterMap Ast.EmitField.target?).findSome? _ = _ at htyped
      rw [htyped, Option.getD_some, henv] at hcheck
      exact ⟨hcheck.1, List.contains_iff_mem.mp hcheck.2⟩
  | action a => cases hscopes

/-- In an accepted rule, a target that is bound as declared and carries a scope is
resolved to this scope if its field is a target, a scope field or a route, and is
reported otherwise. Where the verifier knows the type of the target, the field is
one of these, and a scope of this type fits the rule and the conclusion. -/
theorem accepted_target_resolves (h : verifyWithConfig catalog config ruleset = .ok image)
    (hrule : rule ∈ ruleset.rules) {stmt : Stmt} (hstmt : stmt ∈ rule.gatherStatements)
    {scopes : List ScopeType} (hscopes : stmt.validScopes catalog = some scopes)
    {e : Expr} (he : stmt.loweredTarget = some e) {id : String} {tail : Option String}
    (hparts : e.targetOf = some (id, tail)) (hid : IsIdent id)
    (htail : ∀ field ∈ tail, IsIdent field) {ty : BindingTy}
    (hty : (RuleEnv.forRule rule).bindings.lookup id = some ty)
    (hinst : (lowerRule catalog (piiPaths catalog ruleset) rule).1 = some inst)
    (host : Host) (hcatalog : host.catalog = catalog) (interner : ScopeInterner)
    (bindings : List Binding) {idx : Nat} (hidx : bindingIndexOf inst id = some idx)
    {bound : Bound} (hbound : bindings[idx]? = some (.bound bound))
    (hmatch : ty.Matches (.bound bound)) {scope : ScopeId} (hcarried : bound.carried catalog interner tail = some scope) :
    stmt.targets.findSome? metricPathFromExpr = some (pathOf id tail) ∧
    resolveTarget host interner inst (pathOf id tail) bindings =
      (if supportedTail catalog ty tail then (some scope, [])
      else (none, [.unsupportedTargetTail rule.name (pathOf id tail) id (tail.getD "")])) ∧
    ∀ σ, inferTargetScopeExpr catalog (.forRule rule) e = some σ →
      supportedTail catalog ty tail = true ∧
      (scope.scopeType = σ → rule.scope.isSubsumedBy scope.scopeType = true ∧
        scope.scopeType ∈ scopes) := by
  subst hcatalog
  obtain ⟨hno, -⟩ := verify_ok h
  have hname : inst.id = rule.name := by
    obtain ⟨specs, -, rfl⟩ := lowerRule_eq hinst
    rfl
  refine ⟨?_, ?_, fun σ hσ => ⟨?_, ?_⟩⟩
  · rw [findSome?_metricPath]
    change stmt.loweredTarget.bind _ = _
    rw [he, Option.bind_some, metricPathFromExpr_eq, hparts]
    rfl
  · rw [resolveTarget_eq hid htail hidx hbound, resolveScopePath_eq hid htail hmatch hcarried,
      hname]
  · exact supportedTail_of_inferTargetScope hσ hparts hid htail hty
  · rintro rfl
    exact hno.targetScope hrule hstmt hscopes he hσ

/-- A rule that infers congestion for a field of a burst. -/
def targetRule (field : String) : RuleDecl :=
  .evidence {
    name := "burst"
    scope := .session
    anchor := ⟨"rtx", ["tcp", "retransmission_burst"], none⟩
    correlates := []
    ifElse := none
    body := [.infer ⟨"Congestion", [.target (.field (.ident "rtx") field), .weight 10]⟩] }

def targetRules (field : String) : Ruleset := ⟨"targets", [], [targetRule field]⟩

/-- A burst on a path through a virtual network. -/
def routedBurst : EventNode :=
  .new 1 "tcp.retransmission_burst" ⟨1000⟩ ⟨.session, 7⟩
    [(0, 1400), (4, scopeKeyI64 ⟨.vlan, 3⟩)]

theorem accepted_target_resolves_session :
    ∃ inst, (lowerRule .seed (piiPaths .seed (targetRules "target")) (targetRule "target")).1 =
        some inst ∧
      resolveTarget (seedHost (targetRules "target")) ∅ inst (pathOf "rtx" (some "target"))
        [.bound (.event routedBurst)] = (some ⟨.session, 7⟩, []) ∧
      ScopeType.session.isSubsumedBy .session = true ∧ ScopeType.session ∈ [ScopeType.session] := by
  have hverify : verifyWithConfig .seed .default (targetRules "target") =
      .ok (lowerToImage .seed (targetRules "target")).1 := verify_eq_ok (by decide) (by decide)
  have htail : ∀ field ∈ some "target", IsIdent field := by
    rintro _ ⟨⟩
    unfold IsIdent
    decide
  have hresolves := accepted_target_resolves hverify (List.mem_singleton_self (targetRule "target"))
    (List.mem_singleton_self _) rfl rfl rfl (by unfold IsIdent; decide) htail rfl rfl
    (seedHost (targetRules "target")) rfl ∅ [.bound (.event routedBurst)] rfl rfl rfl rfl
  obtain ⟨-, hresolved, htyped⟩ := hresolves
  exact ⟨_, rfl, hresolved, (htyped .session rfl).2 rfl⟩

/-- A number is accepted as a target and reported when it is resolved. A list of
scopes is accepted by the scope of the rule, and a scope of another type, for which
the cause is not valid, is resolved. -/
theorem accepted_target_unsupported :
    (verifyWithConfig .seed .default (targetRules "segment_size")).isOk = true ∧
    (verifyWithConfig .seed .default (targetRules "path")).isOk = true ∧
    (∃ inst, (lowerRule .seed (piiPaths .seed (targetRules "segment_size"))
        (targetRule "segment_size")).1 = some inst ∧
      resolveTarget (seedHost (targetRules "segment_size")) ∅ inst ⟨"rtx.segment_size"⟩
        [.bound (.event routedBurst)] =
          (none, [.unsupportedTargetTail "burst" ⟨"rtx.segment_size"⟩ "rtx" "segment_size"])) ∧
    ∃ inst, (lowerRule .seed (piiPaths .seed (targetRules "path")) (targetRule "path")).1 =
        some inst ∧
      resolveTarget (seedHost (targetRules "path")) (ScopeInterner.intern ∅ ⟨.vlan, 3⟩) inst
        ⟨"rtx.path"⟩ [.bound (.event routedBurst)] = (some ⟨.vlan, 3⟩, []) ∧
      (Catalog.seed.resolveCause "Congestion").map CauseSchema.validScopes = some [.session] :=
  ⟨by decide, by decide, ⟨_, rfl, by decide⟩, _, rfl, by decide, rfl⟩

end Adgl
