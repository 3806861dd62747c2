import NFdl.Adgl.Names
import NFdl.Adgl.Statements
import NFdl.Adgl.Targets
import Mathlib.Data.List.Dedup

/-!
# Personal fields of evidence

The verifier collects the personal fields of the bindings of all rules under the names of
the bindings, and lowering looks the evidence of a rule up in that one collection. What a
rule is annotated with depends on its own bindings alone as long as no other rule gives
one of the names to an event with other personal fields.
-/

namespace Adgl

open Ast (RuleDecl Ruleset Stmt InferField EmitField CorrelateBlock)

variable {catalog : Catalog} {config : VerifyConfig} {ruleset : Ruleset} {image : ProgramImage}
  {rule : RuleDecl} {inst : RuleInstance}

/-! ### Declarations -/

/-- What a rule declares, the anchor first. -/
def Ast.RuleDecl.declarations (rule : RuleDecl) : List (String × BindingTy) :=
  (rule.anchorBinding, rule.anchorTy) ::
    rule.correlates.map fun c => (c.binding, correlateBindingTy c)

/-- A declaration of the name hides what is declared before it. -/
def hideDeclared (name : String) (found : Option BindingTy) (d : String × BindingTy) :
    Option BindingTy :=
  if d.1 = name then some d.2 else found

/-- The type of the last declaration of a name. -/
def Ast.RuleDecl.lastDeclared (rule : RuleDecl) (name : String) : Option BindingTy :=
  rule.declarations.foldl (hideDeclared name) none

/-- The names of the personal fields of what is bound. -/
def Catalog.piiFields (catalog : Catalog) : BindingTy → List String
  | .event event => (catalog.resolveEvent event).elim [] fun schema =>
      (schema.fields.filter FieldSchema.pii).map FieldSchema.name
  | _ => []

theorem lookup_push {env : RuleEnv} {name declared : String} {ty : BindingTy} {idx : BindingIdx} :
    (env.push declared ty idx).bindings.lookup name =
      if declared = name then some ty else env.bindings.lookup name := by
  unfold RuleEnv.push
  split
  · rename_i hname
    rw [hname, AList.lookup_insert]
  · rename_i hname
    rw [AList.lookup_insert_ne (Ne.symm hname)]

theorem lookup_foldl_push {name : String} (cs : List CorrelateBlock) (n : Nat) (env : RuleEnv) :
    ((cs.zipIdx n).foldl (fun env entry => env.push entry.1.binding (correlateBindingTy entry.1)
      (UInt8.ofNat (entry.2 + 1))) env).bindings.lookup name =
      (cs.map fun c => (c.binding, correlateBindingTy c)).foldl (hideDeclared name)
        (env.bindings.lookup name) := by
  induction cs generalizing n env with
  | nil => rfl
  | cons c cs ih =>
      rw [List.zipIdx_cons, List.foldl_cons, ih, lookup_push, List.map_cons, List.foldl_cons]
      rfl

/-- The environment of the verifier keeps the last declaration. -/
theorem lookup_forRule {name : String} :
    (RuleEnv.forRule rule).bindings.lookup name = rule.lastDeclared name := by
  unfold RuleEnv.forRule
  rw [lookup_foldl_push, lookup_push, AList.lookup_empty]
  rfl

theorem mem_declarations_of_lastDeclared {name : String} {ty : BindingTy}
    (h : rule.lastDeclared name = some ty) : (name, ty) ∈ rule.declarations := by
  unfold RuleDecl.lastDeclared at h
  suffices hall : ∀ (ds : List (String × BindingTy)) (found : Option BindingTy),
      ds.foldl (hideDeclared name) found = some ty →
        found = some ty ∨ (name, ty) ∈ ds from (hall _ none h).resolve_left nofun
  intro ds
  induction ds with
  | nil => exact fun _ h => .inl h
  | cons d ds ih =>
      intro found h
      obtain hfound | hmem := ih _ h
      · unfold hideDeclared at hfound
        split at hfound
        · rename_i hname
          cases hfound
          exact .inr (hname ▸ List.mem_cons_self)
        · exact .inl hfound
      · exact .inr (List.mem_cons_of_mem _ hmem)

theorem fst_mem_bindingNames {d : String × BindingTy} (h : d ∈ rule.declarations) :
    d.1 ∈ rule.bindingNames := by
  obtain rfl | h := List.mem_cons.mp h
  · exact List.mem_cons_self
  · obtain ⟨c, hc, rfl⟩ := List.mem_map.mp h
    exact List.mem_cons_of_mem _ (List.mem_map_of_mem hc)

/-! ### Paths -/

theorem dotted_inj {name name' field field' : String} (h : IsIdent name) (h' : IsIdent name')
    (heq : name ++ "." ++ field = name' ++ "." ++ field') : name = name' ∧ field = field' := by
  have hlist : name.toList ++ '.' :: field.toList = name'.toList ++ '.' :: field'.toList := by
    rw [← toList_dotted, ← toList_dotted, heq]
  have hsplit := congrArg splitDots hlist
  rw [splitDots_append h, splitDots_append h'] at hsplit
  have hname := String.toList_injective (List.cons.inj hsplit).1
  subst hname
  exact ⟨rfl, String.toList_injective (List.cons.inj (List.append_cancel_left hlist)).2⟩

/-- A path begins with a name and a dot exactly if the name is that of its binding. -/
theorem isPrefixOf_dotted {sym name field : String} (hsym : IsIdent sym) (hname : IsIdent name) :
    (sym ++ ".").toList.isPrefixOf (name ++ "." ++ field).toList = true ↔ sym = name := by
  rw [List.isPrefixOf_iff_prefix]
  constructor
  · rintro ⟨rest, hrest⟩
    have hpath : sym ++ "." ++ String.ofList rest = name ++ "." ++ field := by
      refine String.toList_injective ?_
      rw [← hrest, String.toList_append, String.toList_ofList]
    exact (dotted_inj hsym hname hpath).1
  · rintro rfl
    exact ⟨field.toList, (String.toList_append ..).symm⟩

theorem piiPaths_eq : piiPaths catalog ruleset = ruleset.rules.flatMap fun rule =>
    (RuleEnv.forRule rule).bindings.entries.flatMap fun entry =>
      (catalog.piiFields entry.2).map fun field => entry.1 ++ "." ++ field := by
  unfold piiPaths phase12PrivacyAnnotations
  refine congrArg (ruleset.rules.flatMap ·) (funext fun rule => ?_)
  refine congrArg ((RuleEnv.forRule rule).bindings.entries.flatMap ·) (funext fun entry => ?_)
  obtain ⟨name, ty⟩ := entry
  cases ty with
  | event event =>
      dsimp only [Catalog.piiFields]
      cases catalog.resolveEvent event with
      | none => rfl
      | some schema => exact (List.map_map ..).symm
  | cause cause => rfl
  | problem problem => rfl

/-- The verifier collects the personal fields of what the names stand for in the rules. -/
theorem mem_piiPaths {path : String} : path ∈ piiPaths catalog ruleset ↔
    ∃ rule ∈ ruleset.rules, ∃ name ty, rule.lastDeclared name = some ty ∧
      ∃ field ∈ catalog.piiFields ty, path = name ++ "." ++ field := by
  rw [piiPaths_eq, List.mem_flatMap]
  refine exists_congr fun rule => and_congr_right fun _ => ?_
  rw [List.mem_flatMap]
  constructor
  · rintro ⟨⟨name, ty⟩, hentry, hpath⟩
    obtain ⟨field, hfield, rfl⟩ := List.mem_map.mp hpath
    rw [← AList.mem_lookup_iff, lookup_forRule] at hentry
    exact ⟨name, ty, hentry, field, hfield, rfl⟩
  · rintro ⟨name, ty, hlast, field, hfield, rfl⟩
    rw [← lookup_forRule] at hlast
    exact ⟨⟨name, ty⟩, AList.mem_lookup_iff.mp hlast, List.mem_map_of_mem hfield⟩

theorem mem_evidencePii {paths evidence : List String} {path : MetricPath} :
    path ∈ evidencePii paths evidence ↔
      path.asStr ∈ paths ∧
        ∃ sym ∈ evidence, (sym ++ ".").toList.isPrefixOf path.asStr.toList = true := by
  unfold evidencePii
  rw [List.mem_map]
  constructor
  · rintro ⟨text, htext, rfl⟩
    rw [List.mem_insertionSort, List.mem_dedup, List.mem_filter, List.any_eq_true] at htext
    exact htext
  · intro h
    refine ⟨path.asStr, ?_, rfl⟩
    rw [List.mem_insertionSort, List.mem_dedup, List.mem_filter, List.any_eq_true]
    exact h

theorem nodup_evidencePii (paths evidence : List String) : (evidencePii paths evidence).Nodup := by
  unfold evidencePii
  refine List.Nodup.map (fun a b h => congrArg MetricPath.asStr h) ?_
  exact (List.perm_insertionSort _ _).nodup_iff.mpr (List.nodup_dedup _)

/-! ### Statements and intents -/

/-- The evidence that is annotated: the first list of an inference or an emission. -/
def Ast.Stmt.evidence : Stmt → List String
  | .infer i => (i.fields.findSome? InferField.evidence?).getD []
  | .emit e => (e.fields.findSome? EmitField.evidence?).getD []
  | .action _ => []

/-- The evidence of an inference or an emission, with the personal paths. -/
def Intent.annotated : Intent → Option (List Symbol × List MetricPath)
  | .inferCause _ _ _ evidence _ pii => some (evidence, pii)
  | .emitProblem _ _ _ evidence _ pii => some (evidence, pii)
  | _ => none

theorem evidence_subset (stmt : Stmt) : stmt.evidence ⊆ stmt.evidenceNames := by
  have hfirst : ∀ {α : Type} (f : α → Option (List String)) (fields : List α),
      (fields.findSome? f).getD [] ⊆ fields.flatMap fun field => (f field).getD [] := by
    intro α f fields name hname
    cases hfind : fields.findSome? f with
    | none =>
        rw [hfind] at hname
        cases hname
    | some ids =>
        obtain ⟨field, hfield, hids⟩ := List.exists_of_findSome?_eq_some hfind
        rw [hfind] at hname
        refine List.mem_flatMap.mpr ⟨field, hfield, ?_⟩
        rw [hids]
        exact hname
  cases stmt with
  | infer i => exact hfirst InferField.evidence? i.fields
  | emit e => exact hfirst EmitField.evidence? e.fields
  | action a => exact List.nil_subset _

section Lowered

variable {paths : List String} {env : RuleEnv} {ruleId : RuleId} {stmt : Stmt} {intent : Intent}

/-- An intent is annotated with the evidence of its statement, unless it is an action. -/
theorem annotated_intentsOf (hmem : intent ∈ intentsOf catalog paths env ruleId stmt) :
    (∃ a, stmt = .action a) ∧ intent.annotated = none ∨
      intent.annotated = some (stmt.evidence, evidencePii paths stmt.evidence) := by
  cases mem_intentsOf hmem with
  | infer | emit => exact .inr rfl
  | action a | suppressed a => exact .inl ⟨⟨a, rfl⟩, rfl⟩

/-- A statement of an accepted rule that lists evidence becomes an annotated intent. -/
theorem NoErrors.exists_annotated (h : NoErrors catalog config ruleset)
    (hrule : rule ∈ ruleset.rules) (hstmt : stmt ∈ rule.gatherStatements)
    (hne : stmt.evidence ≠ []) :
    ∃ intent ∈ intentsOf catalog (piiPaths catalog ruleset) (.forRule rule) rule.name stmt,
      intent.annotated =
        some (stmt.evidence, evidencePii (piiPaths catalog ruleset) stmt.evidence) := by
  obtain ⟨intent, hintent⟩ := List.exists_mem_of_ne_nil _ (h.intentsOf_ne_nil hrule hstmt)
  obtain ⟨⟨a, rfl⟩, -⟩ | hannotated := annotated_intentsOf hintent
  · exact absurd rfl hne
  · exact ⟨intent, hintent, hannotated⟩

/-- The intents of all statements of a rule are intents of the rule. -/
theorem intentsOf_subset (hinst : (lowerRule catalog paths rule).1 = some inst)
    (hstmt : stmt ∈ rule.gatherStatements) :
    intentsOf catalog paths (.forRule rule) rule.name stmt ⊆ inst.intents := by
  obtain ⟨specs, -, rfl⟩ := lowerRule_eq hinst
  intro intent hintent
  unfold RuleInstance.intents
  simp only [lowerStmts_eq]
  obtain hbody | hbranch := List.mem_append.mp hstmt
  · exact List.mem_append_right _ (List.mem_flatMap.mpr ⟨stmt, hbody, hintent⟩)
  · refine List.mem_append_left _ ?_
    unfold RuleDecl.branchStatements at hbranch
    cases hif : rule.ifElse with
    | none =>
        rw [hif] at hbranch
        cases hbranch
    | some ifElse =>
        rw [hif] at hbranch
        simp only [Option.map_some, lowerBranches, lowerStmts_eq, getD_elseBody]
        rw [← List.flatMap_append]
        exact List.mem_append_left _ (List.mem_flatMap.mpr ⟨stmt, hbranch, hintent⟩)

end Lowered

/-! ### Exact annotations -/

/-- A path is that of a personal field of an event that the rule itself declares under one of
the names. -/
def Ast.RuleDecl.IsPersonal (catalog : Catalog) (rule : RuleDecl) (evidence : List String)
    (path : MetricPath) : Prop :=
  ∃ name ∈ evidence, ∃ ty, (name, ty) ∈ rule.declarations ∧
    ∃ field ∈ catalog.piiFields ty, path = ⟨name ++ "." ++ field⟩

/-- An intent of a rule lists the personal fields of its evidence, each one once. -/
def Intent.AnnotatedExactly (catalog : Catalog) (rule : RuleDecl) (intent : Intent) : Prop :=
  ∀ evidence pii, intent.annotated = some (evidence, pii) →
    pii.Nodup ∧ ∀ path, path ∈ pii ↔ rule.IsPersonal catalog evidence path

/-- What the rules take a name for is what one of them declares under it, as far as personal
fields matter. -/
structure Ast.Ruleset.KeepsApart (catalog : Catalog) (ruleset : Ruleset) (rule : RuleDecl)
    (name : String) : Prop where
  /-- No rule gives the name to an event with other personal fields. -/
  foreign : ∀ other ∈ ruleset.rules, ∀ ty, other.lastDeclared name = some ty →
    ∀ field ∈ catalog.piiFields ty,
      ∃ own, (name, own) ∈ rule.declarations ∧ field ∈ catalog.piiFields own
  /-- No personal field of an event is hidden by a later declaration of the name. -/
  hidden : ∀ own, (name, own) ∈ rule.declarations → ∀ field ∈ catalog.piiFields own,
    ∃ other ∈ ruleset.rules, ∃ ty, other.lastDeclared name = some ty ∧
      field ∈ catalog.piiFields ty

section Exact

variable (hident : ∀ rule ∈ ruleset.rules, ∀ name ∈ rule.bindingNames, IsIdent name)
include hident

/-- Lowering finds the personal fields under a listed name in all rules. -/
theorem mem_evidencePii_piiPaths (hrule : rule ∈ ruleset.rules) {evidence : List String}
    (hevidence : evidence ⊆ rule.bindingNames) {path : MetricPath} :
    path ∈ evidencePii (piiPaths catalog ruleset) evidence ↔
      ∃ name ∈ evidence, ∃ other ∈ ruleset.rules, ∃ ty, other.lastDeclared name = some ty ∧
        ∃ field ∈ catalog.piiFields ty, path = ⟨name ++ "." ++ field⟩ := by
  rw [mem_evidencePii, mem_piiPaths]
  constructor
  · rintro ⟨⟨other, hother, name, ty, hlast, field, hfield, hpath⟩, sym, hsym, hprefix⟩
    have hname := hident other hother _
      (fst_mem_bindingNames (mem_declarations_of_lastDeclared hlast))
    rw [hpath, isPrefixOf_dotted (hident rule hrule sym (hevidence hsym)) hname] at hprefix
    subst hprefix
    exact ⟨sym, hsym, other, hother, ty, hlast, field, hfield, congrArg MetricPath.mk hpath⟩
  · rintro ⟨name, hname, other, hother, ty, hlast, field, hfield, rfl⟩
    have hid := hident rule hrule name (hevidence hname)
    exact ⟨⟨other, hother, name, ty, hlast, field, hfield, rfl⟩, name, hname,
      (isPrefixOf_dotted hid hid).mpr rfl⟩

/-- The paths found under the listed names are those of the rule itself exactly if each of the
names is kept apart. -/
theorem evidencePii_exact_iff (hrule : rule ∈ ruleset.rules) {evidence : List String}
    (hevidence : evidence ⊆ rule.bindingNames) :
    (∀ path, path ∈ evidencePii (piiPaths catalog ruleset) evidence ↔
        rule.IsPersonal catalog evidence path) ↔
      ∀ name ∈ evidence, ruleset.KeepsApart catalog rule name := by
  have hid : ∀ name ∈ evidence, IsIdent name :=
    fun name hname => hident rule hrule name (hevidence hname)
  simp only [mem_evidencePii_piiPaths hident hrule hevidence]
  constructor
  · intro h name hname
    constructor
    · intro other hother ty hlast field hfield
      obtain ⟨name', hname', own, hown, field', hfield', hpath⟩ :=
        (h ⟨name ++ "." ++ field⟩).mp ⟨name, hname, other, hother, ty, hlast, field, hfield, rfl⟩
      obtain ⟨rfl, rfl⟩ := dotted_inj (hid name hname) (hid name' hname')
        (congrArg MetricPath.asStr hpath)
      exact ⟨own, hown, hfield'⟩
    · intro own hown field hfield
      obtain ⟨name', hname', other, hother, ty, hlast, field', hfield', hpath⟩ :=
        (h ⟨name ++ "." ++ field⟩).mpr ⟨name, hname, own, hown, field, hfield, rfl⟩
      obtain ⟨rfl, rfl⟩ := dotted_inj (hid name hname) (hid name' hname')
        (congrArg MetricPath.asStr hpath)
      exact ⟨other, hother, ty, hlast, hfield'⟩
  · intro h path
    constructor
    · rintro ⟨name, hname, other, hother, ty, hlast, field, hfield, rfl⟩
      obtain ⟨own, hown, hfield'⟩ := (h name hname).foreign other hother ty hlast field hfield
      exact ⟨name, hname, own, hown, field, hfield', rfl⟩
    · rintro ⟨name, hname, own, hown, field, hfield, rfl⟩
      obtain ⟨other, hother, ty, hlast, hfield'⟩ := (h name hname).hidden own hown field hfield
      exact ⟨name, hname, other, hother, ty, hlast, field, hfield', rfl⟩

end Exact

/-- A property of pairs that depends on the first components is one of the first list. -/
theorem forall₂_iff_forall_mem {α β : Type} {R P : α → β → Prop} {Q : α → Prop} {as : List α}
    {bs : List β} (h : List.Forall₂ R as bs) (hiff : ∀ a ∈ as, ∀ b, R a b → (P a b ↔ Q a)) :
    List.Forall₂ P as bs ↔ ∀ a ∈ as, Q a := by
  induction h with
  | nil => exact iff_of_true .nil nofun
  | cons hfirst hrest ih =>
      rw [List.forall₂_cons, List.forall_mem_cons, hiff _ List.mem_cons_self _ hfirst,
        ih fun a ha => hiff a (List.mem_cons_of_mem _ ha)]

/-- The image has one instance for each rule, in order. -/
theorem forall₂_image (h : verifyWithConfig catalog config ruleset = .ok image) :
    List.Forall₂ (fun rule inst =>
      (lowerRule catalog (piiPaths catalog ruleset) rule).1 = some inst)
      ruleset.rules image.rules := by
  obtain ⟨hno, rfl⟩ := verify_ok h
  change List.Forall₂ _ ruleset.rules ((ruleset.rules.map _).filterMap Prod.fst)
  have hlowered : ∀ rule ∈ ruleset.rules, ∃ inst,
      (lowerRule catalog (piiPaths catalog ruleset) rule).1 = some inst :=
    fun rule hrule => hno.lowered hrule
  generalize ruleset.rules = rules at hlowered ⊢
  induction rules with
  | nil => exact .nil
  | cons rule rules ih =>
      obtain ⟨inst, hinst⟩ := hlowered rule List.mem_cons_self
      rw [List.map_cons, List.filterMap_cons_some hinst]
      exact .cons hinst (ih fun rule hrule => hlowered rule (List.mem_cons_of_mem _ hrule))

/-- The instance of a rule is annotated exactly if the names of its evidence are kept apart. -/
theorem NoErrors.annotatedExactly_iff (h : NoErrors catalog config ruleset)
    (hident : ∀ rule ∈ ruleset.rules, ∀ name ∈ rule.bindingNames, IsIdent name)
    (hrule : rule ∈ ruleset.rules)
    (hinst : (Adgl.lowerRule catalog (piiPaths catalog ruleset) rule).1 = some inst) :
    (∀ intent ∈ inst.intents, Intent.AnnotatedExactly catalog rule intent) ↔
      ∀ stmt ∈ rule.gatherStatements, ∀ name ∈ stmt.evidence,
        ruleset.KeepsApart catalog rule name := by
  have hdeclared : ∀ stmt ∈ rule.gatherStatements, stmt.evidence ⊆ rule.bindingNames :=
    fun stmt hstmt name hname =>
      h.evidence_declared hrule hstmt (evidence_subset stmt hname)
  constructor
  · intro hexact stmt hstmt name hname
    obtain ⟨intent, hintent, hannotated⟩ :=
      h.exists_annotated hrule hstmt (List.ne_nil_of_mem hname)
    obtain ⟨-, hpaths⟩ := hexact intent (intentsOf_subset hinst hstmt hintent) _ _ hannotated
    exact (evidencePii_exact_iff hident hrule (hdeclared stmt hstmt)).mp hpaths name hname
  · intro hapart intent hintent evidence pii hannotated
    obtain ⟨stmt, hstmt, hintent⟩ | rfl := mem_intents hinst hintent
    · obtain ⟨-, hnone⟩ | hsome := annotated_intentsOf hintent
      · rw [hannotated] at hnone
        cases hnone
      · rw [hannotated] at hsome
        cases hsome
        exact ⟨nodup_evidencePii _ _,
          (evidencePii_exact_iff hident hrule (hdeclared stmt hstmt)).mpr (hapart stmt hstmt)⟩
    · cases hannotated

/-- The annotations of an accepted ruleset are exact if and only if no name that is listed as
evidence has other personal fields in another rule, or hidden ones in its own. -/
theorem annotations_exact_iff (h : verifyWithConfig catalog config ruleset = .ok image)
    (hident : ∀ rule ∈ ruleset.rules, ∀ name ∈ rule.bindingNames, IsIdent name) :
    List.Forall₂ (fun rule inst => ∀ intent ∈ inst.intents,
        Intent.AnnotatedExactly catalog rule intent) ruleset.rules image.rules ↔
      ∀ rule ∈ ruleset.rules, ∀ stmt ∈ rule.gatherStatements, ∀ name ∈ stmt.evidence,
        ruleset.KeepsApart catalog rule name := by
  obtain ⟨hno, -⟩ := verify_ok h
  exact forall₂_iff_forall_mem (forall₂_image h) fun rule hrule inst hinst =>
    hno.annotatedExactly_iff hident hrule hinst

/-- Two rules that call different events by one name: one infers from a message about the
path, the other from a burst. -/
def sharedNameRules : Ruleset :=
  ⟨"shared", [], [
    .evidence {
      name := "ptb"
      scope := .session
      anchor := ⟨"x", ["icmp", "ptb"], none⟩
      correlates := []
      ifElse := none
      body := [.infer ⟨"PmtudBlackhole",
        [.target (.field (.ident "x") "target"), .weight 40, .evidence ["x"]]⟩] },
    .evidence {
      name := "burst"
      scope := .session
      anchor := ⟨"x", ["tcp", "retransmission_burst"], none⟩
      correlates := []
      ifElse := none
      body := [.infer ⟨"Congestion",
        [.target (.field (.ident "x") "target"), .weight 30, .evidence ["x"]]⟩] }]⟩

theorem verify_sharedName : verifyWithConfig .seed .default sharedNameRules =
    .ok (lowerToImage .seed sharedNameRules).1 := verify_eq_ok (by decide) (by decide)

theorem annotations_exact_iff_sharedName :
    List.Forall₂ (fun rule inst => ∀ intent ∈ inst.intents,
        Intent.AnnotatedExactly .seed rule intent)
      sharedNameRules.rules (lowerToImage .seed sharedNameRules).1.rules ↔
    ∀ rule ∈ sharedNameRules.rules, ∀ stmt ∈ rule.gatherStatements, ∀ name ∈ stmt.evidence,
      sharedNameRules.KeepsApart .seed rule name :=
  annotations_exact_iff verify_sharedName (by unfold IsIdent; decide)

/-- The rules are accepted, and the inference from the message is annotated with an address
of the burst, which a message does not have. -/
theorem annotations_sharedName :
    verifyWithConfig .seed .default sharedNameRules =
      .ok (lowerToImage .seed sharedNameRules).1 ∧
    ¬ List.Forall₂ (fun rule inst => ∀ intent ∈ inst.intents,
        Intent.AnnotatedExactly .seed rule intent)
      sharedNameRules.rules (lowerToImage .seed sharedNameRules).1.rules := by
  refine ⟨verify_sharedName, fun hall => ?_⟩
  cases hall with
  | cons hfirst _ =>
      have hexact := (hfirst _ List.mem_cons_self _ _ rfl).2 ⟨"x.src_ip"⟩
      obtain ⟨name, hname, ty, hty, field, hfield, hpath⟩ := hexact.mp (by decide)
      cases List.mem_singleton.mp hname
      cases List.mem_singleton.mp hty
      cases List.mem_singleton.mp hfield
      exact absurd hpath (by decide)

end Adgl
