import NFdl.Adgl.Correlate
import NFdl.Adgl.TypeSound
import Mathlib.Data.List.Duplicate
import Mathlib.Data.List.NodupEquivFin

/-!
# The indices of bindings

Names of bindings are resolved twice: the environment of the verifier keeps the
last declaration of a name, and the engine searches for the first one. Both agree
with the position in the vector of resolved bindings on the names that are declared
once, and on no others.
-/

namespace Adgl

open Ast

/-! ### Names -/

namespace Ast

mutual

/-- The identifiers in an expression. -/
def Expr.names : Expr → List String
  | .ident name | .present name | .absent name => [name]
  | .unary _ expr => names expr
  | .binary _ left right => names left ++ names right
  | .field base _ => names base
  | .call callee args => names callee ++ namesOfAll args
  | .index base idx => names base ++ names idx
  | _ => []

def Expr.namesOfAll : List Expr → List String
  | [] => []
  | e :: es => names e ++ namesOfAll es

end

/-- The bindings that a rule declares, the anchor first. -/
def RuleDecl.bindingNames (rule : RuleDecl) : List String :=
  rule.anchorBinding :: rule.correlates.map CorrelateBlock.binding

/-- The evidence that an inference or an emission lists. -/
def Stmt.evidenceNames : Stmt → List String
  | .infer i => i.fields.flatMap fun field => (InferField.evidence? field).getD []
  | .emit e => e.fields.flatMap fun field => (EmitField.evidence? field).getD []
  | .action _ => []

/-- The bindings that a rule uses: those it declares, those in its expressions and
those it lists as evidence. -/
def RuleDecl.usedNames (rule : RuleDecl) : List String :=
  rule.bindingNames ++ rule.exprs.flatMap Expr.names ++
    rule.gatherStatements.flatMap Stmt.evidenceNames

end Ast

def RuleInstance.bindingNames (inst : RuleInstance) : List String :=
  inst.anchor.binding :: inst.correlates.map CorrelateSpec.binding

/-- A name that is listed is listed once exactly if it has one position. -/
theorem count_eq_one_iff {names : List String} {name : String} (hmem : name ∈ names) :
    names.count name = 1 ↔
      ∀ i j : Nat, names[i]? = some name → names[j]? = some name → i = j := by
  have hpos : 0 < names.count name := List.count_pos_iff.mpr hmem
  have hone : names.count name = 1 ↔ ¬ 2 ≤ names.count name := by omega
  rw [hone, ← List.duplicate_iff_two_le_count, List.duplicate_iff_exists_distinct_get]
  constructor
  · intro h i j hi hj
    obtain ⟨hilt, hi⟩ := List.getElem?_eq_some_iff.mp hi
    obtain ⟨hjlt, hj⟩ := List.getElem?_eq_some_iff.mp hj
    obtain hlt | heq | hlt := lt_trichotomy i j
    · exact absurd ⟨⟨i, hilt⟩, ⟨j, hjlt⟩, hlt, hi.symm, hj.symm⟩ h
    · exact heq
    · exact absurd ⟨⟨j, hjlt⟩, ⟨i, hilt⟩, hlt, hj.symm, hi.symm⟩ h
  · rintro h ⟨n, m, hlt, hn, hm⟩
    have heq := h n m (List.getElem?_eq_some_iff.mpr ⟨n.isLt, hn.symm⟩)
      (List.getElem?_eq_some_iff.mpr ⟨m.isLt, hm.symm⟩)
    exact absurd heq (Nat.ne_of_lt hlt)

/-! ### The environment of the verifier -/

section Environment

variable {env : RuleEnv} {name : String} {rule : RuleDecl}

theorem isSome_lookup_push {ty : BindingTy} {idx : BindingIdx} {declared : String} :
    ((env.push declared ty idx).bindings.lookup name).isSome ↔
      (env.bindings.lookup name).isSome ∨ name = declared := by
  unfold RuleEnv.push
  by_cases hname : name = declared
  · subst hname
    rw [AList.lookup_insert]
    exact iff_of_true rfl (.inr rfl)
  · rw [AList.lookup_insert_ne hname, or_iff_left hname]

theorem isSome_lookup_foldl (cs : List CorrelateBlock) (n : Nat) :
    (((cs.zipIdx n).foldl (fun env entry => env.push entry.1.binding (correlateBindingTy entry.1)
      (UInt8.ofNat (entry.2 + 1))) env).bindings.lookup name).isSome ↔
      (env.bindings.lookup name).isSome ∨ name ∈ cs.map CorrelateBlock.binding := by
  induction cs generalizing env n with
  | nil => exact (or_iff_left List.not_mem_nil).symm
  | cons c cs ih =>
      rw [List.zipIdx_cons, List.foldl_cons, ih, isSome_lookup_push, List.map_cons,
        List.mem_cons, or_assoc]

/-- The environment knows the declared names and no others. -/
theorem isSome_lookup_forRule :
    ((RuleEnv.forRule rule).bindings.lookup name).isSome ↔ name ∈ rule.bindingNames := by
  unfold RuleEnv.forRule RuleDecl.bindingNames
  rw [isSome_lookup_foldl, isSome_lookup_push, List.mem_cons]
  refine or_congr ⟨fun h => h.elim (fun h => by cases h) id, .inr⟩ Iff.rfl

theorem bindingIdx_foldl_of_notMem {cs : List CorrelateBlock} (n : Nat)
    (h : name ∉ cs.map CorrelateBlock.binding) :
    ((cs.zipIdx n).foldl (fun env entry => env.push entry.1.binding (correlateBindingTy entry.1)
      (UInt8.ofNat (entry.2 + 1))) env).bindingIdx.lookup name = env.bindingIdx.lookup name := by
  induction cs generalizing env n with
  | nil => rfl
  | cons c cs ih =>
      rw [List.map_cons, List.mem_cons, not_or] at h
      rw [List.zipIdx_cons, List.foldl_cons, ih (n + 1) h.2]
      exact AList.lookup_insert_ne h.1

/-- A name that is declared once is at the front only. -/
theorem notMem_of_once {names : List String}
    (h : ∀ j : Nat, (name :: names)[j]? = some name → j = 0) : name ∉ names := by
  intro hmem
  obtain ⟨j, hj⟩ := List.mem_iff_getElem?.mp hmem
  exact absurd (h (j + 1) hj) (by omega)

theorem bindingIdx_foldl_push {cs : List CorrelateBlock} (n : Nat) {ty : BindingTy} {idx : UInt8}
    (h : ∀ j : Nat, (name :: cs.map CorrelateBlock.binding)[j]? = some name → j = 0) :
    ((cs.zipIdx n).foldl (fun env entry => env.push entry.1.binding (correlateBindingTy entry.1)
      (UInt8.ofNat (entry.2 + 1))) (env.push name ty idx)).bindingIdx.lookup name = some idx := by
  rw [bindingIdx_foldl_of_notMem n (notMem_of_once h)]
  exact AList.lookup_insert _

/-- The last declaration of a name decides its index. -/
theorem bindingIdx_foldl {cs : List CorrelateBlock} (n : Nat) {i : Nat}
    (hi : (cs.map CorrelateBlock.binding)[i]? = some name)
    (hlast : ∀ j : Nat, (cs.map CorrelateBlock.binding)[j]? = some name → j = i) :
    ((cs.zipIdx n).foldl (fun env entry => env.push entry.1.binding (correlateBindingTy entry.1)
      (UInt8.ofNat (entry.2 + 1))) env).bindingIdx.lookup name =
        some (UInt8.ofNat (n + i + 1)) := by
  induction cs generalizing env n i with
  | nil => cases hi
  | cons c cs ih =>
      rw [List.zipIdx_cons, List.foldl_cons]
      rw [List.map_cons] at hi hlast
      cases i with
      | zero =>
          obtain rfl := Option.some.inj hi
          exact bindingIdx_foldl_push (n + 1) hlast
      | succ i =>
          rw [ih (n + 1) hi fun j hj => by have := hlast (j + 1) hj; omega]
          congr 2
          omega

/-- The environment maps a name with one declaration to its position. -/
theorem bindingIdx_forRule {i : Nat} (hi : rule.bindingNames[i]? = some name)
    (honce : ∀ j : Nat, rule.bindingNames[j]? = some name → j = i) :
    (RuleEnv.forRule rule).bindingIdx.lookup name = some (UInt8.ofNat i) := by
  unfold RuleEnv.forRule
  unfold RuleDecl.bindingNames at hi honce
  cases i with
  | zero =>
      obtain rfl := Option.some.inj hi
      exact bindingIdx_foldl_push 0 honce
  | succ i =>
      rw [bindingIdx_foldl 0 hi fun j hj => by have := honce (j + 1) hj; omega, Nat.zero_add]

end Environment

/-! ### The vector of the engine -/

section Vector

variable {host : Host} {interner : ScopeInterner} {store : GraphStore} {inst : RuleInstance}
  {anchor : Bound} {scope : ScopeId} {name : String}

/-- The engine finds the first position of a name. -/
theorem bindingIndexOf_eq : bindingIndexOf inst name = inst.bindingNames.findIdx? (· == name) := by
  unfold bindingIndexOf RuleInstance.bindingNames
  rw [List.findIdx?_cons, List.findIdx?_map]
  rfl

/-- That the binding of a declaration under a name is resolved into a position of
the vector. -/
def StoredAt (host : Host) (interner : ScopeInterner) (store : GraphStore) (inst : RuleInstance)
    (anchor : Bound) (scope : ScopeId) (name : String) : Nat → Prop
  | 0 => inst.anchor.binding = name ∧
      (resolveBindings host interner store inst anchor scope).1[0]? = some (.bound anchor)
  | i + 1 => ∃ spec, inst.correlates[i]? = some spec ∧ spec.binding = name ∧
      (resolveBindings host interner store inst anchor scope).1[i + 1]? =
        some (resolveCorrelate host interner store inst anchor scope
          ((resolveBindings host interner store inst anchor scope).1.take (i + 1)) spec).1

/-- A fold that appends what it makes of all before. -/
theorem foldl_append_take {α β γ : Type} (f : List β → α → β × List γ) (as : List α)
    (acc : List β × List γ) :
    ∃ bs, (as.foldl (fun acc a => (acc.1 ++ [(f acc.1 a).1], acc.2 ++ (f acc.1 a).2)) acc).1 =
        acc.1 ++ bs ∧
      ∀ i, bs[i]? = as[i]?.map fun a => (f (acc.1 ++ bs.take i) a).1 := by
  induction as generalizing acc with
  | nil => exact ⟨[], (List.append_nil _).symm, fun i => rfl⟩
  | cons a as ih =>
      obtain ⟨bs, hbs, hall⟩ := ih (acc.1 ++ [(f acc.1 a).1], acc.2 ++ (f acc.1 a).2)
      refine ⟨(f acc.1 a).1 :: bs, ?_, fun i => ?_⟩
      · rw [List.foldl_cons, hbs, List.append_assoc]
        rfl
      · cases i with
        | zero => simp
        | succ i =>
            rw [List.getElem?_cons_succ, List.getElem?_cons_succ, List.take_succ_cons, hall,
              List.append_assoc]
            rfl

/-- Every declaration is stored at its position, and nothing else is. -/
theorem storedAt_iff {i : Nat} :
    StoredAt host interner store inst anchor scope name i ↔ inst.bindingNames[i]? = some name := by
  obtain ⟨bs, hbs, hall⟩ := foldl_append_take
    (resolveCorrelate host interner store inst anchor scope) inst.correlates ([.bound anchor], [])
  change (resolveBindings host interner store inst anchor scope).1 = _ at hbs
  unfold RuleInstance.bindingNames
  cases i with
  | zero =>
      have hstored : (resolveBindings host interner store inst anchor scope).1[0]? =
          some (.bound anchor) := by
        rw [hbs]
        rfl
      rw [List.getElem?_cons_zero, Option.some.injEq]
      exact and_iff_left hstored
  | succ i =>
      rw [List.getElem?_cons_succ, List.getElem?_map, Option.map_eq_some_iff]
      refine exists_congr fun spec => ⟨fun ⟨hspec, hname, _⟩ => ⟨hspec, hname⟩,
        fun ⟨hspec, hname⟩ => ⟨hspec, hname, ?_⟩⟩
      rw [hbs, List.singleton_append, List.getElem?_cons_succ, hall, hspec, List.take_succ_cons]
      rfl

end Vector

/-! ### Agreement -/

section Agreement

variable {catalog : Catalog} {config : VerifyConfig} {ruleset : Ruleset} {image : ProgramImage}
  {rule : RuleDecl} {inst : RuleInstance} {name : String}

/-- The names in a typed expression are declared. -/
theorem names_declared {e : Expr}
    (h : hasErrors (inferExprType catalog (.forRule rule) e).2 = false) (hname : name ∈ e.names) :
    name ∈ rule.bindingNames := by
  induction e with
  | int | duration | string | bool => cases hname
  | ident id | present id | absent id =>
      obtain rfl := List.mem_singleton.mp hname
      refine isSome_lookup_forRule.mp ?_
      unfold inferExprType at h
      split at h
      · assumption
      · cases h
  | unary op expr ih => exact ih h hname
  | binary op left right ihl ihr =>
      unfold inferExprType at h
      simp only [hasErrors_append, Bool.or_eq_false_iff] at h
      exact (List.mem_append.mp hname).elim (ihl h.1.1) (ihr h.1.2)
  | field base field ih =>
      cases base with
      | ident id =>
          obtain rfl := List.mem_singleton.mp hname
          refine isSome_lookup_forRule.mp ?_
          unfold inferExprType at h
          dsimp only at h
          rcases hlookup : (RuleEnv.forRule rule).bindings.lookup name with _ | ty
          · rw [hlookup] at h
            cases h
          · rfl
      | _ => cases h
  | call callee args ih => cases h
  | index base idx ihb ihi =>
      unfold inferExprType at h
      simp only [hasErrors_append, Bool.or_eq_false_iff] at h
      exact (List.mem_append.mp hname).elim (ihb h.1.1) (ihi h.2)

/-- The evidence that inferences and emissions of an accepted rule list is declared. -/
theorem NoErrors.evidence_declared (h : NoErrors catalog config ruleset)
    (hrule : rule ∈ ruleset.rules) {stmt : Stmt} (hstmt : stmt ∈ rule.gatherStatements)
    (hname : name ∈ stmt.evidenceNames) : name ∈ rule.bindingNames := by
  have hphase := hasErrors_flatMap.mp h.phase01 _ hrule
  rw [hasErrors_append, Bool.or_eq_false_iff] at hphase
  have hstmtOk := hasErrors_flatMap.mp hphase.2 _ hstmt
  have hevidence : ∀ ids, hasErrors (checkEvidence (.forRule rule) ids) = false → name ∈ ids →
      name ∈ rule.bindingNames := by
    intro ids hok hmem
    have hcheck := hasErrors_flatMap.mp hok _ hmem
    rw [hasErrors_check, Bool.not_eq_false'] at hcheck
    exact isSome_lookup_forRule.mp hcheck
  cases stmt with
  | infer i =>
      obtain ⟨field, hfield, hname⟩ := List.mem_flatMap.mp hname
      unfold validateStmtCatalog at hstmtOk
      rw [hasErrors_append, Bool.or_eq_false_iff] at hstmtOk
      have hfieldOk := hasErrors_flatMap.mp hstmtOk.2 _ hfield
      cases field with
      | evidence ids => exact hevidence ids hfieldOk hname
      | target | weight => cases hname
  | emit e =>
      obtain ⟨field, hfield, hname⟩ := List.mem_flatMap.mp hname
      unfold validateStmtCatalog at hstmtOk
      rw [hasErrors_append, Bool.or_eq_false_iff] at hstmtOk
      have hfieldOk := hasErrors_flatMap.mp hstmtOk.2 _ hfield
      cases field with
      | evidence ids => exact hevidence ids hfieldOk hname
      | target | severity | sarifId => cases hname
  | action a => cases hname

/-- An accepted rule uses declared names only. -/
theorem NoErrors.usedNames_declared (h : NoErrors catalog config ruleset)
    (hrule : rule ∈ ruleset.rules) (hname : name ∈ rule.usedNames) : name ∈ rule.bindingNames := by
  unfold RuleDecl.usedNames at hname
  rw [List.mem_append, List.mem_append] at hname
  obtain (hdeclared | hexpr) | hevidence := hname
  · exact hdeclared
  · obtain ⟨e, he, hname⟩ := List.mem_flatMap.mp hexpr
    exact names_declared (h.typed hrule he) hname
  · obtain ⟨stmt, hstmt, hname⟩ := List.mem_flatMap.mp hevidence
    exact h.evidence_declared hrule hstmt hname

theorem lowerCorrelate_binding {anchorBinding : String} {c : CorrelateBlock} {spec : CorrelateSpec}
    (h : (lowerCorrelate anchorBinding c).1 = some spec) : spec.binding = c.binding :=
  (lowerCorrelate_eq h).1

/-- Lowering keeps the names and their order. -/
theorem lowerRule_bindingNames {piiPaths : List String}
    (h : (lowerRule catalog piiPaths rule).1 = some inst) :
    inst.bindingNames = rule.bindingNames := by
  obtain ⟨specs, hspecs, rfl⟩ := lowerRule_eq h
  have hall := lowerCorrelates_forall₂ hspecs
  have hnames : rule.correlates.map CorrelateBlock.binding =
      specs.map CorrelateSpec.binding := by
    refine List.forall₂_eq_eq_eq ▸ ?_
    rw [List.forall₂_map_left_iff, List.forall₂_map_right_iff]
    exact hall.imp fun _ _ hspec => (lowerCorrelate_binding hspec).symm
  exact congrArg (rule.anchorBinding :: ·) hnames.symm

/-- That the verifier and the engine agree on a name: the index that is compiled is
the one that is searched for, and the only one at which a binding of this name is
stored. -/
def IndicesAgree (rule : RuleDecl) (inst : RuleInstance) (name : String) : Prop :=
  ∃ idx, ((RuleEnv.forRule rule).bindingIdx.lookup name).map UInt8.toNat = some idx ∧
    bindingIndexOf inst name = some idx ∧
    ∀ host interner store anchor scope i,
      StoredAt host interner store inst anchor scope name i ↔ i = idx

/-- In an accepted rule, the indices of a name agree exactly if it is declared once. -/
theorem indicesAgree_iff (h : verifyWithConfig catalog config ruleset = .ok image)
    (hrule : rule ∈ ruleset.rules)
    (hinst : (lowerRule catalog (piiPaths catalog ruleset) rule).1 = some inst)
    (hname : name ∈ rule.usedNames) :
    IndicesAgree rule inst name ↔ rule.bindingNames.count name = 1 := by
  obtain ⟨hno, -⟩ := verify_ok h
  have hdeclared := hno.usedNames_declared hrule hname
  have hnames := lowerRule_bindingNames hinst
  rw [count_eq_one_iff hdeclared]
  constructor
  · rintro ⟨idx, -, -, hstored⟩ i j hi hj
    rw [← hnames] at hi hj
    -- any store will do: where a declaration is stored does not depend on it
    let host : Host := ⟨catalog, image, silentTopology, .offline, .default, .zero⟩
    let anchor : Bound := .cause ⟨0, "", ⟨.global, 0⟩, .minimum, .minimum⟩
    have hidx : ∀ k : Nat, inst.bindingNames[k]? = some name → k = idx := fun k hk =>
      (hstored host ∅ .new anchor ⟨.global, 0⟩ k).mp (storedAt_iff.mpr hk)
    rw [hidx i hi, hidx j hj]
  · intro honce
    obtain ⟨idx, hidx⟩ := List.mem_iff_getElem?.mp hdeclared
    have hlt : idx < rule.bindingNames.length := (List.getElem?_eq_some_iff.mp hidx).1
    have hlength := hno.correlates_length_le hrule
    unfold maxCorrelatesPerRule at hlength
    rw [RuleDecl.bindingNames, List.length_cons, List.length_map] at hlt
    refine ⟨idx, ?_, ?_, fun host interner store anchor scope i => ?_⟩
    · rw [bindingIdx_forRule hidx fun j hj => honce j idx hj hidx, Option.map_some,
        UInt8.toNat_ofNat', Nat.mod_eq_of_lt (by omega)]
    · rw [bindingIndexOf_eq, hnames, List.findIdx?_eq_some_iff_getElem]
      obtain ⟨hbound, hget⟩ := List.getElem?_eq_some_iff.mp hidx
      refine ⟨hbound, beq_iff_eq.mpr hget, fun j hj hfound => ?_⟩
      have hearlier : rule.bindingNames[j]? = some name :=
        List.getElem?_eq_some_iff.mpr ⟨hj.trans hbound, beq_iff_eq.mp hfound⟩
      exact absurd (honce j idx hearlier hidx) (Nat.ne_of_lt hj)
    · rw [storedAt_iff, hnames]
      exact ⟨fun hi => honce i idx hi hidx, fun hi => hi ▸ hidx⟩

end Agreement

/-- A rule on a burst with two correlates, a message about the path and another
burst, and a test of the second one's segments. -/
def twoCorrelates (first second : String) : RuleDecl :=
  let window (binding : String) : Ast.TimeWindow :=
    ⟨.field (.ident binding) "time",
      .binary .sub (.field (.ident "rtx") "time") (.duration 500), .field (.ident "rtx") "time"⟩
  let session (binding : String) : Ast.TopoPredicate :=
    ⟨"same_session", [.field (.ident "rtx") "target", .field (.ident binding) "target"]⟩
  .evidence {
    name := "two"
    scope := .session
    anchor := ⟨"rtx", ["tcp", "retransmission_burst"], none⟩
    correlates := [
      ⟨first, .event ["icmp", "ptb"], session first, window first, none⟩,
      ⟨second, .event ["tcp", "retransmission_burst"], session second, window second, none⟩]
    ifElse := some ⟨.binary .gt (.field (.ident second) "segment_size") (.int 1000),
      [.infer ⟨"Congestion", [.target (.field (.ident "rtx") "target"), .weight 40,
        .evidence [second]]⟩], none⟩
    body := [] }

def twoCorrelateRules (first second : String) : Ruleset :=
  ⟨"two", [], [twoCorrelates first second]⟩

theorem indicesAgree_twoCorrelates :
    ∃ inst, (lowerRule .seed (piiPaths .seed (twoCorrelateRules "ptb" "again"))
      (twoCorrelates "ptb" "again")).1 = some inst ∧
      (IndicesAgree (twoCorrelates "ptb" "again") inst "again" ↔
        (twoCorrelates "ptb" "again").bindingNames.count "again" = 1) := by
  have hverify : verifyWithConfig .seed .default (twoCorrelateRules "ptb" "again") =
      .ok (lowerToImage .seed (twoCorrelateRules "ptb" "again")).1 :=
    verify_eq_ok (by decide) (by decide)
  obtain ⟨inst, hinst⟩ :=
    (verify_ok hverify).1.lowered (List.mem_singleton_self (twoCorrelates "ptb" "again"))
  exact ⟨inst, hinst,
    indicesAgree_iff hverify (List.mem_singleton_self _) hinst (by decide)⟩

/-- Where both correlates go by one name, the verifier compiles the second one and
the engine searches for the first one. -/
theorem sameBinding_disagrees :
    (verifyWithConfig .seed .default (twoCorrelateRules "ptb" "ptb")).isOk = true ∧
    "ptb" ∈ (twoCorrelates "ptb" "ptb").usedNames ∧
    ∃ inst, (lowerRule .seed (piiPaths .seed (twoCorrelateRules "ptb" "ptb"))
      (twoCorrelates "ptb" "ptb")).1 = some inst ∧
      (RuleEnv.forRule (twoCorrelates "ptb" "ptb")).bindingIdx.lookup "ptb" = some 2 ∧
      bindingIndexOf inst "ptb" = some 1 ∧
      ¬ IndicesAgree (twoCorrelates "ptb" "ptb") inst "ptb" := by
  have hcompiled : (RuleEnv.forRule (twoCorrelates "ptb" "ptb")).bindingIdx.lookup "ptb" =
      some 2 := by decide
  refine ⟨by decide, by decide, _, rfl, hcompiled, by decide, ?_⟩
  rintro ⟨idx, hidx, hfound, -⟩
  rw [hcompiled] at hidx
  have hfirst : idx = 1 := (Option.some.inj hfound).symm
  have hsecond : idx = 2 := (Option.some.inj hidx).symm
  omega

end Adgl
