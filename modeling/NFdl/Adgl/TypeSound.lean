import NFdl.Adgl.PredicateSound

/-!
# Type errors of verified predicates

The names of a rule are the indices of its bindings. On a vector with bindings of
the declared kinds, a verified predicate has no type error exactly if no
arithmetic or comparison meets a definite truth value, and every binding that is
reached is in the vector.
-/

namespace Adgl

open Ast

/-! ### Names and indices -/

/-- What the bindings of a rule are bound to, in the order of their indices. -/
def Ast.RuleDecl.bindingTys (rule : RuleDecl) : List BindingTy :=
  rule.anchorTy :: rule.correlates.map correlateBindingTy

/-- The index of every name points to its type. -/
def RuleEnv.Indexed (env : RuleEnv) (tys : List BindingTy) : Prop :=
  ∀ name ty, env.bindings.lookup name = some ty → tys[(env.indexOf name).toNat]? = some ty

theorem RuleEnv.Indexed.push {env : RuleEnv} {tys : List BindingTy} (h : env.Indexed tys)
    (name : String) (ty : BindingTy) {idx : BindingIdx} (hidx : idx.toNat = tys.length) :
    (env.push name ty idx).Indexed (tys ++ [ty]) := by
  intro name' ty' hlookup
  unfold RuleEnv.push RuleEnv.indexOf at *
  by_cases hname : name' = name
  · subst hname
    rw [AList.lookup_insert] at hlookup ⊢
    rw [Option.getD_some, hidx, List.getElem?_concat_length]
    exact hlookup
  · rw [AList.lookup_insert_ne hname] at hlookup ⊢
    have hold : tys[((env.bindingIdx.lookup name').getD 0).toNat]? = some ty' :=
      h name' ty' hlookup
    rw [List.getElem?_append_left (List.getElem?_eq_some_iff.mp hold).1]
    exact hold

theorem indexed_foldl (cs : List CorrelateBlock) {env : RuleEnv} {tys : List BindingTy}
    (h : env.Indexed tys) (n : Nat) (hn : n + 1 = tys.length) (hlen : n + cs.length < 256) :
    ((cs.zipIdx n).foldl (fun env entry => env.push entry.1.binding (correlateBindingTy entry.1)
      (UInt8.ofNat (entry.2 + 1))) env).Indexed (tys ++ cs.map correlateBindingTy) := by
  induction cs generalizing env tys n with
  | nil => simpa using h
  | cons c cs ih =>
      rw [List.zipIdx_cons, List.foldl_cons, List.map_cons, List.append_cons]
      rw [List.length_cons] at hlen
      refine ih (h.push c.binding (correlateBindingTy c) ?_) (n + 1) ?_ ?_
      · rw [UInt8.toNat_ofNat', Nat.mod_eq_of_lt (by omega), hn]
      · rw [List.length_append, ← hn, List.length_singleton]
      · omega

/-- With at most eight correlates no index wraps. -/
theorem forRule_indexed {rule : RuleDecl} (hlen : rule.correlates.length ≤ maxCorrelatesPerRule) :
    (RuleEnv.forRule rule).Indexed rule.bindingTys := by
  have hempty : RuleEnv.Indexed ⟨rule.scope, ∅, ∅⟩ [] := fun name ty h => by cases h
  have hanchor : (RuleEnv.push ⟨rule.scope, ∅, ∅⟩ rule.anchorBinding rule.anchorTy 0).Indexed
      [rule.anchorTy] :=
    hempty.push _ _ rfl
  unfold maxCorrelatesPerRule at hlen
  exact indexed_foldl rule.correlates hanchor 0 rfl (by omega)

/-! ### Type errors -/

/-- The errors that depend on the values of numbers only. -/
def CorrelateError.IsValueError : CorrelateError → Prop
  | .arithOverflow | .divisionByZero => True
  | _ => False

/-- A binding of the declared kind, or none. -/
def BindingTy.Matches : BindingTy → Binding → Prop
  | _, .absent | _, .unknown => True
  | .event t, .bound (.event e) => e.eventType = t
  | .cause k, .bound (.cause c) => c.kind = k
  | .problem k, .bound (.problem p) => p.kind = k
  | _, .bound _ => False

/-- Numbers and unknown values may be calculated with. -/
def Slot.Numeric (v : Slot) : Prop := v ≠ .truth .true ∧ v ≠ .truth .false

instance (v : Slot) : Decidable v.Numeric := inferInstanceAs (Decidable (_ ∧ _))

theorem Slot.Numeric.int (i : Int64) : (Slot.int i).Numeric :=
  ⟨fun h => (by cases h), fun h => (by cases h)⟩

theorem Slot.Numeric.unknown : (Slot.truth .unknown).Numeric := by decide

def Ast.BinaryOp.IsConnective (op : BinaryOp) : Prop := op = .and ∨ op = .or

/-- Evaluation reaches only bindings of the vector, and no arithmetic or comparison
gets a definite truth value. -/
def OperandsFit (catalog : Catalog) (env : RuleEnv) (ctx : PredCtx) : Expr → Prop
  | .present name | .absent name | .field (.ident name) _ =>
      (env.indexOf name).toNat < ctx.bindings.length
  | .unary _ expr => OperandsFit catalog env ctx expr
  | .binary op left right =>
      OperandsFit catalog env ctx left ∧ ∀ a, strict catalog env ctx left = .ok a →
        OperandsFit catalog env ctx right ∧ ∀ b, strict catalog env ctx right = .ok b →
          op.IsConnective ∨ a.Numeric ∧ b.Numeric
  | _ => True

section TypeErrors

variable {catalog : Catalog} {env : RuleEnv} {ctx : PredCtx} {e : Expr}

/-- All errors of a result are value errors. -/
def Typed {α : Type} (r : Except CorrelateError α) : Prop :=
  ∀ error, r = .error error → error.IsValueError

@[simp] theorem typed_ok {α : Type} (a : α) : Typed (.ok a) := fun _ h => by cases h

theorem typed_error_iff {α : Type} {error : CorrelateError} :
    Typed (.error error : Except CorrelateError α) ↔ error.IsValueError :=
  ⟨fun h => h error rfl, fun h _ herror => Except.error.inj herror ▸ h⟩

theorem typed_bindingOf_iff {name : String} :
    Typed (bindingOf env ctx name) ↔ (env.indexOf name).toNat < ctx.bindings.length := by
  unfold bindingOf PredCtx.binding
  rcases hb : ctx.bindings[(env.indexOf name).toNat]? with _ | b
  · rw [typed_error_iff]
    exact iff_of_false id (not_lt.mpr (List.getElem?_eq_none_iff.mp hb))
  · exact iff_of_true (typed_ok b) (List.getElem?_eq_some_iff.mp hb).1

theorem typed_load {ty : BindingTy} {b : Binding} (h : ty.Matches b) (field : FieldIdx) :
    Typed (ty.load b field) := by
  rcases b with ((e | c | p) | _ | _) <;> cases ty <;> first | exact typed_ok _ | exact h.elim

theorem asNum_numeric (op : String) {v : Slot} (hv : v ≠ .empty) :
    (v.Numeric ∧ ∃ n, asNum op v = .ok n) ∨
      (¬ v.Numeric ∧ asNum op v = .error (.typeMismatch op)) := by
  rcases v with _ | i | (_ | _ | _)
  · exact absurd rfl hv
  · exact .inl ⟨.int i, _, rfl⟩
  · exact .inr ⟨fun h => h.1 rfl, rfl⟩
  · exact .inr ⟨fun h => h.2 rfl, rfl⟩
  · exact .inl ⟨.unknown, _, rfl⟩

theorem asTruth_ok (op : String) {v : Slot} (hv : v ≠ .empty) : ∃ t, asTruth op v = .ok t := by
  cases v with
  | empty => exact absurd rfl hv
  | int i => exact ⟨_, rfl⟩
  | truth t => exact ⟨t, rfl⟩

theorem typed_checked (n : Int) : Typed (checked n) := by
  unfold checked
  split
  · exact typed_ok _
  · exact typed_error_iff.mpr trivial

theorem typed_arithOp (op : ArithOp) (a b : Int64) : Typed (op.apply a b) := by
  cases op with
  | add | sub | mul => exact typed_checked _
  | div =>
      change Typed (if b = 0 then Except.error .divisionByZero else checked _)
      split
      · exact typed_error_iff.mpr trivial
      · exact typed_checked _
  | mod =>
      change Typed (if b = 0 then Except.error .divisionByZero else Except.map _ (checked _))
      split
      · exact typed_error_iff.mpr trivial
      · have hdiv := typed_checked (a.toInt.tdiv b.toInt)
        rcases hq : checked (a.toInt.tdiv b.toInt) with error | q
        · rw [hq] at hdiv
          exact typed_error_iff.mpr (typed_error_iff.mp hdiv)
        · exact typed_ok _

section Operators

variable {a b : Slot} (ha : a ≠ .empty) (hb : b ≠ .empty)
include ha hb

theorem typed_arith_iff (op : String) {f : Int64 → Int64 → Except CorrelateError Int64}
    (hf : ∀ a b, Typed (f a b)) : Typed (arith op f a b) ↔ a.Numeric ∧ b.Numeric := by
  unfold arith
  obtain ⟨hnum, m, hm⟩ | ⟨hnum, hm⟩ := asNum_numeric op ha
  · obtain ⟨hnum', n, hn⟩ | ⟨hnum', hn⟩ := asNum_numeric op hb
    · refine iff_of_true ?_ ⟨hnum, hnum'⟩
      rw [hm, hn]
      rcases m with _ | m
      · exact typed_ok _
      · rcases n with _ | n
        · exact typed_ok _
        · have hmn := hf m n
          change Typed (f m n >>= fun v => Except.ok (Slot.int v))
          rcases hf : f m n with error | v
          · rw [hf] at hmn
            exact typed_error_iff.mpr (typed_error_iff.mp hmn)
          · exact typed_ok _
    · rw [hm, hn]
      exact iff_of_false (fun h => typed_error_iff.mp h) fun h => hnum' h.2
  · rw [hm]
    exact iff_of_false (fun h => typed_error_iff.mp h) fun h => hnum h.1

theorem typed_cmp_iff (op : String) (f : Int64 → Int64 → Bool) :
    Typed (cmp op f a b) ↔ a.Numeric ∧ b.Numeric := by
  unfold cmp
  obtain ⟨hnum, m, hm⟩ | ⟨hnum, hm⟩ := asNum_numeric op ha
  · obtain ⟨hnum', n, hn⟩ | ⟨hnum', hn⟩ := asNum_numeric op hb
    · refine iff_of_true ?_ ⟨hnum, hnum'⟩
      rw [hm, hn]
      rcases m with _ | m
      · exact typed_ok _
      · rcases n with _ | n <;> exact typed_ok _
    · rw [hm, hn]
      exact iff_of_false (fun h => typed_error_iff.mp h) fun h => hnum' h.2
  · rw [hm]
    exact iff_of_false (fun h => typed_error_iff.mp h) fun h => hnum h.1

theorem typed_connect (op : String) (f : T3 → T3 → T3) : Typed (connect op f a b) := by
  unfold connect
  obtain ⟨t, ht⟩ := asTruth_ok op ha
  obtain ⟨t', ht'⟩ := asTruth_ok op hb
  rw [ht, ht']
  exact typed_ok _

theorem typed_apply_iff {op : BinaryOp} (hop : op ≠ .in_) :
    Typed (op.apply a b) ↔ op.IsConnective ∨ a.Numeric ∧ b.Numeric := by
  cases op with
  | and => exact iff_of_true (typed_connect ha hb _ _) (.inl (.inl rfl))
  | or => exact iff_of_true (typed_connect ha hb _ _) (.inl (.inr rfl))
  | eq | ne | lt | le | gt | ge =>
      refine (typed_cmp_iff ha hb _ _).trans (or_iff_right ?_).symm
      rintro (h | h) <;> cases h
  | add | sub | mul | div | rem =>
      refine (typed_arith_iff ha hb _ (typed_arithOp _)).trans (or_iff_right ?_).symm
      rintro (h | h) <;> cases h
  | in_ => exact absurd rfl hop

end Operators

theorem strict_filled (catalog : Catalog) (env : RuleEnv) (ctx : PredCtx) (e : Expr) :
    Fills (strict catalog env ctx e) := by
  cases e with
  | int | duration | string | bool => exact fills_ok (by simp)
  | call | index => exact fills_error _
  | ident name =>
      unfold strict
      split
      · exact fills_ok (by simp)
      · exact fills_error _
  | present name | absent name =>
      unfold strict
      rcases bindingOf env ctx name with error | b
      · exact fills_error _
      · exact fills_ok (by simp)
  | field base name =>
      cases base with
      | ident id => exact fills_fieldOf id name
      | int | duration | string | bool | present | absent | unary | binary | field | call | index =>
          exact fills_error _
  | unary op expr =>
      unfold strict
      rcases strict catalog env ctx expr with error | v
      · exact fills_error _
      · change Fills (asTruth "NOT" v >>= fun t => Except.ok (Slot.truth t.not))
        rcases asTruth "NOT" v with error | t
        · exact fills_error _
        · exact fills_ok (by simp)
  | binary op left right =>
      unfold strict
      rcases strict catalog env ctx left with error | a
      · exact fills_error _
      · rcases strict catalog env ctx right with error | b
        · exact fills_error _
        · exact fills_apply op a b

/-- The bindings are of the kinds that the names have. -/
def KindsFit (tys : List BindingTy) (bindings : List Binding) : Prop :=
  ∀ (i : Nat) (b : Binding) (ty : BindingTy), bindings[i]? = some b → tys[i]? = some ty →
    ty.Matches b

/-- The strict meaning of an expression has no type error exactly if the operands
fit. -/
theorem typed_strict_iff {tys : List BindingTy} (hsupported : Supported catalog env e)
    (hindexed : env.Indexed tys) (hkinds : KindsFit tys ctx.bindings) :
    Typed (strict catalog env ctx e) ↔ OperandsFit catalog env ctx e := by
  induction e with
  | int | duration | string | bool => exact iff_of_true (typed_ok _) trivial
  | call | index => exact hsupported.elim
  | ident name =>
      have hscope : name = "scope" := hsupported
      unfold strict
      rw [if_pos hscope]
      exact iff_of_true (typed_ok _) trivial
  | present name =>
      refine Iff.trans ?_ typed_bindingOf_iff
      unfold strict
      rcases bindingOf env ctx name with error | b
      · exact typed_error_iff.trans typed_error_iff.symm
      · exact iff_of_true (typed_ok _) (typed_ok _)
  | absent name =>
      refine Iff.trans ?_ typed_bindingOf_iff
      unfold strict
      rcases bindingOf env ctx name with error | b
      · exact typed_error_iff.trans typed_error_iff.symm
      · exact iff_of_true (typed_ok _) (typed_ok _)
  | field base name ih =>
      cases base with
      | ident id =>
          refine Iff.trans ?_ typed_bindingOf_iff
          obtain ⟨ty, hty, hfield⟩ := hsupported
          obtain ⟨⟨fieldIdx, fieldTy⟩, hfield⟩ := Option.isSome_iff_exists.mp hfield
          unfold strict fieldOf
          simp only [hty, hfield]
          rcases hb : bindingOf env ctx id with error | b
          · exact typed_error_iff.trans typed_error_iff.symm
          · refine iff_of_true (typed_load (hkinds _ b ty ?_ (hindexed id ty hty)) fieldIdx)
              (typed_ok _)
            unfold bindingOf PredCtx.binding at hb
            split at hb
            · rename_i hget
              rw [hget, Except.ok.inj hb]
            · cases hb
      | int | duration | string | bool | present | absent | unary | binary | field | call | index =>
          exact hsupported.elim
  | unary op expr ih =>
      cases op
      refine Iff.trans ?_ (ih hsupported)
      have hfilled := strict_filled catalog env ctx expr
      rw [strict_unary]
      rcases hv : strict catalog env ctx expr with error | v
      · exact Iff.rfl
      · obtain ⟨t, ht⟩ := asTruth_ok "NOT" (fun h : v = .empty => hfilled (h ▸ hv))
        change Typed (asTruth "NOT" v >>= fun t => Except.ok (Slot.truth t.not)) ↔ _
        rw [ht]
        exact iff_of_true (typed_ok _) (typed_ok _)
  | binary op left right ihl ihr =>
      obtain ⟨hop, hl, hr⟩ := hsupported
      have hleft := strict_filled catalog env ctx left
      have hright := strict_filled catalog env ctx right
      rw [strict_binary, OperandsFit, ← ihl hl]
      rcases ha : strict catalog env ctx left with error | a
      · exact ⟨fun h => ⟨h, fun _ hok => by cases hok⟩, fun h => h.1⟩
      · simp only [Except.ok.injEq, forall_eq', typed_ok, true_and]
        rw [← ihr hr]
        rcases hb : strict catalog env ctx right with error | b
        · exact ⟨fun h => ⟨h, fun _ hok => by cases hok⟩, fun h => h.1⟩
        · simp only [Except.ok.injEq, forall_eq', typed_ok, true_and]
          exact typed_apply_iff (fun h => hleft (h ▸ ha)) (fun h => hright (h ▸ hb)) hop

/-! ### Rules that keep numbers and truth values apart -/

/-- Tests, comparisons and connectives have truth values. -/
def Ast.Expr.truthShaped : Expr → Bool
  | .present _ | .absent _ | .unary _ _ => true
  | .binary op _ _ => !(op == .add || op == .sub || op == .mul || op == .div || op == .rem)
  | _ => false

/-- No arithmetic or comparison has an operand with a truth value. -/
def Ast.Expr.Separated : Expr → Prop
  | .unary _ expr => Separated expr
  | .binary op left right => Separated left ∧ Separated right ∧
      (op.IsConnective ∨ left.truthShaped = false ∧ right.truthShaped = false)
  | _ => True

/-- The bindings that an expression mentions. -/
def Ast.Expr.mentioned : Expr → List String
  | .present name | .absent name | .field (.ident name) _ => [name]
  | .unary _ expr => mentioned expr
  | .binary _ left right => mentioned left ++ mentioned right
  | _ => []

theorem numeric_load {ty : BindingTy} {b : Binding} {field : FieldIdx} {v : Slot}
    (h : ty.load b field = .ok v) : v.Numeric := by
  rcases b with ((e | c | p) | _ | _) <;> cases ty <;>
    first | cases h; exact .unknown | cases h
  · split_ifs
    · exact .int _
    · exact .int _
    · cases e.field field
      · exact .unknown
      · exact .int _
  · split_ifs
    · exact .int _
    · exact .int _
    · exact .int _
    · exact .unknown
  · split_ifs
    · exact .int _
    · exact .int _
    · exact .unknown

theorem numeric_arith {op : String} {f : Int64 → Int64 → Except CorrelateError Int64}
    {a b v : Slot} (h : arith op f a b = .ok v) : v.Numeric := by
  unfold arith at h
  rcases ha : asNum op a with error | m
  · rw [ha] at h
    cases h
  · rcases hb : asNum op b with error | n
    · rw [ha, hb] at h
      cases h
    · rw [ha, hb] at h
      rcases m with _ | m
      · cases h
        exact .unknown
      · rcases n with _ | n
        · cases h
          exact .unknown
        · change (f m n >>= fun w => Except.ok (Slot.int w)) = _ at h
          rcases hf : f m n with error | w
          · rw [hf] at h
            cases h
          · rw [hf] at h
            cases h
            exact .int w

theorem numeric_of_shape {v : Slot} (hshape : e.truthShaped = false)
    (h : strict catalog env ctx e = .ok v) : v.Numeric := by
  cases e with
  | int | duration | string | bool =>
      cases h
      exact .int _
  | call | index => cases h
  | present | absent | unary => cases hshape
  | ident name =>
      unfold strict at h
      split at h
      · cases h
        exact .int _
      · cases h
  | field base name =>
      cases base with
      | ident id =>
          unfold strict fieldOf at h
          split at h
          · split at h
            · rcases hb : bindingOf env ctx id with error | b
              · rw [hb] at h
                cases h
              · rw [hb] at h
                exact numeric_load h
            · cases h
          · cases h
      | int | duration | string | bool | present | absent | unary | binary | field | call | index =>
          cases h
  | binary op left right =>
      rw [strict_binary] at h
      rcases ha : strict catalog env ctx left with error | a
      · rw [ha] at h
        cases h
      · rcases hb : strict catalog env ctx right with error | b
        · rw [ha, hb] at h
          cases h
        · rw [ha, hb] at h
          cases op with
          | add | sub | mul | div | rem => exact numeric_arith h
          | or | and | eq | ne | lt | le | gt | ge | in_ => cases hshape

/-- On a vector with all bindings that an expression mentions, the operands of a
separated expression fit. -/
theorem operandsFit_of_separated (hseparated : e.Separated)
    (hmentioned : ∀ name ∈ e.mentioned, (env.indexOf name).toNat < ctx.bindings.length) :
    OperandsFit catalog env ctx e := by
  induction e with
  | int | duration | string | bool | ident | call | index => trivial
  | present name | absent name => exact hmentioned name (List.mem_singleton_self _)
  | field base name ih =>
      cases base with
      | ident id => exact hmentioned id (List.mem_singleton_self _)
      | int | duration | string | bool | present | absent | unary | binary | field | call | index =>
          trivial
  | unary op expr ih => exact ih hseparated hmentioned
  | binary op left right ihl ihr =>
      obtain ⟨hl, hr, hop⟩ := hseparated
      refine ⟨ihl hl fun n hn => hmentioned n (List.mem_append_left _ hn), fun a ha =>
        ⟨ihr hr fun n hn => hmentioned n (List.mem_append_right _ hn), fun b hb => ?_⟩⟩
      exact hop.imp id fun hshape =>
        ⟨numeric_of_shape hshape.1 ha, numeric_of_shape hshape.2 hb⟩

end TypeErrors

/-! ### The predicates of an image -/

/-- A vector of bindings of the declared kinds. -/
def RightVector (tys : List BindingTy) (bindings : List Binding) : Prop :=
  List.Forall₂ BindingTy.Matches tys bindings

/-- Evaluating the predicate has no type error, and reads no slot that has not been
written. -/
structure TypeSound (pred : Predicate) (ctx : PredCtx) : Prop where
  noMismatch : ∀ op, evalPredicate pred ctx ≠ .error (.typeMismatch op)
  noUnknownBinding : ∀ b, evalPredicate pred ctx ≠ .error (.unknownBinding b)
  noUnknownFunction : ∀ f, evalPredicate pred ctx ≠ .error (.unknownTopoFunction f)
  written : pred.WellWritten

/-- A predicate of an image with its source and the kinds of the vectors on which
the engine evaluates it. -/
structure Site where
  source : Option Expr
  compiled : Predicate
  vector : List BindingTy

/-- Anchor predicates see the anchor only, conditions see all bindings. -/
def sites (rule : RuleDecl) (inst : RuleInstance) : List Site :=
  ⟨rule.anchorPredicate, inst.anchor.predicate, [rule.anchorTy]⟩ ::
    inst.branches.toList.map fun table =>
      ⟨rule.ifElse.map IfElseBlock.condition, table.cond, rule.bindingTys⟩

section Image

variable {catalog : Catalog} {config : VerifyConfig} {ruleset : Ruleset} {image : ProgramImage}
  {pred : Predicate} {ctx : PredCtx}

theorem typeSound_iff (hwritten : pred.WellWritten) :
    TypeSound pred ctx ↔ Typed (evalPredicate pred ctx) := by
  constructor
  · intro h error herror
    cases error with
    | arithOverflow | divisionByZero => trivial
    | typeMismatch op => exact h.noMismatch op herror
    | unknownBinding b => exact h.noUnknownBinding b herror
    | unknownTopoFunction f => exact h.noUnknownFunction f herror
  · intro h
    exact ⟨fun op herror => h _ herror, fun b herror => h _ herror, fun f herror => h _ herror,
      hwritten⟩

theorem RightVector.kindsFit {tys : List BindingTy} {bindings : List Binding} {n : Nat}
    (h : RightVector (tys.take n) bindings) : KindsFit tys bindings := by
  intro i b ty hb hty
  have hlen : i < (tys.take n).length := h.length_eq ▸ (List.getElem?_eq_some_iff.mp hb).1
  have htake : (tys.take n)[i]? = some ty := by
    rw [List.getElem?_take, if_pos ((List.length_take ▸ hlen).trans_le (min_le_left _ _)), hty]
  obtain ⟨-, hmatch⟩ := List.forall₂_iff_get.mp h
  obtain ⟨hi, rfl⟩ := List.getElem?_eq_some_iff.mp htake
  obtain ⟨hi', rfl⟩ := List.getElem?_eq_some_iff.mp hb
  exact hmatch i hi hi'

/-- The predicate of an anchor without one. -/
theorem alwaysTrue_typeSound (ctx : PredCtx) : TypeSound .alwaysTrue ctx := by
  have hwritten : Predicate.alwaysTrue.WellWritten := by
    refine ⟨fun i op hop s hs => ?_, _, List.mem_singleton_self _, rfl⟩
    obtain rfl := List.mem_singleton.mp (List.mem_of_getElem? hop)
    cases hs
  exact (typeSound_iff hwritten).mpr (typed_ok T3.true)

/-- The predicates of an image have no type error exactly if the operands fit. -/
theorem image_typeSound_iff (h : verifyWithConfig catalog config ruleset = .ok image)
    {inst : RuleInstance} (hinst : inst ∈ image.rules) :
    ∃ rule ∈ ruleset.rules, (lowerRule catalog (piiPaths catalog ruleset) rule).1 = some inst ∧
      ∀ site ∈ sites rule inst, ∀ ctx, RightVector site.vector ctx.bindings →
        (TypeSound site.compiled ctx ↔
          ∀ e ∈ site.source, OperandsFit catalog (.forRule rule) ctx e) := by
  obtain ⟨rule, hrule, hlowered⟩ := (mem_image_iff h).mp hinst
  refine ⟨rule, hrule, hlowered, ?_⟩
  obtain ⟨specs, -, rfl⟩ := lowerRule_eq hlowered
  obtain ⟨hno, -⟩ := verify_ok h
  have hindexed := forRule_indexed (hno.correlates_length_le hrule)
  have hcompiled (e : Expr) (he : e ∈ rule.predicates) (n : Nat) (ctx : PredCtx)
      (hvector : RightVector (rule.bindingTys.take n) ctx.bindings) :
      TypeSound (compilePredicate catalog (.forRule rule) e).1 ctx ↔
        OperandsFit catalog (.forRule rule) ctx e := by
    obtain ⟨hsupported, hwritten, heval⟩ := compilePredicate_correct
      (hno.typed hrule (mem_exprs he)) (hno.compiled hrule he)
    rw [typeSound_iff hwritten, heval, ← typed_strict_iff hsupported hindexed hvector.kindsFit]
    have hfilled := strict_filled catalog (.forRule rule) ctx e
    rcases hv : strict catalog (.forRule rule) ctx e with error | v
    · exact typed_error_iff.trans typed_error_iff.symm
    · obtain ⟨t, ht⟩ := asTruth_ok "RESULT" (fun hempty : v = .empty => hfilled
        (hempty ▸ hv))
      change Typed (asTruth "RESULT" v) ↔ _
      rw [ht]
      exact iff_of_true (typed_ok _) (typed_ok _)
  intro site hsite ctx hvector
  obtain rfl | hsite := List.mem_cons.mp hsite
  · change TypeSound (lowerAnchorPredicate catalog (.forRule rule) rule).1 ctx ↔
      ∀ e ∈ rule.anchorPredicate, _
    unfold lowerAnchorPredicate
    rcases hpred : rule.anchorPredicate with _ | e
    · exact iff_of_true (alwaysTrue_typeSound ctx) nofun
    · simp only [Option.mem_def, Option.some.injEq, forall_eq']
      refine hcompiled e (List.mem_append_left _ ?_) 1 ctx hvector
      rw [hpred]
      exact List.mem_singleton_self _
  · obtain ⟨table, htable, rfl⟩ := List.mem_map.mp hsite
    obtain ⟨ifElse, hif, rfl⟩ := Option.map_eq_some_iff.mp (Option.mem_toList.mp htable)
    simp only [hif, Option.map_some, Option.mem_def, Option.some.injEq, forall_eq']
    refine hcompiled ifElse.condition (List.mem_append_right _ ?_) rule.bindingTys.length ctx ?_
    · rw [hif]
      exact List.mem_singleton_self _
    · rw [List.take_length]
      exact hvector

end Image

/-- A rule on a burst and a message of the path, with a condition. -/
def ptbRule (condition : Expr) : RuleDecl :=
  .evidence {
    name := "ptb"
    scope := .session
    anchor := ⟨"rtx", ["tcp", "retransmission_burst"], none⟩
    correlates := [{
      binding := "ptb"
      source := .event ["icmp", "ptb"]
      topo := ⟨"same_session", [.field (.ident "rtx") "target", .field (.ident "ptb") "target"]⟩
      time := ⟨.field (.ident "ptb") "time", .field (.ident "rtx") "time",
        .binary .add (.field (.ident "rtx") "time") (.duration 500)⟩
      minMatch := none }]
    ifElse := some ⟨condition,
      [.infer ⟨"PmtudBlackhole", [.target (.field (.ident "rtx") "target"), .weight 40]⟩], none⟩
    body := [] }

def ptbRules (condition : Expr) : Ruleset := ⟨"ptb", [], [ptbRule condition]⟩

/-- A burst and a message about the path, both in one session. -/
def ptbCtx : PredCtx :=
  ⟨[.bound (.event (burst 1400)), .bound (.event (.new 2 "icmp.ptb" ⟨1200⟩ ⟨.session, 7⟩ []))],
    ⟨.session, 7⟩, ∅, silentTopology⟩

/-- `present(ptb) == true`. -/
def presentIsTrue : Expr := .binary .eq (.present "ptb") (.bool true)

theorem verify_eq_ok {catalog : Catalog} {config : VerifyConfig} {ruleset : Ruleset}
    (hphases : hasErrors (runPhases catalog config ruleset) = false)
    (hall : hasErrors (runPhases catalog config ruleset ++ (lowerToImage catalog ruleset).2) =
      false) : verifyWithConfig catalog config ruleset = .ok (lowerToImage catalog ruleset).1 := by
  unfold verifyWithConfig
  simp only [hphases, hall]
  rfl

/-- The condition of a rule. -/
def conditionOf (catalog : Catalog) (ruleset : Ruleset) : Option Predicate :=
  (lowerToImage catalog ruleset).1.rules.head?.bind fun inst => inst.branches.map BranchTable.cond

theorem image_typeSound_ptb :
    ∃ inst ∈ (lowerToImage .seed (ptbRules (.present "ptb"))).1.rules,
      ∃ rule ∈ (ptbRules (.present "ptb")).rules,
        (lowerRule .seed (piiPaths .seed (ptbRules (.present "ptb"))) rule).1 = some inst ∧
        ∀ site ∈ sites rule inst, ∀ ctx, RightVector site.vector ctx.bindings →
          (TypeSound site.compiled ctx ↔
            ∀ e ∈ site.source, OperandsFit .seed (.forRule rule) ctx e) := by
  have hverify : verifyWithConfig .seed .default (ptbRules (.present "ptb")) =
      .ok (lowerToImage .seed (ptbRules (.present "ptb"))).1 :=
    verify_eq_ok (by decide) (by decide)
  obtain ⟨inst, hinst⟩ := List.exists_mem_of_ne_nil
    (lowerToImage .seed (ptbRules (.present "ptb"))).1.rules (fun h => by cases h)
  exact ⟨inst, hinst, image_typeSound_iff hverify hinst⟩

/-- A verified condition that compares a test with a literal has a type error. -/
theorem presentIsTrue_mismatch :
    (verifyWithConfig .seed .default (ptbRules presentIsTrue)).isOk = true ∧
    RightVector (ptbRule presentIsTrue).bindingTys ptbCtx.bindings ∧
    (conditionOf .seed (ptbRules presentIsTrue)).map (evalPredicate · ptbCtx) =
      some (.error (.typeMismatch "CMP_EQ")) :=
  ⟨by decide, .cons rfl (.cons rfl .nil), rfl⟩

end Adgl
