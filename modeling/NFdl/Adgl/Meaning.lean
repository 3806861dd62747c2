import NFdl.Adgl.Lower
import NFdl.Adgl.Predicate

/-!
# The meaning of predicate expressions

The reference meaning is Kleene logic with short circuits: the right operand of a
connective that its left operand decides is not evaluated. The strict meaning
evaluates every operand. The two differ exactly in the errors of operands that the
reference skips.
-/

namespace Adgl

open Ast

/-- The values of the reference meaning. A string is a value of its own. -/
inductive Value where
  | int (value : Int64)
  | str (value : String)
  | truth (t : T3)
deriving DecidableEq, Repr

namespace Value

/-- The content of the slot that holds a value. -/
def slot : Value → Slot
  | .int i => .int i
  | .str s => .int (stableStringI64 s)
  | .truth t => .truth t

def isTrue : Value → T3
  | .int i => .ofBool (i ≠ 0)
  | .str s => .ofBool (stableStringI64 s ≠ 0)
  | .truth t => t

@[simp] theorem asTruth_slot (op : String) (v : Value) : asTruth op v.slot = .ok v.isTrue := by
  cases v <;> rfl

theorem slot_ne_empty (v : Value) : v.slot ≠ .empty := by
  cases v <;> exact nofun

end Value

def BindingTy.load (ty : BindingTy) (b : Binding) (field : FieldIdx) :
    Except CorrelateError Slot :=
  match ty with
  | .event _ => b.loadEventField field
  | .cause _ => b.loadCauseField field
  | .problem _ => b.loadProblemField field

/-- Expressions that no predicate has are given this error. -/
def meaningless {α : Type} : Except CorrelateError α := .error (.typeMismatch "PREDICATE")

def Slot.value : Slot → Except CorrelateError Value
  | .int i => .ok (.int i)
  | .truth t => .ok (.truth t)
  | .empty => meaningless

/-- A binary operator on slots. -/
def Ast.BinaryOp.apply (op : BinaryOp) (a b : Slot) : Except CorrelateError Slot :=
  match op with
  | .or => connect "OR" T3.or a b
  | .and => connect "AND" T3.and a b
  | .eq => cmp "CMP_EQ" CmpOp.eq.apply a b
  | .ne => cmp "CMP_NE" CmpOp.ne.apply a b
  | .lt => cmp "CMP_LT" CmpOp.lt.apply a b
  | .le => cmp "CMP_LE" CmpOp.le.apply a b
  | .gt => cmp "CMP_GT" CmpOp.gt.apply a b
  | .ge => cmp "CMP_GE" CmpOp.ge.apply a b
  | .in_ => meaningless
  | .add => arith "ADD" ArithOp.add.apply a b
  | .sub => arith "SUB" ArithOp.sub.apply a b
  | .mul => arith "MUL" ArithOp.mul.apply a b
  | .div => arith "DIV" ArithOp.div.apply a b
  | .rem => arith "MOD" ArithOp.mod.apply a b

/-- A binary operator on values: strings are compared as strings. -/
def Ast.BinaryOp.kleene (op : BinaryOp) (a b : Value) : Except CorrelateError Value :=
  match op, a, b with
  | .eq, .str s, .str t => .ok (.truth (.ofBool (s = t)))
  | .ne, .str s, .str t => .ok (.truth (.ofBool (s ≠ t)))
  | op, a, b => op.apply a.slot b.slot >>= Slot.value

/-- Whether the left operand decides a connective. -/
def Ast.BinaryOp.skips (op : BinaryOp) (a : Value) : Bool :=
  match op with
  | .and => a.isTrue == .false
  | .or => a.isTrue == .true
  | _ => false

section Meaning

variable (catalog : Catalog) (env : RuleEnv) (ctx : PredCtx)

def bindingOf (name : String) : Except CorrelateError Binding := ctx.binding (env.indexOf name)

/-- The value of a field of a binding. -/
def fieldOf (name field : String) : Except CorrelateError Slot :=
  match env.bindings.lookup name with
  | some ty => match catalog.resolveMetricPath ty (name ++ "." ++ field) with
    | some (fieldIdx, _) => bindingOf env ctx name >>= (ty.load · fieldIdx)
    | none => meaningless
  | none => meaningless

/-- The meaning with every operand evaluated, in slots. -/
def strict : Expr → Except CorrelateError Slot
  | .int value => .ok (.int value)
  | .duration millis => .ok (.int (DurationMs.ofMillis millis).millis)
  | .string value => .ok (.int (stableStringI64 value))
  | .bool value => .ok (.int (if value then 1 else 0))
  | .ident name => if name = "scope" then .ok (.int (scopeKeyI64 ctx.scope)) else meaningless
  | .present name => do return .truth (← bindingOf env ctx name).presence
  | .absent name => do return .truth (← bindingOf env ctx name).presence.not
  | .field (.ident name) field => fieldOf catalog env ctx name field
  | .unary .not expr => do return .truth (← asTruth "NOT" (← strict expr)).not
  | .binary op left right => do op.apply (← strict left) (← strict right)
  | _ => meaningless

/-- The reference meaning. -/
def kleene : Expr → Except CorrelateError Value
  | .int value => .ok (.int value)
  | .duration millis => .ok (.int (DurationMs.ofMillis millis).millis)
  | .string value => .ok (.str value)
  | .bool value => .ok (.int (if value then 1 else 0))
  | .ident name => if name = "scope" then .ok (.int (scopeKeyI64 ctx.scope)) else meaningless
  | .present name => do return .truth (← bindingOf env ctx name).presence
  | .absent name => do return .truth (← bindingOf env ctx name).presence.not
  | .field (.ident name) field => fieldOf catalog env ctx name field >>= Slot.value
  | .unary .not expr => do return .truth (← kleene expr).isTrue.not
  | .binary op left right =>
      match kleene left with
      | .error error => .error error
      | .ok a =>
          if op.skips a then .ok (.truth a.isTrue) else kleene right >>= op.kleene a
  | _ => meaningless

/-- The truth value of a predicate in the reference meaning. -/
def kleeneTruth (expr : Expr) : Except CorrelateError T3 :=
  (kleene catalog env ctx expr).map Value.isTrue

def errorOf {α : Type} : Except CorrelateError α → Option CorrelateError
  | .error error => some error
  | .ok _ => none

/-- The first error of an operand that the reference meaning skips, unless the
reference meaning fails before it. -/
def skippedError : Expr → Option CorrelateError
  | .unary _ expr => skippedError expr
  | .binary op left right =>
      (skippedError left).or <|
        match kleene catalog env ctx left with
        | .error _ => none
        | .ok a =>
            if op.skips a then
              (skippedError right).or (errorOf (kleene catalog env ctx right))
            else skippedError right
  | _ => none

/-- The string literals of an expression. -/
def Ast.Expr.literals : Expr → List String
  | .string value => [value]
  | .unary _ expr => literals expr
  | .binary _ left right => literals left ++ literals right
  | _ => []

end Meaning

section Strict

variable {catalog : Catalog} {env : RuleEnv} {ctx : PredCtx}

theorem strict_binary (op : BinaryOp) (left right : Expr) :
    strict catalog env ctx (.binary op left right) = (do
      op.apply (← strict catalog env ctx left) (← strict catalog env ctx right)) := rfl

theorem strict_unary (expr : Expr) :
    strict catalog env ctx (.unary .not expr) = (do
      return .truth (← asTruth "NOT" (← strict catalog env ctx expr)).not) := rfl

theorem kleene_binary (op : BinaryOp) (left right : Expr) :
    kleene catalog env ctx (.binary op left right) =
      match kleene catalog env ctx left with
      | .error error => .error error
      | .ok a =>
          if op.skips a then .ok (.truth a.isTrue)
          else kleene catalog env ctx right >>= op.kleene a := rfl

theorem skippedError_binary (op : BinaryOp) (left right : Expr) :
    skippedError catalog env ctx (.binary op left right) =
      (skippedError catalog env ctx left).or
        (match kleene catalog env ctx left with
        | .error _ => none
        | .ok a =>
            if op.skips a then
              (skippedError catalog env ctx right).or (errorOf (kleene catalog env ctx right))
            else skippedError catalog env ctx right) := rfl

/-- An operation that leaves no slot empty. -/
def Fills (r : Except CorrelateError Slot) : Prop := r ≠ .ok .empty

theorem fills_error (error : CorrelateError) : Fills (.error error) := fun h => by cases h

theorem fills_ok {v : Slot} (h : v ≠ .empty) : Fills (.ok v) := fun heq => h (Except.ok.inj heq)

theorem Fills.value {r : Except CorrelateError Slot} (h : Fills r) :
    (r >>= Slot.value).map Value.slot = r := by
  rcases r with e | (_ | i | t)
  · rfl
  · exact absurd rfl h
  · rfl
  · rfl

theorem fills_arith (op : String) (f : Int64 → Int64 → Except CorrelateError Int64) (a b : Slot) :
    Fills (arith op f a b) := by
  unfold Fills arith
  rcases asNum op a with e | a
  · exact nofun
  · rcases asNum op b with e | b
    · exact nofun
    · rcases a with _ | a
      · exact nofun
      · rcases b with _ | b
        · exact nofun
        · change (f a b >>= fun v => Except.ok (Slot.int v)) ≠ _
          rcases f a b with e | v <;> exact nofun

theorem fills_cmp (op : String) (f : Int64 → Int64 → Bool) (a b : Slot) :
    Fills (cmp op f a b) := by
  unfold Fills cmp
  rcases asNum op a with e | a
  · exact nofun
  · rcases asNum op b with e | b
    · exact nofun
    · rcases a with _ | a
      · exact nofun
      · rcases b with _ | b <;> exact nofun

theorem fills_connect (op : String) (f : T3 → T3 → T3) (a b : Slot) :
    Fills (connect op f a b) := by
  unfold Fills connect
  rcases asTruth op a with e | a
  · exact nofun
  · rcases asTruth op b with e | b <;> exact nofun

theorem fills_apply (op : BinaryOp) (a b : Slot) : Fills (op.apply a b) := by
  cases op with
  | or | and => exact fills_connect _ _ _ _
  | eq | ne | lt | le | gt | ge => exact fills_cmp _ _ _ _
  | add | sub | mul | div | rem => exact fills_arith _ _ _ _
  | in_ => exact nofun

theorem fills_load (ty : BindingTy) (b : Binding) (field : FieldIdx) : Fills (ty.load b field) := by
  unfold Fills
  rcases b with ((e | c | p) | _ | _)
  · cases ty with
    | event t =>
        change Except.ok (if _ then _ else if _ then _ else _) ≠ _
        split_ifs
        · exact nofun
        · exact nofun
        · cases e.field field <;> exact nofun
    | cause | problem => exact nofun
  · cases ty with
    | cause k =>
        change Except.ok (if _ then _ else if _ then _ else if _ then _ else _) ≠ _
        split_ifs <;> exact nofun
    | event | problem => exact nofun
  · cases ty with
    | problem k =>
        change Except.ok (if _ then _ else if _ then _ else _) ≠ _
        split_ifs <;> exact nofun
    | event | cause => exact nofun
  · cases ty <;> exact nofun
  · cases ty <;> exact nofun

theorem fills_fieldOf (name field : String) : Fills (fieldOf catalog env ctx name field) := by
  unfold fieldOf
  split
  · split
    · rcases bindingOf env ctx name with e | b
      · exact nofun
      · exact fills_load _ b _
    · exact nofun
  · exact nofun

/-- Strings are compared through their hashes. -/
theorem slot_kleene {op : BinaryOp} {a b : Value}
    (hinj : ∀ s t, a = .str s → b = .str t → stableStringI64 s = stableStringI64 t → s = t) :
    (op.kleene a b).map Value.slot = op.apply a.slot b.slot := by
  unfold BinaryOp.kleene
  split
  · rename_i s t
    have hiff : (stableStringI64 s == stableStringI64 t) = decide (s = t) := by
      rw [Bool.eq_iff_iff, beq_iff_eq, decide_eq_true_eq]
      exact ⟨hinj s t rfl rfl, congrArg _⟩
    change Except.ok (Slot.truth _) = .ok (.truth (.ofBool (stableStringI64 s == stableStringI64 t)))
    rw [hiff]
  · rename_i s t
    have hiff : (stableStringI64 s != stableStringI64 t) = decide (s ≠ t) := by
      rw [Bool.eq_iff_iff, bne_iff_ne, decide_eq_true_eq]
      exact not_congr ⟨hinj s t rfl rfl, congrArg _⟩
    change Except.ok (Slot.truth _) = .ok (.truth (.ofBool (stableStringI64 s != stableStringI64 t)))
    rw [hiff]
  · exact (fills_apply _ _ _).value

/-- A connective that its left operand decides has the truth of that operand. -/
theorem apply_of_skips {op : BinaryOp} {a : Value} (h : op.skips a = true) {b : Slot}
    (hb : b ≠ .empty) : op.apply a.slot b = .ok (.truth a.isTrue) := by
  have htruth (name : String) : ∃ t, asTruth name b = .ok t := by
    cases b with
    | empty => exact absurd rfl hb
    | int i => exact ⟨_, rfl⟩
    | truth t => exact ⟨t, rfl⟩
  cases op with
  | and =>
      obtain ⟨t, ht⟩ := htruth "AND"
      have ha : a.isTrue = .false := beq_iff_eq.mp h
      change connect "AND" T3.and a.slot b = _
      simp only [connect, Value.asTruth_slot, ht, ha]
      exact congrArg (Except.ok ∘ Slot.truth) (T3.false_and t)
  | or =>
      obtain ⟨t, ht⟩ := htruth "OR"
      have ha : a.isTrue = .true := beq_iff_eq.mp h
      change connect "OR" T3.or a.slot b = _
      simp only [connect, Value.asTruth_slot, ht, ha]
      exact congrArg (Except.ok ∘ Slot.truth) (T3.true_or t)
  | eq | ne | lt | le | gt | ge | in_ | add | sub | mul | div | rem => cases h

theorem value_ne_str {r : Except CorrelateError Slot} {s : String} :
    r >>= Slot.value ≠ .ok (.str s) := by
  rcases r with e | (_ | i | t) <;> exact nofun

theorem kleene_ne_str {op : BinaryOp} {a b : Value} {s : String} : op.kleene a b ≠ .ok (.str s) := by
  unfold BinaryOp.kleene
  split
  · exact nofun
  · exact nofun
  · exact value_ne_str

/-- Only a literal is a string. -/
theorem mem_literals_of_kleene {e : Expr} {s : String}
    (h : kleene catalog env ctx e = .ok (.str s)) : s ∈ e.literals := by
  cases e with
  | string value => exact List.mem_singleton.mpr (Value.str.inj (Except.ok.inj h)).symm
  | int | duration | bool | call | index => cases h
  | ident name =>
      unfold kleene at h
      split at h <;> cases h
  | present name =>
      unfold kleene at h
      rcases hb : bindingOf env ctx name with e | b
      · rw [hb] at h
        cases h
      · rw [hb] at h
        cases h
  | absent name =>
      unfold kleene at h
      rcases hb : bindingOf env ctx name with e | b
      · rw [hb] at h
        cases h
      · rw [hb] at h
        cases h
  | unary op expr =>
      unfold kleene at h
      rcases hv : kleene catalog env ctx expr with e | v
      · rw [hv] at h
        cases h
      · rw [hv] at h
        cases h
  | field base name =>
      cases base with
      | ident id => exact absurd h value_ne_str
      | int | duration | string | bool | present | absent | unary | binary | field | call | index =>
          cases h
  | binary op left right =>
      unfold kleene at h
      rcases hl : kleene catalog env ctx left with e | a
      · rw [hl] at h
        cases h
      · rw [hl] at h
        change (if _ then _ else _) = _ at h
        split at h
        · cases h
        · rcases hr : kleene catalog env ctx right with e | b
          · rw [hr] at h
            cases h
          · rw [hr] at h
            exact absurd h kleene_ne_str

/-- The strict meaning is the reference meaning, unless an operand that the
reference skips has an error. -/
theorem strict_eq {e : Expr}
    (hinj : ∀ s ∈ e.literals, ∀ t ∈ e.literals, stableStringI64 s = stableStringI64 t → s = t) :
    strict catalog env ctx e = match skippedError catalog env ctx e with
      | some error => .error error
      | none => (kleene catalog env ctx e).map Value.slot := by
  induction e with
  | int | duration | string | bool | call | index => rfl
  | ident name =>
      change (if _ then _ else _) = Except.map Value.slot (if _ then _ else _)
      split <;> rfl
  | present name =>
      unfold strict skippedError kleene
      rcases bindingOf env ctx name with e | b <;> rfl
  | absent name =>
      unfold strict skippedError kleene
      rcases bindingOf env ctx name with e | b <;> rfl
  | field base name ih =>
      cases base with
      | ident id => exact (fills_fieldOf id name).value.symm
      | int | duration | string | bool | present | absent | unary | binary | field | call | index =>
          rfl
  | unary op expr ih =>
      unfold strict skippedError kleene
      rw [ih hinj]
      rcases skippedError catalog env ctx expr with _ | error
      · rcases kleene catalog env ctx expr with error | v
        · rfl
        · change (asTruth "NOT" v.slot >>= fun t => Except.ok (Slot.truth t.not)) = _
          rw [Value.asTruth_slot]
          rfl
      · rfl
  | binary op left right ihl ihr =>
      have ihl := ihl fun s hs t ht => hinj s (List.mem_append_left _ hs) t
        (List.mem_append_left _ ht)
      have ihr := ihr fun s hs t ht => hinj s (List.mem_append_right _ hs) t
        (List.mem_append_right _ ht)
      rw [strict_binary, kleene_binary, skippedError_binary, ihl, ihr]
      rcases skippedError catalog env ctx left with _ | error
      · rcases hl : kleene catalog env ctx left with error | a
        · rfl
        · by_cases hskip : op.skips a = true
          · simp only [hskip, if_true]
            rcases skippedError catalog env ctx right with _ | error
            · rcases kleene catalog env ctx right with error | b
              · rfl
              · exact apply_of_skips hskip b.slot_ne_empty
            · rfl
          · simp only [hskip]
            rcases skippedError catalog env ctx right with _ | error
            · rcases hr : kleene catalog env ctx right with error | b
              · rfl
              · refine (slot_kleene fun s t hs ht => hinj s ?_ t ?_).symm
                · exact List.mem_append_left _ (mem_literals_of_kleene (hs ▸ hl))
                · exact List.mem_append_right _ (mem_literals_of_kleene (ht ▸ hr))
            · rfl
      · rfl

/-- The truth value under the strict meaning is that of the reference exactly if an
operand that the reference skips has no error, or the error of the reference. -/
theorem strict_truth_iff {e : Expr} (op : String)
    (hinj : ∀ s ∈ e.literals, ∀ t ∈ e.literals, stableStringI64 s = stableStringI64 t → s = t) :
    strict catalog env ctx e >>= asTruth op = kleeneTruth catalog env ctx e ↔
      ∀ error, skippedError catalog env ctx e = some error →
        kleene catalog env ctx e = .error error := by
  rw [strict_eq hinj, kleeneTruth]
  rcases skippedError catalog env ctx e with _ | error
  · refine ⟨fun _ => nofun, fun _ => ?_⟩
    rcases kleene catalog env ctx e with error | v
    · rfl
    · exact Value.asTruth_slot op v
  · rcases kleene catalog env ctx e with error' | v
    · constructor
      · intro h error'' herror
        cases h
        cases herror
        rfl
      · intro h
        cases h error rfl
        rfl
    · constructor
      · intro h
        cases h
      · intro h
        cases h error rfl

end Strict

end Adgl
