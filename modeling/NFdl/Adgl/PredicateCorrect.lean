import NFdl.Adgl.Meaning

/-!
# Correctness of compiled predicates

The code of an expression that is verified and compiled without an error computes
its strict meaning in the slot of its result, keeps the slots below its own, and
reads no slot before it is written.
-/

namespace Adgl

open Ast

/-- Every slot that an operation reads is written by an operation before it. -/
def WrittenFirst (ops : List PredOp) : Prop :=
  ∀ (i : Nat) (op : PredOp), ops[i]? = some op → ∀ s ∈ op.srcs,
    ∃ (j : Nat) (op' : PredOp), j < i ∧ ops[j]? = some op' ∧ op'.dst = s

/-- A slot that an operation of the code writes. -/
def Written (ops : List PredOp) (s : SlotIdx) : Prop := ∃ op ∈ ops, op.dst = s

/-- No slot is read before it is written, and the result is written. -/
def Predicate.WellWritten (pred : Predicate) : Prop :=
  WrittenFirst pred.ops ∧ Written pred.ops pred.result

theorem Written.append {ops : List PredOp} {s : SlotIdx} (h : Written ops s) (ops' : List PredOp) :
    Written (ops ++ ops') s := by
  obtain ⟨op, hop, hdst⟩ := h
  exact ⟨op, List.mem_append_left _ hop, hdst⟩

theorem WrittenFirst.push {ops : List PredOp} {op : PredOp} (h : WrittenFirst ops)
    (hsrcs : ∀ s ∈ op.srcs, Written ops s) : WrittenFirst (ops ++ [op]) := by
  intro i op' hop' s hs
  by_cases hi : i < ops.length
  · rw [List.getElem?_append_left hi] at hop'
    obtain ⟨j, opj, hj, hopj, hdst⟩ := h i op' hop' s hs
    exact ⟨j, opj, hj, by rw [List.getElem?_append_left (hj.trans hi)]; exact hopj, hdst⟩
  · rw [List.getElem?_append_right (not_lt.mp hi)] at hop'
    obtain ⟨hlen, rfl⟩ := List.getElem?_eq_some_iff.mp hop'
    obtain ⟨opj, hmem, hdst⟩ := hsrcs s (by simpa using hs)
    obtain ⟨j, hj, hopj⟩ := List.getElem_of_mem hmem
    exact ⟨j, opj, lt_of_lt_of_le hj (not_lt.mp hi), by
      rw [List.getElem?_append_left hj, List.getElem?_eq_getElem hj, hopj], hdst⟩

/-! ### The allocation of slots -/

section Push

variable {st : CompileState} {op : SlotIdx → PredOp}

theorem alloc_diags (st : CompileState) : ∃ ds, st.alloc.2.diags = st.diags ++ ds := by
  unfold CompileState.alloc
  cases SlotIdx.new st.next with
  | none => exact ⟨_, rfl⟩
  | some slot => exact ⟨[], (List.append_nil _).symm⟩

theorem push_diags (st : CompileState) (op : SlotIdx → PredOp) :
    ∃ ds, (st.push op).2.diags = st.diags ++ ds := alloc_diags st

/-- Without an error there was a slot left. -/
theorem push_ok (h : hasErrors (st.push op).2.diags = false) :
    ∃ dst : SlotIdx, dst.val = st.next ∧
      st.push op = (some dst, ⟨st.ops ++ [op dst], st.next + 1, st.diags⟩) := by
  unfold CompileState.push CompileState.alloc at h ⊢
  unfold SlotIdx.new at h ⊢
  by_cases hlt : st.next < maxSlots
  · rw [dif_pos hlt]
    have hmin : min (st.next + 1) 255 = st.next + 1 := by
      unfold maxSlots at hlt
      omega
    refine ⟨⟨st.next, hlt⟩, rfl, ?_⟩
    simp only [hmin]
    rfl
  · rw [dif_neg hlt] at h
    change hasErrors (st.diags ++ [_]) = false at h
    rw [hasErrors_append] at h
    exact absurd (Bool.or_eq_false_iff.mp h).2 nofun

end Push

section Compile

variable {catalog : Catalog} {env : RuleEnv} {e : Expr} {st st' : CompileState} {slot : SlotIdx}

/-- Compilation only adds diagnostics. -/
theorem compileExpr_diags (catalog : Catalog) (env : RuleEnv) (e : Expr) (st : CompileState) :
    ∃ ds, (compileExpr catalog env e st).2.diags = st.diags ++ ds := by
  induction e generalizing st with
  | int | duration | string | bool | present | absent => exact push_diags _ _
  | ident name =>
      unfold compileExpr
      split
      · exact push_diags _ _
      · exact ⟨_, rfl⟩
  | call | index => exact ⟨_, rfl⟩
  | field base name ih =>
      unfold compileExpr
      split
      · split
        · exact ⟨_, rfl⟩
        · split
          · exact ⟨[], (List.append_nil _).symm⟩
          · split
            · exact ⟨_, rfl⟩
            · exact push_diags _ _
      · exact ⟨_, rfl⟩
  | unary op expr ih =>
      cases op
      unfold compileExpr
      obtain ⟨ds, hds⟩ := ih st
      split
      · rename_i heq
        rw [heq] at hds
        exact ⟨ds, hds⟩
      · rename_i st' heq
        rw [heq] at hds
        obtain ⟨ds', hds'⟩ := push_diags st' (.not _)
        exact ⟨ds ++ ds', by rw [hds', hds, List.append_assoc]⟩
  | binary op left right ihl ihr =>
      unfold compileExpr
      obtain ⟨ds, hds⟩ := ihl st
      split
      · rename_i heq
        rw [heq] at hds
        exact ⟨ds, hds⟩
      · rename_i lhs st' heq
        rw [heq] at hds
        obtain ⟨ds', hds'⟩ := ihr st'
        split
        · rename_i heq'
          rw [heq'] at hds'
          exact ⟨ds ++ ds', by rw [hds', hds, List.append_assoc]⟩
        · rename_i rhs st'' heq'
          rw [heq'] at hds'
          split
          · rename_i predOp _
            obtain ⟨ds'', hds''⟩ := push_diags st'' predOp
            exact ⟨ds ++ (ds' ++ ds''), by rw [hds'', hds', hds, List.append_assoc,
              List.append_assoc]⟩
          · obtain ⟨ds'', hds''⟩ := alloc_diags st''
            exact ⟨ds ++ (ds' ++ (ds'' ++ [rejectIntlistPredicateUse])), by
              rw [CompileState.complain, hds'', hds', hds, List.append_assoc, List.append_assoc,
                List.append_assoc]⟩

/-- An error before an expression is compiled is one after it. -/
theorem noErrors_of_compileExpr (h : hasErrors (compileExpr catalog env e st).2.diags = false) :
    hasErrors st.diags = false := by
  obtain ⟨ds, hds⟩ := compileExpr_diags catalog env e st
  rw [hds, hasErrors_append] at h
  exact (Bool.or_eq_false_iff.mp h).1

/-! ### What the code computes -/

/-- The code leaves the result in a slot, or stops with its error, and keeps the
slots below a bound. -/
def Computes (ctx : PredCtx) (code : List PredOp) (r : Except CorrelateError Slot) (bound : Nat)
    (slot : SlotIdx) : Prop :=
  ∀ slots, ∃ slots', execOps ctx code slots = r.map (fun _ => slots') ∧
    (∀ v, r = .ok v → slots' slot = v) ∧ ∀ i : SlotIdx, i.val < bound → slots' i = slots i

section Computes

variable {ctx : PredCtx} {op : PredOp} {bound : Nat} {dst : SlotIdx}

theorem execOps_single (slots : Slots) :
    execOps ctx [op] slots = (op.value ctx slots).map (Function.update slots op.dst) := by
  unfold execOps
  cases op.value ctx slots <;> rfl

theorem Computes.single {r : Except CorrelateError Slot} (hdst : op.dst = dst)
    (hfresh : bound ≤ dst.val) (hvalue : ∀ slots, op.value ctx slots = r) :
    Computes ctx [op] r bound dst := by
  intro slots
  rw [execOps_single, hvalue, hdst]
  cases r with
  | error error => exact ⟨slots, rfl, nofun, fun _ _ => rfl⟩
  | ok v =>
      refine ⟨Function.update slots dst v, rfl, ?_, fun i hi => Function.update_of_ne ?_ ..⟩
      · rintro _ ⟨⟩
        exact Function.update_self ..
      · rintro rfl
        omega

/-- Code after code. The second part may use the results of the first one. -/
theorem Computes.append {code code' : List PredOp} {r : Except CorrelateError Slot}
    {f : Slot → Except CorrelateError Slot} {slot : SlotIdx} (h : Computes ctx code r bound slot)
    (h' : ∀ slots v, r = .ok v → slots slot = v → ∃ slots',
      execOps ctx code' slots = (f v).map (fun _ => slots') ∧
      (∀ w, f v = .ok w → slots' dst = w) ∧ ∀ i : SlotIdx, i.val < bound → slots' i = slots i) :
    Computes ctx (code ++ code') (r >>= f) bound dst := by
  intro slots
  obtain ⟨slots', hexec, hv, hkeep⟩ := h slots
  rw [execOps_append, hexec]
  cases r with
  | error error => exact ⟨slots, rfl, nofun, fun _ _ => rfl⟩
  | ok v =>
      obtain ⟨slots'', hexec', hw, hkeep'⟩ := h' slots' v rfl (hv v rfl)
      exact ⟨slots'', hexec', hw, fun i hi => (hkeep' i hi).trans (hkeep i hi)⟩

/-- One operation on the result of the code before it. -/
theorem Computes.unary {code : List PredOp} {r : Except CorrelateError Slot}
    {f : Slot → Except CorrelateError Slot} {src : SlotIdx} (h : Computes ctx code r bound src)
    (hdst : op.dst = dst) (hfresh : bound ≤ dst.val)
    (hvalue : ∀ slots, op.value ctx slots = f (slots src)) :
    Computes ctx (code ++ [op]) (r >>= f) bound dst := by
  refine h.append fun slots v _ hv => ?_
  have hslot := hvalue slots
  rw [hv] at hslot
  rw [execOps_single, hslot, hdst]
  cases f v with
  | error error => exact ⟨slots, rfl, nofun, fun _ _ => rfl⟩
  | ok w =>
      refine ⟨Function.update slots dst w, rfl, ?_, fun i hi => Function.update_of_ne ?_ ..⟩
      · rintro _ ⟨⟩
        exact Function.update_self ..
      · rintro rfl
        omega

/-- One operation on the results of two codes. -/
theorem Computes.binary {code code' : List PredOp} {r r' : Except CorrelateError Slot}
    {f : Slot → Slot → Except CorrelateError Slot} {lhs rhs : SlotIdx} {bound' : Nat}
    (h : Computes ctx code r bound lhs) (h' : Computes ctx code' r' bound' rhs)
    (hbound : bound ≤ bound') (hlhs : lhs.val < bound') (hdst : op.dst = dst)
    (hfresh : bound' ≤ dst.val)
    (hvalue : ∀ slots, op.value ctx slots = f (slots lhs) (slots rhs)) :
    Computes ctx (code ++ (code' ++ [op])) (r >>= fun a => r' >>= f a) bound dst := by
  refine h.append fun slots a _ ha => ?_
  obtain ⟨slots', hexec, hb, hkeep⟩ := h' slots
  rw [execOps_append, hexec]
  cases r' with
  | error error => exact ⟨slots, rfl, nofun, fun _ _ => rfl⟩
  | ok b =>
      have hslot := hvalue slots'
      rw [hb b rfl, hkeep lhs hlhs, ha] at hslot
      change ∃ slots'', execOps ctx [op] slots' = (f a b).map _ ∧ (∀ w, f a b = .ok w → _) ∧ _
      rw [execOps_single, hslot, hdst]
      cases f a b with
      | error error => exact ⟨slots, rfl, nofun, fun _ _ => rfl⟩
      | ok w =>
          refine ⟨Function.update slots' dst w, rfl, ?_, fun i hi => ?_⟩
          · rintro _ ⟨⟩
            exact Function.update_self ..
          · rw [Function.update_of_ne, hkeep i (hi.trans_le hbound)]
            rintro rfl
            omega

end Computes

/-- The expressions that have code: names are bound, fields exist. -/
def Supported (catalog : Catalog) (env : RuleEnv) : Expr → Prop
  | .ident name => name = "scope"
  | .present name | .absent name => (env.bindings.lookup name).isSome
  | .field (.ident name) field => ∃ ty, env.bindings.lookup name = some ty ∧
      (catalog.resolveMetricPath ty (name ++ "." ++ field)).isSome
  | .unary _ expr => Supported catalog env expr
  | .binary op left right => op ≠ .in_ ∧ Supported catalog env left ∧ Supported catalog env right
  | .field _ _ | .call _ _ | .index _ _ => False
  | _ => True

/-- What compiling an expression without an error adds. -/
structure Emits (catalog : Catalog) (env : RuleEnv) (e : Expr) (st st' : CompileState)
    (slot : SlotIdx) : Prop where
  fresh : st.next ≤ slot.val
  below : slot.val < st'.next
  diags : st'.diags = st.diags
  code : ∃ code, st'.ops = st.ops ++ code ∧
    ∀ ctx, Computes ctx code (strict catalog env ctx e) st.next slot
  written : WrittenFirst st.ops → WrittenFirst st'.ops
  result : Written st'.ops slot
  supported : Supported catalog env e

theorem hasErrors_complain (st : CompileState) (code message : String) :
    hasErrors (st.complain (err code message)).diags = true := by
  rw [CompileState.complain, hasErrors_append]
  exact Bool.or_true _

theorem lookup_of_typed {name : String}
    (h : hasErrors (if (env.bindings.lookup name).isSome then (some FieldType.int, [])
      else (none, [err "ADGL0209" "unknown correlate binding"])).2 = false) :
    (env.bindings.lookup name).isSome := by
  split at h
  · assumption
  · cases h

theorem load_dst (ty : BindingTy) (b : BindingIdx) (field : FieldIdx) (dst : SlotIdx) :
    (loadField ty b field dst).dst = dst ∧ (loadField ty b field dst).srcs = [] := by
  cases ty <;> exact ⟨rfl, rfl⟩

theorem load_value (ty : BindingTy) (b : BindingIdx) (field : FieldIdx) (dst : SlotIdx)
    (ctx : PredCtx) (slots : Slots) :
    (loadField ty b field dst).value ctx slots = ctx.binding b >>= (ty.load · field) := by
  cases ty <;> rfl

/-- The operation of a binary operator computes it. -/
theorem predOp_spec {op : BinaryOp} {lhs rhs : SlotIdx} {predOp : SlotIdx → PredOp}
    (h : op.predOp lhs rhs = some predOp) (dst : SlotIdx) :
    (predOp dst).dst = dst ∧ (predOp dst).srcs = [lhs, rhs] ∧
      ∀ ctx slots, (predOp dst).value ctx slots = op.apply (slots lhs) (slots rhs) := by
  cases op with
  | in_ => cases h
  | or | and | eq | ne | lt | le | gt | ge | add | sub | mul | div | rem =>
      obtain rfl := Option.some.inj h
      exact ⟨rfl, rfl, fun _ _ => rfl⟩

theorem emits_push {op : SlotIdx → PredOp} (h : hasErrors (st.push op).2.diags = false)
    (hdst : ∀ dst, (op dst).dst = dst) (hsrcs : ∀ dst, (op dst).srcs = [])
    (hvalue : ∀ dst ctx slots, (op dst).value ctx slots = strict catalog env ctx e)
    (hsupported : Supported catalog env e) :
    ∃ slot st', st.push op = (some slot, st') ∧ Emits catalog env e st st' slot := by
  obtain ⟨dst, hnext, hpush⟩ := push_ok h
  refine ⟨dst, _, hpush, ?_⟩
  exact {
    fresh := hnext.ge
    below := by simp [hnext]
    diags := rfl
    code := ⟨[op dst], rfl, fun ctx => .single (hdst dst) hnext.ge (hvalue dst ctx)⟩
    written := fun hops => hops.push (by simp [hsrcs])
    result := ⟨op dst, by simp, hdst dst⟩
    supported := hsupported }

/-- Compiling a binary expression without an error compiles its operands so. -/
theorem noErrors_operands {op : BinaryOp} {left right : Expr}
    (h : hasErrors (compileExpr catalog env (.binary op left right) st).2.diags = false) :
    hasErrors (compileExpr catalog env left st).2.diags = false ∧
    ∀ lhs st', compileExpr catalog env left st = (some lhs, st') →
      hasErrors (compileExpr catalog env right st').2.diags = false := by
  unfold compileExpr at h
  rcases hl : compileExpr catalog env left st with ⟨_ | lhs, st'⟩
  · rw [hl] at h
    exact ⟨h, nofun⟩
  · rw [hl] at h
    have hright : hasErrors (compileExpr catalog env right st').2.diags = false := by
      rcases hr : compileExpr catalog env right st' with ⟨_ | rhs, st''⟩
      · simp only [hr] at h
        exact h
      · simp only [hr] at h
        rcases hop : op.predOp lhs rhs with _ | predOp
        · simp only [hop, rejectIntlistPredicateUse, hasErrors_complain] at h
          cases h
        · rw [hop] at h
          obtain ⟨ds, hds⟩ := push_diags st'' predOp
          change hasErrors (st''.push predOp).2.diags = false at h
          rw [hds, hasErrors_append] at h
          exact (Bool.or_eq_false_iff.mp h).1
    refine ⟨noErrors_of_compileExpr hright, ?_⟩
    rintro _ _ ⟨⟩
    exact hright

/-- The expression is compiled to code that computes it, wherever it is typed and compiled
without an error. -/
def CompiledRight (catalog : Catalog) (env : RuleEnv) (e : Expr) : Prop :=
  ∀ ⦃st⦄, hasErrors (inferExprType catalog env e).2 = false →
    hasErrors (compileExpr catalog env e st).2.diags = false →
    ∃ slot st', compileExpr catalog env e st = (some slot, st') ∧
      Emits catalog env e st st' slot

theorem ident_compiledRight (name : String) : CompiledRight catalog env (.ident name) := by
  intro st _ h
  unfold compileExpr at h ⊢
  split at h
  · rename_i hscope
    rw [if_pos hscope]
    refine emits_push h (fun _ => rfl) (fun _ => rfl) (fun _ _ _ => ?_) hscope
    unfold strict
    rw [if_pos hscope]
    rfl
  · rw [hasErrors_complain] at h
    cases h

theorem field_compiledRight (id name : String) :
    CompiledRight catalog env (.field (.ident id) name) := by
  intro st htype h
  unfold inferExprType at htype
  unfold compileExpr at h ⊢
  rcases hty : env.bindings.lookup id with _ | ty
  · simp only [hty] at htype
    cases htype
  · simp only [hty] at htype h ⊢
    rcases hfield : catalog.resolveMetricPath ty (id ++ "." ++ name) with
      _ | ⟨fieldIdx, fieldTy⟩
    · simp only [hfield] at htype
      cases htype
    · simp only [hfield] at htype h ⊢
      split at htype
      · cases htype
      · rename_i hlist
        simp only [hlist] at h ⊢
        refine emits_push h (fun dst => (load_dst ..).1) (fun dst => (load_dst ..).2)
          (fun dst ctx slots => ?_) ⟨ty, hty, by rw [hfield]; rfl⟩
        simp only [load_value, strict, fieldOf, hty, hfield]
        rfl

theorem unary_compiledRight (op : UnaryOp) {expr : Expr}
    (ih : CompiledRight catalog env expr) : CompiledRight catalog env (.unary op expr) := by
  intro st htype h
  cases op
  unfold compileExpr at h ⊢
  have hexpr : hasErrors (compileExpr catalog env expr st).2.diags = false := by
    rcases hc : compileExpr catalog env expr st with ⟨_ | src, st'⟩
    · rw [hc] at h
      exact h
    · rw [hc] at h
      obtain ⟨ds, hds⟩ := push_diags st' (.not src)
      change hasErrors (st'.push (.not src)).2.diags = false at h
      rw [hds, hasErrors_append] at h
      exact (Bool.or_eq_false_iff.mp h).1
  obtain ⟨src, st', hc, hemits⟩ := ih htype hexpr
  rw [hc] at h ⊢
  obtain ⟨code, hops, hcode⟩ := hemits.code
  obtain ⟨dst, hnext, hpush⟩ := push_ok h
  refine ⟨dst, _, hpush, ?_⟩
  have hfresh : st.next ≤ dst.val := hnext ▸ (hemits.fresh.trans hemits.below.le)
  exact {
    fresh := hfresh
    below := by simp [hnext]
    diags := hemits.diags
    code := ⟨code ++ [.not src dst], by simp [hops], fun ctx =>
      (hcode ctx).unary (f := fun v => do return .truth (← asTruth "NOT" v).not) rfl hfresh
        fun slots => rfl⟩
    written := fun hst => (hemits.written hst).push (by
      intro s hs
      obtain rfl := List.mem_singleton.mp hs
      exact hemits.result)
    result := ⟨.not src dst, by simp, rfl⟩
    supported := hemits.supported }

theorem binary_compiledRight (op : BinaryOp) {left right : Expr}
    (ihl : CompiledRight catalog env left) (ihr : CompiledRight catalog env right) :
    CompiledRight catalog env (.binary op left right) := by
  intro st htype h
  have htypes : hasErrors (inferExprType catalog env left).2 = false ∧
      hasErrors (inferExprType catalog env right).2 = false := by
    unfold inferExprType at htype
    simp only [hasErrors_append, Bool.or_eq_false_iff] at htype
    exact htype.1
  obtain ⟨hleft, hright⟩ := noErrors_operands h
  obtain ⟨lhs, st', hl, hlhs⟩ := ihl htypes.1 hleft
  obtain ⟨rhs, st'', hr, hrhs⟩ := ihr htypes.2 (hright lhs st' hl)
  unfold compileExpr at h ⊢
  simp only [hl, hr] at h ⊢
  rcases hop : op.predOp lhs rhs with _ | predOp
  · rw [hop] at h
    simp only [rejectIntlistPredicateUse, hasErrors_complain] at h
    cases h
  · rw [hop] at h
    obtain ⟨code, hops, hcode⟩ := hlhs.code
    obtain ⟨code', hops', hcode'⟩ := hrhs.code
    obtain ⟨dst, hnext, hpush⟩ := push_ok h
    obtain ⟨hdst, hsrcs, hvalue⟩ := predOp_spec hop dst
    have hin : op ≠ .in_ := by
      rintro rfl
      cases hop
    have hmid : st'.next ≤ dst.val := hnext ▸ hrhs.fresh.trans hrhs.below.le
    have hfirst : st.next ≤ st'.next := hlhs.fresh.trans hlhs.below.le
    refine ⟨dst, _, hpush, ?_⟩
    exact {
      fresh := hfirst.trans hmid
      below := by simp [hnext]
      diags := hrhs.diags.trans hlhs.diags
      code := ⟨code ++ (code' ++ [predOp dst]), by simp [hops, hops'], fun ctx =>
        (hcode ctx).binary (hcode' ctx) hfirst hlhs.below hdst hmid (hvalue ctx)⟩
      written := fun hst => (hrhs.written (hlhs.written hst)).push (by
        intro s hs
        rw [hsrcs] at hs
        obtain rfl | hs := List.mem_cons.mp hs
        · rw [hops']
          exact hlhs.result.append _
        · obtain rfl := List.mem_singleton.mp hs
          exact hrhs.result)
      result := ⟨predOp dst, by simp, hdst⟩
      supported := ⟨hin, hlhs.supported, hrhs.supported⟩ }

/-- An expression that is typed and compiled without an error is compiled to code
that computes it. -/
theorem compileExpr_emits (htype : hasErrors (inferExprType catalog env e).2 = false)
    (h : hasErrors (compileExpr catalog env e st).2.diags = false) :
    ∃ slot st', compileExpr catalog env e st = (some slot, st') ∧
      Emits catalog env e st st' slot := by
  induction e generalizing st with
  | int v => exact emits_push h (fun _ => rfl) (fun _ => rfl) (fun _ _ _ => rfl) trivial
  | duration ms => exact emits_push h (fun _ => rfl) (fun _ => rfl) (fun _ _ _ => rfl) trivial
  | string s => exact emits_push h (fun _ => rfl) (fun _ => rfl) (fun _ _ _ => rfl) trivial
  | bool b => exact emits_push h (fun _ => rfl) (fun _ => rfl) (fun _ _ _ => rfl) trivial
  | present name | absent name =>
      refine emits_push h (fun _ => rfl) (fun _ => rfl) (fun _ _ _ => rfl) ?_
      exact lookup_of_typed htype
  | ident name => exact ident_compiledRight name htype h
  | call | index =>
      unfold compileExpr at h
      rw [hasErrors_complain] at h
      cases h
  | field base name =>
      cases base with
      | ident id => exact field_compiledRight id name htype h
      | int | duration | string | bool | present | absent | unary | binary | field | call | index =>
          cases htype
  | unary op expr ih => exact unary_compiledRight op (fun _ ht hc => ih ht hc) htype h
  | binary op left right ihl ihr =>
      exact binary_compiledRight op (fun _ ht hc => ihl ht hc) (fun _ ht hc => ihr ht hc) htype h

/-- A predicate that is compiled without an error has the strict meaning of its
expression, and reads no slot before it is written. -/
theorem compilePredicate_correct (htype : hasErrors (inferExprType catalog env e).2 = false)
    (h : hasErrors (compilePredicate catalog env e).2 = false) :
    Supported catalog env e ∧ (compilePredicate catalog env e).1.WellWritten ∧
    ∀ ctx, evalPredicate (compilePredicate catalog env e).1 ctx =
      strict catalog env ctx e >>= asTruth "RESULT" := by
  unfold compilePredicate at h ⊢
  obtain ⟨slot, st', hc, hemits⟩ := compileExpr_emits htype h
  rw [hc]
  refine ⟨hemits.supported, ⟨hemits.written ?_, hemits.result⟩, fun ctx => ?_⟩
  · intro i op hop
    cases hop
  · obtain ⟨code, hops, hcode⟩ := hemits.code
    obtain ⟨slots', hexec, hslot, -⟩ := hcode ctx fun _ => .empty
    have hrun : execOps ctx st'.ops (fun _ => .empty) =
        (strict catalog env ctx e).map fun _ => slots' := hops ▸ hexec
    unfold evalPredicate
    rw [hrun]
    cases hv : strict catalog env ctx e with
    | error error => rfl
    | ok v =>
        rw [← hslot v hv]
        rfl

end Compile

end Adgl
