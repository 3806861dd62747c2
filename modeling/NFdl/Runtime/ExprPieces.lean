import NFdl.Runtime.DescentBodies
import NFdl.Lib.Pieces

/-!
# Compiled code is made of expressions

Only expressions are compiled to arithmetic. All other instructions of a compiled protocol
read, copy, compare, check or emit. So the code of a protocol is composed of the code of
its expressions, where the compiler emits them, and of such instructions; control comes
into the code of an expression at its first instruction only.
-/

namespace NFdl

/-- The operator has a result for all operands. -/
def BytecodeBinOp.IsTotal : BytecodeBinOp → Prop
  | .add | .mul | .shl | .shr => False
  | _ => True

/-- The instruction computes nothing that could leave the machine type. -/
def Instruction.IsTotal : Instruction → Prop
  | .binOp op _ _ _ => op.IsTotal
  | _ => True

/-- The code of an expression at the place where the compiler emits it, with slots that the
compiler has counted. -/
inductive ExprPiece (proto : Protocol) : Code → ℕ → Prop
  | mk {e cx s} : ExprAt proto e cx s → (s.emitExpr cx e).2.slot ≤ (emitProtocol proto).slot →
      ExprPiece proto (s.exprCode cx e) s.instructions.length

/-- The code consists of expressions of the protocol and of total instructions. -/
abbrev MadeOfExprs (proto : Protocol) : Code → ℕ → Prop :=
  Structured.Composed (ExprPiece proto) fun i => i.1.IsTotal

section Items

variable {proto : Protocol} {remaining : ℕ} {namePrefix fieldPrefix : String} {body : MatchArm}
  {s t : EmitState} {field : Field} {cx : EmitContext} {base : ℕ}

theorem plain_made {i : Instruction} {h : ¬ i.IsJump} (hi : i.IsTotal) :
    MadeOfExprs proto (plain i h) base :=
  .instr hi

theorem readThen_made {read : Instruction} {h : ¬ read.IsJump} (hread : read.IsTotal) :
    MadeOfExprs proto (readThen cx read h) base :=
  .seq (plain_made hread) (plain_made trivial)

theorem expr_made {e : Expr} (hat : ExprAt proto e cx s)
    (hslot : (s.emitExpr cx e).2.slot ≤ (emitProtocol proto).slot) :
    MadeOfExprs proto (s.exprCode cx e) s.instructions.length :=
  .piece (.mk hat hslot)

/-- An expression and an instruction behind it. -/
theorem exprThen_made {e : Expr} {i : Instruction} {h : ¬ i.IsJump} (hat : ExprAt proto e cx s)
    (hslot : (s.emitExpr cx e).2.slot ≤ (emitProtocol proto).slot) (hi : i.IsTotal) :
    MadeOfExprs proto ((s.exprCode cx e).seq (plain i h)) s.instructions.length :=
  .seq (expr_made hat hslot) (plain_made hi)

/-- Slots that are taken for an item are counted. -/
theorem item_slot_le {item : BodyItem} (hbody : BodyAt proto remaining namePrefix body s)
    (hitem : ItemAt (proto.context remaining) namePrefix body s item t) :
    (item.emitter (proto.context remaining) namePrefix t).slot ≤ (emitProtocol proto).slot :=
  (hbody.later (hitem.later (.refl _))).slot_le

theorem field_slot_le (hbody : BodyAt proto remaining namePrefix body s)
    (hfield : FieldAt (proto.context remaining) namePrefix body s fieldPrefix field t) :
    (emitFieldBytecode (proto.context remaining) field fieldPrefix t).slot ≤
      (emitProtocol proto).slot :=
  (hbody.later (hfield.later (.refl _))).slot_le

theorem tag_slot_le {tag : Expr} {arms : List MatchArm} {order : ℕ}
    (hbody : BodyAt proto remaining namePrefix body s)
    (hitem : ItemAt (proto.context remaining) namePrefix body s
      (.matchItem (.mk tag arms order)) t) :
    (t.emitExpr (proto.context remaining) tag).2.slot ≤ (emitProtocol proto).slot := by
  refine Nat.le_trans ?_ (item_slot_le hbody hitem)
  show _ ≤ (matchEmitter (proto.context remaining) namePrefix (.mk tag arms order) t).slot
  unfold matchEmitter
  exact (emitMatch_behind
    (armEmitters_emit (proto.context_blocks remaining) namePrefix arms) t).slot_le

/-- The slots of a field are taken one after another. -/
theorem inlineStart_slot_le (proto : Protocol) (remaining : ℕ) (fieldPrefix : String)
    (field : Field) (t : EmitState) :
    (inlineStart (proto.context (remaining + 1)) fieldPrefix field t).slot ≤
      (readState proto remaining fieldPrefix field t).slot :=
  (emitRead_emits (proto.context (remaining + 1))
    (proto.context_blocks (remaining + 1) _ rfl) field _ _ _ _).slot_le

/-- Items that are emitted one after another. -/
theorem along_made {α τ : Type*} {emit : τ → α → τ} {code : α → τ → Code} (address : τ → ℕ)
    {items : List α} {s : τ} (haddress : ∀ a t, address (emit t a) = address t + (code a t).length)
    (hitems : ∀ before a after, items = before ++ a :: after →
      MadeOfExprs proto (code a (before.foldl emit s)) (address (before.foldl emit s))) :
    MadeOfExprs proto (codeAlong emit code items s) (address s) := by
  induction items generalizing s with
  | nil => exact .nil
  | cons a items ih =>
      refine .seq (hitems [] a items rfl) ?_
      rw [← haddress]
      refine ih fun before b after hsplit => ?_
      exact hitems (a :: before) b after (by rw [hsplit, List.cons_append])

theorem check_made {validate : Option Validate}
    (hat : ∀ v, validate = some v → ExprAt proto v.expr cx s)
    (hslot : (emitCheck cx validate s).slot ≤ (emitProtocol proto).slot) :
    MadeOfExprs proto (checkCode cx validate s) s.instructions.length := by
  cases validate with
  | none => exact .nil
  | some v => exact exprThen_made (hat v rfl) hslot trivial

/-- The code of all bodies with so many levels of inlining left consists of expressions. -/
def BodiesMade (proto : Protocol) (remaining : ℕ) : Prop :=
  ∀ {namePrefix body s}, BodyAt proto remaining namePrefix body s →
    MadeOfExprs proto
      ((armCode (proto.context remaining) (proto.inlines remaining) namePrefix body).2.2 s)
      s.instructions.length

/-- The read of a field. -/
theorem read_made (hinlines : BodiesMade proto remaining)
    (hbody : BodyAt proto (remaining + 1) namePrefix body s)
    (hfield : FieldAt (proto.context (remaining + 1)) namePrefix body s fieldPrefix field t)
    (readSlot : ℕ) :
    MadeOfExprs proto (readCode (proto.context (remaining + 1)) (proto.inlines (remaining + 1))
        field fieldPrefix (joinName fieldPrefix field.name) readSlot
        (inlineStart (proto.context (remaining + 1)) fieldPrefix field t))
      (inlineStart (proto.context (remaining + 1)) fieldPrefix field t).instructions.length := by
  cases hty : field.ty with
  | bytes len =>
      have hlen : ((inlineStart (proto.context (remaining + 1)) fieldPrefix field t).emitExpr
          (proto.context (remaining + 1)) len).2.slot ≤
            (readState proto remaining fieldPrefix field t).slot := by
        unfold readState emitRead
        rw [hty]
        exact Nat.le_succ _
      have hslot := Nat.le_trans (Nat.le_trans hlen
        (readState_slot_le proto remaining fieldPrefix field t)) (field_slot_le hbody hfield)
      rw [readCode_bytes hty]
      exact .seq (expr_made (.len hbody hfield hty) hslot) (readThen_made trivial)
  | messageRef refName =>
      cases hmsg : proto.messages.find? (·.name == refName) with
      | some msg =>
          rw [readCode_inlined hty hmsg]
          have hmade := hinlines (.inlined hbody hfield hty hmsg)
          rw [← messageBodyCode_eq] at hmade
          show MadeOfExprs proto (messageCode proto.messages currentOffsetSlot
            (proto.endian == "little") remaining _ msg _) _
          rw [messageCode_eq]
          exact hmade
      | none =>
          rw [readCode_unknown hty hmsg]
          exact readThen_made trivial
  | _ =>
      unfold readCode
      rw [hty]
      exact readThen_made trivial

/-- A field whose message can still be inlined. -/
theorem field_succ_made (hinlines : BodiesMade proto remaining)
    (hbody : BodyAt proto (remaining + 1) namePrefix body s)
    (hfield : FieldAt (proto.context (remaining + 1)) namePrefix body s fieldPrefix field t) :
    MadeOfExprs proto (fieldCode (proto.context (remaining + 1)) (proto.inlines (remaining + 1))
      field fieldPrefix t) t.instructions.length := by
  let cx := proto.context (remaining + 1)
  have hfinal := field_slot_le hbody hfield
  have hcontent : MadeOfExprs proto (fieldBodyCode cx (messageEmitter proto.messages
      currentOffsetSlot (proto.endian == "little") remaining) (proto.inlines (remaining + 1)) field
        fieldPrefix (emitCondition cx field t).2)
      (emitCondition cx field t).2.instructions.length := by
    rw [fieldBodyCode_eq]
    refine .seq (.seq (read_made hinlines hbody hfield _) ?_) ?_
    · have hcheck : MadeOfExprs proto (checkCode cx field.validate
          (readState proto remaining fieldPrefix field t))
            (readState proto remaining fieldPrefix field t).instructions.length :=
        check_made (fun v hv => .check hbody hfield hv) (by rw [check_slot]; exact hfinal)
      rw [(readState_coded proto remaining fieldPrefix field t).length_eq] at hcheck
      exact hcheck
    · split
      · exact .nil
      · exact plain_made trivial
  cases hcond : field.conditional with
  | none =>
      have hstart : (emitCondition cx field t).2 = t := by
        unfold emitCondition
        rw [hcond]
      rw [hstart] at hcontent
      rw [fieldCode_always rfl hcond]
      exact hcontent
  | some cond =>
      have hslot : (t.emitExpr cx cond).2.slot ≤ (emitProtocol proto).slot := by
        have hstart : (inlineStart cx fieldPrefix field t).slot = (t.emitExpr cx cond).2.slot := by
          unfold inlineStart emitCondition
          rw [hcond]
          rfl
        rw [← hstart]
        exact Nat.le_trans (Nat.le_trans (inlineStart_slot_le proto remaining fieldPrefix field t)
          (readState_slot_le proto remaining fieldPrefix field t)) hfinal
      rw [fieldCode_conditional rfl hcond]
      rw [emitCondition_length cx hcond] at hcontent
      exact .seq (expr_made (.condition hbody hfield hcond) hslot) (.skip hcontent)

theorem field_made (hinlines : ∀ r, remaining = r + 1 → BodiesMade proto r)
    (hbody : BodyAt proto remaining namePrefix body s)
    (hfield : FieldAt (proto.context remaining) namePrefix body s fieldPrefix field t) :
    MadeOfExprs proto (fieldCode (proto.context remaining) (proto.inlines remaining) field
      fieldPrefix t) t.instructions.length := by
  cases remaining with
  | zero => exact readThen_made trivial
  | succ remaining => exact field_succ_made (hinlines remaining rfl) hbody hfield

/-- The state behind the initialisers of a loop. -/
def initsEnd (cx : EmitContext) (namePrefix : String) (lp : Loop) (s : EmitState) : EmitState :=
  (lp.carries.foldl (emitCarry cx (joinName namePrefix lp.name)) (∅, s)).2

/-- The state behind the fields of a loop. -/
def loopFieldsEnd (cx : EmitContext) (namePrefix : String) (lp : Loop) (s : EmitState) :
    EmitState :=
  lp.body.foldl (fun s field => emitFieldBytecode cx field (joinName namePrefix lp.name) s)
    (loopBodyStart cx namePrefix lp s)

section Loops

variable {lp : Loop}

theorem nexts_slot_le (hbody : BodyAt proto remaining namePrefix body s)
    (hitem : ItemAt (proto.context remaining) namePrefix body s (.loop lp) t) :
    (lp.nexts.foldl (emitNext (proto.context remaining) (joinName namePrefix lp.name))
      (loopFieldsEnd (proto.context remaining) namePrefix lp t)).slot ≤
        (emitProtocol proto).slot := by
  let cx := proto.context remaining
  let loopPrefix := joinName namePrefix lp.name
  let inits := initsEnd cx namePrefix lp t
  let nexts := lp.nexts.foldl (emitNext cx loopPrefix) (loopFieldsEnd cx namePrefix lp t)
  have hend : (emitLoop cx namePrefix lp t).slot = nexts.slot :=
    registerCarries_slot loopPrefix (lp.carries.foldl (emitCarry cx loopPrefix) (∅, t)).1
      lp.carries ((nexts.push (.jump (asU16 inits.instructions.length))).landHere
        (inits.emitExpr cx lp.condition).2.instructions.length)
  rw [← hend]
  exact item_slot_le hbody hitem

/-- The slots of a loop are taken in the order of its parts. -/
theorem loopCondition_slot_le (hbody : BodyAt proto remaining namePrefix body s)
    (hitem : ItemAt (proto.context remaining) namePrefix body s (.loop lp) t) :
    ((initsEnd (proto.context remaining) namePrefix lp t).emitExpr (proto.context remaining)
      lp.condition).2.slot ≤ (emitProtocol proto).slot := by
  let loopPrefix := joinName namePrefix lp.name
  have hfields := Emits.foldl (fun field => emitField_emits (proto.context_blocks remaining)
    field loopPrefix) lp.body (loopBodyStart (proto.context remaining) namePrefix lp t)
  have hlater := Emits.foldl (fun nxt => emitNext_emits (proto.context remaining) loopPrefix nxt)
    lp.nexts (loopFieldsEnd (proto.context remaining) namePrefix lp t)
  exact Nat.le_trans hfields.slot_le (Nat.le_trans hlater.slot_le (nexts_slot_le hbody hitem))

theorem inits_made (hbody : BodyAt proto remaining namePrefix body s)
    (hitem : ItemAt (proto.context remaining) namePrefix body s (.loop lp) t) :
    MadeOfExprs proto (codeAlong (emitCarry (proto.context remaining)
        (joinName namePrefix lp.name))
      (fun carry acc => acc.2.exprCode (proto.context remaining) carry.init) lp.carries (∅, t))
      t.instructions.length := by
  let cx := proto.context remaining
  let loopPrefix := joinName namePrefix lp.name
  refine along_made (fun acc : SlotMap × EmitState => acc.2.instructions.length) ?_ ?_
  · intro carry acc
    exact (Coded.expr acc.2 cx carry.init).length_eq
  · intro before carry after hsplit
    refine expr_made (.init hbody hitem hsplit) ?_
    have hcarry := (emitCarries_emits cx loopPrefix after
      (emitCarry cx loopPrefix (before.foldl (emitCarry cx loopPrefix) (∅, t)) carry)).slot_le
    have hall : (after.foldl (emitCarry cx loopPrefix) (emitCarry cx loopPrefix
        (before.foldl (emitCarry cx loopPrefix) (∅, t)) carry)).2 =
          initsEnd cx namePrefix lp t := by
      unfold initsEnd
      rw [hsplit, List.foldl_append, List.foldl_cons]
    rw [hall] at hcarry
    exact Nat.le_trans hcarry
      (Nat.le_trans (emitExpr_slot_le ..) (loopCondition_slot_le hbody hitem))

theorem nexts_made (hbody : BodyAt proto remaining namePrefix body s)
    (hitem : ItemAt (proto.context remaining) namePrefix body s (.loop lp) t) :
    MadeOfExprs proto (codeAlong (emitNext (proto.context remaining) (joinName namePrefix lp.name))
      (nextCode (proto.context remaining) (joinName namePrefix lp.name)) lp.nexts
        (loopFieldsEnd (proto.context remaining) namePrefix lp t))
      (loopFieldsEnd (proto.context remaining) namePrefix lp t).instructions.length := by
  let cx := proto.context remaining
  let loopPrefix := joinName namePrefix lp.name
  let fields := loopFieldsEnd cx namePrefix lp t
  refine along_made (fun s : EmitState => s.instructions.length) ?_ ?_
  · intro nxt u
    exact (emitNext_codes loopPrefix nxt u).length_eq
  · intro before nxt after hsplit
    refine exprThen_made (.nextValue hbody hitem hsplit) ?_ trivial
    have hnext := (Emits.foldl (fun nxt => emitNext_emits cx loopPrefix nxt) after
      (emitNext cx loopPrefix (before.foldl (emitNext cx loopPrefix) fields) nxt)).slot_le
    have hall : after.foldl (emitNext cx loopPrefix) (emitNext cx loopPrefix
        (before.foldl (emitNext cx loopPrefix) fields) nxt) =
          lp.nexts.foldl (emitNext cx loopPrefix) fields := by
      rw [hsplit, List.foldl_append, List.foldl_cons]
    dsimp only at hnext
    rw [hall] at hnext
    exact Nat.le_trans hnext (nexts_slot_le hbody hitem)

/-- A loop: its initialisers, its condition, its fields and its `next` statements. -/
theorem loop_made (hbody : BodyAt proto remaining namePrefix body s)
    (hitem : ItemAt (proto.context remaining) namePrefix body s (.loop lp) t)
    (hfields : ∀ {fieldPrefix field u},
      FieldAt (proto.context remaining) namePrefix body s fieldPrefix field u →
      MadeOfExprs proto (fieldCode (proto.context remaining) (proto.inlines remaining) field
        fieldPrefix u) u.instructions.length) :
    MadeOfExprs proto (loopCode (proto.context remaining) (proto.inlines remaining) namePrefix lp t)
      t.instructions.length := by
  let cx := proto.context remaining
  let loopPrefix := joinName namePrefix lp.name
  let inits := (lp.carries.foldl (emitCarry cx loopPrefix) (∅, t)).2
  let start := loopBodyStart cx namePrefix lp t
  have hcodes : ∀ field, Codes (emitFieldBytecode cx field loopPrefix)
      (fieldCode cx (proto.inlines remaining) field loopPrefix) := fun field =>
    emitField_codes (proto.context_code remaining) field loopPrefix
  have hstart : start.instructions.length =
      inits.instructions.length + (inits.exprCode cx lp.condition).length + 1 := by
    rw [← (Coded.expr inits cx lp.condition).length_eq]
    exact List.length_append
  refine .seq (inits_made hbody hitem) ?_
  rw [← (emitCarries_codes cx loopPrefix lp.carries (∅, t)).length_eq]
  refine .loop (expr_made (.loop hbody hitem) (loopCondition_slot_le hbody hitem)) (.seq ?_ ?_)
  · rw [← hstart]
    refine along_made (fun s : EmitState => s.instructions.length) ?_ ?_
    · intro field s
      exact (hcodes field s).length_eq
    · intro before field after hsplit
      exact hfields (.looped hitem hsplit)
  · rw [← hstart, ← (Coded.along (fun field _ => hcodes field) start).length_eq]
    exact nexts_made hbody hitem

end Loops

/-- The tests and the bodies of arms that are emitted from `s` on. -/
theorem arms_made {inlineCode : String → Message → CodeTable} (hcx : InlinesCode cx inlineCode)
    {tagSlot : ℕ} {arms : List MatchArm} {waiting : Option CodeTable}
    (harms : ∀ before arm after, arms = before ++ arm :: after → IsEmitted arm after →
      MadeOfExprs proto ((armCode cx inlineCode namePrefix arm).2.2
          (armStart cx namePrefix tagSlot before arm after s))
        (armStart cx namePrefix tagSlot before arm after s).instructions.length)
    (hwaiting : ∀ code, waiting = some code → (∀ arm ∈ arms, arm.case ≠ none) →
      MadeOfExprs proto (code (afterArms cx namePrefix tagSlot arms s))
        (afterArms cx namePrefix tagSlot arms s).instructions.length) :
    MadeOfExprs proto (armsCodeFrom cx inlineCode namePrefix tagSlot arms s waiting)
      s.instructions.length := by
  induction arms generalizing s waiting with
  | nil =>
      cases waiting with
      | none => exact .nil
      | some code => exact hwaiting code rfl (List.forall_mem_nil _)
  | cons arm arms ih =>
      have hlater : ∀ before a after, arms = before ++ a :: after → IsEmitted a after →
          MadeOfExprs proto ((armCode cx inlineCode namePrefix a).2.2 (armStart cx namePrefix
              tagSlot before a after (afterArm cx namePrefix tagSlot s arm)))
            (armStart cx namePrefix tagSlot before a after
              (afterArm cx namePrefix tagSlot s arm)).instructions.length := by
        intro before a after hsplit hemitted
        rw [← armStart_cons]
        exact harms (arm :: before) a after (by rw [hsplit, List.cons_append]) hemitted
      cases hcase : arm.case with
      | none =>
          rw [afterArm_default hcase] at hlater
          rw [armsCodeFrom_default hcase]
          refine ih hlater ?_
          rintro code hcode hcases
          obtain rfl := Option.some.inj hcode
          have harm := harms [] arm arms rfl fun _ => hcases
          rw [armStart_default hcase, List.nil_append, afterArms_cons, afterArm_default hcase]
            at harm
          exact harm
      | some cv =>
          have harm := harms [] arm arms rfl fun hnone => absurd hnone (by rw [hcase]; simp)
          have hrest := ih hlater fun code hcode hcases => by
            rw [← afterArms_cons]
            refine hwaiting code hcode (List.forall_mem_cons.mpr ⟨?_, hcases⟩)
            rw [hcase]
            exact Option.some_ne_none cv
          rw [armStart_case hcase, armBodyStart_length] at harm
          rw [afterArm_address hcx hcase] at hrest
          rw [armsCodeFrom_case hcase]
          refine .seq (.seq (plain_made trivial) (plain_made trivial)) (.choose harm ?_)
          have haddress : ∀ base len, base + 4 + len = base + 2 + len + 2 := fun _ _ => by omega
          rw [haddress] at hrest
          exact hrest

end Items

section Bodies

variable {proto : Protocol} {program : BytecodeProgram} {fieldMap : SlotMap} {remaining : ℕ}

/-- One level of inlining. -/
theorem bodies_made_step (hinlines : ∀ r, remaining = r + 1 → BodiesMade proto r) :
    BodiesMade proto remaining := by
  intro namePrefix body s hbody
  -- The arms of a match are smaller bodies at the same level.
  induction hsize : sizeOf body using Nat.strongRecOn generalizing namePrefix body s with
  | ind size ih =>
      subst hsize
      let cx := proto.context remaining
      rw [armCode_items]
      refine along_made (fun s : EmitState => s.instructions.length) ?_ ?_
      · intro item t
        exact (item.emitter_codes (proto.context_code remaining) namePrefix t).length_eq
      · intro before item after hitems
        have hitem : ItemAt cx namePrefix body s item _ := ⟨before, after, hitems, rfl⟩
        have hmem : item ∈ body.items := hitems ▸ List.mem_append_right _ (List.mem_cons_self ..)
        cases item with
        | field f => exact field_made hinlines hbody (.direct hitem)
        | letItem l =>
            have hslot := item_slot_le hbody hitem
            exact exprThen_made (.letItem hbody hitem) (Nat.le_of_succ_le hslot) trivial
        | validate v =>
            exact exprThen_made (.validate hbody hitem) (item_slot_le hbody hitem) trivial
        | loop lp => exact loop_made hbody hitem fun hfield => field_made hinlines hbody hfield
        | matchItem stmt =>
            obtain ⟨tag, arms, order⟩ := stmt
            show MadeOfExprs proto (matchStmtCode cx _ namePrefix (.mk tag arms order) _) _
            rw [matchStmtCode, matchCode, armCodes_eq_map]
            refine .seq (expr_made (.tag hbody hitem) (tag_slot_le hbody hitem)) ?_
            rw [← (Coded.expr _ cx tag).length_eq]
            refine arms_made (proto.context_code remaining) (fun before' arm after' hsplit
              hemitted => ?_) (by simp)
            have hsmaller := arm_sizeOf_lt hmem
              (hsplit ▸ List.mem_append_right _ (List.mem_cons_self ..) : arm ∈ arms)
            subst hsplit
            exact ih (sizeOf arm) hsmaller (.arm hbody hitem hemitted) rfl

theorem bodies_made (proto : Protocol) (remaining : ℕ) : BodiesMade proto remaining := by
  induction remaining with
  | zero => exact bodies_made_step fun r hr => absurd hr (Nat.succ_ne_zero r).symm
  | succ remaining ih =>
      refine bodies_made_step fun r hr => ?_
      obtain rfl := Nat.succ.inj hr
      exact ih

/-- The code of a protocol consists of expressions and of total instructions. -/
theorem protocolCode_made (proto : Protocol) : MadeOfExprs proto (protocolCode proto) 0 := by
  unfold protocolCode
  refine .seq (.seq (plain_made trivial) ?_) (plain_made trivial)
  cases hroot : proto.messages[rootMessageIndex proto]? with
  | none => exact .nil
  | some msg =>
      have hmade := bodies_made proto (maxRefDepth + 1) (.root hroot)
      dsimp only
      rw [messageCode_eq, messageBodyCode_eq]
      exact hmade

end Bodies

end NFdl
