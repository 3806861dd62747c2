import NFdl.Runtime.Leaves

/-!
# The slots of compiled code

The slot counter of the compiler bounds every slot that a name stands for and
every slot that an instruction mentions. The bound is not strict: the result
slot of a ternary and the slot of an empty referenced message need not be
allocated. Patching a jump changes no slot.
-/

namespace NFdl

/-- The slots that an instruction mentions. -/
def Instruction.slots : Instruction → List Nat
  | .readU8 slot | .readU16 slot _ | .readU24 slot _ | .readU32 slot _ | .readBits _ slot
  | .readRest _ slot | .validate slot _ | .emitField _ slot | .loadConst _ slot
  | .updateOffset slot | .jumpIfZero slot _ => [slot]
  | .readSlice lenSlot dstSlot => [lenSlot, dstSlot]
  | .binOp _ left right dst => [left, right, dst]
  | .unaryOp _ src dst | .copySlot src dst => [src, dst]
  | .jump _ | .ret => []

/-- Every slot in a table is at most `n`. -/
def TableWithin (table : SlotMap) (n : Nat) : Prop :=
  ∀ name slot, table.lookup name = some slot → slot ≤ n

theorem TableWithin.mono {table : SlotMap} {n n' : Nat} (h : TableWithin table n) (hle : n ≤ n') :
    TableWithin table n' := fun name slot hslot => Nat.le_trans (h name slot hslot) hle

theorem TableWithin.empty (n : Nat) : TableWithin ∅ n := fun name slot h => by simp at h

theorem TableWithin.insert {table : SlotMap} {n slot : Nat} (h : TableWithin table n) (name : String)
    (hslot : slot ≤ n) : TableWithin (table.insert name slot) n := by
  intro name' slot' hlookup
  by_cases hname : name' = name
  · subst hname
    rw [AList.lookup_insert, Option.some.injEq] at hlookup
    omega
  · rw [AList.lookup_insert_ne hname] at hlookup
    exact h name' slot' hlookup

/-- Every instruction mentions slots up to `n` only. -/
def CodeWithin (code : List Instruction) (n : Nat) : Prop :=
  ∀ i ∈ code, ∀ slot ∈ i.slots, slot ≤ n

namespace CodeWithin

variable {a b : List Instruction} {n n' : Nat}

theorem mono (h : CodeWithin a n) (hle : n ≤ n') : CodeWithin a n' :=
  fun i hi slot hslot => Nat.le_trans (h i hi slot hslot) hle

theorem append (ha : CodeWithin a n) (hb : CodeWithin b n) : CodeWithin (a ++ b) n :=
  List.forall_mem_append.mpr ⟨ha, hb⟩

theorem singleton {i : Instruction} (h : ∀ slot ∈ i.slots, slot ≤ n) : CodeWithin [i] n :=
  List.forall_mem_singleton.mpr h

/-- Changing an instruction to one with the same slots. -/
theorem modify (h : CodeWithin a n) (idx : Nat) {f : Instruction → Instruction}
    (hf : ∀ i, (f i).slots = i.slots) : CodeWithin (a.modify idx f) n := by
  intro i hi
  obtain ⟨k, hk⟩ := List.mem_iff_getElem?.mp hi
  rw [List.getElem?_modify] at hk
  obtain ⟨j, hj, rfl⟩ := Option.map_eq_some_iff.mp hk
  have hmem := h j (List.mem_of_getElem? hj)
  split
  · rw [hf]
    exact hmem
  · exact hmem

theorem patchJumpIfZero (h : CodeWithin a n) (idx target : Nat) :
    CodeWithin (patchJumpIfZero a idx target) n :=
  h.modify idx fun i => by cases i <;> rfl

theorem patchJumps (h : CodeWithin a n) (idxs : List Nat) (target : Nat) :
    CodeWithin (idxs.foldl (fun code idx => patchJump code idx target) a) n := by
  induction idxs generalizing a with
  | nil => exact h
  | cons idx idxs ih => exact ih (h.modify idx fun i => by cases i <;> rfl)

end CodeWithin

section Expressions

variable {varSlots : SlotMap} {offset : Nat}

theorem fieldSlot_within {next slot : Nat} {base : Expr} {field : String}
    (h : TableWithin varSlots next) (hslot : fieldSlot varSlots base field = some slot) :
    slot ≤ next := by
  unfold fieldSlot at hslot
  split at hslot
  · simp only [Option.or_eq_some_iff] at hslot
    obtain (hslot | ⟨-, hslot⟩) | ⟨-, hslot⟩ := hslot <;> exact h _ _ hslot
  · cases hslot

/-- The result slot is allocated, known before, or the next free one. -/
theorem resultSlot_within {next : Nat} (e : Expr) (h : TableWithin varSlots next)
    (hoffset : offset ≤ next) :
    resultSlot varSlots offset next e ≤ next + slotCount varSlots e := by
  cases e with
  | ident name =>
      by_cases hname : name = "__current_offset"
      · simpa [resultSlot, slotCount, hname] using hoffset
      · cases hs : varSlots.lookup name with
        | none => simp [resultSlot, slotCount, hname, hs]
        | some s => simpa [resultSlot, slotCount, hname, hs] using h name s hs
  | field base name =>
      cases hs : fieldSlot varSlots base name with
      | none => simp [resultSlot, slotCount, hs]
      | some s => simpa [resultSlot, slotCount, hs] using fieldSlot_within h hs
  | binary op left right =>
      simp only [resultSlot_binary, slotCount]
      omega
  | unary op expr =>
      simp only [resultSlot_unary, slotCount]
      omega
  | ternary cond thenBranch elseBranch =>
      simp only [resultSlot_ternary, slotCount]
      omega
  | coalesce value default =>
      simp only [resultSlot_coalesce, slotCount]
      omega
  | _ => exact Nat.le_succ next

theorem exprBlock_within (e : Expr) {base next : Nat} (h : TableWithin varSlots next)
    (hoffset : offset ≤ next) :
    CodeWithin (exprBlock varSlots offset e base next) (next + slotCount varSlots e) := by
  induction e generalizing base next with
  | ident name =>
      by_cases hname : name = "__current_offset"
      · simp [exprBlock, CodeWithin, hname]
      · cases hs : varSlots.lookup name <;>
          simp [exprBlock, slotCount, CodeWithin, Instruction.slots, hname, hs]
  | field b name _ =>
      cases hs : fieldSlot varSlots b name <;>
        simp [exprBlock, slotCount, CodeWithin, Instruction.slots, hs]
  | binary op left right ihl ihr =>
      have hmid := h.mono (Nat.le_add_right next (slotCount varSlots left))
      have hleft := resultSlot_within left h hoffset
      have hright := resultSlot_within right hmid (Nat.le_add_right_of_le hoffset)
      simp only [exprBlock, slotCount]
      refine .append (.append ((ihl h hoffset).mono (by omega))
        ((ihr hmid (by omega)).mono (by omega))) (.singleton ?_)
      simp only [Instruction.slots, List.mem_cons, List.not_mem_nil, or_false, forall_eq_or_imp,
        forall_eq]
      omega
  | unary op expr ih =>
      have hsrc := resultSlot_within expr h hoffset
      simp only [exprBlock, slotCount]
      refine .append ((ih h hoffset).mono (by omega)) (.singleton ?_)
      simp only [Instruction.slots, List.mem_cons, List.not_mem_nil, or_false, forall_eq_or_imp,
        forall_eq]
      omega
  | ternary cond thenBranch elseBranch ihc iht ihe =>
      have hthen := h.mono (Nat.le_add_right next (slotCount varSlots cond))
      have helse := hthen.mono
        (Nat.le_add_right (next + slotCount varSlots cond) (slotCount varSlots thenBranch))
      have hc := resultSlot_within cond h hoffset
      have ht := resultSlot_within thenBranch hthen (Nat.le_add_right_of_le hoffset)
      have he : resultSlot varSlots offset _ elseBranch ≤ _ :=
        resultSlot_within elseBranch helse (by omega)
      simp only [exprBlock, slotCount]
      refine .append (.append (.append (.append (.append ((ihc h hoffset).mono (by omega))
        (.singleton ?_)) ((iht hthen (by omega)).mono (by omega))) ?_)
        ((ihe helse (by omega)).mono (by omega))) (.singleton ?_)
      all_goals
        simp only [CodeWithin, Instruction.slots, List.mem_cons, List.not_mem_nil, or_false,
          forall_eq_or_imp, forall_eq, false_imp_iff, implies_true, and_true]
        omega
  | coalesce value default ihv ihd =>
      have hmid := h.mono (Nat.le_add_right next (slotCount varSlots value))
      have hv := resultSlot_within value h hoffset
      have hd := resultSlot_within default hmid (Nat.le_add_right_of_le hoffset)
      simp only [exprBlock, slotCount]
      refine .append (.append (.append ((ihv h hoffset).mono (by omega)) ?_)
        ((ihd hmid (by omega)).mono (by omega))) (.singleton ?_)
      all_goals
        simp only [CodeWithin, Instruction.slots, List.mem_cons, List.not_mem_nil, or_false,
          forall_eq_or_imp, forall_eq, false_imp_iff, implies_true, and_true]
        omega
  | _ => simp [exprBlock, slotCount, CodeWithin, Instruction.slots]

end Expressions

/-- The slot counter bounds what the compiler knows and has emitted. -/
structure SlotsFit (offset : Nat) (s : EmitState) : Prop where
  offset_le : offset ≤ s.slot
  vars : TableWithin s.varSlots s.slot
  code : CodeWithin s.instructions s.slot

/-- From a state whose slots fit, the slots fit afterwards and none was given back. -/
structure FitsAfter (offset : Nat) (s s' : EmitState) : Prop where
  fits : SlotsFit offset s → SlotsFit offset s'
  slot_le : s.slot ≤ s'.slot

/-- What an emitter does to any state. -/
def Fits (offset : Nat) (f : Emitter) : Prop := ∀ s, FitsAfter offset s (f s)

namespace FitsAfter

variable {offset : Nat} {s s' s'' : EmitState} {cx : EmitContext}

theorem refl (s : EmitState) : FitsAfter offset s s := ⟨id, Nat.le_refl _⟩

theorem trans (h : FitsAfter offset s s') (h' : FitsAfter offset s' s'') :
    FitsAfter offset s s'' :=
  ⟨fun hs => h'.fits (h.fits hs), Nat.le_trans h.slot_le h'.slot_le⟩

/-- Changing the tables to others within the bound, or taking further slots. -/
theorem of_tables (hcode : s'.instructions = s.instructions) (hslot : s.slot ≤ s'.slot)
    (hvars : SlotsFit offset s → TableWithin s'.varSlots s'.slot) : FitsAfter offset s s' :=
  ⟨fun hs => ⟨Nat.le_trans hs.offset_le hslot, hvars hs, hcode ▸ hs.code.mono hslot⟩, hslot⟩

theorem push (s : EmitState) {i : Instruction}
    (h : SlotsFit offset s → ∀ slot ∈ i.slots, slot ≤ s.slot) : FitsAfter offset s (s.push i) :=
  ⟨fun hs => ⟨hs.offset_le, hs.vars, hs.code.append (.singleton (h hs))⟩, Nat.le_refl _⟩

/-- Code whose slots do not change. -/
theorem patch {code : List Instruction} (h : ∀ n, CodeWithin s.instructions n → CodeWithin code n) :
    FitsAfter offset s { s with instructions := code } :=
  ⟨fun hs => ⟨hs.offset_le, hs.vars, h _ hs.code⟩, Nat.le_refl _⟩

theorem landHere (s : EmitState) (idx : Nat) : FitsAfter offset s (s.landHere idx) :=
  patch fun _ h => h.patchJumpIfZero idx _

theorem expr (s : EmitState) (cx : EmitContext) (e : Expr) :
    FitsAfter cx.currentOffsetSlot s (s.emitExpr cx e).2 := by
  unfold EmitState.emitExpr
  rw [emitExprToSlot_eq]
  refine ⟨fun hs => ⟨Nat.le_trans hs.offset_le (Nat.le_add_right ..),
    hs.vars.mono (Nat.le_add_right ..), ?_⟩, Nat.le_add_right ..⟩
  exact (hs.code.mono (Nat.le_add_right ..)).append (exprBlock_within e hs.vars hs.offset_le)

/-- The result slot of an expression fits as well. -/
theorem expr_result (s : EmitState) (cx : EmitContext) (e : Expr)
    (hs : SlotsFit cx.currentOffsetSlot s) : (s.emitExpr cx e).1 ≤ (s.emitExpr cx e).2.slot := by
  unfold EmitState.emitExpr
  rw [emitExprToSlot_eq]
  exact resultSlot_within e hs.vars hs.offset_le

/-- An expression and an instruction that uses its result. -/
theorem exprThen (s : EmitState) (cx : EmitContext) (e : Expr) {i : Instruction}
    (h : SlotsFit cx.currentOffsetSlot s → ∀ slot ∈ i.slots,
      slot ≤ s.slot ∨ slot = (s.emitExpr cx e).1 ∨ slot = (s.emitExpr cx e).2.slot) :
    FitsAfter cx.currentOffsetSlot s ((s.emitExpr cx e).2.push i) := by
  have hexpr := expr s cx e
  refine ⟨fun hs => (push (s.emitExpr cx e).2 fun _ slot hslot => ?_).fits (hexpr.fits hs),
    hexpr.slot_le⟩
  obtain hle | rfl | rfl := h hs slot hslot
  · exact Nat.le_trans hle hexpr.slot_le
  · exact expr_result s cx e hs
  · exact Nat.le_refl _

theorem pushRead (s : EmitState) (cx : EmitContext) {i : Instruction}
    (h : SlotsFit cx.currentOffsetSlot s → ∀ slot ∈ i.slots, slot ≤ s.slot) :
    FitsAfter cx.currentOffsetSlot s (s.pushRead cx i) := by
  have hread := push s h
  have hoffset : FitsAfter cx.currentOffsetSlot (s.push i)
      ((s.push i).push (.updateOffset cx.currentOffsetSlot)) :=
    push _ fun hs => List.forall_mem_singleton.mpr hs.offset_le
  exact (hread.trans hoffset).trans
    (of_tables rfl (Nat.le_succ _) fun hs => hs.vars.mono (Nat.le_succ _))

end FitsAfter

theorem Fits.foldl {offset : Nat} {α : Type*} {f : EmitState → α → EmitState}
    (h : ∀ a, Fits offset (f · a)) (as : List α) : Fits offset (as.foldl f ·) := by
  intro s
  induction as generalizing s with
  | nil => exact .refl s
  | cons a as ih => exact (h a s).trans (ih (f s a))

/-- The bodies of referenced messages are emitted with slots that fit. -/
def InlinesFit (cx : EmitContext) : Prop :=
  ∀ inlineMessage, cx.inlineMessage = some inlineMessage →
    ∀ namePrefix msg, Fits cx.currentOffsetSlot (inlineMessage namePrefix msg)

section Items

variable {cx : EmitContext}

theorem emitRead_fits (cx : EmitContext) {inlineMessage : String → Message → Emitter}
    (h : ∀ namePrefix msg, Fits cx.currentOffsetSlot (inlineMessage namePrefix msg)) (field : Field)
    (namePrefix fullName : String) {readSlot : Nat} {s : EmitState} (hread : readSlot ≤ s.slot) :
    FitsAfter cx.currentOffsetSlot s
      (emitRead cx inlineMessage field namePrefix fullName readSlot s) := by
  have hone : SlotsFit cx.currentOffsetSlot s → ∀ slot ∈ [readSlot], slot ≤ s.slot :=
    fun _ => List.forall_mem_singleton.mpr hread
  unfold emitRead
  cases field.ty with
  | bytes len =>
      have hexpr := FitsAfter.expr s cx len
      refine ⟨fun hs => ?_, Nat.le_trans hexpr.slot_le (Nat.le_succ _)⟩
      refine (FitsAfter.pushRead (s.emitExpr cx len).2 cx fun _ => ?_).fits (hexpr.fits hs)
      refine List.forall_mem_cons.mpr ⟨FitsAfter.expr_result s cx len hs, ?_⟩
      exact List.forall_mem_singleton.mpr (Nat.le_trans hread hexpr.slot_le)
  | messageRef refName =>
      dsimp only
      cases cx.messages.find? (·.name == refName) with
      | none => exact .pushRead s cx hone
      | some referenced =>
          have hinline := h (if namePrefix = "" then field.name else fullName) referenced s
          exact ⟨fun hs => ⟨(hinline.fits hs).offset_le, hs.vars.mono hinline.slot_le,
            (hinline.fits hs).code⟩, hinline.slot_le⟩
  | _ => exact .pushRead s cx hone

theorem emitValidate_fits (cx : EmitContext) (v : Validate) :
    Fits cx.currentOffsetSlot (emitValidate cx v) := fun s =>
  .exprThen s cx v.expr fun _ => List.forall_mem_singleton.mpr (.inr (.inl rfl))

theorem registerField_fits (field : Field) (fullName : String) (offset : Nat) :
    Fits offset (registerField field fullName) := fun _ =>
  .of_tables rfl (Nat.le_refl _) fun hs =>
    TableWithin.insert (TableWithin.insert hs.vars _ (Nat.le_refl _)) _ (Nat.le_refl _)

theorem emitFieldBody_fits (cx : EmitContext) {inlineMessage : String → Message → Emitter}
    (h : ∀ namePrefix msg, Fits cx.currentOffsetSlot (inlineMessage namePrefix msg)) (field : Field)
    (namePrefix : String) :
    Fits cx.currentOffsetSlot (emitFieldBody cx inlineMessage field namePrefix) := by
  intro s
  have hread := (registerField_fits field (joinName namePrefix field.name) _ s).trans
    (emitRead_fits cx h field namePrefix (joinName namePrefix field.name) (Nat.le_refl s.slot))
  have hcheck : ∀ s : EmitState, FitsAfter cx.currentOffsetSlot s
      (emitCheck cx field.validate s) := by
    intro s
    cases field.validate with
    | some v => exact emitValidate_fits cx v s
    | none => exact .refl s
  have hall := hread.trans (hcheck _)
  rw [emitFieldBody_eq]
  dsimp only
  split
  · exact hall
  · refine hall.trans (.push _ fun _ => List.forall_mem_singleton.mpr ?_)
    exact hall.slot_le

theorem emitCondition_fits (cx : EmitContext) (field : Field) (s : EmitState) :
    FitsAfter cx.currentOffsetSlot s (emitCondition cx field s).2 := by
  unfold emitCondition
  cases field.conditional with
  | none => exact .refl s
  | some cond =>
      exact .exprThen s cx cond fun _ => List.forall_mem_singleton.mpr (.inr (.inl rfl))

theorem emitField_fits (hcx : InlinesFit cx) (field : Field) (namePrefix : String) :
    Fits cx.currentOffsetSlot (emitFieldBytecode cx field namePrefix) := by
  intro s
  unfold emitFieldBytecode
  cases hinline : cx.inlineMessage with
  | none => exact .pushRead s cx fun _ => List.forall_mem_singleton.mpr (Nat.le_refl _)
  | some inlineMessage =>
      have hbody := emitFieldBody_fits cx (hcx inlineMessage hinline) field namePrefix
      have hcond := emitCondition_fits cx field s
      unfold emitCondition at *
      cases hfield : field.conditional with
      | none => exact hbody s
      | some cond =>
          rw [hfield] at hcond
          exact (hcond.trans (hbody _)).trans (.landHere _ _)

theorem emitLet_fits (namePrefix : String) (binding : Let) :
    Fits cx.currentOffsetSlot (emitLet cx namePrefix binding) := by
  intro s
  have hcopy : FitsAfter cx.currentOffsetSlot s ((s.emitExpr cx binding.value).2.push
      (.copySlot (s.emitExpr cx binding.value).1 (s.emitExpr cx binding.value).2.slot)) := by
    refine .exprThen s cx binding.value fun _ => ?_
    simp [Instruction.slots]
  exact hcopy.trans (.of_tables rfl (Nat.le_succ _) fun hs =>
    (hs.vars.mono (Nat.le_succ _)).insert _ (Nat.le_succ _))

theorem emitCarries_fits (cx : EmitContext) (loopPrefix : String) (carries : List Carry)
    (acc : SlotMap × EmitState) :
    FitsAfter cx.currentOffsetSlot acc.2 (carries.foldl (emitCarry cx loopPrefix) acc).2 := by
  induction carries generalizing acc with
  | nil => exact .refl _
  | cons carry carries ih =>
      have hexpr := FitsAfter.expr acc.2 cx carry.init
      have hcarry : FitsAfter cx.currentOffsetSlot acc.2 (emitCarry cx loopPrefix acc carry).2 := by
        refine ⟨fun hs => ?_, hexpr.slot_le⟩
        have hresult := FitsAfter.expr_result acc.2 cx carry.init hs
        exact ⟨(hexpr.fits hs).offset_le,
          ((hexpr.fits hs).vars.insert _ hresult).insert _ hresult, (hexpr.fits hs).code⟩
      exact hcarry.trans (ih _)

/-- The slots of the carries fit like those of all names. -/
theorem emitCarries_slots (cx : EmitContext) (loopPrefix : String) (carries : List Carry)
    (acc : SlotMap × EmitState) (hs : SlotsFit cx.currentOffsetSlot acc.2)
    (hacc : TableWithin acc.1 acc.2.slot) :
    TableWithin (carries.foldl (emitCarry cx loopPrefix) acc).1
      (carries.foldl (emitCarry cx loopPrefix) acc).2.slot := by
  induction carries generalizing acc with
  | nil => exact hacc
  | cons carry carries ih =>
      refine ih _ ((emitCarries_fits cx loopPrefix [carry] acc).fits hs) ?_
      exact (hacc.mono (FitsAfter.expr acc.2 cx carry.init).slot_le).insert _
        (FitsAfter.expr_result acc.2 cx carry.init hs)

theorem emitNext_fits (cx : EmitContext) (loopPrefix : String) (nxt : NextStmt) :
    Fits cx.currentOffsetSlot (emitNext cx loopPrefix · nxt) := by
  intro s
  refine .exprThen s cx nxt.value fun hs => List.forall_mem_cons.mpr ⟨.inr (.inl rfl), ?_⟩
  refine List.forall_mem_singleton.mpr (.inl ?_)
  unfold nextTarget
  cases hfull : s.varSlots.lookup (loopPrefix ++ "." ++ nxt.name) with
  | some slot => exact hs.vars _ _ hfull
  | none =>
      cases hbare : s.varSlots.lookup nxt.name with
      | some slot => exact hs.vars _ _ hbare
      | none => exact Nat.le_refl _

theorem registerCarries_fits {offset : Nat} (loopPrefix : String) {carrySlots : SlotMap}
    (carries : List Carry) {s : EmitState} (hcarries : TableWithin carrySlots s.slot) :
    FitsAfter offset s (carries.foldl (registerCarry loopPrefix carrySlots) s) := by
  induction carries generalizing s with
  | nil => exact .refl s
  | cons carry carries ih =>
      have hslot : (carrySlots.lookup carry.name).getD 0 ≤ s.slot := by
        cases hlookup : carrySlots.lookup carry.name with
        | some slot => exact hcarries _ _ hlookup
        | none => exact Nat.zero_le _
      have hregister : FitsAfter offset s (registerCarry loopPrefix carrySlots s carry) :=
        .of_tables rfl (Nat.le_refl _) fun hs => hs.vars.insert _ hslot
      exact hregister.trans (ih hcarries)

theorem registerCarries_slot (loopPrefix : String) (carrySlots : SlotMap) (carries : List Carry)
    (s : EmitState) : (carries.foldl (registerCarry loopPrefix carrySlots) s).slot = s.slot := by
  induction carries generalizing s with
  | nil => rfl
  | cons carry carries ih => exact ih _

theorem loopBodyStart_fits (cx : EmitContext) (namePrefix : String) (lp : Loop) :
    Fits cx.currentOffsetSlot (loopBodyStart cx namePrefix lp) := by
  intro s
  let acc := lp.carries.foldl (emitCarry cx (joinName namePrefix lp.name)) (∅, s)
  have hinits : FitsAfter cx.currentOffsetSlot s acc.2 :=
    emitCarries_fits cx (joinName namePrefix lp.name) lp.carries (∅, s)
  have hcond : FitsAfter cx.currentOffsetSlot acc.2 ((acc.2.emitExpr cx lp.condition).2.push
      (.jumpIfZero (acc.2.emitExpr cx lp.condition).1 0)) :=
    .exprThen acc.2 cx lp.condition fun _ => List.forall_mem_singleton.mpr (.inr (.inl rfl))
  exact hinits.trans hcond

theorem emitLoop_fits (hcx : InlinesFit cx) (namePrefix : String) (lp : Loop) :
    Fits cx.currentOffsetSlot (emitLoop cx namePrefix lp) := by
  intro s
  let loopPrefix := joinName namePrefix lp.name
  let acc := lp.carries.foldl (emitCarry cx loopPrefix) (∅, s)
  have hstart := loopBodyStart_fits cx namePrefix lp s
  have hbody := Fits.foldl (fun field => emitField_fits hcx field loopPrefix) lp.body
  have hnexts := Fits.foldl (emitNext_fits cx loopPrefix) lp.nexts
  have hjump : ∀ (s : EmitState) target, FitsAfter cx.currentOffsetSlot s
      (s.push (.jump target)) := fun s target => .push s fun _ => by simp [Instruction.slots]
  have hclosed := ((hbody (loopBodyStart cx namePrefix lp s)).trans (hnexts _)).trans
    ((hjump _ (asU16 acc.2.instructions.length)).trans
      (.landHere _ (acc.2.emitExpr cx lp.condition).2.instructions.length))
  refine ⟨fun hs => ?_, ?_⟩
  · have hcarries := emitCarries_slots cx loopPrefix lp.carries (∅, s) hs (.empty _)
    have hcond := (FitsAfter.expr acc.2 cx lp.condition).slot_le
    have hcarries' := hcarries.mono (Nat.le_trans hcond hclosed.slot_le)
    exact (registerCarries_fits loopPrefix lp.carries hcarries').fits
      (hclosed.fits (hstart.fits hs))
  · refine Nat.le_trans (Nat.le_trans hstart.slot_le hclosed.slot_le) (Nat.le_of_eq ?_)
    exact (registerCarries_slot loopPrefix acc.1 lp.carries _).symm

/-- The arms emitted so far, behind a tag: their slots fit, and so will those of
the default arm. -/
structure ArmsFit (offset tagSlot : Nat) (s : EmitState) (acc : ArmsState) : Prop where
  fits : FitsAfter offset s acc.state
  tag_le : SlotsFit offset s → tagSlot ≤ acc.state.slot
  default_fits : ∀ body, acc.defaultArm = some body → Fits offset body

theorem armBodyStart_fits {offset tagSlot : Nat} {s : EmitState} {acc : ArmsState} (cv : Int64)
    (h : ArmsFit offset tagSlot s acc) :
    FitsAfter offset s (armBodyStart tagSlot cv acc.state) := by
  have hle : acc.state.slot ≤ (armBodyStart tagSlot cv acc.state).slot := Nat.le_add_right _ 2
  have hslot : (armBodyStart tagSlot cv acc.state).slot = acc.state.slot + 2 := rfl
  have hcode : (armBodyStart tagSlot cv acc.state).instructions =
      acc.state.instructions ++ [.loadConst cv.toUInt64 acc.state.slot,
        .binOp .eq tagSlot acc.state.slot (acc.state.slot + 1),
        .jumpIfZero (acc.state.slot + 1) 0] := by
    simp [armBodyStart, EmitState.push]
  refine ⟨fun hs => ?_, Nat.le_trans h.fits.slot_le hle⟩
  have hacc := h.fits.fits hs
  have htag := h.tag_le hs
  refine ⟨Nat.le_trans hacc.offset_le hle, hacc.vars.mono hle, ?_⟩
  rw [hcode, hslot]
  refine (hacc.code.mono (Nat.le_add_right _ 2)).append ?_
  simp only [CodeWithin, Instruction.slots, List.mem_cons, List.not_mem_nil, or_false,
    forall_eq_or_imp, forall_eq]
  omega

theorem emitArm_fits {offset tagSlot : Nat} {s : EmitState} {acc : ArmsState}
    (h : ArmsFit offset tagSlot s acc) {arm : Option Int64 × Emitter} (hbody : Fits offset arm.2) :
    ArmsFit offset tagSlot s (emitArm tagSlot acc arm) := by
  obtain ⟨case, body⟩ := arm
  cases case with
  | none => exact ⟨h.fits, h.tag_le, fun body' heq => Option.some.inj heq ▸ hbody⟩
  | some cv =>
      have hstart := armBodyStart_fits cv h
      have hrest : FitsAfter offset (armBodyStart tagSlot cv acc.state)
          (emitArm tagSlot acc (some cv, body)).state := by
        have hend : FitsAfter offset (body (armBodyStart tagSlot cv acc.state))
            ((body (armBodyStart tagSlot cv acc.state)).push (.jump 0)) :=
          .push _ fun _ => by simp [Instruction.slots]
        exact ((hbody _).trans hend).trans (.landHere _ _)
      have hle : acc.state.slot ≤ (emitArm tagSlot acc (some cv, body)).state.slot :=
        Nat.le_trans (Nat.le_add_right _ 2) hrest.slot_le
      exact ⟨hstart.trans hrest, fun hs => Nat.le_trans (h.tag_le hs) hle, h.default_fits⟩

theorem emitArms_fits {offset tagSlot : Nat} {s : EmitState} {arms : List (Option Int64 × Emitter)}
    (harms : ∀ arm ∈ arms, Fits offset arm.2) {acc : ArmsState}
    (h : ArmsFit offset tagSlot s acc) : ArmsFit offset tagSlot s (arms.foldl (emitArm tagSlot) acc) := by
  induction arms generalizing acc with
  | nil => exact h
  | cons arm arms ih =>
      exact ih (fun arm' hmem => harms arm' (List.mem_cons_of_mem _ hmem))
        (emitArm_fits h (harms arm (List.mem_cons_self ..)))

theorem emitMatch_fits {tag : Expr} {arms : List (Option Int64 × Emitter)}
    (harms : ∀ arm ∈ arms, Fits cx.currentOffsetSlot arm.2) :
    Fits cx.currentOffsetSlot (emitMatch cx tag arms) := by
  intro s
  let acc := arms.foldl (emitArm (s.emitExpr cx tag).1) ⟨[], none, (s.emitExpr cx tag).2⟩
  have hacc : ArmsFit cx.currentOffsetSlot (s.emitExpr cx tag).1 s acc :=
    emitArms_fits harms ⟨.expr s cx tag, FitsAfter.expr_result s cx tag, by simp⟩
  have hfinish : FitsAfter cx.currentOffsetSlot s acc.finish := by
    cases hdefault : acc.defaultArm with
    | none =>
        rw [ArmsState.finish_none hdefault]
        exact hacc.fits
    | some body =>
        rw [ArmsState.finish_some hdefault]
        exact hacc.fits.trans (hacc.default_fits body hdefault acc.state)
  exact hfinish.trans (.patch fun _ h => h.patchJumps _ _)

theorem emitItems_fits {offset : Nat} {items : List (Nat × Emitter)}
    (h : ∀ item ∈ items, Fits offset item.2) : Fits offset (emitItems items) :=
  emitItems_keeps .refl (fun _ _ _ => .trans) h

theorem emitBodyBlock_fits (hcx : InlinesFit cx) (namePrefix : String) (fields : List Field)
    (lets : List Let) (loops : List Loop) (validates : List Validate)
    {matchItems : List (Nat × Emitter)}
    (hmatches : ∀ item ∈ matchItems, Fits cx.currentOffsetSlot item.2) :
    Fits cx.currentOffsetSlot
      (emitBodyBlock cx namePrefix fields lets loops validates matchItems) := by
  refine emitItems_fits fun item hmem => ?_
  simp only [List.mem_append, List.mem_map] at hmem
  obtain (((⟨f, -, rfl⟩ | ⟨l, -, rfl⟩) | ⟨v, -, rfl⟩) | ⟨lp, -, rfl⟩) | hmatch := hmem
  · exact emitField_fits hcx f namePrefix
  · exact emitLet_fits namePrefix l
  · exact emitValidate_fits cx v
  · exact emitLoop_fits hcx namePrefix lp
  · exact hmatches item hmatch

mutual

theorem matchEmitter_fits (hcx : InlinesFit cx) (namePrefix : String) :
    ∀ m, Fits cx.currentOffsetSlot (matchEmitter cx namePrefix m)
  | .mk _ arms _ => by
      unfold matchEmitter
      exact emitMatch_fits (armEmitters_fit hcx namePrefix arms)

theorem armEmitters_fit (hcx : InlinesFit cx) (namePrefix : String) :
    ∀ arms, ∀ arm ∈ armEmitters cx namePrefix arms, Fits cx.currentOffsetSlot arm.2
  | [] => by simp [armEmitters]
  | arm :: arms => by
      unfold armEmitters
      exact List.forall_mem_cons.mpr
        ⟨armEmitter_fits hcx namePrefix arm, armEmitters_fit hcx namePrefix arms⟩

theorem armEmitter_fits (hcx : InlinesFit cx) (namePrefix : String) :
    ∀ arm, Fits cx.currentOffsetSlot (armEmitter cx namePrefix arm).2
  | .mk _ fields lets loops validates matches_ => by
      unfold armEmitter
      exact emitBodyBlock_fits hcx namePrefix fields lets loops validates
        (matchItems_fit hcx namePrefix matches_)

theorem matchItems_fit (hcx : InlinesFit cx) (namePrefix : String) :
    ∀ ms, ∀ item ∈ matchItems cx namePrefix ms, Fits cx.currentOffsetSlot item.2
  | [] => by simp [matchItems]
  | m :: ms => by
      unfold matchItems
      exact List.forall_mem_cons.mpr
        ⟨matchEmitter_fits hcx namePrefix m, matchItems_fit hcx namePrefix ms⟩

end

theorem emitMessage_fits (hcx : InlinesFit cx) (namePrefix : String) (msg : Message) :
    Fits cx.currentOffsetSlot (emitMessage cx namePrefix msg) :=
  emitBodyBlock_fits hcx namePrefix msg.fields msg.lets msg.loops msg.validates
    (matchItems_fit hcx namePrefix msg.matches_)

end Items

theorem messageEmitter_fits (messages : List Message) (offset : Nat) (littleEndian : Bool)
    (remaining : Nat) (namePrefix : String) (msg : Message) :
    Fits offset (messageEmitter messages offset littleEndian remaining namePrefix msg) := by
  induction remaining generalizing namePrefix msg with
  | zero =>
      have hcx : InlinesFit ⟨messages, offset, littleEndian, none⟩ :=
        fun _ hinline => by cases hinline
      exact emitMessage_fits hcx namePrefix msg
  | succ remaining ih =>
      have hcx : InlinesFit ⟨messages, offset, littleEndian,
          some (messageEmitter messages offset littleEndian remaining)⟩ := by
        intro inlineMessage hinline
        cases hinline
        exact ih
      exact emitMessage_fits hcx namePrefix msg

/-- The slots of a protocol's code are at most the final value of the counter. -/
theorem emitProtocol_fits (proto : Protocol) : SlotsFit currentOffsetSlot (emitProtocol proto) := by
  have hstart : ∀ varSlots, TableWithin varSlots 1 → SlotsFit currentOffsetSlot
      ⟨varSlots, ∅, [.loadConst 0 currentOffsetSlot], 1⟩ := fun varSlots hvars =>
    ⟨Nat.zero_le _, hvars, .singleton (List.forall_mem_singleton.mpr (Nat.zero_le _))⟩
  have hvars : TableWithin ((∅ : SlotMap).insert "__current_offset" currentOffsetSlot) 1 :=
    (TableWithin.empty 1).insert _ (Nat.zero_le _)
  unfold emitProtocol
  dsimp only
  split
  · exact hstart _ hvars
  · exact (messageEmitter_fits _ _ _ _ _ _ _).fits (hstart _ hvars)

/-- Every slot that a compiled program mentions is one of the program's. -/
theorem compiled_slots_lt {proto : Protocol} {program : BytecodeProgram} {fieldMap : SlotMap}
    (hcompile : protocolToBytecodeWithMap proto = some (program, fieldMap)) {i : Instruction}
    (hi : i ∈ program.instructions) {slot : Nat} (hslot : slot ∈ i.slots) :
    slot < program.slotCount := by
  have hfits := (emitProtocol_fits proto).code
  unfold protocolToBytecodeWithMap at hcompile
  dsimp only at hcompile
  split at hcompile
  · simp only [Option.some.injEq, Prod.mk.injEq] at hcompile
    obtain ⟨rfl, -⟩ := hcompile
    dsimp only at hi ⊢
    obtain hi | hi := List.mem_append.mp hi
    · have hle := hfits i hi slot hslot
      omega
    · rw [List.mem_singleton.mp hi] at hslot
      cases hslot
  · cases hcompile

end NFdl
