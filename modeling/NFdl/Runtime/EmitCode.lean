import NFdl.Runtime.Emit
import Mathlib.Tactic.ByContra

/-!
# The shape of emitted code

Every emitter appends a block to the code, whatever it patches, and never gives
a slot back. The jumps of a block stay inside it, and its conditional jumps go
forward. The last fact needs instruction indices to fit in sixteen bits.
-/

namespace NFdl

/-- A jump at address `i` that stays inside the addresses from `lo` to `hi`, and
goes forward if it is conditional. The targets of the jumps at the addresses
`pending` are still to be patched. -/
def JumpInside (pending : List Nat) (lo hi i : Nat) : Instruction → Prop
  | .jumpIfZero _ target => i < target ∧ target ≤ hi
  | .jump target => i ∈ pending ∨ lo ≤ target ∧ target ≤ hi
  | _ => True

/-- The jumps of a block at address `base` stay inside. -/
def JumpsInside (pending : List Nat) (lo hi base : Nat) (block : List Instruction) : Prop :=
  AtEach (JumpInside pending lo hi) base block

theorem JumpInside.mono {pending pending' : List Nat} {lo lo' hi hi' i : Nat}
    {instr : Instruction} (h : JumpInside pending lo hi i instr) (hlo : lo' ≤ lo) (hhi : hi ≤ hi')
    (hpending : pending ⊆ pending') : JumpInside pending' lo' hi' i instr := by
  cases instr with
  | jumpIfZero c t => exact ⟨h.1, Nat.le_trans h.2 hhi⟩
  | jump t =>
      obtain hmem | ⟨hge, hle⟩ := h
      · exact .inl (hpending hmem)
      · exact .inr ⟨Nat.le_trans hlo hge, Nat.le_trans hle hhi⟩
  | _ => trivial

theorem JumpsInside.mono {pending : List Nat} {lo lo' hi hi' base : Nat} {a : List Instruction}
    (h : JumpsInside pending lo hi base a) (hlo : lo' ≤ lo) (hhi : hi ≤ hi') :
    JumpsInside pending lo' hi' base a :=
  AtEach.mono h fun _ _ _ hi => hi.mono hlo hhi (List.Subset.refl _)

/-- The instructions of compiled expressions only compute, or jump forward to at
most `hi`. -/
def ExprInstr (hi i : Nat) : Instruction → Prop
  | .loadConst _ _ | .binOp _ _ _ _ | .unaryOp _ _ _ | .copySlot _ _ => True
  | .jump target | .jumpIfZero _ target => i < target ∧ target ≤ hi
  | _ => False

theorem ExprInstr.mono {hi hi' i : Nat} {instr : Instruction} (h : ExprInstr hi i instr)
    (hle : hi ≤ hi') : ExprInstr hi' i instr := by
  cases instr with
  | jumpIfZero c t => exact ⟨h.1, Nat.le_trans h.2 hle⟩
  | jump t => exact ⟨h.1, Nat.le_trans h.2 hle⟩
  | _ => exact h

theorem ExprInstr.jumpInside {pending : List Nat} {lo hi i : Nat} {instr : Instruction}
    (h : ExprInstr hi i instr) (hlo : lo ≤ i) : JumpInside pending lo hi i instr := by
  cases instr with
  | jumpIfZero c t => exact h
  | jump t => exact .inr ⟨Nat.le_trans hlo (Nat.le_of_lt h.1), h.2⟩
  | _ => trivial

/-- Every instruction of a compiled expression, when its addresses fit. -/
theorem exprBlock_instrs (varSlots : SlotMap) (offset : Nat) (e : Expr) {base next : Nat}
    (hfits : base + codeLength varSlots e ≤ u16Max) :
    AtEach (ExprInstr (base + codeLength varSlots e)) base
      (exprBlock varSlots offset e base next) := by
  induction e generalizing base next with
  | ident name =>
      unfold exprBlock
      split
      · exact .nil
      · split
        · exact .nil
        · exact .singleton trivial
  | field b name _ =>
      unfold exprBlock
      split
      · exact .nil
      · exact .singleton trivial
  | binary op left right ihl ihr =>
      simp only [codeLength] at hfits ⊢
      refine .append (.append ((ihl (by omega)).mono fun _ _ _ hi => hi.mono (by omega)) ?_)
        (.singleton trivial)
      rw [exprBlock_length]
      exact (ihr (by omega)).mono fun _ _ _ hi => hi.mono (by omega)
  | unary op expr ih =>
      simp only [codeLength] at hfits ⊢
      exact .append ((ih (by omega)).mono fun _ _ _ hi => hi.mono (by omega)) (.singleton trivial)
  | ternary cond thenBranch elseBranch ihc iht ihe =>
      simp only [codeLength] at hfits ⊢
      simp only [exprBlock]
      rw [asU16_of_le (by omega), asU16_of_le (by omega)]
      refine .append (.append (.append (.append (.append
        ((ihc (by omega)).mono fun _ _ _ hi => hi.mono (by omega)) (.singleton ?_)) ?_)
        (.cons trivial (.singleton ?_))) ?_) (.singleton trivial)
      · simp only [ExprInstr, exprBlock_length]
        omega
      · simp only [List.length_append, exprBlock_length, List.length_singleton, ← Nat.add_assoc]
        exact (iht (by omega)).mono fun _ _ _ hi => hi.mono (by omega)
      · simp only [ExprInstr, List.length_append, exprBlock_length, List.length_singleton]
        omega
      · simp only [List.length_append, exprBlock_length, List.length_cons, List.length_nil]
        have hbase : base + (codeLength varSlots cond + (0 + 1) + codeLength varSlots thenBranch +
            (0 + 1 + 1)) = base + codeLength varSlots cond + codeLength varSlots thenBranch + 3 := by
          omega
        rw [hbase]
        exact (ihe (by omega)).mono fun _ _ _ hi => hi.mono (by omega)
  | coalesce value default ihv ihd =>
      simp only [codeLength] at hfits ⊢
      simp only [exprBlock]
      rw [asU16_of_le (by omega), asU16_of_le (by omega)]
      refine .append (.append (.append ((ihv (by omega)).mono fun _ _ _ hi => hi.mono (by omega))
        (.cons ?_ (.cons trivial (.singleton ?_)))) ?_) (.singleton trivial)
      · simp only [ExprInstr, exprBlock_length]
        omega
      · simp only [ExprInstr, exprBlock_length]
        omega
      · simp only [List.length_append, exprBlock_length, List.length_cons, List.length_nil]
        have hbase : base + (codeLength varSlots value + (0 + 1 + 1 + 1)) =
            base + codeLength varSlots value + 3 := by
          omega
        rw [hbase]
        exact (ihd (by omega)).mono fun _ _ _ hi => hi.mono (by omega)
  | _ => exact .singleton trivial

/-- The jumps of compiled expressions stay inside. -/
theorem exprBlock_jumps (pending : List Nat) (varSlots : SlotMap) (offset : Nat) (e : Expr)
    {base next : Nat} (hfits : base + codeLength varSlots e ≤ u16Max) :
    JumpsInside pending base (base + codeLength varSlots e) base
      (exprBlock varSlots offset e base next) :=
  (exprBlock_instrs varSlots offset e hfits).mono fun _ _ hbase hi => hi.jumpInside hbase

/-- Redirect an unconditional jump. -/
def Instruction.retarget (target : Nat) : Instruction → Instruction
  | .jump _ => .jump target
  | instr => instr

@[simp] theorem patchJump_length (code : List Instruction) (idx target : Nat) :
    (patchJump code idx target).length = code.length := List.length_modify ..

theorem getElem?_patchJump (code : List Instruction) (idx target i : Nat) :
    (patchJump code idx target)[i]? =
      if i = idx then code[i]?.map (Instruction.retarget target) else code[i]? := by
  have hmodify : patchJump code idx target = code.modify idx (Instruction.retarget target) := rfl
  rw [hmodify, List.getElem?_modify]
  by_cases h : idx = i
  · simp [h]
  · simp [h, Ne.symm h]

@[simp] theorem Instruction.retarget_retarget (target : Nat) (instr : Instruction) :
    (instr.retarget target).retarget target = instr.retarget target := by
  cases instr <;> rfl

theorem patchJumps_length (idxs : List Nat) (target : Nat) (code : List Instruction) :
    (idxs.foldl (fun code idx => patchJump code idx target) code).length = code.length := by
  induction idxs generalizing code with
  | nil => rfl
  | cons idx idxs ih => rw [List.foldl_cons, ih, patchJump_length]

/-- Patching several jumps with one target. -/
theorem getElem?_patchJumps (idxs : List Nat) (target i : Nat) (code : List Instruction) :
    (idxs.foldl (fun code idx => patchJump code idx target) code)[i]? =
      if i ∈ idxs then code[i]?.map (Instruction.retarget target) else code[i]? := by
  induction idxs generalizing code with
  | nil => simp
  | cons idx idxs ih =>
      rw [List.foldl_cons, ih, getElem?_patchJump]
      by_cases hi : i = idx
      · by_cases hmem : i ∈ idxs
        · simp [hi, hi ▸ hmem, Function.comp_def]
        · simp [hi, hi ▸ hmem]
      · simp [hi]

/-- The code of one state extends that of an earlier one by a block whose jumps
stay inside it, and no slot was given back. -/
structure Emitted (pending : List Nat) (s s' : EmitState) : Prop where
  code : ∃ block, s'.instructions = s.instructions ++ block ∧
    (s'.instructions.length ≤ u16Max → JumpsInside pending s.instructions.length
      s'.instructions.length s.instructions.length block)
  slot_le : s.slot ≤ s'.slot

namespace Emitted

variable {pending pending' : List Nat} {s s' s'' : EmitState}

theorem refl (s : EmitState) : Emitted pending s s :=
  ⟨⟨[], by simp, fun _ => .nil⟩, Nat.le_refl _⟩

theorem length_le (h : Emitted pending s s') : s.instructions.length ≤ s'.instructions.length := by
  obtain ⟨block, hblock, -⟩ := h.code
  rw [hblock, List.length_append]
  omega

theorem grows (h : Emitted pending s s') : s.instructions <+: s'.instructions := by
  obtain ⟨block, hblock, -⟩ := h.code
  exact ⟨block, hblock.symm⟩

theorem mono (h : Emitted pending s s') (hsub : pending ⊆ pending') : Emitted pending' s s' := by
  obtain ⟨block, hblock, hjumps⟩ := h.code
  exact ⟨⟨block, hblock, fun hfits i instr hi =>
    (hjumps hfits i instr hi).mono (Nat.le_refl _) (Nat.le_refl _) hsub⟩, h.slot_le⟩

theorem trans (h : Emitted pending s s') (h' : Emitted pending s' s'') : Emitted pending s s'' := by
  obtain ⟨a, ha, hja⟩ := h.code
  obtain ⟨b, hb, hjb⟩ := h'.code
  refine ⟨⟨a ++ b, by rw [hb, ha, List.append_assoc], fun hfits => ?_⟩,
    Nat.le_trans h.slot_le h'.slot_le⟩
  have hle := h.length_le
  have hle' := h'.length_le
  refine .append ((hja (by omega)).mono (Nat.le_refl _) hle') ?_
  have hlen : s'.instructions.length = s.instructions.length + a.length := by
    rw [ha, List.length_append]
  rw [← hlen]
  exact (hjb hfits).mono hle (Nat.le_refl _)

/-- Changing only the tables, or taking further slots. -/
theorem of_tables (hcode : s'.instructions = s.instructions) (hslot : s.slot ≤ s'.slot) :
    Emitted pending s s' :=
  ⟨⟨[], by simp [hcode], fun _ => .nil⟩, hslot⟩

theorem push (s : EmitState) {instr : Instruction}
    (h : ∀ lo hi, JumpInside pending lo hi s.instructions.length instr) :
    Emitted pending s (s.push instr) :=
  ⟨⟨[instr], rfl, fun _ => .singleton (h _ _)⟩, Nat.le_refl _⟩

theorem expr (s : EmitState) (cx : EmitContext) (e : Expr) :
    Emitted pending s (s.emitExpr cx e).2 := by
  unfold EmitState.emitExpr
  rw [emitExprToSlot_eq]
  refine ⟨⟨_, rfl, fun hfits => ?_⟩, Nat.le_add_right ..⟩
  dsimp only at hfits ⊢
  rw [List.length_append, exprBlock_length] at hfits ⊢
  exact exprBlock_jumps _ _ _ e hfits

theorem pushRead (s : EmitState) (cx : EmitContext) {instr : Instruction}
    (h : ∀ lo hi, JumpInside pending lo hi s.instructions.length instr) :
    Emitted pending s (s.pushRead cx instr) := by
  have hoffset : Emitted pending (s.push instr)
      ((s.push instr).push (.updateOffset cx.currentOffsetSlot)) := push _ fun _ _ => trivial
  exact ((push s h).trans hoffset).trans (of_tables rfl (Nat.le_succ _))

/-- A conditional jump that was pushed first and is patched to land at the end. -/
theorem landHere {condSlot : Nat} (h : Emitted pending (s.push (.jumpIfZero condSlot 0)) s') :
    Emitted pending s (s'.landHere s.instructions.length) := by
  obtain ⟨block, hblock, hjumps⟩ := h.code
  have hcode : (s'.landHere s.instructions.length).instructions = s.instructions ++
      ([.jumpIfZero condSlot (asU16 s'.instructions.length)] ++ block) := by
    unfold EmitState.landHere
    rw [← List.append_assoc, ← patchJumpIfZero_at block condSlot 0 _ rfl, hblock]
    rfl
  have hpush : (s.push (.jumpIfZero condSlot 0)).instructions.length =
      s.instructions.length + 1 := by
    simp [EmitState.push]
  have hlen : (s'.landHere s.instructions.length).instructions.length =
      s'.instructions.length := by
    rw [hcode, hblock, List.length_append, List.length_append, List.length_append, hpush,
      List.length_singleton]
    omega
  have hlt := h.length_le
  rw [hpush] at hlt hjumps
  refine ⟨⟨_, hcode, fun hfits => ?_⟩, h.slot_le⟩
  rw [hlen] at hfits ⊢
  refine .append (.singleton ?_) ((hjumps hfits).mono (Nat.le_succ _) (Nat.le_refl _))
  rw [asU16_of_le hfits]
  exact ⟨hlt, Nat.le_refl _⟩

/-- The code of a loop: the condition, the exit jump, the body and the jump back. -/
theorem closeLoop_instructions {s₁ s₂ : EmitState} {condSlot : Nat} {a b : List Instruction}
    (ha : s₁.instructions = s.instructions ++ a)
    (hb : s₂.instructions = (s₁.push (.jumpIfZero condSlot 0)).instructions ++ b) :
    ((s₂.push (.jump (asU16 s.instructions.length))).landHere
      s₁.instructions.length).instructions = s.instructions ++ (a ++
        ([.jumpIfZero condSlot (asU16 (s₂.instructions.length + 1))] ++
          (b ++ [.jump (asU16 s.instructions.length)]))) := by
  have hs₂ : s₂.instructions ++ [.jump (asU16 s.instructions.length)] = s₁.instructions ++
      [.jumpIfZero condSlot 0] ++ (b ++ [.jump (asU16 s.instructions.length)]) := by
    rw [hb]
    simp [EmitState.push]
  change patchJumpIfZero (s₂.instructions ++ [Instruction.jump _]) _
    (asU16 (s₂.instructions ++ [Instruction.jump _]).length) = _
  rw [List.length_append, List.length_singleton, hs₂, patchJumpIfZero_at _ _ _ _ rfl, ha]
  simp only [List.append_assoc]

/-- The jump that closes a loop goes back to `s`; the exit jump pushed at `s₁`
lands behind it. -/
theorem closeLoop {s₁ s₂ : EmitState} {condSlot : Nat} (h₁ : Emitted pending s s₁)
    (h₂ : Emitted pending (s₁.push (.jumpIfZero condSlot 0)) s₂) :
    Emitted pending s
      ((s₂.push (.jump (asU16 s.instructions.length))).landHere s₁.instructions.length) := by
  obtain ⟨a, ha, hja⟩ := h₁.code
  obtain ⟨b, hb, hjb⟩ := h₂.code
  have hpush : (s₁.push (.jumpIfZero condSlot 0)).instructions.length =
      s₁.instructions.length + 1 := by
    simp [EmitState.push]
  have hlen₁ := congrArg List.length ha
  have hlen₂ := congrArg List.length hb
  rw [List.length_append] at hlen₁ hlen₂
  rw [hpush] at hlen₂ hjb
  have hcode := closeLoop_instructions ha hb
  have hlen := congrArg List.length hcode
  simp only [List.length_append, List.length_singleton] at hlen
  refine ⟨⟨_, hcode, fun hfits => ?_⟩, Nat.le_trans h₁.slot_le h₂.slot_le⟩
  have hexit : asU16 (s₂.instructions.length + 1) = s₂.instructions.length + 1 :=
    asU16_of_le (by omega)
  have hback : asU16 s.instructions.length = s.instructions.length := asU16_of_le (by omega)
  refine .append ((hja (by omega)).mono (Nat.le_refl _) (by omega)) (.append (.singleton ?_)
    (.append ?_ (.singleton ?_)))
  · rw [hexit]
    exact ⟨by omega, by omega⟩
  · rw [List.length_singleton, ← hlen₁]
    exact (hjb (by omega)).mono (by omega) (by omega)
  · rw [hback] at hlen ⊢
    exact .inr ⟨Nat.le_refl _, by omega⟩

/-- The pending jumps of a block are patched to land at its end. -/
theorem patchEnds (h : Emitted pending s s')
    (hpending : ∀ i ∈ pending, s.instructions.length ≤ i) :
    Emitted [] s { s' with
      instructions := pending.foldl (fun code idx =>
        patchJump code idx (asU16 s'.instructions.length)) s'.instructions } := by
  obtain ⟨block, hblock, hjumps⟩ := h.code
  let code := pending.foldl (fun code idx =>
    patchJump code idx (asU16 s'.instructions.length)) s'.instructions
  have hget : ∀ i, code[i]? = if i ∈ pending then
      s'.instructions[i]?.map (Instruction.retarget (asU16 s'.instructions.length))
      else s'.instructions[i]? := fun i => getElem?_patchJumps ..
  have hlen : code.length = s'.instructions.length := patchJumps_length ..
  have hbefore : code.take s.instructions.length = s.instructions := by
    apply List.ext_getElem?
    intro i
    rw [List.getElem?_take]
    split
    · rename_i hi
      have hout : i ∉ pending := fun hmem => absurd (hpending i hmem) (Nat.not_le_of_lt hi)
      rw [hget, if_neg hout, hblock, List.getElem?_append_left hi]
    · rename_i hi
      rw [List.getElem?_eq_none (Nat.le_of_not_lt hi)]
  refine ⟨⟨code.drop s.instructions.length, ?_, fun hfits i instr hi => ?_⟩, h.slot_le⟩
  · change code = s.instructions ++ code.drop s.instructions.length
    nth_rewrite 1 [← List.take_append_drop s.instructions.length code]
    rw [hbefore]
  · change code.length ≤ u16Max at hfits
    change JumpInside [] _ code.length _ _
    rw [hlen] at hfits ⊢
    rw [List.getElem?_drop, hget] at hi
    have hold : ∀ old, s'.instructions[s.instructions.length + i]? = some old →
        JumpInside pending s.instructions.length s'.instructions.length
          (s.instructions.length + i) old := by
      intro old hold
      rw [hblock, List.getElem?_append_right (Nat.le_add_right ..), Nat.add_sub_cancel_left] at hold
      exact hjumps hfits i old hold
    split at hi
    · obtain ⟨old, hsome, rfl⟩ := Option.map_eq_some_iff.mp hi
      have hinside := hold old hsome
      cases old with
      | jump target =>
          refine .inr ⟨?_, asU16_le _⟩
          rw [asU16_of_le hfits]
          exact h.length_le
      | jumpIfZero condSlot target => exact hinside
      | _ => trivial
    · rename_i hout
      have hinside := hold instr hi
      cases instr with
      | jump target => exact .inr (hinside.resolve_left hout)
      | jumpIfZero condSlot target => exact hinside
      | _ => trivial

end Emitted

/-- What an emitter does to any state. -/
def Emits (f : Emitter) : Prop := ∀ s, Emitted [] s (f s)

theorem Emits.foldl {α : Type*} {f : EmitState → α → EmitState} (h : ∀ a, Emits (f · a))
    (as : List α) : Emits (as.foldl f ·) := by
  intro s
  induction as generalizing s with
  | nil => exact .refl s
  | cons a as ih => exact (h a s).trans (ih (f s a))

/-- The bodies of referenced messages are emitted as blocks. -/
def InlinesBlocks (cx : EmitContext) : Prop :=
  ∀ inlineMessage, cx.inlineMessage = some inlineMessage →
    ∀ namePrefix msg, Emits (inlineMessage namePrefix msg)

section Items

variable {cx : EmitContext}

theorem emitRead_emits (cx : EmitContext) {inlineMessage : String → Message → Emitter}
    (h : ∀ namePrefix msg, Emits (inlineMessage namePrefix msg)) (field : Field)
    (namePrefix fullName : String) (readSlot : Nat) :
    Emits (emitRead cx inlineMessage field namePrefix fullName readSlot) := by
  intro s
  unfold emitRead
  split
  case h_5 len _ =>
    exact (Emitted.expr s cx len).trans (.pushRead _ cx fun _ _ => by trivial)
  case h_6 refName _ =>
    split
    · exact (h _ _ s).trans (.of_tables rfl (Nat.le_refl _))
    · exact .pushRead s cx fun _ _ => trivial
  all_goals exact .pushRead s cx fun _ _ => trivial

theorem emitValidate_emits (cx : EmitContext) (v : Validate) : Emits (emitValidate cx v) := fun s =>
  (Emitted.expr s cx v.expr).trans (.push _ fun _ _ => trivial)

theorem emitFieldBody_emits (cx : EmitContext) {inlineMessage : String → Message → Emitter}
    (h : ∀ namePrefix msg, Emits (inlineMessage namePrefix msg)) (field : Field)
    (namePrefix : String) : Emits (emitFieldBody cx inlineMessage field namePrefix) := by
  intro s
  have hregister : Emitted [] s (registerField field (joinName namePrefix field.name) s) :=
    .of_tables rfl (Nat.le_refl _)
  have hread := hregister.trans
    (emitRead_emits cx h field namePrefix (joinName namePrefix field.name) s.slot _)
  unfold emitFieldBody
  dsimp only
  cases field.validate with
  | none =>
      dsimp only
      split
      · exact hread
      · exact hread.trans (.push _ fun _ _ => trivial)
  | some v =>
      have hcheck := hread.trans (emitValidate_emits cx v _)
      dsimp only
      split
      · exact hcheck
      · exact hcheck.trans (.push _ fun _ _ => trivial)

theorem emitField_emits (h : InlinesBlocks cx) (field : Field) (namePrefix : String) :
    Emits (emitFieldBytecode cx field namePrefix) := by
  intro s
  unfold emitFieldBytecode
  split
  · exact .pushRead s cx fun _ _ => trivial
  · rename_i inlineMessage hinline
    unfold emitCondition
    cases field.conditional with
    | none => exact emitFieldBody_emits cx (h _ hinline) field namePrefix s
    | some cond =>
        exact (Emitted.expr s cx cond).trans
          (.landHere (emitFieldBody_emits cx (h _ hinline) field namePrefix _))

theorem emitLet_emits (namePrefix : String) (binding : Let) :
    Emits (emitLet cx namePrefix binding) := fun s =>
  ((Emitted.expr s cx binding.value).trans (.push _ fun _ _ => by trivial)).trans
    (.of_tables rfl (Nat.le_succ _))

theorem emitCarry_emits (cx : EmitContext) (loopPrefix : String) (acc : SlotMap × EmitState) (carry : Carry) :
    Emitted [] acc.2 (emitCarry cx loopPrefix acc carry).2 :=
  (Emitted.expr acc.2 cx carry.init).trans (.of_tables rfl (Nat.le_refl _))

theorem emitCarries_emits (cx : EmitContext) (loopPrefix : String) (carries : List Carry)
    (acc : SlotMap × EmitState) :
    Emitted [] acc.2 (carries.foldl (emitCarry cx loopPrefix) acc).2 := by
  induction carries generalizing acc with
  | nil => exact .refl _
  | cons carry carries ih => exact (emitCarry_emits cx loopPrefix acc carry).trans (ih _)

theorem emitNext_emits (cx : EmitContext) (loopPrefix : String) (nxt : NextStmt) :
    Emits (emitNext cx loopPrefix · nxt) := fun s =>
  (Emitted.expr s cx nxt.value).trans (.push _ fun _ _ => trivial)

/-- A loop is the only item that emits a backward jump, and it emits one. -/
theorem emitLoop_emits (h : InlinesBlocks cx) (namePrefix : String) (lp : Loop) :
    Emits (emitLoop cx namePrefix lp) := by
  intro s
  have hcarries := emitCarries_emits cx (joinName namePrefix lp.name) lp.carries (∅, s)
  have hregister : ∀ carrySlots,
      Emits (lp.carries.foldl (registerCarry (joinName namePrefix lp.name) carrySlots) ·) :=
    fun carrySlots => Emits.foldl (f := registerCarry (joinName namePrefix lp.name) carrySlots)
      (fun carry s => .of_tables rfl (Nat.le_refl _)) lp.carries
  have hbody := Emits.foldl (fun field => emitField_emits h field (joinName namePrefix lp.name))
    lp.body
  have hnexts := Emits.foldl (emitNext_emits cx (joinName namePrefix lp.name)) lp.nexts
  exact (hcarries.trans (.closeLoop (.expr _ cx lp.condition)
    ((hbody _).trans (hnexts _)))).trans (hregister _ _)

/-- The arms emitted so far: their jumps to the end are pending, and the default
arm is an emitter of blocks. -/
structure ArmsEmitted (s : EmitState) (acc : ArmsState) : Prop where
  emitted : Emitted acc.endJumps s acc.state
  endJumps_ge : ∀ i ∈ acc.endJumps, s.instructions.length ≤ i
  default_emits : ∀ body, acc.defaultArm = some body → Emits body

theorem emitArm_emits {tagSlot : Nat} {s : EmitState} {acc : ArmsState} (h : ArmsEmitted s acc)
    {arm : Option Int64 × Emitter} (hbody : Emits arm.2) :
    ArmsEmitted s (emitArm tagSlot acc arm) := by
  obtain ⟨case, body⟩ := arm
  cases case with
  | none =>
      exact ⟨h.emitted, h.endJumps_ge, fun body' heq => Option.some.inj heq ▸ hbody⟩
  | some cv =>
      let s₁ := acc.state.push (.loadConst cv.toUInt64 acc.state.slot)
      let s₂ := s₁.push (.binOp .eq tagSlot acc.state.slot (acc.state.slot + 1))
      let s₃ : EmitState := { s₂ with slot := acc.state.slot + 1 + 1 }
      let s₄ := body (s₃.push (.jumpIfZero (acc.state.slot + 1) 0))
      let pending := acc.endJumps ++ [s₄.instructions.length]
      have hhead : Emitted pending acc.state s₃ :=
        ((Emitted.push acc.state fun _ _ => by trivial).trans
          (.push s₁ fun _ _ => by trivial)).trans (.of_tables rfl (Nat.le_add_right _ 2))
      have hbody' : Emitted pending (s₃.push (.jumpIfZero (acc.state.slot + 1) 0)) s₄ :=
        (hbody _).mono (List.nil_subset _)
      have hend : Emitted pending s₄ (s₄.push (.jump 0)) :=
        .push s₄ fun _ _ => .inl (List.mem_append_right _ (List.mem_singleton_self _))
      have harm := hhead.trans (.landHere (hbody'.trans hend))
      refine ⟨(h.emitted.mono (List.subset_append_left ..)).trans harm, ?_, h.default_emits⟩
      intro i hi
      obtain hi | hi := List.mem_append.mp hi
      · exact h.endJumps_ge i hi
      · have hbefore := h.emitted.length_le
        have hle := hhead.length_le
        have hle' := hbody'.length_le
        rw [List.mem_singleton.mp hi]
        change acc.state.instructions.length ≤ s₃.instructions.length at hle
        simp only [EmitState.push, List.length_append, List.length_singleton] at hle'
        change s.instructions.length ≤ s₄.instructions.length
        omega

theorem emitArms_emits {tagSlot : Nat} {s : EmitState} {arms : List (Option Int64 × Emitter)}
    (harms : ∀ arm ∈ arms, Emits arm.2) {acc : ArmsState} (h : ArmsEmitted s acc) :
    ArmsEmitted s (arms.foldl (emitArm tagSlot) acc) := by
  induction arms generalizing acc with
  | nil => exact h
  | cons arm arms ih =>
      exact ih (fun arm' hmem => harms arm' (List.mem_cons_of_mem _ hmem))
        (emitArm_emits h (harms arm (List.mem_cons_self ..)))

/-- What a match emits behind its tag. -/
theorem emitMatch_behind {tag : Expr} {arms : List (Option Int64 × Emitter)}
    (harms : ∀ arm ∈ arms, Emits arm.2) (s : EmitState) :
    Emitted [] (s.emitExpr cx tag).2 (emitMatch cx tag arms s) := by
  let s₁ := (s.emitExpr cx tag).2
  let acc := arms.foldl (emitArm (s.emitExpr cx tag).1) ⟨[], none, s₁⟩
  have hacc : ArmsEmitted s₁ acc := emitArms_emits harms ⟨.refl s₁, by simp, by simp⟩
  have hall : Emitted acc.endJumps s₁ acc.finish := by
    cases hdefault : acc.defaultArm with
    | none =>
        rw [ArmsState.finish_none hdefault]
        exact hacc.emitted
    | some body =>
        rw [ArmsState.finish_some hdefault]
        exact hacc.emitted.trans
          ((hacc.default_emits body hdefault acc.state).mono (List.nil_subset _))
  exact hall.patchEnds hacc.endJumps_ge

theorem emitMatch_emits {tag : Expr} {arms : List (Option Int64 × Emitter)}
    (harms : ∀ arm ∈ arms, Emits arm.2) : Emits (emitMatch cx tag arms) := fun s =>
  (Emitted.expr s cx tag).trans (emitMatch_behind harms s)

/-- What the emitter of every item keeps is kept when the items are emitted in order. -/
theorem emitItems_keeps {R : EmitState → EmitState → Prop} (hrefl : ∀ s, R s s)
    (htrans : ∀ s t u, R s t → R t u → R s u) {items : List (Nat × Emitter)}
    (h : ∀ item ∈ items, ∀ s, R s (item.2 s)) (s : EmitState) : R s (emitItems items s) := by
  have hsorted : ∀ item ∈ items.insertionSort (fun a b => a.1 ≤ b.1), ∀ s, R s (item.2 s) :=
    fun item hmem => h item ((List.perm_insertionSort _ _).mem_iff.mp hmem)
  unfold emitItems
  generalize items.insertionSort (fun a b => a.1 ≤ b.1) = sorted at hsorted
  induction sorted generalizing s with
  | nil => exact hrefl s
  | cons item sorted ih =>
      exact htrans _ _ _ (hsorted item (List.mem_cons_self ..) s)
        (ih _ fun item' hmem => hsorted item' (List.mem_cons_of_mem _ hmem))

/-- Items with more than an order and an emitter are sorted all the same. -/
theorem emitItems_map {α : Type*} (emitter : α → Nat × Emitter) (items : List α) (s : EmitState) :
    emitItems (items.map emitter) s =
      (items.insertionSort fun a b => (emitter a).1 ≤ (emitter b).1).foldl
        (fun s a => (emitter a).2 s) s := by
  have hsort : (items.map emitter).insertionSort (fun a b => a.1 ≤ b.1) =
      (items.insertionSort fun a b => (emitter a).1 ≤ (emitter b).1).map emitter := by
    refine (List.map_insertionSort (fun a b => (emitter a).1 ≤ (emitter b).1) _ emitter items
      fun _ _ _ _ => ?_).symm
    exact Iff.rfl
  unfold emitItems
  rw [hsort, List.foldl_map]

theorem emitItems_emits {items : List (Nat × Emitter)} (h : ∀ item ∈ items, Emits item.2) :
    Emits (emitItems items) :=
  emitItems_keeps .refl (fun _ _ _ => .trans) h

theorem emitBodyBlock_emits (h : InlinesBlocks cx) (namePrefix : String) (fields : List Field)
    (lets : List Let) (loops : List Loop) (validates : List Validate)
    {matchItems : List (Nat × Emitter)} (hmatches : ∀ item ∈ matchItems, Emits item.2) :
    Emits (emitBodyBlock cx namePrefix fields lets loops validates matchItems) := by
  refine emitItems_emits fun item hmem => ?_
  simp only [List.mem_append, List.mem_map] at hmem
  obtain (((⟨f, -, rfl⟩ | ⟨l, -, rfl⟩) | ⟨v, -, rfl⟩) | ⟨lp, -, rfl⟩) | hmatch := hmem
  · exact emitField_emits h f namePrefix
  · exact emitLet_emits namePrefix l
  · exact emitValidate_emits cx v
  · exact emitLoop_emits h namePrefix lp
  · exact hmatches item hmatch

mutual

theorem matchEmitter_emits (h : InlinesBlocks cx) (namePrefix : String) :
    ∀ m, Emits (matchEmitter cx namePrefix m)
  | .mk _ arms _ => by
      unfold matchEmitter
      exact emitMatch_emits (armEmitters_emit h namePrefix arms)

theorem armEmitters_emit (h : InlinesBlocks cx) (namePrefix : String) :
    ∀ arms, ∀ arm ∈ armEmitters cx namePrefix arms, Emits arm.2
  | [] => by simp [armEmitters]
  | arm :: arms => by
      unfold armEmitters
      exact List.forall_mem_cons.mpr
        ⟨armEmitter_emits h namePrefix arm, armEmitters_emit h namePrefix arms⟩

theorem armEmitter_emits (h : InlinesBlocks cx) (namePrefix : String) :
    ∀ arm, Emits (armEmitter cx namePrefix arm).2
  | .mk _ fields lets loops validates matches_ => by
      unfold armEmitter
      exact emitBodyBlock_emits h namePrefix fields lets loops validates
        (matchItems_emit h namePrefix matches_)

theorem matchItems_emit (h : InlinesBlocks cx) (namePrefix : String) :
    ∀ ms, ∀ item ∈ matchItems cx namePrefix ms, Emits item.2
  | [] => by simp [matchItems]
  | m :: ms => by
      unfold matchItems
      exact List.forall_mem_cons.mpr
        ⟨matchEmitter_emits h namePrefix m, matchItems_emit h namePrefix ms⟩

end

theorem emitMessage_emits (h : InlinesBlocks cx) (namePrefix : String) (msg : Message) :
    Emits (emitMessage cx namePrefix msg) :=
  emitBodyBlock_emits h namePrefix msg.fields msg.lets msg.loops msg.validates
    (matchItems_emit h namePrefix msg.matches_)

end Items

/-- Every message is emitted as a block, whatever the inlining depth. -/
theorem messageEmitter_emits (messages : List Message) (offset : Nat) (littleEndian : Bool)
    (remaining : Nat) (namePrefix : String) (msg : Message) :
    Emits (messageEmitter messages offset littleEndian remaining namePrefix msg) := by
  induction remaining generalizing namePrefix msg with
  | zero => exact emitMessage_emits (fun _ hinline => by simp at hinline) namePrefix msg
  | succ remaining ih =>
      refine emitMessage_emits (fun inlineMessage hinline => ?_) namePrefix msg
      obtain rfl := Option.some.inj hinline
      exact ih

/-- In a compiled program whose addresses fit in sixteen bits, conditional jumps
go forward. -/
theorem compiled_jumpIfZero_forward {proto : Protocol} {program : BytecodeProgram}
    {fieldMap : SlotMap} (hcompile : protocolToBytecodeWithMap proto = some (program, fieldMap))
    (hfits : program.instructions.length ≤ u16Max) {i condSlot target : Nat}
    (hi : program.instructions[i]? = some (.jumpIfZero condSlot target)) : i < target := by
  unfold protocolToBytecodeWithMap at hcompile
  dsimp only at hcompile
  split at hcompile
  · simp only [Option.some.injEq, Prod.mk.injEq] at hcompile
    obtain ⟨rfl, -⟩ := hcompile
    let empty : EmitState := ⟨∅, ∅, [], 0⟩
    have hstart : Emitted [] empty (emitProtocol proto) := by
      have hload : ∀ varSlots, Emitted [] empty
          ⟨varSlots, ∅, [.loadConst 0 currentOffsetSlot], 1⟩ := fun varSlots =>
        ⟨⟨_, rfl, fun _ => .singleton trivial⟩, Nat.zero_le _⟩
      unfold emitProtocol
      dsimp only
      split
      · exact hload _
      · exact (hload _).trans (messageEmitter_emits _ _ _ _ _ _ _)
    obtain ⟨block, hblock, hjumps⟩ := hstart.code
    rw [List.nil_append] at hblock
    simp only [List.length_append, List.length_singleton] at hfits
    dsimp only at hi
    by_cases hlt : i < (emitProtocol proto).instructions.length
    · rw [List.getElem?_append_left hlt, hblock] at hi
      have hinside := hjumps (by omega) i _ hi
      exact Nat.lt_of_le_of_lt (Nat.le_add_left i _) hinside.1
    · rw [List.getElem?_append_right (Nat.le_of_not_lt hlt)] at hi
      cases h : i - (emitProtocol proto).instructions.length <;> simp [h] at hi
  · cases hcompile

end NFdl
