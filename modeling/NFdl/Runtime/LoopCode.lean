import NFdl.Runtime.CarryTable
import NFdl.Runtime.EmitExprPass

/-!
# The code of a loop

The code of a loop is in four parts: the initialisers, the condition with the
exit jump and the body, the `next` statements, and the jump back. `LoopCode`
says that they stand in a program, and where control can go from each.
-/

namespace NFdl

open BytecodeVm Machine

/-- The program contains what was emitted between two states of the compiler. -/
def Contains (program : BytecodeProgram) (s s' : EmitState) : Prop :=
  BlockAt program.instructions s.instructions.length
    (s'.instructions.drop s.instructions.length)

section Contains

variable {program : BytecodeProgram} {s s' s'' : EmitState}

theorem drop_trans (h : s.instructions <+: s'.instructions)
    (h' : s'.instructions <+: s''.instructions) :
    s''.instructions.drop s.instructions.length =
      s'.instructions.drop s.instructions.length ++
        s''.instructions.drop s'.instructions.length := by
  obtain ⟨a, ha⟩ := h
  obtain ⟨b, hb⟩ := h'
  rw [← hb, ← ha, List.append_assoc, List.drop_left, List.drop_left, ← List.append_assoc,
    List.drop_left]

theorem Contains.split (hcode : Contains program s s'') (h : s.instructions <+: s'.instructions)
    (h' : s'.instructions <+: s''.instructions) : Contains program s s' ∧ Contains program s' s'' := by
  unfold Contains at *
  rw [drop_trans h h'] at hcode
  refine ⟨hcode.left, hcode.right_at ?_⟩
  have hle := h.length_le
  rw [List.length_drop]
  omega

theorem contains_emitExpr {cx : EmitContext} {e : Expr}
    (h : Contains program s (s.emitExpr cx e).2) :
    BlockAt program.instructions s.instructions.length
      (exprBlock s.varSlots cx.currentOffsetSlot e s.instructions.length s.slot) := by
  unfold Contains EmitState.emitExpr at h
  rw [emitExprToSlot_eq] at h
  dsimp only at h
  rwa [List.drop_left] at h

theorem contains_of_append {block : List Instruction}
    (h : s'.instructions = s.instructions ++ block)
    (hblock : BlockAt program.instructions s.instructions.length block) : Contains program s s' := by
  unfold Contains
  rwa [h, List.drop_left]

end Contains

section Emitters

variable {cx : EmitContext} {loopPrefix : String}

theorem emitExpr_length (s : EmitState) (cx : EmitContext) (e : Expr) :
    (s.emitExpr cx e).2.instructions.length =
      s.instructions.length + codeLength s.varSlots e := by
  unfold EmitState.emitExpr
  rw [emitExprToSlot_eq, List.length_append, exprBlock_length]

theorem initState_emitted (cx : EmitContext) (loopPrefix : String) (carries : List Carry)
    (s : EmitState) : Emitted [] s (initState cx loopPrefix carries s) := by
  induction carries generalizing s with
  | nil => exact .refl s
  | cons carry carries ih => exact (emitCarry_emits cx loopPrefix (∅, s) carry).trans (ih _)

/-- The map of carry slots does not matter for the state. -/
theorem emitCarries_state (cx : EmitContext) (loopPrefix : String) (carries : List Carry)
    (acc : SlotMap × EmitState) :
    (carries.foldl (emitCarry cx loopPrefix) acc).2 = initState cx loopPrefix carries acc.2 := by
  induction carries generalizing acc with
  | nil => rfl
  | cons carry carries ih => exact ih (emitCarry cx loopPrefix acc carry)

theorem registerCarries_instructions (loopPrefix : String) (carrySlots : SlotMap)
    (carries : List Carry) (s : EmitState) :
    (carries.foldl (registerCarry loopPrefix carrySlots) s).instructions = s.instructions := by
  induction carries generalizing s with
  | nil => rfl
  | cons carry carries ih => exact ih _

theorem emitNexts_varSlots (cx : EmitContext) (loopPrefix : String) (nexts : List NextStmt)
    (s : EmitState) : (nexts.foldl (emitNext cx loopPrefix) s).varSlots = s.varSlots := by
  induction nexts generalizing s with
  | nil => rfl
  | cons nxt nexts ih => exact ih _

theorem emitNexts_emitted (cx : EmitContext) (loopPrefix : String) (nexts : List NextStmt) :
    Emits (nexts.foldl (emitNext cx loopPrefix) ·) :=
  .foldl (emitNext_emits cx loopPrefix) nexts

theorem bodyState_emitted (hcx : InlinesBlocks cx) (lp : Loop) (s : EmitState) :
    Emitted [] ((condState cx loopPrefix lp s).push
      (.jumpIfZero (condSlot cx loopPrefix lp s) 0)) (bodyState cx loopPrefix lp s) :=
  Emits.foldl (fun field => emitField_emits hcx field loopPrefix) lp.body _

end Emitters

/-- The addresses at which the parts of a loop's code start. -/
structure LoopLayout where
  inits : Nat
  head : Nat
  nexts : Nat
  close : Nat

def loopLayout (cx : EmitContext) (loopPrefix : String) (lp : Loop) (s : EmitState) : LoopLayout where
  inits := s.instructions.length
  head := (initState cx loopPrefix lp.carries s).instructions.length
  nexts := (bodyState cx loopPrefix lp s).instructions.length
  close := (nextState cx loopPrefix lp s).instructions.length

/-- An instruction of the condition or the body: its jumps go behind the first
instruction and stay inside, or leave the loop at `exit`. -/
def HeadInstr (lo hi exit : Nat) : Nat → Instruction → Prop := fun _ instr =>
  match instr with
  | .jumpIfZero _ target => lo < target ∧ target ≤ hi ∨ target = exit
  | .jump target => lo < target ∧ target ≤ hi
  | _ => True

/-- The code of a loop stands in a program. -/
structure LoopCode (program : BytecodeProgram) (cx : EmitContext) (loopPrefix : String) (lp : Loop)
    (s : EmitState) : Prop where
  inits : Contains program s (initState cx loopPrefix lp.carries s)
  head : ∀ i instr, (loopLayout cx loopPrefix lp s).head ≤ i →
    i < (loopLayout cx loopPrefix lp s).nexts → program.instructions[i]? = some instr →
    HeadInstr (loopLayout cx loopPrefix lp s).head (loopLayout cx loopPrefix lp s).nexts
      ((loopLayout cx loopPrefix lp s).close + 1) i instr
  nexts : Contains program (bodyState cx loopPrefix lp s) (nextState cx loopPrefix lp s)
  close : program.instructions[(loopLayout cx loopPrefix lp s).close]? =
    some (.jump (loopLayout cx loopPrefix lp s).head)
  inits_le : (loopLayout cx loopPrefix lp s).inits ≤ (loopLayout cx loopPrefix lp s).head
  head_lt : (loopLayout cx loopPrefix lp s).head < (loopLayout cx loopPrefix lp s).nexts
  nexts_le : (loopLayout cx loopPrefix lp s).nexts ≤ (loopLayout cx loopPrefix lp s).close
  close_lt : (loopLayout cx loopPrefix lp s).close < u16Max

theorem HeadInstr.of_expr {lo hi hi' exit i : Nat} {instr : Instruction}
    (h : ExprInstr hi' i instr) (hlo : lo ≤ i) (hhi : hi' ≤ hi) : HeadInstr lo hi exit i instr := by
  cases instr with
  | jumpIfZero condSlot target =>
      exact .inl ⟨Nat.lt_of_le_of_lt hlo h.1, Nat.le_trans h.2 hhi⟩
  | jump target => exact ⟨Nat.lt_of_le_of_lt hlo h.1, Nat.le_trans h.2 hhi⟩
  | _ => trivial

theorem HeadInstr.of_inside {lo lo' hi hi' exit i : Nat} {instr : Instruction}
    (h : JumpInside [] lo' hi' i instr) (hlo : lo < lo') (hge : lo' ≤ i) (hhi : hi' ≤ hi) :
    HeadInstr lo hi exit i instr := by
  cases instr with
  | jumpIfZero condSlot target =>
      exact .inl ⟨Nat.lt_trans (Nat.lt_of_lt_of_le hlo hge) h.1, Nat.le_trans h.2 hhi⟩
  | jump target =>
      obtain hmem | ⟨htarget, hle⟩ := h
      · cases hmem
      · exact ⟨Nat.lt_of_lt_of_le hlo htarget, Nat.le_trans hle hhi⟩
  | _ => trivial

/-- The parts of the code that the compiler emits for a loop. -/
theorem emitLoop_instructions (cx : EmitContext) (namePrefix : String) (lp : Loop) (s : EmitState)
    {cond block : List Instruction}
    (hcond : (condState cx (joinName namePrefix lp.name) lp s).instructions =
      (initState cx (joinName namePrefix lp.name) lp.carries s).instructions ++ cond)
    (hblock : (nextState cx (joinName namePrefix lp.name) lp s).instructions =
      ((condState cx (joinName namePrefix lp.name) lp s).push
        (.jumpIfZero (condSlot cx (joinName namePrefix lp.name) lp s) 0)).instructions ++ block) :
    (emitLoop cx namePrefix lp s).instructions =
      (initState cx (joinName namePrefix lp.name) lp.carries s).instructions ++ (cond ++
        ([.jumpIfZero (condSlot cx (joinName namePrefix lp.name) lp s)
          (asU16 ((nextState cx (joinName namePrefix lp.name) lp s).instructions.length + 1))] ++
        (block ++ [.jump (asU16
          (initState cx (joinName namePrefix lp.name) lp.carries s).instructions.length)]))) := by
  let loopPrefix := joinName namePrefix lp.name
  let acc := lp.carries.foldl (emitCarry cx loopPrefix) (∅, s)
  let closed : EmitState → EmitState := fun i =>
    ((lp.nexts.foldl (emitNext cx loopPrefix)
      (lp.body.foldl (fun s field => emitFieldBytecode cx field loopPrefix s)
        ((i.emitExpr cx lp.condition).2.push (.jumpIfZero (i.emitExpr cx lp.condition).1 0)))).push
      (.jump (asU16 i.instructions.length))).landHere
        (i.emitExpr cx lp.condition).2.instructions.length
  have hloop : (emitLoop cx namePrefix lp s).instructions =
      (lp.carries.foldl (registerCarry loopPrefix acc.1) (closed acc.2)).instructions := rfl
  have hacc : acc.2 = initState cx loopPrefix lp.carries s := emitCarries_state ..
  rw [hloop, registerCarries_instructions, hacc]
  exact Emitted.closeLoop_instructions hcond hblock

theorem condState_instructions (cx : EmitContext) (loopPrefix : String) (lp : Loop)
    (s : EmitState) : (condState cx loopPrefix lp s).instructions =
      (initState cx loopPrefix lp.carries s).instructions ++
        exprBlock (initState cx loopPrefix lp.carries s).varSlots cx.currentOffsetSlot lp.condition
          (initState cx loopPrefix lp.carries s).instructions.length
          (initState cx loopPrefix lp.carries s).slot := by
  unfold condState EmitState.emitExpr
  rw [emitExprToSlot_eq]

section Blocks

variable {program : BytecodeProgram} {cond body nexts : List Instruction}
  {head mid bodyStart next close condSlot : Nat}

/-- The head of a loop from its blocks: the condition, the exit jump, the body. -/
theorem head_of_blocks
    (hcode : BlockAt program.instructions head
      (cond ++ ([.jumpIfZero condSlot (close + 1)] ++ body)))
    (hmid : mid = head + cond.length) (hstart : bodyStart = mid + 1)
    (hnext : next = bodyStart + body.length) (hcond : AtEach (ExprInstr mid) head cond)
    (hbody : JumpsInside [] bodyStart next bodyStart body) {i : Nat} {instr : Instruction}
    (hge : head ≤ i) (hlt : i < next) (hi : program.instructions[i]? = some instr) :
    HeadInstr head next (close + 1) i instr := by
  have hexit : program.instructions[mid]? = some (.jumpIfZero condSlot (close + 1)) :=
    (hcode.right_at hmid).head
  have hbodyCode : BlockAt program.instructions bodyStart body :=
    (hcode.right_at hmid).right_at hstart
  obtain hbefore | rfl | hbehind := Nat.lt_trichotomy i mid
  · exact .of_expr (hcond.at_block hcode.left hge (by omega) hi) hge (by omega)
  · obtain rfl := Option.some.inj (hexit.symm.trans hi)
    exact .inr rfl
  · have hinside := AtEach.at_block hbody hbodyCode (by omega) (by omega) hi
    exact .of_inside hinside (by omega) (by omega) (Nat.le_refl _)

end Blocks

/-- What the compiler emits for a loop is the code of the loop. -/
theorem loopCode_of_emitLoop {program : BytecodeProgram} {cx : EmitContext} {namePrefix : String}
    {lp : Loop} {s : EmitState} (hcx : InlinesBlocks cx)
    (hcode : Contains program s (emitLoop cx namePrefix lp s))
    (hfits : (emitLoop cx namePrefix lp s).instructions.length ≤ u16Max) :
    LoopCode program cx (joinName namePrefix lp.name) lp s := by
  obtain ⟨initBlock, hinit⟩ := (initState_emitted cx (joinName namePrefix lp.name) lp.carries s).grows
  obtain ⟨bodyBlock, hbody, hjumps⟩ := (bodyState_emitted hcx lp s).code
  obtain ⟨nextBlock, hnext⟩ := (emitNexts_emitted cx (joinName namePrefix lp.name) lp.nexts
    (bodyState cx (joinName namePrefix lp.name) lp s)).grows
  change _ = (nextState cx (joinName namePrefix lp.name) lp s).instructions at hnext
  have hcond := condState_instructions cx (joinName namePrefix lp.name) lp s
  have hloop := emitLoop_instructions cx namePrefix lp s hcond
    (by rw [← List.append_assoc, ← hbody]; exact hnext.symm)
  have hinstrs : ∀ varSlots next base, base + codeLength varSlots lp.condition ≤ u16Max →
      AtEach (ExprInstr (base + codeLength varSlots lp.condition)) base
        (exprBlock varSlots cx.currentOffsetSlot lp.condition base next) :=
    fun varSlots next base hfits => exprBlock_instrs varSlots _ lp.condition hfits
  have hlength : ∀ varSlots next base,
      (exprBlock varSlots cx.currentOffsetSlot lp.condition base next).length =
        codeLength varSlots lp.condition := fun _ _ _ => exprBlock_length ..
  have hlenInit := congrArg List.length hinit
  have hlenCond := congrArg List.length hcond
  have hlenBody := congrArg List.length hbody
  have hlenNext := congrArg List.length hnext
  have hlenLoop := congrArg List.length hloop
  unfold Contains at hcode
  rw [hloop, ← hinit, List.append_assoc, List.drop_left, hinit] at hcode
  have hinits := contains_of_append hinit.symm hcode.left
  have hrest : BlockAt program.instructions
      (initState cx (joinName namePrefix lp.name) lp.carries s).instructions.length _ :=
    hcode.right_at (by rw [← hlenInit, List.length_append])
  simp only [EmitState.push, List.length_append, List.length_singleton, hlength]
    at hlenInit hlenCond hlenBody hlenNext hlenLoop hjumps
  rw [asU16_of_le (by omega), asU16_of_le (by omega)] at hrest
  have htail : BlockAt program.instructions
      ((condState cx (joinName namePrefix lp.name) lp s).instructions.length + 1) _ :=
    (hrest.right_at (by rw [hlength]; exact hlenCond)).right
  have hnexts : BlockAt program.instructions
      (bodyState cx (joinName namePrefix lp.name) lp s).instructions.length nextBlock :=
    htail.left.right_at hlenBody
  have hend : BlockAt program.instructions
      (nextState cx (joinName namePrefix lp.name) lp s).instructions.length _ :=
    htail.right_at (by rw [List.length_append]; omega)
  refine ⟨hinits, ?_, contains_of_append hnext.symm hnexts, hend.head, ?_, ?_, ?_, ?_⟩
  · intro i instr hge hlt hi
    have hhead := hrest
    rw [List.append_assoc bodyBlock, ← List.append_assoc [_] bodyBlock, ← List.append_assoc] at hhead
    exact head_of_blocks hhead.left (by rw [hlength]; exact hlenCond) rfl hlenBody
      (hlenCond ▸ hinstrs _ _ _ (by omega)) (hjumps (by omega)) hge hlt hi
  all_goals simp only [loopLayout]
  · omega
  · omega
  · omega
  · omega

end NFdl
