import NFdl.Runtime.Descent
import NFdl.Runtime.WellFormed

/-!
# Fields are decoded as declared

A run passes through the structured code of a protocol. The passage through the code of
an expression, a check or a field is read as the decoder's walk over it: a field is read
with its declared type, as long as the compiler still inlines messages.
-/

namespace NFdl

open BytecodeVm Machine

section Moves

variable {program : BytecodeProgram} {stream : Bool} {c d : Config}

/-- Only instructions that read input suspend. -/
theorem execInstr_not_suspends {instr : Instruction} (h : ¬ instr.ReadsInput) (ip : ℕ)
    (vm : BytecodeVm) : ¬ (execInstr true instr ip vm).2.Suspends := by
  cases instr with
  | validate predSlot message =>
      exact withSlot_not_suspends fun v => by split <;> exact id
  | emitField name slot => exact withSlot_not_suspends fun _ => id
  | binOp op left right dst =>
      refine withSlot_not_suspends fun l => withSlot_not_suspends fun r => ?_
      split <;> exact id
  | unaryOp op src dst => exact withSlot_not_suspends fun _ => id
  | copySlot src dst => exact withSlot_not_suspends fun _ => id
  | jumpIfZero condSlot target =>
      exact withSlot_not_suspends (execJumpIfZero_not_suspends target ip vm)
  | loadConst value dst => exact id
  | updateOffset slot => exact id
  | jump target => exact id
  | ret => exact id
  | _ => exact absurd trivial h

/-- What is left when a stream run is suspended. -/
theorem Resumes.state (h : Resumes program stream c d) :
    d.ip = c.ip ∧ d.vm.slots = c.vm.slots ∧
      ∃ instr, program.instructions[c.ip]? = some instr ∧ instr.ReadsInput := by
  cases h with
  | mk more hsuspended =>
      obtain ⟨instr, hinstr, hsuspends, -, -⟩ := suspended_at hsuspended
      have hwaits := suspended_waits hsuspended
      refine ⟨hwaits.ip, hwaits.slots, instr, hinstr, ?_⟩
      by_contra hreads
      exact execInstr_not_suspends hreads c.ip c.vm.tick hsuspends

theorem resumed_state (h : Relation.ReflTransGen (Resumes program stream) c d) :
    d.ip = c.ip ∧ d.vm.slots = c.vm.slots := by
  induction h with
  | refl => exact ⟨rfl, rfl⟩
  | tail _ hlast ih => exact ⟨hlast.state.1.trans ih.1, hlast.state.2.1.trans ih.2⟩

/-- Before an instruction that does not read nothing waits. -/
theorem resumed_eq {instr : Instruction} (hinstr : program.instructions[c.ip]? = some instr)
    (hreads : ¬ instr.ReadsInput) (h : Relation.ReflTransGen (Resumes program stream) c d) :
    d = c := by
  induction h with
  | refl => rfl
  | tail _ hlast ih =>
      subst ih
      obtain ⟨-, -, instr', hinstr', hreads'⟩ := hlast.state
      obtain rfl := Option.some.inj (hinstr.symm.trans hinstr')
      exact absurd hreads' hreads

variable {i : { i : Instruction // ¬ i.IsJump }} {cond slot : ℕ}

theorem Instruction.IsSilent.not_reads {instr : Instruction} (h : instr.IsSilent) :
    ¬ instr.ReadsInput := by
  cases instr with
  | emitField name slot => exact absurd h id
  | _ => exact h

/-- An instruction that does not read is executed at once. -/
theorem does_move (h : (vmMoves program stream).does i c d) (hreads : ¬ i.1.ReadsInput) :
    program.instructions[c.ip]? = some i.1 ∧ vmMove program stream c = .ok d := by
  obtain ⟨hinstr, c', hresumed, hmove⟩ := h
  obtain rfl := resumed_eq hinstr hreads hresumed
  exact ⟨hinstr, hmove⟩

theorem does_slots (h : (vmMoves program stream).does i c d) (hdest : i.1.dest ≠ some slot) :
    d.vm.slots[slot]? = c.vm.slots[slot]? := by
  obtain ⟨hinstr, c', hresumed, hmove⟩ := h
  obtain ⟨hip, hslots⟩ := resumed_state hresumed
  rw [← hslots]
  refine vmMove_slots hmove fun instr hinstr' => ?_
  rw [hip, hinstr, Option.some.injEq] at hinstr'
  rw [← hinstr']
  exact hdest.symm

theorem jump_slots {instr : Instruction} (hinstr : program.instructions[c.ip]? = some instr)
    (hdest : instr.dest = none) (hmove : vmMove program stream c = .ok d) :
    d.vm.slots[slot]? = c.vm.slots[slot]? := by
  refine vmMove_slots hmove fun instr' hinstr' => ?_
  rw [hinstr, Option.some.injEq] at hinstr'
  rw [← hinstr', hdest]
  exact Option.some_ne_none slot

/-- A slot that the code does not write keeps its value. -/
theorem passage_slots {code : Code} {base : ℕ}
    (h : Passage (vmMoves program stream) Config.ip code base c d)
    (hcode : code.All fun i => i.1.dest ≠ some slot) :
    d.vm.slots[slot]? = c.vm.slots[slot]? := by
  have hkeeps := h.keeps (R := fun c d => d.vm.slots[slot]? = c.vm.slots[slot]?) hcode
    (fun _ => rfl) (fun _ _ _ hst htu => htu.trans hst)
  refine hkeeps (fun i c d hdest hdoes => does_slots hdoes hdest) ?_ ?_ ?_
  · rintro cond c d ⟨target, v, hinstr, hmove, -⟩
    exact jump_slots hinstr rfl hmove
  · rintro cond c d ⟨target, hinstr, hmove, -⟩
    exact jump_slots hinstr rfl hmove
  · rintro c d ⟨target, hinstr, hmove⟩
    exact jump_slots hinstr rfl hmove

variable (proto : Protocol)

theorem does_rests (h : (vmMoves program stream).does i c d) (hsilent : i.1.IsSilent) :
    (vmReader proto program stream).rests c d := by
  obtain ⟨hinstr, hmove⟩ := does_move h hsilent.not_reads
  exact ⟨i.1, hinstr, hsilent, hmove⟩

theorem enters_rests (h : (vmMoves program stream).enters cond c d) :
    (vmReader proto program stream).rests c d := by
  obtain ⟨target, v, hinstr, hmove, -⟩ := h
  exact ⟨_, hinstr, id, hmove⟩

theorem leaves_rests (h : (vmMoves program stream).leaves cond c d) :
    (vmReader proto program stream).rests c d := by
  obtain ⟨target, hinstr, hmove, -⟩ := h
  exact ⟨_, hinstr, id, hmove⟩

theorem jumps_rests (h : (vmMoves program stream).jumps c d) :
    (vmReader proto program stream).rests c d := by
  obtain ⟨target, hinstr, hmove⟩ := h
  exact ⟨_, hinstr, id, hmove⟩

theorem enters_getSlot (h : (vmMoves program stream).enters cond c d) : c.vm.getSlot cond ≠ 0 := by
  obtain ⟨target, v, -, -, hv, hne⟩ := h
  rwa [getSlot, List.getD_eq_getElem?_getD, hv]

theorem leaves_getSlot (h : (vmMoves program stream).leaves cond c d) : c.vm.getSlot cond = 0 := by
  obtain ⟨target, -, -, hv⟩ := h
  rw [getSlot, List.getD_eq_getElem?_getD, hv]
  rfl

end Moves

/-- The walk of the decoder over the virtual machine. -/
abbrev Descends (proto : Protocol) (program : BytecodeProgram) (stream : Bool)
    (tooDeep : ℕ → Prop) : ℕ → Task → Config → Config → Prop :=
  Decodes (vmReader proto program stream) proto tooDeep

/-- An instruction that reads a value of this kind into the slot, from a machine with these
slots. -/
structure ReadsAs (stream : Bool) (instr : Instruction) (kind : ReadKind) (slot : ℕ)
    (slots : List UInt64) : Prop where
  reads : instr.ReadsInput
  read : ∀ ip ip' vm vm', vm.slots = slots → execInstr stream instr ip vm = (vm', .goto ip') →
    ∃ v, HasRead kind v slot vm vm'

theorem ReadsAs.opaqueByte {slot : ℕ} {slots : List UInt64} :
    ReadsAs stream (.readU8 slot) (.int 1 false) slot slots :=
  ⟨trivial, fun _ _ _ _ _ hexec => execReadU8_hasRead hexec⟩

/-- A slice is as long as the slot of its length says. -/
theorem ReadsAs.slice {lenSlot slot : ℕ} (hne : lenSlot ≠ u16Max) (vm : BytecodeVm) :
    ReadsAs stream (.readSlice lenSlot slot) (.slice (vm.getSlot lenSlot)) slot vm.slots := by
  refine ⟨trivial, fun ip ip' before after hslots hexec => ?_⟩
  have hget : before.getSlot lenSlot = vm.getSlot lenSlot :=
    congrArg (List.getD · _ 0) hslots
  rw [← hget]
  exact execReadSlice_hasRead hne hexec

/-- The code of a field of scalar type is one read and the refresh of the offset. -/
theorem readCode_scalar (cx : EmitContext) {field : Field} {kind : ReadKind}
    (hkind : field.ty.readKind cx.littleEndian = some kind)
    (inlineCode : String → Message → CodeTable) (namePrefix fullName : String) (slot : ℕ)
    (s : EmitState) (stream : Bool) (slots : List UInt64) :
    ∃ instr hjump, readCode cx inlineCode field namePrefix fullName slot s =
      readThen cx instr hjump ∧ ReadsAs stream instr kind slot slots := by
  have hinteger : ∀ (n : ℕ) (ip ip' : ℕ) (vm vm' : BytecodeVm), vm.slots = slots →
      execReadInt stream n cx.littleEndian slot ip vm = (vm', .goto ip') →
      ∃ v, HasRead (.int n cx.littleEndian) v slot vm vm' := fun n ip ip' vm vm' _ h =>
    execReadInt_hasRead h
  have hrest : ∀ (ip ip' : ℕ) (vm vm' : BytecodeVm), vm.slots = slots →
      execReadRest field.name slot ip vm = (vm', .goto ip') → ∃ v, HasRead .rest v slot vm vm' :=
    fun ip ip' vm vm' _ h => execReadRest_hasRead h
  unfold readCode
  cases hty : field.ty with
  | u8 =>
      obtain rfl := Option.some.inj (hty ▸ hkind)
      exact ⟨.readU8 slot, _, rfl, trivial, fun _ _ _ _ _ h => execReadU8_hasRead h⟩
  | u16 =>
      obtain rfl := Option.some.inj (hty ▸ hkind)
      exact ⟨.readU16 slot cx.littleEndian, _, rfl, trivial, hinteger 2⟩
  | u24 =>
      obtain rfl := Option.some.inj (hty ▸ hkind)
      exact ⟨.readU24 slot cx.littleEndian, _, rfl, trivial, hinteger 3⟩
  | u32 =>
      obtain rfl := Option.some.inj (hty ▸ hkind)
      exact ⟨.readU32 slot cx.littleEndian, _, rfl, trivial, hinteger 4⟩
  | bitfield bits =>
      obtain rfl := Option.some.inj (hty ▸ hkind)
      exact ⟨.readBits bits slot, _, rfl, trivial, fun _ _ _ _ _ h => execReadBits_hasRead h⟩
  | bytesRest =>
      obtain rfl := Option.some.inj (hty ▸ hkind)
      exact ⟨.readRest field.name slot, _, rfl, trivial, hrest⟩
  | bytesEof =>
      obtain rfl := Option.some.inj (hty ▸ hkind)
      exact ⟨.readRest field.name slot, _, rfl, trivial, hrest⟩
  | bytesStream =>
      obtain rfl := Option.some.inj (hty ▸ hkind)
      exact ⟨.readRest field.name slot, _, rfl, trivial, hrest⟩
  | bytes len =>
      rw [hty] at hkind
      cases hkind
  | messageRef refName =>
      rw [hty] at hkind
      cases hkind

section Steps

variable {proto : Protocol} {program : BytecodeProgram} {stream : Bool} {c d : Config}
  {tooDeep : ℕ → Prop} {depth : ℕ} {cx : EmitContext}

/-- The instruction alone. -/
theorem does_reads {i : { i : Instruction // ¬ i.IsJump }} {kind : ReadKind} {slot : ℕ}
    (h : (vmMoves program stream).does i c d) (hreads : ReadsAs stream i.1 kind slot c.vm.slots) :
    ∃ v, (vmReader proto program stream).reads kind v c d ∧
      d.vm.slots = c.vm.slots.set slot v := by
  obtain ⟨hinstr, c', hresumed, hmove⟩ := h
  obtain ⟨hip, hslots⟩ := resumed_state hresumed
  obtain ⟨instr, hinstr', -, hexec⟩ := vmMove_eq_ok.mp hmove
  rw [hip, hinstr, Option.some.injEq] at hinstr'
  obtain ⟨v, hv⟩ := hreads.read c'.ip d.ip c'.vm.tick d.vm hslots (hinstr' ▸ hexec)
  refine ⟨v, ⟨i.1, c', hinstr, hreads.reads, hresumed, hmove, hv.read, hv.emitted⟩, ?_⟩
  rw [hv.slots, tick_slots, hslots]

/-- A read and the refresh of the offset. What the slot holds then is what was read. -/
theorem readThen_decodes {instr : Instruction} {hjump : ¬ instr.IsJump} {kind : ReadKind}
    {slot base : ℕ}
    (h : Passage (vmMoves program stream) Config.ip (readThen cx instr hjump) base c d)
    (hreads : ReadsAs stream instr kind slot c.vm.slots) (hslot : slot ≠ cx.currentOffsetSlot) :
    ∃ v, Descends proto program stream tooDeep depth (.read kind v) c d ∧
      ∀ v', d.vm.slots[slot]? = some v' → v' = v := by
  obtain ⟨m, hread, hoffset⟩ := h.seq_cases
  obtain ⟨v, hv, hslots⟩ := does_reads (i := ⟨instr, hjump⟩) hread.instr_does hreads
  have hrefresh : (vmMoves program stream).does ⟨.updateOffset cx.currentOffsetSlot, _⟩ m d :=
    hoffset.instr_does
  refine ⟨v, .settle (.read hv) (does_rests proto hrefresh id), fun v' hv' => ?_⟩
  rw [does_slots hrefresh fun heq => hslot (Option.some.inj heq).symm, hslots,
    List.getElem?_set] at hv'
  by_cases hlt : slot < c.vm.slots.length
  · rw [if_pos rfl, if_pos hlt] at hv'
    exact (Option.some.inj hv').symm
  · rw [if_pos rfl, if_neg hlt] at hv'
    cases hv'

/-- An expression where the compiler emits it. -/
theorem expr_decodes {e : Expr} {s : EmitState} (hat : ExprAt proto e cx s)
    (h : Passage (vmMoves program stream) Config.ip (s.exprCode cx e) s.instructions.length c d) :
    Descends proto program stream tooDeep depth
      (.ask e (d.vm.getSlot (s.emitExpr cx e).1)) c d :=
  .ask ⟨cx, s, hat, h.start, h, rfl⟩

/-- The emission of the value that the slot holds. -/
theorem emit_decodes {name : String} {slot base : ℕ}
    (h : Passage (vmMoves program stream) Config.ip (plain (.emitField name slot)) base c d) :
    ∃ v, c.vm.slots[slot]? = some v ∧
      Descends proto program stream tooDeep depth (.emit name v) c d := by
  have hdoes : (vmMoves program stream).does ⟨.emitField name slot, _⟩ c d := h.instr_does
  obtain ⟨hinstr, hmove⟩ := does_move hdoes id
  obtain ⟨instr, hinstr', -, hexec⟩ := vmMove_eq_ok.mp hmove
  obtain rfl := Option.some.inj (hinstr.symm.trans hinstr')
  obtain ⟨v, hv, -⟩ := withSlot_eq_goto hexec
  exact ⟨v, hv, .emit ⟨slot, hinstr, hmove, hv⟩⟩

theorem validate_decodes {validate : Validate} {s : EmitState}
    (hat : ExprAt proto validate.expr cx s)
    (h : Passage (vmMoves program stream) Config.ip (validateCode cx validate s)
      s.instructions.length c d) :
    Descends proto program stream tooDeep depth (.check (some validate)) c d := by
  obtain ⟨m, hexpr, hcheck⟩ := h.seq_cases
  have hdoes : (vmMoves program stream).does
      ⟨.validate (s.emitExpr cx validate.expr).1 validate.message, _⟩ m d := hcheck.instr_does
  obtain ⟨hinstr, hmove⟩ := does_move hdoes id
  obtain ⟨instr, hinstr', -, hexec⟩ := vmMove_eq_ok.mp hmove
  obtain rfl := Option.some.inj (hinstr.symm.trans hinstr')
  obtain ⟨v, hv, hgoes⟩ := withSlot_eq_goto hexec
  refine .settle (.checked (expr_decodes hat hexpr) ?_) (does_rests proto hdoes id)
  rw [getSlot, List.getD_eq_getElem?_getD, show m.vm.slots[_]? = some v from hv]
  rintro rfl
  simp at hgoes

theorem check_decodes {validate : Option Validate} {s : EmitState}
    (hat : ∀ v, validate = some v → ExprAt proto v.expr cx s)
    (h : Passage (vmMoves program stream) Config.ip (checkCode cx validate s)
      s.instructions.length c d) :
    Descends proto program stream tooDeep depth (.check validate) c d ∧
      ∀ slot < s.slot, d.vm.slots[slot]? = c.vm.slots[slot]? := by
  cases validate with
  | none =>
      obtain rfl := h.eq_of_nil
      exact ⟨.unchecked, fun _ _ => rfl⟩
  | some v =>
      refine ⟨validate_decodes (hat v rfl) h, fun slot hslot => passage_slots h ⟨?_, ?_⟩⟩
      · have hcomputes := exprCode_computes s.varSlots cx.currentOffsetSlot v.expr s.slot
        refine Structured.All.mono hcomputes fun i hi heq => ?_
        obtain ⟨dst, hdst, hle⟩ := hi.dest
        obtain rfl := Option.some.inj (hdst.symm.trans heq)
        exact absurd hle (Nat.not_le.mpr hslot)
      · exact Option.some_ne_none slot ∘ Eq.symm

end Steps

/-- The first test of a match overwrites the slot of the tag. -/
inductive OverwritesTag (proto : Protocol) : ℕ → Prop
  | mk {remaining namePrefix body s tag arms order t} : BodyAt proto remaining namePrefix body s →
      ItemAt (proto.context remaining) namePrefix body s (.matchItem (.mk tag arms order)) t →
      (∃ arm ∈ arms, arm.case ≠ none) →
      (t.emitExpr (proto.context remaining) tag).2.slot ≤
        (t.emitExpr (proto.context remaining) tag).1 →
      OverwritesTag proto (t.emitExpr (proto.context remaining) tag).2.instructions.length

/-- A field that is nested too deep for its message to be inlined. -/
inductive CutsField (proto : Protocol) : ℕ → Prop
  | mk {namePrefix body s fieldPrefix field t} : BodyAt proto 0 namePrefix body s →
      FieldAt (proto.context 0) namePrefix body s fieldPrefix field t →
      CutsField proto t.instructions.length

/-- How deep the fields of a body are nested. -/
def depthOf (remaining : ℕ) : ℕ := maxRefDepth + 1 - remaining

/-- What a decoder has to take for too deep on a run with the states in `P`, of which none is at
the first test of a match that overwrites the tag: no depth at which messages are inlined, but
the next one, unless the run does not come to a field there. -/
structure DecodesRun (proto : Protocol) (P : Config → Prop) (tooDeep : ℕ → Prop) : Prop where
  shallow : ∀ depth ≤ maxRefDepth, ¬ tooDeep depth
  deep : tooDeep (maxRefDepth + 1) ∨ ∀ c, P c → ¬ CutsField proto c.ip
  keepsTag : ∀ c, P c → ¬ OverwritesTag proto c.ip

section Fields

variable {proto : Protocol} {program : BytecodeProgram} {fieldMap : SlotMap} {stream : Bool}
  {c d : Config} {depth remaining : ℕ} {namePrefix fieldPrefix : String} {body : MatchArm}
  {s t : EmitState} {field : Field} {tooDeep : ℕ → Prop} {P : Config → Prop}

/-- The state behind the read of a field. -/
def readState (proto : Protocol) (remaining : ℕ) (fieldPrefix : String) (field : Field)
    (t : EmitState) : EmitState :=
  emitRead (proto.context (remaining + 1))
    (messageEmitter proto.messages currentOffsetSlot (proto.endian == "little") remaining) field
    fieldPrefix (joinName fieldPrefix field.name)
    (emitCondition (proto.context (remaining + 1)) field t).2.slot
    (inlineStart (proto.context (remaining + 1)) fieldPrefix field t)

/-- The read of a field, its check and its emission. -/
theorem fieldBodyCode_eq (proto : Protocol) (remaining : ℕ) (fieldPrefix : String) (field : Field)
    (t : EmitState) :
    fieldBodyCode (proto.context (remaining + 1))
        (messageEmitter proto.messages currentOffsetSlot (proto.endian == "little") remaining)
        (proto.inlines (remaining + 1)) field fieldPrefix
        (emitCondition (proto.context (remaining + 1)) field t).2 =
      ((readCode (proto.context (remaining + 1)) (proto.inlines (remaining + 1)) field fieldPrefix
          (joinName fieldPrefix field.name)
          (emitCondition (proto.context (remaining + 1)) field t).2.slot
          (inlineStart (proto.context (remaining + 1)) fieldPrefix field t)).seq
        (checkCode (proto.context (remaining + 1)) field.validate
          (readState proto remaining fieldPrefix field t))).seq
      (if field.ty.isRef then .nil else plain (.emitField field.name
        (emitCondition (proto.context (remaining + 1)) field t).2.slot)) := rfl

theorem readState_coded (proto : Protocol) (remaining : ℕ) (fieldPrefix : String) (field : Field)
    (t : EmitState) :
    Coded (emitCondition (proto.context (remaining + 1)) field t).2
      (readState proto remaining fieldPrefix field t)
      (readCode (proto.context (remaining + 1)) (proto.inlines (remaining + 1)) field fieldPrefix
        (joinName fieldPrefix field.name)
        (emitCondition (proto.context (remaining + 1)) field t).2.slot
        (inlineStart (proto.context (remaining + 1)) fieldPrefix field t)) :=
  emitRead_codes (proto.context (remaining + 1))
    (proto.context_code (remaining + 1) _ rfl) field fieldPrefix _ _ _

/-- The slot of a field is taken by its read. -/
theorem readState_slot (hty : field.ty.isRef = false) :
    (emitCondition (proto.context (remaining + 1)) field t).2.slot <
      (readState proto remaining fieldPrefix field t).slot := by
  show (inlineStart (proto.context (remaining + 1)) fieldPrefix field t).slot < _
  unfold readState emitRead
  cases hfield : field.ty with
  | messageRef refName =>
      rw [hfield] at hty
      cases hty
  | bytes len => exact Nat.lt_succ_of_le (emitExpr_slot_le ..)
  | _ => exact Nat.lt_succ_self _

/-- Behind the check of a field no further slots are taken for it. -/
theorem check_slot (proto : Protocol) (remaining : ℕ) (fieldPrefix : String) (field : Field)
    (t : EmitState) :
    (emitCheck (proto.context (remaining + 1)) field.validate
      (readState proto remaining fieldPrefix field t)).slot =
      (emitFieldBytecode (proto.context (remaining + 1)) field fieldPrefix t).slot := by
  let cx := proto.context (remaining + 1)
  rw [emitFieldBytecode_eq rfl, emitFieldBody_eq]
  change _ = EmitState.slot (EmitState.landIf _ (emitCondition cx field t).1)
  cases (emitCondition cx field t).1 <;> cases field.ty.isRef <;> rfl

theorem readState_slot_le (proto : Protocol) (remaining : ℕ) (fieldPrefix : String)
    (field : Field) (t : EmitState) : (readState proto remaining fieldPrefix field t).slot ≤
      (emitFieldBytecode (proto.context (remaining + 1)) field fieldPrefix t).slot := by
  let cx := proto.context (remaining + 1)
  have hcheck : (readState proto remaining fieldPrefix field t).slot ≤
      (emitCheck cx field.validate (readState proto remaining fieldPrefix field t)).slot := by
    cases field.validate with
    | some v => exact (emitValidate_fits cx v _).slot_le
    | none => exact Nat.le_refl _
  exact Nat.le_trans hcheck (Nat.le_of_eq (check_slot proto remaining fieldPrefix field t))

/-- The slot of a length is one of the program's, so it is not the sentinel. -/
theorem lenSlot_ne {len : Expr}
    (hcompile : protocolToBytecodeWithMap proto = some (program, fieldMap))
    (hbody : BodyAt proto (remaining + 1) namePrefix body s)
    (hfield : FieldAt (proto.context (remaining + 1)) namePrefix body s fieldPrefix field t)
    (hty : field.ty = .bytes len) :
    ((inlineStart (proto.context (remaining + 1)) fieldPrefix field t).emitExpr
      (proto.context (remaining + 1)) len).1 ≠ u16Max := by
  let cx := proto.context (remaining + 1)
  let start := inlineStart cx fieldPrefix field t
  obtain ⟨-, hfits⟩ := (hbody.inPlace hcompile).field hfield
  have hstart : SlotsFit currentOffsetSlot start :=
    (registerField_fits field _ _ _).fits ((emitCondition_fits cx field t).fits hfits)
  have hresult : (start.emitExpr cx len).1 ≤ (start.emitExpr cx len).2.slot :=
    FitsAfter.expr_result start cx len hstart
  have hread : (start.emitExpr cx len).2.slot <
      (readState proto remaining fieldPrefix field t).slot := by
    unfold readState emitRead
    rw [hty]
    exact Nat.lt_succ_self _
  have hfinal : (readState proto remaining fieldPrefix field t).slot ≤ (emitProtocol proto).slot :=
    Nat.le_trans (readState_slot_le proto remaining fieldPrefix field t)
      (hbody.later (hfield.later (.refl _))).slot_le
  have hcounter := Nat.le_trans hfinal (compiled_counter hcompile)
  exact Nat.ne_of_lt (Nat.lt_of_le_of_lt hresult (Nat.lt_of_lt_of_le hread hcounter))

/-- What was read into a field's slot is checked and emitted. -/
theorem finish_decodes {m : Config} {base : ℕ} {v : UInt64} (hty : field.ty.isRef = false)
    (hat : ∀ v, field.validate = some v → ExprAt proto v.expr (proto.context (remaining + 1))
      (readState proto remaining fieldPrefix field t))
    (hread : ∀ v', m.vm.slots[(emitCondition (proto.context (remaining + 1)) field t).2.slot]? =
      some v' → v' = v)
    (hcheck : Passage (vmMoves program stream) Config.ip (checkCode (proto.context (remaining + 1))
      field.validate (readState proto remaining fieldPrefix field t))
      (readState proto remaining fieldPrefix field t).instructions.length m c)
    (hemit : Passage (vmMoves program stream) Config.ip (if field.ty.isRef then .nil else
      plain (.emitField field.name (emitCondition (proto.context (remaining + 1)) field t).2.slot))
      base c d) :
    Descends proto program stream tooDeep depth (.check field.validate) m c ∧
      Descends proto program stream tooDeep depth (.emit field.name v) c d := by
  obtain ⟨hchecked, hkept⟩ := check_decodes hat hcheck
  rw [hty] at hemit
  obtain ⟨v', hv', hemitted⟩ := emit_decodes hemit
  rw [hkept _ (readState_slot hty)] at hv'
  obtain rfl := hread v' hv'
  exact ⟨hchecked, hemitted⟩

/-- The code of a field without its condition, with the code of an inlined message passed to
the decoder of its items. -/
theorem content_decodes
    (hcompile : protocolToBytecodeWithMap proto = some (program, fieldMap))
    (hbody : BodyAt proto (remaining + 1) namePrefix body s)
    (hfield : FieldAt (proto.context (remaining + 1)) namePrefix body s fieldPrefix field t)
    (hinlined : ∀ {refName msg c d}, field.ty = .messageRef refName →
      proto.messages.find? (·.name == refName) = some msg →
      Passes program stream P ((armCode (proto.context remaining)
        (proto.inlines remaining) (if fieldPrefix = "" then field.name else
          joinName fieldPrefix field.name) msg.body).2.2
            (inlineStart (proto.context (remaining + 1)) fieldPrefix field t))
        (inlineStart (proto.context (remaining + 1)) fieldPrefix field t).instructions.length c d →
      Descends proto program stream tooDeep (depth + 1) (.items msg.body.items) c d)
    (h : Passes program stream P
      (fieldBodyCode (proto.context (remaining + 1))
        (messageEmitter proto.messages currentOffsetSlot (proto.endian == "little") remaining)
        (proto.inlines (remaining + 1)) field fieldPrefix
        (emitCondition (proto.context (remaining + 1)) field t).2)
      (emitCondition (proto.context (remaining + 1)) field t).2.instructions.length c d) :
    Descends proto program stream tooDeep depth (.content field) c d := by
  let cx := proto.context (remaining + 1)
  let start := inlineStart cx fieldPrefix field t
  have hslot : start.slot ≠ cx.currentOffsetSlot :=
    Nat.ne_of_gt (Nat.lt_of_lt_of_le hbody.slot_pos
      (Nat.le_trans hfield.slot_le (emitCondition_slot_le cx field t)))
  have hat : ∀ v, field.validate = some v →
      ExprAt proto v.expr cx (readState proto remaining fieldPrefix field t) := fun v hv =>
    .check hbody hfield hv
  have hle := (vmMoves program stream).among_le P
  rw [fieldBodyCode_eq] at h
  obtain ⟨m', hmain, hemit⟩ := h.seq_cases
  obtain ⟨m, hread, hcheck⟩ := hmain.seq_cases
  rw [← (readState_coded proto remaining fieldPrefix field t).length_eq] at hcheck
  have hscalar : ∀ kind, field.ty.readKind (proto.endian == "little") = some kind →
      field.ty.isRef = false →
      Descends proto program stream tooDeep depth (.content field) c d := by
    intro kind hkind href
    obtain ⟨instr, hjump, hcode, hreads⟩ := readCode_scalar cx hkind
      (proto.inlines (remaining + 1)) fieldPrefix (joinName fieldPrefix field.name) start.slot start
      stream c.vm.slots
    obtain ⟨v, hdecodes, hv⟩ := readThen_decodes (hcode ▸ hread.mono hle) hreads hslot
    obtain ⟨hchecked, hemitted⟩ := finish_decodes href hat hv (hcheck.mono hle) (hemit.mono hle)
    exact .scalar hkind hdecodes hchecked hemitted
  cases hty : field.ty with
  | bytes len =>
      rw [readCode_bytes hty] at hread
      obtain ⟨m₀, hlen, hslice⟩ := hread.seq_cases
      have hreads : ReadsAs stream (.readSlice (start.emitExpr cx len).1 start.slot)
          (.slice (m₀.vm.getSlot (start.emitExpr cx len).1)) start.slot m₀.vm.slots :=
        .slice (lenSlot_ne hcompile hbody hfield hty) m₀.vm
      have href : field.ty.isRef = false := by rw [hty]; rfl
      obtain ⟨v, hdecodes, hv⟩ := readThen_decodes (hslice.mono hle) hreads hslot
      obtain ⟨hchecked, hemitted⟩ := finish_decodes href hat hv (hcheck.mono hle) (hemit.mono hle)
      exact .bytes hty (expr_decodes (.len hbody hfield hty) (hlen.mono hle)) hdecodes hchecked
        hemitted
  | messageRef refName =>
      rw [hty] at hemit
      obtain rfl := hemit.eq_of_nil
      have hchecked : Descends proto program stream tooDeep depth (.check field.validate) m m' :=
        (check_decodes hat (hcheck.mono hle)).1
      cases hmsg : proto.messages.find? (·.name == refName) with
      | some msg =>
          rw [readCode_inlined hty hmsg] at hread
          refine .inlined hty hmsg (hinlined hty hmsg ?_) hchecked
          rw [← messageBodyCode_eq]
          show Passage _ _ (messageBodyCode (compileContext proto.messages _ remaining)
            (inlineTable proto.messages _ remaining) _ msg _) _ _ _
          rw [← messageCode_eq]
          exact hread
      | none =>
          rw [readCode_unknown hty hmsg] at hread
          obtain ⟨v, hdecodes, -⟩ := readThen_decodes (hread.mono hle) .opaqueByte hslot
          exact .unknown hty hmsg hdecodes hchecked
  | _ => exact hscalar _ (by rw [hty]; rfl) (by rw [hty]; rfl)

/-- The code of bodies with so many levels of inlining left is passed through as the decoder
walks over their items. -/
def BodiesDescend (proto : Protocol) (program : BytecodeProgram) (stream : Bool)
    (tooDeep : ℕ → Prop) (P : Config → Prop) (remaining : ℕ) : Prop :=
  ∀ {namePrefix body s c d}, BodyAt proto remaining namePrefix body s →
    Passes program stream P
      ((armCode (proto.context remaining) (proto.inlines remaining) namePrefix body).2.2 s)
      s.instructions.length c d →
    Descends proto program stream tooDeep (depthOf remaining) (.items body.items) c d

theorem BodyAt.remaining_le (h : BodyAt proto remaining namePrefix body s) :
    remaining ≤ maxRefDepth + 1 := by
  induction h with
  | root => exact Nat.le_refl _
  | arm _ _ _ ih => exact ih
  | inlined _ _ _ _ ih => exact Nat.le_of_succ_le ih

theorem emitCondition_length {cond : Expr} (cx : EmitContext)
    (hcond : field.conditional = some cond) (t : EmitState) : (emitCondition cx field t).2.instructions.length =
      t.instructions.length + (t.exprCode cx cond).length + 1 := by
  rw [← (Coded.expr t cx cond).length_eq]
  unfold emitCondition
  rw [hcond]
  exact List.length_append

/-- The code of a field whose message can still be inlined. -/
theorem field_succ_decodes
    (hcompile : protocolToBytecodeWithMap proto = some (program, fieldMap))
    (hdecodes : DecodesRun proto P tooDeep)
    (hinlines : BodiesDescend proto program stream tooDeep P remaining)
    (hbody : BodyAt proto (remaining + 1) namePrefix body s)
    (hfield : FieldAt (proto.context (remaining + 1)) namePrefix body s fieldPrefix field t)
    (h : Passes program stream P
      (fieldCode (proto.context (remaining + 1)) (proto.inlines (remaining + 1)) field
        fieldPrefix t) t.instructions.length c d) :
    Descends proto program stream tooDeep (depthOf (remaining + 1)) (.item (.field field)) c d := by
  let cx := proto.context (remaining + 1)
  have hremaining := hbody.remaining_le
  have hdepth : ¬ tooDeep (depthOf (remaining + 1)) := by
    refine hdecodes.shallow _ ?_
    unfold depthOf
    omega
  have hnext : depthOf remaining = depthOf (remaining + 1) + 1 := by
    unfold depthOf
    omega
  have hcontent : ∀ {c d}, Passes program stream P
      (fieldBodyCode cx (messageEmitter proto.messages currentOffsetSlot (proto.endian == "little")
        remaining) (proto.inlines (remaining + 1)) field fieldPrefix (emitCondition cx field t).2)
      (emitCondition cx field t).2.instructions.length c d →
      Descends proto program stream tooDeep (depthOf (remaining + 1)) (.content field) c d :=
    content_decodes hcompile hbody hfield fun hty hmsg hpass =>
      hnext ▸ hinlines (.inlined hbody hfield hty hmsg) hpass
  have hle := (vmMoves program stream).among_le P
  cases hcond : field.conditional with
  | none =>
      have hstart : (emitCondition cx field t).2 = t := by
        unfold emitCondition
        rw [hcond]
      rw [hstart] at hcontent
      rw [fieldCode_always rfl hcond] at h
      exact .always hdepth hcond (hcontent h)
  | some cond =>
      rw [fieldCode_conditional rfl hcond] at h
      obtain ⟨m, hexpr, hskip⟩ := h.seq_cases
      have hasked : Descends proto program stream tooDeep (depthOf (remaining + 1))
          (.ask cond _) c m := expr_decodes (.condition hbody hfield hcond) (hexpr.mono hle)
      obtain ⟨-, hleaves⟩ | ⟨u, ⟨-, henters⟩, hpass⟩ := hskip.skip_cases
      · rw [leaves_getSlot hleaves] at hasked
        exact .settle (.absent hdepth hcond hasked) (leaves_rests proto hleaves)
      · rw [← emitCondition_length cx hcond] at hpass
        exact .present hdepth hcond hasked (enters_getSlot henters)
          (.pause (enters_rests proto henters) (hcontent hpass))

end Fields

end NFdl
