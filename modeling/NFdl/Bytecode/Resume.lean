import NFdl.Bytecode.Run
import Mathlib.Tactic.ByContra

/-!
# Suspending and resuming a stream run

A stream run that is cut into chunks suspends inside reads and is resumed with
more bytes. The proof compares it in lockstep with one run over all bytes: an
instruction that does not suspend does the same on a longer input, and a read
that suspends may have aligned the cursor already, which repeats harmlessly.
-/

namespace NFdl

/-- Reads whose result depends on where the buffer happens to end cannot be
resumed faithfully: `ReadRest`, and `ReadSlice` with the sentinel length. -/
def Instruction.Resumable : Instruction → Prop
  | .readRest _ _ => False
  | .readSlice lenSlot _ => lenSlot ≠ u16Max
  | _ => True

instance : DecidablePred Instruction.Resumable := fun i => by
  cases i <;> unfold Instruction.Resumable <;> infer_instance

def BytecodeProgram.Resumable (program : BytecodeProgram) : Prop :=
  ∀ i ∈ program.instructions, i.Resumable

instance (program : BytecodeProgram) : Decidable program.Resumable :=
  inferInstanceAs (Decidable (∀ i ∈ program.instructions, i.Resumable))

/-- Feed the next chunks to a run as long as it is suspended; a run that ended
takes no further chunk. -/
def feed (program : BytecodeProgram) (r : BytecodeVm × Ending) :
    List (List UInt8) → BytecodeVm × Ending
  | [] => r
  | more :: rest =>
    match r.2 with
    | .returned (.ok (.needMoreBytes cont)) => feed program (resume cont program more) rest
    | _ => r

/-- What a caller learns from how a run ended; a continuation is reduced to the
number of bytes it asks for. -/
inductive Outcome where
  | complete
  | needMoreBytes (bytesNeeded : Nat)
  | error (e : BytecodeError)
  | panicked
deriving DecidableEq, Repr

def Ending.outcome : Ending → Outcome
  | .returned (.ok .complete) => .complete
  | .returned (.ok (.needMoreBytes cont)) => .needMoreBytes cont.bytesNeeded
  | .returned (.error e) => .error e
  | .panicked => .panicked

/-- The run ended because a budget was spent. -/
def Ending.HitLimit (e : Ending) : Prop := ∃ message, e = .returned (.error (.limitExceeded message))

/-- Two runs that a caller cannot tell apart, except by the bytes still
unconsumed and by the number of instructions counted. -/
structure Agree (r r' : BytecodeVm × Ending) : Prop where
  outcome : r'.2.outcome = r.2.outcome
  slots : r'.1.slots = r.1.slots
  slotTouched : r'.1.slotTouched = r.1.slotTouched
  emitted : r'.1.emitted = r.1.emitted
  restStarts : r'.1.restStarts = r.1.restStarts
  inputPos : r'.1.inputPos = r.1.inputPos
  bitOffset : r'.1.bitOffset = r.1.bitOffset

/-- The flow suspends the run. -/
def Flow.Suspends : Flow → Prop
  | .returned (.ok (.needMoreBytes _)) => True
  | _ => False

def Instruction.AlignsFirst : Instruction → Prop
  | .readU8 _ | .readU16 _ _ | .readU24 _ _ | .readU32 _ _ | .readSlice _ _ => True
  | _ => False

namespace BytecodeVm

/-- The same machine over a longer input, with another instruction count. -/
def extend (vm : BytecodeVm) (more : List UInt8) (count : Nat) : BytecodeVm :=
  { vm with input := vm.input ++ more, instructionsExecuted := count }

section Extend

variable (vm : BytecodeVm) (more : List UInt8) (count : Nat)

@[simp] theorem extend_slots : (vm.extend more count).slots = vm.slots := rfl
@[simp] theorem extend_inputPos : (vm.extend more count).inputPos = vm.inputPos := rfl
@[simp] theorem extend_bitOffset : (vm.extend more count).bitOffset = vm.bitOffset := rfl
@[simp] theorem extend_limits : (vm.extend more count).limits = vm.limits := rfl
@[simp] theorem extend_emitted : (vm.extend more count).emitted = vm.emitted := rfl
@[simp] theorem extend_restStarts : (vm.extend more count).restStarts = vm.restStarts := rfl
@[simp] theorem extend_slotTouched : (vm.extend more count).slotTouched = vm.slotTouched := rfl
@[simp] theorem extend_input : (vm.extend more count).input = vm.input ++ more := rfl

@[simp] theorem extend_loopIterations :
    (vm.extend more count).loopIterations = vm.loopIterations := rfl

@[simp] theorem extend_instructionsExecuted :
    (vm.extend more count).instructionsExecuted = count := rfl

@[simp] theorem tick_extend : (vm.extend more count).tick = vm.tick.extend more (count + 1) := rfl

@[simp] theorem extend_extend (more' : List UInt8) (count' : Nat) :
    (vm.extend more count).extend more' count' = vm.extend (more ++ more') count' := by
  simp [extend]

@[simp] theorem extend_writeSlot (i : Nat) (v : UInt64) :
    (vm.extend more count).writeSlot i v = (vm.writeSlot i v).extend more count := by
  unfold writeSlot
  by_cases h : i < vm.slots.length
  · rw [if_pos h, if_pos (show i < (vm.extend more count).slots.length from h)]
    rfl
  · rw [if_neg h, if_neg (show ¬ i < (vm.extend more count).slots.length from h)]

@[simp] theorem alignToByte_extend :
    (vm.extend more count).alignToByte = vm.alignToByte.map (·.extend more count) := by
  unfold alignToByte
  rw [extend_bitOffset, extend_inputPos]
  split
  · cases addUsize vm.inputPos 1 <;> rfl
  · rfl

end Extend

theorem alignToByte_bitOffset {vm vm' : BytecodeVm} (h : vm.alignToByte = some vm') :
    vm'.bitOffset = 0 := by
  unfold alignToByte at h
  split at h
  · simp only [Option.map_eq_some_iff] at h
    obtain ⟨_, -, rfl⟩ := h
    rfl
  · rename_i hoffset
    cases h
    exact Decidable.not_not.mp hoffset

/-- Aligning again changes nothing. -/
theorem alignToByte_idem {vm vm' : BytecodeVm} (h : vm.alignToByte = some vm') :
    vm'.alignToByte = some vm' := by
  simp [alignToByte, alignToByte_bitOffset h]

theorem readBytes_extend {vm : BytecodeVm} {pos n : Nat} {bytes : List UInt8}
    (h : vm.readBytes pos n = some bytes) (more : List UInt8) (count : Nat) :
    (vm.extend more count).readBytes pos n = some bytes := by
  unfold readBytes at h ⊢
  split at h
  · rename_i hpos
    rw [if_pos (by simp only [extend_input, List.length_append]; omega), extend_input,
      List.drop_append_of_le_length (by omega),
      List.take_append_of_le_length (by simp only [List.length_drop]; omega)]
    exact h
  · cases h

theorem bitsRemaining_extend (vm : BytecodeVm) (more : List UInt8) (count : Nat) :
    vm.bitsRemaining ≤ (vm.extend more count).bitsRemaining := by
  unfold bitsRemaining
  simp only [extend_input, extend_inputPos, extend_bitOffset, List.length_append]
  split <;> split <;> omega

/-- Bits that the shorter input holds are read alike from the longer one. -/
theorem readBitsLoop_extend (fuel remaining : Nat) (value : UInt64) (vm : BytecodeVm)
    (h : remaining ≤ vm.bitsRemaining) (more : List UInt8) (count : Nat) :
    readBitsLoop fuel remaining value (vm.extend more count) =
      ((readBitsLoop fuel remaining value vm).1.extend more count,
        (readBitsLoop fuel remaining value vm).2) := by
  induction fuel generalizing remaining value vm with
  | zero => rfl
  | succ fuel ih =>
      unfold readBitsLoop
      by_cases hzero : remaining = 0
      · simp [hzero]
      · rw [if_neg hzero, if_neg hzero]
        have hpos : vm.inputPos < vm.input.length := by
          unfold bitsRemaining at h
          split at h <;> omega
        have hbyte : (vm.extend more count).input[vm.inputPos]? = some vm.input[vm.inputPos] := by
          rw [extend_input, List.getElem?_append_left hpos, List.getElem?_eq_getElem hpos]
        rw [extend_inputPos, hbyte, List.getElem?_eq_getElem hpos]
        dsimp only [extend_bitOffset]
        -- One byte is consumed, or the offset moves within it; both keep enough bits.
        split
        · exact ih _ _ { vm with inputPos := vm.inputPos + 1, bitOffset := 0 } (by
            unfold bitsRemaining at h ⊢
            dsimp only
            rw [if_neg (by omega)] at h
            split <;> omega)
        · exact ih _ _ { vm with
            bitOffset := vm.bitOffset + min (8 - vm.bitOffset) remaining } (by
            unfold bitsRemaining at h ⊢
            dsimp only
            rw [if_neg (by omega)] at h ⊢
            omega)

end BytecodeVm

open BytecodeVm

/-- Run on the longer input what ran on the shorter one. -/
def extendResult (r : BytecodeVm × Flow) (more : List UInt8) (count : Nat) : BytecodeVm × Flow :=
  (r.1.extend more count, r.2)

section Extend

variable {vm : BytecodeVm} {ip : Nat} (more : List UInt8) (count : Nat)

theorem execReadU8_extend {slot : Nat} (h : ¬ (execReadU8 true slot ip vm).2.Suspends) :
    execReadU8 true slot ip (vm.extend more count) =
      extendResult (execReadU8 true slot ip vm) more count := by
  unfold execReadU8 at h ⊢
  rw [alignToByte_extend]
  cases halign : vm.alignToByte with
  | none => rfl
  | some vm' =>
      rw [halign] at h
      dsimp only [Option.map_some] at h ⊢
      cases hbyte : vm'.input[vm'.inputPos]? with
      | none =>
          rw [hbyte] at h
          exact absurd trivial h
      | some byte =>
          have hpos : vm'.inputPos < vm'.input.length := (List.getElem?_eq_some_iff.mp hbyte).1
          rw [extend_input, extend_inputPos, List.getElem?_append_left hpos, hbyte]
          dsimp only
          rw [extend_writeSlot]
          rfl

theorem execReadInt_extend {n : Nat} {le : Bool} {slot : Nat}
    (h : ¬ (execReadInt true n le slot ip vm).2.Suspends) :
    execReadInt true n le slot ip (vm.extend more count) =
      extendResult (execReadInt true n le slot ip vm) more count := by
  unfold execReadInt at h ⊢
  rw [alignToByte_extend]
  cases halign : vm.alignToByte with
  | none => rfl
  | some vm' =>
      rw [halign] at h
      dsimp only [Option.map_some, extend_inputPos] at h ⊢
      cases hstop : addUsize vm'.inputPos n with
      | none => rfl
      | some stop =>
          rw [hstop] at h
          dsimp only at h ⊢
          cases hbytes : vm'.readBytes vm'.inputPos n with
          | none =>
              rw [hbytes] at h
              exact absurd trivial h
          | some bytes =>
              rw [readBytes_extend hbytes]
              dsimp only
              rw [extend_writeSlot]
              rfl

theorem execReadSlice_extend {lenSlot dstSlot : Nat} (hlen : lenSlot ≠ u16Max)
    (h : ¬ (execReadSlice true lenSlot dstSlot ip vm).2.Suspends) :
    execReadSlice true lenSlot dstSlot ip (vm.extend more count) =
      extendResult (execReadSlice true lenSlot dstSlot ip vm) more count := by
  unfold execReadSlice at h ⊢
  rw [alignToByte_extend]
  cases halign : vm.alignToByte with
  | none => rfl
  | some vm' =>
      rw [halign] at h
      simp only [Option.map_some, extend_inputPos, sliceLen, if_neg hlen, extend_slots] at h ⊢
      split
      · rfl
      · rename_i stop hstop
        simp only [addUsize_eq_some] at hstop
        simp only [addUsize, if_pos hstop.1] at h
        by_cases hshort : vm'.input.length < stop
        · simp [hstop.2, hshort, hlen, suspend, Flow.Suspends] at h
        · have hshort' : ¬ (vm'.extend more count).input.length < stop := by
            rw [extend_input, List.length_append]
            omega
          simp only [hshort, hshort', decide_false, Bool.and_false, Bool.false_eq_true, if_false]
          have hbytes : slicePrefix (vm'.extend more count)
              ((vm'.slots[lenSlot]?.map UInt64.toNat).getD 0) =
              slicePrefix vm' ((vm'.slots[lenSlot]?.map UInt64.toNat).getD 0) := by
            unfold slicePrefix
            rw [extend_input, extend_inputPos, List.drop_append_of_le_length (by omega),
              List.take_append_of_le_length (by simp only [List.length_drop]; omega)]
          rw [hbytes, extend_writeSlot]
          rfl

theorem execReadBits_extend {bits : UInt8} {slot : Nat}
    (h : ¬ (execReadBits true bits slot ip vm).2.Suspends) :
    execReadBits true bits slot ip (vm.extend more count) =
      extendResult (execReadBits true bits slot ip vm) more count := by
  unfold execReadBits at h ⊢
  by_cases hshort : vm.bitsRemaining < bits.toNat
  · simp [hshort, suspend, Flow.Suspends] at h
  · have hmore := bitsRemaining_extend vm more count
    have hshort' : ¬ (vm.extend more count).bitsRemaining < bits.toNat := by omega
    simp only [hshort, hshort', decide_false, Bool.and_false, Bool.false_eq_true, if_false]
    unfold readBits
    rw [readBitsLoop_extend _ _ _ _ (by omega)]
    dsimp only [storeNext]
    rw [extend_writeSlot]
    rfl

theorem withSlot_extend {slot : Nat} {f g : UInt64 → BytecodeVm × Flow}
    (hfg : ∀ v, vm.slots[slot]? = some v → g v = extendResult (f v) more count) :
    withSlot (vm.extend more count) slot g = extendResult (withSlot vm slot f) more count := by
  unfold withSlot
  rw [extend_slots]
  cases hv : vm.slots[slot]? with
  | none => rfl
  | some v => exact hfg v hv

theorem storeNext_extend (slot : Nat) (v : UInt64) :
    storeNext (vm.extend more count) slot v ip =
      extendResult (storeNext vm slot v ip) more count := by
  unfold storeNext
  rw [extend_writeSlot]
  rfl

theorem execJumpIfZero_extend (target : Nat) (cond : UInt64) :
    execJumpIfZero target ip (vm.extend more count) cond =
      extendResult (execJumpIfZero target ip vm cond) more count := by
  unfold execJumpIfZero
  split
  · split
    · dsimp only [extend_limits, extend_loopIterations]
      split <;> rfl
    · rfl
  · rfl

/-- An instruction that does not suspend does the same on a longer input. -/
theorem execInstr_extend {instr : Instruction} (hinstr : instr.Resumable)
    (h : ¬ (execInstr true instr ip vm).2.Suspends) :
    execInstr true instr ip (vm.extend more count) =
      extendResult (execInstr true instr ip vm) more count := by
  cases instr with
  | readU8 slot => exact execReadU8_extend more count h
  | readU16 slot le => exact execReadInt_extend more count h
  | readU24 slot le => exact execReadInt_extend more count h
  | readU32 slot le => exact execReadInt_extend more count h
  | readSlice lenSlot dstSlot => exact execReadSlice_extend more count hinstr h
  | readBits bits slot => exact execReadBits_extend more count h
  | readRest name slot => exact absurd hinstr id
  | validate predSlot message =>
      exact withSlot_extend more count fun v _ => by split <;> rfl
  | emitField name slot => exact withSlot_extend more count fun v _ => rfl
  | loadConst value dst => exact storeNext_extend more count dst value
  | binOp op left right dst =>
      refine withSlot_extend more count fun l _ => withSlot_extend more count fun r _ => ?_
      split
      · rfl
      · exact storeNext_extend more count dst _
  | unaryOp op src dst =>
      exact withSlot_extend more count fun v _ => storeNext_extend more count dst _
  | copySlot src dst => exact withSlot_extend more count fun v _ => storeNext_extend more count dst v
  | updateOffset slot => exact storeNext_extend more count slot _
  | jump target => rfl
  | jumpIfZero condSlot target =>
      exact withSlot_extend more count fun v _ => execJumpIfZero_extend more count target v
  | ret => rfl

end Extend

/-- The bytes a read asks for when it suspends. -/
def Instruction.bytesShort (instr : Instruction) (vm : BytecodeVm) : Nat :=
  match instr with
  | .readU16 _ _ => shortBy vm 2
  | .readU24 _ _ => shortBy vm 3
  | .readU32 _ _ => shortBy vm 4
  | .readSlice lenSlot _ => shortBy vm ((sliceLen vm lenSlot).getD 0)
  | .readBits bits _ => max ((bits.toNat - vm.bitsRemaining + 7) / 8) 1
  | _ => 1

/-- The result of a read that suspended: the machine is the one before the read,
aligned if the read aligns. -/
structure SuspendedAt (instr : Instruction) (ip : Nat) (vm : BytecodeVm)
    (r : BytecodeVm × Flow) : Prop where
  snapshot : r = suspend r.1 ip (instr.bytesShort r.1)
  unaligned : ¬ instr.AlignsFirst → r.1 = vm
  aligned : instr.AlignsFirst → vm.alignToByte = some r.1

theorem execReadInt_suspends {instr : Instruction} {n : Nat} (haligns : instr.AlignsFirst)
    (hshort : ∀ vm, instr.bytesShort vm = shortBy vm n) {le : Bool} {slot ip : Nat}
    {vm : BytecodeVm} (h : (execReadInt true n le slot ip vm).2.Suspends) :
    SuspendedAt instr ip vm (execReadInt true n le slot ip vm) := by
  unfold execReadInt at h ⊢
  split at h
  · exact absurd h id
  · rename_i halign
    split at h
    · exact absurd h id
    · split at h
      · exact absurd h id
      · exact ⟨by rw [hshort]; rfl, absurd haligns, fun _ => halign⟩

theorem execReadU8_suspends {slot ip : Nat} {vm : BytecodeVm}
    (h : (execReadU8 true slot ip vm).2.Suspends) :
    SuspendedAt (.readU8 slot) ip vm (execReadU8 true slot ip vm) := by
  unfold execReadU8 at h ⊢
  split at h
  · exact absurd h id
  · rename_i halign
    split at h
    · exact absurd h id
    · exact ⟨rfl, absurd trivial, fun _ => halign⟩

theorem execReadSlice_suspends {lenSlot dstSlot ip : Nat} {vm : BytecodeVm}
    (h : (execReadSlice true lenSlot dstSlot ip vm).2.Suspends) :
    SuspendedAt (.readSlice lenSlot dstSlot) ip vm (execReadSlice true lenSlot dstSlot ip vm) := by
  unfold execReadSlice at h ⊢
  split at h
  · exact absurd h id
  · rename_i halign
    split at h
    · exact absurd h id
    · rename_i len hlen
      split at h
      · exact absurd h id
      · split at h
        · rename_i hshort
          simp only [hshort, if_true]
          exact ⟨by simp [suspend, Instruction.bytesShort, hlen], absurd trivial, fun _ => halign⟩
        · exact absurd h id

theorem execReadBits_suspends {bits : UInt8} {slot ip : Nat} {vm : BytecodeVm}
    (h : (execReadBits true bits slot ip vm).2.Suspends) :
    SuspendedAt (.readBits bits slot) ip vm (execReadBits true bits slot ip vm) := by
  unfold execReadBits at h ⊢
  split at h
  · rename_i hshort
    simp only [hshort, if_true]
    exact ⟨rfl, fun _ => rfl, fun h => absurd h id⟩
  · exact absurd h id

theorem withSlot_not_suspends {vm : BytecodeVm} {slot : Nat} {f : UInt64 → BytecodeVm × Flow}
    (hf : ∀ v, ¬ (f v).2.Suspends) : ¬ (withSlot vm slot f).2.Suspends := by
  unfold withSlot
  split
  · exact id
  · exact hf _

theorem execJumpIfZero_not_suspends (target ip : Nat) (vm : BytecodeVm) (cond : UInt64) :
    ¬ (execJumpIfZero target ip vm cond).2.Suspends := by
  unfold execJumpIfZero
  split
  · split
    · dsimp only
      split <;> exact id
    · exact id
  · exact id

/-- Only reads suspend, and they suspend before they change anything but the
alignment of the cursor. -/
theorem execInstr_suspends {instr : Instruction} {ip : Nat} {vm : BytecodeVm}
    (h : (execInstr true instr ip vm).2.Suspends) :
    SuspendedAt instr ip vm (execInstr true instr ip vm) := by
  cases instr with
  | readU8 slot => exact execReadU8_suspends h
  | readU16 slot le => exact execReadInt_suspends (by trivial) (fun _ => rfl) h
  | readU24 slot le => exact execReadInt_suspends (by trivial) (fun _ => rfl) h
  | readU32 slot le => exact execReadInt_suspends (by trivial) (fun _ => rfl) h
  | readSlice lenSlot dstSlot => exact execReadSlice_suspends h
  | readBits bits slot => exact execReadBits_suspends h
  | readRest name slot =>
      simp only [execInstr, execReadRest] at h
      split at h <;> exact absurd h id
  | validate predSlot message =>
      exact absurd h (withSlot_not_suspends fun v => by split <;> exact id)
  | emitField name slot => exact absurd h (withSlot_not_suspends fun _ => id)
  | loadConst value dst => exact absurd h id
  | binOp op left right dst =>
      refine absurd h (withSlot_not_suspends fun l => withSlot_not_suspends fun r => ?_)
      split <;> exact id
  | unaryOp op src dst => exact absurd h (withSlot_not_suspends fun _ => id)
  | copySlot src dst => exact absurd h (withSlot_not_suspends fun _ => id)
  | updateOffset slot => exact absurd h id
  | jump target => exact absurd h id
  | jumpIfZero condSlot target =>
      exact absurd h (withSlot_not_suspends (execJumpIfZero_not_suspends target ip vm))
  | ret => exact absurd h id

/-- A read that aligns first does the same when the cursor is aligned already. -/
theorem execInstr_aligned {instr : Instruction} (haligns : instr.AlignsFirst) (stream : Bool)
    (ip : Nat) {vm vm' : BytecodeVm} (h : vm.alignToByte = some vm') :
    execInstr stream instr ip vm' = execInstr stream instr ip vm := by
  have hidem := alignToByte_idem h
  cases instr with
  | readU8 slot => simp only [execInstr, execReadU8, h, hidem]
  | readU16 slot le => simp only [execInstr, execReadInt, h, hidem]
  | readU24 slot le => simp only [execInstr, execReadInt, h, hidem]
  | readU32 slot le => simp only [execInstr, execReadInt, h, hidem]
  | readSlice lenSlot dstSlot => simp only [execInstr, execReadSlice, h, hidem]
  | _ => exact absurd haligns id

/-- The machine `vm'` stands for `vm` at `ip`: they are equal, or the pending read
has only aligned the cursor. -/
def Pending (program : BytecodeProgram) (ip : Nat) (vm vm' : BytecodeVm) : Prop :=
  vm' = vm ∨ ∃ instr, program.instructions[ip]? = some instr ∧ instr.AlignsFirst ∧
    vm.alignToByte = some vm'

theorem Pending.frame {program : BytecodeProgram} {ip : Nat} {vm vm' : BytecodeVm}
    (h : Pending program ip vm vm') : SameFrame vm vm' := by
  obtain rfl | ⟨_, -, -, halign⟩ := h
  · exact .refl _
  · exact alignToByte_frame halign

/-- The pending instruction does the same from both machines. -/
theorem Pending.execInstr {program : BytecodeProgram} {ip : Nat} {vm vm' : BytecodeVm}
    {instr : Instruction} (h : Pending program ip vm vm')
    (hinstr : program.instructions[ip]? = some instr) :
    execInstr true instr ip vm'.tick = execInstr true instr ip vm.tick := by
  obtain rfl | ⟨instr', hinstr', haligns, halign⟩ := h
  · rfl
  · cases hinstr.symm.trans hinstr'
    exact execInstr_aligned haligns true ip (by rw [tick_alignToByte, halign]; rfl)

/-- The run over chunks, at `c`, and the run over all bytes, at `c'`, which also
holds the bytes `rest` that are still to come. -/
structure InStep (program : BytecodeProgram) (rest : List UInt8) (c c' : Config) : Prop where
  ip : c'.ip = c.ip
  vm : ∃ vm count, Pending program c.ip vm c.vm ∧ c'.vm = vm.extend rest count ∧
    count ≤ vm.instructionsExecuted

section InStep

variable {program : BytecodeProgram} {rest : List UInt8} {c c' : Config}

theorem InStep.within_budget (h : InStep program rest c c') (hc : ¬ c.vm.outOfBudget) :
    ¬ c'.vm.outOfBudget := by
  obtain ⟨vm, count, hpending, hvm, hcount⟩ := h.vm
  have hframe := hpending.frame
  unfold outOfBudget at hc ⊢
  rw [hframe.limits, hframe.instructionsExecuted] at hc
  rw [hvm, extend_limits, extend_instructionsExecuted]
  omega

/-- What the next instruction does in the two runs, when it does not suspend the
first. -/
theorem InStep.execInstr (h : InStep program rest c c') {instr : Instruction}
    (hinstr : program.instructions[c.ip]? = some instr) (hresume : instr.Resumable)
    (hrun : ¬ (execInstr true instr c.ip c.vm.tick).2.Suspends) :
    ∃ count, count ≤ c.vm.instructionsExecuted + 1 ∧
      execInstr true instr c'.ip c'.vm.tick =
        extendResult (NFdl.execInstr true instr c.ip c.vm.tick) rest count := by
  obtain ⟨vm, count, hpending, hvm, hcount⟩ := h.vm
  refine ⟨count + 1, by rw [hpending.frame.instructionsExecuted]; omega, ?_⟩
  rw [hpending.execInstr hinstr] at hrun ⊢
  rw [h.ip, hvm, tick_extend]
  exact execInstr_extend rest (count + 1) hresume hrun

/-- Every move of the run over chunks is matched by the run over all bytes. -/
theorem InStep.move (hprogram : program.Resumable) {d : Config} (h : InStep program rest c c')
    (hmove : vmMove program true c = .ok d) :
    ∃ d', vmMove program true c' = .ok d' ∧ InStep program rest d d' := by
  obtain ⟨instr, hinstr, hbudget, hexec⟩ := vmMove_eq_ok.mp hmove
  have hrun : ¬ (NFdl.execInstr true instr c.ip c.vm.tick).2.Suspends := by
    rw [hexec]
    exact id
  obtain ⟨count, hcount, hexec'⟩ :=
    h.execInstr hinstr (hprogram instr (List.mem_of_getElem? hinstr)) hrun
  rw [hexec] at hexec'
  refine ⟨⟨d.vm.extend rest count, d.ip⟩, vmMove_eq_ok.mpr ⟨instr, ?_, h.within_budget hbudget,
    hexec'⟩, rfl, d.vm, count, .inl rfl, rfl, ?_⟩
  · rw [h.ip]
    exact hinstr
  · have hframe := vmMove_frame hmove
    rw [hframe.instructionsExecuted]
    exact hcount

/-- A run over chunks that ended for good ends the run over all bytes alike. -/
theorem InStep.stop (hprogram : program.Resumable) (h : InStep program rest c c')
    {r : BytecodeVm × Ending} (hend : vmMove program true c = .error r)
    (hlimit : ¬ r.2.HitLimit) (hrun : ¬ r.2.flow.Suspends) :
    ∃ count, vmMove program true c' = .error (r.1.extend rest count, r.2) := by
  obtain ⟨hnone, rfl⟩ | ⟨_, -, -, rfl⟩ | ⟨instr, hinstr, hbudget, hexec⟩ := vmMove_eq_error.mp hend
  · obtain ⟨vm, count, hpending, hvm, -⟩ := h.vm
    obtain hsame | ⟨instr, hinstr, -, -⟩ := hpending
    · refine ⟨count, vmMove_eq_error.mpr (.inl ⟨by rw [h.ip]; exact hnone, ?_⟩)⟩
      rw [hvm, hsame]
    · simp [hnone] at hinstr
  · exact absurd ⟨_, rfl⟩ hlimit
  · obtain ⟨count, -, hexec'⟩ := h.execInstr hinstr (hprogram instr (List.mem_of_getElem? hinstr))
      (by rw [hexec]; exact hrun)
    rw [hexec] at hexec'
    exact ⟨count, vmMove_eq_error.mpr (.inr (.inr ⟨instr, by rw [h.ip]; exact hinstr,
      h.within_budget hbudget, hexec'⟩))⟩

/-- The read that suspended the run over chunks, seen from the machine `y` that
the run over all bytes extends. -/
theorem InStep.suspended (h : InStep program rest c c') {vm : BytecodeVm} {cont : VmContinuation}
    (hend : vmMove program true c = .error (vm, .returned (.ok (.needMoreBytes cont)))) :
    ∃ (instr : Instruction) (y : BytecodeVm) (count : Nat),
      program.instructions[c.ip]? = some instr ∧ ¬ c.vm.outOfBudget ∧ c'.vm = y.extend rest count ∧ count ≤ y.instructionsExecuted ∧
      cont = vm.snapshot c.ip (instr.bytesShort vm) ∧
      NFdl.execInstr true instr c.ip y.tick = NFdl.suspend vm c.ip (instr.bytesShort vm) ∧
      (¬ instr.AlignsFirst → vm = y.tick) ∧
      (instr.AlignsFirst → y.tick.alignToByte = some vm) := by
  obtain ⟨_, hr⟩ | ⟨_, _, _, hr⟩ | ⟨instr, hinstr, hbudget, hexec⟩ := vmMove_eq_error.mp hend
  · simp at hr
  · simp [instructionLimit] at hr
  · obtain ⟨y, count, hpending, hy, hcount⟩ := h.vm
    rw [hpending.execInstr hinstr] at hexec
    have hsuspended : SuspendedAt instr c.ip y.tick _ :=
      execInstr_suspends (by rw [hexec]; exact trivial)
    rw [hexec] at hsuspended
    have hsnapshot : Flow.returned (.ok (.needMoreBytes cont)) = .returned (.ok (.needMoreBytes
        (vm.snapshot c.ip (instr.bytesShort vm)))) := congrArg Prod.snd hsuspended.snapshot
    simp only [Flow.returned.injEq, Except.ok.injEq, StreamOutcome.needMoreBytes.injEq] at hsnapshot
    exact ⟨instr, y, count, hinstr, hbudget, hy, hcount, hsnapshot,
      hexec.trans hsuspended.snapshot, hsuspended.unaligned, hsuspended.aligned⟩

/-- Resuming with the next chunk stays in step with the run over all bytes. -/
theorem InStep.resume {more : List UInt8} (h : InStep program (more ++ rest) c c')
    {vm : BytecodeVm} {cont : VmContinuation}
    (hend : vmMove program true c = .error (vm, .returned (.ok (.needMoreBytes cont)))) :
    InStep program rest ⟨(restore cont).appendInput more, cont.ip⟩ c' := by
  obtain ⟨instr, y, count, hinstr, -, hy, hcount, rfl, -, hunaligned, haligned⟩ :=
    h.suspended hend
  have hrestore : (restore (vm.snapshot c.ip (instr.bytesShort vm))).appendInput more =
      vm.extend more vm.instructionsExecuted := rfl
  refine ⟨h.ip, y.tick.extend more (y.instructionsExecuted + 1), count, ?_, ?_, ?_⟩
  · rw [hrestore]
    by_cases haligns : instr.AlignsFirst
    · have halign := haligned haligns
      refine .inr ⟨instr, hinstr, haligns, ?_⟩
      rw [alignToByte_extend, halign, (alignToByte_frame halign).instructionsExecuted]
      rfl
    · rw [hunaligned haligns]
      exact .inl rfl
  · rw [hy, extend_extend]
    rfl
  · rw [extend_instructionsExecuted]
    omega

/-- Where a resumable instruction suspends the run does not depend on the
instruction count. -/
theorem execInstr_suspends_extend_nil {instr : Instruction} (hresume : instr.Resumable) {ip : Nat}
    {vm : BytecodeVm} (h : (NFdl.execInstr true instr ip vm).2.Suspends) (count : Nat) :
    (NFdl.execInstr true instr ip (vm.extend [] count)).2.Suspends := by
  by_contra hrun
  have hback := execInstr_extend [] vm.instructionsExecuted hresume hrun
  have hvm : (vm.extend [] count).extend [] vm.instructionsExecuted = vm := by simp [extend]
  rw [hvm] at hback
  rw [hback] at h
  exact hrun h

theorem bytesShort_extend_nil (instr : Instruction) (vm : BytecodeVm) (count : Nat) :
    instr.bytesShort (vm.extend [] count) = instr.bytesShort vm := by
  have hinput : (vm.extend [] count).input = vm.input := by simp
  cases instr <;>
    simp only [Instruction.bytesShort, shortBy, sliceLen, bitsRemaining, hinput, extend_inputPos,
      extend_slots, extend_bitOffset]

/-- When all chunks are used up, the run over all bytes suspends as well, asking
for the same number of bytes. -/
theorem InStep.suspend (hprogram : program.Resumable) (h : InStep program [] c c')
    {vm : BytecodeVm} {cont : VmContinuation}
    (hend : vmMove program true c = .error (vm, .returned (.ok (.needMoreBytes cont)))) :
    ∃ r', vmMove program true c' = .error r' ∧
      Agree (vm, .returned (.ok (.needMoreBytes cont))) r' := by
  obtain ⟨instr, y, count, hinstr, hbudget, hy, -, rfl, hexec, hunaligned, haligned⟩ :=
    h.suspended hend
  have hsuspended : SuspendedAt instr c.ip (y.tick.extend [] (count + 1)) _ :=
    execInstr_suspends (execInstr_suspends_extend_nil
      (hprogram instr (List.mem_of_getElem? hinstr)) (by rw [hexec]; exact trivial) (count + 1))
  have hvm : (NFdl.execInstr true instr c.ip (y.tick.extend [] (count + 1))).1 =
      vm.extend [] (count + 1) := by
    by_cases haligns : instr.AlignsFirst
    · have halign := hsuspended.aligned haligns
      rw [alignToByte_extend, haligned haligns] at halign
      exact (Option.some.inj halign).symm
    · rw [hsuspended.unaligned haligns, hunaligned haligns]
  have hexec' := hsuspended.snapshot
  rw [hvm, bytesShort_extend_nil] at hexec'
  refine ⟨(vm.extend [] (count + 1), .returned (.ok (.needMoreBytes ((vm.extend [] (count + 1)).snapshot
    c.ip (instr.bytesShort vm))))), ?_, ⟨rfl, rfl, rfl, rfl, rfl, rfl, rfl⟩⟩
  refine vmMove_eq_error.mpr (.inr (.inr ⟨instr, by rw [h.ip]; exact hinstr,
    h.within_budget hbudget, ?_⟩))
  rw [h.ip, hy, tick_extend]
  exact hexec'

end InStep

theorem feed_of_not_suspends {program : BytecodeProgram} {r : BytecodeVm × Ending}
    (h : ¬ r.2.flow.Suspends) (rest : List (List UInt8)) : feed program r rest = r := by
  obtain ⟨vm, ending⟩ := r
  cases rest with
  | nil => rfl
  | cons more rest =>
      unfold feed
      split
      · rename_i heq
        cases heq
        exact absurd trivial h
      · rfl

theorem Ending.suspends_cases {e : Ending} (h : e.flow.Suspends) :
    ∃ cont, e = .returned (.ok (.needMoreBytes cont)) := by
  cases e with
  | panicked => exact absurd h id
  | returned result =>
      cases result with
      | error e => exact absurd h id
      | ok outcome =>
          cases outcome with
          | complete => exact absurd h id
          | needMoreBytes cont => exact ⟨cont, rfl⟩

/-- Follow two runs in step until the one over chunks ends. -/
theorem InStep.until_end {program : BytecodeProgram} (hprogram : program.Resumable)
    {rest : List UInt8} {c c' : Config} (h : InStep program rest c c')
    {r r' : BytecodeVm × Ending} (hr : Machine.Halts (vmMove program true) c r)
    (hr' : Machine.Halts (vmMove program true) c' r') :
    ∃ d d', InStep program rest d d' ∧ vmMove program true d = .error r ∧
      Machine.Halts (vmMove program true) d' r' := by
  obtain ⟨n, d, hd, hend⟩ := hr
  obtain ⟨d', hd', hstep⟩ := hd.simulate (fun _ _ _ h hmove => h.move hprogram hmove) h
  exact ⟨d, d', hstep, hend, hr'.after hd'⟩

/-- Runs in step agree once all chunks have been fed. -/
theorem feed_agree {program : BytecodeProgram} (hprogram : program.Resumable)
    {rest : List (List UInt8)} {c c' : Config} (h : InStep program rest.flatten c c')
    {r r' : BytecodeVm × Ending} (hr : Machine.Halts (vmMove program true) c r)
    (hr' : Machine.Halts (vmMove program true) c' r')
    (hlimit : ¬ (feed program r rest).2.HitLimit) : Agree (feed program r rest) r' := by
  induction rest generalizing c c' r with
  | nil =>
      obtain ⟨d, d', hstep, hend, hd'⟩ := h.until_end hprogram hr hr'
      by_cases hs : r.2.flow.Suspends
      · obtain ⟨vm, ending⟩ := r
        obtain ⟨cont, rfl⟩ := Ending.suspends_cases hs
        obtain ⟨r'', hend', hagree⟩ := hstep.suspend hprogram hend
        cases hd'.unique (.of_end hend')
        exact hagree
      · obtain ⟨count, hend'⟩ := hstep.stop hprogram hend hlimit hs
        cases hd'.unique (.of_end hend')
        exact ⟨rfl, rfl, rfl, rfl, rfl, rfl, rfl⟩
  | cons more rest ih =>
      obtain ⟨d, d', hstep, hend, hd'⟩ := h.until_end hprogram hr hr'
      by_cases hs : r.2.flow.Suspends
      · -- The next chunk continues the run; the run over all bytes has it already.
        obtain ⟨vm, ending⟩ := r
        obtain ⟨cont, rfl⟩ := Ending.suspends_cases hs
        exact ih (hstep.resume hend) (interpret_halts ..) hd' hlimit
      · rw [feed_of_not_suspends hs] at hlimit ⊢
        obtain ⟨count, hend'⟩ := hstep.stop hprogram hend hlimit hs
        cases hd'.unique (.of_end hend')
        exact ⟨rfl, rfl, rfl, rfl, rfl, rfl, rfl⟩

/-- However the bytes are cut into chunks, suspending and resuming agrees with
one run over all of them, as long as the run over the chunks hits no budget. -/
theorem chunked_run_agrees (program : BytecodeProgram) (hprogram : program.Resumable)
    (vm : BytecodeVm) (first : List UInt8) (rest : List (List UInt8))
    (hlimit : ¬ (feed program (runStream program (vm.loadInput first)) rest).2.HitLimit) :
    Agree (feed program (runStream program (vm.loadInput first)) rest)
      (runStream program (vm.loadInput (first ++ rest.flatten))) := by
  have hstep : InStep program rest.flatten ⟨(vm.loadInput first).resetCounters, 0⟩
      ⟨(vm.loadInput (first ++ rest.flatten)).resetCounters, 0⟩ :=
    ⟨rfl, (vm.loadInput first).resetCounters, 0, .inl rfl, rfl, Nat.le_refl 0⟩
  exact feed_agree hprogram hstep (interpret_halts program 0 true _)
    (interpret_halts program 0 true _) hlimit

/-- A program whose second read spans the cut between the chunks. -/
def twoReads : BytecodeProgram where
  instructions := [.readU8 0, .readU16 1 false, .ret]
  slotCount := 2

instance (e : Ending) : Decidable e.HitLimit :=
  match e with
  | .returned (.error (.limitExceeded message)) => .isTrue ⟨message, rfl⟩
  | .returned (.error (.constraint _)) => .isFalse fun ⟨_, h⟩ => by simp at h
  | .returned (.ok _) => .isFalse fun ⟨_, h⟩ => by simp at h
  | .panicked => .isFalse fun ⟨_, h⟩ => by simp at h

theorem chunked_run_agrees_twoReads :
    Agree (feed twoReads (runStream twoReads ((withLimits 2 .default).loadInput [1, 2])) [[3]])
      (runStream twoReads ((withLimits 2 .default).loadInput [1, 2, 3])) :=
  chunked_run_agrees twoReads (by decide) (withLimits 2 .default) [1, 2] [[3]] (by decide)

end NFdl
