import NFdl.Bytecode.Resume
import NFdl.Bytecode.Control

/-!
# The instruction budget of a run in chunks

The instruction that suspends a run is counted before it suspends, and counted
again when it is retried. A run over chunks therefore spends one instruction
more than the run over all bytes for every suspension, and it suspends at
exactly those chunk ends that lie before the last byte it reads.
-/

namespace NFdl

namespace BytecodeVm

/-- The input bytes that were read, a partly read byte included. -/
def consumed (vm : BytecodeVm) : Nat := vm.inputPos + if vm.bitOffset = 0 then 0 else 1

/-- The position of the cursor in bits. -/
def bitPos (vm : BytecodeVm) : Nat := 8 * vm.inputPos + vm.bitOffset

@[simp] theorem consumed_writeSlot (vm : BytecodeVm) (i : Nat) (v : UInt64) :
    (vm.writeSlot i v).consumed = vm.consumed := by
  simp [consumed]

@[simp] theorem consumed_tick (vm : BytecodeVm) : vm.tick.consumed = vm.consumed := rfl

@[simp] theorem consumed_extend (vm : BytecodeVm) (more : List UInt8) (count : Nat) :
    (vm.extend more count).consumed = vm.consumed := rfl

theorem consumed_alignToByte {vm vm' : BytecodeVm} (h : vm.alignToByte = some vm') :
    vm'.consumed = vm.consumed := by
  unfold alignToByte at h
  split at h
  · rename_i hbit
    simp only [Option.map_eq_some_iff, addUsize_eq_some] at h
    obtain ⟨pos, ⟨-, rfl⟩, rfl⟩ := h
    simp [consumed, hbit]
  · cases h
    rfl

theorem inputPos_le_consumed (vm : BytecodeVm) : vm.inputPos ≤ vm.consumed :=
  Nat.le_add_right _ _

theorem consumed_of_aligned {vm : BytecodeVm} (h : vm.bitOffset = 0) :
    vm.consumed = vm.inputPos := by
  simp [consumed, h]

/-- The cursor stands inside the input. -/
structure Within (vm : BytecodeVm) : Prop where
  bitOffset_lt : vm.bitOffset < 8
  consumed_le : vm.consumed ≤ vm.input.length

theorem Within.extend {vm : BytecodeVm} (h : vm.Within) (more : List UInt8) (count : Nat) :
    (vm.extend more count).Within := by
  refine ⟨h.bitOffset_lt, Nat.le_trans h.consumed_le ?_⟩
  rw [extend_input, List.length_append]
  exact Nat.le_add_right _ _

/-- The cursor moves forward and stays inside the input. -/
structure Advances (vm vm' : BytecodeVm) : Prop where
  input : vm'.input = vm.input
  consumed_le : vm.consumed ≤ vm'.consumed
  within : vm.Within → vm'.Within

namespace Advances

theorem refl (vm : BytecodeVm) : Advances vm vm := ⟨rfl, Nat.le_refl _, id⟩

theorem trans {a b c : BytecodeVm} (h : Advances a b) (h' : Advances b c) : Advances a c :=
  ⟨h'.input.trans h.input, Nat.le_trans h.consumed_le h'.consumed_le,
    fun ha => h'.within (h.within ha)⟩

theorem of_cursor {vm vm' : BytecodeVm} (hinput : vm'.input = vm.input)
    (hpos : vm'.inputPos = vm.inputPos) (hbit : vm'.bitOffset = vm.bitOffset) :
    Advances vm vm' := by
  have hconsumed : vm'.consumed = vm.consumed := by
    unfold consumed
    rw [hpos, hbit]
  refine ⟨hinput, Nat.le_of_eq hconsumed.symm, fun h => ⟨?_, ?_⟩⟩
  · rw [hbit]
    exact h.bitOffset_lt
  · rw [hconsumed, hinput]
    exact h.consumed_le

theorem writeSlot (vm : BytecodeVm) (i : Nat) (v : UInt64) : Advances vm (vm.writeSlot i v) :=
  of_cursor (by simp) (by simp) (by simp)

theorem align {vm vm' : BytecodeVm} (h : vm.alignToByte = some vm') : Advances vm vm' := by
  have hinput := (alignToByte_frame h).input
  have hconsumed := consumed_alignToByte h
  refine ⟨hinput, Nat.le_of_eq hconsumed.symm, fun hin => ⟨?_, ?_⟩⟩
  · rw [alignToByte_bitOffset h]
    decide
  · rw [hconsumed, hinput]
    exact hin.consumed_le

/-- A read of bytes that are there moves an aligned cursor forward. -/
theorem seek {vm vm' : BytecodeVm} (hbit : vm.bitOffset = 0) (hinput : vm'.input = vm.input)
    (hbit' : vm'.bitOffset = vm.bitOffset) (hle : vm.inputPos ≤ vm'.inputPos)
    (hstop : vm'.inputPos ≤ vm.input.length) : Advances vm vm' := by
  have hzero := hbit'.trans hbit
  refine ⟨hinput, ?_, fun _ => ⟨?_, ?_⟩⟩
  · rw [consumed_of_aligned hbit, consumed_of_aligned hzero]
    exact hle
  · rw [hzero]
    decide
  · rw [consumed_of_aligned hzero, hinput]
    exact hstop

end Advances

theorem readBitsLoop_advances (fuel remaining : Nat) (value : UInt64) (vm : BytecodeVm) :
    Advances vm (readBitsLoop fuel remaining value vm).1 := by
  induction fuel generalizing remaining value vm with
  | zero => exact .refl vm
  | succ fuel ih =>
      unfold readBitsLoop
      split
      · exact .refl vm
      · rename_i hne
        split
        · exact .refl vm
        · rename_i byte hbyte
          have hpos : vm.inputPos < vm.input.length := (List.getElem?_eq_some_iff.mp hbyte).1
          have hnext : Advances vm { vm with inputPos := vm.inputPos + 1, bitOffset := 0 } := by
            refine ⟨rfl, ?_, fun _ => ⟨?_, ?_⟩⟩
            · unfold consumed
              dsimp only
              split <;> simp
            · dsimp only
              decide
            · unfold consumed
              exact hpos
          dsimp only
          split
          · exact hnext.trans (ih _ _ _)
          · rename_i hfull
            have hinside : Advances vm
                { vm with bitOffset := vm.bitOffset + min (8 - vm.bitOffset) remaining } := by
              refine ⟨rfl, ?_, fun h => ⟨?_, ?_⟩⟩
              · unfold consumed
                dsimp only
                split <;> split <;> omega
              · have hlt := h.bitOffset_lt
                dsimp only
                omega
              · unfold consumed
                dsimp only
                split <;> omega
            exact hinside.trans (ih _ _ _)

/-- A bit field that the input holds moves the cursor by its width. -/
theorem readBitsLoop_bitPos (fuel remaining : Nat) (value : UInt64) (vm : BytecodeVm)
    (hfuel : remaining ≤ fuel) (hbits : remaining ≤ vm.bitsRemaining) (hlt : vm.bitOffset < 8) :
    (readBitsLoop fuel remaining value vm).1.bitPos = vm.bitPos + remaining := by
  induction fuel generalizing remaining value vm with
  | zero =>
      have hzero : remaining = 0 := by omega
      subst hzero
      rfl
  | succ fuel ih =>
      unfold readBitsLoop
      by_cases hzero : remaining = 0
      · simp [hzero]
      · rw [if_neg hzero]
        have hpos : vm.inputPos < vm.input.length := by
          unfold bitsRemaining at hbits
          split at hbits <;> omega
        rw [List.getElem?_eq_getElem hpos]
        dsimp only
        have hremaining : remaining ≤
            8 - vm.bitOffset + (vm.input.length - vm.inputPos - 1) * 8 := by
          unfold bitsRemaining at hbits
          rw [if_neg (by omega)] at hbits
          exact hbits
        split
        · rw [ih _ _ _ (by omega) (by
            unfold bitsRemaining
            dsimp only
            split <;> omega) (by dsimp only; decide)]
          unfold bitPos
          dsimp only
          omega
        · rw [ih _ _ _ (by omega) (by
            unfold bitsRemaining
            dsimp only
            rw [if_neg (by omega)]
            omega) (by dsimp only; omega)]
          unfold bitPos
          dsimp only
          omega

end BytecodeVm

open BytecodeVm Machine

section Instr

variable {ip : Nat} {vm : BytecodeVm}

theorem execReadU8_advances (slot : Nat) : Advances vm (execReadU8 true slot ip vm).1 := by
  unfold execReadU8
  split
  · exact .refl vm
  · rename_i vm' halign
    refine .trans (.align halign) ?_
    split
    · rename_i byte hbyte
      have hpos : vm'.inputPos < vm'.input.length := (List.getElem?_eq_some_iff.mp hbyte).1
      exact .seek (alignToByte_bitOffset halign) (by simp) (by simp) (Nat.le_succ _) hpos
    · exact .refl vm'

theorem execReadInt_advances (n : Nat) (le : Bool) (slot : Nat) :
    Advances vm (execReadInt true n le slot ip vm).1 := by
  unfold execReadInt
  split
  · exact .refl vm
  · rename_i vm' halign
    refine .trans (.align halign) ?_
    split
    · exact .refl vm'
    · rename_i stop hstop
      obtain ⟨-, rfl⟩ := addUsize_eq_some.mp hstop
      split
      · rename_i bytes hbytes
        have hfits : vm'.inputPos + n ≤ vm'.input.length := by
          unfold readBytes at hbytes
          split at hbytes
          · assumption
          · cases hbytes
        exact .seek (alignToByte_bitOffset halign) (by simp) (by simp) (Nat.le_add_right _ _) hfits
      · exact .refl vm'

theorem execReadSlice_advances {lenSlot : Nat} (hlen : lenSlot ≠ u16Max) (dstSlot : Nat) :
    Advances vm (execReadSlice true lenSlot dstSlot ip vm).1 := by
  unfold execReadSlice
  split
  · exact .refl vm
  · rename_i vm' halign
    refine .trans (.align halign) ?_
    split
    · exact .refl vm'
    · split
      · exact .refl vm'
      · rename_i stop hstop
        obtain ⟨-, rfl⟩ := addUsize_eq_some.mp hstop
        split
        · exact .refl vm'
        · rename_i hshort
          simp only [Bool.true_and, bne_iff_ne, ne_eq, hlen, not_false_eq_true, decide_eq_true_eq,
            Bool.and_eq_true, true_and, Nat.not_lt] at hshort
          exact .seek (alignToByte_bitOffset halign) (by simp) (by simp) (Nat.le_add_right _ _)
            hshort

theorem execReadBits_advances (bits : UInt8) (slot : Nat) :
    Advances vm (execReadBits true bits slot ip vm).1 := by
  unfold execReadBits
  split
  · exact .refl vm
  · exact .trans (readBitsLoop_advances _ _ _ vm) (.writeSlot ..)

theorem withSlot_advances {slot : Nat} {f : UInt64 → BytecodeVm × Flow}
    (hf : ∀ v, Advances vm (f v).1) : Advances vm (withSlot vm slot f).1 := by
  unfold withSlot
  split
  · exact .refl vm
  · exact hf _

theorem execJumpIfZero_advances (target : Nat) (cond : UInt64) :
    Advances vm (execJumpIfZero target ip vm cond).1 := by
  unfold execJumpIfZero
  split
  · split
    · dsimp only
      split <;> exact .of_cursor rfl rfl rfl
    · exact .refl vm
  · exact .refl vm

/-- No instruction of a stream run moves the cursor back or out of the input. -/
theorem execInstr_advances {instr : Instruction} (hinstr : instr.Resumable) :
    Advances vm (execInstr true instr ip vm).1 := by
  cases instr with
  | readU8 slot => exact execReadU8_advances slot
  | readU16 slot le => exact execReadInt_advances 2 le slot
  | readU24 slot le => exact execReadInt_advances 3 le slot
  | readU32 slot le => exact execReadInt_advances 4 le slot
  | readSlice lenSlot dstSlot => exact execReadSlice_advances hinstr dstSlot
  | readBits bits slot => exact execReadBits_advances bits slot
  | readRest name slot => exact absurd hinstr id
  | validate predSlot message =>
      exact withSlot_advances fun v => by split <;> exact .refl vm
  | emitField name slot => exact withSlot_advances fun v => .of_cursor rfl rfl rfl
  | loadConst value dst => exact .writeSlot ..
  | binOp op left right dst =>
      refine withSlot_advances fun l => withSlot_advances fun r => ?_
      split
      · exact .refl vm
      · exact .writeSlot ..
  | unaryOp op src dst => exact withSlot_advances fun v => .writeSlot ..
  | copySlot src dst => exact withSlot_advances fun v => .writeSlot ..
  | updateOffset slot => exact .writeSlot ..
  | jump target => exact .refl vm
  | jumpIfZero condSlot target => exact withSlot_advances (execJumpIfZero_advances target)
  | ret => exact .refl vm

section ReadsPast

variable {more : List UInt8} {count next : Nat} {vm' : BytecodeVm}

theorem execReadU8_reads_past {slot : Nat} (h : (execReadU8 true slot ip vm).2.Suspends)
    (hgo : execReadU8 true slot ip (vm.extend more count) = (vm', .goto next)) :
    vm.input.length < vm'.consumed := by
  unfold execReadU8 at h hgo
  rw [alignToByte_extend] at hgo
  cases halign : vm.alignToByte with
  | none =>
      rw [halign] at h
      exact absurd h id
  | some aligned =>
      rw [halign] at h hgo
      simp only [Option.map_some] at h hgo
      have hinput := (alignToByte_frame halign).input
      split at h
      · exact absurd h id
      · rename_i hbyte
        have hend : aligned.input.length ≤ aligned.inputPos := List.getElem?_eq_none_iff.mp hbyte
        split at hgo
        · cases hgo
          refine Nat.lt_of_lt_of_le ?_ (inputPos_le_consumed _)
          rw [← hinput]
          exact Nat.lt_succ_of_le hend
        · simp [suspend] at hgo

theorem execReadInt_reads_past {n : Nat} {le : Bool} {slot : Nat}
    (h : (execReadInt true n le slot ip vm).2.Suspends)
    (hgo : execReadInt true n le slot ip (vm.extend more count) = (vm', .goto next)) :
    vm.input.length < vm'.consumed := by
  unfold execReadInt at h hgo
  rw [alignToByte_extend] at hgo
  cases halign : vm.alignToByte with
  | none =>
      rw [halign] at h
      exact absurd h id
  | some aligned =>
      rw [halign] at h hgo
      simp only [Option.map_some, extend_inputPos] at h hgo
      have hinput := (alignToByte_frame halign).input
      cases hstop : addUsize aligned.inputPos n with
      | none => simp [hstop] at hgo
      | some stop =>
          simp only [hstop] at h hgo
          obtain ⟨-, rfl⟩ := addUsize_eq_some.mp hstop
          split at h
          · exact absurd h id
          · rename_i hbytes
            have hend : aligned.input.length < aligned.inputPos + n := by
              unfold readBytes at hbytes
              split at hbytes
              · cases hbytes
              · omega
            split at hgo
            · cases hgo
              refine Nat.lt_of_lt_of_le ?_ (inputPos_le_consumed _)
              rw [← hinput]
              exact hend
            · simp [suspend] at hgo

theorem execReadSlice_reads_past {lenSlot dstSlot : Nat} (hlen : lenSlot ≠ u16Max)
    (h : (execReadSlice true lenSlot dstSlot ip vm).2.Suspends)
    (hgo : execReadSlice true lenSlot dstSlot ip (vm.extend more count) = (vm', .goto next)) :
    vm.input.length < vm'.consumed := by
  unfold execReadSlice at h hgo
  rw [alignToByte_extend] at hgo
  cases halign : vm.alignToByte with
  | none =>
      rw [halign] at h
      exact absurd h id
  | some aligned =>
      rw [halign] at h hgo
      simp only [Option.map_some, extend_inputPos, sliceLen, if_neg hlen, extend_slots] at h hgo
      have hinput := (alignToByte_frame halign).input
      split at hgo
      · simp at hgo
      · rename_i stop hstop
        simp only [hstop] at h
        split at h
        · rename_i hshort
          simp only [Bool.true_and, bne_iff_ne, ne_eq, hlen, not_false_eq_true,
            decide_eq_true_eq, Bool.and_eq_true, true_and] at hshort
          split at hgo
          · simp [suspend] at hgo
          · cases hgo
            refine Nat.lt_of_lt_of_le ?_ (inputPos_le_consumed _)
            rw [← hinput]
            exact hshort
        · exact absurd h id

theorem execReadBits_reads_past {bits : UInt8} {slot : Nat} (hin : vm.Within)
    (h : (execReadBits true bits slot ip vm).2.Suspends)
    (hgo : execReadBits true bits slot ip (vm.extend more count) = (vm', .goto next)) :
    vm.input.length < vm'.consumed := by
  unfold execReadBits at h hgo
  split at h
  · rename_i hshort
    simp only [Bool.true_and, decide_eq_true_eq] at hshort
    split at hgo
    · simp [suspend] at hgo
    · rename_i hfits
      simp only [Bool.true_and, decide_eq_true_eq, Nat.not_lt] at hfits
      cases hgo
      have hpos := readBitsLoop_bitPos bits.toNat bits.toNat 0 (vm.extend more count)
        (Nat.le_refl _) hfits hin.bitOffset_lt
      have hlt := ((readBitsLoop_advances bits.toNat bits.toNat 0 _).within
        (hin.extend more count)).bitOffset_lt
      rw [consumed_writeSlot]
      generalize (readBitsLoop bits.toNat bits.toNat 0 (vm.extend more count)).1 = vm'
        at hpos hlt ⊢
      unfold bitPos at hpos
      rw [extend_inputPos, extend_bitOffset] at hpos
      have hbits : 8 * vm.input.length < 8 * vm'.inputPos + vm'.bitOffset := by
        unfold bitsRemaining at hshort
        split at hshort <;> omega
      unfold consumed
      split <;> omega
  · exact absurd h id

/-- A read that suspends at the end of a chunk reads past that end once the
missing bytes are there. -/
theorem execInstr_reads_past {instr : Instruction} (hinstr : instr.Resumable) (hin : vm.Within)
    (h : (execInstr true instr ip vm).2.Suspends)
    (hgo : execInstr true instr ip (vm.extend more count) = (vm', .goto next)) :
    vm.input.length < vm'.consumed := by
  cases instr with
  | readU8 slot => exact execReadU8_reads_past h hgo
  | readU16 slot le => exact execReadInt_reads_past h hgo
  | readU24 slot le => exact execReadInt_reads_past h hgo
  | readU32 slot le => exact execReadInt_reads_past h hgo
  | readSlice lenSlot dstSlot => exact execReadSlice_reads_past hinstr h hgo
  | readBits bits slot => exact execReadBits_reads_past hin h hgo
  | readRest name slot => exact absurd hinstr id
  | jumpIfZero condSlot target =>
      exact absurd h (withSlot_not_suspends (execJumpIfZero_not_suspends target ip vm))
  | validate predSlot message =>
      exact absurd h (withSlot_not_suspends fun v => by split <;> exact id)
  | emitField name slot => exact absurd h (withSlot_not_suspends fun _ => id)
  | binOp op left right dst =>
      refine absurd h (withSlot_not_suspends fun l => withSlot_not_suspends fun r => ?_)
      split <;> exact id
  | unaryOp op src dst => exact absurd h (withSlot_not_suspends fun _ => id)
  | copySlot src dst => exact absurd h (withSlot_not_suspends fun _ => id)
  | _ => exact absurd h id

end ReadsPast

end Instr

section Complete

variable {program : BytecodeProgram} {c d : Config} {r : BytecodeVm × Ending}

theorem Ending.complete_of_outcome {e : Ending} (h : e.outcome = .complete) :
    e = .returned (.ok .complete) := by
  cases e with
  | panicked => cases h
  | returned result =>
      cases result with
      | error e => cases h
      | ok outcome =>
          cases outcome with
          | complete => rfl
          | needMoreBytes cont => cases h

/-- A move counts one instruction and advances the cursor. -/
theorem vmMove_advances (hprogram : program.Resumable) (h : vmMove program true c = .ok d) :
    d.vm.instructionsExecuted = c.vm.instructionsExecuted + 1 ∧ Advances c.vm.tick d.vm := by
  obtain ⟨instr, hinstr, -, hexec⟩ := vmMove_eq_ok.mp h
  have hadvances : Advances c.vm.tick (execInstr true instr c.ip c.vm.tick).1 :=
    execInstr_advances (hprogram instr (List.mem_of_getElem? hinstr))
  rw [hexec] at hadvances
  exact ⟨(vmMove_frame h).instructionsExecuted, hadvances⟩

/-- A complete run neither uncounts an instruction nor unreads a byte. -/
theorem complete_later (hprogram : program.Resumable) (hr : Halts (vmMove program true) c r)
    (hcomplete : r.2.outcome = .complete) :
    c.vm.instructionsExecuted ≤ r.1.instructionsExecuted ∧ c.vm.consumed ≤ r.1.consumed := by
  obtain ⟨n, d, hd, hend⟩ := hr
  have hlater : c.vm.instructionsExecuted ≤ d.vm.instructionsExecuted ∧
      c.vm.consumed ≤ d.vm.consumed := by
    refine hd.invariant (P := fun d => c.vm.instructionsExecuted ≤ d.vm.instructionsExecuted ∧
      c.vm.consumed ≤ d.vm.consumed) ?_ ⟨Nat.le_refl _, Nat.le_refl _⟩
    rintro a b ⟨hcount, hconsumed⟩ hmove
    obtain ⟨hnext, hadvances⟩ := vmMove_advances hprogram hmove
    exact ⟨by omega, Nat.le_trans hconsumed hadvances.consumed_le⟩
  obtain ⟨vm, ending⟩ := r
  obtain rfl := Ending.complete_of_outcome hcomplete
  obtain ⟨-, heq⟩ | ⟨instr, -, -, heq⟩ | ⟨instr, -, -, hexec⟩ := vmMove_eq_error.mp hend
  · obtain ⟨rfl, -⟩ := Prod.mk.inj heq
    exact hlater
  · simp [instructionLimit] at heq
  · obtain ⟨-, rfl⟩ := execInstr_complete hexec
    exact ⟨Nat.le_succ_of_le hlater.1, hlater.2⟩

/-- A complete run counts the instruction it is at. -/
theorem complete_counts (hprogram : program.Resumable) (hr : Halts (vmMove program true) c r)
    (hcomplete : r.2.outcome = .complete) {instr : Instruction}
    (hinstr : program.instructions[c.ip]? = some instr) :
    c.vm.instructionsExecuted < r.1.instructionsExecuted := by
  cases hmove : vmMove program true c with
  | ok d =>
      have hlater := complete_later hprogram (hr.after (.one hmove)) hcomplete
      have hnext := (vmMove_advances hprogram hmove).1
      omega
  | error r' =>
      obtain rfl := hr.unique (.of_end hmove)
      obtain ⟨vm, ending⟩ := r
      obtain rfl := Ending.complete_of_outcome hcomplete
      obtain ⟨hnone, -⟩ | ⟨instr', -, -, heq⟩ | ⟨instr', -, -, hexec⟩ := vmMove_eq_error.mp hmove
      · simp [hnone] at hinstr
      · simp [instructionLimit] at heq
      · obtain ⟨-, rfl⟩ := execInstr_complete hexec
        exact Nat.lt_succ_self _

end Complete

/-- The run over chunks, at `c`, after `suspensions` suspensions, and the run
over all bytes, at `c'`. -/
structure Charged (program : BytecodeProgram) (rest : List UInt8) (suspensions : Nat)
    (c c' : Config) : Prop extends InStep program rest c c' where
  executed : c.vm.instructionsExecuted = c'.vm.instructionsExecuted + suspensions
  within : c.vm.Within
  counted : c.vm.instructionsExecuted ≤ c.vm.limits.maxInstructions + 1

section Charged

variable {program : BytecodeProgram} {rest : List UInt8} {suspensions : Nat} {c c' : Config}
variable {r r' : BytecodeVm × Ending}

theorem Charged.move (hprogram : program.Resumable) {d : Config}
    (h : Charged program rest suspensions c c') (hmove : vmMove program true c = .ok d) :
    ∃ d', vmMove program true c' = .ok d' ∧ Charged program rest suspensions d d' := by
  obtain ⟨d', hmove', hstep⟩ := h.toInStep.move hprogram hmove
  obtain ⟨hcount, hadvances⟩ := vmMove_advances hprogram hmove
  have hcount' := (vmMove_advances hprogram hmove').1
  obtain ⟨_, -, hbudget, -⟩ := vmMove_eq_ok.mp hmove
  have hlimits := (vmMove_frame hmove).limits
  have hexecuted := h.executed
  unfold outOfBudget at hbudget
  rw [tick_limits] at hlimits
  refine ⟨d', hmove', hstep, by omega, hadvances.within ⟨h.within.bitOffset_lt,
    h.within.consumed_le⟩, ?_⟩
  rw [hlimits]
  omega

/-- Follow the two runs until the one over chunks ends or suspends. -/
theorem Charged.until_end (hprogram : program.Resumable)
    (h : Charged program rest suspensions c c') (hr : Halts (vmMove program true) c r)
    (hr' : Halts (vmMove program true) c' r') :
    ∃ d d', Charged program rest suspensions d d' ∧ d.vm.input = c.vm.input ∧
      d.vm.limits = c.vm.limits ∧ vmMove program true d = .error r ∧
      Halts (vmMove program true) d' r' := by
  obtain ⟨n, d, hd, hend⟩ := hr
  have hframe : d.vm.input = c.vm.input ∧ d.vm.limits = c.vm.limits := by
    refine hd.invariant (P := fun d => d.vm.input = c.vm.input ∧ d.vm.limits = c.vm.limits) ?_
      ⟨rfl, rfl⟩
    rintro a b ⟨hinput, hlimits⟩ hmove
    exact ⟨(vmMove_frame hmove).input.trans hinput, (vmMove_frame hmove).limits.trans hlimits⟩
  obtain ⟨d', hd', hcharged⟩ := hd.simulate (fun _ _ _ h hmove => h.move hprogram hmove) h
  exact ⟨d, d', hcharged, hframe.1, hframe.2, hend, hr'.after hd'⟩

theorem Pending.extend {ip : Nat} {vm vm' : BytecodeVm} (h : Pending program ip vm vm')
    (more : List UInt8) (count : Nat) :
    Pending program ip (vm.extend more count) (vm'.extend more count) := by
  obtain rfl | ⟨instr, hinstr, haligns, halign⟩ := h
  · exact .inl rfl
  · refine .inr ⟨instr, hinstr, haligns, ?_⟩
    rw [alignToByte_extend, halign]
    rfl

theorem InStep.consumed (h : InStep program rest c c') : c'.vm.consumed = c.vm.consumed := by
  obtain ⟨vm, count, hpending, hvm, -⟩ := h.vm
  rw [hvm, consumed_extend]
  obtain hsame | ⟨_, -, -, halign⟩ := hpending
  · rw [hsame]
  · exact (consumed_alignToByte halign).symm

/-- The read that suspended the run over chunks reads past the end of the chunk
in the run over all bytes. -/
theorem Charged.reads_past (hprogram : program.Resumable)
    (h : Charged program rest suspensions c c') {instr : Instruction}
    (hinstr : program.instructions[c.ip]? = some instr)
    (hsuspends : (execInstr true instr c.ip c.vm.tick).2.Suspends)
    (hr' : Halts (vmMove program true) c' r') (hcomplete : r'.2.outcome = .complete) :
    c.vm.input.length < r'.1.consumed := by
  obtain ⟨vm, count, hpending, hvm, -⟩ := h.vm
  have hexec : execInstr true instr c'.ip c'.vm.tick =
      execInstr true instr c.ip (c.vm.tick.extend rest (count + 1)) := by
    rw [h.ip, hvm]
    exact ((hpending.extend rest count).execInstr hinstr).symm
  cases hmove : vmMove program true c' with
  | error r'' =>
      obtain rfl := hr'.unique (.of_end hmove)
      obtain ⟨final, ending⟩ := r'
      obtain rfl := Ending.complete_of_outcome hcomplete
      obtain rfl := (complete_end hmove).2.2 instr (by rw [h.ip]; exact hinstr)
      exact absurd hsuspends id
  | ok d =>
      obtain ⟨instr', hinstr', -, hgo⟩ := vmMove_eq_ok.mp hmove
      rw [h.ip] at hinstr'
      cases hinstr.symm.trans hinstr'
      rw [hexec] at hgo
      have hwithin : Within c.vm.tick := ⟨h.within.bitOffset_lt, h.within.consumed_le⟩
      have hpast := execInstr_reads_past (hprogram instr (List.mem_of_getElem? hinstr))
        hwithin hsuspends hgo
      have hlater := (complete_later hprogram (hr'.after (.one hmove)) hcomplete).2
      rw [tick_input] at hpast
      omega

/-- A run over chunks that ended for good is complete exactly when the budget
covers the suspensions. -/
theorem Charged.stops (hprogram : program.Resumable)
    (h : Charged program rest suspensions c c') (hend : vmMove program true c = .error r)
    (hruns : ¬ r.2.flow.Suspends) (hr' : Halts (vmMove program true) c' r')
    (hcomplete : r'.2.outcome = .complete) :
    (r.2.outcome = .complete ∧ r'.1.consumed ≤ c.vm.input.length ∧
        r'.1.instructionsExecuted + suspensions ≤ c.vm.limits.maxInstructions + 1) ∨
      r.2.outcome ≠ .complete ∧
        c.vm.limits.maxInstructions + 1 < r'.1.instructionsExecuted + suspensions := by
  have hexecuted := h.executed
  have hconsumed := h.toInStep.consumed
  have hwithin := h.within.consumed_le
  obtain ⟨hnone, rfl⟩ | ⟨instr, hinstr, hbudget, rfl⟩ | ⟨instr, hinstr, hbudget, hexec⟩ :=
    vmMove_eq_error.mp hend
  · -- Both runs are past the last instruction.
    have hcounted := h.counted
    have hend' : vmMove program true c' = .error (c'.vm, .returned (.ok .complete)) :=
      vmMove_eq_error.mpr (.inl ⟨by rw [h.ip]; exact hnone, rfl⟩)
    obtain rfl := hr'.unique (.of_end hend')
    exact .inl ⟨rfl, by dsimp only; omega, by dsimp only; omega⟩
  · -- Only the run over chunks has spent its budget.
    have hcounts := complete_counts hprogram hr' hcomplete (by rw [h.ip]; exact hinstr)
    unfold outOfBudget at hbudget
    refine .inr ⟨?_, by omega⟩
    intro hlimit
    cases hlimit
  · obtain ⟨count, -, hexec'⟩ := h.toInStep.execInstr hinstr
      (hprogram instr (List.mem_of_getElem? hinstr)) (by rw [hexec]; exact hruns)
    rw [hexec] at hexec'
    have hend' : vmMove program true c' = .error (r.1.extend rest count, r.2) :=
      vmMove_eq_error.mpr (.inr (.inr ⟨instr, by rw [h.ip]; exact hinstr,
        h.toInStep.within_budget hbudget, hexec'⟩))
    obtain rfl := hr'.unique (.of_end hend')
    have hfinal : r.2 = .returned (.ok .complete) := Ending.complete_of_outcome hcomplete
    have hret : r.1.extend rest count = c'.vm.tick := by
      rw [hfinal] at hexec'
      exact (execInstr_complete hexec').2
    unfold outOfBudget at hbudget
    rw [hret]
    refine .inl ⟨hcomplete, ?_, ?_⟩
    · rw [consumed_tick]
      omega
    · rw [tick_instructionsExecuted]
      omega

/-- Resuming charges the retried instruction once more. -/
theorem Charged.resume (hprogram : program.Resumable) {more : List UInt8}
    (h : Charged program (more ++ rest) suspensions c c') {vm : BytecodeVm}
    {cont : VmContinuation}
    (hend : vmMove program true c = .error (vm, .returned (.ok (.needMoreBytes cont))))
    (hr' : Halts (vmMove program true) c' r') (hcomplete : r'.2.outcome = .complete) :
    Charged program rest (suspensions + 1) ⟨(restore cont).appendInput more, cont.ip⟩ c' ∧
      c.vm.input.length < r'.1.consumed ∧
      ((restore cont).appendInput more).input = c.vm.input ++ more ∧
      ((restore cont).appendInput more).limits = c.vm.limits := by
  have hstep := h.toInStep.resume hend
  obtain ⟨_, _, _, -, -, -, -, hcont, -⟩ := h.toInStep.suspended hend
  obtain ⟨-, heq⟩ | ⟨_, -, -, heq⟩ | ⟨instr, hinstr, hbudget, hexec⟩ := vmMove_eq_error.mp hend
  · simp at heq
  · simp [instructionLimit] at heq
  · have hframe := execInstr_frame true instr c.ip c.vm.tick
    have hadvances : Advances c.vm.tick (execInstr true instr c.ip c.vm.tick).1 :=
      execInstr_advances (hprogram instr (List.mem_of_getElem? hinstr))
    rw [hexec] at hframe hadvances
    have hrestore : (restore cont).appendInput more = vm.extend more vm.instructionsExecuted := by
      rw [hcont]
      rfl
    have hin := hadvances.within ⟨h.within.bitOffset_lt, h.within.consumed_le⟩
    have hcount := hframe.instructionsExecuted
    have hexecuted := h.executed
    rw [tick_instructionsExecuted] at hcount
    unfold outOfBudget at hbudget
    rw [hrestore] at hstep ⊢
    refine ⟨⟨hstep, ?_, hin.extend more _, ?_⟩, ?_, ?_, hframe.limits⟩
    · rw [extend_instructionsExecuted, hcount]
      omega
    · rw [extend_instructionsExecuted, extend_limits, hframe.limits, hcount]
      exact Nat.succ_le_succ (Nat.le_of_not_lt hbudget)
    · exact h.reads_past hprogram hinstr (by rw [hexec]; trivial) hr' hcomplete
    · rw [extend_input, hframe.input, tick_input]

end Charged

/-- The ends of all chunks but the last, the first of them being at `stop`. -/
def chunkEnds (stop : Nat) : List (List UInt8) → List Nat
  | [] => []
  | more :: rest => stop :: chunkEnds (stop + more.length) rest

theorem le_of_mem_chunkEnds {stop i : Nat} {rest : List (List UInt8)}
    (h : i ∈ chunkEnds stop rest) : stop ≤ i := by
  induction rest generalizing stop with
  | nil => simp [chunkEnds] at h
  | cons more rest ih =>
      unfold chunkEnds at h
      obtain rfl | h := List.mem_cons.mp h
      · exact Nat.le_refl _
      · exact Nat.le_trans (Nat.le_add_right _ _) (ih h)

/-- The chunk ends at which a run that reads `consumed` bytes has to wait. -/
def suspensionsBefore (consumed stop : Nat) (rest : List (List UInt8)) : Nat :=
  (chunkEnds stop rest).countP (· < consumed)

theorem suspensionsBefore_of_le {consumed stop : Nat} {rest : List (List UInt8)}
    (h : consumed ≤ stop) : suspensionsBefore consumed stop rest = 0 := by
  unfold suspensionsBefore
  rw [List.countP_eq_zero]
  intro i hi
  have hle := le_of_mem_chunkEnds hi
  simp only [decide_eq_true_eq]
  omega

theorem suspensionsBefore_of_lt {consumed stop : Nat} {more : List UInt8}
    {rest : List (List UInt8)} (h : stop < consumed) :
    suspensionsBefore consumed stop (more :: rest) =
      suspensionsBefore consumed (stop + more.length) rest + 1 := by
  have hends : chunkEnds stop (more :: rest) = stop :: chunkEnds (stop + more.length) rest := rfl
  unfold suspensionsBefore
  rw [hends, List.countP_cons_of_pos (by simpa using h)]

/-- Feeding the remaining chunks completes exactly when the budget covers the
suspensions that are still to come. -/
theorem feed_completes_iff {program : BytecodeProgram} (hprogram : program.Resumable)
    {rest : List (List UInt8)} {suspensions : Nat} {c c' : Config}
    (h : Charged program rest.flatten suspensions c c') {r r' : BytecodeVm × Ending}
    (hr : Halts (vmMove program true) c r) (hr' : Halts (vmMove program true) c' r')
    (hcomplete : r'.2.outcome = .complete) :
    (feed program r rest).2.outcome = .complete ↔
      r'.1.instructionsExecuted + suspensions +
        suspensionsBefore r'.1.consumed c.vm.input.length rest ≤
        c.vm.limits.maxInstructions + 1 := by
  induction rest generalizing suspensions c c' r with
  | nil =>
      obtain ⟨d, d', hcharged, hinput, hlimits, hend, hd'⟩ := h.until_end hprogram hr hr'
      have hruns : ¬ r.2.flow.Suspends := by
        intro hsuspends
        obtain ⟨vm, ending⟩ := r
        obtain ⟨cont, rfl⟩ := Ending.suspends_cases hsuspends
        obtain ⟨r'', hend', hagree⟩ := hcharged.toInStep.suspend hprogram hend
        obtain rfl := hd'.unique (.of_end hend')
        exact absurd (hcomplete.symm.trans hagree.outcome) (by simp [Ending.outcome])
      rw [← hlimits]
      obtain ⟨hdone, -, hle⟩ | ⟨hnot, hlt⟩ := hcharged.stops hprogram hend hruns hd' hcomplete
      · exact iff_of_true hdone hle
      · exact iff_of_false hnot (Nat.not_le_of_lt hlt)
  | cons more rest ih =>
      obtain ⟨d, d', hcharged, hinput, hlimits, hend, hd'⟩ := h.until_end hprogram hr hr'
      by_cases hs : r.2.flow.Suspends
      · obtain ⟨vm, ending⟩ := r
        obtain ⟨cont, rfl⟩ := Ending.suspends_cases hs
        obtain ⟨hresumed, hpast, hinput', hlimits'⟩ :=
          hcharged.resume hprogram hend hd' hcomplete
        have hrest := ih hresumed (interpret_halts ..) hd'
        dsimp only at hrest
        rw [hinput', hlimits', List.length_append, hinput, hlimits] at hrest
        rw [hinput] at hpast
        rw [suspensionsBefore_of_lt hpast]
        refine Iff.trans hrest ?_
        omega
      · rw [feed_of_not_suspends hs, ← hlimits]
        obtain ⟨hdone, hconsumed, hle⟩ | ⟨hnot, hlt⟩ :=
          hcharged.stops hprogram hend hs hd' hcomplete
        · rw [← hinput, suspensionsBefore_of_le hconsumed]
          exact iff_of_true hdone hle
        · exact iff_of_false hnot (by omega)

/-- When one run over all bytes completes, the run over chunks completes exactly
when the budget also covers one instruction for every chunk end that lies before
the last byte read. -/
theorem chunked_run_completes_iff (program : BytecodeProgram) (hprogram : program.Resumable)
    (vm : BytecodeVm) (first : List UInt8) (rest : List (List UInt8))
    (hcomplete : (runStream program (vm.loadInput (first ++ rest.flatten))).2.outcome =
      .complete) :
    (feed program (runStream program (vm.loadInput first)) rest).2.outcome = .complete ↔
      (runStream program (vm.loadInput (first ++ rest.flatten))).1.instructionsExecuted +
        suspensionsBefore
          (runStream program (vm.loadInput (first ++ rest.flatten))).1.consumed
          first.length rest ≤
        vm.limits.maxInstructions + 1 := by
  have hcharged : Charged program rest.flatten 0 ⟨(vm.loadInput first).resetCounters, 0⟩
      ⟨(vm.loadInput (first ++ rest.flatten)).resetCounters, 0⟩ :=
    { ip := rfl
      vm := ⟨(vm.loadInput first).resetCounters, 0, .inl rfl, rfl, Nat.le_refl 0⟩
      executed := rfl
      within := ⟨Nat.zero_lt_succ 7, Nat.zero_le _⟩
      counted := Nat.zero_le _ }
  exact feed_completes_iff hprogram hcharged (interpret_halts program 0 true _)
    (interpret_halts program 0 true _) hcomplete

theorem chunked_run_completes_iff_twoReads :
    (feed twoReads (runStream twoReads ((withLimits 2 .default).loadInput [1]))
      [[2], [3]]).2.outcome = .complete :=
  (chunked_run_completes_iff twoReads (by decide) (withLimits 2 .default) [1] [[2], [3]]
    (by decide)).mpr (by decide)

/-- Limits that are just large enough for the three instructions. -/
def threeInstructions : Limits where
  maxInstructions := 2
  maxLoopIterations := 10000

/-- The three instructions fit the budget when the bytes come at once, and do
not when they come one by one. -/
theorem chunked_run_exceeds_budget :
    (runStream twoReads ((withLimits 2 threeInstructions).loadInput [1, 2, 3])).2.outcome =
        .complete ∧
      (feed twoReads (runStream twoReads ((withLimits 2 threeInstructions).loadInput [1]))
        [[2], [3]]).2.outcome = .error (.limitExceeded "exceeded max instructions 2") := by
  decide

end NFdl
