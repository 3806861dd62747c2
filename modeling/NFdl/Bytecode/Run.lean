import NFdl.Bytecode.Vm

/-!
# What one instruction leaves alone

An instruction never changes the input, the limits, the instruction count or
the number of slots. Since every round of the loop spends one unit of the
budget, the interpreter is total: `interpret` is the ending of its run.
-/

namespace NFdl

namespace BytecodeVm

@[simp] theorem writeSlot_input (vm : BytecodeVm) (i : Nat) (v : UInt64) :
    (vm.writeSlot i v).input = vm.input := by unfold writeSlot; split <;> rfl

@[simp] theorem writeSlot_inputPos (vm : BytecodeVm) (i : Nat) (v : UInt64) :
    (vm.writeSlot i v).inputPos = vm.inputPos := by unfold writeSlot; split <;> rfl

@[simp] theorem writeSlot_bitOffset (vm : BytecodeVm) (i : Nat) (v : UInt64) :
    (vm.writeSlot i v).bitOffset = vm.bitOffset := by unfold writeSlot; split <;> rfl

@[simp] theorem writeSlot_limits (vm : BytecodeVm) (i : Nat) (v : UInt64) :
    (vm.writeSlot i v).limits = vm.limits := by unfold writeSlot; split <;> rfl

@[simp] theorem writeSlot_instructionsExecuted (vm : BytecodeVm) (i : Nat) (v : UInt64) :
    (vm.writeSlot i v).instructionsExecuted = vm.instructionsExecuted := by
  unfold writeSlot; split <;> rfl

@[simp] theorem writeSlot_loopIterations (vm : BytecodeVm) (i : Nat) (v : UInt64) :
    (vm.writeSlot i v).loopIterations = vm.loopIterations := by unfold writeSlot; split <;> rfl

@[simp] theorem writeSlot_emitted (vm : BytecodeVm) (i : Nat) (v : UInt64) :
    (vm.writeSlot i v).emitted = vm.emitted := by unfold writeSlot; split <;> rfl

@[simp] theorem writeSlot_restStarts (vm : BytecodeVm) (i : Nat) (v : UInt64) :
    (vm.writeSlot i v).restStarts = vm.restStarts := by unfold writeSlot; split <;> rfl

/-- A write beyond the vector is ignored, so the vector is `List.set` in both cases. -/
@[simp] theorem writeSlot_slots (vm : BytecodeVm) (i : Nat) (v : UInt64) :
    (vm.writeSlot i v).slots = vm.slots.set i v := by
  unfold writeSlot
  split
  · rfl
  · rename_i h
    exact (List.set_eq_of_length_le (Nat.le_of_not_lt h)).symm

@[simp] theorem tick_slots (vm : BytecodeVm) : vm.tick.slots = vm.slots := rfl
@[simp] theorem tick_input (vm : BytecodeVm) : vm.tick.input = vm.input := rfl
@[simp] theorem tick_inputPos (vm : BytecodeVm) : vm.tick.inputPos = vm.inputPos := rfl
@[simp] theorem tick_bitOffset (vm : BytecodeVm) : vm.tick.bitOffset = vm.bitOffset := rfl
@[simp] theorem tick_limits (vm : BytecodeVm) : vm.tick.limits = vm.limits := rfl
@[simp] theorem tick_emitted (vm : BytecodeVm) : vm.tick.emitted = vm.emitted := rfl
@[simp] theorem tick_restStarts (vm : BytecodeVm) : vm.tick.restStarts = vm.restStarts := rfl
@[simp] theorem tick_loopIterations (vm : BytecodeVm) :
    vm.tick.loopIterations = vm.loopIterations := rfl
@[simp] theorem tick_instructionsExecuted (vm : BytecodeVm) :
    vm.tick.instructionsExecuted = vm.instructionsExecuted + 1 := rfl

theorem tick_alignToByte (vm : BytecodeVm) :
    vm.tick.alignToByte = vm.alignToByte.map BytecodeVm.tick := by
  unfold alignToByte
  rw [tick_bitOffset, tick_inputPos]
  split
  · cases addUsize vm.inputPos 1 <;> rfl
  · rfl

/-- The parts of the machine that no instruction changes. -/
structure SameFrame (vm vm' : BytecodeVm) : Prop where
  input : vm'.input = vm.input
  limits : vm'.limits = vm.limits
  instructionsExecuted : vm'.instructionsExecuted = vm.instructionsExecuted
  slots_length : vm'.slots.length = vm.slots.length

namespace SameFrame

theorem refl (vm : BytecodeVm) : SameFrame vm vm := ⟨rfl, rfl, rfl, rfl⟩

theorem trans {a b c : BytecodeVm} (h : SameFrame a b) (h' : SameFrame b c) : SameFrame a c :=
  ⟨h'.input.trans h.input, h'.limits.trans h.limits,
    h'.instructionsExecuted.trans h.instructionsExecuted,
    h'.slots_length.trans h.slots_length⟩

theorem writeSlot (vm : BytecodeVm) (i : Nat) (v : UInt64) : SameFrame vm (vm.writeSlot i v) :=
  ⟨by simp, by simp, by simp, by simp⟩

end SameFrame

theorem alignToByte_frame {vm vm' : BytecodeVm} (h : vm.alignToByte = some vm') :
    SameFrame vm vm' := by
  unfold alignToByte at h
  split at h
  · simp only [Option.map_eq_some_iff] at h
    obtain ⟨pos, -, rfl⟩ := h
    exact ⟨rfl, rfl, rfl, rfl⟩
  · cases h
    exact .refl _

theorem readBitsLoop_frame (fuel remaining : Nat) (value : UInt64) (vm : BytecodeVm) :
    SameFrame vm (readBitsLoop fuel remaining value vm).1 := by
  induction fuel generalizing remaining value vm with
  | zero => exact .refl vm
  | succ fuel ih =>
      unfold readBitsLoop
      split
      · exact .refl vm
      · split
        · exact .refl vm
        · dsimp only
          split <;> exact ⟨(ih ..).input, (ih ..).limits, (ih ..).instructionsExecuted,
            (ih ..).slots_length⟩

theorem readBits_frame (vm : BytecodeVm) (bits : Nat) : SameFrame vm (vm.readBits bits).1 :=
  readBitsLoop_frame ..

end BytecodeVm

open BytecodeVm

theorem execReadInt_frame (stream : Bool) (n : Nat) (le : Bool) (slot ip : Nat) (vm : BytecodeVm) :
    SameFrame vm (execReadInt stream n le slot ip vm).1 := by
  unfold execReadInt
  split
  · exact .refl vm
  · rename_i vm' halign
    refine .trans (alignToByte_frame halign) ?_
    split
    · exact .refl vm'
    · split
      · exact ⟨by simp, by simp, by simp, by simp⟩
      · split
        · exact .refl vm'
        · exact .writeSlot vm' slot 0

theorem execReadU8_frame (stream : Bool) (slot ip : Nat) (vm : BytecodeVm) :
    SameFrame vm (execReadU8 stream slot ip vm).1 := by
  unfold execReadU8
  split
  · exact .refl vm
  · rename_i vm' halign
    refine .trans (alignToByte_frame halign) ?_
    split
    · exact ⟨by simp, by simp, by simp, by simp⟩
    · split
      · exact .refl vm'
      · exact .writeSlot vm' slot 0

theorem execReadSlice_frame (stream : Bool) (lenSlot dstSlot ip : Nat) (vm : BytecodeVm) :
    SameFrame vm (execReadSlice stream lenSlot dstSlot ip vm).1 := by
  unfold execReadSlice
  split
  · exact .refl vm
  · rename_i vm' halign
    refine .trans (alignToByte_frame halign) ?_
    split
    · exact .refl vm'
    · split
      · exact .refl vm'
      · split
        · exact .refl vm'
        · exact ⟨by simp, by simp, by simp, by simp⟩

theorem execReadBits_frame (stream : Bool) (bits : UInt8) (slot ip : Nat) (vm : BytecodeVm) :
    SameFrame vm (execReadBits stream bits slot ip vm).1 := by
  unfold execReadBits
  split
  · exact .refl vm
  · exact .trans (readBits_frame vm bits.toNat) (.writeSlot ..)

theorem execReadRest_frame (name : String) (slot ip : Nat) (vm : BytecodeVm) :
    SameFrame vm (execReadRest name slot ip vm).1 := by
  unfold execReadRest
  split
  · exact .refl vm
  · rename_i vm' halign
    exact .trans (alignToByte_frame halign) ⟨by simp, by simp, by simp, by simp⟩

theorem withSlot_frame {vm : BytecodeVm} {slot : Nat} {f : UInt64 → BytecodeVm × Flow}
    (hf : ∀ v, SameFrame vm (f v).1) : SameFrame vm (withSlot vm slot f).1 := by
  unfold withSlot
  split
  · exact .refl vm
  · exact hf _

theorem execJumpIfZero_frame (target ip : Nat) (vm : BytecodeVm) (cond : UInt64) :
    SameFrame vm (execJumpIfZero target ip vm cond).1 := by
  unfold execJumpIfZero
  split
  · split
    · dsimp only
      split <;> exact ⟨rfl, rfl, rfl, rfl⟩
    · exact .refl vm
  · exact .refl vm

/-- The frame of every instruction. -/
theorem execInstr_frame (stream : Bool) (instr : Instruction) (ip : Nat) (vm : BytecodeVm) :
    SameFrame vm (execInstr stream instr ip vm).1 := by
  cases instr with
  | readU8 slot => exact execReadU8_frame ..
  | readU16 slot le => exact execReadInt_frame ..
  | readU24 slot le => exact execReadInt_frame ..
  | readU32 slot le => exact execReadInt_frame ..
  | readSlice lenSlot dstSlot => exact execReadSlice_frame ..
  | readBits bits slot => exact execReadBits_frame ..
  | readRest name slot => exact execReadRest_frame ..
  | validate predSlot message =>
      exact withSlot_frame fun v => by split <;> exact .refl vm
  | emitField name slot => exact withSlot_frame fun v => ⟨rfl, rfl, rfl, rfl⟩
  | loadConst value dst => exact .writeSlot ..
  | binOp op left right dst =>
      refine withSlot_frame fun l => withSlot_frame fun r => ?_
      split
      · exact .refl vm
      · exact .writeSlot ..
  | unaryOp op src dst => exact withSlot_frame fun v => .writeSlot ..
  | copySlot src dst => exact withSlot_frame fun v => .writeSlot ..
  | updateOffset slot => exact .writeSlot ..
  | jump target => exact .refl vm
  | jumpIfZero condSlot target => exact withSlot_frame fun v => execJumpIfZero_frame ..
  | ret => exact .refl vm

theorem follow_eq_ok {r : BytecodeVm × Flow} {c : Config} :
    follow r = .ok c ↔ r = (c.vm, .goto c.ip) := by
  obtain ⟨vm, flow⟩ := r
  obtain ⟨vm', ip⟩ := c
  cases flow <;> simp [follow]

/-- Everything a move of the interpreter can be: one instruction within budget. -/
theorem vmMove_eq_ok {program : BytecodeProgram} {stream : Bool} {c c' : Config} :
    vmMove program stream c = .ok c' ↔
      ∃ instr, program.instructions[c.ip]? = some instr ∧ ¬ c.vm.outOfBudget ∧
        execInstr stream instr c.ip c.vm.tick = (c'.vm, .goto c'.ip) := by
  unfold vmMove
  split
  · simp_all
  · rename_i instr hinstr
    split
    · simp_all
    · rename_i hbudget
      simp only [follow_eq_ok, Option.some.injEq, exists_eq_left', hinstr, hbudget,
        not_false_eq_true, true_and]

/-- The flow of an instruction that ends the run. -/
def Ending.flow : Ending → Flow
  | .returned result => .returned result
  | .panicked => .panicked

theorem follow_eq_error {x : BytecodeVm × Flow} {r : BytecodeVm × Ending} :
    follow x = .error r ↔ x = (r.1, r.2.flow) := by
  obtain ⟨vm, flow⟩ := x
  obtain ⟨vm', ending⟩ := r
  cases flow <;> cases ending <;> simp [follow, Ending.flow]

/-- The three ways in which a round of the loop ends the run: there is no
instruction left, the budget is spent, or the instruction itself stops. -/
theorem vmMove_eq_error {program : BytecodeProgram} {stream : Bool} {c : Config}
    {r : BytecodeVm × Ending} :
    vmMove program stream c = .error r ↔
      (program.instructions[c.ip]? = none ∧ r = (c.vm, .returned (.ok .complete))) ∨
      (∃ instr, program.instructions[c.ip]? = some instr ∧ c.vm.outOfBudget ∧
        r = (c.vm, c.vm.instructionLimit)) ∨
      ∃ instr, program.instructions[c.ip]? = some instr ∧ ¬ c.vm.outOfBudget ∧
        execInstr stream instr c.ip c.vm.tick = (r.1, r.2.flow) := by
  unfold vmMove
  cases program.instructions[c.ip]? with
  | none => simp [eq_comm]
  | some instr =>
      by_cases hbudget : c.vm.outOfBudget
      · simp [hbudget, eq_comm]
      · simp [hbudget, follow_eq_error]

/-- A move counts one instruction and keeps input, limits and slot number. -/
theorem vmMove_frame {program : BytecodeProgram} {stream : Bool} {c c' : Config}
    (h : vmMove program stream c = .ok c') : SameFrame c.vm.tick c'.vm := by
  obtain ⟨instr, -, -, hexec⟩ := vmMove_eq_ok.mp h
  simpa only [hexec] using execInstr_frame stream instr c.ip c.vm.tick

/-- A run never changes its input, up to and including the round that ends it. -/
theorem halts_input {program : BytecodeProgram} {stream : Bool} {c : Config}
    {r : BytecodeVm × Ending} (h : Machine.Halts (vmMove program stream) c r) :
    r.1.input = c.vm.input := by
  obtain ⟨n, d, hd, hend⟩ := h
  have hinput : d.vm.input = c.vm.input :=
    hd.invariant (P := fun d => d.vm.input = c.vm.input)
      (fun a b ha hmove => (vmMove_frame hmove).input.trans ha) rfl
  obtain ⟨-, rfl⟩ | ⟨_, -, -, rfl⟩ | ⟨instr, -, -, hexec⟩ := vmMove_eq_error.mp hend
  · exact hinput
  · exact hinput
  · have hframe := execInstr_frame stream instr d.ip d.vm.tick
    rw [hexec] at hframe
    exact hframe.input.trans hinput

/-- The interpreter is total: its result is the ending of its run. -/
theorem interpret_halts (program : BytecodeProgram) (startIp : Nat) (stream : Bool)
    (vm : BytecodeVm) :
    Machine.Halts (vmMove program stream) ⟨vm, startIp⟩ (interpret program startIp stream vm) := by
  have hrank : ∀ c c' : Config, True → vmMove program stream c = .ok c' → True ∧
      c'.vm.limits.maxInstructions + 1 - c'.vm.instructionsExecuted <
        c.vm.limits.maxInstructions + 1 - c.vm.instructionsExecuted := by
    intro c c' _ hmove
    have hframe := vmMove_frame hmove
    obtain ⟨_, -, hbudget, -⟩ := vmMove_eq_ok.mp hmove
    rw [hframe.limits, hframe.instructionsExecuted]
    unfold outOfBudget at hbudget
    simp only [tick_limits, tick_instructionsExecuted, true_and]
    omega
  obtain ⟨o, ho⟩ : ∃ o, Machine.run (vmMove program stream) vm.fuel ⟨vm, startIp⟩ = some o :=
    Machine.run_isSome_of_rank (P := fun _ => True)
      (fun c : Config => c.vm.limits.maxInstructions + 1 - c.vm.instructionsExecuted) hrank
      trivial (by unfold fuel; dsimp only; omega)
  unfold interpret
  rw [ho]
  exact .of_run ho

/-- The interpreter returns exactly how its run ends. -/
theorem interpret_eq_iff {program : BytecodeProgram} {startIp : Nat} {stream : Bool}
    {vm : BytecodeVm} {r : BytecodeVm × Ending} :
    interpret program startIp stream vm = r ↔
      Machine.Halts (vmMove program stream) ⟨vm, startIp⟩ r := by
  constructor
  · rintro rfl
    exact interpret_halts ..
  · intro h
    exact (interpret_halts program startIp stream vm).unique h

end NFdl
