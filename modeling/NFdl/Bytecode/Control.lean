import NFdl.Bytecode.Run

/-!
# Control flow and written slots

Apart from the two jumps, an instruction goes on to the next one and leaves the
loop counter alone, and it writes at most one slot. Of the jumps, only a taken
conditional jump to an earlier instruction is counted.
-/

namespace NFdl

open BytecodeVm Machine

/-- The slot an instruction writes. -/
def Instruction.dest : Instruction → Option Nat
  | .readU8 slot | .readU16 slot _ | .readU24 slot _ | .readU32 slot _ | .readBits _ slot
  | .readRest _ slot | .updateOffset slot => some slot
  | .readSlice _ dst | .loadConst _ dst | .binOp _ _ _ dst | .unaryOp _ _ dst
  | .copySlot _ dst => some dst
  | .validate _ _ | .emitField _ _ | .jump _ | .jumpIfZero _ _ | .ret => none

/-- The instruction at `ip` goes on to the next one, if it goes on, and changes no
other slot than `dest`. -/
structure FallsThrough (dest : Option Nat) (ip : Nat) (vm : BytecodeVm)
    (r : BytecodeVm × Flow) : Prop where
  loopIterations : r.1.loopIterations = vm.loopIterations
  next : ∀ ip', r.2 = .goto ip' → ip' = ip + 1
  slots : ∀ i, some i ≠ dest → r.1.slots[i]? = vm.slots[i]?

namespace FallsThrough

variable {dest : Option Nat} {slot ip : Nat} {vm vm' : BytecodeVm} {r : BytecodeVm × Flow}

/-- An instruction that stops without writing. -/
theorem stop {flow : Flow} (h : ∀ ip', flow ≠ .goto ip') : FallsThrough dest ip vm (vm, flow) :=
  ⟨rfl, fun ip' heq => absurd heq (h ip'), fun _ _ => rfl⟩

theorem goOn : FallsThrough dest ip vm (vm, .goto (ip + 1)) :=
  ⟨rfl, fun _ heq => (Flow.goto.inj heq).symm, fun _ _ => rfl⟩

theorem store (v : UInt64) : FallsThrough (some slot) ip vm (storeNext vm slot v ip) := by
  refine ⟨by simp [storeNext], fun _ heq => (Flow.goto.inj heq).symm, fun i hi => ?_⟩
  rw [storeNext, writeSlot_slots, List.getElem?_set_ne fun heq => hi (congrArg some heq.symm)]

/-- What came before changed neither slots nor the loop counter. -/
theorem after (h : FallsThrough dest ip vm' r) (hloop : vm'.loopIterations = vm.loopIterations)
    (hslots : vm'.slots = vm.slots) : FallsThrough dest ip vm r :=
  ⟨h.loopIterations.trans hloop, h.next, fun i hi => by rw [h.slots i hi, hslots]⟩

/-- Moving the cursor of the final machine does not matter. -/
theorem congr {r' : BytecodeVm × Flow} (h : FallsThrough dest ip vm r)
    (hloop : r'.1.loopIterations = r.1.loopIterations) (hslots : r'.1.slots = r.1.slots)
    (hflow : r'.2 = r.2) : FallsThrough dest ip vm r' :=
  ⟨hloop.trans h.loopIterations, by rw [hflow]; exact h.next,
    fun i hi => by rw [hslots, h.slots i hi]⟩

theorem withSlot {f : UInt64 → BytecodeVm × Flow} (h : ∀ v, FallsThrough dest ip vm (f v)) :
    FallsThrough dest ip vm (withSlot vm slot f) := by
  unfold NFdl.withSlot
  split
  · exact stop (by simp)
  · exact h _

end FallsThrough

theorem alignToByte_slots {vm vm' : BytecodeVm} (h : vm.alignToByte = some vm') :
    vm'.slots = vm.slots ∧ vm'.loopIterations = vm.loopIterations := by
  unfold alignToByte at h
  split at h
  · simp only [Option.map_eq_some_iff] at h
    obtain ⟨pos, -, rfl⟩ := h
    exact ⟨rfl, rfl⟩
  · cases h
    exact ⟨rfl, rfl⟩

/-- A read that starts at the next byte. -/
theorem FallsThrough.aligned {dest : Option Nat} {ip : Nat} {vm vm' : BytecodeVm}
    {r : BytecodeVm × Flow} (halign : vm.alignToByte = some vm') (h : FallsThrough dest ip vm' r) :
    FallsThrough dest ip vm r := by
  obtain ⟨hslots, hloop⟩ := alignToByte_slots halign
  exact h.after hloop hslots

theorem readBitsLoop_slots (fuel remaining : Nat) (value : UInt64) (vm : BytecodeVm) :
    (readBitsLoop fuel remaining value vm).1.slots = vm.slots ∧
      (readBitsLoop fuel remaining value vm).1.loopIterations = vm.loopIterations := by
  induction fuel generalizing remaining value vm with
  | zero => exact ⟨rfl, rfl⟩
  | succ fuel ih =>
      unfold readBitsLoop
      split
      · exact ⟨rfl, rfl⟩
      · split
        · exact ⟨rfl, rfl⟩
        · dsimp only
          split <;> exact ih ..

section Reads

variable {stream : Bool} {slot ip : Nat} {vm : BytecodeVm}

theorem execReadInt_fallsThrough (n : Nat) (le : Bool) :
    FallsThrough (some slot) ip vm (execReadInt stream n le slot ip vm) := by
  unfold execReadInt
  split
  · exact .stop (by simp)
  · rename_i vm' halign
    refine .aligned halign ?_
    split
    · exact .stop (by simp)
    · split
      · rename_i stop _ bytes _
        exact (FallsThrough.store (bytesValue le bytes)).congr rfl rfl rfl
      · split
        · exact .stop (by simp)
        · exact .store 0

theorem execReadU8_fallsThrough :
    FallsThrough (some slot) ip vm (execReadU8 stream slot ip vm) := by
  unfold execReadU8
  split
  · exact .stop (by simp)
  · rename_i vm' halign
    refine .aligned halign ?_
    split
    · rename_i byte _
      exact (FallsThrough.store byte.toUInt64).congr rfl rfl rfl
    · split
      · exact .stop (by simp)
      · exact .store 0

theorem execReadSlice_fallsThrough (lenSlot : Nat) :
    FallsThrough (some slot) ip vm (execReadSlice stream lenSlot slot ip vm) := by
  unfold execReadSlice
  split
  · exact .stop (by simp)
  · rename_i vm' halign
    refine .aligned halign ?_
    split
    · exact .stop (by simp)
    · split
      · exact .stop (by simp)
      · split
        · exact .stop (by simp)
        · exact (FallsThrough.store (slicePrefix vm' _)).congr rfl rfl rfl

theorem execReadBits_fallsThrough (bits : UInt8) :
    FallsThrough (some slot) ip vm (execReadBits stream bits slot ip vm) := by
  unfold execReadBits
  split
  · exact .stop (by simp)
  · obtain ⟨hslots, hloop⟩ := readBitsLoop_slots bits.toNat bits.toNat 0 vm
    exact .after (.store _) hloop hslots

theorem execReadRest_fallsThrough (name : String) :
    FallsThrough (some slot) ip vm (execReadRest name slot ip vm) := by
  unfold execReadRest
  split
  · exact .stop (by simp)
  · rename_i vm' halign
    exact .aligned halign ((FallsThrough.store _).congr rfl rfl rfl)

end Reads

/-- The two instructions that choose where control goes. -/
def Instruction.IsJump : Instruction → Prop
  | .jump _ | .jumpIfZero _ _ => True
  | _ => False

theorem execInstr_fallsThrough (stream : Bool) {instr : Instruction} (h : ¬ instr.IsJump)
    (ip : Nat) (vm : BytecodeVm) :
    FallsThrough instr.dest ip vm (execInstr stream instr ip vm) := by
  cases instr with
  | readU8 slot => exact execReadU8_fallsThrough
  | readU16 slot le => exact execReadInt_fallsThrough 2 le
  | readU24 slot le => exact execReadInt_fallsThrough 3 le
  | readU32 slot le => exact execReadInt_fallsThrough 4 le
  | readSlice lenSlot dstSlot => exact execReadSlice_fallsThrough lenSlot
  | readBits bits slot => exact execReadBits_fallsThrough bits
  | readRest name slot => exact execReadRest_fallsThrough name
  | validate predSlot message =>
      refine .withSlot fun v => ?_
      split
      · exact .stop (by simp)
      · exact .goOn
  | emitField name slot => exact .withSlot fun v => FallsThrough.goOn.congr rfl rfl rfl
  | loadConst value dst => exact .store value
  | binOp op left right dst =>
      refine .withSlot fun l => .withSlot fun r => ?_
      split
      · exact .stop (by simp)
      · exact .store _
  | unaryOp op src dst => exact .withSlot fun v => .store _
  | copySlot src dst => exact .withSlot fun v => .store v
  | updateOffset slot => exact .store _
  | jump target => exact absurd trivial h
  | jumpIfZero condSlot target => exact absurd trivial h
  | ret => exact .stop (by simp)

/-- A taken conditional jump counts exactly when it goes back, and then stays
within the limit; otherwise nothing but control changes. -/
theorem execJumpIfZero_eq_goto {target ip ip' : Nat} {vm vm' : BytecodeVm} {cond : UInt64}
    (h : execJumpIfZero target ip vm cond = (vm', .goto ip')) :
    (vm' = vm ∧ (ip' = ip + 1 ∨ ip' = target ∧ ip ≤ target)) ∨
    (vm' = { vm with loopIterations := vm.loopIterations + 1 } ∧ ip' = target ∧ target < ip ∧
      vm'.loopIterations ≤ vm.limits.maxLoopIterations) := by
  unfold execJumpIfZero at h
  split at h
  · split at h
    · dsimp only at h
      split at h
      · simp at h
      · rename_i hback hlimit
        simp only [Prod.mk.injEq, Flow.goto.injEq] at h
        obtain ⟨rfl, rfl⟩ := h
        exact .inr ⟨rfl, rfl, hback, Nat.le_of_not_lt hlimit⟩
    · rename_i hforward
      simp only [Prod.mk.injEq, Flow.goto.injEq] at h
      obtain ⟨rfl, rfl⟩ := h
      exact .inl ⟨rfl, .inr ⟨rfl, Nat.le_of_not_lt hforward⟩⟩
  · simp only [Prod.mk.injEq, Flow.goto.injEq] at h
    obtain ⟨rfl, rfl⟩ := h
    exact .inl ⟨rfl, .inl rfl⟩

/-- An instruction that goes on writes at most its destination. -/
theorem execInstr_slots {stream : Bool} {instr : Instruction} {ip ip' i : Nat}
    {vm vm' : BytecodeVm} (h : execInstr stream instr ip vm = (vm', .goto ip'))
    (hi : some i ≠ instr.dest) : vm'.slots[i]? = vm.slots[i]? := by
  by_cases hjump : instr.IsJump
  · cases instr with
    | jump target =>
        simp only [execInstr, Prod.mk.injEq] at h
        rw [h.1]
    | jumpIfZero condSlot target =>
        simp only [execInstr, withSlot] at h
        split at h
        · simp at h
        · obtain ⟨rfl, -⟩ | ⟨rfl, -⟩ := execJumpIfZero_eq_goto h <;> rfl
    | _ => exact absurd hjump id
  · have hfalls := execInstr_fallsThrough stream hjump ip vm
    rw [h] at hfalls
    exact hfalls.slots i hi

/-- Writing a slot of the vector marks it. -/
theorem writeSlot_touched (vm : BytecodeVm) (slot : Nat) (v : UInt64) :
    (vm.writeSlot slot v).slotTouched =
      if slot < vm.slots.length then vm.slotTouched.set slot true else vm.slotTouched := by
  unfold BytecodeVm.writeSlot
  split <;> rfl

/-- The marks after an instruction with the given destination. -/
def marksAfter (dest : Option Nat) (vm : BytecodeVm) : List Bool :=
  match dest with
  | some slot => (vm.writeSlot slot 0).slotTouched
  | none => vm.slotTouched

/-- An instruction that goes on marks its destination, and nothing else. -/
def Marks (dest : Option Nat) (vm : BytecodeVm) (r : BytecodeVm × Flow) : Prop :=
  ∀ ip, r.2 = .goto ip → r.1.slotTouched = marksAfter dest vm

namespace Marks

variable {dest : Option Nat} {slot : Nat} {vm vm' : BytecodeVm}

theorem stop {flow : Flow} (h : ∀ ip, flow ≠ .goto ip) : Marks dest vm (vm', flow) :=
  fun ip heq => absurd heq (h ip)

theorem goOn {flow : Flow} (h : vm'.slotTouched = vm.slotTouched) : Marks none vm (vm', flow) :=
  fun _ _ => h

theorem store {flow : Flow} {v : UInt64} (h : vm'.slotTouched = (vm.writeSlot slot v).slotTouched) :
    Marks (some slot) vm (vm', flow) := fun _ _ => by
  rw [h, writeSlot_touched, marksAfter, writeSlot_touched]

/-- What came before changed neither slots nor marks. -/
theorem after {r : BytecodeVm × Flow} (h : Marks dest vm' r) (hslots : vm'.slots = vm.slots)
    (hmarks : vm'.slotTouched = vm.slotTouched) : Marks dest vm r := by
  intro ip hip
  rw [h ip hip]
  cases dest with
  | none => exact hmarks
  | some slot => simp only [marksAfter, writeSlot_touched, hslots, hmarks]

theorem withSlot {f : UInt64 → BytecodeVm × Flow} (h : ∀ v, Marks dest vm (f v)) :
    Marks dest vm (withSlot vm slot f) := by
  unfold NFdl.withSlot
  split
  · exact stop (by simp)
  · exact h _

end Marks

theorem alignToByte_touched {vm vm' : BytecodeVm} (h : vm.alignToByte = some vm') :
    vm'.slotTouched = vm.slotTouched := by
  unfold alignToByte at h
  split at h
  · simp only [Option.map_eq_some_iff] at h
    obtain ⟨pos, -, rfl⟩ := h
    rfl
  · cases h
    rfl

theorem Marks.aligned {dest : Option Nat} {vm vm' : BytecodeVm} {r : BytecodeVm × Flow}
    (halign : vm.alignToByte = some vm') (h : Marks dest vm' r) : Marks dest vm r :=
  h.after (alignToByte_slots halign).1 (alignToByte_touched halign)

theorem readBitsLoop_touched (fuel remaining : Nat) (value : UInt64) (vm : BytecodeVm) :
    (readBitsLoop fuel remaining value vm).1.slotTouched = vm.slotTouched := by
  induction fuel generalizing remaining value vm with
  | zero => rfl
  | succ fuel ih =>
      unfold readBitsLoop
      split
      · rfl
      · split
        · rfl
        · dsimp only
          split <;> exact ih ..

section ReadMarks

variable {stream : Bool} {slot ip : Nat} {vm : BytecodeVm}

theorem execReadInt_marks (n : Nat) (le : Bool) :
    Marks (some slot) vm (execReadInt stream n le slot ip vm) := by
  unfold execReadInt
  split
  · exact .stop (by simp)
  · rename_i vm' halign
    refine .aligned halign ?_
    split
    · exact .stop (by simp)
    · split
      · exact .store rfl
      · split
        · exact .stop (by simp)
        · exact .store rfl

theorem execReadU8_marks : Marks (some slot) vm (execReadU8 stream slot ip vm) := by
  unfold execReadU8
  split
  · exact .stop (by simp)
  · rename_i vm' halign
    refine .aligned halign ?_
    split
    · exact .store rfl
    · split
      · exact .stop (by simp)
      · exact .store rfl

theorem execReadSlice_marks (lenSlot : Nat) :
    Marks (some slot) vm (execReadSlice stream lenSlot slot ip vm) := by
  unfold execReadSlice
  split
  · exact .stop (by simp)
  · rename_i vm' halign
    refine .aligned halign ?_
    split
    · exact .stop (by simp)
    · split
      · exact .stop (by simp)
      · split
        · exact .stop (by simp)
        · exact .store rfl

theorem execReadBits_marks (bits : UInt8) :
    Marks (some slot) vm (execReadBits stream bits slot ip vm) := by
  unfold execReadBits
  split
  · exact .stop (by simp)
  · exact .after (.store rfl) (readBitsLoop_slots bits.toNat bits.toNat 0 vm).1
      (readBitsLoop_touched bits.toNat bits.toNat 0 vm)

theorem execReadRest_marks (name : String) :
    Marks (some slot) vm (execReadRest name slot ip vm) := by
  unfold execReadRest
  split
  · exact .stop (by simp)
  · rename_i vm' halign
    exact .aligned halign (.store rfl)

end ReadMarks

theorem execInstr_marks (stream : Bool) (instr : Instruction) (ip : Nat) (vm : BytecodeVm) :
    Marks instr.dest vm (execInstr stream instr ip vm) := by
  cases instr with
  | readU8 slot => exact execReadU8_marks
  | readU16 slot le => exact execReadInt_marks 2 le
  | readU24 slot le => exact execReadInt_marks 3 le
  | readU32 slot le => exact execReadInt_marks 4 le
  | readSlice lenSlot dstSlot => exact execReadSlice_marks lenSlot
  | readBits bits slot => exact execReadBits_marks bits
  | readRest name slot => exact execReadRest_marks name
  | validate predSlot message =>
      refine .withSlot fun v => ?_
      split
      · exact .stop (by simp)
      · exact .goOn rfl
  | emitField name slot => exact .withSlot fun v => .goOn rfl
  | loadConst value dst => exact .store rfl
  | binOp op left right dst =>
      refine .withSlot fun l => .withSlot fun r => ?_
      split
      · exact .stop (by simp)
      · exact .store rfl
  | unaryOp op src dst => exact .withSlot fun v => .store rfl
  | copySlot src dst => exact .withSlot fun v => .store rfl
  | updateOffset slot => exact .store rfl
  | jump target => exact .goOn rfl
  | jumpIfZero condSlot target =>
      refine .withSlot fun v => ?_
      intro ip' hip
      obtain ⟨hvm, -⟩ | ⟨hvm, -⟩ := execJumpIfZero_eq_goto (Prod.ext rfl hip)
      · exact congrArg BytecodeVm.slotTouched hvm
      · exact (congrArg BytecodeVm.slotTouched hvm :)
  | ret => exact .stop (by simp)

section Moves

variable {program : BytecodeProgram} {stream : Bool} {start c c' : Config}

/-- Control goes to the next instruction or to the target of a jump. -/
theorem vmMove_control (h : vmMove program stream c = .ok c') :
    ∃ instr, program.instructions[c.ip]? = some instr ∧ (c'.ip = c.ip + 1 ∨
      instr = .jump c'.ip ∨ ∃ condSlot, instr = .jumpIfZero condSlot c'.ip) := by
  obtain ⟨instr, hinstr, -, hexec⟩ := vmMove_eq_ok.mp h
  refine ⟨instr, hinstr, ?_⟩
  by_cases hjump : instr.IsJump
  · cases instr with
    | jump target =>
        simp only [execInstr, Prod.mk.injEq, Flow.goto.injEq] at hexec
        exact .inr (.inl (by rw [hexec.2]))
    | jumpIfZero condSlot target =>
        simp only [execInstr, withSlot] at hexec
        split at hexec
        · simp at hexec
        · obtain ⟨-, hip | ⟨hip, -⟩⟩ | ⟨-, hip, -⟩ := execJumpIfZero_eq_goto hexec
          · exact .inl hip
          · exact .inr (.inr ⟨condSlot, by rw [hip]⟩)
          · exact .inr (.inr ⟨condSlot, by rw [hip]⟩)
    | _ => exact absurd hjump id
  · have hfalls := execInstr_fallsThrough stream hjump c.ip c.vm.tick
    rw [hexec] at hfalls
    exact .inl (hfalls.next _ rfl)

/-- A move changes no slot but the destination of its instruction. -/
theorem vmMove_slots (h : vmMove program stream c = .ok c') {i : Nat}
    (hi : ∀ instr, program.instructions[c.ip]? = some instr → some i ≠ instr.dest) :
    c'.vm.slots[i]? = c.vm.slots[i]? := by
  obtain ⟨instr, hinstr, -, hexec⟩ := vmMove_eq_ok.mp h
  exact (execInstr_slots hexec (hi instr hinstr)).trans (by rw [tick_slots])

theorem reachable_limits (h : Reachable (vmMove program stream) start c) :
    c.vm.limits = start.vm.limits := by
  obtain ⟨n, hn⟩ := h
  refine hn.invariant (P := fun c => c.vm.limits = start.vm.limits) ?_ rfl
  intro a b ha hmove
  exact (vmMove_frame hmove).limits.trans ha

theorem reachable_slots_length (h : Reachable (vmMove program stream) start c) :
    c.vm.slots.length = start.vm.slots.length := by
  obtain ⟨n, hn⟩ := h
  refine hn.invariant (P := fun c => c.vm.slots.length = start.vm.slots.length) ?_ rfl
  intro a b ha hmove
  exact (vmMove_frame hmove).slots_length.trans ha

/-- A move marks the destination of its instruction, and nothing else. -/
theorem vmMove_marks (h : vmMove program stream c = .ok c') :
    ∃ instr, program.instructions[c.ip]? = some instr ∧
      c'.vm.slotTouched = marksAfter instr.dest c.vm := by
  obtain ⟨instr, hinstr, -, hexec⟩ := vmMove_eq_ok.mp h
  have hmarks := execInstr_marks stream instr c.ip c.vm.tick c'.ip (congrArg Prod.snd hexec)
  rw [hexec] at hmarks
  refine ⟨instr, hinstr, hmarks.trans ?_⟩
  cases instr.dest with
  | none => rfl
  | some slot =>
      simp only [marksAfter, writeSlot_touched, tick_slots]
      rfl

end Moves

section Complete

/-- The run does not end here as complete. -/
def NotComplete (r : BytecodeVm × Flow) : Prop := r.2 ≠ .returned (.ok .complete)

theorem NotComplete.withSlot {vm : BytecodeVm} {slot : Nat} {f : UInt64 → BytecodeVm × Flow}
    (h : ∀ v, NotComplete (f v)) : NotComplete (withSlot vm slot f) := by
  unfold NFdl.withSlot
  split
  · simp [NotComplete]
  · exact h _

theorem execReadU8_notComplete (stream : Bool) (slot ip : Nat) (vm : BytecodeVm) :
    NotComplete (execReadU8 stream slot ip vm) := by
  unfold execReadU8
  repeat' split
  all_goals simp [NotComplete, storeNext, suspend]

theorem execReadInt_notComplete (stream : Bool) (n : Nat) (le : Bool) (slot ip : Nat)
    (vm : BytecodeVm) : NotComplete (execReadInt stream n le slot ip vm) := by
  unfold execReadInt
  repeat' split
  all_goals simp [NotComplete, storeNext, suspend]

theorem execReadSlice_notComplete (stream : Bool) (lenSlot dstSlot ip : Nat) (vm : BytecodeVm) :
    NotComplete (execReadSlice stream lenSlot dstSlot ip vm) := by
  unfold execReadSlice
  repeat' split
  all_goals simp [NotComplete, suspend]

theorem execReadBits_notComplete (stream : Bool) (bits : UInt8) (slot ip : Nat)
    (vm : BytecodeVm) : NotComplete (execReadBits stream bits slot ip vm) := by
  unfold execReadBits
  split
  all_goals simp [NotComplete, storeNext, suspend]

theorem execReadRest_notComplete (name : String) (slot ip : Nat) (vm : BytecodeVm) :
    NotComplete (execReadRest name slot ip vm) := by
  unfold execReadRest
  split
  all_goals simp [NotComplete]

theorem execJumpIfZero_notComplete (target ip : Nat) (vm : BytecodeVm) (cond : UInt64) :
    NotComplete (execJumpIfZero target ip vm cond) := by
  unfold execJumpIfZero
  split
  · split
    · dsimp only
      split <;> simp [NotComplete]
    · simp [NotComplete]
  · simp [NotComplete]

/-- Only `ret` ends a run as complete. -/
theorem execInstr_complete {stream : Bool} {instr : Instruction} {ip : Nat} {vm vm' : BytecodeVm}
    (h : execInstr stream instr ip vm = (vm', .returned (.ok .complete))) :
    instr = .ret ∧ vm' = vm := by
  have hends : ¬ NotComplete (execInstr stream instr ip vm) :=
    fun hnot => hnot (congrArg Prod.snd h)
  cases instr with
  | ret =>
      simp only [execInstr, Prod.mk.injEq] at h
      exact ⟨rfl, h.1.symm⟩
  | readU8 slot => exact absurd (execReadU8_notComplete stream slot ip vm) hends
  | readU16 slot le => exact absurd (execReadInt_notComplete stream 2 le slot ip vm) hends
  | readU24 slot le => exact absurd (execReadInt_notComplete stream 3 le slot ip vm) hends
  | readU32 slot le => exact absurd (execReadInt_notComplete stream 4 le slot ip vm) hends
  | readSlice lenSlot dstSlot => exact absurd (execReadSlice_notComplete stream lenSlot dstSlot ip vm) hends
  | readBits bits slot => exact absurd (execReadBits_notComplete stream bits slot ip vm) hends
  | readRest name slot => exact absurd (execReadRest_notComplete name slot ip vm) hends
  | unaryOp op src dst =>
      exact absurd (.withSlot fun v => by simp [NotComplete, storeNext]) hends
  | copySlot src dst =>
      exact absurd (.withSlot fun v => by simp [NotComplete, storeNext]) hends
  | validate predSlot message =>
      exact absurd (.withSlot fun v => by split <;> simp [NotComplete]) hends
  | emitField name slot => exact absurd (.withSlot fun v => by simp [NotComplete]) hends
  | binOp op left right dst =>
      refine absurd (.withSlot fun l => .withSlot fun r => ?_) hends
      split <;> simp [NotComplete, storeNext]
  | jumpIfZero condSlot target =>
      exact absurd (.withSlot fun v => execJumpIfZero_notComplete target ip vm v) hends
  | loadConst _ _ | updateOffset _ | jump _ => simp [execInstr, NotComplete, storeNext] at hends

end Complete

/-- The state in which a complete run ends. -/
theorem complete_end {program : BytecodeProgram} {stream : Bool} {c : Config} {vm : BytecodeVm}
    (h : vmMove program stream c = .error (vm, .returned (.ok .complete))) :
    vm.slots = c.vm.slots ∧ vm.slotTouched = c.vm.slotTouched ∧
      ∀ instr, program.instructions[c.ip]? = some instr → instr = .ret := by
  obtain ⟨hnone, heq⟩ | ⟨instr, -, -, heq⟩ | ⟨instr, hinstr, -, hexec⟩ := vmMove_eq_error.mp h
  · obtain ⟨rfl, -⟩ := Prod.mk.inj heq
    exact ⟨rfl, rfl, by simp [hnone]⟩
  · obtain ⟨-, hlimit⟩ := Prod.mk.inj heq
    simp [instructionLimit] at hlimit
  · obtain ⟨rfl, rfl⟩ := execInstr_complete hexec
    exact ⟨rfl, rfl, fun instr hi => Option.some.inj (hi.symm.trans hinstr)⟩

end NFdl
