import NFdl.Bytecode.Run

/-!
# The input cursor of a datagram run

In a datagram run short reads give zero and leave the cursor alone, except for
a slice read, which advances by its length without looking at the buffer. The
cursor stays inside the input exactly when no executed slice read is longer
than what remains.
-/

namespace NFdl

open BytecodeVm Machine

/-- The cursor and all recorded payload starts lie in the buffer. -/
structure CursorIn (vm : BytecodeVm) : Prop where
  pos : vm.inputPos ≤ vm.input.length
  restStarts : ∀ r ∈ vm.restStarts, r.2 ≤ vm.input.length

/-- The invariant behind it: inside a partly read byte, that byte exists. -/
structure CursorInv (vm : BytecodeVm) : Prop extends CursorIn vm where
  bitOffset_lt : vm.bitOffset < 8
  partial_byte : vm.bitOffset ≠ 0 → vm.inputPos < vm.input.length

/-- The instructions that read input; they panic only over the cursor. -/
def Instruction.ReadsInput : Instruction → Prop
  | .readU8 _ | .readU16 _ _ | .readU24 _ _ | .readU32 _ _ | .readSlice _ _ | .readBits _ _
  | .readRest _ _ => True
  | _ => False

/-- The slice about to be read is not longer than what remains. -/
def SliceFits (vm : BytecodeVm) (lenSlot : Nat) : Prop :=
  ∀ aligned len, vm.alignToByte = some aligned → sliceLen aligned lenSlot = some len →
    aligned.inputPos + len ≤ aligned.input.length

/-- The Rust bound on the length of a byte slice. -/
def maxSliceLength : Nat := 2 ^ 63 - 1

section Step

variable {vm vm' : BytecodeVm} (hlen : vm.input.length ≤ maxSliceLength)

theorem CursorInv.writeSlot (h : CursorInv vm) (i : Nat) (v : UInt64) :
    CursorInv (vm.writeSlot i v) := by
  refine ⟨⟨?_, ?_⟩, ?_, ?_⟩
  · simpa using h.pos
  · simpa using h.restStarts
  · simpa using h.bitOffset_lt
  · simpa using h.partial_byte

theorem CursorInv.tick (h : CursorInv vm) : CursorInv vm.tick :=
  ⟨⟨h.pos, h.restStarts⟩, h.bitOffset_lt, h.partial_byte⟩

/-- Moving an aligned cursor to a position in the buffer. -/
theorem CursorInv.advance (h : CursorInv vm) (hbit : vm.bitOffset = 0) {pos : Nat}
    (hpos : pos ≤ vm.input.length) : CursorInv { vm with inputPos := pos } :=
  ⟨⟨hpos, h.restStarts⟩, h.bitOffset_lt, fun hne => absurd hbit hne⟩

include hlen in
/-- Alignment succeeds and stays in the buffer. -/
theorem CursorInv.align (h : CursorInv vm) :
    ∃ aligned, vm.alignToByte = some aligned ∧ CursorInv aligned ∧ aligned.bitOffset = 0 ∧
      aligned.input = vm.input := by
  unfold alignToByte
  unfold maxSliceLength at hlen
  have hpos := h.pos
  by_cases hbit : vm.bitOffset = 0
  · exact ⟨vm, by simp [hbit], h, hbit, rfl⟩
  · have hlt := h.partial_byte hbit
    have hadd : addUsize vm.inputPos 1 = some (vm.inputPos + 1) := by
      simp only [addUsize_eq_some, and_true]
      omega
    refine ⟨{ vm with inputPos := vm.inputPos + 1, bitOffset := 0 }, by simp [hbit, hadd], ?_,
      rfl, rfl⟩
    exact ⟨⟨hlt, h.restStarts⟩, by simp, fun hne => absurd rfl hne⟩

/-- Bits are taken from bytes that exist. -/
theorem CursorInv.readBitsLoop (fuel remaining : Nat) (value : UInt64) (h : CursorInv vm) :
    CursorInv (readBitsLoop fuel remaining value vm).1 := by
  induction fuel generalizing remaining value vm with
  | zero => exact h
  | succ fuel ih =>
      unfold BytecodeVm.readBitsLoop
      split
      · exact h
      · split
        · exact h
        · rename_i byte hbyte
          have hpos : vm.inputPos < vm.input.length := (List.getElem?_eq_some_iff.mp hbyte).1
          have hbit := h.bitOffset_lt
          dsimp only
          split
          · exact ih _ _ ⟨⟨hpos, h.restStarts⟩, by simp, fun hne => absurd rfl hne⟩
          · rename_i hfull
            refine ih _ _ ⟨⟨h.pos, h.restStarts⟩, ?_, fun _ => hpos⟩
            dsimp only
            omega

/-- A read that keeps the cursor in the buffer and does not panic. -/
structure ReadsInside (r : BytecodeVm × Flow) : Prop where
  inv : CursorInv r.1
  runs : r.2 ≠ .panicked

include hlen

theorem execReadU8_inside (h : CursorInv vm) (slot ip : Nat) :
    ReadsInside (execReadU8 false slot ip vm) := by
  obtain ⟨aligned, halign, hinv, hbit, -⟩ := h.align hlen
  unfold execReadU8
  rw [halign]
  dsimp only
  split
  · rename_i byte hbyte
    have hpos : aligned.inputPos < aligned.input.length := (List.getElem?_eq_some_iff.mp hbyte).1
    exact ⟨(hinv.writeSlot slot _).advance (by simpa using hbit)
      (by simpa using Nat.succ_le_of_lt hpos), by simp⟩
  · exact ⟨hinv.writeSlot slot 0, by simp [storeNext]⟩

theorem execReadInt_inside (h : CursorInv vm) {n : Nat} (hn : n ≤ 4) (le : Bool) (slot ip : Nat) :
    ReadsInside (execReadInt false n le slot ip vm) := by
  obtain ⟨aligned, halign, hinv, hbit, hinput⟩ := h.align hlen
  have hpos := hinv.pos
  rw [hinput] at hpos
  unfold maxSliceLength at hlen
  have hadd : addUsize aligned.inputPos n = some (aligned.inputPos + n) := by
    simp only [addUsize_eq_some, and_true]
    omega
  unfold execReadInt
  rw [halign]
  dsimp only
  rw [hadd]
  dsimp only
  split
  · rename_i bytes hbytes
    have hstop : aligned.inputPos + n ≤ aligned.input.length := by
      unfold readBytes at hbytes
      split at hbytes
      · assumption
      · cases hbytes
    exact ⟨(hinv.writeSlot slot _).advance (by simpa using hbit) (by simpa using hstop), by simp⟩
  · exact ⟨hinv.writeSlot slot 0, by simp [storeNext]⟩

theorem execReadSlice_inside (h : CursorInv vm) {lenSlot : Nat} (hfits : SliceFits vm lenSlot)
    (dstSlot ip : Nat) : ReadsInside (execReadSlice false lenSlot dstSlot ip vm) := by
  obtain ⟨aligned, halign, hinv, hbit, hinput⟩ := h.align hlen
  have hpos := hinv.pos
  obtain ⟨len, hslice⟩ : ∃ len, sliceLen aligned lenSlot = some len := by
    unfold sliceLen
    split
    · exact ⟨_, rfl⟩
    · exact ⟨_, rfl⟩
  have hstop := hfits aligned len halign hslice
  have hadd : addUsize aligned.inputPos len = some (aligned.inputPos + len) := by
    simp only [addUsize_eq_some, and_true]
    unfold maxSliceLength at hlen
    rw [hinput] at hstop
    omega
  unfold execReadSlice
  simp only [halign, hslice, hadd, Bool.false_and, Bool.false_eq_true, if_false]
  exact ⟨(hinv.writeSlot dstSlot _).advance (by simpa using hbit) (by simpa using hstop), by simp⟩

theorem execReadRest_inside (h : CursorInv vm) (name : String) (slot ip : Nat) :
    ReadsInside (execReadRest name slot ip vm) := by
  obtain ⟨aligned, halign, hinv, hbit, -⟩ := h.align hlen
  have hpos := hinv.pos
  unfold execReadRest
  rw [halign]
  refine ⟨⟨⟨by simp, ?_⟩, by simpa using hinv.bitOffset_lt, fun hne => ?_⟩, by simp⟩
  · intro r hr
    simp only [writeSlot_input, List.mem_append, List.mem_singleton] at hr ⊢
    obtain hr | rfl := hr
    · exact hinv.restStarts r hr
    · exact hpos
  · simp [hbit] at hne

omit hlen in
theorem execReadBits_inside (h : CursorInv vm) (bits : UInt8) (slot ip : Nat) :
    ReadsInside (execReadBits false bits slot ip vm) := by
  unfold execReadBits
  simp only [Bool.false_and, Bool.false_eq_true, if_false]
  exact ⟨(h.readBitsLoop _ _ _).writeSlot slot _, by simp [storeNext]⟩

omit hlen in
theorem withSlot_inv (h : CursorInv vm) {slot : Nat} {f : UInt64 → BytecodeVm × Flow}
    (hf : ∀ v, CursorInv (f v).1) : CursorInv (withSlot vm slot f).1 := by
  unfold withSlot
  split
  · exact h
  · exact hf _

omit hlen in
theorem execJumpIfZero_inv (h : CursorInv vm) (target ip : Nat) (cond : UInt64) :
    CursorInv (execJumpIfZero target ip vm cond).1 := by
  unfold execJumpIfZero
  split
  · split
    · dsimp only
      split <;> exact ⟨⟨h.pos, h.restStarts⟩, h.bitOffset_lt, h.partial_byte⟩
    · exact h
  · exact h

/-- Reads stay inside the buffer, provided that slices fit. -/
theorem execInstr_inside (h : CursorInv vm) {instr : Instruction} (hreads : instr.ReadsInput)
    (hfits : ∀ lenSlot dstSlot, instr = .readSlice lenSlot dstSlot → SliceFits vm lenSlot)
    (ip : Nat) : ReadsInside (execInstr false instr ip vm) := by
  cases instr with
  | readU8 slot => exact execReadU8_inside hlen h slot ip
  | readU16 slot le => exact execReadInt_inside hlen h (by omega) le slot ip
  | readU24 slot le => exact execReadInt_inside hlen h (by omega) le slot ip
  | readU32 slot le => exact execReadInt_inside hlen h (by omega) le slot ip
  | readSlice lenSlot dstSlot =>
      exact execReadSlice_inside hlen h (hfits lenSlot dstSlot rfl) dstSlot ip
  | readBits bits slot => exact execReadBits_inside h bits slot ip
  | readRest name slot => exact execReadRest_inside hlen h name slot ip
  | _ => exact absurd hreads id

/-- Every instruction keeps the cursor in the buffer, provided that slices fit. -/
theorem execInstr_cursor (h : CursorInv vm) (instr : Instruction)
    (hfits : ∀ lenSlot dstSlot, instr = .readSlice lenSlot dstSlot → SliceFits vm lenSlot)
    (ip : Nat) : CursorInv (execInstr false instr ip vm).1 := by
  cases instr with
  | validate predSlot message => exact withSlot_inv h fun v => by split <;> exact h
  | emitField name slot =>
      exact withSlot_inv h fun v => ⟨⟨h.pos, h.restStarts⟩, h.bitOffset_lt, h.partial_byte⟩
  | loadConst value dst => exact h.writeSlot dst value
  | binOp op left right dst =>
      refine withSlot_inv h fun l => withSlot_inv h fun r => ?_
      split
      · exact h
      · exact h.writeSlot dst _
  | unaryOp op src dst => exact withSlot_inv h fun v => h.writeSlot dst _
  | copySlot src dst => exact withSlot_inv h fun v => h.writeSlot dst v
  | updateOffset slot => exact h.writeSlot slot _
  | jump target => exact h
  | jumpIfZero condSlot target => exact withSlot_inv h fun v => execJumpIfZero_inv h target ip v
  | ret => exact h
  | _ => exact (execInstr_inside hlen h (by trivial) hfits ip).inv

end Step

/-- A fresh machine at the start of a datagram. -/
def datagramStart (program : BytecodeProgram) (limits : Limits) (data : List UInt8) : Config :=
  ⟨((withLimits program.slotCount limits).loadInput data).resetCounters, 0⟩

theorem datagramStart_inv (program : BytecodeProgram) (limits : Limits) (data : List UInt8) :
    CursorInv (datagramStart program limits data).vm where
  pos := Nat.zero_le _
  restStarts r hr := by simp [datagramStart, resetCounters, loadInput, withLimits] at hr
  bitOffset_lt := by simp [datagramStart, resetCounters, loadInput]
  partial_byte h := absurd rfl h

/-- The interpreter executes `instr` in state `c`. -/
def Executes (program : BytecodeProgram) (c : Config) (instr : Instruction) : Prop :=
  program.instructions[c.ip]? = some instr ∧ ¬ c.vm.outOfBudget

/-- Every executed slice read fits what remains of the input. -/
def SlicesFit (program : BytecodeProgram) (start : Config) : Prop :=
  ∀ c, Reachable (vmMove program false) start c → ∀ lenSlot dstSlot,
    Executes program c (.readSlice lenSlot dstSlot) → SliceFits c.vm lenSlot

/-- The cursor and the recorded payload starts stay in the buffer throughout a
run, up to its end, and no read overflows the cursor. -/
structure CursorStaysIn (program : BytecodeProgram) (start : Config) : Prop where
  inside : ∀ c, Reachable (vmMove program false) start c → CursorIn c.vm
  final : ∀ r, Halts (vmMove program false) start r → CursorIn r.1
  no_overflow : ∀ c instr, Reachable (vmMove program false) start c → Executes program c instr →
    instr.ReadsInput → (execInstr false instr c.ip c.vm.tick).2 ≠ .panicked

theorem SliceFits.tick {vm : BytecodeVm} {lenSlot : Nat} (h : SliceFits vm lenSlot) :
    SliceFits vm.tick lenSlot := by
  intro aligned len halign hlen
  rw [tick_alignToByte, Option.map_eq_some_iff] at halign
  obtain ⟨vm', hvm', rfl⟩ := halign
  exact h vm' len hvm' hlen

/-- A slice read of a datagram run goes on at the end of the slice. -/
theorem execReadSlice_goes_on {lenSlot dstSlot ip len : Nat} {vm aligned : BytecodeVm}
    (halign : vm.alignToByte = some aligned) (hslice : sliceLen aligned lenSlot = some len)
    (hrun : (execReadSlice false lenSlot dstSlot ip vm).2 ≠ .panicked) :
    ∃ vm', execReadSlice false lenSlot dstSlot ip vm = (vm', .goto (ip + 1)) ∧
      vm'.input = aligned.input ∧ vm'.inputPos = aligned.inputPos + len := by
  unfold execReadSlice at hrun ⊢
  rw [halign] at hrun ⊢
  dsimp only at hrun ⊢
  rw [hslice] at hrun ⊢
  dsimp only at hrun ⊢
  cases hadd : addUsize aligned.inputPos len with
  | none => simp [hadd] at hrun
  | some stop =>
      obtain ⟨-, rfl⟩ := addUsize_eq_some.mp hadd
      refine ⟨{ aligned.writeSlot dstSlot (slicePrefix aligned len) with
        inputPos := aligned.inputPos + len }, ?_, by simp, rfl⟩
      simp only [Bool.false_and, Bool.false_eq_true, if_false]

section Run

variable {program : BytecodeProgram} {limits : Limits} {data : List UInt8}

/-- When slices fit, the invariant holds along the whole run. -/
theorem reachable_cursorInv (hdata : data.length ≤ maxSliceLength)
    (hfits : SlicesFit program (datagramStart program limits data)) {c : Config}
    (hc : Reachable (vmMove program false) (datagramStart program limits data) c) :
    CursorInv c.vm ∧ c.vm.input = data := by
  obtain ⟨n, hn⟩ := hc
  refine hn.invariant_of_reachable (P := fun c => CursorInv c.vm ∧ c.vm.input = data) ?_
    ⟨datagramStart_inv program limits data, rfl⟩
  rintro a b hreach ⟨hinv, hinput⟩ hmove
  obtain ⟨instr, hinstr, hbudget, hexec⟩ := vmMove_eq_ok.mp hmove
  have hinv' := execInstr_cursor (by rw [tick_input, hinput]; exact hdata) hinv.tick instr
    (fun lenSlot dstSlot heq => (hfits a hreach lenSlot dstSlot ⟨heq ▸ hinstr, hbudget⟩).tick) a.ip
  rw [hexec] at hinv'
  exact ⟨hinv', (vmMove_frame hmove).input.trans hinput⟩

/-- The instruction that ends the run keeps the cursor in the buffer as well. -/
theorem halts_cursorIn (hdata : data.length ≤ maxSliceLength)
    (hfits : SlicesFit program (datagramStart program limits data)) {r : BytecodeVm × Ending}
    (hr : Halts (vmMove program false) (datagramStart program limits data) r) : CursorIn r.1 := by
  obtain ⟨n, c, hc, hend⟩ := hr
  obtain ⟨hinv, hinput⟩ := reachable_cursorInv hdata hfits ⟨n, hc⟩
  obtain ⟨-, rfl⟩ | ⟨_, -, -, rfl⟩ | ⟨instr, hinstr, hbudget, hexec⟩ := vmMove_eq_error.mp hend
  · exact hinv.toCursorIn
  · exact hinv.toCursorIn
  · have hinv' := execInstr_cursor (by rw [tick_input, hinput]; exact hdata) hinv.tick instr
      (fun lenSlot dstSlot heq =>
        (hfits c ⟨n, hc⟩ lenSlot dstSlot ⟨heq ▸ hinstr, hbudget⟩).tick) c.ip
    rw [hexec] at hinv'
    exact hinv'.toCursorIn

/-- The cursor stays in the buffer exactly when every executed slice read fits. -/
theorem cursorStaysIn_iff (hdata : data.length ≤ maxSliceLength) :
    CursorStaysIn program (datagramStart program limits data) ↔
      SlicesFit program (datagramStart program limits data) := by
  constructor
  · intro h c hc lenSlot dstSlot hexecutes aligned len halign hslice
    have hrun := h.no_overflow c _ hc hexecutes trivial
    have haligned : c.vm.tick.alignToByte = some aligned.tick := by
      rw [tick_alignToByte, halign]
      rfl
    obtain ⟨vm', hexec, hinput, hpos⟩ := execReadSlice_goes_on haligned hslice hrun
    obtain ⟨n, hn⟩ := hc
    have hmove : vmMove program false c = .ok ⟨vm', c.ip + 1⟩ :=
      vmMove_eq_ok.mpr ⟨_, hexecutes.1, hexecutes.2, hexec⟩
    have hin := (h.inside _ ⟨n + 1, hn.snoc hmove⟩).pos
    dsimp only at hin
    rw [hpos, hinput] at hin
    exact hin
  · intro hfits
    refine ⟨fun c hc => (reachable_cursorInv hdata hfits hc).1.toCursorIn,
      fun r hr => halts_cursorIn hdata hfits hr, fun c instr hc hexecutes hreads => ?_⟩
    obtain ⟨hinv, hinput⟩ := reachable_cursorInv hdata hfits hc
    exact (execInstr_inside (by rw [tick_input, hinput]; exact hdata) hinv.tick hreads
      (fun lenSlot dstSlot heq => (hfits c hc lenSlot dstSlot (heq ▸ hexecutes)).tick) c.ip).runs

end Run

end NFdl
