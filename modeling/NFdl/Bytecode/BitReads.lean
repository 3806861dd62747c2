import NFdl.Bytecode.Budget
import NFdl.Lib.BitSlices
import NFdl.Lib.Code
import Mathlib.Tactic.Ring

/-!
# Successive reads of bits

A read of bits takes the head of a byte, whole bytes and the tail of a byte. Its value is
the number of the slice of the input at the cursor, and the next read goes on where it
stopped, so a block of such reads stores the consecutive slices. A read that lacks bits
suspends and asks for the least number of bytes with which it would not.
-/

namespace NFdl

open BytecodeVm Machine BitSlices

namespace BytecodeVm

/-- The machine with the cursor at a position in bits. -/
def atBit (vm : BytecodeVm) (pos : Nat) : BytecodeVm :=
  { vm with inputPos := pos / 8, bitOffset := pos % 8 }

variable {vm : BytecodeVm} {pos pos' : Nat}

theorem atBit_bitPos (hlt : vm.bitOffset < 8) : vm.atBit vm.bitPos = vm := by
  unfold atBit bitPos
  have hpos : (8 * vm.inputPos + vm.bitOffset) / 8 = vm.inputPos := by omega
  have hbit : (8 * vm.inputPos + vm.bitOffset) % 8 = vm.bitOffset := by omega
  rw [hpos, hbit]

@[simp] theorem bitPos_atBit : (vm.atBit pos).bitPos = pos := Nat.div_add_mod pos 8

@[simp] theorem atBit_atBit : (vm.atBit pos).atBit pos' = vm.atBit pos' := rfl

@[simp] theorem atBit_input : (vm.atBit pos).input = vm.input := rfl

theorem atBit_bitOffset_lt : (vm.atBit pos).bitOffset < 8 := Nat.mod_lt _ (by decide)

theorem bitsRemaining_eq (hlt : vm.bitOffset < 8) :
    vm.bitsRemaining = 8 * vm.input.length - vm.bitPos := by
  unfold bitsRemaining bitPos
  split <;> omega

end BytecodeVm

/-! ### The value of one read -/

/-- Shifting new bits in from below. -/
theorem toNat_shift_or {value : UInt64} {taken take extracted : Nat}
    (hvalue : value.toNat < 2 ^ taken) (hfits : taken + take ≤ 64) (htake : take ≤ 8)
    (hextracted : extracted < 2 ^ take) :
    ((value <<< UInt64.ofNat take) ||| UInt64.ofNat extracted).toNat =
      value.toNat * 2 ^ take + extracted := by
  have hsmall : extracted < 2 ^ 64 :=
    hextracted.trans_le (Nat.pow_le_pow_right (by decide) (by omega))
  have hshifted : value.toNat * 2 ^ take < 2 ^ 64 := by
    calc value.toNat * 2 ^ take < 2 ^ taken * 2 ^ take :=
          Nat.mul_lt_mul_of_pos_right hvalue (Nat.two_pow_pos take)
      _ = 2 ^ (taken + take) := (Nat.pow_add ..).symm
      _ ≤ 2 ^ 64 := Nat.pow_le_pow_right (by decide) hfits
  have hcount : (UInt64.ofNat take).toNat % 64 = take := by
    rw [UInt64.toNat_ofNat', Nat.mod_eq_of_lt (by omega), Nat.mod_eq_of_lt (by omega)]
  rw [UInt64.toNat_or, UInt64.toNat_shiftLeft, hcount, UInt64.toNat_ofNat',
    Nat.mod_eq_of_lt hsmall, Nat.shiftLeft_eq, Nat.mod_eq_of_lt hshifted, ← Nat.shiftLeft_eq,
    Nat.shiftLeft_add_eq_or_of_lt hextracted]

/-- A round of the loop takes a slice of one byte, and goes behind it. -/
theorem readBitsLoop_succ {fuel remaining take : Nat} {value : UInt64} {vm : BytecodeVm}
    (hne : remaining ≠ 0) (hlt : vm.bitOffset < 8) (hpos : vm.inputPos < vm.input.length)
    (htake : take = min (8 - vm.bitOffset) remaining) :
    readBitsLoop (fuel + 1) remaining value vm = readBitsLoop fuel (remaining - take)
      ((value <<< UInt64.ofNat take) |||
        UInt64.ofNat (valueBe (slice vm.input vm.bitPos take)))
      (vm.atBit (vm.bitPos + take)) := by
  have hbyte := List.getElem?_eq_getElem hpos
  have hslice := valueBe_slice_byte hbyte (show vm.bitOffset + take ≤ 8 by omega)
  unfold bitPos
  rw [hslice]
  conv_lhs => unfold readBitsLoop
  rw [if_neg hne, hbyte, htake]
  dsimp only
  unfold atBit
  split
  · rename_i hfull
    rw [show (8 * vm.inputPos + vm.bitOffset + min (8 - vm.bitOffset) remaining) / 8 =
        vm.inputPos + 1 by omega,
      show (8 * vm.inputPos + vm.bitOffset + min (8 - vm.bitOffset) remaining) % 8 = 0 by omega]
  · rename_i hpart
    rw [show (8 * vm.inputPos + vm.bitOffset + min (8 - vm.bitOffset) remaining) / 8 =
        vm.inputPos by omega,
      show (8 * vm.inputPos + vm.bitOffset + min (8 - vm.bitOffset) remaining) % 8 =
        vm.bitOffset + min (8 - vm.bitOffset) remaining by omega]

/-- Without bits to take the loop stops at once. -/
theorem readBitsLoop_zero {fuel : Nat} {value : UInt64} {vm : BytecodeVm}
    (hlt : vm.bitOffset < 8) : (readBitsLoop fuel 0 value vm).1 = vm.atBit (vm.bitPos + 0) ∧
      (readBitsLoop fuel 0 value vm).2.toNat =
        value.toNat * 2 ^ 0 + valueBe (slice vm.input vm.bitPos 0) := by
  have hstop : readBitsLoop fuel 0 value vm = (vm, value) := by cases fuel <;> rfl
  rw [hstop, Nat.add_zero, atBit_bitPos hlt, slice, List.take_zero, pow_zero, mul_one]
  exact ⟨rfl, rfl⟩

/-- The loop appends the slice at the cursor to the bits it has, and goes behind it. -/
theorem readBitsLoop_spec {fuel remaining taken : Nat} {value : UInt64} {vm : BytecodeVm}
    (hfuel : remaining ≤ fuel) (hlt : vm.bitOffset < 8)
    (hfits : remaining ≤ vm.bitsRemaining)
    (hvalue : value.toNat < 2 ^ taken) (hwidth : taken + remaining ≤ 64) :
    (readBitsLoop fuel remaining value vm).1 = vm.atBit (vm.bitPos + remaining) ∧
      (readBitsLoop fuel remaining value vm).2.toNat =
        value.toNat * 2 ^ remaining + valueBe (slice vm.input vm.bitPos remaining) := by
  induction fuel generalizing remaining taken value vm with
  | zero =>
      obtain rfl := Nat.le_zero.mp hfuel
      exact readBitsLoop_zero hlt
  | succ fuel ih =>
      by_cases hzero : remaining = 0
      · subst hzero
        exact readBitsLoop_zero hlt
      · have hremaining := bitsRemaining_eq hlt
        have hpos : vm.inputPos < vm.input.length := by
          unfold bitPos at hremaining
          omega
        obtain ⟨take, htake⟩ : ∃ take, take = min (8 - vm.bitOffset) remaining := ⟨_, rfl⟩
        obtain ⟨rest, rfl⟩ := Nat.exists_eq_add_of_le (show take ≤ remaining by omega)
        rw [readBitsLoop_succ hzero hlt hpos htake, Nat.add_sub_cancel_left]
        have hextracted : valueBe (slice vm.input vm.bitPos take) < 2 ^ take :=
          valueBe_slice_lt
        have hvalue' := toNat_shift_or hvalue (by omega) (by omega) hextracted
        have hbound : value.toNat * 2 ^ take + valueBe (slice vm.input vm.bitPos take) <
            2 ^ (taken + take) := by
          calc value.toNat * 2 ^ take + valueBe (slice vm.input vm.bitPos take)
              < (value.toNat + 1) * 2 ^ take := by rw [Nat.succ_mul]; omega
            _ ≤ 2 ^ taken * 2 ^ take := Nat.mul_le_mul_right _ hvalue
            _ = 2 ^ (taken + take) := (pow_add ..).symm
        have hfits' : rest ≤ (vm.atBit (vm.bitPos + take)).bitsRemaining := by
          rw [bitsRemaining_eq atBit_bitOffset_lt, bitPos_atBit, atBit_input]
          omega
        obtain ⟨hvm, hval⟩ := ih (by omega) atBit_bitOffset_lt hfits' (hvalue' ▸ hbound)
          (by omega)
        rw [bitPos_atBit, atBit_atBit, Nat.add_assoc] at hvm
        refine ⟨hvm, ?_⟩
        rw [hval, hvalue', bitPos_atBit, atBit_input, slice_add, valueBe_append,
          length_slice (by omega), pow_add]
        ring

/-! ### One instruction -/

/-- A bit field: a width and the slot for its value. -/
abbrev BitField := UInt8 × Nat

def BitField.read (field : BitField) : Instruction := .readBits field.1 field.2

/-- A read of bits that are there stores their number, in both modes. -/
theorem execReadBits_fits {stream : Bool} {bits : UInt8} {slot ip : Nat} {vm : BytecodeVm}
    (hlt : vm.bitOffset < 8) (hwidth : bits.toNat ≤ 64) (hfits : bits.toNat ≤ vm.bitsRemaining) :
    execReadBits stream bits slot ip vm = ((vm.atBit (vm.bitPos + bits.toNat)).writeSlot slot
      (UInt64.ofNat (valueBe (slice vm.input vm.bitPos bits.toNat))), .goto (ip + 1)) := by
  obtain ⟨hvm, hval⟩ : (vm.readBits bits.toNat).1 = _ ∧ (vm.readBits bits.toNat).2.toNat = _ :=
    @readBitsLoop_spec _ bits.toNat 0 0 vm le_rfl hlt hfits Nat.one_pos (by omega)
  have hvalue : (vm.readBits bits.toNat).2 =
      UInt64.ofNat (valueBe (slice vm.input vm.bitPos bits.toNat)) := by
    rw [UInt64.toNat_zero, Nat.zero_mul, Nat.zero_add] at hval
    rw [← hval, UInt64.ofNat_toNat]
  unfold execReadBits
  rw [if_neg (by simp [hfits])]
  change storeNext (vm.readBits bits.toNat).1 slot (vm.readBits bits.toNat).2 ip = _
  rw [hvm, hvalue]
  rfl

/-- The number of bytes that a read asks for is the least one that is enough. -/
theorem shortBy_isLeast {vm : BytecodeVm} {bits : Nat} (hin : vm.Within)
    (hshort : vm.bitsRemaining < bits) :
    IsLeast {n | ∀ more : List UInt8, more.length = n → bits ≤ (vm.appendInput more).bitsRemaining}
      (max ((bits - vm.bitsRemaining + 7) / 8) 1) := by
  have hlt := hin.bitOffset_lt
  have hle : vm.bitPos ≤ 8 * vm.input.length := by
    have hconsumed := hin.consumed_le
    unfold consumed at hconsumed
    unfold bitPos
    split at hconsumed <;> omega
  have hnow := bitsRemaining_eq hlt
  have hmore : ∀ more : List UInt8, (vm.appendInput more).bitsRemaining =
      8 * (vm.input.length + more.length) - vm.bitPos := by
    intro more
    have hremaining : (vm.appendInput more).bitsRemaining =
        8 * (vm.input ++ more).length - vm.bitPos := bitsRemaining_eq hlt
    rw [hremaining, List.length_append]
  constructor
  · intro more hlength
    rw [hmore]
    omega
  · intro n hn
    have henough := hn (List.replicate n 0) List.length_replicate
    rw [hmore, List.length_replicate] at henough
    omega

/-! ### A block of reads -/

section Block

variable {program : BytecodeProgram} {stream : Bool} {vm : BytecodeVm} {ip n : Nat}
  {field : BitField} {fields : List BitField}

/-- The widths of fields. -/
def widths (fields : List BitField) : List Nat := fields.map fun field => field.1.toNat

/-- Store the numbers of slices, one after another. -/
def storeSlices (vm : BytecodeVm) (fields : List BitField) (slices : List (List Bool)) :
    BytecodeVm :=
  (fields.zip slices).foldl (fun vm entry =>
    vm.writeSlot entry.1.2 (UInt64.ofNat (valueBe entry.2))) vm

/-- The machine after reads of bits: the slots hold the consecutive slices from the cursor
on, and the cursor has moved by all widths. -/
def afterReads (vm : BytecodeVm) (fields : List BitField) : BytecodeVm :=
  { (storeSlices vm fields (slices vm.input vm.bitPos (widths fields))).atBit
      (vm.bitPos + (widths fields).sum) with
    instructionsExecuted := vm.instructionsExecuted + fields.length }

theorem afterReads_nil (hlt : vm.bitOffset < 8) : afterReads vm [] = vm :=
  atBit_bitPos hlt

theorem writeSlot_cursor {slot : Nat} {val : UInt64} {pos bit count : Nat} :
    { vm with inputPos := pos, bitOffset := bit, instructionsExecuted := count }.writeSlot slot val =
      { vm.writeSlot slot val with
        inputPos := pos, bitOffset := bit, instructionsExecuted := count } := by
  unfold writeSlot
  dsimp only
  split <;> rfl

theorem storeSlices_cursor {bitss : List (List Bool)} {pos bit count : Nat} :
    storeSlices { vm with inputPos := pos, bitOffset := bit, instructionsExecuted := count }
        fields bitss =
      { storeSlices vm fields bitss with
        inputPos := pos, bitOffset := bit, instructionsExecuted := count } := by
  unfold storeSlices
  induction fields.zip bitss generalizing vm with
  | nil => rfl
  | cons entry entries ih => rw [List.foldl_cons, List.foldl_cons, writeSlot_cursor, ih]

/-- The machine after one read. -/
def afterRead (vm : BytecodeVm) (field : BitField) : BytecodeVm :=
  (vm.tick.atBit (vm.bitPos + field.1.toNat)).writeSlot field.2
    (UInt64.ofNat (valueBe (slice vm.input vm.bitPos field.1.toNat)))

@[simp] theorem afterRead_input : (afterRead vm field).input = vm.input := writeSlot_input ..

@[simp] theorem afterRead_limits : (afterRead vm field).limits = vm.limits := writeSlot_limits ..

@[simp] theorem afterRead_instructionsExecuted :
    (afterRead vm field).instructionsExecuted = vm.instructionsExecuted + 1 :=
  writeSlot_instructionsExecuted ..

@[simp] theorem afterRead_bitPos : (afterRead vm field).bitPos = vm.bitPos + field.1.toNat := by
  unfold afterRead
  rw [bitPos, writeSlot_inputPos, writeSlot_bitOffset]
  exact bitPos_atBit

theorem afterRead_bitOffset_lt : (afterRead vm field).bitOffset < 8 := by
  unfold afterRead
  rw [writeSlot_bitOffset]
  exact atBit_bitOffset_lt

theorem afterReads_cons :
    afterReads vm (field :: fields) = afterReads (afterRead vm field) fields := by
  have hstored : ∀ bitss, storeSlices (afterRead vm field) fields bitss =
      { storeSlices (vm.writeSlot field.2
          (UInt64.ofNat (valueBe (slice vm.input vm.bitPos field.1.toNat)))) fields bitss with
        inputPos := (vm.bitPos + field.1.toNat) / 8, bitOffset := (vm.bitPos + field.1.toNat) % 8,
        instructionsExecuted := vm.instructionsExecuted + 1 } := by
    intro bitss
    rw [← storeSlices_cursor, ← writeSlot_cursor]
    rfl
  unfold afterReads
  rw [afterRead_bitPos, afterRead_input, afterRead_instructionsExecuted, hstored, widths,
    List.map_cons, slices, List.sum_cons, List.length_cons, Nat.add_assoc, Nat.add_assoc,
    Nat.add_comm 1]
  rfl

/-- A read of bits that are there is one move of the interpreter. -/
theorem vmMove_read (hinstr : program.instructions[ip]? = some field.read)
    (hbudget : ¬ vm.outOfBudget) (hlt : vm.bitOffset < 8) (hwidth : field.1.toNat ≤ 64)
    (hfits : field.1.toNat ≤ vm.bitsRemaining) :
    vmMove program stream ⟨vm, ip⟩ = .ok ⟨afterRead vm field, ip + 1⟩ :=
  vmMove_eq_ok.mpr ⟨field.read, hinstr, hbudget, execReadBits_fits hlt hwidth hfits⟩

/-- What the first read of a block leaves is enough for the others. -/
theorem afterRead_fits (hlt : vm.bitOffset < 8)
    (hfits : (widths (field :: fields)).sum ≤ vm.bitsRemaining) :
    (widths fields).sum ≤ (afterRead vm field).bitsRemaining := by
  rw [bitsRemaining_eq hlt, widths, List.map_cons, List.sum_cons] at hfits
  rw [bitsRemaining_eq afterRead_bitOffset_lt, afterRead_bitPos, afterRead_input, widths]
  omega

theorem head_fits (hfits : (widths (field :: fields)).sum ≤ vm.bitsRemaining) :
    field.1.toNat ≤ vm.bitsRemaining := by
  rw [widths, List.map_cons, List.sum_cons] at hfits
  omega

/-- As far as a run gets in a block of reads, it has stored the slices. -/
theorem steps_reads_eq {c : Config}
    (hblock : BlockAt program.instructions ip (fields.map BitField.read))
    (hlt : vm.bitOffset < 8) (hwidths : ∀ field ∈ fields, field.1.toNat ≤ 64)
    (hfits : (widths fields).sum ≤ vm.bitsRemaining) (hn : n ≤ fields.length)
    (hsteps : Steps (vmMove program stream) n ⟨vm, ip⟩ c) :
    c = ⟨afterReads vm (fields.take n), ip + n⟩ := by
  induction n generalizing vm ip fields with
  | zero =>
      rw [List.take_zero, afterReads_nil hlt]
      exact (Steps.zero_iff.mp hsteps).symm
  | succ n ih =>
      cases fields with
      | nil => cases hn
      | cons field fields =>
          obtain ⟨c', hmove, hrest⟩ := Steps.succ_iff.mp hsteps
          obtain ⟨hinstr, hblock⟩ := BlockAt.cons_iff.mp hblock
          obtain ⟨_, -, hbudget, -⟩ := vmMove_eq_ok.mp hmove
          have hread : vmMove program stream ⟨vm, ip⟩ = _ := vmMove_read hinstr hbudget hlt
            (hwidths field (List.mem_cons_self ..)) (head_fits hfits)
          cases hmove.symm.trans hread
          rw [ih hblock afterRead_bitOffset_lt (fun f hf => hwidths f (List.mem_cons_of_mem _ hf))
            (afterRead_fits hlt hfits) (Nat.le_of_succ_le_succ hn) hrest, List.take_succ_cons,
            afterReads_cons, Nat.add_right_comm, Nat.add_assoc]

/-- A run gets through a block of reads as long as the budget lasts. -/
theorem steps_reads (hblock : BlockAt program.instructions ip (fields.map BitField.read))
    (hlt : vm.bitOffset < 8) (hwidths : ∀ field ∈ fields, field.1.toNat ≤ 64)
    (hfits : (widths fields).sum ≤ vm.bitsRemaining)
    (hbudget : vm.instructionsExecuted + fields.length ≤ vm.limits.maxInstructions + 1) :
    Steps (vmMove program stream) fields.length ⟨vm, ip⟩
      ⟨afterReads vm fields, ip + fields.length⟩ := by
  induction fields generalizing vm ip with
  | nil =>
      rw [afterReads_nil hlt]
      exact .stay _
  | cons field fields ih =>
      obtain ⟨hinstr, hrest⟩ := BlockAt.cons_iff.mp hblock
      rw [List.length_cons] at hbudget
      have hwithin : ¬ vm.outOfBudget := by
        unfold outOfBudget
        omega
      have hmove : vmMove program stream ⟨vm, ip⟩ = _ := vmMove_read hinstr hwithin hlt
        (hwidths field (List.mem_cons_self ..)) (head_fits hfits)
      have hsteps := ih hrest afterRead_bitOffset_lt
        (fun f hf => hwidths f (List.mem_cons_of_mem _ hf)) (afterRead_fits hlt hfits)
        (by rw [afterRead_instructionsExecuted, afterRead_limits]; omega)
      rw [← afterReads_cons, Nat.add_assoc, Nat.add_comm 1] at hsteps
      exact .go hmove hsteps

end Block

/-- A block of reads that the input has the bits for stores the consecutive slices from
the cursor on and moves the cursor by the sum of the widths. A read that lacks bits suspends
a stream run with the machine as it was and asks for the least number of bytes with which
the bits would be there. -/
theorem bit_reads_concatenate (vm : BytecodeVm) (hin : vm.Within) (ip : Nat) :
    (∀ (program : BytecodeProgram) (stream : Bool) (fields : List BitField),
      BlockAt program.instructions ip (fields.map BitField.read) →
      (∀ field ∈ fields, 1 ≤ field.1.toNat ∧ field.1.toNat ≤ 64) →
      (widths fields).sum ≤ vm.bitsRemaining →
      (∀ n c, n ≤ fields.length → Steps (vmMove program stream) n ⟨vm, ip⟩ c →
        c = ⟨afterReads vm (fields.take n), ip + n⟩) ∧
      (vm.instructionsExecuted + fields.length ≤ vm.limits.maxInstructions + 1 →
        Steps (vmMove program stream) fields.length ⟨vm, ip⟩
          ⟨afterReads vm fields, ip + fields.length⟩) ∧
      ∀ bits ∈ slices vm.input vm.bitPos (widths fields),
        (UInt64.ofNat (valueBe bits)).toNat = valueBe bits) ∧
    ∀ (bits : UInt8) (slot : Nat), vm.bitsRemaining < bits.toNat →
      ∃ needed, execInstr true (.readBits bits slot) ip vm =
          (vm, .returned (.ok (.needMoreBytes (vm.snapshot ip needed)))) ∧
        IsLeast {n | ∀ more : List UInt8, more.length = n →
          bits.toNat ≤ (vm.appendInput more).bitsRemaining} needed := by
  refine ⟨fun program stream fields hblock hwidths hfits => ⟨?_, ?_, ?_⟩, ?_⟩
  · intro n c hn hsteps
    exact steps_reads_eq hblock hin.bitOffset_lt (fun field h => (hwidths field h).2) hfits hn
      hsteps
  · exact steps_reads hblock hin.bitOffset_lt (fun field h => (hwidths field h).2) hfits
  · intro bits hbits
    rw [UInt64.toNat_ofNat', Nat.mod_eq_of_lt]
    refine valueBe_slices_lt (fun width hwidth => ?_) bits hbits
    obtain ⟨field, hfield, rfl⟩ := List.mem_map.mp hwidth
    exact (hwidths field hfield).2
  · intro bits slot hshort
    refine ⟨_, ?_, shortBy_isLeast hin hshort⟩
    change execReadBits true bits slot ip vm = _
    unfold execReadBits
    rw [if_pos (by simpa using hshort)]
    rfl

/-- Three bytes with the cursor inside the first one. -/
def partByte : BytecodeVm :=
  { withLimits 2 Limits.default with input := [0xA5, 0xC3, 0x7E], bitOffset := 3 }

def unalignedReads : BytecodeProgram where
  instructions := [.readBits 7 0, .readBits 11 1]
  slotCount := 2

theorem bit_reads_concatenate_partByte :
    Steps (vmMove unalignedReads true) 2 ⟨partByte, 0⟩ ⟨afterReads partByte [(7, 0), (11, 1)], 2⟩ ∧
      (afterReads partByte [(7, 0), (11, 1)]).slots.take 2 = [23, 111] ∧
      ∃ needed, execInstr true (.readBits 64 0) 0 partByte =
        (partByte, .returned (.ok (.needMoreBytes (partByte.snapshot 0 needed)))) := by
  obtain ⟨hreads, hshort⟩ := bit_reads_concatenate partByte ⟨by decide, by decide⟩ 0
  obtain ⟨-, hsteps, -⟩ := hreads unalignedReads true [(7, 0), (11, 1)] ⟨[], rfl⟩ (by decide)
    (by decide)
  obtain ⟨needed, hneeded, -⟩ := hshort 64 0 (by decide)
  exact ⟨hsteps (by decide), by decide, needed, hneeded⟩

end NFdl
