import NFdl.Bytecode.Instruction
import NFdl.Lib.Machine

/-!
# The bytecode virtual machine

`BytecodeVm` has the fields of the source. `execInstr` is one round of the
interpreter's loop after the budget check, and `vmMove` is the whole round, so
`interpret` is the run of `vmMove` from a given instruction pointer. An index
out of range and an overflowing `usize` addition end a run with `panicked`.
-/

namespace NFdl

inductive BytecodeError where
  | constraint (message : String)
  | limitExceeded (message : String)
deriving DecidableEq, Repr

/-- The frozen state of a suspended stream run. -/
structure VmContinuation where
  slots : List UInt64
  slotTouched : List Bool
  input : List UInt8
  inputPos : Nat
  bitOffset : Nat
  ip : Nat
  instructionsExecuted : Nat
  loopIterations : Nat
  emitted : List (String × UInt64)
  restStarts : List (String × Nat)
  limits : Limits
  bytesNeeded : Nat
deriving DecidableEq, Repr

inductive StreamOutcome where
  | complete
  | needMoreBytes (cont : VmContinuation)
deriving DecidableEq, Repr

structure BytecodeVm where
  slots : List UInt64
  input : List UInt8
  inputPos : Nat
  bitOffset : Nat
  limits : Limits
  instructionsExecuted : Nat
  loopIterations : Nat
  emitted : List (String × UInt64)
  restStarts : List (String × Nat)
  slotTouched : List Bool
deriving DecidableEq, Repr

/-- Where control goes after an instruction. -/
inductive Flow where
  | goto (ip : Nat)
  | returned (result : Except BytecodeError StreamOutcome)
  | panicked

/-- How a call of the interpreter ends. -/
inductive Ending where
  | returned (result : Except BytecodeError StreamOutcome)
  | panicked

namespace BytecodeVm

def withLimits (slotCount : Nat) (limits : Limits) : BytecodeVm where
  slots := List.replicate (max slotCount 32) 0
  input := []
  inputPos := 0
  bitOffset := 0
  limits := limits
  instructionsExecuted := 0
  loopIterations := 0
  emitted := []
  restStarts := []
  slotTouched := List.replicate (max slotCount 32) false

def loadInput (vm : BytecodeVm) (data : List UInt8) : BytecodeVm :=
  { vm with input := data, inputPos := 0, bitOffset := 0 }

def appendInput (vm : BytecodeVm) (more : List UInt8) : BytecodeVm :=
  { vm with input := vm.input ++ more }

def getSlot (vm : BytecodeVm) (slot : Nat) : UInt64 := vm.slots.getD slot 0

/-- Write a slot and mark it touched; a slot beyond the vector is ignored. -/
def writeSlot (vm : BytecodeVm) (slot : Nat) (val : UInt64) : BytecodeVm :=
  if slot < vm.slots.length then
    { vm with slots := vm.slots.set slot val, slotTouched := vm.slotTouched.set slot true }
  else vm

/-- The bytes `read_bytes` copies, when the buffer holds that many. -/
def readBytes (vm : BytecodeVm) (pos n : Nat) : Option (List UInt8) :=
  if pos + n ≤ vm.input.length then some ((vm.input.drop pos).take n) else none

/-- Align the cursor to the next byte boundary after bitfield reads. -/
def alignToByte (vm : BytecodeVm) : Option BytecodeVm :=
  if vm.bitOffset ≠ 0 then
    (addUsize vm.inputPos 1).map fun pos => { vm with inputPos := pos, bitOffset := 0 }
  else some vm

def bitsRemaining (vm : BytecodeVm) : Nat :=
  if vm.input.length ≤ vm.inputPos then 0
  else (8 - vm.bitOffset) + (vm.input.length - vm.inputPos - 1) * 8

/-- The loop of `read_bits`: take from the current byte what it still holds. -/
def readBitsLoop : Nat → Nat → UInt64 → BytecodeVm → BytecodeVm × UInt64
  | 0, _, value, vm => (vm, value)
  | fuel + 1, remaining, value, vm =>
    if remaining = 0 then (vm, value)
    else
      match vm.input[vm.inputPos]? with
      | none => (vm, value)
      | some byte =>
        let avail := 8 - vm.bitOffset
        let take := min avail remaining
        let extracted := (byte.toNat >>> (avail - take)) % 2 ^ take
        let value := (value <<< UInt64.ofNat take) ||| UInt64.ofNat extracted
        let offset := vm.bitOffset + take
        if offset = 8 then
          readBitsLoop fuel (remaining - take) value
            { vm with inputPos := vm.inputPos + 1, bitOffset := 0 }
        else readBitsLoop fuel (remaining - take) value { vm with bitOffset := offset }

/-- Every round takes at least one bit, so `bits` rounds are enough. -/
def readBits (vm : BytecodeVm) (bits : Nat) : BytecodeVm × UInt64 :=
  readBitsLoop bits bits 0 vm

def snapshot (vm : BytecodeVm) (ip bytesNeeded : Nat) : VmContinuation where
  slots := vm.slots
  slotTouched := vm.slotTouched
  input := vm.input
  inputPos := vm.inputPos
  bitOffset := vm.bitOffset
  ip := ip
  instructionsExecuted := vm.instructionsExecuted
  loopIterations := vm.loopIterations
  emitted := vm.emitted
  restStarts := vm.restStarts
  limits := vm.limits
  bytesNeeded := bytesNeeded

def restore (cont : VmContinuation) : BytecodeVm where
  slots := cont.slots
  input := cont.input
  inputPos := cont.inputPos
  bitOffset := cont.bitOffset
  limits := cont.limits
  instructionsExecuted := cont.instructionsExecuted
  loopIterations := cont.loopIterations
  emitted := cont.emitted
  restStarts := cont.restStarts
  slotTouched := cont.slotTouched

end BytecodeVm

open BytecodeVm

/-- Store a value and continue with the next instruction. -/
def storeNext (vm : BytecodeVm) (slot : Nat) (val : UInt64) (ip : Nat) : BytecodeVm × Flow :=
  (vm.writeSlot slot val, .goto (ip + 1))

/-- Suspend at `ip`, asking for `needed` more bytes. -/
def suspend (vm : BytecodeVm) (ip needed : Nat) : BytecodeVm × Flow :=
  (vm, .returned (.ok (.needMoreBytes (vm.snapshot ip needed))))

/-- Bytes that a read of `n` bytes lacks, at least one. -/
def shortBy (vm : BytecodeVm) (n : Nat) : Nat := max (n - (vm.input.length - vm.inputPos)) 1

/-- The value of bytes in network order. -/
def bytesBe (bytes : List UInt8) : UInt64 :=
  bytes.foldl (fun acc b => (acc <<< 8) ||| b.toUInt64) 0

/-- The value of the bytes of an integer field with the given byte order. -/
def bytesValue (le : Bool) (bytes : List UInt8) : UInt64 :=
  if le then bytesBe bytes.reverse else bytesBe bytes

/-- A read of an integer of two to four bytes. -/
def execReadInt (stream : Bool) (n : Nat) (le : Bool) (slot ip : Nat) (vm : BytecodeVm) :
    BytecodeVm × Flow :=
  match vm.alignToByte with
  | none => (vm, .panicked)
  | some vm =>
    match addUsize vm.inputPos n with
    | none => (vm, .panicked)
    | some stop =>
      match vm.readBytes vm.inputPos n with
      | some bytes => ({ vm.writeSlot slot (bytesValue le bytes) with inputPos := stop },
          .goto (ip + 1))
      | none => if stream then suspend vm ip (shortBy vm n) else storeNext vm slot 0 ip

def execReadU8 (stream : Bool) (slot ip : Nat) (vm : BytecodeVm) : BytecodeVm × Flow :=
  match vm.alignToByte with
  | none => (vm, .panicked)
  | some vm =>
    match vm.input[vm.inputPos]? with
    | some byte =>
      ({ vm.writeSlot slot byte.toUInt64 with inputPos := vm.inputPos + 1 }, .goto (ip + 1))
    | none => if stream then suspend vm ip 1 else storeNext vm slot 0 ip

/-- The length of a slice read; the sentinel slot means "what is there, up to
sixteen bytes", whose subtraction panics beyond the end of the buffer. -/
def sliceLen (vm : BytecodeVm) (lenSlot : Nat) : Option Nat :=
  if lenSlot = u16Max then
    if vm.inputPos ≤ vm.input.length then some (min (vm.input.length - vm.inputPos) 16) else none
  else some ((vm.slots[lenSlot]?.map UInt64.toNat).getD 0)

/-- At most the first eight bytes of a slice, as far as the buffer holds them. -/
def slicePrefix (vm : BytecodeVm) (len : Nat) : UInt64 :=
  bytesBe ((vm.input.drop vm.inputPos).take (min len 8))

def execReadSlice (stream : Bool) (lenSlot dstSlot ip : Nat) (vm : BytecodeVm) :
    BytecodeVm × Flow :=
  match vm.alignToByte with
  | none => (vm, .panicked)
  | some vm =>
    match sliceLen vm lenSlot with
    | none => (vm, .panicked)
    | some len =>
      -- In stream mode the comparison with the buffer's end adds first.
      match addUsize vm.inputPos len with
      | none => (vm, .panicked)
      | some stop =>
        if stream && lenSlot != u16Max && vm.input.length < stop then
          suspend vm ip (shortBy vm len)
        else ({ vm.writeSlot dstSlot (slicePrefix vm len) with inputPos := stop }, .goto (ip + 1))

def execReadBits (stream : Bool) (bits : UInt8) (slot ip : Nat) (vm : BytecodeVm) :
    BytecodeVm × Flow :=
  if stream && vm.bitsRemaining < bits.toNat then
    suspend vm ip (max ((bits.toNat - vm.bitsRemaining + 7) / 8) 1)
  else
    let (vm, val) := vm.readBits bits.toNat
    storeNext vm slot val ip

/-- Consume the rest of the input and record where it starts. -/
def execReadRest (name : String) (slot ip : Nat) (vm : BytecodeVm) : BytecodeVm × Flow :=
  match vm.alignToByte with
  | none => (vm, .panicked)
  | some vm =>
    let remaining := vm.input.length - vm.inputPos
    ({ vm.writeSlot slot (UInt64.ofNat remaining) with
        inputPos := vm.input.length
        restStarts := vm.restStarts ++ [(name, vm.inputPos)] }, .goto (ip + 1))

/-- Apply `f` to the value of a slot; reading beyond the vector panics. -/
def withSlot (vm : BytecodeVm) (slot : Nat) (f : UInt64 → BytecodeVm × Flow) :
    BytecodeVm × Flow :=
  match vm.slots[slot]? with
  | none => (vm, .panicked)
  | some v => f v

/-- A conditional jump. Only a taken jump to an earlier instruction counts as a
loop iteration. -/
def execJumpIfZero (target ip : Nat) (vm : BytecodeVm) (cond : UInt64) : BytecodeVm × Flow :=
  if cond = 0 then
    if target < ip then
      let vm := { vm with loopIterations := vm.loopIterations + 1 }
      if vm.limits.maxLoopIterations < vm.loopIterations then
        (vm, .returned (.error (.limitExceeded
          ("exceeded max loop iterations " ++ toString vm.limits.maxLoopIterations))))
      else (vm, .goto target)
    else (vm, .goto target)
  else (vm, .goto (ip + 1))

/-- One instruction at `ip`, as the interpreter's `match` executes it. -/
def execInstr (stream : Bool) (instr : Instruction) (ip : Nat) (vm : BytecodeVm) :
    BytecodeVm × Flow :=
  match instr with
  | .unaryOp op src dst => withSlot vm src fun v => storeNext vm dst (op.apply v) ip
  | .copySlot src dst => withSlot vm src fun v => storeNext vm dst v ip
  | .readU8 slot => execReadU8 stream slot ip vm
  | .readU16 slot le => execReadInt stream 2 le slot ip vm
  | .readU24 slot le => execReadInt stream 3 le slot ip vm
  | .readU32 slot le => execReadInt stream 4 le slot ip vm
  | .readSlice lenSlot dstSlot => execReadSlice stream lenSlot dstSlot ip vm
  | .readBits bits slot => execReadBits stream bits slot ip vm
  | .readRest name slot => execReadRest name slot ip vm
  | .validate predSlot message => withSlot vm predSlot fun v =>
      if v = 0 then (vm, .returned (.error (.constraint message))) else (vm, .goto (ip + 1))
  | .emitField name slot => withSlot vm slot fun v =>
      ({ vm with emitted := vm.emitted ++ [(name, v)] }, .goto (ip + 1))
  | .loadConst value dst => storeNext vm dst value ip
  | .binOp op left right dst => withSlot vm left fun l => withSlot vm right fun r =>
      match op.apply l r with
      | none => (vm, .panicked)
      | some val => storeNext vm dst val ip
  | .updateOffset slot => storeNext vm slot (UInt64.ofNat vm.inputPos) ip
  | .jump target => (vm, .goto target)
  | .jumpIfZero condSlot target => withSlot vm condSlot (execJumpIfZero target ip vm)
  | .ret => (vm, .returned (.ok .complete))

/-- The interpreter's state between two rounds of its loop. -/
structure Config where
  vm : BytecodeVm
  ip : Nat
deriving DecidableEq, Repr

/-- The instruction budget is spent. -/
def BytecodeVm.outOfBudget (vm : BytecodeVm) : Prop :=
  vm.limits.maxInstructions < vm.instructionsExecuted

instance (vm : BytecodeVm) : Decidable vm.outOfBudget :=
  inferInstanceAs (Decidable (_ < _))

/-- The ending of a run whose instruction budget is spent. -/
def BytecodeVm.instructionLimit (vm : BytecodeVm) : Ending :=
  .returned (.error (.limitExceeded
    ("exceeded max instructions " ++ toString vm.limits.maxInstructions)))

/-- Count the instruction about to be executed. -/
def BytecodeVm.tick (vm : BytecodeVm) : BytecodeVm :=
  { vm with instructionsExecuted := vm.instructionsExecuted + 1 }

/-- Continue where an instruction sends control, or end the run with the final
machine. -/
def follow : BytecodeVm × Flow → Except (BytecodeVm × Ending) Config
  | (vm, .goto ip) => .ok ⟨vm, ip⟩
  | (vm, .returned result) => .error (vm, .returned result)
  | (vm, .panicked) => .error (vm, .panicked)

/-- One round of the interpreter's loop. -/
def vmMove (program : BytecodeProgram) (stream : Bool) (c : Config) :
    Except (BytecodeVm × Ending) Config :=
  match program.instructions[c.ip]? with
  | none => .error (c.vm, .returned (.ok .complete))
  | some instr =>
    if c.vm.outOfBudget then .error (c.vm, c.vm.instructionLimit)
    else follow (execInstr stream instr c.ip c.vm.tick)

/-- The rounds that fit in the instruction budget, and the one that ends the run. -/
def BytecodeVm.fuel (vm : BytecodeVm) : Nat :=
  vm.limits.maxInstructions + 1 - vm.instructionsExecuted + 1

/-- Run from `startIp`. The final machine is part of the result, also where the
source drops it with an error. -/
def interpret (program : BytecodeProgram) (startIp : Nat) (stream : Bool) (vm : BytecodeVm) :
    BytecodeVm × Ending :=
  (Machine.run (vmMove program stream) vm.fuel ⟨vm, startIp⟩).getD (vm, .panicked)

/-- Both counters start at zero in a fresh run. -/
def BytecodeVm.resetCounters (vm : BytecodeVm) : BytecodeVm :=
  { vm with instructionsExecuted := 0, loopIterations := 0 }

/-- A datagram run, in which short reads give zero. -/
def runDatagram (program : BytecodeProgram) (vm : BytecodeVm) : BytecodeVm × Ending :=
  match interpret program 0 false vm.resetCounters with
  | (vm, .returned (.ok (.needMoreBytes _))) =>
    (vm, .returned (.error (.constraint "internal: datagram run yielded NeedMoreBytes")))
  | result => result

/-- A stream run, in which short reads suspend. -/
def runStream (program : BytecodeProgram) (vm : BytecodeVm) : BytecodeVm × Ending :=
  interpret program 0 true vm.resetCounters

/-- Append the bytes that arrived and continue at the suspended read. -/
def resume (cont : VmContinuation) (program : BytecodeProgram) (more : List UInt8) :
    BytecodeVm × Ending :=
  interpret program cont.ip true ((restore cont).appendInput more)

end NFdl
