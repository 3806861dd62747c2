import NFdl.Runtime.Skipped
import NFdl.Runtime.MatchChoice
import NFdl.Lib.Passage
import Mathlib.Logic.Relation

/-!
# Recursive descent

A recursive-descent decoder walks the syntax tree of a protocol: it reads every field with
its declared type, enters the messages that fields refer to, and asks for the values of
conditions, lengths and tags on its way. `Decodes` is this walk over any machine that can
be asked and read from; `vmReader` is the virtual machine in that role, for which a walk is
a sequence of steps of the program.
-/

namespace NFdl

open BytecodeVm Machine

/-- Where the next bit is read. -/
structure Cursor where
  pos : ℕ
  bit : ℕ
deriving DecidableEq, Repr

/-- What a field is read as. -/
inductive ReadKind where
  | int (bytes : ℕ) (le : Bool)
  | slice (len : UInt64)
  | bits (n : UInt8)
  | rest
deriving DecidableEq, Repr

namespace BytecodeVm

def cursor (vm : BytecodeVm) : Cursor := ⟨vm.inputPos, vm.bitOffset⟩

/-- Where the next whole byte is read. -/
def bytePos (vm : BytecodeVm) : ℕ := if vm.bitOffset = 0 then vm.inputPos else vm.inputPos + 1

theorem alignToByte_eq {vm vm' : BytecodeVm} (h : vm.alignToByte = some vm') :
    vm' = { vm with inputPos := vm.bytePos, bitOffset := 0 } := by
  unfold alignToByte at h
  unfold bytePos
  by_cases hbit : vm.bitOffset = 0
  · rw [if_neg (not_not.mpr hbit), Option.some.injEq] at h
    rw [if_pos hbit, ← hbit, ← h]
  · rw [if_pos hbit, Option.map_eq_some_iff] at h
    obtain ⟨pos, hpos, rfl⟩ := h
    rw [if_neg hbit, (addUsize_eq_some.mp hpos).2]

end BytecodeVm

/-- The value that is read at the cursor, and the cursor behind it. An integer that the
input does not hold is zero, and nothing is consumed for it. -/
def ReadKind.read : ReadKind → BytecodeVm → UInt64 × Cursor
  | .int n le, vm =>
      if vm.bytePos + n ≤ vm.input.length then
        (bytesValue le ((vm.input.drop vm.bytePos).take n), ⟨vm.bytePos + n, 0⟩)
      else (0, ⟨vm.bytePos, 0⟩)
  | .slice len, vm =>
      (bytesBe ((vm.input.drop vm.bytePos).take (min len.toNat 8)), ⟨vm.bytePos + len.toNat, 0⟩)
  | .bits n, vm => ((vm.readBits n.toNat).2, (vm.readBits n.toNat).1.cursor)
  | .rest, vm => (UInt64.ofNat (vm.input.length - vm.bytePos), ⟨vm.input.length, 0⟩)

/-- How the types of fixed width and the types that take the rest of the input are read. -/
def NfdlType.readKind (littleEndian : Bool) : NfdlType → Option ReadKind
  | .u8 => some (.int 1 false)
  | .u16 => some (.int 2 littleEndian)
  | .u24 => some (.int 3 littleEndian)
  | .u32 => some (.int 4 littleEndian)
  | .bitfield bits => some (.bits bits)
  | .bytesRest | .bytesEof | .bytesStream => some .rest
  | .bytes _ | .messageRef _ => none

section Reads

/-- The value has been read into the slot. -/
structure HasRead (kind : ReadKind) (v : UInt64) (slot : ℕ) (vm vm' : BytecodeVm) : Prop where
  read : kind.read vm = (v, vm'.cursor)
  slots : vm'.slots = vm.slots.set slot v
  emitted : vm'.emitted = vm.emitted

variable {stream : Bool} {slot ip ip' : ℕ} {vm vm' : BytecodeVm}

theorem execReadInt_hasRead {n : ℕ} {le : Bool}
    (h : execReadInt stream n le slot ip vm = (vm', .goto ip')) :
    ∃ v, HasRead (.int n le) v slot vm vm' := by
  unfold execReadInt at h
  split at h
  · simp at h
  · rename_i aligned halign
    obtain rfl := alignToByte_eq halign
    split at h
    · simp at h
    · rename_i stop hstop
      obtain ⟨-, rfl⟩ := addUsize_eq_some.mp hstop
      unfold readBytes at h
      dsimp only at h
      by_cases hfits : vm.bytePos + n ≤ vm.input.length
      · rw [if_pos hfits] at h
        obtain ⟨rfl, -⟩ := Prod.mk.inj h
        refine ⟨_, ⟨?_, writeSlot_slots .., by simp⟩⟩
        simp [ReadKind.read, hfits, cursor]
      · rw [if_neg hfits] at h
        dsimp only at h
        split at h
        · simp [suspend] at h
        · obtain ⟨rfl, -⟩ := Prod.mk.inj h
          refine ⟨0, ⟨?_, writeSlot_slots .., by simp⟩⟩
          simp [ReadKind.read, hfits, cursor]

theorem bytesValue_single (le : Bool) (byte : UInt8) : bytesValue le [byte] = byte.toUInt64 := by
  have hbyte : bytesBe [byte] = byte.toUInt64 := by simp [bytesBe]
  cases le <;> exact hbyte

theorem execReadU8_hasRead (h : execReadU8 stream slot ip vm = (vm', .goto ip')) :
    ∃ v, HasRead (.int 1 false) v slot vm vm' := by
  unfold execReadU8 at h
  split at h
  · simp at h
  · rename_i aligned halign
    obtain rfl := alignToByte_eq halign
    dsimp only at h
    split at h
    · rename_i byte hbyte
      obtain ⟨hlt, hget⟩ := List.getElem?_eq_some_iff.mp hbyte
      obtain ⟨rfl, -⟩ := Prod.mk.inj h
      have htake : (vm.input.drop vm.bytePos).take 1 = [byte] := by
        rw [List.drop_eq_getElem_cons hlt, hget]
        rfl
      refine ⟨_, ⟨?_, writeSlot_slots .., by simp⟩⟩
      rw [ReadKind.read, if_pos (Nat.succ_le_of_lt hlt), htake, bytesValue_single]
      simp [cursor]
    · rename_i hnone
      have hge := List.getElem?_eq_none_iff.mp hnone
      split at h
      · simp [suspend] at h
      · obtain ⟨rfl, -⟩ := Prod.mk.inj h
        refine ⟨0, ⟨?_, writeSlot_slots .., by simp⟩⟩
        rw [ReadKind.read, if_neg (Nat.not_le.mpr (Nat.lt_succ_of_le hge))]
        simp [cursor]

theorem execReadSlice_hasRead {lenSlot : ℕ} (hlenSlot : lenSlot ≠ u16Max)
    (h : execReadSlice stream lenSlot slot ip vm = (vm', .goto ip')) :
    ∃ v, HasRead (.slice (vm.getSlot lenSlot)) v slot vm vm' := by
  unfold execReadSlice at h
  split at h
  · simp at h
  · rename_i aligned halign
    obtain rfl := alignToByte_eq halign
    have hslice : sliceLen { vm with inputPos := vm.bytePos, bitOffset := 0 } lenSlot =
        some (vm.getSlot lenSlot).toNat := by
      unfold sliceLen
      rw [if_neg hlenSlot, getSlot, List.getD_eq_getElem?_getD]
      dsimp only
      cases vm.slots[lenSlot]? <;> rfl
    rw [hslice] at h
    dsimp only at h
    split at h
    · simp at h
    · rename_i stop hstop
      obtain ⟨-, rfl⟩ := addUsize_eq_some.mp hstop
      split at h
      · simp [suspend] at h
      · obtain ⟨rfl, -⟩ := Prod.mk.inj h
        refine ⟨_, ⟨?_, writeSlot_slots .., by simp⟩⟩
        simp [ReadKind.read, slicePrefix, cursor]

theorem readBitsLoop_emitted (fuel remaining : ℕ) (value : UInt64) (vm : BytecodeVm) :
    (readBitsLoop fuel remaining value vm).1.emitted = vm.emitted := by
  fun_induction readBitsLoop fuel remaining value vm with
  | case1 => rfl
  | case2 => rfl
  | case3 => rfl
  | case4 _ _ _ _ _ _ _ _ _ _ _ _ _ ih => exact ih
  | case5 _ _ _ _ _ _ _ _ _ _ _ _ _ ih => exact ih

theorem execReadBits_hasRead {bits : UInt8}
    (h : execReadBits stream bits slot ip vm = (vm', .goto ip')) :
    ∃ v, HasRead (.bits bits) v slot vm vm' := by
  unfold execReadBits at h
  split at h
  · simp [suspend] at h
  · obtain ⟨rfl, -⟩ := Prod.mk.inj h
    refine ⟨(vm.readBits bits.toNat).2, ⟨?_, ?_, ?_⟩⟩
    · simp [ReadKind.read, readBits, cursor]
    · rw [writeSlot_slots]
      exact congrArg (List.set · slot _) (readBitsLoop_slots ..).1
    · rw [writeSlot_emitted]
      exact readBitsLoop_emitted ..

theorem execReadRest_hasRead {name : String}
    (h : execReadRest name slot ip vm = (vm', .goto ip')) :
    ∃ v, HasRead .rest v slot vm vm' := by
  unfold execReadRest at h
  split at h
  · simp at h
  · rename_i aligned halign
    obtain rfl := alignToByte_eq halign
    obtain ⟨rfl, -⟩ := Prod.mk.inj h
    refine ⟨_, ⟨?_, writeSlot_slots .., by simp⟩⟩
    simp [ReadKind.read, cursor]

end Reads

/-- What a decoder asks of the machine that it works on. -/
structure Reader (σ : Type*) where
  asks : Expr → UInt64 → σ → σ → Prop
  reads : ReadKind → UInt64 → σ → σ → Prop
  emits : String → UInt64 → σ → σ → Prop
  /-- A step of the machine that neither reads nor emits. -/
  rests : σ → σ → Prop

/-- What a decoder has to do. -/
inductive Task where
  | ask (e : Expr) (v : UInt64)
  | askAll (es : List Expr)
  | read (kind : ReadKind) (v : UInt64)
  | emit (name : String) (v : UInt64)
  | check (validate : Option Validate)
  /-- A field, once its condition holds. -/
  | content (field : Field)
  | item (item : BodyItem)
  | items (items : List BodyItem)
  /-- A loop, once its carries have their first values. -/
  | rounds (lp : Loop)

/-- The recursive descent over the syntax tree, from a nesting depth on. A field at a depth
that is too deep is cut: it counts as one byte, whatever it is declared as. A reference to an
unknown message counts as one byte as well, and of several default arms the last one counts, as
the compiler has it. -/
inductive Decodes {σ : Type*} (reader : Reader σ) (proto : Protocol) (tooDeep : ℕ → Prop) :
    ℕ → Task → σ → σ → Prop
  | pause {depth task s t u} : reader.rests s t → Decodes reader proto tooDeep depth task t u →
      Decodes reader proto tooDeep depth task s u
  | settle {depth task s t u} : Decodes reader proto tooDeep depth task s t → reader.rests t u →
      Decodes reader proto tooDeep depth task s u
  | ask {depth e v s t} : reader.asks e v s t → Decodes reader proto tooDeep depth (.ask e v) s t
  | read {depth kind v s t} : reader.reads kind v s t →
      Decodes reader proto tooDeep depth (.read kind v) s t
  | emit {depth name v s t} : reader.emits name v s t →
      Decodes reader proto tooDeep depth (.emit name v) s t
  | askNone {depth s} : Decodes reader proto tooDeep depth (.askAll []) s s
  | askNext {depth e es v s t u} : Decodes reader proto tooDeep depth (.ask e v) s t →
      Decodes reader proto tooDeep depth (.askAll es) t u →
      Decodes reader proto tooDeep depth (.askAll (e :: es)) s u
  | unchecked {depth s} : Decodes reader proto tooDeep depth (.check none) s s
  | checked {depth validate v s t} : Decodes reader proto tooDeep depth (.ask validate.expr v) s t →
      v ≠ 0 → Decodes reader proto tooDeep depth (.check (some validate)) s t
  | scalar {depth field kind v s t u w} :
      field.ty.readKind (proto.endian == "little") = some kind →
      Decodes reader proto tooDeep depth (.read kind v) s t →
      Decodes reader proto tooDeep depth (.check field.validate) t u →
      Decodes reader proto tooDeep depth (.emit field.name v) u w →
      Decodes reader proto tooDeep depth (.content field) s w
  | bytes {depth field len n v s t u w x} : field.ty = .bytes len →
      Decodes reader proto tooDeep depth (.ask len n) s t →
      Decodes reader proto tooDeep depth (.read (.slice n) v) t u →
      Decodes reader proto tooDeep depth (.check field.validate) u w →
      Decodes reader proto tooDeep depth (.emit field.name v) w x →
      Decodes reader proto tooDeep depth (.content field) s x
  | inlined {depth field refName msg s t u} : field.ty = .messageRef refName →
      proto.messages.find? (·.name == refName) = some msg →
      Decodes reader proto tooDeep (depth + 1) (.items msg.body.items) s t →
      Decodes reader proto tooDeep depth (.check field.validate) t u →
      Decodes reader proto tooDeep depth (.content field) s u
  | unknown {depth field refName v s t u} : field.ty = .messageRef refName →
      proto.messages.find? (·.name == refName) = none →
      Decodes reader proto tooDeep depth (.read (.int 1 false) v) s t →
      Decodes reader proto tooDeep depth (.check field.validate) t u →
      Decodes reader proto tooDeep depth (.content field) s u
  | cut {depth field v s t} : tooDeep depth →
      Decodes reader proto tooDeep depth (.read (.int 1 false) v) s t →
      Decodes reader proto tooDeep depth (.item (.field field)) s t
  | always {depth field s t} : ¬ tooDeep depth → field.conditional = none →
      Decodes reader proto tooDeep depth (.content field) s t →
      Decodes reader proto tooDeep depth (.item (.field field)) s t
  | absent {depth field cond s t} : ¬ tooDeep depth → field.conditional = some cond →
      Decodes reader proto tooDeep depth (.ask cond 0) s t →
      Decodes reader proto tooDeep depth (.item (.field field)) s t
  | present {depth field cond v s t u} : ¬ tooDeep depth → field.conditional = some cond →
      Decodes reader proto tooDeep depth (.ask cond v) s t → v ≠ 0 →
      Decodes reader proto tooDeep depth (.content field) t u →
      Decodes reader proto tooDeep depth (.item (.field field)) s u
  | letItem {depth binding v s t} : Decodes reader proto tooDeep depth (.ask binding.value v) s t →
      Decodes reader proto tooDeep depth (.item (.letItem binding)) s t
  | validate {depth validate s t} :
      Decodes reader proto tooDeep depth (.check (some validate)) s t →
      Decodes reader proto tooDeep depth (.item (.validate validate)) s t
  | loop {depth lp s t u} :
      Decodes reader proto tooDeep depth (.askAll (lp.carries.map (·.init))) s t →
      Decodes reader proto tooDeep depth (.rounds lp) t u →
      Decodes reader proto tooDeep depth (.item (.loop lp)) s u
  | exit {depth lp s t} : Decodes reader proto tooDeep depth (.ask lp.condition 0) s t →
      Decodes reader proto tooDeep depth (.rounds lp) s t
  | round {depth lp v s t u w x} : Decodes reader proto tooDeep depth (.ask lp.condition v) s t →
      v ≠ 0 → Decodes reader proto tooDeep depth (.items (lp.body.map .field)) t u →
      Decodes reader proto tooDeep depth (.askAll (lp.nexts.map (·.value))) u w →
      Decodes reader proto tooDeep depth (.rounds lp) w x →
      Decodes reader proto tooDeep depth (.rounds lp) s x
  | taken {depth tag before arm after order v s t u} :
      Decodes reader proto tooDeep depth (.ask tag v) s t → arm.takes v →
      (∀ a ∈ before, ¬ a.takes v) → Decodes reader proto tooDeep depth (.items arm.items) t u →
      Decodes reader proto tooDeep depth
        (.item (.matchItem (.mk tag (before ++ arm :: after) order))) s u
  | otherwise {depth tag before arm after order v s t u} :
      Decodes reader proto tooDeep depth (.ask tag v) s t →
      (∀ a ∈ before ++ arm :: after, ¬ a.takes v) → arm.case = none → IsEmitted arm after →
      Decodes reader proto tooDeep depth (.items arm.items) t u →
      Decodes reader proto tooDeep depth
        (.item (.matchItem (.mk tag (before ++ arm :: after) order))) s u
  | noArm {depth tag arms order v s t} : Decodes reader proto tooDeep depth (.ask tag v) s t →
      (∀ a ∈ arms, ¬ a.takes v ∧ a.case ≠ none) →
      Decodes reader proto tooDeep depth (.item (.matchItem (.mk tag arms order))) s t
  | done {depth s} : Decodes reader proto tooDeep depth (.items []) s s
  | next {depth item items s t u} : Decodes reader proto tooDeep depth (.item item) s t →
      Decodes reader proto tooDeep depth (.items items) t u →
      Decodes reader proto tooDeep depth (.items (item :: items)) s u

/-- The places at which the compiler emits the expressions of a protocol. -/
inductive ExprAt (proto : Protocol) : Expr → EmitContext → EmitState → Prop
  | condition {remaining namePrefix body s fieldPrefix field t e} :
      BodyAt proto remaining namePrefix body s →
      FieldAt (proto.context remaining) namePrefix body s fieldPrefix field t →
      field.conditional = some e → ExprAt proto e (proto.context remaining) t
  | len {remaining namePrefix body s fieldPrefix field t e} :
      BodyAt proto remaining namePrefix body s →
      FieldAt (proto.context remaining) namePrefix body s fieldPrefix field t →
      field.ty = .bytes e →
      ExprAt proto e (proto.context remaining)
        (inlineStart (proto.context remaining) fieldPrefix field t)
  | check {remaining namePrefix body s fieldPrefix field t validate} :
      BodyAt proto (remaining + 1) namePrefix body s →
      FieldAt (proto.context (remaining + 1)) namePrefix body s fieldPrefix field t →
      field.validate = some validate →
      ExprAt proto validate.expr (proto.context (remaining + 1))
        (emitRead (proto.context (remaining + 1))
          (messageEmitter proto.messages currentOffsetSlot (proto.endian == "little") remaining)
          field fieldPrefix (joinName fieldPrefix field.name)
          (emitCondition (proto.context (remaining + 1)) field t).2.slot
          (inlineStart (proto.context (remaining + 1)) fieldPrefix field t))
  | letItem {remaining namePrefix body s binding t} : BodyAt proto remaining namePrefix body s →
      ItemAt (proto.context remaining) namePrefix body s (.letItem binding) t →
      ExprAt proto binding.value (proto.context remaining) t
  | validate {remaining namePrefix body s validate t} : BodyAt proto remaining namePrefix body s →
      ItemAt (proto.context remaining) namePrefix body s (.validate validate) t →
      ExprAt proto validate.expr (proto.context remaining) t
  | init {remaining namePrefix body s lp t before carry after} :
      BodyAt proto remaining namePrefix body s →
      ItemAt (proto.context remaining) namePrefix body s (.loop lp) t →
      lp.carries = before ++ carry :: after →
      ExprAt proto carry.init (proto.context remaining)
        (before.foldl (emitCarry (proto.context remaining) (joinName namePrefix lp.name)) (∅, t)).2
  | loop {remaining namePrefix body s lp t} : BodyAt proto remaining namePrefix body s →
      ItemAt (proto.context remaining) namePrefix body s (.loop lp) t →
      ExprAt proto lp.condition (proto.context remaining)
        (lp.carries.foldl (emitCarry (proto.context remaining) (joinName namePrefix lp.name))
          (∅, t)).2
  | nextValue {remaining namePrefix body s lp t before nxt after} :
      BodyAt proto remaining namePrefix body s →
      ItemAt (proto.context remaining) namePrefix body s (.loop lp) t →
      lp.nexts = before ++ nxt :: after →
      ExprAt proto nxt.value (proto.context remaining)
        (before.foldl (emitNext (proto.context remaining) (joinName namePrefix lp.name))
          (lp.body.foldl (fun s field =>
            emitFieldBytecode (proto.context remaining) field (joinName namePrefix lp.name) s)
            (loopBodyStart (proto.context remaining) namePrefix lp t)))
  | tag {remaining namePrefix body s tag arms order t} : BodyAt proto remaining namePrefix body s →
      ItemAt (proto.context remaining) namePrefix body s (.matchItem (.mk tag arms order)) t →
      ExprAt proto tag (proto.context remaining) t

/-- A suspended stream is given more bytes. -/
inductive Resumes (program : BytecodeProgram) : Bool → Config → Config → Prop
  | mk {c vm cont} (more : List UInt8) :
      vmMove program true c = .error (vm, .returned (.ok (.needMoreBytes cont))) →
      Resumes program true c ⟨(restore cont).appendInput more, cont.ip⟩

/-- The moves of the virtual machine. A read of a stream waits until it has its bytes. -/
def vmMoves (program : BytecodeProgram) (stream : Bool) :
    Moves { i : Instruction // ¬ i.IsJump } ℕ Config where
  does i c d := program.instructions[c.ip]? = some i.1 ∧
    ∃ c', Relation.ReflTransGen (Resumes program stream) c c' ∧ vmMove program stream c' = .ok d
  enters cond c d := ∃ target v, program.instructions[c.ip]? = some (.jumpIfZero cond target) ∧
    vmMove program stream c = .ok d ∧ c.vm.slots[cond]? = some v ∧ v ≠ 0
  leaves cond c d := ∃ target, program.instructions[c.ip]? = some (.jumpIfZero cond target) ∧
    vmMove program stream c = .ok d ∧ c.vm.slots[cond]? = some 0
  jumps c d := ∃ target, program.instructions[c.ip]? = some (.jump target) ∧
    vmMove program stream c = .ok d

/-- A passage of the virtual machine with all its moves from states in `P`. -/
abbrev Passes (program : BytecodeProgram) (stream : Bool) (P : Config → Prop) :
    Structured { i : Instruction // ¬ i.IsJump } ℕ → ℕ → Config → Config → Prop :=
  Passage ((vmMoves program stream).among P) Config.ip

/-- The instruction neither reads input nor emits a field. -/
def Instruction.IsSilent : Instruction → Prop
  | .emitField _ _ => False
  | i => ¬ i.ReadsInput

/-- The virtual machine as a decoder asks it: an expression has the value that the code
compiled for it leaves in its result slot, and reading, emitting and all else are moves of
the program. -/
def vmReader (proto : Protocol) (program : BytecodeProgram) (stream : Bool) : Reader Config where
  asks e v c d := ∃ cx s, ExprAt proto e cx s ∧ c.ip = s.instructions.length ∧
    Passage (vmMoves program stream) Config.ip (s.exprCode cx e) s.instructions.length c d ∧
      d.vm.getSlot (s.emitExpr cx e).1 = v
  reads kind v c d := ∃ instr c', program.instructions[c.ip]? = some instr ∧ instr.ReadsInput ∧
    Relation.ReflTransGen (Resumes program stream) c c' ∧ vmMove program stream c' = .ok d ∧
      kind.read c'.vm.tick = (v, d.vm.cursor) ∧ d.vm.emitted = c'.vm.emitted
  emits name v c d := ∃ slot, program.instructions[c.ip]? = some (.emitField name slot) ∧
    vmMove program stream c = .ok d ∧ c.vm.slots[slot]? = some v
  rests c d := ∃ instr, program.instructions[c.ip]? = some instr ∧ instr.IsSilent ∧
    vmMove program stream c = .ok d

end NFdl
