import NFdl.Runtime.EmitExpr
import NFdl.Bytecode.Instruction
import Mathlib.Data.List.Sort

/-!
# Compiling protocols

The compiler threads its tables, the code emitted so far and the slot counter
through the items of a message body in source order. Referenced messages are
inlined up to a fixed depth. An emitter is what one item does to that state.
-/

namespace NFdl

/-- What the compiler mutates while it emits code. -/
structure EmitState where
  varSlots : SlotMap
  fieldMap : SlotMap
  instructions : List Instruction
  slot : Nat

abbrev Emitter := EmitState → EmitState

/-- The nesting depth up to which referenced messages are inlined. -/
def maxRefDepth : Nat := 8

/-- What stays fixed while one message body is emitted. `inlineMessage` emits
the body of a referenced message one level deeper, under its dotted name; it is
missing beyond the maximal depth, where fields are opaque. -/
structure EmitContext where
  messages : List Message
  currentOffsetSlot : Nat
  littleEndian : Bool
  inlineMessage : Option (String → Message → Emitter)

/-- A name under a possibly empty dotted path. -/
def joinName (path name : String) : String :=
  if path = "" then name else path ++ "." ++ name

namespace EmitState

def push (s : EmitState) (instr : Instruction) : EmitState :=
  { s with instructions := s.instructions ++ [instr] }

/-- Emit an expression and take the slots it allocates; also gives its result slot. -/
def emitExpr (s : EmitState) (cx : EmitContext) (e : Expr) : Nat × EmitState :=
  let (instructions, result, next) :=
    emitExprToSlot e s.varSlots s.instructions s.slot cx.currentOffsetSlot
  (result, { s with instructions := instructions, slot := next })

/-- Emit a read, refresh the offset and take the slot of the field. -/
def pushRead (s : EmitState) (cx : EmitContext) (instr : Instruction) : EmitState :=
  let s := (s.push instr).push (.updateOffset cx.currentOffsetSlot)
  { s with slot := s.slot + 1 }

/-- Patch the conditional jump at `idx` to land after the code so far. -/
def landHere (s : EmitState) (idx : Nat) : EmitState :=
  { s with instructions := patchJumpIfZero s.instructions idx (asU16 s.instructions.length) }

end EmitState

/-- The read of a field by its type. -/
def emitRead (cx : EmitContext) (inlineMessage : String → Message → Emitter) (field : Field)
    (namePrefix fullName : String) (readSlot : Nat) (s : EmitState) : EmitState :=
  match field.ty with
  | .u8 => s.pushRead cx (.readU8 readSlot)
  | .u16 => s.pushRead cx (.readU16 readSlot cx.littleEndian)
  | .u24 => s.pushRead cx (.readU24 readSlot cx.littleEndian)
  | .u32 => s.pushRead cx (.readU32 readSlot cx.littleEndian)
  | .bytes len =>
      let (lenSlot, s) := s.emitExpr cx len
      s.pushRead cx (.readSlice lenSlot readSlot)
  | .messageRef refName =>
      match cx.messages.find? (·.name == refName) with
      | some referenced =>
          let subPrefix := if namePrefix = "" then field.name else fullName
          -- The names of the inlined message stay local to it.
          { inlineMessage subPrefix referenced s with varSlots := s.varSlots }
      | none => s.pushRead cx (.readU8 readSlot)
  | .bitfield bits => s.pushRead cx (.readBits bits readSlot)
  | .bytesRest | .bytesEof | .bytesStream => s.pushRead cx (.readRest field.name readSlot)

def NfdlType.isRef : NfdlType → Bool
  | .messageRef _ => true
  | _ => false

/-- A field beyond the maximal depth is read as one opaque byte. -/
def emitOpaque (cx : EmitContext) (s : EmitState) : EmitState :=
  s.pushRead cx (.readU8 s.slot)

/-- Emit the condition of a conditional field; gives the index of the jump to patch. -/
def emitCondition (cx : EmitContext) (field : Field) (s : EmitState) : Option Nat × EmitState :=
  match field.conditional with
  | some cond =>
      let (cSlot, s) := s.emitExpr cx cond
      (some s.instructions.length, s.push (.jumpIfZero cSlot 0))
  | none => (none, s)

/-- Register the slot of a field under its name and its full name. -/
def registerField (field : Field) (fullName : String) (s : EmitState) : EmitState :=
  { s with
    fieldMap := s.fieldMap.insert fullName s.slot
    varSlots := (s.varSlots.insert field.name s.slot).insert fullName s.slot }

/-- Emit the check of a `validate` clause. -/
def emitValidate (cx : EmitContext) (v : Validate) (s : EmitState) : EmitState :=
  let (vSlot, s) := s.emitExpr cx v.expr
  s.push (.validate vSlot v.message)

/-- A field without its condition: register it, read it, check it, emit it. -/
def emitFieldBody (cx : EmitContext) (inlineMessage : String → Message → Emitter) (field : Field)
    (namePrefix : String) (s : EmitState) : EmitState :=
  let fullName := joinName namePrefix field.name
  let readSlot := s.slot
  let s := registerField field fullName s
  let s := emitRead cx inlineMessage field namePrefix fullName readSlot s
  let s := match field.validate with
    | some v => emitValidate cx v s
    | none => s
  if field.ty.isRef then s else s.push (.emitField field.name readSlot)

def emitFieldBytecode (cx : EmitContext) (field : Field) (namePrefix : String) (s : EmitState) :
    EmitState :=
  match cx.inlineMessage with
  | none => emitOpaque cx s
  | some inlineMessage =>
    let (condJumpIdx, s) := emitCondition cx field s
    let s := emitFieldBody cx inlineMessage field namePrefix s
    match condJumpIdx with
    | some idx => s.landHere idx
    | none => s

/-- The check of a field that has one. -/
def emitCheck (cx : EmitContext) (validate : Option Validate) (s : EmitState) : EmitState :=
  match validate with
  | some v => emitValidate cx v s
  | none => s

/-- Land the jump over a field that has a condition. -/
def EmitState.landIf (s : EmitState) (condJumpIdx : Option Nat) : EmitState :=
  match condJumpIdx with
  | some idx => s.landHere idx
  | none => s

section Field

variable {cx : EmitContext} {inlineMessage : String → Message → Emitter} {field : Field}

theorem emitRead_inlined {refName namePrefix fullName : String} {msg : Message} {readSlot : Nat}
    {s : EmitState} (hty : field.ty = .messageRef refName)
    (hmsg : cx.messages.find? (·.name == refName) = some msg) :
    emitRead cx inlineMessage field namePrefix fullName readSlot s =
      { inlineMessage (if namePrefix = "" then field.name else fullName) msg s with
        varSlots := s.varSlots } := by
  unfold emitRead
  rw [hty]
  dsimp only
  rw [hmsg]

theorem emitFieldBody_eq {namePrefix : String} {s : EmitState} :
    emitFieldBody cx inlineMessage field namePrefix s =
      let checked := emitCheck cx field.validate (emitRead cx inlineMessage field namePrefix
        (joinName namePrefix field.name) s.slot
        (registerField field (joinName namePrefix field.name) s))
      if field.ty.isRef then checked else checked.push (.emitField field.name s.slot) := rfl

theorem emitFieldBytecode_eq {namePrefix : String} {s : EmitState}
    (h : cx.inlineMessage = some inlineMessage) :
    emitFieldBytecode cx field namePrefix s =
      (emitFieldBody cx inlineMessage field namePrefix (emitCondition cx field s).2).landIf
        (emitCondition cx field s).1 := by
  unfold emitFieldBytecode
  rw [h]
  rfl

end Field

/-- Snapshot the value of a `let` into a slot of its own and register its name. -/
def emitLet (cx : EmitContext) (namePrefix : String) (binding : Let) (s : EmitState) : EmitState :=
  let (valSlot, s) := s.emitExpr cx binding.value
  let snap := s.slot
  let s := s.push (.copySlot valSlot snap)
  { s with
    slot := snap + 1
    varSlots := s.varSlots.insert binding.name snap
    fieldMap := s.fieldMap.insert (joinName namePrefix binding.name) snap }

/-- Initialise one carry. Its slot is the result slot of the initialiser. -/
def emitCarry (cx : EmitContext) (loopPrefix : String) (acc : SlotMap × EmitState) (carry : Carry) :
    SlotMap × EmitState :=
  let (carrySlots, s) := acc
  let (initSlot, s) := s.emitExpr cx carry.init
  let varSlots := s.varSlots.insert (loopPrefix ++ "." ++ carry.name) initSlot
  (carrySlots.insert carry.name initSlot,
    { s with varSlots := varSlots.insert carry.name initSlot })

/-- The slot that a `next` statement assigns. -/
def nextTarget (loopPrefix : String) (nxt : NextStmt) (s : EmitState) : Nat :=
  ((s.varSlots.lookup (loopPrefix ++ "." ++ nxt.name)).or (s.varSlots.lookup nxt.name)).getD s.slot

/-- Evaluate a `next` expression and assign it to its target. -/
def emitNext (cx : EmitContext) (loopPrefix : String) (s : EmitState) (nxt : NextStmt) : EmitState :=
  let targetSlot := nextTarget loopPrefix nxt s
  let (valSlot, s) := s.emitExpr cx nxt.value
  s.push (.copySlot valSlot targetSlot)

/-- Register the final value of a carry after the loop. -/
def registerCarry (loopPrefix : String) (carrySlots : SlotMap) (s : EmitState) (carry : Carry) :
    EmitState :=
  let finalName := loopPrefix ++ ".carries." ++ carry.name
  let carrySlot := (carrySlots.lookup carry.name).getD 0
  { s with
    fieldMap := s.fieldMap.insert finalName carrySlot
    varSlots := s.varSlots.insert finalName carrySlot }

def emitLoop (cx : EmitContext) (namePrefix : String) (lp : Loop) (s : EmitState) : EmitState :=
  let loopPrefix := joinName namePrefix lp.name
  let (carrySlots, s) := lp.carries.foldl (emitCarry cx loopPrefix) (∅, s)
  let loopStartIp := asU16 s.instructions.length
  let (condSlot, s) := s.emitExpr cx lp.condition
  let exitJumpIdx := s.instructions.length
  let s := s.push (.jumpIfZero condSlot 0)
  let s := lp.body.foldl (fun s field => emitFieldBytecode cx field loopPrefix s) s
  let s := lp.nexts.foldl (emitNext cx loopPrefix) s
  let s := s.push (.jump loopStartIp)
  let s := s.landHere exitJumpIdx
  lp.carries.foldl (registerCarry loopPrefix carrySlots) s

/-- The accumulator of the loop over match arms: the jumps to the end that are
still to be patched, and the default arm seen last. -/
structure ArmsState where
  endJumps : List Nat
  defaultArm : Option Emitter
  state : EmitState

/-- One arm of a match: compare the tag with its constant and run its body, or
keep it as the default. -/
def emitArm (tagSlot : Nat) (acc : ArmsState) (arm : Option Int64 × Emitter) : ArmsState :=
  match arm with
  | (some cv, body) =>
      let s := acc.state
      let constSlot := s.slot
      let s := s.push (.loadConst cv.toUInt64 constSlot)
      let cmpSlot := constSlot + 1
      let s := s.push (.binOp .eq tagSlot constSlot cmpSlot)
      let s := { s with slot := cmpSlot + 1 }
      let skipIdx := s.instructions.length
      let s := s.push (.jumpIfZero cmpSlot 0)
      let s := body s
      let endIdx := s.instructions.length
      let s := s.push (.jump 0)
      { acc with endJumps := acc.endJumps ++ [endIdx], state := s.landHere skipIdx }
  | (none, body) => { acc with defaultArm := some body }

/-- A match over arms whose bodies are already emitters. -/
def emitMatch (cx : EmitContext) (tag : Expr) (arms : List (Option Int64 × Emitter))
    (s : EmitState) : EmitState :=
  let (tagSlot, s) := s.emitExpr cx tag
  let acc := arms.foldl (emitArm tagSlot) ⟨[], none, s⟩
  let s := match acc.defaultArm with
    | some body => body acc.state
    | none => acc.state
  let endIp := asU16 s.instructions.length
  { s with instructions :=
      acc.endJumps.foldl (fun instructions idx => patchJump instructions idx endIp) s.instructions }

/-- Run the default arm, if there is one. -/
def ArmsState.finish (acc : ArmsState) : EmitState :=
  match acc.defaultArm with
  | some body => body acc.state
  | none => acc.state

theorem ArmsState.finish_none {acc : ArmsState} (h : acc.defaultArm = none) :
    acc.finish = acc.state := by
  unfold finish
  rw [h]

theorem ArmsState.finish_some {acc : ArmsState} {body : Emitter} (h : acc.defaultArm = some body) :
    acc.finish = body acc.state := by
  unfold finish
  rw [h]

/-- Emit the items of a body in source order; items of equal order keep the
order in which they are listed here. -/
def emitItems (items : List (Nat × Emitter)) (s : EmitState) : EmitState :=
  (items.insertionSort fun a b => a.1 ≤ b.1).foldl (fun s item => item.2 s) s

/-- The emitters of a body, with those of its matches given. -/
def emitBodyBlock (cx : EmitContext) (namePrefix : String) (fields : List Field) (lets : List Let)
    (loops : List Loop) (validates : List Validate) (matchItems : List (Nat × Emitter)) : Emitter :=
  emitItems (fields.map (fun f => (f.order, emitFieldBytecode cx f namePrefix)) ++
    lets.map (fun l => (l.order, emitLet cx namePrefix l)) ++
    validates.map (fun v => (v.order, emitValidate cx v)) ++
    loops.map (fun lp => (lp.order, emitLoop cx namePrefix lp)) ++
    matchItems)

mutual

def matchEmitter (cx : EmitContext) (namePrefix : String) : Match → Emitter
  | .mk tag arms _ => emitMatch cx tag (armEmitters cx namePrefix arms)

def armEmitters (cx : EmitContext) (namePrefix : String) :
    List MatchArm → List (Option Int64 × Emitter)
  | [] => []
  | arm :: arms => armEmitter cx namePrefix arm :: armEmitters cx namePrefix arms

def armEmitter (cx : EmitContext) (namePrefix : String) : MatchArm → Option Int64 × Emitter
  | .mk case fields lets loops validates matches_ =>
      (case, emitBodyBlock cx namePrefix fields lets loops validates
        (matchItems cx namePrefix matches_))

def matchItems (cx : EmitContext) (namePrefix : String) : List Match → List (Nat × Emitter)
  | [] => []
  | m :: ms => (m.order, matchEmitter cx namePrefix m) :: matchItems cx namePrefix ms

end

def emitMessage (cx : EmitContext) (namePrefix : String) (msg : Message) : Emitter :=
  emitBodyBlock cx namePrefix msg.fields msg.lets msg.loops msg.validates
    (matchItems cx namePrefix msg.matches_)

/-- The body of a message with `remaining` levels of inlining left below it,
one of which is that of its own fields. -/
def messageEmitter (messages : List Message) (currentOffsetSlot : Nat) (littleEndian : Bool) :
    Nat → String → Message → Emitter
  | 0 => emitMessage ⟨messages, currentOffsetSlot, littleEndian, none⟩
  | remaining + 1 => emitMessage ⟨messages, currentOffsetSlot, littleEndian,
      some (messageEmitter messages currentOffsetSlot littleEndian remaining)⟩

def typeRefs : NfdlType → List String
  | .messageRef r => [r]
  | _ => []

def fieldsRefs (fields : List Field) : List String := fields.flatMap fun f => typeRefs f.ty

def loopsRefs (loops : List Loop) : List String := loops.flatMap fun lp => fieldsRefs lp.body

mutual

def collectMatchRefs : Match → List String
  | .mk _ arms _ => armsRefs arms

def armsRefs : List MatchArm → List String
  | [] => []
  | arm :: arms => armRefs arm ++ armsRefs arms

def armRefs : MatchArm → List String
  | .mk _ fields _ loops _ matches_ => fieldsRefs fields ++ loopsRefs loops ++ matchesRefs matches_

def matchesRefs : List Match → List String
  | [] => []
  | m :: ms => collectMatchRefs m ++ matchesRefs ms

end

/-- Every message that the body of `msg` refers to. -/
def collectMsgRefs (msg : Message) : List String :=
  fieldsRefs msg.fields ++ loopsRefs msg.loops ++ matchesRefs msg.matches_

/-- The first message that no message refers to, else the first one. -/
def rootMessageIndex (proto : Protocol) : Nat :=
  let referenced := proto.messages.flatMap collectMsgRefs
  (proto.messages.findIdx? fun m => !referenced.contains m.name).getD 0

/-- Slot 0 is reserved for `__current_offset`. -/
def currentOffsetSlot : Nat := 0

/-- The compiler's state after the root message. -/
def emitProtocol (proto : Protocol) : EmitState :=
  let start : EmitState :=
    { varSlots := (∅ : SlotMap).insert "__current_offset" currentOffsetSlot
      fieldMap := ∅
      instructions := [.loadConst 0 currentOffsetSlot]
      slot := 1 }
  match proto.messages[rootMessageIndex proto]? with
  | none => start
  | some msg =>
      messageEmitter proto.messages currentOffsetSlot (proto.endian == "little") (maxRefDepth + 1) ""
        msg start

/-- The compiled program and the slots of its fields. The slot counter has
sixteen bits and never decreases, so the compiler panics exactly when its final
value does not fit. -/
def protocolToBytecodeWithMap (proto : Protocol) : Option (BytecodeProgram × SlotMap) :=
  let s := emitProtocol proto
  if s.slot ≤ u16Max then
    some (⟨s.instructions ++ [.ret], max s.slot 32 + 16⟩, s.fieldMap)
  else none

end NFdl
