import NFdl.Runtime.Leaves
import NFdl.Bytecode.Control
import NFdl.Lib.Structured

/-!
# The intended layout of compiled protocols

The compiler patches jump targets into a flat list. The tables below follow it
through the items of a body and give the same code with its structure: a
conditional field is skipped as a whole, a loop goes back to its condition, an
arm of a match is chosen by its comparison. What the compiler emits is proved to
be the layout of that structured code, with addresses cut to sixteen bits.
-/

namespace NFdl

def Instruction.isPlain : Instruction → Bool
  | .jump _ | .jumpIfZero _ _ => false
  | _ => true

theorem Instruction.not_isJump {i : Instruction} (h : i.isPlain = true) : ¬ i.IsJump := by
  cases i <;> simp_all [isPlain, IsJump]

/-- Structured code over the instructions of the virtual machine that are no jumps.
Conditions are the slots that a conditional jump tests. -/
abbrev Code := Structured { i : Instruction // ¬ i.IsJump } Nat

/-- One instruction, which is no jump. -/
def plain (i : Instruction) (h : ¬ i.IsJump := by exact Instruction.not_isJump rfl) : Code := .instr ⟨i, h⟩

@[simp] theorem plain_length (i : Instruction) (h : ¬ i.IsJump) : (plain i h).length = 1 := rfl

/-- The instruction set of the virtual machine. -/
def vmJumps : JumpForms { i : Instruction // ¬ i.IsJump } Nat Instruction where
  plain := Subtype.val
  jump := .jump
  branch := .jumpIfZero
  jump_inj h := Instruction.jump.inj h
  branch_inj h := (Instruction.jumpIfZero.inj h).2

/-- The code as the compiler stores it from address `base` on. -/
def Code.stored (c : Code) (base : Nat) : List Instruction := c.assemble vmJumps asU16 base

/-- The code with the jump targets it is meant to have. -/
def Code.intended (c : Code) (base : Nat) : List Instruction := c.assemble vmJumps id base

namespace Code

variable (a b : Code) (cond base : Nat)

@[simp] theorem stored_length : (a.stored base).length = a.length :=
  a.assemble_length vmJumps asU16 base

@[simp] theorem stored_nil : Code.stored .nil base = [] := rfl
@[simp] theorem stored_plain (i : Instruction) (h : ¬ i.IsJump) :
    (plain i h).stored base = [i] := rfl

@[simp] theorem stored_seq :
    Code.stored (.seq a b) base = a.stored base ++ b.stored (base + a.length) := rfl

@[simp] theorem stored_skip : Code.stored (.skip cond b) base =
    .jumpIfZero cond (asU16 (base + b.length + 1)) :: b.stored (base + 1) := rfl

@[simp] theorem stored_choose : Code.stored (.choose cond a b) base =
    .jumpIfZero cond (asU16 (base + a.length + 2)) :: (a.stored (base + 1) ++
      .jump (asU16 (base + a.length + b.length + 2)) :: b.stored (base + a.length + 2)) := rfl

@[simp] theorem stored_loop : Code.stored (.loop a cond b) base = a.stored base ++
    .jumpIfZero cond (asU16 (base + a.length + b.length + 2)) ::
      (b.stored (base + a.length + 1) ++ [.jump (asU16 base)]) := rfl

end Code

section Expressions

variable (varSlots : SlotMap) (offset : Nat)

/-- The code of an expression with results stored from slot `next` on. -/
def exprCode : Expr → Nat → Code
  | .ident name, next =>
      if name = "__current_offset" then .nil
      else match varSlots.lookup name with
        | some _ => .nil
        | none => plain (.loadConst 0 next)
  | .binary op left right, next =>
      ((exprCode left next).seq (exprCode right (next + slotCount varSlots left))).seq
        (plain (.binOp op.toBytecode (resultSlot varSlots offset next left)
          (resultSlot varSlots offset (next + slotCount varSlots left) right)
          (next + slotCount varSlots left + slotCount varSlots right)))
  | .unary op expr, next =>
      (exprCode expr next).seq (plain (.unaryOp op.toBytecode (resultSlot varSlots offset next expr)
        (next + slotCount varSlots expr)))
  | .ternary cond thenBranch elseBranch, next =>
      let dst := next + slotCount varSlots cond
      let elseNext := dst + slotCount varSlots thenBranch
      (exprCode cond next).seq (.choose (resultSlot varSlots offset next cond)
        ((exprCode thenBranch dst).seq
          (plain (.copySlot (resultSlot varSlots offset dst thenBranch) dst)))
        ((exprCode elseBranch elseNext).seq
          (plain (.copySlot (resultSlot varSlots offset elseNext elseBranch) dst))))
  | .coalesce value default, next =>
      let dst := next + slotCount varSlots value
      (exprCode value next).seq (.choose (resultSlot varSlots offset next value)
        (plain (.copySlot (resultSlot varSlots offset next value) dst))
        ((exprCode default dst).seq
          (plain (.copySlot (resultSlot varSlots offset dst default) dst))))
  | .field base field, next =>
      match fieldSlot varSlots base field with
      | some _ => .nil
      | none => plain (.loadConst 0 next)
  | .int v, next => plain (.loadConst v.toUInt64 next)
  | .call _ _, next => plain (.loadConst 0 next)
  | .tuple _, next => plain (.loadConst 0 next)
  | .str _, next => plain (.loadConst 0 next)

theorem exprCode_length (e : Expr) (next : Nat) :
    (exprCode varSlots offset e next).length = codeLength varSlots e := by
  induction e generalizing next with
  | ident name =>
      by_cases hname : name = "__current_offset"
      · simp [exprCode, codeLength, hname]
      · cases hslot : varSlots.lookup name <;> simp [exprCode, codeLength, hname, hslot]
  | binary op left right ihl ihr =>
      simp only [exprCode, Structured.length_seq, plain_length, ihl, ihr, codeLength]
  | unary op expr ih =>
      simp only [exprCode, Structured.length_seq, plain_length, ih, codeLength]
  | ternary cond thenBranch elseBranch ihc iht ihe =>
      simp only [exprCode, Structured.length_seq, Structured.length_choose,
        plain_length, ihc, iht, ihe, codeLength]
      omega
  | coalesce value default ihv ihd =>
      simp only [exprCode, Structured.length_seq, Structured.length_choose,
        plain_length, ihv, ihd, codeLength]
      omega
  | field base name _ =>
      cases hslot : fieldSlot varSlots base name <;> simp [exprCode, codeLength, hslot]
  | _ => rfl

/-- The block of an expression is the layout of its code. -/
theorem exprCode_stored (e : Expr) (base next : Nat) :
    (exprCode varSlots offset e next).stored base = exprBlock varSlots offset e base next := by
  induction e generalizing base next with
  | ident name =>
      by_cases hname : name = "__current_offset"
      · simp [exprCode, exprBlock, hname]
      · cases hslot : varSlots.lookup name <;>
          simp [exprCode, exprBlock, hname, hslot]
  | binary op left right ihl ihr =>
      simp only [exprCode, Code.stored_seq, Code.stored_plain, exprCode_length, ihl, ihr, exprBlock]
  | unary op expr ih => simp only [exprCode, Code.stored_seq, Code.stored_plain, ih, exprBlock]
  | ternary cond thenBranch elseBranch ihc iht ihe =>
      have helse : base + codeLength varSlots cond + (codeLength varSlots thenBranch + 1) + 2 =
          base + codeLength varSlots cond + codeLength varSlots thenBranch + 3 := by
        omega
      have hafter : base + codeLength varSlots cond + (codeLength varSlots thenBranch + 1) +
          (codeLength varSlots elseBranch + 1) + 2 = base + codeLength varSlots cond +
            codeLength varSlots thenBranch + codeLength varSlots elseBranch + 4 := by
        omega
      simp only [exprCode, Code.stored_seq, Code.stored_plain, exprCode_length, Structured.length_seq,
        plain_length, ihc, iht, ihe, exprBlock, Code.stored_choose, helse, hafter,
        List.append_assoc, List.cons_append, List.nil_append]
  | coalesce value default ihv ihd =>
      have hdefault : base + codeLength varSlots value + 1 + 2 =
          base + codeLength varSlots value + 3 := by
        omega
      have hafter : base + codeLength varSlots value + 1 + (codeLength varSlots default + 1) + 2 =
          base + codeLength varSlots value + codeLength varSlots default + 4 := by
        omega
      simp only [exprCode, Code.stored_seq, Code.stored_plain, exprCode_length, Structured.length_seq,
        plain_length, ihv, ihd, exprBlock, Code.stored_choose, hdefault, hafter,
        List.append_assoc, List.cons_append, List.nil_append]
  | field b name _ =>
      cases hslot : fieldSlot varSlots b name <;>
        simp [exprCode, exprBlock, hslot]
  | _ => rfl

end Expressions

/-- The code that an emitter adds, by the state it starts from. -/
abbrev CodeTable := EmitState → Code

/-- The code of items that are emitted one after the other. -/
def codeAlong {α σ : Type*} (emit : σ → α → σ) (code : α → σ → Code) : List α → σ → Code
  | [], _ => .nil
  | a :: as, s => (code a s).seq (codeAlong emit code as (emit s a))

def EmitState.exprCode (s : EmitState) (cx : EmitContext) (e : Expr) : Code :=
  NFdl.exprCode s.varSlots cx.currentOffsetSlot e s.slot

/-- A read refreshes the offset. -/
def readThen (cx : EmitContext) (read : Instruction) (h : ¬ read.IsJump := by exact Instruction.not_isJump rfl) : Code :=
  (plain read h).seq (plain (.updateOffset cx.currentOffsetSlot))

def readCode (cx : EmitContext) (inlineCode : String → Message → CodeTable) (field : Field)
    (namePrefix fullName : String) (readSlot : Nat) : CodeTable := fun s =>
  match field.ty with
  | .u8 => readThen cx (.readU8 readSlot)
  | .u16 => readThen cx (.readU16 readSlot cx.littleEndian)
  | .u24 => readThen cx (.readU24 readSlot cx.littleEndian)
  | .u32 => readThen cx (.readU32 readSlot cx.littleEndian)
  | .bytes len =>
      (s.exprCode cx len).seq (readThen cx (.readSlice (s.emitExpr cx len).1 readSlot))
  | .messageRef refName =>
      match cx.messages.find? (·.name == refName) with
      | some referenced =>
          inlineCode (if namePrefix = "" then field.name else fullName) referenced s
      | none => readThen cx (.readU8 readSlot)
  | .bitfield bits => readThen cx (.readBits bits readSlot)
  | .bytesRest | .bytesEof | .bytesStream => readThen cx (.readRest field.name readSlot)

def validateCode (cx : EmitContext) (v : Validate) : CodeTable := fun s =>
  (s.exprCode cx v.expr).seq (plain (.validate (s.emitExpr cx v.expr).1 v.message))

/-- The code of a field without its condition. -/
def fieldBodyCode (cx : EmitContext) (inlineMessage : String → Message → Emitter)
    (inlineCode : String → Message → CodeTable) (field : Field) (namePrefix : String) :
    CodeTable := fun s =>
  let fullName := joinName namePrefix field.name
  let start := registerField field fullName s
  let read := emitRead cx inlineMessage field namePrefix fullName s.slot start
  let check := match field.validate with
    | some v => validateCode cx v read
    | none => .nil
  let emit := if field.ty.isRef then .nil else plain (.emitField field.name s.slot)
  ((readCode cx inlineCode field namePrefix fullName s.slot start).seq check).seq emit

/-- A field whose condition is zero is skipped as a whole. -/
def fieldCode (cx : EmitContext) (inlineCode : String → Message → CodeTable) (field : Field)
    (namePrefix : String) : CodeTable := fun s =>
  match cx.inlineMessage with
  | none => readThen cx (.readU8 s.slot)
  | some inlineMessage =>
    match field.conditional with
    | some cond => (s.exprCode cx cond).seq (.skip (s.emitExpr cx cond).1
        (fieldBodyCode cx inlineMessage inlineCode field namePrefix (emitCondition cx field s).2))
    | none => fieldBodyCode cx inlineMessage inlineCode field namePrefix s

/-- The check of a field, if it has one. -/
def checkCode (cx : EmitContext) (validate : Option Validate) (s : EmitState) : Code :=
  match validate with
  | some v => validateCode cx v s
  | none => .nil

section Field

variable {cx : EmitContext} {inlineMessage : String → Message → Emitter}
  {inlineCode : String → Message → CodeTable} {field : Field} {namePrefix fullName : String}
  {readSlot : Nat} {s : EmitState}

theorem readCode_bytes {len : Expr} (hty : field.ty = .bytes len) :
    readCode cx inlineCode field namePrefix fullName readSlot s =
      (s.exprCode cx len).seq (readThen cx (.readSlice (s.emitExpr cx len).1 readSlot)) := by
  unfold readCode
  rw [hty]

theorem readCode_inlined {refName : String} {msg : Message} (hty : field.ty = .messageRef refName)
    (hmsg : cx.messages.find? (·.name == refName) = some msg) :
    readCode cx inlineCode field namePrefix fullName readSlot s =
      inlineCode (if namePrefix = "" then field.name else fullName) msg s := by
  unfold readCode
  rw [hty]
  dsimp only
  rw [hmsg]

theorem readCode_unknown {refName : String} (hty : field.ty = .messageRef refName)
    (hmsg : cx.messages.find? (·.name == refName) = none) :
    readCode cx inlineCode field namePrefix fullName readSlot s =
      readThen cx (.readU8 readSlot) := by
  unfold readCode
  rw [hty]
  dsimp only
  rw [hmsg]

theorem fieldCode_always (hcx : cx.inlineMessage = some inlineMessage)
    (hcond : field.conditional = none) :
    fieldCode cx inlineCode field namePrefix s =
      fieldBodyCode cx inlineMessage inlineCode field namePrefix s := by
  unfold fieldCode
  rw [hcx]
  dsimp only
  rw [hcond]

theorem fieldCode_conditional {cond : Expr} (hcx : cx.inlineMessage = some inlineMessage)
    (hcond : field.conditional = some cond) :
    fieldCode cx inlineCode field namePrefix s =
      (s.exprCode cx cond).seq (.skip (s.emitExpr cx cond).1 (fieldBodyCode cx inlineMessage
        inlineCode field namePrefix (emitCondition cx field s).2)) := by
  unfold fieldCode
  rw [hcx]
  dsimp only
  rw [hcond]

end Field

def letCode (cx : EmitContext) (binding : Let) : CodeTable := fun s =>
  (s.exprCode cx binding.value).seq
    (plain (.copySlot (s.emitExpr cx binding.value).1 (s.emitExpr cx binding.value).2.slot))

def nextCode (cx : EmitContext) (loopPrefix : String) (nxt : NextStmt) : CodeTable := fun s =>
  (s.exprCode cx nxt.value).seq
    (plain (.copySlot (s.emitExpr cx nxt.value).1 (nextTarget loopPrefix nxt s)))

/-- The initialisers run once; the condition, the body and the updates are the loop. -/
def loopCode (cx : EmitContext) (inlineCode : String → Message → CodeTable) (namePrefix : String)
    (lp : Loop) : CodeTable := fun s =>
  let loopPrefix := joinName namePrefix lp.name
  let inits := (lp.carries.foldl (emitCarry cx loopPrefix) (∅, s)).2
  let start := loopBodyStart cx namePrefix lp s
  let body := lp.body.foldl (fun s field => emitFieldBytecode cx field loopPrefix s) start
  (codeAlong (emitCarry cx loopPrefix) (fun carry acc => acc.2.exprCode cx carry.init)
      lp.carries (∅, s)).seq
    (.loop (inits.exprCode cx lp.condition) (inits.emitExpr cx lp.condition).1
      ((codeAlong (fun s field => emitFieldBytecode cx field loopPrefix s)
          (fun field => fieldCode cx inlineCode field loopPrefix) lp.body start).seq
        (codeAlong (emitNext cx loopPrefix) (nextCode cx loopPrefix) lp.nexts body)))

/-- An arm of a match: its constant, its emitter and its code. -/
abbrev ArmCode := Option Int64 × Emitter × CodeTable

def ArmCode.emitter (arm : ArmCode) : Option Int64 × Emitter := (arm.1, arm.2.1)

/-- Each arm with a constant is chosen by its comparison; what is chosen after
all of them is the default arm seen last. -/
def armsCode (tagSlot : Nat) : List ArmCode → ArmsState → Option CodeTable → Code
  | [], acc, defaultCode => (defaultCode.map (· acc.state)).getD .nil
  | (some cv, body, code) :: arms, acc, defaultCode =>
      ((plain (.loadConst cv.toUInt64 acc.state.slot)).seq
          (plain (.binOp .eq tagSlot acc.state.slot (acc.state.slot + 1)))).seq
        (.choose (acc.state.slot + 1) (code (armBodyStart tagSlot cv acc.state))
          (armsCode tagSlot arms (emitArm tagSlot acc (some cv, body)) defaultCode))
  | (none, body, code) :: arms, acc, _ =>
      armsCode tagSlot arms (emitArm tagSlot acc (none, body)) (some code)

def matchCode (cx : EmitContext) (tag : Expr) (arms : List ArmCode) : CodeTable := fun s =>
  (s.exprCode cx tag).seq
    (armsCode (s.emitExpr cx tag).1 arms ⟨[], none, (s.emitExpr cx tag).2⟩ none)

/-- An item of a body: its order, its emitter and its code. -/
abbrev ItemCode := Nat × Emitter × CodeTable

def ItemCode.emitter (item : ItemCode) : Nat × Emitter := (item.1, item.2.1)

def itemsCode (items : List ItemCode) : CodeTable :=
  codeAlong (fun s item => item.2.1 s) (fun item => item.2.2)
    (items.insertionSort fun a b => a.1 ≤ b.1)

/-- The items of a body, with those of its matches given. -/
def bodyCodes (cx : EmitContext) (inlineCode : String → Message → CodeTable)
    (namePrefix : String) (fields : List Field) (lets : List Let) (loops : List Loop)
    (validates : List Validate) (matchCodes : List ItemCode) : List ItemCode :=
  fields.map (fun f =>
      (f.order, emitFieldBytecode cx f namePrefix, fieldCode cx inlineCode f namePrefix)) ++
    lets.map (fun l => (l.order, emitLet cx namePrefix l, letCode cx l)) ++
    validates.map (fun v => (v.order, emitValidate cx v, validateCode cx v)) ++
    loops.map (fun lp =>
      (lp.order, emitLoop cx namePrefix lp, loopCode cx inlineCode namePrefix lp)) ++
    matchCodes

mutual

def matchStmtCode (cx : EmitContext) (inlineCode : String → Message → CodeTable)
    (namePrefix : String) : Match → CodeTable
  | .mk tag arms _ => matchCode cx tag (armCodes cx inlineCode namePrefix arms)

def armCodes (cx : EmitContext) (inlineCode : String → Message → CodeTable)
    (namePrefix : String) : List MatchArm → List ArmCode
  | [] => []
  | arm :: arms => armCode cx inlineCode namePrefix arm :: armCodes cx inlineCode namePrefix arms

def armCode (cx : EmitContext) (inlineCode : String → Message → CodeTable)
    (namePrefix : String) : MatchArm → ArmCode
  | .mk case fields lets loops validates matches_ =>
      (case, emitBodyBlock cx namePrefix fields lets loops validates
          (matchItems cx namePrefix matches_),
        itemsCode (bodyCodes cx inlineCode namePrefix fields lets loops validates
          (matchCodes cx inlineCode namePrefix matches_)))

def matchCodes (cx : EmitContext) (inlineCode : String → Message → CodeTable)
    (namePrefix : String) : List Match → List ItemCode
  | [] => []
  | m :: ms => (m.order, matchEmitter cx namePrefix m, matchStmtCode cx inlineCode namePrefix m) ::
      matchCodes cx inlineCode namePrefix ms

end

def messageBodyCode (cx : EmitContext) (inlineCode : String → Message → CodeTable)
    (namePrefix : String) (msg : Message) : CodeTable :=
  itemsCode (bodyCodes cx inlineCode namePrefix msg.fields msg.lets msg.loops msg.validates
    (matchCodes cx inlineCode namePrefix msg.matches_))

/-- The code of a message with `remaining` levels of inlining below it. Beyond
the last level no message is inlined. -/
def messageCode (messages : List Message) (currentOffsetSlot : Nat) (littleEndian : Bool) :
    Nat → String → Message → CodeTable
  | 0 => messageBodyCode ⟨messages, currentOffsetSlot, littleEndian, none⟩ fun _ _ _ => .nil
  | remaining + 1 => messageBodyCode ⟨messages, currentOffsetSlot, littleEndian,
      some (messageEmitter messages currentOffsetSlot littleEndian remaining)⟩
        (messageCode messages currentOffsetSlot littleEndian remaining)

/-- The code of a protocol, from the initial offset to the final return. -/
def protocolCode (proto : Protocol) : Code :=
  let root := match proto.messages[rootMessageIndex proto]? with
    | none => .nil
    | some msg =>
        messageCode proto.messages currentOffsetSlot (proto.endian == "little") (maxRefDepth + 1)
          "" msg
          { varSlots := (∅ : SlotMap).insert "__current_offset" currentOffsetSlot
            fieldMap := ∅
            instructions := [.loadConst 0 currentOffsetSlot]
            slot := 1 }
  ((plain (.loadConst 0 currentOffsetSlot)).seq root).seq (plain .ret)

end NFdl
