import NFdl.Runtime.Eval
import NFdl.Lib.Code
import Mathlib.Data.List.AList

/-!
# Compiling expressions

`emitExprToSlot` is the compiler's recursion: it pushes instructions, patches
the jumps of a ternary or a coalesce afterwards, and returns the result slot and
the next free slot. `exprBlock` is the code it adds in one piece, with the jump
targets already in place; the two are proved equal.
-/

namespace NFdl

/-- The compiler's tables from names to slots. -/
abbrev SlotMap := AList fun _ : String => Nat

/-- Overwrite the target of the conditional jump at `idx`. -/
def patchJumpIfZero (instructions : List Instruction) (idx target : Nat) : List Instruction :=
  instructions.modify idx fun
    | .jumpIfZero condSlot _ => .jumpIfZero condSlot target
    | instr => instr

/-- Overwrite the target of the jump at `idx`. -/
def patchJump (instructions : List Instruction) (idx target : Nat) : List Instruction :=
  instructions.modify idx fun
    | .jump _ => .jump target
    | instr => instr

/-- The slot of a dotted reference, if one of its names is known. -/
def fieldSlot (varSlots : SlotMap) (base : Expr) (field : String) : Option Nat :=
  match base with
  | .ident name =>
      ((varSlots.lookup (name ++ "." ++ field)).or (varSlots.lookup field)).or
        (varSlots.lookup name)
  | _ => none

/-- Emit code for an expression; the result is the extended code, the result
slot and the next free slot. Slot numbers have no bound here; with the sixteen
bits of the compiler this is `emitExprToSlotChecked`. -/
def emitExprToSlot (expr : Expr) (varSlots : SlotMap) (instructions : List Instruction)
    (nextSlot currentOffsetSlot : Nat) : List Instruction × Nat × Nat :=
  match expr with
  | .int v => (instructions ++ [.loadConst v.toUInt64 nextSlot], nextSlot, nextSlot + 1)
  | .ident name =>
      if name = "__current_offset" then (instructions, currentOffsetSlot, nextSlot)
      else
        match varSlots.lookup name with
        | some s => (instructions, s, nextSlot)
        | none => (instructions ++ [.loadConst 0 nextSlot], nextSlot, nextSlot + 1)
  | .binary op left right =>
      let (instructions, lSlot, next1) :=
        emitExprToSlot left varSlots instructions nextSlot currentOffsetSlot
      let (instructions, rSlot, next2) :=
        emitExprToSlot right varSlots instructions next1 currentOffsetSlot
      let dst := next2
      (instructions ++ [.binOp op.toBytecode lSlot rSlot dst], dst, dst + 1)
  | .unary op expr =>
      let (instructions, valSlot, next1) :=
        emitExprToSlot expr varSlots instructions nextSlot currentOffsetSlot
      let dst := next1
      (instructions ++ [.unaryOp op.toBytecode valSlot dst], dst, dst + 1)
  | .ternary cond thenBranch elseBranch =>
      let (instructions, cSlot, n1) :=
        emitExprToSlot cond varSlots instructions nextSlot currentOffsetSlot
      -- The destination is not reserved: both branches allocate from `dst` on.
      let dst := n1
      let jmpToElseIdx := instructions.length
      let instructions := instructions ++ [.jumpIfZero cSlot 0]
      let (instructions, tSlot, n2) :=
        emitExprToSlot thenBranch varSlots instructions dst currentOffsetSlot
      let afterThen := n2
      let instructions := instructions ++ [.copySlot tSlot dst]
      let jmpToEndIdx := instructions.length
      let instructions := instructions ++ [.jump 0]
      let elseIp := asU16 instructions.length
      let instructions := patchJumpIfZero instructions jmpToElseIdx elseIp
      let (instructions, eSlot, n3) :=
        emitExprToSlot elseBranch varSlots instructions afterThen currentOffsetSlot
      let instructions := instructions ++ [.copySlot eSlot dst]
      let endIp := asU16 instructions.length
      (patchJump instructions jmpToEndIdx endIp, dst, n3)
  | .coalesce value default =>
      let (instructions, vSlot, n1) :=
        emitExprToSlot value varSlots instructions nextSlot currentOffsetSlot
      let dst := n1
      let jmpToDefaultIdx := instructions.length
      let instructions := instructions ++ [.jumpIfZero vSlot 0]
      let instructions := instructions ++ [.copySlot vSlot dst]
      let jmpToEndIdx := instructions.length
      let instructions := instructions ++ [.jump 0]
      let defaultIp := asU16 instructions.length
      let instructions := patchJumpIfZero instructions jmpToDefaultIdx defaultIp
      let (instructions, dSlot, n2) :=
        emitExprToSlot default varSlots instructions dst currentOffsetSlot
      let instructions := instructions ++ [.copySlot dSlot dst]
      let endIp := asU16 instructions.length
      (patchJump instructions jmpToEndIdx endIp, dst, n2)
  | .call _ _ => (instructions ++ [.loadConst 0 nextSlot], nextSlot, nextSlot + 1)
  | .tuple _ => (instructions ++ [.loadConst 0 nextSlot], nextSlot, nextSlot + 1)
  | .field base field =>
      match fieldSlot varSlots base field with
      | some s => (instructions, s, nextSlot)
      | none => (instructions ++ [.loadConst 0 nextSlot], nextSlot, nextSlot + 1)
  | .str _ => (instructions ++ [.loadConst 0 nextSlot], nextSlot, nextSlot + 1)

/-- The slot after `slot`. Slots are numbered in sixteen bits, and the addition
has no result where an overflow-checked build panics. -/
def succSlot (slot : Nat) : Option Nat := if slot + 1 ≤ u16Max then some (slot + 1) else none

/-- `emitExprToSlot` with slots numbered in sixteen bits. -/
def emitExprToSlotChecked (expr : Expr) (varSlots : SlotMap) (instructions : List Instruction)
    (nextSlot currentOffsetSlot : Nat) : Option (List Instruction × Nat × Nat) :=
  match expr with
  | .int v => do
      let next ← succSlot nextSlot
      some (instructions ++ [.loadConst v.toUInt64 nextSlot], nextSlot, next)
  | .ident name =>
      if name = "__current_offset" then some (instructions, currentOffsetSlot, nextSlot)
      else
        match varSlots.lookup name with
        | some s => some (instructions, s, nextSlot)
        | none => do
            let next ← succSlot nextSlot
            some (instructions ++ [.loadConst 0 nextSlot], nextSlot, next)
  | .binary op left right => do
      let (instructions, lSlot, next1) ←
        emitExprToSlotChecked left varSlots instructions nextSlot currentOffsetSlot
      let (instructions, rSlot, next2) ←
        emitExprToSlotChecked right varSlots instructions next1 currentOffsetSlot
      let dst := next2
      let next ← succSlot dst
      some (instructions ++ [.binOp op.toBytecode lSlot rSlot dst], dst, next)
  | .unary op expr => do
      let (instructions, valSlot, next1) ←
        emitExprToSlotChecked expr varSlots instructions nextSlot currentOffsetSlot
      let dst := next1
      let next ← succSlot dst
      some (instructions ++ [.unaryOp op.toBytecode valSlot dst], dst, next)
  | .ternary cond thenBranch elseBranch => do
      let (instructions, cSlot, n1) ←
        emitExprToSlotChecked cond varSlots instructions nextSlot currentOffsetSlot
      let dst := n1
      let jmpToElseIdx := instructions.length
      let instructions := instructions ++ [.jumpIfZero cSlot 0]
      let (instructions, tSlot, n2) ←
        emitExprToSlotChecked thenBranch varSlots instructions dst currentOffsetSlot
      let afterThen := n2
      let instructions := instructions ++ [.copySlot tSlot dst]
      let jmpToEndIdx := instructions.length
      let instructions := instructions ++ [.jump 0]
      let elseIp := asU16 instructions.length
      let instructions := patchJumpIfZero instructions jmpToElseIdx elseIp
      let (instructions, eSlot, n3) ←
        emitExprToSlotChecked elseBranch varSlots instructions afterThen currentOffsetSlot
      let instructions := instructions ++ [.copySlot eSlot dst]
      let endIp := asU16 instructions.length
      some (patchJump instructions jmpToEndIdx endIp, dst, n3)
  | .coalesce value default => do
      let (instructions, vSlot, n1) ←
        emitExprToSlotChecked value varSlots instructions nextSlot currentOffsetSlot
      let dst := n1
      let jmpToDefaultIdx := instructions.length
      let instructions := instructions ++ [.jumpIfZero vSlot 0]
      let instructions := instructions ++ [.copySlot vSlot dst]
      let jmpToEndIdx := instructions.length
      let instructions := instructions ++ [.jump 0]
      let defaultIp := asU16 instructions.length
      let instructions := patchJumpIfZero instructions jmpToDefaultIdx defaultIp
      let (instructions, dSlot, n2) ←
        emitExprToSlotChecked default varSlots instructions dst currentOffsetSlot
      let instructions := instructions ++ [.copySlot dSlot dst]
      let endIp := asU16 instructions.length
      some (patchJump instructions jmpToEndIdx endIp, dst, n2)
  | .field base field =>
      match fieldSlot varSlots base field with
      | some s => some (instructions, s, nextSlot)
      | none => do
          let next ← succSlot nextSlot
          some (instructions ++ [.loadConst 0 nextSlot], nextSlot, next)
  | .call _ _ | .tuple _ | .str _ => do
      let next ← succSlot nextSlot
      some (instructions ++ [.loadConst 0 nextSlot], nextSlot, next)

section Layout

variable (varSlots : SlotMap)

/-- How many slots the code of an expression allocates. -/
def slotCount : Expr → Nat
  | .ident name =>
      if name = "__current_offset" then 0
      else match varSlots.lookup name with
        | some _ => 0
        | none => 1
  | .binary _ left right => slotCount left + slotCount right + 1
  | .unary _ expr => slotCount expr + 1
  | .ternary cond thenBranch elseBranch =>
      slotCount cond + slotCount thenBranch + slotCount elseBranch
  | .coalesce value default => slotCount value + slotCount default
  | .field base field =>
      match fieldSlot varSlots base field with
      | some _ => 0
      | none => 1
  | _ => 1

/-- The slot that holds the value of an expression compiled from `next`. -/
def resultSlot (offset next : Nat) : Expr → Nat
  | .ident name =>
      if name = "__current_offset" then offset
      else (varSlots.lookup name).getD next
  | .binary _ left right => next + slotCount varSlots left + slotCount varSlots right
  | .unary _ expr => next + slotCount varSlots expr
  | .ternary cond _ _ => next + slotCount varSlots cond
  | .coalesce value _ => next + slotCount varSlots value
  | .field base field => (fieldSlot varSlots base field).getD next
  | _ => next

section ResultSlot

variable (offset next : Nat)

@[simp] theorem resultSlot_binary (op : BinOp) (l r : Expr) :
    resultSlot varSlots offset next (.binary op l r) =
      next + slotCount varSlots l + slotCount varSlots r := rfl

@[simp] theorem resultSlot_unary (op : UnaryOp) (e : Expr) :
    resultSlot varSlots offset next (.unary op e) = next + slotCount varSlots e := rfl

@[simp] theorem resultSlot_ternary (c t e : Expr) :
    resultSlot varSlots offset next (.ternary c t e) = next + slotCount varSlots c := rfl

@[simp] theorem resultSlot_coalesce (v d : Expr) :
    resultSlot varSlots offset next (.coalesce v d) = next + slotCount varSlots v := rfl

end ResultSlot

/-- How many instructions the code of an expression has. -/
def codeLength : Expr → Nat
  | .ident name =>
      if name = "__current_offset" then 0
      else match varSlots.lookup name with
        | some _ => 0
        | none => 1
  | .binary _ left right => codeLength left + codeLength right + 1
  | .unary _ expr => codeLength expr + 1
  | .ternary cond thenBranch elseBranch =>
      codeLength cond + codeLength thenBranch + codeLength elseBranch + 4
  | .coalesce value default => codeLength value + codeLength default + 4
  | .field base field =>
      match fieldSlot varSlots base field with
      | some _ => 0
      | none => 1
  | _ => 1

/-- The code of an expression that starts at address `base`, with results stored
from slot `next` on. -/
def exprBlock (offset : Nat) : Expr → Nat → Nat → List Instruction
  | .int v, _, next => [.loadConst v.toUInt64 next]
  | .ident name, _, next =>
      if name = "__current_offset" then []
      else match varSlots.lookup name with
        | some _ => []
        | none => [.loadConst 0 next]
  | .binary op left right, base, next =>
      exprBlock offset left base next ++
        exprBlock offset right (base + codeLength varSlots left)
          (next + slotCount varSlots left) ++
        [.binOp op.toBytecode (resultSlot varSlots offset next left)
          (resultSlot varSlots offset (next + slotCount varSlots left) right)
          (next + slotCount varSlots left + slotCount varSlots right)]
  | .unary op expr, base, next =>
      exprBlock offset expr base next ++
        [.unaryOp op.toBytecode (resultSlot varSlots offset next expr)
          (next + slotCount varSlots expr)]
  | .ternary cond thenBranch elseBranch, base, next =>
      let dst := next + slotCount varSlots cond
      let thenBase := base + codeLength varSlots cond + 1
      let elseBase := base + codeLength varSlots cond + codeLength varSlots thenBranch + 3
      let after := base + codeLength varSlots cond + codeLength varSlots thenBranch +
        codeLength varSlots elseBranch + 4
      exprBlock offset cond base next ++
        [.jumpIfZero (resultSlot varSlots offset next cond) (asU16 elseBase)] ++
        exprBlock offset thenBranch thenBase dst ++
        [.copySlot (resultSlot varSlots offset dst thenBranch) dst, .jump (asU16 after)] ++
        exprBlock offset elseBranch elseBase (dst + slotCount varSlots thenBranch) ++
        [.copySlot (resultSlot varSlots offset (dst + slotCount varSlots thenBranch) elseBranch)
          dst]
  | .coalesce value default, base, next =>
      let dst := next + slotCount varSlots value
      let defaultBase := base + codeLength varSlots value + 3
      let after := base + codeLength varSlots value + codeLength varSlots default + 4
      exprBlock offset value base next ++
        [.jumpIfZero (resultSlot varSlots offset next value) (asU16 defaultBase),
          .copySlot (resultSlot varSlots offset next value) dst, .jump (asU16 after)] ++
        exprBlock offset default defaultBase dst ++
        [.copySlot (resultSlot varSlots offset dst default) dst]
  | .field base field, _, next =>
      match fieldSlot varSlots base field with
      | some _ => []
      | none => [.loadConst 0 next]
  | .call _ _, _, next => [.loadConst 0 next]
  | .tuple _, _, next => [.loadConst 0 next]
  | .str _, _, next => [.loadConst 0 next]

theorem exprBlock_length (offset : Nat) (e : Expr) (base next : Nat) :
    (exprBlock varSlots offset e base next).length = codeLength varSlots e := by
  induction e generalizing base next with
  | ident name =>
      unfold exprBlock codeLength
      split
      · rfl
      · split <;> rfl
  | binary op left right ihl ihr => simp [exprBlock, codeLength, ihl, ihr, Nat.add_assoc]
  | unary op expr ih => simp [exprBlock, codeLength, ih]
  | ternary cond thenBranch elseBranch ihc iht ihe =>
      simp only [exprBlock, codeLength, List.length_append, List.length_cons, List.length_nil,
        ihc, iht, ihe]
      omega
  | coalesce value default ihv ihd =>
      simp only [exprBlock, codeLength, List.length_append, List.length_cons, List.length_nil,
        ihv, ihd]
      omega
  | field b name _ =>
      unfold exprBlock codeLength
      split <;> rfl
  | _ => rfl

end Layout

/-- Patching reaches the conditional jump that was pushed at that index. -/
theorem patchJumpIfZero_at {before : List Instruction} (after : List Instruction)
    (condSlot old target : Nat) {idx : Nat} (h : idx = before.length) :
    patchJumpIfZero (before ++ [.jumpIfZero condSlot old] ++ after) idx target =
      before ++ [.jumpIfZero condSlot target] ++ after := by
  subst h
  simpa [patchJumpIfZero] using modify_append_cons before after (.jumpIfZero condSlot old) _

theorem patchJump_at {before : List Instruction} (after : List Instruction)
    (old target : Nat) {idx : Nat} (h : idx = before.length) :
    patchJump (before ++ [.jump old] ++ after) idx target =
      before ++ [.jump target] ++ after := by
  subst h
  simpa [patchJump] using modify_append_cons before after (.jump old) _

/-- The compiler's recursion adds exactly the block of the expression. -/
theorem emitExprToSlot_eq (e : Expr) (varSlots : SlotMap) (instructions : List Instruction)
    (next offset : Nat) :
    emitExprToSlot e varSlots instructions next offset =
      (instructions ++ exprBlock varSlots offset e instructions.length next,
        resultSlot varSlots offset next e, next + slotCount varSlots e) := by
  induction e generalizing instructions next with
  | ident name =>
      by_cases hname : name = "__current_offset"
      · simp [emitExprToSlot, exprBlock, resultSlot, slotCount, hname]
      · cases hslot : varSlots.lookup name <;>
          simp [emitExprToSlot, exprBlock, resultSlot, slotCount, hname, hslot]
  | binary op left right ihl ihr =>
      simp only [emitExprToSlot, ihl, ihr, exprBlock, resultSlot_binary, slotCount,
        List.length_append, exprBlock_length, List.append_assoc, Nat.add_assoc]
  | unary op expr ih =>
      simp only [emitExprToSlot, ih, exprBlock, resultSlot_unary, slotCount, List.append_assoc,
        Nat.add_assoc]
  | ternary cond thenBranch elseBranch ihc iht ihe =>
      -- Both placeholder jumps are patched where they were pushed.
      have hpatch : ∀ (a b : List Instruction) (c t u ip : Nat), patchJumpIfZero
          (a ++ [Instruction.jumpIfZero c 0] ++ b ++ [Instruction.copySlot t u] ++
            [Instruction.jump 0]) a.length ip =
          a ++ [Instruction.jumpIfZero c ip] ++ b ++ [Instruction.copySlot t u] ++
            [Instruction.jump 0] := by
        intro a b c t u ip
        simpa using patchJumpIfZero_at (b ++ [.copySlot t u, .jump 0]) c 0 ip rfl
      simp only [emitExprToSlot, ihc, iht, hpatch, ihe]
      rw [List.append_assoc _ (exprBlock varSlots offset elseBranch _ _),
        patchJump_at _ _ _ (by simp)]
      simp only [exprBlock, resultSlot_ternary, slotCount, List.length_append, List.length_cons,
        List.length_nil, exprBlock_length, List.append_assoc, Nat.add_assoc, Nat.reduceAdd,
        List.cons_append, List.nil_append]
  | coalesce value default ihv ihd =>
      have hpatch : ∀ (a : List Instruction) (c t u ip : Nat), patchJumpIfZero
          (a ++ [Instruction.jumpIfZero c 0] ++ [Instruction.copySlot t u] ++
            [Instruction.jump 0]) a.length ip =
          a ++ [Instruction.jumpIfZero c ip] ++ [Instruction.copySlot t u] ++
            [Instruction.jump 0] := by
        intro a c t u ip
        simpa using patchJumpIfZero_at [.copySlot t u, .jump 0] c 0 ip rfl
      simp only [emitExprToSlot, ihv, hpatch, ihd]
      rw [List.append_assoc _ (exprBlock varSlots offset default _ _),
        patchJump_at _ _ _ (by simp)]
      simp only [exprBlock, resultSlot_coalesce, slotCount, List.length_append, List.length_cons,
        List.length_nil, exprBlock_length, List.append_assoc, Nat.add_assoc, Nat.reduceAdd,
        List.cons_append, List.nil_append]
  | field b name _ =>
      cases hslot : fieldSlot varSlots b name <;>
        simp [emitExprToSlot, exprBlock, resultSlot, slotCount, hslot]
  | _ => rfl

section Checked

variable {varSlots : SlotMap} {offset : Nat}

/-- A step that has a result if `p` holds, before steps that have one if `q` does. -/
theorem bind_of_fits {α β : Type*} {p q : Prop} [Decidable p] [Decidable q] {a : α} {b : β}
    {f : α → Option β} (hqp : q → p) (hf : p → f a = if q then some b else none) :
    (if p then some a else none).bind f = if q then some b else none := by
  by_cases hp : p
  · rw [if_pos hp, Option.bind_some, hf hp]
  · rw [if_neg hp, if_neg fun hq => hp (hqp hq), Option.bind_none]

theorem succSlot_bind {α : Type*} {slot last : Nat} {a : α} {f : Nat → Option α}
    (hlast : last = slot + 1) (h : f (slot + 1) = some a) :
    (succSlot slot).bind f = if last ≤ u16Max then some a else none := by
  subst hlast
  exact bind_of_fits id fun hsucc => h.trans (if_pos hsucc).symm

/-- With sixteen bits the compiler has a result where the slot behind all that it allocates
fits, and there the sixteen bits make no difference. -/
theorem emitExprToSlotChecked_eq {e : Expr} {instructions : List Instruction} {next : Nat}
    (hnext : next ≤ u16Max) :
    emitExprToSlotChecked e varSlots instructions next offset =
      if next + slotCount varSlots e ≤ u16Max then
        some (emitExprToSlot e varSlots instructions next offset) else none := by
  induction e generalizing instructions next with
  | ident name =>
      by_cases hname : name = "__current_offset"
      · simp [emitExprToSlotChecked, emitExprToSlot, slotCount, hname, hnext]
      · cases hslot : varSlots.lookup name with
        | some s => simp [emitExprToSlotChecked, emitExprToSlot, slotCount, hname, hslot, hnext]
        | none =>
            simp only [emitExprToSlotChecked, emitExprToSlot, slotCount, hname, hslot]
            exact succSlot_bind rfl rfl
  | binary op left right ihl ihr =>
      simp only [emitExprToSlotChecked, emitExprToSlot, slotCount, Option.bind_eq_bind, ihl hnext]
      refine bind_of_fits (fun h => by omega) fun hl => ?_
      simp only [emitExprToSlot_eq left, ihr hl]
      refine bind_of_fits (fun h => by omega) fun hr => ?_
      simp only [emitExprToSlot_eq right]
      exact succSlot_bind (by omega) rfl
  | unary op expr ih =>
      simp only [emitExprToSlotChecked, emitExprToSlot, slotCount, Option.bind_eq_bind, ih hnext]
      refine bind_of_fits (fun h => by omega) fun hv => ?_
      simp only [emitExprToSlot_eq expr]
      exact succSlot_bind rfl rfl
  | ternary cond thenBranch elseBranch ihc iht ihe =>
      simp only [emitExprToSlotChecked, emitExprToSlot, slotCount, Option.bind_eq_bind, ihc hnext]
      refine bind_of_fits (fun h => by omega) fun hc => ?_
      simp only [emitExprToSlot_eq cond, iht hc]
      refine bind_of_fits (fun h => by omega) fun ht => ?_
      simp only [emitExprToSlot_eq thenBranch, ihe ht]
      exact bind_of_fits (fun h => by omega) fun he => (if_pos (by omega)).symm
  | coalesce value default ihv ihd =>
      simp only [emitExprToSlotChecked, emitExprToSlot, slotCount, Option.bind_eq_bind, ihv hnext]
      refine bind_of_fits (fun h => by omega) fun hv => ?_
      simp only [emitExprToSlot_eq value, ihd hv]
      exact bind_of_fits (fun h => by omega) fun hd => (if_pos (by omega)).symm
  | field b name _ =>
      cases hslot : fieldSlot varSlots b name with
      | some s => simp [emitExprToSlotChecked, emitExprToSlot, slotCount, hslot, hnext]
      | none =>
          simp only [emitExprToSlotChecked, emitExprToSlot, slotCount, hslot]
          exact succSlot_bind rfl rfl
  | _ => exact succSlot_bind rfl rfl

theorem emitExprToSlotChecked_of_fits {e : Expr} {instructions : List Instruction} {next : Nat}
    (h : next + slotCount varSlots e ≤ u16Max) :
    emitExprToSlotChecked e varSlots instructions next offset =
      some (emitExprToSlot e varSlots instructions next offset) := by
  rw [emitExprToSlotChecked_eq (Nat.le_trans (Nat.le_add_right ..) h), if_pos h]

/-- With sixteen bits the compiler succeeds exactly if the slot behind all that it
allocates fits, and its result is the one without a bound. -/
theorem emitExprToSlotChecked_eq_some_iff {e : Expr} {instructions : List Instruction}
    {next : Nat} (hnext : next ≤ u16Max) {result : List Instruction × Nat × Nat} :
    emitExprToSlotChecked e varSlots instructions next offset = some result ↔
      next + slotCount varSlots e ≤ u16Max ∧
        emitExprToSlot e varSlots instructions next offset = result := by
  rw [emitExprToSlotChecked_eq hnext, Option.ite_none_right_eq_some, Option.some.injEq]

end Checked

end NFdl
