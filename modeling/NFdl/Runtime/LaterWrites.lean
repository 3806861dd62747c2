import NFdl.Runtime.Occurrence

/-!
# What later code writes

The code that is emitted behind a place writes the slots that were still free there and the
offset. The slots that were taken before are only written by copies, which is how a `next`
statement assigns a name. So a slot keeps its value as long as control stays behind the place.
-/

namespace NFdl

/-- An instruction writes slots from `n` on or the offset, unless it copies. -/
def Instruction.WritesFrom (offset n : Nat) (instr : Instruction) : Prop :=
  ∀ dst, instr.dest = some dst → dst = offset ∨ n ≤ dst ∨ ∃ src, instr = .copySlot src dst

namespace Instruction.WritesFrom

variable {offset n n' dst : Nat} {instr : Instruction}

theorem mono (h : instr.WritesFrom offset n) (hle : n' ≤ n) : instr.WritesFrom offset n' :=
  fun dst hdst => (h dst hdst).imp_right (.imp_left (Nat.le_trans hle))

theorem of_none (h : instr.dest = none) : instr.WritesFrom offset n :=
  fun _ hdst => nomatch h.symm.trans hdst

theorem of_fresh (h : instr.dest = some dst) (hle : n ≤ dst) : instr.WritesFrom offset n :=
  fun _ hdst => .inr (.inl (Option.some.inj (h.symm.trans hdst) ▸ hle))

theorem of_copy (src : Nat) : (Instruction.copySlot src dst).WritesFrom offset n :=
  fun _ hdst => .inr (.inr ⟨src, by rw [Option.some.inj hdst]⟩)

theorem of_offset : (Instruction.updateOffset offset).WritesFrom offset n :=
  fun _ hdst => .inl (Option.some.inj hdst).symm

end Instruction.WritesFrom

/-- All instructions of the code write slots from `n` on or the offset, unless they copy. -/
def Code.WritesFrom (offset n : Nat) (c : Code) : Prop :=
  c.All fun i => i.1.WritesFrom offset n

namespace Code.WritesFrom

variable {offset n n' : Nat} {a b c : Code}

theorem mono (h : c.WritesFrom offset n) (hle : n' ≤ n) : c.WritesFrom offset n' :=
  Structured.All.mono h fun _ hi => Instruction.WritesFrom.mono hi hle

theorem seq (ha : a.WritesFrom offset n) (hb : b.WritesFrom offset n) :
    Code.WritesFrom offset n (a.seq b) := ⟨ha, hb⟩

theorem nil : Code.WritesFrom offset n .nil := trivial

theorem readThen {cx : EmitContext} {read : Instruction} (hjump : ¬ read.IsJump) {dst : Nat}
    (hdst : read.dest = some dst) (hle : n ≤ dst) :
    (NFdl.readThen cx read hjump).WritesFrom cx.currentOffsetSlot n :=
  ⟨.of_fresh hdst hle, .of_offset⟩

theorem of_stored (h : c.WritesFrom offset n) {base : Nat} {instr : Instruction}
    (hinstr : instr ∈ c.stored base) : instr.WritesFrom offset n := by
  obtain ⟨p, hp, rfl⟩ | ⟨t, rfl⟩ | ⟨cond, t, rfl⟩ := Structured.All.of_mem h hinstr
  · exact hp
  · exact .of_none rfl
  · exact .of_none rfl

end Code.WritesFrom

/-- The instruction computes a value and stores it in a slot from `n` on. -/
def Instruction.ComputesFrom (n : Nat) : Instruction → Prop
  | .loadConst _ dst | .binOp _ _ _ dst | .unaryOp _ _ dst | .copySlot _ dst => n ≤ dst
  | _ => False

theorem Instruction.ComputesFrom.dest {n : Nat} {instr : Instruction} (h : instr.ComputesFrom n) :
    ∃ dst, instr.dest = some dst ∧ n ≤ dst := by
  cases instr with
  | loadConst _ dst => exact ⟨dst, rfl, h⟩
  | binOp _ _ _ dst => exact ⟨dst, rfl, h⟩
  | unaryOp _ _ dst => exact ⟨dst, rfl, h⟩
  | copySlot _ dst => exact ⟨dst, rfl, h⟩
  | _ => exact h.elim

/-- All instructions of the code compute values and store them in slots from `n` on. -/
def Code.ComputesFrom (n : Nat) (c : Code) : Prop := c.All fun i => i.1.ComputesFrom n

namespace Code.ComputesFrom

variable {n n' : Nat} {c : Code}

theorem mono (h : c.ComputesFrom n) (hle : n' ≤ n) : c.ComputesFrom n' := by
  refine Structured.All.mono h fun i hi => ?_
  obtain ⟨instr, hjump⟩ := i
  cases instr with
  | loadConst _ dst => exact Nat.le_trans hle hi
  | binOp _ _ _ dst => exact Nat.le_trans hle hi
  | unaryOp _ _ dst => exact Nat.le_trans hle hi
  | copySlot _ dst => exact Nat.le_trans hle hi
  | _ => exact hi.elim

theorem writesFrom (h : c.ComputesFrom n) (offset : Nat) : c.WritesFrom offset n := by
  refine Structured.All.mono h fun i hi => ?_
  obtain ⟨dst, hdst, hle⟩ := hi.dest
  exact .of_fresh hdst hle

end Code.ComputesFrom

/-- The code of an expression computes into the slots that the expression allocates, and that
of a ternary or coalesce into the first of them. -/
theorem exprCode_computes (varSlots : SlotMap) (offset : Nat) (e : Expr) (next : Nat) :
    (exprCode varSlots offset e next).ComputesFrom next := by
  have hload : ∀ v next, Code.ComputesFrom next (plain (.loadConst v next)) :=
    fun _ next => Nat.le_refl next
  induction e generalizing next with
  | ident name =>
      unfold exprCode
      split
      · trivial
      · split
        · trivial
        · exact hload 0 next
  | binary op left right ihl ihr =>
      refine ⟨⟨ihl next, (ihr _).mono (Nat.le_add_right ..)⟩, ?_⟩
      exact Nat.le_trans (Nat.le_add_right ..) (Nat.le_add_right ..)
  | unary op expr ih => exact ⟨ih next, Nat.le_add_right ..⟩
  | ternary cond thenBranch elseBranch ihc iht ihe =>
      have hcopy : ∀ src, Code.ComputesFrom next
          (plain (.copySlot src (next + slotCount varSlots cond))) := fun _ => Nat.le_add_right ..
      exact ⟨ihc next, ⟨(iht _).mono (Nat.le_add_right ..), hcopy _⟩,
        ⟨(ihe _).mono (by omega), hcopy _⟩⟩
  | coalesce value default ihv ihd =>
      have hcopy : ∀ src, Code.ComputesFrom next
          (plain (.copySlot src (next + slotCount varSlots value))) := fun _ => Nat.le_add_right ..
      exact ⟨ihv next, hcopy _, ⟨(ihd _).mono (Nat.le_add_right ..), hcopy _⟩⟩
  | field base name _ =>
      unfold exprCode
      split
      · trivial
      · exact hload 0 next
  | _ => exact hload _ next

/-- The code that an emitter adds writes the slots that are free where it starts. -/
def TableWrites (offset : Nat) (code : CodeTable) : Prop :=
  ∀ s, (code s).WritesFrom offset s.slot

theorem exprCode_tableWrites (cx : EmitContext) (offset : Nat) (e : Expr) :
    TableWrites offset (EmitState.exprCode · cx e) := fun s =>
  (exprCode_computes s.varSlots cx.currentOffsetSlot e s.slot).writesFrom offset

/-- Items that are emitted one after the other, each of which takes further slots only. -/
theorem codeAlong_writes {α σ : Type*} {offset : Nat} {emit : σ → α → σ} {code : α → σ → Code}
    (slotOf : σ → Nat) {as : List α}
    (h : ∀ a ∈ as, ∀ s, (code a s).WritesFrom offset (slotOf s) ∧ slotOf s ≤ slotOf (emit s a))
    (s : σ) : (codeAlong emit code as s).WritesFrom offset (slotOf s) := by
  induction as generalizing s with
  | nil => exact .nil
  | cons a as ih =>
      obtain ⟨hcode, hle⟩ := h a (List.mem_cons_self ..) s
      exact hcode.seq ((ih (fun a' hmem => h a' (List.mem_cons_of_mem _ hmem)) _).mono hle)

section Items

variable {cx : EmitContext} {inlineCode : String → Message → CodeTable}

/-- The code of referenced messages writes free slots. -/
def InlinesWrites (cx : EmitContext) (inlineCode : String → Message → CodeTable) : Prop :=
  ∀ namePrefix msg, TableWrites cx.currentOffsetSlot (inlineCode namePrefix msg)

theorem readCode_writes (hinline : InlinesWrites cx inlineCode) (field : Field)
    (namePrefix fullName : String) {readSlot : Nat} {s : EmitState} (hread : s.slot ≤ readSlot) :
    (readCode cx inlineCode field namePrefix fullName readSlot s).WritesFrom cx.currentOffsetSlot
      s.slot := by
  unfold readCode
  cases field.ty with
  | bytes len => exact (exprCode_tableWrites cx _ len s).seq (.readThen _ rfl hread)
  | messageRef refName =>
      dsimp only
      split
      · exact hinline _ _ s
      · exact .readThen _ rfl hread
  | _ => exact .readThen _ rfl hread

theorem validateCode_writes (cx : EmitContext) (v : Validate) :
    TableWrites cx.currentOffsetSlot (validateCode cx v) :=
  fun s => (exprCode_tableWrites cx _ v.expr s).seq (Instruction.WritesFrom.of_none rfl)

theorem fieldBodyCode_writes (hinline : InlinesWrites cx inlineCode)
    {inlineMessage : String → Message → Emitter}
    (hblocks : ∀ namePrefix msg, Emits (inlineMessage namePrefix msg)) (field : Field)
    (namePrefix : String) : TableWrites cx.currentOffsetSlot
      (fieldBodyCode cx inlineMessage inlineCode field namePrefix) := by
  intro s
  let start := registerField field (joinName namePrefix field.name) s
  have hread := (emitRead_emits cx hblocks field namePrefix (joinName namePrefix field.name) s.slot
    start).slot_le
  refine ((readCode_writes hinline field namePrefix _ (Nat.le_refl start.slot)).seq ?_).seq ?_
  · split
    · exact (validateCode_writes cx _ _).mono hread
    · exact .nil
  · split
    · exact .nil
    · exact Instruction.WritesFrom.of_none rfl

theorem emitCondition_slot_le (cx : EmitContext) (field : Field) (s : EmitState) :
    s.slot ≤ (emitCondition cx field s).2.slot := by
  unfold emitCondition
  cases field.conditional with
  | none => exact Nat.le_refl _
  | some cond => exact (@Emitted.expr [] s cx cond).slot_le

theorem fieldCode_writes (hinline : InlinesWrites cx inlineCode) (hblocks : InlinesBlocks cx)
    (field : Field) (namePrefix : String) :
    TableWrites cx.currentOffsetSlot (fieldCode cx inlineCode field namePrefix) := by
  intro s
  unfold fieldCode
  cases hmessage : cx.inlineMessage with
  | none => exact .readThen _ rfl (Nat.le_refl _)
  | some inlineMessage =>
      have hbody := fieldBodyCode_writes hinline (hblocks inlineMessage hmessage) field namePrefix
      cases hcond : field.conditional with
      | none => exact hbody s
      | some cond =>
          exact (exprCode_tableWrites cx _ cond s).seq
            ((hbody _).mono (emitCondition_slot_le cx field s))

theorem letCode_writes (cx : EmitContext) (l : Let) :
    TableWrites cx.currentOffsetSlot (letCode cx l) := fun s =>
  (exprCode_tableWrites cx _ l.value s).seq (Instruction.WritesFrom.of_copy _)

theorem nextCode_writes (cx : EmitContext) (loopPrefix : String) (nxt : NextStmt) :
    TableWrites cx.currentOffsetSlot (nextCode cx loopPrefix nxt) := fun s =>
  (exprCode_tableWrites cx _ nxt.value s).seq (Instruction.WritesFrom.of_copy _)

theorem loopBodyStart_emits (cx : EmitContext) (namePrefix : String) (lp : Loop) (s : EmitState) :
    s.slot ≤ (lp.carries.foldl (emitCarry cx (joinName namePrefix lp.name)) (∅, s)).2.slot ∧
      (lp.carries.foldl (emitCarry cx (joinName namePrefix lp.name)) (∅, s)).2.slot ≤
        (loopBodyStart cx namePrefix lp s).slot :=
  ⟨(emitCarries_emits cx (joinName namePrefix lp.name) lp.carries (∅, s)).slot_le,
    (@Emitted.expr [] _ cx lp.condition).slot_le⟩

theorem loopCode_writes (hinline : InlinesWrites cx inlineCode) (hblocks : InlinesBlocks cx)
    (namePrefix : String) (lp : Loop) :
    TableWrites cx.currentOffsetSlot (loopCode cx inlineCode namePrefix lp) := by
  intro s
  obtain ⟨hinits, hstart⟩ := loopBodyStart_emits cx namePrefix lp s
  have hbody := Emits.foldl (fun field => emitField_emits hblocks field
    (joinName namePrefix lp.name)) lp.body (loopBodyStart cx namePrefix lp s)
  refine Code.WritesFrom.seq ?_ ⟨?_, ?_, ?_⟩
  · exact codeAlong_writes (fun acc : SlotMap × EmitState => acc.2.slot) (fun carry _ acc =>
      ⟨exprCode_tableWrites cx _ carry.init acc.2, (emitCarry_emits cx _ acc carry).slot_le⟩) (∅, s)
  · exact (exprCode_tableWrites cx _ lp.condition _).mono hinits
  · refine (codeAlong_writes EmitState.slot (fun field _ t => ?_) _).mono
      (Nat.le_trans hinits hstart)
    exact ⟨fieldCode_writes hinline hblocks field _ t, (emitField_emits hblocks field _ t).slot_le⟩
  · refine (codeAlong_writes EmitState.slot (fun nxt _ t => ?_) _).mono
      (Nat.le_trans (Nat.le_trans hinits hstart) hbody.slot_le)
    exact ⟨nextCode_writes cx _ nxt t, (emitNext_emits cx _ nxt t).slot_le⟩

/-- An arm whose code writes free slots, and takes further ones only. -/
def ArmWrites (offset : Nat) (arm : ArmCode) : Prop :=
  TableWrites offset arm.2.2 ∧ Emits arm.2.1

theorem emitArm_slot_le (tagSlot : Nat) (acc : ArmsState) (arm : Option Int64 × Emitter)
    (h : Emits arm.2) : acc.state.slot ≤ (emitArm tagSlot acc arm).state.slot := by
  obtain ⟨case, body⟩ := arm
  cases case with
  | none => exact Nat.le_refl _
  | some cv =>
      exact Nat.le_trans (Nat.le_add_right _ 2) (h (armBodyStart tagSlot cv acc.state)).slot_le

theorem armsCode_writes {offset : Nat} (tagSlot : Nat) {arms : List ArmCode}
    (harms : ∀ arm ∈ arms, ArmWrites offset arm) (acc : ArmsState) {defaultCode : Option CodeTable}
    (hdefault : ∀ code ∈ defaultCode, TableWrites offset code) :
    (armsCode tagSlot arms acc defaultCode).WritesFrom offset acc.state.slot := by
  induction arms generalizing acc defaultCode with
  | nil =>
      unfold armsCode
      cases defaultCode with
      | none => exact .nil
      | some code => exact hdefault code rfl acc.state
  | cons arm arms ih =>
      obtain ⟨hcode, hemits⟩ := harms arm (List.mem_cons_self ..)
      have hrest := fun arm' hmem => harms arm' (List.mem_cons_of_mem _ hmem)
      obtain ⟨case, body, code⟩ := arm
      cases case with
      | none =>
          have hwaits : ∀ code' ∈ some code, TableWrites offset code' :=
            fun code' hmem => Option.some.inj hmem ▸ hcode
          exact ih hrest (emitArm tagSlot acc (none, body)) hwaits
      | some cv =>
          have hle := emitArm_slot_le tagSlot acc (some cv, body) hemits
          refine Code.WritesFrom.seq (.seq ?_ ?_) ⟨?_, (ih hrest _ hdefault).mono hle⟩
          · exact Instruction.WritesFrom.of_fresh rfl (Nat.le_refl _)
          · exact Instruction.WritesFrom.of_fresh rfl (Nat.le_succ _)
          · exact (hcode _).mono (Nat.le_add_right _ 2)

/-- An item whose code writes free slots, and takes further ones only. -/
def ItemWrites (offset : Nat) (item : ItemCode) : Prop :=
  TableWrites offset item.2.2 ∧ Emits item.2.1

theorem itemsCode_writes {offset : Nat} {items : List ItemCode}
    (h : ∀ item ∈ items, ItemWrites offset item) : TableWrites offset (itemsCode items) := by
  refine fun s => codeAlong_writes EmitState.slot (fun item hmem t => ?_) s
  obtain ⟨hcode, hemits⟩ := h item ((List.perm_insertionSort _ _).mem_iff.mp hmem)
  exact ⟨hcode t, (hemits t).slot_le⟩

theorem bodyCodes_writes (hinline : InlinesWrites cx inlineCode) (hblocks : InlinesBlocks cx)
    (namePrefix : String) (fields : List Field) (lets : List Let) (loops : List Loop)
    (validates : List Validate) {matchCodes : List ItemCode}
    (hmatches : ∀ item ∈ matchCodes, ItemWrites cx.currentOffsetSlot item) :
    ∀ item ∈ bodyCodes cx inlineCode namePrefix fields lets loops validates matchCodes,
      ItemWrites cx.currentOffsetSlot item := by
  intro item hmem
  simp only [bodyCodes, List.mem_append, List.mem_map] at hmem
  obtain (((⟨f, -, rfl⟩ | ⟨l, -, rfl⟩) | ⟨v, -, rfl⟩) | ⟨lp, -, rfl⟩) | hmatch := hmem
  · exact ⟨fieldCode_writes hinline hblocks f namePrefix, emitField_emits hblocks f namePrefix⟩
  · exact ⟨letCode_writes cx l, emitLet_emits namePrefix l⟩
  · exact ⟨validateCode_writes cx v, emitValidate_emits cx v⟩
  · exact ⟨loopCode_writes hinline hblocks namePrefix lp, emitLoop_emits hblocks namePrefix lp⟩
  · exact hmatches item hmatch

mutual

theorem matchStmtCode_writes (hinline : InlinesWrites cx inlineCode) (hblocks : InlinesBlocks cx)
    (namePrefix : String) : ∀ m,
    TableWrites cx.currentOffsetSlot (matchStmtCode cx inlineCode namePrefix m)
  | .mk tag arms _ => by
      intro s
      unfold matchStmtCode
      have hnone : ∀ code ∈ (none : Option CodeTable), TableWrites cx.currentOffsetSlot code :=
        nofun
      have harms := armsCode_writes (s.emitExpr cx tag).1
        (armCodes_write hinline hblocks namePrefix arms) ⟨[], none, (s.emitExpr cx tag).2⟩ hnone
      exact (exprCode_tableWrites cx _ tag s).seq
        (harms.mono (@Emitted.expr [] s cx tag).slot_le)

theorem armCodes_write (hinline : InlinesWrites cx inlineCode) (hblocks : InlinesBlocks cx)
    (namePrefix : String) : ∀ arms, ∀ arm ∈ armCodes cx inlineCode namePrefix arms,
    ArmWrites cx.currentOffsetSlot arm
  | [] => by simp [armCodes]
  | arm :: arms => by
      unfold armCodes
      exact List.forall_mem_cons.mpr ⟨armCode_writes hinline hblocks namePrefix arm,
        armCodes_write hinline hblocks namePrefix arms⟩

theorem armCode_writes (hinline : InlinesWrites cx inlineCode) (hblocks : InlinesBlocks cx)
    (namePrefix : String) : ∀ arm,
    ArmWrites cx.currentOffsetSlot (armCode cx inlineCode namePrefix arm)
  | .mk _ fields lets loops validates matches_ => by
      unfold armCode
      exact ⟨itemsCode_writes (bodyCodes_writes hinline hblocks namePrefix fields lets loops
          validates (matchCodes_write hinline hblocks namePrefix matches_)),
        emitBodyBlock_emits hblocks namePrefix fields lets loops validates
          (matchItems_emit hblocks namePrefix matches_)⟩

theorem matchCodes_write (hinline : InlinesWrites cx inlineCode) (hblocks : InlinesBlocks cx)
    (namePrefix : String) : ∀ ms, ∀ item ∈ matchCodes cx inlineCode namePrefix ms,
    ItemWrites cx.currentOffsetSlot item
  | [] => by simp [matchCodes]
  | m :: ms => by
      unfold matchCodes
      exact List.forall_mem_cons.mpr
        ⟨⟨matchStmtCode_writes hinline hblocks namePrefix m,
          matchEmitter_emits hblocks namePrefix m⟩,
        matchCodes_write hinline hblocks namePrefix ms⟩

end

end Items

/-- The code of the messages that a protocol's bodies refer to writes free slots. -/
theorem Protocol.inlines_write (proto : Protocol) (remaining : Nat) :
    InlinesWrites (proto.context remaining) (proto.inlines remaining) := by
  induction remaining with
  | zero => exact fun _ _ _ => .nil
  | succ remaining ih =>
      intro namePrefix msg
      have hcode : proto.inlines (remaining + 1) namePrefix msg =
          (armCode (proto.context remaining) (proto.inlines remaining) namePrefix
            msg.body).2.2 := by
        rw [← messageBodyCode_eq]
        exact congrFun (congrFun (messageCode_eq ..) namePrefix) msg
      rw [hcode]
      exact (armCode_writes ih (compileContext_inlines _ _ _) namePrefix msg.body).1

/-- What was emitted after `e`, up to `s`, writes the slots that were free at `e`. -/
structure LaterWrites (offset : Nat) (e s : EmitState) : Prop where
  length_le : e.instructions.length ≤ s.instructions.length
  slot_le : e.slot ≤ s.slot
  writes : ∀ i instr, e.instructions.length ≤ i → s.instructions[i]? = some instr →
    instr.WritesFrom offset e.slot

namespace LaterWrites

variable {offset : Nat} {e s s' : EmitState}

theorem refl (e : EmitState) : LaterWrites offset e e := by
  refine ⟨Nat.le_refl _, Nat.le_refl _, fun i instr hi hinstr => ?_⟩
  rw [List.getElem?_eq_none hi] at hinstr
  cases hinstr

/-- Changing only the tables, or taking further slots. -/
theorem tables (h : LaterWrites offset e s) (hcode : s'.instructions = s.instructions)
    (hslot : s.slot ≤ s'.slot) : LaterWrites offset e s' :=
  ⟨by rw [hcode]; exact h.length_le, Nat.le_trans h.slot_le hslot, by rw [hcode]; exact h.writes⟩

theorem takeSlots {slot : Nat} (h : LaterWrites offset e s) (hslot : s.slot ≤ slot) :
    LaterWrites offset e { s with slot := slot } :=
  h.tables rfl hslot

/-- Further code that writes free slots. -/
theorem coded {c : Code} (h : LaterWrites offset e s) (hcoded : Coded s s' c)
    (hwrites : c.WritesFrom offset s.slot) (hslot : s.slot ≤ s'.slot) :
    LaterWrites offset e s' := by
  have hlen := hcoded.length_eq
  refine ⟨by have := h.length_le; omega, Nat.le_trans h.slot_le hslot, fun i instr hi hinstr => ?_⟩
  unfold Coded at hcoded
  rw [hcoded] at hinstr
  obtain hlt | hge := Nat.lt_or_ge i s.instructions.length
  · rw [List.getElem?_append_left hlt] at hinstr
    exact h.writes i instr hi hinstr
  · rw [List.getElem?_append_right hge] at hinstr
    exact (hwrites.of_stored (List.mem_of_getElem? hinstr)).mono h.slot_le

theorem push (h : LaterWrites offset e s) (instr : Instruction)
    (hwrites : instr.WritesFrom offset e.slot) : LaterWrites offset e (s.push instr) := by
  refine ⟨?_, h.slot_le, fun i instr' hi hinstr => ?_⟩
  · exact Nat.le_trans h.length_le (by simp [EmitState.push])
  · obtain hlt | hge := Nat.lt_or_ge i s.instructions.length
    · exact h.writes i instr' hi ((List.getElem?_append_left hlt).symm.trans hinstr)
    · have hmem := List.mem_of_getElem? ((List.getElem?_append_right hge).symm.trans hinstr)
      rw [List.mem_singleton.mp hmem]
      exact hwrites

/-- Changing an instruction to one that writes no more. -/
theorem modify (h : LaterWrites offset e s) (idx : Nat) {f : Instruction → Instruction}
    (hf : ∀ i n, i.WritesFrom offset n → (f i).WritesFrom offset n) :
    LaterWrites offset e { s with instructions := s.instructions.modify idx f } := by
  refine ⟨?_, h.slot_le, fun i instr hi hinstr => ?_⟩
  · dsimp only
    rw [List.length_modify]
    exact h.length_le
  · rw [List.getElem?_modify] at hinstr
    obtain ⟨old, hold, rfl⟩ := Option.map_eq_some_iff.mp hinstr
    have hwrites := h.writes i old hi hold
    split
    · exact hf old _ hwrites
    · exact hwrites

theorem landHere (h : LaterWrites offset e s) (idx : Nat) :
    LaterWrites offset e (s.landHere idx) := by
  refine h.modify idx fun i n hi => ?_
  cases i with
  | jumpIfZero cond target => exact .of_none rfl
  | _ => exact hi

theorem patchJumps (h : LaterWrites offset e s) (idxs : List Nat) (target : Nat) :
    LaterWrites offset e { s with instructions := NFdl.patchJumps idxs target s.instructions } := by
  induction idxs generalizing s with
  | nil => exact h
  | cons idx idxs ih =>
      refine ih (h.modify idx fun i n hi => ?_)
      cases i with
      | jump target' => exact .of_none rfl
      | _ => exact hi

/-- Further items whose code writes free slots. -/
theorem along {α : Type*} {emit : EmitState → α → EmitState} {code : α → CodeTable} {as : List α}
    (h : LaterWrites offset e s) (hcodes : ∀ a ∈ as, Codes (emit · a) (code a))
    (hwrites : ∀ a ∈ as, TableWrites offset (code a)) (hemits : ∀ a ∈ as, Emits (emit · a)) :
    LaterWrites offset e (as.foldl emit s) := by
  induction as generalizing s with
  | nil => exact h
  | cons a as ih =>
      have hnext := h.coded (hcodes a (List.mem_cons_self ..) s)
        (hwrites a (List.mem_cons_self ..) s) (hemits a (List.mem_cons_self ..) s).slot_le
      exact ih hnext (fun a' hmem => hcodes a' (List.mem_cons_of_mem _ hmem))
        (fun a' hmem => hwrites a' (List.mem_cons_of_mem _ hmem))
        fun a' hmem => hemits a' (List.mem_cons_of_mem _ hmem)

end LaterWrites

namespace BodyItem

variable {cx : EmitContext} {inlineCode : String → Message → CodeTable}

theorem code_writes (hinline : InlinesWrites cx inlineCode) (hblocks : InlinesBlocks cx)
    (namePrefix : String) (item : BodyItem) :
    TableWrites cx.currentOffsetSlot (item.code cx inlineCode namePrefix) := by
  cases item with
  | field f => exact fieldCode_writes hinline hblocks f namePrefix
  | letItem l => exact letCode_writes cx l
  | validate v => exact validateCode_writes cx v
  | loop lp => exact loopCode_writes hinline hblocks namePrefix lp
  | matchItem m => exact matchStmtCode_writes hinline hblocks namePrefix m

theorem emitter_emits (hblocks : InlinesBlocks cx) (namePrefix : String) (item : BodyItem) :
    Emits (item.emitter cx namePrefix) := by
  cases item with
  | field f => exact emitField_emits hblocks f namePrefix
  | letItem l => exact emitLet_emits namePrefix l
  | validate v => exact emitValidate_emits cx v
  | loop lp => exact emitLoop_emits hblocks namePrefix lp
  | matchItem m => exact matchEmitter_emits hblocks namePrefix m

end BodyItem

section Places

variable {proto : Protocol} {remaining : Nat} {namePrefix : String} {body : MatchArm}
  {e s t : EmitState}

theorem Protocol.context_blocks (proto : Protocol) (remaining : Nat) :
    InlinesBlocks (proto.context remaining) := compileContext_inlines _ _ _

/-- The items of a body behind a place in one of them. -/
theorem ItemAt.later {item : BodyItem}
    (hat : ItemAt (proto.context remaining) namePrefix body s item t)
    (h : LaterWrites currentOffsetSlot e (item.emitter (proto.context remaining) namePrefix t)) :
    LaterWrites currentOffsetSlot e
      ((armEmitter (proto.context remaining) namePrefix body).2 s) := by
  obtain ⟨before, after, hitems, rfl⟩ := hat
  rw [armEmitter_items, hitems, List.foldl_append, List.foldl_cons]
  exact h.along
    (fun item _ => item.emitter_codes (proto.context_code remaining) namePrefix)
    (fun item _ => item.code_writes (proto.inlines_write remaining)
      (proto.context_blocks remaining) namePrefix)
    fun item _ => item.emitter_emits (proto.context_blocks remaining) namePrefix

/-- The rest of a body behind a place in one of its fields. -/
theorem FieldAt.later {fieldPrefix : String} {field : Field}
    (hat : FieldAt (proto.context remaining) namePrefix body s fieldPrefix field t)
    (h : LaterWrites currentOffsetSlot e
      (emitFieldBytecode (proto.context remaining) field fieldPrefix t)) :
    LaterWrites currentOffsetSlot e
      ((armEmitter (proto.context remaining) namePrefix body).2 s) := by
  have hcode := proto.context_code remaining
  have hblocks := proto.context_blocks remaining
  cases hat with
  | direct hitem => exact hitem.later h
  | @looped lp t before field after hitem hbody =>
      refine hitem.later ?_
      let cx := proto.context remaining
      let loopPrefix := joinName namePrefix lp.name
      let acc := lp.carries.foldl (emitCarry cx loopPrefix) (∅, t)
      let body := lp.body.foldl (fun s field => emitFieldBytecode cx field loopPrefix s)
        (loopBodyStart cx namePrefix lp t)
      have hloop : emitLoop cx namePrefix lp t = lp.carries.foldl (registerCarry loopPrefix acc.1)
          (((lp.nexts.foldl (emitNext cx loopPrefix) body).push
            (.jump (asU16 acc.2.instructions.length))).landHere
              (acc.2.emitExpr cx lp.condition).2.instructions.length) := rfl
      have hfields : LaterWrites currentOffsetSlot e body := by
        change LaterWrites currentOffsetSlot e (lp.body.foldl _ _)
        rw [hbody, List.foldl_append, List.foldl_cons]
        exact h.along (fun field _ => emitField_codes hcode field loopPrefix)
          (fun field _ => fieldCode_writes (proto.inlines_write remaining) hblocks field loopPrefix)
          fun field _ => emitField_emits hblocks field loopPrefix
      have hnexts : LaterWrites currentOffsetSlot e
          (lp.nexts.foldl (emitNext cx loopPrefix) body) :=
        hfields.along (fun nxt _ => emitNext_codes loopPrefix nxt)
          (fun nxt _ => nextCode_writes cx loopPrefix nxt)
          fun nxt _ => emitNext_emits cx loopPrefix nxt
      change LaterWrites currentOffsetSlot e (emitLoop cx namePrefix lp t)
      rw [hloop]
      refine ((hnexts.push _ (.of_none rfl)).landHere _).tables (registerCarries_instructions ..) ?_
      exact Nat.le_of_eq (registerCarries_slot ..).symm

section Arms

variable {cx : EmitContext} {tagSlot : Nat} {arm : MatchArm}

theorem LaterWrites.armBodyStart (h : LaterWrites currentOffsetSlot e s) (cv : Int64) :
    LaterWrites currentOffsetSlot e (NFdl.armBodyStart tagSlot cv s) := by
  have hload := h.push (.loadConst cv.toUInt64 s.slot) (.of_fresh rfl h.slot_le)
  have hcompare := hload.push (.binOp .eq tagSlot s.slot (s.slot + 1))
    (.of_fresh rfl (Nat.le_succ_of_le h.slot_le))
  exact (hcompare.takeSlots (Nat.le_add_right s.slot 2)).push _ (.of_none rfl)

/-- What follows the body of an arm with a constant. -/
theorem LaterWrites.afterArm {cv : Int64} (hcase : arm.case = some cv)
    (h : LaterWrites currentOffsetSlot e
      ((armEmitter cx namePrefix arm).2 (NFdl.armBodyStart tagSlot cv s))) :
    LaterWrites currentOffsetSlot e (NFdl.afterArm cx namePrefix tagSlot s arm) := by
  have hstate : NFdl.afterArm cx namePrefix tagSlot s arm =
      (((armEmitter cx namePrefix arm).2 (NFdl.armBodyStart tagSlot cv s)).push
        (.jump 0)).landHere (s.instructions.length + 2) := by
    unfold NFdl.afterArm
    rw [armEmitter_eq hcase]
    simp [emitArm, NFdl.armBodyStart, EmitState.push]
  rw [hstate]
  exact (h.push _ (.of_none rfl)).landHere _

/-- The body of an arm of a match writes free slots. -/
theorem LaterWrites.armBody (h : LaterWrites currentOffsetSlot e s) (arm : MatchArm) :
    LaterWrites currentOffsetSlot e
      ((armEmitter (proto.context remaining) namePrefix arm).2 s) := by
  have hcodes := armEmitter_codes (proto.context_code remaining) namePrefix arm s
  have hwrites := armCode_writes (proto.inlines_write remaining) (proto.context_blocks remaining)
    namePrefix arm
  have hemitter := congrArg Prod.snd (armCode_emitter (proto.context remaining)
    (proto.inlines remaining) namePrefix arm)
  rw [← hemitter]
  exact h.coded hcodes (hwrites.1 s) (hwrites.2 s).slot_le

theorem LaterWrites.afterArms (h : LaterWrites currentOffsetSlot e s) (arms : List MatchArm) :
    LaterWrites currentOffsetSlot e
      (NFdl.afterArms (proto.context remaining) namePrefix tagSlot arms s) := by
  induction arms generalizing s with
  | nil => exact h
  | cons arm arms ih =>
      rw [afterArms_cons]
      refine ih ?_
      cases hcase : arm.case with
      | none => rwa [afterArm_default hcase]
      | some cv => exact ((h.armBodyStart cv).armBody arm).afterArm hcase

/-- The default arm that waits is one of the arms. -/
theorem defaultArm_cases (arms : List MatchArm) (acc : ArmsState) {f : Emitter}
    (h : ((arms.map (armEmitter cx namePrefix)).foldl (emitArm tagSlot) acc).defaultArm = some f) :
    acc.defaultArm = some f ∨ ∃ arm ∈ arms, f = (armEmitter cx namePrefix arm).2 := by
  induction arms generalizing acc with
  | nil => exact .inl h
  | cons arm arms ih =>
      obtain h | ⟨arm', hmem, rfl⟩ := ih _ h
      · cases hcase : arm.case with
        | none =>
            rw [armEmitter_eq hcase] at h
            exact .inr ⟨arm, List.mem_cons_self .., (Option.some.inj h).symm⟩
        | some cv =>
            rw [armEmitter_eq hcase] at h
            exact .inl h
      · exact .inr ⟨arm', List.mem_cons_of_mem _ hmem, rfl⟩

/-- Arms with constants leave the default arm waiting. -/
theorem defaultArm_kept {arms : List MatchArm} (harms : ∀ arm ∈ arms, arm.case ≠ none)
    (acc : ArmsState) :
    ((arms.map (armEmitter cx namePrefix)).foldl (emitArm tagSlot) acc).defaultArm =
      acc.defaultArm := by
  induction arms generalizing acc with
  | nil => rfl
  | cons arm arms ih =>
      obtain ⟨cv, hcase⟩ := Option.ne_none_iff_exists'.mp (harms arm (List.mem_cons_self ..))
      rw [List.map_cons, List.foldl_cons, ih fun a hmem => harms a (List.mem_cons_of_mem _ hmem),
        armEmitter_eq hcase]
      rfl

/-- The rest of a match behind a place in the body of one of its arms. -/
theorem match_later {tag : Expr} {before after : List MatchArm} (order : Nat)
    (hemitted : IsEmitted arm after)
    (h : LaterWrites currentOffsetSlot e ((armEmitter (proto.context remaining) namePrefix arm).2
      (armPlace (proto.context remaining) namePrefix tag before arm after s))) :
    LaterWrites currentOffsetSlot e (matchEmitter (proto.context remaining) namePrefix
      (.mk tag (before ++ arm :: after) order) s) := by
  let cx := proto.context remaining
  let tagged := (s.emitExpr cx tag).2
  let acc := ((before ++ arm :: after).map (armEmitter cx namePrefix)).foldl
    (emitArm (s.emitExpr cx tag).1) ⟨[], none, tagged⟩
  have hstate : acc.state =
      NFdl.afterArms cx namePrefix (s.emitExpr cx tag).1 (before ++ arm :: after) tagged :=
    emitArms_state ..
  have hfinish : LaterWrites currentOffsetSlot e acc.finish := by
    unfold armPlace at h
    cases hcase : arm.case with
    | some cv =>
        rw [armStart_case hcase] at h
        have hall : LaterWrites currentOffsetSlot e acc.state := by
          rw [hstate, afterArms_append, afterArms_cons]
          exact (h.afterArm hcase).afterArms after
        unfold ArmsState.finish
        cases hdefault : acc.defaultArm with
        | none => exact hall
        | some f =>
            obtain hnone | ⟨arm', -, rfl⟩ := defaultArm_cases _ _ hdefault
            · cases hnone
            · exact hall.armBody arm'
    | none =>
        rw [armStart_default hcase, ← hstate] at h
        have hdefault : acc.defaultArm = some (armEmitter cx namePrefix arm).2 := by
          change ArmsState.defaultArm (List.foldl _ _ _) = _
          rw [List.map_append, List.foldl_append, List.map_cons, List.foldl_cons,
            defaultArm_kept (hemitted hcase), armEmitter_eq hcase]
          rfl
        unfold ArmsState.finish
        rw [hdefault]
        exact h
  have hmatch : matchEmitter cx namePrefix (.mk tag (before ++ arm :: after) order) s =
      { acc.finish with
        instructions := NFdl.patchJumps acc.endJumps (asU16 acc.finish.instructions.length)
          acc.finish.instructions } := by
    unfold matchEmitter
    rw [armEmitters_eq_map]
    rfl
  rw [hmatch]
  exact hfinish.patchJumps _ _

end Arms

/-- The rest of a field behind a place in the message that it refers to. -/
theorem inlined_later {fieldPrefix : String} {field : Field} {refName : String} {msg : Message}
    (hty : field.ty = .messageRef refName)
    (hmsg : proto.messages.find? (·.name == refName) = some msg)
    (h : LaterWrites currentOffsetSlot e ((armEmitter (proto.context remaining)
      (if fieldPrefix = "" then field.name else joinName fieldPrefix field.name) msg.body).2
        (inlineStart (proto.context (remaining + 1)) fieldPrefix field t))) :
    LaterWrites currentOffsetSlot e
      (emitFieldBytecode (proto.context (remaining + 1)) field fieldPrefix t) := by
  let cx := proto.context (remaining + 1)
  let inner := messageEmitter proto.messages currentOffsetSlot (proto.endian == "little") remaining
  let start := inlineStart cx fieldPrefix field t
  let inlined := inner (if fieldPrefix = "" then field.name else joinName fieldPrefix field.name)
    msg start
  let read : EmitState := { inlined with varSlots := start.varSlots }
  have hinner : inlined = (armEmitter (proto.context remaining)
      (if fieldPrefix = "" then field.name else joinName fieldPrefix field.name) msg.body).2
        start := by
    unfold Message.body armEmitter
    cases remaining <;> rfl
  have hread : LaterWrites currentOffsetSlot e read := by
    refine LaterWrites.tables (s := inlined) ?_ rfl (Nat.le_refl _)
    rw [hinner]
    exact h
  have hemit : emitRead cx inner field fieldPrefix (joinName fieldPrefix field.name)
      (emitCondition cx field t).2.slot start = read := emitRead_inlined hty hmsg
  have hbody : LaterWrites currentOffsetSlot e
      (emitFieldBody cx inner field fieldPrefix (emitCondition cx field t).2) := by
    have hisRef : field.ty.isRef = true := by rw [hty]; rfl
    rw [emitFieldBody_eq]
    dsimp only
    rw [hisRef, if_pos rfl]
    change LaterWrites currentOffsetSlot e (emitCheck cx field.validate
      (emitRead cx inner field fieldPrefix _ _ start))
    rw [hemit]
    cases field.validate with
    | none => exact hread
    | some v =>
        exact hread.coded (emitValidate_codes cx v read) (validateCode_writes cx v read)
          (emitValidate_emits cx v read).slot_le
  rw [emitFieldBytecode_eq rfl]
  change LaterWrites currentOffsetSlot e
    ((emitFieldBody cx inner field fieldPrefix (emitCondition cx field t).2).landIf _)
  cases (emitCondition cx field t).1 with
  | none => exact hbody
  | some idx => exact hbody.landHere idx

/-- All code behind a place in a body of a protocol writes the slots that were free there. -/
theorem BodyAt.later (hat : BodyAt proto remaining namePrefix body s)
    (h : LaterWrites currentOffsetSlot e
      ((armEmitter (proto.context remaining) namePrefix body).2 s)) :
    LaterWrites currentOffsetSlot e (emitProtocol proto) := by
  induction hat with
  | root hmsg =>
      unfold emitProtocol
      rw [hmsg]
      exact h
  | @arm _ _ _ _ _ _ _ _ order _ _ hitem hemitted ih =>
      exact ih (hitem.later (match_later order hemitted h))
  | inlined _ hfield hty hmsg ih => exact ih (hfield.later (inlined_later hty hmsg h))

theorem ItemAt.slot_le {item : BodyItem}
    (hat : ItemAt (proto.context remaining) namePrefix body s item t) : s.slot ≤ t.slot := by
  obtain ⟨before, after, -, rfl⟩ := hat
  exact (Emits.foldl (fun item => BodyItem.emitter_emits (proto.context_blocks remaining)
    namePrefix item) before s).slot_le

theorem FieldAt.slot_le {fieldPrefix : String} {field : Field}
    (hat : FieldAt (proto.context remaining) namePrefix body s fieldPrefix field t) :
    s.slot ≤ t.slot := by
  cases hat with
  | direct hitem => exact hitem.slot_le
  | @looped lp t before field after hitem hbody =>
      obtain ⟨hinits, hstart⟩ := loopBodyStart_emits (proto.context remaining) namePrefix lp t
      have hfields := (Emits.foldl (fun field => emitField_emits (proto.context_blocks remaining)
        field (joinName namePrefix lp.name)) before
          (loopBodyStart (proto.context remaining) namePrefix lp t)).slot_le
      exact Nat.le_trans (Nat.le_trans hitem.slot_le hinits) (Nat.le_trans hstart hfields)

theorem armPlace_slot_le (proto : Protocol) (remaining : Nat) (namePrefix : String) (tag : Expr)
    (before : List MatchArm) (arm : MatchArm) (after : List MatchArm) (s : EmitState) :
    s.slot ≤ (armPlace (proto.context remaining) namePrefix tag before arm after s).slot := by
  let tagged := (s.emitExpr (proto.context remaining) tag).2
  have htag : s.slot ≤ tagged.slot := (@Emitted.expr [] s _ tag).slot_le
  have harms : ∀ arms, LaterWrites currentOffsetSlot tagged
      (afterArms (proto.context remaining) namePrefix (s.emitExpr (proto.context remaining) tag).1
        arms tagged) := fun arms => (LaterWrites.refl tagged).afterArms arms
  unfold armPlace
  cases hcase : arm.case with
  | some cv =>
      rw [armStart_case hcase]
      exact Nat.le_trans htag ((harms before).armBodyStart cv).slot_le
  | none =>
      rw [armStart_default hcase]
      exact Nat.le_trans htag (harms _).slot_le

/-- Slots that bodies take come behind that of the offset. -/
theorem BodyAt.slot_pos (hat : BodyAt proto remaining namePrefix body s) :
    currentOffsetSlot < s.slot := by
  induction hat with
  | root => exact Nat.zero_lt_one
  | arm _ hitem _ ih =>
      exact Nat.lt_of_lt_of_le ih (Nat.le_trans hitem.slot_le (armPlace_slot_le ..))
  | inlined _ hfield _ _ ih =>
      exact Nat.lt_of_lt_of_le ih (Nat.le_trans hfield.slot_le (emitCondition_slot_le ..))

end Places

/-- In a compiled program every instruction behind a field writes the slots that were free
there, unless it refreshes the offset or copies. -/
theorem compiled_later {proto : Protocol} {program : BytecodeProgram} {fieldMap : SlotMap}
    (hcompile : protocolToBytecodeWithMap proto = some (program, fieldMap)) {remaining : Nat}
    {namePrefix : String} {body : MatchArm} {s t : EmitState} {fieldPrefix : String} {field : Field}
    (hbody : BodyAt proto remaining namePrefix body s)
    (hfield : FieldAt (proto.context remaining) namePrefix body s fieldPrefix field t) {i : Nat}
    {instr : Instruction}
    (hi : (emitFieldBytecode (proto.context remaining) field fieldPrefix t).instructions.length ≤ i)
    (hinstr : program.instructions[i]? = some instr) :
    instr.WritesFrom currentOffsetSlot
      (emitFieldBytecode (proto.context remaining) field fieldPrefix t).slot := by
  have hlater := hbody.later (hfield.later (.refl _))
  unfold protocolToBytecodeWithMap at hcompile
  dsimp only at hcompile
  split at hcompile
  · simp only [Option.some.injEq, Prod.mk.injEq] at hcompile
    obtain ⟨rfl, -⟩ := hcompile
    exact (hlater.push .ret (.of_none rfl)).writes i instr hi hinstr
  · cases hcompile

end NFdl
