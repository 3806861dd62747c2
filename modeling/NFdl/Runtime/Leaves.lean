import NFdl.Runtime.EmitCode

/-!
# The leaf fields of compiled code

A leaf field is one that is no message reference: it is read into a slot of its
own, and its value is emitted from there. The tables below follow the compiler
through the items of a body and list the leaves it compiles, with their dotted
names. In the code, every read of a leaf leads to the emission of its value.
-/

namespace NFdl

/-- A compiled leaf field: its dotted name and the slot it is read into. -/
structure Leaf where
  name : String
  slot : Nat
deriving DecidableEq, Repr

/-- The leaves that an emitter compiles, by the state it starts from. -/
abbrev LeafTable := EmitState → List Leaf

/-- The leaves of items that are emitted one after the other. -/
def leavesAlong {α σ : Type*} (emit : σ → α → σ) (leaves : α → σ → List Leaf) :
    List α → σ → List Leaf
  | [], _ => []
  | a :: as, s => leaves a s ++ leavesAlong emit leaves as (emit s a)

/-- The leaf of a field, or those of the message it refers to. -/
def fieldLeaves (cx : EmitContext) (inlineLeaves : String → Message → LeafTable) (field : Field)
    (namePrefix : String) : LeafTable := fun s =>
  if cx.inlineMessage.isNone then []
  else
    let fullName := joinName namePrefix field.name
    let s := (emitCondition cx field s).2
    match field.ty with
    | .messageRef refName =>
        match cx.messages.find? (·.name == refName) with
        | some referenced =>
            inlineLeaves (if namePrefix = "" then field.name else fullName) referenced
              (registerField field fullName s)
        | none => []
    | _ => [⟨fullName, s.slot⟩]

/-- The state in which the body of a loop is emitted. -/
def loopBodyStart (cx : EmitContext) (namePrefix : String) (lp : Loop) (s : EmitState) : EmitState :=
  let loopPrefix := joinName namePrefix lp.name
  let (_, s) := lp.carries.foldl (emitCarry cx loopPrefix) (∅, s)
  let (condSlot, s) := s.emitExpr cx lp.condition
  s.push (.jumpIfZero condSlot 0)

def loopLeaves (cx : EmitContext) (inlineLeaves : String → Message → LeafTable)
    (namePrefix : String) (lp : Loop) : LeafTable := fun s =>
  let loopPrefix := joinName namePrefix lp.name
  leavesAlong (fun s field => emitFieldBytecode cx field loopPrefix s)
    (fun field => fieldLeaves cx inlineLeaves field loopPrefix) lp.body
    (loopBodyStart cx namePrefix lp s)

/-- The state in which the body of an arm with a constant is emitted. -/
def armBodyStart (tagSlot : Nat) (cv : Int64) (s : EmitState) : EmitState :=
  let constSlot := s.slot
  let s := s.push (.loadConst cv.toUInt64 constSlot)
  let cmpSlot := constSlot + 1
  let s := s.push (.binOp .eq tagSlot constSlot cmpSlot)
  let s := { s with slot := cmpSlot + 1 }
  s.push (.jumpIfZero cmpSlot 0)

/-- An arm of a match: its constant, its emitter and its leaves. -/
abbrev ArmTable := Option Int64 × Emitter × LeafTable

def ArmTable.emitter (arm : ArmTable) : Option Int64 × Emitter := (arm.1, arm.2.1)

/-- The leaves of the arms in source order, then those of the last default arm. -/
def armsLeaves (tagSlot : Nat) :
    List ArmTable → ArmsState → Option LeafTable → List Leaf
  | [], acc, defaultLeaves => (defaultLeaves.map (· acc.state)).getD []
  | (some cv, body, leaves) :: arms, acc, defaultLeaves =>
      leaves (armBodyStart tagSlot cv acc.state) ++
        armsLeaves tagSlot arms (emitArm tagSlot acc (some cv, body)) defaultLeaves
  | (none, body, leaves) :: arms, acc, _ =>
      armsLeaves tagSlot arms (emitArm tagSlot acc (none, body)) (some leaves)

def matchLeaves (cx : EmitContext) (tag : Expr) (arms : List ArmTable) : LeafTable := fun s =>
  let (tagSlot, s) := s.emitExpr cx tag
  armsLeaves tagSlot arms ⟨[], none, s⟩ none

/-- An item of a body: its order, its emitter and its leaves. -/
abbrev ItemTable := Nat × Emitter × LeafTable

def ItemTable.emitter (item : ItemTable) : Nat × Emitter := (item.1, item.2.1)

def itemsLeaves (items : List ItemTable) : LeafTable :=
  leavesAlong (fun s item => item.2.1 s) (fun item => item.2.2)
    (items.insertionSort fun a b => a.1 ≤ b.1)

/-- The items of a body, with those of its matches given. Checks and `let`
bindings read no field. -/
def bodyTables (cx : EmitContext) (inlineLeaves : String → Message → LeafTable)
    (namePrefix : String) (fields : List Field) (lets : List Let) (loops : List Loop)
    (validates : List Validate) (matchTables : List ItemTable) : List ItemTable :=
  fields.map (fun f =>
      (f.order, emitFieldBytecode cx f namePrefix, fieldLeaves cx inlineLeaves f namePrefix)) ++
    lets.map (fun l => (l.order, emitLet cx namePrefix l, fun _ => [])) ++
    validates.map (fun v => (v.order, emitValidate cx v, fun _ => [])) ++
    loops.map (fun lp =>
      (lp.order, emitLoop cx namePrefix lp, loopLeaves cx inlineLeaves namePrefix lp)) ++
    matchTables

mutual

def matchTable (cx : EmitContext) (inlineLeaves : String → Message → LeafTable)
    (namePrefix : String) : Match → LeafTable
  | .mk tag arms _ => matchLeaves cx tag (armTables cx inlineLeaves namePrefix arms)

def armTables (cx : EmitContext) (inlineLeaves : String → Message → LeafTable)
    (namePrefix : String) : List MatchArm → List ArmTable
  | [] => []
  | arm :: arms => armTable cx inlineLeaves namePrefix arm ::
      armTables cx inlineLeaves namePrefix arms

def armTable (cx : EmitContext) (inlineLeaves : String → Message → LeafTable)
    (namePrefix : String) : MatchArm → ArmTable
  | .mk case fields lets loops validates matches_ =>
      (case, emitBodyBlock cx namePrefix fields lets loops validates
          (matchItems cx namePrefix matches_),
        itemsLeaves (bodyTables cx inlineLeaves namePrefix fields lets loops validates
          (matchTables cx inlineLeaves namePrefix matches_)))

def matchTables (cx : EmitContext) (inlineLeaves : String → Message → LeafTable)
    (namePrefix : String) : List Match → List ItemTable
  | [] => []
  | m :: ms => (m.order, matchEmitter cx namePrefix m, matchTable cx inlineLeaves namePrefix m) ::
      matchTables cx inlineLeaves namePrefix ms

end

def messageBodyLeaves (cx : EmitContext) (inlineLeaves : String → Message → LeafTable)
    (namePrefix : String) (msg : Message) : LeafTable :=
  itemsLeaves (bodyTables cx inlineLeaves namePrefix msg.fields msg.lets msg.loops msg.validates
    (matchTables cx inlineLeaves namePrefix msg.matches_))

/-- The leaves of a message with `remaining` levels of inlining below it. Beyond
the last level nothing is a leaf, since fields are opaque there. -/
def messageLeaves (messages : List Message) (currentOffsetSlot : Nat) (littleEndian : Bool) :
    Nat → String → Message → LeafTable
  | 0 => messageBodyLeaves ⟨messages, currentOffsetSlot, littleEndian, none⟩ fun _ _ _ => []
  | remaining + 1 => messageBodyLeaves ⟨messages, currentOffsetSlot, littleEndian,
      some (messageEmitter messages currentOffsetSlot littleEndian remaining)⟩
        (messageLeaves messages currentOffsetSlot littleEndian remaining)

/-- The leaves of the compiled root message, references inlined. -/
def protocolLeaves (proto : Protocol) : List Leaf :=
  match proto.messages[rootMessageIndex proto]? with
  | none => []
  | some msg =>
      messageLeaves proto.messages currentOffsetSlot (proto.endian == "little") (maxRefDepth + 1) ""
        msg
        { varSlots := (∅ : SlotMap).insert "__current_offset" currentOffsetSlot
          fieldMap := ∅
          instructions := [.loadConst 0 currentOffsetSlot]
          slot := 1 }

/-- The slot that an instruction fills from the input. -/
def Instruction.readsInto : Instruction → Option Nat
  | .readU8 slot | .readU16 slot _ | .readU24 slot _ | .readU32 slot _ | .readBits _ slot
  | .readRest _ slot | .readSlice _ slot => some slot
  | _ => none

/-- An instruction between the read of a field and the emission at `stop`: it
refreshes the offset or belongs to the check of the field. -/
def AfterRead (stop i : Nat) : Instruction → Prop
  | .updateOffset _ | .validate _ _ => True
  | instr => ExprInstr stop i instr

/-- What was read at `i` is emitted further down, and only the field's own check
stands in between. -/
def ReachesEmit (code : List Instruction) (i slot : Nat) : Prop :=
  ∃ j name, i < j ∧ code[j]? = some (.emitField name slot) ∧
    ∀ k instr, i < k → k < j → code[k]? = some instr → AfterRead j k instr

/-- The code emitted between two states contains the given leaves: they have
slots of their own, and the read of a leaf reaches its emission. -/
structure Laid (s s' : EmitState) (leaves : List Leaf) : Prop where
  grows : s.instructions <+: s'.instructions
  slot_le : s.slot ≤ s'.slot
  slots : ∀ l ∈ leaves, s.slot ≤ l.slot ∧ l.slot < s'.slot
  reads : s'.instructions.length ≤ u16Max → ∀ i instr r, s.instructions.length ≤ i →
    s'.instructions[i]? = some instr → instr.readsInto = some r →
      s.slot ≤ r ∧ r < s'.slot ∧ ((∃ l ∈ leaves, l.slot = r) → ReachesEmit s'.instructions i r)

theorem getElem?_of_grows {ι : Type*} {a b : List ι} (h : a <+: b) {i : Nat}
    (hi : i < a.length) : b[i]? = a[i]? := by
  obtain ⟨rest, rfl⟩ := h
  exact List.getElem?_append_left hi

theorem ReachesEmit.grows {code code' : List Instruction} {i slot : Nat}
    (h : ReachesEmit code i slot) (hgrows : code <+: code') : ReachesEmit code' i slot := by
  obtain ⟨j, name, hij, hemit, hbetween⟩ := h
  have hj : j < code.length := (List.getElem?_eq_some_iff.mp hemit).1
  refine ⟨j, name, hij, (getElem?_of_grows hgrows hj).trans hemit, fun k instr hik hkj hk => ?_⟩
  exact hbetween k instr hik hkj ((getElem?_of_grows hgrows (Nat.lt_trans hkj hj)).symm.trans hk)

theorem ExprInstr.readsInto {hi i : Nat} {instr : Instruction} (h : ExprInstr hi i instr) :
    instr.readsInto = none := by
  cases instr <;> first | rfl | exact absurd h id

/-- The code of an expression behind a state. -/
theorem emitExpr_block (s : EmitState) (cx : EmitContext) (e : Expr) :
    ∃ block, (s.emitExpr cx e).2.instructions = s.instructions ++ block ∧
      s.slot ≤ (s.emitExpr cx e).2.slot ∧
      ((s.emitExpr cx e).2.instructions.length ≤ u16Max →
        AtEach (ExprInstr (s.emitExpr cx e).2.instructions.length) s.instructions.length block) := by
  unfold EmitState.emitExpr
  rw [emitExprToSlot_eq]
  refine ⟨_, rfl, Nat.le_add_right .., fun hfits => ?_⟩
  dsimp only at hfits ⊢
  rw [List.length_append, exprBlock_length] at hfits ⊢
  exact exprBlock_instrs _ _ e hfits

theorem ExprInstr.afterRead {stop i : Nat} {instr : Instruction} (h : ExprInstr stop i instr) :
    AfterRead stop i instr := by
  cases instr <;> first | exact h | trivial

theorem AfterRead.readsInto {stop i : Nat} {instr : Instruction} (h : AfterRead stop i instr) :
    instr.readsInto = none := by
  cases instr <;> first | rfl | exact absurd h id

namespace Laid

variable {s s' s'' : EmitState} {leaves leaves' : List Leaf}

theorem trans (h : Laid s s' leaves) (h' : Laid s' s'' leaves') :
    Laid s s'' (leaves ++ leaves') := by
  have hlen := h'.grows.length_le
  refine ⟨h.grows.trans h'.grows, Nat.le_trans h.slot_le h'.slot_le, ?_, ?_⟩
  · intro l hl
    have hle := h.slot_le
    have hle' := h'.slot_le
    obtain hl | hl := List.mem_append.mp hl
    · have hslots := h.slots l hl
      omega
    · have hslots := h'.slots l hl
      omega
  · intro hfits i instr r hi hinstr hread
    by_cases hbefore : i < s'.instructions.length
    · rw [getElem?_of_grows h'.grows hbefore] at hinstr
      obtain ⟨hlo, hhi, hreach⟩ := h.reads (Nat.le_trans hlen hfits) i instr r hi hinstr hread
      refine ⟨hlo, Nat.lt_of_lt_of_le hhi h'.slot_le, ?_⟩
      rintro ⟨l, hl, rfl⟩
      obtain hl | hl := List.mem_append.mp hl
      · exact (hreach ⟨l, hl, rfl⟩).grows h'.grows
      · exact absurd hhi (Nat.not_lt.mpr (h'.slots l hl).1)
    · obtain ⟨hlo, hhi, hreach⟩ :=
        h'.reads hfits i instr r (Nat.le_of_not_lt hbefore) hinstr hread
      refine ⟨Nat.le_trans h.slot_le hlo, hhi, ?_⟩
      rintro ⟨l, hl, rfl⟩
      obtain hl | hl := List.mem_append.mp hl
      · exact absurd (h.slots l hl).2 (Nat.not_lt.mpr hlo)
      · exact hreach ⟨l, hl, rfl⟩

/-- Code without reads, appended while slots were taken. -/
theorem of_block {block : List Instruction} (hcode : s'.instructions = s.instructions ++ block)
    (hslot : s.slot ≤ s'.slot)
    (hreads : s'.instructions.length ≤ u16Max → ∀ instr ∈ block, instr.readsInto = none) :
    Laid s s' [] := by
  refine ⟨⟨block, hcode.symm⟩, hslot, by simp, fun hfits i instr r hi hinstr hread => ?_⟩
  rw [hcode, List.getElem?_append_right hi] at hinstr
  rw [hreads hfits instr (List.mem_of_getElem? hinstr)] at hread
  cases hread

theorem refl (s : EmitState) : Laid s s [] :=
  of_block (List.append_nil _).symm (Nat.le_refl _) (by simp)

/-- Changing only the tables, or taking further slots. -/
theorem of_tables (hcode : s'.instructions = s.instructions) (hslot : s.slot ≤ s'.slot) :
    Laid s s' [] :=
  of_block (hcode.trans (List.append_nil _).symm) hslot (by simp)

theorem push (s : EmitState) {instr : Instruction} (h : instr.readsInto = none) :
    Laid s (s.push instr) [] :=
  of_block rfl (Nat.le_refl _) (by simp [h])

theorem expr (s : EmitState) (cx : EmitContext) (e : Expr) : Laid s (s.emitExpr cx e).2 [] := by
  obtain ⟨block, hblock, hslot, hexpr⟩ := emitExpr_block s cx e
  refine of_block hblock hslot fun hfits instr hinstr => ?_
  obtain ⟨i, hi⟩ := List.getElem?_of_mem hinstr
  exact (hexpr hfits i instr hi).readsInto

/-- A read into the next slot that belongs to no leaf. -/
theorem pushRead (s : EmitState) (cx : EmitContext) {instr : Instruction}
    (h : instr.readsInto = some s.slot) : Laid s (s.pushRead cx instr) [] := by
  refine ⟨⟨[instr, .updateOffset cx.currentOffsetSlot], by simp [EmitState.pushRead, EmitState.push]⟩,
    Nat.le_succ _, by simp, fun _ i instr' r hi hinstr hread => ?_⟩
  have hcode : (s.pushRead cx instr).instructions =
      s.instructions ++ [instr, .updateOffset cx.currentOffsetSlot] := by
    simp [EmitState.pushRead, EmitState.push]
  rw [hcode, List.getElem?_append_right hi] at hinstr
  have hmem := List.mem_of_getElem? hinstr
  simp only [List.mem_cons, List.not_mem_nil, or_false] at hmem
  obtain rfl | rfl := hmem
  · obtain rfl := Option.some.inj (h.symm.trans hread)
    exact ⟨Nat.le_refl _, Nat.lt_succ_self _, by simp⟩
  · cases hread

/-- A field that is read into the first slot taken since `s`, checked by `check`
and emitted. -/
theorem leaf (cx : EmitContext) {read : Instruction} {before check : List Instruction}
    {checked : EmitState} (hbefore : s'.instructions = s.instructions ++ before)
    (hle : s.slot ≤ s'.slot)
    (hquiet : s'.instructions.length ≤ u16Max → ∀ instr ∈ before, instr.readsInto = none)
    (hread : read.readsInto = some s.slot)
    (hcheck : checked.instructions = (s'.pushRead cx read).instructions ++ check)
    (hslot : s'.slot < checked.slot)
    (hafter : checked.instructions.length ≤ u16Max →
      AtEach (AfterRead checked.instructions.length) (s'.pushRead cx read).instructions.length check)
    (name fullName : String) :
    Laid s (checked.push (.emitField name s.slot)) [⟨fullName, s.slot⟩] := by
  have hpushed : (s'.pushRead cx read).instructions = s'.instructions ++
      [read, .updateOffset cx.currentOffsetSlot] := by
    simp [EmitState.push, EmitState.pushRead]
  have hcode : (checked.push (.emitField name s.slot)).instructions = s'.instructions ++
      (read :: .updateOffset cx.currentOffsetSlot :: (check ++ [.emitField name s.slot])) := by
    simp [EmitState.push, hcheck, hpushed]
  have hlen : checked.instructions.length = s'.instructions.length + 2 + check.length := by
    rw [hcheck, hpushed, List.length_append, List.length_append]
    rfl
  have hemit : (checked.push (.emitField name s.slot)).instructions[checked.instructions.length]? =
      some (.emitField name s.slot) := by
    simp [EmitState.push]
  refine ⟨⟨before ++ _, by rw [hcode, hbefore, List.append_assoc]⟩,
    Nat.le_trans hle (Nat.le_of_lt hslot), ?_, ?_⟩
  · intro l hl
    obtain rfl := List.mem_singleton.mp hl
    exact ⟨Nat.le_refl _, Nat.lt_of_le_of_lt hle hslot⟩
  · intro hfits i instr r hi hinstr hinto
    have hfits' : checked.instructions.length ≤ u16Max := by
      simp only [EmitState.push, List.length_append, List.length_singleton] at hfits
      omega
    have hchecked := hafter hfits'
    rw [hpushed, List.length_append] at hchecked
    -- The read is the only instruction that fills a slot from the input.
    have hat : i = s'.instructions.length ∧ instr = read := by
      rw [hcode] at hinstr
      by_cases hlt : i < s'.instructions.length
      · rw [List.getElem?_append_left hlt, hbefore, List.getElem?_append_right hi] at hinstr
        rw [hquiet (by omega) instr (List.mem_of_getElem? hinstr)] at hinto
        cases hinto
      · obtain ⟨m, rfl⟩ := Nat.exists_eq_add_of_le (Nat.le_of_not_lt hlt)
        rw [List.getElem?_append_right (Nat.le_add_right ..), Nat.add_sub_cancel_left] at hinstr
        cases m with
        | zero => exact ⟨rfl, (Option.some.inj hinstr).symm⟩
        | succ m =>
            rw [List.getElem?_cons_succ] at hinstr
            have hmem := List.mem_of_getElem? hinstr
            simp only [List.mem_cons, List.mem_append, List.not_mem_nil, or_false] at hmem
            obtain rfl | hmem | rfl := hmem
            · cases hinto
            · obtain ⟨n, hn⟩ := List.getElem?_of_mem hmem
              rw [(hchecked n instr hn).readsInto] at hinto
              cases hinto
            · cases hinto
    obtain ⟨rfl, rfl⟩ := hat
    obtain rfl := Option.some.inj (hread.symm.trans hinto)
    refine ⟨Nat.le_refl _, Nat.lt_of_le_of_lt hle hslot, fun _ => ?_⟩
    refine ⟨_, name, by omega, hemit, fun k instr hlo hhi hk => ?_⟩
    rw [hcode, List.getElem?_append_right (Nat.le_of_lt hlo)] at hk
    obtain ⟨m, rfl⟩ := Nat.exists_eq_add_of_lt hlo
    rw [Nat.add_assoc, Nat.add_sub_cancel_left, List.getElem?_cons_succ] at hk
    cases m with
    | zero =>
        obtain rfl := Option.some.inj hk
        trivial
    | succ m =>
        rw [List.getElem?_cons_succ, List.getElem?_append_left (by omega)] at hk
        have hat := hchecked m instr hk
        have haddr : s'.instructions.length + 2 + m = s'.instructions.length + (m + 1) + 1 := by omega
        exact haddr ▸ hat

end Laid

/-- `code'` is `code` with targets given to some of its unfinished jumps. -/
def Patched (code code' : List Instruction) : Prop :=
  code'.length = code.length ∧ ∀ i : Nat, code'[i]? = code[i]? ∨
    (code[i]? = some (.jump 0) ∧ ∃ target, code'[i]? = some (.jump target)) ∨
    ∃ condSlot target, code[i]? = some (.jumpIfZero condSlot 0) ∧
      code'[i]? = some (.jumpIfZero condSlot target)

theorem getElem?_patchJumpIfZero (code : List Instruction) {idx condSlot : Nat} (target i : Nat)
    (hat : code[idx]? = some (.jumpIfZero condSlot 0)) :
    (patchJumpIfZero code idx target)[i]? =
      if i = idx then some (.jumpIfZero condSlot target) else code[i]? := by
  unfold patchJumpIfZero
  rw [List.getElem?_modify]
  by_cases h : idx = i
  · subst h
    simp [hat]
  · simp [h, Ne.symm h]

theorem Patched.jumpIfZero (code : List Instruction) {idx condSlot : Nat} (target : Nat)
    (hat : code[idx]? = some (.jumpIfZero condSlot 0)) :
    Patched code (patchJumpIfZero code idx target) := by
  refine ⟨List.length_modify .., fun i => ?_⟩
  rw [getElem?_patchJumpIfZero code target i hat]
  by_cases h : i = idx
  · subst h
    exact .inr (.inr ⟨condSlot, target, hat, if_pos rfl⟩)
  · exact .inl (if_neg h)

theorem Patched.jumps {code : List Instruction} {idxs : List Nat} (target : Nat)
    (hat : ∀ i ∈ idxs, code[i]? = some (.jump 0)) :
    Patched code (idxs.foldl (fun code idx => patchJump code idx target) code) := by
  refine ⟨patchJumps_length .., fun i => ?_⟩
  rw [getElem?_patchJumps]
  by_cases h : i ∈ idxs
  · refine .inr (.inl ⟨hat i h, target, ?_⟩)
    rw [if_pos h, hat i h]
    rfl
  · exact .inl (if_neg h)

/-- An unfinished jump is no instruction of a field's check, whose jumps go
forward. -/
theorem AfterRead.of_patched {code code' : List Instruction} (h : Patched code code')
    {stop k : Nat} {instr : Instruction} (hk : code'[k]? = some instr)
    (hold : ∀ old, code[k]? = some old → AfterRead stop k old) : AfterRead stop k instr := by
  obtain hsame | ⟨hjump, -⟩ | ⟨condSlot, target, hjump, -⟩ := h.2 k
  · exact hold instr (hsame ▸ hk)
  · exact absurd (hold _ hjump).1 (Nat.not_lt_zero k)
  · exact absurd (hold _ hjump).1 (Nat.not_lt_zero k)

theorem Patched.readsInto {code code' : List Instruction} (h : Patched code code') {i r : Nat}
    {instr : Instruction} (hi : code'[i]? = some instr) (hread : instr.readsInto = some r) :
    code[i]? = some instr := by
  obtain hsame | ⟨-, target, hjump⟩ | ⟨condSlot, target, -, hjump⟩ := h.2 i
  · exact hsame ▸ hi
  · obtain rfl := Option.some.inj (hjump.symm.trans hi)
    cases hread
  · obtain rfl := Option.some.inj (hjump.symm.trans hi)
    cases hread

theorem ReachesEmit.of_patched {code code' : List Instruction} {i slot : Nat}
    (h : ReachesEmit code i slot) (hpatched : Patched code code') : ReachesEmit code' i slot := by
  obtain ⟨j, name, hij, hemit, hbetween⟩ := h
  refine ⟨j, name, hij, ?_, fun k instr hik hkj hk =>
    .of_patched hpatched hk fun old => hbetween k old hik hkj⟩
  obtain hsame | ⟨hjump, -⟩ | ⟨condSlot, target, hjump, -⟩ := hpatched.2 j
  · exact hsame.trans hemit
  · exact absurd (hjump.symm.trans hemit) (by simp)
  · exact absurd (hjump.symm.trans hemit) (by simp)

section Patch

variable {s s' s'' : EmitState} {leaves : List Leaf}

/-- Giving jumps their targets changes nothing about leaves. -/
theorem Laid.patch (h : Laid s s' leaves) (hpatched : Patched s'.instructions s''.instructions)
    (hgrows : s.instructions <+: s''.instructions) (hslot : s''.slot = s'.slot) :
    Laid s s'' leaves := by
  refine ⟨hgrows, hslot ▸ h.slot_le, hslot ▸ h.slots, fun hfits i instr r hi hinstr hread => ?_⟩
  rw [hpatched.1] at hfits
  obtain ⟨hlo, hhi, hreach⟩ :=
    h.reads hfits i instr r hi (hpatched.readsInto hinstr hread) hread
  exact ⟨hlo, hslot ▸ hhi, fun hl => (hreach hl).of_patched hpatched⟩

/-- The code before the patched jumps stays. -/
theorem Patched.grows {code code' : List Instruction} {base : List Instruction}
    (h : Patched code code') (hgrows : base <+: code)
    (hsame : ∀ i, i < base.length → code'[i]? = code[i]?) : base <+: code' := by
  obtain ⟨rest, rfl⟩ := hgrows
  refine List.prefix_iff_eq_take.mpr (List.ext_getElem? fun i => ?_)
  rw [List.getElem?_take]
  split
  · rename_i hi
    rw [hsame i hi, List.getElem?_append_left hi]
  · rename_i hi
    exact List.getElem?_eq_none (Nat.le_of_not_lt hi)

/-- A conditional jump that was pushed behind `s` lands at the end. -/
theorem Laid.landHere (h : Laid s s' leaves) {idx condSlot : Nat}
    (hidx : s.instructions.length ≤ idx)
    (hat : s'.instructions[idx]? = some (.jumpIfZero condSlot 0)) :
    Laid s (s'.landHere idx) leaves := by
  have hpatched := Patched.jumpIfZero s'.instructions (asU16 s'.instructions.length) hat
  refine h.patch hpatched (hpatched.grows h.grows fun i hi => ?_) rfl
  rw [getElem?_patchJumpIfZero _ _ i hat, if_neg (by omega)]

/-- The jumps at `idxs` behind `s` are patched to land at the end. -/
theorem Laid.patchEnds (h : Laid s s' leaves) {idxs : List Nat}
    (hidxs : ∀ i ∈ idxs, s.instructions.length ≤ i)
    (hat : ∀ i ∈ idxs, s'.instructions[i]? = some (.jump 0)) :
    Laid s { s' with
      instructions := idxs.foldl (fun code idx =>
        patchJump code idx (asU16 s'.instructions.length)) s'.instructions } leaves := by
  have hpatched := Patched.jumps (asU16 s'.instructions.length) hat
  refine h.patch hpatched (hpatched.grows h.grows fun i hi => ?_) rfl
  rw [getElem?_patchJumps, if_neg fun hmem => absurd (hidxs i hmem) (Nat.not_le.mpr hi)]

end Patch

/-- What an emitter with the given leaves does to any state. -/
def Lays (f : Emitter) (leaves : LeafTable) : Prop := ∀ s, Laid s (f s) (leaves s)

theorem Laid.along {α : Type*} {emit : EmitState → α → EmitState} {leaves : α → LeafTable}
    {as : List α} (h : ∀ a ∈ as, Lays (emit · a) (leaves a)) (s : EmitState) :
    Laid s (as.foldl emit s) (leavesAlong emit leaves as s) := by
  induction as generalizing s with
  | nil => exact .refl s
  | cons a as ih =>
      exact (h a (List.mem_cons_self ..) s).trans
        (ih (fun a' hmem => h a' (List.mem_cons_of_mem _ hmem)) (emit s a))

/-- Items without leaves. -/
theorem Laid.foldl {α : Type*} {emit : EmitState → α → EmitState} (h : ∀ s a, Laid s (emit s a) [])
    (as : List α) (s : EmitState) : Laid s (as.foldl emit s) [] := by
  induction as generalizing s with
  | nil => exact .refl s
  | cons a as ih => exact (h s a).trans (ih (emit s a))

section Items

variable {cx : EmitContext} {inlineLeaves : String → Message → LeafTable}

/-- The bodies of referenced messages are emitted with their leaves. -/
def InlinesLeaves (cx : EmitContext) (inlineLeaves : String → Message → LeafTable) : Prop :=
  ∀ inlineMessage, cx.inlineMessage = some inlineMessage →
    ∀ namePrefix msg, Lays (inlineMessage namePrefix msg) (inlineLeaves namePrefix msg)

/-- The read of a leaf, behind the code of its length. -/
theorem emitRead_leaf (cx : EmitContext) (inlineMessage : String → Message → Emitter)
    {field : Field} (hleaf : field.ty.isRef = false) (namePrefix fullName : String)
    (readSlot : Nat) (s : EmitState) :
    ∃ (s' : EmitState) (before : List Instruction) (read : Instruction),
      emitRead cx inlineMessage field namePrefix fullName readSlot s = s'.pushRead cx read ∧
      s'.instructions = s.instructions ++ before ∧ s.slot ≤ s'.slot ∧
      (s'.instructions.length ≤ u16Max → ∀ instr ∈ before, instr.readsInto = none) ∧
      read.readsInto = some readSlot := by
  unfold emitRead
  split
  case h_5 len _ =>
    obtain ⟨block, hblock, hslot, hexpr⟩ := emitExpr_block s cx len
    refine ⟨_, block, _, rfl, hblock, hslot, fun hfits instr hinstr => ?_, rfl⟩
    obtain ⟨i, hi⟩ := List.getElem?_of_mem hinstr
    exact (hexpr hfits i instr hi).readsInto
  case h_6 refName href => simp [href, NfdlType.isRef] at hleaf
  all_goals exact ⟨s, [], _, rfl, by simp, Nat.le_refl _, by simp, rfl⟩

/-- The check of a field that was just read. -/
theorem emitCheck_after (cx : EmitContext) (v : Option Validate) (s : EmitState) :
    ∃ check, (emitCheck cx v s).instructions = s.instructions ++ check ∧
      s.slot ≤ (emitCheck cx v s).slot ∧ ((emitCheck cx v s).instructions.length ≤ u16Max →
        AtEach (AfterRead (emitCheck cx v s).instructions.length) s.instructions.length check) := by
  cases v with
  | none => exact ⟨[], (List.append_nil _).symm, Nat.le_refl _, fun _ => .nil⟩
  | some v =>
      obtain ⟨block, hblock, hslot, hexpr⟩ := emitExpr_block s cx v.expr
      have hcode : (emitValidate cx v s).instructions = s.instructions ++
          (block ++ [.validate (s.emitExpr cx v.expr).1 v.message]) := by
        rw [← List.append_assoc, ← hblock]
        rfl
      refine ⟨_, hcode, hslot, fun hfits => ?_⟩
      change (emitValidate cx v s).instructions.length ≤ u16Max at hfits
      change AtEach (AfterRead (emitValidate cx v s).instructions.length) _ _
      have hlen : (emitValidate cx v s).instructions.length =
          (s.emitExpr cx v.expr).2.instructions.length + 1 := by
        simp [emitValidate, EmitState.push]
      rw [hlen] at hfits ⊢
      refine .append ((hexpr (by omega)).mono fun pc instr _ hinstr => ?_) (.singleton trivial)
      exact (hinstr.mono (Nat.le_succ _)).afterRead

theorem emitFieldBody_laid (hcx : InlinesLeaves cx inlineLeaves)
    {inlineMessage : String → Message → Emitter} (hinline : cx.inlineMessage = some inlineMessage)
    (field : Field) (namePrefix : String) (s : EmitState) :
    Laid s (emitFieldBody cx inlineMessage field namePrefix s) (match field.ty with
      | .messageRef refName =>
          match cx.messages.find? (·.name == refName) with
          | some referenced =>
              inlineLeaves (if namePrefix = "" then field.name else joinName namePrefix field.name)
                referenced (registerField field (joinName namePrefix field.name) s)
          | none => []
      | _ => [⟨joinName namePrefix field.name, s.slot⟩]) := by
  let fullName := joinName namePrefix field.name
  obtain href | hleaf := Bool.eq_false_or_eq_true field.ty.isRef
  · have hregister : Laid s (registerField field fullName s) [] := .of_tables rfl (Nat.le_refl _)
    cases hty : field.ty with
    | messageRef refName =>
        dsimp only
        have hread : ∃ leaves, leaves = (match cx.messages.find? (·.name == refName) with
            | some referenced => inlineLeaves (if namePrefix = "" then field.name else fullName)
                referenced (registerField field fullName s)
            | none => []) ∧
            Laid s (emitRead cx inlineMessage field namePrefix fullName s.slot
              (registerField field fullName s)) leaves := by
          unfold emitRead
          simp only [hty]
          cases cx.messages.find? (·.name == refName) with
          | none =>
              refine ⟨_, rfl, hregister.trans (Laid.pushRead _ cx rfl)⟩
          | some referenced =>
              have hinlined := hregister.trans (hcx inlineMessage hinline
                (if namePrefix = "" then field.name else fullName) referenced
                (registerField field fullName s))
              exact ⟨_, rfl, hinlined.patch ⟨rfl, fun _ => .inl rfl⟩ hinlined.grows rfl⟩
        obtain ⟨leaves, hleaves, hlaid⟩ := hread
        rw [← hleaves]
        unfold emitFieldBody
        dsimp only
        rw [href, if_pos rfl]
        cases field.validate with
        | none => exact hlaid
        | some v =>
            have hcheck : Laid s (emitValidate cx v _) (leaves ++ ([] ++ [])) :=
              hlaid.trans ((Laid.expr _ cx v.expr).trans (.push _ rfl))
            simpa using hcheck
    | _ => simp [hty, NfdlType.isRef] at href
  · obtain ⟨s', before, read, hemit, hbefore, hle, hquiet, hread⟩ :=
      emitRead_leaf cx inlineMessage hleaf namePrefix fullName s.slot
        (registerField field fullName s)
    obtain ⟨check, hcheck, hslot, hafter⟩ :=
      emitCheck_after cx field.validate (s'.pushRead cx read)
    have hbody : emitFieldBody cx inlineMessage field namePrefix s =
        (emitCheck cx field.validate (s'.pushRead cx read)).push
          (.emitField field.name s.slot) := by
      rw [emitFieldBody_eq, hemit, hleaf]
      rfl
    rw [hbody]
    have hlaid := Laid.leaf (s := s) cx hbefore hle hquiet hread hcheck
      (Nat.lt_of_lt_of_le (Nat.lt_succ_self s'.slot) hslot) hafter field.name fullName
    cases hty : field.ty with
    | messageRef refName => simp [hty, NfdlType.isRef] at hleaf
    | _ => exact hlaid

theorem emitField_laid (hcx : InlinesLeaves cx inlineLeaves) (field : Field) (namePrefix : String) :
    Lays (emitFieldBytecode cx field namePrefix) (fieldLeaves cx inlineLeaves field namePrefix) := by
  intro s
  unfold emitFieldBytecode fieldLeaves
  cases hinline : cx.inlineMessage with
  | none => exact .pushRead s cx rfl
  | some inlineMessage =>
      have hbody := fun s => emitFieldBody_laid hcx hinline field namePrefix s
      unfold emitCondition
      cases field.conditional with
      | none => exact hbody s
      | some cond =>
          have hcond := Laid.expr s cx cond
          have hjump : Laid _ ((s.emitExpr cx cond).2.push
              (.jumpIfZero (s.emitExpr cx cond).1 0)) [] := .push (s.emitExpr cx cond).2 rfl
          have hall := hcond.trans (hjump.trans (hbody _))
          have hat : (emitFieldBody cx inlineMessage field namePrefix
              ((s.emitExpr cx cond).2.push (.jumpIfZero (s.emitExpr cx cond).1 0))).instructions[
                (s.emitExpr cx cond).2.instructions.length]? =
              some (.jumpIfZero (s.emitExpr cx cond).1 0) := by
            rw [getElem?_of_grows (hbody _).grows (by simp [EmitState.push])]
            simp [EmitState.push]
          exact hall.landHere hcond.grows.length_le hat

theorem emitCarries_laid (cx : EmitContext) (loopPrefix : String) (carries : List Carry)
    (acc : SlotMap × EmitState) :
    Laid acc.2 (carries.foldl (emitCarry cx loopPrefix) acc).2 [] := by
  induction carries generalizing acc with
  | nil => exact .refl _
  | cons carry carries ih =>
      have hcarry : Laid acc.2 (emitCarry cx loopPrefix acc carry).2 [] :=
        (Laid.expr acc.2 cx carry.init).trans (.of_tables rfl (Nat.le_refl _))
      exact hcarry.trans (ih _)

theorem emitLoop_laid (hcx : InlinesLeaves cx inlineLeaves) (namePrefix : String) (lp : Loop) :
    Lays (emitLoop cx namePrefix lp) (loopLeaves cx inlineLeaves namePrefix lp) := by
  intro s
  let loopPrefix := joinName namePrefix lp.name
  let inits := (lp.carries.foldl (emitCarry cx loopPrefix) (∅, s)).2
  let cond := (inits.emitExpr cx lp.condition).2
  let body := lp.body.foldl (fun s field => emitFieldBytecode cx field loopPrefix s)
    (loopBodyStart cx namePrefix lp s)
  let nexts := lp.nexts.foldl (emitNext cx loopPrefix) body
  have hinits : Laid s inits [] := emitCarries_laid cx loopPrefix lp.carries (∅, s)
  have hcond : Laid s cond [] := hinits.trans (.expr inits cx lp.condition)
  have hstart : Laid s (loopBodyStart cx namePrefix lp s) [] := hcond.trans (.push cond rfl)
  have hbody : Laid (loopBodyStart cx namePrefix lp s) body
      (loopLeaves cx inlineLeaves namePrefix lp s) :=
    .along (fun field _ => emitField_laid hcx field loopPrefix) _
  have hnext : ∀ s nxt, Laid s (emitNext cx loopPrefix s nxt) [] := fun s nxt =>
    (Laid.expr s cx nxt.value).trans (Laid.push (s.emitExpr cx nxt.value).2 (by rfl))
  have hnexts : Laid body nexts [] := .foldl hnext lp.nexts body
  have hjump : Laid nexts (nexts.push (.jump (asU16 inits.instructions.length))) [] :=
    .push nexts rfl
  have hback := hnexts.trans hjump
  have hclosed : Laid s _ _ := hstart.trans (hbody.trans hback)
  have hat : (nexts.push (.jump (asU16 inits.instructions.length))).instructions[
      cond.instructions.length]? = some (.jumpIfZero (inits.emitExpr cx lp.condition).1 0) := by
    have hin : cond.instructions.length < (loopBodyStart cx namePrefix lp s).instructions.length := by
      simp [loopBodyStart, EmitState.push, cond, inits, loopPrefix]
    rw [getElem?_of_grows (hbody.trans hback).grows hin]
    simp [loopBodyStart, EmitState.push, cond, inits, loopPrefix]
  have hloop := hclosed.landHere hcond.grows.length_le hat
  have hregister : ∀ carrySlots s carry, Laid s (registerCarry loopPrefix carrySlots s carry) [] :=
    fun _ _ _ => .of_tables rfl (Nat.le_refl _)
  have hall := hloop.trans (.foldl
    (hregister (lp.carries.foldl (emitCarry cx loopPrefix) (∅, s)).1) lp.carries _)
  simp only [List.nil_append, List.append_nil] at hall
  exact hall

/-- The arms emitted so far, with the jumps that are still to be patched. -/
structure ArmsLaid (s : EmitState) (acc : ArmsState) (defaultLeaves : Option LeafTable)
    (leaves : List Leaf) : Prop where
  laid : Laid s acc.state leaves
  endJumps_ge : ∀ i ∈ acc.endJumps, s.instructions.length ≤ i
  endJumps_jump : ∀ i ∈ acc.endJumps, acc.state.instructions[i]? = some (.jump 0)
  default_none : acc.defaultArm = none → defaultLeaves = none
  default_some : ∀ body, acc.defaultArm = some body →
    ∃ table, defaultLeaves = some table ∧ Lays body table

theorem armBodyStart_laid (tagSlot : Nat) (cv : Int64) (s : EmitState) :
    Laid s (armBodyStart tagSlot cv s) [] := by
  have hcode : (armBodyStart tagSlot cv s).instructions = s.instructions ++
      [.loadConst cv.toUInt64 s.slot, .binOp .eq tagSlot s.slot (s.slot + 1),
        .jumpIfZero (s.slot + 1) 0] := by
    simp [armBodyStart, EmitState.push]
  refine .of_block hcode ?_ ?_
  · exact Nat.le_add_right s.slot 2
  · simp [Instruction.readsInto]

theorem emitArm_laid {tagSlot : Nat} {s : EmitState} {acc : ArmsState} {cv : Int64}
    {body : Emitter} {table : LeafTable} {defaultLeaves : Option LeafTable} {leaves : List Leaf}
    (h : ArmsLaid s acc defaultLeaves leaves) (hbody : Lays body table) :
    ArmsLaid s (emitArm tagSlot acc (some cv, body)) defaultLeaves
      (leaves ++ table (armBodyStart tagSlot cv acc.state)) := by
  let start := armBodyStart tagSlot cv acc.state
  let skipIdx := acc.state.instructions.length + 2
  have hstart := armBodyStart_laid tagSlot cv acc.state
  have hlen : start.instructions.length = acc.state.instructions.length + 3 := by
    simp [start, armBodyStart, EmitState.push]
  have hjump : start.instructions[skipIdx]? = some (.jumpIfZero (acc.state.slot + 1) 0) := by
    simp [start, skipIdx, armBodyStart, EmitState.push]
  have hend : Laid (body start) ((body start).push (.jump 0)) [] := .push _ rfl
  have harm := hstart.trans ((hbody start).trans hend)
  have hgrows := (hbody start).grows.trans hend.grows
  have hat : ((body start).push (.jump 0)).instructions[skipIdx]? =
      some (.jumpIfZero (acc.state.slot + 1) 0) := by
    rw [getElem?_of_grows hgrows (by omega), hjump]
  have hlaid := harm.landHere (Nat.le_add_right ..) hat
  have hstate : (emitArm tagSlot acc (some cv, body)).state =
      ((body start).push (.jump 0)).landHere skipIdx := by
    simp [emitArm, start, skipIdx, armBodyStart, EmitState.push]
  have hends : (emitArm tagSlot acc (some cv, body)).endJumps =
      acc.endJumps ++ [(body start).instructions.length] := by
    simp [emitArm, start, armBodyStart, EmitState.push]
  have hkeep : ∀ i, i ≠ skipIdx → ((body start).push (.jump 0)).instructions[i]? =
      some (.jump 0) → (emitArm tagSlot acc (some cv, body)).state.instructions[i]? =
      some (.jump 0) := by
    intro i hne hi
    rw [hstate]
    exact (getElem?_patchJumpIfZero _ _ i hat).trans ((if_neg hne).trans hi)
  refine ⟨?_, ?_, ?_, h.default_none, h.default_some⟩
  · rw [hstate]
    have hall := h.laid.trans hlaid
    simpa using hall
  · have hle := h.laid.grows.length_le
    have hle' := (hbody start).grows.length_le
    intro i hi
    rw [hends] at hi
    obtain hi | hi := List.mem_append.mp hi
    · exact h.endJumps_ge i hi
    · rw [List.mem_singleton.mp hi]
      omega
  · have hle' := (hbody start).grows.length_le
    intro i hi
    rw [hends] at hi
    obtain hi | hi := List.mem_append.mp hi
    · have hold := h.endJumps_jump i hi
      have hlt : i < acc.state.instructions.length := (List.getElem?_eq_some_iff.mp hold).1
      refine hkeep i (by omega) ?_
      rw [getElem?_of_grows (hstart.grows.trans hgrows) hlt, hold]
    · rw [List.mem_singleton.mp hi]
      exact hkeep _ (by omega) (by simp [EmitState.push])

theorem emitArms_laid (tagSlot : Nat) {s : EmitState} {arms : List ArmTable}
    (harms : ∀ arm ∈ arms, Lays arm.2.1 arm.2.2) {acc : ArmsState}
    {defaultLeaves : Option LeafTable} {leaves : List Leaf}
    (h : ArmsLaid s acc defaultLeaves leaves) :
    ∃ defaultLeaves' leaves',
      ArmsLaid s ((arms.map ArmTable.emitter).foldl (emitArm tagSlot) acc) defaultLeaves' leaves' ∧
      leaves ++ armsLeaves tagSlot arms acc defaultLeaves = leaves' ++ (defaultLeaves'.map
        (· ((arms.map ArmTable.emitter).foldl (emitArm tagSlot) acc).state)).getD [] := by
  induction arms generalizing acc defaultLeaves leaves with
  | nil => exact ⟨defaultLeaves, leaves, h, rfl⟩
  | cons arm arms ih =>
      obtain ⟨case, body, table⟩ := arm
      have hbody : Lays body table := harms _ (List.mem_cons_self ..)
      have hrest := fun arm hmem => harms arm (List.mem_cons_of_mem _ hmem)
      cases case with
      | none =>
          have hdefault : ArmsLaid s (emitArm tagSlot acc (none, body)) (some table) leaves :=
            ⟨h.laid, h.endJumps_ge, h.endJumps_jump, fun hnone => by simp [emitArm] at hnone,
              fun body' heq => ⟨table, rfl, Option.some.inj heq ▸ hbody⟩⟩
          exact ih hrest hdefault
      | some cv =>
          have hcase : ArmsLaid s (emitArm tagSlot acc (some cv, body)) defaultLeaves _ :=
            emitArm_laid h hbody
          obtain ⟨d, l, hlaid, heq⟩ := ih hrest hcase
          exact ⟨d, l, hlaid, (List.append_assoc ..).symm.trans heq⟩

theorem emitMatch_laid {tag : Expr} {arms : List ArmTable}
    (harms : ∀ arm ∈ arms, Lays arm.2.1 arm.2.2) :
    Lays (emitMatch cx tag (arms.map ArmTable.emitter)) (matchLeaves cx tag arms) := by
  intro s
  let tagged := (s.emitExpr cx tag).2
  let acc := (arms.map ArmTable.emitter).foldl (emitArm (s.emitExpr cx tag).1) ⟨[], none, tagged⟩
  have hfresh : ArmsLaid tagged ⟨[], none, tagged⟩ none [] :=
    ⟨.refl tagged, by simp, by simp, fun _ => rfl, by simp⟩
  obtain ⟨defaultLeaves, leaves, hacc, hleaves⟩ :=
    emitArms_laid (s.emitExpr cx tag).1 harms hfresh
  have hall : Laid tagged acc.finish (matchLeaves cx tag arms s) ∧
      acc.state.instructions <+: acc.finish.instructions := by
    change [] ++ matchLeaves cx tag arms s = _ at hleaves
    rw [List.nil_append] at hleaves
    cases hdefault : acc.defaultArm with
    | none =>
        rw [hacc.default_none hdefault] at hleaves
        rw [ArmsState.finish_none hdefault]
        refine ⟨?_, List.prefix_refl _⟩
        rw [hleaves]
        simpa using hacc.laid
    | some body =>
        obtain ⟨table, rfl, hbody⟩ := hacc.default_some body hdefault
        rw [ArmsState.finish_some hdefault]
        refine ⟨?_, (hbody _).grows⟩
        rw [hleaves]
        exact hacc.laid.trans (hbody _)
  obtain ⟨hlaid, hgrows⟩ := hall
  have hat : ∀ i ∈ acc.endJumps, acc.finish.instructions[i]? = some (.jump 0) := by
    intro i hi
    have hold := hacc.endJumps_jump i hi
    rw [getElem?_of_grows hgrows (List.getElem?_eq_some_iff.mp hold).1]
    exact hold
  exact (Laid.expr s cx tag).trans (hlaid.patchEnds hacc.endJumps_ge hat)

/-- The items of a body, sorted together with their leaves. -/
theorem emitItems_laid {items : List ItemTable} (h : ∀ item ∈ items, Lays item.2.1 item.2.2) :
    Lays (emitItems (items.map ItemTable.emitter)) (itemsLeaves items) := by
  intro s
  rw [emitItems_map]
  exact .along (fun item hmem => h item ((List.perm_insertionSort _ _).mem_iff.mp hmem)) s

theorem bodyTables_emitters (cx : EmitContext)
    (inlineLeaves : String → Message → LeafTable) (namePrefix : String) (fields : List Field) (lets : List Let)
    (loops : List Loop) (validates : List Validate) (matchTables : List ItemTable) :
    (bodyTables cx inlineLeaves namePrefix fields lets loops validates matchTables).map
        ItemTable.emitter =
      fields.map (fun f => (f.order, emitFieldBytecode cx f namePrefix)) ++
        lets.map (fun l => (l.order, emitLet cx namePrefix l)) ++
        validates.map (fun v => (v.order, emitValidate cx v)) ++
        loops.map (fun lp => (lp.order, emitLoop cx namePrefix lp)) ++
        matchTables.map ItemTable.emitter := by
  simp [bodyTables, ItemTable.emitter, Function.comp_def]

theorem emitBodyBlock_laid (hcx : InlinesLeaves cx inlineLeaves) (namePrefix : String)
    (fields : List Field) (lets : List Let) (loops : List Loop) (validates : List Validate)
    {matchTables : List ItemTable} (hmatches : ∀ item ∈ matchTables, Lays item.2.1 item.2.2) :
    Lays (emitBodyBlock cx namePrefix fields lets loops validates
        (matchTables.map ItemTable.emitter))
      (itemsLeaves (bodyTables cx inlineLeaves namePrefix fields lets loops validates
        matchTables)) := by
  unfold emitBodyBlock
  rw [← bodyTables_emitters cx inlineLeaves]
  refine emitItems_laid fun item hmem => ?_
  simp only [bodyTables, List.mem_append, List.mem_map] at hmem
  obtain (((⟨f, -, rfl⟩ | ⟨l, -, rfl⟩) | ⟨v, -, rfl⟩) | ⟨lp, -, rfl⟩) | hmatch := hmem
  · exact emitField_laid hcx f namePrefix
  · intro s
    have hcopy : Laid s ((s.emitExpr cx l.value).2.push (.copySlot (s.emitExpr cx l.value).1
        (s.emitExpr cx l.value).2.slot)) [] := (Laid.expr s cx l.value).trans (.push _ rfl)
    exact hcopy.trans (.of_tables rfl (Nat.le_succ _))
  · intro s
    exact (Laid.expr s cx v.expr).trans (.push (s.emitExpr cx v.expr).2 rfl)
  · exact emitLoop_laid hcx namePrefix lp
  · exact hmatches item hmatch

section Tables

variable (cx) (inlineLeaves)

mutual

theorem armTables_emitters (namePrefix : String) : ∀ arms,
    (armTables cx inlineLeaves namePrefix arms).map ArmTable.emitter = armEmitters cx namePrefix arms
  | [] => by simp [armTables, armEmitters]
  | arm :: arms => by
      unfold armTables armEmitters
      rw [List.map_cons, armTable_emitter namePrefix arm, armTables_emitters namePrefix arms]

theorem armTable_emitter (namePrefix : String) : ∀ arm,
    (armTable cx inlineLeaves namePrefix arm).emitter = armEmitter cx namePrefix arm
  | .mk _ _ _ _ _ _ => by
      unfold armTable armEmitter
      rfl

end

theorem matchTables_emitters (namePrefix : String) (ms : List Match) :
    (matchTables cx inlineLeaves namePrefix ms).map ItemTable.emitter =
      matchItems cx namePrefix ms := by
  induction ms with
  | nil => simp [matchTables, matchItems]
  | cons m ms ih =>
      unfold matchTables matchItems
      rw [List.map_cons, ih]
      rfl

end Tables

mutual

theorem matchTable_laid (hcx : InlinesLeaves cx inlineLeaves) (namePrefix : String) :
    ∀ m, Lays (matchEmitter cx namePrefix m) (matchTable cx inlineLeaves namePrefix m)
  | .mk tag arms _ => by
      unfold matchEmitter matchTable
      rw [← armTables_emitters cx inlineLeaves]
      exact emitMatch_laid (armTables_laid hcx namePrefix arms)

theorem armTables_laid (hcx : InlinesLeaves cx inlineLeaves) (namePrefix : String) :
    ∀ arms, ∀ arm ∈ armTables cx inlineLeaves namePrefix arms, Lays arm.2.1 arm.2.2
  | [] => by simp [armTables]
  | arm :: arms => by
      unfold armTables
      exact List.forall_mem_cons.mpr
        ⟨armTable_laid hcx namePrefix arm, armTables_laid hcx namePrefix arms⟩

theorem armTable_laid (hcx : InlinesLeaves cx inlineLeaves) (namePrefix : String) :
    ∀ arm, Lays (armTable cx inlineLeaves namePrefix arm).2.1
      (armTable cx inlineLeaves namePrefix arm).2.2
  | .mk _ fields lets loops validates matches_ => by
      unfold armTable
      rw [← matchTables_emitters cx inlineLeaves]
      exact emitBodyBlock_laid hcx namePrefix fields lets loops validates
        (matchTables_laid hcx namePrefix matches_)

theorem matchTables_laid (hcx : InlinesLeaves cx inlineLeaves) (namePrefix : String) :
    ∀ ms, ∀ item ∈ matchTables cx inlineLeaves namePrefix ms, Lays item.2.1 item.2.2
  | [] => by simp [matchTables]
  | m :: ms => by
      unfold matchTables
      exact List.forall_mem_cons.mpr
        ⟨matchTable_laid hcx namePrefix m, matchTables_laid hcx namePrefix ms⟩

end

theorem emitMessage_laid (hcx : InlinesLeaves cx inlineLeaves) (namePrefix : String)
    (msg : Message) :
    Lays (emitMessage cx namePrefix msg) (messageBodyLeaves cx inlineLeaves namePrefix msg) := by
  unfold emitMessage messageBodyLeaves
  rw [← matchTables_emitters cx inlineLeaves]
  exact emitBodyBlock_laid hcx namePrefix msg.fields msg.lets msg.loops msg.validates
    (matchTables_laid hcx namePrefix msg.matches_)

end Items

theorem messageEmitter_laid (messages : List Message) (offset : Nat) (littleEndian : Bool)
    (remaining : Nat) (namePrefix : String) (msg : Message) :
    Lays (messageEmitter messages offset littleEndian remaining namePrefix msg)
      (messageLeaves messages offset littleEndian remaining namePrefix msg) := by
  induction remaining generalizing namePrefix msg with
  | zero => exact emitMessage_laid (fun _ hinline => by simp at hinline) namePrefix msg
  | succ remaining ih =>
      refine emitMessage_laid (fun inlineMessage hinline => ?_) namePrefix msg
      obtain rfl := Option.some.inj hinline
      exact ih

/-- In a compiled program whose addresses fit in sixteen bits, the read of a leaf
leads to the emission of its value, and its slot is one of the program's. -/
theorem compiled_leaf_reaches_emit {proto : Protocol} {program : BytecodeProgram}
    {fieldMap : SlotMap} (hcompile : protocolToBytecodeWithMap proto = some (program, fieldMap))
    (hfits : program.instructions.length ≤ u16Max) {leaf : Leaf} (hleaf : leaf ∈ protocolLeaves proto) :
    leaf.slot < program.slotCount ∧ ∀ i instr, program.instructions[i]? = some instr →
      instr.readsInto = some leaf.slot → ReachesEmit program.instructions i leaf.slot := by
  unfold protocolToBytecodeWithMap at hcompile
  dsimp only at hcompile
  split at hcompile
  · rename_i hslots
    simp only [Option.some.injEq, Prod.mk.injEq] at hcompile
    obtain ⟨rfl, -⟩ := hcompile
    unfold protocolLeaves at hleaf
    unfold emitProtocol at *
    dsimp only at *
    cases hroot : proto.messages[rootMessageIndex proto]? with
    | none => simp [hroot] at hleaf
    | some msg =>
        rw [hroot] at hleaf hfits hslots
        dsimp only at hleaf hfits hslots ⊢
        have hlaid := messageEmitter_laid proto.messages currentOffsetSlot (proto.endian == "little")
          (maxRefDepth + 1) "" msg ⟨(∅ : SlotMap).insert "__current_offset" currentOffsetSlot, ∅,
            [.loadConst 0 currentOffsetSlot], 1⟩
        have hslot := (hlaid.slots leaf hleaf).2
        refine ⟨by omega, fun i instr hi hread => ?_⟩
        rw [List.length_append] at hfits
        obtain hlt | hge := Nat.lt_or_ge i (messageEmitter _ _ _ _ _ _ _).instructions.length
        · rw [List.getElem?_append_left hlt] at hi
          have hbehind : 1 ≤ i := by
            rw [Nat.one_le_iff_ne_zero]
            rintro rfl
            rw [getElem?_of_grows hlaid.grows Nat.zero_lt_one] at hi
            obtain rfl := Option.some.inj hi
            cases hread
          obtain ⟨-, -, hreach⟩ := hlaid.reads (by omega) i instr leaf.slot hbehind hi hread
          exact (hreach ⟨leaf, hleaf, rfl⟩).grows (List.prefix_append ..)
        · rw [List.getElem?_append_right hge] at hi
          obtain rfl := List.mem_singleton.mp (List.mem_of_getElem? hi)
          cases hread
  · cases hcompile

end NFdl
