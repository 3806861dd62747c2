import NFdl.Runtime.Layout
import NFdl.Runtime.LoopCode

/-!
# The compiler emits the intended layout

Each emitter appends the layout of its structured code. A conditional field is
patched once its body stands; the closing jumps of a match wait until the last
arm is emitted, so the induction over the arms carries them along.
-/

namespace NFdl

/-- The compiler appended the layout of `c`. -/
def Coded (s s' : EmitState) (c : Code) : Prop :=
  s'.instructions = s.instructions ++ c.stored s.instructions.length

/-- What an emitter does to any state. -/
def Codes (f : Emitter) (code : CodeTable) : Prop := ∀ s, Coded s (f s) (code s)

namespace Coded

variable {s s' s'' : EmitState} {a b c : Code}

theorem of_tables (h : s'.instructions = s.instructions) : Coded s s' .nil := by
  unfold Coded
  rw [h, Code.stored_nil, List.append_nil]

theorem refl (s : EmitState) : Coded s s .nil := of_tables rfl

theorem length_eq (h : Coded s s' c) :
    s'.instructions.length = s.instructions.length + c.length := by
  unfold Coded at h
  rw [h, List.length_append, Code.stored_length]

theorem trans (h : Coded s s' a) (h' : Coded s' s'' b) : Coded s s'' (a.seq b) := by
  have hlen := h.length_eq
  unfold Coded at *
  rw [h', hlen, h, Code.stored_seq, List.append_assoc]

/-- Changing only the tables afterwards. -/
theorem tables (h : Coded s s' c) (htables : s''.instructions = s'.instructions) :
    Coded s s'' c := by
  unfold Coded at *
  rw [htables, h]

theorem push (s : EmitState) (i : Instruction) (h : ¬ i.IsJump) : Coded s (s.push i) (plain i h) :=
  rfl

theorem expr (s : EmitState) (cx : EmitContext) (e : Expr) :
    Coded s (s.emitExpr cx e).2 (s.exprCode cx e) := by
  unfold Coded EmitState.emitExpr EmitState.exprCode
  rw [emitExprToSlot_eq, exprCode_stored]

theorem pushRead (s : EmitState) (cx : EmitContext) (i : Instruction) (h : ¬ i.IsJump) :
    Coded s (s.pushRead cx i) (readThen cx i h) :=
  ((push s i h).trans (push (s.push i) (.updateOffset cx.currentOffsetSlot) id)).tables rfl

/-- A conditional jump that was pushed first and lands behind what followed. -/
theorem landHere {cond : Nat} (h : Coded (s.push (.jumpIfZero cond 0)) s' c) :
    Coded s (s'.landHere s.instructions.length) (.skip cond c) := by
  have hlen := h.length_eq
  unfold Coded EmitState.landHere at *
  simp only [EmitState.push, List.length_append, List.length_singleton] at h hlen ⊢
  rw [h, patchJumpIfZero_at _ _ _ _ rfl, Code.stored_skip, ← h, hlen, List.append_assoc,
    List.singleton_append, Nat.add_right_comm]

/-- The jump that closes a loop goes back to its head, and the exit jump lands behind it. -/
theorem closeLoop {s₁ s₂ : EmitState} {cond : Nat} (hhead : Coded s s₁ a)
    (hbody : Coded (s₁.push (.jumpIfZero cond 0)) s₂ b) :
    Coded s ((s₂.push (.jump (asU16 s.instructions.length))).landHere s₁.instructions.length)
      (.loop a cond b) := by
  have hlen := hhead.length_eq
  have hlen' := hbody.length_eq
  have hclosed := Emitted.closeLoop_instructions hhead hbody
  simp only [EmitState.push, List.length_append, List.length_singleton] at hlen'
  have hexit : s₂.instructions.length + 1 =
      s.instructions.length + a.length + b.length + 2 := by
    omega
  unfold Coded
  rw [hclosed, hexit, Code.stored_loop]
  simp only [EmitState.push, List.length_append, List.length_singleton, hlen,
    List.singleton_append]

theorem along {α : Type*} {emit : EmitState → α → EmitState} {code : α → CodeTable} {as : List α}
    (h : ∀ a ∈ as, Codes (emit · a) (code a)) (s : EmitState) :
    Coded s (as.foldl emit s) (codeAlong emit code as s) := by
  induction as generalizing s with
  | nil => exact refl s
  | cons a as ih =>
      exact (h a (List.mem_cons_self ..) s).trans
        (ih (fun a' hmem => h a' (List.mem_cons_of_mem _ hmem)) (emit s a))

end Coded

section Items

variable {cx : EmitContext} {inlineCode : String → Message → CodeTable}

/-- The bodies of referenced messages are emitted as their code. -/
def InlinesCode (cx : EmitContext) (inlineCode : String → Message → CodeTable) : Prop :=
  ∀ inlineMessage, cx.inlineMessage = some inlineMessage →
    ∀ namePrefix msg, Codes (inlineMessage namePrefix msg) (inlineCode namePrefix msg)

theorem emitRead_codes (cx : EmitContext) {inlineMessage : String → Message → Emitter}
    (h : ∀ namePrefix msg, Codes (inlineMessage namePrefix msg) (inlineCode namePrefix msg))
    (field : Field) (namePrefix fullName : String) (readSlot : Nat) :
    Codes (emitRead cx inlineMessage field namePrefix fullName readSlot)
      (readCode cx inlineCode field namePrefix fullName readSlot) := by
  intro s
  unfold emitRead readCode
  cases field.ty with
  | bytes len => exact (Coded.expr s cx len).trans (.pushRead _ cx _ _)
  | messageRef refName =>
      dsimp only
      cases cx.messages.find? (·.name == refName) with
      | some referenced => exact (h _ referenced s).tables rfl
      | none => exact .pushRead s cx _ _
  | _ => exact .pushRead s cx _ _

theorem emitValidate_codes (cx : EmitContext) (v : Validate) :
    Codes (emitValidate cx v) (validateCode cx v) := fun s =>
  (Coded.expr s cx v.expr).trans (.push _ _ _)

theorem emitFieldBody_codes (cx : EmitContext) {inlineMessage : String → Message → Emitter}
    (h : ∀ namePrefix msg, Codes (inlineMessage namePrefix msg) (inlineCode namePrefix msg))
    (field : Field) (namePrefix : String) :
    Codes (emitFieldBody cx inlineMessage field namePrefix)
      (fieldBodyCode cx inlineMessage inlineCode field namePrefix) := by
  intro s
  have hread : Coded s _ _ := emitRead_codes cx h field namePrefix
    (joinName namePrefix field.name) s.slot (registerField field (joinName namePrefix field.name) s)
  have hcheck : ∀ s : EmitState, Coded s (emitCheck cx field.validate s)
      (checkCode cx field.validate s) := by
    intro s
    cases field.validate with
    | some v => exact emitValidate_codes cx v s
    | none => exact .refl s
  have hemit : ∀ (s : EmitState) start, Coded s
      (if field.ty.isRef then s else s.push (.emitField field.name start))
      (if field.ty.isRef then .nil else plain (.emitField field.name start)) := by
    intro s start
    split
    · exact .refl s
    · exact .push s _ _
  exact (hread.trans (hcheck _)).trans (hemit _ _)

theorem emitField_codes (hcx : InlinesCode cx inlineCode) (field : Field) (namePrefix : String) :
    Codes (emitFieldBytecode cx field namePrefix) (fieldCode cx inlineCode field namePrefix) := by
  intro s
  unfold emitFieldBytecode fieldCode
  cases hinline : cx.inlineMessage with
  | none => exact .pushRead s cx _ _
  | some inlineMessage =>
      have hbody := emitFieldBody_codes cx (hcx inlineMessage hinline) field namePrefix
      unfold emitCondition
      cases field.conditional with
      | none => exact hbody s
      | some cond => exact (Coded.expr s cx cond).trans (hbody _).landHere

theorem emitLet_codes (namePrefix : String) (binding : Let) :
    Codes (emitLet cx namePrefix binding) (letCode cx binding) := fun s =>
  ((Coded.expr s cx binding.value).trans (.push _ _ _)).tables rfl

theorem emitNext_codes (loopPrefix : String) (nxt : NextStmt) :
    Codes (emitNext cx loopPrefix · nxt) (nextCode cx loopPrefix nxt) := fun s =>
  (Coded.expr s cx nxt.value).trans (.push _ _ _)

theorem emitCarries_codes (cx : EmitContext) (loopPrefix : String) (carries : List Carry) (acc : SlotMap × EmitState) :
    Coded acc.2 (carries.foldl (emitCarry cx loopPrefix) acc).2
      (codeAlong (emitCarry cx loopPrefix) (fun carry acc => acc.2.exprCode cx carry.init)
        carries acc) := by
  induction carries generalizing acc with
  | nil => exact .refl _
  | cons carry carries ih =>
      have hinit := Coded.expr acc.2 cx carry.init
      exact (hinit.tables rfl).trans (ih (emitCarry cx loopPrefix acc carry))

theorem emitLoop_codes (hcx : InlinesCode cx inlineCode) (namePrefix : String) (lp : Loop) :
    Codes (emitLoop cx namePrefix lp) (loopCode cx inlineCode namePrefix lp) := by
  intro s
  let loopPrefix := joinName namePrefix lp.name
  let start := loopBodyStart cx namePrefix lp s
  let body := lp.body.foldl (fun s field => emitFieldBytecode cx field loopPrefix s) start
  have hinits := emitCarries_codes cx loopPrefix lp.carries (∅, s)
  have hcond := Coded.expr (lp.carries.foldl (emitCarry cx loopPrefix) (∅, s)).2 cx lp.condition
  have hbody : Coded start body _ :=
    .along (fun field _ => emitField_codes hcx field loopPrefix) start
  have hnexts : Coded body (lp.nexts.foldl (emitNext cx loopPrefix) body)
      (codeAlong (emitNext cx loopPrefix) (nextCode cx loopPrefix) lp.nexts body) :=
    .along (fun nxt _ => emitNext_codes loopPrefix nxt) body
  have hloop := hinits.trans (hcond.closeLoop (hbody.trans hnexts))
  exact hloop.tables (registerCarries_instructions ..)

def patchJumps (idxs : List Nat) (target : Nat) (code : List Instruction) : List Instruction :=
  idxs.foldl (fun code idx => patchJump code idx target) code

@[simp] theorem length_patchJumps (idxs : List Nat) (target : Nat) (code : List Instruction) :
    (patchJumps idxs target code).length = code.length := patchJumps_length idxs target code

theorem patchJumps_cons (idx : Nat) (idxs : List Nat) (target : Nat) (code : List Instruction) :
    patchJumps (idx :: idxs) target code = patchJump (patchJumps idxs target code) idx target := by
  refine List.ext_getElem? fun i => ?_
  unfold patchJumps
  rw [getElem?_patchJumps, getElem?_patchJump, getElem?_patchJumps]
  by_cases hi : i = idx
  · subst hi
    by_cases hmem : i ∈ idxs
    · simp [hmem, Function.comp_def]
    · simp [hmem]
  · simp [hi]

/-- Patching reaches the jump at the end of an arm. -/
theorem patch_arm {before tests block : List Instruction} (branch : Instruction)
    (after : List Instruction) (target : Nat) {idx : Nat}
    (hidx : idx = before.length + tests.length + 1 + block.length) :
    patchJump ((before ++ (tests ++ branch :: (block ++ [.jump 0]))) ++ after) idx target =
      before ++ (tests ++ branch :: (block ++ .jump target :: after)) := by
  have hshape : (before ++ (tests ++ branch :: (block ++ [.jump 0]))) ++ after =
      (before ++ (tests ++ branch :: block)) ++ [.jump 0] ++ after := by
    simp
  rw [hshape, patchJump_at after 0 target (by simp; omega)]
  simp

/-- The code of an arm with a constant, whose jump to the end is still to be patched. -/
theorem emitArm_codes (tagSlot : Nat) (acc : ArmsState) (cv : Int64) {body : Emitter}
    {code : CodeTable} (hbody : Codes body code) :
    (emitArm tagSlot acc (some cv, body)).state.instructions = acc.state.instructions ++
      (([.loadConst cv.toUInt64 acc.state.slot,
          .binOp .eq tagSlot acc.state.slot (acc.state.slot + 1)] : List Instruction) ++
        .jumpIfZero (acc.state.slot + 1) (asU16 (acc.state.instructions.length + 2 +
          (code (armBodyStart tagSlot cv acc.state)).length + 2)) ::
            ((code (armBodyStart tagSlot cv acc.state)).stored
              (acc.state.instructions.length + 2 + 1) ++ [.jump 0])) ∧
    (emitArm tagSlot acc (some cv, body)).endJumps = acc.endJumps ++
      [acc.state.instructions.length + 3 +
        (code (armBodyStart tagSlot cv acc.state)).length] := by
  let tests : List Instruction := [.loadConst cv.toUInt64 acc.state.slot,
    .binOp .eq tagSlot acc.state.slot (acc.state.slot + 1)]
  let before : EmitState := { acc.state with
    instructions := acc.state.instructions ++ tests, slot := acc.state.slot + 2 }
  have hstart : (armBodyStart tagSlot cv acc.state).instructions =
      before.instructions ++ [.jumpIfZero (acc.state.slot + 1) 0] := by
    simp [armBodyStart, EmitState.push, before, tests]
  have hlen : before.instructions.length = acc.state.instructions.length + 2 := by
    simp [before, tests]
  have hcoded := hbody (armBodyStart tagSlot cv acc.state)
  have hbodyLen := hcoded.length_eq
  have hstate : (emitArm tagSlot acc (some cv, body)).state =
      ((body (armBodyStart tagSlot cv acc.state)).push (.jump 0)).landHere
        before.instructions.length := by
    simp [emitArm, armBodyStart, EmitState.push, before, tests]
  have hends : (emitArm tagSlot acc (some cv, body)).endJumps =
      acc.endJumps ++ [(body (armBodyStart tagSlot cv acc.state)).instructions.length] := by
    simp [emitArm, armBodyStart, EmitState.push]
  unfold Coded at hcoded
  rw [hstart] at hcoded hbodyLen
  rw [List.length_append, List.length_singleton, hlen] at hcoded hbodyLen
  have hpush : ((body (armBodyStart tagSlot cv acc.state)).push (.jump 0)).instructions =
      (body (armBodyStart tagSlot cv acc.state)).instructions ++ [.jump 0] := rfl
  have hnext : ((body (armBodyStart tagSlot cv acc.state)).push (.jump 0)).instructions.length =
      acc.state.instructions.length + 2 + (code (armBodyStart tagSlot cv acc.state)).length +
        2 := by
    rw [hpush, List.length_append, hbodyLen, List.length_singleton]
    omega
  constructor
  · rw [hstate]
    unfold EmitState.landHere
    rw [hnext, hpush, hcoded, List.append_assoc, patchJumpIfZero_at _ _ _ _ rfl]
    simp [before, tests]
  · rw [hends, hbodyLen]

/-- The arms emitted one after the other. -/
def emitArms (tagSlot : Nat) (arms : List ArmCode) (acc : ArmsState) : ArmsState :=
  (arms.map ArmCode.emitter).foldl (emitArm tagSlot) acc

theorem emitArms_cons (tagSlot : Nat) (case : Option Int64) (body : Emitter) (code : CodeTable)
    (arms : List ArmCode) (acc : ArmsState) :
    emitArms tagSlot ((case, body, code) :: arms) acc =
      emitArms tagSlot arms (emitArm tagSlot acc (case, body)) := rfl

/-- The arms are emitted as their code, once their jumps to the end are patched. -/
theorem emitArms_codes (tagSlot : Nat) {arms : List ArmCode}
    (harms : ∀ arm ∈ arms, Codes arm.2.1 arm.2.2) {acc : ArmsState}
    {defaultCode : Option CodeTable} (hdefault : Option.Rel Codes acc.defaultArm defaultCode) :
    ∃ ends, (emitArms tagSlot arms acc).endJumps = acc.endJumps ++ ends ∧
      patchJumps ends (asU16 (emitArms tagSlot arms acc).finish.instructions.length)
          (emitArms tagSlot arms acc).finish.instructions =
        acc.state.instructions ++
          (armsCode tagSlot arms acc defaultCode).stored acc.state.instructions.length := by
  induction arms generalizing acc defaultCode with
  | nil =>
      refine ⟨[], (List.append_nil _).symm, ?_⟩
      change acc.finish.instructions = _
      generalize hdefaultArm : acc.defaultArm = defaultArm at hdefault
      cases hdefault with
      | none =>
          rw [ArmsState.finish_none hdefaultArm]
          exact (List.append_nil _).symm
      | some hbody =>
          rw [ArmsState.finish_some hdefaultArm]
          exact hbody acc.state
  | cons arm arms ih =>
      have hrest := fun arm hmem => harms arm (List.mem_cons_of_mem _ hmem)
      obtain ⟨case, body, code⟩ := arm
      have hbody : Codes body code := harms _ (List.mem_cons_self ..)
      cases case with
      | none =>
          have hdefault' : Option.Rel Codes (emitArm tagSlot acc (none, body)).defaultArm
              (some code) := .some hbody
          exact ih hrest hdefault'
      | some cv =>
          have hdefault' : Option.Rel Codes (emitArm tagSlot acc (some cv, body)).defaultArm
              defaultCode := hdefault
          obtain ⟨harm, hends⟩ := emitArm_codes tagSlot acc cv hbody
          obtain ⟨ends, hfold, hpatched⟩ := ih hrest hdefault'
          rw [emitArms_cons, armsCode]
          generalize emitArms tagSlot arms (emitArm tagSlot acc (some cv, body)) = final
            at hfold hpatched
          generalize armsCode tagSlot arms (emitArm tagSlot acc (some cv, body)) defaultCode = rest
            at hpatched
          generalize code (armBodyStart tagSlot cv acc.state) = c at harm hends
          have hlen := congrArg List.length hpatched
          have hlenArm := congrArg List.length harm
          simp only [length_patchJumps, List.length_append, List.length_cons, List.length_nil,
            Code.stored_length] at hlen hlenArm
          have hend : final.finish.instructions.length =
              acc.state.instructions.length + 2 + c.length + rest.length + 2 := by
            omega
          have hnext : (emitArm tagSlot acc (some cv, body)).state.instructions.length =
              acc.state.instructions.length + 2 + c.length + 2 := by
            omega
          refine ⟨(acc.state.instructions.length + 3 + c.length) :: ends, ?_, ?_⟩
          · rw [hfold, hends, List.append_assoc, List.singleton_append]
          · rw [patchJumps_cons, hpatched, hend, hnext, harm, patch_arm _ _ _ (by simp)]
            simp only [Code.stored_seq, Code.stored_plain, Code.stored_choose,
              Structured.length_seq, plain_length, List.cons_append, List.nil_append,
              Nat.reduceAdd, Nat.add_assoc]

/-- What remains to be done once the arms stand: the default arm and the jumps to the end. -/
theorem emitMatch_instructions (cx : EmitContext) (tag : Expr) (arms : List ArmCode)
    (s : EmitState) {acc : ArmsState}
    (hacc : acc = emitArms (s.emitExpr cx tag).1 arms ⟨[], none, (s.emitExpr cx tag).2⟩) :
    (emitMatch cx tag (arms.map ArmCode.emitter) s).instructions =
      patchJumps acc.endJumps (asU16 acc.finish.instructions.length) acc.finish.instructions := by
  subst hacc
  rfl

theorem emitMatch_codes {tag : Expr} {arms : List ArmCode}
    (harms : ∀ arm ∈ arms, Codes arm.2.1 arm.2.2) :
    Codes (emitMatch cx tag (arms.map ArmCode.emitter)) (matchCode cx tag arms) := by
  intro s
  have hnone : Option.Rel Codes (ArmsState.mk [] none (s.emitExpr cx tag).2).defaultArm none :=
    .none
  obtain ⟨ends, hends, hpatched⟩ := emitArms_codes (s.emitExpr cx tag).1 harms hnone
  have hmatch := emitMatch_instructions cx tag arms s rfl
  rw [hends, List.nil_append, hpatched] at hmatch
  exact (Coded.expr s cx tag).trans hmatch

/-- Items keep their order when their codes are dropped. -/
theorem emitItems_emitters (items : List ItemCode) (s : EmitState) :
    emitItems (items.map ItemCode.emitter) s =
      (items.insertionSort fun a b => a.1 ≤ b.1).foldl (fun s item => item.2.1 s) s :=
  emitItems_map ItemCode.emitter items s

theorem emitItems_codes {items : List ItemCode} (h : ∀ item ∈ items, Codes item.2.1 item.2.2) :
    Codes (emitItems (items.map ItemCode.emitter)) (itemsCode items) := by
  intro s
  rw [emitItems_emitters]
  exact .along (fun item hmem => h item ((List.perm_insertionSort _ _).mem_iff.mp hmem)) s

theorem bodyCodes_emitters (cx : EmitContext) (inlineCode : String → Message → CodeTable)
    (namePrefix : String) (fields : List Field) (lets : List Let) (loops : List Loop)
    (validates : List Validate) (matchCodes : List ItemCode) :
    (bodyCodes cx inlineCode namePrefix fields lets loops validates matchCodes).map
        ItemCode.emitter =
      fields.map (fun f => (f.order, emitFieldBytecode cx f namePrefix)) ++
        lets.map (fun l => (l.order, emitLet cx namePrefix l)) ++
        validates.map (fun v => (v.order, emitValidate cx v)) ++
        loops.map (fun lp => (lp.order, emitLoop cx namePrefix lp)) ++
        matchCodes.map ItemCode.emitter := by
  simp [bodyCodes, ItemCode.emitter, Function.comp_def]

theorem emitBodyBlock_codes (hcx : InlinesCode cx inlineCode) (namePrefix : String)
    (fields : List Field) (lets : List Let) (loops : List Loop) (validates : List Validate)
    {matchCodes : List ItemCode} (hmatches : ∀ item ∈ matchCodes, Codes item.2.1 item.2.2) :
    Codes (emitBodyBlock cx namePrefix fields lets loops validates
        (matchCodes.map ItemCode.emitter))
      (itemsCode (bodyCodes cx inlineCode namePrefix fields lets loops validates matchCodes)) := by
  unfold emitBodyBlock
  rw [← bodyCodes_emitters cx inlineCode]
  refine emitItems_codes fun item hmem => ?_
  simp only [bodyCodes, List.mem_append, List.mem_map] at hmem
  obtain (((⟨f, -, rfl⟩ | ⟨l, -, rfl⟩) | ⟨v, -, rfl⟩) | ⟨lp, -, rfl⟩) | hmatch := hmem
  · exact emitField_codes hcx f namePrefix
  · exact emitLet_codes namePrefix l
  · exact emitValidate_codes cx v
  · exact emitLoop_codes hcx namePrefix lp
  · exact hmatches item hmatch

section Tables

variable (cx) (inlineCode)

mutual

theorem armCodes_emitters (namePrefix : String) : ∀ arms,
    (armCodes cx inlineCode namePrefix arms).map ArmCode.emitter = armEmitters cx namePrefix arms
  | [] => by simp [armCodes, armEmitters]
  | arm :: arms => by
      unfold armCodes armEmitters
      rw [List.map_cons, armCode_emitter namePrefix arm, armCodes_emitters namePrefix arms]

theorem armCode_emitter (namePrefix : String) : ∀ arm,
    (armCode cx inlineCode namePrefix arm).emitter = armEmitter cx namePrefix arm
  | .mk _ _ _ _ _ _ => by
      unfold armCode armEmitter
      rfl

end

theorem matchCodes_emitters (namePrefix : String) (ms : List Match) :
    (matchCodes cx inlineCode namePrefix ms).map ItemCode.emitter = matchItems cx namePrefix ms := by
  induction ms with
  | nil => simp [matchCodes, matchItems]
  | cons m ms ih =>
      unfold matchCodes matchItems
      rw [List.map_cons, ih]
      rfl

end Tables

mutual

theorem matchEmitter_codes (hcx : InlinesCode cx inlineCode) (namePrefix : String) :
    ∀ m, Codes (matchEmitter cx namePrefix m) (matchStmtCode cx inlineCode namePrefix m)
  | .mk tag arms _ => by
      unfold matchEmitter matchStmtCode
      rw [← armCodes_emitters cx inlineCode]
      exact emitMatch_codes (armEmitters_code hcx namePrefix arms)

theorem armEmitters_code (hcx : InlinesCode cx inlineCode) (namePrefix : String) :
    ∀ arms, ∀ arm ∈ armCodes cx inlineCode namePrefix arms, Codes arm.2.1 arm.2.2
  | [] => by simp [armCodes]
  | arm :: arms => by
      unfold armCodes
      exact List.forall_mem_cons.mpr
        ⟨armEmitter_codes hcx namePrefix arm, armEmitters_code hcx namePrefix arms⟩

theorem armEmitter_codes (hcx : InlinesCode cx inlineCode) (namePrefix : String) :
    ∀ arm, Codes (armCode cx inlineCode namePrefix arm).2.1
      (armCode cx inlineCode namePrefix arm).2.2
  | .mk _ fields lets loops validates matches_ => by
      unfold armCode
      rw [← matchCodes_emitters cx inlineCode]
      exact emitBodyBlock_codes hcx namePrefix fields lets loops validates
        (matchItems_code hcx namePrefix matches_)

theorem matchItems_code (hcx : InlinesCode cx inlineCode) (namePrefix : String) :
    ∀ ms, ∀ item ∈ matchCodes cx inlineCode namePrefix ms, Codes item.2.1 item.2.2
  | [] => by simp [matchCodes]
  | m :: ms => by
      unfold matchCodes
      exact List.forall_mem_cons.mpr
        ⟨matchEmitter_codes hcx namePrefix m, matchItems_code hcx namePrefix ms⟩

end

theorem emitMessage_codes (hcx : InlinesCode cx inlineCode) (namePrefix : String)
    (msg : Message) :
    Codes (emitMessage cx namePrefix msg) (messageBodyCode cx inlineCode namePrefix msg) := by
  unfold emitMessage messageBodyCode
  rw [← matchCodes_emitters cx inlineCode]
  exact emitBodyBlock_codes hcx namePrefix msg.fields msg.lets msg.loops msg.validates
    (matchItems_code hcx namePrefix msg.matches_)

end Items

theorem messageEmitter_codes (messages : List Message) (offset : Nat) (littleEndian : Bool)
    (remaining : Nat) (namePrefix : String) (msg : Message) :
    Codes (messageEmitter messages offset littleEndian remaining namePrefix msg)
      (messageCode messages offset littleEndian remaining namePrefix msg) := by
  induction remaining generalizing namePrefix msg with
  | zero => exact emitMessage_codes (fun _ hinline => by simp at hinline) namePrefix msg
  | succ remaining ih =>
      refine emitMessage_codes (fun inlineMessage hinline => ?_) namePrefix msg
      obtain rfl := Option.some.inj hinline
      exact ih

/-- A compiled program is the layout of the protocol's code, with each address
cut to sixteen bits. -/
theorem compiled_instructions {proto : Protocol} {program : BytecodeProgram} {fieldMap : SlotMap}
    (hcompile : protocolToBytecodeWithMap proto = some (program, fieldMap)) :
    program.instructions = (protocolCode proto).stored 0 := by
  have hroot : (emitProtocol proto).instructions ++ [.ret] = (protocolCode proto).stored 0 := by
    unfold emitProtocol protocolCode
    dsimp only
    cases proto.messages[rootMessageIndex proto]? with
    | none => rfl
    | some msg =>
        have hmsg := messageEmitter_codes proto.messages currentOffsetSlot
          (proto.endian == "little") (maxRefDepth + 1) "" msg
          ⟨(∅ : SlotMap).insert "__current_offset" currentOffsetSlot, ∅,
            [.loadConst 0 currentOffsetSlot], 1⟩
        unfold Coded at hmsg
        dsimp only
        rw [hmsg]
        rfl
  unfold protocolToBytecodeWithMap at hcompile
  dsimp only at hcompile
  split at hcompile
  · simp only [Option.some.injEq, Prod.mk.injEq] at hcompile
    obtain ⟨rfl, -⟩ := hcompile
    exact hroot
  · cases hcompile

end NFdl
