import NFdl.Runtime.MatchCode
import NFdl.Runtime.SlotRange
import NFdl.Runtime.CarryRun

/-!
# Where bodies are compiled

A protocol is compiled from its root message down: a body is that of the root
message, of an arm of a match in a body, or of a message that a field of a body
refers to. Wherever a body is compiled, the program has its code, and the slots
known there fit.
-/

namespace NFdl

/-- An item of a body. -/
inductive BodyItem where
  | field (f : Field)
  | letItem (l : Let)
  | validate (v : Validate)
  | loop (lp : Loop)
  | matchItem (m : Match)

namespace BodyItem

def order : BodyItem → Nat
  | .field f => f.order
  | .letItem l => l.order
  | .validate v => v.order
  | .loop lp => lp.order
  | .matchItem m => m.order

def emitter (cx : EmitContext) (namePrefix : String) : BodyItem → Emitter
  | .field f => emitFieldBytecode cx f namePrefix
  | .letItem l => emitLet cx namePrefix l
  | .validate v => emitValidate cx v
  | .loop lp => emitLoop cx namePrefix lp
  | .matchItem m => matchEmitter cx namePrefix m

def code (cx : EmitContext) (inlineCode : String → Message → CodeTable) (namePrefix : String) :
    BodyItem → CodeTable
  | .field f => fieldCode cx inlineCode f namePrefix
  | .letItem l => letCode cx l
  | .validate v => validateCode cx v
  | .loop lp => loopCode cx inlineCode namePrefix lp
  | .matchItem m => matchStmtCode cx inlineCode namePrefix m

theorem emitter_codes {cx : EmitContext} {inlineCode : String → Message → CodeTable}
    (hcx : InlinesCode cx inlineCode) (namePrefix : String) (item : BodyItem) :
    Codes (item.emitter cx namePrefix) (item.code cx inlineCode namePrefix) := by
  cases item with
  | field f => exact emitField_codes hcx f namePrefix
  | letItem l => exact emitLet_codes namePrefix l
  | validate v => exact emitValidate_codes cx v
  | loop lp => exact emitLoop_codes hcx namePrefix lp
  | matchItem m => exact matchEmitter_codes hcx namePrefix m

theorem emitter_fits {cx : EmitContext} (hcx : InlinesFit cx) (namePrefix : String)
    (item : BodyItem) : Fits cx.currentOffsetSlot (item.emitter cx namePrefix) := by
  cases item with
  | field f => exact emitField_fits hcx f namePrefix
  | letItem l => exact emitLet_fits namePrefix l
  | validate v => exact emitValidate_fits cx v
  | loop lp => exact emitLoop_fits hcx namePrefix lp
  | matchItem m => exact matchEmitter_fits hcx namePrefix m

end BodyItem

/-- The items of a body by their kinds, as the compiler collects them. -/
def MatchArm.listed : MatchArm → List BodyItem
  | .mk _ fields lets loops validates matches_ =>
      fields.map .field ++ lets.map .letItem ++ validates.map .validate ++ loops.map .loop ++
        matches_.map .matchItem

/-- The items of a body in source order. -/
def MatchArm.items (body : MatchArm) : List BodyItem :=
  body.listed.insertionSort fun a b => a.order ≤ b.order

/-- The body of a message, which is like that of a default arm. -/
def Message.body (msg : Message) : MatchArm :=
  .mk none msg.fields msg.lets msg.loops msg.validates msg.matches_

section Items

variable (cx : EmitContext) (inlineCode : String → Message → CodeTable) (namePrefix : String)

def BodyItem.compiled (item : BodyItem) : ItemCode :=
  (item.order, item.emitter cx namePrefix, item.code cx inlineCode namePrefix)

theorem matchCodes_eq_map (ms : List Match) : matchCodes cx inlineCode namePrefix ms =
    ms.map fun m => (BodyItem.matchItem m).compiled cx inlineCode namePrefix := by
  induction ms with
  | nil => simp [matchCodes]
  | cons m ms ih =>
      rw [matchCodes, ih, List.map_cons]
      rfl

theorem sort_compiled (items : List BodyItem) :
    (items.map (BodyItem.compiled cx inlineCode namePrefix)).insertionSort
        (fun a b => a.1 ≤ b.1) =
      (items.insertionSort fun a b => a.order ≤ b.order).map
        (BodyItem.compiled cx inlineCode namePrefix) := by
  refine (List.map_insertionSort (fun a b : BodyItem => a.order ≤ b.order) _ _ items
    fun _ _ _ _ => ?_).symm
  exact Iff.rfl

theorem codeAlong_map {α β : Type*} (emit : EmitState → β → EmitState) (code : β → CodeTable)
    (f : α → β) (as : List α) (s : EmitState) :
    codeAlong emit code (as.map f) s =
      codeAlong (fun s a => emit s (f a)) (fun a => code (f a)) as s := by
  induction as generalizing s with
  | nil => rfl
  | cons a as ih => rw [List.map_cons, codeAlong, codeAlong, ih]

/-- The items of an arm, compiled. -/
theorem armCode_listed (body : MatchArm) : armCode cx inlineCode namePrefix body =
    (body.case,
      emitItems ((body.listed.map (BodyItem.compiled cx inlineCode namePrefix)).map
        ItemCode.emitter),
      itemsCode (body.listed.map (BodyItem.compiled cx inlineCode namePrefix))) := by
  obtain ⟨case, fields, lets, loops, validates, matches_⟩ := body
  have hlisted : bodyCodes cx inlineCode namePrefix fields lets loops validates
      (matchCodes cx inlineCode namePrefix matches_) =
        (MatchArm.mk case fields lets loops validates matches_).listed.map
          (BodyItem.compiled cx inlineCode namePrefix) := by
    rw [matchCodes_eq_map]
    simp [bodyCodes, MatchArm.listed, BodyItem.compiled, BodyItem.order, BodyItem.emitter,
      BodyItem.code, Function.comp_def]
  rw [← hlisted, bodyCodes_emitters, matchCodes_emitters]
  unfold armCode
  rfl

/-- A body is emitted item by item. -/
theorem armEmitter_items (body : MatchArm) (s : EmitState) :
    (armEmitter cx namePrefix body).2 s =
      body.items.foldl (fun s item => item.emitter cx namePrefix s) s := by
  rw [← armCode_emitter cx fun _ _ _ => .nil]
  unfold ArmCode.emitter
  rw [armCode_listed]
  dsimp only
  rw [emitItems_emitters, sort_compiled, List.foldl_map]
  rfl

theorem armCode_items (body : MatchArm) (s : EmitState) :
    (armCode cx inlineCode namePrefix body).2.2 s =
      codeAlong (fun s item => item.emitter cx namePrefix s)
        (fun item => item.code cx inlineCode namePrefix) body.items s := by
  rw [armCode_listed]
  unfold itemsCode
  rw [sort_compiled]
  exact codeAlong_map _ _ _ _ s

theorem messageBodyCode_eq (msg : Message) : messageBodyCode cx inlineCode namePrefix msg =
    (armCode cx inlineCode namePrefix msg.body).2.2 := by
  unfold Message.body armCode
  rfl

end Items

/-- The code of referenced messages with `remaining` levels of inlining left. -/
def inlineTable (messages : List Message) (littleEndian : Bool) :
    Nat → String → Message → CodeTable
  | 0 => fun _ _ _ => .nil
  | remaining + 1 => messageCode messages currentOffsetSlot littleEndian remaining

section Contexts

variable (messages : List Message) (littleEndian : Bool) (remaining : Nat)

theorem messageCode_eq : messageCode messages currentOffsetSlot littleEndian remaining =
    messageBodyCode (compileContext messages littleEndian remaining)
      (inlineTable messages littleEndian remaining) := by
  cases remaining <;> rfl

theorem compileContext_code : InlinesCode (compileContext messages littleEndian remaining)
    (inlineTable messages littleEndian remaining) := by
  intro inlineMessage hinline
  cases remaining with
  | zero => cases hinline
  | succ remaining =>
      obtain rfl := Option.some.inj hinline
      exact messageEmitter_codes messages currentOffsetSlot littleEndian remaining

theorem compileContext_fits : InlinesFit (compileContext messages littleEndian remaining) := by
  intro inlineMessage hinline
  cases remaining with
  | zero => cases hinline
  | succ remaining =>
      obtain rfl := Option.some.inj hinline
      exact messageEmitter_fits messages currentOffsetSlot littleEndian remaining

end Contexts

section Places

variable (cx : EmitContext) (namePrefix : String)

/-- The item is emitted at `t` when the body is emitted at `s`. -/
def ItemAt (body : MatchArm) (s : EmitState) (item : BodyItem) (t : EmitState) : Prop :=
  ∃ before after, body.items = before ++ item :: after ∧
    t = before.foldl (fun s item => item.emitter cx namePrefix s) s

/-- The field is emitted at `t`, under `fieldPrefix`, when the body is emitted at `s`. -/
inductive FieldAt (body : MatchArm) (s : EmitState) : String → Field → EmitState → Prop
  | direct {field t} : ItemAt cx namePrefix body s (.field field) t →
      FieldAt body s namePrefix field t
  | looped {lp t before field after} : ItemAt cx namePrefix body s (.loop lp) t →
      lp.body = before ++ field :: after →
      FieldAt body s (joinName namePrefix lp.name) field
        (before.foldl (fun s field => emitFieldBytecode cx field (joinName namePrefix lp.name) s)
          (loopBodyStart cx namePrefix lp t))

end Places

/-- The state at which the body of the message that a field refers to is emitted. -/
def inlineStart (cx : EmitContext) (fieldPrefix : String) (field : Field) (s : EmitState) :
    EmitState :=
  registerField field (joinName fieldPrefix field.name) (emitCondition cx field s).2

/-- The context of the bodies of a protocol, by the levels of inlining that are left. -/
def Protocol.context (proto : Protocol) (remaining : Nat) : EmitContext :=
  compileContext proto.messages (proto.endian == "little") remaining

/-- The code of the messages that the bodies of a protocol refer to. -/
def Protocol.inlines (proto : Protocol) (remaining : Nat) : String → Message → CodeTable :=
  inlineTable proto.messages (proto.endian == "little") remaining

/-- The state at which the body of an arm of a match is emitted. -/
def armPlace (cx : EmitContext) (namePrefix : String) (tag : Expr) (before : List MatchArm)
    (arm : MatchArm) (after : List MatchArm) (s : EmitState) : EmitState :=
  armStart cx namePrefix (s.emitExpr cx tag).1 before arm after (s.emitExpr cx tag).2

/-- The bodies of a protocol with the states at which they are emitted. -/
inductive BodyAt (proto : Protocol) : Nat → String → MatchArm → EmitState → Prop
  | root {msg} : proto.messages[rootMessageIndex proto]? = some msg →
      BodyAt proto (maxRefDepth + 1) "" msg.body messageStart
  | arm {remaining namePrefix body s tag before arm after order t} :
      BodyAt proto remaining namePrefix body s →
      ItemAt (proto.context remaining) namePrefix body s
        (.matchItem (.mk tag (before ++ arm :: after) order)) t →
      IsEmitted arm after →
      BodyAt proto remaining namePrefix arm
        (armPlace (proto.context remaining) namePrefix tag before arm after t)
  | inlined {remaining namePrefix body s fieldPrefix field t refName msg} :
      BodyAt proto (remaining + 1) namePrefix body s →
      FieldAt (proto.context (remaining + 1)) namePrefix body s fieldPrefix field t →
      field.ty = .messageRef refName →
      proto.messages.find? (·.name == refName) = some msg →
      BodyAt proto remaining
        (if fieldPrefix = "" then field.name else joinName fieldPrefix field.name) msg.body
        (inlineStart (proto.context (remaining + 1)) fieldPrefix field t)

section Standing

variable {proto : Protocol} {program : BytecodeProgram} {fieldMap : SlotMap} {remaining : Nat}
  {namePrefix : String} {body : MatchArm} {s : EmitState}

/-- The program has the code of a body where the body is emitted, and the slots fit there. -/
structure InPlace (proto : Protocol) (program : BytecodeProgram) (remaining : Nat)
    (namePrefix : String) (body : MatchArm) (s : EmitState) : Prop where
  stands : Stands program s
    ((armCode (proto.context remaining) (proto.inlines remaining) namePrefix body).2.2 s)
  fits : SlotsFit currentOffsetSlot s

theorem Protocol.context_code (proto : Protocol) (remaining : Nat) :
    InlinesCode (proto.context remaining) (proto.inlines remaining) :=
  compileContext_code proto.messages _ remaining

theorem Protocol.context_fits (proto : Protocol) (remaining : Nat) :
    InlinesFit (proto.context remaining) :=
  compileContext_fits proto.messages _ remaining

/-- An item of a body that is in place is in place. -/
theorem InPlace.item {item : BodyItem} {t : EmitState}
    (h : InPlace proto program remaining namePrefix body s)
    (hat : ItemAt (proto.context remaining) namePrefix body s item t) :
    Stands program t (item.code (proto.context remaining) (proto.inlines remaining) namePrefix t) ∧
      SlotsFit currentOffsetSlot t := by
  obtain ⟨before, after, hitems, rfl⟩ := hat
  have hstands := h.stands
  rw [armCode_items, hitems] at hstands
  constructor
  · exact hstands.along fun item _ => item.emitter_codes (proto.context_code remaining) namePrefix
  · exact (Fits.foldl (fun item => item.emitter_fits (proto.context_fits remaining) namePrefix)
      before s).fits h.fits

/-- The slots fit where the body of an arm is emitted. -/
theorem armPlace_fits {cx : EmitContext} (hcx : InlinesFit cx) {tag : Expr}
    {before after : List MatchArm} {arm : MatchArm} {t : EmitState}
    (ht : SlotsFit cx.currentOffsetSlot t) :
    SlotsFit cx.currentOffsetSlot (armPlace cx namePrefix tag before arm after t) := by
  have harms : ∀ arms : List MatchArm, ArmsFit cx.currentOffsetSlot (t.emitExpr cx tag).1 t
      ((arms.map (armEmitter cx namePrefix)).foldl (emitArm (t.emitExpr cx tag).1)
        ⟨[], none, (t.emitExpr cx tag).2⟩) := by
    intro arms
    rw [← armEmitters_eq_map]
    exact emitArms_fits (armEmitters_fit hcx namePrefix arms)
      ⟨.expr t cx tag, FitsAfter.expr_result t cx tag, by simp⟩
  unfold armPlace
  cases hcase : arm.case with
  | some cv =>
      have hstart := (armBodyStart_fits cv (harms before)).fits ht
      rw [emitArms_state] at hstart
      rw [armStart_case hcase]
      exact hstart
  | none =>
      have hall := (harms (before ++ arm :: after)).fits.fits ht
      rw [emitArms_state] at hall
      rw [armStart_default hcase]
      exact hall

/-- The bodies of the arms of a match in place are in place. -/
theorem InPlace.arm {tag : Expr} {before after : List MatchArm} {arm : MatchArm} {order : Nat}
    {t : EmitState} (h : InPlace proto program remaining namePrefix body s)
    (hat : ItemAt (proto.context remaining) namePrefix body s
      (.matchItem (.mk tag (before ++ arm :: after) order)) t) (hemitted : IsEmitted arm after) :
    InPlace proto program remaining namePrefix arm
      (armPlace (proto.context remaining) namePrefix tag before arm after t) := by
  obtain ⟨hstands, hfits⟩ := h.item hat
  obtain ⟨-, harms⟩ := match_stands tag (before ++ arm :: after) order hstands
  exact ⟨(arm_stands (proto.context_code remaining) hemitted harms rfl).bodyStands,
    armPlace_fits (proto.context_fits remaining) hfits⟩

/-- A field of a body in place is in place. -/
theorem InPlace.field {fieldPrefix : String} {field : Field} {t : EmitState}
    (h : InPlace proto program remaining namePrefix body s)
    (hat : FieldAt (proto.context remaining) namePrefix body s fieldPrefix field t) :
    Stands program t
        (fieldCode (proto.context remaining) (proto.inlines remaining) field fieldPrefix t) ∧
      SlotsFit currentOffsetSlot t := by
  have hcx := proto.context_code remaining
  have hfits := proto.context_fits remaining
  cases hat with
  | direct hitem => exact h.item hitem
  | @looped lp t before field after hitem hbody =>
      obtain ⟨hstands, ht⟩ := h.item hitem
      let inits := (lp.carries.foldl (emitCarry (proto.context remaining)
        (joinName namePrefix lp.name)) (∅, t)).2
      have hinits : Coded t inits _ :=
        emitCarries_codes (proto.context remaining) (joinName namePrefix lp.name) lp.carries (∅, t)
      have hcond := Coded.expr inits (proto.context remaining) lp.condition
      have hstart : (loopBodyStart (proto.context remaining) namePrefix lp t).instructions.length =
          (inits.emitExpr (proto.context remaining) lp.condition).2.instructions.length + 1 :=
        List.length_append
      rw [hcond.length_eq] at hstart
      have hfields := ((hstands.second hinits).looped hstart).first
      rw [hbody] at hfields
      refine ⟨hfields.along fun field _ => emitField_codes hcx field _, ?_⟩
      exact (Fits.foldl (fun field => emitField_fits hfits field _) before _).fits
        ((loopBodyStart_fits _ namePrefix lp t).fits ht)

/-- The body of the message that a field in place refers to is in place. -/
theorem InPlace.inlined {fieldPrefix : String} {field : Field} {t : EmitState} {refName : String}
    {msg : Message} (h : InPlace proto program (remaining + 1) namePrefix body s)
    (hat : FieldAt (proto.context (remaining + 1)) namePrefix body s fieldPrefix field t)
    (hty : field.ty = .messageRef refName)
    (hmsg : proto.messages.find? (·.name == refName) = some msg) :
    InPlace proto program remaining
      (if fieldPrefix = "" then field.name else joinName fieldPrefix field.name) msg.body
      (inlineStart (proto.context (remaining + 1)) fieldPrefix field t) := by
  obtain ⟨hstands, ht⟩ := h.field hat
  have hbody : Stands program (emitCondition (proto.context (remaining + 1)) field t).2
      (fieldBodyCode (proto.context (remaining + 1)) (messageEmitter proto.messages
        currentOffsetSlot (proto.endian == "little") remaining) (proto.inlines (remaining + 1))
          field fieldPrefix (emitCondition (proto.context (remaining + 1)) field t).2) := by
    cases hcond : field.conditional with
    | none =>
        rw [fieldCode_always rfl hcond] at hstands
        unfold emitCondition
        rw [hcond]
        exact hstands
    | some cond =>
        rw [fieldCode_conditional rfl hcond] at hstands
        unfold emitCondition at hstands ⊢
        rw [hcond] at hstands ⊢
        exact (hstands.second (.expr t _ cond)).skipped List.length_append
  have hread := hbody.first.first
  rw [readCode_inlined hty hmsg] at hread
  have hcond := (emitCondition_fits (proto.context (remaining + 1)) field t).fits ht
  refine ⟨?_, (registerField_fits field _ _ _).fits hcond⟩
  rw [← messageBodyCode_eq]
  unfold Protocol.inlines Protocol.context
  rw [← messageCode_eq]
  exact hread

theorem root_inPlace {msg : Message}
    (hcompile : protocolToBytecodeWithMap proto = some (program, fieldMap))
    (hmsg : proto.messages[rootMessageIndex proto]? = some msg) :
    InPlace proto program (maxRefDepth + 1) "" msg.body messageStart := by
  have hcode := compiled_instructions hcompile
  have hstands : Stands program ⟨∅, ∅, [], 0⟩ (protocolCode proto) := by
    unfold Stands
    rw [hcode]
    exact List.prefix_refl _
  unfold protocolCode at hstands
  rw [hmsg] at hstands
  have hload : Coded ⟨∅, ∅, [], 0⟩ messageStart (plain (.loadConst 0 currentOffsetSlot)) := rfl
  have hroot := hstands.first.second hload
  dsimp only at hroot
  rw [messageCode_eq, messageBodyCode_eq] at hroot
  refine ⟨hroot, Nat.zero_le _, (TableWithin.empty 1).insert _ (Nat.zero_le _), ?_⟩
  exact .singleton (List.forall_mem_singleton.mpr (Nat.zero_le _))

/-- Every body of a compiled protocol is in place. -/
theorem BodyAt.inPlace (hcompile : protocolToBytecodeWithMap proto = some (program, fieldMap))
    (h : BodyAt proto remaining namePrefix body s) :
    InPlace proto program remaining namePrefix body s := by
  induction h with
  | root hmsg => exact root_inPlace hcompile hmsg
  | arm _ hat hemitted ih => exact ih.arm hat hemitted
  | inlined _ hat hty hmsg ih => exact ih.inlined hat hty hmsg

end Standing

end NFdl
