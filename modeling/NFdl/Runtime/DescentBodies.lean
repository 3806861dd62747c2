import NFdl.Runtime.DescentFields

/-!
# Bodies are decoded item by item

The code of a body is that of its items in source order. The passage through it is the
decoder's walk over the items: loops round by round, and in a match the body of the arm
that is taken. The induction is on the levels of inlining that are left, and at each level
on the size of the body.
-/

namespace NFdl

open BytecodeVm Machine

/-- Items that are emitted one after another are passed one after another. -/
theorem along_passes {α τ : Type*} {moves : Moves { i : Instruction // ¬ i.IsJump } ℕ Config}
    {emit : τ → α → τ} {code : α → τ → Code} (address : τ → ℕ) {items : List α} {s : τ}
    {Q : List α → Config → Config → Prop}
    (haddress : ∀ a t, address (emit t a) = address t + (code a t).length)
    (hnil : ∀ c, Q [] c c)
    (hcons : ∀ before a after c d e, items = before ++ a :: after →
      Passage moves Config.ip (code a (before.foldl emit s)) (address (before.foldl emit s)) c d →
      Q after d e → Q (a :: after) c e)
    {c d : Config} (h : Passage moves Config.ip (codeAlong emit code items s) (address s) c d) :
    Q items c d := by
  have hsuffix : ∀ after before c, items = before ++ after →
      Passage moves Config.ip (codeAlong emit code after (before.foldl emit s))
        (address (before.foldl emit s)) c d → Q after c d := by
    intro after
    induction after with
    | nil =>
        intro before c _ hpass
        obtain rfl := hpass.eq_of_nil
        exact hnil c
    | cons a after ih =>
        intro before c hitems hpass
        obtain ⟨m, hhead, htail⟩ := hpass.seq_cases
        rw [← haddress] at htail
        refine hcons before a after c m d hitems hhead (ih (before ++ [a]) m ?_ ?_)
        · rw [hitems, List.append_assoc, List.singleton_append]
        · rw [List.foldl_append]
          exact htail
  exact hsuffix items [] c rfl h

section Items

variable {proto : Protocol} {program : BytecodeProgram} {fieldMap : SlotMap} {stream : Bool}
  {c d : Config} {depth remaining : ℕ} {namePrefix fieldPrefix : String} {body : MatchArm}
  {s t : EmitState} {field : Field} {tooDeep : ℕ → Prop} {P : Config → Prop}

/-- A field is cut where no message is inlined any more. -/
theorem field_decodes (hcompile : protocolToBytecodeWithMap proto = some (program, fieldMap))
    (hdecodes : DecodesRun proto P tooDeep)
    (hinlines : ∀ r, remaining = r + 1 → BodiesDescend proto program stream tooDeep P r)
    (hbody : BodyAt proto remaining namePrefix body s)
    (hfield : FieldAt (proto.context remaining) namePrefix body s fieldPrefix field t)
    (h : Passes program stream P
      (fieldCode (proto.context remaining) (proto.inlines remaining) field fieldPrefix t)
      t.instructions.length c d) :
    Descends proto program stream tooDeep (depthOf remaining) (.item (.field field)) c d := by
  cases remaining with
  | zero =>
      have hslot : t.slot ≠ currentOffsetSlot :=
        Nat.ne_of_gt (Nat.lt_of_lt_of_le hbody.slot_pos hfield.slot_le)
      obtain hdeep | hcuts := hdecodes.deep
      · obtain ⟨v, hread, -⟩ := readThen_decodes (h.mono ((vmMoves program stream).among_le P))
          .opaqueByte hslot
        exact .cut hdeep hread
      · obtain ⟨m, hread, -⟩ := h.seq_cases
        have hc : P c := hread.instr_does.1
        exact absurd (h.start ▸ .mk hbody hfield) (hcuts c hc)
  | succ remaining =>
      exact field_succ_decodes hcompile hdecodes (hinlines remaining rfl) hbody hfield h

theorem letItem_decodes {binding : Let} (hbody : BodyAt proto remaining namePrefix body s)
    (hitem : ItemAt (proto.context remaining) namePrefix body s (.letItem binding) t)
    (h : Passage (vmMoves program stream) Config.ip (letCode (proto.context remaining) binding t)
      t.instructions.length c d) :
    Descends proto program stream tooDeep depth (.item (.letItem binding)) c d := by
  obtain ⟨m, hexpr, hcopy⟩ := h.seq_cases
  exact .settle (.letItem (expr_decodes (.letItem hbody hitem) hexpr))
    (does_rests proto hcopy.instr_does id)

/-- The initialisers of a loop, one after another. -/
theorem carries_decode {lp : Loop} (hbody : BodyAt proto remaining namePrefix body s)
    (hitem : ItemAt (proto.context remaining) namePrefix body s (.loop lp) t)
    (h : Passage (vmMoves program stream) Config.ip
      (codeAlong (emitCarry (proto.context remaining) (joinName namePrefix lp.name))
        (fun carry acc => acc.2.exprCode (proto.context remaining) carry.init) lp.carries (∅, t))
      t.instructions.length c d) :
    Descends proto program stream tooDeep depth (.askAll (lp.carries.map (·.init))) c d := by
  refine along_passes (fun acc : SlotMap × EmitState => acc.2.instructions.length)
    (Q := fun carries c d => Descends proto program stream tooDeep depth
      (.askAll (carries.map (·.init))) c d) ?_ (fun _ => .askNone) ?_ h
  · intro carry acc
    exact (Coded.expr acc.2 (proto.context remaining) carry.init).length_eq
  · intro before carry after c m d hcarries hpass hrest
    exact .askNext (expr_decodes (.init hbody hitem hcarries) hpass) hrest

/-- The `next` statements of a loop, one after another. -/
theorem nexts_decode {lp : Loop} (hbody : BodyAt proto remaining namePrefix body s)
    (hitem : ItemAt (proto.context remaining) namePrefix body s (.loop lp) t)
    (h : Passage (vmMoves program stream) Config.ip
      (codeAlong (emitNext (proto.context remaining) (joinName namePrefix lp.name))
        (nextCode (proto.context remaining) (joinName namePrefix lp.name)) lp.nexts
        (lp.body.foldl (fun s field => emitFieldBytecode (proto.context remaining) field
          (joinName namePrefix lp.name) s)
          (loopBodyStart (proto.context remaining) namePrefix lp t)))
      (lp.body.foldl (fun s field => emitFieldBytecode (proto.context remaining) field
        (joinName namePrefix lp.name) s)
        (loopBodyStart (proto.context remaining) namePrefix lp t)).instructions.length c d) :
    Descends proto program stream tooDeep depth (.askAll (lp.nexts.map (·.value))) c d := by
  refine along_passes (fun s : EmitState => s.instructions.length)
    (Q := fun nexts c d => Descends proto program stream tooDeep depth
      (.askAll (nexts.map (·.value))) c d) ?_ (fun _ => .askNone) ?_ h
  · intro nxt t
    exact (emitNext_codes (joinName namePrefix lp.name) nxt t).length_eq
  · intro before nxt after c m d hnexts hpass hrest
    obtain ⟨m', hexpr, hcopy⟩ := hpass.seq_cases
    exact .askNext (expr_decodes (.nextValue hbody hitem hnexts) hexpr)
      (.pause (does_rests proto hcopy.instr_does id) hrest)

/-- A loop round by round, with its fields as they are decoded. -/
theorem loop_decodes {lp : Loop} (hbody : BodyAt proto remaining namePrefix body s)
    (hitem : ItemAt (proto.context remaining) namePrefix body s (.loop lp) t)
    (hfields : ∀ {fieldPrefix field u c d},
      FieldAt (proto.context remaining) namePrefix body s fieldPrefix field u →
      Passes program stream P
        (fieldCode (proto.context remaining) (proto.inlines remaining) field fieldPrefix u)
        u.instructions.length c d →
      Descends proto program stream tooDeep depth (.item (.field field)) c d)
    (h : Passes program stream P
      (loopCode (proto.context remaining) (proto.inlines remaining) namePrefix lp t)
      t.instructions.length c d) :
    Descends proto program stream tooDeep depth (.item (.loop lp)) c d := by
  let cx := proto.context remaining
  let loopPrefix := joinName namePrefix lp.name
  let inits := (lp.carries.foldl (emitCarry cx loopPrefix) (∅, t)).2
  let start := loopBodyStart cx namePrefix lp t
  let fields := lp.body.foldl (fun s field => emitFieldBytecode cx field loopPrefix s) start
  have hle := (vmMoves program stream).among_le P
  have hcodes : ∀ field, Codes (emitFieldBytecode cx field loopPrefix)
      (fieldCode cx (proto.inlines remaining) field loopPrefix) := fun field =>
    emitField_codes (proto.context_code remaining) field loopPrefix
  obtain ⟨m, hcarries, hloop⟩ := h.seq_cases
  rw [← (emitCarries_codes cx loopPrefix lp.carries (∅, t)).length_eq] at hloop
  refine .loop (carries_decode hbody hitem (hcarries.mono hle)) ?_
  refine hloop.loop_induction ?_ ?_
  · rintro c u d hhead ⟨-, hleaves⟩
    have hasked : Descends proto program stream tooDeep depth (.ask lp.condition _) c u :=
      expr_decodes (.loop hbody hitem) (hhead.mono hle)
    rw [leaves_getSlot hleaves] at hasked
    exact .settle (.exit hasked) (leaves_rests proto hleaves)
  · rintro c u v w x d hhead ⟨-, henters⟩ hround ⟨-, hjumps⟩ hrest
    have hasked : Descends proto program stream tooDeep depth (.ask lp.condition _) c u :=
      expr_decodes (.loop hbody hitem) (hhead.mono hle)
    have hstart : start.instructions.length =
        inits.instructions.length + (inits.exprCode cx lp.condition).length + 1 := by
      rw [← (Coded.expr inits cx lp.condition).length_eq]
      exact List.length_append
    obtain ⟨w', hbodyPass, hnexts⟩ := hround.seq_cases
    rw [← hstart] at hbodyPass hnexts
    rw [← (Coded.along (fun field _ => hcodes field) start).length_eq] at hnexts
    refine .round hasked (enters_getSlot henters) (.pause (enters_rests proto henters) ?_)
      (nexts_decode hbody hitem (hnexts.mono hle)) (.pause (jumps_rests proto hjumps) hrest)
    refine along_passes (fun s : EmitState => s.instructions.length)
      (Q := fun fields c d => Descends proto program stream tooDeep depth
        (.items (fields.map .field)) c d) ?_ (fun _ => .done) ?_ hbodyPass
    · intro field s
      exact (hcodes field s).length_eq
    · intro before field after c m d hsplit hpass hafter
      exact .next (hfields (.looped hitem hsplit) hpass) hafter

end Items

section Arms

variable (proto : Protocol) (program : BytecodeProgram) (stream : Bool) (P : Config → Prop)
  (remaining : ℕ) (namePrefix : String) (tagSlot : ℕ) (v : UInt64)

/-- The passage through the code of an arm. -/
def ArmPassage (arm : MatchArm) (t : EmitState) : Config → Config → Prop :=
  Passes program stream P
    ((armCode (proto.context remaining) (proto.inlines remaining) namePrefix arm).2.2 t)
    t.instructions.length

/-- The passage through the tests and the bodies of arms that are emitted from `s` on, for a
tag of value `v`. The default arm `waiting` stands before them. -/
inductive ArmsPassage (arms : List MatchArm) (s : EmitState) (waiting : Option CodeTable) :
    Config → Config → Prop
  | pause {c d e} : (vmReader proto program stream).rests c d →
      ArmsPassage arms s waiting d e → ArmsPassage arms s waiting c e
  | taken {before arm after c d e} : arms = before ++ arm :: after → arm.takes v →
      (∀ a ∈ before, ¬ a.takes v) →
      ArmPassage proto program stream P remaining namePrefix arm
        (armStart (proto.context remaining) namePrefix tagSlot before arm after s) c d →
      (vmReader proto program stream).rests d e → ArmsPassage arms s waiting c e
  | otherwise {before arm after c d} : arms = before ++ arm :: after →
      (∀ a ∈ arms, ¬ a.takes v) → arm.case = none → IsEmitted arm after →
      ArmPassage proto program stream P remaining namePrefix arm
        (armStart (proto.context remaining) namePrefix tagSlot before arm after s) c d →
      ArmsPassage arms s waiting c d
  | noArm {c d} : (∀ a ∈ arms, ¬ a.takes v ∧ a.case ≠ none) →
      Passes program stream P
        ((waiting.map
          (· (afterArms (proto.context remaining) namePrefix tagSlot arms s))).getD .nil)
        (afterArms (proto.context remaining) namePrefix tagSlot arms s).instructions.length c d →
      ArmsPassage arms s waiting c d

variable {proto program stream P remaining namePrefix tagSlot v} {arm : MatchArm}
  {arms : List MatchArm} {s : EmitState} {waiting : Option CodeTable} {c d : Config}

/-- An arm that does not take the tag's value changes what follows only if it is the default
arm that counts. -/
theorem ArmsPassage.cons {waiting' : Option CodeTable} (htakes : ¬ arm.takes v)
    (h : ArmsPassage proto program stream P remaining namePrefix tagSlot v arms
      (afterArm (proto.context remaining) namePrefix tagSlot s arm) waiting' c d)
    (hnoArm : ∀ c d, (∀ a ∈ arms, ¬ a.takes v ∧ a.case ≠ none) →
      Passes program stream P
        ((waiting'.map (· (afterArms (proto.context remaining) namePrefix tagSlot (arm :: arms)
          s))).getD .nil)
        (afterArms (proto.context remaining) namePrefix tagSlot (arm :: arms)
          s).instructions.length c d →
      ArmsPassage proto program stream P remaining namePrefix tagSlot v (arm :: arms) s waiting
      c d) :
    ArmsPassage proto program stream P remaining namePrefix tagSlot v (arm :: arms) s waiting
      c d := by
  induction h with
  | pause hrests _ ih => exact .pause hrests ih
  | @taken before arm' after c d e harms htakes' hbefore hpass hrests =>
      have hsplit : arm :: arms = (arm :: before) ++ arm' :: after := by
        rw [harms, List.cons_append]
      refine .taken hsplit htakes' (List.forall_mem_cons.mpr ⟨htakes, hbefore⟩) ?_ hrests
      rw [armStart_cons]
      exact hpass
  | @otherwise before arm' after c d harms hnone hdefault hemitted hpass =>
      have hsplit : arm :: arms = (arm :: before) ++ arm' :: after := by
        rw [harms, List.cons_append]
      refine .otherwise hsplit (List.forall_mem_cons.mpr ⟨htakes, hnone⟩) hdefault hemitted ?_
      rw [armStart_cons]
      exact hpass
  | noArm hnone hpass => exact hnoArm _ _ hnone hpass

/-- A default arm waits until all arms are tested. -/
theorem ArmsPassage.default (hcase : arm.case = none)
    (h : ArmsPassage proto program stream P remaining namePrefix tagSlot v arms s
      (some (armCode (proto.context remaining) (proto.inlines remaining) namePrefix arm).2.2) c d) :
    ArmsPassage proto program stream P remaining namePrefix tagSlot v (arm :: arms) s waiting
      c d := by
  rw [← afterArm_default hcase (s := s)] at h
  refine h.cons (not_takes_of_default hcase) fun c d hnone hpass => ?_
  have hsplit : arm :: arms = [] ++ arm :: arms := rfl
  refine .otherwise hsplit ?_ hcase (fun _ a hmem => (hnone a hmem).2) ?_
  · exact List.forall_mem_cons.mpr ⟨not_takes_of_default hcase, fun a hmem => (hnone a hmem).1⟩
  · rw [armStart_default hcase]
    exact hpass

/-- An arm whose constant is not the value of the tag is passed by. -/
theorem ArmsPassage.passed {cv : Int64} (hcase : arm.case = some cv) (htakes : ¬ arm.takes v)
    (h : ArmsPassage proto program stream P remaining namePrefix tagSlot v arms
      (afterArm (proto.context remaining) namePrefix tagSlot s arm) waiting c d) :
    ArmsPassage proto program stream P remaining namePrefix tagSlot v (arm :: arms) s waiting
      c d := by
  refine h.cons htakes fun c d hnone hpass => ?_
  refine .noArm (List.forall_mem_cons.mpr ⟨⟨htakes, ?_⟩, hnone⟩) hpass
  rw [hcase]
  exact Option.some_ne_none cv

/-- The test of an arm compares the tag with the constant and keeps the tag. -/
theorem test_slots {cv : Int64} {m : Config} {hload hcompare} (hslot : tagSlot < s.slot)
    (hc : (vmMoves program stream).does ⟨.loadConst cv.toUInt64 s.slot, hload⟩ c m)
    (hm : (vmMoves program stream).does ⟨.binOp .eq tagSlot s.slot (s.slot + 1), hcompare⟩ m d) :
    (∀ w, d.vm.slots[s.slot + 1]? = some w →
      w = boolWord (c.vm.getSlot tagSlot == cv.toUInt64)) ∧
      d.vm.getSlot tagSlot = c.vm.getSlot tagSlot := by
  obtain ⟨hinstr, hmove⟩ := does_move hc id
  obtain rfl := move_loadConst hinstr hmove
  obtain ⟨hinstr', hmove'⟩ := does_move hm id
  obtain ⟨l, r, hl, hr, rfl⟩ := move_compare hinstr' hmove'
  rw [writeSlot_slots, List.getElem?_set_ne (Nat.ne_of_gt hslot)] at hl
  have hr' : r = cv.toUInt64 := by
    rw [writeSlot_slots, List.getElem?_set_self'] at hr
    obtain ⟨-, -, rfl⟩ := Option.map_eq_some_iff.mp hr
    rfl
  have htag : c.vm.getSlot tagSlot = l := by
    rw [getSlot, List.getD_eq_getElem?_getD, show c.vm.slots[tagSlot]? = some l from hl]
    rfl
  subst hr' htag
  constructor
  · intro w hw
    rw [writeSlot_slots, List.getElem?_set_self'] at hw
    obtain ⟨-, -, rfl⟩ := Option.map_eq_some_iff.mp hw
    rfl
  · have hne : s.slot + 1 ≠ tagSlot := by omega
    simp [getSlot, List.getD_eq_getElem?_getD, hne, Nat.ne_of_gt hslot]

/-- A run that passes through the arms of a match takes the arm for the value of the tag,
unless the first test overwrites the slot of the tag. -/
theorem armsCode_passage (htag : c.vm.getSlot tagSlot = v)
    (hkept : s.slot ≤ tagSlot → (∃ arm ∈ arms, arm.case ≠ none) →
      ∀ c, P c → c.ip ≠ s.instructions.length)
    (h : Passes program stream P
      (armsCodeFrom (proto.context remaining) (proto.inlines remaining) namePrefix tagSlot arms s
        waiting) s.instructions.length c d) :
    ArmsPassage proto program stream P remaining namePrefix tagSlot v arms s waiting c d := by
  induction arms generalizing s waiting c with
  | nil => exact .noArm (List.forall_mem_nil _) h
  | cons arm arms ih =>
      cases hcase : arm.case with
      | none =>
          rw [armsCodeFrom_default hcase] at h
          refine .default hcase (ih htag (fun hle hexists => hkept hle ?_) h)
          obtain ⟨arm', hmem, hne⟩ := hexists
          exact ⟨arm', List.mem_cons_of_mem _ hmem, hne⟩
      | some cv =>
          rw [armsCodeFrom_case hcase] at h
          obtain ⟨m, htest, hchoose⟩ := h.seq_cases
          obtain ⟨m', hload, hcompare⟩ := htest.seq_cases
          have hslot : tagSlot < s.slot := by
            refine Nat.lt_of_not_le fun hle => ?_
            have hc : P c := hload.instr_does.1
            refine hkept hle ⟨arm, List.mem_cons_self .., ?_⟩ c hc h.start
            rw [hcase]
            exact Option.some_ne_none cv
          have hdoes : (vmMoves program stream).does ⟨.loadConst cv.toUInt64 s.slot, _⟩ c m' :=
            hload.instr_does.2
          have hdoes' : (vmMoves program stream).does
              ⟨.binOp .eq tagSlot s.slot (s.slot + 1), _⟩ m' m := hcompare.instr_does.2
          obtain ⟨hvalue, hkeeps⟩ := test_slots hslot hdoes hdoes'
          rw [htag] at hvalue hkeeps
          refine .pause (does_rests proto hdoes id) (.pause (does_rests proto hdoes' id) ?_)
          obtain ⟨u, w, ⟨-, henters⟩, hbody, -, hjumps⟩ | ⟨u, ⟨-, hleaves⟩, hrest⟩ :=
            hchoose.choose_cases
          · refine .pause (enters_rests proto henters) ?_
            have htakes : arm.takes v := by
              obtain ⟨target, w', -, -, hw, hne⟩ := henters
              rw [takes_of_case hcase]
              by_contra hother
              rw [hvalue w' hw, beq_false_of_ne (Ne.symm hother)] at hne
              exact hne rfl
            have hsplit : arm :: arms = [] ++ arm :: arms := rfl
            refine .taken hsplit htakes (List.forall_mem_nil _) ?_ (jumps_rests proto hjumps)
            rw [armStart_case hcase]
            unfold ArmPassage
            rw [armBodyStart_length]
            exact hbody
          · refine .pause (leaves_rests proto hleaves) ?_
            have htakes : ¬ arm.takes v := by
              obtain ⟨target, -, -, hw⟩ := hleaves
              rw [takes_of_case hcase]
              rintro rfl
              rw [beq_self_eq_true] at hvalue
              exact absurd (hvalue 0 hw) (by decide)
            have hslots : u.vm.getSlot tagSlot = m.vm.getSlot tagSlot := by
              obtain ⟨target, hinstr, hmove, -⟩ := hleaves
              exact congrArg (Option.getD · 0) (jump_slots hinstr rfl hmove)
            have hnext := (afterArm_binds (armEmitter_binds (proto.context_blocks remaining)
              namePrefix arm) (by rw [hcase]; exact Option.some_ne_none cv) tagSlot s).2
            refine .passed hcase htakes (ih (hslots.trans hkeeps) (fun hle => ?_) ?_)
            · have hlt := Nat.lt_of_lt_of_le hslot (Nat.le_of_add_right_le hnext)
              exact absurd hle (Nat.not_le.mpr hlt)
            · have haddress : ∀ base len, base + 4 + len = base + 2 + len + 2 := fun _ _ => by omega
              rw [afterArm_address (proto.context_code remaining) hcase, haddress]
              exact hrest

/-- A match decides as its tag says, and the body of the arm that it chooses is decoded. -/
theorem match_decodes {tooDeep : ℕ → Prop} {depth order : ℕ} {tag : Expr} {body : MatchArm}
    {start t : EmitState}
    (hdecodes : DecodesRun proto P tooDeep) (hbody : BodyAt proto remaining namePrefix body start)
    (hitem : ItemAt (proto.context remaining) namePrefix body start
      (.matchItem (.mk tag arms order)) t)
    (harms : ∀ before arm after, arms = before ++ arm :: after → IsEmitted arm after →
      ∀ c d, ArmPassage proto program stream P remaining namePrefix arm
        (armPlace (proto.context remaining) namePrefix tag before arm after t) c d →
        Descends proto program stream tooDeep depth (.items arm.items) c d)
    (h : Passes program stream P
      (matchStmtCode (proto.context remaining) (proto.inlines remaining) namePrefix
        (.mk tag arms order) t) t.instructions.length c d) :
    Descends proto program stream tooDeep depth (.item (.matchItem (.mk tag arms order))) c d := by
  let cx := proto.context remaining
  rw [matchStmtCode, matchCode, armCodes_eq_map] at h
  obtain ⟨m, htag, htests⟩ := h.seq_cases
  rw [← (Coded.expr t cx tag).length_eq] at htests
  have hasked : Descends proto program stream tooDeep depth (.ask tag _) c m :=
    expr_decodes (.tag hbody hitem) (htag.mono ((vmMoves program stream).among_le P))
  have hpassed := armsCode_passage rfl (fun hle hexists c hc hip =>
    hdecodes.keepsTag c hc (hip ▸ .mk hbody hitem hexists hle)) htests
  generalize m.vm.getSlot (t.emitExpr cx tag).1 = v at hasked hpassed
  clear htag htests h
  induction hpassed with
  | pause hrests _ ih => exact ih (.settle hasked hrests)
  | @taken before arm after m e d hsplit htakes hbefore hpass hrests =>
      have hemitted : IsEmitted arm after := fun hnone =>
        absurd htakes (not_takes_of_default hnone)
      have hdecoded := harms before arm after hsplit hemitted m e hpass
      subst hsplit
      exact .settle (.taken hasked htakes hbefore hdecoded) hrests
  | @otherwise before arm after m d hsplit hnone hdefault hemitted hpass =>
      have hdecoded := harms before arm after hsplit hemitted m d hpass
      subst hsplit
      exact .otherwise hasked hnone hdefault hemitted hdecoded
  | noArm hnone hpass =>
      obtain rfl := hpass.eq_of_nil
      exact .noArm hasked hnone

end Arms

section Bodies

variable {proto : Protocol} {program : BytecodeProgram} {fieldMap : SlotMap} {stream : Bool}
  {tooDeep : ℕ → Prop} {P : Config → Prop} {remaining : ℕ}

theorem arm_sizeOf_lt {body arm : MatchArm} {tag : Expr} {arms : List MatchArm} {order : ℕ}
    (hitem : .matchItem (.mk tag arms order) ∈ body.items) (harm : arm ∈ arms) :
    sizeOf arm < sizeOf body := by
  obtain ⟨case, fields, lets, loops, validates, matches_⟩ := body
  have hmatch : Match.mk tag arms order ∈ matches_ := by
    have hlisted := (List.perm_insertionSort _ _).mem_iff.mp hitem
    simpa [MatchArm.listed] using hlisted
  have hsize := List.sizeOf_lt_of_mem harm
  have hsize' := List.sizeOf_lt_of_mem hmatch
  simp only [MatchArm.mk.sizeOf_spec, Match.mk.sizeOf_spec] at hsize' ⊢
  omega

/-- One level of inlining: the bodies that are inlined below it are decoded already. -/
theorem bodies_step (hcompile : protocolToBytecodeWithMap proto = some (program, fieldMap))
    (hdecodes : DecodesRun proto P tooDeep)
    (hinlines : ∀ r, remaining = r + 1 → BodiesDescend proto program stream tooDeep P r) :
    BodiesDescend proto program stream tooDeep P remaining := by
  intro namePrefix body s c d hbody h
  -- The arms of a match are smaller bodies at the same level.
  induction hsize : sizeOf body using Nat.strongRecOn generalizing namePrefix body s c d with
  | ind size ih =>
      subst hsize
      let cx := proto.context remaining
      have hle := (vmMoves program stream).among_le P
      rw [armCode_items] at h
      refine along_passes (fun s : EmitState => s.instructions.length)
        (Q := fun items c d => Descends proto program stream tooDeep (depthOf remaining)
          (.items items) c d) ?_ (fun _ => .done) ?_ h
      · intro item t
        exact (item.emitter_codes (proto.context_code remaining) namePrefix t).length_eq
      · intro before item after c m d hitems hpass hrest
        have hitem : ItemAt cx namePrefix body s item _ := ⟨before, after, hitems, rfl⟩
        have hmem : item ∈ body.items := hitems ▸ List.mem_append_right _ (List.mem_cons_self ..)
        have hfields : ∀ {fieldPrefix field u c d},
            FieldAt cx namePrefix body s fieldPrefix field u →
            Passes program stream P
              (fieldCode cx (proto.inlines remaining) field fieldPrefix u)
              u.instructions.length c d →
            Descends proto program stream tooDeep (depthOf remaining) (.item (.field field)) c d :=
          fun hfield hpass => field_decodes hcompile hdecodes hinlines hbody hfield hpass
        refine .next ?_ hrest
        cases item with
        | field f => exact hfields (.direct hitem) hpass
        | letItem l => exact letItem_decodes hbody hitem (hpass.mono hle)
        | validate v =>
            exact .validate (validate_decodes (.validate hbody hitem) (hpass.mono hle))
        | loop lp => exact loop_decodes hbody hitem hfields hpass
        | matchItem stmt =>
            obtain ⟨tag, arms, order⟩ := stmt
            refine match_decodes hdecodes hbody hitem
              (fun before arm after hsplit hemitted c d harm => ?_) hpass
            have hsmaller := arm_sizeOf_lt hmem
              (hsplit ▸ List.mem_append_right _ (List.mem_cons_self ..) : arm ∈ arms)
            subst hsplit
            exact ih (sizeOf arm) hsmaller (.arm hbody hitem hemitted) harm rfl

/-- All bodies of a compiled protocol are decoded item by item. -/
theorem bodies_descend (hcompile : protocolToBytecodeWithMap proto = some (program, fieldMap))
    (hdecodes : DecodesRun proto P tooDeep) (remaining : ℕ) :
    BodiesDescend proto program stream tooDeep P remaining := by
  induction remaining with
  | zero => exact bodies_step hcompile hdecodes fun r hr => absurd hr (Nat.succ_ne_zero r).symm
  | succ remaining ih =>
      refine bodies_step hcompile hdecodes fun r hr => ?_
      obtain rfl := Nat.succ.inj hr
      exact ih

end Bodies

end NFdl
