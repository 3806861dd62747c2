import NFdl.Runtime.MatchRun
import NFdl.Runtime.CarryRun
import NFdl.Runtime.Runner
import NFdl.Bytecode.Chunks

/-!
# Matches as ordered choices

The specification chooses the first arm whose constant equals the tag, else the
default arm, and keeps the names of an arm local to it. Compiled matches do so
exactly when there is an arm to choose, the slot of the tag is reserved, and no
arm before binds the name. Otherwise control falls through, the first test
overwrites the tag, or a name denotes the slot of an arm that was not executed.
-/

namespace NFdl

open BytecodeVm Machine

/-- The constant of the arm equals the value of the tag. -/
def MatchArm.takes (v : UInt64) (arm : MatchArm) : Bool :=
  arm.case.any fun cv => cv.toUInt64 == v

/-- The arm that the specification chooses, between the arms `before` and `after`:
the first one with the value of the tag, else the default arm. -/
inductive Chosen (v : UInt64) (before : List MatchArm) (arm : MatchArm) (after : List MatchArm) : Prop
  | first : arm.takes v → (∀ a ∈ before, ¬ a.takes v) → Chosen v before arm after
  | default : arm.case = none → (∀ a ∈ before ++ after, ¬ a.takes v ∧ a.case ≠ none) →
      Chosen v before arm after

section Choice

variable {cx : EmitContext} {namePrefix : String} {tagSlot : Nat} {v : UInt64}
  {before after arms : List MatchArm} {arm : MatchArm} {s : EmitState}

theorem takes_of_case {cv : Int64} (h : arm.case = some cv) : arm.takes v ↔ cv.toUInt64 = v := by
  unfold MatchArm.takes
  rw [h]
  simp

theorem not_takes_of_default (h : arm.case = none) : ¬ arm.takes v := by
  unfold MatchArm.takes
  rw [h]
  simp

theorem case_of_takes (h : arm.takes v) : ∃ cv, arm.case = some cv := by
  cases hcase : arm.case with
  | some cv => exact ⟨cv, rfl⟩
  | none => exact absurd h (not_takes_of_default hcase)

theorem Chosen.emitted (h : Chosen v before arm after) : IsEmitted arm after := by
  intro hnone a hmem
  cases h with
  | first htakes _ => exact absurd htakes (not_takes_of_default hnone)
  | default _ hothers => exact (hothers a (List.mem_append_right _ hmem)).2

/-- The code of an arm with a constant is longer than its test. -/
theorem afterArm_length (hcx : InlinesBlocks cx) (hcase : arm.case ≠ none) (namePrefix : String)
    (tagSlot : Nat) (s : EmitState) :
    s.instructions.length + 4 ≤ (afterArm cx namePrefix tagSlot s arm).instructions.length := by
  obtain ⟨cv, hcv⟩ := Option.ne_none_iff_exists'.mp hcase
  have hbody := (armEmitter_emits hcx namePrefix arm (armBodyStart tagSlot cv s)).length_le
  unfold afterArm
  rw [armEmitter_eq hcv]
  have hlen : (emitArm tagSlot ⟨[], none, s⟩
      (some cv, (armEmitter cx namePrefix arm).2)).state.instructions.length =
        ((armEmitter cx namePrefix arm).2 (armBodyStart tagSlot cv s)).instructions.length + 1 := by
    simp [emitArm, armBodyStart, EmitState.push, EmitState.landHere, patchJumpIfZero]
  rw [armBodyStart_length] at hbody
  omega

theorem afterArms_length (hcx : InlinesBlocks cx) (namePrefix : String) (tagSlot : Nat)
    (arms : List MatchArm) (s : EmitState) :
    s.instructions.length ≤ (afterArms cx namePrefix tagSlot arms s).instructions.length := by
  induction arms generalizing s with
  | nil => exact Nat.le_refl _
  | cons arm arms ih =>
      have hrest := ih (afterArm cx namePrefix tagSlot s arm)
      rw [afterArms_cons]
      by_cases hcase : arm.case = none
      · rwa [afterArm_default hcase] at hrest ⊢
      · have harm := afterArm_length hcx hcase namePrefix tagSlot s
        omega

theorem afterArm_slot_le (hcx : InlinesBlocks cx) (namePrefix : String) (tagSlot : Nat)
    (arm : MatchArm) (s : EmitState) : s.slot ≤ (afterArm cx namePrefix tagSlot s arm).slot := by
  have hbinds : ∀ a ∈ [arm], Binds (armEmitter cx namePrefix a).2 _ _ :=
    fun a _ => armEmitter_binds hcx namePrefix a
  exact (afterArms_binds hbinds tagSlot s).slot_le

theorem atTest_ge (hcx : InlinesBlocks cx) {c : Config}
    (h : AtTest cx namePrefix tagSlot arms s c) : s.instructions.length ≤ c.ip := by
  obtain ⟨before, arm, after, -, -, hge, -⟩ := h
  exact Nat.le_trans (afterArms_length hcx namePrefix tagSlot before s) hge

theorem armsTarget_taken {cv : Int64} (hcase : arm.case = some cv)
    (h : s.slot ≤ tagSlot ∨ cv.toUInt64 = v) :
    armsTarget cx namePrefix tagSlot v (arm :: arms) s = s.instructions.length + 3 := by
  unfold armsTarget
  rw [hcase]
  exact if_pos h

theorem armsTarget_skipped
    (h : ∀ cv, arm.case = some cv → ¬ (s.slot ≤ tagSlot ∨ cv.toUInt64 = v)) :
    armsTarget cx namePrefix tagSlot v (arm :: arms) s =
      armsTarget cx namePrefix tagSlot v arms (afterArm cx namePrefix tagSlot s arm) := by
  rw [armsTarget]
  cases hcase : arm.case with
  | some cv => exact if_neg (h cv hcase)
  | none => rfl

/-- The test of an arm leads to its body or on to the other arms. -/
theorem armsTarget_cases (cx : EmitContext) (namePrefix : String) (tagSlot : Nat) (v : UInt64)
    (arm : MatchArm) (arms : List MatchArm) (s : EmitState) :
    (arm.case ≠ none ∧
      armsTarget cx namePrefix tagSlot v (arm :: arms) s = s.instructions.length + 3) ∨
    armsTarget cx namePrefix tagSlot v (arm :: arms) s =
      armsTarget cx namePrefix tagSlot v arms (afterArm cx namePrefix tagSlot s arm) := by
  by_cases h : ∃ cv, arm.case = some cv ∧ (s.slot ≤ tagSlot ∨ cv.toUInt64 = v)
  · obtain ⟨cv, hcase, h⟩ := h
    exact .inl ⟨hcase ▸ Option.some_ne_none cv, armsTarget_taken hcase h⟩
  · exact .inr (armsTarget_skipped fun cv hcase hgoal => h ⟨cv, hcase, hgoal⟩)

theorem armsTarget_ge (hcx : InlinesBlocks cx) (namePrefix : String) (tagSlot : Nat) (v : UInt64)
    (arms : List MatchArm) (s : EmitState) :
    s.instructions.length ≤ armsTarget cx namePrefix tagSlot v arms s := by
  induction arms generalizing s with
  | nil => exact Nat.le_refl _
  | cons arm arms ih =>
      obtain ⟨-, htarget⟩ | htarget := armsTarget_cases cx namePrefix tagSlot v arm arms s
      · rw [htarget]
        exact Nat.le_add_right _ 3
      · rw [htarget]
        exact Nat.le_trans (afterArms_length hcx namePrefix tagSlot [arm] s) (ih _)

/-- The tests lead out of the tests. -/
theorem armsTarget_not_test (hcx : InlinesBlocks cx) (v : UInt64) (arms : List MatchArm)
    (s : EmitState) (vm : BytecodeVm) :
    ¬ AtTest cx namePrefix tagSlot arms s ⟨vm, armsTarget cx namePrefix tagSlot v arms s⟩ := by
  induction arms generalizing s with
  | nil =>
      rintro ⟨before, arm, after, harms, -⟩
      simp at harms
  | cons arm arms ih =>
      rintro ⟨before, arm', after, harms, hcase', haddress⟩
      have hge := armsTarget_ge hcx namePrefix tagSlot v arms (afterArm cx namePrefix tagSlot s arm)
      cases before with
      | nil =>
          obtain ⟨rfl, rfl⟩ := List.cons.inj harms
          have hlen := afterArm_length hcx hcase' namePrefix tagSlot s
          have hlt : armsTarget cx namePrefix tagSlot v (arm :: arms) s <
              s.instructions.length + 3 := haddress.2
          obtain ⟨-, htarget⟩ | htarget := armsTarget_cases cx namePrefix tagSlot v arm arms s <;> omega
      | cons first before =>
          obtain ⟨rfl, rfl⟩ := List.cons.inj harms
          have htest : AtTest cx namePrefix tagSlot (before ++ arm' :: after)
              (afterArm cx namePrefix tagSlot s arm)
              ⟨vm, armsTarget cx namePrefix tagSlot v (arm :: (before ++ arm' :: after)) s⟩ :=
            ⟨before, arm', after, rfl, hcase', haddress⟩
          obtain ⟨hcase, htarget⟩ | htarget :=
            armsTarget_cases cx namePrefix tagSlot v arm (before ++ arm' :: after) s
          · have hlen := afterArm_length hcx hcase namePrefix tagSlot s
            have hle : _ ≤ armsTarget cx namePrefix tagSlot v (arm :: (before ++ arm' :: after)) s :=
              atTest_ge hcx htest
            omega
          · rw [htarget] at htest
            exact ih _ htest

/-- The tests of arms without the value of the tag lead on to the others. -/
theorem armsTarget_append (hcx : InlinesBlocks cx) (hbefore : ∀ a ∈ before, ¬ a.takes v)
    (hsafe : tagSlot < s.slot ∨ ∀ a ∈ before, a.case = none) :
    armsTarget cx namePrefix tagSlot v (before ++ arms) s =
      armsTarget cx namePrefix tagSlot v arms (afterArms cx namePrefix tagSlot before s) := by
  induction before generalizing s with
  | nil => rfl
  | cons first before ih =>
      have hnot := hbefore first (List.mem_cons_self ..)
      have hskipped : ∀ cv, first.case = some cv → ¬ (s.slot ≤ tagSlot ∨ cv.toUInt64 = v) := by
        intro cv hcase hgoal
        obtain hslot | hne := hsafe
        · exact hgoal.elim (Nat.not_le_of_lt hslot) (hnot ∘ (takes_of_case hcase).mpr)
        · rw [hne first (List.mem_cons_self ..)] at hcase
          cases hcase
      have hslots := afterArm_slot_le hcx namePrefix tagSlot first s
      rw [List.cons_append, armsTarget_skipped hskipped, afterArms_cons]
      refine ih (fun a hmem => hbefore a (List.mem_cons_of_mem _ hmem)) ?_
      exact hsafe.imp (fun hlt => Nat.lt_of_lt_of_le hlt hslots)
        fun hne a hmem => hne a (List.mem_cons_of_mem _ hmem)

/-- The tag is compared in a slot of its own, or the first constant equals it anyway. -/
def TagApart (tagSlot : Nat) (v : UInt64) (arms : List MatchArm) (s : EmitState) : Prop :=
  tagSlot < s.slot ∨ ∀ arm, arms.find? (·.case.isSome) = some arm → arm.takes v

/-- Without a slot of its own, only the first constant can be the chosen one. -/
theorem TagApart.defaults (h : TagApart tagSlot v (before ++ after) s)
    (hbefore : ∀ a ∈ before, ¬ a.takes v) : tagSlot < s.slot ∨ ∀ a ∈ before, a.case = none := by
  refine h.imp_right fun hfirst => ?_
  cases hfind : before.find? (·.case.isSome) with
  | some a =>
      have hall := hfirst a (by rw [List.find?_append, hfind, Option.some_or])
      exact absurd hall (hbefore a (List.mem_of_find?_eq_some hfind))
  | none =>
      intro a hmem
      simpa using List.find?_eq_none.mp hfind a hmem

/-- The tests lead to the chosen arm. -/
theorem armsTarget_chosen (hcx : InlinesBlocks cx) (hchosen : Chosen v before arm after)
    (hapart : TagApart tagSlot v (before ++ arm :: after) s) :
    armsTarget cx namePrefix tagSlot v (before ++ arm :: after) s =
      (armStart cx namePrefix tagSlot before arm after s).instructions.length := by
  cases hchosen with
  | first htakes hbefore =>
      obtain ⟨cv, hcase⟩ := case_of_takes htakes
      rw [armsTarget_append hcx hbefore (hapart.defaults hbefore), armStart_case hcase,
        armBodyStart_length]
      exact armsTarget_taken hcase (.inr ((takes_of_case hcase).mp htakes))
  | default hcase hothers =>
      have hnot : ∀ a ∈ before ++ arm :: after, ¬ a.takes v := by
        intro a hmem
        obtain hmem | hmem := List.mem_append.mp hmem
        · exact (hothers a (List.mem_append_left _ hmem)).1
        · obtain rfl | hmem := List.mem_cons.mp hmem
          · exact not_takes_of_default hcase
          · exact (hothers a (List.mem_append_right _ hmem)).1
      have hdefaults : tagSlot < s.slot ∨ ∀ a ∈ before ++ arm :: after, a.case = none := by
        rw [← List.append_nil (before ++ arm :: after)] at hapart
        exact hapart.defaults hnot
      rw [armStart_default hcase, ← List.append_nil (before ++ arm :: after),
        armsTarget_append hcx hnot hdefaults, List.append_nil]
      rfl

/-- Behind the test of an arm the addresses are above its body's. -/
theorem afterArms_length_lt (hcx : InlinesBlocks cx) (hcase : arm.case ≠ none) (namePrefix : String)
    (tagSlot : Nat) (before after : List MatchArm) (s : EmitState) :
    (afterArms cx namePrefix tagSlot before s).instructions.length + 4 ≤
      (afterArms cx namePrefix tagSlot (before ++ arm :: after) s).instructions.length := by
  have harm := afterArm_length hcx hcase namePrefix tagSlot
    (afterArms cx namePrefix tagSlot before s)
  have hafter := afterArms_length hcx namePrefix tagSlot after (afterArm cx namePrefix tagSlot
    (afterArms cx namePrefix tagSlot before s) arm)
  rw [afterArms_append, afterArms_cons]
  omega

theorem afterArms_default {arms : List MatchArm} (h : ∀ a ∈ arms, a.case = none) (s : EmitState) :
    afterArms cx namePrefix tagSlot arms s = s := by
  induction arms with
  | nil => rfl
  | cons arm arms ih =>
      rw [afterArms_cons, afterArm_default (h arm (List.mem_cons_self ..))]
      exact ih fun a hmem => h a (List.mem_cons_of_mem _ hmem)

/-- A tag that is overwritten by the first constant leads to the body of that arm,
which stands before those of all others. -/
theorem armsTarget_lt (hcx : InlinesBlocks cx) (hcase : arm.case ≠ none)
    (hbefore : ∀ a ∈ before, a.case = none) (htag : s.slot ≤ tagSlot) (others : List MatchArm) :
    armsTarget cx namePrefix tagSlot v (before ++ arm :: after) s <
      (afterArms cx namePrefix tagSlot (before ++ arm :: others) s).instructions.length := by
  obtain ⟨cv, hcv⟩ := Option.ne_none_iff_exists'.mp hcase
  have hnot : ∀ a ∈ before, ¬ a.takes v := fun a hmem => not_takes_of_default (hbefore a hmem)
  have hlen := afterArms_length_lt hcx hcase namePrefix tagSlot before others s
  rw [armsTarget_append hcx hnot (.inr hbefore), armsTarget_taken hcv]
  · omega
  · rw [afterArms_default hbefore]
    exact .inl htag

/-- If the tests lead to the chosen arm, the tag was not overwritten by another constant. -/
theorem tagApart_of_target (hcx : InlinesBlocks cx) (hchosen : Chosen v before arm after)
    (htarget : armsTarget cx namePrefix tagSlot v (before ++ arm :: after) s =
      (armStart cx namePrefix tagSlot before arm after s).instructions.length) :
    TagApart tagSlot v (before ++ arm :: after) s := by
  by_contra hnot
  unfold TagApart at hnot
  push Not at hnot
  obtain ⟨htag, first, hfind, hfirst⟩ := hnot
  have hshape : ∀ {arms : List MatchArm}, arms.find? (·.case.isSome) = some first →
      ∃ pre post, arms = pre ++ first :: post ∧ ∀ a ∈ pre, a.case = none := by
    intro arms harms
    obtain ⟨-, pre, post, hsplit, hpre⟩ := List.find?_eq_some_iff_append.mp harms
    exact ⟨pre, post, hsplit, fun a hmem => by simpa using hpre a hmem⟩
  have hne : first.case ≠ none := by
    intro hnone
    have hsome := List.find?_some hfind
    simp [hnone] at hsome
  cases hchosen with
  | default harm hothers =>
      obtain ⟨pre, post, hsplit, hpre⟩ := hshape hfind
      rw [armStart_default harm, hsplit] at htarget
      have hlt : armsTarget cx namePrefix tagSlot v (pre ++ first :: post) s < _ :=
        armsTarget_lt hcx hne hpre htag post
      omega
  | first htakes hbefore =>
      -- The chosen arm comes after the first one with a constant.
      have hfound : before.find? (·.case.isSome) = some first := by
        rw [List.find?_append, Option.or_eq_some_iff] at hfind
        refine hfind.resolve_right fun hrest => hfirst ?_
        obtain ⟨cv, hcv⟩ := case_of_takes htakes
        rw [List.find?_cons_of_pos (by simp [hcv])] at hrest
        exact Option.some.inj hrest.2 ▸ htakes
      obtain ⟨pre, mid, rfl, hpre⟩ := hshape hfound
      obtain ⟨cv, hcv⟩ := case_of_takes htakes
      rw [armStart_case hcv, armBodyStart_length, List.append_assoc, List.cons_append] at htarget
      have hlt : armsTarget cx namePrefix tagSlot v (pre ++ first :: (mid ++ arm :: after)) s < _ :=
        armsTarget_lt hcx hne hpre htag mid
      omega

end Choice

/-- Control is in the code of the tag or at the test of an arm. -/
def InDispatch (cx : EmitContext) (namePrefix : String) (tag : Expr) (arms : List MatchArm)
    (s : EmitState) (c : Config) : Prop :=
  AddressIn s.instructions.length (s.emitExpr cx tag).2.instructions.length c ∨
    AtTest cx namePrefix (s.emitExpr cx tag).1 arms (s.emitExpr cx tag).2 c

/-- Started at `vm`, the tag's code leaves `v` in the tag's slot. This is the value of
the tag if no operand of the tag is overwritten. -/
structure TagValue (program : BytecodeProgram) (stream : Bool) (cx : EmitContext) (tag : Expr)
    (s : EmitState) (vm : BytecodeVm) (v : UInt64) : Prop where
  computed : ∃ m vm', StepsIn (vmMove program stream)
    (AddressIn s.instructions.length (s.emitExpr cx tag).2.instructions.length) m
      ⟨vm, s.instructions.length⟩ ⟨vm', (s.emitExpr cx tag).2.instructions.length⟩ ∧
    vm'.getSlot (s.emitExpr cx tag).1 = v
  exact_value : tag.OperandsKept s.varSlots → SlotsBelow s.varSlots cx.currentOffsetSlot s.slot →
    s.slot + slotCount s.varSlots tag < vm.slots.length →
    slotValue s.varSlots cx.currentOffsetSlot vm tag = some v

/-- A run that is in the code from `t` to `t'`, and from its end on behind the match at `stop`. -/
def StaysInBody (program : BytecodeProgram) (stream : Bool) (t t' : EmitState) (stop k : Nat)
    (c d : Config) : Prop :=
  StepsIn (vmMove program stream) (AddressIn t.instructions.length t'.instructions.length) k c d ∨
    ∃ k₁ k₂ k₃ vm₂ vm₃, k = k₁ + k₂ + k₃ ∧ k₂ ≤ 1 ∧
      StepsIn (vmMove program stream) (AddressIn t.instructions.length t'.instructions.length) k₁
        c ⟨vm₂, t'.instructions.length⟩ ∧
      Steps (vmMove program stream) k₂ ⟨vm₂, t'.instructions.length⟩ ⟨vm₃, stop⟩ ∧
      Steps (vmMove program stream) k₃ ⟨vm₃, stop⟩ d

/-- The run from `c` to `d` leaves the dispatch for the code that was emitted from `t`
to `t'`, and executes no other code of the match. -/
def ExecutesBody (program : BytecodeProgram) (stream : Bool) (dispatch : Config → Prop)
    (t t' : EmitState) (stop n : Nat) (c d : Config) : Prop :=
  Contains program t t' ∧ ∃ m k vm₁, n = m + k ∧
    StepsIn (vmMove program stream) dispatch m c ⟨vm₁, t.instructions.length⟩ ∧
    ¬ dispatch ⟨vm₁, t.instructions.length⟩ ∧
    StaysInBody program stream t t' stop k ⟨vm₁, t.instructions.length⟩ d

section Runs

variable {program : BytecodeProgram} {stream : Bool} {cx : EmitContext}
  {inlineCode : String → Message → CodeTable} {namePrefix : String} {tagSlot stop : Nat}
  {before after arms : List MatchArm} {arm : MatchArm} {s : EmitState}

/-- What stands in the program behind an arm's start is what the arm's emitter added. -/
theorem arm_contains (hcx : InlinesCode cx inlineCode) {t : EmitState}
    (h : Stands program t ((armCode cx inlineCode namePrefix arm).2.2 t)) :
    Contains program t ((armEmitter cx namePrefix arm).2 t) := by
  have hcodes := armEmitter_codes hcx namePrefix arm
  rw [armCode_eq] at hcodes
  exact contains_of_append (hcodes t) h

theorem arm_length (hcx : InlinesCode cx inlineCode) (namePrefix : String) (arm : MatchArm)
    (t : EmitState) :
    ((armEmitter cx namePrefix arm).2 t).instructions.length = t.instructions.length +
      ((armCode cx inlineCode namePrefix arm).2.2 t).length := by
  have hcodes := armEmitter_codes hcx namePrefix arm
  rw [armCode_eq] at hcodes
  exact (hcodes t).length_eq

/-- A run that starts with the body of an arm stays in it or goes behind the match. -/
theorem arm_run (hcx : InlinesCode cx inlineCode) (hblocks : InlinesBlocks cx) {t : EmitState}
    (h : ArmStands program arm.case t ((armCode cx inlineCode namePrefix arm).2.2 t) stop)
    (hfits : stop ≤ u16Max) {k : Nat} {vm : BytecodeVm} {d : Config}
    (hk : Steps (vmMove program stream) k ⟨vm, t.instructions.length⟩ d) :
    StaysInBody program stream t ((armEmitter cx namePrefix arm).2 t) stop k
      ⟨vm, t.instructions.length⟩ d := by
  have hlen := arm_length hcx namePrefix arm t
  have hinside := h.inside
  have hend : ((armEmitter cx namePrefix arm).2 t).instructions.length ≤ u16Max := by omega
  obtain ⟨block, hblock, hjumps⟩ := (armEmitter_emits hblocks namePrefix arm t).code
  have hstands := arm_contains hcx h.bodyStands
  unfold Contains at hstands
  rw [hblock, List.drop_left] at hstands
  have hblockLen := congrArg List.length hblock
  rw [List.length_append] at hblockLen
  have hcode : ∀ i instr, t.instructions.length ≤ i →
      i < ((armEmitter cx namePrefix arm).2 t).instructions.length →
      program.instructions[i]? = some instr → JumpInside [] t.instructions.length
        ((armEmitter cx namePrefix arm).2 t).instructions.length i instr :=
    fun i instr hlo hhi hinstr => (hjumps hend).at_block hstands hlo (by omega) hinstr
  obtain hin | ⟨m, k', ⟨vm₂, ip⟩, rfl, hin, rfl, hrest⟩ :=
    block_left hcode (Nat.le_refl _) (by omega : t.instructions.length ≤ _) hk
  · exact .inl hin
  · cases hcase : arm.case with
    | none =>
        have hstop := h.ends hcase
        rw [← hlen] at hstop
        subst hstop
        exact .inr ⟨m, 0, k', vm₂, vm₂, rfl, Nat.zero_le 1, hin, .stay _, hrest⟩
    | some cv =>
        have hleave := h.leave (hcase ▸ Option.some_ne_none cv)
        rw [← hlen, asU16_of_le hfits] at hleave
        cases hrest with
        | stay => exact .inl hin
        | go hmove hrest =>
            obtain rfl := move_jump hleave hmove
            exact .inr ⟨m, 1, _, vm₂, _, by omega, Nat.le_refl 1, hin, .one hmove, hrest⟩

/-- The code of the tag computes, or jumps forward inside it. -/
theorem tag_instrs {tag : Expr} (h : Stands program s (s.exprCode cx tag))
    (hfits : (s.emitExpr cx tag).2.instructions.length ≤ u16Max) {i : Nat} {instr : Instruction}
    (hlo : s.instructions.length ≤ i) (hhi : i < (s.emitExpr cx tag).2.instructions.length)
    (hinstr : program.instructions[i]? = some instr) :
    ExprInstr (s.emitExpr cx tag).2.instructions.length i instr := by
  unfold Stands EmitState.exprCode at h
  rw [exprCode_stored] at h
  rw [emitExpr_length] at hfits hhi ⊢
  exact (exprBlock_instrs s.varSlots cx.currentOffsetSlot tag hfits).at_block h hlo
    (by rw [exprBlock_length]; exact hhi) hinstr

/-- A run that leaves the tag's code has computed the tag. -/
theorem tag_run {tag : Expr} (h : Stands program s (s.exprCode cx tag))
    (hfits : (s.emitExpr cx tag).2.instructions.length ≤ u16Max) {n : Nat} {vm : BytecodeVm}
    {d : Config} (hn : Steps (vmMove program stream) n ⟨vm, s.instructions.length⟩ d)
    (hd : ¬ AddressIn s.instructions.length (s.emitExpr cx tag).2.instructions.length d) :
    ∃ m k vm', n = m + k ∧
      StepsIn (vmMove program stream)
        (AddressIn s.instructions.length (s.emitExpr cx tag).2.instructions.length) m
        ⟨vm, s.instructions.length⟩ ⟨vm', (s.emitExpr cx tag).2.instructions.length⟩ ∧
      Steps (vmMove program stream) k ⟨vm', (s.emitExpr cx tag).2.instructions.length⟩ d ∧
      TagValue program stream cx tag s vm (vm'.getSlot (s.emitExpr cx tag).1) := by
  have hle : s.instructions.length ≤ (s.emitExpr cx tag).2.instructions.length := by
    rw [emitExpr_length]
    exact Nat.le_add_right ..
  obtain ⟨m, k, ⟨vm', ip⟩, rfl, hin, rfl, hrest⟩ :=
    leaves_at_end (fun i instr => tag_instrs h hfits) (Nat.le_refl _) hle hn hd
  refine ⟨m, k, vm', rfl, hin, hrest, ⟨m, vm', hin, rfl⟩, fun hkept hbelow hslots => ?_⟩
  have hblock := h
  unfold Stands EmitState.exprCode at hblock
  rw [exprCode_stored] at hblock
  rw [emitExpr_length] at hfits hd hin
  obtain ⟨m', k', vm'', -, hpassed, -⟩ :=
    exprBlock_passes tag hkept (hbelow.asks tag) hfits hslots hblock hn hd
  have hout : ∀ vm : BytecodeVm, ¬ AddressIn s.instructions.length
      (s.instructions.length + codeLength s.varSlots tag)
        ⟨vm, s.instructions.length + codeLength s.varSlots tag⟩ :=
    fun _ hin => Nat.lt_irrefl _ hin.2
  obtain ⟨-, hsame⟩ := hin.exit_unique (hout vm') hpassed.steps (hout vm'')
  obtain ⟨rfl, -⟩ := Config.mk.inj hsame
  obtain ⟨v, hvalue, hresult⟩ := hpassed.value
  rw [hvalue]
  unfold EmitState.emitExpr
  rw [emitExprToSlot_eq]
  simp [getSlot, List.getD_eq_getElem?_getD, hresult]

/-- The dispatch of a match: what a run that leaves it has done. -/
theorem dispatch_exact (hcx : InlinesCode cx inlineCode) (hblocks : InlinesBlocks cx) {tag : Expr}
    (htag : Stands program s (s.exprCode cx tag))
    (harms : Stands program (s.emitExpr cx tag).2
      (armsCodeFrom cx inlineCode namePrefix (s.emitExpr cx tag).1 arms (s.emitExpr cx tag).2 none))
    (hstop : (s.emitExpr cx tag).2.instructions.length +
      (armsCodeFrom cx inlineCode namePrefix (s.emitExpr cx tag).1 arms (s.emitExpr cx tag).2
        none).length = stop)
    (hfits : stop ≤ u16Max) (hslots : SlotsFit cx.currentOffsetSlot s) {n : Nat} {vm : BytecodeVm}
    {d : Config} (hn : Steps (vmMove program stream) n ⟨vm, s.instructions.length⟩ d)
    (hd : ¬ InDispatch cx namePrefix tag arms s d) :
    ∃ v, TagValue program stream cx tag s vm v ∧
      ((∃ before arm after, arms = before ++ arm :: after ∧ Chosen v before arm after ∧
          ExecutesBody program stream (InDispatch cx namePrefix tag arms s)
            (armPlace cx namePrefix tag before arm after s)
            ((armEmitter cx namePrefix arm).2 (armPlace cx namePrefix tag before arm after s))
            stop n ⟨vm, s.instructions.length⟩ d) ↔
        (∃ before arm after, arms = before ++ arm :: after ∧ Chosen v before arm after) ∧
          TagApart (s.emitExpr cx tag).1 v arms (s.emitExpr cx tag).2) := by
  rw [InDispatch, not_or] at hd
  obtain ⟨m₀, k₀, vm₁, rfl, htagRun, hn₁, hvalue⟩ := tag_run htag (by omega) hn hd.1
  have htagSlot := FitsAfter.expr_result s cx tag hslots
  obtain ⟨m₁, k, vm₂, rfl, htests, hn₂⟩ :=
    tests_run hcx hblocks harms hstop hfits htagSlot rfl hn₁ hd.2
  have htargetGe := armsTarget_ge hblocks namePrefix (s.emitExpr cx tag).1
    (vm₁.getSlot (s.emitExpr cx tag).1) arms (s.emitExpr cx tag).2
  have hout : ¬ InDispatch cx namePrefix tag arms s ⟨vm₂, armsTarget cx namePrefix
      (s.emitExpr cx tag).1 (vm₁.getSlot (s.emitExpr cx tag).1) arms (s.emitExpr cx tag).2⟩ := by
    rintro (haddress | htest)
    · exact absurd haddress.2 (Nat.not_lt_of_le htargetGe)
    · exact armsTarget_not_test hblocks _ _ _ _ htest
  have hdispatch := (htagRun.mono fun c hc => Or.inl hc).append
    (htests.mono (Q := InDispatch cx namePrefix tag arms s) fun c hc => .inr hc)
  refine ⟨_, hvalue, ?_, ?_⟩
  · rintro ⟨before, arm, after, rfl, hchosen, -, m, k', vm', -, hin, hout', -⟩
    have htarget := congrArg Config.ip (hdispatch.exit_unique hout hin hout').2
    exact ⟨⟨before, arm, after, rfl, hchosen⟩, tagApart_of_target hblocks hchosen htarget⟩
  · rintro ⟨⟨before, arm, after, rfl, hchosen⟩, hapart⟩
    have htarget : armsTarget cx namePrefix _ _ (before ++ arm :: after) _ = _ :=
      armsTarget_chosen hblocks hchosen hapart
    rw [htarget] at hdispatch hout hn₂
    have hstands := arm_stands hcx hchosen.emitted harms hstop
    refine ⟨before, arm, after, rfl, hchosen, arm_contains hcx hstands.bodyStands,
      m₀ + m₁, k, vm₂, by omega, hdispatch, hout, ?_⟩
    exact arm_run hcx hblocks hstands hfits hn₂

end Runs

/-- The names of the arms whose bodies are emitted before that of `arm`. -/
def namesBefore (naming : Naming) (before : List MatchArm) (arm : MatchArm)
    (after : List MatchArm) : List String :=
  if arm.case = none then caseNames naming (before ++ arm :: after) else caseNames naming before

section Scopes

variable {cx : EmitContext} {namePrefix : String} {tag : Expr} {before after arms : List MatchArm}
  {arm : MatchArm} {order : Nat} {s : EmitState}

/-- The arms before an arm bind their names in it as well. -/
theorem armPlace_binds (hcx : InlinesBlocks cx) (namePrefix : String) (tag : Expr)
    (before : List MatchArm) (arm : MatchArm) (after : List MatchArm) (s : EmitState) :
    NamesBound (s.slot + 2) (namesBefore (binding cx namePrefix) before arm after)
      (namesBefore (carrying namePrefix) before arm after) s
      (armPlace cx namePrefix tag before arm after s) := by
  have htag := emitExpr_slot_le s cx tag
  have htagged : NamesBound (s.slot + 2) [] [] s (s.emitExpr cx tag).2 := .of_table htag rfl
  have harms : ∀ arms : List MatchArm, NamesBound (s.slot + 2)
      (caseNames (binding cx namePrefix) arms) (caseNames (carrying namePrefix) arms) s
        (afterArms cx namePrefix (s.emitExpr cx tag).1 arms (s.emitExpr cx tag).2) := fun arms =>
    htagged.trans (afterArms_binds (fun a _ => armEmitter_binds hcx namePrefix a) _ _)
      (Nat.add_le_add_right htag 2)
  unfold armPlace namesBefore
  cases hcase : arm.case with
  | none =>
      rw [armStart_default hcase]
      exact harms (before ++ arm :: after)
  | some cv =>
      rw [armStart_case hcase]
      exact (harms before).tables (Nat.le_add_right _ 2) rfl

/-- A name at an item of an arm denotes what it denoted before the match exactly if
no arm emitted before binds it, unless the arm itself binds it. -/
theorem arm_scope (hcx : InlinesBlocks cx) (hslots : SlotsFit cx.currentOffsetSlot s)
    {items : List BodyItem} {x : String}
    (hown : x ∉ items.flatMap (BodyItem.names (binding cx namePrefix)))
    (hcarried : x ∉ namesBefore (carrying namePrefix) before arm after) :
    (items.foldl (fun s item => item.emitter cx namePrefix s)
        (armPlace cx namePrefix tag before arm after s)).varSlots.lookup x = s.varSlots.lookup x ↔
      x ∉ namesBefore (binding cx namePrefix) before arm after := by
  have hitems : Binds (items.foldl (fun s item => item.emitter cx namePrefix s) ·) _ _ :=
    Binds.foldl fun item _ => item_binds hcx namePrefix item
  rw [(hitems _).keeps x hown]
  refine (armPlace_binds hcx namePrefix tag before arm after s).lookup_iff hcarried ?_
  intro slot hslot
  have hle := hslots.vars x slot hslot
  omega

/-- The same behind the match, where the last default arm counts as well. -/
theorem match_scope (hcx : InlinesBlocks cx) (hslots : SlotsFit cx.currentOffsetSlot s) {x : String}
    (hcarried : x ∉ matchNames (carrying namePrefix) (.mk tag arms order))
    (hold : (∃ arm ∈ arms, arm.case ≠ none) ∨ s.varSlots.lookup x ≠ some s.slot) :
    (matchEmitter cx namePrefix (.mk tag arms order) s).varSlots.lookup x = s.varSlots.lookup x ↔
      x ∉ matchNames (binding cx namePrefix) (.mk tag arms order) := by
  have harms := armEmitters_bind hcx namePrefix arms
  have htag := emitExpr_slot_le s cx tag
  have hbinds : ∃ low, (∀ slot, s.varSlots.lookup x = some slot → slot < low) ∧
      NamesBound low (matchNames (binding cx namePrefix) (.mk tag arms order))
        (matchNames (carrying namePrefix) (.mk tag arms order)) s
        (matchEmitter cx namePrefix (.mk tag arms order) s) := by
    obtain hcase | hne := hold
    · refine ⟨(s.emitExpr cx tag).2.slot + 2, fun slot hslot => ?_, ?_⟩
      · have hle := hslots.vars x slot hslot
        omega
      · unfold matchEmitter
        rw [matchNames, matchNames]
        exact emitMatch_binds harms tag s (Nat.le_refl _) (afterArms_slot_le harms hcase _ _)
    · refine ⟨s.slot, fun slot hslot => ?_, matchEmitter_binds hcx namePrefix _ s⟩
      have hle := hslots.vars x slot hslot
      exact Nat.lt_of_le_of_ne hle fun heq => hne (heq ▸ hslot)
  obtain ⟨low, hlow, hbound⟩ := hbinds
  exact hbound.lookup_iff hcarried hlow

end Scopes

/-- The match is emitted at `s`, somewhere in the protocol. -/
def MatchAt (proto : Protocol) (remaining : Nat) (namePrefix : String) (m : Match)
    (s : EmitState) : Prop :=
  ∃ body start, BodyAt proto remaining namePrefix body start ∧
    ItemAt (proto.context remaining) namePrefix body start (.matchItem m) s

/-- Every match of a compiled protocol, at any nesting, whose code ends within the
reach of jump targets. A run that leaves the dispatch executes the body of the chosen
arm and no other code of the match exactly if an arm is chosen and the tag was
compared in a slot of its own. A name that the arms do not carry denotes what it
denoted before the match exactly if no arm emitted before binds it. -/
theorem compiled_match_ordered {proto : Protocol} {program : BytecodeProgram} {fieldMap : SlotMap}
    (hcompile : protocolToBytecodeWithMap proto = some (program, fieldMap)) {remaining : Nat}
    {namePrefix : String} {tag : Expr} {arms : List MatchArm} {order : Nat} {s : EmitState}
    (hat : MatchAt proto remaining namePrefix (.mk tag arms order) s)
    (hfits : (matchEmitter (proto.context remaining) namePrefix (.mk tag arms order)
      s).instructions.length ≤ u16Max) (stream : Bool) :
    (∀ n vm d, Steps (vmMove program stream) n ⟨vm, s.instructions.length⟩ d →
      ¬ InDispatch (proto.context remaining) namePrefix tag arms s d →
      ∃ v, TagValue program stream (proto.context remaining) tag s vm v ∧
        ((∃ before arm after, arms = before ++ arm :: after ∧ Chosen v before arm after ∧
            ExecutesBody program stream (InDispatch (proto.context remaining) namePrefix tag arms s)
              (armPlace (proto.context remaining) namePrefix tag before arm after s)
              ((armEmitter (proto.context remaining) namePrefix arm).2
                (armPlace (proto.context remaining) namePrefix tag before arm after s))
              (matchEmitter (proto.context remaining) namePrefix (.mk tag arms order)
                s).instructions.length n ⟨vm, s.instructions.length⟩ d) ↔
          (∃ before arm after, arms = before ++ arm :: after ∧ Chosen v before arm after) ∧
            TagApart (s.emitExpr (proto.context remaining) tag).1 v arms
              (s.emitExpr (proto.context remaining) tag).2)) ∧
    (∀ before arm after items rest x, arms = before ++ arm :: after → IsEmitted arm after →
      arm.items = items ++ rest →
      x ∉ items.flatMap (BodyItem.names (binding (proto.context remaining) namePrefix)) →
      x ∉ namesBefore (carrying namePrefix) before arm after →
      ((items.foldl (fun s item => item.emitter (proto.context remaining) namePrefix s)
          (armPlace (proto.context remaining) namePrefix tag before arm after
            s)).varSlots.lookup x = s.varSlots.lookup x ↔
        x ∉ namesBefore (binding (proto.context remaining) namePrefix) before arm after)) ∧
    (∀ x, x ∉ matchNames (carrying namePrefix) (.mk tag arms order) →
      (∃ arm ∈ arms, arm.case ≠ none) ∨ s.varSlots.lookup x ≠ some s.slot →
      ((matchEmitter (proto.context remaining) namePrefix (.mk tag arms order)
          s).varSlots.lookup x = s.varSlots.lookup x ↔
        x ∉ matchNames (binding (proto.context remaining) namePrefix) (.mk tag arms order))) := by
  obtain ⟨body, start, hbody, hitem⟩ := hat
  obtain ⟨hstands, hslots⟩ := (hbody.inPlace hcompile).item hitem
  have hcx := proto.context_code remaining
  have hblocks := compileContext_inlines proto.messages (proto.endian == "little") remaining
  obtain ⟨htag, harms⟩ := match_stands tag arms order hstands
  have hlen := (matchEmitter_codes hcx namePrefix (.mk tag arms order) s).length_eq
  have htagLen := (Coded.expr s (proto.context remaining) tag).length_eq
  have hstop : (s.emitExpr (proto.context remaining) tag).2.instructions.length +
      (armsCodeFrom (proto.context remaining) (proto.inlines remaining) namePrefix
        (s.emitExpr (proto.context remaining) tag).1 arms
        (s.emitExpr (proto.context remaining) tag).2 none).length =
      (matchEmitter (proto.context remaining) namePrefix (.mk tag arms order)
        s).instructions.length := by
    rw [hlen, htagLen, matchStmtCode, matchCode, armCodes_eq_map, Structured.length_seq,
      Nat.add_assoc]
    rfl
  refine ⟨fun n vm d hn hd => ?_, fun before arm after items rest x _ _ _ hown hcarried => ?_,
    fun x hcarried hold => ?_⟩
  · exact dispatch_exact hcx hblocks htag harms hstop hfits hslots hn hd
  · exact arm_scope hblocks hslots hown hcarried
  · exact match_scope hblocks hslots hcarried hold

/-- The arms of `shadowed`: one that binds a name anew, and one that uses it. -/
def shadowingArms : List MatchArm :=
  [.mk (some 1) [⟨"x", .u8, none, none, 0⟩] [] [] [] [],
    .mk (some 2) [] [⟨"z", .ident "x", 0⟩] [] [] []]

/-- Fields `x` and `n`, and a match of `n` with a field `x` in its first arm. -/
def shadowed : Protocol where
  name := "P"
  endian := "big"
  messages := [
    { name := "M"
      fields := [⟨"x", .u8, none, none, 0⟩, ⟨"n", .u8, none, none, 1⟩]
      lets := [], loops := [], validates := []
      matches_ := [.mk (.ident "n") shadowingArms 2] }]
  binds := []

/-- The fields before the match. -/
def shadowedFields : EmitState :=
  emitFieldBytecode (shadowed.context (maxRefDepth + 1)) ⟨"n", .u8, none, none, 1⟩ ""
    (emitFieldBytecode (shadowed.context (maxRefDepth + 1)) ⟨"x", .u8, none, none, 0⟩ ""
      messageStart)

theorem shadowed_match : MatchAt shadowed (maxRefDepth + 1) "" (.mk (.ident "n") shadowingArms 2)
    shadowedFields :=
  ⟨_, _, .root rfl, [.field ⟨"x", .u8, none, none, 0⟩, .field ⟨"n", .u8, none, none, 1⟩], [], rfl, rfl⟩

/-- The tests of `shadowed` end before address 17. -/
theorem shadowed_left {c : Config} (hip : 17 ≤ c.ip) :
    ¬ InDispatch (shadowed.context (maxRefDepth + 1)) "" (.ident "n") shadowingArms
      shadowedFields c := by
  have hcode : (shadowedFields.emitExpr (shadowed.context (maxRefDepth + 1))
      (.ident "n")).2.instructions.length ≤ 17 := by decide
  have htests : ∀ k < 2, (afterArms (shadowed.context (maxRefDepth + 1)) ""
      (shadowedFields.emitExpr (shadowed.context (maxRefDepth + 1)) (.ident "n")).1
      (shadowingArms.take k) (shadowedFields.emitExpr (shadowed.context (maxRefDepth + 1))
        (.ident "n")).2).instructions.length + 3 ≤ 17 := by decide
  rintro (⟨-, hlt⟩ | ⟨before, arm, after, harms, -, -, hlt⟩)
  · exact absurd hlt (Nat.not_lt.mpr (Nat.le_trans hcode hip))
  · have hlength : before.length < 2 := by
      have htwo : 2 = (before ++ arm :: after).length := congrArg List.length harms
      rw [List.length_append, List.length_cons] at htwo
      omega
    have htake : shadowingArms.take before.length = before := by
      rw [harms, List.take_left]
    have hle := htests _ hlength
    rw [htake] at hle
    exact absurd hlt (Nat.not_lt.mpr (Nat.le_trans hle hip))

theorem shadowingArms_two {before after : List MatchArm} {arm : MatchArm}
    (harms : shadowingArms = before ++ arm :: after) (hchosen : Chosen 2 before arm after) :
    arm.case = some 2 := by
  have hmem : arm ∈ shadowingArms := harms ▸ List.mem_append_right _ (List.mem_cons_self ..)
  have hcases : ∀ a ∈ shadowingArms, a.takes 2 → a.case = some 2 := by
    intro a ha
    simp only [shadowingArms, List.mem_cons, List.not_mem_nil, or_false] at ha
    rcases ha with rfl | rfl <;> decide
  cases hchosen with
  | first htakes _ => exact hcases arm hmem htakes
  | default hnone _ =>
      have hsome : ∀ a ∈ shadowingArms, a.case ≠ none := by simp [shadowingArms, MatchArm.case]
      exact absurd hnone (hsome arm hmem)

/-- Over the bytes 9 and 2, the run goes from the tests to the body of the second arm and
executes it. -/
theorem compiled_match_ordered_shadowed :
    ∃ program fieldMap, protocolToBytecodeWithMap shadowed = some (program, fieldMap) ∧
      ∃ before arm after, shadowingArms = before ++ arm :: after ∧ arm.case = some 2 ∧
        ExecutesBody program false
          (InDispatch (shadowed.context (maxRefDepth + 1)) "" (.ident "n") shadowingArms
            shadowedFields)
          (armPlace (shadowed.context (maxRefDepth + 1)) "" (.ident "n") before arm after
            shadowedFields)
          ((armEmitter (shadowed.context (maxRefDepth + 1)) "" arm).2
            (armPlace (shadowed.context (maxRefDepth + 1)) "" (.ident "n") before arm after
              shadowedFields))
          (matchEmitter (shadowed.context (maxRefDepth + 1)) ""
            (.mk (.ident "n") shadowingArms 2) shadowedFields).instructions.length
          7 (tracedRun program [9, 2] 7) (tracedRun program [9, 2] 14) := by
  have hcompile : (protocolToBytecodeWithMap shadowed).isSome := by decide
  obtain ⟨⟨program, fieldMap⟩, hcompile⟩ := Option.isSome_iff_exists.mp hcompile
  have hchecks : ∀ r ∈ protocolToBytecodeWithMap shadowed,
      14 < (trace (vmMove r.1 false) 40 (datagramStart r.1 .default [9, 2])).length ∧
        (tracedRun r.1 [9, 2] 7).ip = shadowedFields.instructions.length ∧
        17 ≤ (tracedRun r.1 [9, 2] 14).ip ∧
        shadowedFields.slot < (tracedRun r.1 [9, 2] 7).vm.slots.length ∧
        slotValue shadowedFields.varSlots
          (shadowed.context (maxRefDepth + 1)).currentOffsetSlot
          (tracedRun r.1 [9, 2] 7).vm (.ident "n") = some 2 := by decide
  obtain ⟨hlong, hip, hleft, hslots, hvalue⟩ := hchecks _ hcompile
  have hstart : tracedRun program [9, 2] 7 =
      ⟨(tracedRun program [9, 2] 7).vm, shadowedFields.instructions.length⟩ := by rw [← hip]
  have hsteps := tracedRun_between hlong (show 7 ≤ 14 by decide)
  rw [hstart] at hsteps
  obtain ⟨v, hv, hexec⟩ := (compiled_match_ordered hcompile shadowed_match (by decide) false).1
    7 _ _ hsteps (shadowed_left hleft)
  have hbelow : SlotsBelow shadowedFields.varSlots
      (shadowed.context (maxRefDepth + 1)).currentOffsetSlot shadowedFields.slot := by
    have hentries : ∀ e ∈ shadowedFields.varSlots.entries, e.2 < shadowedFields.slot := by decide
    exact ⟨by decide, fun name s hs => hentries ⟨name, s⟩ (AList.mem_lookup_iff.mp hs)⟩
  have htwo : v = 2 := Option.some.inj ((hv.exact_value trivial hbelow hslots).symm.trans hvalue)
  subst htwo
  have hchosen : Chosen 2 (shadowingArms.take 1)
      (.mk (some 2) [] [⟨"z", .ident "x", 0⟩] [] [] []) [] := .first (by decide) (by decide)
  obtain ⟨before, arm, after, harms, harm, hbody⟩ :=
    hexec.mpr ⟨⟨_, _, _, rfl, hchosen⟩, .inl (by decide)⟩
  exact ⟨program, fieldMap, hcompile, before, arm, after, harms, shadowingArms_two harms harm,
    hstart ▸ hbody⟩

/-- Where no arm has the value of the tag, the run completes without an error. In the
second arm, `x` is not the field before the match, but that of the first arm, which
was not executed. -/
theorem shadowed_not_ordered :
    (∀ arm ∈ shadowingArms, arm.case ≠ none ∧ ¬ arm.takes 3) ∧
      (∀ r ∈ protocolToBytecodeWithMap shadowed,
        ((interpret r.1 0 false (datagramStart r.1 .default [9, 3]).vm).2 matches
          .returned (.ok .complete)) ∧
        (interpret r.1 0 false (datagramStart r.1 .default [9, 2]).vm).1.emitted =
          [("x", 9), ("n", 2)]) ∧
      slotAfter shadowed [9, 2] "z" = some 0 := by
  decide

end NFdl
