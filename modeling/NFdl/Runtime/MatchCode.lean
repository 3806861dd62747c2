import NFdl.Runtime.LayoutExact

/-!
# The code of a match

An arm with a constant is a test, its body and a jump to the end; the default
arm stands behind all of them. The state in which the body of an arm is emitted
is given by the arms before it, and the code of every emitted arm is located
from that state.
-/

namespace NFdl

/-- The program has the code `c` where the code emitted at `s` starts. -/
def Stands (program : BytecodeProgram) (s : EmitState) (c : Code) : Prop :=
  BlockAt program.instructions s.instructions.length (c.stored s.instructions.length)

namespace Stands

variable {program : BytecodeProgram} {s s' : EmitState} {a b c : Code}

theorem first (h : Stands program s (a.seq b)) : Stands program s a := by
  unfold Stands at *
  rw [Code.stored_seq] at h
  exact h.left

theorem second (h : Stands program s (a.seq b)) (hcoded : Coded s s' a) : Stands program s' b := by
  unfold Stands at *
  rw [Code.stored_seq] at h
  rw [hcoded.length_eq]
  exact h.right_at (by rw [Code.stored_length])

/-- The body of skipped code stands behind the jump. -/
theorem skipped {cond : Nat} (h : Stands program s (.skip cond b))
    (hlen : s'.instructions.length = s.instructions.length + 1) : Stands program s' b := by
  unfold Stands at *
  rw [Code.stored_skip] at h
  rw [hlen]
  exact (BlockAt.cons_iff.mp h).2

/-- The body of a loop stands behind its head and the exit jump. -/
theorem looped {cond : Nat} (h : Stands program s (.loop a cond b))
    (hlen : s'.instructions.length = s.instructions.length + a.length + 1) :
    Stands program s' b := by
  unfold Stands at *
  rw [Code.stored_loop] at h
  rw [hlen]
  exact (BlockAt.cons_iff.mp (h.right_at (by rw [Code.stored_length]))).2.left

/-- One of some items that stand one after another. -/
theorem along {α : Type*} {emit : EmitState → α → EmitState} {code : α → CodeTable}
    {before after : List α} {x : α}
    (h : Stands program s (codeAlong emit code (before ++ x :: after) s))
    (hcodes : ∀ y ∈ before, Codes (emit · y) (code y)) :
    Stands program (before.foldl emit s) (code x (before.foldl emit s)) := by
  induction before generalizing s with
  | nil => exact h.first
  | cons y before ih =>
      exact ih (h.second (hcodes y (List.mem_cons_self ..) s))
        fun z hmem => hcodes z (List.mem_cons_of_mem _ hmem)

theorem length_le (h : Stands program s c) (hne : c.length ≠ 0) :
    s.instructions.length + c.length ≤ program.instructions.length := by
  obtain ⟨rest, hrest⟩ := h
  have hlen := congrArg List.length hrest
  rw [List.length_append, Code.stored_length, List.length_drop] at hlen
  omega

end Stands

def MatchArm.case : MatchArm → Option Int64
  | .mk case _ _ _ _ _ => case

section Arms

variable (cx : EmitContext) (namePrefix : String) (tagSlot : Nat)

/-- The compiler's state after one more arm. A default arm only waits. -/
def afterArm (s : EmitState) (arm : MatchArm) : EmitState :=
  (emitArm tagSlot ⟨[], none, s⟩ (armEmitter cx namePrefix arm)).state

def afterArms (arms : List MatchArm) (s : EmitState) : EmitState :=
  arms.foldl (afterArm cx namePrefix tagSlot) s

/-- The state in which the body of `arm` is emitted, between the arms `before` and
`after`: behind its own test, or behind all arms. -/
def armStart (before : List MatchArm) (arm : MatchArm) (after : List MatchArm) (s : EmitState) :
    EmitState :=
  match arm.case with
  | some cv => armBodyStart tagSlot cv (afterArms cx namePrefix tagSlot before s)
  | none => afterArms cx namePrefix tagSlot (before ++ arm :: after) s

end Arms

/-- The body of an arm is emitted, unless a later default arm takes its place. -/
def IsEmitted (arm : MatchArm) (after : List MatchArm) : Prop :=
  arm.case = none → ∀ arm' ∈ after, arm'.case ≠ none

section States

variable {cx : EmitContext} {namePrefix : String} {tagSlot : Nat} {arm : MatchArm} {s : EmitState}

@[simp] theorem armEmitter_fst (cx : EmitContext) (namePrefix : String) (arm : MatchArm) :
    (armEmitter cx namePrefix arm).1 = arm.case := by
  cases arm
  unfold armEmitter
  rfl

theorem armCode_eq (cx : EmitContext) (inlineCode : String → Message → CodeTable)
    (namePrefix : String) (arm : MatchArm) : armCode cx inlineCode namePrefix arm =
      (arm.case, (armEmitter cx namePrefix arm).2, (armCode cx inlineCode namePrefix arm).2.2) := by
  cases arm
  unfold armCode armEmitter
  rfl

theorem armEmitters_eq_map (cx : EmitContext) (namePrefix : String) (arms : List MatchArm) :
    armEmitters cx namePrefix arms = arms.map (armEmitter cx namePrefix) := by
  induction arms with
  | nil => simp [armEmitters]
  | cons arm arms ih => rw [armEmitters, ih, List.map_cons]

theorem armCodes_eq_map (cx : EmitContext) (inlineCode : String → Message → CodeTable)
    (namePrefix : String) (arms : List MatchArm) :
    armCodes cx inlineCode namePrefix arms = arms.map (armCode cx inlineCode namePrefix) := by
  induction arms with
  | nil => simp [armCodes]
  | cons arm arms ih => rw [armCodes, ih, List.map_cons]

/-- The state after an arm depends on the state before it only. -/
theorem emitArm_state (tagSlot : Nat) (acc : ArmsState) (arm : Option Int64 × Emitter) :
    (emitArm tagSlot acc arm).state = (emitArm tagSlot ⟨[], none, acc.state⟩ arm).state := by
  obtain ⟨case, body⟩ := arm
  cases case <;> rfl

theorem emitArms_state (arms : List MatchArm) (acc : ArmsState) :
    ((arms.map (armEmitter cx namePrefix)).foldl (emitArm tagSlot) acc).state =
      afterArms cx namePrefix tagSlot arms acc.state := by
  induction arms generalizing acc with
  | nil => rfl
  | cons arm arms ih =>
      rw [List.map_cons, List.foldl_cons, ih, emitArm_state]
      rfl

theorem afterArms_cons (arms : List MatchArm) :
    afterArms cx namePrefix tagSlot (arm :: arms) s =
      afterArms cx namePrefix tagSlot arms (afterArm cx namePrefix tagSlot s arm) := rfl

theorem afterArms_append (arms arms' : List MatchArm) :
    afterArms cx namePrefix tagSlot (arms ++ arms') s =
      afterArms cx namePrefix tagSlot arms' (afterArms cx namePrefix tagSlot arms s) :=
  List.foldl_append

theorem armEmitter_eq {case : Option Int64} (h : arm.case = case) :
    armEmitter cx namePrefix arm = (case, (armEmitter cx namePrefix arm).2) := by
  rw [← h, ← armEmitter_fst cx namePrefix arm]

theorem afterArm_default (h : arm.case = none) : afterArm cx namePrefix tagSlot s arm = s := by
  unfold afterArm
  rw [armEmitter_eq h]
  rfl

theorem armStart_case {before after : List MatchArm} {cv : Int64} (h : arm.case = some cv) :
    armStart cx namePrefix tagSlot before arm after s =
      armBodyStart tagSlot cv (afterArms cx namePrefix tagSlot before s) := by
  unfold armStart
  rw [h]

theorem armStart_default {before after : List MatchArm} (h : arm.case = none) :
    armStart cx namePrefix tagSlot before arm after s =
      afterArms cx namePrefix tagSlot (before ++ arm :: after) s := by
  unfold armStart
  rw [h]

theorem armStart_cons {before after : List MatchArm} (arm' : MatchArm) :
    armStart cx namePrefix tagSlot (arm' :: before) arm after s =
      armStart cx namePrefix tagSlot before arm after (afterArm cx namePrefix tagSlot s arm') := by
  cases h : arm.case with
  | some cv => rw [armStart_case h, armStart_case h, afterArms_cons]
  | none => rw [armStart_default h, armStart_default h, List.cons_append, afterArms_cons]

@[simp] theorem armBodyStart_length (tagSlot : Nat) (cv : Int64) (s : EmitState) :
    (armBodyStart tagSlot cv s).instructions.length = s.instructions.length + 3 := by
  simp [armBodyStart, EmitState.push]

@[simp] theorem armBodyStart_varSlots (tagSlot : Nat) (cv : Int64) (s : EmitState) :
    (armBodyStart tagSlot cv s).varSlots = s.varSlots := rfl

@[simp] theorem armBodyStart_slot (tagSlot : Nat) (cv : Int64) (s : EmitState) :
    (armBodyStart tagSlot cv s).slot = s.slot + 2 := rfl

end States

section Standing

variable {program : BytecodeProgram} {cx : EmitContext}
  {inlineCode : String → Message → CodeTable} {namePrefix : String} {tagSlot stop : Nat}

/-- The code of arms that are emitted from `s` on, with a default arm that waits. -/
def armsCodeFrom (cx : EmitContext) (inlineCode : String → Message → CodeTable)
    (namePrefix : String) (tagSlot : Nat) (arms : List MatchArm) (s : EmitState)
    (defaultCode : Option CodeTable) : Code :=
  armsCode tagSlot (arms.map (armCode cx inlineCode namePrefix)) ⟨[], none, s⟩ defaultCode

/-- The code of arms depends on the accumulator through its state only. -/
theorem armsCode_acc (tagSlot : Nat) (arms : List ArmCode) {acc acc' : ArmsState}
    (h : acc.state = acc'.state) (defaultCode : Option CodeTable) :
    armsCode tagSlot arms acc defaultCode = armsCode tagSlot arms acc' defaultCode := by
  induction arms generalizing acc acc' defaultCode with
  | nil => rw [armsCode, armsCode, h]
  | cons arm arms ih =>
      obtain ⟨case, body, code⟩ := arm
      have hnext : (emitArm tagSlot acc (case, body)).state =
          (emitArm tagSlot acc' (case, body)).state := by
        rw [emitArm_state, h, ← emitArm_state]
      cases case with
      | some cv => rw [armsCode, armsCode, h, ih hnext]
      | none => rw [armsCode, armsCode, ih hnext]

theorem armsCodeFrom_default {arm : MatchArm} (h : arm.case = none) (arms : List MatchArm)
    (s : EmitState) (defaultCode : Option CodeTable) :
    armsCodeFrom cx inlineCode namePrefix tagSlot (arm :: arms) s defaultCode =
      armsCodeFrom cx inlineCode namePrefix tagSlot arms s
        (some (armCode cx inlineCode namePrefix arm).2.2) := by
  unfold armsCodeFrom
  rw [List.map_cons, armCode_eq, h, armsCode]
  have hstate : (emitArm tagSlot ⟨[], none, s⟩ (none, (armEmitter cx namePrefix arm).2)).state =
      (ArmsState.mk [] none s).state := rfl
  exact armsCode_acc tagSlot _ hstate _

theorem armsCodeFrom_case {arm : MatchArm} {cv : Int64} (h : arm.case = some cv)
    (arms : List MatchArm) (s : EmitState) (defaultCode : Option CodeTable) :
    armsCodeFrom cx inlineCode namePrefix tagSlot (arm :: arms) s defaultCode =
      ((plain (.loadConst cv.toUInt64 s.slot)).seq
          (plain (.binOp .eq tagSlot s.slot (s.slot + 1)))).seq
        (.choose (s.slot + 1)
          ((armCode cx inlineCode namePrefix arm).2.2 (armBodyStart tagSlot cv s))
          (armsCodeFrom cx inlineCode namePrefix tagSlot arms
            (afterArm cx namePrefix tagSlot s arm) defaultCode)) := by
  let next := emitArm tagSlot ⟨[], none, s⟩ (some cv, (armEmitter cx namePrefix arm).2)
  have hstate : next.state = (ArmsState.mk [] none next.state).state := rfl
  have hrest :=
    armsCode_acc tagSlot (arms.map (armCode cx inlineCode namePrefix)) hstate defaultCode
  unfold armsCodeFrom afterArm
  rw [List.map_cons, armCode_eq, h, armsCode, armEmitter_eq h, hrest]

/-- Where the parts of an arm with a constant stand, and where the other arms do. -/
structure CaseStands (program : BytecodeProgram) (tagSlot : Nat) (cv : Int64) (body rest : Code)
    (stop : Nat) (s next : EmitState) : Prop where
  load : program.instructions[s.instructions.length]? = some (.loadConst cv.toUInt64 s.slot)
  compare : program.instructions[s.instructions.length + 1]? =
    some (.binOp .eq tagSlot s.slot (s.slot + 1))
  branch : program.instructions[s.instructions.length + 2]? =
    some (.jumpIfZero (s.slot + 1) (asU16 next.instructions.length))
  bodyStands : Stands program (armBodyStart tagSlot cv s) body
  leave : program.instructions[s.instructions.length + 3 + body.length]? =
    some (.jump (asU16 stop))
  length_next : next.instructions.length = s.instructions.length + 4 + body.length
  restStands : Stands program next rest
  length_stop : next.instructions.length + rest.length = stop

/-- The code of an arm with a constant is its body with three instructions before it and
one behind it. -/
theorem afterArm_address (hcx : InlinesCode cx inlineCode) {arm : MatchArm} {cv : Int64}
    (hcase : arm.case = some cv) (s : EmitState) :
    (afterArm cx namePrefix tagSlot s arm).instructions.length = s.instructions.length + 4 +
      ((armCode cx inlineCode namePrefix arm).2.2 (armBodyStart tagSlot cv s)).length := by
  have hcodes := armEmitter_codes hcx namePrefix arm
  rw [armCode_eq] at hcodes
  obtain ⟨hstate, -⟩ := emitArm_codes tagSlot ⟨[], none, s⟩ cv hcodes
  unfold afterArm
  rw [armEmitter_eq hcase, hstate]
  simp only [List.length_append, List.length_cons, List.length_nil, Code.stored_length]
  omega

theorem caseStands (hcx : InlinesCode cx inlineCode) {arm : MatchArm} {cv : Int64}
    (hcase : arm.case = some cv) {arms : List MatchArm} {s : EmitState}
    {defaultCode : Option CodeTable}
    (h : Stands program s
      (armsCodeFrom cx inlineCode namePrefix tagSlot (arm :: arms) s defaultCode))
    (hstop : s.instructions.length +
      (armsCodeFrom cx inlineCode namePrefix tagSlot (arm :: arms) s defaultCode).length = stop) :
    CaseStands program tagSlot cv
      ((armCode cx inlineCode namePrefix arm).2.2 (armBodyStart tagSlot cv s))
      (armsCodeFrom cx inlineCode namePrefix tagSlot arms (afterArm cx namePrefix tagSlot s arm)
        defaultCode) stop s (afterArm cx namePrefix tagSlot s arm) := by
  have hnext : (afterArm cx namePrefix tagSlot s arm).instructions.length = _ :=
    afterArm_address hcx hcase s
  rw [armsCodeFrom_case hcase] at h hstop
  generalize (armCode cx inlineCode namePrefix arm).2.2 (armBodyStart tagSlot cv s) = body at *
  generalize afterArm cx namePrefix tagSlot s arm = next at *
  generalize armsCodeFrom cx inlineCode namePrefix tagSlot arms next defaultCode = rest at *
  simp only [Structured.length_seq, plain_length, Structured.length_choose] at hstop
  unfold Stands at h
  simp only [Code.stored_seq, Code.stored_plain, Code.stored_choose, Structured.length_seq,
    plain_length, List.cons_append, List.nil_append, BlockAt.cons_iff, BlockAt.append_iff,
    Code.stored_length] at h
  obtain ⟨hload, hcompare, hbranch, hbody, hleave, hrest⟩ := h
  refine ⟨hload, hcompare, ?_, ?_, ?_, hnext, ?_, by omega⟩
  · rw [hnext, hbranch]
    congr 3
    omega
  · unfold Stands
    rw [armBodyStart_length]
    exact hbody
  · rw [← hstop]
    have haddr : s.instructions.length + 3 + body.length =
        s.instructions.length + 1 + 1 + 1 + body.length := by omega
    rw [haddr, hleave]
    congr 3
    omega
  · unfold Stands
    rw [hnext]
    have haddr : s.instructions.length + 4 + body.length =
        s.instructions.length + 1 + 1 + 1 + body.length + 1 := by omega
    have haddr' : s.instructions.length + 4 + body.length =
        s.instructions.length + (1 + 1) + body.length + 2 := by omega
    rw [haddr'] at haddr ⊢
    nth_rewrite 1 [haddr]
    exact hrest

/-- The body of an emitted arm: its code, and what follows it. -/
structure ArmStands (program : BytecodeProgram) (case : Option Int64) (t : EmitState) (body : Code)
    (stop : Nat) : Prop where
  bodyStands : Stands program t body
  leave : case ≠ none →
    program.instructions[t.instructions.length + body.length]? = some (.jump (asU16 stop))
  ends : case = none → t.instructions.length + body.length = stop
  inside : t.instructions.length + body.length ≤ stop

/-- The default arm stands behind the arms with constants. -/
theorem default_stands (hcx : InlinesCode cx inlineCode) {code : CodeTable} {arms : List MatchArm}
    (harms : ∀ arm ∈ arms, arm.case ≠ none) {s : EmitState}
    (h : Stands program s (armsCodeFrom cx inlineCode namePrefix tagSlot arms s (some code)))
    (hstop : s.instructions.length +
      (armsCodeFrom cx inlineCode namePrefix tagSlot arms s (some code)).length = stop) :
    ArmStands program none (afterArms cx namePrefix tagSlot arms s)
      (code (afterArms cx namePrefix tagSlot arms s)) stop := by
  induction arms generalizing s with
  | nil => exact ⟨h, fun hne => absurd rfl hne, fun _ => hstop, Nat.le_of_eq hstop⟩
  | cons arm arms ih =>
      obtain ⟨cv, hcase⟩ := Option.ne_none_iff_exists'.mp (harms arm (List.mem_cons_self ..))
      have hstands := caseStands hcx hcase h hstop
      rw [afterArms_cons]
      exact ih (fun arm' hmem => harms arm' (List.mem_cons_of_mem _ hmem)) hstands.restStands
        hstands.length_stop

/-- Where the bodies of the emitted arms stand. -/
theorem arm_stands (hcx : InlinesCode cx inlineCode) {before after : List MatchArm} {arm : MatchArm}
    (hemitted : IsEmitted arm after) {s : EmitState} {defaultCode : Option CodeTable}
    (h : Stands program s (armsCodeFrom cx inlineCode namePrefix tagSlot (before ++ arm :: after) s
      defaultCode))
    (hstop : s.instructions.length + (armsCodeFrom cx inlineCode namePrefix tagSlot
      (before ++ arm :: after) s defaultCode).length = stop) :
    ArmStands program arm.case (armStart cx namePrefix tagSlot before arm after s)
      ((armCode cx inlineCode namePrefix arm).2.2
        (armStart cx namePrefix tagSlot before arm after s)) stop := by
  induction before generalizing s defaultCode with
  | nil =>
      cases hcase : arm.case with
      | some cv =>
          rw [List.nil_append] at h hstop
          have hstands := caseStands hcx hcase h hstop
          rw [armStart_case hcase]
          have hlen := hstands.length_next
          have hstop' := hstands.length_stop
          refine ⟨hstands.bodyStands, fun _ => ?_, fun hnone => (nomatch hnone), ?_⟩
          · change program.instructions[(armBodyStart tagSlot cv s).instructions.length + _]? = _
            rw [armBodyStart_length]
            exact hstands.leave
          · change (armBodyStart tagSlot cv s).instructions.length + Structured.length
              ((armCode cx inlineCode namePrefix arm).2.2 (armBodyStart tagSlot cv s)) ≤ stop
            rw [armBodyStart_length]
            omega
      | none =>
          rw [List.nil_append, armsCodeFrom_default hcase] at h hstop
          have hstands := default_stands hcx (hemitted hcase) h hstop
          rw [armStart_default hcase, List.nil_append, afterArms_cons, afterArm_default hcase]
          exact hstands
  | cons arm' before ih =>
      rw [armStart_cons]
      rw [List.cons_append] at h hstop
      cases hcase : arm'.case with
      | some cv =>
          have hstands := caseStands hcx hcase h hstop
          exact ih hstands.restStands hstands.length_stop
      | none =>
          rw [armsCodeFrom_default hcase] at h hstop
          rw [afterArm_default hcase]
          exact ih h hstop

/-- The tag's code stands first, and that of the arms behind it. -/
theorem match_stands (tag : Expr) (arms : List MatchArm) (order : Nat) {s : EmitState}
    (h : Stands program s (matchStmtCode cx inlineCode namePrefix (.mk tag arms order) s)) :
    Stands program s (s.exprCode cx tag) ∧ Stands program (s.emitExpr cx tag).2
      (armsCodeFrom cx inlineCode namePrefix (s.emitExpr cx tag).1 arms (s.emitExpr cx tag).2
        none) := by
  unfold matchStmtCode matchCode at h
  rw [armCodes_eq_map] at h
  exact ⟨h.first, h.second (.expr s cx tag)⟩

end Standing

end NFdl
