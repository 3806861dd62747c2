import NFdl.Runtime.DescentBodies

/-!
# Complete runs descend

A run goes where the instructions of its program send it, and the code of the root message
returns nowhere. So a complete run passes through that code, and is a recursive descent over
the syntax tree, with the fields cut that are nested too deep.
-/

namespace NFdl

open BytecodeVm Machine

section Returns

/-- No instruction of the code returns. -/
def Code.NoReturn (c : Code) : Prop := c.All fun i => i.1 ≠ .ret

theorem exprCode_noReturn (varSlots : SlotMap) (offset : ℕ) (e : Expr) (next : ℕ) :
    (exprCode varSlots offset e next).NoReturn := by
  refine Structured.All.mono (exprCode_computes varSlots offset e next) fun i hi hret => ?_
  rw [hret] at hi
  exact hi

theorem codeAlong_noReturn {α τ : Type*} {emit : τ → α → τ} {code : α → τ → Code} {as : List α}
    (h : ∀ a ∈ as, ∀ t, (code a t).NoReturn) (t : τ) : (codeAlong emit code as t).NoReturn := by
  induction as generalizing t with
  | nil => trivial
  | cons a as ih =>
      exact ⟨h a (List.mem_cons_self ..) t, ih (fun b hmem => h b (List.mem_cons_of_mem _ hmem)) _⟩

variable {cx : EmitContext} {inlineCode : String → Message → CodeTable}

theorem plain_noReturn {i : Instruction} {h : ¬ i.IsJump} (hi : i ≠ .ret) :
    (plain i h).NoReturn := hi

theorem readThen_noReturn {read : Instruction} {h : ¬ read.IsJump} (hread : read ≠ .ret) :
    (readThen cx read h).NoReturn := ⟨plain_noReturn hread, plain_noReturn (by simp)⟩

/-- An instruction behind the code of an expression. -/
theorem exprThen_noReturn {varSlots : SlotMap} {offset : ℕ} {e : Expr} {next : ℕ} {i : Instruction}
    {h : ¬ i.IsJump} (hi : i ≠ .ret) :
    Code.NoReturn ((exprCode varSlots offset e next).seq (plain i h)) :=
  ⟨exprCode_noReturn varSlots offset e next, plain_noReturn hi⟩

theorem readCode_noReturn (hinline : ∀ namePrefix msg s, (inlineCode namePrefix msg s).NoReturn)
    (field : Field) (namePrefix fullName : String) (readSlot : ℕ) (s : EmitState) :
    (readCode cx inlineCode field namePrefix fullName readSlot s).NoReturn := by
  unfold readCode
  cases field.ty with
  | bytes len => exact ⟨exprCode_noReturn .., readThen_noReturn (by simp)⟩
  | messageRef refName =>
      dsimp only
      split
      · exact hinline _ _ s
      · exact readThen_noReturn (by simp)
  | _ => exact readThen_noReturn (by simp)

theorem fieldCode_noReturn (hinline : ∀ namePrefix msg s, (inlineCode namePrefix msg s).NoReturn)
    (field : Field) (namePrefix : String) (s : EmitState) :
    (fieldCode cx inlineCode field namePrefix s).NoReturn := by
  have hbody : ∀ inlineMessage s,
      (fieldBodyCode cx inlineMessage inlineCode field namePrefix s).NoReturn := by
    intro inlineMessage s
    refine ⟨⟨readCode_noReturn hinline field namePrefix _ _ _, ?_⟩, ?_⟩
    · split
      · exact exprThen_noReturn (by simp)
      · trivial
    · split
      · trivial
      · exact plain_noReturn (by simp)
  unfold fieldCode
  split
  · exact readThen_noReturn (by simp)
  · split
    · exact ⟨exprCode_noReturn .., hbody _ _⟩
    · exact hbody _ s

theorem loopCode_noReturn (hinline : ∀ namePrefix msg s, (inlineCode namePrefix msg s).NoReturn)
    (namePrefix : String) (lp : Loop) (s : EmitState) :
    (loopCode cx inlineCode namePrefix lp s).NoReturn := by
  refine ⟨?_, exprCode_noReturn .., ?_, ?_⟩
  · exact codeAlong_noReturn (fun _ _ _ => exprCode_noReturn ..) _
  · exact codeAlong_noReturn (fun field _ t => fieldCode_noReturn hinline field _ t) _
  · have hnext : ∀ nxt t, (nextCode cx (joinName namePrefix lp.name) nxt t).NoReturn :=
      fun _ _ => exprThen_noReturn (by simp)
    exact codeAlong_noReturn (fun nxt _ t => hnext nxt t) _

theorem armsCodeFrom_noReturn {namePrefix : String} {arms : List MatchArm}
    (harms : ∀ arm ∈ arms, ∀ s, ((armCode cx inlineCode namePrefix arm).2.2 s).NoReturn)
    (tagSlot : ℕ) (s : EmitState) {waiting : Option CodeTable}
    (hwaiting : ∀ code, waiting = some code → ∀ s, (code s).NoReturn) :
    (armsCodeFrom cx inlineCode namePrefix tagSlot arms s waiting).NoReturn := by
  induction arms generalizing s waiting with
  | nil =>
      cases waiting with
      | none => trivial
      | some code => exact hwaiting code rfl s
  | cons arm arms ih =>
      have harm := harms arm (List.mem_cons_self ..)
      have hrest := fun a hmem => harms a (List.mem_cons_of_mem _ hmem)
      cases hcase : arm.case with
      | none =>
          rw [armsCodeFrom_default hcase]
          exact ih hrest s fun code hcode => Option.some.inj hcode ▸ harm
      | some cv =>
          rw [armsCodeFrom_case hcase]
          exact ⟨⟨plain_noReturn (by simp), plain_noReturn (by simp)⟩, harm _,
            ih hrest _ hwaiting⟩

theorem armCode_noReturn (hinline : ∀ namePrefix msg s, (inlineCode namePrefix msg s).NoReturn)
    (namePrefix : String) (body : MatchArm) (s : EmitState) :
    ((armCode cx inlineCode namePrefix body).2.2 s).NoReturn := by
  induction hsize : sizeOf body using Nat.strongRecOn generalizing body s with
  | ind size ih =>
      subst hsize
      rw [armCode_items]
      refine codeAlong_noReturn (fun item hitem t => ?_) s
      cases item with
      | field f => exact fieldCode_noReturn hinline f namePrefix t
      | letItem l => exact exprThen_noReturn (by simp)
      | validate v => exact exprThen_noReturn (by simp)
      | loop lp => exact loopCode_noReturn hinline namePrefix lp t
      | matchItem stmt =>
          obtain ⟨tag, arms, order⟩ := stmt
          show (matchStmtCode cx inlineCode namePrefix (.mk tag arms order) t).NoReturn
          rw [matchStmtCode, matchCode, armCodes_eq_map]
          refine ⟨exprCode_noReturn .., armsCodeFrom_noReturn (fun arm hmem s => ?_) _ _
            (by simp)⟩
          exact ih _ (arm_sizeOf_lt hitem hmem) arm s rfl

theorem inlines_noReturn (proto : Protocol) (remaining : ℕ) (namePrefix : String) (msg : Message)
    (s : EmitState) : (proto.inlines remaining namePrefix msg s).NoReturn := by
  induction remaining generalizing namePrefix msg s with
  | zero => trivial
  | succ remaining ih =>
      show (messageCode proto.messages currentOffsetSlot _ remaining namePrefix msg s).NoReturn
      rw [messageCode_eq, messageBodyCode_eq]
      exact armCode_noReturn ih namePrefix msg.body s

end Returns

section Runs

variable {proto : Protocol} {program : BytecodeProgram} {fieldMap : SlotMap} {stream : Bool}
  {c d : Config} {run : ℕ → Config} {n : ℕ}

theorem RunStep.move_or_resumes (h : RunStep program stream c d) :
    NFdl.vmMove program stream c = .ok d ∨ Resumes program stream c d := by
  cases h with
  | move hmove => exact .inl hmove
  | resume more hsuspended => exact .inr (.mk more hsuspended)

/-- A conditional jump goes on behind it, or to its target if its slot is zero. -/
theorem move_jumpIfZero {cond target : ℕ}
    (hinstr : program.instructions[c.ip]? = some (.jumpIfZero cond target))
    (h : vmMove program stream c = .ok d) :
    ∃ v, c.vm.slots[cond]? = some v ∧ d.ip = if v = 0 then target else c.ip + 1 := by
  obtain ⟨instr, hinstr', -, hexec⟩ := vmMove_eq_ok.mp h
  obtain rfl := Option.some.inj (hinstr.symm.trans hinstr')
  obtain ⟨v, hv, hgoes⟩ := withSlot_eq_goto hexec
  refine ⟨v, hv, ?_⟩
  unfold execJumpIfZero at hgoes
  by_cases hzero : v = 0
  · rw [if_pos hzero] at hgoes ⊢
    by_cases hback : target < c.ip
    · rw [if_pos hback] at hgoes
      dsimp only at hgoes
      split at hgoes
      · simp at hgoes
      · exact (Flow.goto.inj (Prod.mk.inj hgoes).2).symm
    · rw [if_neg hback] at hgoes
      exact (Flow.goto.inj (Prod.mk.inj hgoes).2).symm
  · rw [if_neg hzero] at hgoes ⊢
    exact (Flow.goto.inj (Prod.mk.inj hgoes).2).symm

/-- A read of a stream goes on once it has its bytes, unless the run ends before. -/
theorem IsRun.plain (hrun : IsRun program stream run n) {i : ℕ} (hi : i < n)
    {p : { i : Instruction // ¬ i.IsJump }}
    (hinstr : program.instructions[(run i).ip]? = some p.1) (hend : (run n).ip ≠ (run i).ip) :
    ∃ j, i < j ∧ j ≤ n ∧ (vmMoves program stream).does p (run i) (run j) ∧
      (run j).ip = (run i).ip + 1 := by
  induction hleft : n - i generalizing i with
  | zero => omega
  | succ left ih =>
      obtain hmove | hresumes := (hrun i hi).move_or_resumes
      · refine ⟨i + 1, Nat.lt_succ_self i, hi, ⟨hinstr, run i, .refl, hmove⟩, ?_⟩
        obtain ⟨instr, hinstr', hip | rfl | ⟨cond, rfl⟩⟩ := vmMove_control hmove
        · exact hip
        · obtain ⟨q, hq⟩ := p
          cases hinstr.symm.trans hinstr'
          exact absurd trivial hq
        · obtain ⟨q, hq⟩ := p
          cases hinstr.symm.trans hinstr'
          exact absurd trivial hq
      · obtain ⟨hip, -, -⟩ := hresumes.state
        have hlt : i + 1 < n := by
          refine Nat.lt_of_le_of_ne hi ?_
          rintro rfl
          exact hend hip
        rw [← hip] at hinstr hend ⊢
        obtain ⟨j, hij, hj, ⟨-, c', hresumed, hmove⟩, hnext⟩ := ih hlt hinstr hend (by omega)
        rw [hip] at hinstr
        exact ⟨j, Nat.lt_of_succ_lt hij, hj, ⟨hinstr, c', .head hresumes hresumed, hmove⟩, hnext⟩

/-- A run goes where the instructions of the program send it. -/
theorem IsRun.follows (hrun : IsRun program stream run n) :
    Follows vmJumps program.instructions
      ((vmMoves program stream).among fun c => ∃ i ≤ n, c = run i) Config.ip run n := by
  have hvisits : ∀ i < n, ∃ j ≤ n, run i = run j := fun i hi => ⟨i, Nat.le_of_lt hi, rfl⟩
  constructor
  · intro i hi p hinstr hend
    obtain ⟨j, hij, hj, hdoes, hnext⟩ := hrun.plain hi hinstr hend
    exact ⟨j, hij, hj, ⟨hvisits i hi, hdoes⟩, hnext⟩
  · intro i hi cond target hinstr
    have hmove := (hrun i hi).vmMove hinstr fun vm => execInstr_not_suspends id _ vm
    obtain ⟨v, hv, hip⟩ := move_jumpIfZero hinstr hmove
    by_cases hzero : v = 0
    · rw [if_pos hzero] at hip
      subst hzero
      exact .inr ⟨⟨hvisits i hi, target, hinstr, hmove, hv⟩, hip⟩
    · rw [if_neg hzero] at hip
      exact .inl ⟨⟨hvisits i hi, target, v, hinstr, hmove, hv, hzero⟩, hip⟩
  · intro i hi target hinstr
    have hmove := (hrun i hi).vmMove hinstr fun vm => execInstr_not_suspends id _ vm
    refine ⟨⟨hvisits i hi, target, hinstr, hmove⟩, ?_⟩
    rw [move_jump hinstr hmove]

theorem loadStart_not_isJump : ¬ (Instruction.loadConst 0 currentOffsetSlot).IsJump :=
  Instruction.not_isJump rfl

/-- The code of the root message, behind the initial offset. -/
def rootCode (proto : Protocol) (msg : Message) : Code :=
  (plain (.loadConst 0 currentOffsetSlot) loadStart_not_isJump).seq
    ((armCode (proto.context (maxRefDepth + 1)) (proto.inlines (maxRefDepth + 1)) "" msg.body).2.2
      messageStart)

theorem protocolCode_eq {msg : Message}
    (hroot : proto.messages[rootMessageIndex proto]? = some msg) :
    protocolCode proto = (rootCode proto msg).seq (plain .ret) := by
  unfold protocolCode
  rw [hroot]
  dsimp only
  rw [messageCode_eq, messageBodyCode_eq]
  rfl

theorem rootCode_length (proto : Protocol) (msg : Message) :
    ((rootCode proto msg).intended 0).length = (rootCode proto msg).length :=
  (rootCode proto msg).assemble_length vmJumps id 0

theorem rootCode_noReturn (proto : Protocol) (msg : Message) : (rootCode proto msg).NoReturn :=
  ⟨plain_noReturn (by simp),
    armCode_noReturn (inlines_noReturn proto (maxRefDepth + 1)) "" msg.body messageStart⟩

/-- The program of a protocol has the code of the root message and a return behind it. -/
theorem compiled_root {msg : Message}
    (hcompile : protocolToBytecodeWithMap proto = some (program, fieldMap))
    (hexact : ∀ target ∈ (protocolCode proto).targets 0, target ≤ u16Max)
    (hroot : proto.messages[rootMessageIndex proto]? = some msg) :
    program.instructions = (rootCode proto msg).intended 0 ++ [.ret] := by
  rw [((compiled_wellFormed_iff hcompile).mpr hexact).targets, protocolCode_eq hroot]
  rfl

/-- The code of the root message is left by its end only. -/
theorem complete_outside {msg : Message} {vm : BytecodeVm}
    (hcode : program.instructions = (rootCode proto msg).intended 0 ++ [.ret])
    (hend : vmMove program stream (run n) = .error (vm, .returned (.ok .complete))) :
    Follows.EndsOutside Config.ip run n 0 (rootCode proto msg).length := by
  refine .inr (Nat.le_of_not_lt fun hlt => ?_)
  rw [← rootCode_length] at hlt
  have hinstr := List.getElem?_eq_getElem hlt
  have hret := (complete_end hend).2.2 _ (by
    rw [hcode, List.getElem?_append_left hlt]
    exact hinstr)
  have hmem : Instruction.ret ∈ (rootCode proto msg).intended 0 :=
    hret ▸ List.mem_of_getElem? hinstr
  obtain ⟨p, hp, heq⟩ | ⟨t, heq⟩ | ⟨cond, t, heq⟩ :=
    Structured.All.of_mem (rootCode_noReturn proto msg) hmem
  · exact hp heq.symm
  · cases heq
  · cases heq

/-- A complete run is a descent of every decoder that takes the right depths for too deep. -/
theorem root_descends {msg : Message} {vm : BytecodeVm} {tooDeep : ℕ → Prop}
    (hcompile : protocolToBytecodeWithMap proto = some (program, fieldMap))
    (hexact : ∀ target ∈ (protocolCode proto).targets 0, target ≤ u16Max)
    (hroot : proto.messages[rootMessageIndex proto]? = some msg)
    (hrun : IsRun program stream run n) (hstart : (run 0).ip = 0)
    (hend : vmMove program stream (run n) = .error (vm, .returned (.ok .complete)))
    (hdecodes : DecodesRun proto (fun c => ∃ i ≤ n, c = run i) tooDeep) :
    Descends proto program stream tooDeep 0 (.items msg.body.items) (run 0) (run n) := by
  have hcode := compiled_root hcompile hexact hroot
  have hlaid : (rootCode proto msg).Laid vmJumps program.instructions 0 :=
    Structured.laid_of_assemble (Structured.BlockFrom.left fun k i hi => by
      rw [Nat.zero_add, hcode]
      exact hi)
  obtain ⟨j, -, hj, hpass, hlast⟩ := hrun.follows.passage hlaid (Nat.zero_le n) hstart (by
    rw [Nat.zero_add]
    exact complete_outside hcode hend)
  -- The passage ends at the return, where no run goes on.
  have hjn : j = n := by
    refine (Nat.eq_or_lt_of_le hj).resolve_right fun hlt => ?_
    have hret : program.instructions[(run j).ip]? = some .ret := by
      rw [hlast, Nat.zero_add, hcode, ← rootCode_length, List.getElem?_append_right (Nat.le_refl _),
        Nat.sub_self]
      rfl
    have hmove := (hrun j hlt).vmMove hret fun vm => execInstr_not_suspends id _ vm
    obtain ⟨instr, hinstr, -, hexec⟩ := vmMove_eq_ok.mp hmove
    obtain rfl := Option.some.inj (hret.symm.trans hinstr)
    exact absurd (congrArg Prod.snd hexec) (by simp [execInstr])
  subst hjn
  obtain ⟨m, hload, hbody⟩ := hpass.seq_cases
  have hdoes : (vmMoves program stream).does ⟨.loadConst 0 currentOffsetSlot, _⟩ (run 0) m :=
    hload.instr_does.2
  exact .pause (does_rests proto hdoes id)
    (bodies_descend hcompile hdecodes (maxRefDepth + 1) (.root hroot) hbody)

end Runs

/-- For every protocol that compiles with all its jump targets in reach, and every run over a
datagram or over the chunks of a stream that completes and never comes to a test that overwrites
the tag of its match: the run is a recursive descent over the root message. Every field that is
nested at most eight levels deep is decoded with its declared type, and every deeper field is
cut to one byte. If the run never comes to such a field, the descent is that of a decoder which
nests as deep as the data does. -/
theorem complete_run_descends {proto : Protocol} {program : BytecodeProgram} {fieldMap : SlotMap}
    (hcompile : protocolToBytecodeWithMap proto = some (program, fieldMap))
    (hexact : ∀ target ∈ (protocolCode proto).targets 0, target ≤ u16Max) {msg : Message}
    (hroot : proto.messages[rootMessageIndex proto]? = some msg) {stream : Bool}
    {run : ℕ → Config} {n : ℕ} {vm : BytecodeVm} (hrun : IsRun program stream run n)
    (hstart : (run 0).ip = 0)
    (hend : vmMove program stream (run n) = .error (vm, .returned (.ok .complete)))
    (hkeeps : ∀ i ≤ n, ¬ OverwritesTag proto (run i).ip) :
    Descends proto program stream (maxRefDepth < ·) 0 (.items msg.body.items) (run 0) (run n) ∧
      ((∀ i ≤ n, ¬ CutsField proto (run i).ip) →
        Descends proto program stream (fun _ => False) 0 (.items msg.body.items)
          (run 0) (run n)) := by
  have hkept : ∀ c, (∃ i ≤ n, c = run i) → ¬ OverwritesTag proto c.ip := by
    rintro c ⟨i, hi, rfl⟩
    exact hkeeps i hi
  constructor
  · refine root_descends hcompile hexact hroot hrun hstart hend ⟨?_, ?_, hkept⟩
    · exact fun depth hdepth => Nat.not_lt.mpr hdepth
    · exact .inl (Nat.lt_succ_self maxRefDepth)
  · intro hcuts
    refine root_descends hcompile hexact hroot hrun hstart hend ⟨fun _ _ => id, ?_, hkept⟩
    refine .inr ?_
    rintro c ⟨i, hi, rfl⟩
    exact hcuts i hi

section Silent

variable {program : BytecodeProgram} {stream : Bool} {vm vm' : BytecodeVm} {c d : Config}

/-- Neither the cursor nor the emitted fields have changed. -/
def SameOutput (vm vm' : BytecodeVm) : Prop := vm'.cursor = vm.cursor ∧ vm'.emitted = vm.emitted

theorem SameOutput.trans {vm'' : BytecodeVm} (h : SameOutput vm vm') (h' : SameOutput vm' vm'') :
    SameOutput vm vm'' :=
  ⟨h'.1.trans h.1, h'.2.trans h.2⟩

theorem storeNext_sameOutput (vm : BytecodeVm) (slot : ℕ) (v : UInt64) (ip : ℕ) :
    SameOutput vm (storeNext vm slot v ip).1 := by
  simp [SameOutput, storeNext, cursor]

theorem withSlot_sameOutput {slot : ℕ} {f : UInt64 → BytecodeVm × Flow}
    (hf : ∀ v, SameOutput vm (f v).1) : SameOutput vm (withSlot vm slot f).1 := by
  unfold withSlot
  split
  · exact ⟨rfl, rfl⟩
  · exact hf _

theorem silent_exec {instr : Instruction} (hsilent : instr.IsSilent) (ip : ℕ) (vm : BytecodeVm) :
    SameOutput vm (execInstr stream instr ip vm).1 := by
  cases instr with
  | emitField name slot => exact hsilent.elim
  | unaryOp op src dst => exact withSlot_sameOutput fun v => storeNext_sameOutput ..
  | copySlot src dst => exact withSlot_sameOutput fun v => storeNext_sameOutput ..
  | binOp op left right dst =>
      refine withSlot_sameOutput fun l => withSlot_sameOutput fun r => ?_
      split
      · exact ⟨rfl, rfl⟩
      · exact storeNext_sameOutput ..
  | validate predSlot message =>
      refine withSlot_sameOutput fun v => ?_
      split <;> exact ⟨rfl, rfl⟩
  | loadConst v dst => exact storeNext_sameOutput ..
  | updateOffset slot => exact storeNext_sameOutput ..
  | jumpIfZero cond target =>
      refine withSlot_sameOutput fun v => ?_
      unfold execJumpIfZero
      split
      · split
        · dsimp only
          split <;> exact ⟨rfl, rfl⟩
        · exact ⟨rfl, rfl⟩
      · exact ⟨rfl, rfl⟩
  | jump target => exact ⟨rfl, rfl⟩
  | ret => exact ⟨rfl, rfl⟩
  | _ => exact absurd trivial hsilent

theorem silent_sameOutput {instr : Instruction}
    (hinstr : program.instructions[c.ip]? = some instr) (hsilent : instr.IsSilent)
    (h : vmMove program stream c = .ok d) : SameOutput c.vm d.vm := by
  obtain ⟨instr', hinstr', -, hexec⟩ := vmMove_eq_ok.mp h
  obtain rfl := Option.some.inj (hinstr.symm.trans hinstr')
  have hquiet : SameOutput c.vm.tick (execInstr stream instr c.ip c.vm.tick).1 :=
    silent_exec hsilent c.ip c.vm.tick
  rw [hexec] at hquiet
  exact hquiet

/-- Expressions are asked in silence. -/
theorem asks_sameOutput {proto : Protocol} {e : Expr} {v : UInt64}
    (h : (vmReader proto program stream).asks e v c d) : SameOutput c.vm d.vm := by
  obtain ⟨cx, s, -, -, hpass, -⟩ := h
  have hcomputes := exprCode_computes s.varSlots cx.currentOffsetSlot e s.slot
  have hsilent : (s.exprCode cx e).All fun i => i.1.IsSilent := by
    refine Structured.All.mono hcomputes fun i hi => ?_
    obtain ⟨instr, hjump⟩ := i
    cases instr <;> first | exact id | exact hi.elim
  have hkeeps := hpass.keeps (R := fun c d => SameOutput c.vm d.vm) hsilent
    (fun _ => ⟨rfl, rfl⟩) fun _ _ _ => .trans
  refine hkeeps (fun i c d hi hdoes => ?_) ?_ ?_ ?_
  · obtain ⟨hinstr, hmove⟩ := does_move hdoes hi.not_reads
    exact silent_sameOutput hinstr hi hmove
  · rintro cond c d ⟨target, v, hinstr, hmove, -⟩
    exact silent_sameOutput hinstr id hmove
  · rintro cond c d ⟨target, hinstr, hmove, -⟩
    exact silent_sameOutput hinstr id hmove
  · rintro c d ⟨target, hinstr, hmove⟩
    exact silent_sameOutput hinstr id hmove

end Silent

section Nested

/-- `message R { v: u16; next: R if v; }` -/
def nestedMessage : Message where
  name := "R"
  fields := [⟨"v", .u16, none, none, 0⟩, ⟨"next", .messageRef "R", none, some (.ident "v"), 1⟩]
  lets := []
  loops := []
  validates := []
  matches_ := []

/-- `message M { r: R; }` -/
def nestingMessage : Message where
  name := "M"
  fields := [⟨"r", .messageRef "R", none, none, 0⟩]
  lets := []
  loops := []
  validates := []
  matches_ := []

/-- Messages that nest a further one as long as their value is not zero. -/
def nested : Protocol where
  name := "P"
  endian := "big"
  messages := [nestingMessage, nestedMessage]
  binds := []

/-- Eight messages that nest a further one, and the first bytes of that. -/
def nestedData : List UInt8 := (List.replicate 8 [0, 1]).flatten ++ [5, 7]

/-- A field of the nested messages. -/
def IsNested (f : Field) : Prop := f.ty = .u16 ∨ f.ty = .messageRef "R"

/-- What a decoder of the nested messages has to do. -/
def NestedTask : Task → Prop
  | .read kind _ => kind = .int 2 false
  | .content f | .item (.field f) => IsNested f
  | .items items => ∀ item ∈ items, ∃ f, item = .field f ∧ IsNested f
  | .item _ | .rounds _ => False
  | .ask _ _ | .askAll _ | .emit _ _ | .check _ => True

/-- At most `r` values of two bytes have been read for the fields that were emitted, and for
`e` of them no more. -/
def PacedBy (r e : ℕ) (c d : Config) : Prop :=
  c.vm.bitOffset = 0 → d.vm.bitOffset = 0 ∧
    d.vm.inputPos + 2 * c.vm.emitted.length + 2 * e ≤
      c.vm.inputPos + 2 * d.vm.emitted.length + 2 * r

def Task.reads : Task → ℕ
  | .read _ _ => 1
  | _ => 0

def Task.emits : Task → ℕ
  | .emit _ _ => 1
  | _ => 0

variable {r r' e e' depth : ℕ} {c d f : Config} {task : Task} {program : BytecodeProgram}

theorem PacedBy.trans (h : PacedBy r e c d) (h' : PacedBy r' e' d f) :
    PacedBy (r + r') (e + e') c f := by
  intro hbit
  obtain ⟨hbit', hle⟩ := h hbit
  obtain ⟨hbit'', hle'⟩ := h' hbit'
  exact ⟨hbit'', by omega⟩

theorem PacedBy.cancel (h : PacedBy (r + 1) (e + 1) c d) : PacedBy r e c d := by
  intro hbit
  obtain ⟨hbit', hle⟩ := h hbit
  exact ⟨hbit', by omega⟩

theorem SameOutput.paced (h : SameOutput c.vm d.vm) : PacedBy 0 0 c d := by
  obtain ⟨hcursor, hemitted⟩ := h
  obtain ⟨hpos, hbit⟩ := Cursor.mk.inj hcursor
  intro hzero
  rw [hpos, hbit, hemitted]
  exact ⟨hzero, Nat.le_refl _⟩

theorem reads_paced {kind : ReadKind} {v : UInt64} (hkind : kind = .int 2 false)
    (h : (vmReader nested program false).reads kind v c d) : PacedBy 1 0 c d := by
  obtain ⟨instr, c', -, -, hresumed, -, hread, hemitted⟩ := h
  have hsame : c' = c := by
    induction hresumed with
    | refl => rfl
    | tail _ hlast _ => cases hlast
  subst hkind hsame
  intro hbit
  have hpos : c'.vm.tick.bytePos = c'.vm.inputPos := if_pos hbit
  rw [ReadKind.read, hpos] at hread
  rw [hemitted]
  split at hread
  · obtain ⟨hpos', hbit'⟩ := Cursor.mk.inj (Prod.mk.inj hread).2
    exact ⟨hbit'.symm, by omega⟩
  · obtain ⟨hpos', hbit'⟩ := Cursor.mk.inj (Prod.mk.inj hread).2
    exact ⟨hbit'.symm, by omega⟩

theorem emits_paced {name : String} {v : UInt64}
    (h : (vmReader nested program false).emits name v c d) : PacedBy 0 1 c d := by
  obtain ⟨slot, hinstr, hmove, -⟩ := h
  obtain ⟨instr, hinstr', -, hexec⟩ := vmMove_eq_ok.mp hmove
  obtain rfl := Option.some.inj (hinstr.symm.trans hinstr')
  obtain ⟨w, -, hgoes⟩ := withSlot_eq_goto hexec
  have hvm := (Prod.mk.inj hgoes).1
  intro hbit
  rw [← hvm]
  refine ⟨hbit, ?_⟩
  simp only [List.length_append, List.length_singleton, tick_emitted, tick_inputPos]
  omega

theorem rests_paced (h : (vmReader nested program false).rests c d) : PacedBy 0 0 c d := by
  obtain ⟨instr, hinstr, hsilent, hmove⟩ := h
  exact (silent_sameOutput hinstr hsilent hmove).paced

theorem nestedMessage_items : NestedTask (.items nestedMessage.body.items) := by
  have hitems : nestedMessage.body.items = [.field ⟨"v", .u16, none, none, 0⟩,
      .field ⟨"next", .messageRef "R", none, some (.ident "v"), 1⟩] := rfl
  intro item hmem
  rw [hitems, List.mem_cons, List.mem_singleton] at hmem
  obtain rfl | rfl := hmem
  · exact ⟨_, rfl, .inl rfl⟩
  · exact ⟨_, rfl, .inr rfl⟩

theorem nestingMessage_items : NestedTask (.items nestingMessage.body.items) := by
  have hitems : nestingMessage.body.items = [.field ⟨"r", .messageRef "R", none, none, 0⟩] := rfl
  intro item hmem
  rw [hitems, List.mem_singleton] at hmem
  subst hmem
  exact ⟨_, rfl, .inr rfl⟩

theorem nested_found : nested.messages.find? (·.name == "R") = some nestedMessage := rfl

/-- A decoder that cuts no field reads two bytes for each field that it emits. -/
theorem nested_paced
    (h : Decodes (vmReader nested program false) nested (fun _ => False) depth task c d)
    (htask : NestedTask task) : PacedBy task.reads task.emits c d := by
  induction h with
  | pause hrests _ ih =>
      have hpaced := (rests_paced hrests).trans (ih htask)
      rwa [Nat.zero_add, Nat.zero_add] at hpaced
  | settle _ hrests ih => exact (ih htask).trans (rests_paced hrests)
  | ask hasks => exact (asks_sameOutput hasks).paced
  | read hreads => exact reads_paced htask hreads
  | emit hemits => exact emits_paced hemits
  | askNone => exact fun hbit => ⟨hbit, Nat.le_refl _⟩
  | askNext _ _ ih ih' => exact (ih trivial).trans (ih' trivial)
  | unchecked => exact fun hbit => ⟨hbit, Nat.le_refl _⟩
  | checked _ _ ih => exact ih trivial
  | @scalar _ field kind _ _ _ _ _ hkind _ _ _ ihr ihc ihe =>
      obtain hty | hty := htask
      · rw [hty] at hkind
        obtain rfl := Option.some.inj hkind
        exact (((ihr rfl).trans (ihc trivial)).trans (ihe trivial)).cancel
      · rw [hty] at hkind
        cases hkind
  | bytes hty =>
      rw [NestedTask, IsNested, hty] at htask
      obtain h | h := htask <;> cases h
  | inlined hty hmsg _ _ ihi ihc =>
      rw [NestedTask, IsNested, hty] at htask
      obtain h | h := htask
      · cases h
      · cases h
        obtain rfl := Option.some.inj (hmsg.symm.trans nested_found)
        exact (ihi nestedMessage_items).trans (ihc trivial)
  | unknown hty hmsg =>
      rw [NestedTask, IsNested, hty] at htask
      obtain h | h := htask
      · cases h
      · cases h
        cases hmsg.symm.trans nested_found
  | cut hdeep => exact hdeep.elim
  | always _ _ _ ih => exact ih htask
  | absent _ _ _ ih => exact ih trivial
  | present _ _ _ _ _ ih ih' => exact (ih trivial).trans (ih' htask)
  | letItem => exact htask.elim
  | validate => exact htask.elim
  | loop => exact htask.elim
  | exit => exact htask.elim
  | round => exact htask.elim
  | taken => exact htask.elim
  | otherwise => exact htask.elim
  | noArm => exact htask.elim
  | done => exact fun hbit => ⟨hbit, Nat.le_refl _⟩
  | next _ _ ih ih' =>
      obtain ⟨⟨f, rfl, hf⟩, hrest⟩ := List.forall_mem_cons.mp htask
      exact (ih hf).trans (ih' hrest)

/-- Where no message of a protocol has a match, no tag is overwritten. -/
theorem keeps_tags {proto : Protocol} (h : ∀ msg ∈ proto.messages, msg.matches_ = []) (ip : ℕ) :
    ¬ OverwritesTag proto ip := by
  have hno : ∀ {remaining namePrefix body s tag arms order t}, (∃ msg ∈ proto.messages,
      body = msg.body) → ¬ ItemAt (proto.context remaining) namePrefix body s
        (.matchItem (.mk tag arms order)) t := by
    rintro remaining namePrefix body s tag arms order t ⟨msg, hmsg, rfl⟩ ⟨before, after, hitems, -⟩
    have hmem : BodyItem.matchItem (.mk tag arms order) ∈ msg.body.items :=
      hitems ▸ List.mem_append_right _ (List.mem_cons_self ..)
    have hlisted := (List.perm_insertionSort _ _).mem_iff.mp hmem
    simp [MatchArm.listed, Message.body, h msg hmsg] at hlisted
  have hbodies : ∀ {remaining namePrefix body s}, BodyAt proto remaining namePrefix body s →
      ∃ msg ∈ proto.messages, body = msg.body := by
    intro remaining namePrefix body s hbody
    induction hbody with
    | root hmsg => exact ⟨_, List.mem_of_getElem? hmsg, rfl⟩
    | arm _ hitem _ ih => exact absurd hitem (hno ih)
    | inlined _ _ _ hmsg _ => exact ⟨_, List.mem_of_find?_eq_some hmsg, rfl⟩
  rintro ⟨hbody, hitem, -, -⟩
  exact hno (hbodies hbody) hitem

/-- What the nested messages are compiled to, and how the run over the data ends. -/
theorem nested_run : ∃ program fieldMap,
    protocolToBytecodeWithMap nested = some (program, fieldMap) ∧
    IsRun program false (tracedRun program nestedData) 37 ∧
    (tracedRun program nestedData 0).ip = 0 ∧
    (∃ vm, vmMove program false (tracedRun program nestedData 37) =
      .error (vm, .returned (.ok .complete))) ∧
    (tracedRun program nestedData 37).vm.inputPos = 18 ∧
    (tracedRun program nestedData 37).vm.emitted = List.replicate 8 ("v", 1) := by
  obtain ⟨⟨program, fieldMap⟩, hcompile⟩ := Option.isSome_iff_exists.mp
    (show (protocolToBytecodeWithMap nested).isSome by decide +kernel)
  have hchecks : ∀ r ∈ protocolToBytecodeWithMap nested,
      37 < (trace (vmMove r.1 false) 40 (datagramStart r.1 .default nestedData)).length ∧
        (tracedRun r.1 nestedData 0).ip = 0 ∧
        r.1.instructions[(tracedRun r.1 nestedData 37).ip]? = some .ret ∧
        ¬ (tracedRun r.1 nestedData 37).vm.outOfBudget ∧
        (tracedRun r.1 nestedData 37).vm.inputPos = 18 ∧
        (tracedRun r.1 nestedData 37).vm.emitted = List.replicate 8 ("v", 1) := by
    decide +kernel
  obtain ⟨hlong, hstart, hret, hbudget, hpos, hemitted⟩ := hchecks _ hcompile
  refine ⟨program, fieldMap, hcompile, tracedRun_isRun hlong, hstart,
    ⟨(tracedRun program nestedData 37).vm.tick, ?_⟩, hpos, hemitted⟩
  exact vmMove_eq_error.mpr (.inr (.inr ⟨.ret, hret, hbudget, rfl⟩))

theorem complete_run_descends_nested : ∃ program fieldMap,
    protocolToBytecodeWithMap nested = some (program, fieldMap) ∧
      Descends nested program false (maxRefDepth < ·) 0 (.items nestingMessage.body.items)
        (tracedRun program nestedData 0) (tracedRun program nestedData 37) := by
  obtain ⟨program, fieldMap, hcompile, hrun, hstart, ⟨vm, hend⟩, -, -⟩ := nested_run
  have hexact : ∀ target ∈ (protocolCode nested).targets 0, target ≤ u16Max := by decide +kernel
  have hmatches : ∀ msg ∈ nested.messages, msg.matches_ = [] := by decide
  exact ⟨program, fieldMap, hcompile, (complete_run_descends hcompile hexact rfl hrun hstart hend
    fun _ _ => keeps_tags hmatches _).1⟩

/-- The ninth nested message is not read as it is declared: its value of two bytes is cut to
the first of them, and the other one stands for the message that it nests. The run completes
nevertheless, with the values of the eight messages before it. -/
theorem nested_not_descends : ∃ program fieldMap,
    protocolToBytecodeWithMap nested = some (program, fieldMap) ∧
      IsRun program false (tracedRun program nestedData) 37 ∧
      (tracedRun program nestedData 0).ip = 0 ∧
      (∃ vm, vmMove program false (tracedRun program nestedData 37) =
        .error (vm, .returned (.ok .complete))) ∧
      (tracedRun program nestedData 37).vm.inputPos = nestedData.length ∧
      (tracedRun program nestedData 37).vm.emitted = List.replicate 8 ("v", 1) ∧
      ¬ Descends nested program false (fun _ => False) 0 (.items nestingMessage.body.items)
        (tracedRun program nestedData 0) (tracedRun program nestedData 37) := by
  obtain ⟨program, fieldMap, hcompile, hrun, hstart, hend, hpos, hemitted⟩ := nested_run
  refine ⟨program, fieldMap, hcompile, hrun, hstart, hend, hpos, hemitted, fun hdescends => ?_⟩
  obtain ⟨-, hpaced⟩ := nested_paced hdescends nestingMessage_items rfl
  rw [hpos, hemitted] at hpaced
  change 18 + 2 * 0 + 2 * 0 ≤ 0 + 2 * 8 + 2 * 0 at hpaced
  omega

end Nested

end NFdl
