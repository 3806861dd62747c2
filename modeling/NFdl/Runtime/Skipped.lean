import NFdl.Runtime.LaterWrites
import NFdl.Runtime.MatchRun
import NFdl.Bytecode.Chunks

/-!
# Skipped fields

The code of a conditional field is skipped when its condition is zero. Nothing is stored then:
the slot of the field keeps what an earlier pass has left there. So a skipped field reads as
absent exactly where its slot still holds zero, as long as no `next` statement assigns it.
-/

namespace NFdl

open BytecodeVm Machine

section Steps

variable {program : BytecodeProgram} {stream : Bool} {c d : Config} {slot : ℕ}

theorem RunStep.copy {src : ℕ} (h : RunStep program stream c d)
    (hinstr : program.instructions[c.ip]? = some (.copySlot src slot)) :
    ∃ v, c.vm.slots[src]? = some v ∧ d = ⟨c.vm.tick.writeSlot slot v, c.ip + 1⟩ := by
  have hmove := h.vmMove hinstr fun vm => withSlot_not_suspends fun _ => id
  obtain ⟨instr, hinstr', hbudget, hexec⟩ := vmMove_eq_ok.mp hmove
  obtain rfl := Option.some.inj (hinstr.symm.trans hinstr')
  obtain ⟨v, hv, -⟩ := withSlot_eq_goto hexec
  have hstore : NFdl.vmMove program stream c = .ok ⟨c.vm.tick.writeSlot slot v, c.ip + 1⟩ :=
    vmMove_store hinstr hbudget (execInstr_copySlot hv)
  exact ⟨v, hv, Except.ok.inj (hmove.symm.trans hstore)⟩

end Steps

/-- The code of a conditional field: the jump over it and the slot that this tests, the address
behind the code, the slot that the field's names stand for, and the first slot that is free
behind it. -/
structure SkipCode where
  jump : ℕ
  cond : ℕ
  stop : ℕ
  slot : ℕ
  free : ℕ

/-- The code of a field with the condition `cond` that is emitted at `t`. -/
def skipCode (cx : EmitContext) (fieldPrefix : String) (field : Field) (cond : Expr)
    (t : EmitState) : SkipCode where
  jump := (t.emitExpr cx cond).2.instructions.length
  cond := (t.emitExpr cx cond).1
  stop := (emitFieldBytecode cx field fieldPrefix t).instructions.length
  slot := (t.emitExpr cx cond).2.slot
  free := (emitFieldBytecode cx field fieldPrefix t).slot

section Fields

variable {cx : EmitContext} {inlineMessage : String → Message → Emitter} {field : Field}
  {cond : Expr}

end Fields

/-- The conditional fields that a protocol compiles, with their code. -/
inductive ConditionalAt (proto : Protocol) (field : Field) : SkipCode → Prop where
  | mk {remaining namePrefix body s fieldPrefix t cond} :
      BodyAt proto (remaining + 1) namePrefix body s →
      FieldAt (proto.context (remaining + 1)) namePrefix body s fieldPrefix field t →
      field.conditional = some cond →
      ConditionalAt proto field (skipCode (proto.context (remaining + 1)) fieldPrefix field cond t)

namespace SkipCode

/-- The condition of the field is found false. -/
def SkippedIn (f : SkipCode) (c : Config) : Prop :=
  c.ip = f.jump ∧ c.vm.slots[f.cond]? = some 0

/-- Since step `i` control has stayed behind the field's code, as it does for the rest of the
pass that has come there. -/
def SamePass (f : SkipCode) (run : ℕ → Config) (i j : ℕ) : Prop :=
  ∀ k, i < k → k ≤ j → f.stop ≤ (run k).ip

/-- Every name that stands for the field is read as zero. -/
def Absent (f : SkipCode) (vm : BytecodeVm) : Prop :=
  ∀ varSlots x, varSlots.lookup x = some f.slot → slotEnv varSlots vm x = some 0

/-- A field that is skipped reads as absent for the rest of the pass. -/
def ReadsAbsent (f : SkipCode) (run : ℕ → Config) (n : ℕ) : Prop :=
  ∀ i j, i < j → j ≤ n → f.SkippedIn (run i) → f.SamePass run i j → f.Absent (run j).vm

/-- The next instruction assigns another value than zero to the field's names. -/
def Assigns (f : SkipCode) (program : BytecodeProgram) (c : Config) : Prop :=
  ∃ src v, program.instructions[c.ip]? = some (.copySlot src f.slot) ∧
    c.vm.slots[src]? = some v ∧ v ≠ 0

/-- Whenever the field is skipped, no earlier pass has left anything in its slot, and no
assignment puts something there in this pass. -/
structure LeftEmpty (f : SkipCode) (program : BytecodeProgram) (run : ℕ → Config) (n : ℕ) :
    Prop where
  empty : ∀ i < n, f.SkippedIn (run i) → (run i).vm.slots[f.slot]? = some 0
  unassigned : ∀ i j, i < j → j < n → f.SkippedIn (run i) → f.SamePass run i j →
    ¬ f.Assigns program (run j)

variable {f : SkipCode}

theorem absent_iff {vm : BytecodeVm} : f.Absent vm ↔ vm.slots[f.slot]? = some 0 := by
  constructor
  · intro h
    rw [← slotEnv_of_lookup (AList.lookup_insert ∅ : (AList.insert "" f.slot ∅).lookup "" = _)]
    exact h _ _ (AList.lookup_insert ∅)
  · intro h varSlots x hx
    rw [slotEnv_of_lookup hx, h]

end SkipCode

/-- What is known of the compiled code of a conditional field. -/
structure SkipStands (program : BytecodeProgram) (f : SkipCode) : Prop where
  jump : program.instructions[f.jump]? = some (.jumpIfZero f.cond f.stop)
  forward : f.jump < f.stop
  later : ∀ i instr, f.stop ≤ i → program.instructions[i]? = some instr →
    instr.WritesFrom currentOffsetSlot f.free
  slot_pos : currentOffsetSlot < f.slot

theorem ConditionalAt.stands {proto : Protocol} {program : BytecodeProgram} {fieldMap : SlotMap}
    (hcompile : protocolToBytecodeWithMap proto = some (program, fieldMap))
    (hfits : program.instructions.length ≤ u16Max) {field : Field} {f : SkipCode}
    (hat : ConditionalAt proto field f) : SkipStands program f := by
  obtain @⟨remaining, _, _, _, fieldPrefix, t, cond, hbody, hfield, hcond⟩ := hat
  let cx := proto.context (remaining + 1)
  obtain ⟨hstands, -⟩ := (hbody.inPlace hcompile).field hfield
  have hcoded := emitField_codes (proto.context_code (remaining + 1)) field fieldPrefix t
  have hcode : ∃ block, fieldCode cx (proto.inlines (remaining + 1)) field fieldPrefix t =
      (t.exprCode cx cond).seq (.skip (t.emitExpr cx cond).1 block) := by
    unfold fieldCode
    rw [hcond]
    exact ⟨_, rfl⟩
  obtain ⟨block, hblock⟩ := hcode
  have hexpr := Coded.expr t cx cond
  rw [hblock] at hcoded hstands
  have hjump : (t.emitExpr cx cond).2.instructions.length + (block.length + 1) =
      (emitFieldBytecode cx field fieldPrefix t).instructions.length := by
    rw [hexpr.length_eq, hcoded.length_eq, Structured.length_seq, Structured.length_skip,
      Nat.add_assoc]
  have hskip := hstands.second hexpr
  have hle := hskip.length_le (Nat.succ_ne_zero _)
  rw [Structured.length_skip, hjump] at hle
  unfold Stands at hskip
  rw [Code.stored_skip, Nat.add_assoc, hjump, asU16_of_le (Nat.le_trans hle hfits)] at hskip
  refine ⟨hskip.head, ?_, fun i instr => compiled_later hcompile hbody hfield, ?_⟩
  · exact Nat.lt_of_lt_of_eq (Nat.lt_add_of_pos_right (Nat.succ_pos _)) hjump
  · exact Nat.lt_of_lt_of_le hbody.slot_pos
      (Nat.le_trans hfield.slot_le (@Emitted.expr [] t cx cond).slot_le)

section Runs

variable {program : BytecodeProgram} {stream : Bool} {run : ℕ → Config} {n : ℕ} {f : SkipCode}

/-- Where the field is skipped, control goes behind its code and no slot changes. -/
theorem SkipStands.skip {c d : Config} (h : SkipStands program f)
    (hskip : f.SkippedIn c) (hstep : RunStep program stream c d) :
    d.ip = f.stop ∧ d.vm.slots = c.vm.slots := by
  obtain ⟨hip, hzero⟩ := hskip
  have hinstr : program.instructions[c.ip]? = some (.jumpIfZero f.cond f.stop) := by
    rw [hip]
    exact h.jump
  have hmove := hstep.vmMove hinstr fun vm =>
    withSlot_not_suspends (execJumpIfZero_not_suspends f.stop c.ip vm)
  obtain ⟨v, hv, rfl⟩ := move_branch (by rw [hip]; exact Nat.le_of_lt h.forward) hinstr hmove
  obtain rfl := Option.some.inj (hzero.symm.trans hv)
  refine ⟨?_, rfl⟩
  dsimp only
  rw [if_pos rfl]

/-- Behind the field's code only copies write its slot. -/
theorem SkipStands.copies (h : SkipStands program f) (hfree : f.slot < f.free) {i : ℕ}
    {instr : Instruction} (hi : f.stop ≤ i) (hinstr : program.instructions[i]? = some instr)
    (hdest : instr.dest = some f.slot) : ∃ src, instr = .copySlot src f.slot := by
  obtain heq | hle | hcopy := h.later i instr hi hinstr f.slot hdest
  · exact absurd heq.symm (Nat.ne_of_lt h.slot_pos)
  · exact absurd hle (Nat.not_le.mpr hfree)
  · exact hcopy

/-- A step behind the field's code that assigns nothing to its names leaves them absent. -/
theorem SkipStands.step {c d : Config} (h : SkipStands program f) (hfree : f.slot < f.free)
    (hip : f.stop ≤ c.ip) (hassigns : ¬ f.Assigns program c) (hstep : RunStep program stream c d)
    (hempty : c.vm.slots[f.slot]? = some 0) : d.vm.slots[f.slot]? = some 0 := by
  by_cases hwrites : ∃ instr, program.instructions[c.ip]? = some instr ∧ instr.dest = some f.slot
  · obtain ⟨instr, hinstr, hdest⟩ := hwrites
    obtain ⟨src, rfl⟩ := h.copies hfree hip hinstr hdest
    obtain ⟨v, hv, rfl⟩ := hstep.copy hinstr
    have hzero : v = 0 := by
      by_contra hne
      exact hassigns ⟨src, v, hinstr, hv, hne⟩
    rw [writeSlot_slots, tick_slots, hzero,
      List.getElem?_set_self (List.getElem?_eq_some_iff.mp hempty).1]
  · rw [hstep.slots fun instr hinstr hdest => hwrites ⟨instr, hinstr, hdest⟩, hempty]

/-- From a skip that finds the slot empty, it stays empty for the rest of the pass. -/
theorem SkipStands.stays_empty (h : SkipStands program f) (hfree : f.slot < f.free)
    (hrun : IsRun program stream run n) (hleft : f.LeftEmpty program run n) {i j : ℕ}
    (hij : i < j) (hj : j ≤ n) (hskip : f.SkippedIn (run i)) (hpass : f.SamePass run i j) :
    (run j).vm.slots[f.slot]? = some 0 := by
  induction j, hij using Nat.le_induction with
  | base =>
      rw [(h.skip hskip (hrun i hj)).2]
      exact hleft.empty i hj hskip
  | succ j hij ih =>
      have hpass' : f.SamePass run i j := fun k hik hkj => hpass k hik (Nat.le_succ_of_le hkj)
      exact h.step hfree (hpass j hij (Nat.le_succ j)) (hleft.unassigned i j hij hj hskip hpass')
        (hrun j hj) (ih (Nat.le_of_succ_le hj) hpass')

end Runs

/-- For every protocol that compiles and every run, over a datagram or over the chunks of a
stream: a conditional field that is skipped reads as absent for the rest of the pass exactly
if, whenever it is skipped, its slot still holds zero and no `next` statement of the pass
assigns it another value. -/
theorem skipped_reads_absent_iff {proto : Protocol} {program : BytecodeProgram}
    {fieldMap : SlotMap} (hcompile : protocolToBytecodeWithMap proto = some (program, fieldMap))
    (hfits : program.instructions.length ≤ u16Max) {field : Field} {f : SkipCode}
    (hat : ConditionalAt proto field f) (hfree : f.slot < f.free) {stream : Bool}
    {run : ℕ → Config} {n : ℕ} (hrun : IsRun program stream run n) :
    f.ReadsAbsent run n ↔ f.LeftEmpty program run n := by
  have hstands := hat.stands hcompile hfits
  constructor
  · intro h
    have hslots : ∀ i j, i < j → j ≤ n → f.SkippedIn (run i) → f.SamePass run i j →
        (run j).vm.slots[f.slot]? = some 0 := fun i j hij hj hskip hpass =>
      SkipCode.absent_iff.mp (h i j hij hj hskip hpass)
    refine ⟨fun i hi hskip => ?_, fun i j hij hj hskip hpass => ?_⟩
    · obtain ⟨hip, hsame⟩ := hstands.skip hskip (hrun i hi)
      rw [← hsame]
      refine hslots i (i + 1) (Nat.lt_succ_self i) hi hskip fun k hik hk => ?_
      obtain rfl : k = i + 1 := by omega
      exact Nat.le_of_eq hip.symm
    · rintro ⟨src, v, hinstr, hv, hne⟩
      obtain ⟨v', hv', hnext⟩ := (hrun j hj).copy hinstr
      obtain rfl := Option.some.inj (hv.symm.trans hv')
      have hlen := (List.getElem?_eq_some_iff.mp (hslots i j hij (Nat.le_of_lt hj) hskip hpass)).1
      have hzero := hslots i (j + 1) (Nat.lt_succ_of_lt hij) hj hskip fun k hik hk => by
        obtain hk | rfl := Nat.lt_or_eq_of_le hk
        · exact hpass k hik (Nat.le_of_lt_succ hk)
        · rw [hnext]
          exact Nat.le_succ_of_le (hpass j hij (Nat.le_refl j))
      rw [hnext, writeSlot_slots, tick_slots, List.getElem?_set_self hlen] at hzero
      exact hne (Option.some.inj hzero)
  · intro h i j hij hj hskip hpass
    exact SkipCode.absent_iff.mpr (hstands.stays_empty hfree hrun h hij hj hskip hpass)

section Examples

/-- `while __current_offset < 5 { flag: u8; x: u8 if flag; z: u8 if x; }` -/
def flagLoop : Loop where
  name := "l"
  carries := []
  condition := .binary .lt (.ident "__current_offset") (.int 5)
  body := [⟨"flag", .u8, none, none, 0⟩, ⟨"x", .u8, none, some (.ident "flag"), 1⟩,
    ⟨"z", .u8, none, some (.ident "x"), 2⟩]
  nexts := []
  order := 0

/-- The state at which the field `x` is emitted. -/
def flagRead : EmitState :=
  emitFieldBytecode ((loopProtocol [] flagLoop).context (maxRefDepth + 1))
    ⟨"flag", .u8, none, none, 0⟩ "l"
    (loopBodyStart ((loopProtocol [] flagLoop).context (maxRefDepth + 1)) "" flagLoop messageStart)

/-- The code of the field `x`. -/
def flagged : SkipCode :=
  skipCode ((loopProtocol [] flagLoop).context (maxRefDepth + 1)) "l"
    ⟨"x", .u8, none, some (.ident "flag"), 1⟩ (.ident "flag") flagRead

theorem flagged_conditional :
    ConditionalAt (loopProtocol [] flagLoop) ⟨"x", .u8, none, some (.ident "flag"), 1⟩ flagged := by
  have hloop : ItemAt ((loopProtocol [] flagLoop).context (maxRefDepth + 1)) "" (Message.body
      ⟨"M", [], [], [flagLoop], [], []⟩) messageStart (.loop flagLoop) messageStart :=
    ⟨[], [], rfl, rfl⟩
  exact .mk (.root rfl) (.looped hloop
    (show flagLoop.body = [⟨"flag", .u8, none, none, 0⟩] ++ _ :: _ from rfl)) rfl

theorem skipped_reads_absent_iff_once : ∃ program fieldMap,
    protocolToBytecodeWithMap (loopProtocol [] flagLoop) = some (program, fieldMap) ∧
      (flagged.ReadsAbsent (tracedRun program [0]) 8 ↔
        flagged.LeftEmpty program (tracedRun program [0]) 8) := by
  obtain ⟨⟨program, fieldMap⟩, hcompile⟩ := Option.isSome_iff_exists.mp
    (show (protocolToBytecodeWithMap (loopProtocol [] flagLoop)).isSome by decide)
  have hchecks : ∀ r ∈ protocolToBytecodeWithMap (loopProtocol [] flagLoop),
      r.1.instructions.length ≤ u16Max ∧
        8 < (trace (vmMove r.1 false) 40 (datagramStart r.1 .default [0])).length := by decide
  obtain ⟨hfits, hlong⟩ := hchecks _ hcompile
  exact ⟨program, fieldMap, hcompile, skipped_reads_absent_iff hcompile hfits flagged_conditional
    (by decide) (tracedRun_isRun hlong)⟩

/-- In the second iteration `flag` is zero and `x` is skipped, but the condition of `z` still
sees the 7 that was read for `x` in the first one, and `z` is read. -/
theorem skipped_field_seen : ∃ program fieldMap,
    protocolToBytecodeWithMap (loopProtocol [] flagLoop) = some (program, fieldMap) ∧
      ConditionalAt (loopProtocol [] flagLoop) ⟨"x", .u8, none, some (.ident "flag"), 1⟩ flagged ∧
      IsRun program false (tracedRun program [1, 7, 5, 0, 9]) 23 ∧
      (interpret program 0 false (datagramStart program .default [1, 7, 5, 0, 9]).vm).1.emitted =
        [("flag", 1), ("x", 7), ("z", 5), ("flag", 0), ("z", 9)] ∧
      ¬ flagged.ReadsAbsent (tracedRun program [1, 7, 5, 0, 9]) 23 := by
  obtain ⟨⟨program, fieldMap⟩, hcompile⟩ := Option.isSome_iff_exists.mp
    (show (protocolToBytecodeWithMap (loopProtocol [] flagLoop)).isSome by decide)
  have hchecks : ∀ r ∈ protocolToBytecodeWithMap (loopProtocol [] flagLoop),
      23 < (trace (vmMove r.1 false) 40 (datagramStart r.1 .default [1, 7, 5, 0, 9])).length ∧
      (interpret r.1 0 false (datagramStart r.1 .default [1, 7, 5, 0, 9]).vm).1.emitted =
        [("flag", 1), ("x", 7), ("z", 5), ("flag", 0), ("z", 9)] ∧
      flagged.jump = (tracedRun r.1 [1, 7, 5, 0, 9] 22).ip ∧
      (tracedRun r.1 [1, 7, 5, 0, 9] 22).vm.slots[flagged.cond]? = some 0 ∧
      flagged.stop ≤ (tracedRun r.1 [1, 7, 5, 0, 9] 23).ip ∧
      (tracedRun r.1 [1, 7, 5, 0, 9] 23).vm.slots[flagged.slot]? = some 7 := by decide
  obtain ⟨hlong, hemitted, hip, hzero, hstop, hseven⟩ := hchecks _ hcompile
  refine ⟨program, fieldMap, hcompile, flagged_conditional, tracedRun_isRun hlong, hemitted,
    fun habsent => ?_⟩
  have hpass : flagged.SamePass (tracedRun program [1, 7, 5, 0, 9]) 22 23 := by
    intro k hk hk'
    obtain rfl : k = 23 := by omega
    exact hstop
  have hread := SkipCode.absent_iff.mp
    (habsent 22 23 (by omega) (Nat.le_refl _) ⟨hip.symm, hzero⟩ hpass)
  exact absurd (hread.symm.trans hseven) (by decide)

end Examples

end NFdl
