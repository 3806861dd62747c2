import NFdl.Runtime.Arithmetic
import NFdl.Runtime.DescentRun
import NFdl.Runtime.ExprPieces

/-!
# Arithmetic in compiled protocols

The operators that can leave the machine type are all in the code of expressions. A run
comes into that code at its start, and goes on in it without a pause. So the values that
the slots have there decide whether an operator of the expression overflows.
-/

namespace NFdl

open BytecodeVm Machine

/-! ### Expressions in slots -/

/-- The expression with its names and dotted references replaced by their values. -/
def Expr.withValues (offset : UInt64) (vars : Env) : Expr → Expr
  | .ident name =>
      .int (if name = "__current_offset" then offset else vars.value name).toInt64
  | .field base name => .int (fieldValue vars base name).toInt64
  | .binary op left right => .binary op (left.withValues offset vars) (right.withValues offset vars)
  | .unary op expr => .unary op (expr.withValues offset vars)
  | .ternary cond thenBranch elseBranch => .ternary (cond.withValues offset vars)
      (thenBranch.withValues offset vars) (elseBranch.withValues offset vars)
  | .coalesce value default =>
      .coalesce (value.withValues offset vars) (default.withValues offset vars)
  | e => e

theorem evalExpr_withValues (offset : UInt64) (vars env : Env) (e : Expr) :
    evalExpr env (e.withValues offset vars) = evalNamed offset vars e := by
  induction e with
  | ident name =>
      unfold Expr.withValues evalExpr evalNamed
      rw [UInt64.toUInt64_toInt64]
      split <;> rfl
  | field base name _ =>
      unfold Expr.withValues evalExpr evalNamed
      rw [UInt64.toUInt64_toInt64]
  | binary op left right ihl ihr =>
      unfold Expr.withValues evalExpr evalNamed
      rw [ihl, ihr]
  | unary op expr ih =>
      unfold Expr.withValues evalExpr evalNamed
      rw [ih]
  | ternary cond thenBranch elseBranch ihc iht ihe =>
      unfold Expr.withValues evalExpr evalNamed
      rw [ihc, iht, ihe]
  | coalesce value default ihv ihd =>
      unfold Expr.withValues evalExpr evalNamed
      rw [ihv, ihd]
  | _ => rfl

/-- The exact values of all parts that are evaluated fit, with the names' values in the slots. -/
def Expr.FitsSlots (varSlots : SlotMap) (offset : ℕ) (vm : BytecodeVm) (e : Expr) : Prop :=
  FitsWord (fun _ => none) (e.withValues (vm.getSlot offset) (slotEnv varSlots vm))

theorem slotValue_ne_none_iff {varSlots : SlotMap} {offset : ℕ} {vm : BytecodeVm} {e : Expr} :
    slotValue varSlots offset vm e ≠ none ↔ e.FitsSlots varSlots offset vm := by
  unfold slotValue Expr.FitsSlots
  rw [← evalExpr_ne_none_iff, evalExpr_withValues]

/-- All operators of the expression have results for all operands. -/
def Expr.IsTotal : Expr → Prop
  | .binary op left right => op.toBytecode.IsTotal ∧ left.IsTotal ∧ right.IsTotal
  | .unary _ expr => expr.IsTotal
  | .ternary cond thenBranch elseBranch =>
      cond.IsTotal ∧ thenBranch.IsTotal ∧ elseBranch.IsTotal
  | .coalesce value default => value.IsTotal ∧ default.IsTotal
  | _ => True

theorem BytecodeBinOp.IsTotal.apply_ne_none {op : BytecodeBinOp} (h : op.IsTotal) (l r : UInt64) :
    op.apply l r ≠ none := by
  intro hnone
  have hrange := BytecodeBinOp.apply_eq_none_iff.mp hnone
  cases op with
  | add => exact h
  | mul => exact h
  | shl => exact h
  | shr => exact h
  | _ => exact hrange trivial

/-- The code of an expression is total if the expression is. -/
theorem exprCode_total (varSlots : SlotMap) (offset : ℕ) {e : Expr} (he : e.IsTotal) (next : ℕ) :
    (exprCode varSlots offset e next).All fun i => i.1.IsTotal := by
  induction e generalizing next with
  | ident name =>
      unfold exprCode
      split
      · trivial
      · split <;> trivial
  | field base name _ =>
      unfold exprCode
      split <;> trivial
  | binary op left right ihl ihr => exact ⟨⟨ihl he.2.1 _, ihr he.2.2 _⟩, he.1⟩
  | unary op expr ih => exact ⟨ih he _, trivial⟩
  | ternary cond thenBranch elseBranch ihc iht ihe =>
      exact ⟨ihc he.1 _, ⟨iht he.2.1 _, trivial⟩, ihe he.2.2 _, trivial⟩
  | coalesce value default ihv ihd => exact ⟨ihv he.1 _, trivial, ihd he.2 _, trivial⟩
  | _ => trivial

/-! ### Runs through an expression -/

section Block

variable {program : BytecodeProgram} {stream : Bool} {varSlots : SlotMap} {offset base next : ℕ}
  {e : Expr} {vm : BytecodeVm} {c : Config}

theorem Overflows.panics (h : Overflows program c) :
    vmMove program stream c = .error (c.vm.tick, .panicked) := by
  obtain ⟨op, left, right, dst, l, r, ⟨hinstr, hbudget⟩, hl, hr, hnone⟩ := h
  refine vmMove_eq_error.mpr (.inr (.inr ⟨_, hinstr, hbudget, ?_⟩))
  rw [execInstr_binOp hl hr, hnone]
  rfl

/-- An overflow in the cut program with a larger budget. -/
theorem Overflows.withBudget {stop budget : ℕ} (h : Overflows program c) (hc : c.ip < stop)
    (hbudget : c.vm.limits.maxInstructions ≤ budget) :
    Overflows (program.upTo stop) ⟨c.vm.withBudget budget, c.ip⟩ := by
  obtain ⟨op, left, right, dst, l, r, ⟨hinstr, hwithin⟩, hl, hr, hnone⟩ := h
  refine ⟨op, left, right, dst, l, r, ⟨(upTo_getElem? program hc).trans hinstr, ?_⟩, hl, hr, hnone⟩
  unfold outOfBudget BytecodeVm.withBudget at *
  dsimp only
  omega

/-- If an operator overflows in the code of an expression, the expression has no value in the
slots with which the run came to the code. -/
theorem slotValue_eq_none_of_overflows {m : ℕ} (he : e.OperandsKept varSlots)
    (hbelow : e.AsksBelow varSlots offset next) (hfits : base + codeLength varSlots e ≤ u16Max)
    (hslots : next + slotCount varSlots e < vm.slots.length)
    (hblock : BlockAt program.instructions base (exprBlock varSlots offset e base next))
    (hin : StepsIn (vmMove program stream) (AddressIn base (base + codeLength varSlots e)) m
      ⟨vm, base⟩ c) (hc : AddressIn base (base + codeLength varSlots e) c)
    (h : Overflows program c) : slotValue varSlots offset vm e = none := by
  obtain ⟨budget, hbudget, hlift, hcomputes⟩ :=
    exprBlock_stretch e he hbelow hfits hslots hblock hin
  cases hvalue : slotValue varSlots offset vm e with
  | none => rfl
  | some v =>
      rw [hvalue] at hcomputes
      obtain ⟨m', vm', -, hsteps, -, -⟩ := hcomputes
      have hpanics := @Overflows.panics _ stream _ (h.withBudget hc.2 hbudget)
      have hends := Halts.unique ⟨m, _, hlift, hpanics⟩ ⟨m', _, hsteps, upTo_stops ..⟩
      simp at hends

/-- The instructions of expressions panic only where an operator overflows. -/
theorem overflows_of_panics {hi : ℕ} {instr : Instruction} {vm' : BytecodeVm}
    (hinstr : program.instructions[c.ip]? = some instr) (hexpr : ExprInstr hi c.ip instr)
    (hslots : ∀ slot ∈ instr.slots, slot < c.vm.slots.length)
    (h : vmMove program stream c = .error (vm', .panicked)) : Overflows program c := by
  obtain ⟨_, hend⟩ | ⟨_, _, _, hend⟩ | ⟨instr', hinstr', hbudget, hexec⟩ := vmMove_eq_error.mp h
  · cases hend
  · cases hend
  obtain rfl := Option.some.inj (hinstr.symm.trans hinstr')
  have hget : ∀ slot ∈ instr.slots, c.vm.slots[slot]? = some (c.vm.getSlot slot) :=
    fun slot hslot => getSlot_eq (hslots slot hslot)
  have hflow := congrArg Prod.snd hexec
  cases instr with
  | loadConst value dst => cases hflow
  | jump target => cases hflow
  | binOp op left right dst =>
      have hl := hget left (by simp [Instruction.slots])
      have hr := hget right (by simp [Instruction.slots])
      rw [execInstr_binOp hl hr] at hflow
      cases happly : op.apply (c.vm.getSlot left) (c.vm.getSlot right) with
      | none => exact ⟨op, left, right, dst, _, _, ⟨hinstr, hbudget⟩, hl, hr, happly⟩
      | some v =>
          rw [happly] at hflow
          cases hflow
  | unaryOp op src dst =>
      rw [execInstr_unaryOp (hget src (by simp [Instruction.slots]))] at hflow
      cases hflow
  | copySlot src dst =>
      rw [execInstr_copySlot (hget src (by simp [Instruction.slots]))] at hflow
      cases hflow
  | jumpIfZero cond target =>
      have hflow : (withSlot c.vm.tick cond (execJumpIfZero target c.ip c.vm.tick)).2 =
          .panicked := hflow
      have hcond := hget cond (by simp [Instruction.slots])
      rw [withSlot_eq (show c.vm.tick.slots[cond]? = some _ from hcond)] at hflow
      unfold execJumpIfZero at hflow
      rw [if_neg (Nat.not_lt.mpr (Nat.le_of_lt hexpr.1))] at hflow
      split at hflow <;> cases hflow
  | _ => exact hexpr.elim

/-- Without a value an operator of the expression overflows, if the budget is large enough. -/
theorem overflows_of_slotValue_eq_none (he : e.OperandsKept varSlots)
    (hbelow : e.AsksBelow varSlots offset next) (hfits : base + codeLength varSlots e ≤ u16Max)
    (hslots : next + slotCount varSlots e < vm.slots.length)
    (hmentions : ∀ i ∈ program.instructions, ∀ slot ∈ i.slots, slot < vm.slots.length)
    (hblock : BlockAt program.instructions base (exprBlock varSlots offset e base next))
    (hbudget : vm.instructionsExecuted + codeLength varSlots e ≤ vm.limits.maxInstructions)
    (hnone : slotValue varSlots offset vm e = none) :
    ∃ c, Reachable (vmMove program stream) ⟨vm, base⟩ c ∧ Overflows program c := by
  have hcomputes : Computes program stream base (base + codeLength varSlots e) next
      (resultSlot varSlots offset next e) vm (slotValue varSlots offset vm e) :=
    exprBlock_computes e he ⟨hbelow, hfits, Nat.le_of_lt hslots, .inr hslots, hbudget⟩ hblock
  rw [hnone] at hcomputes
  obtain ⟨vm', n, c, hsteps, hpanics⟩ := hcomputes
  refine ⟨c, ⟨n, hsteps⟩, ?_⟩
  -- A run that leaves the code has computed a value.
  have hin : AddressIn base (base + codeLength varSlots e) c := by
    by_contra hout
    obtain ⟨_, _, _, -, hpassed, -⟩ := exprBlock_passes e he hbelow hfits hslots hblock hsteps hout
    obtain ⟨v, hv, -⟩ := hpassed.value
    exact absurd (hnone.symm.trans hv) (by simp)
  have hexpr : ∀ instr, program.instructions[c.ip]? = some instr →
      ExprInstr (base + codeLength varSlots e) c.ip instr := fun instr hinstr =>
    (exprBlock_instrs varSlots offset e hfits).at_block hblock hin.1
      (by rw [exprBlock_length]; exact hin.2) hinstr
  have hlen : c.vm.slots.length = vm.slots.length := reachable_slots_length ⟨n, hsteps⟩
  cases hinstr : program.instructions[c.ip]? with
  | none =>
      obtain ⟨_, hend⟩ | ⟨_, hinstr', _⟩ | ⟨_, hinstr', _⟩ := vmMove_eq_error.mp hpanics
      · cases hend
      · cases hinstr.symm.trans hinstr'
      · cases hinstr.symm.trans hinstr'
  | some instr =>
      refine overflows_of_panics hinstr (hexpr instr hinstr) (fun slot hslot => ?_) hpanics
      rw [hlen]
      exact hmentions instr (List.mem_of_getElem? hinstr) slot hslot

end Block

/-! ### Runs of compiled protocols -/

/-- Where a jump goes. -/
def Instruction.target : Instruction → Option ℕ
  | .jump target | .jumpIfZero _ target => some target
  | _ => none

theorem vmJumps_targets : Structured.Targets vmJumps Instruction.target where
  plain := by
    rintro ⟨i, hplain⟩
    cases i with
    | jump target => exact absurd trivial hplain
    | jumpIfZero cond target => exact absurd trivial hplain
    | _ => rfl
  jump _ := rfl
  branch _ _ := rfl

section Runs

variable {proto : Protocol} {program : BytecodeProgram} {fieldMap : SlotMap} {stream : Bool}
  {run : ℕ → Config} {n : ℕ} {c d : Config}

/-- Control comes into a region that is entered at its start only at the start. -/
theorem RunStep.entered {start behind : ℕ} (h : RunStep program stream c d)
    (hentered : Structured.EnteredAtStart Instruction.target program.instructions 0
      program.instructions.length start behind) (hd : start < d.ip ∧ d.ip < behind) :
    start ≤ c.ip ∧ c.ip < behind := by
  obtain hmove | hresumes := h.move_or_resumes
  · obtain ⟨instr, hinstr, hnext⟩ := vmMove_control hmove
    have hwithin : 0 ≤ c.ip ∧ c.ip < program.instructions.length :=
      ⟨Nat.zero_le _, (List.getElem?_eq_some_iff.mp hinstr).1⟩
    obtain hip | rfl | ⟨cond, rfl⟩ := hnext
    · omega
    · exact hentered c.ip _ d.ip hwithin hinstr rfl hd
    · exact hentered c.ip _ d.ip hwithin hinstr rfl hd
  · rw [hresumes.state.1] at hd
    omega

theorem RunStep.slots_length (h : RunStep program stream c d) :
    d.vm.slots.length = c.vm.slots.length := by
  obtain hmove | hresumes := h.move_or_resumes
  · exact reachable_slots_length ⟨1, .one hmove⟩
  · rw [hresumes.state.2.1]

theorem IsRun.slots_length (hrun : IsRun program stream run n) {i : ℕ} (hi : i ≤ n) :
    (run i).vm.slots.length = (run 0).vm.slots.length := by
  induction i with
  | zero => rfl
  | succ i ih => exact (hrun i hi).slots_length.trans (ih (Nat.le_of_succ_le hi))

/-- A part of a run that never waits is a stretch of moves. -/
theorem IsRun.stretch (hrun : IsRun program stream run n) {P : Config → Prop} {m i : ℕ} (hm : m ≤ i)
    (hi : i ≤ n) (hin : ∀ l, m ≤ l → l < i → P (run l) ∧ ∃ instr,
      program.instructions[(run l).ip]? = some instr ∧ ¬ instr.ReadsInput) :
    StepsIn (NFdl.vmMove program stream) P (i - m) (run m) (run i) := by
  induction i, hm using Nat.le_induction with
  | base =>
      rw [Nat.sub_self]
      exact .stay _
  | succ i hm ih =>
      obtain ⟨hP, instr, hinstr, hreads⟩ := hin i hm (Nat.lt_succ_self i)
      have hmove := (hrun i hi).vmMove hinstr fun vm => execInstr_not_suspends hreads _ vm
      rw [Nat.succ_sub hm]
      exact (ih (Nat.le_of_succ_le hi) fun l hml hl => hin l hml (Nat.lt_succ_of_lt hl)).append
        (.one hP hmove)

/-- The run is at the start of the code that the program has for an expression of the
protocol. -/
structure ComesTo (proto : Protocol) (program : BytecodeProgram) (c : Config) (e : Expr)
    (cx : EmitContext) (s : EmitState) : Prop where
  emitted : ExprAt proto e cx s
  start : c.ip = s.instructions.length
  stands : Stands program s (s.exprCode cx e)
  slots : (s.emitExpr cx e).2.slot < program.slotCount

/-- If the run is at the start of an expression, the exact values of all parts that are
evaluated fit. The expression keeps its operands in slots of their own, or has total
operators only. -/
def ArithmeticFits (proto : Protocol) (program : BytecodeProgram) (c : Config) : Prop :=
  ∀ e cx s, ComesTo proto program c e cx s → e.IsTotal ∨
    e.OperandsKept s.varSlots ∧ e.AsksBelow s.varSlots cx.currentOffsetSlot s.slot ∧
      e.FitsSlots s.varSlots cx.currentOffsetSlot c.vm

/-- The code of an expression that is laid out in a short program stands there. -/
theorem exprPiece_stands {e : Expr} {cx : EmitContext} {s : EmitState}
    (hsize : s.instructions.length + (s.exprCode cx e).length ≤ u16Max)
    (h : (s.exprCode cx e).Laid vmJumps program.instructions s.instructions.length) :
    Stands program s (s.exprCode cx e) := by
  have hexact : (s.exprCode cx e).stored s.instructions.length =
      (s.exprCode cx e).assemble vmJumps id s.instructions.length := by
    refine (Structured.assemble_eq_iff _ _).mpr fun t ht => asU16_eq_iff.mpr ?_
    exact Nat.le_trans (Structured.targets_bounds ht).2 hsize
  unfold Stands
  rw [hexact]
  exact h.blockAt

theorem emitExpr_slot (s : EmitState) (cx : EmitContext) (e : Expr) :
    (s.emitExpr cx e).2.slot = s.slot + slotCount s.varSlots e := by
  unfold EmitState.emitExpr
  rw [emitExprToSlot_eq]

/-- A program has slots for all that the compiler has counted. -/
theorem compiled_slotCount (hcompile : protocolToBytecodeWithMap proto = some (program, fieldMap)) :
    (emitProtocol proto).slot < program.slotCount := by
  unfold protocolToBytecodeWithMap at hcompile
  dsimp only at hcompile
  split at hcompile
  · simp only [Option.some.injEq, Prod.mk.injEq] at hcompile
    obtain ⟨rfl, -⟩ := hcompile
    dsimp only
    omega
  · cases hcompile

theorem ComesTo.exprBlock {e : Expr} {cx : EmitContext} {s : EmitState}
    (h : ComesTo proto program c e cx s) : BlockAt program.instructions s.instructions.length
      (exprBlock s.varSlots cx.currentOffsetSlot e s.instructions.length s.slot) := by
  have hblock := h.stands
  unfold Stands EmitState.exprCode at hblock
  rw [exprCode_stored] at hblock
  exact hblock

/-- The code of an expression that is not empty ends in the program. -/
theorem ComesTo.end_le {e : Expr} {cx : EmitContext} {s : EmitState}
    (h : ComesTo proto program c e cx s) (hpos : 0 < codeLength s.varSlots e) :
    s.instructions.length + codeLength s.varSlots e ≤ program.instructions.length := by
  have hle := h.exprBlock.length_le
  rw [exprBlock_length, List.length_drop] at hle
  omega

/-- The code of an expression does not read. -/
theorem ComesTo.silent {e : Expr} {cx : EmitContext} {s : EmitState}
    (h : ComesTo proto program c e cx s) (hsize : program.instructions.length ≤ u16Max)
    (hd : AddressIn s.instructions.length (s.instructions.length + codeLength s.varSlots e) d) :
    ∃ instr, program.instructions[d.ip]? = some instr ∧ ¬ instr.ReadsInput := by
  obtain ⟨hlo, hhi⟩ := hd
  have hend := h.end_le (by omega)
  have hinstr := List.getElem?_eq_getElem (show d.ip < program.instructions.length by omega)
  refine ⟨_, hinstr, fun hreads => ?_⟩
  have hexpr := (exprBlock_instrs s.varSlots cx.currentOffsetSlot e (by omega)).at_block h.exprBlock
    hlo (by rw [exprBlock_length]; exact hhi) hinstr
  cases heq : program.instructions[d.ip] <;> rw [heq] at hreads hexpr <;> first
    | exact hreads
    | exact hexpr

/-- An operator of an expression that the run has come to does not overflow if the expression
fits. -/
theorem expr_not_overflows {e : Expr} {cx : EmitContext} {s : EmitState} {m : ℕ}
    (hcomes : ComesTo proto program c e cx s) (hcount : program.slotCount ≤ c.vm.slots.length)
    (hsize : program.instructions.length ≤ u16Max)
    (hin : StepsIn (NFdl.vmMove program stream)
      (AddressIn s.instructions.length (s.instructions.length + codeLength s.varSlots e)) m c d)
    (hd : AddressIn s.instructions.length (s.instructions.length + codeLength s.varSlots e) d)
    (hfits : e.IsTotal ∨ e.OperandsKept s.varSlots ∧
      e.AsksBelow s.varSlots cx.currentOffsetSlot s.slot ∧
        e.FitsSlots s.varSlots cx.currentOffsetSlot c.vm) : ¬ Overflows program d := by
  intro hoverflows
  obtain htotal | ⟨hkept, hbelow, hword⟩ := hfits
  · obtain ⟨op, left, right, dst, l, r, ⟨hinstr, -⟩, -, -, hnone⟩ := hoverflows
    have hall : AtEach (fun _ i => i.IsTotal) s.instructions.length
        ((exprCode s.varSlots cx.currentOffsetSlot e s.slot).stored s.instructions.length) := by
      intro k i hk
      obtain ⟨p, hp, rfl⟩ | ⟨t, rfl⟩ | ⟨cond, t, rfl⟩ := Structured.All.of_mem
        (exprCode_total s.varSlots cx.currentOffsetSlot htotal s.slot) (List.mem_of_getElem? hk)
      · exact hp
      · trivial
      · trivial
    have hop : op.IsTotal := hall.at_block hcomes.stands hd.1
      (by rw [Code.stored_length, exprCode_length]; exact hd.2) hinstr
    exact hop.apply_ne_none l r hnone
  · have hstart : c = ⟨c.vm, s.instructions.length⟩ := by rw [← hcomes.start]
    have hslot := Nat.lt_of_lt_of_le hcomes.slots hcount
    rw [emitExpr_slot] at hslot
    rw [hstart] at hin
    refine absurd ?_ (slotValue_ne_none_iff.mpr hword)
    refine slotValue_eq_none_of_overflows hkept hbelow ?_ hslot hcomes.exprBlock hin hd hoverflows
    obtain ⟨hlo, hhi⟩ := hd
    exact Nat.le_trans (hcomes.end_le (by omega)) hsize

/-- Every operator that can overflow is in the code of an expression that the run has come to. -/
theorem overflow_in_expr (hcompile : protocolToBytecodeWithMap proto = some (program, fieldMap))
    (hsize : program.instructions.length ≤ u16Max) (hrun : IsRun program stream run n)
    (hstart : (run 0).ip = 0) {i : ℕ} (hi : i ≤ n) (h : Overflows program (run i)) :
    ∃ m e cx s, m ≤ i ∧ ComesTo proto program (run m) e cx s ∧
      ∀ l, m ≤ l → l ≤ i → AddressIn s.instructions.length
        (s.instructions.length + codeLength s.varSlots e) (run l) := by
  obtain ⟨op, left, right, dst, l, r, ⟨hinstr, -⟩, -, -, hnone⟩ := h
  have hcode := compiled_instructions hcompile
  have hlen : program.instructions.length = (protocolCode proto).length := by
    rw [hcode, Code.stored_length]
  have hexact : ∀ target ∈ (protocolCode proto).targets 0, target ≤ u16Max := fun target ht => by
    have hbounds := Structured.targets_bounds ht
    omega
  have hlaid : (protocolCode proto).Laid vmJumps program.instructions 0 := by
    refine Structured.laid_of_assemble fun k j hk => ?_
    rw [Nat.zero_add, ((compiled_wellFormed_iff hcompile).mpr hexact).targets]
    exact hk
  have hwithin := (List.getElem?_eq_some_iff.mp hinstr).1
  obtain hjump | ⟨p, hp, heq⟩ | ⟨a, start, ha, halaid, hinside, hin, hentered⟩ :=
    (protocolCode_made proto).accounted vmJumps_targets hlaid ⟨Nat.zero_le _, by omega⟩ hinstr
  · exact absurd rfl hjump
  · have hop : op.IsTotal := by
      have htotal : p.1.IsTotal := hp
      rw [show p.1 = .binOp op left right dst from heq.symm] at htotal
      exact htotal
    exact absurd hnone (hop.apply_ne_none l r)
  · rw [Nat.zero_add, ← hlen] at hentered hinside
    cases ha with
    | @mk e cx s hemitted hslot =>
        obtain ⟨m, hm, hcomes, hstays⟩ := @Structured.run_entered _ Config.ip run n _ _
          (.inl (by rw [hstart]; exact Nat.zero_le _))
          (fun l hl hin => (hrun l hl).entered hentered hin) i hi hin
        refine ⟨m, e, cx, s, hm, ⟨hemitted, hcomes, exprPiece_stands (by omega) halaid, ?_⟩, ?_⟩
        · exact Nat.lt_of_le_of_lt hslot (compiled_slotCount hcompile)
        · intro l hml hl
          have hin := hstays l hml hl
          rw [← exprCode_length s.varSlots cx.currentOffsetSlot e s.slot]
          exact hin

/-- The run does not fit at an expression that keeps its operands: an operator overflows, if
the budget is large enough. -/
theorem expr_overflows (hcompile : protocolToBytecodeWithMap proto = some (program, fieldMap))
    (hsize : program.instructions.length ≤ u16Max) {e : Expr} {cx : EmitContext} {s : EmitState}
    (hcomes : ComesTo proto program c e cx s) (hcount : program.slotCount ≤ c.vm.slots.length)
    (hkept : e.OperandsKept s.varSlots)
    (hbelow : e.AsksBelow s.varSlots cx.currentOffsetSlot s.slot)
    (hbudget : c.vm.instructionsExecuted + codeLength s.varSlots e ≤ c.vm.limits.maxInstructions)
    (hword : ¬ e.FitsSlots s.varSlots cx.currentOffsetSlot c.vm) :
    ∃ d, Reachable (NFdl.vmMove program stream) c d ∧ Overflows program d := by
  have hnone : slotValue s.varSlots cx.currentOffsetSlot c.vm e = none :=
    not_not.mp (mt slotValue_ne_none_iff.mp hword)
  have hslot := Nat.lt_of_lt_of_le hcomes.slots hcount
  rw [emitExpr_slot] at hslot
  have hpos : 0 < codeLength s.varSlots e := by
    refine Nat.pos_of_ne_zero fun hzero => ?_
    have hlen : s.slot ≤ c.vm.slots.length := by omega
    cases hnone.symm.trans (reference_value hzero hbelow hlen).1
  have hstart : c = ⟨c.vm, s.instructions.length⟩ := by rw [← hcomes.start]
  rw [hstart]
  refine overflows_of_slotValue_eq_none hkept hbelow
    (Nat.le_trans (hcomes.end_le hpos) hsize) hslot (fun i hi slot hmem => ?_) hcomes.exprBlock
    hbudget hnone
  exact Nat.lt_of_lt_of_le (compiled_slots_lt hcompile hi hmem) hcount

end Runs

/-- For every protocol that compiles to at most 65535 instructions, and every run of it over a
datagram or over the chunks of a stream: if the exact values fit at every expression that the
run comes to, no operator leaves its machine type. Where they do not fit, at an expression that
keeps its operands, one does, unless the instruction budget ends before. And an expression is
evaluated without such an operator, in any context, exactly if the exact values of its parts
fit. -/
theorem compiled_arithmetic_total {proto : Protocol} {program : BytecodeProgram}
    {fieldMap : SlotMap} (hcompile : protocolToBytecodeWithMap proto = some (program, fieldMap))
    (hsize : program.instructions.length ≤ u16Max) {limits : Limits} {data : List UInt8}
    {stream : Bool} {run : ℕ → Config} {n : ℕ} (hrun : IsRun program stream run n)
    (hstart : run 0 = datagramStart program limits data) :
    ((∀ i ≤ n, ArithmeticFits proto program (run i)) → ∀ i ≤ n, ¬ Overflows program (run i)) ∧
    (∀ i ≤ n, ∀ e cx s, ComesTo proto program (run i) e cx s → e.OperandsKept s.varSlots →
      e.AsksBelow s.varSlots cx.currentOffsetSlot s.slot →
      (run i).vm.instructionsExecuted + codeLength s.varSlots e ≤
        (run i).vm.limits.maxInstructions →
      ¬ e.FitsSlots s.varSlots cx.currentOffsetSlot (run i).vm →
      ∃ c, Reachable (vmMove program stream) (run i) c ∧ Overflows program c) ∧
    ∀ vars e, evalExpr vars e ≠ none ↔ FitsWord vars e := by
  have hcount : ∀ i ≤ n, program.slotCount ≤ (run i).vm.slots.length := by
    intro i hi
    rw [hrun.slots_length hi, hstart]
    exact Nat.le_trans (Nat.le_max_left ..) (Nat.le_of_eq List.length_replicate.symm)
  refine ⟨fun hfits i hi hoverflows => ?_, fun i hi e cx s hcomes hkept hbelow hbudget hword => ?_,
    fun _ _ => evalExpr_ne_none_iff⟩
  · obtain ⟨m, e, cx, s, hm, hcomes, hstays⟩ := overflow_in_expr hcompile hsize hrun
      (by rw [hstart]; rfl) hi hoverflows
    have hmn := Nat.le_trans hm hi
    have hin := hrun.stretch hm hi fun l hml hl =>
      ⟨hstays l hml (Nat.le_of_lt hl), hcomes.silent hsize (hstays l hml (Nat.le_of_lt hl))⟩
    exact expr_not_overflows hcomes (hcount m hmn) hsize hin (hstays i hm (Nat.le_refl i))
      (hfits m hmn e cx s hcomes) hoverflows
  · exact expr_overflows hcompile hsize hcomes (hcount i hi) hkept hbelow hbudget hword

section Shift

variable {remaining : ℕ} {namePrefix : String} {body : MatchArm} {s t : EmitState}

def shiftedField : Field := ⟨"n", .u8, none, none, 0⟩

def shiftLet : Let := ⟨"x", .binary .shl (.int 1) (.ident "n"), 1⟩

/-- Where the shift is emitted. -/
def shiftPlace : EmitState :=
  emitFieldBytecode (shiftByField.context (maxRefDepth + 1)) shiftedField "" messageStart

/-- The items of a body with the field and the shift. -/
theorem shift_item {cx : EmitContext} {item : BodyItem}
    (hbody : body.items = [.field shiftedField, .letItem shiftLet])
    (h : ItemAt cx namePrefix body s item t) :
    item = .field shiftedField ∧ t = s ∨
      item = .letItem shiftLet ∧ t = emitFieldBytecode cx shiftedField namePrefix s := by
  obtain ⟨before, after, hitems, rfl⟩ := h
  rw [hbody] at hitems
  rcases before with _ | ⟨first, _ | ⟨second, before⟩⟩
  · cases hitems
    exact .inl ⟨rfl, rfl⟩
  · cases hitems
    exact .inr ⟨rfl, rfl⟩
  · have hlen := congrArg List.length hitems
    simp at hlen

/-- The only body is that of the root message. -/
theorem shift_body (h : BodyAt shiftByField remaining namePrefix body s) :
    remaining = maxRefDepth + 1 ∧ namePrefix = "" ∧ s = messageStart ∧
      body.items = [.field shiftedField, .letItem shiftLet] := by
  induction h with
  | root hroot =>
      cases hroot
      exact ⟨rfl, rfl, rfl, rfl⟩
  | arm _ hitem _ ih =>
      obtain ⟨h, -⟩ | ⟨h, -⟩ := shift_item ih.2.2.2 hitem
      · cases h
      · cases h
  | inlined _ hfield hty _ ih =>
      cases hfield with
      | direct hitem =>
          obtain ⟨h, -⟩ | ⟨h, -⟩ := shift_item ih.2.2.2 hitem
          · cases h
            cases hty
          · cases h
      | looped hitem _ =>
          obtain ⟨h, -⟩ | ⟨h, -⟩ := shift_item ih.2.2.2 hitem
          · cases h
          · cases h

theorem shift_field {fieldPrefix : String} {field : Field} {cx : EmitContext}
    (hbody : body.items = [.field shiftedField, .letItem shiftLet])
    (h : FieldAt cx namePrefix body s fieldPrefix field t) : field = shiftedField := by
  cases h with
  | direct hitem =>
      obtain ⟨h, -⟩ | ⟨h, -⟩ := shift_item hbody hitem
      · cases h
        rfl
      · cases h
  | looped hitem _ =>
      obtain ⟨h, -⟩ | ⟨h, -⟩ := shift_item hbody hitem
      · cases h
      · cases h

/-- The shift is the only expression of its protocol. -/
theorem shift_site {e : Expr} {cx : EmitContext} (h : ExprAt shiftByField e cx s) :
    e = shiftLet.value ∧ cx = shiftByField.context (maxRefDepth + 1) ∧ s = shiftPlace := by
  have hno : ∀ {remaining namePrefix body s item t},
      BodyAt shiftByField remaining namePrefix body s →
      ItemAt (shiftByField.context remaining) namePrefix body s item t →
      item = .field shiftedField ∨ item = .letItem shiftLet := fun hbody hitem =>
    (shift_item (shift_body hbody).2.2.2 hitem).imp And.left And.left
  cases h with
  | condition hbody hfield hcond =>
      rw [shift_field (shift_body hbody).2.2.2 hfield] at hcond
      cases hcond
  | len hbody hfield hty =>
      rw [shift_field (shift_body hbody).2.2.2 hfield] at hty
      cases hty
  | check hbody hfield hvalidate =>
      rw [shift_field (shift_body hbody).2.2.2 hfield] at hvalidate
      cases hvalidate
  | letItem hbody hitem =>
      obtain ⟨rfl, rfl, rfl, hitems⟩ := shift_body hbody
      obtain ⟨h, -⟩ | ⟨h, rfl⟩ := shift_item hitems hitem
      · cases h
      · cases h
        exact ⟨rfl, rfl, rfl⟩
  | validate hbody hitem => obtain h | h := hno hbody hitem <;> cases h
  | init hbody hitem _ => obtain h | h := hno hbody hitem <;> cases h
  | loop hbody hitem => obtain h | h := hno hbody hitem <;> cases h
  | nextValue hbody hitem _ => obtain h | h := hno hbody hitem <;> cases h
  | tag hbody hitem => obtain h | h := hno hbody hitem <;> cases h

/-- With the byte 3 the run over the message shifts by 3, and so no operator overflows. -/
theorem compiled_arithmetic_total_shift :
    IsRun shiftProgram false (tracedRun shiftProgram [3]) 7 ∧
      ∀ i ≤ 7, ¬ Overflows shiftProgram (tracedRun shiftProgram [3] i) := by
  have hrun : IsRun shiftProgram false (tracedRun shiftProgram [3]) 7 :=
    tracedRun_isRun (by decide)
  have hslot : shiftPlace.varSlots.lookup "n" = some 1 := by decide +kernel
  have hvalue : ∀ i ≤ 7, (tracedRun shiftProgram [3] i).ip = shiftPlace.instructions.length →
      (tracedRun shiftProgram [3] i).vm.slots[1]? = some 3 := by decide +kernel
  refine ⟨hrun, (@compiled_arithmetic_total shiftByField shiftProgram _ rfl (by decide) .default [3]
    false _ _ hrun rfl).1 fun i hi e cx s hcomes => ?_⟩
  obtain ⟨rfl, rfl, rfl⟩ := shift_site hcomes.emitted
  refine .inr ⟨⟨trivial, trivial, .inl trivial⟩, ⟨trivial, fun s hs => ?_⟩, trivial, trivial, ?_⟩
  · cases hslot.symm.trans hs
    decide +kernel
  · have hn : slotEnv shiftPlace.varSlots (tracedRun shiftProgram [3] i).vm "n" = some 3 := by
      unfold slotEnv
      rw [hslot]
      exact hvalue i hi hcomes.start
    show (((slotEnv shiftPlace.varSlots (tracedRun shiftProgram [3] i).vm).value
      "n").toInt64.toUInt64).toNat % 2 ^ 32 < 64
    unfold Env.value
    rw [hn]
    decide

end Shift

end NFdl
