import NFdl.Runtime.EmitCode
import NFdl.Runtime.EmitExprCorrect
import NFdl.Bytecode.Control
import NFdl.Lib.Stretch

/-!
# Runs through compiled expressions

A run that enters the code of an expression and leaves it again has computed the
value, whatever its instruction budget was. The run is followed in the program
cut off behind the code, with a budget that is large enough for the total
correctness of compiled expressions.
-/

namespace NFdl

open BytecodeVm Machine

/-- The machine with another instruction budget. -/
def BytecodeVm.withBudget (vm : BytecodeVm) (budget : Nat) : BytecodeVm :=
  { vm with limits := { vm.limits with maxInstructions := budget } }

/-- The program cut off before address `stop`. -/
def BytecodeProgram.upTo (program : BytecodeProgram) (stop : Nat) : BytecodeProgram :=
  { program with instructions := program.instructions.take stop }

theorem upTo_getElem? (program : BytecodeProgram) {stop i : Nat} (h : i < stop) :
    (program.upTo stop).instructions[i]? = program.instructions[i]? :=
  List.getElem?_take_of_lt h

theorem upTo_getElem?_stop (program : BytecodeProgram) (stop : Nat) :
    (program.upTo stop).instructions[stop]? = none := by
  simp [BytecodeProgram.upTo]

theorem blockAt_upTo {program : BytecodeProgram} {base : Nat} {block : List Instruction}
    (h : BlockAt program.instructions base block) :
    BlockAt (program.upTo (base + block.length)).instructions base block := by
  unfold BlockAt BytecodeProgram.upTo at *
  rw [List.drop_take, Nat.add_sub_cancel_left, List.prefix_take_iff]
  exact ⟨h, Nat.le_refl _⟩

section Lift

variable {stream : Bool} {budget : Nat}

theorem writeSlot_withBudget (vm : BytecodeVm) (slot : Nat) (v : UInt64) :
    (vm.withBudget budget).writeSlot slot v = (vm.writeSlot slot v).withBudget budget := by
  unfold writeSlot withBudget
  split <;> rfl

theorem withSlot_withBudget {vm : BytecodeVm} {slot : Nat} {f g : UInt64 → BytecodeVm × Flow}
    (h : ∀ v, g v = ((f v).1.withBudget budget, (f v).2)) :
    withSlot (vm.withBudget budget) slot g =
      ((withSlot vm slot f).1.withBudget budget, (withSlot vm slot f).2) := by
  have hslots : (vm.withBudget budget).slots = vm.slots := rfl
  unfold withSlot
  rw [hslots]
  split
  · rfl
  · exact h _

/-- The instructions of expressions do not look at the budget. -/
theorem execInstr_withBudget {hi ip : Nat} {instr : Instruction} (h : ExprInstr hi ip instr)
    (vm : BytecodeVm) :
    execInstr stream instr ip (vm.withBudget budget) =
      ((execInstr stream instr ip vm).1.withBudget budget, (execInstr stream instr ip vm).2) := by
  cases instr with
  | loadConst value dst => simp only [execInstr, storeNext, writeSlot_withBudget]
  | binOp op left right dst =>
      refine withSlot_withBudget fun l => withSlot_withBudget fun r => ?_
      split <;> simp only [storeNext, writeSlot_withBudget]
  | unaryOp op src dst =>
      exact withSlot_withBudget fun v => by simp only [storeNext, writeSlot_withBudget]
  | copySlot src dst =>
      exact withSlot_withBudget fun v => by simp only [storeNext, writeSlot_withBudget]
  | jump target => rfl
  | jumpIfZero condSlot target =>
      refine withSlot_withBudget fun v => ?_
      unfold execJumpIfZero
      rw [if_neg (Nat.not_lt.mpr (Nat.le_of_lt h.1)), if_neg (Nat.not_lt.mpr (Nat.le_of_lt h.1))]
      split <;> rfl
  | _ => exact absurd h id

/-- A move of the run is a move with a larger budget. -/
theorem vmMove_withBudget {program program' : BytecodeProgram} {hi : Nat} {c c' : Config}
    (hsame : program'.instructions[c.ip]? = program.instructions[c.ip]?)
    (hexpr : ∀ instr, program.instructions[c.ip]? = some instr → ExprInstr hi c.ip instr)
    (hbudget : c.vm.limits.maxInstructions ≤ budget) (h : vmMove program stream c = .ok c') :
    vmMove program' stream ⟨c.vm.withBudget budget, c.ip⟩ =
      .ok ⟨c'.vm.withBudget budget, c'.ip⟩ := by
  obtain ⟨instr, hinstr, hwithin, hexec⟩ := vmMove_eq_ok.mp h
  refine vmMove_eq_ok.mpr ⟨instr, hsame.trans hinstr, ?_, ?_⟩
  · unfold outOfBudget withBudget at *
    dsimp only
    omega
  · have hlift : execInstr stream instr c.ip (c.vm.tick.withBudget budget) = _ :=
      execInstr_withBudget (hexpr instr hinstr) c.vm.tick
    rw [hexec] at hlift
    exact hlift

end Lift

section Pass

variable {program : BytecodeProgram} {stream : Bool} {varSlots : SlotMap} {offset : Nat}

/-- The addresses from `lo` to below `hi`. -/
def AddressIn (lo hi : Nat) (c : Config) : Prop := lo ≤ c.ip ∧ c.ip < hi

/-- Forward code is left at its end. -/
theorem leaves_at_end {lo hi n : Nat} {c d : Config}
    (hcode : ∀ i instr, lo ≤ i → i < hi → program.instructions[i]? = some instr →
      ExprInstr hi i instr) (hlo : lo ≤ c.ip) (hhi : c.ip ≤ hi)
    (h : Steps (vmMove program stream) n c d) (hd : ¬ AddressIn lo hi d) :
    ∃ m k c', n = m + k ∧ StepsIn (vmMove program stream) (AddressIn lo hi) m c c' ∧
      c'.ip = hi ∧ Steps (vmMove program stream) k c' d := by
  obtain ⟨m, k, c', rfl, hin, hout, hrest⟩ := (StepsIn.of_steps h).first_outside (AddressIn lo hi) hd
  have hin' := hin.mono (Q := AddressIn lo hi) fun _ hc => hc.2
  have hrange : lo ≤ c'.ip ∧ c'.ip ≤ hi := by
    refine hin'.invariant (R := fun c => lo ≤ c.ip ∧ c.ip ≤ hi) ?_ ⟨hlo, hhi⟩
    intro a b ha _ hmove
    have hage : lo ≤ a.ip := ha.1
    have hlt : a.ip < hi := ha.2
    obtain ⟨instr, hinstr, hip | rfl | ⟨condSlot, rfl⟩⟩ := vmMove_control hmove
    · exact ⟨by omega, by omega⟩
    · have htarget := hcode _ _ hage hlt hinstr
      exact ⟨Nat.le_trans hage (Nat.le_of_lt htarget.1), htarget.2⟩
    · have htarget := hcode _ _ hage hlt hinstr
      exact ⟨Nat.le_trans hage (Nat.le_of_lt htarget.1), htarget.2⟩
  refine ⟨m, k, c', rfl, hin', ?_, hrest.steps⟩
  by_contra hne
  exact hout ⟨hrange.1, by omega⟩

/-- A stretch inside expression code is a run of the cut program with any larger
budget. -/
theorem steps_withBudget {lo hi m budget : Nat} {c c' : Config}
    (hcode : ∀ i instr, lo ≤ i → i < hi → program.instructions[i]? = some instr →
      ExprInstr hi i instr)
    (h : StepsIn (vmMove program stream) (AddressIn lo hi) m c c')
    (hbudget : c.vm.limits.maxInstructions ≤ budget) :
    Steps (vmMove (program.upTo hi) stream) m ⟨c.vm.withBudget budget, c.ip⟩
      ⟨c'.vm.withBudget budget, c'.ip⟩ := by
  induction h with
  | stay => exact .stay _
  | @go m a b c' ha hmove _ ih =>
      have hmove' := vmMove_withBudget (upTo_getElem? program ha.2) (hcode a.ip · ha.1 ha.2) hbudget
        hmove
      have hlimits : b.vm.limits = a.vm.limits := (vmMove_frame hmove).limits
      exact .go hmove' (ih (by rw [hlimits]; exact hbudget))

/-- The run ends behind the code of the cut program. -/
theorem upTo_stops (vm : BytecodeVm) (stop : Nat) :
    vmMove (program.upTo stop) stream ⟨vm, stop⟩ = .error (vm, .returned (.ok .complete)) :=
  vmMove_eq_error.mpr (.inl ⟨upTo_getElem?_stop .., rfl⟩)

/-- A stretch from the start of the code of an expression is a run of the cut program with a
budget for all of the code, which computes the value. -/
theorem exprBlock_stretch (e : Expr) {base next m : Nat} {vm : BytecodeVm} {c : Config}
    (he : e.OperandsKept varSlots) (hbelow : e.AsksBelow varSlots offset next)
    (hfits : base + codeLength varSlots e ≤ u16Max)
    (hslots : next + slotCount varSlots e < vm.slots.length)
    (hblock : BlockAt program.instructions base (exprBlock varSlots offset e base next))
    (hin : StepsIn (vmMove program stream) (AddressIn base (base + codeLength varSlots e)) m
      ⟨vm, base⟩ c) :
    ∃ budget, c.vm.limits.maxInstructions ≤ budget ∧
      Steps (vmMove (program.upTo (base + codeLength varSlots e)) stream) m
        ⟨vm.withBudget budget, base⟩ ⟨c.vm.withBudget budget, c.ip⟩ ∧
      Computes (program.upTo (base + codeLength varSlots e)) stream base
        (base + codeLength varSlots e) next (resultSlot varSlots offset next e)
        (vm.withBudget budget) (slotValue varSlots offset vm e) := by
  have hcode : ∀ i instr, base ≤ i → i < base + codeLength varSlots e →
      program.instructions[i]? = some instr → ExprInstr (base + codeLength varSlots e) i instr :=
    fun i instr hlo hhi hinstr => (exprBlock_instrs varSlots offset e hfits).at_block hblock hlo
      (by rw [exprBlock_length]; exact hhi) hinstr
  have hlimits : c.vm.limits = vm.limits := reachable_limits ⟨m, hin.steps⟩
  refine ⟨max vm.limits.maxInstructions (vm.instructionsExecuted + codeLength varSlots e),
    by rw [hlimits]; exact Nat.le_max_left .., steps_withBudget hcode hin (Nat.le_max_left ..), ?_⟩
  have hblock' := blockAt_upTo hblock
  rw [exprBlock_length] at hblock'
  exact exprBlock_computes e he
    ⟨hbelow, hfits, Nat.le_of_lt hslots, .inr hslots, Nat.le_max_right ..⟩ hblock'

/-- What a run that passes through the code of an expression has done there. -/
structure Passed (program : BytecodeProgram) (stream : Bool) (varSlots : SlotMap) (offset : Nat)
    (e : Expr) (base next m : Nat) (vm vm' : BytecodeVm) : Prop where
  steps : StepsIn (vmMove program stream) (AddressIn base (base + codeLength varSlots e)) m
    ⟨vm, base⟩ ⟨vm', base + codeLength varSlots e⟩
  quiet : Quiet next m vm vm'
  value : ∃ v, slotValue varSlots offset vm e = some v ∧
    vm'.slots[resultSlot varSlots offset next e]? = some v

/-- Partial correctness of compiled expressions: a run that leaves the code has
computed the value into the result slot, and changed no slot below `next`. -/
theorem exprBlock_passes (e : Expr) {base next n : Nat} {vm : BytecodeVm} {d : Config}
    (he : e.OperandsKept varSlots) (hbelow : e.AsksBelow varSlots offset next)
    (hfits : base + codeLength varSlots e ≤ u16Max)
    (hslots : next + slotCount varSlots e < vm.slots.length)
    (hblock : BlockAt program.instructions base (exprBlock varSlots offset e base next))
    (hn : Steps (vmMove program stream) n ⟨vm, base⟩ d)
    (hd : ¬ AddressIn base (base + codeLength varSlots e) d) :
    ∃ m k vm', n = m + k ∧ Passed program stream varSlots offset e base next m vm vm' ∧
      Steps (vmMove program stream) k ⟨vm', base + codeLength varSlots e⟩ d := by
  have hcode : ∀ i instr, base ≤ i → i < base + codeLength varSlots e →
      program.instructions[i]? = some instr → ExprInstr (base + codeLength varSlots e) i instr :=
    fun i instr hlo hhi hinstr => (exprBlock_instrs varSlots offset e hfits).at_block hblock hlo
      (by rw [exprBlock_length]; exact hhi) hinstr
  obtain ⟨m, k, ⟨vm', ip⟩, rfl, hin, rfl, hrest⟩ :=
    leaves_at_end hcode (Nat.le_refl base) (Nat.le_add_right ..) hn hd
  refine ⟨m, k, vm', rfl, ?_, hrest⟩
  have hlimits : vm'.limits = vm.limits := reachable_limits ⟨m, hin.steps⟩
  obtain ⟨budget, -, hlift, hcomputes⟩ := exprBlock_stretch e he hbelow hfits hslots hblock hin
  cases hvalue : slotValue varSlots offset vm e with
  | none =>
      rw [hvalue] at hcomputes
      obtain ⟨vm'', hpanics⟩ := hcomputes
      have hends := hpanics.unique ⟨m, _, hlift, upTo_stops ..⟩
      simp at hends
  | some v =>
      rw [hvalue] at hcomputes
      obtain ⟨m', vm'', -, hsteps, hquiet, hresult⟩ := hcomputes
      obtain rfl : m = m' := Nat.le_antisymm (hsteps.le_of_end (upTo_stops ..) hlift)
        (hlift.le_of_end (upTo_stops ..) hsteps)
      obtain ⟨rfl, -⟩ := Config.mk.inj (hsteps.unique hlift)
      exact ⟨hin, { hquiet with limits := hlimits }, v, hvalue, hresult⟩

end Pass

end NFdl
