import NFdl.Runtime.EmitExpr
import NFdl.Bytecode.Run

/-!
# Correctness of compiled expressions

A compiled expression computes the value of direct evaluation into its result
slot and changes no slot below the ones it allocates. Ternaries and coalesces do
not reserve their destination, so this needs a branch that allocates a slot;
`emitted_calls_correct_iff` states that the condition is also necessary.
-/

namespace NFdl

open BytecodeVm Machine

/-- Every ternary has a branch, and every coalesce a default, that allocates a
slot. Only then does the destination lie below the next free slot. -/
def Expr.BranchesReserve (varSlots : SlotMap) : Expr → Prop
  | .binary _ left right => left.BranchesReserve varSlots ∧ right.BranchesReserve varSlots
  | .unary _ expr => expr.BranchesReserve varSlots
  | .ternary cond thenBranch elseBranch =>
      cond.BranchesReserve varSlots ∧ thenBranch.BranchesReserve varSlots ∧
        elseBranch.BranchesReserve varSlots ∧
        0 < slotCount varSlots thenBranch + slotCount varSlots elseBranch
  | .coalesce value default =>
      value.BranchesReserve varSlots ∧ default.BranchesReserve varSlots ∧
        0 < slotCount varSlots default
  | _ => True

/-- The destination of the expression lies below the next free slot. -/
def Expr.Reserves (varSlots : SlotMap) : Expr → Prop
  | .ternary _ thenBranch elseBranch =>
      0 < slotCount varSlots thenBranch + slotCount varSlots elseBranch
  | .coalesce _ default => 0 < slotCount varSlots default
  | _ => True

/-- No left operand is overwritten while the right one is computed: it is
reserved, or the right one is a reference that needs no code. -/
def Expr.OperandsKept (varSlots : SlotMap) : Expr → Prop
  | .binary _ left right => left.OperandsKept varSlots ∧ right.OperandsKept varSlots ∧
      (left.Reserves varSlots ∨ codeLength varSlots right = 0)
  | .unary _ expr => expr.OperandsKept varSlots
  | .ternary cond thenBranch elseBranch =>
      cond.OperandsKept varSlots ∧ thenBranch.OperandsKept varSlots ∧
        elseBranch.OperandsKept varSlots
  | .coalesce value default => value.OperandsKept varSlots ∧ default.OperandsKept varSlots
  | _ => True

theorem Expr.BranchesReserve.reserves {varSlots : SlotMap} {e : Expr}
    (h : e.BranchesReserve varSlots) : e.Reserves varSlots := by
  cases e with
  | ternary cond thenBranch elseBranch => exact h.2.2.2
  | coalesce value default => exact h.2.2
  | _ => trivial

theorem Expr.BranchesReserve.operandsKept {varSlots : SlotMap} {e : Expr}
    (h : e.BranchesReserve varSlots) : e.OperandsKept varSlots := by
  induction e with
  | binary op left right ihl ihr => exact ⟨ihl h.1, ihr h.2, .inl h.1.reserves⟩
  | unary op expr ih => exact ih h
  | ternary cond thenBranch elseBranch ihc iht ihe => exact ⟨ihc h.1, iht h.2.1, ihe h.2.2.1⟩
  | coalesce value default ihv ihd => exact ⟨ihv h.1, ihd h.2.1⟩
  | _ => trivial

/-- All slots the compiler knows of lie below the next free one. -/
structure SlotsBelow (varSlots : SlotMap) (offset next : Nat) : Prop where
  offset : offset < next
  vars : ∀ name s, varSlots.lookup name = some s → s < next

theorem SlotsBelow.mono {varSlots : SlotMap} {offset next next' : Nat}
    (h : SlotsBelow varSlots offset next) (hle : next ≤ next') :
    SlotsBelow varSlots offset next' :=
  ⟨Nat.lt_of_lt_of_le h.offset hle, fun name s hs => Nat.lt_of_lt_of_le (h.vars name s hs) hle⟩

theorem SlotsBelow.fieldSlot_lt {varSlots : SlotMap} {offset next s : Nat} {base : Expr}
    {field : String} (h : SlotsBelow varSlots offset next)
    (hs : fieldSlot varSlots base field = some s) : s < next := by
  unfold fieldSlot at hs
  split at hs
  · simp only [Option.or_eq_some_iff] at hs
    obtain (hs | ⟨-, hs⟩) | ⟨-, hs⟩ := hs <;> exact h.vars _ _ hs
  · cases hs

/-- The slots of the names that occur in the expression lie below the next free one. -/
def Expr.AsksBelow (varSlots : SlotMap) (offset next : Nat) : Expr → Prop
  | .ident name =>
      if name = "__current_offset" then offset < next
      else ∀ s, varSlots.lookup name = some s → s < next
  | .field base name => ∀ s, fieldSlot varSlots base name = some s → s < next
  | .binary _ left right =>
      left.AsksBelow varSlots offset next ∧ right.AsksBelow varSlots offset next
  | .unary _ expr => expr.AsksBelow varSlots offset next
  | .ternary cond thenBranch elseBranch =>
      cond.AsksBelow varSlots offset next ∧ thenBranch.AsksBelow varSlots offset next ∧
        elseBranch.AsksBelow varSlots offset next
  | .coalesce value default =>
      value.AsksBelow varSlots offset next ∧ default.AsksBelow varSlots offset next
  | _ => True

theorem SlotsBelow.asks {varSlots : SlotMap} {offset next : Nat}
    (h : SlotsBelow varSlots offset next) (e : Expr) : e.AsksBelow varSlots offset next := by
  induction e with
  | ident name =>
      unfold Expr.AsksBelow
      split
      · exact h.offset
      · exact h.vars name
  | field base field _ => exact fun s hs => h.fieldSlot_lt hs
  | binary op left right ihl ihr => exact ⟨ihl, ihr⟩
  | unary op expr ih => exact ih
  | ternary cond thenBranch elseBranch ihc iht ihe => exact ⟨ihc, iht, ihe⟩
  | coalesce value default ihv ihd => exact ⟨ihv, ihd⟩
  | _ => trivial

namespace Expr.AsksBelow

variable {varSlots : SlotMap} {offset next next' : Nat} {e : Expr}

theorem mono (h : e.AsksBelow varSlots offset next) (hle : next ≤ next') :
    e.AsksBelow varSlots offset next' := by
  induction e with
  | ident name =>
      unfold Expr.AsksBelow at h ⊢
      by_cases hname : name = "__current_offset"
      · rw [if_pos hname] at h ⊢
        exact Nat.lt_of_lt_of_le h hle
      · rw [if_neg hname] at h ⊢
        exact fun s hs => Nat.lt_of_lt_of_le (h s hs) hle
  | field base field _ => exact fun s hs => Nat.lt_of_lt_of_le (h s hs) hle
  | binary op left right ihl ihr => exact ⟨ihl h.1, ihr h.2⟩
  | unary op expr ih => exact ih h
  | ternary cond thenBranch elseBranch ihc iht ihe => exact ⟨ihc h.1, iht h.2.1, ihe h.2.2⟩
  | coalesce value default ihv ihd => exact ⟨ihv h.1, ihd h.2⟩
  | _ => trivial

theorem offset_lt (h : (Expr.ident "__current_offset").AsksBelow varSlots offset next) :
    offset < next := h

theorem ident_lt {name : String} {s : Nat} (h : (Expr.ident name).AsksBelow varSlots offset next)
    (hname : name ≠ "__current_offset") (hs : varSlots.lookup name = some s) : s < next := by
  unfold Expr.AsksBelow at h
  rw [if_neg hname] at h
  exact h s hs

end Expr.AsksBelow

/-- The destination of a reserving expression lies below the next free slot. -/
theorem resultSlot_lt {varSlots : SlotMap} {offset next : Nat} {e : Expr}
    (h : e.AsksBelow varSlots offset next) (he : e.Reserves varSlots) :
    resultSlot varSlots offset next e < next + slotCount varSlots e := by
  cases e with
  | ident name =>
      by_cases hname : name = "__current_offset"
      · subst hname
        exact h.offset_lt
      · cases hs : varSlots.lookup name with
        | none => simp [resultSlot, slotCount, hname, hs]
        | some s => simpa [resultSlot, slotCount, hname, hs] using h.ident_lt hname hs
  | binary op left right => simp only [resultSlot_binary, slotCount]; omega
  | unary op expr => simp only [resultSlot_unary, slotCount]; omega
  | ternary cond thenBranch elseBranch =>
      have hreserve : 0 < slotCount varSlots thenBranch + slotCount varSlots elseBranch := he
      simp only [resultSlot_ternary, slotCount]
      omega
  | coalesce value default =>
      have hreserve : 0 < slotCount varSlots default := he
      simp only [resultSlot_coalesce, slotCount]
      omega
  | field base name =>
      cases hs : fieldSlot varSlots base name with
      | none => simp [resultSlot, slotCount, hs]
      | some s => simpa [resultSlot, slotCount, hs] using h s hs
  | _ => exact Nat.lt_succ_self next

/-- Code that only computes: it spends instructions and writes slots from `low` on. -/
structure Quiet (low count : Nat) (vm vm' : BytecodeVm) : Prop where
  below : ∀ i, i < low → vm'.slots[i]? = vm.slots[i]?
  slots_length : vm'.slots.length = vm.slots.length
  input : vm'.input = vm.input
  inputPos : vm'.inputPos = vm.inputPos
  bitOffset : vm'.bitOffset = vm.bitOffset
  limits : vm'.limits = vm.limits
  loopIterations : vm'.loopIterations = vm.loopIterations
  emitted : vm'.emitted = vm.emitted
  restStarts : vm'.restStarts = vm.restStarts
  executed : vm'.instructionsExecuted = vm.instructionsExecuted + count

namespace Quiet

variable {low low' n m : Nat} {vm vm' vm'' : BytecodeVm}

theorem refl (low : Nat) (vm : BytecodeVm) : Quiet low 0 vm vm :=
  ⟨fun _ _ => rfl, rfl, rfl, rfl, rfl, rfl, rfl, rfl, rfl, rfl⟩

theorem tick (low : Nat) (vm : BytecodeVm) : Quiet low 1 vm vm.tick :=
  ⟨fun _ _ => rfl, rfl, rfl, rfl, rfl, rfl, rfl, rfl, rfl, rfl⟩

theorem mono (h : Quiet low n vm vm') (hle : low' ≤ low) : Quiet low' n vm vm' :=
  { h with below := fun i hi => h.below i (Nat.lt_of_lt_of_le hi hle) }

theorem trans (h : Quiet low n vm vm') (h' : Quiet low m vm' vm'') :
    Quiet low (n + m) vm vm'' where
  below i hi := (h'.below i hi).trans (h.below i hi)
  slots_length := h'.slots_length.trans h.slots_length
  input := h'.input.trans h.input
  inputPos := h'.inputPos.trans h.inputPos
  bitOffset := h'.bitOffset.trans h.bitOffset
  limits := h'.limits.trans h.limits
  loopIterations := h'.loopIterations.trans h.loopIterations
  emitted := h'.emitted.trans h.emitted
  restStarts := h'.restStarts.trans h.restStarts
  executed := by rw [h'.executed, h.executed, Nat.add_assoc]

/-- What is left of the instruction budget. -/
theorem budget {k : Nat} (h : Quiet low n vm vm')
    (hk : vm.instructionsExecuted + (n + k) ≤ vm.limits.maxInstructions) :
    vm'.instructionsExecuted + k ≤ vm'.limits.maxInstructions := by
  rw [h.executed, h.limits]
  omega

/-- Storing a value at or above `low` is quiet. -/
theorem store {dst : Nat} (hdst : low ≤ dst) (vm : BytecodeVm) (v : UInt64) :
    Quiet low 1 vm (vm.tick.writeSlot dst v) where
  below i hi := by
    rw [writeSlot_slots, List.getElem?_set_ne (by omega)]
    rfl
  slots_length := by simp
  input := by simp
  inputPos := by simp
  bitOffset := by simp
  limits := by simp
  loopIterations := by simp
  emitted := by simp
  restStarts := by simp
  executed := by simp

end Quiet

/-- The values of the names in the compiler's table. -/
def slotEnv (varSlots : SlotMap) (vm : BytecodeVm) : Env :=
  fun name => (varSlots.lookup name).bind (vm.slots[·]?)

/-- The value of an expression in the current slots. -/
def slotValue (varSlots : SlotMap) (offset : Nat) (vm : BytecodeVm) (e : Expr) : Option UInt64 :=
  evalNamed (vm.getSlot offset) (slotEnv varSlots vm) e

/-- The value of an allocated slot exists. -/
theorem getSlot_eq {vm : BytecodeVm} {s : Nat} (h : s < vm.slots.length) :
    vm.slots[s]? = some (vm.getSlot s) := by
  rw [getSlot, List.getD_eq_getElem?_getD, List.getElem?_eq_getElem h]
  rfl

theorem slotEnv_value {varSlots : SlotMap} {vm : BytecodeVm} {name : String} {s : Nat}
    (hs : varSlots.lookup name = some s) (h : s < vm.slots.length) :
    slotEnv varSlots vm name = some (vm.getSlot s) := by
  unfold slotEnv
  rw [hs]
  exact getSlot_eq h

theorem slotEnv_none {varSlots : SlotMap} (vm : BytecodeVm) {name : String}
    (hs : varSlots.lookup name = none) : slotEnv varSlots vm name = none := by
  unfold slotEnv
  rw [hs]
  rfl

/-- The value of a dotted reference is the content of the slot it resolves to. -/
theorem fieldValue_slotEnv {varSlots : SlotMap} {vm : BytecodeVm} {base : Expr} {field : String}
    (h : ∀ s, fieldSlot varSlots base field = some s → s < vm.slots.length) :
    fieldValue (slotEnv varSlots vm) base field =
      ((fieldSlot varSlots base field).map vm.getSlot).getD 0 := by
  cases base with
  | ident name =>
      simp only [fieldSlot] at h ⊢
      simp only [fieldValue]
      cases hdotted : varSlots.lookup (name ++ "." ++ field) with
      | some s => simp [slotEnv_value hdotted (h s (by simp [hdotted]))]
      | none =>
          cases hfield : varSlots.lookup field with
          | some s =>
              simp [slotEnv_none vm hdotted, slotEnv_value hfield (h s (by simp [hdotted, hfield]))]
          | none =>
              cases hname : varSlots.lookup name with
              | some s =>
                  simp [slotEnv_none vm hdotted, slotEnv_none vm hfield,
                    slotEnv_value hname (h s (by simp [hdotted, hfield, hname]))]
              | none =>
                  simp [slotEnv_none vm hdotted, slotEnv_none vm hfield, slotEnv_none vm hname]
  | _ => rfl

/-- An expression has the same value where the slots below `next` are the same. -/
theorem slotValue_congr {varSlots : SlotMap} {offset next count : Nat} {vm vm' : BytecodeVm}
    {e : Expr} (h : e.AsksBelow varSlots offset next) (hlen : next ≤ vm.slots.length)
    (hquiet : Quiet next count vm vm') :
    slotValue varSlots offset vm' e = slotValue varSlots offset vm e := by
  have hlen' : next ≤ vm'.slots.length := by rw [hquiet.slots_length]; exact hlen
  have hslot : ∀ s, s < next → vm'.getSlot s = vm.getSlot s := fun s hs => by
    simp only [getSlot, List.getD_eq_getElem?_getD, hquiet.below s hs]
  unfold slotValue
  induction e with
  | ident name =>
      by_cases hname : name = "__current_offset"
      · subst hname
        exact congrArg some (hslot offset h.offset_lt)
      · unfold evalNamed Env.value
        rw [if_neg hname, if_neg hname]
        cases hs : varSlots.lookup name with
        | none => rw [slotEnv_none vm hs, slotEnv_none vm' hs]
        | some s =>
            have hlt := h.ident_lt hname hs
            rw [slotEnv_value hs (Nat.lt_of_lt_of_le hlt hlen),
              slotEnv_value hs (Nat.lt_of_lt_of_le hlt hlen'), hslot s hlt]
  | field base field _ =>
      unfold evalNamed
      rw [fieldValue_slotEnv fun s hs => Nat.lt_of_lt_of_le (h s hs) hlen,
        fieldValue_slotEnv fun s hs => Nat.lt_of_lt_of_le (h s hs) hlen']
      cases hs : fieldSlot varSlots base field with
      | none => rfl
      | some s => rw [Option.map_some, Option.map_some, hslot s (h s hs)]
  | binary op left right ihl ihr =>
      unfold evalNamed
      rw [ihl h.1, ihr h.2]
  | unary op expr ih =>
      unfold evalNamed
      rw [ih h]
  | ternary cond thenBranch elseBranch ihc iht ihe =>
      unfold evalNamed
      rw [ihc h.1, iht h.2.1, ihe h.2.2]
  | coalesce value default ihv ihd =>
      unfold evalNamed
      rw [ihv h.1, ihd h.2]
  | _ => rfl

section Run

variable (program : BytecodeProgram) (stream : Bool)

/-- Running from address `start` computes `value` into slot `result` and arrives
at address `stop`, or panics when there is no value. -/
def Computes (start stop low result : Nat) (vm : BytecodeVm) (value : Option UInt64) : Prop :=
  match value with
  | some v => ∃ n vm', start + n ≤ stop ∧ Steps (vmMove program stream) n ⟨vm, start⟩ ⟨vm', stop⟩ ∧
      Quiet low n vm vm' ∧ vm'.slots[result]? = some v
  | none => ∃ vm', Halts (vmMove program stream) ⟨vm, start⟩ (vm', .panicked)

namespace Computes

variable {program stream} {start mid stop low low' result result' : Nat} {vm vm' : BytecodeVm}
  {value : Option UInt64}

theorem done {v : UInt64} (h : vm.slots[result]? = some v) :
    Computes program stream stop stop low result vm (some v) :=
  ⟨0, vm, Nat.le_refl _, .stay _, .refl low vm, h⟩

theorem mono (h : Computes program stream start stop low result vm value) (hle : low' ≤ low) :
    Computes program stream start stop low' result vm value := by
  cases value with
  | none => exact h
  | some v =>
      obtain ⟨n, vm', hn, hsteps, hquiet, hv⟩ := h
      exact ⟨n, vm', hn, hsteps, hquiet.mono hle, hv⟩

/-- One move before the rest of the computation. -/
theorem move (hmove : vmMove program stream ⟨vm, start⟩ = .ok ⟨vm', mid⟩)
    (hquiet : Quiet low 1 vm vm') (hmid : start < mid)
    (h : Computes program stream mid stop low result vm' value) :
    Computes program stream start stop low result vm value := by
  cases value with
  | none =>
      obtain ⟨vm'', hhalts⟩ := h
      exact ⟨vm'', .of_steps (.one hmove) hhalts⟩
  | some v =>
      obtain ⟨n, vm'', hn, hsteps, hquiet', hv⟩ := h
      refine ⟨n + 1, vm'', by omega, .go hmove hsteps, ?_, hv⟩
      rw [Nat.add_comm]
      exact hquiet.trans hquiet'

/-- Compute an intermediate value first, then continue from there. -/
theorem bind {f : UInt64 → Option UInt64}
    (h : Computes program stream start mid low result vm value)
    (hnext : ∀ n v vm', start + n ≤ mid → Quiet low n vm vm' → vm'.slots[result]? = some v →
      Computes program stream mid stop low result' vm' (f v)) :
    Computes program stream start stop low result' vm (value.bind f) := by
  cases value with
  | none => exact h
  | some v =>
      obtain ⟨n, vm', hn, hsteps, hquiet, hv⟩ := h
      have hrest := hnext n v vm' hn hquiet hv
      rw [Option.bind_some]
      cases hf : f v with
      | none =>
          rw [hf] at hrest
          obtain ⟨vm'', hhalts⟩ := hrest
          exact ⟨vm'', .of_steps hsteps hhalts⟩
      | some v' =>
          rw [hf] at hrest
          obtain ⟨m, vm'', hm, hsteps', hquiet', hv'⟩ := hrest
          exact ⟨n + m, vm'', by omega, hsteps.append hsteps', hquiet.trans hquiet', hv'⟩

/-- Move a computed value on to its destination. -/
theorem thenMove (h : Computes program stream start mid low result vm value)
    (hnext : ∀ n v vm', start + n ≤ mid → Quiet low n vm vm' → vm'.slots[result]? = some v →
      Computes program stream mid stop low result' vm' (some v)) :
    Computes program stream start stop low result' vm value := by
  have hbind := h.bind (f := some) hnext
  cases value <;> exact hbind

end Computes

theorem within_budget {vm : BytecodeVm} {n : Nat}
    (h : vm.instructionsExecuted + n ≤ vm.limits.maxInstructions) : ¬ vm.outOfBudget := by
  unfold outOfBudget
  omega

theorem withSlot_eq {vm : BytecodeVm} {slot : Nat} {v : UInt64} (h : vm.slots[slot]? = some v)
    (f : UInt64 → BytecodeVm × Flow) : withSlot vm slot f = f v := by
  unfold withSlot
  rw [h]

variable {program stream}

/-- A move that stores a value and goes on. -/
theorem vmMove_store {instr : Instruction} {vm : BytecodeVm} {start dst : Nat} {v : UInt64}
    (hinstr : program.instructions[start]? = some instr) (hbudget : ¬ vm.outOfBudget)
    (hexec : execInstr stream instr start vm.tick = storeNext vm.tick dst v start) :
    vmMove program stream ⟨vm, start⟩ = .ok ⟨vm.tick.writeSlot dst v, start + 1⟩ :=
  vmMove_eq_ok.mpr ⟨instr, hinstr, hbudget, hexec⟩

theorem execInstr_copySlot {vm : BytecodeVm} {src dst ip : Nat} {v : UInt64}
    (hv : vm.slots[src]? = some v) :
    execInstr stream (.copySlot src dst) ip vm.tick = storeNext vm.tick dst v ip :=
  withSlot_eq (by rw [tick_slots]; exact hv) _

theorem execInstr_unaryOp {vm : BytecodeVm} {op : BytecodeUnaryOp} {src dst ip : Nat} {v : UInt64}
    (hv : vm.slots[src]? = some v) :
    execInstr stream (.unaryOp op src dst) ip vm.tick = storeNext vm.tick dst (op.apply v) ip :=
  withSlot_eq (by rw [tick_slots]; exact hv) _

theorem execInstr_binOp {vm : BytecodeVm} {op : BytecodeBinOp} {left right dst ip : Nat}
    {l r : UInt64} (hl : vm.slots[left]? = some l) (hr : vm.slots[right]? = some r) :
    execInstr stream (.binOp op left right dst) ip vm.tick =
      match op.apply l r with
      | none => (vm.tick, .panicked)
      | some v => storeNext vm.tick dst v ip :=
  (withSlot_eq (by rw [tick_slots]; exact hl) _).trans
    (withSlot_eq (by rw [tick_slots]; exact hr) _)

/-- The last instruction stores the value. -/
theorem store_computes {instr : Instruction} {vm : BytecodeVm} {start low dst : Nat} {v : UInt64}
    (hinstr : program.instructions[start]? = some instr) (hbudget : ¬ vm.outOfBudget)
    (hexec : execInstr stream instr start vm.tick = storeNext vm.tick dst v start)
    (hlow : low ≤ dst) (hdst : dst < vm.slots.length) :
    Computes program stream start (start + 1) low dst vm (some v) := by
  refine .move (vmMove_store hinstr hbudget hexec) (.store hlow vm v) (Nat.lt_succ_self start)
    (.done ?_)
  rw [writeSlot_slots, tick_slots, List.getElem?_set_self hdst]

/-- An operator stores its result, or panics when it has none. -/
theorem binOp_computes {op : BytecodeBinOp} {vm : BytecodeVm} {start low left right dst : Nat}
    {l r : UInt64} (hinstr : program.instructions[start]? = some (.binOp op left right dst))
    (hbudget : ¬ vm.outOfBudget) (hl : vm.slots[left]? = some l) (hr : vm.slots[right]? = some r)
    (hlow : low ≤ dst) (hdst : dst < vm.slots.length) :
    Computes program stream start (start + 1) low dst vm (op.apply l r) := by
  have hexec : execInstr stream (.binOp op left right dst) start vm.tick = _ :=
    execInstr_binOp hl hr
  cases happly : op.apply l r with
  | none =>
      rw [happly] at hexec
      exact ⟨vm.tick, .of_end (vmMove_eq_error.mpr (.inr (.inr ⟨_, hinstr, hbudget, hexec⟩)))⟩
  | some v =>
      rw [happly] at hexec
      exact store_computes hinstr hbudget hexec hlow hdst

/-- A constant is loaded into the next slot. -/
theorem loadConst_computes {v : UInt64} {base next : Nat} {vm : BytecodeVm}
    (hblock : BlockAt program.instructions base [.loadConst v next])
    (hslots : next + 1 ≤ vm.slots.length)
    (hbudget : vm.instructionsExecuted + 1 ≤ vm.limits.maxInstructions) :
    Computes program stream base (base + 1) next next vm (some v) :=
  store_computes hblock.head (within_budget hbudget) rfl (Nat.le_refl next) hslots

/-- A conditional jump over code that is not taken back counts no iteration. -/
theorem vmMove_jumpIfZero {vm : BytecodeVm} {start cond target : Nat} {v : UInt64}
    (hinstr : program.instructions[start]? = some (.jumpIfZero cond target))
    (hbudget : ¬ vm.outOfBudget) (hv : vm.slots[cond]? = some v) (hforward : start ≤ target) :
    vmMove program stream ⟨vm, start⟩ = .ok ⟨vm.tick, if v = 0 then target else start + 1⟩ := by
  refine vmMove_eq_ok.mpr ⟨_, hinstr, hbudget, ?_⟩
  change withSlot vm.tick cond (execJumpIfZero target start vm.tick) = _
  rw [withSlot_eq (by rw [tick_slots]; exact hv)]
  unfold execJumpIfZero
  split
  · rw [if_neg (by omega)]
  · rfl

theorem vmMove_jump {vm : BytecodeVm} {start target : Nat}
    (hinstr : program.instructions[start]? = some (.jump target)) (hbudget : ¬ vm.outOfBudget) :
    vmMove program stream ⟨vm, start⟩ = .ok ⟨vm.tick, target⟩ :=
  vmMove_eq_ok.mpr ⟨_, hinstr, hbudget, rfl⟩

/-- Copy a computed value and jump over the other branch. -/
theorem copyJump_computes {vm : BytecodeVm} {start stop src dst low : Nat} {v : UInt64}
    (hblock : BlockAt program.instructions start [.copySlot src dst, .jump stop])
    (hbudget : vm.instructionsExecuted + 2 ≤ vm.limits.maxInstructions)
    (hv : vm.slots[src]? = some v) (hlow : low ≤ dst) (hdst : dst < vm.slots.length)
    (hstop : start + 2 ≤ stop) : Computes program stream start stop low dst vm (some v) := by
  have hjump := (BlockAt.cons_iff.mp hblock).2.head
  refine .move (vmMove_store hblock.head (within_budget hbudget) (execInstr_copySlot hv))
    (.store hlow vm v) (Nat.lt_succ_self start) ?_
  refine .move (vmMove_jump hjump (within_budget (n := 1) ?_)) (.tick low _) hstop (.done ?_)
  · rw [writeSlot_instructionsExecuted, writeSlot_limits, tick_instructionsExecuted, tick_limits]
    omega
  · rw [tick_slots, writeSlot_slots, tick_slots, List.getElem?_set_self hdst]

/-- Copy a computed value as the last instruction. -/
theorem copy_computes {vm : BytecodeVm} {start src dst low : Nat} {v : UInt64}
    (hblock : BlockAt program.instructions start [.copySlot src dst])
    (hbudget : vm.instructionsExecuted + 1 ≤ vm.limits.maxInstructions)
    (hv : vm.slots[src]? = some v) (hlow : low ≤ dst) (hdst : dst < vm.slots.length) :
    Computes program stream start (start + 1) low dst vm (some v) :=
  store_computes hblock.head (within_budget hbudget) (execInstr_copySlot hv) hlow hdst

end Run

section SlotValue

variable (varSlots : SlotMap) (offset : Nat) (vm : BytecodeVm)

theorem slotValue_binary (op : BinOp) (l r : Expr) :
    slotValue varSlots offset vm (.binary op l r) =
      (slotValue varSlots offset vm l).bind fun x =>
        (slotValue varSlots offset vm r).bind fun y => evalBinOp op x y := rfl

theorem slotValue_unary (op : UnaryOp) (e : Expr) :
    slotValue varSlots offset vm (.unary op e) =
      (slotValue varSlots offset vm e).bind fun x => some (evalUnaryOp op x) := rfl

theorem slotValue_ternary (c t e : Expr) :
    slotValue varSlots offset vm (.ternary c t e) =
      (slotValue varSlots offset vm c).bind fun x =>
        if x ≠ 0 then slotValue varSlots offset vm t else slotValue varSlots offset vm e := rfl

theorem slotValue_coalesce (v d : Expr) :
    slotValue varSlots offset vm (.coalesce v d) =
      (slotValue varSlots offset vm v).bind fun x =>
        if x ≠ 0 then some x else slotValue varSlots offset vm d := rfl

end SlotValue

/-- What must hold before the code of an expression runs. -/
structure ExprReady (varSlots : SlotMap) (offset : Nat) (e : Expr) (base next : Nat)
    (vm : BytecodeVm) : Prop where
  below : e.AsksBelow varSlots offset next
  fits : base + codeLength varSlots e ≤ u16Max
  slots : next + slotCount varSlots e ≤ vm.slots.length
  -- Destinations that are not reserved need one slot more.
  spare : e.BranchesReserve varSlots ∨ next + slotCount varSlots e < vm.slots.length
  budget : vm.instructionsExecuted + codeLength varSlots e ≤ vm.limits.maxInstructions

/-- Names and dotted references that are known need no code. -/
theorem known_computes {program : BytecodeProgram} {stream : Bool} {base low s : Nat}
    {vm : BytecodeVm} (h : s < vm.slots.length) :
    Computes program stream base base low s vm (some (vm.getSlot s)) :=
  .done (getSlot_eq h)

/-- An expression without code is a reference to a slot. -/
theorem reference_value {varSlots : SlotMap} {offset next : Nat} {vm : BytecodeVm} {e : Expr}
    (hzero : codeLength varSlots e = 0) (h : e.AsksBelow varSlots offset next)
    (hlen : next ≤ vm.slots.length) :
    slotValue varSlots offset vm e = some (vm.getSlot (resultSlot varSlots offset next e)) ∧
      resultSlot varSlots offset next e < next ∧ slotCount varSlots e = 0 := by
  cases e with
  | ident name =>
      by_cases hname : name = "__current_offset"
      · subst hname
        exact ⟨rfl, h.offset_lt, rfl⟩
      · cases hs : varSlots.lookup name with
        | none => simp [codeLength, hname, hs] at hzero
        | some s =>
            have hlt := h.ident_lt hname hs
            exact ⟨by simp [slotValue, evalNamed, resultSlot, hname, hs, Env.value,
              slotEnv_value hs (Nat.lt_of_lt_of_le hlt hlen)],
              by simpa [resultSlot, hname, hs] using hlt, by simp [slotCount, hname, hs]⟩
  | field base name =>
      cases hs : fieldSlot varSlots base name with
      | none => simp [codeLength, hs] at hzero
      | some s =>
          refine ⟨?_, by simpa [resultSlot, hs] using h s hs, by simp [slotCount, hs]⟩
          have hvalue := @fieldValue_slotEnv varSlots vm base name
            fun s hs => Nat.lt_of_lt_of_le (h s hs) hlen
          simp only [slotValue, evalNamed, hvalue, resultSlot, hs, Option.map_some,
            Option.getD_some]
  | _ => simp [codeLength] at hzero

section Correct

variable {program : BytecodeProgram} {stream : Bool} {varSlots : SlotMap} {offset : Nat}

/-- The code of an expression computes its value, wherever it stands: if it keeps its operands,
it leaves the value in the result slot, and slots below `next` as they were. -/
def CodeComputes (program : BytecodeProgram) (stream : Bool) (varSlots : SlotMap) (offset : Nat)
    (e : Expr) : Prop :=
  ∀ ⦃base next : Nat⦄ ⦃vm : BytecodeVm⦄, e.OperandsKept varSlots →
    ExprReady varSlots offset e base next vm →
    BlockAt program.instructions base (exprBlock varSlots offset e base next) →
    Computes program stream base (base + codeLength varSlots e) next
      (resultSlot varSlots offset next e) vm (slotValue varSlots offset vm e)

theorem ident_computes (name : String) :
    CodeComputes program stream varSlots offset (.ident name) := by
  intro base next vm _ h hblock
  have hlen : next ≤ vm.slots.length := Nat.le_trans (Nat.le_add_right ..) h.slots
  by_cases hname : name = "__current_offset"
  · subst hname
    exact known_computes (Nat.lt_of_lt_of_le h.below.offset_lt hlen)
  · cases hs : varSlots.lookup name with
    | none =>
        have hvalue : slotValue varSlots offset vm (.ident name) = some 0 := by
          simp [slotValue, evalNamed, hname, Env.value, slotEnv, hs]
        simp only [exprBlock, hname, hs, if_false] at hblock
        have hslots := h.slots
        have hbudget := h.budget
        simp only [slotCount, codeLength, hname, hs, if_false] at hslots hbudget
        simp only [codeLength, resultSlot, hname, hs, if_false, hvalue, Option.getD_none]
        exact loadConst_computes hblock hslots hbudget
    | some s =>
        have hs' : s < vm.slots.length := Nat.lt_of_lt_of_le (h.below.ident_lt hname hs) hlen
        have hvalue : slotValue varSlots offset vm (.ident name) = some (vm.getSlot s) := by
          simp [slotValue, evalNamed, hname, Env.value, slotEnv_value hs hs']
        simp only [codeLength, resultSlot, hname, hs, if_false, hvalue, Option.getD_some]
        exact known_computes hs'

theorem field_computes (b : Expr) (name : String) :
    CodeComputes program stream varSlots offset (.field b name) := by
  intro base next vm _ h hblock
  have hlen : next ≤ vm.slots.length := Nat.le_trans (Nat.le_add_right ..) h.slots
  have hvalue : slotValue varSlots offset vm (.field b name) =
      some (((fieldSlot varSlots b name).map vm.getSlot).getD 0) :=
    congrArg some (fieldValue_slotEnv fun s hs => Nat.lt_of_lt_of_le (h.below s hs) hlen)
  rw [hvalue]
  cases hs : fieldSlot varSlots b name with
  | none =>
      simp only [exprBlock, hs] at hblock
      have hslots := h.slots
      have hbudget := h.budget
      simp only [slotCount, codeLength, hs] at hslots hbudget
      simp only [codeLength, resultSlot, hs, Option.getD_none, Option.map_none]
      exact loadConst_computes hblock hslots hbudget
  | some s =>
      simp only [codeLength, resultSlot, hs, Option.getD_some, Option.map_some]
      exact known_computes (Nat.lt_of_lt_of_le (h.below s hs) hlen)

/-- The right operand is computed above the left result, and so preserves it. -/
theorem binary_computes (op : BinOp) {left right : Expr}
    (ihl : CodeComputes program stream varSlots offset left)
    (ihr : CodeComputes program stream varSlots offset right) :
    CodeComputes program stream varSlots offset (.binary op left right) := by
  intro base next vm he h hblock
  have hfits := h.fits
  have hslots := h.slots
  have hspare := h.spare
  have hbudget := h.budget
  simp only [codeLength, slotCount] at hfits hslots hspare hbudget
  have hstop : base + codeLength varSlots (.binary op left right) =
      base + codeLength varSlots left + codeLength varSlots right + 1 := by
    simp only [codeLength]
    omega
  obtain ⟨hl, hr, hkept⟩ := he
  rw [slotValue_binary, resultSlot_binary, hstop]
  refine (ihl hl ⟨h.below.1, by omega, by omega,
    hspare.imp (·.1) fun hlt => by omega, by omega⟩ hblock.left.left).bind
    fun n x vm' hn hquiet hx => ?_
  rw [← slotValue_congr h.below.2 (by omega) hquiet]
  refine Computes.mono ?_ (Nat.le_add_right next (slotCount varSlots left))
  have hinstr : program.instructions[base + codeLength varSlots left +
      codeLength varSlots right]? = some (.binOp _ _ _
        (next + slotCount varSlots left + slotCount varSlots right)) :=
    (hblock.right_at (by simp [exprBlock_length, Nat.add_assoc])).head
  have hbelow := h.below.2.mono (Nat.le_add_right next (slotCount varSlots left))
  have hlen := hquiet.slots_length
  obtain hreserve | hzero := hkept
  · refine (ihr hr ⟨hbelow, by omega, by omega, hspare.imp (·.2) fun hlt => by omega,
        hquiet.budget (by omega)⟩
      (hblock.left.right_at (by rw [exprBlock_length]))).bind fun m y vm'' hm hquiet' hy => ?_
    have hlen' := hquiet'.slots_length
    have hx' := (hquiet'.below _ (resultSlot_lt h.below.1 hreserve)).trans hx
    rw [← toBytecode_apply]
    refine binOp_computes hinstr (within_budget (hquiet'.budget (k := 1) (hquiet.budget ?_)))
      hx' hy (by omega) (by omega)
    omega
  · have hlow : next + slotCount varSlots left ≤ vm'.slots.length := by omega
    obtain ⟨hvalue, hlt, hcount⟩ := reference_value hzero hbelow hlow
    have hy := getSlot_eq (Nat.lt_of_lt_of_le hlt hlow)
    rw [hvalue, Option.bind_some, ← toBytecode_apply]
    rw [hzero, Nat.add_zero] at hinstr ⊢
    refine binOp_computes hinstr (within_budget (hquiet.budget (k := 1) ?_)) hx hy (by omega)
      (by omega)
    omega

theorem unary_computes (op : UnaryOp) {expr : Expr}
    (ih : CodeComputes program stream varSlots offset expr) :
    CodeComputes program stream varSlots offset (.unary op expr) := by
  intro base next vm he h hblock
  have hfits := h.fits
  have hslots := h.slots
  have hspare := h.spare
  have hbudget := h.budget
  simp only [codeLength, slotCount] at hfits hslots hspare hbudget
  rw [slotValue_unary, resultSlot_unary]
  refine (ih he ⟨h.below, by omega, by omega,
    hspare.imp id fun hlt => by omega, by omega⟩ hblock.left).bind
    fun n x vm' hn hquiet hx => ?_
  have hinstr : program.instructions[base + codeLength varSlots expr]? = some _ :=
    (hblock.right_at (by rw [exprBlock_length])).head
  rw [← unary_toBytecode_apply]
  refine store_computes hinstr (within_budget (hquiet.budget (k := 1) ?_))
    (execInstr_unaryOp hx) (by omega) (by rw [hquiet.slots_length]; omega)
  omega

/-- A branch that is computed and copied to a destination as the last instruction. -/
theorem copied_computes {e : Expr} (ih : CodeComputes program stream varSlots offset e)
    {base next low dst : Nat} {vm : BytecodeVm} (he : e.OperandsKept varSlots)
    (h : ExprReady varSlots offset e base next vm)
    (hbudget : vm.instructionsExecuted + (codeLength varSlots e + 1) ≤ vm.limits.maxInstructions)
    (hcode : BlockAt program.instructions base (exprBlock varSlots offset e base next))
    (hcopy : BlockAt program.instructions (base + codeLength varSlots e)
      [.copySlot (resultSlot varSlots offset next e) dst])
    (hlow : low ≤ next) (hlowDst : low ≤ dst) (hdst : dst < vm.slots.length) :
    Computes program stream base (base + codeLength varSlots e + 1) low dst vm
      (slotValue varSlots offset vm e) := by
  refine .thenMove (.mono (ih he h hcode) hlow) fun n v vm' hn hquiet hv => ?_
  have hlen := hquiet.slots_length
  exact copy_computes hcopy (hquiet.budget (by omega)) hv hlowDst (by omega)

/-- A branch that is computed and copied to a destination, with a jump over another branch. -/
theorem copiedJump_computes {e : Expr} (ih : CodeComputes program stream varSlots offset e)
    {base next low dst stop : Nat} {vm : BytecodeVm} (he : e.OperandsKept varSlots)
    (h : ExprReady varSlots offset e base next vm)
    (hbudget : vm.instructionsExecuted + (codeLength varSlots e + 2) ≤ vm.limits.maxInstructions)
    (hcode : BlockAt program.instructions base (exprBlock varSlots offset e base next))
    (hcopy : BlockAt program.instructions (base + codeLength varSlots e)
      [.copySlot (resultSlot varSlots offset next e) dst, .jump stop])
    (hlow : low ≤ next) (hlowDst : low ≤ dst) (hdst : dst < vm.slots.length)
    (hstop : base + codeLength varSlots e + 2 ≤ stop) :
    Computes program stream base stop low dst vm (slotValue varSlots offset vm e) := by
  refine .thenMove (.mono (ih he h hcode) hlow) fun n v vm' hn hquiet hv => ?_
  have hlen := hquiet.slots_length
  exact copyJump_computes hcopy (hquiet.budget (by omega)) hv hlowDst (by omega) hstop

theorem ternary_computes {cond thenBranch elseBranch : Expr}
    (ihc : CodeComputes program stream varSlots offset cond)
    (iht : CodeComputes program stream varSlots offset thenBranch)
    (ihe : CodeComputes program stream varSlots offset elseBranch) :
    CodeComputes program stream varSlots offset (.ternary cond thenBranch elseBranch) := by
  intro base next vm he h hblock
  obtain ⟨hc, ht, he⟩ := he
  have hfits := h.fits
  have hslots := h.slots
  have hspare := h.spare
  have hbudget := h.budget
  simp only [codeLength, slotCount] at hfits hslots hspare hbudget
  have hstop : base + codeLength varSlots (.ternary cond thenBranch elseBranch) =
      base + codeLength varSlots cond + codeLength varSlots thenBranch + 3 +
        codeLength varSlots elseBranch + 1 := by
    simp only [codeLength]
    omega
  rw [slotValue_ternary, resultSlot_ternary, hstop]
  simp only [exprBlock] at hblock
  have hdst : next + slotCount varSlots cond < vm.slots.length := by
    obtain hreserve | hlt := hspare
    · have hpos := hreserve.2.2.2
      omega
    · omega
  refine (ihc hc ⟨h.below.1, by omega, by omega, hspare.imp (·.1) fun hlt => by omega, by omega⟩
    hblock.left.left.left.left.left).bind fun n x vm' hn hquiet hx => ?_
  have hjz : program.instructions[base + codeLength varSlots cond]? = some (.jumpIfZero _ _) :=
    (hblock.left.left.left.left.right_at (by rw [exprBlock_length])).head
  rw [asU16_of_le (by omega)] at hjz
  have hmove : vmMove program stream _ = .ok _ := vmMove_jumpIfZero hjz
    (within_budget (hquiet.budget (k := 1) (by omega))) hx (by omega)
  have hquiet' := hquiet.trans (.tick next vm')
  have hle := Nat.le_add_right next (slotCount varSlots cond)
  have hlen := hquiet'.slots_length
  by_cases hzero : x = 0
  · rw [if_pos hzero] at hmove
    rw [if_neg (not_not.mpr hzero), ← slotValue_congr h.below.2.2 (by omega) hquiet']
    refine .move hmove (.tick next vm') (by omega) (copied_computes ihe he
      ⟨h.below.2.2.mono (Nat.le_trans hle (Nat.le_add_right ..)), by omega, by omega,
        hspare.imp (·.2.2.1) fun hlt => by omega, hquiet'.budget (by omega)⟩
      (hquiet'.budget (by omega)) (hblock.left.right_at ?_) (hblock.right_at ?_) (by omega)
      (by omega) (by omega))
    · simp only [List.length_append, exprBlock_length, List.length_cons, List.length_nil]
      omega
    · simp only [List.length_append, exprBlock_length, List.length_cons, List.length_nil]
      omega
  · rw [if_neg hzero] at hmove
    rw [if_pos hzero, ← slotValue_congr h.below.2.1 (by omega) hquiet']
    have hcopy : BlockAt program.instructions
        (base + codeLength varSlots cond + 1 + codeLength varSlots thenBranch) _ :=
      hblock.left.left.right_at (by
        simp only [List.length_append, exprBlock_length, List.length_cons, List.length_nil]
        omega)
    rw [asU16_of_le (by omega), show base + codeLength varSlots cond +
      codeLength varSlots thenBranch + codeLength varSlots elseBranch + 4 =
      base + codeLength varSlots cond + codeLength varSlots thenBranch + 3 +
        codeLength varSlots elseBranch + 1 by omega] at hcopy
    refine .move hmove (.tick next vm') (by omega) (copiedJump_computes iht ht
      ⟨h.below.2.1.mono hle, by omega, by omega, hspare.imp (·.2.1) fun hlt => by omega,
        hquiet'.budget (by omega)⟩
      (hquiet'.budget (by omega)) (hblock.left.left.left.right_at ?_) hcopy (by omega)
      (by omega) (by omega) (by omega))
    simp only [List.length_append, exprBlock_length, List.length_cons, List.length_nil]
    omega

theorem coalesce_computes {value default : Expr}
    (ihv : CodeComputes program stream varSlots offset value)
    (ihd : CodeComputes program stream varSlots offset default) :
    CodeComputes program stream varSlots offset (.coalesce value default) := by
  intro base next vm he h hblock
  obtain ⟨hv, hd⟩ := he
  have hfits := h.fits
  have hslots := h.slots
  have hspare := h.spare
  have hbudget := h.budget
  simp only [codeLength, slotCount] at hfits hslots hspare hbudget
  have hstop : base + codeLength varSlots (.coalesce value default) =
      base + codeLength varSlots value + 3 + codeLength varSlots default + 1 := by
    simp only [codeLength]
    omega
  rw [slotValue_coalesce, resultSlot_coalesce, hstop]
  simp only [exprBlock] at hblock
  have hdst : next + slotCount varSlots value < vm.slots.length := by
    obtain hreserve | hlt := hspare
    · have hpos := hreserve.2.2
      omega
    · omega
  refine (ihv hv ⟨h.below.1, by omega, by omega, hspare.imp (·.1) fun hlt => by omega, by omega⟩
    hblock.left.left.left).bind fun n x vm' hn hquiet hx => ?_
  have hmiddle : BlockAt program.instructions (base + codeLength varSlots value) _ :=
    hblock.left.left.right_at (by rw [exprBlock_length])
  rw [asU16_of_le (by omega), asU16_of_le (by omega), show base + codeLength varSlots value +
    codeLength varSlots default + 4 = base + codeLength varSlots value + 3 +
      codeLength varSlots default + 1 by omega] at hmiddle
  have hmove : vmMove program stream _ = .ok _ := vmMove_jumpIfZero hmiddle.head
    (within_budget (hquiet.budget (k := 1) (by omega))) hx (by omega)
  have hquiet' := hquiet.trans (.tick next vm')
  have hlen := hquiet'.slots_length
  by_cases hzero : x = 0
  · rw [if_pos hzero] at hmove
    rw [if_neg (not_not.mpr hzero), ← slotValue_congr h.below.2 (by omega) hquiet']
    refine .move hmove (.tick next vm') (by omega) (copied_computes ihd hd
      ⟨h.below.2.mono (Nat.le_add_right ..), by omega, by omega,
        hspare.imp (·.2.1) fun hlt => by omega, hquiet'.budget (by omega)⟩
      (hquiet'.budget (by omega)) (hblock.left.right_at ?_) (hblock.right_at ?_) (by omega)
      (by omega) (by omega))
    · simp only [List.length_append, exprBlock_length, List.length_cons, List.length_nil]
      omega
    · simp only [List.length_append, exprBlock_length, List.length_cons, List.length_nil]
      omega
  · rw [if_neg hzero] at hmove
    rw [if_pos hzero]
    exact .move hmove (.tick next vm') (by omega) (copyJump_computes
      (BlockAt.cons_iff.mp hmiddle).2 (hquiet'.budget (by omega)) hx (by omega) (by omega)
      (by omega))

theorem codeComputes (e : Expr) : CodeComputes program stream varSlots offset e := by
  induction e with
  | ident name => exact ident_computes name
  | field b name _ => exact field_computes b name
  | int v => exact fun _ _ _ _ h hblock => loadConst_computes hblock h.slots h.budget
  | str s => exact fun _ _ _ _ h hblock => loadConst_computes hblock h.slots h.budget
  | call name args => exact fun _ _ _ _ h hblock => loadConst_computes hblock h.slots h.budget
  | tuple items => exact fun _ _ _ _ h hblock => loadConst_computes hblock h.slots h.budget
  | binary op left right ihl ihr => exact binary_computes op ihl ihr
  | unary op expr ih => exact unary_computes op ih
  | ternary cond thenBranch elseBranch ihc iht ihe => exact ternary_computes ihc iht ihe
  | coalesce value default ihv ihd => exact coalesce_computes ihv ihd

/-- Compiled expressions compute their value: if the code keeps its operands, it
leaves the value in the result slot, and slots below `next` as they were. -/
theorem exprBlock_computes (e : Expr) {base next : Nat} {vm : BytecodeVm}
    (he : e.OperandsKept varSlots) (h : ExprReady varSlots offset e base next vm)
    (hblock : BlockAt program.instructions base (exprBlock varSlots offset e base next)) :
    Computes program stream base (base + codeLength varSlots e) next
      (resultSlot varSlots offset next e) vm (slotValue varSlots offset vm e) :=
  codeComputes e he h hblock

end Correct

/-- The calls that compiling `e` from slot `next` makes, with the slots they
start from. -/
inductive EmitCall (varSlots : SlotMap) : Expr → Nat → Expr → Nat → Prop where
  | self (e next) : EmitCall varSlots e next e next
  | binaryLeft {op left right next e' next'} : EmitCall varSlots left next e' next' →
      EmitCall varSlots (.binary op left right) next e' next'
  | binaryRight {op left right next e' next'} :
      EmitCall varSlots right (next + slotCount varSlots left) e' next' →
      EmitCall varSlots (.binary op left right) next e' next'
  | unary {op expr next e' next'} : EmitCall varSlots expr next e' next' →
      EmitCall varSlots (.unary op expr) next e' next'
  | ternaryCond {cond thenBranch elseBranch next e' next'} :
      EmitCall varSlots cond next e' next' →
      EmitCall varSlots (.ternary cond thenBranch elseBranch) next e' next'
  | ternaryThen {cond thenBranch elseBranch next e' next'} :
      EmitCall varSlots thenBranch (next + slotCount varSlots cond) e' next' →
      EmitCall varSlots (.ternary cond thenBranch elseBranch) next e' next'
  | ternaryElse {cond thenBranch elseBranch next e' next'} :
      EmitCall varSlots elseBranch
        (next + slotCount varSlots cond + slotCount varSlots thenBranch) e' next' →
      EmitCall varSlots (.ternary cond thenBranch elseBranch) next e' next'
  | coalesceValue {value default next e' next'} : EmitCall varSlots value next e' next' →
      EmitCall varSlots (.coalesce value default) next e' next'
  | coalesceDefault {value default next e' next'} :
      EmitCall varSlots default (next + slotCount varSlots value) e' next' →
      EmitCall varSlots (.coalesce value default) next e' next'

/-- The environment gives every name of the table its slot's value. -/
structure EnvMatches (varSlots : SlotMap) (offset : Nat) (env : Env) (vm : BytecodeVm) : Prop where
  offset : env.value "__current_offset" = vm.getSlot offset
  vars : ∀ name, name ≠ "__current_offset" → env name = (varSlots.lookup name).map vm.getSlot

/-- What a call of the compiler must deliver: a result slot that the next
allocation cannot overwrite, and code that computes the value of direct
evaluation into it and leaves the slots below `next` alone. The code runs in
any program that contains it, with slots for its results, jump targets in
sixteen bits and an instruction budget. -/
structure CallCorrect (varSlots : SlotMap) (offset : Nat) (e : Expr) (next : Nat) : Prop where
  resultBelowFree : ∀ instructions, ∃ code result free,
    emitExprToSlotChecked e varSlots instructions next offset = some (code, result, free) ∧
      result < free
  computes : ∀ (program : BytecodeProgram) (stream : Bool) (instructions code : List Instruction)
    (result free : Nat) (vm : BytecodeVm) (env : Env),
    emitExprToSlotChecked e varSlots instructions next offset = some (code, result, free) →
    code <+: program.instructions → code.length ≤ u16Max → free ≤ vm.slots.length →
    vm.instructionsExecuted + (code.length - instructions.length) ≤ vm.limits.maxInstructions →
    EnvMatches varSlots offset env vm →
    Computes program stream instructions.length code.length next result vm (evalExpr env e)

theorem EnvMatches.slotValue_eq {varSlots : SlotMap} {offset next : Nat} {env : Env}
    {vm : BytecodeVm} (h : EnvMatches varSlots offset env vm)
    (hbelow : SlotsBelow varSlots offset next) (hlen : next ≤ vm.slots.length) {e : Expr}
    (hfield : e.FieldFree) : slotValue varSlots offset vm e = evalExpr env e := by
  refine evalNamed_eq_evalExpr h.offset (fun name hname => ?_) hfield
  unfold Env.value
  rw [h.vars name hname]
  cases hs : varSlots.lookup name with
  | none => simp [slotEnv, hs]
  | some s => simp [slotEnv_value hs (Nat.lt_of_lt_of_le (hbelow.vars name s hs) hlen)]

/-- A reserving expression without dotted references is compiled correctly where its slots
fit. -/
theorem callCorrect_of_branchesReserve {varSlots : SlotMap} {offset next : Nat} {e : Expr}
    (hfield : e.FieldFree) (hbelow : SlotsBelow varSlots offset next)
    (he : e.BranchesReserve varSlots) (hfree : next + slotCount varSlots e ≤ u16Max) :
    CallCorrect varSlots offset e next where
  resultBelowFree instructions := by
    refine ⟨_, _, _, emitExprToSlotChecked_of_fits hfree, ?_⟩
    rw [emitExprToSlot_eq]
    exact resultSlot_lt (hbelow.asks e) he.reserves
  computes program stream instructions code result free vm env hemit hcode hfits hslots hbudget
      henv := by
    rw [emitExprToSlotChecked_of_fits hfree, emitExprToSlot_eq] at hemit
    simp only [Option.some.injEq, Prod.mk.injEq] at hemit
    obtain ⟨rfl, rfl, rfl⟩ := hemit
    rw [List.length_append, exprBlock_length] at hfits hbudget ⊢
    rw [← henv.slotValue_eq hbelow (by omega) hfield]
    exact exprBlock_computes e he.operandsKept ⟨hbelow.asks e, hfits, hslots, .inl he, by omega⟩
      (.of_appended hcode)

/-- Calls allocate among the slots of the expression. -/
theorem EmitCall.within {varSlots : SlotMap} {e e' : Expr} {next next' : Nat}
    (h : EmitCall varSlots e next e' next') :
    next ≤ next' ∧ next' + slotCount varSlots e' ≤ next + slotCount varSlots e := by
  induction h with
  | self => exact ⟨Nat.le_refl _, Nat.le_refl _⟩
  | _ =>
      simp only [slotCount]
      omega

/-- Subexpressions inherit what correctness needs. -/
theorem EmitCall.inherits {varSlots : SlotMap} {e e' : Expr} {next next' : Nat}
    (h : EmitCall varSlots e next e' next') (hfield : e.FieldFree)
    (he : e.BranchesReserve varSlots) : e'.FieldFree ∧ e'.BranchesReserve varSlots := by
  induction h with
  | self => exact ⟨hfield, he⟩
  | binaryLeft _ ih => exact ih hfield.1 he.1
  | binaryRight _ ih => exact ih hfield.2 he.2
  | unary _ ih => exact ih hfield he
  | ternaryCond _ ih => exact ih hfield.1 he.1
  | ternaryThen _ ih => exact ih hfield.2.1 he.2.1
  | ternaryElse _ ih => exact ih hfield.2.2 he.2.2.1
  | coalesceValue _ ih => exact ih hfield.1 he.1
  | coalesceDefault _ ih => exact ih hfield.2 he.2.1

/-- A call that keeps its result slot below the next free slot allocates. -/
theorem CallCorrect.result_lt {varSlots : SlotMap} {offset next : Nat} {e : Expr}
    (h : CallCorrect varSlots offset e next) (hfree : next + slotCount varSlots e ≤ u16Max) :
    resultSlot varSlots offset next e < next + slotCount varSlots e := by
  obtain ⟨code, result, free, hemit, hlt⟩ := h.resultBelowFree []
  rw [emitExprToSlotChecked_of_fits hfree, emitExprToSlot_eq] at hemit
  simp only [Option.some.injEq, Prod.mk.injEq] at hemit
  obtain ⟨-, rfl, rfl⟩ := hemit
  exact hlt

/-- A call that has a result allocates slots that fit. -/
theorem CallCorrect.free_le {varSlots : SlotMap} {offset next : Nat} {e : Expr}
    (h : CallCorrect varSlots offset e next) (hnext : next ≤ u16Max) :
    next + slotCount varSlots e ≤ u16Max := by
  obtain ⟨code, result, free, hemit, -⟩ := h.resultBelowFree []
  exact ((emitExprToSlotChecked_eq_some_iff hnext).mp hemit).1

/-- Correct calls only come from reserving expressions. -/
theorem branchesReserve_of_calls {varSlots : SlotMap} {offset : Nat} {e : Expr} {next : Nat}
    (hfree : next + slotCount varSlots e ≤ u16Max)
    (h : ∀ e' next', EmitCall varSlots e next e' next' → CallCorrect varSlots offset e' next') :
    e.BranchesReserve varSlots := by
  induction e generalizing next with
  | binary op left right ihl ihr =>
      simp only [slotCount] at hfree
      exact ⟨ihl (by omega) fun e' next' hcall => h e' next' (.binaryLeft hcall),
        ihr (by omega) fun e' next' hcall => h e' next' (.binaryRight hcall)⟩
  | unary op expr ih =>
      simp only [slotCount] at hfree
      exact ih (by omega) fun e' next' hcall => h e' next' (.unary hcall)
  | ternary cond thenBranch elseBranch ihc iht ihe =>
      have hlt := (h _ _ (.self _ next)).result_lt hfree
      simp only [resultSlot_ternary, slotCount] at hlt hfree
      exact ⟨ihc (by omega) fun e' next' hcall => h e' next' (.ternaryCond hcall),
        iht (by omega) fun e' next' hcall => h e' next' (.ternaryThen hcall),
        ihe (by omega) fun e' next' hcall => h e' next' (.ternaryElse hcall), by omega⟩
  | coalesce value default ihv ihd =>
      have hlt := (h _ _ (.self _ next)).result_lt hfree
      simp only [resultSlot_coalesce, slotCount] at hlt hfree
      exact ⟨ihv (by omega) fun e' next' hcall => h e' next' (.coalesceValue hcall),
        ihd (by omega) fun e' next' hcall => h e' next' (.coalesceDefault hcall), by omega⟩
  | _ => trivial

/-- All calls made while an expression is compiled are correct exactly when each
of its ternaries and coalesces reserves a slot, and the slot behind all that it
allocates still has a number of sixteen bits. -/
theorem emitted_calls_correct_iff {varSlots : SlotMap} {offset next : Nat} {e : Expr}
    (hfield : e.FieldFree) (hbelow : SlotsBelow varSlots offset next) (hnext : next ≤ u16Max) :
    (∀ e' next', EmitCall varSlots e next e' next' → CallCorrect varSlots offset e' next') ↔
      e.BranchesReserve varSlots ∧ next + slotCount varSlots e ≤ u16Max := by
  constructor
  · intro h
    have hfree := (h e next (.self e next)).free_le hnext
    exact ⟨branchesReserve_of_calls hfree h, hfree⟩
  · rintro ⟨he, hfree⟩ e' next' hcall
    obtain ⟨hfield', he'⟩ := hcall.inherits hfield he
    obtain ⟨hle, hwithin⟩ := hcall.within
    exact callCorrect_of_branchesReserve hfield' (hbelow.mono hle) he' (by omega)

theorem SlotsBelow.empty {offset next : Nat} (h : offset < next) :
    SlotsBelow ∅ offset next :=
  ⟨h, fun name s hs => by simp at hs⟩

theorem SlotsBelow.insert {varSlots : SlotMap} {offset next s : Nat}
    (h : SlotsBelow varSlots offset next) (name : String) (hs : s < next) :
    SlotsBelow (varSlots.insert name s) offset next := by
  refine ⟨h.offset, fun name' s' hs' => ?_⟩
  by_cases hname : name' = name
  · subst hname
    rw [AList.lookup_insert] at hs'
    cases hs'
    exact hs
  · rw [AList.lookup_insert_ne hname] at hs'
    exact h.vars name' s' hs'

/-- Three variables in the first slots after the offset. -/
def abcSlots : SlotMap := (((∅ : SlotMap).insert "a" 1).insert "b" 2).insert "c" 3

theorem abcSlots_below : SlotsBelow abcSlots 0 4 :=
  (((SlotsBelow.empty (by omega)).insert "a" (by omega)).insert "b" (by omega)).insert "c"
    (by omega)

/-- A ternary whose branches compute something reserves its destination. -/
theorem emitted_calls_correct_iff_abc :
    (∀ e' next', EmitCall abcSlots (.binary .add (.ternary (.ident "a") (.ident "b") (.int 5))
        (.int 1)) 4 e' next' → CallCorrect abcSlots 0 e' next') ↔
      (Expr.binary .add (.ternary (.ident "a") (.ident "b") (.int 5)) (.int 1)).BranchesReserve
          abcSlots ∧
        4 + slotCount abcSlots (.binary .add (.ternary (.ident "a") (.ident "b") (.int 5))
          (.int 1)) ≤ u16Max :=
  emitted_calls_correct_iff ⟨⟨trivial, trivial, trivial⟩, trivial⟩ abcSlots_below (by decide)

/-- `(a ? b : c) + 1`: neither branch allocates, so the constant overwrites the
ternary's result. -/
def clobberedSum : Expr :=
  .binary .add (.ternary (.ident "a") (.ident "b") (.ident "c")) (.int 1)

def abcEnv : Env
  | "a" => some 1
  | "b" => some 7
  | "c" => some 9
  | _ => none

/-- With `a = 1` and `b = 7` the sum is 8, and the compiled code computes 2. The
result slot of the ternary is the next free slot. -/
theorem clobberedSum_wrong :
    evalExpr abcEnv clobberedSum = some 8 ∧
    (emitExprToSlotChecked (.ternary (.ident "a") (.ident "b") (.ident "c")) abcSlots [] 4 0).map
      (·.2) = some (4, 4) ∧
    (interpret ⟨(emitExprToSlot clobberedSum abcSlots [] 4 0).1, 32⟩ 0 false
        { withLimits 32 .default with slots := [0, 1, 7, 9, 0, 0, 0, 0] }).1.getSlot
      (emitExprToSlot clobberedSum abcSlots [] 4 0).2.1 = 2 := by
  decide

end NFdl
