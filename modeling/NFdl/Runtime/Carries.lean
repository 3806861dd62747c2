import NFdl.Runtime.LoopCode

/-!
# Carries of compiled loops

Runs of a compiled loop are compared with the fold of the specification. The
initialisers compute the initial values, the condition and the body leave the
carries alone, and the `next` statements, executed one after another, assign
what the specification assigns at once.
-/

namespace NFdl

open BytecodeVm Machine Assign

/-- The carries have these values in the slots of the table. -/
def CarriesHold (loopPrefix : String) (carries : List Carry) (varSlots : SlotMap)
    (values : String → UInt64) (vm : BytecodeVm) : Prop :=
  ∀ carry ∈ carries, ∀ x ∈ carryKeys loopPrefix carry.name,
    slotEnv varSlots vm x = some (values carry.name)

section Slots

variable {varSlots : SlotMap} {vm vm' : BytecodeVm}

theorem slotEnv_of_lookup {x : String} {slot : Nat} (h : varSlots.lookup x = some slot) :
    slotEnv varSlots vm x = vm.slots[slot]? := by
  unfold slotEnv
  rw [h]
  rfl

theorem slotEnv_of_none {x : String} (h : varSlots.lookup x = none) :
    slotEnv varSlots vm x = none := by
  unfold slotEnv
  rw [h]
  rfl

/-- Names keep their values when their slots do. -/
theorem slotEnv_congr {x : String}
    (h : ∀ slot, varSlots.lookup x = some slot → vm'.slots[slot]? = vm.slots[slot]?) :
    slotEnv varSlots vm' x = slotEnv varSlots vm x := by
  cases hx : varSlots.lookup x with
  | none => rw [slotEnv_of_none hx, slotEnv_of_none hx]
  | some slot => rw [slotEnv_of_lookup hx, slotEnv_of_lookup hx, h slot hx]

theorem getSlot_congr {slot : Nat} (h : vm'.slots[slot]? = vm.slots[slot]?) :
    vm'.getSlot slot = vm.getSlot slot := by
  simp only [getSlot, List.getD_eq_getElem?_getD, h]

end Slots

section Inits

variable {program : BytecodeProgram} {stream : Bool} {cx : EmitContext} {loopPrefix : String}
  {lp : Loop} {s : EmitState}

/-- Different carries share no name. -/
theorem keys_disjoint_of_ne (h : CarriesDisciplined cx loopPrefix lp s) {carry other : Carry}
    (hcarry : carry ∈ lp.carries) (hother : other ∈ lp.carries) (hne : other.name ≠ carry.name)
    {x : String} (hx : x ∈ carryKeys loopPrefix carry.name) :
    x ∉ carryKeys loopPrefix other.name := by
  intro hx'
  obtain ⟨before, after, hsplit⟩ := List.append_of_mem hcarry
  rw [hsplit] at hother
  obtain hbefore | hafter := List.mem_append.mp hother
  · exact keys_disjoint h hsplit hx (mem_carriesKeys.mpr ⟨other, hbefore, hx'⟩)
  · obtain rfl | hafter := List.mem_cons.mp hafter
    · exact hne rfl
    · obtain ⟨mid, rest, rfl⟩ := List.append_of_mem hafter
      have hsplit' : lp.carries = (before ++ carry :: mid) ++ other :: rest := by simp [hsplit]
      exact keys_disjoint h hsplit' hx' (mem_carriesKeys.mpr ⟨carry, by simp, hx⟩)

/-- The value an initialiser computes is its value in the environment before the loop. -/
theorem initValue_eq (h : CarriesDisciplined cx loopPrefix lp s) {before after : List Carry}
    {carry : Carry} (hsplit : lp.carries = before ++ carry :: after) {entry vm : BytecodeVm}
    (hslots : (initState cx loopPrefix before s).slot ≤ vm.slots.length)
    (hkept : ∀ i, i < s.slot → vm.slots[i]? = entry.slots[i]?) :
    slotValue (initState cx loopPrefix before s).varSlots cx.currentOffsetSlot vm carry.init =
      evalNamed (entry.getSlot cx.currentOffsetSlot) (slotEnv s.varSlots entry) carry.init := by
  have ht := initTable h before (carry :: after) hsplit
  have houter : ∀ x, x ∉ carriesKeys loopPrefix before → slotEnv s.varSlots entry x =
      slotEnv (initState cx loopPrefix before s).varSlots vm x := by
    intro x hx
    have hsame : slotEnv (initState cx loopPrefix before s).varSlots vm x =
        slotEnv s.varSlots vm x := by
      unfold slotEnv
      rw [ht.outer x hx]
    rw [hsame]
    exact slotEnv_congr fun slot hslot => (hkept slot (h.below.vars x slot hslot)).symm
  have hsub : ∀ x, slotEnv (initState cx loopPrefix before s).varSlots vm x = none →
      slotEnv s.varSlots entry x = none := by
    intro x hx
    rw [houter x fun hmem => ?_]
    · exact hx
    · obtain ⟨other, hother, hkey⟩ := mem_carriesKeys.mp hmem
      obtain ⟨slot, hslot⟩ := ht.known other hother
      have hsome := slotEnv_isSome ht.below hslots x
      rw [hslot x hkey, hx] at hsome
      simp at hsome
  unfold slotValue
  rw [getSlot_congr (hkept _ h.below.offset)]
  exact (evalNamed_congr (slotEnv_isSome ht.below hslots) hsub
    fun x hx => houter x (h.inits_outer before carry after hsplit x hx)).symm

/-- Registering one more carry with its value. -/
theorem CarriesHold.snoc (h : CarriesDisciplined cx loopPrefix lp s) {before after : List Carry}
    {carry : Carry} (hsplit : lp.carries = before ++ carry :: after) {vm vm' : BytecodeVm}
    {values : String → UInt64} {v : UInt64}
    (hhold : CarriesHold loopPrefix before (initState cx loopPrefix before s).varSlots values vm)
    (hkept : ∀ i, i < (initState cx loopPrefix before s).slot → vm'.slots[i]? = vm.slots[i]?)
    (hv : vm'.slots[resultSlot (initState cx loopPrefix before s).varSlots cx.currentOffsetSlot
      (initState cx loopPrefix before s).slot carry.init]? = some v) :
    CarriesHold loopPrefix (before ++ [carry])
      (initState cx loopPrefix (before ++ [carry]) s).varSlots
      (Function.update values carry.name v) vm' := by
  have ht := initTable h before (carry :: after) hsplit
  intro other hmem x hx
  rw [initState_snoc]
  obtain hmem | hmem := List.mem_append.mp hmem
  · have hout : x ∉ carryKeys loopPrefix carry.name := fun hcarry =>
      keys_disjoint h hsplit hcarry (mem_carriesKeys.mpr ⟨other, hmem, hx⟩)
    have hne : other.name ≠ carry.name := fun heq => hout (heq ▸ hx)
    obtain ⟨slot, hslot⟩ := ht.known other hmem
    have hsame := (carryState_lookup cx loopPrefix carry (initState cx loopPrefix before s) x).trans
      (if_neg hout)
    have hold := hhold other hmem x hx
    rw [slotEnv_of_lookup (hslot x hx)] at hold
    rw [slotEnv_of_lookup (hsame.trans (hslot x hx)), Function.update_of_ne hne,
      hkept slot (ht.below.vars x slot (hslot x hx)), hold]
  · obtain rfl := List.mem_singleton.mp hmem
    rw [slotEnv_of_lookup ((carryState_lookup cx loopPrefix other _ x).trans (if_pos hx)),
      Function.update_self, hv]

/-- The state of a run behind the initialisers. -/
structure InitsDone (cx : EmitContext) (loopPrefix : String) (lp : Loop) (s : EmitState)
    (entry vm : BytecodeVm) (values : String → UInt64) : Prop where
  kept : ∀ i, i < s.slot → vm.slots[i]? = entry.slots[i]?
  hold : CarriesHold loopPrefix lp.carries (initState cx loopPrefix lp.carries s).varSlots values vm

theorem initState_append (cx : EmitContext) (loopPrefix : String) (before after : List Carry)
    (s : EmitState) : initState cx loopPrefix (before ++ after) s =
      initState cx loopPrefix after (initState cx loopPrefix before s) :=
  List.foldl_append

/-- The code of one initialiser stands in the program. -/
theorem LoopCode.init_block (hcode : LoopCode program cx loopPrefix lp s) {before after : List Carry}
    {carry : Carry} (hsplit : lp.carries = before ++ carry :: after) :
    BlockAt program.instructions (initState cx loopPrefix before s).instructions.length
      (exprBlock (initState cx loopPrefix before s).varSlots cx.currentOffsetSlot carry.init
        (initState cx loopPrefix before s).instructions.length
        (initState cx loopPrefix before s).slot) := by
  have hinits := hcode.inits
  rw [hsplit, initState_append] at hinits
  have hbefore := (initState_emitted cx loopPrefix before s).grows
  have hcarry := (emitCarry_emits cx loopPrefix (∅, initState cx loopPrefix before s) carry).grows
  have hafter := (initState_emitted cx loopPrefix after
    (carryState cx loopPrefix (initState cx loopPrefix before s) carry)).grows
  have hrest := (hinits.split hbefore (hcarry.trans hafter)).2
  exact contains_emitExpr (hrest.split hcarry hafter).1

theorem initState_snoc_length (cx : EmitContext) (loopPrefix : String) (before : List Carry)
    (carry : Carry) (s : EmitState) :
    (initState cx loopPrefix (before ++ [carry]) s).instructions.length =
      (initState cx loopPrefix before s).instructions.length +
        codeLength (initState cx loopPrefix before s).varSlots carry.init := by
  rw [initState_snoc]
  exact emitExpr_length (initState cx loopPrefix before s) cx carry.init

/-- The assignments of initialisers, which do not depend on other carries. -/
def initAssignments (carries : List Carry) (scope : Scope) : List (Assignment String UInt64) :=
  carries.map fun carry => (carry.name, fun _ => evalNamed scope.offset scope.env carry.init)

/-- A run through the initialisers computes the initial values, and changes no
slot from before the loop. -/
theorem inits_pass (h : CarriesDisciplined cx loopPrefix lp s) (hcode : LoopCode program cx loopPrefix lp s)
    {entry : BytecodeVm} (hslots : (initState cx loopPrefix lp.carries s).slot < entry.slots.length)
    (before after : List Carry) (hsplit : lp.carries = before ++ after) {vm : BytecodeVm} {n : Nat}
    {d : Config} {values : String → UInt64} (hlength : vm.slots.length = entry.slots.length)
    (hkept : ∀ i, i < s.slot → vm.slots[i]? = entry.slots[i]?)
    (hhold : CarriesHold loopPrefix before (initState cx loopPrefix before s).varSlots values vm)
    (hn : Steps (vmMove program stream) n
      ⟨vm, (initState cx loopPrefix before s).instructions.length⟩ d)
    (hd : ¬ AddressIn (initState cx loopPrefix before s).instructions.length
      (loopLayout cx loopPrefix lp s).head d) :
    ∃ m k vm' values', n = m + k ∧
      StepsIn (vmMove program stream) (AddressIn
        (initState cx loopPrefix before s).instructions.length (loopLayout cx loopPrefix lp s).head)
        m ⟨vm, (initState cx loopPrefix before s).instructions.length⟩
        ⟨vm', (loopLayout cx loopPrefix lp s).head⟩ ∧
      Steps (vmMove program stream) k ⟨vm', (loopLayout cx loopPrefix lp s).head⟩ d ∧
      atOnceFrom (fun _ => 0) (initAssignments after (slotScope s.varSlots cx.currentOffsetSlot entry))
        values = some values' ∧
      InitsDone cx loopPrefix lp s entry vm' values' := by
  induction after generalizing before vm n values with
  | nil =>
      rw [List.append_nil] at hsplit
      subst hsplit
      exact ⟨0, n, vm, values, (Nat.zero_add n).symm, .stay _, hn, rfl, hkept, hhold⟩
  | cons carry after ih =>
      have ht := initTable h before (carry :: after) hsplit
      have hsplit' : lp.carries = (before ++ [carry]) ++ after := by simp [hsplit]
      have hrest := initState_emitted cx loopPrefix after
        (initState cx loopPrefix (before ++ [carry]) s)
      rw [← initState_append, ← hsplit'] at hrest
      have hlen := initState_snoc_length cx loopPrefix before carry s
      have hslot := carryState_slot cx loopPrefix carry (initState cx loopPrefix before s)
      rw [← initState_snoc] at hslot
      have hle : _ ≤ (loopLayout cx loopPrefix lp s).head := hrest.length_le
      have hslot_le := hrest.slot_le
      have hfits := Nat.lt_of_lt_of_le hcode.head_lt hcode.nexts_le
      have hclose := hcode.close_lt
      have hleave : ¬ AddressIn (initState cx loopPrefix before s).instructions.length
          ((initState cx loopPrefix before s).instructions.length +
            codeLength (initState cx loopPrefix before s).varSlots carry.init) d :=
        fun hin => hd ⟨hin.1, Nat.lt_of_lt_of_le hin.2 (hlen ▸ hle)⟩
      obtain ⟨m, k, vm₁, rfl, hpass, hn'⟩ := exprBlock_passes carry.init
        (h.inits_kept before carry after hsplit).1 (ht.below.asks _) (by omega) (by omega)
        (hcode.init_block hsplit) hn hleave
      obtain ⟨v, hv, hresult⟩ := hpass.value
      rw [initValue_eq h hsplit (by omega) hkept] at hv
      have hlength' := hpass.quiet.slots_length.trans hlength
      have hkept' : ∀ i, i < s.slot → vm₁.slots[i]? = entry.slots[i]? := fun i hi =>
        (hpass.quiet.below i (Nat.lt_of_lt_of_le hi ht.slot_le)).trans (hkept i hi)
      have hsteps := hpass.steps
      rw [← hlen] at hn' hsteps
      obtain ⟨m', k', vm', values', rfl, hsteps', hn'', hvalues, hdone⟩ :=
        ih (before ++ [carry]) hsplit' hlength' hkept'
          (hhold.snoc h hsplit hpass.quiet.below hresult) hn'
          (fun hin => hd ⟨by have := hin.1; omega, hin.2⟩)
      refine ⟨m + m', k', vm', values', by omega, ?_, hn'', ?_, hdone⟩
      · exact (hsteps.mono fun c hc => ⟨hc.1, Nat.lt_of_lt_of_le hc.2 hle⟩).append
          (hsteps'.mono fun c hc => ⟨by have := hc.1; omega, hc.2⟩)
      · change (evalNamed (entry.getSlot cx.currentOffsetSlot) (slotEnv s.varSlots entry)
          carry.init).bind _ = _
        rw [hv]
        exact hvalues

end Inits

section Nexts

variable {program : BytecodeProgram} {stream : Bool} {cx : EmitContext} {loopPrefix : String}
  {lp : Loop} {s t : EmitState} {u vm : BytecodeVm} {values : String → UInt64} {nxt : NextStmt}

/-- Slots of names that are no assigned carries have the values they had at `u`. -/
def NextsKept (cx : EmitContext) (loopPrefix : String) (lp : Loop) (s : EmitState)
    (u vm : BytecodeVm) : Prop :=
  ∀ i, i < (bodyState cx loopPrefix lp s).slot →
    (∀ nxt ∈ lp.nexts, (bodyState cx loopPrefix lp s).varSlots.lookup nxt.name ≠ some i) →
    vm.slots[i]? = u.slots[i]?

/-- The slot that a `next` statement assigns is its carry's own. -/
theorem nextTarget_own (hcx : InlinesBlocks cx) (h : CarriesDisciplined cx loopPrefix lp s)
    (hnxt : nxt ∈ lp.nexts)
    (htable : t.varSlots = (bodyState cx loopPrefix lp s).varSlots) :
    s.slot ≤ nextTarget loopPrefix nxt t ∧
      (∀ x ∈ carryKeys loopPrefix nxt.name,
        (bodyState cx loopPrefix lp s).varSlots.lookup x = some (nextTarget loopPrefix nxt t)) ∧
      ∀ x slot, (bodyState cx loopPrefix lp s).varSlots.lookup x = some slot →
        x ∉ carryKeys loopPrefix nxt.name → slot ≠ nextTarget loopPrefix nxt t := by
  obtain ⟨carry, hcarry, hname⟩ := h.nexts_carry nxt hnxt
  obtain ⟨slot, hle, hslot, hother⟩ := (loopTable hcx h).own carry hcarry ⟨nxt, hnxt, hname.symm⟩
  rw [hname] at hslot hother
  have htarget : nextTarget loopPrefix nxt t = slot := by
    unfold nextTarget
    rw [htable, hslot _ (by simp)]
    rfl
  rw [htarget]
  exact ⟨hle, hslot, hother⟩

/-- The environment of the specification is what the slots say. -/
theorem bindCarries_slotEnv (hcx : InlinesBlocks cx) (h : CarriesDisciplined cx loopPrefix lp s)
    (hhold : CarriesHold loopPrefix lp.carries (bodyState cx loopPrefix lp s).varSlots values vm)
    (hkept : NextsKept cx loopPrefix lp s u vm) :
    bindCarries loopPrefix lp.carries values (slotEnv (bodyState cx loopPrefix lp s).varSlots u) =
      slotEnv (bodyState cx loopPrefix lp s).varSlots vm := by
  funext x
  unfold bindCarries
  split
  · rename_i carry hfind
    have hkey : x ∈ carryKeys loopPrefix carry.name := by simpa using List.find?_some hfind
    exact (hhold carry (List.mem_of_find?_eq_some hfind) x hkey).symm
  · rename_i hfind
    have hkey : ∀ carry ∈ lp.carries, x ∉ carryKeys loopPrefix carry.name := by
      intro carry hcarry
      simpa using List.find?_eq_none.mp hfind carry hcarry
    refine (slotEnv_congr fun slot hslot => ?_).symm
    refine hkept slot (h.body_below.vars x slot hslot) fun nxt hnxt htarget => ?_
    obtain ⟨carry, hcarry, hname⟩ := h.nexts_carry nxt hnxt
    obtain ⟨-, hown, hother⟩ := nextTarget_own hcx h hnxt rfl
    have heq := Option.some.inj ((hown nxt.name (by simp)).symm.trans htarget)
    exact hother x slot hslot (hname ▸ hkey carry hcarry) heq.symm

/-- The value of a `next` expression is its value in the specification. -/
theorem nextValue_eq (hcx : InlinesBlocks cx) (h : CarriesDisciplined cx loopPrefix lp s)
    (hhold : CarriesHold loopPrefix lp.carries (bodyState cx loopPrefix lp s).varSlots values vm)
    (hkept : NextsKept cx loopPrefix lp s u vm) (e : Expr) :
    slotValue (bodyState cx loopPrefix lp s).varSlots cx.currentOffsetSlot vm e =
      evalNamed (u.getSlot cx.currentOffsetSlot) (bindCarries loopPrefix lp.carries values
        (slotEnv (bodyState cx loopPrefix lp s).varSlots u)) e := by
  have hoffset : vm.slots[cx.currentOffsetSlot]? = u.slots[cx.currentOffsetSlot]? := by
    refine hkept _ h.body_below.offset fun nxt hnxt htarget => ?_
    obtain ⟨hle, hown, -⟩ := nextTarget_own hcx h hnxt rfl
    have heq := Option.some.inj ((hown nxt.name (by simp)).symm.trans htarget)
    have hlt := h.below.offset
    omega
  rw [bindCarries_slotEnv hcx h hhold hkept, ← getSlot_congr hoffset]
  rfl

/-- Assigning a carry changes that carry and nothing else. -/
theorem assign_carry (hcx : InlinesBlocks cx) (h : CarriesDisciplined cx loopPrefix lp s)
    (hnxt : nxt ∈ lp.nexts)
    (htable : t.varSlots = (bodyState cx loopPrefix lp s).varSlots)
    (hslots : (bodyState cx loopPrefix lp s).slot ≤ vm.slots.length)
    (hhold : CarriesHold loopPrefix lp.carries (bodyState cx loopPrefix lp s).varSlots values vm)
    (hkept : NextsKept cx loopPrefix lp s u vm) (v : UInt64) :
    CarriesHold loopPrefix lp.carries (bodyState cx loopPrefix lp s).varSlots
        (Function.update values nxt.name v) (vm.writeSlot (nextTarget loopPrefix nxt t) v) ∧
      NextsKept cx loopPrefix lp s u (vm.writeSlot (nextTarget loopPrefix nxt t) v) := by
  obtain ⟨carry, hcarry, hname⟩ := h.nexts_carry nxt hnxt
  obtain ⟨-, hown, hother⟩ := nextTarget_own hcx h hnxt htable
  have htarget := hown nxt.name (by simp)
  constructor
  · intro other hmem x hx
    by_cases heq : other.name = nxt.name
    · rw [heq] at hx ⊢
      rw [slotEnv_of_lookup (hown x hx), Function.update_self, writeSlot_slots,
        List.getElem?_set_self (Nat.lt_of_lt_of_le (h.body_below.vars _ _ htarget) hslots)]
    · rw [Function.update_of_ne heq, ← hhold other hmem x hx]
      refine slotEnv_congr fun slot hslot => ?_
      have hout : x ∉ carryKeys loopPrefix nxt.name := by
        rw [← hname] at heq ⊢
        exact fun hin => keys_disjoint_of_ne h hcarry hmem heq hin hx
      rw [writeSlot_slots, List.getElem?_set_ne (hother x slot hslot hout).symm]
  · intro i hi hout
    rw [writeSlot_slots, List.getElem?_set_ne fun heq =>
      hout nxt hnxt (htarget.trans (congrArg some heq))]
    exact hkept i hi hout

/-- A run goes on from a copy. -/
theorem steps_copySlot {ip src dst n : Nat} {d : Config} {v : UInt64}
    (hinstr : program.instructions[ip]? = some (.copySlot src dst))
    (hv : vm.slots[src]? = some v) (hn : Steps (vmMove program stream) n ⟨vm, ip⟩ d)
    (hd : d.ip ≠ ip) : ∃ k, n = k + 1 ∧
      vmMove program stream ⟨vm, ip⟩ = .ok ⟨vm.tick.writeSlot dst v, ip + 1⟩ ∧
      Steps (vmMove program stream) k ⟨vm.tick.writeSlot dst v, ip + 1⟩ d := by
  cases hn with
  | stay => exact absurd rfl hd
  | @go k _ c _ hmove hrest =>
      obtain ⟨instr, hinstr', hbudget, -⟩ := vmMove_eq_ok.mp hmove
      have hmove' : vmMove program stream ⟨vm, ip⟩ = .ok _ :=
        vmMove_store hinstr hbudget (execInstr_copySlot hv)
      cases hmove.symm.trans hmove'
      exact ⟨k, rfl, hmove, hrest⟩

theorem emitNext_length (cx : EmitContext) (loopPrefix : String) (nxt : NextStmt) (t : EmitState) :
    (emitNext cx loopPrefix t nxt).instructions.length =
      t.instructions.length + codeLength t.varSlots nxt.value + 1 := by
  have hexpr := emitExpr_length t cx nxt.value
  simp only [emitNext, EmitState.push, List.length_append, List.length_singleton, hexpr]

theorem emitNext_slot (cx : EmitContext) (loopPrefix : String) (nxt : NextStmt) (t : EmitState) :
    (emitNext cx loopPrefix t nxt).slot = t.slot + slotCount t.varSlots nxt.value := by
  simp only [emitNext, EmitState.emitExpr, EmitState.push, emitExprToSlot_eq]

/-- The code of one `next` statement: its value, and the copy into its target. -/
theorem emitNext_block (h : Contains program t (emitNext cx loopPrefix t nxt)) :
    BlockAt program.instructions t.instructions.length
        (exprBlock t.varSlots cx.currentOffsetSlot nxt.value t.instructions.length t.slot) ∧
      program.instructions[t.instructions.length + codeLength t.varSlots nxt.value]? =
        some (.copySlot (resultSlot t.varSlots cx.currentOffsetSlot t.slot nxt.value)
          (nextTarget loopPrefix nxt t)) := by
  have hemit : (emitNext cx loopPrefix t nxt).instructions = t.instructions ++
      (exprBlock t.varSlots cx.currentOffsetSlot nxt.value t.instructions.length t.slot ++
        [.copySlot (resultSlot t.varSlots cx.currentOffsetSlot t.slot nxt.value)
          (nextTarget loopPrefix nxt t)]) := by
    simp only [emitNext, EmitState.emitExpr, EmitState.push, emitExprToSlot_eq, List.append_assoc]
  unfold Contains at h
  rw [hemit, List.drop_left] at h
  exact ⟨h.left, (h.right_at (by rw [exprBlock_length])).head⟩

/-- The state of a run behind some `next` statements. -/
structure NextsDone (cx : EmitContext) (loopPrefix : String) (lp : Loop) (s : EmitState)
    (u vm : BytecodeVm) (values : String → UInt64) : Prop where
  length : vm.slots.length = u.slots.length
  kept : NextsKept cx loopPrefix lp s u vm
  hold : CarriesHold loopPrefix lp.carries (bodyState cx loopPrefix lp s).varSlots values vm

/-- Slots above those that matter may change. -/
theorem NextsDone.quiet (h : CarriesDisciplined cx loopPrefix lp s) {values : String → UInt64}
    {vm vm' : BytecodeVm} (hdone : NextsDone cx loopPrefix lp s u vm values)
    (hlow : ∀ i, i < (bodyState cx loopPrefix lp s).slot → vm'.slots[i]? = vm.slots[i]?)
    (hlength : vm'.slots.length = vm.slots.length) : NextsDone cx loopPrefix lp s u vm' values where
  length := hlength.trans hdone.length
  kept := fun i hi hout => (hlow i hi).trans (hdone.kept i hi hout)
  hold := fun carry hcarry x hx => by
    rw [← hdone.hold carry hcarry x hx]
    exact slotEnv_congr fun slot hslot => hlow slot (h.body_below.vars x slot hslot)

/-- A run through a `next` statement computes the value above all slots that matter, and then
copies it to the carry. -/
theorem next_pass (hcx : InlinesBlocks cx) (h : CarriesDisciplined cx loopPrefix lp s)
    (hnxt : nxt ∈ lp.nexts) {t : EmitState}
    (htable : t.varSlots = (bodyState cx loopPrefix lp s).varSlots)
    (hslot : (bodyState cx loopPrefix lp s).slot ≤ t.slot)
    (hcode : Contains program t (emitNext cx loopPrefix t nxt))
    (hfits : (emitNext cx loopPrefix t nxt).instructions.length ≤ u16Max)
    (hslots : (emitNext cx loopPrefix t nxt).slot < u.slots.length)
    {vm : BytecodeVm} {values : String → UInt64} {n : Nat} {d : Config}
    (hdone : NextsDone cx loopPrefix lp s u vm values)
    (hn : Steps (vmMove program stream) n ⟨vm, t.instructions.length⟩ d)
    (hd : ¬ AddressIn t.instructions.length
      (emitNext cx loopPrefix t nxt).instructions.length d) :
    ∃ m k vm' v, n = m + k ∧
      StepsIn (vmMove program stream) (AddressIn t.instructions.length
        (emitNext cx loopPrefix t nxt).instructions.length)
        m ⟨vm, t.instructions.length⟩
        ⟨vm', (emitNext cx loopPrefix t nxt).instructions.length⟩ ∧
      Steps (vmMove program stream) k
        ⟨vm', (emitNext cx loopPrefix t nxt).instructions.length⟩ d ∧
      evalNamed (u.getSlot cx.currentOffsetSlot) (bindCarries loopPrefix lp.carries values
        (slotEnv (bodyState cx loopPrefix lp s).varSlots u)) nxt.value = some v ∧
      NextsDone cx loopPrefix lp s u vm' (Function.update values nxt.name v) := by
  obtain ⟨hblock, hcopy⟩ := emitNext_block hcode
  have hlen := emitNext_length cx loopPrefix nxt t
  have hslot₁ := emitNext_slot cx loopPrefix nxt t
  have hlength := hdone.length
  have hbelow : SlotsBelow t.varSlots cx.currentOffsetSlot t.slot := by
    rw [htable]
    exact h.body_below.mono hslot
  have hkept : nxt.value.OperandsKept t.varSlots := by
    rw [htable]
    exact h.nexts_kept nxt hnxt
  obtain ⟨m, k, vm₁, rfl, hpass, hn'⟩ := exprBlock_passes nxt.value hkept (hbelow.asks _)
    (by omega) (by omega) hblock hn (fun hin => hd ⟨hin.1, by have := hin.2; omega⟩)
  obtain ⟨v, hv, hresult⟩ := hpass.value
  rw [htable, nextValue_eq hcx h hdone.hold hdone.kept] at hv
  obtain ⟨k, rfl, hmove, hn''⟩ := steps_copySlot hcopy hresult hn' fun hip =>
    hd ⟨by omega, by omega⟩
  have hdone₁ : NextsDone cx loopPrefix lp s u vm₁.tick values :=
    hdone.quiet h (fun i hi => hpass.quiet.below i (Nat.lt_of_lt_of_le hi hslot))
      hpass.quiet.slots_length
  have hlength₁ := hdone₁.length
  obtain ⟨hhold₂, hkept₂⟩ :=
    assign_carry hcx h hnxt htable (by omega) hdone₁.hold hdone₁.kept v
  rw [← hlen] at hn'' hmove
  refine ⟨m + 1, k, _, v, by omega, ?_, hn'', hv,
    ⟨by rw [writeSlot_slots, List.length_set, hlength₁], hkept₂, hhold₂⟩⟩
  refine (hpass.steps.mono fun c hc => ⟨hc.1, by have := hc.2; omega⟩).append
    (StepsIn.one ⟨?_, ?_⟩ hmove)
  · dsimp only
    omega
  · dsimp only
    omega

/-- A run through `next` statements executes their assignments in turn. -/
theorem nexts_pass (hcx : InlinesBlocks cx) (h : CarriesDisciplined cx loopPrefix lp s)
    (nexts : List NextStmt) (hnexts : ∀ nxt ∈ nexts, nxt ∈ lp.nexts) {t : EmitState}
    (htable : t.varSlots = (bodyState cx loopPrefix lp s).varSlots)
    (hslot : (bodyState cx loopPrefix lp s).slot ≤ t.slot)
    (hcode : Contains program t (nexts.foldl (emitNext cx loopPrefix) t))
    (hfits : (nexts.foldl (emitNext cx loopPrefix) t).instructions.length ≤ u16Max)
    (hslots : (nexts.foldl (emitNext cx loopPrefix) t).slot < u.slots.length)
    {vm : BytecodeVm} {values : String → UInt64} {n : Nat} {d : Config}
    (hdone : NextsDone cx loopPrefix lp s u vm values)
    (hn : Steps (vmMove program stream) n ⟨vm, t.instructions.length⟩ d)
    (hd : ¬ AddressIn t.instructions.length
      (nexts.foldl (emitNext cx loopPrefix) t).instructions.length d) :
    ∃ m k vm' values', n = m + k ∧
      StepsIn (vmMove program stream) (AddressIn t.instructions.length
        (nexts.foldl (emitNext cx loopPrefix) t).instructions.length)
        m ⟨vm, t.instructions.length⟩
        ⟨vm', (nexts.foldl (emitNext cx loopPrefix) t).instructions.length⟩ ∧
      Steps (vmMove program stream) k
        ⟨vm', (nexts.foldl (emitNext cx loopPrefix) t).instructions.length⟩ d ∧
      inTurn (nexts.map fun nxt => (nxt.name, fun values =>
        evalNamed (u.getSlot cx.currentOffsetSlot) (bindCarries loopPrefix lp.carries values
          (slotEnv (bodyState cx loopPrefix lp s).varSlots u)) nxt.value)) values = some values' ∧
      NextsDone cx loopPrefix lp s u vm' values' := by
  induction nexts generalizing t vm n values with
  | nil => exact ⟨0, n, vm, values, (Nat.zero_add n).symm, .stay _, hn, rfl, hdone⟩
  | cons nxt nexts ih =>
      have hnxt := hnexts nxt (List.mem_cons_self ..)
      rw [List.foldl_cons] at *
      have hfirst := emitNext_emits cx loopPrefix nxt t
      have hrest := emitNexts_emitted cx loopPrefix nexts (emitNext cx loopPrefix t nxt)
      obtain ⟨hcode₁, hcode₂⟩ := hcode.split hfirst.grows hrest.grows
      have hlen := emitNext_length cx loopPrefix nxt t
      have hslot₁ := emitNext_slot cx loopPrefix nxt t
      have hle := hrest.length_le
      have hslot_le := hrest.slot_le
      dsimp only at hle hslot_le
      obtain ⟨m, k, vm₁, v, rfl, hsteps, hn', hv, hdone₁⟩ := next_pass hcx h hnxt htable hslot
        hcode₁ (by omega) (by omega) hdone hn (fun hin => hd ⟨hin.1, by have := hin.2; omega⟩)
      have htable₁ : (emitNext cx loopPrefix t nxt).varSlots =
          (bodyState cx loopPrefix lp s).varSlots := htable
      obtain ⟨m', k', vm', values', rfl, hsteps', hlast, hvalues, hdone'⟩ :=
        ih (fun nxt' hmem => hnexts nxt' (List.mem_cons_of_mem _ hmem)) htable₁ (by omega) hcode₂
          hfits hslots hdone₁ hn' (fun hin => hd ⟨by have := hin.1; omega, hin.2⟩)
      refine ⟨m + m', k', vm', values', by omega, ?_, hlast, ?_, hdone'⟩
      · exact (hsteps.mono fun c hc => ⟨hc.1, by have := hc.2; omega⟩).append
          (hsteps'.mono fun c hc => ⟨by have := hc.1; omega, hc.2⟩)
      · simp only [List.map_cons, inTurn]
        rw [hv]
        exact hvalues

end Nexts

end NFdl
