import NFdl.Runtime.Carries
import NFdl.Bytecode.Cursor

/-!
# Loops compute their fold

Every run of a disciplined loop computes the fold of the specification, and the
carry updates change no other name. Swapped carries and a carry that is
initialised by a bare name show that the discipline is needed.
-/

namespace NFdl

open BytecodeVm Machine Assign

/-- The state is in the loop. In the condition and the body its instruction does
not write the slot of a carry. -/
structure InLoop (program : BytecodeProgram) (cx : EmitContext) (loopPrefix : String) (lp : Loop)
    (s : EmitState) (c : Config) : Prop where
  ge : (loopLayout cx loopPrefix lp s).inits ≤ c.ip
  le : c.ip ≤ (loopLayout cx loopPrefix lp s).close
  keeps : (loopLayout cx loopPrefix lp s).head ≤ c.ip → c.ip < (loopLayout cx loopPrefix lp s).nexts →
    ∀ instr slot, program.instructions[c.ip]? = some instr → instr.dest = some slot →
      ∀ carry ∈ lp.carries,
        (initState cx loopPrefix lp.carries s).varSlots.lookup carry.name ≠ some slot

/-- A run of `n` moves from the entry of a loop to a point before its condition. -/
structure LoopRun (program : BytecodeProgram) (stream : Bool) (cx : EmitContext)
    (loopPrefix : String) (lp : Loop) (s : EmitState) (n : Nat) (e d : Config) : Prop where
  enters : e.ip = (loopLayout cx loopPrefix lp s).inits
  arrives : d.ip = (loopLayout cx loopPrefix lp s).head
  slots : (nextState cx loopPrefix lp s).slot < e.vm.slots.length
  stays : StepsIn (vmMove program stream) (InLoop program cx loopPrefix lp s) n e d

/-- The scopes at the ends of the body, one for each iteration of the run. -/
def iterationScopes (program : BytecodeProgram) (stream : Bool) (cx : EmitContext)
    (loopPrefix : String) (lp : Loop) (s : EmitState) (n : Nat) (e : Config) : List Scope :=
  (visits (vmMove program stream) (fun c => c.ip = (loopLayout cx loopPrefix lp s).nexts) n e).map
    fun u => slotScope (bodyState cx loopPrefix lp s).varSlots cx.currentOffsetSlot u.vm

/-- The offset and all names but those excepted have the same values. -/
structure NamesKept (varSlots : SlotMap) (offset : Nat) (except : List String)
    (vm vm' : BytecodeVm) : Prop where
  offset : vm'.getSlot offset = vm.getSlot offset
  names : ∀ x, x ∉ except → slotEnv varSlots vm' x = slotEnv varSlots vm x

/-- The carries of a loop behave as the specification says: after every number of
iterations they have the values of the fold, and neither the initialisers nor
the updates change the value of another name or the offset. -/
structure CarriesFold (program : BytecodeProgram) (stream : Bool) (cx : EmitContext)
    (loopPrefix : String) (lp : Loop) (s : EmitState) : Prop where
  fold : ∀ n e d, LoopRun program stream cx loopPrefix lp s n e d → ∃ values,
    foldCarries loopPrefix lp (slotScope s.varSlots cx.currentOffsetSlot e.vm)
        (iterationScopes program stream cx loopPrefix lp s n e) = some values ∧
      CarriesHold loopPrefix lp.carries (bodyState cx loopPrefix lp s).varSlots values d.vm
  inits_keep : ∀ n e d, e.ip = (loopLayout cx loopPrefix lp s).inits →
    d.ip = (loopLayout cx loopPrefix lp s).head →
    (nextState cx loopPrefix lp s).slot < e.vm.slots.length →
    StepsIn (vmMove program stream)
      (AddressIn (loopLayout cx loopPrefix lp s).inits (loopLayout cx loopPrefix lp s).head) n e d →
    NamesKept s.varSlots cx.currentOffsetSlot [] e.vm d.vm
  updates_keep : ∀ n u d, u.ip = (loopLayout cx loopPrefix lp s).nexts →
    d.ip = (loopLayout cx loopPrefix lp s).head →
    (nextState cx loopPrefix lp s).slot < u.vm.slots.length →
    StepsIn (vmMove program stream) (AddressIn (loopLayout cx loopPrefix lp s).nexts
      ((loopLayout cx loopPrefix lp s).close + 1)) n u d →
    NamesKept s.varSlots cx.currentOffsetSlot [] u.vm d.vm ∧
      NamesKept (bodyState cx loopPrefix lp s).varSlots cx.currentOffsetSlot
        (carriesKeys loopPrefix lp.carries) u.vm d.vm

section Head

variable {program : BytecodeProgram} {stream : Bool} {cx : EmitContext} {loopPrefix : String}
  {lp : Loop} {s : EmitState} {c c' a d : Config}

/-- From the condition and the body control goes on behind the loop's first
instruction, or leaves the loop. -/
theorem head_move (hcode : LoopCode program cx loopPrefix lp s)
    (hge : (loopLayout cx loopPrefix lp s).head ≤ c.ip)
    (hlt : c.ip < (loopLayout cx loopPrefix lp s).nexts)
    (hmove : vmMove program stream c = .ok c') :
    (loopLayout cx loopPrefix lp s).head < c'.ip ∧ c'.ip ≤ (loopLayout cx loopPrefix lp s).nexts ∨
      c'.ip = (loopLayout cx loopPrefix lp s).close + 1 := by
  obtain ⟨instr, hinstr, hip | rfl | ⟨condSlot, rfl⟩⟩ := vmMove_control hmove
  · exact .inl ⟨by omega, by omega⟩
  · exact .inl (hcode.head _ _ hge hlt hinstr)
  · exact hcode.head _ _ hge hlt hinstr

/-- A run that stays in the loop is not behind its end. -/
theorem ip_ne_exit (hcode : LoopCode program cx loopPrefix lp s) {n : Nat}
    (h : StepsIn (vmMove program stream) (InLoop program cx loopPrefix lp s) n c d)
    (hd : d.ip = (loopLayout cx loopPrefix lp s).head) :
    c.ip ≠ (loopLayout cx loopPrefix lp s).close + 1 := by
  intro hexit
  have hhead := hcode.head_lt
  have hnexts := hcode.nexts_le
  cases h with
  | stay => omega
  | go hin _ _ =>
      have hle := hin.le
      omega

/-- A run that moves on from the head of the loop reaches its `next` statements. -/
theorem head_pass (hcode : LoopCode program cx loopPrefix lp s) {n : Nat}
    (ha : a.ip = (loopLayout cx loopPrefix lp s).head)
    (hd : d.ip = (loopLayout cx loopPrefix lp s).head)
    (h : StepsIn (vmMove program stream) (InLoop program cx loopPrefix lp s) (n + 1) a d) :
    ∃ m k u, n + 1 = (m + 1) + k ∧
      StepsIn (vmMove program stream) (fun c => InLoop program cx loopPrefix lp s c ∧
        AddressIn (loopLayout cx loopPrefix lp s).head (loopLayout cx loopPrefix lp s).nexts c)
        (m + 1) a u ∧
      u.ip = (loopLayout cx loopPrefix lp s).nexts ∧
      StepsIn (vmMove program stream) (InLoop program cx loopPrefix lp s) k u d := by
  have hhead := hcode.head_lt
  obtain ⟨hin, b, hmove, hrest⟩ := StepsIn.succ_iff.mp h
  let Inner : Config → Prop := fun c => (loopLayout cx loopPrefix lp s).head < c.ip ∧
    c.ip < (loopLayout cx loopPrefix lp s).nexts
  obtain ⟨m, k, u, rfl, hinner, hout, hlast⟩ :=
    hrest.first_outside Inner fun hd' => by have := hd'.1; omega
  have hb := head_move hcode (Nat.le_of_eq ha.symm) (by omega) hmove
  have hu := hinner.invariant (R := fun c => (loopLayout cx loopPrefix lp s).head < c.ip ∧
      c.ip ≤ (loopLayout cx loopPrefix lp s).nexts ∨
      c.ip = (loopLayout cx loopPrefix lp s).close + 1)
    (fun c c' hc _ hmove => head_move hcode (Nat.le_of_lt hc.2.1) hc.2.2 hmove) hb
  have hu' := hu.resolve_right (ip_ne_exit hcode hlast hd)
  refine ⟨m, k, u, by omega, .go ⟨hin, Nat.le_of_eq ha.symm, by omega⟩ hmove
    (hinner.mono fun c hc => ⟨hc.1, Nat.le_of_lt hc.2.1, hc.2.2⟩), ?_, hlast⟩
  by_contra hne
  exact hout ⟨hu'.1, by omega⟩

/-- The condition and the body leave the carries alone. -/
theorem head_keeps {m : Nat}
    (h : StepsIn (vmMove program stream) (fun c => InLoop program cx loopPrefix lp s c ∧
      AddressIn (loopLayout cx loopPrefix lp s).head (loopLayout cx loopPrefix lp s).nexts c) m a c)
    {carry : Carry} (hcarry : carry ∈ lp.carries) {slot : Nat}
    (hslot : (initState cx loopPrefix lp.carries s).varSlots.lookup carry.name = some slot) :
    c.vm.slots[slot]? = a.vm.slots[slot]? := by
  refine h.relates (R := fun a b => b.vm.slots[slot]? = a.vm.slots[slot]?) (fun _ => rfl)
    (fun _ _ _ hab hbc => hbc.trans hab) fun b b' hb hmove => ?_
  refine vmMove_slots hmove fun instr hinstr hdest => ?_
  exact hb.1.keeps hb.2.1 hb.2.2 instr slot hinstr hdest.symm carry hcarry hslot

end Head

section Iteration

variable {program : BytecodeProgram} {stream : Bool} {cx : EmitContext} {loopPrefix : String}
  {lp : Loop} {s : EmitState} {u vm : BytecodeVm} {values : String → UInt64}

/-- The `next` statements of a disciplined loop are independent. -/
theorem nextAssignments_independent (hcx : InlinesBlocks cx)
    (h : CarriesDisciplined cx loopPrefix lp s)
    (hslots : (bodyState cx loopPrefix lp s).slot ≤ u.slots.length) :
    Independent (nextAssignments loopPrefix lp
      (slotScope (bodyState cx loopPrefix lp s).varSlots cx.currentOffsetSlot u)) := by
  unfold Independent nextAssignments
  rw [List.pairwise_map]
  refine h.nexts_independent.imp fun {earlier later} hrefs values v => ?_
  have hbound : ∀ values x, (bindCarries loopPrefix lp.carries values
      (slotEnv (bodyState cx loopPrefix lp s).varSlots u) x).isSome =
        ((bodyState cx loopPrefix lp s).varSlots.lookup x).isSome := by
    intro values x
    unfold bindCarries
    split
    · rename_i carry hfind
      have hkey : x ∈ carryKeys loopPrefix carry.name := by simpa using List.find?_some hfind
      obtain ⟨slot, hslot⟩ := (loopTable hcx h).known carry (List.mem_of_find?_eq_some hfind)
      rw [hslot x hkey]
      rfl
    · exact slotEnv_isSome h.body_below hslots x
  refine evalNamed_congr (hbound values) (fun x hx => ?_) fun x hx => ?_
  · have hnone := hbound values x
    rw [hx, ← hbound (Function.update values earlier.name v) x] at hnone
    exact Option.isSome_eq_false_iff.mp hnone.symm |> Option.isNone_iff_eq_none.mp
  · unfold bindCarries
    split
    · rename_i carry hfind
      have hkey : x ∈ carryKeys loopPrefix carry.name := by simpa using List.find?_some hfind
      have hne : carry.name ≠ earlier.name := fun heq => hrefs x (heq ▸ hkey) hx
      rw [Function.update_of_ne hne]
    · rfl

/-- The code of the `next` statements only goes forward. -/
theorem nexts_forward (cx : EmitContext) (loopPrefix : String) (nexts : List NextStmt)
    (t : EmitState) (hfits : (nexts.foldl (emitNext cx loopPrefix) t).instructions.length ≤ u16Max) :
    AtEach (ExprInstr (nexts.foldl (emitNext cx loopPrefix) t).instructions.length)
      t.instructions.length
      ((nexts.foldl (emitNext cx loopPrefix) t).instructions.drop t.instructions.length) := by
  induction nexts generalizing t with
  | nil =>
      rw [List.foldl_nil, List.drop_length]
      exact .nil
  | cons nxt nexts ih =>
      rw [List.foldl_cons] at *
      have hfirst := emitNext_emits cx loopPrefix nxt t
      have hrest := emitNexts_emitted cx loopPrefix nexts (emitNext cx loopPrefix t nxt)
      have hlen := emitNext_length cx loopPrefix nxt t
      have hle := hrest.length_le
      dsimp only at hle
      rw [drop_trans hfirst.grows hrest.grows]
      have hemit : (emitNext cx loopPrefix t nxt).instructions = t.instructions ++
          (exprBlock t.varSlots cx.currentOffsetSlot nxt.value t.instructions.length t.slot ++
            [.copySlot (resultSlot t.varSlots cx.currentOffsetSlot t.slot nxt.value)
              (nextTarget loopPrefix nxt t)]) := by
        simp only [emitNext, EmitState.emitExpr, EmitState.push, emitExprToSlot_eq,
          List.append_assoc]
      refine .append ?_ ?_
      · rw [hemit, List.drop_left]
        refine .append ((exprBlock_instrs _ _ nxt.value (by omega)).mono fun _ _ _ hi =>
          hi.mono (by omega)) (.singleton trivial)
      · have hlen' : t.instructions.length + ((emitNext cx loopPrefix t nxt).instructions.drop
            t.instructions.length).length = (emitNext cx loopPrefix t nxt).instructions.length := by
          rw [List.length_drop]
          omega
        rw [hlen']
        exact ih _ hfits

/-- The environment at `u` gives the carries values, whatever they are. -/
theorem exists_carriesHold (hcx : InlinesBlocks cx) (h : CarriesDisciplined cx loopPrefix lp s)
    (hslots : (bodyState cx loopPrefix lp s).slot ≤ u.slots.length) :
    ∃ values, CarriesHold loopPrefix lp.carries (bodyState cx loopPrefix lp s).varSlots values u := by
  refine ⟨fun name => (slotEnv (bodyState cx loopPrefix lp s).varSlots u name).getD 0, ?_⟩
  intro carry hcarry x hx
  obtain ⟨slot, hslot⟩ := (loopTable hcx h).known carry hcarry
  have hlt := Nat.lt_of_lt_of_le (h.body_below.vars x slot (hslot x hx)) hslots
  dsimp only
  rw [slotEnv_of_lookup (hslot x hx), slotEnv_of_lookup (hslot carry.name (by simp)),
    getSlot_eq hlt, Option.getD_some]

/-- A run from the `next` statements of a loop passes through them once and goes
back to the condition. -/
theorem update_pass (hcx : InlinesBlocks cx) (h : CarriesDisciplined cx loopPrefix lp s)
    (hcode : LoopCode program cx loopPrefix lp s)
    (hslots : (nextState cx loopPrefix lp s).slot < u.slots.length)
    (hhold : CarriesHold loopPrefix lp.carries (bodyState cx loopPrefix lp s).varSlots values u)
    {n : Nat} {d : Config} (hn : Steps (vmMove program stream) n
      ⟨u, (loopLayout cx loopPrefix lp s).nexts⟩ d)
    (hd : d.ip = (loopLayout cx loopPrefix lp s).head) :
    ∃ m k vm values', n = (m + 1) + k ∧
      Steps (vmMove program stream) (m + 1) ⟨u, (loopLayout cx loopPrefix lp s).nexts⟩
        ⟨vm, (loopLayout cx loopPrefix lp s).head⟩ ∧
      Steps (vmMove program stream) k ⟨vm, (loopLayout cx loopPrefix lp s).head⟩ d ∧
      visits (vmMove program stream) (fun c => c.ip = (loopLayout cx loopPrefix lp s).nexts) (m + 1)
        ⟨u, (loopLayout cx loopPrefix lp s).nexts⟩ = [⟨u, (loopLayout cx loopPrefix lp s).nexts⟩] ∧
      nextCarries loopPrefix lp values
        (slotScope (bodyState cx loopPrefix lp s).varSlots cx.currentOffsetSlot u) = some values' ∧
      NextsDone cx loopPrefix lp s u vm values' := by
  have hhead := hcode.head_lt
  have hnexts := hcode.nexts_le
  have hclose := hcode.close_lt
  have hslot_le := (emitNexts_emitted cx loopPrefix lp.nexts (bodyState cx loopPrefix lp s)).slot_le
  change (bodyState cx loopPrefix lp s).slot ≤ (nextState cx loopPrefix lp s).slot at hslot_le
  obtain ⟨m, k, vm, values', rfl, hsteps, hrest, hvalues, hdone⟩ :=
    nexts_pass hcx h lp.nexts (fun _ hmem => hmem) rfl (Nat.le_refl _) hcode.nexts
      (Nat.le_of_lt hclose) hslots ⟨rfl, fun _ _ _ => rfl, hhold⟩ hn
      (fun hin => by have hge := hin.1; simp only [loopLayout] at hge hhead hd; omega)
  -- The closing jump.
  obtain ⟨k, rfl, hmove, hlast⟩ : ∃ k', k = k' + 1 ∧
      vmMove program stream ⟨vm, (loopLayout cx loopPrefix lp s).close⟩ =
        .ok ⟨vm.tick, (loopLayout cx loopPrefix lp s).head⟩ ∧
      Steps (vmMove program stream) k' ⟨vm.tick, (loopLayout cx loopPrefix lp s).head⟩ d := by
    cases hrest with
    | stay =>
        have hne : (loopLayout cx loopPrefix lp s).close ≠ (loopLayout cx loopPrefix lp s).head := by
          omega
        exact absurd hd hne
    | @go k' _ c _ hmove hrest =>
        obtain ⟨instr, hinstr, hbudget, -⟩ := vmMove_eq_ok.mp hmove
        have hmove' : vmMove program stream ⟨vm, (loopLayout cx loopPrefix lp s).close⟩ = .ok _ :=
          vmMove_jump hcode.close hbudget
        cases hmove.symm.trans hmove'
        exact ⟨k', rfl, hmove', hrest⟩
  refine ⟨m, k, vm.tick, values', by omega, hsteps.steps.snoc hmove, hlast, ?_, ?_, ?_⟩
  · have hforward := nexts_forward cx loopPrefix lp.nexts (bodyState cx loopPrefix lp s)
      (Nat.le_of_lt hclose)
    have hclimb : ∀ a b, AddressIn (loopLayout cx loopPrefix lp s).nexts
        (loopLayout cx loopPrefix lp s).close a → vmMove program stream a = .ok b → a.ip < b.ip := by
      intro a b ha hmove
      have hlen : (loopLayout cx loopPrefix lp s).nexts +
          ((nextState cx loopPrefix lp s).instructions.drop
            (bodyState cx loopPrefix lp s).instructions.length).length =
          (loopLayout cx loopPrefix lp s).close := by
        simp only [loopLayout, List.length_drop] at hnexts ⊢
        omega
      obtain ⟨instr, hinstr, hip | rfl | ⟨condSlot, rfl⟩⟩ := vmMove_control hmove
      · omega
      · exact (hforward.at_block hcode.nexts ha.1 (by rw [← hlen] at ha; exact ha.2) hinstr).1
      · exact (hforward.at_block hcode.nexts ha.1 (by rw [← hlen] at ha; exact ha.2) hinstr).1
    exact visits_climbing hclimb hsteps hmove
  · exact (inTurn_eq_atOnce (nextAssignments_independent hcx h (by omega)) values).symm.trans hvalues
  · exact ⟨hdone.length, hdone.kept, hdone.hold⟩

/-- The carries after the iterations of a run have the values of the fold. -/
theorem iterations_fold (hcx : InlinesBlocks cx) (h : CarriesDisciplined cx loopPrefix lp s)
    (hcode : LoopCode program cx loopPrefix lp s) (n : Nat) {a d : Config}
    (ha : a.ip = (loopLayout cx loopPrefix lp s).head)
    (hd : d.ip = (loopLayout cx loopPrefix lp s).head)
    (hslots : (nextState cx loopPrefix lp s).slot < a.vm.slots.length)
    (hstays : StepsIn (vmMove program stream) (InLoop program cx loopPrefix lp s) n a d)
    (hhold : CarriesHold loopPrefix lp.carries (bodyState cx loopPrefix lp s).varSlots values a.vm) :
    ∃ values', (iterationScopes program stream cx loopPrefix lp s n a).foldlM
        (nextCarries loopPrefix lp) values = some values' ∧
      CarriesHold loopPrefix lp.carries (bodyState cx loopPrefix lp s).varSlots values' d.vm := by
  induction n using Nat.strong_induction_on generalizing a values with
  | _ n ih =>
      cases n with
      | zero =>
          obtain rfl := StepsIn.zero_iff.mp hstays
          exact ⟨values, rfl, hhold⟩
      | succ n =>
          obtain ⟨m, k, ⟨u, ip⟩, hn, hhead, rfl, hrest⟩ := head_pass hcode ha hd hstays
          have hlength : u.slots.length = a.vm.slots.length :=
            reachable_slots_length ⟨m + 1, hhead.steps⟩
          have hhold' : CarriesHold loopPrefix lp.carries
              (bodyState cx loopPrefix lp s).varSlots values u := by
            intro carry hcarry x hx
            obtain ⟨slot, hslot⟩ := (loopTable hcx h).known carry hcarry
            have hsame := (loopTable hcx h).same carry hcarry carry.name (by simp)
            rw [← hhold carry hcarry x hx, slotEnv_of_lookup (hslot x hx),
              slotEnv_of_lookup (hslot x hx)]
            exact head_keeps hhead hcarry (hsame.symm.trans (hslot carry.name (by simp)))
          obtain ⟨m', k', vm, values', rfl, hupdate, hlast, hvisits, hvalues, hdone⟩ :=
            update_pass hcx h hcode (by omega) hhold' hrest.steps hd
          have hstays' := (hrest.split hupdate).2
          have hslots' : (nextState cx loopPrefix lp s).slot < vm.slots.length := by
            rw [hdone.length]
            omega
          obtain ⟨values'', hfold, hhold''⟩ := ih k' (by omega) rfl hslots' hstays' hdone.hold
          refine ⟨values'', ?_, hhold''⟩
          have hnone : visits (vmMove program stream)
              (fun c => c.ip = (loopLayout cx loopPrefix lp s).nexts) (m + 1) a = [] :=
            visits_eq_nil (fun c hc => Nat.ne_of_lt hc.2.2) hhead
          unfold iterationScopes at hfold ⊢
          rw [hn, visits_append hhead.steps, hnone, List.nil_append, visits_append hupdate, hvisits,
            List.map_append, List.map_singleton, List.singleton_append, List.foldlM_cons, hvalues]
          exact hfold

/-- Names that are no carries keep their values while carries are assigned. -/
theorem NextsDone.namesKept (hcx : InlinesBlocks cx) (h : CarriesDisciplined cx loopPrefix lp s)
    (hdone : NextsDone cx loopPrefix lp s u vm values) (hle : s.slot ≤ (bodyState cx loopPrefix lp s).slot) :
    NamesKept s.varSlots cx.currentOffsetSlot [] u vm ∧
      NamesKept (bodyState cx loopPrefix lp s).varSlots cx.currentOffsetSlot
        (carriesKeys loopPrefix lp.carries) u vm := by
  have hlow : ∀ i, i < s.slot → vm.slots[i]? = u.slots[i]? := by
    intro i hi
    refine hdone.kept i (Nat.lt_of_lt_of_le hi hle) fun nxt hnxt htarget => ?_
    obtain ⟨hge, hown, -⟩ := nextTarget_own hcx h hnxt rfl
    have heq := Option.some.inj ((hown nxt.name (by simp)).symm.trans htarget)
    omega
  refine ⟨⟨getSlot_congr (hlow _ h.below.offset), fun x _ => ?_⟩,
    ⟨getSlot_congr (hlow _ h.below.offset), fun x hx => ?_⟩⟩
  · exact slotEnv_congr fun slot hslot => hlow slot (h.below.vars x slot hslot)
  · refine slotEnv_congr fun slot hslot => ?_
    refine hdone.kept slot (h.body_below.vars x slot hslot) fun nxt hnxt htarget => ?_
    obtain ⟨carry, hcarry, hname⟩ := h.nexts_carry nxt hnxt
    obtain ⟨-, hown, hother⟩ := nextTarget_own hcx h hnxt rfl
    have heq := Option.some.inj ((hown nxt.name (by simp)).symm.trans htarget)
    exact hother x slot hslot
      (fun hkey => hx (mem_carriesKeys.mpr ⟨carry, hcarry, hname ▸ hkey⟩)) heq.symm

end Iteration

section Loop

variable {program : BytecodeProgram} {stream : Bool} {cx : EmitContext} {loopPrefix : String}
  {lp : Loop} {s : EmitState}

theorem initState_slot_le (hcx : InlinesBlocks cx) (loopPrefix : String) (lp : Loop) (s : EmitState) :
    (initState cx loopPrefix lp.carries s).slot ≤ (nextState cx loopPrefix lp s).slot :=
  ((condState_slot_le cx loopPrefix lp s).trans (bodyState_emitted hcx lp s).slot_le).trans
    (emitNexts_emitted cx loopPrefix lp.nexts _).slot_le

/-- The initialisers of a run, up to the first evaluation of the condition. -/
theorem entry_pass (hcx : InlinesBlocks cx) (h : CarriesDisciplined cx loopPrefix lp s)
    (hcode : LoopCode program cx loopPrefix lp s) {n : Nat} {e d : Config}
    (he : e.ip = (loopLayout cx loopPrefix lp s).inits)
    (hd : d.ip = (loopLayout cx loopPrefix lp s).head)
    (hslots : (nextState cx loopPrefix lp s).slot < e.vm.slots.length)
    (hn : Steps (vmMove program stream) n e d) :
    ∃ m k vm values, n = m + k ∧
      StepsIn (vmMove program stream)
        (AddressIn (loopLayout cx loopPrefix lp s).inits (loopLayout cx loopPrefix lp s).head) m e
        ⟨vm, (loopLayout cx loopPrefix lp s).head⟩ ∧
      Steps (vmMove program stream) k ⟨vm, (loopLayout cx loopPrefix lp s).head⟩ d ∧
      initCarries lp.carries (slotScope s.varSlots cx.currentOffsetSlot e.vm) = some values ∧
      InitsDone cx loopPrefix lp s e.vm vm values := by
  obtain ⟨vm₀, ip⟩ := e
  obtain rfl : ip = (loopLayout cx loopPrefix lp s).inits := he
  have hslots' := Nat.lt_of_le_of_lt (initState_slot_le hcx loopPrefix lp s) hslots
  exact inits_pass h hcode hslots' [] lp.carries rfl rfl (fun _ _ => rfl)
    (fun carry hcarry => by cases hcarry) hn (fun hin => Nat.lt_irrefl _ (hd ▸ hin.2))

/-- A disciplined loop computes its fold. -/
theorem carriesFold_of_disciplined (hcx : InlinesBlocks cx)
    (h : CarriesDisciplined cx loopPrefix lp s) (hcode : LoopCode program cx loopPrefix lp s) :
    CarriesFold program stream cx loopPrefix lp s where
  fold n e d hrun := by
    obtain ⟨m, k, vm, values, rfl, hinits, hrest, hvalues, hdone⟩ :=
      entry_pass hcx h hcode hrun.enters hrun.arrives hrun.slots hrun.stays.steps
    have hstays := (hrun.stays.split hinits.steps).2
    have hlength : vm.slots.length = e.vm.slots.length :=
      reachable_slots_length ⟨m, hinits.steps⟩
    have hslots : (nextState cx loopPrefix lp s).slot < vm.slots.length := by
      rw [hlength]
      exact hrun.slots
    have hhold : CarriesHold loopPrefix lp.carries (bodyState cx loopPrefix lp s).varSlots values
        vm := by
      intro carry hcarry x hx
      rw [← hdone.hold carry hcarry x hx]
      unfold slotEnv
      rw [(loopTable hcx h).same carry hcarry x hx]
    obtain ⟨values', hfold, hhold'⟩ :=
      iterations_fold hcx h hcode k rfl hrun.arrives hslots hstays hhold
    refine ⟨values', ?_, hhold'⟩
    have hnone : visits (vmMove program stream)
        (fun c => c.ip = (loopLayout cx loopPrefix lp s).nexts) m e = [] :=
      visits_eq_nil (fun c hc => Nat.ne_of_lt (Nat.lt_trans hc.2 hcode.head_lt)) hinits
    unfold foldCarries
    rw [hvalues, Option.bind_some]
    unfold iterationScopes at hfold ⊢
    rw [visits_append hinits.steps, hnone, List.nil_append]
    exact hfold
  inits_keep n e d he hd hslots hstays := by
    obtain ⟨m, k, vm, values, rfl, hinits, hrest, -, hdone⟩ :=
      entry_pass hcx h hcode he hd hslots hstays.steps
    have hlast := (hstays.split hinits.steps).2
    have hend : d = ⟨vm, (loopLayout cx loopPrefix lp s).head⟩ := by
      cases hlast with
      | stay => rfl
      | go hin _ _ => exact absurd hin.2 (Nat.lt_irrefl _)
    subst hend
    exact ⟨getSlot_congr (hdone.kept _ h.below.offset), fun x _ =>
      slotEnv_congr fun slot hslot => hdone.kept slot (h.below.vars x slot hslot)⟩
  updates_keep n u d hu hd hslots hstays := by
    obtain ⟨vm₀, ip⟩ := u
    obtain rfl : ip = (loopLayout cx loopPrefix lp s).nexts := hu
    have hslot_le : (bodyState cx loopPrefix lp s).slot ≤ (nextState cx loopPrefix lp s).slot :=
      (emitNexts_emitted cx loopPrefix lp.nexts _).slot_le
    have hle : s.slot ≤ (bodyState cx loopPrefix lp s).slot :=
      ((initState_emitted cx loopPrefix lp.carries s).slot_le.trans
        (condState_slot_le cx loopPrefix lp s)).trans (bodyState_emitted hcx lp s).slot_le
    obtain ⟨values, hhold⟩ := exists_carriesHold hcx h (Nat.le_of_lt (Nat.lt_of_le_of_lt hslot_le hslots))
    obtain ⟨m, k, vm, values', rfl, hupdate, -, -, -, hdone⟩ :=
      update_pass hcx h hcode hslots hhold hstays.steps hd
    have hlast := (hstays.split hupdate).2
    have hend : d = ⟨vm, (loopLayout cx loopPrefix lp s).head⟩ := by
      cases hlast with
      | stay => rfl
      | go hin _ _ => exact absurd hin.1 (Nat.not_le.mpr hcode.head_lt)
    subst hend
    exact hdone.namesKept hcx h hle

end Loop

/-- For every compiled loop and every program that contains its code: where the
discipline holds, all runs of the loop compute the fold of the specification and
change no other name. -/
theorem compiled_carries_fold {messages : List Message} {littleEndian : Bool} {remaining : Nat}
    {namePrefix : String} {lp : Loop} {s : EmitState} {program : BytecodeProgram}
    (h : CarriesDisciplined (compileContext messages littleEndian remaining)
      (joinName namePrefix lp.name) lp s)
    (hcode : Contains program s
      (emitLoop (compileContext messages littleEndian remaining) namePrefix lp s))
    (hfits : (emitLoop (compileContext messages littleEndian remaining) namePrefix lp
      s).instructions.length ≤ u16Max) (stream : Bool) :
    CarriesFold program stream (compileContext messages littleEndian remaining)
      (joinName namePrefix lp.name) lp s :=
  have hcx := compileContext_inlines messages littleEndian remaining
  carriesFold_of_disciplined hcx h (loopCode_of_emitLoop hcx hcode hfits)

/-- The compiler's state at the first item of the root message. -/
def messageStart : EmitState where
  varSlots := (∅ : SlotMap).insert "__current_offset" currentOffsetSlot
  fieldMap := ∅
  instructions := [.loadConst 0 currentOffsetSlot]
  slot := 1

/-- A loop that reads one byte in each iteration. -/
def byteLoop (carries : List Carry) (condition : Expr) (nexts : List NextStmt) : Loop where
  name := "l"
  carries := carries
  condition := condition
  body := [⟨"x", .u8, none, none, 0⟩]
  nexts := nexts
  order := 1

/-- A protocol whose only message has some fields and a loop after them. -/
def loopProtocol (fields : List Field) (lp : Loop) : Protocol where
  name := "P"
  endian := "big"
  messages := [⟨"M", fields, [], [lp], [], []⟩]
  binds := []

/-- The context in which the root message of a loop protocol is compiled. -/
def loopContext (lp : Loop) : EmitContext :=
  compileContext (loopProtocol [] lp).messages false (maxRefDepth + 1)

/-- `carry i = 0`, `while i < 2`, `next i = i + 1`. -/
def countLoop : Loop :=
  byteLoop [⟨"i", .u8, .int 0⟩] (.binary .lt (.ident "i") (.int 2))
    [⟨"i", .binary .add (.ident "i") (.int 1)⟩]

theorem messageStart_below {next : Nat} (h : 0 < next) : SlotsBelow messageStart.varSlots 0 next :=
  (SlotsBelow.empty h).insert _ h

theorem countLoop_bodyTable :
    (bodyState (loopContext countLoop) "l" countLoop messageStart).varSlots =
      (((messageStart.varSlots.insert "l.i" 1).insert "i" 1).insert "x" 4).insert "l.x" 4 := rfl

theorem countLoop_disciplined :
    CarriesDisciplined (loopContext countLoop) "l" countLoop messageStart where
  below := messageStart_below (by decide)
  keys_nodup := by decide
  inits_kept before carry after hsplit := by
    cases before with
    | nil =>
        cases hsplit
        exact ⟨trivial, trivial⟩
    | cons _ before => cases before <;> cases hsplit
  inits_own before carry after hsplit _ := by
    cases before with
    | nil =>
        cases hsplit
        exact Nat.one_ne_zero
    | cons _ before => cases before <;> cases hsplit
  inits_outer before carry after hsplit := by
    cases before with
    | nil =>
        cases hsplit
        exact fun x hx => absurd hx List.not_mem_nil
    | cons _ before => cases before <;> cases hsplit
  body_names := by decide
  body_below := by
    rw [countLoop_bodyTable]
    exact ((((messageStart_below (by decide)).insert _ (by decide)).insert _ (by decide)).insert _
      (by decide)).insert _ (by decide)
  nexts_carry := by decide
  nexts_kept nxt hmem := by
    obtain rfl := List.mem_singleton.mp hmem
    exact ⟨trivial, trivial, .inl trivial⟩
  nexts_independent := List.pairwise_singleton _ _

theorem compiled_carries_fold_countLoop : ∃ program fieldMap,
    protocolToBytecodeWithMap (loopProtocol [] countLoop) = some (program, fieldMap) ∧
      CarriesFold program true (loopContext countLoop) "l" countLoop messageStart := by
  refine ⟨⟨(emitLoop (loopContext countLoop) "" countLoop messageStart).instructions ++ [.ret], 48⟩,
    (emitLoop (loopContext countLoop) "" countLoop messageStart).fieldMap, by rfl, ?_⟩
  refine @compiled_carries_fold (loopProtocol [] countLoop).messages false (maxRefDepth + 1) ""
    countLoop messageStart _ countLoop_disciplined ?_ (by decide) true
  unfold Contains BlockAt
  decide

/-- `carry a = 1, b = 2, i = 0`, `while i < 1`, `next a = b, b = a, i = i + 1`. -/
def swapLoop : Loop :=
  byteLoop [⟨"a", .u8, .int 1⟩, ⟨"b", .u8, .int 2⟩, ⟨"i", .u8, .int 0⟩]
    (.binary .lt (.ident "i") (.int 1))
    [⟨"a", .ident "b"⟩, ⟨"b", .ident "a"⟩, ⟨"i", .binary .add (.ident "i") (.int 1)⟩]

/-- `carry i = n`, `while i < 2`, `next i = i + 1`, after a field `n`. -/
def aliasLoop : Loop :=
  byteLoop [⟨"i", .u8, .ident "n"⟩] (.binary .lt (.ident "i") (.int 2))
    [⟨"i", .binary .add (.ident "i") (.int 1)⟩]

/-- The value of a name in the slots after a datagram run of a protocol. -/
def slotAfter (proto : Protocol) (data : List UInt8) (name : String) : Option UInt64 :=
  (protocolToBytecodeWithMap proto).bind fun (program, fieldMap) =>
    (fieldMap.lookup name).map fun slot =>
      (interpret program 0 false (datagramStart program .default data).vm).1.getSlot slot

/-- One iteration of the swapping loop leaves 2 in `b`, where the fold has 1. Two
iterations of the counting loop change the field `n` from 0 to 2. -/
theorem swapLoop_not_fold :
    (∀ entry iteration, (foldCarries "l" swapLoop entry [iteration]).map (· "b") = some 1) ∧
      slotAfter (loopProtocol [] swapLoop) [7] "l.carries.i" = some 1 ∧
      slotAfter (loopProtocol [] swapLoop) [7] "l.carries.b" = some 2 ∧
      slotAfter (loopProtocol [⟨"n", .u8, none, none, 0⟩] aliasLoop) [0, 7, 8] "n" = some 2 := by
  refine ⟨fun entry iteration => rfl, ?_⟩
  decide

end NFdl
