import NFdl.Runtime.BoundNames
import NFdl.Runtime.EmitExprPass

/-!
# Runs through a match

A run that enters the tests of a match and leaves them goes to the body of the
first arm whose constant equals the tag, or behind all arms with constants. A
run leaves the body of an arm at its end only, and from there it goes behind the
match. No instruction budget is assumed, so these are facts about what a run has
done once it got so far.
-/

namespace NFdl

open BytecodeVm Machine

section Moves

variable {program : BytecodeProgram} {stream : Bool} {c c' : Config}

theorem withSlot_eq_goto {vm vm' : BytecodeVm} {slot ip : Nat} {f : UInt64 → BytecodeVm × Flow}
    (h : withSlot vm slot f = (vm', .goto ip)) :
    ∃ v, vm.slots[slot]? = some v ∧ f v = (vm', .goto ip) := by
  unfold withSlot at h
  split at h
  · simp at h
  · rename_i v hv
    exact ⟨v, hv, h⟩

theorem move_loadConst {v : UInt64} {dst : Nat}
    (hinstr : program.instructions[c.ip]? = some (.loadConst v dst))
    (h : vmMove program stream c = .ok c') : c' = ⟨c.vm.tick.writeSlot dst v, c.ip + 1⟩ := by
  obtain ⟨instr, hinstr', -, hexec⟩ := vmMove_eq_ok.mp h
  obtain rfl := Option.some.inj (hinstr'.symm.trans hinstr)
  obtain ⟨hvm, hip⟩ := Prod.mk.inj hexec
  rw [hvm, Flow.goto.inj hip]

theorem move_compare {left right dst : Nat}
    (hinstr : program.instructions[c.ip]? = some (.binOp .eq left right dst))
    (h : vmMove program stream c = .ok c') :
    ∃ l r, c.vm.slots[left]? = some l ∧ c.vm.slots[right]? = some r ∧
      c' = ⟨c.vm.tick.writeSlot dst (boolWord (l == r)), c.ip + 1⟩ := by
  obtain ⟨instr, hinstr', -, hexec⟩ := vmMove_eq_ok.mp h
  obtain rfl := Option.some.inj (hinstr'.symm.trans hinstr)
  obtain ⟨l, hl, hexec⟩ := withSlot_eq_goto hexec
  obtain ⟨r, hr, hexec⟩ := withSlot_eq_goto hexec
  refine ⟨l, r, hl, hr, ?_⟩
  obtain ⟨hvm, hip⟩ := Prod.mk.inj hexec
  rw [hvm, Flow.goto.inj hip]

theorem move_branch {cond target : Nat} (hforward : c.ip ≤ target)
    (hinstr : program.instructions[c.ip]? = some (.jumpIfZero cond target))
    (h : vmMove program stream c = .ok c') :
    ∃ v, c.vm.slots[cond]? = some v ∧
      c' = ⟨c.vm.tick, if v = 0 then target else c.ip + 1⟩ := by
  obtain ⟨instr, hinstr', hbudget, hexec⟩ := vmMove_eq_ok.mp h
  obtain rfl := Option.some.inj (hinstr'.symm.trans hinstr)
  obtain ⟨v, hv, -⟩ := withSlot_eq_goto hexec
  have hmove : vmMove program stream c = _ := vmMove_jumpIfZero hinstr hbudget hv hforward
  exact ⟨v, hv, Except.ok.inj (h.symm.trans hmove)⟩

theorem move_jump {target : Nat} (hinstr : program.instructions[c.ip]? = some (.jump target))
    (h : vmMove program stream c = .ok c') : c' = ⟨c.vm.tick, target⟩ := by
  obtain ⟨instr, hinstr', hbudget, -⟩ := vmMove_eq_ok.mp h
  exact Except.ok.inj (h.symm.trans (vmMove_jump hinstr hbudget))

/-- A run goes on from a state in a region that its last state is not in. -/
theorem goes_on {H : Config → Prop} {n : Nat} {d : Config} (hc : H c) (hd : ¬ H d)
    (hn : Steps (vmMove program stream) n c d) :
    ∃ k b, n = k + 1 ∧ vmMove program stream c = .ok b ∧ Steps (vmMove program stream) k b d := by
  cases hn with
  | stay => exact absurd hc hd
  | go hmove hrest => exact ⟨_, _, rfl, hmove, hrest⟩

end Moves

section Tests

variable {program : BytecodeProgram} {stream : Bool} {tagSlot stop : Nat} {cv : Int64}
  {body rest : Code} {s next : EmitState}

/-- Where control goes from the test of an arm. A tag whose slot is not reserved is
overwritten by the constant. -/
def testTarget (tagSlot : Nat) (v : UInt64) (cv : Int64) (s next : EmitState) : Nat :=
  if s.slot ≤ tagSlot ∨ cv.toUInt64 = v then s.instructions.length + 3
  else next.instructions.length

/-- A run through the test of an arm. -/
theorem test_pass (hcase : CaseStands program tagSlot cv body rest stop s next)
    (hfits : next.instructions.length ≤ u16Max) (htag : tagSlot ≤ s.slot) {vm : BytecodeVm}
    {v : UInt64} (hv : vm.getSlot tagSlot = v) {n : Nat} {d : Config}
    (hn : Steps (vmMove program stream) n ⟨vm, s.instructions.length⟩ d)
    (hd : ¬ AddressIn s.instructions.length (s.instructions.length + 3) d) :
    ∃ k vm', n = 3 + k ∧
      StepsIn (vmMove program stream)
        (AddressIn s.instructions.length (s.instructions.length + 3)) 3
        ⟨vm, s.instructions.length⟩ ⟨vm', testTarget tagSlot v cv s next⟩ ∧
      Steps (vmMove program stream) k ⟨vm', testTarget tagSlot v cv s next⟩ d ∧
      ∀ i, i < s.slot → vm'.slots[i]? = vm.slots[i]? := by
  have hin : ∀ vm i, i < 3 → AddressIn s.instructions.length (s.instructions.length + 3)
      ⟨vm, s.instructions.length + i⟩ := fun vm i hi =>
    ⟨Nat.le_add_right .., Nat.add_lt_add_left hi _⟩
  -- The constant is loaded.
  obtain ⟨k₁, c₁, rfl, hmove₁, hn⟩ := goes_on (hin vm 0 (by omega)) hd hn
  obtain rfl := move_loadConst hcase.load hmove₁
  -- The tag is compared with it.
  obtain ⟨k₂, c₂, rfl, hmove₂, hn⟩ := goes_on (hin _ 1 (by omega)) hd hn
  obtain ⟨l, r, hl, hr, rfl⟩ := move_compare hcase.compare hmove₂
  -- The branch is taken if they differ.
  obtain ⟨k₃, c₃, rfl, hmove₃, hn⟩ := goes_on (hin _ 2 (by omega)) hd hn
  have hnext := hcase.length_next
  have hbranch := hcase.branch
  rw [asU16_of_le hfits] at hbranch
  have hforward : s.instructions.length + 2 ≤ next.instructions.length := by omega
  obtain ⟨x, hx, rfl⟩ := move_branch hforward hbranch hmove₃
  simp only [writeSlot_slots, tick_slots] at hl hr hx
  obtain ⟨hlt, rfl⟩ : s.slot < vm.slots.length ∧ cv.toUInt64 = r := by
    rw [List.getElem?_set] at hr
    simpa using hr
  obtain ⟨-, rfl⟩ : s.slot + 1 < vm.slots.length ∧ boolWord (l == cv.toUInt64) = x := by
    rw [List.getElem?_set] at hx
    simpa using hx
  have hequal : boolWord (l == cv.toUInt64) = 0 ↔ ¬ (s.slot ≤ tagSlot ∨ cv.toUInt64 = v) := by
    by_cases halias : tagSlot = s.slot
    · subst halias
      rw [List.getElem?_set_self hlt, Option.some.injEq] at hl
      simp [hl, boolWord]
    · rw [List.getElem?_set_ne (Ne.symm halias)] at hl
      have hlv : l = v := by
        rw [← hv]
        simp [getSlot, List.getD_eq_getElem?_getD, hl]
      have hnot : ¬ s.slot ≤ tagSlot := by omega
      by_cases heq : cv.toUInt64 = v
      · simp [hlv, heq, boolWord]
      · simp [hlv, heq, Ne.symm heq, hnot, boolWord]
  have htarget : (if boolWord (l == cv.toUInt64) = 0 then next.instructions.length
      else s.instructions.length + 2 + 1) = testTarget tagSlot v cv s next := by
    unfold testTarget
    by_cases hgoal : s.slot ≤ tagSlot ∨ cv.toUInt64 = v
    · rw [if_pos hgoal, if_neg fun h => hequal.mp h hgoal]
    · rw [if_neg hgoal, if_pos (hequal.mpr hgoal)]
  have hsteps := StepsIn.go (hin vm 0 (by omega)) hmove₁
    (.go (hin _ 1 (by omega)) hmove₂ (.one (hin _ 2 (by omega)) hmove₃))
  rw [htarget] at hsteps hn
  refine ⟨k₃, _, by omega, hsteps, hn, fun i hi => ?_⟩
  simp only [tick_slots, writeSlot_slots]
  rw [List.getElem?_set_ne (by omega), List.getElem?_set_ne (by omega)]

end Tests

section Dispatch

variable (cx : EmitContext) (namePrefix : String) (tagSlot : Nat)

/-- Control is at the test of one of the arms that are emitted from `s` on. -/
def AtTest (arms : List MatchArm) (s : EmitState) (c : Config) : Prop :=
  ∃ before arm after, arms = before ++ arm :: after ∧ arm.case ≠ none ∧
    AddressIn (afterArms cx namePrefix tagSlot before s).instructions.length
      ((afterArms cx namePrefix tagSlot before s).instructions.length + 3) c

/-- Where the tests of arms lead with the value `v` of the tag. -/
def armsTarget (v : UInt64) : List MatchArm → EmitState → Nat
  | [], s => s.instructions.length
  | arm :: arms, s =>
    match arm.case with
    | some cv =>
        if s.slot ≤ tagSlot ∨ cv.toUInt64 = v then s.instructions.length + 3
        else armsTarget v arms (afterArm cx namePrefix tagSlot s arm)
    | none => armsTarget v arms (afterArm cx namePrefix tagSlot s arm)

variable {cx namePrefix tagSlot}

theorem AtTest.head {arm : MatchArm} {arms : List MatchArm} {s : EmitState} {c : Config}
    (hcase : arm.case ≠ none)
    (h : AddressIn s.instructions.length (s.instructions.length + 3) c) :
    AtTest cx namePrefix tagSlot (arm :: arms) s c :=
  ⟨[], arm, arms, rfl, hcase, h⟩

theorem AtTest.tail {arm : MatchArm} {arms : List MatchArm} {s : EmitState} {c : Config}
    (h : AtTest cx namePrefix tagSlot arms (afterArm cx namePrefix tagSlot s arm) c) :
    AtTest cx namePrefix tagSlot (arm :: arms) s c := by
  obtain ⟨before, arm', after, rfl, hcase, haddress⟩ := h
  exact ⟨arm :: before, arm', after, rfl, hcase, haddress⟩

/-- A run that leaves the tests of some arms leaves them where they lead. -/
theorem tests_run {program : BytecodeProgram} {stream : Bool} {inlineCode : String → Message → CodeTable}
    (hcx : InlinesCode cx inlineCode) (hblocks : InlinesBlocks cx) {arms : List MatchArm}
    {s : EmitState} {defaultCode : Option CodeTable} {stop : Nat}
    (h : Stands program s (armsCodeFrom cx inlineCode namePrefix tagSlot arms s defaultCode))
    (hstop : s.instructions.length +
      (armsCodeFrom cx inlineCode namePrefix tagSlot arms s defaultCode).length = stop)
    (hfits : stop ≤ u16Max) (htag : tagSlot ≤ s.slot) {vm : BytecodeVm} {v : UInt64}
    (hv : vm.getSlot tagSlot = v) {n : Nat} {d : Config}
    (hn : Steps (vmMove program stream) n ⟨vm, s.instructions.length⟩ d)
    (hd : ¬ AtTest cx namePrefix tagSlot arms s d) :
    ∃ m k vm', n = m + k ∧
      StepsIn (vmMove program stream) (AtTest cx namePrefix tagSlot arms s) m
        ⟨vm, s.instructions.length⟩ ⟨vm', armsTarget cx namePrefix tagSlot v arms s⟩ ∧
      Steps (vmMove program stream) k ⟨vm', armsTarget cx namePrefix tagSlot v arms s⟩ d := by
  induction arms generalizing s defaultCode vm n with
  | nil => exact ⟨0, n, vm, (Nat.zero_add n).symm, .stay _, hn⟩
  | cons arm arms ih =>
      have hd' : ¬ AtTest cx namePrefix tagSlot arms (afterArm cx namePrefix tagSlot s arm) d :=
        fun htest => hd htest.tail
      cases hcase : arm.case with
      | none =>
          rw [armsCodeFrom_default hcase] at h hstop
          unfold armsTarget
          rw [hcase]
          dsimp only
          have hsame : afterArm cx namePrefix tagSlot s arm = s := afterArm_default hcase
          rw [hsame] at hd' ⊢
          obtain ⟨m, k, vm', rfl, hin, hrest⟩ := ih h hstop htag hv hn hd'
          refine ⟨m, k, vm', rfl, hin.mono fun c hc => .tail ?_, hrest⟩
          rw [hsame]
          exact hc
      | some cv =>
          have hstands := caseStands hcx hcase h hstop
          have hnext := hstands.length_stop
          have hne : arm.case ≠ none := hcase ▸ Option.some_ne_none cv
          obtain ⟨k, vm₁, rfl, hin, hrest, hkept⟩ := test_pass hstands (by omega) htag hv hn
            fun hc => hd (.head hne hc)
          unfold testTarget at hin hrest
          unfold armsTarget
          rw [hcase]
          dsimp only
          split
          · rename_i hmatch
            rw [if_pos hmatch] at hin hrest
            exact ⟨3, k, vm₁, rfl, hin.mono fun c hc => .head hne hc, hrest⟩
          · rename_i hmatch
            rw [if_neg hmatch] at hin hrest
            rw [not_or, Nat.not_le] at hmatch
            have hslot := (afterArm_binds (armEmitter_binds hblocks namePrefix arm) hne tagSlot s).2
            have hv₁ : vm₁.getSlot tagSlot = v := (getSlot_congr (hkept _ hmatch.1)).trans hv
            obtain ⟨m, k, vm', rfl, hin', hrest'⟩ :=
              ih hstands.restStands hstands.length_stop (by omega) hv₁ hrest hd'
            refine ⟨3 + m, k, vm', by omega, ?_, hrest'⟩
            exact (hin.mono fun c hc => .head hne hc).append (hin'.mono fun c hc => .tail hc)

end Dispatch

section Bodies

variable {program : BytecodeProgram} {stream : Bool}

/-- Control leaves a block at its end only. -/
theorem block_left {lo hi n : Nat} {c d : Config}
    (hcode : ∀ i instr, lo ≤ i → i < hi → program.instructions[i]? = some instr →
      JumpInside [] lo hi i instr) (hlo : lo ≤ c.ip) (hhi : c.ip ≤ hi)
    (h : Steps (vmMove program stream) n c d) :
    StepsIn (vmMove program stream) (AddressIn lo hi) n c d ∨
      ∃ m k c', n = m + k ∧ StepsIn (vmMove program stream) (AddressIn lo hi) m c c' ∧
        c'.ip = hi ∧ Steps (vmMove program stream) k c' d := by
  induction h with
  | stay => exact .inl (.stay _)
  | @go n a b d hmove hrest ih =>
      obtain heq | hlt := Nat.eq_or_lt_of_le hhi
      · exact .inr ⟨0, n + 1, a, (Nat.zero_add _).symm, .stay a, heq, .go hmove hrest⟩
      · have hrange : lo ≤ b.ip ∧ b.ip ≤ hi := by
          obtain ⟨instr, hinstr, hip | rfl | ⟨condSlot, rfl⟩⟩ := vmMove_control hmove
          · omega
          · have htarget := (hcode _ _ hlo hlt hinstr).resolve_left (List.not_mem_nil)
            exact htarget
          · have htarget := hcode _ _ hlo hlt hinstr
            exact ⟨Nat.le_trans hlo (Nat.le_of_lt htarget.1), htarget.2⟩
        obtain hin | ⟨m, k, c', rfl, hin, hc', hlast⟩ := ih hrange.1 hrange.2
        · exact .inl (.go ⟨hlo, hlt⟩ hmove hin)
        · exact .inr ⟨m + 1, k, c', by omega, .go ⟨hlo, hlt⟩ hmove hin, hc', hlast⟩

end Bodies

end NFdl
