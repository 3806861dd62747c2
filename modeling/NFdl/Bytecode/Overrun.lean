import NFdl.Bytecode.Resume

/-!
# The last instruction of a budget

The budget is checked before an instruction is counted, and by the wrong side: a run that
has used up its budget executes one more instruction before it is stopped. Every run is
stopped there, over all suspensions, and the budget is met by exactly those runs that end by
themselves within it.
-/

namespace NFdl

open BytecodeVm Machine

/-- Without a budget the run from a state, fed with chunks, ends after a number of
instructions, or waits for more bytes when there are no chunks left. A read that suspends is
an instruction, and again when it is retried. -/
inductive RunsFor (program : BytecodeProgram) :
    Bool → List (List UInt8) → Config → ℕ → Prop where
  | stop {stream chunks c} : program.instructions[c.ip]? = none → RunsFor program stream chunks c 0
  | move {stream chunks c instr vm ip n} : program.instructions[c.ip]? = some instr →
      execInstr stream instr c.ip c.vm.tick = (vm, .goto ip) →
      RunsFor program stream chunks ⟨vm, ip⟩ n → RunsFor program stream chunks c (n + 1)
  | last {stream chunks c instr} {r : BytecodeVm × Ending} :
      program.instructions[c.ip]? = some instr →
      execInstr stream instr c.ip c.vm.tick = (r.1, r.2.flow) →
      (chunks = [] ∨ ¬ r.2.flow.Suspends) → RunsFor program stream chunks c 1
  | resume {stream more chunks c instr vm cont n} : program.instructions[c.ip]? = some instr →
      execInstr stream instr c.ip c.vm.tick = (vm, .returned (.ok (.needMoreBytes cont))) →
      RunsFor program true chunks ⟨(restore cont).appendInput more, cont.ip⟩ n →
      RunsFor program stream (more :: chunks) c (n + 1)

variable {program : BytecodeProgram} {stream : Bool} {chunks : List (List UInt8)} {c d : Config}

theorem Ending.flow_ne_goto (e : Ending) (ip : ℕ) : e.flow ≠ .goto ip := by
  cases e <;> nofun

section Inversion

variable {instr : Instruction} {n : ℕ}

theorem RunsFor.pos (h : RunsFor program stream chunks c n)
    (hinstr : program.instructions[c.ip]? = some instr) : 1 ≤ n := by
  cases h with
  | stop hnone => rw [hinstr] at hnone; cases hnone
  | move _ _ _ => omega
  | last _ _ _ => omega
  | resume _ _ _ => omega

theorem RunsFor.after_move {vm : BytecodeVm} {ip : ℕ} (h : RunsFor program stream chunks c n)
    (hinstr : program.instructions[c.ip]? = some instr)
    (hexec : execInstr stream instr c.ip c.vm.tick = (vm, .goto ip)) :
    ∃ m, n = m + 1 ∧ RunsFor program stream chunks ⟨vm, ip⟩ m := by
  cases h with
  | stop hnone => rw [hinstr] at hnone; cases hnone
  | move hinstr' hexec' hrest =>
      obtain rfl := Option.some.inj (hinstr.symm.trans hinstr')
      obtain ⟨rfl, hgoto⟩ := Prod.mk.inj (hexec.symm.trans hexec')
      obtain rfl := Flow.goto.inj hgoto
      exact ⟨_, rfl, hrest⟩
  | last hinstr' hexec' _ =>
      obtain rfl := Option.some.inj (hinstr.symm.trans hinstr')
      exact absurd (congrArg Prod.snd (hexec.symm.trans hexec')) (Ending.flow_ne_goto _ _).symm
  | resume hinstr' hexec' _ =>
      obtain rfl := Option.some.inj (hinstr.symm.trans hinstr')
      exact absurd (congrArg Prod.snd (hexec.symm.trans hexec')) nofun

theorem RunsFor.after_suspension {vm : BytecodeVm} {cont : VmContinuation} {more : List UInt8}
    (h : RunsFor program stream (more :: chunks) c n)
    (hinstr : program.instructions[c.ip]? = some instr)
    (hexec : execInstr stream instr c.ip c.vm.tick = (vm, .returned (.ok (.needMoreBytes cont)))) :
    ∃ m, n = m + 1 ∧
      RunsFor program true chunks ⟨(restore cont).appendInput more, cont.ip⟩ m := by
  cases h with
  | stop hnone => rw [hinstr] at hnone; cases hnone
  | move hinstr' hexec' _ =>
      obtain rfl := Option.some.inj (hinstr.symm.trans hinstr')
      exact absurd (congrArg Prod.snd (hexec.symm.trans hexec')) nofun
  | last hinstr' hexec' hend =>
      obtain rfl := Option.some.inj (hinstr.symm.trans hinstr')
      refine absurd ?_ (hend.resolve_left nofun)
      have hflow := congrArg Prod.snd (hexec.symm.trans hexec')
      dsimp only at hflow
      rw [← hflow]
      trivial
  | resume hinstr' hexec' hrest =>
      obtain rfl := Option.some.inj (hinstr.symm.trans hinstr')
      obtain rfl : cont = _ := by
        have hflow := congrArg Prod.snd (hexec.symm.trans hexec')
        simpa using hflow
      exact ⟨_, rfl, hrest⟩

end Inversion

theorem interpret_of_move (h : vmMove program stream c = .ok d) :
    interpret program c.ip stream c.vm = interpret program d.ip stream d.vm :=
  interpret_eq_iff.mpr (.of_steps (.one h) (interpret_halts ..))

theorem interpret_of_end {r : BytecodeVm × Ending} (h : vmMove program stream c = .error r) :
    interpret program c.ip stream c.vm = r :=
  interpret_eq_iff.mpr (.of_end h)

/-- The instructions that a run over chunks has executed when it ends. -/
def executedBy (program : BytecodeProgram) (stream : Bool) (chunks : List (List UInt8))
    (c : Config) : ℕ :=
  (feed program (interpret program c.ip stream c.vm) chunks).1.instructionsExecuted

/-- A run is stopped one instruction after its budget at the latest, and within the budget
exactly if it ends by itself. -/
structure StopsAfter (program : BytecodeProgram) (stream : Bool) (chunks : List (List UInt8))
    (c : Config) : Prop where
  le : executedBy program stream chunks c ≤ c.vm.limits.maxInstructions + 1
  within_iff : executedBy program stream chunks c ≤ c.vm.limits.maxInstructions ↔
    ∃ n, RunsFor program stream chunks c n ∧
      c.vm.instructionsExecuted + n ≤ c.vm.limits.maxInstructions

section Steps

variable {instr : Instruction}

theorem stopsAfter_of_none (hinstr : program.instructions[c.ip]? = none)
    (hcount : c.vm.instructionsExecuted ≤ c.vm.limits.maxInstructions + 1) :
    StopsAfter program stream chunks c := by
  have hexecuted : executedBy program stream chunks c = c.vm.instructionsExecuted := by
    unfold executedBy
    rw [interpret_of_end (vmMove_eq_error.mpr (.inl ⟨hinstr, rfl⟩)), feed_of_not_suspends id]
  refine ⟨by rw [hexecuted]; exact hcount, ?_⟩
  rw [hexecuted]
  refine ⟨fun hle => ⟨0, .stop hinstr, hle⟩, fun ⟨n, _, hle⟩ => by omega⟩

/-- A run that has spent its budget is stopped before the next instruction. -/
theorem stopsAfter_of_spent (hinstr : program.instructions[c.ip]? = some instr)
    (hcount : c.vm.instructionsExecuted = c.vm.limits.maxInstructions + 1) :
    StopsAfter program stream chunks c := by
  have hspent : c.vm.outOfBudget := by
    unfold outOfBudget
    omega
  have hexecuted : executedBy program stream chunks c = c.vm.instructionsExecuted := by
    unfold executedBy
    rw [interpret_of_end (vmMove_eq_error.mpr (.inr (.inl ⟨instr, hinstr, hspent, rfl⟩))),
      feed_of_not_suspends id]
  refine ⟨by rw [hexecuted]; exact Nat.le_of_eq hcount, ?_⟩
  rw [hexecuted]
  exact ⟨fun hle => by omega, fun ⟨n, _, hle⟩ => by omega⟩

theorem stopsAfter_of_move {vm : BytecodeVm} {ip : ℕ}
    (hinstr : program.instructions[c.ip]? = some instr)
    (hcount : c.vm.instructionsExecuted ≤ c.vm.limits.maxInstructions)
    (hexec : execInstr stream instr c.ip c.vm.tick = (vm, .goto ip))
    (h : StopsAfter program stream chunks ⟨vm, ip⟩) : StopsAfter program stream chunks c := by
  have hmove : vmMove program stream c = .ok ⟨vm, ip⟩ :=
    vmMove_eq_ok.mpr ⟨instr, hinstr, Nat.not_lt.mpr hcount, hexec⟩
  have hframe := vmMove_frame hmove
  have hlimits : vm.limits = c.vm.limits := hframe.limits
  have hnext : vm.instructionsExecuted = c.vm.instructionsExecuted + 1 :=
    hframe.instructionsExecuted
  have hexecuted :
      executedBy program stream chunks c = executedBy program stream chunks ⟨vm, ip⟩ := by
    unfold executedBy
    rw [interpret_of_move hmove]
  obtain ⟨hle, hiff⟩ := h
  dsimp only at hle hiff
  rw [hlimits, ← hexecuted] at hle hiff
  refine ⟨hle, hiff.trans ⟨fun ⟨n, hn, hwithin⟩ => ?_, fun ⟨n, hn, hwithin⟩ => ?_⟩⟩
  · exact ⟨n + 1, .move hinstr hexec hn, by omega⟩
  · obtain ⟨m, rfl, hm⟩ := hn.after_move hinstr hexec
    exact ⟨m, hm, by omega⟩

theorem resumed_counts {vm : BytecodeVm} {cont : VmContinuation}
    (hexec : execInstr true instr c.ip c.vm.tick = (vm, .returned (.ok (.needMoreBytes cont))))
    (more : List UInt8) :
    ((restore cont).appendInput more).limits = c.vm.limits ∧
      ((restore cont).appendInput more).instructionsExecuted =
        c.vm.instructionsExecuted + 1 := by
  have hframe := execInstr_frame true instr c.ip c.vm.tick
  have hsuspended : SuspendedAt instr c.ip c.vm.tick _ :=
    execInstr_suspends (by rw [hexec]; exact trivial)
  rw [hexec] at hframe hsuspended
  have hcont : cont = vm.snapshot c.ip (instr.bytesShort vm) := by
    simpa [NFdl.suspend] using hsuspended.snapshot
  rw [hcont]
  exact ⟨hframe.limits, hframe.instructionsExecuted⟩

/-- A suspended run continues with the next chunk, all its counts kept. -/
theorem stopsAfter_of_suspension {vm : BytecodeVm} {cont : VmContinuation} {more : List UInt8}
    (hinstr : program.instructions[c.ip]? = some instr)
    (hcount : c.vm.instructionsExecuted ≤ c.vm.limits.maxInstructions)
    (hexec : execInstr true instr c.ip c.vm.tick = (vm, .returned (.ok (.needMoreBytes cont))))
    (h : StopsAfter program true chunks ⟨(restore cont).appendInput more, cont.ip⟩) :
    StopsAfter program true (more :: chunks) c := by
  have hend : vmMove program true c = .error (vm, .returned (.ok (.needMoreBytes cont))) :=
    vmMove_eq_error.mpr (.inr (.inr ⟨instr, hinstr, Nat.not_lt.mpr hcount, hexec⟩))
  obtain ⟨hlimits, hnext⟩ := resumed_counts hexec more
  have hexecuted : executedBy program true (more :: chunks) c =
      executedBy program true chunks ⟨(restore cont).appendInput more, cont.ip⟩ := by
    unfold executedBy
    rw [interpret_of_end hend]
    rfl
  obtain ⟨hle, hiff⟩ := h
  dsimp only at hle hiff
  rw [hlimits, ← hexecuted] at hle hiff
  refine ⟨hle, hiff.trans ⟨fun ⟨n, hn, hwithin⟩ => ?_, fun ⟨n, hn, hwithin⟩ => ?_⟩⟩
  · exact ⟨n + 1, .resume hinstr hexec hn, by omega⟩
  · obtain ⟨m, rfl, hm⟩ := hn.after_suspension hinstr hexec
    exact ⟨m, hm, by omega⟩

/-- An instruction that ends the run for good is the last one. -/
theorem stopsAfter_of_last {r : BytecodeVm × Ending}
    (hinstr : program.instructions[c.ip]? = some instr)
    (hcount : c.vm.instructionsExecuted ≤ c.vm.limits.maxInstructions)
    (hexec : execInstr stream instr c.ip c.vm.tick = (r.1, r.2.flow))
    (hfinal : chunks = [] ∨ ¬ r.2.flow.Suspends) : StopsAfter program stream chunks c := by
  have hend : vmMove program stream c = .error r :=
    vmMove_eq_error.mpr (.inr (.inr ⟨instr, hinstr, Nat.not_lt.mpr hcount, hexec⟩))
  have hfeed : feed program r chunks = r := by
    obtain rfl | hruns := hfinal
    · rfl
    · exact feed_of_not_suspends hruns chunks
  have hframe := execInstr_frame stream instr c.ip c.vm.tick
  rw [hexec] at hframe
  have hexecuted : executedBy program stream chunks c = c.vm.instructionsExecuted + 1 := by
    unfold executedBy
    rw [interpret_of_end hend, hfeed]
    exact hframe.instructionsExecuted
  refine ⟨by omega, ?_⟩
  rw [hexecuted]
  refine ⟨fun hle => ⟨1, .last hinstr hexec hfinal, hle⟩, fun ⟨n, hn, hle⟩ => ?_⟩
  have hpos := hn.pos hinstr
  omega

end Steps

/-- Every run is stopped, and by the budget one instruction too late. -/
theorem stopsAfter (hchunks : stream = true ∨ chunks = [])
    (hcount : c.vm.instructionsExecuted ≤ c.vm.limits.maxInstructions + 1) :
    StopsAfter program stream chunks c := by
  induction hleft : c.vm.limits.maxInstructions + 1 - c.vm.instructionsExecuted
    generalizing stream chunks c with
  | zero =>
      cases hinstr : program.instructions[c.ip]? with
      | none => exact stopsAfter_of_none hinstr hcount
      | some instr => exact stopsAfter_of_spent hinstr (by omega)
  | succ left ih =>
      have hbudget : c.vm.instructionsExecuted ≤ c.vm.limits.maxInstructions := by omega
      cases hinstr : program.instructions[c.ip]? with
      | none => exact stopsAfter_of_none hinstr hcount
      | some instr =>
          rcases hexec : execInstr stream instr c.ip c.vm.tick with ⟨vm, flow⟩
          have hframe := execInstr_frame stream instr c.ip c.vm.tick
          rw [hexec] at hframe
          have hmax : vm.limits.maxInstructions = c.vm.limits.maxInstructions :=
            congrArg Limits.maxInstructions hframe.limits
          have hnext : vm.instructionsExecuted = c.vm.instructionsExecuted + 1 :=
            hframe.instructionsExecuted
          cases flow with
          | goto ip =>
              exact stopsAfter_of_move hinstr hbudget hexec
                (ih hchunks (by dsimp only; omega) (by dsimp only; omega))
          | panicked =>
              exact @stopsAfter_of_last _ _ _ _ _ (vm, .panicked) hinstr hbudget hexec (.inr id)
          | returned result =>
              by_cases hfinal : chunks = [] ∨ ¬ (Flow.returned result).Suspends
              · exact @stopsAfter_of_last _ _ _ _ _ (vm, .returned result) hinstr hbudget hexec
                  hfinal
              · obtain ⟨hne, hsuspends⟩ := not_or.mp hfinal
                obtain rfl := hchunks.resolve_right hne
                obtain ⟨more, rest, rfl⟩ := List.exists_cons_of_ne_nil hne
                obtain ⟨cont, hcont⟩ :=
                  @Ending.suspends_cases (.returned result) (by_contra hsuspends)
                obtain rfl := Ending.returned.inj hcont
                obtain ⟨hlimits, hnext⟩ := resumed_counts hexec more
                have hmax := congrArg Limits.maxInstructions hlimits
                exact stopsAfter_of_suspension hinstr hbudget hexec
                  (ih (.inl rfl) (by dsimp only; omega) (by dsimp only; omega))

/-- What the budget of a run over all its suspensions promises and what it does. -/
structure BudgetKept (program : BytecodeProgram) (stream : Bool) (chunks : List (List UInt8))
    (vm : BytecodeVm) (r : BytecodeVm × Ending) : Prop where
  le : r.1.instructionsExecuted ≤ vm.limits.maxInstructions + 1
  within_iff : r.1.instructionsExecuted ≤ vm.limits.maxInstructions ↔
    ∃ n ≤ vm.limits.maxInstructions, RunsFor program stream chunks ⟨vm.resetCounters, 0⟩ n

theorem StopsAfter.kept {vm : BytecodeVm}
    (h : StopsAfter program stream chunks ⟨vm.resetCounters, 0⟩) :
    BudgetKept program stream chunks vm
      (feed program (interpret program 0 stream vm.resetCounters) chunks) := by
  refine ⟨h.le, h.within_iff.trans (exists_congr fun n => ?_)⟩
  have hzero : vm.resetCounters.instructionsExecuted = 0 := rfl
  have hlimits : vm.resetCounters.limits = vm.limits := rfl
  dsimp only
  rw [hzero, hlimits, Nat.zero_add, And.comm]

/-- Every call ends. A run in one piece or in chunks executes one instruction more than its
budget at most, and stays within the budget exactly if it ends by itself within it. -/
theorem budget_kept_iff (program : BytecodeProgram) (vm : BytecodeVm)
    (chunks : List (List UInt8)) :
    BudgetKept program false [] vm (runDatagram program vm) ∧
      BudgetKept program true chunks vm (feed program (runStream program vm) chunks) ∧
      ∀ startIp stream vm', Halts (vmMove program stream) ⟨vm', startIp⟩
        (interpret program startIp stream vm') := by
  have hstart : ∀ stream chunks, (stream = true ∨ chunks = []) →
      BudgetKept program stream chunks vm
        (feed program (interpret program 0 stream vm.resetCounters) chunks) :=
    fun stream chunks hchunks => (stopsAfter hchunks (Nat.zero_le _)).kept
  refine ⟨?_, hstart true chunks (.inl rfl), fun startIp stream vm' => interpret_halts ..⟩
  have hdatagram := hstart false [] (.inr rfl)
  have hcount : (runDatagram program vm).1 = (interpret program 0 false vm.resetCounters).1 := by
    unfold runDatagram
    split
    · next heq => rw [heq]
    · rfl
  refine ⟨?_, ?_⟩
  · rw [hcount]
    exact hdatagram.le
  · rw [hcount]
    exact hdatagram.within_iff

/-- A program that never ends. -/
def spin : BytecodeProgram := ⟨[.jump 0], 1⟩

/-- A budget of three instructions is spent by four. -/
theorem budget_overrun : ¬ ∀ (program : BytecodeProgram) (vm : BytecodeVm)
    (chunks : List (List UInt8)),
    (runDatagram program vm).1.instructionsExecuted ≤ vm.limits.maxInstructions ∧
      (feed program (runStream program vm) chunks).1.instructionsExecuted ≤
        vm.limits.maxInstructions := by
  intro h
  exact absurd (h spin (withLimits 1 ⟨3, 1⟩) []).1 (by decide)

end NFdl
