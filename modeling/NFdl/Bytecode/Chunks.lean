import NFdl.Bytecode.Control
import NFdl.Bytecode.Cursor
import NFdl.Bytecode.Resume

/-!
# Runs over chunks

A run over a datagram is a chain of moves. A run over the chunks of a stream also waits at reads
that suspend, and goes on there once it is given more bytes: nothing but the input differs then.
-/

namespace NFdl

open BytecodeVm Machine

/-- One step of a run: an instruction that goes on, or a suspended stream that is given more
bytes. -/
inductive RunStep (program : BytecodeProgram) : Bool → Config → Config → Prop where
  | move {stream c d} : vmMove program stream c = .ok d → RunStep program stream c d
  | resume {c vm cont} (more : List UInt8) :
      vmMove program true c = .error (vm, .returned (.ok (.needMoreBytes cont))) →
      RunStep program true c ⟨(restore cont).appendInput more, cont.ip⟩

/-- The states up to the `n`-th are those of a run. -/
def IsRun (program : BytecodeProgram) (stream : Bool) (run : ℕ → Config) (n : ℕ) : Prop :=
  ∀ i < n, RunStep program stream (run i) (run (i + 1))

section Steps

variable {program : BytecodeProgram} {stream : Bool} {c d : Config} {slot : ℕ}

/-- A run waits at a read that suspends, with a snapshot of the machine. -/
theorem suspended_at {vm : BytecodeVm} {cont : VmContinuation}
    (h : vmMove program true c = .error (vm, .returned (.ok (.needMoreBytes cont)))) :
    ∃ instr, program.instructions[c.ip]? = some instr ∧
      (execInstr true instr c.ip c.vm.tick).2.Suspends ∧
      SuspendedAt instr c.ip c.vm.tick (vm, .returned (.ok (.needMoreBytes cont))) ∧
      cont = vm.snapshot c.ip (instr.bytesShort vm) := by
  obtain ⟨_, hr⟩ | ⟨_, _, _, hr⟩ | ⟨instr, hinstr, hbudget, hexec⟩ := vmMove_eq_error.mp h
  · simp at hr
  · simp [instructionLimit] at hr
  · have hsuspends : (execInstr true instr c.ip c.vm.tick).2.Suspends := by
      rw [hexec]
      trivial
    have hsuspended := execInstr_suspends hsuspends
    rw [hexec] at hsuspended
    have hflow : Flow.returned (.ok (.needMoreBytes cont)) = .returned (.ok (.needMoreBytes
        (vm.snapshot c.ip (instr.bytesShort vm)))) := congrArg Prod.snd hsuspended.snapshot
    simp only [Flow.returned.injEq, Except.ok.injEq, StreamOutcome.needMoreBytes.injEq] at hflow
    exact ⟨instr, hinstr, hsuspends, hsuspended, hflow⟩

/-- What a run keeps that waits for bytes: its slots, its loop counter, its limits and its
place. -/
structure Waits (c : Config) (cont : VmContinuation) : Prop where
  slots : cont.slots = c.vm.slots
  loopIterations : cont.loopIterations = c.vm.loopIterations
  limits : cont.limits = c.vm.limits
  ip : cont.ip = c.ip

theorem suspended_waits {vm : BytecodeVm} {cont : VmContinuation}
    (h : vmMove program true c = .error (vm, .returned (.ok (.needMoreBytes cont)))) :
    Waits c cont := by
  obtain ⟨instr, -, -, hsuspended, rfl⟩ := suspended_at h
  by_cases haligns : instr.AlignsFirst
  · have halign := hsuspended.aligned haligns
    exact ⟨(alignToByte_slots halign).1, (alignToByte_slots halign).2,
      (alignToByte_frame halign).limits, rfl⟩
  · have hsame : vm = c.vm.tick := hsuspended.unaligned haligns
    rw [hsame]
    exact ⟨rfl, rfl, rfl, rfl⟩

/-- A step writes at most the destination of its instruction. -/
theorem RunStep.slots (h : RunStep program stream c d)
    (hdest : ∀ instr, program.instructions[c.ip]? = some instr → instr.dest ≠ some slot) :
    d.vm.slots[slot]? = c.vm.slots[slot]? := by
  cases h with
  | move hmove => exact vmMove_slots hmove fun instr hinstr heq => hdest instr hinstr heq.symm
  | resume more hsuspended =>
      exact congrArg (fun slots : List UInt64 => slots[slot]?) (suspended_waits hsuspended).slots

/-- An instruction that never suspends goes on by a move. -/
theorem RunStep.vmMove {instr : Instruction} (h : RunStep program stream c d)
    (hinstr : program.instructions[c.ip]? = some instr)
    (hgoes : ∀ vm, ¬ (execInstr true instr c.ip vm).2.Suspends) :
    NFdl.vmMove program stream c = .ok d := by
  cases h with
  | move hmove => exact hmove
  | resume more hsuspended =>
      obtain ⟨instr', hinstr', hsuspends, -, -⟩ := suspended_at hsuspended
      obtain rfl := Option.some.inj (hinstr.symm.trans hinstr')
      exact absurd hsuspends (hgoes c.vm.tick)

end Steps

/-- The states of a datagram run, while it goes on. -/
def tracedRun (program : BytecodeProgram) (data : List UInt8) (i : ℕ) : Config :=
  (trace (vmMove program false) 40 (datagramStart program .default data)).getD i
    (datagramStart program .default data)

section Traced

variable {program : BytecodeProgram} {data : List UInt8} {n : ℕ}

theorem tracedRun_steps
    (hn : n < (trace (vmMove program false) 40 (datagramStart program .default data)).length) :
    Steps (vmMove program false) n (datagramStart program .default data)
      (tracedRun program data n) := by
  have hmem : (trace (vmMove program false) 40 (datagramStart program .default data))[n]? =
      some (tracedRun program data n) := by
    unfold tracedRun
    rw [List.getD_eq_getElem?_getD, List.getElem?_eq_getElem hn]
    rfl
  exact steps_of_mem_trace hmem

/-- A stretch of a traced run. -/
theorem tracedRun_between
    (hn : n < (trace (vmMove program false) 40 (datagramStart program .default data)).length)
    {i : ℕ} (hi : i ≤ n) :
    Steps (vmMove program false) (n - i) (tracedRun program data i) (tracedRun program data n) := by
  have hsteps := tracedRun_steps hn
  rw [← Nat.add_sub_of_le hi] at hsteps
  obtain ⟨c, hc, hrest⟩ := hsteps.middle
  obtain rfl := hc.unique (tracedRun_steps (Nat.lt_of_le_of_lt hi hn))
  rwa [Nat.add_sub_of_le hi] at hrest

theorem tracedRun_isRun
    (hn : n < (trace (vmMove program false) 40 (datagramStart program .default data)).length) :
    IsRun program false (tracedRun program data) n := by
  intro i hi
  have hstep := tracedRun_between (Nat.lt_of_le_of_lt hi hn) (Nat.le_succ i)
  rw [Nat.succ_sub (Nat.le_refl i), Nat.sub_self] at hstep
  obtain ⟨d, hd, hstay⟩ := Steps.succ_iff.mp hstep
  rw [Steps.zero_iff.mp hstay] at hd
  exact .move hd

end Traced

end NFdl
