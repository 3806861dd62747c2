import NFdl.Runtime.EmitCode
import NFdl.Bytecode.Chunks
import NFdl.Bytecode.Cursor
import Mathlib.Data.Nat.Count

/-!
# The loop limit

A loop iteration is a transfer of control to an earlier instruction. The
interpreter counts such a transfer only when a conditional jump makes it, and
the compiler closes its loops with unconditional jumps. The limit therefore
holds exactly in the runs that execute no closing jump.
-/

namespace NFdl

open BytecodeVm Machine

/-- A move to an earlier instruction. -/
def Backward (c c' : Config) : Prop := c'.ip < c.ip

instance : DecidableRel Backward := fun c c' => inferInstanceAs (Decidable (c'.ip < c.ip))

theorem not_backward {c c' : Config} (h : c.ip ≤ c'.ip) : ¬ Backward c c' := Nat.not_lt.mpr h

/-- The loop iterations among the first `n` moves of a run. -/
def loopTransfers (program : BytecodeProgram) (stream : Bool) (n : Nat) (start : Config) : Nat :=
  countMoves (vmMove program stream) Backward n start

/-- Every loop iteration of the run is counted, and their number stays within
the limit. -/
structure LoopLimitHolds (program : BytecodeProgram) (stream : Bool) (start : Config) : Prop where
  counted : ∀ n c, Steps (vmMove program stream) n start c →
    c.vm.loopIterations = start.vm.loopIterations + loopTransfers program stream n start
  bounded : ∀ n, start.vm.loopIterations + loopTransfers program stream n start ≤
    start.vm.limits.maxLoopIterations

/-- The run executes no unconditional jump to an earlier instruction. -/
def NoClosingJump (program : BytecodeProgram) (stream : Bool) (start : Config) : Prop :=
  ∀ c target, Reachable (vmMove program stream) start c → Executes program c (.jump target) →
    c.ip ≤ target

/-- What a move does to control and to the loop counter. -/
inductive LoopEffect (instr : Instruction) (c c' : Config) : Prop where
  | forward : c.ip ≤ c'.ip → c'.vm.loopIterations = c.vm.loopIterations → LoopEffect instr c c'
  | jump : instr = .jump c'.ip → c'.vm.loopIterations = c.vm.loopIterations →
      LoopEffect instr c c'
  | counted (condSlot : Nat) : instr = .jumpIfZero condSlot c'.ip → c'.ip < c.ip →
      c'.vm.loopIterations = c.vm.loopIterations + 1 →
      c'.vm.loopIterations ≤ c.vm.limits.maxLoopIterations → LoopEffect instr c c'

section Moves

variable {program : BytecodeProgram} {stream : Bool} {start c c' : Config}

/-- Every move is of one of three kinds: it goes forward, it is an unconditional
jump, or it is a conditional jump that goes back and is counted. -/
theorem vmMove_loopEffect (h : vmMove program stream c = .ok c') :
    ∃ instr, Executes program c instr ∧ LoopEffect instr c c' := by
  obtain ⟨instr, hinstr, hbudget, hexec⟩ := vmMove_eq_ok.mp h
  refine ⟨instr, ⟨hinstr, hbudget⟩, ?_⟩
  by_cases hjump : instr.IsJump
  · cases instr with
    | jump target =>
        simp only [execInstr, Prod.mk.injEq, Flow.goto.injEq] at hexec
        obtain ⟨hvm, rfl⟩ := hexec
        exact .jump rfl (by rw [← hvm, tick_loopIterations])
    | jumpIfZero condSlot target =>
        simp only [execInstr, withSlot] at hexec
        split at hexec
        · simp at hexec
        · obtain ⟨hvm, hip⟩ | ⟨hvm, rfl, hback, hlimit⟩ := execJumpIfZero_eq_goto hexec
          · exact .forward (by omega) (by rw [hvm, tick_loopIterations])
          · exact .counted condSlot rfl hback (by rw [hvm]; rfl) hlimit
    | _ => exact absurd hjump id
  · have hfalls := execInstr_fallsThrough stream hjump c.ip c.vm.tick
    rw [hexec] at hfalls
    have hip := hfalls.next _ rfl
    exact .forward (by omega) hfalls.loopIterations

end Moves

section Steps

variable {program : BytecodeProgram} {stream : Bool} {c d : Config}

theorem RunStep.limits (h : RunStep program stream c d) : d.vm.limits = c.vm.limits := by
  cases h with
  | move hmove => exact reachable_limits ⟨1, .one hmove⟩
  | resume more hsuspended => exact (suspended_waits hsuspended).limits

/-- A step is a move of one of the three kinds, or it stays at a read that waits for bytes. -/
theorem RunStep.loopEffect (h : RunStep program stream c d) :
    (c.ip ≤ d.ip ∧ d.vm.loopIterations = c.vm.loopIterations) ∨
      ∃ instr, Executes program c instr ∧ LoopEffect instr c d := by
  cases h with
  | move hmove => exact .inr (vmMove_loopEffect hmove)
  | resume more hsuspended =>
      have hwaits := suspended_waits hsuspended
      exact .inl ⟨Nat.le_of_eq hwaits.ip.symm, hwaits.loopIterations⟩

/-- A step that executes no closing jump counts the iteration that it makes. -/
theorem RunStep.counts (h : RunStep program stream c d)
    (hforward : ∀ target, Executes program c (.jump target) → c.ip ≤ target) :
    d.vm.loopIterations = c.vm.loopIterations + (if Backward c d then 1 else 0) := by
  obtain ⟨hle, hloop⟩ | ⟨instr, hexecutes, heffect⟩ := h.loopEffect
  · rw [if_neg (not_backward hle), hloop, Nat.add_zero]
  · cases heffect with
    | forward hle hloop => rw [if_neg (not_backward hle), hloop, Nat.add_zero]
    | jump hinstr hloop =>
        have hle := hforward d.ip (hinstr ▸ hexecutes)
        rw [if_neg (not_backward hle), hloop, Nat.add_zero]
    | counted condSlot _ hback hloop _ =>
        have hbackward : Backward c d := hback
        rw [if_pos hbackward, hloop]

/-- A step keeps the counter within the limit. -/
theorem RunStep.loopIterations_le (h : RunStep program stream c d)
    (hle : c.vm.loopIterations ≤ c.vm.limits.maxLoopIterations) :
    d.vm.loopIterations ≤ d.vm.limits.maxLoopIterations := by
  rw [h.limits]
  obtain ⟨-, hloop⟩ | ⟨instr, -, heffect⟩ := h.loopEffect
  · rwa [hloop]
  · cases heffect with
    | forward _ hloop => rwa [hloop]
    | jump _ hloop => rwa [hloop]
    | counted _ _ _ _ hlimit => exact hlimit

/-- Where conditional jumps only go forward, a step counts nothing. -/
theorem RunStep.loopIterations_eq (h : RunStep program stream c d)
    (hforward : ∀ i condSlot target : ℕ,
      program.instructions[i]? = some (.jumpIfZero condSlot target) → i < target) :
    d.vm.loopIterations = c.vm.loopIterations := by
  obtain ⟨-, hloop⟩ | ⟨instr, hexecutes, heffect⟩ := h.loopEffect
  · exact hloop
  · cases heffect with
    | forward _ hloop => exact hloop
    | jump _ hloop => exact hloop
    | counted condSlot hinstr hback _ _ =>
        have hlt := hforward _ _ _ (hinstr ▸ hexecutes.1)
        omega

end Steps

section Moves

variable {program : BytecodeProgram} {stream : Bool} {start c : Config}

/-- The interpreter keeps its counter within the limit. -/
theorem reachable_loopIterations_le
    (hstart : start.vm.loopIterations ≤ start.vm.limits.maxLoopIterations)
    (h : Reachable (vmMove program stream) start c) :
    c.vm.loopIterations ≤ start.vm.limits.maxLoopIterations := by
  obtain ⟨n, hn⟩ := h
  refine hn.invariant_of_reachable
    (P := fun c => c.vm.loopIterations ≤ start.vm.limits.maxLoopIterations) ?_ hstart
  intro a b hreach ha hmove
  have hlimits := reachable_limits hreach
  have hstep : RunStep program stream a b := .move hmove
  rw [← hlimits] at ha ⊢
  rw [← hstep.limits]
  exact hstep.loopIterations_le ha

/-- Without closing jumps, the counter has counted every loop iteration. -/
theorem counted_of_noClosingJump (h : NoClosingJump program stream start) {n : Nat}
    (hn : Steps (vmMove program stream) n start c) :
    c.vm.loopIterations = start.vm.loopIterations + loopTransfers program stream n start := by
  refine hn.counter (p := Backward) (fun c => c.vm.loopIterations) fun a b hreach hmove => ?_
  have hstep : RunStep program stream a b := .move hmove
  exact hstep.counts fun target => h a target hreach

/-- The loop limit holds in a run exactly when it executes no closing jump. -/
theorem loopLimitHolds_iff
    (hstart : start.vm.loopIterations ≤ start.vm.limits.maxLoopIterations) :
    LoopLimitHolds program stream start ↔ NoClosingJump program stream start := by
  constructor
  · rintro h a target ⟨n, hn⟩ ⟨hinstr, hbudget⟩
    by_contra hback
    have hmove : vmMove program stream a = .ok ⟨a.vm.tick, target⟩ :=
      vmMove_eq_ok.mpr ⟨_, hinstr, hbudget, rfl⟩
    have hbefore := h.counted n a hn
    have hafter := h.counted (n + 1) _ (hn.snoc hmove)
    have hbackward : Backward a ⟨a.vm.tick, target⟩ := Nat.lt_of_not_le hback
    have hcount : loopTransfers program stream (n + 1) start =
        loopTransfers program stream n start + 1 := by
      unfold loopTransfers
      rw [countMoves_append hn, countMoves_go hmove, if_pos hbackward]
      rfl
    rw [hcount, tick_loopIterations] at hafter
    omega
  · intro h
    refine ⟨fun n c hn => counted_of_noClosingJump h hn, fun n => ?_⟩
    obtain ⟨k, c, hk, hcount⟩ : ∃ k c, Steps (vmMove program stream) k start c ∧
        loopTransfers program stream n start = loopTransfers program stream k start :=
      exists_steps_countMoves n start
    have hcounted := counted_of_noClosingJump h hk
    have hle := reachable_loopIterations_le hstart ⟨k, hk⟩
    rw [hcount]
    omega

/-- Where conditional jumps only go forward, the interpreter counts nothing. -/
theorem reachable_loopIterations_eq (hforward : ∀ i condSlot target : Nat,
      program.instructions[i]? = some (.jumpIfZero condSlot target) → i < target)
    (h : Reachable (vmMove program stream) start c) :
    c.vm.loopIterations = start.vm.loopIterations := by
  obtain ⟨n, hn⟩ := h
  refine hn.invariant (P := fun c => c.vm.loopIterations = start.vm.loopIterations) ?_ rfl
  intro a b ha hmove
  have hstep : RunStep program stream a b := .move hmove
  exact (hstep.loopIterations_eq hforward).trans ha

end Moves

/-- The loop iterations among the first `i` steps of a run, over all chunks of a stream. -/
def loopSteps (run : ℕ → Config) (i : ℕ) : ℕ :=
  Nat.count (fun k => Backward (run k) (run (k + 1))) i

/-- Every loop iteration of the first `n` steps is counted, and their number stays within the
limit. -/
structure LoopStepsKept (run : ℕ → Config) (n : ℕ) : Prop where
  counted : ∀ i ≤ n, (run i).vm.loopIterations = (run 0).vm.loopIterations + loopSteps run i
  bounded : ∀ i ≤ n,
    (run 0).vm.loopIterations + loopSteps run i ≤ (run 0).vm.limits.maxLoopIterations

/-- The first `n` steps execute no unconditional jump to an earlier instruction. -/
def NoClosingStep (program : BytecodeProgram) (run : ℕ → Config) (n : ℕ) : Prop :=
  ∀ i < n, ∀ target, Executes program (run i) (.jump target) → (run i).ip ≤ target

section Chunks

variable {program : BytecodeProgram} {stream : Bool} {run : ℕ → Config} {n : ℕ}

theorem loopSteps_succ (run : ℕ → Config) (i : ℕ) :
    loopSteps run (i + 1) =
      loopSteps run i + (if Backward (run i) (run (i + 1)) then 1 else 0) :=
  Nat.count_succ _ i

theorem IsRun.bounded (hrun : IsRun program stream run n)
    (hstart : (run 0).vm.loopIterations ≤ (run 0).vm.limits.maxLoopIterations) {i : ℕ}
    (hi : i ≤ n) :
    (run i).vm.limits = (run 0).vm.limits ∧
      (run i).vm.loopIterations ≤ (run i).vm.limits.maxLoopIterations := by
  induction i with
  | zero => exact ⟨rfl, hstart⟩
  | succ i ih =>
      obtain ⟨hlimits, hle⟩ := ih (Nat.le_of_succ_le hi)
      have hstep := hrun i hi
      exact ⟨hstep.limits.trans hlimits, hstep.loopIterations_le hle⟩

/-- Over the chunks of a stream too, the limit holds exactly in the runs that execute no closing
jump. -/
theorem loopStepsKept_iff (hrun : IsRun program stream run n)
    (hstart : (run 0).vm.loopIterations ≤ (run 0).vm.limits.maxLoopIterations) :
    LoopStepsKept run n ↔ NoClosingStep program run n := by
  constructor
  · intro h i hi target hexecutes
    by_contra hback
    -- The jump goes back, but the counter stays.
    have hmove : vmMove program stream (run i) = .ok ⟨(run i).vm.tick, target⟩ :=
      vmMove_eq_ok.mpr ⟨_, hexecutes.1, hexecutes.2, rfl⟩
    have hnext : run (i + 1) = ⟨(run i).vm.tick, target⟩ := by
      have hgoes := (hrun i hi).vmMove hexecutes.1 fun _ => id
      exact Except.ok.inj (hgoes.symm.trans hmove)
    have hbackward : Backward (run i) (run (i + 1)) := by
      rw [hnext]
      exact Nat.lt_of_not_le hback
    have hbefore := h.counted i (Nat.le_of_lt hi)
    have hafter := h.counted (i + 1) hi
    rw [loopSteps_succ, if_pos hbackward, hnext, tick_loopIterations] at hafter
    omega
  · intro h
    have hcounted : ∀ i ≤ n,
        (run i).vm.loopIterations = (run 0).vm.loopIterations + loopSteps run i := by
      intro i hi
      induction i with
      | zero => rfl
      | succ i ih =>
          rw [(hrun i hi).counts (h i hi), ih (Nat.le_of_succ_le hi), loopSteps_succ,
            Nat.add_assoc]
    refine ⟨hcounted, fun i hi => ?_⟩
    obtain ⟨hlimits, hle⟩ := hrun.bounded hstart hi
    rwa [hlimits, hcounted i hi] at hle

/-- Where conditional jumps only go forward, no chunk of a stream makes the counter move. -/
theorem IsRun.loopIterations_eq (hrun : IsRun program stream run n)
    (hforward : ∀ i condSlot target : ℕ,
      program.instructions[i]? = some (.jumpIfZero condSlot target) → i < target) {i : ℕ}
    (hi : i ≤ n) : (run i).vm.loopIterations = (run 0).vm.loopIterations := by
  induction i with
  | zero => rfl
  | succ i ih =>
      exact ((hrun i hi).loopIterations_eq hforward).trans (ih (Nat.le_of_succ_le hi))

end Chunks

/-- For every protocol that compiles, every input and all limits, on datagrams
and on streams, whose runs may be given more bytes: every loop iteration is
counted and the limit holds exactly in the runs that execute no closing jump.
Compiled conditional jumps go forward, so the interpreter counts no iteration at
all. -/
theorem compiled_loop_limit_iff {proto : Protocol} {program : BytecodeProgram}
    {fieldMap : SlotMap} (hcompile : protocolToBytecodeWithMap proto = some (program, fieldMap))
    (limits : Limits) (data : List UInt8) (stream : Bool) :
    (LoopLimitHolds program stream (datagramStart program limits data) ↔
      NoClosingJump program stream (datagramStart program limits data)) ∧
    (program.instructions.length ≤ u16Max →
      ∀ c, Reachable (vmMove program stream) (datagramStart program limits data) c →
        c.vm.loopIterations = 0) ∧
    ∀ run n, IsRun program stream run n → run 0 = datagramStart program limits data →
      (LoopStepsKept run n ↔ NoClosingStep program run n) ∧
      (program.instructions.length ≤ u16Max → ∀ i ≤ n, (run i).vm.loopIterations = 0) := by
  have hforward : program.instructions.length ≤ u16Max → ∀ i condSlot target : ℕ,
      program.instructions[i]? = some (.jumpIfZero condSlot target) → i < target :=
    fun hfits _ _ _ hi => compiled_jumpIfZero_forward hcompile hfits hi
  refine ⟨loopLimitHolds_iff (Nat.zero_le _), fun hfits _ hc =>
    reachable_loopIterations_eq (hforward hfits) hc, fun run n hrun hstart => ?_⟩
  refine ⟨loopStepsKept_iff hrun ?_, fun hfits i hi => ?_⟩
  · rw [hstart]
    exact Nat.zero_le _
  · rw [hrun.loopIterations_eq (hforward hfits) hi, hstart]
    rfl

/-- A loop whose condition never becomes false. -/
def endlessLoop : Protocol where
  name := "P"
  endian := "big"
  messages := [
    { name := "M"
      fields := [], lets := [], validates := [], matches_ := []
      loops := [⟨"l", [], .int 1, [], [], 0⟩] }]
  binds := []

theorem compiled_loop_limit_iff_endlessLoop :
    ∃ program fieldMap, protocolToBytecodeWithMap endlessLoop = some (program, fieldMap) ∧
      (LoopLimitHolds program false (datagramStart program .default [1]) ↔
        NoClosingJump program false (datagramStart program .default [1])) ∧
      (program.instructions.length ≤ u16Max →
        ∀ c, Reachable (vmMove program false) (datagramStart program .default [1]) c →
          c.vm.loopIterations = 0) ∧
      ∀ run n, IsRun program false run n → run 0 = datagramStart program .default [1] →
        (LoopStepsKept run n ↔ NoClosingStep program run n) ∧
        (program.instructions.length ≤ u16Max → ∀ i ≤ n, (run i).vm.loopIterations = 0) := by
  have hsome : (protocolToBytecodeWithMap endlessLoop).isSome := by decide
  obtain ⟨⟨program, fieldMap⟩, hcompile⟩ := Option.isSome_iff_exists.mp hsome
  exact ⟨program, fieldMap, hcompile, compiled_loop_limit_iff hcompile .default [1] false⟩

/-- With a limit of two iterations the endless loop makes six within twenty
moves, none of which is counted. -/
theorem endlessLoop_exceeds_limit :
    ∃ program fieldMap, protocolToBytecodeWithMap endlessLoop = some (program, fieldMap) ∧
      loopTransfers program false 20 (datagramStart program ⟨20, 2⟩ [1]) = 6 ∧
      (interpret program 0 false (datagramStart program ⟨20, 2⟩ [1]).vm).1.loopIterations = 0 ∧
      ¬ LoopLimitHolds program false (datagramStart program ⟨20, 2⟩ [1]) := by
  refine ⟨⟨[.loadConst 0 0, .loadConst 1 1, .jumpIfZero 1 4, .jump 1, .ret], 48⟩, ∅, by rfl,
    by decide, by decide, fun h => ?_⟩
  exact absurd (h.bounded 20) (by decide)

end NFdl
