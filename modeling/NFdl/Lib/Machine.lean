import Mathlib.Data.Nat.Notation
import Mathlib.Tactic.TypeStar

/-!
# Deterministic machines

A machine is a function that either moves to a next state or ends the run with
an outcome. `Steps move n a b` means exactly `n` moves take `a` to `b`, and
`Halts move a o` that the run from `a` ends with `o`. The fuelled runner is
proved equivalent to these relations, so that a program can be run and reasoned
about through one step function.
-/

namespace Machine

variable {σ ο : Type*}

/-- Exactly `n` moves of the machine. The attempt that ends a run is not
counted, because it leads to no state. -/
inductive Steps (move : σ → Except ο σ) : Nat → σ → σ → Prop where
  | stay (a) : Steps move 0 a a
  | go {n a b c} : move a = .ok b → Steps move n b c → Steps move (n + 1) a c

/-- The run from `a` ends with outcome `o`. -/
def Halts (move : σ → Except ο σ) (a : σ) (o : ο) : Prop :=
  ∃ n b, Steps move n a b ∧ move b = .error o

/-- Some number of moves leads from `a` to `b`. -/
def Reachable (move : σ → Except ο σ) (a b : σ) : Prop := ∃ n, Steps move n a b

namespace Steps

variable {move : σ → Except ο σ}

@[simp] theorem zero_iff {a b : σ} : Steps move 0 a b ↔ a = b := by
  refine ⟨fun h => ?_, fun h => h ▸ .stay a⟩
  cases h with
  | stay => rfl

theorem one {a b : σ} (h : move a = .ok b) : Steps move 1 a b := .go h (.stay b)

theorem succ_iff {n : Nat} {a c : σ} :
    Steps move (n + 1) a c ↔ ∃ b, move a = .ok b ∧ Steps move n b c := by
  refine ⟨fun h => ?_, fun ⟨b, hb, hc⟩ => .go hb hc⟩
  cases h with
  | go hb hc => exact ⟨_, hb, hc⟩

/-- Two consecutive stretches of a run form one, and their lengths add. -/
theorem append {n m : Nat} {a b c : σ}
    (first : Steps move n a b) (second : Steps move m b c) : Steps move (n + m) a c := by
  induction first with
  | stay => simpa using second
  | @go n a b' b hb _ ih =>
      rw [Nat.add_right_comm]
      exact .go hb (ih second)

theorem snoc {n : Nat} {a b c : σ}
    (h : Steps move n a b) (hc : move b = .ok c) : Steps move (n + 1) a c :=
  h.append (one hc)

/-- The state after `n` moves is unique. -/
theorem unique {n : Nat} {a b b' : σ}
    (h : Steps move n a b) (h' : Steps move n a b') : b = b' := by
  induction h generalizing b' with
  | stay => exact zero_iff.mp h'
  | go hb _ ih =>
      obtain ⟨c, hc, hrest⟩ := succ_iff.mp h'
      cases hb.symm.trans hc
      exact ih hrest

/-- A run of `n + m` moves passes through the state after `n` of them. -/
theorem middle {n m : Nat} {a c : σ} (h : Steps move (n + m) a c) :
    ∃ b, Steps move n a b ∧ Steps move m b c := by
  induction n generalizing a with
  | zero => exact ⟨a, .stay a, by simpa using h⟩
  | succ n ih =>
      rw [Nat.add_right_comm] at h
      obtain ⟨a', ha, hrest⟩ := succ_iff.mp h
      obtain ⟨b, hb, hc⟩ := ih hrest
      exact ⟨b, .go ha hb, hc⟩

/-- What every move preserves holds in every state of a run. -/
theorem invariant {P : σ → Prop} (hmove : ∀ a b, P a → move a = .ok b → P b)
    {n : Nat} {a b : σ} (h : Steps move n a b) (ha : P a) : P b := by
  induction h with
  | stay => exact ha
  | go hb _ ih => exact ih (hmove _ _ ha hb)

/-- The invariant rule where each move may also use that its source state is
reachable from the start of the run. -/
theorem invariant_of_reachable {P : σ → Prop} {start : σ}
    (hmove : ∀ a b, Reachable move start a → P a → move a = .ok b → P b)
    {n : Nat} {b : σ} (h : Steps move n start b) (hstart : P start) : P b := by
  have along : ∀ k a c, Reachable move start a → P a → Steps move k a c → P c := by
    intro k a c hreach ha hsteps
    induction hsteps with
    | stay => exact ha
    | go hb _ ih =>
        obtain ⟨m, hm⟩ := hreach
        exact ih ⟨m + 1, hm.snoc hb⟩ (hmove _ _ ⟨m, hm⟩ ha hb)
  exact along n start b ⟨0, .stay start⟩ hstart h

/-- Lockstep simulation: if the second machine can match every move of the
first from related states, it can match every run of the first. -/
theorem simulate {τ ο' : Type*} {move' : τ → Except ο' τ} {R : σ → τ → Prop}
    (hmove : ∀ a x b, R a x → move a = .ok b → ∃ y, move' x = .ok y ∧ R b y)
    {n : Nat} {a b : σ} {x : τ} (h : Steps move n a b) (hx : R a x) :
    ∃ y, Steps move' n x y ∧ R b y := by
  induction h generalizing x with
  | stay => exact ⟨x, .stay x, hx⟩
  | go hb _ ih =>
      obtain ⟨x', hx', hR⟩ := hmove _ _ _ hx hb
      obtain ⟨y, hy, hRy⟩ := ih hR
      exact ⟨y, .go hx' hy, hRy⟩

/-- A run cannot go past the state in which it ends. -/
theorem le_of_end {n m : Nat} {a b c : σ} {o : ο}
    (hb : Steps move n a b) (hend : move b = .error o) (hc : Steps move m a c) : m ≤ n := by
  induction hb generalizing m with
  | stay =>
      cases hc with
      | stay => exact Nat.le_refl 0
      | go hgo _ => simp [hgo] at hend
  | go hgo _ ih =>
      cases hc with
      | stay => exact Nat.zero_le _
      | go hgo' hrest =>
          cases hgo.symm.trans hgo'
          exact Nat.succ_le_succ (ih hend hrest)

end Steps

namespace Halts

variable {move : σ → Except ο σ}

theorem unique {a : σ} {o o' : ο} (h : Halts move a o) (h' : Halts move a o') : o = o' := by
  obtain ⟨n, b, hb, hend⟩ := h
  obtain ⟨m, c, hc, hend'⟩ := h'
  have hnm : n = m := Nat.le_antisymm (hc.le_of_end hend' hb) (hb.le_of_end hend hc)
  subst hnm
  cases hb.unique hc
  exact Except.error.inj (hend.symm.trans hend')

theorem of_steps {n : Nat} {a b : σ} {o : ο}
    (h : Steps move n a b) (hb : Halts move b o) : Halts move a o := by
  obtain ⟨m, c, hc, hend⟩ := hb
  exact ⟨n + m, c, h.append hc, hend⟩

/-- Every state of a run that ends has the ending of the run. -/
theorem after {n : Nat} {a b : σ} {o : ο} (h : Halts move a o) (hb : Steps move n a b) :
    Halts move b o := by
  induction hb with
  | stay => exact h
  | go hgo _ ih =>
      obtain ⟨m, c, hc, hend⟩ := h
      cases hc with
      | stay => simp [hgo] at hend
      | go hgo' hrest =>
          cases hgo.symm.trans hgo'
          exact ih ⟨_, c, hrest, hend⟩

theorem of_end {a : σ} {o : ο} (h : move a = .error o) : Halts move a o := ⟨0, a, .stay a, h⟩

end Halts

/-- Run for at most `fuel` attempts, the ending one included. `none` only says
that the fuel was spent. -/
def run (move : σ → Except ο σ) : Nat → σ → Option ο
  | 0, _ => none
  | fuel + 1, a =>
    match move a with
    | .ok b => run move fuel b
    | .error o => some o

theorem run_eq_some_iff {move : σ → Except ο σ} {fuel : Nat} {a : σ} {o : ο} :
    run move fuel a = some o ↔ ∃ n b, n < fuel ∧ Steps move n a b ∧ move b = .error o := by
  induction fuel generalizing a with
  | zero => simp [run]
  | succ fuel ih =>
      unfold run
      cases ha : move a with
      | ok b =>
          simp only [ih]
          constructor
          · rintro ⟨n, c, hn, hc, hend⟩
            exact ⟨n + 1, c, by omega, .go ha hc, hend⟩
          · rintro ⟨n, c, hn, hc, hend⟩
            cases hc with
            | stay => simp [ha] at hend
            | go hb hrest =>
                cases ha.symm.trans hb
                exact ⟨_, c, by omega, hrest, hend⟩
      | error o' =>
          simp only [Option.some.injEq]
          constructor
          · rintro rfl
            exact ⟨0, a, by omega, .stay a, ha⟩
          · rintro ⟨n, c, _, hc, hend⟩
            exact Halts.unique (.of_end ha) ⟨n, c, hc, hend⟩

theorem Halts.of_run {move : σ → Except ο σ} {fuel : Nat} {a : σ} {o : ο}
    (h : run move fuel a = some o) : Halts move a o := by
  obtain ⟨n, b, _, hb, hend⟩ := run_eq_some_iff.mp h
  exact ⟨n, b, hb, hend⟩

/-- A measure that every move decreases bounds the fuel a run needs. -/
theorem run_isSome_of_rank {move : σ → Except ο σ} {P : σ → Prop} (rank : σ → Nat)
    (hmove : ∀ a b, P a → move a = .ok b → P b ∧ rank b < rank a)
    {fuel : Nat} {a : σ} (ha : P a) (hfuel : rank a < fuel) :
    ∃ o, run move fuel a = some o := by
  induction fuel generalizing a with
  | zero => omega
  | succ fuel ih =>
      unfold run
      cases hgo : move a with
      | ok b =>
          obtain ⟨hb, hlt⟩ := hmove a b ha hgo
          exact ih hb (by omega)
      | error o => exact ⟨o, rfl⟩

section Count

variable {move : σ → Except ο σ} {p : σ → σ → Prop} [DecidableRel p]

/-- How many of the first `n` moves of a run satisfy `p`; a run that ends before
has no further moves. -/
def countMoves (move : σ → Except ο σ) (p : σ → σ → Prop) [DecidableRel p] : Nat → σ → Nat
  | 0, _ => 0
  | n + 1, a =>
    match move a with
    | .ok b => (if p a b then 1 else 0) + countMoves move p n b
    | .error _ => 0

theorem countMoves_go {n : Nat} {a b : σ} (h : move a = .ok b) :
    countMoves move p (n + 1) a = (if p a b then 1 else 0) + countMoves move p n b := by
  simp [countMoves, h]

/-- The count of two consecutive stretches of a run is the sum of their counts. -/
theorem countMoves_append {n m : Nat} {a b : σ} (h : Steps move n a b) :
    countMoves move p (n + m) a = countMoves move p n a + countMoves move p m b := by
  induction h with
  | stay => simp [countMoves]
  | go hb _ ih => rw [Nat.add_right_comm, countMoves_go hb, countMoves_go hb, ih, Nat.add_assoc]

/-- Every count is that of a stretch of the run. -/
theorem exists_steps_countMoves (n : Nat) (a : σ) :
    ∃ k b, Steps move k a b ∧ countMoves move p n a = countMoves move p k a := by
  induction n generalizing a with
  | zero => exact ⟨0, a, .stay a, rfl⟩
  | succ n ih =>
      cases ha : move a with
      | ok b =>
          obtain ⟨k, c, hsteps, hcount⟩ := ih b
          exact ⟨k + 1, c, .go ha hsteps, by rw [countMoves_go ha, countMoves_go ha, hcount]⟩
      | error o => exact ⟨0, a, .stay a, by simp [countMoves, ha]⟩

/-- A counter that every move of the run raises by one exactly when the move
satisfies `p` has counted those moves. -/
theorem Steps.counter {start : σ} (counter : σ → Nat)
    (hmove : ∀ a b, Reachable move start a → move a = .ok b →
      counter b = counter a + if p a b then 1 else 0)
    {n : Nat} {b : σ} (h : Steps move n start b) :
    counter b = counter start + countMoves move p n start := by
  induction n generalizing b with
  | zero =>
      obtain rfl := zero_iff.mp h
      rfl
  | succ n ih =>
      obtain ⟨a, ha, hlast⟩ := h.middle
      obtain ⟨b', hb', hstay⟩ := succ_iff.mp hlast
      obtain rfl := zero_iff.mp hstay
      rw [hmove a b' ⟨n, ha⟩ hb', ih ha, countMoves_append ha, countMoves_go hb', Nat.add_assoc]
      rfl

end Count

section Trace

variable {move : σ → Except ο σ}

/-- The first states of a run, at most `fuel` of them. -/
def trace (move : σ → Except ο σ) : Nat → σ → List σ
  | 0, _ => []
  | fuel + 1, a => a ::
    match move a with
    | .ok b => trace move fuel b
    | .error _ => []

/-- A trace that is not cut off by its fuel lists every state of the run. -/
theorem Steps.mem_trace {n fuel : Nat} {a c : σ} (h : Steps move n a c)
    (hfuel : (trace move fuel a).length < fuel) : (trace move fuel a)[n]? = some c := by
  induction h generalizing fuel with
  | stay =>
      cases fuel with
      | zero => simp at hfuel
      | succ fuel => rfl
  | go hb _ ih =>
      cases fuel with
      | zero => simp at hfuel
      | succ fuel =>
          simp only [trace, hb, List.length_cons, Nat.add_lt_add_iff_right] at hfuel
          simpa [trace, hb] using ih hfuel

/-- Every entry of a trace is a state of the run. -/
theorem steps_of_mem_trace {n fuel : Nat} {a c : σ} (h : (trace move fuel a)[n]? = some c) :
    Steps move n a c := by
  induction fuel generalizing a n with
  | zero => simp [trace] at h
  | succ fuel ih =>
      cases n with
      | zero =>
          obtain rfl := Option.some.inj h
          exact .stay _
      | succ n =>
          cases hmove : move a with
          | ok b => exact .go hmove (ih (by simpa [trace, hmove] using h))
          | error o => simp [trace, hmove] at h

end Trace

end Machine
