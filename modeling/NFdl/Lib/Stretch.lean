import NFdl.Lib.Machine
import Mathlib.Tactic.ByContra

/-!
# Stretches of a run

`StepsIn move P n a b` is a stretch of a run whose states before the last one
all satisfy `P`. A run that leaves a region does so at a first state outside,
and the states of a stretch that satisfy a predicate form its list of visits.
-/

namespace Machine

variable {σ ο : Type*}

/-- Exactly `n` moves, each from a state that satisfies `P`. -/
inductive StepsIn (move : σ → Except ο σ) (P : σ → Prop) : Nat → σ → σ → Prop where
  | stay (a) : StepsIn move P 0 a a
  | go {n a b c} : P a → move a = .ok b → StepsIn move P n b c → StepsIn move P (n + 1) a c

/-- The states among the first `n` of a run that satisfy `p` and are moved on from. -/
def visits (move : σ → Except ο σ) (p : σ → Prop) [DecidablePred p] : Nat → σ → List σ
  | 0, _ => []
  | n + 1, a =>
    match move a with
    | .ok b => (if p a then [a] else []) ++ visits move p n b
    | .error _ => []

namespace StepsIn

variable {move : σ → Except ο σ} {P Q : σ → Prop} {n m : Nat} {a b c : σ}

theorem steps (h : StepsIn move P n a b) : Steps move n a b := by
  induction h with
  | stay => exact .stay _
  | go _ hb _ ih => exact .go hb ih

theorem mono (h : StepsIn move P n a b) (hPQ : ∀ c, P c → Q c) : StepsIn move Q n a b := by
  induction h with
  | stay => exact .stay _
  | go ha hb _ ih => exact .go (hPQ _ ha) hb ih

theorem of_steps (h : Steps move n a b) : StepsIn move (fun _ => True) n a b := by
  induction h with
  | stay => exact .stay _
  | go hb _ ih => exact .go trivial hb ih

theorem append (h : StepsIn move P n a b) (h' : StepsIn move P m b c) :
    StepsIn move P (n + m) a c := by
  induction h with
  | stay => simpa using h'
  | go ha hb _ ih =>
      rw [Nat.add_right_comm]
      exact .go ha hb (ih h')

theorem one (ha : P a) (h : move a = .ok b) : StepsIn move P 1 a b := .go ha h (.stay b)

theorem zero_iff : StepsIn move P 0 a b ↔ a = b := by
  refine ⟨fun h => ?_, fun h => h ▸ .stay a⟩
  cases h with
  | stay => rfl

theorem succ_iff : StepsIn move P (n + 1) a c ↔
    P a ∧ ∃ b, move a = .ok b ∧ StepsIn move P n b c := by
  refine ⟨fun h => ?_, fun ⟨ha, b, hb, hc⟩ => .go ha hb hc⟩
  cases h with
  | go ha hb hc => exact ⟨ha, _, hb, hc⟩

/-- A stretch passes through every state that the run reaches on its way. -/
theorem split (h : StepsIn move P (n + m) a c) (hb : Steps move n a b) :
    StepsIn move P n a b ∧ StepsIn move P m b c := by
  induction hb with
  | stay => exact ⟨.stay _, by simpa using h⟩
  | go hgo _ ih =>
      rw [Nat.add_right_comm] at h
      obtain ⟨ha, b', hb', hrest⟩ := succ_iff.mp h
      cases hgo.symm.trans hb'
      obtain ⟨hfirst, hlast⟩ := ih hrest
      exact ⟨.go ha hgo hfirst, hlast⟩

/-- What the moves of a stretch preserve holds at its end. -/
theorem invariant {R : σ → Prop} (hmove : ∀ a b, P a → R a → move a = .ok b → R b)
    (h : StepsIn move P n a b) (ha : R a) : R b := by
  induction h with
  | stay => exact ha
  | go hP hb _ ih => exact ih (hmove _ _ hP ha hb)

/-- The rule for a relation between the ends of a stretch that every move has. -/
theorem relates {R : σ → σ → Prop} (hrefl : ∀ a, R a a) (htrans : ∀ a b c, R a b → R b c → R a c)
    (hmove : ∀ a b, P a → move a = .ok b → R a b) (h : StepsIn move P n a b) : R a b := by
  induction h with
  | stay => exact hrefl _
  | go hP hb _ ih => exact htrans _ _ _ (hmove _ _ hP hb) ih

/-- Where every move climbs, all later states lie above the first. -/
theorem climbs {rank : σ → Nat} (hmove : ∀ a b, P a → move a = .ok b → rank a < rank b)
    (h : StepsIn move P n a b) {low : Nat} (ha : low < rank a) :
    StepsIn move (fun c => P c ∧ low < rank c) n a b := by
  induction h with
  | stay => exact .stay _
  | go hP hb _ ih => exact .go ⟨hP, ha⟩ hb (ih (Nat.lt_trans ha (hmove _ _ hP hb)))

/-- The first state of a stretch outside a region. -/
theorem first_outside (H : σ → Prop) (h : StepsIn move P n a b) (hb : ¬ H b) :
    ∃ m k c, n = m + k ∧ StepsIn move (fun c => P c ∧ H c) m a c ∧ ¬ H c ∧
      StepsIn move P k c b := by
  induction h with
  | stay a => exact ⟨0, 0, a, rfl, .stay a, hb, .stay a⟩
  | @go n a a' b hP ha' hrest ih =>
      by_cases ha : H a
      · obtain ⟨m, k, c, rfl, hfirst, hc, hlast⟩ := ih hb
        exact ⟨m + 1, k, c, by omega, .go ⟨hP, ha⟩ ha' hfirst, hc, hlast⟩
      · exact ⟨0, n + 1, a, by omega, .stay a, ha, .go hP ha' hrest⟩

/-- A run leaves a region in one state only. -/
theorem exit_unique (h : StepsIn move P n a b) (hb : ¬ P b) (h' : StepsIn move P m a c)
    (hc : ¬ P c) : n = m ∧ b = c := by
  induction h generalizing m with
  | stay =>
      cases h' with
      | stay => exact ⟨rfl, rfl⟩
      | go hP _ _ => exact absurd hP hb
  | go hP hgo _ ih =>
      cases h' with
      | stay => exact absurd hP hc
      | go _ hgo' hrest =>
          cases hgo.symm.trans hgo'
          obtain ⟨rfl, hbc⟩ := ih hb hrest
          exact ⟨rfl, hbc⟩

end StepsIn

section Visits

variable {move : σ → Except ο σ} {P p : σ → Prop} [DecidablePred p] {n m : Nat} {a b : σ}

theorem visits_go (h : move a = .ok b) :
    visits move p (n + 1) a = (if p a then [a] else []) ++ visits move p n b := by
  simp [visits, h]

theorem visits_append (h : Steps move n a b) :
    visits move p (n + m) a = visits move p n a ++ visits move p m b := by
  induction h with
  | stay => simp [visits]
  | go hb _ ih => rw [Nat.add_right_comm, visits_go hb, visits_go hb, ih, List.append_assoc]

/-- A stretch that avoids `p` has no visits. -/
theorem visits_eq_nil (hp : ∀ c, P c → ¬ p c) (h : StepsIn move P n a b) :
    visits move p n a = [] := by
  induction h with
  | stay => rfl
  | go hP hb _ ih => rw [visits_go hb, if_neg (hp _ hP), ih, List.nil_append]

/-- A climbing stretch and the move that ends it visit the height of their first
state only there. -/
theorem visits_climbing {rank : σ → Nat} {c : σ}
    (hclimb : ∀ a b, P a → move a = .ok b → rank a < rank b) (h : StepsIn move P n a b)
    (hlast : move b = .ok c) : visits move (fun d => rank d = rank a) (n + 1) a = [a] := by
  cases n with
  | zero =>
      obtain rfl := StepsIn.zero_iff.mp h
      rw [visits_go hlast, if_pos rfl]
      rfl
  | succ n =>
      obtain ⟨hP, a', ha', hrest⟩ := StepsIn.succ_iff.mp h
      have hstart := hclimb a a' hP ha'
      have hend : rank a < rank b := by
        refine hrest.invariant (R := fun d => rank a < rank d) ?_ hstart
        intro d d' hd hlt hmove
        exact Nat.lt_trans hlt (hclimb d d' hd hmove)
      have hrest' := hrest.climbs hclimb hstart
      rw [visits_go ha', if_pos rfl, visits_append hrest.steps,
        visits_eq_nil (fun d hd => Nat.ne_of_gt hd.2) hrest', visits_go hlast,
        if_neg (Nat.ne_of_gt hend)]
      rfl

end Visits

end Machine
