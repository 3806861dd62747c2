import Mathlib.Data.List.Induction

/-!
# One-shot timers

A log of what happens to timers: they are scheduled with a deadline, cancelled, fired, and
dropped with their owners. Firing goes in rounds, each with the time that a clock shows. In
a log that every timer lives through, a timer fires once for each time it is scheduled, in
the first round whose time reaches its deadline, unless it ends before.
-/

namespace OneShot

variable {τ ω : Type} [DecidableEq τ] [DecidableEq ω]

inductive Event (τ ω : Type) where
  | scheduled (timer : τ) (deadline : ℕ)
  | cancelled (timer : τ)
  | dropped (owner : ω)
  | fired (timer : τ)
  | round (now : ℕ)
  | settled
deriving DecidableEq

/-- Where a timer is between being scheduled and being fired. -/
inductive Phase where
  | idle
  | armed (deadline : ℕ)
  | due
deriving DecidableEq

/-- What an event makes of a timer. Only a due timer is fired, and no round is settled with a
due timer. -/
def Phase.next (owner : τ → ω) (t : τ) (p : Phase) : Event τ ω → Option Phase
  | .scheduled t' d => some (if t' = t then .armed d else p)
  | .cancelled t' => some (if t' = t then .idle else p)
  | .dropped o => some (if o = owner t then .idle else p)
  | .fired t' => if t' = t then (if p = .due then some .idle else none) else some p
  | .round now => some (match p with
      | .armed d => if d ≤ now then .due else .armed d
      | p => p)
  | .settled => if p = .due then none else some p

/-- The log is one that the timer can live through. -/
def Lives (owner : τ → ω) (t : τ) (log : List (Event τ ω)) : Prop :=
  ∃ p, log.foldlM (Phase.next owner t) .idle = some p ∧ p ≠ .due

/-- The events that end a timer that is armed, apart from its firing. -/
def Event.Ends (owner : τ → ω) (t : τ) : Event τ ω → Prop
  | .scheduled t' _ => t' = t
  | .cancelled t' => t' = t
  | .dropped o => o = owner t
  | _ => False

/-- Every scheduled timer that does not end before fires exactly once, in the first round that
reaches its deadline, and no other timer fires. -/
structure FiresOnce (owner : τ → ω) (log : List (Event τ ω)) : Prop where
  /-- A timer that waits for its first round to reach its deadline fires once in this round,
  unless it is dropped there instead, and it does not fire before. -/
  fires : ∀ (before waiting batch after : List (Event τ ω)) t d now,
    log = before ++ Event.scheduled t d ::
      (waiting ++ Event.round now :: (batch ++ Event.settled :: after)) →
    (∀ e ∈ waiting, ¬ e.Ends owner t) → (∀ now', .round now' ∈ waiting → now' < d) → d ≤ now →
    .settled ∉ batch → .cancelled t ∉ batch → (∀ d', .scheduled t d' ∉ batch) →
    .fired t ∉ waiting ∧
      (batch.count (.fired t) = 1 ∨ .fired t ∉ batch ∧ .dropped (owner t) ∈ batch)
  /-- A timer that has been cancelled, dropped or fired does not fire until it is scheduled. -/
  silent : ∀ before e between after t, log = before ++ e :: (between ++ Event.fired t :: after) →
    e = .cancelled t ∨ e = .dropped (owner t) ∨ e = .fired t → ∃ d, .scheduled t d ∈ between
  /-- A timer fires only after it was scheduled, and after a round that reached its deadline. -/
  scheduled : ∀ before after t, log = before ++ Event.fired t :: after →
    ∃ d earlier between now, before = earlier ++ Event.scheduled t d :: between ∧
      (∀ d', .scheduled t d' ∉ between) ∧ .round now ∈ between ∧ d ≤ now

def Event.isScheduled : Event τ ω → Bool
  | .scheduled _ _ => true
  | _ => false

/-- The timer that an event fires. -/
def Event.fired? : Event τ ω → Option τ
  | .fired t => some t
  | _ => none

/-- A timer was last scheduled with a deadline, after a number of other schedulings. -/
def LastScheduled (t : τ) (log : List (Event τ ω)) (deadline number : ℕ) : Prop :=
  ∃ earlier between, log = earlier ++ .scheduled t deadline :: between ∧
    (∀ d, .scheduled t d ∉ between) ∧ earlier.countP Event.isScheduled = number

/-- A timer was last scheduled for a deadline that is not after that of the other. -/
def NotAfter (log : List (Event τ ω)) (t t' : τ) : Prop :=
  ∃ d n d' n', LastScheduled t log d n ∧ LastScheduled t' log d' n' ∧ d ≤ d'

/-- The order of timers: by deadline, and among equal deadlines by the time they were last
scheduled. -/
def Precedes (log : List (Event τ ω)) (t t' : τ) : Prop :=
  ∃ d n d' n', LastScheduled t log d n ∧ LastScheduled t' log d' n' ∧
    (d < d' ∨ d = d' ∧ n < n')

section LastScheduled

omit [DecidableEq τ] [DecidableEq ω]

variable {t t' : τ} {log : List (Event τ ω)} {d d' n n' : ℕ}

theorem lastScheduled_concat (t : τ) (log : List (Event τ ω)) (d : ℕ) :
    LastScheduled t (log ++ [.scheduled t d]) d (log.countP Event.isScheduled) :=
  ⟨log, [], rfl, fun _ => List.not_mem_nil, rfl⟩

theorem LastScheduled.append (h : LastScheduled t log d n) {more : List (Event τ ω)}
    (hmore : ∀ d, .scheduled t d ∉ more) : LastScheduled t (log ++ more) d n := by
  obtain ⟨earlier, between, rfl, hnone, hcount⟩ := h
  refine ⟨earlier, between ++ more, by simp, fun d' hd' => ?_, hcount⟩
  exact (List.mem_append.mp hd').elim (hnone d') (hmore d')

theorem LastScheduled.lt (h : LastScheduled t log d n) : n < log.countP Event.isScheduled := by
  obtain ⟨earlier, between, rfl, -, rfl⟩ := h
  rw [List.countP_append, List.countP_cons_of_pos rfl]
  omega

theorem LastScheduled.getElem?_filter (h : LastScheduled t log d n) :
    (log.filter Event.isScheduled)[n]? = some (.scheduled t d) := by
  obtain ⟨earlier, between, rfl, -, rfl⟩ := h
  rw [List.filter_append, List.filter_cons_of_pos rfl, List.countP_eq_length_filter,
    List.getElem?_append_right (Nat.le_refl _), Nat.sub_self]
  rfl

/-- No two timers are scheduled at once. -/
theorem LastScheduled.inj (h : LastScheduled t log d n) (h' : LastScheduled t' log d' n) :
    t = t' := by
  have heq := h.getElem?_filter.symm.trans h'.getElem?_filter
  exact (Event.scheduled.inj (Option.some.inj heq)).1

end LastScheduled

variable {owner : τ → ω} {t : τ} {p q : Phase} {log more : List (Event τ ω)}

/-! ### Phases along a log -/

theorem foldlM_split {before after : List (Event τ ω)} {e : Event τ ω}
    (h : (before ++ e :: after).foldlM (Phase.next owner t) p = some q) :
    ∃ p₁ p₂, before.foldlM (Phase.next owner t) p = some p₁ ∧
      p₁.next owner t e = some p₂ ∧ after.foldlM (Phase.next owner t) p₂ = some q := by
  rw [List.foldlM_append] at h
  obtain ⟨p₁, h₁, h⟩ := Option.bind_eq_some_iff.mp h
  rw [List.foldlM_cons] at h
  obtain ⟨p₂, h₂, h⟩ := Option.bind_eq_some_iff.mp h
  exact ⟨p₁, p₂, h₁, h₂, h⟩

/-- Only a due timer is fired. -/
theorem Phase.next_fired (h : p.next owner t (.fired t) = some q) : p = .due ∧ q = .idle := by
  rw [Phase.next, if_pos rfl] at h
  split at h
  · exact ⟨‹_›, (Option.some.inj h).symm⟩
  · cases h

/-- A timer that ends is idle, unless it is scheduled anew. -/
theorem Phase.next_ended {e : Event τ ω} (hends : e.Ends owner t)
    (hscheduled : ∀ d, e ≠ .scheduled t d) (h : p.next owner t e = some q) : q = .idle := by
  cases e with
  | scheduled t' d =>
      obtain rfl : t' = t := hends
      exact absurd rfl (hscheduled d)
  | cancelled t' | dropped o =>
      dsimp only [Event.Ends] at hends
      rw [Phase.next, if_pos hends] at h
      exact (Option.some.inj h).symm
  | fired t' | round now | settled => exact hends.elim

/-- Other events leave a timer as it is, except for the round that reaches its deadline. -/
theorem Phase.next_other {e : Event τ ω} (hends : ¬ e.Ends owner t) (hfired : e ≠ .fired t)
    (h : p.next owner t e = some q) :
    q = p ∨ ∃ d now, p = .armed d ∧ e = .round now ∧ d ≤ now ∧ q = .due := by
  cases e with
  | scheduled t' d' | cancelled t' | dropped o =>
      dsimp only [Event.Ends] at hends
      rw [Phase.next, if_neg hends] at h
      exact .inl (Option.some.inj h).symm
  | fired t' =>
      rw [Phase.next, if_neg fun heq => hfired (congrArg Event.fired heq)] at h
      exact .inl (Option.some.inj h).symm
  | settled =>
      rw [Phase.next] at h
      split at h
      · cases h
      · exact .inl (Option.some.inj h).symm
  | round now =>
      cases p with
      | idle | due => exact .inl (Option.some.inj h).symm
      | armed d =>
          change some (if d ≤ now then Phase.due else .armed d) = some q at h
          split at h
          · exact .inr ⟨d, now, rfl, rfl, ‹_›, (Option.some.inj h).symm⟩
          · exact .inl (Option.some.inj h).symm

/-- An armed timer that neither ends nor gets due stays armed, and it does not fire. -/
theorem armed_foldlM {d : ℕ} (h : log.foldlM (Phase.next owner t) (.armed d) = some q)
    (hends : ∀ e ∈ log, ¬ e.Ends owner t) (hround : ∀ now, .round now ∈ log → now < d) :
    q = .armed d ∧ .fired t ∉ log := by
  induction log with
  | nil => exact ⟨(Option.some.inj h).symm, List.not_mem_nil⟩
  | cons e log ih =>
      rw [List.foldlM_cons] at h
      obtain ⟨p, hp, h⟩ := Option.bind_eq_some_iff.mp h
      have hfired : e ≠ .fired t := by
        rintro rfl
        cases (Phase.next_fired hp).1
      obtain rfl : p = .armed d := by
        obtain hsame | ⟨_, now, harmed, rfl, hle, -⟩ :=
          Phase.next_other (hends e List.mem_cons_self) hfired hp
        · exact hsame
        · cases harmed
          exact absurd hle (Nat.not_le.mpr (hround now List.mem_cons_self))
      obtain ⟨hq, hrest⟩ := ih h (fun e he => hends e (List.mem_cons_of_mem _ he))
        fun now hnow => hround now (List.mem_cons_of_mem _ hnow)
      exact ⟨hq, List.not_mem_cons_of_ne_of_not_mem hfired.symm hrest⟩

/-- An idle timer does not fire until it is scheduled. -/
theorem idle_foldlM (h : log.foldlM (Phase.next owner t) .idle = some q)
    (hscheduled : ∀ d, .scheduled t d ∉ log) : q = .idle ∧ .fired t ∉ log := by
  induction log with
  | nil => exact ⟨(Option.some.inj h).symm, List.not_mem_nil⟩
  | cons e log ih =>
      rw [List.foldlM_cons] at h
      obtain ⟨p, hp, h⟩ := Option.bind_eq_some_iff.mp h
      have hfired : e ≠ .fired t := by
        rintro rfl
        cases (Phase.next_fired hp).1
      obtain rfl : p = .idle := by
        by_cases hends : e.Ends owner t
        · refine Phase.next_ended hends (fun d heq => hscheduled d ?_) hp
          exact heq ▸ List.mem_cons_self
        · obtain hsame | ⟨_, _, harmed, -⟩ := Phase.next_other hends hfired hp
          · exact hsame
          · cases harmed
      obtain ⟨hq, hrest⟩ := ih h fun d hd => hscheduled d (List.mem_cons_of_mem _ hd)
      exact ⟨hq, List.not_mem_cons_of_ne_of_not_mem hfired.symm hrest⟩

/-- In a round that is settled, a due timer fires once or is dropped. -/
theorem due_foldlM (h : log.foldlM (Phase.next owner t) .due = some q) (hq : q ≠ .due)
    (hcancelled : .cancelled t ∉ log) (hscheduled : ∀ d, .scheduled t d ∉ log) :
    log.count (.fired t) = 1 ∨ .fired t ∉ log ∧ .dropped (owner t) ∈ log := by
  induction log with
  | nil => exact absurd (Option.some.inj h).symm hq
  | cons e log ih =>
      rw [List.foldlM_cons] at h
      obtain ⟨p, hp, h⟩ := Option.bind_eq_some_iff.mp h
      have hnone : ∀ d, .scheduled t d ∉ log := fun d hd => hscheduled d (List.mem_cons_of_mem _ hd)
      have hnew : ∀ d, e ≠ .scheduled t d := fun d heq => hscheduled d (heq ▸ List.mem_cons_self)
      by_cases hfired : e = .fired t
      · subst hfired
        obtain ⟨-, rfl⟩ := Phase.next_fired hp
        left
        rw [List.count_cons_self, List.count_eq_zero_of_not_mem (idle_foldlM h hnone).2]
      · by_cases hends : e.Ends owner t
        · obtain rfl := Phase.next_ended hends hnew hp
          have hrest := (idle_foldlM h hnone).2
          refine .inr ⟨List.not_mem_cons_of_ne_of_not_mem (Ne.symm hfired) hrest, ?_⟩
          cases e with
          | scheduled t' d =>
              obtain rfl : t' = t := hends
              exact absurd rfl (hnew d)
          | cancelled t' =>
              obtain rfl : t' = t := hends
              exact absurd List.mem_cons_self hcancelled
          | dropped o =>
              obtain rfl : o = owner t := hends
              exact List.mem_cons_self
          | fired t' | round now | settled => exact hends.elim
        · obtain rfl : p = .due := by
            obtain hsame | ⟨_, _, harmed, -⟩ := Phase.next_other hends hfired hp
            · exact hsame
            · cases harmed
          refine (ih h (fun hmem => hcancelled (List.mem_cons_of_mem _ hmem)) hnone).imp ?_ ?_
          · exact fun hcount => (List.count_cons_of_ne hfired).trans hcount
          · exact fun hrest => ⟨List.not_mem_cons_of_ne_of_not_mem (Ne.symm hfired) hrest.1,
              List.mem_cons_of_mem _ hrest.2⟩

/-- Where the phase of a timer comes from: the last time it was scheduled. -/
def Origin (t : τ) (log : List (Event τ ω)) : Phase → Prop
  | .idle => True
  | .armed d => ∃ earlier between, log = earlier ++ .scheduled t d :: between ∧
      ∀ d', .scheduled t d' ∉ between
  | .due => ∃ d earlier between now, log = earlier ++ .scheduled t d :: between ∧
      (∀ d', .scheduled t d' ∉ between) ∧ .round now ∈ between ∧ d ≤ now

omit [DecidableEq τ] [DecidableEq ω] in
/-- An event that leaves the phase keeps its origin, unless it schedules the timer. -/
theorem Origin.concat (h : Origin t log p) {e : Event τ ω} (he : ∀ d, e ≠ .scheduled t d) :
    Origin t (log ++ [e]) p := by
  have hbetween : ∀ between : List (Event τ ω), (∀ d, .scheduled t d ∉ between) →
      ∀ d, .scheduled t d ∉ between ++ [e] := by
    intro between hnone d hmem
    obtain hmem | hmem := List.mem_append.mp hmem
    · exact hnone d hmem
    · exact he d (List.mem_singleton.mp hmem).symm
  cases p with
  | idle => trivial
  | armed d =>
      obtain ⟨earlier, between, rfl, hnone⟩ := h
      exact ⟨earlier, between ++ [e], by simp, hbetween between hnone⟩
  | due =>
      obtain ⟨d, earlier, between, now, rfl, hnone, hnow, hle⟩ := h
      exact ⟨d, earlier, between ++ [e], now, by simp, hbetween between hnone,
        List.mem_append_left _ hnow, hle⟩

theorem Origin.next (h : Origin t log p) {e : Event τ ω} (hstep : p.next owner t e = some q) :
    Origin t (log ++ [e]) q := by
  by_cases hscheduled : ∃ d, e = .scheduled t d
  · obtain ⟨d, rfl⟩ := hscheduled
    rw [Phase.next, if_pos rfl] at hstep
    cases hstep
    exact ⟨log, [], rfl, fun _ => List.not_mem_nil⟩
  rw [not_exists] at hscheduled
  by_cases hends : e.Ends owner t
  · rw [Phase.next_ended hends hscheduled hstep]
    trivial
  by_cases hfired : e = .fired t
  · subst hfired
    rw [(Phase.next_fired hstep).2]
    trivial
  obtain rfl | ⟨d, now, rfl, rfl, hle, rfl⟩ := Phase.next_other hends hfired hstep
  · exact h.concat hscheduled
  · obtain ⟨earlier, between, rfl, hnone⟩ := h
    refine ⟨d, earlier, between ++ [.round now], now, by simp, fun d' hd' => ?_,
      List.mem_append_right _ List.mem_cons_self, hle⟩
    obtain hd' | hd' := List.mem_append.mp hd'
    · exact hnone d' hd'
    · cases List.mem_singleton.mp hd'

theorem origin_foldlM (h : log.foldlM (Phase.next owner t) .idle = some p) : Origin t log p := by
  induction log using List.reverseRecOn generalizing p with
  | nil =>
      cases h
      trivial
  | append_singleton log e ih =>
      obtain ⟨p₁, p₂, hlog, hstep, hnil⟩ := foldlM_split h
      cases hnil
      exact (ih hlog).next hstep

/-! ### What a life of every timer means -/

variable (h : ∀ t, Lives owner t log)
include h

/-- In a log that all timers live through they fire as often as they should. -/
theorem firesOnce_of_lives : FiresOnce owner log := by
  constructor
  · rintro before waiting batch after t d now rfl hends hround hdue hsettled hcancelled hnone
    obtain ⟨q, hq, -⟩ := h t
    obtain ⟨p₁, p₂, -, hscheduled, hrest⟩ := foldlM_split hq
    rw [Phase.next, if_pos rfl] at hscheduled
    cases hscheduled
    obtain ⟨p₃, p₄, hwaiting, hnow, hrest⟩ := foldlM_split hrest
    obtain ⟨rfl, hfired⟩ := armed_foldlM hwaiting hends hround
    rw [Phase.next] at hnow
    simp only [if_pos hdue] at hnow
    cases hnow
    obtain ⟨p₅, p₆, hbatch, hend, -⟩ := foldlM_split hrest
    have hne : p₅ ≠ .due := by
      rintro rfl
      cases hend
    exact ⟨hfired, due_foldlM hbatch hne hcancelled hnone⟩
  · rintro before e between after t rfl hended
    by_contra hscheduled
    rw [not_exists] at hscheduled
    obtain ⟨q, hq, -⟩ := h t
    obtain ⟨p₁, p₂, -, hstep, hrest⟩ := foldlM_split hq
    have hidle : p₂ = .idle := by
      obtain rfl | rfl | rfl := hended
      · have hends : (Event.cancelled t : Event τ ω).Ends owner t := rfl
        exact Phase.next_ended hends (fun _ heq => by cases heq) hstep
      · have hends : (Event.dropped (owner t) : Event τ ω).Ends owner t := rfl
        exact Phase.next_ended hends (fun _ heq => by cases heq) hstep
      · exact (Phase.next_fired hstep).2
    subst hidle
    obtain ⟨p₃, p₄, hbetween, hfired, -⟩ := foldlM_split hrest
    obtain ⟨rfl, -⟩ := idle_foldlM hbetween hscheduled
    rw [Phase.next, if_pos rfl, if_neg nofun] at hfired
    cases hfired
  · rintro before after t rfl
    obtain ⟨q, hq, -⟩ := h t
    obtain ⟨p₁, p₂, hbefore, hfired, -⟩ := foldlM_split hq
    obtain ⟨rfl, -⟩ := Phase.next_fired hfired
    exact origin_foldlM hbefore

end OneShot
