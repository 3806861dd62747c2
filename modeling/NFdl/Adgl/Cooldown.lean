import NFdl.Adgl.Store
import Mathlib.Algebra.Group.Int.Defs

/-!
# Cooldowns

A partition keeps the last emission of every rule, problem and target and forgets what is
older than the longest cooldown. Its decisions are those of a ledger that keeps all
emissions forever, unless the longest cooldown is the longest duration and two watermarks
are further apart than a difference of times can tell.
-/

namespace Adgl

/-- Whether an emission still stops another one of its key. -/
def EmittedProblem.stops (p : EmittedProblem) (e : EmittedProblem) (cooldown : DurationMs) : Bool :=
  p.sameKey e.rule e.problem e.target &&
    (saturatingSub e.wm.millis p.wm.millis).toInt ≤ cooldown.toInt

namespace Cooldown

/-- An emission is tried at the current watermark, or the table is pruned at it. -/
inductive Op where
  | mark (emission : EmittedProblem)
  | prune (wm : EventTime)

def Op.wm : Op → EventTime
  | .mark emission => emission.wm
  | .prune wm => wm

/-- The emissions that were tried, each with the decision. -/
abbrev Answers := List (EmittedProblem × Bool)

def accepted (answers : Answers) : List EmittedProblem := (answers.filter (·.2)).map (·.1)

/-- A subgraph with the decisions that it has made. -/
structure Marks where
  graph : SubGraph
  answers : Answers

/-- A table that keeps all emissions. -/
structure Ledger where
  emitted : List EmittedProblem
  answers : Answers

variable (cooldown : RuleId → DurationMs) (maxCooldown : DurationMs)

def Marks.step (m : Marks) : Op → Marks
  | .mark e =>
      match m.graph.tryMarkEmitted e.rule e.problem e.target e.wm (cooldown e.rule) with
      | some graph => ⟨graph, m.answers ++ [(e, true)]⟩
      | none => ⟨m.graph, m.answers ++ [(e, false)]⟩
  | .prune wm => ⟨m.graph.pruneEmitted wm maxCooldown, m.answers⟩

def Ledger.step (l : Ledger) : Op → Ledger
  | .mark e =>
      if l.emitted.any (·.stops e (cooldown e.rule)) then ⟨l.emitted, l.answers ++ [(e, false)]⟩
      else ⟨e :: l.emitted, l.answers ++ [(e, true)]⟩
  | .prune _ => l

/-- All operations on a new subgraph. -/
def run (ops : List Op) : Marks := ops.foldl (Marks.step cooldown maxCooldown) ⟨.empty, []⟩

/-- The same decisions without pruning. -/
def reference (ops : List Op) : Ledger := ops.foldl (Ledger.step cooldown) ⟨[], []⟩

variable {cooldown} {maxCooldown}

theorem tryMarkEmitted_eq (g : SubGraph) (e : EmittedProblem) (c : DurationMs) :
    g.tryMarkEmitted e.rule e.problem e.target e.wm c =
      if g.emittedProblems.any (·.stops e c) then none
      else some { g with
        emittedProblems := e :: g.emittedProblems.filter fun p =>
          !p.sameKey e.rule e.problem e.target } := rfl

/-! ### Expired emissions -/

theorem toInt_saturatingSub (a b : EventTime) : (saturatingSub a.millis b.millis).toInt =
    max (-9223372036854775808) (min (a.toInt - b.toInt) 9223372036854775807) :=
  toInt_ofIntClamp _

/-- An emission that has expired stays expired. -/
theorem expired_mono {c : DurationMs} {t wm wm' : EventTime} (hle : wm ≤ wm')
    (h : c.toInt < (saturatingSub wm.millis t.millis).toInt) :
    c.toInt < (saturatingSub wm'.millis t.millis).toInt := by
  have hle' := EventTime.le_iff.mp hle
  rw [toInt_saturatingSub] at h ⊢
  omega

/-- The difference of the times is a duration, or no cooldown is as long as that. -/
def Tellable (maxCooldown : DurationMs) (earlier later : EventTime) : Prop :=
  later.toInt - earlier.toInt < 2 ^ 63 ∨ maxCooldown.toInt < 2 ^ 63 - 1

/-- What is pruned has expired under every cooldown. -/
theorem expired_of_pruned {c : DurationMs} {t wm wm' : EventTime} (hc : c ≤ maxCooldown)
    (ht : ¬ wm.sub maxCooldown ≤ t) (hle : wm ≤ wm') (htell : Tellable maxCooldown t wm') :
    c.toInt < (saturatingSub wm'.millis t.millis).toInt := by
  have hc' := DurationMs.le_iff.mp hc
  have hle' := EventTime.le_iff.mp hle
  have hmin : -2 ^ 63 ≤ t.toInt := Int64.le_toInt t.millis
  rw [EventTime.le_iff, EventTime.toInt_sub] at ht
  rw [toInt_saturatingSub]
  unfold Tellable at htell
  omega

theorem lt_of_expired {c : DurationMs} {t wm : EventTime}
    (h : c.toInt < (saturatingSub wm.millis t.millis).toInt) : c.toInt < wm.toInt - t.toInt := by
  have hc := c.nonneg
  have hc' : 0 ≤ c.toInt := hc
  rw [toInt_saturatingSub] at h
  omega

theorem stops_eq_false {p e : EmittedProblem} {c : DurationMs} (h : ¬ p.stops e c = true)
    (hkey : p.sameKey e.rule e.problem e.target = true) :
    c.toInt < (saturatingSub e.wm.millis p.wm.millis).toInt := by
  unfold EmittedProblem.stops at h
  rw [hkey, Bool.true_and, decide_eq_true_iff] at h
  exact not_le.mp h

theorem rule_of_sameKey {p e : EmittedProblem}
    (h : p.sameKey e.rule e.problem e.target = true) : p.rule = e.rule := by
  unfold EmittedProblem.sameKey at h
  simp only [Bool.and_eq_true, beq_iff_eq] at h
  exact h.1.1

/-! ### The pruned table and the ledger -/

/-- The table holds all emissions but those that stop nothing at the watermarks to come. -/
structure Agrees (cooldown : RuleId → DurationMs) (maxCooldown : DurationMs)
    (wms : List EventTime) (m : Marks) (l : Ledger) : Prop where
  answers : m.answers = l.answers
  kept : ∀ p ∈ m.graph.emittedProblems, p ∈ l.emitted
  expired : ∀ p ∈ l.emitted, p ∉ m.graph.emittedProblems → ∀ wm ∈ wms,
    (cooldown p.rule).toInt < (saturatingSub wm.millis p.wm.millis).toInt
  tellable : ∀ p ∈ l.emitted, ∀ wm ∈ wms, Tellable maxCooldown p.wm wm

section Steps

variable {m : Marks} {l : Ledger} {wms : List EventTime}

theorem Agrees.decision {e : EmittedProblem} (h : Agrees cooldown maxCooldown (e.wm :: wms) m l) :
    m.graph.emittedProblems.any (·.stops e (cooldown e.rule)) =
      l.emitted.any (·.stops e (cooldown e.rule)) := by
  rw [Bool.eq_iff_iff, List.any_eq_true, List.any_eq_true]
  refine ⟨fun ⟨p, hp, hstops⟩ => ⟨p, h.kept p hp, hstops⟩, fun ⟨p, hp, hstops⟩ => ⟨p, ?_, hstops⟩⟩
  by_contra hgone
  have hexpired := h.expired p hp hgone e.wm (List.mem_cons_self ..)
  unfold EmittedProblem.stops at hstops
  obtain ⟨hkey, hwithin⟩ := Bool.and_eq_true_iff.mp hstops
  rw [rule_of_sameKey hkey] at hexpired
  exact absurd (of_decide_eq_true hwithin) (not_le.mpr hexpired)

/-- An emission replaces those of its key, which have expired. -/
theorem Agrees.mark {e : EmittedProblem} (h : Agrees cooldown maxCooldown (e.wm :: wms) m l)
    (hlater : ∀ wm ∈ wms, e.wm ≤ wm ∧ Tellable maxCooldown e.wm wm) :
    Agrees cooldown maxCooldown wms (m.step cooldown maxCooldown (.mark e))
      (l.step cooldown (.mark e)) := by
  have hdecision := h.decision
  change Agrees cooldown maxCooldown wms
    (match m.graph.tryMarkEmitted e.rule e.problem e.target e.wm (cooldown e.rule) with
      | some graph => ⟨graph, m.answers ++ [(e, true)]⟩
      | none => ⟨m.graph, m.answers ++ [(e, false)]⟩)
    (if l.emitted.any (·.stops e (cooldown e.rule)) then ⟨l.emitted, l.answers ++ [(e, false)]⟩
      else ⟨e :: l.emitted, l.answers ++ [(e, true)]⟩)
  rw [tryMarkEmitted_eq, hdecision]
  have hanswers := h.answers
  by_cases hstop : l.emitted.any (·.stops e (cooldown e.rule)) = true
  · rw [if_pos hstop, if_pos hstop]
    exact ⟨by rw [hanswers], h.kept,
      fun p hp hgone wm hwm => h.expired p hp hgone wm (List.mem_cons_of_mem _ hwm),
      fun p hp wm hwm => h.tellable p hp wm (List.mem_cons_of_mem _ hwm)⟩
  · rw [if_neg hstop, if_neg hstop]
    refine ⟨by rw [hanswers], fun p hp => ?_, fun p hp hgone wm hwm => ?_, fun p hp wm hwm => ?_⟩
    · obtain rfl | hp := List.mem_cons.mp hp
      · exact List.mem_cons_self ..
      · exact List.mem_cons_of_mem _ (h.kept p (List.mem_of_mem_filter hp))
    · obtain ⟨hne, hgone⟩ := not_or.mp (mt List.mem_cons.mpr hgone)
      have hp := (List.mem_cons.mp hp).resolve_left hne
      by_cases hmem : p ∈ m.graph.emittedProblems
      · have hkey : p.sameKey e.rule e.problem e.target = true := by
          by_contra hkey
          exact hgone (List.mem_filter.mpr ⟨hmem, by simpa using hkey⟩)
        have hnot : ¬ p.stops e (cooldown e.rule) = true := fun hstops =>
          hstop (List.any_eq_true.mpr ⟨p, hp, hstops⟩)
        rw [rule_of_sameKey hkey]
        exact expired_mono (hlater wm hwm).1 (stops_eq_false hnot hkey)
      · exact h.expired p hp hmem wm (List.mem_cons_of_mem _ hwm)
    · obtain rfl | hp := List.mem_cons.mp hp
      · exact (hlater wm hwm).2
      · exact h.tellable p hp wm (List.mem_cons_of_mem _ hwm)

/-- What is pruned has expired. -/
theorem Agrees.prune {now : EventTime} (hmax : ∀ rule, cooldown rule ≤ maxCooldown)
    (h : Agrees cooldown maxCooldown (now :: wms) m l) (hlater : ∀ wm ∈ wms, now ≤ wm) :
    Agrees cooldown maxCooldown wms (m.step cooldown maxCooldown (.prune now))
      (l.step cooldown (.prune now)) := by
  refine ⟨h.answers, fun p hp => h.kept p (List.mem_of_mem_filter hp),
    fun p hp hgone wm hwm => ?_, fun p hp wm hwm => h.tellable p hp wm (List.mem_cons_of_mem _ hwm)⟩
  by_cases hmem : p ∈ m.graph.emittedProblems
  · have hold : ¬ now.sub maxCooldown ≤ p.wm := fun hle =>
      hgone (List.mem_filter.mpr ⟨hmem, decide_eq_true hle⟩)
    exact expired_of_pruned (hmax p.rule) hold (hlater wm hwm)
      (h.tellable p hp wm (List.mem_cons_of_mem _ hwm))
  · exact h.expired p hp hmem wm (List.mem_cons_of_mem _ hwm)

theorem Agrees.foldl (hmax : ∀ rule, cooldown rule ≤ maxCooldown) {ops : List Op}
    (h : Agrees cooldown maxCooldown (ops.map Op.wm) m l)
    (hordered : ops.Pairwise fun a b => a.wm ≤ b.wm)
    (htell : ops.Pairwise fun a b => Tellable maxCooldown a.wm b.wm) :
    (ops.foldl (Marks.step cooldown maxCooldown) m).answers =
      (ops.foldl (Ledger.step cooldown) l).answers := by
  induction ops generalizing m l with
  | nil => exact h.answers
  | cons op ops ih =>
      obtain ⟨hle, hordered⟩ := List.pairwise_cons.mp hordered
      obtain ⟨hop, htell⟩ := List.pairwise_cons.mp htell
      refine ih ?_ hordered htell
      cases op with
      | mark e =>
          refine h.mark fun wm hwm => ?_
          obtain ⟨b, hb, rfl⟩ := List.mem_map.mp hwm
          exact ⟨hle b hb, hop b hb⟩
      | prune now =>
          refine h.prune hmax fun wm hwm => ?_
          obtain ⟨b, hb, rfl⟩ := List.mem_map.mp hwm
          exact hle b hb

end Steps

/-! ### Emissions apart -/

/-- The ledger holds what was accepted, and two emissions of one key are further apart than
the cooldown. -/
structure Apart (cooldown : RuleId → DurationMs) (l : Ledger) : Prop where
  accepted : accepted l.answers = l.emitted.reverse
  apart : l.emitted.Pairwise fun later earlier =>
    earlier.sameKey later.rule later.problem later.target = true →
      (cooldown later.rule).toInt < later.wm.toInt - earlier.wm.toInt

theorem accepted_append (answers answers' : Answers) :
    accepted (answers ++ answers') = accepted answers ++ accepted answers' := by
  unfold accepted
  rw [List.filter_append, List.map_append]

theorem Apart.step {l : Ledger} (h : Apart cooldown l) (op : Op) :
    Apart cooldown (l.step cooldown op) := by
  cases op with
  | prune wm => exact h
  | mark e =>
      unfold Ledger.step
      dsimp only
      split
      · refine ⟨?_, h.apart⟩
        rw [accepted_append, h.accepted]
        exact List.append_nil _
      · next hstop =>
          refine ⟨?_, List.pairwise_cons.mpr ⟨fun p hp hkey => ?_, h.apart⟩⟩
          · rw [accepted_append, h.accepted, List.reverse_cons]
            rfl
          · have hnot : ¬ p.stops e (cooldown e.rule) = true := fun hstops =>
              hstop (List.any_eq_true.mpr ⟨p, hp, hstops⟩)
            exact lt_of_expired (stops_eq_false hnot hkey)

theorem Apart.foldl {l : Ledger} (h : Apart cooldown l) (ops : List Op) :
    Apart cooldown (ops.foldl (Ledger.step cooldown) l) := by
  induction ops generalizing l with
  | nil => exact h
  | cons op ops ih => exact ih (h.step op)

/-- Pruning changes no decision, and two accepted emissions of one key are further apart
than the cooldown of their rule. -/
theorem pruning_keeps_decisions (hmax : ∀ rule, cooldown rule ≤ maxCooldown) (ops : List Op)
    (hordered : ops.Pairwise fun a b => a.wm ≤ b.wm)
    (htell : ops.Pairwise fun a b => Tellable maxCooldown a.wm b.wm) :
    (run cooldown maxCooldown ops).answers = (reference cooldown ops).answers ∧
      (accepted (run cooldown maxCooldown ops).answers).Pairwise fun earlier later =>
        earlier.sameKey later.rule later.problem later.target = true →
          (cooldown later.rule).toInt < later.wm.toInt - earlier.wm.toInt := by
  have hagree : Agrees cooldown maxCooldown (ops.map Op.wm) ⟨.empty, []⟩ ⟨[], []⟩ :=
    ⟨rfl, nofun, nofun, nofun⟩
  have hanswers := hagree.foldl hmax hordered htell
  refine ⟨hanswers, ?_⟩
  have hapart : Apart cooldown (reference cooldown ops) :=
    Apart.foldl ⟨rfl, .nil⟩ ops
  change (run cooldown maxCooldown ops).answers = (reference cooldown ops).answers at hanswers
  rw [hanswers, hapart.accepted]
  exact List.pairwise_reverse.mpr hapart.apart

/-- The longest duration. -/
def longest : DurationMs := ⟨Int64.maxValue, by decide⟩

/-- The emission of one problem of a session at some time. -/
def sessionProblem (millis : Int64) : EmittedProblem :=
  ⟨"R", "loss", ⟨.session, 7⟩, ⟨millis⟩⟩

/-- A problem is emitted, again at once and again after its cooldown. -/
def emissions : List Op :=
  [.mark (sessionProblem 0), .mark (sessionProblem 5), .prune ⟨11⟩, .mark (sessionProblem 11)]

theorem pruning_keeps_decisions_ten :
    (run (fun _ => .ofMillis 10) (.ofMillis 10) emissions).answers =
        (reference (fun _ => .ofMillis 10) emissions).answers ∧
      (accepted (run (fun _ => .ofMillis 10) (.ofMillis 10) emissions).answers).Pairwise
        fun earlier later => earlier.sameKey later.rule later.problem later.target = true →
          (DurationMs.ofMillis 10).toInt < later.wm.toInt - earlier.wm.toInt :=
  pruning_keeps_decisions (fun _ => le_rfl) emissions (by decide)
    (List.pairwise_of_forall fun _ _ => .inr (by decide))

/-- The first emission is pruned one millisecond too early: under the longest cooldown it
would still stop the second one. -/
theorem pruned_at_the_ends : ¬ ∀ (cooldown : RuleId → DurationMs) (maxCooldown : DurationMs),
    (∀ rule, cooldown rule ≤ maxCooldown) → ∀ ops : List Op,
      (ops.Pairwise fun a b => a.wm ≤ b.wm) →
      (∀ op ∈ ops, -2 ^ 62 ≤ op.wm.toInt ∧ op.wm.toInt ≤ 2 ^ 62) →
      (run cooldown maxCooldown ops).answers = (reference cooldown ops).answers := by
  intro h
  have hends := h (fun _ => longest) longest (fun _ => le_rfl)
    [.mark (sessionProblem (-4611686018427387904)), .prune ⟨4611686018427387904⟩,
      .mark (sessionProblem 4611686018427387904)] (by decide) (by decide)
  exact absurd (congrArg (List.map Prod.snd) hends) (by decide)

end Cooldown

end Adgl
