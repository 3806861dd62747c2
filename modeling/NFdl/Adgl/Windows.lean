import NFdl.Adgl.Accepted

/-!
# The windows of an accepted image

The verifier accepts windows that can be calculated and that fit into the
look-back, less the longest forward window of the ruleset. The annotations of a
lowered rule bound the windows of its correlates.
-/

namespace Adgl

open Ast (Expr CorrelateBlock RuleDecl Ruleset)

/-! ### The reach of windows -/

section Reach

variable {reach : WindowProof → Option DurationMs} {correlates : List CorrelateSpec}

theorem le_foldl_max {α : Type*} [LinearOrder α] {ds : List α} {acc : α} :
    acc ≤ ds.foldl max acc ∧ ∀ d ∈ ds, d ≤ ds.foldl max acc := by
  induction ds generalizing acc with
  | nil => exact ⟨le_refl _, fun _ h => absurd h List.not_mem_nil⟩
  | cons d rest ih =>
      obtain ⟨hacc, hrest⟩ := @ih (max acc d)
      refine ⟨(le_max_left acc d).trans hacc, fun d' hd' => ?_⟩
      obtain rfl | hd' := List.mem_cons.mp hd'
      · exact (le_max_right acc d').trans hacc
      · exact hrest d' hd'

theorem foldl_max_le {ds : List DurationMs} {acc bound : DurationMs} (hacc : acc ≤ bound)
    (hds : ∀ d ∈ ds, d ≤ bound) : ds.foldl max acc ≤ bound := by
  induction ds generalizing acc with
  | nil => exact hacc
  | cons d rest ih =>
      exact ih (max_le hacc (hds d (List.mem_cons_self ..)))
        fun d' hd' => hds d' (List.mem_cons_of_mem _ hd')

/-- The annotation of a rule is an upper bound of its windows. -/
theorem le_windowReach {spec : CorrelateSpec} (hspec : spec ∈ correlates) {d : DurationMs}
    (hd : reach spec.window = some d) : d ≤ windowReach reach correlates :=
  le_foldl_max.2 d (List.mem_filterMap.mpr ⟨spec, hspec, hd⟩)

theorem windowReach_le {bound : DurationMs}
    (h : ∀ spec ∈ correlates, ∀ d, reach spec.window = some d → d ≤ bound) :
    windowReach reach correlates ≤ bound := by
  refine foldl_max_le (DurationMs.zero_le bound) fun d hd => ?_
  obtain ⟨spec, hspec, hreach⟩ := List.mem_filterMap.mp hd
  exact h spec hspec d hreach

end Reach

/-! ### The longest forward window of a ruleset -/

section MaxForward

/-- The longest forward window among correlates, or what was found before. -/
def longestForward (anchorBinding : String) (acc : Int64) (cs : List CorrelateBlock) : Int64 :=
  cs.foldl (fun acc c => match c.window anchorBinding with
    | some (_, forward) => if acc ≤ forward then forward else acc
    | none => acc) acc

theorem le_longestForward {anchorBinding : String} {acc : Int64} {cs : List CorrelateBlock} :
    acc.toInt ≤ (longestForward anchorBinding acc cs).toInt ∧
    ∀ c ∈ cs, ∀ back forward, c.window anchorBinding = some (back, forward) →
      forward.toInt ≤ (longestForward anchorBinding acc cs).toInt := by
  induction cs generalizing acc with
  | nil => exact ⟨Int.le_refl _, fun _ h => absurd h List.not_mem_nil⟩
  | cons c rest ih =>
      let next := match c.window anchorBinding with
        | some (_, forward) => if acc ≤ forward then forward else acc
        | none => acc
      have hnext : acc.toInt ≤ next.toInt ∧ ∀ back forward,
          c.window anchorBinding = some (back, forward) → forward.toInt ≤ next.toInt := by
        cases hwindow : c.window anchorBinding with
        | none =>
            simp only [next, hwindow]
            exact ⟨Int.le_refl _, nofun⟩
        | some window =>
            obtain ⟨back, forward⟩ := window
            simp only [next, hwindow]
            by_cases hle : acc ≤ forward
            · rw [if_pos hle]
              refine ⟨Int64.le_iff_toInt_le.mp hle, fun b f heq => ?_⟩
              cases heq
              exact Int.le_refl _
            · rw [if_neg hle]
              refine ⟨Int.le_refl _, fun b f heq => ?_⟩
              cases heq
              exact Int.le_of_lt (Int.not_le.mp fun h => hle (Int64.le_iff_toInt_le.mpr h))
      obtain ⟨hacc, hrest⟩ := @ih next
      change acc.toInt ≤ (longestForward anchorBinding next rest).toInt ∧ _
      refine ⟨Int.le_trans hnext.1 hacc, fun c' hc' back forward hwindow => ?_⟩
      obtain rfl | hc' := List.mem_cons.mp hc'
      · exact Int.le_trans (hnext.2 back forward hwindow) hacc
      · exact hrest c' hc' back forward hwindow

theorem le_rulesetMaxForward {ruleset : Ruleset} :
    0 ≤ (rulesetMaxForwardWindowMs ruleset).toInt ∧
    ∀ rule ∈ ruleset.rules, ∀ c ∈ rule.correlates, ∀ back forward,
      c.window rule.anchorBinding = some (back, forward) →
        forward.toInt ≤ (rulesetMaxForwardWindowMs ruleset).toInt := by
  have hfold : ∀ (rules : List RuleDecl) (acc : Int64),
      acc.toInt ≤ (rules.foldl (fun acc rule =>
        longestForward rule.anchorBinding acc rule.correlates) acc).toInt ∧
      ∀ rule ∈ rules, ∀ c ∈ rule.correlates, ∀ back forward,
        c.window rule.anchorBinding = some (back, forward) →
          forward.toInt ≤ (rules.foldl (fun acc rule =>
            longestForward rule.anchorBinding acc rule.correlates) acc).toInt := by
    intro rules
    induction rules with
    | nil => exact fun acc => ⟨Int.le_refl _, fun _ h => absurd h List.not_mem_nil⟩
    | cons rule rest ih =>
        intro acc
        obtain ⟨hacc, hcs⟩ := @le_longestForward rule.anchorBinding acc rule.correlates
        obtain ⟨hnext, hrest⟩ := ih (longestForward rule.anchorBinding acc rule.correlates)
        refine ⟨Int.le_trans hacc hnext, fun rule' hrule' c hc back forward hwindow => ?_⟩
        obtain rfl | hrule' := List.mem_cons.mp hrule'
        · exact Int.le_trans (hcs c hc back forward hwindow) hnext
        · exact hrest rule' hrule' c hc back forward hwindow
  have h := hfold ruleset.rules 0
  rw [show (0 : Int64).toInt = 0 from rfl] at h
  exact h

end MaxForward

/-! ### Accepted windows -/

variable {catalog : Catalog} {config : VerifyConfig} {ruleset : Ruleset} {image : ProgramImage}
  {inst : RuleInstance} {spec : CorrelateSpec}

/-- A window that is accepted has ends, reaches no further forward than the longest
forward window, and leaves room for it in the look-back. -/
theorem NoErrors.window (h : NoErrors catalog config ruleset) {rule : RuleDecl}
    (hrule : rule ∈ ruleset.rules) {c : CorrelateBlock} (hc : c ∈ rule.correlates) :
    ∃ back forward, lowerWindow rule.anchorBinding c = .calculable back forward ∧
      forward.toInt ≤ (rulesetMaxForwardWindowMs ruleset).toInt ∧
      back.toInt + (rulesetMaxForwardWindowMs ruleset).toInt ≤ config.maxLookbackMs.toInt := by
  have hphase := h.phase06
  unfold phase06Temporal at hphase
  have hcheck := hasErrors_flatMap.mp (hasErrors_flatMap.mp hphase rule hrule) c hc
  unfold checkWindow at hcheck
  rw [hasErrors_append, Bool.or_eq_false_iff] at hcheck
  cases hwindow : c.window rule.anchorBinding with
  | none =>
      rw [hwindow] at hcheck
      exact absurd hcheck.2 (fun hok : hasErrors [err _ _] = false => by cases hok)
  | some window =>
      obtain ⟨back, forward⟩ := window
      rw [hwindow] at hcheck
      obtain ⟨hzero, hmax⟩ := @le_rulesetMaxForward ruleset
      have hle := hmax rule hrule c hc back forward hwindow
      have hnonneg : 0 ≤ forward.toInt := by
        unfold CorrelateBlock.window calculableWindow at hwindow
        simp only [Option.bind_eq_bind, Option.bind_eq_some_iff] at hwindow
        obtain ⟨b, -, f, -, hif⟩ := hwindow
        split at hif
        · cases hif
        · rename_i hok
          cases hif
          have hforward := (not_or.mp hok).2
          exact Int.not_lt.mp fun hlt => hforward (Int64.lt_iff_toInt_lt.mpr hlt)
      have hallowed := hcheck.2
      rw [hasErrors_check, Bool.not_eq_false', Bool.not_eq_true', Bool.or_eq_false_iff,
        decide_eq_false_iff_not, decide_eq_false_iff_not, Int64.lt_iff_toInt_lt,
        Int64.lt_iff_toInt_lt] at hallowed
      rw [saturatingSub, toInt_ofIntClamp] at hallowed
      refine ⟨.ofMillis back, .ofMillis forward, by rw [lowerWindow, hwindow], ?_, ?_⟩
      · rw [DurationMs.toInt_ofMillis]
        omega
      · rw [DurationMs.toInt_ofMillis]
        omega

/-- The windows of an accepted image: forward within the rule's annotation, which
is within the longest forward window, and backward within the rest of the
look-back. -/
theorem accepted_window (h : verifyWithConfig catalog config ruleset = .ok image)
    (hinst : inst ∈ image.rules) (hspec : spec ∈ inst.correlates) :
    ∃ back forward, spec.window = .calculable back forward ∧ forward ≤ inst.maxForward ∧
      back.toInt + (rulesetMaxForwardWindowMs ruleset).toInt ≤ config.maxLookbackMs.toInt := by
  obtain ⟨rule, hrule, hlowered⟩ := (mem_image_iff h).mp hinst
  obtain ⟨specs, hspecs, rfl⟩ := lowerRule_eq hlowered
  obtain ⟨hno, -⟩ := verify_ok h
  obtain ⟨c, hc, hcspec⟩ := lowerCorrelates_mem hspecs hspec
  obtain ⟨back, forward, hwindow, -, hback⟩ := hno.window hrule hc
  have hspecWindow : spec.window = .calculable back forward :=
    (lowerCorrelate_window hcspec).trans hwindow
  refine ⟨back, forward, hspecWindow, ?_, hback⟩
  exact le_windowReach hspec (by rw [hspecWindow]; rfl)

theorem accepted_maxForward (h : verifyWithConfig catalog config ruleset = .ok image)
    (hinst : inst ∈ image.rules) :
    inst.maxForward.toInt ≤ (rulesetMaxForwardWindowMs ruleset).toInt := by
  obtain ⟨rule, hrule, hlowered⟩ := (mem_image_iff h).mp hinst
  obtain ⟨specs, hspecs, rfl⟩ := lowerRule_eq hlowered
  obtain ⟨hno, -⟩ := verify_ok h
  obtain ⟨hzero, -⟩ := @le_rulesetMaxForward ruleset
  let bound : DurationMs := ⟨rulesetMaxForwardWindowMs ruleset, hzero⟩
  refine DurationMs.le_iff.mp (windowReach_le fun spec hspec d hd => ?_ :
    windowReach WindowProof.forward? specs ≤ bound)
  obtain ⟨c, hc, hcspec⟩ := lowerCorrelates_mem hspecs hspec
  obtain ⟨back, forward, hwindow, hforward, -⟩ := hno.window hrule hc
  rw [(lowerCorrelate_window hcspec).trans hwindow] at hd
  obtain rfl := Option.some.inj hd
  exact DurationMs.le_iff.mpr hforward

/-- A rule waits no longer than the look-back. -/
theorem accepted_maxForward_le (h : verifyWithConfig catalog config ruleset = .ok image)
    (hinst : inst ∈ image.rules) (hnonneg : 0 ≤ config.maxLookbackMs.toInt) :
    inst.maxForward.toInt ≤ config.maxLookbackMs.toInt := by
  rcases hspecs : inst.correlates with _ | ⟨spec, specs⟩
  · obtain ⟨rule, -, hlowered⟩ := (mem_image_iff h).mp hinst
    obtain ⟨specs, -, rfl⟩ := lowerRule_eq hlowered
    obtain rfl : specs = [] := hspecs
    exact hnonneg
  · obtain ⟨back, forward, -, -, hback⟩ :=
      accepted_window h hinst (hspecs ▸ List.mem_cons_self .. : spec ∈ inst.correlates)
    have hmax := accepted_maxForward h hinst
    have hpos := back.nonneg
    unfold DurationMs.toInt at hback
    omega

end Adgl
