import NFdl.Adgl.Closed
import NFdl.Adgl.Numerals
import NFdl.Adgl.Operators
import NFdl.Syntax.Lexemes

/-!
# Arithmetic on windows

A window bound is the time of the anchor with durations added to and subtracted from it. Its
offset is computed with 64-bit integers, from milliseconds that the lexer computed. It is
exact as long as every duration is read exactly and no sum on the way leaves the range.
-/

namespace Adgl

open NFdl.Lexer (toDigit i64FromStrRadix toDigit_ten foldl_digits)
open Ast (BinaryOp Expr CorrelateBlock Ruleset)

/-! ### Bounds as they are written -/

/-- A duration before a text, with the milliseconds that the lexer reads. -/
structure Duration where
  literal : Literal
  after : List Char
  stands : literal.Stands after
  millis : Int64
  width : ℕ
  read : lexNumberOrDuration (literal.text ++ after) = .ok (.duration millis, width)

namespace Duration

/-- The unit conversion of a duration is exact. -/
def Exact (d : Duration) : Prop := d.millis.toInt = d.literal.value

end Duration

inductive Shift where
  | plus
  | minus
deriving DecidableEq

namespace Shift

def op : Shift → BinaryOp
  | plus => .add
  | minus => .sub

def sum : Shift → ℤ → ℤ → ℤ
  | plus, offset, millis => offset + millis
  | minus, offset, millis => offset - millis

/-- The sum without a check for overflow. -/
def wrapping : Shift → Int64 → Int64 → Int64
  | plus, offset, millis => offset + millis
  | minus, offset, millis => offset - millis

end Shift

/-- Whether an expression is something with a duration added to or subtracted from it. -/
def isShifted : Expr → Bool
  | .binary .add _ (.duration _) => true
  | .binary .sub _ (.duration _) => true
  | _ => false

/-- A window bound with its durations as they are written. -/
inductive TimeExpr where
  | base (expr : Expr) (h : isShifted expr = false)
  | shift (t : TimeExpr) (shift : Shift) (d : Duration)

namespace TimeExpr

variable (anchorBinding : String)

/-- What the parser makes of a bound. -/
def expr : TimeExpr → Expr
  | base expr _ => expr
  | shift t s d => .binary s.op t.expr (.duration d.millis)

def durations : TimeExpr → List Duration
  | base .. => []
  | shift t _ d => t.durations ++ [d]

/-- The offset of a bound from the anchor. -/
def offset : TimeExpr → Option ℤ
  | base expr _ => if isBindingTimeProbe anchorBinding expr then some 0 else none
  | shift t s d => t.offset.map (s.sum · d.literal.value)

/-- No sum overflows that is computed for a bound. -/
def NoOverflow : TimeExpr → Prop
  | base .. => True
  | shift t s d => t.NoOverflow ∧ ∀ lhs, asAnchorOffset anchorBinding t.expr = some lhs →
      InRange (s.sum lhs.toInt d.millis.toInt)

/-- The offsets of a bound and of all bounds within it are in range. -/
def OffsetsInRange : TimeExpr → Prop
  | base .. => True
  | shift t s d => t.OffsetsInRange ∧ ∀ lhs, t.offset anchorBinding = some lhs →
      InRange (s.sum lhs d.literal.value)

end TimeExpr

/-- The milliseconds that are added to or subtracted from an expression. -/
def shifts : Expr → List Int64
  | .binary .add left (.duration millis) => shifts left ++ [millis]
  | .binary .sub left (.duration millis) => shifts left ++ [millis]
  | _ => []

/-- The window of a correlate with the bounds `start` and `end_` is computed exactly. -/
structure ExactWindow (ruleset : Ruleset) (anchorBinding : String) (start end_ : TimeExpr) :
    Prop where
  conversions : ∀ d ∈ start.durations ++ end_.durations, d.Exact
  start_sums : start.NoOverflow anchorBinding
  /-- The end of a window is computed when the start has an offset. -/
  end_sums : (asAnchorOffset anchorBinding start.expr).isSome → end_.NoOverflow anchorBinding
  negation : ∀ back forward, asAnchorOffset anchorBinding start.expr = some back →
    asAnchorOffset anchorBinding end_.expr = some forward →
    ¬ (0 < back ∨ forward < 0) → InRange (-back.toInt)
  start_offset : ∀ back, asAnchorOffset anchorBinding start.expr = some back →
    start.offset anchorBinding = some back.toInt
  end_offset : (asAnchorOffset anchorBinding start.expr).isSome → ∀ forward,
    asAnchorOffset anchorBinding end_.expr = some forward →
      end_.offset anchorBinding = some forward.toInt
  window : ∀ back forward,
    calculableWindow anchorBinding start.expr end_.expr = some (back, forward) →
      start.offset anchorBinding = some (-back.toInt) ∧
      end_.offset anchorBinding = some forward.toInt ∧
      forward.toInt ≤ (rulesetMaxForwardWindowMs ruleset).toInt

/-- Every duration of a window is read exactly, the offsets on the way are in range, and the
start can be negated. -/
structure WindowFits (anchorBinding : String) (start end_ : TimeExpr) : Prop where
  literals : ∀ d ∈ start.durations ++ end_.durations, ¬ d.literal.Misread ∧ ¬ d.literal.Saturated
  start_offsets : start.OffsetsInRange anchorBinding
  end_offsets : (start.offset anchorBinding).isSome → end_.OffsetsInRange anchorBinding
  start_above : ∀ forward, end_.offset anchorBinding = some forward → 0 ≤ forward →
    start.offset anchorBinding ≠ some (-2 ^ 63)

/-! ### Sums -/

namespace Shift

/-- A sum in range is computed exactly. -/
theorem toInt_wrapping {s : Shift} {a b : Int64} (h : InRange (s.sum a.toInt b.toInt)) :
    (s.wrapping a b).toInt = s.sum a.toInt b.toInt := by
  obtain ⟨hlo, hhi⟩ := h
  cases s with
  | plus =>
    simp only [sum] at hlo hhi
    rw [wrapping, Int64.toInt_add, sum, Int.bmod_eq_of_le (by omega) (by omega)]
  | minus =>
    simp only [sum] at hlo hhi
    rw [wrapping, Int64.toInt_sub, sum, Int.bmod_eq_of_le (by omega) (by omega)]

end Shift

namespace Duration

variable {d : Duration}

theorem read_whole : d.literal.unit ≠ none ∧ d.width = d.literal.text.length := by
  have hlex := Literal.lexNumberOrDuration_eq d.stands
  rw [d.read] at hlex
  cases hread : i64FromStrRadix d.literal.numeral.radix.base d.literal.numeral.parsed with
  | none =>
    rw [hread] at hlex
    cases hlex
  | some value =>
    rw [hread] at hlex
    obtain ⟨htoken, hwidth⟩ := Prod.mk.inj (Except.ok.inj hlex)
    refine ⟨fun hunit => ?_, hwidth⟩
    rw [Literal.token, hunit] at htoken
    cases htoken

/-- A duration that is read is exact unless its digits are misread or its unit saturates. -/
theorem exact_iff :
    d.Exact ↔ ¬ d.literal.Misread ∧ ¬ d.literal.Saturated := by
  rw [← Literal.readExactly_iff_not d.stands]
  constructor
  · intro hexact
    refine ⟨fun token width hread => ?_, fun hexceeds => ?_⟩
    · rw [d.read] at hread
      cases hread
      exact ⟨read_whole.2, read_whole.1, hexact⟩
    · have hlt := d.millis.toInt_lt
      rw [hexact] at hlt
      omega
  · intro hread
    exact (hread.accepted _ _ d.read).2.2

end Duration

/-! ### Every bound is written somehow -/

theorem isDigit_toDigits {n : ℕ} : ∀ c ∈ Nat.toDigits 10 n, c.isDigit = true :=
  fun _ hc => Nat.isDigit_of_mem_toDigits (by decide) (by decide) hc

/-- A number in decimal digits. -/
def Numeral.ofNat (n : ℕ) : Numeral where
  radix := .decimal
  body := Nat.toDigits 10 n
  inBody := fun c hc => by simp [inRun, Radix.base, toDigit_ten (isDigit_toDigits c hc)]
  begins := fun _ => by
    have hne : Nat.toDigits 10 n ≠ [] := Nat.toDigits_ne_nil
    obtain ⟨c, more, hcs⟩ := List.exists_cons_of_ne_nil hne
    have hc : c ∈ Nat.toDigits 10 n := by simp [hcs]
    simpa [hcs] using isDigit_toDigits c hc

theorem Numeral.parsed_ofNat (n : ℕ) : (ofNat n).parsed = Nat.toDigits 10 n := by
  refine List.filter_eq_self.mpr fun c hc => decide_eq_true ?_
  rintro rfl
  exact absurd (isDigit_toDigits _ hc) (by decide)

theorem Numeral.read_ofNat {n : ℕ} (hn : n < 2 ^ 63) :
    i64FromStrRadix (ofNat n).radix.base (ofNat n).parsed = some (.ofNat n) := by
  have hvalue := foldl_digits (Nat.toDigits 10 n) isDigit_toDigits 0
  rw [Nat.ofDigitChars_ten_toDigits] at hvalue
  rw [parsed_ofNat]
  simp only [ofNat, Radix.base, i64FromStrRadix, hvalue]
  exact if_pos ⟨Nat.toDigits_ne_nil, hn⟩

namespace Duration

/-- Milliseconds in decimal digits with their unit. -/
def millisLiteral (n : ℕ) : Literal := ⟨.ofNat n, some .ms⟩

theorem millisLiteral_stands {n : ℕ} : (millisLiteral n).Stands [] := by
  refine ⟨⟨?_, fun _ _ c hc => ?_⟩, trivial⟩
  · exact (by decide : inRun 10 'm' = false)
  · obtain rfl : 'm' = c := by simpa [millisLiteral, Literal.unitText, TimeUnit.text] using hc
    decide

/-- The duration of a number of milliseconds. -/
def ofMillis (n : ℕ) (hn : n < 2 ^ 63) : Duration where
  literal := millisLiteral n
  after := []
  stands := millisLiteral_stands
  millis := .ofNat n
  width := (millisLiteral n).text.length
  read := by
    have htoken : (millisLiteral n).token (.ofNat n) = .duration (.ofNat n) :=
      congrArg NumberToken.duration (saturatingMul_one _)
    rw [Literal.lexNumberOrDuration_eq millisLiteral_stands]
    simp only [millisLiteral, Numeral.read_ofNat hn]
    rw [← htoken]
    rfl

end Duration

/-- Every expression whose durations are not negative is a window bound that can be written. -/
theorem TimeExpr.exists_expr {e : Expr} (h : ∀ millis ∈ shifts e, 0 ≤ millis.toInt) :
    ∃ t : TimeExpr, t.expr = e := by
  have hmillis : ∀ millis : Int64, 0 ≤ millis.toInt → ∃ d : Duration, d.millis = millis := by
    intro millis hpos
    obtain ⟨n, hn⟩ := Int.eq_ofNat_of_zero_le hpos
    have hlt : n < 2 ^ 63 := by
      have hmax := millis.toInt_lt
      omega
    refine ⟨.ofMillis n hlt, Int64.toInt_inj.mp ?_⟩
    exact (Int64.toInt_ofNat_of_lt hlt).trans hn.symm
  fun_induction shifts e with
  | case1 left millis ih =>
    obtain ⟨t, rfl⟩ := ih fun m hm => h m (by simp [hm])
    obtain ⟨d, rfl⟩ := hmillis millis (h millis (by simp))
    exact ⟨.shift t .plus d, rfl⟩
  | case2 left millis ih =>
    obtain ⟨t, rfl⟩ := ih fun m hm => h m (by simp [hm])
    obtain ⟨d, rfl⟩ := hmillis millis (h millis (by simp))
    exact ⟨.shift t .minus d, rfl⟩
  | case3 =>
    rename_i e hadd hsub
    refine ⟨.base e ?_, rfl⟩
    unfold isShifted
    split
    · next left millis => exact (hadd left millis rfl).elim
    · next left millis => exact (hsub left millis rfl).elim
    · rfl

namespace TimeExpr

variable {anchorBinding : String} {t : TimeExpr}

theorem asAnchorOffset_base {e : Expr} (h : isShifted e = false) :
    asAnchorOffset anchorBinding e =
      if isBindingTimeProbe anchorBinding e then some 0 else none := by
  fun_cases asAnchorOffset anchorBinding e with
  | case1 id field hid => simp [isBindingTimeProbe, hid]
  | case2 id field hid => simpa [isBindingTimeProbe] using hid
  | case3 left millis => cases h
  | case4 left millis => cases h
  | case5 =>
    rename_i hfield hadd hsub
    have hprobe : isBindingTimeProbe anchorBinding e = false := by
      unfold isBindingTimeProbe
      split
      · next id field => exact (hfield id field rfl).elim
      · rfl
    simp [hprobe]

theorem asAnchorOffset_shift {s : Shift} {d : Duration} :
    asAnchorOffset anchorBinding (shift t s d).expr =
      (asAnchorOffset anchorBinding t.expr).map (s.wrapping · d.millis) := by
  cases s <;> simp [expr, Shift.op, Shift.wrapping, asAnchorOffset]

/-- Without an overflow an offset is computed exactly. -/
theorem map_asAnchorOffset (hexact : ∀ d ∈ t.durations, d.Exact)
    (h : t.NoOverflow anchorBinding) :
    (asAnchorOffset anchorBinding t.expr).map Int64.toInt = t.offset anchorBinding := by
  induction t with
  | base e he =>
    rw [expr, asAnchorOffset_base he, offset]
    split <;> rfl
  | shift t s d ih =>
    have hd : d.Exact := hexact d (by simp [durations])
    have ht := ih (fun d' hd' => hexact d' (by simp [durations, hd'])) h.1
    rw [asAnchorOffset_shift, offset, ← ht]
    cases hlhs : asAnchorOffset anchorBinding t.expr with
    | none => rfl
    | some lhs =>
      have hsum := Shift.toInt_wrapping (h.2 lhs hlhs)
      rw [hd] at hsum
      simp only [Option.map_some, hsum]

/-- The sums that are computed overflow where the exact offsets are out of range. -/
theorem noOverflow_iff (hexact : ∀ d ∈ t.durations, d.Exact) :
    t.NoOverflow anchorBinding ↔ t.OffsetsInRange anchorBinding := by
  induction t with
  | base e he => exact Iff.rfl
  | shift t s d ih =>
    have hd : d.Exact := hexact d (by simp [durations])
    have ht : ∀ d ∈ t.durations, d.Exact := fun d' hd' => hexact d' (by simp [durations, hd'])
    rw [NoOverflow, OffsetsInRange, ← ih ht]
    refine and_congr_right fun hno => ?_
    have hoffset := map_asAnchorOffset ht hno
    rw [← hoffset]
    cases hlhs : asAnchorOffset anchorBinding t.expr with
    | none => simp
    | some lhs =>
      simp only [Option.some.injEq, Option.map_some, forall_eq', ← show d.millis.toInt = _ from hd]

end TimeExpr

/-! ### Windows -/

section Windows

variable {ruleset : Ruleset} {anchorBinding : String} {start end_ : TimeExpr}

theorem calculableWindow_eq_some_iff {s e : Expr} {back forward : Int64} :
    calculableWindow anchorBinding s e = some (back, forward) ↔
      ∃ offset, asAnchorOffset anchorBinding s = some offset ∧
        asAnchorOffset anchorBinding e = some forward ∧ ¬ (0 < offset ∨ forward < 0) ∧
        back = -offset := by
  simp only [calculableWindow, Option.bind_eq_bind, Option.bind_eq_some_iff]
  constructor
  · rintro ⟨offset, hstart, f, hend, hif⟩
    split at hif
    · cases hif
    · next hok =>
      cases hif
      exact ⟨offset, hstart, hend, hok, rfl⟩
  · rintro ⟨offset, hstart, hend, hok, rfl⟩
    exact ⟨offset, hstart, forward, hend, if_neg hok⟩

/-- A negation in range is exact. -/
theorem toInt_neg_of_inRange {a : Int64} (h : InRange (-a.toInt)) : (-a).toInt = -a.toInt := by
  obtain ⟨hlo, hhi⟩ := h
  rw [Int64.toInt_neg, Int.bmod_eq_of_le (by omega) (by omega)]

/-- The least integer is the only one that cannot be negated. -/
theorem inRange_neg_iff {a : Int64} : InRange (-a.toInt) ↔ a.toInt ≠ -2 ^ 63 := by
  have hle := a.le_toInt
  have hlt := a.toInt_lt
  unfold InRange
  omega

namespace WindowFits

variable (h : WindowFits anchorBinding start end_)

include h

theorem exact (d : Duration) (hd : d ∈ start.durations ++ end_.durations) : d.Exact :=
  Duration.exact_iff.mpr (h.literals d hd)

theorem start_exact (d : Duration) (hd : d ∈ start.durations) : d.Exact :=
  h.exact d (List.mem_append_left _ hd)

theorem end_exact (d : Duration) (hd : d ∈ end_.durations) : d.Exact :=
  h.exact d (List.mem_append_right _ hd)

theorem start_noOverflow : start.NoOverflow anchorBinding :=
  (TimeExpr.noOverflow_iff h.start_exact).mpr h.start_offsets

theorem start_offset : (asAnchorOffset anchorBinding start.expr).map Int64.toInt =
    start.offset anchorBinding :=
  TimeExpr.map_asAnchorOffset h.start_exact h.start_noOverflow

theorem end_noOverflow (hstart : (asAnchorOffset anchorBinding start.expr).isSome) :
    end_.NoOverflow anchorBinding := by
  refine (TimeExpr.noOverflow_iff h.end_exact).mpr (h.end_offsets ?_)
  rw [← h.start_offset, Option.isSome_map]
  exact hstart

theorem end_offset (hstart : (asAnchorOffset anchorBinding start.expr).isSome) :
    (asAnchorOffset anchorBinding end_.expr).map Int64.toInt = end_.offset anchorBinding :=
  TimeExpr.map_asAnchorOffset h.end_exact (h.end_noOverflow hstart)

/-- The start of a window can be negated. -/
theorem negation {back forward : Int64}
    (hback : asAnchorOffset anchorBinding start.expr = some back)
    (hforward : asAnchorOffset anchorBinding end_.expr = some forward)
    (hok : ¬ (0 < back ∨ forward < 0)) : InRange (-back.toInt) := by
  have hstart := h.start_offset
  have hend := h.end_offset (by rw [hback]; rfl)
  rw [hback] at hstart
  rw [hforward] at hend
  have hpos : 0 ≤ forward.toInt :=
    Int.not_lt.mp fun hlt => hok (.inr (Int64.lt_iff_toInt_lt.mpr hlt))
  refine inRange_neg_iff.mpr fun hmin => h.start_above _ hend.symm hpos ?_
  rw [← hstart, ← hmin]
  rfl

/-- A window whose offsets are in range is computed exactly. -/
theorem exactWindow
    (hmax : ∀ back forward,
      calculableWindow anchorBinding start.expr end_.expr = some (back, forward) →
        forward.toInt ≤ (rulesetMaxForwardWindowMs ruleset).toInt) :
    ExactWindow ruleset anchorBinding start end_ where
  conversions := h.exact
  start_sums := h.start_noOverflow
  end_sums := h.end_noOverflow
  negation := fun _ _ hback hforward hok => h.negation hback hforward hok
  start_offset := fun back hback => by rw [← h.start_offset, hback]; rfl
  end_offset := fun hstart forward hforward => by rw [← h.end_offset hstart, hforward]; rfl
  window := fun back forward hwindow => by
    obtain ⟨offset, hstart, hend, hok, rfl⟩ := calculableWindow_eq_some_iff.mp hwindow
    rw [toInt_neg_of_inRange (h.negation hstart hend hok), neg_neg, ← h.start_offset,
      ← h.end_offset (by rw [hstart]; rfl), hstart, hend]
    exact ⟨rfl, rfl, hmax _ _ hwindow⟩

end WindowFits

/-- A window that is computed exactly has its offsets in range. -/
theorem ExactWindow.fits (h : ExactWindow ruleset anchorBinding start end_) :
    WindowFits anchorBinding start end_ := by
  have hstart : ∀ d ∈ start.durations, d.Exact :=
    fun d hd => h.conversions d (List.mem_append_left _ hd)
  have hend : ∀ d ∈ end_.durations, d.Exact :=
    fun d hd => h.conversions d (List.mem_append_right _ hd)
  have hback := TimeExpr.map_asAnchorOffset hstart h.start_sums
  refine ⟨fun d hd => Duration.exact_iff.mp (h.conversions d hd),
    (TimeExpr.noOverflow_iff hstart).mp h.start_sums, fun hsome => ?_, ?_⟩
  · rw [← hback, Option.isSome_map] at hsome
    exact (TimeExpr.noOverflow_iff hend).mp (h.end_sums hsome)
  · intro forward hforward hpos hmin
    rw [← hback] at hmin
    obtain ⟨back, hoffset, hvalue⟩ := Option.map_eq_some_iff.mp hmin
    have hsums := h.end_sums (by rw [hoffset]; rfl)
    rw [← TimeExpr.map_asAnchorOffset hend hsums] at hforward
    obtain ⟨ahead, hahead, rfl⟩ := Option.map_eq_some_iff.mp hforward
    refine absurd hvalue (inRange_neg_iff.mp (h.negation back ahead hoffset hahead ?_))
    rw [Int64.lt_iff_toInt_lt, Int64.lt_iff_toInt_lt]
    have hzero : (0 : Int64).toInt = 0 := rfl
    omega

end Windows

/-- The window of every correlate is computed exactly if and only if its durations are read
exactly, its offsets are in range, and its start can be negated. -/
theorem windows_exact_iff {ruleset : Ruleset} {rule : Ast.RuleDecl} (hrule : rule ∈ ruleset.rules)
    {c : CorrelateBlock} (hc : c ∈ rule.correlates) {start end_ : TimeExpr}
    (hstart : c.time.start = start.expr) (hend : c.time.end_ = end_.expr) :
    ExactWindow ruleset rule.anchorBinding start end_ ↔
      WindowFits rule.anchorBinding start end_ := by
  refine ⟨ExactWindow.fits, fun h => h.exactWindow fun back forward hwindow => ?_⟩
  refine le_rulesetMaxForward.2 rule hrule c hc back forward ?_
  rw [CorrelateBlock.window, hstart, hend]
  exact hwindow

/-! ### Windows at the ends of the range -/

/-- A decision rule on a probable congestion with a window. -/
def windowRule (start end_ : TimeExpr) : Ast.RuleDecl :=
  .decision {
    name := "confirm"
    scope := .session
    anchor := .cause
      ⟨"hole", "Congestion", .binary .ge (.field (.ident "hole") "confidence") (.int 10)⟩
    correlates := [{
      binding := "ptb"
      source := .event ["icmp", "ptb"]
      topo := ⟨"same_session", [.field (.ident "hole") "target", .field (.ident "ptb") "target"]⟩
      time := ⟨.field (.ident "ptb") "time", start.expr, end_.expr⟩
      minMatch := none }]
    ifElse := none
    body := [.emit ⟨"XlIcmpTcpMss", [.severity .high]⟩] }

def windowRules (start end_ : TimeExpr) : Ruleset :=
  ⟨"window", [], [burstRule (.bool true), windowRule start end_]⟩

/-- The time of the anchor. -/
def holeTime : TimeExpr := .base (.field (.ident "hole") "time") rfl

/-- The bounds `hole.time - 500ms` and `hole.time + 1000ms`. -/
def justBefore : TimeExpr := .shift holeTime .minus (.ofMillis 500 (by decide))

def justAfter : TimeExpr := .shift holeTime .plus (.ofMillis 1000 (by decide))

theorem offset_holeTime {lhs : ℤ} (h : holeTime.offset "hole" = some lhs) : lhs = 0 :=
  (Option.some.inj ((by decide : holeTime.offset "hole" = some 0).symm.trans h)).symm

theorem windows_exact_iff_justBefore :
    ExactWindow (windowRules justBefore justAfter) "hole" justBefore justAfter := by
  have hc : _ ∈ (windowRule justBefore justAfter).correlates := List.mem_singleton.mpr rfl
  have hrule : windowRule justBefore justAfter ∈ (windowRules justBefore justAfter).rules := by
    simp [windowRules]
  refine (windows_exact_iff hrule hc rfl rfl).mpr ⟨fun d hd => ?_, ⟨trivial, fun lhs h => ?_⟩,
    fun _ => ⟨trivial, fun lhs h => ?_⟩, fun _ _ _ => by decide⟩
  · have hd : d = .ofMillis 500 (by decide) ∨ d = .ofMillis 1000 (by decide) := by
      simpa [justBefore, justAfter, holeTime, TimeExpr.durations] using hd
    rcases hd with rfl | rfl
    · exact ⟨fun h => absurd h.looksBinary.1 (by decide), fun h => absurd h.exceeds (by decide)⟩
    · exact ⟨fun h => absurd h.looksBinary.1 (by decide), fun h => absurd h.exceeds (by decide)⟩
  · rw [offset_holeTime h]
    exact ⟨by decide, by decide⟩
  · rw [offset_holeTime h]
    exact ⟨by decide, by decide⟩

/-- The largest duration. -/
def longestDuration : Duration := .ofMillis 9223372036854775807 (by decide)

/-- The time of the anchor with the largest duration added twice, and two milliseconds. -/
def wrappedBound : TimeExpr :=
  .shift (.shift (.shift holeTime .plus longestDuration) .plus longestDuration) .plus
    (.ofMillis 2 (by decide))

/-- The time of the anchor less the largest duration and one millisecond. -/
def leastBound : TimeExpr :=
  .shift (.shift holeTime .minus longestDuration) .minus (.ofMillis 1 (by decide))

/-- A window with an end far beyond the range is accepted as if it ended at the anchor, and
the start of another one is negated to itself. -/
theorem windows_wrap :
    (verifyWithConfig .seed .default (windowRules holeTime wrappedBound)).isOk = true ∧
    calculableWindow "hole" holeTime.expr wrappedBound.expr = some (0, 0) ∧
    wrappedBound.offset "hole" = some (2 ^ 64) ∧
    (verifyWithConfig .seed .default (windowRules leastBound holeTime)).isOk = true ∧
    calculableWindow "hole" leastBound.expr holeTime.expr = some (Int64.minValue, 0) ∧
    leastBound.offset "hole" = some (-2 ^ 63) ∧
    ¬ ∀ (ruleset : Ruleset), ∀ rule ∈ ruleset.rules, ∀ c ∈ rule.correlates,
      ∀ start end_ : TimeExpr, c.time.start = start.expr → c.time.end_ = end_.expr →
        ExactWindow ruleset rule.anchorBinding start end_ := by
  refine ⟨by decide, by decide, by decide, by decide, by decide, by decide, fun h => ?_⟩
  have hexact := h (windowRules holeTime wrappedBound) (windowRule holeTime wrappedBound)
    (by simp [windowRules]) _ (List.mem_singleton.mpr rfl) holeTime wrappedBound rfl rfl
  have hend := (hexact.window 0 0 (by decide)).2.1
  exact absurd hend (by decide)

end Adgl
