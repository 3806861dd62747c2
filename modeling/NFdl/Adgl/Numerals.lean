import NFdl.Adgl.Types
import NFdl.Syntax.Lexemes
import Mathlib.Data.Nat.Digits.Lemmas

/-!
# Numbers and durations in a source

The lexer reads a number with its marker for the radix, parses the digits and multiplies
them by the unit. It strips the markers of both radices from the digits of both, and
the product saturates.
-/

namespace Adgl

open NFdl.Lexer (toDigit toDigit_ten i64FromStrRadix)

/-! ### The lexer -/

structure ParseErr where
  code : String
  message : String
  expected : String
  /-- The length of the span in bytes. -/
  width : ℕ
deriving DecidableEq, Repr

inductive NumberToken where
  | int (value : Int64)
  | duration (millis : Int64)
deriving DecidableEq

/-- `i64::saturating_mul`. -/
def saturatingMul (a b : Int64) : Int64 := Int64.ofIntClamp (a.toInt * b.toInt)

def isIdentContinue (c : Char) : Bool := c.isAlphanum || c = '_'

def startsIdentContinue (cs : List Char) : Bool := cs.head?.any isIdentContinue

/-- Whether a character belongs to the run of digits of a number. -/
def inRun (radix : ℕ) (c : Char) : Bool := (toDigit radix c).isSome || c = '_'

/-- The radix of the number at the beginning of a text, and the text of the number. -/
def scanNumber : List Char → ℕ × List Char
  | '0' :: 'x' :: rest => (16, '0' :: 'x' :: rest.takeWhile (inRun 16))
  | '0' :: 'X' :: rest => (16, '0' :: 'X' :: rest.takeWhile (inRun 16))
  | '0' :: 'b' :: rest => (2, '0' :: 'b' :: rest.takeWhile (inRun 2))
  | '0' :: 'B' :: rest => (2, '0' :: 'B' :: rest.takeWhile (inRun 2))
  | rest => (10, rest.takeWhile (inRun 10))

/-- Strip a prefix of two characters as often as it occurs. -/
def trimStartMatches (a b : Char) : List Char → List Char
  | c :: d :: rest => if c = a ∧ d = b then trimStartMatches a b rest else c :: d :: rest
  | cs => cs

/-- The digits that are parsed. -/
def parsedDigits (radix : ℕ) (text : List Char) : List Char :=
  let digits := text.filter (· ≠ '_')
  if radix = 10 then digits
  else trimStartMatches '0' 'B' (trimStartMatches '0' 'b'
    (trimStartMatches '0' 'X' (trimStartMatches '0' 'x' digits)))

/-- The token of a number with what follows it, and the length of the token. -/
def lexUnit (value : Int64) (width : ℕ) (rest : List Char) : Except ParseErr (NumberToken × ℕ) :=
  match rest with
  | 'm' :: 's' :: _ => .ok (.duration value, width + 2)
  | 's' :: more =>
      if startsIdentContinue more then .ok (.int value, width)
      else .ok (.duration (saturatingMul value 1000), width + 1)
  | 'm' :: 'i' :: 'n' :: _ => .ok (.duration (saturatingMul value 60000), width + 3)
  | 'm' :: _ => .error ⟨"ADGL0110", "malformed duration unit", "duration unit: ms, s, min",
      width + ((rest.take 3).map Char.utf8Size).sum⟩
  | _ => .ok (.int value, width)

/-- The number or duration at the beginning of a text, and its length. -/
def lexNumberOrDuration (rest : List Char) : Except ParseErr (NumberToken × ℕ) :=
  let (radix, text) := scanNumber rest
  if text = [] then .error ⟨"ADGL0100", "malformed number", "integer literal", 1⟩
  else match i64FromStrRadix radix (parsedDigits radix text) with
  | none => .error ⟨"ADGL0100", "integer literal out of range", "i64 integer literal", text.length⟩
  | some value => lexUnit value text.length (rest.drop text.length)

/-! ### Literals -/

/-- The positional value of the digits among some characters. -/
def positional (radix : ℕ) (cs : List Char) : ℕ :=
  Nat.ofDigits radix (cs.filterMap (toDigit radix)).reverse

/-- How a number is marked. -/
inductive Radix where
  | decimal
  | hexadecimal (upper : Bool)
  | binary (upper : Bool)
deriving DecidableEq

namespace Radix

def base : Radix → ℕ
  | decimal => 10
  | hexadecimal _ => 16
  | binary _ => 2

def marker : Radix → List Char
  | decimal => []
  | hexadecimal upper => ['0', if upper then 'X' else 'x']
  | binary upper => ['0', if upper then 'B' else 'b']

end Radix

/-- A number with underscores between its digits. A decimal number begins with a digit. -/
structure Numeral where
  radix : Radix
  body : List Char
  inBody : ∀ c ∈ body, inRun radix.base c = true
  begins : radix = .decimal → body.head?.any Char.isDigit = true

namespace Numeral

def text (n : Numeral) : List Char := n.radix.marker ++ n.body

/-- The digits without the underscores. -/
def digits (n : Numeral) : List Char := n.body.filter (· ≠ '_')

def value (n : Numeral) : ℕ := positional n.radix.base n.body

/-- A number ends before a text: its digits do not go on there, and it is not the zero of a
marker. -/
structure Ends (n : Numeral) (tail : List Char) : Prop where
  run : tail.head?.any (inRun n.radix.base) = false
  marker : n.radix = .decimal → n.body = ['0'] → ∀ c ∈ tail.head?, c ∉ ['x', 'X', 'b', 'B']

/-- What is left of the digits of a number after the markers of binary numbers. -/
def stripped (n : Numeral) : List Char :=
  trimStartMatches '0' 'B' (trimStartMatches '0' 'b' n.digits)

/-- A hexadecimal number with digits that begin like a binary number. -/
def LooksBinary (n : Numeral) : Prop :=
  n.radix.base = 16 ∧ ∃ b ∈ ['b', 'B'], ∃ rest, n.digits = '0' :: b :: rest

end Numeral

inductive TimeUnit where
  | ms | s | min
deriving DecidableEq

namespace TimeUnit

def text : TimeUnit → List Char
  | ms => ['m', 's']
  | s => ['s']
  | min => ['m', 'i', 'n']

/-- The milliseconds of a unit. -/
def millis : TimeUnit → ℕ
  | ms => 1
  | s => 1000
  | min => 60000

end TimeUnit

/-- The text after a number with or without a unit. A letter `s` that goes on as a word is no
unit, and a letter `m` is always the beginning of one. -/
def UnitEnds (after : List Char) : Option TimeUnit → Prop
  | none => (∀ rest, after ≠ 'm' :: rest) ∧
      ∀ rest, after = 's' :: rest → startsIdentContinue rest = true
  | some .s => startsIdentContinue after = false
  | some _ => True

/-- A number, or a duration. -/
structure Literal where
  numeral : Numeral
  unit : Option TimeUnit

namespace Literal

def unitText (lit : Literal) : List Char := (lit.unit.map TimeUnit.text).getD []

def text (lit : Literal) : List Char := lit.numeral.text ++ lit.unitText

def value (lit : Literal) : ℕ := lit.numeral.value * (lit.unit.map TimeUnit.millis).getD 1

/-- A literal is all that can be read before a text. -/
structure Stands (lit : Literal) (after : List Char) : Prop where
  numeral : lit.numeral.Ends (lit.unitText ++ after)
  unit : UnitEnds after lit.unit

/-- A token stands for the value of a literal. -/
def Denotes (lit : Literal) : NumberToken → Prop
  | .int value => lit.unit = none ∧ value.toInt = lit.value
  | .duration millis => lit.unit ≠ none ∧ millis.toInt = lit.value

/-- A literal before a text is read whole and with its value if it is accepted, and it is not
accepted if its value is out of range. -/
structure ReadExactly (lit : Literal) (after : List Char) : Prop where
  accepted : ∀ token width, lexNumberOrDuration (lit.text ++ after) = .ok (token, width) →
    width = lit.text.length ∧ lit.Denotes token
  rejected : 2 ^ 63 ≤ lit.value → ∃ e, lexNumberOrDuration (lit.text ++ after) = .error e

/-- A hexadecimal literal that begins like a binary number, and that has digits in range after
these markers. -/
structure Misread (lit : Literal) : Prop where
  looksBinary : lit.numeral.LooksBinary
  some_left : lit.numeral.stripped ≠ []
  in_range : positional 16 lit.numeral.stripped < 2 ^ 63

/-- A duration whose number is read and in range, but not its milliseconds. -/
structure Saturated (lit : Literal) : Prop where
  read : ¬ lit.numeral.LooksBinary
  in_range : lit.numeral.value < 2 ^ 63
  exceeds : 2 ^ 63 ≤ lit.value

end Literal

/-! ### Digits -/

section Digits

variable {radix : ℕ} {c d : Char} {cs : List Char}

theorem positional_cons (h : toDigit radix c = some n) :
    positional radix (c :: cs) =
      positional radix cs + radix ^ (cs.filterMap (toDigit radix)).length * n := by
  simp only [positional, List.filterMap_cons, h]
  exact Nat.ofDigits_reverse_cons _ _

theorem positional_cons_none (h : toDigit radix c = none) :
    positional radix (c :: cs) = positional radix cs := by
  simp only [positional, List.filterMap_cons, h]

theorem positional_le_cons : positional radix cs ≤ positional radix (c :: cs) := by
  cases h : toDigit radix c with
  | none => rw [positional_cons_none h]
  | some n => rw [positional_cons h]; omega

theorem toDigit_underscore : toDigit radix '_' = none := by
  simp [toDigit, Char.isDigit]

/-- Underscores have no value. -/
theorem positional_filter : positional radix (cs.filter (· ≠ '_')) = positional radix cs := by
  induction cs with
  | nil => rfl
  | cons c cs ih =>
    by_cases hc : c = '_'
    · subst hc
      rw [positional_cons_none toDigit_underscore, ← ih]
      rfl
    · rw [List.filter_cons_of_pos (by simpa using hc)]
      cases h : toDigit radix c with
      | none => rw [positional_cons_none h, positional_cons_none h, ih]
      | some n =>
        have hlength : ((cs.filter (· ≠ '_')).filterMap (toDigit radix)).length =
            (cs.filterMap (toDigit radix)).length := by
          congr 1
          rw [List.filterMap_filter]
          refine List.filterMap_congr fun c _ => ?_
          by_cases hc : c = '_'
          · subst hc; simp [toDigit_underscore]
          · simp [hc]
        rw [positional_cons h, positional_cons h, ih, hlength]

/-- The loop over digits adds their value to what was read before. -/
theorem foldl_positional (v : ℕ) (h : ∀ c ∈ cs, (toDigit radix c).isSome) :
    cs.foldl (fun v c => radix * v + (toDigit radix c).getD 0) v =
      positional radix cs + radix ^ (cs.filterMap (toDigit radix)).length * v := by
  induction cs generalizing v with
  | nil => simp [positional]
  | cons c cs ih =>
    obtain ⟨n, hn⟩ := Option.isSome_iff_exists.mp (h c (by simp))
    rw [List.foldl_cons, ih _ fun c hc => h c (by simp [hc]), positional_cons hn]
    simp only [hn, Option.getD_some, List.filterMap_cons, List.length_cons]
    ring

theorem i64FromStrRadix_eq (h : ∀ c ∈ cs, (toDigit radix c).isSome) :
    i64FromStrRadix radix cs =
      if cs ≠ [] ∧ positional radix cs < 2 ^ 63 then some (.ofNat (positional radix cs))
      else none := by
  simp only [i64FromStrRadix, foldl_positional 0 h, mul_zero, add_zero]

theorem trimStartMatches_of_notMem {a b : Char} (h : b ∉ cs) : trimStartMatches a b cs = cs := by
  fun_cases trimStartMatches a b cs with
  | case1 c d rest hcd => exact absurd (by simp [hcd.2]) h
  | case2 => rfl
  | case3 => rfl

theorem trimStartMatches_cons_cons {a b : Char} :
    trimStartMatches a b (a :: b :: cs) = trimStartMatches a b cs := by
  rw [trimStartMatches, if_pos ⟨rfl, rfl⟩]

/-- A marker is stripped once if its letter does not follow. -/
theorem trimStartMatches_marker {a b : Char} (h : b ∉ cs) :
    trimStartMatches a b (a :: b :: cs) = cs :=
  trimStartMatches_cons_cons.trans (trimStartMatches_of_notMem h)

theorem mem_of_mem_trimStartMatches {a b : Char} (h : c ∈ trimStartMatches a b cs) : c ∈ cs := by
  fun_induction trimStartMatches a b cs with
  | case1 d e rest hde ih => simp [ih h]
  | case2 => exact h
  | case3 => exact h

theorem positional_trimStartMatches {a b : Char} :
    positional radix (trimStartMatches a b cs) ≤ positional radix cs := by
  fun_induction trimStartMatches a b cs with
  | case1 c d rest hcd ih => exact ih.trans (positional_le_cons.trans positional_le_cons)
  | case2 => exact le_rfl
  | case3 => exact le_rfl

/-- Digits are lost with a marker. -/
theorem positional_trimStartMatches_lt {a b : Char} (hradix : 0 < radix)
    (hb : toDigit radix b = some n) (hn : 0 < n) :
    positional radix (trimStartMatches a b (a :: b :: cs)) < positional radix (a :: b :: cs) := by
  have hlost : 0 < radix ^ (cs.filterMap (toDigit radix)).length * n :=
    Nat.mul_pos (Nat.pow_pos hradix) hn
  calc positional radix (trimStartMatches a b (a :: b :: cs))
      ≤ positional radix cs := by
        rw [trimStartMatches_cons_cons]
        exact positional_trimStartMatches
    _ < positional radix (b :: cs) := by rw [positional_cons hb]; omega
    _ ≤ positional radix (a :: b :: cs) := positional_le_cons

end Digits

/-! ### Numbers -/

namespace Numeral

variable {n : Numeral} {tail : List Char}

theorem isSome_of_mem_digits {c : Char} (h : c ∈ n.digits) :
    (toDigit n.radix.base c).isSome := by
  simp only [digits, List.mem_filter, decide_eq_true_eq] at h
  have hrun := n.inBody c h.1
  simp only [inRun, Bool.or_eq_true, decide_eq_true_eq] at hrun
  exact hrun.resolve_right h.2

theorem notMem_digits {c : Char} (h : toDigit n.radix.base c = none) : c ∉ n.digits := by
  intro hc
  have hsome := isSome_of_mem_digits hc
  simp [h] at hsome

theorem positional_digits : positional n.radix.base n.digits = n.value := positional_filter

theorem takeWhile_inRun (h : n.Ends tail) :
    (n.body ++ tail).takeWhile (inRun n.radix.base) = n.body := by
  rw [List.takeWhile_append_of_pos n.inBody]
  cases tail with
  | nil => simp
  | cons c tail =>
    have hc : inRun n.radix.base c = false := by simpa using h.run
    simp [hc]

/-- Without a marker a number is decimal. -/
theorem scanNumber_decimal {rest : List Char}
    (h : ∀ c more, rest = '0' :: c :: more → c ∉ ['x', 'X', 'b', 'B']) :
    scanNumber rest = (10, rest.takeWhile (inRun 10)) := by
  unfold scanNumber
  split
  · exact absurd (by simp) (h 'x' _ rfl)
  · exact absurd (by simp) (h 'X' _ rfl)
  · exact absurd (by simp) (h 'b' _ rfl)
  · exact absurd (by simp) (h 'B' _ rfl)
  · rfl

/-- A decimal number and what follows it do not begin with a marker. -/
theorem no_marker (hradix : n.radix = .decimal) (h : n.Ends tail) {c : Char} {more : List Char}
    (hrest : n.body ++ tail = '0' :: c :: more) : c ∉ ['x', 'X', 'b', 'B'] := by
  have hbegins := n.begins hradix
  cases hbody : n.body with
  | nil => simp [hbody] at hbegins
  | cons d body =>
    rw [hbody, List.cons_append] at hrest
    obtain ⟨rfl, hmore⟩ := List.cons.inj hrest
    cases body with
    | nil =>
      rw [List.nil_append] at hmore
      exact h.marker hradix hbody c (by simp [hmore])
    | cons e body =>
      obtain ⟨rfl, -⟩ := List.cons.inj hmore
      have hrun := n.inBody e (by simp [hbody])
      rw [hradix] at hrun
      rintro hmem
      simp only [List.mem_cons, List.not_mem_nil, or_false] at hmem
      rcases hmem with rfl | rfl | rfl | rfl <;> exact absurd hrun (by decide)

/-- A number is scanned whole. -/
theorem scanNumber_eq (h : n.Ends tail) :
    scanNumber (n.text ++ tail) = (n.radix.base, n.text) := by
  have hrun := takeWhile_inRun h
  cases hradix : n.radix with
  | decimal =>
    have htext : n.text = n.body := by rw [text, hradix]; rfl
    rw [hradix] at hrun
    rw [htext, scanNumber_decimal fun c more hrest => no_marker hradix h hrest]
    exact congrArg (Prod.mk 10) hrun
  | hexadecimal upper =>
    rw [hradix] at hrun
    cases upper <;>
      simpa [text, hradix, Radix.marker, Radix.base, scanNumber] using hrun
  | binary upper =>
    rw [hradix] at hrun
    cases upper <;>
      simpa [text, hradix, Radix.marker, Radix.base, scanNumber] using hrun

theorem text_ne_nil : n.text ≠ [] := by
  intro hnil
  cases hradix : n.radix with
  | decimal =>
    have hbegins := n.begins hradix
    have hbody : n.body = [] := by simpa [text, hradix, Radix.marker] using hnil
    simp [hbody] at hbegins
  | hexadecimal upper => simp [text, hradix, Radix.marker] at hnil
  | binary upper => simp [text, hradix, Radix.marker] at hnil

/-- A marker has no underscore. -/
theorem filter_text : n.text.filter (· ≠ '_') = n.radix.marker ++ n.digits := by
  rw [text, List.filter_append, digits]
  congr 1
  cases n.radix with
  | decimal => rfl
  | hexadecimal upper => cases upper <;> rfl
  | binary upper => cases upper <;> rfl

/-- The digits of a decimal number are parsed. -/
theorem parsedDigits_decimal (hradix : n.radix = .decimal) :
    parsedDigits n.radix.base n.text = n.digits := by
  have hbase : n.radix.base = 10 := by rw [hradix]; rfl
  simp only [parsedDigits, filter_text, hbase, if_true]
  rw [hradix]
  rfl

/-- The marker of a binary number is stripped. -/
theorem parsedDigits_binary (hradix : n.radix = .binary upper) :
    parsedDigits n.radix.base n.text = n.digits := by
  have hbase : n.radix.base = 2 := by rw [hradix]; rfl
  have hx : 'x' ∉ n.digits := notMem_digits (by rw [hbase]; decide)
  have hX : 'X' ∉ n.digits := notMem_digits (by rw [hbase]; decide)
  have hb : 'b' ∉ n.digits := notMem_digits (by rw [hbase]; decide)
  have hB : 'B' ∉ n.digits := notMem_digits (by rw [hbase]; decide)
  simp only [parsedDigits, filter_text, hbase, Nat.reduceEqDiff, if_false]
  cases upper with
  | false =>
    have hmarker : n.radix.marker ++ n.digits = '0' :: 'b' :: n.digits := by rw [hradix]; rfl
    rw [hmarker, trimStartMatches_of_notMem (b := 'x') (by simp [hx]),
      trimStartMatches_of_notMem (b := 'X') (by simp [hX]), trimStartMatches_marker hb,
      trimStartMatches_of_notMem hB]
  | true =>
    have hmarker : n.radix.marker ++ n.digits = '0' :: 'B' :: n.digits := by rw [hradix]; rfl
    rw [hmarker, trimStartMatches_of_notMem (b := 'x') (by simp [hx]),
      trimStartMatches_of_notMem (b := 'X') (by simp [hX]),
      trimStartMatches_of_notMem (b := 'b') (by simp [hb]), trimStartMatches_marker hB]

/-- The marker of a hexadecimal number is stripped, and after it the markers of binary
numbers. -/
theorem parsedDigits_hexadecimal (hradix : n.radix = .hexadecimal upper) :
    parsedDigits n.radix.base n.text = n.stripped := by
  have hbase : n.radix.base = 16 := by rw [hradix]; rfl
  have hx : 'x' ∉ n.digits := notMem_digits (by rw [hbase]; decide)
  have hX : 'X' ∉ n.digits := notMem_digits (by rw [hbase]; decide)
  simp only [parsedDigits, filter_text, hbase, Nat.reduceEqDiff, if_false]
  cases upper with
  | false =>
    have hmarker : n.radix.marker ++ n.digits = '0' :: 'x' :: n.digits := by rw [hradix]; rfl
    rw [hmarker, trimStartMatches_marker hx, trimStartMatches_of_notMem hX]
    rfl
  | true =>
    have hmarker : n.radix.marker ++ n.digits = '0' :: 'X' :: n.digits := by rw [hradix]; rfl
    rw [hmarker, trimStartMatches_of_notMem (b := 'x') (by simp [hx]), trimStartMatches_marker hX]
    rfl

/-- The digits that are parsed of a number. -/
def parsed (n : Numeral) : List Char := if n.radix.base = 16 then n.stripped else n.digits

theorem parsedDigits_eq : parsedDigits n.radix.base n.text = n.parsed := by
  cases hradix : n.radix with
  | decimal =>
    have h := parsedDigits_decimal hradix
    rw [hradix] at h
    simpa [parsed, hradix, Radix.base] using h
  | hexadecimal upper =>
    have h := parsedDigits_hexadecimal hradix
    rw [hradix] at h
    simpa [parsed, hradix, Radix.base] using h
  | binary upper =>
    have h := parsedDigits_binary hradix
    rw [hradix] at h
    simpa [parsed, hradix, Radix.base] using h

theorem mem_digits_of_mem_parsed {c : Char} (h : c ∈ n.parsed) : c ∈ n.digits := by
  unfold parsed at h
  split at h
  · exact mem_of_mem_trimStartMatches (mem_of_mem_trimStartMatches h)
  · exact h

theorem parsed_of_not_looksBinary (h : ¬ n.LooksBinary) : n.parsed = n.digits := by
  unfold parsed
  split
  case isFalse => rfl
  case isTrue hbase =>
  have hkeep : ∀ b ∈ ['b', 'B'], trimStartMatches '0' b n.digits = n.digits := by
    intro b hb
    unfold trimStartMatches
    split
    · next c d rest hdigits =>
      rw [hdigits]
      exact if_neg fun hcd => h ⟨hbase, b, hb, rest, by rw [hdigits, hcd.1, hcd.2]⟩
    · rfl
  rw [stripped, hkeep 'b' (by simp), hkeep 'B' (by simp)]

theorem parsed_of_looksBinary (h : n.LooksBinary) : n.parsed = n.stripped := if_pos h.1

/-- A number that looks binary is more than what is parsed of it. -/
theorem positional_stripped_lt (h : n.LooksBinary) : positional 16 n.stripped < n.value := by
  obtain ⟨hbase, b, hb, rest, hdigits⟩ := h
  rw [← positional_digits, hbase]
  simp only [List.mem_cons, List.not_mem_nil, or_false] at hb
  rcases hb with rfl | rfl
  · calc positional 16 n.stripped
        ≤ positional 16 (trimStartMatches '0' 'b' n.digits) := positional_trimStartMatches
      _ < positional 16 n.digits := by
        rw [hdigits]
        exact positional_trimStartMatches_lt (by decide) (n := 11) (by decide) (by decide)
  · have hkeep : trimStartMatches '0' 'b' n.digits = n.digits := by
      rw [hdigits, trimStartMatches, if_neg (by decide)]
    rw [stripped, hkeep, hdigits]
    exact positional_trimStartMatches_lt (by decide) (n := 11) (by decide) (by decide)

end Numeral

/-! ### Units -/

/-- A product that exceeds the range is clamped. -/
theorem toInt_saturatingMul {v : Int64} {k : ℕ} (hv : 0 ≤ v.toInt) (hk : k < 2 ^ 63) :
    (saturatingMul v (.ofNat k)).toInt = min (v.toInt * k) (2 ^ 63 - 1) := by
  have hmin : Int64.minValue.toInt = -2 ^ 63 := by decide
  have hmax : Int64.maxValue.toInt = 2 ^ 63 - 1 := by decide
  have hpos : 0 ≤ v.toInt * (k : ℤ) := Int.mul_nonneg hv (by omega)
  rw [saturatingMul, Int64.toInt_ofNat_of_lt hk]
  by_cases h : v.toInt * (k : ℤ) ≤ 2 ^ 63 - 1
  · rw [Int64.toInt_ofIntClamp (by omega) (by omega), min_eq_left h]
  · rw [Int64.ofIntClamp, dif_pos (by omega), dif_neg (by omega), hmax, min_eq_right (by omega)]

theorem saturatingMul_one (v : Int64) : saturatingMul v (.ofNat 1) = v := by
  have hone : (Int64.ofNat 1).toInt = 1 := by decide
  rw [saturatingMul, hone, mul_one, Int64.ofIntClamp_toInt]

namespace Literal

variable {lit : Literal} {after : List Char}

/-- The token of a number with the unit of a literal. -/
def token (lit : Literal) (value : Int64) : NumberToken :=
  match lit.unit with
  | none => .int value
  | some unit => .duration (saturatingMul value (.ofNat unit.millis))

/-- The unit of a literal is read after its number. -/
theorem lexUnit_eq (h : UnitEnds after lit.unit) (value : Int64) (width : ℕ) :
    lexUnit value width (lit.unitText ++ after) =
      .ok (lit.token value, width + lit.unitText.length) := by
  cases hunit : lit.unit with
  | some unit =>
    have htext : lit.unitText = unit.text := by rw [unitText, hunit]; rfl
    have htoken : lit.token value = .duration (saturatingMul value (.ofNat unit.millis)) := by
      rw [token, hunit]
    rw [htext, htoken]
    cases unit with
    | ms =>
      rw [TimeUnit.millis, saturatingMul_one]
      rfl
    | s =>
      rw [hunit] at h
      exact if_neg (by simp [show startsIdentContinue after = false from h])
    | min => rfl
  | none =>
    have htext : lit.unitText = [] := by rw [unitText, hunit]; rfl
    have htoken : lit.token value = .int value := by rw [token, hunit]
    rw [hunit] at h
    rw [htext, htoken, List.nil_append]
    unfold lexUnit
    split
    · exact absurd rfl (h.1 _)
    · next more => exact if_pos (h.2 more rfl)
    · exact absurd rfl (h.1 _)
    · exact absurd rfl (h.1 _)
    · rfl

/-- What follows a number that is accepted has a unit or no unit. -/
theorem exists_unit {tail : List Char} {value : Int64} {width : ℕ} {result : NumberToken × ℕ}
    (h : lexUnit value width tail = .ok result) :
    ∃ unit after, tail = ((unit.map TimeUnit.text).getD []) ++ after ∧ UnitEnds after unit := by
  unfold lexUnit at h
  split at h
  · next after => exact ⟨some .ms, after, rfl, trivial⟩
  · next more =>
    by_cases hmore : startsIdentContinue more = true
    · refine ⟨none, 's' :: more, rfl, fun rest hrest => ?_, fun rest hrest => ?_⟩
      · exact absurd (List.cons.inj hrest).1 (by decide)
      · rw [← (List.cons.inj hrest).2]
        exact hmore
    · exact ⟨some .s, more, rfl, by simpa [UnitEnds] using hmore⟩
  · next after => exact ⟨some .min, after, rfl, trivial⟩
  · cases h
  · next hms hs hmin hm =>
    exact ⟨none, tail, rfl, hm, fun rest hrest => absurd hrest (hs rest)⟩

/-! ### Literals that are read -/

/-- What is done with a number and what follows it. -/
theorem lexNumberOrDuration_numeral {n : Numeral} {tail : List Char} (h : n.Ends tail) :
    lexNumberOrDuration (n.text ++ tail) =
      match i64FromStrRadix n.radix.base n.parsed with
      | none => .error ⟨"ADGL0100", "integer literal out of range", "i64 integer literal",
          n.text.length⟩
      | some value => lexUnit value n.text.length tail := by
  simp only [lexNumberOrDuration, Numeral.scanNumber_eq h, if_neg Numeral.text_ne_nil,
    Numeral.parsedDigits_eq, List.drop_left']

/-- A literal is read whole, with the value of the digits that are parsed. -/
theorem lexNumberOrDuration_eq (h : lit.Stands after) :
    lexNumberOrDuration (lit.text ++ after) =
      match i64FromStrRadix lit.numeral.radix.base lit.numeral.parsed with
      | none => .error ⟨"ADGL0100", "integer literal out of range", "i64 integer literal",
          lit.numeral.text.length⟩
      | some value => .ok (lit.token value, lit.text.length) := by
  rw [text, List.append_assoc, lexNumberOrDuration_numeral h.numeral]
  simp only [lexUnit_eq h.unit, List.length_append]

theorem parsed_isSome : ∀ c ∈ lit.numeral.parsed, (toDigit lit.numeral.radix.base c).isSome :=
  fun _ hc => Numeral.isSome_of_mem_digits (Numeral.mem_digits_of_mem_parsed hc)

/-- A number is read if there are digits to parse and they are in range. -/
theorem read_eq_some_iff {value : Int64} :
    i64FromStrRadix lit.numeral.radix.base lit.numeral.parsed = some value ↔
      lit.numeral.parsed ≠ [] ∧ positional lit.numeral.radix.base lit.numeral.parsed < 2 ^ 63 ∧
        value = .ofNat (positional lit.numeral.radix.base lit.numeral.parsed) := by
  rw [i64FromStrRadix_eq parsed_isSome]
  split
  · next h =>
    rw [Option.some.injEq]
    exact ⟨fun hread => ⟨h.1, h.2, hread.symm⟩, fun hread => hread.2.2.symm⟩
  · next h => exact ⟨nofun, fun hread => absurd ⟨hread.1, hread.2.1⟩ h⟩

/-- The milliseconds of a unit, or one. -/
def factor (lit : Literal) : ℕ := (lit.unit.map TimeUnit.millis).getD 1

theorem factor_pos : 0 < lit.factor := by
  unfold factor
  cases lit.unit with
  | none => decide
  | some unit => cases unit <;> decide

theorem value_eq : lit.value = lit.numeral.value * lit.factor := rfl

/-- A token stands for a literal if the clamped product is the literal's value. -/
theorem denotes_token {value : Int64} (hvalue : 0 ≤ value.toInt) :
    lit.Denotes (lit.token value) ↔
      min (value.toInt * lit.factor) (2 ^ 63 - 1) = (lit.value : ℤ) := by
  cases hunit : lit.unit with
  | none =>
    have hfactor : lit.factor = 1 := by rw [factor, hunit]; rfl
    have hmax := value.toInt_lt
    rw [token, hunit, hfactor, Nat.cast_one, mul_one, min_eq_left (by omega)]
    simp [Denotes, hunit]
  | some unit =>
    have hfactor : lit.factor = unit.millis := by rw [factor, hunit]; rfl
    have hmillis : unit.millis < 2 ^ 63 := by cases unit <;> decide
    rw [token, hunit, hfactor, ← toInt_saturatingMul hvalue hmillis]
    simp [Denotes, hunit]

/-- A literal is read exactly if every number that is read for it gives its value. -/
theorem readExactly_iff (h : lit.Stands after) :
    lit.ReadExactly after ↔
      (lit.numeral.parsed ≠ [] →
        positional lit.numeral.radix.base lit.numeral.parsed < 2 ^ 63 →
        min ((positional lit.numeral.radix.base lit.numeral.parsed : ℤ) * lit.factor)
          (2 ^ 63 - 1) = lit.value) := by
  have hlex := lexNumberOrDuration_eq h
  constructor
  · intro hread hparsed hrange
    have hsome := read_eq_some_iff.mpr ⟨hparsed, hrange, rfl⟩
    rw [hsome] at hlex
    have hdenotes := (hread.accepted _ _ hlex).2
    have hvalue := Int64.toInt_ofNat_of_lt hrange
    rw [denotes_token (by omega), hvalue] at hdenotes
    exact hdenotes
  · intro hexact
    cases hread : i64FromStrRadix lit.numeral.radix.base lit.numeral.parsed with
    | none =>
      rw [hread] at hlex
      refine ⟨fun token width hok => ?_, fun _ => ⟨_, hlex⟩⟩
      rw [hlex] at hok
      cases hok
    | some value =>
      rw [hread] at hlex
      obtain ⟨hparsed, hrange, rfl⟩ := read_eq_some_iff.mp hread
      have hvalue := Int64.toInt_ofNat_of_lt hrange
      have hmin := hexact hparsed hrange
      refine ⟨fun token width hok => ?_, fun hexceeds => ?_⟩
      · rw [hlex] at hok
        cases hok
        refine ⟨rfl, ?_⟩
        rw [denotes_token (by omega), hvalue]
        exact hmin
      · have hle := min_le_right
          ((positional lit.numeral.radix.base lit.numeral.parsed : ℤ) * lit.factor) (2 ^ 63 - 1)
        omega

/-- A number that looks binary is read exactly if it is not read at all. -/
theorem readExactly_of_looksBinary (h : lit.Stands after) (hlooks : lit.numeral.LooksBinary) :
    lit.ReadExactly after ↔ ¬ lit.Misread := by
  have hless := Numeral.positional_stripped_lt hlooks
  rw [readExactly_iff h, Numeral.parsed_of_looksBinary hlooks, hlooks.1]
  constructor
  · intro hexact hmisread
    have hmin := hexact hmisread.some_left hmisread.in_range
    have hproduct : positional 16 lit.numeral.stripped * lit.factor < lit.value :=
      Nat.mul_lt_mul_of_pos_right hless factor_pos
    have hle := min_le_left ((positional 16 lit.numeral.stripped : ℤ) * lit.factor) (2 ^ 63 - 1)
    rw [hmin] at hle
    exact absurd (by exact_mod_cast hle) (Nat.not_le.mpr hproduct)
  · intro hmisread hleft hrange
    exact absurd ⟨hlooks, hleft, hrange⟩ hmisread

/-- Another number is read exactly if its unit does not exceed the range. -/
theorem readExactly_of_not_looksBinary (h : lit.Stands after)
    (hlooks : ¬ lit.numeral.LooksBinary) : lit.ReadExactly after ↔ ¬ lit.Saturated := by
  rw [readExactly_iff h, Numeral.parsed_of_not_looksBinary hlooks, Numeral.positional_digits]
  have hcast : (lit.numeral.value : ℤ) * lit.factor = (lit.value : ℤ) := by
    rw [value_eq, Nat.cast_mul]
  rw [hcast]
  constructor
  · intro hexact hsaturated
    have hexceeds := hsaturated.exceeds
    have hdigits : lit.numeral.digits ≠ [] := by
      intro hnil
      have hzero : lit.numeral.value = 0 := by
        rw [← Numeral.positional_digits, hnil]
        rfl
      rw [value_eq, hzero, zero_mul] at hexceeds
      omega
    have hmin := hexact hdigits hsaturated.in_range
    have hle := min_le_right (lit.value : ℤ) (2 ^ 63 - 1)
    omega
  · intro hsaturated _ hrange
    have hfits : lit.value < 2 ^ 63 := by
      by_contra hexceeds
      exact hsaturated ⟨hlooks, hrange, by omega⟩
    exact min_eq_left (by omega)

/-- A literal is read exactly unless it is misread or saturates. -/
theorem readExactly_iff_not (h : lit.Stands after) :
    lit.ReadExactly after ↔ ¬ lit.Misread ∧ ¬ lit.Saturated := by
  by_cases hlooks : lit.numeral.LooksBinary
  · have hsaturated : ¬ lit.Saturated := fun hs => hs.read hlooks
    rw [readExactly_of_looksBinary h hlooks, and_iff_left hsaturated]
  · have hmisread : ¬ lit.Misread := fun hm => hlooks hm.looksBinary
    rw [readExactly_of_not_looksBinary h hlooks, and_iff_right hmisread]

end Literal

/-! ### Texts that are read -/

theorem exists_run (p : Char → Bool) (cs : List Char) :
    ∃ body tail, cs = body ++ tail ∧ (∀ c ∈ body, p c = true) ∧ tail.head?.any p = false := by
  refine ⟨cs.takeWhile p, cs.dropWhile p, List.takeWhile_append_dropWhile.symm, fun c hc => ?_, ?_⟩
  · exact List.all_eq_true.mp List.all_takeWhile c hc
  · have hhead := List.head?_dropWhile_not p cs
    cases hdrop : (cs.dropWhile p).head? with
    | none => rfl
    | some c => simpa [hdrop] using hhead

/-- A text that begins with a digit begins with a number. -/
theorem exists_numeral {c : Char} (rest : List Char) (hc : c.isDigit = true) :
    ∃ (n : Numeral) (tail : List Char), c :: rest = n.text ++ tail ∧ n.Ends tail := by
  by_cases hmarked : ∃ m ∈ ['x', 'X', 'b', 'B'], ∃ more, c :: rest = '0' :: m :: more
  · obtain ⟨m, hm, more, hrest⟩ := hmarked
    have hmarker : ∃ radix : Radix, radix.marker = ['0', m] := by
      simp only [List.mem_cons, List.not_mem_nil, or_false] at hm
      rcases hm with rfl | rfl | rfl | rfl
      · exact ⟨.hexadecimal false, rfl⟩
      · exact ⟨.hexadecimal true, rfl⟩
      · exact ⟨.binary false, rfl⟩
      · exact ⟨.binary true, rfl⟩
    obtain ⟨radix, hradix⟩ := hmarker
    have hdecimal : radix ≠ .decimal := by
      rintro rfl
      cases hradix
    obtain ⟨body, tail, rfl, hbody, htail⟩ := exists_run (inRun radix.base) more
    refine ⟨⟨radix, body, hbody, fun h => absurd h hdecimal⟩, tail, ?_, htail,
      fun h => absurd h hdecimal⟩
    simp [Numeral.text, hradix, hrest]
  · have hrun : inRun 10 c = true := by simp [inRun, toDigit_ten hc]
    obtain ⟨body, tail, hsplit, hbody, htail⟩ := exists_run (inRun 10) (c :: rest)
    cases body with
    | nil =>
      rw [List.nil_append] at hsplit
      rw [← hsplit] at htail
      simp [hrun] at htail
    | cons d body =>
      obtain ⟨rfl, hmore⟩ := List.cons.inj hsplit
      refine ⟨⟨.decimal, c :: body, hbody, fun _ => hc⟩, tail, hsplit, htail, ?_⟩
      intro _ hzero m hm hmem
      obtain ⟨rfl, rfl⟩ := List.cons.inj hzero
      cases tail with
      | nil => cases hm
      | cons e tail =>
        obtain rfl : e = m := by simpa using hm
        exact hmarked ⟨e, hmem, tail, by rw [hmore]; rfl⟩

/-- A text that is accepted begins with a literal. -/
theorem exists_literal {c : Char} {rest : List Char} {token : NumberToken} {width : ℕ}
    (hc : c.isDigit = true) (h : lexNumberOrDuration (c :: rest) = .ok (token, width)) :
    ∃ (lit : Literal) (after : List Char), c :: rest = lit.text ++ after ∧ lit.Stands after := by
  obtain ⟨n, tail, htext, hends⟩ := exists_numeral rest hc
  rw [htext, Literal.lexNumberOrDuration_numeral hends] at h
  cases hread : i64FromStrRadix n.radix.base n.parsed with
  | none =>
    rw [hread] at h
    cases h
  | some value =>
    rw [hread] at h
    obtain ⟨unit, after, rfl, hunit⟩ := Literal.exists_unit h
    refine ⟨⟨n, unit⟩, after, ?_, hends, hunit⟩
    rw [htext, Literal.text, List.append_assoc]
    rfl

/-- A text that begins with a digit and is accepted begins with a literal, and this literal is
read exactly unless it is hexadecimal with digits that look like the marker of a binary number,
or its milliseconds exceed the range. -/
theorem literals_exact_iff {c : Char} {rest : List Char} (hc : c.isDigit = true) :
    (∀ token width, lexNumberOrDuration (c :: rest) = .ok (token, width) →
      ∃ (lit : Literal) (after : List Char), c :: rest = lit.text ++ after ∧ lit.Stands after) ∧
    ∀ (lit : Literal) (after : List Char), c :: rest = lit.text ++ after → lit.Stands after →
      (lit.ReadExactly after ↔ ¬ lit.Misread ∧ ¬ lit.Saturated) :=
  ⟨fun _ _ h => exists_literal hc h, fun _ _ _ h => Literal.readExactly_iff_not h⟩

/-- The literal `500ms`. -/
def halfSecond : Literal :=
  ⟨⟨.decimal, ['5', '0', '0'], List.all_eq_true.mp rfl, fun _ => rfl⟩, some .ms⟩

theorem literals_exact_iff_halfSecond : halfSecond.ReadExactly [] := by
  have hdigit : '5'.isDigit = true := rfl
  have hstands : halfSecond.Stands [] := ⟨⟨by decide, nofun⟩, trivial⟩
  refine ((literals_exact_iff hdigit).2 halfSecond [] rfl hstands).mpr ⟨?_, ?_⟩
  · exact fun h => absurd h.looksBinary.1 (by decide)
  · exact fun h => absurd h.exceeds (by decide)

/-- The literal `0x0b1`. -/
def looksBinary : Literal :=
  ⟨⟨.hexadecimal false, ['0', 'b', '1'], List.all_eq_true.mp rfl, nofun⟩, none⟩

/-- The literal `0x7fffffffffffffffs`. -/
def saturating : Literal :=
  ⟨⟨.hexadecimal false, '7' :: List.replicate 15 'f', List.all_eq_true.mp rfl, nofun⟩, some .s⟩

/-- The number 177 is read as 1, and a duration out of range is accepted. -/
theorem literals_misread :
    lexNumberOrDuration looksBinary.text = .ok (.int 1, 5) ∧ looksBinary.value = 177 ∧
      lexNumberOrDuration saturating.text = .ok (.duration 9223372036854775807, 19) ∧
      saturating.value = 9223372036854775807000 ∧
      ¬ ∀ (lit : Literal) (after : List Char), lit.Stands after → lit.ReadExactly after := by
  refine ⟨by decide, by decide, by decide, by decide, fun h => ?_⟩
  have hread := h looksBinary [] ⟨⟨by decide, nofun⟩, ⟨nofun, nofun⟩⟩
  have hdenotes := (hread.accepted (.int 1) 5 (by decide)).2
  exact absurd hdenotes.2 (by decide)

end Adgl
