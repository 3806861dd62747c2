import Mathlib.Data.List.DropRight
import Mathlib.Order.Basic
import Mathlib.Algebra.GroupWithZero.Nat
import Mathlib.Algebra.Group.Int.Defs

/-!
# Text

Texts are lists of characters. A text can be trimmed, split at the first occurrence
of a character, and read as an integer. What a numeral contains says where it can
occur in a longer text.
-/

namespace Text

/-- The characters with the Unicode property `White_Space`. -/
def isWhitespace (c : Char) : Bool :=
  c = ' ' ∨ ('\t' ≤ c ∧ c ≤ '\r') ∨ c = '\u0085' ∨ c = '\u00a0' ∨ c = '\u1680' ∨
    ('\u2000' ≤ c ∧ c ≤ '\u200a') ∨ c = '\u2028' ∨ c = '\u2029' ∨ c = '\u202f' ∨
    c = '\u205f' ∨ c = '\u3000'

/-- Without the whitespace at both ends. -/
def trim (cs : List Char) : List Char := (cs.dropWhile isWhitespace).rdropWhile isWhitespace

/-- The text before the first occurrence of a character and the text after it. -/
def splitFirst (c : Char) : List Char → Option (List Char × List Char)
  | [] => none
  | first :: rest =>
      if first = c then some ([], rest)
      else (splitFirst c rest).map fun parts => (first :: parts.1, parts.2)

/-- The number of bytes of a text. -/
def byteLength (cs : List Char) : ℕ := (cs.map Char.utf8Size).sum

/-- A natural number in decimal digits. -/
def parseNat (cs : List Char) : Option ℕ :=
  if cs ≠ [] ∧ cs.all Char.isDigit then some (Nat.ofDigitChars 10 cs 0) else none

/-- A decimal integer of 64 bits with an optional sign. -/
def parseInt64 (cs : List Char) : Option ℤ :=
  let parsed : Option ℤ := match cs with
    | '+' :: digits => (parseNat digits).map Int.ofNat
    | '-' :: digits => (parseNat digits).map fun n : ℕ => -(n : ℤ)
    | digits => (parseNat digits).map Int.ofNat
  parsed.filter fun i => -2 ^ 63 ≤ i ∧ i < 2 ^ 63

/-- The decimal text of an integer. -/
def decimal : ℤ → List Char
  | .ofNat n => Nat.toDigits 10 n
  | .negSucc n => '-' :: Nat.toDigits 10 (n + 1)

variable {c d : Char} {cs as bs : List Char} {i : ℤ} {n : ℕ}

/-! ### Readers -/

theorem map_eq_ok {ε α β : Type} {f : α → β} {r : Except ε α} {b : β} (h : r.map f = .ok b) :
    ∃ a, r = .ok a ∧ f a = b := by
  cases r with
  | ok a => exact ⟨a, rfl, Except.ok.inj h⟩
  | error e => cases h

/-- A reader of characters of one kind stops at the first of another kind. -/
theorem takeWhile_stop {p : Char → Bool} (has : ∀ d ∈ as, p d = true)
    (hbs : ∀ d, bs.head? = some d → p d = false) : (as ++ bs).takeWhile p = as := by
  rw [List.takeWhile_append_of_pos has]
  cases bs with
  | nil => exact List.append_nil _
  | cons d rest =>
      rw [List.takeWhile_cons_of_neg (by rw [hbs d rfl]; exact Bool.false_ne_true),
        List.append_nil]

/-! ### Trimming -/

/-- Whitespace goes from the ends only: what is not whitespace stays. -/
theorem mem_trim (hc : isWhitespace c = false) : c ∈ trim cs ↔ c ∈ cs := by
  have hdrop : ∀ cs : List Char, c ∈ cs.dropWhile isWhitespace ↔ c ∈ cs := by
    intro cs
    refine ⟨fun h => (List.dropWhile_sublist _).subset h, fun h => ?_⟩
    rw [← List.takeWhile_append_dropWhile (p := isWhitespace) (l := cs)] at h
    obtain h | h := List.mem_append.mp h
    · rw [List.mem_takeWhile_imp h] at hc
      cases hc
    · exact h
  unfold trim List.rdropWhile
  rw [List.mem_reverse, hdrop, List.mem_reverse, hdrop]

/-- A text that begins and ends with something else than whitespace. -/
theorem trim_eq_self (hfirst : ∀ c, cs.head? = some c → isWhitespace c = false)
    (hlast : ∀ c, cs.getLast? = some c → isWhitespace c = false) : trim cs = cs := by
  have hdrop : cs.dropWhile isWhitespace = cs := by
    cases cs with
    | nil => rfl
    | cons c rest =>
        exact List.dropWhile_cons_of_neg (by rw [hfirst c rfl]; exact Bool.false_ne_true)
  unfold trim
  rw [hdrop, List.rdropWhile_eq_self_iff]
  intro hne
  rw [hlast _ (List.getLast?_eq_some_getLast hne)]
  exact Bool.false_ne_true

/-- Whitespace in front of a text that begins with something else. -/
theorem trim_cons (hc : isWhitespace c = true) : trim (c :: cs) = trim cs := by
  unfold trim
  rw [List.dropWhile_cons_of_pos hc]

theorem trim_append_singleton (hc : isWhitespace c = true) : trim (cs ++ [c]) = trim cs := by
  unfold trim
  rw [List.dropWhile_append]
  split
  · rename_i hempty
    rw [List.isEmpty_iff.mp hempty, List.dropWhile_cons_of_pos hc]
    rfl
  · rw [List.rdropWhile_concat_pos _ _ _ hc]

/-- What stands between characters that are not whitespace stays. -/
theorem mem_trim_between {a b : Char} (ha : a ∈ as) (hawhite : isWhitespace a = false)
    (hb : b ∈ bs) (hbwhite : isWhitespace b = false) : c ∈ trim (as ++ c :: bs) := by
  have hkept : ∀ (x : Char) (xs ys : List Char), x ∈ xs → isWhitespace x = false →
      (xs ++ ys).dropWhile isWhitespace = xs.dropWhile isWhitespace ++ ys := by
    intro x xs ys hx hwhite
    rw [List.dropWhile_append, if_neg]
    intro hempty
    have hall := List.dropWhile_eq_nil_iff.mp (List.isEmpty_iff.mp hempty) x hx
    rw [hwhite] at hall
    cases hall
  unfold trim List.rdropWhile
  rw [hkept a as _ ha hawhite, List.reverse_append, List.reverse_cons, List.append_assoc,
    hkept b bs.reverse _ (List.mem_reverse.mpr hb) hbwhite, List.mem_reverse]
  simp

/-! ### Splitting -/

theorem splitFirst_eq_some {as bs : List Char} (h : splitFirst c cs = some (as, bs)) :
    cs = as ++ c :: bs ∧ c ∉ as := by
  induction cs generalizing as bs with
  | nil => cases h
  | cons first rest ih =>
      unfold splitFirst at h
      split at h
      · rename_i hfirst
        cases h
        exact ⟨by rw [hfirst]; rfl, List.not_mem_nil⟩
      · rename_i hfirst
        obtain ⟨⟨as', bs'⟩, hrest, heq⟩ := Option.map_eq_some_iff.mp h
        cases heq
        obtain ⟨rfl, hnot⟩ := ih hrest
        refine ⟨rfl, fun hmem => ?_⟩
        obtain heq | hmem := List.mem_cons.mp hmem
        · exact hfirst heq.symm
        · exact hnot hmem

theorem splitFirst_eq_none (h : c ∉ cs) : splitFirst c cs = none := by
  induction cs with
  | nil => rfl
  | cons first rest ih =>
      have hne : first ≠ c := fun heq => h (List.mem_cons.mpr (.inl heq.symm))
      rw [splitFirst, if_neg hne, ih fun hmem => h (List.mem_cons_of_mem _ hmem)]
      rfl

theorem splitFirst_append_of_notMem (h : c ∉ as) :
    splitFirst c (as ++ bs) = (splitFirst c bs).map fun parts => (as ++ parts.1, parts.2) := by
  induction as with
  | nil =>
      rw [List.nil_append]
      cases splitFirst c bs <;> rfl
  | cons first rest ih =>
      have hne : first ≠ c := fun heq => h (List.mem_cons.mpr (.inl heq.symm))
      rw [List.cons_append, splitFirst, if_neg hne,
        ih fun hmem => h (List.mem_cons_of_mem _ hmem), Option.map_map]
      rfl

theorem splitFirst_append_of_mem (h : c ∈ as) (bs : List Char) :
    ∃ before after, as = before ++ c :: after ∧
      splitFirst c (as ++ bs) = some (before, after ++ bs) := by
  induction as with
  | nil => cases h
  | cons first rest ih =>
      rw [List.cons_append, splitFirst]
      split
      · rename_i hfirst
        exact ⟨[], rest, by rw [hfirst]; rfl, rfl⟩
      · rename_i hfirst
        obtain heq | hmem := List.mem_cons.mp h
        · exact absurd heq.symm hfirst
        · obtain ⟨before, after, hrest, hsplit⟩ := ih hmem
          exact ⟨first :: before, after, by rw [hrest]; rfl, by rw [hsplit]; rfl⟩

/-! ### Numerals -/

theorem parseNat_eq_some (h : parseNat cs = some n) :
    cs ≠ [] ∧ (∀ c ∈ cs, c.isDigit = true) ∧ Nat.ofDigitChars 10 cs 0 = n := by
  unfold parseNat at h
  split at h
  · rename_i hdigits
    exact ⟨hdigits.1, List.all_eq_true.mp hdigits.2, Option.some.inj h⟩
  · cases h

@[simp] theorem parseNat_toDigits (n : ℕ) : parseNat (Nat.toDigits 10 n) = some n := by
  have hdigits : ∀ c ∈ Nat.toDigits 10 n, c.isDigit = true :=
    fun c hc => Nat.isDigit_of_mem_toDigits (by decide) (by decide) hc
  unfold parseNat
  rw [if_pos ⟨Nat.toDigits_ne_nil, List.all_eq_true.mpr hdigits⟩, Nat.ofDigitChars_ten_toDigits]

/-- The characters of a numeral. -/
def IsNumeric (c : Char) : Prop := c.isDigit = true ∨ c = '+' ∨ c = '-'

theorem isNumeric_of_parseInt64 (h : parseInt64 cs = some i) : ∀ c ∈ cs, IsNumeric c := by
  have hdigits : ∀ {cs : List Char} {f : ℕ → ℤ} {i : ℤ}, (parseNat cs).map f = some i →
      ∀ c ∈ cs, IsNumeric c := by
    intro cs f i h c hc
    obtain ⟨n, hn, -⟩ := Option.map_eq_some_iff.mp h
    exact .inl ((parseNat_eq_some hn).2.1 c hc)
  unfold parseInt64 at h
  have hparsed := (Option.filter_eq_some_iff.mp h).1
  intro c hc
  split at hparsed
  · exact (List.mem_cons.mp hc).elim (fun heq => .inr (.inl heq)) (hdigits hparsed c)
  · exact (List.mem_cons.mp hc).elim (fun heq => .inr (.inr heq)) (hdigits hparsed c)
  · exact hdigits hparsed c hc

theorem parseInt64_minus (h : parseInt64 ('-' :: cs) = some i) :
    ∃ n : ℕ, parseNat cs = some n ∧ i = -n := by
  have hparsed := (Option.filter_eq_some_iff.mp h).1
  obtain ⟨n, hn, rfl⟩ := Option.map_eq_some_iff.mp hparsed
  exact ⟨n, hn, rfl⟩

/-- Reading a printed integer gives it back. -/
theorem parseInt64_decimal (hmin : -2 ^ 63 ≤ i) (hmax : i < 2 ^ 63) :
    parseInt64 (decimal i) = some i := by
  cases i with
  | ofNat n =>
      have hparse := parseNat_toDigits n
      obtain ⟨hne, hdigits, -⟩ := parseNat_eq_some hparse
      change parseInt64 (Nat.toDigits 10 n) = _
      unfold parseInt64
      split
      · rename_i rest heq
        rw [heq] at hdigits
        exact absurd (hdigits '+' (List.mem_cons_self ..)) (by decide)
      · rename_i rest heq
        rw [heq] at hdigits
        exact absurd (hdigits '-' (List.mem_cons_self ..)) (by decide)
      · rw [hparse]
        exact Option.filter_eq_some_iff.mpr ⟨rfl, decide_eq_true ⟨hmin, hmax⟩⟩
  | negSucc n =>
      change ((parseNat (Nat.toDigits 10 (n + 1))).map fun n : ℕ => -(n : ℤ)).filter _ = _
      rw [parseNat_toDigits]
      exact Option.filter_eq_some_iff.mpr ⟨rfl, decide_eq_true ⟨hmin, hmax⟩⟩

end Text
