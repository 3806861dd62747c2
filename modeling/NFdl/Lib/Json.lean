import Mathlib.Data.List.Forall2
import Mathlib.Data.List.TakeWhile
import NFdl.Lib.Text

/-!
# JSON

A decoder for JSON documents. It reads one value with whitespace around it, and
nothing else. A text stands for a value when the decoder reads that value from it in
front of anything that can follow a value; texts of arrays and objects are put
together from texts of their parts.
-/

/-- A JSON value. A number is a mantissa times a power of ten. -/
inductive Json where
  | null
  | bool (b : Bool)
  | number (mantissa exponent : ℤ)
  | string (s : List Char)
  | array (items : List Json)
  | object (members : List (List Char × Json))

namespace Json

/-! ### The decoder -/

def isSpace (c : Char) : Bool := c = ' ' ∨ c = '\t' ∨ c = '\n' ∨ c = '\r'

def skipSpace (cs : List Char) : List Char := cs.dropWhile isSpace

/-- The value of a hexadecimal digit. -/
def hexValue (c : Char) : Option ℕ :=
  if '0' ≤ c ∧ c ≤ '9' then some (c.toNat - '0'.toNat)
  else if 'a' ≤ c ∧ c ≤ 'f' then some (c.toNat - 'a'.toNat + 10)
  else if 'A' ≤ c ∧ c ≤ 'F' then some (c.toNat - 'A'.toNat + 10)
  else none

/-- The code unit that four hexadecimal digits stand for. -/
def codeUnit (a b c d : Char) : Option ℕ := do
  let a ← hexValue a
  let b ← hexValue b
  let c ← hexValue c
  let d ← hexValue d
  some (((a * 16 + b) * 16 + c) * 16 + d)

/-- The character after a backslash that one character stands for. -/
def simpleEscape : Char → Option Char
  | '"' => some '"'
  | '\\' => some '\\'
  | '/' => some '/'
  | 'b' => some '\u0008'
  | 'f' => some '\u000c'
  | 'n' => some '\n'
  | 'r' => some '\r'
  | 't' => some '\t'
  | _ => none

/-- A pair of surrogates as a character. -/
def joinSurrogates (high low : ℕ) : Option Char :=
  if 0xdc00 ≤ low ∧ low ≤ 0xdfff then
    some (Char.ofNat (0x10000 + (high - 0xd800) * 0x400 + (low - 0xdc00)))
  else none

/-- The rest of a string, up to the quotation mark that ends it. -/
def stringRest : List Char → Option (List Char × List Char)
  | '"' :: rest => some ([], rest)
  | '\\' :: 'u' :: a :: b :: c :: d :: rest =>
      match codeUnit a b c d with
      | none => none
      | some unit =>
          if 0xd800 ≤ unit ∧ unit ≤ 0xdbff then
            match rest with
            | '\\' :: 'u' :: e :: f :: g :: h :: rest =>
                match (codeUnit e f g h).bind (joinSurrogates unit) with
                | none => none
                | some char => (stringRest rest).map fun r => (char :: r.1, r.2)
            | _ => none
          else if 0xdc00 ≤ unit ∧ unit ≤ 0xdfff then none
          else (stringRest rest).map fun r => (Char.ofNat unit :: r.1, r.2)
  | '\\' :: c :: rest =>
      match simpleEscape c with
      | none => none
      | some char => (stringRest rest).map fun r => (char :: r.1, r.2)
  | c :: rest => if c < ' ' then none else (stringRest rest).map fun r => (c :: r.1, r.2)
  | [] => none

/-- Leading decimal digits, at least one. -/
def digits (cs : List Char) : Option (List Char × List Char) :=
  match cs.takeWhile Char.isDigit with
  | [] => none
  | ds => some (ds, cs.dropWhile Char.isDigit)

/-- The digits after a decimal point, if there is one. -/
def fraction : List Char → Option (List Char × List Char)
  | '.' :: rest => digits rest
  | rest => some ([], rest)

/-- The exponent, if there is one. -/
def exponent : List Char → Option (ℤ × List Char)
  | c :: rest =>
      if c = 'e' ∨ c = 'E' then
        match rest with
        | '-' :: rest => (digits rest).map fun r => (-(Nat.ofDigitChars 10 r.1 0 : ℤ), r.2)
        | '+' :: rest => (digits rest).map fun r => ((Nat.ofDigitChars 10 r.1 0 : ℤ), r.2)
        | rest => (digits rest).map fun r => ((Nat.ofDigitChars 10 r.1 0 : ℤ), r.2)
      else some (0, c :: rest)
  | [] => some (0, [])

/-- A number without its sign. Only the number zero begins with a zero. -/
def unsigned (sign : ℤ) (cs : List Char) : Option (Json × List Char) :=
  match digits cs with
  | none => none
  | some (int, rest) =>
      if int.head? = some '0' ∧ int ≠ ['0'] then none
      else
        match fraction rest with
        | none => none
        | some (frac, rest) => (exponent rest).map fun r =>
            (.number (sign * (Nat.ofDigitChars 10 (int ++ frac) 0 : ℤ)) (r.1 - frac.length), r.2)

def numberText : List Char → Option (Json × List Char)
  | '-' :: rest => unsigned (-1) rest
  | cs => unsigned 1 cs

/-- Elements with commas between them, at least one, and the character that ends them. -/
def listed {α : Type} (element : List Char → Option (α × List Char)) (close : Char) :
    ℕ → List Char → Option (List α × List Char)
  | 0, _ => none
  | bound + 1, cs =>
      match element cs with
      | none => none
      | some (a, rest) =>
          match skipSpace rest with
          | [] => none
          | c :: rest =>
              if c = ',' then (listed element close bound rest).map fun r => (a :: r.1, r.2)
              else if c = close then some ([a], rest) else none

/-- The elements of an array or an object after the bracket that opens it. -/
def enclosed {α : Type} (element : List Char → Option (α × List Char)) (close : Char)
    (cs : List Char) : Option (List α × List Char) :=
  match skipSpace cs with
  | [] => none
  | c :: rest => if c = close then some ([], rest) else listed element close cs.length cs

/-- A member of an object: a string, a colon and a value. -/
def member (value : List Char → Option (Json × List Char)) (cs : List Char) :
    Option ((List Char × Json) × List Char) :=
  match skipSpace cs with
  | '"' :: rest =>
      match stringRest rest with
      | none => none
      | some (key, rest) =>
          match skipSpace rest with
          | ':' :: rest => (value rest).map fun r => ((key, r.1), r.2)
          | _ => none
  | _ => none

/-- A value, with whitespace in front of it. Values nest at most as deep as the bound. -/
def value : ℕ → List Char → Option (Json × List Char)
  | 0, _ => none
  | bound + 1, cs =>
      match skipSpace cs with
      | 'n' :: 'u' :: 'l' :: 'l' :: rest => some (.null, rest)
      | 't' :: 'r' :: 'u' :: 'e' :: rest => some (.bool true, rest)
      | 'f' :: 'a' :: 'l' :: 's' :: 'e' :: rest => some (.bool false, rest)
      | '"' :: rest => (stringRest rest).map fun r => (.string r.1, r.2)
      | '[' :: rest => (enclosed (value bound) ']' rest).map fun r => (.array r.1, r.2)
      | '{' :: rest => (enclosed (member (value bound)) '}' rest).map fun r => (.object r.1, r.2)
      | rest => numberText rest

theorem value_string (bound : ℕ) (cs : List Char) :
    value (bound + 1) ('"' :: cs) = (stringRest cs).map fun r => (.string r.1, r.2) := rfl

theorem value_array (bound : ℕ) (cs : List Char) :
    value (bound + 1) ('[' :: cs) =
      (enclosed (value bound) ']' cs).map fun r => (.array r.1, r.2) := rfl

theorem value_object (bound : ℕ) (cs : List Char) :
    value (bound + 1) ('{' :: cs) =
      (enclosed (member (value bound)) '}' cs).map fun r => (.object r.1, r.2) := rfl

/-- The value of a document: one value and nothing after it. -/
def decode (cs : List Char) : Option Json :=
  match value cs.length cs with
  | some (v, rest) => if skipSpace rest = [] then some v else none
  | none => none

/-! ### Parts of values -/

/-- The value of the first member with a key. -/
def get? (key : List Char) : Json → Option Json
  | .object members => (members.find? (·.1 == key)).map Prod.snd
  | _ => none

def string? : Json → Option (List Char)
  | .string s => some s
  | _ => none

def array? : Json → Option (List Json)
  | .array items => some items
  | _ => none

/-- The element of an array of one element. -/
def only? : Json → Option Json
  | .array [v] => some v
  | _ => none

/-- A natural number that is written without a fraction or an exponent. -/
def nat? : Json → Option ℕ
  | .number (.ofNat n) 0 => some n
  | _ => none

/-- The values of members of members. -/
def path? (j : Json) (keys : List String) : Option Json :=
  keys.foldlM (fun v key => v.get? key.toList) j

/-- The value of an object with the given keys. -/
def objectOf (members : List (String × Json)) : Json :=
  .object (members.map fun m => (m.1.toList, m.2))

/-- The members of an object of strings. -/
def strings? : Json → Option (List (List Char × List Char))
  | .object members => members.mapM fun m => m.2.string?.map (m.1, ·)
  | _ => none

@[simp] theorem string?_string (s : List Char) : (string s).string? = some s := rfl

@[simp] theorem array?_array (items : List Json) : (array items).array? = some items := rfl

@[simp] theorem only?_array (v : Json) : (array [v]).only? = some v := rfl

@[simp] theorem nat?_number (n : ℕ) : (number n 0).nat? = some n := rfl

section Paths

variable {key k : String} {v : Json} {keys : List String} {members : List (String × Json)}

@[simp] theorem path?_nil (v : Json) : v.path? [] = some v := rfl

@[simp] theorem path?_objectOf_nil : (objectOf []).path? (key :: keys) = none := rfl

@[simp] theorem path?_objectOf_cons : (objectOf ((k, v) :: members)).path? (key :: keys) =
    if k = key then v.path? keys else (objectOf members).path? (key :: keys) := by
  change ((List.find? _ ((k.toList, v) :: _)).map Prod.snd).bind _ = _
  by_cases hk : k = key
  · rw [if_pos hk, List.find?_cons_of_pos (by simp [hk])]
    rfl
  · rw [if_neg hk, List.find?_cons_of_neg (by simp [String.toList_inj, hk])]
    rfl

end Paths

theorem mapM_map_eq_some {α β γ : Type} {read : β → Option γ} {write : α → β} {g : α → γ}
    {l : List α} (h : ∀ a ∈ l, read (write a) = some (g a)) :
    (l.map write).mapM read = some (l.map g) := by
  induction l with
  | nil => rfl
  | cons a l ih =>
      rw [List.map_cons, List.mapM_cons, h a (List.mem_cons_self ..),
        ih fun b hb => h b (List.mem_cons_of_mem _ hb)]
      rfl

/-! ### Texts of values -/

/-- Texts with commas between them. -/
def separated : List (List Char) → List Char
  | [] => []
  | first :: rest => first ++ rest.flatMap (',' :: ·)

/-- What can follow a value. -/
def Ends (rest : List Char) : Prop := ∀ c, rest.head? = some c → c = ',' ∨ c = ']' ∨ c = '}'

/-- A text from which something is read in front of anything that can follow. It begins
with a character that neither is whitespace nor closes an array or an object. -/
structure ReadsAs {α : Type} (element : ℕ → List Char → Option (α × List Char))
    (text : List Char) (a : α) : Prop where
  begins : ∃ c cs, text = c :: cs ∧ isSpace c = false ∧ c ≠ ']' ∧ c ≠ '}'
  reads : ∀ bound rest, text.length ≤ bound → Ends rest →
    element bound (text ++ rest) = some (a, rest)

/-- A text of a value. -/
abbrev Reads (text : List Char) (v : Json) : Prop := ReadsAs value text v

/-- A text of a member of an object. -/
abbrev ReadsMember (text : List Char) (m : List Char × Json) : Prop :=
  ReadsAs (fun bound => member (value bound)) text m

/-- A text between quotation marks that stands for a string. -/
def Spells (text s : List Char) : Prop :=
  ∀ rest, stringRest (text ++ '"' :: rest) = some (s, rest)

variable {α : Type} {element : ℕ → List Char → Option (α × List Char)}
variable {text : List Char} {a : α} {v : Json} {c : Char} {rest : List Char}

theorem skipSpace_cons (h : isSpace c = false) : skipSpace (c :: rest) = c :: rest :=
  List.dropWhile_cons_of_neg (by rw [h]; exact Bool.false_ne_true)

theorem ends_cons : Ends (c :: rest) ↔ c = ',' ∨ c = ']' ∨ c = '}' := by
  constructor
  · intro h
    exact h c rfl
  · rintro h _ ⟨⟩
    exact h

theorem ReadsAs.length_pos (h : ReadsAs element text a) : 0 < text.length := by
  obtain ⟨c, cs, rfl, -⟩ := h.begins
  exact Nat.succ_pos _

theorem ReadsAs.congr (h : ReadsAs element text a) {text' : List Char} {a' : α}
    (htext : text' = text) (ha : a' = a) : ReadsAs element text' a' := by
  rw [htext, ha]
  exact h

/-! ### Strings -/

theorem spells_nil : Spells [] [] := fun _ => rfl

/-- A character that stands for itself. -/
theorem spells_cons {s : List Char} (h : Spells text s) (hquote : c ≠ '"') (hslash : c ≠ '\\')
    (hc : ¬ c < ' ') : Spells (c :: text) (c :: s) := by
  intro rest
  rw [List.cons_append, stringRest.eq_def]
  split
  · rename_i heq
    exact absurd (List.cons.inj heq).1 hquote
  · rename_i heq
    exact absurd (List.cons.inj heq).1 hslash
  · rename_i heq
    exact absurd (List.cons.inj heq).1 hslash
  · rename_i heq
    obtain ⟨rfl, rfl⟩ := List.cons.inj heq
    rw [if_neg hc, h rest]
    rfl
  · rename_i heq
    cases heq

/-- That a character stands for itself in a string. -/
def isPlain (c : Char) : Bool := c ≠ '"' ∧ c ≠ '\\' ∧ ¬ c < ' '

theorem spells_plain {s : List Char} (h : s.all isPlain = true) : Spells s s := by
  induction s with
  | nil => exact spells_nil
  | cons c s ih =>
      rw [List.all_cons, Bool.and_eq_true] at h
      obtain ⟨hquote, hslash, hc⟩ := of_decide_eq_true h.1
      exact spells_cons (ih h.2) hquote hslash hc

/-- A character after a backslash. -/
theorem spells_escape {s : List Char} (h : Spells text s) {d : Char} (hu : c ≠ 'u')
    (hc : simpleEscape c = some d) : Spells ('\\' :: c :: text) (d :: s) := by
  intro rest
  rw [List.cons_append, List.cons_append, stringRest.eq_def]
  split
  · rename_i heq
    exact absurd (List.cons.inj heq).1 (by decide)
  · rename_i heq
    exact absurd (List.cons.inj (List.cons.inj heq).2).1 hu
  · rename_i heq
    obtain ⟨rfl, rfl⟩ := List.cons.inj (List.cons.inj heq).2
    rw [hc]
    change (stringRest (text ++ '"' :: rest)).map _ = _
    rw [h rest]
    rfl
  · rename_i hne heq
    obtain ⟨rfl, rfl⟩ := List.cons.inj heq
    exact (hne _ _ rfl rfl).elim
  · rename_i heq
    cases heq

/-- A code unit that is no surrogate. -/
theorem spells_unicode {s : List Char} (h : Spells text s) {a b c d : Char} {unit : ℕ}
    (hunit : codeUnit a b c d = some unit) (hlow : unit < 0xd800) :
    Spells ('\\' :: 'u' :: a :: b :: c :: d :: text) (Char.ofNat unit :: s) := by
  intro rest
  simp only [List.cons_append]
  rw [stringRest, hunit]
  have hhigh : ¬ (0xd800 ≤ unit ∧ unit ≤ 0xdbff) := by omega
  have hlast : ¬ (0xdc00 ≤ unit ∧ unit ≤ 0xdfff) := by omega
  change (if _ then _ else _) = _
  rw [if_neg hhigh, if_neg hlast, h rest]
  rfl

theorem reads_string {s : List Char} (h : Spells text s) :
    Reads ('"' :: text ++ ['"']) (.string s) := by
  refine ⟨⟨'"', _, rfl, by decide, by decide, by decide⟩, ?_⟩
  intro bound rest hbound _
  cases bound with
  | zero => cases hbound
  | succ bound =>
      have htext : '"' :: text ++ ['"'] ++ rest = '"' :: (text ++ '"' :: rest) := by simp
      rw [htext, value_string, h rest]
      rfl

/-! ### Numbers -/

theorem digits_toDigits (n : ℕ) (hrest : ∀ c, rest.head? = some c → c.isDigit = false) :
    digits (Nat.toDigits 10 n ++ rest) = some (Nat.toDigits 10 n, rest) := by
  have hall : ∀ c ∈ Nat.toDigits 10 n, c.isDigit = true :=
    fun c hc => Nat.isDigit_of_mem_toDigits (by decide) (by decide) hc
  have htake : rest.takeWhile Char.isDigit = [] ∧ rest.dropWhile Char.isDigit = rest := by
    cases rest with
    | nil => exact ⟨rfl, rfl⟩
    | cons c rest =>
        have hc : ¬ c.isDigit = true := by rw [hrest c rfl]; exact Bool.false_ne_true
        exact ⟨List.takeWhile_cons_of_neg hc, List.dropWhile_cons_of_neg hc⟩
  unfold digits
  rw [List.takeWhile_append_of_pos hall, List.dropWhile_append_of_pos hall, htake.1, htake.2,
    List.append_nil]
  cases hdigits : Nat.toDigits 10 n with
  | nil => exact absurd hdigits Nat.toDigits_ne_nil
  | cons d ds => rfl

/-- Only the numeral of zero begins with a zero. -/
theorem toDigits_head {n : ℕ} (h : (Nat.toDigits 10 n).head? = some '0') :
    Nat.toDigits 10 n = ['0'] := by
  induction n using Nat.strongRecOn with
  | ind n ih =>
      by_cases hn : n < 10
      · rw [Nat.toDigits_of_lt_base hn] at h ⊢
        rw [Option.some.inj h]
      · rw [Nat.toDigits_of_base_le (by decide) (Nat.not_lt.mp hn)] at h
        have hhead : (Nat.toDigits 10 (n / 10)).head? = some '0' := by
          cases hdigits : Nat.toDigits 10 (n / 10) with
          | nil => exact absurd hdigits Nat.toDigits_ne_nil
          | cons d ds =>
              rw [hdigits] at h
              exact h
        have hzero : n / 10 = 0 := by
          rw [← Nat.ofDigitChars_ten_toDigits (n := n / 10), ih (n / 10) (by omega) hhead]
          rfl
        omega

theorem fraction_none {rest : List Char} (h : ∀ c, rest.head? = some c → c ≠ '.') :
    fraction rest = some ([], rest) := by
  unfold fraction
  split
  · exact absurd rfl (h _ rfl)
  · rfl

theorem exponent_none {rest : List Char}
    (h : ∀ c, rest.head? = some c → c ≠ 'e' ∧ c ≠ 'E') : exponent rest = some (0, rest) := by
  cases rest with
  | nil => rfl
  | cons c rest =>
      unfold exponent
      exact if_neg (not_or.mpr (h c rfl))

theorem unsigned_toDigits (n : ℕ) {rest : List Char} (hdigit : ∀ c, rest.head? = some c →
    c.isDigit = false) (hdot : ∀ c, rest.head? = some c → c ≠ '.')
    (hexponent : ∀ c, rest.head? = some c → c ≠ 'e' ∧ c ≠ 'E') :
    unsigned 1 (Nat.toDigits 10 n ++ rest) = some (.number n 0, rest) := by
  have hlead : ¬ ((Nat.toDigits 10 n).head? = some '0' ∧ Nat.toDigits 10 n ≠ ['0']) :=
    fun h => h.2 (toDigits_head h.1)
  unfold unsigned
  rw [digits_toDigits n hdigit]
  dsimp only
  rw [if_neg hlead, fraction_none hdot]
  dsimp only
  rw [exponent_none hexponent, List.append_nil, Nat.ofDigitChars_ten_toDigits]
  simp

section Digit

variable {d : Char} (hd : d.isDigit = true)
include hd

theorem ne_of_isDigit {c : Char} (hc : c.isDigit = false) : d ≠ c := by
  rintro rfl
  rw [hc] at hd
  cases hd

theorem not_isSpace_of_isDigit : isSpace d = false := by
  unfold isSpace
  simp only [decide_eq_false_iff_not, not_or]
  exact ⟨ne_of_isDigit hd (by decide), ne_of_isDigit hd (by decide), ne_of_isDigit hd (by decide),
    ne_of_isDigit hd (by decide)⟩

theorem numberText_digit (ts : List Char) : numberText (d :: ts) = unsigned 1 (d :: ts) := by
  unfold numberText
  split
  · rename_i heq
    exact absurd (List.cons.inj heq).1 (ne_of_isDigit hd (by decide))
  · rfl

/-- A value that begins with a digit is a number. -/
theorem value_digit (bound : ℕ) (ts : List Char) :
    value (bound + 1) (d :: ts) = unsigned 1 (d :: ts) := by
  rw [value, skipSpace_cons (not_isSpace_of_isDigit hd)]
  split
  case h_7 => exact numberText_digit hd ts
  all_goals
    rename_i heq
    exact absurd (List.cons.inj heq).1 (ne_of_isDigit hd (by decide))

end Digit

/-- A natural number in decimal digits. -/
theorem reads_nat (n : ℕ) : Reads (Nat.toDigits 10 n) (.number n 0) := by
  obtain ⟨d, ds, hdigits⟩ : ∃ d ds, Nat.toDigits 10 n = d :: ds := by
    cases hdigits : Nat.toDigits 10 n with
    | nil => exact absurd hdigits Nat.toDigits_ne_nil
    | cons d ds => exact ⟨d, ds, rfl⟩
  have hd : d.isDigit = true :=
    Nat.isDigit_of_mem_toDigits (by decide) (by decide) (hdigits ▸ List.mem_cons_self ..)
  refine ⟨⟨d, ds, hdigits, not_isSpace_of_isDigit hd, ne_of_isDigit hd (by decide),
    ne_of_isDigit hd (by decide)⟩, ?_⟩
  intro bound rest hbound hrest
  have hends : ∀ c, rest.head? = some c →
      c.isDigit = false ∧ c ≠ '.' ∧ c ≠ 'e' ∧ c ≠ 'E' := by
    intro c hc
    obtain rfl | rfl | rfl := hrest c hc <;> decide
  have hread := unsigned_toDigits n (fun c hc => (hends c hc).1) (fun c hc => (hends c hc).2.1)
    fun c hc => (hends c hc).2.2
  rw [hdigits] at hbound hread ⊢
  cases bound with
  | zero => cases hbound
  | succ bound => exact (value_digit hd bound (ds ++ rest)).trans hread

/-! ### Arrays and objects -/

theorem listed_separated {close : Char} (hclose : close = ']' ∨ close = '}') {bound : ℕ}
    {texts : List (List Char)} {items : List α} (hall : List.Forall₂ (ReadsAs element) texts items)
    (hne : texts ≠ []) (hbound : ∀ t ∈ texts, t.length ≤ bound) {fuel : ℕ}
    (hfuel : texts.length ≤ fuel) :
    listed (element bound) close fuel (separated texts ++ close :: rest) = some (items, rest) := by
  have hcloseSpace : isSpace close = false := by obtain rfl | rfl := hclose <;> decide
  have hcomma : close ≠ ',' := by obtain rfl | rfl := hclose <;> decide
  induction hall generalizing fuel with
  | nil => exact absurd rfl hne
  | cons hfirst hrest ih =>
      rename_i text a texts items
      obtain ⟨fuel, rfl⟩ : ∃ k, fuel = k + 1 := by
        cases fuel with
        | zero => cases hfuel
        | succ fuel => exact ⟨fuel, rfl⟩
      have hfits := hbound text (List.mem_cons_self ..)
      cases hrest with
      | nil =>
          have htext : separated [text] ++ close :: rest = text ++ close :: rest := by
            simp [separated]
          rw [htext, listed, hfirst.reads bound (close :: rest) hfits
            (ends_cons.mpr (.inr hclose))]
          dsimp only
          rw [skipSpace_cons hcloseSpace]
          dsimp only
          rw [if_neg hcomma, if_pos rfl]
      | cons hsecond hrest =>
          rename_i text' a' texts items
          have htext : separated (text :: text' :: texts) ++ close :: rest =
              text ++ ',' :: (separated (text' :: texts) ++ close :: rest) := by
            simp [separated]
          have htail := ih (List.cons_ne_nil _ _)
            (fun t ht => hbound t (List.mem_cons_of_mem _ ht)) (Nat.le_of_succ_le_succ hfuel)
          rw [htext, listed, hfirst.reads bound _ hfits (ends_cons.mpr (.inl rfl))]
          dsimp only
          rw [skipSpace_cons (by decide)]
          dsimp only
          rw [if_pos rfl, htail]
          rfl

theorem length_le_separated {texts : List (List Char)} {t : List Char} (h : t ∈ texts) :
    t.length ≤ (separated texts).length := by
  cases texts with
  | nil => cases h
  | cons first rest =>
      rw [separated, List.length_append]
      obtain rfl | h := List.mem_cons.mp h
      · exact Nat.le_add_right _ _
      · have hle := List.Sublist.length_le
          (List.sublist_flatten_of_mem (List.mem_map_of_mem (f := (',' :: ·)) h))
        rw [List.length_cons] at hle
        rw [List.flatMap]
        omega

theorem count_le_separated {texts : List (List Char)} (h : ∀ t ∈ texts, 0 < t.length) :
    texts.length ≤ (separated texts).length := by
  cases texts with
  | nil => exact Nat.le_refl _
  | cons first rest =>
      have hfirst := h first (List.mem_cons_self ..)
      have hrest : rest.length ≤ (rest.flatMap (',' :: ·)).length := by
        induction rest with
        | nil => exact Nat.le_refl _
        | cons t rest ih =>
            have htail := ih fun u hu => h u (by
              obtain rfl | hu := List.mem_cons.mp hu
              · exact List.mem_cons_self ..
              · exact List.mem_cons_of_mem _ (List.mem_cons_of_mem _ hu))
            rw [List.flatMap_cons, List.length_append, List.length_cons, List.length_cons]
            omega
      rw [separated, List.length_append, List.length_cons]
      omega

theorem lengths_pos {texts : List (List Char)} {items : List α}
    (hall : List.Forall₂ (ReadsAs element) texts items) : ∀ t ∈ texts, 0 < t.length := by
  induction hall with
  | nil => exact fun t ht => absurd ht List.not_mem_nil
  | cons hfirst hrest ih =>
      intro t ht
      obtain rfl | ht := List.mem_cons.mp ht
      · exact hfirst.length_pos
      · exact ih t ht

theorem enclosed_separated {close : Char} (hclose : close = ']' ∨ close = '}') {bound : ℕ}
    {texts : List (List Char)} {items : List α} (hall : List.Forall₂ (ReadsAs element) texts items)
    (hbound : ∀ t ∈ texts, t.length ≤ bound) :
    enclosed (element bound) close (separated texts ++ close :: rest) = some (items, rest) := by
  cases hall with
  | nil =>
      have hcloseSpace : isSpace close = false := by obtain rfl | rfl := hclose <;> decide
      rw [separated, List.nil_append, enclosed, skipSpace_cons hcloseSpace]
      dsimp only
      rw [if_pos rfl]
  | cons hfirst hrest =>
      rename_i text a texts items
      have hall := List.Forall₂.cons hfirst hrest
      have hcount := count_le_separated (lengths_pos hall)
      obtain ⟨c, cs, rfl, hspace, hsquare, hcurly⟩ := hfirst.begins
      have hc : c ≠ close := by obtain rfl | rfl := hclose <;> assumption
      have hfuel : ((c :: cs) :: texts).length ≤
          (separated ((c :: cs) :: texts) ++ close :: rest).length := by
        rw [List.length_append]
        omega
      have hlisted : listed (element bound) close _ (separated ((c :: cs) :: texts) ++ close :: rest) =
          some (a :: items, rest) :=
        listed_separated hclose hall (List.cons_ne_nil _ _) hbound hfuel
      unfold enclosed
      rw [show separated ((c :: cs) :: texts) ++ close :: rest =
        c :: (cs ++ texts.flatMap (',' :: ·) ++ close :: rest) by simp [separated]] at hlisted ⊢
      rw [skipSpace_cons hspace]
      dsimp only
      rw [if_neg hc]
      exact hlisted

theorem reads_array {texts : List (List Char)} {items : List Json}
    (hall : List.Forall₂ Reads texts items) :
    Reads ('[' :: separated texts ++ [']']) (.array items) := by
  refine ⟨⟨'[', _, rfl, by decide, by decide, by decide⟩, ?_⟩
  intro bound rest hbound _
  cases bound with
  | zero => cases hbound
  | succ bound =>
      have htext : '[' :: separated texts ++ [']'] ++ rest =
          '[' :: (separated texts ++ ']' :: rest) := by simp
      have hfits : ∀ t ∈ texts, t.length ≤ bound := by
        intro t ht
        have hle := length_le_separated ht
        rw [List.length_append, List.length_cons] at hbound
        omega
      rw [htext, value_array, enclosed_separated (.inl rfl) hall hfits]
      rfl

theorem reads_member {ktext key : List Char} (hkey : Spells ktext key) (hv : Reads text v) :
    ReadsMember ('"' :: ktext ++ '"' :: ':' :: text) (key, v) := by
  refine ⟨⟨'"', _, rfl, by decide, by decide, by decide⟩, ?_⟩
  intro bound rest hbound hrest
  have htext : '"' :: ktext ++ '"' :: ':' :: text ++ rest =
      '"' :: (ktext ++ '"' :: ':' :: (text ++ rest)) := by simp
  have hfits : text.length ≤ bound := by
    rw [List.length_append, List.length_cons, List.length_cons, List.length_cons] at hbound
    omega
  have hkeyed : ∀ rest, member (value bound) ('"' :: (ktext ++ '"' :: ':' :: rest)) =
      (value bound rest).map fun r => ((key, r.1), r.2) := by
    intro rest
    unfold member
    rw [skipSpace_cons (by decide)]
    change (match stringRest (ktext ++ '"' :: ':' :: rest) with
      | none => none
      | some (key, rest) => match skipSpace rest with
        | ':' :: rest => (value bound rest).map fun r : Json × List Char => ((key, r.1), r.2)
        | _ => none) = _
    rw [hkey]
    rfl
  rw [htext, hkeyed, hv.reads bound rest hfits hrest]
  rfl

theorem reads_object {texts : List (List Char)} {members : List (List Char × Json)}
    (hall : List.Forall₂ ReadsMember texts members) :
    Reads ('{' :: separated texts ++ ['}']) (.object members) := by
  refine ⟨⟨'{', _, rfl, by decide, by decide, by decide⟩, ?_⟩
  intro bound rest hbound _
  cases bound with
  | zero => cases hbound
  | succ bound =>
      have htext : '{' :: separated texts ++ ['}'] ++ rest =
          '{' :: (separated texts ++ '}' :: rest) := by simp
      have hfits : ∀ t ∈ texts, t.length ≤ bound := by
        intro t ht
        have hle := length_le_separated ht
        rw [List.length_append, List.length_cons] at hbound
        omega
      have henclosed : enclosed ((fun bound => member (value bound)) bound) '}'
          (separated texts ++ '}' :: rest) = some (members, rest) :=
        enclosed_separated (.inr rfl) hall hfits
      rw [htext, value_object, henclosed]
      rfl

/-- A member under a key that needs no escapes. -/
def fieldText (key : String) (text : List Char) : List Char :=
  '"' :: key.toList ++ '"' :: ':' :: text

def objectText (fields : List (String × List Char)) : List Char :=
  '{' :: separated (fields.map fun f => fieldText f.1 f.2) ++ ['}']

def arrayText (items : List (List Char)) : List Char := '[' :: separated items ++ [']']

/-- A field is written under a key that needs no escapes. -/
structure ReadsField (f : String × List Char) (g : String × Json) : Prop where
  key : f.1 = g.1
  plain : g.1.toList.all isPlain = true
  value : Reads f.2 g.2

theorem reads_objectText {texts : List (String × List Char)} {values : List (String × Json)}
    (hall : List.Forall₂ ReadsField texts values) :
    Reads (objectText texts) (objectOf values) := by
  refine reads_object ?_
  rw [List.forall₂_map_left_iff, List.forall₂_map_right_iff]
  refine hall.imp fun f g h => ?_
  rw [h.key]
  exact reads_member (spells_plain h.plain) h.value

theorem readsField_cons (key : String) (hkey : key.toList.all isPlain = true)
    {text : List Char} {v : Json} (hv : Reads text v) {texts : List (String × List Char)}
    {values : List (String × Json)} (hall : List.Forall₂ ReadsField texts values) :
    List.Forall₂ ReadsField ((key, text) :: texts) ((key, v) :: values) :=
  .cons ⟨rfl, hkey, hv⟩ hall

/-- An object with one field. -/
theorem reads_field (key : String) (hkey : key.toList.all isPlain = true) {text : List Char}
    {v : Json} (hv : Reads text v) : Reads (objectText [(key, text)]) (objectOf [(key, v)]) :=
  reads_objectText (readsField_cons key hkey hv .nil)

/-! ### Documents -/

/-- The text of a value is a document of that value. -/
theorem decode_of_reads (h : Reads text v) : decode text = some v := by
  have hread := h.reads text.length [] (Nat.le_refl _) (fun _ h => by cases h)
  rw [List.append_nil] at hread
  unfold decode
  rw [hread]
  rfl

end Json
