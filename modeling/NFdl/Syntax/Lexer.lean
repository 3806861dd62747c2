import Mathlib.Data.Nat.Notation
import Mathlib.Data.List.TakeWhile
import Mathlib.Algebra.Group.Nat.Defs

/-!
# The N-FDL lexer

The source is a list of characters. Comments and whitespace stand between the tokens. The
end of the input is the end of the list of tokens.
-/

namespace NFdl

inductive Token where
  | protocol | message | meta_ | endian | mode | big | datagram | validate | bind | to | when
  | ident (name : String)
  | int (v : Int64)
  | string (s : String)
  | lBrace | rBrace | lBracket | rBracket | lParen | rParen
  | colon | semicolon | eq | ne | dot | minus | plus | star | slash
  | gt | lt | ge | le | and | or | arrow | question | coalesce
  | bitAnd | bitOr | bitXor | shl | shr | mod | bang | tilde | comma
  | eof
  | error (message : String)
deriving DecidableEq, Repr

namespace Lexer

/-! ### Whitespace and comments -/

/-- Where the scan is, with the text of the comment that it is in. -/
inductive Scan where
  | blank
  | line (text : List Char)
  | block (text : List Char)

/-- The comments in front of the next token, and the text from that token on. A block
comment that is not closed ends with the source. -/
def skipWhitespaceAndComments : Scan → List Char → List (List Char) × List Char
  | .blank, '/' :: '/' :: rest => skipWhitespaceAndComments (.line ['/', '/']) rest
  | .blank, '/' :: '*' :: rest => skipWhitespaceAndComments (.block ['/', '*']) rest
  | .blank, c :: rest =>
      if c = ' ' ∨ c = '\t' ∨ c = '\n' ∨ c = '\r' then skipWhitespaceAndComments .blank rest
      else ([], c :: rest)
  | .blank, [] => ([], [])
  | .line text, c :: rest =>
      if c = '\n' then
        let r := skipWhitespaceAndComments .blank rest
        (text :: r.1, r.2)
      else skipWhitespaceAndComments (.line (text ++ [c])) rest
  | .line text, [] => ([text], [])
  | .block text, '*' :: '/' :: rest =>
      let r := skipWhitespaceAndComments .blank rest
      ((text ++ ['*', '/']) :: r.1, r.2)
  | .block text, c :: rest => skipWhitespaceAndComments (.block (text ++ [c])) rest
  | .block text, [] => ([text], [])

/-! ### Tokens -/

def isIdentStart (c : Char) : Bool := c.isAlpha || c = '_'

def isIdentPart (c : Char) : Bool := c.isAlphanum || c = '_'

/-- The token of a word. -/
def word (s : List Char) : Token :=
  match String.ofList s with
  | "protocol" => .protocol
  | "message" => .message
  | "meta" => .meta_
  | "endian" => .endian
  | "mode" => .mode
  | "big" => .big
  | "datagram" => .datagram
  | "validate" => .validate
  | "bind" => .bind
  | "to" => .to
  | "when" => .when
  | name => .ident name

/-- The value of a digit. -/
def toDigit (radix : ℕ) (c : Char) : Option ℕ :=
  let d :=
    if c.isDigit then c.toNat - '0'.toNat
    else if 'a' ≤ c ∧ c ≤ 'z' then c.toNat - 'a'.toNat + 10
    else if 'A' ≤ c ∧ c ≤ 'Z' then c.toNat - 'A'.toNat + 10
    else radix
  if d < radix then some d else none

/-- The value of digits, when there are any and it fits. -/
def i64FromStrRadix (radix : ℕ) (digits : List Char) : Option Int64 :=
  let value := digits.foldl (fun v c => radix * v + (toDigit radix c).getD 0) 0
  if digits ≠ [] ∧ value < 2 ^ 63 then some (.ofNat value) else none

/-- The digits of a number in a radix, with underscores between them, after some digits. -/
def digits (radix : ℕ) (start rest : List Char) : Token × List Char :=
  let more := rest.takeWhile fun c => (toDigit radix c).isSome || c = '_'
  (match i64FromStrRadix radix ((start ++ more).filter (· ≠ '_')) with
    | some v => .int v
    | none => .error "bad int", rest.drop more.length)

/-- A number that begins with a digit. -/
def number (c : Char) (rest : List Char) : Token × List Char :=
  match c, rest with
  | '0', 'x' :: rest => digits 16 [] rest
  | '0', 'X' :: rest => digits 16 [] rest
  | '0', 'o' :: rest => digits 8 [] rest
  | '0', 'O' :: rest => digits 8 [] rest
  | '0', 'b' :: rest => digits 2 [] rest
  | '0', 'B' :: rest => digits 2 [] rest
  | c, rest => digits 10 [c] rest

/-- The token of one or two characters that are neither letters, digits nor quotes. -/
def punctuation (c : Char) (rest : List Char) : Token × List Char :=
  match c, rest with
  | '{', rest => (.lBrace, rest)
  | '}', rest => (.rBrace, rest)
  | '[', rest => (.lBracket, rest)
  | ']', rest => (.rBracket, rest)
  | ':', rest => (.colon, rest)
  | ';', rest => (.semicolon, rest)
  | '=', rest => (.eq, rest)
  | '.', rest => (.dot, rest)
  | '-', '>' :: rest => (.arrow, rest)
  | '-', rest => (.minus, rest)
  | '>', '=' :: rest => (.ge, rest)
  | '>', '>' :: rest => (.shr, rest)
  | '>', rest => (.gt, rest)
  | '<', '=' :: rest => (.le, rest)
  | '<', '<' :: rest => (.shl, rest)
  | '<', rest => (.lt, rest)
  | '?', '?' :: rest => (.coalesce, rest)
  | '?', rest => (.question, rest)
  | '&', '&' :: rest => (.and, rest)
  | '&', rest => (.bitAnd, rest)
  | '|', '|' :: rest => (.or, rest)
  | '|', rest => (.bitOr, rest)
  | '^', rest => (.bitXor, rest)
  | '%', rest => (.mod, rest)
  | '!', '=' :: rest => (.ne, rest)
  | '!', rest => (.bang, rest)
  | '~', rest => (.tilde, rest)
  | '*', rest => (.star, rest)
  | '/', rest => (.slash, rest)
  | '(', rest => (.lParen, rest)
  | ',', rest => (.comma, rest)
  | ')', rest => (.rParen, rest)
  | c, rest => (.error ("unexpected " ++ c.toString), rest)

/-- The token at the beginning of a text. A string ends at the first quote. -/
def token (c : Char) (rest : List Char) : Token × List Char :=
  if isIdentStart c then
    let more := rest.takeWhile isIdentPart
    (word (c :: more), rest.drop more.length)
  else if c.isDigit then number c rest
  else if c = '"' then
    let text := rest.takeWhile (· ≠ '"')
    (.string (.ofList text), rest.drop (text.length + 1))
  else punctuation c rest

/-- The tokens of a text, at most as many as the bound says. -/
def tokensWithin : ℕ → List Char → List Token
  | 0, _ => []
  | n + 1, cs =>
      match (skipWhitespaceAndComments .blank cs).2 with
      | [] => []
      | c :: rest => (token c rest).1 :: tokensWithin n (token c rest).2

def tokens (cs : List Char) : List Token := tokensWithin (cs.length + 1) cs

/-- The comments of a text, at most as many tokens far as the bound says. -/
def commentsWithin : ℕ → List Char → List (List Char)
  | 0, _ => []
  | n + 1, cs =>
      let skipped := skipWhitespaceAndComments .blank cs
      skipped.1 ++
        match skipped.2 with
        | [] => []
        | c :: rest => commentsWithin n (token c rest).2

def comments (cs : List Char) : List (List Char) := commentsWithin (cs.length + 1) cs

example : tokens "a-->b // c\n== 0x1F\"s\"".toList =
    [.ident "a", .minus, .arrow, .ident "b", .eq, .eq, .int 31, .string "s"] := by decide +kernel

/-! ### Equations without a bound -/

theorem skip_length (scan : Scan) (cs : List Char) :
    (skipWhitespaceAndComments scan cs).2.length ≤ cs.length := by
  fun_induction skipWhitespaceAndComments scan cs with
  | case1 rest ih => exact ih.trans (by simp only [List.length_cons]; omega)
  | case2 rest ih => exact ih.trans (by simp only [List.length_cons]; omega)
  | case3 c rest _ _ _ ih => exact ih.trans (Nat.le_succ _)
  | case4 => exact Nat.le_refl _
  | case5 => exact Nat.le_refl _
  | case6 text rest r ih => exact ih.trans (Nat.le_succ _)
  | case7 text c rest _ ih => exact ih.trans (Nat.le_succ _)
  | case8 => exact Nat.le_refl _
  | case9 text rest r ih => exact ih.trans (by simp only [List.length_cons]; omega)
  | case10 text c rest _ ih => exact ih.trans (Nat.le_succ _)
  | case11 => exact Nat.le_refl _

theorem punctuation_length (c : Char) (rest : List Char) :
    (punctuation c rest).2.length ≤ rest.length := by
  unfold punctuation
  split <;> first | exact Nat.le_refl _ | exact Nat.le_succ _

theorem digits_length (radix : ℕ) (start rest : List Char) :
    (digits radix start rest).2.length ≤ rest.length := by
  unfold digits
  exact (List.drop_sublist _ _).length_le

theorem number_length (c : Char) (rest : List Char) : (number c rest).2.length ≤ rest.length := by
  unfold number
  split <;> first
    | exact (digits_length _ _ _).trans (Nat.le_succ _)
    | exact digits_length _ _ _

theorem token_length (c : Char) (rest : List Char) : (token c rest).2.length ≤ rest.length := by
  unfold token
  split
  · exact (List.drop_sublist _ _).length_le
  · split
    · exact number_length c rest
    · split
      · exact (List.drop_sublist _ _).length_le
      · exact punctuation_length c rest

theorem tokensWithin_eq {n m : ℕ} {cs : List Char} (hn : cs.length < n) (hm : cs.length < m) :
    tokensWithin n cs = tokensWithin m cs := by
  induction n generalizing m cs with
  | zero => exact absurd hn (Nat.not_lt_zero _)
  | succ n ih =>
      cases m with
      | zero => exact absurd hm (Nat.not_lt_zero _)
      | succ m =>
          have hskip := skip_length .blank cs
          unfold tokensWithin
          cases hcs : (skipWhitespaceAndComments .blank cs).2 with
          | nil => rfl
          | cons c rest =>
              have htoken := token_length c rest
              rw [hcs, List.length_cons] at hskip
              exact congrArg _ (ih (by omega) (by omega))

theorem tokens_eq (cs : List Char) :
    tokens cs = match (skipWhitespaceAndComments .blank cs).2 with
      | [] => []
      | c :: rest => (token c rest).1 :: tokens (token c rest).2 := by
  have hskip := skip_length .blank cs
  unfold tokens
  rw [tokensWithin]
  cases hcs : (skipWhitespaceAndComments .blank cs).2 with
  | nil => rfl
  | cons c rest =>
      have htoken := token_length c rest
      rw [hcs, List.length_cons] at hskip
      exact congrArg _ (tokensWithin_eq (by omega) (Nat.lt_succ_self _))

@[simp] theorem tokens_nil : tokens [] = [] := rfl

/-! ### Tokens one after the other -/

@[simp] theorem tokens_space (cs : List Char) : tokens (' ' :: cs) = tokens cs := by
  rw [tokens_eq, tokens_eq cs, skipWhitespaceAndComments]
  · rw [if_pos (.inl rfl)]
  all_goals nofun

@[simp] theorem tokens_newline (cs : List Char) : tokens ('\n' :: cs) = tokens cs := by
  rw [tokens_eq, tokens_eq cs, skipWhitespaceAndComments]
  · rw [if_pos (.inr (.inr (.inl rfl)))]
  all_goals nofun

/-- A character that is not whitespace and does not begin a comment begins a token. -/
theorem tokens_cons {c : Char} {rest : List Char}
    (hblank : ¬ (c = ' ' ∨ c = '\t' ∨ c = '\n' ∨ c = '\r'))
    (hcomment : c = '/' → rest.head? ≠ some '/' ∧ rest.head? ≠ some '*') :
    tokens (c :: rest) = (token c rest).1 :: tokens (token c rest).2 := by
  rw [tokens_eq, skipWhitespaceAndComments]
  · rw [if_neg hblank]
  · rintro rest' rfl rfl
    exact (hcomment rfl).1 rfl
  · rintro rest' rfl rfl
    exact (hcomment rfl).2 rfl

/-- A character that is neither a letter, a digit nor a quote. -/
theorem tokens_punctuation {c : Char} {rest : List Char}
    (hblank : ¬ (c = ' ' ∨ c = '\t' ∨ c = '\n' ∨ c = '\r'))
    (hcomment : c = '/' → rest.head? ≠ some '/' ∧ rest.head? ≠ some '*')
    (hplain : (isIdentStart c || c.isDigit || decide (c = '"')) = false) :
    tokens (c :: rest) = (punctuation c rest).1 :: tokens (punctuation c rest).2 := by
  rw [tokens_cons hblank hcomment]
  rw [Bool.or_eq_false_iff, Bool.or_eq_false_iff] at hplain
  obtain ⟨⟨hstart, hdigit⟩, hquote⟩ := hplain
  have htoken : token c rest = punctuation c rest := by
    unfold token
    rw [if_neg (by rw [hstart]; exact Bool.false_ne_true),
      if_neg (by rw [hdigit]; exact Bool.false_ne_true), if_neg (of_decide_eq_false hquote)]
  rw [htoken]

end Lexer

end NFdl
