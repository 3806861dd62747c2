import NFdl.Adgl.Numerals

/-!
# The ADGL lexer

The source is a list of characters. Comments and whitespace stand between the tokens, and
brackets are nested at most 64 deep. The end of the input is the end of the list of tokens.
-/

namespace Adgl

/-! ### Tokens -/

inductive Keyword where
  | ruleset | version | requires | mutuallyExclusive | evidence | decision | scope | anchor
  | correlate | having | infer | emit | action | if_ | else_ | present | absent | and | or | not
  | cause | problem | event | in_ | true | false
deriving DecidableEq, Repr

namespace Keyword

def text : Keyword → String
  | ruleset => "ruleset"
  | version => "version"
  | requires => "requires"
  | mutuallyExclusive => "mutually_exclusive"
  | evidence => "evidence"
  | decision => "decision"
  | scope => "scope"
  | anchor => "anchor"
  | correlate => "correlate"
  | having => "having"
  | infer => "infer"
  | emit => "emit"
  | action => "action"
  | if_ => "if"
  | else_ => "else"
  | present => "present"
  | absent => "absent"
  | and => "and"
  | or => "or"
  | not => "not"
  | cause => "Cause"
  | problem => "Problem"
  | event => "event"
  | in_ => "in"
  | true => "true"
  | false => "false"

def all : List Keyword :=
  [ruleset, version, requires, mutuallyExclusive, evidence, decision, scope, anchor, correlate,
    having, infer, emit, action, if_, else_, present, absent, and, or, not, cause, problem, event,
    in_, true, false]

def ofText? (s : String) : Option Keyword := all.find? fun k => k.text = s

theorem ofText?_text (k : Keyword) : ofText? k.text = some k := by
  cases k <;> rfl

theorem text_of_ofText? {s : String} {k : Keyword} (h : ofText? s = some k) : k.text = s := by
  have hk := List.find?_some h
  exact of_decide_eq_true hk

end Keyword

inductive Token where
  | ident (name : String)
  | string (value : String)
  | int (value : Int64)
  | duration (millis : Int64)
  | lBrace | rBrace | lParen | rParen | lBracket | rBracket
  | colon | comma | dot | eq | plus | minus | star | slash | percent | bang
  | lt | le | gt | ge | eqEq | ne | andAnd | orOr
  | kw (k : Keyword)
  | eof
deriving DecidableEq, Repr

def describeTokenKind : Token → String
  | .ident s => s
  | .string _ => "string literal"
  | .int v => toString v
  | .duration ms => toString ms ++ "ms"
  | .lBrace => "\x7b"
  | .rBrace => "\x7d"
  | .lParen => "("
  | .rParen => ")"
  | .lBracket => "["
  | .rBracket => "]"
  | .colon => ":"
  | .comma => ","
  | .dot => "."
  | .eq => "="
  | .plus => "+"
  | .minus => "-"
  | .star => "*"
  | .slash => "/"
  | .percent => "%"
  | .bang => "!"
  | .lt => "<"
  | .le => "<="
  | .gt => ">"
  | .ge => ">="
  | .eqEq => "=="
  | .ne => "!="
  | .andAnd => "&&"
  | .orOr => "||"
  | .kw k => k.text
  | .eof => "end of input"

namespace Lexer

open Text (byteLength map_eq_ok)

/-! ### Whitespace and comments -/

/-- Where the scan is, with the text of the comment that it is in. -/
inductive Scan where
  | blank
  | line (text : List Char)
  | block (text : List Char)

def isBlank (c : Char) : Bool := c = ' ' || c = '\t' || c = '\r' || c = '\n'

/-- A comment in front of the ones that follow. -/
def withComment (text : List Char) (r : List (List Char) × List Char) :
    List (List Char) × List Char := (text :: r.1, r.2)

/-- The comments in front of the next token, and the text from that token on. -/
def skipWsAndComments : Scan → List Char → Except ParseErr (List (List Char) × List Char)
  | .blank, '/' :: '/' :: rest => skipWsAndComments (.line ['/', '/']) rest
  | .blank, '/' :: '*' :: rest => skipWsAndComments (.block ['/', '*']) rest
  | .blank, c :: rest => if isBlank c then skipWsAndComments .blank rest else .ok ([], c :: rest)
  | .blank, [] => .ok ([], [])
  | .line text, c :: rest =>
      if c = '\n' then (skipWsAndComments .blank rest).map (withComment text)
      else skipWsAndComments (.line (text ++ [c])) rest
  | .line text, [] => .ok ([text], [])
  | .block text, '*' :: '/' :: rest =>
      (skipWsAndComments .blank rest).map (withComment (text ++ ['*', '/']))
  | .block text, c :: rest => skipWsAndComments (.block (text ++ [c])) rest
  | .block _, [] => .error ⟨"ADGL0106", "unclosed block comment", "closing */", 2⟩

/-! ### Words -/

def isIdentStart (c : Char) : Bool := c.isAlpha || c = '_'

/-- The words with two underscores in front that are not reserved. -/
def builtins : List String := ["__watermark", "__scope", "__confidence", "__ruleset_version"]

/-- The token of a word. -/
def word (name : String) : Token :=
  match Keyword.ofText? name with
  | some k => .kw k
  | none => .ident name

def lexIdentOrKw (cs : List Char) : Except ParseErr (Token × List Char) :=
  let parsed := cs.takeWhile isIdentContinue
  if parsed = [] then .error ⟨"ADGL0100", "malformed identifier", "identifier", 1⟩
  else if parsed.length > 255 then
    .error ⟨"ADGL0101", "identifier exceeds 255 bytes", "identifier length <= 255", parsed.length⟩
  else if ['_', '_'] <+: parsed ∧ String.ofList parsed ∉ builtins then
    .error ⟨"ADGL0104", "identifier prefix '__' is reserved", "builtin identifier", parsed.length⟩
  else .ok (word (.ofList parsed), cs.drop parsed.length)

/-! ### Numbers and strings -/

def numberToken : NumberToken → Token
  | .int v => .int v
  | .duration ms => .duration ms

def lexNumber (cs : List Char) : Except ParseErr (Token × List Char) :=
  (lexNumberOrDuration cs).map fun r => (numberToken r.1, cs.drop r.2)

/-- `u8::from_str_radix` on two characters, of which the first one may be a sign. -/
def hexByte (hi lo : Char) : Option ℕ :=
  match NFdl.Lexer.toDigit 16 hi, NFdl.Lexer.toDigit 16 lo with
  | some a, some b => some (16 * a + b)
  | none, some b => if hi = '+' then some b else none
  | _, none => none

/-- The character of an escape of one letter. -/
def simpleEscape : Char → Option Char
  | 'n' => some '\n'
  | 't' => some '\t'
  | 'r' => some '\r'
  | '0' => some '\x00'
  | '"' => some '"'
  | '\\' => some '\\'
  | _ => none

/-- The rest of a string after some bytes and characters of it. -/
def lexString (width : ℕ) (out : List Char) : List Char → Except ParseErr (Token × List Char)
  | [] => .error ⟨"ADGL0100", "unterminated string", "closing quote", width⟩
  | '"' :: rest => .ok (.string (.ofList out), rest)
  | ['\\'] => .error ⟨"ADGL0100", "unterminated string", "closing quote", width + 1⟩
  | ['\\', 'x'] => .error ⟨"ADGL0100", "incomplete hex escape", "two hex digits", width + 2⟩
  | ['\\', 'x', hi] =>
      .error ⟨"ADGL0100", "incomplete hex escape", "two hex digits", width + 2 + hi.utf8Size⟩
  | '\\' :: 'x' :: hi :: lo :: rest =>
      match hexByte hi lo with
      | some b => lexString (width + 2 + hi.utf8Size + lo.utf8Size) (out ++ [Char.ofNat b]) rest
      | none => .error ⟨"ADGL0100", "invalid hex escape", "\\xHH",
          width + 2 + hi.utf8Size + lo.utf8Size⟩
  | '\\' :: other :: rest =>
      match simpleEscape other with
      | some c => lexString (width + 2) (out ++ [c]) rest
      | none => .error ⟨"ADGL0100", "unknown escape '\\" ++ other.toString ++ "'",
          "valid string escape", width + 1 + other.utf8Size⟩
  | c :: rest => lexString (width + c.utf8Size) (out ++ [c]) rest

/-! ### The next token -/

/-- The token of a character that is one by itself. -/
def single : Char → Option Token
  | '{' => some .lBrace
  | '}' => some .rBrace
  | '(' => some .lParen
  | ')' => some .rParen
  | '[' => some .lBracket
  | ']' => some .rBracket
  | ':' => some .colon
  | ',' => some .comma
  | '.' => some .dot
  | '=' => some .eq
  | '+' => some .plus
  | '-' => some .minus
  | '*' => some .star
  | '/' => some .slash
  | '%' => some .percent
  | '!' => some .bang
  | '<' => some .lt
  | '>' => some .gt
  | _ => none

/-- The token of two characters. -/
def double : Char → Char → Option Token
  | '&', '&' => some .andAnd
  | '|', '|' => some .orOr
  | '=', '=' => some .eqEq
  | '!', '=' => some .ne
  | '<', '=' => some .le
  | '>', '=' => some .ge
  | _, _ => none

/-- The token at the beginning of a text, where no token of two characters begins. -/
def nextSingle (c : Char) (rest : List Char) : Except ParseErr (Token × List Char) :=
  match single c with
  | some t => .ok (t, rest)
  | none =>
      if c = '"' then lexString 1 [] rest
      else if c.isDigit then lexNumber (c :: rest)
      else if isIdentStart c then lexIdentOrKw (c :: rest)
      else .error ⟨"ADGL0100", "unexpected character", "token", c.utf8Size⟩

def nextToken : List Char → Except ParseErr (Token × List Char)
  | [] => .ok (.eof, [])
  | [c] => nextSingle c []
  | c :: d :: rest =>
      match double c d with
      | some t => .ok (t, rest)
      | none => nextSingle c (d :: rest)

/-! ### All tokens -/

/-- The depth of the brackets behind a token. -/
def depthAfter (depth : ℕ) : Token → ℕ
  | .lBrace | .lParen | .lBracket => depth + 1
  | .rBrace | .rParen | .rBracket => depth - 1
  | _ => depth

/-- The tokens of a text at some depth, at most as many as the bound says. -/
def tokenizeWithin : ℕ → ℕ → List Char → Except ParseErr (List Token)
  | 0, _, _ => .ok []
  | n + 1, depth, cs =>
      match skipWsAndComments .blank cs with
      | .error e => .error e
      | .ok (_, []) => .ok []
      | .ok (_, c :: rest) =>
          match nextToken (c :: rest) with
          | .error e => .error e
          | .ok (t, rest) =>
              if depthAfter depth t > 64 then
                .error ⟨"ADGL0103", "nesting depth exceeds 64", "nesting depth <= 64", 1⟩
              else (tokenizeWithin n (depthAfter depth t) rest).map (t :: ·)

def tokenize (cs : List Char) : Except ParseErr (List Token) :=
  if byteLength cs > 4 * 1024 * 1024 then
    .error ⟨"ADGL0102", "source exceeds 4 MiB limit", "input <= 4 MiB", byteLength cs⟩
  else tokenizeWithin (cs.length + 1) 0 cs

example : tokenize "a /* b */ in [-5min,\"\\x41\"] // c".toList =
    .ok [.ident "a", .kw .in_, .lBracket, .minus, .duration 300000, .comma, .string "A",
      .rBracket] := by decide +kernel

variable {c : Char} {cs rest : List Char} {ts : List Token} {n m : ℕ}

/-! ### Tokens without a bound -/

/-- The tokens of a text, however deep its brackets are nested. -/
def lexWithin : ℕ → List Char → Except ParseErr (List Token)
  | 0, _ => .ok []
  | n + 1, cs =>
      match skipWsAndComments .blank cs with
      | .error e => .error e
      | .ok (_, []) => .ok []
      | .ok (_, c :: rest) =>
          match nextToken (c :: rest) with
          | .error e => .error e
          | .ok (t, rest) => (lexWithin n rest).map (t :: ·)

def lex (cs : List Char) : Except ParseErr (List Token) := lexWithin (cs.length + 1) cs

theorem skip_suffix {scan : Scan} {r : List (List Char) × List Char}
    (h : skipWsAndComments scan cs = .ok r) : r.2 <:+ cs := by
  fun_induction skipWsAndComments scan cs generalizing r with
  | case1 rest ih => exact (ih h).trans ⟨['/', '/'], rfl⟩
  | case2 rest ih => exact (ih h).trans ⟨['/', '*'], rfl⟩
  | case3 c rest _ _ _ ih => exact (ih h).trans (List.suffix_cons ..)
  | case4 => cases h; exact List.suffix_rfl
  | case5 => cases h; exact List.suffix_rfl
  | case6 text rest ih =>
      obtain ⟨r', hr', rfl⟩ := map_eq_ok h
      exact (ih hr').trans (List.suffix_cons ..)
  | case7 text c rest _ ih => exact (ih h).trans (List.suffix_cons ..)
  | case8 => cases h; exact List.suffix_rfl
  | case9 text rest ih =>
      obtain ⟨r', hr', rfl⟩ := map_eq_ok h
      exact (ih hr').trans ⟨['*', '/'], rfl⟩
  | case10 text c rest _ ih => exact (ih h).trans (List.suffix_cons ..)
  | case11 => cases h

theorem lexString_suffix {width : ℕ} {out : List Char} {r : Token × List Char}
    (h : lexString width out cs = .ok r) : r.2 <:+ cs := by
  fun_induction lexString width out cs generalizing r with
  | case1 => cases h
  | case2 => cases h; exact List.suffix_cons ..
  | case3 => cases h
  | case4 => cases h
  | case5 => cases h
  | case6 width out hi lo rest b hb ih => exact (ih h).trans ⟨['\\', 'x', hi, lo], rfl⟩
  | case7 => cases h
  | case8 width out other rest _ _ _ c hc ih => exact (ih h).trans ⟨['\\', other], rfl⟩
  | case9 => cases h
  | case10 width out c rest _ _ _ _ _ _ ih => exact (ih h).trans (List.suffix_cons ..)

theorem lexUnit_width {value : Int64} {width : ℕ} {r : NumberToken × ℕ}
    (h : lexUnit value width cs = .ok r) : width ≤ r.2 := by
  unfold lexUnit at h
  split at h
  · cases h; exact Nat.le_add_right _ _
  · split at h <;> cases h
    · exact Nat.le_refl _
    · exact Nat.le_add_right _ _
  · cases h; exact Nat.le_add_right _ _
  · cases h
  · cases h; exact Nat.le_refl _

/-- A number has a digit or more. -/
theorem lexNumberOrDuration_width {r : NumberToken × ℕ} (h : lexNumberOrDuration cs = .ok r) :
    0 < r.2 := by
  unfold lexNumberOrDuration at h
  split at h
  rename_i radix text _
  split at h
  · cases h
  · rename_i hne
    split at h
    · cases h
    · exact (List.length_pos_iff.mpr hne).trans_le (lexUnit_width h)

theorem drop_suffix {k : ℕ} (hk : 0 < k) : (c :: rest).drop k <:+ rest := by
  obtain ⟨k, rfl⟩ := Nat.exists_eq_add_one_of_ne_zero hk.ne'
  exact List.drop_suffix k rest

theorem lexNumber_suffix {r : Token × List Char} (h : lexNumber (c :: rest) = .ok r) :
    r.2 <:+ rest := by
  obtain ⟨r', hr', rfl⟩ := map_eq_ok h
  exact drop_suffix (lexNumberOrDuration_width hr')

theorem lexIdentOrKw_suffix {r : Token × List Char} (h : lexIdentOrKw (c :: rest) = .ok r) :
    r.2 <:+ rest := by
  unfold lexIdentOrKw at h
  dsimp only at h
  split at h
  · cases h
  · rename_i hne
    split at h
    · cases h
    · split at h <;> cases h
      exact drop_suffix (List.length_pos_iff.mpr hne)

theorem nextSingle_suffix {r : Token × List Char} (h : nextSingle c rest = .ok r) :
    r.2 <:+ rest := by
  unfold nextSingle at h
  split at h
  · cases h; exact List.suffix_rfl
  · split at h
    · exact lexString_suffix h
    · split at h
      · exact lexNumber_suffix h
      · split at h
        · exact lexIdentOrKw_suffix h
        · cases h

/-- Every token has a character or more. -/
theorem nextToken_suffix {r : Token × List Char} (h : nextToken (c :: rest) = .ok r) :
    r.2 <:+ rest := by
  unfold nextToken at h
  split at h
  · rename_i heq
    cases heq
  · rename_i heq
    cases heq
    exact nextSingle_suffix h
  · rename_i d more heq
    cases heq
    split at h
    · cases h; exact List.suffix_cons ..
    · exact nextSingle_suffix h

theorem lexWithin_eq (hn : cs.length < n) (hm : cs.length < m) :
    lexWithin n cs = lexWithin m cs := by
  induction n generalizing m cs with
  | zero => exact absurd hn (Nat.not_lt_zero _)
  | succ n ih =>
      cases m with
      | zero => exact absurd hm (Nat.not_lt_zero _)
      | succ m =>
          unfold lexWithin
          cases hskip : skipWsAndComments .blank cs with
          | error e => rfl
          | ok r =>
              have hcs := (skip_suffix hskip).length_le
              obtain ⟨comments, _ | ⟨c, rest⟩⟩ := r
              · rfl
              · cases htoken : nextToken (c :: rest) with
                | error e => simp only [htoken]
                | ok r =>
                    have hrest := (nextToken_suffix htoken).length_le
                    rw [List.length_cons] at hcs
                    simp only [htoken]
                    rw [ih (m := m) (by omega) (by omega)]

theorem lex_eq (cs : List Char) : lex cs =
    match skipWsAndComments .blank cs with
    | .error e => .error e
    | .ok (_, []) => .ok []
    | .ok (_, c :: rest) =>
        match nextToken (c :: rest) with
        | .error e => .error e
        | .ok (t, rest) => (lex rest).map (t :: ·) := by
  unfold lex
  rw [lexWithin]
  cases hskip : skipWsAndComments .blank cs with
  | error e => rfl
  | ok r =>
      have hcs := (skip_suffix hskip).length_le
      obtain ⟨comments, _ | ⟨c, rest⟩⟩ := r
      · rfl
      · cases htoken : nextToken (c :: rest) with
        | error e => simp only [htoken]
        | ok r =>
            have hrest := (nextToken_suffix htoken).length_le
            rw [List.length_cons] at hcs
            simp only [htoken]
            rw [lexWithin_eq (m := r.2.length + 1) (by omega) (Nat.lt_succ_self _)]

@[simp] theorem lex_nil : lex [] = .ok [] := rfl

/-! ### Limits -/

/-- The brackets of some tokens are not nested too deep. -/
def nests : ℕ → List Token → Bool
  | _, [] => true
  | depth, t :: ts => depthAfter depth t ≤ 64 && nests (depthAfter depth t) ts

theorem tokenizeWithin_eq_ok_iff {depth : ℕ} :
    tokenizeWithin n depth cs = .ok ts ↔ lexWithin n cs = .ok ts ∧ nests depth ts = true := by
  have hnone : ∀ {depth ts} {r : Except ParseErr (List Token)}, (∀ ts', r = .ok ts' → ts' = []) →
      (r = .ok ts ↔ r = .ok ts ∧ nests depth ts = true) := by
    intro depth ts r h
    refine (and_iff_left_of_imp fun hr => ?_).symm
    rw [h ts hr]
    rfl
  induction n generalizing depth cs ts with
  | zero => exact hnone (by rintro _ ⟨⟩; rfl)
  | succ n ih =>
      unfold tokenizeWithin lexWithin
      cases skipWsAndComments .blank cs with
      | error e => exact hnone (fun _ h => by cases h)
      | ok r =>
          obtain ⟨comments, _ | ⟨c, rest⟩⟩ := r
          · exact hnone (by rintro _ ⟨⟩; rfl)
          · cases htoken : nextToken (c :: rest) with
            | error e =>
                simp only [htoken]
                exact hnone (fun _ h => by cases h)
            | ok r =>
                obtain ⟨t, more⟩ := r
                simp only [htoken]
                constructor
                · intro h
                  split at h
                  · cases h
                  · rename_i hdepth
                    obtain ⟨ts', hts', rfl⟩ := map_eq_ok h
                    obtain ⟨hlex, hnests⟩ := ih.mp hts'
                    rw [hlex]
                    refine ⟨rfl, Bool.and_eq_true_iff.mpr ⟨decide_eq_true ?_, hnests⟩⟩
                    exact Nat.le_of_not_lt hdepth
                · rintro ⟨h, hnests⟩
                  obtain ⟨ts', hts', rfl⟩ := map_eq_ok h
                  obtain ⟨hdepth, hnests⟩ := Bool.and_eq_true_iff.mp hnests
                  rw [if_neg (Nat.not_lt_of_le (of_decide_eq_true hdepth))]
                  rw [ih.mpr ⟨hts', hnests⟩]
                  rfl

/-- The lexer accepts a text that is not too long and not nested too deep. -/
theorem tokenize_eq_ok_iff : tokenize cs = .ok ts ↔
    byteLength cs ≤ 4 * 1024 * 1024 ∧ lex cs = .ok ts ∧ nests 0 ts = true := by
  unfold tokenize
  split
  · rename_i hlong
    exact ⟨fun h => (by cases h), fun h => absurd h.1 (Nat.not_le_of_lt hlong)⟩
  · rename_i hshort
    rw [tokenizeWithin_eq_ok_iff]
    exact (and_iff_right (Nat.le_of_not_lt hshort)).symm

end Lexer

end Adgl
