import NFdl.Adgl.Lexer
import NFdl.Adgl.WindowArithmetic

/-!
# Texts of tokens

What the lexer gives for a text that is put together from words, numbers, strings and
punctuation, in front of any text that does not continue the last token.
-/

namespace Adgl.Lexer

open NFdl.Lexer (toDigit i64FromStrRadix)
open Text (map_eq_ok takeWhile_stop)

variable {c d : Char} {cs more rest rest' text : List Char} {t : Token} {ts : List Token} {n m : ℕ}

/-! ### Tokens one after the other -/

/-- The tokens behind some others. -/
def behind (ts : List Token) (r : Except ParseErr (List Token)) : Except ParseErr (List Token) :=
  r.map (ts ++ ·)

theorem behind_nil (r : Except ParseErr (List Token)) : behind [] r = r := by
  cases r <;> rfl

theorem behind_behind (ts ts' : List Token) (r : Except ParseErr (List Token)) :
    behind ts (behind ts' r) = behind (ts ++ ts') r := by
  cases r with
  | ok more => exact congrArg Except.ok (List.append_assoc ..).symm
  | error e => rfl

theorem lex_blank (h : isBlank c = true) (cs : List Char) : lex (c :: cs) = lex cs := by
  have hslash : c ≠ '/' := by
    rintro rfl
    exact absurd h (by decide)
  rw [lex_eq, lex_eq cs, skipWsAndComments]
  · rw [if_pos h]
  all_goals
    intro rest heq
    exact absurd heq hslash

/-- A character that is not blank and does not begin a comment begins a token. -/
theorem lex_cons (hblank : isBlank c = false)
    (hcomment : c = '/' → rest.head? ≠ some '/' ∧ rest.head? ≠ some '*')
    (htoken : nextToken (c :: rest) = .ok (t, rest')) :
    lex (c :: rest) = behind [t] (lex rest') := by
  rw [lex_eq, skipWsAndComments]
  · rw [if_neg (by rw [hblank]; exact Bool.false_ne_true)]
    simp only [htoken]
    rfl
  · rintro more rfl rfl
    exact (hcomment rfl).1 rfl
  · rintro more rfl rfl
    exact (hcomment rfl).2 rfl

/-- The first token of a text that is accepted. -/
theorem lex_cons_ok (hblank : isBlank c = false) (hslash : c ≠ '/') (h : lex (c :: rest) = .ok ts) :
    ∃ t rest' ts', nextToken (c :: rest) = .ok (t, rest') ∧ lex rest' = .ok ts' ∧ ts = t :: ts' := by
  rw [lex_eq, skipWsAndComments] at h
  · rw [if_neg (by rw [hblank]; exact Bool.false_ne_true)] at h
    dsimp only at h
    split at h
    · cases h
    · rename_i t rest' htoken
      obtain ⟨ts', hts', rfl⟩ := map_eq_ok h
      exact ⟨t, rest', ts', htoken, hts', rfl⟩
  all_goals
    intro rest heq
    exact absurd heq hslash

/-! ### Texts -/

/-- The text does not continue a word or a number. -/
def Breaks (rest : List Char) : Prop := ∀ c, rest.head? = some c → isIdentContinue c = false

theorem breaks_nil : Breaks [] := nofun

theorem breaks_cons (h : isIdentContinue c = false) : Breaks (c :: rest) := by
  intro d hd
  cases hd
  exact h

/-- The tokens of a text in front of any text that does not continue it. -/
def Lexes (cs : List Char) (ts : List Token) : Prop :=
  ∀ rest, Breaks rest → lex (cs ++ rest) = behind ts (lex rest)

/-! ### Words -/

/-- What a word may be. -/
structure IsWord (s : String) : Prop where
  start : ∃ c more, s.toList = c :: more ∧ isIdentStart c = true
  continues : ∀ c ∈ s.toList, isIdentContinue c = true
  short : s.toList.length ≤ 255
  free : ['_', '_'] <+: s.toList → s ∈ builtins

theorem ne_of_class {p : Char → Bool} (hc : p c = true) (hd : p d = false) : c ≠ d := by
  rintro rfl
  rw [hc] at hd
  cases hd

/-- The characters that are no part of a word or a number. -/
def specials : List Char :=
  [' ', '\t', '\r', '\n', '/', '"', '&', '|', '{', '}', '(', ')', '[', ']', ':', ',', '.', '=', '+',
    '-', '*', '%', '!', '<', '>']

/-- A character of a class without special characters. -/
theorem plain_of_class {p : Char → Bool} (hc : p c = true)
    (hspecials : specials.all (fun d => !p d) = true) :
    isBlank c = false ∧ single c = none ∧ c ≠ '/' ∧ c ≠ '"' ∧ c ≠ '&' ∧ c ≠ '|' := by
  have hne : ∀ d ∈ specials, c ≠ d := by
    intro d hd
    have hd := List.all_eq_true.mp hspecials d hd
    exact ne_of_class hc (Bool.not_eq_true' _ ▸ hd)
  simp only [specials, List.forall_mem_cons] at hne
  obtain ⟨hspace, htab, hreturn, hnewline, hslash, hquote, hand, hor, hsingle⟩ := hne
  refine ⟨?_, ?_, hslash, hquote, hand, hor⟩
  · unfold isBlank
    rw [decide_eq_false hspace, decide_eq_false htab, decide_eq_false hreturn,
      decide_eq_false hnewline]
    rfl
  · unfold single
    split <;> first | rfl | simp_all

theorem not_isDigit_of_start (h : isIdentStart c = true) : c.isDigit = false := by
  refine Bool.eq_false_iff.mpr fun hdigit => ?_
  unfold isIdentStart Char.isAlpha Char.isUpper Char.isLower at h
  unfold Char.isDigit at hdigit
  simp only [Bool.or_eq_true, Bool.and_eq_true, decide_eq_true_eq, UInt32.le_iff_toNat_le,
    Char.ext_iff, ← UInt32.toNat_inj, ge_iff_le] at h hdigit
  simp at h hdigit
  omega

theorem double_of_ne {d : Char} (hd : d ≠ '&') (hbar : d ≠ '|') (heq : d ≠ '=') : double c d = none := by
  unfold double
  split <;> first | rfl | contradiction

theorem lexIdentOrKw_word {s : String} (h : IsWord s) (hrest : Breaks rest) :
    lexIdentOrKw (s.toList ++ rest) = .ok (word s, rest) := by
  obtain ⟨c, more, hs, -⟩ := h.start
  unfold lexIdentOrKw
  rw [takeWhile_stop h.continues hrest]
  dsimp only
  rw [if_neg (by rw [hs]; exact List.cons_ne_nil _ _), if_neg (Nat.not_lt_of_le h.short), if_neg,
    String.ofList_toList, List.drop_left]
  rintro ⟨hfree, hbuiltin⟩
  rw [String.ofList_toList] at hbuiltin
  exact hbuiltin (h.free hfree)

/-- A character that begins neither a token of two characters nor one by itself. -/
theorem nextToken_plain (hc : c ≠ '&' ∧ c ≠ '|' ∧ single c = none) (cs : List Char) :
    nextToken (c :: cs) = nextSingle c cs := by
  cases cs with
  | nil => rfl
  | cons d cs =>
      have hdouble : double c d = none := by
        obtain ⟨hand, hor, hsingle⟩ := hc
        unfold double
        split <;> first | rfl | contradiction
      dsimp only [nextToken]
      rw [hdouble]

theorem Lexes.word {s : String} (h : IsWord s) : Lexes s.toList [word s] := by
  intro rest hrest
  obtain ⟨c, more, hs, hstart⟩ := h.start
  obtain ⟨hblank, hsingle, hslash, hquote, hand, hor⟩ := plain_of_class hstart (by decide)
  have hdigit := not_isDigit_of_start hstart
  have htoken : nextToken (c :: (more ++ rest)) = .ok (Lexer.word s, rest) := by
    have hword := lexIdentOrKw_word h hrest
    rw [hs] at hword
    rw [nextToken_plain ⟨hand, hor, hsingle⟩]
    unfold nextSingle
    rw [hsingle]
    dsimp only
    rw [if_neg hquote, if_neg (by rw [hdigit]; exact Bool.false_ne_true), if_pos hstart]
    exact hword
  rw [hs]
  exact lex_cons hblank (fun h => absurd h hslash) htoken

/-! ### Pieces of text without numbers, strings and comments -/

/-- A character that is a token by itself or blank, whatever stands around it. -/
def isEnd (c : Char) : Bool :=
  c ∈ [' ', '\n', '{', '}', '(', ')', '[', ']', ':', ',', '.']

def isPlain (c : Char) : Bool := c ≠ '/' && c ≠ '"' && !c.isDigit

theorem isEnd_iff : isEnd c = true ↔ c = ' ' ∨ c = '\n' ∨ c = '{' ∨ c = '}' ∨ c = '(' ∨ c = ')' ∨
    c = '[' ∨ c = ']' ∨ c = ':' ∨ c = ',' ∨ c = '.' := by
  simp [isEnd]

theorem isEnd_cases (h : isEnd c = true) :
    (isBlank c = true ∨ isBlank c = false ∧ ∃ t, single c = some t) ∧
      c ≠ '&' ∧ c ≠ '|' ∧ c ≠ '=' ∧ c ≠ '!' ∧ c ≠ '<' ∧ c ≠ '>' ∧ c ≠ '/' ∧
        isIdentContinue c = false := by
  obtain rfl | rfl | rfl | rfl | rfl | rfl | rfl | rfl | rfl | rfl | rfl := isEnd_iff.mp h
  all_goals
    refine ⟨?_, by decide, by decide, by decide, by decide, by decide, by decide, by decide, by decide⟩
  · exact .inl rfl
  · exact .inl rfl
  all_goals exact .inr ⟨rfl, _, rfl⟩

theorem takeWhile_before {p : Char → Bool} (h : p c = false) (cs more : List Char) :
    (cs ++ c :: more).takeWhile p = cs.takeWhile p := by
  induction cs with
  | nil => exact List.takeWhile_cons_of_neg (by rw [h]; exact Bool.false_ne_true)
  | cons d cs ih => simp only [List.cons_append, List.takeWhile_cons, ih]

theorem lexIdentOrKw_behind (hc : isIdentContinue c = false)
    (h : lexIdentOrKw (cs ++ [c]) = .ok (t, rest)) :
    rest <:+ cs ++ [c] ∧ ∀ more, lexIdentOrKw (cs ++ c :: more) = .ok (t, rest ++ more) := by
  unfold lexIdentOrKw at h ⊢
  simp only [takeWhile_before hc] at h ⊢
  split at h
  · cases h
  · rename_i hne
    split at h
    · cases h
    · rename_i hshort
      split at h
      · cases h
      · rename_i hfree
        cases h
        refine ⟨List.drop_suffix _ _, fun more => ?_⟩
        have hlength : (cs.takeWhile isIdentContinue).length ≤ (cs ++ [c]).length := by
          rw [List.length_append]
          exact (List.takeWhile_sublist _).length_le.trans (Nat.le_add_right _ _)
        rw [if_neg hne, if_neg hshort, if_neg hfree, List.append_cons cs c more,
          List.drop_append_of_le_length hlength]

/-- The next token of such a piece does not depend on what is behind the piece. -/
theorem nextSingle_behind (hd : isPlain d = true) (hc : isIdentContinue c = false)
    (h : nextSingle d (cs ++ [c]) = .ok (t, rest)) :
    rest <:+ cs ++ [c] ∧ ∀ more, nextSingle d (cs ++ c :: more) = .ok (t, rest ++ more) := by
  have hlength := (nextSingle_suffix h).length_le
  simp only [isPlain, Bool.and_eq_true, decide_eq_true_eq, Bool.not_eq_true'] at hd
  obtain ⟨⟨-, hquote⟩, hdigit⟩ := hd
  unfold nextSingle at h ⊢
  cases hsingle : single d with
  | some t' =>
      rw [hsingle] at h
      cases h
      exact ⟨List.suffix_refl _, fun more => by simp⟩
  | none =>
      rw [hsingle] at h
      dsimp only at h ⊢
      rw [if_neg hquote, if_neg (by rw [hdigit]; exact Bool.false_ne_true)] at h
      split at h
      · rename_i hstart
        obtain ⟨hsuffix, hmore⟩ := lexIdentOrKw_behind hc (show lexIdentOrKw ((d :: cs) ++ [c]) = _ from h)
        refine ⟨List.suffix_of_suffix_length_le hsuffix (List.suffix_cons d _) hlength, fun more => ?_⟩
        rw [if_neg hquote, if_neg (by rw [hdigit]; exact Bool.false_ne_true), if_pos hstart]
        exact hmore more
      · cases h

theorem nextToken_behind (hd : isPlain d = true) (hc : isEnd c = true)
    (h : nextToken (d :: (cs ++ [c])) = .ok (t, rest)) :
    rest <:+ cs ++ [c] ∧ ∀ more, nextToken (d :: (cs ++ c :: more)) = .ok (t, rest ++ more) := by
  obtain ⟨-, hand, hor, heq, -, -, -, -, hcontinue⟩ := isEnd_cases hc
  cases cs with
  | nil =>
      have hdouble : double d c = none := double_of_ne hand hor heq
      dsimp only [List.nil_append, nextToken] at h ⊢
      rw [hdouble] at h ⊢
      exact nextSingle_behind hd hcontinue (show nextSingle d ([] ++ [c]) = _ from h)
  | cons e cs =>
      dsimp only [List.cons_append, nextToken] at h ⊢
      cases hdouble : double d e with
      | some t' =>
          rw [hdouble] at h
          cases h
          refine ⟨List.suffix_cons e _, fun more => ?_⟩
          rw [List.append_assoc]
          rfl
      | none =>
          rw [hdouble] at h
          exact nextSingle_behind hd hcontinue (show nextSingle d ((e :: cs) ++ [c]) = _ from h)

/-- A character that is a token whatever stands behind it. -/
theorem nextToken_single (hdouble : ∀ d, double c d = none) (hsingle : single c = some t)
    (more : List Char) : nextToken (c :: more) = .ok (t, more) := by
  have hnext : ∀ more, nextSingle c more = .ok (t, more) := by
    intro more
    unfold nextSingle
    rw [hsingle]
  cases more with
  | nil => exact hnext []
  | cons d more =>
      dsimp only [nextToken]
      rw [hdouble]
      exact hnext (d :: more)

/-- A piece of text with tokens of its own, in front of any text. -/
theorem lex_piece (hplain : cs.all isPlain = true) (hc : isEnd c = true)
    (h : lex (cs ++ [c]) = .ok ts) (more : List Char) :
    lex (cs ++ c :: more) = behind ts (lex more) := by
  obtain ⟨hfirst, -, -, -, hbang, hlt, hgt, hslash, -⟩ := isEnd_cases hc
  induction hn : cs.length using Nat.strong_induction_on generalizing cs ts with
  | _ n ih =>
      cases cs with
      | nil =>
          obtain hblank | ⟨hblank, t, hsingle⟩ := hfirst
          · rw [List.nil_append, lex_blank hblank] at h
            cases h
            rw [List.nil_append, lex_blank hblank, behind_nil]
          · have hdouble : ∀ d, double c d = none := fun d => by
              unfold double
              split <;> first | rfl | contradiction
            have htoken : ∀ more, nextToken (c :: more) = .ok (t, more) :=
              nextToken_single hdouble hsingle
            rw [List.nil_append, lex_cons hblank (fun h => absurd h hslash) (htoken _)] at h
            cases h
            exact lex_cons hblank (fun h => absurd h hslash) (htoken more)
      | cons d cs =>
          rw [List.all_cons, Bool.and_eq_true] at hplain
          obtain ⟨hd, hplain⟩ := hplain
          cases hblank : isBlank d with
          | true =>
              rw [List.cons_append, lex_blank hblank] at h ⊢
              exact ih cs.length (hn ▸ Nat.lt_succ_self _) hplain h rfl
          | false =>
              have hdslash : d ≠ '/' := by
                rintro rfl
                cases hd
              obtain ⟨t, rest', ts', htoken, hts', rfl⟩ := lex_cons_ok hblank hdslash h
              obtain ⟨hsuffix, hmore⟩ := nextToken_behind hd hc htoken
              have hlex : lex (rest' ++ more) = behind ts' (lex more) := by
                obtain rfl | ⟨cs', rfl, hcs'⟩ := List.suffix_concat_iff.mp hsuffix
                · cases hts'
                  exact (behind_nil _).symm
                · have hlength := hcs'.length_le
                  rw [List.append_assoc]
                  refine ih cs'.length ?_ ?_ hts' rfl
                  · rw [← hn, List.length_cons]
                    exact Nat.lt_succ_of_le hlength
                  · exact List.all_eq_true.mpr fun x hx => List.all_eq_true.mp hplain x (hcs'.subset hx)
              rw [List.cons_append, lex_cons hblank (fun h => absurd h hdslash) (hmore more), hlex,
                behind_behind]
              rfl

/-! ### Numbers -/

/-- A number in decimal digits with a unit or without. -/
def decimalLiteral (n : ℕ) (unit : Option TimeUnit) : Literal := ⟨.ofNat n, unit⟩

theorem inRun_continue (h : inRun 10 c = true) : isIdentContinue c = true := by
  unfold inRun at h
  unfold isIdentContinue Char.isAlphanum
  rw [Bool.or_eq_true] at h ⊢
  rcases h with h | h
  · rw [NFdl.Lexer.toDigit_ten_isSome h, Bool.or_true]
    exact .inl rfl
  · exact .inr h

theorem decimalLiteral_stands (n : ℕ) (unit : Option TimeUnit) (hrest : Breaks rest) :
    (decimalLiteral n unit).Stands rest := by
  have hhead : ∀ {p : Char → Bool}, (∀ c, p c = true → isIdentContinue c = true) →
      p 'm' = false → p 's' = false →
      ∀ c ∈ ((decimalLiteral n unit).unitText ++ rest).head?, p c = false := by
    intro p hp hm hs c hc
    refine Bool.eq_false_iff.mpr fun hpc => ?_
    cases unit with
    | none =>
        have hbreak := hrest c hc
        rw [hp c hpc] at hbreak
        cases hbreak
    | some unit =>
        have hunit : c = 'm' ∨ c = 's' := by
          cases unit <;> cases hc
          · exact .inl rfl
          · exact .inr rfl
          · exact .inl rfl
        obtain rfl | rfl := hunit
        · rw [hm] at hpc
          cases hpc
        · rw [hs] at hpc
          cases hpc
  have hbreak : ∀ c, isIdentContinue c = true → ∀ more, rest ≠ c :: more := by
    rintro c hc more rfl
    rw [hrest c rfl] at hc
    cases hc
  refine ⟨⟨?_, fun _ _ c hc => ?_⟩, ?_⟩
  · exact (Option.any_eq_false _ _).mpr fun c hc =>
      hhead (fun _ => inRun_continue) (by decide) (by decide) c hc
  · have hmarker := hhead (p := fun c => c ∈ ['x', 'X', 'b', 'B']) ?_ (by decide) (by decide) c hc
    · exact of_decide_eq_false hmarker
    · intro d hd
      simp only [List.mem_cons, List.not_mem_nil, or_false, decide_eq_true_eq] at hd
      rcases hd with rfl | rfl | rfl | rfl <;> decide
  · cases unit with
    | none => exact ⟨hbreak 'm' (by decide), fun more h => absurd h (hbreak 's' (by decide) more)⟩
    | some unit =>
        cases unit with
        | s =>
            unfold UnitEnds startsIdentContinue
            exact (Option.any_eq_false _ _).mpr fun c hc => hrest c hc
        | ms => exact trivial
        | min => exact trivial

theorem lexNumber_decimal {n : ℕ} {unit : Option TimeUnit} (hn : n < 2 ^ 63) (hrest : Breaks rest) :
    lexNumber ((decimalLiteral n unit).text ++ rest) =
      .ok (numberToken ((decimalLiteral n unit).token (.ofNat n)), rest) := by
  have hread : i64FromStrRadix (decimalLiteral n unit).numeral.radix.base
      (decimalLiteral n unit).numeral.parsed = some (.ofNat n) := Numeral.read_ofNat hn
  unfold lexNumber
  rw [Literal.lexNumberOrDuration_eq (decimalLiteral_stands n unit hrest), hread]
  exact congrArg (fun more => Except.ok (_, more)) List.drop_left

theorem Lexes.number {n : ℕ} {unit : Option TimeUnit} (hn : n < 2 ^ 63) :
    Lexes (decimalLiteral n unit).text [numberToken ((decimalLiteral n unit).token (.ofNat n))] := by
  intro rest hrest
  obtain ⟨c, more, hcs⟩ :=
    List.exists_cons_of_ne_nil (Nat.toDigits_ne_nil : Nat.toDigits 10 n ≠ [])
  have hdigit : c.isDigit = true := isDigit_toDigits c (hcs ▸ List.mem_cons_self ..)
  have htext : (decimalLiteral n unit).text = c :: (more ++ (decimalLiteral n unit).unitText) := by
    change Nat.toDigits 10 n ++ _ = _
    rw [hcs]
    rfl
  have hnumber : lexNumber ((decimalLiteral n unit).text ++ rest) = _ :=
    lexNumber_decimal hn hrest
  obtain ⟨hblank, hsingle, hslash, hquote, hand, hor⟩ := plain_of_class hdigit (by decide)
  rw [htext] at hnumber ⊢
  refine lex_cons hblank (fun h => absurd h hslash) ?_
  rw [nextToken_plain ⟨hand, hor, hsingle⟩]
  unfold nextSingle
  rw [hsingle]
  dsimp only
  rw [if_neg hquote, if_pos hdigit]
  exact hnumber

/-! ### Strings -/

/-- The text of a string between its quotes, with quotes and backslashes escaped. -/
def escape (cs : List Char) : List Char := cs.flatMap fun
  | '"' => ['\\', '"']
  | '\\' => ['\\', '\\']
  | c => [c]

theorem escape_cons (c : Char) (cs : List Char) : escape (c :: cs) =
    (if c = '"' ∨ c = '\\' then ['\\', c] else [c]) ++ escape cs := by
  unfold escape
  rw [List.flatMap_cons]
  congr 1
  split <;> simp_all

/-- A string that was escaped is read back. -/
theorem lexString_escape (width : ℕ) (out cs : List Char) :
    lexString width out (escape cs ++ '"' :: rest) = .ok (.string (.ofList (out ++ cs)), rest) := by
  induction cs generalizing width out with
  | nil =>
      rw [List.append_nil]
      rfl
  | cons c cs ih =>
      have hread : ∃ width', lexString width out (escape (c :: cs) ++ '"' :: rest) =
          lexString width' (out ++ [c]) (escape cs ++ '"' :: rest) := by
        rw [escape_cons]
        split
        · rename_i hc
          obtain rfl | rfl := hc <;> exact ⟨_, rfl⟩
        · rename_i hc
          rw [not_or] at hc
          refine ⟨width + c.utf8Size, ?_⟩
          change lexString width out (c :: (escape cs ++ '"' :: rest)) = _
          rw [lexString] <;> simp_all
      obtain ⟨width', hread⟩ := hread
      rw [hread, ih, ← List.append_cons]

theorem lex_string (s : String) (rest : List Char) :
    lex ('"' :: (escape s.toList ++ '"' :: rest)) = behind [.string s] (lex rest) := by
  have hstring : lexString 1 [] (escape s.toList ++ '"' :: rest) = _ :=
    lexString_escape 1 [] s.toList
  refine lex_cons (by decide) (fun h => absurd h (by decide)) ?_
  rw [nextToken_plain ⟨by decide, by decide, by decide⟩]
  change lexString 1 [] _ = _
  rw [hstring, List.nil_append, String.ofList_toList]

/-! ### The tokens of any text -/

/-- What the lexer makes of names and numbers. -/
def Lexed : Token → Prop
  | .ident s => IsWord s ∧ word s = .ident s
  | .int v => 0 ≤ v.toInt
  | .duration ms => 0 ≤ ms.toInt
  | _ => True

theorem isIdentContinue_start (h : isIdentStart c = true) : isIdentContinue c = true := by
  unfold isIdentStart at h
  unfold isIdentContinue Char.isAlphanum
  rw [Bool.or_eq_true] at h ⊢
  exact h.imp_left fun h => by rw [h, Bool.true_or]

theorem lexIdentOrKw_lexed {r : Token × List Char} (hstart : isIdentStart c = true)
    (h : lexIdentOrKw (c :: rest) = .ok r) : Lexed r.1 := by
  unfold lexIdentOrKw at h
  dsimp only at h
  split at h
  · cases h
  · split at h
    · cases h
    · rename_i hshort
      split at h
      · cases h
      · rename_i hfree
        cases h
        have hword : IsWord (.ofList ((c :: rest).takeWhile isIdentContinue)) := by
          rw [not_and, not_not] at hfree
          refine ⟨⟨c, rest.takeWhile isIdentContinue, ?_, hstart⟩, ?_, ?_, ?_⟩
          · rw [String.toList_ofList, List.takeWhile_cons_of_pos (isIdentContinue_start hstart)]
          · rw [String.toList_ofList]
            exact fun d hd => List.mem_takeWhile_imp hd
          · rw [String.toList_ofList]
            exact Nat.le_of_not_lt hshort
          · rw [String.toList_ofList]
            exact hfree
        dsimp only
        unfold word
        split
        · trivial
        · rename_i hkeyword
          refine ⟨hword, ?_⟩
          unfold word
          rw [hkeyword]

theorem lexUnit_lexed {value : Int64} {width : ℕ} {r : NumberToken × ℕ} (hv : 0 ≤ value.toInt)
    (h : lexUnit value width cs = .ok r) : Lexed (numberToken r.1) := by
  have hmul : ∀ b : Int64, 0 ≤ b.toInt → 0 ≤ (saturatingMul value b).toInt := by
    intro b hb
    unfold saturatingMul
    rw [toInt_ofIntClamp]
    have hprod := Int.mul_nonneg hv hb
    omega
  unfold lexUnit at h
  split at h
  · cases h
    exact hv
  · split at h <;> cases h
    · exact hv
    · exact hmul 1000 (by decide)
  · cases h
    exact hmul 60000 (by decide)
  · cases h
  · cases h
    exact hv

theorem lexNumber_lexed {r : Token × List Char} (h : lexNumber cs = .ok r) : Lexed r.1 := by
  obtain ⟨r', hr', rfl⟩ := map_eq_ok h
  unfold lexNumberOrDuration at hr'
  split at hr'
  split at hr'
  · cases hr'
  · split at hr'
    · cases hr'
    · rename_i value hvalue
      refine lexUnit_lexed ?_ hr'
      unfold i64FromStrRadix at hvalue
      dsimp only at hvalue
      split at hvalue
      · rename_i hrange
        cases hvalue
        rw [Int64.toInt_ofNat_of_lt hrange.2]
        exact Int.natCast_nonneg _
      · cases hvalue

theorem lexString_lexed {width : ℕ} {out : List Char} {r : Token × List Char}
    (h : lexString width out cs = .ok r) : Lexed r.1 := by
  fun_induction lexString width out cs generalizing r with
  | case2 => cases h; trivial
  | case6 _ _ _ _ _ _ _ ih => exact ih h
  | case8 _ _ _ _ _ _ _ _ _ ih => exact ih h
  | case10 _ _ _ _ _ _ _ _ _ _ ih => exact ih h
  | _ => cases h

theorem nextSingle_lexed {r : Token × List Char} (h : nextSingle c rest = .ok r) : Lexed r.1 := by
  unfold nextSingle at h
  split at h
  · rename_i t hsingle
    cases h
    unfold single at hsingle
    split at hsingle <;> cases hsingle <;> trivial
  · split at h
    · exact lexString_lexed h
    · split at h
      · exact lexNumber_lexed h
      · split at h
        · rename_i hstart
          exact lexIdentOrKw_lexed hstart h
        · cases h

theorem nextToken_lexed {r : Token × List Char} (h : nextToken cs = .ok r) : Lexed r.1 := by
  unfold nextToken at h
  split at h
  · cases h
    trivial
  · exact nextSingle_lexed h
  · split at h
    · rename_i t hdouble
      cases h
      unfold double at hdouble
      split at hdouble <;> cases hdouble <;> trivial
    · exact nextSingle_lexed h

/-- The tokens of an accepted text. -/
theorem lex_lexed (h : lex cs = .ok ts) : ∀ t ∈ ts, Lexed t := by
  have hwithin : ∀ n cs ts, lexWithin n cs = .ok ts → ∀ t ∈ ts, Lexed t := by
    intro n
    induction n with
    | zero =>
        rintro cs ts ⟨⟩
        exact fun _ => nofun
    | succ n ih =>
        intro cs ts h t ht
        unfold lexWithin at h
        split at h
        · cases h
        · cases h
          cases ht
        · split at h
          · cases h
          · rename_i htoken
            obtain ⟨ts', hts', rfl⟩ := map_eq_ok h
            obtain rfl | ht := List.mem_cons.mp ht
            · exact nextToken_lexed htoken
            · exact ih _ _ hts' t ht
  exact hwithin _ cs ts h

end Adgl.Lexer
