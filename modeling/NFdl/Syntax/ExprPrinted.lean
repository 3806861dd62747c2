import NFdl.Syntax.ExprFormat
import NFdl.Syntax.Lexemes

/-!
# The tokens of printed expressions

The lexer gives for the text of an expression the tokens that were computed from it, when
its names are words, its numbers are not negative and its strings are without quotes.
-/

namespace NFdl.Fmt

open Lexer (Lexes Breaks breaks_cons breaks_nil tokens IsIdent IsWord)

variable {cs text : List Char} {ts : List Token} {e : Expr}

/-- What the parser makes of names, numbers, operators and tuples. -/
def PrintableNode : Expr → Prop
  | .ident s => IsIdent s ∧ s ≠ "true" ∧ s ≠ "false"
  | .int v => 0 ≤ v.toInt
  | .str s => '"' ∉ s.toList
  | .binary op _ _ => op ≠ .add
  | .call name _ => IsIdent name ∧ name ≠ "true" ∧ name ≠ "false"
  | .tuple items => 2 ≤ items.length
  | .field _ name => IsIdent name
  | _ => True

abbrev Printable : Expr → Prop := Expr.Everywhere PrintableNode

/-! ### Punctuation -/

/-- A character that is a token by itself, whatever comes behind it. -/
theorem lexes_single {c : Char} {t : Token}
    (hplain : (c == ' ' || c == '\t' || c == '\n' || c == '\r' || c == '/' ||
      Lexer.isIdentStart c || c.isDigit || c == '"') = false)
    (htoken : ∀ rest, Breaks rest → Lexer.punctuation c (cs ++ rest) = (t, cs ++ rest))
    (h : Lexes cs ts) : Lexes (c :: cs) (t :: ts) := by
  intro rest hrest
  simp only [Bool.or_eq_false_iff, beq_eq_false_iff_ne] at hplain
  obtain ⟨⟨⟨⟨⟨⟨⟨hspace, htab⟩, hnewline⟩, hreturn⟩, hslash⟩, hstart⟩, hdigit⟩, hquote⟩ := hplain
  rw [List.cons_append, Lexer.tokens_punctuation, htoken rest hrest, h rest hrest]
  · rfl
  · rintro (h | h | h | h) <;> contradiction
  · exact fun h => absurd h hslash
  · rw [hstart, hdigit, decide_eq_false hquote]
    rfl

theorem lexes_lParen (h : Lexes cs ts) : Lexes ('(' :: cs) (.lParen :: ts) :=
  lexes_single rfl (fun _ _ => rfl) h

theorem lexes_rParen (h : Lexes cs ts) : Lexes (')' :: cs) (.rParen :: ts) :=
  lexes_single rfl (fun _ _ => rfl) h

theorem lexes_comma (h : Lexes cs ts) : Lexes (',' :: cs) (.comma :: ts) :=
  lexes_single rfl (fun _ _ => rfl) h

theorem lexes_dot (h : Lexes cs ts) : Lexes ('.' :: cs) (.dot :: ts) :=
  lexes_single rfl (fun _ _ => rfl) h

/-- A binary operator and a space. -/
theorem lexes_binop (op : BinOp) (h : Lexes cs ts) :
    Lexes (binopStr op ++ ' ' :: cs) (binopTokens op ++ ts) := by
  intro rest hrest
  have hcs : tokens (' ' :: (cs ++ rest)) = ts ++ tokens rest := by
    rw [Lexer.tokens_space, h rest hrest]
  cases op
  case eq =>
    change tokens ('=' :: '=' :: ' ' :: (cs ++ rest)) = _
    rw [Lexer.tokens_punctuation (by decide) (fun h => absurd h (by decide)) (by decide)]
    change _ :: tokens ('=' :: ' ' :: (cs ++ rest)) = _
    rw [Lexer.tokens_punctuation (by decide) (fun h => absurd h (by decide)) (by decide)]
    change _ :: _ :: tokens (' ' :: (cs ++ rest)) = _
    rw [hcs]
    rfl
  all_goals
    change tokens (_ :: _) = _
    rw [Lexer.tokens_punctuation (by decide) (fun _ => by simp) (by decide)]
    change _ :: tokens (' ' :: (cs ++ rest)) = _
    rw [hcs]
    rfl

theorem lexes_question (h : Lexes cs ts) : Lexes ('?' :: ' ' :: cs) (.question :: ts) :=
  lexes_single rfl (fun _ _ => rfl) h.space

theorem lexes_colon (h : Lexes cs ts) : Lexes (':' :: cs) (.colon :: ts) :=
  lexes_single rfl (fun _ _ => rfl) h

theorem lexes_coalesce (h : Lexes cs ts) : Lexes ('?' :: '?' :: cs) (.coalesce :: ts) := by
  intro rest hrest
  change tokens ('?' :: '?' :: (cs ++ rest)) = _
  rw [Lexer.tokens_punctuation (by decide) (fun h => absurd h (by decide)) (by decide)]
  change _ :: tokens (cs ++ rest) = _
  rw [h rest hrest]
  rfl

/-! ### Operands -/

theorem binopPrec_bounds (op : BinOp) : 3 ≤ binopPrec op ∧ binopPrec op ≤ 12 := by
  cases op <;> decide

/-- A text that does not make another token of an operator in front of it. -/
def Operand (text : List Char) : Prop := ∃ c more, text = c :: more ∧ c ≠ '>' ∧ c ≠ '='

theorem operand_of_word (h : IsWord cs) : Operand (cs ++ text) := by
  obtain ⟨c, more, rfl, hstart, -⟩ := h
  refine ⟨c, more ++ text, rfl, ?_, ?_⟩
  · rintro rfl
    exact absurd hstart (by decide)
  · rintro rfl
    exact absurd hstart (by decide)

/-- An operand of a unary operator or a field begins with a word, a number, a string or a
parenthesis. -/
theorem emit_operand (h : Printable e) : Operand (wrap 13 e (emitBare e)) := by
  induction h with
  | @intro e here _ ih =>
      have hparen : ∀ text : List Char, Operand ('(' :: text ++ [')']) :=
        fun text => ⟨'(', text ++ [')'], rfl, by decide, by decide⟩
      unfold wrap
      split
      · exact hparen _
      · rename_i hprec
        cases e with
        | ident s =>
            have hword := @operand_of_word _ [] here.1.1
            rwa [List.append_nil] at hword
        | int v =>
            obtain ⟨n, hn⟩ := Int.eq_ofNat_of_zero_le here
            obtain ⟨c, more, hcs⟩ :=
              List.exists_cons_of_ne_nil (Nat.toDigits_ne_nil : Nat.toDigits 10 n ≠ [])
            have hdigit : c.isDigit = true :=
              Nat.isDigit_of_mem_toDigits (by decide) (by decide) (hcs ▸ List.mem_cons_self ..)
            refine ⟨c, more, ?_, ?_, ?_⟩
            · rw [← hcs, emitBare, hn]
              rfl
            · rintro rfl
              exact absurd hdigit (by decide)
            · rintro rfl
              exact absurd hdigit (by decide)
        | str s => exact ⟨'"', _, rfl, by decide, by decide⟩
        | binary op left right =>
            exact absurd (Nat.lt_succ_of_le (binopPrec_bounds op).2) hprec
        | unary op e => exact absurd (by decide : 12 < 13) hprec
        | ternary c t f => exact absurd (by decide : 1 < 13) hprec
        | coalesce v d => exact absurd (by decide : 2 < 13) hprec
        | call name args =>
            have hword := @operand_of_word _ ('(' :: emitItems args ++ [')']) here.1.1
            rwa [← List.append_assoc] at hword
        | tuple items => exact ⟨'(', _, rfl, by decide, by decide⟩
        | field base name =>
            obtain ⟨c, more, hcs, hc⟩ := ih base (List.mem_singleton_self _)
            refine ⟨c, more ++ '.' :: name.toList, ?_, hc⟩
            rw [emitBare, hcs]
            rfl

theorem lexes_unary (op : UnaryOp) (hcs : Operand cs) (h : Lexes cs ts) :
    Lexes (unaryStr op :: cs) (unaryToken op :: ts) := by
  obtain ⟨c, more, rfl, hgt, heq⟩ := hcs
  cases op with
  | not =>
      refine lexes_single rfl (fun rest _ => ?_) h
      change Lexer.punctuation '!' (c :: (more ++ rest)) = (.bang, c :: (more ++ rest))
      unfold Lexer.punctuation
      split <;> simp_all
  | bitNot => exact lexes_single rfl (fun _ _ => rfl) h
  | neg =>
      refine lexes_single rfl (fun rest _ => ?_) h
      change Lexer.punctuation '-' (c :: (more ++ rest)) = (.minus, c :: (more ++ rest))
      unfold Lexer.punctuation
      split <;> simp_all

/-! ### Expressions -/

theorem lexes_wrap (p : ℕ) (h : Lexes (emitBare e) (bareTokens e)) :
    Lexes (wrap p e (emitBare e)) (wrapTokens p e (bareTokens e)) := by
  unfold wrap wrapTokens
  split
  · exact lexes_lParen (h.append (lexes_rParen .nil) fun _ _ => breaks_cons rfl)
  · exact h

theorem lexes_items {es : List Expr} (h : ∀ e ∈ es, Lexes (emitBare e) (bareTokens e)) :
    Lexes (emitItems es) (itemTokens es) := by
  induction es with
  | nil => exact .nil
  | cons e es ih =>
      have hfirst := lexes_wrap 0 (h e (List.mem_cons_self ..))
      have hmore := ih fun e' he' => h e' (List.mem_cons_of_mem _ he')
      unfold emitItems itemTokens
      split
      · rwa [List.append_nil, List.append_nil]
      · exact hfirst.append (lexes_comma hmore.space) fun _ _ => breaks_cons rfl

theorem escape_noQuote {s : String} (h : '"' ∉ s.toList) : '"' ∉ escape s.toList := by
  intro hmem
  obtain ⟨c, hc, hmem⟩ := List.mem_flatMap.mp hmem
  split at hmem
  · exact h hc
  · simp at hmem
  · exact h (List.mem_singleton.mp hmem ▸ hc)

/-- The lexer gives the computed tokens of a printed expression. -/
theorem lexes_bare (h : Printable e) : Lexes (emitBare e) (bareTokens e) := by
  induction h with
  | @intro e here inside ih =>
      cases e with
      | ident s => exact .word here.1
      | int v => exact .decimal here
      | str s => exact .string (escape_noQuote here)
      | unary op e =>
          have he : e ∈ (Expr.unary op e).children := List.mem_singleton_self _
          exact lexes_unary op (emit_operand (inside e he)) (lexes_wrap 13 (ih e he))
      | binary op left right =>
          have hleft := lexes_wrap (binopPrec op) (ih left (List.mem_cons_self ..))
          have hright := lexes_wrap (binopPrec op + 1)
            (ih right (List.mem_cons_of_mem _ (List.mem_singleton_self _)))
          have hop := (lexes_binop op hright).space
          unfold emitBare bareTokens
          rw [List.append_assoc, List.append_assoc]
          exact hleft.append hop fun _ _ => breaks_cons rfl
      | ternary cond thenBranch elseBranch =>
          have hcond := lexes_wrap 2 (ih cond (List.mem_cons_self ..))
          have hthen := lexes_wrap 1 (ih thenBranch (by simp [Expr.children]))
          have helse := lexes_wrap 1 (ih elseBranch (by simp [Expr.children]))
          have hcolon := hthen.append (lexes_colon helse.space).space fun _ _ => breaks_cons rfl
          have hall := hcond.append (lexes_question hcolon).space fun _ _ => breaks_cons rfl
          unfold emitBare bareTokens
          simpa only [List.append_assoc, List.cons_append, List.nil_append] using hall
      | coalesce value default =>
          have hvalue := lexes_wrap 3 (ih value (List.mem_cons_self ..))
          have hdefault := lexes_wrap 2 (ih default (by simp [Expr.children]))
          have hall := hvalue.append (lexes_coalesce hdefault.space).space fun _ _ => breaks_cons rfl
          unfold emitBare bareTokens
          simpa only [List.append_assoc, List.cons_append, List.nil_append] using hall
      | call name args =>
          have hitems : Lexes (emitItems args) (itemTokens args) := lexes_items ih
          have hargs := hitems.append (lexes_rParen .nil) fun _ _ => breaks_cons rfl
          have hall := (Lexes.word here.1).append (lexes_lParen hargs) fun _ _ => breaks_cons rfl
          unfold emitBare bareTokens
          simpa only [List.append_assoc, List.cons_append, List.nil_append] using hall
      | tuple items =>
          exact lexes_lParen ((lexes_items ih).append (lexes_rParen .nil) fun _ _ => breaks_cons rfl)
      | field base name =>
          have hbase := lexes_wrap 13 (ih base (List.mem_singleton_self _))
          exact hbase.append (lexes_dot (.word here)) fun _ _ => breaks_cons rfl

theorem lexes_expr (p : ℕ) (h : Printable e) : Lexes (emitExpr e p) (exprTokens e p) :=
  lexes_wrap p (lexes_bare h)

end NFdl.Fmt
