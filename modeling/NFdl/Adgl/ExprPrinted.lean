import NFdl.Adgl.Spelling

/-!
# The tokens of printed ADGL expressions

The text of an expression spells tokens that are computed from it, when its names are words
and its numbers are not negative, as in every expression that the parser makes.
-/

namespace Adgl

open Ast Lexer
open ExprParser (isNameKeyword)

namespace Ast.Expr

def children : Expr → List Expr
  | .int _ | .duration _ | .string _ | .ident _ | .bool _ | .present _ | .absent _ => []
  | .unary _ expr => [expr]
  | .binary _ left right => [left, right]
  | .field base _ => [base]
  | .call callee args => callee :: args
  | .index base idx => [base, idx]

/-- Something holds of an expression and of everything inside it. -/
inductive Everywhere (P : Expr → Prop) : Expr → Prop where
  | intro {e : Expr} (here : P e) (inside : ∀ c ∈ e.children, Everywhere P c) : Everywhere P e

end Ast.Expr

/-! ### Names -/

/-- A word that is no keyword. -/
def IsPlainWord (s : String) : Prop := IsWord s ∧ word s = .ident s

/-- A word that the parser takes as a name. -/
def IsName (s : String) : Prop := IsPlainWord s ∨ ∃ k : Keyword, isNameKeyword k = true ∧ s = k.text

theorem isWord_keyword (k : Keyword) : IsWord k.text := by
  cases k <;> exact ⟨⟨_, _, rfl, rfl⟩, List.all_eq_true.mp rfl, by decide, by decide⟩

theorem word_keyword (k : Keyword) : word k.text = .kw k := by
  unfold word
  rw [Keyword.ofText?_text]

theorem IsName.isWord {s : String} (h : IsName s) : IsWord s := by
  obtain h | ⟨k, -, rfl⟩ := h
  · exact h.1
  · exact isWord_keyword k

/-- A word is a token of its text. -/
theorem wordText_word (s : String) : RulesetParser.wordText (word s) = some s := by
  unfold word
  cases h : Keyword.ofText? s with
  | some k => exact congrArg some (Keyword.text_of_ofText? h)
  | none => rfl

/-! ### What the parser makes of names and numbers -/

def Ast.Expr.WrittenNode : Expr → Prop
  | .int v => 0 ≤ v.toInt
  | .duration ms => 0 ≤ ms.toInt
  | .ident s | .present s | .absent s | .field _ s => IsName s
  | _ => True

abbrev Ast.Expr.Written : Expr → Prop := Expr.Everywhere Expr.WrittenNode

namespace Fmt

/-! ### Tokens -/

def binopToken : BinaryOp → Token
  | .or => .kw .or
  | .and => .kw .and
  | .eq => .eqEq
  | .ne => .ne
  | .lt => .lt
  | .le => .le
  | .gt => .gt
  | .ge => .ge
  | .in_ => .kw .in_
  | .add => .plus
  | .sub => .minus
  | .mul => .star
  | .div => .slash
  | .rem => .percent

def wrapTokens (parentPrec : ℕ) (expr : Expr) (ts : List Token) : List Token :=
  if exprPrec expr < parentPrec then .lParen :: ts ++ [.rParen] else ts

mutual

/-- The tokens of an expression without parentheses around it. -/
def bareTokens : Expr → List Token
  | .int v => [.int v]
  | .duration ms => [.duration ms]
  | .string s => [.string s]
  | .ident name => [word name]
  | .bool b => [.kw (if b then .true else .false)]
  | .present name => [.kw .present, .lParen, word name, .rParen]
  | .absent name => [.kw .absent, .lParen, word name, .rParen]
  | .unary _ expr => .bang :: wrapTokens 13 expr (bareTokens expr)
  | .binary op left right =>
      wrapTokens (binopPrec op) left (bareTokens left) ++
        binopToken op :: wrapTokens (binopPrec op + 1) right (bareTokens right)
  | .field base name => wrapTokens 13 base (bareTokens base) ++ [.dot, word name]
  | .call callee args =>
      wrapTokens 13 callee (bareTokens callee) ++ .lParen :: itemTokens args ++ [.rParen]
  | .index base index =>
      wrapTokens 13 base (bareTokens base) ++ .lBracket :: wrapTokens 0 index (bareTokens index) ++
        [.rBracket]

def itemTokens : List Expr → List Token
  | [] => []
  | e :: es => wrapTokens 0 e (bareTokens e) ++ if es.isEmpty then [] else .comma :: itemTokens es

end

def exprTokens (expr : Expr) (parentPrec : ℕ) : List Token :=
  wrapTokens parentPrec expr (bareTokens expr)

/-! ### Numbers -/

theorem toInt_lt (v : Int64) : v.toInt < 2 ^ 63 := Int64.toInt_lt v

theorem emitInt_text {v : Int64} (h : 0 ≤ v.toInt) (unit : Option TimeUnit) :
    emitInt v ++ (unit.map TimeUnit.text).getD [] = (decimalLiteral v.toInt.toNat unit).text := by
  obtain ⟨n, hn⟩ := Int.eq_ofNat_of_zero_le h
  unfold emitInt
  rw [hn]
  rfl

theorem toNat_lt {v : Int64} (h : 0 ≤ v.toInt) : v.toInt.toNat < 2 ^ 63 := by
  have hlt := toInt_lt v
  omega

theorem ofNat_toNat {v : Int64} (h : 0 ≤ v.toInt) : Int64.ofNat v.toInt.toNat = v := by
  rw [← Int64.toInt_inj, Int64.toInt_ofNat_of_lt (toNat_lt h)]
  omega

theorem spells_int {v : Int64} (h : 0 ≤ v.toInt) : Spells true (emitInt v) [.int v] := by
  have hnumber : Spells true (decimalLiteral v.toInt.toNat none).text _ := .number (toNat_lt h)
  rw [← emitInt_text h none] at hnumber
  have htoken : numberToken ((decimalLiteral v.toInt.toNat none).token (.ofNat v.toInt.toNat)) =
      .int v := congrArg Token.int (ofNat_toNat h)
  rw [htoken] at hnumber
  simpa using hnumber

/-- A number of a unit that makes up a duration. -/
theorem spells_unit {ms q : Int64} (unit : TimeUnit) (hq : 0 ≤ q.toInt)
    (h : q.toInt * unit.millis = ms.toInt) :
    Spells true (emitInt q ++ unit.text) [.duration ms] := by
  have hnumber : Spells true (decimalLiteral q.toInt.toNat (some unit)).text _ :=
    .number (toNat_lt hq)
  rw [← emitInt_text hq (some unit)] at hnumber
  have hmillis : unit.millis < 2 ^ 63 := by cases unit <;> decide
  have htoken : numberToken ((decimalLiteral q.toInt.toNat (some unit)).token
      (.ofNat q.toInt.toNat)) = .duration ms := by
    refine congrArg Token.duration ?_
    have hlt := toInt_lt ms
    rw [ofNat_toNat hq, ← Int64.toInt_inj, toInt_saturatingMul hq hmillis, h]
    omega
  rw [htoken] at hnumber
  exact hnumber

/-- A duration that is a multiple of a unit. -/
theorem spells_multiple {ms q : Int64} (unit : TimeUnit) (h : 0 ≤ ms.toInt)
    (hq : q.toInt = unit.millis) (hmod : ms % q = 0) :
    Spells true (emitInt (ms / q) ++ unit.text) [.duration ms] := by
  have hpos : 0 < (unit.millis : ℤ) := by cases unit <;> decide
  have hmod : ms.toInt.tmod unit.millis = 0 := by
    have hzero := congrArg Int64.toInt hmod
    rwa [Int64.toInt_mod, hq] at hzero
  have hdiv : (ms / q).toInt = ms.toInt / unit.millis := by
    have hlt := toInt_lt ms
    have hle := Int.ediv_le_self unit.millis h
    have hnonneg := Int.ediv_nonneg h hpos.le
    rw [Int64.toInt_div, hq, Int.tdiv_eq_ediv_of_nonneg h]
    exact Int.bmod_eq_of_le (by omega) (by omega)
  refine spells_unit unit (by rw [hdiv]; exact Int.ediv_nonneg h hpos.le) ?_
  rw [hdiv]
  refine Int.ediv_mul_cancel (Int.dvd_of_emod_eq_zero ?_)
  rwa [Int.tmod_eq_emod_of_nonneg h] at hmod

theorem spells_duration {ms : Int64} (h : 0 ≤ ms.toInt) :
    Spells true (emitDuration ms) [.duration ms] := by
  unfold emitDuration
  split
  · rename_i hmin
    exact spells_multiple .min h (by decide) hmin.2
  · split
    · rename_i hs
      exact spells_multiple .s h (by decide) hs.2
    · exact spells_unit .ms h (Int.mul_one _)

/-! ### Texts -/

theorem spells_binop (op : BinaryOp) :
    Spells false (" ".toList ++ (binopStr op).toList ++ " ".toList) [binopToken op] := by
  cases op with
  | div => exact (Spells.blanks 1).append .slash
  | _ => exact .piece rfl rfl rfl

/-- A text that does not make another token of an operator in front of it. -/
def Operand (text : List Char) : Prop := ∃ c more, text = c :: more ∧ c ≠ '='

theorem Operand.append {text : List Char} (h : Operand text) (more : List Char) :
    Operand (text ++ more) := by
  obtain ⟨c, cs, rfl, hc⟩ := h
  exact ⟨c, cs ++ more, rfl, hc⟩

/-- A text that begins with a character of a word or a number. -/
theorem operand_of_continue {c : Char} {text : List Char} (hc : isIdentContinue c = true) :
    Operand (c :: text) := by
  refine ⟨c, text, rfl, ?_⟩
  rintro rfl
  exact absurd hc (by decide)

theorem operand_of_word {s : String} (h : IsWord s) : Operand s.toList := by
  obtain ⟨c, more, hs, hc⟩ := h.start
  rw [hs]
  exact operand_of_continue (isIdentContinue_start hc)

theorem operand_of_int {v : Int64} (h : 0 ≤ v.toInt) : Operand (emitInt v) := by
  obtain ⟨n, hn⟩ := Int.eq_ofNat_of_zero_le h
  obtain ⟨c, more, hcs⟩ :=
    List.exists_cons_of_ne_nil (Nat.toDigits_ne_nil : Nat.toDigits 10 n ≠ [])
  have htext : emitInt v = c :: more := by
    unfold emitInt
    rw [hn]
    exact hcs
  have hdigit : c.isDigit = true := isDigit_toDigits c (hcs ▸ List.mem_cons_self ..)
  rw [htext]
  refine ⟨c, more, rfl, ?_⟩
  rintro rfl
  exact absurd hdigit (by decide)

theorem toInt_div_nonneg {ms q : Int64} (h : 0 ≤ ms.toInt) (hq : 0 ≤ q.toInt) :
    0 ≤ (ms / q).toInt := by
  have hlt := toInt_lt ms
  have hle := Int.ediv_le_self q.toInt h
  have hnonneg := Int.ediv_nonneg h hq
  rw [Int64.toInt_div, Int.tdiv_eq_ediv_of_nonneg h, Int.bmod_eq_of_le (by omega) (by omega)]
  exact hnonneg

theorem operand_of_duration {ms : Int64} (h : 0 ≤ ms.toInt) : Operand (emitDuration ms) := by
  unfold emitDuration
  split
  · exact (operand_of_int (toInt_div_nonneg h (by decide))).append _
  · split
    · exact (operand_of_int (toInt_div_nonneg h (by decide))).append _
    · exact (operand_of_int h).append _

theorem binopPrec_le (op : BinaryOp) : binopPrec op ≤ 12 := by
  cases op <;> decide

variable {e : Expr} {es : List Expr}

theorem operand_tight (h : e.Written) : Operand (wrap 13 e (emitBare e)) := by
  induction h with
  | @intro e here inside ih =>
      unfold wrap
      split
      · exact ⟨'(', _, rfl, by decide⟩
      · rename_i hprec
        cases e with
        | int v => exact operand_of_int here
        | duration ms => exact operand_of_duration here
        | string s => exact ⟨'"', _, rfl, by decide⟩
        | ident s => exact operand_of_word here.isWord
        | bool b => cases b <;> exact operand_of_continue rfl
        | present s => exact ⟨'p', _, rfl, by decide⟩
        | absent s => exact ⟨'a', _, rfl, by decide⟩
        | unary op e => exact absurd (by decide : 12 < 13) hprec
        | binary op l r => exact absurd (Nat.lt_succ_of_le (binopPrec_le op)) hprec
        | field base name =>
            exact ((ih base (List.mem_cons_self ..)).append _).append _
        | call callee args =>
            exact (((ih callee (List.mem_cons_self ..)).append _).append _).append _
        | index base idx =>
            exact (((ih base (List.mem_cons_self ..)).append _).append _).append _

theorem spells_wrap (p : ℕ) (h : Spells true (emitBare e) (bareTokens e)) :
    Spells true (wrap p e (emitBare e)) (wrapTokens p e (bareTokens e)) := by
  unfold wrap wrapTokens
  split
  · have hopen : Spells false "(".toList [.lParen] := .piece rfl rfl rfl
    have hclose : Spells false ")".toList [.rParen] := .piece rfl rfl rfl
    exact .weaken ((hopen.append h).before hclose rfl)
  · exact h

theorem spells_items (h : ∀ e ∈ es, Spells true (emitBare e) (bareTokens e)) :
    Spells true (emitItems es) (itemTokens es) := by
  induction es with
  | nil => exact .weaken .nil
  | cons e es ih =>
      have hfirst := spells_wrap 0 (h e (List.mem_cons_self ..))
      have hmore := ih fun e' he' => h e' (List.mem_cons_of_mem _ he')
      unfold emitItems itemTokens
      split
      · rwa [List.append_nil, List.append_nil]
      · have hcomma : Spells false ", ".toList [.comma] := .piece rfl rfl rfl
        exact hfirst.before (hcomma.append hmore) rfl

/-- The text of an expression spells its tokens. -/
theorem spells_bare (h : e.Written) : Spells true (emitBare e) (bareTokens e) := by
  have hclose : Spells false ")".toList [.rParen] := .piece rfl rfl rfl
  induction h with
  | @intro e here inside ih =>
      cases e with
      | int v => exact spells_int here
      | duration ms => exact spells_duration here
      | string s => exact .weaken (.string s)
      | ident s => exact .word here.isWord
      | bool b =>
          cases b with
          | true => exact .word (isWord_keyword .true)
          | false => exact .word (isWord_keyword .false)
      | present s =>
          have hopen : Spells false "present(".toList [.kw .present, .lParen] := .piece rfl rfl rfl
          exact .weaken ((hopen.append (.word here.isWord)).before hclose rfl)
      | absent s =>
          have hopen : Spells false "absent(".toList [.kw .absent, .lParen] := .piece rfl rfl rfl
          exact .weaken ((hopen.append (.word here.isWord)).before hclose rfl)
      | unary op e =>
          have he : e ∈ (Expr.unary op e).children := List.mem_singleton_self _
          have hoperand := spells_wrap 13 (ih e he)
          obtain ⟨c, more, hcs, hc⟩ := operand_tight (inside e he)
          cases op
          unfold emitBare bareTokens
          rw [hcs] at hoperand ⊢
          exact hoperand.bang hc
      | binary op left right =>
          have hleft := spells_wrap (binopPrec op) (ih left (List.mem_cons_self ..))
          have hright := spells_wrap (binopPrec op + 1)
            (ih right (List.mem_cons_of_mem _ (List.mem_singleton_self _)))
          have hall := (hleft.before (spells_binop op) rfl).append hright
          rw [List.append_assoc (wrapTokens _ _ _)] at hall
          unfold emitBare bareTokens
          exact hall
      | field base name =>
          have hbase := spells_wrap 13 (ih base (List.mem_singleton_self _))
          have hdot : Spells false ".".toList [.dot] := .piece rfl rfl rfl
          have hall := (hbase.before hdot rfl).append (.word here.isWord)
          rw [List.append_assoc (wrapTokens _ _ _)] at hall
          exact hall
      | call callee args =>
          have hcallee := spells_wrap 13 (ih callee (List.mem_cons_self ..))
          have hitems := spells_items fun e he => ih e (List.mem_cons_of_mem _ he)
          have hopen : Spells false "(".toList [.lParen] := .piece rfl rfl rfl
          have hall := ((hcallee.before hopen rfl).append hitems).before hclose rfl
          rw [List.append_assoc (wrapTokens _ _ _)] at hall
          exact .weaken hall
      | index base idx =>
          have hbase := spells_wrap 13 (ih base (List.mem_cons_self ..))
          have hidx := spells_wrap 0 (ih idx (List.mem_cons_of_mem _ (List.mem_singleton_self _)))
          have hopen : Spells false "[".toList [.lBracket] := .piece rfl rfl rfl
          have hend : Spells false "]".toList [.rBracket] := .piece rfl rfl rfl
          have hall := ((hbase.before hopen rfl).append hidx).before hend rfl
          rw [List.append_assoc (wrapTokens _ _ _)] at hall
          exact .weaken hall

theorem spells_expr (p : ℕ) (h : e.Written) : Spells true (emitExpr e p) (exprTokens e p) :=
  spells_wrap p (spells_bare h)

end Fmt

end Adgl
