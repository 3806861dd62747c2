import NFdl.Verify.Intervals
import NFdl.Syntax.Lexemes

/-!
# Rendered expressions

What the text of an expression says about the expression: how it begins and ends, when
it is a numeral or a name, and where its first sign and its first `%` stand.
-/

namespace NFdl

open Text
open Lexer (isIdentStart isIdentPart isDigit_identPart)

attribute [local simp] exprToString

/-! ### Names -/

/-- That a name is one that the lexer reads as an identifier. -/
def Identifier (name : String) : Prop :=
  ∃ c cs, name.toList = c :: cs ∧ isIdentStart c = true ∧ ∀ c ∈ cs, isIdentPart c = true

/-- That the names of an expression are identifiers, outside of parentheses. -/
def Expr.Spelled : Expr → Prop
  | .ident name => Identifier name
  | .binary _ left right => left.Spelled ∧ right.Spelled
  | .unary _ expr => expr.Spelled
  | .call name _ => Identifier name
  | .field base name => base.Spelled ∧ Identifier name
  | _ => True

theorem isIdentPart_of_start {c : Char} (h : isIdentStart c = true) : isIdentPart c = true := by
  unfold isIdentStart at h
  unfold isIdentPart Char.isAlphanum
  simp only [Bool.or_eq_true] at h ⊢
  tauto

theorem isWhitespace_of_part {c : Char} (h : isIdentPart c = true) : isWhitespace c = false := by
  refine Bool.eq_false_iff.mpr fun hwhite => ?_
  unfold isIdentPart Char.isAlphanum Char.isAlpha Char.isUpper Char.isLower Char.isDigit at h
  unfold isWhitespace at hwhite
  simp only [Bool.or_eq_true, Bool.and_eq_true, decide_eq_true_eq, Char.le_def,
    UInt32.le_iff_toNat_le, Char.ext_iff, ← UInt32.toNat_inj, ge_iff_le] at h hwhite
  simp at h hwhite
  omega

theorem not_isDigit_of_start {c : Char} (h : isIdentStart c = true) : c.isDigit = false := by
  refine Bool.eq_false_iff.mpr fun hdigit => ?_
  unfold isIdentStart Char.isAlpha Char.isUpper Char.isLower at h
  unfold Char.isDigit at hdigit
  simp only [Bool.or_eq_true, Bool.and_eq_true, decide_eq_true_eq, UInt32.le_iff_toNat_le,
    Char.ext_iff, ← UInt32.toNat_inj, ge_iff_le] at h hdigit
  simp at h hdigit
  omega

theorem not_isNumeric_of_start {c : Char} (h : isIdentStart c = true) : ¬ IsNumeric c := by
  rintro (hdigit | rfl | rfl)
  · rw [not_isDigit_of_start h] at hdigit
    cases hdigit
  · cases h
  · cases h

theorem Identifier.ne_nil {name : String} (h : Identifier name) : name.toList ≠ [] := by
  obtain ⟨c, cs, hname, -, -⟩ := h
  rw [hname]
  exact List.cons_ne_nil c cs

theorem Identifier.parts {name : String} (h : Identifier name) :
    ∀ c ∈ name.toList, isIdentPart c = true := by
  obtain ⟨c, cs, hname, hstart, hparts⟩ := h
  rw [hname]
  intro c' hc'
  obtain rfl | hc' := List.mem_cons.mp hc'
  · exact isIdentPart_of_start hstart
  · exact hparts c' hc'

theorem Identifier.notMem {name : String} (h : Identifier name) {c : Char}
    (hc : isIdentPart c = false) : c ∉ name.toList := by
  intro hmem
  rw [h.parts c hmem] at hc
  cases hc

/-! ### Rendered expressions -/

/-- The characters with which a rendered expression can end. -/
def IsEnd (c : Char) : Prop := isIdentPart c = true ∨ c = '"' ∨ c = ')'

theorem IsEnd.not_whitespace {c : Char} (h : IsEnd c) : isWhitespace c = false := by
  obtain h | rfl | rfl := h
  · exact isWhitespace_of_part h
  · decide
  · decide

theorem isDigit_decimal {i : ℤ} {c : Char} (hc : c ∈ decimal i) : c.isDigit = true ∨ c = '-' := by
  cases i with
  | ofNat n => exact .inl (Nat.isDigit_of_mem_toDigits (by decide) (by decide) hc)
  | negSucc n =>
      obtain rfl | hc := List.mem_cons.mp hc
      · exact .inr rfl
      · exact .inl (Nat.isDigit_of_mem_toDigits (by decide) (by decide) hc)

theorem exists_concat {P : Char → Prop} {cs : List Char} (hne : cs ≠ []) (hall : ∀ c ∈ cs, P c) :
    ∃ front last, cs = front ++ [last] ∧ P last :=
  ⟨cs.dropLast, cs.getLast hne, (List.dropLast_append_getLast hne).symm,
    hall _ (List.getLast_mem hne)⟩

theorem Identifier.ends {name : String} (h : Identifier name) :
    ∃ front last, name.toList = front ++ [last] ∧ IsEnd last :=
  exists_concat h.ne_nil fun c hc => .inl (h.parts c hc)

theorem decimal_ends (i : ℤ) : ∃ front last, decimal i = front ++ [last] ∧ IsEnd last := by
  have hdigits : ∀ n : ℕ, ∃ front last, Nat.toDigits 10 n = front ++ [last] ∧ IsEnd last :=
    fun n => exists_concat Nat.toDigits_ne_nil fun c hc => .inl (isDigit_identPart
      (Nat.isDigit_of_mem_toDigits (by decide) (by decide) hc))
  cases i with
  | ofNat n => exact hdigits n
  | negSucc n =>
      obtain ⟨front, last, htext, hend⟩ := hdigits (n + 1)
      exact ⟨'-' :: front, last, congrArg ('-' :: ·) htext, hend⟩

theorem exprToString_ends {e : Expr} (h : e.Spelled) :
    ∃ front last, exprToString e = front ++ [last] ∧ IsEnd last := by
  induction e with
  | ident name => exact Identifier.ends h
  | int v => exact decimal_ends v.toInt
  | str s => exact ⟨'"' :: s.toList, '"', rfl, .inr (.inl rfl)⟩
  | binary op left right ihl ihr =>
      obtain ⟨front, last, htext, hend⟩ := ihr h.2
      exact ⟨exprToString left ++ ' ' :: binopStr op ++ ' ' :: front, last,
        by simp [htext], hend⟩
  | unary op expr ih =>
      obtain ⟨front, last, htext, hend⟩ := ih h
      exact ⟨unaryopStr op :: front, last, by simp [htext], hend⟩
  | ternary cond thenBranch elseBranch =>
      exact ⟨_, ')', rfl, .inr (.inr rfl)⟩
  | coalesce value default => exact ⟨_, ')', rfl, .inr (.inr rfl)⟩
  | call name args =>
      exact ⟨name.toList ++ '(' :: exprsToString args, ')', by simp,
        .inr (.inr rfl)⟩
  | tuple elems => exact ⟨_, ')', rfl, .inr (.inr rfl)⟩
  | field base name ih =>
      obtain ⟨front, last, htext, hend⟩ := Identifier.ends h.2
      exact ⟨exprToString base ++ '.' :: front, last, by simp [htext], hend⟩

theorem exprToString_begins {e : Expr} (h : e.Spelled) :
    ∃ first rest, exprToString e = first :: rest ∧ isWhitespace first = false := by
  induction e with
  | ident name =>
      obtain ⟨c, cs, hname, hstart, -⟩ := h
      exact ⟨c, cs, hname, isWhitespace_of_part (isIdentPart_of_start hstart)⟩
  | int v =>
      have hne : decimal v.toInt ≠ [] := by
        obtain ⟨front, last, htext, -⟩ := decimal_ends v.toInt
        rw [htext]
        exact List.append_ne_nil_of_right_ne_nil _ (List.cons_ne_nil last [])
      obtain ⟨c, cs, htext⟩ := List.exists_cons_of_ne_nil hne
      refine ⟨c, cs, htext, ?_⟩
      obtain hdigit | rfl := isDigit_decimal (htext ▸ List.mem_cons_self ..)
      · exact isWhitespace_of_part (isDigit_identPart hdigit)
      · decide
  | str s => exact ⟨'"', _, rfl, by decide⟩
  | binary op left right ihl ihr =>
      obtain ⟨first, rest, htext, hfirst⟩ := ihl h.1
      exact ⟨first, rest ++ ' ' :: binopStr op ++ ' ' :: exprToString right,
        by simp [htext], hfirst⟩
  | unary op expr ih => exact ⟨unaryopStr op, _, rfl, by cases op <;> decide⟩
  | ternary cond thenBranch elseBranch => exact ⟨'(', _, rfl, by decide⟩
  | coalesce value default => exact ⟨'(', _, rfl, by decide⟩
  | call name args =>
      obtain ⟨c, cs, hname, hstart, -⟩ := h
      exact ⟨c, cs ++ '(' :: exprsToString args ++ [')'], by simp [hname],
        isWhitespace_of_part (isIdentPart_of_start hstart)⟩
  | tuple elems => exact ⟨'(', _, rfl, by decide⟩
  | field base name ih =>
      obtain ⟨first, rest, htext, hfirst⟩ := ih h.1
      exact ⟨first, rest ++ '.' :: name.toList, by simp [htext], hfirst⟩

@[simp] theorem trim_exprToString {e : Expr} (h : e.Spelled) :
    trim (exprToString e) = exprToString e := by
  obtain ⟨first, rest, hfirst, hbegins⟩ := exprToString_begins h
  obtain ⟨front, last, hlast, hend⟩ := exprToString_ends h
  refine trim_eq_self (fun c hc => ?_) fun c hc => ?_
  · rw [hfirst] at hc
    cases hc
    exact hbegins
  · rw [hlast, List.getLast?_concat] at hc
    cases hc
    exact hend.not_whitespace

/-! ### Literals -/

variable {values : String → ℤ}

/-- What is rendered as a numeral is a literal or a negation. -/
theorem numeric_cases {e : Expr} (h : e.Spelled) (hall : ∀ c ∈ exprToString e, IsNumeric c) :
    (∃ v, e = .int v) ∨ ∃ e', e = .unary .neg e' := by
  have hno : ∀ c, ¬ IsNumeric c → c ∉ exprToString e := fun c hc hmem => hc (hall c hmem)
  cases e with
  | int v => exact .inl ⟨v, rfl⟩
  | ident name =>
      obtain ⟨c, cs, hname, hstart, -⟩ := h
      exact absurd (by simp [hname]) (hno c (not_isNumeric_of_start hstart))
  | str s => exact absurd (by simp) (hno '"' (by simp [IsNumeric]))
  | binary op left right =>
      exact absurd (by simp) (hno ' ' (by simp [IsNumeric]))
  | unary op expr =>
      cases op with
      | neg => exact .inr ⟨expr, rfl⟩
      | not => exact absurd (by simp [unaryopStr]) (hno '!' (by simp [IsNumeric]))
      | bitNot => exact absurd (by simp [unaryopStr]) (hno '~' (by simp [IsNumeric]))
  | ternary cond thenBranch elseBranch =>
      exact absurd (by simp) (hno '(' (by simp [IsNumeric]))
  | coalesce value default =>
      exact absurd (by simp) (hno '(' (by simp [IsNumeric]))
  | call name args => exact absurd (by simp) (hno '(' (by simp [IsNumeric]))
  | tuple elems => exact absurd (by simp) (hno '(' (by simp [IsNumeric]))
  | field base name => exact absurd (by simp) (hno '.' (by simp [IsNumeric]))

/-- An unsigned numeral is a literal. -/
theorem intValue_of_parseNat {e : Expr} {n : ℕ} (h : e.Spelled)
    (hparse : parseNat (exprToString e) = some n) : intValue values e = n := by
  obtain ⟨-, hdigits, -⟩ := parseNat_eq_some hparse
  have hminus : '-' ∉ exprToString e := fun hmem => absurd (hdigits '-' hmem) (by decide)
  obtain ⟨v, rfl⟩ | ⟨e', rfl⟩ := numeric_cases h fun c hc => .inl (hdigits c hc)
  · change v.toInt = n
    rw [exprToString] at hparse hminus
    cases hv : v.toInt with
    | ofNat m =>
        rw [hv] at hparse
        rw [Option.some.inj ((parseNat_toDigits m).symm.trans hparse)]
        rfl
    | negSucc m =>
        rw [hv] at hminus
        exact absurd (List.mem_cons_self ..) hminus
  · exact absurd (List.mem_cons_self ..) hminus

/-- A numeral with or without a sign has the value that it spells. -/
theorem intValue_of_parseInt64 {e : Expr} {c : ℤ} (h : e.Spelled)
    (hparse : parseInt64 (exprToString e) = some c) : intValue values e = c := by
  obtain ⟨v, rfl⟩ | ⟨e', rfl⟩ := numeric_cases h (isNumeric_of_parseInt64 hparse)
  · have hdecimal : parseInt64 (decimal v.toInt) = some v.toInt :=
      parseInt64_decimal (Int64.le_toInt v) (Int64.toInt_lt v)
    exact Option.some.inj (hdecimal.symm.trans hparse)
  · obtain ⟨n, hn, rfl⟩ := parseInt64_minus hparse
    have hoperand : e'.Spelled := h
    change -intValue values e' = -(n : ℤ)
    rw [intValue_of_parseNat hoperand hn]

/-! ### Names of fields -/

/-- What is rendered as an identifier is that name. -/
theorem eq_ident_of_parts {e : Expr} (h : e.Spelled) {name : String} (hname : Identifier name)
    (htext : exprToString e = name.toList) : e = .ident name := by
  have hno : ∀ c, isIdentPart c = false → c ∉ exprToString e := by
    intro c hc hmem
    rw [htext] at hmem
    rw [hname.parts c hmem] at hc
    cases hc
  cases e with
  | ident name' =>
      rw [exprToString] at htext
      rw [String.toList_inj.mp htext]
  | int v =>
      obtain ⟨c, cs, hcons, hstart, -⟩ := hname
      rw [exprToString, hcons] at htext
      obtain hdigit | rfl := isDigit_decimal (htext ▸ List.mem_cons_self ..)
      · rw [not_isDigit_of_start hstart] at hdigit
        cases hdigit
      · cases hstart
  | str s => exact absurd (by simp) (hno '"' (by decide))
  | binary op left right => exact absurd (by simp) (hno ' ' (by decide))
  | unary op expr =>
      exact absurd (by simp) (hno (unaryopStr op) (by cases op <;> decide))
  | ternary cond thenBranch elseBranch =>
      exact absurd (by simp) (hno '(' (by decide))
  | coalesce value default => exact absurd (by simp) (hno '(' (by decide))
  | call name args => exact absurd (by simp) (hno '(' (by decide))
  | tuple elems => exact absurd (by simp) (hno '(' (by decide))
  | field base name => exact absurd (by simp) (hno '.' (by decide))

/-! ### Splits -/

/-- The first character of an operator, which is its only one for a sign. -/
theorem binopStr_cases {sign : Char} {op : BinOp} (hsign : sign = '-' ∧ op = .sub ∨
    sign = '+' ∧ op = .add) (op' : BinOp) :
    ∃ s rest, binopStr op' = s :: rest ∧ isWhitespace s = false ∧ isIdentPart s = false ∧
      (s = sign → op' = op ∧ rest = []) := by
  obtain ⟨rfl, rfl⟩ | ⟨rfl, rfl⟩ := hsign
  · cases op' <;> exact ⟨_, _, rfl, by decide, by decide, by decide⟩
  · cases op' <;> exact ⟨_, _, rfl, by decide, by decide, by decide⟩

/-- Before a numeral the first sign is not in the left operand: the operand does not end with a
sign, so the numeral would contain the space after it. -/
theorem sign_notMem_left {sign : Char} (hsign : ¬ IsEnd sign) {op : BinOp} {l r : Expr}
    (hl : l.Spelled) (hr : r.Spelled) {before after : List Char}
    (hsplit : splitFirst sign (exprToString (.binary op l r)) = some (before, after)) {c : ℤ}
    (hafter : parseInt64 (trim after) = some c) : sign ∉ exprToString l := by
  intro hmem
  rw [exprToString, List.append_assoc] at hsplit
  obtain ⟨before', after', hleft, hsplit'⟩ := splitFirst_append_of_mem hmem
    (' ' :: binopStr op ++ ' ' :: exprToString r)
  cases hsplit'.symm.trans hsplit
  obtain ⟨front, last, hlast, hend⟩ := exprToString_ends hl
  obtain ⟨first, rest, hright, hbegins⟩ := exprToString_begins hr
  have hlastMem : last ∈ after' := by
    obtain rfl | ⟨after'', d, rfl⟩ := List.eq_nil_or_concat after'
    · rw [hlast] at hleft
      obtain ⟨-, heq⟩ := List.append_inj' hleft rfl
      cases heq
      exact absurd hend hsign
    · rw [hlast, List.concat_eq_append, ← List.cons_append, ← List.append_assoc] at hleft
      obtain ⟨-, heq⟩ := List.append_inj' hleft rfl
      cases heq
      simp
  have hspace : ' ' ∈ trim (after' ++ ' ' :: (binopStr op ++ ' ' :: exprToString r)) :=
    mem_trim_between hlastMem hend.not_whitespace
      (List.mem_append_right _ (List.mem_cons_of_mem _ (hright ▸ List.mem_cons_self ..)))
      hbegins
  exact absurd (isNumeric_of_parseInt64 hafter ' ' hspace) (by simp [IsNumeric])

section Sign

variable {sign : Char} {op : BinOp} (hsign : sign = '-' ∧ op = .sub ∨ sign = '+' ∧ op = .add)
  {before after : List Char}
include hsign

theorem sign_notMem_identifier {name : String} (h : Identifier name) : sign ∉ name.toList := by
  refine h.notMem ?_
  obtain ⟨rfl, -⟩ | ⟨rfl, -⟩ := hsign <;> decide

/-- The first sign in a call stands behind its parenthesis. -/
theorem paren_mem_before {name : String} {args : List Expr} (hname : Identifier name)
    (hsplit : splitFirst sign (exprToString (.call name args)) = some (before, after)) :
    '(' ∈ before := by
  rw [exprToString, List.append_assoc,
    splitFirst_append_of_notMem (sign_notMem_identifier hsign hname)] at hsplit
  obtain ⟨parts, hparts, heq⟩ := Option.map_eq_some_iff.mp hsplit
  have hparen : '(' ∈ parts.1 := by
    rw [List.cons_append, splitFirst, if_neg] at hparts
    · obtain ⟨parts', -, rfl⟩ := Option.map_eq_some_iff.mp hparts
      exact List.mem_cons_self ..
    · obtain ⟨rfl, -⟩ | ⟨rfl, -⟩ := hsign <;> decide
  cases heq
  exact List.mem_append_right _ hparen

/-- The first sign in a field of something stands before the dot. -/
theorem dot_mem_after {base : Expr} {name : String} (hname : Identifier name)
    (hsplit : splitFirst sign (exprToString (.field base name)) = some (before, after)) :
    '.' ∈ after := by
  rw [exprToString] at hsplit
  by_cases hmem : sign ∈ exprToString base
  · obtain ⟨before', after', -, hsplit'⟩ := splitFirst_append_of_mem hmem ('.' :: name.toList)
    cases hsplit'.symm.trans hsplit
    exact List.mem_append_right _ (List.mem_cons_self ..)
  · have hnot : sign ∉ '.' :: name.toList := by
      intro hmem'
      obtain rfl | hmem' := List.mem_cons.mp hmem'
      · obtain ⟨hdot, -⟩ | ⟨hdot, -⟩ := hsign <;> cases hdot
      · exact sign_notMem_identifier hsign hname hmem'
    rw [splitFirst_append_of_notMem hmem, splitFirst_eq_none hnot] at hsplit
    cases hsplit

/-- Where the first sign in a binary expression stands behind the left operand: it is the
operator, or a part of the operator before it is no part of a name. -/
theorem binary_split {op' : BinOp} {l r : Expr} (hmem : sign ∉ exprToString l)
    (hsplit : splitFirst sign (exprToString (.binary op' l r)) = some (before, after)) :
    op' = op ∧ before = exprToString l ++ [' '] ∧ after = ' ' :: exprToString r ∨
      ∃ s ∈ before, isWhitespace s = false ∧ isIdentPart s = false := by
  obtain ⟨s, rest, hsymbol, hwhite, hnotPart, hop⟩ := binopStr_cases hsign op'
  have hspace : ' ' ≠ sign := by
    obtain ⟨rfl, -⟩ | ⟨rfl, -⟩ := hsign <;> decide
  rw [exprToString, List.append_assoc, splitFirst_append_of_notMem hmem, hsymbol,
    List.cons_append, List.cons_append, splitFirst, if_neg hspace, splitFirst] at hsplit
  by_cases hs : s = sign
  · obtain ⟨rfl, rfl⟩ := hop hs
    rw [if_pos hs] at hsplit
    cases hsplit
    exact .inl ⟨rfl, rfl, rfl⟩
  · rw [if_neg hs, Option.map_map, Option.map_map] at hsplit
    obtain ⟨parts, -, heq⟩ := Option.map_eq_some_iff.mp hsplit
    cases heq
    exact .inr ⟨s, by simp, hwhite, hnotPart⟩

/-- A name before the first sign and a numeral after it: the text is that of a sum or
a difference. -/
theorem split_at_sign {e : Expr} (h : e.Spelled) (hnone : parseInt64 (exprToString e) = none)
    (hsplit : splitFirst sign (exprToString e) = some (before, after))
    {name : String} (hname : Identifier name) (hbefore : trim before = name.toList) {c : ℤ}
    (hafter : parseInt64 (trim after) = some c) :
    ∃ r, e = .binary op (.ident name) r ∧ r.Spelled ∧ parseInt64 (exprToString r) = some c := by
  have hsignEnd : ¬ IsEnd sign := by
    obtain ⟨rfl, -⟩ | ⟨rfl, -⟩ := hsign <;> simp [IsEnd, isIdentPart]
  have hpart : ∀ d ∈ before, isWhitespace d = false → isIdentPart d = true := fun d hd hwhite =>
    hname.parts d (hbefore ▸ (mem_trim hwhite).mpr hd)
  obtain ⟨htext, -⟩ := splitFirst_eq_some hsplit
  have hne : before ≠ [] := by
    rintro rfl
    exact hname.ne_nil hbefore.symm
  -- the first character stands before the sign, so it belongs to the name
  have hfirst : ∀ d rest, exprToString e = d :: rest → isWhitespace d = false →
      isIdentPart d = true := by
    intro d rest hcons hwhite
    obtain ⟨d', before', rfl⟩ := List.exists_cons_of_ne_nil hne
    rw [htext] at hcons
    cases hcons
    exact hpart d (List.mem_cons_self ..) hwhite
  cases e with
  | ident name' =>
      have hmem : sign ∈ exprToString (.ident name') := by rw [htext]; simp
      exact absurd hmem (sign_notMem_identifier hsign h)
  | int v =>
      have hparse : parseInt64 (decimal v.toInt) = some v.toInt :=
        parseInt64_decimal (Int64.le_toInt v) (Int64.toInt_lt v)
      exact absurd (hparse.symm.trans hnone) (Option.some_ne_none _)
  | str s => exact absurd (hfirst '"' _ rfl (by decide)) (by decide)
  | unary op' expr =>
      exact absurd (hfirst (unaryopStr op') _ rfl (by cases op' <;> decide))
        (by cases op' <;> decide)
  | ternary cond thenBranch elseBranch => exact absurd (hfirst '(' _ rfl (by decide)) (by decide)
  | coalesce value default => exact absurd (hfirst '(' _ rfl (by decide)) (by decide)
  | tuple elems => exact absurd (hfirst '(' _ rfl (by decide)) (by decide)
  | call name' args =>
      exact absurd (hpart '(' (paren_mem_before hsign h hsplit) (by decide)) (by decide)
  | field base name' =>
      have hdot : '.' ∈ trim after :=
        (mem_trim (by decide)).mpr (dot_mem_after hsign h.2 hsplit)
      exact absurd (isNumeric_of_parseInt64 hafter '.' hdot) (by simp [IsNumeric])
  | binary op' l r =>
      have hmem : sign ∉ exprToString l := sign_notMem_left hsignEnd h.1 h.2 hsplit hafter
      obtain ⟨rfl, rfl, rfl⟩ | ⟨s, hs, hwhite, hnotPart⟩ := binary_split hsign hmem hsplit
      · rw [trim_append_singleton (by decide), trim_exprToString h.1] at hbefore
        rw [trim_cons (by decide), trim_exprToString h.2] at hafter
        rw [eq_ident_of_parts h.1 hname hbefore]
        exact ⟨r, rfl, h.2, hafter⟩
      · rw [hpart s hs hwhite] at hnotPart
        cases hnotPart

end Sign

/-! ### The first `%` -/

theorem modulusBound_append {as bs : List Char} (h : '%' ∉ as) :
    modulusBound (as ++ bs) = modulusBound bs := by
  unfold modulusBound
  rw [splitFirst_append_of_notMem h, Option.bind_map]
  rfl

theorem modulusBound_eq_none {cs : List Char} (h : '%' ∉ cs) : modulusBound cs = none := by
  unfold modulusBound
  rw [splitFirst_eq_none h]
  rfl

/-- A text that ends with a quote or a parenthesis has no divisor at its end. -/
theorem modulusBound_concat {front : List Char} {last : Char} (h : last = '"' ∨ last = ')') :
    modulusBound (front ++ [last]) = none := by
  have hlast : ¬ IsNumeric last ∧ last ≠ '%' ∧ isWhitespace last = false := by
    obtain rfl | rfl := h <;> exact ⟨by simp [IsNumeric], by decide, by decide⟩
  refine Option.eq_none_iff_forall_ne_some.mpr fun x hx => ?_
  obtain ⟨before, after, hsplit, hparse, -⟩ := modulusBound_eq_some hx
  obtain ⟨htext, -⟩ := splitFirst_eq_some hsplit
  obtain rfl | ⟨after', d, rfl⟩ := List.eq_nil_or_concat after
  · exact hlast.2.1 (List.append_inj_right' htext rfl |> List.singleton_inj.mp)
  · rw [List.concat_eq_append] at htext hparse
    have hd : last = d := by
      rw [← List.cons_append, ← List.append_assoc] at htext
      exact List.singleton_inj.mp (List.append_inj_right' htext rfl)
    subst hd
    exact hlast.1 (isNumeric_of_parseInt64 hparse last ((mem_trim hlast.2.2).mpr (by simp)))

/-- A field of something has no divisor at its end: its name is no numeral. -/
theorem modulusBound_field {base : Expr} {name : String} (hname : Identifier name) :
    modulusBound (exprToString (.field base name)) = none := by
  have hno : '%' ∉ '.' :: name.toList := by
    intro hmem
    obtain hdot | hmem := List.mem_cons.mp hmem
    · cases hdot
    · exact hname.notMem (by decide) hmem
  rw [exprToString]
  by_cases hmem : '%' ∈ exprToString base
  · refine Option.eq_none_iff_forall_ne_some.mpr fun x hx => ?_
    obtain ⟨before, after, hsplit, hparse, -⟩ := modulusBound_eq_some hx
    obtain ⟨before', after', -, hsplit'⟩ := splitFirst_append_of_mem hmem ('.' :: name.toList)
    cases hsplit'.symm.trans hsplit
    have hdot : '.' ∈ trim (after' ++ '.' :: name.toList) := (mem_trim (by decide)).mpr (by simp)
    exact absurd (isNumeric_of_parseInt64 hparse '.' hdot) (by simp [IsNumeric])
  · rw [modulusBound_append hmem, modulusBound_eq_none hno]

/-- Before a divisor the first `%` is not in the left operand. -/
theorem percent_notMem_left {op : BinOp} {l r : Expr} (h : (Expr.binary op l r).Spelled) {x : ℤ}
    (hbound : modulusBound (exprToString (.binary op l r)) = some x) : '%' ∉ exprToString l := by
  obtain ⟨before, after, hsplit, hparse, -⟩ := modulusBound_eq_some hbound
  exact sign_notMem_left (by simp [IsEnd, isIdentPart]) h.1 h.2 hsplit hparse

/-- Where the first `%` of an expression is followed by a literal only, it is the operator of the
whole expression, or it is in its right operand or under its sign. -/
theorem modulusBound_cases {e : Expr} (h : e.Spelled) {x : ℤ}
    (hbound : modulusBound (exprToString e) = some x) :
    (∃ l r, e = .binary .mod l r) ∨
      (∃ op l r, op ≠ .mod ∧ e = .binary op l r ∧ modulusBound (exprToString r) = some x) ∨
      ∃ op e', e = .unary op e' ∧ modulusBound (exprToString e') = some x := by
  cases e with
  | ident name =>
      have hno : '%' ∉ exprToString (.ident name) := Identifier.notMem h (by decide)
      rw [modulusBound_eq_none hno] at hbound
      cases hbound
  | int v =>
      have hno : '%' ∉ exprToString (.int v) := by
        intro hmem
        obtain hdigit | hminus := isDigit_decimal hmem
        · exact absurd hdigit (by decide)
        · cases hminus
      rw [modulusBound_eq_none hno] at hbound
      cases hbound
  | str s =>
      rw [exprToString, modulusBound_concat (.inl rfl)] at hbound
      cases hbound
  | ternary cond thenBranch elseBranch =>
      rw [exprToString, modulusBound_concat (.inr rfl)] at hbound
      cases hbound
  | coalesce value default =>
      rw [exprToString, modulusBound_concat (.inr rfl)] at hbound
      cases hbound
  | call name args =>
      rw [exprToString, modulusBound_concat (.inr rfl)] at hbound
      cases hbound
  | tuple elems =>
      rw [exprToString, modulusBound_concat (.inr rfl)] at hbound
      cases hbound
  | field base name =>
      rw [modulusBound_field h.2] at hbound
      cases hbound
  | unary op e' =>
      have hno : '%' ∉ [unaryopStr op] := by cases op <;> decide
      rw [exprToString, ← List.singleton_append, modulusBound_append hno] at hbound
      exact .inr (.inr ⟨op, e', rfl, hbound⟩)
  | binary op l r =>
      by_cases hop : op = .mod
      · subst hop
        exact .inl ⟨l, r, rfl⟩
      · have hno : '%' ∉ exprToString l ++ ' ' :: binopStr op ++ [' '] := by
          have hsymbol : '%' ∉ binopStr op := by
            cases op with
            | mod => exact absurd rfl hop
            | _ => decide
          simp [percent_notMem_left h hbound, hsymbol]
        have hright : modulusBound (exprToString (.binary op l r)) =
            modulusBound (exprToString r) := by
          rw [exprToString, List.append_cons, modulusBound_append hno]
        exact .inr (.inl ⟨op, l, r, hop, rfl, hright ▸ hbound⟩)

/-- At the root the divisor is the right operand. -/
theorem modulusBound_root (values : String → ℤ) {l r : Expr}
    (h : (Expr.binary .mod l r).Spelled) {x : ℤ}
    (hbound : modulusBound (exprToString (.binary .mod l r)) = some x) :
    intValue values r = x ∧ 0 < x := by
  obtain ⟨before, after, hsplit, hparse, hpos⟩ := modulusBound_eq_some hbound
  refine ⟨?_, hpos⟩
  rw [exprToString, List.append_assoc,
    splitFirst_append_of_notMem (percent_notMem_left h hbound)] at hsplit
  cases hsplit
  change parseInt64 (trim (' ' :: exprToString r)) = some x at hparse
  rw [trim_cons (by decide), trim_exprToString h.2] at hparse
  exact intValue_of_parseInt64 h.2 hparse

end NFdl
