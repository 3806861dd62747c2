import NFdl.Syntax.ExprReadBack

/-!
# Printing expressions that were parsed

Expressions from the tokens of a source text can be printed: their names are words, their
numbers are not negative, their strings have no quotes and their tuples have two items or
more. Parsing the printed text gives the expression back exactly when it is one that is
read back.
-/

namespace NFdl

namespace ExprParser

open Fmt (Printable PrintableNode)
open Lexer (Lexed)

variable {expr : TokenParser Expr}

/-! ### What the parser makes of the tokens of a text -/

/-- What the parser gives on the tokens of a text can be printed. -/
abbrev YieldsPrintable (p : TokenParser Expr) : Prop := Parser.Yields Lexed Printable p

theorem printable_leaf {e : Expr} (here : PrintableNode e) (hleaf : e.children = []) :
    Printable e := by
  refine ⟨here, fun c hc => ?_⟩
  rw [hleaf] at hc
  cases hc

theorem parseArgs_yields (h : YieldsPrintable expr) :
    Parser.Yields Lexed (fun args => ∀ e ∈ args, Printable e) (parseArgs expr) := by
  intro ts hts
  unfold parseArgs
  split
  · refine ⟨Parser.skipIf_subset hts, ?_⟩
    rintro _ ⟨⟩
    exact fun _ => nofun
  · obtain ⟨hrest, hargs⟩ := h.sepBy ts hts
    split
    · rename_i args rest hr
      rw [hr] at hrest hargs
      refine ⟨Parser.skipIf_subset hrest, ?_⟩
      rintro _ ⟨⟩
      exact (hargs args rfl).2
    · rename_i e rest hr
      rw [hr] at hrest
      exact ⟨hrest, nofun⟩

theorem printable_group {elems : List Expr} (hne : elems ≠ []) (h : ∀ e ∈ elems, Printable e) :
    Printable (group elems) := by
  unfold group
  split
  · exact h _ (List.mem_singleton_self _)
  · rename_i hone
    refine ⟨?_, h⟩
    change 2 ≤ elems.length
    have hlength : elems.length ≠ 1 := by
      intro hlength
      obtain ⟨e, he⟩ := List.length_eq_one_iff.mp hlength
      exact hone e he
    have hpos := List.length_pos_iff.mpr hne
    omega

theorem parseAtom_yields (h : YieldsPrintable expr) : YieldsPrintable (parseAtom expr) := by
  intro ts hts
  unfold parseAtom
  split
  · rename_i n ts
    obtain ⟨hn, hts⟩ := List.forall_mem_cons.mp hts
    split
    · refine ⟨hts, ?_⟩
      rintro _ ⟨⟩
      exact printable_leaf (show (0 : ℤ) ≤ 1 by decide) rfl
    · rename_i htrue
      split
      · refine ⟨hts, ?_⟩
        rintro _ ⟨⟩
        exact printable_leaf (show (0 : ℤ) ≤ 0 by decide) rfl
      · rename_i hfalse
        split
        · refine (parseArgs_yields h).map (fun args hargs => ?_) _ (Parser.skipIf_subset hts)
          exact ⟨⟨hn, htrue, hfalse⟩, hargs⟩
        · refine ⟨hts, ?_⟩
          rintro _ ⟨⟩
          exact printable_leaf ⟨hn, htrue, hfalse⟩ rfl
  · obtain ⟨hv, hts⟩ := List.forall_mem_cons.mp hts
    refine ⟨hts, ?_⟩
    rintro _ ⟨⟩
    exact printable_leaf hv rfl
  · obtain ⟨hs, hts⟩ := List.forall_mem_cons.mp hts
    refine ⟨hts, ?_⟩
    rintro _ ⟨⟩
    exact printable_leaf hs rfl
  · rename_i ts
    obtain ⟨-, hts⟩ := List.forall_mem_cons.mp hts
    obtain ⟨hrest, helems⟩ := h.sepBy ts hts
    split
    · rename_i elems rest hr
      rw [hr] at hrest helems
      obtain ⟨hne, hall⟩ := helems elems rfl
      refine ⟨Parser.skipIf_subset hrest, ?_⟩
      rintro _ ⟨⟩
      exact printable_group hne hall
    · rename_i e rest hr
      rw [hr] at hrest
      exact ⟨hrest, nofun⟩
  · exact ⟨hts, nofun⟩

theorem parsePostfix_printable {atom : Expr} {ts : List Token} (hatom : Printable atom)
    (hts : ∀ t ∈ ts, Lexed t) :
    Printable (parsePostfix atom ts).1 ∧ ∀ t ∈ (parsePostfix atom ts).2, Lexed t := by
  fun_induction parsePostfix atom ts with
  | case1 atom f ts ih =>
      obtain ⟨-, hf, hts⟩ := And.imp_right List.forall_mem_cons.mp (List.forall_mem_cons.mp hts)
      refine ih ⟨hf, fun c hc => ?_⟩ hts
      rw [List.mem_singleton.mp hc]
      exact hatom
  | case2 atom ts => exact ⟨hatom, (List.forall_mem_cons.mp hts).2⟩
  | case3 => exact ⟨hatom, hts⟩

theorem parsePrimary_yields (h : YieldsPrintable expr) : YieldsPrintable (parsePrimary expr) := by
  intro ts hts
  obtain ⟨hrest, hatom⟩ := parseAtom_yields h ts hts
  unfold parsePrimary
  split
  · rename_i atom rest hr
    rw [hr] at hrest hatom
    obtain ⟨hprint, hleft⟩ := parsePostfix_printable (hatom atom rfl) hrest
    refine ⟨hleft, ?_⟩
    rintro _ ⟨⟩
    exact hprint
  · rename_i e rest hr
    rw [hr] at hrest
    exact ⟨hrest, nofun⟩

theorem printable_unary (op : UnaryOp) {e : Expr} (h : Printable e) : Printable (.unary op e) := by
  refine ⟨trivial, fun c hc => ?_⟩
  rw [List.mem_singleton.mp hc]
  exact h

theorem parseUnary_yields (h : YieldsPrintable expr) : YieldsPrintable (parseUnary expr) := by
  intro ts hts
  have hunary : ∀ (op : UnaryOp) (result : Except ParseError Expr),
      (∀ e, result = .ok e → Printable e) →
      ∀ e, result.map (.unary op) = .ok e → Printable e := by
    intro op result hresult e he
    cases result with
    | error _ => cases he
    | ok inner =>
        cases he
        exact printable_unary op (hresult inner rfl)
  fun_induction parseUnary expr ts with
  | case1 ts ih =>
      exact And.imp_right (hunary .not _) (ih (List.forall_mem_cons.mp hts).2)
  | case2 ts ih =>
      exact And.imp_right (hunary .bitNot _) (ih (List.forall_mem_cons.mp hts).2)
  | case3 ts ih =>
      exact And.imp_right (hunary .neg _) (ih (List.forall_mem_cons.mp hts).2)
  | case4 ts => exact parsePrimary_yields h ts hts

/-- No token of a text is taken as a plus. -/
theorem tokenOp_yields {f : Token → Option BinOp} (hf : ∀ t, f t = some .add → ¬ Lexed t)
    (ts : List Token) (hts : ∀ t ∈ ts, Lexed t) (b : BinOp) (ts' : List Token)
    (h : Parser.tokenOp f ts = some (b, ts')) : b ≠ .add ∧ ∀ t ∈ ts', Lexed t := by
  obtain ⟨t, hb, rfl⟩ := Parser.tokenOp_some h
  obtain ⟨ht, hts'⟩ := List.forall_mem_cons.mp hts
  refine ⟨?_, hts'⟩
  rintro rfl
  exact hf t hb ht

theorem equalityOp_yields (ts : List Token) (hts : ∀ t ∈ ts, Lexed t) (b : BinOp)
    (ts' : List Token) (h : equalityOp ts = some (b, ts')) :
    b ≠ .add ∧ ∀ t ∈ ts', Lexed t := by
  unfold equalityOp at h
  split at h
  · cases h
    exact ⟨nofun, Parser.skipIf_subset (List.forall_mem_cons.mp hts).2⟩
  · cases h
    exact ⟨nofun, (List.forall_mem_cons.mp hts).2⟩
  · cases h

theorem binaryLevel_yields {op : List Token → Option (BinOp × List Token)}
    {next : TokenParser Expr}
    (hop : ∀ ts, (∀ t ∈ ts, Lexed t) → ∀ b ts', op ts = some (b, ts') →
      b ≠ .add ∧ ∀ t ∈ ts', Lexed t)
    (h : YieldsPrintable next) : YieldsPrintable (binaryLevel op next) := by
  refine h.leftAssoc hop fun b left right hb hleft hright => ⟨hb, ?_⟩
  intro c hc
  obtain rfl | hc := List.mem_cons.mp hc
  · exact hleft
  · rw [List.mem_singleton.mp hc]
    exact hright

theorem parseLogicOr_yields (h : YieldsPrintable expr) : YieldsPrintable (parseLogicOr expr) := by
  have hmul : YieldsPrintable (parseMultiplicative expr) :=
    binaryLevel_yields (tokenOp_yields fun t hb => by cases t <;> cases hb) (parseUnary_yields h)
  have hadd : YieldsPrintable (parseAdditive expr) := by
    refine binaryLevel_yields (tokenOp_yields fun t hb ht => ?_) hmul
    cases t <;> cases hb
    exact ht
  have hshift : YieldsPrintable (parseShift expr) :=
    binaryLevel_yields (tokenOp_yields fun t hb => by cases t <;> cases hb) hadd
  have hrel : YieldsPrintable (parseRelational expr) :=
    binaryLevel_yields (tokenOp_yields fun t hb => by cases t <;> cases hb) hshift
  have hbitAnd : YieldsPrintable (parseBitAnd expr) :=
    binaryLevel_yields (tokenOp_yields fun t hb => by cases t <;> cases hb) hrel
  have hbitXor : YieldsPrintable (parseBitXor expr) :=
    binaryLevel_yields (tokenOp_yields fun t hb => by cases t <;> cases hb) hbitAnd
  have hbitOr : YieldsPrintable (parseBitOr expr) :=
    binaryLevel_yields (tokenOp_yields fun t hb => by cases t <;> cases hb) hbitXor
  have heq : YieldsPrintable (parseEquality expr) := binaryLevel_yields equalityOp_yields hbitOr
  have hand : YieldsPrintable (parseLogicAnd expr) :=
    binaryLevel_yields (tokenOp_yields fun t hb => by cases t <;> cases hb) heq
  exact binaryLevel_yields (tokenOp_yields fun t hb => by cases t <;> cases hb) hand

theorem parseCoalesce_yields (h : YieldsPrintable expr) :
    YieldsPrintable (parseCoalesce expr) := by
  refine (parseLogicOr_yields h).leftAssoc (R := fun _ => True) ?_ ?_
  · intro ts hts b ts' hop
    obtain ⟨t, -, rfl⟩ := Parser.tokenOp_some hop
    exact ⟨trivial, (List.forall_mem_cons.mp hts).2⟩
  · intro b value default _ hvalue hdefault
    refine ⟨trivial, fun c hc => ?_⟩
    obtain rfl | hc := List.mem_cons.mp hc
    · exact hvalue
    · rw [List.mem_singleton.mp hc]
      exact hdefault

theorem parseTernary_yields (h : YieldsPrintable expr) : YieldsPrintable (parseTernary expr) := by
  intro ts hts
  obtain ⟨hrest, hcond⟩ := parseCoalesce_yields h ts hts
  unfold parseTernary
  split
  · rename_i e rest hr
    rw [hr] at hrest
    exact ⟨hrest, nofun⟩
  · rename_i cond rest hr
    rw [hr] at hrest hcond
    obtain ⟨hrest', hthen⟩ := h rest (List.forall_mem_cons.mp hrest).2
    split
    · rename_i e rest' hr'
      rw [hr'] at hrest'
      exact ⟨hrest', nofun⟩
    · rename_i thenBranch rest' hr'
      rw [hr'] at hrest' hthen
      refine h.map (fun elseBranch helse => ⟨trivial, fun c hc => ?_⟩) rest'
        (List.forall_mem_cons.mp hrest').2
      obtain rfl | hc := List.mem_cons.mp hc
      · exact hcond c rfl
      · obtain rfl | hc := List.mem_cons.mp hc
        · exact hthen c rfl
        · rw [List.mem_singleton.mp hc]
          exact helse
    · rename_i thenBranch rest' _ hr'
      rw [hr'] at hrest'
      exact ⟨hrest', nofun⟩
  · rename_i e rest _ hr
    rw [hr] at hrest hcond
    refine ⟨hrest, ?_⟩
    rintro _ ⟨⟩
    exact hcond e rfl

end ExprParser

theorem parseExpr_yields : ExprParser.YieldsPrintable parseExpr :=
  Parser.yields_nested fun _ h => ExprParser.parseTernary_yields h

namespace Fmt

/-- The parser gives the expression at some place in the tokens of a source text. -/
def Produced (e : Expr) : Prop :=
  ∃ src ts rest, ts <:+ Lexer.tokens src ∧ parseExpr ts = (.ok e, rest)

theorem printable_of_produced {e : Expr} (h : Produced e) : Printable e := by
  obtain ⟨src, ts, rest, hsuffix, hparse⟩ := h
  have hts : ∀ t ∈ ts, Lexer.Lexed t := fun t ht => Lexer.tokens_lexed src t (hsuffix.subset ht)
  obtain ⟨-, hvalue⟩ := parseExpr_yields ts hts
  rw [hparse] at hvalue
  exact hvalue e rfl

theorem tokens_emitExpr {e : Expr} (h : Printable e) :
    Lexer.tokens (emitExpr e 0) = bareTokens e := by
  have hlex := lexes_expr 0 h [] Lexer.breaks_nil
  rw [List.append_nil, exprTokens_bare (Nat.zero_le _)] at hlex
  exact hlex.trans (List.append_nil _)

/-- The text of a parsed expression is parsed as that expression exactly when no string in
it has a backslash, no default of `??` is itself a `??`, and no operand of `|`, `^` or `&` is
an `==` or `!=`. -/
theorem emitExpr_parsed_iff {e : Expr} (h : Produced e) :
    parseExpr (Lexer.tokens (emitExpr e 0)) = (.ok e, []) ↔ ReadsBack e := by
  have hprint := printable_of_produced h
  obtain ⟨e', hback⟩ := (printed hprint).readBack
  have hread := hback.whole [] ⟨⟨⟨nofun, nofun⟩, rfl⟩, nofun⟩
  rw [List.append_nil] at hread
  rw [tokens_emitExpr hprint, hread, ← hback.same, Prod.mk.injEq, Except.ok.injEq,
    and_iff_left rfl]

theorem emitExpr_parsed_iff_choice :
    parseExpr (Lexer.tokens (emitExpr
        (.ternary (.ident "a") (.call "f" [.int 1, .str "x"])
          (.tuple [.ident "b", .field (.ident "c") "d"])) 0)) =
      (.ok (.ternary (.ident "a") (.call "f" [.int 1, .str "x"])
        (.tuple [.ident "b", .field (.ident "c") "d"])), []) ↔
      ReadsBack (.ternary (.ident "a") (.call "f" [.int 1, .str "x"])
        (.tuple [.ident "b", .field (.ident "c") "d"])) :=
  emitExpr_parsed_iff
    ⟨"a ? f(1, \"x\") : (b, c.d)".toList, _, [], List.suffix_refl _, by rfl⟩

/-- `(a == b) & c` is printed without its parentheses and parsed as `a == (b & c)`. -/
theorem masked_equality_not_read_back :
    ¬ ∀ e, Produced e → parseExpr (Lexer.tokens (emitExpr e 0)) = (.ok e, []) := by
  intro h
  have hproduced :
      Produced (.binary .bitAnd (.binary .eq (.ident "a") (.ident "b")) (.ident "c")) :=
    ⟨"(a == b) & c".toList, _, [], List.suffix_refl _, by rfl⟩
  have hparsed : parseExpr (Lexer.tokens (emitExpr
      (.binary .bitAnd (.binary .eq (.ident "a") (.ident "b")) (.ident "c")) 0)) =
      (.ok (.binary .eq (.ident "a") (.binary .bitAnd (.ident "b") (.ident "c"))), []) := by rfl
  have hsame := (h _ hproduced).symm.trans hparsed
  cases hsame

end Fmt

end NFdl
