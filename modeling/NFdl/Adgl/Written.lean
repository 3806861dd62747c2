import NFdl.Adgl.RulesetReadBack

/-!
# What the ADGL parser writes

The tokens of a text make only such rulesets as can be printed and read back: every name is a
word, no number is negative, and every list is as long as the parser asks for.
-/

namespace Adgl

open Ast Lexer Fmt RulesetParser
open Scanner (Gives)

/-! ### Expressions -/

namespace ExprParser

open Parser (Yields yields_ret yields_fail yields_one)

variable {expr : TokenParser Expr}

theorem isName_keyword {k : Keyword} (hk : isNameKeyword k = true) : IsName k.text :=
  .inr ⟨k, hk, rfl⟩

theorem parseIdentAny_yields : Yields Lexed IsName parseIdentAny := by
  intro ts hts
  unfold parseIdentAny
  split
  · rename_i s ts
    obtain ⟨hs, hts⟩ := List.forall_mem_cons.mp hts
    refine ⟨hts, ?_⟩
    rintro _ ⟨⟩
    exact .inl hs
  · rename_i k ts
    obtain ⟨-, hts⟩ := List.forall_mem_cons.mp hts
    split
    · rename_i hk
      refine ⟨hts, ?_⟩
      rintro _ ⟨⟩
      exact isName_keyword hk
    · exact ⟨hts, nofun⟩
  · exact ⟨hts, nofun⟩

theorem consumePunct_yields (t : Token) : Yields Lexed (fun _ => True) (consumePunct t) :=
  yields_one fun _ _ _ _ => trivial

theorem parseTested_yields : Yields Lexed IsName parseTested :=
  (consumePunct_yields _).andThen fun _ _ => parseIdentAny_yields.andThen fun _ hname =>
    (consumePunct_yields _).map fun _ _ => hname

variable (h : Yields Lexed Expr.Written expr)

include h

theorem parseArgs_yields : Yields Lexed (fun args => ∀ e ∈ args, Expr.Written e)
    (parseArgs expr) := by
  have hexprs : Yields Lexed (fun args => ∀ e ∈ args, Expr.Written e)
      (parseExprs expr .rParen) := by
    refine Yields.ite (yields_ret fun e he => by cases he) fun ts hts => ?_
    obtain ⟨hrest, hvalue⟩ := h.sepBy ts hts
    exact ⟨hrest, fun args hargs => (hvalue args hargs).2⟩
  exact hexprs.andThen fun _ hargs => (consumePunct_yields _).map fun _ _ => hargs

omit h in
/-- An expression without parts. -/
theorem written_leaf {e : Expr} (here : e.WrittenNode) (hleaf : e.children = []) : e.Written :=
  .intro here fun c hc => by
    rw [hleaf] at hc
    cases hc

theorem primaryHead_yields {t : Token} {q : TokenParser Expr → TokenParser Expr}
    (ht : Lexed t) (hq : primaryHead t = some q) : Yields Lexed Expr.Written (q expr) := by
  cases t with
  | int v | duration ms =>
      cases hq
      exact yields_ret (written_leaf ht rfl)
  | string s =>
      cases hq
      exact yields_ret (written_leaf trivial rfl)
  | ident s =>
      cases hq
      exact yields_ret (written_leaf (.inl ht) rfl)
  | lParen =>
      cases hq
      exact h.andThen fun _ he => (consumePunct_yields _).map fun _ _ => he
  | kw k =>
      cases k with
      | true | false =>
          cases hq
          exact yields_ret (written_leaf trivial rfl)
      | event | cause | problem =>
          cases hq
          exact yields_ret (written_leaf (isName_keyword rfl) rfl)
      | present | absent =>
          cases hq
          exact parseTested_yields.map fun _ hname => written_leaf hname rfl
      | _ => cases hq
  | _ => cases hq

theorem postfixHead_yields {base : Expr} {t : Token} {q : TokenParser Expr → TokenParser Expr}
    (hbase : base.Written) (hq : postfixHead base t = some q) :
    Yields Lexed Expr.Written (q expr) := by
  unfold postfixHead at hq
  split at hq <;> cases hq
  · refine parseIdentAny_yields.map fun name hname => .intro hname fun c hc => ?_
    rw [List.mem_singleton.mp hc]
    exact hbase
  · refine (parseArgs_yields h).map fun args hargs => .intro trivial fun c hc => ?_
    obtain rfl | hc := List.mem_cons.mp hc
    · exact hbase
    · exact hargs c hc
  · refine h.andThen fun idx hidx => (consumePunct_yields _).map fun _ _ =>
      .intro trivial fun c hc => ?_
    obtain rfl | hc := List.mem_cons.mp hc
    · exact hbase
    · rw [List.mem_singleton.mp hc]
      exact hidx

theorem parseUnary_yields : Yields Lexed Expr.Written (parseUnary expr) := by
  have hprimary : Yields Lexed Expr.Written (parsePrimary expr) :=
    .onHead (fun _ _ ht hq => primaryHead_yields h ht hq) (yields_fail _)
  have hpostfix : Yields Lexed Expr.Written (parsePostfix expr) :=
    hprimary.andThen fun _ he =>
      .suffixes (fun _ _ _ hbase _ hq => postfixHead_yields h hbase hq) he
  refine hpostfix.prefixes fun t f e hop he => ?_
  unfold notOp at hop
  split at hop <;> cases hop
  all_goals
    refine .intro trivial fun c hc => ?_
    rw [List.mem_singleton.mp hc]
    exact he

omit h in
theorem binaryLevel_yields {op : Token → Option BinaryOp} {next : TokenParser Expr}
    (hnext : Yields Lexed Expr.Written next) : Yields Lexed Expr.Written (binaryLevel op next) := by
  refine .leftAssoc (R := fun _ => True) (fun ts hts o ts' hop => ⟨trivial, ?_⟩)
    (fun o left right _ hleft hright => .intro trivial fun c hc => ?_) hnext
  · obtain ⟨t, -, rfl⟩ := Parser.tokenOp_some hop
    exact (List.forall_mem_cons.mp hts).2
  · obtain rfl | hc := List.mem_cons.mp hc
    · exact hleft
    · rw [List.mem_singleton.mp hc]
      exact hright

theorem parseAdditive_yields : Yields Lexed Expr.Written (parseAdditive expr) :=
  binaryLevel_yields (binaryLevel_yields (parseUnary_yields h))

theorem parseLogicOr_yields : Yields Lexed Expr.Written (parseLogicOr expr) :=
  binaryLevel_yields (binaryLevel_yields (binaryLevel_yields (parseAdditive_yields h)))

end ExprParser

theorem parseExpr_yields : Parser.Yields Lexed Expr.Written parseExpr :=
  Parser.yields_nested fun _ => ExprParser.parseLogicOr_yields

/-! ### Tokens and lists -/

variable {α : Type} {P : α → Prop} {p : TokenM α}

/-- All tokens are such as the lexer makes. -/
def AllLexed (ts : List Token) : Prop := ∀ t ∈ ts, Lexed t

theorem run_gives {p : TokenParser α} (h : Parser.Yields Lexed P p) : Gives AllLexed P (run p) := by
  intro ts a rest hts hr
  obtain ⟨hrest, hvalue⟩ := h ts hts
  unfold run at hr
  split at hr
  · rename_i hp
    cases hr
    rw [hp] at hrest hvalue
    exact ⟨hvalue a rfl, hrest⟩
  · cases hr

theorem one_gives {pick : Token → Option α} {e : List Token → ParseError}
    (h : ∀ t a, Lexed t → pick t = some a → P a) : Gives AllLexed P (run (Parser.one pick e)) :=
  run_gives (Parser.yields_one h)

theorem punct_gives (t : Token) : Gives AllLexed (fun _ => True) (punct t) :=
  run_gives (ExprParser.consumePunct_yields t)

theorem consumeKw_gives (k : Keyword) : Gives AllLexed (fun _ => True) (consumeKw k) :=
  one_gives fun _ _ _ _ => trivial

theorem consumeWordExact_gives (s : String) :
    Gives AllLexed (fun _ => True) (consumeWordExact s) :=
  one_gives fun _ _ _ _ => trivial

theorem peek_gives : Gives AllLexed (fun _ => True) peek := by
  rintro ts _ _ hts ⟨⟩
  exact ⟨trivial, hts⟩

theorem advance_gives : Gives AllLexed (fun _ => True) advance := by
  rintro ts _ _ hts ⟨⟩
  exact ⟨trivial, fun t ht => hts t (List.mem_of_mem_tail ht)⟩

theorem expr_gives : Gives AllLexed Expr.Written expr := run_gives parseExpr_yields

theorem identAny_gives : Gives AllLexed IsName identAny := run_gives ExprParser.parseIdentAny_yields

theorem wordAny_gives : Gives AllLexed IsWord wordAny := by
  refine one_gives fun t s ht hs => ?_
  unfold wordText at hs
  split at hs <;> cases hs
  · exact ht.1
  · exact isWord_keyword _

theorem identNonKw_gives : Gives AllLexed IsPlainWord identNonKw := by
  refine one_gives fun t s ht hs => ?_
  unfold identText at hs
  split at hs <;> cases hs
  exact ht

theorem stringLit_gives : Gives AllLexed (fun _ => True) stringLit :=
  one_gives fun _ _ _ _ => trivial

theorem integer_gives : Gives AllLexed (fun v => 0 ≤ v.toInt) integer := by
  refine one_gives fun t v ht hv => ?_
  unfold intValue at hv
  split at hv <;> cases hv
  exact ht

theorem rejectIf_gives (c : Prop) [Decidable c] (e : ParseError) :
    Gives AllLexed (fun _ => ¬ c) (rejectIf c e) := by
  unfold rejectIf
  split
  · exact .throw
  · rename_i hc
    exact .pure hc

theorem pushed_gives (hp : Gives AllLexed P p) {as : List α} (has : ∀ a ∈ as, P a) :
    Gives AllLexed (fun as => as ≠ [] ∧ ∀ a ∈ as, P a) (pushed p as) := by
  refine hp.bind fun a ha => .pure ⟨List.append_ne_nil_of_right_ne_nil _ (List.cons_ne_nil _ _),
    fun b hb => ?_⟩
  obtain hb | hb := List.mem_append.mp hb
  · exact has b hb
  · rw [List.mem_singleton.mp hb]
    exact ha

theorem separated_gives {stop : List Token → Bool} (hp : Gives AllLexed P p) {a : α} (ha : P a) :
    Gives AllLexed (fun as => as ≠ [] ∧ ∀ a ∈ as, P a) (tokensUntil stop (fun as => do
      advance
      pushed p as) [a]) := by
  refine .untilStop (fun as has => advance_gives.bind fun _ _ => pushed_gives hp has.2)
    ⟨List.cons_ne_nil _ _, fun b hb => ?_⟩
  rw [List.mem_singleton.mp hb]
  exact ha

theorem commaSep_gives (hp : Gives AllLexed P p) :
    Gives AllLexed (fun as => as ≠ [] ∧ ∀ a ∈ as, P a) (commaSep p) :=
  hp.bind fun _ ha => separated_gives hp ha

theorem listUntil_gives {close : Token} (hp : Gives AllLexed P p) :
    Gives AllLexed (fun as => ∀ a ∈ as, P a) (listUntil close p) := by
  refine peek_gives.bind fun t _ => ?_
  split
  · exact .pure fun a ha => by cases ha
  · exact (commaSep_gives hp).mono fun _ has => has.2

theorem repeated_gives {stop : List Token → Bool} (hp : Gives AllLexed P p) :
    Gives AllLexed (fun as => ∀ a ∈ as, P a) (repeated stop p) :=
  .untilStop (fun _ has => (pushed_gives hp has).mono fun _ has => has.2) fun a ha => by cases ha

theorem optional_gives {first : Token} (hp : Gives AllLexed P p) :
    Gives AllLexed (fun a => ∀ b ∈ a, P b) (optional_ first p) := by
  refine peek_gives.bind fun t _ => ?_
  split
  · refine hp.map fun a ha b hb => ?_
    cases hb
    exact ha
  · exact .pure fun b hb => by cases hb

theorem parenthesized_gives (hp : Gives AllLexed P p) : Gives AllLexed P (parenthesized p) :=
  (punct_gives _).bind fun _ _ => hp.bind fun _ ha => (punct_gives _).bind fun _ _ => .pure ha

theorem parseKindIdent_gives : Gives AllLexed KindIdentWritten parseKindIdent :=
  wordAny_gives.bind fun _ hs => separated_gives wordAny_gives hs

theorem parseRefList_gives : Gives AllLexed (fun refs => ∀ s ∈ refs, IsName s) parseRefList :=
  (punct_gives _).bind fun _ _ => (listUntil_gives identAny_gives).bind fun _ hrefs =>
    (punct_gives _).bind fun _ _ => .pure hrefs

/-! ### Statements -/

theorem parseFields_gives {field : String → TokenM α} (hp : ∀ key, Gives AllLexed P (field key)) :
    Gives AllLexed (fun fields => ∀ f ∈ fields, P f) (parseFields field) :=
  (punct_gives _).bind fun _ _ => (listUntil_gives (wordAny_gives.bind fun key _ =>
    (punct_gives _).bind fun _ _ => hp key)).bind fun _ hfields =>
      (punct_gives _).bind fun _ _ => .pure hfields

theorem parseSign_gives : Gives AllLexed (fun sign => sign = 1 ∨ sign = -1) parseSign := by
  refine peek_gives.bind fun t _ => ?_
  split
  · exact advance_gives.bind fun _ _ => .pure (.inl rfl)
  · exact advance_gives.bind fun _ _ => .pure (.inr rfl)
  · exact .throw

theorem weight_bound {sign v : Int64} (hsign : sign = 1 ∨ sign = -1) (hv : 0 ≤ v.toInt) :
    -2 ^ 63 < (saturatingMul sign v).toInt := by
  have hlt := Int64.toInt_lt v
  have hone : (1 : Int64).toInt = 1 := by decide
  have hminusOne : (-1 : Int64).toInt = -1 := by decide
  have hmin : Int64.minValue.toInt = -2 ^ 63 := by decide
  have hmax : Int64.maxValue.toInt = 2 ^ 63 - 1 := by decide
  unfold saturatingMul
  obtain rfl | rfl := hsign
  · rw [hone, one_mul, Int64.ofIntClamp_toInt]
    omega
  · rw [hminusOne, neg_one_mul, Int64.toInt_ofIntClamp (by omega) (by omega)]
    omega

theorem parseInferField_gives (key : String) :
    Gives AllLexed InferField.Written (parseInferField key) := by
  unfold parseInferField
  split
  · exact expr_gives.map fun _ he => he
  · exact parseSign_gives.bind fun _ hsign => integer_gives.bind fun _ hv =>
      .pure (weight_bound hsign hv)
  · exact parseRefList_gives.map fun _ hrefs => hrefs
  · exact .throw

theorem parseInferStmt_gives : Gives AllLexed InferStmt.Written parseInferStmt :=
  (consumeKw_gives _).bind fun _ _ => (consumeKw_gives _).bind fun _ _ =>
    (parenthesized_gives identNonKw_gives).bind fun _ hcause =>
      (parseFields_gives parseInferField_gives).bind fun _ hfields => .pure ⟨hcause, hfields⟩

theorem known_gives {names : String → Option α} {e : ParseError} :
    Gives AllLexed (fun _ => True) (known names e) := by
  refine identAny_gives.bind fun name _ => ?_
  split
  · exact .pure trivial
  · exact .throw

theorem parseEmitField_gives (key : String) :
    Gives AllLexed EmitField.Written (parseEmitField key) := by
  unfold parseEmitField
  split
  · exact expr_gives.map fun _ he => he
  · exact known_gives.map fun _ _ => trivial
  · exact parseRefList_gives.map fun _ hrefs => hrefs
  · exact stringLit_gives.map fun _ _ => trivial
  · exact .throw

theorem parseEmitStmt_gives : Gives AllLexed EmitStmt.Written parseEmitStmt :=
  (consumeKw_gives _).bind fun _ _ => (consumeKw_gives _).bind fun _ _ =>
    (parenthesized_gives identNonKw_gives).bind fun _ hproblem =>
      (parseFields_gives parseEmitField_gives).bind fun _ hfields => .pure ⟨hproblem, hfields⟩

theorem parseActionField_gives (key : String) :
    Gives AllLexed ActionField.Written (parseActionField key) := by
  unfold parseActionField
  split
  · exact expr_gives.map fun _ he => he
  · exact stringLit_gives.map fun _ _ => trivial
  · exact parseRefList_gives.map fun _ hrefs => hrefs
  · exact .throw

/-- An action has the name that it was found by. -/
theorem actionName_ofName (name : String) (arg : Option KindIdent) (fields : List ActionField) :
    actionName ⟨actionOfName name, arg, fields⟩ = name := by
  unfold actionOfName
  split <;> rfl

theorem parseActionStmt_gives : Gives AllLexed ActionStmt.Written parseActionStmt := by
  refine (consumeKw_gives _).bind fun _ _ => identAny_gives.bind fun name hname =>
    (optional_gives (parenthesized_gives parseKindIdent_gives)).bind fun arg harg =>
      (parseFields_gives parseActionField_gives).bind fun fields hfields => .pure ?_
  have hsame := actionName_ofName name arg fields
  refine ⟨?_, ?_, harg, hfields⟩
  · rw [hsame]
    exact hname
  · rw [hsame]

theorem parseStmtAny_gives : Gives AllLexed Stmt.Written parseStmtAny := by
  refine peek_gives.bind fun t _ => ?_
  split
  · exact parseInferStmt_gives.map fun _ h => h
  · exact parseEmitStmt_gives.map fun _ h => h
  · exact parseActionStmt_gives.map fun _ h => h
  · exact .throw

theorem parseStmtInRule_gives (evidence : Bool) :
    Gives AllLexed (Stmt.Placed evidence) (parseStmtInRule evidence) := by
  refine parseStmtAny_gives.bind fun stmt hstmt => ?_
  split
  · exact .throw
  · rename_i hplace
    exact .pure ⟨hstmt, hplace⟩

theorem parseBlock_gives :
    Gives AllLexed (fun body => ∀ stmt ∈ body, Stmt.Written stmt) parseBlock :=
  (punct_gives _).bind fun _ _ => (repeated_gives parseStmtAny_gives).bind fun _ hbody =>
    (punct_gives _).bind fun _ _ => .pure hbody

theorem parseIfElseBlock_gives : Gives AllLexed IfElseBlock.Written parseIfElseBlock :=
  (consumeKw_gives _).bind fun _ _ => expr_gives.bind fun _ hcondition =>
    parseBlock_gives.bind fun _ hthen =>
      (optional_gives ((consumeKw_gives _).bind fun _ _ => parseBlock_gives)).bind fun _ helse =>
        .pure ⟨hcondition, hthen, helse⟩

/-! ### Anchors and correlates -/

theorem exprOrClose_gives : Gives AllLexed (fun e => ∀ a ∈ e, Expr.Written a) exprOrClose := by
  refine peek_gives.bind fun t _ => ?_
  split
  · exact .pure fun e he => by cases he
  · refine expr_gives.map fun e he a ha => ?_
    cases ha
    exact he

theorem optionalPredicate_gives :
    Gives AllLexed (fun e => ∀ a ∈ e, Expr.Written a) optionalPredicate := by
  have hpredicate : Gives AllLexed (fun e => ∀ a ∈ e, Expr.Written a) parsePredicate :=
    advance_gives.bind fun _ _ => exprOrClose_gives.bind fun _ hpred =>
      (punct_gives _).bind fun _ _ => .pure hpred
  refine (optional_gives hpredicate).bind fun pred hpred => .pure fun e he => ?_
  cases pred with
  | none => cases he
  | some pred => exact hpred pred rfl e he

theorem parseBinding_gives : Gives AllLexed IsPlainWord parseBinding :=
  identNonKw_gives.bind fun _ hbinding => (punct_gives _).bind fun _ _ => .pure hbinding

theorem parseAnchorBlock_gives : Gives AllLexed AnchorBlock.Written parseAnchorBlock :=
  (consumeKw_gives _).bind fun _ _ => parseBinding_gives.bind fun _ hbinding =>
    (consumeKw_gives _).bind fun _ _ => (parenthesized_gives parseKindIdent_gives).bind
      fun _ heventType => optionalPredicate_gives.bind fun _ hpredicate =>
        .pure ⟨hbinding, heventType, hpredicate⟩

theorem parseDecisionAnchor_gives : Gives AllLexed DecisionAnchor.Written parseDecisionAnchor := by
  refine (consumeKw_gives _).bind fun _ _ => parseBinding_gives.bind fun _ hbinding =>
    peek_gives.bind fun t _ => ?_
  split
  · exact (consumeKw_gives _).bind fun _ _ => (parenthesized_gives identNonKw_gives).bind
      fun _ hcause => (punct_gives _).bind fun _ _ => expr_gives.bind fun _ hpredicate =>
        (punct_gives _).bind fun _ _ => .pure ⟨hbinding, hcause, hpredicate⟩
  · exact (consumeKw_gives _).bind fun _ _ => (parenthesized_gives identNonKw_gives).bind
      fun _ hproblem => optionalPredicate_gives.bind fun _ hpredicate =>
        .pure ⟨hbinding, hproblem, hpredicate⟩
  · exact .throw

theorem parseCorrelateSource_gives :
    Gives AllLexed CorrelateSource.Written parseCorrelateSource := by
  refine peek_gives.bind fun t _ => ?_
  split
  · exact (consumeKw_gives _).bind fun _ _ =>
      (parenthesized_gives parseKindIdent_gives).map fun _ hkind => hkind
  · exact (consumeKw_gives _).bind fun _ _ =>
      (parenthesized_gives identNonKw_gives).map fun _ hname => hname
  · exact (consumeKw_gives _).bind fun _ _ =>
      (parenthesized_gives identNonKw_gives).map fun _ hname => hname
  · exact .throw

theorem parseTopoPredicate_gives : Gives AllLexed TopoPredicate.Written parseTopoPredicate :=
  identNonKw_gives.bind fun _ hname => (punct_gives _).bind fun _ _ =>
    (run_gives (ExprParser.parseArgs_yields parseExpr_yields)).bind fun _ hargs =>
      .pure ⟨hname, hargs⟩

theorem parseTimeWindow_gives : Gives AllLexed TimeWindow.Written parseTimeWindow :=
  (run_gives (ExprParser.parseAdditive_yields parseExpr_yields)).bind fun _ hprobe =>
    (consumeKw_gives _).bind fun _ _ => (punct_gives _).bind fun _ _ =>
      expr_gives.bind fun _ hstart => (punct_gives _).bind fun _ _ =>
        expr_gives.bind fun _ hend => (punct_gives _).bind fun _ _ => .pure ⟨hprobe, hstart, hend⟩

theorem parseMinMatch_gives : Gives AllLexed (fun n => n < 2 ^ 63) parseMinMatch :=
  (consumeKw_gives _).bind fun _ _ => (punct_gives _).bind fun _ _ =>
    (consumeWordExact_gives _).bind fun _ _ => (punct_gives _).bind fun _ _ =>
      integer_gives.bind fun _ hv => (rejectIf_gives _ _).bind fun _ _ => .pure (toNat_lt hv)

theorem parseCorrelateBlock_gives :
    Gives AllLexed CorrelateBlock.Written parseCorrelateBlock :=
  (consumeKw_gives _).bind fun _ _ => parseBinding_gives.bind fun _ hbinding =>
    parseCorrelateSource_gives.bind fun _ hsource => (punct_gives _).bind fun _ _ =>
      (consumeWordExact_gives _).bind fun _ _ => (punct_gives _).bind fun _ _ =>
        parseTopoPredicate_gives.bind fun _ htopo => (consumeWordExact_gives _).bind fun _ _ =>
          (punct_gives _).bind fun _ _ => parseTimeWindow_gives.bind fun _ htime =>
            (optional_gives parseMinMatch_gives).bind fun _ hmin =>
              (punct_gives _).bind fun _ _ => .pure ⟨hbinding, hsource, htopo, htime, hmin⟩

/-! ### Rules -/

theorem parseRuleHead_gives {kw : Keyword} (hp : Gives AllLexed P p) :
    Gives AllLexed (fun head => IsPlainWord head.1 ∧ P head.2.2) (parseRuleHead kw p) :=
  (consumeKw_gives _).bind fun _ _ => identNonKw_gives.bind fun _ hname =>
    (punct_gives _).bind fun _ _ => (consumeKw_gives _).bind fun _ _ =>
      (punct_gives _).bind fun _ _ => known_gives.bind fun _ _ => hp.bind fun _ ha =>
        .pure ⟨hname, ha⟩

theorem parseRuleBody_gives (evidence : Bool) :
    Gives AllLexed (fun body => (∀ c ∈ body.1, CorrelateBlock.Written c) ∧
      (∀ block ∈ body.2.1, IfElseBlock.Written block) ∧
        ∀ stmt ∈ body.2.2, Stmt.Placed evidence stmt) (parseRuleBody evidence) :=
  (repeated_gives parseCorrelateBlock_gives).bind fun _ hcorrelates =>
    (optional_gives parseIfElseBlock_gives).bind fun _ hifElse =>
      (repeated_gives (parseStmtInRule_gives evidence)).bind fun _ hbody =>
        (punct_gives _).bind fun _ _ => .pure ⟨hcorrelates, hifElse, hbody⟩

theorem parseEvidenceRule_gives : Gives AllLexed EvidenceRule.Written parseEvidenceRule :=
  (parseRuleHead_gives parseAnchorBlock_gives).bind fun _ hhead =>
    (parseRuleBody_gives true).bind fun _ hbody =>
      .pure ⟨hhead.1, hhead.2, hbody.1, hbody.2.1, hbody.2.2⟩

theorem parseDecisionRule_gives : Gives AllLexed DecisionRule.Written parseDecisionRule :=
  (parseRuleHead_gives parseDecisionAnchor_gives).bind fun _ hhead =>
    (parseRuleBody_gives false).bind fun _ hbody =>
      .pure ⟨hhead.1, hhead.2, hbody.1, hbody.2.1, hbody.2.2⟩

theorem parseRule_gives : Gives AllLexed RuleDecl.Written parseRule := by
  refine peek_gives.bind fun t _ => ?_
  split
  · exact parseEvidenceRule_gives.map fun _ h => h
  · exact parseDecisionRule_gives.map fun _ h => h

theorem parseDecl_gives : Gives AllLexed Decl.Written parseDecl := by
  have hrequires : Gives AllLexed (fun caps => caps.length ≤ 32) parseRequiresDecl :=
    (consumeKw_gives _).bind fun _ _ => (punct_gives _).bind fun _ _ =>
      (punct_gives _).bind fun _ _ => (listUntil_gives stringLit_gives).bind fun _ _ =>
        (rejectIf_gives _ _).bind fun _ hlength => (punct_gives _).bind fun _ _ =>
          .pure (Nat.le_of_not_lt hlength)
  refine peek_gives.bind fun t _ => ?_
  split
  · exact hrequires.map fun _ h => h
  · exact ((consumeKw_gives _).bind fun _ _ =>
      parenthesized_gives (commaSep_gives identAny_gives)).map fun _ h => h

/-! ### Rulesets -/

/-- A state without recovery, whose tokens are such as the lexer makes. -/
def FailFast (s : Recovery.State Input ParseError) : Prop :=
  AllLexed s.input.tokens ∧ s.recover = false

theorem item_gives (hp : Gives AllLexed P p) : Gives FailFast P (liftM (item p) : ItemM α) := by
  intro s a s' hs hr
  change Recovery.silently (item p) s = _ at hr
  unfold Recovery.silently item at hr
  cases hq : p s.input.tokens with
  | ok b rest =>
      rw [hq] at hr
      cases hr
      obtain ⟨ha, hrest⟩ := hp hs.1 hq
      exact ⟨ha, hrest, hs.2⟩
  | error e rest =>
      rw [hq] at hr
      cases hr

theorem member_gives (hp : Gives AllLexed P p) {as : List α} (has : ∀ a ∈ as, P a) :
    Gives FailFast (fun as => ∀ a ∈ as, P a) (member p as) := by
  have hitem : Gives FailFast (fun a => ∀ b ∈ a, P b)
      (Recovery.recoverItem resyncDeclOrRule (item p : ItemM α)) := by
    intro s a s' hs hr
    unfold Recovery.recoverItem at hr
    cases hq : (liftM (item p) : ItemM α) s with
    | ok b t =>
        rw [hq] at hr
        cases hr
        obtain ⟨hb, ht⟩ := item_gives hp hs hq
        refine ⟨fun c hc => ?_, ht⟩
        cases hc
        exact hb
    | error e t =>
        have hmode := (Recovery.Agrees.lift (item p)).mode s
        rw [hq] at hr hmode
        have ht : t.recover = false := hmode.trans hs.2
        dsimp only at hr
        rw [ht] at hr
        cases hr
  refine hitem.bind fun a ha => .pure fun b hb => ?_
  obtain hb | hb := List.mem_append.mp hb
  · exact has b hb
  · exact ha b (Option.mem_toList.mp hb)

theorem membersUntil_gives {stop : List Token → Bool} (hp : Gives AllLexed P p) :
    Gives FailFast (fun as => ∀ a ∈ as, P a) (membersUntil stop (member p) []) :=
  .untilStop (fun _ has => member_gives hp has) fun a ha => by cases ha

theorem rulesetParser_gives : Gives FailFast SourceRuleset.Written rulesetParser := by
  have hhead : Gives AllLexed (fun _ => True) parseHead :=
    (consumeKw_gives _).bind fun _ _ => stringLit_gives.bind fun _ _ =>
      (punct_gives _).bind fun _ _ => (consumeKw_gives _).bind fun _ _ =>
        (punct_gives _).bind fun _ _ => stringLit_gives.bind fun _ _ => .pure trivial
  have hend : Gives AllLexed (fun _ => True) parseEnd :=
    (punct_gives _).bind fun _ _ => peek_gives.bind fun _ _ =>
      (rejectIf_gives _ _).mono fun _ _ => trivial
  exact (item_gives hhead).bind fun _ _ => (membersUntil_gives parseDecl_gives).bind
    fun _ hdecls => (membersUntil_gives parseRule_gives).bind fun _ hrules =>
      (item_gives hend).bind fun _ _ => .pure ⟨hdecls, hrules⟩

end Adgl
