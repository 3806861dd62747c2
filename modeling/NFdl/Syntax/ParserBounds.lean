import NFdl.Syntax.Parser

/-!
# The N-FDL parser ends

Every round of a loop of the parser takes a token, and the parser enters a block or a
parenthesis only after taking one. So the bounds on the loops and on the depth are never
reached, with recovery and without.
-/

namespace NFdl

open Scanner (Measure Settles Consumes after attempt)

/-! ### Expressions -/

namespace ExprParser

open Parser (FitsBelow skipIf)

variable {expr : TokenParser Expr} {k : ℕ}

theorem parseArgs_fits (hexpr : Parser.Shrinks expr) (h : FitsBelow .overrun k expr) :
    FitsBelow .overrun k (parseArgs expr) := by
  intro ts hts
  have hsep : FitsBelow .overrun k (Parser.sepBy Token.comma .overrun expr) :=
    Parser.sepBy_fits hexpr h
  have hargs := hsep ts hts
  unfold parseArgs
  split
  · nofun
  · split
    · nofun
    · rename_i e rest hr
      rw [hr] at hargs
      exact hargs

theorem parseAtom_fits : Parser.Fits .overrun parseAtom := by
  intro expr k hexpr h ts hts
  unfold parseAtom
  split
  · rename_i n ts
    split
    · nofun
    · split
      · nofun
      · split
        · refine (parseArgs_fits hexpr h).map _ ?_
          exact Nat.lt_of_le_of_lt (Parser.skipIf_length _ _) (Nat.lt_of_succ_lt_succ hts)
        · nofun
  · nofun
  · nofun
  · rename_i ts
    have hsep : FitsBelow .overrun k (Parser.sepBy Token.comma .overrun expr) :=
      Parser.sepBy_fits hexpr h
    have helems := hsep ts (Nat.lt_of_succ_lt_succ hts)
    split
    · nofun
    · rename_i e rest hr
      rw [hr] at helems
      exact fun he => helems (by cases he; rfl)
  · nofun

theorem parsePrimary_fits : Parser.Fits .overrun parsePrimary := by
  intro expr k hexpr h ts hts
  have hatom := parseAtom_fits hexpr h ts hts
  unfold parsePrimary
  split
  · nofun
  · rename_i e rest hr
    rw [hr] at hatom
    exact hatom

theorem parseUnary_fits : Parser.Fits .overrun parseUnary := by
  intro expr k hexpr h ts hts
  have hmap : ∀ (op : UnaryOp) (r : Except ParseError Expr), r ≠ .error .overrun →
      r.map (Expr.unary op) ≠ .error .overrun := by
    intro op r hr he
    cases r with
    | ok a => cases he
    | error e =>
        cases he
        exact hr rfl
  fun_induction parseUnary expr ts with
  | case1 ts ih => exact hmap _ _ (ih (Nat.lt_of_succ_lt hts))
  | case2 ts ih => exact hmap _ _ (ih (Nat.lt_of_succ_lt hts))
  | case3 ts ih => exact hmap _ _ (ih (Nat.lt_of_succ_lt hts))
  | case4 ts => exact parsePrimary_fits hexpr h ts hts

theorem parseCoalesce_fits : Parser.Fits .overrun parseCoalesce := by
  have hor : Parser.Descends parseLogicOr ∧ Parser.Fits .overrun parseLogicOr :=
    parseLogicOr_ladder (P := fun f => Parser.Descends f ∧ Parser.Fits ParseError.overrun f)
      ⟨parseUnary_descends, parseUnary_fits⟩
      fun hop hf => ⟨binaryLevel_descends hop hf.1, Parser.Fits.leftAssoc hop hf.1 hf.2⟩
  exact Parser.Fits.leftAssoc (Parser.tokenOp_takes _) hor.1 hor.2

theorem parseTernary_fits : Parser.Fits .overrun parseTernary := by
  intro expr k hexpr h ts hts
  have hcond := (parseCoalesce_descends.shrinks hexpr).length ts
  have hfits := parseCoalesce_fits hexpr h ts hts
  unfold parseTernary
  split
  · rename_i e rest hr
    rw [hr] at hfits
    exact hfits
  · rename_i cond rest hr
    rw [hr] at hcond
    have hrest : rest.length < k := Nat.lt_of_lt_of_le hcond (Nat.le_of_lt_succ hts)
    have hthen := hexpr.length rest
    have hthenFits := h rest hrest
    split
    · rename_i e rest' hr'
      rw [hr'] at hthenFits
      exact hthenFits
    · rename_i thenBranch rest' hr'
      rw [hr'] at hthen
      exact h.map rest' (Nat.lt_of_lt_of_le hthen hrest.le)
    · nofun
  · nofun

end ExprParser

theorem parseExpr_fits (ts : List Token) : (parseExpr ts).1 ≠ .error .overrun :=
  Parser.nested_fits ExprParser.parseTernary_descends ExprParser.parseTernary_fits ts

/-! ### Tokens -/

namespace StmtParser

open Scanner (Ends ends_ok ends_error)

/-- A parser is measured by the tokens that it leaves. -/
def tokens : Measure (List Token) ParseError where
  size := List.length
  Ok := fun _ => True
  overrun := .overrun

/-- A parser with recovery has recorded no loop that ran out of rounds. -/
abbrev stmts : Measure (Recovery.State (List Token) ParseError) ParseError :=
  Recovery.measure tokens

variable {α : Type} {k n : ℕ} {ts : List Token} {a : α}

theorem ends_at (h : ts.length ≤ n) :
    Ends tokens n (.ok a ts : EStateM.Result ParseError (List Token) α) :=
  ends_ok trivial h

theorem ends_with {msg : String} (h : ts.length ≤ n) :
    Ends tokens n (.error (.syntax_ msg) ts : EStateM.Result ParseError (List Token) α) :=
  ends_error trivial h nofun

/-- Behind a token there is less to read. -/
theorem ends_behind {q : TokenM α} {t : Token} (hq : Settles tokens k q)
    (hs : tokens.size (t :: ts) < k) : Ends tokens (tokens.size (t :: ts)) (q ts) :=
  (hq ts trivial (Nat.lt_of_succ_lt hs)).mono (Nat.le_succ _)

theorem peek_settles : Settles tokens k peek := fun _ _ _ => ends_at (Nat.le_refl _)

theorem advance_consumes : Consumes tokens k advance := by
  intro ts n _ hn _
  refine ends_at ?_
  rw [List.length_tail, show ts.length = n + 1 from hn]
  exact Nat.le_refl n

theorem advance_settles : Settles tokens k advance := by
  intro ts _ _
  refine ends_at ?_
  rw [List.length_tail]
  exact Nat.sub_le _ _

theorem skip_settles (t : Token) : Settles tokens k (skip t) :=
  fun ts _ _ => ends_at (Parser.skipIf_length t ts)

theorem nameOr_settles (default : String) : Settles tokens k (nameOr default) := by
  intro ts _ _
  unfold nameOr
  split
  · exact ends_at (Nat.le_succ _)
  · exact ends_at (Nat.le_refl _)

theorem expr_settles : Settles tokens k expr := by
  intro ts _ _
  have hlength := parseExpr_shrinks.length ts
  have hfits := parseExpr_fits ts
  unfold expr
  split
  · rename_i e rest hr
    rw [hr] at hlength
    exact ends_at hlength
  · rename_i e rest hr
    rw [hr] at hlength hfits
    exact ends_error trivial hlength fun he => hfits (by rw [he]; rfl)

theorem exprOr_settles (default : Expr) : Settles tokens k (exprOr default) :=
  expr_settles.attempt.bind fun _ => .pure

theorem skipToEnd_settles : Settles tokens k skipToEnd :=
  fun _ _ _ => ends_at (List.dropWhile_sublist _).length_le

/-! ### Types -/

theorem parseLength_settles : Settles tokens k parseLength := by
  intro ts _ hs
  unfold parseLength
  split
  · exact ends_at (Nat.le_succ _)
  · exact ends_at (Nat.le_succ _)
  · exact ends_at ((Parser.skipIf_length _ _).trans (Nat.le_succ _))
  · exact (exprOr_settles _).map ts trivial hs

theorem parseBytes_settles : Settles tokens k parseBytes := by
  intro ts _ hs
  unfold parseBytes
  split
  · have hbrackets : Settles tokens k (do
        let ty ← parseLength
        skip .rBracket
        pure ty) :=
      parseLength_settles.bind fun _ => (skip_settles _).bind fun _ => .pure
    exact ends_behind hbrackets hs
  · exact ends_at (Nat.le_refl _)

theorem parseBitfield_settles : Settles tokens k parseBitfield := by
  intro ts _ _
  unfold parseBitfield
  split
  · split
    · split
      · exact ends_at (by simp only [tokens, List.length_cons]; omega)
      · exact ends_with (by simp only [tokens, List.length_cons]; omega)
    · refine ends_with ((Parser.skipIf_length _ _).trans ?_)
      simp only [tokens, List.length_cons]
      omega
  · exact ends_with ((Parser.skipIf_length _ _).trans (Nat.le_succ _))
  · exact ends_with (Nat.le_refl _)

theorem parseType_settles : Settles tokens k parseType := by
  intro ts _ hs
  unfold parseType
  split
  · split
    · exact ends_at (Nat.le_succ _)
    · split
      · exact ends_behind parseBytes_settles hs
      · split
        · exact ends_behind parseBitfield_settles hs
        · exact ends_at (Nat.le_succ _)
  · exact ends_at (by rw [List.length_tail]; exact Nat.sub_le _ _)

/-! ### Recovery -/

theorem resyncStatement_length (ts : List Token) : (resyncStatement ts).length ≤ ts.length := by
  fun_induction resyncStatement ts with
  | case3 => exact Nat.le_succ _
  | case11 _ _ _ ih => exact ih.trans (Nat.le_succ _)
  | case12 _ _ _ _ _ _ _ _ _ _ _ ih => exact ih.trans (Nat.le_succ _)
  | _ => exact Nat.le_refl _

section Statements

variable {β : Type} {p : StmtM α} {f : α → StmtM β} {inner : StmtM Body}

theorem lift_settles {q : TokenM α} (hq : Settles tokens k q) :
    Settles stmts k (liftM q : StmtM α) :=
  Recovery.silently_settles hq

theorem lift_consumes {q : TokenM α} (hq : Consumes tokens k q) :
    Consumes stmts k (liftM q : StmtM α) :=
  Recovery.silently_consumes hq

theorem recoverStmt_settles (hp : Settles stmts k p) : Settles stmts k (recoverStmt p) :=
  Recovery.recoverItem_settles (fun ts _ => ⟨trivial, resyncStatement_length ts⟩) hp

theorem recoverReject_settles (msg : String) : Settles stmts k (recoverReject msg) :=
  Recovery.reject_settles (fun ts _ => ⟨trivial, resyncStatement_length ts⟩) nofun

theorem report_settles (msg : String) : Settles stmts k (report msg) :=
  Recovery.reject_settles (fun _ _ => ⟨trivial, Nat.le_refl _⟩) nofun

/-- A loop that stops at the end of the input has a token in front of it where it goes on. -/
theorem length_pos_of_go {stop : List Token → Bool} (hnil : stop [] = true) {ts : List Token}
    (h : stop ts = false) : 0 < ts.length := by
  cases ts with
  | nil =>
      rw [hnil] at h
      cases h
  | cons t ts => exact Nat.succ_pos _

theorem tokensUntil_settles {step : α → TokenM α} (hstep : ∀ a, Consumes tokens k (step a))
    (a : α) : Settles tokens k (tokensUntil atClose step a) :=
  Settles.untilStop hstep (fun _ _ h => length_pos_of_go rfl h) a

/-- A loop of statements ends when every round takes a token. -/
theorem stmtsUntil_settles {stop : List Token → Bool} {step : α → StmtM α}
    (hstep : ∀ a, Consumes stmts k (step a)) (hnil : stop [] = true) (a : α) :
    Settles stmts k (stmtsUntil stop step a) :=
  Settles.untilStop (m := stmts) hstep (fun _ _ h => length_pos_of_go hnil h) a

/-! ### Fields -/

theorem validateMessage_settles : Settles tokens k validateMessage := by
  intro ts _ _
  unfold validateMessage
  split
  · exact ends_at (by simp only [tokens, List.length_cons]; omega)
  · exact ends_at (Nat.le_succ _)
  · exact ends_at (Nat.le_refl _)

theorem validateClause_settles : Settles tokens k validateClause :=
  (exprOr_settles _).bind fun _ => validateMessage_settles.bind fun _ =>
    skipToEnd_settles.bind fun _ => .pure

theorem fieldValidate_settles : Settles tokens k fieldValidate := by
  intro ts _ hs
  unfold fieldValidate
  split
  · exact ends_behind validateClause_settles.map hs
  · exact ends_at (Nat.le_refl _)

theorem remRejected_settles (e : Expr) (msg : String) : Settles stmts k (remRejected e msg) := by
  unfold remRejected
  split
  · exact (recoverReject_settles msg).bind fun _ => .pure
  · exact .pure

theorem conditionalClause_settles {skipRest : TokenM Unit} (hskip : Settles tokens k skipRest) :
    Settles stmts k (conditionalClause skipRest) := by
  refine (recoverStmt_settles (lift_settles expr_settles)).bind fun e => ?_
  cases e with
  | none => exact .pure
  | some e =>
      refine (remRejected_settles e _).bind fun rejected => ?_
      cases rejected with
      | true => exact .pure
      | false => exact (lift_settles hskip).bind fun _ => .pure

theorem conditional_settles {skipRest : TokenM Unit} (hskip : Settles tokens k skipRest) :
    Settles stmts k (conditional skipRest) := by
  refine (lift_settles peek_settles).bind fun t => ?_
  split
  · exact (lift_settles advance_settles).bind fun _ => conditionalClause_settles hskip
  · exact .pure

theorem fieldEnd_settles : Settles stmts k fieldEnd := by
  refine (lift_settles peek_settles).bind fun t => ?_
  split
  · exact lift_settles advance_settles
  all_goals first | exact .pure | exact report_settles _ | exact recoverReject_settles _

theorem fieldStmt_settles (b : Body) (name : String) : Settles stmts k (fieldStmt b name) := by
  refine (lift_settles (skip_settles _)).bind fun _ => ?_
  refine (recoverStmt_settles (lift_settles parseType_settles)).bind fun ty => ?_
  cases ty with
  | none => exact .pure
  | some ty =>
      refine (lift_settles fieldValidate_settles).bind fun v => ?_
      refine (conditional_settles skipToEnd_settles).bind fun cond => ?_
      cases cond with
      | none => exact .pure
      | some cond => exact fieldEnd_settles.bind fun _ => .pure

theorem validateStmt_settles (b : Body) : Settles tokens k (validateStmt b) :=
  validateClause_settles.bind fun _ => (skip_settles _).bind fun _ => .pure

theorem letStmt_settles (b : Body) (name : String) : Settles tokens k (letStmt b name) :=
  (skip_settles _).bind fun _ => expr_settles.attempt.bind fun _ =>
    (skip_settles _).bind fun _ => .pure

theorem letOrField_settles (b : Body) : Settles stmts k (letOrField b) := by
  refine (lift_settles peek_settles).bind fun t => ?_
  split
  · exact (lift_settles advance_settles).bind fun _ => lift_settles (letStmt_settles b _)
  · exact fieldStmt_settles b _

/-! ### Loops -/

theorem carryStep_consumes (carries : List Carry) : Consumes stmts k (carryStep carries) := by
  refine (lift_consumes advance_consumes).bind fun _ => ?_
  refine (lift_settles (nameOr_settles _)).bind fun name => ?_
  refine (lift_settles (skip_settles _)).bind fun _ => ?_
  refine (recoverStmt_settles (lift_settles parseType_settles)).bind fun ty => ?_
  cases ty with
  | none => exact .pure
  | some ty =>
      refine (lift_settles (skip_settles _)).bind fun _ => ?_
      refine (lift_settles (exprOr_settles _)).bind fun init => ?_
      exact (lift_settles (skip_settles _)).bind fun _ => .pure

theorem loopCondition_settles : Settles tokens k loopCondition := by
  refine peek_settles.bind fun t => ?_
  split
  · exact .pure
  · exact exprOr_settles _

theorem nextStmt_settles : Settles tokens k nextStmt :=
  (nameOr_settles _).bind fun _ => (skip_settles _).bind fun _ =>
    (exprOr_settles _).bind fun _ => (skip_settles _).bind fun _ => .pure

theorem loopField_settles (body : List Field) (name : String) :
    Settles stmts k (loopField body name) := by
  refine (lift_settles (skip_settles _)).bind fun _ => ?_
  refine (recoverStmt_settles (lift_settles parseType_settles)).bind fun ty => ?_
  cases ty with
  | none => exact .pure
  | some ty =>
      refine (conditional_settles .pure).bind fun cond => ?_
      cases cond with
      | none => exact .pure
      | some cond => exact (lift_settles (skip_settles _)).bind fun _ => .pure

/-- Looking at the next token takes none, in both kinds of parsers. -/
theorem lift_peek_looks (s : Recovery.State (List Token) ParseError) :
    ∃ t, (liftM peek : StmtM Token) s = .ok t s :=
  ⟨current s.input, rfl⟩

theorem loopItem_consumes (acc : List Field × List NextStmt) :
    Consumes stmts k (loopItem acc) := by
  refine Consumes.afterLook lift_peek_looks fun t => ?_
  refine (lift_consumes advance_consumes).bind fun _ => ?_
  split
  · exact (lift_settles nextStmt_settles).bind fun _ => .pure
  · exact (loopField_settles acc.1 _).bind fun _ => .pure
  · exact (lift_settles (skip_settles _)).bind fun _ => .pure

theorem loopStmt_settles (b : Body) : Settles stmts k (loopStmt b) := by
  refine (lift_settles (nameOr_settles _)).bind fun name => ?_
  refine (stmtsUntil_settles carryStep_consumes rfl []).bind fun carries => ?_
  refine (lift_settles (skip_settles _)).bind fun _ => ?_
  refine (lift_settles loopCondition_settles).bind fun condition => ?_
  refine (lift_settles (skip_settles _)).bind fun _ => ?_
  refine (stmtsUntil_settles loopItem_consumes rfl ([], [])).bind fun items => ?_
  refine (lift_settles (skip_settles _)).bind fun _ => ?_
  exact (remRejected_settles condition _).bind fun _ => .pure

/-! ### Bodies -/

theorem caseLabel_consumes : Consumes tokens k caseLabel := by
  intro ts n _ hn _
  have hlength : ts.length = n + 1 := hn
  unfold caseLabel
  split <;>
    exact ends_at (by simp only [List.length_cons, List.length_tail] at hlength ⊢; omega)

theorem matchArm_consumes (hinner : Settles stmts (k - 1) inner) (arms : List MatchArm) :
    Consumes stmts k (matchArm inner arms) := by
  refine (lift_consumes caseLabel_consumes).bind fun label => ?_
  refine (lift_settles (skip_settles _)).bind fun _ => ?_
  refine (lift_settles (skip_settles _)).bind fun _ => ?_
  refine (recoverStmt_settles hinner).bind fun arm => ?_
  cases arm with
  | none => exact .pure
  | some b => exact (lift_settles (skip_settles _)).bind fun _ => .pure

theorem matchStmt_settles (hinner : Settles stmts k inner) (b : Body) :
    Settles stmts k (matchStmt inner b) := by
  refine (lift_settles (exprOr_settles _)).bind fun tag => ?_
  refine (lift_settles (skip_settles _)).bind fun _ => ?_
  refine (stmtsUntil_settles (matchArm_consumes (hinner.mono (Nat.sub_le k 1))) rfl []).bind
    fun arms => ?_
  exact (lift_settles (skip_settles _)).bind fun _ => .pure

/-- A statement takes its first token before it enters a body. -/
theorem bodyItem_consumes (hinner : Settles stmts (k - 1) inner) (b : Body) :
    Consumes stmts k (bodyItem inner b) := by
  refine Consumes.afterLook lift_peek_looks fun t => ?_
  refine (lift_consumes advance_consumes).bind fun _ => ?_
  split
  · exact lift_settles (validateStmt_settles b)
  · exact matchStmt_settles hinner b
  · exact letOrField_settles b
  · exact loopStmt_settles b
  · exact fieldStmt_settles b _
  · exact (lift_settles (skip_settles _)).bind fun _ => .pure

theorem parseBlock_settles (hinner : Settles stmts (k - 1) inner) :
    Settles stmts k (parseBlock inner) :=
  (stmtsUntil_settles (bodyItem_consumes hinner) rfl .empty).bind fun _ =>
    (lift_settles (skip_settles _)).bind fun _ => .pure

/-- A bound on the depth is enough for an input with fewer tokens. -/
theorem parseBodyWithin_settles (n : ℕ) : Settles stmts n (parseBodyWithin n) := by
  induction n with
  | zero => exact fun s _ hs => absurd hs (Nat.not_lt_zero _)
  | succ n ih => exact parseBlock_settles ih

theorem parseBody_settles : Settles stmts k parseBody :=
  fun s hok _ => parseBodyWithin_settles (s.input.length + 1) s hok (Nat.lt_succ_self _)

end Statements

/-! ### State machines -/

theorem peek_looks (ts : List Token) : ∃ t, peek ts = .ok t ts := ⟨current ts, rfl⟩

theorem keyClause_settles : Settles tokens k keyClause := by
  intro ts _ hs
  unfold keyClause
  split
  · have hclause : Settles tokens k (do
        skip .eq
        let key ← expr
        skip .semicolon
        pure (some key)) :=
      (skip_settles _).bind fun _ => expr_settles.bind fun _ => (skip_settles _).bind fun _ => .pure
    exact ends_behind hclause hs
  · exact ends_at (Nat.le_refl _)

theorem guardClause_settles : Settles tokens k guardClause := by
  intro ts _ hs
  unfold guardClause
  split
  · have hclause : Settles tokens k (do
        skip .lParen
        let guard ← expr
        skip .rParen
        pure (some guard)) :=
      (skip_settles _).bind fun _ => expr_settles.bind fun _ => (skip_settles _).bind fun _ => .pure
    exact ends_behind hclause hs
  · exact ends_at (Nat.le_refl _)

theorem skipArrow_settles : Settles tokens k skipArrow := by
  intro ts _ _
  unfold skipArrow
  split
  · exact ends_at (Nat.le_succ _)
  · exact ends_at (Nat.le_succ _)
  · exact ends_at (Nat.le_refl _)

theorem actionItem_consumes (actions : List Action) : Consumes tokens k (actionItem actions) := by
  refine Consumes.afterLook peek_looks fun t => ?_
  refine advance_consumes.bind fun _ => ?_
  split
  · refine (nameOr_settles _).bind fun var => advance_settles.bind fun _ => ?_
    exact expr_settles.bind fun _ => (skip_settles _).bind fun _ => .pure
  · exact (nameOr_settles _).bind fun _ => (skip_settles _).bind fun _ => .pure
  · exact .pure

theorem transitionItem_consumes (state : String) (transitions : List Transition) :
    Consumes tokens k (transitionItem state transitions) := by
  refine Consumes.afterLook peek_looks fun t => ?_
  refine advance_consumes.bind fun _ => ?_
  split
  · refine (nameOr_settles _).bind fun msgType => guardClause_settles.bind fun guard => ?_
    refine skipArrow_settles.bind fun _ => (nameOr_settles _).bind fun toState => ?_
    refine (skip_settles _).bind fun _ => ?_
    refine (tokensUntil_settles actionItem_consumes []).bind fun actions => ?_
    exact (skip_settles _).bind fun _ => .pure
  · exact .pure

theorem stateItem_consumes (blocks : List State) : Consumes tokens k (stateItem blocks) := by
  refine Consumes.afterLook peek_looks fun t => ?_
  refine advance_consumes.bind fun _ => ?_
  split
  · refine (nameOr_settles _).bind fun name => (skip_settles _).bind fun _ => ?_
    refine (tokensUntil_settles (transitionItem_consumes name) []).bind fun transitions => ?_
    exact (skip_settles _).bind fun _ => .pure
  · exact .pure

/-- A state machine takes its keyword, also when there is an error behind it. -/
theorem parseStateMachine_consumes : Consumes tokens k parseStateMachine := by
  refine advance_consumes.bind fun _ => (nameOr_settles _).bind fun name => ?_
  refine (skip_settles _).bind fun _ => keyClause_settles.bind fun key => ?_
  refine (tokensUntil_settles stateItem_consumes []).bind fun blocks => ?_
  exact (skip_settles _).bind fun _ => .pure

/-! ### Protocols -/

theorem attributeValue_settles (keyword : Token) (word old : String) :
    Settles tokens k (attributeValue keyword word old) := by
  intro ts _ _
  unfold attributeValue
  split
  · exact ends_at (Nat.le_succ _)
  · split
    · exact ends_at (Nat.le_succ _)
    · exact ends_at (Nat.le_refl _)
  · exact ends_at (Nat.le_refl _)

theorem attribute_settles (keyword : Token) (word old : String) :
    Settles tokens k (attribute_ keyword word old) :=
  (skip_settles _).bind fun _ => (attributeValue_settles _ _ _).bind fun _ =>
    (skip_settles _).bind fun _ => .pure

theorem endianDecl_settles (p : SourceProtocol) : Settles tokens k (endianDecl p) :=
  (attribute_settles _ _ _).bind fun _ => .pure

theorem modeDecl_settles (p : SourceProtocol) : Settles tokens k (modeDecl p) :=
  (attribute_settles _ _ _).bind fun _ => .pure

theorem skipPlugin_settles : Settles tokens k skipPlugin := by
  intro ts _ _
  unfold skipPlugin
  split
  · refine ends_at ((Parser.skipIf_length _ _).trans ?_)
    simp only [tokens, List.length_cons]
    omega
  · exact ends_at ((Parser.skipIf_length _ _).trans (Nat.le_succ _))
  · exact ends_at (Nat.le_refl _)

theorem eofDecl_settles (p : SourceProtocol) : Settles tokens k (eofDecl p) :=
  (skip_settles _).bind fun _ => (nameOr_settles _).bind fun _ =>
    skipPlugin_settles.bind fun _ => (skip_settles _).bind fun _ => .pure

theorem metaItem_consumes (p : SourceProtocol) : Consumes tokens k (metaItem p) := by
  refine Consumes.afterLook peek_looks fun t => ?_
  refine advance_consumes.bind fun _ => ?_
  split
  · exact endianDecl_settles p
  · exact modeDecl_settles p
  · exact eofDecl_settles p
  · exact .pure

theorem metaDecl_settles (p : SourceProtocol) : Settles tokens k (metaDecl p) :=
  (skip_settles _).bind fun _ => (tokensUntil_settles metaItem_consumes p).bind fun _ =>
    (skip_settles _).bind fun _ => .pure

theorem protocolDecl_settles (p : SourceProtocol) : Settles tokens k (protocolDecl p) :=
  peek_settles.bind fun _ => advance_settles.bind fun _ => (skip_settles _).bind fun _ => .pure

theorem bindSource_settles : Settles tokens k bindSource := by
  intro ts _ hs
  unfold bindSource
  split
  · exact ends_behind (nameOr_settles _) hs
  · exact ends_at (Nat.le_refl _)

theorem bindWhen_settles : Settles tokens k bindWhen := by
  intro ts _ hs
  unfold bindWhen
  split
  · exact ends_behind (exprOr_settles _) hs
  · exact ends_at (Nat.le_refl _)

theorem bindDecl_settles (p : SourceProtocol) : Settles tokens k (bindDecl p) := by
  refine (nameOr_settles _).bind fun layer => (nameOr_settles _).bind fun field => ?_
  refine bindSource_settles.bind fun source => bindWhen_settles.bind fun when_ => ?_
  exact skipToEnd_settles.bind fun _ => (skip_settles _).bind fun _ => .pure

theorem stateMachineDecl_consumes (p : SourceProtocol) :
    Consumes tokens k (stateMachineDecl p) := by
  refine parseStateMachine_consumes.attempt.bind fun sm => ?_
  cases sm with
  | some sm => exact .pure
  | none => exact advance_settles.bind fun _ => .pure

theorem messageDecl_settles (p : SourceProtocol) : Settles stmts k (messageDecl p) := by
  refine (lift_settles (nameOr_settles _)).bind fun name => ?_
  refine (lift_settles (skip_settles _)).bind fun _ => ?_
  exact (recoverStmt_settles parseBody_settles).bind fun _ => .pure

theorem protocolItem_consumes (p : SourceProtocol) : Consumes stmts k (protocolItem p) := by
  refine Consumes.afterLook lift_peek_looks fun t => ?_
  split
  · exact lift_consumes (stateMachineDecl_consumes p)
  · refine (lift_consumes advance_consumes).bind fun _ => ?_
    split
    · exact lift_settles (protocolDecl_settles p)
    · exact lift_settles (metaDecl_settles p)
    · exact lift_settles (endianDecl_settles p)
    · exact lift_settles (modeDecl_settles p)
    · exact messageDecl_settles p
    · exact lift_settles (bindDecl_settles p)
    · exact .pure

end StmtParser

open StmtParser

theorem protocolParser_settles {k : ℕ} : Settles stmts k protocolParser :=
  stmtsUntil_settles protocolItem_consumes rfl _

/-! ### Every loop ends -/

/-- On inputs of at most some length, every round of a loop that is not at its stop takes a token
and reaches no bound itself. The mode is that of the state. -/
def Advances {α : Type} (n : ℕ) (stop : List Token → Bool) (step : α → StmtM α) : Prop :=
  ∀ a s, stop s.input = false → s.input.length ≤ n → .overrun ∉ s.diags →
    (after (step a s)).input.length < s.input.length ∧ .overrun ∉ (after (step a s)).diags ∧
      ∀ s', step a s ≠ .error .overrun s'

theorem advances_of_consumes {α : Type} {n : ℕ} {stop : List Token → Bool} {step : α → StmtM α}
    (hstep : ∀ a, Consumes stmts (n + 1) (step a)) (hnil : stop [] = true) :
    Advances n stop step := by
  intro a s hstop hn hdiags
  obtain ⟨m, hm⟩ := Nat.exists_eq_add_one_of_ne_zero (length_pos_of_go hnil hstop).ne'
  have hends := hstep a s m ⟨trivial, hdiags⟩ hm (by omega)
  exact ⟨hm ▸ Nat.lt_succ_of_le hends.size, hends.ok.2, hends.fits⟩

/-- The loops of the parser. A body of a bounded depth is entered on inputs below the bound. -/
structure LoopsAdvance : Prop where
  protocolItems : ∀ n, Advances n atEof protocolItem
  metaItems : ∀ n, Advances n atClose fun p => liftM (metaItem p)
  statements : ∀ n, Advances n atClose (bodyItem (parseBodyWithin n))
  arms : ∀ n, Advances n atClose (matchArm (parseBodyWithin n))
  carries : ∀ n, Advances n (fun ts => !atCarry ts) carryStep
  loopItems : ∀ n, Advances n atClose loopItem
  states : ∀ n, Advances n atClose fun blocks => liftM (stateItem blocks)
  transitions : ∀ n state, Advances n atClose fun ts => liftM (transitionItem state ts)
  actions : ∀ n, Advances n atClose fun actions => liftM (actionItem actions)
  resync : ∀ ts, resyncStatement ts = ts ∨ resyncStatement ts = ts.tail ∨
    resyncStatement ts = resyncStatement ts.tail
  skips : ∀ ts, skipToEnd ts = .ok () ts ∨ skipToEnd ts = skipToEnd ts.tail
  exprs : ∀ ts, (parseExpr ts).1 ≠ .error .overrun

/-- A round of the resynchronisation stops, or goes on behind the token. -/
theorem resyncStatement_round (ts : List Token) :
    resyncStatement ts = ts ∨ resyncStatement ts = ts.tail ∨
      resyncStatement ts = resyncStatement ts.tail := by
  fun_cases resyncStatement ts with
  | case3 => exact .inr (.inl rfl)
  | case11 => exact .inr (.inr rfl)
  | case12 => exact .inr (.inr rfl)
  | _ => exact .inl rfl

theorem skipToEnd_round (ts : List Token) :
    skipToEnd ts = .ok () ts ∨ skipToEnd ts = skipToEnd ts.tail := by
  cases ts with
  | nil => exact .inl rfl
  | cons t ts =>
      unfold skipToEnd
      rw [List.dropWhile_cons]
      split
      · exact .inr rfl
      · exact .inl rfl

theorem loopsAdvance : LoopsAdvance where
  protocolItems := fun _ => advances_of_consumes protocolItem_consumes rfl
  metaItems := fun _ => advances_of_consumes (fun p => lift_consumes (metaItem_consumes p)) rfl
  statements := fun n => advances_of_consumes (bodyItem_consumes (parseBodyWithin_settles n)) rfl
  arms := fun n => advances_of_consumes (matchArm_consumes (parseBodyWithin_settles n)) rfl
  carries := fun _ => advances_of_consumes carryStep_consumes rfl
  loopItems := fun _ => advances_of_consumes loopItem_consumes rfl
  states := fun _ => advances_of_consumes (fun b => lift_consumes (stateItem_consumes b)) rfl
  transitions := fun _ state =>
    advances_of_consumes (fun tr => lift_consumes (transitionItem_consumes state tr)) rfl
  actions := fun _ => advances_of_consumes (fun as => lift_consumes (actionItem_consumes as)) rfl
  resync := resyncStatement_round
  skips := skipToEnd_round
  exprs := parseExpr_fits

theorem protocolParser_ends (ts : List Token) (recover : Bool) :
    Scanner.Ends stmts ts.length (protocolParser ⟨ts, recover, []⟩) :=
  protocolParser_settles ⟨ts, recover, []⟩ ⟨trivial, List.not_mem_nil⟩ (Nat.lt_succ_self _)

/-- As many rounds as there are tokens are enough, and more of them change nothing. -/
theorem protocolParser_rounds {ts : List Token} {n : ℕ} (recover : Bool) (hn : ts.length < n) :
    Scanner.untilWithin (fun s => atEof s.input) .overrun protocolItem n emptyProtocol
      ⟨ts, recover, []⟩ = protocolParser ⟨ts, recover, []⟩ :=
  Scanner.untilWithin_more hn (protocolParser_ends ts recover).fits

/-- A parse that ends in either mode. Every round of every loop stops or takes a token, and no
loop and no depth reaches its bound. -/
structure Terminates (ts : List Token) : Prop where
  loops : LoopsAdvance
  rounds : ∀ recover n, ts.length < n →
    Scanner.untilWithin (fun s => atEof s.input) .overrun protocolItem n emptyProtocol
      ⟨ts, recover, []⟩ = protocolParser ⟨ts, recover, []⟩
  failFast : parseProtocol ts ≠ .error .overrun
  recovering : .overrun ∉ (parseProtocolWithDiagnostics ts).2

/-- The parser ends on every sequence of tokens. -/
theorem parser_terminates (ts : List Token) : Terminates ts where
  loops := loopsAdvance
  rounds := fun recover _ hn => protocolParser_rounds recover hn
  failFast := Recovery.failFast_fits (protocolParser_ends ts false)
  recovering := Recovery.collecting_fits (protocolParser_ends ts true)

end NFdl
