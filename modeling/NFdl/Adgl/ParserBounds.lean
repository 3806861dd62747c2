import NFdl.Adgl.Parser

/-!
# The ADGL parser ends

Every round of a loop takes a token or ends in an error, also where the error is recorded and
the parser goes on. So the bounds on the loops and on the depth of expressions are never
reached, with recovery and without.
-/

namespace Adgl

open Ast
open Scanner (Measure ends_ok ends_error)

namespace RulesetParser

variable {α β : Type} {k n : ℕ} {all : List Token}

/-! ### Tokens -/

/-- A parser is measured by the tokens that it leaves, the last ones of all tokens. -/
def tokens (all : List Token) : Measure (List Token) ParseError where
  size := List.length
  Ok := fun ts => ts <:+ all
  overrun := .overrun

theorem run_settles {p : TokenParser α} (hp : Parser.Shrinks p)
    (hfits : ∀ ts, (p ts).1 ≠ .error .overrun) : Scanner.Settles (tokens all) k (run p) := by
  intro ts hok _
  have hrest := hp ts
  have hne := hfits ts
  unfold run
  split
  · rename_i a rest hr
    rw [hr] at hrest
    exact ends_ok (hrest.trans hok) hrest.length_le
  · rename_i e rest hr
    rw [hr] at hrest hne
    exact ends_error (hrest.trans hok) hrest.length_le fun he => hne (by rw [he]; rfl)

/-- A parser that is part of the expression parser. -/
theorem run_inner {p : TokenParser α}
    (hp : Parser.Inner ParseError.overrun fun _ : TokenParser Unit => p) :
    Scanner.Settles (tokens all) k (run p) :=
  run_settles (hp.shrinks (p := Parser.ret ()) fun _ => List.suffix_rfl) fun ts =>
    hp.fits (p := Parser.ret ()) (k := ts.length + 1) (fun _ => List.suffix_rfl)
      (fun _ _ => nofun) ts (Nat.lt_succ_self _)

theorem run_one {pick : Token → Option α} {e : List Token → ParseError}
    (he : ∀ ts, e ts ≠ .overrun) : Scanner.Moves (tokens all) k (run (Parser.one pick e)) := by
  intro ts hok hts
  refine ⟨run_inner (.one he) ts hok hts, ?_⟩
  intro a rest hr
  cases ts with
  | nil => cases hr
  | cons t ts =>
      unfold run at hr
      cases hpick : pick t with
      | none =>
          rw [Parser.one_none hpick] at hr
          cases hr
      | some b =>
          rw [Parser.one_some hpick] at hr
          cases hr
          exact Nat.lt_succ_self _

theorem peek_settles : Scanner.Settles (tokens all) k peek :=
  fun _ hok _ => ends_ok hok (Nat.le_refl _)

theorem advance_settles : Scanner.Settles (tokens all) k advance := by
  intro ts hok _
  have htail : ts.tail <:+ ts := List.tail_suffix ts
  exact ends_ok (htail.trans hok) htail.length_le

theorem throw_moves {e : ParseError} (he : e ≠ .overrun) :
    Scanner.Moves (tokens all) k (throw e : TokenM α) :=
  fun _ hok _ => ⟨ends_error hok (Nat.le_refl _) he, nofun⟩

theorem plainError_ne (code message expected : String) :
    plainError code message expected ≠ .overrun := nofun

theorem rejectIf_settles {c : Prop} [Decidable c] {e : ParseError} (he : e ≠ .overrun) :
    Scanner.Settles (tokens all) k (rejectIf c e) := by
  unfold rejectIf
  split
  · exact .throw he
  · exact .pure

theorem expr_settles : Scanner.Settles (tokens all) k expr :=
  run_settles parseExpr_shrinks parseExpr_fits

theorem punct_moves (kind : Token) : Scanner.Moves (tokens all) k (punct kind) :=
  run_one fun _ => nofun

theorem punct_settles (kind : Token) : Scanner.Settles (tokens all) k (punct kind) :=
  (punct_moves kind).settles

theorem consumeKw_moves (kw : Keyword) : Scanner.Moves (tokens all) k (consumeKw kw) :=
  run_one fun _ => nofun

theorem consumeKw_cons (kw : Keyword) (ts : List Token) :
    consumeKw kw (.kw kw :: ts) = .ok () ts := by
  simp [consumeKw, run, Parser.one]

theorem consumeKw_settles (kw : Keyword) : Scanner.Settles (tokens all) k (consumeKw kw) :=
  (consumeKw_moves kw).settles

theorem consumeWordExact_settles (word : String) :
    Scanner.Settles (tokens all) k (consumeWordExact word) :=
  Scanner.Moves.settles (run_one fun _ => nofun)

theorem wordAny_moves : Scanner.Moves (tokens all) k wordAny := run_one fun _ => nofun

theorem identNonKw_moves : Scanner.Moves (tokens all) k identNonKw := run_one fun _ => nofun

theorem stringLit_moves : Scanner.Moves (tokens all) k stringLit := run_one fun _ => nofun

theorem integer_moves : Scanner.Moves (tokens all) k integer := run_one fun _ => nofun

theorem identAny_moves : Scanner.Moves (tokens all) k identAny := by
  intro ts hok _
  have htail : ts.tail <:+ all := (List.tail_suffix ts).trans hok
  unfold identAny run
  fun_cases ExprParser.parseIdentAny ts with
  | case1 s ts => exact (ends_ok htail (Nat.le_refl _)).advances (Nat.lt_succ_self _)
  | case2 k ts hk => exact (ends_ok htail (Nat.le_refl _)).advances (Nat.lt_succ_self _)
  | case3 k ts hk =>
      have hne : ExprParser.reservedKeyword ≠ .overrun := nofun
      exact (ends_error htail (Nat.le_refl _) hne).advances (Nat.lt_succ_self _)
  | case4 ts hident hkw => exact ⟨ends_error hok (Nat.le_refl _) nofun, nofun⟩

/-! ### Repetition -/

theorem tokensUntil_settles {stop : List Token → Bool} {step : α → TokenM α}
    (hstep : ∀ a, Scanner.Moves (tokens all) k (step a)) (a : α) :
    Scanner.Settles (tokens all) k (tokensUntil stop step a) :=
  Scanner.Settles.loop (m := tokens all) (fun a ts hok hts _ => hstep a ts hok hts) a

section Parts

variable {p : TokenM α}

theorem pushed_moves (hp : Scanner.Moves (tokens all) k p) (as : List α) :
    Scanner.Moves (tokens all) k (pushed p as) :=
  hp.bind fun _ => .pure

theorem repeated_settles {stop : List Token → Bool} (hp : Scanner.Moves (tokens all) k p) :
    Scanner.Settles (tokens all) k (repeated stop p) :=
  tokensUntil_settles (pushed_moves hp) []

theorem commaSep_moves (hp : Scanner.Moves (tokens all) k p) :
    Scanner.Moves (tokens all) k (commaSep p) :=
  hp.bind fun a => tokensUntil_settles (fun as => advance_settles.bindMoves fun _ =>
    pushed_moves hp as) [a]

theorem listUntil_settles (close : Token) (hp : Scanner.Moves (tokens all) k p) :
    Scanner.Settles (tokens all) k (listUntil close p) := by
  refine peek_settles.bind fun t => ?_
  split
  · exact .pure
  · exact (commaSep_moves hp).settles

theorem optional_settles (first : Token) (hp : Scanner.Settles (tokens all) k p) :
    Scanner.Settles (tokens all) k (optional_ first p) := by
  refine peek_settles.bind fun t => ?_
  split
  · exact hp.map
  · exact .pure

theorem parenthesized_settles (hp : Scanner.Settles (tokens all) k p) :
    Scanner.Settles (tokens all) k (parenthesized p) :=
  (punct_settles _).bind fun _ => hp.bind fun _ => (punct_settles _).bind fun _ => .pure

theorem parseFields_settles {field : String → TokenM α}
    (hp : ∀ s, Scanner.Settles (tokens all) k (field s)) :
    Scanner.Settles (tokens all) k (parseFields field) := by
  have hfield : Scanner.Moves (tokens all) k (do
      let key ← wordAny
      punct .colon
      field key) :=
    wordAny_moves.bind fun key => (punct_settles _).bind fun _ => hp key
  exact (punct_settles _).bind fun _ => (listUntil_settles _ hfield).bind fun _ =>
    (punct_settles _).bind fun _ => .pure

theorem known_settles (names : String → Option α) {e : ParseError} (he : e ≠ .overrun) :
    Scanner.Settles (tokens all) k (known names e) := by
  refine identAny_moves.settles.bind fun name => ?_
  split
  · exact .pure
  · exact .throw he

end Parts

theorem parseScopeType_settles : Scanner.Settles (tokens all) k parseScopeType :=
  known_settles _ nofun

theorem parseSeverity_settles : Scanner.Settles (tokens all) k parseSeverity :=
  known_settles _ nofun

theorem parseKindIdent_settles : Scanner.Settles (tokens all) k parseKindIdent :=
  wordAny_moves.settles.bind fun name => tokensUntil_settles
    (fun segments => advance_settles.bindMoves fun _ => pushed_moves wordAny_moves segments) [name]

theorem parseRefList_settles : Scanner.Settles (tokens all) k parseRefList :=
  (punct_settles _).bind fun _ => (listUntil_settles _ identAny_moves).bind fun _ =>
    (punct_settles _).bind fun _ => .pure

/-! ### Statements -/

theorem parseSign_settles : Scanner.Settles (tokens all) k parseSign := by
  refine peek_settles.bind fun t => ?_
  split
  · exact advance_settles.bind fun _ => .pure
  · exact advance_settles.bind fun _ => .pure
  · exact .throw nofun

theorem parseInferField_settles (key : String) :
    Scanner.Settles (tokens all) k (parseInferField key) := by
  unfold parseInferField
  split
  · exact expr_settles.map
  · exact parseSign_settles.bind fun _ => integer_moves.settles.bind fun _ => .pure
  · exact parseRefList_settles.map
  · exact .throw nofun

theorem parseEmitField_settles (key : String) :
    Scanner.Settles (tokens all) k (parseEmitField key) := by
  unfold parseEmitField
  split
  · exact expr_settles.map
  · exact parseSeverity_settles.map
  · exact parseRefList_settles.map
  · exact stringLit_moves.settles.map
  · exact .throw nofun

theorem parseActionField_settles (key : String) :
    Scanner.Settles (tokens all) k (parseActionField key) := by
  unfold parseActionField
  split
  · exact expr_settles.map
  · exact stringLit_moves.settles.map
  · exact parseRefList_settles.map
  · exact .throw nofun

theorem parseInferStmt_moves : Scanner.Moves (tokens all) k parseInferStmt :=
  (consumeKw_moves _).bind fun _ => (consumeKw_settles _).bind fun _ =>
    (parenthesized_settles identNonKw_moves.settles).bind fun _ =>
      (parseFields_settles parseInferField_settles).bind fun _ => .pure

theorem parseEmitStmt_moves : Scanner.Moves (tokens all) k parseEmitStmt :=
  (consumeKw_moves _).bind fun _ => (consumeKw_settles _).bind fun _ =>
    (parenthesized_settles identNonKw_moves.settles).bind fun _ =>
      (parseFields_settles parseEmitField_settles).bind fun _ => .pure

theorem parseActionStmt_moves : Scanner.Moves (tokens all) k parseActionStmt :=
  (consumeKw_moves _).bind fun _ => identAny_moves.settles.bind fun _ =>
    (optional_settles _ (parenthesized_settles parseKindIdent_settles)).bind fun _ =>
      (parseFields_settles parseActionField_settles).bind fun _ => .pure

theorem parseStmtAny_moves : Scanner.Moves (tokens all) k parseStmtAny := by
  refine peek_settles.bindMoves fun t => ?_
  split
  · exact parseInferStmt_moves.map
  · exact parseEmitStmt_moves.map
  · exact parseActionStmt_moves.map
  · exact throw_moves nofun

theorem misplaced_ne {evidence : Bool} {stmt : Stmt} {e : ParseError}
    (h : misplaced? evidence stmt = some e) : e ≠ .overrun := by
  rintro rfl
  unfold misplaced? at h
  split at h
  · split at h <;> cases h
  · split at h <;> cases h
  · cases h

theorem parseStmtInRule_moves (evidence : Bool) :
    Scanner.Moves (tokens all) k (parseStmtInRule evidence) := by
  refine parseStmtAny_moves.bind fun stmt => ?_
  split
  · rename_i e he
    exact .throw (misplaced_ne he)
  · exact .pure

theorem parseBlock_settles : Scanner.Settles (tokens all) k parseBlock :=
  (punct_settles _).bind fun _ => (repeated_settles parseStmtAny_moves).bind fun _ =>
    (punct_settles _).bind fun _ => .pure

theorem parseIfElseBlock_settles : Scanner.Settles (tokens all) k parseIfElseBlock := by
  have helse : Scanner.Settles (tokens all) k (do
      consumeKw .else_
      parseBlock) :=
    (consumeKw_settles _).bind fun _ => parseBlock_settles
  exact (consumeKw_settles _).bind fun _ => expr_settles.bind fun _ =>
    parseBlock_settles.bind fun _ => (optional_settles _ helse).bind fun _ => .pure

/-! ### Anchors and correlates -/

theorem exprOrClose_settles : Scanner.Settles (tokens all) k exprOrClose := by
  refine peek_settles.bind fun t => ?_
  split
  · exact .pure
  · exact expr_settles.map

theorem parsePredicate_settles : Scanner.Settles (tokens all) k parsePredicate :=
  advance_settles.bind fun _ => exprOrClose_settles.bind fun _ =>
    (punct_settles _).bind fun _ => .pure

theorem optionalPredicate_settles : Scanner.Settles (tokens all) k optionalPredicate :=
  (optional_settles _ parsePredicate_settles).bind fun _ => .pure

theorem parseBinding_settles : Scanner.Settles (tokens all) k parseBinding :=
  identNonKw_moves.settles.bind fun _ => (punct_settles _).bind fun _ => .pure

theorem parseAnchorBlock_settles : Scanner.Settles (tokens all) k parseAnchorBlock :=
  (consumeKw_settles _).bind fun _ => parseBinding_settles.bind fun _ =>
    (consumeKw_settles _).bind fun _ => (parenthesized_settles parseKindIdent_settles).bind fun _ =>
      optionalPredicate_settles.bind fun _ => .pure

theorem parseDecisionAnchor_settles : Scanner.Settles (tokens all) k parseDecisionAnchor := by
  have hname : Scanner.Settles (tokens all) k (parenthesized identNonKw) :=
    parenthesized_settles identNonKw_moves.settles
  refine (consumeKw_settles _).bind fun _ => parseBinding_settles.bind fun _ => ?_
  refine peek_settles.bind fun t => ?_
  split
  · exact (consumeKw_settles _).bind fun _ => hname.bind fun _ => (punct_settles _).bind fun _ =>
      expr_settles.bind fun _ => (punct_settles _).bind fun _ => .pure
  · exact (consumeKw_settles _).bind fun _ => hname.bind fun _ =>
      optionalPredicate_settles.bind fun _ => .pure
  · exact .throw nofun

theorem parseCorrelateSource_settles : Scanner.Settles (tokens all) k parseCorrelateSource := by
  have hname : Scanner.Settles (tokens all) k (parenthesized identNonKw) :=
    parenthesized_settles identNonKw_moves.settles
  refine peek_settles.bind fun t => ?_
  split
  · exact (consumeKw_settles _).bind fun _ => (parenthesized_settles parseKindIdent_settles).map
  · exact (consumeKw_settles _).bind fun _ => hname.map
  · exact (consumeKw_settles _).bind fun _ => hname.map
  · exact .throw nofun

theorem parseArgs_settles : Scanner.Settles (tokens all) k (run (ExprParser.parseArgs parseExpr)) :=
  run_settles (ExprParser.parseArgs_inner.shrinks parseExpr_shrinks) fun ts =>
    ExprParser.parseArgs_inner.fits parseExpr_shrinks (k := ts.length + 1)
      (fun ts _ => parseExpr_fits ts) ts (Nat.lt_succ_self _)

theorem parseAdditive_settles :
    Scanner.Settles (tokens all) k (run (ExprParser.parseAdditive parseExpr)) :=
  run_settles (ExprParser.parseAdditive_outer.descends.shrinks parseExpr_shrinks) fun ts =>
    ExprParser.parseAdditive_outer.fits parseExpr_shrinks (k := ts.length)
      (fun ts _ => parseExpr_fits ts) ts (Nat.lt_succ_self _)

theorem parseTopoPredicate_settles : Scanner.Settles (tokens all) k parseTopoPredicate :=
  identNonKw_moves.settles.bind fun _ => (punct_settles _).bind fun _ =>
    parseArgs_settles.bind fun _ => .pure

theorem parseTimeWindow_settles : Scanner.Settles (tokens all) k parseTimeWindow :=
  parseAdditive_settles.bind fun _ => (consumeKw_settles _).bind fun _ =>
    (punct_settles _).bind fun _ => expr_settles.bind fun _ => (punct_settles _).bind fun _ =>
      expr_settles.bind fun _ => (punct_settles _).bind fun _ => .pure

theorem parseMinMatch_settles : Scanner.Settles (tokens all) k parseMinMatch :=
  (consumeKw_settles _).bind fun _ => (punct_settles _).bind fun _ =>
    (consumeWordExact_settles _).bind fun _ => (punct_settles _).bind fun _ =>
      integer_moves.settles.bind fun _ =>
        (rejectIf_settles (plainError_ne _ _ _)).bind fun _ => .pure

theorem parseCorrelateBlock_moves : Scanner.Moves (tokens all) k parseCorrelateBlock :=
  (consumeKw_moves _).bind fun _ => parseBinding_settles.bind fun _ =>
    parseCorrelateSource_settles.bind fun _ => (punct_settles _).bind fun _ =>
      (consumeWordExact_settles _).bind fun _ => (punct_settles _).bind fun _ =>
        parseTopoPredicate_settles.bind fun _ => (consumeWordExact_settles _).bind fun _ =>
          (punct_settles _).bind fun _ => parseTimeWindow_settles.bind fun _ =>
            (optional_settles _ parseMinMatch_settles).bind fun _ =>
              (punct_settles _).bind fun _ => .pure

/-! ### Declarations and rules -/

theorem parseRuleBody_settles (evidence : Bool) :
    Scanner.Settles (tokens all) k (parseRuleBody evidence) :=
  (repeated_settles parseCorrelateBlock_moves).bind fun _ =>
    (optional_settles _ parseIfElseBlock_settles).bind fun _ =>
      (repeated_settles (parseStmtInRule_moves evidence)).bind fun _ =>
        (punct_settles _).bind fun _ => .pure

/-- Behind its keyword, a declaration or a rule is on fewer tokens. -/
theorem keyword_ends {kw : Keyword} {f : Unit → TokenM α} {ts : List Token} (hok : ts <:+ all)
    (hf : ∀ k, Scanner.Settles (tokens all) k (f ())) :
    Scanner.Ends (tokens all) ts.length ((consumeKw kw >>= f) (.kw kw :: ts)) := by
  rw [Scanner.bind_ok (consumeKw_cons kw ts)]
  exact hf (ts.length + 1) ts hok (Nat.lt_succ_self _)

theorem map_ends {p : TokenM α} {f : α → β} {ts : List Token}
    (h : Scanner.Ends (tokens all) n (p ts)) :
    Scanner.Ends (tokens all) n ((f <$> p) ts) := by
  rw [map_eq_pure_bind]
  exact h.bind (Nat.le_refl _) fun a _ hok hs => ends_ok hok hs

theorem parseRuleHead_settles {kw : Keyword} {anchor : TokenM α}
    (hanchor : ∀ k, Scanner.Settles (tokens all) k anchor) {f : String × ScopeType × α → TokenM β}
    (hf : ∀ a k, Scanner.Settles (tokens all) k (f a)) {ts : List Token} (hok : ts <:+ all) :
    Scanner.Ends (tokens all) ts.length ((parseRuleHead kw anchor >>= f) (.kw kw :: ts)) := by
  unfold parseRuleHead
  rw [bind_assoc]
  refine keyword_ends hok fun k => ?_
  refine Scanner.Settles.bind ?_ fun a => hf a k
  exact identNonKw_moves.settles.bind fun _ => (punct_settles _).bind fun _ =>
    (consumeKw_settles _).bind fun _ => (punct_settles _).bind fun _ =>
      parseScopeType_settles.bind fun _ => (hanchor k).bind fun _ => .pure

theorem parseDecl_ends {ts : List Token} (hok : ts <:+ all) (h : atDecl ts = true) :
    Scanner.Ends (tokens all) (ts.length - 1) (parseDecl ts) := by
  have hrequires : ∀ ts, ts <:+ all →
      Scanner.Ends (tokens all) ts.length (parseRequiresDecl (.kw .requires :: ts)) := by
    refine fun ts hok => keyword_ends hok fun k => ?_
    exact (punct_settles _).bind fun _ => (punct_settles _).bind fun _ =>
      (listUntil_settles _ stringLit_moves).bind fun _ =>
        (rejectIf_settles (plainError_ne _ _ _)).bind fun _ =>
        (punct_settles _).bind fun _ => .pure
  have hexclusive : ∀ ts, ts <:+ all →
      Scanner.Ends (tokens all) ts.length
        (parseMutuallyExclusiveDecl (.kw .mutuallyExclusive :: ts)) :=
    fun ts hok => keyword_ends hok fun k =>
      parenthesized_settles (commaSep_moves identAny_moves).settles
  rw [atDecl, Bool.or_eq_true, decide_eq_true_eq, decide_eq_true_eq] at h
  cases ts with
  | nil => obtain h | h := h <;> cases h
  | cons t ts =>
      have hrest : ts <:+ all := (List.suffix_cons t ts).trans hok
      obtain rfl | rfl : t = .kw .requires ∨ t = .kw .mutuallyExclusive := h
      · exact map_ends (hrequires ts hrest)
      · exact map_ends (hexclusive ts hrest)

theorem parseRule_ends {ts : List Token} (hok : ts <:+ all) (h : atRule ts = true) :
    Scanner.Ends (tokens all) (ts.length - 1) (parseRule ts) := by
  have hevidence : ∀ ts, ts <:+ all →
      Scanner.Ends (tokens all) ts.length (parseEvidenceRule (.kw .evidence :: ts)) :=
    fun ts hok => parseRuleHead_settles (fun _ => parseAnchorBlock_settles)
      (fun _ _ => (parseRuleBody_settles true).bind fun _ => .pure) hok
  have hdecision : ∀ ts, ts <:+ all →
      Scanner.Ends (tokens all) ts.length (parseDecisionRule (.kw .decision :: ts)) :=
    fun ts hok => parseRuleHead_settles (fun _ => parseDecisionAnchor_settles)
      (fun _ _ => (parseRuleBody_settles false).bind fun _ => .pure) hok
  rw [atRule, Bool.or_eq_true, decide_eq_true_eq, decide_eq_true_eq] at h
  cases ts with
  | nil => obtain h | h := h <;> cases h
  | cons t ts =>
      have hrest : ts <:+ all := (List.suffix_cons t ts).trans hok
      obtain rfl | rfl : t = .kw .evidence ∨ t = .kw .decision := h
      · exact map_ends (hevidence ts hrest)
      · exact map_ends (hdecision ts hrest)

/-! ### Rulesets -/

def inputs (all : List Token) : Measure Input ParseError where
  size := fun i => i.tokens.length
  Ok := fun i => i.tokens <:+ all
  overrun := .overrun

/-- No bound was reached, also where its error was recorded. -/
abbrev items (all : List Token) : Measure (Recovery.State Input ParseError) ParseError :=
  Recovery.measure (inputs all)

theorem item_ends {p : TokenM α} {i : Input} (h : Scanner.Ends (tokens all) n (p i.tokens)) :
    Scanner.Ends (inputs all) n (item p i) := by
  unfold item
  cases hr : p i.tokens with
  | ok a ts =>
      rw [hr] at h
      exact ends_ok h.ok h.size
  | error e ts =>
      rw [hr] at h
      exact ends_error h.ok h.size h.error_ne

theorem item_settles {p : TokenM α} (hp : ∀ k, Scanner.Settles (tokens all) k p) :
    Scanner.Settles (items all) k (liftM (item p) : ItemM α) :=
  Recovery.silently_settles fun i hok hi => item_ends (hp k i.tokens hok hi)

theorem skipMember_suffix (depth : ℕ) (ts : List Token) : (skipMember depth ts).tokens <:+ ts := by
  fun_induction skipMember depth ts with
  | case1 => exact List.suffix_rfl
  | case2 => exact List.suffix_rfl
  | case3 => exact List.suffix_cons ..
  | case4 depth t ts _ _ ih => exact ih.trans (List.suffix_cons ..)

theorem resyncDeclOrRule_suffix (i : Input) : (resyncDeclOrRule i).tokens <:+ i.tokens := by
  have hskip := skipMember_suffix i.braceDepth i.tokens
  unfold resyncDeclOrRule
  dsimp only
  split
  · split
    · exact hskip
    · rename_i t ts heq
      rw [heq] at hskip
      split
      · rw [heq]
        exact hskip
      · exact (List.suffix_cons ..).trans hskip
  · exact hskip

/-- A member takes its keyword, also where an error in it is recorded. -/
theorem member_advances {p : TokenM α} {start : List Token → Bool} (hnil : start [] = false)
    (hp : ∀ ts, ts <:+ all → start ts = true → Scanner.Ends (tokens all) (ts.length - 1) (p ts))
    (as : List α) {s : Recovery.State Input ParseError} (hok : (items all).Ok s)
    (hs : start s.input.tokens = true) :
    Scanner.Advances (items all) ((items all).size s) (member p as s) := by
  have hpos : 0 < s.input.tokens.length := by
    cases hts : s.input.tokens with
    | nil =>
        rw [hts, hnil] at hs
        cases hs
    | cons t ts => exact Nat.succ_pos _
  have hitem :
      Scanner.Ends (items all) (s.input.tokens.length - 1) ((liftM (item p) : ItemM α) s) :=
    Recovery.silently_ends hok.2 (item_ends (hp _ hok.1 hs))
  have hmember : Scanner.Ends (items all) (s.input.tokens.length - 1) (member p as s) :=
    (Recovery.recoverItem_ends (m := inputs all)
      (fun i hok => ⟨(resyncDeclOrRule_suffix i).trans hok,
        (resyncDeclOrRule_suffix i).length_le⟩) hitem).bind (Nat.le_refl _)
      fun a s' hok' hs' => ends_ok hok' hs'
  exact hmember.advances (Nat.sub_lt hpos Nat.one_pos)

theorem membersUntil_settles {p : TokenM α} {start : List Token → Bool} (hnil : start [] = false)
    (hp : ∀ ts, ts <:+ all → start ts = true → Scanner.Ends (tokens all) (ts.length - 1) (p ts)) :
    Scanner.Settles (items all) k (membersUntil (fun ts => !start ts) (member p) []) :=
  Scanner.Settles.loop (m := items all) (fun as _ hok _ hgo => member_advances hnil hp as hok
    (Bool.not_eq_false' _ ▸ hgo)) []

theorem parseHead_settles : Scanner.Settles (tokens all) k parseHead :=
  (consumeKw_settles _).bind fun _ => stringLit_moves.settles.bind fun _ =>
    (punct_settles _).bind fun _ => (consumeKw_settles _).bind fun _ =>
      (punct_settles _).bind fun _ => stringLit_moves.settles.bind fun _ => .pure

theorem parseEnd_settles : Scanner.Settles (tokens all) k parseEnd :=
  (punct_settles _).bind fun _ => peek_settles.bind fun _ => rejectIf_settles (plainError_ne _ _ _)

theorem rulesetParser_settles : Scanner.Settles (items all) k rulesetParser :=
  (item_settles fun _ => parseHead_settles).bind fun _ =>
    (membersUntil_settles rfl fun _ hok => parseDecl_ends hok).bind fun _ =>
      (membersUntil_settles rfl fun _ hok => parseRule_ends hok).bind fun _ =>
        (item_settles fun _ => parseEnd_settles).bind fun _ => .pure

theorem rulesetParser_ends (i : Input) (recover : Bool) :
    Scanner.Ends (items i.tokens) i.tokens.length (rulesetParser ⟨i, recover, []⟩) :=
  rulesetParser_settles ⟨i, recover, []⟩ ⟨List.suffix_rfl, List.not_mem_nil⟩ (Nat.lt_succ_self _)

/-! ### The two modes -/

open Recovery (Agrees)

theorem member_agrees (p : TokenM α) (as : List α) : Agrees (member p as) :=
  ((Agrees.lift (item p)).recoverItem _).bind fun _ => .pure

theorem membersUntil_agrees (stop : List Token → Bool) (p : TokenM α) (as : List α) :
    Agrees (membersUntil stop (member p) as) :=
  @Agrees.untilStop _ _ _ (fun i : Input => i.tokens.length) (fun i : Input => stop i.tokens) _ _
    (member_agrees p) as

theorem rulesetParser_agrees : Agrees rulesetParser :=
  (Agrees.lift (item parseHead)).bind fun _ => (membersUntil_agrees _ parseDecl []).bind fun _ =>
    (membersUntil_agrees _ parseRule []).bind fun _ =>
      (Agrees.lift (item parseEnd)).bind fun _ => .pure

end RulesetParser

open RulesetParser

/-- The parser ends in both modes on every sequence of tokens: no loop and no depth reaches its
bound, neither in the error of the whole nor in one that is recorded. -/
theorem ruleset_parser_ends (ts : List Token) (depth : ℕ) (default : SourceRuleset) :
    Recovery.failFast rulesetParser ⟨ts, depth⟩ ≠ .error .overrun ∧
      .overrun ∉ (Recovery.collecting rulesetParser default ⟨ts, depth⟩).2 :=
  ⟨Recovery.failFast_fits (rulesetParser_ends ⟨ts, depth⟩ false),
    Recovery.collecting_fits (rulesetParser_ends ⟨ts, depth⟩ true)⟩

/-- A source is accepted with recovery as it is without, as the same ruleset. Where it is
rejected, the first error that is reported is the one at which the parser without recovery
stops. -/
theorem parseRuleset_modes (cs : List Char) :
    (∃ ast, parseRulesetFailFast cs = .ok ast ∧ parseRuleset cs = .ok ast) ∨
      ∃ d ds, parseRulesetFailFast cs = .error d ∧ parseRuleset cs = .error (d :: ds) := by
  unfold parseRulesetFailFast parseRuleset
  cases Lexer.tokenize cs with
  | error e => exact .inr ⟨_, [], rfl, rfl⟩
  | ok ts =>
      dsimp only
      unfold Recovery.failFast
      obtain ⟨ast, i, hfast, hrecover⟩ | ⟨e, s, hfast, hled⟩ :=
        rulesetParser_agrees.agree ⟨ts, 0⟩ []
      · rw [hfast, hrecover]
        exact .inl ⟨ast, rfl, if_pos rfl⟩
      · rw [hfast]
        refine .inr ⟨diagOf e, ?_⟩
        cases hr : rulesetParser ⟨⟨ts, 0⟩, true, []⟩ with
        | ok ast s =>
            rw [hr] at hled
            obtain ⟨more, hmore⟩ := hled
            refine ⟨more.map diagOf, rfl, ?_⟩
            dsimp only
            rw [hmore, List.nil_append, if_neg (List.cons_ne_nil _ _)]
            rfl
        | error e' s =>
            rw [hr] at hled
            obtain ⟨more, hmore⟩ := hled
            refine ⟨more.map diagOf, rfl, ?_⟩
            dsimp only
            rw [hmore]
            rfl

end Adgl
