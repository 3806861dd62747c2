import NFdl.Adgl.ExprPrinted
import NFdl.Lib.Precedence

/-!
# Printed ADGL expressions read back

The levels of the expression parser are a ladder of operators over unary expressions. The
tokens of a printed expression are a chain of operators and operands, which the ladder reads
as the expression that was printed.
-/

namespace Adgl

open Ast (Expr BinaryOp)
open Lexer (word)
open Precedence (Tree)

namespace ExprParser

/-! ### Levels -/

/-- The infix operator that a token is. -/
def operator? (t : Token) : Option BinaryOp :=
  (multiplicativeOp t).or ((additiveOp t).or ((equalityOp t).or
    ((logicAndOp t).or (logicOrOp t))))

/-- The level at which the parser takes an operator. -/
def level : BinaryOp → ℕ
  | .or => 1
  | .and => 2
  | .eq | .ne | .lt | .le | .gt | .ge | .in_ => 3
  | .add | .sub => 4
  | .mul | .div | .rem => 5

theorem level_bounds (op : BinaryOp) : 1 ≤ level op ∧ level op < 6 := by
  cases op <;> decide

def nextOp : List Token → Option (BinaryOp × List Token) := Parser.tokenOp operator?

theorem nextOp_takes : Parser.Takes nextOp := Parser.tokenOp_takes operator?

/-- The parser of the uppermost levels. -/
def levels (d : ℕ) : TokenParser Expr :=
  Precedence.ladder (parseUnary parseExpr) nextOp level .binary .overrun 6 d

/-- One level of the parser is one level of the ladder. -/
theorem binaryLevel_eq {op : Token → Option BinaryOp} {d : ℕ}
    (h : ∀ t, (operator? t).filter (fun o => decide (level o = 6 - (d + 1))) = op t) :
    binaryLevel op (levels d) = levels (d + 1) := by
  have hop : Precedence.atLevel nextOp level (6 - (d + 1)) = Parser.tokenOp op := by
    funext ts
    cases ts with
    | nil => rfl
    | cons t ts =>
        change ((operator? t).map fun o => (o, ts)).filter _ = (op t).map fun o => (o, ts)
        rw [← h t]
        cases operator? t with
        | none => rfl
        | some o =>
            simp only [Option.map_some, Option.filter_some, decide_eq_true_eq]
            split <;> rfl
  unfold binaryLevel levels
  rw [Precedence.ladder, hop]

theorem parseAdditive_levels : parseAdditive parseExpr = levels 2 := by
  have hmul : parseMultiplicative parseExpr = levels 1 := by
    refine @binaryLevel_eq multiplicativeOp 0 fun t => ?_
    cases t with
    | kw k => cases k <;> rfl
    | _ => rfl
  rw [parseAdditive, hmul]
  refine binaryLevel_eq fun t => ?_
  cases t with
  | kw k => cases k <;> rfl
  | _ => rfl

theorem parseExpr_levels : parseExpr = levels 5 := by
  have heq : parseEquality parseExpr = levels 3 := by
    rw [parseEquality, parseAdditive_levels]
    refine binaryLevel_eq fun t => ?_
    cases t with
    | kw k => cases k <;> rfl
    | _ => rfl
  have hand : parseLogicAnd parseExpr = levels 4 := by
    rw [parseLogicAnd, heq]
    refine binaryLevel_eq fun t => ?_
    cases t with
    | kw k => cases k <;> rfl
    | _ => rfl
  rw [parseExpr_eq, parseLogicOr, hand]
  refine binaryLevel_eq fun t => ?_
  cases t with
  | kw k => cases k <;> rfl
  | _ => rfl

/-! ### Trees -/

open Fmt

/-- The operators of an expression that stand in no parentheses when it is printed. -/
def opTree : Expr → Tree BinaryOp Expr
  | .binary op left right =>
      .node op (if exprPrec left < binopPrec op then .leaf left else opTree left)
        (if exprPrec right < binopPrec op + 1 then .leaf right else opTree right)
  | e => .leaf e

def operandTree (p : ℕ) (e : Expr) : Tree BinaryOp Expr :=
  if exprPrec e < p then .leaf e else opTree e

theorem operandTree_value {e : Expr} (h : (opTree e).value .binary = e) (p : ℕ) :
    (operandTree p e).value .binary = e := by
  unfold operandTree
  split
  · rfl
  · exact h

theorem opTree_value (e : Expr) : (opTree e).value .binary = e := by
  induction e with
  | binary op left right ihl ihr =>
      have hleft := operandTree_value ihl (binopPrec op)
      have hright := operandTree_value ihr (binopPrec op + 1)
      exact congrArg₂ (Expr.binary op) hleft hright
  | _ => rfl

theorem level_mono {op op' : BinaryOp} (h : binopPrec op ≤ binopPrec op') :
    level op ≤ level op' := by
  cases op <;> cases op' <;> revert h <;> decide

theorem level_strictMono {op op' : BinaryOp} (h : binopPrec op < binopPrec op') :
    level op < level op' := by
  cases op <;> cases op' <;> revert h <;> decide

/-- The root of a tree binds as tightly as the place where its expression is printed bare. -/
theorem opTree_root {e : Expr} {k : ℕ}
    (h : ∀ op left right, e = .binary op left right → k ≤ level op) :
    (opTree e).RootAbove level k := by
  cases e with
  | binary op left right => exact h op left right rfl
  | _ => trivial

theorem operandTree_canonical {e : Expr} (h : (opTree e).Canonical level) (p : ℕ) :
    (operandTree p e).Canonical level := by
  unfold operandTree
  split
  · trivial
  · exact h

theorem opTree_canonical (e : Expr) : (opTree e).Canonical level := by
  induction e with
  | binary op left right ihl ihr =>
      have hleft : (operandTree (binopPrec op) left).RootAbove level (level op) := by
        unfold operandTree
        split
        · trivial
        · rename_i hprec
          refine opTree_root ?_
          rintro op' l r rfl
          exact level_mono (Nat.le_of_not_lt hprec)
      have hright : (operandTree (binopPrec op + 1) right).RootAbove level (level op + 1) := by
        unfold operandTree
        split
        · trivial
        · rename_i hprec
          refine opTree_root ?_
          rintro op' l r rfl
          exact level_strictMono (Nat.lt_of_succ_le (Nat.le_of_not_lt hprec))
      exact ⟨hleft, hright, operandTree_canonical ihl _, operandTree_canonical ihr _⟩
  | _ => trivial

/-! ### Tokens behind an expression -/

/-- A token does not go on with the operand in front of it. -/
def endsOperand : Token → Bool
  | .dot | .lParen | .lBracket => false
  | _ => true

/-- A token does not go on with the expression in front of it. -/
def endsExpr (t : Token) : Bool := endsOperand t && (operator? t).isNone

variable {e : Expr} {es : List Expr} {ts rest : List Token} {t : Token} {s : String} {d p : ℕ}

theorem postfixHead_none (h : endsOperand t = true) (base : Expr) : postfixHead base t = none := by
  unfold postfixHead
  split <;> first | rfl | cases h

theorem suffixes_end (h : endsOperand (current rest) = true) (e : Expr) :
    Parser.suffixes postfixHead .overrun parseExpr e rest = (.ok e, rest) := by
  cases rest with
  | nil => rfl
  | cons t ts => exact Parser.suffixes_none (postfixHead_none h e)

theorem nextOp_end (h : endsExpr (current rest) = true) : nextOp rest = none := by
  cases rest with
  | nil => rfl
  | cons t ts =>
      obtain ⟨-, hnone⟩ := (Bool.and_eq_true_iff).mp h
      change (operator? t).map _ = none
      rw [show operator? t = none from Option.isNone_iff_eq_none.mp hnone]
      rfl

theorem nextOp_token (op : BinaryOp) (rest : List Token) :
    nextOp (binopToken op :: rest) = some (op, rest) := by
  cases op <;> rfl

theorem consumePunct_self (t : Token) (rest : List Token) :
    consumePunct t (t :: rest) = (.ok (), rest) :=
  Parser.one_some (if_pos rfl)

/-! ### Names -/

theorem word_token (h : IsName s) :
    word s = .ident s ∨ ∃ k, isNameKeyword k = true ∧ s = k.text ∧ word s = .kw k := by
  obtain h | ⟨k, hk, rfl⟩ := h
  · exact .inl h.2
  · exact .inr ⟨k, hk, rfl, word_keyword k⟩

theorem parseIdentAny_word (h : IsName s) (rest : List Token) :
    parseIdentAny (word s :: rest) = (.ok s, rest) := by
  obtain h | ⟨k, hk, rfl, h⟩ := word_token h
  · rw [h]
    rfl
  · rw [h]
    exact if_pos hk

theorem parseTested_word (h : IsName s) (rest : List Token) :
    parseTested (.lParen :: word s :: .rParen :: rest) = (.ok s, rest) := by
  unfold parseTested
  rw [Parser.andThen_ok (consumePunct_self _ _), Parser.andThen_ok (parseIdentAny_word h _)]
  exact Parser.map_ok (consumePunct_self _ _)

theorem parsePrimary_word (h : IsName s) (rest : List Token) :
    parsePrimary parseExpr (word s :: rest) = (.ok (.ident s), rest) := by
  obtain h | ⟨k, hk, rfl, h⟩ := word_token h
  · rw [h]
    rfl
  · rw [h]
    cases k <;> first | rfl | cases hk

theorem notOp_word (h : IsName s) : notOp (word s) = none := by
  obtain h | ⟨k, hk, rfl, h⟩ := word_token h
  · rw [h]
    rfl
  · rw [h]
    cases k <;> first | rfl | cases hk

/-! ### Reading back -/

/-- The operators and operands of an expression, in front of what does not go on with it. -/
def ReadsChain (e : Expr) : Prop :=
  ∀ rest, endsOperand (current rest) = true →
    Precedence.Reads (parseUnary parseExpr) nextOp (opTree e).first (opTree e).links
      (bareTokens e ++ rest) rest

/-- An expression as the beginning of a tighter one. -/
structure ReadsTight (e : Expr) : Prop where
  suffixes : ∀ rest, parsePostfix parseExpr (exprTokens e 13 ++ rest) =
    Parser.suffixes postfixHead .overrun parseExpr e rest
  starts : ∃ t ts, exprTokens e 13 = t :: ts ∧ notOp t = none

/-- A parser of the ladder reads an expression whose operators bind tightly enough. -/
theorem levels_reads (hd : d ≤ 5)
    (h : Precedence.Reads (parseUnary parseExpr) nextOp (opTree e).first (opTree e).links ts rest)
    (hlinks : ∀ x ∈ (opTree e).links, 6 - d ≤ level x.1)
    (hend : Precedence.EndsBelow nextOp level (6 - d) rest) : levels d ts = (.ok e, rest) := by
  have hunary : Parser.Shrinks (parseUnary parseExpr) :=
    parseUnary_outer.descends.shrinks parseExpr_shrinks
  obtain ⟨t, hcanonical, hfirst, hsame, hread⟩ := Precedence.ladder_reads nextOp_takes hunary
    (fun op => (level_bounds op).2) hend (Nat.le_succ_of_le hd) h hlinks
  rw [← opTree_value e, ← hcanonical.unique (opTree_canonical e) hfirst hsame]
  exact hread

theorem ReadsChain.parseExpr (h : ReadsChain e) (hend : endsExpr (current rest) = true) :
    parseExpr (bareTokens e ++ rest) = (.ok e, rest) := by
  rw [parseExpr_levels]
  refine levels_reads (Nat.le_refl _) (h rest ((Bool.and_eq_true_iff).mp hend).1)
    (fun x _ => (level_bounds x.1).1) ?_
  intro op ts' hop
  rw [nextOp_end hend] at hop
  cases hop

theorem ReadsChain.parenthesized (h : ReadsChain e) (rest : List Token) :
    parsePostfix Adgl.parseExpr (.lParen :: bareTokens e ++ [.rParen] ++ rest) =
      Parser.suffixes postfixHead .overrun Adgl.parseExpr e rest := by
  refine Parser.andThen_ok ?_
  have hinner : Adgl.parseExpr (bareTokens e ++ .rParen :: rest) = (.ok e, .rParen :: rest) :=
    h.parseExpr rfl
  rw [List.append_assoc]
  change Parser.andThen Adgl.parseExpr _ (bareTokens e ++ .rParen :: rest) = _
  rw [Parser.andThen_ok hinner]
  exact Parser.map_ok (consumePunct_self _ _)

/-- An operand of an operator. -/
theorem ReadsChain.operand (h : ReadsChain e) (p : ℕ) (hend : endsOperand (current rest) = true) :
    Precedence.Reads (parseUnary Adgl.parseExpr) nextOp (operandTree p e).first
      (operandTree p e).links (exprTokens e p ++ rest) rest := by
  unfold operandTree exprTokens wrapTokens
  split
  · refine ⟨rest, ?_, rfl⟩
    refine (Parser.prefixes_none rfl).trans ?_
    exact (h.parenthesized rest).trans (suffixes_end hend e)
  · exact h rest hend

theorem ReadsChain.tight (h : ReadsChain e) (hprec : exprPrec e < 13) : ReadsTight e where
  suffixes := by
    intro rest
    unfold exprTokens wrapTokens
    rw [if_pos hprec]
    exact h.parenthesized rest
  starts := by
    unfold exprTokens wrapTokens
    rw [if_pos hprec]
    exact ⟨.lParen, _, rfl, rfl⟩

/-- An operand without operators, without parentheses. -/
theorem ReadsTight.chain (h : ReadsTight e) (hprec : exprPrec e = 13) (htree : opTree e = .leaf e) :
    ReadsChain e := by
  intro rest hend
  obtain ⟨t, ts, htokens, hnot⟩ := h.starts
  have hsuffixes := h.suffixes rest
  have hbare : exprTokens e 13 = bareTokens e := if_neg (by omega)
  rw [htree, ← hbare]
  refine ⟨rest, ?_, rfl⟩
  rw [suffixes_end hend, htokens] at hsuffixes
  rw [htokens]
  exact (Parser.prefixes_none hnot).trans hsuffixes

theorem readsTight_atom (hprec : exprPrec e = 13) (hbare : bareTokens e = t :: ts)
    (hnot : notOp t = none)
    (hprimary : ∀ rest, parsePrimary Adgl.parseExpr (t :: (ts ++ rest)) = (.ok e, rest)) :
    ReadsTight e where
  suffixes := by
    intro rest
    unfold exprTokens wrapTokens
    rw [if_neg (by omega), hbare]
    exact Parser.andThen_ok (hprimary rest)
  starts := by
    unfold exprTokens wrapTokens
    rw [if_neg (by omega), hbare]
    exact ⟨t, ts, rfl, hnot⟩

/-- A suffix behind an expression. -/
theorem ReadsTight.suffix {e' : Expr} {more : List Token}
    {q : TokenParser Expr → TokenParser Expr} (h : ReadsTight e) (hprec : exprPrec e' = 13)
    (hbare : bareTokens e' = exprTokens e 13 ++ t :: more) (hq : postfixHead e t = some q)
    (hread : ∀ rest, q Adgl.parseExpr (more ++ rest) = (.ok e', rest)) : ReadsTight e' where
  suffixes := by
    intro rest
    unfold exprTokens wrapTokens
    rw [if_neg (by omega), hbare, List.append_assoc, h.suffixes]
    exact Parser.suffixes_some (fun _ _ _ => postfixHead_inner) parseExpr_shrinks hq (hread rest)
  starts := by
    obtain ⟨u, us, htokens, hnot⟩ := h.starts
    unfold exprTokens wrapTokens
    rw [if_neg (by omega), hbare, htokens]
    exact ⟨u, _, rfl, hnot⟩

/-! ### Lists of expressions -/

theorem exprTokens_zero (e : Expr) : exprTokens e 0 = bareTokens e := by
  unfold exprTokens wrapTokens
  exact if_neg (Nat.not_lt_zero _)

/-- What an operand begins with. -/
theorem parseUnary_starts {a : Expr} (h : parseUnary Adgl.parseExpr ts = (.ok a, rest))
    (hnot : notOp t = none) (hhead : primaryHead t = none) (hcurrent : current ts = t) : False := by
  cases ts with
  | nil => cases h
  | cons u ts =>
      obtain rfl : u = t := hcurrent
      have hprimary : parsePrimary Adgl.parseExpr (u :: ts) = _ := Parser.onHead_none hhead
      have hunary : parseUnary Adgl.parseExpr (u :: ts) = (.error _, _) :=
        (Parser.prefixes_none hnot).trans (Parser.andThen_error hprimary)
      rw [hunary] at h
      cases h

theorem ReadsChain.sepBy_items (h : ∀ e ∈ es, ReadsChain e) (hne : es ≠ [])
    (hend : endsExpr t = true) (hcomma : t ≠ .comma) (rest : List Token) :
    Parser.sepBy .comma .overrun Adgl.parseExpr (itemTokens es ++ t :: rest) =
      (.ok es, t :: rest) := by
  induction es with
  | nil => exact absurd rfl hne
  | cons e es ih =>
      have hfirst := h e (List.mem_cons_self ..)
      unfold itemTokens
      rw [show wrapTokens 0 e (bareTokens e) = _ from exprTokens_zero e]
      cases es with
      | nil =>
          change Parser.sepBy .comma .overrun Adgl.parseExpr (bareTokens e ++ [] ++ t :: rest) = _
          rw [List.append_nil]
          refine Parser.sepBy_last (hfirst.parseExpr hend) fun hsep => hcomma ?_
          exact Option.some.inj hsep
      | cons e' es =>
          have hmore := ih (fun a ha => h a (List.mem_cons_of_mem _ ha)) (List.cons_ne_nil _ _)
          change Parser.sepBy .comma .overrun Adgl.parseExpr
            (bareTokens e ++ .comma :: itemTokens (e' :: es) ++ t :: rest) = _
          rw [List.append_assoc]
          have hread : Adgl.parseExpr
              (bareTokens e ++ .comma :: (itemTokens (e' :: es) ++ t :: rest)) = (.ok e, _) :=
            hfirst.parseExpr rfl
          rw [List.cons_append, Parser.sepBy_cons parseExpr_shrinks hread]
          exact Parser.map_ok hmore

/-- The arguments of a call or of a relation. -/
theorem ReadsChain.parseArgs (h : ∀ e ∈ es, ReadsChain e) (rest : List Token) :
    parseArgs Adgl.parseExpr (itemTokens es ++ .rParen :: rest) = (.ok es, rest) := by
  have hexprs : parseExprs Adgl.parseExpr .rParen (itemTokens es ++ .rParen :: rest) =
      (.ok es, .rParen :: rest) := by
    unfold parseExprs
    cases es with
    | nil => rfl
    | cons e es =>
        rw [if_neg ?_]
        · exact sepBy_items h (List.cons_ne_nil _ _) rfl (by decide) rest
        · intro hclose
          unfold itemTokens at hclose
          rw [show wrapTokens 0 e (bareTokens e) = _ from exprTokens_zero e, List.append_assoc] at hclose
          have hmore : endsOperand (current ((if es.isEmpty then [] else .comma :: itemTokens es) ++
              .rParen :: rest)) = true := by
            cases es <;> rfl
          obtain ⟨ts', hfirst, -⟩ := h e (List.mem_cons_self ..) _ hmore
          exact parseUnary_starts hfirst rfl rfl hclose
  unfold ExprParser.parseArgs
  rw [Parser.andThen_ok hexprs]
  exact Parser.map_ok (consumePunct_self _ _)

/-! ### Expressions -/

theorem readsBack (h : e.Written) : ReadsChain e ∧ ReadsTight e := by
  have hatom : ∀ {e : Expr}, exprPrec e = 13 → opTree e = .leaf e → ReadsTight e →
      ReadsChain e ∧ ReadsTight e := fun hprec htree htight => ⟨htight.chain hprec htree, htight⟩
  induction h with
  | @intro e here inside ih =>
      cases e with
      | int v => exact hatom rfl rfl (readsTight_atom rfl rfl rfl fun _ => rfl)
      | duration ms => exact hatom rfl rfl (readsTight_atom rfl rfl rfl fun _ => rfl)
      | string s => exact hatom rfl rfl (readsTight_atom rfl rfl rfl fun _ => rfl)
      | ident s =>
          exact hatom rfl rfl
            (readsTight_atom rfl rfl (notOp_word here) fun rest => parsePrimary_word here rest)
      | bool b =>
          cases b with
          | true => exact hatom rfl rfl (readsTight_atom rfl rfl rfl fun _ => rfl)
          | false => exact hatom rfl rfl (readsTight_atom rfl rfl rfl fun _ => rfl)
      | present s =>
          exact hatom rfl rfl
            (readsTight_atom rfl rfl rfl fun rest => Parser.map_ok (parseTested_word here rest))
      | absent s =>
          exact hatom rfl rfl
            (readsTight_atom rfl rfl rfl fun rest => Parser.map_ok (parseTested_word here rest))
      | unary op x =>
          obtain ⟨hchain, htight⟩ := ih x (List.mem_singleton_self _)
          have hthis : ReadsChain (.unary op x) := by
            intro rest hend
            obtain ⟨t, ts, htokens, hnot⟩ := htight.starts
            have hsuffixes := htight.suffixes rest
            rw [suffixes_end hend, htokens] at hsuffixes
            have hoperand : parseUnary Adgl.parseExpr (exprTokens x 13 ++ rest) = (.ok x, rest) := by
              rw [htokens]
              exact (Parser.prefixes_none hnot).trans hsuffixes
            have hbang : parseUnary Adgl.parseExpr (.bang :: (exprTokens x 13 ++ rest)) =
                Parser.map (.unary .not) (parseUnary Adgl.parseExpr) (exprTokens x 13 ++ rest) :=
              Parser.prefixes_some rfl
            cases op
            exact ⟨rest, hbang.trans (Parser.map_ok hoperand), rfl⟩
          exact ⟨hthis, hthis.tight (Nat.lt_succ_self 12)⟩
      | binary op left right =>
          have hleft := (ih left (List.mem_cons_self ..)).1
          have hright := (ih right (List.mem_cons_of_mem _ (List.mem_singleton_self _))).1
          have hthis : ReadsChain (.binary op left right) := by
            intro rest hend
            have hop : endsOperand (current (binopToken op ::
                (exprTokens right (binopPrec op + 1) ++ rest))) = true := by cases op <;> rfl
            have hl := hleft.operand (binopPrec op) hop
            have hr := hright.operand (binopPrec op + 1) hend
            have hboth := hl.link (nextOp_token op _) hr
            unfold bareTokens
            rw [List.append_assoc]
            exact hboth
          exact ⟨hthis, hthis.tight (Nat.lt_succ_of_le (binopPrec_le op))⟩
      | field base name =>
          have hbase := (ih base (List.mem_singleton_self _)).2
          exact hatom rfl rfl (hbase.suffix rfl rfl rfl fun rest =>
            Parser.map_ok (parseIdentAny_word here rest))
      | call callee args =>
          have hcallee := (ih callee (List.mem_cons_self ..)).2
          have hargs : ∀ e ∈ args, ReadsChain e :=
            fun e he => (ih e (List.mem_cons_of_mem _ he)).1
          have hbare : bareTokens (.call callee args) =
              exprTokens callee 13 ++ .lParen :: (itemTokens args ++ [.rParen]) :=
            List.append_assoc (exprTokens callee 13) (.lParen :: itemTokens args) _
          refine hatom rfl rfl (hcallee.suffix rfl hbare rfl fun rest => ?_)
          rw [List.append_assoc]
          exact Parser.map_ok (ReadsChain.parseArgs hargs rest)
      | index base idx =>
          have hbase := (ih base (List.mem_cons_self ..)).2
          have hidx := (ih idx (List.mem_cons_of_mem _ (List.mem_singleton_self _))).1
          have hbare : bareTokens (.index base idx) =
              exprTokens base 13 ++ .lBracket :: (exprTokens idx 0 ++ [.rBracket]) :=
            List.append_assoc (exprTokens base 13) (.lBracket :: exprTokens idx 0) _
          rw [exprTokens_zero] at hbare
          refine hatom rfl rfl (hbase.suffix rfl hbare rfl fun rest => ?_)
          rw [List.append_assoc, Parser.andThen_ok (hidx.parseExpr rfl)]
          exact Parser.map_ok (consumePunct_self _ _)

/-- The parser reads a printed expression back, in front of what does not go on with it. -/
theorem parseExpr_exprTokens (h : e.Written) (hend : endsExpr (current rest) = true) :
    Adgl.parseExpr (exprTokens e 0 ++ rest) = (.ok e, rest) := by
  rw [exprTokens_zero]
  exact (readsBack h).1.parseExpr hend

/-- What an expression begins with. -/
theorem parseExpr_starts {a : Expr} (h : Adgl.parseExpr ts = (.ok a, rest))
    (hnot : notOp t = none) (hhead : primaryHead t = none) (hcurrent : current ts = t) : False := by
  cases hr : parseUnary Adgl.parseExpr ts with
  | mk result us =>
      cases result with
      | ok a => exact parseUnary_starts hr hnot hhead hcurrent
      | error e =>
          have herror : levels 5 ts = (.error e, us) := Precedence.ladder_error hr 5
          rw [parseExpr_levels, herror] at h
          cases h

/-! ### Probes of time windows -/

theorem binary_of_prec (h : exprPrec e < 12) : ∃ op left right, e = .binary op left right := by
  cases e with
  | binary op left right => exact ⟨op, left, right, rfl⟩
  | unary op x => exact absurd h (Nat.lt_irrefl 12)
  | _ => exact absurd h (by decide : ¬ 13 < 12)

theorem binopPrec_additive {op : BinaryOp} : 11 ≤ binopPrec op ↔ 4 ≤ level op := by
  cases op <;> decide

/-- A printed expression in front of the `in` of a time window, if its operators bind tightly
enough. -/
theorem parseAdditive_exprTokens (h : e.Written) (hprec : 11 ≤ exprPrec e) (rest : List Token) :
    parseAdditive Adgl.parseExpr (exprTokens e 0 ++ .kw .in_ :: rest) =
      (.ok e, .kw .in_ :: rest) := by
  have hroot : (opTree e).RootAbove level 4 := by
    refine opTree_root ?_
    rintro op left right rfl
    exact binopPrec_additive.mp hprec
  rw [parseAdditive_levels, exprTokens_zero]
  refine levels_reads (by decide) ((readsBack h).1 _ rfl)
    ((opTree_canonical e).links_above hroot) ?_
  rintro o ts' ⟨⟩
  decide

/-- Otherwise the parser stops at an operator that does not, and no bracket follows it. -/
theorem parseAdditive_stops (h : e.Written) (hprec : exprPrec e < 11) (rest : List Token) :
    ∃ e' t ts', parseAdditive Adgl.parseExpr (exprTokens e 0 ++ .kw .in_ :: rest) =
      (.ok e', t :: ts') ∧ current ts' ≠ .lBracket := by
  have hunary : Parser.Shrinks (parseUnary Adgl.parseExpr) :=
    parseUnary_outer.descends.shrinks parseExpr_shrinks
  have hend : Precedence.EndsBelow nextOp level 4 (.kw .in_ :: rest) := by
    rintro o ts' ⟨⟩
    decide
  have hstop : ∃ t left ts', levels 2 (bareTokens e ++ .kw .in_ :: rest) =
      (.ok (t.value .binary), ts') ∧ Precedence.Stopped (parseUnary Adgl.parseExpr) nextOp level 4
        (opTree e).first (opTree e).links (.kw .in_ :: rest) t ts' left :=
    Precedence.ladder_stopped nextOp_takes hunary (fun op => (level_bounds op).2) hend
      (by decide : 2 ≤ 6) ((readsBack h).1 (.kw .in_ :: rest) rfl)
  obtain ⟨tree, left, ts', hread, hstopped⟩ := hstop
  rw [parseAdditive_levels, exprTokens_zero]
  cases left with
  | nil =>
      have hlinks := hstopped.links
      rw [List.append_nil] at hlinks
      obtain ⟨op, left, right, rfl⟩ := binary_of_prec (Nat.lt_succ_of_lt hprec)
      have hhigh : 4 ≤ level op := by
        refine hstopped.above (op, (operandTree (binopPrec op + 1) right).first) ?_
        rw [hlinks]
        exact List.mem_append_right _ (List.mem_cons_self ..)
      exact absurd (binopPrec_additive.mpr hhigh) (Nat.not_le_of_lt hprec)
  | cons x left =>
      obtain ⟨us, us', hop, hbase, -⟩ := hstopped.remains
      obtain ⟨t, -, rfl⟩ := Parser.tokenOp_some hop
      exact ⟨_, t, us, hread, fun hbracket => parseUnary_starts hbase rfl rfl hbracket⟩

end ExprParser

end Adgl
