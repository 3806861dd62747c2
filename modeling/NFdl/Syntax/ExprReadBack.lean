import NFdl.Syntax.ExprLadder
import NFdl.Syntax.ExprPrinted

/-!
# Printed expressions read back

The parser reads every printed expression as an expression of the same size. It is the same
expression exactly when no string has a backslash, which the printer doubles and the lexer
keeps, no default of a coalescing operator is one itself, since the printer takes them to
associate to the right and the parser to the left, and no operand of a bitwise operator is
an equality, which binds tighter for the printer and looser for the parser.
-/

namespace NFdl

namespace BinOp

def IsBitwise (op : BinOp) : Prop := op = bitOr ∨ op = bitXor ∨ op = bitAnd

def IsEquality (op : BinOp) : Prop := op = eq ∨ op = ne

end BinOp

namespace Expr

mutual

/-- The number of nodes. -/
def size : Expr → ℕ
  | .ident _ | .int _ | .str _ => 1
  | .binary _ left right => left.size + right.size + 1
  | .unary _ expr => expr.size + 1
  | .ternary cond thenBranch elseBranch => cond.size + thenBranch.size + elseBranch.size + 1
  | .coalesce value default => value.size + default.size + 1
  | .call _ args => sizeAll args + 1
  | .tuple items => sizeAll items + 1
  | .field base _ => base.size + 1

def sizeAll : List Expr → ℕ
  | [] => 0
  | e :: es => e.size + sizeAll es

end

def isEquality : Expr → Bool
  | .binary .eq _ _ | .binary .ne _ _ => true
  | _ => false

theorem isEquality_binary {op : BinOp} {left right : Expr} :
    (binary op left right).isEquality = false ↔ ¬ op.IsEquality := by
  cases op <;> simp [isEquality, BinOp.IsEquality]

def isCoalesce : Expr → Bool
  | .coalesce _ _ => true
  | _ => false

/-- The infix operator of an expression. -/
def infix? : Expr → Option Infix
  | .binary op _ _ => some (.binary op)
  | .coalesce _ _ => some .coalesce
  | _ => none

end Expr

namespace Fmt

open ExprParser Precedence

/-! ### What is read back -/

/-- What the parser reads back as it was printed. -/
def ReadBackNode : Expr → Prop
  | .str s => '\\' ∉ s.toList
  | .coalesce _ default => default.isCoalesce = false
  | .binary op left right =>
      op.IsBitwise → left.isEquality = false ∧ right.isEquality = false
  | _ => True

abbrev ReadsBack : Expr → Prop := Expr.Everywhere ReadBackNode

theorem readsBack_iff {e : Expr} :
    ReadsBack e ↔ ReadBackNode e ∧ ∀ c ∈ e.children, ReadsBack c :=
  ⟨fun ⟨here, inside⟩ => ⟨here, inside⟩, fun ⟨here, inside⟩ => ⟨here, inside⟩⟩

/-- The tokens do not continue an operand. -/
def Follows (rest : List Token) : Prop := rest.head? ≠ some .dot ∧ rest.head? ≠ some .lParen

/-- The tokens do not continue a chain of infix operators. -/
def EndsChain (rest : List Token) : Prop := Follows rest ∧ Infix.next rest = none

/-- The tokens do not continue an expression. -/
def EndsExpr (rest : List Token) : Prop := EndsChain rest ∧ rest.head? ≠ some .question

/-- What a printed expression is read back as, in the places where the parser begins to read
an expression. -/
structure ReadBack (e e' : Expr) : Prop where
  size : e'.size = e.size
  same : e' = e ↔ ReadsBack e
  operand : ∀ rest, rest.head? ≠ some .lParen →
    parseUnary parseExpr (exprTokens e 13 ++ rest) =
      (.ok (parsePostfix e' rest).1, (parsePostfix e' rest).2)
  cond : ∀ rest, EndsChain rest →
    parseCoalesce parseExpr (exprTokens e 2 ++ rest) = (.ok e', rest)
  whole : ∀ rest, EndsExpr rest → parseExpr (bareTokens e ++ rest) = (.ok e', rest)

/-- The chain that the tokens of an expression are read as, beside the tree of its infix
operators. -/
structure ChainOf (e : Expr) (root : Option Infix) (ts : List Token) (t : Tree Infix Expr)
    (a : Expr) (l : List (Infix × Expr)) : Prop where
  value : t.value Infix.mk = e
  sizes : (a :: l.map Prod.snd).map Expr.size = t.leaves.map Expr.size
  same : ReadsBack e ↔ t.Canonical Infix.prec ∧ a = t.first ∧ l = t.links
  root : ∀ k, t.RootAbove Infix.prec k ↔ ∀ o, root = some o → k ≤ o.prec
  reads : ∀ rest, Follows rest → Reads (parseUnary parseExpr) Infix.next a l (ts ++ rest) rest

/-- What holds of a printed expression. -/
structure Printed (e : Expr) : Prop where
  readBack : ∃ e', ReadBack e e'
  chain : 2 ≤ exprPrec e → ∃ t a l, ChainOf e e.infix? (bareTokens e) t a l

/-! ### Operands -/

theorem parsePostfix_stop {e : Expr} {rest : List Token} (h : rest.head? ≠ some .dot) :
    parsePostfix e rest = (e, rest) := by
  unfold parsePostfix
  split
  · exact absurd rfl h
  · exact absurd rfl h
  · rfl

theorem parsePrimary_ok {atom : Expr} {ts rest : List Token}
    (h : parseAtom parseExpr ts = (.ok atom, rest)) : parsePrimary parseExpr ts =
      (.ok (parsePostfix atom rest).1, (parsePostfix atom rest).2) := by
  unfold parsePrimary
  rw [h]

/-- A token that is no unary operator begins an operand. -/
theorem parseUnary_operand {t : Token} {ts : List Token} (hbang : t ≠ .bang) (htilde : t ≠ .tilde)
    (hminus : t ≠ .minus) :
    parseUnary parseExpr (t :: ts) = parsePrimary parseExpr (t :: ts) := by
  rw [parseUnary]
  · exact fun _ heq => hbang (List.cons.inj heq).1
  · exact fun _ heq => htilde (List.cons.inj heq).1
  · exact fun _ heq => hminus (List.cons.inj heq).1

theorem follows_cons {t : Token} {rest : List Token} (hdot : t ≠ .dot) (hparen : t ≠ .lParen) :
    Follows (t :: rest) :=
  ⟨fun h => hdot (Option.some.inj h), fun h => hparen (Option.some.inj h)⟩

theorem endsExpr_rParen (rest : List Token) : EndsExpr (.rParen :: rest) :=
  ⟨⟨follows_cons (by simp) (by simp), rfl⟩, by simp⟩

/-- An expression in parentheses is an operand. -/
theorem parens_operand {e e' : Expr}
    (h : ∀ rest, EndsExpr rest → parseExpr (bareTokens e ++ rest) = (.ok e', rest))
    (rest : List Token) : parseUnary parseExpr (.lParen :: bareTokens e ++ [.rParen] ++ rest) =
      (.ok (parsePostfix e' rest).1, (parsePostfix e' rest).2) := by
  have hinner := h (.rParen :: rest) (endsExpr_rParen rest)
  have hitems : Parser.sepBy .comma .overrun parseExpr (bareTokens e ++ .rParen :: rest) =
      (.ok [e'], .rParen :: rest) := Parser.sepBy_last hinner (by simp)
  rw [List.cons_append, List.cons_append, List.append_assoc,
    parseUnary_operand (by simp) (by simp) (by simp)]
  refine parsePrimary_ok ?_
  unfold parseAtom
  dsimp only [List.singleton_append]
  rw [hitems]
  rfl

theorem ReadBack.parens {e e' : Expr} (h : ReadBack e e') (rest : List Token) :
    parseUnary parseExpr (.lParen :: bareTokens e ++ [.rParen] ++ rest) =
      (.ok (parsePostfix e' rest).1, (parsePostfix e' rest).2) :=
  parens_operand h.whole rest

/-- A single operand is a chain. -/
theorem chainOf_leaf {e e' : Expr} {ts : List Token} (hsize : e'.size = e.size)
    (hsame : e' = e ↔ ReadsBack e)
    (h : ∀ rest, Follows rest → parseUnary parseExpr (ts ++ rest) = (.ok e', rest)) :
    ChainOf e none ts (.leaf e) e' [] where
  value := rfl
  sizes := by
    change [e'.size] = [e.size]
    rw [hsize]
  same := by
    rw [← hsame]
    exact ⟨fun he => ⟨trivial, he, rfl⟩, fun he => he.2.1⟩
  root := fun _ => ⟨fun _ => nofun, fun _ => trivial⟩
  reads := fun rest hrest => ⟨rest, h rest hrest, rfl⟩

/-- The root of an expression in a place of a precedence, where it has no parentheses. -/
def rootAt (p : ℕ) (e : Expr) : Option Infix := if exprPrec e < p then none else e.infix?

theorem Printed.chainAt {e : Expr} (h : Printed e) {p : ℕ} (hp : 2 ≤ p) :
    ∃ t a l, ChainOf e (rootAt p e) (exprTokens e p) t a l := by
  unfold rootAt exprTokens wrapTokens
  split
  · obtain ⟨e', hback⟩ := h.readBack
    refine ⟨.leaf e, e', [], chainOf_leaf hback.size hback.same fun rest hrest => ?_⟩
    rw [hback.parens, parsePostfix_stop hrest.1]
  · rename_i hprec
    exact h.chain (by omega)

/-! ### Chains -/

theorem Infix_mk_inj (o : Infix) (a b : Expr) (o' : Infix) (a' b' : Expr)
    (h : Infix.mk o a b = Infix.mk o' a' b') : o = o' ∧ a = a' ∧ b = b' := by
  cases o <;> cases o' <;> cases h <;> exact ⟨rfl, rfl, rfl⟩

theorem size_mk (o : Infix) (a b : Expr) : (Infix.mk o a b).size = a.size + b.size + 1 := by
  cases o <;> rfl

/-- What a chain of infix operators is read back as. -/
theorem ChainOf.readBack {e : Expr} {root : Option Infix} {ts : List Token}
    {t : Tree Infix Expr} {a : Expr} {l : List (Infix × Expr)} (h : ChainOf e root ts t a l) :
    ∃ e' : Expr, e'.size = e.size ∧ (e' = e ↔ ReadsBack e) ∧ (l = [] → e' = a) ∧
      ∀ rest, EndsChain rest → parseCoalesce parseExpr (ts ++ rest) = (.ok e', rest) := by
  obtain ⟨t', hcanonical, hfirst, hlinks, -⟩ :=
    parseCoalesce_reads rfl (h.reads [] ⟨nofun, nofun⟩)
  have hleaves : t'.leaves.map Expr.size = t.leaves.map Expr.size := by
    rw [← h.sizes, Tree.leaves, hfirst, hlinks]
  refine ⟨t'.value Infix.mk, ?_, ⟨fun he => ?_, fun he => ?_⟩, ?_, ?_⟩
  · have hsize := Tree.size_value size_mk t
    have hsize' := Tree.size_value size_mk t'
    have hsum : ∀ t : Tree Infix Expr, (t.leaves.map fun a => a.size + 1) =
        (t.leaves.map Expr.size).map (· + 1) := fun t => (List.map_map).symm
    rw [hsum, hleaves, ← hsum, ← hsize, h.value] at hsize'
    exact Nat.succ.inj hsize'
  · obtain rfl := Tree.value_unique Infix_mk_inj size_mk (he.trans h.value.symm) hleaves
    exact h.same.mpr ⟨hcanonical, hfirst.symm, hlinks.symm⟩
  · obtain ⟨htcanonical, htfirst, htlinks⟩ := h.same.mp he
    rw [hcanonical.unique htcanonical (hfirst.trans htfirst) (hlinks.trans htlinks)]
    exact h.value
  · intro hnil
    cases t' with
    | leaf b => exact hfirst
    | node o left right => cases (List.append_eq_nil_iff.mp (hlinks.trans hnil)).2
  · intro rest hrest
    obtain ⟨t'', hcanonical', hfirst', hlinks', hread⟩ :=
      parseCoalesce_reads hrest.2 (h.reads rest hrest.1)
    rw [hread, hcanonical'.unique hcanonical (hfirst'.trans hfirst.symm)
      (hlinks'.trans hlinks.symm)]

theorem parseTernary_ok {e : Expr} {ts rest : List Token}
    (h : parseCoalesce parseExpr ts = (.ok e, rest)) (hrest : rest.head? ≠ some .question) :
    parseExpr ts = (.ok e, rest) := by
  rw [parseExpr_eq]
  unfold parseTernary
  rw [h]
  cases rest with
  | nil => rfl
  | cons t rest =>
      split
      · rename_i heq
        cases heq
      · rename_i heq
        cases heq
        exact absurd rfl hrest
      · rename_i heq
        cases heq
        rfl

theorem exprPrec_le (e : Expr) : exprPrec e ≤ 13 := by
  cases e with
  | binary op left right => exact (binopPrec_bounds op).2.trans (by decide)
  | _ => exact Nat.le_of_ble_eq_true rfl

/-- An expression that is read as a chain, beside its operand in the tightest place. -/
theorem Printed.of_chain {e : Expr} (hprec : 2 ≤ exprPrec e) {t : Tree Infix Expr} {a : Expr}
    {l : List (Infix × Expr)} (h : ChainOf e e.infix? (bareTokens e) t a l)
    (hoperand : exprPrec e = 13 → l = [] ∧ ∀ rest, rest.head? ≠ some .lParen →
      parseUnary parseExpr (bareTokens e ++ rest) =
        (.ok (parsePostfix a rest).1, (parsePostfix a rest).2)) : Printed e where
  readBack := by
    obtain ⟨e', hsize, hsame, hleaf, hcond⟩ := h.readBack
    have hwhole : ∀ rest, EndsExpr rest → parseExpr (bareTokens e ++ rest) = (.ok e', rest) :=
      fun rest hrest => parseTernary_ok (hcond rest hrest.1) hrest.2
    refine ⟨e', hsize, hsame, fun rest hrest => ?_, fun rest hrest => ?_, hwhole⟩
    · unfold exprTokens wrapTokens
      split
      · exact parens_operand hwhole rest
      · rename_i hloose
        have htight : exprPrec e = 13 := Nat.le_antisymm (exprPrec_le e) (Nat.le_of_not_lt hloose)
        obtain ⟨hnil, hread⟩ := hoperand htight
        rw [hleaf hnil]
        exact hread rest hrest
    · unfold exprTokens wrapTokens
      rw [if_neg (by omega)]
      exact hcond rest hrest
  chain := fun _ => ⟨t, a, l, h⟩

/-- The operands of an infix operator, each in a place of some precedence. -/
theorem ChainOf.node {o : Infix} {left right e : Expr} {rl rr : Option Infix}
    {tsl tsr opTs : List Token} {tl tr : Tree Infix Expr} {al ar : Expr}
    {ll lr : List (Infix × Expr)} (hl : ChainOf left rl tsl tl al ll)
    (hr : ChainOf right rr tsr tr ar lr) (he : Infix.mk o left right = e)
    (hnode : ReadBackNode e ↔ (∀ o', rl = some o' → o.prec ≤ o'.prec) ∧
      ∀ o', rr = some o' → o.prec + 1 ≤ o'.prec)
    (hop : ∀ ts, Follows (opTs ++ ts) ∧ Infix.next (opTs ++ ts) = some (o, ts)) :
    ChainOf e (some o) (tsl ++ opTs ++ tsr) (.node o tl tr) al (ll ++ (o, ar) :: lr) where
  value := by
    rw [← he, ← hl.value, ← hr.value]
    rfl
  sizes := by
    have happend : al :: (ll ++ (o, ar) :: lr).map Prod.snd =
        (al :: ll.map Prod.snd) ++ ar :: lr.map Prod.snd := by simp
    rw [happend, Tree.leaves_node, List.map_append, List.map_append, hl.sizes, hr.sizes]
  same := by
    have hchildren : ∀ P : Expr → Prop, (∀ c ∈ e.children, P c) ↔ P left ∧ P right := by
      intro P
      rw [← he]
      cases o <;> simp [Infix.mk, Expr.children]
    have hlength : ll.length = tl.links.length := by
      have hsizes := congrArg List.length hl.sizes
      simp only [Tree.leaves, List.map_cons, List.length_cons, List.length_map] at hsizes
      omega
    rw [readsBack_iff, hchildren, hl.same, hr.same, hnode, ← hl.root, ← hr.root]
    constructor
    · rintro ⟨⟨hleft, hright⟩, ⟨hlc, rfl, rfl⟩, hrc, rfl, rfl⟩
      exact ⟨⟨hleft, hright, hlc, hrc⟩, rfl, rfl⟩
    · rintro ⟨⟨hleft, hright, hlc, hrc⟩, hfirst, hlinks⟩
      obtain ⟨hll, htail⟩ := List.append_inj hlinks hlength
      obtain ⟨hpair, hlr⟩ := List.cons.inj htail
      exact ⟨⟨hleft, hright⟩, ⟨hlc, hfirst, hll⟩, hrc, (Prod.mk.inj hpair).2, hlr⟩
  root := by
    intro k
    refine ⟨?_, fun h => h o rfl⟩
    rintro h _ ⟨⟩
    exact h
  reads := by
    intro rest hrest
    obtain ⟨hfollows, hnext⟩ := hop (tsr ++ rest)
    rw [List.append_assoc, List.append_assoc]
    exact (hl.reads _ hfollows).link hnext (hr.reads rest hrest)

theorem next_binop {op : BinOp} (hop : op ≠ .add) (ts : List Token) :
    Follows (binopTokens op ++ ts) ∧
      Infix.next (binopTokens op ++ ts) = some (.binary op, ts) := by
  cases op
  case add => exact absurd rfl hop
  all_goals exact ⟨follows_cons (by simp) (by simp), rfl⟩

/-- The precedences of the printer and of the parser: they differ where a bitwise operator
meets an equality. -/
theorem prec_cases (op : BinOp) :
    (op.IsBitwise ∧ ¬ op.IsEquality ∧ 5 ≤ binopPrec op ∧ binopPrec op ≤ 7 ∧
        (Infix.binary op).prec = binopPrec op + 1) ∨
      (¬ op.IsBitwise ∧ op.IsEquality ∧ binopPrec op = 8 ∧ (Infix.binary op).prec = 5) ∨
      (¬ op.IsBitwise ∧ ¬ op.IsEquality ∧ (binopPrec op ≤ 4 ∨ 9 ≤ binopPrec op) ∧
        (Infix.binary op).prec = binopPrec op) := by
  cases op <;> simp [BinOp.IsBitwise, BinOp.IsEquality, binopPrec, Infix.prec]

theorem rootAt_operator {P : Infix → Prop} {p : ℕ} {e : Expr} {o : Infix} (he : e.infix? = some o) :
    (∀ o', rootAt p e = some o' → P o') ↔ (p ≤ exprPrec e → P o) := by
  unfold rootAt
  rw [he]
  split
  · rename_i hlt
    exact ⟨fun _ hle => absurd hlt (Nat.not_lt_of_le hle), fun _ => nofun⟩
  · rename_i hle
    refine ⟨fun h _ => h o rfl, ?_⟩
    rintro h _ ⟨⟩
    exact h (Nat.le_of_not_lt hle)

theorem rootAt_none {P : Infix → Prop} {p : ℕ} {e : Expr} (he : e.infix? = none) :
    ∀ o', rootAt p e = some o' → P o' := by
  unfold rootAt
  rw [he]
  split <;> nofun

/-- An operand of a binary operator stands where the parser reads it, unless it is an
equality and the operator is a bitwise one. -/
theorem rootAt_binary (op : BinOp) (e : Expr) {p k : ℕ}
    (hp : p = binopPrec op ∧ k = 0 ∨ p = binopPrec op + 1 ∧ k = 1) :
    (∀ o', rootAt p e = some o' → (Infix.binary op).prec + k ≤ o'.prec) ↔
      (op.IsBitwise → e.isEquality = false) := by
  have hop := prec_cases op
  cases e with
  | binary op' left right =>
      have hop' := prec_cases op'
      rw [rootAt_operator rfl, Expr.isEquality_binary]
      change (p ≤ binopPrec op' → (Infix.binary op).prec + k ≤ (Infix.binary op').prec) ↔ _
      obtain ⟨hbit, -, hlow, hhigh, hq⟩ | ⟨hbit, -, height, hq⟩ | ⟨hbit, -, hfar, hq⟩ := hop <;>
        obtain ⟨-, heq, hlow', hhigh', hq'⟩ | ⟨-, heq, height', hq'⟩ | ⟨-, heq, hfar', hq'⟩ :=
          hop' <;>
        simp only [hbit, heq, not_true, not_false_iff, forall_true_left, false_imp_iff, iff_true,
          iff_false, hq, hq'] <;>
        omega
  | coalesce value default =>
      rw [rootAt_operator rfl]
      have hbound := (binopPrec_bounds op).1
      have hlow : ¬ p ≤ 2 := by omega
      exact ⟨fun _ _ => rfl, fun _ hle => absurd hle hlow⟩
  | _ => exact ⟨fun _ _ => rfl, fun _ => rootAt_none rfl⟩

theorem readBackNode_binary (op : BinOp) (left right : Expr) :
    ReadBackNode (.binary op left right) ↔
      (∀ o', rootAt (binopPrec op) left = some o' → (Infix.binary op).prec ≤ o'.prec) ∧
        ∀ o', rootAt (binopPrec op + 1) right = some o' → (Infix.binary op).prec + 1 ≤ o'.prec :=
  imp_and.trans (and_congr (rootAt_binary op left (.inl ⟨rfl, rfl⟩)).symm
    (rootAt_binary op right (.inr ⟨rfl, rfl⟩)).symm)

theorem readBackNode_coalesce (value default : Expr) :
    ReadBackNode (.coalesce value default) ↔
      (∀ o', rootAt 3 value = some o' → Infix.coalesce.prec ≤ o'.prec) ∧
        ∀ o', rootAt 2 default = some o' → Infix.coalesce.prec + 1 ≤ o'.prec := by
  have hvalue : ∀ o', rootAt 3 value = some o' → Infix.coalesce.prec ≤ o'.prec :=
    fun o' _ => o'.prec_bounds.1
  rw [and_iff_right hvalue]
  change default.isCoalesce = false ↔ _
  cases default with
  | binary op left right =>
      have hprec : 3 ≤ (Infix.binary op).prec := by cases op <;> decide
      rw [rootAt_operator rfl]
      exact ⟨fun _ _ => hprec, fun _ => rfl⟩
  | coalesce v d =>
      rw [rootAt_operator rfl]
      exact ⟨nofun, fun h => absurd (h (Nat.le_refl 2)) (by decide)⟩
  | _ => exact ⟨fun _ => rootAt_none rfl, fun _ => rfl⟩

/-! ### Items -/

/-- No printed expression begins with a closing parenthesis. -/
theorem bareTokens_head (e : Expr) (h : Printable e) (p : ℕ) :
    ∃ t more, exprTokens e p = t :: more ∧ t ≠ .rParen := by
  induction h generalizing p with
  | @intro e here _ ih =>
      unfold exprTokens wrapTokens
      split
      · exact ⟨.lParen, _, rfl, by simp⟩
      · have hleft : ∀ (c : Expr) (q : ℕ) (ts : List Token), c ∈ e.children →
            ∃ t more, exprTokens c q ++ ts = t :: more ∧ t ≠ .rParen := by
          intro c q ts hc
          obtain ⟨t, more, hts, ht⟩ := ih c hc q
          exact ⟨t, more ++ ts, by rw [hts]; rfl, ht⟩
        cases e with
        | ident s => exact ⟨.ident s, [], rfl, by simp⟩
        | int v => exact ⟨.int v, [], rfl, by simp⟩
        | str s => exact ⟨_, [], rfl, by simp⟩
        | unary op e => exact ⟨_, _, rfl, by cases op <;> simp [unaryToken]⟩
        | binary op left right =>
            unfold bareTokens
            rw [List.append_assoc]
            exact hleft left _ _ (by simp [Expr.children])
        | ternary cond thenBranch elseBranch =>
            unfold bareTokens
            simp only [List.append_assoc]
            exact hleft cond _ _ (by simp [Expr.children])
        | coalesce value default =>
            unfold bareTokens
            rw [List.append_assoc]
            exact hleft value _ _ (by simp [Expr.children])
        | call name args => exact ⟨.ident name, _, rfl, by simp⟩
        | tuple items => exact ⟨.lParen, _, rfl, by simp⟩
        | field base name => exact hleft base _ _ (by simp [Expr.children])

theorem exprTokens_bare {e : Expr} {p : ℕ} (h : p ≤ exprPrec e) : exprTokens e p = bareTokens e := by
  unfold exprTokens wrapTokens
  rw [if_neg (Nat.not_lt_of_le h)]

theorem exprTokens_parens {e : Expr} {p : ℕ} (h : exprPrec e < p) :
    exprTokens e p = Token.lParen :: bareTokens e ++ [Token.rParen] := if_pos h

theorem one_le_exprPrec (e : Expr) : 1 ≤ exprPrec e := by
  cases e with
  | binary op left right => exact Nat.le_trans (by decide) (binopPrec_bounds op).1
  | _ => exact Nat.le_of_ble_eq_true rfl

theorem endsExpr_comma (rest : List Token) : EndsExpr (.comma :: rest) :=
  ⟨⟨follows_cons (by simp) (by simp), rfl⟩, by simp⟩

theorem endsExpr_colon (rest : List Token) : EndsExpr (.colon :: rest) :=
  ⟨⟨follows_cons (by simp) (by simp), rfl⟩, by simp⟩

/-- Expressions with commas between them. -/
theorem items_read {es es' : List Expr} (h : List.Forall₂ ReadBack es es') (hne : es ≠ [])
    (rest : List Token) : Parser.sepBy .comma .overrun parseExpr (itemTokens es ++ .rParen :: rest) =
      (.ok es', .rParen :: rest) := by
  induction h with
  | nil => exact absurd rfl hne
  | @cons e e' es es' he hes ih =>
      unfold itemTokens
      change Parser.sepBy .comma .overrun parseExpr (exprTokens e 0 ++ _ ++ _) = _
      rw [exprTokens_bare (Nat.zero_le _)]
      cases es with
      | nil =>
          cases hes
          rw [List.append_assoc]
          exact Parser.sepBy_last (he.whole _ (endsExpr_rParen rest)) (by simp)
      | cons d es =>
          have hread := he.whole (.comma :: (itemTokens (d :: es) ++ .rParen :: rest))
            (endsExpr_comma _)
          rw [List.append_assoc]
          change Parser.sepBy .comma .overrun parseExpr
            (bareTokens e ++ .comma :: (itemTokens (d :: es) ++ .rParen :: rest)) = _
          rw [Parser.sepBy_cons parseExpr_shrinks hread, Parser.map_ok (ih (List.cons_ne_nil _ _))]

theorem items_same {es es' : List Expr} (h : List.Forall₂ ReadBack es es') :
    Expr.sizeAll es' = Expr.sizeAll es ∧ (es' = es ↔ ∀ e ∈ es, ReadsBack e) := by
  induction h with
  | nil => exact ⟨rfl, fun _ _ hmem => absurd hmem List.not_mem_nil, fun _ => rfl⟩
  | @cons e e' es es' he hes ih =>
      refine ⟨?_, ?_⟩
      · rw [Expr.sizeAll, Expr.sizeAll, he.size, ih.1]
      · rw [List.cons_eq_cons, he.same, ih.2, List.forall_mem_cons]

theorem items_readBack {es : List Expr} (h : ∀ e ∈ es, Printed e) :
    ∃ es', List.Forall₂ ReadBack es es' := by
  induction es with
  | nil => exact ⟨[], .nil⟩
  | cons e es ih =>
      obtain ⟨e', he⟩ := (h e (List.mem_cons_self ..)).readBack
      obtain ⟨es', hes⟩ := ih fun d hd => h d (List.mem_cons_of_mem _ hd)
      exact ⟨e' :: es', .cons he hes⟩

/-! ### Expressions -/

/-- An operand that binds as tightly as possible. -/
theorem Printed.of_atom {e e' : Expr} (hprec : exprPrec e = 13) (hroot : e.infix? = none)
    (hsize : e'.size = e.size) (hsame : e' = e ↔ ReadsBack e)
    (h : ∀ rest, rest.head? ≠ some .lParen → parseUnary parseExpr (bareTokens e ++ rest) =
      (.ok (parsePostfix e' rest).1, (parsePostfix e' rest).2)) : Printed e := by
  have hchain : ChainOf e none (bareTokens e) (.leaf e) e' [] := by
    refine chainOf_leaf hsize hsame fun rest hrest => ?_
    rw [h rest hrest.2, parsePostfix_stop hrest.1]
  rw [← hroot] at hchain
  exact .of_chain (by omega) hchain fun _ => ⟨rfl, h⟩

theorem Printed.of_operator {e : Expr} (hprec : 2 ≤ exprPrec e) (hprec' : exprPrec e < 13)
    {t : Tree Infix Expr} {a : Expr} {l : List (Infix × Expr)}
    (h : ChainOf e e.infix? (bareTokens e) t a l) : Printed e :=
  .of_chain hprec h fun htight => absurd htight (Nat.ne_of_lt hprec')

theorem readsBack_leaf {e : Expr} (hnode : ReadBackNode e) (hleaf : e.children = []) :
    ReadsBack e := by
  rw [readsBack_iff, hleaf]
  exact ⟨hnode, fun _ hc => absurd hc List.not_mem_nil⟩

theorem printed_ident {s : String} (h : PrintableNode (.ident s)) : Printed (.ident s) := by
  have hback : ReadsBack (.ident s) := readsBack_leaf trivial rfl
  refine .of_atom rfl rfl rfl (iff_of_true rfl hback) fun rest hrest => ?_
  change parseUnary parseExpr (.ident s :: rest) = _
  rw [parseUnary_operand (by simp) (by simp) (by simp)]
  refine parsePrimary_ok ?_
  unfold parseAtom
  dsimp only
  rw [if_neg h.2.1, if_neg h.2.2, if_neg]
  cases rest with
  | nil =>
      intro ht
      cases ht
  | cons t rest =>
      intro ht
      exact hrest (congrArg some ht)

theorem printed_int (v : Int64) : Printed (.int v) := by
  have hback : ReadsBack (.int v) := readsBack_leaf trivial rfl
  refine .of_atom rfl rfl rfl (iff_of_true rfl hback) fun rest _ => ?_
  change parseUnary parseExpr (.int v :: rest) = _
  rw [parseUnary_operand (by simp) (by simp) (by simp)]
  exact parsePrimary_ok rfl

theorem escape_length (cs : List Char) :
    (escape cs).length = cs.length + cs.countP fun c => c == '"' || c == '\\' := by
  induction cs with
  | nil => rfl
  | cons c cs ih =>
      have hcons : (escape (c :: cs)).length = _ := congrArg List.length List.flatMap_cons
      rw [hcons, List.length_append, show (cs.flatMap _).length = _ from ih, List.countP_cons,
        List.length_cons]
      split <;> simp_all <;> omega

/-- A string without quotes is printed as it is exactly when it has no backslash. -/
theorem escape_eq {s : String} (h : '"' ∉ s.toList) :
    String.ofList (escape s.toList) = s ↔ '\\' ∉ s.toList := by
  rw [← String.toList_inj, String.toList_ofList]
  constructor
  · intro heq hmem
    have hlength := escape_length s.toList
    have hpos : 0 < s.toList.countP fun c => c == '"' || c == '\\' :=
      List.countP_pos_iff.mpr ⟨'\\', hmem, rfl⟩
    rw [heq] at hlength
    omega
  · intro hback
    have hself : ∀ cs : List Char, '"' ∉ cs → '\\' ∉ cs → escape cs = cs := by
      intro cs hquote hslash
      induction cs with
      | nil => rfl
      | cons c cs ih =>
          have htail := ih (fun hmem => hquote (List.mem_cons_of_mem _ hmem))
            fun hmem => hslash (List.mem_cons_of_mem _ hmem)
          unfold escape at htail ⊢
          rw [List.flatMap_cons, htail]
          split
          · exact absurd (List.mem_cons_self ..) hquote
          · exact absurd (List.mem_cons_self ..) hslash
          · rfl
    exact hself _ h hback

theorem printed_str {s : String} (h : PrintableNode (.str s)) : Printed (.str s) := by
  have hback : Expr.str (.ofList (escape s.toList)) = .str s ↔ ReadsBack (.str s) := by
    rw [readsBack_iff, Expr.str.injEq, escape_eq h]
    exact ⟨fun hs => ⟨hs, fun _ hc => absurd hc List.not_mem_nil⟩, fun hs => hs.1⟩
  have hsize : (Expr.str (.ofList (escape s.toList))).size = (Expr.str s).size := rfl
  refine .of_atom rfl rfl hsize hback fun rest _ => ?_
  change parseUnary parseExpr (.string _ :: rest) = _
  rw [parseUnary_operand (by simp) (by simp) (by simp)]
  exact parsePrimary_ok rfl

theorem printed_unary (op : UnaryOp) {e : Expr} (h : Printed e) : Printed (.unary op e) := by
  obtain ⟨e', hback⟩ := h.readBack
  have hsame : Expr.unary op e' = .unary op e ↔ ReadsBack (.unary op e) := by
    rw [readsBack_iff, Expr.unary.injEq, and_iff_right rfl, hback.same]
    exact ⟨fun he => ⟨trivial, fun c hc => List.mem_singleton.mp hc ▸ he⟩,
      fun he => he.2 e (List.mem_singleton_self _)⟩
  have hsize : (Expr.unary op e').size = (Expr.unary op e).size := by
    rw [Expr.size, Expr.size, hback.size]
  refine .of_operator (by decide : 2 ≤ 12) (by decide : 12 < 13) (chainOf_leaf hsize hsame ?_)
  intro rest hrest
  have hread := hback.operand rest hrest.2
  rw [parsePostfix_stop hrest.1] at hread
  change parseUnary parseExpr (unaryToken op :: (exprTokens e 13 ++ rest)) = _
  cases op <;> simp only [unaryToken, parseUnary, hread] <;> rfl

theorem printed_field {base : Expr} {name : String} (h : Printed base) :
    Printed (.field base name) := by
  obtain ⟨base', hback⟩ := h.readBack
  have hsame : Expr.field base' name = .field base name ↔ ReadsBack (.field base name) := by
    rw [readsBack_iff, Expr.field.injEq, and_iff_left rfl, hback.same]
    exact ⟨fun he => ⟨trivial, fun c hc => List.mem_singleton.mp hc ▸ he⟩,
      fun he => he.2 base (List.mem_singleton_self _)⟩
  have hsize : (Expr.field base' name).size = (Expr.field base name).size := by
    rw [Expr.size, Expr.size, hback.size]
  refine .of_atom rfl rfl hsize hsame fun rest _ => ?_
  have hread := hback.operand (.dot :: .ident name :: rest) (by simp)
  rw [parsePostfix] at hread
  change parseUnary parseExpr (exprTokens base 13 ++ [Token.dot, Token.ident name] ++ rest) = _
  rw [List.append_assoc]
  exact hread

theorem printed_call {name : String} {args : List Expr} (hprint : Printable (.call name args))
    (h : ∀ e ∈ args, Printed e) : Printed (.call name args) := by
  obtain ⟨args', hargs⟩ := items_readBack h
  obtain ⟨hsizes, hsames⟩ := items_same hargs
  have hsame : Expr.call name args' = .call name args ↔ ReadsBack (.call name args) := by
    rw [readsBack_iff, Expr.call.injEq, and_iff_right rfl, hsames]
    exact ⟨fun he => ⟨trivial, he⟩, fun he => he.2⟩
  have hsize : (Expr.call name args').size = (Expr.call name args).size := by
    rw [Expr.size, Expr.size, hsizes]
  obtain ⟨-, htrue, hfalse⟩ : PrintableNode (.call name args) := hprint.here
  refine .of_atom rfl rfl hsize hsame fun rest _ => ?_
  have hparsed : parseArgs parseExpr (itemTokens args ++ Token.rParen :: rest) = (.ok args', rest) := by
    unfold parseArgs
    cases args with
    | nil =>
        cases hargs
        rfl
    | cons e es =>
        obtain ⟨t, more, hts, ht⟩ := bareTokens_head e
          (hprint.inside e (List.mem_cons_self ..)) 0
        have hcurrent : current (itemTokens (e :: es) ++ Token.rParen :: rest) = t := by
          unfold itemTokens
          change current (exprTokens e 0 ++ _ ++ _) = t
          rw [hts]
          rfl
        rw [hcurrent, if_neg ht, items_read hargs (List.cons_ne_nil _ _)]
        rfl
  change parseUnary parseExpr
    (Token.ident name :: Token.lParen :: itemTokens args ++ [Token.rParen] ++ rest) = _
  rw [List.cons_append, List.cons_append, List.cons_append, List.cons_append, List.append_assoc,
    parseUnary_operand (by simp) (by simp) (by simp)]
  refine parsePrimary_ok ?_
  unfold parseAtom
  dsimp only
  rw [if_neg htrue, if_neg hfalse, if_pos (by rfl), Parser.skipIf_cons]
  exact Parser.map_ok hparsed

theorem printed_tuple {items : List Expr} (hprint : PrintableNode (.tuple items))
    (h : ∀ e ∈ items, Printed e) : Printed (.tuple items) := by
  obtain ⟨items', hitems⟩ := items_readBack h
  obtain ⟨hsizes, hsames⟩ := items_same hitems
  have hsame : Expr.tuple items' = .tuple items ↔ ReadsBack (.tuple items) := by
    rw [readsBack_iff, Expr.tuple.injEq, hsames]
    exact ⟨fun he => ⟨trivial, he⟩, fun he => he.2⟩
  have hsize : (Expr.tuple items').size = (Expr.tuple items).size := by
    rw [Expr.size, Expr.size, hsizes]
  have hlength : 2 ≤ items.length := hprint
  have hgroup : group items' = .tuple items' := by
    have hlength' := hitems.length_eq
    unfold group
    split
    · rw [List.length_singleton] at hlength'
      omega
    · rfl
  refine .of_atom rfl rfl hsize hsame fun rest _ => ?_
  have hread := items_read hitems (by rintro rfl; exact absurd hlength (by decide)) rest
  have htokens : bareTokens (.tuple items) =
      Token.lParen :: itemTokens items ++ [Token.rParen] := by
    rw [bareTokens]
  rw [htokens, List.cons_append, List.cons_append, List.append_assoc,
    parseUnary_operand (by simp) (by simp) (by simp)]
  refine parsePrimary_ok ?_
  unfold parseAtom
  dsimp only [List.singleton_append]
  rw [hread]
  dsimp only
  rw [hgroup, Parser.skipIf_cons]

theorem printed_binary {op : BinOp} {left right : Expr} (hop : op ≠ .add) (hl : Printed left)
    (hr : Printed right) : Printed (.binary op left right) := by
  obtain ⟨hlow, hhigh⟩ := binopPrec_bounds op
  obtain ⟨tl, al, ll, hleft⟩ := @Printed.chainAt left hl (binopPrec op) (by omega)
  obtain ⟨tr, ar, lr, hright⟩ := @Printed.chainAt right hr (binopPrec op + 1) (by omega)
  have hchain := hleft.node hright (o := .binary op) rfl (readBackNode_binary op left right)
    (next_binop hop)
  exact .of_operator (Nat.le_of_succ_le hlow) (Nat.lt_succ_of_le hhigh) hchain

theorem printed_coalesce {value default : Expr} (hv : Printed value) (hd : Printed default) :
    Printed (.coalesce value default) := by
  obtain ⟨tl, al, ll, hleft⟩ := @Printed.chainAt value hv 3 (by decide)
  obtain ⟨tr, ar, lr, hright⟩ := @Printed.chainAt default hd 2 (by decide)
  have hnext : ∀ ts, Follows ([Token.coalesce] ++ ts) ∧
      Infix.next ([Token.coalesce] ++ ts) = some (.coalesce, ts) := fun ts => ⟨follows_cons (by simp) (by simp), rfl⟩
  have hmk : Infix.mk .coalesce value default = .coalesce value default := rfl
  have hchain := hleft.node hright hmk (readBackNode_coalesce value default) hnext
  exact .of_operator (Nat.le_refl 2) (by decide : 2 < 13) hchain

theorem printed_ternary {cond thenBranch elseBranch : Expr} (hc : Printed cond)
    (ht : Printed thenBranch) (he : Printed elseBranch) :
    Printed (.ternary cond thenBranch elseBranch) := by
  obtain ⟨cond', hcond⟩ := hc.readBack
  obtain ⟨then', hthen⟩ := ht.readBack
  obtain ⟨else', helse⟩ := he.readBack
  have hsame : Expr.ternary cond' then' else' = .ternary cond thenBranch elseBranch ↔
      ReadsBack (.ternary cond thenBranch elseBranch) := by
    rw [readsBack_iff, Expr.ternary.injEq, hcond.same, hthen.same, helse.same]
    simp [Expr.children, ReadBackNode]
  have hsize : (Expr.ternary cond' then' else').size =
      (Expr.ternary cond thenBranch elseBranch).size := by
    rw [Expr.size, Expr.size, hcond.size, hthen.size, helse.size]
  have hwhole : ∀ rest, EndsExpr rest →
      parseExpr (bareTokens (.ternary cond thenBranch elseBranch) ++ rest) =
        (.ok (.ternary cond' then' else'), rest) := by
    intro rest hrest
    have hreadElse := helse.whole rest hrest
    have hreadThen := hthen.whole (Token.colon :: (bareTokens elseBranch ++ rest)) (endsExpr_colon _)
    have hreadCond := hcond.cond
      (Token.question ::
        (bareTokens thenBranch ++ Token.colon :: (bareTokens elseBranch ++ rest)))
      ⟨follows_cons (by simp) (by simp), rfl⟩
    have htokens : bareTokens (.ternary cond thenBranch elseBranch) ++ rest =
        exprTokens cond 2 ++ Token.question ::
          (bareTokens thenBranch ++ Token.colon :: (bareTokens elseBranch ++ rest)) := by
      have hthen1 := exprTokens_bare (one_le_exprPrec thenBranch)
      have helse1 := exprTokens_bare (one_le_exprPrec elseBranch)
      change exprTokens cond 2 ++ [Token.question] ++ exprTokens thenBranch 1 ++ [Token.colon] ++
        exprTokens elseBranch 1 ++ rest = _
      rw [hthen1, helse1]
      simp
    rw [htokens, parseExpr_eq]
    unfold parseTernary
    rw [hreadCond]
    dsimp only
    rw [hreadThen]
    exact Parser.map_ok hreadElse
  have hparens : ∀ {p}, 1 < p → exprTokens (.ternary cond thenBranch elseBranch) p =
      Token.lParen :: bareTokens (.ternary cond thenBranch elseBranch) ++ [Token.rParen] :=
    fun hp => exprTokens_parens hp
  have hchain : ChainOf (.ternary cond thenBranch elseBranch) none
      (exprTokens (.ternary cond thenBranch elseBranch) 2)
      (.leaf (.ternary cond thenBranch elseBranch))
      (.ternary cond' then' else') [] := by
    refine chainOf_leaf hsize hsame fun rest hrest => ?_
    rw [hparens (by decide), parens_operand hwhole, parsePostfix_stop hrest.1]
  obtain ⟨e', -, -, hleaf, hread⟩ := hchain.readBack
  rw [hleaf rfl] at hread
  refine ⟨⟨.ternary cond' then' else', hsize, hsame, fun rest _ => ?_, hread, hwhole⟩, ?_⟩
  · rw [hparens (by decide)]
    exact parens_operand hwhole rest
  · intro hprec
    exact absurd (show 2 ≤ 1 from hprec) (by decide)

/-- Every expression that can be printed is read back in its places. -/
theorem printed {e : Expr} (h : Printable e) : Printed e := by
  induction h with
  | @intro e here inside ih =>
      cases e with
      | ident s => exact printed_ident here
      | int v => exact printed_int v
      | str s => exact printed_str here
      | binary op left right =>
          exact printed_binary here (ih left (by simp [Expr.children]))
            (ih right (by simp [Expr.children]))
      | unary op e => exact printed_unary op (ih e (List.mem_singleton_self _))
      | ternary c t f =>
          exact printed_ternary (ih c (by simp [Expr.children])) (ih t (by simp [Expr.children]))
            (ih f (by simp [Expr.children]))
      | coalesce v d =>
          exact printed_coalesce (ih v (by simp [Expr.children])) (ih d (by simp [Expr.children]))
      | call name args => exact printed_call (.intro here inside) ih
      | tuple items => exact printed_tuple here ih
      | field base name => exact printed_field (ih base (List.mem_singleton_self _))

end Fmt

end NFdl
