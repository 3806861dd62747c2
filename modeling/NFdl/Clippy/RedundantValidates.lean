import NFdl.Clippy.UnusedMessages
import NFdl.Runtime.Eval
import NFdl.Lib.Text

/-!
# The lint for redundant checks

The lint reports a `validate` whose expression it takes for constant: integers, comparisons of
an expression with itself, and nests of `and` and `or` over them. An `or` counts as constant as
soon as one of its operands does, whatever the constant. Beside a constant that is false the
truth of the `or` is the truth of the operand that the lint does not read.
-/

namespace NFdl

namespace Expr

mutual

/-- The derived equality of expressions. -/
def beq : Expr → Expr → Bool
  | .ident a, .ident b => a == b
  | .int v, .int w => v == w
  | .str s, .str t => s == t
  | .binary op l r, .binary op' l' r' => op == op' && (l.beq l' && r.beq r')
  | .unary op e, .unary op' e' => op == op' && e.beq e'
  | .ternary c t e, .ternary c' t' e' => c.beq c' && (t.beq t' && e.beq e')
  | .coalesce v d, .coalesce v' d' => v.beq v' && d.beq d'
  | .call f args, .call g args' => f == g && beqAll args args'
  | .tuple items, .tuple items' => beqAll items items'
  | .field b f, .field b' f' => b.beq b' && f == f'
  | _, _ => false

def beqAll : List Expr → List Expr → Bool
  | [], [] => true
  | a :: as, b :: bs => a.beq b && beqAll as bs
  | _, _ => false

end

mutual

theorem eq_of_beq : ∀ {a b : Expr}, a.beq b = true → a = b := by
  intro a b h
  cases a <;> cases b <;>
    simp only [beq, Bool.and_eq_true, beq_iff_eq, Bool.false_eq_true] at h
  case ident.ident => rw [h]
  case int.int => rw [h]
  case str.str => rw [h]
  case binary.binary => rw [h.1, eq_of_beq h.2.1, eq_of_beq h.2.2]
  case unary.unary => rw [h.1, eq_of_beq h.2]
  case ternary.ternary => rw [eq_of_beq h.1, eq_of_beq h.2.1, eq_of_beq h.2.2]
  case coalesce.coalesce => rw [eq_of_beq h.1, eq_of_beq h.2]
  case call.call => rw [h.1, eq_of_beqAll h.2]
  case tuple.tuple => rw [eq_of_beqAll h]
  case field.field => rw [eq_of_beq h.1, h.2]

theorem eq_of_beqAll : ∀ {as bs : List Expr}, beqAll as bs = true → as = bs := by
  intro as bs h
  cases as <;> cases bs <;> simp only [beqAll, Bool.and_eq_true, Bool.false_eq_true] at h
  case nil.nil => rfl
  case cons.cons => rw [eq_of_beq h.1, eq_of_beqAll h.2]

end

end Expr

namespace Clippy

/-! ### The lint -/

/-- An integer, a comparison of an expression with itself, or a nest of them. One operand is
enough for an `or`. -/
def isRedundantValidateExpr : Expr → Bool
  | .int _ => true
  | .binary op left right =>
      match op with
      | .eq | .ne | .ge | .le | .gt | .lt => left.beq right
      | .or => isRedundantValidateExpr left || isRedundantValidateExpr right
      | .and => isRedundantValidateExpr left && isRedundantValidateExpr right
      | _ => false
  | _ => false

def fieldValidates (fields : List Field) : List Validate := fields.filterMap Field.validate

def loopValidates (loops : List Loop) : List Validate :=
  loops.flatMap fun lp => fieldValidates lp.body

mutual

def validatesInMatch : Match → List Validate
  | .mk _ arms _ => validatesInArms arms

def validatesInArms : List MatchArm → List Validate
  | [] => []
  | arm :: arms => validatesInArm arm ++ validatesInArms arms

def validatesInArm : MatchArm → List Validate
  | .mk _ fields _ loops validates matches_ =>
      validates ++ fieldValidates fields ++ loopValidates loops ++ validatesInMatches matches_

def validatesInMatches : List Match → List Validate
  | [] => []
  | m :: ms => validatesInMatch m ++ validatesInMatches ms

end

def validatesInMessage (msg : Message) : List Validate :=
  msg.validates ++ fieldValidates msg.fields ++ loopValidates msg.loops ++
    validatesInMatches msg.matches_

/-- The checks in the order in which `for_each_validate` visits them. -/
def allValidates (proto : Protocol) : List Validate := proto.messages.flatMap validatesInMessage

def nfdlRedundantValidate : String := "NFDL0200"

/-- The checks that are reported. -/
def redundantValidates (proto : Protocol) : List Validate :=
  (allValidates proto).filter fun v =>
    (Text.trim v.message.toList).isEmpty || isRedundantValidateExpr v.expr

/-- The diagnostics of `check_redundant_validate`, without their places in the source. -/
def checkRedundantValidate (proto : Protocol) : List LintDiagnostic :=
  (redundantValidates proto).map fun _ =>
    ⟨nfdlRedundantValidate, .warn,
      "validate expression is constant, tautological, or has an empty message"⟩

/-! ### The truth of an expression -/

/-- Whether an expression holds, where it has a value. -/
def truth (vars : Env) (e : Expr) : Option Bool := (evalExpr vars e).map (· != 0)

/-- The truth of an expression is the same in every environment in which it has one. -/
def ConstantTruth (e : Expr) : Prop :=
  ∀ vars vars' b b', truth vars e = some b → truth vars' e = some b' → b = b'

section Truth

variable {vars : Env} {e left right : Expr} {b : Bool} {op : BinOp}

theorem boolWord_ne_zero (b : Bool) : (boolWord b != 0) = b := by cases b <;> rfl

/-- A connective has a truth exactly where both of its operands have one. -/
theorem truth_connective {f : Bool → Bool → Bool}
    (hop : ∀ l r, evalBinOp op l r = some (boolWord (f (l != 0) (r != 0)))) :
    truth vars (.binary op left right) = some b ↔
      ∃ x y, truth vars left = some x ∧ truth vars right = some y ∧ f x y = b := by
  have hvalue : truth vars (.binary op left right) = (do
      let l ← evalExpr vars left
      let r ← evalExpr vars right
      some (f (l != 0) (r != 0))) := by
    unfold truth
    conv_lhs => unfold evalExpr
    simp only [Option.bind_eq_bind, Option.map_bind, Function.comp_def, hop, Option.map_some,
      boolWord_ne_zero]
  rw [hvalue]
  simp only [truth, Option.bind_eq_bind, Option.bind_eq_some_iff, Option.map_eq_some_iff,
    Option.some_inj]
  constructor
  · rintro ⟨l, hl, r, hr, hb⟩
    exact ⟨_, _, ⟨l, hl, rfl⟩, ⟨r, hr, rfl⟩, hb⟩
  · rintro ⟨_, _, ⟨l, hl, rfl⟩, ⟨r, hr, rfl⟩, hb⟩
    exact ⟨l, hl, r, hr, hb⟩

/-- Whether a comparison holds between equal values. -/
def holdsOfEqual : BinOp → Bool
  | .eq | .ge | .le => true
  | _ => false

theorem evalBinOp_self (hop : op ∈ [.eq, .ne, .ge, .le, .gt, .lt]) (v : UInt64) :
    evalBinOp op v v = some (boolWord (holdsOfEqual op)) := by
  cases op <;> simp [evalBinOp, holdsOfEqual] at hop ⊢

theorem truth_comparison_self (hop : op ∈ [.eq, .ne, .ge, .le, .gt, .lt])
    (h : truth vars (.binary op e e) = some b) : b = holdsOfEqual op := by
  obtain ⟨v, hv, rfl⟩ := Option.map_eq_some_iff.mp h
  unfold evalExpr at hv
  obtain ⟨l, hl, hv⟩ := Option.bind_eq_some_iff.mp hv
  obtain ⟨r, hr, hv⟩ := Option.bind_eq_some_iff.mp hv
  obtain rfl : l = r := Option.some_inj.mp (hl.symm.trans hr)
  rw [evalBinOp_self hop, Option.some_inj] at hv
  rw [← hv, boolWord_ne_zero]

end Truth

/-! ### What the constants leave -/

/-- What is left of an expression when its constants are absorbed: its truth, or an expression
with the same truth. -/
inductive Remainder where
  | decided (b : Bool)
  | rest (e : Expr)

namespace Remainder

def truth (vars : Env) : Remainder → Option Bool
  | .decided b => some b
  | .rest e => Clippy.truth vars e

/-- A connective of remainders. One constant decides it, and the other one leaves the other
operand. -/
def connect (op : BinOp) (deciding : Bool) : Remainder → Remainder → Remainder
  | .decided x, r => if x = deciding then .decided deciding else r
  | l, .decided y => if y = deciding then .decided deciding else l
  | .rest l, .rest r => .rest (.binary op l r)

theorem connect_truth {op : BinOp} {deciding : Bool} {f : Bool → Bool → Bool}
    (hop : ∀ l r, evalBinOp op l r = some (boolWord (f (l != 0) (r != 0))))
    (hcomm : ∀ x y, f x y = f y x) (hdecides : ∀ y, f deciding y = deciding)
    (hleaves : ∀ y, f (!deciding) y = y) {vars : Env} {l r : Remainder} {x y : Bool}
    (hl : l.truth vars = some x) (hr : r.truth vars = some y) :
    (connect op deciding l r).truth vars = some (f x y) := by
  have hconstant : ∀ (z w : Bool) (r : Remainder), r.truth vars = some w →
      (if z = deciding then decided deciding else r).truth vars = some (f z w) := by
    intro z w r hr
    by_cases h : z = deciding
    · rw [if_pos h, h, hdecides]
      rfl
    · rw [if_neg h, Bool.eq_not_of_ne h, hleaves, hr]
  cases l with
  | decided z =>
      obtain rfl : z = x := Option.some_inj.mp hl
      cases r <;> exact hconstant z y _ hr
  | rest l =>
      cases r with
      | decided z =>
          obtain rfl : z = y := Option.some_inj.mp hr
          rw [hcomm]
          exact hconstant z x (.rest l) hl
      | rest r => exact (truth_connective hop).mpr ⟨x, y, hl, hr, rfl⟩

end Remainder

/-- What is left of an expression that the lint accepts. An operand of an `or` that is not
accepted itself stays as it is. -/
def remainder : Expr → Remainder
  | .int v => .decided (v.toUInt64 != 0)
  | .binary op left right =>
      match op with
      | .or =>
          .connect .or true (if isRedundantValidateExpr left then remainder left else .rest left)
            (if isRedundantValidateExpr right then remainder right else .rest right)
      | .and => .connect .and false (remainder left) (remainder right)
      | op => .decided (holdsOfEqual op)
  | e => .rest e

section Sound

variable {vars : Env} {e : Expr} {b : Bool}

/-- The remainder of an accepted expression has the truth of the expression. -/
theorem remainder_truth (haccepted : isRedundantValidateExpr e = true)
    (h : truth vars e = some b) : (remainder e).truth vars = some b := by
  induction e generalizing b with
  | int v =>
      unfold remainder
      exact h
  | binary op left right ihl ihr =>
      have hself : op ∈ [.eq, .ne, .ge, .le, .gt, .lt] → left.beq right = true →
          holdsOfEqual op = b := by
        intro hop hsame
        rw [Expr.eq_of_beq hsame] at h
        exact (truth_comparison_self hop h).symm
      unfold isRedundantValidateExpr at haccepted
      unfold remainder
      cases op with
      | or =>
          obtain ⟨x, y, hx, hy, rfl⟩ := (truth_connective (f := or) fun _ _ => rfl).mp h
          refine Remainder.connect_truth (f := or) (fun _ _ => rfl) Bool.or_comm
            Bool.true_or Bool.false_or ?_ ?_
          · split
            · rename_i hleft
              exact ihl hleft hx
            · exact hx
          · split
            · rename_i hright
              exact ihr hright hy
            · exact hy
      | and =>
          obtain ⟨x, y, hx, hy, rfl⟩ := (truth_connective (f := and) fun _ _ => rfl).mp h
          obtain ⟨hleft, hright⟩ := Bool.and_eq_true_iff.mp haccepted
          exact Remainder.connect_truth (f := and) (fun _ _ => rfl) Bool.and_comm
            Bool.false_and Bool.true_and (ihl hleft hx) (ihr hright hy)
      | eq | ne | gt | lt | ge | le =>
          exact congrArg some (hself (by decide) haccepted)
      | _ => cases haccepted
  | _ =>
      unfold isRedundantValidateExpr at haccepted
      cases haccepted

/-- What is left of an expression has one truth in all the environments in which the expression
has one. -/
def ConstantRest (e rest : Expr) : Prop :=
  ∀ vars vars' b b', (truth vars e).isSome → (truth vars' e).isSome →
    truth vars rest = some b → truth vars' rest = some b' → b = b'

/-- The truth of an accepted expression is constant if and only if its constants decide it or
what they leave is constant. -/
theorem constantTruth_iff_remainder (haccepted : isRedundantValidateExpr e = true) :
    ConstantTruth e ↔ ∀ rest, remainder e = .rest rest → ConstantRest e rest := by
  constructor
  · intro hconstant rest hrest vars vars' b b' hsome hsome' hb hb'
    obtain ⟨c, hc⟩ := Option.isSome_iff_exists.mp hsome
    obtain ⟨c', hc'⟩ := Option.isSome_iff_exists.mp hsome'
    have hleft := remainder_truth haccepted hc
    have hleft' := remainder_truth haccepted hc'
    rw [hrest] at hleft hleft'
    obtain rfl : b = c := Option.some_inj.mp (hb.symm.trans hleft)
    obtain rfl : b' = c' := Option.some_inj.mp (hb'.symm.trans hleft')
    exact hconstant vars vars' b b' hc hc'
  · intro hrest vars vars' b b' hb hb'
    have hleft := remainder_truth haccepted hb
    have hleft' := remainder_truth haccepted hb'
    cases hremainder : remainder e with
    | decided c =>
        rw [hremainder] at hleft hleft'
        exact Option.some_inj.mp (hleft.symm.trans hleft')
    | rest rest =>
        rw [hremainder] at hleft hleft'
        exact hrest rest hremainder vars vars' b b' (by rw [hb]; rfl) (by rw [hb']; rfl)
          hleft hleft'

end Sound

theorem constantTruth_one_or :
    isRedundantValidateExpr (.binary .or (.int 1) (.ident "flag")) = true ∧
      (ConstantTruth (.binary .or (.int 1) (.ident "flag")) ↔
        ∀ rest, remainder (.binary .or (.int 1) (.ident "flag")) = .rest rest →
          ConstantRest (.binary .or (.int 1) (.ident "flag")) rest) :=
  ⟨by decide, constantTruth_iff_remainder (by decide)⟩

/-- The lint accepts the expression `0 || flag`, which holds where the flag is set. -/
theorem redundant_zero_or : ¬ ∀ e, isRedundantValidateExpr e = true → ConstantTruth e := by
  intro hsound
  have hconstant := hsound (.binary .or (.int 0) (.ident "flag")) (by decide)
  exact Bool.false_ne_true <|
    hconstant (fun _ => none) (fun _ => some 1) false true (by decide) (by decide)

example : checkRedundantValidate ⟨"P", "big", [⟨"Pkt", [⟨"flag", .u8, none, none, 0⟩], [], [],
    [⟨.binary .or (.int 0) (.ident "flag"), "flag set", 1⟩], []⟩], []⟩ =
      [⟨"NFDL0200", .warn,
        "validate expression is constant, tautological, or has an empty message"⟩] := by
  decide +kernel

end Clippy

end NFdl
