import NFdl.Verify.Rendered

/-!
# What the interval analysis gets right

The analysis reads a rendered expression from the left. A literal, and a field moved
by a literal, it reads as they are meant. A text that goes on after its first `%` with
a positive literal it takes for a remainder, whatever stands before it.
-/

namespace NFdl

open Text

attribute [local simp] exprToString

variable {values : String → ℤ}

/-! ### Results of operators -/

/-- The operands with which the result of an operator is at least zero and less than a
bound. A result that is a truth value is at most one. -/
def BinOp.Lands (op : BinOp) (x l r : ℤ) : Prop :=
  match op with
  | .add => -r ≤ l ∧ l < x - r
  | .sub => r ≤ l ∧ l < x + r
  | .eq => l = r → 1 < x
  | .ne => l ≠ r → 1 < x
  | .gt => r < l → 1 < x
  | .lt => l < r → 1 < x
  | .ge => r ≤ l → 1 < x
  | .le => l ≤ r → 1 < x
  | .and => l ≠ 0 ∧ r ≠ 0 → 1 < x
  | .or => l ≠ 0 ∨ r ≠ 0 → 1 < x
  | .shl => 0 ≤ l ∧ l * 2 ^ r.toNat < x
  | .shr => 0 ≤ l ∧ l < x * 2 ^ r.toNat
  | op => 0 ≤ op.overInt l r ∧ op.overInt l r < x

/-- The operands of an operator in front with such results. -/
def UnaryOp.Lands (op : UnaryOp) (x v : ℤ) : Prop :=
  match op with
  | .not => v = 0 → 1 < x
  | .bitNot => -x ≤ v ∧ v < 0
  | .neg => -x < v ∧ v ≤ 0

theorem truth_lands {x : ℤ} (hpos : 0 < x) (b : Bool) :
    (b = true → 1 < x) ↔ 0 ≤ (if b then 1 else 0 : ℤ) ∧ (if b then 1 else 0 : ℤ) < x := by
  cases b with
  | true => exact ⟨fun h => ⟨by decide, h rfl⟩, fun h _ => h.2⟩
  | false => exact ⟨fun _ => ⟨Int.le_refl 0, hpos⟩, fun _ h => by cases h⟩

theorem BinOp.lands_iff {op : BinOp} {x l r : ℤ} (hpos : 0 < x) :
    op.Lands x l r ↔ 0 ≤ op.overInt l r ∧ op.overInt l r < x := by
  have hpow : (0 : ℤ) < 2 ^ r.toNat := Int.pow_pos (by decide)
  cases op with
  | add =>
      change -r ≤ l ∧ l < x - r ↔ 0 ≤ l + r ∧ l + r < x
      omega
  | sub =>
      change r ≤ l ∧ l < x + r ↔ 0 ≤ l - r ∧ l - r < x
      omega
  | shl =>
      change 0 ≤ l ∧ _ ↔ 0 ≤ l * 2 ^ r.toNat ∧ _
      rw [Int.mul_nonneg_iff_of_pos_right hpow]
      exact Iff.rfl
  | shr =>
      change 0 ≤ l ∧ l < x * 2 ^ r.toNat ↔ 0 ≤ l / 2 ^ r.toNat ∧ l / 2 ^ r.toNat < x
      rw [Int.ediv_lt_iff_lt_mul hpow, Int.le_ediv_iff_mul_le hpow, Int.zero_mul]
  | eq | ne | gt | lt | ge | le | and | or =>
      refine Iff.trans ?_ (truth_lands hpos _)
      simp [BinOp.Lands]
  | mul | div | mod | bitAnd | bitOr | bitXor => exact Iff.rfl

theorem UnaryOp.lands_iff {op : UnaryOp} {x v : ℤ} (hpos : 0 < x) :
    op.Lands x v ↔ 0 ≤ op.overInt v ∧ op.overInt v < x := by
  cases op with
  | not =>
      change (v = 0 → 1 < x) ↔ 0 ≤ (if v = 0 then 1 else 0 : ℤ) ∧ (if v = 0 then 1 else 0 : ℤ) < x
      split <;> omega
  | bitNot =>
      have hnot : Int.not v = -v - 1 := by
        cases v with
        | ofNat n => change Int.negSucc n = -(n : ℤ) - 1; omega
        | negSucc n => change (n : ℤ) = -Int.negSucc n - 1; omega
      change -x ≤ v ∧ v < 0 ↔ 0 ≤ Int.not v ∧ Int.not v < x
      rw [hnot]
      omega
  | neg =>
      change -x < v ∧ v ≤ 0 ↔ 0 ≤ -v ∧ -v < x
      omega

/-- A remainder is not negative if the dividend is not, or if it is a multiple. -/
theorem remainder_lands {u x : ℤ} (hpos : 0 < x) :
    0 ≤ u ∨ x ∣ u ↔ 0 ≤ u.tmod x ∧ u.tmod x < x := by
  refine ⟨fun h => ⟨?_, Int.tmod_lt_of_pos _ hpos⟩, fun h => ?_⟩
  · obtain h | h := h
    · exact Int.tmod_nonneg _ h
    · exact Int.le_of_eq (Int.tmod_eq_zero_of_dvd h).symm
  · obtain hneg | hneg := Int.lt_or_le u 0
    · have hopposite : 0 ≤ (-u).tmod x := Int.tmod_nonneg _ (by omega)
      rw [Int.neg_tmod] at hopposite
      exact .inr (Int.dvd_of_tmod_eq_zero (by omega))
    · exact .inl hneg

/-! ### Soundness -/

variable {facts : Facts} {e : Expr}

/-- That the analysis reads an expression as it is meant: as a literal; as a remainder,
where the first `%` is the operator of the whole expression and the dividend is not
negative or a multiple of the divisor; as a remainder that is only the last part of the
expression, where the other operand does not move the result out of the same bounds; as a
known field that is moved within the 64-bit integers; as a known field; or as something
unknown that fits in half of the 64-bit integers. -/
inductive ReadRight (facts : Facts) (values : String → ℤ) (e : Expr) : Prop
  | literal {c : ℤ} (hliteral : parseInt64 (exprToString e) = some c) : ReadRight facts values e
  | remainder {l r : Expr} (hroot : e = .binary .mod l r) {x : ℤ}
      (hbound : modulusBound (exprToString e) = some x)
      (hdividend : 0 ≤ intValue values l ∨ x ∣ intValue values l) : ReadRight facts values e
  | behind {op : BinOp} {l r : Expr} (hop : op ≠ .mod) (hroot : e = .binary op l r) {x : ℤ}
      (hbound : modulusBound (exprToString e) = some x)
      (hlands : op.Lands x (intValue values l) (intValue values r)) : ReadRight facts values e
  | under {op : UnaryOp} {e' : Expr} (hroot : e = .unary op e') {x : ℤ}
      (hbound : modulusBound (exprToString e) = some x)
      (hlands : op.Lands x (intValue values e')) : ReadRight facts values e
  | moved {i : Interval} (hnone : modulusBound (exprToString e) = none)
      (hmoved : shiftedFact facts (exprToString e) = some (some i)) : ReadRight facts values e
  | known {i : Interval} (hnone : modulusBound (exprToString e) = none)
      (hnone' : shiftedFact facts (exprToString e) = none)
      (hknown : facts.lookup (String.ofList (exprToString e)) = some i) : ReadRight facts values e
  | unknown (hnone : modulusBound (exprToString e) = none)
      (hnone' : shiftedFact facts (exprToString e) = none)
      (hvalue : Interval.wide.contains (intValue values e)) : ReadRight facts values e

/-- A checked integer is the integer. -/
theorem eq_of_checkedInt64 {i j : ℤ} (h : checkedInt64 i = some j) : j = i := by
  unfold checkedInt64 at h
  split at h
  · exact (Option.some.inj h).symm
  · cases h

theorem contains_sub {i i' : Interval} {v c : ℤ} (h : i.contains v)
    (hsub : i.sub (.new c c) = some i') : i'.contains (v - c) := by
  obtain ⟨lo, hlo, h'⟩ := Option.bind_eq_some_iff.mp hsub
  obtain ⟨hi, hhi, heq⟩ := Option.bind_eq_some_iff.mp h'
  obtain rfl := eq_of_checkedInt64 hlo
  obtain rfl := eq_of_checkedInt64 hhi
  cases heq
  unfold Interval.contains Interval.new at *
  simp only at *
  omega

theorem contains_add {i i' : Interval} {v c : ℤ} (h : i.contains v)
    (hadd : i.add (.new c c) = some i') : i'.contains (v + c) := by
  obtain ⟨lo, hlo, h'⟩ := Option.bind_eq_some_iff.mp hadd
  obtain ⟨hi, hhi, heq⟩ := Option.bind_eq_some_iff.mp h'
  obtain rfl := eq_of_checkedInt64 hlo
  obtain rfl := eq_of_checkedInt64 hhi
  cases heq
  unfold Interval.contains Interval.new at *
  simp only at *
  omega

/-- A known field that is moved by a literal. -/
theorem shiftedFact_contains (h : e.Spelled) (hkeys : ∀ name, name ∈ facts → Identifier name)
    (hvalues : facts.Hold values) (hnone : parseInt64 (exprToString e) = none) {i : Interval}
    (hmoved : shiftedFact facts (exprToString e) = some (some i)) :
    i.contains (intValue values e) := by
  obtain ⟨⟨left, op, right⟩, hsplit, hfound⟩ := Option.bind_eq_some_iff.mp hmoved
  obtain ⟨leftInt, hleft, hparsed⟩ := Option.bind_eq_some_iff.mp hfound
  obtain ⟨c, hc, hresult⟩ := Option.bind_eq_some_iff.mp hparsed
  have hname : Identifier (String.ofList left) :=
    hkeys _ (AList.lookup_isSome.mp (Option.isSome_iff_exists.mpr ⟨leftInt, hleft⟩))
  have hin := hvalues _ _ hleft
  unfold parseSimpleArith at hsplit
  rw [trim_exprToString h] at hsplit
  simp only at hsplit
  split at hsplit
  · rename_i before after hminus
    cases hsplit
    obtain ⟨r, rfl, hr, hparse⟩ := split_at_sign (.inl ⟨rfl, rfl⟩) h hnone hminus hname
      String.toList_ofList.symm hc
    change i.contains (values _ - intValue values r)
    rw [intValue_of_parseInt64 hr hparse]
    exact contains_sub hin (Option.some.inj hresult)
  · obtain ⟨⟨before, after⟩, hplus, heq⟩ := Option.map_eq_some_iff.mp hsplit
    cases heq
    obtain ⟨r, rfl, hr, hparse⟩ := split_at_sign (.inr ⟨rfl, rfl⟩) h hnone hplus hname
      String.toList_ofList.symm hc
    change i.contains (values _ + intValue values r)
    rw [intValue_of_parseInt64 hr hparse]
    exact contains_add hin (Option.some.inj hresult)

theorem literal_contains (h : e.Spelled) {c : ℤ} (hparse : parseInt64 (exprToString e) = some c) :
    (Interval.new c c).contains (intValue values e) := by
  rw [intValue_of_parseInt64 h hparse]
  unfold Interval.contains Interval.new
  simp only
  omega

theorem contains_remainder {x v : ℤ} (hpos : 0 < x) :
    (Interval.new 0 (x - 1)).contains v ↔ 0 ≤ v ∧ v < x := by
  unfold Interval.contains Interval.new
  simp only
  omega

/-- The value of a remainder by its divisor in the text. -/
theorem remainder_value {l r : Expr} (h : (Expr.binary .mod l r).Spelled) {x : ℤ}
    (hbound : modulusBound (exprToString (.binary .mod l r)) = some x) :
    intValue values (.binary .mod l r) = (intValue values l).tmod x := by
  obtain ⟨hvalue, hpos⟩ := modulusBound_root values h hbound
  change BinOp.overInt .mod _ _ = _
  rw [hvalue]
  exact if_neg (Int.ne_of_gt hpos)

/-- A known field. -/
theorem fact_contains (h : e.Spelled) (hkeys : ∀ name, name ∈ facts → Identifier name)
    (hvalues : facts.Hold values) {i : Interval}
    (hknown : facts.lookup (String.ofList (exprToString e)) = some i) :
    i.contains (intValue values e) := by
  have hname := hkeys _ (AList.lookup_isSome.mp (Option.isSome_iff_exists.mpr ⟨i, hknown⟩))
  have hident := eq_ident_of_parts h hname String.toList_ofList.symm
  have hin := hvalues _ _ hknown
  generalize String.ofList (exprToString e) = name at hident hin
  subst hident
  exact hin

section NoLiteral

variable (hparse : parseInt64 (exprToString e) = none)
include hparse

/-- Behind a `%` the value is within its bounds exactly if the operands of the last operator
that is not that `%` allow it. -/
theorem readRight_iff_of_bound (h : e.Spelled) {x : ℤ}
    (hbound : modulusBound (exprToString e) = some x) :
    ReadRight facts values e ↔ 0 ≤ intValue values e ∧ intValue values e < x := by
  obtain ⟨-, -, -, -, hpos⟩ := modulusBound_eq_some hbound
  have hsame : ∀ {x'}, modulusBound (exprToString e) = some x' → x' = x :=
    fun hbound' => Option.some.inj (hbound'.symm.trans hbound)
  constructor
  · intro hread
    cases hread with
    | literal hliteral => rw [hparse] at hliteral; cases hliteral
    | remainder hroot hbound' hdividend =>
        obtain rfl := hsame hbound'
        subst hroot
        rw [remainder_value h hbound]
        exact (remainder_lands hpos).mp hdividend
    | behind hop hroot hbound' hlands =>
        obtain rfl := hsame hbound'
        subst hroot
        exact (BinOp.lands_iff hpos).mp hlands
    | under hroot hbound' hlands =>
        obtain rfl := hsame hbound'
        subst hroot
        exact (UnaryOp.lands_iff hpos).mp hlands
    | moved hnone | known hnone | unknown hnone => rw [hbound] at hnone; cases hnone
  · intro hvalue
    obtain ⟨l, r, rfl⟩ | ⟨op, l, r, hop, rfl, -⟩ | ⟨op, e', rfl, -⟩ := modulusBound_cases h hbound
    · rw [remainder_value h hbound] at hvalue
      exact .remainder rfl hbound ((remainder_lands hpos).mpr hvalue)
    · exact .behind hop rfl hbound ((BinOp.lands_iff hpos).mpr hvalue)
    · exact .under rfl hbound ((UnaryOp.lands_iff hpos).mpr hvalue)

variable (hbound : modulusBound (exprToString e) = none)
include hbound

/-- What is moved out of the 64-bit integers is not read. -/
theorem not_readRight_of_overflow (hmoved : shiftedFact facts (exprToString e) = some none) :
    ¬ ReadRight facts values e := by
  intro hread
  cases hread with
  | literal hliteral => rw [hparse] at hliteral; cases hliteral
  | remainder _ hbound' | behind _ _ hbound' | under _ hbound' =>
      rw [hbound] at hbound'
      cases hbound'
  | moved _ hmoved' | known _ hmoved' | unknown _ hmoved' => rw [hmoved] at hmoved'; cases hmoved'

theorem readRight_iff_of_unknown (hmoved : shiftedFact facts (exprToString e) = none)
    (hknown : facts.lookup (String.ofList (exprToString e)) = none) :
    ReadRight facts values e ↔ Interval.wide.contains (intValue values e) := by
  refine ⟨fun hread => ?_, .unknown hbound hmoved⟩
  cases hread with
  | literal hliteral => rw [hparse] at hliteral; cases hliteral
  | remainder _ hbound' | behind _ _ hbound' | under _ hbound' =>
      rw [hbound] at hbound'
      cases hbound'
  | moved _ hmoved' => rw [hmoved] at hmoved'; cases hmoved'
  | known _ _ hknown' => rw [hknown] at hknown'; cases hknown'
  | unknown _ _ hvalue => exact hvalue

end NoLiteral

/-- The interval of the analysis contains the value exactly if the analysis reads the
expression as it is meant. -/
theorem analyzeExpr_contains_iff (h : e.Spelled) (hkeys : ∀ name, name ∈ facts → Identifier name)
    (hvalues : facts.Hold values) :
    (∃ i, analyzeExpr facts (exprToString e) = some i ∧ i.contains (intValue values e)) ↔
      ReadRight facts values e := by
  have hread : ∀ {i : Interval} {v : ℤ},
      (∃ i', some i = some i' ∧ i'.contains v) ↔ i.contains v := by
    intro i v
    simp only [Option.some.injEq, exists_eq_left']
  unfold analyzeExpr
  rw [trim_exprToString h]
  simp only
  cases hparse : parseInt64 (exprToString e) with
  | some c => exact iff_of_true (hread.mpr (literal_contains h hparse)) (.literal hparse)
  | none =>
      cases hbound : modulusBound (exprToString e) with
      | some x =>
          obtain ⟨-, -, -, -, hpos⟩ := modulusBound_eq_some hbound
          exact (hread.trans (contains_remainder hpos)).trans
            (readRight_iff_of_bound hparse h hbound).symm
      | none =>
          cases hmoved : shiftedFact facts (exprToString e) with
          | some result =>
              cases result with
              | none =>
                  refine iff_of_false ?_ (not_readRight_of_overflow hparse hbound hmoved)
                  rintro ⟨i, hi, -⟩
                  cases hi
              | some i =>
                  exact iff_of_true
                    (hread.mpr (shiftedFact_contains h hkeys hvalues hparse hmoved))
                    (.moved hbound hmoved)
          | none =>
              cases hknown : facts.lookup (String.ofList (exprToString e)) with
              | some i =>
                  exact iff_of_true (hread.mpr (fact_contains h hkeys hvalues hknown))
                    (.known hbound hmoved hknown)
              | none =>
                  exact hread.trans (readRight_iff_of_unknown hparse hbound hmoved hknown).symm

/-! ### Unknown expressions -/

/-- How far from zero the result of an operator is at most, by the operands. -/
def BinOp.reach (op : BinOp) (l r : ℕ) : ℕ :=
  match op with
  | .add | .sub => l + r
  | .mul => l * r
  | .div | .mod | .shr => l
  | .shl => l * 2 ^ r
  | .bitAnd | .bitOr | .bitXor => 2 ^ (max l r).size
  | _ => 1

def UnaryOp.reach (op : UnaryOp) (v : ℕ) : ℕ :=
  match op with
  | .not => 1
  | .bitNot => v + 1
  | .neg => v

/-- How far from zero the value of an expression is at most, by the names in it. -/
def Expr.reach (names : String → ℕ) : Expr → ℕ
  | .int v => v.toInt.natAbs
  | .ident name => names name
  | .binary op left right => op.reach (left.reach names) (right.reach names)
  | .unary op expr => op.reach (expr.reach names)
  | .ternary _ thenBranch elseBranch => max (thenBranch.reach names) (elseBranch.reach names)
  | .coalesce value default => max (value.reach names) (default.reach names)
  | .call _ _ => 0
  | .tuple _ => 0
  | .field _ _ => 0
  | .str _ => 0

/-- An operation on the bits of two integers stays within the width of both. -/
theorem bitwise_reach {l r : ℤ} {n : ℕ} (hl : l.natAbs < 2 ^ n) (hr : r.natAbs < 2 ^ n) :
    (Int.land l r).natAbs ≤ 2 ^ n ∧ (Int.lor l r).natAbs ≤ 2 ^ n ∧
      (Int.xor l r).natAbs ≤ 2 ^ n := by
  cases l with
  | ofNat a =>
      cases r with
      | ofNat b =>
          exact ⟨Nat.le_of_lt (Nat.and_lt_two_pow _ hr), Nat.le_of_lt (Nat.or_lt_two_pow hl hr),
            Nat.le_of_lt (Nat.xor_lt_two_pow hl hr)⟩
      | negSucc b =>
          have hb : b < 2 ^ n := Nat.lt_of_succ_lt hr
          exact ⟨Nat.le_of_lt (Nat.bitwise_lt_two_pow hl hb), Nat.bitwise_lt_two_pow hb hl,
            Nat.xor_lt_two_pow hl hb⟩
  | negSucc a =>
      have ha : a < 2 ^ n := Nat.lt_of_succ_lt hl
      cases r with
      | ofNat b =>
          exact ⟨Nat.le_of_lt (Nat.bitwise_lt_two_pow hr ha), Nat.bitwise_lt_two_pow ha hr,
            Nat.xor_lt_two_pow ha hr⟩
      | negSucc b =>
          have hb : b < 2 ^ n := Nat.lt_of_succ_lt hr
          exact ⟨Nat.or_lt_two_pow ha hb, Nat.and_lt_two_pow _ hb,
            Nat.le_of_lt (Nat.xor_lt_two_pow ha hb)⟩

theorem truth_reach (b : Bool) : (if b then 1 else 0 : ℤ).natAbs ≤ 1 := by
  cases b <;> decide

theorem BinOp.overInt_reach {op : BinOp} {l r : ℤ} {a b : ℕ} (hl : l.natAbs ≤ a)
    (hr : r.natAbs ≤ b) : (op.overInt l r).natAbs ≤ op.reach a b := by
  have hbits := bitwise_reach (n := (max a b).size)
    (Nat.lt_of_le_of_lt (hl.trans (Nat.le_max_left a b)) (Nat.lt_size_self _))
    (Nat.lt_of_le_of_lt (hr.trans (Nat.le_max_right a b)) (Nat.lt_size_self _))
  cases op with
  | add => exact (Int.natAbs_add_le l r).trans (Nat.add_le_add hl hr)
  | sub => exact (Int.natAbs_sub_le l r).trans (Nat.add_le_add hl hr)
  | mul =>
      change (l * r).natAbs ≤ a * b
      rw [Int.natAbs_mul]
      exact Nat.mul_le_mul hl hr
  | div => exact (Int.natAbs_tdiv_le_natAbs l r).trans hl
  | mod =>
      change (if r = 0 then 0 else l.tmod r).natAbs ≤ a
      split
      · exact Nat.zero_le a
      · rw [Int.natAbs_tmod]
        exact (Nat.mod_le ..).trans hl
  | shr => exact (Int.natAbs_ediv_le_natAbs l _).trans hl
  | shl =>
      have hpow : (2 ^ r.toNat : ℤ).natAbs = 2 ^ r.toNat := Int.natAbs_pow 2 _
      change (l * 2 ^ r.toNat).natAbs ≤ a * 2 ^ b
      rw [Int.natAbs_mul, hpow]
      exact Nat.mul_le_mul hl (Nat.pow_le_pow_right (by decide) (by omega))
  | bitAnd => exact hbits.1
  | bitOr => exact hbits.2.1
  | bitXor => exact hbits.2.2
  | eq | ne | gt | lt | ge | le | and | or => exact truth_reach _

theorem UnaryOp.overInt_reach {op : UnaryOp} {v : ℤ} {a : ℕ} (hv : v.natAbs ≤ a) :
    (op.overInt v).natAbs ≤ op.reach a := by
  cases op with
  | not =>
      change (if v = 0 then 1 else 0 : ℤ).natAbs ≤ 1
      split <;> decide
  | bitNot =>
      cases v with
      | ofNat n => exact Nat.succ_le_succ hv
      | negSucc n => exact (Nat.le_succ n).trans (hv.trans (Nat.le_succ a))
  | neg =>
      change (-v).natAbs ≤ a
      rwa [Int.natAbs_neg]

/-- The value of an expression is not farther from zero than its names let it be. The
induction is on the expression. -/
theorem intValue_reach {names : String → ℕ} (hnames : ∀ name, (values name).natAbs ≤ names name)
    (e : Expr) : (intValue values e).natAbs ≤ e.reach names := by
  induction e with
  | ident name => exact hnames name
  | int v => exact Nat.le_refl _
  | str s => exact Nat.le_refl _
  | binary op left right ihl ihr => exact BinOp.overInt_reach ihl ihr
  | unary op expr ih => exact UnaryOp.overInt_reach ih
  | ternary cond thenBranch elseBranch _ iht ihe =>
      rw [intValue]
      split
      · exact iht.trans (Nat.le_max_left ..)
      · exact ihe.trans (Nat.le_max_right ..)
  | coalesce value default ihv ihd =>
      rw [intValue]
      split
      · exact ihv.trans (Nat.le_max_left ..)
      · exact ihd.trans (Nat.le_max_right ..)
  | call name args => exact Nat.le_refl _
  | tuple elems => exact Nat.le_refl _
  | field base name => exact Nat.le_refl _

/-- Something unknown is read as it is meant if its names do not let it leave half of the
64-bit integers. -/
theorem readRight_of_reach {names : String → ℕ}
    (hnames : ∀ name, (values name).natAbs ≤ names name) (hreach : e.reach names < 2 ^ 62)
    (hnone : modulusBound (exprToString e) = none)
    (hnone' : shiftedFact facts (exprToString e) = none) : ReadRight facts values e := by
  have hvalue := intValue_reach hnames e
  refine .unknown hnone hnone' ?_
  unfold Interval.contains Interval.wide
  simp only
  omega

/-! ### Messages -/

/-- What is known of a message is known of its fields. -/
theorem identifier_of_messageFacts {msg : Message}
    (hfields : ∀ f ∈ msg.fields ++ msg.loops.flatMap Loop.body, Identifier f.name) :
    ∀ name, name ∈ messageFacts msg → Identifier name := by
  have hseed : ∀ (fields : List Field) (facts : Facts), (∀ f ∈ fields, Identifier f.name) →
      (∀ name, name ∈ facts → Identifier name) →
      ∀ name, name ∈ seedFieldIntervals fields facts → Identifier name := by
    intro fields
    induction fields with
    | nil => exact fun facts _ hfacts => hfacts
    | cons f rest ih =>
        intro facts hfields hfacts
        refine ih _ (fun g hg => hfields g (List.mem_cons_of_mem _ hg)) fun name hname => ?_
        simp only at hname
        split at hname
        · obtain rfl | hname := (AList.mem_insert _).mp hname
          · exact hfields f (List.mem_cons_self ..)
          · exact hfacts name hname
        · exact hfacts name hname
  have hloops : ∀ (loops : List Loop) (facts : Facts),
      (∀ f ∈ loops.flatMap Loop.body, Identifier f.name) →
      (∀ name, name ∈ facts → Identifier name) → ∀ name,
      name ∈ loops.foldl (fun facts lp => seedFieldIntervals lp.body facts) facts →
      Identifier name := by
    intro loops
    induction loops with
    | nil => exact fun facts _ hfacts => hfacts
    | cons lp rest ih =>
        intro facts hfields hfacts
        rw [List.flatMap_cons] at hfields
        exact ih _ (fun f hf => hfields f (List.mem_append_right _ hf))
          (hseed lp.body facts (fun f hf => hfields f (List.mem_append_left _ hf)) hfacts)
  refine hloops msg.loops _ (fun f hf => hfields f (List.mem_append_right _ hf)) ?_
  refine hseed msg.fields ∅ (fun f hf => hfields f (List.mem_append_left _ hf)) fun name hname => ?_
  exact absurd hname (AList.notMem_empty name)

/-- A check without a diagnostic. -/
theorem checkFieldSlice_accepts {field : Field} {len : Expr} (hty : field.ty = .bytes len)
    (haccepted : checkFieldSlice facts field = some []) :
    ∃ i, analyzeExpr facts (exprToString len) = some i ∧ 0 ≤ i.lo ∧ i.hi ≠ 2 ^ 62 - 1 := by
  unfold checkFieldSlice at haccepted
  rw [hty] at haccepted
  obtain ⟨i, hi, haccepted⟩ := Option.bind_eq_some_iff.mp haccepted
  refine ⟨i, hi, ?_⟩
  split at haccepted
  · cases haccepted
  · split at haccepted
    · cases haccepted
    · rename_i hlo hhi
      exact ⟨Int.not_lt.mp hlo, hhi⟩

/-- For every message and all values of its fields within their intervals: the interval
of a length contains its value exactly if the analysis reads the length as it is meant,
and then a length that is accepted as bounded is within the bound. -/
theorem slice_analysis_sound_iff {msg : Message} {len : Expr} (hlen : len.Spelled)
    (hfields : ∀ f ∈ msg.fields ++ msg.loops.flatMap Loop.body, Identifier f.name)
    (hvalues : (messageFacts msg).Hold values) :
    ((∃ i, analyzeExpr (messageFacts msg) (exprToString len) = some i ∧
      i.contains (intValue values len)) ↔ ReadRight (messageFacts msg) values len) ∧
    ∀ field : Field, field.ty = .bytes len →
      checkFieldSlice (messageFacts msg) field = some [] →
      ReadRight (messageFacts msg) values len →
      ∃ i, analyzeExpr (messageFacts msg) (exprToString len) = some i ∧ i.hi ≠ 2 ^ 62 - 1 ∧
        0 ≤ intValue values len ∧ intValue values len ≤ i.hi := by
  have hcontains := analyzeExpr_contains_iff hlen (identifier_of_messageFacts hfields) hvalues
  refine ⟨hcontains, fun field hty haccepted hread => ?_⟩
  obtain ⟨i, hi, hlo, hhi⟩ := checkFieldSlice_accepts hty haccepted
  obtain ⟨i', hi', hin⟩ := hcontains.mpr hread
  cases hi.symm.trans hi'
  exact ⟨i, hi, hhi, Int.le_trans hlo hin.1, hin.2⟩

/-- The remainder of a field modulo four. -/
def remainderLength : Expr := .binary .mod (.ident "b") (.int 4)

/-- The difference of a field and that remainder. -/
def differenceLength : Expr := .binary .sub (.ident "a") remainderLength

/-- A message with slices of both lengths. -/
def paddedMessage : Message where
  name := "M"
  fields := [⟨"a", .u8, none, none, 0⟩, ⟨"b", .u8, none, none, 1⟩,
    ⟨"pad", .bytes remainderLength, none, none, 2⟩,
    ⟨"data", .bytes differenceLength, none, none, 3⟩]
  lets := []
  loops := []
  validates := []
  matches_ := []

/-- The values 100 and 2 of the two fields. -/
def paddedValues (name : String) : ℤ := if name = "a" then 100 else 2

theorem paddedMessage_identifiers :
    ∀ f ∈ paddedMessage.fields ++ paddedMessage.loops.flatMap Loop.body, Identifier f.name := by
  intro f hf
  simp only [paddedMessage, List.flatMap_nil, List.append_nil, List.mem_cons, List.not_mem_nil,
    or_false] at hf
  rcases hf with rfl | rfl | rfl | rfl <;> exact ⟨_, _, rfl, by decide, List.all_eq_true.mp rfl⟩

theorem paddedMessage_hold : (messageFacts paddedMessage).Hold paddedValues := by
  intro name i hlookup
  have hbytes : ∀ entry ∈ (messageFacts paddedMessage).entries, entry.2 = ⟨0, 255⟩ := by decide
  have hi : i = ⟨0, 255⟩ := hbytes ⟨name, i⟩ (AList.mem_lookup_iff.mp hlookup)
  rw [hi]
  unfold paddedValues
  split <;> exact ⟨by decide, by decide⟩

theorem slice_analysis_sound_iff_padded :
    ∃ i, analyzeExpr (messageFacts paddedMessage) (exprToString remainderLength) = some i ∧
      i.hi ≠ 2 ^ 62 - 1 ∧ 0 ≤ intValue paddedValues remainderLength ∧
      intValue paddedValues remainderLength ≤ i.hi := by
  have hspelled : remainderLength.Spelled :=
    ⟨⟨_, _, rfl, by decide, List.all_eq_true.mp rfl⟩, trivial⟩
  have hread : ReadRight (messageFacts paddedMessage) paddedValues remainderLength :=
    .remainder rfl (x := 4) (by decide +kernel) (.inl (by decide))
  exact (slice_analysis_sound_iff hspelled paddedMessage_identifiers paddedMessage_hold).2
    ⟨"pad", .bytes remainderLength, none, none, 2⟩ rfl (by decide +kernel) hread

/-- The verifier accepts the message, and takes the second length for a remainder modulo
four as well. Its value is 98. -/
theorem padded_not_bounded :
    verifyMessage paddedMessage = some [] ∧ (messageFacts paddedMessage).Hold paddedValues ∧
    analyzeExpr (messageFacts paddedMessage) (exprToString differenceLength) = some ⟨0, 3⟩ ∧
    intValue paddedValues differenceLength = 98 ∧ ¬ (Interval.mk 0 3).contains 98 :=
  ⟨by decide +kernel, paddedMessage_hold, by decide +kernel, by decide,
    fun h => absurd h.2 (by decide)⟩

end NFdl
