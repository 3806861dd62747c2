import NFdl.Adgl.Meaning
import Mathlib.Algebra.Group.Int.Defs
import Mathlib.Tactic.Common

/-!
# What the operators of predicates compute

The three truth values are sets of Booleans: an unknown one allows both. A connective allows
what it makes of the Booleans that its operands allow. Comparisons and arithmetic on 64 bits are
those of the integers, except for the results that do not fit. The connectives, comparisons and
sums of the reference meaning are read off these.
-/

namespace Adgl

open Ast

/-- A truth value allows the Boolean that it is, an unknown one both. -/
def T3.Allows (t : T3) (b : Bool) : Prop := t = .unknown ∨ t = .ofBool b

instance (t : T3) : DecidablePred t.Allows := fun _ => inferInstanceAs (Decidable (_ ∨ _))

namespace T3

/-- A truth value is given by the Booleans that it allows. -/
theorem ext_allows {s t : T3} (h : ∀ b, s.Allows b ↔ t.Allows b) : s = t := by
  have htrue := h Bool.true
  have hfalse := h Bool.false
  cases s <;> cases t <;> first | rfl | (revert htrue hfalse; decide)

theorem and_allows (s t : T3) (b : Bool) :
    (s.and t).Allows b ↔ ∃ x y, s.Allows x ∧ t.Allows y ∧ (x && y) = b := by
  cases s <;> cases t <;> cases b <;> decide

theorem or_allows (s t : T3) (b : Bool) :
    (s.or t).Allows b ↔ ∃ x y, s.Allows x ∧ t.Allows y ∧ (x || y) = b := by
  cases s <;> cases t <;> cases b <;> decide

theorem not_allows (t : T3) (b : Bool) : t.not.Allows b ↔ t.Allows (!b) := by
  cases t <;> cases b <;> decide

end T3

/-- A binding may be present unless it is absent, and may be absent unless it is bound. -/
theorem Binding.presence_allows (b : Binding) :
    (b.presence.Allows true ↔ b ≠ .absent) ∧
      (b.presence.Allows false ↔ ∀ node, b ≠ .bound node) := by
  cases b with
  | bound node => exact ⟨by simp [presence, T3.Allows, T3.ofBool],
      by simp [presence, T3.Allows, T3.ofBool]⟩
  | absent => exact ⟨by simp [presence, T3.Allows, T3.ofBool],
      by simp [presence, T3.Allows, T3.ofBool]⟩
  | unknown => exact ⟨by simp [presence, T3.Allows], by simp [presence, T3.Allows]⟩

/-- The comparison on integers. -/
def CmpOp.Holds (op : CmpOp) (a b : Int) : Prop :=
  match op with
  | .eq => a = b
  | .ne => a ≠ b
  | .lt => a < b
  | .le => a ≤ b
  | .gt => b < a
  | .ge => b ≤ a

theorem CmpOp.apply_iff (op : CmpOp) (a b : Int64) :
    op.apply a b = true ↔ op.Holds a.toInt b.toInt := by
  cases op with
  | eq => exact beq_iff_eq.trans Int64.toInt_inj.symm
  | ne => exact bne_iff_ne.trans (not_congr Int64.toInt_inj.symm)
  | lt | gt => exact decide_eq_true_iff.trans Int64.lt_iff_toInt_lt
  | le | ge => exact decide_eq_true_iff.trans Int64.le_iff_toInt_le

/-- The exact result of an operator, unless it divides by zero. -/
def ArithOp.exact (op : ArithOp) (a b : Int) : Int :=
  match op with
  | .add => a + b
  | .sub => a - b
  | .mul => a * b
  | .div => a.tdiv b
  | .mod => a.tmod b

/-- Whether a zero on the right is an error. -/
def ArithOp.divides : ArithOp → Bool
  | .div | .mod => true
  | _ => false

/-- The number that must be one of 64 bits: that of a remainder is its quotient. -/
def ArithOp.bounded (op : ArithOp) (a b : ℤ) : ℤ :=
  match op with
  | .mod => a.tdiv b
  | op => op.exact a b

/-- A 64-bit integer can have this value. -/
def InRange (i : ℤ) : Prop := -2 ^ 63 ≤ i ∧ i < 2 ^ 63

instance : DecidablePred InRange := fun _ => inferInstanceAs (Decidable (_ ∧ _))

theorem inRange_toInt (a : Int64) : InRange a.toInt := ⟨a.le_toInt, a.toInt_lt⟩

theorem ofInt_eq_iff {n : ℤ} (h : InRange n) {c : Int64} : Int64.ofInt n = c ↔ c.toInt = n := by
  rw [← Int64.toInt_inj, Int64.toInt_ofInt_of_le h.1 h.2, eq_comm]

theorem checked_eq (n : ℤ) :
    checked n = if InRange n then .ok (.ofInt n) else .error .arithOverflow := by
  have hbounds : (-9223372036854775808 ≤ n ∧ n ≤ 9223372036854775807) ↔ InRange n :=
    and_congr Iff.rfl Int.lt_add_one_iff.symm
  exact if_congr hbounds rfl rfl

/-- A remainder is not larger than the dividend. -/
theorem inRange_tmod {a b : ℤ} (ha : InRange a) : InRange (a.tmod b) := by
  have hle : (a.tmod b).natAbs ≤ a.natAbs := by
    rw [Int.natAbs_tmod]
    exact Nat.mod_le _ _
  have hpos : 0 ≤ a → 0 ≤ a.tmod b := Int.tmod_nonneg b
  have hneg : 0 ≤ -a → 0 ≤ (-a).tmod b := Int.tmod_nonneg b
  rw [Int.neg_tmod] at hneg
  obtain ⟨hlow, hhigh⟩ := ha
  constructor <;> omega

namespace ArithOp

variable (op : ArithOp) (a b : Int64)

theorem inRange_exact (h : InRange (op.bounded a.toInt b.toInt)) :
    InRange (op.exact a.toInt b.toInt) := by
  cases op with
  | mod => exact inRange_tmod (inRange_toInt a)
  | _ => exact h

/-- An operator fails on a zero divisor and where the number that must fit does not, and is exact
otherwise. -/
theorem apply_eq : op.apply a b =
    if op.divides ∧ b = 0 then .error .divisionByZero
    else if InRange (op.bounded a.toInt b.toInt) then .ok (.ofInt (op.exact a.toInt b.toInt))
    else .error .arithOverflow := by
  cases op with
  | add => exact checked_eq _
  | sub => exact checked_eq _
  | mul => exact checked_eq _
  | div =>
      show (if b = 0 then _ else checked _) = _
      rw [checked_eq]
      exact if_congr (and_iff_right rfl).symm rfl rfl
  | mod =>
      show (if b = 0 then _ else (checked (a.toInt.tdiv b.toInt)).map _) = _
      rw [checked_eq, apply_ite (Except.map _)]
      exact if_congr (and_iff_right rfl).symm rfl rfl

theorem apply_ok_iff (c : Int64) : op.apply a b = .ok c ↔
    ¬ (op.divides ∧ b = 0) ∧ InRange (op.bounded a.toInt b.toInt) ∧
      c.toInt = op.exact a.toInt b.toInt := by
  rw [apply_eq]
  by_cases hzero : op.divides ∧ b = 0
  · rw [if_pos hzero]
    exact ⟨fun h => (by cases h), fun h => absurd hzero h.1⟩
  · rw [if_neg hzero]
    by_cases hrange : InRange (op.bounded a.toInt b.toInt)
    · rw [if_pos hrange, Except.ok.injEq, ofInt_eq_iff (op.inRange_exact a b hrange)]
      exact ⟨fun h => ⟨hzero, hrange, h⟩, fun h => h.2.2⟩
    · rw [if_neg hrange]
      exact ⟨fun h => (by cases h), fun h => absurd h.2.1 hrange⟩

end ArithOp

/-- The comparison that an operator of expressions stands for. -/
def Ast.BinaryOp.cmp? : BinaryOp → Option CmpOp
  | .eq => some .eq
  | .ne => some .ne
  | .lt => some .lt
  | .le => some .le
  | .gt => some .gt
  | .ge => some .ge
  | _ => none

/-- The arithmetic that an operator of expressions stands for. -/
def Ast.BinaryOp.arith? : BinaryOp → Option ArithOp
  | .add => some .add
  | .sub => some .sub
  | .mul => some .mul
  | .div => some .div
  | .rem => some .mod
  | _ => none

section Values

variable {op : BinaryOp}

/-- A conjunction of the reference meaning allows the conjunctions of what its operands allow. -/
theorem kleene_and_values (a b : Value) :
    ∃ t, BinaryOp.and.kleene a b = .ok (.truth t) ∧
      ∀ z, t.Allows z ↔ ∃ x y, a.isTrue.Allows x ∧ b.isTrue.Allows y ∧ (x && y) = z := by
  have hand : BinaryOp.and.kleene a b = .ok (.truth (a.isTrue.and b.isTrue)) := by
    cases a <;> cases b <;> rfl
  exact ⟨_, hand, T3.and_allows a.isTrue b.isTrue⟩

theorem kleene_or_values (a b : Value) :
    ∃ t, BinaryOp.or.kleene a b = .ok (.truth t) ∧
      ∀ z, t.Allows z ↔ ∃ x y, a.isTrue.Allows x ∧ b.isTrue.Allows y ∧ (x || y) = z := by
  have hor : BinaryOp.or.kleene a b = .ok (.truth (a.isTrue.or b.isTrue)) := by
    cases a <;> cases b <;> rfl
  exact ⟨_, hor, T3.or_allows a.isTrue b.isTrue⟩

/-- A comparison of numbers is true if it holds of the integers, and false otherwise. -/
theorem kleene_cmp_values {cmp : CmpOp} (hop : op.cmp? = some cmp) (a b : Int64) :
    ∃ t, op.kleene (.int a) (.int b) = .ok (.truth t) ∧
      ∀ z, t.Allows z ↔ (z = true ↔ cmp.Holds a.toInt b.toInt) := by
  have hcmp : op.kleene (.int a) (.int b) = .ok (.truth (.ofBool (cmp.apply a b))) := by
    cases op <;> cases hop <;> rfl
  refine ⟨_, hcmp, fun z => ?_⟩
  rw [← CmpOp.apply_iff]
  cases cmp.apply a b <;> cases z <;> decide

/-- Arithmetic on numbers is exact, or fails. -/
theorem kleene_arith_values {arith : ArithOp} (hop : op.arith? = some arith) (a b : Int64)
    (v : Value) : op.kleene (.int a) (.int b) = .ok v ↔
      ∃ c, v = .int c ∧ ¬ (arith.divides ∧ b = 0) ∧ InRange (arith.bounded a.toInt b.toInt) ∧
        c.toInt = arith.exact a.toInt b.toInt := by
  have harith : op.kleene (.int a) (.int b) = (arith.apply a b).map .int := by
    have hslot : ∀ r : Except CorrelateError Int64,
        ((r >>= fun c => Except.ok (Slot.int c)) >>= Slot.value) = r.map .int := by
      intro r
      cases r <;> rfl
    cases op <;> cases hop <;> exact hslot _
  rw [harith]
  constructor
  · intro h
    rcases hresult : arith.apply a b with error | c
    · rw [hresult] at h
      cases h
    · rw [hresult] at h
      cases h
      exact ⟨c, rfl, (arith.apply_ok_iff a b c).mp hresult⟩
  · rintro ⟨c, rfl, hexact⟩
    rw [(arith.apply_ok_iff a b c).mpr hexact]
    rfl

/-- A value that a number is read from, known or not. -/
def Value.Numeric (v : Value) : Prop := v ≠ .truth .true ∧ v ≠ .truth .false

/-- An unknown operand makes comparisons and arithmetic unknown. -/
theorem kleene_unknown_values (hop : op.cmp? ≠ none ∨ op.arith? ≠ none) {a b : Value}
    (ha : a.Numeric) (hb : b.Numeric) (h : a = .truth .unknown ∨ b = .truth .unknown) :
    op.kleene a b = .ok (.truth .unknown) := by
  have hnumber : ∀ v : Value, v.Numeric → (∃ n, v.slot = .int n) ∨ v = .truth .unknown := by
    rintro (n | s | _ | _ | _) ⟨htrue, hfalse⟩
    · exact .inl ⟨n, rfl⟩
    · exact .inl ⟨_, rfl⟩
    · exact absurd rfl htrue
    · exact absurd rfl hfalse
    · exact .inr rfl
  have happly : op.apply a.slot b.slot = .ok (.truth .unknown) := by
    rcases hnumber a ha with ⟨n, ha⟩ | rfl <;> rcases hnumber b hb with ⟨m, hb⟩ | rfl
    · rcases h with rfl | rfl
      · cases ha
      · cases hb
    · rw [ha]
      cases op <;> first | rfl | exact hop.elim (absurd rfl) (absurd rfl)
    · rw [hb]
      cases op <;> first | rfl | exact hop.elim (absurd rfl) (absurd rfl)
    · cases op <;> first | rfl | exact hop.elim (absurd rfl) (absurd rfl)
  have hslots : op.kleene a b = op.apply a.slot b.slot >>= Slot.value := by
    rcases h with rfl | rfl
    · cases op <;> rfl
    · cases op <;> cases a <;> rfl
  rw [hslots, happly]
  rfl

end Values

end Adgl
