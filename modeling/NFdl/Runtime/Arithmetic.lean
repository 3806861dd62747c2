import NFdl.Runtime.Emit
import NFdl.Bytecode.Cursor

/-!
# Arithmetic that leaves its machine type

Subtraction saturates and division checks its divisor, but addition,
multiplication and shifts are plain machine operators in the interpreter and in
the evaluator. Both stay within 64 bits exactly where the natural numbers they
stand for do.
-/

namespace NFdl

open BytecodeVm Machine

/-- The operands for which the operator stays within its machine type: sums and
products below 2^64, and shifts by less than 64 after the cast to `u32`. -/
def BytecodeBinOp.InRange (op : BytecodeBinOp) (l r : Nat) : Prop :=
  match op with
  | .add => l + r < 2 ^ 64
  | .mul => l * r < 2 ^ 64
  | .shl | .shr => r % 2 ^ 32 < 64
  | _ => True

theorem shiftAmount_eq_none_iff {r : UInt64} : shiftAmount r = none ↔ ¬ r.toNat % 2 ^ 32 < 64 := by
  unfold shiftAmount
  simp only
  split <;> simp_all

/-- An operator has no result exactly when it leaves its machine type. -/
theorem BytecodeBinOp.apply_eq_none_iff {op : BytecodeBinOp} {l r : UInt64} :
    op.apply l r = none ↔ ¬ op.InRange l.toNat r.toNat := by
  cases op with
  | add =>
      simp only [apply, InRange, addWord]
      split <;> simp_all
  | mul =>
      simp only [apply, InRange, mulWord]
      split <;> simp_all
  | shl => simp only [apply, InRange, Option.map_eq_none_iff, shiftAmount_eq_none_iff]
  | shr => simp only [apply, InRange, Option.map_eq_none_iff, shiftAmount_eq_none_iff]
  | _ => simp [apply, InRange]

/-! ### The interpreter -/

/-- The interpreter executes a binary operator that has no result. -/
def Overflows (program : BytecodeProgram) (c : Config) : Prop :=
  ∃ op left right dst l r, Executes program c (.binOp op left right dst) ∧
    c.vm.slots[left]? = some l ∧ c.vm.slots[right]? = some r ∧ op.apply l r = none

/-! ### The evaluator -/

def BinOp.InRange (op : BinOp) (l r : Nat) : Prop := op.toBytecode.InRange l r

/-- The number a truth value stands for. -/
def boolNat (b : Bool) : Nat := if b then 1 else 0

/-- The operators on natural numbers. Sums and products are exact; a left shift
drops the bits beyond the word, and a difference stops at zero. -/
def BinOp.exact (op : BinOp) (l r : Nat) : Nat :=
  match op with
  | .add => l + r
  | .sub => l - r
  | .mul => l * r
  | .div => l / r
  | .mod => if r = 0 then 0 else l % r
  | .eq => boolNat (l == r)
  | .ne => boolNat (l != r)
  | .gt => boolNat (l > r)
  | .lt => boolNat (l < r)
  | .ge => boolNat (l ≥ r)
  | .le => boolNat (l ≤ r)
  | .and => boolNat (l != 0 && r != 0)
  | .or => boolNat (l != 0 || r != 0)
  | .bitAnd => l &&& r
  | .bitOr => l ||| r
  | .bitXor => l ^^^ r
  | .shl => (l <<< (r % 2 ^ 32)) % 2 ^ 64
  | .shr => l >>> (r % 2 ^ 32)

def UnaryOp.exact (op : UnaryOp) (v : Nat) : Nat :=
  match op with
  | .not => boolNat (v == 0)
  | .bitNot => 2 ^ 64 - 1 - v
  | .neg => (2 ^ 64 - v) % 2 ^ 64

/-- The value of an expression over the natural numbers. -/
def exactValue (vars : Env) : Expr → Nat
  | .int v => v.toUInt64.toNat
  | .ident name => (vars.value name).toNat
  | .binary op left right => op.exact (exactValue vars left) (exactValue vars right)
  | .unary op expr => op.exact (exactValue vars expr)
  | .ternary cond thenBranch elseBranch =>
      if exactValue vars cond ≠ 0 then exactValue vars thenBranch else exactValue vars elseBranch
  | .coalesce value default =>
      if exactValue vars value ≠ 0 then exactValue vars value else exactValue vars default
  | .call _ _ => 0
  | .tuple _ => 0
  | .field _ _ => 0
  | .str _ => 0

/-- Every binary operator of the part of the expression that is evaluated has
operands in range. -/
def FitsWord (vars : Env) : Expr → Prop
  | .binary op left right => FitsWord vars left ∧ FitsWord vars right ∧
      op.InRange (exactValue vars left) (exactValue vars right)
  | .unary _ expr => FitsWord vars expr
  | .ternary cond thenBranch elseBranch => FitsWord vars cond ∧
      (exactValue vars cond ≠ 0 → FitsWord vars thenBranch) ∧
      (exactValue vars cond = 0 → FitsWord vars elseBranch)
  | .coalesce value default => FitsWord vars value ∧
      (exactValue vars value = 0 → FitsWord vars default)
  | _ => True

theorem toNat_boolWord (b : Bool) : (boolWord b).toNat = boolNat b := by
  cases b <;> rfl

theorem toNat_eq_zero_iff {v : UInt64} : v.toNat = 0 ↔ v = 0 := by
  rw [← UInt64.toNat_inj]
  rfl

theorem toNat_shiftAmount {r : UInt64} (h : r.toNat % 2 ^ 32 < 64) :
    ∃ k, shiftAmount r = some k ∧ k.toNat % 64 = r.toNat % 2 ^ 32 := by
  refine ⟨UInt64.ofNat (r.toNat % 2 ^ 32), if_pos h, ?_⟩
  rw [UInt64.toNat_ofNat']
  omega

/-- In range, an operator computes the exact number. -/
theorem evalBinOp_inRange {op : BinOp} {l r : UInt64} (h : op.InRange l.toNat r.toNat) :
    ∃ v, evalBinOp op l r = some v ∧ v.toNat = op.exact l.toNat r.toNat := by
  cases op with
  | add =>
      have h : l.toNat + r.toNat < 2 ^ 64 := h
      refine ⟨l + r, if_pos h, ?_⟩
      rw [UInt64.toNat_add, Nat.mod_eq_of_lt h]
      rfl
  | mul =>
      have h : l.toNat * r.toNat < 2 ^ 64 := h
      refine ⟨l * r, if_pos h, ?_⟩
      rw [UInt64.toNat_mul, Nat.mod_eq_of_lt h]
      rfl
  | shl =>
      obtain ⟨k, hk, hmod⟩ := toNat_shiftAmount h
      refine ⟨l <<< k, by simp [evalBinOp, hk], ?_⟩
      rw [UInt64.toNat_shiftLeft, hmod]
      rfl
  | shr =>
      obtain ⟨k, hk, hmod⟩ := toNat_shiftAmount h
      refine ⟨l >>> k, by simp [evalBinOp, hk], ?_⟩
      rw [UInt64.toNat_shiftRight, hmod]
      rfl
  | sub =>
      refine ⟨_, rfl, ?_⟩
      unfold subWord
      split
      · rename_i hlt
        rw [UInt64.lt_iff_toNat_lt] at hlt
        exact (Nat.sub_eq_zero_of_le (Nat.le_of_lt hlt)).symm
      · rename_i hle
        rw [UInt64.lt_iff_toNat_lt, Nat.not_lt, ← UInt64.le_iff_toNat_le] at hle
        exact UInt64.toNat_sub_of_le _ _ hle
  | div =>
      refine ⟨_, rfl, ?_⟩
      split
      · rename_i hzero
        rw [hzero]
        exact (Nat.div_zero _).symm
      · exact UInt64.toNat_div ..
  | mod =>
      refine ⟨_, rfl, ?_⟩
      simp only [BinOp.exact, toNat_eq_zero_iff]
      split
      · rfl
      · exact UInt64.toNat_mod ..
  | bitAnd => exact ⟨_, rfl, UInt64.toNat_and ..⟩
  | bitOr => exact ⟨_, rfl, UInt64.toNat_or ..⟩
  | bitXor => exact ⟨_, rfl, UInt64.toNat_xor ..⟩
  | _ =>
      refine ⟨_, rfl, ?_⟩
      rw [toNat_boolWord]
      simp [BinOp.exact, beq_eq_decide, bne, UInt64.lt_iff_toNat_lt, UInt64.le_iff_toNat_le,
        ← UInt64.toNat_inj]

theorem toNat_evalUnaryOp (op : UnaryOp) (v : UInt64) :
    (evalUnaryOp op v).toNat = op.exact v.toNat := by
  cases op with
  | not =>
      unfold evalUnaryOp UnaryOp.exact
      rw [toNat_boolWord]
      simp [beq_eq_decide, ← UInt64.toNat_inj]
  | bitNot => exact UInt64.toNat_not v
  | neg =>
      unfold evalUnaryOp UnaryOp.exact
      rw [UInt64.toNat_sub]
      have := v.toNat_lt
      simp

theorem evalBinOp_eq_none_iff {op : BinOp} {l r : UInt64} :
    evalBinOp op l r = none ↔ ¬ op.InRange l.toNat r.toNat := by
  rw [← toBytecode_apply, BytecodeBinOp.apply_eq_none_iff]
  rfl

/-- The evaluator gives the exact value where every operator it applies is in
range, and overflows everywhere else. -/
theorem evalExpr_exact (vars : Env) (e : Expr) :
    (FitsWord vars e ∧ ∃ v, evalExpr vars e = some v ∧ v.toNat = exactValue vars e) ∨
      (¬ FitsWord vars e ∧ evalExpr vars e = none) := by
  induction e with
  | int v => exact .inl ⟨trivial, _, rfl, rfl⟩
  | ident name =>
      refine .inl ⟨trivial, vars.value name, ?_, rfl⟩
      unfold evalExpr
      split
      · rename_i hname
        rw [hname]
      · rfl
  | binary op left right ihl ihr =>
      obtain ⟨hl, l, hevall, hexactl⟩ | ⟨hl, hevall⟩ := ihl
      · obtain ⟨hr, r, hevalr, hexactr⟩ | ⟨hr, hevalr⟩ := ihr
        · have heval : evalExpr vars (.binary op left right) = evalBinOp op l r := by
            simp [evalExpr, hevall, hevalr]
          by_cases hrange : op.InRange l.toNat r.toNat
          · obtain ⟨v, hv, hexact⟩ := evalBinOp_inRange hrange
            rw [hexactl, hexactr] at hrange hexact
            exact .inl ⟨⟨hl, hr, hrange⟩, v, heval.trans hv, hexact⟩
          · refine .inr ⟨fun h => hrange ?_, heval.trans (evalBinOp_eq_none_iff.mpr hrange)⟩
            rw [hexactl, hexactr]
            exact h.2.2
        · exact .inr ⟨fun h => hr h.2.1, by simp [evalExpr, hevall, hevalr]⟩
      · exact .inr ⟨fun h => hl h.1, by simp [evalExpr, hevall]⟩
  | unary op expr ih =>
      obtain ⟨hv, v, heval, hexact⟩ | ⟨hv, heval⟩ := ih
      · refine .inl ⟨hv, evalUnaryOp op v, by simp [evalExpr, heval], ?_⟩
        rw [toNat_evalUnaryOp, hexact]
        rfl
      · exact .inr ⟨hv, by simp [evalExpr, heval]⟩
  | ternary cond thenBranch elseBranch ihc iht ihe =>
      obtain ⟨hc, c, hevalc, hexactc⟩ | ⟨hc, hevalc⟩ := ihc
      · by_cases hzero : c = 0
        · have hexact0 : exactValue vars cond = 0 := by rw [← hexactc, hzero]; rfl
          have heval : evalExpr vars (.ternary cond thenBranch elseBranch) =
              evalExpr vars elseBranch := by simp [evalExpr, hevalc, hzero]
          obtain ⟨he, v, hv, hexact⟩ | ⟨he, hv⟩ := ihe
          · refine .inl ⟨⟨hc, fun h => absurd hexact0 h, fun _ => he⟩, v, heval.trans hv, ?_⟩
            simpa [exactValue, hexact0] using hexact
          · exact .inr ⟨fun h => he (h.2.2 hexact0), heval.trans hv⟩
        · have hexact0 : exactValue vars cond ≠ 0 := by
            rw [← hexactc]
            exact fun h => hzero (toNat_eq_zero_iff.mp h)
          have heval : evalExpr vars (.ternary cond thenBranch elseBranch) =
              evalExpr vars thenBranch := by simp [evalExpr, hevalc, hzero]
          obtain ⟨ht, v, hv, hexact⟩ | ⟨ht, hv⟩ := iht
          · refine .inl ⟨⟨hc, fun _ => ht, fun h => absurd h hexact0⟩, v, heval.trans hv, ?_⟩
            simpa [exactValue, hexact0] using hexact
          · exact .inr ⟨fun h => ht (h.2.1 hexact0), heval.trans hv⟩
      · exact .inr ⟨fun h => hc h.1, by simp [evalExpr, hevalc]⟩
  | coalesce value default ihv ihd =>
      obtain ⟨hv, v, hevalv, hexactv⟩ | ⟨hv, hevalv⟩ := ihv
      · by_cases hzero : v = 0
        · have hexact0 : exactValue vars value = 0 := by rw [← hexactv, hzero]; rfl
          have heval : evalExpr vars (.coalesce value default) = evalExpr vars default := by
            simp [evalExpr, hevalv, hzero]
          obtain ⟨hd, d, hd', hexact⟩ | ⟨hd, hd'⟩ := ihd
          · refine .inl ⟨⟨hv, fun _ => hd⟩, d, heval.trans hd', ?_⟩
            simpa [exactValue, hexact0] using hexact
          · exact .inr ⟨fun h => hd (h.2 hexact0), heval.trans hd'⟩
        · have hexact0 : exactValue vars value ≠ 0 := by
            rw [← hexactv]
            exact fun h => hzero (toNat_eq_zero_iff.mp h)
          refine .inl ⟨⟨hv, fun h => absurd h hexact0⟩, v, by simp [evalExpr, hevalv, hzero], ?_⟩
          simpa [exactValue, hexact0] using hexactv
      · exact .inr ⟨fun h => hv h.1, by simp [evalExpr, hevalv]⟩
  | str s => exact .inl ⟨trivial, _, rfl, rfl⟩
  | call name args => exact .inl ⟨trivial, _, rfl, rfl⟩
  | tuple items => exact .inl ⟨trivial, _, rfl, rfl⟩
  | field base name => exact .inl ⟨trivial, _, rfl, rfl⟩

theorem evalExpr_ne_none_iff {vars : Env} {e : Expr} :
    evalExpr vars e ≠ none ↔ FitsWord vars e := by
  obtain ⟨h, v, hv, -⟩ | ⟨h, hnone⟩ := evalExpr_exact vars e
  · simp [h, hv]
  · simp [h, hnone]

/-- A message that shifts by a number from the wire. -/
def shiftByField : Protocol where
  name := "P"
  endian := "big"
  messages := [
    { name := "M"
      fields := [⟨"n", .u8, none, none, 0⟩]
      lets := [⟨"x", .binary .shl (.int 1) (.ident "n"), 1⟩]
      validates := [], matches_ := [], loops := [] }]
  binds := []

/-- What the message is compiled to. -/
def shiftProgram : BytecodeProgram where
  instructions := [.loadConst 0 0, .readU8 1, .updateOffset 0, .emitField "n" 1, .loadConst 1 2,
    .binOp .shl 2 1 3, .copySlot 3 4, .ret]
  slotCount := 48

/-- The byte 64 makes both the compiled `let` and the same expression in a guard
shift a word by its width. -/
theorem shiftByField_overflows :
    (∃ program fieldMap c, protocolToBytecodeWithMap shiftByField = some (program, fieldMap) ∧
      Reachable (vmMove program false) (datagramStart program .default [64]) c ∧
      Overflows program c) ∧
    evalExpr (fun name => if name = "n" then some 64 else none)
      (.binary .shl (.int 1) (.ident "n")) = none := by
  refine ⟨⟨shiftProgram, _, _, rfl,
    ⟨5, .go rfl (.go rfl (.go rfl (.go rfl (.go rfl (.stay _)))))⟩, ?_⟩, by decide⟩
  exact ⟨.shl, 2, 1, 3, 1, 64, ⟨rfl, by decide⟩, rfl, rfl, rfl⟩

end NFdl
