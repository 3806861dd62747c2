import Mathlib.Data.Nat.Bitwise
import Mathlib.Data.List.Basic

/-!
# Slices of bits

The bits of a byte sequence, the most significant bit of each byte first, and the numbers
that slices of them stand for. A slice inside one byte is the byte shifted and reduced, and
the number of a slice is put together from the numbers of its parts.
-/

namespace BitSlices

/-- The lowest `n` bits of a number, the most significant one first. -/
def bitsBe : ℕ → ℕ → List Bool
  | 0, _ => []
  | n + 1, v => v.testBit n :: bitsBe n v

/-- The number that bits stand for, the most significant one first. -/
def valueBe : List Bool → ℕ
  | [] => 0
  | b :: bs => b.toNat * 2 ^ bs.length + valueBe bs

/-- The bits of bytes. -/
def bitsOf (bytes : List UInt8) : List Bool := bytes.flatMap fun byte => bitsBe 8 byte.toNat

/-- The bits between two positions. -/
def slice (bytes : List UInt8) (pos width : ℕ) : List Bool := ((bitsOf bytes).drop pos).take width

/-- The consecutive slices of given widths. -/
def slices (bytes : List UInt8) : ℕ → List ℕ → List (List Bool)
  | _, [] => []
  | pos, width :: widths => slice bytes pos width :: slices bytes (pos + width) widths

variable {n t o v w : ℕ} {as bs : List Bool} {bytes : List UInt8} {pos width : ℕ}

@[simp] theorem length_bitsBe : (bitsBe n v).length = n := by
  induction n with
  | zero => rfl
  | succ n ih => rw [bitsBe, List.length_cons, ih]

theorem valueBe_append : valueBe (as ++ bs) = valueBe as * 2 ^ bs.length + valueBe bs := by
  induction as with
  | nil => simp [valueBe]
  | cons a as ih =>
      rw [List.cons_append, valueBe, valueBe, ih, List.length_append, pow_add, add_mul, mul_assoc,
        add_assoc]

theorem valueBe_lt : valueBe bs < 2 ^ bs.length := by
  induction bs with
  | nil => exact Nat.one_pos
  | cons b bs ih =>
      rw [valueBe, List.length_cons, pow_succ]
      cases b <;> simp <;> omega

/-- The bits of a number stand for the number, reduced to their width. -/
theorem valueBe_bitsBe : valueBe (bitsBe n v) = v % 2 ^ n := by
  induction n with
  | zero => rw [pow_zero, Nat.mod_one]; rfl
  | succ n ih =>
      rw [bitsBe, valueBe, ih, length_bitsBe, pow_succ, Nat.mod_mul, ← Nat.toNat_testBit,
        Nat.mul_comm, Nat.add_comm]

theorem take_bitsBe : (bitsBe (t + n) v).take t = bitsBe t (v >>> n) := by
  induction t with
  | zero => rfl
  | succ t ih =>
      rw [show t + 1 + n = t + n + 1 by omega, bitsBe, bitsBe, List.take_succ_cons, ih,
        Nat.testBit_shiftRight, Nat.add_comm n t]

theorem drop_bitsBe : (bitsBe (o + n) v).drop o = bitsBe n v := by
  induction o with
  | zero => rw [Nat.zero_add]; rfl
  | succ o ih => rw [show o + 1 + n = o + n + 1 by omega, bitsBe, List.drop_succ_cons, ih]

/-! ### Bytes -/

@[simp] theorem length_bitsOf : (bitsOf bytes).length = 8 * bytes.length := by
  induction bytes with
  | nil => rfl
  | cons byte bytes ih =>
      rw [bitsOf, List.flatMap_cons, List.length_append, length_bitsBe]
      rw [bitsOf] at ih
      rw [ih, List.length_cons]
      omega

theorem length_slice (h : pos + width ≤ 8 * bytes.length) :
    (slice bytes pos width).length = width := by
  rw [slice, List.length_take, List.length_drop, length_bitsOf]
  omega

theorem valueBe_slice_lt : valueBe (slice bytes pos width) < 2 ^ width := by
  calc valueBe (slice bytes pos width) < 2 ^ (slice bytes pos width).length := valueBe_lt
    _ ≤ 2 ^ width := Nat.pow_le_pow_right (by decide) (List.length_take_le ..)

/-- Slices of bounded widths stand for bounded numbers. -/
theorem valueBe_slices_lt {widths : List ℕ} {bound : ℕ} (h : ∀ width ∈ widths, width ≤ bound) :
    ∀ bits ∈ slices bytes pos widths, valueBe bits < 2 ^ bound := by
  induction widths generalizing pos with
  | nil => exact fun _ hbits => absurd hbits List.not_mem_nil
  | cons width widths ih =>
      intro bits hbits
      obtain rfl | hbits := List.mem_cons.mp hbits
      · exact valueBe_slice_lt.trans_le
          (Nat.pow_le_pow_right (by decide) (h width (List.mem_cons_self ..)))
      · exact ih (fun w hw => h w (List.mem_cons_of_mem _ hw)) bits hbits

/-- A slice consists of its parts. -/
theorem slice_add :
    slice bytes pos (t + width) = slice bytes pos t ++ slice bytes (pos + t) width := by
  rw [slice, slice, slice, List.take_add, List.drop_drop]

/-- A slice inside one byte. -/
theorem slice_byte {i : ℕ} {byte : UInt8} (hbyte : bytes[i]? = some byte) (h : o + t ≤ 8) :
    slice bytes (8 * i + o) t = bitsBe t (byte.toNat >>> (8 - o - t)) := by
  induction bytes generalizing i with
  | nil => cases hbyte
  | cons first bytes ih =>
      have hcons : bitsOf (first :: bytes) = bitsBe 8 first.toNat ++ bitsOf bytes := rfl
      cases i with
      | zero =>
          cases hbyte
          obtain ⟨rest, hrest⟩ : ∃ rest, 8 = o + (t + rest) := ⟨8 - o - t, by omega⟩
          rw [slice, hcons, Nat.mul_zero, Nat.zero_add,
            List.drop_append_of_le_length (by rw [length_bitsBe]; omega),
            List.take_append_of_le_length (by rw [List.length_drop, length_bitsBe]; omega)]
          conv_lhs => rw [hrest]
          rw [drop_bitsBe, take_bitsBe, show 8 - o - t = rest by omega]
      | succ i =>
          rw [← ih hbyte, slice, slice, hcons, show 8 * (i + 1) + o = 8 + (8 * i + o) by omega,
            ← List.drop_drop, List.drop_left' length_bitsBe]

/-- The number of a slice inside one byte. -/
theorem valueBe_slice_byte {i : ℕ} {byte : UInt8} (hbyte : bytes[i]? = some byte) (h : o + t ≤ 8) :
    valueBe (slice bytes (8 * i + o) t) = (byte.toNat >>> (8 - o - t)) % 2 ^ t := by
  rw [slice_byte hbyte h, valueBe_bitsBe]

end BitSlices
