import Mathlib.Data.List.Basic
import Mathlib.Tactic.Tauto
import Mathlib.Algebra.Group.Nat.Defs

/-!
# Numbers as big-endian bytes

Fixed-width big-endian encodings keep the order of the numbers they encode, and
so do concatenations of such encodings with respect to the lexicographic order
of the lists of numbers.
-/

/-- The `n` bytes of a number below 256^n, the most significant one first. -/
def beBytes : Nat → Nat → List UInt8
  | 0, _ => []
  | n + 1, v => UInt8.ofNat (v / 256 ^ n) :: beBytes n (v % 256 ^ n)

namespace BeBytes

variable {n v w : Nat} {as bs : List Nat}

@[simp] theorem length_beBytes (n v : Nat) : (beBytes n v).length = n := by
  induction n generalizing v with
  | zero => rfl
  | succ n ih => simp [beBytes, ih]

theorem div_lt (h : v < 256 ^ (n + 1)) : v / 256 ^ n < 256 :=
  Nat.div_lt_of_lt_mul (by rwa [← Nat.pow_succ])

theorem toNat_first (h : v < 256 ^ (n + 1)) : (UInt8.ofNat (v / 256 ^ n)).toNat = v / 256 ^ n := by
  rw [UInt8.toNat_ofNat']
  exact Nat.mod_eq_of_lt (div_lt h)

theorem first_eq_iff (hv : v < 256 ^ (n + 1)) (hw : w < 256 ^ (n + 1)) :
    UInt8.ofNat (v / 256 ^ n) = UInt8.ofNat (w / 256 ^ n) ↔ v / 256 ^ n = w / 256 ^ n := by
  rw [← UInt8.toNat_inj, toNat_first hv, toNat_first hw]

theorem first_lt_iff (hv : v < 256 ^ (n + 1)) (hw : w < 256 ^ (n + 1)) :
    UInt8.ofNat (v / 256 ^ n) < UInt8.ofNat (w / 256 ^ n) ↔ v / 256 ^ n < w / 256 ^ n := by
  rw [UInt8.lt_iff_toNat_lt, toNat_first hv, toNat_first hw]

theorem mod_lt (n v : Nat) : v % 256 ^ n < 256 ^ n := Nat.mod_lt _ (Nat.pow_pos (by decide))

/-- Numbers compare by quotient, then by remainder. -/
theorem lt_iff_div_mod {b : Nat} (hb : 0 < b) :
    v < w ↔ v / b < w / b ∨ v / b = w / b ∧ v % b < w % b := by
  constructor
  · intro h
    obtain hlt | heq := Nat.lt_or_eq_of_le (Nat.div_le_div_right (c := b) (Nat.le_of_lt h))
    · exact .inl hlt
    · refine .inr ⟨heq, ?_⟩
      have hv := Nat.div_add_mod v b
      have hw := Nat.div_add_mod w b
      rw [heq] at hv
      omega
  · rintro (hlt | ⟨heq, hlt⟩)
    · exact Nat.lt_of_lt_of_le ((Nat.div_lt_iff_lt_mul hb).mp hlt) (Nat.div_mul_le_self w b)
    · have hv := Nat.div_add_mod v b
      have hw := Nat.div_add_mod w b
      rw [heq] at hv
      omega

theorem beBytes_inj (hv : v < 256 ^ n) (hw : w < 256 ^ n) :
    beBytes n v = beBytes n w ↔ v = w := by
  induction n generalizing v w with
  | zero =>
      rw [Nat.pow_zero] at hv hw
      exact iff_of_true rfl (by omega)
  | succ n ih =>
      rw [beBytes, beBytes, List.cons.injEq, first_eq_iff hv hw, ih (mod_lt n v) (mod_lt n w)]
      constructor
      · rintro ⟨hdiv, hmod⟩
        rw [← Nat.div_add_mod v (256 ^ n), ← Nat.div_add_mod w (256 ^ n), hdiv, hmod]
      · rintro rfl
        exact ⟨rfl, rfl⟩

/-- The encoding keeps the order. -/
theorem beBytes_lt_iff (hv : v < 256 ^ n) (hw : w < 256 ^ n) :
    beBytes n v < beBytes n w ↔ v < w := by
  induction n generalizing v w with
  | zero =>
      rw [Nat.pow_zero] at hv hw
      simp only [beBytes, List.lt_irrefl, false_iff]
      omega
  | succ n ih =>
      rw [beBytes, beBytes, List.cons_lt_cons_iff, first_eq_iff hv hw, first_lt_iff hv hw,
        ih (mod_lt n v) (mod_lt n w), ← lt_iff_div_mod (Nat.pow_pos (by decide))]

/-- Lists with heads of the same length compare by head, then by tail. -/
theorem append_lt_append_iff {α : Type*} [LT α] {xs ys xs' ys' : List α}
    (h : xs.length = ys.length) :
    xs ++ xs' < ys ++ ys' ↔ xs < ys ∨ xs = ys ∧ xs' < ys' := by
  induction xs generalizing ys with
  | nil =>
      obtain rfl := List.eq_nil_of_length_eq_zero h.symm
      simp
  | cons x xs ih =>
      cases ys with
      | nil => simp at h
      | cons y ys =>
          rw [List.cons_append, List.cons_append, List.cons_lt_cons_iff, List.cons_lt_cons_iff,
            ih (Nat.succ.inj h), List.cons.injEq]
          tauto

/-! ### Concatenations -/

/-- The concatenated encodings of a list of numbers. -/
def blocks (n : Nat) (vals : List Nat) : List UInt8 := vals.flatMap (beBytes n)

@[simp] theorem blocks_nil : blocks n [] = [] := rfl

@[simp] theorem blocks_cons : blocks n (v :: as) = beBytes n v ++ blocks n as := rfl

theorem blocks_append : blocks n (as ++ bs) = blocks n as ++ blocks n bs := List.flatMap_append

@[simp] theorem length_blocks : (blocks n as).length = n * as.length := by
  induction as with
  | nil => rfl
  | cons v as ih =>
      rw [blocks_cons, List.length_append, length_beBytes, ih, List.length_cons,
        Nat.mul_succ, Nat.add_comm]

theorem blocks_inj (hlen : as.length = bs.length) (ha : ∀ v ∈ as, v < 256 ^ n)
    (hb : ∀ v ∈ bs, v < 256 ^ n) : blocks n as = blocks n bs ↔ as = bs := by
  induction as generalizing bs with
  | nil =>
      obtain rfl := List.eq_nil_of_length_eq_zero hlen.symm
      simp
  | cons v as ih =>
      cases bs with
      | nil => simp at hlen
      | cons w bs =>
          rw [List.forall_mem_cons] at ha hb
          rw [blocks_cons, blocks_cons, List.append_eq_append_iff_of_size_eq_left (by simp),
            beBytes_inj ha.1 hb.1, ih (Nat.succ.inj hlen) ha.2 hb.2, List.cons.injEq]

/-- Concatenations keep the lexicographic order. -/
theorem blocks_lt_iff (hlen : as.length = bs.length) (ha : ∀ v ∈ as, v < 256 ^ n)
    (hb : ∀ v ∈ bs, v < 256 ^ n) : blocks n as < blocks n bs ↔ as < bs := by
  induction as generalizing bs with
  | nil =>
      obtain rfl := List.eq_nil_of_length_eq_zero hlen.symm
      simp
  | cons v as ih =>
      cases bs with
      | nil => simp at hlen
      | cons w bs =>
          rw [List.forall_mem_cons] at ha hb
          rw [blocks_cons, blocks_cons, append_lt_append_iff (by simp), beBytes_lt_iff ha.1 hb.1,
            beBytes_inj ha.1 hb.1, ih (Nat.succ.inj hlen) ha.2 hb.2, List.cons_lt_cons_iff]

/-- Whole encodings at the front are the encodings of the first numbers. -/
theorem take_blocks (k : Nat) : (blocks n as).take (n * k) = blocks n (as.take k) := by
  induction as generalizing k with
  | nil => simp
  | cons v as ih =>
      cases k with
      | zero => simp
      | succ k =>
          rw [List.take_succ_cons, blocks_cons, blocks_cons, ← ih k, Nat.mul_succ, Nat.add_comm,
            List.take_append, length_beBytes, Nat.add_sub_cancel_left,
            List.take_of_length_le (by simp)]

end BeBytes
