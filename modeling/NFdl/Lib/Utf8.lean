import Mathlib.Data.List.Basic
import Mathlib.Algebra.Group.Nat.Defs

/-!
# Lossy decoding of UTF-8

Bytes are read character by character. A byte that begins no character, and the longest part
of a character that is not complete, stand for one replacement character. Bytes below 128 are
the characters of these codes.
-/

namespace Utf8

/-- How many bytes follow a leading byte, and the bounds of the first of them. -/
def following (b : UInt8) : Option (ℕ × UInt8 × UInt8) :=
  if 0xC2 ≤ b ∧ b ≤ 0xDF then some (1, 0x80, 0xBF)
  else if b = 0xE0 then some (2, 0xA0, 0xBF)
  else if b = 0xED then some (2, 0x80, 0x9F)
  else if 0xE1 ≤ b ∧ b ≤ 0xEF then some (2, 0x80, 0xBF)
  else if b = 0xF0 then some (3, 0x90, 0xBF)
  else if 0xF1 ≤ b ∧ b ≤ 0xF3 then some (3, 0x80, 0xBF)
  else if b = 0xF4 then some (3, 0x80, 0x8F)
  else none

/-- The bytes that continue a character, at most a number of them. -/
def continuation : ℕ → UInt8 → UInt8 → List UInt8 → List UInt8
  | 0, _, _, _ => []
  | _ + 1, _, _, [] => []
  | n + 1, lo, hi, b :: bytes =>
      if lo ≤ b ∧ b ≤ hi then b :: continuation n 0x80 0xBF bytes else []

/-- The character that stands for bytes that are no character. -/
def replacement : Char := Char.ofNat 0xFFFD

/-- The character at the head of bytes, and how many bytes follow its first one. -/
def decodeHead (b : UInt8) (bytes : List UInt8) : Char × ℕ :=
  if b < 0x80 then (Char.ofNat b.toNat, 0)
  else
    match following b with
    | none => (replacement, 0)
    | some (n, lo, hi) =>
        let more := continuation n lo hi bytes
        if more.length = n then
          (Char.ofNat (more.foldl (fun v c => v * 64 + c.toNat % 64) (b.toNat % 2 ^ (6 - n))), n)
        else (replacement, more.length)

/-- Decode bytes, of which the first ones belong to a character that was decoded. -/
def decodeFrom : ℕ → List UInt8 → List Char
  | _, [] => []
  | skip + 1, _ :: bytes => decodeFrom skip bytes
  | 0, b :: bytes => (decodeHead b bytes).1 :: decodeFrom (decodeHead b bytes).2 bytes

/-- The text of bytes, with a replacement for what is not UTF-8. -/
def fromUtf8Lossy (bytes : List UInt8) : String := String.ofList (decodeFrom 0 bytes)

/-- The text of bytes below 128. -/
def asciiText (bytes : List UInt8) : String :=
  String.ofList (bytes.map fun b => Char.ofNat b.toNat)

theorem decodeFrom_ascii {bytes : List UInt8} (h : ∀ b ∈ bytes, b < 0x80) :
    decodeFrom 0 bytes = bytes.map fun b => Char.ofNat b.toNat := by
  induction bytes with
  | nil => rfl
  | cons b bytes ih =>
      have hhead : decodeHead b bytes = (Char.ofNat b.toNat, 0) := by
        unfold decodeHead
        rw [if_pos (h b (List.mem_cons_self ..))]
      rw [decodeFrom, hhead, List.map_cons, ih fun b hb => h b (List.mem_cons_of_mem _ hb)]

theorem fromUtf8Lossy_ascii {bytes : List UInt8} (h : ∀ b ∈ bytes, b < 0x80) :
    fromUtf8Lossy bytes = asciiText bytes := by
  rw [fromUtf8Lossy, decodeFrom_ascii h, asciiText]

example : decodeFrom 0 [0x61, 0xC3, 0xA9, 0xE2, 0x82, 0x62, 0xFF] =
    ['a', 'é', replacement, 'b', replacement] := by decide

end Utf8
