import Mathlib.Data.List.Basic

/-!
# Blocks inside a program

`BlockAt code pc block` says that the instructions `block` stand in `code` from
address `pc` on. Generated code is assembled from blocks, so the facts about it
split along appends.
-/

/-- The instructions `block` occupy the addresses of `code` from `pc` on. -/
def BlockAt {ι : Type*} (code : List ι) (pc : Nat) (block : List ι) : Prop :=
  block <+: code.drop pc

namespace BlockAt

variable {ι : Type*} {code a b : List ι} {pc : Nat} {i : ι}

theorem append_iff : BlockAt code pc (a ++ b) ↔ BlockAt code pc a ∧ BlockAt code (pc + a.length) b := by
  unfold BlockAt
  rw [← List.drop_drop]
  constructor
  · rintro ⟨rest, hrest⟩
    rw [← hrest, List.append_assoc]
    exact ⟨List.prefix_append .., by simp⟩
  · rintro ⟨⟨rest, hrest⟩, hb⟩
    rw [← hrest] at hb ⊢
    rw [List.drop_left] at hb
    exact List.prefix_append_right_inj a |>.mpr hb

theorem left (h : BlockAt code pc (a ++ b)) : BlockAt code pc a := (append_iff.mp h).1

theorem right (h : BlockAt code pc (a ++ b)) : BlockAt code (pc + a.length) b :=
  (append_iff.mp h).2

/-- The second part of a block, at an address given by an equation. -/
theorem right_at {pc' : Nat} (h : BlockAt code pc (a ++ b)) (hpc : pc' = pc + a.length) :
    BlockAt code pc' b := hpc ▸ h.right

/-- A block of one instruction is that instruction at that address. -/
theorem singleton_iff : BlockAt code pc [i] ↔ code[pc]? = some i := by
  unfold BlockAt
  rw [← List.head?_drop]
  cases code.drop pc with
  | nil => simp
  | cons j rest => simp [List.cons_prefix_cons, eq_comm]

theorem cons_iff : BlockAt code pc (i :: b) ↔ code[pc]? = some i ∧ BlockAt code (pc + 1) b := by
  rw [← singleton_iff, ← List.singleton_append, append_iff]
  rfl

theorem head (h : BlockAt code pc (i :: b)) : code[pc]? = some i := (cons_iff.mp h).1

/-- Code that was appended stands where the code before it ended. -/
theorem of_appended {before block : List ι} (h : before ++ block <+: code) :
    BlockAt code before.length block := by
  obtain ⟨rest, rfl⟩ := h
  unfold BlockAt
  rw [List.append_assoc, List.drop_left]
  exact List.prefix_append ..

end BlockAt

/-- Modifying the element that follows `a`. -/
theorem modify_append_cons {ι : Type*} (a b : List ι) (x : ι) (f : ι → ι) :
    (a ++ x :: b).modify a.length f = a ++ f x :: b := by
  induction a with
  | nil => rfl
  | cons y a ih => simpa using ih

/-- Every instruction of a block at `base` satisfies `P` at its address. -/
def AtEach {ι : Type*} (P : Nat → ι → Prop) (base : Nat) (block : List ι) : Prop :=
  ∀ k i, block[k]? = some i → P (base + k) i

namespace AtEach

variable {ι : Type*} {P Q : Nat → ι → Prop} {base : Nat} {a b : List ι} {i : ι}

theorem mono (h : AtEach P base a) (hPQ : ∀ pc i, base ≤ pc → P pc i → Q pc i) : AtEach Q base a :=
  fun k i hk => hPQ _ i (Nat.le_add_right base k) (h k i hk)

theorem nil : AtEach P base [] := fun k i h => by simp at h

theorem append (ha : AtEach P base a) (hb : AtEach P (base + a.length) b) :
    AtEach P base (a ++ b) := by
  intro k i hk
  by_cases hlt : k < a.length
  · rw [List.getElem?_append_left hlt] at hk
    exact ha k i hk
  · rw [List.getElem?_append_right (Nat.le_of_not_lt hlt)] at hk
    have hj := hb (k - a.length) i hk
    rwa [Nat.add_assoc, Nat.add_sub_cancel' (Nat.le_of_not_lt hlt)] at hj

theorem singleton (h : P base i) : AtEach P base [i] := by
  intro k i' hk
  cases k with
  | zero =>
      simp only [List.getElem?_cons_zero, Option.some.injEq] at hk
      exact hk ▸ h
  | succ k => simp at hk

theorem cons (h : P base i) (hb : AtEach P (base + 1) b) : AtEach P base (i :: b) := by
  have happend := (singleton h).append hb
  exact happend

/-- What stands in the program at an address of the block. -/
theorem at_block {code : List ι} {pc : Nat} (h : AtEach P base a) (hblock : BlockAt code base a)
    (hlo : base ≤ pc) (hhi : pc < base + a.length) (hi : code[pc]? = some i) : P pc i := by
  obtain ⟨rest, hrest⟩ := hblock
  have hdrop : (code.drop base)[pc - base]? = some i := by
    rw [List.getElem?_drop, Nat.add_sub_cancel' hlo, hi]
  rw [← hrest, List.getElem?_append_left (by omega)] at hdrop
  have hP := h _ _ hdrop
  rwa [Nat.add_sub_cancel' hlo] at hP

end AtEach
