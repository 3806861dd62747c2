import Mathlib.Data.List.Basic
import Mathlib.Order.Bounds.Basic
import Mathlib.Order.MinMax
import Mathlib.Order.Nat

/-!
# Edit distance

The least number of insertions, deletions and substitutions that turn one list into
another. The distances of a list to all prefixes of another one are a row, and the row of a
list with one more item comes from the row of the list.
-/

namespace EditDistance

/-! ### Edits -/

/-- One list turned into another by a number of edits. -/
inductive Edits {α : Type} : List α → List α → ℕ → Prop where
  | nil : Edits [] [] 0
  | keep (a : α) {as bs n} (h : Edits as bs n) : Edits (a :: as) (a :: bs) n
  | substitute (a b : α) {as bs n} (h : Edits as bs n) : Edits (a :: as) (b :: bs) (n + 1)
  | delete (a : α) {as bs n} (h : Edits as bs n) : Edits (a :: as) bs (n + 1)
  | insert (b : α) {as bs n} (h : Edits as bs n) : Edits as (b :: bs) (n + 1)

variable {α : Type} {as as' bs bs' done : List α} {a b : α} {n m p q l : ℕ} {row : List ℕ}

theorem Edits.append (h : Edits as bs n) (h' : Edits as' bs' m) :
    Edits (as ++ as') (bs ++ bs') (n + m) := by
  induction h with
  | nil => exact (Nat.zero_add m).symm ▸ h'
  | keep a _ ih => exact .keep a ih
  | substitute a b _ ih => exact Nat.succ_add .. ▸ ih.substitute a b
  | delete a _ ih => exact Nat.succ_add .. ▸ ih.delete a
  | insert b _ ih => exact Nat.succ_add .. ▸ ih.insert b

theorem Edits.reverse (h : Edits as bs n) : Edits as.reverse bs.reverse n := by
  induction h with
  | nil => exact .nil
  | keep a _ ih =>
      rw [List.reverse_cons, List.reverse_cons]
      exact ih.append (.keep a .nil)
  | substitute a b _ ih =>
      rw [List.reverse_cons, List.reverse_cons]
      exact ih.append (.substitute a b .nil)
  | delete a _ ih =>
      have h := ih.append (.delete a .nil)
      rw [List.append_nil] at h
      rwa [List.reverse_cons]
  | insert b _ ih =>
      have h := ih.append (.insert b .nil)
      rw [List.append_nil] at h
      rwa [List.reverse_cons]

/-! ### Distances -/

def IsDistance (as bs : List α) (n : ℕ) : Prop := IsLeast {n | Edits as bs n} n

theorem IsDistance.unique (h : IsDistance as bs n) (h' : IsDistance as bs m) : n = m :=
  IsLeast.unique h h'

theorem IsDistance.reverse (h : IsDistance as bs n) : IsDistance as.reverse bs.reverse n := by
  refine ⟨h.1.reverse, fun m hm => h.2 ?_⟩
  have hback := Edits.reverse hm
  rwa [List.reverse_reverse, List.reverse_reverse] at hback

theorem isDistance_self (as : List α) : IsDistance as as 0 := by
  refine ⟨?_, fun _ _ => Nat.zero_le _⟩
  induction as with
  | nil => exact .nil
  | cons a as ih => exact .keep a ih

theorem isDistance_nil_left (bs : List α) : IsDistance [] bs bs.length := by
  refine ⟨?_, fun m hm => ?_⟩
  · induction bs with
    | nil => exact .nil
    | cons b bs ih => exact .insert b ih
  · have hlength : ∀ {as bs : List α} {n : ℕ}, Edits as bs n → bs.length ≤ as.length + n := by
      intro as bs n h
      induction h <;> simp only [List.length_cons, List.length_nil] <;> omega
    exact (hlength hm).trans (Nat.zero_add m).le

theorem isDistance_nil_right (as : List α) : IsDistance as [] as.length := by
  refine ⟨?_, fun m hm => ?_⟩
  · induction as with
    | nil => exact .nil
    | cons a as ih => exact .delete a ih
  · have hlength : ∀ {as bs : List α} {n : ℕ}, Edits as bs n → as.length ≤ bs.length + n := by
      intro as bs n h
      induction h <;> simp only [List.length_cons, List.length_nil] <;> omega
    exact (hlength hm).trans (Nat.zero_add m).le

/-- The distance of two lists from the distances with the first items left out. -/
theorem IsDistance.cons [DecidableEq α] (hp : IsDistance as bs p) (hq : IsDistance as (b :: bs) q)
    (hl : IsDistance (a :: as) bs l) : IsDistance (a :: as) (b :: bs)
      (min (min (q + 1) (l + 1)) (p + if a = b then 0 else 1)) := by
  constructor
  · obtain h | h := min_choice (min (q + 1) (l + 1)) (p + if a = b then 0 else 1)
    · rw [h]
      obtain h | h := min_choice (q + 1) (l + 1)
      · rw [h]
        exact hq.1.delete a
      · rw [h]
        exact hl.1.insert b
    · rw [h]
      split
      · rename_i hab
        subst hab
        exact hp.1.keep a
      · exact hp.1.substitute a b
  · intro m hm
    cases hm with
    | keep a h =>
        rw [if_pos rfl]
        exact (min_le_right ..).trans (hp.2 h)
    | substitute a b h =>
        refine (min_le_right ..).trans (Nat.add_le_add (hp.2 h) ?_)
        split <;> decide
    | delete a h =>
        exact (min_le_left ..).trans ((min_le_left ..).trans (Nat.succ_le_succ (hq.2 h)))
    | insert b h =>
        exact (min_le_left ..).trans ((min_le_right ..).trans (Nat.succ_le_succ (hl.2 h)))

/-- The distance of two lists from the distances with the last items left out. -/
theorem IsDistance.concat [DecidableEq α] (hp : IsDistance as bs p)
    (hq : IsDistance as (bs ++ [b]) q) (hl : IsDistance (as ++ [a]) bs l) :
    IsDistance (as ++ [a]) (bs ++ [b])
      (min (min (q + 1) (l + 1)) (p + if a = b then 0 else 1)) := by
  have hq' := hq.reverse
  have hl' := hl.reverse
  rw [List.reverse_append] at hq' hl'
  have h := (hp.reverse.cons hq' hl').reverse
  rwa [List.reverse_cons, List.reverse_cons, List.reverse_reverse, List.reverse_reverse] at h

/-! ### Rows -/

/-- The distances of a list to another one, and to that one with more and more items. -/
def IsRow (as done : List α) : List α → List ℕ → Prop
  | [], row => ∃ n, row = [n] ∧ IsDistance as done n
  | b :: bs, row => ∃ n more, row = n :: more ∧ IsDistance as done n ∧ IsRow as (done ++ [b]) bs more

/-- The row of the empty list. -/
theorem isRow_nil (done bs : List α) :
    IsRow [] done bs (List.range' done.length (bs.length + 1)) := by
  induction bs generalizing done with
  | nil => exact ⟨done.length, rfl, isDistance_nil_left done⟩
  | cons b bs ih =>
      have hmore := ih (done ++ [b])
      rw [List.length_append] at hmore
      exact ⟨done.length, _, rfl, isDistance_nil_left done, hmore⟩

/-- The last distance of a row is the distance to the whole list. -/
theorem IsRow.last (h : IsRow as done bs row) :
    ∃ n, row.getLast? = some n ∧ IsDistance as (done ++ bs) n := by
  induction bs generalizing done row with
  | nil =>
      obtain ⟨n, rfl, hn⟩ := h
      exact ⟨n, rfl, (List.append_nil done).symm ▸ hn⟩
  | cons b bs ih =>
      obtain ⟨n, more, rfl, -, hmore⟩ := h
      obtain ⟨last, hlast, hdistance⟩ := ih hmore
      refine ⟨last, ?_, List.append_cons done b bs ▸ hdistance⟩
      rw [List.getLast?_cons, hlast]
      rfl

end EditDistance
