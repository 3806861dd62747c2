import Mathlib.Data.List.Sort

/-!
# Heaps

A heap keeps a least element in front and all others in an order of its own. How it
arranges them when elements come and go is a parameter, and with it the choice among
several least elements: what is said here holds of every arrangement.
-/

/-- The elements of a heap, a least one in front. -/
structure Heap {α : Type*} (le : α → α → Prop) where
  entries : List α
  least : ∀ top ∈ entries.head?, ∀ a ∈ entries, le top a

namespace Heap

variable {α : Type*} {le : α → α → Prop}

/-- A way to arrange elements with a least one in front. -/
structure Arrangement (le : α → α → Prop) where
  arrange : List α → List α
  perm : ∀ l, (arrange l).Perm l
  least : ∀ l, ∀ top ∈ (arrange l).head?, ∀ a ∈ l, le top a

/-- How the elements are arranged after each operation. -/
structure Layout (le : α → α → Prop) where
  pushed : Arrangement le
  popped : Arrangement le
  collected : Arrangement le

/-- Sorting is an arrangement. -/
def Arrangement.sorted [DecidableRel le] [IsTrans α le] [Std.Total le] : Arrangement le where
  arrange l := l.insertionSort le
  perm l := List.perm_insertionSort le l
  least l top htop a ha := by
    have hsorted := List.pairwise_insertionSort le l
    have hmem : a ∈ l.insertionSort le := (List.mem_insertionSort le).mpr ha
    cases hl : l.insertionSort le with
    | nil =>
        rw [hl] at htop
        cases htop
    | cons first rest =>
        rw [hl] at htop hsorted hmem
        obtain rfl : first = top := by simpa using htop
        obtain rfl | hrest := List.mem_cons.mp hmem
        · exact (Std.Total.total a a).elim id id
        · exact (List.pairwise_cons.mp hsorted).1 a hrest

/-- The heap of some elements. -/
def Arrangement.heap (A : Arrangement le) (l : List α) : Heap le where
  entries := A.arrange l
  least top htop a ha := A.least l top htop a ((A.perm l).mem_iff.mp ha)

theorem Arrangement.heap_perm (A : Arrangement le) (l : List α) : (A.heap l).entries.Perm l :=
  A.perm l

def empty : Heap le := ⟨[], nofun⟩

@[simp] theorem empty_entries : (empty : Heap le).entries = [] := rfl

/-- A greatest element, the last one in the order of the list. -/
def greatest (le : α → α → Prop) [DecidableRel le] : List α → Option α
  | [] => none
  | a :: l => some (l.foldl (fun x y => if le x y then y else x) a)

variable (L : Layout le)

def push (h : Heap le) (a : α) : Heap le := L.pushed.heap (a :: h.entries)

def collect (l : List α) : Heap le := L.collected.heap l

/-- Pop the element in front as long as it satisfies a condition. -/
def popWhile (p : α → Bool) (h : Heap le) : List α × Heap le :=
  match _hl : h.entries with
  | [] => ([], h)
  | top :: rest =>
      if p top then
        let popped := popWhile p (L.popped.heap rest)
        (top :: popped.1, popped.2)
      else ([], h)
termination_by h.entries.length
decreasing_by
  rw [(L.popped.heap_perm rest).length_eq, _hl]
  exact Nat.lt_succ_self _

variable {L}

theorem push_perm (h : Heap le) (a : α) : (h.push L a).entries.Perm (a :: h.entries) :=
  L.pushed.heap_perm _

theorem collect_perm (l : List α) : (collect L l).entries.Perm l := L.collected.heap_perm l

section Greatest

variable [DecidableRel le]

theorem foldl_greatest [IsTrans α le] [Std.Total le] (l : List α) (a : α) :
    l.foldl (fun x y => if le x y then y else x) a ∈ a :: l ∧
      ∀ b ∈ a :: l, le b (l.foldl (fun x y => if le x y then y else x) a) := by
  have hrefl : ∀ b, le b b := fun b => (Std.Total.total b b).elim id id
  induction l generalizing a with
  | nil => simpa using hrefl a
  | cons b l ih =>
      rw [List.foldl_cons]
      by_cases hab : le a b
      · rw [if_pos hab]
        obtain ⟨hmem, hle⟩ := ih b
        refine ⟨List.mem_cons_of_mem _ hmem, fun c hc => ?_⟩
        obtain rfl | hc := List.mem_cons.mp hc
        · exact IsTrans.trans _ _ _ hab (hle b (List.mem_cons_self ..))
        · exact hle c hc
      · rw [if_neg hab]
        obtain ⟨hmem, hle⟩ := ih a
        have hba : le b a := (Std.Total.total a b).resolve_left hab
        refine ⟨?_, fun c hc => ?_⟩
        · obtain heq | hmem := List.mem_cons.mp hmem
          · rw [heq]
            exact List.mem_cons_self ..
          · exact List.mem_cons_of_mem _ (List.mem_cons_of_mem _ hmem)
        · obtain rfl | hc := List.mem_cons.mp hc
          · exact hle c (List.mem_cons_self ..)
          · obtain rfl | hc := List.mem_cons.mp hc
            · exact IsTrans.trans _ _ _ hba (hle a (List.mem_cons_self ..))
            · exact hle c (List.mem_cons_of_mem _ hc)

theorem greatest_eq_none {l : List α} (h : greatest le l = none) : l = [] := by
  cases l with
  | nil => rfl
  | cons a l => cases h

theorem greatest_mem [IsTrans α le] [Std.Total le] {l : List α} {m : α}
    (h : greatest le l = some m) : m ∈ l ∧ ∀ a ∈ l, le a m := by
  cases l with
  | nil => cases h
  | cons a l =>
      obtain rfl := Option.some.inj h
      exact foldl_greatest l a

end Greatest

section PopWhile

variable {p : α → Bool}

/-- An element that stays in front shows that no element satisfies the condition. -/
theorem none_of_front (hdown : ∀ a b, le a b → p b = true → p a = true) {h : Heap le} {top : α}
    {rest : List α} (hl : h.entries = top :: rest) (htop : ¬ p top = true) :
    ∀ a ∈ h.entries, ¬ p a = true := by
  intro a ha hpa
  exact htop (hdown top a (h.least top (by rw [hl]; rfl) a ha) hpa)

/-- If the condition holds of all elements below one that satisfies it, exactly the
elements that satisfy it are popped. -/
theorem popWhile_perm (hdown : ∀ a b, le a b → p b = true → p a = true) (h : Heap le) :
    (h.popWhile L p).1.Perm (h.entries.filter p) ∧
      (h.popWhile L p).2.entries.Perm (h.entries.filter fun a => !p a) := by
  fun_induction popWhile L p h with
  | case1 h hl =>
      rw [hl]
      exact ⟨.refl _, .refl _⟩
  | case2 h top rest hl hp popped ih =>
      have hrest := L.popped.heap_perm rest
      rw [hl, List.filter_cons_of_pos hp, List.filter_cons_of_neg (by simpa using hp)]
      exact ⟨(ih.1.trans (hrest.filter _)).cons top, ih.2.trans (hrest.filter _)⟩
  | case3 h top rest hl hp =>
      have hnone := none_of_front hdown hl hp
      have hfilter : h.entries.filter p = [] := List.filter_eq_nil_iff.mpr hnone
      have hrest : h.entries.filter (fun a => !p a) = h.entries :=
        List.filter_eq_self.mpr fun a ha => by simpa using hnone a ha
      rw [hfilter, hrest]
      exact ⟨.refl _, .refl _⟩

theorem popWhile_ordered (hdown : ∀ a b, le a b → p b = true → p a = true) (h : Heap le) :
    (h.popWhile L p).1.Pairwise le := by
  fun_induction popWhile L p h with
  | case1 => exact .nil
  | case2 h top rest hl hp popped ih =>
      refine List.pairwise_cons.mpr ⟨fun a ha => ?_, ih⟩
      have hmem := List.mem_of_mem_filter ((popWhile_perm hdown _).1.mem_iff.mp ha)
      have hrest : a ∈ rest := (L.popped.heap_perm rest).mem_iff.mp hmem
      exact h.least top (by rw [hl]; rfl) a (by rw [hl]; exact List.mem_cons_of_mem _ hrest)
  | case3 => exact .nil

theorem popWhile_length (h : Heap le) : (h.popWhile L p).2.entries.length ≤ h.entries.length := by
  fun_induction popWhile L p h with
  | case1 => exact Nat.le_refl _
  | case2 h top rest hl hp popped ih =>
      rw [(L.popped.heap_perm rest).length_eq] at ih
      rw [hl]
      exact Nat.le_succ_of_le ih
  | case3 => exact Nat.le_refl _

end PopWhile

end Heap
