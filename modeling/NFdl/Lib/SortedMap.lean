import Mathlib.Order.Basic
import Mathlib.Data.List.Basic
import Mathlib.Data.List.Forall2
import Mathlib.Order.Lattice
import Mathlib.Algebra.GroupWithZero.Nat

/-!
# Maps ordered by their keys

A map is a list of entries with strictly increasing keys, which is the order in
which an ordered tree map iterates. The first entry from a key on is the one the
iteration over that range begins with.
-/

structure SortedMap (κ β : Type*) [LinearOrder κ] where
  entries : List (κ × β)
  sorted : entries.Pairwise fun a b => a.1 < b.1

namespace SortedMap

variable {κ β : Type*} [LinearOrder κ]

def empty : SortedMap κ β := ⟨[], .nil⟩

def lookupList (k : κ) : List (κ × β) → Option β
  | [] => none
  | e :: rest => if e.1 = k then some e.2 else lookupList k rest

/-- Insert at the key's place, and replace what is there. -/
def insertList (k : κ) (v : β) : List (κ × β) → List (κ × β)
  | [] => [(k, v)]
  | e :: rest =>
      if k < e.1 then (k, v) :: e :: rest
      else if e.1 = k then (k, v) :: rest
      else e :: insertList k v rest

theorem mem_insertList {k : κ} {v : β} {e : κ × β} {l : List (κ × β)}
    (h : e ∈ insertList k v l) : e = (k, v) ∨ e ∈ l := by
  induction l with
  | nil => exact .inl (List.mem_singleton.mp h)
  | cons a rest ih =>
      unfold insertList at h
      split at h
      · exact List.mem_cons.mp h
      · split at h
        · exact (List.mem_cons.mp h).imp id (List.mem_cons_of_mem a)
        · obtain rfl | h := List.mem_cons.mp h
          · exact .inr (List.mem_cons_self ..)
          · exact (ih h).imp id (List.mem_cons_of_mem a)

theorem mem_insertList_self (k : κ) (v : β) (l : List (κ × β)) : (k, v) ∈ insertList k v l := by
  induction l with
  | nil => exact List.mem_singleton_self _
  | cons a rest ih =>
      unfold insertList
      split
      · exact List.mem_cons_self ..
      · split
        · exact List.mem_cons_self ..
        · exact List.mem_cons_of_mem a ih

theorem mem_insertList_of_ne {k : κ} {v : β} {e : κ × β} {l : List (κ × β)} (h : e ∈ l)
    (hne : e.1 ≠ k) : e ∈ insertList k v l := by
  induction l with
  | nil => cases h
  | cons a rest ih =>
      unfold insertList
      split
      · exact List.mem_cons_of_mem _ h
      · split
        · rename_i heq
          obtain rfl | h := List.mem_cons.mp h
          · exact absurd heq hne
          · exact List.mem_cons_of_mem _ h
        · obtain rfl | h := List.mem_cons.mp h
          · exact List.mem_cons_self ..
          · exact List.mem_cons_of_mem a (ih h)

theorem sorted_insertList {k : κ} {v : β} {l : List (κ × β)}
    (h : l.Pairwise fun a b => a.1 < b.1) :
    (insertList k v l).Pairwise fun a b => a.1 < b.1 := by
  induction l with
  | nil => exact List.pairwise_singleton _ _
  | cons a rest ih =>
      obtain ⟨ha, hrest⟩ := List.pairwise_cons.mp h
      unfold insertList
      split
      · rename_i hlt
        refine List.pairwise_cons.mpr ⟨fun b hb => ?_, h⟩
        obtain rfl | hb := List.mem_cons.mp hb
        · exact hlt
        · exact hlt.trans (ha b hb)
      · rename_i hle
        split
        · rename_i heq
          exact List.pairwise_cons.mpr ⟨fun b hb => heq ▸ ha b hb, hrest⟩
        · rename_i hne
          refine List.pairwise_cons.mpr ⟨fun b hb => ?_, ih hrest⟩
          obtain rfl | hb := mem_insertList hb
          · exact lt_of_le_of_ne (not_lt.mp hle) hne
          · exact ha b hb

def get? (m : SortedMap κ β) (k : κ) : Option β := lookupList k m.entries

def insert (m : SortedMap κ β) (k : κ) (v : β) : SortedMap κ β :=
  ⟨insertList k v m.entries, sorted_insertList m.sorted⟩

def remove (m : SortedMap κ β) (k : κ) : SortedMap κ β :=
  ⟨m.entries.filter fun e => e.1 ≠ k, m.sorted.sublist List.filter_sublist⟩

/-- The first entry whose key is not below `k`. -/
def firstFrom (m : SortedMap κ β) (k : κ) : Option (κ × β) := m.entries.find? fun e => k ≤ e.1

/-- Inserting a key above all others appends. -/
theorem insertList_of_lt {k : κ} {v : β} {l : List (κ × β)} (h : ∀ e ∈ l, e.1 < k) :
    insertList k v l = l ++ [(k, v)] := by
  induction l with
  | nil => rfl
  | cons a rest ih =>
      have ha := h a (List.mem_cons_self ..)
      unfold insertList
      rw [if_neg (not_lt.mpr ha.le), if_neg ha.ne, ih fun e he => h e (List.mem_cons_of_mem _ he)]
      rfl

/-- A map that is filled from the entries of another one in their order. -/
theorem entries_foldl_insert {γ : Type*} (m : SortedMap κ γ) (f : κ × γ → β) :
    (m.entries.foldl (fun out e => out.insert e.1 (f e)) empty).entries =
      m.entries.map fun e => (e.1, f e) := by
  have hfold : ∀ (l : List (κ × γ)) (out : SortedMap κ β), l.Pairwise (fun a b => a.1 < b.1) →
      (∀ a ∈ out.entries, ∀ e ∈ l, a.1 < e.1) →
      (l.foldl (fun out e => out.insert e.1 (f e)) out).entries =
        out.entries ++ l.map fun e => (e.1, f e) := by
    intro l
    induction l with
    | nil => exact fun out _ _ => (List.append_nil _).symm
    | cons e rest ih =>
        intro out hsorted hbelow
        obtain ⟨he, hrest⟩ := List.pairwise_cons.mp hsorted
        have hentries : (out.insert e.1 (f e)).entries = out.entries ++ [(e.1, f e)] :=
          insertList_of_lt fun a ha => hbelow a ha e (List.mem_cons_self ..)
        rw [List.foldl_cons, ih _ hrest, hentries, List.append_assoc]
        · rfl
        · rw [hentries]
          intro a ha b hb
          obtain ha | ha := List.mem_append.mp ha
          · exact hbelow a ha b (List.mem_cons_of_mem _ hb)
          · rw [List.mem_singleton.mp ha]
            exact he b hb
  exact (hfold m.entries empty m.sorted fun a ha => absurd ha List.not_mem_nil).trans
    (List.nil_append _)

/-! ### Related maps -/

/-- Maps with the same keys in which the values of every key are related. -/
def Related {γ : Type*} (R : κ → β → γ → Prop) (m : SortedMap κ β) (m' : SortedMap κ γ) : Prop :=
  List.Forall₂ (fun e e' => e.1 = e'.1 ∧ R e.1 e.2 e'.2) m.entries m'.entries

theorem Related.empty {γ : Type*} (R : κ → β → γ → Prop) : Related R empty empty := .nil

theorem Related.insert {γ : Type*} {R : κ → β → γ → Prop} {m : SortedMap κ β} {m' : SortedMap κ γ}
    (h : Related R m m') {k : κ} {v : β} {v' : γ} (hv : R k v v') :
    Related R (m.insert k v) (m'.insert k v') := by
  change List.Forall₂ _ (insertList k v m.entries) (insertList k v' m'.entries)
  unfold Related at h
  generalize m.entries = l at h
  generalize m'.entries = l' at h
  induction h with
  | nil => exact .cons ⟨rfl, hv⟩ .nil
  | cons hfirst hrest ih =>
      rename_i e e' rest rest'
      unfold insertList
      rw [← hfirst.1]
      split
      · exact .cons ⟨rfl, hv⟩ (.cons hfirst hrest)
      · split
        · exact .cons ⟨rfl, hv⟩ hrest
        · exact .cons hfirst ih

@[simp] theorem get?_empty (k : κ) : (empty : SortedMap κ β).get? k = none := rfl

@[simp] theorem get?_insert (m : SortedMap κ β) (k : κ) (v : β) :
    (m.insert k v).get? k = some v := by
  obtain ⟨l, hl⟩ := m
  change lookupList k (insertList k v l) = some v
  induction l with
  | nil => simp [insertList, lookupList]
  | cons a rest ih =>
      unfold insertList
      split
      · simp [lookupList]
      · split
        · simp [lookupList]
        · rename_i hne
          simp only [lookupList, if_neg hne]
          exact ih (List.pairwise_cons.mp hl).2

theorem get?_insert_ne (m : SortedMap κ β) {k k' : κ} (v : β) (h : k' ≠ k) :
    (m.insert k v).get? k' = m.get? k' := by
  obtain ⟨l, hl⟩ := m
  change lookupList k' (insertList k v l) = lookupList k' l
  induction l with
  | nil => simp [insertList, lookupList, h.symm]
  | cons a rest ih =>
      unfold insertList
      split
      · simp [lookupList, h.symm]
      · split
        · rename_i heq
          simp [lookupList, heq, h.symm]
        · simp only [lookupList]
          rw [ih (List.pairwise_cons.mp hl).2]

theorem lookupList_filter_ne {k k' : κ} (h : k' ≠ k) (l : List (κ × β)) :
    lookupList k' (l.filter fun e => e.1 ≠ k) = lookupList k' l := by
  induction l with
  | nil => rfl
  | cons a rest ih =>
      by_cases ha : a.1 = k
      · have hne : a.1 ≠ k' := fun heq => h (heq.symm.trans ha)
        rw [List.filter_cons_of_neg (by simp [ha]), ih]
        simp [lookupList, hne]
      · rw [List.filter_cons_of_pos (by simp [ha])]
        simp only [lookupList, ih]

theorem get?_remove_ne (m : SortedMap κ β) {k k' : κ} (h : k' ≠ k) :
    (m.remove k).get? k' = m.get? k' :=
  lookupList_filter_ne h m.entries

theorem lookupList_eq_none {k : κ} {l : List (κ × β)} (h : ∀ e ∈ l, e.1 ≠ k) :
    lookupList k l = none := by
  induction l with
  | nil => rfl
  | cons a rest ih =>
      unfold lookupList
      rw [if_neg (h a (List.mem_cons_self ..))]
      exact ih fun e he => h e (List.mem_cons_of_mem _ he)

@[simp] theorem get?_remove (m : SortedMap κ β) (k : κ) : (m.remove k).get? k = none :=
  lookupList_eq_none fun e he => by simpa using (List.mem_filter.mp he).2

theorem mem_of_lookupList {k : κ} {v : β} {l : List (κ × β)} (h : lookupList k l = some v) :
    (k, v) ∈ l := by
  induction l with
  | nil => cases h
  | cons a rest ih =>
      unfold lookupList at h
      split at h
      · rename_i heq
        obtain rfl := Option.some.inj h
        rw [← heq]
        exact List.mem_cons_self ..
      · exact List.mem_cons_of_mem _ (ih h)

/-- The iteration from a key begins with that key exactly when it is present. -/
theorem firstFrom_key_iff (m : SortedMap κ β) (k : κ) (v : β) :
    m.firstFrom k = some (k, v) ↔ m.get? k = some v := by
  obtain ⟨l, hl⟩ := m
  change l.find? (fun e => k ≤ e.1) = some (k, v) ↔ lookupList k l = some v
  induction l with
  | nil => simp [lookupList]
  | cons a rest ih =>
      obtain ⟨ha, hrest⟩ := List.pairwise_cons.mp hl
      unfold lookupList
      by_cases hle : k ≤ a.1
      · rw [List.find?_cons_of_pos (by simpa using hle)]
        by_cases heq : a.1 = k
        · rw [if_pos heq]
          constructor
          · intro h
            rw [Option.some.inj h]
          · intro h
            rw [← Option.some.inj h, ← heq]
        · rw [if_neg heq]
          have habove : ∀ e ∈ rest, e.1 ≠ k := fun e he h =>
            absurd (h ▸ ha e he) (not_lt.mpr hle)
          rw [lookupList_eq_none habove]
          constructor
          · intro h
            exact absurd (congrArg Prod.fst (Option.some.inj h)) heq
          · intro h
            cases h
      · have hne : a.1 ≠ k := fun h => hle (le_of_eq h.symm)
        rw [List.find?_cons_of_neg (by simpa using hle), if_neg hne]
        exact ih hrest

/-! ### Sums over the values -/

/-- The sum of a measure of the values. -/
def total (f : β → Nat) (m : SortedMap κ β) : Nat := (m.entries.map fun e => f e.2).sum

theorem total_insertList (f : β → Nat) (k : κ) (v : β) {l : List (κ × β)}
    (h : l.Pairwise fun a b => a.1 < b.1) :
    ((insertList k v l).map fun e => f e.2).sum + ((lookupList k l).elim 0 f) =
      (l.map fun e => f e.2).sum + f v := by
  induction l with
  | nil => simp [insertList, lookupList]
  | cons a rest ih =>
      obtain ⟨ha, hrest⟩ := List.pairwise_cons.mp h
      unfold insertList lookupList
      split
      · rename_i hlt
        have hnone : lookupList k rest = none :=
          lookupList_eq_none fun e he h => absurd (h ▸ hlt.trans (ha e he)) (lt_irrefl _)
        rw [if_neg (ne_of_gt hlt), hnone]
        simp only [List.map_cons, List.sum_cons, Option.elim]
        omega
      · split
        · simp only [List.map_cons, List.sum_cons, Option.elim]
          omega
        · have := ih hrest
          simp only [List.map_cons, List.sum_cons]
          omega

/-- Inserting adds the new value and takes away what it replaces. -/
theorem total_insert (f : β → Nat) (m : SortedMap κ β) (k : κ) (v : β) :
    (m.insert k v).total f + (m.get? k).elim 0 f = m.total f + f v :=
  total_insertList f k v m.sorted

theorem total_removeList (f : β → Nat) (k : κ) {l : List (κ × β)}
    (h : l.Pairwise fun a b => a.1 < b.1) :
    ((l.filter fun e => e.1 ≠ k).map fun e => f e.2).sum + ((lookupList k l).elim 0 f) =
      (l.map fun e => f e.2).sum := by
  induction l with
  | nil => rfl
  | cons a rest ih =>
      obtain ⟨ha, hrest⟩ := List.pairwise_cons.mp h
      have htail := ih hrest
      unfold lookupList
      by_cases heq : a.1 = k
      · have hnone : lookupList k rest = none :=
          lookupList_eq_none fun e he h => absurd (h ▸ heq ▸ ha e he) (lt_irrefl _)
        rw [hnone] at htail
        rw [if_pos heq, List.filter_cons_of_neg (by simp [heq])]
        simp only [List.map_cons, List.sum_cons, Option.elim] at htail ⊢
        omega
      · rw [if_neg heq, List.filter_cons_of_pos (by simp [heq])]
        simp only [List.map_cons, List.sum_cons]
        omega

/-- Removing takes away what was there. -/
theorem total_remove (f : β → Nat) (m : SortedMap κ β) (k : κ) :
    (m.remove k).total f + (m.get? k).elim 0 f = m.total f :=
  total_removeList f k m.sorted

theorem length_remove_lt (m : SortedMap κ β) {k : κ} {v : β} (h : m.get? k = some v) :
    (m.remove k).entries.length < m.entries.length :=
  List.length_filter_lt_length_iff_exists.mpr ⟨(k, v), mem_of_lookupList h, by simp⟩

end SortedMap
