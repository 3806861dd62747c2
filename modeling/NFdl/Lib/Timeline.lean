import Mathlib.Data.List.Basic
import Mathlib.Data.List.Sort
import Mathlib.Order.Basic

/-!
# Timelines

A timeline is a list that is sorted by the times of its elements. Elements arrive
in any order and are placed after all elements that are not later; windows and
the part from some time on are read off as stretches of the list.
-/

namespace Timeline

variable {ε τ : Type*} [LinearOrder τ] (time : ε → τ)

/-- The elements stand in the order of their times. -/
def Ordered (l : List ε) : Prop := l.Pairwise fun a b => time a ≤ time b

/-- Place an element after all elements that are not later. -/
def place (e : ε) (l : List ε) : List ε :=
  (l.takeWhile fun a => time a ≤ time e) ++ e :: l.dropWhile fun a => time a ≤ time e

/-- Drop the elements before a time. -/
def dropBefore (cutoff : τ) (l : List ε) : List ε := l.dropWhile fun a => time a < cutoff

/-- The elements of a closed window. -/
def window (lo hi : τ) (l : List ε) : List ε :=
  (dropBefore time lo l).takeWhile fun a => time a ≤ hi

variable {time}

theorem place_perm (e : ε) (l : List ε) : (place time e l).Perm (e :: l) := by
  refine List.perm_middle.trans (List.Perm.cons e ?_)
  rw [List.takeWhile_append_dropWhile]

theorem mem_place {e a : ε} {l : List ε} : a ∈ place time e l ↔ a = e ∨ a ∈ l :=
  (place_perm e l).mem_iff.trans List.mem_cons

/-- An element before all others is placed in front. -/
theorem place_of_earlier {e : ε} {l : List ε} (h : ∀ a ∈ l, ¬ time a ≤ time e) :
    place time e l = e :: l := by
  unfold place
  cases l with
  | nil => rfl
  | cons a rest =>
      have ha := h a (List.mem_cons_self ..)
      rw [List.takeWhile_cons_of_neg (by simpa using ha),
        List.dropWhile_cons_of_neg (by simpa using ha), List.nil_append]

theorem place_cons_of_le {a e : ε} {l : List ε} (h : time a ≤ time e) :
    place time e (a :: l) = a :: place time e l := by
  unfold place
  rw [List.takeWhile_cons_of_pos (by simpa using h), List.dropWhile_cons_of_pos (by simpa using h),
    List.cons_append]

/-- In a timeline a stretch that a bound on the time cuts off is all that meets
the bound. -/
theorem dropWhile_eq_filter {p : ε → Bool} (hp : ∀ a b, time a ≤ time b → p b = true → p a = true)
    {l : List ε} (h : Ordered time l) : l.dropWhile p = l.filter fun a => !p a := by
  induction l with
  | nil => rfl
  | cons a rest ih =>
      obtain ⟨ha, hrest⟩ := List.pairwise_cons.mp h
      by_cases hpa : p a = true
      · rw [List.dropWhile_cons_of_pos hpa, ih hrest, List.filter_cons_of_neg (by simp [hpa])]
      · have hnot : ∀ b ∈ rest, (!p b) = true := fun b hb => by
          simpa using fun hpb => hpa (hp a b (ha b hb) hpb)
        rw [List.dropWhile_cons_of_neg hpa, List.filter_cons_of_pos (by simpa using hpa),
          List.filter_eq_self.mpr hnot]

theorem takeWhile_eq_filter {p : ε → Bool} (hp : ∀ a b, time a ≤ time b → p b = true → p a = true)
    {l : List ε} (h : Ordered time l) : l.takeWhile p = l.filter p := by
  induction l with
  | nil => rfl
  | cons a rest ih =>
      obtain ⟨ha, hrest⟩ := List.pairwise_cons.mp h
      by_cases hpa : p a = true
      · rw [List.takeWhile_cons_of_pos hpa, ih hrest, List.filter_cons_of_pos hpa]
      · have hnone : rest.filter p = [] :=
          List.filter_eq_nil_iff.mpr fun b hb hpb => hpa (hp a b (ha b hb) hpb)
        rw [List.takeWhile_cons_of_neg hpa, List.filter_cons_of_neg hpa, hnone]

theorem Ordered.place {l : List ε} (h : Ordered time l) (e : ε) :
    Ordered time (place time e l) := by
  have hdown : ∀ a b, time a ≤ time b → decide (time b ≤ time e) = true →
      decide (time a ≤ time e) = true := fun a b hab hb => by
    simpa using hab.trans (by simpa using hb)
  unfold Timeline.place
  rw [takeWhile_eq_filter hdown h, dropWhile_eq_filter hdown h]
  refine List.pairwise_append.mpr ⟨h.filter _, List.pairwise_cons.mpr ⟨?_, h.filter _⟩, ?_⟩
  · intro b hb
    have hlater := (List.mem_filter.mp hb).2
    exact le_of_lt (by simpa using hlater)
  · intro a ha b hb
    have hearly : time a ≤ time e := by simpa using (List.mem_filter.mp ha).2
    obtain rfl | hb := List.mem_cons.mp hb
    · exact hearly
    · have hlater : time e < time b := by simpa using (List.mem_filter.mp hb).2
      exact hearly.trans (le_of_lt hlater)

theorem dropBefore_eq_filter {l : List ε} (h : Ordered time l) (cutoff : τ) :
    dropBefore time cutoff l = l.filter fun a => cutoff ≤ time a := by
  have hdown : ∀ a b, time a ≤ time b → decide (time b < cutoff) = true →
      decide (time a < cutoff) = true := fun a b hab hb => by
    simpa using lt_of_le_of_lt hab (by simpa using hb)
  unfold dropBefore
  rw [dropWhile_eq_filter hdown h]
  refine List.filter_congr fun a _ => ?_
  rw [← decide_not, decide_eq_decide]
  exact not_lt

theorem Ordered.dropBefore {l : List ε} (h : Ordered time l) (cutoff : τ) :
    Ordered time (dropBefore time cutoff l) := by
  rw [dropBefore_eq_filter h]
  exact h.filter _

theorem mem_dropBefore {l : List ε} (h : Ordered time l) {cutoff : τ} {a : ε} :
    a ∈ dropBefore time cutoff l ↔ a ∈ l ∧ cutoff ≤ time a := by
  rw [dropBefore_eq_filter h, List.mem_filter, decide_eq_true_iff]

/-- A window holds exactly the elements between its ends. -/
theorem window_eq_filter {l : List ε} (h : Ordered time l) (lo hi : τ) :
    window time lo hi l = l.filter fun a => lo ≤ time a ∧ time a ≤ hi := by
  have hdown : ∀ a b, time a ≤ time b → decide (time b ≤ hi) = true →
      decide (time a ≤ hi) = true := fun a b hab hb => by
    simpa using hab.trans (by simpa using hb)
  unfold window
  rw [takeWhile_eq_filter hdown (h.dropBefore lo), dropBefore_eq_filter h, List.filter_filter]
  refine List.filter_congr fun a _ => ?_
  rw [Bool.and_comm, ← Bool.decide_and]

/-! ### Elements of one time -/

/-- Elements of one time stay in the order in which they were placed. -/
theorem filter_place [DecidableEq τ] {l : List ε} (h : Ordered time l) (e : ε) (t : τ) :
    ((place time e l).filter fun a => time a = t) =
      (l.filter fun a => time a = t) ++ if time e = t then [e] else [] := by
  have hsplit : l.filter (fun a => decide (time a = t)) =
      (l.takeWhile fun a => time a ≤ time e).filter (fun a => decide (time a = t)) ++
        (l.dropWhile fun a => time a ≤ time e).filter (fun a => decide (time a = t)) := by
    rw [← List.filter_append, List.takeWhile_append_dropWhile]
  have hdown : ∀ a b, time a ≤ time b → decide (time b ≤ time e) = true →
      decide (time a ≤ time e) = true := fun a b hab hb => by
    simpa using hab.trans (by simpa using hb)
  unfold place
  rw [hsplit, List.filter_append]
  by_cases ht : time e = t
  · have hlater : (l.dropWhile fun a => time a ≤ time e).filter
        (fun a => decide (time a = t)) = [] := by
      rw [dropWhile_eq_filter hdown h, List.filter_filter]
      refine List.filter_eq_nil_iff.mpr fun a _ ha => ?_
      simp only [Bool.and_eq_true, decide_eq_true_iff, Bool.not_eq_true', decide_eq_false_iff_not,
        ht] at ha
      exact ha.2 ha.1.le
    rw [List.filter_cons_of_pos (by simpa using ht), hlater, if_pos ht, List.append_nil]
  · rw [List.filter_cons_of_neg (by simpa using ht), if_neg ht, List.append_nil]

/-! ### Sorting -/

variable (time) in
/-- The order of the times, for sorting. -/
abbrev NotLater (a b : ε) : Prop := time a ≤ time b

theorem orderedInsert_of_forall {a : ε} {l : List ε} (h : ∀ b ∈ l, time a ≤ time b) :
    l.orderedInsert (NotLater time) a = a :: l := by
  cases l with
  | nil => rfl
  | cons b l => exact List.orderedInsert_cons_of_le _ _ (h b (List.mem_cons_self ..))

/-- Placing an element in a timeline is sorting with the element at the end. -/
theorem place_eq_insertionSort {l : List ε} (h : Ordered time l) (e : ε) :
    place time e l = (l ++ [e]).insertionSort (NotLater time) := by
  induction l with
  | nil => rfl
  | cons a rest ih =>
      obtain ⟨ha, hrest⟩ := List.pairwise_cons.mp h
      rw [List.cons_append, List.insertionSort_cons, ← ih hrest]
      by_cases hae : time a ≤ time e
      · rw [place_cons_of_le hae, orderedInsert_of_forall]
        intro b hb
        obtain rfl | hb := mem_place.mp hb
        · exact hae
        · exact ha b hb
      · have hfirst : ∀ b ∈ a :: rest, ¬ time b ≤ time e := by
          intro b hb hbe
          obtain rfl | hb := List.mem_cons.mp hb
          · exact hae hbe
          · exact hae ((ha b hb).trans hbe)
        rw [place_of_earlier hfirst, place_of_earlier fun b hb => hfirst b (List.mem_cons_of_mem _ hb),
          List.orderedInsert_of_not_le (NotLater time) _ hae, orderedInsert_of_forall ha]

end Timeline
