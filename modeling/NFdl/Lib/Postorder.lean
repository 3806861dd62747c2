import Mathlib.Data.List.Basic
import Mathlib.Logic.Relation

/-!
# Post-orders

A list is a post-order of a relation after some elements when everything that an element
is related to is one of these or stands before it in the list. What is in a post-order
cannot reach itself. Relations that agree on what is reached from an element have the same
post-orders there.
-/

variable {α : Type*} {R : α → α → Prop} {done order rest : List α} {x y : α}

/-- Every element comes after what it is related to, as far as that is not done before. -/
def Postorder (R : α → α → Prop) (done order : List α) : Prop :=
  ∀ front x back, order = front ++ x :: back → ∀ y, R x y → y ∈ done ++ front

namespace Postorder

theorem nil : Postorder R done [] := by
  intro front x back h
  cases front <;> cases h

theorem append (h : Postorder R done order) (hrest : Postorder R (done ++ order) rest) :
    Postorder R done (order ++ rest) := by
  intro front x back hsplit y hy
  obtain ⟨mid, rfl, hrest'⟩ | ⟨mid, rfl, hmid⟩ := List.append_eq_append_iff.mp hsplit
  · have hmem := hrest mid x back hrest' y hy
    rwa [List.append_assoc] at hmem
  · cases mid with
    | nil =>
        have hmem := hrest [] x back hmid.symm y hy
        rwa [List.append_nil, List.append_nil] at hmem
    | cons z mid =>
        obtain ⟨rfl, rfl⟩ := List.cons.inj hmid
        exact h front x mid rfl y hy

theorem singleton (h : ∀ y, R x y → y ∈ done) : Postorder R done [x] := by
  intro front z back hsplit y hy
  cases front with
  | nil =>
      obtain ⟨rfl, -⟩ := List.cons.inj hsplit
      rw [List.append_nil]
      exact h y hy
  | cons a front =>
      have hnil := (List.cons.inj hsplit).2
      cases front <;> cases hnil

/-- A post-order after nothing is closed under the relation. -/
theorem closed (h : Postorder R [] order) (hx : x ∈ order) (hxy : R x y) : y ∈ order := by
  obtain ⟨front, back, rfl⟩ := List.append_of_mem hx
  exact List.mem_append_left _ (h front x back rfl y hxy)

theorem reaches (h : Postorder R [] order) (hx : x ∈ order) (hxy : Relation.ReflTransGen R x y) :
    y ∈ order := by
  induction hxy with
  | refl => exact hx
  | tail _ hstep ih => exact h.closed ih hstep

/-- What an element is related to comes before its first occurrence. -/
theorem idxOf_lt [DecidableEq α] (h : Postorder R [] order) (hx : x ∈ order) (hxy : R x y) :
    order.idxOf y < order.idxOf x := by
  obtain ⟨front, back, rfl, hfirst⟩ := List.eq_append_cons_of_mem hx
  have hy : y ∈ front := h front x back rfl y hxy
  rw [List.idxOf_append_of_mem hy, List.idxOf_append_of_notMem hfirst, List.idxOf_cons_self]
  exact Nat.lt_of_lt_of_le (List.idxOf_lt_length_of_mem hy) (Nat.le_add_right _ _)

/-- Nothing in a post-order reaches itself. -/
theorem acyclic [DecidableEq α] (h : Postorder R [] order) (hx : x ∈ order) :
    ¬ Relation.TransGen R x x := by
  have hlt : ∀ y, Relation.TransGen R x y → y ∈ order ∧ order.idxOf y < order.idxOf x := by
    intro y hy
    induction hy with
    | single hstep => exact ⟨h.closed hx hstep, h.idxOf_lt hx hstep⟩
    | tail _ hstep ih =>
        exact ⟨h.closed ih.1 hstep, Nat.lt_trans (h.idxOf_lt ih.1 hstep) ih.2⟩
  exact fun hcycle => Nat.lt_irrefl _ (hlt x hcycle).2

end Postorder

/-! ### Relations that agree on what is reached -/

section Agree

variable {S : α → α → Prop} (h : ∀ y, Relation.ReflTransGen R x y → ∀ z, R y z ↔ S y z)

include h

theorem reaches_congr : Relation.ReflTransGen R x y ↔ Relation.ReflTransGen S x y := by
  constructor
  · intro hxy
    induction hxy with
    | refl => exact .refl
    | tail hreach hstep ih => exact ih.tail ((h _ hreach _).mp hstep)
  · intro hxy
    induction hxy with
    | refl => exact .refl
    | tail _ hstep ih => exact ih.tail ((h _ ih _).mpr hstep)

theorem transGen_congr {z : α} (hy : Relation.ReflTransGen R x y) :
    Relation.TransGen R y z ↔ Relation.TransGen S y z := by
  have hfrom : ∀ w, Relation.ReflTransGen R y w → ∀ z, R w z ↔ S w z :=
    fun w hw => h w (hy.trans hw)
  rw [Relation.TransGen.tail'_iff, Relation.TransGen.tail'_iff]
  constructor
  · rintro ⟨w, hw, hz⟩
    exact ⟨w, (reaches_congr hfrom).mp hw, (hfrom w hw z).mp hz⟩
  · rintro ⟨w, hw, hz⟩
    have hw := (reaches_congr hfrom).mpr hw
    exact ⟨w, hw, (hfrom w hw z).mpr hz⟩

theorem Postorder.congr (horder : Postorder R done order)
    (hreach : ∀ y ∈ order, Relation.ReflTransGen R x y) : Postorder S done order := by
  intro front y back hsplit z hz
  refine horder front y back hsplit z ((h y (hreach y ?_) z).mpr hz)
  rw [hsplit]
  exact List.mem_append_right _ (List.mem_cons_self ..)

end Agree
