import Mathlib.Algebra.BigOperators.Group.List.Basic
import Mathlib.Data.Int.Order.Basic
import Mathlib.Order.MinMax
import Mathlib.Algebra.Ring.Int.Defs

/-!
# Saturating sums

A number in an interval is changed by one weight after another, and every sum is cut off at
the ends of the interval. In a proper interval the order of the weights does not matter
exactly when they all have the same sign or when no end can be passed in any order.
-/

namespace Saturation

variable {lo hi x : ℤ} {ws ws' : List ℤ}

/-- A sum that is cut off at both ends. -/
def add (lo hi x w : ℤ) : ℤ := max lo (min (x + w) hi)

/-- The weights are added one after another. -/
def addAll (lo hi x : ℤ) (ws : List ℤ) : ℤ := ws.foldl (add lo hi) x

/-- What the positive weights add. -/
def gains (ws : List ℤ) : ℤ := (ws.map fun w => max w 0).sum

/-- What the negative weights take away. -/
def losses (ws : List ℤ) : ℤ := (ws.map fun w => max (-w) 0).sum

/-- The order does not matter: there is one sign only, or the ends are too far away. -/
def OrderFree (lo hi x : ℤ) (ws : List ℤ) : Prop :=
  (∀ w ∈ ws, 0 ≤ w) ∨ (∀ w ∈ ws, w ≤ 0) ∨ x + gains ws ≤ hi ∧ lo ≤ x - losses ws

theorem add_mem (h : lo ≤ hi) (x w : ℤ) : lo ≤ add lo hi x w ∧ add lo hi x w ≤ hi :=
  ⟨le_max_left _ _, max_le h (min_le_right _ _)⟩

@[simp] theorem addAll_cons (w : ℤ) : addAll lo hi x (w :: ws) = addAll lo hi (add lo hi x w) ws :=
  rfl

theorem addAll_append : addAll lo hi x (ws ++ ws') = addAll lo hi (addAll lo hi x ws) ws' :=
  List.foldl_append

@[simp] theorem gains_cons (w : ℤ) : gains (w :: ws) = max w 0 + gains ws := List.sum_cons

@[simp] theorem losses_cons (w : ℤ) : losses (w :: ws) = max (-w) 0 + losses ws := List.sum_cons

theorem gains_nonneg (ws : List ℤ) : 0 ≤ gains ws := by
  induction ws with
  | nil => exact le_rfl
  | cons w ws ih =>
      rw [gains_cons]
      omega

theorem losses_nonneg (ws : List ℤ) : 0 ≤ losses ws := by
  induction ws with
  | nil => exact le_rfl
  | cons w ws ih =>
      rw [losses_cons]
      omega

theorem gains_perm (h : ws.Perm ws') : gains ws = gains ws' := (h.map _).sum_eq

theorem losses_perm (h : ws.Perm ws') : losses ws = losses ws' := (h.map _).sum_eq

theorem gains_pos {w : ℤ} (hw : w ∈ ws) (hpos : 0 < w) : 0 < gains ws := by
  induction ws with
  | nil => cases hw
  | cons v ws ih =>
      have hnonneg := gains_nonneg ws
      rw [gains_cons]
      obtain rfl | hw := List.mem_cons.mp hw
      · omega
      · have htail := ih hw
        omega

theorem losses_pos {w : ℤ} (hw : w ∈ ws) (hneg : w < 0) : 0 < losses ws := by
  induction ws with
  | nil => cases hw
  | cons v ws ih =>
      have hnonneg := losses_nonneg ws
      rw [losses_cons]
      obtain rfl | hw := List.mem_cons.mp hw
      · omega
      · have htail := ih hw
        omega

/-! ### Weights of one sign -/

theorem addAll_of_nonneg (hlo : lo ≤ x) (hhi : x ≤ hi) (h : ∀ w ∈ ws, 0 ≤ w) :
    addAll lo hi x ws = min (x + gains ws) hi := by
  induction ws generalizing x with
  | nil => exact ((min_eq_left (by simpa [gains] using hhi)).trans (add_zero x)).symm
  | cons w ws ih =>
      obtain ⟨hw, hws⟩ := List.forall_mem_cons.mp h
      have hnonneg := gains_nonneg ws
      obtain ⟨hlo', hhi'⟩ := add_mem (hlo.trans hhi) x w
      rw [addAll_cons, ih hlo' hhi' hws, gains_cons]
      unfold add
      omega

theorem addAll_of_nonpos (hlo : lo ≤ x) (hhi : x ≤ hi) (h : ∀ w ∈ ws, w ≤ 0) :
    addAll lo hi x ws = max lo (x - losses ws) := by
  induction ws generalizing x with
  | nil => exact ((max_eq_right (by simpa [losses] using hlo)).trans (sub_zero x)).symm
  | cons w ws ih =>
      obtain ⟨hw, hws⟩ := List.forall_mem_cons.mp h
      have hnonneg := losses_nonneg ws
      obtain ⟨hlo', hhi'⟩ := add_mem (hlo.trans hhi) x w
      rw [addAll_cons, ih hlo' hhi' hws, losses_cons]
      unfold add
      omega

/-- Far from both ends nothing is cut off. -/
theorem addAll_of_far (hhi : x + gains ws ≤ hi) (hlo : lo ≤ x - losses ws) :
    addAll lo hi x ws = x + gains ws - losses ws := by
  induction ws generalizing x with
  | nil => exact (by simp [gains, losses] : x + gains [] - losses [] = x).symm
  | cons w ws ih =>
      rw [gains_cons] at hhi ⊢
      rw [losses_cons] at hlo ⊢
      have hgains := gains_nonneg ws
      have hlosses := losses_nonneg ws
      have hstep : add lo hi x w = x + w := by
        unfold add
        omega
      rw [addAll_cons, hstep, ih (by omega) (by omega)]
      omega

/-! ### Orders -/

theorem OrderFree.addAll_eq (h : OrderFree lo hi x ws) (hlo : lo ≤ x) (hhi : x ≤ hi)
    (hws : ws.Perm ws') : addAll lo hi x ws = addAll lo hi x ws' := by
  obtain hnonneg | hnonpos | ⟨hfarHi, hfarLo⟩ := h
  · rw [addAll_of_nonneg hlo hhi hnonneg,
      addAll_of_nonneg hlo hhi fun w hw => hnonneg w (hws.mem_iff.mpr hw), gains_perm hws]
  · rw [addAll_of_nonpos hlo hhi hnonpos,
      addAll_of_nonpos hlo hhi fun w hw => hnonpos w (hws.mem_iff.mpr hw), losses_perm hws]
  · rw [addAll_of_far hfarHi hfarLo]
    rw [gains_perm hws] at hfarHi ⊢
    rw [losses_perm hws] at hfarLo ⊢
    exact (addAll_of_far hfarHi hfarLo).symm

/-- The positive weights first, and the others first. -/
def gainsFirst (ws : List ℤ) : List ℤ :=
  (ws.filter fun w => 0 < w) ++ ws.filter fun w => !decide (0 < w)

def lossesFirst (ws : List ℤ) : List ℤ :=
  (ws.filter fun w => !decide (0 < w)) ++ ws.filter fun w => 0 < w

theorem gainsFirst_perm (ws : List ℤ) : (gainsFirst ws).Perm ws :=
  List.filter_append_perm (fun w => decide (0 < w)) ws

theorem lossesFirst_perm (ws : List ℤ) : (lossesFirst ws).Perm ws :=
  List.perm_append_comm.trans (gainsFirst_perm ws)

theorem gains_filter (ws : List ℤ) : gains (ws.filter fun w => 0 < w) = gains ws := by
  induction ws with
  | nil => rfl
  | cons w ws ih =>
      by_cases hw : 0 < w
      · rw [List.filter_cons_of_pos (by simpa using hw), gains_cons, gains_cons, ih]
      · rw [List.filter_cons_of_neg (by simpa using hw), gains_cons, ih]
        omega

theorem losses_filter (ws : List ℤ) :
    losses (ws.filter fun w => !decide (0 < w)) = losses ws := by
  induction ws with
  | nil => rfl
  | cons w ws ih =>
      by_cases hw : 0 < w
      · rw [List.filter_cons_of_neg (by simpa using hw), losses_cons, ih]
        omega
      · rw [List.filter_cons_of_pos (by simpa using hw), losses_cons, losses_cons, ih]

/-- The gains are cut off first, and then the losses. -/
theorem addAll_gainsFirst (hlo : lo ≤ x) (hhi : x ≤ hi) :
    addAll lo hi x (gainsFirst ws) = max lo (min (x + gains ws) hi - losses ws) := by
  have hgains : ∀ w ∈ ws.filter (fun w => decide (0 < w)), 0 ≤ w :=
    fun w hw => le_of_lt (of_decide_eq_true (List.mem_filter.mp hw).2)
  have hlosses : ∀ w ∈ ws.filter (fun w => !decide (0 < w)), w ≤ 0 :=
    fun w hw => not_lt.mp (by simpa using (List.mem_filter.mp hw).2)
  have hnonneg := gains_nonneg ws
  unfold gainsFirst
  rw [addAll_append, addAll_of_nonneg hlo hhi hgains, gains_filter,
    addAll_of_nonpos (by omega) (by omega) hlosses, losses_filter]

theorem addAll_lossesFirst (hlo : lo ≤ x) (hhi : x ≤ hi) :
    addAll lo hi x (lossesFirst ws) = min (max lo (x - losses ws) + gains ws) hi := by
  have hgains : ∀ w ∈ ws.filter (fun w => decide (0 < w)), 0 ≤ w :=
    fun w hw => le_of_lt (of_decide_eq_true (List.mem_filter.mp hw).2)
  have hlosses : ∀ w ∈ ws.filter (fun w => !decide (0 < w)), w ≤ 0 :=
    fun w hw => not_lt.mp (by simpa using (List.mem_filter.mp hw).2)
  have hnonneg := losses_nonneg ws
  unfold lossesFirst
  rw [addAll_append, addAll_of_nonpos hlo hhi hlosses, losses_filter,
    addAll_of_nonneg (by omega) (by omega) hgains, gains_filter]

/-- All orders give the same exactly when the order does not matter. -/
theorem orderFree_iff (hlt : lo < hi) (hlo : lo ≤ x) (hhi : x ≤ hi) :
    (∀ ws₁ ws₂, ws₁.Perm ws → ws₂.Perm ws → addAll lo hi x ws₁ = addAll lo hi x ws₂) ↔
      OrderFree lo hi x ws := by
  constructor
  · intro h
    have hsame := h _ _ (gainsFirst_perm ws) (lossesFirst_perm ws)
    rw [addAll_gainsFirst hlo hhi, addAll_lossesFirst hlo hhi] at hsame
    by_contra hnot
    unfold OrderFree at hnot
    push Not at hnot
    obtain ⟨⟨v, hv, hneg⟩, ⟨w, hw, hpos⟩, hnear⟩ := hnot
    have hgains := gains_pos hw hpos
    have hlosses := losses_pos hv hneg
    by_cases hfar : x + gains ws ≤ hi
    · have hlow := hnear hfar
      omega
    · omega
  · intro h ws₁ ws₂ h₁ h₂
    exact (h.addAll_eq hlo hhi h₁.symm).symm.trans (h.addAll_eq hlo hhi h₂.symm)

end Saturation
