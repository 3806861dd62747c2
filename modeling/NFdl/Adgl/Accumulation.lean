import NFdl.Adgl.Types
import NFdl.Lib.Saturation
import Mathlib.Data.List.Perm.Basic

/-!
# Accumulated confidence

An inference adds its weight to the confidence of a cause and clamps the sum. Several
inferences about one cause give the same confidence in every order exactly when their
weights have one sign or no order of them reaches an end of the scale.
-/

namespace Adgl

namespace Confidence

/-- Apply the weights of several inferences, one after another. -/
def applyAll (c : Confidence) (ws : List Weight) : Confidence := ws.foldl apply c

/-- The sum of the positive weights. -/
def support (ws : List Weight) : ℤ := Saturation.gains (ws.map Weight.value)

/-- The sum of the negative weights, without its sign. -/
def contradiction (ws : List Weight) : ℤ := Saturation.losses (ws.map Weight.value)

theorem apply_value (c : Confidence) (w : Weight) :
    ((c.apply w).value : ℤ) = Saturation.add 0 100 c.value w.value :=
  Int.toNat_of_nonneg (le_max_left _ _)

theorem applyAll_value (c : Confidence) (ws : List Weight) :
    ((c.applyAll ws).value : ℤ) = Saturation.addAll 0 100 c.value (ws.map Weight.value) := by
  induction ws generalizing c with
  | nil => rfl
  | cons w ws ih =>
      change (((c.apply w).applyAll ws).value : ℤ) = _
      rw [ih, apply_value]
      rfl

theorem value_inj {c c' : Confidence} : (c.value : ℤ) = c'.value ↔ c = c' := by
  rw [Int.natCast_inj]
  obtain ⟨v, hv⟩ := c
  obtain ⟨v', hv'⟩ := c'
  exact (Confidence.mk.injEq ..).symm.to_iff

end Confidence

/-- The order of the weights does not matter exactly when none is negative, none is
positive, or the scale has room for all positive and for all negative ones. -/
theorem confidence_order_free_iff (c : Confidence) (ws : List Weight) :
    (∀ ws₁ ws₂, ws₁.Perm ws → ws₂.Perm ws → c.applyAll ws₁ = c.applyAll ws₂) ↔
      (∀ w ∈ ws, 0 ≤ w.value) ∨ (∀ w ∈ ws, w.value ≤ 0) ∨
        c.value + Confidence.support ws ≤ 100 ∧ 0 ≤ c.value - Confidence.contradiction ws := by
  have hle : (c.value : ℤ) ≤ 100 := by exact_mod_cast c.le
  have hfree : (∀ ws₁ ws₂, ws₁.Perm ws → ws₂.Perm ws → c.applyAll ws₁ = c.applyAll ws₂) ↔
      ∀ vs₁ vs₂, vs₁.Perm (ws.map Weight.value) → vs₂.Perm (ws.map Weight.value) →
        Saturation.addAll 0 100 c.value vs₁ = Saturation.addAll 0 100 c.value vs₂ := by
    have hlift : ∀ vs : List ℤ, vs.Perm (ws.map Weight.value) →
        ∃ ws' : List Weight, vs = ws'.map Weight.value ∧ ws'.Perm ws := fun vs hvs =>
      (congrFun (congrFun (List.eq_map_comp_perm Weight.value) vs) ws).mpr hvs
    constructor
    · intro h vs₁ vs₂ h₁ h₂
      obtain ⟨ws₁, rfl, hws₁⟩ := hlift vs₁ h₁
      obtain ⟨ws₂, rfl, hws₂⟩ := hlift vs₂ h₂
      rw [← Confidence.applyAll_value, ← Confidence.applyAll_value, h ws₁ ws₂ hws₁ hws₂]
    · intro h ws₁ ws₂ h₁ h₂
      rw [← Confidence.value_inj, Confidence.applyAll_value, Confidence.applyAll_value]
      exact h _ _ (h₁.map _) (h₂.map _)
  rw [hfree, Saturation.orderFree_iff (by decide) (Int.natCast_nonneg _) hle]
  unfold Saturation.OrderFree
  rw [List.forall_mem_map, List.forall_mem_map]
  rfl

/-- From 90, adding 20 and taking 20 away gives 80 in one order and 90 in the other. -/
theorem confidence_order_matters :
    ¬ ∀ (c : Confidence) (ws ws₁ ws₂ : List Weight), ws₁.Perm ws → ws₂.Perm ws →
      c.applyAll ws₁ = c.applyAll ws₂ := by
  intro h
  have hsame := h ⟨90, by decide⟩ [⟨20, by decide, by decide⟩, ⟨-20, by decide, by decide⟩]
    [⟨20, by decide, by decide⟩, ⟨-20, by decide, by decide⟩]
    [⟨-20, by decide, by decide⟩, ⟨20, by decide, by decide⟩] (.refl _) (.swap _ _ _)
  exact absurd hsame (by decide)

end Adgl
