import Mathlib.Data.List.Basic
import Mathlib.Tactic.TypeStar

/-!
# Runs along a list of inputs

The state after a list of inputs is the left fold of the step function. `Always`
says that a property holds in every state of such a run, and `Along` that every
input meets a condition in the state in which it arrives.
-/

namespace Inputs

variable {σ ι : Type*} {step : σ → ι → σ} {P P' : σ → ι → Prop} {Q : σ → Prop}

/-- The property holds in every state that the run passes through. -/
def Always (step : σ → ι → σ) (Q : σ → Prop) (s : σ) (inputs : List ι) : Prop :=
  ∀ taken, taken <+: inputs → Q (taken.foldl step s)

/-- Every input meets the condition in the state in which it arrives. -/
def Along (step : σ → ι → σ) (P : σ → ι → Prop) : σ → List ι → Prop
  | _, [] => True
  | s, i :: rest => P s i ∧ Along step P (step s i) rest

instance Along.decidable [∀ s i, Decidable (P s i)] :
    ∀ s inputs, Decidable (Along step P s inputs)
  | _, [] => .isTrue trivial
  | s, i :: rest =>
      have := Along.decidable (step s i) rest
      inferInstanceAs (Decidable (P s i ∧ Along step P (step s i) rest))

@[simp] theorem along_nil (s : σ) : Along step P s [] := trivial

@[simp] theorem along_cons {s : σ} {i : ι} {rest : List ι} :
    Along step P s (i :: rest) ↔ P s i ∧ Along step P (step s i) rest := Iff.rfl

@[simp] theorem always_nil {s : σ} : Always step Q s [] ↔ Q s := by
  refine ⟨fun h => h [] (List.prefix_refl _), fun h taken htaken => ?_⟩
  obtain rfl := List.prefix_nil.mp htaken
  exact h

@[simp] theorem always_cons {s : σ} {i : ι} {rest : List ι} :
    Always step Q s (i :: rest) ↔ Q s ∧ Always step Q (step s i) rest := by
  refine ⟨fun h => ⟨h [] (List.nil_prefix ..), fun taken htaken => ?_⟩,
    fun ⟨hs, h⟩ taken htaken => ?_⟩
  · exact h (i :: taken) (List.cons_prefix_cons.mpr ⟨rfl, htaken⟩)
  · cases taken with
    | nil => exact hs
    | cons j taken =>
        obtain ⟨rfl, htail⟩ := List.cons_prefix_cons.mp htaken
        exact h taken htail

/-- What every step preserves holds at the end of a run. -/
theorem foldl_invariant (hstep : ∀ s i, Q s → Q (step s i)) {s : σ} (hs : Q s)
    (inputs : List ι) : Q (inputs.foldl step s) := by
  induction inputs generalizing s with
  | nil => exact hs
  | cons i rest ih => exact ih (hstep s i hs)

/-- What every step that has a result preserves holds at the end of a run that has
one. -/
theorem foldlM_invariant {step : σ → ι → Option σ} (hstep : ∀ s i s', Q s → step s i = some s' → Q s')
    {s s' : σ} (hs : Q s) {inputs : List ι} (h : inputs.foldlM step s = some s') : Q s' := by
  induction inputs generalizing s with
  | nil => exact Option.some.inj h ▸ hs
  | cons i rest ih =>
      rw [List.foldlM_cons] at h
      obtain ⟨s₁, hs₁, h⟩ := Option.bind_eq_some_iff.mp h
      exact ih (hstep s i s₁ hs hs₁) h

/-- Where the condition says whether a step preserves the property, a run keeps
the property throughout exactly if all its inputs meet the condition. -/
theorem always_iff_along (hstep : ∀ s i, Q s → (Q (step s i) ↔ P s i)) {s : σ} (hs : Q s)
    (inputs : List ι) : Always step Q s inputs ↔ Along step P s inputs := by
  induction inputs generalizing s with
  | nil => simpa using hs
  | cons i rest ih =>
      rw [always_cons, along_cons]
      constructor
      · rintro ⟨_, h⟩
        have hnext : Q (step s i) := h [] (List.nil_prefix ..)
        exact ⟨(hstep s i hs).mp hnext, (ih hnext).mp h⟩
      · rintro ⟨hP, h⟩
        exact ⟨hs, (ih ((hstep s i hs).mpr hP)).mpr h⟩

/-! ### Outputs -/

variable {ω : Type*}

/-- What the steps of a run give out, in order. -/
def outputs (step : σ → ι → σ) (out : σ → ι → List ω) : σ → List ι → List ω
  | _, [] => []
  | s, i :: rest => out s i ++ outputs step out (step s i) rest

theorem outputs_append {out : σ → ι → List ω} {s : σ} {inputs inputs' : List ι} :
    outputs step out s (inputs ++ inputs') =
      outputs step out s inputs ++ outputs step out (inputs.foldl step s) inputs' := by
  induction inputs generalizing s with
  | nil => rfl
  | cons i rest ih =>
      rw [List.cons_append, outputs, outputs, ih, List.append_assoc]
      rfl

/-- A relation between what was given out and the state, kept by every step under
the condition, holds at the end of a run whose inputs meet the condition. -/
theorem Along.outputs_invariant {out : σ → ι → List ω} {R : List ω → σ → Prop}
    (hstep : ∀ given s i, R given s → P s i → R (given ++ out s i) (step s i))
    {given : List ω} {s : σ} (hs : R given s) {inputs : List ι} (h : Along step P s inputs) :
    R (given ++ outputs step out s inputs) (inputs.foldl step s) := by
  induction inputs generalizing s given with
  | nil => simpa [outputs] using hs
  | cons i rest ih =>
      have hnext := ih (hstep given s i hs h.1) h.2
      rwa [List.append_assoc] at hnext

theorem along_true {s : σ} {inputs : List ι} : Along step (fun _ _ => True) s inputs := by
  induction inputs generalizing s with
  | nil => trivial
  | cons i rest ih => exact ⟨trivial, ih⟩

theorem Along.mono (hmono : ∀ s i, P s i → P' s i) {s : σ} {inputs : List ι}
    (h : Along step P s inputs) : Along step P' s inputs := by
  induction inputs generalizing s with
  | nil => trivial
  | cons i rest ih => exact ⟨hmono s i h.1, ih h.2⟩

theorem along_append {s : σ} {inputs inputs' : List ι} : Along step P s (inputs ++ inputs') ↔
    Along step P s inputs ∧ Along step P (inputs.foldl step s) inputs' := by
  induction inputs generalizing s with
  | nil => simp
  | cons i rest ih =>
      rw [List.cons_append, along_cons, along_cons, ih, and_assoc]
      rfl

end Inputs
