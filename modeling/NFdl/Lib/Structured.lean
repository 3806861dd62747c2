import Mathlib.Data.List.Basic
import Mathlib.Tactic.Tauto
import Mathlib.Tactic.TypeStar

/-!
# Structured code and its layout

Code with forward branches and loops before its jumps are resolved. `assemble`
lays it out at an address, and a label function says how a jump stores the
address it is meant for. With exact labels every jump lands where the structure
of the code puts it; other labels give the same layout exactly when they are
exact on the addresses that the code jumps to.
-/

/-- Code over instructions `π` that are no jumps. A condition is what a conditional
jump tests; it jumps when the test fails. -/
inductive Structured (π κ : Type*) where
  | nil
  | instr (p : π)
  | seq (a b : Structured π κ)
  /-- Run the body unless the test fails. -/
  | skip (cond : κ) (body : Structured π κ)
  | choose (cond : κ) (thenCode elseCode : Structured π κ)
  /-- Run the head and, unless the test fails then, the body and the loop again. -/
  | loop (head : Structured π κ) (cond : κ) (body : Structured π κ)

/-- An instruction set `ι` with jumps, each of which stores its target. -/
structure JumpForms (π κ ι : Type*) where
  plain : π → ι
  jump : Nat → ι
  branch : κ → Nat → ι
  jump_inj : ∀ {t t'}, jump t = jump t' → t = t'
  branch_inj : ∀ {c t t'}, branch c t = branch c t' → t = t'

namespace Structured

variable {π κ ι : Type*}

/-- How many instructions the code has. -/
def length : Structured π κ → Nat
  | .nil => 0
  | .instr _ => 1
  | .seq a b => a.length + b.length
  | .skip _ body => body.length + 1
  | .choose _ thenCode elseCode => thenCode.length + elseCode.length + 2
  | .loop head _ body => head.length + body.length + 2

@[simp] theorem length_nil : (nil : Structured π κ).length = 0 := rfl
@[simp] theorem length_instr (p : π) : (instr p : Structured π κ).length = 1 := rfl
@[simp] theorem length_seq (a b : Structured π κ) : (a.seq b).length = a.length + b.length := rfl
@[simp] theorem length_skip (cond : κ) (body : Structured π κ) :
    (skip cond body).length = body.length + 1 := rfl
@[simp] theorem length_choose (cond : κ) (a b : Structured π κ) :
    (choose cond a b).length = a.length + b.length + 2 := rfl
@[simp] theorem length_loop (head : Structured π κ) (cond : κ) (body : Structured π κ) :
    (loop head cond body).length = head.length + body.length + 2 := rfl

/-- The instructions of the code at address `base`. -/
def assemble (forms : JumpForms π κ ι) (label : Nat → Nat) : Structured π κ → Nat → List ι
  | .nil, _ => []
  | .instr p, _ => [forms.plain p]
  | .seq a b, base => a.assemble forms label base ++ b.assemble forms label (base + a.length)
  | .skip cond body, base =>
      forms.branch cond (label (base + body.length + 1)) :: body.assemble forms label (base + 1)
  | .choose cond thenCode elseCode, base =>
      forms.branch cond (label (base + thenCode.length + 2)) ::
        (thenCode.assemble forms label (base + 1) ++
          forms.jump (label (base + thenCode.length + elseCode.length + 2)) ::
            elseCode.assemble forms label (base + thenCode.length + 2))
  | .loop head cond body, base =>
      head.assemble forms label base ++
        forms.branch cond (label (base + head.length + body.length + 2)) ::
          (body.assemble forms label (base + head.length + 1) ++ [forms.jump (label base)])

/-- The addresses that the jumps of the code are meant for. -/
def targets : Structured π κ → Nat → List Nat
  | .nil, _ | .instr _, _ => []
  | .seq a b, base => a.targets base ++ b.targets (base + a.length)
  | .skip _ body, base => (base + body.length + 1) :: body.targets (base + 1)
  | .choose _ thenCode elseCode, base =>
      (base + thenCode.length + 2) :: (base + thenCode.length + elseCode.length + 2) ::
        (thenCode.targets (base + 1) ++ elseCode.targets (base + thenCode.length + 2))
  | .loop head _ body, base =>
      base :: (base + head.length + body.length + 2) ::
        (head.targets base ++ body.targets (base + head.length + 1))

section Assemble

variable (forms : JumpForms π κ ι) (label : Nat → Nat)

@[simp] theorem assemble_length (c : Structured π κ) (base : Nat) :
    (c.assemble forms label base).length = c.length := by
  induction c generalizing base with
  | nil => rfl
  | instr p => rfl
  | seq a b iha ihb => rw [assemble, List.length_append, iha, ihb, length_seq]
  | skip cond body ih => rw [assemble, List.length_cons, ih, length_skip]
  | choose cond a b iha ihb =>
      rw [assemble, List.length_cons, List.length_append, List.length_cons, iha, ihb, length_choose]
      omega
  | loop head cond body ihh ihb =>
      rw [assemble, List.length_append, List.length_cons, List.length_append, ihh, ihb,
        List.length_singleton, length_loop]
      omega

/-- An instruction of the layout is no jump, or it is a jump to a label. -/
theorem mem_assemble {c : Structured π κ} {base : Nat} {i : ι}
    (h : i ∈ c.assemble forms label base) :
    (∃ p, i = forms.plain p) ∨ ∃ t ∈ c.targets base,
      i = forms.jump (label t) ∨ ∃ cond, i = forms.branch cond (label t) := by
  induction c generalizing base with
  | nil => cases h
  | instr p => exact .inl ⟨p, List.mem_singleton.mp h⟩
  | seq a b iha ihb =>
      obtain h | h := List.mem_append.mp h
      · obtain h | ⟨t, ht, hi⟩ := iha h
        · exact .inl h
        · exact .inr ⟨t, List.mem_append_left _ ht, hi⟩
      · obtain h | ⟨t, ht, hi⟩ := ihb h
        · exact .inl h
        · exact .inr ⟨t, List.mem_append_right _ ht, hi⟩
  | skip cond body ih =>
      obtain rfl | h := List.mem_cons.mp h
      · exact .inr ⟨_, List.mem_cons_self .., .inr ⟨cond, rfl⟩⟩
      · obtain h | ⟨t, ht, hi⟩ := ih h
        · exact .inl h
        · exact .inr ⟨t, List.mem_cons_of_mem _ ht, hi⟩
  | choose cond a b iha ihb =>
      have hcover : ∀ t ∈ a.targets (base + 1) ++ b.targets (base + a.length + 2),
          t ∈ (choose cond a b).targets base := fun t ht =>
        List.mem_cons_of_mem _ (List.mem_cons_of_mem _ ht)
      obtain rfl | h := List.mem_cons.mp h
      · exact .inr ⟨_, List.mem_cons_self .., .inr ⟨cond, rfl⟩⟩
      obtain h | h := List.mem_append.mp h
      · obtain h | ⟨t, ht, hi⟩ := iha h
        · exact .inl h
        · exact .inr ⟨t, hcover t (List.mem_append_left _ ht), hi⟩
      obtain rfl | h := List.mem_cons.mp h
      · exact .inr ⟨_, List.mem_cons_of_mem _ (List.mem_cons_self ..), .inl rfl⟩
      · obtain h | ⟨t, ht, hi⟩ := ihb h
        · exact .inl h
        · exact .inr ⟨t, hcover t (List.mem_append_right _ ht), hi⟩
  | loop head cond body ihh ihb =>
      have hcover : ∀ t ∈ head.targets base ++ body.targets (base + head.length + 1),
          t ∈ (loop head cond body).targets base := fun t ht =>
        List.mem_cons_of_mem _ (List.mem_cons_of_mem _ ht)
      obtain h | h := List.mem_append.mp h
      · obtain h | ⟨t, ht, hi⟩ := ihh h
        · exact .inl h
        · exact .inr ⟨t, hcover t (List.mem_append_left _ ht), hi⟩
      obtain rfl | h := List.mem_cons.mp h
      · exact .inr ⟨_, List.mem_cons_of_mem _ (List.mem_cons_self ..), .inr ⟨cond, rfl⟩⟩
      obtain h | h := List.mem_append.mp h
      · obtain h | ⟨t, ht, hi⟩ := ihb h
        · exact .inl h
        · exact .inr ⟨t, hcover t (List.mem_append_right _ ht), hi⟩
      · exact .inr ⟨base, List.mem_cons_self .., .inl (List.mem_singleton.mp h)⟩

end Assemble

/-- Code jumps only to addresses of its own, or to the one behind it. -/
theorem targets_bounds {c : Structured π κ} {base t : Nat} (h : t ∈ c.targets base) :
    base ≤ t ∧ t ≤ base + c.length := by
  induction c generalizing base with
  | nil => cases h
  | instr p => cases h
  | seq a b iha ihb =>
      rw [length_seq]
      obtain h | h := List.mem_append.mp h
      · have hbounds := iha h
        omega
      · have hbounds := ihb h
        omega
  | skip cond body ih =>
      rw [length_skip]
      obtain rfl | h := List.mem_cons.mp h
      · omega
      · have hbounds := ih h
        omega
  | choose cond a b iha ihb =>
      rw [length_choose]
      obtain rfl | h := List.mem_cons.mp h
      · omega
      obtain rfl | h := List.mem_cons.mp h
      · omega
      obtain h | h := List.mem_append.mp h
      · have hbounds := iha h
        omega
      · have hbounds := ihb h
        omega
  | loop head cond body ihh ihb =>
      rw [length_loop]
      obtain rfl | h := List.mem_cons.mp h
      · omega
      obtain rfl | h := List.mem_cons.mp h
      · omega
      obtain h | h := List.mem_append.mp h
      · have hbounds := ihh h
        omega
      · have hbounds := ihb h
        omega

section Exact

variable {forms : JumpForms π κ ι} {label : Nat → Nat}

theorem append_eq_append_iff {a a' b b' : List ι} (h : a.length = a'.length) :
    a ++ b = a' ++ b' ↔ a = a' ∧ b = b' := by
  refine ⟨fun heq => List.append_inj heq h, ?_⟩
  rintro ⟨rfl, rfl⟩
  rfl

theorem branch_eq_iff {cond : κ} {t t' : Nat} : forms.branch cond t = forms.branch cond t' ↔ t = t' :=
  ⟨forms.branch_inj, fun h => by rw [h]⟩

theorem jump_eq_iff {t t' : Nat} : forms.jump t = forms.jump t' ↔ t = t' :=
  ⟨forms.jump_inj, fun h => by rw [h]⟩

/-- The layout is the intended one exactly when every label that it needs is exact. -/
theorem assemble_eq_iff (c : Structured π κ) (base : Nat) :
    c.assemble forms label base = c.assemble forms id base ↔
      ∀ t ∈ c.targets base, label t = t := by
  induction c generalizing base with
  | nil => simp [assemble, targets]
  | instr p => simp [assemble, targets]
  | seq a b iha ihb =>
      simp only [assemble, targets, List.forall_mem_append]
      rw [append_eq_append_iff (by simp), iha, ihb]
  | skip cond body ih =>
      simp only [assemble, targets, List.forall_mem_cons, List.cons.injEq, id]
      rw [branch_eq_iff, ih]
  | choose cond a b iha ihb =>
      simp only [assemble, targets, List.forall_mem_cons, List.forall_mem_append, List.cons.injEq, id]
      rw [branch_eq_iff, append_eq_append_iff (by simp), List.cons.injEq, jump_eq_iff, iha, ihb]
      tauto
  | loop head cond body ihh ihb =>
      simp only [assemble, targets, List.forall_mem_cons, List.forall_mem_append, id]
      rw [append_eq_append_iff (by simp), List.cons.injEq, branch_eq_iff,
        append_eq_append_iff (by simp), List.cons.injEq, jump_eq_iff, ihh, ihb]
      tauto

end Exact

section All

variable {forms : JumpForms π κ ι} {label : Nat → Nat} {P Q : π → Prop}

/-- Every instruction of the code that is no jump satisfies `P`. -/
def All (P : π → Prop) : Structured π κ → Prop
  | .nil => True
  | .instr p => P p
  | .seq a b => a.All P ∧ b.All P
  | .skip _ body => body.All P
  | .choose _ thenCode elseCode => thenCode.All P ∧ elseCode.All P
  | .loop head _ body => head.All P ∧ body.All P

theorem All.mono {c : Structured π κ} (h : c.All P) (himp : ∀ p, P p → Q p) : c.All Q := by
  induction c with
  | nil => trivial
  | instr p => exact himp p h
  | seq a b iha ihb => exact ⟨iha h.1, ihb h.2⟩
  | skip cond body ih => exact ih h
  | choose cond a b iha ihb => exact ⟨iha h.1, ihb h.2⟩
  | loop head cond body ihh ihb => exact ⟨ihh h.1, ihb h.2⟩

/-- An instruction of the layout is a jump or satisfies `P`. -/
theorem All.of_mem {c : Structured π κ} (h : c.All P) {base : Nat} {i : ι}
    (hi : i ∈ c.assemble forms label base) :
    (∃ p, P p ∧ i = forms.plain p) ∨ (∃ t, i = forms.jump t) ∨ ∃ cond t, i = forms.branch cond t := by
  induction c generalizing base with
  | nil => cases hi
  | instr p => exact .inl ⟨p, h, List.mem_singleton.mp hi⟩
  | seq a b iha ihb =>
      obtain hi | hi := List.mem_append.mp hi
      · exact iha h.1 hi
      · exact ihb h.2 hi
  | skip cond body ih =>
      obtain rfl | hi := List.mem_cons.mp hi
      · exact .inr (.inr ⟨cond, _, rfl⟩)
      · exact ih h hi
  | choose cond a b iha ihb =>
      obtain rfl | hi := List.mem_cons.mp hi
      · exact .inr (.inr ⟨cond, _, rfl⟩)
      obtain hi | hi := List.mem_append.mp hi
      · exact iha h.1 hi
      obtain rfl | hi := List.mem_cons.mp hi
      · exact .inr (.inl ⟨_, rfl⟩)
      · exact ihb h.2 hi
  | loop head cond body ihh ihb =>
      obtain hi | hi := List.mem_append.mp hi
      · exact ihh h.1 hi
      obtain rfl | hi := List.mem_cons.mp hi
      · exact .inr (.inr ⟨cond, _, rfl⟩)
      obtain hi | hi := List.mem_append.mp hi
      · exact ihb h.2 hi
      · exact .inr (.inl ⟨_, List.mem_singleton.mp hi⟩)

end All

end Structured
