import NFdl.Lib.Passage
import NFdl.Lib.Code

/-!
# Code put together from pieces

Structured code that is composed of pieces and of single instructions jumps into a piece
only at its first instruction. So a run that is found inside a piece has come to the
piece's start and has stayed in it since.
-/

namespace Structured

variable {π κ ι : Type*}

/-- The code is composed of pieces that satisfy `S` at their addresses, and of instructions that
satisfy `P`. -/
inductive Composed (S : Structured π κ → ℕ → Prop) (P : π → Prop) : Structured π κ → ℕ → Prop
  | piece {c base} : S c base → Composed S P c base
  | nil {base} : Composed S P .nil base
  | instr {p base} : P p → Composed S P (.instr p) base
  | seq {a b base} : Composed S P a base → Composed S P b (base + a.length) →
      Composed S P (.seq a b) base
  | skip {cond body base} : Composed S P body (base + 1) → Composed S P (.skip cond body) base
  | choose {cond a b base} : Composed S P a (base + 1) → Composed S P b (base + a.length + 2) →
      Composed S P (.choose cond a b) base
  | loop {head cond body base} : Composed S P head base →
      Composed S P body (base + head.length + 1) → Composed S P (.loop head cond body) base

/-- `target` finds where a jump of the instruction set goes. -/
structure Targets (forms : JumpForms π κ ι) (target : ι → Option ℕ) : Prop where
  plain : ∀ p, target (forms.plain p) = none
  jump : ∀ t, target (forms.jump t) = some t
  branch : ∀ cond t, target (forms.branch cond t) = some t

section Laid

variable {forms : JumpForms π κ ι} {target : ι → Option ℕ} {program : List ι}
  {c : Structured π κ} {base k t : ℕ} {i : ι}

theorem Targets.of_jump {t' : ℕ} (htarget : Targets forms target)
    (h : program[k]? = some (forms.jump t')) (hi : program[k]? = some i) (ht : target i = some t) :
    t' = t := by
  rw [Option.some.inj (hi.symm.trans h), htarget.jump] at ht
  exact Option.some.inj ht

theorem Targets.of_branch {cond : κ} {t' : ℕ} (htarget : Targets forms target)
    (h : program[k]? = some (forms.branch cond t')) (hi : program[k]? = some i)
    (ht : target i = some t) : t' = t := by
  rw [Option.some.inj (hi.symm.trans h), htarget.branch] at ht
  exact Option.some.inj ht

theorem Targets.jump_ne_none {t' : ℕ} (htarget : Targets forms target)
    (h : program[k]? = some (forms.jump t')) (hi : program[k]? = some i) : target i ≠ none := by
  rw [Option.some.inj (hi.symm.trans h), htarget.jump]
  exact Option.some_ne_none t'

theorem Targets.branch_ne_none {cond : κ} {t' : ℕ} (htarget : Targets forms target)
    (h : program[k]? = some (forms.branch cond t')) (hi : program[k]? = some i) :
    target i ≠ none := by
  rw [Option.some.inj (hi.symm.trans h), htarget.branch]
  exact Option.some_ne_none t'

/-- The jumps of code that is laid out stay in it, or go right behind it. -/
theorem Laid.target_bounds (htarget : Targets forms target) (h : c.Laid forms program base)
    (hk : base ≤ k ∧ k < base + c.length) (hi : program[k]? = some i) (ht : target i = some t) :
    base ≤ t ∧ t ≤ base + c.length := by
  induction c generalizing base with
  | nil =>
      rw [length_nil] at hk
      omega
  | instr p =>
      rw [length_instr] at hk
      obtain rfl : k = base := by omega
      rw [Option.some.inj (hi.symm.trans h), htarget.plain] at ht
      cases ht
  | seq a b iha ihb =>
      rw [length_seq] at hk ⊢
      by_cases hka : k < base + a.length
      · have hbounds := iha h.1 ⟨hk.1, hka⟩
        omega
      · have hbounds := ihb h.2 (by omega)
        omega
  | skip cond body ih =>
      rw [length_skip] at hk ⊢
      by_cases hhead : k = base
      · subst hhead
        have htargets := htarget.of_branch h.1 hi ht
        omega
      · have hbounds := ih h.2 (by omega)
        omega
  | choose cond a b iha ihb =>
      obtain ⟨hhead, ha, hclose, hb⟩ := h
      rw [length_choose] at hk ⊢
      by_cases hbase : k = base
      · subst hbase
        have htargets := htarget.of_branch hhead hi ht
        omega
      by_cases hka : k < base + 1 + a.length
      · have hbounds := iha ha (by omega)
        omega
      by_cases hend : k = base + 1 + a.length
      · subst hend
        have htargets := htarget.of_jump hclose hi ht
        omega
      · have hbounds := ihb hb (by omega)
        omega
  | loop head cond body ihh ihb =>
      obtain ⟨hh, hexit, hb, hclose⟩ := h
      rw [length_loop] at hk ⊢
      by_cases hkh : k < base + head.length
      · have hbounds := ihh hh (by omega)
        omega
      by_cases hbranches : k = base + head.length
      · subst hbranches
        have htargets := htarget.of_branch hexit hi ht
        omega
      by_cases hkb : k < base + head.length + 1 + body.length
      · have hbounds := ihb hb (by omega)
        omega
      · obtain rfl : k = base + head.length + 1 + body.length := by omega
        have htargets := htarget.of_jump hclose hi ht
        omega

/-- The program has the intended layout of code that is laid out in it. -/
theorem Laid.blockAt (h : c.Laid forms program base) :
    BlockAt program base (c.assemble forms id base) := by
  induction c generalizing base with
  | nil => exact List.nil_prefix
  | instr p => exact BlockAt.singleton_iff.mpr h
  | seq a b iha ihb =>
      refine BlockAt.append_iff.mpr ⟨iha h.1, ?_⟩
      rw [assemble_length]
      exact ihb h.2
  | skip cond body ih => exact BlockAt.cons_iff.mpr ⟨h.1, ih h.2⟩
  | choose cond a b iha ihb =>
      obtain ⟨hhead, ha, hclose, hb⟩ := h
      refine BlockAt.cons_iff.mpr ⟨hhead, BlockAt.append_iff.mpr ⟨iha ha, ?_⟩⟩
      have haddress : base + 1 + a.length + 1 = base + a.length + 2 := by omega
      rw [assemble_length]
      refine BlockAt.cons_iff.mpr ⟨hclose, ?_⟩
      rw [haddress]
      exact ihb hb
  | loop head cond body ihh ihb =>
      obtain ⟨hh, hexit, hb, hclose⟩ := h
      refine BlockAt.append_iff.mpr ⟨ihh hh, ?_⟩
      rw [assemble_length]
      refine BlockAt.cons_iff.mpr ⟨hexit, BlockAt.append_iff.mpr ⟨ihb hb, ?_⟩⟩
      rw [assemble_length]
      exact BlockAt.singleton_iff.mpr hclose

/-- Jumps from the addresses between `base` and `stop` go strictly between `start` and `behind`
only from there. -/
def EnteredAtStart (target : ι → Option ℕ) (program : List ι) (base stop start behind : ℕ) : Prop :=
  ∀ k i t, base ≤ k ∧ k < stop → program[k]? = some i → target i = some t →
    start < t ∧ t < behind → start ≤ k ∧ k < behind

/-- Code around a part does not jump strictly into the part. -/
theorem EnteredAtStart.extend {base' stop stop' start behind : ℕ}
    (h : EnteredAtStart target program base stop start behind)
    (hpart : base ≤ start ∧ behind ≤ stop)
    (hout : ∀ k i t, base' ≤ k ∧ k < stop' → ¬ (base ≤ k ∧ k < stop) → program[k]? = some i →
      target i = some t → t ≤ base ∨ stop ≤ t) :
    EnteredAtStart target program base' stop' start behind := by
  intro k i t hk hi ht hin
  by_cases hkin : base ≤ k ∧ k < stop
  · exact h k i t hkin hi ht hin
  · have houtside := hout k i t hk hkin hi ht
    omega

/-- The instruction stands in a piece of the code, which is entered at its start only. -/
def InPiece (S : Structured π κ → ℕ → Prop) (forms : JumpForms π κ ι) (target : ι → Option ℕ)
    (program : List ι) (base stop k : ℕ) : Prop :=
  ∃ a start, S a start ∧ a.Laid forms program start ∧
    (base ≤ start ∧ start + a.length ≤ stop) ∧ (start ≤ k ∧ k < start + a.length) ∧
      EnteredAtStart target program base stop start (start + a.length)

theorem InPiece.extend {S : Structured π κ → ℕ → Prop} {base' stop stop' : ℕ}
    (h : InPiece S forms target program base stop k) (hpart : base' ≤ base ∧ stop ≤ stop')
    (hout : ∀ k i t, base' ≤ k ∧ k < stop' → ¬ (base ≤ k ∧ k < stop) → program[k]? = some i →
      target i = some t → t ≤ base ∨ stop ≤ t) :
    InPiece S forms target program base' stop' k := by
  obtain ⟨a, start, ha, hlaid, hwithin, hk, hentered⟩ := h
  exact ⟨a, start, ha, hlaid, by omega, hk, hentered.extend hwithin hout⟩

variable {S : Structured π κ → ℕ → Prop} {P : π → Prop}

/-- The instruction is a jump, or a single instruction that satisfies `P`, or in a piece. -/
def Accounted (S : Structured π κ → ℕ → Prop) (P : π → Prop) (forms : JumpForms π κ ι)
    (target : ι → Option ℕ) (program : List ι) (base stop k : ℕ) (i : ι) : Prop :=
  target i ≠ none ∨ (∃ p, P p ∧ i = forms.plain p) ∨ InPiece S forms target program base stop k

theorem Accounted.extend {base' stop stop' : ℕ}
    (h : Accounted S P forms target program base stop k i)
    (hpart : base' ≤ base ∧ stop ≤ stop')
    (hout : ∀ k i t, base' ≤ k ∧ k < stop' → ¬ (base ≤ k ∧ k < stop) → program[k]? = some i →
      target i = some t → t ≤ base ∨ stop ≤ t) :
    Accounted S P forms target program base' stop' k i :=
  h.imp_right (.imp_right fun hin => hin.extend hpart hout)

/-- An instruction of composed code is accounted for. -/
theorem Composed.accounted (htarget : Targets forms target) (h : Composed S P c base)
    (hlaid : c.Laid forms program base) (hk : base ≤ k ∧ k < base + c.length)
    (hi : program[k]? = some i) :
    Accounted S P forms target program base (base + c.length) k i := by
  induction h with
  | @piece c base hS =>
      exact .inr (.inr ⟨c, base, hS, hlaid, ⟨Nat.le_refl _, Nat.le_refl _⟩, hk,
        fun k i t hk _ _ _ => hk⟩)
  | nil =>
      rw [length_nil] at hk
      omega
  | @instr p base hp =>
      rw [length_instr] at hk
      obtain rfl : k = base := by omega
      exact .inr (.inl ⟨p, hp, Option.some.inj (hi.symm.trans hlaid)⟩)
  | @seq a b base ha hb iha ihb =>
      obtain ⟨hlaida, hlaidb⟩ := hlaid
      rw [length_seq] at hk ⊢
      by_cases hka : k < base + a.length
      · refine (iha hlaida ⟨hk.1, hka⟩).extend (by omega) fun k' i' t hk' hout hi' ht => .inr ?_
        exact (hlaidb.target_bounds htarget (by omega) hi' ht).1
      · refine (ihb hlaidb (by omega)).extend (by omega) fun k' i' t hk' hout hi' ht => .inl ?_
        exact (hlaida.target_bounds htarget (by omega) hi' ht).2
  | @skip cond body base hbody ih =>
      obtain ⟨hhead, hlaidb⟩ := hlaid
      rw [length_skip] at hk ⊢
      by_cases hbase : k = base
      · subst hbase
        exact .inl (htarget.branch_ne_none hhead hi)
      · refine (ih hlaidb (by omega)).extend (by omega) fun k' i' t hk' hout hi' ht => .inr ?_
        obtain rfl : k' = base := by omega
        have ht' := htarget.of_branch hhead hi' ht
        omega
  | @choose cond a b base ha hb iha ihb =>
      obtain ⟨hhead, hlaida, hclose, hlaidb⟩ := hlaid
      rw [length_choose] at hk ⊢
      by_cases hbase : k = base
      · subst hbase
        exact .inl (htarget.branch_ne_none hhead hi)
      by_cases hka : k < base + 1 + a.length
      · refine (iha hlaida (by omega)).extend (by omega) fun k' i' t hk' hout hi' ht => .inr ?_
        by_cases hk₁ : k' = base
        · subst hk₁
          have ht' := htarget.of_branch hhead hi' ht
          omega
        by_cases hk₂ : k' = base + 1 + a.length
        · subst hk₂
          have ht' := htarget.of_jump hclose hi' ht
          omega
        · have hbounds := hlaidb.target_bounds htarget (by omega) hi' ht
          omega
      by_cases hend : k = base + 1 + a.length
      · subst hend
        exact .inl (htarget.jump_ne_none hclose hi)
      · refine (ihb hlaidb (by omega)).extend (by omega) fun k' i' t hk' hout hi' ht => ?_
        by_cases hk₁ : k' = base
        · subst hk₁
          have ht' := htarget.of_branch hhead hi' ht
          omega
        by_cases hk₂ : k' = base + 1 + a.length
        · subst hk₂
          have ht' := htarget.of_jump hclose hi' ht
          omega
        · have hbounds := hlaida.target_bounds htarget (by omega) hi' ht
          omega
  | @loop head cond body base hhead hbody ihh ihb =>
      obtain ⟨hlaidh, hexit, hlaidb, hclose⟩ := hlaid
      rw [length_loop] at hk ⊢
      by_cases hkh : k < base + head.length
      · refine (ihh hlaidh (by omega)).extend (by omega) fun k' i' t hk' hout hi' ht => ?_
        by_cases hk₁ : k' = base + head.length
        · subst hk₁
          have ht' := htarget.of_branch hexit hi' ht
          omega
        by_cases hk₂ : k' = base + head.length + 1 + body.length
        · subst hk₂
          have ht' := htarget.of_jump hclose hi' ht
          omega
        · have hbounds := hlaidb.target_bounds htarget (by omega) hi' ht
          omega
      by_cases hbranches : k = base + head.length
      · subst hbranches
        exact .inl (htarget.branch_ne_none hexit hi)
      by_cases hkb : k < base + head.length + 1 + body.length
      · refine (ihb hlaidb (by omega)).extend (by omega) fun k' i' t hk' hout hi' ht => ?_
        by_cases hk₁ : k' = base + head.length
        · subst hk₁
          have ht' := htarget.of_branch hexit hi' ht
          omega
        by_cases hk₂ : k' = base + head.length + 1 + body.length
        · subst hk₂
          have ht' := htarget.of_jump hclose hi' ht
          omega
        · have hbounds := hlaidh.target_bounds htarget (by omega) hi' ht
          omega
      · obtain rfl : k = base + head.length + 1 + body.length := by omega
        exact .inl (htarget.jump_ne_none hclose hi)

end Laid

section Runs

variable {σ : Type*} {ip : σ → ℕ} {run : ℕ → σ} {n start behind : ℕ}

/-- A run that comes into a region through its start only, and is found in the region, has come to
the start and stayed since. -/
theorem run_entered (hfirst : ip (run 0) ≤ start ∨ behind ≤ ip (run 0))
    (hstep : ∀ i < n, start < ip (run (i + 1)) ∧ ip (run (i + 1)) < behind →
      start ≤ ip (run i) ∧ ip (run i) < behind)
    {i : ℕ} (hi : i ≤ n) (hin : start ≤ ip (run i) ∧ ip (run i) < behind) :
    ∃ m ≤ i, ip (run m) = start ∧
      ∀ l, m ≤ l → l ≤ i → start ≤ ip (run l) ∧ ip (run l) < behind := by
  induction i with
  | zero =>
      refine ⟨0, Nat.le_refl 0, by omega, fun l _ hl => ?_⟩
      obtain rfl : l = 0 := by omega
      exact hin
  | succ i ih =>
      by_cases hstart : ip (run (i + 1)) = start
      · refine ⟨i + 1, Nat.le_refl _, hstart, fun l hml hl => ?_⟩
        obtain rfl : l = i + 1 := by omega
        exact hin
      · have hbefore := hstep i (by omega) (by omega)
        obtain ⟨m, hm, hmstart, hstays⟩ := ih (by omega) hbefore
        refine ⟨m, by omega, hmstart, fun l hml hl => ?_⟩
        by_cases hlast : l = i + 1
        · exact hlast ▸ hin
        · exact hstays l hml (by omega)

end Runs

end Structured
