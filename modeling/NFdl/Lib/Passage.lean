import NFdl.Lib.Structured

/-!
# Passing through structured code

A `Passage` is the way that control takes through structured code, with a rule for
each form of code and no addresses of jumps. A run that starts at the layout of a
piece of code and ends outside of it has such a passage: it leaves the code behind
its last instruction.
-/

/-- What the steps of a machine do: at an instruction that is no jump, at a conditional
jump whose test succeeds or fails, and at a jump. -/
structure Moves (π κ σ : Type*) where
  does : π → σ → σ → Prop
  enters : κ → σ → σ → Prop
  leaves : κ → σ → σ → Prop
  jumps : σ → σ → Prop

namespace Moves

variable {π κ σ : Type*}

/-- The moves from the states in `P`. -/
def among (moves : Moves π κ σ) (P : σ → Prop) : Moves π κ σ where
  does p s t := P s ∧ moves.does p s t
  enters cond s t := P s ∧ moves.enters cond s t
  leaves cond s t := P s ∧ moves.leaves cond s t
  jumps s t := P s ∧ moves.jumps s t

/-- Every move of the first machine is one of the second. -/
structure Le (moves moves' : Moves π κ σ) : Prop where
  does : ∀ p s t, moves.does p s t → moves'.does p s t
  enters : ∀ cond s t, moves.enters cond s t → moves'.enters cond s t
  leaves : ∀ cond s t, moves.leaves cond s t → moves'.leaves cond s t
  jumps : ∀ s t, moves.jumps s t → moves'.jumps s t

theorem among_le (moves : Moves π κ σ) (P : σ → Prop) : (moves.among P).Le moves :=
  ⟨fun _ _ _ h => h.2, fun _ _ _ h => h.2, fun _ _ _ h => h.2, fun _ _ h => h.2⟩

end Moves

/-- Control passes through the code laid out at an address, from one state to another. -/
inductive Passage {π κ σ : Type*} (moves : Moves π κ σ) (ip : σ → ℕ) :
    Structured π κ → ℕ → σ → σ → Prop
  | nil {base s} : ip s = base → Passage moves ip .nil base s s
  | instr {p base s t} : ip s = base → moves.does p s t → Passage moves ip (.instr p) base s t
  | seq {a b base s t u} : Passage moves ip a base s t →
      Passage moves ip b (base + a.length) t u → Passage moves ip (.seq a b) base s u
  | skipped {cond body base s t} : ip s = base → moves.leaves cond s t →
      Passage moves ip (.skip cond body) base s t
  | entered {cond body base s t u} : ip s = base → moves.enters cond s t →
      Passage moves ip body (base + 1) t u → Passage moves ip (.skip cond body) base s u
  | first {cond a b base s t u v} : ip s = base → moves.enters cond s t →
      Passage moves ip a (base + 1) t u → moves.jumps u v →
      Passage moves ip (.choose cond a b) base s v
  | second {cond a b base s t u} : ip s = base → moves.leaves cond s t →
      Passage moves ip b (base + a.length + 2) t u → Passage moves ip (.choose cond a b) base s u
  | exit {head cond body base s t u} : Passage moves ip head base s t → moves.leaves cond t u →
      Passage moves ip (.loop head cond body) base s u
  | round {head cond body base s t u v w x} : Passage moves ip head base s t →
      moves.enters cond t u → Passage moves ip body (base + head.length + 1) u v →
      moves.jumps v w → Passage moves ip (.loop head cond body) base w x →
      Passage moves ip (.loop head cond body) base s x

namespace Passage

variable {π κ σ : Type*} {moves moves' : Moves π κ σ} {ip : σ → ℕ} {a b c : Structured π κ}
  {cond : κ} {p : π} {base : ℕ} {s t : σ}

theorem start (h : Passage moves ip c base s t) : ip s = base := by
  induction h with
  | nil hip => exact hip
  | instr hip _ => exact hip
  | seq _ _ ih _ => exact ih
  | skipped hip _ => exact hip
  | entered hip _ _ _ => exact hip
  | first hip _ _ _ _ => exact hip
  | second hip _ _ _ => exact hip
  | exit _ _ ih => exact ih
  | round _ _ _ _ _ ih _ _ => exact ih

theorem eq_of_nil (h : Passage moves ip .nil base s t) : s = t := by
  cases h with
  | nil _ => rfl

theorem instr_does (h : Passage moves ip (.instr p) base s t) : moves.does p s t := by
  cases h with
  | instr _ hdoes => exact hdoes

theorem seq_cases (h : Passage moves ip (.seq a b) base s t) :
    ∃ u, Passage moves ip a base s u ∧ Passage moves ip b (base + a.length) u t := by
  cases h with
  | seq ha hb => exact ⟨_, ha, hb⟩

theorem skip_cases (h : Passage moves ip (.skip cond c) base s t) :
    moves.leaves cond s t ∨ ∃ u, moves.enters cond s u ∧ Passage moves ip c (base + 1) u t := by
  cases h with
  | skipped _ hleaves => exact .inl hleaves
  | entered _ henters hbody => exact .inr ⟨_, henters, hbody⟩

theorem choose_cases (h : Passage moves ip (.choose cond a b) base s t) :
    (∃ u v, moves.enters cond s u ∧ Passage moves ip a (base + 1) u v ∧ moves.jumps v t) ∨
      ∃ u, moves.leaves cond s u ∧ Passage moves ip b (base + a.length + 2) u t := by
  cases h with
  | first _ henters hbody hjumps => exact .inl ⟨_, _, henters, hbody, hjumps⟩
  | second _ hleaves hbody => exact .inr ⟨_, hleaves, hbody⟩

theorem mono (h : Passage moves ip c base s t) (hle : moves.Le moves') :
    Passage moves' ip c base s t := by
  induction h with
  | nil hip => exact .nil hip
  | instr hip hdoes => exact .instr hip (hle.does _ _ _ hdoes)
  | seq _ _ iha ihb => exact .seq iha ihb
  | skipped hip hleaves => exact .skipped hip (hle.leaves _ _ _ hleaves)
  | entered hip henters _ ih => exact .entered hip (hle.enters _ _ _ henters) ih
  | first hip henters _ hjumps ih =>
      exact .first hip (hle.enters _ _ _ henters) ih (hle.jumps _ _ hjumps)
  | second hip hleaves _ ih => exact .second hip (hle.leaves _ _ _ hleaves) ih
  | exit _ hleaves ih => exact .exit ih (hle.leaves _ _ _ hleaves)
  | round _ henters _ hjumps _ ihh ihb ihr =>
      exact .round ihh (hle.enters _ _ _ henters) ihb (hle.jumps _ _ hjumps) ihr

/-- Induction over the rounds of a loop. -/
theorem loop_induction {head body : Structured π κ} {Q : σ → σ → Prop}
    (h : Passage moves ip (.loop head cond body) base s t)
    (hexit : ∀ s u t, Passage moves ip head base s u → moves.leaves cond u t → Q s t)
    (hround : ∀ s u v w x t, Passage moves ip head base s u → moves.enters cond u v →
      Passage moves ip body (base + head.length + 1) v w → moves.jumps w x → Q x t → Q s t) :
    Q s t := by
  generalize hloop : Structured.loop head cond body = c at h
  induction h with
  | exit hhead hleaves _ =>
      cases hloop
      exact hexit _ _ _ hhead hleaves
  | round hhead henters hbody hjumps _ _ _ ih =>
      cases hloop
      exact hround _ _ _ _ _ _ hhead henters hbody hjumps (ih hexit hround rfl)
  | _ => cases hloop

/-- What all instructions of the code and all jumps keep is kept by a passage. -/
theorem keeps {P : π → Prop} {R : σ → σ → Prop} (h : Passage moves ip c base s t)
    (hc : c.All P) (hrefl : ∀ s, R s s) (htrans : ∀ s t u, R s t → R t u → R s u)
    (hdoes : ∀ p s t, P p → moves.does p s t → R s t)
    (henters : ∀ cond s t, moves.enters cond s t → R s t)
    (hleaves : ∀ cond s t, moves.leaves cond s t → R s t)
    (hjumps : ∀ s t, moves.jumps s t → R s t) : R s t := by
  induction h with
  | nil _ => exact hrefl _
  | instr _ h => exact hdoes _ _ _ hc h
  | seq _ _ iha ihb => exact htrans _ _ _ (iha hc.1) (ihb hc.2)
  | skipped _ h => exact hleaves _ _ _ h
  | entered _ h _ ih => exact htrans _ _ _ (henters _ _ _ h) (ih hc)
  | first _ h _ hj ih =>
      exact htrans _ _ _ (henters _ _ _ h) (htrans _ _ _ (ih hc.1) (hjumps _ _ hj))
  | second _ h _ ih => exact htrans _ _ _ (hleaves _ _ _ h) (ih hc.2)
  | exit _ h ih => exact htrans _ _ _ (ih hc.1) (hleaves _ _ _ h)
  | round _ h _ hj _ ihh ihb ihr =>
      have hround := htrans _ _ _ (henters _ _ _ h) (htrans _ _ _ (ihb hc.2) (hjumps _ _ hj))
      exact htrans _ _ _ (ihh hc.1) (htrans _ _ _ hround (ihr hc))

end Passage

namespace Structured

variable {π κ ι σ : Type*}

/-- The program has the code at address `base`, with every jump where it is meant to go. -/
def Laid (forms : JumpForms π κ ι) (program : List ι) : Structured π κ → ℕ → Prop
  | .nil, _ => True
  | .instr p, base => program[base]? = some (forms.plain p)
  | .seq a b, base => a.Laid forms program base ∧ b.Laid forms program (base + a.length)
  | .skip cond body, base =>
      program[base]? = some (forms.branch cond (base + body.length + 1)) ∧
        body.Laid forms program (base + 1)
  | .choose cond a b, base =>
      program[base]? = some (forms.branch cond (base + a.length + 2)) ∧
        a.Laid forms program (base + 1) ∧
        program[base + 1 + a.length]? = some (forms.jump (base + a.length + b.length + 2)) ∧
        b.Laid forms program (base + a.length + 2)
  | .loop head cond body, base =>
      head.Laid forms program base ∧
        program[base + head.length]? =
          some (forms.branch cond (base + head.length + body.length + 2)) ∧
        body.Laid forms program (base + head.length + 1) ∧
        program[base + head.length + 1 + body.length]? = some (forms.jump base)

/-- The program has the instructions `block` at address `base`. -/
def BlockFrom (program block : List ι) (base : ℕ) : Prop :=
  ∀ k i, block[k]? = some i → program[base + k]? = some i

theorem BlockFrom.head {program block : List ι} {i : ι} {base : ℕ}
    (h : BlockFrom program (i :: block) base) : program[base]? = some i :=
  h 0 i rfl

theorem BlockFrom.tail {program block : List ι} {i : ι} {base : ℕ}
    (h : BlockFrom program (i :: block) base) : BlockFrom program block (base + 1) := by
  intro k j hj
  rw [Nat.add_right_comm]
  exact h (k + 1) j hj

theorem BlockFrom.left {program a b : List ι} {base : ℕ} (h : BlockFrom program (a ++ b) base) :
    BlockFrom program a base := by
  intro k i hi
  have hlt := (List.getElem?_eq_some_iff.mp hi).1
  exact h k i (by rw [List.getElem?_append_left hlt, hi])

theorem BlockFrom.right {program a b : List ι} {base : ℕ} (h : BlockFrom program (a ++ b) base) :
    BlockFrom program b (base + a.length) := by
  intro k i hi
  rw [Nat.add_assoc]
  refine h _ i ?_
  rw [List.getElem?_append_right (Nat.le_add_right ..), Nat.add_sub_cancel_left, hi]

/-- Code whose intended layout is in the program is laid out there. -/
theorem laid_of_assemble {forms : JumpForms π κ ι} {program : List ι} {c : Structured π κ}
    {base : ℕ} (h : BlockFrom program (c.assemble forms id base) base) :
    c.Laid forms program base := by
  induction c generalizing base with
  | nil => trivial
  | instr p => exact h.head
  | seq a b iha ihb =>
      have hb := h.right
      rw [assemble_length] at hb
      exact ⟨iha h.left, ihb hb⟩
  | skip cond body ih => exact ⟨h.head, ih h.tail⟩
  | choose cond a b iha ihb =>
      have hb := h.tail.right
      rw [assemble_length] at hb
      have haddr : base + 1 + a.length + 1 = base + a.length + 2 := by omega
      refine ⟨h.head, iha h.tail.left, hb.head, ihb ?_⟩
      exact haddr ▸ hb.tail
  | loop head cond body ihh ihb =>
      have hrest := h.right
      rw [assemble_length] at hrest
      have hclose := hrest.tail.right
      rw [assemble_length] at hclose
      exact ⟨ihh h.left, hrest.head, ihb hrest.tail.left, hclose.head⟩

end Structured

/-- The first `n` steps of a run go where the instructions of the program send them. At an
instruction that is no jump the run may wait for some steps. -/
structure Follows {π κ ι σ : Type*} (forms : JumpForms π κ ι) (program : List ι)
    (moves : Moves π κ σ) (ip : σ → ℕ) (run : ℕ → σ) (n : ℕ) : Prop where
  plain : ∀ i < n, ∀ p, program[ip (run i)]? = some (forms.plain p) → ip (run n) ≠ ip (run i) →
    ∃ j, i < j ∧ j ≤ n ∧ moves.does p (run i) (run j) ∧ ip (run j) = ip (run i) + 1
  branch : ∀ i < n, ∀ cond t, program[ip (run i)]? = some (forms.branch cond t) →
    moves.enters cond (run i) (run (i + 1)) ∧ ip (run (i + 1)) = ip (run i) + 1 ∨
      moves.leaves cond (run i) (run (i + 1)) ∧ ip (run (i + 1)) = t
  jump : ∀ i < n, ∀ t, program[ip (run i)]? = some (forms.jump t) →
    moves.jumps (run i) (run (i + 1)) ∧ ip (run (i + 1)) = t

namespace Follows

variable {π κ ι σ : Type*} {forms : JumpForms π κ ι} {program : List ι} {moves : Moves π κ σ}
  {ip : σ → ℕ} {run : ℕ → σ} {n : ℕ}

/-- The run ends outside of the addresses from `base` to `stop`. -/
def EndsOutside (ip : σ → ℕ) (run : ℕ → σ) (n base stop : ℕ) : Prop :=
  ip (run n) < base ∨ stop ≤ ip (run n)

theorem EndsOutside.mono {base base' stop stop' : ℕ} (h : EndsOutside ip run n base stop)
    (hbase : base ≤ base') (hstop : stop' ≤ stop) : EndsOutside ip run n base' stop' := by
  unfold EndsOutside at *
  omega

theorem EndsOutside.not_end {base stop i : ℕ} (h : EndsOutside ip run n base stop) (hi : i ≤ n)
    (hip : base ≤ ip (run i) ∧ ip (run i) < stop) : i < n := by
  refine Nat.lt_of_le_of_ne hi ?_
  rintro rfl
  unfold EndsOutside at h
  omega

/-- A run that comes to a piece of code and ends outside of it passes through it. -/
theorem passage (h : Follows forms program moves ip run n) {c : Structured π κ} {base i : ℕ}
    (hlaid : c.Laid forms program base) (hi : i ≤ n) (hip : ip (run i) = base)
    (hend : EndsOutside ip run n base (base + c.length)) :
    ∃ j, i ≤ j ∧ j ≤ n ∧ Passage moves ip c base (run i) (run j) ∧
      ip (run j) = base + c.length := by
  induction c generalizing base i with
  | nil => exact ⟨i, Nat.le_refl i, hi, .nil hip, hip⟩
  | instr p =>
      have hlt := hend.not_end hi ⟨Nat.le_of_eq hip.symm, by rw [hip]; exact Nat.lt_succ_self base⟩
      obtain ⟨j, hij, hj, hdoes, hnext⟩ := h.plain i hlt p (by rw [hip]; exact hlaid) (by
        unfold EndsOutside at hend
        rw [Structured.length_instr] at hend
        omega)
      exact ⟨j, Nat.le_of_lt hij, hj, .instr hip hdoes, by rw [hnext, hip]; rfl⟩
  | seq a b iha ihb =>
      obtain ⟨hlaida, hlaidb⟩ := hlaid
      rw [Structured.length_seq] at hend
      obtain ⟨j, hij, hj, hpassa, hmid⟩ := iha hlaida hi hip (hend.mono (Nat.le_refl _) (by omega))
      obtain ⟨k, hjk, hk, hpassb, hstop⟩ :=
        ihb hlaidb hj hmid (hend.mono (by omega) (by omega))
      refine ⟨k, Nat.le_trans hij hjk, hk, .seq hpassa hpassb, ?_⟩
      rw [hstop, Structured.length_seq, Nat.add_assoc]
  | skip cond body ih =>
      obtain ⟨hbranch, hlaidb⟩ := hlaid
      rw [Structured.length_skip] at hend ⊢
      have hlt := hend.not_end hi (by omega)
      obtain ⟨henters, hnext⟩ | ⟨hleaves, hnext⟩ :=
        h.branch i hlt cond _ (by rw [hip]; exact hbranch)
      · obtain ⟨j, hij, hj, hpass, hstop⟩ :=
          ih hlaidb hlt (by rw [hnext, hip]) (hend.mono (by omega) (by omega))
        exact ⟨j, by omega, hj, .entered hip henters hpass, by omega⟩
      · exact ⟨i + 1, Nat.le_succ i, hlt, .skipped hip hleaves, by omega⟩
  | choose cond a b iha ihb =>
      obtain ⟨hbranch, hlaida, hjump, hlaidb⟩ := hlaid
      rw [Structured.length_choose] at hend ⊢
      have hlt := hend.not_end hi (by omega)
      obtain ⟨henters, hnext⟩ | ⟨hleaves, hnext⟩ :=
        h.branch i hlt cond _ (by rw [hip]; exact hbranch)
      · obtain ⟨j, hij, hj, hpass, hstop⟩ :=
          iha hlaida hlt (by rw [hnext, hip]) (hend.mono (by omega) (by omega))
        have hlt' := hend.not_end hj (by omega)
        obtain ⟨hjumps, hafter⟩ := h.jump j hlt' _ (by rw [hstop]; exact hjump)
        exact ⟨j + 1, by omega, hlt', .first hip henters hpass hjumps, by omega⟩
      · obtain ⟨j, hij, hj, hpass, hstop⟩ :=
          ihb hlaidb hlt hnext (hend.mono (by omega) (by omega))
        exact ⟨j, by omega, hj, .second hip hleaves hpass, by omega⟩
  | loop head cond body ihh ihb =>
      obtain ⟨hlaidh, hbranch, hlaidb, hjump⟩ := hlaid
      rw [Structured.length_loop] at hend ⊢
      -- Each round takes steps of the run, so the induction is on those that are left.
      induction hleft : n - i using Nat.strongRecOn generalizing i with
      | ind left ih =>
          obtain ⟨j, hij, hj, hhead, hmid⟩ := ihh hlaidh hi hip (hend.mono (by omega) (by omega))
          have hlt := hend.not_end hj (by omega)
          obtain ⟨henters, hnext⟩ | ⟨hleaves, hnext⟩ :=
            h.branch j hlt cond _ (by rw [hmid]; exact hbranch)
          · obtain ⟨k, hjk, hk, hbody, hstop⟩ :=
              ihb hlaidb hlt (by rw [hnext, hmid]) (hend.mono (by omega) (by omega))
            have hlt' := hend.not_end hk (by omega)
            obtain ⟨hjumps, hback⟩ := h.jump k hlt' _ (by rw [hstop]; exact hjump)
            obtain ⟨m, hkm, hm, hrest, hout⟩ := ih (n - (k + 1)) (by omega) hlt' hback rfl
            exact ⟨m, by omega, hm, .round hhead henters hbody hjumps hrest, hout⟩
          · exact ⟨j + 1, by omega, hlt, .exit hhead hleaves, by omega⟩

end Follows
