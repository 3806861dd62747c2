import Mathlib.Data.List.Basic
import Mathlib.Order.Nat

/-!
# Parsers on tokens

A parser gives a value or an error, and in both cases the tokens that are left. Loops have
a bound on their rounds. When the parsers in a loop leave no more tokens than they were
given, every bound above the number of tokens gives the same result, so that the loop has
an equation without a bound.
-/

/-- A parser of values. An error leaves the tokens at which it arose. -/
abbrev Parser (τ ε α : Type) : Type := List τ → Except ε α × List τ

namespace Parser

variable {τ ε α β : Type} {p p' : Parser τ ε α} {ts rest : List τ}

/-- What is left are the last tokens of what was given. -/
def Shrinks (p : Parser τ ε α) : Prop := ∀ ts, (p ts).2 <:+ ts

theorem Shrinks.length (h : Shrinks p) (ts : List τ) : (p ts).2.length ≤ ts.length :=
  (h ts).length_le

/-- Two parsers that do the same on fewer tokens than the bound. -/
def AgreeBelow (k : ℕ) (p p' : Parser τ ε α) : Prop := ∀ ts, ts.length < k → p ts = p' ts

/-- Change the value of a parser. -/
def map (f : α → β) (p : Parser τ ε α) : Parser τ ε β := fun ts => ((p ts).1.map f, (p ts).2)

theorem map_ok {f : α → β} {a : α} (h : p ts = (.ok a, rest)) : p.map f ts = (.ok (f a), rest) := by
  unfold map
  rw [h]
  rfl

theorem Shrinks.map {f : α → β} (h : Shrinks p) : Shrinks (p.map f) := h

/-! ### Operators that associate to the left -/

section LeftAssoc

variable {op : List τ → Option (β × List τ)} {join : β → α → α → α} {overrun : ε} {n m : ℕ}
variable {left : α}

/-- Take operators and right operands as long as there are operators. -/
def leftLoop (op : List τ → Option (β × List τ)) (join : β → α → α → α) (overrun : ε)
    (p : Parser τ ε α) : ℕ → α → Parser τ ε α
  | 0, _, ts => (.error overrun, ts)
  | n + 1, left, ts =>
      match op ts with
      | none => (.ok left, ts)
      | some (b, ts') =>
          match p ts' with
          | (.ok right, ts'') => leftLoop op join overrun p n (join b left right) ts''
          | (.error e, ts'') => (.error e, ts'')

/-- What follows a left operand. -/
def leftRest (op : List τ → Option (β × List τ)) (join : β → α → α → α) (overrun : ε)
    (p : Parser τ ε α) (left : α) : Parser τ ε α := fun ts =>
  leftLoop op join overrun p (ts.length + 1) left ts

/-- Operands with operators between them. -/
def leftAssoc (op : List τ → Option (β × List τ)) (join : β → α → α → α) (overrun : ε)
    (p : Parser τ ε α) : Parser τ ε α := fun ts =>
  match p ts with
  | (.ok left, ts') => leftRest op join overrun p left ts'
  | (.error e, ts') => (.error e, ts')

/-- An operator is made of the first tokens. -/
def Takes (op : List τ → Option (β × List τ)) : Prop :=
  ∀ ts b ts', op ts = some (b, ts') → ts' <:+ ts ∧ ts'.length < ts.length

/-- Operators of one token. -/
def tokenOp (f : τ → Option β) : List τ → Option (β × List τ)
  | [] => none
  | t :: ts => (f t).map fun b => (b, ts)

theorem tokenOp_some {f : τ → Option β} {b : β} (h : tokenOp f ts = some (b, rest)) :
    ∃ t, f t = some b ∧ ts = t :: rest := by
  cases ts with
  | nil => cases h
  | cons t ts =>
      obtain ⟨b', hb, heq⟩ := Option.map_eq_some_iff.mp h
      cases heq
      exact ⟨t, hb, rfl⟩

theorem tokenOp_takes (f : τ → Option β) : Takes (tokenOp f) := by
  intro ts b ts' h
  obtain ⟨t, -, rfl⟩ := tokenOp_some h
  exact ⟨List.suffix_cons .., Nat.lt_succ_self _⟩

theorem leftLoop_shrinks (hop : Takes op) (hp : Shrinks p) (n : ℕ) (left : α) :
    Shrinks (leftLoop op join overrun p n left) := by
  induction n generalizing left with
  | zero => exact fun ts => List.suffix_rfl
  | succ n ih =>
      intro ts
      unfold leftLoop
      split
      · exact List.suffix_rfl
      · rename_i b ts' hb
        obtain ⟨hts', -⟩ := hop ts b ts' hb
        have hright := hp ts'
        split
        · rename_i right ts'' hr
          rw [hr] at hright
          exact (ih (join b left right) ts'').trans (hright.trans hts')
        · rename_i e ts'' hr
          rw [hr] at hright
          exact hright.trans hts'

theorem leftRest_shrinks (hop : Takes op) (hp : Shrinks p) (left : α) :
    Shrinks (leftRest op join overrun p left) :=
  fun ts => leftLoop_shrinks hop hp _ left ts

theorem leftAssoc_shrinks (hop : Takes op) (hp : Shrinks p) :
    Shrinks (leftAssoc op join overrun p) := by
  intro ts
  have hleft := hp ts
  unfold leftAssoc
  split
  · rename_i left ts' hl
    rw [hl] at hleft
    exact (leftRest_shrinks hop hp left ts').trans hleft
  · rename_i e ts' hl
    rw [hl] at hleft
    exact hleft

/-- The bound on the rounds and the operand parser on more tokens do not matter. -/
theorem leftLoop_agree (hop : Takes op) (hp : Shrinks p) {k : ℕ} (hagree : AgreeBelow k p p')
    (hts : ts.length ≤ k) (hn : ts.length < n) (hm : ts.length < m) :
    leftLoop op join overrun p n left ts = leftLoop op join overrun p' m left ts := by
  induction n generalizing m left ts with
  | zero => exact absurd hn (Nat.not_lt_zero _)
  | succ n ih =>
      cases m with
      | zero => exact absurd hm (Nat.not_lt_zero _)
      | succ m =>
          unfold leftLoop
          cases hb : op ts with
          | none => rfl
          | some r =>
              obtain ⟨b, ts'⟩ := r
              obtain ⟨-, hts'⟩ := hop ts b ts' hb
              have hright := hp.length ts'
              dsimp only
              rw [← hagree ts' (Nat.lt_of_lt_of_le hts' hts)]
              cases hr : p ts' with
              | mk result ts'' =>
                  rw [hr] at hright
                  dsimp only at hright
                  cases result with
                  | error e => rfl
                  | ok right =>
                      dsimp only
                      exact ih (by omega) (by omega) (by omega)

theorem leftRest_none (h : op ts = none) : leftRest op join overrun p left ts = (.ok left, ts) := by
  unfold leftRest leftLoop
  rw [h]

theorem leftRest_some (hop : Takes op) (hp : Shrinks p) {b : β} {ts' ts'' : List τ} {right : α}
    (hb : op ts = some (b, ts')) (hr : p ts' = (.ok right, ts'')) :
    leftRest op join overrun p left ts = leftRest op join overrun p (join b left right) ts'' := by
  obtain ⟨-, hts'⟩ := hop ts b ts' hb
  have hright := hp.length ts'
  rw [hr] at hright
  dsimp only at hright
  unfold leftRest
  rw [leftLoop, hb]
  dsimp only
  rw [hr]
  exact leftLoop_agree hop hp (fun _ _ => rfl) (Nat.le_refl _) (by omega) (by omega)

theorem leftAssoc_ok (h : p ts = (.ok left, rest)) :
    leftAssoc op join overrun p ts = leftRest op join overrun p left rest := by
  unfold leftAssoc
  rw [h]

theorem leftAssoc_agree (hop : Takes op) (hp : Shrinks p) {k : ℕ} (hagree : AgreeBelow k p p') :
    AgreeBelow k (leftAssoc op join overrun p) (leftAssoc op join overrun p') := by
  intro ts hts
  have hleft := hp.length ts
  unfold leftAssoc
  rw [← hagree ts hts]
  cases hl : p ts with
  | mk result ts' =>
      rw [hl] at hleft
      cases result with
      | error e => rfl
      | ok left =>
          have hk : ts'.length ≤ k := hleft.trans hts.le
          exact leftLoop_agree hop hp hagree hk (Nat.lt_succ_self _) (Nat.lt_succ_self _)

/-- Operators under other names. -/
theorem leftAssoc_rename {γ : Type} {op' : List τ → Option (γ × List τ)} {join' : γ → α → α → α}
    (name : β → γ) (hop : ∀ ts, op' ts = (op ts).map fun r => (name r.1, r.2))
    (hjoin : ∀ b, join' (name b) = join b) :
    leftAssoc op' join' overrun p = leftAssoc op join overrun p := by
  have hloop : ∀ n left ts, leftLoop op' join' overrun p n left ts =
      leftLoop op join overrun p n left ts := by
    intro n
    induction n with
    | zero => exact fun _ _ => rfl
    | succ n ih =>
        intro left ts
        unfold leftLoop
        rw [hop]
        cases op ts with
        | none => rfl
        | some r =>
            dsimp only [Option.map_some]
            rw [hjoin]
            cases p r.2 with
            | mk result ts' =>
                cases result with
                | error e => rfl
                | ok right => exact ih _ _
  funext ts
  unfold leftAssoc leftRest
  simp only [hloop]

end LeftAssoc

/-! ### Nesting -/

section Nesting

variable {f g : Parser τ ε α → Parser τ ε α} {overrun : ε} {n m k : ℕ}

/-- A parser around another one, which it uses on fewer tokens only. -/
structure Descends (f : Parser τ ε α → Parser τ ε β) : Prop where
  shrinks : ∀ {p}, Shrinks p → Shrinks (f p)
  agree : ∀ {p p' k}, Shrinks p → AgreeBelow k p p' → AgreeBelow (k + 1) (f p) (f p')

theorem Descends.leftAssoc {op : List τ → Option (β × List τ)} {join : β → α → α → α}
    (hop : Takes op) (h : Descends f) : Descends fun p => leftAssoc op join overrun (f p) where
  shrinks := fun hp => leftAssoc_shrinks hop (h.shrinks hp)
  agree := fun hp hagree => leftAssoc_agree hop (h.shrinks hp) (h.agree hp hagree)

/-- The parser inside itself, with a bound on the depth. -/
def within (f : Parser τ ε α → Parser τ ε α) (overrun : ε) : ℕ → Parser τ ε α
  | 0, ts => (.error overrun, ts)
  | n + 1, ts => f (within f overrun n) ts

/-- The parser inside itself. -/
def nested (f : Parser τ ε α → Parser τ ε α) (overrun : ε) : Parser τ ε α := fun ts =>
  within f overrun (ts.length + 1) ts

theorem within_shrinks (h : Descends f) (n : ℕ) : Shrinks (within f overrun n) := by
  induction n with
  | zero => exact fun ts => List.suffix_rfl
  | succ n ih => exact h.shrinks ih

theorem nested_shrinks (h : Descends f) : Shrinks (nested f overrun) :=
  fun ts => within_shrinks h _ ts

theorem within_agree (h : Descends f) (hn : k ≤ n) (hm : k ≤ m) :
    AgreeBelow k (within f overrun n) (within f overrun m) := by
  induction k generalizing n m with
  | zero => exact fun ts hts => absurd hts (Nat.not_lt_zero _)
  | succ k ih =>
      cases n with
      | zero => exact absurd hn (Nat.not_succ_le_zero _)
      | succ n =>
          cases m with
          | zero => exact absurd hm (Nat.not_succ_le_zero _)
          | succ m =>
              have hinner := ih (Nat.le_of_succ_le_succ hn) (Nat.le_of_succ_le_succ hm)
              exact h.agree (within_shrinks h _) hinner

/-- The bound on the depth does not show. -/
theorem nested_eq (h : Descends f) : nested f overrun = f (nested f overrun) := by
  funext ts
  have hinner : AgreeBelow ts.length (within f overrun ts.length) (nested f overrun) := by
    intro ts' hts'
    exact within_agree h (Nat.succ_le_of_lt hts') (Nat.le_refl _) ts' (Nat.lt_succ_self _)
  exact h.agree (within_shrinks h _) hinner ts (Nat.lt_succ_self _)

end Nesting

/-! ### Separated lists -/

section SepBy

variable [DecidableEq τ] {sep : τ} {overrun : ε} {n m : ℕ}

/-- Take one value, and another one after every separator. -/
def sepLoop (sep : τ) (overrun : ε) (p : Parser τ ε α) : ℕ → Parser τ ε (List α)
  | 0, ts => (.error overrun, ts)
  | n + 1, ts =>
      match p ts with
      | (.error e, ts') => (.error e, ts')
      | (.ok a, []) => (.ok [a], [])
      | (.ok a, t :: ts') =>
          if t = sep then (sepLoop sep overrun p n).map (a :: ·) ts' else (.ok [a], t :: ts')

def sepBy (sep : τ) (overrun : ε) (p : Parser τ ε α) : Parser τ ε (List α) := fun ts =>
  sepLoop sep overrun p (ts.length + 1) ts

theorem sepLoop_shrinks (hp : Shrinks p) (n : ℕ) : Shrinks (sepLoop sep overrun p n) := by
  induction n with
  | zero => exact fun ts => List.suffix_rfl
  | succ n ih =>
      intro ts
      have hfirst := hp ts
      unfold sepLoop
      split
      · rename_i e ts' hr
        rw [hr] at hfirst
        exact hfirst
      · exact List.nil_suffix
      · rename_i a t ts' hr
        rw [hr] at hfirst
        split
        · exact (ih.map ts').trans ((List.suffix_cons ..).trans hfirst)
        · exact hfirst

theorem sepBy_shrinks (hp : Shrinks p) : Shrinks (sepBy sep overrun p) :=
  fun ts => sepLoop_shrinks hp _ ts

theorem sepLoop_agree (hp : Shrinks p) {k : ℕ} (hagree : AgreeBelow k p p')
    (hts : ts.length < k) (hn : ts.length < n) (hm : ts.length < m) :
    sepLoop sep overrun p n ts = sepLoop sep overrun p' m ts := by
  induction n generalizing m ts with
  | zero => exact absurd hn (Nat.not_lt_zero _)
  | succ n ih =>
      cases m with
      | zero => exact absurd hm (Nat.not_lt_zero _)
      | succ m =>
          have hfirst := hp.length ts
          unfold sepLoop
          rw [← hagree ts hts]
          cases hr : p ts with
          | mk result rest =>
              rw [hr] at hfirst
              cases result with
              | error e => rfl
              | ok a =>
                  cases rest with
                  | nil => rfl
                  | cons t ts' =>
                      dsimp only [List.length_cons] at hfirst ⊢
                      split
                      · unfold Parser.map
                        rw [ih (m := m) (by omega) (by omega) (by omega)]
                      · rfl

theorem sepBy_agree (hp : Shrinks p) {k : ℕ} (hagree : AgreeBelow k p p') :
    AgreeBelow k (sepBy sep overrun p) (sepBy sep overrun p') := by
  intro ts hts
  exact sepLoop_agree hp hagree hts (Nat.lt_succ_self _) (Nat.lt_succ_self _)

/-- The last value of a list, with something else than a separator behind it. -/
theorem sepBy_last {a : α} (h : p ts = (.ok a, rest)) (hsep : rest.head? ≠ some sep) :
    sepBy sep overrun p ts = (.ok [a], rest) := by
  unfold sepBy sepLoop
  rw [h]
  cases rest with
  | nil => rfl
  | cons t ts' =>
      dsimp only
      rw [if_neg]
      rintro rfl
      exact hsep rfl

/-- A value of a list with a separator behind it. -/
theorem sepBy_cons (hp : Shrinks p) {a : α} (h : p ts = (.ok a, sep :: rest)) :
    sepBy sep overrun p ts = (sepBy sep overrun p).map (a :: ·) rest := by
  have hfirst := hp.length ts
  rw [h] at hfirst
  dsimp only [List.length_cons] at hfirst
  have hrounds : sepLoop sep overrun p ts.length rest = sepBy sep overrun p rest :=
    sepLoop_agree hp (fun _ _ => rfl) (Nat.lt_succ_self _) (by omega) (Nat.lt_succ_self _)
  unfold Parser.map
  rw [← hrounds]
  unfold sepBy
  rw [sepLoop, h]
  dsimp only
  rw [if_pos rfl]
  rfl

end SepBy

/-! ### Bounds that are not reached -/

section Fits

variable {overrun : ε} {n k : ℕ}

/-- On fewer tokens than the bound, no loop runs out of rounds. -/
def FitsBelow (overrun : ε) (k : ℕ) (p : Parser τ ε α) : Prop :=
  ∀ ts, ts.length < k → (p ts).1 ≠ .error overrun

theorem FitsBelow.map {f : α → β} (h : FitsBelow overrun k p) :
    FitsBelow overrun k (p.map f) := by
  intro ts hts hmap
  refine h ts hts ?_
  unfold Parser.map at hmap
  dsimp only at hmap
  cases hr : (p ts).1 with
  | ok a =>
      rw [hr] at hmap
      cases hmap
  | error e =>
      rw [hr] at hmap
      cases hmap
      rfl

theorem leftLoop_fits {op : List τ → Option (β × List τ)} {join : β → α → α → α} (hop : Takes op)
    (hp : Shrinks p) (h : FitsBelow overrun k p) {left : α} (hts : ts.length ≤ k)
    (hn : ts.length < n) : (leftLoop op join overrun p n left ts).1 ≠ .error overrun := by
  induction n generalizing left ts with
  | zero => exact absurd hn (Nat.not_lt_zero _)
  | succ n ih =>
      unfold leftLoop
      split
      · nofun
      · rename_i b ts' hb
        obtain ⟨-, hts'⟩ := hop ts b ts' hb
        have hright := hp.length ts'
        have hfits := h ts' (Nat.lt_of_lt_of_le hts' hts)
        split
        · rename_i right ts'' hr
          rw [hr] at hright
          dsimp only at hright
          exact ih (by omega) (by omega)
        · rename_i e ts'' hr
          rw [hr] at hfits
          exact hfits

theorem leftAssoc_fits {op : List τ → Option (β × List τ)} {join : β → α → α → α} (hop : Takes op)
    (hp : Shrinks p) (h : FitsBelow overrun k p) :
    FitsBelow overrun k (leftAssoc op join overrun p) := by
  intro ts hts
  have hleft := hp.length ts
  have hfits := h ts hts
  unfold leftAssoc
  split
  · rename_i left ts' hl
    rw [hl] at hleft
    exact leftLoop_fits hop hp h (hleft.trans hts.le) (Nat.lt_succ_self _)
  · rename_i e ts' hl
    rw [hl] at hfits
    exact hfits

theorem sepBy_fits [DecidableEq τ] {sep : τ} (hp : Shrinks p) (h : FitsBelow overrun k p) :
    FitsBelow overrun k (sepBy sep overrun p) := by
  have hloop : ∀ n ts, ts.length < k → ts.length < n →
      (sepLoop sep overrun p n ts).1 ≠ .error overrun := by
    intro n
    induction n with
    | zero => exact fun ts _ hn => absurd hn (Nat.not_lt_zero _)
    | succ n ih =>
        intro ts hts hn
        have hfirst := hp.length ts
        have hfits := h ts hts
        unfold sepLoop
        split
        · rename_i e ts' hr
          rw [hr] at hfits
          exact fun he => hfits (by cases he; rfl)
        · nofun
        · rename_i a t ts' hr
          rw [hr] at hfirst
          dsimp only [List.length_cons] at hfirst
          split
          · have hrest : FitsBelow overrun (ts'.length + 1) (sepLoop sep overrun p n) :=
              fun us hus => ih us (by omega) (by omega)
            exact hrest.map ts' (Nat.lt_succ_self _)
          · nofun
  exact fun ts hts => hloop _ ts hts (Nat.lt_succ_self _)

/-- A parser around another one, as good as that one is on fewer tokens. -/
def Fits (overrun : ε) (f : Parser τ ε α → Parser τ ε β) : Prop :=
  ∀ ⦃p k⦄, Shrinks p → FitsBelow overrun k p → FitsBelow overrun (k + 1) (f p)

theorem Fits.leftAssoc {f : Parser τ ε α → Parser τ ε α} {op : List τ → Option (β × List τ)}
    {join : β → α → α → α} (hop : Takes op) (hf : Descends f) (h : Fits overrun f) :
    Fits overrun fun p => leftAssoc op join overrun (f p) :=
  fun _ _ hp hfits => leftAssoc_fits hop (hf.shrinks hp) (h hp hfits)

/-- The depth of the tokens is never above the bound. -/
theorem nested_fits {f : Parser τ ε α → Parser τ ε α} (hf : Descends f) (h : Fits overrun f)
    (ts : List τ) : (nested f overrun ts).1 ≠ .error overrun := by
  have hwithin : ∀ n, FitsBelow overrun n (within f overrun n) := by
    intro n
    induction n with
    | zero => exact fun ts hts => absurd hts (Nat.not_lt_zero _)
    | succ n ih => exact h (within_shrinks hf n) ih
  exact hwithin _ ts (Nat.lt_succ_self _)

end Fits

/-! ### Tokens that may be missing -/

section Skip

variable [DecidableEq τ]

/-- Without the given token at the front. -/
def skipIf (t : τ) : List τ → List τ
  | [] => []
  | t' :: ts => if t' = t then ts else t' :: ts

theorem skipIf_suffix (t : τ) (ts : List τ) : skipIf t ts <:+ ts := by
  cases ts with
  | nil => exact List.suffix_rfl
  | cons t' ts =>
      change (if t' = t then ts else t' :: ts) <:+ _
      split
      · exact List.suffix_cons ..
      · exact List.suffix_rfl

theorem skipIf_length (t : τ) (ts : List τ) : (skipIf t ts).length ≤ ts.length :=
  (skipIf_suffix t ts).length_le

@[simp] theorem skipIf_cons (t : τ) (ts : List τ) : skipIf t (t :: ts) = ts := if_pos rfl

end Skip

/-! ### What a parser gives -/

section Yields

variable {Q : τ → Prop} {P : α → Prop}

/-- From tokens of one kind come values of one kind, and the tokens that are left are of
that kind again. -/
def Yields (Q : τ → Prop) (P : α → Prop) (p : Parser τ ε α) : Prop :=
  ∀ ts, (∀ t ∈ ts, Q t) → (∀ t ∈ (p ts).2, Q t) ∧ ∀ a, (p ts).1 = .ok a → P a

theorem yields_overrun (e : ε) : Yields Q P fun ts => (.error e, ts) :=
  fun _ hts => ⟨hts, nofun⟩

theorem Yields.map {P' : β → Prop} {f : α → β} (h : Yields Q P p) (hf : ∀ a, P a → P' (f a)) :
    Yields Q P' (p.map f) := by
  intro ts hts
  obtain ⟨hrest, hvalue⟩ := h ts hts
  refine ⟨hrest, fun b hb => ?_⟩
  unfold Parser.map at hb
  dsimp only at hb
  cases hp : (p ts).1 with
  | error e =>
      rw [hp] at hb
      cases hb
  | ok a =>
      rw [hp] at hb
      cases hb
      exact hf a (hvalue a hp)

theorem Yields.leftAssoc {op : List τ → Option (β × List τ)} {join : β → α → α → α} {overrun : ε}
    {R : β → Prop}
    (hop : ∀ ts, (∀ t ∈ ts, Q t) → ∀ b ts', op ts = some (b, ts') → R b ∧ ∀ t ∈ ts', Q t)
    (hjoin : ∀ b left right, R b → P left → P right → P (join b left right))
    (h : Yields Q P p) : Yields Q P (leftAssoc op join overrun p) := by
  have hloop : ∀ n left, P left → Yields Q P (leftLoop op join overrun p n left) := by
    intro n
    induction n with
    | zero => exact fun _ _ => yields_overrun overrun
    | succ n ih =>
        intro left hleft ts hts
        unfold leftLoop
        split
        · refine ⟨hts, ?_⟩
          rintro _ ⟨⟩
          exact hleft
        · rename_i b ts' hb
          obtain ⟨hR, hts'⟩ := hop ts hts b ts' hb
          obtain ⟨hrest, hright⟩ := h ts' hts'
          split
          · rename_i right ts'' hr
            rw [hr] at hrest hright
            exact ih _ (hjoin b left right hR hleft (hright right rfl)) ts'' hrest
          · rename_i e ts'' hr
            rw [hr] at hrest
            exact ⟨hrest, nofun⟩
  intro ts hts
  obtain ⟨hrest, hleft⟩ := h ts hts
  unfold Parser.leftAssoc
  split
  · rename_i left ts' hl
    rw [hl] at hrest hleft
    exact hloop _ left (hleft left rfl) ts' hrest
  · rename_i e ts' hl
    rw [hl] at hrest
    exact ⟨hrest, nofun⟩

theorem Yields.sepBy [DecidableEq τ] {sep : τ} {overrun : ε} (h : Yields Q P p) :
    Yields Q (fun as => as ≠ [] ∧ ∀ a ∈ as, P a) (sepBy sep overrun p) := by
  have hloop : ∀ n, Yields Q (fun as => as ≠ [] ∧ ∀ a ∈ as, P a) (sepLoop sep overrun p n) := by
    intro n
    induction n with
    | zero => exact yields_overrun overrun
    | succ n ih =>
        intro ts hts
        obtain ⟨hrest, hvalue⟩ := h ts hts
        have hone : ∀ a, (p ts).1 = .ok a → [a] ≠ [] ∧ ∀ b ∈ [a], P b := by
          intro a ha
          refine ⟨List.cons_ne_nil _ _, fun b hb => ?_⟩
          rw [List.mem_singleton.mp hb]
          exact hvalue a ha
        unfold sepLoop
        split
        · rename_i e ts' hr
          rw [hr] at hrest
          exact ⟨hrest, nofun⟩
        · rename_i a hr
          rw [hr] at hone
          refine ⟨nofun, ?_⟩
          rintro _ ⟨⟩
          exact hone a rfl
        · rename_i a t ts' hr
          rw [hr] at hrest hone hvalue
          split
          · refine (ih.map fun as has => ⟨List.cons_ne_nil _ _, ?_⟩) ts'
              fun u hu => hrest u (List.mem_cons_of_mem _ hu)
            rintro b (_ | ⟨_, hb⟩)
            · exact hvalue a rfl
            · exact has.2 b hb
          · refine ⟨hrest, ?_⟩
            rintro _ ⟨⟩
            exact hone a rfl
  exact fun ts hts => hloop _ ts hts

theorem yields_nested {f : Parser τ ε α → Parser τ ε α} {overrun : ε}
    (hf : ∀ p, Yields Q P p → Yields Q P (f p)) : Yields Q P (nested f overrun) := by
  have hwithin : ∀ n, Yields Q P (within f overrun n) := by
    intro n
    induction n with
    | zero => exact yields_overrun overrun
    | succ n ih => exact hf _ ih
  exact fun ts hts => hwithin _ ts hts

theorem skipIf_subset [DecidableEq τ] {t : τ} {ts : List τ} (h : ∀ u ∈ ts, Q u) :
    ∀ u ∈ skipIf t ts, Q u :=
  fun u hu => h u ((skipIf_suffix t ts).subset hu)

end Yields

end Parser
