import NFdl.Lib.Parsing

/-!
# Parsers around parsers

Parsers are put together from others: one after the other, by the first token, and as
suffixes that follow each other. A part that stands behind a token may use the parser around
it on all the tokens that are left. No part gives tokens back or runs out of rounds, if that
parser does not.
-/

namespace Parser

variable {τ ε α β γ : Type} {p p' : Parser τ ε α} {ts rest : List τ} {a : α} {b b' : β} {t : τ}
variable {k n m : ℕ} {overrun : ε} {Q : τ → Prop} {P : α → Prop} {P' : β → Prop} {P'' : γ → Prop}

/-! ### Combinations -/

def ret (a : α) : Parser τ ε α := fun ts => (.ok a, ts)

/-- Fail with an error about the tokens. -/
def fail (e : List τ → ε) : Parser τ ε α := fun ts => (.error (e ts), ts)

def andThen (p : Parser τ ε α) (f : α → Parser τ ε β) : Parser τ ε β := fun ts =>
  match p ts with
  | (.ok a, ts') => f a ts'
  | (.error e, ts') => (.error e, ts')

/-- Take one token, or fail with an error about the tokens. -/
def one (pick : τ → Option α) (e : List τ → ε) : Parser τ ε α
  | [] => (.error (e []), [])
  | t :: ts =>
      match pick t with
      | some a => (.ok a, ts)
      | none => (.error (e (t :: ts)), t :: ts)

/-- Take tokens that change the value of what is behind them. -/
def prefixes (op : τ → Option (α → α)) (p : Parser τ ε α) : Parser τ ε α
  | [] => p []
  | t :: ts =>
      match op t with
      | some f => ((prefixes op p ts).1.map f, (prefixes op p ts).2)
      | none => p (t :: ts)

/-- Take the first token where something is to be done behind it. -/
def onHead (h : τ → Option (Parser τ ε α → Parser τ ε β)) (otherwise : Parser τ ε β)
    (p : Parser τ ε α) : Parser τ ε β
  | [] => otherwise []
  | t :: ts =>
      match h t with
      | some q => q p ts
      | none => otherwise (t :: ts)

/-- Change a value as long as tokens that change it follow. -/
def suffixLoop (suffix : β → τ → Option (Parser τ ε α → Parser τ ε β)) (overrun : ε)
    (p : Parser τ ε α) : ℕ → β → Parser τ ε β
  | 0, _, ts => (.error overrun, ts)
  | _ + 1, b, [] => (.ok b, [])
  | n + 1, b, t :: ts =>
      match suffix b t with
      | none => (.ok b, t :: ts)
      | some q => andThen (q p) (suffixLoop suffix overrun p n) ts

def suffixes (suffix : β → τ → Option (Parser τ ε α → Parser τ ε β)) (overrun : ε)
    (p : Parser τ ε α) (b : β) : Parser τ ε β :=
  fun ts => suffixLoop suffix overrun p (ts.length + 1) b ts

theorem andThen_ok {f : α → Parser τ ε β} (h : p ts = (.ok a, rest)) :
    andThen p f ts = f a rest := by
  unfold andThen
  rw [h]

theorem andThen_error {f : α → Parser τ ε β} {e : ε} (h : p ts = (.error e, rest)) :
    andThen p f ts = (.error e, rest) := by
  unfold andThen
  rw [h]

theorem one_some {pick : τ → Option α} {e : List τ → ε} (h : pick t = some a) :
    one pick e (t :: ts) = (.ok a, ts) := by
  dsimp only [one]
  rw [h]

theorem one_none {pick : τ → Option α} {e : List τ → ε} (h : pick t = none) :
    one pick e (t :: ts) = (.error (e (t :: ts)), t :: ts) := by
  dsimp only [one]
  rw [h]

theorem prefixes_some {op : τ → Option (α → α)} {f : α → α} (h : op t = some f) :
    prefixes op p (t :: ts) = map f (prefixes op p) ts := by
  rw [prefixes, h]
  rfl

theorem prefixes_none {op : τ → Option (α → α)} (h : op t = none) :
    prefixes op p (t :: ts) = p (t :: ts) := by
  rw [prefixes, h]

section OnHead

variable {h : τ → Option (Parser τ ε α → Parser τ ε β)} {otherwise : Parser τ ε β}

theorem onHead_some {q : Parser τ ε α → Parser τ ε β} (ht : h t = some q) :
    onHead h otherwise p (t :: ts) = q p ts := by
  dsimp only [onHead]
  rw [ht]

theorem onHead_none (ht : h t = none) : onHead h otherwise p (t :: ts) = otherwise (t :: ts) := by
  dsimp only [onHead]
  rw [ht]

end OnHead

/-! ### Parts behind a token -/

/-- A parser around another one, which it may use on all of its tokens. -/
structure Inner (overrun : ε) (f : Parser τ ε α → Parser τ ε β) : Prop where
  shrinks : ∀ {p}, Shrinks p → Shrinks (f p)
  agree : ∀ {p p' k}, Shrinks p → AgreeBelow k p p' → AgreeBelow k (f p) (f p')
  fits : ∀ {p k}, Shrinks p → FitsBelow overrun k p → FitsBelow overrun k (f p)

namespace Inner

variable {f : Parser τ ε α → Parser τ ε β}

theorem self : Inner overrun fun p : Parser τ ε α => p where
  shrinks := id
  agree := fun _ h => h
  fits := fun _ h => h

/-- A parser that does not use the other one. -/
theorem const {q : Parser τ ε β} (hq : Shrinks q) (hfits : ∀ ts, (q ts).1 ≠ .error overrun) :
    Inner overrun fun _ : Parser τ ε α => q where
  shrinks := fun _ => hq
  agree := fun _ _ _ _ => rfl
  fits := fun _ _ ts _ => hfits ts

theorem ret (b : β) : Inner overrun fun _ : Parser τ ε α => (Parser.ret b : Parser τ ε β) :=
  const (fun _ => List.suffix_rfl) fun _ => nofun

theorem one {pick : τ → Option β} {e : List τ → ε} (he : ∀ ts, e ts ≠ overrun) :
    Inner overrun fun _ : Parser τ ε α => (Parser.one pick e : Parser τ ε β) := by
  refine const (fun ts => ?_) fun ts => ?_
  · cases ts with
    | nil => exact List.suffix_rfl
    | cons t ts =>
        cases h : pick t with
        | some b => rw [one_some h]; exact List.suffix_cons ..
        | none => simp only [one_none h, List.suffix_rfl]
  · cases ts with
    | nil => exact fun h => he [] (Except.error.inj h)
    | cons t ts =>
        cases h : pick t with
        | some b => rw [one_some h]; nofun
        | none => rw [one_none h]; exact fun h => he _ (Except.error.inj h)

theorem map (g : β → γ) (hf : Inner overrun f) : Inner overrun fun p => Parser.map g (f p) where
  shrinks := fun hp => (hf.shrinks hp).map
  agree := by
    intro p p' k hp h ts hts
    unfold Parser.map
    rw [hf.agree hp h ts hts]
  fits := fun hp h => (hf.fits hp h).map

theorem andThen {g : β → Parser τ ε α → Parser τ ε γ} (hf : Inner overrun f)
    (hg : ∀ b, Inner overrun (g b)) :
    Inner overrun fun p => Parser.andThen (f p) fun b => g b p where
  shrinks := by
    intro p hp ts
    have hfirst := hf.shrinks hp ts
    unfold Parser.andThen
    split
    · rename_i b ts' hr
      rw [hr] at hfirst
      exact ((hg b).shrinks hp ts').trans hfirst
    · rename_i e ts' hr
      rw [hr] at hfirst
      exact hfirst
  agree := by
    intro p p' k hp h ts hts
    have hfirst := (hf.shrinks hp).length ts
    unfold Parser.andThen
    rw [← hf.agree hp h ts hts]
    split
    · rename_i b ts' hr
      rw [hr] at hfirst
      exact (hg b).agree hp h ts' (Nat.lt_of_le_of_lt hfirst hts)
    · rfl
  fits := by
    intro p k hp h ts hts
    have hfirst := (hf.shrinks hp).length ts
    have hfits := hf.fits hp h ts hts
    unfold Parser.andThen
    split
    · rename_i b ts' hr
      rw [hr] at hfirst
      exact (hg b).fits hp h ts' (Nat.lt_of_le_of_lt hfirst hts)
    · rename_i e ts' hr
      rw [hr] at hfits
      exact fun he => hfits (by cases he; rfl)

theorem sepBy [DecidableEq τ] (sep : τ) (hf : Inner overrun f) :
    Inner overrun fun p => Parser.sepBy sep overrun (f p) where
  shrinks := fun hp => sepBy_shrinks (hf.shrinks hp)
  agree := fun hp h => sepBy_agree (hf.shrinks hp) (hf.agree hp h)
  fits := fun hp h => sepBy_fits (hf.shrinks hp) (hf.fits hp h)

/-- A choice by the next token. -/
theorem ite {c : List τ → Prop} [DecidablePred c] {g : Parser τ ε α → Parser τ ε β}
    (hf : Inner overrun f) (hg : Inner overrun g) :
    Inner overrun fun p ts => if c ts then f p ts else g p ts where
  shrinks := by
    intro p hp ts
    dsimp only
    split
    · exact hf.shrinks hp ts
    · exact hg.shrinks hp ts
  agree := by
    intro p p' k hp h ts hts
    dsimp only
    rw [hf.agree hp h ts hts, hg.agree hp h ts hts]
  fits := by
    intro p k hp h ts hts
    dsimp only
    split
    · exact hf.fits hp h ts hts
    · exact hg.fits hp h ts hts

end Inner

/-! ### Parts in front -/

/-- A parser around another one, which it uses behind a token only. -/
structure Outer (overrun : ε) (f : Parser τ ε α → Parser τ ε β) : Prop where
  descends : Descends f
  fits : Fits overrun f

namespace Outer

variable {f : Parser τ ε α → Parser τ ε β}

theorem onHead {h : τ → Option (Parser τ ε α → Parser τ ε β)} {otherwise : Parser τ ε β}
    (hh : ∀ t q, h t = some q → Inner overrun q) (ho : Shrinks otherwise)
    (hofits : ∀ ts, (otherwise ts).1 ≠ .error overrun) :
    Outer overrun (Parser.onHead h otherwise) where
  descends :=
    { shrinks := by
        intro p hp ts
        cases ts with
        | nil => exact ho []
        | cons t ts =>
            cases ht : h t with
            | none =>
                rw [onHead_none ht]
                exact ho (t :: ts)
            | some q =>
                rw [onHead_some ht]
                exact ((hh t q ht).shrinks hp ts).trans (List.suffix_cons ..)
      agree := by
        intro p p' k hp hagree ts hts
        cases ts with
        | nil => rfl
        | cons t ts =>
            cases ht : h t with
            | none => rw [onHead_none ht, onHead_none ht]
            | some q =>
                rw [onHead_some ht, onHead_some ht]
                exact (hh t q ht).agree hp hagree ts (Nat.lt_of_succ_lt_succ hts) }
  fits := by
    intro p k hp hfits ts hts
    cases ts with
    | nil => exact hofits []
    | cons t ts =>
        cases ht : h t with
        | none =>
            rw [onHead_none ht]
            exact hofits (t :: ts)
        | some q =>
            rw [onHead_some ht]
            exact (hh t q ht).fits hp hfits ts (Nat.lt_of_succ_lt_succ hts)

theorem prefixes {op : τ → Option (β → β)} (hf : Outer overrun f) :
    Outer overrun fun p => Parser.prefixes op (f p) where
  descends :=
    { shrinks := by
        intro p hp ts
        induction ts with
        | nil => exact hf.descends.shrinks hp []
        | cons t ts ih =>
            cases h : op t with
            | some g =>
                rw [prefixes_some h]
                exact ih.trans (List.suffix_cons ..)
            | none =>
                rw [prefixes_none h]
                exact hf.descends.shrinks hp (t :: ts)
      agree := by
        intro p p' k hp hagree ts hts
        induction ts with
        | nil => exact hf.descends.agree hp hagree [] hts
        | cons t ts ih =>
            cases h : op t with
            | some g =>
                rw [prefixes_some h, prefixes_some h]
                unfold Parser.map
                rw [ih (Nat.lt_of_succ_lt hts)]
            | none =>
                rw [prefixes_none h, prefixes_none h]
                exact hf.descends.agree hp hagree (t :: ts) hts }
  fits := by
    intro p k hp hfits ts hts
    dsimp only
    induction ts with
    | nil => exact hf.fits hp hfits [] hts
    | cons t ts ih =>
        cases h : op t with
        | some g =>
            rw [prefixes_some h]
            unfold Parser.map
            have hts := ih (Nat.lt_of_succ_lt hts)
            cases hr : (Parser.prefixes op (f p) ts).1 with
            | ok b => exact fun he => by cases he
            | error e =>
                rw [hr] at hts
                exact fun he => hts (by cases he; rfl)
        | none =>
            rw [prefixes_none h]
            exact hf.fits hp hfits (t :: ts) hts

theorem leftAssoc {f : Parser τ ε α → Parser τ ε α} {op : List τ → Option (β × List τ)}
    {join : β → α → α → α} (hop : Takes op) (hf : Outer overrun f) :
    Outer overrun fun p => Parser.leftAssoc op join overrun (f p) where
  descends := hf.descends.leftAssoc hop
  fits := .leftAssoc hop hf.descends hf.fits

end Outer

/-! ### Suffixes -/

section Suffixes

variable {suffix : β → τ → Option (Parser τ ε α → Parser τ ε β)}

theorem suffixLoop_shrinks (h : ∀ b t q, suffix b t = some q → Inner overrun q) (hp : Shrinks p)
    (n : ℕ) (b : β) : Shrinks (suffixLoop suffix overrun p n b) := by
  induction n generalizing b with
  | zero => exact fun _ => List.suffix_rfl
  | succ n ih =>
      intro ts
      cases ts with
      | nil => exact List.suffix_rfl
      | cons t ts =>
          unfold suffixLoop
          split
          · exact List.suffix_rfl
          · rename_i q hq
            have hfirst := (h b t q hq).shrinks hp ts
            unfold andThen
            split
            · rename_i b' ts' hr
              rw [hr] at hfirst
              exact (ih b' ts').trans (hfirst.trans (List.suffix_cons ..))
            · rename_i e ts' hr
              rw [hr] at hfirst
              exact hfirst.trans (List.suffix_cons ..)

/-- The bound on the rounds and the parser on more tokens do not matter. -/
theorem suffixLoop_agree (h : ∀ b t q, suffix b t = some q → Inner overrun q) (hp : Shrinks p)
    (hagree : AgreeBelow k p p') (hts : ts.length ≤ k) (hn : ts.length < n) (hm : ts.length < m) :
    suffixLoop suffix overrun p n b ts = suffixLoop suffix overrun p' m b ts := by
  induction n generalizing m b ts with
  | zero => exact absurd hn (Nat.not_lt_zero _)
  | succ n ih =>
      cases m with
      | zero => exact absurd hm (Nat.not_lt_zero _)
      | succ m =>
          cases ts with
          | nil => rfl
          | cons t ts =>
              rw [List.length_cons] at hts hn hm
              unfold suffixLoop
              split
              · rfl
              · rename_i q hq
                have hfirst := ((h b t q hq).shrinks hp).length ts
                have hsame := (h b t q hq).agree hp hagree ts (by omega)
                unfold andThen
                rw [← hsame]
                split
                · rename_i b' ts' hr
                  rw [hr] at hfirst
                  dsimp only at hfirst
                  exact ih (by omega) (by omega) (by omega)
                · rfl

theorem suffixLoop_fits (h : ∀ b t q, suffix b t = some q → Inner overrun q) (hp : Shrinks p)
    (hfits : FitsBelow overrun k p) (hts : ts.length ≤ k) (hn : ts.length < n) :
    (suffixLoop suffix overrun p n b ts).1 ≠ .error overrun := by
  induction n generalizing b ts with
  | zero => exact absurd hn (Nat.not_lt_zero _)
  | succ n ih =>
      cases ts with
      | nil => nofun
      | cons t ts =>
          rw [List.length_cons] at hts hn
          unfold suffixLoop
          split
          · nofun
          · rename_i q hq
            have hfirst := ((h b t q hq).shrinks hp).length ts
            have hq := (h b t q hq).fits hp hfits ts (by omega)
            unfold andThen
            split
            · rename_i b' ts' hr
              rw [hr] at hfirst
              dsimp only at hfirst
              exact ih (by omega) (by omega)
            · rename_i e ts' hr
              rw [hr] at hq
              exact fun he => hq (by cases he; rfl)

theorem suffixes_none (ht : suffix b t = none) :
    suffixes suffix overrun p b (t :: ts) = (.ok b, t :: ts) := by
  unfold suffixes
  rw [suffixLoop, ht]

theorem suffixes_some (h : ∀ b t q, suffix b t = some q → Inner overrun q) (hp : Shrinks p)
    {q : Parser τ ε α → Parser τ ε β} (hq : suffix b t = some q)
    (hr : q p ts = (.ok b', rest)) :
    suffixes suffix overrun p b (t :: ts) = suffixes suffix overrun p b' rest := by
  have hfirst := ((h b t q hq).shrinks hp).length ts
  rw [hr] at hfirst
  unfold suffixes
  rw [suffixLoop, hq]
  dsimp only
  rw [andThen_ok hr]
  exact suffixLoop_agree h hp (fun _ _ => rfl) (Nat.le_refl _) (Nat.lt_succ_of_le hfirst)
    (Nat.lt_succ_self _)

/-- Suffixes behind the first part of a parser. -/
theorem Outer.suffixes {f : Parser τ ε α → Parser τ ε β} (hf : Outer overrun f)
    (h : ∀ b t q, suffix b t = some q → Inner overrun q) :
    Outer overrun fun p => andThen (f p) (Parser.suffixes suffix overrun p) where
  descends :=
    { shrinks := by
        intro p hp ts
        have hfirst := hf.descends.shrinks hp ts
        unfold andThen
        split
        · rename_i b ts' hr
          rw [hr] at hfirst
          exact (suffixLoop_shrinks h hp _ b ts').trans hfirst
        · rename_i e ts' hr
          rw [hr] at hfirst
          exact hfirst
      agree := by
        intro p p' k hp hagree ts hts
        have hfirst := (hf.descends.shrinks hp).length ts
        unfold andThen
        rw [← hf.descends.agree hp hagree ts hts]
        split
        · rename_i b ts' hr
          rw [hr] at hfirst
          exact suffixLoop_agree h hp hagree (hfirst.trans (Nat.le_of_lt_succ hts))
            (Nat.lt_succ_self _) (Nat.lt_succ_self _)
        · rfl }
  fits := by
    intro p k hp hfits ts hts
    have hfirst := (hf.descends.shrinks hp).length ts
    have hends := hf.fits hp hfits ts hts
    dsimp only [andThen]
    split
    · rename_i b ts' hr
      rw [hr] at hfirst
      exact suffixLoop_fits h hp hfits (hfirst.trans (Nat.le_of_lt_succ hts)) (Nat.lt_succ_self _)
    · rename_i e ts' hr
      rw [hr] at hends
      exact fun he => hends (by cases he; rfl)

end Suffixes

/-! ### What a parser gives -/

section Yields

theorem yields_ret (ha : P a) : Yields Q P (ret a : Parser τ ε α) := by
  refine fun ts hts => ⟨hts, ?_⟩
  rintro _ ⟨⟩
  exact ha

theorem yields_fail (e : List τ → ε) : Yields Q P (fail e : Parser τ ε α) :=
  fun _ hts => ⟨hts, nofun⟩

theorem Yields.andThen {f : α → Parser τ ε β} (hp : Yields Q P p)
    (hf : ∀ a, P a → Yields Q P' (f a)) : Yields Q P' (andThen p f) := by
  intro ts hts
  obtain ⟨hrest, hvalue⟩ := hp ts hts
  unfold Parser.andThen
  split
  · rename_i a ts' hr
    rw [hr] at hrest hvalue
    exact hf a (hvalue a rfl) ts' hrest
  · rename_i e ts' hr
    rw [hr] at hrest
    exact ⟨hrest, nofun⟩

theorem Yields.ite {c : List τ → Prop} [DecidablePred c] (hp : Yields Q P p) (hp' : Yields Q P p') :
    Yields Q P fun ts => if c ts then p ts else p' ts := by
  intro ts hts
  dsimp only
  split
  · exact hp ts hts
  · exact hp' ts hts

theorem yields_one {pick : τ → Option α} {e : List τ → ε}
    (h : ∀ t a, Q t → pick t = some a → P a) : Yields Q P (one pick e) := by
  intro ts hts
  cases ts with
  | nil => exact ⟨hts, nofun⟩
  | cons t ts =>
      obtain ⟨ht, hts'⟩ := List.forall_mem_cons.mp hts
      cases hpick : pick t with
      | some a =>
          rw [one_some hpick]
          refine ⟨hts', ?_⟩
          rintro _ ⟨⟩
          exact h t a ht hpick
      | none =>
          rw [one_none hpick]
          exact ⟨hts, nofun⟩

theorem Yields.prefixes {op : τ → Option (α → α)} (hp : Yields Q P p)
    (h : ∀ t f a, op t = some f → P a → P (f a)) : Yields Q P (prefixes op p) := by
  intro ts
  induction ts with
  | nil => exact hp []
  | cons t ts ih =>
      intro hts
      cases hop : op t with
      | some f =>
          obtain ⟨hrest, hvalue⟩ := ih (List.forall_mem_cons.mp hts).2
          rw [prefixes_some hop]
          refine ⟨hrest, fun b hb => ?_⟩
          unfold Parser.map at hb
          dsimp only at hb
          cases hr : (Parser.prefixes op p ts).1 with
          | error e =>
              rw [hr] at hb
              cases hb
          | ok a =>
              rw [hr] at hb
              cases hb
              exact h t f a hop (hvalue a hr)
      | none =>
          rw [prefixes_none hop]
          exact hp (t :: ts) hts

theorem Yields.onHead {h : τ → Option (Parser τ ε α → Parser τ ε β)} {otherwise : Parser τ ε β}
    (hh : ∀ t q, Q t → h t = some q → Yields Q P' (q p)) (ho : Yields Q P' otherwise) :
    Yields Q P' (onHead h otherwise p) := by
  intro ts hts
  cases ts with
  | nil => exact ho [] hts
  | cons t ts =>
      obtain ⟨ht, hts'⟩ := List.forall_mem_cons.mp hts
      cases hq : h t with
      | none =>
          rw [onHead_none hq]
          exact ho (t :: ts) hts
      | some q =>
          rw [onHead_some hq]
          exact hh t q ht hq ts hts'

theorem Yields.suffixes {suffix : β → τ → Option (Parser τ ε α → Parser τ ε β)}
    (h : ∀ b t q, P' b → Q t → suffix b t = some q → Yields Q P' (q p)) (hb : P' b) :
    Yields Q P' (suffixes suffix overrun p b) := by
  have hloop : ∀ n b, P' b → Yields Q P' (suffixLoop suffix overrun p n b) := by
    intro n
    induction n with
    | zero => exact fun _ _ => yields_overrun overrun
    | succ n ih =>
        intro b hb ts hts
        have hdone : ∀ ts : List τ, (∀ t ∈ ts, Q t) → (∀ t ∈ ts, Q t) ∧
            ∀ b', (.ok b : Except ε β) = .ok b' → P' b' := by
          refine fun ts hts => ⟨hts, ?_⟩
          rintro _ ⟨⟩
          exact hb
        cases ts with
        | nil => exact hdone [] hts
        | cons t ts =>
            obtain ⟨ht, hts'⟩ := List.forall_mem_cons.mp hts
            unfold suffixLoop
            split
            · exact hdone _ hts
            · rename_i q hq
              exact (h b t q hb ht hq).andThen ih ts hts'
  exact fun ts hts => hloop _ b hb ts hts

end Yields

end Parser
