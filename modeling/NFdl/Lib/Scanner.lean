import Mathlib.Data.List.Basic
import Mathlib.Order.Nat

/-!
# Scanners

A scanner is a computation with a state that it uses up, and that is kept when it fails.
Loops have a bound on their rounds, which a failure of its own kind reports. A scanner
settles when it never makes the state larger and never reaches such a bound.
-/

namespace Scanner

variable {ε σ α β : Type} {p : EStateM ε σ α} {f : α → EStateM ε σ β} {s s' : σ} {a : α} {e : ε}

/-- The state after a computation, also when it failed. -/
def after : EStateM.Result ε σ α → σ
  | .ok _ s => s
  | .error _ s => s

@[simp] theorem after_ok : after (.ok a s : EStateM.Result ε σ α) = s := rfl

@[simp] theorem after_error : after (.error e s : EStateM.Result ε σ α) = s := rfl

theorem bind_ok (h : p s = .ok a s') : (p >>= f) s = f a s' := by
  change EStateM.bind p f s = _
  unfold EStateM.bind
  rw [h]

theorem bind_error (h : p s = .error e s') : (p >>= f) s = .error e s' := by
  change EStateM.bind p f s = _
  unfold EStateM.bind
  rw [h]

/-- The parts of a computation that gives a value. -/
theorem bind_eq_ok {b : β} {s'' : σ} (h : (p >>= f) s = .ok b s'') :
    ∃ a s', p s = .ok a s' ∧ f a s' = .ok b s'' := by
  cases hp : p s with
  | ok a s' => exact ⟨a, s', rfl, (bind_ok hp).symm.trans h⟩
  | error e s' => cases (bind_error hp).symm.trans h

theorem map_ok {g : α → β} (h : p s = .ok a s') : (g <$> p) s = .ok (g a) s' := by
  change EStateM.map g p s = _
  unfold EStateM.map
  rw [h]

theorem map_error {g : α → β} (h : p s = .error e s') : (g <$> p) s = .error e s' := by
  change EStateM.map g p s = _
  unfold EStateM.map
  rw [h]

/-- The value of a computation, if it has one. What it used up is gone in both cases. -/
def attempt (p : EStateM ε σ α) : EStateM ε σ (Option α) := fun s =>
  match p s with
  | .ok a s' => .ok (some a) s'
  | .error _ s' => .ok none s'

/-! ### Loops -/

section Loops

variable {size : σ → ℕ} {stop : σ → Bool} {overrun : ε} {step : α → EStateM ε σ α} {n k : ℕ}

/-- Change a value again and again until the state is at a stop. -/
def untilWithin (stop : σ → Bool) (overrun : ε) (step : α → EStateM ε σ α) :
    ℕ → α → EStateM ε σ α
  | 0, _, s => .error overrun s
  | n + 1, a, s => if stop s then .ok a s else (step a >>= untilWithin stop overrun step n) s

/-- A loop with more rounds than the state has parts. -/
def untilStop (size : σ → ℕ) (stop : σ → Bool) (overrun : ε) (step : α → EStateM ε σ α) (a : α) :
    EStateM ε σ α := fun s =>
  untilWithin stop overrun step (size s + 1) a s

/-- A loop over values is a loop over what a function makes of them, when its rounds are. -/
theorem map_untilStop {g : α → β} {step' : β → EStateM ε σ β} (h : ∀ a, g <$> step a = step' (g a))
    (a : α) :
    g <$> untilStop size stop overrun step a = untilStop size stop overrun step' (g a) := by
  have hwithin : ∀ n a, g <$> untilWithin stop overrun step n a =
      untilWithin stop overrun step' n (g a) := by
    intro n
    induction n with
    | zero => exact fun a => rfl
    | succ n ih =>
        intro a
        have hround : g <$> (step a >>= untilWithin stop overrun step n) =
            step' (g a) >>= untilWithin stop overrun step' n := by
          rw [map_bind, funext ih, ← h, bind_map_left]
        funext s
        have hround := congrFun hround s
        rw [untilWithin]
        cases hs : stop s with
        | true =>
            have hstop : untilWithin stop overrun step n.succ a s = .ok a s := by
              rw [untilWithin, hs]
              rfl
            exact map_ok hstop
        | false =>
            refine Eq.trans ?_ hround
            change EStateM.map g _ s = EStateM.map g _ s
            unfold EStateM.map
            rw [untilWithin, hs]
            rfl
  funext s
  exact congrFun (hwithin (size s + 1) a) s

/-- A loop is at the encodings of some items. The state may hold more than what it reads. -/
structure Items {τ β : Type} (At : σ → List τ → Prop) (Good : List τ → Prop)
    (stop : σ → Bool) (step : α → EStateM ε σ α) (encode : β → List τ) (push : α → β → α)
    (items : List β) : Prop where
  /-- A round reads an item. -/
  reads : ∀ a, ∀ b ∈ items, ∀ rest s, Good rest → At s (encode b ++ rest) →
    ∃ s', step a s = .ok (push a b) s' ∧ At s' rest
  goes : ∀ b ∈ items, ∀ rest s, Good rest → At s (encode b ++ rest) → stop s = false
  good : ∀ b ∈ items, ∀ rest, Good rest → Good (encode b ++ rest)

section Items

variable {τ β : Type} {At : σ → List τ → Prop} {Good : List τ → Prop} {encode : β → List τ}
variable {push : α → β → α} {items : List β} {rest : List τ}

theorem Items.tail {b : β} (h : Items At Good stop step encode push (b :: items)) :
    Items At Good stop step encode push items where
  reads := fun a b hb => h.reads a b (List.mem_cons_of_mem _ hb)
  goes := fun b hb => h.goes b (List.mem_cons_of_mem _ hb)
  good := fun b hb => h.good b (List.mem_cons_of_mem _ hb)

theorem Items.rest_good (h : Items At Good stop step encode push items) (hrest : Good rest) :
    Good (items.flatMap encode ++ rest) := by
  induction items with
  | nil => exact hrest
  | cons b bs ih =>
      rw [List.flatMap_cons, List.append_assoc]
      exact h.good b (List.mem_cons_self ..) _ (ih h.tail)

variable (a overrun)

/-- What a loop does behind some items is what it does at the tokens that follow them. -/
theorem Items.untilWithin (h : Items At Good stop step encode push items) (hrest : Good rest)
    (hs : At s (items.flatMap encode ++ rest)) (n : ℕ) : ∃ s', At s' rest ∧
      untilWithin stop overrun step (items.length + n) a s =
        Scanner.untilWithin stop overrun step n (items.foldl push a) s' := by
  induction items generalizing a s with
  | nil => exact ⟨s, hs, by rw [List.length_nil, Nat.zero_add]; rfl⟩
  | cons b bs ih =>
      have hb := List.mem_cons_self (a := b) (l := bs)
      have hgood := h.tail.rest_good hrest
      rw [List.flatMap_cons, List.append_assoc] at hs
      obtain ⟨s', hread, hs'⟩ := h.reads a b hb _ s hgood hs
      obtain ⟨s'', hs'', hloop⟩ := ih (push a b) h.tail hs'
      refine ⟨s'', hs'', ?_⟩
      rw [List.length_cons, Nat.succ_add, Scanner.untilWithin, h.goes b hb _ s hgood hs]
      rw [if_neg (by decide), bind_ok hread]
      exact hloop

variable (size) (hsize : ∀ s ts, At s ts → size s = ts.length) (hlong : ∀ b ∈ items, encode b ≠ [])

include hsize hlong

theorem Items.rounds (hs : At s (items.flatMap encode ++ rest)) :
    ∃ n, size s + 1 = items.length + (n + 1) ∧ rest.length ≤ n := by
  have hlength : items.length ≤ (items.flatMap encode).length := by
    clear hs
    induction items with
    | nil => exact Nat.zero_le _
    | cons b bs ih =>
        have hb := List.length_pos_of_ne_nil (hlong b (List.mem_cons_self ..))
        have hbs := ih fun b hb => hlong b (List.mem_cons_of_mem _ hb)
        rw [List.flatMap_cons, List.length_append, List.length_cons]
        omega
  have hs := hsize s _ hs
  rw [List.length_append] at hs
  exact ⟨size s - items.length, by omega, by omega⟩

/-- A loop over items in front of a stop. -/
theorem Items.untilStop (h : Items At Good stop step encode push items) (hrest : Good rest)
    (hstop : ∀ s, At s rest → stop s = true) (hs : At s (items.flatMap encode ++ rest)) :
    ∃ s', untilStop size stop overrun step a s = .ok (items.foldl push a) s' ∧ At s' rest := by
  obtain ⟨n, hn, -⟩ := Items.rounds size hsize hlong hs
  obtain ⟨s', hs', hloop⟩ := h.untilWithin a overrun hrest hs (n + 1)
  refine ⟨s', ?_, hs'⟩
  unfold Scanner.untilStop
  rw [hn, hloop, Scanner.untilWithin, hstop s' hs']
  exact if_pos rfl

/-- A loop over items in front of one that cannot be read. -/
theorem Items.untilStop_error (h : Items At Good stop step encode push items) (hrest : Good rest)
    (hfail : ∀ a s, At s rest → stop s = false ∧ ∃ e s', step a s = .error e s')
    (hs : At s (items.flatMap encode ++ rest)) :
    ∃ e s', Scanner.untilStop size stop overrun step a s = .error e s' := by
  obtain ⟨n, hn, -⟩ := Items.rounds size hsize hlong hs
  obtain ⟨s', hs', hloop⟩ := h.untilWithin a overrun hrest hs (n + 1)
  obtain ⟨hgo, e, s'', hstep⟩ := hfail (items.foldl push a) s' hs'
  refine ⟨e, s'', ?_⟩
  unfold Scanner.untilStop
  rw [hn, hloop, Scanner.untilWithin, hgo, if_neg (by decide), bind_error hstep]

end Items

/-- More rounds than enough change nothing. -/
theorem untilWithin_more {m : ℕ} (hm : n ≤ m)
    (hfits : ∀ s', untilWithin stop overrun step n a s ≠ .error overrun s') :
    untilWithin stop overrun step m a s = untilWithin stop overrun step n a s := by
  induction n generalizing m a s with
  | zero => exact absurd rfl (hfits s)
  | succ n ih =>
      obtain ⟨m, rfl⟩ := Nat.exists_eq_add_one_of_ne_zero (Nat.ne_zero_of_lt hm)
      unfold untilWithin at hfits ⊢
      split
      · rfl
      · rename_i hgo
        rw [if_neg hgo] at hfits
        cases hr : step a s with
        | ok a' s' =>
            rw [bind_ok hr] at hfits
            rw [bind_ok hr, bind_ok hr]
            exact ih (Nat.le_of_succ_le_succ hm) hfits
        | error e s' => rw [bind_error hr, bind_error hr]

end Loops

/-! ### Bounds -/

/-- How much is left of a state, what is true of every state, and the error of a loop with too
few rounds. -/
structure Measure (σ ε : Type) where
  size : σ → ℕ
  Ok : σ → Prop
  overrun : ε

section Bounds

variable {m : Measure σ ε} {stop : σ → Bool} {n n' k : ℕ} {r : EStateM.Result ε σ α}

/-- A result that leaves no more than this, and that is not due to a bound. -/
structure Ends (m : Measure σ ε) (n : ℕ) (r : EStateM.Result ε σ α) : Prop where
  ok : m.Ok (after r)
  size : m.size (after r) ≤ n
  fits : ∀ s, r ≠ .error m.overrun s

theorem Ends.mono (h : Ends m n r) (hn : n ≤ n') : Ends m n' r :=
  ⟨h.ok, h.size.trans hn, h.fits⟩

theorem ends_ok (hok : m.Ok s) (hs : m.size s ≤ n) : Ends m n (.ok a s : EStateM.Result ε σ α) :=
  ⟨hok, hs, nofun⟩

theorem ends_error (hok : m.Ok s) (hs : m.size s ≤ n) (he : e ≠ m.overrun) :
    Ends m n (.error e s : EStateM.Result ε σ α) :=
  ⟨hok, hs, fun _ h => he (by cases h; rfl)⟩

theorem Ends.error_ne (h : Ends m n (.error e s : EStateM.Result ε σ α)) : e ≠ m.overrun :=
  fun he => h.fits s (by rw [he])

/-- An error stays the same error for values of another type. -/
theorem Ends.error (h : Ends m n (.error e s : EStateM.Result ε σ α)) :
    Ends m n (.error e s : EStateM.Result ε σ β) :=
  ends_error h.ok h.size h.error_ne

theorem Ends.bind (hp : Ends m n (p s)) (hn : n ≤ n')
    (hf : ∀ a s', m.Ok s' → m.size s' ≤ n → Ends m n' (f a s')) : Ends m n' ((p >>= f) s) := by
  cases hr : p s with
  | ok a s' =>
      rw [hr] at hp
      rw [bind_ok hr]
      exact hf a s' hp.ok hp.size
  | error e s' =>
      rw [hr] at hp
      rw [bind_error hr]
      exact hp.error.mono hn

/-- On states below some size, a scanner does not make the state larger and does not reach
a bound. -/
def Settles (m : Measure σ ε) (k : ℕ) (p : EStateM ε σ α) : Prop :=
  ∀ s, m.Ok s → m.size s < k → Ends m (m.size s) (p s)

/-- A scanner that settles and makes every state smaller. -/
def Consumes (m : Measure σ ε) (k : ℕ) (p : EStateM ε σ α) : Prop :=
  ∀ s n, m.Ok s → m.size s = n + 1 → n + 1 < k → Ends m n (p s)

theorem Settles.mono {k' : ℕ} (hp : Settles m k p) (h : k' ≤ k) : Settles m k' p :=
  fun s hok hs => hp s hok (Nat.lt_of_lt_of_le hs h)

/-- What a scanner that settles does on a smaller state. -/
theorem Settles.on (hp : Settles m k p) (hok : m.Ok s) (hs : m.size s ≤ n) (hk : n < k) :
    Ends m n (p s) :=
  (hp s hok (Nat.lt_of_le_of_lt hs hk)).mono hs

/-- What is true of every state is true after a value. -/
theorem Settles.keeps (hp : ∀ k, Settles m k p) (hok : m.Ok s) (h : p s = .ok a s') : m.Ok s' := by
  have hends := hp _ s hok (Nat.lt_succ_self _)
  rw [h] at hends
  exact hends.ok

theorem Settles.pure : Settles m k (pure a : EStateM ε σ α) :=
  fun _ hok _ => ends_ok hok (Nat.le_refl _)

theorem Settles.throw (h : e ≠ m.overrun) : Settles m k (throw e : EStateM ε σ α) :=
  fun _ hok _ => ends_error hok (Nat.le_refl _) h

theorem Settles.bind (hp : Settles m k p) (hf : ∀ a, Settles m k (f a)) :
    Settles m k (p >>= f) :=
  fun s hok hs => (hp s hok hs).bind (Nat.le_refl _) fun a _ hok' hs' => (hf a).on hok' hs' hs

/-- After something is used up, the rest is given a smaller state. -/
theorem Consumes.bind (hp : Consumes m k p) (hf : ∀ a, Settles m (k - 1) (f a)) :
    Consumes m k (p >>= f) :=
  fun s n hok hs hn => (hp s n hok hs hn).bind (Nat.le_refl _) fun a _ hok' hs' =>
    (hf a).on hok' hs' (Nat.lt_sub_of_add_lt hn)

/-- Looking at the state does not use it up. -/
theorem Consumes.afterLook (hp : ∀ s, ∃ a, p s = .ok a s) (hf : ∀ a, Consumes m k (f a)) :
    Consumes m k (p >>= f) := by
  intro s
  obtain ⟨a, ha⟩ := hp s
  rw [bind_ok ha]
  exact hf a s

theorem Settles.map {g : α → β} (hp : Settles m k p) : Settles m k (g <$> p) := by
  rw [map_eq_pure_bind]
  exact hp.bind fun _ => .pure

theorem attempt_ends (h : Ends m n (p s)) : Ends m n (attempt p s) := by
  unfold attempt
  cases hr : p s with
  | ok a s' =>
      rw [hr] at h
      exact ends_ok h.ok h.size
  | error e s' =>
      rw [hr] at h
      exact ends_ok h.ok h.size

theorem Settles.attempt (hp : Settles m k p) : Settles m k (attempt p) :=
  fun s hok hs => attempt_ends (hp s hok hs)

theorem Consumes.attempt (hp : Consumes m k p) : Consumes m k (attempt p) :=
  fun s n hok hs hn => attempt_ends (hp s n hok hs hn)

/-- A result that leaves no more than this, and less where it is a value. -/
structure Advances (m : Measure σ ε) (n : ℕ) (r : EStateM.Result ε σ α) : Prop where
  ends : Ends m n r
  less : ∀ a s, r = .ok a s → m.size s < n

/-- A scanner that settles and makes the state smaller when it gives a value. -/
def Moves (m : Measure σ ε) (k : ℕ) (p : EStateM ε σ α) : Prop :=
  ∀ s, m.Ok s → m.size s < k → Advances m (m.size s) (p s)

theorem Ends.advances (h : Ends m n r) (hn : n < n') : Advances m n' r where
  ends := h.mono hn.le
  less := by
    rintro a s rfl
    exact h.size.trans_lt hn

theorem Moves.settles (hp : Moves m k p) : Settles m k p := fun s hok hs => (hp s hok hs).ends

theorem Moves.bind (hp : Moves m k p) (hf : ∀ a, Settles m k (f a)) : Moves m k (p >>= f) := by
  intro s hok hs
  obtain ⟨hends, hless⟩ := hp s hok hs
  refine ⟨hends.bind (Nat.le_refl _) fun a _ hok' hs' => (hf a).on hok' hs' hs, ?_⟩
  cases hr : p s with
  | ok a s' =>
      rw [hr] at hends hless
      have hs' := hless a s' rfl
      rw [bind_ok hr]
      intro b s'' hb
      have hrest := (hf a s' hends.ok (hs'.trans hs)).size
      rw [hb] at hrest
      exact hrest.trans_lt hs'
  | error e s' =>
      rw [bind_error hr]
      nofun

theorem Settles.bindMoves (hp : Settles m k p) (hf : ∀ a, Moves m k (f a)) :
    Moves m k (p >>= f) := by
  intro s hok hs
  have hends := hp s hok hs
  refine ⟨hends.bind (Nat.le_refl _) fun a _ hok' hs' => (hf a).settles.on hok' hs' hs, ?_⟩
  cases hr : p s with
  | ok a s' =>
      rw [hr] at hends
      rw [bind_ok hr]
      intro b s'' hb
      exact ((hf a s' hends.ok (hends.size.trans_lt hs)).less b s'' hb).trans_le hends.size
  | error e s' =>
      rw [bind_error hr]
      nofun

theorem Moves.map {g : α → β} (hp : Moves m k p) : Moves m k (g <$> p) := by
  rw [map_eq_pure_bind]
  exact hp.bind fun _ => .pure

/-- A loop settles when every round fails or uses up something. -/
theorem Settles.loop {step : α → EStateM ε σ α}
    (hstep : ∀ a s, m.Ok s → m.size s < k → stop s = false → Advances m (m.size s) (step a s))
    (a : α) : Settles m k (untilStop m.size stop m.overrun step a) := by
  have hwithin : ∀ n a s, m.Ok s → m.size s < k → m.size s < n →
      Ends m (m.size s) (untilWithin stop m.overrun step n a s) := by
    intro n
    induction n with
    | zero => exact fun a s _ _ hn => absurd hn (Nat.not_lt_zero _)
    | succ n ih =>
        intro a s hok hs hn
        unfold untilWithin
        split
        · exact ends_ok hok (Nat.le_refl _)
        · rename_i hgo
          obtain ⟨hends, hless⟩ := hstep a s hok hs (eq_false_of_ne_true hgo)
          cases hr : step a s with
          | ok a' s' =>
              rw [hr] at hends hless
              have hs' := hless a' s' rfl
              rw [bind_ok hr]
              exact (ih a' s' hends.ok (hs'.trans hs) (by omega)).mono hs'.le
          | error e s' =>
              rw [hr] at hends
              rw [bind_error hr]
              exact hends.error
  exact fun s hok hs => hwithin _ a s hok hs (Nat.lt_succ_self _)

/-- A loop settles when every round uses up something. -/
theorem Settles.untilStop {step : α → EStateM ε σ α} (hstep : ∀ a, Consumes m k (step a))
    (hgo : ∀ s, m.Ok s → stop s = false → 0 < m.size s) (a : α) :
    Settles m k (untilStop m.size stop m.overrun step a) := by
  refine .loop (fun a s hok hs hstop => ?_) a
  obtain ⟨j, hj⟩ := Nat.exists_eq_add_one_of_ne_zero (hgo s hok hstop).ne'
  rw [hj] at hs ⊢
  exact (hstep a s j hok hj hs).advances (Nat.lt_succ_self j)

end Bounds

/-! ### What a scanner gives -/

section Gives

variable {Ok : σ → Prop} {P : α → Prop} {P' : β → Prop}

/-- A value of a kind, and a state of a kind again. -/
def Gives (Ok : σ → Prop) (P : α → Prop) (p : EStateM ε σ α) : Prop :=
  ∀ ⦃s a s'⦄, Ok s → p s = .ok a s' → P a ∧ Ok s'

theorem Gives.mono {P₂ : α → Prop} (h : Gives Ok P p) (hP : ∀ a, P a → P₂ a) : Gives Ok P₂ p :=
  fun _ _ _ hs hr => (h hs hr).imp_left (hP _)

theorem Gives.pure (ha : P a) : Gives Ok P (pure a : EStateM ε σ α) := by
  rintro s _ _ hs ⟨⟩
  exact ⟨ha, hs⟩

theorem Gives.throw : Gives Ok P (throw e : EStateM ε σ α) := by
  rintro s _ _ hs ⟨⟩

theorem Gives.bind (hp : Gives Ok P p) (hf : ∀ a, P a → Gives Ok P' (f a)) :
    Gives Ok P' (p >>= f) := by
  intro s b s'' hs hr
  cases hp' : p s with
  | ok a s' =>
      obtain ⟨ha, hs'⟩ := hp hs hp'
      rw [bind_ok hp'] at hr
      exact hf a ha hs' hr
  | error e s' =>
      rw [bind_error hp'] at hr
      cases hr

theorem Gives.map {g : α → β} (hp : Gives Ok P p) (hg : ∀ a, P a → P' (g a)) :
    Gives Ok P' (g <$> p) := by
  rw [map_eq_pure_bind]
  exact hp.bind fun a ha => .pure (hg a ha)

/-- What every round of a loop keeps. -/
theorem Gives.untilStop {size : σ → ℕ} {stop : σ → Bool} {overrun : ε}
    {step : α → EStateM ε σ α} (hstep : ∀ a, P a → Gives Ok P (step a)) (ha : P a) :
    Gives Ok P (untilStop size stop overrun step a) := by
  have hwithin : ∀ n a, P a → Gives Ok P (untilWithin stop overrun step n a) := by
    intro n
    induction n with
    | zero =>
        rintro a - s _ _ - ⟨⟩
    | succ n ih =>
        intro a ha s b s' hs hr
        unfold untilWithin at hr
        split at hr
        · cases hr
          exact ⟨ha, hs⟩
        · exact (hstep a ha).bind ih hs hr
  exact fun s b s' hs hr => hwithin _ a ha hs hr

end Gives

end Scanner
