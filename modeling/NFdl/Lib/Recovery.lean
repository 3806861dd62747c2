import NFdl.Lib.Scanner

/-!
# Parsers with recovery

A parser with two modes. Without recovery it stops at the first error. With recovery it
records an error at certain places, moves on in the input and continues. Both modes accept
the same input when every error is passed on or recorded, and when nothing else depends on
the mode.
-/

namespace Recovery

open Scanner (after after_ok after_error bind_ok bind_error map_ok map_error untilStop)

/-- The input, the mode and the errors that were recorded. -/
structure State (ι ε : Type) where
  input : ι
  recover : Bool
  diags : List ε

/-- A computation of a parser with recovery. -/
abbrev M (ι ε α : Type) : Type := EStateM ε (State ι ε) α

variable {ι ε α β : Type} {p : M ι ε α} {f : α → M ι ε β} {i i' : ι} {ds : List ε} {a : α} {e : ε}

/-- A computation that neither knows the mode nor records errors. -/
def silently (p : EStateM ε ι α) : M ι ε α := fun s =>
  match p s.input with
  | .ok a i => .ok a { s with input := i }
  | .error e i => .error e { s with input := i }

instance : MonadLift (EStateM ε ι) (EStateM ε (State ι ε)) where
  monadLift p := silently p

theorem silently_ok {q : EStateM ε ι α} {s : State ι ε} (h : q s.input = .ok a i) :
    silently q s = .ok a { s with input := i } := by
  unfold silently
  rw [h]

theorem silently_error {q : EStateM ε ι α} {s : State ι ε} (h : q s.input = .error e i) :
    silently q s = .error e { s with input := i } := by
  unfold silently
  rw [h]

/-- The value of a computation. Where it has none, its error is recorded, or is an error of
the whole. -/
def recoverItem (resync : ι → ι) (p : M ι ε α) : M ι ε (Option α) := fun s =>
  match p s with
  | .ok a s' => .ok (some a) s'
  | .error e s' =>
      if s'.recover then
        .ok none { s' with input := resync s'.input, diags := s'.diags ++ [e] }
      else .error e s'

theorem map_silently {g : α → β} (q : EStateM ε ι α) : g <$> silently q = silently (g <$> q) := by
  funext s
  cases hq : q s.input with
  | ok a i => rw [map_ok (silently_ok hq), silently_ok (map_ok hq)]
  | error e i => rw [map_error (silently_error hq), silently_error (map_error hq)]

section RecoverItem

variable {resync : ι → ι} {s s' : State ι ε}

theorem recoverItem_ok (h : p s = .ok a s') : recoverItem resync p s = .ok (some a) s' := by
  unfold recoverItem
  rw [h]

theorem recoverItem_error (h : p s = .error e s') : recoverItem resync p s =
    if s'.recover then .ok none { s' with input := resync s'.input, diags := s'.diags ++ [e] }
    else .error e s' := by
  unfold recoverItem
  rw [h]

theorem map_recoverItem {g : α → β} (resync : ι → ι) (p : M ι ε α) :
    Option.map g <$> recoverItem resync p = recoverItem resync (g <$> p) := by
  funext s
  cases hp : p s with
  | ok a s' =>
      rw [map_ok (recoverItem_ok hp), recoverItem_ok (map_ok hp)]
      rfl
  | error e s' =>
      have hitem := @recoverItem_error _ _ _ _ _ resync _ _ hp
      rw [recoverItem_error (map_error hp)]
      split at hitem
      · rename_i hmode
        rw [map_ok hitem, if_pos hmode]
        rfl
      · rename_i hmode
        rw [map_error hitem, if_neg hmode]

end RecoverItem

/-- Record an error and move on in the input, or fail with the error. -/
def reject (resync : ι → ι) (e : ε) : M ι ε Unit :=
  (fun _ => ()) <$> recoverItem resync (throw e : M ι ε Unit)

/-! ### The two modes -/

def failFast (p : M ι ε α) (i : ι) : Except ε α :=
  match p ⟨i, false, []⟩ with
  | .ok a _ => .ok a
  | .error e _ => .error e

/-- The value, or a default for it, and the errors that were recorded. -/
def collecting (p : M ι ε α) (default : α) (i : ι) : α × List ε :=
  match p ⟨i, true, []⟩ with
  | .ok a s => (a, s.diags)
  | .error e s => (default, s.diags ++ [e])

/-- Beside the given errors, the given one is the first of those that were recorded and of the
one with which the computation failed. -/
def LedBy (ds : List ε) (e : ε) : EStateM.Result ε (State ι ε) α → Prop
  | .ok _ s => ∃ more, s.diags = ds ++ e :: more
  | .error e' s => ∃ more, s.diags ++ [e'] = ds ++ e :: more

/-- Errors are only added, and in both modes the computation does the same up to the first
one. -/
structure Agrees (p : M ι ε α) : Prop where
  mode : ∀ s, (after (p s)).recover = s.recover
  grows : ∀ s, ∃ more, (after (p s)).diags = s.diags ++ more
  agree : ∀ i ds,
    (∃ a i', p ⟨i, false, ds⟩ = .ok a ⟨i', false, ds⟩ ∧ p ⟨i, true, ds⟩ = .ok a ⟨i', true, ds⟩) ∨
      ∃ e s, p ⟨i, false, ds⟩ = .error e s ∧ LedBy ds e (p ⟨i, true, ds⟩)

/-! ### Agreement of the modes -/

theorem Agrees.silently (q : EStateM ε ι α) : Agrees (silently q) where
  mode := by
    intro s
    unfold Recovery.silently
    split <;> rfl
  grows := by
    intro s
    unfold Recovery.silently
    split <;> exact ⟨[], (List.append_nil _).symm⟩
  agree := by
    intro i ds
    unfold Recovery.silently
    cases hq : q i with
    | ok a i' => exact .inl ⟨a, i', rfl, rfl⟩
    | error e i' => exact .inr ⟨e, _, rfl, [], rfl⟩

theorem Agrees.lift (q : EStateM ε ι α) : Agrees (liftM q : M ι ε α) := .silently q

theorem Agrees.pure : Agrees (pure a : M ι ε α) where
  mode := fun _ => rfl
  grows := fun _ => ⟨[], (List.append_nil _).symm⟩
  agree := fun i _ => .inl ⟨a, i, rfl, rfl⟩

theorem Agrees.throw : Agrees (throw e : M ι ε α) where
  mode := fun _ => rfl
  grows := fun _ => ⟨[], (List.append_nil _).symm⟩
  agree := fun _ _ => .inr ⟨e, _, rfl, [], rfl⟩

theorem Agrees.bind (hp : Agrees p) (hf : ∀ a, Agrees (f a)) : Agrees (p >>= f) where
  mode := by
    intro s
    have hmode := hp.mode s
    cases hr : p s with
    | ok a s' =>
        rw [hr] at hmode
        rw [bind_ok hr]
        exact ((hf a).mode s').trans hmode
    | error e s' =>
        rw [hr] at hmode
        rw [bind_error hr]
        exact hmode
  grows := by
    intro s
    obtain ⟨more, hmore⟩ := hp.grows s
    cases hr : p s with
    | ok a s' =>
        rw [hr, after_ok] at hmore
        obtain ⟨more', hmore'⟩ := (hf a).grows s'
        rw [bind_ok hr, hmore', hmore, List.append_assoc]
        exact ⟨more ++ more', rfl⟩
    | error e s' =>
        rw [hr] at hmore
        rw [bind_error hr]
        exact ⟨more, hmore⟩
  agree := by
    intro i ds
    obtain ⟨a, i', hfast, hrecover⟩ | ⟨e, s, hfast, hled⟩ := hp.agree i ds
    · rw [bind_ok hfast, bind_ok hrecover]
      exact (hf a).agree i' ds
    · rw [bind_error hfast]
      refine .inr ⟨e, s, rfl, ?_⟩
      cases hr : p ⟨i, true, ds⟩ with
      | error e' s' =>
          rw [hr] at hled
          rw [bind_error hr]
          exact hled
      | ok a s' =>
          rw [hr] at hled
          obtain ⟨more, hmore⟩ := hled
          obtain ⟨more', hmore'⟩ := (hf a).grows s'
          rw [bind_ok hr]
          cases hr' : f a s' with
          | error e' s'' =>
              rw [hr', after_error, hmore] at hmore'
              exact ⟨more ++ more' ++ [e'], by rw [hmore']; simp⟩
          | ok b s'' =>
              rw [hr', after_ok, hmore] at hmore'
              exact ⟨more ++ more', by rw [hmore']; simp⟩

theorem Agrees.map {g : α → β} (hp : Agrees p) : Agrees (g <$> p) := by
  rw [map_eq_pure_bind]
  exact hp.bind fun _ => .pure

theorem Agrees.ite {c : Prop} [Decidable c] {q : M ι ε α} (hp : Agrees p) (hq : Agrees q) :
    Agrees (if c then p else q) := by
  split
  · exact hp
  · exact hq

theorem Agrees.recoverItem (resync : ι → ι) (hp : Agrees p) : Agrees (recoverItem resync p) where
  mode := by
    intro s
    have hmode := hp.mode s
    unfold Recovery.recoverItem
    cases hr : p s with
    | ok a s' =>
        rw [hr] at hmode
        exact hmode
    | error e s' =>
        rw [hr] at hmode
        dsimp only
        split <;> exact hmode
  grows := by
    intro s
    obtain ⟨more, hmore⟩ := hp.grows s
    unfold Recovery.recoverItem
    cases hr : p s with
    | ok a s' =>
        rw [hr] at hmore
        exact ⟨more, hmore⟩
    | error e s' =>
        rw [hr, after_error] at hmore
        dsimp only
        split
        · refine ⟨more ++ [e], ?_⟩
          rw [after_ok, hmore, List.append_assoc]
        · exact ⟨more, hmore⟩
  agree := by
    intro i ds
    unfold Recovery.recoverItem
    obtain ⟨a, i', hfast, hrecover⟩ | ⟨e, s, hfast, hled⟩ := hp.agree i ds
    · rw [hfast, hrecover]
      exact .inl ⟨some a, i', rfl, rfl⟩
    · have hmode := hp.mode ⟨i, false, ds⟩
      rw [hfast] at hmode
      refine .inr ⟨e, s, ?_, ?_⟩
      · rw [hfast]
        exact if_neg (ne_true_of_eq_false hmode)
      · have hmode' := hp.mode ⟨i, true, ds⟩
        cases hr : p ⟨i, true, ds⟩ with
        | ok a s' =>
            rw [hr] at hled
            exact hled
        | error e' s' =>
            rw [hr] at hmode' hled
            dsimp only
            rw [if_pos (show s'.recover = true from hmode')]
            exact hled

theorem Agrees.reject (resync : ι → ι) : Agrees (reject resync e) :=
  (Agrees.throw.recoverItem resync).map

/-- A computation that is chosen by the input. -/
theorem Agrees.ofInput {q : ι → M ι ε α} (hq : ∀ i, Agrees (q i)) :
    Agrees fun s => q s.input s :=
  ⟨fun s => (hq s.input).mode s, fun s => (hq s.input).grows s, fun i ds => (hq i).agree i ds⟩

theorem Agrees.untilStop {size : ι → ℕ} {stop : ι → Bool} {overrun : ε} {step : α → M ι ε α}
    (hstep : ∀ a, Agrees (step a)) (a : α) : Agrees
      (untilStop (fun s => size s.input) (fun s => stop s.input) overrun step a) := by
  have hwithin : ∀ n a, Agrees
      (Scanner.untilWithin (fun s : State ι ε => stop s.input) overrun step n a) := by
    intro n
    induction n with
    | zero => exact fun a => .throw
    | succ n ih =>
        intro a
        have hround := (hstep a).bind ih
        constructor
        · intro s
          unfold Scanner.untilWithin
          split
          · rfl
          · exact hround.mode s
        · intro s
          unfold Scanner.untilWithin
          split
          · exact ⟨[], (List.append_nil _).symm⟩
          · exact hround.grows s
        · intro i ds
          unfold Scanner.untilWithin
          dsimp only
          cases stop i with
          | true => exact .inl ⟨a, i, rfl, rfl⟩
          | false => exact hround.agree i ds
  exact .ofInput fun i => hwithin (size i + 1) a

/-! ### Bounds -/

section Bounds

open Scanner (Measure Ends Settles Consumes)

variable {m : Measure ι ε} {resync : ι → ι} {k : ℕ}

/-- No loop ran out of rounds, also where its error was recorded. -/
def measure (m : Measure ι ε) : Measure (State ι ε) ε where
  size s := m.size s.input
  Ok s := m.Ok s.input ∧ m.overrun ∉ s.diags
  overrun := m.overrun

theorem silently_ends {q : EStateM ε ι α} {s : State ι ε} {n : ℕ} (hds : m.overrun ∉ s.diags)
    (h : Ends m n (q s.input)) : Ends (measure m) n (silently q s) := by
  unfold silently
  cases hr : q s.input with
  | ok a i =>
      rw [hr] at h
      exact Scanner.ends_ok ⟨h.ok, hds⟩ h.size
  | error e i =>
      rw [hr] at h
      exact Scanner.ends_error ⟨h.ok, hds⟩ h.size h.error_ne

theorem silently_settles {q : EStateM ε ι α} (hq : Settles m k q) :
    Settles (measure m) k (silently q) :=
  fun s hok hs => silently_ends hok.2 (hq s.input hok.1 hs)

theorem silently_consumes {q : EStateM ε ι α} (hq : Consumes m k q) :
    Consumes (measure m) k (silently q) :=
  fun s n hok hs hn => silently_ends hok.2 (hq s.input n hok.1 hs hn)

theorem recoverItem_ends (hresync : ∀ i, m.Ok i → m.Ok (resync i) ∧ m.size (resync i) ≤ m.size i)
    {s : State ι ε} {n : ℕ} (h : Ends (measure m) n (p s)) :
    Ends (measure m) n (recoverItem resync p s) := by
  unfold recoverItem
  cases hr : p s with
  | ok a s' =>
      rw [hr] at h
      exact Scanner.ends_ok h.ok h.size
  | error e s' =>
      rw [hr] at h
      obtain ⟨hok, hsize⟩ := hresync s'.input h.ok.1
      dsimp only
      split
      · refine Scanner.ends_ok ⟨hok, fun hmem => ?_⟩ (hsize.trans h.size)
        obtain hmem | hmem := List.mem_append.mp hmem
        · exact h.ok.2 hmem
        · exact h.error_ne (List.mem_singleton.mp hmem).symm
      · exact h.error

theorem recoverItem_settles (hresync : ∀ i, m.Ok i → m.Ok (resync i) ∧ m.size (resync i) ≤ m.size i)
    (hp : Settles (measure m) k p) : Settles (measure m) k (recoverItem resync p) :=
  fun s hok hs => recoverItem_ends hresync (hp s hok hs)

theorem reject_settles (hresync : ∀ i, m.Ok i → m.Ok (resync i) ∧ m.size (resync i) ≤ m.size i)
    (he : e ≠ m.overrun) : Settles (measure m) k (reject resync e) :=
  (recoverItem_settles hresync (.throw he)).map

theorem failFast_fits {n : ℕ} (h : Ends (measure m) n (p ⟨i, false, []⟩)) :
    failFast p i ≠ .error m.overrun := by
  unfold failFast
  intro hfailed
  cases hr : p ⟨i, false, []⟩ with
  | ok a s =>
      rw [hr] at hfailed
      cases hfailed
  | error e s =>
      rw [hr] at hfailed h
      exact h.error_ne (Except.error.inj hfailed)

theorem collecting_fits {n : ℕ} {default : α} (h : Ends (measure m) n (p ⟨i, true, []⟩)) :
    m.overrun ∉ (collecting p default i).2 := by
  unfold collecting
  cases hr : p ⟨i, true, []⟩ with
  | ok a s =>
      rw [hr] at h
      exact h.ok.2
  | error e s =>
      rw [hr] at h
      intro hmem
      obtain hmem | hmem := List.mem_append.mp hmem
      · exact h.ok.2 hmem
      · exact h.error_ne (List.mem_singleton.mp hmem).symm

end Bounds

/-- Both modes accept the same input with the same value. On other input the first error that
is collected is the one at which the other mode stops. -/
theorem Agrees.accepted (hp : Agrees p) (default : α) (i : ι) :
    (∃ a, failFast p i = .ok a ∧ collecting p default i = (a, [])) ∨
      ∃ e more, failFast p i = .error e ∧ (collecting p default i).2 = e :: more := by
  unfold collecting failFast
  obtain ⟨a, i', hfast, hrecover⟩ | ⟨e, s, hfast, hled⟩ := hp.agree i []
  · rw [hfast, hrecover]
    exact .inl ⟨a, rfl, rfl⟩
  · rw [hfast]
    cases hr : p ⟨i, true, []⟩ with
    | ok a s' =>
        rw [hr] at hled
        obtain ⟨more, hmore⟩ := hled
        exact .inr ⟨e, more, rfl, hmore⟩
    | error e' s' =>
        rw [hr] at hled
        obtain ⟨more, hmore⟩ := hled
        exact .inr ⟨e, more, rfl, hmore⟩

end Recovery
