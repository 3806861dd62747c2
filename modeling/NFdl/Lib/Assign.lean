import Mathlib.Logic.Function.Basic
import Mathlib.Data.List.Basic

/-!
# Assignments, one after another and all at once

A list of assignments pairs each key with the value it receives, a partial
function of the current store. Executed in turn, a later assignment sees the
earlier ones; executed at once, all of them see the store from before. The two
agree when no assignment depends on a key that an earlier one assigned.
-/

namespace Assign

variable {κ β : Type*} [DecidableEq κ]

/-- A key and the value it is to receive; `none` is a failing evaluation. -/
abbrev Assignment (κ β : Type*) := κ × ((κ → β) → Option β)

/-- Each assignment is evaluated in the store the earlier ones left. -/
def inTurn : List (Assignment κ β) → (κ → β) → Option (κ → β)
  | [], st => some st
  | a :: rest, st => (a.2 st).bind fun v => inTurn rest (Function.update st a.1 v)

/-- Each assignment is evaluated in `st`, and the results are stored into `acc`. -/
def atOnceFrom (st : κ → β) : List (Assignment κ β) → (κ → β) → Option (κ → β)
  | [], acc => some acc
  | a :: rest, acc => (a.2 st).bind fun v => atOnceFrom st rest (Function.update acc a.1 v)

/-- All assignments are evaluated in the store from before; of two to one key
the last one counts. -/
def atOnce (as : List (Assignment κ β)) (st : κ → β) : Option (κ → β) := atOnceFrom st as st

/-- The value of an assignment does not depend on the key `x`. -/
def Ignores (a : Assignment κ β) (x : κ) : Prop :=
  ∀ st v, a.2 (Function.update st x v) = a.2 st

/-- No assignment depends on a key that an earlier one assigned. -/
def Independent (as : List (Assignment κ β)) : Prop := as.Pairwise fun a b => Ignores b a.1

theorem inTurn_eq_atOnceFrom {as : List (Assignment κ β)} (h : Independent as) {st acc : κ → β}
    (hsame : ∀ a ∈ as, a.2 acc = a.2 st) : inTurn as acc = atOnceFrom st as acc := by
  induction as generalizing acc with
  | nil => rfl
  | cons a rest ih =>
      obtain ⟨ha, hrest⟩ := List.pairwise_cons.mp h
      unfold inTurn atOnceFrom
      rw [hsame a (List.mem_cons_self ..)]
      refine Option.bind_congr fun v _ => ih hrest fun b hb => ?_
      rw [ha b hb acc v]
      exact hsame b (List.mem_cons_of_mem _ hb)

/-- Independent assignments may be executed in turn. -/
theorem inTurn_eq_atOnce {as : List (Assignment κ β)} (h : Independent as) (st : κ → β) :
    inTurn as st = atOnce as st :=
  inTurn_eq_atOnceFrom h fun _ _ => rfl

end Assign
