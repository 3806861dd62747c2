import NFdl.Runtime.Emit
import NFdl.Runtime.EmitExprCorrect
import NFdl.Lib.Assign

/-!
# The fold semantics of loops

The carries of a loop form a store of their own. It starts with the values of
the initialisers in the environment before the loop, and each iteration assigns
all `next` values at once, evaluated in the environment after the body. This is
the specification that compiled loops are compared with.
-/

namespace NFdl

open BytecodeVm Assign

/-- The first name under which a dotted reference is known. -/
def fieldKey (varSlots : SlotMap) (base : Expr) (field : String) : Option String :=
  match base with
  | .ident name =>
      [name ++ "." ++ field, field, name].find? fun key => (varSlots.lookup key).isSome
  | _ => none

/-- The known names that the references of an expression resolve to. -/
def Expr.refs (varSlots : SlotMap) : Expr → List String
  | .ident name =>
      if name ≠ "__current_offset" ∧ (varSlots.lookup name).isSome then [name] else []
  | .binary _ left right => left.refs varSlots ++ right.refs varSlots
  | .unary _ expr => expr.refs varSlots
  | .ternary cond thenBranch elseBranch =>
      cond.refs varSlots ++ thenBranch.refs varSlots ++ elseBranch.refs varSlots
  | .coalesce value default => value.refs varSlots ++ default.refs varSlots
  | .field base name => (fieldKey varSlots base name).toList
  | _ => []

/-- The two names of a carry: below the loop's name, and alone. -/
def carryKeys (loopPrefix name : String) : List String := [loopPrefix ++ "." ++ name, name]

/-- The environment with the carries of a loop bound to their values. -/
def bindCarries (loopPrefix : String) (carries : List Carry) (values : String → UInt64)
    (env : Env) : Env := fun x =>
  match carries.find? (fun carry => x ∈ carryKeys loopPrefix carry.name) with
  | some carry => some (values carry.name)
  | none => env x

/-- The environment at a point of the run, and the current offset. -/
structure Scope where
  offset : UInt64
  env : Env

/-- The initial values, all of them in the environment before the loop. -/
def initCarries (carries : List Carry) (scope : Scope) : Option (String → UInt64) :=
  atOnce (carries.map fun carry => (carry.name, fun _ => evalNamed scope.offset scope.env carry.init))
    (fun _ => 0)

/-- The assignments of the `next` statements of one iteration. -/
def nextAssignments (loopPrefix : String) (lp : Loop) (scope : Scope) :
    List (Assignment String UInt64) :=
  lp.nexts.map fun nxt => (nxt.name, fun values =>
    evalNamed scope.offset (bindCarries loopPrefix lp.carries values scope.env) nxt.value)

/-- One iteration: every `next` value is computed before any carry changes. -/
def nextCarries (loopPrefix : String) (lp : Loop) (values : String → UInt64) (scope : Scope) :
    Option (String → UInt64) :=
  atOnce (nextAssignments loopPrefix lp scope) values

/-- The carries after as many iterations as there are scopes, each the scope at
the end of the body of one iteration. -/
def foldCarries (loopPrefix : String) (lp : Loop) (entry : Scope) (iterations : List Scope) :
    Option (String → UInt64) :=
  (initCarries lp.carries entry).bind fun values =>
    iterations.foldlM (nextCarries loopPrefix lp) values

/-- The scope that a machine's slots give the names of a table. -/
def slotScope (varSlots : SlotMap) (offset : Nat) (vm : BytecodeVm) : Scope where
  offset := vm.getSlot offset
  env := slotEnv varSlots vm

section Congr

variable {varSlots : SlotMap} {offset : UInt64} {env env' : Env}

theorem fieldValue_congr (hknown : ∀ x, (env x).isSome = (varSlots.lookup x).isSome)
    (hsub : ∀ x, env x = none → env' x = none) {base : Expr} {field : String}
    (hrefs : ∀ x ∈ (fieldKey varSlots base field).toList, env' x = env x) :
    fieldValue env' base field = fieldValue env base field := by
  have hnone : ∀ x, ¬ (varSlots.lookup x).isSome → env x = none ∧ env' x = none := by
    intro x hx
    have henv : env x = none := by simpa [← hknown x] using hx
    exact ⟨henv, hsub x henv⟩
  have hsome : ∀ x, (varSlots.lookup x).isSome → env' x = env x →
      ∃ v, env x = some v ∧ env' x = some v := by
    intro x hx heq
    obtain ⟨v, hv⟩ := Option.isSome_iff_exists.mp ((hknown x).trans hx)
    exact ⟨v, hv, heq.trans hv⟩
  unfold fieldKey at hrefs
  unfold fieldValue
  cases base with
  | ident name =>
      dsimp only at hrefs ⊢
      by_cases hfull : (varSlots.lookup (name ++ "." ++ field)).isSome
      · obtain ⟨v, hv, hv'⟩ := hsome _ hfull (hrefs _ (by simp [hfull]))
        simp [hv, hv']
      · obtain ⟨hfull₀, hfull₁⟩ := hnone _ hfull
        by_cases hfield : (varSlots.lookup field).isSome
        · obtain ⟨v, hv, hv'⟩ := hsome _ hfield (hrefs _ (by simp [hfull, hfield]))
          simp [hfull₀, hfull₁, hv, hv']
        · obtain ⟨hfield₀, hfield₁⟩ := hnone _ hfield
          by_cases hname : (varSlots.lookup name).isSome
          · obtain ⟨v, hv, hv'⟩ := hsome _ hname (hrefs _ (by simp [hfull, hfield, hname]))
            simp [hfull₀, hfull₁, hfield₀, hfield₁, hv, hv']
          · obtain ⟨hname₀, hname₁⟩ := hnone _ hname
            simp [hfull₀, hfull₁, hfield₀, hfield₁, hname₀, hname₁]
  | _ => rfl

/-- Evaluation only depends on the names that references resolve to. -/
theorem evalNamed_congr (hknown : ∀ x, (env x).isSome = (varSlots.lookup x).isSome)
    (hsub : ∀ x, env x = none → env' x = none) {e : Expr}
    (hrefs : ∀ x ∈ e.refs varSlots, env' x = env x) :
    evalNamed offset env' e = evalNamed offset env e := by
  induction e with
  | ident name =>
      unfold evalNamed
      by_cases hname : name = "__current_offset"
      · rw [if_pos hname, if_pos hname]
      · rw [if_neg hname, if_neg hname]
        unfold Env.value
        by_cases hs : (varSlots.lookup name).isSome
        · rw [hrefs name (by simp [Expr.refs, hname, hs])]
        · have henv : env name = none := by simpa [← hknown name] using hs
          rw [henv, hsub name henv]
  | binary op left right ihl ihr =>
      simp only [Expr.refs, List.mem_append] at hrefs
      unfold evalNamed
      rw [ihl fun x hx => hrefs x (.inl hx), ihr fun x hx => hrefs x (.inr hx)]
  | unary op expr ih =>
      unfold evalNamed
      rw [ih hrefs]
  | ternary cond thenBranch elseBranch ihc iht ihe =>
      simp only [Expr.refs, List.mem_append] at hrefs
      unfold evalNamed
      rw [ihc fun x hx => hrefs x (.inl (.inl hx)), iht fun x hx => hrefs x (.inl (.inr hx)),
        ihe fun x hx => hrefs x (.inr hx)]
  | coalesce value default ihv ihd =>
      simp only [Expr.refs, List.mem_append] at hrefs
      unfold evalNamed
      rw [ihv fun x hx => hrefs x (.inl hx), ihd fun x hx => hrefs x (.inr hx)]
  | field base name _ =>
      unfold evalNamed
      rw [fieldValue_congr hknown hsub hrefs]
  | _ => rfl

end Congr

section SlotNames

variable {varSlots : SlotMap} {offset next : Nat} {vm : BytecodeVm}

/-- The known names have a value when their slots exist. -/
theorem slotEnv_isSome (h : SlotsBelow varSlots offset next) (hlen : next ≤ vm.slots.length)
    (x : String) : (slotEnv varSlots vm x).isSome = (varSlots.lookup x).isSome := by
  cases hs : varSlots.lookup x with
  | none => simp [slotEnv, hs]
  | some s => simp [slotEnv_value hs (Nat.lt_of_lt_of_le (h.vars x s hs) hlen)]

/-- A reference that needs no code resolves to a name, or is the offset. -/
theorem resultSlot_of_reference {e : Expr} (hzero : codeLength varSlots e = 0) :
    resultSlot varSlots offset next e = offset ∨
      ∃ x ∈ e.refs varSlots, varSlots.lookup x = some (resultSlot varSlots offset next e) := by
  cases e with
  | ident name =>
      by_cases hname : name = "__current_offset"
      · exact .inl (by simp [resultSlot, hname])
      · cases hs : varSlots.lookup name with
        | none => simp [codeLength, hname, hs] at hzero
        | some s =>
            exact .inr ⟨name, by simp [Expr.refs, hname, hs], by simp [resultSlot, hname, hs]⟩
  | field base name =>
      cases hs : fieldSlot varSlots base name with
      | none => simp [codeLength, hs] at hzero
      | some s =>
          refine .inr ?_
          simp only [resultSlot, hs, Option.getD_some, Expr.refs]
          unfold fieldSlot at hs
          unfold fieldKey
          cases base with
          | ident b =>
              dsimp only at hs ⊢
              cases hfull : varSlots.lookup (b ++ "." ++ name) with
              | some s' => exact ⟨b ++ "." ++ name, by simp [hfull], by simpa [hfull] using hs⟩
              | none =>
                  cases hfield : varSlots.lookup name with
                  | some s' => exact ⟨name, by simp [hfull, hfield], by simpa [hfull, hfield] using hs⟩
                  | none =>
                      simp only [hfull, hfield, Option.none_or] at hs
                      exact ⟨b, by simp [hfull, hfield, hs], hs⟩
          | _ => simp at hs
  | _ => simp [codeLength] at hzero

/-- Code that is not a reference computes into a slot of its own. -/
theorem le_resultSlot {e : Expr} (h : codeLength varSlots e ≠ 0) :
    next ≤ resultSlot varSlots offset next e := by
  cases e with
  | ident name =>
      by_cases hname : name = "__current_offset"
      · simp [codeLength, hname] at h
      · cases hs : varSlots.lookup name with
        | none => simp [resultSlot, hname, hs]
        | some s => simp [codeLength, hname, hs] at h
  | field base name =>
      cases hs : fieldSlot varSlots base name with
      | none => simp [resultSlot, hs]
      | some s => simp [codeLength, hs] at h
  | binary op left right => simp only [resultSlot_binary]; omega
  | unary op expr => simp only [resultSlot_unary]; omega
  | ternary cond thenBranch elseBranch => simp only [resultSlot_ternary]; omega
  | coalesce value default => simp only [resultSlot_coalesce]; omega
  | _ => exact Nat.le_refl next

end SlotNames

end NFdl
