import NFdl.Runtime.EfsmDeclared

/-!
# Several machines on one flow

A flow has one current state and one table of variables for all machines of a
protocol. The machines are independent of each other and of the order in which
the engine iterates them only as long as no step moves that state, and no machine
mentions a variable that another one sets.
-/

namespace NFdl

/-! ### Names -/

/-- The names that an evaluation can look up. -/
def Expr.names : Expr → List String
  | .ident name => [name]
  | .binary _ left right => left.names ++ right.names
  | .unary _ expr => expr.names
  | .ternary cond thenBranch elseBranch => cond.names ++ thenBranch.names ++ elseBranch.names
  | .coalesce value default => value.names ++ default.names
  | _ => []

/-- The variables that an action sets or reads. -/
def Action.names : Action → List String
  | .set var value => var :: value.names
  | .emit _ => []

def Action.setNames : Action → List String
  | .set var _ => [var]
  | .emit _ => []

def Transition.names (tr : Transition) : List String :=
  tr.guard.elim [] Expr.names ++ tr.actions.flatMap Action.names

def Transition.setNames (tr : Transition) : List String := tr.actions.flatMap Action.setNames

/-- The variables that a machine sets or reads. -/
def StateMachine.names (sm : StateMachine) : List String :=
  sm.states.flatMap fun st => st.transitions.flatMap Transition.names

/-- Two tables have the same values of these variables. -/
def AgreeOn (names : List String) (vars vars' : Vars) : Prop :=
  ∀ n ∈ names, vars.lookup n = vars'.lookup n

section Names

variable {ctx : Env} {names : List String} {vars vars' : Vars}

theorem AgreeOn.mono {names' : List String} (h : AgreeOn names vars vars') (hsub : names' ⊆ names) :
    AgreeOn names' vars vars' := fun n hn => h n (hsub hn)

theorem AgreeOn.insert (h : AgreeOn names vars vars') (var : String) (val : UInt64) :
    AgreeOn names (vars.insert var val) (vars'.insert var val) := by
  intro n hn
  by_cases heq : n = var
  · subst heq
    rw [AList.lookup_insert, AList.lookup_insert]
  · rw [AList.lookup_insert_ne heq, AList.lookup_insert_ne heq, h n hn]

/-- Evaluation depends only on the names it can look up. -/
theorem evalExpr_congr {env env' : Env} {e : Expr} (h : ∀ n ∈ e.names, env n = env' n) :
    evalExpr env e = evalExpr env' e := by
  induction e with
  | ident name =>
      have hname := h name (List.mem_singleton_self _)
      unfold evalExpr Env.value
      split
      · rename_i hoffset
        rw [← hoffset, hname]
      · rw [hname]
  | binary op left right ihl ihr =>
      simp only [Expr.names, List.mem_append] at h
      rw [evalExpr, evalExpr, ihl fun n hn => h n (.inl hn), ihr fun n hn => h n (.inr hn)]
  | unary op expr ih => rw [evalExpr, evalExpr, ih h]
  | ternary cond thenBranch elseBranch ihc iht ihe =>
      simp only [Expr.names, List.mem_append] at h
      rw [evalExpr, evalExpr, ihc fun n hn => h n (.inl (.inl hn)),
        iht fun n hn => h n (.inl (.inr hn)), ihe fun n hn => h n (.inr hn)]
  | coalesce value default ihv ihd =>
      simp only [Expr.names, List.mem_append] at h
      rw [evalExpr, evalExpr, ihv fun n hn => h n (.inl hn), ihd fun n hn => h n (.inr hn)]
  | _ => rfl

theorem names_congr {e : Expr} (h : AgreeOn e.names vars vars') :
    evalExpr (Declared.names ctx vars) e = evalExpr (Declared.names ctx vars') e :=
  evalExpr_congr fun n hn => by unfold Declared.names; rw [h n hn]

theorem guardHolds_congr {guard : Option Expr} (h : AgreeOn (guard.elim [] Expr.names) vars vars') :
    Declared.guardHolds ctx vars guard = Declared.guardHolds ctx vars' guard := by
  cases guard with
  | none => rfl
  | some e => rw [Declared.guardHolds, Declared.guardHolds, names_congr h]

theorem chosen_congr {msgType : String} {transitions : List Transition}
    (h : AgreeOn (transitions.flatMap Transition.names) vars vars') :
    Declared.chosen msgType ctx vars transitions = Declared.chosen msgType ctx vars' transitions := by
  induction transitions with
  | nil => rfl
  | cons tr rest ih =>
      rw [List.flatMap_cons] at h
      rw [Declared.chosen, Declared.chosen, ih (h.mono (List.subset_append_right ..)),
        guardHolds_congr ((h.mono (List.subset_append_left ..)).mono (List.subset_append_left ..))]

/-- Actions have the same effect on tables that agree on their variables. -/
theorem perform_congr {actions : List Action} {w : Vars} {events : List FsmEvent}
    (hsub : actions.flatMap Action.names ⊆ names) (h : AgreeOn names vars vars')
    (hperform : Declared.perform ctx actions vars = some (w, events)) :
    ∃ w', Declared.perform ctx actions vars' = some (w', events) ∧ AgreeOn names w w' := by
  induction actions generalizing vars vars' events with
  | nil =>
      obtain ⟨rfl, rfl⟩ := Prod.mk.inj (Option.some.inj hperform)
      exact ⟨vars', rfl, h⟩
  | cons action rest ih =>
      rw [List.flatMap_cons, List.append_subset] at hsub
      cases action with
      | set var value =>
          obtain ⟨val, hval, hrest⟩ := Option.bind_eq_some_iff.mp hperform
          obtain ⟨⟨w₁, events₁⟩, htail, hr⟩ := Option.bind_eq_some_iff.mp hrest
          obtain ⟨rfl, rfl⟩ := Prod.mk.inj (Option.some.inj hr)
          obtain ⟨w', hw', hagree⟩ := ih hsub.2 (h.insert var val) htail
          rw [names_congr (h.mono (List.Subset.trans (List.subset_cons_self ..) hsub.1))] at hval
          exact ⟨w', by simp [Declared.perform, hval, hw'], hagree⟩
      | emit event =>
          obtain ⟨⟨w₁, events₁⟩, hrest, hr⟩ := Option.bind_eq_some_iff.mp hperform
          obtain ⟨rfl, rfl⟩ := Prod.mk.inj (Option.some.inj hr)
          obtain ⟨w', hw', hagree⟩ := ih hsub.2 h hrest
          exact ⟨w', by simp [Declared.perform, hw'], hagree⟩

/-- Actions change no variable but those they set. -/
theorem perform_lookup {actions : List Action} {w : Vars} {events : List FsmEvent} {n : String}
    (hn : n ∉ actions.flatMap Action.setNames)
    (hperform : Declared.perform ctx actions vars = some (w, events)) :
    w.lookup n = vars.lookup n := by
  induction actions generalizing vars events with
  | nil =>
      obtain ⟨rfl, rfl⟩ := Prod.mk.inj (Option.some.inj hperform)
      rfl
  | cons action rest ih =>
      rw [List.flatMap_cons, List.mem_append, not_or] at hn
      cases action with
      | set var value =>
          obtain ⟨val, hval, hrest⟩ := Option.bind_eq_some_iff.mp hperform
          obtain ⟨⟨w₁, events₁⟩, htail, hr⟩ := Option.bind_eq_some_iff.mp hrest
          obtain ⟨rfl, rfl⟩ := Prod.mk.inj (Option.some.inj hr)
          rw [ih hn.2 htail]
          exact AList.lookup_insert_ne fun heq => hn.1 (heq ▸ List.mem_singleton_self _)
      | emit event =>
          obtain ⟨⟨w₁, events₁⟩, hrest, hr⟩ := Option.bind_eq_some_iff.mp hperform
          obtain ⟨rfl, rfl⟩ := Prod.mk.inj (Option.some.inj hr)
          exact ih hn.2 hrest

end Names

/-! ### The loop over the machines -/

section Loop

variable {initials : AList fun _ : String => String} {msgType c : String} {ctx : Env}
  {s : FeedState} {v : Option Vars}

/-- The transitions that a machine's table has for a state. -/
def transitionsAt (table : AList fun _ : String => List Transition) (c : String) :
    List Transition := (table.lookup c).getD []

theorem fireFirst_none {machine : String} {transitions : List Transition}
    (h : Declared.chosen msgType ctx (v.getD ∅) transitions = some none) :
    fireFirst machine c msgType ctx v transitions = some none := by
  have heq := @fireFirst_eq ctx v machine c msgType transitions
  rw [h] at heq
  change _ = some none at heq
  rcases hfire : fireFirst machine c msgType ctx v transitions with _ | _ | r
  · rw [hfire] at heq
    cases heq
  · rfl
  · rw [hfire] at heq
    cases heq

theorem fireFirst_some {machine : String} {transitions : List Transition} {tr : Transition}
    {w : Vars} {events : List FsmEvent}
    (h : Declared.chosen msgType ctx (v.getD ∅) transitions = some (some tr))
    (hperform : Declared.perform ctx tr.actions (v.getD ∅) = some (w, events)) :
    ∃ o, fireFirst machine c msgType ctx v transitions = some (some (tr.toState, o, events ++
      [.fsmTransition (stateNumeric c) (stateNumeric tr.toState) machine])) ∧ o.getD ∅ = w := by
  have heq := @fireFirst_eq ctx v machine c msgType transitions
  rw [h] at heq
  change _ = (Declared.take machine ctx ⟨c, v.getD ∅⟩ tr).map some at heq
  simp only [Declared.take, hperform, Option.bind_eq_bind, Option.bind_some, Option.map_some] at heq
  rcases hfire : fireFirst machine c msgType ctx v transitions with _ | _ | ⟨toState, o, ev⟩
  · rw [hfire] at heq
    cases heq
  · rw [hfire] at heq
    cases heq
  · rw [hfire] at heq
    simp only [Option.map_some, Option.some.injEq, Prod.mk.injEq, Session.mk.injEq] at heq
    obtain ⟨⟨rfl, ho⟩, rfl⟩ := heq
    exact ⟨o, rfl, ho⟩

/-- A machine that takes no transition only seeds the state. -/
theorem feedMachine_idle
    {machine : Sigma fun _ : String => AList fun _ : String => List Transition}
    (hseed : s.seed initials machine.1 = ⟨c, c, v, s.events⟩)
    (h : Declared.chosen msgType ctx (v.getD ∅) (transitionsAt machine.2 c) = some none) :
    feedMachine initials msgType ctx s machine = some ⟨c, c, v, s.events⟩ := by
  unfold feedMachine
  rw [hseed]
  simp only
  unfold transitionsAt at h
  cases hlookup : machine.2.lookup c with
  | none => rfl
  | some transitions =>
      rw [hlookup, Option.getD_some] at h
      simp only [fireFirst_none h, Option.bind_eq_bind, Option.bind_some]

/-- A machine that takes a transition back to the current state changes the
variables and reports. -/
theorem feedMachine_takes
    {machine : Sigma fun _ : String => AList fun _ : String => List Transition} {tr : Transition}
    {w : Vars} {events : List FsmEvent}
    (hseed : s.seed initials machine.1 = ⟨c, c, v, s.events⟩)
    (h : Declared.chosen msgType ctx (v.getD ∅) (transitionsAt machine.2 c) = some (some tr))
    (hstay : tr.toState = c)
    (hperform : Declared.perform ctx tr.actions (v.getD ∅) = some (w, events)) :
    ∃ o, feedMachine initials msgType ctx s machine = some ⟨c, c, o, s.events ++ (events ++
      [.fsmTransition (stateNumeric c) (stateNumeric c) machine.1])⟩ ∧ o.getD ∅ = w := by
  unfold feedMachine
  rw [hseed]
  simp only
  unfold transitionsAt at h
  cases hlookup : machine.2.lookup c with
  | none =>
      rw [hlookup] at h
      cases h
  | some transitions =>
      rw [hlookup, Option.getD_some] at h
      obtain ⟨o, hfire, ho⟩ := @fireFirst_some msgType c ctx v machine.1 _ _ _ _ h hperform
      rw [hstay] at hfire
      exact ⟨o, by simp only [hfire, Option.bind_eq_bind, Option.bind_some], ho⟩

theorem feedMachine_congr {s' : FeedState}
    {machine : Sigma fun _ : String => AList fun _ : String => List Transition}
    (h : s.seed initials machine.1 = s'.seed initials machine.1) :
    feedMachine initials msgType ctx s machine = feedMachine initials msgType ctx s' machine := by
  unfold feedMachine
  rw [h]

/-- All machines of the list put a flow that begins here in state `c`. -/
def Seeds (initials : AList fun _ : String => String)
    (machines : List (Sigma fun _ : String => AList fun _ : String => List Transition))
    (c : String) (s : FeedState) : Prop :=
  ∀ machine ∈ machines, s.seed initials machine.1 = ⟨c, c, s.vars, s.events⟩

variable {machines : List (Sigma fun _ : String => AList fun _ : String => List Transition)}

/-- Machines without a transition to take leave a seeded state alone. -/
theorem foldlM_idle (hseeds : ∀ o events, Seeds initials machines c ⟨c, c, o, events⟩)
    (hidle : ∀ machine ∈ machines,
      Declared.chosen msgType ctx (v.getD ∅) (transitionsAt machine.2 c) = some none)
    (events : List FsmEvent) :
    machines.foldlM (feedMachine initials msgType ctx) ⟨c, c, v, events⟩ =
      some ⟨c, c, v, events⟩ := by
  induction machines with
  | nil => rfl
  | cons machine rest ih =>
      rw [List.foldlM_cons, feedMachine_idle (hseeds v events machine (List.mem_cons_self ..))
        (hidle machine (List.mem_cons_self ..))]
      exact ih (fun o events m hm => hseeds o events m (List.mem_cons_of_mem _ hm))
        fun m hm => hidle m (List.mem_cons_of_mem _ hm)

/-- Without a transition to take, the machines only seed the state. -/
theorem foldlM_none (hstart : Seeds initials machines c s)
    (hseeds : ∀ o events, Seeds initials machines c ⟨c, c, o, events⟩) (hne : machines ≠ [])
    (hidle : ∀ machine ∈ machines,
      Declared.chosen msgType ctx (s.vars.getD ∅) (transitionsAt machine.2 c) = some none) :
    machines.foldlM (feedMachine initials msgType ctx) s = some ⟨c, c, s.vars, s.events⟩ := by
  cases machines with
  | nil => exact absurd rfl hne
  | cons machine rest =>
      rw [List.foldlM_cons, feedMachine_idle (hstart machine (List.mem_cons_self ..))
        (hidle machine (List.mem_cons_self ..))]
      exact foldlM_idle (fun o events m hm => hseeds o events m (List.mem_cons_of_mem _ hm))
        (fun m hm => hidle m (List.mem_cons_of_mem _ hm)) _

/-- A single transition back to the current state determines the outcome, wherever
its machine is in the list. -/
theorem foldlM_single {machine : Sigma fun _ : String => AList fun _ : String => List Transition}
    {tr : Transition} {w : Vars} {events : List FsmEvent} (hstay : tr.toState = c)
    (hstart : Seeds initials machines c s)
    (hseeds : ∀ o events, Seeds initials machines c ⟨c, c, o, events⟩)
    (hnodup : (machines.map Sigma.fst).Nodup) (hmem : machine ∈ machines)
    (h : Declared.chosen msgType ctx (s.vars.getD ∅) (transitionsAt machine.2 c) = some (some tr))
    (hperform : Declared.perform ctx tr.actions (s.vars.getD ∅) = some (w, events))
    (hbefore : ∀ other ∈ machines, other.1 ≠ machine.1 →
      Declared.chosen msgType ctx (s.vars.getD ∅) (transitionsAt other.2 c) = some none)
    (hafter : ∀ other ∈ machines, other.1 ≠ machine.1 →
      Declared.chosen msgType ctx w (transitionsAt other.2 c) = some none) :
    machines.foldlM (feedMachine initials msgType ctx) s =
      feedMachine initials msgType ctx s machine := by
  induction machines generalizing s with
  | nil => cases hmem
  | cons first rest ih =>
      rw [List.map_cons, List.nodup_cons] at hnodup
      have hseeds' : ∀ o events, Seeds initials rest c ⟨c, c, o, events⟩ :=
        fun o events m hm => hseeds o events m (List.mem_cons_of_mem _ hm)
      rw [List.foldlM_cons]
      by_cases heq : first.1 = machine.1
      · have hsame : first = machine := by
          obtain rfl | hrest := List.mem_cons.mp hmem
          · rfl
          · exact absurd (heq ▸ List.mem_map_of_mem hrest) hnodup.1
        subst hsame
        obtain ⟨o, htakes, rfl⟩ := feedMachine_takes (hstart first hmem) h hstay hperform
        rw [htakes]
        refine foldlM_idle hseeds' (fun m hm => ?_) _
        exact hafter m (List.mem_cons_of_mem _ hm) fun hm' =>
          hnodup.1 (hm' ▸ List.mem_map_of_mem hm)
      · have hrest : machine ∈ rest :=
          (List.mem_cons.mp hmem).resolve_left fun h => heq (h ▸ rfl)
        rw [feedMachine_idle (hstart first (List.mem_cons_self ..))
          (hbefore first (List.mem_cons_self ..) heq)]
        refine (ih (s := ⟨c, c, s.vars, s.events⟩) (hseeds' s.vars s.events) hseeds' hnodup.2 hrest h
          hperform (fun m hm => hbefore m (List.mem_cons_of_mem _ hm))
          (fun m hm => hafter m (List.mem_cons_of_mem _ hm))).trans ?_
        exact feedMachine_congr ((hseeds s.vars s.events machine hmem).trans
          (hstart machine hmem).symm)

end Loop

/-! ### Loaded machines -/

section Loaded

variable {sms : List StateMachine}

/-- Machines of different names are all loaded, each with its own table. -/
theorem loaded_machines (h : (sms.map StateMachine.name).Nodup) (maxSessions : Nat) :
    (∀ machine, machine ∈ (FsmEngine.loaded maxSessions sms).machines.entries ↔
      ∃ sm ∈ sms, machine = ⟨sm.name, stateTable sm.states⟩) ∧
    ∀ sm ∈ sms, (FsmEngine.loaded maxSessions sms).initials.lookup sm.name = some sm.initial := by
  have hfold (sms : List StateMachine) : FsmEngine.loaded maxSessions sms =
      sms.foldl FsmEngine.loadMachine (FsmEngine.new maxSessions) := rfl
  induction sms using List.reverseRecOn with
  | nil => exact ⟨fun machine => by simp [hfold, FsmEngine.new], by simp⟩
  | append_singleton sms sm ih =>
      rw [List.map_append, List.map_singleton] at h
      obtain ⟨hsms, -, hdisjoint⟩ := List.nodup_append.mp h
      have hnew : sm.name ∉ sms.map StateMachine.name := fun hmem =>
        hdisjoint _ hmem _ (List.mem_singleton_self _) rfl
      obtain ⟨hmachines, hinitials⟩ := ih hsms
      rw [hfold] at hmachines hinitials ⊢
      rw [List.foldl_append, List.foldl_cons, List.foldl_nil]
      generalize sms.foldl FsmEngine.loadMachine (FsmEngine.new maxSessions) = engine at *
      have hfresh : sm.name ∉ engine.machines := by
        intro hmem
        obtain ⟨machine, hmachine, hname⟩ := List.mem_map.mp (AList.mem_keys.mp hmem)
        obtain ⟨sm', hsm', rfl⟩ := (hmachines machine).mp hmachine
        exact hnew (hname ▸ List.mem_map_of_mem hsm')
      constructor
      · intro machine
        change machine ∈ (engine.machines.insert sm.name (stateTable sm.states)).entries ↔ _
        rw [AList.entries_insert_of_notMem hfresh, List.mem_cons, hmachines]
        simp only [List.mem_append, List.mem_singleton, or_and_right, exists_or, exists_eq_left]
        exact or_comm
      · intro sm' hsm'
        change (engine.initials.insert sm.name sm.initial).lookup sm'.name = _
        obtain hsm' | hsm' := List.mem_append.mp hsm'
        · have hne : sm'.name ≠ sm.name := fun heq => hnew (heq ▸ List.mem_map_of_mem hsm')
          rw [AList.lookup_insert_ne hne, hinitials sm' hsm']
        · obtain rfl := List.mem_singleton.mp hsm'
          exact AList.lookup_insert _

end Loaded

/-! ### Quiet steps -/

/-- The state in which the machines look for transitions: a flow in `"IDLE"` is put
in the initial state. -/
def currentOf (initial : String) (engine : FsmEngine) (key : FlowKey) : String :=
  let current := (engine.touch key).getCurrentState key
  if current = "IDLE" then initial else current

/-- The variables of the flow when its message arrives. -/
def tableOf (engine : FsmEngine) (key : FlowKey) : Vars :=
  ((engine.touch key).variables_.lookup key).getD ∅

/-- The transition that a machine has for the message in the flow's current state. -/
def chosenBy (initial : String) (engine : FsmEngine) (i : FeedInput) (sm : StateMachine) :
    Option (Option Transition) :=
  Declared.chosen i.msgType i.ctx (tableOf engine i.key)
    (transitionsAt (stateTable sm.states) (currentOf initial engine i.key))

/-- At most one machine has a transition for the message. It leads back to the
current state, and sets no variable that another machine mentions. -/
structure QuietStep (sms : List StateMachine) (initial : String) (engine : FsmEngine)
    (i : FeedInput) : Prop where
  stays : ∀ sm ∈ sms, chosenBy initial engine i sm = some none ∨
    ∃ tr, chosenBy initial engine i sm = some (some tr) ∧
      tr.toState = currentOf initial engine i.key ∧
      (Declared.perform i.ctx tr.actions (tableOf engine i.key)).isSome
  single : ∀ sm ∈ sms, ∀ sm' ∈ sms, ∀ tr tr', chosenBy initial engine i sm = some (some tr) →
    chosenBy initial engine i sm' = some (some tr') → sm.name = sm'.name
  apart : ∀ sm ∈ sms, ∀ tr, chosenBy initial engine i sm = some (some tr) →
    ∀ sm' ∈ sms, sm'.name ≠ sm.name → ∀ n ∈ tr.setNames, n ∉ sm'.names

/-- There is only one machine; or the machines have different names and the same
initial state, and every message is a quiet step. -/
def QuietRun (sms : List StateMachine) (engine : FsmEngine) (inputs : List FeedInput) : Prop :=
  sms.length ≤ 1 ∨ (sms.map StateMachine.name).Nodup ∧
    ∃ initial, (∀ sm ∈ sms, sm.initial = initial) ∧
      Inputs.Along engineStep (fun before i => ∀ engine, before = some engine →
        QuietStep sms initial engine i) (some engine) inputs

/-! ### Independence -/

/-- The same engine with its machines iterated in another order. -/
def FsmEngine.withMachines (engine : FsmEngine)
    (machines : AList fun _ : String => AList fun _ : String => List Transition) : FsmEngine :=
  { engine with machines := machines }

/-- The events of one machine: each transition closes the events of its actions. -/
def eventsOf (machine : String) (pending : List FsmEvent) : List FsmEvent → List FsmEvent
  | [] => []
  | .fsmTransition fromState toState machine' :: rest =>
      (if machine' = machine then pending ++ [.fsmTransition fromState toState machine] else []) ++
        eventsOf machine [] rest
  | event :: rest => eventsOf machine (pending ++ [event]) rest

/-- A report of all machines shows this machine as its own report does: the state,
its variables, and its events. -/
structure ShowsAlone (sm : StateMachine) (all alone : FlowKey × FlowReport) : Prop where
  flow : alone.1 = all.1
  state : alone.2.state = all.2.state
  vars : AgreeOn sm.names alone.2.vars all.2.vars
  events : alone.2.events = eventsOf sm.name [] all.2.events

/-- The reports of a run do not depend on the order of the machines, and show each
machine as if it were the only one. -/
structure MachinesIndependent (sms : List StateMachine) (maxSessions : Nat)
    (inputs : List FeedInput) : Prop where
  order : ∀ machines, machines.entries.Perm (FsmEngine.loaded maxSessions sms).machines.entries →
    ((FsmEngine.loaded maxSessions sms).withMachines machines).feedAll inputs =
      (FsmEngine.loaded maxSessions sms).feedAll inputs
  alone : ∀ sm ∈ sms, ∀ reports, (FsmEngine.loaded maxSessions sms).feedAll inputs = some reports →
    ∃ alone, (FsmEngine.loaded maxSessions [sm]).feedAll inputs = some alone ∧
      List.Forall₂ (ShowsAlone sm) reports alone

/-- The engine iterates exactly the tables of these machines, which all have the
same initial state. -/
structure HasMachines (sms : List StateMachine) (initial : String) (engine : FsmEngine) :
    Prop where
  names : (sms.map StateMachine.name).Nodup
  machines : ∀ machine, machine ∈ engine.machines.entries ↔
    ∃ sm ∈ sms, machine = ⟨sm.name, stateTable sm.states⟩
  initials : ∀ sm ∈ sms, engine.initials.lookup sm.name = some initial

section Steps

variable {sms : List StateMachine} {sm : StateMachine} {initial : String} {engine : FsmEngine}
  {i : FeedInput}

theorem seed_of_lookup {initials : AList fun _ : String => String} {machine : String}
    (h : initials.lookup machine = some initial) (x : String) (o : Option Vars)
    (events : List FsmEvent) : FeedState.seed initials machine ⟨x, x, o, events⟩ =
      ⟨if x = "IDLE" then initial else x, if x = "IDLE" then initial else x, o, events⟩ := by
  unfold FeedState.seed
  simp only [h]
  split <;> rfl

theorem HasMachines.feed (h : HasMachines sms initial engine)
    {r : FsmEngine × String × List FsmEvent} (hfeed : engine.feed i.key i.msgType i.ctx = some r) :
    HasMachines sms initial r.1 := by
  obtain ⟨hmachines, hinitials⟩ := FsmEngine.feed_machines hfeed
  exact ⟨h.names, by rw [hmachines]; exact h.machines, by rw [hinitials]; exact h.initials⟩

theorem HasMachines.perm (h : HasMachines sms initial engine)
    {machines : AList fun _ : String => AList fun _ : String => List Transition}
    (hperm : machines.entries.Perm engine.machines.entries) :
    HasMachines sms initial (engine.withMachines machines) :=
  ⟨h.names, fun machine => hperm.mem_iff.trans (h.machines machine), h.initials⟩

/-- The flow's message finds every machine in the current state. -/
theorem HasMachines.seeds (h : HasMachines sms initial engine) (key : FlowKey) (o : Option Vars)
    (events : List FsmEvent) :
    Seeds engine.initials engine.machines.entries (currentOf initial engine key)
        ⟨(engine.touch key).getCurrentState key, (engine.touch key).getCurrentState key, o, events⟩ ∧
      Seeds engine.initials engine.machines.entries (currentOf initial engine key)
        ⟨currentOf initial engine key, currentOf initial engine key, o, events⟩ := by
  constructor
  · intro machine hmachine
    obtain ⟨sm, hsm, rfl⟩ := (h.machines machine).mp hmachine
    exact seed_of_lookup (h.initials sm hsm) _ _ _
  · intro machine hmachine
    obtain ⟨sm, hsm, rfl⟩ := (h.machines machine).mp hmachine
    rw [seed_of_lookup (h.initials sm hsm)]
    unfold currentOf
    simp only
    split_ifs <;> rfl

/-- Where no machine has a transition, the flow is only put in the current state. -/
theorem HasMachines.runMachines_idle (h : HasMachines sms initial engine) (hne : sms ≠ [])
    (hidle : ∀ sm ∈ sms, chosenBy initial engine i sm = some none) :
    (engine.touch i.key).runMachines i.msgType i.ctx ((engine.touch i.key).getCurrentState i.key)
        ((engine.touch i.key).variables_.lookup i.key) =
      some ⟨currentOf initial engine i.key, currentOf initial engine i.key,
        (engine.touch i.key).variables_.lookup i.key, []⟩ := by
  unfold FsmEngine.runMachines
  rw [FsmEngine.touch_machines, FsmEngine.touch_initials]
  refine foldlM_none (h.seeds i.key _ _).1 (fun o events => (h.seeds i.key o events).2) ?_ ?_
  · obtain ⟨sm, hsm⟩ := List.exists_mem_of_ne_nil sms hne
    exact List.ne_nil_of_mem ((h.machines _).mpr ⟨sm, hsm, rfl⟩)
  · intro machine hmachine
    obtain ⟨sm, hsm, rfl⟩ := (h.machines machine).mp hmachine
    exact hidle sm hsm

theorem mem_stateTable {blocks : List State} {c : String} {transitions : List Transition}
    (h : (stateTable blocks).lookup c = some transitions) :
    ∃ st ∈ blocks, st.transitions = transitions := by
  unfold stateTable at h
  induction blocks using List.reverseRecOn with
  | nil => cases h
  | append_singleton blocks block ih =>
      rw [List.foldl_append, List.foldl_cons, List.foldl_nil] at h
      by_cases heq : c = block.name
      · subst heq
        rw [AList.lookup_insert] at h
        exact ⟨block, List.mem_append_right _ (List.mem_singleton_self _), Option.some.inj h⟩
      · rw [AList.lookup_insert_ne heq] at h
        obtain ⟨st, hst, htransitions⟩ := ih h
        exact ⟨st, List.mem_append_left _ hst, htransitions⟩

/-- A machine's transitions mention only the machine's names. -/
theorem names_transitionsAt (sm : StateMachine) (c : String) :
    (transitionsAt (stateTable sm.states) c).flatMap Transition.names ⊆ sm.names := by
  unfold transitionsAt
  cases hlookup : (stateTable sm.states).lookup c with
  | none => exact List.nil_subset _
  | some transitions =>
      obtain ⟨st, hst, rfl⟩ := mem_stateTable hlookup
      exact fun n hn => List.mem_flatMap.mpr ⟨st, hst, hn⟩

/-- Where a machine has a transition, only its turn counts. -/
theorem HasMachines.runMachines_takes (h : HasMachines sms initial engine)
    (hquiet : QuietStep sms initial engine i) (hsm : sm ∈ sms) {tr : Transition}
    (htr : chosenBy initial engine i sm = some (some tr)) :
    (engine.touch i.key).runMachines i.msgType i.ctx ((engine.touch i.key).getCurrentState i.key)
        ((engine.touch i.key).variables_.lookup i.key) =
      feedMachine engine.initials i.msgType i.ctx
        ⟨(engine.touch i.key).getCurrentState i.key, (engine.touch i.key).getCurrentState i.key,
          (engine.touch i.key).variables_.lookup i.key, []⟩ ⟨sm.name, stateTable sm.states⟩ := by
  obtain hidle | ⟨tr', htr', hstay, hperform⟩ := hquiet.stays sm hsm
  · rw [htr] at hidle
    cases hidle
  · obtain rfl : tr = tr' := by simpa [htr] using htr'
    obtain ⟨⟨w, events⟩, hperform⟩ := Option.isSome_iff_exists.mp hperform
    have hbefore : ∀ sm' ∈ sms, sm'.name ≠ sm.name → chosenBy initial engine i sm' = some none := by
      intro sm' hsm' hne
      obtain hidle | ⟨tr', htr', -⟩ := hquiet.stays sm' hsm'
      · exact hidle
      · exact absurd (hquiet.single sm' hsm' sm hsm tr' tr htr' htr) hne
    unfold FsmEngine.runMachines
    rw [FsmEngine.touch_machines, FsmEngine.touch_initials]
    refine foldlM_single hstay (h.seeds i.key _ _).1 (fun o events => (h.seeds i.key o events).2)
      engine.machines.keys_nodup ((h.machines _).mpr ⟨sm, hsm, rfl⟩) htr hperform ?_ ?_
    · intro other hother hne
      obtain ⟨sm', hsm', rfl⟩ := (h.machines other).mp hother
      exact hbefore sm' hsm' hne
    · intro other hother hne
      obtain ⟨sm', hsm', rfl⟩ := (h.machines other).mp hother
      rw [← hbefore sm' hsm' hne]
      refine chosen_congr (AgreeOn.mono (fun n hn => ?_) (names_transitionsAt sm' _))
      exact perform_lookup (fun hmem => hquiet.apart sm hsm tr htr sm' hsm' hne n hmem hn) hperform

end Steps

/-! ### The order of the machines -/

section Order

variable {sms : List StateMachine} {initial : String} {engine : FsmEngine} {i : FeedInput}
  {machines : AList fun _ : String => AList fun _ : String => List Transition}

theorem touch_withMachines (key : FlowKey) :
    (engine.withMachines machines).touch key = (engine.touch key).withMachines machines := by
  unfold FsmEngine.touch FsmEngine.withMachines
  rcases engine.db.getOrCreate key with ⟨db, _ | evictedKey⟩ <;> rfl

theorem chosenBy_withMachines (sm : StateMachine) :
    chosenBy initial (engine.withMachines machines) i sm = chosenBy initial engine i sm := by
  unfold chosenBy tableOf currentOf
  rw [touch_withMachines]
  rfl

theorem QuietStep.withMachines (h : QuietStep sms initial engine i) :
    QuietStep sms initial (engine.withMachines machines) i := by
  have htable : tableOf (engine.withMachines machines) i.key = tableOf engine i.key := by
    unfold tableOf
    rw [touch_withMachines]
    rfl
  have hcurrent : currentOf initial (engine.withMachines machines) i.key =
      currentOf initial engine i.key := by
    unfold currentOf
    rw [touch_withMachines]
    rfl
  refine ⟨?_, ?_, ?_⟩
  · simp only [chosenBy_withMachines, htable, hcurrent]
    exact h.stays
  · simp only [chosenBy_withMachines]
    exact h.single
  · simp only [chosenBy_withMachines]
    exact h.apart

/-- A quiet step is the same in every order. -/
theorem QuietStep.feed_withMachines (hquiet : QuietStep sms initial engine i)
    (h : HasMachines sms initial engine) (hne : sms ≠ [])
    (hperm : machines.entries.Perm engine.machines.entries) :
    (engine.withMachines machines).feed i.key i.msgType i.ctx =
      (engine.feed i.key i.msgType i.ctx).map fun r => (r.1.withMachines machines, r.2) := by
  have hrun : ((engine.touch i.key).withMachines machines).runMachines i.msgType i.ctx
        ((engine.touch i.key).getCurrentState i.key) ((engine.touch i.key).variables_.lookup i.key) =
      (engine.touch i.key).runMachines i.msgType i.ctx
        ((engine.touch i.key).getCurrentState i.key)
        ((engine.touch i.key).variables_.lookup i.key) := by
    rw [← touch_withMachines]
    by_cases htakes : ∃ sm ∈ sms, ∃ tr, chosenBy initial engine i sm = some (some tr)
    · obtain ⟨sm, hsm, tr, htr⟩ := htakes
      have hright := h.runMachines_takes hquiet hsm htr
      have hleft := (h.perm hperm).runMachines_takes hquiet.withMachines hsm
        ((chosenBy_withMachines sm).trans htr)
      rw [touch_withMachines] at hleft ⊢
      exact hleft.trans hright.symm
    · have hidle : ∀ sm ∈ sms, chosenBy initial engine i sm = some none := fun sm hsm =>
        (hquiet.stays sm hsm).resolve_right fun ⟨tr, htr, _⟩ => htakes ⟨sm, hsm, tr, htr⟩
      have hright := h.runMachines_idle hne hidle
      have hleft := (h.perm hperm).runMachines_idle hne fun sm hsm =>
        (chosenBy_withMachines sm).trans (hidle sm hsm)
      unfold currentOf at hleft hright
      rw [touch_withMachines] at hleft ⊢
      exact hleft.trans hright.symm
  unfold FsmEngine.feed
  simp only [touch_withMachines]
  change Option.bind (((engine.touch i.key).withMachines machines).runMachines i.msgType i.ctx
    ((engine.touch i.key).getCurrentState i.key)
    ((engine.touch i.key).variables_.lookup i.key)) _ = _
  rw [hrun]
  cases (engine.touch i.key).runMachines i.msgType i.ctx
    ((engine.touch i.key).getCurrentState i.key) ((engine.touch i.key).variables_.lookup i.key) <;> rfl

/-- A quiet run gives the same reports in every order. -/
theorem feedAll_withMachines (hne : sms ≠ []) (inputs : List FeedInput)
    (h : HasMachines sms initial engine)
    (hperm : machines.entries.Perm engine.machines.entries)
    (hquiet : Inputs.Along engineStep (fun before i => ∀ engine, before = some engine →
      QuietStep sms initial engine i) (some engine) inputs) :
    (engine.withMachines machines).feedAll inputs = engine.feedAll inputs := by
  induction inputs generalizing engine with
  | nil => rfl
  | cons i rest ih =>
      have hfeed := (hquiet.1 engine rfl).feed_withMachines h hne hperm
      cases hr : engine.feed i.key i.msgType i.ctx with
      | none =>
          rw [hr] at hfeed
          rw [FsmEngine.feedAll_cons_none hr, FsmEngine.feedAll_cons_none hfeed]
      | some r =>
          rw [hr] at hfeed
          have hnext : engineStep (some engine) i = some r.1 := by simp [engineStep, hr]
          have htail := hquiet.2
          rw [hnext] at htail
          rw [FsmEngine.feedAll_cons_some hr, FsmEngine.feedAll_cons_some hfeed,
            ih (h.feed hr) (by rw [(FsmEngine.feed_machines hr).1]; exact hperm) htail]
          rfl

end Order

/-! ### Each machine by itself -/

/-- An engine with one of the machines that holds every flow as the engine with
all of them does, as far as the machine can tell. -/
structure AloneWith (sm : StateMachine) (initial : String) (engine alone : FsmEngine) : Prop where
  machines : alone.machines.entries = [⟨sm.name, stateTable sm.states⟩]
  initials : alone.initials.lookup sm.name = some initial
  db : alone.db = engine.db
  currentStates : alone.currentStates = engine.currentStates
  vars : ∀ κ, AgreeOn sm.names ((alone.variables_.lookup κ).getD ∅)
    ((engine.variables_.lookup κ).getD ∅)

section Alone

variable {sms : List StateMachine} {sm : StateMachine} {initial c : String}
  {engine alone : FsmEngine} {i : FeedInput}

theorem AgreeOn.trans {names : List String} {v v' v'' : Vars} (h : AgreeOn names v v')
    (h' : AgreeOn names v' v'') : AgreeOn names v v'' := fun n hn => (h n hn).trans (h' n hn)

theorem AgreeOn.symm {names : List String} {v v' : Vars} (h : AgreeOn names v v') :
    AgreeOn names v' v := fun n hn => (h n hn).symm

theorem AloneWith.hasMachines (h : AloneWith sm initial engine alone) :
    HasMachines [sm] initial alone := by
  refine ⟨List.nodup_singleton _, fun machine => ?_, fun sm' hsm' => ?_⟩
  · rw [h.machines]
    simp
  · obtain rfl := List.mem_singleton.mp hsm'
    exact h.initials

/-- Both engines make room for the same flow. -/
theorem AloneWith.touch (h : AloneWith sm initial engine alone) (key : FlowKey) :
    AloneWith sm initial (engine.touch key) (alone.touch key) := by
  obtain ⟨hmachines, hinitials, hdb, hstates, hvars⟩ := h
  unfold FsmEngine.touch
  rw [hdb]
  rcases engine.db.getOrCreate key with ⟨db, _ | evictedKey⟩
  · exact ⟨hmachines, hinitials, rfl, hstates, hvars⟩
  · refine ⟨hmachines, hinitials, rfl, ?_, fun κ => ?_⟩
    · change alone.currentStates.erase evictedKey = engine.currentStates.erase evictedKey
      rw [hstates]
    · change AgreeOn sm.names (((alone.variables_.erase evictedKey).lookup κ).getD ∅)
        (((engine.variables_.erase evictedKey).lookup κ).getD ∅)
      by_cases heq : κ = evictedKey
      · subst heq
        rw [AList.lookup_erase, AList.lookup_erase]
        exact fun _ _ => rfl
      · rw [AList.lookup_erase_ne heq, AList.lookup_erase_ne heq]
        exact hvars κ

theorem AloneWith.getCurrentState (h : AloneWith sm initial engine alone) (key : FlowKey) :
    alone.getCurrentState key = engine.getCurrentState key := by
  unfold FsmEngine.getCurrentState
  rw [h.currentStates]

theorem AloneWith.currentOf (h : AloneWith sm initial engine alone) (key : FlowKey) :
    currentOf initial alone key = currentOf initial engine key := by
  unfold NFdl.currentOf
  rw [(h.touch key).getCurrentState]

theorem AloneWith.chosenBy (h : AloneWith sm initial engine alone) :
    chosenBy initial alone i sm = chosenBy initial engine i sm := by
  unfold NFdl.chosenBy
  rw [h.currentOf]
  exact chosen_congr (((h.touch i.key).vars i.key).mono (names_transitionsAt sm _))

theorem names_of_chosen {msgType : String} {ctx : Env} {v : Vars} {transitions : List Transition}
    {tr : Transition} (h : Declared.chosen msgType ctx v transitions = some (some tr)) :
    tr ∈ transitions := by
  induction transitions with
  | nil => cases h
  | cons first rest ih =>
      unfold Declared.chosen at h
      split at h
      · obtain ⟨holds, -, h⟩ := Option.bind_eq_some_iff.mp h
        cases holds with
        | false => exact List.mem_cons_of_mem _ (ih h)
        | true =>
            obtain rfl : first = tr := by simpa using h
            exact List.mem_cons_self ..
      · exact List.mem_cons_of_mem _ (ih h)

/-- A machine's transition mentions only the machine's names. -/
theorem actions_names {tr : Transition} (h : NFdl.chosenBy initial engine i sm = some (some tr)) :
    tr.actions.flatMap Action.names ⊆ sm.names := fun _ hn =>
  names_transitionsAt sm _ (List.mem_flatMap.mpr
    ⟨tr, names_of_chosen h, List.mem_append_right _ hn⟩)

theorem AloneWith.quiet (h : AloneWith sm initial engine alone) (hsm : sm ∈ sms)
    (hquiet : QuietStep sms initial engine i) : QuietStep [sm] initial alone i := by
  have hsingle {sm' : StateMachine} (hsm' : sm' ∈ [sm]) : sm' = sm := List.mem_singleton.mp hsm'
  refine ⟨fun sm' hsm' => ?_, fun sm₁ h₁ sm₂ h₂ _ _ _ _ => by rw [hsingle h₁, hsingle h₂],
    fun sm₁ h₁ _ _ sm₂ h₂ hne => absurd (by rw [hsingle h₁, hsingle h₂]) hne⟩
  obtain rfl := hsingle hsm'
  rw [h.chosenBy, h.currentOf]
  refine (hquiet.stays _ hsm).imp id fun ⟨tr, htr, hstay, hperform⟩ => ⟨tr, htr, hstay, ?_⟩
  obtain ⟨⟨w, events⟩, hperform⟩ := Option.isSome_iff_exists.mp hperform
  obtain ⟨w', hw', -⟩ := perform_congr (actions_names htr) ((h.touch i.key).vars i.key).symm hperform
  exact Option.isSome_iff_exists.mpr ⟨_, hw'⟩

/-- The events of a transition are its machine's. -/
theorem eventsOf_transition {machine machine' : String} {ctx : Env} {actions : List Action}
    {v w : Vars} {events : List FsmEvent}
    (h : Declared.perform ctx actions v = some (w, events)) (fromState toState : Nat)
    (pending : List FsmEvent) :
    eventsOf machine pending (events ++ [.fsmTransition fromState toState machine']) =
      if machine' = machine then pending ++ events ++ [.fsmTransition fromState toState machine]
      else [] := by
  induction actions generalizing v events pending with
  | nil =>
      obtain ⟨rfl, rfl⟩ := Prod.mk.inj (Option.some.inj h)
      simp [eventsOf]
  | cons action rest ih =>
      cases action with
      | set var value =>
          obtain ⟨val, hval, hrest⟩ := Option.bind_eq_some_iff.mp h
          obtain ⟨⟨w₁, events₁⟩, htail, hr⟩ := Option.bind_eq_some_iff.mp hrest
          obtain ⟨rfl, rfl⟩ := Prod.mk.inj (Option.some.inj hr)
          change eventsOf machine (pending ++ [_]) (events₁ ++ _) = _
          rw [ih htail]
          simp
      | emit event =>
          obtain ⟨⟨w₁, events₁⟩, htail, hr⟩ := Option.bind_eq_some_iff.mp h
          obtain ⟨rfl, rfl⟩ := Prod.mk.inj (Option.some.inj hr)
          change eventsOf machine (pending ++ [_]) (events₁ ++ _) = _
          rw [ih htail]
          simp

/-- Both loops end in the current state, and show the machine alike. -/
theorem AloneWith.runMachines (h : AloneWith sm initial engine alone)
    (hall : HasMachines sms initial engine) (hsm : sm ∈ sms)
    (hquiet : QuietStep sms initial engine i) :
    ∃ fs fs', (engine.touch i.key).runMachines i.msgType i.ctx
        ((engine.touch i.key).getCurrentState i.key)
        ((engine.touch i.key).variables_.lookup i.key) = some fs ∧
      (alone.touch i.key).runMachines i.msgType i.ctx ((alone.touch i.key).getCurrentState i.key)
        ((alone.touch i.key).variables_.lookup i.key) = some fs' ∧
      fs'.newState = fs.newState ∧ AgreeOn sm.names (fs'.vars.getD ∅) (fs.vars.getD ∅) ∧
      fs'.events = eventsOf sm.name [] fs.events := by
  have halone := h.hasMachines
  have hquiet' := h.quiet hsm hquiet
  have hmem : sm ∈ [sm] := List.mem_singleton_self _
  have hvars := (h.touch i.key).vars i.key
  by_cases htakes : ∃ sm' ∈ sms, ∃ tr, NFdl.chosenBy initial engine i sm' = some (some tr)
  · obtain ⟨sm', hsm', tr, htr⟩ := htakes
    obtain hidle | ⟨tr', htr', hstay, hperform⟩ := hquiet.stays sm' hsm'
    · rw [htr] at hidle
      cases hidle
    obtain rfl : tr = tr' := by simpa [htr] using htr'
    obtain ⟨⟨w, events⟩, hperform⟩ := Option.isSome_iff_exists.mp hperform
    obtain ⟨o, hturn, ho⟩ := feedMachine_takes
      ((hall.seeds i.key _ []).1 _ ((hall.machines _).mpr ⟨sm', hsm', rfl⟩)) htr hstay hperform
    have hrun := (hall.runMachines_takes hquiet hsm' htr).trans hturn
    by_cases hname : sm'.name = sm.name
    · obtain rfl : sm' = sm := List.inj_on_of_nodup_map hall.names hsm' hsm hname
      have htr' := h.chosenBy.trans htr
      obtain ⟨w', hperform', hagree⟩ := perform_congr (actions_names htr) hvars.symm hperform
      obtain ⟨o', hturn', ho'⟩ := feedMachine_takes
        ((halone.seeds i.key _ []).1 _ ((halone.machines _).mpr ⟨sm', hmem, rfl⟩)) htr'
        (hstay.trans (h.currentOf i.key).symm) hperform'
      refine ⟨_, _, hrun, (halone.runMachines_takes hquiet' hmem htr').trans hturn',
        h.currentOf i.key, ?_, ?_⟩
      · simp only [ho, ho']
        exact hagree.symm
      · simp only [List.nil_append]
        rw [eventsOf_transition hperform, if_pos rfl, h.currentOf]
        rfl
    · have hidle : NFdl.chosenBy initial engine i sm = some none :=
        (hquiet.stays sm hsm).resolve_right fun ⟨tr', htr', _⟩ =>
          hname (hquiet.single sm' hsm' sm hsm tr tr' htr htr')
      refine ⟨_, _, hrun, halone.runMachines_idle (List.cons_ne_nil _ _) fun sm₁ h₁ => ?_,
        h.currentOf i.key, ?_, ?_⟩
      · obtain rfl := List.mem_singleton.mp h₁
        exact h.chosenBy.trans hidle
      · simp only [ho]
        refine hvars.trans fun n hn => (perform_lookup (fun hmem' => ?_) hperform).symm
        exact hquiet.apart sm' hsm' tr htr sm hsm (Ne.symm hname) n hmem' hn
      · simp only [List.nil_append]
        rw [eventsOf_transition hperform, if_neg hname]
  · have hidle : ∀ sm ∈ sms, NFdl.chosenBy initial engine i sm = some none := fun sm hsm =>
      (hquiet.stays sm hsm).resolve_right fun ⟨tr, htr, _⟩ => htakes ⟨sm, hsm, tr, htr⟩
    refine ⟨_, _, hall.runMachines_idle (List.ne_nil_of_mem hsm) hidle,
      halone.runMachines_idle (List.cons_ne_nil _ _) fun sm' hsm' => ?_, ?_, hvars, rfl⟩
    · obtain rfl := List.mem_singleton.mp hsm'
      exact h.chosenBy.trans (hidle _ hsm)
    · exact h.currentOf i.key

/-- A quiet step shows the machine as if it were the only one, and keeps it so. -/
theorem AloneWith.feed (h : AloneWith sm initial engine alone)
    (hall : HasMachines sms initial engine) (hsm : sm ∈ sms)
    (hquiet : QuietStep sms initial engine i) :
    ∃ r r', engine.feed i.key i.msgType i.ctx = some r ∧
      alone.feed i.key i.msgType i.ctx = some r' ∧ AloneWith sm initial r.1 r'.1 ∧
      ShowsAlone sm (i.key, FsmEngine.report r i.key) (i.key, FsmEngine.report r' i.key) := by
  obtain ⟨fs, fs', hfs, hfs', hstate, hvars, hevents⟩ := h.runMachines hall hsm hquiet
  refine ⟨_, _, FsmEngine.feed_eq_some_iff.mpr ⟨fs, hfs, rfl⟩,
    FsmEngine.feed_eq_some_iff.mpr ⟨fs', hfs', rfl⟩, ?_, rfl, hstate, ?_, hevents⟩
  · obtain ⟨hmachines, hinitials, hdb, hstates, hothers⟩ := h.touch i.key
    refine ⟨hmachines, hinitials, ?_, ?_, fun κ => ?_⟩
    · change (alone.touch i.key).db.transition _ _ = (engine.touch i.key).db.transition _ _
      rw [hdb, hstate]
    · change (alone.touch i.key).currentStates.insert _ _ =
        (engine.touch i.key).currentStates.insert _ _
      rw [hstates, hstate]
    · by_cases heq : κ = i.key
      · subst heq
        rw [FsmEngine.settle_variables hfs, FsmEngine.settle_variables hfs']
        exact hvars
      · rw [(FsmEngine.settle_lookup_ne heq).2, (FsmEngine.settle_lookup_ne heq).2]
        exact hothers κ
  · simp only [FsmEngine.report, FsmEngine.settle_variables hfs, FsmEngine.settle_variables hfs']
    exact hvars

/-- A quiet run shows the machine as if it were the only one. -/
theorem AloneWith.feedAll (hsm : sm ∈ sms) (inputs : List FeedInput)
    (h : AloneWith sm initial engine alone) (hall : HasMachines sms initial engine)
    (hquiet : Inputs.Along engineStep (fun before i => ∀ engine, before = some engine →
      QuietStep sms initial engine i) (some engine) inputs) :
    ∃ reports reports', engine.feedAll inputs = some reports ∧
      alone.feedAll inputs = some reports' ∧ List.Forall₂ (ShowsAlone sm) reports reports' := by
  induction inputs generalizing engine alone with
  | nil => exact ⟨[], [], rfl, rfl, .nil⟩
  | cons i rest ih =>
      obtain ⟨r, r', hr, hr', hnext, hshows⟩ := h.feed hall hsm (hquiet.1 engine rfl)
      have hstep : engineStep (some engine) i = some r.1 := by simp [engineStep, hr]
      have htail := hquiet.2
      rw [hstep] at htail
      obtain ⟨reports, reports', hreports, hreports', hall₂⟩ := ih hnext (hall.feed hr) htail
      refine ⟨_, _, ?_, ?_, .cons hshows hall₂⟩
      · rw [FsmEngine.feedAll_cons_some hr, hreports]
        rfl
      · rw [FsmEngine.feedAll_cons_some hr', hreports']
        rfl

end Alone

/-! ### A single machine -/

section Single

variable {sm : StateMachine} {engine : FsmEngine}

theorem fireFirst_events {machine current msgType toState : String} {ctx : Env} {v o : Option Vars}
    {transitions : List Transition} {events : List FsmEvent}
    (h : fireFirst machine current msgType ctx v transitions = some (some (toState, o, events))) :
    eventsOf machine [] events = events := by
  have heq := @fireFirst_eq ctx v machine current msgType transitions
  rw [h] at heq
  rcases hchosen : Declared.chosen msgType ctx (v.getD ∅) transitions with _ | _ | tr
  · rw [hchosen] at heq
    cases heq
  · rw [hchosen] at heq
    cases heq
  · rw [hchosen] at heq
    change some _ = Option.map some (Declared.take machine ctx ⟨current, v.getD ∅⟩ tr) at heq
    obtain ⟨⟨s, ev⟩, htake, hpair⟩ := Option.map_eq_some_iff.mp heq.symm
    obtain ⟨⟨w, evs⟩, hperform, hr⟩ := Option.bind_eq_some_iff.mp htake
    obtain ⟨-, rfl⟩ := Prod.mk.inj (Option.some.inj hpair)
    obtain ⟨-, rfl⟩ := Prod.mk.inj (Option.some.inj hr)
    rw [eventsOf_transition hperform, if_pos rfl, List.nil_append]

/-- All events of the only machine are its own. -/
theorem feedAll_single (inputs : List FeedInput) {reports : List (FlowKey × FlowReport)}
    (h : engine.machines.entries = [⟨sm.name, stateTable sm.states⟩])
    (hreports : engine.feedAll inputs = some reports) :
    List.Forall₂ (ShowsAlone sm) reports reports := by
  induction inputs generalizing engine reports with
  | nil =>
      obtain rfl := Option.some.inj hreports
      exact .nil
  | cons i rest ih =>
      cases hr : engine.feed i.key i.msgType i.ctx with
      | none =>
          rw [FsmEngine.feedAll_cons_none hr] at hreports
          cases hreports
      | some r =>
          rw [FsmEngine.feedAll_cons_some hr] at hreports
          obtain ⟨tail, htail, rfl⟩ := Option.map_eq_some_iff.mp hreports
          refine .cons ⟨rfl, rfl, fun _ _ => rfl, ?_⟩
            (ih (by rw [(FsmEngine.feed_machines hr).1, h]) htail)
          obtain ⟨fs, hfs, rfl⟩ := FsmEngine.feed_eq_some_iff.mp hr
          unfold FsmEngine.runMachines at hfs
          rw [FsmEngine.touch_machines, h, List.foldlM_cons] at hfs
          obtain ⟨fs', hfs', hlast⟩ := Option.bind_eq_some_iff.mp hfs
          obtain rfl := Option.some.inj hlast
          change fs'.events = eventsOf sm.name [] fs'.events
          obtain rfl | ⟨transitions, toState, o, events, -, hfire, rfl⟩ := feedMachine_cases hfs'
          · unfold FeedState.seed
            split_ifs <;> first | rfl | (split <;> rfl)
          · have hnil : (FeedState.seed (engine.touch i.key).initials sm.name
                ⟨(engine.touch i.key).getCurrentState i.key,
                  (engine.touch i.key).getCurrentState i.key,
                  (engine.touch i.key).variables_.lookup i.key, []⟩).events = [] := by
              unfold FeedState.seed
              split_ifs <;> first | rfl | (split <;> rfl)
            simp only [hnil, List.nil_append]
            exact (fireFirst_events hfire).symm

/-- One table cannot be reordered. -/
theorem withMachines_eq {machines : AList fun _ : String => AList fun _ : String => List Transition}
    (hone : engine.machines.entries.length ≤ 1)
    (hperm : machines.entries.Perm engine.machines.entries) :
    engine.withMachines machines = engine := by
  have hentries : machines.entries = engine.machines.entries := by
    match hlist : engine.machines.entries, hone with
    | [], _ => exact List.perm_nil.mp (hlist ▸ hperm)
    | [machine], _ => exact List.perm_singleton.mp (hlist ▸ hperm)
  unfold FsmEngine.withMachines
  rw [AList.ext hentries]

theorem loaded_length_le (sms : List StateMachine) (hone : sms.length ≤ 1) (maxSessions : Nat) :
    (FsmEngine.loaded maxSessions sms).machines.entries.length ≤ 1 := by
  match sms, hone with
  | [], _ => exact Nat.zero_le _
  | [sm], _ => exact Nat.le_refl _

end Single

/-- Loading machines leaves the tables of the flows alone. -/
theorem loaded_flows (sms : List StateMachine) (maxSessions : Nat) :
    (FsmEngine.loaded maxSessions sms).db = (FsmEngine.new maxSessions).db ∧
    (FsmEngine.loaded maxSessions sms).currentStates = ∅ ∧
    (FsmEngine.loaded maxSessions sms).variables_ = ∅ := by
  have hfold (sms : List StateMachine) : FsmEngine.loaded maxSessions sms =
      sms.foldl FsmEngine.loadMachine (FsmEngine.new maxSessions) := rfl
  induction sms using List.reverseRecOn with
  | nil => exact ⟨rfl, rfl, rfl⟩
  | append_singleton sms sm ih =>
      rw [hfold] at ih ⊢
      rw [List.foldl_append]
      exact ih

/-- The machines of a quiet run are independent of their order and of each other. -/
theorem machines_independent (sms : List StateMachine) (maxSessions : Nat)
    (inputs : List FeedInput)
    (h : QuietRun sms (FsmEngine.loaded maxSessions sms) inputs) :
    MachinesIndependent sms maxSessions inputs := by
  obtain hone | ⟨hnames, initial, hinitial, hquiet⟩ := h
  · refine ⟨fun machines hperm => ?_, fun sm hsm reports hreports => ?_⟩
    · rw [withMachines_eq (loaded_length_le sms hone maxSessions) hperm]
    · obtain rfl : sms = [sm] := by
        match sms, hone, hsm with
        | [sm'], _, hsm => rw [List.mem_singleton.mp hsm]
      exact ⟨reports, hreports, feedAll_single inputs rfl hreports⟩
  · obtain ⟨hmachines, hinitials⟩ := loaded_machines hnames maxSessions
    have hall : HasMachines sms initial (FsmEngine.loaded maxSessions sms) :=
      ⟨hnames, hmachines, fun sm hsm => (hinitials sm hsm).trans (hinitial sm hsm ▸ rfl)⟩
    refine ⟨fun machines hperm => ?_, fun sm hsm reports hreports => ?_⟩
    · by_cases hone : sms.length ≤ 1
      · rw [withMachines_eq (loaded_length_le sms hone maxSessions) hperm]
      · exact feedAll_withMachines (fun hnil => hone (by rw [hnil]; exact Nat.zero_le _)) inputs
          hall hperm hquiet
    · have halone : AloneWith sm initial (FsmEngine.loaded maxSessions sms)
          (FsmEngine.loaded maxSessions [sm]) := by
        obtain ⟨hdb, hcurrent, hvars⟩ := loaded_flows sms maxSessions
        exact ⟨rfl, hinitial sm hsm ▸ AList.lookup_insert _, hdb.symm, hcurrent.symm,
          fun κ n _ => by rw [hvars]; rfl⟩
      obtain ⟨reports', alone, hreports', halone', hshows⟩ := halone.feedAll hsm inputs hall hquiet
      obtain rfl : reports' = reports := Option.some.inj (hreports'.symm.trans hreports)
      exact ⟨alone, halone', hshows⟩

def counter : StateMachine :=
  .ofBlocks "Counter" none [⟨"Off", [⟨none, "Tick", none, "Off",
    [.set "ticks" (.binary .add (.ident "ticks") (.int 1)), .emit "Ticked"]⟩]⟩]

def lamp : StateMachine :=
  .ofBlocks "Lamp" none [⟨"Off", [⟨none, "Press", none, "On", []⟩]⟩, ⟨"On", []⟩]

/-- The lamp has nothing to do with the ticks that the other machine counts. -/
theorem machines_independent_counter_lamp :
    MachinesIndependent [counter, lamp] 4 [⟨.pack [1], "Tick", fun _ => none⟩] := by
  refine machines_independent _ _ _ (.inr ⟨by decide, "Off", by decide, ?_, trivial⟩)
  intro engine hengine
  obtain rfl := Option.some.inj hengine
  have hcounter : chosenBy "Off" (FsmEngine.loaded 4 [counter, lamp])
      ⟨.pack [1], "Tick", fun _ => none⟩ counter = some (some ⟨none, "Tick", none, "Off",
        [.set "ticks" (.binary .add (.ident "ticks") (.int 1)), .emit "Ticked"]⟩) := rfl
  have hlamp : chosenBy "Off" (FsmEngine.loaded 4 [counter, lamp])
      ⟨.pack [1], "Tick", fun _ => none⟩ lamp = some none := rfl
  have hcases : ∀ sm ∈ [counter, lamp], sm = counter ∨ sm = lamp := by simp
  constructor
  · intro sm hsm
    obtain rfl | rfl := hcases sm hsm
    · exact .inr ⟨_, hcounter, rfl, rfl⟩
    · exact .inl hlamp
  · intro sm hsm sm' hsm' tr tr' htr htr'
    obtain rfl | rfl := hcases sm hsm
    · obtain rfl | rfl := hcases sm' hsm'
      · rfl
      · cases hlamp.symm.trans htr'
    · cases hlamp.symm.trans htr
  · intro sm hsm tr htr sm' hsm' hname n hn
    obtain rfl | rfl := hcases sm hsm
    · obtain rfl | rfl := hcases sm' hsm'
      · exact absurd rfl hname
      · exact List.not_mem_nil
    · cases hlamp.symm.trans htr

/-- Two machines without anything in common. -/
def doorAndLamp : List StateMachine :=
  [.ofBlocks "Door" none [⟨"Shut", [⟨none, "Open", none, "Ajar", []⟩]⟩, ⟨"Ajar", []⟩],
    .ofBlocks "Lamp" none [⟨"Off", [⟨none, "Press", none, "On", []⟩]⟩, ⟨"On", []⟩]]

/-- The tables of the two machines, the second one first. -/
def lampFirst : AList fun _ : String => AList fun _ : String => List Transition :=
  ⟨(FsmEngine.loaded 4 doorAndLamp).machines.entries.reverse,
    (List.perm_nodupKeys (List.reverse_perm _)).mpr
      (FsmEngine.loaded 4 doorAndLamp).machines.nodupKeys⟩

/-- One message opens the door or finds it missing, depending on the order of the
machines. -/
theorem doorAndLamp_depend_on_order :
    let inputs : List FeedInput := [⟨.pack [1], "Open", fun _ => none⟩]
    lampFirst.entries.Perm (FsmEngine.loaded 4 doorAndLamp).machines.entries ∧
    ((FsmEngine.loaded 4 doorAndLamp).feedAll inputs).map (·.map fun r => r.2.state) =
      some ["Off"] ∧
    (((FsmEngine.loaded 4 doorAndLamp).withMachines lampFirst).feedAll inputs).map
      (·.map fun r => r.2.state) = some ["Ajar"] :=
  ⟨List.reverse_perm _, rfl, rfl⟩

end NFdl
