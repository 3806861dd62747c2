import NFdl.Runtime.FlowKey
import NFdl.Lib.Inputs
import Mathlib.Data.List.AList

/-!
# State machines per flow

The parser collects the state blocks of a machine and chooses its initial state.
The engine keeps one current state and one set of variables for each flow, and
feeds a message to all machines in the order in which it iterates its machine
map. An overflow in a guard or an action is a step without a result.
-/

namespace NFdl

/-- Variables or field values by name. -/
abbrev Vars := AList fun _ : String => UInt64

inductive Action where
  | set (var : String) (value : Expr)
  | emit (event : String)

structure Transition where
  fromState : Option String
  msgType : String
  guard : Option Expr
  toState : String
  actions : List Action

structure State where
  name : String
  transitions : List Transition

structure StateMachine where
  name : String
  states : List State
  initial : String
  key : Option Expr

/-! ### Parsed machines -/

/-- One `state` block of the source: a name that occurs again replaces the
transitions but keeps its place. -/
def collectState (acc : List String × AList fun _ : String => List Transition) (block : State) :
    List String × AList fun _ : String => List Transition :=
  (if block.name ∈ acc.2 then acc.1 else acc.1 ++ [block.name],
    acc.2.insert block.name block.transitions)

def collectStates (blocks : List State) : List State :=
  let (order, transitions) := blocks.foldl collectState ([], ∅)
  order.filterMap fun name => (transitions.lookup name).map fun trans => ⟨name, trans⟩

/-- The initial state starts as `"IDLE"`, and each block replaces it as long as
it is `"IDLE"`. -/
def initialState (blocks : List State) : String :=
  blocks.foldl (fun initial block => if initial = "IDLE" then block.name else initial) "IDLE"

/-- The machine that the parser builds from the `state` blocks it has read. -/
def StateMachine.ofBlocks (name : String) (key : Option Expr) (blocks : List State) :
    StateMachine where
  name := name
  states := collectStates blocks
  initial := initialState blocks
  key := key

/-! ### Sessions -/

structure SessionContext where
  state : Nat
  vars : Vars
  lastAccess : Nat

structure SessionDb where
  sessions : AList fun _ : FlowKey => SessionContext
  maxSessions : Nat
  clock : Nat

namespace SessionDb

def new (maxSessions : Nat) : SessionDb := ⟨∅, maxSessions, 0⟩

/-- The clock saturates at `u64::MAX`. -/
def bump (db : SessionDb) : SessionDb := { db with clock := min (db.clock + 1) (2 ^ 64 - 1) }

/-- The first of the sessions with the smallest last access. -/
def lruKey (sessions : List (Sigma fun _ : FlowKey => SessionContext)) : Option FlowKey :=
  (sessions.foldl (fun best s => match best with
    | none => some s
    | some b => if s.2.lastAccess < b.2.lastAccess then some s else some b) none).map Sigma.fst

def evictLru (db : SessionDb) : SessionDb × Option FlowKey :=
  match lruKey db.sessions.entries with
  | some key => ({ db with sessions := db.sessions.erase key }, some key)
  | none => (db, none)

/-- Access the session of a key, making room for a new one, and return the key
whose session had to go. -/
def getOrCreate (db : SessionDb) (key : FlowKey) : SessionDb × Option FlowKey :=
  let db := db.bump
  let now := db.clock
  let (db, evicted) :=
    if db.maxSessions ≤ db.sessions.keys.length ∧ key ∉ db.sessions then db.evictLru
    else (db, none)
  let session := (db.sessions.lookup key).getD ⟨0, ∅, now⟩
  ({ db with sessions := db.sessions.insert key { session with lastAccess := now } }, evicted)

/-- Record the numeric state of a session that exists. -/
def transition (db : SessionDb) (key : FlowKey) (newState : Nat) : SessionDb :=
  let db := db.bump
  match db.sessions.lookup key with
  | some session =>
      let session := { session with state := newState, lastAccess := db.clock }
      { db with sessions := db.sessions.insert key session }
  | none => db

end SessionDb

/-! ### The engine -/

/-- The events of the state machine engine. -/
inductive FsmEvent where
  | diagnostic (code message : String)
  | emit (name : String)
  | fsmTransition (fromState toState : Nat) (machine : String)
  | sessionExpired (keyHash : UInt64)
deriving DecidableEq, Repr

structure ArmedTimer where
  deadline : Nat
  insertionId : Nat

structure FsmEngine where
  db : SessionDb
  machines : AList fun _ : String => AList fun _ : String => List Transition
  initials : AList fun _ : String => String
  currentStates : AList fun _ : FlowKey => String
  variables_ : AList fun _ : FlowKey => Vars
  timers : AList fun _ : FlowKey => AList fun _ : String => ArmedTimer
  timerNow : Nat
  timerSeq : Nat

def stateNumeric (s : String) : Nat :=
  if s = "IDLE" ∨ s = "CLOSED" then 0
  else if s = "PENDING" ∨ s = "SYN_SENT" ∨ s = "ESTABLISHED" then 1
  else if s = "FIN_WAIT" then 2
  else 0

/-- Variables of the flow hide the fields of the message. -/
def overlay (ctx : Env) (vars : Option Vars) : Env := fun name =>
  (vars.bind fun vars => vars.lookup name).or (ctx name)

def evalGuard (ctx : Env) (vars : Option Vars) : Option Expr → Option Bool
  | none => some true
  | some e => (evalExpr (overlay ctx vars) e).map fun v => v ≠ 0

/-- Execute actions in order. The flow gets a table of variables with the first
one that is set. -/
def execActions (ctx : Env) : List Action → Option Vars → Option (Option Vars × List FsmEvent)
  | [], vars => some (vars, [])
  | .set var value :: rest, vars => do
      let val ← evalExpr (overlay ctx vars) value
      let (vars, events) ← execActions ctx rest (some ((vars.getD ∅).insert var val))
      some (vars, .diagnostic "SET" (var ++ "=" ++ toString val.toNat) :: events)
  | .emit event :: rest, vars => do
      let (vars, events) ← execActions ctx rest vars
      some (vars, .emit event :: events)

/-- The first transition that takes the message: its target, the variables after
its actions, and its events. -/
def fireFirst (machine current msgType : String) (ctx : Env) (vars : Option Vars) :
    List Transition → Option (Option (String × Option Vars × List FsmEvent))
  | [] => some none
  | tr :: rest =>
      if tr.msgType = msgType then do
        if ← evalGuard ctx vars tr.guard then
          let (vars, events) ← execActions ctx tr.actions vars
          some (some (tr.toState, vars, events ++
            [.fsmTransition (stateNumeric current) (stateNumeric tr.toState) machine]))
        else fireFirst machine current msgType ctx vars rest
      else fireFirst machine current msgType ctx vars rest

/-- The local variables of the loop over the machines. -/
structure FeedState where
  current : String
  newState : String
  vars : Option Vars
  events : List FsmEvent

/-- A flow in state `"IDLE"` is put in the machine's initial state. -/
def FeedState.seed (initials : AList fun _ : String => String) (machine : String) (s : FeedState) :
    FeedState :=
  if s.current = "IDLE" then
    match initials.lookup machine with
    | some init => { s with current := init, newState := init }
    | none => s
  else s

/-- One machine's turn. The state it leads to is not seen by the other machines,
which look for transitions of the same current state. -/
def feedMachine (initials : AList fun _ : String => String) (msgType : String) (ctx : Env)
    (s : FeedState) (machine : Sigma fun _ : String => AList fun _ : String => List Transition) :
    Option FeedState :=
  let s := s.seed initials machine.1
  match machine.2.lookup s.current with
  | none => some s
  | some transitions => do
      match ← fireFirst machine.1 s.current msgType ctx s.vars transitions with
      | none => some s
      | some (toState, vars, events) =>
          some { s with newState := toState, vars := vars, events := s.events ++ events }

namespace FsmEngine

def new (maxSessions : Nat) : FsmEngine where
  db := .new maxSessions
  machines := ∅
  initials := ∅
  currentStates := ∅
  variables_ := ∅
  timers := ∅
  timerNow := 0
  timerSeq := 0

def loadMachine (engine : FsmEngine) (sm : StateMachine) : FsmEngine :=
  { engine with
    machines := engine.machines.insert sm.name
      (sm.states.foldl (fun map st => map.insert st.name st.transitions) ∅)
    initials := engine.initials.insert sm.name sm.initial }

def loadFromAst (engine : FsmEngine) (sms : List StateMachine) : FsmEngine :=
  sms.foldl loadMachine { engine with machines := ∅, initials := ∅ }

def dropFlowMaps (engine : FsmEngine) (key : FlowKey) : FsmEngine :=
  { engine with
    currentStates := engine.currentStates.erase key
    variables_ := engine.variables_.erase key
    timers := engine.timers.erase key }

/-- Access the flow's session and forget the flow whose session had to go. -/
def touch (engine : FsmEngine) (key : FlowKey) : FsmEngine :=
  let (db, evicted) := engine.db.getOrCreate key
  match evicted with
  | some evictedKey => { engine with db := db }.dropFlowMaps evictedKey
  | none => { engine with db := db }

def getCurrentState (engine : FsmEngine) (key : FlowKey) : String :=
  (engine.currentStates.lookup key).getD "IDLE"

/-- Feed the message to all machines. -/
def runMachines (engine : FsmEngine) (msgType : String) (ctx : Env) (current : String)
    (vars : Option Vars) : Option FeedState :=
  engine.machines.entries.foldlM (feedMachine engine.initials msgType ctx)
    ⟨current, current, vars, []⟩

/-- Store the state and the variables of the flow. -/
def settle (engine : FsmEngine) (key : FlowKey) (s : FeedState) : FsmEngine :=
  { engine with
    currentStates := engine.currentStates.insert key s.newState
    variables_ := match s.vars with
      | some vars => engine.variables_.insert key vars
      | none => engine.variables_
    db := engine.db.transition key (stateNumeric s.newState) }

def feed (engine : FsmEngine) (key : FlowKey) (msgType : String) (ctx : Env) :
    Option (FsmEngine × String × List FsmEvent) := do
  let engine := engine.touch key
  let s ← engine.runMachines msgType ctx (engine.getCurrentState key) (engine.variables_.lookup key)
  some (engine.settle key s, s.newState, s.events)

end FsmEngine

/-! ### Tables of variables are never dropped -/

section Tables

variable {ctx : Env} {vars : Option Vars}

theorem execActions_isSome {actions : List Action} {r : Option Vars × List FsmEvent}
    (h : execActions ctx actions vars = some r) (hvars : vars.isSome) : r.1.isSome := by
  induction actions generalizing vars r with
  | nil =>
      obtain rfl := Option.some.inj h
      exact hvars
  | cons action rest ih =>
      cases action with
      | set var value =>
          simp only [execActions, Option.bind_eq_bind, Option.bind_eq_some_iff] at h
          obtain ⟨val, -, ⟨vars', events⟩, hrest, hr⟩ := h
          obtain rfl := Option.some.inj hr
          exact ih (r := (vars', events)) hrest rfl
      | emit event =>
          simp only [execActions, Option.bind_eq_bind, Option.bind_eq_some_iff] at h
          obtain ⟨⟨vars', events⟩, hrest, hr⟩ := h
          obtain rfl := Option.some.inj hr
          exact ih (r := (vars', events)) hrest hvars

theorem fireFirst_isSome {machine current msgType toState : String} {transitions : List Transition}
    {vars' : Option Vars} {events : List FsmEvent}
    (h : fireFirst machine current msgType ctx vars transitions = some (some (toState, vars', events)))
    (hvars : vars.isSome) : vars'.isSome := by
  induction transitions with
  | nil => simp [fireFirst] at h
  | cons tr rest ih =>
      unfold fireFirst at h
      split at h
      · obtain ⟨holds, -, h⟩ := Option.bind_eq_some_iff.mp h
        cases holds with
        | false => exact ih h
        | true =>
            obtain ⟨r, hr, h⟩ := Option.bind_eq_some_iff.mp h
            simp only [Option.some.injEq, Prod.mk.injEq] at h
            obtain ⟨-, rfl, -⟩ := h
            exact execActions_isSome hr hvars
      · exact ih h

/-- A machine's turn in full: it does nothing, or it takes a transition of the
seeded state. -/
theorem feedMachine_cases {initials : AList fun _ : String => String} {msgType : String}
    {s s' : FeedState}
    {machine : Sigma fun _ : String => AList fun _ : String => List Transition}
    (h : feedMachine initials msgType ctx s machine = some s') :
    s' = s.seed initials machine.1 ∨
      ∃ transitions toState vars events,
        machine.2.lookup (s.seed initials machine.1).current = some transitions ∧
        fireFirst machine.1 (s.seed initials machine.1).current msgType ctx
          (s.seed initials machine.1).vars transitions = some (some (toState, vars, events)) ∧
        s' = { s.seed initials machine.1 with
          newState := toState, vars := vars, events := (s.seed initials machine.1).events ++ events } := by
  unfold feedMachine at h
  generalize s.seed initials machine.1 = s at h
  simp only at h
  cases hlookup : machine.2.lookup s.current with
  | none =>
      rw [hlookup] at h
      exact .inl (Option.some.inj h).symm
  | some transitions =>
      rw [hlookup] at h
      obtain ⟨taken, htaken, h⟩ := Option.bind_eq_some_iff.mp h
      cases taken with
      | none => exact .inl (Option.some.inj h).symm
      | some r => exact .inr ⟨transitions, r.1, r.2.1, r.2.2, rfl, htaken, (Option.some.inj h).symm⟩

@[simp] theorem FeedState.seed_vars (initials : AList fun _ : String => String) (machine : String)
    (s : FeedState) : (s.seed initials machine).vars = s.vars := by
  unfold FeedState.seed
  split
  · split <;> rfl
  · rfl

theorem feedMachine_isSome {initials : AList fun _ : String => String} {msgType : String}
    {s s' : FeedState}
    {machine : Sigma fun _ : String => AList fun _ : String => List Transition}
    (h : feedMachine initials msgType ctx s machine = some s') (hvars : s.vars.isSome) :
    s'.vars.isSome := by
  obtain rfl | ⟨transitions, toState, vars', events, -, hfire, rfl⟩ := feedMachine_cases h
  · rwa [FeedState.seed_vars]
  · exact fireFirst_isSome hfire (by rwa [FeedState.seed_vars])

theorem FsmEngine.runMachines_isSome {engine : FsmEngine} {msgType current : String}
    {s : FeedState} (h : engine.runMachines msgType ctx current vars = some s)
    (hvars : vars.isSome) : s.vars.isSome := by
  unfold runMachines at h
  suffices hfold : ∀ (machines : List _) (s s' : FeedState), s.vars.isSome →
      machines.foldlM (feedMachine engine.initials msgType ctx) s = some s' → s'.vars.isSome from
    hfold _ _ _ hvars h
  intro machines
  induction machines with
  | nil =>
      intro s s' hs h
      obtain rfl := Option.some.inj h
      exact hs
  | cons machine rest ih =>
      intro s s' hs h
      rw [List.foldlM_cons] at h
      obtain ⟨s₁, hs₁, h⟩ := Option.bind_eq_some_iff.mp h
      exact ih s₁ s' (feedMachine_isSome hs₁ hs) h

end Tables

/-! ### What a step leaves alone -/

namespace FsmEngine

variable {engine engine' : FsmEngine} {key other : FlowKey} {s : FeedState}

@[simp] theorem touch_machines : (engine.touch key).machines = engine.machines := by
  unfold touch
  rcases engine.db.getOrCreate key with ⟨db, _ | evictedKey⟩ <;> rfl

@[simp] theorem touch_initials : (engine.touch key).initials = engine.initials := by
  unfold touch
  rcases engine.db.getOrCreate key with ⟨db, _ | evictedKey⟩ <;> rfl

@[simp] theorem settle_machines : (engine.settle key s).machines = engine.machines := rfl

@[simp] theorem settle_initials : (engine.settle key s).initials = engine.initials := rfl

/-- Making room for one flow forgets no flow but the evicted one. -/
theorem touch_lookup (h : (engine.db.getOrCreate key).2 ≠ some other) :
    (engine.touch key).currentStates.lookup other = engine.currentStates.lookup other ∧
      (engine.touch key).variables_.lookup other = engine.variables_.lookup other := by
  unfold touch
  revert h
  rcases engine.db.getOrCreate key with ⟨db, _ | evictedKey⟩
  · exact fun _ => ⟨rfl, rfl⟩
  · intro h
    have hne : other ≠ evictedKey := fun heq => h (heq ▸ rfl)
    exact ⟨AList.lookup_erase_ne hne, AList.lookup_erase_ne hne⟩

theorem settle_lookup_ne (h : other ≠ key) :
    (engine.settle key s).currentStates.lookup other = engine.currentStates.lookup other ∧
      (engine.settle key s).variables_.lookup other = engine.variables_.lookup other := by
  refine ⟨AList.lookup_insert_ne h, ?_⟩
  unfold settle
  cases s.vars with
  | none => rfl
  | some vars => exact AList.lookup_insert_ne h

/-- The table after a step is the one the loop over the machines ends with. -/
theorem settle_variables {msgType current : String} {ctx : Env}
    (h : engine.runMachines msgType ctx current (engine.variables_.lookup key) = some s) :
    (engine.settle key s).variables_.lookup key = s.vars := by
  unfold settle
  cases hvars : s.vars with
  | none =>
      cases hbefore : engine.variables_.lookup key with
      | none => rfl
      | some vars =>
          have := runMachines_isSome h (by rw [hbefore]; rfl)
          rw [hvars] at this
          exact absurd this (by simp)
  | some vars => exact AList.lookup_insert _

@[simp] theorem settle_currentStates :
    (engine.settle key s).currentStates.lookup key = some s.newState := AList.lookup_insert _

theorem feed_eq_some_iff {msgType : String} {ctx : Env} {r : FsmEngine × String × List FsmEvent} :
    engine.feed key msgType ctx = some r ↔ ∃ s, (engine.touch key).runMachines msgType ctx
      ((engine.touch key).getCurrentState key) ((engine.touch key).variables_.lookup key) = some s ∧
        r = ((engine.touch key).settle key s, s.newState, s.events) := by
  simp only [feed, Option.bind_eq_bind, Option.bind_eq_some_iff, Option.some.injEq]
  exact exists_congr fun s => and_congr_right fun _ => eq_comm

theorem feed_machines {msgType : String} {ctx : Env} {r : FsmEngine × String × List FsmEvent}
    (h : engine.feed key msgType ctx = some r) :
    r.1.machines = engine.machines ∧ r.1.initials = engine.initials := by
  obtain ⟨s, -, rfl⟩ := feed_eq_some_iff.mp h
  exact ⟨touch_machines, touch_initials⟩

/-- A message for one flow leaves the others alone, unless one has to make room. -/
theorem feed_other {msgType : String} {ctx : Env} {r : FsmEngine × String × List FsmEvent}
    (h : engine.feed key msgType ctx = some r) (hne : other ≠ key)
    (hkept : (engine.db.getOrCreate key).2 ≠ some other) :
    r.1.currentStates.lookup other = engine.currentStates.lookup other ∧
      r.1.variables_.lookup other = engine.variables_.lookup other := by
  obtain ⟨s, -, rfl⟩ := feed_eq_some_iff.mp h
  obtain ⟨hstate, hvars⟩ := touch_lookup hkept
  have hsettle : ((engine.touch key).settle key s).currentStates.lookup other =
      (engine.touch key).currentStates.lookup other ∧ _ := settle_lookup_ne hne
  exact ⟨hsettle.1.trans hstate, hsettle.2.trans hvars⟩

end FsmEngine

/-! ### Runs -/

/-- A message with its fields, for a flow. -/
structure FeedInput where
  key : FlowKey
  msgType : String
  ctx : Env

/-- What can be observed of a flow after a message: its state, its variables, and
the events of the step. -/
structure FlowReport where
  state : String
  vars : Vars
  events : List FsmEvent

namespace FsmEngine

def report (r : FsmEngine × String × List FsmEvent) (key : FlowKey) : FlowReport :=
  ⟨r.2.1, (r.1.variables_.lookup key).getD ∅, r.2.2⟩

/-- The reports of a run, without a result if a step has none. -/
def feedAll (engine : FsmEngine) : List FeedInput → Option (List (FlowKey × FlowReport))
  | [] => some []
  | i :: rest => do
      let r ← engine.feed i.key i.msgType i.ctx
      let reports ← r.1.feedAll rest
      some ((i.key, report r i.key) :: reports)

theorem feedAll_cons_none {engine : FsmEngine} {i : FeedInput} {rest : List FeedInput}
    (h : engine.feed i.key i.msgType i.ctx = none) : engine.feedAll (i :: rest) = none := by
  unfold feedAll
  rw [h]
  rfl

theorem feedAll_cons_some {engine : FsmEngine} {i : FeedInput} {rest : List FeedInput}
    {r : FsmEngine × String × List FsmEvent} (h : engine.feed i.key i.msgType i.ctx = some r) :
    engine.feedAll (i :: rest) = (r.1.feedAll rest).map ((i.key, report r i.key) :: ·) := by
  rw [feedAll, h]
  change Option.bind (r.1.feedAll rest) _ = _
  cases r.1.feedAll rest <;> rfl

end FsmEngine

end NFdl
