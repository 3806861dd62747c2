import NFdl.Runtime.Efsm
import Mathlib.Data.List.Induction

/-!
# A machine runs as declared

The declared meaning of a machine is a transition function on a state name and
the variables of the session. The engine follows it as long as the name `"IDLE"`
does not occur where the parser and the engine use it as a marker.
-/

namespace NFdl

/-! ### The declared meaning -/

/-- The state of a session. -/
structure Session where
  state : String
  vars : Vars

namespace Declared

/-- Session variables hide the fields of the message. -/
def names (ctx : Env) (vars : Vars) : Env := fun name => (vars.lookup name).or (ctx name)

def guardHolds (ctx : Env) (vars : Vars) : Option Expr → Option Bool
  | none => some true
  | some e => (evalExpr (names ctx vars) e).map fun v => v ≠ 0

/-- The first declared transition that takes the message. -/
def chosen (msgType : String) (ctx : Env) (vars : Vars) :
    List Transition → Option (Option Transition)
  | [] => some none
  | tr :: rest =>
      if tr.msgType = msgType then do
        if ← guardHolds ctx vars tr.guard then some (some tr)
        else chosen msgType ctx vars rest
      else chosen msgType ctx vars rest

def perform (ctx : Env) : List Action → Vars → Option (Vars × List FsmEvent)
  | [], vars => some (vars, [])
  | .set var value :: rest, vars => do
      let val ← evalExpr (names ctx vars) value
      let (vars, events) ← perform ctx rest (vars.insert var val)
      some (vars, .diagnostic "SET" (var ++ "=" ++ toString val.toNat) :: events)
  | .emit event :: rest, vars => do
      let (vars, events) ← perform ctx rest vars
      some (vars, .emit event :: events)

/-- Take the transition: its actions in order, then its target. -/
def take (machine : String) (ctx : Env) (s : Session) (tr : Transition) :
    Option (Session × List FsmEvent) := do
  let (vars, events) ← perform ctx tr.actions s.vars
  some (⟨tr.toState, vars⟩, events ++
    [.fsmTransition (stateNumeric s.state) (stateNumeric tr.toState) machine])

/-- The transitions declared for a state. -/
def transitionsOf (states : List State) (name : String) : List Transition :=
  ((states.find? fun st => st.name = name).map State.transitions).getD []

/-- The transition function: without a transition that takes the message, nothing
changes. -/
def step (machine : String) (states : List State) (s : Session) (msgType : String) (ctx : Env) :
    Option (Session × List FsmEvent) := do
  match ← chosen msgType ctx s.vars (transitionsOf states s.state) with
  | none => some (s, [])
  | some tr => take machine ctx s tr

def run (machine : String) (states : List State) (s : Session) :
    List (String × Env) → Option (List FlowReport)
  | [] => some []
  | (msgType, ctx) :: rest => do
      let (s, events) ← step machine states s msgType ctx
      let reports ← run machine states s rest
      some (⟨s.state, s.vars, events⟩ :: reports)

end Declared

namespace Declared

variable {machine msgType : String} {states : List State} {s s' : Session} {ctx : Env}
  {events : List FsmEvent} {rest : List (String × Env)}

theorem run_cons_none (h : step machine states s msgType ctx = none) :
    run machine states s ((msgType, ctx) :: rest) = none := by
  rw [run, h]
  rfl

theorem run_cons_some (h : step machine states s msgType ctx = some (s', events)) :
    run machine states s ((msgType, ctx) :: rest) =
      (run machine states s' rest).map (⟨s'.state, s'.vars, events⟩ :: ·) := by
  rw [run, h]
  change Option.bind (run machine states s' rest) _ = _
  cases run machine states s' rest <;> rfl

end Declared

/-! ### The inner loop -/

section Transitions

variable {ctx : Env} {vars : Option Vars}

theorem overlay_eq (ctx : Env) (vars : Option Vars) :
    overlay ctx vars = Declared.names ctx (vars.getD ∅) := by
  cases vars <;> rfl

theorem evalGuard_eq (ctx : Env) (vars : Option Vars) (guard : Option Expr) :
    evalGuard ctx vars guard = Declared.guardHolds ctx (vars.getD ∅) guard := by
  cases guard with
  | none => rfl
  | some e => rw [evalGuard, overlay_eq]; rfl

/-- Executing actions is the declared effect, read on the table of variables. -/
theorem execActions_eq (actions : List Action) (vars : Option Vars) :
    (execActions ctx actions vars).map (fun r => (r.1.getD ∅, r.2)) =
      Declared.perform ctx actions (vars.getD ∅) := by
  induction actions generalizing vars with
  | nil => rfl
  | cons action rest ih =>
      cases action with
      | set var value =>
          unfold execActions Declared.perform
          rw [overlay_eq]
          cases evalExpr (Declared.names ctx (vars.getD ∅)) value with
          | none => rfl
          | some val =>
              have hrest := ih (some ((vars.getD ∅).insert var val))
              simp only [Option.getD_some] at hrest
              change Option.map _ (Option.bind (execActions ctx rest _) _) =
                Option.bind (Declared.perform ctx rest _) _
              rw [← hrest]
              cases execActions ctx rest (some ((vars.getD ∅).insert var val)) <;> rfl
      | emit event =>
          unfold execActions Declared.perform
          rw [← ih vars]
          cases execActions ctx rest vars <;> rfl

/-- The loop over the transitions takes the chosen one. -/
theorem fireFirst_eq (machine current msgType : String) (transitions : List Transition) :
    (fireFirst machine current msgType ctx vars transitions).map
        (Option.map fun r => ((⟨r.1, r.2.1.getD ∅⟩ : Session), r.2.2)) = (do
      match ← Declared.chosen msgType ctx (vars.getD ∅) transitions with
      | none => some none
      | some tr => (Declared.take machine ctx ⟨current, vars.getD ∅⟩ tr).map some) := by
  induction transitions with
  | nil => rfl
  | cons tr rest ih =>
      unfold fireFirst Declared.chosen
      split
      · rw [evalGuard_eq]
        cases Declared.guardHolds ctx (vars.getD ∅) tr.guard with
        | none => rfl
        | some holds =>
            cases holds with
            | false => exact ih
            | true =>
                change Option.map _ (Option.bind (execActions ctx tr.actions vars) _) =
                  Option.map some (Declared.take machine ctx ⟨current, vars.getD ∅⟩ tr)
                rw [Declared.take, ← execActions_eq]
                cases execActions ctx tr.actions vars <;> rfl
      · exact ih

end Transitions

/-! ### The parsed machine -/

section Parsed

variable {blocks rest : List State} {first : State}

/-- Blocks with different names are collected in order. -/
theorem foldl_collectState (h : (blocks.map State.name).Nodup) :
    (blocks.foldl collectState ([], ∅)).1 = blocks.map State.name ∧
      (∀ name, name ∈ (blocks.foldl collectState ([], ∅)).2 → name ∈ blocks.map State.name) ∧
      ∀ block ∈ blocks,
        (blocks.foldl collectState ([], ∅)).2.lookup block.name = some block.transitions := by
  induction blocks using List.reverseRecOn with
  | nil => exact ⟨rfl, fun name hname => absurd hname (AList.notMem_empty name), by simp⟩
  | append_singleton blocks block ih =>
      rw [List.map_append, List.map_singleton] at h
      obtain ⟨hblocks, -, hdisjoint⟩ := List.nodup_append.mp h
      have hnew : block.name ∉ blocks.map State.name := fun hmem =>
        hdisjoint _ hmem _ (List.mem_singleton_self _) rfl
      obtain ⟨horder, hkeys, hlookup⟩ := ih hblocks
      rw [List.foldl_append, List.foldl_cons, List.foldl_nil, collectState,
        if_neg (mt (hkeys _) hnew), horder, List.map_append, List.map_singleton]
      refine ⟨rfl, fun name hname => ?_, fun b hb => ?_⟩
      · rw [AList.mem_insert] at hname
        exact List.mem_append.mpr (hname.symm.imp (hkeys name) List.mem_singleton.mpr)
      · obtain hb | hb := List.mem_append.mp hb
        · have hne : b.name ≠ block.name := fun heq => hnew (heq ▸ List.mem_map_of_mem hb)
          rw [AList.lookup_insert_ne hne]
          exact hlookup b hb
        · obtain rfl := List.mem_singleton.mp hb
          exact AList.lookup_insert _

/-- Blocks with different names are kept as they are. -/
theorem collectStates_of_nodup (h : (blocks.map State.name).Nodup) :
    collectStates blocks = blocks := by
  obtain ⟨horder, -, hlookup⟩ := foldl_collectState h
  change List.filterMap _ _ = _
  rw [horder, List.filterMap_map]
  refine (List.filterMap_congr fun block hblock => ?_).trans List.filterMap_some
  simp only [Function.comp_apply, hlookup block hblock, Option.map_some]

theorem foldl_initial {initial : String} (h : initial ≠ "IDLE") (blocks : List State) :
    blocks.foldl (fun initial block => if initial = "IDLE" then block.name else initial) initial =
      initial := by
  induction blocks with
  | nil => rfl
  | cons block rest ih => rw [List.foldl_cons, if_neg h, ih]

/-- The parser's choice of the first state. -/
theorem initialState_cons (h : first.name ≠ "IDLE" ∨ rest = []) :
    initialState (first :: rest) = first.name := by
  unfold initialState
  rw [List.foldl_cons, if_pos rfl]
  obtain h | rfl := h
  · exact foldl_initial h rest
  · rfl

/-- The table of states finds what is declared. -/
theorem lookup_stateTable (h : (blocks.map State.name).Nodup) (name : String) :
    ((blocks.foldl (fun map st => map.insert st.name st.transitions)
      (∅ : AList fun _ : String => List Transition)).lookup name).getD [] =
        Declared.transitionsOf blocks name := by
  suffices hfind : (blocks.foldl (fun map st => map.insert st.name st.transitions)
      (∅ : AList fun _ : String => List Transition)).lookup name =
        (blocks.find? fun st => st.name = name).map State.transitions by
    rw [hfind]
    rfl
  induction blocks using List.reverseRecOn with
  | nil => rfl
  | append_singleton blocks block ih =>
      rw [List.map_append, List.map_singleton] at h
      obtain ⟨hblocks, -, hdisjoint⟩ := List.nodup_append.mp h
      rw [List.foldl_append, List.foldl_cons, List.foldl_nil, List.find?_append]
      by_cases heq : block.name = name
      · have hnone : (blocks.find? fun st => st.name = name) = none := by
          rw [List.find?_eq_none]
          intro st hst hname
          exact hdisjoint _ (List.mem_map_of_mem hst) _ (List.mem_singleton_self _)
            ((of_decide_eq_true hname).trans heq.symm)
        subst heq
        rw [AList.lookup_insert, hnone]
        simp
      · rw [AList.lookup_insert_ne (Ne.symm heq), ih hblocks]
        simp [heq]

end Parsed

/-! ### The engine follows the declared meaning -/

/-- The table of states that the engine looks transitions up in. -/
def stateTable (blocks : List State) : AList fun _ : String => List Transition :=
  blocks.foldl (fun map st => map.insert st.name st.transitions) ∅

/-- The engine with the machine of the blocks holds the flow in a session state:
a flow it does not know yet is in the first state. -/
structure Tracks (name : String) (first : State) (rest : List State) (κ : FlowKey)
    (engine : FsmEngine) (s : Session) : Prop where
  machines : engine.machines.entries = [⟨name, stateTable (first :: rest)⟩]
  initials : engine.initials.lookup name = some first.name
  state : engine.currentStates.lookup κ = some s.state ∨
    engine.currentStates.lookup κ = none ∧ s.state = first.name
  vars : (engine.variables_.lookup κ).getD ∅ = s.vars

/-- The flow is not stored in a state called `"IDLE"`, unless the machine begins
there. -/
def AwayFromIdle (first : State) (κ : FlowKey) (engine : FsmEngine) : Prop :=
  engine.currentStates.lookup κ = some "IDLE" → first.name = "IDLE"

section Simulation

variable {name msgType : String} {ctx : Env} {first : State} {rest : List State} {κ : FlowKey}
  {engine : FsmEngine} {s : Session}

theorem Declared.step_eq (machine : String) (states : List State) (s : Session) :
    Declared.step machine states s msgType ctx = (do
      match ← Declared.chosen msgType ctx s.vars (Declared.transitionsOf states s.state) with
      | none => some none
      | some tr => (Declared.take machine ctx s tr).map some).map (Option.getD · (s, [])) := by
  unfold Declared.step
  rcases Declared.chosen msgType ctx s.vars (Declared.transitionsOf states s.state) with
    _ | _ | tr
  · rfl
  · rfl
  · change Declared.take machine ctx s tr = Option.map _ (Option.map some _)
    cases Declared.take machine ctx s tr <;> rfl

/-- One machine's turn is a step of the declared meaning. -/
theorem feedMachine_step (hnodup : ((first :: rest).map State.name).Nodup)
    {initials : AList fun _ : String => String} {fs : FeedState} {vars : Option Vars}
    (hseed : fs.seed initials name = ⟨s.state, s.state, vars, []⟩) (hvars : vars.getD ∅ = s.vars) :
    (feedMachine initials msgType ctx fs ⟨name, stateTable (first :: rest)⟩).map
        (fun fs => ((⟨fs.newState, fs.vars.getD ∅⟩ : Session), fs.events)) =
      Declared.step name (first :: rest) s msgType ctx := by
  obtain ⟨state, svars⟩ := s
  dsimp only at hseed hvars
  subst hvars
  rw [Declared.step_eq, ← lookup_stateTable hnodup, ← fireFirst_eq]
  unfold feedMachine
  rw [hseed]
  change _ = Option.map _ (Option.map _
    (fireFirst name state msgType ctx vars (((stateTable (first :: rest)).lookup state).getD [])))
  simp only
  cases (stateTable (first :: rest)).lookup state with
  | none => rfl
  | some transitions =>
      simp only [Option.getD_some]
      rcases fireFirst name state msgType ctx vars transitions with _ | _ | ⟨toState, vars', ev⟩
      · rfl
      · rfl
      · simp

theorem Tracks.getCurrentState_seed (h : Tracks name first rest κ engine s)
    (hidle : AwayFromIdle first κ engine) (vars : Option Vars) :
    FeedState.seed engine.initials name
        ⟨engine.getCurrentState κ, engine.getCurrentState κ, vars, []⟩ =
      ⟨s.state, s.state, vars, []⟩ := by
  unfold FeedState.seed FsmEngine.getCurrentState
  obtain hstate | ⟨hnone, hfirst⟩ := h.state
  · simp only [hstate, Option.getD_some, h.initials]
    split
    · rename_i hname
      rw [hname, hidle (hname ▸ hstate)]
    · rfl
  · simp [hnone, h.initials, hfirst]

/-- A message for the flow is a step of the declared meaning. -/
theorem Tracks.feed (hnodup : ((first :: rest).map State.name).Nodup)
    (h : Tracks name first rest κ engine s) (hidle : AwayFromIdle first κ engine)
    (hkept : (engine.db.getOrCreate κ).2 ≠ some κ) :
    (engine.feed κ msgType ctx).map
        (fun r => ((⟨r.2.1, (r.1.variables_.lookup κ).getD ∅⟩ : Session), r.2.2)) =
      Declared.step name (first :: rest) s msgType ctx := by
  obtain ⟨hstates, hvariables⟩ := FsmEngine.touch_lookup hkept
  have hseed : FeedState.seed (engine.touch κ).initials name
      ⟨(engine.touch κ).getCurrentState κ, (engine.touch κ).getCurrentState κ,
        (engine.touch κ).variables_.lookup κ, []⟩ =
      ⟨s.state, s.state, engine.variables_.lookup κ, []⟩ := by
    have hcurrent : (engine.touch κ).getCurrentState κ = engine.getCurrentState κ := by
      unfold FsmEngine.getCurrentState
      rw [hstates]
    rw [FsmEngine.touch_initials, hcurrent, hvariables]
    exact h.getCurrentState_seed hidle _
  have hrun : (engine.touch κ).runMachines msgType ctx ((engine.touch κ).getCurrentState κ)
        ((engine.touch κ).variables_.lookup κ) =
      feedMachine (engine.touch κ).initials msgType ctx
        ⟨(engine.touch κ).getCurrentState κ, (engine.touch κ).getCurrentState κ,
          (engine.touch κ).variables_.lookup κ, []⟩ ⟨name, stateTable (first :: rest)⟩ := by
    unfold FsmEngine.runMachines
    rw [FsmEngine.touch_machines, h.machines, List.foldlM_cons]
    exact Option.bind_fun_some _
  rw [← feedMachine_step hnodup hseed h.vars, ← hrun]
  cases hfs : (engine.touch κ).runMachines msgType ctx ((engine.touch κ).getCurrentState κ)
      ((engine.touch κ).variables_.lookup κ) with
  | none =>
      have hnone : engine.feed κ msgType ctx = none := by
        unfold FsmEngine.feed
        simp only [hfs, Option.bind_eq_bind, Option.bind_none]
      rw [hnone]
      rfl
  | some fs =>
      rw [FsmEngine.feed_eq_some_iff.mpr ⟨fs, hfs, rfl⟩]
      simp only [Option.map_some, FsmEngine.settle_variables hfs]

/-- After a message for the flow the engine holds it in the next session state. -/
theorem Tracks.after (h : Tracks name first rest κ engine s)
    {r : FsmEngine × String × List FsmEvent} (hfeed : engine.feed κ msgType ctx = some r) :
    Tracks name first rest κ r.1 ⟨r.2.1, (r.1.variables_.lookup κ).getD ∅⟩ := by
  obtain ⟨hmachines, hinitials⟩ := FsmEngine.feed_machines hfeed
  obtain ⟨fs, -, rfl⟩ := FsmEngine.feed_eq_some_iff.mp hfeed
  exact ⟨hmachines ▸ h.machines, hinitials ▸ h.initials, .inl FsmEngine.settle_currentStates, rfl⟩

/-- A message for another flow changes nothing for this one. -/
theorem Tracks.other (h : Tracks name first rest κ engine s) {key : FlowKey}
    {r : FsmEngine × String × List FsmEvent} (hfeed : engine.feed key msgType ctx = some r)
    (hne : κ ≠ key) (hkept : (engine.db.getOrCreate key).2 ≠ some κ) :
    Tracks name first rest κ r.1 s := by
  obtain ⟨hmachines, hinitials⟩ := FsmEngine.feed_machines hfeed
  obtain ⟨hstate, hvars⟩ := FsmEngine.feed_other hfeed hne hkept
  exact ⟨hmachines ▸ h.machines, hinitials ▸ h.initials, by rw [hstate]; exact h.state,
    by rw [hvars]; exact h.vars⟩

end Simulation

/-! ### Runs -/

/-- The engine after a message, if the step has a result. -/
def engineStep (engine : Option FsmEngine) (i : FeedInput) : Option FsmEngine :=
  engine.bind fun engine => (engine.feed i.key i.msgType i.ctx).map Prod.fst

/-- The messages of a flow. -/
def messagesOf (κ : FlowKey) (inputs : List FeedInput) : List (String × Env) :=
  (inputs.filter fun i => i.key = κ).map fun i => (i.msgType, i.ctx)

/-- The reports of a flow. -/
def reportsOf (κ : FlowKey) (reports : List (FlowKey × FlowReport)) : List FlowReport :=
  (reports.filter fun r => r.1 = κ).map Prod.snd

/-- No message makes the flow's session go. -/
def NeverEvicted (κ : FlowKey) (engine : FsmEngine) (inputs : List FeedInput) : Prop :=
  Inputs.Along engineStep (fun before i => ∀ engine, before = some engine →
    (engine.db.getOrCreate i.key).2 ≠ some κ) (some engine) inputs

/-- No message for the flow finds it in a state called `"IDLE"`, unless the
machine begins there. -/
def NeverBackInIdle (first : State) (κ : FlowKey) (engine : FsmEngine) (inputs : List FeedInput) :
    Prop :=
  Inputs.Along engineStep (fun before i => ∀ engine, before = some engine → i.key = κ →
    AwayFromIdle first κ engine) (some engine) inputs

section Runs

variable {name : String} {first : State} {rest : List State} {κ : FlowKey} {engine : FsmEngine}
  {s : Session}

theorem Tracks.run (hnodup : ((first :: rest).map State.name).Nodup) (inputs : List FeedInput)
    (h : Tracks name first rest κ engine s) (hkept : NeverEvicted κ engine inputs)
    (hidle : NeverBackInIdle first κ engine inputs) :
    (∀ reports, engine.feedAll inputs = some reports →
      Declared.run name (first :: rest) s (messagesOf κ inputs) = some (reportsOf κ reports)) ∧
    ((∀ i ∈ inputs, i.key = κ) → engine.feedAll inputs = none →
      Declared.run name (first :: rest) s (messagesOf κ inputs) = none) := by
  induction inputs generalizing engine s with
  | nil =>
      refine ⟨fun reports hreports => ?_, fun _ hnone => absurd hnone nofun⟩
      obtain rfl := Option.some.inj hreports
      rfl
  | cons i inputs ih =>
      obtain ⟨hkept, hkept'⟩ := hkept
      obtain ⟨hidle, hidle'⟩ := hidle
      by_cases hkey : i.key = κ
      · subst hkey
        have hmessages : messagesOf i.key (i :: inputs) =
            (i.msgType, i.ctx) :: messagesOf i.key inputs := by simp [messagesOf]
        have hstep := @Tracks.feed name i.msgType i.ctx _ _ _ _ _ hnodup h (hidle engine rfl rfl)
          (hkept engine rfl)
        rw [hmessages]
        cases hfeed : engine.feed i.key i.msgType i.ctx with
        | none =>
            rw [hfeed] at hstep
            rw [FsmEngine.feedAll_cons_none hfeed, Declared.run_cons_none hstep.symm]
            exact ⟨fun _ h => absurd h nofun, fun _ _ => rfl⟩
        | some r =>
            rw [hfeed] at hstep
            have hnext : engineStep (some engine) i = some r.1 := by simp [engineStep, hfeed]
            rw [hnext] at hkept' hidle'
            obtain ⟨hsome, hnone⟩ := ih (h.after hfeed) hkept' hidle'
            rw [FsmEngine.feedAll_cons_some hfeed, Declared.run_cons_some hstep.symm]
            constructor
            · intro reports hreports
              obtain ⟨tail, htail, rfl⟩ := Option.map_eq_some_iff.mp hreports
              rw [hsome tail htail]
              simp [reportsOf, FsmEngine.report]
            · intro hall htail
              rw [hnone (fun j hj => hall j (List.mem_cons_of_mem _ hj))
                (Option.map_eq_none_iff.mp htail)]
              rfl
      · have hmessages : messagesOf κ (i :: inputs) = messagesOf κ inputs := by
          simp [messagesOf, hkey]
        rw [hmessages]
        refine ⟨fun reports hreports => ?_,
          fun hall _ => absurd (hall i (List.mem_cons_self ..)) hkey⟩
        cases hfeed : engine.feed i.key i.msgType i.ctx with
        | none => rw [FsmEngine.feedAll_cons_none hfeed] at hreports; cases hreports
        | some r =>
            have hnext : engineStep (some engine) i = some r.1 := by
              simp [engineStep, hfeed]
            rw [hnext] at hkept' hidle'
            rw [FsmEngine.feedAll_cons_some hfeed] at hreports
            obtain ⟨tail, htail, rfl⟩ := Option.map_eq_some_iff.mp hreports
            rw [(ih (h.other hfeed (Ne.symm hkey) (hkept engine rfl)) hkept' hidle').1 tail htail]
            simp [reportsOf, hkey]

end Runs

/-- The engine with these machines loaded. -/
def FsmEngine.loaded (maxSessions : Nat) (sms : List StateMachine) : FsmEngine :=
  (FsmEngine.new maxSessions).loadFromAst sms

theorem tracks_loaded (name : String) (key : Option Expr) (first : State) (rest : List State)
    (hnodup : ((first :: rest).map State.name).Nodup) (hfirst : first.name ≠ "IDLE" ∨ rest = [])
    (maxSessions : Nat) (κ : FlowKey) :
    Tracks name first rest κ
      (.loaded maxSessions [.ofBlocks name key (first :: rest)]) ⟨first.name, ∅⟩ where
  machines := by
    change [Sigma.mk name _] = _
    rw [StateMachine.ofBlocks, collectStates_of_nodup hnodup]
    rfl
  initials := by
    change (AList.insert name _ ∅).lookup name = _
    rw [AList.lookup_insert, StateMachine.ofBlocks, initialState_cons hfirst]
  state := .inr ⟨rfl, rfl⟩
  vars := rfl

/-- On a flow whose session stays, the reported states, variables and events of a
parsed machine are those of its declared meaning, if the machine does not begin
in a state called `"IDLE"` before others and no message finds the flow back in
such a state. An overflow is one of both. -/
theorem engine_runs_as_declared (name : String) (key : Option Expr) (first : State)
    (rest : List State) (hnodup : ((first :: rest).map State.name).Nodup) (maxSessions : Nat)
    (κ : FlowKey) (inputs : List FeedInput) (hfirst : first.name ≠ "IDLE" ∨ rest = [])
    (hkept : NeverEvicted κ (.loaded maxSessions [.ofBlocks name key (first :: rest)]) inputs)
    (hidle : NeverBackInIdle first κ
      (.loaded maxSessions [.ofBlocks name key (first :: rest)]) inputs) :
    (∀ reports, (FsmEngine.loaded maxSessions
        [.ofBlocks name key (first :: rest)]).feedAll inputs = some reports →
      Declared.run name (first :: rest) ⟨first.name, ∅⟩ (messagesOf κ inputs) =
        some (reportsOf κ reports)) ∧
    ((∀ i ∈ inputs, i.key = κ) → (FsmEngine.loaded maxSessions
        [.ofBlocks name key (first :: rest)]).feedAll inputs = none →
      Declared.run name (first :: rest) ⟨first.name, ∅⟩ (messagesOf κ inputs) = none) :=
  (tracks_loaded name key first rest hnodup hfirst maxSessions κ).run hnodup inputs hkept hidle

/-- A connection that is opened and closed. -/
def connection : List State :=
  [⟨"CLOSED", [⟨none, "Open", none, "OPEN", [.set "n" (.int 1)]⟩]⟩,
    ⟨"OPEN", [⟨none, "Close", none, "CLOSED", [.emit "Closed"]⟩]⟩]

theorem engine_runs_as_declared_connection :
    let engine := FsmEngine.loaded 4 [.ofBlocks "C" none connection]
    let inputs : List FeedInput := [⟨.pack [1], "Open", fun _ => none⟩,
      ⟨.pack [1], "Close", fun _ => none⟩]
    ∀ reports, engine.feedAll inputs = some reports →
      Declared.run "C" connection ⟨"CLOSED", ∅⟩ (messagesOf (.pack [1]) inputs) =
        some (reportsOf (.pack [1]) reports) := by
  have kept (o : Option FsmEngine) (k κ : FlowKey)
      (h : (o.bind fun e => (e.db.getOrCreate k).2) ≠ some κ) :
      ∀ engine, o = some engine → (engine.db.getOrCreate k).2 ≠ some κ := by
    rintro engine rfl
    exact h
  have away (o : Option FsmEngine) (κ : FlowKey)
      (h : (o.bind fun e => e.currentStates.lookup κ) ≠ some "IDLE") (p q : Prop) :
      ∀ engine, o = some engine → p → engine.currentStates.lookup κ = some "IDLE" → q := by
    rintro engine rfl _ hidle
    exact absurd hidle h
  refine (engine_runs_as_declared "C" none _ _ (by decide) 4 (.pack [1]) _ (.inl (by decide))
    ?_ ?_).1
  · exact ⟨kept _ _ _ (by decide), kept _ _ _ (by decide), trivial⟩
  · exact ⟨away _ _ (by decide) _ _, away _ _ (by decide) _ _, trivial⟩

/-- A machine that begins in a state called `"IDLE"`. -/
def idleFirst : List State :=
  [⟨"IDLE", [⟨none, "Start", none, "BUSY", []⟩]⟩, ⟨"BUSY", [⟨none, "Stop", none, "IDLE", []⟩]⟩]

/-- The first message starts the machine, but the engine is already in the second
state and ignores it. -/
theorem idleFirst_not_as_declared :
    let inputs : List FeedInput := [⟨.pack [1], "Stop", fun _ => none⟩]
    ((FsmEngine.loaded 4 [.ofBlocks "M" none idleFirst]).feedAll inputs).map
        (·.map fun r => (r.2.state, r.2.events)) =
      some [("IDLE", [.fsmTransition 0 0 "M"])] ∧
    (Declared.run "M" idleFirst ⟨"IDLE", ∅⟩ (messagesOf (.pack [1]) inputs)).map
        (·.map fun r => (r.state, r.events)) = some [("IDLE", [])] :=
  ⟨rfl, rfl⟩

end NFdl
