import NFdl.Runtime.Needed
import NFdl.Runtime.Efsm
import NFdl.Bytecode.Modes

/-!
# The two entry points

`parseStreamStart` runs the root message in stream mode, `parseAndRunWithData` in
datagram mode. On complete input both runs end in the same machine. The datagram
entry point then bounds the context and dispatches the binds, which the
streaming one does not. The parser is a parameter, and so is the order in which
each call iterates its hash map of state machines.
-/

namespace NFdl

open BytecodeVm

/-- A protocol as it is parsed, with its state machines. -/
structure ParsedProtocol where
  protocol : Protocol
  stateMachines : List StateMachine

/-- The transitions of all machines, in the order in which they are iterated. -/
abbrev MachineTable := AList fun _ : String => AList fun _ : String => List Transition

inductive RuntimeError where
  | parse (message : String)
  | constraint (message : String)
  | limitExceeded (message : String)
deriving DecidableEq, Repr

def RuntimeError.ofBytecode : BytecodeError → RuntimeError
  | .constraint message => .constraint message
  | .limitExceeded message => .limitExceeded message

inductive RunEvent where
  | message (event : Event)
  | fsm (event : FsmEvent)
deriving DecidableEq, Repr

structure CompleteParse where
  proto : ParsedProtocol
  ctx : Ctx
  finalState : String
  events : List RunEvent

structure StreamContinuation where
  vmCont : VmContinuation
  program : BytecodeProgram
  fieldMap : SlotMap
  proto : ParsedProtocol
  limits : Limits
  rootMsg : String

inductive StreamParseStep where
  | done (parse : CompleteParse)
  | needMoreBytes (needed : Nat) (continuation : StreamContinuation)

/-- Feed the root message to the state machines of a fresh engine and merge the
variables of the flow into the context. -/
def feedRoot (proto : ParsedProtocol) (order : MachineTable) (ctx : Ctx) :
    Except Panic (Ctx × String × List FsmEvent) :=
  let engine := { (FsmEngine.new 1000).loadFromAst proto.stateMachines with machines := order }
  let env : Env := fun name => ctx.lookup name
  match computeFlowKey (proto.stateMachines.head?.bind (·.key)) env with
  | none => .error .arithmetic
  | some key =>
    match engine.feed key (rootMessageName proto.protocol) env with
    | none => .error .arithmetic
    | some (engine, finalState, events) =>
      let vars := (engine.variables_.lookup key).getD ∅
      .ok (vars.entries.foldl (fun ctx e => ctx.insert e.1 e.2) ctx, finalState, events)

/-- The result of a stream run that is complete. -/
def finalize (proto : ParsedProtocol) (order : MachineTable) (fieldMap : SlotMap)
    (vm : BytecodeVm) : Except Panic CompleteParse := do
  let (ctx, finalState, events) ← feedRoot proto order (touchedContext vm fieldMap)
  pure ⟨proto, ctx, finalState,
    .message ⟨rootMessageName proto.protocol, vm.input.length⟩ :: events.map .fsm⟩

/-- `parse_stream_start_with_limits`. -/
def parseStreamStart (parse : String → Except String ParsedProtocol)
    (order : ParsedProtocol → MachineTable) (src : String) (data : List UInt8) (limits : Limits) :
    Except Panic (Except RuntimeError StreamParseStep) :=
  match parse src with
  | .error e => .ok (.error (.parse e))
  | .ok proto =>
    match protocolToBytecodeWithMap proto.protocol with
    | none => .error .slotCounter
    | some (program, fieldMap) =>
      match runStream program ((withLimits program.slotCount limits).loadInput data) with
      | (_, .panicked) => .error .machine
      | (_, .returned (.error e)) => .ok (.error (.ofBytecode e))
      | (vm, .returned (.ok .complete)) => do
        let result ← finalize proto (order proto) fieldMap vm
        pure (.ok (.done result))
      | (_, .returned (.ok (.needMoreBytes cont))) =>
        .ok (.ok (.needMoreBytes cont.bytesNeeded
          ⟨cont, program, fieldMap, proto, limits, rootMessageName proto.protocol⟩))

/-- What the datagram entry point does after the run of the root message: bound
the context, step the state machines and dispatch the binds. -/
def finishDatagram (proto : ParsedProtocol) (order : MachineTable) (data : List UInt8)
    (limits : Limits) (vm : BytecodeVm) (ctx : Ctx) :
    Except Panic (Except RuntimeError CompleteParse) :=
  if 1024 < ctx.entries.length then
    .ok (.error (.limitExceeded
      ("context too large: " ++ toString ctx.entries.length ++ " entries")))
  else do
    let (ctx, finalState, events) ← feedRoot proto order ctx
    let rootMsg := rootMessageName proto.protocol
    let (ctx, layerEvents) ← dispatchBinds proto.protocol rootMsg vm data limits (ctx, [])
    pure (.ok ⟨proto, ctx, finalState,
      .message ⟨rootMsg, data.length⟩ :: (events.map .fsm ++ layerEvents.map .message)⟩)

/-- `parse_and_run_with_data_and_limits`. -/
def parseAndRunWithData (parse : String → Except String ParsedProtocol)
    (order : ParsedProtocol → MachineTable) (src : String) (data : List UInt8) (limits : Limits) :
    Except Panic (Except RuntimeError CompleteParse) :=
  match parse src with
  | .error e => .ok (.error (.parse e))
  | .ok proto =>
    match compileAndRun (rootProtocol proto.protocol) data limits with
    | .error p => .error p
    | .ok (.error e) => .ok (.error (.ofBytecode e))
    | .ok (.ok (vm, fieldMap)) =>
      finishDatagram proto (order proto) data limits vm (touchedContext vm fieldMap)

/-! ### What a dispatch adds -/

/-- A bind that adds nothing: it is of another message, its condition is false,
its layer is declared elsewhere, its payload was not recorded, or the payload
does not parse as the layer. -/
def BindIdle (proto : Protocol) (vm : BytecodeVm) (data : List UInt8) (limits : Limits)
    (ctx : Ctx) (b : Bind) : Prop :=
  b.source ≠ rootMessageName proto ∨ evalExpr (fun name => ctx.lookup name) b.when_ = some 0 ∨
    (evalExpr (fun name => ctx.lookup name) b.when_).isSome ∧
      (proto.message b.layer = none ∨ payloadStart vm b.field = none ∨
        ∃ start e, payloadStart vm b.field = some start ∧ start ≤ data.length ∧
          runLayer proto b.layer (data.drop start) limits = .ok (.error e))

section Dispatch

variable {proto : Protocol} {vm : BytecodeVm} {data : List UInt8} {limits : Limits}

theorem any_layer_iff (proto : Protocol) (layer : String) :
    proto.messages.any (·.name == layer) = (proto.message layer).isSome := by
  unfold Protocol.message
  rw [Bool.eq_iff_iff, List.find?_isSome, List.any_eq_true]

/-- A layer of the protocol that parses reports its message. -/
theorem runLayer_events {layer : String} (hlayer : (proto.message layer).isSome)
    {payload : List UInt8} {ctx : Ctx} {events : List Event}
    (h : runLayer proto layer payload limits = .ok (.ok (ctx, events))) :
    events = [⟨layer, payload.length⟩] := by
  obtain ⟨m, hm⟩ := Option.isSome_iff_exists.mp hlayer
  have hname := Protocol.message_name hm
  rw [← hname] at hm
  obtain ⟨visited, hneeded⟩ := collectNeededMessages_collects hm
  rw [hname] at hneeded
  have hne : (collectNeededMessages proto layer).isEmpty = false := by
    have hhead := hneeded.head
    cases hlist : collectNeededMessages proto layer with
    | nil => simp [hlist] at hhead
    | cons m rest => rfl
  unfold runLayer at h
  dsimp only at h
  rw [hne] at h
  simp only [Bool.false_eq_true, if_false] at h
  split at h
  · cases h
  · cases h
  · cases h
    rfl

/-- One bind adds nothing, or reports a layer. -/
theorem dispatchBind_cases {acc acc' : Ctx × List Event} {b : Bind}
    (h : dispatchBind proto (rootMessageName proto) vm data limits acc b = .ok acc') :
    (BindIdle proto vm data limits acc.1 b ∧ acc' = acc) ∨
      ∃ size, acc'.2 = acc.2 ++ [⟨b.layer, size⟩] := by
  unfold dispatchBind at h
  split at h
  · rename_i hsource
    exact .inl ⟨.inl hsource, (Except.ok.inj h).symm⟩
  · split at h
    · cases h
    · rename_i w hw
      have hsome : (evalExpr (fun name => acc.1.lookup name) b.when_).isSome := by rw [hw]; rfl
      split at h
      · rename_i hzero
        exact .inl ⟨.inr (.inl (by rw [hw, hzero])), (Except.ok.inj h).symm⟩
      · rw [any_layer_iff] at h
        cases hlayer : proto.message b.layer with
        | none =>
            rw [hlayer] at h
            exact .inl ⟨.inr (.inr ⟨hsome, .inl hlayer⟩), (Except.ok.inj h).symm⟩
        | some m =>
            rw [hlayer] at h
            simp only [Option.isSome_some, Bool.not_true, Bool.false_eq_true, if_false] at h
            cases hstart : payloadStart vm b.field with
            | none =>
                rw [hstart] at h
                exact .inl ⟨.inr (.inr ⟨hsome, .inr (.inl hstart)⟩), (Except.ok.inj h).symm⟩
            | some start =>
                rw [hstart] at h
                simp only [sliceFrom] at h
                split at h
                · rename_i hle
                  change (runLayer proto b.layer (data.drop start) limits >>= _) = _ at h
                  cases hrun : runLayer proto b.layer (data.drop start) limits with
                  | error p =>
                      rw [hrun] at h
                      cases h
                  | ok result =>
                      rw [hrun] at h
                      cases result with
                      | error e =>
                          exact .inl ⟨.inr (.inr ⟨hsome, .inr (.inr ⟨start, e, hstart, hle, hrun⟩)⟩),
                            (Except.ok.inj h).symm⟩
                      | ok layer =>
                          obtain ⟨layerCtx, events⟩ := layer
                          have hevents := runLayer_events (by rw [hlayer]; rfl) hrun
                          obtain rfl := Except.ok.inj h
                          exact .inr ⟨(data.drop start).length, by rw [hevents]⟩
                · cases h

theorem dispatchBind_idle {acc : Ctx × List Event} {b : Bind}
    (h : BindIdle proto vm data limits acc.1 b) :
    dispatchBind proto (rootMessageName proto) vm data limits acc b = .ok acc := by
  unfold dispatchBind
  by_cases hsource : b.source ≠ rootMessageName proto
  · rw [if_pos hsource]
  · rw [if_neg hsource]
    obtain hother | hzero | ⟨hsome, hlayer⟩ := h
    · exact absurd hother hsource
    · rw [hzero]
      rfl
    · obtain ⟨w, hw⟩ := Option.isSome_iff_exists.mp hsome
      rw [hw]
      dsimp only
      split
      · rfl
      · rw [any_layer_iff]
        obtain hnone | hstart | ⟨start, e, hstart, hle, hrun⟩ := hlayer
        · rw [hnone]
          rfl
        · rw [hstart]
          split <;> rfl
        · rw [hstart]
          split
          · rfl
          · simp only [sliceFrom, if_pos hle]
            change (runLayer proto b.layer (data.drop start) limits >>= _) = _
            rw [hrun]
            rfl

/-- A dispatch reports no layer exactly when every bind adds nothing. -/
theorem dispatchBinds_idle_iff {ctx ctx' : Ctx} :
    dispatchBinds proto (rootMessageName proto) vm data limits (ctx, []) = .ok (ctx', []) ↔
      ctx' = ctx ∧ ∀ b ∈ proto.binds, BindIdle proto vm data limits ctx b := by
  unfold dispatchBinds
  generalize proto.binds = binds
  -- A reported layer stays in the list of events.
  have hgrow : ∀ (binds : List Bind) (acc acc' : Ctx × List Event),
      binds.foldlM (dispatchBind proto (rootMessageName proto) vm data limits) acc = .ok acc' →
      acc'.2 = [] → acc.2 = [] := by
    intro binds
    induction binds with
    | nil =>
        intro acc acc' h hnil
        obtain rfl := Except.ok.inj h
        exact hnil
    | cons b binds ih =>
        intro acc acc' h hnil
        rw [List.foldlM_cons] at h
        cases hb : dispatchBind proto (rootMessageName proto) vm data limits acc b with
        | error p =>
            rw [hb] at h
            cases h
        | ok mid =>
            rw [hb] at h
            have hmid := ih mid acc' h hnil
            obtain ⟨-, rfl⟩ | ⟨size, hsize⟩ := dispatchBind_cases hb
            · exact hmid
            · rw [hmid] at hsize
              simp at hsize
  induction binds with
  | nil =>
      refine ⟨fun h => ⟨?_, fun b hb => nomatch hb⟩, fun h => ?_⟩
      · exact (congrArg Prod.fst (Except.ok.inj h)).symm
      · rw [h.1]
        rfl
  | cons b binds ih =>
      rw [List.foldlM_cons]
      refine ⟨fun h => ?_, fun h => ?_⟩
      · cases hb : dispatchBind proto (rootMessageName proto) vm data limits (ctx, []) b with
        | error p =>
            rw [hb] at h
            cases h
        | ok mid =>
            rw [hb] at h
            obtain ⟨hidle, rfl⟩ | ⟨size, hsize⟩ := dispatchBind_cases hb
            · obtain ⟨hctx, hrest⟩ := ih.mp h
              exact ⟨hctx, List.forall_mem_cons.mpr ⟨hidle, hrest⟩⟩
            · have hmid := hgrow binds mid (ctx', []) h rfl
              rw [hmid] at hsize
              simp at hsize
      · obtain ⟨hidle, hrest⟩ := List.forall_mem_cons.mp h.2
        rw [dispatchBind_idle hidle]
        exact ih.mpr ⟨h.1, hrest⟩

end Dispatch

/-! ### Agreement -/

/-- Contexts are compared as maps. -/
def SameContext (ctx ctx' : Ctx) : Prop := ∀ name, ctx'.lookup name = ctx.lookup name

/-- The same protocol, context, final state and events. -/
structure SameParse (c c' : CompleteParse) : Prop where
  proto : c'.proto = c.proto
  ctx : SameContext c.ctx c'.ctx
  finalState : c'.finalState = c.finalState
  events : c'.events = c.events

/-- What the datagram entry point adds to the run of the root message changes
nothing: the context is small enough, its own iteration order of the machines
gives the same step, and no bind is dispatched. -/
structure PlainRun (order order' : MachineTable) (proto : ParsedProtocol) (data : List UInt8)
    (limits : Limits) (vm : BytecodeVm) (ctx : Ctx) : Prop where
  fits : ctx.entries.length ≤ 1024
  fed : ∃ r r', feedRoot proto order ctx = .ok r ∧ feedRoot proto order' ctx = .ok r' ∧
    SameContext r.1 r'.1 ∧ r'.2 = r.2 ∧
      ∀ b ∈ proto.protocol.binds, BindIdle proto.protocol vm data limits r'.1 b

/-- The run of the root message of a source, if it is complete, is plain. -/
def Plain (parse : String → Except String ParsedProtocol) (order order' : ParsedProtocol → MachineTable)
    (src : String) (data : List UInt8) (limits : Limits) : Prop :=
  ∃ proto vm fieldMap, parse src = .ok proto ∧
    compileAndRun proto.protocol data limits = .ok (.ok (vm, fieldMap)) ∧
    PlainRun (order proto) (order' proto) proto data limits vm (touchedContext vm fieldMap)

section Agreement

variable {parse : String → Except String ParsedProtocol} {order order' : ParsedProtocol → MachineTable}
variable {src : String} {data : List UInt8} {limits : Limits}

theorem compileAndRun_root (proto : Protocol) :
    compileAndRun (rootProtocol proto) data limits = compileAndRun proto data limits := by
  unfold compileAndRun
  rw [compile_rootProtocol]

theorem compileAndRun_of_complete {proto : Protocol} {program : BytecodeProgram}
    {fieldMap : SlotMap} (hcompile : protocolToBytecodeWithMap proto = some (program, fieldMap))
    {vm : BytecodeVm}
    (hrun : runStream program ((withLimits program.slotCount limits).loadInput data) =
      (vm, .returned (.ok .complete))) :
    compileAndRun proto data limits = .ok (.ok (vm, fieldMap)) := by
  unfold compileAndRun
  rw [hcompile]
  dsimp only
  rw [runDatagram_of_stream hrun id]

theorem compileAndRun_of_error {proto : Protocol} {program : BytecodeProgram}
    {fieldMap : SlotMap} (hcompile : protocolToBytecodeWithMap proto = some (program, fieldMap))
    {vm : BytecodeVm} {e : BytecodeError}
    (hrun : runStream program ((withLimits program.slotCount limits).loadInput data) =
      (vm, .returned (.error e))) :
    compileAndRun proto data limits = .ok (.error e) := by
  unfold compileAndRun
  rw [hcompile]
  dsimp only
  rw [runDatagram_of_stream hrun id]

/-- Where the streaming entry point is done, the datagram one has the same
machine. -/
theorem parseStreamStart_done {c : CompleteParse}
    (h : parseStreamStart parse order src data limits = .ok (.ok (.done c))) :
    ∃ proto vm fieldMap, parse src = .ok proto ∧
      compileAndRun proto.protocol data limits = .ok (.ok (vm, fieldMap)) ∧
      vm.input = data ∧ finalize proto (order proto) fieldMap vm = .ok c := by
  unfold parseStreamStart at h
  split at h
  · cases h
  · rename_i proto hparse
    split at h
    · cases h
    · rename_i program fieldMap hcompile
      split at h
      · cases h
      · cases h
      · rename_i vm hrun
        have hinput : vm.input = data := halts_input (interpret_eq_iff.mp hrun)
        cases hfinal : finalize proto (order proto) fieldMap vm with
        | error p =>
            rw [hfinal] at h
            cases h
        | ok result =>
            rw [hfinal] at h
            cases h
            exact ⟨proto, vm, fieldMap, hparse, compileAndRun_of_complete hcompile hrun, hinput,
              hfinal⟩
      · cases h

/-- An error of the streaming entry point is one of the datagram entry point. -/
theorem parseStreamStart_error {e : RuntimeError}
    (h : parseStreamStart parse order src data limits = .ok (.error e)) :
    parseAndRunWithData parse order' src data limits = .ok (.error e) := by
  unfold parseStreamStart at h
  unfold parseAndRunWithData
  split at h
  · cases h
    rfl
  · rename_i proto hparse
    rw [compileAndRun_root]
    split at h
    · cases h
    · rename_i program fieldMap hcompile
      split at h
      · cases h
      · rename_i vm error hrun
        rw [compileAndRun_of_error hcompile hrun]
        cases h
        rfl
      · rename_i vm hrun
        cases hfinal : finalize proto (order proto) fieldMap vm with
        | error p =>
            rw [hfinal] at h
            cases h
        | ok result =>
            rw [hfinal] at h
            cases h
      · cases h

/-- Only layers that are dispatched add messages to the events of a step. -/
theorem layers_nil {events events' : List FsmEvent} {layers : List Event}
    (h : events'.map RunEvent.fsm ++ layers.map .message = events.map .fsm) :
    layers = [] ∧ events' = events := by
  induction events' generalizing events with
  | nil =>
      cases layers with
      | nil =>
          cases events with
          | nil => exact ⟨rfl, rfl⟩
          | cons e events => simp at h
      | cons l layers =>
          cases events with
          | nil => simp at h
          | cons e events => simp at h
  | cons e' events' ih =>
      cases events with
      | nil => simp at h
      | cons e events =>
          simp only [List.map_cons, List.cons_append, List.cons.injEq, RunEvent.fsm.injEq] at h
          obtain ⟨hlayers, hevents⟩ := ih h.2
          exact ⟨hlayers, by rw [h.1, hevents]⟩

/-- A datagram that gives what the streaming entry point gave had nothing added. -/
theorem plainRun_of_finish {proto : ParsedProtocol} {order order' : MachineTable}
    {vm : BytecodeVm} {ctx : Ctx} {r : Ctx × String × List FsmEvent} {c' : CompleteParse}
    (hfed : feedRoot proto order ctx = .ok r)
    (hfinish : finishDatagram proto order' data limits vm ctx = .ok (.ok c'))
    (hsame : SameParse ⟨proto, r.1, r.2.1, .message ⟨rootMessageName proto.protocol, data.length⟩ ::
      r.2.2.map .fsm⟩ c') :
    PlainRun order order' proto data limits vm ctx := by
  unfold finishDatagram at hfinish
  split at hfinish
  · cases hfinish
  · rename_i hfits
    cases hfed' : feedRoot proto order' ctx with
    | error p =>
        rw [hfed'] at hfinish
        cases hfinish
    | ok r' =>
        rw [hfed'] at hfinish
        change (dispatchBinds proto.protocol (rootMessageName proto.protocol) vm data limits
          (r'.1, []) >>= _) = _ at hfinish
        cases hdispatch : dispatchBinds proto.protocol (rootMessageName proto.protocol) vm data
            limits (r'.1, []) with
        | error p =>
            rw [hdispatch] at hfinish
            cases hfinish
        | ok acc =>
            obtain ⟨ctx', layers⟩ := acc
            rw [hdispatch] at hfinish
            obtain rfl := Except.ok.inj (Except.ok.inj hfinish)
            obtain ⟨hlayers, hevents⟩ := layers_nil (List.cons.inj hsame.events).2
            subst hlayers
            obtain ⟨rfl, hidle⟩ := dispatchBinds_idle_iff.mp hdispatch
            exact ⟨Nat.le_of_not_lt hfits, r, r', hfed, hfed', hsame.ctx,
              Prod.ext hsame.finalState hevents, hidle⟩

theorem finish_of_plainRun {proto : ParsedProtocol} {order order' : MachineTable}
    {vm : BytecodeVm} {ctx : Ctx} {r : Ctx × String × List FsmEvent}
    (hfed : feedRoot proto order ctx = .ok r)
    (h : PlainRun order order' proto data limits vm ctx) :
    ∃ c', finishDatagram proto order' data limits vm ctx = .ok (.ok c') ∧
      SameParse ⟨proto, r.1, r.2.1, .message ⟨rootMessageName proto.protocol, data.length⟩ ::
        r.2.2.map .fsm⟩ c' := by
  obtain ⟨r₁, r', hfed₁, hfed', hctx, hstep, hidle⟩ := h.fed
  cases hfed.symm.trans hfed₁
  unfold finishDatagram
  rw [if_neg (Nat.not_lt_of_le h.fits), hfed']
  refine ⟨⟨proto, r'.1, r'.2.1, .message ⟨rootMessageName proto.protocol, data.length⟩ ::
    (r'.2.2.map .fsm ++ [])⟩, ?_, rfl, hctx, ?_, ?_⟩
  · change (dispatchBinds proto.protocol (rootMessageName proto.protocol) vm data limits
      (r'.1, []) >>= _) = _
    rw [dispatchBinds_idle_iff.mpr ⟨rfl, hidle⟩]
    rfl
  · rw [hstep]
  · rw [hstep, List.append_nil]

end Agreement

/-- An error of the streaming entry point on a complete buffer is one of the
datagram entry point. Where the streaming entry point is done, the datagram one
returns the same exactly when its bound on the context holds, the iteration
order of the machines does not matter, and no bind of the root message is
dispatched to a layer that parses. -/
theorem entry_points_agree_iff (parse : String → Except String ParsedProtocol)
    (order order' : ParsedProtocol → MachineTable) (src : String) (data : List UInt8)
    (limits : Limits) :
    (∀ e, parseStreamStart parse order src data limits = .ok (.error e) →
      parseAndRunWithData parse order' src data limits = .ok (.error e)) ∧
    ∀ c, parseStreamStart parse order src data limits = .ok (.ok (.done c)) →
      ((∃ c', parseAndRunWithData parse order' src data limits = .ok (.ok c') ∧ SameParse c c') ↔
        Plain parse order order' src data limits) := by
  refine ⟨fun e he => parseStreamStart_error he, fun c hc => ?_⟩
  obtain ⟨proto, vm, fieldMap, hparse, hrun, rfl, hfinal⟩ := parseStreamStart_done hc
  unfold finalize at hfinal
  cases hfed : feedRoot proto (order proto) (touchedContext vm fieldMap) with
  | error p =>
      rw [hfed] at hfinal
      cases hfinal
  | ok r =>
      rw [hfed] at hfinal
      obtain rfl := Except.ok.inj hfinal
      have hwhole : parseAndRunWithData parse order' src vm.input limits =
          finishDatagram proto (order' proto) vm.input limits vm (touchedContext vm fieldMap) := by
        unfold parseAndRunWithData
        rw [hparse]
        dsimp only
        rw [compileAndRun_root, hrun]
      rw [hwhole]
      constructor
      · rintro ⟨c', hc', hsame⟩
        exact ⟨proto, vm, fieldMap, hparse, hrun, plainRun_of_finish hfed hc' hsame⟩
      · rintro ⟨proto', vm', fieldMap', hparse', hrun', hplain⟩
        cases hparse.symm.trans hparse'
        cases hrun.symm.trans hrun'
        exact finish_of_plainRun hfed hplain

/-- A message whose payload is bound to a layer under a condition. -/
def boundLayer (condition : Int64) : ParsedProtocol where
  protocol :=
    { name := "P"
      endian := "big"
      messages := [
        { name := "M"
          fields := [⟨"n", .u8, none, none, 0⟩, ⟨"payload", .bytesEof, none, none, 1⟩]
          lets := [], loops := [], validates := [], matches_ := [] },
        { name := "L"
          fields := [⟨"x", .u8, none, none, 0⟩]
          lets := [], loops := [], validates := [], matches_ := [] }]
      binds := [⟨"L", "M", "payload", .int condition⟩] }
  stateMachines := []

/-- A condition that is false leaves nothing to dispatch. -/
theorem entry_points_agree_iff_unbound :
    ∃ c c', parseStreamStart (fun _ => .ok (boundLayer 0)) (fun _ => ∅) "" [1, 5] .default =
        .ok (.ok (.done c)) ∧
      parseAndRunWithData (fun _ => .ok (boundLayer 0)) (fun _ => ∅) "" [1, 5] .default =
        .ok (.ok c') ∧
      SameParse c c' := by
  have hplain : Plain (fun _ => .ok (boundLayer 0)) (fun _ => ∅) (fun _ => ∅) "" [1, 5] .default := by
    refine ⟨boundLayer 0, _, _, rfl, rfl, by decide, _, _, rfl, rfl, fun name => rfl, rfl, ?_⟩
    intro b hb
    obtain rfl := List.mem_singleton.mp hb
    exact .inr (.inl rfl)
  obtain ⟨c', hc', hsame⟩ := ((entry_points_agree_iff (fun _ => .ok (boundLayer 0)) (fun _ => ∅)
    (fun _ => ∅) "" [1, 5] .default).2 _ rfl).mpr hplain
  exact ⟨_, c', rfl, hc', hsame⟩

/-- The layer is parsed from the payload by the datagram entry point only. -/
theorem boundLayer_streamed_without_layer :
    ∃ c c', parseStreamStart (fun _ => .ok (boundLayer 1)) (fun _ => ∅) "" [1, 5] .default =
        .ok (.ok (.done c)) ∧
      parseAndRunWithData (fun _ => .ok (boundLayer 1)) (fun _ => ∅) "" [1, 5] .default =
        .ok (.ok c') ∧
      c.ctx.lookup "L.x" = none ∧ c'.ctx.lookup "L.x" = some 5 ∧
      c'.events = c.events ++ [.message ⟨"L", 1⟩] :=
  ⟨_, _, rfl, rfl, by decide, by decide, by decide⟩

end NFdl
