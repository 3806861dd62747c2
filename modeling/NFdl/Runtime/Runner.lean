import NFdl.Runtime.Emit
import NFdl.Bytecode.Cursor

/-!
# Running a protocol on a datagram

The runner compiles the root message, runs it, and sub-parses bound layers from
the payload offsets that the run recorded. The flow state machine between the
two is a parameter: it only changes the context that `when` conditions see.
-/

namespace NFdl

open BytecodeVm Machine

/-- The values of named fields after a run. -/
abbrev Ctx := AList fun _ : String => UInt64

/-- A message-dispatch event. -/
structure Event where
  msgType : String
  size : Nat
deriving DecidableEq, Repr

/-- The causes of a panic of the runner. -/
inductive Panic where
  | sliceOutOfRange
  | slotCounter
  | machine
  | arithmetic
deriving DecidableEq, Repr

/-- The context built from a run: only slots that were written are included. -/
def touchedContext (vm : BytecodeVm) (fieldMap : SlotMap) : Ctx :=
  let fields := fieldMap.entries.foldl
    (fun ctx e => if vm.slotTouched.getD e.2 false then ctx.insert e.1 (vm.getSlot e.2) else ctx)
    (∅ : Ctx)
  fields.insert "__current_offset" (UInt64.ofNat vm.inputPos)

/-! ### The walks over references

The runner has two walks over the references of a message. They differ in what they do with
a name: one inserts it into a set, the other pushes it on a stack. -/

section Walk

variable (add : String → List String → List String)

def addTypeRef (ty : NfdlType) (out : List String) : List String :=
  match ty with
  | .messageRef r => add r out
  | _ => out

def addFieldsRefs (fields : List Field) (out : List String) : List String :=
  fields.foldl (fun out f => addTypeRef add f.ty out) out

def addLoopsRefs (loops : List Loop) (out : List String) : List String :=
  loops.foldl (fun out lp => addFieldsRefs add lp.body out) out

mutual

def addMatchRefs : Match → List String → List String
  | .mk _ arms _, out => addArmsRefs arms out

def addArmsRefs : List MatchArm → List String → List String
  | [], out => out
  | arm :: arms, out => addArmsRefs arms (addArmRefs arm out)

def addArmRefs : MatchArm → List String → List String
  | .mk _ fields _ loops _ matches_, out =>
      addMatchesRefs matches_ (addLoopsRefs add loops (addFieldsRefs add fields out))

def addMatchesRefs : List Match → List String → List String
  | [], out => out
  | m :: ms, out => addMatchesRefs ms (addMatchRefs m out)

end

end Walk

def collectMatchRefsName (m : Match) (out : List String) : List String :=
  addMatchRefs List.insert m out

def visitMatch (m : Match) (toVisit : List String) : List String :=
  addMatchRefs List.cons m toVisit

/-- The names that a message refers to, inserted into a set. -/
def insertMessageRefs (out : List String) (msg : Message) : List String :=
  msg.matches_.foldl (fun out m => collectMatchRefsName m out)
    (addLoopsRefs List.insert msg.loops (addFieldsRefs List.insert msg.fields out))

/-- The first message that no message refers to, else the first one, else "". -/
def rootMessageName (proto : Protocol) : String :=
  let referenced := proto.messages.foldl insertMessageRefs []
  match proto.messages.find? fun m => !referenced.contains m.name with
  | some m => m.name
  | none => (proto.messages.head?.map Message.name).getD ""

/-- The names that a message refers to, pushed on the stack. -/
def pushMessageRefs (msg : Message) (toVisit : List String) : List String :=
  msg.matches_.foldl (fun toVisit m => visitMatch m toVisit)
    (addLoopsRefs List.cons msg.loops (addFieldsRefs List.cons msg.fields toVisit))

/-- The worklist of `collect_needed_messages`; its head is popped next. -/
def collectNeededLoop (proto : Protocol) :
    Nat → List String → List String → List Message → List Message
  | 0, _, _, needed => needed
  | _ + 1, [], _, needed => needed
  | fuel + 1, name :: toVisit, visited, needed =>
    if visited.contains name then collectNeededLoop proto fuel toVisit visited needed
    else
      match proto.messages.find? (·.name == name) with
      | none => collectNeededLoop proto fuel toVisit (name :: visited) needed
      | some msg => collectNeededLoop proto fuel (pushMessageRefs msg toVisit) (name :: visited)
          (needed ++ [msg])

/-- The messages reachable from `rootName`. Each message is expanded once, so the
references of all messages bound the rounds. -/
def collectNeededMessages (proto : Protocol) (rootName : String) : List Message :=
  collectNeededLoop proto ((proto.messages.flatMap collectMsgRefs).length + 2) [rootName] [] []

/-- The protocol the runner compiles: the root's messages, else all. -/
def rootProtocol (proto : Protocol) : Protocol :=
  let needed := collectNeededMessages proto (rootMessageName proto)
  { proto with messages := if needed.isEmpty then proto.messages else needed }

/-- Compile a protocol and run it on a datagram. -/
def compileAndRun (proto : Protocol) (data : List UInt8) (limits : Limits) :
    Except Panic (Except BytecodeError (BytecodeVm × SlotMap)) :=
  match protocolToBytecodeWithMap proto with
  | none => .error .slotCounter
  | some (program, fieldMap) =>
    match runDatagram program ((withLimits program.slotCount limits).loadInput data) with
    | (_, .panicked) => .error .machine
    | (_, .returned (.error e)) => .ok (.error e)
    | (vm, .returned (.ok _)) => .ok (.ok (vm, fieldMap))

/-- Sub-parse a bound layer message from a payload slice. -/
def runLayer (proto : Protocol) (layer : String) (data : List UInt8) (limits : Limits) :
    Except Panic (Except BytecodeError (Ctx × List Event)) :=
  let needed := collectNeededMessages proto layer
  if needed.isEmpty then .ok (.ok (∅, []))
  else
    match compileAndRun { proto with messages := needed } data limits with
    | .error p => .error p
    | .ok (.error e) => .ok (.error e)
    | .ok (.ok (vm, fieldMap)) => .ok (.ok (touchedContext vm fieldMap, [⟨layer, data.length⟩]))

/-- Where the payload of a field starts, if the run recorded it. -/
def payloadStart (vm : BytecodeVm) (field : String) : Option Nat :=
  (vm.restStarts.find? (·.1 == field)).map (·.2)

/-- The slice `&data[start..]`. -/
def sliceFrom (data : List UInt8) (start : Nat) : Except Panic (List UInt8) :=
  if start ≤ data.length then .ok (data.drop start) else .error .sliceOutOfRange

/-- Dispatch one `bind`: when its condition holds and its payload was recorded,
merge the fields of the layer under the layer's name. A layer that fails to
parse is skipped. -/
def dispatchBind (proto : Protocol) (rootMsg : String) (vm : BytecodeVm) (data : List UInt8)
    (limits : Limits) (acc : Ctx × List Event) (b : Bind) : Except Panic (Ctx × List Event) :=
  if b.source ≠ rootMsg then .ok acc
  else
    match evalExpr (fun name => acc.1.lookup name) b.when_ with
    | none => .error .arithmetic
    | some w =>
      if w = 0 then .ok acc
      else if !proto.messages.any (·.name == b.layer) then .ok acc
      else
        match payloadStart vm b.field with
        | none => .ok acc
        | some start => do
          let payload ← sliceFrom data start
          match ← runLayer proto b.layer payload limits with
          | .error _ => pure acc
          | .ok (layerCtx, evs) =>
            pure (layerCtx.entries.foldl
              (fun ctx e => ctx.insert (b.layer ++ "." ++ e.1) e.2) acc.1, acc.2 ++ evs)

/-- The bind dispatch over all binds in order. -/
def dispatchBinds (proto : Protocol) (rootMsg : String) (vm : BytecodeVm) (data : List UInt8)
    (limits : Limits) (acc : Ctx × List Event) : Except Panic (Ctx × List Event) :=
  proto.binds.foldlM (dispatchBind proto rootMsg vm data limits) acc

/-- Run the root message on `data`, step the flow state machine and dispatch the
binds. -/
def runWithData (fsmStep : Ctx → Ctx × List Event) (proto : Protocol) (data : List UInt8)
    (limits : Limits) : Except Panic (Except BytecodeError (Ctx × List Event)) :=
  let rootMsg := rootMessageName proto
  match compileAndRun (rootProtocol proto) data limits with
  | .error p => .error p
  | .ok (.error e) => .ok (.error e)
  | .ok (.ok (vm, fieldMap)) =>
    let ctx := touchedContext vm fieldMap
    if 1024 < ctx.entries.length then
      .ok (.error (.limitExceeded
        ("context too large: " ++ toString ctx.entries.length ++ " entries")))
    else do
      let (ctx, fsmEvents) := fsmStep ctx
      let result ← dispatchBinds proto rootMsg vm data limits
        (ctx, ⟨rootMsg, data.length⟩ :: fsmEvents)
      pure (.ok result)

section Avoid

variable {ε : Type*} {α β : Type} {e : ε}

/-- A sequence avoids a failure that its parts avoid. -/
theorem bind_ne_error {x : Except ε α} {f : α → Except ε β} (hx : x ≠ .error e)
    (hf : ∀ a, f a ≠ .error e) : (x >>= f) ≠ .error e := by
  cases x with
  | error e' => exact fun h => hx (congrArg Except.error (Except.error.inj h))
  | ok a => exact hf a

theorem foldlM_ne_error {f : β → α → Except ε β} (hf : ∀ b a, f b a ≠ .error e) (as : List α)
    (b : β) : as.foldlM f b ≠ .error e := by
  induction as generalizing b with
  | nil => exact fun h => nomatch h
  | cons a as ih =>
      rw [List.foldlM_cons]
      exact bind_ne_error (hf b a) ih

end Avoid

section Dispatch

variable {proto : Protocol} {data : List UInt8} {limits : Limits}

theorem compileAndRun_no_slice (proto : Protocol) (data : List UInt8) (limits : Limits) :
    compileAndRun proto data limits ≠ .error .sliceOutOfRange := by
  unfold compileAndRun
  split
  · simp
  · split <;> simp

theorem runLayer_no_slice (proto : Protocol) (layer : String) (data : List UInt8)
    (limits : Limits) : runLayer proto layer data limits ≠ .error .sliceOutOfRange := by
  unfold runLayer
  dsimp only
  split
  · simp
  · split
    · rename_i p hp
      intro h
      cases h
      exact compileAndRun_no_slice _ _ _ hp
    · simp
    · simp

/-- A payload start inside the data is no reason for a dispatch to panic. -/
theorem dispatchBind_no_slice {vm : BytecodeVm} (h : ∀ r ∈ vm.restStarts, r.2 ≤ data.length)
    (rootMsg : String) (acc : Ctx × List Event) (b : Bind) :
    dispatchBind proto rootMsg vm data limits acc b ≠ .error .sliceOutOfRange := by
  unfold dispatchBind
  split
  · simp
  · split
    · simp
    · split
      · simp
      · split
        · simp
        · split
          · simp
          · rename_i start hstart
            unfold payloadStart at hstart
            obtain ⟨r, hr, rfl⟩ := Option.map_eq_some_iff.mp hstart
            have hle := h r (List.mem_of_find?_eq_some hr)
            refine bind_ne_error (by simp [sliceFrom, hle]) fun payload => ?_
            refine bind_ne_error (runLayer_no_slice proto b.layer payload limits) fun result => ?_
            cases result <;> exact fun h => nomatch h

theorem dispatchBinds_no_slice {vm : BytecodeVm} (h : ∀ r ∈ vm.restStarts, r.2 ≤ data.length)
    (rootMsg : String) (acc : Ctx × List Event) :
    dispatchBinds proto rootMsg vm data limits acc ≠ .error .sliceOutOfRange :=
  foldlM_ne_error (dispatchBind_no_slice h rootMsg) proto.binds acc

end Dispatch

/-- The machine that the dispatch sees is the final one of a datagram run, which is complete. -/
theorem compileAndRun_complete {proto : Protocol} {data : List UInt8} {limits : Limits}
    {program : BytecodeProgram} {fieldMap fieldMap' : SlotMap} {vm : BytecodeVm}
    (hcompile : protocolToBytecodeWithMap proto = some (program, fieldMap))
    (hrun : compileAndRun proto data limits = .ok (.ok (vm, fieldMap'))) :
    Halts (vmMove program false) (datagramStart program limits data)
      (vm, .returned (.ok .complete)) := by
  have hhalts := interpret_halts program 0 false
    ((withLimits program.slotCount limits).loadInput data).resetCounters
  unfold compileAndRun at hrun
  rw [hcompile] at hrun
  dsimp only [runDatagram] at hrun
  cases hr : interpret program 0 false
      ((withLimits program.slotCount limits).loadInput data).resetCounters with
  | mk vm' ending =>
      rw [hr] at hrun hhalts
      cases ending with
      | panicked => simp at hrun
      | returned result =>
          cases result with
          | error e => simp at hrun
          | ok outcome =>
              cases outcome with
              | needMoreBytes cont => simp at hrun
              | complete =>
                  simp only [Except.ok.injEq, Prod.mk.injEq] at hrun
                  obtain ⟨rfl, -⟩ := hrun
                  exact hhalts

/-- For every protocol that compiles and every datagram: the cursor and the
recorded payload starts stay in the buffer exactly when every executed slice read
fits what remains, and then no bind dispatch slices out of range. -/
theorem compiled_cursor_in_buffer_iff {proto : Protocol} {program : BytecodeProgram}
    {fieldMap : SlotMap}
    (hcompile : protocolToBytecodeWithMap proto = some (program, fieldMap)) {data : List UInt8}
    (hdata : data.length ≤ maxSliceLength) (limits : Limits) :
    (CursorStaysIn program (datagramStart program limits data) ↔
      SlicesFit program (datagramStart program limits data)) ∧
    (SlicesFit program (datagramStart program limits data) →
      ∀ source fsmStep, rootProtocol source = proto →
        runWithData fsmStep source data limits ≠ .error .sliceOutOfRange) := by
  refine ⟨cursorStaysIn_iff hdata, fun hfits source fsmStep hsource => ?_⟩
  have hruns := compileAndRun_no_slice proto data limits
  unfold runWithData
  rw [hsource]
  cases hrun : compileAndRun proto data limits with
  | error p =>
      rw [hrun] at hruns
      simpa using hruns
  | ok result =>
      cases result with
      | error e => simp
      | ok state =>
          obtain ⟨vm, fieldMap'⟩ := state
          have hhalts := compileAndRun_complete hcompile hrun
          have hin : CursorIn vm := halts_cursorIn hdata hfits hhalts
          have hinput : vm.input = data := halts_input hhalts
          dsimp only
          split
          · simp
          · exact bind_ne_error (dispatchBinds_no_slice (by rw [← hinput]; exact hin.restStarts) _ _)
              fun _ h => nomatch h

/-- A length-prefixed slice before a bound payload. -/
def boundPayload : Protocol where
  name := "P"
  endian := "big"
  messages := [
    { name := "M"
      fields := [⟨"n", .u8, none, none, 0⟩, ⟨"body", .bytes (.ident "n"), none, none, 1⟩,
        ⟨"payload", .bytesEof, none, none, 2⟩]
      lets := [], loops := [], validates := [], matches_ := [] },
    { name := "L"
      fields := [⟨"x", .u8, none, none, 0⟩]
      lets := [], loops := [], validates := [], matches_ := [] }]
  binds := [⟨"L", "M", "payload", .int 1⟩]

theorem compiled_cursor_in_buffer_iff_boundPayload :
    ∃ program fieldMap,
      protocolToBytecodeWithMap (rootProtocol boundPayload) = some (program, fieldMap) ∧
      (CursorStaysIn program (datagramStart program .default [2, 7, 8, 9]) ↔
        SlicesFit program (datagramStart program .default [2, 7, 8, 9])) ∧
      (SlicesFit program (datagramStart program .default [2, 7, 8, 9]) →
        ∀ source fsmStep, rootProtocol source = rootProtocol boundPayload →
          runWithData fsmStep source [2, 7, 8, 9] .default ≠ .error .sliceOutOfRange) := by
  have hsome : (protocolToBytecodeWithMap (rootProtocol boundPayload)).isSome := by decide
  obtain ⟨⟨program, fieldMap⟩, hcompile⟩ := Option.isSome_iff_exists.mp hsome
  exact ⟨program, fieldMap, hcompile, compiled_cursor_in_buffer_iff hcompile (by decide) .default⟩

/-- A single byte that announces a body of 200 bytes: the payload is recorded to
start at 201, and the dispatch slices one byte of data from there. -/
theorem boundPayload_slices_out_of_range :
    (protocolToBytecodeWithMap (rootProtocol boundPayload)).map (fun r =>
      (runDatagram r.1 ((withLimits r.1.slotCount .default).loadInput [200])).1.restStarts) =
        some [("payload", 201)] ∧
    runWithData (fun ctx => (ctx, [])) boundPayload [200] .default = .error .sliceOutOfRange :=
  ⟨by decide, rfl⟩

end NFdl
