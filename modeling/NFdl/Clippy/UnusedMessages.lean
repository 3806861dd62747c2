import NFdl.Runtime.Layers
import NFdl.Runtime.EntryPoints

/-!
# The lint for unused messages

The lint reports the messages that nothing in the protocol names. It exempts the entry
message only where the protocol has neither binds nor machines nor references. A message
that it reports is never parsed, unless it is the entry message of a protocol that has one of
these.
-/

namespace NFdl.Clippy

open Relation (TransGen)

/-! ### The lint -/

inductive LintLevel where
  | allow | warn | deny
deriving DecidableEq, Repr

structure LintDiagnostic where
  id : String
  level : LintLevel
  message : String
deriving DecidableEq, Repr

def nfdlUnusedMessage : String := "NFDL0100"

def collectMessageRefsInLoop (lp : Loop) (set : List String) : List String :=
  addFieldsRefs List.insert lp.body set

def collectMessageRefsInMatch (m : Match) (set : List String) : List String :=
  addMatchRefs List.insert m set

def collectMessageRefsInMessage (set : List String) (msg : Message) : List String :=
  msg.matches_.foldl (fun set m => collectMessageRefsInMatch m set)
    (msg.loops.foldl (fun set lp => collectMessageRefsInLoop lp set)
      (addFieldsRefs List.insert msg.fields set))

def collectMessageRefsInSm (set : List String) (sm : StateMachine) : List String :=
  sm.states.foldl (fun set state =>
    state.transitions.foldl (fun set tr => set.insert tr.msgType) set) set

def referencedMessages (proto : ParsedProtocol) : List String :=
  let bound := proto.protocol.binds.foldl (fun set b => (set.insert b.layer).insert b.source) []
  let inMessages := proto.protocol.messages.foldl collectMessageRefsInMessage bound
  proto.stateMachines.foldl collectMessageRefsInSm inMessages

def protocolHasMessageRef (proto : Protocol) : Bool :=
  !(proto.messages.foldl collectMessageRefsInMessage []).isEmpty

def hasDispatch (proto : ParsedProtocol) : Bool :=
  !proto.protocol.binds.isEmpty || !proto.stateMachines.isEmpty ||
    protocolHasMessageRef proto.protocol

/-- The messages that are reported, with their positions. -/
def unusedMessages (proto : ParsedProtocol) : List (Message × Nat) :=
  let messages := proto.protocol.messages
  let referenced := referencedMessages proto
  messages.zipIdx.filter fun (msg, idx) =>
    !referenced.contains msg.name &&
      !(!hasDispatch proto && messages.length == 1) && !(!hasDispatch proto && idx == 0)

/-- The diagnostics of `check_unused_messages`, without their places in the source. -/
def checkUnusedMessages (proto : ParsedProtocol) : List LintDiagnostic :=
  (unusedMessages proto).map fun (msg, _) =>
    ⟨nfdlUnusedMessage, .warn, "message `" ++ msg.name ++ "` is never referenced"⟩

/-! ### What names a message -/

section Named

variable {proto : ParsedProtocol} {name : String}

/-- A transition is triggered by messages of a name. -/
def Triggers (proto : ParsedProtocol) (name : String) : Prop :=
  ∃ sm ∈ proto.stateMachines, ∃ state ∈ sm.states, ∃ tr ∈ state.transitions, tr.msgType = name

/-- A bind names a message as its source or as its layer. -/
def Binds (proto : ParsedProtocol) (name : String) : Prop :=
  ∃ b ∈ proto.protocol.binds, b.layer = name ∨ b.source = name

/-- A message refers to messages of a name. -/
def Refers (proto : ParsedProtocol) (name : String) : Prop :=
  ∃ msg ∈ proto.protocol.messages, msg.Refers name

/-- Something in the protocol names a message. -/
def Named (proto : ParsedProtocol) (name : String) : Prop :=
  Binds proto name ∨ Refers proto name ∨ Triggers proto name

/-- The protocol has binds, state machines or references. -/
def Dispatches (proto : ParsedProtocol) : Prop :=
  proto.protocol.binds ≠ [] ∨ proto.stateMachines ≠ [] ∨ ∃ name, Refers proto name

/-- A walk that inserts what each element names. -/
theorem mem_foldl_walk {α : Type} {step : List String → α → List String} {names : α → Prop}
    (hstep : ∀ set x, name ∈ step set x ↔ name ∈ set ∨ names x) (xs : List α)
    (set : List String) : name ∈ xs.foldl step set ↔ name ∈ set ∨ ∃ x ∈ xs, names x := by
  induction xs generalizing set with
  | nil => simp
  | cons x xs ih =>
      rw [List.foldl_cons, ih, hstep, or_assoc]
      simp only [List.mem_cons, exists_eq_or_imp]

theorem mem_collectMessageRefsInMessage (set : List String) (msg : Message) :
    name ∈ collectMessageRefsInMessage set msg ↔ name ∈ set ∨ msg.Refers name := by
  have hwalk : collectMessageRefsInMessage set msg =
      addAll List.insert (collectMsgRefs msg) set :=
    addMessageRefs_eq List.insert msg set
  rw [hwalk, mem_addAll_insert, mem_collectMsgRefs]

theorem mem_collectMessageRefsInSm (set : List String) (sm : StateMachine) :
    name ∈ collectMessageRefsInSm set sm ↔
      name ∈ set ∨ ∃ state ∈ sm.states, ∃ tr ∈ state.transitions, tr.msgType = name := by
  have htransitions : ∀ (set : List String) (state : State),
      name ∈ state.transitions.foldl (fun set tr => set.insert tr.msgType) set ↔
        name ∈ set ∨ ∃ tr ∈ state.transitions, tr.msgType = name := by
    intro set state
    refine mem_foldl_walk (fun set tr => ?_) state.transitions set
    rw [List.mem_insert_iff, or_comm, eq_comm]
  exact mem_foldl_walk htransitions sm.states set

theorem mem_referencedMessages : name ∈ referencedMessages proto ↔ Named proto name := by
  have hbind : ∀ (set : List String) (b : Bind),
      name ∈ (set.insert b.layer).insert b.source ↔
        name ∈ set ∨ (b.layer = name ∨ b.source = name) := by
    intro set b
    rw [List.mem_insert_iff, List.mem_insert_iff, eq_comm (a := name), eq_comm (a := name)]
    tauto
  have hbinds := mem_foldl_walk hbind proto.protocol.binds []
  have hmessages := mem_foldl_walk (@mem_collectMessageRefsInMessage name)
    proto.protocol.messages (proto.protocol.binds.foldl
      (fun set b => (set.insert b.layer).insert b.source) [])
  have hmachines := mem_foldl_walk (@mem_collectMessageRefsInSm name) proto.stateMachines
    (proto.protocol.messages.foldl collectMessageRefsInMessage (proto.protocol.binds.foldl
      (fun set b => (set.insert b.layer).insert b.source) []))
  rw [hmessages, hbinds, or_iff_right List.not_mem_nil, or_assoc] at hmachines
  exact hmachines

theorem mem_references : name ∈ proto.protocol.messages.foldl collectMessageRefsInMessage [] ↔
    Refers proto name :=
  (mem_foldl_walk (@mem_collectMessageRefsInMessage name) proto.protocol.messages []).trans
    (or_iff_right List.not_mem_nil)

theorem hasDispatch_iff : hasDispatch proto = true ↔ Dispatches proto := by
  have hrefs : protocolHasMessageRef proto.protocol = true ↔ ∃ name, Refers proto name := by
    unfold protocolHasMessageRef
    simp only [← mem_references, Bool.not_eq_true', List.isEmpty_eq_false_iff_exists_mem]
  unfold hasDispatch Dispatches
  rw [Bool.or_eq_true, Bool.or_eq_true, hrefs, or_assoc]
  simp only [Bool.not_eq_true', List.isEmpty_eq_false_iff, ne_eq]

/-- What the lint reports. -/
theorem mem_unusedMessages {msg : Message} {idx : Nat} :
    (msg, idx) ∈ unusedMessages proto ↔ proto.protocol.messages[idx]? = some msg ∧
      ¬ Named proto msg.name ∧
      (Dispatches proto ∨ proto.protocol.messages.length ≠ 1 ∧ idx ≠ 0) := by
  unfold unusedMessages
  dsimp only
  rw [List.mem_filter, List.mem_zipIdx_iff_getElem?, ← mem_referencedMessages, ← hasDispatch_iff]
  cases hasDispatch proto <;> simp [and_assoc]

end Named

/-! ### The reports are sound -/

/-- A message takes no part in any parse: it is not the entry, the entry does not reach it
through references, no bind names it and no transition waits for it. -/
structure PlaysNoPart (proto : ParsedProtocol) (msg : Message) (idx : Nat) : Prop where
  notEntry : idx ≠ rootMessageIndex proto.protocol
  notReached : ∀ root, proto.protocol.messages[rootMessageIndex proto.protocol]? = some root →
    ¬ TransGen proto.protocol.RefersTo root.name msg.name
  notBound : ¬ Binds proto msg.name
  notTrigger : ¬ Triggers proto msg.name

section Sound

variable {proto : ParsedProtocol}

/-- Without references the entry is the first message. -/
theorem rootMessageIndex_of_no_refs (h : ∀ name, ¬ Refers proto name) :
    rootMessageIndex proto.protocol = 0 := by
  have hnil : proto.protocol.messages.flatMap collectMsgRefs = [] := by
    rw [List.eq_nil_iff_forall_not_mem]
    intro name hname
    obtain ⟨msg, hmsg, hrefs⟩ := List.mem_flatMap.mp hname
    exact h name ⟨msg, hmsg, mem_collectMsgRefs.mp hrefs⟩
  unfold rootMessageIndex
  dsimp only
  rw [hnil]
  cases proto.protocol.messages <;> simp [List.findIdx?_cons]

/-- The lint reports only messages that take no part in any parse, if and only if its
exemption covers the entry message: the protocol has neither binds nor machines nor references,
or something names the entry. -/
theorem unusedMessages_sound_iff (proto : ParsedProtocol) :
    (∀ msg idx, (msg, idx) ∈ unusedMessages proto → PlaysNoPart proto msg idx) ↔
      ∀ root, proto.protocol.messages[rootMessageIndex proto.protocol]? = some root →
        ¬ Dispatches proto ∨ Named proto root.name := by
  constructor
  · intro hsound root hroot
    by_contra hcond
    push Not at hcond
    exact (hsound root _ (mem_unusedMessages.mpr ⟨hroot, hcond.2, .inl hcond.1⟩)).notEntry rfl
  · intro hcond msg idx hreported
    obtain ⟨hmsg, hunnamed, hexempt⟩ := mem_unusedMessages.mp hreported
    refine ⟨?_, ?_, fun h => hunnamed (.inl h), fun h => hunnamed (.inr (.inr h))⟩
    · rintro rfl
      obtain hsilent | hnamed := hcond msg hmsg
      · have hindex := rootMessageIndex_of_no_refs fun name h => hsilent (.inr (.inr ⟨name, h⟩))
        exact (hexempt.resolve_left hsilent).2 hindex
      · exact hunnamed hnamed
    · intro root _ hreach
      obtain ⟨a, -, m, hm, hrefers⟩ := TransGen.tail'_iff.mp hreach
      exact hunnamed (.inr (.inl ⟨m, Protocol.message_mem hm, hrefers⟩))

end Sound

/-- A message of attributes, as the repository's sample protocols have them. -/
def attributes : ParsedProtocol where
  protocol :=
    { name := "Diameter", endian := "big", binds := []
      messages := [⟨"Avp", [⟨"code", .u32, none, none, 0⟩], [], [], [], []⟩,
        ⟨"Message", [⟨"a", .messageRef "Avp", none, none, 0⟩], [], [], [], []⟩] }
  stateMachines := []

/-- The message that refers to the other one is the entry, and the lint reports it. -/
theorem unusedMessages_attributes :
    ¬ ∀ msg idx, (msg, idx) ∈ unusedMessages attributes → PlaysNoPart attributes msg idx := by
  intro hsound
  have hreported : (unusedMessages attributes).map Prod.snd = [1] := by decide +kernel
  obtain ⟨⟨msg, idx⟩, hmem, hidx⟩ := List.mem_map.mp
    (hreported ▸ List.mem_singleton_self 1 : 1 ∈ (unusedMessages attributes).map Prod.snd)
  obtain rfl : idx = 1 := hidx
  exact (hsound msg 1 hmem).notEntry (by decide +kernel)

example : checkUnusedMessages attributes =
    [⟨"NFDL0100", .warn, "message `Message` is never referenced"⟩] := by decide +kernel

end NFdl.Clippy
