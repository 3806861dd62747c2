import NFdl.Runtime.Needed
import Mathlib.Logic.Relation

/-!
# The entry of a layer

The runner takes a message for a layer by its name, collects what the message needs and
compiles that. The entry of the collected messages is the message itself, although the root
is chosen among them anew, and its body inlines what it inlines in the whole protocol.
-/

namespace NFdl

open Relation (ReflTransGen)

/-! ### References -/

def MatchArm.fields : MatchArm → List Field
  | .mk _ fields _ _ _ _ => fields

def MatchArm.loops : MatchArm → List Loop
  | .mk _ _ _ loops _ _ => loops

def MatchArm.matches_ : MatchArm → List Match
  | .mk _ _ _ _ _ matches_ => matches_

/-- A match refers to a message: in a field or a loop of an arm, or in a match inside. -/
inductive MatchRefers (r : String) : Match → Prop
  | field {tag : Expr} {arms : List MatchArm} {order : Nat} {arm : MatchArm} {f : Field}
      (harm : arm ∈ arms) (hfield : f ∈ arm.fields) (hty : f.ty = .messageRef r) :
      MatchRefers r (.mk tag arms order)
  | loop {tag : Expr} {arms : List MatchArm} {order : Nat} {arm : MatchArm} {lp : Loop}
      {f : Field} (harm : arm ∈ arms) (hloop : lp ∈ arm.loops) (hfield : f ∈ lp.body)
      (hty : f.ty = .messageRef r) : MatchRefers r (.mk tag arms order)
  | nested {tag : Expr} {arms : List MatchArm} {order : Nat} {arm : MatchArm} {m : Match}
      (harm : arm ∈ arms) (hmatch : m ∈ arm.matches_) (hrefers : MatchRefers r m) :
      MatchRefers r (.mk tag arms order)

/-- A message refers to a message: in a field, in a loop or in a match. -/
def Message.Refers (msg : Message) (r : String) : Prop :=
  (∃ f ∈ msg.fields, f.ty = .messageRef r) ∨
    (∃ lp ∈ msg.loops, ∃ f ∈ lp.body, f.ty = .messageRef r) ∨ ∃ m ∈ msg.matches_, MatchRefers r m

section Refs

variable {r : String}

theorem mem_typeRefs {ty : NfdlType} : r ∈ typeRefs ty ↔ ty = .messageRef r := by
  cases ty <;> simp [typeRefs, eq_comm]

theorem mem_fieldsRefs {fields : List Field} :
    r ∈ fieldsRefs fields ↔ ∃ f ∈ fields, f.ty = .messageRef r := by
  simp only [fieldsRefs, List.mem_flatMap, mem_typeRefs]

theorem mem_loopsRefs {loops : List Loop} :
    r ∈ loopsRefs loops ↔ ∃ lp ∈ loops, ∃ f ∈ lp.body, f.ty = .messageRef r := by
  simp only [loopsRefs, List.mem_flatMap, mem_fieldsRefs]

mutual

theorem mem_collectMatchRefs : ∀ m : Match, r ∈ collectMatchRefs m ↔ MatchRefers r m
  | .mk tag arms order => by
      rw [collectMatchRefs, mem_armsRefs arms]
      constructor
      · rintro ⟨arm, harm, ⟨f, hf, hty⟩ | ⟨lp, hlp, f, hf, hty⟩ | ⟨m, hm, hrefers⟩⟩
        · exact .field harm hf hty
        · exact .loop harm hlp hf hty
        · exact .nested harm hm hrefers
      · intro h
        cases h with
        | field harm hf hty => exact ⟨_, harm, .inl ⟨_, hf, hty⟩⟩
        | loop harm hlp hf hty => exact ⟨_, harm, .inr (.inl ⟨_, hlp, _, hf, hty⟩)⟩
        | nested harm hm hrefers => exact ⟨_, harm, .inr (.inr ⟨_, hm, hrefers⟩)⟩

theorem mem_armsRefs : ∀ arms : List MatchArm, r ∈ armsRefs arms ↔
    ∃ arm ∈ arms, (∃ f ∈ arm.fields, f.ty = .messageRef r) ∨
      (∃ lp ∈ arm.loops, ∃ f ∈ lp.body, f.ty = .messageRef r) ∨
      ∃ m ∈ arm.matches_, MatchRefers r m
  | [] => by simp [armsRefs]
  | arm :: arms => by
      rw [armsRefs, List.mem_append, mem_armRefs arm, mem_armsRefs arms]
      simp only [List.mem_cons, exists_eq_or_imp]

theorem mem_armRefs : ∀ arm : MatchArm, r ∈ armRefs arm ↔
    (∃ f ∈ arm.fields, f.ty = .messageRef r) ∨
      (∃ lp ∈ arm.loops, ∃ f ∈ lp.body, f.ty = .messageRef r) ∨
      ∃ m ∈ arm.matches_, MatchRefers r m
  | .mk _ fields _ loops _ matches_ => by
      rw [armRefs, List.mem_append, List.mem_append, mem_fieldsRefs, mem_loopsRefs,
        mem_matchesRefs matches_, or_assoc]
      rfl

theorem mem_matchesRefs : ∀ ms : List Match, r ∈ matchesRefs ms ↔ ∃ m ∈ ms, MatchRefers r m
  | [] => by simp [matchesRefs]
  | m :: ms => by
      rw [matchesRefs, List.mem_append, mem_collectMatchRefs m, mem_matchesRefs ms]
      simp only [List.mem_cons, exists_eq_or_imp]

end

/-- The collected names are the references. -/
theorem mem_collectMsgRefs {msg : Message} : r ∈ collectMsgRefs msg ↔ msg.Refers r := by
  rw [collectMsgRefs, List.mem_append, List.mem_append, mem_fieldsRefs, mem_loopsRefs,
    mem_matchesRefs, or_assoc]
  rfl

end Refs

/-! ### The messages that a layer needs -/

section Layer

variable {proto : Protocol} {msg : Message} {name : String}

/-- The message of a name refers to a message. -/
def Protocol.RefersTo (proto : Protocol) (a b : String) : Prop :=
  ∃ msg, proto.message a = some msg ∧ msg.Refers b

/-- The protocol that the runner compiles for a layer. -/
def layerProtocol (proto : Protocol) (layer : String) : Protocol :=
  { proto with messages := collectNeededMessages proto layer }

/-- Looking up a name that can be reached from the layer gives the message of the protocol. -/
theorem layer_message {visited : List String} {needed : List Message}
    (h : Collecting proto msg [] visited needed) (hmsg : proto.message msg.name = some msg)
    (hreach : ReflTransGen proto.RefersTo msg.name name) :
    needed.find? (·.name == name) = proto.message name := by
  induction hreach with
  | refl =>
      rw [hmsg]
      cases hneeded : needed with
      | nil =>
          have hhead := h.head
          rw [hneeded] at hhead
          cases hhead
      | cons m rest =>
          have hhead := h.head
          rw [hneeded] at hhead
          obtain rfl := Option.some.inj hhead
          exact List.find?_cons_of_pos (beq_self_eq_true _)
  | tail _ hstep ih =>
      obtain ⟨m, hm, hrefers⟩ := hstep
      rw [hm] at ih
      exact h.closed (List.mem_of_find?_eq_some ih) (mem_collectMsgRefs.mpr hrefers)

/-- What is compiled for a layer is the message of that name, with the messages of the whole
protocol at hand. -/
theorem layer_entry (hmsg : proto.message msg.name = some msg) :
    (layerProtocol proto msg.name).messages[rootMessageIndex (layerProtocol proto msg.name)]? =
        some msg ∧
      (∀ name, ReflTransGen proto.RefersTo msg.name name →
        (layerProtocol proto msg.name).message name = proto.message name) ∧
      ∀ littleEndian depth, messageEmitter (layerProtocol proto msg.name).messages
          currentOffsetSlot littleEndian depth "" msg =
        messageEmitter proto.messages currentOffsetSlot littleEndian depth "" msg := by
  obtain ⟨visited, hneeded⟩ := collectNeededMessages_collects hmsg
  have hroot : (layerProtocol proto msg.name).messages[
      rootMessageIndex (layerProtocol proto msg.name)]? = some msg := by
    unfold layerProtocol
    rw [hneeded.rootMessageIndex, ← List.head?_eq_getElem?]
    exact hneeded.head
  refine ⟨hroot, fun name hreach => layer_message hneeded hmsg hreach, fun littleEndian depth => ?_⟩
  exact messageEmitter_congr (fun m hm r hr => hneeded.closed hm hr) _ _ _
    (List.mem_of_mem_head? hneeded.head) ""

end Layer

/-- The compiler and the runner agree on the root, and a message that a layer can name is the
entry of what the runner compiles for the layer, where all names that it reaches stand for
the same messages as in the whole protocol. -/
theorem root_selection_agrees (proto : Protocol) :
    (proto.messages[rootMessageIndex proto]?.map Message.name).getD "" = rootMessageName proto ∧
      (∀ msg, proto.messages[rootMessageIndex proto]? = some msg →
        proto.message (rootMessageName proto) = some msg) ∧
      ∀ msg, proto.message msg.name = some msg →
        (layerProtocol proto msg.name).messages[
            rootMessageIndex (layerProtocol proto msg.name)]? = some msg ∧
          (∀ name, ReflTransGen proto.RefersTo msg.name name →
            (layerProtocol proto msg.name).message name = proto.message name) ∧
          ∀ littleEndian depth, messageEmitter (layerProtocol proto msg.name).messages
              currentOffsetSlot littleEndian depth "" msg =
            messageEmitter proto.messages currentOffsetSlot littleEndian depth "" msg := by
  have hname := rootMessageName_eq proto
  refine ⟨?_, fun msg hmsg => ?_, fun msg hmsg => layer_entry hmsg⟩
  · rw [hname]
    cases proto.messages[rootMessageIndex proto]? <;> rfl
  · rw [hmsg] at hname
    rw [hname]
    exact message_root hmsg

/-- Two messages of one name. -/
def sharedName : Protocol where
  name := "P"
  endian := "big"
  messages := [⟨"A", [⟨"x", .u8, none, none, 0⟩], [], [], [], []⟩,
    ⟨"A", [⟨"y", .u16, none, none, 0⟩], [], [], [], []⟩]
  binds := []

/-- A layer names the first message of its name, so a second one is not its entry. -/
theorem root_selection_sharedName :
    ∃ msg ∈ sharedName.messages, (layerProtocol sharedName msg.name).messages[
      rootMessageIndex (layerProtocol sharedName msg.name)]? ≠ some msg := by
  refine ⟨_, List.mem_cons_of_mem _ (List.mem_cons_self ..), fun h => ?_⟩
  have hfirst : ((layerProtocol sharedName "A").messages[
      rootMessageIndex (layerProtocol sharedName "A")]?).map (fun m => m.fields.map Field.name) =
      some ["x"] := by decide +kernel
  rw [h] at hfirst
  exact absurd hfirst (by decide)

end NFdl
