import NFdl.Runtime.Runner
import Mathlib.Algebra.GroupWithZero.Nat

/-!
# The messages a root needs

The runner compiles the messages that are reachable from the root, the streaming
entry point compiles all of them. The compiled program is the same: the root is
chosen alike, and a message body only looks up messages that it refers to.
-/

namespace NFdl

/-- The message that a name refers to: the first one of that name. -/
def Protocol.message (proto : Protocol) (name : String) : Option Message :=
  proto.messages.find? (·.name == name)

theorem Protocol.message_name {proto : Protocol} {name : String} {m : Message}
    (h : proto.message name = some m) : m.name = name := by
  simpa using List.find?_some h

theorem Protocol.message_mem {proto : Protocol} {name : String} {m : Message}
    (h : proto.message name = some m) : m ∈ proto.messages :=
  List.mem_of_find?_eq_some h

/-! ### What the walks of the runner collect -/

section Walk

variable (add : String → List String → List String)

/-- Add names one after another. -/
def addAll (refs out : List String) : List String := refs.foldl (fun out r => add r out) out

theorem addAll_append {refs refs' out : List String} :
    addAll add (refs ++ refs') out = addAll add refs' (addAll add refs out) :=
  List.foldl_append

theorem foldl_addAll {α : Type} {step : List String → α → List String} {refs : α → List String}
    (hstep : ∀ out x, step out x = addAll add (refs x) out) (xs : List α) (out : List String) :
    xs.foldl step out = addAll add (xs.flatMap refs) out := by
  induction xs generalizing out with
  | nil => rfl
  | cons x xs ih => rw [List.foldl_cons, hstep, ih, List.flatMap_cons, addAll_append]

theorem addTypeRef_eq (ty : NfdlType) (out : List String) :
    addTypeRef add ty out = addAll add (typeRefs ty) out := by
  cases ty <;> rfl

theorem addFieldsRefs_eq (fields : List Field) (out : List String) :
    addFieldsRefs add fields out = addAll add (fieldsRefs fields) out :=
  foldl_addAll add (fun out f => addTypeRef_eq add f.ty out) fields out

theorem addLoopsRefs_eq (loops : List Loop) (out : List String) :
    addLoopsRefs add loops out = addAll add (loopsRefs loops) out :=
  foldl_addAll add (fun out lp => addFieldsRefs_eq add lp.body out) loops out

mutual

theorem addMatchRefs_eq : ∀ (m : Match) (out : List String),
    addMatchRefs add m out = addAll add (collectMatchRefs m) out
  | .mk _ arms _, out => by
      rw [addMatchRefs, collectMatchRefs, addArmsRefs_eq arms]

theorem addArmsRefs_eq : ∀ (arms : List MatchArm) (out : List String),
    addArmsRefs add arms out = addAll add (armsRefs arms) out
  | [], _ => rfl
  | arm :: arms, out => by
      rw [addArmsRefs, armsRefs, addAll_append, addArmsRefs_eq arms, addArmRefs_eq arm]

theorem addArmRefs_eq : ∀ (arm : MatchArm) (out : List String),
    addArmRefs add arm out = addAll add (armRefs arm) out
  | .mk _ fields _ loops _ matches_, out => by
      rw [addArmRefs, armRefs, addAll_append, addAll_append, addMatchesRefs_eq matches_,
        addLoopsRefs_eq, addFieldsRefs_eq]

theorem addMatchesRefs_eq : ∀ (ms : List Match) (out : List String),
    addMatchesRefs add ms out = addAll add (matchesRefs ms) out
  | [], _ => rfl
  | m :: ms, out => by
      rw [addMatchesRefs, matchesRefs, addAll_append, addMatchesRefs_eq ms, addMatchRefs_eq m]

end

/-- The walk over a message adds its references in the order of its fields, loops and
matches. -/
theorem addMessageRefs_eq (msg : Message) (out : List String) :
    msg.matches_.foldl (fun out m => addMatchRefs add m out)
      (addLoopsRefs add msg.loops (addFieldsRefs add msg.fields out)) =
      addAll add (collectMsgRefs msg) out := by
  have hmatches : matchesRefs msg.matches_ = msg.matches_.flatMap collectMatchRefs := by
    induction msg.matches_ with
    | nil => rfl
    | cons m ms ih => rw [matchesRefs, ih, List.flatMap_cons]
  rw [foldl_addAll add (fun out m => addMatchRefs_eq add m out), addFieldsRefs_eq,
    addLoopsRefs_eq, collectMsgRefs, hmatches, addAll_append, addAll_append]

end Walk

theorem mem_addAll_insert {refs out : List String} {name : String} :
    name ∈ addAll List.insert refs out ↔ name ∈ out ∨ name ∈ refs := by
  unfold addAll
  induction refs generalizing out with
  | nil => simp
  | cons r refs ih =>
      rw [List.foldl_cons, ih, List.mem_insert_iff, List.mem_cons]
      tauto

theorem mem_insertMessageRefs {messages : List Message} {out : List String} {name : String} :
    name ∈ messages.foldl insertMessageRefs out ↔
      name ∈ out ∨ name ∈ messages.flatMap collectMsgRefs := by
  have hwalk : messages.foldl insertMessageRefs out =
      addAll List.insert (messages.flatMap collectMsgRefs) out :=
    foldl_addAll List.insert (fun out msg => addMessageRefs_eq List.insert msg out) messages out
  rw [hwalk, mem_addAll_insert]

theorem addAll_cons (refs toVisit : List String) :
    addAll List.cons refs toVisit = refs.reverse ++ toVisit := by
  unfold addAll
  induction refs generalizing toVisit with
  | nil => rfl
  | cons r refs ih =>
      rw [List.foldl_cons, ih, List.reverse_cons, List.append_assoc]
      rfl

theorem pushMessageRefs_eq (msg : Message) (toVisit : List String) :
    pushMessageRefs msg toVisit = (collectMsgRefs msg).reverse ++ toVisit :=
  (addMessageRefs_eq List.cons msg toVisit).trans (addAll_cons ..)

/-- The name of the root is the name of the message that the compiler takes for it. -/
theorem rootMessageName_eq (proto : Protocol) : rootMessageName proto =
    match proto.messages[rootMessageIndex proto]? with
    | some m => m.name
    | none => "" := by
  have hsame : (fun m : Message =>
      !(proto.messages.foldl insertMessageRefs []).contains m.name) =
      fun m => !(proto.messages.flatMap collectMsgRefs).contains m.name := by
    funext m
    rw [Bool.eq_iff_iff]
    simp only [Bool.not_eq_true', ← Bool.not_eq_true, List.contains_iff_mem,
      mem_insertMessageRefs, List.not_mem_nil, false_or]
  unfold rootMessageName rootMessageIndex
  dsimp only
  rw [hsame, List.find?_eq_bind_findIdx?_getElem?]
  cases hfind : proto.messages.findIdx? fun m =>
      !(proto.messages.flatMap collectMsgRefs).contains m.name with
  | none =>
      rw [Option.getD_none, List.head?_eq_getElem?]
      cases proto.messages[0]? <;> rfl
  | some i =>
      obtain ⟨hlt, -⟩ := List.findIdx?_eq_some_iff_getElem.mp hfind
      rw [Option.getD_some, Option.bind_some, List.getElem?_eq_getElem hlt]

section Worklist

variable {proto : Protocol} {root : Message}

/-- The loop of `collectNeededMessages` after the root's round. -/
structure Collecting (proto : Protocol) (root : Message) (toVisit visited : List String)
    (needed : List Message) : Prop where
  head : needed.head? = some root
  first : ∀ m ∈ needed, proto.message m.name = some m
  refs : ∀ m ∈ needed, ∀ r ∈ collectMsgRefs m, r ∈ visited ∨ r ∈ toVisit
  found : ∀ name ∈ visited, ∀ m, proto.message name = some m → m ∈ needed
  referenced : ∀ m ∈ needed, m = root ∨ ∃ m' ∈ needed, m.name ∈ collectMsgRefs m'
  pending : ∀ name ∈ toVisit, ∃ m ∈ needed, name ∈ collectMsgRefs m

/-- The references of the messages that are not visited yet. -/
def unvisitedRefs (proto : Protocol) (visited : List String) : Nat :=
  ((proto.messages.filter fun m => !visited.contains m.name).map
    fun m => (collectMsgRefs m).length).sum

section Sums

variable {α : Type*} {p q : α → Bool} (f : α → Nat)

theorem sum_filter_le (hqp : ∀ x, q x = true → p x = true) (l : List α) :
    ((l.filter q).map f).sum ≤ ((l.filter p).map f).sum := by
  induction l with
  | nil => exact Nat.le_refl _
  | cons x l ih =>
      by_cases hq : q x = true
      · rw [List.filter_cons_of_pos hq, List.filter_cons_of_pos (hqp x hq)]
        simpa using ih
      · rw [List.filter_cons_of_neg hq]
        by_cases hp : p x = true
        · rw [List.filter_cons_of_pos hp]
          simp only [List.map_cons, List.sum_cons]
          omega
        · rw [List.filter_cons_of_neg hp]
          exact ih

/-- A narrower filter loses at least what it drops. -/
theorem sum_filter_add_le (hqp : ∀ x, q x = true → p x = true) {l : List α} {a : α} (ha : a ∈ l)
    (hp : p a = true) (hq : q a = false) :
    ((l.filter q).map f).sum + f a ≤ ((l.filter p).map f).sum := by
  obtain ⟨front, back, rfl⟩ := List.append_of_mem ha
  have hfront := sum_filter_le f hqp front
  have hback := sum_filter_le f hqp back
  rw [List.filter_append, List.filter_append, List.filter_cons_of_pos hp,
    List.filter_cons_of_neg (by simp [hq])]
  simp only [List.map_append, List.map_cons, List.sum_append, List.sum_cons]
  omega

end Sums

theorem unvisitedRefs_visit {visited : List String} {name : String} {m : Message}
    (hm : proto.message name = some m) (hnew : visited.contains name = false) :
    unvisitedRefs proto (name :: visited) + (collectMsgRefs m).length ≤
      unvisitedRefs proto visited := by
  have hname := Protocol.message_name hm
  refine sum_filter_add_le (fun m => (collectMsgRefs m).length) ?_ (Protocol.message_mem hm) ?_ ?_
  · intro x hx
    simp only [List.contains_cons, Bool.not_or, Bool.and_eq_true] at hx
    exact hx.2
  · rw [hname, hnew]
    rfl
  · simp [hname]

theorem unvisitedRefs_skip (proto : Protocol) (visited : List String) (name : String) :
    unvisitedRefs proto (name :: visited) ≤ unvisitedRefs proto visited := by
  refine sum_filter_le _ (fun x hx => ?_) _
  simp only [List.contains_cons, Bool.not_or, Bool.and_eq_true] at hx
  exact hx.2

namespace Collecting

variable {toVisit visited : List String} {needed : List Message} {name : String}

/-- The name popped was visited before. -/
theorem skip (h : Collecting proto root (name :: toVisit) visited needed)
    (hold : name ∈ visited) : Collecting proto root toVisit visited needed where
  head := h.head
  first := h.first
  found := h.found
  referenced := h.referenced
  pending n hn := h.pending n (List.mem_cons_of_mem _ hn)
  refs m hm r hr := by
    obtain hvisited | hpending := h.refs m hm r hr
    · exact .inl hvisited
    · obtain rfl | hpending := List.mem_cons.mp hpending
      · exact .inl hold
      · exact .inr hpending

/-- The name popped belongs to no message. -/
theorem unknown (h : Collecting proto root (name :: toVisit) visited needed)
    (hnone : proto.message name = none) :
    Collecting proto root toVisit (name :: visited) needed where
  head := h.head
  first := h.first
  referenced := h.referenced
  pending n hn := h.pending n (List.mem_cons_of_mem _ hn)
  refs m hm r hr := by
    obtain hvisited | hpending := h.refs m hm r hr
    · exact .inl (List.mem_cons_of_mem _ hvisited)
    · obtain rfl | hpending := List.mem_cons.mp hpending
      · exact .inl List.mem_cons_self
      · exact .inr hpending
  found n hn m hm := by
    obtain rfl | hn := List.mem_cons.mp hn
    · rw [hnone] at hm
      cases hm
    · exact h.found n hn m hm

/-- The message popped is added and its references are still to be visited. -/
theorem expand (h : Collecting proto root (name :: toVisit) visited needed) {msg : Message}
    (hmsg : proto.message name = some msg) :
    Collecting proto root ((collectMsgRefs msg).reverse ++ toVisit) (name :: visited)
      (needed ++ [msg]) where
  head := by
    rw [List.head?_append, h.head]
    rfl
  first m hm := by
    obtain hm | hm := List.mem_append.mp hm
    · exact h.first m hm
    · obtain rfl := List.mem_singleton.mp hm
      rw [Protocol.message_name hmsg]
      exact hmsg
  refs m hm r hr := by
    obtain hm | hm := List.mem_append.mp hm
    · obtain hvisited | hpending := h.refs m hm r hr
      · exact .inl (List.mem_cons_of_mem _ hvisited)
      · obtain rfl | hpending := List.mem_cons.mp hpending
        · exact .inl List.mem_cons_self
        · exact .inr (List.mem_append_right _ hpending)
    · obtain rfl := List.mem_singleton.mp hm
      exact .inr (List.mem_append_left _ (List.mem_reverse.mpr hr))
  found n hn m hm := by
    obtain rfl | hn := List.mem_cons.mp hn
    · cases hmsg.symm.trans hm
      exact List.mem_append_right _ (List.mem_singleton.mpr rfl)
    · exact List.mem_append_left _ (h.found n hn m hm)
  referenced m hm := by
    obtain hm | hm := List.mem_append.mp hm
    · obtain hroot | ⟨m', hm', hr⟩ := h.referenced m hm
      · exact .inl hroot
      · exact .inr ⟨m', List.mem_append_left _ hm', hr⟩
    · obtain rfl := List.mem_singleton.mp hm
      obtain ⟨m', hm', hr⟩ := h.pending name List.mem_cons_self
      rw [← Protocol.message_name hmsg] at hr
      exact .inr ⟨m', List.mem_append_left _ hm', hr⟩
  pending n hn := by
    obtain hn | hn := List.mem_append.mp hn
    · exact ⟨msg, List.mem_append_right _ (List.mem_singleton.mpr rfl), List.mem_reverse.mp hn⟩
    · obtain ⟨m', hm', hr⟩ := h.pending n (List.mem_cons_of_mem _ hn)
      exact ⟨m', List.mem_append_left _ hm', hr⟩

end Collecting

/-- With enough rounds the worklist is used up. -/
theorem collectNeededLoop_collects {fuel : Nat} {toVisit visited : List String}
    {needed : List Message} (h : Collecting proto root toVisit visited needed)
    (hfuel : toVisit.length + unvisitedRefs proto visited < fuel) :
    ∃ visited', Collecting proto root [] visited'
      (collectNeededLoop proto fuel toVisit visited needed) := by
  induction fuel generalizing toVisit visited needed with
  | zero => omega
  | succ fuel ih =>
      cases toVisit with
      | nil => exact ⟨visited, h⟩
      | cons name toVisit =>
          unfold collectNeededLoop
          rw [List.length_cons] at hfuel
          split
          · rename_i hold
            exact ih (h.skip (List.contains_iff_mem.mp hold)) (by omega)
          · rename_i hnew
            split
            · rename_i hnone
              have hrefs := unvisitedRefs_skip proto visited name
              exact ih (h.unknown hnone) (by omega)
            · rename_i msg hmsg
              have hrefs := unvisitedRefs_visit hmsg (Bool.eq_false_iff.mpr hnew)
              rw [pushMessageRefs_eq]
              refine ih (h.expand hmsg) ?_
              rw [List.length_append, List.length_reverse]
              omega

end Worklist

section Root

variable {proto : Protocol} {root : Message}

/-- Only a protocol without messages has no root. -/
theorem messages_of_no_root (h : proto.messages[rootMessageIndex proto]? = none) :
    proto.messages = [] := by
  have hlength := List.getElem?_eq_none_iff.mp h
  unfold rootMessageIndex at hlength
  dsimp only at hlength
  cases hfind : proto.messages.findIdx? fun m =>
      !(proto.messages.flatMap collectMsgRefs).contains m.name with
  | none =>
      rw [hfind, Option.getD_none] at hlength
      exact List.eq_nil_of_length_eq_zero (Nat.le_zero.mp hlength)
  | some i =>
      rw [hfind, Option.getD_some] at hlength
      obtain ⟨hlt, -⟩ := List.findIdx?_eq_some_iff_getElem.mp hfind
      omega

/-- The root message is the first of its name. -/
theorem message_root (h : proto.messages[rootMessageIndex proto]? = some root) :
    proto.message root.name = some root := by
  unfold rootMessageIndex at h
  dsimp only at h
  cases hfind : proto.messages.findIdx? fun m =>
      !(proto.messages.flatMap collectMsgRefs).contains m.name with
  | none =>
      rw [hfind, Option.getD_none] at h
      unfold Protocol.message
      cases hmessages : proto.messages with
      | nil => simp [hmessages] at h
      | cons m rest =>
          rw [hmessages, List.getElem?_cons_zero] at h
          obtain rfl := Option.some.inj h
          exact List.find?_cons_of_pos (by simp)
  | some i =>
      rw [hfind, Option.getD_some] at h
      obtain ⟨hlt, hroot, hbefore⟩ := List.findIdx?_eq_some_iff_getElem.mp hfind
      rw [List.getElem?_eq_getElem hlt] at h
      obtain rfl := Option.some.inj h
      unfold Protocol.message
      rw [List.find?_eq_some_iff_getElem]
      refine ⟨by simp, i, hlt, rfl, fun j hj => ?_⟩
      -- An earlier message of the same name would be unreferenced as well.
      have hearlier := hbefore j hj
      simp only [Bool.not_eq_true', beq_eq_false_iff_ne] at hroot hearlier ⊢
      intro hname
      rw [hname, hroot] at hearlier
      simp at hearlier

theorem collectNeededMessages_collects (hroot : proto.message root.name = some root) :
    ∃ visited, Collecting proto root [] visited (collectNeededMessages proto root.name) := by
  unfold collectNeededMessages
  rw [collectNeededLoop]
  simp only [List.contains_nil, Bool.false_eq_true, if_false]
  have hfind : proto.messages.find? (·.name == root.name) = some root := hroot
  rw [hfind]
  dsimp only
  rw [pushMessageRefs_eq]
  refine collectNeededLoop_collects ⟨rfl, ?_, ?_, ?_, ?_, ?_⟩ ?_
  · intro m hm
    obtain rfl := List.mem_singleton.mp hm
    exact hroot
  · intro m hm r hr
    obtain rfl := List.mem_singleton.mp hm
    exact .inr (by simpa using hr)
  · intro name hname m hm
    obtain rfl := List.mem_singleton.mp hname
    cases hroot.symm.trans hm
    exact List.mem_singleton.mpr rfl
  · intro m hm
    exact .inl (List.mem_singleton.mp hm)
  · intro name hname
    exact ⟨root, List.mem_singleton.mpr rfl, by simpa using hname⟩
  · have hnew : ([] : List String).contains root.name = false := rfl
    have hrefs := unvisitedRefs_visit hroot hnew
    have hall : unvisitedRefs proto [] = (proto.messages.flatMap collectMsgRefs).length := by
      unfold unvisitedRefs
      simp [List.length_flatMap]
    simp only [List.append_nil, List.length_reverse]
    omega

/-- A worklist that is used up has found the message of every reference. -/
theorem Collecting.closed {visited : List String} {needed : List Message}
    (h : Collecting proto root [] visited needed) {m : Message} (hm : m ∈ needed) {r : String}
    (hr : r ∈ collectMsgRefs m) :
    needed.find? (·.name == r) = proto.messages.find? (·.name == r) := by
  have hvisited : r ∈ visited := by
    obtain hvisited | hnil := h.refs m hm r hr
    · exact hvisited
    · cases hnil
  cases hfind : proto.messages.find? (·.name == r) with
  | none =>
      rw [List.find?_eq_none] at hfind ⊢
      intro m' hm'
      exact hfind m' (Protocol.message_mem (h.first m' hm'))
  | some target =>
      have htarget : target ∈ needed := h.found r hvisited target hfind
      cases hneeded : needed.find? (·.name == r) with
      | none =>
          have hnot := List.find?_eq_none.mp hneeded target htarget
          exact absurd (List.find?_some hfind) hnot
      | some m' =>
          have hname : m'.name = r := by simpa using List.find?_some hneeded
          have hfirst := h.first m' (List.mem_of_find?_eq_some hneeded)
          unfold Protocol.message at hfirst
          rw [hname, hfind] at hfirst
          exact hfirst.symm

/-- The messages found have the root of the whole protocol. -/
theorem Collecting.rootMessageIndex {visited : List String} {needed : List Message}
    (h : Collecting proto root [] visited needed) :
    rootMessageIndex { proto with messages := needed } = 0 := by
  have hrest : ∃ rest, needed = root :: rest := by
    cases hneeded : needed with
    | nil =>
        have hhead := h.head
        rw [hneeded] at hhead
        cases hhead
    | cons m rest =>
        have hhead := h.head
        rw [hneeded] at hhead
        exact ⟨rest, by rw [Option.some.inj hhead]⟩
  obtain ⟨rest, hneeded⟩ := hrest
  unfold NFdl.rootMessageIndex
  dsimp only
  by_cases hroot : root.name ∈ needed.flatMap collectMsgRefs
  · -- Then every message found is referred to by one of them.
    have hnone : (needed.findIdx? fun m =>
        !(needed.flatMap collectMsgRefs).contains m.name) = none := by
      rw [List.findIdx?_eq_none_iff]
      intro m hm
      simp only [Bool.not_eq_false', List.contains_iff_mem]
      obtain rfl | ⟨m', hm', hr⟩ := h.referenced m hm
      · exact hroot
      · exact List.mem_flatMap.mpr ⟨m', hm', hr⟩
    rw [hnone]
    rfl
  · have hzero : (needed.findIdx? fun m =>
        !(needed.flatMap collectMsgRefs).contains m.name) = some 0 := by
      generalize needed.flatMap collectMsgRefs = refs at hroot ⊢
      rw [hneeded, List.findIdx?_cons]
      simp [hroot]
    rw [hzero]
    rfl

end Root

/-- Contexts that treat the messages named in `refs` alike. -/
structure SameRefs (cx cx' : EmitContext) (refs : List String) : Prop where
  currentOffsetSlot : cx'.currentOffsetSlot = cx.currentOffsetSlot
  littleEndian : cx'.littleEndian = cx.littleEndian
  find : ∀ r ∈ refs, cx'.messages.find? (·.name == r) = cx.messages.find? (·.name == r)
  inlines : cx'.inlineMessage.isSome = cx.inlineMessage.isSome
  inline : ∀ f f', cx.inlineMessage = some f → cx'.inlineMessage = some f' → ∀ r ∈ refs, ∀ m,
    cx.messages.find? (·.name == r) = some m → ∀ namePrefix s, f' namePrefix m s = f namePrefix m s

namespace SameRefs

variable {cx cx' : EmitContext} {refs : List String}

theorem emitExpr (h : SameRefs cx cx' refs) (s : EmitState) (e : Expr) :
    s.emitExpr cx' e = s.emitExpr cx e := by
  unfold EmitState.emitExpr
  rw [h.currentOffsetSlot]

theorem pushRead (h : SameRefs cx cx' refs) (s : EmitState) (instr : Instruction) :
    s.pushRead cx' instr = s.pushRead cx instr := by
  unfold EmitState.pushRead
  rw [h.currentOffsetSlot]

theorem emitRead (h : SameRefs cx cx' refs) {f f' : String → Message → Emitter}
    (hf : cx.inlineMessage = some f) (hf' : cx'.inlineMessage = some f') (field : Field)
    (hrefs : ∀ r ∈ typeRefs field.ty, r ∈ refs) (namePrefix fullName : String) (readSlot : Nat)
    (s : EmitState) :
    emitRead cx' f' field namePrefix fullName readSlot s =
      emitRead cx f field namePrefix fullName readSlot s := by
  unfold NFdl.emitRead
  cases hty : field.ty with
  | messageRef r =>
      have hr : r ∈ refs := hrefs r (by simp [hty, typeRefs])
      dsimp only
      rw [h.find r hr]
      cases hfind : cx.messages.find? (·.name == r) with
      | none => exact h.pushRead _ _
      | some m =>
          dsimp only
          rw [h.inline f f' hf hf' r hr m hfind]
  | bytes len =>
      dsimp only
      rw [h.emitExpr, h.pushRead]
  | u16 => simp only [h.pushRead, h.littleEndian]
  | u24 => simp only [h.pushRead, h.littleEndian]
  | u32 => simp only [h.pushRead, h.littleEndian]
  | _ => exact h.pushRead _ _

theorem emitValidate (h : SameRefs cx cx' refs) (v : Validate) (s : EmitState) :
    emitValidate cx' v s = emitValidate cx v s := by
  unfold NFdl.emitValidate
  rw [h.emitExpr]

theorem emitField (h : SameRefs cx cx' refs) {field : Field}
    (hrefs : ∀ r ∈ typeRefs field.ty, r ∈ refs) (namePrefix : String) (s : EmitState) :
    emitFieldBytecode cx' field namePrefix s = emitFieldBytecode cx field namePrefix s := by
  have hinlines := h.inlines
  unfold emitFieldBytecode
  cases hf : cx.inlineMessage with
  | none =>
      cases hf' : cx'.inlineMessage with
      | none => exact h.pushRead _ _
      | some f' => simp [hf, hf'] at hinlines
  | some f =>
      cases hf' : cx'.inlineMessage with
      | none => simp [hf, hf'] at hinlines
      | some f' =>
          have hcondition : emitCondition cx' field s = emitCondition cx field s := by
            unfold emitCondition
            cases field.conditional with
            | none => rfl
            | some cond =>
                dsimp only
                rw [h.emitExpr]
          have hbody : ∀ s, emitFieldBody cx' f' field namePrefix s =
              emitFieldBody cx f field namePrefix s := by
            intro s
            unfold emitFieldBody
            dsimp only
            rw [h.emitRead hf hf' field hrefs]
            cases field.validate with
            | none => rfl
            | some v =>
                dsimp only
                rw [h.emitValidate]
          dsimp only
          rw [hcondition, hbody]

theorem emitLet (h : SameRefs cx cx' refs) (namePrefix : String) (binding : Let) (s : EmitState) :
    emitLet cx' namePrefix binding s = emitLet cx namePrefix binding s := by
  unfold NFdl.emitLet
  rw [h.emitExpr]

theorem emitLoop (h : SameRefs cx cx' refs) {lp : Loop}
    (hrefs : ∀ r ∈ fieldsRefs lp.body, r ∈ refs) (namePrefix : String) (s : EmitState) :
    emitLoop cx' namePrefix lp s = emitLoop cx namePrefix lp s := by
  have hcarry : ∀ loopPrefix, emitCarry cx' loopPrefix = emitCarry cx loopPrefix := by
    intro loopPrefix
    funext acc carry
    obtain ⟨carrySlots, s⟩ := acc
    unfold emitCarry
    dsimp only
    rw [h.emitExpr]
  have hnext : ∀ loopPrefix, emitNext cx' loopPrefix = emitNext cx loopPrefix := by
    intro loopPrefix
    funext s nxt
    unfold emitNext
    rw [h.emitExpr]
  have hbody : ∀ loopPrefix s, lp.body.foldl (fun s f => emitFieldBytecode cx' f loopPrefix s) s =
      lp.body.foldl (fun s f => emitFieldBytecode cx f loopPrefix s) s := by
    intro loopPrefix s
    refine List.foldl_ext _ _ s fun s f hf => h.emitField (fun r hr => hrefs r ?_) loopPrefix s
    exact List.mem_flatMap.mpr ⟨f, hf, hr⟩
  unfold NFdl.emitLoop
  simp only [hcarry, hnext, hbody, h.emitExpr]

theorem emitBodyBlock (h : SameRefs cx cx' refs) {fields : List Field} (lets : List Let)
    {loops : List Loop} (validates : List Validate)
    (hfields : ∀ r ∈ fieldsRefs fields, r ∈ refs) (hloops : ∀ r ∈ loopsRefs loops, r ∈ refs)
    (namePrefix : String) (matchItems : List (Nat × Emitter)) :
    emitBodyBlock cx' namePrefix fields lets loops validates matchItems =
      emitBodyBlock cx namePrefix fields lets loops validates matchItems := by
  have hfield : fields.map (fun f => (f.order, emitFieldBytecode cx' f namePrefix)) =
      fields.map fun f => (f.order, emitFieldBytecode cx f namePrefix) := by
    refine List.map_congr_left fun f hf => ?_
    have hemit : emitFieldBytecode cx' f namePrefix = emitFieldBytecode cx f namePrefix :=
      funext fun s => h.emitField
        (fun r hr => hfields r (List.mem_flatMap.mpr ⟨f, hf, hr⟩)) namePrefix s
    rw [hemit]
  have hlet : lets.map (fun l => (l.order, NFdl.emitLet cx' namePrefix l)) =
      lets.map fun l => (l.order, NFdl.emitLet cx namePrefix l) := by
    refine List.map_congr_left fun l _ => ?_
    rw [funext (h.emitLet namePrefix l)]
  have hvalidate : validates.map (fun v => (v.order, NFdl.emitValidate cx' v)) =
      validates.map fun v => (v.order, NFdl.emitValidate cx v) := by
    refine List.map_congr_left fun v _ => ?_
    rw [funext (h.emitValidate v)]
  have hloop : loops.map (fun lp => (lp.order, NFdl.emitLoop cx' namePrefix lp)) =
      loops.map fun lp => (lp.order, NFdl.emitLoop cx namePrefix lp) := by
    refine List.map_congr_left fun lp hlp => ?_
    have hemit : NFdl.emitLoop cx' namePrefix lp = NFdl.emitLoop cx namePrefix lp :=
      funext fun s => h.emitLoop
        (fun r hr => hloops r (List.mem_flatMap.mpr ⟨lp, hlp, hr⟩)) namePrefix s
    rw [hemit]
  unfold NFdl.emitBodyBlock
  rw [hfield, hlet, hvalidate, hloop]

theorem emitMatch (h : SameRefs cx cx' refs) (tag : Expr) (arms : List (Option Int64 × Emitter)) :
    emitMatch cx' tag arms = emitMatch cx tag arms := by
  funext s
  unfold NFdl.emitMatch
  rw [h.emitExpr]

mutual

theorem matchEmitter (h : SameRefs cx cx' refs) (namePrefix : String) : (m : Match) →
    (∀ r ∈ collectMatchRefs m, r ∈ refs) →
    matchEmitter cx' namePrefix m = matchEmitter cx namePrefix m
  | .mk tag arms order => fun hrefs => by
      unfold NFdl.matchEmitter
      rw [armEmitters h namePrefix arms (by simpa [collectMatchRefs] using hrefs), h.emitMatch]

theorem armEmitters (h : SameRefs cx cx' refs) (namePrefix : String) : (arms : List MatchArm) →
    (∀ r ∈ armsRefs arms, r ∈ refs) →
    armEmitters cx' namePrefix arms = armEmitters cx namePrefix arms
  | [] => fun _ => rfl
  | arm :: arms => fun hrefs => by
      simp only [armsRefs, List.mem_append] at hrefs
      unfold NFdl.armEmitters
      rw [armEmitter h namePrefix arm fun r hr => hrefs r (.inl hr),
        armEmitters h namePrefix arms fun r hr => hrefs r (.inr hr)]

theorem armEmitter (h : SameRefs cx cx' refs) (namePrefix : String) : (arm : MatchArm) →
    (∀ r ∈ armRefs arm, r ∈ refs) →
    armEmitter cx' namePrefix arm = armEmitter cx namePrefix arm
  | .mk case fields lets loops validates matches_ => fun hrefs => by
      simp only [armRefs, List.mem_append] at hrefs
      unfold NFdl.armEmitter
      rw [matchItems h namePrefix matches_ fun r hr => hrefs r (.inr hr),
        h.emitBodyBlock lets validates (fun r hr => hrefs r (.inl (.inl hr)))
          (fun r hr => hrefs r (.inl (.inr hr)))]

theorem matchItems (h : SameRefs cx cx' refs) (namePrefix : String) : (ms : List Match) →
    (∀ r ∈ matchesRefs ms, r ∈ refs) →
    matchItems cx' namePrefix ms = matchItems cx namePrefix ms
  | [] => fun _ => rfl
  | m :: ms => fun hrefs => by
      simp only [matchesRefs, List.mem_append] at hrefs
      unfold NFdl.matchItems
      rw [matchEmitter h namePrefix m fun r hr => hrefs r (.inl hr),
        matchItems h namePrefix ms fun r hr => hrefs r (.inr hr)]

end

theorem emitMessage {msg : Message} (h : SameRefs cx cx' (collectMsgRefs msg))
    (namePrefix : String) : emitMessage cx' namePrefix msg = emitMessage cx namePrefix msg := by
  have hrefs : ∀ r, r ∈ collectMsgRefs msg ↔
      (r ∈ fieldsRefs msg.fields ∨ r ∈ loopsRefs msg.loops) ∨ r ∈ matchesRefs msg.matches_ := by
    simp [collectMsgRefs, or_assoc]
  unfold NFdl.emitMessage
  rw [h.matchItems namePrefix msg.matches_ fun r hr => (hrefs r).mpr (.inr hr),
    h.emitBodyBlock msg.lets msg.validates (fun r hr => (hrefs r).mpr (.inl (.inl hr)))
      (fun r hr => (hrefs r).mpr (.inl (.inr hr)))]

end SameRefs

/-- Inlining looks up the same messages in a table that is closed under references. -/
theorem messageEmitter_congr {messages messages' : List Message}
    (hclosed : ∀ m ∈ messages', ∀ r ∈ collectMsgRefs m,
      messages'.find? (·.name == r) = messages.find? (·.name == r))
    (offsetSlot : Nat) (littleEndian : Bool) (remaining : Nat) {msg : Message}
    (hmsg : msg ∈ messages') (namePrefix : String) :
    messageEmitter messages' offsetSlot littleEndian remaining namePrefix msg =
      messageEmitter messages offsetSlot littleEndian remaining namePrefix msg := by
  induction remaining generalizing msg namePrefix with
  | zero =>
      have hsame : SameRefs ⟨messages, offsetSlot, littleEndian, none⟩
          ⟨messages', offsetSlot, littleEndian, none⟩ (collectMsgRefs msg) :=
        ⟨rfl, rfl, hclosed msg hmsg, rfl, fun f f' hf => by cases hf⟩
      exact hsame.emitMessage namePrefix
  | succ remaining ih =>
      have hsame : SameRefs
          ⟨messages, offsetSlot, littleEndian,
            some (messageEmitter messages offsetSlot littleEndian remaining)⟩
          ⟨messages', offsetSlot, littleEndian,
            some (messageEmitter messages' offsetSlot littleEndian remaining)⟩
          (collectMsgRefs msg) := by
        refine ⟨rfl, rfl, hclosed msg hmsg, ?_, ?_⟩
        · rw [Option.isSome_some, Option.isSome_some]
        intro f f' hf hf' r hr m hm subPrefix s
        obtain rfl := Option.some.inj hf
        obtain rfl := Option.some.inj hf'
        have hm' : messages'.find? (·.name == r) = some m := (hclosed msg hmsg r hr).trans hm
        rw [ih (List.mem_of_find?_eq_some hm') subPrefix]
      exact hsame.emitMessage namePrefix

/-- The messages that the root needs compile to the program of the whole protocol. -/
theorem compile_rootProtocol (proto : Protocol) :
    protocolToBytecodeWithMap (rootProtocol proto) = protocolToBytecodeWithMap proto := by
  have hemit : emitProtocol (rootProtocol proto) = emitProtocol proto := by
    cases hroot : proto.messages[rootMessageIndex proto]? with
    | none =>
        -- A protocol without messages needs none.
        have hnil : proto.messages = [] := messages_of_no_root hroot
        have hempty : collectNeededMessages proto (rootMessageName proto) = [] := by
          unfold collectNeededMessages
          rw [collectNeededLoop]
          simp only [List.contains_nil, Bool.false_eq_true, if_false]
          rw [hnil]
          rfl
        have hsame : rootProtocol proto = proto := by
          unfold rootProtocol
          rw [hempty]
          rfl
        rw [hsame]
    | some root =>
        obtain ⟨visited, hneeded⟩ := collectNeededMessages_collects (message_root hroot)
        have hname : rootMessageName proto = root.name := by
          rw [rootMessageName_eq, hroot]
        have hmessages : rootProtocol proto =
            { proto with messages := collectNeededMessages proto root.name } := by
          have hne : (collectNeededMessages proto root.name).isEmpty = false := by
            have hhead := hneeded.head
            cases hlist : collectNeededMessages proto root.name with
            | nil => simp [hlist] at hhead
            | cons m rest => rfl
          unfold rootProtocol
          dsimp only
          rw [hname, hne]
          rfl
        generalize collectNeededMessages proto root.name = needed at hneeded hmessages
        have hindex : (rootProtocol proto).messages[rootMessageIndex (rootProtocol proto)]? =
            some root := by
          rw [hmessages, hneeded.rootMessageIndex, ← List.head?_eq_getElem?]
          exact hneeded.head
        unfold emitProtocol
        rw [hindex, hroot, hmessages]
        dsimp only
        rw [messageEmitter_congr (fun m hm r hr => hneeded.closed hm hr) _ _ _
          (List.mem_of_mem_head? hneeded.head)]
  unfold protocolToBytecodeWithMap
  rw [hemit]

end NFdl
