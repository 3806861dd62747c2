import NFdl.Runtime.LayoutExact
import NFdl.Runtime.SlotRange
import NFdl.Bytecode.Cursor

/-!
# Well-formed programs

A compiled program mentions only its own slots, and control stays in it until the
final return. Its jumps are those of the protocol's structured code exactly when
every address they are meant for fits in sixteen bits: the compiler casts
instruction indices without a check.
-/

namespace NFdl

open BytecodeVm Machine

/-- What is expected of the program of a protocol. -/
structure WellFormedProgram (proto : Protocol) (program : BytecodeProgram) : Prop where
  /-- Every jump has the target it is meant to have. -/
  targets : program.instructions = (protocolCode proto).intended 0
  slots : ∀ i ∈ program.instructions, ∀ slot ∈ i.slots, slot < program.slotCount
  /-- The slot counter did not wrap. -/
  counter : (emitProtocol proto).slot ≤ u16Max
  /-- Control stays in the program, in fresh and in resumed runs. -/
  control : ∀ stream start c, start.ip < program.instructions.length →
    Reachable (vmMove program stream) start c → c.ip < program.instructions.length

theorem asU16_eq_iff {n : Nat} : asU16 n = n ↔ n ≤ u16Max := by
  refine ⟨fun h => ?_, asU16_of_le⟩
  have hlt : asU16 n < 65536 := Nat.mod_lt n (by omega)
  unfold u16Max
  omega

section Control

variable {proto : Protocol} {program : BytecodeProgram} {fieldMap : SlotMap}

/-- The counter of a compiled program fits. -/
theorem compiled_counter (hcompile : protocolToBytecodeWithMap proto = some (program, fieldMap)) :
    (emitProtocol proto).slot ≤ u16Max := by
  unfold protocolToBytecodeWithMap at hcompile
  dsimp only at hcompile
  split at hcompile
  · assumption
  · cases hcompile

/-- A jump in the layout of some code lands in it or right behind it. -/
theorem stored_jump_le {c : Code} {base target : Nat} {i : Instruction} (h : i ∈ c.stored base)
    (hi : i = .jump target ∨ ∃ cond, i = .jumpIfZero cond target) : target ≤ base + c.length := by
  have hlabel : ∀ t ∈ c.targets base, asU16 t ≤ base + c.length := fun t ht =>
    Nat.le_trans (asU16_le t) (Structured.targets_bounds ht).2
  obtain ⟨⟨p, hplain⟩, rfl⟩ | ⟨t, ht, rfl | ⟨_, rfl⟩⟩ := Structured.mem_assemble vmJumps asU16 h
  · obtain rfl | ⟨cond, rfl⟩ := hi <;> exact absurd trivial hplain
  · obtain hi | ⟨cond, hi⟩ := hi
    · cases hi
      exact hlabel t ht
    · cases hi
  · obtain hi | ⟨cond, hi⟩ := hi
    · cases hi
    · cases hi
      exact hlabel t ht

/-- A move goes on inside a program that ends with a return. -/
theorem ip_lt_of_move {c : Code} {stream : Bool} {a b : Config}
    (hcode : program.instructions = c.stored 0 ++ [.ret]) (hmove : vmMove program stream a = .ok b) :
    b.ip < program.instructions.length := by
  have hlen : program.instructions.length = c.length + 1 := by
    rw [hcode, List.length_append, Code.stored_length, List.length_singleton]
  have hmem : ∀ instr, instr ≠ .ret → program.instructions[a.ip]? = some instr →
      instr ∈ c.stored 0 := by
    intro instr hne hinstr
    have hin := List.mem_of_getElem? hinstr
    rw [hcode, List.mem_append, List.mem_singleton] at hin
    exact hin.resolve_right hne
  obtain ⟨instr, hinstr, hip | rfl | ⟨cond, rfl⟩⟩ := vmMove_control hmove
  · have hlt := (List.getElem?_eq_some_iff.mp hinstr).1
    have hret : instr ≠ .ret := by
      rintro rfl
      obtain ⟨instr', hinstr', -, hexec⟩ := vmMove_eq_ok.mp hmove
      cases hinstr.symm.trans hinstr'
      exact absurd (congrArg Prod.snd hexec) (by simp [execInstr])
    have hbefore : a.ip < c.length := by
      by_contra hge
      have hlast : a.ip = c.length := by omega
      rw [hcode, hlast, List.getElem?_append_right (by simp), Code.stored_length,
        Nat.sub_self] at hinstr
      exact hret (Option.some.inj hinstr).symm
    omega
  · have hle := stored_jump_le (hmem _ (by simp) hinstr) (.inl rfl)
    omega
  · have hle := stored_jump_le (hmem _ (by simp) hinstr) (.inr ⟨cond, rfl⟩)
    omega

theorem compiled_control (hcompile : protocolToBytecodeWithMap proto = some (program, fieldMap))
    {stream : Bool} {start c : Config} (hstart : start.ip < program.instructions.length)
    (hreach : Reachable (vmMove program stream) start c) :
    c.ip < program.instructions.length := by
  obtain ⟨body, hbody⟩ : ∃ body : Code, protocolCode proto = body.seq (plain .ret) := ⟨_, rfl⟩
  have hcode := compiled_instructions hcompile
  rw [hbody, Code.stored_seq, Code.stored_plain] at hcode
  obtain ⟨n, hn⟩ := hreach
  exact hn.invariant (P := fun c => c.ip < program.instructions.length)
    (fun _ _ _ hmove => ip_lt_of_move hcode hmove) hstart

/-- For every protocol that compiles: the program is well formed exactly when no
jump is meant for an address beyond 65535. -/
theorem compiled_wellFormed_iff
    (hcompile : protocolToBytecodeWithMap proto = some (program, fieldMap)) :
    WellFormedProgram proto program ↔
      ∀ target ∈ (protocolCode proto).targets 0, target ≤ u16Max := by
  have hexact : program.instructions = (protocolCode proto).intended 0 ↔
      ∀ target ∈ (protocolCode proto).targets 0, target ≤ u16Max := by
    rw [compiled_instructions hcompile]
    refine (Structured.assemble_eq_iff (protocolCode proto) 0).trans ?_
    exact forall₂_congr fun target _ => asU16_eq_iff
  constructor
  · intro h
    exact hexact.mp h.targets
  · intro h
    exact ⟨hexact.mpr h, fun i hi slot hslot => compiled_slots_lt hcompile hi hslot,
      compiled_counter hcompile, fun _ _ _ hstart hreach => compiled_control hcompile hstart hreach⟩

end Control

section Bytes

variable {cx : EmitContext} {inlineCode : String → Message → CodeTable}
  {inlineMessage : String → Message → Emitter}

/-- An item that reads one byte unconditionally. -/
def ByteItem (cx : EmitContext) (inlineCode : String → Message → CodeTable) (item : ItemCode) : Prop :=
  ∃ name order, item.2 = (emitFieldBytecode cx ⟨name, .u8, none, none, order⟩ "",
    fieldCode cx inlineCode ⟨name, .u8, none, none, order⟩ "")

/-- Each byte takes three instructions, none of which jumps, and one slot. -/
theorem byteItems_code (hcx : cx.inlineMessage = some inlineMessage) {items : List ItemCode}
    (hitems : ∀ item ∈ items, ByteItem cx inlineCode item) (last : ItemCode) (s : EmitState)
    (base : Nat) :
    (items.foldl (fun s item => item.2.1 s) s).slot = s.slot + items.length ∧
      (codeAlong (fun s item => item.2.1 s) (fun item : ItemCode => item.2.2)
          (items ++ [last]) s).targets base =
        (last.2.2 (items.foldl (fun s item => item.2.1 s) s)).targets (base + 3 * items.length) := by
  induction items generalizing s base with
  | nil => simp [codeAlong, Structured.targets]
  | cons item items ih =>
      obtain ⟨name, order, hitem⟩ := hitems item (List.mem_cons_self ..)
      have hslot : (item.2.1 s).slot = s.slot + 1 := by
        rw [hitem]
        simp [emitFieldBytecode, hcx, emitCondition, emitFieldBody, registerField, emitRead,
          EmitState.pushRead, EmitState.push, NfdlType.isRef]
      have htargets : ∀ base, (item.2.2 s).targets base = [] := by
        intro base
        rw [hitem]
        simp [fieldCode, hcx, fieldBodyCode, readCode, readThen, Structured.targets, plain,
          NfdlType.isRef]
      have hlength : (item.2.2 s).length = 3 := by
        rw [hitem]
        simp [fieldCode, hcx, fieldBodyCode, readCode, readThen, NfdlType.isRef]
      obtain ⟨hfold, hrest⟩ := ih (fun item hmem => hitems item (List.mem_cons_of_mem _ hmem))
        (item.2.1 s) (base + 3)
      constructor
      · rw [List.foldl_cons, hfold, hslot, List.length_cons]
        omega
      · rw [List.cons_append, codeAlong, Structured.targets, htargets, hlength, hrest,
          List.foldl_cons, List.length_cons, List.nil_append]
        congr 1
        omega

/-- The message of `bytesThenOptional`. -/
def bytesMessage (n : Nat) : Message where
  name := "M"
  fields := (List.range n).map (fun i => ⟨"f" ++ toString i, .u8, none, none, i⟩) ++
    [⟨"last", .u8, none, some (.int 1), n⟩]
  lets := []
  loops := []
  validates := []
  matches_ := []

/-- `n` bytes, followed by one that is read on a condition. -/
def bytesThenOptional (n : Nat) : Protocol where
  name := "P"
  endian := "big"
  messages := [bytesMessage n]
  binds := []

theorem bytesThenOptional_root (n : Nat) : rootMessageIndex (bytesThenOptional n) = 0 := by
  have hrefs : collectMsgRefs (bytesMessage n) = [] := by
    simp [collectMsgRefs, bytesMessage, fieldsRefs, loopsRefs, matchesRefs, typeRefs,
      List.flatMap_eq_nil_iff]
  simp [rootMessageIndex, bytesThenOptional, hrefs]

/-- The items of the message are in order already. -/
theorem bytesMessage_items (cx : EmitContext) (inlineCode : String → Message → CodeTable) (n : Nat) :
    ∃ items last, (∀ item ∈ items, ByteItem cx inlineCode item) ∧ items.length = n ∧
      last.2 = (emitFieldBytecode cx ⟨"last", .u8, none, some (.int 1), n⟩ "",
        fieldCode cx inlineCode ⟨"last", .u8, none, some (.int 1), n⟩ "") ∧
      (bodyCodes cx inlineCode "" (bytesMessage n).fields [] [] []
        (matchCodes cx inlineCode "" [])).insertionSort (fun a b => a.1 ≤ b.1) = items ++ [last] := by
  let item : Field → ItemCode := fun f =>
    (f.order, emitFieldBytecode cx f "", fieldCode cx inlineCode f "")
  refine ⟨(List.range n).map fun i => item ⟨"f" ++ toString i, .u8, none, none, i⟩,
    item ⟨"last", .u8, none, some (.int 1), n⟩, ?_, by simp, rfl, ?_⟩
  · intro it hit
    obtain ⟨i, -, rfl⟩ := List.mem_map.mp hit
    exact ⟨_, _, rfl⟩
  · have hbody : bodyCodes cx inlineCode "" (bytesMessage n).fields [] [] []
        (matchCodes cx inlineCode "" []) = (List.range n).map
          (fun i => item ⟨"f" ++ toString i, .u8, none, none, i⟩) ++
            [item ⟨"last", .u8, none, some (.int 1), n⟩] := by
      simp [bodyCodes, bytesMessage, matchCodes, item, Function.comp_def]
    rw [hbody]
    refine List.Pairwise.insertionSort_eq (List.pairwise_append.mpr ⟨?_, by simp, ?_⟩)
    · refine List.pairwise_map.mpr (List.pairwise_lt_range.imp fun h => ?_)
      exact Nat.le_of_lt h
    · intro a ha b hb
      obtain ⟨i, hi, rfl⟩ := List.mem_map.mp ha
      rw [List.mem_singleton.mp hb]
      exact Nat.le_of_lt (List.mem_range.mp hi)

/-- The compiler's context for the message, and the code of messages it inlines. -/
def bytesContext (n : Nat) : EmitContext :=
  ⟨[bytesMessage n], currentOffsetSlot, "big" == "little",
    some (messageEmitter [bytesMessage n] currentOffsetSlot ("big" == "little") maxRefDepth)⟩

/-- The only jump of the code skips the last byte. -/
theorem bytesThenOptional_targets (n : Nat) :
    (protocolCode (bytesThenOptional n)).targets 0 = [3 * n + 6] := by
  obtain ⟨items, last, hitems, hlen, hlast, hsorted⟩ := bytesMessage_items (bytesContext n)
    (messageCode [bytesMessage n] currentOffsetSlot ("big" == "little") maxRefDepth) n
  have hroot : ∀ s, messageCode [bytesMessage n] currentOffsetSlot ("big" == "little")
      (maxRefDepth + 1) "" (bytesMessage n) s =
        codeAlong (fun s item => item.2.1 s) (fun item : ItemCode => item.2.2)
          (items ++ [last]) s := by
    intro s
    rw [← hsorted]
    rfl
  unfold protocolCode
  rw [bytesThenOptional_root]
  simp only [bytesThenOptional, List.getElem?_cons_zero, hroot]
  simp only [Structured.targets, plain, (byteItems_code rfl hitems last _ _).2, hlast, hlen]
  simp [fieldCode, bytesContext, fieldBodyCode, readCode, readThen, EmitState.exprCode, exprCode,
    Structured.targets, NfdlType.isRef, plain]
  omega

theorem bytesThenOptional_slot (n : Nat) : (emitProtocol (bytesThenOptional n)).slot = n + 3 := by
  obtain ⟨items, last, hitems, hlen, hlast, hsorted⟩ := bytesMessage_items (bytesContext n)
    (messageCode [bytesMessage n] currentOffsetSlot ("big" == "little") maxRefDepth) n
  have hroot : ∀ s, messageEmitter [bytesMessage n] currentOffsetSlot ("big" == "little")
      (maxRefDepth + 1) "" (bytesMessage n) s =
        (items ++ [last]).foldl (fun s item => item.2.1 s) s := by
    intro s
    rw [← hsorted, ← emitItems_emitters, bodyCodes_emitters, matchCodes_emitters]
    rfl
  unfold emitProtocol
  rw [bytesThenOptional_root]
  simp only [bytesThenOptional, List.getElem?_cons_zero, hroot, List.foldl_append, List.foldl_cons,
    List.foldl_nil, hlast]
  simp [emitFieldBytecode, bytesContext, emitCondition, emitFieldBody, registerField, emitRead,
    EmitState.pushRead, EmitState.push, NfdlType.isRef, EmitState.emitExpr,
    emitExprToSlot, EmitState.landHere]
  rw [(byteItems_code rfl hitems last _ 0).1, hlen, Nat.add_comm]

/-- The message compiles as long as its slots fit. -/
theorem bytesThenOptional_compiles {n : Nat} (h : n + 3 ≤ u16Max) :
    ∃ program fieldMap, protocolToBytecodeWithMap (bytesThenOptional n) = some (program, fieldMap) := by
  unfold protocolToBytecodeWithMap
  dsimp only
  rw [bytesThenOptional_slot, if_pos h]
  exact ⟨_, _, rfl⟩

theorem compiled_wellFormed_iff_threeBytes : ∃ program fieldMap,
    protocolToBytecodeWithMap (bytesThenOptional 2) = some (program, fieldMap) ∧
      WellFormedProgram (bytesThenOptional 2) program := by
  obtain ⟨program, fieldMap, hcompile⟩ := bytesThenOptional_compiles (n := 2) (by decide)
  refine ⟨program, fieldMap, hcompile, (compiled_wellFormed_iff hcompile).mpr ?_⟩
  rw [bytesThenOptional_targets]
  decide

/-- Behind 21845 bytes the skip of the last one is meant for address 65541, which
does not fit. -/
theorem longMessage_truncates : ∃ program fieldMap,
    protocolToBytecodeWithMap (bytesThenOptional 21845) = some (program, fieldMap) ∧
      (protocolCode (bytesThenOptional 21845)).targets 0 = [65541] ∧
      program.instructions ≠ (protocolCode (bytesThenOptional 21845)).intended 0 ∧
      ¬ WellFormedProgram (bytesThenOptional 21845) program := by
  obtain ⟨program, fieldMap, hcompile⟩ := bytesThenOptional_compiles (n := 21845) (by decide)
  have htargets := bytesThenOptional_targets 21845
  have hnot : program.instructions ≠ (protocolCode (bytesThenOptional 21845)).intended 0 := by
    rw [compiled_instructions hcompile]
    intro h
    have hexact := (Structured.assemble_eq_iff _ 0).mp h 65541 (by rw [htargets]; decide)
    exact absurd hexact (by decide)
  exact ⟨program, fieldMap, hcompile, htargets, hnot, fun h => hnot h.targets⟩

end Bytes

end NFdl
