import NFdl.Runtime.CarryFold
import NFdl.Runtime.EmitCode
import Mathlib.Data.List.Induction

/-!
# The table of a loop

The compiler gives the carries of a loop their slots one after another, each the
result slot of its initialiser. `CarriesDisciplined` says when every carry that
is assigned then has a slot of its own, throughout the loop.
-/

namespace NFdl

/-- The context of a message body with `remaining` levels of inlining below it. -/
def compileContext (messages : List Message) (littleEndian : Bool) (remaining : Nat) :
    EmitContext where
  messages := messages
  currentOffsetSlot := currentOffsetSlot
  littleEndian := littleEndian
  inlineMessage := match remaining with
    | 0 => none
    | remaining + 1 => some (messageEmitter messages currentOffsetSlot littleEndian remaining)

theorem compileContext_inlines (messages : List Message) (littleEndian : Bool) (remaining : Nat) :
    InlinesBlocks (compileContext messages littleEndian remaining) := by
  intro inlineMessage hinline
  cases remaining with
  | zero => cases hinline
  | succ remaining =>
      obtain rfl := Option.some.inj hinline
      exact messageEmitter_emits messages currentOffsetSlot littleEndian remaining

section States

variable (cx : EmitContext) (loopPrefix : String)

/-- The compiler's state after one carry. -/
def carryState (s : EmitState) (carry : Carry) : EmitState :=
  (emitCarry cx loopPrefix (∅, s) carry).2

/-- The compiler's state after some carries. -/
def initState (carries : List Carry) (s : EmitState) : EmitState :=
  carries.foldl (carryState cx loopPrefix) s

/-- The compiler's state after the condition of a loop, whose exit jump comes next. -/
def condState (lp : Loop) (s : EmitState) : EmitState :=
  ((initState cx loopPrefix lp.carries s).emitExpr cx lp.condition).2

/-- The slot of the condition's value. -/
def condSlot (lp : Loop) (s : EmitState) : Nat :=
  ((initState cx loopPrefix lp.carries s).emitExpr cx lp.condition).1

/-- The compiler's state after the body, when the `next` statements follow. -/
def bodyState (lp : Loop) (s : EmitState) : EmitState :=
  lp.body.foldl (fun s field => emitFieldBytecode cx field loopPrefix s)
    ((condState cx loopPrefix lp s).push (.jumpIfZero (condSlot cx loopPrefix lp s) 0))

/-- The compiler's state after the `next` statements, when the loop is closed. -/
def nextState (lp : Loop) (s : EmitState) : EmitState :=
  lp.nexts.foldl (emitNext cx loopPrefix) (bodyState cx loopPrefix lp s)

end States

/-- The names of some carries. -/
def carriesKeys (loopPrefix : String) (carries : List Carry) : List String :=
  carries.flatMap fun carry => carryKeys loopPrefix carry.name

/-- The names under which a field of the body is registered. -/
def fieldNames (loopPrefix : String) (field : Field) : List String :=
  [field.name, joinName loopPrefix field.name]

/-- Some `next` statement assigns the carry. -/
def Loop.Assigns (lp : Loop) (name : String) : Prop := ∃ nxt ∈ lp.nexts, nxt.name = name

/-- When the compiled carries of a loop behave like variables of their own: the
condition on the loop and on the table it is compiled in. -/
structure CarriesDisciplined (cx : EmitContext) (loopPrefix : String) (lp : Loop) (s : EmitState) :
    Prop where
  below : SlotsBelow s.varSlots cx.currentOffsetSlot s.slot
  keys_nodup : (carriesKeys loopPrefix lp.carries).Nodup
  inits_kept : ∀ before carry after, lp.carries = before ++ carry :: after →
    carry.init.OperandsKept (initState cx loopPrefix before s).varSlots ∧
      carry.init.Reserves (initState cx loopPrefix before s).varSlots
  -- A known name or dotted reference alone needs no code and has no slot of its own.
  inits_own : ∀ before carry after, lp.carries = before ++ carry :: after →
    lp.Assigns carry.name → codeLength (initState cx loopPrefix before s).varSlots carry.init ≠ 0
  inits_outer : ∀ before carry after, lp.carries = before ++ carry :: after →
    ∀ x ∈ carry.init.refs (initState cx loopPrefix before s).varSlots,
      x ∉ carriesKeys loopPrefix before
  body_names : ∀ field ∈ lp.body, ∀ x ∈ fieldNames loopPrefix field,
    x ∉ carriesKeys loopPrefix lp.carries
  body_below : SlotsBelow (bodyState cx loopPrefix lp s).varSlots cx.currentOffsetSlot
    (bodyState cx loopPrefix lp s).slot
  nexts_carry : ∀ nxt ∈ lp.nexts, ∃ carry ∈ lp.carries, carry.name = nxt.name
  nexts_kept : ∀ nxt ∈ lp.nexts, nxt.value.OperandsKept (bodyState cx loopPrefix lp s).varSlots
  nexts_independent : lp.nexts.Pairwise fun earlier later =>
    ∀ x ∈ carryKeys loopPrefix earlier.name,
      x ∉ later.value.refs (bodyState cx loopPrefix lp s).varSlots

section Table

variable {cx : EmitContext} {loopPrefix : String} {lp : Loop} {s t : EmitState}

@[simp] theorem mem_carryKeys {loopPrefix name x : String} :
    x ∈ carryKeys loopPrefix name ↔ x = loopPrefix ++ "." ++ name ∨ x = name := by
  simp [carryKeys]

theorem mem_carriesKeys {loopPrefix x : String} {carries : List Carry} :
    x ∈ carriesKeys loopPrefix carries ↔
      ∃ carry ∈ carries, x ∈ carryKeys loopPrefix carry.name := by
  simp only [carriesKeys, List.mem_flatMap]

theorem carriesKeys_append (loopPrefix : String) (carries carries' : List Carry) :
    carriesKeys loopPrefix (carries ++ carries') =
      carriesKeys loopPrefix carries ++ carriesKeys loopPrefix carries' :=
  List.flatMap_append

theorem initState_snoc (cx : EmitContext) (loopPrefix : String) (before : List Carry) (carry : Carry)
    (s : EmitState) : initState cx loopPrefix (before ++ [carry]) s =
      carryState cx loopPrefix (initState cx loopPrefix before s) carry := by
  unfold initState
  rw [List.foldl_append]
  rfl

theorem carryState_slot (cx : EmitContext) (loopPrefix : String) (carry : Carry) (t : EmitState) :
    (carryState cx loopPrefix t carry).slot = t.slot + slotCount t.varSlots carry.init := by
  simp only [carryState, emitCarry, EmitState.emitExpr, emitExprToSlot_eq]

theorem carryState_varSlots (cx : EmitContext) (loopPrefix : String) (carry : Carry) (t : EmitState) :
    (carryState cx loopPrefix t carry).varSlots =
      (t.varSlots.insert (loopPrefix ++ "." ++ carry.name)
        (resultSlot t.varSlots cx.currentOffsetSlot t.slot carry.init)).insert carry.name
        (resultSlot t.varSlots cx.currentOffsetSlot t.slot carry.init) := by
  simp only [carryState, emitCarry, EmitState.emitExpr, emitExprToSlot_eq]

/-- A carry is registered under its two names and changes no other. -/
theorem carryState_lookup (cx : EmitContext) (loopPrefix : String) (carry : Carry) (t : EmitState)
    (x : String) : (carryState cx loopPrefix t carry).varSlots.lookup x =
      if x ∈ carryKeys loopPrefix carry.name then
        some (resultSlot t.varSlots cx.currentOffsetSlot t.slot carry.init)
      else t.varSlots.lookup x := by
  rw [carryState_varSlots]
  by_cases hname : x = carry.name
  · subst hname
    simp
  · rw [AList.lookup_insert_ne hname]
    by_cases hfull : x = loopPrefix ++ "." ++ carry.name
    · subst hfull
      simp
    · rw [AList.lookup_insert_ne hfull, if_neg (by simp [hname, hfull])]

/-- The table while carries are registered: outer names are as before, and every
assigned carry has a slot that no other name has. -/
structure InitTable (cx : EmitContext) (loopPrefix : String) (lp : Loop) (s : EmitState)
    (before : List Carry) (t : EmitState) : Prop where
  slot_le : s.slot ≤ t.slot
  below : SlotsBelow t.varSlots cx.currentOffsetSlot t.slot
  outer : ∀ x, x ∉ carriesKeys loopPrefix before → t.varSlots.lookup x = s.varSlots.lookup x
  known : ∀ carry ∈ before, ∃ slot, ∀ x ∈ carryKeys loopPrefix carry.name,
    t.varSlots.lookup x = some slot
  own : ∀ carry ∈ before, lp.Assigns carry.name → ∃ slot, s.slot ≤ slot ∧
    (∀ x ∈ carryKeys loopPrefix carry.name, t.varSlots.lookup x = some slot) ∧
    ∀ x slot', t.varSlots.lookup x = some slot' → x ∉ carryKeys loopPrefix carry.name →
      slot' ≠ slot

theorem InitTable.start (h : SlotsBelow s.varSlots cx.currentOffsetSlot s.slot) :
    InitTable cx loopPrefix lp s [] s where
  slot_le := Nat.le_refl _
  below := h
  outer _ _ := rfl
  known carry hmem := by simp at hmem
  own carry hmem := by simp at hmem

/-- The result slot of an initialiser is new, or it is the slot of an outer name
or of the offset. -/
theorem initSlot_cases (h : CarriesDisciplined cx loopPrefix lp s) {before after : List Carry}
    {carry : Carry} (hsplit : lp.carries = before ++ carry :: after)
    (ht : InitTable cx loopPrefix lp s before (initState cx loopPrefix before s)) :
    (initState cx loopPrefix before s).slot ≤
        resultSlot (initState cx loopPrefix before s).varSlots cx.currentOffsetSlot
          (initState cx loopPrefix before s).slot carry.init ∨
      ¬ lp.Assigns carry.name ∧
        resultSlot (initState cx loopPrefix before s).varSlots cx.currentOffsetSlot
          (initState cx loopPrefix before s).slot carry.init < s.slot := by
  by_cases hzero : codeLength (initState cx loopPrefix before s).varSlots carry.init = 0
  · refine .inr ⟨fun hassigned => h.inits_own before carry after hsplit hassigned hzero, ?_⟩
    obtain hoffset | ⟨x, hx, hslot⟩ := resultSlot_of_reference hzero
    · rw [hoffset]
      exact h.below.offset
    · rw [ht.outer x (h.inits_outer before carry after hsplit x hx)] at hslot
      exact h.below.vars x _ hslot
  · exact .inl (le_resultSlot hzero)

theorem keys_disjoint (h : CarriesDisciplined cx loopPrefix lp s) {before after : List Carry}
    {carry : Carry} (hsplit : lp.carries = before ++ carry :: after) {x : String}
    (hx : x ∈ carryKeys loopPrefix carry.name) : x ∉ carriesKeys loopPrefix before := by
  have hnodup := h.keys_nodup
  rw [hsplit, carriesKeys_append] at hnodup
  intro hbefore
  have hmem : x ∈ carriesKeys loopPrefix (carry :: after) :=
    mem_carriesKeys.mpr ⟨carry, List.mem_cons_self .., hx⟩
  exact (List.nodup_append.mp hnodup).2.2 x hbefore x hmem rfl

theorem InitTable.step (h : CarriesDisciplined cx loopPrefix lp s) {before after : List Carry}
    {carry : Carry} (hsplit : lp.carries = before ++ carry :: after)
    (ht : InitTable cx loopPrefix lp s before (initState cx loopPrefix before s)) :
    InitTable cx loopPrefix lp s (before ++ [carry])
      (initState cx loopPrefix (before ++ [carry]) s) := by
  have hcases := initSlot_cases h hsplit ht
  have hlt := resultSlot_lt (ht.below.asks carry.init) (h.inits_kept before carry after hsplit).2
  rw [initState_snoc]
  generalize initState cx loopPrefix before s = t at *
  have hslot := carryState_slot cx loopPrefix carry t
  have hlookup := carryState_lookup cx loopPrefix carry t
  have hkeep : ∀ other ∈ before, ∀ x ∈ carryKeys loopPrefix other.name,
      (carryState cx loopPrefix t carry).varSlots.lookup x = t.varSlots.lookup x := by
    intro other hmem x hx
    refine (hlookup x).trans (if_neg fun hcarry => ?_)
    exact keys_disjoint h hsplit hcarry (mem_carriesKeys.mpr ⟨other, hmem, hx⟩)
  refine ⟨Nat.le_trans ht.slot_le (by omega), ?_, ?_, ?_, ?_⟩
  · rw [carryState_varSlots, hslot]
    exact ((ht.below.mono (Nat.le_add_right ..)).insert _ hlt).insert _ hlt
  · intro x hx
    rw [carriesKeys_append, List.mem_append, not_or] at hx
    rw [hlookup, if_neg fun hcarry => hx.2 (mem_carriesKeys.mpr ⟨carry, by simp, hcarry⟩)]
    exact ht.outer x hx.1
  · intro other hmem
    obtain hmem | hmem := List.mem_append.mp hmem
    · obtain ⟨slot, hslot⟩ := ht.known other hmem
      exact ⟨slot, fun x hx => (hkeep other hmem x hx).trans (hslot x hx)⟩
    · rw [List.mem_singleton.mp hmem]
      exact ⟨_, fun x hx => (hlookup x).trans (if_pos hx)⟩
  · intro other hmem hassigned
    obtain hmem | hmem := List.mem_append.mp hmem
    · obtain ⟨slot, hle, hslot, hother⟩ := ht.own other hmem hassigned
      refine ⟨slot, hle, fun x hx => (hkeep other hmem x hx).trans (hslot x hx), ?_⟩
      intro x slot' hx hne
      rw [hlookup] at hx
      split at hx
      · -- The new slot differs from the slots given before.
        have hbelow := ht.below.vars _ _ (hslot other.name (by simp))
        obtain rfl := Option.some.inj hx
        omega
      · exact hother x slot' hx hne
    · obtain rfl := List.mem_singleton.mp hmem
      have hnew := hcases.resolve_right fun hold => hold.1 hassigned
      refine ⟨_, Nat.le_trans ht.slot_le hnew, fun x hx => (hlookup x).trans (if_pos hx), ?_⟩
      intro x slot' hx hne
      rw [hlookup, if_neg hne] at hx
      have hbelow := ht.below.vars x slot' hx
      omega

theorem initTable (h : CarriesDisciplined cx loopPrefix lp s) (before after : List Carry)
    (hsplit : lp.carries = before ++ after) :
    InitTable cx loopPrefix lp s before (initState cx loopPrefix before s) := by
  induction before using List.reverseRecOn generalizing after with
  | nil => exact .start h.below
  | append_singleton before carry ih =>
      rw [List.append_assoc, List.singleton_append] at hsplit
      exact .step h hsplit (ih _ hsplit)

end Table

section Body

variable {cx : EmitContext} {loopPrefix : String} {lp : Loop} {s : EmitState}

theorem emitExpr_slot_le (s : EmitState) (cx : EmitContext) (e : Expr) :
    s.slot ≤ (s.emitExpr cx e).2.slot := by
  have hemitted : Emitted [] s (s.emitExpr cx e).2 := .expr s cx e
  exact hemitted.slot_le

/-- Names that an inlined message registers are dropped again. -/
theorem emitRead_varSlots (cx : EmitContext) (inlineMessage : String → Message → Emitter)
    (field : Field) (namePrefix fullName : String) (readSlot : Nat) (s : EmitState) :
    (emitRead cx inlineMessage field namePrefix fullName readSlot s).varSlots = s.varSlots := by
  unfold emitRead
  split
  case h_6 refName _ => split <;> rfl
  all_goals rfl

theorem emitFieldBody_varSlots (cx : EmitContext) (inlineMessage : String → Message → Emitter)
    (field : Field) (namePrefix : String) (s : EmitState) :
    (emitFieldBody cx inlineMessage field namePrefix s).varSlots =
      (registerField field (joinName namePrefix field.name) s).varSlots := by
  unfold emitFieldBody
  dsimp only
  have hread := emitRead_varSlots cx inlineMessage field namePrefix
    (joinName namePrefix field.name) s.slot (registerField field (joinName namePrefix field.name) s)
  cases field.validate with
  | none =>
      dsimp only
      split
      · exact hread
      · exact hread
  | some v =>
      dsimp only
      split
      · exact hread
      · exact hread

/-- A field registers its own names only, with a new slot. -/
theorem emitField_lookup (cx : EmitContext) (field : Field) (s : EmitState) (x : String) :
    (emitFieldBytecode cx field loopPrefix s).varSlots.lookup x = s.varSlots.lookup x ∨
      x ∈ fieldNames loopPrefix field ∧ ∃ slot, s.slot ≤ slot ∧
        (emitFieldBytecode cx field loopPrefix s).varSlots.lookup x = some slot := by
  have hregister : ∀ t : EmitState, t.varSlots = s.varSlots → s.slot ≤ t.slot →
      (registerField field (joinName loopPrefix field.name) t).varSlots.lookup x =
        s.varSlots.lookup x ∨
      x ∈ fieldNames loopPrefix field ∧ ∃ slot, s.slot ≤ slot ∧
        (registerField field (joinName loopPrefix field.name) t).varSlots.lookup x = some slot := by
    intro t htable hslot
    unfold registerField fieldNames
    dsimp only
    by_cases hfull : x = joinName loopPrefix field.name
    · exact .inr ⟨by simp [hfull], t.slot, hslot, by rw [hfull, AList.lookup_insert]⟩
    · rw [AList.lookup_insert_ne hfull]
      by_cases hname : x = field.name
      · exact .inr ⟨by simp [hname], t.slot, hslot, by rw [hname, AList.lookup_insert]⟩
      · rw [AList.lookup_insert_ne hname, htable]
        exact .inl rfl
  unfold emitFieldBytecode
  split
  · exact .inl rfl
  · rename_i inlineMessage hinline
    unfold emitCondition
    cases field.conditional with
    | none =>
        dsimp only
        rw [emitFieldBody_varSlots]
        exact hregister s rfl (Nat.le_refl _)
    | some cond =>
        have hslot : s.slot ≤ (s.emitExpr cx cond).2.slot :=
          emitExpr_slot_le s cx cond
        have hbody := emitFieldBody_varSlots cx inlineMessage field loopPrefix
          ((s.emitExpr cx cond).2.push (.jumpIfZero (s.emitExpr cx cond).1 0))
        have hfield := hregister
          ((s.emitExpr cx cond).2.push (.jumpIfZero (s.emitExpr cx cond).1 0)) rfl hslot
        rw [← hbody] at hfield
        exact hfield

/-- The fields of a body register their own names only, with new slots. -/
theorem emitFields_lookup (hcx : InlinesBlocks cx) (fields : List Field) (s : EmitState)
    (x : String) :
    (fields.foldl (fun s field => emitFieldBytecode cx field loopPrefix s) s).varSlots.lookup x =
        s.varSlots.lookup x ∨
      (∃ field ∈ fields, x ∈ fieldNames loopPrefix field) ∧ ∃ slot, s.slot ≤ slot ∧
        (fields.foldl (fun s field => emitFieldBytecode cx field loopPrefix s) s).varSlots.lookup x =
          some slot := by
  induction fields generalizing s with
  | nil => exact .inl rfl
  | cons field fields ih =>
      rw [List.foldl_cons]
      have hslot := (emitField_emits hcx field loopPrefix s).slot_le
      obtain hsame | ⟨⟨field', hmem, hx⟩, slot, hle, hlookup⟩ :=
        ih (emitFieldBytecode cx field loopPrefix s)
      · obtain hfirst | ⟨hx, slot, hle, hlookup⟩ := emitField_lookup cx field s x
        · exact .inl (hsame.trans hfirst)
        · exact .inr ⟨⟨field, List.mem_cons_self .., hx⟩, slot, hle, hsame.trans hlookup⟩
      · exact .inr ⟨⟨field', List.mem_cons_of_mem _ hmem, hx⟩, slot, Nat.le_trans hslot hle,
          hlookup⟩

theorem condState_slot_le (cx : EmitContext) (loopPrefix : String) (lp : Loop) (s : EmitState) :
    (initState cx loopPrefix lp.carries s).slot ≤ (condState cx loopPrefix lp s).slot :=
  emitExpr_slot_le _ cx lp.condition

/-- The table at the `next` statements: a carry has one slot under both names, and
if it is assigned, a new one that no other name has. -/
structure LoopTable (cx : EmitContext) (loopPrefix : String) (lp : Loop) (s : EmitState) : Prop where
  same : ∀ carry ∈ lp.carries, ∀ x ∈ carryKeys loopPrefix carry.name,
    (bodyState cx loopPrefix lp s).varSlots.lookup x =
      (initState cx loopPrefix lp.carries s).varSlots.lookup x
  known : ∀ carry ∈ lp.carries, ∃ slot, ∀ x ∈ carryKeys loopPrefix carry.name,
    (bodyState cx loopPrefix lp s).varSlots.lookup x = some slot
  own : ∀ carry ∈ lp.carries, lp.Assigns carry.name → ∃ slot, s.slot ≤ slot ∧
    (∀ x ∈ carryKeys loopPrefix carry.name,
      (bodyState cx loopPrefix lp s).varSlots.lookup x = some slot) ∧
    ∀ x slot', (bodyState cx loopPrefix lp s).varSlots.lookup x = some slot' →
      x ∉ carryKeys loopPrefix carry.name → slot' ≠ slot

theorem loopTable (hcx : InlinesBlocks cx) (h : CarriesDisciplined cx loopPrefix lp s) :
    LoopTable cx loopPrefix lp s := by
  have ht := initTable h lp.carries [] (by simp)
  have hbody : ∀ x, (bodyState cx loopPrefix lp s).varSlots.lookup x =
        (initState cx loopPrefix lp.carries s).varSlots.lookup x ∨
      (∃ field ∈ lp.body, x ∈ fieldNames loopPrefix field) ∧
        ∃ slot, (initState cx loopPrefix lp.carries s).slot ≤ slot ∧
          (bodyState cx loopPrefix lp s).varSlots.lookup x = some slot := by
    intro x
    obtain hsame | ⟨hx, slot, hle, hlookup⟩ := emitFields_lookup hcx lp.body
      ((condState cx loopPrefix lp s).push (.jumpIfZero (condSlot cx loopPrefix lp s) 0)) x
    · exact .inl hsame
    · exact .inr ⟨hx, slot, Nat.le_trans (condState_slot_le cx loopPrefix lp s) hle, hlookup⟩
  have hsame : ∀ carry ∈ lp.carries, ∀ x ∈ carryKeys loopPrefix carry.name,
      (bodyState cx loopPrefix lp s).varSlots.lookup x =
        (initState cx loopPrefix lp.carries s).varSlots.lookup x := by
    intro carry hmem x hx
    obtain hsame | ⟨⟨field, hfield, hname⟩, -⟩ := hbody x
    · exact hsame
    · exact absurd (mem_carriesKeys.mpr ⟨carry, hmem, hx⟩) (h.body_names field hfield x hname)
  refine ⟨hsame, ?_, ?_⟩
  · intro carry hmem
    obtain ⟨slot, hslot⟩ := ht.known carry hmem
    exact ⟨slot, fun x hx => (hsame carry hmem x hx).trans (hslot x hx)⟩
  · intro carry hmem hassigned
    obtain ⟨slot, hle, hslot, hother⟩ := ht.own carry hmem hassigned
    refine ⟨slot, hle, fun x hx => (hsame carry hmem x hx).trans (hslot x hx), ?_⟩
    intro x slot' hx hne
    obtain hold | ⟨-, slot'', hge, hnew⟩ := hbody x
    · exact hother x slot' (hold.symm.trans hx) hne
    · have hbelow := ht.below.vars _ _ (hslot carry.name (by simp))
      obtain rfl := Option.some.inj (hnew.symm.trans hx)
      omega

end Body

end NFdl
