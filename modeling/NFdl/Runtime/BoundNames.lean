import NFdl.Runtime.Occurrence

/-!
# The names that bodies bind

Fields, lets and the carries of loops bind names, and the table of names is
threaded through all arms of a match. An emitter changes the bindings of the
names of its item only, and gives those that are no carries a new slot. Names
that an inlined message binds stay local to it.
-/

namespace NFdl

/-- Some names for each kind of item that binds any. -/
structure Naming where
  field : Field → List String
  letItem : Let → List String
  loop : Loop → List String

mutual

def matchNames (naming : Naming) : Match → List String
  | .mk _ arms _ => caseNames naming arms ++ defaultNames naming arms []

/-- The names of the arms with constants. -/
def caseNames (naming : Naming) : List MatchArm → List String
  | [] => []
  | arm :: arms =>
      if arm.case = none then caseNames naming arms else armNames naming arm ++ caseNames naming arms

/-- The names of the default arm that is seen last. -/
def defaultNames (naming : Naming) : List MatchArm → List String → List String
  | [], seen => seen
  | arm :: arms, seen =>
      if arm.case = none then defaultNames naming arms (armNames naming arm)
      else defaultNames naming arms seen

def armNames (naming : Naming) : MatchArm → List String
  | .mk _ fields lets loops _ matches_ =>
      fields.flatMap naming.field ++ lets.flatMap naming.letItem ++ loops.flatMap naming.loop ++
        matchesNames naming matches_

def matchesNames (naming : Naming) : List Match → List String
  | [] => []
  | m :: ms => matchNames naming m ++ matchesNames naming ms

end

def BodyItem.names (naming : Naming) : BodyItem → List String
  | .field f => naming.field f
  | .letItem l => naming.letItem l
  | .validate _ => []
  | .loop lp => naming.loop lp
  | .matchItem m => matchNames naming m

/-- The names of the carries of a loop, in it and behind it. -/
def loopCarryNames (loopPrefix : String) (lp : Loop) : List String :=
  carriesKeys loopPrefix lp.carries ++
    lp.carries.map fun carry => loopPrefix ++ ".carries." ++ carry.name

/-- The names that a field is registered under. Beyond the maximal depth no field is. -/
def fieldBinds (cx : EmitContext) (namePrefix : String) (field : Field) : List String :=
  if cx.inlineMessage.isSome then fieldNames namePrefix field else []

/-- The names that items bind. -/
def binding (cx : EmitContext) (namePrefix : String) : Naming where
  field := fieldBinds cx namePrefix
  letItem l := [l.name]
  loop lp := loopCarryNames (joinName namePrefix lp.name) lp ++
    lp.body.flatMap (fieldBinds cx (joinName namePrefix lp.name))

/-- The names that items bind to carries. -/
def carrying (namePrefix : String) : Naming where
  field _ := []
  letItem _ := []
  loop lp := loopCarryNames (joinName namePrefix lp.name) lp

/-- From `s` to `s'`, only `names` were bound, and those that are no carries were
bound to slots from `low` on. -/
structure NamesBound (low : Nat) (names carried : List String) (s s' : EmitState) : Prop where
  slot_le : s.slot ≤ s'.slot
  keeps : ∀ x, x ∉ names → s'.varSlots.lookup x = s.varSlots.lookup x
  binds : ∀ x ∈ names, x ∉ carried → ∃ slot, low ≤ slot ∧ s'.varSlots.lookup x = some slot

/-- What an emitter does to the names, in any state. -/
def Binds (f : Emitter) (names carried : List String) : Prop :=
  ∀ s, NamesBound s.slot names carried s (f s)

namespace NamesBound

variable {low low' : Nat} {names names' carried carried' : List String} {s s' s'' : EmitState}

theorem of_table (hslot : s.slot ≤ s'.slot) (htable : s'.varSlots = s.varSlots) :
    NamesBound low [] carried s s' :=
  ⟨hslot, fun x _ => by rw [htable], fun x hx => nomatch hx⟩

theorem refl (s : EmitState) : NamesBound low [] carried s s := of_table (Nat.le_refl _) rfl

theorem trans (h : NamesBound low names carried s s')
    (h' : NamesBound low' names' carried' s' s'') (hlow : low ≤ low') :
    NamesBound low (names ++ names') (carried ++ carried') s s'' where
  slot_le := Nat.le_trans h.slot_le h'.slot_le
  keeps x hx := by
    rw [List.mem_append, not_or] at hx
    rw [h'.keeps x hx.2, h.keeps x hx.1]
  binds x hx hcarried := by
    rw [List.mem_append, not_or] at hcarried
    by_cases hmem : x ∈ names'
    · obtain ⟨slot, hle, hslot⟩ := h'.binds x hmem hcarried.2
      exact ⟨slot, Nat.le_trans hlow hle, hslot⟩
    · rw [h'.keeps x hmem]
      exact h.binds x ((List.mem_append.mp hx).resolve_right hmem) hcarried.1

theorem congr (h : NamesBound low names carried s s') (hnames : ∀ x, x ∈ names ↔ x ∈ names')
    (hcarried : ∀ x, x ∈ carried → x ∈ carried') : NamesBound low names' carried' s s' where
  slot_le := h.slot_le
  keeps x hx := h.keeps x fun hmem => hx ((hnames x).mp hmem)
  binds x hx hc := h.binds x ((hnames x).mpr hx) fun hmem => hc (hcarried x hmem)

/-- Changing other things than the table of names afterwards. -/
theorem tables (h : NamesBound low names carried s s') (hslot : s'.slot ≤ s''.slot)
    (htable : s''.varSlots = s'.varSlots) : NamesBound low names carried s s'' where
  slot_le := Nat.le_trans h.slot_le hslot
  keeps x hx := by rw [htable, h.keeps x hx]
  binds x hx hc := by
    rw [htable]
    exact h.binds x hx hc

/-- A name whose slot lies below the new ones keeps its binding exactly if it is not bound. -/
theorem lookup_iff (h : NamesBound low names carried s s') {x : String} (hx : x ∉ carried)
    (hold : ∀ slot, s.varSlots.lookup x = some slot → slot < low) :
    s'.varSlots.lookup x = s.varSlots.lookup x ↔ x ∉ names := by
  refine ⟨fun heq hmem => ?_, h.keeps x⟩
  obtain ⟨slot, hle, hslot⟩ := h.binds x hmem hx
  have hlt := hold slot (heq ▸ hslot)
  omega

end NamesBound

theorem Binds.foldl {α : Type*} {f : EmitState → α → EmitState} {names carried : α → List String}
    {as : List α} (h : ∀ a ∈ as, Binds (f · a) (names a) (carried a)) :
    Binds (as.foldl f ·) (as.flatMap names) (as.flatMap carried) := by
  intro s
  induction as generalizing s with
  | nil => exact .refl s
  | cons a as ih =>
      have hfirst := h a (List.mem_cons_self ..) s
      exact hfirst.trans (ih (fun a' hmem => h a' (List.mem_cons_of_mem _ hmem)) (f s a))
        hfirst.slot_le

section Items

variable {cx : EmitContext} {namePrefix : String}

/-- A field is registered with the slot that was free behind its condition. -/
theorem emitField_binds (hcx : InlinesBlocks cx) (namePrefix : String) (field : Field) :
    Binds (emitFieldBytecode cx field namePrefix) (fieldBinds cx namePrefix field) [] := by
  intro s
  have hslot := (emitField_emits hcx field namePrefix s).slot_le
  unfold fieldBinds
  cases hinline : cx.inlineMessage with
  | none =>
      refine .of_table hslot ?_
      unfold emitFieldBytecode
      rw [hinline]
      rfl
  | some inlineMessage =>
      have hcond : s.slot ≤ (emitCondition cx field s).2.slot ∧
          (emitCondition cx field s).2.varSlots = s.varSlots := by
        unfold emitCondition
        cases field.conditional with
        | none => exact ⟨Nat.le_refl _, rfl⟩
        | some cond => exact ⟨emitExpr_slot_le s cx cond, rfl⟩
      have htable : (emitFieldBytecode cx field namePrefix s).varSlots =
          (registerField field (joinName namePrefix field.name)
            (emitCondition cx field s).2).varSlots := by
        rw [← emitFieldBody_varSlots cx inlineMessage field namePrefix]
        unfold emitFieldBytecode
        rw [hinline]
        dsimp only
        cases (emitCondition cx field s).1 <;> rfl
      have hlookup : ∀ x, (emitFieldBytecode cx field namePrefix s).varSlots.lookup x =
          if x ∈ fieldNames namePrefix field then some (emitCondition cx field s).2.slot
          else s.varSlots.lookup x := by
        intro x
        rw [htable, ← hcond.2]
        unfold registerField fieldNames
        by_cases hfull : x = joinName namePrefix field.name
        · rw [hfull, AList.lookup_insert, if_pos (by simp)]
        · rw [AList.lookup_insert_ne hfull]
          by_cases hname : x = field.name
          · rw [hname, AList.lookup_insert, if_pos (by simp)]
          · rw [AList.lookup_insert_ne hname, if_neg (by simp [hfull, hname])]
      refine ⟨hslot, fun x hx => (hlookup x).trans (if_neg hx), fun x hx _ => ?_⟩
      exact ⟨_, hcond.1, (hlookup x).trans (if_pos hx)⟩

theorem emitLet_binds (cx : EmitContext) (namePrefix : String) (l : Let) :
    Binds (emitLet cx namePrefix l) [l.name] [] := by
  intro s
  have hslot := emitExpr_slot_le s cx l.value
  refine ⟨Nat.le_succ_of_le hslot, fun x hx => ?_, fun x hx _ => ⟨_, hslot, ?_⟩⟩
  · exact AList.lookup_insert_ne fun heq => hx (List.mem_singleton.mpr heq)
  · rw [List.mem_singleton.mp hx]
    exact AList.lookup_insert _

theorem emitValidate_binds (cx : EmitContext) (v : Validate) :
    Binds (emitValidate cx v) [] [] := fun s =>
  .of_table (emitExpr_slot_le s cx v.expr) rfl

/-- The carries are bound before the loop. -/
theorem initState_binds (cx : EmitContext) (loopPrefix : String) (carries : List Carry)
    (s : EmitState) : NamesBound s.slot (carriesKeys loopPrefix carries)
      (carriesKeys loopPrefix carries) s (initState cx loopPrefix carries s) := by
  refine ⟨(initState_emitted cx loopPrefix carries s).slot_le, ?_, fun x hx hc => absurd hx hc⟩
  induction carries generalizing s with
  | nil => exact fun x _ => rfl
  | cons carry carries ih =>
      intro x hx
      have hx' : x ∉ carriesKeys loopPrefix carries ∧ x ∉ carryKeys loopPrefix carry.name := by
        simpa [carriesKeys, not_or, and_comm] using hx
      exact (ih (carryState cx loopPrefix s carry) x hx'.1).trans
        ((carryState_lookup cx loopPrefix carry s x).trans (if_neg hx'.2))

/-- The final values of the carries are bound behind the loop. -/
theorem registerCarries_binds (loopPrefix : String) (carrySlots : SlotMap) (carries : List Carry)
    (s : EmitState) :
    NamesBound s.slot (carries.map fun carry => loopPrefix ++ ".carries." ++ carry.name)
      (carries.map fun carry => loopPrefix ++ ".carries." ++ carry.name) s
      (carries.foldl (registerCarry loopPrefix carrySlots) s) := by
  refine ⟨Nat.le_of_eq (registerCarries_slot loopPrefix carrySlots carries s).symm, ?_,
    fun x hx hc => absurd hx hc⟩
  induction carries generalizing s with
  | nil => exact fun x _ => rfl
  | cons carry carries ih =>
      intro x hx
      rw [List.map_cons, List.mem_cons, not_or] at hx
      exact (ih (registerCarry loopPrefix carrySlots s carry) x hx.2).trans
        (AList.lookup_insert_ne hx.1)

theorem emitLoop_binds (hcx : InlinesBlocks cx) (namePrefix : String) (lp : Loop) :
    Binds (emitLoop cx namePrefix lp) ((binding cx namePrefix).loop lp)
      ((carrying namePrefix).loop lp) := by
  intro s
  let loopPrefix := joinName namePrefix lp.name
  let acc := lp.carries.foldl (emitCarry cx loopPrefix) (∅, s)
  let start := (acc.2.emitExpr cx lp.condition).2.push
    (.jumpIfZero (acc.2.emitExpr cx lp.condition).1 0)
  let body := lp.body.foldl (fun s field => emitFieldBytecode cx field loopPrefix s) start
  let nexts := lp.nexts.foldl (emitNext cx loopPrefix) body
  let closed := (nexts.push (.jump (asU16 acc.2.instructions.length))).landHere
    (acc.2.emitExpr cx lp.condition).2.instructions.length
  have hacc : acc.2 = initState cx loopPrefix lp.carries s := emitCarries_state ..
  have hinits := initState_binds cx loopPrefix lp.carries s
  rw [← hacc] at hinits
  have hstart : NamesBound s.slot _ _ s start :=
    hinits.tables (emitExpr_slot_le acc.2 cx lp.condition) rfl
  have hbody : NamesBound start.slot _ _ start body :=
    Binds.foldl (fun field _ => emitField_binds hcx loopPrefix field) start
  have hclosed : NamesBound start.slot _ _ start closed :=
    hbody.tables (emitNexts_emitted cx loopPrefix lp.nexts body).slot_le
      (emitNexts_varSlots cx loopPrefix lp.nexts body)
  have hregister := registerCarries_binds loopPrefix acc.1 lp.carries closed
  have hall := (hstart.trans hclosed hstart.slot_le).trans hregister
    (Nat.le_trans hstart.slot_le hclosed.slot_le)
  refine hall.congr (fun x => ?_) fun x hx => ?_
  · simp only [binding, loopCarryNames, List.mem_append]
    tauto
  · simp only [carrying, loopCarryNames, List.mem_append, List.mem_flatMap, List.not_mem_nil,
      and_false, exists_false, or_false] at hx ⊢
    tauto

/-- The names of a body are those of its items. -/
theorem mem_armNames (naming : Naming) (arm : MatchArm) (x : String) :
    x ∈ armNames naming arm ↔ x ∈ arm.items.flatMap (BodyItem.names naming) := by
  have hmatches : ∀ ms : List Match, matchesNames naming ms = ms.flatMap (matchNames naming) := by
    intro ms
    induction ms with
    | nil => simp [matchesNames]
    | cons m ms ih => rw [matchesNames, ih, List.flatMap_cons]
  have hsorted : x ∈ arm.items.flatMap (BodyItem.names naming) ↔
      x ∈ arm.listed.flatMap (BodyItem.names naming) := by
    simp only [List.mem_flatMap]
    refine exists_congr fun item => and_congr_left fun _ => ?_
    exact (List.perm_insertionSort _ _).mem_iff
  rw [hsorted]
  obtain ⟨case, fields, lets, loops, validates, matches_⟩ := arm
  simp only [armNames, hmatches, MatchArm.listed, List.flatMap_append, List.flatMap_map,
    BodyItem.names, List.mem_append, List.mem_flatMap, List.not_mem_nil, and_false, exists_false,
    or_false]

section Arms

variable {tagSlot : Nat} {naming carried : Naming}

/-- The table and the counter behind an arm with a constant are those behind its body. -/
theorem afterArm_case {arm : MatchArm} {cv : Int64} (h : arm.case = some cv) (s : EmitState) :
    (afterArm cx namePrefix tagSlot s arm).varSlots =
        ((armEmitter cx namePrefix arm).2 (armBodyStart tagSlot cv s)).varSlots ∧
      (afterArm cx namePrefix tagSlot s arm).slot =
        ((armEmitter cx namePrefix arm).2 (armBodyStart tagSlot cv s)).slot := by
  unfold afterArm
  rw [armEmitter_eq h]
  exact ⟨rfl, rfl⟩

/-- The body of an arm with a constant binds names to slots behind those of its test. -/
theorem afterArm_binds {arm : MatchArm} {names carriedNames : List String}
    (h : Binds (armEmitter cx namePrefix arm).2 names carriedNames) (hcase : arm.case ≠ none)
    (tagSlot : Nat) (s : EmitState) :
    NamesBound (s.slot + 2) names carriedNames s (afterArm cx namePrefix tagSlot s arm) ∧
      s.slot + 2 ≤ (afterArm cx namePrefix tagSlot s arm).slot := by
  obtain ⟨cv, hcv⟩ := Option.ne_none_iff_exists'.mp hcase
  obtain ⟨htable, hslot⟩ := afterArm_case hcv s
  have hbody := h (armBodyStart tagSlot cv s)
  have hle : s.slot + 2 ≤ (afterArm cx namePrefix tagSlot s arm).slot := by
    rw [hslot]
    exact hbody.slot_le
  refine ⟨⟨Nat.le_trans (Nat.le_add_right _ 2) hle, ?_, ?_⟩, hle⟩
  · rw [htable]
    exact hbody.keeps
  · rw [htable]
    exact hbody.binds

theorem afterArms_binds {arms : List MatchArm} (h : ∀ arm ∈ arms, Binds
    (armEmitter cx namePrefix arm).2 (armNames naming arm) (armNames carried arm)) (tagSlot : Nat)
    (s : EmitState) : NamesBound (s.slot + 2) (caseNames naming arms) (caseNames carried arms) s
      (afterArms cx namePrefix tagSlot arms s) := by
  induction arms generalizing s with
  | nil =>
      rw [caseNames]
      exact .refl s
  | cons arm arms ih =>
      have hrest := fun s => ih (fun arm' hmem => h arm' (List.mem_cons_of_mem _ hmem)) s
      rw [caseNames, caseNames, afterArms_cons]
      split
      · rename_i hcase
        rw [afterArm_default hcase]
        exact hrest s
      · rename_i hcase
        obtain ⟨harm, -⟩ := afterArm_binds (h arm (List.mem_cons_self ..)) hcase tagSlot s
        exact harm.trans (hrest _) (Nat.add_le_add_right harm.slot_le 2)

theorem afterArms_slot_le {arms : List MatchArm} (h : ∀ arm ∈ arms, Binds
    (armEmitter cx namePrefix arm).2 (armNames naming arm) (armNames carried arm))
    (hcase : ∃ arm ∈ arms, arm.case ≠ none) (tagSlot : Nat) (s : EmitState) :
    s.slot + 2 ≤ (afterArms cx namePrefix tagSlot arms s).slot := by
  induction arms generalizing s with
  | nil =>
      obtain ⟨arm, hmem, -⟩ := hcase
      cases hmem
  | cons arm arms ih =>
      have hrest := fun arm' hmem => h arm' (List.mem_cons_of_mem _ hmem)
      rw [afterArms_cons]
      by_cases harm : arm.case = none
      · rw [afterArm_default harm]
        refine ih hrest ?_ s
        obtain ⟨arm', hmem, hne⟩ := hcase
        obtain rfl | hmem := List.mem_cons.mp hmem
        · exact absurd harm hne
        · exact ⟨arm', hmem, hne⟩
      · obtain ⟨-, hle⟩ := afterArm_binds (h arm (List.mem_cons_self ..)) harm tagSlot s
        exact Nat.le_trans hle (afterArms_binds hrest tagSlot _).slot_le

/-- The default arm seen last binds its names behind all arms. -/
theorem finish_binds {arms : List MatchArm} (h : ∀ arm ∈ arms, Binds
    (armEmitter cx namePrefix arm).2 (armNames naming arm) (armNames carried arm))
    {acc : ArmsState} {seen seenCarried : List String}
    (hseen : ∀ body, acc.defaultArm = some body → Binds body seen seenCarried)
    (hnone : acc.defaultArm = none → seen = []) {final : ArmsState}
    (hfinal : final = (arms.map (armEmitter cx namePrefix)).foldl (emitArm tagSlot) acc) :
    NamesBound final.state.slot (defaultNames naming arms seen)
      (defaultNames carried arms seenCarried) final.state final.finish := by
  induction arms generalizing acc seen seenCarried with
  | nil =>
      subst hfinal
      rw [defaultNames, defaultNames]
      unfold ArmsState.finish
      cases hdefault : final.defaultArm with
      | some body => exact hseen body hdefault final.state
      | none =>
          rw [hnone hdefault]
          exact .refl _
  | cons arm arms ih =>
      have hrest := fun arm' hmem => h arm' (List.mem_cons_of_mem _ hmem)
      have harm := h arm (List.mem_cons_self ..)
      rw [List.map_cons, List.foldl_cons] at hfinal
      rw [defaultNames, defaultNames]
      split
      · rename_i hcase
        rw [armEmitter_eq hcase] at hfinal
        let acc' := emitArm tagSlot acc (none, (armEmitter cx namePrefix arm).2)
        have hseen' : ∀ body, acc'.defaultArm = some body →
            Binds body (armNames naming arm) (armNames carried arm) := fun body hbody =>
          Option.some.inj hbody ▸ harm
        exact ih hrest hseen' (fun hbody => absurd hbody (Option.some_ne_none _)) hfinal
      · rename_i hcase
        obtain ⟨cv, hcv⟩ := Option.ne_none_iff_exists'.mp hcase
        rw [armEmitter_eq hcv] at hfinal
        let acc' := emitArm tagSlot acc (some cv, (armEmitter cx namePrefix arm).2)
        have hseen' : ∀ body, acc'.defaultArm = some body → Binds body seen seenCarried := hseen
        exact ih hrest hseen' hnone hfinal

/-- The names that the arms of a match bind. Slots from `low` on are behind the tag
and, if an arm has a constant, behind the test of the first one. -/
theorem emitMatch_binds {arms : List MatchArm} (h : ∀ arm ∈ arms, Binds
    (armEmitter cx namePrefix arm).2 (armNames naming arm) (armNames carried arm)) (tag : Expr)
    (s : EmitState) {low : Nat} (hlow : low ≤ (s.emitExpr cx tag).2.slot + 2)
    (hafter : low ≤ (afterArms cx namePrefix (s.emitExpr cx tag).1 arms
      (s.emitExpr cx tag).2).slot) :
    NamesBound low (caseNames naming arms ++ defaultNames naming arms [])
      (caseNames carried arms ++ defaultNames carried arms []) s
      (emitMatch cx tag (armEmitters cx namePrefix arms) s) := by
  let tagged := (s.emitExpr cx tag).2
  let tagSlot := (s.emitExpr cx tag).1
  let final := (arms.map (armEmitter cx namePrefix)).foldl (emitArm tagSlot) ⟨[], none, tagged⟩
  have hstate : final.state = afterArms cx namePrefix tagSlot arms tagged := emitArms_state ..
  have hcases := afterArms_binds h tagSlot tagged
  have hnone : ∀ body, (ArmsState.mk [] none tagged).defaultArm = some body → Binds body [] [] :=
    fun body hbody => nomatch hbody
  have hfinish := finish_binds h hnone (fun _ => rfl) (rfl : final = _)
  rw [hstate] at hfinish
  have htag : NamesBound low [] [] s tagged := .of_table (emitExpr_slot_le s cx tag) rfl
  have hall := (htag.trans hcases hlow).trans hfinish hafter
  rw [armEmitters_eq_map]
  exact hall.tables (Nat.le_refl _) rfl

end Arms

/-- A body binds the names of its items. -/
theorem arm_binds {arm : MatchArm} (h : ∀ item ∈ arm.listed, Binds (item.emitter cx namePrefix)
    (item.names (binding cx namePrefix)) (item.names (carrying namePrefix))) :
    Binds (armEmitter cx namePrefix arm).2 (armNames (binding cx namePrefix) arm)
      (armNames (carrying namePrefix) arm) := by
  intro s
  have hsorted : ∀ item ∈ arm.items, item ∈ arm.listed := fun item hmem =>
    (List.perm_insertionSort _ _).mem_iff.mp hmem
  have hitems := Binds.foldl (fun item hmem => h item (hsorted item hmem)) s
  rw [armEmitter_items]
  exact hitems.congr (fun x => (mem_armNames _ arm x).symm) fun x => (mem_armNames _ arm x).mpr

mutual

theorem matchEmitter_binds (hcx : InlinesBlocks cx) (namePrefix : String) :
    ∀ m, Binds (matchEmitter cx namePrefix m) (matchNames (binding cx namePrefix) m)
      (matchNames (carrying namePrefix) m)
  | .mk tag arms _ => by
      intro s
      have harms := armEmitters_bind hcx namePrefix arms
      have htag := emitExpr_slot_le s cx tag
      unfold matchEmitter
      rw [matchNames, matchNames]
      refine emitMatch_binds harms tag s (Nat.le_add_right_of_le htag) ?_
      exact Nat.le_trans htag (afterArms_binds harms _ _).slot_le

theorem armEmitters_bind (hcx : InlinesBlocks cx) (namePrefix : String) :
    ∀ arms : List MatchArm, ∀ arm ∈ arms, Binds (armEmitter cx namePrefix arm).2
      (armNames (binding cx namePrefix) arm) (armNames (carrying namePrefix) arm)
  | [] => by simp
  | arm :: arms => List.forall_mem_cons.mpr
      ⟨armEmitter_binds hcx namePrefix arm, armEmitters_bind hcx namePrefix arms⟩

theorem armEmitter_binds (hcx : InlinesBlocks cx) (namePrefix : String) :
    ∀ arm, Binds (armEmitter cx namePrefix arm).2 (armNames (binding cx namePrefix) arm)
      (armNames (carrying namePrefix) arm)
  | .mk case fields lets loops validates matches_ => by
      refine arm_binds fun item hmem => ?_
      simp only [MatchArm.listed, List.mem_append, List.mem_map] at hmem
      obtain (((⟨f, -, rfl⟩ | ⟨l, -, rfl⟩) | ⟨v, -, rfl⟩) | ⟨lp, -, rfl⟩) | ⟨m, hmem, rfl⟩ := hmem
      · exact emitField_binds hcx namePrefix f
      · exact emitLet_binds cx namePrefix l
      · exact emitValidate_binds cx v
      · exact emitLoop_binds hcx namePrefix lp
      · exact matchItems_bind hcx namePrefix matches_ m hmem

theorem matchItems_bind (hcx : InlinesBlocks cx) (namePrefix : String) :
    ∀ ms : List Match, ∀ m ∈ ms, Binds (matchEmitter cx namePrefix m) (matchNames (binding cx namePrefix) m)
      (matchNames (carrying namePrefix) m)
  | [] => by simp
  | m :: ms => List.forall_mem_cons.mpr
      ⟨matchEmitter_binds hcx namePrefix m, matchItems_bind hcx namePrefix ms⟩

end

/-- Every item binds its names. -/
theorem item_binds (hcx : InlinesBlocks cx) (namePrefix : String) (item : BodyItem) :
    Binds (item.emitter cx namePrefix) (item.names (binding cx namePrefix))
      (item.names (carrying namePrefix)) := by
  cases item with
  | field f => exact emitField_binds hcx namePrefix f
  | letItem l => exact emitLet_binds cx namePrefix l
  | validate v => exact emitValidate_binds cx v
  | loop lp => exact emitLoop_binds hcx namePrefix lp
  | matchItem m => exact matchEmitter_binds hcx namePrefix m

end Items

end NFdl
