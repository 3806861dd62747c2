import NFdl.Runtime.Leaves
import NFdl.Runtime.Runner
import NFdl.Bytecode.Control
import Mathlib.Data.Nat.Find

/-!
# The context of a run

The context that a run builds from the field map is compared with the run
itself: which leaves it read, and which value it emitted last for each.
-/

namespace NFdl

open BytecodeVm Machine

section Run

variable (program : BytecodeProgram) (leaves : List Leaf)

/-- In state `c` the run reads a leaf called `name`. -/
def ReadsLeaf (name : String) (c : Config) : Prop :=
  ∃ instr leaf, Executes program c instr ∧ leaf ∈ leaves ∧ leaf.name = name ∧
    instr.readsInto = some leaf.slot

/-- In state `c` the run emits `v` for a leaf called `name`. -/
def EmitsLeaf (name : String) (c : Config) (v : UInt64) : Prop :=
  ∃ field leaf, Executes program c (.emitField field leaf.slot) ∧ leaf ∈ leaves ∧
    leaf.name = name ∧ c.vm.slots[leaf.slot]? = some v

/-- The last value that the run from `start` emits for a leaf called `name`. -/
def LastEmitted (start : Config) (name : String) (v : UInt64) : Prop :=
  ∃ n c, Steps (vmMove program false) n start c ∧ EmitsLeaf program leaves name c v ∧
    ∀ m c' v', n < m → Steps (vmMove program false) m start c' →
      ¬ EmitsLeaf program leaves name c' v'

/-- The context is complete and exact for the run from `start`. -/
structure ContextExact (start : Config) (ctx : Ctx) : Prop where
  complete : ∀ leaf ∈ leaves, ∀ c, Reachable (vmMove program false) start c →
    ReadsLeaf program leaves leaf.name c →
      ∃ v, LastEmitted program leaves start leaf.name v ∧ ctx.lookup leaf.name = some v
  exact : ∀ leaf ∈ leaves, (∀ c, Reachable (vmMove program false) start c →
    ¬ ReadsLeaf program leaves leaf.name c) → ctx.lookup leaf.name = none

variable (fieldMap : SlotMap)

/-- In state `c` the run reads the leaf whose slot the field map keeps under `name`. -/
def ReadsKept (name : String) (c : Config) : Prop :=
  ∃ instr leaf, Executes program c instr ∧ leaf ∈ leaves ∧ leaf.name = name ∧
    instr.readsInto = some leaf.slot ∧ fieldMap.lookup name = some leaf.slot

/-- In state `c` the run reads or emits a leaf called `name` that is not the one the
field map keeps, or writes the kept slot by other code than the leaf's read. -/
def Strays (name : String) (c : Config) : Prop :=
  ∃ instr, Executes program c instr ∧
    ((∃ leaf ∈ leaves, leaf.name = name ∧ fieldMap.lookup name ≠ some leaf.slot ∧
      (instr.readsInto = some leaf.slot ∨ ∃ field, instr = .emitField field leaf.slot)) ∨
    (∃ slot, fieldMap.lookup name = some slot ∧ instr.dest = some slot ∧
      ¬ ReadsKept program leaves fieldMap name c))

/-- After every stray step for the name of a leaf, the run reads the kept leaf of
that name again. -/
def KeepsLeaves (start : Config) : Prop :=
  ∀ leaf ∈ leaves, ∀ n c, Steps (vmMove program false) n start c →
    Strays program leaves fieldMap leaf.name c →
      ∃ m c', n < m ∧ Steps (vmMove program false) m start c' ∧
        ReadsKept program leaves fieldMap leaf.name c'

end Run

/-- What the context has under a name, before the offset is added. -/
theorem lookup_touchedFields (vm : BytecodeVm) (name : String) (l : List (Sigma fun _ : String => Nat))
    (hl : l.NodupKeys) (ctx : Ctx) :
    (l.foldl (fun (ctx : Ctx) e =>
      if vm.slotTouched.getD e.2 false then ctx.insert e.1 (vm.getSlot e.2) else ctx) ctx).lookup
        name =
      match l.dlookup name with
      | some slot => if vm.slotTouched.getD slot false then some (vm.getSlot slot)
          else ctx.lookup name
      | none => ctx.lookup name := by
  induction l generalizing ctx with
  | nil => rfl
  | cons e l ih =>
      obtain ⟨key, slot⟩ := e
      obtain ⟨hkey, hrest⟩ := List.nodupKeys_cons.mp hl
      rw [List.foldl_cons, ih hrest]
      by_cases hname : key = name
      · subst hname
        rw [List.dlookup_eq_none.mpr hkey, List.dlookup_cons_eq]
        dsimp only
        split
        · exact AList.lookup_insert _
        · rfl
      · rw [List.dlookup_cons_ne _ _ (Ne.symm hname)]
        have hsame : AList.lookup name (if vm.slotTouched.getD slot false
            then ctx.insert key (vm.getSlot slot) else ctx) = ctx.lookup name := by
          split
          · exact AList.lookup_insert_ne (Ne.symm hname)
          · rfl
        dsimp only
        rw [hsame]

theorem lookup_touchedContext (vm : BytecodeVm) (fieldMap : SlotMap) {name : String}
    (hname : name ≠ "__current_offset") :
    (touchedContext vm fieldMap).lookup name =
      match fieldMap.lookup name with
      | some slot => if vm.slotTouched.getD slot false then some (vm.getSlot slot) else none
      | none => none := by
  unfold touchedContext
  dsimp only
  rw [AList.lookup_insert_ne hname, lookup_touchedFields vm name _ fieldMap.nodupKeys]
  rfl

/-- A run that comes behind the read of a field and ends as complete emits the
field's value. -/
theorem reaches_emit {program : BytecodeProgram} {i j n slot : Nat} {field : String}
    {c d : Config} {vm : BytecodeVm}
    (hemit : program.instructions[j]? = some (.emitField field slot))
    (hbetween : ∀ k instr, i < k → k < j → program.instructions[k]? = some instr →
      AfterRead j k instr)
    (hlo : i < c.ip) (hhi : c.ip ≤ j) (h : Steps (vmMove program false) n c d)
    (hend : vmMove program false d = .error (vm, .returned (.ok .complete))) :
    ∃ m c', Steps (vmMove program false) m c c' ∧ c'.ip = j := by
  induction h with
  | stay c =>
      obtain hlt | rfl := Nat.lt_or_eq_of_le hhi
      · exfalso
        have hj : j < program.instructions.length := (List.getElem?_eq_some_iff.mp hemit).1
        have hinstr := List.getElem?_eq_getElem (Nat.lt_trans hlt hj)
        have hret := (complete_end hend).2.2 _ hinstr
        have hafter := hbetween c.ip _ hlo hlt hinstr
        rw [hret] at hafter
        exact hafter
      · exact ⟨0, c, .stay c, rfl⟩
  | @go n a b d hmove hrest ih =>
      obtain hlt | rfl := Nat.lt_or_eq_of_le hhi
      · have hb : i < b.ip ∧ b.ip ≤ j := by
          obtain ⟨instr, hinstr, hnext | rfl | ⟨condSlot, rfl⟩⟩ := vmMove_control hmove
          · omega
          · have htarget := hbetween a.ip _ hlo hlt hinstr
            exact ⟨Nat.lt_trans hlo htarget.1, htarget.2⟩
          · have htarget := hbetween a.ip _ hlo hlt hinstr
            exact ⟨Nat.lt_trans hlo htarget.1, htarget.2⟩
        obtain ⟨m, c', hsteps, hc'⟩ := ih hb.1 hb.2 hend
        exact ⟨m + 1, c', .go hmove hsteps, hc'⟩
      · exact ⟨0, a, .stay a, rfl⟩

/-- Of the indices that satisfy a bounded predicate there is a last one. -/
theorem exists_last {P : Nat → Prop} {n k : Nat} (hk : P k) (hn : ∀ m, P m → m ≤ n) :
    ∃ l, k ≤ l ∧ P l ∧ ∀ m, l < m → ¬ P m := by
  classical
  refine ⟨Nat.findGreatest P n, Nat.le_findGreatest (hn k hk) hk,
    Nat.findGreatest_spec (hn k hk) hk, fun m hm hP => ?_⟩
  exact absurd (Nat.le_findGreatest (hn m hP) hP) (Nat.not_le.mpr hm)

section Exact

variable {program : BytecodeProgram} {leaves : List Leaf} {fieldMap : SlotMap} {start : Config}
  {name : String} {slot : Nat}

/-- A write of the kept slot reads the kept leaf or strays. -/
theorem write_kept {c c' : Config} {instr : Instruction} (leaves : List Leaf)
    (hkept : fieldMap.lookup name = some slot)
    (hmove : vmMove program false c = .ok c') (hinstr : program.instructions[c.ip]? = some instr)
    (hdest : instr.dest = some slot) :
    ReadsKept program leaves fieldMap name c ∨ Strays program leaves fieldMap name c := by
  by_cases hread : ReadsKept program leaves fieldMap name c
  · exact .inl hread
  · obtain ⟨instr', hinstr', hbudget, -⟩ := vmMove_eq_ok.mp hmove
    exact .inr ⟨instr, ⟨hinstr, hbudget⟩, .inr ⟨slot, hkept, hdest, hread⟩⟩

/-- A stretch without writes of a slot changes neither its value nor its mark. -/
theorem slot_stays {n : Nat} {c d : Config} (h : Steps (vmMove program false) n c d)
    (hquiet : ∀ m a b instr, Steps (vmMove program false) m c a → vmMove program false a = .ok b →
      program.instructions[a.ip]? = some instr → instr.dest ≠ some slot) :
    d.vm.slots[slot]? = c.vm.slots[slot]? ∧
      d.vm.slotTouched.getD slot false = c.vm.slotTouched.getD slot false := by
  induction h with
  | stay => exact ⟨rfl, rfl⟩
  | @go n a b d hmove hrest ih =>
      obtain ⟨hslots, hmarks⟩ := ih fun m x y instr hx hy => hquiet (m + 1) x y instr (.go hmove hx) hy
      obtain ⟨instr, hinstr, hmarked⟩ := vmMove_marks hmove
      have hdest := hquiet 0 a b instr (.stay a) hmove hinstr
      have hslot : b.vm.slots[slot]? = a.vm.slots[slot]? := by
        refine vmMove_slots hmove fun instr' hinstr' => ?_
        obtain rfl := Option.some.inj (hinstr'.symm.trans hinstr)
        exact hdest.symm
      refine ⟨hslots.trans hslot, hmarks.trans ?_⟩
      rw [hmarked]
      cases hd : instr.dest with
      | none => rfl
      | some dst =>
          have hne : dst ≠ slot := fun heq => hdest (heq ▸ hd)
          simp only [marksAfter, writeSlot_touched]
          split
          · simp [List.getD_eq_getElem?_getD, List.getElem?_set_ne hne]
          · rfl

/-- In a run that ends as complete, every state before an instruction other than
`ret` moves on. -/
theorem moves_on {n : Nat} {c d : Config} {vm : BytecodeVm} {instr : Instruction}
    (h : Steps (vmMove program false) n c d)
    (hend : vmMove program false d = .error (vm, .returned (.ok .complete)))
    (hinstr : program.instructions[c.ip]? = some instr) (hret : instr ≠ .ret) :
    ∃ m b, n = m + 1 ∧ vmMove program false c = .ok b ∧ Steps (vmMove program false) m b d := by
  cases h with
  | stay => exact absurd ((complete_end hend).2.2 instr hinstr) hret
  | @go m _ b _ hmove hrest => exact ⟨m, b, rfl, hmove, hrest⟩

theorem reachable_touched_length {c : Config} (h : Reachable (vmMove program false) start c) :
    c.vm.slotTouched.length = start.vm.slotTouched.length := by
  obtain ⟨n, hn⟩ := h
  refine hn.invariant (P := fun c => c.vm.slotTouched.length = start.vm.slotTouched.length) ?_ rfl
  intro a b ha hmove
  obtain ⟨instr, -, hmarks⟩ := vmMove_marks hmove
  rw [hmarks, ← ha]
  cases instr.dest with
  | none => rfl
  | some slot =>
      simp only [marksAfter, writeSlot_touched]
      split
      · exact List.length_set ..
      · rfl

/-- What is known of a complete run and of the code of the leaves. -/
structure CompleteRun (program : BytecodeProgram) (leaves : List Leaf) (start : Config) (n : Nat)
    (d : Config) (vm : BytecodeVm) : Prop where
  steps : Steps (vmMove program false) n start d
  complete : vmMove program false d = .error (vm, .returned (.ok .complete))
  slots_lt : ∀ leaf ∈ leaves, leaf.slot < start.vm.slots.length
  touched_length : start.vm.slotTouched.length = start.vm.slots.length
  reaches : ∀ leaf ∈ leaves, ∀ i instr, program.instructions[i]? = some instr →
    instr.readsInto = some leaf.slot → ReachesEmit program.instructions i leaf.slot

/-- The stray steps for a name are followed by reads of the kept leaf. -/
def KeepsName (program : BytecodeProgram) (leaves : List Leaf) (fieldMap : SlotMap)
    (start : Config) (name : String) : Prop :=
  ∀ n c, Steps (vmMove program false) n start c → Strays program leaves fieldMap name c →
    ∃ m c', n < m ∧ Steps (vmMove program false) m start c' ∧
      ReadsKept program leaves fieldMap name c'

variable {n : Nat} {d : Config} {vm : BytecodeVm}

theorem ReadsKept.readsLeaf {c : Config} (h : ReadsKept program leaves fieldMap name c) :
    ReadsLeaf program leaves name c := by
  obtain ⟨instr, leaf, hexec, hleaf, hname, hread, -⟩ := h
  exact ⟨instr, leaf, hexec, hleaf, hname, hread⟩

theorem readsInto_dest {instr : Instruction} (h : instr.readsInto = some slot) :
    instr.dest = some slot := by
  cases instr <;> first | exact h | cases h

/-- The rest of a complete run from one of its states. -/
theorem CompleteRun.rest (h : CompleteRun program leaves start n d vm) {m : Nat} {c : Config}
    (hc : Steps (vmMove program false) m start c) :
    ∃ k, n = m + k ∧ Steps (vmMove program false) k c d := by
  have hle := h.steps.le_of_end h.complete hc
  obtain ⟨k, rfl⟩ := Nat.exists_eq_add_of_le hle
  obtain ⟨c', hc', hrest⟩ := h.steps.middle
  obtain rfl := hc.unique hc'
  exact ⟨k, rfl, hrest⟩

/-- A name whose leaves the run never reads has no entry. -/
theorem untouched (h : CompleteRun program leaves start n d vm)
    (hkeeps : KeepsName program leaves fieldMap start name)
    (hnone : ∀ c, Reachable (vmMove program false) start c → ¬ ReadsLeaf program leaves name c)
    (hkept : fieldMap.lookup name = some slot)
    (hstart : start.vm.slotTouched.getD slot false = false) :
    vm.slotTouched.getD slot false = false := by
  rw [(complete_end h.complete).2.1]
  refine (slot_stays h.steps fun m a b instr ha hmove hinstr hdest => ?_).2.trans hstart
  obtain hread | hstray := write_kept leaves hkept hmove hinstr hdest
  · exact hnone a ⟨m, ha⟩ hread.readsLeaf
  · obtain ⟨m', c', -, hc', hread⟩ := hkeeps m a ha hstray
    exact hnone c' ⟨m', hc'⟩ hread.readsLeaf

/-- Behind the last read of the kept leaf nothing strays. -/
theorem no_strays_after (hkeeps : KeepsName program leaves fieldMap start name) {k : Nat}
    (hlast : ∀ m c, k < m → Steps (vmMove program false) m start c →
      ¬ ReadsKept program leaves fieldMap name c) {m : Nat} {c : Config} (hm : k < m)
    (hc : Steps (vmMove program false) m start c) : ¬ Strays program leaves fieldMap name c := by
  intro hstrays
  obtain ⟨m', c', hm', hc', hread⟩ := hkeeps m c hc hstrays
  exact hlast m' c' (Nat.lt_trans hm hm') hc' hread

/-- Behind the last read of the kept leaf nothing writes its slot. -/
theorem quiet_after (hkeeps : KeepsName program leaves fieldMap start name)
    (hkept : fieldMap.lookup name = some slot) {k : Nat} {c₁ : Config}
    (hc₁ : Steps (vmMove program false) (k + 1) start c₁)
    (hlast : ∀ m c, k < m → Steps (vmMove program false) m start c →
      ¬ ReadsKept program leaves fieldMap name c) {m : Nat} {a b : Config} {instr : Instruction}
    (ha : Steps (vmMove program false) m c₁ a) (hmove : vmMove program false a = .ok b)
    (hinstr : program.instructions[a.ip]? = some instr) : instr.dest ≠ some slot := by
  intro hdest
  have hbehind : k < k + 1 + m := by omega
  obtain hread | hstray := write_kept leaves hkept hmove hinstr hdest
  · exact hlast _ a hbehind (hc₁.append ha) hread
  · exact no_strays_after hkeeps hlast hbehind (hc₁.append ha) hstray

/-- A read goes on to the next instruction and marks its slot. -/
theorem read_marks {c c₁ : Config} {instr : Instruction} (hmove : vmMove program false c = .ok c₁)
    (hinstr : program.instructions[c.ip]? = some instr) (hinto : instr.readsInto = some slot)
    (hslot : slot < c.vm.slots.length) (htouched : slot < c.vm.slotTouched.length) :
    c₁.ip = c.ip + 1 ∧ c₁.vm.slotTouched.getD slot false = true := by
  constructor
  · obtain ⟨instr', hinstr', hnext | rfl | ⟨condSlot, rfl⟩⟩ := vmMove_control hmove
    · exact hnext
    · simp [Option.some.inj (hinstr.symm.trans hinstr'), Instruction.readsInto] at hinto
    · simp [Option.some.inj (hinstr.symm.trans hinstr'), Instruction.readsInto] at hinto
  · obtain ⟨instr', hinstr', hmarks⟩ := vmMove_marks hmove
    obtain rfl := Option.some.inj (hinstr.symm.trans hinstr')
    rw [hmarks, readsInto_dest hinto]
    simp [marksAfter, writeSlot_touched, hslot, htouched]

/-- Behind a read of a leaf a complete run emits the leaf's slot. -/
theorem CompleteRun.emits (h : CompleteRun program leaves start n d vm) {leaf : Leaf}
    (hleaf : leaf ∈ leaves) {c c₁ : Config} {instr : Instruction} {k : Nat}
    (hinstr : program.instructions[c.ip]? = some instr) (hinto : instr.readsInto = some leaf.slot)
    (hnext : c₁.ip = c.ip + 1) (hc₁ : Steps (vmMove program false) k start c₁) :
    ∃ m c₂ field, Steps (vmMove program false) m c₁ c₂ ∧
      Executes program c₂ (.emitField field leaf.slot) := by
  obtain ⟨j, field, hij, hemit, hbetween⟩ := h.reaches leaf hleaf c.ip instr hinstr hinto
  obtain ⟨_, -, hrest⟩ := h.rest hc₁
  obtain ⟨m, c₂, hc₂, rfl⟩ :=
    reaches_emit hemit hbetween (by omega) (by omega) hrest h.complete
  obtain ⟨_, -, hrest₂⟩ := h.rest (hc₁.append hc₂)
  obtain ⟨_, _, -, hmove₂, -⟩ := moves_on hrest₂ h.complete hemit (by simp)
  obtain ⟨_, -, hbudget₂, -⟩ := vmMove_eq_ok.mp hmove₂
  exact ⟨m, c₂, field, hc₂, hemit, hbudget₂⟩

/-- Of the emissions in a complete run there is a last one. -/
theorem CompleteRun.exists_lastEmission (h : CompleteRun program leaves start n d vm) {k : Nat}
    {c : Config} {v : UInt64} (hc : Steps (vmMove program false) k start c)
    (hemits : EmitsLeaf program leaves name c v) :
    ∃ l c' v', k ≤ l ∧ Steps (vmMove program false) l start c' ∧
      EmitsLeaf program leaves name c' v' ∧
      ∀ m c'' v'', l < m → Steps (vmMove program false) m start c'' →
        ¬ EmitsLeaf program leaves name c'' v'' := by
  obtain ⟨l, hle, ⟨c', v', hc', hemits'⟩, hafter⟩ :=
    exists_last (P := fun m => ∃ c' v', Steps (vmMove program false) m start c' ∧
      EmitsLeaf program leaves name c' v') ⟨c, v, hc, hemits⟩
      fun m ⟨c', v', hc', _⟩ => h.steps.le_of_end h.complete hc'
  exact ⟨l, c', v', hle, hc', hemits', fun m c'' v'' hm hc'' hemits'' =>
    hafter m hm ⟨c'', v'', hc'', hemits''⟩⟩

/-- After the last read of the kept leaf its slot holds the value that is emitted
last. -/
theorem kept_value (h : CompleteRun program leaves start n d vm)
    (hkeeps : KeepsName program leaves fieldMap start name) {k : Nat} {c : Config}
    (hc : Steps (vmMove program false) k start c)
    (hread : ReadsKept program leaves fieldMap name c)
    (hlast : ∀ m c', k < m → Steps (vmMove program false) m start c' →
      ¬ ReadsKept program leaves fieldMap name c') :
    ∃ slot v, fieldMap.lookup name = some slot ∧ vm.slotTouched.getD slot false = true ∧
      vm.slots[slot]? = some v ∧ LastEmitted program leaves start name v := by
  obtain ⟨instr, leaf, ⟨hinstr, hbudget⟩, hleaf, rfl, hinto, hkept⟩ := hread
  have hret : instr ≠ .ret := fun heq => by simp [heq, Instruction.readsInto] at hinto
  obtain ⟨r, -, hrest⟩ := h.rest hc
  obtain ⟨r', c₁, rfl, hmove, hrest'⟩ := moves_on hrest h.complete hinstr hret
  have hc₁ : Steps (vmMove program false) (k + 1) start c₁ := hc.snoc hmove
  have hin : ∀ {m x}, Steps (vmMove program false) m start x →
      leaf.slot < x.vm.slots.length := by
    intro m x hx
    rw [reachable_slots_length ⟨m, hx⟩]
    exact h.slots_lt leaf hleaf
  have htouchedLength : leaf.slot < c.vm.slotTouched.length := by
    rw [reachable_touched_length ⟨_, hc⟩, h.touched_length]
    exact h.slots_lt leaf hleaf
  obtain ⟨hip, htouched⟩ := read_marks hmove hinstr hinto (hin hc) htouchedLength
  obtain ⟨v, hv⟩ : ∃ v, c₁.vm.slots[leaf.slot]? = some v := ⟨_, List.getElem?_eq_getElem (hin hc₁)⟩
  have hstays : ∀ {r c'}, Steps (vmMove program false) r c₁ c' →
      c'.vm.slots[leaf.slot]? = some v ∧ c'.vm.slotTouched.getD leaf.slot false = true := by
    intro r c' hr
    obtain ⟨hslots, hmarks⟩ := slot_stays hr fun m a b instr ha hmove hinstr =>
      quiet_after hkeeps hkept hc₁ hlast ha hmove hinstr
    exact ⟨hslots.trans hv, hmarks.trans htouched⟩
  obtain ⟨hslots, hmarks, -⟩ := complete_end h.complete
  refine ⟨leaf.slot, v, hkept, ?_, ?_, ?_⟩
  · rw [hmarks, (hstays hrest').2]
  · rw [hslots, (hstays hrest').1]
  · -- The read leads to an emission of the value; the last emission has the same value.
    obtain ⟨m, c₂, field, hc₂, hexec⟩ := h.emits hleaf hinstr hinto hip hc₁
    obtain ⟨l, c', v', hle, hc', ⟨field', leaf', hexec', hleaf', hname', hvalue'⟩, hafter⟩ :=
      h.exists_lastEmission (hc₁.append hc₂) ⟨field, leaf, hexec, hleaf, rfl, (hstays hc₂).1⟩
    have hsame : leaf'.slot = leaf.slot := by
      by_contra hne
      refine no_strays_after hkeeps hlast (by omega) hc'
        ⟨_, hexec', .inl ⟨leaf', hleaf', hname', ?_, .inr ⟨_, rfl⟩⟩⟩
      rw [hkept]
      exact fun heq => hne (Option.some.inj heq).symm
    obtain ⟨q, rfl⟩ := Nat.exists_eq_add_of_le (show k + 1 ≤ l by omega)
    obtain ⟨c₃, hc₃, hc₃'⟩ := hc'.middle
    obtain rfl := hc₁.unique hc₃
    obtain rfl : v' = v := by
      rw [hsame, (hstays hc₃').1] at hvalue'
      exact (Option.some.inj hvalue').symm
    exact ⟨_, c', hc', ⟨field', leaf', hexec', hleaf', hname', hvalue'⟩, hafter⟩

end Exact

/-- For every protocol that compiles and every run that succeeds: the context maps
the dotted name of every leaf that was read to the value emitted last for it and
has no entry for the others, provided that every stray step is followed by a read
of the leaf whose slot the field map keeps. -/
theorem compiled_context_exact {proto : Protocol} {program : BytecodeProgram} {fieldMap : SlotMap}
    (hcompile : protocolToBytecodeWithMap proto = some (program, fieldMap))
    {data : List UInt8} {limits : Limits} {vm : BytecodeVm}
    (hrun : compileAndRun proto data limits = .ok (.ok (vm, fieldMap)))
    (hfits : program.instructions.length ≤ u16Max)
    (hoffset : ∀ leaf ∈ protocolLeaves proto, leaf.name ≠ "__current_offset")
    (hkeeps : KeepsLeaves program (protocolLeaves proto) fieldMap
      (datagramStart program limits data)) :
    ContextExact program (protocolLeaves proto) (datagramStart program limits data)
      (touchedContext vm fieldMap) := by
  obtain ⟨n, d, hsteps, hend⟩ := compileAndRun_complete hcompile hrun
  have hslots : (datagramStart program limits data).vm.slots.length = max program.slotCount 32 :=
    List.length_replicate
  have hmarks : (datagramStart program limits data).vm.slotTouched =
      List.replicate (max program.slotCount 32) false := rfl
  have hcomplete : CompleteRun program (protocolLeaves proto) (datagramStart program limits data)
      n d vm := by
    refine ⟨hsteps, hend, fun leaf hleaf => ?_, ?_, fun leaf hleaf => ?_⟩
    · have hlt := (compiled_leaf_reaches_emit hcompile hfits hleaf).1
      rw [hslots]
      exact Nat.lt_of_lt_of_le hlt (Nat.le_max_left ..)
    · rw [hmarks, hslots, List.length_replicate]
    · exact (compiled_leaf_reaches_emit hcompile hfits hleaf).2
  refine ⟨fun leaf hleaf c hc hread => ?_, fun leaf hleaf hnone => ?_⟩
  · have hname : KeepsName program (protocolLeaves proto) fieldMap
        (datagramStart program limits data) leaf.name := hkeeps leaf hleaf
    -- Some step reads the kept leaf: this one, or one that follows it.
    obtain ⟨k, hk⟩ : ∃ k c, Steps (vmMove program false) k (datagramStart program limits data) c ∧
        ReadsKept program (protocolLeaves proto) fieldMap leaf.name c := by
      obtain ⟨k, hk⟩ := hc
      obtain ⟨instr, leaf', hexec, hleaf', hname', hinto⟩ := hread
      by_cases hkept : fieldMap.lookup leaf.name = some leaf'.slot
      · exact ⟨k, c, hk, instr, leaf', hexec, hleaf', hname', hinto, hkept⟩
      · obtain ⟨m, c', -, hc', hread'⟩ := hname k c hk
          ⟨instr, hexec, .inl ⟨leaf', hleaf', hname', hkept, .inl hinto⟩⟩
        exact ⟨m, c', hc', hread'⟩
    have hbounded : ∀ m, (∃ c, Steps (vmMove program false) m (datagramStart program limits data) c ∧
        ReadsKept program (protocolLeaves proto) fieldMap leaf.name c) → m ≤ n :=
      fun m ⟨c', hc', _⟩ => hcomplete.steps.le_of_end hcomplete.complete hc'
    obtain ⟨l, -, ⟨c', hc', hread'⟩, hlast⟩ := exists_last hk hbounded
    obtain ⟨slot, v, hkept, htouched, hvalue, hemitted⟩ := kept_value hcomplete hname hc' hread'
      fun m c'' hm hc'' hread'' => hlast m hm ⟨c'', hc'', hread''⟩
    refine ⟨v, hemitted, ?_⟩
    rw [lookup_touchedContext vm fieldMap (hoffset leaf hleaf), hkept]
    dsimp only
    rw [if_pos htouched, getSlot, List.getD_eq_getElem?_getD, hvalue]
    rfl
  · rw [lookup_touchedContext vm fieldMap (hoffset leaf hleaf)]
    cases hkept : fieldMap.lookup leaf.name with
    | none => rfl
    | some slot =>
        have hfresh : (datagramStart program limits data).vm.slotTouched.getD slot false =
            false := by
          rw [hmarks]
          rw [List.getD_eq_getElem?_getD, List.getElem?_replicate]
          split <;> rfl
        have hclear := untouched hcomplete (hkeeps leaf hleaf) hnone hkept hfresh
        dsimp only
        rw [hclear]
        rfl

section Decide

variable {program : BytecodeProgram} {leaves : List Leaf} {fieldMap : SlotMap} {name : String}
  {c : Config}

theorem readsLeaf_iff : ReadsLeaf program leaves name c ↔ ¬ c.vm.outOfBudget ∧
    ∃ leaf ∈ leaves, leaf.name = name ∧
      program.instructions[c.ip]?.bind Instruction.readsInto = some leaf.slot := by
  constructor
  · rintro ⟨instr, leaf, ⟨hinstr, hbudget⟩, hleaf, hname, hread⟩
    exact ⟨hbudget, leaf, hleaf, hname, by rw [hinstr]; exact hread⟩
  · rintro ⟨hbudget, leaf, hleaf, hname, hread⟩
    obtain ⟨instr, hinstr, hread⟩ := Option.bind_eq_some_iff.mp hread
    exact ⟨instr, leaf, ⟨hinstr, hbudget⟩, hleaf, hname, hread⟩

instance : Decidable (ReadsLeaf program leaves name c) := decidable_of_iff _ readsLeaf_iff.symm

theorem readsKept_iff : ReadsKept program leaves fieldMap name c ↔ ¬ c.vm.outOfBudget ∧
    ∃ leaf ∈ leaves, leaf.name = name ∧ fieldMap.lookup name = some leaf.slot ∧
      program.instructions[c.ip]?.bind Instruction.readsInto = some leaf.slot := by
  constructor
  · rintro ⟨instr, leaf, ⟨hinstr, hbudget⟩, hleaf, hname, hread, hkept⟩
    exact ⟨hbudget, leaf, hleaf, hname, hkept, by rw [hinstr]; exact hread⟩
  · rintro ⟨hbudget, leaf, hleaf, hname, hkept, hread⟩
    obtain ⟨instr, hinstr, hread⟩ := Option.bind_eq_some_iff.mp hread
    exact ⟨instr, leaf, ⟨hinstr, hbudget⟩, hleaf, hname, hread, hkept⟩

instance : Decidable (ReadsKept program leaves fieldMap name c) :=
  decidable_of_iff _ readsKept_iff.symm

/-- The slot whose value an instruction emits. -/
def Instruction.emits : Instruction → Option Nat
  | .emitField _ slot => some slot
  | _ => none

theorem strays_iff : Strays program leaves fieldMap name c ↔ ¬ c.vm.outOfBudget ∧
    ((∃ leaf ∈ leaves, leaf.name = name ∧ fieldMap.lookup name ≠ some leaf.slot ∧
        (program.instructions[c.ip]?.bind Instruction.readsInto = some leaf.slot ∨
          program.instructions[c.ip]?.bind Instruction.emits = some leaf.slot)) ∨
      ((fieldMap.lookup name).isSome ∧
        program.instructions[c.ip]?.bind Instruction.dest = fieldMap.lookup name ∧
        ¬ ReadsKept program leaves fieldMap name c)) := by
  have hemits : ∀ (instr : Instruction) (slot : Nat), instr.emits = some slot ↔
      ∃ field, instr = .emitField field slot := by
    intro instr slot
    cases instr <;> simp [Instruction.emits]
  constructor
  · rintro ⟨instr, ⟨hinstr, hbudget⟩, ⟨leaf, hleaf, hname, hne, hread⟩ | ⟨slot, hkept, hdest, hnot⟩⟩
    · refine ⟨hbudget, .inl ⟨leaf, hleaf, hname, hne, ?_⟩⟩
      rw [hinstr, Option.bind_some, Option.bind_some, hemits]
      exact hread
    · refine ⟨hbudget, .inr ⟨by rw [hkept]; rfl, ?_, hnot⟩⟩
      rw [hinstr, Option.bind_some, hdest, hkept]
  · rintro ⟨hbudget, ⟨leaf, hleaf, hname, hne, hread⟩ | ⟨hsome, hdest, hnot⟩⟩
    · have hinstr : ∃ instr, program.instructions[c.ip]? = some instr := by
        cases hat : program.instructions[c.ip]? with
        | none => simp [hat] at hread
        | some instr => exact ⟨instr, rfl⟩
      obtain ⟨instr, hinstr⟩ := hinstr
      rw [hinstr, Option.bind_some, Option.bind_some, hemits] at hread
      exact ⟨instr, ⟨hinstr, hbudget⟩, .inl ⟨leaf, hleaf, hname, hne, hread⟩⟩
    · obtain ⟨slot, hkept⟩ := Option.isSome_iff_exists.mp hsome
      obtain ⟨instr, hinstr, hd⟩ := Option.bind_eq_some_iff.mp (hdest.trans hkept)
      exact ⟨instr, ⟨hinstr, hbudget⟩, .inr ⟨slot, hkept, hd, hnot⟩⟩

instance : Decidable (Strays program leaves fieldMap name c) :=
  decidable_of_iff _ strays_iff.symm

end Decide

/-- Whether the condition on stray steps holds along a finite trace. -/
theorem keepsLeaves_of_trace {program : BytecodeProgram} {leaves : List Leaf} {fieldMap : SlotMap}
    {start : Config} {states : List Config} {fuel : Nat}
    (hstates : trace (vmMove program false) fuel start = states) (hfuel : states.length < fuel)
    (h : ∀ leaf ∈ leaves, ∀ n < fuel, ∀ c ∈ states[n]?, Strays program leaves fieldMap leaf.name c →
      ∃ m < fuel, n < m ∧ ∃ c' ∈ states[m]?, ReadsKept program leaves fieldMap leaf.name c') :
    KeepsLeaves program leaves fieldMap start := by
  subst hstates
  intro leaf hleaf n c hn hstrays
  have hc := hn.mem_trace hfuel
  have hlt : n < fuel := Nat.lt_trans (List.getElem?_eq_some_iff.mp hc).1 hfuel
  obtain ⟨m, -, hnm, c', hc', hread⟩ := h leaf hleaf n hlt c hc hstrays
  exact ⟨m, c', hnm, steps_of_mem_trace hc', hread⟩

/-- Both arms have a field of the same name, and only the second one is kept. -/
def twoArms : Protocol where
  name := "P"
  endian := "big"
  messages := [
    { name := "M"
      fields := [⟨"tag", .u8, none, none, 0⟩]
      lets := [], loops := [], validates := []
      matches_ := [.mk (.ident "tag") [
        .mk (some 1) [⟨"x", .u8, none, none, 0⟩] [] [] [] [],
        .mk (some 2) [⟨"x", .u16, none, none, 0⟩] [] [] [] []] 1] }]
  binds := []

example : protocolLeaves twoArms = [⟨"tag", 1⟩, ⟨"x", 4⟩, ⟨"x", 7⟩] := by decide

/-- The field map of a successful run is the compiled one. -/
theorem compileAndRun_fieldMap {proto : Protocol} {data : List UInt8} {limits : Limits}
    {program : BytecodeProgram} {fieldMap fieldMap' : SlotMap} {vm : BytecodeVm}
    (hcompile : protocolToBytecodeWithMap proto = some (program, fieldMap))
    (hrun : compileAndRun proto data limits = .ok (.ok (vm, fieldMap'))) : fieldMap' = fieldMap := by
  unfold compileAndRun at hrun
  rw [hcompile] at hrun
  dsimp only at hrun
  split at hrun
  · cases hrun
  · cases hrun
  · simp only [Except.ok.injEq, Prod.mk.injEq] at hrun
    exact hrun.2.symm

/-- The final machine and the field map of a run that succeeds. -/
def successOf (proto : Protocol) (data : List UInt8) (limits : Limits) :
    Option (BytecodeVm × SlotMap) :=
  match compileAndRun proto data limits with
  | .ok (.ok result) => some result
  | _ => none

theorem exists_of_success {proto : Protocol} {data : List UInt8} {limits : Limits}
    (h : (successOf proto data limits).isSome) : ∃ program fieldMap vm,
      protocolToBytecodeWithMap proto = some (program, fieldMap) ∧
      compileAndRun proto data limits = .ok (.ok (vm, fieldMap)) ∧
      (vm, fieldMap) ∈ successOf proto data limits := by
  unfold successOf at *
  cases hcompile : protocolToBytecodeWithMap proto with
  | none =>
      unfold compileAndRun at h
      rw [hcompile] at h
      cases h
  | some r =>
      obtain ⟨program, fieldMap⟩ := r
      split at h
      · rename_i result hrun
        obtain ⟨vm, fieldMap'⟩ := result
        obtain rfl := compileAndRun_fieldMap hcompile hrun
        exact ⟨program, fieldMap', vm, rfl, hrun, rfl⟩
      · cases h

theorem compiled_context_exact_twoArms :
    ∃ program fieldMap vm, protocolToBytecodeWithMap twoArms = some (program, fieldMap) ∧
      compileAndRun twoArms [2, 7, 8] .default = .ok (.ok (vm, fieldMap)) ∧
      ContextExact program (protocolLeaves twoArms) (datagramStart program .default [2, 7, 8])
        (touchedContext vm fieldMap) := by
  obtain ⟨program, fieldMap, vm, hcompile, hrun, -⟩ :=
    exists_of_success (show (successOf twoArms [2, 7, 8] .default).isSome by decide)
  have hchecks : ∀ r ∈ protocolToBytecodeWithMap twoArms,
      r.1.instructions.length ≤ u16Max ∧
      (trace (vmMove r.1 false) 16 (datagramStart r.1 .default [2, 7, 8])).length < 16 := by decide
  have hstrays : ∀ r ∈ protocolToBytecodeWithMap twoArms, ∀ leaf ∈ protocolLeaves twoArms,
      ∀ c ∈ trace (vmMove r.1 false) 16 (datagramStart r.1 .default [2, 7, 8]),
        ¬ Strays r.1 (protocolLeaves twoArms) r.2 leaf.name c := by decide
  have hr : (program, fieldMap) ∈ protocolToBytecodeWithMap twoArms := hcompile
  refine ⟨program, fieldMap, vm, hcompile, hrun, ?_⟩
  refine compiled_context_exact hcompile hrun (hchecks _ hr).1 (by decide) ?_
  refine keepsLeaves_of_trace rfl (hchecks _ hr).2 fun leaf hleaf n _ c hc hstray => ?_
  exact absurd hstray (hstrays _ hr leaf hleaf c (List.mem_of_getElem? hc))

/-- Where the first arm is taken, its field `x` is read and emitted, but the context
has no entry for it. -/
theorem twoArms_loses_field :
    ∃ program fieldMap vm, protocolToBytecodeWithMap twoArms = some (program, fieldMap) ∧
      compileAndRun twoArms [1, 7] .default = .ok (.ok (vm, fieldMap)) ∧
      vm.emitted = [("tag", 1), ("x", 7)] ∧ (touchedContext vm fieldMap).lookup "x" = none ∧
      ¬ ContextExact program (protocolLeaves twoArms) (datagramStart program .default [1, 7])
        (touchedContext vm fieldMap) := by
  obtain ⟨program, fieldMap, vm, hcompile, hrun, hsuccess⟩ :=
    exists_of_success (show (successOf twoArms [1, 7] .default).isSome by decide)
  have hresults : ∀ r ∈ successOf twoArms [1, 7] .default, r.1.emitted = [("tag", 1), ("x", 7)] ∧
      (touchedContext r.1 r.2).lookup "x" = none := by decide
  have hresult := hresults _ hsuccess
  have hreads : ∀ r ∈ protocolToBytecodeWithMap twoArms,
      ∃ c ∈ trace (vmMove r.1 false) 16 (datagramStart r.1 .default [1, 7]),
        ReadsLeaf r.1 (protocolLeaves twoArms) "x" c := by decide
  obtain ⟨c, hc, hread⟩ := hreads (program, fieldMap) hcompile
  obtain ⟨n, hn⟩ := List.getElem?_of_mem hc
  refine ⟨program, fieldMap, vm, hcompile, hrun, hresult.1, hresult.2, fun hexact => ?_⟩
  obtain ⟨v, -, hlookup⟩ :=
    hexact.complete ⟨"x", 7⟩ (by decide) c ⟨n, steps_of_mem_trace hn⟩ hread
  exact absurd (hlookup.symm.trans hresult.2) (by simp)

end NFdl
