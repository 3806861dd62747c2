import NFdl.Bytecode.Resume

/-!
# Datagram runs and stream runs

The two modes differ only where a read runs past the end of the input: a
datagram run reads zero there and a stream run suspends. A stream run that never
suspends is therefore matched by the datagram run instruction by instruction,
with the same machine after every one of them.
-/

namespace NFdl

open BytecodeVm

section Instr

variable {ip : Nat} {vm : BytecodeVm}

theorem execReadU8_datagram {slot : Nat} (h : ¬ (execReadU8 true slot ip vm).2.Suspends) :
    execReadU8 false slot ip vm = execReadU8 true slot ip vm := by
  unfold execReadU8 at h ⊢
  cases halign : vm.alignToByte with
  | none => rfl
  | some vm' =>
      rw [halign] at h
      dsimp only at h ⊢
      cases hbyte : vm'.input[vm'.inputPos]? with
      | none =>
          rw [hbyte] at h
          exact absurd trivial h
      | some byte => rfl

theorem execReadInt_datagram {n : Nat} {le : Bool} {slot : Nat}
    (h : ¬ (execReadInt true n le slot ip vm).2.Suspends) :
    execReadInt false n le slot ip vm = execReadInt true n le slot ip vm := by
  unfold execReadInt at h ⊢
  cases halign : vm.alignToByte with
  | none => rfl
  | some vm' =>
      rw [halign] at h
      dsimp only at h ⊢
      cases hstop : addUsize vm'.inputPos n with
      | none => rfl
      | some stop =>
          rw [hstop] at h
          dsimp only at h ⊢
          cases hbytes : vm'.readBytes vm'.inputPos n with
          | none =>
              rw [hbytes] at h
              exact absurd trivial h
          | some bytes => rfl

/-- A slice that ends inside the buffer, or has the sentinel length, is read
alike in both modes. -/
theorem execReadSlice_datagram {lenSlot dstSlot : Nat}
    (h : ¬ (execReadSlice true lenSlot dstSlot ip vm).2.Suspends) :
    execReadSlice false lenSlot dstSlot ip vm = execReadSlice true lenSlot dstSlot ip vm := by
  unfold execReadSlice at h ⊢
  cases halign : vm.alignToByte with
  | none => rfl
  | some vm' =>
      rw [halign] at h
      dsimp only at h ⊢
      cases hlen : sliceLen vm' lenSlot with
      | none => rfl
      | some len =>
          rw [hlen] at h
          dsimp only at h ⊢
          cases hstop : addUsize vm'.inputPos len with
          | none => rfl
          | some stop =>
              rw [hstop] at h
              dsimp only at h ⊢
              by_cases hshort :
                  (true && lenSlot != u16Max && decide (vm'.input.length < stop)) = true
              · rw [if_pos hshort] at h
                exact absurd trivial h
              · rw [if_neg hshort]
                rfl

theorem execReadBits_datagram {bits : UInt8} {slot : Nat}
    (h : ¬ (execReadBits true bits slot ip vm).2.Suspends) :
    execReadBits false bits slot ip vm = execReadBits true bits slot ip vm := by
  unfold execReadBits at h ⊢
  by_cases hshort : (true && decide (vm.bitsRemaining < bits.toNat)) = true
  · rw [if_pos hshort] at h
    exact absurd trivial h
  · rw [if_neg hshort]
    rfl

/-- An instruction that does not suspend does the same in both modes. -/
theorem execInstr_datagram {instr : Instruction} (h : ¬ (execInstr true instr ip vm).2.Suspends) :
    execInstr false instr ip vm = execInstr true instr ip vm := by
  cases instr with
  | readU8 slot => exact execReadU8_datagram h
  | readU16 slot le => exact execReadInt_datagram h
  | readU24 slot le => exact execReadInt_datagram h
  | readU32 slot le => exact execReadInt_datagram h
  | readSlice lenSlot dstSlot => exact execReadSlice_datagram h
  | readBits bits slot => exact execReadBits_datagram h
  | _ => rfl

end Instr

section Run

variable {program : BytecodeProgram}

/-- Every move of a stream run is a move of the datagram run. -/
theorem vmMove_datagram {c d : Config} (h : vmMove program true c = .ok d) :
    vmMove program false c = .ok d := by
  obtain ⟨instr, hinstr, hbudget, hexec⟩ := vmMove_eq_ok.mp h
  have hruns : ¬ (execInstr true instr c.ip c.vm.tick).2.Suspends := by
    rw [hexec]
    exact id
  exact vmMove_eq_ok.mpr ⟨instr, hinstr, hbudget, (execInstr_datagram hruns).trans hexec⟩

/-- The round that ends a stream run without suspending it ends the datagram
run alike. -/
theorem vmMove_datagram_end {c : Config} {r : BytecodeVm × Ending}
    (h : vmMove program true c = .error r) (hruns : ¬ r.2.flow.Suspends) :
    vmMove program false c = .error r := by
  obtain ⟨hnone, hr⟩ | ⟨instr, hinstr, hbudget, hr⟩ | ⟨instr, hinstr, hbudget, hexec⟩ :=
    vmMove_eq_error.mp h
  · exact vmMove_eq_error.mpr (.inl ⟨hnone, hr⟩)
  · exact vmMove_eq_error.mpr (.inr (.inl ⟨instr, hinstr, hbudget, hr⟩))
  · have hexec' : execInstr false instr c.ip c.vm.tick = execInstr true instr c.ip c.vm.tick := by
      refine execInstr_datagram ?_
      rw [hexec]
      exact hruns
    exact vmMove_eq_error.mpr (.inr (.inr ⟨instr, hinstr, hbudget, hexec'.trans hexec⟩))

/-- A stream run that ends without suspending is a datagram run. -/
theorem halts_datagram {c : Config} {r : BytecodeVm × Ending}
    (h : Machine.Halts (vmMove program true) c r) (hruns : ¬ r.2.flow.Suspends) :
    Machine.Halts (vmMove program false) c r := by
  obtain ⟨n, d, hd, hend⟩ := h
  have hmove : ∀ a x b : Config, x = a → vmMove program true a = .ok b →
      ∃ y, vmMove program false x = .ok y ∧ y = b := by
    intro a x b hx hab
    subst hx
    exact ⟨b, vmMove_datagram hab, rfl⟩
  obtain ⟨d', hd', rfl⟩ := hd.simulate hmove rfl
  exact ⟨n, d', hd', vmMove_datagram_end hend hruns⟩

end Run

theorem runDatagram_of_stream {program : BytecodeProgram} {vm : BytecodeVm}
    {r : BytecodeVm × Ending} (hrun : runStream program vm = r) (hruns : ¬ r.2.flow.Suspends) :
    runDatagram program vm = r := by
  have hhalts : Machine.Halts (vmMove program true) ⟨vm.resetCounters, 0⟩ r :=
    interpret_eq_iff.mp hrun
  unfold runDatagram
  rw [interpret_eq_iff.mpr (halts_datagram hhalts hruns)]
  obtain ⟨vm', ending⟩ := r
  split
  · rename_i vm'' cont heq
    obtain ⟨-, rfl⟩ := Prod.mk.inj heq
    exact absurd trivial hruns
  · rfl

/-- On input that a stream run finishes without suspending, with success or
with an error, the datagram run finishes with the same machine and the same
outcome. -/
theorem datagram_agrees_with_stream (program : BytecodeProgram) (vm : BytecodeVm)
    (h : ¬ (runStream program vm).2.flow.Suspends) :
    runDatagram program vm = runStream program vm := by
  have hrun : runStream program vm = runStream program vm := rfl
  exact runDatagram_of_stream hrun h

/-- The two bytes that the program of two reads asks for are there. -/
theorem datagram_agrees_with_stream_twoReads :
    runDatagram twoReads ((withLimits 2 .default).loadInput [1, 2, 3]) =
      runStream twoReads ((withLimits 2 .default).loadInput [1, 2, 3]) :=
  datagram_agrees_with_stream twoReads ((withLimits 2 .default).loadInput [1, 2, 3]) (by
    have hrun : (runStream twoReads ((withLimits 2 .default).loadInput [1, 2, 3])).2.outcome =
        .complete := by decide
    intro hsuspends
    obtain ⟨cont, hcont⟩ := Ending.suspends_cases hsuspends
    rw [hcont] at hrun
    cases hrun)

end NFdl
