import NFdl.Plugin.DnsDecompress

/-!
# Encoded DNS names

A name is encoded as labels, each with its length before it, that end in the root label or in
a pointer to the encoding of the rest of the name. Decompression gives the labels and the
length of the encoding up to the first pointer.
-/

namespace NFdl.Plugin

open Utf8 Machine

/-- The bytes between two positions are a label. -/
structure LabelAt (data : List UInt8) (pos : Nat) (label : List UInt8) : Prop where
  nonempty : 1 ≤ label.length
  short : label.length ≤ 63
  ascii : ∀ b ∈ label, b < 0x80
  lengthByte : data[pos]? = some (UInt8.ofNat label.length)
  bytes : (data.drop (pos + 1)).take label.length = label

/-- A name is encoded at a position: its labels, the targets of the pointers that its encoding
follows, and the number of bytes that it takes at this position. -/
inductive Encodes (data : List UInt8) : Nat → List (List UInt8) → List Nat → Nat → Prop
  | root {pos : Nat} (hroot : data[pos]? = some 0) : Encodes data pos [] [] 1
  | label {pos : Nat} {label : List UInt8} {labels : List (List UInt8)} {targets : List Nat}
      {wireLen : Nat} (hlabel : LabelAt data pos label)
      (hrest : Encodes data (pos + 1 + label.length) labels targets wireLen) :
      Encodes data pos (label :: labels) targets (1 + label.length + wireLen)
  | pointer {pos : Nat} {hi lo : UInt8} {labels : List (List UInt8)} {targets : List Nat}
      {wireLen : Nat} (hhi : data[pos]? = some hi) (hmark : hi &&& 0xC0 = 0xC0)
      (hlo : data[pos + 1]? = some lo)
      (htarget : Encodes data (pointerTarget hi lo) labels targets wireLen) :
      Encodes data pos labels (pointerTarget hi lo :: targets) 2

section Encodes

variable {data : List UInt8} {pos wireLen wireLen' : Nat} {label : List UInt8}
  {labels labels' : List (List UInt8)} {targets targets' : List Nat}

theorem LabelAt.toNat_length (h : LabelAt data pos label) :
    (UInt8.ofNat label.length).toNat = label.length := by
  rw [UInt8.toNat_ofNat', Nat.mod_eq_of_lt]
  have hshort := h.short
  omega

/-- The byte before a label is neither the root nor the mark of a pointer. -/
theorem LabelAt.lengthByte_ordinary (h : LabelAt data pos label) :
    UInt8.ofNat label.length ≠ 0 ∧ UInt8.ofNat label.length &&& 0xC0 ≠ 0xC0 := by
  have hall : ∀ n < 64, 1 ≤ n → UInt8.ofNat n ≠ 0 ∧ UInt8.ofNat n &&& 0xC0 ≠ 0xC0 := by decide
  exact hall _ (Nat.lt_succ_of_le h.short) h.nonempty

theorem LabelAt.end_le (h : LabelAt data pos label) : pos + 1 + label.length ≤ data.length := by
  have hlength := congrArg List.length h.bytes
  rw [List.length_take, List.length_drop] at hlength
  have hnonempty := h.nonempty
  omega

theorem LabelAt.unique {label' : List UInt8} (h : LabelAt data pos label)
    (h' : LabelAt data pos label') : label = label' := by
  have hbyte := Option.some.inj (h.lengthByte.symm.trans h'.lengthByte)
  have hlength : label.length = label'.length := by
    rw [← h.toNat_length, ← h'.toNat_length, hbyte]
  rw [← h.bytes, ← h'.bytes, hlength]

/-- The bytes at a position are the encoding of one name only. -/
theorem Encodes.unique (h : Encodes data pos labels targets wireLen)
    (h' : Encodes data pos labels' targets' wireLen') : targets = targets' := by
  induction h generalizing labels' targets' wireLen' with
  | root hroot =>
      cases h' with
      | root _ => rfl
      | label hlabel _ =>
          exact absurd (Option.some.inj (hlabel.lengthByte.symm.trans hroot))
            hlabel.lengthByte_ordinary.1
      | pointer hhi hmark _ _ =>
          obtain rfl := Option.some.inj (hhi.symm.trans hroot)
          exact absurd hmark (by decide)
  | label hlabel _ ih =>
      cases h' with
      | root hroot =>
          exact absurd (Option.some.inj (hlabel.lengthByte.symm.trans hroot))
            hlabel.lengthByte_ordinary.1
      | label hlabel' hrest' =>
          obtain rfl := hlabel.unique hlabel'
          exact ih hrest'
      | pointer hhi hmark _ _ =>
          obtain rfl := Option.some.inj (hlabel.lengthByte.symm.trans hhi)
          exact absurd hmark hlabel.lengthByte_ordinary.2
  | pointer hhi hmark hlo _ ih =>
      cases h' with
      | root hroot =>
          obtain rfl := Option.some.inj (hhi.symm.trans hroot)
          exact absurd hmark (by decide)
      | label hlabel _ =>
          obtain rfl := Option.some.inj (hlabel.lengthByte.symm.trans hhi)
          exact absurd hmark hlabel.lengthByte_ordinary.2
      | pointer hhi' _ hlo' htarget' =>
          obtain rfl := Option.some.inj (hhi.symm.trans hhi')
          obtain rfl := Option.some.inj (hlo.symm.trans hlo')
          rw [ih htarget']

/-- At the target of a pointer the rest of the name is encoded. -/
theorem Encodes.at_target {front back : List Nat} {target : Nat}
    (h : Encodes data pos labels targets wireLen) (hsplit : targets = front ++ target :: back) :
    ∃ labels' wireLen', Encodes data target labels' back wireLen' := by
  induction h generalizing front with
  | root _ => cases front <;> cases hsplit
  | label _ _ ih => exact ih hsplit
  | pointer _ _ _ htarget ih =>
      cases front with
      | nil =>
          obtain ⟨rfl, rfl⟩ := List.cons.inj hsplit
          exact ⟨_, _, htarget⟩
      | cons t front => exact ih (List.cons.inj hsplit).2

/-- The pointers of an encoded name form no loop. -/
theorem Encodes.nodup (h : Encodes data pos labels targets wireLen) : targets.Nodup := by
  induction h with
  | root _ => exact List.nodup_nil
  | label _ _ ih => exact ih
  | pointer _ _ _ htarget ih =>
      refine List.nodup_cons.mpr ⟨fun hmem => ?_, ih⟩
      obtain ⟨front, back, hsplit⟩ := List.append_of_mem hmem
      obtain ⟨_, _, hagain⟩ := htarget.at_target hsplit
      have hlength := congrArg List.length (hsplit.symm.trans (htarget.unique hagain))
      rw [List.length_append, List.length_cons] at hlength
      omega

theorem Encodes.end_le (h : Encodes data pos labels targets wireLen) :
    pos + wireLen ≤ data.length := by
  induction h with
  | root hroot => exact (List.getElem?_eq_some_iff.mp hroot).1
  | label _ _ ih => omega
  | pointer _ _ hlo _ _ =>
      have hlt := (List.getElem?_eq_some_iff.mp hlo).1
      omega

end Encodes

/-! ### Decompression follows the encoding -/

section Decompress

variable {data : List UInt8} {start pos wireLen : Nat} {labels : List (List UInt8)}
  {targets : List Nat} {s : Scan}

/-- Before the first pointer the length is counted from the start. -/
def lengthOnWire (start : Nat) (s : Scan) (wireLen : Nat) : UInt16 :=
  s.wireLen.getD (UInt16.ofNat (s.cur + wireLen - start))

theorem fixWireLen_eq {n : Nat} (hdata : data.length ≤ 65535) (hend : s.cur + n ≤ data.length) :
    fixWireLen start s n = .ok (lengthOnWire start s n) := by
  unfold fixWireLen lengthOnWire
  cases s.wireLen with
  | some len => rfl
  | none =>
      rw [addUsize, if_pos (by omega)]
      dsimp only
      rw [if_pos (by omega)]
      rfl

/-- A round that reads a byte of the buffer. -/
theorem dnsMove_byte {b : UInt8} (hbyte : data[s.cur]? = some b) :
    dnsMove data start s = if b = 0 then .error (rootLabel start s)
      else if b &&& 0xC0 = 0xC0 then compressionPointer data start b s
      else ordinaryLabel data b s := by
  have hlt := (List.getElem?_eq_some_iff.mp hbyte).1
  unfold dnsMove
  rw [if_neg (Nat.not_le_of_lt hlt), hbyte]

/-- The variables after a label was read. -/
def Scan.afterLabel (s : Scan) (label : List UInt8) : Scan :=
  { s with cur := s.cur + 1 + label.length, nameParts := s.nameParts ++ [asciiText label] }

/-- The variables after a pointer was followed. -/
def Scan.afterJump (s : Scan) (start target : Nat) : Scan :=
  { s with cur := target, jumps := s.jumps + 1, visited := s.visited ++ [target],
           wireLen := some (lengthOnWire start s 2) }

theorem dnsMove_label {label : List UInt8} (hdata : data.length ≤ 65535)
    (h : LabelAt data s.cur label) : dnsMove data start s = .ok (s.afterLabel label) := by
  obtain ⟨hzero, hmark⟩ := h.lengthByte_ordinary
  have hend := h.end_le
  rw [dnsMove_byte h.lengthByte, if_neg hzero, if_neg hmark]
  unfold ordinaryLabel
  rw [h.toNat_length, addUsize, if_pos (by omega), Option.bind_some, addUsize, if_pos (by omega)]
  dsimp only
  rw [if_neg (Nat.not_lt_of_le hend), sliceBytes, if_pos ⟨Nat.le_add_right _ _, hend⟩,
    Nat.add_sub_cancel_left, h.bytes]
  dsimp only
  rw [fromUtf8Lossy_ascii h.ascii]
  rfl

theorem dnsMove_pointer {hi lo : UInt8} (hdata : data.length ≤ 65535)
    (hhi : data[s.cur]? = some hi) (hmark : hi &&& 0xC0 = 0xC0) (hlo : data[s.cur + 1]? = some lo)
    (hjumps : s.jumps + 1 ≤ maxJumps) (hfresh : pointerTarget hi lo ∉ s.visited) :
    dnsMove data start s = .ok (s.afterJump start (pointerTarget hi lo)) := by
  have hzero : hi ≠ 0 := by
    rintro rfl
    exact absurd hmark (by decide)
  have hlt := (List.getElem?_eq_some_iff.mp hlo).1
  rw [dnsMove_byte hhi, if_neg hzero, if_pos hmark]
  unfold compressionPointer
  rw [addUsize, if_pos (by omega)]
  dsimp only
  rw [if_neg (Nat.not_le_of_lt hlt), if_neg (Nat.not_lt_of_le hjumps), hlo]
  dsimp only
  rw [if_neg (by simpa using hfresh), fixWireLen_eq hdata hlt]
  rfl

/-- From the position of an encoded name on, the loop collects the labels. -/
theorem Encodes.halts (h : Encodes data pos labels targets wireLen)
    (hdata : data.length ≤ 65535) (hcur : s.cur = pos)
    (hjumps : s.jumps + targets.length ≤ maxJumps)
    (hfresh : ∀ target ∈ targets, target ∉ s.visited) :
    Halts (dnsMove data start) s (.returned (.ok (.record
      [("name", .str (String.intercalate "." (s.nameParts ++ labels.map asciiText))),
        ("wire_len", .u16 (lengthOnWire start s wireLen))]))) := by
  have hnodup := h.nodup
  induction h generalizing s with
  | root hroot =>
      subst hcur
      have hlt := (List.getElem?_eq_some_iff.mp hroot).1
      refine .of_end ?_
      rw [dnsMove_byte hroot, if_pos rfl, rootLabel, fixWireLen_eq hdata hlt]
      dsimp only
      rw [finish, List.map_nil, List.append_nil]
  | @label pos label labels targets wireLen hlabel _ ih =>
      subst hcur
      have hhalts := ih (s := s.afterLabel label) rfl hjumps hfresh hnodup
      have hlength : lengthOnWire start (s.afterLabel label) wireLen =
          lengthOnWire start s (1 + label.length + wireLen) := by
        unfold lengthOnWire Scan.afterLabel
        rw [← Nat.add_assoc, ← Nat.add_assoc]
      have hparts : (s.afterLabel label).nameParts ++ labels.map asciiText =
          s.nameParts ++ (label :: labels).map asciiText := List.append_assoc ..
      rw [hlength, hparts] at hhalts
      exact .of_steps (.one (dnsMove_label hdata hlabel)) hhalts
  | @pointer pos hi lo labels targets wireLen hhi hmark hlo _ ih =>
      subst hcur
      obtain ⟨hnew, hnodup⟩ := List.nodup_cons.mp hnodup
      rw [List.length_cons] at hjumps
      have hfresh' : ∀ target ∈ targets,
          target ∉ (s.afterJump start (pointerTarget hi lo)).visited := by
        intro target hmem hvisited
        obtain hvisited | hlast := List.mem_append.mp hvisited
        · exact hfresh target (List.mem_cons_of_mem _ hmem) hvisited
        · obtain rfl := List.mem_singleton.mp hlast
          exact hnew hmem
      have hjumps' : (s.afterJump start (pointerTarget hi lo)).jumps + targets.length ≤
          maxJumps := by
        change s.jumps + 1 + targets.length ≤ maxJumps
        omega
      have hhalts := ih (s := s.afterJump start (pointerTarget hi lo)) rfl hjumps' hfresh' hnodup
      exact .of_steps (.one (dnsMove_pointer hdata hhi hmark hlo (by omega)
        (hfresh _ (List.mem_cons_self ..)))) hhalts

end Decompress

/-- Decompression ends for every buffer and offset with a name or an error, and reads nothing
outside of the buffer. A name that is encoded at the offset with at most `maxJumps` pointers
comes back as its labels joined by dots, with the number of bytes of its encoding there. -/
theorem dns_decompress_inverts (root : BufView) :
    (∃ result, dnsDecompress root = some (.returned result)) ∧
      ∀ (labels : List (List UInt8)) (targets : List Nat) (wireLen : Nat),
        Encodes root.data root.offset labels targets wireLen → targets.length ≤ maxJumps →
        root.data.length ≤ 65535 →
        dnsDecompress root = some (.returned (.ok (.record
          [("name", .str (String.intercalate "." (labels.map asciiText))),
            ("wire_len", .u16 (UInt16.ofNat wireLen))]))) ∧
          (UInt16.ofNat wireLen).toNat = wireLen := by
  refine ⟨dnsDecompress_total root, fun labels targets wireLen hname hjumps hdata => ?_⟩
  have hend := hname.end_le
  have hlength : lengthOnWire root.offset (scanFrom root.offset) wireLen =
      UInt16.ofNat wireLen := by
    unfold lengthOnWire scanFrom
    rw [Option.getD_none, Nat.add_sub_cancel_left]
  have hstart : (scanFrom root.offset).jumps + targets.length ≤ maxJumps := by
    rw [scanFrom, Nat.zero_add]
    exact hjumps
  have hhalts : Halts (dnsMove root.data root.offset) (scanFrom root.offset) _ :=
    hname.halts hdata rfl hstart fun _ _ h => absurd h List.not_mem_nil
  constructor
  · obtain ⟨result, hresult⟩ := dnsDecompress_total root
    have hrun := hresult
    unfold dnsDecompress at hrun
    rw [if_neg (by omega)] at hrun
    rw [hresult, Option.some_inj]
    refine (Halts.of_run hrun).unique ?_
    rw [hlength] at hhalts
    exact hhalts
  · rw [UInt16.toNat_ofNat', Nat.mod_eq_of_lt (by omega)]

/-- The name `com`, and behind it the name `a` whose encoding goes on with a pointer to it. -/
def pointedName : List UInt8 := [3, 0x63, 0x6F, 0x6D, 0, 1, 0x61, 0xC0, 0]

theorem pointedName_encodes : Encodes pointedName 5 [[0x61], [0x63, 0x6F, 0x6D]] [0] 4 := by
  have hcom : LabelAt pointedName 0 [0x63, 0x6F, 0x6D] :=
    ⟨by decide, by decide, by simp, rfl, rfl⟩
  have ha : LabelAt pointedName 5 [0x61] := ⟨by decide, by decide, by simp, rfl, rfl⟩
  have hrest : Encodes pointedName 7 [[0x63, 0x6F, 0x6D]] [0] 2 :=
    @Encodes.pointer pointedName 7 0xC0 0 _ _ _ rfl (by decide) rfl (.label hcom (.root rfl))
  exact .label ha hrest

theorem dns_decompress_inverts_pointed :
    dnsDecompress ⟨pointedName, 5, by decide⟩ = some (.returned (.ok (.record
      [("name", .str "a.com"), ("wire_len", .u16 4)]))) := by
  have h := (dns_decompress_inverts ⟨pointedName, 5, by decide⟩).2 _ _ _ pointedName_encodes
    (by decide) (by decide)
  exact h.1

end NFdl.Plugin
