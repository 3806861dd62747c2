import NFdl.Syntax.Parser
import NFdl.Verify.Intervals

/-!
# When the interval analysis overflows

The bounds of intervals are 64-bit integers, and only one branch of the analysis computes
with bounds that come from the source: a known field moved by a literal. Its result
overflows when the upper bound of the field, moved by the literal, is too large. For a
field of 32 bits that bound is the largest integer already.
-/

namespace NFdl

open Text

/-! ### Arithmetic on bounds -/

theorem checkedInt64_eq_none {i : ℤ} : checkedInt64 i = none ↔ i < -2 ^ 63 ∨ 2 ^ 63 ≤ i := by
  unfold checkedInt64
  split
  · rename_i hrange
    exact iff_of_false nofun (by omega)
  · rename_i hrange
    exact iff_of_true rfl (by omega)

namespace Interval

theorem add_eq_none {i other : Interval} : i.add other = none ↔
    checkedInt64 (i.lo + other.lo) = none ∨ checkedInt64 (i.hi + other.hi) = none := by
  unfold add
  cases checkedInt64 (i.lo + other.lo) <;> cases checkedInt64 (i.hi + other.hi) <;> simp

theorem sub_eq_none {i other : Interval} : i.sub other = none ↔
    checkedInt64 (i.lo - other.hi) = none ∨ checkedInt64 (i.hi - other.lo) = none := by
  unfold sub
  cases checkedInt64 (i.lo - other.hi) <;> cases checkedInt64 (i.hi - other.lo) <;> simp

variable {h c : ℤ}

/-- An interval from zero can be moved up unless its upper bound gets too large. -/
theorem add_literal_eq_none (hh : 0 ≤ h) (hlo : -2 ^ 63 ≤ c) :
    add ⟨0, h⟩ (new c c) = none ↔ 2 ^ 63 ≤ h + c := by
  simp only [add_eq_none, checkedInt64_eq_none, new, min_self, max_self]
  omega

/-- An interval from zero can be moved down unless its upper bound gets too large. -/
theorem sub_literal_eq_none (hh : 0 ≤ h) (hhi : c < 2 ^ 63) :
    sub ⟨0, h⟩ (new c c) = none ↔ 2 ^ 63 ≤ h - c := by
  simp only [sub_eq_none, checkedInt64_eq_none, new, min_self, max_self]
  omega

end Interval

/-! ### The intervals of fields -/

/-- The largest value that the analysis assumes for a scalar. -/
def NfdlType.scalarMax : NfdlType → Option ℤ
  | .u8 => some (2 ^ 8 - 1)
  | .u16 => some (2 ^ 16 - 1)
  | .u24 => some (2 ^ 24 - 1)
  | .u32 => some (2 ^ 63 - 1)
  | _ => none

/-- The fields of a message and of its loops. -/
def Message.sliceFields (msg : Message) : List Field := msg.fields ++ msg.loops.flatMap Loop.body

/-- A scalar of the name replaces what is known. -/
def noteScalar (name : String) (known : Option ℤ) (f : Field) : Option ℤ :=
  if f.name = name then f.ty.scalarMax.or known else known

/-- The largest value that is assumed for a name: that of the last scalar of the name. -/
def Message.scalarMax (msg : Message) (name : String) : Option ℤ :=
  msg.sliceFields.foldl (noteScalar name) none

theorem scalarInterval_eq (ty : NfdlType) :
    scalarInterval ty = ty.scalarMax.map (Interval.mk 0) := by
  cases ty <;> rfl

theorem NfdlType.scalarMax_nonneg {ty : NfdlType} {h : ℤ} (hmax : ty.scalarMax = some h) :
    0 ≤ h := by
  cases ty <;> simp only [scalarMax, Option.some.injEq, reduceCtorEq] at hmax <;> omega

/-- Seeding follows the last scalar of a name. -/
theorem lookup_seedFieldIntervals (name : String) (fields : List Field) :
    ∀ (facts : Facts) (known : Option ℤ),
      facts.lookup name = known.map (Interval.mk 0) →
        (seedFieldIntervals fields facts).lookup name =
          (fields.foldl (noteScalar name) known).map (Interval.mk 0) := by
  induction fields with
  | nil => exact fun _ _ h => h
  | cons f fields ih =>
      intro facts known h
      refine ih _ _ ?_
      dsimp only [noteScalar]
      rw [scalarInterval_eq]
      by_cases hname : f.name = name
      · subst hname
        cases hmax : f.ty.scalarMax with
        | none => simpa using h
        | some m => simp
      · cases hmax : f.ty.scalarMax with
        | none => simpa [hname] using h
        | some m => simpa [hname, AList.lookup_insert_ne (Ne.symm hname)] using h

theorem seedFieldIntervals_append (fields more : List Field) (facts : Facts) :
    seedFieldIntervals (fields ++ more) facts =
      seedFieldIntervals more (seedFieldIntervals fields facts) := List.foldl_append

theorem messageFacts_eq (msg : Message) :
    messageFacts msg = seedFieldIntervals msg.sliceFields ∅ := by
  unfold messageFacts Message.sliceFields
  rw [seedFieldIntervals_append]
  generalize seedFieldIntervals msg.fields ∅ = facts
  induction msg.loops generalizing facts with
  | nil => rfl
  | cons lp loops ih => rw [List.foldl_cons, List.flatMap_cons, seedFieldIntervals_append, ih]

theorem lookup_messageFacts (msg : Message) (name : String) :
    (messageFacts msg).lookup name = (msg.scalarMax name).map (Interval.mk 0) := by
  rw [messageFacts_eq]
  exact lookup_seedFieldIntervals name msg.sliceFields ∅ none (AList.lookup_empty name)

theorem Message.scalarMax_nonneg {msg : Message} {name : String} {h : ℤ}
    (hmax : msg.scalarMax name = some h) : 0 ≤ h := by
  unfold scalarMax at hmax
  suffices hall : ∀ (fields : List Field) (known : Option ℤ), (∀ k ∈ known, 0 ≤ k) →
      ∀ k ∈ fields.foldl (noteScalar name) known, 0 ≤ k from
    hall _ none nofun h hmax
  intro fields
  induction fields with
  | nil => exact fun _ hknown => hknown
  | cons f fields ih =>
      intro known hknown
      refine ih _ fun k hk => ?_
      unfold noteScalar at hk
      split at hk
      · cases hty : f.ty.scalarMax with
        | none =>
            rw [hty] at hk
            exact hknown k hk
        | some m =>
            rw [hty] at hk
            cases hk
            exact NfdlType.scalarMax_nonneg hty
      · exact hknown k hk

/-! ### The analysis of a length -/

/-- That a slice length, where it is analysed as a field moved by a literal, keeps the upper
bound of the field below the bound of 64-bit integers. -/
def Message.LengthFits (msg : Message) (len : Expr) : Prop :=
  let text := trim (exprToString len)
  parseInt64 text = none → modulusBound text = none →
    ∀ left op right, parseSimpleArith text = some (left, op, right) →
      ∀ h, msg.scalarMax (String.ofList left) = some h → ∀ c, parseInt64 right = some c →
        (if op = '-' then h - c else h + c) < 2 ^ 63

theorem parseInt64_range {cs : List Char} {i : ℤ} (h : parseInt64 cs = some i) :
    -2 ^ 63 ≤ i ∧ i < 2 ^ 63 := by
  unfold parseInt64 at h
  exact of_decide_eq_true (Option.filter_eq_some_iff.mp h).2

/-- A split is at a minus sign or a plus sign. -/
theorem parseSimpleArith_op {expr left right : List Char} {op : Char}
    (h : parseSimpleArith expr = some (left, op, right)) : op = '-' ∨ op = '+' := by
  unfold parseSimpleArith at h
  dsimp only at h
  split at h
  · cases h
    exact .inl rfl
  · obtain ⟨parts, -, hparts⟩ := Option.map_eq_some_iff.mp h
    cases hparts
    exact .inr rfl

/-- The interval of a field moved by a literal is missing if the moved upper bound is too
large. -/
theorem shiftedFact_eq_overflow {msg : Message} {text : List Char} :
    shiftedFact (messageFacts msg) text = some none ↔
      ∃ left op right, parseSimpleArith text = some (left, op, right) ∧
        ∃ h, msg.scalarMax (String.ofList left) = some h ∧ ∃ c, parseInt64 right = some c ∧
          2 ^ 63 ≤ if op = '-' then h - c else h + c := by
  unfold shiftedFact
  cases hsplit : parseSimpleArith text with
  | none => simp
  | some parts =>
      obtain ⟨left, op, right⟩ := parts
      cases hmax : msg.scalarMax (String.ofList left) with
      | none => simp [lookup_messageFacts, hmax]
      | some h =>
          cases hint : parseInt64 right with
          | none => simp [lookup_messageFacts, hmax, hint]
          | some c =>
              have hh := Message.scalarMax_nonneg hmax
              obtain ⟨hlo, hhi⟩ := parseInt64_range hint
              obtain rfl | rfl := parseSimpleArith_op hsplit
              · simpa [lookup_messageFacts, hmax, hint] using Interval.sub_literal_eq_none hh hhi
              · simpa [lookup_messageFacts, hmax, hint] using Interval.add_literal_eq_none hh hlo

/-- A field moved by a literal has an interval if the moved upper bound fits, and everything
else has one anyway. -/
theorem analyzeExpr_isSome (msg : Message) (len : Expr) :
    (analyzeExpr (messageFacts msg) (exprToString len)).isSome ↔ msg.LengthFits len := by
  unfold analyzeExpr Message.LengthFits
  dsimp only
  generalize trim (exprToString len) = text
  cases hint : parseInt64 text with
  | some c => exact iff_of_true rfl nofun
  | none =>
      cases hmod : modulusBound text with
      | some x => exact iff_of_true rfl nofun
      | none =>
          dsimp only
          have hover := @shiftedFact_eq_overflow msg text
          rcases hshift : shiftedFact (messageFacts msg) text with _ | _ | i
          · rw [hshift] at hover
            refine iff_of_true rfl ?_
            intro _ _ left op right hsplit h hmax c hc
            by_contra hlarge
            exact nomatch hover.mpr ⟨left, op, right, hsplit, h, hmax, c, hc, by omega⟩
          · obtain ⟨left, op, right, hsplit, h, hmax, c, hc, hlarge⟩ := hover.mp hshift
            refine iff_of_false nofun fun hfits => ?_
            have hsmall := hfits rfl rfl left op right hsplit h hmax c hc
            omega
          · rw [hshift] at hover
            refine iff_of_true rfl ?_
            intro _ _ left op right hsplit h hmax c hc
            by_contra hlarge
            exact nomatch hover.mpr ⟨left, op, right, hsplit, h, hmax, c, hc, by omega⟩

/-! ### The analysis of a protocol -/

theorem checkFieldSlice_isSome (msg : Message) (field : Field) :
    (checkFieldSlice (messageFacts msg) field).isSome ↔
      ∀ len, field.ty = .bytes len → msg.LengthFits len := by
  unfold checkFieldSlice
  cases hty : field.ty with
  | bytes len =>
      have hlen := analyzeExpr_isSome msg len
      constructor
      · rintro h _ ⟨⟩
        refine hlen.mp ?_
        dsimp only at h
        cases hi : analyzeExpr (messageFacts msg) (exprToString len) with
        | none =>
            rw [hi] at h
            cases h
        | some i => rfl
      · intro h
        obtain ⟨i, hi⟩ := Option.isSome_iff_exists.mp (hlen.mpr (h len rfl))
        simp only [hi, Option.bind_eq_bind, Option.bind_some]
        split
        · rfl
        · split <;> rfl
  | _ => exact iff_of_true rfl nofun

theorem mapM_isSome {α β : Type} (f : α → Option β) (as : List α) :
    (as.mapM f).isSome ↔ ∀ a ∈ as, (f a).isSome := by
  induction as with
  | nil => exact iff_of_true rfl nofun
  | cons a as ih =>
      rw [List.forall_mem_cons, ← ih, List.mapM_cons]
      cases f a <;> cases as.mapM f <;> simp

theorem verifyMessage_isSome (msg : Message) :
    (verifyMessage msg).isSome ↔
      ∀ field ∈ msg.sliceFields, ∀ len, field.ty = .bytes len → msg.LengthFits len := by
  have hmap := mapM_isSome (checkFieldSlice (messageFacts msg)) msg.sliceFields
  simp only [checkFieldSlice_isSome] at hmap
  rw [← hmap]
  unfold verifyMessage Message.sliceFields
  cases (msg.fields ++ msg.loops.flatMap Loop.body).mapM (checkFieldSlice (messageFacts msg)) <;>
    simp

/-- The analysis overflows on the protocols that have a slice whose length is a scalar moved by
a literal out of the range of 64-bit integers, and on no others. -/
theorem verifyProtocol_isSome_iff (proto : Protocol) :
    (verifyProtocol proto).isSome ↔
      ∀ msg ∈ proto.messages, ∀ field ∈ msg.sliceFields, ∀ len, field.ty = .bytes len →
        msg.LengthFits len := by
  have hmap := mapM_isSome verifyMessage proto.messages
  simp only [verifyMessage_isSome] at hmap
  rw [← hmap]
  unfold verifyProtocol
  cases proto.messages.mapM verifyMessage <;> simp

/-- Whether a source is parsed and its analysis overflows. -/
def analysisOverflows : Except ParseError SourceProtocol → Bool
  | .ok proto => (verifyProtocol proto.toProtocol).isNone
  | .error _ => false

/-- A length of 32 bits, less a negative number. -/
def prefixedRecord : List Char :=
  "protocol P \x7b message M \x7b length: u32; data: bytes[length - -1]; \x7d \x7d".toList

/-- The parser accepts the record, and its analysis adds one to the largest integer. -/
theorem verifyProtocol_overflows : ∃ proto,
    parseProtocol (Lexer.tokens prefixedRecord) = .ok proto ∧
      verifyProtocol proto.toProtocol = none := by
  have hover : analysisOverflows (parseProtocol (Lexer.tokens prefixedRecord)) = true := by
    decide +kernel
  cases hparse : parseProtocol (Lexer.tokens prefixedRecord) with
  | error e =>
      rw [hparse] at hover
      cases hover
  | ok proto =>
      rw [hparse] at hover
      exact ⟨proto, rfl, Option.isNone_iff_eq_none.mp hover⟩

end NFdl
