import NFdl.Lib.SortedMap
import NFdl.Lib.Inputs
import Mathlib.Data.Fin.Basic
import Mathlib.Order.Fin.Basic
import Mathlib.Data.ZMod.Defs

/-!
# Stream reassembly

The reassembler collects the segments of one direction of a TCP stream. Segments
that arrive in order are appended to the contiguous buffer, later ones wait in a
map ordered by their raw sequence numbers. Sequence numbers are 32 bits wide and
wrap.
-/

namespace NFdl

abbrev SeqNo := Fin (2 ^ 32)

/-- The cast `as u32` of a length. -/
def asU32 (n : Nat) : SeqNo := Fin.ofNat (2 ^ 32) n

inductive ReassemblyError where
  | needMoreBytes (n : Nat)
  | overlapConflict
  | limitExceeded
  deriving DecidableEq, Repr

structure Reassembler where
  baseSeq : SeqNo
  contiguous : List UInt8
  ooo : SortedMap SeqNo (List UInt8)
  nextSeq : SeqNo
  maxBuffer : Nat

namespace Reassembler

def new (initialSeq : SeqNo) : Reassembler where
  baseSeq := initialSeq
  contiguous := []
  ooo := .empty
  nextSeq := initialSeq
  maxBuffer := 2 ^ 20

/-- A segment that begins at the next expected sequence number is appended. -/
def append (r : Reassembler) (data : List UInt8) : Reassembler :=
  { r with contiguous := r.contiguous ++ data, nextSeq := r.nextSeq + asU32 data.length }

/-- One round of the loop that drains the stored segments: the first one at or
after the next sequence number is taken if it begins exactly there. -/
def pop? (r : Reassembler) : Option Reassembler :=
  match r.ooo.firstFrom r.nextSeq with
  | some (next, seg) =>
      if next = r.nextSeq then some { r.append seg with ooo := r.ooo.remove next } else none
  | none => none

def drainLoop : Nat → Reassembler → Reassembler
  | 0, r => r
  | fuel + 1, r =>
      match r.pop? with
      | some r' => drainLoop fuel r'
      | none => r

/-- Every round takes a stored segment away, so their number bounds the rounds. -/
def drain (r : Reassembler) : Reassembler := drainLoop r.ooo.entries.length r

/-- A segment ahead of the next sequence number is stored, unless one at least
as long is stored under the same number. -/
def store (r : Reassembler) (seq : SeqNo) (data : List UInt8) : Reassembler :=
  match r.ooo.get? seq with
  | some existing =>
      if existing.length < data.length then { r with ooo := r.ooo.insert seq data } else r
  | none => { r with ooo := r.ooo.insert seq data }

def acceptSegment (r : Reassembler) (seq : SeqNo) (data : List UInt8) :
    Except ReassemblyError Unit × Reassembler :=
  if r.contiguous.length + data.length > r.maxBuffer then (.error .limitExceeded, r)
  else if seq = r.nextSeq then (.ok (), (r.append data).drain)
  else if seq > r.nextSeq then (.ok (), r.store seq data)
  else (.ok (), r)

/-- Drop the processed prefix, except for `keep` bytes. -/
def compact (r : Reassembler) (keep : Nat) : Reassembler :=
  if r.contiguous.length > keep then
    let drained := r.contiguous.length - keep
    { r with contiguous := r.contiguous.drop drained, baseSeq := r.baseSeq + asU32 drained }
  else r

end Reassembler

/-- The calls that change a reassembler. -/
inductive ReassemblerCall where
  | acceptSegment (seq : SeqNo) (data : List UInt8)
  | compact (keep : Nat)

namespace Reassembler

def call (r : Reassembler) : ReassemblerCall → Reassembler
  | .acceptSegment seq data => (r.acceptSegment seq data).2
  | .compact keep => r.compact keep

/-- The number of bytes held: the contiguous buffer and the stored segments. -/
def held (r : Reassembler) : Nat := r.contiguous.length + r.ooo.total List.length

/-! ### What the operations do -/

section Operations

variable {r r' : Reassembler} {seq : SeqNo} {data : List UInt8}

@[simp] theorem append_contiguous : (r.append data).contiguous = r.contiguous ++ data := rfl
@[simp] theorem append_nextSeq :
    (r.append data).nextSeq = r.nextSeq + asU32 data.length := rfl
@[simp] theorem append_baseSeq : (r.append data).baseSeq = r.baseSeq := rfl
@[simp] theorem append_ooo : (r.append data).ooo = r.ooo := rfl
@[simp] theorem append_maxBuffer : (r.append data).maxBuffer = r.maxBuffer := rfl

/-- A round of the drain loop takes the segment stored at the next sequence
number. -/
theorem pop?_eq_some_iff : r.pop? = some r' ↔
    ∃ seg, r.ooo.get? r.nextSeq = some seg ∧
      r' = { r.append seg with ooo := r.ooo.remove r.nextSeq } := by
  unfold pop?
  cases hfirst : r.ooo.firstFrom r.nextSeq with
  | none =>
      refine ⟨fun h => absurd h nofun, fun ⟨seg, hseg, _⟩ => ?_⟩
      rw [(r.ooo.firstFrom_key_iff ..).mpr hseg] at hfirst
      cases hfirst
  | some e =>
      obtain ⟨next, seg⟩ := e
      by_cases heq : next = r.nextSeq
      · subst heq
        have hget := (r.ooo.firstFrom_key_iff ..).mp hfirst
        simp only [if_true, Option.some.injEq, hget, exists_eq_left', eq_comm]
      · simp only [if_neg heq]
        refine ⟨fun h => absurd h nofun, fun ⟨seg', hseg, _⟩ => ?_⟩
        rw [(r.ooo.firstFrom_key_iff ..).mpr hseg] at hfirst
        exact absurd (congrArg Prod.fst (Option.some.inj hfirst)).symm heq

theorem pop?_eq_none_iff : r.pop? = none ↔ r.ooo.get? r.nextSeq = none := by
  rw [← not_iff_not, ← ne_eq, ← ne_eq, Option.ne_none_iff_exists', Option.ne_none_iff_exists']
  constructor
  · rintro ⟨r', hr'⟩
    obtain ⟨seg, hseg, _⟩ := pop?_eq_some_iff.mp hr'
    exact ⟨seg, hseg⟩
  · rintro ⟨seg, hseg⟩
    exact ⟨_, pop?_eq_some_iff.mpr ⟨seg, hseg, rfl⟩⟩

/-- What every round of the drain loop preserves holds after it. -/
theorem drain_invariant {P : Reassembler → Prop}
    (hpop : ∀ r r', P r → r.pop? = some r' → P r') (hr : P r) : P r.drain := by
  suffices h : ∀ fuel r, P r → P (drainLoop fuel r) from h _ r hr
  intro fuel
  induction fuel with
  | zero => exact fun r hr => hr
  | succ fuel ih =>
      intro r hr
      unfold drainLoop
      cases hp : r.pop? with
      | none => exact hr
      | some r' => exact ih r' (hpop r r' hr hp)

theorem length_pop?_lt (h : r.pop? = some r') :
    r'.ooo.entries.length < r.ooo.entries.length := by
  obtain ⟨seg, hseg, rfl⟩ := pop?_eq_some_iff.mp h
  exact r.ooo.length_remove_lt hseg

/-- After draining, nothing is stored at the next sequence number. -/
theorem get?_drain : r.drain.ooo.get? r.drain.nextSeq = none := by
  suffices h : ∀ fuel r, r.ooo.entries.length ≤ fuel → (drainLoop fuel r).pop? = none from
    pop?_eq_none_iff.mp (h _ r (Nat.le_refl _))
  intro fuel
  induction fuel with
  | zero =>
      intro r hr
      cases hp : r.pop? with
      | none => exact hp
      | some r' => exact absurd (length_pop?_lt hp) (by omega)
  | succ fuel ih =>
      intro r hr
      unfold drainLoop
      cases hp : r.pop? with
      | none => exact hp
      | some r' => exact ih r' (by have := length_pop?_lt hp; omega)

@[simp] theorem drain_maxBuffer : r.drain.maxBuffer = r.maxBuffer := by
  refine drain_invariant (P := fun r' => r'.maxBuffer = r.maxBuffer) (fun a b ha hb => ?_) rfl
  obtain ⟨seg, _, rfl⟩ := pop?_eq_some_iff.mp hb
  exact ha

@[simp] theorem drain_held : r.drain.held = r.held := by
  refine drain_invariant (P := fun r' => r'.held = r.held) (fun a b ha hb => ?_) rfl
  obtain ⟨seg, hseg, rfl⟩ := pop?_eq_some_iff.mp hb
  have := a.ooo.total_remove List.length a.nextSeq
  simp only [held, append_contiguous, List.length_append, hseg, Option.elim] at this ha ⊢
  omega

@[simp] theorem store_maxBuffer : (r.store seq data).maxBuffer = r.maxBuffer := by
  unfold store
  split
  · split <;> rfl
  · rfl

@[simp] theorem call_maxBuffer (c : ReassemblerCall) : (r.call c).maxBuffer = r.maxBuffer := by
  cases c with
  | acceptSegment seq data =>
      simp only [call, acceptSegment]
      split
      · rfl
      · split
        · simp
        · split <;> simp
  | compact keep =>
      simp only [call, compact]
      split <;> rfl

end Operations

/-! ### Soundness -/

/-- The sequence number of the byte at an offset of the stream. -/
def seqAt (isn : SeqNo) (off : Nat) : SeqNo := isn + asU32 off

/-- The segment's bytes are the stream's at the segment's offset. -/
def Agrees (stream : List UInt8) (isn seq : SeqNo) (data : List UInt8) : Prop :=
  ∃ off, seq = seqAt isn off ∧ data <+: stream.drop off

@[simp] theorem seqAt_zero (isn : SeqNo) : seqAt isn 0 = isn := by
  simp [seqAt, asU32]

theorem seqAt_val (isn : SeqNo) (off : Nat) : (seqAt isn off).val = (isn.val + off) % 2 ^ 32 := by
  simp [seqAt, asU32, Fin.val_add]

theorem seqAt_add (isn : SeqNo) (off n : Nat) : seqAt isn off + asU32 n = seqAt isn (off + n) := by
  apply Fin.ext
  rw [Fin.val_add, seqAt_val, seqAt_val]
  simp only [asU32, Fin.val_ofNat]
  omega

theorem seqAt_inj {isn : SeqNo} {a b : Nat} (ha : a < 2 ^ 32) (hb : b < 2 ^ 32)
    (h : seqAt isn a = seqAt isn b) : a = b := by
  have hval := congrArg Fin.val h
  rw [seqAt_val, seqAt_val] at hval
  have := isn.isLt
  omega

theorem seqAt_sub {isn : SeqNo} {off : Nat} (h : off < 2 ^ 32) : (seqAt isn off - isn).val = off := by
  have := isn.isLt
  simp only [Fin.sub_def, seqAt_val]
  omega

/-- The buffer holds the stream's bytes from offset `b` to offset `p`, and every
stored segment is a part of the stream. -/
structure Sound (stream : List UInt8) (isn : SeqNo) (b p : Nat) (r : Reassembler) : Prop where
  base : r.baseSeq = seqAt isn b
  next : r.nextSeq = seqAt isn p
  base_le : b ≤ p
  next_le : p ≤ stream.length
  contiguous : r.contiguous = (stream.take p).drop b
  stored : ∀ seq data, r.ooo.get? seq = some data → Agrees stream isn seq data

section Soundness

variable {stream data : List UInt8} {isn seq : SeqNo} {b p limit : Nat} {r : Reassembler}

theorem Sound.length (h : Sound stream isn b p r) : r.contiguous.length = p - b := by
  have := h.next_le
  rw [h.contiguous, List.length_drop, List.length_take]
  omega

/-- A segment that agrees with the stream and begins at an offset's sequence
number holds the bytes at that offset. -/
theorem Agrees.prefix_drop (hlen : stream.length < 2 ^ 32) (hp : p ≤ stream.length)
    (h : Agrees stream isn (seqAt isn p) data) : data <+: stream.drop p := by
  obtain ⟨off, hseq, hdata⟩ := h
  by_cases hoff : off < stream.length
  · rwa [seqAt_inj (by omega) (by omega) hseq]
  · rw [List.drop_eq_nil_of_le (Nat.not_lt.mp hoff)] at hdata
    rw [List.prefix_nil.mp hdata]
    exact List.nil_prefix ..

theorem take_append_of_prefix_drop (h : data <+: stream.drop p) :
    stream.take p ++ data = stream.take (p + data.length) := by
  rw [List.take_add, ← List.prefix_iff_eq_take.mp h]

/-- Appending the bytes that follow in the stream extends the buffer. -/
theorem Sound.append (h : Sound stream isn b p r) (hdata : data <+: stream.drop p) :
    Sound stream isn b (p + data.length) (r.append data) where
  base := h.base
  next := by rw [append_nextSeq, h.next, seqAt_add]
  base_le := by have := h.base_le; omega
  next_le := by
    have := hdata.length_le
    have := h.next_le
    rw [List.length_drop] at *
    omega
  contiguous := by
    have hb : b ≤ (stream.take p).length := by
      have := h.base_le
      have := h.next_le
      rw [List.length_take]
      omega
    rw [append_contiguous, h.contiguous, ← take_append_of_prefix_drop hdata,
      List.drop_append_of_le_length hb]
  stored := h.stored

theorem Sound.remove (h : Sound stream isn b p r) (seq : SeqNo) :
    Sound stream isn b p { r with ooo := r.ooo.remove seq } where
  base := h.base
  next := h.next
  base_le := h.base_le
  next_le := h.next_le
  contiguous := h.contiguous
  stored := by
    intro seq' data hget
    by_cases hseq : seq' = seq
    · subst hseq
      simp at hget
    · exact h.stored seq' data (by rwa [r.ooo.get?_remove_ne hseq] at hget)

theorem Sound.stored_prefix (hlen : stream.length < 2 ^ 32) (h : Sound stream isn b p r)
    (hdata : r.ooo.get? r.nextSeq = some data) : data <+: stream.drop p := by
  have hagree := h.stored _ _ hdata
  rw [h.next] at hagree
  exact hagree.prefix_drop hlen h.next_le

theorem Sound.pop (hlen : stream.length < 2 ^ 32) {r' : Reassembler}
    (h : Sound stream isn b p r) (hpop : r.pop? = some r') :
    ∃ p', Sound stream isn b p' r' := by
  obtain ⟨seg, hseg, rfl⟩ := pop?_eq_some_iff.mp hpop
  exact ⟨_, (h.append (h.stored_prefix hlen hseg)).remove r.nextSeq⟩

theorem Sound.drain (hlen : stream.length < 2 ^ 32) (h : Sound stream isn b p r) :
    ∃ p', Sound stream isn b p' r.drain :=
  drain_invariant (P := fun r => ∃ p, Sound stream isn b p r)
    (fun _ _ ⟨_, h⟩ hpop => h.pop hlen hpop) ⟨p, h⟩

theorem Sound.insert (h : Sound stream isn b p r) (hdata : Agrees stream isn seq data) :
    Sound stream isn b p { r with ooo := r.ooo.insert seq data } where
  base := h.base
  next := h.next
  base_le := h.base_le
  next_le := h.next_le
  contiguous := h.contiguous
  stored := by
    intro seq' data' hget
    by_cases hseq : seq' = seq
    · subst hseq
      rw [SortedMap.get?_insert] at hget
      rwa [← Option.some.inj hget]
    · rw [r.ooo.get?_insert_ne data hseq] at hget
      exact h.stored seq' data' hget

theorem Sound.store (h : Sound stream isn b p r) (hdata : Agrees stream isn seq data) :
    Sound stream isn b p (r.store seq data) := by
  unfold Reassembler.store
  split
  · split
    · exact h.insert hdata
    · exact h
  · exact h.insert hdata

/-- Accepting a segment of the stream moves the end of the buffer only. -/
theorem Sound.acceptSegment (hlen : stream.length < 2 ^ 32) (h : Sound stream isn b p r)
    (hdata : Agrees stream isn seq data) :
    ∃ p', Sound stream isn b p' (r.acceptSegment seq data).2 := by
  unfold Reassembler.acceptSegment
  split
  · exact ⟨p, h⟩
  · split
    · rename_i hseq
      rw [hseq, h.next] at hdata
      exact (h.append (hdata.prefix_drop hlen h.next_le)).drain hlen
    · split
      · exact ⟨p, h.store hdata⟩
      · exact ⟨p, h⟩

/-- Compaction moves the start of the buffer only. -/
theorem Sound.compact (h : Sound stream isn b p r) (keep : Nat) :
    ∃ b', Sound stream isn b' p (r.compact keep) := by
  unfold Reassembler.compact
  split
  · have hlength := h.length
    refine ⟨b + (r.contiguous.length - keep), { h with base := ?_, base_le := ?_, contiguous := ?_ }⟩
    · change r.baseSeq + _ = _
      rw [h.base, seqAt_add]
    · have := h.base_le
      omega
    · change r.contiguous.drop _ = _
      rw [← List.drop_drop, ← h.contiguous]
  · exact ⟨b, h⟩

theorem sound_new (isn : SeqNo) (limit : Nat) :
    Sound stream isn 0 0 { new isn with maxBuffer := limit } where
  base := (seqAt_zero isn).symm
  next := (seqAt_zero isn).symm
  base_le := Nat.le_refl 0
  next_le := Nat.zero_le _
  contiguous := by simp [new]
  stored := fun seq data h => by simp [new] at h

/-- Every state that calls with segments of the stream lead to is sound. -/
theorem exists_sound (limit : Nat) (hlen : stream.length < 2 ^ 32) (calls : List ReassemblerCall)
    (hcalls : ∀ seq data, .acceptSegment seq data ∈ calls → Agrees stream isn seq data) :
    ∃ b p, Sound stream isn b p
      (calls.foldl call { new isn with maxBuffer := limit }) := by
  suffices h : ∀ r, (∃ b p, Sound stream isn b p r) → ∃ b p, Sound stream isn b p (calls.foldl call r)
    from h _ ⟨0, 0, sound_new isn limit⟩
  induction calls with
  | nil => exact fun r hr => hr
  | cons c calls ih =>
      rintro r ⟨b, p, hr⟩
      refine ih (fun seq data h => hcalls seq data (List.mem_cons_of_mem c h)) (r.call c) ?_
      cases c with
      | acceptSegment seq data =>
          obtain ⟨p', h⟩ := hr.acceptSegment hlen (hcalls seq data (List.mem_cons_self ..))
          exact ⟨b, p', h⟩
      | compact keep =>
          obtain ⟨b', h⟩ := hr.compact keep
          exact ⟨b', p, h⟩

/-- The buffer always is exactly the stretch of the stream between the base and
the next sequence number. -/
theorem contiguous_eq_stream (stream : List UInt8) (hlen : stream.length < 2 ^ 32) (isn : SeqNo)
    (limit : Nat) (calls : List ReassemblerCall)
    (hcalls : ∀ seq data, .acceptSegment seq data ∈ calls → Agrees stream isn seq data) :
    let r := calls.foldl call { new isn with maxBuffer := limit }
    r.baseSeq + asU32 r.contiguous.length = r.nextSeq ∧
      (r.baseSeq - isn).val ≤ (r.nextSeq - isn).val ∧
      (r.nextSeq - isn).val ≤ stream.length ∧
      r.contiguous = (stream.take (r.nextSeq - isn).val).drop (r.baseSeq - isn).val := by
  obtain ⟨b, p, h⟩ := exists_sound limit hlen calls hcalls
  have hb := h.base_le
  have hp := h.next_le
  intro r
  have hnext : (r.nextSeq - isn).val = p := by rw [h.next, seqAt_sub (by omega)]
  have hbase : (r.baseSeq - isn).val = b := by rw [h.base, seqAt_sub (by omega)]
  refine ⟨?_, by omega, by omega, by rw [hnext, hbase]; exact h.contiguous⟩
  rw [h.length, h.base, h.next, seqAt_add]
  congr 1
  omega

/-- A later segment waits, the first one closes the gap, and the processed bytes
are dropped. -/
theorem contiguous_eq_stream_gap :
    let r := [ReassemblerCall.acceptSegment 2 [7, 8], .acceptSegment 0 [5, 6], .compact 1].foldl
      call { new 0 with maxBuffer := 16 }
    r.contiguous = (([5, 6, 7, 8] : List UInt8).take (r.nextSeq - 0).val).drop
      (r.baseSeq - 0).val := by
  refine (contiguous_eq_stream [5, 6, 7, 8] (by decide) 0 16 _ fun seq data h => ?_).2.2.2
  simp only [List.mem_cons, ReassemblerCall.acceptSegment.injEq, reduceCtorEq, List.not_mem_nil,
    or_false] at h
  obtain ⟨rfl, rfl⟩ | ⟨rfl, rfl⟩ := h
  · exact ⟨2, by decide, by decide⟩
  · exact ⟨0, by decide, by decide⟩

end Soundness

/-! ### The memory limit -/

/-- The bytes that a segment would replace in the map of waiting segments. -/
def replaced (r : Reassembler) (seq : SeqNo) : Nat := (r.ooo.get? seq).elim 0 List.length

/-- A segment that is not refused leaves room for the waiting segments as well:
together with all bytes held it stays within the limit, less the bytes it
replaces. -/
def LeavesRoom (r : Reassembler) : ReassemblerCall → Prop
  | .acceptSegment seq data =>
      r.contiguous.length + data.length ≤ r.maxBuffer →
        (seq = r.nextSeq → r.held + data.length ≤ r.maxBuffer) ∧
        (r.nextSeq < seq → r.held + (data.length - r.replaced seq) ≤ r.maxBuffer)
  | .compact _ => True

section Memory

variable {r : Reassembler} {seq : SeqNo} {data : List UInt8}

theorem held_append : (r.append data).held = r.held + data.length := by
  simp only [held, append_contiguous, append_ooo, List.length_append]
  omega

theorem held_insert (r : Reassembler) (seq : SeqNo) (data : List UInt8) : { r with ooo := r.ooo.insert seq data : Reassembler }.held + r.replaced seq =
    r.held + data.length := by
  have := r.ooo.total_insert List.length seq data
  simp only [held, replaced] at this ⊢
  omega

/-- Storing adds the bytes by which the new segment is longer. -/
theorem held_store : (r.store seq data).held = r.held + (data.length - r.replaced seq) := by
  have hinsert := held_insert r seq data
  unfold store
  cases hget : r.ooo.get? seq with
  | none =>
      simp only [replaced, hget, Option.elim] at hinsert ⊢
      omega
  | some existing =>
      simp only [replaced, hget, Option.elim] at hinsert ⊢
      split <;> omega

theorem held_compact_le (keep : Nat) : (r.compact keep).held ≤ r.held := by
  unfold compact
  split
  · simp only [held, List.length_drop]
    omega
  · exact Nat.le_refl _

/-- From a state within the limit, a call stays within it exactly if it leaves
room. -/
theorem held_call_le_iff (c : ReassemblerCall) (hr : r.held ≤ r.maxBuffer) :
    (r.call c).held ≤ (r.call c).maxBuffer ↔ r.LeavesRoom c := by
  rw [call_maxBuffer]
  cases c with
  | compact keep => exact ⟨fun _ => trivial, fun _ => (held_compact_le keep).trans hr⟩
  | acceptSegment seq data =>
      simp only [call, acceptSegment, LeavesRoom]
      split
      · exact ⟨fun _ h => absurd h (by omega), fun _ => hr⟩
      · rename_i hfits
        rw [forall_prop_of_true (Nat.not_lt.mp hfits)]
        split
        · rename_i heq
          subst heq
          simp [held_append]
        · rename_i hne
          split
          · rename_i hgt
            simp [hne, hgt, held_store]
          · rename_i hngt
            exact ⟨fun _ => ⟨fun h => absurd h hne, fun h => absurd h hngt⟩, fun _ => hr⟩

theorem held_new (isn : SeqNo) (limit : Nat) : { new isn with maxBuffer := limit }.held = 0 := rfl

/-- The limit holds throughout a run exactly if every call leaves room, and a
refused segment changes nothing. -/
theorem held_le_maxBuffer_iff (isn : SeqNo) (limit : Nat) (calls : List ReassemblerCall) :
    (Inputs.Always call (fun r => r.held ≤ r.maxBuffer) { new isn with maxBuffer := limit } calls ↔
      Inputs.Along call LeavesRoom { new isn with maxBuffer := limit } calls) ∧
    ∀ (r : Reassembler) (seq : SeqNo) (data : List UInt8) (err : ReassemblyError),
      (r.acceptSegment seq data).1 = .error err → (r.acceptSegment seq data).2 = r := by
  refine ⟨Inputs.always_iff_along (fun r c hr => held_call_le_iff c hr) ?_ calls, ?_⟩
  · rw [held_new]
    exact Nat.zero_le _
  · intro r seq data err
    unfold acceptSegment
    split
    · exact fun _ => rfl
    · split
      · exact fun h => absurd h nofun
      · split <;> exact fun h => absurd h nofun

theorem waiting_blocks_exceed {block : List UInt8} (hlength : block.length = (new 0).maxBuffer) :
    ¬ Inputs.Always call (fun r => r.held ≤ r.maxBuffer) (new 0)
      [.acceptSegment 1 block, .acceptSegment (2 ^ 21) block] := by
  intro h
  have hfirst : (new 0).call (.acceptSegment 1 block) = (new 0).store 1 block := by
    simp [call, acceptSegment, hlength, new]
  have hroom := (Inputs.always_iff_along (fun r c hr => held_call_le_iff c hr) (Nat.zero_le _) _).mp h
  have hsecond := hroom.2.1
  rw [hfirst] at hsecond
  have hnext : ((new 0).store 1 block).nextSeq < 2 ^ 21 := Nat.two_pow_pos 21
  have hmore := (hsecond (by simp [store, new, hlength])).2 hnext
  have hreplaced : ((new 0).store 1 block).replaced (2 ^ 21) = 0 := by
    have hne : (2 ^ 21 : SeqNo) ≠ 1 := by decide
    have hother := SortedMap.get?_insert_ne (new 0).ooo block hne
    exact congrArg (·.elim 0 List.length) hother
  have hnone : (new 0).replaced 1 = 0 := rfl
  have hempty : (new 0).held = 0 := rfl
  have hpos : 0 < (new 0).maxBuffer := Nat.two_pow_pos 20
  rw [store_maxBuffer, held_store, hreplaced, hlength, hnone, hempty] at hmore
  generalize (new 0).maxBuffer = limit at hmore hpos
  omega

/-- Two waiting segments of the size of the limit are both stored: only the
contiguous buffer is counted against it. -/
theorem waiting_segments_exceed_limit :
    ¬ Inputs.Always call (fun r => r.held ≤ r.maxBuffer) (new 0)
      [.acceptSegment 1 (List.replicate (new 0).maxBuffer 0),
        .acceptSegment (2 ^ 21) (List.replicate (new 0).maxBuffer 0)] :=
  waiting_blocks_exceed List.length_replicate

end Memory

end Reassembler

end NFdl
