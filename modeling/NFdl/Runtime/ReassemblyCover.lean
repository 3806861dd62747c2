import NFdl.Runtime.Reassembly
import Mathlib.Data.List.Induction

/-!
# When the whole stream is reassembled

The reassembler never splits a segment: it continues the buffer only with a
segment that begins exactly at its end. A list of segments therefore rebuilds the
stream exactly if the segments that get chosen tile it.
-/

namespace NFdl

/-- A segment of a stream of `n` bytes, by offset and length. -/
structure Piece (n : Nat) where
  off : Nat
  len : Nat
  fits : off + len ≤ n

namespace Piece

variable {n : Nat}

/-- The bytes that the segment carries. -/
def data {stream : List UInt8} (s : Piece stream.length) : List UInt8 :=
  (stream.drop s.off).take s.len

/-- Every byte of the stream is in some segment. -/
def Covers (segs : List (Piece n)) : Prop :=
  ∀ i < n, ∃ s ∈ segs, s.off ≤ i ∧ i < s.off + s.len

/-- The length of the longest segment at an offset. -/
def longest (segs : List (Piece n)) (p : Nat) : Nat :=
  segs.foldl (fun longest s => if s.off = p then max longest s.len else longest) 0

/-- The sequence numbers of the bytes at `p` and at `p'` lie on different sides of
the wrap. -/
def Wraps (isn : SeqNo) (p p' : Nat) : Prop := isn.val + p < 2 ^ 32 ∧ 2 ^ 32 ≤ isn.val + p'

instance (isn : SeqNo) (p p' : Nat) : Decidable (Wraps isn p p') :=
  inferInstanceAs (Decidable (_ ∧ _))

/-- The segments seen so far that still count at `p'`: none of those that arrived
before the wrap, because beyond the wrap they looked old. -/
def kept (isn : SeqNo) (p p' : Nat) (seen : List (Piece n)) : List (Piece n) :=
  if Wraps isn p p' then [] else seen

/-- The segments `todo`, which arrive after `seen`, extend the first `p` bytes to
the whole stream. The next segment chosen begins exactly at `p`: it is the
longest one seen, or else the first one to arrive. -/
inductive Tiling (isn : SeqNo) : List (Piece n) → Nat → List (Piece n) → Prop where
  | done (seen todo) : Tiling isn seen n todo
  | early {seen p todo} : 0 < longest seen p →
      Tiling isn (kept isn p (p + longest seen p) seen) (p + longest seen p) todo →
      Tiling isn seen p todo
  | late {seen p waiting s todo} : longest seen p = 0 →
      (∀ s' ∈ waiting, s'.off = p → s'.len = 0) → s.off = p → 0 < s.len →
      Tiling isn (kept isn p (p + s.len) (seen ++ waiting ++ [s])) (p + s.len) todo →
      Tiling isn seen p (waiting ++ s :: todo)

/-! ### The longest segment -/

section Longest

variable {seen : List (Piece n)} {s : Piece n} {p off : Nat}

@[simp] theorem longest_nil (p : Nat) : longest ([] : List (Piece n)) p = 0 := rfl

theorem longest_concat : longest (seen ++ [s]) p =
    if s.off = p then max (longest seen p) s.len else longest seen p := by
  simp only [longest, List.foldl_append, List.foldl_cons, List.foldl_nil]

theorem longest_concat_other (h : s.off = p → s.len = 0) :
    longest (seen ++ [s]) p = longest seen p := by
  rw [longest_concat]
  split
  · rename_i heq
    rw [h heq, Nat.max_zero]
  · rfl

theorem longest_fits (seen : List (Piece n)) (hp : p ≤ n) : p + longest seen p ≤ n := by
  induction seen using List.reverseRecOn with
  | nil => exact hp
  | append_singleton seen s ih =>
      rw [longest_concat]
      have := s.fits
      split <;> omega

end Longest

/-! ### Sides of the wrap -/

section Wrap

variable {isn : SeqNo} {seen : List (Piece n)} {s : Piece n} {p p' off : Nat}

theorem not_wraps_self : ¬ Wraps isn p p := fun h => by
  have := h.1
  have := h.2
  omega

@[simp] theorem kept_self : kept isn p p seen = seen := if_neg not_wraps_self

theorem kept_kept (hp : p ≤ p') (hoff : p' ≤ off) :
    kept isn p' off (kept isn p p' seen) = kept isn p off seen := by
  unfold kept
  split_ifs <;> first | rfl | (unfold Wraps at *; omega)

theorem longest_kept_concat_other (h : s.off = off → s.len = 0) :
    longest (kept isn p off (seen ++ [s])) off = longest (kept isn p off seen) off := by
  unfold kept
  split
  · rfl
  · exact longest_concat_other h

end Wrap

/-! ### The tiling, one segment at a time -/

section Tiling

variable {isn : SeqNo} {seen todo : List (Piece n)} {s : Piece n} {p : Nat}

theorem tiling_early_iff (hp : p ≤ n) (h : 0 < longest seen p) : Tiling isn seen p todo ↔
    Tiling isn (kept isn p (p + longest seen p) seen) (p + longest seen p) todo := by
  refine ⟨fun ht => ?_, .early h⟩
  cases ht with
  | done =>
      have := longest_fits seen hp
      omega
  | early _ ht => exact ht
  | late h0 => omega

theorem tiling_nil_iff (h : longest seen p = 0) : Tiling isn seen p [] ↔ p = n := by
  constructor
  · intro ht
    generalize hnil : ([] : List (Piece n)) = todo at ht
    cases ht with
    | done => rfl
    | early hpos => omega
    | late => simp at hnil
  · rintro rfl
    exact .done ..

/-- A segment that begins at `p` and is not empty extends the buffer. -/
theorem tiling_hit_iff (h : longest seen p = 0) (hoff : s.off = p) (hlen : 0 < s.len) :
    Tiling isn seen p (s :: todo) ↔
      Tiling isn (kept isn p (p + s.len) (seen ++ [s])) (p + s.len) todo := by
  constructor
  · intro ht
    generalize htodo : s :: todo = l at ht
    cases ht with
    | done =>
        have := s.fits
        omega
    | early hpos => omega
    | @late _ _ waiting s' todo' _ hwaiting hoff' hlen' ht =>
        cases waiting with
        | nil =>
            obtain ⟨rfl, rfl⟩ := List.cons.inj htodo
            simpa using ht
        | cons s'' waiting =>
            obtain ⟨rfl, _⟩ := List.cons.inj htodo
            have := hwaiting s (List.mem_cons_self ..) hoff
            omega
  · intro ht
    have hlate := @Tiling.late n isn seen p [] s todo h (by simp) hoff hlen
    exact hlate (by simpa using ht)

/-- Any other segment is only seen. -/
theorem tiling_miss_iff (h : longest seen p = 0) (hmiss : s.off = p → s.len = 0) :
    Tiling isn seen p (s :: todo) ↔ Tiling isn (seen ++ [s]) p todo := by
  have h' : longest (seen ++ [s]) p = 0 := by rw [longest_concat_other hmiss, h]
  constructor
  · intro ht
    generalize htodo : s :: todo = l at ht
    cases ht with
    | done => exact .done ..
    | early hpos => omega
    | @late _ _ waiting s' todo' _ hwaiting hoff' hlen' ht =>
        cases waiting with
        | nil =>
            obtain ⟨rfl, _⟩ := List.cons.inj htodo
            have := hmiss hoff'
            omega
        | cons s'' waiting =>
            obtain ⟨rfl, rfl⟩ := List.cons.inj htodo
            refine .late h' (fun s' hs' => hwaiting s' (List.mem_cons_of_mem _ hs')) hoff' hlen' ?_
            simpa using ht
  · intro ht
    cases ht with
    | done => exact .done ..
    | early hpos => omega
    | @late _ _ waiting s' todo' _ hwaiting hoff' hlen' ht =>
        rw [← List.cons_append]
        refine .late h (fun s' hs' => ?_) hoff' hlen' (by simpa using ht)
        obtain rfl | hs' := List.mem_cons.mp hs'
        · exact hmiss
        · exact hwaiting s' hs'

end Tiling

end Piece

namespace Reassembler

open Piece

variable {stream : List UInt8} {isn : SeqNo} {seen todo : List (Piece stream.length)}
  {s : Piece stream.length} {p limit : Nat} {r r' : Reassembler}

/-- Pass a segment of the stream to the reassembler. -/
def feed (isn : SeqNo) (r : Reassembler) (s : Piece stream.length) : Reassembler :=
  (r.acceptSegment (seqAt isn s.off) s.data).2

theorem length_data (s : Piece stream.length) : s.data.length = s.len := by
  have := s.fits
  simp only [Piece.data, List.length_take, List.length_drop]
  omega

theorem data_prefix (s : Piece stream.length) : s.data <+: stream.drop s.off :=
  List.take_prefix ..

/-- The buffer holds the first `p` bytes, and under the number of each later
offset waits the longest segment seen there. -/
structure Waits (isn : SeqNo) (limit : Nat) (seen : List (Piece stream.length)) (p : Nat)
    (r : Reassembler) : Prop where
  sound : Sound stream isn 0 p r
  limit_eq : r.maxBuffer = limit
  waiting : ∀ off, p ≤ off → off ≤ stream.length →
    r.replaced (seqAt isn off) = longest (kept isn p off seen) off

theorem Waits.next_waiting (h : Waits isn limit seen p r) :
    r.replaced r.nextSeq = longest seen p := by
  rw [h.sound.next, h.waiting p (Nat.le_refl p) h.sound.next_le, kept_self]

theorem Waits.length (h : Waits isn limit seen p r) : r.contiguous.length = p := by
  simpa using h.sound.length

/-- The buffer grows past segments that are already seen. -/
theorem Waits.append (h : Waits isn limit seen p r) {data : List UInt8}
    (hdata : data <+: stream.drop p) :
    Waits isn limit (kept isn p (p + data.length) seen) (p + data.length) (r.append data) where
  sound := h.sound.append hdata
  limit_eq := h.limit_eq
  waiting := by
    intro off hoff hle
    rw [kept_kept (Nat.le_add_right ..) hoff]
    exact h.waiting off (by omega) hle

/-- The segment that arrives at the end of the buffer is appended. -/
theorem Waits.arrive (h : Waits isn limit seen p r) (hs : s.off = p) :
    Waits isn limit (kept isn p (p + s.len) (seen ++ [s])) (p + s.len) (r.append s.data) := by
  have hdata : s.data <+: stream.drop p := hs ▸ data_prefix s
  have happend := h.append hdata
  rw [length_data] at happend
  refine ⟨happend.sound, happend.limit_eq, fun off hoff hle => ?_⟩
  rw [happend.waiting off hoff hle, kept_kept (Nat.le_add_right ..) hoff,
    kept_kept (Nat.le_add_right ..) hoff, longest_kept_concat_other fun heq => by omega]

/-- A segment that the reassembler ignores was of no use. -/
theorem Waits.ignore (h : Waits isn limit seen p r)
    (hs : p ≤ s.off → Wraps isn p s.off ∨ s.len = 0) : Waits isn limit (seen ++ [s]) p r where
  sound := h.sound
  limit_eq := h.limit_eq
  waiting := by
    intro off hoff hle
    rw [h.waiting off hoff hle]
    by_cases hwrap : Wraps isn p off
    · simp [kept, hwrap]
    · exact (longest_kept_concat_other fun heq => (hs (heq ▸ hoff)).resolve_left (heq ▸ hwrap)).symm

theorem replaced_store {seq seq' : SeqNo} {data : List UInt8} : (r.store seq data).replaced seq' =
    if seq' = seq then max (r.replaced seq) data.length else r.replaced seq' := by
  have hinsert : { r with ooo := r.ooo.insert seq data : Reassembler }.replaced seq' =
      if seq' = seq then data.length else r.replaced seq' := by
    split
    · rename_i heq
      subst heq
      simp [replaced]
    · rename_i hne
      simp only [replaced, r.ooo.get?_insert_ne data hne]
  unfold store
  cases hget : r.ooo.get? seq with
  | none =>
      simp only [hinsert]
      have hzero : r.replaced seq = 0 := by simp [replaced, hget]
      rw [hzero, Nat.zero_max]
  | some existing =>
      have hlen : r.replaced seq = existing.length := by simp [replaced, hget]
      rw [hlen]
      simp only
      split
      · rename_i hlt
        rw [hinsert, Nat.max_eq_right (Nat.le_of_lt hlt)]
      · rename_i hle
        rw [Nat.max_eq_left (Nat.not_lt.mp hle)]
        split
        · rename_i heq
          rw [heq, hlen]
        · rfl

/-- A stored segment waits under its number. -/
theorem Waits.store (hlen : stream.length < 2 ^ 32) (h : Waits isn limit seen p r)
    (hwrap : p ≤ s.off → ¬ Wraps isn p s.off) :
    Waits isn limit (seen ++ [s]) p (r.store (seqAt isn s.off) s.data) where
  sound := h.sound.store ⟨s.off, rfl, data_prefix s⟩
  limit_eq := store_maxBuffer.trans h.limit_eq
  waiting := by
    intro off hoff hle
    rw [replaced_store, length_data]
    by_cases heq : off = s.off
    · subst heq
      rw [if_pos rfl, h.waiting _ hoff hle, kept, kept, if_neg (hwrap hoff), if_neg (hwrap hoff),
        longest_concat, if_pos rfl]
    · have := s.fits
      rw [if_neg fun hseq => heq (seqAt_inj (by omega) (by omega) hseq), h.waiting _ hoff hle,
        longest_kept_concat_other fun h => absurd h.symm heq]

theorem replaced_remove {seq seq' : SeqNo} :
    { r with ooo := r.ooo.remove seq : Reassembler }.replaced seq' =
      if seq' = seq then 0 else r.replaced seq' := by
  split
  · rename_i heq
    subst heq
    simp [replaced]
  · rename_i hne
    simp only [replaced, r.ooo.get?_remove_ne hne]

/-- Taking the segment stored at the end of the buffer chooses the longest one
seen there. -/
theorem Waits.pop (hlen : stream.length < 2 ^ 32) (h : Waits isn limit seen p r)
    (hpop : r.pop? = some r') :
    Waits isn limit (kept isn p (p + longest seen p) seen) (p + longest seen p) r' := by
  obtain ⟨seg, hseg, rfl⟩ := pop?_eq_some_iff.mp hpop
  have hlongest : longest seen p = seg.length := by
    rw [← h.next_waiting, replaced, hseg]
    rfl
  have happend := h.append (h.sound.stored_prefix hlen hseg)
  rw [hlongest]
  refine ⟨happend.sound.remove r.nextSeq, happend.limit_eq, fun off hoff hle => ?_⟩
  refine (replaced_remove (r := r.append seg)).trans ?_
  rw [← happend.waiting off hoff hle]
  split
  · rename_i heq
    rw [h.sound.next] at heq
    have hsame : off = p := seqAt_inj (by omega) (by have := h.sound.next_le; omega) heq
    rw [happend.waiting off hoff hle, kept_kept (Nat.le_add_right ..) hoff, hsame, kept_self]
    omega
  · rfl

/-- Draining chooses the longest segments seen, as long as there are any. -/
theorem Waits.drain (hlen : stream.length < 2 ^ 32) (h : Waits isn limit seen p r) :
    ∃ seen' p', Waits isn limit seen' p' r.drain ∧ longest seen' p' = 0 ∧
      ∀ todo, Tiling isn seen p todo ↔ Tiling isn seen' p' todo := by
  have hdrain : ∃ seen' p', Waits isn limit seen' p' r.drain ∧
      ∀ todo, Tiling isn seen p todo ↔ Tiling isn seen' p' todo := by
    refine drain_invariant (P := fun r => ∃ seen' p', Waits isn limit seen' p' r ∧
      ∀ todo, Tiling isn seen p todo ↔ Tiling isn seen' p' todo) ?_ ⟨seen, p, h, fun _ => Iff.rfl⟩
    rintro a b ⟨seen', p', ha, htiling⟩ hpop
    refine ⟨_, _, ha.pop hlen hpop, fun todo => (htiling todo).trans ?_⟩
    obtain hzero | hpos := Nat.eq_zero_or_pos (longest seen' p')
    · rw [hzero, Nat.add_zero, kept_self]
    · exact tiling_early_iff ha.sound.next_le hpos
  obtain ⟨seen', p', hwaits, htiling⟩ := hdrain
  refine ⟨seen', p', hwaits, ?_, htiling⟩
  rw [← hwaits.next_waiting, replaced, get?_drain]
  rfl

/-- One segment moves the reassembler as it moves the tiling. -/
theorem Waits.step (hlen : stream.length < 2 ^ 32) (hlimit : stream.length ≤ limit)
    (h : Waits isn limit seen p r) (hnone : longest seen p = 0) (s : Piece stream.length) :
    ∃ seen' p', Waits isn limit seen' p' (r.feed isn s) ∧ longest seen' p' = 0 ∧
      ∀ todo, Tiling isn seen p (s :: todo) ↔ Tiling isn seen' p' todo := by
  have hfits := s.fits
  have hp := h.sound.next_le
  -- The segment is not chosen, whether it is stored or not.
  have miss {r' : Reassembler} (hr' : Waits isn limit (seen ++ [s]) p r')
      (hs : s.off = p → s.len = 0) : ∃ seen' p', Waits isn limit seen' p' r' ∧
        longest seen' p' = 0 ∧ ∀ todo, Tiling isn seen p (s :: todo) ↔ Tiling isn seen' p' todo :=
    ⟨seen ++ [s], p, hr', by rw [longest_concat_other hs, hnone], fun _ => tiling_miss_iff hnone hs⟩
  have hisn := isn.isLt
  unfold Reassembler.feed acceptSegment
  rw [h.length, length_data, h.limit_eq, h.sound.next]
  split
  · have hold : s.off < p := by omega
    exact miss (h.ignore fun hle => absurd hle (by omega)) (fun heq => absurd heq (by omega))
  · split
    · rename_i heq
      have hoff : s.off = p := seqAt_inj (by omega) (by omega) heq
      obtain ⟨seen', p', hdrain, hnone', htiling⟩ := (h.arrive hoff).drain hlen
      refine ⟨seen', p', hdrain, hnone', fun todo => ?_⟩
      rw [← htiling todo]
      obtain hzero | hpos := Nat.eq_zero_or_pos s.len
      · rw [hzero, Nat.add_zero, kept_self]
        exact tiling_miss_iff hnone fun _ => hzero
      · exact tiling_hit_iff hnone hoff hpos
    · rename_i hne
      have hoff : s.off ≠ p := fun heq => hne (heq ▸ rfl)
      split
      · rename_i hgt
        refine miss (h.store hlen fun hle hwrap => ?_) (fun heq => absurd heq hoff)
        rw [gt_iff_lt, Fin.lt_def, seqAt_val, seqAt_val] at hgt
        obtain ⟨h1, h2⟩ := hwrap
        omega
      · rename_i hngt
        refine miss (h.ignore fun hle => .inl ?_) (fun heq => absurd heq hoff)
        rw [gt_iff_lt, Fin.lt_def, seqAt_val, seqAt_val] at hngt
        constructor <;> omega

theorem waits_new (isn : SeqNo) (limit : Nat) :
    Waits isn limit ([] : List (Piece stream.length)) 0 { new isn with maxBuffer := limit } where
  sound := sound_new isn limit
  limit_eq := rfl
  waiting := by
    intro off _ _
    unfold kept
    split <;> rfl

/-- The run rebuilds the stream exactly if the remaining segments tile the rest. -/
theorem Waits.run (hlen : stream.length < 2 ^ 32) (hlimit : stream.length ≤ limit)
    (h : Waits isn limit seen p r) (hnone : longest seen p = 0)
    (todo : List (Piece stream.length)) :
    (todo.foldl (feed isn) r).contiguous = stream ↔ Tiling isn seen p todo := by
  induction todo generalizing seen p r with
  | nil =>
      rw [tiling_nil_iff hnone, List.foldl_nil, h.sound.contiguous, List.drop_zero]
      constructor
      · intro htake
        have hlength := congrArg List.length htake
        rw [List.length_take] at hlength
        have := h.sound.next_le
        omega
      · rintro rfl
        exact List.take_length
  | cons s todo ih =>
      obtain ⟨seen', p', h', hnone', htiling⟩ := h.step hlen hlimit hnone s
      rw [htiling todo, List.foldl_cons]
      exact ih h' hnone'

/-- A fresh reassembler rebuilds the whole stream from segments of it exactly if
they tile the stream. -/
theorem reassembles_iff_tiling (stream : List UInt8) (hlen : stream.length < 2 ^ 32)
    (isn : SeqNo) (limit : Nat) (hlimit : stream.length ≤ limit)
    (segs : List (Piece stream.length)) :
    (segs.foldl (feed isn) { new isn with maxBuffer := limit }).contiguous = stream ↔
      Tiling isn [] 0 segs :=
  (waits_new isn limit).run hlen hlimit rfl segs

/-- Two segments out of order that tile a stream across the wrap of the sequence
numbers. -/
theorem reassembles_across_wrap :
    let segs : List (Piece ([1, 2, 3] : List UInt8).length) :=
      [⟨1, 0, by decide⟩, ⟨0, 1, by decide⟩, ⟨1, 2, by decide⟩]
    (segs.foldl (feed (2 ^ 32 - 1)) { new (2 ^ 32 - 1) with maxBuffer := 16 }).contiguous =
      [1, 2, 3] := by
  refine (reassembles_iff_tiling [1, 2, 3] (by decide) (2 ^ 32 - 1) 16 (by decide) _).mpr ?_
  refine @Tiling.late _ _ [] 0 [⟨1, 0, by decide⟩] _ _ rfl (by decide) rfl (by decide) ?_
  exact @Tiling.late _ _ _ _ [] _ [] rfl (by decide) rfl (by decide) (.done ..)

/-- Segments that cover a stream need not rebuild it: the second one begins
before the end of the buffer and is ignored with its last byte. -/
theorem straddling_segment_lost :
    let segs : List (Piece ([1, 2, 3] : List UInt8).length) :=
      [⟨0, 2, by decide⟩, ⟨1, 2, by decide⟩]
    Covers segs ∧ (segs.foldl (feed 0) (new 0)).contiguous ≠ [1, 2, 3] := by
  intro segs
  refine ⟨?_, by decide⟩
  unfold Covers
  decide

end Reassembler

end NFdl
