import NFdl.Bytecode.Instruction
import NFdl.Lib.Machine
import NFdl.Lib.Utf8

/-!
# Decompression of DNS names

The plugin reads labels from a cursor and follows compression pointers. Each round of its
loop is one move of a machine. A read outside of the buffer, or an addition that overflows,
would end the machine with a panic.
-/

namespace NFdl.Plugin

open Utf8 Machine

/-! ### The interface of plugins -/

inductive PluginStatus where
  | ok | malformed | limit | internal | needMore
deriving DecidableEq, Repr

inductive PluginValue where
  | u16 (v : UInt16)
  | str (s : String)
  | record (fields : List (String × PluginValue))

structure PluginError where
  status : PluginStatus
  message : String
deriving DecidableEq, Repr

namespace PluginError

def malformed (msg : String) : PluginError := ⟨.malformed, msg⟩

def limit (msg : String) : PluginError := ⟨.limit, msg⟩

end PluginError

/-- The root buffer and an offset into it. A slice has at most `isize::MAX` bytes. -/
structure BufView where
  data : List UInt8
  offset : Nat
  length_lt : data.length < 2 ^ 63

/-- How a call ends. -/
inductive Stop where
  | returned (result : Except PluginError PluginValue)
  | panicked

def malformed (msg : String) : Stop := .returned (.error (.malformed msg))

def limit (msg : String) : Stop := .returned (.error (.limit msg))

/-! ### The loop -/

def maxJumps : Nat := 16

/-- The variables of the loop. -/
structure Scan where
  cur : Nat
  jumps : Nat
  visited : List Nat
  nameParts : List String
  wireLen : Option UInt16

section Loop

variable (data : List UInt8) (start : Nat)

/-- The length on the wire: what was fixed before, else the bytes up to the cursor and a
number of further ones. -/
def fixWireLen (s : Scan) (n : Nat) : Except Stop UInt16 :=
  match s.wireLen with
  | some len => .ok len
  | none =>
      match addUsize s.cur n with
      | none => .error .panicked
      | some stop =>
          if stop - start < 65536 then .ok (UInt16.ofNat (stop - start))
          else .error (malformed ("wire_len " ++ toString (stop - start) ++ " exceeds u16"))

def finish (s : Scan) (wireLen : UInt16) : PluginValue :=
  .record [("name", .str (String.intercalate "." s.nameParts)), ("wire_len", .u16 wireLen)]

/-- The root label ends the name. -/
def rootLabel (s : Scan) : Stop :=
  match fixWireLen start s 1 with
  | .error stop => stop
  | .ok wireLen => .returned (.ok (finish s wireLen))

/-- The target of a compression pointer. -/
def pointerTarget (hi lo : UInt8) : Nat := ((hi &&& 0x3F).toNat <<< 8) ||| lo.toNat

def compressionPointer (b : UInt8) (s : Scan) : Except Stop Scan :=
  match addUsize s.cur 1 with
  | none => .error .panicked
  | some next =>
      if data.length ≤ next then .error (malformed "truncated DNS compression pointer")
      else if maxJumps < s.jumps + 1 then
        .error (limit ("DNS compression jumps exceed MAX_JUMPS (" ++ toString maxJumps ++ ")"))
      else
        match data[next]? with
        | none => .error .panicked
        | some lo =>
            let target := pointerTarget b lo
            if s.visited.contains target then
              .error (limit ("DNS compression pointer loop at target " ++ toString target))
            else
              match fixWireLen start s 2 with
              | .error stop => .error stop
              | .ok wireLen => .ok { s with
                  cur := target, jumps := s.jumps + 1, visited := s.visited ++ [target],
                  wireLen := some wireLen }

/-- The bytes between two positions. -/
def sliceBytes (start stop : Nat) : Option (List UInt8) :=
  if start ≤ stop ∧ stop ≤ data.length then some ((data.drop start).take (stop - start)) else none

def ordinaryLabel (b : UInt8) (s : Scan) : Except Stop Scan :=
  match (addUsize s.cur 1).bind (addUsize · b.toNat) with
  | none => .error (malformed "label length overflow")
  | some labelEnd =>
      if data.length < labelEnd then
        .error (malformed ("DNS label overflows buffer: need " ++ toString labelEnd ++ ", have " ++
          toString data.length))
      else
        match sliceBytes data (s.cur + 1) labelEnd with
        | none => .error .panicked
        | some label => .ok { s with
            cur := labelEnd, nameParts := s.nameParts ++ [fromUtf8Lossy label] }

/-- One round of the loop. -/
def dnsMove (s : Scan) : Except Stop Scan :=
  if data.length ≤ s.cur then
    .error (malformed ("DNS name cursor " ++ toString s.cur ++ " past end of buffer (" ++
      toString data.length ++ ")"))
  else
    match data[s.cur]? with
    | none => .error .panicked
    | some b =>
        if b = 0 then .error (rootLabel start s)
        else if b &&& 0xC0 = 0xC0 then compressionPointer data start b s
        else ordinaryLabel data b s

end Loop

/-- The variables before the first round. -/
def scanFrom (start : Nat) : Scan := ⟨start, 0, [], [], none⟩

/-- How much the loop has left: further jumps, and bytes after the cursor. -/
def rank (data : List UInt8) (s : Scan) : Nat :=
  (maxJumps - s.jumps) * (data.length + 1) + (data.length - s.cur)

/-- The call of the plugin. Without a result the rounds would not have been enough. -/
def dnsDecompress (root : BufView) : Option Stop :=
  if root.data.length < root.offset then
    some (malformed ("root_offset " ++ toString root.offset ++ " past end of buffer (" ++
      toString root.data.length ++ ")"))
  else run (dnsMove root.data root.offset) (rank root.data (scanFrom root.offset) + 1)
    (scanFrom root.offset)

/-! ### The loop ends, and stays in the buffer -/

section Total

variable {data : List UInt8} {start : Nat} {s s' : Scan}

theorem fixWireLen_ne_panicked {n : Nat} (hcur : s.cur + n < 2 ^ 64) :
    fixWireLen start s n ≠ .error .panicked := by
  unfold fixWireLen
  split
  · nofun
  · rw [addUsize, if_pos hcur]
    dsimp only
    split <;> nofun

theorem rootLabel_ne_panicked (hcur : s.cur + 1 < 2 ^ 64) : rootLabel start s ≠ .panicked := by
  unfold rootLabel
  split
  · rename_i stop hstop
    rintro rfl
    exact fixWireLen_ne_panicked hcur hstop
  · nofun

/-- A pointer is read where the buffer has both of its bytes. -/
theorem compressionPointer_ne_panicked {b : UInt8} (hcur : s.cur + 2 < 2 ^ 64) :
    compressionPointer data start b s ≠ .error .panicked := by
  unfold compressionPointer
  rw [addUsize, if_pos (by omega)]
  dsimp only
  split
  · nofun
  · rename_i hnext
    split
    · nofun
    · rw [List.getElem?_eq_getElem (Nat.lt_of_not_le hnext)]
      dsimp only
      split
      · nofun
      · split
        · rename_i stop hstop
          intro h
          obtain rfl := Except.error.inj h
          exact fixWireLen_ne_panicked hcur hstop
        · nofun

/-- A label is read where the buffer has all of its bytes. -/
theorem ordinaryLabel_ne_panicked {b : UInt8} : ordinaryLabel data b s ≠ .error .panicked := by
  unfold ordinaryLabel
  cases hend : (addUsize s.cur 1).bind (addUsize · b.toNat) with
  | none => nofun
  | some labelEnd =>
      obtain ⟨next, hnext, hend⟩ := Option.bind_eq_some_iff.mp hend
      obtain ⟨-, rfl⟩ := addUsize_eq_some.mp hnext
      obtain ⟨-, rfl⟩ := addUsize_eq_some.mp hend
      dsimp only
      split
      · nofun
      · rename_i hfits
        rw [sliceBytes, if_pos ⟨Nat.le_add_right _ _, Nat.le_of_not_lt hfits⟩]
        nofun

/-- No round reads outside of the buffer, and no addition overflows. -/
theorem dnsMove_ne_panicked (hdata : data.length < 2 ^ 63) :
    dnsMove data start s ≠ .error .panicked := by
  unfold dnsMove
  split
  · nofun
  · rename_i hcur
    have hlt := Nat.lt_of_not_le hcur
    rw [List.getElem?_eq_getElem hlt]
    dsimp only
    split
    · intro h
      exact rootLabel_ne_panicked (by omega) (Except.error.inj h)
    · split
      · exact compressionPointer_ne_panicked (by omega)
      · exact ordinaryLabel_ne_panicked

theorem compressionPointer_eq_ok {b : UInt8} (h : compressionPointer data start b s = .ok s') :
    s'.jumps = s.jumps + 1 ∧ s.jumps + 1 ≤ maxJumps := by
  unfold compressionPointer at h
  split at h
  · cases h
  · split at h
    · cases h
    · split at h
      · cases h
      · rename_i hjumps
        split at h
        · cases h
        · dsimp only at h
          split at h
          · cases h
          · split at h
            · cases h
            · obtain rfl := Except.ok.inj h
              exact ⟨rfl, Nat.le_of_not_lt hjumps⟩

theorem ordinaryLabel_eq_ok {b : UInt8} (h : ordinaryLabel data b s = .ok s') :
    s'.jumps = s.jumps ∧ s.cur < s'.cur ∧ s'.cur ≤ data.length := by
  unfold ordinaryLabel at h
  cases hend : (addUsize s.cur 1).bind (addUsize · b.toNat) with
  | none =>
      rw [hend] at h
      cases h
  | some labelEnd =>
      rw [hend] at h
      obtain ⟨next, hnext, hend⟩ := Option.bind_eq_some_iff.mp hend
      obtain ⟨-, rfl⟩ := addUsize_eq_some.mp hnext
      obtain ⟨-, rfl⟩ := addUsize_eq_some.mp hend
      dsimp only at h
      split at h
      · cases h
      · rename_i hfits
        split at h
        · cases h
        · obtain rfl := Except.ok.inj h
          dsimp only
          omega

/-- Every round leaves less to do: a label moves the cursor on, and a pointer uses up a jump. -/
theorem dnsMove_rank (hjumps : s.jumps ≤ maxJumps) (h : dnsMove data start s = .ok s') :
    s'.jumps ≤ maxJumps ∧ rank data s' < rank data s := by
  unfold dnsMove at h
  split at h
  · cases h
  · rename_i hcur
    split at h
    · cases h
    · split at h
      · cases h
      · unfold rank
        split at h
        · obtain ⟨hjump, hle⟩ := compressionPointer_eq_ok h
          refine ⟨hjump ▸ hle, ?_⟩
          obtain ⟨left, hleft⟩ : ∃ left, maxJumps - s.jumps = left + 1 :=
            ⟨maxJumps - s.jumps - 1, by omega⟩
          rw [hjump, hleft, show maxJumps - (s.jumps + 1) = left by omega, Nat.succ_mul]
          omega
        · obtain ⟨hjump, hlt, hle⟩ := ordinaryLabel_eq_ok h
          rw [hjump]
          exact ⟨hjumps, by omega⟩

/-- The rounds are enough for every buffer, and none of them panics. -/
theorem dnsDecompress_total (root : BufView) :
    ∃ result, dnsDecompress root = some (.returned result) := by
  unfold dnsDecompress
  split
  · exact ⟨_, rfl⟩
  · obtain ⟨stop, hstop⟩ := run_isSome_of_rank (rank root.data)
      (fun s s' (hs : s.jumps ≤ maxJumps) hmove => dnsMove_rank hs hmove)
      (show (scanFrom root.offset).jumps ≤ maxJumps from Nat.zero_le _)
      (Nat.lt_succ_self (rank root.data (scanFrom root.offset)))
    cases stop with
    | returned result => exact ⟨result, hstop⟩
    | panicked =>
        obtain ⟨_, _, _, hend⟩ := Halts.of_run hstop
        exact absurd hend (dnsMove_ne_panicked root.length_lt)

end Total

end NFdl.Plugin
