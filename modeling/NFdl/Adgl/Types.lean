import Mathlib.Order.Basic
import Mathlib.Data.Int.Order.Basic
import Mathlib.Data.Prod.Lex

/-!
# The value types of ADGL

Event times and durations are 64-bit milliseconds with saturating arithmetic.
Scopes form a small hierarchy, truth has three values, and confidences and
weights are bounded integers. Names of the catalog are strings.
-/

namespace Adgl

abbrev RuleId := String
abbrev EventType := String
abbrev CauseKind := String
abbrev ProblemKind := String
abbrev SarifId := String
abbrev Capability := String
/-- A symbol names a binding. -/
abbrev Symbol := String
/-- Raw identifiers of events and of graph nodes. -/
abbrev EventId := Nat
abbrev NodeId := Nat

/-- `i64::saturating_add`. -/
def saturatingAdd (a b : Int64) : Int64 := Int64.ofIntClamp (a.toInt + b.toInt)

/-- `i64::saturating_sub`. -/
def saturatingSub (a b : Int64) : Int64 := Int64.ofIntClamp (a.toInt - b.toInt)

theorem toInt_ofIntClamp (n : Int) :
    (Int64.ofIntClamp n).toInt = max (-9223372036854775808) (min n 9223372036854775807) := by
  have hmin : Int64.minValue.toInt = -9223372036854775808 := by decide
  have hmax : Int64.maxValue.toInt = 9223372036854775807 := by decide
  unfold Int64.ofIntClamp
  by_cases hlo : Int64.minValue.toInt ≤ n
  · rw [dif_pos hlo]
    by_cases hhi : n ≤ Int64.maxValue.toInt
    · rw [dif_pos hhi, Int64.toInt_ofIntLE]
      omega
    · rw [dif_neg hhi, hmax]
      omega
  · rw [dif_neg hlo, hmin]
    omega

structure EventTime where
  millis : Int64
deriving DecidableEq, Repr

/-- A duration is never negative. -/
structure DurationMs where
  millis : Int64
  nonneg : 0 ≤ millis.toInt
deriving DecidableEq, Repr

namespace DurationMs

def fromMillis (ms : Int64) : Option DurationMs :=
  if h : 0 ≤ ms.toInt then some ⟨ms, h⟩ else none

/-- The zero duration, which is the default. -/
def zero : DurationMs := ⟨0, by decide⟩

def toInt (d : DurationMs) : Int := d.millis.toInt

instance : LinearOrder DurationMs :=
  LinearOrder.lift' toInt fun ⟨_, _⟩ ⟨_, _⟩ h => by
    cases Int64.toInt_inj.mp h
    rfl

theorem le_iff {a b : DurationMs} : a ≤ b ↔ a.toInt ≤ b.toInt := Iff.rfl

@[simp] theorem toInt_zero : zero.toInt = 0 := by decide

theorem zero_le (d : DurationMs) : zero ≤ d := le_iff.mpr (toInt_zero ▸ d.nonneg)

/-- `from_millis(..).unwrap_or_default()`. -/
def ofMillis (ms : Int64) : DurationMs := (fromMillis ms).getD zero

theorem toInt_ofMillis (ms : Int64) : (ofMillis ms).toInt = max 0 ms.toInt := by
  unfold ofMillis fromMillis
  split
  · rename_i h
    exact (max_eq_right h).symm
  · rename_i h
    exact (max_eq_left (Int.le_of_lt (not_le.mp h))).symm

end DurationMs

namespace EventTime

def toInt (t : EventTime) : Int := t.millis.toInt

instance : LinearOrder EventTime :=
  LinearOrder.lift' toInt fun ⟨_⟩ ⟨_⟩ h => by
    cases Int64.toInt_inj.mp h
    rfl

theorem le_iff {a b : EventTime} : a ≤ b ↔ a.toInt ≤ b.toInt := Iff.rfl

theorem lt_iff {a b : EventTime} : a < b ↔ a.toInt < b.toInt := by
  rw [← not_le, le_iff, Int.not_le]

/-- The time before the first event. -/
def minimum : EventTime := ⟨Int64.minValue⟩

def add (t : EventTime) (d : DurationMs) : EventTime := ⟨saturatingAdd t.millis d.millis⟩

def sub (t : EventTime) (d : DurationMs) : EventTime := ⟨saturatingSub t.millis d.millis⟩

theorem toInt_add (t : EventTime) (d : DurationMs) :
    (t.add d).toInt = max (-9223372036854775808) (min (t.toInt + d.toInt) 9223372036854775807) :=
  toInt_ofIntClamp _

theorem toInt_sub (t : EventTime) (d : DurationMs) :
    (t.sub d).toInt = max (-9223372036854775808) (min (t.toInt - d.toInt) 9223372036854775807) :=
  toInt_ofIntClamp _

@[simp] theorem sub_zero (t : EventTime) : t.sub .zero = t := by
  have hmin : -2 ^ 63 ≤ t.toInt := Int64.le_toInt t.millis
  have hmax : t.toInt < 2 ^ 63 := Int64.toInt_lt t.millis
  refine le_antisymm ?_ ?_
  all_goals
    rw [le_iff, toInt_sub, DurationMs.toInt_zero]
    omega

theorem add_le_add {t : EventTime} {d d' : DurationMs} (h : d ≤ d') : t.add d ≤ t.add d' := by
  have hle := DurationMs.le_iff.mp h
  rw [le_iff, toInt_add, toInt_add]
  omega

theorem sub_mono {t t' : EventTime} (h : t ≤ t') (d : DurationMs) : t.sub d ≤ t'.sub d := by
  have hle := le_iff.mp h
  rw [le_iff, toInt_sub, toInt_sub]
  omega

theorem sub_le (t : EventTime) (d : DurationMs) : t.sub d ≤ t := by
  have hmin : -2 ^ 63 ≤ t.toInt := Int64.le_toInt t.millis
  have hnonneg : 0 ≤ d.toInt := d.nonneg
  rw [le_iff, toInt_sub]
  omega

/-- What a window can reach backward from an anchor whose forward window is not
closed lies within the look-back of the watermark. -/
theorem sub_le_sub_of_le_add {wm t : EventTime} {forward back lookback : DurationMs}
    (h : wm ≤ t.add forward) (hsum : forward.toInt + back.toInt ≤ lookback.toInt) :
    wm.sub lookback ≤ t.sub back := by
  have hle := le_iff.mp h
  have hmin : -2 ^ 63 ≤ t.toInt := Int64.le_toInt t.millis
  have hforward : 0 ≤ forward.toInt := forward.nonneg
  rw [toInt_add] at hle
  rw [le_iff, toInt_sub, toInt_sub]
  omega

end EventTime

/-- The index of the deduplication window that a time falls in. -/
def windowId (time : EventTime) (dedupWindow : DurationMs) : Int :=
  time.toInt / max dedupWindow.toInt 1

theorem windowId_mono {t t' : EventTime} (h : t ≤ t') (w : DurationMs) :
    windowId t w ≤ windowId t' w :=
  Int.ediv_le_ediv (by omega) (EventTime.le_iff.mp h)

inductive ScopeType where
  | session | port | clientMac | vlan | accessPoint | global
deriving DecidableEq, Repr

namespace ScopeType

def parent : ScopeType → Option ScopeType
  | .session | .clientMac => some .vlan
  | .vlan | .port | .accessPoint => some .global
  | .global => none

/-- The walk to `other` along at most `steps` parents. -/
def reaches (other : ScopeType) : Nat → ScopeType → Bool
  | 0, cur => cur == other
  | steps + 1, cur =>
      cur == other || match cur.parent with
        | some p => reaches other steps p
        | none => false

/-- No chain of parents is longer than two. -/
def isSubsumedBy (s other : ScopeType) : Bool := reaches other 2 s

/-- The discriminant. -/
def index : ScopeType → UInt8
  | .session => 0 | .port => 1 | .clientMac => 2 | .vlan => 3 | .accessPoint => 4 | .global => 5

end ScopeType

def fnvOffset : UInt64 := 0xcbf29ce484222325
def fnvPrime : UInt64 := 0x00000100000001b3

def fnv1a (hash : UInt64) (bytes : List UInt8) : UInt64 :=
  bytes.foldl (fun h b => (h ^^^ b.toUInt64) * fnvPrime) hash

/-- The bytes of a 64-bit word, most significant first. -/
def beBytes (v : UInt64) : List UInt8 :=
  [56, 48, 40, 32, 24, 16, 8, 0].map fun shift : UInt64 => (v >>> shift).toUInt8

def stableHashU64 (s : String) : UInt64 := fnv1a fnvOffset s.toByteArray.data.toList

/-- The one encoding of strings in the integer domain of fields and literals. -/
def stableStringI64 (value : String) : Int64 := (stableHashU64 value).toInt64

/-- A partition key: the scope's type and a hash of its identity. -/
structure ScopeId where
  scopeType : ScopeType
  key : UInt64
deriving DecidableEq, Repr

namespace ScopeId

/-- By the type, then by the key. -/
instance : LinearOrder ScopeId :=
  LinearOrder.lift' (fun s => toLex (s.scopeType.index.toNat, s.key.toNat))
    fun ⟨a, ka⟩ ⟨b, kb⟩ h => by
      have hpair := toLex.injective h
      have htype : a.index.toNat = b.index.toNat := congrArg Prod.fst hpair
      have hkey : ka = kb := UInt64.toNat_inj.mp (congrArg Prod.snd hpair)
      subst hkey
      cases a <;> cases b <;> first | rfl | exact absurd htype (by decide)

def hashKey (s : ScopeId) : UInt64 :=
  fnv1a (fnv1a fnvOffset [s.scopeType.index]) (beBytes s.key)

end ScopeId

/-- Three-valued truth. -/
inductive T3 where
  | true | false | unknown
deriving DecidableEq, Repr

namespace T3

def and : T3 → T3 → T3
  | .false, _ | _, .false => .false
  | .true, .true => .true
  | _, _ => .unknown

def or : T3 → T3 → T3
  | .true, _ | _, .true => .true
  | .false, .false => .false
  | _, _ => .unknown

def not : T3 → T3
  | .true => .false
  | .false => .true
  | .unknown => .unknown

def ofBool (b : Bool) : T3 := if b then .true else .false

@[simp] theorem false_and (t : T3) : T3.and .false t = .false := by cases t <;> rfl
@[simp] theorem true_or (t : T3) : T3.or .true t = .true := by cases t <;> rfl

end T3

structure Confidence where
  value : Nat
  le : value ≤ 100
deriving DecidableEq, Repr

structure Weight where
  value : Int
  ge : -100 ≤ value
  le : value ≤ 100
deriving DecidableEq, Repr

def Weight.new (value : Int) : Option Weight :=
  if h : -100 ≤ value ∧ value ≤ 100 then some ⟨value, h.1, h.2⟩ else none

def Weight.isSupporting (w : Weight) : Bool := 0 ≤ w.value

namespace Confidence

def minimum : Confidence := ⟨0, by decide⟩

/-- Add a weight and clamp the sum. -/
def apply (c : Confidence) (w : Weight) : Confidence where
  value := (max 0 (min (c.value + w.value) 100)).toNat
  le := by omega

def isProbable (c : Confidence) : Bool := 40 ≤ c.value && c.value ≤ 79
def isConfirmed (c : Confidence) : Bool := 80 ≤ c.value

end Confidence

inductive Severity where
  | critical | high | medium | low | recommended | optional
deriving DecidableEq, Repr

inductive ActionKind where
  | requestObservation | runCheck | suppressSymptom | markAmbiguous | requestTopology
deriving DecidableEq, Repr

def ActionKind.asStr : ActionKind → String
  | .requestObservation => "request_observation"
  | .runCheck => "run_check"
  | .suppressSymptom => "suppress_symptom"
  | .markAmbiguous => "mark_ambiguous"
  | .requestTopology => "request_topology"

/-- The parts of a dotted name. -/
def splitDots : List Char → List (List Char)
  | [] => [[]]
  | c :: cs =>
      if c = '.' then [] :: splitDots cs
      else match splitDots cs with
        | [] => [[c]]
        | s :: ss => (c :: s) :: ss

/-- A dotted path `<binding>.<field>`. -/
structure MetricPath where
  asStr : String
deriving DecidableEq, Repr

def MetricPath.segments (path : MetricPath) : List String :=
  (splitDots path.asStr.toList).map String.ofList

end Adgl
