import NFdl.Lib.BeBytes
import NFdl.Runtime.Arithmetic
import Mathlib.Data.Sym.Sym2

/-!
# Flow keys

The key of a session packs the values of the two endpoints of a conversation, in
ascending order, into sixteen bytes. That is room for two values, so an endpoint
of two components takes the whole key, and the other endpoint is not part of it.
Dotted references, tuples, calls and strings are read as zero.
-/

namespace NFdl

@[ext] structure FlowKey where
  data : List UInt8
  size : data.length = 16
deriving DecidableEq

/-- The loop that copies bytes stops at the sixteenth; bytes that are not written
stay zero. -/
def FlowKey.pack (bytes : List UInt8) : FlowKey :=
  ⟨(bytes ++ List.replicate 16 0).take 16, by simp⟩

def toBeBytes (v : UInt64) : List UInt8 := beBytes 8 v.toNat

/-- The components of an endpoint: those of a tuple, or the one scalar. -/
def endpointComponents : Expr → List Expr
  | .tuple elems => elems
  | other => [other]

def evalEndpoint (ctx : Env) (e : Expr) : Option (List UInt8) := do
  let vals ← (endpointComponents e).mapM (evalExpr ctx)
  some (vals.flatMap toBeBytes)

/-- No result where the evaluation of a component overflows. -/
def computeFlowKey (keyExpr : Option Expr) (ctx : Env) : Option FlowKey :=
  match keyExpr with
  | some (.call "bidir_tuple" [a, b]) => do
      let a ← evalEndpoint ctx a
      let b ← evalEndpoint ctx b
      some (.pack (if b < a then b ++ a else a ++ b))
  | some (.call "bidir" [a, b]) => do
      let av ← evalExpr ctx a
      let bv ← evalExpr ctx b
      some (.pack (if av ≤ bv then toBeBytes av ++ toBeBytes bv else toBeBytes bv ++ toBeBytes av))
  | _ => some (.pack [])

/-! ### What a key stands for -/

/-- The name that a dotted reference spells. -/
def dottedName : Expr → Option String
  | .ident name => some name
  | .field base name => (dottedName base).map fun prefixName => prefixName ++ "." ++ name
  | _ => none

/-- How a value that is no number is put together. -/
inductive ValueForm where
  | text (s : String)
  | tuple
  | call (name : String)
  | member (name : String)
  | binary (op : BinOp)
  | unary (op : UnaryOp)
  | ternary
deriving DecidableEq

/-- What an expression in a key stands for: a number, or a form with the values of its parts. -/
inductive KeyValue where
  | number (n : Nat)
  | compound (form : ValueForm) (parts : List KeyValue)

namespace KeyValue

/-- Operators compute with numbers only. Applied to anything else they stay as they are written. -/
def binary (op : BinOp) : KeyValue → KeyValue → KeyValue
  | .number l, .number r => .number (op.exact l r)
  | l, r => .compound (.binary op) [l, r]

def unary (op : UnaryOp) : KeyValue → KeyValue
  | .number v => .number (op.exact v)
  | v => .compound (.unary op) [v]

def ternary (thenValue elseValue : KeyValue) : KeyValue → KeyValue
  | .number c => if c ≠ 0 then thenValue else elseValue
  | c => .compound .ternary [c, thenValue, elseValue]

/-- Only the number zero is replaced by the default. -/
def coalesce (defaultValue : KeyValue) : KeyValue → KeyValue
  | .number v => if v ≠ 0 then .number v else defaultValue
  | v => v

end KeyValue

mutual

/-- The value that a key expression stands for: names and dotted names are read from the context,
numbers are exact, and tuples, calls and strings are the values they are written as. -/
def keyValue (ctx : Env) : Expr → KeyValue
  | .int v => .number v.toUInt64.toNat
  | .ident name => .number (ctx.value name).toNat
  | .binary op left right => .binary op (keyValue ctx left) (keyValue ctx right)
  | .unary op expr => .unary op (keyValue ctx expr)
  | .ternary cond thenBranch elseBranch =>
      .ternary (keyValue ctx thenBranch) (keyValue ctx elseBranch) (keyValue ctx cond)
  | .coalesce value default => .coalesce (keyValue ctx default) (keyValue ctx value)
  | .call name args => .compound (.call name) (keyValues ctx args)
  | .tuple items => .compound .tuple (keyValues ctx items)
  | .field base name =>
      match dottedName (.field base name) with
      | some dotted => .number (ctx.value dotted).toNat
      | none => .compound (.member name) [keyValue ctx base]
  | .str s => .compound (.text s) []

def keyValues (ctx : Env) : List Expr → List KeyValue
  | [] => []
  | e :: es => keyValue ctx e :: keyValues ctx es

end

/-- The key expressions of two endpoints of equal arity, and the components of
the endpoints. -/
inductive BidirKey : Expr → List Expr → List Expr → Prop where
  | bidir (a b) : BidirKey (.call "bidir" [a, b]) [a] [b]
  | bidirTuple (a b) (arity : (endpointComponents a).length = (endpointComponents b).length) :
      BidirKey (.call "bidir_tuple" [a, b]) (endpointComponents a) (endpointComponents b)

/-- The unordered pair of the endpoints' values. -/
def conversation (ctx : Env) (as bs : List Expr) : Sym2 (List KeyValue) :=
  s(keyValues ctx as, keyValues ctx bs)

/-- Both contexts have a key, and the keys are equal exactly if the conversations
are the same. -/
def KeysIdentify (key : Expr) (as bs : List Expr) (ctx ctx' : Env) : Prop :=
  ∃ k k', computeFlowKey (some key) ctx = some k ∧ computeFlowKey (some key) ctx' = some k' ∧
    (k = k' ↔ conversation ctx as bs = conversation ctx' as bs)

/-! ### What a key keeps -/

/-- The components are evaluated without overflow. -/
def ComponentsFit (ctx : Env) (as bs : List Expr) : Prop := ∀ e ∈ as ++ bs, FitsWord ctx e

/-- The expression is made of numbers, names and operators only. -/
def Expr.NumbersOnly : Expr → Prop
  | .int _ | .ident _ => True
  | .binary _ left right => left.NumbersOnly ∧ right.NumbersOnly
  | .unary _ expr => expr.NumbersOnly
  | .ternary cond thenBranch elseBranch =>
      cond.NumbersOnly ∧ thenBranch.NumbersOnly ∧ elseBranch.NumbersOnly
  | .coalesce value default => value.NumbersOnly ∧ default.NumbersOnly
  | _ => False

/-- The expression with zero for its dotted references, tuples, calls and strings. -/
def zeroed : Expr → Expr
  | .binary op left right => .binary op (zeroed left) (zeroed right)
  | .unary op expr => .unary op (zeroed expr)
  | .ternary cond thenBranch elseBranch =>
      .ternary (zeroed cond) (zeroed thenBranch) (zeroed elseBranch)
  | .coalesce value default => .coalesce (zeroed value) (zeroed default)
  | .int v => .int v
  | .ident name => .ident name
  | .call _ _ | .tuple _ | .field _ _ | .str _ => .int 0

/-- The lesser one of two endpoints whose components are numbers. -/
def lesserEndpoint (ctx : Env) (as bs : List Expr) : List Nat :=
  let a := as.map (exactValue ctx)
  let b := bs.map (exactValue ctx)
  if b < a then b else a

/-- The endpoints have one component at most, or the conversations are the same, or their lesser
endpoints differ in one of the first two components. -/
def KeptApart (ctx ctx' : Env) (as bs : List Expr) : Prop :=
  as.length ≤ 1 ∨ conversation ctx as bs = conversation ctx' as bs ∨
    (lesserEndpoint ctx as bs).take 2 ≠ (lesserEndpoint ctx' as bs).take 2

/-- The conversations are the same exactly if they are with zero for everything but numbers, names
and operators. -/
def SameZeroed (ctx ctx' : Env) (as bs : List Expr) : Prop :=
  conversation ctx as bs = conversation ctx' as bs ↔
    conversation ctx (as.map zeroed) (bs.map zeroed) =
      conversation ctx' (as.map zeroed) (bs.map zeroed)

/-- The values of two endpoints, the lesser endpoint first. -/
def inOrder (a b : List Nat) : List Nat := if b < a then b ++ a else a ++ b

/-- The two numbers that come first. -/
def leading (ctx : Env) (as bs : List Expr) : List Nat :=
  (inOrder (as.map (exactValue ctx)) (bs.map (exactValue ctx))).take 2

/-! ### The key as a packed list of numbers -/

section Values

variable {ctx ctx' : Env} {key e : Expr} {as bs es : List Expr}

theorem exactValue_lt (h : FitsWord ctx e) : exactValue ctx e < 256 ^ 8 := by
  obtain ⟨_, v, _, hexact⟩ | ⟨hnot, _⟩ := evalExpr_exact ctx e
  · rw [← hexact]
    exact v.toNat_lt
  · exact absurd h hnot

theorem evalExpr_of_fits (h : FitsWord ctx e) :
    ∃ v, evalExpr ctx e = some v ∧ v.toNat = exactValue ctx e := by
  obtain ⟨_, hv⟩ | ⟨hnot, _⟩ := evalExpr_exact ctx e
  · exact hv
  · exact absurd h hnot

theorem mapM_of_fits (h : ∀ e ∈ es, FitsWord ctx e) :
    ∃ vals, es.mapM (evalExpr ctx) = some vals ∧
      vals.map UInt64.toNat = es.map (exactValue ctx) := by
  induction es with
  | nil => exact ⟨[], rfl, rfl⟩
  | cons e es ih =>
      obtain ⟨he, hes⟩ := List.forall_mem_cons.mp h
      obtain ⟨v, hv, hexact⟩ := evalExpr_of_fits he
      obtain ⟨vals, hvals, hmap⟩ := ih hes
      exact ⟨v :: vals, by simp [hv, hvals], by simp [hexact, hmap]⟩

theorem fits_of_mapM {vals : List UInt64} (h : es.mapM (evalExpr ctx) = some vals) :
    ∀ e ∈ es, FitsWord ctx e := by
  induction es generalizing vals with
  | nil => simp
  | cons e es ih =>
      simp only [List.mapM_cons, Option.bind_eq_bind, Option.bind_eq_some_iff, Option.pure_def] at h
      obtain ⟨v, hv, rest, hrest, -⟩ := h
      exact List.forall_mem_cons.mpr ⟨evalExpr_ne_none_iff.mp (by simp [hv]), ih hrest⟩

theorem flatMap_toBeBytes (vals : List UInt64) :
    vals.flatMap toBeBytes = BeBytes.blocks 8 (vals.map UInt64.toNat) := by
  rw [BeBytes.blocks, List.flatMap_map]
  rfl

theorem evalEndpoint_of_fits (h : ∀ e' ∈ endpointComponents e, FitsWord ctx e') :
    evalEndpoint ctx e =
      some (BeBytes.blocks 8 ((endpointComponents e).map (exactValue ctx))) := by
  obtain ⟨vals, hvals, hmap⟩ := mapM_of_fits h
  simp only [evalEndpoint, hvals, Option.bind_eq_bind, Option.bind_some, flatMap_toBeBytes, hmap]

theorem values_lt (h : ∀ e ∈ es, FitsWord ctx e) : ∀ v ∈ es.map (exactValue ctx), v < 256 ^ 8 := by
  intro v hv
  obtain ⟨e, he, rfl⟩ := List.mem_map.mp hv
  exact exactValue_lt (h e he)

theorem BidirKey.length_eq (h : BidirKey key as bs) : as.length = bs.length := by
  cases h with
  | bidir a b => rfl
  | bidirTuple a b arity => exact arity

/-- The bytes of the endpoints compare like their values. -/
theorem blocks_inOrder {a b : List Nat} (hlen : a.length = b.length) (ha : ∀ v ∈ a, v < 256 ^ 8)
    (hb : ∀ v ∈ b, v < 256 ^ 8) :
    (if BeBytes.blocks 8 b < BeBytes.blocks 8 a then BeBytes.blocks 8 b ++ BeBytes.blocks 8 a
      else BeBytes.blocks 8 a ++ BeBytes.blocks 8 b) = BeBytes.blocks 8 (inOrder a b) := by
  unfold inOrder
  simp only [BeBytes.blocks_lt_iff hlen.symm hb ha]
  split <;> rw [BeBytes.blocks_append]

/-- Without overflow, the key packs the values of the endpoints in order. -/
theorem computeFlowKey_of_fits (hkey : BidirKey key as bs) (h : ComponentsFit ctx as bs) :
    computeFlowKey (some key) ctx = some (.pack (BeBytes.blocks 8
      (inOrder (as.map (exactValue ctx)) (bs.map (exactValue ctx))))) := by
  obtain ⟨has, hbs⟩ := List.forall_mem_append.mp h
  rw [← blocks_inOrder (by simpa using hkey.length_eq) (values_lt has) (values_lt hbs)]
  cases hkey with
  | bidir a b =>
      obtain ⟨av, ha, hexacta⟩ := evalExpr_of_fits (has a (by simp))
      obtain ⟨bv, hb, hexactb⟩ := evalExpr_of_fits (hbs b (by simp))
      have hlt : beBytes 8 bv.toNat < beBytes 8 av.toNat ↔ ¬ av ≤ bv := by
        rw [BeBytes.beBytes_lt_iff bv.toNat_lt av.toNat_lt, UInt64.le_iff_toNat_le, Nat.not_le]
      simp only [computeFlowKey, ha, hb, Option.bind_eq_bind, Option.bind_some, List.map_cons,
        List.map_nil, ← hexacta, ← hexactb, BeBytes.blocks_cons, BeBytes.blocks_nil,
        List.append_nil, hlt, toBeBytes, ite_not]
  | bidirTuple a b arity =>
      simp only [computeFlowKey, evalEndpoint_of_fits has, evalEndpoint_of_fits hbs,
        Option.bind_eq_bind, Option.bind_some]

/-- A key is computed only without overflow. -/
theorem fits_of_computeFlowKey (hkey : BidirKey key as bs) {k : FlowKey}
    (h : computeFlowKey (some key) ctx = some k) : ComponentsFit ctx as bs := by
  refine List.forall_mem_append.mpr ?_
  cases hkey with
  | bidir a b =>
      simp only [computeFlowKey, Option.bind_eq_bind, Option.bind_eq_some_iff] at h
      obtain ⟨av, ha, bv, hb, -⟩ := h
      have hfita : FitsWord ctx a := evalExpr_ne_none_iff.mp (by simp [ha])
      have hfitb : FitsWord ctx b := evalExpr_ne_none_iff.mp (by simp [hb])
      exact ⟨by simpa using hfita, by simpa using hfitb⟩
  | bidirTuple a b arity =>
      simp only [computeFlowKey, evalEndpoint, Option.bind_eq_bind, Option.bind_eq_some_iff] at h
      obtain ⟨_, ⟨vals, hvals, -⟩, _, ⟨vals', hvals', -⟩, -⟩ := h
      exact ⟨fits_of_mapM hvals, fits_of_mapM hvals'⟩

theorem length_inOrder {a b : List Nat} (h : a.length = b.length) :
    (inOrder a b).length = 2 * a.length := by
  unfold inOrder
  split <;> rw [List.length_append] <;> omega

theorem mem_inOrder {a b : List Nat} {v : Nat} (h : v ∈ inOrder a b) : v ∈ a ∨ v ∈ b := by
  unfold inOrder at h
  split at h
  · exact (List.mem_append.mp h).symm
  · exact List.mem_append.mp h

theorem pack_of_le {bytes : List UInt8} (h : 16 ≤ bytes.length) :
    (FlowKey.pack bytes).data = bytes.take 16 :=
  List.take_append_of_le_length h

/-- Sixteen bytes hold exactly the first two numbers. -/
theorem pack_blocks_eq_iff {l l' : List Nat} (hlen : l.length = l'.length) (htwo : l.length ≠ 1)
    (hl : ∀ v ∈ l, v < 256 ^ 8) (hl' : ∀ v ∈ l', v < 256 ^ 8) :
    FlowKey.pack (BeBytes.blocks 8 l) = FlowKey.pack (BeBytes.blocks 8 l') ↔
      l.take 2 = l'.take 2 := by
  by_cases hzero : l.length = 0
  · obtain rfl := List.eq_nil_of_length_eq_zero hzero
    obtain rfl := List.eq_nil_of_length_eq_zero (hlen.symm.trans hzero)
    exact iff_of_true rfl rfl
  · have hbytes : 16 ≤ (BeBytes.blocks 8 l).length := by
      rw [BeBytes.length_blocks]
      omega
    have hbytes' : 16 ≤ (BeBytes.blocks 8 l').length := by
      rw [BeBytes.length_blocks]
      omega
    have htake (l : List Nat) : (BeBytes.blocks 8 l).take 16 = BeBytes.blocks 8 (l.take 2) :=
      @BeBytes.take_blocks 8 l 2
    rw [FlowKey.ext_iff, pack_of_le hbytes, pack_of_le hbytes', htake, htake,
      BeBytes.blocks_inj (by simp [hlen])]
    · exact fun v hv => hl v (List.mem_of_mem_take hv)
    · exact fun v hv => hl' v (List.mem_of_mem_take hv)

/-- Two keys are equal exactly if the leading values are. -/
theorem computeFlowKey_eq_iff (hkey : BidirKey key as bs) (h : ComponentsFit ctx as bs)
    (h' : ComponentsFit ctx' as bs) :
    computeFlowKey (some key) ctx = computeFlowKey (some key) ctx' ↔
      leading ctx as bs = leading ctx' as bs := by
  have hlen := hkey.length_eq
  have hbound {ctx : Env} (h : ComponentsFit ctx as bs) : ∀ v ∈ inOrder (as.map (exactValue ctx))
      (bs.map (exactValue ctx)), v < 256 ^ 8 := by
    obtain ⟨has, hbs⟩ := List.forall_mem_append.mp h
    exact fun v hv => (mem_inOrder hv).elim (values_lt has v) (values_lt hbs v)
  have hlength (ctx : Env) : (inOrder (as.map (exactValue ctx)) (bs.map (exactValue ctx))).length =
      2 * as.length := by
    rw [length_inOrder (by simpa using hlen), List.length_map]
  rw [computeFlowKey_of_fits hkey h, computeFlowKey_of_fits hkey h', Option.some.injEq,
    pack_blocks_eq_iff ((hlength ctx).trans (hlength ctx').symm) (by rw [hlength]; omega)
      (hbound h) (hbound h')]
  rfl

/-- The keys identify the conversations exactly if the leading values are those of the same
conversation only. -/
theorem keysIdentify_iff_leading (hkey : BidirKey key as bs) :
    KeysIdentify key as bs ctx ctx' ↔ ComponentsFit ctx as bs ∧ ComponentsFit ctx' as bs ∧
      (leading ctx as bs = leading ctx' as bs ↔
        conversation ctx as bs = conversation ctx' as bs) := by
  constructor
  · rintro ⟨k, k', hk, hk', hiff⟩
    have h := fits_of_computeFlowKey hkey hk
    have h' := fits_of_computeFlowKey hkey hk'
    have hlead := computeFlowKey_eq_iff hkey h h'
    rw [hk, hk', Option.some.injEq, hiff] at hlead
    exact ⟨h, h', hlead.symm⟩
  · rintro ⟨h, h', hiff⟩
    refine ⟨_, _, computeFlowKey_of_fits hkey h, computeFlowKey_of_fits hkey h', ?_⟩
    have hlead := computeFlowKey_eq_iff hkey h h'
    rw [computeFlowKey_of_fits hkey h, computeFlowKey_of_fits hkey h', Option.some.injEq] at hlead
    exact hlead.trans hiff

/-! ### Keys of numbers, names and operators -/

theorem zeroed_numbersOnly (e : Expr) : (zeroed e).NumbersOnly := by
  induction e with
  | binary op left right ihl ihr => exact ⟨ihl, ihr⟩
  | unary op expr ih => exact ih
  | ternary cond thenBranch elseBranch ihc iht ihe => exact ⟨ihc, iht, ihe⟩
  | coalesce value default ihv ihd => exact ⟨ihv, ihd⟩
  | _ => trivial

/-- The evaluator reads everything but numbers, names and operators as zero. -/
theorem exactValue_zeroed (e : Expr) : exactValue ctx (zeroed e) = exactValue ctx e := by
  induction e with
  | binary op left right ihl ihr => simp only [zeroed, exactValue, ihl, ihr]
  | unary op expr ih => simp only [zeroed, exactValue, ih]
  | ternary cond thenBranch elseBranch ihc iht ihe => simp only [zeroed, exactValue, ihc, iht, ihe]
  | coalesce value default ihv ihd => simp only [zeroed, exactValue, ihv, ihd]
  | _ => rfl

theorem keyValue_of_numbersOnly (h : e.NumbersOnly) :
    keyValue ctx e = .number (exactValue ctx e) := by
  induction e with
  | int v => rfl
  | ident name => rfl
  | binary op left right ihl ihr =>
      rw [keyValue, ihl h.1, ihr h.2]
      rfl
  | unary op expr ih =>
      rw [keyValue, ih h]
      rfl
  | ternary cond thenBranch elseBranch ihc iht ihe =>
      rw [keyValue, ihc h.1, iht h.2.1, ihe h.2.2, KeyValue.ternary, exactValue]
      split <;> rfl
  | coalesce value default ihv ihd =>
      rw [keyValue, ihv h.1, ihd h.2, KeyValue.coalesce, exactValue]
      split <;> rfl
  | _ => exact absurd h id

theorem keyValues_eq_map (es : List Expr) : keyValues ctx es = es.map (keyValue ctx) := by
  induction es with
  | nil => rfl
  | cons e es ih => rw [keyValues, ih, List.map_cons]

theorem keyValues_of_numbersOnly (h : ∀ e ∈ es, e.NumbersOnly) :
    keyValues ctx es = (es.map (exactValue ctx)).map .number := by
  rw [keyValues_eq_map, List.map_map]
  exact List.map_congr_left fun e he => keyValue_of_numbersOnly (h e he)

theorem map_number_inj {l l' : List Nat} : l.map KeyValue.number = l'.map .number ↔ l = l' :=
  (List.map_injective_iff.mpr fun _ _ h => KeyValue.number.inj h).eq_iff

/-- Conversations between numbers are the same if the numbers are. -/
theorem conversation_eq_iff (h : ∀ e ∈ as ++ bs, e.NumbersOnly) :
    conversation ctx as bs = conversation ctx' as bs ↔
      s(as.map (exactValue ctx), bs.map (exactValue ctx)) =
        s(as.map (exactValue ctx'), bs.map (exactValue ctx')) := by
  obtain ⟨has, hbs⟩ := List.forall_mem_append.mp h
  unfold conversation
  rw [keyValues_of_numbersOnly has, keyValues_of_numbersOnly hbs, keyValues_of_numbersOnly has,
    keyValues_of_numbersOnly hbs, Sym2.eq_iff, Sym2.eq_iff]
  simp only [map_number_inj]

theorem inOrder_comm (a b : List Nat) : inOrder a b = inOrder b a := by
  unfold inOrder
  obtain hlt | rfl | hlt := lt_trichotomy a b
  · rw [if_neg hlt.asymm, if_pos hlt]
  · rfl
  · rw [if_pos hlt, if_neg hlt.asymm]

/-- Both directions of a conversation share a key. -/
theorem leading_eq_of_conversation_eq (h : ∀ e ∈ as ++ bs, e.NumbersOnly)
    (hsame : conversation ctx as bs = conversation ctx' as bs) :
    leading ctx as bs = leading ctx' as bs := by
  rw [conversation_eq_iff h, Sym2.eq_iff] at hsame
  unfold leading
  obtain ⟨ha, hb⟩ | ⟨ha, hb⟩ := hsame
  · rw [ha, hb]
  · rw [ha, hb, inOrder_comm]

/-- The leading values of endpoints of one component are all values. -/
theorem conversation_eq_of_leading_eq (h : ∀ e ∈ as ++ bs, e.NumbersOnly)
    (hlen : as.length = bs.length) (hone : as.length ≤ 1)
    (hlead : leading ctx as bs = leading ctx' as bs) :
    conversation ctx as bs = conversation ctx' as bs := by
  rw [conversation_eq_iff h, Sym2.eq_iff]
  have hshort (ctx : Env) : leading ctx as bs =
      inOrder (as.map (exactValue ctx)) (bs.map (exactValue ctx)) := by
    refine List.take_of_length_le ?_
    rw [length_inOrder (by simpa using hlen), List.length_map]
    omega
  have hlen' (ctx : Env) : (as.map (exactValue ctx)).length = as.length := List.length_map _
  have hlenb (ctx : Env) : (bs.map (exactValue ctx)).length = as.length := by
    rw [List.length_map, hlen]
  rw [hshort, hshort] at hlead
  unfold inOrder at hlead
  split at hlead <;> split at hlead <;>
    obtain ⟨hfirst, hsecond⟩ := List.append_inj hlead (by simp only [hlen', hlenb])
  · exact .inl ⟨hsecond, hfirst⟩
  · exact .inr ⟨hsecond, hfirst⟩
  · exact .inr ⟨hfirst, hsecond⟩
  · exact .inl ⟨hfirst, hsecond⟩

/-- The leading values of longer endpoints are those of the lesser one. -/
theorem leading_eq_lesser (hlen : as.length = bs.length) (htwo : 2 ≤ as.length) :
    leading ctx as bs = (lesserEndpoint ctx as bs).take 2 := by
  have hb : 2 ≤ (bs.map (exactValue ctx)).length := by rw [List.length_map]; omega
  have ha : 2 ≤ (as.map (exactValue ctx)).length := by rw [List.length_map]; omega
  unfold leading inOrder lesserEndpoint
  dsimp only
  split
  · exact List.take_append_of_le_length hb
  · exact List.take_append_of_le_length ha

/-- For keys of numbers, names and operators the leading values fail in one way only: they are
shared by different conversations. -/
theorem keptApart_iff (h : ∀ e ∈ as ++ bs, e.NumbersOnly) (hlen : as.length = bs.length) :
    KeptApart ctx ctx' as bs ↔ (leading ctx as bs = leading ctx' as bs ↔
      conversation ctx as bs = conversation ctx' as bs) := by
  have hsame := @leading_eq_of_conversation_eq ctx ctx' as bs h
  unfold KeptApart
  by_cases hone : as.length ≤ 1
  · exact iff_of_true (.inl hone) ⟨conversation_eq_of_leading_eq h hlen hone, hsame⟩
  · rw [← leading_eq_lesser hlen (by omega), ← leading_eq_lesser hlen (by omega)]
    tauto

theorem leading_zeroed : leading ctx (as.map zeroed) (bs.map zeroed) = leading ctx as bs := by
  simp only [leading, List.map_map, Function.comp_def, exactValue_zeroed]

/-- For every key of the two forms and any two contexts, the keys identify the conversations
exactly if every component is evaluated without overflow and one of two cases holds: the parts
that are read as zero make no difference, and what is cut off makes none either; or both do.
A key of numbers, names and operators has no such parts. -/
theorem keysIdentify_iff (hkey : BidirKey key as bs) (ctx ctx' : Env) :
    (KeysIdentify key as bs ctx ctx' ↔
      ComponentsFit ctx as bs ∧ ComponentsFit ctx' as bs ∧
        (SameZeroed ctx ctx' as bs ↔ KeptApart ctx ctx' (as.map zeroed) (bs.map zeroed))) ∧
      ((∀ e ∈ as ++ bs, e.NumbersOnly) →
        (KeysIdentify key as bs ctx ctx' ↔
          ComponentsFit ctx as bs ∧ ComponentsFit ctx' as bs ∧ KeptApart ctx ctx' as bs)) := by
  have hlen := hkey.length_eq
  have hzeroed : ∀ e ∈ as.map zeroed ++ bs.map zeroed, e.NumbersOnly := by
    rw [← List.map_append]
    exact List.forall_mem_map.mpr fun e _ => zeroed_numbersOnly e
  rw [keysIdentify_iff_leading hkey]
  constructor
  · rw [keptApart_iff hzeroed (by simpa using hlen), leading_zeroed, leading_zeroed]
    unfold SameZeroed
    tauto
  · intro hnumbers
    rw [keptApart_iff hnumbers hlen]

/-- Endpoints of a single component of numbers, names and operators are identified by
their keys. -/
theorem keysIdentify_scalar {a b : Expr} (hkey : BidirKey key [a] [b]) (ha : a.NumbersOnly)
    (hb : b.NumbersOnly) (h : ComponentsFit ctx [a] [b]) (h' : ComponentsFit ctx' [a] [b]) :
    KeysIdentify key [a] [b] ctx ctx' := by
  have hnumbers : ∀ e ∈ [a] ++ [b], e.NumbersOnly := by simp [ha, hb]
  exact (keysIdentify_iff_leading hkey).mpr
    ⟨h, h', (keptApart_iff hnumbers rfl).mp (.inl (Nat.le_refl 1))⟩

end Values

/-- The key of the runner's tests. -/
def tupleKey : Expr :=
  .call "bidir_tuple" [.tuple [.ident "src_ip", .ident "src_port"],
    .tuple [.ident "dst_ip", .ident "dst_port"]]

/-- A context with the addresses and ports of a packet. -/
def packet (srcIp srcPort dstIp dstPort : UInt64) : Env := fun name =>
  if name = "src_ip" then some srcIp
  else if name = "src_port" then some srcPort
  else if name = "dst_ip" then some dstIp
  else if name = "dst_port" then some dstPort
  else none

/-- The two directions of a conversation have one key. -/
theorem keysIdentify_iff_tupleKey :
    KeysIdentify tupleKey [.ident "src_ip", .ident "src_port"] [.ident "dst_ip", .ident "dst_port"]
      (packet 1 100 2 200) (packet 2 200 1 100) := by
  have hkey : BidirKey tupleKey [.ident "src_ip", .ident "src_port"]
      [.ident "dst_ip", .ident "dst_port"] :=
    .bidirTuple (.tuple [.ident "src_ip", .ident "src_port"])
      (.tuple [.ident "dst_ip", .ident "dst_port"]) rfl
  refine ((keysIdentify_iff hkey _ _).2 ?_).mpr ⟨?_, ?_, .inr (.inl Sym2.eq_swap)⟩
  · simp [Expr.NumbersOnly]
  · simp [ComponentsFit, FitsWord]
  · simp [ComponentsFit, FitsWord]

/-- The same client talks to two servers, and both conversations have one key. -/
theorem tupleKey_collides :
    computeFlowKey (some tupleKey) (packet 1 100 2 200) =
        computeFlowKey (some tupleKey) (packet 1 100 3 300) ∧
      conversation (packet 1 100 2 200) [.ident "src_ip", .ident "src_port"]
          [.ident "dst_ip", .ident "dst_port"] ≠
        conversation (packet 1 100 3 300) [.ident "src_ip", .ident "src_port"]
          [.ident "dst_ip", .ident "dst_port"] := by
  refine ⟨by rfl, ?_⟩
  rw [ne_eq, conversation_eq_iff (by simp [Expr.NumbersOnly]), Sym2.eq_iff]
  decide

end NFdl
