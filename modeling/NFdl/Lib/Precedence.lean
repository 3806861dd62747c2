import Mathlib.Algebra.BigOperators.Group.List.Basic
import NFdl.Lib.Parsing
import Mathlib.Algebra.GroupWithZero.Nat

/-!
# Operators with precedences

Operands with infix operators between them make up a chain. A ladder of parsers, one for
each precedence and each with operators that associate to the left, reads a chain as a
canonical tree, and a chain has only one canonical tree.
-/

namespace Precedence

/-! ### Trees and chains -/

inductive Tree (ι ρ : Type) where
  | leaf (a : ρ)
  | node (op : ι) (left right : Tree ι ρ)

namespace Tree

variable {ι ρ : Type} {prec : ι → ℕ} {t t' : Tree ι ρ} {k : ℕ}

/-- The first operand. -/
def first : Tree ι ρ → ρ
  | leaf a => a
  | node _ left _ => left.first

/-- The operators and their right operands, behind the first operand. -/
def links : Tree ι ρ → List (ι × ρ)
  | leaf _ => []
  | node op left right => left.links ++ (op, right.first) :: right.links

def leaves (t : Tree ι ρ) : List ρ := t.first :: t.links.map Prod.snd

theorem leaves_node (op : ι) (left right : Tree ι ρ) :
    (node op left right).leaves = left.leaves ++ right.leaves := by
  simp [leaves, first, links]

theorem two_le_leaves (op : ι) (left right : Tree ι ρ) : 2 ≤ (node op left right).leaves.length := by
  rw [leaves_node, List.length_append]
  simp only [leaves, List.length_cons]
  omega

/-- The operator at the root, if there is one, binds at least as tightly as a bound. -/
def RootAbove (prec : ι → ℕ) (k : ℕ) : Tree ι ρ → Prop
  | leaf _ => True
  | node op _ _ => k ≤ prec op

/-- Every operator binds less tightly than those of its right operand, and not more tightly
than those of its left one. -/
def Canonical (prec : ι → ℕ) : Tree ι ρ → Prop
  | leaf _ => True
  | node op left right =>
      left.RootAbove prec (prec op) ∧ right.RootAbove prec (prec op + 1) ∧
        left.Canonical prec ∧ right.Canonical prec

theorem rootAbove_of_links (h : ∀ x ∈ t.links, k ≤ prec x.1) : t.RootAbove prec k := by
  cases t with
  | leaf a => trivial
  | node op left right =>
      exact h (op, right.first) (List.mem_append_right _ (List.mem_cons_self ..))

theorem Canonical.links_above (h : t.Canonical prec) (hroot : t.RootAbove prec k) :
    ∀ x ∈ t.links, k ≤ prec x.1 := by
  induction t generalizing k with
  | leaf a => nofun
  | node op left right ihl ihr =>
      obtain ⟨hleft, hright, hl, hr⟩ := h
      intro x hx
      obtain hx | hx := List.mem_append.mp hx
      · exact Nat.le_trans hroot (ihl hl hleft x hx)
      · obtain rfl | hx := List.mem_cons.mp hx
        · exact hroot
        · exact Nat.le_trans hroot (Nat.le_of_succ_le (ihr hr hright x hx))

/-- A list has one last element of least weight. -/
theorem split_unique {α : Type} {w : α → ℕ} {xs xs' ys ys' : List α} {x x' : α}
    (h : xs ++ x :: ys = xs' ++ x' :: ys') (hxs : ∀ y ∈ xs, w x ≤ w y) (hys : ∀ y ∈ ys, w x < w y)
    (hxs' : ∀ y ∈ xs', w x' ≤ w y) (hys' : ∀ y ∈ ys', w x' < w y) :
    xs = xs' ∧ x = x' ∧ ys = ys' := by
  obtain ⟨mid, rfl, hmid⟩ | ⟨mid, rfl, hmid⟩ := List.append_eq_append_iff.mp h
  · cases mid with
    | nil =>
        obtain ⟨rfl, rfl⟩ := List.cons.inj hmid
        exact ⟨(List.append_nil _).symm, rfl, rfl⟩
    | cons z mid =>
        obtain ⟨rfl, rfl⟩ := List.cons.inj hmid
        have hle := hxs' x (List.mem_append_right _ (List.mem_cons_self ..))
        have hlt := hys x' (List.mem_append_right _ (List.mem_cons_self ..))
        omega
  · cases mid with
    | nil =>
        obtain ⟨rfl, rfl⟩ := List.cons.inj hmid
        exact ⟨List.append_nil _, rfl, rfl⟩
    | cons z mid =>
        obtain ⟨rfl, rfl⟩ := List.cons.inj hmid
        have hle := hxs x' (List.mem_append_right _ (List.mem_cons_self ..))
        have hlt := hys' x (List.mem_append_right _ (List.mem_cons_self ..))
        omega

/-- A chain has one canonical tree. -/
theorem Canonical.unique (h : t.Canonical prec) (h' : t'.Canonical prec)
    (hfirst : t.first = t'.first) (hlinks : t.links = t'.links) : t = t' := by
  induction t generalizing t' with
  | leaf a =>
      cases t' with
      | leaf b => exact congrArg leaf hfirst
      | node op left right =>
          cases (List.append_eq_nil_iff.mp hlinks.symm).2
  | node op left right ihl ihr =>
      cases t' with
      | leaf b => cases (List.append_eq_nil_iff.mp hlinks).2
      | node op' left' right' =>
          obtain ⟨hleft, hright, hl, hr⟩ := h
          obtain ⟨hleft', hright', hl', hr'⟩ := h'
          obtain ⟨hll, hop, hrl⟩ := split_unique (w := fun x : ι × ρ => prec x.1) hlinks
            (hl.links_above hleft) (hr.links_above hright) (hl'.links_above hleft')
            (hr'.links_above hright')
          obtain ⟨rfl, hrfirst⟩ := Prod.mk.inj hop
          rw [ihl hl hl' hfirst hll, ihr hr hr' hrfirst hrl]

/-! ### Values -/

/-- The value of a tree. -/
def value (mk : ι → ρ → ρ → ρ) : Tree ι ρ → ρ
  | leaf a => a
  | node op left right => mk op (left.value mk) (right.value mk)

section Sizes

variable {mk : ι → ρ → ρ → ρ} {size : ρ → ℕ}

theorem size_value (hsize : ∀ op a b, size (mk op a b) = size a + size b + 1) (t : Tree ι ρ) :
    size (t.value mk) + 1 = (t.leaves.map fun a => size a + 1).sum := by
  induction t with
  | leaf a => rfl
  | node op left right ihl ihr =>
      rw [leaves_node, List.map_append, List.sum_append, ← ihl, ← ihr]
      change size (mk op _ _) + 1 = _
      rw [hsize]
      omega

/-- Prefixes of a list of positive numbers with one sum are equal. -/
theorem prefix_unique {xs xs' ys ys' : List ℕ} (h : xs ++ ys = xs' ++ ys')
    (hsum : (xs.map (· + 1)).sum = (xs'.map (· + 1)).sum) : xs = xs' ∧ ys = ys' := by
  obtain ⟨mid, rfl, rfl⟩ | ⟨mid, rfl, rfl⟩ := List.append_eq_append_iff.mp h
  · cases mid with
    | nil => simp
    | cons x mid =>
        simp only [List.map_append, List.map_cons, List.sum_append, List.sum_cons] at hsum
        omega
  · cases mid with
    | nil => simp
    | cons x mid =>
        simp only [List.map_append, List.map_cons, List.sum_append, List.sum_cons] at hsum
        omega

/-- Trees of one value with leaves of the same sizes are equal. -/
theorem value_unique (hmk : ∀ op a b op' a' b', mk op a b = mk op' a' b' → op = op' ∧ a = a' ∧ b = b')
    (hsize : ∀ op a b, size (mk op a b) = size a + size b + 1)
    (h : t.value mk = t'.value mk) (hleaves : t.leaves.map size = t'.leaves.map size) : t = t' := by
  induction t generalizing t' with
  | leaf a =>
      cases t' with
      | leaf b => exact congrArg leaf h
      | node op left right =>
          have hlength := congrArg List.length hleaves
          rw [List.length_map, List.length_map] at hlength
          exact absurd (two_le_leaves op left right) (hlength ▸ Nat.not_succ_le_self 1)
  | node op left right ihl ihr =>
      cases t' with
      | leaf b =>
          have hlength := congrArg List.length hleaves
          rw [List.length_map, List.length_map] at hlength
          exact absurd (two_le_leaves op left right) (hlength ▸ Nat.not_succ_le_self 1)
      | node op' left' right' =>
          obtain ⟨rfl, hl, hr⟩ := hmk _ _ _ _ _ _ h
          rw [leaves_node, leaves_node, List.map_append, List.map_append] at hleaves
          have hsum : ((left.leaves.map size).map (· + 1)).sum =
              ((left'.leaves.map size).map (· + 1)).sum := by
            have hs := size_value hsize left
            have hs' := size_value hsize left'
            rw [hl] at hs
            rw [List.map_map, List.map_map]
            exact hs.symm.trans hs'
          obtain ⟨hleft, hright⟩ := prefix_unique hleaves hsum
          rw [ihl hl hleft, ihr hr hright]

end Sizes

end Tree

/-! ### Ladders -/

section Ladder

open Parser (Takes Shrinks)

variable {τ ε ι ρ : Type} (base : Parser τ ε ρ) (op : List τ → Option (ι × List τ))
variable (prec : ι → ℕ) (mk : ι → ρ → ρ → ρ) (overrun : ε) (top : ℕ)

/-- The operators of one precedence. -/
def atLevel (k : ℕ) (ts : List τ) : Option (ι × List τ) :=
  (op ts).filter fun r => decide (prec r.1 = k)

/-- The parser of the uppermost precedences, as many as the number says. -/
def ladder : ℕ → Parser τ ε ρ
  | 0 => base
  | d + 1 => Parser.leftAssoc (atLevel op prec (top - (d + 1))) mk overrun (ladder d)

/-- The tokens begin with operators and operands. -/
def Remains : List (ι × ρ) → List τ → List τ → Prop
  | [], ts, rest => ts = rest
  | (o, b) :: l, ts, rest =>
      ∃ ts' ts'', op ts = some (o, ts') ∧ base ts' = (.ok b, ts'') ∧ Remains l ts'' rest

/-- The tokens begin with a chain. -/
def Reads (a : ρ) (l : List (ι × ρ)) (ts rest : List τ) : Prop :=
  ∃ ts', base ts = (.ok a, ts') ∧ Remains base op l ts' rest

variable {base op prec mk overrun top} {d : ℕ} {ts rest : List τ} {a : ρ} {l : List (ι × ρ)}

theorem atLevel_takes (hop : Takes op) (k : ℕ) : Takes (atLevel op prec k) := by
  intro ts b ts' h
  exact hop ts b ts' (Option.filter_eq_some_iff.mp h).1

theorem ladder_shrinks (hop : Takes op) (hbase : Shrinks base) (d : ℕ) :
    Shrinks (ladder base op prec mk overrun top d) := by
  induction d with
  | zero => exact hbase
  | succ d ih => exact Parser.leftAssoc_shrinks (atLevel_takes hop _) ih

/-- Where there is no operand, every level fails. -/
theorem ladder_error {e : ε} (h : base ts = (.error e, rest)) (d : ℕ) :
    ladder base op prec mk overrun top d ts = (.error e, rest) := by
  induction d with
  | zero => exact h
  | succ d ih =>
      unfold ladder Parser.leftAssoc
      rw [ih]

theorem atLevel_none (h : op ts = none) (k : ℕ) : atLevel op prec k ts = none := by
  unfold atLevel
  rw [h]
  rfl

/-- An operator at the front of the tokens binds less tightly than a bound. -/
def EndsBelow (op : List τ → Option (ι × List τ)) (prec : ι → ℕ) (k : ℕ) (ts : List τ) : Prop :=
  ∀ o ts', op ts = some (o, ts') → prec o < k

theorem endsBelow_none (h : op ts = none) (k : ℕ) : EndsBelow op prec k ts := by
  intro o ts' hop
  rw [h] at hop
  cases hop

theorem atLevel_some {o : ι} {ts' : List τ} (h : op ts = some (o, ts')) (k : ℕ) :
    atLevel op prec k ts = if prec o = k then some (o, ts') else none := by
  unfold atLevel
  rw [h, Option.filter_some]
  simp only [decide_eq_true_eq]

theorem Remains.append {l' : List (ι × ρ)} {mid : List τ} (h : Remains base op l ts mid)
    (h' : Remains base op l' mid rest) : Remains base op (l ++ l') ts rest := by
  induction l generalizing ts with
  | nil => exact (show ts = mid from h) ▸ h'
  | cons x l ih =>
      obtain ⟨ts', ts'', ho, hb, hl⟩ := h
      exact ⟨ts', ts'', ho, hb, ih hl⟩

theorem atLevel_below {j k : ℕ} (h : EndsBelow op prec j ts) (hk : j ≤ k) :
    atLevel op prec k ts = none := by
  cases hop : op ts with
  | none => exact atLevel_none hop k
  | some r =>
      obtain ⟨o, ts'⟩ := r
      have hlow := h o ts' hop
      rw [atLevel_some hop, if_neg (by omega)]

/-- Two chains with an operator between them. -/
theorem Reads.link {b : ρ} {l' : List (ι × ρ)} {mid mid' : List τ} {o : ι}
    (h : Reads base op a l ts mid) (ho : op mid = some (o, mid'))
    (h' : Reads base op b l' mid' rest) : Reads base op a (l ++ (o, b) :: l') ts rest := by
  obtain ⟨ts', ha, hl⟩ := h
  obtain ⟨ts'', hb, hl'⟩ := h'
  have hrest : Remains base op ((o, b) :: l') mid rest := ⟨mid', ts'', ho, hb, hl'⟩
  exact ⟨ts', ha, hl.append hrest⟩

/-- What a parser of the ladder has read when it stops: a canonical tree of operators that
bind tightly enough, in front of one that does not. -/
structure Stopped (base : Parser τ ε ρ) (op : List τ → Option (ι × List τ)) (prec : ι → ℕ)
    (k : ℕ) (a : ρ) (l : List (ι × ρ)) (rest : List τ) (t : Tree ι ρ) (ts : List τ)
    (left : List (ι × ρ)) : Prop where
  canonical : t.Canonical prec
  first : t.first = a
  links : t.links ++ left = l
  remains : Remains base op left ts rest
  above : ∀ x ∈ t.links, k ≤ prec x.1
  below : ∀ x, left.head? = some x → prec x.1 < k

/-- The loop of a level takes what stands behind a tree of this level. The induction is on
the number of operands that are left. -/
theorem leftRest_stopped (hop : Takes op) (hbase : Shrinks base) (hd : d < top)
    (hend : EndsBelow op prec (top - (d + 1)) rest)
    (hnext : ∀ a l ts, Reads base op a l ts rest → ∃ t left ts',
      ladder base op prec mk overrun top d ts = (.ok (t.value mk), ts') ∧
        Stopped base op prec (top - d) a l rest t ts' left)
    {t : Tree ι ρ} {left : List (ι × ρ)} (hcanonical : t.Canonical prec)
    (habove : ∀ x ∈ t.links, top - (d + 1) ≤ prec x.1) (hremains : Remains base op left ts rest)
    (hbelow : ∀ x, left.head? = some x → prec x.1 < top - d) :
    ∃ t' left' ts', Parser.leftRest (atLevel op prec (top - (d + 1))) mk overrun
        (ladder base op prec mk overrun top d) (t.value mk) ts = (.ok (t'.value mk), ts') ∧
      Stopped base op prec (top - (d + 1)) t.first (t.links ++ left) rest t' ts' left' := by
  induction hn : left.length using Nat.strong_induction_on generalizing left t ts with
  | _ n ih =>
      cases left with
      | nil =>
          obtain rfl : ts = rest := hremains
          exact ⟨t, [], ts, Parser.leftRest_none (atLevel_below hend (Nat.le_refl _)),
            hcanonical, rfl, rfl, rfl, habove, nofun⟩
      | cons x left =>
          obtain ⟨o, b⟩ := x
          obtain ⟨ts', ts'', ho, hb, hleft⟩ := id hremains
          have hlow : prec o < top - d := hbelow (o, b) rfl
          have hlevel : atLevel op prec (top - (d + 1)) ts =
              if prec o = top - (d + 1) then some (o, ts') else none := atLevel_some ho _
          by_cases hk : prec o = top - (d + 1)
          · rw [if_pos hk] at hlevel
            obtain ⟨t₂, left₂, ts₂, hread, hstopped⟩ := hnext b left ts' ⟨ts'', hb, hleft⟩
            have hshorter : left₂.length < n := by
              rw [← hn, List.length_cons, ← hstopped.links, List.length_append]
              omega
            have hnode : (Tree.node o t t₂).Canonical prec := by
              refine ⟨Tree.rootAbove_of_links (hk ▸ habove), Tree.rootAbove_of_links ?_,
                hcanonical, hstopped.canonical⟩
              intro x hx
              have hx := hstopped.above x hx
              omega
            have hlinks : ∀ x ∈ (Tree.node o t t₂).links, top - (d + 1) ≤ prec x.1 := by
              intro x hx
              obtain hx | hx := List.mem_append.mp hx
              · exact habove x hx
              · obtain rfl | hx := List.mem_cons.mp hx
                · exact hk.ge
                · have hx := hstopped.above x hx
                  omega
            obtain ⟨t', left', ts', hrest, hstopped'⟩ :=
              ih left₂.length hshorter hnode hlinks hstopped.remains hstopped.below rfl
            refine ⟨t', left', ts', ?_, ?_⟩
            · rw [Parser.leftRest_some (atLevel_takes hop _) (ladder_shrinks hop hbase d) hlevel hread]
              exact hrest
            · rw [← hstopped.links, ← hstopped.first]
              rwa [← List.cons_append, ← List.append_assoc]
          · rw [if_neg hk] at hlevel
            refine ⟨t, (o, b) :: left, ts, Parser.leftRest_none hlevel, hcanonical, rfl, rfl,
              hremains, habove, ?_⟩
            rintro _ ⟨⟩
            have hle : prec o ≤ top - (d + 1) := by omega
            exact Nat.lt_of_le_of_ne hle hk

theorem ladder_stopped (hop : Takes op) (hbase : Shrinks base) (hprec : ∀ o, prec o < top)
    (hend : EndsBelow op prec (top - d) rest) (hd : d ≤ top) (h : Reads base op a l ts rest) :
    ∃ t left ts',
      ladder base op prec mk overrun top d ts = (.ok (t.value mk), ts') ∧
        Stopped base op prec (top - d) a l rest t ts' left := by
  induction d generalizing a l ts with
  | zero =>
      obtain ⟨ts', hfirst, hremains⟩ := h
      refine ⟨.leaf a, l, ts', hfirst, trivial, rfl, rfl, hremains, nofun, fun x _ => ?_⟩
      exact hprec x.1
  | succ d ih =>
      have hinner : EndsBelow op prec (top - d) rest := fun o ts' ho => by
        have hlow := hend o ts' ho
        omega
      obtain ⟨t, left, ts', hread, hstopped⟩ := ih hinner (Nat.le_of_succ_le hd) h
      have habove : ∀ x ∈ t.links, top - (d + 1) ≤ prec x.1 := by
        intro x hx
        have hx := hstopped.above x hx
        omega
      obtain ⟨t', left', ts'', hrest, hstopped'⟩ := leftRest_stopped hop hbase (Nat.lt_of_succ_le hd)
        hend (fun a l ts hreads => ih hinner (Nat.le_of_succ_le hd) hreads) hstopped.canonical habove
        hstopped.remains hstopped.below
      refine ⟨t', left', ts'', ?_, ?_⟩
      · rw [ladder, Parser.leftAssoc_ok hread]
        exact hrest
      · rw [hstopped.first, hstopped.links] at hstopped'
        exact hstopped'

/-- A parser of the ladder reads a chain of operators that bind tightly enough as its
canonical tree. -/
theorem ladder_reads (hop : Takes op) (hbase : Shrinks base) (hprec : ∀ o, prec o < top)
    (hend : EndsBelow op prec (top - d) rest) (hd : d ≤ top) (h : Reads base op a l ts rest)
    (hl : ∀ x ∈ l, top - d ≤ prec x.1) : ∃ t : Tree ι ρ, t.Canonical prec ∧ t.first = a ∧
      t.links = l ∧ ladder base op prec mk overrun top d ts = (.ok (t.value mk), rest) := by
  obtain ⟨t, left, ts', hread, hstopped⟩ := ladder_stopped hop hbase hprec hend hd h
  have hnil : left = [] := by
    cases left with
    | nil => rfl
    | cons x left =>
        have hlow := hstopped.below x rfl
        have hhigh := hl x (hstopped.links ▸ List.mem_append_right _ (List.mem_cons_self ..))
        omega
  obtain ⟨hcanonical, hfirst, hlinks, hremains, -, -⟩ := hstopped
  subst hnil
  rw [List.append_nil] at hlinks
  exact ⟨t, hcanonical, hfirst, hlinks, hremains ▸ hread⟩

end Ladder

end Precedence
