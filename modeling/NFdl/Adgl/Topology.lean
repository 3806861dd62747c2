import NFdl.Adgl.Binding
import NFdl.Lib.DepthSearch
import NFdl.Lib.SortedMap
import NFdl.Lib.Table
import Mathlib.Data.Finset.Lattice.Lemmas
import Mathlib.Logic.Relation

/-!
# The static topology

The topology of an offline run is declared edge by edge. Whether a scope is upstream of
another one is decided by a depth-first search along the upstream edges with a bound on the
hops. The search takes one edge more than the bound, and it enters no scope twice, also when
it comes back there by a shorter path; its answers are exact where neither of these shows.
-/

namespace Adgl

open DepthSearch (IsPath endOf explore taken)

inductive TopologyDiagnostic where
  | upstreamCycle (start : ScopeId)
  | hopBoundExceeded (start : ScopeId)
deriving DecidableEq, Repr

/-- A set in the order of its elements. -/
abbrev UpstreamSet := SortedMap ScopeId Unit

/-- A declared topology: the known scopes, the pairs of the five symmetric relations and the
direct upstream neighbours of a scope. -/
structure StaticTopology where
  known : Finset ScopeId
  relations : Fin 5 → Finset (ScopeId × ScopeId)
  upstream : Table ScopeId UpstreamSet
  maxHops : ℕ

/-- What a search has found. -/
structure DfsOutcome where
  cycle : Bool
  hopOverrun : Bool
  found : Bool

/-- The state of a search. -/
structure DfsState where
  onPath : Finset ScopeId
  done : Finset ScopeId
  outcome : DfsOutcome

def norm (a b : ScopeId) : ScopeId × ScopeId := if a ≤ b then (a, b) else (b, a)

namespace StaticTopology

def new (maxHops : ℕ) : StaticTopology := ⟨∅, fun _ => ∅, ∅, max maxHops 1⟩

def declare (t : StaticTopology) (scope : ScopeId) : StaticTopology :=
  { t with known := insert scope t.known }

def relate (t : StaticTopology) (rel : Fin 5) (a b : ScopeId) : StaticTopology :=
  { t with
    known := insert b (insert a t.known)
    relations := Function.update t.relations rel (insert (norm a b) (t.relations rel)) }

/-- `up` is directly upstream of `down`. -/
def upstreamEdge (t : StaticTopology) (up down : ScopeId) : StaticTopology :=
  { t with
    known := insert down (insert up t.known)
    upstream := Table.update t.upstream down .empty (·.insert up ()) }

def query (t : StaticTopology) (rel : Fin 5) (a b : ScopeId) : T3 :=
  if a = b then .true
  else if norm a b ∈ t.relations rel then .true
  else if a ∈ t.known ∧ b ∈ t.known then .false
  else .unknown

/-- The direct upstream neighbours of a scope, in the order of the set. -/
def nexts (t : StaticTopology) (node : ScopeId) : List ScopeId :=
  ((t.upstream.lookup node).getD .empty).entries.map Prod.fst

/-- Go on with a scope, unless there are no hops left. -/
def dfsInto (descend : Option (ScopeId → DfsState → DfsState)) (next : ScopeId) (s : DfsState) :
    DfsState :=
  match descend with
  | none => { s with outcome := { s.outcome with hopOverrun := true } }
  | some descend => descend next s

/-- Mark the target as found. -/
def dfsMark (target next : ScopeId) (s : DfsState) : DfsState :=
  if next = target then { s with outcome := { s.outcome with found := true } } else s

/-- One round of the loop over the edges of a scope. -/
def dfsEdge (target : ScopeId) (descend : Option (ScopeId → DfsState → DfsState)) (s : DfsState)
    (next : ScopeId) : DfsState :=
  let s := dfsMark target next s
  if next ∈ s.onPath then { s with outcome := { s.outcome with cycle := true } }
  else if next ∈ s.done then s
  else dfsInto descend next s

/-- Search for `target` from a scope with some hops left. -/
def dfs (t : StaticTopology) (target : ScopeId) : ℕ → ScopeId → DfsState → DfsState
  | 0, node, s =>
      let s := (t.nexts node).foldl (dfsEdge target none) { s with onPath := insert node s.onPath }
      { s with onPath := s.onPath.erase node, done := insert node s.done }
  | hopsLeft + 1, node, s =>
      let s := (t.nexts node).foldl (dfsEdge target (some (t.dfs target hopsLeft)))
        { s with onPath := insert node s.onPath }
      { s with onPath := s.onPath.erase node, done := insert node s.done }

/-- Whether `up` is upstream of `down`, with what the query records. -/
def upstreamOf (t : StaticTopology) (up down : ScopeId) : T3 × Option TopologyDiagnostic :=
  if up = down then (.false, none)
  else if up ∉ t.known ∨ down ∉ t.known then (.unknown, none)
  else
    let outcome := (t.dfs up t.maxHops down ⟨∅, ∅, ⟨false, false, false⟩⟩).outcome
    if outcome.cycle then (.false, some (.upstreamCycle down))
    else if outcome.hopOverrun && !outcome.found then (.false, some (.hopBoundExceeded down))
    else (.ofBool outcome.found, none)

/-- The topology as the engine asks it. -/
def provider (t : StaticTopology) : TopologyProvider where
  sameSession := t.query 0
  sameClient := t.query 1
  samePort := t.query 2
  sameAp := t.query 3
  sameVlan := t.query 4
  upstreamOf up down := (t.upstreamOf up down).1

/-! ### The search in an acyclic relation -/

/-- The upstream relation, from a scope to its direct upstream neighbours. -/
def Edge (t : StaticTopology) (v w : ScopeId) : Prop := w ∈ t.nexts v

def Acyclic (t : StaticTopology) : Prop := ∀ v, ¬ Relation.TransGen t.Edge v v

theorem nexts_nodup (t : StaticTopology) (node : ScopeId) : (t.nexts node).Nodup :=
  List.pairwise_map.mpr (((t.upstream.lookup node).getD .empty).sorted.imp ne_of_lt)

/-- A search that is finished has found the target below a scope that it entered. -/
structure Searched (t : StaticTopology) (target : ScopeId) (s r : DfsState) : Prop where
  onPath : r.onPath = s.onPath
  cycle : r.outcome.cycle = s.outcome.cycle
  old : s.done ⊆ r.done
  found : r.outcome.found = true ↔
    s.outcome.found = true ∨ ∃ w ∈ r.done, w ∉ s.done ∧ target ∈ t.nexts w

/-- The same for a part of the loop over the edges of one scope. -/
structure Looped (t : StaticTopology) (target : ScopeId) (ws : List ScopeId) (s r : DfsState) :
    Prop where
  onPath : r.onPath = s.onPath
  cycle : r.outcome.cycle = s.outcome.cycle
  old : s.done ⊆ r.done
  found : r.outcome.found = true ↔ s.outcome.found = true ∨ target ∈ ws ∨
    ∃ w ∈ r.done, w ∉ s.done ∧ target ∈ t.nexts w

section Search

variable {t : StaticTopology} {target node : ScopeId} {s r : DfsState}

theorem Looped.cons {ws : List ScopeId} {next : ScopeId} {s' : DfsState}
    (hfirst : Looped t target [next] s s') (hrest : Looped t target ws s' r) :
    Looped t target (next :: ws) s r := by
  refine ⟨hrest.onPath.trans hfirst.onPath, hrest.cycle.trans hfirst.cycle,
    hfirst.old.trans hrest.old, ?_⟩
  rw [hrest.found, hfirst.found, List.mem_singleton, List.mem_cons]
  constructor
  · rintro ((h | h | ⟨w, hw, hnew, hedge⟩) | h | ⟨w, hw, hnew, hedge⟩)
    · exact .inl h
    · exact .inr (.inl (.inl h))
    · exact .inr (.inr ⟨w, hrest.old hw, hnew, hedge⟩)
    · exact .inr (.inl (.inr h))
    · exact .inr (.inr ⟨w, hw, fun hs => hnew (hfirst.old hs), hedge⟩)
  · rintro (h | (h | h) | ⟨w, hw, hnew, hedge⟩)
    · exact .inl (.inl h)
    · exact .inl (.inr (.inl h))
    · exact .inr (.inl h)
    · by_cases hs : w ∈ s'.done
      · exact .inl (.inr (.inr ⟨w, hs, hnew, hedge⟩))
      · exact .inr (.inr ⟨w, hw, hs, hedge⟩)

@[simp] theorem dfsMark_onPath (next : ScopeId) : (dfsMark target next s).onPath = s.onPath := by
  unfold dfsMark
  split <;> rfl

@[simp] theorem dfsMark_done (next : ScopeId) : (dfsMark target next s).done = s.done := by
  unfold dfsMark
  split <;> rfl

@[simp] theorem dfsMark_cycle (next : ScopeId) :
    (dfsMark target next s).outcome.cycle = s.outcome.cycle := by
  unfold dfsMark
  split <;> rfl

theorem dfsMark_found (next : ScopeId) :
    (dfsMark target next s).outcome.found = true ↔ s.outcome.found = true ∨ target = next := by
  unfold dfsMark
  split
  · next heq => exact iff_of_true rfl (.inr heq.symm)
  · next hne => exact ⟨.inl, fun h => h.resolve_right fun heq => hne heq.symm⟩

/-- What going on with a scope does to the scopes seen. -/
def Enters (t : StaticTopology) (target : ScopeId)
    (descend : Option (ScopeId → DfsState → DfsState))
    (enter : ScopeId → Finset ScopeId → Finset ScopeId) (path : Finset ScopeId) (next : ScopeId) :
    Prop :=
  ∀ s : DfsState, s.onPath = path → next ∉ s.done →
    Searched t target s (dfsInto descend next s) ∧
      (dfsInto descend next s).done ∪ path = enter next (s.done ∪ path)

section Loop

variable {descend : Option (ScopeId → DfsState → DfsState)}
  {enter : ScopeId → Finset ScopeId → Finset ScopeId} {path : Finset ScopeId}

/-- One round of the loop, for an edge that does not lead back to the path. -/
theorem dfsEdge_looped {next : ScopeId} (henters : Enters t target descend enter path next)
    (hs : s.onPath = path) (hpath : next ∉ path) :
    Looped t target [next] s (dfsEdge target descend s next) ∧
      (dfsEdge target descend s next).done ∪ path =
        if next ∈ s.done ∪ path then s.done ∪ path else enter next (s.done ∪ path) := by
  have hmark : (dfsMark target next s).outcome.found = true ↔
      s.outcome.found = true ∨ target = next := dfsMark_found next
  unfold dfsEdge
  dsimp only
  rw [dfsMark_onPath, dfsMark_done, hs, if_neg hpath]
  by_cases hdone : next ∈ s.done
  · rw [if_pos hdone, if_pos (Finset.mem_union_left _ hdone), dfsMark_done]
    refine ⟨⟨dfsMark_onPath next, dfsMark_cycle next, by rw [dfsMark_done], ?_⟩, rfl⟩
    rw [hmark, dfsMark_done, List.mem_singleton]
    exact ⟨fun h => h.imp_right .inl, fun h => h.imp_right fun h =>
      h.resolve_right fun ⟨w, hw, hnew, _⟩ => hnew hw⟩
  · have hnew : next ∉ s.done ∪ path := fun h => (Finset.mem_union.mp h).elim hdone hpath
    obtain ⟨hsearched, hseen⟩ := henters (dfsMark target next s)
      ((dfsMark_onPath next).trans hs) (by rwa [dfsMark_done])
    rw [dfsMark_done] at hseen
    rw [if_neg hdone, if_neg hnew]
    refine ⟨⟨hsearched.onPath.trans (dfsMark_onPath next),
      hsearched.cycle.trans (dfsMark_cycle next), ?_, ?_⟩, hseen⟩
    · have hold := hsearched.old
      rwa [dfsMark_done] at hold
    · rw [hsearched.found, hmark, dfsMark_done, List.mem_singleton, or_assoc]

/-- The loop over some edges that do not lead back to the path. -/
theorem foldl_looped (ws : List ScopeId)
    (henters : ∀ next ∈ ws, Enters t target descend enter path next)
    (hpath : ∀ next ∈ ws, next ∉ path) (hs : s.onPath = path) :
    Looped t target ws s (ws.foldl (dfsEdge target descend) s) ∧
      (ws.foldl (dfsEdge target descend) s).done ∪ path =
        ws.foldl (fun seen w => if w ∈ seen then seen else enter w seen) (s.done ∪ path) := by
  induction ws generalizing s with
  | nil =>
      refine ⟨⟨rfl, rfl, Finset.Subset.refl _, ?_⟩, rfl⟩
      refine ⟨.inl, fun h => h.elim id fun h => ?_⟩
      obtain h | ⟨w, hw, hnew, -⟩ := h
      · cases h
      · exact absurd hw hnew
  | cons next ws ih =>
      obtain ⟨hfirst, hseen⟩ := dfsEdge_looped (henters next (List.mem_cons_self ..)) hs
        (hpath next (List.mem_cons_self ..))
      obtain ⟨hrest, hseen'⟩ := ih (fun w hw => henters w (List.mem_cons_of_mem _ hw))
        (fun w hw => hpath w (List.mem_cons_of_mem _ hw)) (hfirst.onPath.trans hs)
      refine ⟨hfirst.cons hrest, ?_⟩
      rw [List.foldl_cons, List.foldl_cons, hseen', hseen]

end Loop

/-- A search that has run through all edges of a scope leaves it. -/
theorem searched_of_looped {hopsSeen : Finset ScopeId} (hpath : node ∉ s.onPath)
    (hnew : node ∉ s.done)
    (hloop : Looped t target (t.nexts node) { s with onPath := insert node s.onPath } r)
    (hseen : r.done ∪ insert node s.onPath = hopsSeen) :
    Searched t target s { r with onPath := r.onPath.erase node, done := insert node r.done } ∧
      insert node r.done ∪ s.onPath = hopsSeen := by
  refine ⟨⟨?_, hloop.cycle, hloop.old.trans (Finset.subset_insert _ _), ?_⟩, ?_⟩
  · dsimp only
    rw [hloop.onPath, Finset.erase_insert hpath]
  · dsimp only
    rw [hloop.found]
    constructor
    · rintro (h | h | ⟨w, hw, hold, hedge⟩)
      · exact .inl h
      · exact .inr ⟨node, Finset.mem_insert_self _ _, hnew, h⟩
      · exact .inr ⟨w, Finset.mem_insert_of_mem hw, hold, hedge⟩
    · rintro (h | ⟨w, hw, hold, hedge⟩)
      · exact .inl h
      · obtain rfl | hw := Finset.mem_insert.mp hw
        · exact .inr (.inl hedge)
        · exact .inr (.inr ⟨w, hw, hold, hedge⟩)
  · rw [← hseen, Finset.insert_union, Finset.union_insert]

theorem not_mem_path (hacyclic : t.Acyclic)
    (hpath : ∀ a ∈ s.onPath, Relation.TransGen t.Edge a node) : node ∉ s.onPath :=
  fun h => hacyclic node (hpath node h)

theorem path_reaches (hpath : ∀ a ∈ s.onPath, Relation.TransGen t.Edge a node) {next : ScopeId}
    (hnext : next ∈ t.nexts node) :
    ∀ a ∈ insert node s.onPath, Relation.TransGen t.Edge a next := by
  intro a ha
  obtain rfl | ha := Finset.mem_insert.mp ha
  · exact .single hnext
  · exact (hpath a ha).tail hnext

theorem foldl_seen (ws : List ScopeId) (seen : Finset ScopeId) :
    ws.foldl (fun seen w => if w ∈ seen then seen else seen) seen = seen := by
  induction ws with
  | nil => rfl
  | cons w ws ih => rw [List.foldl_cons, ite_self, ih]

/-- In an acyclic relation the search never comes back to its path, and it enters what the
exploration sees. -/
theorem dfs_searched (hacyclic : t.Acyclic) (hopsLeft : ℕ) (node : ScopeId) (s : DfsState)
    (hpath : ∀ a ∈ s.onPath, Relation.TransGen t.Edge a node) (hnew : node ∉ s.done) :
    Searched t target s (t.dfs target hopsLeft node s) ∧
      (t.dfs target hopsLeft node s).done ∪ s.onPath =
        explore t.nexts hopsLeft node (s.done ∪ s.onPath) := by
  have hfresh : ∀ next ∈ t.nexts node, next ∉ insert node s.onPath := fun next hnext hmem =>
    hacyclic next (path_reaches hpath hnext next hmem)
  induction hopsLeft generalizing node s with
  | zero =>
      have henters : ∀ next ∈ t.nexts node,
          Enters t target none (fun _ seen => seen) (insert node s.onPath) next := by
        intro next _ s' _ _
        exact ⟨⟨rfl, rfl, Finset.Subset.refl _,
          ⟨.inl, fun h => h.resolve_right fun ⟨w, hw, hold, _⟩ => hold hw⟩⟩, rfl⟩
      obtain ⟨hloop, hseen⟩ := foldl_looped (s := { s with onPath := insert node s.onPath })
        (t.nexts node) henters hfresh rfl
      rw [foldl_seen] at hseen
      refine searched_of_looped (not_mem_path hacyclic hpath) hnew hloop (hseen.trans ?_)
      exact Finset.union_insert _ _ _
  | succ hopsLeft ih =>
      have henters : ∀ next ∈ t.nexts node, Enters t target (some (t.dfs target hopsLeft))
          (explore t.nexts hopsLeft) (insert node s.onPath) next := by
        intro next hnext s' hs' hold
        have hpath' : ∀ a ∈ s'.onPath, Relation.TransGen t.Edge a next := by
          rw [hs']
          exact path_reaches hpath hnext
        have hsearched := ih next s' hpath' hold fun next' hnext' hmem =>
          hacyclic next' (path_reaches hpath' hnext' next' hmem)
        rwa [hs'] at hsearched
      obtain ⟨hloop, hseen⟩ := foldl_looped (s := { s with onPath := insert node s.onPath })
        (t.nexts node) henters hfresh rfl
      refine searched_of_looped (not_mem_path hacyclic hpath) hnew hloop (hseen.trans ?_)
      dsimp only
      rw [Finset.union_insert]
      rfl

end Search

/-! ### Answers -/

/-- There is a path of at most some number of edges from a scope upstream to another one. -/
def Within (t : StaticTopology) (hops : ℕ) (down up : ScopeId) : Prop :=
  ∃ p : List ScopeId, p.length ≤ hops ∧ IsPath t.nexts down p ∧ endOf down p = up

/-- The search enters a scope directly below another one. -/
def EntersBelow (t : StaticTopology) (down up : ScopeId) : Prop :=
  ∃ p ∈ taken t.nexts t.maxHops down, t.Edge (endOf down p) up

/-- Between known scopes the answer is whether the search enters a scope directly below. -/
theorem upstreamOf_true_iff {t : StaticTopology} (hacyclic : t.Acyclic) {up down : ScopeId}
    (hne : up ≠ down) (hup : up ∈ t.known) (hdown : down ∈ t.known) :
    (t.upstreamOf up down).1 = .true ↔ t.EntersBelow down up := by
  obtain ⟨hsearched, hseen⟩ := @dfs_searched t up hacyclic t.maxHops down
    ⟨∅, ∅, ⟨false, false, false⟩⟩ nofun (Finset.notMem_empty _)
  have hcycle := hsearched.cycle
  have hfound := hsearched.found
  rw [Finset.union_empty, Finset.union_empty] at hseen
  rw [hseen] at hfound
  have hentered : (t.dfs up t.maxHops down ⟨∅, ∅, ⟨false, false, false⟩⟩).outcome.found = true ↔
      t.EntersBelow down up := by
    rw [hfound]
    constructor
    · rintro (h | ⟨w, hw, -, hedge⟩)
      · cases h
      · obtain ⟨p, hp, rfl⟩ := (DepthSearch.mem_explore_iff t.nexts_nodup _).mp hw
        exact ⟨p, hp, hedge⟩
    · rintro ⟨p, hp, hedge⟩
      exact .inr ⟨_, (DepthSearch.mem_explore_iff t.nexts_nodup _).mpr ⟨p, hp, rfl⟩,
        Finset.notMem_empty _, hedge⟩
  rw [← hentered]
  unfold upstreamOf
  rw [if_neg hne, if_neg (by tauto)]
  dsimp only
  rw [hcycle, if_neg nofun]
  cases (t.dfs up t.maxHops down ⟨∅, ∅, ⟨false, false, false⟩⟩).outcome.found with
  | true =>
      rw [Bool.not_true, Bool.and_false, if_neg nofun]
      exact iff_of_true rfl rfl
  | false =>
      refine iff_of_false ?_ nofun
      split <;> nofun

/-- The answer is exact if a scope within the hops has a scope below it that the search
enters, and if no path of just as many edges as there are hops was taken to a scope directly
below one that is further away. -/
theorem upstreamOf_exact_iff (t : StaticTopology) (hacyclic : t.Acyclic) {up down : ScopeId}
    (hne : up ≠ down) (hup : up ∈ t.known) (hdown : down ∈ t.known) :
    ((t.upstreamOf up down).1 = .true ↔ t.Within t.maxHops down up) ↔
      t.Within t.maxHops down up ∧ t.EntersBelow down up ∨
        ¬ t.Within t.maxHops down up ∧ ∀ p ∈ taken t.nexts t.maxHops down,
          p.length = t.maxHops → ¬ t.Edge (endOf down p) up := by
  rw [upstreamOf_true_iff hacyclic hne hup hdown]
  by_cases hwithin : t.Within t.maxHops down up
  · rw [iff_true_right hwithin, and_iff_right hwithin]
    exact ⟨.inl, fun h => h.resolve_right fun h => h.1 hwithin⟩
  · rw [iff_false_right hwithin, and_iff_right hwithin]
    refine ⟨fun h => .inr fun p hp _ hedge => h ⟨p, hp, hedge⟩, fun h => ?_⟩
    rintro ⟨p, hp, hedge⟩
    obtain ⟨hpath, hlength⟩ := DepthSearch.mem_taken hp
    obtain hless | hfull := Nat.lt_or_eq_of_le hlength
    · refine hwithin ⟨p ++ [up], ?_, ?_, DepthSearch.endOf_append_singleton⟩
      · rw [List.length_append]
        exact hless
      · exact DepthSearch.isPath_append.mpr ⟨hpath, hedge, trivial⟩
    · exact (h.resolve_left fun h => hwithin h.1) p hp hfull hedge

theorem acyclic_of_rank {t : StaticTopology} (rank : ScopeId → ℕ)
    (h : ∀ e ∈ t.upstream.entries, ∀ w ∈ e.2.entries, rank e.1 < rank w.1) : t.Acyclic := by
  have hedge : ∀ v w, t.Edge v w → rank v < rank w := by
    intro v w hvw
    obtain ⟨e, he, rfl⟩ := List.mem_map.mp hvw
    cases hlookup : t.upstream.lookup v with
    | none =>
        rw [hlookup] at he
        cases he
    | some ups =>
        rw [hlookup] at he
        exact h ⟨v, ups⟩ (AList.mem_lookup_iff.mp hlookup) e he
  have hreach : ∀ v w, Relation.TransGen t.Edge v w → rank v < rank w := by
    intro v w hvw
    induction hvw with
    | single hvw => exact hedge _ _ hvw
    | tail _ hvw ih => exact ih.trans (hedge _ _ hvw)
  exact fun v hv => Nat.lt_irrefl _ (hreach v v hv)

/-- A switch of a network. -/
def switch (n : UInt64) : ScopeId := ⟨.accessPoint, n⟩

/-- A chain of three switches and a bound of one hop. -/
def chain : StaticTopology := ((new 1).upstreamEdge (switch 1) (switch 0)).upstreamEdge (switch 2)
  (switch 1)

theorem upstreamOf_exact_iff_chain :
    ((chain.upstreamOf (switch 1) (switch 0)).1 = .true ↔
        chain.Within chain.maxHops (switch 0) (switch 1)) ↔
      chain.Within chain.maxHops (switch 0) (switch 1) ∧
          chain.EntersBelow (switch 0) (switch 1) ∨
        ¬ chain.Within chain.maxHops (switch 0) (switch 1) ∧
          ∀ p ∈ taken chain.nexts chain.maxHops (switch 0),
            p.length = chain.maxHops → ¬ chain.Edge (endOf (switch 0) p) (switch 1) :=
  upstreamOf_exact_iff chain (acyclic_of_rank (·.key.toNat) (by decide)) (by decide) (by decide)
    (by decide)

/-- Two ways to the third switch, the longer one first. -/
def detour : StaticTopology :=
  [(1, 0), (2, 1), (3, 2), (3, 0), (4, 3), (5, 4)].foldl
    (fun t edge => t.upstreamEdge (switch edge.1) (switch edge.2)) (new 3)

-- The fifth switch is three hops away, but the search enters the third one without hops left.
example : detour.upstreamOf (switch 5) (switch 0) =
    (.false, some (.hopBoundExceeded (switch 0))) := by decide +kernel

/-- A switch two hops away is found within one hop. -/
theorem found_beyond_hops : ¬ ∀ t : StaticTopology, t.Acyclic → ∀ up down : ScopeId, up ≠ down →
    up ∈ t.known → down ∈ t.known →
      ((t.upstreamOf up down).1 = .true ↔ t.Within t.maxHops down up) := by
  intro h
  have hfound := (h chain (acyclic_of_rank (·.key.toNat) (by decide)) (switch 2) (switch 0)
    (by decide) (by decide) (by decide)).mp (by decide +kernel)
  obtain ⟨p, hlength, hpath, hend⟩ := hfound
  cases p with
  | nil => exact absurd hend (by decide)
  | cons w p =>
      have hlength : p.length ≤ 0 := Nat.le_of_succ_le_succ hlength
      obtain rfl : p = [] := List.length_eq_zero_iff.mp (Nat.le_zero.mp hlength)
      have hw : w ∈ [switch 1] := hpath.1
      obtain rfl := List.mem_singleton.mp hw
      exact absurd hend (by decide)

end StaticTopology

end Adgl
