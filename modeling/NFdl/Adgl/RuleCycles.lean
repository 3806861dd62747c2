import NFdl.Adgl.Verify
import NFdl.Lib.Postorder

/-!
# Cycles of rules

The verifier colours the rules while it follows what they wake. Black rules, in the order
in which they were left, form a post-order, so none of them is on a cycle, and a grey rule
leads to the rule that the search is at, so an edge to it closes a cycle. A rule that
turns grey is never white again, which is why the search ends.
-/

namespace Adgl

open Ast (RuleDecl Ruleset Stmt DecisionRule DecisionAnchor IfElseBlock)
open Relation (TransGen ReflTransGen)

/-! ### The search as a run -/

/-- Adjacency lists whose targets are nodes. -/
structure EdgeLists where
  edges : List (List Nat)
  inRange : ∀ nexts ∈ edges, ∀ next ∈ nexts, next < edges.length

/-- The list of a node contains another node. -/
def Edge (edges : List (List Nat)) (node next : Nat) : Prop := next ∈ edges[node]?.getD []

/-- How the loop over the successors of a node ends, without a bound on the depth: with
what it found and the colours that it leaves. -/
inductive Searches (edges : List (List Nat)) : List Nat → List Mark → Bool × List Mark → Prop
  | done {state : List Mark} : Searches edges [] state (false, state)
  | closes {next : Nat} {nexts : List Nat} {state : List Mark}
      (hgrey : state[next]? = some .grey) : Searches edges (next :: nexts) state (true, state)
  | skips {next : Nat} {nexts : List Nat} {state : List Mark} {result : Bool × List Mark}
      (hblack : state[next]? = some .black) (hrest : Searches edges nexts state result) :
      Searches edges (next :: nexts) state result
  | finds {next : Nat} {nexts : List Nat} {state state' : List Mark}
      (hwhite : state[next]? = some .white)
      (hbelow : Searches edges (edges[next]?.getD []) (state.set next .grey) (true, state')) :
      Searches edges (next :: nexts) state (true, state')
  | leaves {next : Nat} {nexts : List Nat} {state state' : List Mark}
      {result : Bool × List Mark} (hwhite : state[next]? = some .white)
      (hbelow : Searches edges (edges[next]?.getD []) (state.set next .grey) (false, state'))
      (hrest : Searches edges nexts (state'.set next .black) result) :
      Searches edges (next :: nexts) state result

/-- How the loop over the start nodes ends. -/
inductive Starts (edges : List (List Nat)) : List Nat → List Mark → Bool → Prop
  | done {state : List Mark} : Starts edges [] state false
  | skips {node : Nat} {nodes : List Nat} {state : List Mark} {found : Bool}
      (hseen : state[node]? ≠ some .white) (hrest : Starts edges nodes state found) :
      Starts edges (node :: nodes) state found
  | finds {node : Nat} {nodes : List Nat} {state state' : List Mark}
      (hwhite : state[node]? = some .white)
      (hbelow : Searches edges (edges[node]?.getD []) (state.set node .grey) (true, state')) :
      Starts edges (node :: nodes) state true
  | leaves {node : Nat} {nodes : List Nat} {state state' : List Mark} {found : Bool}
      (hwhite : state[node]? = some .white)
      (hbelow : Searches edges (edges[node]?.getD []) (state.set node .grey) (false, state'))
      (hrest : Starts edges nodes (state'.set node .black) found) :
      Starts edges (node :: nodes) state found

section Search

variable {edges : List (List Nat)} {nexts : List Nat} {state state' : List Mark}
  {node next : Nat} {result : Bool × List Mark}

/-! ### Colours only darken -/

theorem getElem?_lt {mark : Mark} (h : state[node]? = some mark) : node < state.length :=
  (List.getElem?_eq_some_iff.mp h).1

/-- Colouring a white node leaves fewer white nodes. -/
theorem count_white_set (mark : Mark) (hmark : mark ≠ .white) (h : state[node]? = some .white) :
    (state.set node mark).count .white < state.count .white := by
  obtain ⟨hlt, hwhite⟩ := List.getElem?_eq_some_iff.mp h
  have hpos : 0 < state.count .white := List.count_pos_iff.mpr (List.mem_of_getElem? h)
  rw [List.count_set hlt, hwhite, beq_self_eq_true, if_pos rfl, if_neg (by simpa using hmark)]
  exact Nat.sub_lt hpos Nat.one_pos

theorem count_white_set_le (mark : Mark) (hmark : mark ≠ .white) :
    (state.set node mark).count .white ≤ state.count .white := by
  by_cases hlt : node < state.length
  · rw [List.count_set hlt, if_neg (c := (mark == .white) = true) (by simpa using hmark)]
    exact Nat.sub_le _ _
  · rw [List.set_eq_of_length_le (Nat.le_of_not_lt hlt)]

theorem Searches.length_eq (h : Searches edges nexts state result) :
    result.2.length = state.length := by
  induction h with
  | done => rfl
  | closes _ => rfl
  | skips _ _ ih => exact ih
  | finds _ _ ih => rw [ih, List.length_set]
  | leaves _ _ _ ihbelow ihrest => rw [ihrest, List.length_set, ihbelow, List.length_set]

theorem Searches.count_le (h : Searches edges nexts state result) :
    result.2.count .white ≤ state.count .white := by
  induction h with
  | done => exact le_rfl
  | closes _ => exact le_rfl
  | skips _ _ ih => exact ih
  | finds _ _ ih => exact ih.trans (count_white_set_le _ (by decide))
  | leaves _ _ _ ihbelow ihrest =>
      exact ihrest.trans ((count_white_set_le _ (by decide)).trans
        (ihbelow.trans (count_white_set_le _ (by decide))))

/-- A search that finds nothing leaves the rules grey that it met grey, and what was black
stays black. -/
theorem Searches.kept (h : Searches edges nexts state result) (hfalse : result.1 = false) :
    (∀ x : Nat, result.2[x]? = some Mark.grey ↔ state[x]? = some Mark.grey) ∧
      ∀ x : Nat, state[x]? = some Mark.black → result.2[x]? = some Mark.black := by
  induction h with
  | done => exact ⟨fun _ => Iff.rfl, fun _ hx => hx⟩
  | closes _ => cases hfalse
  | skips _ _ ih => exact ih hfalse
  | finds _ _ _ => cases hfalse
  | @leaves next nexts state state' result hwhite hbelow _ ihbelow ihrest =>
      obtain ⟨hgrey, hblack⟩ := ihbelow rfl
      obtain ⟨hgrey', hblack'⟩ := ihrest hfalse
      have hlt : next < state'.length := by
        rw [hbelow.length_eq, List.length_set]
        exact getElem?_lt hwhite
      constructor
      · intro x
        rw [hgrey']
        by_cases hx : next = x
        · subst hx
          rw [List.getElem?_set_self hlt, hwhite]
          decide
        · rw [List.getElem?_set_ne hx, hgrey, List.getElem?_set_ne hx]
      · intro x hx
        refine hblack' x ?_
        by_cases hne : next = x
        · subst hne
          exact List.getElem?_set_self hlt
        · rw [List.getElem?_set_ne hne]
          refine hblack x ?_
          rwa [List.getElem?_set_ne hne]

/-! ### The search ends -/

theorem EdgeLists.successors_lt (g : EdgeLists) (hnode : node < g.edges.length) :
    ∀ next ∈ g.edges[node]?.getD [], next < g.edges.length := by
  rw [List.getElem?_eq_getElem hnode]
  exact g.inRange _ (List.getElem_mem hnode)

/-- In a graph the loop over any successors ends, from any colours. -/
theorem Searches.total (g : EdgeLists) (hstate : state.length = g.edges.length)
    (hnexts : ∀ next ∈ nexts, next < g.edges.length) :
    ∃ result, Searches g.edges nexts state result := by
  induction hwhites : state.count .white using Nat.strongRecOn generalizing nexts state with
  | _ whites ih =>
      subst hwhites
      have below : ∀ next, state[next]? = some .white →
          ∃ result, Searches g.edges (g.edges[next]?.getD []) (state.set next .grey) result := by
        intro next hwhite
        refine ih _ (count_white_set _ (by decide) hwhite) ?_ ?_ rfl
        · rw [List.length_set, hstate]
        · exact g.successors_lt (hstate ▸ getElem?_lt hwhite)
      induction nexts with
      | nil => exact ⟨_, .done⟩
      | cons next nexts ihnexts =>
          have hlt : next < state.length := hstate ▸ hnexts next (List.mem_cons_self ..)
          have hrest : ∀ y ∈ nexts, y < g.edges.length :=
            fun y hy => hnexts y (List.mem_cons_of_mem _ hy)
          cases hmark : state[next]? with
          | none => exact absurd hmark (by simp [hlt])
          | some mark =>
              cases mark with
              | grey => exact ⟨_, .closes hmark⟩
              | black =>
                  obtain ⟨result, hresult⟩ := ihnexts hrest
                  exact ⟨result, .skips hmark hresult⟩
              | white =>
                  obtain ⟨⟨found, state'⟩, hbelow⟩ := below next hmark
                  cases found with
                  | true => exact ⟨_, .finds hmark hbelow⟩
                  | false =>
                      have hcount : (state'.set next .black).count .white < state.count .white :=
                        (count_white_set_le _ (by decide)).trans_lt
                          (hbelow.count_le.trans_lt (count_white_set _ (by decide) hmark))
                      obtain ⟨result, hresult⟩ := ih _ hcount
                        (by rw [List.length_set, hbelow.length_eq, List.length_set, hstate])
                        hrest rfl
                      exact ⟨result, .leaves hmark hbelow hresult⟩

theorem dfsNexts_cons (visit : Nat → List Mark → Bool × List Mark) :
    dfsNexts visit (next :: nexts) state = match state[next]?.getD .black with
      | .grey => (true, state)
      | .black => dfsNexts visit nexts state
      | .white =>
          match visit next state with
          | (true, state) => (true, state)
          | (false, state) => dfsNexts visit nexts state := rfl

/-- The bounded search computes the run once its bound covers the white nodes. -/
theorem Searches.eq_dfsNexts (h : Searches edges nexts state result) {fuel : Nat}
    (hfuel : state.count .white ≤ fuel) : dfsNexts (dfsCycle edges fuel) nexts state = result := by
  induction h generalizing fuel with
  | done => rfl
  | closes hgrey => rw [dfsNexts_cons, hgrey]; rfl
  | skips hblack _ ih =>
      rw [dfsNexts_cons, hblack]
      exact ih hfuel
  | finds hwhite _ ih =>
      have hlt := count_white_set .grey (by decide) hwhite
      obtain ⟨fuel, rfl⟩ : ∃ n, fuel = n + 1 := ⟨fuel - 1, by omega⟩
      rw [dfsNexts_cons, hwhite, Option.getD_some]
      simp only [dfsCycle, ih (Nat.le_of_lt_succ (hlt.trans_le hfuel))]
  | leaves hwhite hbelow _ ihbelow ihrest =>
      have hlt := count_white_set .grey (by decide) hwhite
      obtain ⟨fuel, rfl⟩ : ∃ n, fuel = n + 1 := ⟨fuel - 1, by omega⟩
      have hcount := hbelow.count_le.trans_lt hlt
      rw [dfsNexts_cons, hwhite, Option.getD_some]
      simp only [dfsCycle, ihbelow (Nat.le_of_lt_succ (hlt.trans_le hfuel))]
      exact ihrest ((count_white_set_le _ (by decide)).trans (hcount.le.trans hfuel))

/-- Searching from a white node leaves it black, unless a cycle was found. -/
theorem Searches.eq_dfsCycle (hwhite : state[node]? = some .white)
    (h : Searches edges (edges[node]?.getD []) (state.set node .grey) result)
    (hstate : state.length ≤ edges.length) : dfsCycle edges edges.length node state =
      (result.1, if result.1 then result.2 else result.2.set node .black) := by
  have hlt := count_white_set .grey (by decide) hwhite
  have hle : state.count .white ≤ edges.length := List.count_le_length.trans hstate
  obtain ⟨fuel, hfuel⟩ : ∃ n, edges.length = n + 1 := ⟨edges.length - 1, by omega⟩
  have hnexts := h.eq_dfsNexts (show (state.set node .grey).count .white ≤ fuel by omega)
  rw [hfuel]
  unfold dfsCycle
  rw [hnexts]
  obtain ⟨found, state'⟩ := result
  cases found <;> rfl

/-! ### What is found is a cycle -/

/-- What has another colour after a node was coloured is another node. -/
theorem getElem?_set_of_ne {mark mark' : Mark} {x : Nat} (hne : mark ≠ mark')
    (hx : (state.set node mark)[x]? = some mark') : node ≠ x ∧ state[x]? = some mark' := by
  by_cases h : node = x
  · subst h
    rw [List.getElem?_set_self (by simpa using getElem?_lt hx)] at hx
    exact absurd (Option.some.inj hx) hne
  · rw [List.getElem?_set_ne h] at hx
    exact ⟨h, hx⟩

/-- Along an edge every grey node leads to the node that is entered. -/
theorem grey_set (hgrey : ∀ x : Nat, state[x]? = some Mark.grey → ReflTransGen (Edge edges) x node)
    (hedge : Edge edges node next) (x : Nat) (hx : (state.set next .grey)[x]? = some Mark.grey) :
    ReflTransGen (Edge edges) x next := by
  by_cases h : next = x
  · subst h
    exact .refl
  · rw [List.getElem?_set_ne h] at hx
    exact (hgrey x hx).tail hedge

/-- A grey node that an edge leads to is on a cycle, as every grey node leads to the node
that the search is at. -/
theorem Searches.cycle (h : Searches edges nexts state result) (hfound : result.1 = true)
    (hgrey : ∀ x : Nat, state[x]? = some Mark.grey → ReflTransGen (Edge edges) x node)
    (hnexts : ∀ next ∈ nexts, Edge edges node next) : ∃ x, TransGen (Edge edges) x x := by
  induction h generalizing node with
  | done => cases hfound
  | closes hmark =>
      exact ⟨_, .tail' (hgrey _ hmark) (hnexts _ (List.mem_cons_self ..))⟩
  | skips _ _ ih => exact ih hfound hgrey fun next h => hnexts next (List.mem_cons_of_mem _ h)
  | @finds next nexts state state' _ _ ih =>
      exact ih rfl (grey_set hgrey (hnexts _ (List.mem_cons_self ..))) fun _ h => h
  | @leaves next nexts state state' result hwhite hbelow _ _ ihrest =>
      refine ihrest hfound (fun x hx => ?_) fun next h => hnexts next (List.mem_cons_of_mem _ h)
      obtain ⟨hne, hx⟩ := getElem?_set_of_ne (by decide) hx
      have hx := ((hbelow.kept rfl).1 x).mp hx
      rw [List.getElem?_set_ne hne] at hx
      exact hgrey x hx

/-! ### What is black is on no cycle -/

/-- The black nodes form a post-order. -/
def Finished (edges : List (List Nat)) (state : List Mark) : Prop :=
  ∃ order, Postorder (Edge edges) [] order ∧ ∀ x : Nat, x ∈ order ↔ state[x]? = some Mark.black

/-- A white node is not in the post-order, so it may turn grey. -/
theorem Finished.enter (h : Finished edges state) (hwhite : state[node]? = some .white) :
    Finished edges (state.set node .grey) := by
  obtain ⟨order, hpost, hblack⟩ := h
  refine ⟨order, hpost, fun x => ?_⟩
  rw [hblack]
  by_cases hx : node = x
  · subst hx
    rw [List.getElem?_set_self (getElem?_lt hwhite), hwhite]
    decide
  · rw [List.getElem?_set_ne hx]

/-- A node whose successors are all black is the next one in the post-order. -/
theorem Finished.leave (h : Finished edges state) (hlt : node < state.length)
    (hnexts : ∀ next ∈ edges[node]?.getD [], state[next]? = some Mark.black) :
    Finished edges (state.set node .black) := by
  obtain ⟨order, hpost, hblack⟩ := h
  refine ⟨order ++ [node], hpost.append (.singleton fun y hy => ?_), fun x => ?_⟩
  · exact (hblack y).mpr (hnexts y hy)
  · rw [List.mem_append, List.mem_singleton, hblack]
    by_cases hx : node = x
    · subst hx
      rw [List.getElem?_set_self hlt]
      exact ⟨fun _ => rfl, fun _ => .inr rfl⟩
    · rw [List.getElem?_set_ne hx]
      exact ⟨fun h => h.resolve_right fun h => hx h.symm, .inl⟩

/-- Where a search finds nothing, the successors are black and the black nodes still form a
post-order. -/
theorem Searches.finished (h : Searches edges nexts state result) (hfalse : result.1 = false)
    (hstate : Finished edges state) :
    Finished edges result.2 ∧ ∀ next ∈ nexts, result.2[next]? = some Mark.black := by
  induction h with
  | done => exact ⟨hstate, fun _ h => absurd h List.not_mem_nil⟩
  | closes _ => cases hfalse
  | skips hblack hrest ih =>
      obtain ⟨hfinished, hnexts⟩ := ih hfalse hstate
      refine ⟨hfinished, fun x hx => ?_⟩
      obtain rfl | hx := List.mem_cons.mp hx
      · exact (hrest.kept hfalse).2 _ hblack
      · exact hnexts x hx
  | finds _ _ _ => cases hfalse
  | @leaves next nexts state state' result hwhite hbelow hrest ihbelow ihrest =>
      obtain ⟨hfinished, hnexts⟩ := ihbelow rfl (hstate.enter hwhite)
      have hlt : next < state'.length := by
        rw [hbelow.length_eq, List.length_set]
        exact getElem?_lt hwhite
      obtain ⟨hfinished, hrests⟩ := ihrest hfalse (hfinished.leave hlt hnexts)
      refine ⟨hfinished, fun x hx => ?_⟩
      obtain rfl | hx := List.mem_cons.mp hx
      · exact (hrest.kept hfalse).2 _ (List.getElem?_set_self hlt)
      · exact hrests x hx

end Search

/-! ### The loop over the start nodes -/

section Start

variable {edges : List (List Nat)} {nodes : List Nat} {state : List Mark} {found : Bool}

/-- Between two start nodes no node is grey. -/
theorem no_grey_of_searches {node : Nat} {state' : List Mark}
    (hgrey : ∀ x : Nat, state[x]? ≠ some Mark.grey)
    (hbelow : Searches edges (edges[node]?.getD []) (state.set node .grey) (false, state'))
    (x : Nat) : (state'.set node .black)[x]? ≠ some Mark.grey := by
  intro hx
  obtain ⟨hne, hx⟩ := getElem?_set_of_ne (by decide) hx
  have hx := ((hbelow.kept rfl).1 x).mp hx
  rw [List.getElem?_set_ne hne] at hx
  exact hgrey x hx

theorem Starts.total (g : EdgeLists) (hstate : state.length = g.edges.length) :
    ∃ found, Starts g.edges nodes state found := by
  induction nodes generalizing state with
  | nil => exact ⟨false, .done⟩
  | cons node nodes ih =>
      by_cases hwhite : state[node]? = some .white
      · have hlt : node < g.edges.length := hstate ▸ getElem?_lt hwhite
        have hlength : (state.set node .grey).length = g.edges.length := by
          rw [List.length_set, hstate]
        obtain ⟨⟨found, state'⟩, hbelow⟩ := Searches.total g hlength (g.successors_lt hlt)
        cases found with
        | true => exact ⟨true, .finds hwhite hbelow⟩
        | false =>
            obtain ⟨found, hrest⟩ := @ih (state'.set node .black)
              (by rw [List.length_set, hbelow.length_eq, hlength])
            exact ⟨found, .leaves hwhite hbelow hrest⟩
      · obtain ⟨found, hrest⟩ := ih hstate
        exact ⟨found, .skips hwhite hrest⟩

/-- Finding a cycle ends the loop. -/
theorem foldl_found {step : List Mark → Nat → Bool × List Mark} :
    nodes.foldl (fun found node => match found with
      | (true, state) => (true, state)
      | (false, state) => step state node) (true, state) = (true, state) := by
  induction nodes with
  | nil => rfl
  | cons _ _ ih => exact ih

theorem Starts.eq_foldl (h : Starts edges nodes state found)
    (hstate : state.length ≤ edges.length) :
    (nodes.foldl (fun found node => match found with
      | (true, state) => (true, state)
      | (false, state) => if state[node]? = some Mark.white then
          dfsCycle edges edges.length node state else (false, state)) (false, state)).1 = found := by
  induction h with
  | done => rfl
  | skips hseen _ ih =>
      rw [List.foldl_cons]
      simp only [if_neg hseen]
      exact ih hstate
  | finds hwhite hbelow =>
      rw [List.foldl_cons]
      simp only [if_pos hwhite, hbelow.eq_dfsCycle hwhite hstate]
      rw [foldl_found]
  | leaves hwhite hbelow _ ih =>
      rw [List.foldl_cons]
      simp only [if_pos hwhite, hbelow.eq_dfsCycle hwhite hstate]
      refine ih ?_
      rw [List.length_set, hbelow.length_eq, List.length_set]
      exact hstate

theorem Starts.cycle (h : Starts edges nodes state found) (hfound : found = true)
    (hgrey : ∀ x : Nat, state[x]? ≠ some Mark.grey) : ∃ x, TransGen (Edge edges) x x := by
  induction h with
  | done => cases hfound
  | skips _ _ ih => exact ih hfound hgrey
  | @finds node nodes state state' hwhite hbelow =>
      refine hbelow.cycle rfl (fun x hx => ?_) fun _ h => h
      by_cases hne : node = x
      · subst hne
        exact .refl
      · rw [List.getElem?_set_ne hne] at hx
        exact absurd hx (hgrey x)
  | leaves _ hbelow _ ih => exact ih hfound (no_grey_of_searches hgrey hbelow)

/-- Where nothing is found, a post-order holds all start nodes. -/
theorem Starts.finished (h : Starts edges nodes state found) (hfalse : found = false)
    (hnodes : ∀ node ∈ nodes, node < state.length)
    (hgrey : ∀ x : Nat, state[x]? ≠ some Mark.grey) (hstate : Finished edges state) :
    ∃ order, Postorder (Edge edges) [] order ∧
      (∀ x : Nat, state[x]? = some Mark.black → x ∈ order) ∧ ∀ node ∈ nodes, node ∈ order := by
  induction h with
  | done =>
      obtain ⟨order, hpost, hblack⟩ := hstate
      exact ⟨order, hpost, fun x hx => (hblack x).mpr hx, fun _ h => absurd h List.not_mem_nil⟩
  | @skips node nodes state found hseen _ ih =>
      obtain ⟨order, hpost, hblack, hrest⟩ :=
        ih hfalse (fun x hx => hnodes x (List.mem_cons_of_mem _ hx)) hgrey hstate
      refine ⟨order, hpost, hblack, fun x hx => ?_⟩
      obtain rfl | hx := List.mem_cons.mp hx
      · refine hblack x ?_
        have hlt := hnodes x (List.mem_cons_self ..)
        cases hmark : state[x]? with
        | none => exact absurd hmark (by simp [hlt])
        | some mark =>
            cases mark with
            | white => exact absurd hmark hseen
            | grey => exact absurd hmark (hgrey x)
            | black => rfl
      · exact hrest x hx
  | finds _ _ => cases hfalse
  | @leaves node nodes state state' found hwhite hbelow _ ih =>
      obtain ⟨hfinished, hnexts⟩ := hbelow.finished rfl (hstate.enter hwhite)
      have hlength : state'.length = state.length := by
        rw [hbelow.length_eq, List.length_set]
      have hlt : node < state'.length := hlength ▸ getElem?_lt hwhite
      obtain ⟨order, hpost, hblack, hrest⟩ := ih hfalse
        (fun x hx => by
          rw [List.length_set, hlength]
          exact hnodes x (List.mem_cons_of_mem _ hx))
        (no_grey_of_searches hgrey hbelow) (hfinished.leave hlt hnexts)
      refine ⟨order, hpost, fun x hx => hblack x ?_, fun x hx => ?_⟩
      · by_cases hne : node = x
        · subst hne
          exact List.getElem?_set_self hlt
        · rw [List.getElem?_set_ne hne]
          refine (hbelow.kept rfl).2 x ?_
          rwa [List.getElem?_set_ne hne]
      · obtain rfl | hx := List.mem_cons.mp hx
        · exact hblack _ (List.getElem?_set_self hlt)
        · exact hrest x hx

end Start

/-! ### The test for a cycle is exact -/

section Exact

variable (g : EdgeLists)

/-- The colours at the start. -/
def allWhite (edges : List (List Nat)) : List Mark := List.replicate edges.length .white

theorem allWhite_not {edges : List (List Nat)} {mark : Mark} (hmark : mark ≠ .white) (x : Nat) :
    (allWhite edges)[x]? ≠ some mark := by
  unfold allWhite
  rw [List.getElem?_replicate]
  split
  · exact fun h => hmark (Option.some.inj h).symm
  · nofun

theorem hasCycle_starts :
    Starts g.edges (List.range g.edges.length) (allWhite g.edges) (hasCycle g.edges) := by
  have hlength : (allWhite g.edges).length = g.edges.length := List.length_replicate
  obtain ⟨found, hstarts⟩ : ∃ found, Starts g.edges (List.range g.edges.length) _ found :=
    Starts.total g hlength
  have heq : hasCycle g.edges = found := hstarts.eq_foldl hlength.le
  rwa [heq]

theorem hasCycle_iff : hasCycle g.edges = true ↔ ∃ x, TransGen (Edge g.edges) x x := by
  have hstarts := hasCycle_starts g
  refine ⟨fun hfound => hstarts.cycle hfound (allWhite_not (by decide)), fun ⟨x, hx⟩ => ?_⟩
  by_contra hfalse
  have hempty : Finished g.edges (allWhite g.edges) :=
    ⟨[], .nil, fun x => ⟨fun h => absurd h List.not_mem_nil,
      fun h => absurd h (allWhite_not (by decide) x)⟩⟩
  obtain ⟨order, hpost, -, hall⟩ := hstarts.finished (Bool.eq_false_iff.mpr hfalse)
    (fun x hx => by
      rw [show (allWhite g.edges).length = g.edges.length from List.length_replicate]
      exact List.mem_range.mp hx)
    (allWhite_not (by decide)) hempty
  refine hpost.acyclic (hall x (List.mem_range.mpr ?_)) hx
  obtain ⟨y, hedge, -⟩ := Relation.TransGen.head'_iff.mp hx
  by_contra hlt
  unfold Edge at hedge
  rw [List.getElem?_eq_none (Nat.le_of_not_lt hlt)] at hedge
  exact List.not_mem_nil hedge

end Exact

/-! ### The graph of a ruleset -/

section Ruleset

variable {ruleset : Ruleset} {rule target : RuleDecl} {stmt : Stmt} {i j : Nat}

/-- A rule contains a statement, in its body or in a branch. -/
def Contains (rule : RuleDecl) (stmt : Stmt) : Prop :=
  stmt ∈ rule.body ∨ ∃ block, rule.ifElse = some block ∧
    (stmt ∈ block.thenBody ∨ ∃ stmts, block.elseBody = some stmts ∧ stmt ∈ stmts)

/-- The decision rules that are anchored on what a statement infers or emits. -/
inductive AnchoredOn : Stmt → RuleDecl → Prop
  | cause {i : Ast.InferStmt} {d : DecisionRule} {c : Ast.CauseAnchor}
      (hanchor : d.anchor = .cause c) (hcause : c.cause = i.cause) :
      AnchoredOn (.infer i) (.decision d)
  | problem {e : Ast.EmitStmt} {d : DecisionRule} {p : Ast.ProblemAnchor}
      (hanchor : d.anchor = .problem p) (hproblem : p.problem = e.problem) :
      AnchoredOn (.emit e) (.decision d)

/-- The rule at one position wakes the rule at another one. -/
def Wakes (ruleset : Ruleset) (i j : Nat) : Prop :=
  ∃ rule target stmt, ruleset.rules[i]? = some rule ∧ ruleset.rules[j]? = some target ∧
    Contains rule stmt ∧ AnchoredOn stmt target

theorem mem_gatherStatements : stmt ∈ rule.gatherStatements ↔ Contains rule stmt := by
  unfold RuleDecl.gatherStatements RuleDecl.branchStatements Contains
  rw [List.mem_append]
  refine or_congr_right ?_
  cases rule.ifElse with
  | none => simp
  | some block => cases helse : block.elseBody <;> simp [helse]

theorem wakes_iff : wakes stmt target = true ↔ AnchoredOn stmt target := by
  constructor
  · intro h
    unfold wakes at h
    split at h
    · exact .cause rfl (beq_iff_eq.mp h).symm
    · exact .problem rfl (beq_iff_eq.mp h).symm
    · cases h
  · rintro (@⟨i, ⟨_, _, _, _, _, _⟩, c, hanchor, hcause⟩ |
      @⟨e, ⟨_, _, _, _, _, _⟩, p, hanchor, hproblem⟩)
    · obtain rfl := hanchor
      exact beq_iff_eq.mpr hcause.symm
    · obtain rfl := hanchor
      exact beq_iff_eq.mpr hproblem.symm

theorem edge_rulesetEdges : Edge (rulesetEdges ruleset) i j ↔ Wakes ruleset i j := by
  unfold Edge rulesetEdges Wakes
  rw [List.getElem?_map]
  cases hrule : ruleset.rules[i]? with
  | none => simp
  | some rule =>
      simp only [Option.map_some, Option.getD_some, List.mem_flatMap, List.mem_map,
        List.mem_filter, mem_gatherStatements, wakes_iff, List.mem_zipIdx_iff_getElem?]
      constructor
      · rintro ⟨stmt, hstmt, ⟨target, _⟩, ⟨htarget, hanchored⟩, rfl⟩
        exact ⟨rule, target, stmt, rfl, htarget, hstmt, hanchored⟩
      · rintro ⟨_, target, stmt, hsame, htarget, hstmt, hanchored⟩
        cases hsame
        exact ⟨stmt, hstmt, (target, j), ⟨htarget, hanchored⟩, rfl⟩

/-- The edges of a ruleset lead to its rules. -/
def rulesetGraph (ruleset : Ruleset) : EdgeLists where
  edges := rulesetEdges ruleset
  inRange := by
    intro nexts hnexts next hnext
    obtain ⟨i, hi⟩ := List.mem_iff_getElem?.mp hnexts
    obtain ⟨_, _, _, _, htarget, _⟩ := edge_rulesetEdges.mp
      (show Edge (rulesetEdges ruleset) i next by rwa [Edge, hi])
    unfold rulesetEdges
    rw [List.length_map]
    exact (List.getElem?_eq_some_iff.mp htarget).1

/-- The verifier reports a cycle exactly where rules wake each other in a cycle. On every
graph the search ends, and what it finds is whether there is a cycle. -/
theorem phase08_exact :
    (∀ ruleset : Ruleset,
      err "ADGL0410" "cyclic rule dependency detected" ∈ phase08Acyclicity ruleset ↔
        ∃ i, TransGen (Wakes ruleset) i i) ∧
    ∀ g : EdgeLists,
      Starts g.edges (List.range g.edges.length) (allWhite g.edges) (hasCycle g.edges) ∧
      (hasCycle g.edges = true ↔ ∃ i, TransGen (Edge g.edges) i i) := by
  refine ⟨fun ruleset => ?_, fun g => ⟨hasCycle_starts g, hasCycle_iff g⟩⟩
  have hedges : Edge (rulesetEdges ruleset) = Wakes ruleset := by
    funext i j
    exact propext edge_rulesetEdges
  rw [← hedges]
  refine Iff.trans ?_ (hasCycle_iff (rulesetGraph ruleset))
  change err _ _ ∈ check (!hasCycle (rulesetEdges ruleset)) _ _ ↔
    hasCycle (rulesetEdges ruleset) = true
  unfold check
  cases hasCycle (rulesetEdges ruleset) <;> simp

end Ruleset

end Adgl
