import NFdl.Adgl.Ir
import Mathlib.Data.List.Basic

/-!
# The rule index

`ProgramImage::new` groups the positions of the rules by the kind and the name of their anchor,
and `rules_for` reads the group of its key back. A group keeps the order of declaration, so a
lookup finds what a search through all the rules finds, as long as every position fits into the
32 bits in which the index stores it. From there on a position stands for an earlier rule.
-/

namespace Adgl

namespace RuleIndex

/-- The group of a key. -/
def positions (index : RuleIndex) : AnchorKey → List Nat
  | .event t => (index.byEvent.lookup t).getD []
  | .cause k => (index.byCause.lookup k).getD []
  | .problem p => (index.byProblem.lookup p).getD []

theorem lookup_pushPosition (groups : Positions) (name key : String) (pos : Nat) :
    ((pushPosition groups name pos).lookup key).getD [] =
      (groups.lookup key).getD [] ++ if name = key then [pos] else [] := by
  unfold pushPosition
  by_cases h : name = key
  · subst h
    rw [AList.lookup_insert, if_pos rfl, Option.getD_some]
  · rw [AList.lookup_insert_ne (Ne.symm h), if_neg h, List.append_nil]

/-- A rule enters the group of its own anchor and no other one. -/
theorem positions_push (index : RuleIndex) (pos : Nat) (rule : RuleInstance) (key : AnchorKey) :
    (index.push pos rule).positions key =
      index.positions key ++ if rule.anchor.source = key then [min pos u32Max] else [] := by
  unfold push
  cases hsource : rule.anchor.source <;> cases key <;>
    simp [positions, lookup_pushPosition]

/-- Every group lists the positions of its rules in the order in which they were pushed. -/
theorem positions_foldl_push (entries : List (RuleInstance × Nat)) (index : RuleIndex)
    (key : AnchorKey) :
    (entries.foldl (fun index entry => index.push entry.2 entry.1) index).positions key =
      index.positions key ++
        (entries.filter fun entry => entry.1.anchor.source = key).map
          fun entry => min entry.2 u32Max := by
  induction entries generalizing index with
  | nil => exact (List.append_nil _).symm
  | cons entry entries ih =>
      rw [List.foldl_cons, ih, positions_push, List.append_assoc, List.filter_cons]
      by_cases h : entry.1.anchor.source = key
      · rw [if_pos h, if_pos (decide_eq_true h), List.map_cons, List.singleton_append]
      · rw [if_neg h, if_neg (by rwa [decide_eq_true_eq]), List.nil_append]

end RuleIndex

namespace ProgramImage

/-- The rules with an anchor, a scope type and a kind, found by a search through all of them. -/
def searchRules (rules : List RuleInstance) (key : AnchorKey) (scope : ScopeType)
    (kind : RuleKind) : List RuleInstance :=
  rules.filter fun r => r.anchor.source = key ∧ r.scope = scope ∧ r.kind = kind

section Lookup

variable {id : String} {exclusivity : List ExclusivityGroup} {rules : List RuleInstance}
  {key : AnchorKey} {scope : ScopeType} {kind : RuleKind}

theorem rulesFor_eq (image : ProgramImage) :
    image.rulesFor key scope kind =
      ((image.index.positions key).filterMap fun pos => image.rules[pos]?).filter fun r =>
        r.kind == kind && r.scope == scope := by
  cases key <;> rfl

/-- What a lookup reads: the rule that stands at the stored position of each rule with the
anchor. -/
theorem rulesFor_new :
    (new id exclusivity rules).rulesFor key scope kind =
      ((rules.zipIdx.filter fun entry => entry.1.anchor.source = key).filterMap
        fun entry => rules[min entry.2 u32Max]?).filter fun r =>
          r.kind == kind && r.scope == scope := by
  have hpositions : (new id exclusivity rules).index.positions key =
      (rules.zipIdx.filter fun entry => entry.1.anchor.source = key).map
        fun entry => min entry.2 u32Max := by
    unfold new
    rw [RuleIndex.positions_foldl_push]
    cases key <;> rfl
  rw [rulesFor_eq, hpositions, List.filterMap_map]
  rfl

/-- The entries of a list that satisfy a test, without their positions. -/
theorem map_fst_filter_zipIdx {α : Type} (p : α → Bool) (xs : List α) (n : Nat) :
    ((xs.zipIdx n).filter fun entry => p entry.1).map Prod.fst = xs.filter p := by
  have hfst : (xs.zipIdx n).map Prod.fst = xs := List.zipIdx_map_fst n xs
  calc ((xs.zipIdx n).filter fun entry => p entry.1).map Prod.fst
      = ((xs.zipIdx n).map Prod.fst).filter p := (List.filter_map ..).symm
    _ = xs.filter p := by rw [hfst]

/-- A stored position that fits stands for the rule that was pushed with it. -/
theorem stored_position (hfits : rules.length ≤ u32Max + 1) {entry : RuleInstance × Nat}
    (h : entry ∈ rules.zipIdx) : rules[min entry.2 u32Max]? = some entry.1 := by
  have hget := List.mem_zipIdx_iff_getElem?.mp h
  have hlt := (List.getElem?_eq_some_iff.mp hget).1
  rw [min_eq_left (by omega)]
  exact hget

/-- The index agrees with the search, for every list of rules whose positions fit into 32
bits. -/
theorem rulesFor_eq_searchRules (id : String) (exclusivity : List ExclusivityGroup)
    (rules : List RuleInstance) (hfits : rules.length ≤ u32Max + 1) (key : AnchorKey)
    (scope : ScopeType) (kind : RuleKind) :
    (new id exclusivity rules).rulesFor key scope kind = searchRules rules key scope kind := by
  have hread : ((rules.zipIdx.filter fun entry => entry.1.anchor.source = key).filterMap
      fun entry => rules[min entry.2 u32Max]?) =
        rules.filter fun r => r.anchor.source = key := by
    rw [← map_fst_filter_zipIdx _ rules 0, ← List.filterMap_eq_map]
    exact List.filterMap_congr fun entry h =>
      stored_position hfits (List.mem_filter.mp h).1
  rw [rulesFor_new, hread, List.filter_filter]
  refine List.filter_congr fun r _ => ?_
  rw [Bool.decide_and, Bool.decide_and, beq_eq_decide, beq_eq_decide, Bool.and_comm,
    Bool.and_comm (decide (r.scope = scope))]

/-- The first position that does not fit is stored as the position of the rule before it, so the
lookup reads that rule. -/
theorem rulesFor_last {stored last : RuleInstance} (hlength : rules.length = u32Max + 1)
    (hstored : rules[u32Max]? = some stored)
    (hother : ∀ r ∈ rules, r.anchor.source ≠ last.anchor.source) :
    (new id exclusivity (rules ++ [last])).rulesFor last.anchor.source scope kind =
      [stored].filter fun r => r.kind == kind && r.scope == scope := by
  have hearly : (rules.zipIdx.filter fun entry =>
      entry.1.anchor.source = last.anchor.source) = [] := by
    refine List.filter_eq_nil_iff.mpr fun entry h => ?_
    rw [decide_eq_true_eq]
    exact hother entry.1 (List.fst_mem_of_mem_zipIdx h)
  have hgroup : ((rules ++ [last]).zipIdx.filter fun entry =>
      entry.1.anchor.source = last.anchor.source) = [(last, u32Max + 1)] := by
    rw [List.zipIdx_append, List.filter_append, hearly, hlength, Nat.zero_add, List.nil_append]
    exact List.filter_cons_of_pos (decide_eq_true rfl)
  have hread : (rules ++ [last])[min (u32Max + 1) u32Max]? = some stored := by
    rw [min_eq_right (Nat.le_succ _), List.getElem?_append_left (by omega), hstored]
  rw [rulesFor_new, hgroup]
  simp only [List.filterMap_cons, hread, List.filterMap_nil]

end Lookup

/-- An evidence rule on events of a type. -/
def ruleOn (eventType : EventType) : RuleInstance where
  id := eventType
  kind := .evidence
  scope := .session
  anchor := ⟨"e", .event eventType, .alwaysTrue⟩
  correlates := []
  branches := none
  body := []
  annotations := ⟨.ofMillis 0, .ofMillis 0, some .session⟩

theorem rulesFor_eq_searchRules_two :
    (new "acks" [] [ruleOn "tcp.ack", ruleOn "tcp.reset"]).rulesFor (.event "tcp.reset") .session
      .evidence =
    searchRules [ruleOn "tcp.ack", ruleOn "tcp.reset"] (.event "tcp.reset") .session .evidence :=
  rulesFor_eq_searchRules "acks" [] [ruleOn "tcp.ack", ruleOn "tcp.reset"] (by decide)
    (.event "tcp.reset") .session .evidence

/-- After as many rules as there are positions, the lookup of one more rule finds another one. -/
theorem rulesFor_saturated :
    (new "acks" [] (List.replicate (u32Max + 1) (ruleOn "tcp.ack") ++ [ruleOn "tcp.reset"])).rulesFor
        (.event "tcp.reset") .session .evidence = [ruleOn "tcp.ack"] ∧
      searchRules (List.replicate (u32Max + 1) (ruleOn "tcp.ack") ++ [ruleOn "tcp.reset"])
        (.event "tcp.reset") .session .evidence = [ruleOn "tcp.reset"] := by
  constructor
  · have hstored := List.getElem?_replicate_of_lt (a := ruleOn "tcp.ack")
      (Nat.lt_succ_self u32Max)
    refine (rulesFor_last List.length_replicate hstored fun r h => ?_).trans ?_
    · rw [List.eq_of_mem_replicate h]
      decide
    · decide
  · have hearly : searchRules (List.replicate (u32Max + 1) (ruleOn "tcp.ack"))
        (.event "tcp.reset") .session .evidence = [] := by
      refine List.filter_eq_nil_iff.mpr fun r h => ?_
      rw [List.eq_of_mem_replicate h]
      decide
    unfold searchRules at hearly ⊢
    rw [List.filter_append, hearly]
    decide

end ProgramImage

end Adgl
