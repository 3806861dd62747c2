import NFdl.Adgl.Sarif

/-!
# Strict privacy

Two states of the engine that differ only in the values of personal fields of events
are reported in the same words under strict privacy: a value can reach the document only
under the name of its field, and under that name a placeholder is written.
-/

namespace Adgl

/-- The catalog marks the field of an event at an index as personal. -/
def Catalog.IsPii (catalog : Catalog) (eventType : EventType) (idx : FieldIdx) : Prop :=
  ∃ schema field, catalog.resolveEvent eventType = some schema ∧
    schema.fields.find? (·.idx == idx) = some field ∧ field.pii = true

/-- Events that differ at most in the values of personal fields. -/
structure EventNode.SameButPii (catalog : Catalog) (a b : EventNode) : Prop where
  id : a.id = b.id
  eventType : a.eventType = b.eventType
  time : a.time = b.time
  scope : a.scope = b.scope
  fields : SortedMap.Related (fun idx v v' => v = v' ∨ catalog.IsPii a.eventType idx)
    a.fields b.fields
  intListFields : SortedMap.Related (fun idx v v' => v = v' ∨ catalog.IsPii a.eventType idx)
    a.intListFields b.intListFields

/-- States with the same partitions and the same audited actions, whose stored events differ
at most in the values of personal fields. -/
structure Engine.SameButPii (catalog : Catalog) (e e' : Engine) : Prop where
  touched : e.touched = e'.touched
  partitions : e.store.partitions = e'.store.partitions
  sinkLog : e.sinkLog = e'.sinkLog
  rings : ∀ scope, Option.Rel (fun r r' : RingBuffer =>
    List.Forall₂ (EventNode.SameButPii catalog) r.buf r'.buf)
    (e.store.rings.lookup scope) (e'.store.rings.lookup scope)

/-- Evidence with the same names, and with the same values of fields that are not personal. -/
def Alike (catalog : Catalog) (m m' : SortedMap String String) : Prop :=
  SortedMap.Related (fun name v v' => v = v' ∨ name ∈ catalog.piiFieldNames) m m'

variable {catalog : Catalog}

/-- Fields with the same indexes that differ only where they are personal are added alike. -/
theorem Alike.foldl_named {α : Type} {eventType : EventType} {schema : EventSchema}
    (hschema : catalog.resolveEvent eventType = some schema) (render : α → String)
    {fields fields' : SortedMap FieldIdx α}
    (hfields : SortedMap.Related (fun idx v v' => v = v' ∨ catalog.IsPii eventType idx)
      fields fields') {out out' : SortedMap String String} (h : Alike catalog out out') :
    Alike catalog
      (fields.entries.foldl (fun out f => match schema.fields.find? (·.idx == f.1) with
        | none => out
        | some field => out.insert field.name (render f.2)) out)
      (fields'.entries.foldl (fun out f => match schema.fields.find? (·.idx == f.1) with
        | none => out
        | some field => out.insert field.name (render f.2)) out') := by
  refine List.rel_foldl (P := Alike catalog) ?_ h hfields
  rintro out out' hout ⟨idx, v⟩ ⟨_, v'⟩ ⟨rfl, hv⟩
  cases hfind : schema.fields.find? (·.idx == idx) with
  | none =>
      simp only [hfind]
      exact hout
  | some field =>
      simp only [hfind]
      refine hout.insert ?_
      obtain rfl | ⟨schema', field', hschema', hfield', hpii⟩ := hv
      · exact .inl rfl
      · obtain rfl := Option.some.inj (hschema.symm.trans hschema')
        obtain rfl := Option.some.inj (hfind.symm.trans hfield')
        exact .inr (mem_piiFieldNames.mpr ⟨schema, List.mem_of_find?_eq_some hschema, field,
          List.mem_of_find?_eq_some hfind, hpii, rfl⟩)

theorem Alike.mergeEventFields {out out' : SortedMap String String} (h : Alike catalog out out')
    {a b : EventNode} (hab : a.SameButPii catalog b) :
    Alike catalog (mergeEventFields catalog out a) (mergeEventFields catalog out' b) := by
  unfold Adgl.mergeEventFields
  rw [← hab.eventType]
  cases hschema : catalog.resolveEvent a.eventType with
  | none => exact h
  | some schema =>
      have hscalar := h.foldl_named hschema (fun v : Int64 => toString v.toInt) hab.fields
      exact hscalar.foldl_named hschema renderList hab.intListFields

/-- Rings of such events give such events. -/
theorem get_sameButPii {r r' : RingBuffer}
    (h : List.Forall₂ (EventNode.SameButPii catalog) r.buf r'.buf) (id : EventId) :
    Option.Rel (EventNode.SameButPii catalog) (r.get id) (r'.get id) := by
  unfold RingBuffer.get
  generalize r.buf = buf at h
  generalize r'.buf = buf' at h
  induction h with
  | nil => exact .none
  | cons hfirst hrest ih =>
      rename_i a b as bs
      by_cases hid : a.id = id
      · rw [List.find?_cons_of_pos (by simpa using hid),
          List.find?_cons_of_pos (by simpa using hfirst.id ▸ hid)]
        exact .some hfirst
      · rw [List.find?_cons_of_neg (by simpa using hid),
          List.find?_cons_of_neg (by simpa using hfirst.id ▸ hid)]
        exact ih

theorem Alike.mergeCauseFields {r r' : RingBuffer}
    (hrings : List.Forall₂ (EventNode.SameButPii catalog) r.buf r'.buf) (edges : List EvidenceEdge)
    (cause : CauseNode) {out out' : SortedMap String String} (h : Alike catalog out out') :
    Alike catalog (mergeCauseFields catalog r edges out cause)
      (mergeCauseFields catalog r' edges out' cause) := by
  unfold Adgl.mergeCauseFields
  induction edges generalizing out out' with
  | nil => exact h
  | cons edge edges ih =>
      rw [List.foldl_cons, List.foldl_cons]
      refine ih ?_
      split
      · rename_i id _
        split
        · have hget := get_sameButPii hrings id
          revert hget
          cases r.get id with
          | none =>
              cases r'.get id with
              | none => exact fun _ => h
              | some b => rintro ⟨⟩
          | some a =>
              cases r'.get id with
              | none => rintro ⟨⟩
              | some b =>
                  rintro ⟨hab⟩
                  exact h.mergeEventFields hab
        · exact h
      · exact h

theorem collectProblemEvidence_alike {e e' : Engine} (h : e.SameButPii catalog e')
    (scope : ScopeId) (problem : ProblemNode) (part : SubGraph) (causes : List CauseNode) :
    Alike catalog (collectProblemEvidence catalog e.store scope problem part causes)
      (collectProblemEvidence catalog e'.store scope problem part causes) := by
  unfold collectProblemEvidence
  have hrings := h.rings scope
  revert hrings
  cases e.store.rings.lookup scope with
  | none =>
      cases e'.store.rings.lookup scope with
      | none => exact fun _ => SortedMap.Related.empty _
      | some r' => rintro ⟨⟩
  | some r =>
      cases e'.store.rings.lookup scope with
      | none => rintro ⟨⟩
      | some r' =>
          rintro ⟨hbuf⟩
          refine List.foldl_rel (r := Alike catalog) (SortedMap.Related.empty _) ?_
          intro id _ out out' hout
          split
          · exact hout
          · exact hout.mergeCauseFields hbuf part.edges _

/-! ### The document -/

theorem redactEvidence_of_alike {m m' : SortedMap String String} (h : Alike catalog m m') :
    redactEvidenceFieldMap catalog m true = redactEvidenceFieldMap catalog m' true := by
  have hentries : m.entries.map (fun f => (f.1, redactField catalog f)) =
      m'.entries.map fun f => (f.1, redactField catalog f) := by
    unfold Alike SortedMap.Related at h
    generalize m.entries = l at h
    generalize m'.entries = l' at h
    induction h with
    | nil => rfl
    | cons hfirst hrest ih =>
        rename_i f f' fs fs'
        obtain ⟨hname, hvalue⟩ := hfirst
        have hfield : redactField catalog f = redactField catalog f' := by
          unfold redactField
          rw [← hname]
          obtain hvalue | hpii := hvalue
          · rw [hvalue]
          · rw [if_pos hpii, if_pos hpii]
        rw [List.map_cons, List.map_cons, ih, hname, hfield]
  have hredacted := entries_redactEvidenceFieldMap catalog m
  rw [hentries, ← entries_redactEvidenceFieldMap] at hredacted
  revert hredacted
  cases redactEvidenceFieldMap catalog m true with
  | mk entries sorted =>
      cases redactEvidenceFieldMap catalog m' true with
      | mk entries' sorted' =>
          rintro rfl
          rfl

/-- Views of a problem with evidence that is alike. -/
structure ProblemView.Alike (catalog : Catalog) (p p' : ProblemView) : Prop where
  same : { p with evidenceFields := p'.evidenceFields } = p'
  evidence : Adgl.Alike catalog p.evidenceFields p'.evidenceFields

theorem writeProperties_of_alike {m m' : SortedMap String String} (h : Alike catalog m m') :
    writeProperties catalog m .strict = writeProperties catalog m' .strict := by
  have hempty : m.entries = [] ↔ m'.entries = [] := by
    unfold Alike SortedMap.Related at h
    rw [← List.length_eq_zero_iff, ← List.length_eq_zero_iff, h.length_eq]
  have hobject : writeEvidenceObject catalog m .strict = writeEvidenceObject catalog m' .strict := by
    unfold writeEvidenceObject
    rw [show SarifOptions.strict.strictPrivacy = true from rfl, redactEvidence_of_alike h]
  delta writeProperties
  rw [hobject]
  by_cases hnone : m.entries = []
  · rw [if_pos hnone, if_pos (hempty.mp hnone)]
  · rw [if_neg hnone, if_neg fun h => hnone (hempty.mpr h)]

theorem writeResult_of_alike {p p' : ProblemView} (h : p.Alike catalog p') :
    writeResult catalog .strict p = writeResult catalog .strict p' := by
  have hproperties := writeProperties_of_alike h.evidence
  rw [← h.same]
  delta writeResult
  rw [hproperties]

theorem problemViewsIn_alike {host : Host} {e e' : Engine} (h : e.SameButPii host.catalog e')
    {orders orders' : HashOrders} (scope : ScopeId)
    (horder : ∀ part, e.store.partition scope = some part →
      orders.keys e part.causes = orders'.keys e' part.causes) :
    List.Forall₂ (ProblemView.Alike host.catalog) (problemViewsIn orders host e scope)
      (problemViewsIn orders' host e' scope) := by
  unfold problemViewsIn
  have hpart : e'.store.partition scope = e.store.partition scope := by
    unfold GraphStore.partition
    rw [h.partitions]
  rw [hpart]
  cases hlookup : e.store.partition scope with
  | none => exact .nil
  | some part =>
      simp only [horder part hlookup]
      rw [List.forall₂_map_left_iff, List.forall₂_map_right_iff, List.forall₂_same]
      exact fun p _ => ⟨rfl, collectProblemEvidence_alike h scope p part _⟩

/-- Views that are alike are written alike, and the same ones of them. -/
theorem toSarif_of_alike {s s' : Snapshot}
    (h : List.Forall₂ (ProblemView.Alike catalog) s.problems s'.problems) :
    toSarifWithOptions catalog s .strict = toSarifWithOptions catalog s' .strict := by
  have hwritten : s.standing.map (writeResult catalog .strict) =
      s'.standing.map (writeResult catalog .strict) := by
    unfold Snapshot.standing
    generalize s.problems = l at h
    generalize s'.problems = l' at h
    induction h with
    | nil => rfl
    | cons hfirst hrest ih =>
        rename_i p p' ps ps'
        have hsuperseded : p.superseded = p'.superseded := by
          rw [← hfirst.same]
        rw [List.filter_cons, List.filter_cons, hsuperseded]
        split
        · rw [List.map_cons, List.map_cons, ih, writeResult_of_alike hfirst]
        · exact ih
  delta toSarifWithOptions
  rw [hwritten]

/-- The hash maps of causes are gone over in the same orders. -/
def SameOrder (orders : HashOrders) (e : Engine) (orders' : HashOrders) (e' : Engine) : Prop :=
  ∀ scope part, e.store.partition scope = some part →
    orders.keys e part.causes = orders'.keys e' part.causes

theorem graphSnapshotIn_alike {host : Host} {e e' : Engine} (h : e.SameButPii host.catalog e')
    {orders orders' : HashOrders} (horder : SameOrder orders e orders' e') :
    List.Forall₂ (ProblemView.Alike host.catalog) (graphSnapshotIn orders host e).problems
      (graphSnapshotIn orders' host e').problems := by
  change List.Forall₂ _ (e.touched.entries.flatMap _) (e'.touched.entries.flatMap _)
  rw [← h.touched]
  generalize e.touched.entries = scopes
  induction scopes with
  | nil => exact .nil
  | cons entry scopes ih =>
      exact List.rel_append (problemViewsIn_alike h entry.1 (horder entry.1)) ih

/-- Two states that differ only in the values of personal fields are written as the same
text under strict privacy. The orders of their hash maps are the same, or the nodes of the
state have identifiers of their own, as in every state of a run. -/
theorem strict_privacy_noninterference {host : Host} {e e' : Engine}
    (h : e.SameButPii host.catalog e') (orders orders' : HashOrders)
    (horder : SameOrder orders e orders' e' ∨ UniqueIds e) :
    toSarifWithOptions host.catalog (graphSnapshotIn orders host e) .strict =
        toSarifWithOptions host.catalog (graphSnapshotIn orders' host e') .strict ∧
      toSarifWithOptions host.catalog (snapshotIn orders host e) .strict =
        toSarifWithOptions host.catalog (snapshotIn orders' host e') .strict := by
  have hgraph : toSarifWithOptions host.catalog (graphSnapshotIn orders host e) .strict =
      toSarifWithOptions host.catalog (graphSnapshotIn orders' host e') .strict := by
    obtain hsame | hunique := horder
    · exact toSarif_of_alike (graphSnapshotIn_alike h hsame)
    · -- The order of the other state, as an order of this one.
      let turned : HashOrders := ⟨fun _ t => orders'.keys e' t, fun _ t => orders'.perm e' t⟩
      have hsame : SameOrder turned e orders' e' := fun _ _ _ => rfl
      rw [graphSnapshotIn_eq hunique orders turned]
      exact toSarif_of_alike (graphSnapshotIn_alike h hsame)
  exact ⟨hgraph, hgraph⟩

/-! ### A message to an address -/

/-- A state with a problem that rests on a message to an address. -/
def blackholeState (dstIp : Int64) : Engine :=
  { Engine.new with
    touched := SortedMap.empty.insert ⟨.session, 7⟩ ()
    store := { GraphStore.new with
      rings := AList.insert ⟨.session, 7⟩ ((RingBuffer.new ⟨.session, 7⟩ 8).push
        (.new 1 "icmp.ptb" ⟨900⟩ ⟨.session, 7⟩ [(2, 1300), (4, dstIp)])) ∅
      partitions := AList.insert ⟨.session, 7⟩
        { SubGraph.empty with
          causes := AList.insert ("PmtudBlackhole", ⟨.session, 7⟩)
            ⟨1, "PmtudBlackhole", ⟨.session, 7⟩, ⟨900⟩, ⟨80, by decide⟩, [], []⟩ ∅
          problems := [⟨2, "XlIcmpTcpMss", ⟨.session, 7⟩, ⟨900⟩, .high, [1],
            "l3_pmtud_blackhole", false⟩]
          edges := [⟨.supports, .event 1, 1⟩] } ∅ } }

theorem blackholeState_sameButPii (dstIp dstIp' : Int64) :
    (blackholeState dstIp).SameButPii Catalog.seed (blackholeState dstIp') := by
  have hpii : Catalog.seed.IsPii "icmp.ptb" 4 := ⟨_, _, rfl, rfl, rfl⟩
  refine ⟨rfl, rfl, rfl, fun scope => ?_⟩
  unfold blackholeState
  by_cases hscope : scope = ⟨.session, 7⟩
  · rw [hscope, AList.lookup_insert, AList.lookup_insert]
    refine .some (.cons ⟨rfl, rfl, rfl, rfl, ?_, .nil⟩ .nil)
    exact .cons ⟨rfl, .inl rfl⟩ (.cons ⟨rfl, .inr hpii⟩ .nil)
  · rw [AList.lookup_insert_ne hscope, AList.lookup_insert_ne hscope]
    exact .none

/-- The text with the address hidden is the same for two addresses, and the text with the
address is not. -/
theorem strict_privacy_noninterference_address :
    toSarifWithOptions Catalog.seed
        (graphSnapshotIn .forward (seedHost waitingRules) (blackholeState 10)) .strict =
      toSarifWithOptions Catalog.seed
        (graphSnapshotIn .forward (seedHost waitingRules) (blackholeState 20)) .strict ∧
    toSarifWithOptions Catalog.seed
        (graphSnapshotIn .forward (seedHost waitingRules) (blackholeState 10)) .default ≠
      toSarifWithOptions Catalog.seed
        (graphSnapshotIn .forward (seedHost waitingRules) (blackholeState 20)) .default := by
  have hsame : (blackholeState 10).SameButPii (seedHost waitingRules).catalog (blackholeState 20) :=
    blackholeState_sameButPii 10 20
  refine ⟨?_, by decide +kernel⟩
  exact (strict_privacy_noninterference hsame .forward .forward (.inl fun _ _ _ => rfl)).1

end Adgl
