import NFdl.Adgl.Correlate
import Mathlib.Order.Lattice

/-!
# What a correlate binds

The scan over the candidates of a correlate stops at the needed number of matches. It still
binds what the truth of the filter on all candidates says: the earliest match if there are
enough, else an unknown value if the filter is unknown for some candidate, else nothing.
-/

namespace Adgl

/-! ### The scan -/

/-- The binding of a correlate, from the truth of its filter on all candidates. -/
structure Resolves (filter : Bound → T3) (minMatch : ℕ) (cands : List Bound) (b : Binding) :
    Prop where
  enough : minMatch ≤ cands.countP (filter · = .true) →
    ∃ before witness after, cands = before ++ witness :: after ∧ filter witness = .true ∧
      (∀ c ∈ before, filter c ≠ .true) ∧ b = .bound witness
  undecided : cands.countP (filter · = .true) < minMatch → (∃ c ∈ cands, filter c = .unknown) →
    b = .unknown
  none : cands.countP (filter · = .true) < minMatch → (∀ c ∈ cands, filter c ≠ .unknown) →
    b = .absent

section Scan

variable {topo : Bound → T3 × List EngineDiagnostic} {minMatch : ℕ} {cand : Bound}
  {diags : List EngineDiagnostic}

/-- What a scan that has not stopped yet finds in the rest of the candidates. -/
structure Scanned (topo : Bound → T3 × List EngineDiagnostic) (minMatch : ℕ) (cands : List Bound)
    (start scan : Scan) : Prop where
  count : minMatch ≤ scan.matchCount ↔
    minMatch ≤ start.matchCount + cands.countP fun c => (topo c).1 = .true
  witness : scan.witness = start.witness.or (cands.find? fun c => (topo c).1 = .true)
  sawUnknown : scan.matchCount < minMatch →
    scan.sawUnknown = (start.sawUnknown || cands.any fun c => (topo c).1 = .unknown)

theorem scanned_nil (start : Scan) : Scanned topo minMatch [] start start where
  count := Iff.rfl
  witness := Option.or_none.symm
  sawUnknown _ := (Bool.or_false _).symm

/-- A candidate that does not match leaves the count and the witness. -/
theorem Scanned.of_no_match {cands : List Bound} {start scan : Scan} {unknown : Bool}
    (h : Scanned topo minMatch cands
      { start with sawUnknown := unknown, diagnostics := start.diagnostics ++ diags } scan)
    (hcand : (topo cand).1 ≠ .true)
    (hunknown : unknown = (start.sawUnknown || decide ((topo cand).1 = .unknown))) :
    Scanned topo minMatch (cand :: cands) start scan where
  count := by
    rw [List.countP_cons_of_neg (by simpa using hcand)]
    exact h.count
  witness := by
    rw [List.find?_cons_of_neg (by simpa using hcand)]
    exact h.witness
  sawUnknown hless := by
    rw [h.sawUnknown hless, hunknown, List.any_cons, Bool.or_assoc]

theorem scanCandidates_scanned (hmax : minMatch ≤ 255) (cands : List Bound) (start : Scan)
    (hstart : start.matchCount < minMatch) :
    Scanned topo minMatch cands start (scanCandidates topo minMatch cands start) := by
  induction cands generalizing start with
  | nil => exact scanned_nil start
  | cons cand rest ih =>
      unfold scanCandidates
      rcases htopo : topo cand with ⟨truth, diags⟩
      have hcand : (topo cand).1 = truth := by rw [htopo]
      cases truth with
      | true =>
          dsimp only
          have hcount : min 255 (start.matchCount + 1) = start.matchCount + 1 := by omega
          rw [hcount]
          have hfirst : (cand :: rest).find? (fun c => (topo c).1 = .true) = some cand :=
            List.find?_cons_of_pos (by simpa using hcand)
          have hcountP : (cand :: rest).countP (fun c => decide ((topo c).1 = .true)) =
              rest.countP (fun c => decide ((topo c).1 = .true)) + 1 :=
            List.countP_cons_of_pos (by simpa using hcand)
          split
          · next hdone =>
              refine ⟨?_, by rw [hfirst], fun hless => absurd hdone (not_le.mpr hless)⟩
              rw [hcountP]
              dsimp only at hdone ⊢
              omega
          · next hmore =>
              have hrest := ih { start with
                matchCount := start.matchCount + 1
                witness := start.witness.or (some cand)
                diagnostics := start.diagnostics ++ diags } (not_le.mp hmore)
              refine ⟨?_, ?_, fun hless => ?_⟩
              · rw [hrest.count, hcountP]
                dsimp only
                omega
              · rw [hrest.witness, hfirst, Option.or_assoc, Option.some_or]
              · rw [hrest.sawUnknown hless, List.any_cons, hcand]
                rfl
      | unknown =>
          exact (ih { start with sawUnknown := true, diagnostics := start.diagnostics ++ diags }
            hstart).of_no_match (by rw [hcand]; nofun) (by rw [hcand]; simp)
      | false =>
          exact (ih { start with diagnostics := start.diagnostics ++ diags }
            hstart).of_no_match (by rw [hcand]; nofun) (by rw [hcand]; simp)

/-- The binding of the finished scan is what the filter on all candidates says. -/
theorem binding_resolves (hmin : 1 ≤ minMatch) (hmax : minMatch ≤ 255) (cands : List Bound)
    (diags : List EngineDiagnostic) :
    Resolves (fun c => (topo c).1) minMatch cands
      ((scanCandidates topo minMatch cands ⟨0, none, false, diags⟩).binding minMatch) := by
  have hscan : Scanned topo minMatch cands ⟨0, none, false, diags⟩
      (scanCandidates topo minMatch cands ⟨0, none, false, diags⟩) :=
    scanCandidates_scanned hmax cands _ hmin
  have hcount := hscan.count
  have hwitness := hscan.witness
  rw [Option.none_or] at hwitness
  rw [Nat.zero_add] at hcount
  unfold Scan.binding
  refine ⟨fun henough => ?_, fun hfew hunknown => ?_, fun hfew hunknown => ?_⟩
  · have hpos : 0 < cands.countP fun c => decide ((topo c).1 = .true) :=
      Nat.lt_of_lt_of_le hmin henough
    obtain ⟨c, hc, hmatch⟩ := List.countP_pos_iff.mp hpos
    rw [if_pos (hcount.mpr henough), hwitness]
    cases hfind : cands.find? fun c => decide ((topo c).1 = .true) with
    | none => exact absurd hmatch (List.find?_eq_none.mp hfind c hc)
    | some w =>
        obtain ⟨hw, before, after, hsplit, hbefore⟩ := List.find?_eq_some_iff_append.mp hfind
        exact ⟨before, w, after, hsplit, of_decide_eq_true hw,
          fun c hc => by simpa using hbefore c hc, rfl⟩
  · have hless := Nat.lt_of_not_le fun hle => absurd (hcount.mp hle) (Nat.not_le.mpr hfew)
    obtain ⟨c, hc, hcu⟩ := hunknown
    have hsaw := hscan.sawUnknown hless
    rw [Bool.false_or, List.any_eq_true.mpr ⟨c, hc, decide_eq_true hcu⟩] at hsaw
    rw [if_neg (Nat.not_le.mpr hless), if_pos hsaw]
  · have hless := Nat.lt_of_not_le fun hle => absurd (hcount.mp hle) (Nat.not_le.mpr hfew)
    have hsaw := hscan.sawUnknown hless
    rw [Bool.false_or, List.any_eq_false.mpr fun c hc => by simpa using hunknown c hc] at hsaw
    rw [if_neg (Nat.not_le.mpr hless), if_neg (by rw [hsaw]; nofun)]

end Scan

/-! ### The candidates -/

/-- Whether a candidate is the anchor itself. -/
def Bound.isSame (anchor : Bound) : Bound → Bool
  | .event e => anchor.isEvent e.id
  | .problem p => anchor.isProblem p.node
  | .cause c => anchor.isCause c.node

/-- Everything in a scope that a correlate can be about. -/
def ofSource (store : GraphStore) (scope : ScopeId) : CorrelateSource → List Bound
  | .event eventType => ((store.events scope).filter (·.eventType == eventType)).map .event
  | .problem kind =>
      ((store.partitionOf scope).problems.filter (·.kind == kind)).map fun p => .problem p.snapshot
  | .cause kind =>
      ((store.partitionOf scope).causes.entries.filter (·.1.1 == kind)).map fun entry =>
        .cause ⟨entry.2.id, entry.1.1, entry.1.2, entry.2.time, entry.2.confidence⟩

/-- Whether something lies in the window around the anchor and is not the anchor. -/
def inWindow (anchor : Bound) (back fwd : DurationMs) (c : Bound) : Bool :=
  anchor.time.sub back ≤ c.time && c.time ≤ anchor.time.add fwd && !anchor.isSame c

section Candidates

section InWindow

variable (anchor : Bound) (back fwd : DurationMs)

theorem inWindow_event (e : EventNode) : inWindow anchor back fwd (.event e) =
    (anchor.time.sub back ≤ e.time && e.time ≤ anchor.time.add fwd && !anchor.isEvent e.id) := rfl

theorem inWindow_problem (p : ProblemSnapshot) : inWindow anchor back fwd (.problem p) =
    (anchor.time.sub back ≤ p.time && p.time ≤ anchor.time.add fwd && !anchor.isProblem p.node) :=
  rfl

theorem inWindow_cause (c : CauseSnapshot) : inWindow anchor back fwd (.cause c) =
    (anchor.time.sub back ≤ c.time && c.time ≤ anchor.time.add fwd && !anchor.isCause c.node) := rfl

end InWindow

variable (store : GraphStore) (spec : CorrelateSpec) (anchor : Bound) (scope : ScopeId)
  (back fwd : DurationMs)

theorem filter_map_filter {β : Type*} {l : List β} {p q : β → Bool} {r : Bound → Bool}
    {f : β → Bound} (h : ∀ b, p b = (q b && r (f b))) :
    (l.filter p).map f = ((l.filter q).map f).filter r := by
  rw [List.filter_map, List.filter_filter]
  refine congrArg (List.map f) (List.filter_congr fun b _ => ?_)
  rw [h b, Bool.and_comm]
  rfl

/-- The candidates are in the order of their times. -/
theorem candidates_ordered :
    Timeline.Ordered Bound.time (candidates store spec anchor scope back fwd) := by
  unfold candidates
  dsimp only
  split
  · split
    · exact .nil
    · next ring _ =>
        refine List.pairwise_map.mpr (List.Pairwise.filter _ ?_)
        unfold RingBuffer.scanWindow
        rw [Timeline.window_eq_filter ring.ordered]
        exact ring.ordered.filter _
  all_goals
    split
    · exact .nil
    · exact (List.pairwise_insertionSort Bound.le _).imp Bound.time_le

/-- The candidates are what the store has of the source in the window, each once, without
the anchor. -/
theorem candidates_perm : (candidates store spec anchor scope back fwd).Perm
    ((ofSource store scope spec.source).filter (inWindow anchor back fwd)) := by
  unfold candidates ofSource
  dsimp only
  cases spec.source with
  | event eventType =>
      dsimp only
      unfold GraphStore.events
      cases store.rings.lookup scope with
      | none => exact .refl _
      | some ring =>
          refine .of_eq ?_
          dsimp only [Option.map_some, Option.getD_some]
          unfold RingBuffer.scanWindow
          rw [Timeline.window_eq_filter ring.ordered, List.filter_filter]
          refine filter_map_filter fun e => ?_
          rw [inWindow_event, Bool.decide_and, Bool.and_assoc, Bool.and_comm (!_), Bool.and_assoc]
  | problem kind =>
      unfold GraphStore.partitionOf GraphStore.partition
      cases store.partitions.lookup scope with
      | none => exact .refl _
      | some part =>
          refine (List.perm_insertionSort _ _).trans (.of_eq (filter_map_filter fun p => ?_))
          rw [inWindow_problem, Bool.and_assoc, Bool.and_assoc, Bool.and_assoc]
          rfl
  | cause kind =>
      unfold GraphStore.partitionOf GraphStore.partition
      cases store.partitions.lookup scope with
      | none => exact .refl _
      | some part =>
          refine (List.perm_insertionSort _ _).trans (.of_eq (filter_map_filter fun entry => ?_))
          rw [inWindow_cause, Bool.and_assoc, Bool.and_assoc, Bool.and_assoc]

end Candidates

/-! ### The bindings of a rule -/

/-- What the binding of a correlate has to be, given the bindings before it. A correlate
without a calculable window has no candidates. -/
def Resolved (host : Host) (interner : ScopeInterner) (store : GraphStore) (rule : RuleInstance)
    (anchor : Bound) (scope : ScopeId) (earlier : List Binding) (spec : CorrelateSpec)
    (b : Binding) : Prop :=
  match spec.window with
  | .runtimeCheck => b = .absent
  | .calculable back fwd =>
      Timeline.Ordered Bound.time (candidates store spec anchor scope back fwd) ∧
        (candidates store spec anchor scope back fwd).Perm
          ((ofSource store scope spec.source).filter (inWindow anchor back fwd)) ∧
        Resolves (fun c => (evalTopo host interner spec (TopoFunc.fromIdx spec.topo.funcIdx) rule
          earlier c).1) spec.minMatch (candidates store spec anchor scope back fwd) b

section Rule

variable (host : Host) (interner : ScopeInterner) (store : GraphStore) (rule : RuleInstance)
  (anchor : Bound) (scope : ScopeId)

theorem resolveCorrelate_resolved (earlier : List Binding) {spec : CorrelateSpec}
    (h : 1 ≤ spec.minMatch ∧ spec.minMatch ≤ 255) :
    Resolved host interner store rule anchor scope earlier spec
      (resolveCorrelate host interner store rule anchor scope earlier spec).1 := by
  unfold Resolved resolveCorrelate
  cases spec.window with
  | runtimeCheck => rfl
  | calculable back fwd =>
      exact ⟨candidates_ordered .., candidates_perm .., binding_resolves h.1 h.2 _ _⟩

/-- Every correlate is resolved with the bindings of those before it. -/
theorem foldl_resolved (specs : List CorrelateSpec)
    (h : ∀ spec ∈ specs, 1 ≤ spec.minMatch ∧ spec.minMatch ≤ 255)
    (acc : List Binding × List EngineDiagnostic) :
    ∃ bs, (specs.foldl (fun acc spec =>
          let resolved := resolveCorrelate host interner store rule anchor scope acc.1 spec
          (acc.1 ++ [resolved.1], acc.2 ++ resolved.2)) acc).1 = acc.1 ++ bs ∧
      bs.length = specs.length ∧
      ∀ i spec b, specs[i]? = some spec → bs[i]? = some b →
        Resolved host interner store rule anchor scope (acc.1 ++ bs.take i) spec b := by
  induction specs generalizing acc with
  | nil => exact ⟨[], (List.append_nil _).symm, rfl, nofun⟩
  | cons first specs ih =>
      have hfirst := resolveCorrelate_resolved host interner store rule anchor scope acc.1
        (h first (List.mem_cons_self ..))
      obtain ⟨bs, heq, hlength, hall⟩ := ih
        (fun spec hspec => h spec (List.mem_cons_of_mem _ hspec))
        (acc.1 ++ [(resolveCorrelate host interner store rule anchor scope acc.1 first).1],
          acc.2 ++ (resolveCorrelate host interner store rule anchor scope acc.1 first).2)
      refine ⟨(resolveCorrelate host interner store rule anchor scope acc.1 first).1 :: bs, ?_,
        congrArg Nat.succ hlength, fun i spec b hspec hb => ?_⟩
      · rw [List.foldl_cons, heq, List.append_assoc]
        rfl
      · cases i with
        | zero =>
            obtain rfl := Option.some.inj hspec
            obtain rfl := Option.some.inj hb
            rw [List.take_zero, List.append_nil]
            exact hfirst
        | succ i =>
            have hlater := hall i spec b hspec hb
            rwa [List.append_assoc] at hlater

/-- The bindings of a rule are the anchor and, for every correlate, the earliest match if
the filter is true of enough candidates, else an unknown value if it is unknown for one,
else nothing. -/
theorem correlates_resolved
    (h : ∀ spec ∈ rule.correlates, 1 ≤ spec.minMatch ∧ spec.minMatch ≤ 255) :
    ∃ bs, (resolveBindings host interner store rule anchor scope).1 = .bound anchor :: bs ∧
      bs.length = rule.correlates.length ∧
      ∀ i spec b, rule.correlates[i]? = some spec → bs[i]? = some b →
        Resolved host interner store rule anchor scope (.bound anchor :: bs.take i) spec b :=
  foldl_resolved host interner store rule anchor scope rule.correlates h ([.bound anchor], [])

end Rule

/-- Two acknowledgements of the session within a second of the anchor. -/
def acks : CorrelateSpec where
  binding := "ack"
  source := .event "tcp.ack"
  topo := ⟨"same_session", 0, [⟨"rtx"⟩, ⟨"ack"⟩]⟩
  window := .calculable (.ofMillis 1000) (.ofMillis 1000)
  minMatch := 2

def ackRule : RuleInstance where
  id := "acks"
  kind := .evidence
  scope := .session
  anchor := ⟨"rtx", .event "tcp.retransmission", .alwaysTrue⟩
  correlates := [acks]
  branches := none
  body := []
  annotations := ⟨.ofMillis 1000, .ofMillis 1000, some .session⟩

/-- A host that knows which scopes are the same. -/
def ackHost : Host where
  catalog := ⟨[], [], [], [], [], [], []⟩
  image := .new "acks" [] [ackRule]
  topo := ⟨fun a b => if a = b then .true else .false, fun _ _ => .unknown, fun _ _ => .unknown,
    fun _ _ => .unknown, fun _ _ => .unknown, fun _ _ => .unknown⟩
  mode := .offline
  limits := .default
  problemCooldown := .zero

def tcpEvent (id : EventId) (eventType : EventType) (millis : Int64) : EventNode :=
  .new id eventType ⟨millis⟩ ⟨.session, 7⟩ []

/-- A retransmission between two acknowledgements. -/
def ackStore : GraphStore :=
  [tcpEvent 1 "tcp.ack" 10, tcpEvent 2 "tcp.retransmission" 20, tcpEvent 3 "tcp.ack" 30].foldl
    (GraphStore.pushEvent .default) .new

/-- The retransmission that the rule is anchored at. -/
def rtx : Bound := .event (tcpEvent 2 "tcp.retransmission" 20)

theorem correlates_resolved_acks :
    ∃ bs, (resolveBindings ackHost ∅ ackStore ackRule rtx ⟨.session, 7⟩).1 = .bound rtx :: bs ∧
      bs.length = 1 ∧
      ∀ i spec b, ackRule.correlates[i]? = some spec → bs[i]? = some b →
        Resolved ackHost ∅ ackStore ackRule rtx ⟨.session, 7⟩ (.bound rtx :: bs.take i) spec b :=
  correlates_resolved ackHost ∅ ackStore ackRule rtx ⟨.session, 7⟩ (by decide)

end Adgl
