import NFdl.Lib.OneShot
import NFdl.Runtime.EfsmSessions

/-!
# Timers fire once

What happens to the timers of the engine is written down as a log of one-shot timers: the
calls schedule, cancel and fire them, and a flow that is evicted or expires drops its own.
In every run all timers live through the log.
-/

namespace NFdl

open OneShot (Phase)

/-- A timer is known by its flow and its name. -/
abbrev TimerId : Type := FlowKey × String

abbrev TimerEvent : Type := OneShot.Event TimerId FlowKey

def FiredTimer.id (fired : FiredTimer) : TimerId := (fired.key, fired.timer)

namespace FsmEngine

variable {engine engine' : FsmEngine} {key : FlowKey} {name : String} {t : TimerId}

/-! ### Armed timers -/

def armed (engine : FsmEngine) (t : TimerId) : Option ArmedTimer :=
  (engine.timers.lookup t.1).bind fun armed => armed.lookup t.2

theorem hasTimer_eq : engine.hasTimer key name = (engine.armed (key, name)).isSome := by
  unfold hasTimer armed
  cases engine.timers.lookup key <;> rfl

theorem armed_scheduleTimer (delayTicks : Nat) :
    (engine.scheduleTimer key name delayTicks).armed t =
      if t = (key, name) then
        some ⟨min (engine.timerNow + delayTicks) (2 ^ 64 - 1),
          min (engine.timerSeq + 1) (2 ^ 64 - 1)⟩
      else engine.armed t := by
  obtain ⟨key', name'⟩ := t
  unfold scheduleTimer armed
  by_cases hkey : key' = key
  · subst hkey
    by_cases hname : name' = name
    · subst hname
      simp
    · simp only [AList.lookup_insert, Option.bind_some, AList.lookup_insert_ne hname,
        Prod.mk.injEq, hname, and_false, if_false]
      cases engine.timers.lookup key' <;> rfl
  · simp [AList.lookup_insert_ne hkey, hkey]

theorem lookup_cancelTimer {other : FlowKey} :
    (engine.cancelTimer key name).1.timers.lookup other =
      if other = key then (engine.timers.lookup key).bind fun armed =>
        if (armed.erase name).entries.isEmpty then none else some (armed.erase name)
      else engine.timers.lookup other := by
  unfold cancelTimer
  cases htimers : engine.timers.lookup key with
  | none =>
      by_cases hother : other = key
      · rw [if_pos hother, hother]
        exact htimers
      · rw [if_neg hother]
  | some armed =>
      dsimp only [Option.bind_some]
      by_cases hother : other = key
      · rw [if_pos hother, hother]
        split
        · rw [AList.lookup_erase]
        · rw [AList.lookup_insert]
      · rw [if_neg hother]
        split
        · rw [AList.lookup_erase_ne hother]
        · rw [AList.lookup_insert_ne hother]

theorem armed_cancelTimer :
    (engine.cancelTimer key name).1.armed t = if t = (key, name) then none else engine.armed t := by
  obtain ⟨key', name'⟩ := t
  unfold armed
  rw [lookup_cancelTimer]
  by_cases hkey : key' = key
  · subst hkey
    rw [if_pos rfl]
    cases engine.timers.lookup key' with
    | none => simp
    | some armed =>
        have hrest : (if (armed.erase name).entries.isEmpty then none
            else some (armed.erase name)).bind (fun armed => armed.lookup name') =
              (armed.erase name).lookup name' := by
          split
          · rename_i hempty
            have hnil : armed.erase name = ∅ := AList.ext (List.isEmpty_iff.mp hempty)
            rw [hnil]
            rfl
          · rfl
        dsimp only [Option.bind_some]
        rw [hrest]
        by_cases hname : name' = name
        · subst hname
          rw [AList.lookup_erase, if_pos rfl]
        · rw [AList.lookup_erase_ne hname, if_neg fun heq => hname (congrArg Prod.snd heq)]
  · rw [if_neg hkey, if_neg fun heq => hkey (congrArg Prod.fst heq)]

/-- A feed drops the timers of the flow that it evicts, and no others. -/
theorem armed_feed {msgType : String} {ctx : Env} {r : FsmEngine × String × List FsmEvent}
    (h : engine.feed key msgType ctx = some r) :
    r.1.armed t = if (engine.db.getOrCreate key).2 = some t.1 then none else engine.armed t := by
  obtain ⟨s, -, rfl⟩ := feed_eq_some_iff.mp h
  change (engine.touch key).armed t = _
  unfold touch armed
  generalize engine.db.getOrCreate key = access
  obtain ⟨db, _ | evicted⟩ := access
  · rfl
  · change ((engine.timers.erase evicted).lookup t.1).bind _ = _
    split
    · rename_i heq
      cases heq
      rw [AList.lookup_erase]
      rfl
    · rename_i hne
      rw [AList.lookup_erase_ne fun heq => hne (congrArg some heq.symm)]

theorem feed_clock {msgType : String} {ctx : Env} {r : FsmEngine × String × List FsmEvent}
    (h : engine.feed key msgType ctx = some r) :
    r.1.timerNow = engine.timerNow ∧ r.1.timerSeq = engine.timerSeq := by
  obtain ⟨s, -, rfl⟩ := feed_eq_some_iff.mp h
  change (engine.touch key).timerNow = _ ∧ (engine.touch key).timerSeq = _
  unfold touch
  generalize engine.db.getOrCreate key = access
  obtain ⟨db, _ | evicted⟩ := access <;> exact ⟨rfl, rfl⟩

theorem cancelTimer_clock : (engine.cancelTimer key name).1.timerNow = engine.timerNow ∧
    (engine.cancelTimer key name).1.timerSeq = engine.timerSeq := by
  unfold cancelTimer
  split <;> exact ⟨rfl, rfl⟩

theorem foldl_dropFlowMaps_timers (keys : List FlowKey) (engine : FsmEngine) :
    (keys.foldl dropFlowMaps engine).timerNow = engine.timerNow ∧
    (keys.foldl dropFlowMaps engine).timerSeq = engine.timerSeq ∧
    ∀ t, (keys.foldl dropFlowMaps engine).armed t =
      if t.1 ∈ keys then none else engine.armed t := by
  induction keys generalizing engine with
  | nil => exact ⟨rfl, rfl, fun _ => rfl⟩
  | cons key keys ih =>
      obtain ⟨hnow, hseq, harmed⟩ := ih (engine.dropFlowMaps key)
      refine ⟨hnow, hseq, fun t => (harmed t).trans ?_⟩
      by_cases hkeys : t.1 ∈ keys
      · rw [if_pos hkeys, if_pos (List.mem_cons_of_mem _ hkeys)]
      · rw [if_neg hkeys]
        unfold armed dropFlowMaps
        by_cases hkey : t.1 = key
        · rw [if_pos (hkey ▸ List.mem_cons_self), hkey, AList.lookup_erase]
          rfl
        · rw [if_neg (List.not_mem_cons_of_ne_of_not_mem hkey hkeys), AList.lookup_erase_ne hkey]

theorem expireIdle_timers (timeout : Nat) :
    (engine.expireIdle timeout).1.timerNow = engine.timerNow ∧
    (engine.expireIdle timeout).1.timerSeq = engine.timerSeq ∧
    ∀ t, (engine.expireIdle timeout).1.armed t =
      if t.1 ∈ engine.expiredKeys (engine.db.clock - timeout) then none else engine.armed t :=
  foldl_dropFlowMaps_timers (engine.expiredKeys (engine.db.clock - timeout))
    { engine with db := (engine.db.expireOlderThan (engine.db.clock - timeout)).1 }

/-! ### Due timers -/

theorem mem_dueTimers {d : ArmedTimer × TimerId} :
    d ∈ engine.dueTimers ↔ engine.armed d.2 = some d.1 ∧ d.1.deadline ≤ engine.timerNow := by
  obtain ⟨a, key, name⟩ := d
  unfold dueTimers armed
  rw [List.mem_mergeSort, List.mem_flatMap]
  constructor
  · rintro ⟨⟨key', armed⟩, hflow, hmem⟩
    obtain ⟨⟨name', a'⟩, htimer, heq⟩ := List.mem_map.mp hmem
    cases heq
    obtain ⟨htimer, hdue⟩ := List.mem_filter.mp htimer
    refine ⟨?_, of_decide_eq_true hdue⟩
    rw [AList.mem_lookup_iff.mpr hflow]
    exact AList.mem_lookup_iff.mpr htimer
  · rintro ⟨hlookup, hdue⟩
    obtain ⟨armed, hflow, htimer⟩ := Option.bind_eq_some_iff.mp hlookup
    exact ⟨⟨key, armed⟩, AList.mem_lookup_iff.mp hflow, List.mem_map.mpr ⟨⟨name, a⟩,
      List.mem_filter.mpr ⟨AList.mem_lookup_iff.mp htimer, decide_eq_true hdue⟩, rfl⟩⟩

theorem nodup_dueTimers (engine : FsmEngine) : (engine.dueTimers.map Prod.snd).Nodup := by
  unfold dueTimers
  rw [((List.mergeSort_perm _ _).map Prod.snd).nodup_iff, List.map_flatMap, List.nodup_flatMap]
  constructor
  · rintro ⟨key, armed⟩ -
    rw [List.map_map]
    refine List.Nodup.map_on ?_ (armed.nodupKeys.nodup.filter _)
    rintro ⟨name, a⟩ hmem ⟨name', a'⟩ hmem' heq
    cases congrArg Prod.snd heq
    have ha := AList.mem_lookup_iff.mpr (List.mem_filter.mp hmem).1
    have ha' := AList.mem_lookup_iff.mpr (List.mem_filter.mp hmem').1
    cases Option.mem_unique ha ha'
    rfl
  · refine (List.nodupKeys_iff_pairwise.mp engine.timers.nodupKeys).imp fun hne => ?_
    intro id hmem hmem'
    dsimp only at hmem hmem'
    rw [List.map_map] at hmem hmem'
    obtain ⟨_, -, rfl⟩ := List.mem_map.mp hmem
    obtain ⟨_, -, heq⟩ := List.mem_map.mp hmem'
    exact hne (congrArg Prod.fst heq).symm

/-- Due timers are fired by deadline, and those of one deadline by age. -/
theorem pairwise_dueTimers (engine : FsmEngine) :
    engine.dueTimers.Pairwise fun a b => a.1.deadline < b.1.deadline ∨
      a.1.deadline = b.1.deadline ∧ a.1.insertionId ≤ b.1.insertionId := by
  unfold dueTimers
  refine (List.pairwise_mergeSort ?_ ?_ _).imp fun h => ?_
  · intro a b c hab hbc
    simp only [Bool.or_eq_true, Bool.and_eq_true, decide_eq_true_eq, beq_iff_eq] at *
    omega
  · intro a b
    simp only [Bool.or_eq_true, Bool.and_eq_true, decide_eq_true_eq, beq_iff_eq]
    omega
  · simpa using h

/-! ### The log -/

/-- A flow that is fed may drop another one. -/
def evictions (engine : FsmEngine) (key : FlowKey) : List TimerEvent :=
  (engine.db.getOrCreate key).2.toList.map .dropped

/-- A timer that was fired may have its flow evict another one. -/
def fireEvents (engine : FsmEngine) (id : TimerId) : List FiredTimer → List TimerEvent
  | [] => []
  | _ :: _ => .fired id :: (engine.cancelTimer id.1 id.2).1.evictions id.1

/-- What happens while the timers of a list are fired. -/
def firedLog (engine : FsmEngine) : List (ArmedTimer × TimerId) → List TimerEvent
  | [] => []
  | due :: rest =>
      match fireTimer (engine, []) due with
      | none => []
      | some (engine', new) => engine.fireEvents due.2 new ++ engine'.firedLog rest

/-- What happens when the due timers are fired. -/
def roundLog (engine : FsmEngine) : List TimerEvent :=
  .round engine.timerNow :: (engine.firedLog engine.dueTimers ++ [.settled])

/-- What a call does to timers. -/
def timerLog (engine : FsmEngine) : FsmCall → List TimerEvent
  | .feed key _ _ => engine.evictions key
  | .scheduleTimer key name delayTicks =>
      [.scheduled (key, name) (min (engine.timerNow + delayTicks) (2 ^ 64 - 1))]
  | .cancelTimer key name => [.cancelled (key, name)]
  | .advanceAndFire ticks => (engine.advanceTimers ticks).roundLog
  | .fireDueTimers => engine.roundLog
  | .expireIdle idleTimeoutTicks =>
      (engine.expiredKeys (engine.db.clock - idleTimeoutTicks)).map .dropped

/-- The calls that fire timers, with the timers that they return. -/
def fires (engine : FsmEngine) : FsmCall → Option (FsmEngine × List FiredTimer)
  | .advanceAndFire ticks => engine.advanceAndFire ticks
  | .fireDueTimers => engine.fireDueTimers
  | _ => none

/-- The engines that a run of calls reaches, with the log of their timers. Between two calls
the hash maps may be iterated in another order. -/
inductive TimerRun (maxSessions : Nat) (sms : List StateMachine) :
    FsmEngine → List TimerEvent → Prop
  | loaded : TimerRun maxSessions sms (.loaded maxSessions sms) []
  | call {engine engine' : FsmEngine} {log : List TimerEvent} {fed : List FlowKey} {c : FsmCall}
      (h : TimerRun maxSessions sms engine log) (hcall : engine.call c = some (engine', fed)) :
      TimerRun maxSessions sms engine' (log ++ engine.timerLog c)
  | rehash {engine engine' : FsmEngine} {log : List TimerEvent}
      (h : TimerRun maxSessions sms engine log) (hsame : engine.Rehashed engine') :
      TimerRun maxSessions sms engine' log

/-! ### Timers live through the log -/

/-- The phase of a timer while the timers of a list are still to be fired. -/
def phaseWithin (engine : FsmEngine) (remaining : List TimerId) (t : TimerId) : Phase :=
  match engine.armed t with
  | none => .idle
  | some a => if t ∈ remaining then .due else .armed a.deadline

def phase (engine : FsmEngine) (t : TimerId) : Phase := engine.phaseWithin [] t

theorem phase_eq_idle (h : engine.armed t = none) (remaining : List TimerId) :
    engine.phaseWithin remaining t = .idle := by
  unfold phaseWithin
  rw [h]

/-- Only the armed timer and its place in the list matter. -/
theorem phaseWithin_congr {remaining remaining' : List TimerId}
    (harmed : engine'.armed t = engine.armed t) (hmem : t ∈ remaining' ↔ t ∈ remaining) :
    engine'.phaseWithin remaining' t = engine.phaseWithin remaining t := by
  unfold phaseWithin
  rw [harmed]
  simp only [hmem]

/-- An eviction makes the timers of the flow idle. -/
theorem evictions_foldlM (p : Phase) :
    (engine.evictions key).foldlM (Phase.next Prod.fst t) p =
      some (if (engine.db.getOrCreate key).2 = some t.1 then .idle else p) := by
  unfold evictions
  cases (engine.db.getOrCreate key).2 with
  | none => rfl
  | some evicted =>
      simp only [Option.toList_some, List.map_singleton, List.foldlM_cons, List.foldlM_nil,
        Phase.next, Option.bind_eq_bind, Option.bind_some, Option.some.injEq]
      rfl

/-- How a due timer is fired: it is skipped when it is armed no more, and otherwise it is
disarmed and its flow is fed. -/
inductive Fires (engine : FsmEngine) (id : TimerId) : FsmEngine → List FiredTimer → Prop
  | skip (h : engine.armed id = none) : Fires engine id engine []
  | fire {r : FsmEngine × String × List FsmEvent} (h : (engine.armed id).isSome)
      (hfeed : (engine.cancelTimer id.1 id.2).1.feed id.1 ("timer:" ++ id.2)
        (fun _ => none) = some r) : Fires engine id r.1 [⟨id.1, id.2, r.2.1, r.2.2⟩]

theorem fireTimer_fires {fired : List FiredTimer} {due : ArmedTimer × TimerId}
    {state : FsmEngine × List FiredTimer} (h : fireTimer (engine, fired) due = some state) :
    ∃ new, engine.Fires due.2 state.1 new ∧ state.2 = fired ++ new ∧
      fireTimer (engine, []) due = some (state.1, new) := by
  unfold fireTimer at h ⊢
  dsimp only at h ⊢
  rw [hasTimer_eq] at h ⊢
  by_cases harmed : (engine.armed due.2).isSome
  · rw [if_pos harmed] at h ⊢
    obtain ⟨r, hr, heq⟩ := Option.bind_eq_some_iff.mp h
    cases heq
    refine ⟨_, .fire harmed hr, rfl, ?_⟩
    rw [hr]
    rfl
  · rw [if_neg harmed] at h ⊢
    cases h
    exact ⟨[], .skip (by simpa using harmed), (List.append_nil _).symm, rfl⟩

theorem firedLog_cons {due : ArmedTimer × TimerId} {rest : List (ArmedTimer × TimerId)}
    {new : List FiredTimer} (h : fireTimer (engine, []) due = some (engine', new)) :
    engine.firedLog (due :: rest) = engine.fireEvents due.2 new ++ engine'.firedLog rest := by
  rw [firedLog, h]

/-- A timer that is fired is idle afterwards, and the others are as they were unless their flow
was evicted. -/
theorem fires_foldlM {id : TimerId} {rest : List TimerId} (hid : id ∉ rest) {new : List FiredTimer}
    (h : engine.Fires id engine' new) :
    (engine.fireEvents id new).foldlM (Phase.next Prod.fst t) (engine.phaseWithin (id :: rest) t) =
      some (engine'.phaseWithin rest t) := by
  cases h with
  | skip harmed =>
      refine congrArg some ?_
      by_cases ht : t = id
      · subst ht
        rw [phase_eq_idle harmed, phase_eq_idle harmed]
      · exact (phaseWithin_congr rfl (by simp [ht])).symm
  | @fire r harmed hfeed =>
      have hafter : r.1.armed t = if ((engine.cancelTimer id.1 id.2).1.db.getOrCreate id.1).2 =
          some t.1 then none else if t = id then none else engine.armed t := by
        rw [armed_feed hfeed, armed_cancelTimer]
      have hfired : (engine.phaseWithin (id :: rest) t).next Prod.fst t (.fired id) =
          some (if t = id then .idle else engine.phaseWithin (id :: rest) t) := by
        rw [Phase.next]
        by_cases ht : t = id
        · subst ht
          obtain ⟨a, ha⟩ := Option.isSome_iff_exists.mp harmed
          have hdue : engine.phaseWithin (t :: rest) t = .due := by
            unfold phaseWithin
            rw [ha]
            exact if_pos List.mem_cons_self
          rw [hdue, if_pos rfl, if_pos rfl, if_pos rfl]
        · rw [if_neg (Ne.symm ht), if_neg ht]
      rw [fireEvents, List.foldlM_cons, hfired]
      refine (evictions_foldlM _).trans (congrArg some ?_)
      split
      · rename_i hevicted
        rw [if_pos hevicted] at hafter
        exact (phase_eq_idle hafter rest).symm
      · rename_i hkept
        rw [if_neg hkept] at hafter
        by_cases ht : t = id
        · rw [if_pos ht] at hafter ⊢
          exact (phase_eq_idle hafter rest).symm
        · rw [if_neg ht] at hafter ⊢
          exact (phaseWithin_congr hafter (by simp [ht])).symm

theorem firedLog_foldlM {due : List (ArmedTimer × TimerId)} (hnodup : (due.map Prod.snd).Nodup)
    {fired fired' : List FiredTimer}
    (h : due.foldlM fireTimer (engine, fired) = some (engine', fired')) :
    (engine.firedLog due).foldlM (Phase.next Prod.fst t) (engine.phaseWithin (due.map Prod.snd) t) =
      some (engine'.phase t) := by
  induction due generalizing engine fired with
  | nil =>
      cases h
      rfl
  | cons first rest ih =>
      rw [List.map_cons, List.nodup_cons] at hnodup
      rw [List.foldlM_cons] at h
      obtain ⟨⟨engine₁, fired₁⟩, hfirst, hrest⟩ := Option.bind_eq_some_iff.mp h
      obtain ⟨new, hfires, -, hnew⟩ := fireTimer_fires hfirst
      rw [firedLog_cons hnew, List.foldlM_append, List.map_cons, fires_foldlM hnodup.1 hfires]
      exact ih hnodup.2 hrest

theorem phase_of_armed {a : ArmedTimer} (h : engine.armed t = some a) :
    engine.phase t = .armed a.deadline := by
  unfold phase phaseWithin
  rw [h]
  exact if_neg List.not_mem_nil

theorem phase_ne_due (engine : FsmEngine) (t : TimerId) : engine.phase t ≠ .due := by
  cases h : engine.armed t with
  | none =>
      rw [phase, phase_eq_idle h]
      nofun
  | some a =>
      rw [phase_of_armed h]
      nofun

theorem phase_congr (h : engine'.armed t = engine.armed t) : engine'.phase t = engine.phase t :=
  phaseWithin_congr h Iff.rfl

/-- Some timers are disarmed and the others stay as they are. -/
theorem phase_eq_ite {c : Prop} [Decidable c]
    (h : engine'.armed t = if c then none else engine.armed t) :
    engine'.phase t = if c then .idle else engine.phase t := by
  by_cases hc : c
  · rw [if_pos hc] at h ⊢
    exact phase_eq_idle h []
  · rw [if_neg hc] at h ⊢
    exact phase_congr h

/-- A round makes the armed timers due whose deadlines it has reached. -/
theorem round_phase (engine : FsmEngine) (t : TimerId) :
    (engine.phase t).next Prod.fst t (.round engine.timerNow : TimerEvent) =
      some (engine.phaseWithin (engine.dueTimers.map Prod.snd) t) := by
  cases h : engine.armed t with
  | none =>
      rw [phase, phase_eq_idle h, phase_eq_idle h]
      rfl
  | some a =>
      have hdue : t ∈ engine.dueTimers.map Prod.snd ↔ a.deadline ≤ engine.timerNow := by
        rw [List.mem_map]
        constructor
        · rintro ⟨d, hd, rfl⟩
          obtain ⟨harmed, hle⟩ := mem_dueTimers.mp hd
          cases h.symm.trans harmed
          exact hle
        · exact fun hle => ⟨(a, t), mem_dueTimers.mpr ⟨h, hle⟩, rfl⟩
      rw [phase_of_armed h]
      unfold phaseWithin
      rw [h]
      simp only [hdue]
      rfl

theorem roundLog_foldlM {fired : List FiredTimer}
    (h : engine.fireDueTimers = some (engine', fired)) :
    engine.roundLog.foldlM (Phase.next Prod.fst t) (engine.phase t) = some (engine'.phase t) := by
  unfold roundLog
  rw [List.foldlM_cons, round_phase]
  change (engine.firedLog engine.dueTimers ++ [OneShot.Event.settled]).foldlM _ _ = _
  rw [List.foldlM_append, firedLog_foldlM engine.nodup_dueTimers h]
  change (engine'.phase t).next Prod.fst t (.settled : TimerEvent) >>= some = _
  rw [Phase.next, if_neg (engine'.phase_ne_due t)]
  rfl

theorem dropped_foldlM (keys : List FlowKey) (p : Phase) :
    (keys.map .dropped : List TimerEvent).foldlM (Phase.next Prod.fst t) p =
      some (if t.1 ∈ keys then .idle else p) := by
  induction keys generalizing p with
  | nil => rfl
  | cons key keys ih =>
      rw [List.map_cons, List.foldlM_cons, Phase.next]
      refine (ih _).trans (congrArg some ?_)
      by_cases hkeys : t.1 ∈ keys
      · rw [if_pos hkeys, if_pos (List.mem_cons_of_mem _ hkeys)]
      · by_cases hkey : key = t.1
        · rw [if_neg hkeys, if_pos hkey, if_pos (hkey ▸ List.mem_cons_self)]
        · rw [if_neg hkeys, if_neg hkey,
            if_neg (List.not_mem_cons_of_ne_of_not_mem (Ne.symm hkey) hkeys)]

/-- A call takes every timer from its phase before to its phase after. -/
theorem timerLog_foldlM {c : FsmCall} {fed : List FlowKey}
    (h : engine.call c = some (engine', fed)) :
    (engine.timerLog c).foldlM (Phase.next Prod.fst t) (engine.phase t) =
      some (engine'.phase t) := by
  cases c with
  | feed key msgType ctx =>
      obtain ⟨r, hr, heq⟩ := Option.map_eq_some_iff.mp h
      cases heq
      rw [phase_eq_ite (armed_feed hr)]
      exact evictions_foldlM _
  | scheduleTimer key name delayTicks =>
      cases h
      have harmed := @armed_scheduleTimer engine key name t delayTicks
      rw [timerLog, List.foldlM_cons, Phase.next]
      refine congrArg some ?_
      by_cases ht : t = (key, name)
      · rw [if_pos ht] at harmed
        rw [if_pos ht.symm, phase_of_armed harmed]
      · rw [if_neg ht] at harmed
        rw [if_neg (Ne.symm ht), phase_congr harmed]
  | cancelTimer key name =>
      cases h
      rw [timerLog, List.foldlM_cons, Phase.next, phase_eq_ite armed_cancelTimer]
      exact congrArg some (if_congr eq_comm rfl rfl)
  | advanceAndFire ticks =>
      obtain ⟨⟨fired, timers⟩, hr, heq⟩ := Option.map_eq_some_iff.mp h
      cases heq
      exact roundLog_foldlM hr
  | fireDueTimers =>
      obtain ⟨⟨fired, timers⟩, hr, heq⟩ := Option.map_eq_some_iff.mp h
      cases heq
      exact roundLog_foldlM hr
  | expireIdle timeout =>
      cases h
      obtain ⟨-, -, harmed⟩ := engine.expireIdle_timers timeout
      rw [phase_eq_ite (harmed t)]
      exact dropped_foldlM _ _

theorem armed_rehash (h : engine.Rehashed engine') : engine'.armed t = engine.armed t := by
  unfold armed
  have htimers := h.timers t.1
  revert htimers
  cases engine.timers.lookup t.1 with
  | none =>
      cases engine'.timers.lookup t.1 with
      | none => exact fun _ => rfl
      | some armed' => rintro ⟨⟩
  | some armed =>
      cases engine'.timers.lookup t.1 with
      | none => rintro ⟨⟩
      | some armed' =>
          rintro ⟨hperm⟩
          exact AList.perm_lookup hperm

theorem timers_loaded (maxSessions : Nat) (sms : List StateMachine) :
    (loaded maxSessions sms).timers = ∅ ∧ (loaded maxSessions sms).timerSeq = 0 := by
  have hfold : ∀ (sms : List StateMachine) (engine : FsmEngine),
      (sms.foldl loadMachine engine).timers = engine.timers ∧
        (sms.foldl loadMachine engine).timerSeq = engine.timerSeq := by
    intro sms
    induction sms with
    | nil => exact fun _ => ⟨rfl, rfl⟩
    | cons sm rest ih => exact fun engine => ih _
  exact hfold sms _

theorem armed_loaded (maxSessions : Nat) (sms : List StateMachine) (t : TimerId) :
    (loaded maxSessions sms).armed t = none := by
  unfold armed
  rw [(timers_loaded maxSessions sms).1]
  rfl

/-- In a run every timer is in the phase that the log has brought it to. -/
theorem TimerRun.foldlM_phase {maxSessions : Nat} {sms : List StateMachine}
    {log : List TimerEvent} (h : TimerRun maxSessions sms engine log) (t : TimerId) :
    log.foldlM (Phase.next Prod.fst t) .idle = some (engine.phase t) := by
  induction h with
  | loaded => rw [phase, phase_eq_idle (armed_loaded maxSessions sms t)]; rfl
  | call _ hcall ih =>
      rw [List.foldlM_append, ih]
      exact timerLog_foldlM hcall
  | rehash _ hsame ih => rw [ih, phase_congr (armed_rehash hsame)]

/-! ### The order of firing -/

variable {log : List TimerEvent}

/-- What the engine knows of its timers: how many were scheduled, and for each armed one when
it was scheduled last. -/
structure Timed (engine : FsmEngine) (log : List TimerEvent) : Prop where
  seq : engine.timerSeq = min (log.countP OneShot.Event.isScheduled) (2 ^ 64 - 1)
  last : ∀ t a, engine.armed t = some a →
    ∃ n, OneShot.LastScheduled t log a.deadline n ∧ a.insertionId = min (n + 1) (2 ^ 64 - 1)

/-- An engine that has armed no timer since. -/
structure ArmsNone (engine engine' : FsmEngine) : Prop where
  seq : engine'.timerSeq = engine.timerSeq
  armed : ∀ t a, engine'.armed t = some a → engine.armed t = some a

theorem Timed.of_armsNone (h : engine.Timed log) (hnone : engine.ArmsNone engine')
    {more : List TimerEvent} (hmore : ∀ e ∈ more, e.isScheduled = false) :
    engine'.Timed (log ++ more) := by
  constructor
  · rw [hnone.seq, h.seq, List.countP_append,
      List.countP_eq_zero.mpr fun e he => Bool.eq_false_iff.mp (hmore e he), Nat.add_zero]
  · intro t a ha
    obtain ⟨n, hlast, hid⟩ := h.last t a (hnone.armed t a ha)
    refine ⟨n, hlast.append fun d hd => ?_, hid⟩
    cases hmore _ hd

/-- Disarming some timers arms none. -/
theorem ArmsNone.of_ite {c : TimerId → Prop} [DecidablePred c]
    (hseq : engine'.timerSeq = engine.timerSeq)
    (harmed : ∀ t, engine'.armed t = if c t then none else engine.armed t) :
    engine.ArmsNone engine' := by
  refine ⟨hseq, fun t a ha => ?_⟩
  rw [harmed t] at ha
  split at ha
  · cases ha
  · exact ha

theorem feed_armsNone {msgType : String} {ctx : Env} {r : FsmEngine × String × List FsmEvent}
    (h : engine.feed key msgType ctx = some r) : engine.ArmsNone r.1 :=
  .of_ite (feed_clock h).2 fun _ => armed_feed h

theorem cancelTimer_armsNone : engine.ArmsNone (engine.cancelTimer key name).1 :=
  .of_ite cancelTimer_clock.2 fun _ => armed_cancelTimer

theorem ArmsNone.trans {engine'' : FsmEngine} (h : engine.ArmsNone engine')
    (h' : engine'.ArmsNone engine'') : engine.ArmsNone engine'' :=
  ⟨h'.seq.trans h.seq, fun t a ha => h.armed t a (h'.armed t a ha)⟩

theorem firing_armsNone {due : List (ArmedTimer × TimerId)} {fired : List FiredTimer}
    (hfire : due.foldlM fireTimer (engine, []) = some (engine', fired)) :
    engine.ArmsNone engine' :=
  firing_invariant (P := fun engine' => engine.ArmsNone engine')
    (fun _ _ _ _ _ _ h _ hfeed => (h.trans cancelTimer_armsNone).trans (feed_armsNone hfeed))
    ⟨rfl, fun _ _ ha => ha⟩ hfire

theorem evictions_isScheduled : ∀ e ∈ engine.evictions key, e.isScheduled = false := by
  intro e he
  obtain ⟨key', -, rfl⟩ := List.mem_map.mp he
  rfl

theorem firedLog_isScheduled (due : List (ArmedTimer × TimerId)) :
    ∀ e ∈ engine.firedLog due, e.isScheduled = false := by
  induction due generalizing engine with
  | nil => exact fun _ he => nomatch he
  | cons first rest ih =>
      intro e he
      rw [firedLog] at he
      split at he
      · cases he
      · rename_i engine' new _
        obtain he | he := List.mem_append.mp he
        · cases new with
          | nil => cases he
          | cons fired new =>
              obtain rfl | he := List.mem_cons.mp he
              · rfl
              · exact evictions_isScheduled e he
        · exact ih e he

theorem roundLog_isScheduled : ∀ e ∈ engine.roundLog, e.isScheduled = false := by
  intro e he
  obtain rfl | he := List.mem_cons.mp he
  · rfl
  · obtain he | he := List.mem_append.mp he
    · exact firedLog_isScheduled _ e he
    · cases List.mem_singleton.mp he
      rfl

theorem Timed.scheduleTimer (h : engine.Timed log) (key : FlowKey) (name : String)
    (delayTicks : Nat) : (engine.scheduleTimer key name delayTicks).Timed (log ++
      [.scheduled (key, name) (min (engine.timerNow + delayTicks) (2 ^ 64 - 1))]) := by
  constructor
  · rw [List.countP_append, List.countP_singleton]
    change min (engine.timerSeq + 1) (2 ^ 64 - 1) = min (_ + 1) (2 ^ 64 - 1)
    rw [h.seq]
    omega
  · intro t a ha
    rw [armed_scheduleTimer] at ha
    split at ha
    · rename_i ht
      cases ht
      cases ha
      refine ⟨_, OneShot.lastScheduled_concat _ _ _, ?_⟩
      dsimp only
      rw [h.seq]
      omega
    · rename_i ht
      obtain ⟨n, hlast, hid⟩ := h.last t a ha
      refine ⟨n, hlast.append fun d hd => ht ?_, hid⟩
      cases List.mem_singleton.mp hd
      rfl

theorem Timed.call (h : engine.Timed log) {c : FsmCall} {fed : List FlowKey}
    (hcall : engine.call c = some (engine', fed)) : engine'.Timed (log ++ engine.timerLog c) := by
  cases c with
  | feed key msgType ctx =>
      obtain ⟨r, hr, heq⟩ := Option.map_eq_some_iff.mp hcall
      cases heq
      exact h.of_armsNone (feed_armsNone hr) evictions_isScheduled
  | scheduleTimer key name delayTicks =>
      cases hcall
      exact h.scheduleTimer key name delayTicks
  | cancelTimer key name =>
      cases hcall
      refine h.of_armsNone cancelTimer_armsNone fun e he => ?_
      cases List.mem_singleton.mp he
      rfl
  | advanceAndFire ticks =>
      obtain ⟨⟨fired, timers⟩, hr, heq⟩ := Option.map_eq_some_iff.mp hcall
      cases heq
      have hadvanced : engine.ArmsNone (engine.advanceTimers ticks) := ⟨rfl, fun _ _ ha => ha⟩
      exact h.of_armsNone (hadvanced.trans (firing_armsNone hr)) roundLog_isScheduled
  | fireDueTimers =>
      obtain ⟨⟨fired, timers⟩, hr, heq⟩ := Option.map_eq_some_iff.mp hcall
      cases heq
      exact h.of_armsNone (firing_armsNone hr) roundLog_isScheduled
  | expireIdle timeout =>
      cases hcall
      obtain ⟨-, hseq, harmed⟩ := engine.expireIdle_timers timeout
      refine h.of_armsNone (.of_ite hseq harmed) fun e he => ?_
      obtain ⟨key, -, rfl⟩ := List.mem_map.mp he
      rfl

theorem TimerRun.timed {maxSessions : Nat} {sms : List StateMachine}
    (h : TimerRun maxSessions sms engine log) : engine.Timed log := by
  induction h with
  | loaded =>
      refine ⟨(timers_loaded maxSessions sms).2, fun t a ha => ?_⟩
      rw [armed_loaded] at ha
      cases ha
  | call _ hcall ih => exact ih.call hcall
  | rehash _ hsame ih =>
      refine ⟨hsame.timerSeq.trans ih.seq, fun t a ha => ?_⟩
      rw [armed_rehash hsame] at ha
      exact ih.last t a ha

/-- What a firing returns is what it logs, and it is a part of what was due. -/
theorem firing_fired {due : List (ArmedTimer × TimerId)} {fired fired' : List FiredTimer}
    (hfire : due.foldlM fireTimer (engine, fired) = some (engine', fired')) :
    ∃ new, fired' = fired ++ new ∧ (new.map FiredTimer.id).Sublist (due.map Prod.snd) ∧
      (engine.firedLog due).filterMap OneShot.Event.fired? = new.map FiredTimer.id := by
  have hevictions : ∀ (engine : FsmEngine) (key : FlowKey),
      (engine.evictions key).filterMap OneShot.Event.fired? = [] := by
    intro engine key
    refine List.filterMap_eq_nil_iff.mpr fun e he => ?_
    obtain ⟨key', -, rfl⟩ := List.mem_map.mp he
    rfl
  induction due generalizing engine fired with
  | nil =>
      cases hfire
      exact ⟨[], (List.append_nil _).symm, .slnil, rfl⟩
  | cons first rest ih =>
      rw [List.foldlM_cons] at hfire
      obtain ⟨⟨engine₁, fired₁⟩, hfirst, hrest⟩ := Option.bind_eq_some_iff.mp hfire
      obtain ⟨new, hfires, rfl, hnew⟩ := fireTimer_fires hfirst
      obtain ⟨more, rfl, hsublist, hlog⟩ := ih hrest
      refine ⟨new ++ more, List.append_assoc _ _ _, ?_, ?_⟩
      · cases hfires with
        | skip harmed => exact hsublist.cons _
        | fire harmed hfeed => exact hsublist.cons_cons _
      · rw [firedLog_cons hnew, List.filterMap_append, hlog, List.map_append]
        cases hfires with
        | skip harmed => rfl
        | fire harmed hfeed =>
            rw [fireEvents, List.filterMap_cons]
            dsimp only [OneShot.Event.fired?]
            rw [hevictions]
            rfl

/-- A timer that was last scheduled is one of the log's. -/
theorem Timed.lastScheduled (h : engine.Timed log) {d : ArmedTimer × TimerId}
    (hd : d ∈ engine.dueTimers) : ∃ n, OneShot.LastScheduled d.2 log d.1.deadline n ∧
      d.1.insertionId = min (n + 1) (2 ^ 64 - 1) :=
  h.last d.2 d.1 (mem_dueTimers.mp hd).1

theorem Timed.pairwise_notAfter (h : engine.Timed log) :
    (engine.dueTimers.map Prod.snd).Pairwise (OneShot.NotAfter log) := by
  rw [List.pairwise_map]
  refine engine.pairwise_dueTimers.imp_of_mem fun {a b} ha hb hab => ?_
  obtain ⟨n, hlast, -⟩ := h.lastScheduled ha
  obtain ⟨n', hlast', -⟩ := h.lastScheduled hb
  exact ⟨_, n, _, n', hlast, hlast', by omega⟩

theorem Timed.pairwise_precedes (h : engine.Timed log)
    (hcount : log.countP OneShot.Event.isScheduled < 2 ^ 64) :
    (engine.dueTimers.map Prod.snd).Pairwise (OneShot.Precedes log) := by
  have hnodup := engine.nodup_dueTimers
  rw [List.Nodup, List.pairwise_map] at hnodup
  rw [List.pairwise_map]
  refine (engine.pairwise_dueTimers.and hnodup).imp_of_mem fun {a b} ha hb hab => ?_
  obtain ⟨hab, hne⟩ := hab
  obtain ⟨n, hlast, hid⟩ := h.lastScheduled ha
  obtain ⟨n', hlast', hid'⟩ := h.lastScheduled hb
  have hn : n ≠ n' := by
    rintro rfl
    exact hne (hlast.inj hlast')
  have hlt := hlast.lt
  have hlt' := hlast'.lt
  exact ⟨_, n, _, n', hlast, hlast', by omega⟩

/-- What a round returns is what it logs, in the order of the timers that were due. -/
theorem Timed.fireDueTimers (h : engine.Timed log) {fired : List FiredTimer}
    (hfire : engine.fireDueTimers = some (engine', fired)) :
    engine.roundLog.filterMap OneShot.Event.fired? = fired.map FiredTimer.id ∧
      (fired.map FiredTimer.id).Pairwise (OneShot.NotAfter log) ∧
      (log.countP OneShot.Event.isScheduled < 2 ^ 64 →
        (fired.map FiredTimer.id).Pairwise (OneShot.Precedes log)) := by
  obtain ⟨new, hnew, hsublist, hlog⟩ := firing_fired hfire
  rw [List.nil_append] at hnew
  subst hnew
  refine ⟨?_, h.pairwise_notAfter.sublist hsublist,
    fun hcount => (h.pairwise_precedes hcount).sublist hsublist⟩
  unfold roundLog
  rw [List.filterMap_cons, List.filterMap_append, hlog]
  exact List.append_nil _

/-- In every run each scheduled timer that is not cancelled, scheduled anew or dropped with its
flow fires once, in the first round that reaches its deadline. A round fires by deadline, and as
long as the counter of timers has not saturated, by age among equal deadlines. -/
theorem timers_fire_once {maxSessions : Nat} {sms : List StateMachine}
    (h : TimerRun maxSessions sms engine log) :
    OneShot.FiresOnce Prod.fst log ∧
    ∀ c engine' fired, engine.fires c = some (engine', fired) →
      (engine.timerLog c).filterMap OneShot.Event.fired? = fired.map FiredTimer.id ∧
      (fired.map FiredTimer.id).Pairwise (OneShot.NotAfter log) ∧
      (log.countP OneShot.Event.isScheduled < 2 ^ 64 →
        (fired.map FiredTimer.id).Pairwise (OneShot.Precedes log)) := by
  have htimed := h.timed
  refine ⟨OneShot.firesOnce_of_lives fun t =>
    ⟨engine.phase t, h.foldlM_phase t, engine.phase_ne_due t⟩, fun c engine' fired hfires => ?_⟩
  cases c with
  | advanceAndFire ticks =>
      have hadvanced : (engine.advanceTimers ticks).Timed log := ⟨htimed.seq, htimed.last⟩
      exact hadvanced.fireDueTimers hfires
  | fireDueTimers => exact htimed.fireDueTimers hfires
  | feed | scheduleTimer | cancelTimer | expireIdle => cases hfires

/-! ### The counter of timers saturates -/

/-- An engine that has scheduled one timer a number of times. -/
def rearmed (n : Nat) : FsmEngine :=
  { loaded 1 [] with
    timers := AList.singleton (.pack [1]) (AList.singleton "a" ⟨0, n⟩)
    timerSeq := n }

theorem scheduleTimer_rearmed (n : Nat) (h : n + 1 < 2 ^ 64) :
    (rearmed n).scheduleTimer (.pack [1]) "a" 0 = rearmed (n + 1) := by
  have hseq : min (n + 1) (2 ^ 64 - 1) = n + 1 := by omega
  have hlookup : (rearmed n).timers.lookup (.pack [1]) = some (AList.singleton "a" ⟨0, n⟩) := by
    unfold rearmed
    rw [← AList.insert_empty, AList.lookup_insert]
  unfold scheduleTimer
  rw [hlookup]
  dsimp only [Option.getD_some, rearmed]
  rw [AList.insert_singleton_eq, AList.insert_singleton_eq, hseq]
  rfl

theorem rearmed_run (n : Nat) (h : n + 1 < 2 ^ 64) :
    TimerRun 1 [] (rearmed (n + 1)) (List.replicate (n + 1) (.scheduled (.pack [1], "a") 0)) := by
  induction n with
  | zero => exact .call (c := .scheduleTimer (.pack [1]) "a" 0) .loaded rfl
  | succ n ih =>
      have hcall : (rearmed (n + 1)).call (.scheduleTimer (.pack [1]) "a" 0) =
          some (rearmed (n + 2), []) :=
        congrArg (fun engine => some (engine, [])) (scheduleTimer_rearmed (n + 1) h)
      rw [List.replicate_succ']
      exact (ih (by omega)).call hcall

/-- A timer that is due at once is fired, and with it the whole round is in order. -/
theorem timers_fire_once_rearmed : ∃ engine' fired,
    (rearmed 1).fires .fireDueTimers = some (engine', fired) ∧
      fired.map FiredTimer.id = [(.pack [1], "a")] ∧
      OneShot.FiresOnce Prod.fst [(.scheduled (.pack [1], "a") 0 : TimerEvent)] ∧
      (fired.map FiredTimer.id).Pairwise
        (OneShot.Precedes [(.scheduled (.pack [1], "a") 0 : TimerEvent)]) := by
  have hrun := rearmed_run 0 (by decide)
  have hdue : (rearmed 1).dueTimers = [(⟨0, 1⟩, .pack [1], "a")] :=
    List.mergeSort_of_pairwise (by decide)
  have hfired : ∃ engine' fired, (rearmed 1).fireDueTimers = some (engine', fired) ∧
      fired.map FiredTimer.id = [(.pack [1], "a")] := by
    unfold fireDueTimers
    rw [hdue]
    exact ⟨_, _, rfl, rfl⟩
  obtain ⟨engine', fired, hfires, hids⟩ := hfired
  obtain ⟨honce, hrounds⟩ := timers_fire_once hrun
  exact ⟨engine', fired, hfires, hids, honce,
    (hrounds .fireDueTimers engine' fired hfires).2.2 (by decide)⟩

/-- A timer does not precede one that was scheduled before it, when the deadlines are equal. -/
theorem not_precedes_replicate {a b : TimerId} (hne : b ≠ a) (n d : Nat) :
    ¬ OneShot.Precedes (List.replicate n (.scheduled a d) ++ [.scheduled b d] : List TimerEvent)
      b a := by
  rintro ⟨d₁, n₁, d₂, n₂, hb, ha, hlt⟩
  have hfilter : (List.replicate n (.scheduled a d) ++ [.scheduled b d] : List TimerEvent).filter
      OneShot.Event.isScheduled = List.replicate n (.scheduled a d) ++ [.scheduled b d] := by
    refine List.filter_eq_self.mpr fun e he => ?_
    obtain he | he := List.mem_append.mp he
    · rw [(List.mem_replicate.mp he).2]
      rfl
    · rw [List.mem_singleton.mp he]
      rfl
  have hb := hb.getElem?_filter
  have ha := ha.getElem?_filter
  rw [hfilter] at ha hb
  have hlast : n ≤ n₁ := by
    by_contra hlt
    rw [List.getElem?_append_left (by simpa using hlt), List.getElem?_replicate] at hb
    split at hb
    · cases hb
      exact hne rfl
    · cases hb
  have hfirst : n₂ < n := by
    by_contra hle
    rw [List.getElem?_append_right (by simpa using hle)] at ha
    cases List.mem_singleton.mp (List.mem_of_getElem? ha)
    exact hne rfl
  have hdeadline : ∀ {t : TimerId} {d' : Nat}, .scheduled t d' ∈
      (List.replicate n (.scheduled a d) ++ [.scheduled b d] : List TimerEvent) → d' = d := by
    intro t d' hmem
    obtain hmem | hmem := List.mem_append.mp hmem
    · cases (List.mem_replicate.mp hmem).2
      rfl
    · cases List.mem_singleton.mp hmem
      rfl
  have hd₁ := hdeadline (List.mem_of_getElem? hb)
  have hd₂ := hdeadline (List.mem_of_getElem? ha)
  omega

/-- After so many timers the counter has saturated, and of two timers with one deadline the one
that was scheduled last is fired first. -/
theorem timers_fire_once_saturated : ∃ engine log engine' fired,
    TimerRun 1 [] engine log ∧ engine.fires .fireDueTimers = some (engine', fired) ∧
      ¬ (fired.map FiredTimer.id).Pairwise (OneShot.Precedes log) := by
  have hcall : (rearmed (2 ^ 64 - 2 + 1)).call (.scheduleTimer (.pack [1]) "b" 0) =
      some ((rearmed (2 ^ 64 - 2 + 1)).scheduleTimer (.pack [1]) "b" 0, []) := rfl
  have hrun := (rearmed_run (2 ^ 64 - 2) (by omega)).call hcall
  have hdue : ((rearmed (2 ^ 64 - 2 + 1)).scheduleTimer (.pack [1]) "b" 0).dueTimers =
      [(⟨0, 2 ^ 64 - 1⟩, .pack [1], "b"), (⟨0, 2 ^ 64 - 1⟩, .pack [1], "a")] :=
    List.mergeSort_of_pairwise (by decide)
  have hfired : ∃ engine' fired,
      ((rearmed (2 ^ 64 - 2 + 1)).scheduleTimer (.pack [1]) "b" 0).fireDueTimers =
        some (engine', fired) ∧
      fired.map FiredTimer.id = [(.pack [1], "b"), (.pack [1], "a")] := by
    unfold fireDueTimers
    rw [hdue]
    exact ⟨_, _, rfl, rfl⟩
  obtain ⟨engine', fired, hfires, hids⟩ := hfired
  refine ⟨_, _, engine', fired, hrun, hfires, fun hordered => ?_⟩
  rw [hids, List.pairwise_pair] at hordered
  exact not_precedes_replicate (by decide) _ _ hordered

end FsmEngine

end NFdl
