import NFdl.Runtime.EfsmDeclared
import NFdl.Lib.Table

/-!
# Session tables

The engine keeps its flows in several maps: the sessions, the current states, the
variables and the timers. A feed can evict the session that was accessed least
recently, due timers are fed as messages, and idle sessions expire. In every run the
maps stay in step, so that a flow that has lost its session starts afresh.
-/

namespace NFdl

/-! ### Timers and expiry -/

/-- A due timer that was fired. -/
structure FiredTimer where
  key : FlowKey
  timer : String
  newState : String
  events : List FsmEvent

/-- FNV-1a over the bytes of a key. -/
def flowKeyHash (key : FlowKey) : UInt64 :=
  key.data.foldl (fun h b => (h ^^^ b.toUInt64) * 0x100000001b3) 0xcbf29ce484222325

namespace SessionDb

/-- Drop the sessions that were accessed before the threshold, and count them. -/
def expireOlderThan (db : SessionDb) (thresholdTick : Nat) : SessionDb × Nat :=
  let sessions : AList fun _ : FlowKey => SessionContext :=
    ⟨db.sessions.entries.filter fun s => thresholdTick ≤ s.2.lastAccess,
      db.sessions.nodupKeys.sublist List.filter_sublist⟩
  ({ db with sessions := sessions }, db.sessions.keys.length - sessions.keys.length)

end SessionDb

namespace FsmEngine

def hasTimer (engine : FsmEngine) (key : FlowKey) (name : String) : Bool :=
  (engine.timers.lookup key).any fun armed => (armed.lookup name).isSome

/-- Arm a named timer of a flow. Clock and counter saturate at `u64::MAX`. -/
def scheduleTimer (engine : FsmEngine) (key : FlowKey) (name : String) (delayTicks : Nat) :
    FsmEngine :=
  let seq := min (engine.timerSeq + 1) (2 ^ 64 - 1)
  let deadline := min (engine.timerNow + delayTicks) (2 ^ 64 - 1)
  { engine with
    timerSeq := seq
    timers := engine.timers.insert key
      (((engine.timers.lookup key).getD ∅).insert name ⟨deadline, seq⟩) }

/-- Disarm a timer. A flow without timers has no table of them. -/
def cancelTimer (engine : FsmEngine) (key : FlowKey) (name : String) : FsmEngine × Bool :=
  match engine.timers.lookup key with
  | none => (engine, false)
  | some armed =>
      let rest := armed.erase name
      let timers :=
        if rest.entries.isEmpty then engine.timers.erase key else engine.timers.insert key rest
      ({ engine with timers := timers }, (armed.lookup name).isSome)

/-- The timers whose deadlines have passed, by deadline and age. -/
def dueTimers (engine : FsmEngine) : List (ArmedTimer × FlowKey × String) :=
  let due := engine.timers.entries.flatMap fun flow =>
    (flow.2.entries.filter fun timer => timer.2.deadline ≤ engine.timerNow).map fun timer =>
      (timer.2, flow.1, timer.1)
  due.mergeSort fun a b => a.1.deadline < b.1.deadline ||
    a.1.deadline == b.1.deadline && a.1.insertionId ≤ b.1.insertionId

/-- Fire one due timer, unless it was dropped while earlier ones ran. -/
def fireTimer (state : FsmEngine × List FiredTimer) (due : ArmedTimer × FlowKey × String) :
    Option (FsmEngine × List FiredTimer) :=
  let (engine, fired) := state
  let (_, key, name) := due
  if engine.hasTimer key name then do
    let (engine, newState, events) ←
      (engine.cancelTimer key name).1.feed key ("timer:" ++ name) (fun _ => none)
    some (engine, fired ++ [⟨key, name, newState, events⟩])
  else some state

def fireDueTimers (engine : FsmEngine) : Option (FsmEngine × List FiredTimer) :=
  engine.dueTimers.foldlM fireTimer (engine, [])

/-- Advance the clock of the timers. -/
def advanceTimers (engine : FsmEngine) (ticks : Nat) : FsmEngine :=
  { engine with timerNow := min (engine.timerNow + ticks) (2 ^ 64 - 1) }

def advanceAndFire (engine : FsmEngine) (ticks : Nat) : Option (FsmEngine × List FiredTimer) :=
  (engine.advanceTimers ticks).fireDueTimers

/-- The flows whose sessions were accessed before the threshold. -/
def expiredKeys (engine : FsmEngine) (threshold : Nat) : List FlowKey :=
  (engine.db.sessions.entries.filter fun s => s.2.lastAccess < threshold).map Sigma.fst

/-- Drop the sessions that have been idle for longer than the timeout. -/
def expireIdle (engine : FsmEngine) (idleTimeoutTicks : Nat) : FsmEngine × Nat × List FsmEvent :=
  let threshold := engine.db.clock - idleTimeoutTicks
  let expiredKeys := engine.expiredKeys threshold
  let (db, n) := engine.db.expireOlderThan threshold
  (expiredKeys.foldl dropFlowMaps { engine with db := db }, n,
    expiredKeys.map fun key => .sessionExpired (flowKeyHash key))

end FsmEngine

/-- What a host asks of the engine. -/
inductive FsmCall where
  | feed (key : FlowKey) (msgType : String) (ctx : Env)
  | scheduleTimer (key : FlowKey) (name : String) (delayTicks : Nat)
  | cancelTimer (key : FlowKey) (name : String)
  | advanceAndFire (ticks : Nat)
  | fireDueTimers
  | expireIdle (idleTimeoutTicks : Nat)

/-- The engine after a call, with the flows that the call has fed, in their order. -/
def FsmEngine.call (engine : FsmEngine) : FsmCall → Option (FsmEngine × List FlowKey)
  | .feed key msgType ctx => (engine.feed key msgType ctx).map fun r => (r.1, [key])
  | .scheduleTimer key name delayTicks => some (engine.scheduleTimer key name delayTicks, [])
  | .cancelTimer key name => some ((engine.cancelTimer key name).1, [])
  | .advanceAndFire ticks =>
      (engine.advanceAndFire ticks).map fun r => (r.1, r.2.map FiredTimer.key)
  | .fireDueTimers => engine.fireDueTimers.map fun r => (r.1, r.2.map FiredTimer.key)
  | .expireIdle idleTimeoutTicks => some ((engine.expireIdle idleTimeoutTicks).1, [])

/-- That two engines differ in the iteration order of their hash maps only. -/
structure FsmEngine.Rehashed (engine engine' : FsmEngine) : Prop where
  sessions : engine'.db.sessions.entries.Perm engine.db.sessions.entries
  maxSessions : engine'.db.maxSessions = engine.db.maxSessions
  clock : engine'.db.clock = engine.db.clock
  machines : engine'.machines.entries.Perm engine.machines.entries
  initials : engine'.initials.entries.Perm engine.initials.entries
  currentStates : engine'.currentStates.entries.Perm engine.currentStates.entries
  variables_ : engine'.variables_.entries.Perm engine.variables_.entries
  timers : ∀ key, Option.Rel (fun armed armed' => armed'.entries.Perm armed.entries)
    (engine.timers.lookup key) (engine'.timers.lookup key)
  timerNow : engine'.timerNow = engine.timerNow
  timerSeq : engine'.timerSeq = engine.timerSeq

/-- Put a flow in front of those that were fed before. -/
def feedLast (history : List FlowKey) (key : FlowKey) : List FlowKey :=
  key :: history.filter (· ≠ key)

/-- The engines that a run can reach, with the flows that were fed, the last one
first. They include those inside a call that fires timers, after some of them. Between
two steps the hash maps may be iterated in another order. -/
inductive FsmEngine.Reached (maxSessions : Nat) (sms : List StateMachine) :
    FsmEngine → List FlowKey → Prop
  | loaded : Reached maxSessions sms (.loaded maxSessions sms) []
  | call {engine engine' : FsmEngine} {history fed : List FlowKey} {c : FsmCall}
      (h : Reached maxSessions sms engine history) (hcall : engine.call c = some (engine', fed)) :
      Reached maxSessions sms engine' (fed.foldl feedLast history)
  | advance {engine : FsmEngine} {history : List FlowKey}
      (h : Reached maxSessions sms engine history) (ticks : Nat) :
      Reached maxSessions sms (engine.advanceTimers ticks) history
  | firing {engine engine' : FsmEngine} {history : List FlowKey}
      {due : List (ArmedTimer × FlowKey × String)} {fired : List FiredTimer}
      (h : Reached maxSessions sms engine history) (hdue : due <+: engine.dueTimers)
      (hfire : due.foldlM fireTimer (engine, []) = some (engine', fired)) :
      Reached maxSessions sms engine' ((fired.map FiredTimer.key).foldl feedLast history)
  | rehash {engine engine' : FsmEngine} {history : List FlowKey}
      (h : Reached maxSessions sms engine history) (hsame : engine.Rehashed engine') :
      Reached maxSessions sms engine' history

/-! ### Eviction -/

namespace SessionDb

variable {db : SessionDb} {key other evicted : FlowKey} {newState : Nat}

/-- The first two sessions compete for the eviction. -/
theorem lruKey_cons (best s : Sigma fun _ : FlowKey => SessionContext)
    (rest : List (Sigma fun _ : FlowKey => SessionContext)) :
    lruKey (best :: s :: rest) =
      lruKey ((if s.2.lastAccess < best.2.lastAccess then s else best) :: rest) := by
  unfold lruKey
  simp only [List.foldl_cons]
  split <;> rfl

theorem lruKey_spec (best : Sigma fun _ : FlowKey => SessionContext)
    (rest : List (Sigma fun _ : FlowKey => SessionContext)) :
    ∃ least ∈ best :: rest, lruKey (best :: rest) = some least.1 ∧
      ∀ s ∈ best :: rest, least.2.lastAccess ≤ s.2.lastAccess := by
  induction rest generalizing best with
  | nil => exact ⟨best, List.mem_singleton_self best, rfl, by simp⟩
  | cons s rest ih =>
      rw [lruKey_cons]
      split
      · rename_i hlt
        obtain ⟨least, hmem, hlru, hleast⟩ := ih s
        refine ⟨least, List.mem_cons_of_mem _ hmem, hlru, fun s' hs' => ?_⟩
        obtain rfl | hs' := List.mem_cons.mp hs'
        · exact (hleast s (List.mem_cons_self ..)).trans hlt.le
        · exact hleast s' hs'
      · rename_i hle
        obtain ⟨least, hmem, hlru, hleast⟩ := ih best
        refine ⟨least, ?_, hlru, fun s' hs' => ?_⟩
        · obtain rfl | hmem := List.mem_cons.mp hmem
          · exact List.mem_cons_self ..
          · exact List.mem_cons_of_mem _ (List.mem_cons_of_mem _ hmem)
        · obtain rfl | hs' := List.mem_cons.mp hs'
          · exact hleast _ (List.mem_cons_self ..)
          obtain rfl | hs' := List.mem_cons.mp hs'
          · exact (hleast best (List.mem_cons_self ..)).trans (not_lt.mp hle)
          · exact hleast s' (List.mem_cons_of_mem _ hs')

/-- The evicted flow has a session, which was accessed least recently. -/
structure Least (db : SessionDb) (evicted : FlowKey) : Prop where
  mem : evicted ∈ db.sessions
  le : ∀ key session session', db.sessions.lookup evicted = some session →
    db.sessions.lookup key = some session' → session.lastAccess ≤ session'.lastAccess

theorem lruKey_least (h : lruKey db.sessions.entries = some evicted) : db.Least evicted := by
  cases hentries : db.sessions.entries with
  | nil =>
      rw [hentries] at h
      cases h
  | cons first rest =>
      rw [hentries] at h
      obtain ⟨least, hmem, hlru, hleast⟩ := lruKey_spec first rest
      obtain rfl := Option.some.inj (hlru.symm.trans h)
      rw [← hentries] at hmem hleast
      have hlookup : db.sessions.lookup least.1 = some least.2 := AList.mem_lookup_iff.mpr hmem
      refine ⟨AList.lookup_isSome.mp (hlookup ▸ rfl), fun key session session' hs hs' => ?_⟩
      obtain rfl := Option.some.inj (hlookup.symm.trans hs)
      exact hleast ⟨key, session'⟩ (AList.mem_lookup_iff.mp hs')

theorem lruKey_eq_none (h : lruKey db.sessions.entries = none) : db.sessions.entries = [] := by
  cases hentries : db.sessions.entries with
  | nil => rfl
  | cons first rest =>
      obtain ⟨least, -, hlru, -⟩ := lruKey_spec first rest
      rw [hentries, hlru] at h
      cases h

/-- The access to a session in full: at most one other session goes, the least
recent one, and only when the table is full and the flow has no session. -/
inductive Access (db : SessionDb) (key : FlowKey) : SessionDb → Option FlowKey → Prop
  | keep {session : SessionContext} (hroom : key ∈ db.sessions ∨
        db.sessions.entries.length < db.maxSessions ∨ db.sessions.entries = [])
      (hlast : session.lastAccess = db.bump.clock) :
      Access db key { db.bump with sessions := db.sessions.insert key session } none
  | evict {session : SessionContext} {evicted : FlowKey} (hnew : key ∉ db.sessions)
      (hfull : db.maxSessions ≤ db.sessions.entries.length) (hleast : db.Least evicted)
      (hlast : session.lastAccess = db.bump.clock) :
      Access db key { db.bump with sessions := (db.sessions.erase evicted).insert key session }
        (some evicted)

theorem getOrCreate_access (db : SessionDb) (key : FlowKey) :
    db.Access key (db.getOrCreate key).1 (db.getOrCreate key).2 := by
  have hlength : db.bump.sessions.keys.length = db.sessions.entries.length :=
    (Table.length_entries db.sessions).symm
  unfold getOrCreate
  simp only [hlength]
  split
  · rename_i hfull
    unfold evictLru
    split
    · rename_i evicted hlru
      exact .evict hfull.2 hfull.1 (lruKey_least hlru) rfl
    · rename_i hlru
      exact .keep (.inr (.inr (lruKey_eq_none hlru))) rfl
  · rename_i hroom
    refine .keep ?_ rfl
    by_cases hmem : key ∈ db.sessions
    · exact .inl hmem
    · exact .inr (.inl (not_le.mp fun hle => hroom ⟨hle, hmem⟩))

/-- A transition writes the session that was just accessed. -/
theorem transition_insert (db : SessionDb) (sessions : AList fun _ : FlowKey => SessionContext)
    (key : FlowKey) (session : SessionContext) (newState : Nat) :
    ({ db with sessions := sessions.insert key session } : SessionDb).transition key newState =
      { db.bump with
        sessions := sessions.insert key { session with
          state := newState
          lastAccess := db.bump.clock } } := by
  unfold transition
  have hlookup : ({ db with sessions := sessions.insert key session } : SessionDb).bump.sessions.lookup
      key = some session := AList.lookup_insert _
  simp only [hlookup]
  congr 1
  exact AList.insert_insert ..

end SessionDb

/-! ### What a feed does -/

namespace FsmEngine

variable {engine engine' base : FsmEngine} {key other evicted : FlowKey}
  {history : List FlowKey}

/-- The engine without a flow's session and everything else it has of the flow. -/
def forget (engine : FsmEngine) (key : FlowKey) : FsmEngine :=
  { engine.dropFlowMaps key with
    db := { engine.db with sessions := engine.db.sessions.erase key } }

/-- That there is room for the session of a flow. -/
def Room (engine : FsmEngine) (key : FlowKey) : Prop :=
  key ∈ engine.db.sessions ∨ engine.db.sessions.entries.length < engine.db.maxSessions ∨
    engine.db.sessions.entries = []

/-- How room is made for a flow: nothing has to go, or the flow that was accessed
least recently, when the table is full. -/
inductive MakesRoom (engine : FsmEngine) (key : FlowKey) : FsmEngine → Prop
  | keep (hroom : engine.Room key) : MakesRoom engine key engine
  | evict {evicted : FlowKey} (hnew : key ∉ engine.db.sessions)
      (hfull : engine.db.maxSessions ≤ engine.db.sessions.entries.length)
      (hleast : engine.db.Least evicted) : MakesRoom engine key (engine.forget evicted)

/-- A flow is fed: it has a session, which is accessed now, and a state. -/
inductive Enters (base : FsmEngine) (key : FlowKey) : FsmEngine → Prop
  | mk {session : SessionContext} {state : String} {vars : AList fun _ : FlowKey => Vars}
      (hlast : session.lastAccess = base.db.bump.bump.clock)
      (hvars : vars = base.variables_ ∨ ∃ v, vars = base.variables_.insert key v) :
      Enters base key { base with
        db := { base.db.bump.bump with sessions := base.db.sessions.insert key session }
        currentStates := base.currentStates.insert key state
        variables_ := vars }

theorem settle_variables_cases (engine : FsmEngine) (key : FlowKey) (s : FeedState) :
    (engine.settle key s).variables_ = engine.variables_ ∨
      ∃ v, (engine.settle key s).variables_ = engine.variables_.insert key v := by
  unfold settle
  cases s.vars with
  | none => exact .inl rfl
  | some v => exact .inr ⟨v, rfl⟩

/-- Settling a flow whose session was just accessed. -/
theorem settle_enters (base : FsmEngine) (key : FlowKey) (session : SessionContext)
    (s : FeedState) : base.Enters key (settle { base with
      db := { base.db.bump with sessions := base.db.sessions.insert key session } } key s) := by
  have hdb : ({ base.db.bump with
      sessions := base.db.sessions.insert key session } : SessionDb).transition key
        (stateNumeric s.newState) = _ := SessionDb.transition_insert ..
  have hvars := settle_variables_cases { base with
    db := { base.db.bump with sessions := base.db.sessions.insert key session } } key s
  change base.Enters key { base with
    db := ({ base.db.bump with
      sessions := base.db.sessions.insert key session } : SessionDb).transition key
        (stateNumeric s.newState)
    currentStates := base.currentStates.insert key s.newState
    variables_ := _ }
  rw [hdb]
  exact .mk rfl hvars

theorem feed_enters {msgType : String} {ctx : Env} {r : FsmEngine × String × List FsmEvent}
    (h : engine.feed key msgType ctx = some r) :
    ∃ base, engine.MakesRoom key base ∧ base.Enters key r.1 := by
  obtain ⟨s, -, rfl⟩ := feed_eq_some_iff.mp h
  have haccess := engine.db.getOrCreate_access key
  unfold touch
  generalize engine.db.getOrCreate key = access at haccess
  obtain ⟨db, found⟩ := access
  cases haccess with
  | @keep session hroom hlast =>
      exact ⟨engine, .keep hroom, engine.settle_enters key session s⟩
  | @evict session evicted hnew hfull hleast hlast =>
      exact ⟨engine.forget evicted, .evict hnew hfull hleast,
        (engine.forget evicted).settle_enters key session s⟩

/-! ### The tables stay in step -/

/-- The session of one flow was accessed after that of the other. -/
def AccessedAfter (engine : FsmEngine) (key key' : FlowKey) : Prop :=
  ∀ session session', engine.db.sessions.lookup key = some session →
    engine.db.sessions.lookup key' = some session' → session'.lastAccess < session.lastAccess

/-- The tables are in step. The flows were fed in the order of the history, the last
one first; the ticks tell this as long as the clock of the sessions counts. -/
structure InStep (history : List FlowKey) (engine : FsmEngine) : Prop where
  states : ∀ key, key ∈ engine.currentStates ↔ key ∈ engine.db.sessions
  variables_ : ∀ key, key ∈ engine.variables_ → key ∈ engine.db.sessions
  bounded : engine.db.sessions.entries.length ≤ max 1 engine.db.maxSessions
  fed : ∀ key, key ∈ engine.db.sessions → key ∈ history
  ticks : ∀ key session, engine.db.sessions.lookup key = some session →
    session.lastAccess ≤ engine.db.clock
  counter : engine.db.clock ≤ 2 ^ 64 - 1
  recent : engine.db.clock < 2 ^ 64 - 1 → history.Pairwise engine.AccessedAfter

namespace InStep

theorem forget (h : InStep history engine) (key : FlowKey) :
    InStep history (engine.forget key) := by
  have hlookup : ∀ other session, (engine.db.sessions.erase key).lookup other = some session →
      engine.db.sessions.lookup other = some session := by
    intro other session hother
    by_cases hkey : other = key
    · rw [hkey, AList.lookup_erase] at hother
      cases hother
    · rwa [AList.lookup_erase_ne hkey] at hother
  refine ⟨fun other => ?_, fun other hother => ?_, ?_, fun other hother => ?_,
    fun other session hother => ?_, h.counter, fun hclock => ?_⟩
  · exact AList.mem_erase.trans ((and_congr_right fun _ => h.states other).trans
      AList.mem_erase.symm)
  · obtain ⟨hkey, hmem⟩ := AList.mem_erase.mp hother
    exact AList.mem_erase.mpr ⟨hkey, h.variables_ other hmem⟩
  · refine le_trans ?_ h.bounded
    exact (List.kerase_sublist key engine.db.sessions.entries).length_le
  · exact h.fed other (AList.mem_erase.mp hother).2
  · exact h.ticks other session (hlookup other session hother)
  · refine (h.recent hclock).imp fun hafter session session' hsession hsession' => ?_
    exact hafter session session' (hlookup _ _ hsession) (hlookup _ _ hsession')

/-- After room is made there is room. -/
theorem makesRoom (h : InStep history engine) (hroom : engine.MakesRoom key base) :
    InStep history base ∧ base.Room key := by
  cases hroom with
  | keep hroom => exact ⟨h, hroom⟩
  | @evict evicted hnew hfull hleast =>
      refine ⟨h.forget evicted, .inr ?_⟩
      obtain ⟨session, hsession⟩ := Option.isSome_iff_exists.mp
        (AList.lookup_isSome.mpr hleast.mem)
      have hbounded := h.bounded
      have hlength : (engine.db.sessions.erase evicted).entries.length + 1 =
          engine.db.sessions.entries.length := by
        rw [Table.length_entries, Table.length_entries, AList.keys_erase,
          List.length_erase_of_mem hleast.mem]
        exact Nat.sub_add_cancel (List.length_pos_of_mem hleast.mem)
      change (engine.db.sessions.erase evicted).entries.length < engine.db.maxSessions ∨
        (engine.db.sessions.erase evicted).entries = []
      by_cases hzero : engine.db.maxSessions = 0
      · refine .inr (List.length_eq_zero_iff.mp ?_)
        omega
      · refine .inl ?_
        omega

theorem mem_feedLast {other : FlowKey} :
    other ∈ feedLast history key ↔ other = key ∨ other ∈ history := by
  by_cases hkey : other = key
  · simp [feedLast, hkey]
  · simp [feedLast, hkey]

theorem enters (h : InStep history base) (hroom : base.Room key) (henters : base.Enters key engine) :
    InStep (feedLast history key) engine := by
  cases henters with
  | @mk session state vars hlast hvars =>
      have hclock : base.db.bump.bump.clock = min (min (base.db.clock + 1) (2 ^ 64 - 1) + 1)
        (2 ^ 64 - 1) := rfl
      have hlookup : ∀ other session', other ≠ key →
          (base.db.sessions.insert key session).lookup other = some session' →
          base.db.sessions.lookup other = some session' := by
        intro other session' hkey hother
        rwa [AList.lookup_insert_ne hkey] at hother
      refine ⟨fun other => ?_, fun other hother => ?_, ?_, fun other hother => ?_,
        fun other session' hother => ?_, min_le_right _ _, fun hcounts => ?_⟩
      · exact (AList.mem_insert _).trans ((or_congr_right (h.states other)).trans
          (AList.mem_insert _).symm)
      · refine (AList.mem_insert _).mpr ?_
        obtain rfl | ⟨v, rfl⟩ := hvars
        · exact .inr (h.variables_ other hother)
        · exact ((AList.mem_insert _).mp hother).imp id (h.variables_ other)
      · have hle := Table.length_insert_le base.db.sessions key session
        have hbounded := h.bounded
        change (base.db.sessions.insert key session).entries.length ≤ max 1 base.db.maxSessions
        obtain hmem | hlt | hnil := hroom
        · obtain ⟨old, hold⟩ := Option.isSome_iff_exists.mp (AList.lookup_isSome.mpr hmem)
          rwa [Table.length_insert_of_some hold]
        · omega
        · rw [hnil] at hle
          exact hle.trans (le_max_left _ _)
      · exact mem_feedLast.mpr (((AList.mem_insert _).mp hother).imp id (h.fed other))
      · change session'.lastAccess ≤ base.db.bump.bump.clock
        obtain ⟨-, rfl⟩ | hold := Table.of_lookup_insert hother
        · exact hlast.le
        · have hle := h.ticks other session' hold
          have hcounter := h.counter
          omega
      · change base.db.bump.bump.clock < 2 ^ 64 - 1 at hcounts
        have hlater : base.db.clock < base.db.bump.bump.clock := by omega
        have hold : (history.filter (· ≠ key)).Pairwise base.AccessedAfter :=
          (h.recent (by omega)).sublist List.filter_sublist
        have hne : ∀ other ∈ history.filter (· ≠ key), other ≠ key := fun other hother =>
          of_decide_eq_true (List.mem_filter.mp hother).2
        refine List.pairwise_cons.mpr ⟨fun other hother session₁ session₂ h₁ h₂ => ?_, ?_⟩
        · obtain rfl := Option.some.inj ((AList.lookup_insert _).symm.trans h₁)
          have hle := h.ticks other session₂ (hlookup other session₂ (hne other hother) h₂)
          omega
        · refine hold.imp_of_mem fun hother hother' hafter session₁ session₂ h₁ h₂ => ?_
          exact hafter session₁ session₂ (hlookup _ session₁ (hne _ hother) h₁)
            (hlookup _ session₂ (hne _ hother') h₂)

theorem feed (h : InStep history engine) {msgType : String} {ctx : Env}
    {r : FsmEngine × String × List FsmEvent} (hfeed : engine.feed key msgType ctx = some r) :
    InStep (feedLast history key) r.1 := by
  obtain ⟨base, hroom, henters⟩ := feed_enters hfeed
  obtain ⟨hbase, hroom⟩ := h.makesRoom hroom
  exact hbase.enters hroom henters

/-- A change of timers and machines only. -/
theorem of_same (h : InStep history engine) (hdb : engine'.db = engine.db)
    (hstates : engine'.currentStates = engine.currentStates)
    (hvars : engine'.variables_ = engine.variables_) : InStep history engine' := by
  refine ⟨?_, ?_, ?_, ?_, ?_, ?_, fun hclock => ?_⟩
  · rw [hstates, hdb]
    exact h.states
  · rw [hvars, hdb]
    exact h.variables_
  · rw [hdb]
    exact h.bounded
  · rw [hdb]
    exact h.fed
  · rw [hdb]
    exact h.ticks
  · rw [hdb]
    exact h.counter
  · rw [hdb] at hclock
    refine (h.recent hclock).imp fun hafter => ?_
    unfold AccessedAfter
    rw [hdb]
    exact hafter

end InStep

/-! ### Timers -/

theorem cancelTimer_same (engine : FsmEngine) (key : FlowKey) (name : String) :
    (engine.cancelTimer key name).1.db = engine.db ∧
      (engine.cancelTimer key name).1.currentStates = engine.currentStates ∧
      (engine.cancelTimer key name).1.variables_ = engine.variables_ := by
  unfold cancelTimer
  split <;> exact ⟨rfl, rfl, rfl⟩

theorem InStep.cancelTimer (h : InStep history engine) (key : FlowKey) (name : String) :
    InStep history (engine.cancelTimer key name).1 := by
  obtain ⟨hdb, hstates, hvars⟩ := engine.cancelTimer_same key name
  exact h.of_same hdb hstates hvars

/-- A due timer is skipped, or it is disarmed and its flow is fed. -/
theorem fireTimer_cases {fired fired' : List FiredTimer} {due : ArmedTimer × FlowKey × String}
    (h : fireTimer (engine, fired) due = some (engine', fired')) :
    (engine', fired') = (engine, fired) ∨
      ∃ timer r, engine.hasTimer due.2.1 due.2.2 = true ∧
        (engine.cancelTimer due.2.1 due.2.2).1.feed due.2.1 ("timer:" ++ due.2.2)
          (fun _ => none) = some r ∧
        timer.key = due.2.1 ∧ (engine', fired') = (r.1, fired ++ [timer]) := by
  unfold fireTimer at h
  simp only at h
  split at h
  · rename_i harmed
    obtain ⟨r, hr, h⟩ := Option.bind_eq_some_iff.mp h
    exact .inr ⟨_, r, harmed, hr, rfl, (Option.some.inj h).symm⟩
  · exact .inl (Option.some.inj h).symm

theorem InStep.firing (h : InStep history engine) {due : List (ArmedTimer × FlowKey × String)}
    {fired : List FiredTimer} (hfire : due.foldlM fireTimer (engine, []) = some (engine', fired)) :
    InStep ((fired.map FiredTimer.key).foldl feedLast history) engine' := by
  have hstep : ∀ (state : FsmEngine × List FiredTimer) (timer : ArmedTimer × FlowKey × String)
      (state' : FsmEngine × List FiredTimer),
      InStep ((state.2.map FiredTimer.key).foldl feedLast history) state.1 →
      fireTimer state timer = some state' →
      InStep ((state'.2.map FiredTimer.key).foldl feedLast history) state'.1 := by
    rintro ⟨engine, fired⟩ due ⟨engine', fired'⟩ h hfire
    obtain hskip | ⟨timer, r, -, hfeed, hkey, hfired⟩ := fireTimer_cases hfire
    · rwa [hskip]
    · have hfed := (h.cancelTimer due.2.1 due.2.2).feed hfeed
      rw [hfired, List.map_append, List.foldl_append]
      simpa [hkey] using hfed
  exact Inputs.foldlM_invariant (s := (engine, [])) (Q := fun state =>
    InStep ((state.2.map FiredTimer.key).foldl feedLast history) state.1) hstep h hfire

/-! ### Expiry -/

/-- Dropping the maps of several flows drops their entries and no others. -/
theorem foldl_dropFlowMaps (keys : List FlowKey) (engine : FsmEngine) :
    (keys.foldl dropFlowMaps engine).db = engine.db ∧
    (keys.foldl dropFlowMaps engine).machines = engine.machines ∧
    (keys.foldl dropFlowMaps engine).initials = engine.initials ∧
    (∀ key, key ∈ (keys.foldl dropFlowMaps engine).currentStates ↔
      key ∉ keys ∧ key ∈ engine.currentStates) ∧
    (∀ key, key ∈ (keys.foldl dropFlowMaps engine).variables_ ↔
      key ∉ keys ∧ key ∈ engine.variables_) ∧
    (∀ key, key ∈ (keys.foldl dropFlowMaps engine).timers ↔ key ∉ keys ∧ key ∈ engine.timers) := by
  induction keys generalizing engine with
  | nil => simp
  | cons first rest ih =>
      obtain ⟨hdb, hmachines, hinitials, hstates, hvars, htimers⟩ := ih (engine.dropFlowMaps first)
      refine ⟨hdb, hmachines, hinitials, fun key => ?_, fun key => ?_, fun key => ?_⟩
      · exact (hstates key).trans (by simp [dropFlowMaps, AList.mem_erase]; tauto)
      · exact (hvars key).trans (by simp [dropFlowMaps, AList.mem_erase]; tauto)
      · exact (htimers key).trans (by simp [dropFlowMaps, AList.mem_erase]; tauto)

theorem expireOlderThan_lookup {db : SessionDb} {threshold : Nat} {session : SessionContext} :
    (db.expireOlderThan threshold).1.sessions.lookup key = some session ↔
      db.sessions.lookup key = some session ∧ threshold ≤ session.lastAccess :=
  AList.mem_lookup_iff.trans
    (List.mem_filter.trans (and_congr AList.mem_lookup_iff.symm decide_eq_true_iff))

theorem mem_expiredKeys {threshold : Nat} : key ∈ engine.expiredKeys threshold ↔
    ∃ session, engine.db.sessions.lookup key = some session ∧ session.lastAccess < threshold := by
  constructor
  · intro h
    obtain ⟨⟨key', session⟩, hmem, rfl⟩ := List.mem_map.mp h
    obtain ⟨hmem, hlt⟩ := List.mem_filter.mp hmem
    exact ⟨session, AList.mem_lookup_iff.mpr hmem, of_decide_eq_true hlt⟩
  · rintro ⟨session, hlookup, hlt⟩
    exact List.mem_map.mpr ⟨⟨key, session⟩, List.mem_filter.mpr
      ⟨AList.mem_lookup_iff.mp hlookup, decide_eq_true hlt⟩, rfl⟩

/-- A session stays exactly if its flow is not among the expired ones. -/
theorem mem_expireOlderThan {threshold : Nat} :
    key ∈ (engine.db.expireOlderThan threshold).1.sessions ↔
      key ∉ engine.expiredKeys threshold ∧ key ∈ engine.db.sessions := by
  rw [mem_expiredKeys, ← AList.lookup_isSome, ← AList.lookup_isSome]
  constructor
  · intro h
    obtain ⟨session, hsession⟩ := Option.isSome_iff_exists.mp h
    obtain ⟨hlookup, hle⟩ := expireOlderThan_lookup.mp hsession
    refine ⟨?_, hlookup ▸ rfl⟩
    rintro ⟨session', hlookup', hlt⟩
    obtain rfl := Option.some.inj (hlookup.symm.trans hlookup')
    exact absurd hlt (not_lt.mpr hle)
  · rintro ⟨hkept, h⟩
    obtain ⟨session, hlookup⟩ := Option.isSome_iff_exists.mp h
    have hle : threshold ≤ session.lastAccess := not_lt.mp fun hlt => hkept ⟨session, hlookup, hlt⟩
    exact Option.isSome_iff_exists.mpr ⟨session, expireOlderThan_lookup.mpr ⟨hlookup, hle⟩⟩

/-- Expiry in full: the expired flows lose everything, and the others nothing. -/
theorem expireIdle_spec (engine : FsmEngine) (timeout : Nat) :
    (engine.expireIdle timeout).1.db =
        (engine.db.expireOlderThan (engine.db.clock - timeout)).1 ∧
    (∀ key, key ∈ (engine.expireIdle timeout).1.currentStates ↔
      key ∉ engine.expiredKeys (engine.db.clock - timeout) ∧ key ∈ engine.currentStates) ∧
    (∀ key, key ∈ (engine.expireIdle timeout).1.variables_ ↔
      key ∉ engine.expiredKeys (engine.db.clock - timeout) ∧ key ∈ engine.variables_) ∧
    (∀ key, key ∈ (engine.expireIdle timeout).1.timers ↔
      key ∉ engine.expiredKeys (engine.db.clock - timeout) ∧ key ∈ engine.timers) := by
  obtain ⟨hdb, -, -, hstates, hvars, htimers⟩ := foldl_dropFlowMaps
    (engine.expiredKeys (engine.db.clock - timeout))
    { engine with db := (engine.db.expireOlderThan (engine.db.clock - timeout)).1 }
  exact ⟨hdb, hstates, hvars, htimers⟩

theorem InStep.expireIdle (h : InStep history engine) (timeout : Nat) :
    InStep history (engine.expireIdle timeout).1 := by
  obtain ⟨hdb, hstates, hvars, -⟩ := engine.expireIdle_spec timeout
  refine ⟨fun key => ?_, fun key hkey => ?_, ?_, fun key hkey => ?_, fun key session hkey => ?_, ?_,
    fun hclock => ?_⟩
  · rw [hstates, hdb, mem_expireOlderThan, h.states]
  · rw [hvars] at hkey
    rw [hdb, mem_expireOlderThan]
    exact ⟨hkey.1, h.variables_ key hkey.2⟩
  · rw [hdb]
    exact (List.length_filter_le _ _).trans h.bounded
  · rw [hdb, mem_expireOlderThan] at hkey
    exact h.fed key hkey.2
  · rw [hdb] at hkey ⊢
    exact h.ticks key session (expireOlderThan_lookup.mp hkey).1
  · rw [hdb]
    exact h.counter
  · rw [hdb] at hclock
    refine (h.recent hclock).imp fun hafter session session' hsession hsession' => ?_
    rw [hdb] at hsession hsession'
    exact hafter session session' (expireOlderThan_lookup.mp hsession).1
      (expireOlderThan_lookup.mp hsession').1

theorem InStep.rehash (h : InStep history engine) (hsame : engine.Rehashed engine') :
    InStep history engine' := by
  have hlookup : ∀ key, engine'.db.sessions.lookup key = engine.db.sessions.lookup key :=
    fun key => AList.perm_lookup hsame.sessions
  have hmem : ∀ key, key ∈ engine'.db.sessions ↔ key ∈ engine.db.sessions :=
    fun key => AList.mem_of_perm hsame.sessions
  refine ⟨fun key => ?_, fun key hkey => ?_, ?_, fun key hkey => ?_, fun key session hkey => ?_, ?_,
    fun hclock => ?_⟩
  · rw [hmem, ← h.states]
    exact AList.mem_of_perm hsame.currentStates
  · rw [hmem]
    exact h.variables_ key ((AList.mem_of_perm hsame.variables_).mp hkey)
  · rw [hsame.sessions.length_eq, hsame.maxSessions]
    exact h.bounded
  · exact h.fed key ((hmem key).mp hkey)
  · rw [hsame.clock]
    exact h.ticks key session ((hlookup key).symm.trans hkey)
  · rw [hsame.clock]
    exact h.counter
  · rw [hsame.clock] at hclock
    refine (h.recent hclock).imp fun hafter session session' hsession hsession' => ?_
    exact hafter session session' ((hlookup _).symm.trans hsession)
      ((hlookup _).symm.trans hsession')

theorem InStep.call (h : InStep history engine) {c : FsmCall} {fed : List FlowKey}
    (hcall : engine.call c = some (engine', fed)) : InStep (fed.foldl feedLast history) engine' := by
  cases c with
  | feed key msgType ctx =>
      obtain ⟨r, hr, heq⟩ := Option.map_eq_some_iff.mp hcall
      cases heq
      exact h.feed hr
  | scheduleTimer key name delayTicks =>
      cases hcall
      exact h.of_same rfl rfl rfl
  | cancelTimer key name =>
      cases hcall
      exact h.cancelTimer key name
  | advanceAndFire ticks =>
      obtain ⟨⟨fired, timers⟩, hr, heq⟩ := Option.map_eq_some_iff.mp hcall
      cases heq
      have hadvanced : InStep history (engine.advanceTimers ticks) := h.of_same rfl rfl rfl
      exact hadvanced.firing hr
  | fireDueTimers =>
      obtain ⟨⟨fired, timers⟩, hr, heq⟩ := Option.map_eq_some_iff.mp hcall
      cases heq
      exact h.firing hr
  | expireIdle timeout =>
      cases hcall
      exact h.expireIdle timeout

theorem InStep.loaded (maxSessions : Nat) (sms : List StateMachine) :
    InStep [] (.loaded maxSessions sms) := by
  have hfold : ∀ (sms : List StateMachine) (engine : FsmEngine), InStep [] engine →
      InStep [] (sms.foldl loadMachine engine) := by
    intro sms
    induction sms with
    | nil => exact fun _ h => h
    | cons sm rest ih => exact fun engine h => ih _ (h.of_same rfl rfl rfl)
  refine hfold sms _ ⟨fun key => Iff.rfl, fun key hkey => hkey, Nat.zero_le _, fun key hkey => ?_,
    fun key session hkey => ?_, Nat.zero_le _, fun _ => .nil⟩
  · exact absurd hkey (AList.notMem_empty key)
  · cases hkey

/-- The tables are in step in every state of every run. -/
theorem Reached.inStep {maxSessions : Nat} {sms : List StateMachine}
    (h : Reached maxSessions sms engine history) : InStep history engine := by
  induction h with
  | loaded => exact .loaded maxSessions sms
  | call _ hcall ih => exact ih.call hcall
  | advance _ ticks ih => exact ih.of_same rfl rfl rfl
  | firing _ _ hfire ih => exact ih.firing hfire
  | rehash _ hsame ih => exact ih.rehash hsame

/-! ### Flows without a session -/

/-- That nothing is left of a flow. -/
structure Forgotten (engine : FsmEngine) (key : FlowKey) : Prop where
  session : key ∉ engine.db.sessions
  state : key ∉ engine.currentStates
  variables_ : key ∉ engine.variables_
  timers : key ∉ engine.timers

theorem InStep.forgotten (h : InStep history engine) (hsession : key ∉ engine.db.sessions)
    (htimers : key ∉ engine.timers) : engine.Forgotten key :=
  ⟨hsession, fun hmem => hsession ((h.states key).mp hmem),
    fun hmem => hsession (h.variables_ key hmem), htimers⟩

/-- A feed arms no timer, and a flow that loses its session in it loses its timers. -/
theorem feed_timers {msgType : String} {ctx : Env} {r : FsmEngine × String × List FsmEvent}
    (h : engine.feed key msgType ctx = some r) (other : FlowKey) :
    (other ∈ r.1.timers → other ∈ engine.timers) ∧
    (other ∈ engine.db.sessions → other ∈ r.1.db.sessions ∨ other ∉ r.1.timers) ∧
    (other ∉ engine.db.sessions → other ≠ key → other ∉ r.1.db.sessions) := by
  obtain ⟨base, hroom, henters⟩ := feed_enters h
  generalize r.1 = fed at henters
  cases henters with
  | mk hlast hvars =>
      cases hroom with
      | keep hroom =>
          refine ⟨id, fun hmem => .inl ((AList.mem_insert _).mpr (.inr hmem)), fun hnew hne hmem => ?_⟩
          exact ((AList.mem_insert _).mp hmem).elim hne hnew
      | @evict evicted hnew hfull hleast =>
          refine ⟨fun hmem => (AList.mem_erase.mp hmem).2, fun hmem => ?_, fun hnew hne hmem => ?_⟩
          · by_cases hevicted : other = evicted
            · exact .inr fun hmem => (AList.mem_erase.mp hmem).1 hevicted
            · exact .inl ((AList.mem_insert _).mpr (.inr (AList.mem_erase.mpr ⟨hevicted, hmem⟩)))
          · obtain heq | hmem := (AList.mem_insert _).mp hmem
            · exact hne heq
            · exact hnew (AList.mem_erase.mp hmem).2

theorem mem_of_hasTimer {name : String} (h : engine.hasTimer key name = true) :
    key ∈ engine.timers := by
  unfold hasTimer at h
  cases hlookup : engine.timers.lookup key with
  | none =>
      rw [hlookup] at h
      cases h
  | some armed => exact AList.lookup_isSome.mp (hlookup ▸ rfl)

theorem mem_cancelTimer {name : String} (h : other ∈ (engine.cancelTimer key name).1.timers) :
    other ∈ engine.timers := by
  unfold cancelTimer at h
  split at h
  · exact h
  · rename_i armed hlookup
    simp only at h
    split at h
    · exact (AList.mem_erase.mp h).2
    · obtain rfl | hmem := (AList.mem_insert _).mp h
      · exact AList.lookup_isSome.mp (hlookup ▸ rfl)
      · exact hmem

/-- What a feed after the cancelling of a timer of the flow keeps is kept by a firing. -/
theorem firing_invariant {P : FsmEngine → Prop}
    (hstep : ∀ engine key name msgType ctx r, P engine → engine.hasTimer key name = true →
      (engine.cancelTimer key name).1.feed key msgType ctx = some r → P r.1)
    (h : P engine) {due : List (ArmedTimer × FlowKey × String)} {fired : List FiredTimer}
    (hfire : due.foldlM fireTimer (engine, []) = some (engine', fired)) : P engine' := by
  refine Inputs.foldlM_invariant (s := (engine, [])) (Q := fun state => P state.1) ?_ h hfire
  rintro ⟨engine, fired⟩ due ⟨engine', fired'⟩ h hfire
  obtain hskip | ⟨timer, r, harmed, hfeed, -, hfired⟩ := fireTimer_cases hfire
  · cases hskip
    exact h
  · cases hfired
    exact hstep engine _ _ _ _ r h harmed hfeed

/-- A flow that loses its session in a firing loses its timers. -/
theorem firing_timers {due : List (ArmedTimer × FlowKey × String)} {fired : List FiredTimer}
    (hfire : due.foldlM fireTimer (engine, []) = some (engine', fired))
    (h : key ∈ engine.db.sessions) : key ∈ engine'.db.sessions ∨ key ∉ engine'.timers := by
  refine firing_invariant (P := fun engine => key ∈ engine.db.sessions ∨ key ∉ engine.timers)
    (fun engine other name msgType ctx r h harmed hfeed => ?_) (.inl h) hfire
  obtain ⟨htimers, hkept, -⟩ := feed_timers hfeed key
  obtain ⟨hdb, -, -⟩ := engine.cancelTimer_same other name
  rw [hdb] at hkept
  obtain h | h := h
  · exact hkept h
  · exact .inr fun hmem => h (mem_cancelTimer (htimers hmem))

/-- A firing does not bring a flow back that has neither a session nor a timer. -/
theorem firing_gone {due : List (ArmedTimer × FlowKey × String)} {fired : List FiredTimer}
    (hfire : due.foldlM fireTimer (engine, []) = some (engine', fired))
    (hsession : key ∉ engine.db.sessions) (htimers : key ∉ engine.timers) :
    key ∉ engine'.db.sessions ∧ key ∉ engine'.timers := by
  refine firing_invariant (P := fun engine => key ∉ engine.db.sessions ∧ key ∉ engine.timers)
    (fun engine other name msgType ctx r h harmed hfeed => ?_) ⟨hsession, htimers⟩ hfire
  obtain ⟨hmem, -, hnew⟩ := feed_timers hfeed key
  obtain ⟨hdb, -, -⟩ := engine.cancelTimer_same other name
  rw [hdb] at hnew
  have hne : key ≠ other := fun heq => h.2 (heq ▸ mem_of_hasTimer harmed)
  exact ⟨hnew h.1 hne, fun htimer => h.2 (mem_cancelTimer (hmem htimer))⟩

/-- A flow that loses its session in a call is forgotten. -/
theorem InStep.call_forgets (h : InStep history engine) {c : FsmCall} {fed : List FlowKey}
    (hcall : engine.call c = some (engine', fed)) (hbefore : key ∈ engine.db.sessions)
    (hafter : key ∉ engine'.db.sessions) : engine'.Forgotten key := by
  refine (h.call hcall).forgotten hafter ?_
  suffices htimers : key ∈ engine'.db.sessions ∨ key ∉ engine'.timers from
    htimers.resolve_left hafter
  cases c with
  | feed other msgType ctx =>
      obtain ⟨r, hr, heq⟩ := Option.map_eq_some_iff.mp hcall
      cases heq
      exact (feed_timers hr key).2.1 hbefore
  | scheduleTimer other name delayTicks =>
      cases hcall
      exact .inl hbefore
  | cancelTimer other name =>
      cases hcall
      obtain ⟨hdb, -, -⟩ := engine.cancelTimer_same other name
      exact .inl (hdb ▸ hbefore)
  | advanceAndFire ticks =>
      obtain ⟨⟨fired, timers⟩, hr, heq⟩ := Option.map_eq_some_iff.mp hcall
      cases heq
      have hadvanced : key ∈ (engine.advanceTimers ticks).db.sessions := hbefore
      exact firing_timers hr hadvanced
  | fireDueTimers =>
      obtain ⟨⟨fired, timers⟩, hr, heq⟩ := Option.map_eq_some_iff.mp hcall
      cases heq
      exact firing_timers hr hbefore
  | expireIdle timeout =>
      cases hcall
      obtain ⟨hdb, -, -, htimers⟩ := engine.expireIdle_spec timeout
      rw [hdb, mem_expireOlderThan, htimers]
      by_cases hexpired : key ∈ engine.expiredKeys (engine.db.clock - timeout)
      · exact .inr fun hmem => hmem.1 hexpired
      · exact .inl ⟨hexpired, hbefore⟩

end FsmEngine

/-- The calls that bring a flow back: they feed it or arm a timer for it. -/
def FsmCall.Concerns (key : FlowKey) : FsmCall → Prop
  | .feed key' _ _ | .scheduleTimer key' _ _ => key' = key
  | _ => False

namespace FsmEngine

variable {engine engine' : FsmEngine} {key : FlowKey} {history : List FlowKey}

/-- A forgotten flow stays forgotten until a call concerns it. -/
theorem Forgotten.call (h : engine.Forgotten key) (hstep : InStep history engine) {c : FsmCall}
    {fed : List FlowKey} (hcall : engine.call c = some (engine', fed)) (hother : ¬ c.Concerns key) :
    engine'.Forgotten key := by
  suffices hgone : key ∉ engine'.db.sessions ∧ key ∉ engine'.timers from
    (hstep.call hcall).forgotten hgone.1 hgone.2
  cases c with
  | feed other msgType ctx =>
      obtain ⟨r, hr, heq⟩ := Option.map_eq_some_iff.mp hcall
      cases heq
      obtain ⟨htimers, -, hnew⟩ := feed_timers hr key
      exact ⟨hnew h.session fun heq => hother heq.symm, fun hmem => h.timers (htimers hmem)⟩
  | scheduleTimer other name delayTicks =>
      cases hcall
      refine ⟨h.session, fun hmem => ?_⟩
      exact ((AList.mem_insert _).mp hmem).elim (fun heq => hother heq.symm) h.timers
  | cancelTimer other name =>
      cases hcall
      obtain ⟨hdb, -, -⟩ := engine.cancelTimer_same other name
      exact ⟨hdb ▸ h.session, fun hmem => h.timers (mem_cancelTimer hmem)⟩
  | advanceAndFire ticks =>
      obtain ⟨⟨fired, timers⟩, hr, heq⟩ := Option.map_eq_some_iff.mp hcall
      cases heq
      have hsession : key ∉ (engine.advanceTimers ticks).db.sessions := h.session
      exact firing_gone hr hsession h.timers
  | fireDueTimers =>
      obtain ⟨⟨fired, timers⟩, hr, heq⟩ := Option.map_eq_some_iff.mp hcall
      cases heq
      exact firing_gone hr h.session h.timers
  | expireIdle timeout =>
      cases hcall
      obtain ⟨hdb, -, -, htimers⟩ := engine.expireIdle_spec timeout
      rw [hdb, mem_expireOlderThan, htimers]
      exact ⟨fun hmem => h.session hmem.2, fun hmem => h.timers hmem.2⟩

/-! ### Fresh flows -/

/-- An engine with the same machines that has seen no flow. -/
def fresh (engine : FsmEngine) : FsmEngine :=
  { FsmEngine.new engine.db.maxSessions with
    machines := engine.machines
    initials := engine.initials }

/-- The state in which the loop over the machines begins. -/
def entry (engine : FsmEngine) (key : FlowKey) : FeedState :=
  ⟨(engine.touch key).getCurrentState key, (engine.touch key).getCurrentState key,
    (engine.touch key).variables_.lookup key, []⟩

/-- What can be seen of the flow after a feed: state, events and variables. -/
def seen (key : FlowKey) (r : FsmEngine × String × List FsmEvent) :
    String × List FsmEvent × Option Vars :=
  (r.2.1, r.2.2, r.1.variables_.lookup key)

theorem feed_seen (engine : FsmEngine) (key : FlowKey) (msgType : String) (ctx : Env) :
    (engine.feed key msgType ctx).map (seen key) =
      (engine.machines.entries.foldlM (feedMachine engine.initials msgType ctx)
        (engine.entry key)).map fun s => (s.newState, s.events, s.vars) := by
  have hrun : (engine.touch key).runMachines msgType ctx ((engine.touch key).getCurrentState key)
      ((engine.touch key).variables_.lookup key) =
      engine.machines.entries.foldlM (feedMachine engine.initials msgType ctx)
        (engine.entry key) := by
    unfold runMachines
    rw [touch_machines, touch_initials]
    rfl
  cases hs : (engine.touch key).runMachines msgType ctx ((engine.touch key).getCurrentState key)
      ((engine.touch key).variables_.lookup key) with
  | none =>
      have hfeed : engine.feed key msgType ctx = none := by
        unfold feed
        simp only [hs]
        rfl
      rw [hfeed, ← hrun, hs]
      rfl
  | some s =>
      rw [feed_eq_some_iff.mpr ⟨s, hs, rfl⟩, ← hrun, hs]
      simp only [Option.map_some, seen, settle_variables hs]

/-- A flow without a session enters like the first flow of an engine. -/
theorem InStep.entry_fresh (h : InStep history engine) (hnew : key ∉ engine.db.sessions) :
    engine.entry key = ⟨"IDLE", "IDLE", none, []⟩ := by
  have hkept : (engine.db.getOrCreate key).2 ≠ some key := by
    intro hevicted
    have haccess := engine.db.getOrCreate_access key
    rw [hevicted] at haccess
    generalize (engine.db.getOrCreate key).1 = db at haccess
    cases haccess with
    | evict _ _ hleast => exact hnew hleast.mem
  obtain ⟨hstate, hvars⟩ := touch_lookup hkept
  have hnone : engine.currentStates.lookup key = none :=
    AList.lookup_eq_none.mpr fun hmem => hnew ((h.states key).mp hmem)
  have hnone' : engine.variables_.lookup key = none :=
    AList.lookup_eq_none.mpr fun hmem => hnew (h.variables_ key hmem)
  unfold entry getCurrentState
  rw [hstate, hvars, hnone, hnone']
  rfl

theorem entry_of_fresh (engine : FsmEngine) (key : FlowKey) :
    engine.fresh.entry key = ⟨"IDLE", "IDLE", none, []⟩ := by
  have hstep : InStep [] engine.fresh := by
    have hnew : InStep [] (FsmEngine.loaded engine.db.maxSessions []) := .loaded _ _
    exact hnew.of_same rfl rfl rfl
  exact hstep.entry_fresh (AList.notMem_empty key)

/-- A feed can evict the flow that was fed least recently only. -/
theorem InStep.evicts (h : InStep history engine) {evicted : FlowKey}
    (hevicted : (engine.db.getOrCreate key).2 = some evicted) :
    engine.db.maxSessions ≤ engine.db.sessions.entries.length ∧ engine.db.Least evicted ∧
      (engine.db.clock < 2 ^ 64 - 1 → ∃ later earlier, history = later ++ evicted :: earlier ∧
        ∀ other, other ∈ engine.db.sessions → other ≠ evicted → other ∈ later) := by
  have haccess := engine.db.getOrCreate_access key
  rw [hevicted] at haccess
  generalize (engine.db.getOrCreate key).1 = db at haccess
  cases haccess with
  | evict _ hfull hleast =>
      refine ⟨hfull, hleast, fun hclock => ?_⟩
      obtain ⟨later, earlier, rfl⟩ := List.append_of_mem (h.fed evicted hleast.mem)
      refine ⟨later, earlier, rfl, fun other hother hne => ?_⟩
      -- a flow that was fed before the evicted one has an earlier tick
      obtain hlater | hearlier := List.mem_append.mp (h.fed other hother)
      · exact hlater
      obtain heq | hearlier := List.mem_cons.mp hearlier
      · exact absurd heq hne
      have hordered := (List.pairwise_append.mp (h.recent hclock)).2.1
      have hafter := (List.pairwise_cons.mp hordered).1 other hearlier
      obtain ⟨session, hsession⟩ := Option.isSome_iff_exists.mp
        (AList.lookup_isSome.mpr hleast.mem)
      obtain ⟨session', hsession'⟩ := Option.isSome_iff_exists.mp (AList.lookup_isSome.mpr hother)
      have hlt := hafter session session' hsession hsession'
      exact absurd (hleast.le other session session' hsession hsession') (not_le.mpr hlt)

theorem Reached.maxSessions {maxSessions : Nat} {sms : List StateMachine}
    (h : Reached maxSessions sms engine history) : engine.db.maxSessions = maxSessions := by
  have hfeed : ∀ (engine : FsmEngine) (key : FlowKey) (msgType : String) (ctx : Env)
      (r : FsmEngine × String × List FsmEvent), engine.feed key msgType ctx = some r →
      r.1.db.maxSessions = engine.db.maxSessions := by
    intro engine key msgType ctx r hfeed
    obtain ⟨base, hroom, henters⟩ := feed_enters hfeed
    generalize r.1 = fed at henters
    cases henters with
    | mk => cases hroom <;> rfl
  have hfiring : ∀ (engine engine' : FsmEngine) (due : List (ArmedTimer × FlowKey × String))
      (fired : List FiredTimer), due.foldlM fireTimer (engine, []) = some (engine', fired) →
      engine'.db.maxSessions = engine.db.maxSessions := by
    intro engine engine' due fired hfire
    refine firing_invariant (P := fun e => e.db.maxSessions = engine.db.maxSessions)
      (fun e key name msgType ctx r h harmed hr => ?_) rfl hfire
    obtain ⟨hdb, -, -⟩ := e.cancelTimer_same key name
    rw [hfeed _ _ _ _ r hr, hdb, h]
  induction h with
  | loaded =>
      have hfold : ∀ (sms : List StateMachine) (engine : FsmEngine),
          (sms.foldl loadMachine engine).db = engine.db := by
        intro sms
        induction sms with
        | nil => exact fun _ => rfl
        | cons sm rest ih => exact fun engine => ih _
      exact congrArg SessionDb.maxSessions (hfold sms _)
  | @call engine engine' history fed c _ hcall ih =>
      rw [← ih]
      cases c with
      | feed key msgType ctx =>
          obtain ⟨r, hr, heq⟩ := Option.map_eq_some_iff.mp hcall
          cases heq
          exact hfeed _ _ _ _ r hr
      | scheduleTimer key name delayTicks =>
          cases hcall
          rfl
      | cancelTimer key name =>
          cases hcall
          rw [(engine.cancelTimer_same key name).1]
      | advanceAndFire ticks =>
          obtain ⟨⟨fired, timers⟩, hr, heq⟩ := Option.map_eq_some_iff.mp hcall
          cases heq
          exact hfiring (engine.advanceTimers ticks) _ _ _ hr
      | fireDueTimers =>
          obtain ⟨⟨fired, timers⟩, hr, heq⟩ := Option.map_eq_some_iff.mp hcall
          cases heq
          exact hfiring _ _ _ _ hr
      | expireIdle timeout =>
          cases hcall
          rw [(engine.expireIdle_spec timeout).1]
          rfl
  | advance _ _ ih => exact ih
  | firing _ _ hfire ih => rw [hfiring _ _ _ _ hfire, ih]
  | rehash _ hsame ih => rw [hsame.maxSessions, ih]

/-- What holds of the tables of an engine in a run that fed the flows of the history. -/
structure SessionTables (maxSessions : Nat) (engine : FsmEngine) (history : List FlowKey) :
    Prop where
  states : ∀ key, key ∈ engine.currentStates ↔ key ∈ engine.db.sessions
  variables_ : ∀ key, key ∈ engine.variables_ → key ∈ engine.db.sessions
  bounded : engine.db.sessions.entries.length ≤ max 1 maxSessions
  /-- Only a full table evicts, and the flow with the earliest access. As long as the
  clock counts, all others were fed after it. -/
  evicts : ∀ key evicted, (engine.db.getOrCreate key).2 = some evicted →
    maxSessions ≤ engine.db.sessions.entries.length ∧ engine.db.Least evicted ∧
      (engine.db.clock < 2 ^ 64 - 1 → ∃ later earlier, history = later ++ evicted :: earlier ∧
        ∀ other, other ∈ engine.db.sessions → other ≠ evicted → other ∈ later)
  /-- A flow whose session goes is forgotten. -/
  forgets : ∀ c engine' fed key, engine.call c = some (engine', fed) →
    key ∈ engine.db.sessions → key ∉ engine'.db.sessions → engine'.Forgotten key
  /-- It stays forgotten until a call feeds it or arms a timer for it. -/
  stays : ∀ c engine' fed key, engine.call c = some (engine', fed) → engine.Forgotten key →
    ¬ c.Concerns key → engine'.Forgotten key
  /-- A flow without a session enters in the initial state and without variables, is fed
  as by an engine that has seen no flow, and gets no timer. -/
  afresh : ∀ key, key ∉ engine.db.sessions →
    (engine.entry key).vars = none ∧
    (∀ machine initial, engine.initials.lookup machine = some initial →
      ((engine.entry key).seed engine.initials machine).current = initial) ∧
    ∀ msgType ctx, (engine.feed key msgType ctx).map (seen key) =
        (engine.fresh.feed key msgType ctx).map (seen key) ∧
      ∀ r, engine.feed key msgType ctx = some r → key ∈ r.1.timers → key ∈ engine.timers

/-- The tables of flows stay in step and bounded in every run. -/
theorem session_tables {maxSessions : Nat} {sms : List StateMachine}
    (h : Reached maxSessions sms engine history) : SessionTables maxSessions engine history := by
  have hstep := h.inStep
  obtain rfl := h.maxSessions
  refine ⟨hstep.states, hstep.variables_, hstep.bounded, fun key evicted => hstep.evicts,
    fun c engine' fed key => hstep.call_forgets,
    fun c engine' fed key hcall hforgotten => hforgotten.call hstep hcall, fun key hnew => ?_⟩
  have hentry := hstep.entry_fresh hnew
  refine ⟨congrArg FeedState.vars hentry, fun machine initial hinitial => ?_, fun msgType ctx =>
    ⟨?_, fun r hr => (feed_timers hr key).1⟩⟩
  · rw [hentry]
    unfold FeedState.seed
    simp only [hinitial, if_true]
  · rw [feed_seen, feed_seen, hentry, entry_of_fresh]
    rfl

/-- With room for one flow, a second one evicts the first and leaves nothing of it. -/
theorem session_tables_connection :
    ∃ engine₁ engine₂, (loaded 1 [.ofBlocks "C" none connection]).call
        (.feed (.pack [1]) "Open" fun _ => none) = some (engine₁, [.pack [1]]) ∧
      engine₁.call (.feed (.pack [2]) "Open" fun _ => none) = some (engine₂, [.pack [2]]) ∧
      engine₁.db.sessions.keys = [.pack [1]] ∧ engine₂.db.sessions.keys = [.pack [2]] ∧
      engine₂.Forgotten (.pack [1]) := by
  refine ⟨_, _, rfl, rfl, by decide, by decide, ?_⟩
  have hloaded : Reached 1 [.ofBlocks "C" none connection] (loaded 1 _) [] := .loaded
  have hfed : (loaded 1 [.ofBlocks "C" none connection]).call
      (.feed (.pack [1]) "Open" fun _ => none) = some (_, _) := rfl
  exact (session_tables (hloaded.call hfed)).forgets (.feed (.pack [2]) "Open" fun _ => none)
    _ _ _ rfl (by decide) (by decide)

end FsmEngine

end NFdl
