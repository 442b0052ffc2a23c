import Millipede.Crawler.Attempts
import Millipede.Crawler.Politeness

/-!
# A journal of attempts

What a run does with the requests, attempt by attempt: when a lease was fetched, with which
overrides an attempt was started, how long it took, what the directive that authorised the
next one asks for, and the duration that is reported in the end. The journal is written
beside the run, the latest note first, from what the dispatcher passes on; no step reads it.
`owed` and `spent` say what the next attempt and the report of a request should be given.
-/

namespace Millipede

def RetryDirective.overrides (directive : RetryDirective) : AttemptOverrides where
  proxyKind := directive.proxyKind
  userAgentProfile := directive.userAgentProfile
  backoff := directive.backoff

def RetryOptions.asked (opts : RetryOptions) (consulted : ℕ) (request : Request)
    (error : CrawlError) (observation : AttemptObservation) : AttemptOverrides :=
  match opts.retryStrategy with
  | some strategy =>
    (strategy.onRetry consulted (attemptOutcome request error observation)).overrides
  | none => {}

theorem retryDecision_overrides {opts : RetryOptions} {consulted : ℕ} {request : Request}
    {error : CrawlError} {observation : AttemptObservation}
    (h : (retryDecision opts consulted request error observation).eligible = true) :
    (retryDecision opts consulted request error observation).overrides.getD {} =
      opts.asked consulted request error observation := by
  cases hs : opts.retryStrategy with
  | none => simp [retryDecision, hs, defaultDecision, RetryOptions.asked]
  | some strategy =>
    cases hn : request.noRetry with
    | true => simp [retryDecision, hs, strategyDecision, hn] at h
    | false =>
      simp only [retryDecision, hs, strategyDecision, hn, Bool.false_eq_true, if_false,
        RetryOptions.asked] at h ⊢
      rw [h, Bool.true_and]
      generalize strategy.onRetry consulted (attemptOutcome request error observation) = directive
      obtain ⟨retries, backoff, proxyKind, profile, action⟩ := directive
      cases proxyKind <;> cases profile <;> cases backoff <;> rfl

namespace Engine

inductive Note where
  | fetched (key : String) (time : Instant)
  | started (key : String) (carried : AttemptOverrides) (time : Instant)
  | ended (key : String) (duration : Duration)
  | authorised (key : String) (overrides : AttemptOverrides)
  | reported (key : String) (duration : Duration)
  deriving DecidableEq

/-- What joining an attempt leaves `handle_completion` with; nothing after a cancellation. -/
def ending (state : SlotState) (joined : Joined) (now : Instant) :
    Option (Lease × Option CrawlError × Duration × AttemptObservation) :=
  match joined with
  | .cancelled => none
  | .panicked message =>
    some (state.lease, some (.retry (.msg ("request handler panicked: " ++ message))),
      now - state.started, {})
  | .finished output =>
    some (restoreCounters state.lease output.request, output.error, output.duration,
      output.observation)

def endNotes (opts : EngineOptions) (state : SlotState) (joined : Joined) (now : Instant)
    (consulted : ℕ) (t : State) : List Note :=
  match ending state joined now with
  | none => []
  | some (lease, error, duration, observation) =>
    let key := state.lease.request.uniqueKey
    match error, t.phase with
    | some error, .completing (.reclaiming _ _) =>
      [.authorised key (opts.retry.asked consulted lease.request error observation),
        .ended key duration]
    | _, _ => [.ended key duration]

def notes (opts : EngineOptions) (s : State) (e : Event) (t : State) : List Note :=
  match e with
  | .run now _ started =>
    if s.inFlight.length < t.inFlight.length then
      match popped s now with
      | some (entry, _) => [.started entry.lease.request.uniqueKey entry.carried started]
      | none => []
    else []
  | .fetched (some (.ok (some lease))) readyNow _ _ => [.fetched lease.request.uniqueKey readyNow]
  | .completed slot joined now _ consulted =>
    match s.slots.lookup slot with
    | some state => endNotes opts state joined now consulted t
    | none => []
  | .answered _ =>
    (t.results.drop s.results.length).map fun handled =>
      .reported handled.request.uniqueKey handled.duration
  | _ => []

/-- What the next attempt of a request is to be started with: the overrides of the directive
that authorised it. Nothing is owed before the first attempt, or once an attempt has
started. -/
def owed (key : String) : List Note → AttemptOverrides
  | [] => {}
  | .started k _ _ :: journal => if k = key then {} else owed key journal
  | .authorised k overrides :: journal => if k = key then overrides else owed key journal
  | _ :: journal => owed key journal

def fetchTime (key : String) : List Note → Option Instant
  | [] => none
  | .fetched k time :: journal => if k = key then some time else fetchTime key journal
  | _ :: journal => fetchTime key journal

def spent (key : String) : List Note → Duration
  | [] => 0
  | .ended k duration :: journal => spent key journal + if k = key then duration else 0
  | _ :: journal => spent key journal

/-- The completions after which a request is not attempted again in the run. -/
def Completing.closes : Completing → Bool
  | .abandonCancelled _ => false
  | .reclaiming _ _ => false
  | _ => true

def Completing.total : Completing → Option Duration
  | .markFinished _ total _ => some total
  | .failedHandler _ total _ _ _ => some total
  | .markFailed _ total _ _ _ => some total
  | _ => none

variable {opts : EngineOptions} {s t : State} {e : Event}

section Completions
variable {slot consulted : ℕ} {joined : Joined} {now : Instant} {handledAt : ℤ}

theorem step_completed (h : step opts s (.completed slot joined now handledAt consulted) = some t) :
    slot ∈ s.inFlight ∧ t = handleCompletion opts
      { s with clock := now, inFlight := s.inFlight.erase slot } slot joined now handledAt
      consulted := by
  simp only [step] at h
  split at h
  · split at h
    · rename_i hready
      cases h
      exact ⟨hready.2, rfl⟩
    · cases h
  · cases h

theorem handleCompletion_eq {state : SlotState} (h : s.slots.lookup slot = some state) :
    handleCompletion opts s slot joined now handledAt consulted =
      match ending state joined now with
      | none =>
        { s with
          slots := s.slots.erase slot, phase := .completing (.abandonCancelled state.lease) }
      | some (lease, error, duration, observation) =>
        conclude opts { s with slots := s.slots.erase slot } lease
          state.lease.request.url.hostStr error duration observation now handledAt consulted := by
  cases joined <;> simp [handleCompletion, h, ending]

theorem step_concluded {state : SlotState} {lease : Lease} {error : Option CrawlError}
    {duration : Duration} {observation : AttemptObservation}
    (h : step opts s (.completed slot joined now handledAt consulted) = some t)
    (hs : s.slots.lookup slot = some state)
    (hend : ending state joined now = some (lease, error, duration, observation)) :
    t = conclude opts
      { s with clock := now, inFlight := s.inFlight.erase slot, slots := s.slots.erase slot } lease
      state.lease.request.url.hostStr error duration observation now handledAt consulted := by
  obtain ⟨-, rfl⟩ := step_completed h
  have heq := @handleCompletion_eq opts
    { s with clock := now, inFlight := s.inFlight.erase slot } slot consulted joined now handledAt
    state hs
  rw [hend] at heq
  exact heq

theorem conclude_kept (opts : EngineOptions) (s : State) (lease : Lease) (host : Option String)
    (error : Option CrawlError) (duration : Duration) (observation : AttemptObservation)
    (now : Instant) (handledAt : ℤ) (consulted : ℕ) :
    let t := conclude opts s lease host error duration observation now handledAt consulted
    t.inFlight = s.inFlight ∧ t.draining = s.draining ∧ t.slots = s.slots ∧
      t.deferred = s.deferred ∧ t.deferredEntries = s.deferredEntries := by
  simp only [conclude]
  split
  · exact ⟨rfl, rfl, rfl, rfl, rfl⟩
  · split_ifs <;> exact ⟨rfl, rfl, rfl, rfl, rfl⟩

theorem handleCompletion_kept (s : State) :
    let t := handleCompletion opts s slot joined now handledAt consulted
    t.inFlight = s.inFlight ∧ t.draining = s.draining := by
  cases hs : s.slots.lookup slot with
  | none => simp [handleCompletion, hs]
  | some state =>
    rw [handleCompletion_eq hs]
    split
    · exact ⟨rfl, rfl⟩
    · exact ⟨(conclude_kept _ _ _ _ _ _ _ _ _ _).1, (conclude_kept _ _ _ _ _ _ _ _ _ _).2.1⟩

theorem conclude_cases (opts : EngineOptions) (s : State) (lease : Lease) (host : Option String)
    (error : Option CrawlError) (duration : Duration) (observation : AttemptObservation)
    (now : Instant) (handledAt : ℤ) (consulted : ℕ) :
    let t := conclude opts s lease host error duration observation now handledAt consulted
    let key := lease.request.uniqueKey
    let total := (s.accumulated.lookup key).getD 0 + duration
    (∃ error' lease' rotates, error = some error' ∧
      (retryDecision opts.retry consulted lease.request error' observation).eligible = true ∧
      t.phase = .completing (.reclaiming lease' rotates) ∧ lease'.request.uniqueKey = key ∧
      t.accumulated = s.accumulated.insert key total ∧
      t.overrides =
        match (retryDecision opts.retry consulted lease.request error' observation).overrides with
        | some overrides => s.overrides.insert key overrides
        | none => s.overrides) ∨
    ∃ c, t.phase = .completing c ∧ c.closes = true ∧ c.lease.request.uniqueKey = key ∧
      (∀ reported, c.total = some reported → reported = total) ∧
      t.accumulated = s.accumulated.erase key ∧ t.overrides = s.overrides.erase key := by
  intro t key total
  cases error with
  | none =>
    refine .inr ⟨_, rfl, rfl, rfl, ?_, rfl, rfl⟩
    intro reported hr
    cases hr
    rfl
  | some error =>
    simp only [t, conclude]
    split_ifs with hcritical hretry
    · exact .inr ⟨_, rfl, rfl, rfl, fun reported hr => (by cases hr), rfl, rfl⟩
    · refine .inl ⟨error, _, _, rfl, hretry, rfl, ?_, rfl, rfl⟩
      simp only [apply_ite Request.uniqueKey, pushError, ite_self]
      rfl
    · simp only [failFinally]
      split_ifs with hhandler
      · refine .inr ⟨_, rfl, rfl, rfl, ?_, rfl, rfl⟩
        intro reported hr
        cases hr
        rfl
      · refine .inr ⟨_, rfl, rfl, rfl, ?_, rfl, rfl⟩
        intro reported hr
        cases hr
        rfl

theorem endNotes_retried {state : SlotState} {lease lease' : Lease} {error : CrawlError}
    {duration : Duration} {observation : AttemptObservation} {rotates : Bool}
    (hend : ending state joined now = some (lease, some error, duration, observation))
    (hp : t.phase = .completing (.reclaiming lease' rotates)) :
    endNotes opts state joined now consulted t =
      [.authorised state.lease.request.uniqueKey
          (opts.retry.asked consulted lease.request error observation),
        .ended state.lease.request.uniqueKey duration] := by
  simp only [endNotes, hend, hp]

theorem endNotes_closed {state : SlotState} {lease : Lease} {error : Option CrawlError}
    {duration : Duration} {observation : AttemptObservation} {c : Completing}
    (hend : ending state joined now = some (lease, error, duration, observation))
    (hp : t.phase = .completing c) (hc : c.closes = true) :
    endNotes opts state joined now consulted t =
      [.ended state.lease.request.uniqueKey duration] := by
  simp only [endNotes, hend, hp]
  split
  · rename_i hphase
    cases hphase
    cases hc
  · rfl

end Completions

theorem inFlight_of_completed {slot consulted : ℕ} {joined : Joined} {now : Instant}
    {handledAt : ℤ}
    (h : step opts s (.completed slot joined now handledAt consulted) = some t) :
    t.inFlight.length < s.inFlight.length := by
  obtain ⟨hmem, rfl⟩ := step_completed h
  rw [(handleCompletion_kept _).1]
  have hpos := List.length_pos_of_mem hmem
  have hlen := List.length_erase_of_mem hmem
  simp only
  omega

theorem notes_eq_nil (h : step opts s e = some t) (hi : t.inFlight = s.inFlight)
    (hq : ∀ lease, queueCall s e ≠ some (.fetchNext, .ok (.leased (some lease))))
    (hr : t.results = s.results) : notes opts s e t = [] := by
  cases e with
  | run now tokenWait started => simp [notes, hi]
  | fetched reply readyNow stdNow renewNow =>
    match reply with
    | some (.ok (some lease)) => exact absurd rfl (hq lease)
    | some (.ok none) => rfl
    | some (.error e) => rfl
    | none => rfl
  | completed slot joined now handledAt consulted =>
    have hlt := inFlight_of_completed h
    rw [hi] at hlt
    exact absurd hlt (lt_irrefl _)
  | answered reply => simp [notes, hr]
  | _ => rfl

theorem notes_cancelled {slot consulted : ℕ} {state : SlotState} {now : Instant} {handledAt : ℤ}
    (h : s.slots.lookup slot = some state) :
    notes opts s (.completed slot .cancelled now handledAt consulted) t = [] := by
  simp only [notes, h, endNotes, ending]

theorem afterPump_draining (s : State) (desired : ℕ) :
    (afterPump opts s desired).draining = s.draining := by
  simp only [afterPump]
  split <;> rfl

theorem takeToken_draining (s : State) (desired sequence : ℕ) (entry : DeferredStart)
    (now : Instant) (tokenWait : Option Duration) (started : Instant) :
    (takeToken opts s desired sequence entry now tokenWait started).draining = s.draining := by
  cases tokenWait with
  | none => rfl
  | some wait => exact afterPump_draining _ _

theorem pump_draining (s : State) (desired : ℕ) (now : Instant) (tokenWait : Option Duration)
    (started : Instant) :
    (pump opts s desired now tokenWait started).draining = s.draining := by
  simp only [pump]
  split
  · split
    · exact afterPump_draining _ _
    · split
      · exact afterPump_draining _ _
      · split
        · rfl
        · split
          · exact takeToken_draining _ _ _ _ _ _ _
          · split
            · exact takeToken_draining _ _ _ _ _ _ _
            · split
              · rfl
              · exact takeToken_draining _ _ _ _ _ _ _
  · exact afterPump_draining _ _

theorem answer_draining {c : Completing} {reply : StorageResult Unit}
    (h : answer opts s c reply = some t) : t.draining = s.draining := by
  cases c <;> cases reply <;> cases h <;> rfl

theorem woken_draining (s : State) (wake : Wake) :
    (woken s wake).draining = s.draining ∨
      (woken s wake).draining = true ∧ ∀ desired, (woken s wake).phase ≠ .fetching desired := by
  simp only [woken]
  cases hw : wake == .drained
  · exact .inl (Bool.or_false _)
  · exact .inr ⟨Bool.or_true _, fun _ hp => (nomatch hp)⟩

theorem loopTop_draining (s : State) :
    ((loopTop opts s).draining = s.draining ∨ (loopTop opts s).draining = true) ∧
      (∀ desired, (loopTop opts s).phase ≠ .fetching desired) ∧
      ∀ rest, (loopTop opts s).phase = .abandoning rest .renew →
        (loopTop opts s).draining = true := by
  simp only [loopTop]
  split_ifs with hcancel hgather
  · exact ⟨.inl rfl, fun _ hp => (by cases hp), fun _ hp => (by cases hp)⟩
  · have hdraining := (Bool.and_eq_true_iff.mp hgather).1
    exact ⟨.inr hdraining, fun _ hp => (by cases hp), fun _ _ => hdraining⟩
  · refine ⟨?_, fun _ hp => (by cases hp), fun _ hp => (by cases hp)⟩
    simp only
    cases s.draining
    · exact Bool.eq_false_or_eq_true _ |>.symm
    · exact .inr rfl

theorem step_draining (h : step opts s e = some t) :
    t.draining = s.draining ∨ t.draining = true ∧ ∀ desired, t.phase ≠ .fetching desired := by
  cases e with
  | run now tokenWait started =>
    simp only [step] at h
    split_ifs at h with hclock
    obtain ⟨u, hu, rfl⟩ := Option.map_eq_some_iff.mp h
    simp only [runOn] at hu
    split at hu
    case h_1 =>
      cases hu
      obtain ⟨hsame | hon, hphase, -⟩ := @loopTop_draining opts s
      · exact .inl hsame
      · exact .inr ⟨hon, hphase⟩
    case h_4 =>
      cases hu
      exact .inl (pump_draining _ _ _ _ _)
    case h_5 =>
      cases hu
      refine .inl ?_
      simp only [settle]
      split_ifs <;> rfl
    case h_8 =>
      split_ifs at hu
      cases hu
      exact .inl rfl
    all_goals
      cases hu
      try exact .inl rfl
  | renewed i reply =>
    simp only [step] at h
    split at h
    · obtain ⟨sequence, -, rfl⟩ := Option.map_eq_some_iff.mp h
      refine .inl ?_
      simp only [renewed]
      split
      · rfl
      · split <;> rfl
    · cases h
  | fetched reply readyNow stdNow renewNow =>
    simp only [step] at h
    split at h
    · split_ifs at h
      split at h <;> cases h <;> exact .inl rfl
    · cases h
  | flag value =>
    simp only [step] at h
    split at h
    · split_ifs at h <;> cases h <;> exact .inl rfl
    · split_ifs at h <;> cases h <;> exact .inl rfl
    · cases h
  | woken wake now =>
    simp only [step] at h
    split_ifs at h
    split at h
    · split_ifs at h
      cases h
      exact woken_draining _ wake
    · split_ifs at h
      cases h
      exact woken_draining _ wake
    · cases h
  | completed slot joined now handledAt consulted =>
    obtain ⟨-, rfl⟩ := step_completed h
    exact .inl (handleCompletion_kept _).2
  | answered reply =>
    simp only [step] at h
    split at h
    · exact .inl (answer_draining h)
    · cases h
  | handlerDone =>
    simp only [step] at h
    split at h <;> cases h
    exact .inl rfl
  | joined slot =>
    simp only [step] at h
    split at h
    · split_ifs at h
      cases h
      exact .inl rfl
    · cases h
  | released i reply =>
    simp only [step] at h
    split at h
    · obtain ⟨lease, -, rfl⟩ := Option.map_eq_some_iff.mp h
      exact .inl rfl
    · cases h
  | abandoned i reply =>
    simp only [step] at h
    split at h
    · obtain ⟨lease, -, rfl⟩ := Option.map_eq_some_iff.mp h
      exact .inl rfl
    · cases h
  | _ =>
    cases h
    exact .inl rfl

theorem step_gathers (h : step opts s e = some t) (hp : s.phase = .top) {rest : List Lease}
    (hg : t.phase = .abandoning rest .renew) : t.draining = true := by
  cases e with
  | run now tokenWait started =>
    simp only [step, runOn, hp, Option.map_some] at h
    split_ifs at h with hclock
    cases h
    exact (loopTop_draining s).2.2 rest hg
  | completed slot joined now handledAt consulted => simp [step, hp] at h
  | woken wake now =>
    simp only [step, hp] at h
    split_ifs at h
  | renewed i reply => simp [step, hp] at h
  | fetched reply readyNow stdNow renewNow => simp [step, hp] at h
  | flag value => simp [step, hp] at h
  | answered reply => simp [step, hp] at h
  | handlerDone => simp [step, hp] at h
  | joined slot => simp [step, hp] at h
  | released i reply => simp [step, hp] at h
  | abandoned i reply => simp [step, hp] at h
  | _ =>
    cases h
    exact absurd (hp.symm.trans hg) (by simp)

end Engine

namespace System

open Engine

/-- Every request is stored under its own key. -/
def KeyedQueue (q : LeaseQueue) : Prop :=
  ∀ key request, Stored q key request → request.uniqueKey = key

/-- Hooks leave `unique_key` unchanged. -/
def KeepsKey (s : State) : Event → Prop
  | .completed slot (.finished output) _ _ _ =>
    ∀ state ∈ s.slots.lookup slot, output.request.uniqueKey = state.lease.request.uniqueKey
  | _ => True

instance (s : State) (e : Event) : Decidable (KeepsKey s e) :=
  match e with
  | .completed slot (.finished output) _ _ _ =>
    inferInstanceAs (Decidable (∀ state ∈ s.slots.lookup slot,
      output.request.uniqueKey = state.lease.request.uniqueKey))
  | .completed _ .cancelled _ _ _ | .completed _ (.panicked _) _ _ _ | .run _ _ _ | .renewed _ _
  | .fetched _ _ _ _ | .flag _ | .woken _ _ | .answered _ | .handlerDone | .joined _
  | .released _ _ | .abandoned _ _ | .cancel | .stop | .rescale _ | .setDelayFloor _ _ =>
    isTrue trivial

structure Keyed (u : System) : Prop where
  queue : KeyedQueue u.queue
  leases : ∀ lease ∈ held u.engine, u.queue.issued lease.leaseId = some lease.request.uniqueKey

variable {opts : EngineOptions} {s t : State} {q q' : LeaseQueue} {e : Event}

theorem keyedQueue_withdraw (h : KeyedQueue q) (expired : List LeaseId) :
    KeyedQueue (q.withdraw expired) := by
  intro key request hs
  obtain heq | ⟨id, r, -, hold, hnew⟩ := q.place_withdraw expired key
  · rw [Stored, heq] at hs
    exact h key request hs
  · rw [Stored, hnew] at hs
    obtain hs | ⟨leaseId, hs⟩ := hs
    · cases hs
      exact h key request (.inr ⟨id, hold⟩)
    · cases hs

theorem destination_uniqueKey {op : QueueOp} {lease : Lease} {request : Request}
    (hret : op.returned = some lease)
    (hd : LeaseQueue.destination op = some (.pending request)) :
    request.uniqueKey = lease.request.uniqueKey := by
  cases op <;> cases hret <;> cases hd
  · exact Request.reclaimed_uniqueKey _ _
  · rfl

theorem KeyedQueue.consumes {op : QueueOp} (h : KeyedQueue q) (hc : q.Consumes op q')
    (hkey : ∀ lease, op.returned = some lease →
      q.issued lease.leaseId = some lease.request.uniqueKey) : KeyedQueue q' := by
  obtain ⟨lease, key, r, place, hret, hgoes, hlive, -, hplace⟩ := hc.inv
  intro k request hs
  rw [Stored, hplace] at hs
  split_ifs at hs with hk
  · obtain rfl | ⟨leaseId, rfl⟩ := hs
    · have hissued := q.issued_of_leased _ _ _ hlive
      rw [hkey lease hret] at hissued
      rw [hk, destination_uniqueKey hret hgoes]
      exact Option.some.inj hissued
    · exact absurd rfl (LeaseQueue.destination_ne hgoes leaseId request)
  · exact h k request hs

theorem KeyedQueue.responds {expired : List LeaseId} {op : QueueOp}
    {reply : StorageResult QueueReply} (h : KeyedQueue q)
    (hr : q.Responds expired op reply q')
    (hkey : ∀ lease, op.returned = some lease →
      q.issued lease.leaseId = some lease.request.uniqueKey) : KeyedQueue q' := by
  have hw := keyedQueue_withdraw h expired
  cases hr with
  | leased lease key bound waiting fresh =>
    intro k request hs
    rw [Stored, LeaseQueue.place_grant] at hs
    split_ifs at hs with hk
    · obtain hs | ⟨leaseId, hs⟩ := hs
      · cases hs
      · cases hs
        rw [hk]
        exact hw key _ (.inl waiting)
    · exact hw k request hs
  | consumed op _ hc => exact hw.consumes hc hkey
  | refused op e _ hq =>
    obtain rfl | hc := hq
    · exact hw
    · exact hw.consumes hc hkey
  | _ => exact hw

theorem Concludes.uniqueKey {lease : Lease} {error : Option CrawlError}
    {observation : AttemptObservation} {handledAt : ℤ} {consulted : ℕ} {choice : Choice}
    {c : Completing} (h : Concludes opts lease observation handledAt consulted error choice c) :
    c.lease.request.uniqueKey = lease.request.uniqueKey := by
  cases h with
  | succeeded total => rfl
  | critical error hc => rfl
  | retried error rotates request hc he hr hq =>
    rw [hq]
    split_ifs <;> rfl
  | failed error c hc he hlease hcases =>
    rw [hlease]
    rfl

theorem Ends.uniqueKey {slot consulted : ℕ} {state : SlotState} {joined : Joined} {lease : Lease}
    {now : Instant} {handledAt : ℤ} {error : Option CrawlError} {observation : AttemptObservation}
    (h : Ends state.lease joined lease error observation)
    (hkeys : KeepsKey s (.completed slot joined now handledAt consulted))
    (hs : s.slots.lookup slot = some state) :
    lease.request.uniqueKey = state.lease.request.uniqueKey := by
  cases h with
  | panicked message => rfl
  | finished output => exact hkeys state hs

theorem returned_held (hf : Flow s e t) {op : QueueOp} {reply : StorageResult QueueReply}
    {lease : Lease} (hq : queueCall s e = some (op, reply)) (hr : op.returned = some lease) :
    lease ∈ held s := by
  cases hf with
  | kept hharmless hheld hlog =>
    rw [hq] at hharmless
    cases op <;> cases hr <;> exact hharmless.elim
  | took l hq' hheld hlog =>
    rw [hq] at hq'
    cases hq'
    cases hr
  | renewed l rest hq' hs ht hlog =>
    rw [hq] at hq'
    cases hq'
    cases hr
  | concluded old l choice c rest hq' hp hid hexp hid' hs ht hlog =>
    rw [hq] at hq'
    cases hq'
  | gave how op' l reply' rest hq' hret hhow hfrom hs ht hlog =>
    rw [hq] at hq'
    cases hq'
    rw [hret] at hr
    cases hr
    exact hs.mem_iff.mpr List.mem_cons_self

theorem held_key_of_move (hm : Move opts s e t) (hf : Flow s e t) (hkeys : KeepsKey s e)
    {lease : Lease} (hl : lease ∈ held t) :
    (∃ old ∈ held s, old.leaseId = lease.leaseId ∧
        old.request.uniqueKey = lease.request.uniqueKey) ∨
      queueCall s e = some (.fetchNext, .ok (.leased (some lease))) := by
  cases hf with
  | kept hq hheld hlog => exact .inl ⟨lease, hheld.mem_iff.mp hl, rfl, rfl⟩
  | took new hq hheld hlog =>
    obtain rfl | hl := List.mem_cons.mp (hheld.mem_iff.mp hl)
    · exact .inr hq
    · exact .inl ⟨lease, hl, rfl, rfl⟩
  | renewed old rest hq hs ht hlog =>
    obtain rfl | hl := List.mem_cons.mp (ht.mem_iff.mp hl)
    · exact .inl ⟨old, hs.mem_iff.mpr List.mem_cons_self, rfl, rfl⟩
    · exact .inl ⟨lease, hs.mem_iff.mpr (List.mem_cons_of_mem _ hl), rfl, rfl⟩
  | concluded old decided choice c rest hq hp hid hexp hid' hs ht hlog =>
    obtain rfl | hl := List.mem_cons.mp (ht.mem_iff.mp hl)
    · cases hm with
      | concluded wake slot state joined now handledAt consulted lease error observation choice c
          accumulated overrides statistics mode limiter hc hfrom hslot hs hends hcon hfin hfail
          hret hmode hl =>
        cases hp
        refine .inl ⟨state.lease, mem_held_of_slot hs, ?_, ?_⟩
        · rw [hcon.lease_eq.1, hends.lease_eq.1]
        · rw [Concludes.uniqueKey hcon, Ends.uniqueKey hends hkeys hs]
      | panic clock _ hc hlost hq ht hi =>
        rw [ht] at hlog
        simp at hlog
      | postponed now started tokenWait desired readyAt sequence rest entry limiter wait phase _ hc
          hn hfrom hlt hd hr he hl ht hafter =>
        rw [ht] at hlog
        simp at hlog
      | _ => simp [beginAbandon] at hlog
    · exact .inl ⟨lease, hs.mem_iff.mpr (List.mem_cons_of_mem _ hl), rfl, rfl⟩
  | gave how op given reply rest hq hret hhow hfrom hs ht hlog =>
    have hl := ht.mem_iff.mp hl
    exact .inl ⟨lease, hs.mem_iff.mpr (List.mem_cons_of_mem _ hl), rfl, rfl⟩

theorem Keyed.move (h : Keyed ⟨s, q⟩) (hm : Move opts s e t) (hf : Flow s e t)
    (hkeys : KeepsKey s e) {expired : List LeaseId} (hans : q.Reacts expired (queueCall s e) q') :
    Keyed ⟨t, q'⟩ := by
  have hissued : ∀ old ∈ held s, q'.issued old.leaseId = some old.request.uniqueKey :=
    fun old ho => hans.issued_some (h.leases old ho)
  have hqueue : KeyedQueue q' := by
    cases hq : queueCall s e with
    | none =>
      rw [hq] at hans
      cases hans
      exact h.queue
    | some call =>
      obtain ⟨op, reply⟩ := call
      rw [hq] at hans
      exact h.queue.responds hans fun lease hr => h.leases lease (returned_held hf hq hr)
  refine ⟨hqueue, ?_⟩
  intro lease hl
  obtain ⟨old, hold, hid, hkey⟩ | hq := held_key_of_move hm hf hkeys hl
  · rw [← hid, ← hkey]
    exact hissued old hold
  · rw [hq] at hans
    obtain ⟨key, -, hwait, hnone, rfl⟩ := LeaseQueue.Responds.lease_inv hans
    rw [LeaseQueue.issued_grant, if_pos rfl]
    rw [keyedQueue_withdraw h.queue expired key _ (.inl hwait)]

theorem Keyed.step {u v : System} {ev : SystemEvent} (h : Keyed u) (hl : Linked opts u)
    (hs : Step opts u ev v)
    (hkeys : ∀ e expired, ev = .engine e expired → KeepsKey u.engine e) : Keyed v := by
  have hfresh := (hl.step hs).fresh
  cases hs with
  | dispatched hstep hans =>
    have hm := step_move hstep
    exact h.move hm (hm.flow hl.accounted.sound hfresh) (hkeys _ _ rfl) hans
  | @added s q request =>
    refine ⟨?_, by simpa using h.leases⟩
    intro key r hr
    obtain heq | ⟨rfl, -, hnew⟩ := q.place_add request key
    · rw [Stored, heq] at hr
      exact h.queue key r hr
    · rw [Stored, hnew] at hr
      obtain hr | ⟨leaseId, hr⟩ := hr
      · cases hr
        rfl
      · cases hr

end System

end Millipede
