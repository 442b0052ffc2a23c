import Millipede.Crawler.Engine

/-!
# What a step of the dispatcher can do

The steps sorted by what they do to the leases: most move the dispatcher from phase to
phase and touch nothing else, the others take a lease in, hand it on inside the
dispatcher, or hand it out. `step_move` reads the sort and its guards off `step`;
the invariants of the dispatcher are proved by cases on it. `queueCall` is the call of
the queue that a step waits for, with the reply.
-/

namespace Millipede.Engine

def Completing.lease : Completing → Lease
  | .abandonCancelled lease => lease
  | .markFinished lease _ _ => lease
  | .abandonCritical lease _ => lease
  | .reclaiming lease _ => lease
  | .failedHandler lease _ _ _ _ => lease
  | .markFailed lease _ _ _ _ => lease

def Completing.op : Completing → Option QueueOp
  | .abandonCancelled lease => some (.abandon lease)
  | .markFinished lease _ _ => some (.markHandled lease)
  | .abandonCritical lease _ => some (.abandon lease)
  | .reclaiming lease rotates =>
    some (.reclaim lease { forefront := false, incrementRetry := !rotates })
  | .failedHandler _ _ _ _ _ => none
  | .markFailed lease _ _ _ _ => some (.markHandled lease)

def callKind : QueueOp → Option ConsumingCall
  | .markHandled _ => some .markHandled
  | .reclaim _ _ => some .reclaim
  | .abandon _ => some .abandon
  | _ => none

def Phase.leases : Phase → List Lease
  | .completing c => [c.lease]
  | .abandoning rest _ => rest
  | .releasing rest _ => rest
  | _ => []

def unitReply (reply : StorageResult Unit) : StorageResult QueueReply := reply.map fun _ => .unit

/-- A fetch or a flag that timed out was dropped while it waited for the queue's lock. -/
def queueCall (s : State) : Event → Option (QueueOp × StorageResult QueueReply)
  | .renewed i reply =>
    match s.phase with
    | .renewing due =>
      (due[i]?.bind fun sequence => s.deferredEntries.lookup sequence).map fun entry =>
        (.renew entry.lease.leaseId deferredLeaseExtension, unitReply reply)
    | _ => none
  | .fetched (some reply) _ _ _ => some (.fetchNext, reply.map .leased)
  | .flag (some value) =>
    match s.phase with
    | .checkingFinished _ => some (.isFinished, .ok (.flag value))
    | .checkingEmpty _ => some (.isEmpty, .ok (.flag value))
    | _ => none
  | .answered reply =>
    match s.phase with
    | .completing c => c.op.map fun op => (op, unitReply reply)
    | _ => none
  | .released i reply =>
    match s.phase with
    | .releasing rest _ => rest[i]?.map fun lease => (.abandon lease, unitReply reply)
    | _ => none
  | .abandoned i reply =>
    match s.phase with
    | .abandoning rest _ => rest[i]?.map fun lease => (.abandon lease, unitReply reply)
    | _ => none
  | _ => none

def Harmless : Option (QueueOp × StorageResult QueueReply) → Prop
  | none => True
  | some (.fetchNext, reply) => ∀ lease, reply ≠ .ok (.leased (some lease))
  | some (.renew _ _, reply) => ∃ e, reply = .error e
  | some (.isEmpty, _) => True
  | some (.isFinished, _) => True
  | _ => False

def LimiterMove (delay : Duration) (limiter limiter' : DomainLimiter) : Prop :=
  limiter' = limiter ∨
    (∃ host floor, limiter' = DomainLimiter.setDelayFloor delay limiter host floor) ∨
    ∃ host status retryAfter now,
      limiter' = DomainLimiter.noteResponse delay limiter host status retryAfter now

def ModeMove (pool : AutoscaledPool) (mode mode' : PoolMode) : Prop :=
  mode' = mode ∨ (∃ decision, mode' = mode.rescale pool decision) ∨
    ∃ kind, mode' = mode.recordOutcome pool kind

def dueEntries (s : State) (now : Instant) : List ℕ :=
  (s.deferredEntries.entries.filter fun e => e.2.renewAt ≤ now).map Sigma.fst

structure Fetchable (opts : EngineOptions) (s : State) (desired : ℕ) : Prop where
  draining : s.draining = false
  limit : requestLimitReserved opts s = false
  running : s.inFlight.length < desired
  room : s.deferredEntries.len < s.deferredCap

inductive PhaseMove (opts : EngineOptions) (s : State) : Phase → Prop
  | stay : PhaseMove opts s s.phase
  | abort (outcome : Option CrawlError) :
      (s.phase = .top ∨ ∃ due, s.phase = .renewing due) → PhaseMove opts s (.joining outcome)
  | scan : (s.phase = .top ∨ s.phase = .abandoning [] .renew) → PhaseMove opts s .renewScan
  | renew (now : Instant) :
      s.phase = .renewScan → PhaseMove opts s (.renewing (dueEntries s now))
  | pump : s.phase = .renewing [] → PhaseMove opts s (.pumping s.mode.desiredConcurrency)
  | fetch (desired : ℕ) :
      s.phase = .pumping desired → Fetchable opts s desired → PhaseMove opts s (.fetching desired)
  | settle (desired : ℕ) :
      (s.phase = .pumping desired ∨ s.phase = .fetching desired) → PhaseMove opts s .settling
  | select (wake : Option Instant) : s.phase = .settling → PhaseMove opts s (.selecting wake)
  | check (wake : Option Instant) :
      s.phase = .settling → s.inFlight = [] → s.deferredEntries.entries = [] →
      PhaseMove opts s (.checkingFinished wake)
  | drained : s.phase = .settling → s.inFlight = [] → s.deferredEntries.entries = [] →
      PhaseMove opts s (.returned none)
  | finished (wake : Option Instant) :
      s.phase = .checkingFinished wake → PhaseMove opts s (.returned none)
  | checkEmpty (wake : Option Instant) :
      s.phase = .checkingFinished wake → PhaseMove opts s (.checkingEmpty wake)
  | idle (wake : Option Instant) :
      s.phase = .checkingEmpty wake → PhaseMove opts s (.idling wake)
  | again (wake : Option Instant) :
      (s.phase = .checkingEmpty wake ∨ s.phase = .idling wake ∨ s.phase = .selecting wake) →
      PhaseMove opts s .top
  | handled (lease : Lease) (total : Duration) (errorText : String) (status : Option StatusCode)
      (loadedUrl : Option Url) :
      s.phase = .completing (.failedHandler lease total errorText status loadedUrl) →
      PhaseMove opts s (.completing (.markFailed lease total errorText status loadedUrl))
  | exits (outcome : Option CrawlError) :
      s.phase = .abandoning [] (.finish outcome) → PhaseMove opts s (.returned outcome)

inductive AfterPutBack (opts : EngineOptions) (s : State) (desired : ℕ) : Phase → Prop
  | again : AfterPutBack opts s desired (.pumping desired)
  | settle : AfterPutBack opts s desired .settling
  | fetch : Fetchable opts s desired → AfterPutBack opts s desired (.fetching desired)

inductive Ends (lease : Lease) : Joined → Lease → Option CrawlError → AttemptObservation → Prop
  | panicked (message : String) :
      Ends lease (.panicked message) lease
        (some (.retry (.msg ("request handler panicked: " ++ message)))) {}
  | finished (output : AttemptOutput) :
      Ends lease (.finished output) (restoreCounters lease output.request) output.error
        output.observation

/-- The branch that `handle_completion` takes and what it is going to do. -/
inductive Concludes (opts : EngineOptions) (lease : Lease) (observation : AttemptObservation)
    (handledAt : ℤ) (consulted : ℕ) : Option CrawlError → Choice → Completing → Prop
  | succeeded (total : Duration) :
      Concludes opts lease observation handledAt consulted none .succeeded
        (.markFinished
          { lease with
            request := { lease.request with
              loadedUrl := observation.loadedUrl, state := .done, handledAt := some handledAt } }
          total observation)
  | critical (error : CrawlError) : error.isCritical = true →
      Concludes opts lease observation handledAt consulted (some error) .critical
        (.abandonCritical
          { lease with request := pushError lease.request (error.toText opts.debugStr) } error)
  | retried (error : CrawlError) (rotates : Bool) (request : Request) : error.isCritical = false →
      (retryDecision opts.retry consulted lease.request error observation).eligible = true →
      rotates = (retryDecision opts.retry consulted lease.request error observation).rotates →
      request = (if rotates then
          { pushError lease.request (error.toText opts.debugStr) with
            sessionRotationCount := (lease.request.sessionRotationCount + 1) % 2 ^ 32 }
        else pushError lease.request (error.toText opts.debugStr)) →
      Concludes opts lease observation handledAt consulted (some error) (.retried rotates)
        (.reclaiming { lease with request } rotates)
  | failed (error : CrawlError) (c : Completing) : error.isCritical = false →
      (retryDecision opts.retry consulted lease.request error observation).eligible = false →
      c.lease = { lease with
        request := { pushError lease.request (error.toText opts.debugStr) with
          state := .error, handledAt := some handledAt } } →
      ((∃ total text status loadedUrl, c = .failedHandler c.lease total text status loadedUrl) ∨
        ∃ total text status loadedUrl, c = .markFailed c.lease total text status loadedUrl) →
      Concludes opts lease observation handledAt consulted (some error) .failed c

inductive Settles (s : State) :
    Completing → StorageResult Unit → Statistics → List HandledRequest → Phase → Prop
  | finished (lease : Lease) (total : Duration) (observation : AttemptObservation)
      (handled : HandledRequest) :
      Settles s (.markFinished lease total observation) (.ok ())
        (s.statistics.recordFinished total observation.status lease.request.retryCount)
        (s.results ++ [handled]) .top
  | failed (lease : Lease) (total : Duration) (errorText : String) (status : Option StatusCode)
      (loadedUrl : Option Url) (handled : HandledRequest) :
      Settles s (.markFailed lease total errorText status loadedUrl) (.ok ())
        (s.statistics.recordFailed total errorText lease.request.retryCount)
        (s.results ++ [handled]) .top
  | abandoned (lease : Lease) :
      Settles s (.abandonCancelled lease) (.ok ()) s.statistics s.results .top
  | reclaimed (lease : Lease) (rotates : Bool) :
      Settles s (.reclaiming lease rotates) (.ok ()) s.statistics s.results .top
  | critical (lease : Lease) (error : CrawlError) (reply : StorageResult Unit)
      (outcome : Option CrawlError) :
      Settles s (.abandonCritical lease error) reply s.statistics s.results (.joining outcome)
  | refused (c : Completing) (e : StorageError) (outcome : Option CrawlError) :
      Settles s c (.error e) s.statistics s.results (.joining outcome)

def Choice.retries : Choice → ℕ
  | .retried _ => 1
  | _ => 0

/-- The host's slot is taken when an entry is popped for the first time; one that has a
slot already is left to the start budget. -/
def Reserves (delay : Duration) (limiter : DomainLimiter) (entry : DeferredStart)
    (now : Instant) (limiter' : DomainLimiter) (wait : Duration) : Prop :=
  (limiter' = limiter ∧ (entry.domainReserved = true ∨ entry.lease.request.url.hostStr = none)) ∨
    ∃ host, entry.domainReserved = false ∧ entry.lease.request.url.hostStr = some host ∧
      limiter' = (DomainLimiter.reserveSlot delay limiter host now).2 ∧
      (DomainLimiter.reserveSlot delay limiter host now).1 ≤ wait

inductive Move (opts : EngineOptions) (s : State) : Event → State → Prop
  | quiet {e : Event} (clock : Instant) (cancelled drain draining : Bool) (mode : PoolMode)
      (limiter : DomainLimiter) (phase : Phase) :
      s.clock ≤ clock → ModeMove opts.pool s.mode mode →
      LimiterMove opts.pool.sameDomainDelay s.limiter limiter → PhaseMove opts s phase →
      Harmless (queueCall s e) →
      Move opts s e { s with clock, cancelled, drain, draining, mode, limiter, phase }
  | panic {e : Event} (clock : Instant) (t : State) : s.clock ≤ clock →
      ((∃ due sequence, s.phase = .renewing due ∧ sequence ∈ due ∧
          s.deferredEntries.lookup sequence = none) ∨
        (∃ desired readyAt sequence rest, s.phase = .pumping desired ∧
          s.deferred = (readyAt, sequence) :: rest ∧
          s.deferredEntries.lookup sequence = none) ∨
        ∃ slot ∈ s.inFlight, (∃ wake, s.phase = .selecting wake) ∧
          s.slots.lookup slot = none) →
      queueCall s e = none →
      t = { s with clock, inFlight := t.inFlight, phase := .panicked } →
      t.inFlight.length ≤ s.inFlight.length → Move opts s e t
  | gather {e : Event} (clock : Instant) (drain draining : Bool) (next : AfterAbandon) :
      s.clock ≤ clock →
      ((s.phase = .top ∧ next = .renew) ∨
        ∃ outcome, s.phase = .releasing [] outcome ∧ next = .finish outcome) →
      queueCall s e = none → Move opts s e (beginAbandon { s with clock, drain, draining } next)
  | release {e : Event} (clock : Instant) (outcome : Option CrawlError) :
      s.clock ≤ clock → s.phase = .joining outcome → s.inFlight = [] → queueCall s e = none →
      Move opts s e { s with clock, slots := ∅, phase := .releasing (slotLeases s) outcome }
  | renewed (due : List ℕ) (i sequence : ℕ) (entry : DeferredStart) :
      s.phase = .renewing due → due[i]? = some sequence →
      s.deferredEntries.lookup sequence = some entry →
      queueCall s (.renewed i (.ok ())) =
        some (.renew entry.lease.leaseId deferredLeaseExtension, .ok .unit) →
      Move opts s (.renewed i (.ok ()))
        { s with
          deferredEntries := s.deferredEntries.insert sequence entry.extended
          phase := .renewing (due.eraseIdx i) }
  | postponed (now started : Instant) (tokenWait : Option Duration) (desired : ℕ)
      (readyAt : Instant) (sequence : ℕ) (rest : List (Instant × ℕ)) (entry : DeferredStart)
      (limiter : DomainLimiter) (wait : Duration) (phase : Phase) (t : State) :
      s.clock ≤ now → now ≤ started → s.phase = .pumping desired →
      s.inFlight.length < desired → s.deferred = (readyAt, sequence) :: rest → readyAt ≤ now →
      s.deferredEntries.lookup sequence = some entry →
      Reserves opts.pool.sameDomainDelay s.limiter entry now limiter wait →
      t = { s with
        clock := started
        limiter
        deferred := heapPush (now + wait, sequence) rest
        deferredEntries := (s.deferredEntries.erase sequence).insert sequence
          { entry with domainReserved := true }
        phase } →
      AfterPutBack opts t desired phase → Move opts s (.run now tokenWait started) t
  | started (now started : Instant) (desired : ℕ)
      (readyAt : Instant) (sequence : ℕ) (rest : List (Instant × ℕ)) (entry : DeferredStart)
      (limiter : DomainLimiter) :
      s.clock ≤ now → now ≤ started → s.phase = .pumping desired →
      s.inFlight.length < desired → s.deferred = (readyAt, sequence) :: rest → readyAt ≤ now →
      s.deferredEntries.lookup sequence = some entry →
      Reserves opts.pool.sameDomainDelay s.limiter entry now limiter 0 →
      Move opts s (.run now none started)
        { s with
          clock := started
          limiter
          deferred := rest
          deferredEntries := s.deferredEntries.erase sequence
          nextSlot := (s.nextSlot + 1) % 2 ^ 64
          inFlight := s.inFlight ++ [s.nextSlot]
          slots := s.slots.insert s.nextSlot { lease := entry.lease, started }
          log := .started entry.lease started :: s.log }
  | fetched (desired : ℕ) (lease : Lease) (readyNow stdNow renewNow : Instant)
      (overrides : HashMap String AttemptOverrides) (carried : AttemptOverrides)
      (readyAt renewAt : Instant) :
      s.clock ≤ readyNow → readyNow ≤ stdNow → stdNow ≤ renewNow →
      s.phase = .fetching desired → readyNow ≤ readyAt →
      renewAt = renewNow + (lease.expiresAt - stdNow - deferredLeaseRenewalMargin) →
      Move opts s (.fetched (some (.ok (some lease))) readyNow stdNow renewNow)
        { s with
          clock := renewNow
          overrides
          nextDeferred := (s.nextDeferred + 1) % 2 ^ 64
          deferred := heapPush (readyAt, s.nextDeferred) s.deferred
          deferredEntries := s.deferredEntries.insert s.nextDeferred
            { lease, carried, domainReserved := false, renewAt }
          phase := .pumping desired
          log := .fetched lease :: s.log }
  | cancelledAttempt (wake : Option Instant) (slot : ℕ) (state : SlotState) (now : Instant)
      (handledAt : ℤ) (consulted : ℕ) :
      s.clock ≤ now → s.phase = .selecting wake → slot ∈ s.inFlight →
      s.slots.lookup slot = some state →
      Move opts s (.completed slot .cancelled now handledAt consulted)
        { s with
          clock := now
          inFlight := s.inFlight.erase slot
          slots := s.slots.erase slot
          phase := .completing (.abandonCancelled state.lease) }
  | concluded (wake : Option Instant) (slot : ℕ) (state : SlotState) (joined : Joined)
      (now : Instant) (handledAt : ℤ) (consulted : ℕ) (lease : Lease) (error : Option CrawlError)
      (observation : AttemptObservation) (choice : Choice) (c : Completing)
      (accumulated : HashMap String Duration) (overrides : HashMap String AttemptOverrides)
      (statistics : Statistics) (mode : PoolMode) (limiter : DomainLimiter) :
      s.clock ≤ now → s.phase = .selecting wake → slot ∈ s.inFlight →
      s.slots.lookup slot = some state → Ends state.lease joined lease error observation →
      Concludes opts lease observation handledAt consulted error choice c →
      statistics.requestsFinished = s.statistics.requestsFinished →
      statistics.requestsFailed = s.statistics.requestsFailed →
      statistics.requestsRetries = s.statistics.requestsRetries + choice.retries →
      ModeMove opts.pool s.mode mode →
      LimiterMove opts.pool.sameDomainDelay s.limiter limiter →
      Move opts s (.completed slot joined now handledAt consulted)
        { s with
          clock := now
          inFlight := s.inFlight.erase slot
          slots := s.slots.erase slot
          accumulated, overrides, statistics, mode, limiter
          phase := .completing c
          log := .decided lease choice :: s.log }
  | answered (c : Completing) (how : ConsumingCall) (op : QueueOp) (reply : StorageResult Unit)
      (statistics : Statistics) (results : List HandledRequest) (phase : Phase) :
      s.phase = .completing c → c.op = some op → callKind op = some how →
      Settles s c reply statistics results phase →
      Move opts s (.answered reply)
        { s with statistics, results, phase, log := .called how c.lease reply.isOk :: s.log }
  | joined (slot : ℕ) (outcome : Option CrawlError) :
      s.phase = .joining outcome → slot ∈ s.inFlight →
      Move opts s (.joined slot) { s with inFlight := s.inFlight.erase slot }
  | dropped {e : Event} (rest : List Lease) (i : ℕ) (lease : Lease) (reply : StorageResult Unit)
      (phase : Phase) :
      rest[i]? = some lease →
      ((∃ outcome, s.phase = .releasing rest outcome ∧
          phase = .releasing (rest.eraseIdx i) outcome) ∨
        ∃ next, s.phase = .abandoning rest next ∧ phase = .abandoning (rest.eraseIdx i) next) →
      queueCall s e = some (.abandon lease, unitReply reply) →
      Move opts s e { s with phase, log := .called .abandon lease reply.isOk :: s.log }

variable {opts : EngineOptions} {s t : State} {e : Event}

theorem ModeMove.refl {mode : PoolMode} : ModeMove opts.pool mode mode := Or.inl rfl

theorem LimiterMove.refl {delay : Duration} {limiter : DomainLimiter} :
    LimiterMove delay limiter limiter := Or.inl rfl

theorem Move.pass {clock : Instant} {phase : Phase} (hc : s.clock ≤ clock)
    (hp : PhaseMove opts s phase) (hq : Harmless (queueCall s e)) :
    Move opts s e { s with clock, phase } :=
  .quiet clock s.cancelled s.drain s.draining s.mode s.limiter phase hc .refl .refl hp hq

theorem loopTop_move (hp : s.phase = .top) {clock : Instant} (hc : s.clock ≤ clock)
    (hq : queueCall s e = none) : Move opts s e { loopTop opts s with clock } := by
  have hharmless : Harmless (queueCall s e) := by rw [hq]; trivial
  simp only [loopTop]
  split_ifs with hcancel hgather
  · exact .pass hc (.abort none (.inl hp)) hharmless
  · exact .gather clock _ _ .renew hc (.inl ⟨hp, rfl⟩) hq
  · exact .quiet clock s.cancelled _ _ s.mode s.limiter .renewScan hc .refl .refl
      (.scan (.inl hp)) hharmless

theorem afterPump_phase (opts : EngineOptions) (s : State) (desired : ℕ) :
    ∃ phase, afterPump opts s desired = { s with phase } ∧
      (phase = .settling ∨ phase = .fetching desired ∧ Fetchable opts s desired) := by
  simp only [afterPump]
  split_ifs with h
  · exact ⟨_, rfl, .inl rfl⟩
  · refine ⟨_, rfl, .inr ⟨rfl, ?_⟩⟩
    simp only [Bool.or_eq_true, decide_eq_true_eq, not_or, Bool.not_eq_true, not_le] at h
    exact ⟨h.1.1.1, h.1.1.2, h.1.2, h.2⟩

theorem afterPump_move {desired : ℕ} (hp : s.phase = .pumping desired) {clock : Instant}
    (hc : s.clock ≤ clock) (hq : queueCall s e = none) :
    Move opts s e { afterPump opts s desired with clock } := by
  have hharmless : Harmless (queueCall s e) := by rw [hq]; trivial
  obtain ⟨phase, heq, hphase⟩ := afterPump_phase opts s desired
  rw [heq]
  obtain rfl | ⟨rfl, hf⟩ := hphase
  · exact .pass hc (.settle desired (.inl hp)) hharmless
  · exact .pass hc (.fetch desired hp hf) hharmless

section Pump
variable {desired sequence : ℕ} {now started readyAt : Instant} {tokenWait : Option Duration}
  {rest : List (Instant × ℕ)} {entry : DeferredStart}

theorem takeToken_move (limiter : DomainLimiter) (hc : s.clock ≤ now) (hn : now ≤ started)
    (hp : s.phase = .pumping desired) (hlt : s.inFlight.length < desired)
    (hd : s.deferred = (readyAt, sequence) :: rest) (hr : readyAt ≤ now)
    (he : s.deferredEntries.lookup sequence = some entry)
    (hl : Reserves opts.pool.sameDomainDelay s.limiter entry now limiter 0) :
    Move opts s (.run now tokenWait started)
      { takeToken opts
          { s with
            deferred := rest, deferredEntries := s.deferredEntries.erase sequence, limiter }
          desired sequence { entry with domainReserved := true } now tokenWait started with
        clock := started } := by
  cases tokenWait with
  | none =>
    exact .started now started desired readyAt sequence rest entry limiter hc hn hp hlt hd hr he hl
  | some wait =>
    have hl' : Reserves opts.pool.sameDomainDelay s.limiter entry now limiter wait := by
      obtain hkept | ⟨host, h₁, h₂, h₃, h₄⟩ := hl
      · exact .inl hkept
      · exact .inr ⟨host, h₁, h₂, h₃, h₄.trans (Nat.zero_le _)⟩
    simp only [takeToken, putBack]
    obtain ⟨phase, heq, hphase⟩ := afterPump_phase opts
      { s with
        limiter
        deferred := heapPush (now + wait, sequence) rest
        deferredEntries := (s.deferredEntries.erase sequence).insert sequence
          { entry with domainReserved := true } } desired
    rw [heq]
    refine .postponed now started (some wait) desired readyAt sequence rest entry limiter wait
      phase _ hc hn hp hlt hd hr he hl' rfl ?_
    obtain rfl | ⟨rfl, hf⟩ := hphase
    · exact .settle
    · exact .fetch { hf with }

theorem pump_move (hc : s.clock ≤ now) (hn : now ≤ started) (hp : s.phase = .pumping desired) :
    Move opts s (.run now tokenWait started)
      { pump opts s desired now tokenWait started with clock := started } := by
  have hle := hc.trans hn
  simp only [pump]
  split_ifs with hlt
  · cases hd : s.deferred with
    | nil => exact afterPump_move hp hle rfl
    | cons head rest =>
      obtain ⟨readyAt, sequence⟩ := head
      simp only
      split_ifs with hready
      · exact afterPump_move hp hle rfl
      · have hr : readyAt ≤ now := not_lt.mp hready
        cases he : s.deferredEntries.lookup sequence with
        | none =>
          exact .panic started _ hle (.inr (.inl ⟨desired, readyAt, sequence, rest, hp, hd, he⟩))
            rfl (by rw [← hd]) le_rfl
        | some entry =>
          obtain ⟨lease, carried, domainReserved, renewAt⟩ := entry
          simp only
          cases domainReserved with
          | true =>
            exact takeToken_move s.limiter hc hn hp hlt hd hr he
              (.inl ⟨rfl, .inl rfl⟩)
          | false =>
            simp only [Bool.false_eq_true, if_false]
            cases hh : lease.request.url.hostStr with
            | none =>
              exact takeToken_move s.limiter hc hn hp hlt hd hr he
                (.inl ⟨rfl, .inr hh⟩)
            | some host =>
              simp only
              split_ifs with hw
              · exact .postponed now started tokenWait desired readyAt sequence rest _ _ _ _ _
                  hc hn hp hlt hd hr he (.inr ⟨host, rfl, hh, rfl, le_rfl⟩) rfl (hp ▸ .again)
              · have hw : (DomainLimiter.reserveSlot opts.pool.sameDomainDelay s.limiter host
                    now).1 = 0 := by simpa using hw
                exact takeToken_move _ hc hn hp hlt hd hr he (.inr ⟨host, rfl, hh, rfl, hw.le⟩)
  · exact afterPump_move hp hle rfl

end Pump

section Completion
variable {slot : ℕ} {state : SlotState} {now : Instant} {handledAt : ℤ} {consulted : ℕ}
  {wake : Option Instant}

theorem noteOutcome_mode (opts : EngineOptions) (s : State) (host : Option String)
    (error : Option CrawlError) (observation : AttemptObservation) (now : Instant) :
    ModeMove opts.pool s.mode (noteOutcome opts s host error observation now).mode :=
  .inr (.inr ⟨_, rfl⟩)

theorem noteOutcome_limiter (opts : EngineOptions) (s : State) (host : Option String)
    (error : Option CrawlError) (observation : AttemptObservation) (now : Instant) :
    LimiterMove opts.pool.sameDomainDelay s.limiter
      (noteOutcome opts s host error observation now).limiter := by
  cases host with
  | none => exact .refl
  | some host => exact .inr (.inr ⟨host, _, _, _, rfl⟩)

theorem conclude_move {joined : Joined} {lease : Lease} {error : Option CrawlError}
    {observation : AttemptObservation} {duration : Duration} (host : Option String)
    (hc : s.clock ≤ now) (hp : s.phase = .selecting wake) (hslot : slot ∈ s.inFlight)
    (hs : s.slots.lookup slot = some state)
    (hends : Ends state.lease joined lease error observation) :
    Move opts s (.completed slot joined now handledAt consulted)
      (conclude opts
        { s with
          clock := now, inFlight := s.inFlight.erase slot, slots := s.slots.erase slot }
        lease host error duration observation now handledAt consulted) := by
  have hmode := noteOutcome_mode opts s host error observation now
  have hlimiter := noteOutcome_limiter opts s host error observation now
  cases error with
  | none =>
    exact .concluded wake slot state joined now handledAt consulted lease none observation
      .succeeded _ _ _ _ _ _ hc hp hslot hs hends (.succeeded _) rfl rfl rfl hmode hlimiter
  | some error =>
    simp only [conclude]
    split_ifs with hcrit helig
    · exact .concluded wake slot state joined now handledAt consulted lease _ observation
        .critical _ _ _ _ _ _ hc hp hslot hs hends (.critical error hcrit) rfl rfl rfl
        hmode hlimiter
    · exact .concluded wake slot state joined now handledAt consulted lease _ observation
        (.retried _) _ _ _ _ _ _ hc hp hslot hs hends
        (.retried error _ _ (by simpa using hcrit) helig rfl rfl) rfl rfl rfl hmode hlimiter
    · refine .concluded wake slot state joined now handledAt consulted lease _ observation
        .failed _ _ _ _ _ _ hc hp hslot hs hends
        (.failed error _ (by simpa using hcrit) (by simpa using helig) ?_ ?_) rfl rfl rfl hmode
        hlimiter
      · split_ifs <;> rfl
      · split_ifs
        · exact .inl ⟨_, _, _, _, rfl⟩
        · exact .inr ⟨_, _, _, _, rfl⟩

theorem handleCompletion_move (joined : Joined) (hc : s.clock ≤ now)
    (hp : s.phase = .selecting wake) (hslot : slot ∈ s.inFlight) :
    Move opts s (.completed slot joined now handledAt consulted)
      (handleCompletion opts { s with clock := now, inFlight := s.inFlight.erase slot } slot joined
        now handledAt consulted) := by
  simp only [handleCompletion]
  cases hs : s.slots.lookup slot with
  | none =>
    exact .panic now _ hc (.inr (.inr ⟨slot, hslot, ⟨wake, hp⟩, hs⟩)) rfl rfl
      List.length_erase_le
  | some state =>
    cases joined with
    | cancelled =>
      exact .cancelledAttempt wake slot state now handledAt consulted hc hp hslot hs
    | panicked message => exact conclude_move _ hc hp hslot hs (.panicked message)
    | finished output => exact conclude_move _ hc hp hslot hs (.finished output)

theorem answer_move {c : Completing} {reply : StorageResult Unit}
    (hp : s.phase = .completing c) (h : answer opts s c reply = some t) :
    Move opts s (.answered reply) t := by
  cases c with
  | failedHandler => cases h
  | abandonCancelled lease =>
    cases reply with
    | ok u =>
      cases h
      exact .answered _ .abandon _ _ _ _ _ hp rfl rfl (.abandoned lease)
    | error e =>
      cases h
      exact .answered _ .abandon _ _ _ _ _ hp rfl rfl (.refused _ e _)
  | markFinished lease total observation =>
    cases reply with
    | ok u =>
      cases h
      exact .answered _ .markHandled _ _ _ _ _ hp rfl rfl (.finished lease total observation _)
    | error e =>
      cases h
      exact .answered _ .markHandled _ _ _ _ _ hp rfl rfl (.refused _ e _)
  | abandonCritical lease error =>
    cases h
    exact .answered _ .abandon _ _ _ _ _ hp rfl rfl (.critical lease error reply _)
  | reclaiming lease rotates =>
    cases reply with
    | ok u =>
      cases h
      exact .answered _ .reclaim _ _ _ _ _ hp rfl rfl (.reclaimed lease rotates)
    | error e =>
      cases h
      exact .answered _ .reclaim _ _ _ _ _ hp rfl rfl (.refused _ e _)
  | markFailed lease total errorText status loadedUrl =>
    cases reply with
    | ok u =>
      cases h
      exact .answered _ .markHandled _ _ _ _ _ hp rfl rfl
        (.failed lease total errorText status loadedUrl _)
    | error e =>
      cases h
      exact .answered _ .markHandled _ _ _ _ _ hp rfl rfl (.refused _ e _)

end Completion

theorem settle_move {now clock : Instant} (hp : s.phase = .settling) (hc : s.clock ≤ clock)
    (hq : queueCall s e = none) : Move opts s e { settle s now with clock } := by
  have hharmless : Harmless (queueCall s e) := by rw [hq]; trivial
  simp only [settle]
  split_ifs with hidle hdrain
  · simp only [Bool.and_eq_true, List.isEmpty_iff] at hidle
    exact .pass hc (.drained hp hidle.1 hidle.2) hharmless
  · simp only [Bool.and_eq_true, List.isEmpty_iff] at hidle
    exact .pass hc (.check _ hp hidle.1 hidle.2) hharmless
  · exact .pass hc (.select _ hp) hharmless

theorem runOn_move {now started : Instant} {tokenWait : Option Duration} (hc : s.clock ≤ now)
    (hn : now ≤ started) (h : runOn opts s now tokenWait started = some t) :
    Move opts s (.run now tokenWait started) { t with clock := started } := by
  have hle := hc.trans hn
  cases hp : s.phase with
  | top =>
    simp only [runOn, hp, Option.some.injEq] at h
    subst h
    exact loopTop_move hp hle rfl
  | renewScan =>
    simp only [runOn, hp, Option.some.injEq] at h
    subst h
    exact .pass hle (.renew now hp) trivial
  | renewing due =>
    cases due with
    | nil =>
      simp only [runOn, hp, Option.some.injEq] at h
      subst h
      exact .pass hle (.pump hp) trivial
    | cons sequence due => simp [runOn, hp] at h
  | pumping desired =>
    simp only [runOn, hp, Option.some.injEq] at h
    subst h
    exact pump_move hc hn hp
  | settling =>
    simp only [runOn, hp, Option.some.injEq] at h
    subst h
    exact settle_move hp hle rfl
  | abandoning rest next =>
    cases rest with
    | cons lease rest => simp [runOn, hp] at h
    | nil =>
      cases next with
      | renew =>
        simp only [runOn, hp, Option.some.injEq] at h
        subst h
        exact .pass hle (.scan (.inr hp)) trivial
      | finish outcome =>
        simp only [runOn, hp, Option.some.injEq] at h
        subst h
        exact .pass hle (.exits outcome hp) trivial
  | joining outcome =>
    simp only [runOn, hp] at h
    split_ifs at h with hidle
    simp only [Option.some.injEq] at h
    subst h
    exact .release started outcome hle hp (List.isEmpty_iff.mp hidle) rfl
  | releasing rest outcome =>
    cases rest with
    | cons lease rest => simp [runOn, hp] at h
    | nil =>
      simp only [runOn, hp, Option.some.injEq] at h
      subst h
      exact .gather started s.drain s.draining (.finish outcome) hle (.inr ⟨outcome, hp, rfl⟩) rfl
  | fetching desired => simp [runOn, hp] at h
  | checkingFinished wake => simp [runOn, hp] at h
  | checkingEmpty wake => simp [runOn, hp] at h
  | idling wake => simp [runOn, hp] at h
  | selecting wake => simp [runOn, hp] at h
  | completing c => simp [runOn, hp] at h
  | returned outcome => simp [runOn, hp] at h
  | panicked => simp [runOn, hp] at h

theorem renewed_move {due : List ℕ} {i sequence : ℕ} {reply : StorageResult Unit}
    (hp : s.phase = .renewing due) (hi : due[i]? = some sequence) :
    Move opts s (.renewed i reply) (renewed s sequence reply (due.eraseIdx i)) := by
  have hcall : queueCall s (.renewed i reply) = (s.deferredEntries.lookup sequence).map
      fun entry => (.renew entry.lease.leaseId deferredLeaseExtension, unitReply reply) := by
    simp only [queueCall, hp, hi, Option.bind_some]
  simp only [renewed]
  cases he : s.deferredEntries.lookup sequence with
  | none =>
    rw [he] at hcall
    exact .panic s.clock _ le_rfl
      (.inl ⟨due, sequence, hp, List.mem_of_getElem? hi, he⟩) hcall rfl le_rfl
  | some entry =>
    rw [he] at hcall
    cases reply with
    | error err =>
      refine .pass le_rfl (.abort _ (.inr ⟨due, hp⟩)) ?_
      rw [hcall]
      exact ⟨err, rfl⟩
    | ok u => exact .renewed due i sequence entry hp hi he hcall

theorem fetched_move {reply : Option (StorageResult (Option Lease))} {desired : ℕ}
    {readyNow stdNow renewNow : Instant} (hp : s.phase = .fetching desired)
    (h₁ : s.clock ≤ readyNow) (h₂ : readyNow ≤ stdNow) (h₃ : stdNow ≤ renewNow)
    (h : (match reply with
      | some (.ok (some lease)) =>
        some (fetched { s with clock := renewNow } desired lease readyNow stdNow renewNow)
      | _ => some { s with clock := renewNow, phase := .settling }) = some t) :
    Move opts s (.fetched reply readyNow stdNow renewNow) t := by
  have hle := h₁.trans (h₂.trans h₃)
  have hsettle : Harmless (queueCall s (.fetched reply readyNow stdNow renewNow)) →
      Move opts s (.fetched reply readyNow stdNow renewNow)
        { s with clock := renewNow, phase := .settling } :=
    fun hq => .pass hle (.settle desired (.inr hp)) hq
  cases reply with
  | none =>
    cases h
    exact hsettle trivial
  | some reply =>
    cases reply with
    | error err =>
      cases h
      exact hsettle fun lease heq => nomatch heq
    | ok found =>
      cases found with
      | none =>
        cases h
        exact hsettle fun lease heq => nomatch heq
      | some lease =>
        cases h
        exact .fetched desired lease readyNow stdNow renewNow _ _ _ _ h₁ h₂ h₃ hp
          (Nat.le_add_right _ _) rfl

theorem step_move (h : step opts s e = some t) : Move opts s e t := by
  cases e with
  | run now tokenWait started =>
    simp only [step] at h
    split_ifs at h with hc
    obtain ⟨u, hu, rfl⟩ := Option.map_eq_some_iff.mp h
    exact runOn_move hc.1 hc.2 hu
  | renewed i reply =>
    cases hp : s.phase with
    | renewing due =>
      simp only [step, hp] at h
      obtain ⟨sequence, hi, rfl⟩ := Option.map_eq_some_iff.mp h
      exact renewed_move hp hi
    | _ => simp [step, hp] at h
  | fetched reply readyNow stdNow renewNow =>
    cases hp : s.phase with
    | fetching desired =>
      simp only [step, hp] at h
      split_ifs at h with hc
      exact fetched_move hp hc.1 hc.2.1 hc.2.2 h
    | _ => simp [step, hp] at h
  | flag value =>
    cases hp : s.phase with
    | checkingFinished wake =>
      have hq : Harmless (queueCall s (.flag value)) := by
        cases value <;> simp [queueCall, hp, Harmless]
      simp only [step, hp, Option.some.injEq] at h
      subst h
      split_ifs
      · exact .pass le_rfl (.finished wake hp) hq
      · exact .pass le_rfl (.checkEmpty wake hp) hq
    | checkingEmpty wake =>
      have hq : Harmless (queueCall s (.flag value)) := by
        cases value <;> simp [queueCall, hp, Harmless]
      simp only [step, hp, Option.some.injEq] at h
      subst h
      split_ifs
      · exact .pass le_rfl (.again wake (.inl hp)) hq
      · exact .pass le_rfl (.idle wake hp) hq
    | _ => simp [step, hp] at h
  | woken wake now =>
    simp only [step] at h
    split_ifs at h with hc
    cases hp : s.phase with
    | idling due =>
      simp only [hp] at h
      split_ifs at h
      cases h
      exact .quiet now s.cancelled s.drain _ s.mode s.limiter .top hc .refl .refl
        (.again due (.inr (.inl hp))) trivial
    | selecting due =>
      simp only [hp] at h
      split_ifs at h
      cases h
      exact .quiet now s.cancelled s.drain _ s.mode s.limiter .top hc .refl .refl
        (.again due (.inr (.inr hp))) trivial
    | _ => simp [hp] at h
  | completed slot joined now handledAt consulted =>
    cases hp : s.phase with
    | selecting wake =>
      simp only [step, hp] at h
      split_ifs at h with hc
      cases h
      exact hp ▸ handleCompletion_move joined hc.1 hp hc.2
    | _ => simp [step, hp] at h
  | answered reply =>
    cases hp : s.phase with
    | completing c =>
      simp only [step, hp] at h
      exact answer_move hp h
    | _ => simp [step, hp] at h
  | handlerDone =>
    cases hp : s.phase with
    | completing c =>
      cases c with
      | failedHandler lease total errorText status loadedUrl =>
        simp only [step, hp, Option.some.injEq] at h
        subst h
        exact .pass le_rfl (.handled lease total errorText status loadedUrl hp) trivial
      | _ => simp [step, hp] at h
    | _ => simp [step, hp] at h
  | joined slot =>
    cases hp : s.phase with
    | joining outcome =>
      simp only [step, hp] at h
      split_ifs at h with hslot
      cases h
      exact hp ▸ .joined slot outcome hp hslot
    | _ => simp [step, hp] at h
  | released i reply =>
    cases hp : s.phase with
    | releasing rest outcome =>
      simp only [step, hp] at h
      obtain ⟨lease, hi, rfl⟩ := Option.map_eq_some_iff.mp h
      exact .dropped rest i lease reply _ hi (.inl ⟨outcome, hp, rfl⟩) (by simp [queueCall, hp, hi])
    | _ => simp [step, hp] at h
  | abandoned i reply =>
    cases hp : s.phase with
    | abandoning rest next =>
      simp only [step, hp] at h
      obtain ⟨lease, hi, rfl⟩ := Option.map_eq_some_iff.mp h
      exact .dropped rest i lease reply _ hi (.inr ⟨next, hp, rfl⟩) (by simp [queueCall, hp, hi])
    | _ => simp [step, hp] at h
  | cancel =>
    cases h
    exact .quiet s.clock true s.drain s.draining s.mode s.limiter s.phase le_rfl .refl .refl .stay
      trivial
  | stop =>
    cases h
    exact .quiet s.clock s.cancelled true s.draining s.mode s.limiter s.phase le_rfl .refl .refl
      .stay trivial
  | rescale decision =>
    cases h
    exact .quiet s.clock s.cancelled s.drain s.draining _ s.limiter s.phase le_rfl
      (.inr (.inl ⟨decision, rfl⟩)) .refl .stay trivial
  | setDelayFloor host floor =>
    cases h
    exact .quiet s.clock s.cancelled s.drain s.draining s.mode _ s.phase le_rfl .refl
      (.inr (.inl ⟨host, floor, rfl⟩)) .stay trivial

end Millipede.Engine
