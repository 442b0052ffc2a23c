import Millipede.Autoscale
import Millipede.RetryStrategy
import Millipede.Statistics
import Millipede.Storage.Queue

/-!
# The dispatcher

`Engine::dispatch_loop` with `handle_completion`, `abort_remaining`,
`abandon_deferred` and `renew_deferred_leases` as a state machine. The dispatcher is
one task: between two of its `await` points nothing else touches its locals, so a
phase is an `await` point or a point where a clock is read, and an event is what
arrives there: clock readings, answers of the queue and of the start budget, the
end of an attempt, the branch of a `select!`, and, at any moment, a cancellation, a
stop, a new scaling decision or a new delay floor. `step` refuses an event that does not
fit the phase. Clock readings never go back.

The order in which a `HashMap` is drained is not fixed: the event names the entry. The
`log` records what the dispatcher has done, the latest first; no step reads it.
-/

namespace Millipede.Engine

def minDeferredCapacity : ℕ := 32
def deferredLeaseRenewalMargin : Duration := Duration.fromSecs 30
def deferredLeaseExtension : Duration := Duration.fromSecs 180

structure EngineOptions where
  retry : RetryOptions
  pool : AutoscaledPool
  maxRequestsPerCrawl : Option ℕ
  /-- Whether a failed-request handler is installed. -/
  failedHandler : Bool
  debugStr : String → String

structure AttemptOutput where
  /-- `none` is success. -/
  error : Option CrawlError
  duration : Duration
  request : Request
  observation : AttemptObservation

inductive Joined where
  | finished (output : AttemptOutput)
  | panicked (message : String)
  | cancelled

structure SlotState where
  lease : Lease
  started : Instant

structure DeferredStart where
  lease : Lease
  carried : AttemptOverrides
  domainReserved : Bool
  renewAt : Instant

inductive RequestFinalState where
  | succeeded
  | failed
  deriving DecidableEq, Repr

structure HandledRequest where
  request : Request
  loadedUrl : Option Url
  outcome : RequestFinalState
  responseStatus : Option StatusCode
  retryCount : ℕ
  duration : Duration

/-- A completion that waits for the queue or for the failed-request handler. -/
inductive Completing where
  | abandonCancelled (lease : Lease)
  | markFinished (lease : Lease) (total : Duration) (observation : AttemptObservation)
  | abandonCritical (lease : Lease) (error : CrawlError)
  | reclaiming (lease : Lease) (rotates : Bool)
  | failedHandler (lease : Lease) (total : Duration) (errorText : String)
      (status : Option StatusCode) (loadedUrl : Option Url)
  | markFailed (lease : Lease) (total : Duration) (errorText : String)
      (status : Option StatusCode) (loadedUrl : Option Url)

inductive AfterAbandon where
  | renew
  | finish (outcome : Option CrawlError)

inductive Phase where
  | top
  | renewScan
  | renewing (due : List ℕ)
  | pumping (desired : ℕ)
  | fetching (desired : ℕ)
  | settling
  | checkingFinished (wake : Option Instant)
  | checkingEmpty (wake : Option Instant)
  | idling (wake : Option Instant)
  | selecting (wake : Option Instant)
  | completing (c : Completing)
  | abandoning (rest : List Lease) (next : AfterAbandon)
  | joining (outcome : Option CrawlError)
  | releasing (rest : List Lease) (outcome : Option CrawlError)
  | returned (outcome : Option CrawlError)
  | panicked

inductive ConsumingCall where
  | markHandled
  | reclaim
  | abandon
  deriving DecidableEq, Repr

/-- The branch of `handle_completion` that an attempt took. -/
inductive Choice where
  | succeeded
  | critical
  | retried (rotates : Bool)
  | failed
  deriving DecidableEq, Repr

inductive Effect where
  | fetched (lease : Lease)
  | started (lease : Lease) (time : Instant)
  | decided (lease : Lease) (choice : Choice)
  | called (how : ConsumingCall) (lease : Lease) (ok : Bool)

structure State where
  clock : Instant
  cancelled : Bool
  drain : Bool
  statistics : Statistics
  mode : PoolMode
  limiter : DomainLimiter
  results : List HandledRequest
  inFlight : List ℕ
  slots : HashMap ℕ SlotState
  accumulated : HashMap String Duration
  overrides : HashMap String AttemptOverrides
  deferred : List (Instant × ℕ)
  deferredEntries : HashMap ℕ DeferredStart
  nextSlot : ℕ
  nextDeferred : ℕ
  draining : Bool
  deferredCap : ℕ
  phase : Phase
  log : List Effect

/-- The state in which `dispatch_loop` starts. -/
def start (opts : EngineOptions) (statistics : Statistics) (limiter : DomainLimiter)
    (clock : Instant) : State where
  clock := clock
  cancelled := false
  drain := false
  statistics := statistics
  mode := opts.pool.initial
  limiter := limiter
  results := []
  inFlight := []
  slots := ∅
  accumulated := ∅
  overrides := ∅
  deferred := []
  deferredEntries := ∅
  nextSlot := 0
  nextDeferred := 0
  draining := false
  deferredCap := max opts.pool.limit minDeferredCapacity
  phase := .top
  log := []

inductive Wake where
  | notified
  | cancelled
  | drained
  | ticked
  | deferredDue
  | fallback
  deriving DecidableEq, Repr

inductive Event where
  /-- The dispatcher runs on: its clock readings, and the answer of the start budget. -/
  | run (now : Instant) (tokenWait : Option Duration) (started : Instant)
  | renewed (i : ℕ) (reply : StorageResult Unit)
  /-- The answer to `fetch_next`, `none` when it timed out, and the three readings that
  follow it. -/
  | fetched (reply : Option (StorageResult (Option Lease))) (readyNow stdNow renewNow : Instant)
  | flag (value : Option Bool)
  | woken (wake : Wake) (now : Instant)
  | completed (slot : ℕ) (joined : Joined) (now : Instant) (handledAt : ℤ) (consulted : ℕ)
  | answered (reply : StorageResult Unit)
  | handlerDone
  | joined (slot : ℕ)
  | released (i : ℕ) (reply : StorageResult Unit)
  | abandoned (i : ℕ) (reply : StorageResult Unit)
  | cancel
  | stop
  | rescale (decision : ScaleDecision)
  | setDelayFloor (host : String) (floor : Duration)

/-- `BinaryHeap` of `Reverse`d pairs: the entries in the order in which they are popped. -/
def heapPush (x : Instant × ℕ) : List (Instant × ℕ) → List (Instant × ℕ)
  | [] => [x]
  | y :: ys => if x.1 < y.1 ∨ (x.1 = y.1 ∧ x.2 ≤ y.2) then x :: y :: ys else y :: heapPush x ys

def storageFailure (error : StorageError) : CrawlError := .critical (.msg error.toText)

/-- `push_error`: at most 200 characters of the text. -/
def pushError (request : Request) (text : String) : Request :=
  { request with
    errorMessages := request.errorMessages ++ [String.ofList (text.toList.take 200)] }

def deferredLeases (s : State) : List Lease := s.deferredEntries.values.map DeferredStart.lease

def slotLeases (s : State) : List Lease := s.slots.values.map SlotState.lease

/-- `abort_remaining` up to its first `await`. -/
def beginAbort (s : State) (outcome : Option CrawlError) : State :=
  { s with phase := .joining outcome }

/-- `abandon_deferred` up to its first `await`. -/
def beginAbandon (s : State) (next : AfterAbandon) : State :=
  { s with
    deferred := []
    deferredEntries := ∅
    phase := .abandoning (deferredLeases s) next }

def limitReached (opts : EngineOptions) (s : State) : Bool :=
  match opts.maxRequestsPerCrawl with
  | some limit => decide (limit ≤ s.statistics.requestsFinished)
  | none => false

def loopTop (opts : EngineOptions) (s : State) : State :=
  if s.cancelled then beginAbort s none
  else
    let draining := s.draining || s.drain
    let reached := !draining && limitReached opts s
    let s := { s with draining := draining || reached, drain := s.drain || reached }
    if s.draining && !s.deferredEntries.entries.isEmpty then beginAbandon s .renew
    else { s with phase := .renewScan }

def startPump (s : State) : State := { s with phase := .pumping s.mode.desiredConcurrency }

def renewScan (s : State) (now : Instant) : State :=
  let due := (s.deferredEntries.entries.filter fun e => e.2.renewAt ≤ now).map Sigma.fst
  { s with phase := .renewing due }

def DeferredStart.extended (entry : DeferredStart) : DeferredStart :=
  { entry with
    lease := { entry.lease with expiresAt := entry.lease.expiresAt + deferredLeaseExtension }
    renewAt := entry.renewAt + deferredLeaseExtension }

def renewed (s : State) (sequence : ℕ) (reply : StorageResult Unit) (rest : List ℕ) : State :=
  match s.deferredEntries.lookup sequence with
  | none => { s with phase := .panicked }
  | some entry =>
    match reply with
    | .error e => beginAbort s (some (storageFailure e))
    | .ok () =>
      { s with
        deferredEntries := s.deferredEntries.insert sequence entry.extended
        phase := .renewing rest }

def requestLimitReserved (opts : EngineOptions) (s : State) : Bool :=
  match opts.maxRequestsPerCrawl with
  | some limit => decide
      (limit ≤ s.statistics.requestsFinished + s.inFlight.length + s.deferredEntries.len)
  | none => false

/-- The end of the pump's inner loop: fetch one more lease, or go on. -/
def afterPump (opts : EngineOptions) (s : State) (desired : ℕ) : State :=
  if s.draining || requestLimitReserved opts s || decide (desired ≤ s.inFlight.length) ||
      decide (s.deferredCap ≤ s.deferredEntries.len) then
    { s with phase := .settling }
  else { s with phase := .fetching desired }

/-- The entry is put back into the heap, to be looked at again at `readyAt`. -/
def putBack (s : State) (readyAt : Instant) (sequence : ℕ) (entry : DeferredStart) : State :=
  { s with
    deferred := heapPush (readyAt, sequence) s.deferred
    deferredEntries := s.deferredEntries.insert sequence entry }

def startAttempt (s : State) (entry : DeferredStart) (started : Instant) : State :=
  { s with
    nextSlot := (s.nextSlot + 1) % 2 ^ 64
    inFlight := s.inFlight ++ [s.nextSlot]
    slots := s.slots.insert s.nextSlot { lease := entry.lease, started }
    log := .started entry.lease started :: s.log }

/-- The rest of a pump step once the host has no objection. -/
def takeToken (opts : EngineOptions) (s : State) (desired : ℕ) (sequence : ℕ)
    (entry : DeferredStart) (now : Instant) (tokenWait : Option Duration) (started : Instant) :
    State :=
  match tokenWait with
  | some wait => afterPump opts (putBack s (now + wait) sequence entry) desired
  | none => startAttempt s entry started

def pump (opts : EngineOptions) (s : State) (desired : ℕ) (now : Instant)
    (tokenWait : Option Duration) (started : Instant) : State :=
  if s.inFlight.length < desired then
    match s.deferred with
    | [] => afterPump opts s desired
    | (readyAt, sequence) :: deferred =>
      if now < readyAt then afterPump opts s desired
      else
        match s.deferredEntries.lookup sequence with
        | none => { s with phase := .panicked }
        | some entry =>
          let s := { s with
            deferred, deferredEntries := s.deferredEntries.erase sequence }
          if entry.domainReserved then
            takeToken opts s desired sequence entry now tokenWait started
          else
            let entry := { entry with domainReserved := true }
            match entry.lease.request.url.hostStr with
            | none => takeToken opts s desired sequence entry now tokenWait started
            | some host =>
              let (wait, limiter) :=
                DomainLimiter.reserveSlot opts.pool.sameDomainDelay s.limiter host now
              let s := { s with limiter }
              if wait ≠ 0 then putBack s (now + wait) sequence entry
              else takeToken opts s desired sequence entry now tokenWait started
  else afterPump opts s desired

def fetched (s : State) (desired : ℕ) (lease : Lease) (readyNow stdNow renewNow : Instant) :
    State :=
  let carried := (s.overrides.lookup lease.request.uniqueKey).getD {}
  let readyAt := readyNow + carried.backoff.getD 0
  let renewIn := lease.expiresAt - stdNow - deferredLeaseRenewalMargin
  { s with
    overrides := s.overrides.erase lease.request.uniqueKey
    nextDeferred := (s.nextDeferred + 1) % 2 ^ 64
    deferred := heapPush (readyAt, s.nextDeferred) s.deferred
    deferredEntries := s.deferredEntries.insert s.nextDeferred
      { lease, carried, domainReserved := false, renewAt := renewNow + renewIn }
    phase := .pumping desired
    log := .fetched lease :: s.log }

def nextDeferredWake (s : State) (now : Instant) : Option Instant :=
  let readyWake := (s.deferred.head?.map Prod.fst).filter fun readyAt => decide (now < readyAt)
  let renewalWake := (s.deferredEntries.values.map DeferredStart.renewAt).min?
  (match readyWake, renewalWake with
  | some ready, some renewal => some (min ready renewal)
  | some ready, none => some ready
  | none, some renewal => some renewal
  | none, none => none).filter fun wake => decide (now < wake)

def settle (s : State) (now : Instant) : State :=
  let wake := nextDeferredWake s now
  if s.inFlight.isEmpty && s.deferredEntries.entries.isEmpty then
    if s.draining then { s with phase := .returned none }
    else { s with phase := .checkingFinished wake }
  else { s with phase := .selecting wake }

/-- Whether a branch of the two `select!`s other than a completion can be taken. -/
def canWake (s : State) (busy : Bool) (wake : Option Instant) (now : Instant) : Wake → Bool
  | .notified => !(busy && s.draining)
  | .cancelled => s.cancelled
  | .drained => s.drain && !s.draining
  | .ticked => true
  | .deferredDue => wake.any fun w => decide (w ≤ now)
  | .fallback => true

def woken (s : State) (wake : Wake) : State :=
  { s with draining := s.draining || wake == .drained, phase := .top }

/-- The request of a finished attempt under its lease: the counters are the lease's. -/
def restoreCounters (lease : Lease) (request : Request) : Lease :=
  { lease with
    request := { request with
      retryCount := lease.request.retryCount
      sessionRotationCount := lease.request.sessionRotationCount } }

def noteOutcome (opts : EngineOptions) (s : State) (host : Option String)
    (error : Option CrawlError) (observation : AttemptObservation) (now : Instant) : State :=
  let status := match error with
    | none => observation.status
    | some error => observation.status.or error.httpStatus
  let kind : AttemptOutcomeKind := if error.isNone then .success else .setback
  { s with
    mode := s.mode.recordOutcome opts.pool kind
    limiter := match host with
      | some host => DomainLimiter.noteResponse opts.pool.sameDomainDelay s.limiter host status
          (error.bind CrawlError.retryAfter) now
      | none => s.limiter }

def succeed (s : State) (lease : Lease) (key : String) (total : Duration)
    (observation : AttemptObservation) (handledAt : ℤ) : State :=
  let request := { lease.request with
    loadedUrl := observation.loadedUrl, state := .done, handledAt := some handledAt }
  { s with
    accumulated := s.accumulated.erase key
    overrides := s.overrides.erase key
    phase := .completing (.markFinished { lease with request } total observation)
    log := .decided lease .succeeded :: s.log }

def failCritically (opts : EngineOptions) (s : State) (lease : Lease) (key : String)
    (error : CrawlError) : State :=
  let request := pushError lease.request (error.toText opts.debugStr)
  { s with
    accumulated := s.accumulated.erase key
    overrides := s.overrides.erase key
    phase := .completing (.abandonCritical { lease with request } error)
    log := .decided lease .critical :: s.log }

def retry (opts : EngineOptions) (s : State) (lease : Lease) (key : String) (total : Duration)
    (error : CrawlError) (decision : RetryDecision) : State :=
  let text := error.toText opts.debugStr
  let pushed := pushError lease.request text
  let request :=
    if decision.rotates then
      { pushed with sessionRotationCount := (pushed.sessionRotationCount + 1) % 2 ^ 32 }
    else pushed
  { s with
    accumulated := s.accumulated.insert key total
    overrides := match decision.overrides with
      | some overrides => s.overrides.insert key overrides
      | none => s.overrides
    statistics := s.statistics.recordRetry text
    phase := .completing (.reclaiming { lease with request } decision.rotates)
    log := .decided lease (.retried decision.rotates) :: s.log }

def failFinally (opts : EngineOptions) (s : State) (lease : Lease) (key : String)
    (total : Duration) (error : CrawlError) (observation : AttemptObservation)
    (handledAt : ℤ) : State :=
  let text := error.toText opts.debugStr
  let request := { pushError lease.request text with state := .error, handledAt := some handledAt }
  let status := observation.status.or error.httpStatus
  let lease' := { lease with request }
  { s with
    accumulated := s.accumulated.erase key
    overrides := s.overrides.erase key
    phase := .completing
      (if opts.failedHandler then .failedHandler lease' total text status observation.loadedUrl
       else .markFailed lease' total text status observation.loadedUrl)
    log := .decided lease .failed :: s.log }

/-- `handle_completion` of an attempt that was not cancelled, up to its first `await`.
`host` is the host of the request as it was leased. -/
def conclude (opts : EngineOptions) (s : State) (lease : Lease) (host : Option String)
    (error : Option CrawlError) (duration : Duration) (observation : AttemptObservation)
    (now : Instant) (handledAt : ℤ) (consulted : ℕ) : State :=
  let key := lease.request.uniqueKey
  let total := (s.accumulated.lookup key).getD 0 + duration
  let s := noteOutcome opts s host error observation now
  match error with
  | none => succeed s lease key total observation handledAt
  | some error =>
    if error.isCritical then failCritically opts s lease key error
    else
      let decision := retryDecision opts.retry consulted lease.request error observation
      if decision.eligible then retry opts s lease key total error decision
      else failFinally opts s lease key total error observation handledAt

def handleCompletion (opts : EngineOptions) (s : State) (slot : ℕ) (joined : Joined)
    (now : Instant) (handledAt : ℤ) (consulted : ℕ) : State :=
  match s.slots.lookup slot with
  | none => { s with phase := .panicked }
  | some { lease, started } =>
    let s := { s with slots := s.slots.erase slot }
    let host := lease.request.url.hostStr
    match joined with
    | .cancelled => { s with phase := .completing (.abandonCancelled lease) }
    | .panicked message =>
      conclude opts s lease host
        (some (.retry (.msg ("request handler panicked: " ++ message)))) (now - started) {}
        now handledAt consulted
    | .finished output =>
      conclude opts s (restoreCounters lease output.request) host output.error output.duration
        output.observation now handledAt consulted

def logCall (s : State) (how : ConsumingCall) (lease : Lease) (reply : StorageResult Unit) :
    State :=
  { s with log := .called how lease reply.isOk :: s.log }

def offer (s : State) (handled : HandledRequest) : State :=
  { s with results := s.results ++ [handled] }

def answer (opts : EngineOptions) (s : State) (c : Completing) (reply : StorageResult Unit) :
    Option State :=
  match c with
  | .abandonCancelled lease =>
    let s := logCall s .abandon lease reply
    match reply with
    | .ok () => some { s with phase := .top }
    | .error e => some (beginAbort s (some (storageFailure e)))
  | .markFinished lease total observation =>
    let s := logCall s .markHandled lease reply
    match reply with
    | .ok () =>
      let retryCount := lease.request.retryCount
      let s := { s with
        statistics := s.statistics.recordFinished total observation.status retryCount }
      some { offer s { request := lease.request, loadedUrl := observation.loadedUrl,
                       outcome := .succeeded, responseStatus := observation.status, retryCount,
                       duration := total } with phase := .top }
    | .error e => some (beginAbort s (some (storageFailure e)))
  | .abandonCritical lease error =>
    some (beginAbort (logCall s .abandon lease reply)
      (some (.critical (.msg (error.toText opts.debugStr)))))
  | .reclaiming lease _ =>
    let s := logCall s .reclaim lease reply
    match reply with
    | .ok () => some { s with phase := .top }
    | .error e => some (beginAbort s (some (storageFailure e)))
  | .markFailed lease total errorText status loadedUrl =>
    let s := logCall s .markHandled lease reply
    match reply with
    | .ok () =>
      let retryCount := lease.request.retryCount
      let s := { s with statistics := s.statistics.recordFailed total errorText retryCount }
      some { offer s { request := lease.request, loadedUrl, outcome := .failed,
                       responseStatus := status, retryCount, duration := total } with
             phase := .top }
    | .error e => some (beginAbort s (some (storageFailure e)))
  | .failedHandler _ _ _ _ _ => none

def runOn (opts : EngineOptions) (s : State) (now : Instant) (tokenWait : Option Duration)
    (started : Instant) : Option State :=
  match s.phase with
  | .top => some (loopTop opts s)
  | .renewScan => some (renewScan s now)
  | .renewing [] => some (startPump s)
  | .pumping desired => some (pump opts s desired now tokenWait started)
  | .settling => some (settle s now)
  | .abandoning [] .renew => some { s with phase := .renewScan }
  | .abandoning [] (.finish outcome) => some { s with phase := .returned outcome }
  | .joining outcome =>
    if s.inFlight.isEmpty then
      some { s with slots := ∅, phase := .releasing (slotLeases s) outcome }
    else none
  | .releasing [] outcome => some (beginAbandon s (.finish outcome))
  | _ => none

def step (opts : EngineOptions) (s : State) : Event → Option State
  | .run now tokenWait started =>
    if s.clock ≤ now ∧ now ≤ started then
      (runOn opts s now tokenWait started).map fun s => { s with clock := started }
    else none
  | .renewed i reply =>
    match s.phase with
    | .renewing due => due[i]?.map fun sequence => renewed s sequence reply (due.eraseIdx i)
    | _ => none
  | .fetched reply readyNow stdNow renewNow =>
    match s.phase with
    | .fetching desired =>
      if s.clock ≤ readyNow ∧ readyNow ≤ stdNow ∧ stdNow ≤ renewNow then
        let s := { s with clock := renewNow }
        match reply with
        | some (.ok (some lease)) => some (fetched s desired lease readyNow stdNow renewNow)
        | _ => some { s with phase := .settling }
      else none
    | _ => none
  | .flag value =>
    match s.phase with
    | .checkingFinished wake =>
      some (if value = some true then { s with phase := .returned none }
        else { s with phase := .checkingEmpty wake })
    | .checkingEmpty wake =>
      some (if value = some false then { s with phase := .top }
        else { s with phase := .idling wake })
    | _ => none
  | .woken wake now =>
    if s.clock ≤ now then
      let s := { s with clock := now }
      match s.phase with
      | .idling due => if canWake s false due now wake then some (woken s wake) else none
      | .selecting due => if canWake s true due now wake then some (woken s wake) else none
      | _ => none
    else none
  | .completed slot joined now handledAt consulted =>
    match s.phase with
    | .selecting _ =>
      if s.clock ≤ now ∧ slot ∈ s.inFlight then
        some (handleCompletion opts { s with clock := now, inFlight := s.inFlight.erase slot }
          slot joined now handledAt consulted)
      else none
    | _ => none
  | .answered reply =>
    match s.phase with
    | .completing c => answer opts s c reply
    | _ => none
  | .handlerDone =>
    match s.phase with
    | .completing (.failedHandler lease total errorText status loadedUrl) =>
      some { s with phase := .completing (.markFailed lease total errorText status loadedUrl) }
    | _ => none
  | .joined slot =>
    match s.phase with
    | .joining _ =>
      if slot ∈ s.inFlight then some { s with inFlight := s.inFlight.erase slot } else none
    | _ => none
  | .released i reply =>
    match s.phase with
    | .releasing rest outcome =>
      rest[i]?.map fun lease =>
        { logCall s .abandon lease reply with phase := .releasing (rest.eraseIdx i) outcome }
    | _ => none
  | .abandoned i reply =>
    match s.phase with
    | .abandoning rest next =>
      rest[i]?.map fun lease =>
        { logCall s .abandon lease reply with phase := .abandoning (rest.eraseIdx i) next }
    | _ => none
  | .cancel => some { s with cancelled := true }
  | .stop => some { s with drain := true }
  | .rescale decision => some { s with mode := s.mode.rescale opts.pool decision }
  | .setDelayFloor host floor =>
    some { s with
      limiter := DomainLimiter.setDelayFloor opts.pool.sameDomainDelay s.limiter host floor }

end Millipede.Engine
