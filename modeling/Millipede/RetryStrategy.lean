import Millipede.Errors

/-!
# Retry strategies and the retry decision

The values that cross the `RetryStrategy` trait, and the part of
`handle_completion` that decides whether a failed attempt is retried. A strategy
may answer differently each time it is asked: `onRetry` gets a number that stands
for whatever else it looks at.
-/

namespace Millipede

structure SessionId where
  value : String
  deriving DecidableEq, Repr

inductive ProxyKind where
  | default
  | mediaAsset
  | custom (name : String)
  deriving DecidableEq, Repr

structure ProxyInfo where
  url : Url
  hostname : String
  port : ℕ
  username : Option String
  password : Option String
  tier : Option ℕ
  sessionId : Option SessionId
  deriving DecidableEq, Repr

structure AttemptOverrides where
  proxyKind : Option ProxyKind := none
  userAgentProfile : Option String := none
  backoff : Option Duration := none
  deriving DecidableEq, Repr

structure AttemptOutcome where
  request : Request
  attempt : ℕ
  status : Option StatusCode
  error : Option CrawlError
  antiBot : Option AntiBotTech
  proxyInfo : Option ProxyInfo
  sessionId : Option SessionId
  responseBytes : Option ℕ

inductive SessionRetryAction where
  | keep
  | rotate
  | retire
  deriving DecidableEq, Repr

structure RetryDirective where
  shouldRetry : Bool := false
  backoff : Option Duration := none
  proxyKind : Option ProxyKind := none
  userAgentProfile : Option String := none
  sessionAction : SessionRetryAction := .keep
  deriving DecidableEq, Repr

structure RetryStrategy where
  maxRetries : ℕ
  onRetry : ℕ → AttemptOutcome → RetryDirective

structure AttemptObservation where
  status : Option StatusCode := none
  loadedUrl : Option Url := none
  sessionId : Option SessionId := none
  proxyInfo : Option ProxyInfo := none
  responseBytes : Option ℕ := none

structure RetryOptions where
  maxRequestRetries : ℕ
  maxSessionRotations : ℕ
  retryStrategy : Option RetryStrategy

/-- What `handle_completion` settles for a failed attempt that is not critical: whether it
is retried, whether the retry counts as a session rotation, and the overrides for the
next attempt. -/
structure RetryDecision where
  eligible : Bool
  rotates : Bool
  overrides : Option AttemptOverrides

def attemptOutcome (request : Request) (error : CrawlError) (observation : AttemptObservation) :
    AttemptOutcome where
  request := request
  attempt := request.retryCount
  status := observation.status.or error.httpStatus
  error := some error
  antiBot := error.antiBot
  proxyInfo := observation.proxyInfo
  sessionId := observation.sessionId
  responseBytes := observation.responseBytes

/-- The branch taken when a strategy is installed. -/
def strategyDecision (opts : RetryOptions) (strategy : RetryStrategy) (consulted : ℕ)
    (request : Request) (error : CrawlError) (observation : AttemptObservation) :
    RetryDecision :=
  if request.noRetry then
    { eligible := false, rotates := error.rotatesSession, overrides := none }
  else
    let directive := strategy.onRetry consulted (attemptOutcome request error observation)
    let rotates := error.rotatesSession || directive.sessionAction == .rotate ||
      directive.sessionAction == .retire
    let cap := request.maxRetries.getD strategy.maxRetries
    let eligible := directive.shouldRetry &&
      (error.ignoresMaxRetries ||
        if rotates then decide (request.sessionRotationCount < opts.maxSessionRotations)
        else decide (request.retryCount < cap))
    { eligible
      rotates
      overrides :=
        if eligible && (directive.proxyKind.isSome || directive.userAgentProfile.isSome ||
            directive.backoff.isSome) then
          some { proxyKind := directive.proxyKind, userAgentProfile := directive.userAgentProfile,
                 backoff := directive.backoff }
        else none }

/-- The branch taken without a strategy. -/
def defaultDecision (opts : RetryOptions) (request : Request) (error : CrawlError) :
    RetryDecision where
  eligible := error.ignoresMaxRetries ||
    (error.isRetryable && !request.noRetry &&
      if error.rotatesSession then decide (request.sessionRotationCount < opts.maxSessionRotations)
      else decide (request.retryCount < request.maxRetries.getD opts.maxRequestRetries))
  rotates := error.rotatesSession
  overrides := none

def retryDecision (opts : RetryOptions) (consulted : ℕ) (request : Request) (error : CrawlError)
    (observation : AttemptObservation) : RetryDecision :=
  match opts.retryStrategy with
  | some strategy => strategyDecision opts strategy consulted request error observation
  | none => defaultDecision opts request error

def RetryOptions.cap (opts : RetryOptions) (request : Request) : ℕ :=
  request.maxRetries.getD
    (match opts.retryStrategy with
    | some strategy => strategy.maxRetries
    | none => opts.maxRequestRetries)

theorem retryDecision_room {opts : RetryOptions} {consulted : ℕ} {request : Request}
    {error : CrawlError} {observation : AttemptObservation}
    (hlimit : error.ignoresMaxRetries = false)
    (h : (retryDecision opts consulted request error observation).eligible = true) :
    if (retryDecision opts consulted request error observation).rotates then
      request.sessionRotationCount < opts.maxSessionRotations
    else request.retryCount < opts.cap request := by
  cases hs : opts.retryStrategy with
  | none =>
    simp only [retryDecision, hs, defaultDecision, hlimit, Bool.false_or, Bool.and_eq_true] at h ⊢
    simp only [RetryOptions.cap, hs]
    have hroom := h.2
    split_ifs with hr
    · simpa [hr] using hroom
    · simpa [hr] using hroom
  | some strategy =>
    cases hn : request.noRetry with
    | true => simp [retryDecision, hs, strategyDecision, hn] at h
    | false =>
      simp only [retryDecision, hs, strategyDecision, hn, Bool.false_eq_true, if_false] at h ⊢
      generalize strategy.onRetry consulted (attemptOutcome request error observation) =
        directive at h ⊢
      generalize (error.rotatesSession || directive.sessionAction == .rotate ||
        directive.sessionAction == .retire) = rotates at h ⊢
      simp only [RetryOptions.cap, hs]
      simp only [hlimit, Bool.false_or, Bool.and_eq_true] at h
      have hroom := h.2
      cases rotates <;> simpa using hroom

/-- A strategy never retries a request marked `no_retry`; the default branch does so only
for an error that ignores the limits. -/
theorem retryDecision_noRetry {opts : RetryOptions} {consulted : ℕ} {request : Request}
    {error : CrawlError} {observation : AttemptObservation} (hn : request.noRetry = true)
    (h : opts.retryStrategy.isSome ∨ error.ignoresMaxRetries = false) :
    (retryDecision opts consulted request error observation).eligible = false := by
  cases hs : opts.retryStrategy with
  | none =>
    rw [hs] at h
    have hlimit : error.ignoresMaxRetries = false := by simpa using h
    simp [retryDecision, hs, defaultDecision, hn, hlimit]
  | some strategy => simp [retryDecision, hs, strategyDecision, hn]

end Millipede
