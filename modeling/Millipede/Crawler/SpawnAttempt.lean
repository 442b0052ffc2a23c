import Millipede.Crawler.Engine
import Millipede.Library.Machine

/-!
# One attempt

The task that `Engine::spawn_attempt` starts: `before_request`, `execute`, the user handler
and `after_success` in turn, and `cleanup` at the end of each way through them. An event is
one poll of the future that the task awaits. What the hooks do is up to them, so their
answers, what they have done to the request or the context by then, and the clock readings
come with the event; `step` refuses an event that does not fit the stage.

A panic unwinds the task. So does a deadline that no `Instant` can hold, because adding a
`Duration` to an `Instant` panics on overflow.
-/

namespace Millipede.Attempt
open Engine (AttemptOutput Joined)

inductive RequestOutcome (C : Type*) where
  | handled (ctx : C)
  | handlerFailed (ctx : C) (error : CrawlError)
  | executeFailed (request : Request) (error : CrawlError)

variable {C : Type*}

def RequestOutcome.error : RequestOutcome C → Option CrawlError
  | .handled _ => none
  | .handlerFailed _ error => some error
  | .executeFailed _ error => some error

structure Options where
  requestHandlerTimeout : Duration
  taskTimeout : Option Duration
  /-- The last instant that can be represented. -/
  lastInstant : Instant
  debugDuration : Duration → String

inductive Polled (α : Type*) where
  | pending
  | ready (value : α)
  | panicked (message : String)

abbrev Answer (α : Type*) := Polled (Except CrawlError α)

/-- Where the task stands: the future that it awaits, or how it ended. -/
inductive Stage (C : Type*) where
  | spawned (request : Request)
  | preparing (prep : Request)
  | executing (request : Request)
  | handling (request : Request) (ctx : C) (observation : AttemptObservation)
      (handlerDeadline : Instant)
  | polishing (request : Request) (ctx : C) (observation : AttemptObservation)
  | cleaning (result : Option CrawlError) (request : Request) (observation : AttemptObservation)
  | finished (output : AttemptOutput)
  | panicked (message : String)
  | aborted

structure Task (C : Type*) where
  clock : Instant
  started : Instant
  stage : Stage C
  /-- The calls of `cleanup`, in their order. -/
  cleanups : List (RequestOutcome C)

def spawn (request : Request) (clock : Instant) : Task C := ⟨clock, clock, .spawned request, []⟩

inductive Event (C : Type*) where
  | begin (now : Instant)
  /-- `prep` is the request as the hook has left it so far. -/
  | beforeRequest (now : Instant) (prep : Request) (answer : Answer Unit)
  /-- With what `observe` says of the new context, or its panic, and the clock after it. -/
  | execute (now : Instant) (answer : Answer C) (observed : Except String AttemptObservation)
      (handlerNow : Instant)
  | handle (now : Instant) (answer : Answer Unit)
  | afterSuccess (now : Instant) (ctx : C) (answer : Answer Unit)
  | cleanup (now : Instant) (answer : Answer Unit)
  | abort

def overflowMessage : String := "overflow when adding duration to instant"

def taskTimeoutError (opts : Options) (timeout : Duration) : CrawlError :=
  .retry (.msg ("task timed out after " ++ opts.debugDuration timeout))

def handlerTimeoutError (opts : Options) : CrawlError :=
  .retry (.msg ("request handler timed out after " ++
    opts.debugDuration opts.requestHandlerTimeout))

/-- `tokio::time::timeout_at`, with the error that the task makes of a missed deadline. The
future is polled before the clock is looked at. -/
def timeoutAt {α : Type*} (deadline now : Instant) (late : CrawlError) : Answer α → Answer α
  | .pending => if deadline ≤ now then .ready (.error late) else .pending
  | answer => answer

def withinTask {α : Type*} (opts : Options) (t : Task C) (now : Instant) (answer : Answer α) :
    Answer α :=
  match opts.taskTimeout with
  | some timeout => timeoutAt (t.started + timeout) now (taskTimeoutError opts timeout) answer
  | none => answer

def begin (opts : Options) (t : Task C) (request : Request) (now : Instant) : Task C :=
  let t := { t with started := now }
  match opts.taskTimeout with
  | some timeout =>
    if opts.lastInstant < now + timeout then { t with stage := .panicked overflowMessage }
    else { t with stage := .preparing request }
  | none => { t with stage := .preparing request }

/-- The call of `cleanup`; `result` is what the task reports once it has returned. -/
def beginCleanup (t : Task C) (outcome : RequestOutcome C) (result : Option CrawlError)
    (request : Request) (observation : AttemptObservation) : Task C :=
  { t with cleanups := t.cleanups ++ [outcome], stage := .cleaning result request observation }

def prepared (opts : Options) (t : Task C) (prep : Request) (now : Instant)
    (answer : Answer Unit) : Task C :=
  match withinTask opts t now answer with
  | .pending => { t with stage := .preparing prep }
  | .ready (.error error) => beginCleanup t (.executeFailed prep error) (some error) prep {}
  | .ready (.ok ()) => { t with stage := .executing prep }
  | .panicked message => { t with stage := .panicked message }

def observed (opts : Options) (t : Task C) (request : Request) (ctx : C)
    (observed : Except String AttemptObservation) (handlerNow : Instant) : Task C :=
  match observed with
  | .error message => { t with stage := .panicked message }
  | .ok observation =>
    if opts.lastInstant < handlerNow + opts.requestHandlerTimeout then
      { t with stage := .panicked overflowMessage }
    else
      let handlerDeadline := match opts.taskTimeout with
        | some timeout => min (t.started + timeout) (handlerNow + opts.requestHandlerTimeout)
        | none => handlerNow + opts.requestHandlerTimeout
      { t with stage := .handling request ctx observation handlerDeadline }

def executed (opts : Options) (t : Task C) (request : Request) (now : Instant)
    (answer : Answer C) (observation : Except String AttemptObservation)
    (handlerNow : Instant) : Task C :=
  match withinTask opts t now answer with
  | .pending => { t with stage := .executing request }
  | .ready (.error error) =>
    beginCleanup t (.executeFailed request error) (some error) request {}
  | .ready (.ok ctx) => observed opts t request ctx observation handlerNow
  | .panicked message => { t with stage := .panicked message }

def handled (opts : Options) (t : Task C) (request : Request) (ctx : C)
    (observation : AttemptObservation) (handlerDeadline now : Instant) (answer : Answer Unit) :
    Task C :=
  match timeoutAt handlerDeadline now (handlerTimeoutError opts) answer with
  | .pending => t
  | .ready (.ok ()) => { t with stage := .polishing request ctx observation }
  | .ready (.error error) =>
    beginCleanup t (.handlerFailed ctx error) (some error) request observation
  | .panicked message => { t with stage := .panicked message }

/-- `after_success` is not under any deadline. -/
def polished (t : Task C) (request : Request) (ctx : C) (observation : AttemptObservation)
    (answer : Answer Unit) : Task C :=
  match answer with
  | .pending => { t with stage := .polishing request ctx observation }
  | .ready (.ok ()) => beginCleanup t (.handled ctx) none request observation
  | .ready (.error error) =>
    beginCleanup t (.handlerFailed ctx error) (some error) request observation
  | .panicked message => { t with stage := .panicked message }

/-- An error of `cleanup` is logged. -/
def cleaned (t : Task C) (result : Option CrawlError) (request : Request)
    (observation : AttemptObservation) (now : Instant) (answer : Answer Unit) : Task C :=
  match answer with
  | .pending => t
  | .ready _ =>
    { t with stage := .finished { error := result, duration := now - t.started, request,
                                  observation } }
  | .panicked message => { t with stage := .panicked message }

def Task.joined (t : Task C) : Option Joined :=
  match t.stage with
  | .finished output => some (.finished output)
  | .panicked message => some (.panicked message)
  | .aborted => some .cancelled
  | _ => none

def Task.tick (t : Task C) (now : Instant) : Option (Task C) :=
  if t.clock ≤ now then some { t with clock := now } else none

def step (opts : Options) (t : Task C) (e : Event C) : Option (Task C) :=
  match e, t.stage with
  | .begin now, .spawned request => (t.tick now).map fun t => begin opts t request now
  | .beforeRequest now prep answer, .preparing _ =>
    (t.tick now).map fun t => prepared opts t prep now answer
  | .execute now answer observation handlerNow, .executing request =>
    (t.tick now).map fun t => executed opts t request now answer observation handlerNow
  | .handle now answer, .handling request ctx observation deadline =>
    (t.tick now).map fun t => handled opts t request ctx observation deadline now answer
  | .afterSuccess now ctx answer, .polishing request _ observation =>
    (t.tick now).map fun t => polished t request ctx observation answer
  | .cleanup now answer, .cleaning result request observation =>
    (t.tick now).map fun t => cleaned t result request observation now answer
  | .abort, _ => if t.joined.isNone then some { t with stage := .aborted } else none
  | _, _ => none

def Polled.settled {α : Type*} : Polled α → Bool
  | .pending => false
  | _ => true

def Polled.panics {α : Type*} : Polled α → Bool
  | .panicked _ => true
  | _ => false

def settles (opts : Options) (t : Task C) (e : Event C) : Bool :=
  match e, t.stage with
  | .begin _, _ => true
  | .beforeRequest now _ answer, _ => (withinTask opts t now answer).settled
  | .execute now answer _ _, _ => (withinTask opts t now answer).settled
  | .handle now answer, .handling _ _ _ deadline =>
    (timeoutAt deadline now (handlerTimeoutError opts) answer).settled
  | .afterSuccess _ _ answer, _ => answer.settled
  | .cleanup _ answer, _ => answer.settled
  | .abort, _ => true
  | _, _ => false

def Event.createsContext : Event C → Bool
  | .execute _ (.ready (.ok _)) _ _ => true
  | _ => false

def Event.handlerSucceeds : Event C → Bool
  | .handle _ (.ready (.ok _)) => true
  | _ => false

def Event.afterSuccessSucceeds : Event C → Bool
  | .afterSuccess _ _ (.ready (.ok _)) => true
  | _ => false

def created (es : List (Event C)) : Bool := es.any Event.createsContext

def succeeded (es : List (Event C)) : Bool :=
  es.any Event.handlerSucceeds && es.any Event.afterSuccessSucceeds

def Event.isCleanup : Event C → Bool
  | .cleanup _ _ => true
  | _ => false

def Event.calm (opts : Options) : Event C → Bool
  | .begin now => opts.taskTimeout.all fun timeout => decide (now + timeout ≤ opts.lastInstant)
  | .execute _ (.ready (.ok _)) observed handlerNow =>
    observed.isOk && decide (handlerNow + opts.requestHandlerTimeout ≤ opts.lastInstant)
  | .execute _ answer _ _ => !answer.panics
  | .beforeRequest _ _ answer => !answer.panics
  | .handle _ answer => !answer.panics
  | .afterSuccess _ _ answer => !answer.panics
  | .cleanup _ answer => !answer.panics
  | .abort => true

/-- Nothing panics before `cleanup` is called, and `cleanup` itself at most after a success. -/
def Calm (opts : Options) (es : List (Event C)) : Prop :=
  ∀ e ∈ es, e.calm opts = false → e.isCleanup = true ∧ succeeded es = true

/-- One call of `cleanup`, with the outcome that the hooks' answers amount to and the error
that the task reports. -/
def CleanedUp (es : List (Event C)) (t : Task C) : Prop :=
  ∃ outcome, t.cleanups = [outcome] ∧
    ((∃ ctx, outcome = .handled ctx) ↔ succeeded es = true) ∧
    ((∃ ctx error, outcome = .handlerFailed ctx error) ↔
      created es = true ∧ succeeded es = false) ∧
    ((∃ request error, outcome = .executeFailed request error) ↔ created es = false) ∧
    ∀ error, outcome.error = some error →
      ∃ output, t.joined = some (.finished output) ∧ output.error = some error

def Fits (es : List (Event C)) : RequestOutcome C → Prop
  | .handled _ => created es = true ∧ succeeded es = true
  | .handlerFailed _ _ => created es = true ∧ succeeded es = false
  | .executeFailed _ _ => created es = false ∧ succeeded es = false

def CleanedWith (es : List (Event C)) (t : Task C) (error : Option CrawlError) : Prop :=
  ∃ outcome, t.cleanups = [outcome] ∧ Fits es outcome ∧ outcome.error = error

/-- What is known before `cleanup` is called: nothing has panicked, whether there is a
context, and whether the handler has succeeded. -/
structure Before (opts : Options) (es : List (Event C)) (t : Task C) (context handler : Bool) :
    Prop where
  cleanups : t.cleanups = []
  calm : ∀ e ∈ es, e.calm opts = true
  hasContext : created es = context
  hasHandled : es.any Event.handlerSucceeds = handler
  notPolished : es.any Event.afterSuccessSucceeds = false

def Tracks (opts : Options) (es : List (Event C)) (t : Task C) : Prop :=
  match t.stage with
  | .spawned _ | .preparing _ | .executing _ => Before opts es t false false
  | .handling _ _ _ _ => Before opts es t true false
  | .polishing _ _ _ => Before opts es t true true
  | .cleaning result _ _ => (∀ e ∈ es, e.calm opts = true) ∧ CleanedWith es t result
  | .finished output => (∀ e ∈ es, e.calm opts = true) ∧ CleanedWith es t output.error
  | .panicked _ =>
    (t.cleanups = [] ∧ ∃ e ∈ es, e.calm opts = false ∧ e.isCleanup = false) ∨
      ((∀ e ∈ es, e.calm opts = false → e.isCleanup = true) ∧
        (∃ e ∈ es, e.calm opts = false) ∧ ∃ error, CleanedWith es t error)
  | .aborted => t.cleanups.length ≤ 1

def Task.rank (t : Task C) : ℕ :=
  match t.stage with
  | .spawned _ => 6
  | .preparing _ => 5
  | .executing _ => 4
  | .handling _ _ _ _ => 3
  | .polishing _ _ _ => 2
  | .cleaning _ _ _ => 1
  | .finished _ | .panicked _ | .aborted => 0

section Proofs
variable {opts : Options} {es : List (Event C)} {e : Event C} {t u : Task C}
  {context handler : Bool}

@[simp] theorem created_snoc : created (es ++ [e]) = (created es || e.createsContext) := by
  simp [created]

theorem any_snoc (p : Event C → Bool) : (es ++ [e]).any p = (es.any p || p e) := by
  simp

theorem succeeded_snoc (hh : e.handlerSucceeds = false) (ha : e.afterSuccessSucceeds = false) :
    succeeded (es ++ [e]) = succeeded es := by
  simp [succeeded, hh, ha]

theorem calm_snoc (h : ∀ e ∈ es, e.calm opts = true) (he : e.calm opts = true) :
    ∀ e' ∈ es ++ [e], e'.calm opts = true := by
  intro e' h'
  rcases List.mem_append.mp h' with hold | hnew
  · exact h e' hold
  · rw [List.mem_singleton.mp hnew]
    exact he

theorem Before.snoc (h : Before opts es t context handler) (hc : u.cleanups = t.cleanups)
    (he : e.calm opts = true) (ha : e.afterSuccessSucceeds = false) :
    Before opts (es ++ [e]) u (context || e.createsContext) (handler || e.handlerSucceeds) := by
  refine ⟨hc.trans h.cleanups, calm_snoc h.calm he, ?_, ?_, ?_⟩
  · rw [created_snoc, h.hasContext]
  · rw [any_snoc, h.hasHandled]
  · rw [any_snoc, h.notPolished, ha]
    rfl

theorem Before.panicked {message : String} (h : Before opts es t context handler)
    (he : e.calm opts = false) (hc : e.isCleanup = false) :
    Tracks opts (es ++ [e]) { t with stage := .panicked message } := by
  refine .inl ⟨h.cleanups, e, ?_, he, hc⟩
  simp

theorem Before.beginCleanup {outcome : RequestOutcome C} {result : Option CrawlError}
    {request : Request} {observation : AttemptObservation}
    (h : Before opts es t context handler) (he : e.calm opts = true)
    (hfits : Fits (es ++ [e]) outcome) (hres : outcome.error = result) :
    Tracks opts (es ++ [e]) (beginCleanup t outcome result request observation) := by
  refine ⟨calm_snoc h.calm he, outcome, ?_, hfits, hres⟩
  simp [Attempt.beginCleanup, h.cleanups]

theorem Before.begin {request : Request} {now : Instant} (h : Before opts es t false false) :
    Tracks opts (es ++ [.begin now]) (begin opts t request now) := by
  simp only [Attempt.begin]
  split
  · rename_i timeout ht
    split
    · rename_i hlt
      refine .inl ⟨h.cleanups, _, List.mem_append_right _ List.mem_cons_self, ?_, rfl⟩
      simp [Event.calm, ht, hlt]
    · rename_i hle
      refine h.snoc rfl ?_ rfl
      simp [Event.calm, ht, not_lt.mp hle]
  · rename_i ht
    refine h.snoc rfl ?_ rfl
    simp [Event.calm, ht]

theorem timeoutAt_cases {α : Type*} (deadline now : Instant) (late : CrawlError)
    (answer : Answer α) :
    timeoutAt deadline now late answer = answer ∨
      (answer = .pending ∧ timeoutAt deadline now late answer = .ready (.error late)) := by
  cases answer with
  | pending =>
    by_cases h : deadline ≤ now
    · exact .inr ⟨rfl, by simp [timeoutAt, h]⟩
    · exact .inl (by simp [timeoutAt, h])
  | ready value => exact .inl rfl
  | panicked message => exact .inl rfl

theorem withinTask_cases {α : Type*} (opts : Options) (t : Task C) (now : Instant)
    (answer : Answer α) :
    withinTask opts t now answer = answer ∨
      (answer = .pending ∧ ∃ late, withinTask opts t now answer = .ready (.error late)) := by
  simp only [withinTask]
  split
  · rename_i timeout _
    rcases timeoutAt_cases (t.started + timeout) now (taskTimeoutError opts timeout) answer with
      hsame | ⟨hpending, hlate⟩
    · exact .inl hsame
    · exact .inr ⟨hpending, _, hlate⟩
  · exact .inl rfl

theorem Before.executeFailed (h : Before opts es t false false) (hc : e.createsContext = false)
    (hh : e.handlerSucceeds = false) (request : Request) (error : CrawlError) :
    Fits (es ++ [e]) (.executeFailed request error) := by
  simp [Fits, succeeded, h.hasContext, h.hasHandled, hc, hh]

theorem Before.handlerFailed (h : Before opts es t true handler)
    (ha : e.afterSuccessSucceeds = false) (ctx : C) (error : CrawlError) :
    Fits (es ++ [e]) (.handlerFailed ctx error) := by
  simp [Fits, succeeded, h.hasContext, h.notPolished, ha]

theorem Before.prepared {prep : Request} {now : Instant} {answer : Answer Unit}
    (h : Before opts es t false false) :
    Tracks opts (es ++ [.beforeRequest now prep answer]) (prepared opts t prep now answer) := by
  rcases withinTask_cases opts t now answer with hsame | ⟨rfl, late, hlate⟩
  · simp only [Attempt.prepared, hsame]
    rcases answer with _ | (error | _) | message
    · exact h.snoc rfl rfl rfl
    · exact h.beginCleanup rfl (h.executeFailed rfl rfl _ _) rfl
    · exact h.snoc rfl rfl rfl
    · exact h.panicked rfl rfl
  · simp only [Attempt.prepared, hlate]
    exact h.beginCleanup rfl (h.executeFailed rfl rfl _ _) rfl

theorem Before.observed {request : Request} {ctx : C} {now handlerNow : Instant}
    {observation : Except String AttemptObservation} (h : Before opts es t false false) :
    Tracks opts (es ++ [.execute now (.ready (.ok ctx)) observation handlerNow])
      (observed opts t request ctx observation handlerNow) := by
  cases observation with
  | error message => exact h.panicked rfl rfl
  | ok observation =>
    by_cases hlt : opts.lastInstant < handlerNow + opts.requestHandlerTimeout
    · simp only [Attempt.observed, if_pos hlt]
      refine h.panicked ?_ rfl
      simp [Event.calm, hlt]
    · simp only [Attempt.observed, if_neg hlt]
      refine h.snoc rfl ?_ rfl
      simp [Event.calm, Except.isOk, Except.toBool, not_lt.mp hlt]

theorem Before.executed {request : Request} {now handlerNow : Instant} {answer : Answer C}
    {observation : Except String AttemptObservation} (h : Before opts es t false false) :
    Tracks opts (es ++ [.execute now answer observation handlerNow])
      (executed opts t request now answer observation handlerNow) := by
  rcases withinTask_cases opts t now answer with hsame | ⟨rfl, late, hlate⟩
  · simp only [Attempt.executed, hsame]
    rcases answer with _ | (error | ctx) | message
    · exact h.snoc rfl rfl rfl
    · exact h.beginCleanup rfl (h.executeFailed rfl rfl _ _) rfl
    · exact h.observed
    · exact h.panicked rfl rfl
  · simp only [Attempt.executed, hlate]
    exact h.beginCleanup rfl (h.executeFailed rfl rfl _ _) rfl

theorem Before.handle {request : Request} {ctx : C} {observation : AttemptObservation}
    {deadline now : Instant} {answer : Answer Unit}
    (hstage : t.stage = .handling request ctx observation deadline)
    (h : Before opts es t true false) :
    Tracks opts (es ++ [.handle now answer])
      (handled opts t request ctx observation deadline now answer) := by
  rcases timeoutAt_cases deadline now (handlerTimeoutError opts) answer with
    hsame | ⟨rfl, hlate⟩
  · simp only [Attempt.handled, hsame]
    rcases answer with _ | (error | _) | message
    · simp only [Tracks, hstage]
      exact h.snoc rfl rfl rfl
    · exact h.beginCleanup rfl (h.handlerFailed rfl _ _) rfl
    · exact h.snoc rfl rfl rfl
    · exact h.panicked rfl rfl
  · simp only [Attempt.handled, hlate]
    exact h.beginCleanup rfl (h.handlerFailed rfl _ _) rfl

theorem Before.polish {request : Request} {ctx : C} {observation : AttemptObservation}
    {now : Instant} {answer : Answer Unit} (h : Before opts es t true true) :
    Tracks opts (es ++ [.afterSuccess now ctx answer])
      (polished t request ctx observation answer) := by
  rcases answer with _ | (error | _) | message
  · exact h.snoc rfl rfl rfl
  · exact h.beginCleanup rfl (h.handlerFailed rfl _ _) rfl
  · refine h.beginCleanup rfl ⟨?_, ?_⟩ rfl
    · simp [h.hasContext]
    · simp [succeeded, h.hasHandled, Event.afterSuccessSucceeds]
  · exact h.panicked rfl rfl

theorem Fits.snoc {outcome : RequestOutcome C} (h : Fits es outcome)
    (hc : e.createsContext = false) (hh : e.handlerSucceeds = false)
    (ha : e.afterSuccessSucceeds = false) : Fits (es ++ [e]) outcome := by
  cases outcome <;> simpa only [Fits, created_snoc, hc, succeeded_snoc hh ha, Bool.or_false] using h

theorem CleanedWith.cleaned {result : Option CrawlError} {request : Request}
    {observation : AttemptObservation} {now : Instant} {answer : Answer Unit}
    (hstage : t.stage = .cleaning result request observation)
    (hcalm : ∀ e ∈ es, e.calm opts = true) (h : CleanedWith es t result) :
    Tracks opts (es ++ [.cleanup now answer])
      (cleaned t result request observation now answer) := by
  obtain ⟨outcome, hone, hfits, herror⟩ := h
  have hfits' : Fits (es ++ [.cleanup now answer]) outcome := hfits.snoc rfl rfl rfl
  rcases answer with _ | (error | _) | message
  · simp only [Tracks, Attempt.cleaned, hstage]
    exact ⟨calm_snoc hcalm rfl, outcome, hone, hfits', herror⟩
  · exact ⟨calm_snoc hcalm rfl, outcome, hone, hfits', herror⟩
  · exact ⟨calm_snoc hcalm rfl, outcome, hone, hfits', herror⟩
  · refine .inr ⟨?_, ⟨_, List.mem_append_right _ List.mem_cons_self, rfl⟩, _, outcome, hone,
      hfits', herror⟩
    intro e he hne
    rcases List.mem_append.mp he with hold | hnew
    · rw [hcalm e hold] at hne
      cases hne
    · rw [List.mem_singleton.mp hnew]
      rfl

theorem Tracks.cleanups_length_le (h : Tracks opts es t) : t.cleanups.length ≤ 1 := by
  have hone {error : Option CrawlError} (h : CleanedWith es t error) :
      t.cleanups.length ≤ 1 := by
    obtain ⟨outcome, hone, -⟩ := h
    simp [hone]
  simp only [Tracks] at h
  split at h
  · simp [h.cleanups]
  · simp [h.cleanups]
  · simp [h.cleanups]
  · simp [h.cleanups]
  · simp [h.cleanups]
  · exact hone h.2
  · exact hone h.2
  · rcases h with ⟨hnone, -⟩ | ⟨-, -, error, h⟩
    · simp [hnone]
    · exact hone h
  · exact h

theorem tick_eq {now : Instant} (h : t.tick now = some u) : u = { t with clock := now } := by
  simp only [Task.tick] at h
  split at h
  · exact (Option.some.inj h).symm
  · cases h

theorem map_tick_eq {now : Instant} {f : Task C → Task C} (h : (t.tick now).map f = some u) :
    u = f { t with clock := now } := by
  obtain ⟨t', ht, rfl⟩ := Option.map_eq_some_iff.mp h
  rw [tick_eq ht]

theorem Before.ticked (h : Before opts es t context handler) (now : Instant) :
    Before opts es { t with clock := now } context handler :=
  ⟨h.cleanups, h.calm, h.hasContext, h.hasHandled, h.notPolished⟩

theorem Tracks.step (h : Tracks opts es t) (hstep : step opts t e = some u) :
    Tracks opts (es ++ [e]) u := by
  have hle := h.cleanups_length_le
  unfold Attempt.step at hstep
  split at hstep
  · rename_i hstage
    simp only [Tracks, hstage] at h
    rw [map_tick_eq hstep]
    exact (h.ticked _).begin
  · rename_i hstage
    simp only [Tracks, hstage] at h
    rw [map_tick_eq hstep]
    exact (h.ticked _).prepared
  · rename_i hstage
    simp only [Tracks, hstage] at h
    rw [map_tick_eq hstep]
    exact (h.ticked _).executed
  · rename_i hstage
    simp only [Tracks, hstage] at h
    rw [map_tick_eq hstep]
    exact (h.ticked _).handle hstage
  · rename_i hstage
    simp only [Tracks, hstage] at h
    rw [map_tick_eq hstep]
    exact (h.ticked _).polish
  · rename_i hstage
    simp only [Tracks, hstage] at h
    rw [map_tick_eq hstep]
    exact CleanedWith.cleaned hstage h.1 h.2
  · split at hstep
    · cases hstep
      exact hle
    · cases hstep
  · cases hstep

theorem run_tracks {request : Request} {clock : Instant}
    (run : Machine.Run (Machine.Computes (step opts)) (spawn request clock) es t) :
    Tracks opts es t := by
  induction run with
  | nil => exact ⟨rfl, fun _ he => (List.not_mem_nil he).elim, rfl, rfl, rfl⟩
  | snoc _ hstep ih => exact ih.step hstep

section Ranks
variable {now : Instant}

theorem rank_begin_le (request : Request) : (begin opts t request now).rank ≤ 5 := by
  simp only [begin]
  split
  · split <;> simp [Task.rank]
  · simp [Task.rank]

theorem rank_prepared_le (prep : Request) (answer : Answer Unit) :
    (prepared opts t prep now answer).rank + (withinTask opts t now answer).settled.toNat ≤ 5 := by
  simp only [prepared]
  split <;> rename_i hanswer <;> simp [Task.rank, beginCleanup, hanswer, Polled.settled]

theorem rank_observed_le (opts : Options) (t : Task C) (request : Request) (ctx : C)
    (observation : Except String AttemptObservation) (handlerNow : Instant) :
    (observed opts t request ctx observation handlerNow).rank ≤ 3 := by
  simp only [observed]
  split
  · simp [Task.rank]
  · split <;> simp [Task.rank]

theorem rank_executed_le (request : Request) (answer : Answer C)
    (observation : Except String AttemptObservation) (handlerNow : Instant) :
    (executed opts t request now answer observation handlerNow).rank +
      (withinTask opts t now answer).settled.toNat ≤ 4 := by
  simp only [executed]
  split <;> rename_i hanswer
  · simp [Task.rank, hanswer, Polled.settled]
  · simp [Task.rank, beginCleanup, hanswer, Polled.settled]
  · rename_i ctx
    have hle := rank_observed_le opts t request ctx observation handlerNow
    simp only [hanswer, Polled.settled, Bool.toNat_true]
    omega
  · simp [Task.rank, hanswer, Polled.settled]

theorem rank_handled_le {request : Request} {ctx : C} {observation : AttemptObservation}
    {deadline : Instant} (hstage : t.stage = .handling request ctx observation deadline)
    (answer : Answer Unit) :
    (handled opts t request ctx observation deadline now answer).rank +
      (timeoutAt deadline now (handlerTimeoutError opts) answer).settled.toNat ≤ 3 := by
  simp only [handled]
  split <;> rename_i hanswer <;>
    simp [Task.rank, beginCleanup, hanswer, hstage, Polled.settled]

theorem rank_polished_le (request : Request) (ctx : C) (observation : AttemptObservation)
    (answer : Answer Unit) :
    (polished t request ctx observation answer).rank + answer.settled.toNat ≤ 2 := by
  simp only [polished]
  split <;> simp [Task.rank, beginCleanup, Polled.settled]

theorem rank_cleaned_le {result : Option CrawlError} {request : Request}
    {observation : AttemptObservation}
    (hstage : t.stage = .cleaning result request observation) (answer : Answer Unit) :
    (cleaned t result request observation now answer).rank + answer.settled.toNat ≤ 1 := by
  simp only [cleaned]
  split <;> simp [Task.rank, hstage, Polled.settled]

end Ranks

theorem joined_of_rank_eq_zero (h : t.rank = 0) : t.joined.isNone = false := by
  simp only [Task.rank] at h
  simp only [Task.joined]
  split at h <;> simp_all

theorem step_rank (hstep : step opts t e = some u) :
    u.rank + (settles opts t e).toNat ≤ t.rank := by
  unfold step at hstep
  split at hstep
  · rename_i hstage
    have hrank : t.rank = 6 := by simp only [Task.rank, hstage]
    rw [map_tick_eq hstep, hrank]
    exact Nat.add_le_add_right (rank_begin_le _) 1
  · rename_i hstage
    have hrank : t.rank = 5 := by simp only [Task.rank, hstage]
    rw [map_tick_eq hstep, hrank]
    exact rank_prepared_le _ _
  · rename_i hstage
    have hrank : t.rank = 4 := by simp only [Task.rank, hstage]
    rw [map_tick_eq hstep, hrank]
    exact rank_executed_le _ _ _ _
  · rename_i hstage
    have hrank : t.rank = 3 := by simp only [Task.rank, hstage]
    rw [map_tick_eq hstep, hrank]
    simp only [settles, hstage]
    exact rank_handled_le rfl _
  · rename_i hstage
    have hrank : t.rank = 2 := by simp only [Task.rank, hstage]
    rw [map_tick_eq hstep, hrank]
    exact rank_polished_le _ _ _ _
  · rename_i hstage
    have hrank : t.rank = 1 := by simp only [Task.rank, hstage]
    rw [map_tick_eq hstep, hrank]
    refine rank_cleaned_le ?_ _
    exact hstage
  · split at hstep
    · rename_i hnone
      cases hstep
      have hpos : t.rank ≠ 0 := by
        intro hzero
        rw [joined_of_rank_eq_zero hzero] at hnone
        cases hnone
      exact Nat.one_le_iff_ne_zero.mpr hpos
    · cases hstep
  · cases hstep

theorem CleanedWith.iff_joined {error : Option CrawlError} (h : CleanedWith es t error) :
    CleanedUp es t ↔ ∀ e, error = some e →
      ∃ output, t.joined = some (.finished output) ∧ output.error = some e := by
  obtain ⟨outcome, hone, hfits, rfl⟩ := h
  constructor
  · rintro ⟨outcome', hone', -, -, -, hreport⟩
    rw [hone] at hone'
    cases hone'
    exact hreport
  · intro hreport
    refine ⟨outcome, hone, ?_, ?_, ?_, hreport⟩ <;> cases outcome <;> simp_all [Fits]

/-- A task that has returned. -/
theorem finished_cleanedUp {output : AttemptOutput} (h : Tracks opts es t)
    (hstage : t.stage = .finished output) : CleanedUp es t ∧ Calm opts es := by
  simp only [Tracks, hstage] at h
  obtain ⟨hcalm, hclean⟩ := h
  constructor
  · refine hclean.iff_joined.mpr fun e he => ⟨output, ?_, he⟩
    simp only [Task.joined, hstage]
  · intro e he hne
    rw [hcalm e he] at hne
    cases hne

/-- A task that has panicked. -/
theorem panicked_cleanedUp_iff {message : String} (h : Tracks opts es t)
    (hstage : t.stage = .panicked message) : CleanedUp es t ↔ Calm opts es := by
  simp only [Tracks, hstage] at h
  have hjoined : t.joined = some (.panicked message) := by simp only [Task.joined, hstage]
  rcases h with ⟨hnone, e, he, hne, hnot⟩ | ⟨honly, ⟨e, he, hne⟩, error, hclean⟩
  · constructor
    · rintro ⟨outcome, hone, -⟩
      rw [hnone] at hone
      cases hone
    · intro hcalm
      have := (hcalm e he hne).1
      rw [hnot] at this
      cases this
  · rw [hclean.iff_joined]
    obtain ⟨outcome, -, hfits, rfl⟩ := hclean
    -- the panic of `cleanup` hides the error of every outcome but a success
    cases outcome with
    | handled ctx =>
      refine iff_of_true (fun e he => nomatch he) fun e he hne => ⟨honly e he hne, hfits.2⟩
    | handlerFailed ctx error =>
      refine iff_of_false ?_ ?_
      · intro hreport
        obtain ⟨output, hout, -⟩ := hreport error rfl
        rw [hjoined] at hout
        cases hout
      · intro hcalm
        have := (hcalm e he hne).2
        rw [hfits.2] at this
        cases this
    | executeFailed request error =>
      refine iff_of_false ?_ ?_
      · intro hreport
        obtain ⟨output, hout, -⟩ := hreport error rfl
        rw [hjoined] at hout
        cases hout
      · intro hcalm
        have := (hcalm e he hne).2
        rw [hfits.2] at this
        cases this

end Proofs

/-- `cleanup` is never called twice. An attempt of which six polls have ended a wait has
ended; if it was not aborted, `cleanup` was called once, with the outcome that fits and the
error that is reported, exactly if nothing panicked. -/
theorem cleanup_once (opts : Options) (request : Request) (clock : Instant)
    (es : List (Event C)) (t : Task C)
    (run : Machine.Run (Machine.Computes (step opts)) (spawn request clock) es t) :
    t.cleanups.length ≤ 1 ∧
      (6 ≤ Machine.tally (step opts) (settles opts) (spawn request clock) es →
        ∃ joined, t.joined = some joined) ∧
      ∀ joined, t.joined = some joined → joined ≠ .cancelled →
        (CleanedUp es t ↔ Calm opts es) := by
  have htracks := run_tracks run
  refine ⟨htracks.cleanups_length_le, ?_, ?_⟩
  · intro hsix
    have hle := Machine.Run.tally_add_rank_le (P := settles opts) Task.rank
      (fun _ _ _ h => step_rank h) run
    have hspawn : (spawn request clock : Task C).rank = 6 := rfl
    have hjoined := joined_of_rank_eq_zero (t := t) (by omega)
    exact Option.isSome_iff_exists.mp (by simpa using hjoined)
  · intro joined hjoined hne
    simp only [Task.joined] at hjoined
    split at hjoined
    · rename_i hstage
      obtain ⟨hclean, hcalm⟩ := finished_cleanedUp htracks hstage
      exact iff_of_true hclean hcalm
    · rename_i hstage
      exact panicked_cleanedUp_iff htracks hstage
    · cases hjoined
      exact absurd rfl hne
    · cases hjoined

def shortTimeouts : Options where
  requestHandlerTimeout := 10000000
  taskTimeout := some 1000000000
  lastInstant := 2 ^ 63 * 1000000000
  debugDuration := fun d => toString d

def page : Request := Request.get ⟨"https://a.test/", some "a.test"⟩ "https://a.test/"

def handlerHangs : List (Event Unit) :=
  [.begin 0, .beforeRequest 0 page (.ready (.ok ())),
   .execute 1 .pending (.ok {}) 1, .execute 2 (.ready (.ok ())) (.ok {}) 2,
   .handle 2 .pending, .handle 10000002 .pending, .cleanup 10000002 (.ready (.ok ()))]

theorem cleanup_once_handlerHangs : ∃ t : Task Unit,
    Machine.Run (Machine.Computes (step shortTimeouts)) (spawn page 0) handlerHangs t ∧
      t.cleanups = [.handlerFailed () (handlerTimeoutError shortTimeouts)] ∧
      CleanedUp handlerHangs t := by
  obtain ⟨t, ht, hclean⟩ : ∃ t, handlerHangs.foldlM (step shortTimeouts) (spawn page 0) = some t ∧
      t.cleanups = [.handlerFailed () (handlerTimeoutError shortTimeouts)] ∧
      ∃ output, t.joined = some (.finished output) := ⟨_, rfl, rfl, _, rfl⟩
  have run := Machine.run_of_foldlM ht
  obtain ⟨hcalls, output, hjoined⟩ := hclean
  have hcalm : Calm shortTimeouts handlerHangs := by
    intro e he hne
    have hall : ∀ e ∈ handlerHangs, e.calm shortTimeouts = true := by decide
    rw [hall e he] at hne
    cases hne
  have honce := (cleanup_once shortTimeouts page 0 handlerHangs t run).2.2 _ hjoined
  exact ⟨t, run, hcalls, (honce fun h => nomatch h).mpr hcalm⟩

def handlerPanics : List (Event Unit) :=
  [.begin 0, .beforeRequest 0 page (.ready (.ok ())),
   .execute 1 (.ready (.ok ())) (.ok {}) 1, .handle 1 (.panicked "boom")]

theorem panic_skips_cleanup : ∃ t : Task Unit,
    Machine.Run (Machine.Computes (step shortTimeouts)) (spawn page 0) handlerPanics t ∧
      t.joined = some (.panicked "boom") ∧ t.cleanups = [] ∧ ¬ CleanedUp handlerPanics t := by
  obtain ⟨t, ht, hjoined, hnone⟩ :
      ∃ t, handlerPanics.foldlM (step shortTimeouts) (spawn page 0) = some t ∧
        t.joined = some (.panicked "boom") ∧ t.cleanups = [] := ⟨_, rfl, rfl, rfl⟩
  refine ⟨t, Machine.run_of_foldlM ht, hjoined, hnone, ?_⟩
  rintro ⟨outcome, hone, -⟩
  rw [hnone] at hone
  cases hone

end Millipede.Attempt
