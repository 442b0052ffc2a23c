import Millipede.Crawler.Attempts

/-!
# The two retry budgets

A retry counts against the request's cap or against the session rotations. The queue
increments the first counter and the dispatcher the second, both on a request that the
attempt has had in its hands; `restoreCounters` keeps the attempt from writing them. A
request is therefore attempted at most once more than both budgets allow, and one that is
marked `no_retry` only once, as long as no error says that it ignores the limits.
-/

namespace Millipede.System

open Engine

variable {opts : EngineOptions}

structure Limited (opts : EngineOptions) (cap retries rotations : ℕ) (request : Request) :
    Prop where
  cap_eq : opts.retry.cap request = cap
  retryCount_le : request.retryCount ≤ retries
  rotationCount_le : request.sessionRotationCount ≤ rotations

/-- The attempt leaves the cap as it is and does not ask to ignore it. -/
structure KeepsCap (opts : EngineOptions) (cap : ℕ) (output : AttemptOutput) : Prop where
  cap_eq : opts.retry.cap output.request = cap
  obeys : ∀ error, output.error = some error → error.ignoresMaxRetries = false

theorem cap_retriedRequest (request : Request) (text : String) (rotates : Bool) :
    opts.retry.cap (retriedRequest request text rotates) = opts.retry.cap request := by
  cases rotates <;> rfl

theorem retriedRequest_counters {request : Request} (text : String) {rotates : Bool} {cap max : ℕ}
    (hcap : cap < 2 ^ 32) (hmax : max < 2 ^ 32)
    (hroom : if rotates then request.sessionRotationCount < max else request.retryCount < cap) :
    (retriedRequest request text rotates).retryCount =
        request.retryCount + (if rotates then 0 else 1) ∧
      (retriedRequest request text rotates).sessionRotationCount =
        request.sessionRotationCount + (if rotates then 1 else 0) := by
  cases rotates with
  | true =>
    have hlt : request.sessionRotationCount + 1 < 2 ^ 32 := lt_of_le_of_lt hroom hmax
    exact ⟨rfl, Nat.mod_eq_of_lt hlt⟩
  | false =>
    have hlt : request.retryCount + 1 < 2 ^ 32 := lt_of_le_of_lt hroom hcap
    exact ⟨Nat.mod_eq_of_lt hlt, rfl⟩

def capBudget (opts : EngineOptions) (cap retries rotations : ℕ) (hcap : cap < 2 ^ 32)
    (hmax : opts.retry.maxSessionRotations < 2 ^ 32) (hretries : cap ≤ retries)
    (hrotations : opts.retry.maxSessionRotations ≤ rotations) : Budget opts where
  Fit := Limited opts cap retries rotations
  spent := fun request => min request.retryCount cap +
    min request.sessionRotationCount opts.retry.maxSessionRotations
  bound := cap + opts.retry.maxSessionRotations
  Accepts := KeepsCap opts cap
  Tame := fun error => error.ignoresMaxRetries = false
  Room := fun request rotates =>
    if rotates then request.sessionRotationCount < opts.retry.maxSessionRotations
    else request.retryCount < cap
  spent_le := fun request _ => Nat.add_le_add (Nat.min_le_right _ _) (Nat.min_le_right _ _)
  tame_panic := fun _ => rfl
  tame_output := fun _ error h he => h.obeys error he
  pushed := fun request text h => ⟨⟨h.cap_eq, h.retryCount_le, h.rotationCount_le⟩, rfl⟩
  restored := fun lease output hout h => ⟨⟨hout.cap_eq, h.retryCount_le, h.rotationCount_le⟩, rfl⟩
  retried := by
    intro request error observation consulted text rotates hfit htame helig hrot
    have hroom := retryDecision_room htame helig
    rw [hrot, hfit.cap_eq] at hroom
    obtain ⟨hr, hs⟩ := retriedRequest_counters text hcap hmax hroom
    have h₁ := hfit.retryCount_le
    have h₂ := hfit.rotationCount_le
    refine ⟨hroom, ⟨(cap_retriedRequest _ _ _).trans hfit.cap_eq, ?_, ?_⟩, ?_⟩
    · rw [hr]
      split_ifs at hroom ⊢ <;> omega
    · rw [hs]
      split_ifs at hroom ⊢ <;> omega
    · rw [hr, hs]
      split_ifs at hroom ⊢ <;> omega

/-- A request with a fixed cap is attempted at most once more than the cap and the session
rotations allow. Its counters stay below the limits they were below at the beginning, and
no increment wraps. -/
theorem bounded_attempts (cap retries rotations : ℕ) (hcap : cap < 2 ^ 32)
    (hmax : opts.retry.maxSessionRotations < 2 ^ 32) (hretries : cap ≤ retries)
    (hrotations : opts.retry.maxSessionRotations ≤ rotations) (key : String)
    (statistics : Statistics) (limiter : DomainLimiter) (clock : Instant) {q : LeaseQueue}
    (hq : ∀ request, Stored q key request → Limited opts cap retries rotations request)
    {es : List SystemEvent} {v : System}
    (run : Machine.Run
      (Machine.Guarded (Obeys (Limited opts cap retries rotations) (KeepsCap opts cap) key)
        (Step opts)) ⟨start opts statistics limiter clock, q⟩ es v) :
    attempts v key ≤ 1 + cap + opts.retry.maxSessionRotations ∧
      (∀ request, Stored v.queue key request →
        request.retryCount ≤ retries ∧ request.sessionRotationCount ≤ rotations) ∧
      ∀ lease rotates, .decided lease (.retried rotates) ∈ v.engine.log →
        v.queue.issued lease.leaseId = some key →
        if rotates then lease.request.sessionRotationCount + 1 < 2 ^ 32
        else lease.request.retryCount + 1 < 2 ^ 32 := by
  have hb := (run_budgeted (capBudget opts cap retries rotations hcap hmax hretries hrotations)
    key statistics limiter clock hq run).metered
  refine ⟨?_, ?_, ?_⟩
  · have htotal : attempts v key ≤ cap + opts.retry.maxSessionRotations + 1 := hb.total
    omega
  · intro request hstored
    have hfit : Limited opts cap retries rotations request := by
      obtain hp | ⟨id, hp⟩ := hstored
      · exact (hb.pending request hp).1
      · exact (hb.leased id request hp).1
    exact ⟨hfit.retryCount_le, hfit.rotationCount_le⟩
  · intro lease rotates hm hi
    have hroom : if rotates then lease.request.sessionRotationCount < opts.retry.maxSessionRotations
        else lease.request.retryCount < cap := hb.room lease rotates hm hi
    split_ifs at hroom ⊢ <;> omega

-- A crawl in which the attempt of one page fails and is repeated, and the attempt of another
-- page fails, which is not to be retried.
def article : Request := Request.get ⟨"data:a", none⟩ "a"

def failing (request : Request) : AttemptOutput :=
  { error := some (.retry (.msg "reset")), duration := 5, request, observation := {} }

def succeeding (request : Request) : AttemptOutput :=
  { error := none, duration := 5, request, observation := {} }

def articleAgain : Request := retriedRequest article "retryable: reset" false

def fetching (leaseId : LeaseId) (request : Request) (now : Instant) : Event :=
  .fetched (some (.ok (some (leaseOf leaseId request)))) now now now

def attempted (slot : ℕ) (output : AttemptOutput) (now : Instant) : Event :=
  .completed slot (.finished output) now 0 0

def attemptEvents (slot : ℕ) (request : Request) (output : AttemptOutput)
    (started ended : Instant) : List Event :=
  ticks started 4 ++ [fetching slot request started] ++ ticks started 3 ++
    [attempted slot output ended] ++ [.answered (.ok ())]

def retryCrawl : List Event :=
  attemptEvents 0 article (failing article) 0 5 ++
    attemptEvents 1 articleAgain (succeeding articleAgain) 5 10 ++
    attemptEvents 2 pageRequest (failing pageRequest) 10 15

def afterEvents (n : ℕ) : State :=
  ((retryCrawl.take n).foldlM (Engine.step singleSlot) (start singleSlot {} ∅ 0)).getD
    (start singleSlot {} ∅ 0)

section RetryCrawl
variable {fits : Request → Prop} {accepts : AttemptOutput → Prop} {key : String}

theorem obeys_quietly {e : Event} (u : System)
    (h : ∀ slot output now handledAt consulted state,
      e = .completed slot (.finished output) now handledAt consulted →
      u.engine.slots.lookup slot = some state → u.queue.issued state.lease.leaseId = some key →
      accepts output) : Obeys fits accepts key u (quietly e) where
  exclusive := fun _ _ => List.not_mem_nil
  returns := by
    intro slot output now handledAt consulted expired state heq hslot hissued
    cases heq
    exact h slot output now handledAt consulted state rfl hslot hissued
  enters := by
    intro request heq
    cases heq

theorem run_ticks {s t : State} (q : LeaseQueue) {now : Instant} {n : ℕ}
    (h : (ticks now n).foldlM (silentStep opts) s = some t) :
    Machine.Run (Machine.Guarded (Obeys fits accepts key) (Step opts)) ⟨s, q⟩
      ((ticks now n).map quietly) ⟨t, q⟩ := by
  refine (run_silent q h).guarded ?_
  intro ev hev u
  obtain ⟨e, he, rfl⟩ := List.mem_map.mp hev
  rw [List.eq_of_mem_replicate he]
  apply obeys_quietly
  intro slot output now handledAt consulted state heq
  cases heq

theorem run_attempt (s s₁ s₂ s₃ s₄ t : State) (slot : ℕ) {request : Request}
    {output : AttemptOutput} {started ended : Instant} {q : LeaseQueue} {k : String}
    {op : QueueOp} {lease : Lease} {place : Place}
    (hpump : (ticks started 4).foldlM (silentStep opts) s = some s₁)
    (hfetch : Engine.step opts s₁ (fetching slot request started) = some s₂)
    (hasks : queueCall s₁ (fetching slot request started) =
      some (.fetchNext, .ok (.leased (some (leaseOf slot request)))))
    (hwaits : q.place k = .pending request) (hfresh : q.issued slot = none)
    (hbound : slot < 2 ^ 64) (hstart : (ticks started 3).foldlM (silentStep opts) s₂ = some s₃)
    (hslot : ∀ state, s₃.slots.lookup slot = some state → state.lease.leaseId = slot)
    (hend : silentStep opts s₃ (attempted slot output ended) = some s₄)
    (haccepts : k = key → accepts output)
    (hanswer : Engine.step opts s₄ (.answered (.ok ())) = some t)
    (hgives : queueCall s₄ (.answered (.ok ())) = some (op, .ok .unit))
    (hreturned : op.returned = some lease) (hlease : lease.leaseId = slot)
    (hgoes : LeaseQueue.destination op = some place) :
    ∃ q', Machine.Run (Machine.Guarded (Obeys fits accepts key) (Step opts)) ⟨s, q⟩
        ((attemptEvents slot request output started ended).map quietly) ⟨t, q'⟩ ∧
      (∀ other, q'.place other = if other = k then place else q.place other) ∧
      ∀ id, q'.issued id = if id = slot then some k else q.issued id := by
  have hissued : (q.grant k slot request hfresh).issued slot = some k := by simp
  have hlive : (q.grant k slot request hfresh).place k = .leased lease.leaseId request := by
    simp [hlease]
  have hquiet : ∀ (e : Event) (u : System), (∀ slot output now handledAt consulted,
      e ≠ .completed slot (.finished output) now handledAt consulted) →
      Obeys fits accepts key u (quietly e) := by
    intro e u hother
    apply obeys_quietly
    intro slot output now handledAt consulted state heq
    exact absurd heq (hother slot output now handledAt consulted)
  have hpumped : Machine.Run (Machine.Guarded (Obeys fits accepts key) (Step opts)) _ _ _ :=
    run_ticks q hpump
  have hleased := hpumped.snoc (e := quietly (fetching slot request started))
    ⟨hquiet _ _ (by simp [fetching]), .dispatched hfetch (by
      rw [hasks]
      show (q.withdraw []).Answers _ _ _
      rw [LeaseQueue.withdraw_nil]
      exact .leased (leaseOf slot request) k hbound hwaits hfresh)⟩
  have hstarted := hleased.append (run_ticks _ hstart)
  simp only [silentStep] at hend
  split_ifs at hend with hsilent
  have hended := hstarted.snoc (e := quietly (attempted slot output ended)) ⟨?_,
    .dispatched hend (by
    rw [Option.isNone_iff_eq_none.mp hsilent]
    rfl)⟩
  · have hanswered := hended.snoc (e := quietly (.answered (.ok ())))
      ⟨hquiet _ _ (by simp), .dispatched hanswer (by
        rw [hgives]
        show (LeaseQueue.withdraw _ []).Answers _ _ _
        rw [LeaseQueue.withdraw_nil]
        exact .consumed op _ (.intro lease k request place hreturned hlive hgoes))⟩
    refine ⟨_, by simpa [attemptEvents] using hanswered, ?_, fun id => ?_⟩
    · intro other
      rw [LeaseQueue.place_put, LeaseQueue.place_grant]
      split_ifs <;> rfl
    · rw [LeaseQueue.issued_put, LeaseQueue.issued_grant]
  · apply obeys_quietly
    intro slot' output' now handledAt consulted state heq hlookup hkey
    cases heq
    rw [hslot state hlookup] at hkey
    exact haccepts (Option.some.inj (hissued.symm.trans hkey))

theorem waiting_article : (waiting [article, pageRequest]).place "a" = .pending article := by
  simp [waiting, article, Request.get]

theorem waiting_page : (waiting [article, pageRequest]).place "data:," = .pending pageRequest := by
  simp [waiting, article, pageRequest, Request.get]

variable (fits accepts key) in
theorem run_retryCrawl
    (harticle : "a" = key → accepts (failing article) ∧ accepts (succeeding articleAgain))
    (hpage : "data:," = key → accepts (failing pageRequest)) :
    ∃ s q, Machine.Run (Machine.Guarded (Obeys fits accepts key) (Step singleSlot))
        ⟨start singleSlot {} ∅ 0, waiting [article, pageRequest]⟩ (retryCrawl.map quietly) ⟨s, q⟩ ∧
      s.log.filterMap Effect.decidedId = [2, 1, 0] ∧
      q.issued 0 = some "a" ∧ q.issued 1 = some "a" ∧ q.issued 2 = some "data:," ∧
      q.place "a" = .handled ∧ q.place "data:," = .handled := by
  have hslot : ∀ {s : State} {slot : ℕ}, (s.slots.lookup slot).map (·.lease.leaseId) = some slot →
      ∀ state, s.slots.lookup slot = some state → state.lease.leaseId = slot := by
    intro s slot h state hs
    rw [hs] at h
    exact Option.some.inj h
  obtain ⟨q₁, hfirst, hplace₁, hissued₁⟩ : ∃ q', Machine.Run
      (Machine.Guarded (Obeys fits accepts key) (Step singleSlot))
      ⟨afterEvents 0, waiting [article, pageRequest]⟩
      ((attemptEvents 0 article (failing article) 0 5).map quietly) ⟨afterEvents 10, q'⟩ ∧ _ :=
    run_attempt _ (afterEvents 4) (afterEvents 5) (afterEvents 8) (afterEvents 9) _ 0 rfl rfl rfl
      waiting_article rfl (by decide) rfl (hslot rfl) rfl (fun h => (harticle h).1) rfl rfl rfl rfl
      rfl
  obtain ⟨q₂, hsecond, hplace₂, hissued₂⟩ : ∃ q', Machine.Run
      (Machine.Guarded (Obeys fits accepts key) (Step singleSlot)) ⟨afterEvents 10, q₁⟩
      ((attemptEvents 1 articleAgain (succeeding articleAgain) 5 10).map quietly)
      ⟨afterEvents 20, q'⟩ ∧ _ :=
    run_attempt _ (afterEvents 14) (afterEvents 15) (afterEvents 18) (afterEvents 19) _ 1 rfl rfl
      rfl (hplace₁ "a") (hissued₁ 1) (by decide) rfl (hslot rfl) rfl (fun h => (harticle h).2) rfl
      rfl rfl rfl rfl
  have hpending : q₂.place "data:," = .pending pageRequest := by
    rw [hplace₂, if_neg (by decide), hplace₁, if_neg (by decide), waiting_page]
  obtain ⟨q₃, hthird, hplace₃, hissued₃⟩ : ∃ q', Machine.Run
      (Machine.Guarded (Obeys fits accepts key) (Step singleSlot)) ⟨afterEvents 20, q₂⟩
      ((attemptEvents 2 pageRequest (failing pageRequest) 10 15).map quietly)
      ⟨afterEvents 30, q'⟩ ∧ _ :=
    run_attempt _ (afterEvents 24) (afterEvents 25) (afterEvents 28) (afterEvents 29) _ 2 rfl rfl
      rfl hpending (by rw [hissued₂, hissued₁]; rfl) (by decide) rfl (hslot rfl) rfl hpage rfl rfl
      rfl rfl rfl
  refine ⟨_, q₃, (hfirst.append hsecond).append hthird, rfl, ?_, ?_, hissued₃ 2, ?_, ?_⟩
  · rw [hissued₃, hissued₂, hissued₁]
    rfl
  · rw [hissued₃, hissued₂]
    rfl
  · rw [hplace₃, if_neg (by decide), hplace₂, if_pos rfl]
  · rw [hplace₃, if_pos rfl]

end RetryCrawl

theorem attempts_eq (s : State) (q : LeaseQueue) (key : String) :
    attempts ⟨s, q⟩ key =
      (s.log.filterMap Effect.decidedId).countP fun id => q.issued id == some key := by
  rw [List.countP_filterMap]
  apply List.countP_congr
  intro effect _
  cases effect.decidedId <;> rfl

theorem Stored.eq {q : LeaseQueue} {key : String} {request waits : Request}
    (h : Stored q key request) (hp : q.place key = .pending waits) : request = waits := by
  obtain h | ⟨id, h⟩ := h
  · cases h.symm.trans hp
    rfl
  · cases h.symm.trans hp

theorem bounded_attempts_retryCrawl :
    ∃ v, attempts v "a" = 2 ∧ attempts v "a" ≤ 1 + 1 + singleSlot.retry.maxSessionRotations ∧
      v.queue.place "a" = .handled := by
  obtain ⟨s, q, hrun, hlog, hfirst, hsecond, hthird, hplace, -⟩ :=
    run_retryCrawl (Limited singleSlot 1 1 1) (KeepsCap singleSlot 1) "a"
      (fun _ => ⟨⟨rfl, fun _ he => by cases he; rfl⟩, rfl, fun _ he => by cases he⟩)
      (fun h => absurd h (by decide))
  have hstored : ∀ request, Stored (waiting [article, pageRequest]) "a" request →
      Limited singleSlot 1 1 1 request := by
    intro request hs
    rw [hs.eq waiting_article]
    exact ⟨rfl, by decide, by decide⟩
  refine ⟨⟨s, q⟩, ?_, ?_, hplace⟩
  · simp [attempts_eq, hlog, hfirst, hsecond, hthird]
  · exact (bounded_attempts 1 1 1 (by decide) (by decide) le_rfl le_rfl "a" {} ∅ 0 hstored hrun).1

-- A strategy that repeats the engine's own classification.
/-- The strategy has the engine's limit and retries what the error calls retryable. -/
structure Mirrors (opts : RetryOptions) (strategy : RetryStrategy) : Prop where
  maxRetries_eq : strategy.maxRetries = opts.maxRequestRetries
  onRetry_eq : ∀ consulted outcome error, outcome.error = some error →
    strategy.onRetry consulted outcome = { shouldRetry := error.isRetryable }

def withStrategy (opts : EngineOptions) (strategy : Option RetryStrategy) : EngineOptions :=
  { opts with retry := { opts.retry with retryStrategy := strategy } }

theorem Mirrors.decision_eq {opts : RetryOptions} {strategy : RetryStrategy}
    (h : Mirrors opts strategy) {request : Request} (hn : request.noRetry = false)
    (consulted : ℕ) (error : CrawlError) (observation : AttemptObservation) :
    strategyDecision opts strategy consulted request error observation =
      defaultDecision opts request error := by
  have hdirective := h.onRetry_eq consulted (attemptOutcome request error observation) error rfl
  have hrotate : (SessionRetryAction.keep == .rotate) = false := rfl
  have hretire : (SessionRetryAction.keep == .retire) = false := rfl
  simp only [strategyDecision, defaultDecision, hn, hdirective, h.maxRetries_eq, hrotate, hretire]
  cases hi : error.ignoresMaxRetries with
  | true => simp [(CrawlError.isRetryable_of_ignoresMaxRetries hi).1]
  | false => simp

def choiceOf (decision : RetryDecision) : Choice :=
  if decision.eligible then .retried decision.rotates else .failed

/-- With the strategy, a request marked `no_retry` is not retried at all; without it, an error
that ignores the limit ignores the mark too. -/
theorem Mirrors.choice_eq_iff {opts : RetryOptions} {strategy : RetryStrategy}
    (h : Mirrors opts strategy) (consulted : ℕ) (request : Request) (error : CrawlError)
    (observation : AttemptObservation) :
    choiceOf (defaultDecision opts request error) =
        choiceOf (strategyDecision opts strategy consulted request error observation) ↔
      ¬ (request.noRetry = true ∧ error.ignoresMaxRetries = true) := by
  cases hn : request.noRetry with
  | false =>
    rw [h.decision_eq hn]
    simp
  | true =>
    have hstrategy : choiceOf (strategyDecision opts strategy consulted request error
        observation) = .failed := by
      simp [choiceOf, strategyDecision, hn]
    rw [hstrategy]
    cases hi : error.ignoresMaxRetries with
    | true => simp [choiceOf, defaultDecision, hi]
    | false => simp [choiceOf, defaultDecision, hi, hn]

theorem conclude_log (s : State) (lease : Lease) (host : Option String) {error : CrawlError}
    (hcrit : error.isCritical = false) (duration : Duration) (observation : AttemptObservation)
    (now : Instant) (handledAt : ℤ) (consulted : ℕ) :
    (conclude opts s lease host (some error) duration observation now handledAt consulted).log =
      .decided lease (choiceOf (retryDecision opts.retry consulted lease.request error
        observation)) :: s.log := by
  simp only [conclude, hcrit, choiceOf, Bool.false_eq_true, if_false]
  split_ifs <;> rfl

theorem handleCompletion_log {s : State} {slot : ℕ} {state : SlotState} {joined : Joined}
    {lease : Lease} {error : CrawlError} {observation : AttemptObservation}
    (hslot : s.slots.lookup slot = some state)
    (hends : Ends state.lease joined lease (some error) observation)
    (hcrit : error.isCritical = false) (now : Instant) (handledAt : ℤ) (consulted : ℕ) :
    (handleCompletion opts s slot joined now handledAt consulted).log =
      .decided lease (choiceOf (retryDecision opts.retry consulted lease.request error
        observation)) :: s.log := by
  simp only [handleCompletion, hslot]
  generalize hfailed : some error = failed at hends
  cases hends with
  | panicked message =>
    cases hfailed
    exact conclude_log _ _ _ hcrit _ _ _ _ _
  | finished output =>
    simp only [← hfailed]
    exact conclude_log _ _ _ hcrit _ _ _ _ _

def Marked (request : Request) : Prop := request.noRetry = true

/-- The attempt leaves the mark on the request, and without a strategy it does not end with
an error that ignores the limits. -/
structure KeepsMark (opts : EngineOptions) (output : AttemptOutput) : Prop where
  marked : Marked output.request
  obeys : opts.retry.retryStrategy = none →
    ∀ error, output.error = some error → error.ignoresMaxRetries = false

def markBudget (opts : EngineOptions) : Budget opts where
  Fit := Marked
  spent := fun _ => 0
  bound := 0
  Accepts := KeepsMark opts
  Tame := fun error => opts.retry.retryStrategy = none → error.ignoresMaxRetries = false
  Room := fun _ _ => False
  spent_le := fun _ _ => le_rfl
  tame_panic := fun _ _ => rfl
  tame_output := fun _ error h he hnone => h.obeys hnone error he
  pushed := fun _ _ h => ⟨h, rfl⟩
  restored := fun _ _ h _ => ⟨h.marked, rfl⟩
  retried := by
    intro request error observation consulted text rotates hfit htame helig _
    have hstop : (retryDecision opts.retry consulted request error observation).eligible =
        false := by
      refine retryDecision_noRetry hfit ?_
      cases hs : opts.retry.retryStrategy with
      | none => exact .inr (htame hs)
      | some strategy => exact .inl rfl
    rw [hstop] at helig
    cases helig

/-- The two ways to decide agree except on an error that ignores the limits of a request marked
`no_retry`. In a run without such an error on the default way, a marked request is attempted
at most once, whatever the strategy. -/
theorem default_agrees_unless_forced (strategy : RetryStrategy)
    (hm : Mirrors opts.retry strategy) :
    (∀ (s : State) (slot : ℕ) (state : SlotState) (joined : Joined) (lease : Lease)
        (error : CrawlError) (observation : AttemptObservation) (now : Instant) (handledAt : ℤ)
        (consulted : ℕ),
      s.slots.lookup slot = some state →
      Ends state.lease joined lease (some error) observation → error.isCritical = false →
      ((handleCompletion (withStrategy opts none) s slot joined now handledAt consulted).log =
          (handleCompletion (withStrategy opts (some strategy)) s slot joined now handledAt
            consulted).log ↔
        ¬ (lease.request.noRetry = true ∧ error.ignoresMaxRetries = true))) ∧
    ∀ (path : Option RetryStrategy) (key : String) (statistics : Statistics)
      (limiter : DomainLimiter) (clock : Instant) (q : LeaseQueue) (es : List SystemEvent)
      (v : System),
      (∀ request, Stored q key request → Marked request) →
      Machine.Run (Machine.Guarded (Obeys Marked (KeepsMark (withStrategy opts path)) key)
        (Step (withStrategy opts path)))
        ⟨start (withStrategy opts path) statistics limiter clock, q⟩ es v →
      attempts v key ≤ 1 := by
  refine ⟨?_, ?_⟩
  · intro s slot state joined lease error observation now handledAt consulted hslot hends hcrit
    rw [handleCompletion_log hslot hends hcrit, handleCompletion_log hslot hends hcrit]
    have hiff := hm.choice_eq_iff consulted lease.request error observation
    simp only [List.cons.injEq, Effect.decided.injEq, true_and, and_true]
    exact hiff
  · intro path key statistics limiter clock q es v hq run
    exact (run_budgeted (markBudget (withStrategy opts path)) key statistics limiter clock hq
      run).metered.total

def repeating (maxRetries : ℕ) : RetryStrategy where
  maxRetries
  onRetry := fun _ outcome => { shouldRetry := outcome.error.any CrawlError.isRetryable }

theorem mirrors_repeating (opts : RetryOptions) :
    Mirrors opts (repeating opts.maxRequestRetries) := by
  refine ⟨rfl, ?_⟩
  intro consulted outcome error he
  simp only [repeating, he, Option.any_some]

def forcedEnd (slot : ℕ) : Event :=
  .completed slot (.finished { error := some (.forceRetry (.msg "again")), duration := 5,
                               request := pageRequest, observation := {} }) 5 0 0

def secondAttempt : List Event :=
  [.answered (.ok ())] ++ ticks 5 4 ++
    [.fetched (some (.ok (some (leaseOf 1
      (retriedRequest pageRequest "force-retry: again" false))))) 5 5 5] ++ ticks 5 3

theorem marked_request_retried :
    ∃ s t, Machine.Run (Machine.Computes (step singleSlot)) (start singleSlot {} ∅ 0)
        (firstAttempt ++ [forcedEnd 0]) s ∧
      s.log.head? = some (.decided (leaseOf 0 pageRequest) (.retried false)) ∧
      Machine.Run (Machine.Computes (step (withStrategy singleSlot (some (repeating 1)))))
        (start singleSlot {} ∅ 0) (firstAttempt ++ [forcedEnd 0]) t ∧
      t.log.head? = some (.decided (leaseOf 0 pageRequest) .failed) ∧
      Mirrors singleSlot.retry (repeating 1) ∧ pageRequest.noRetry = true ∧
      ∃ u, Machine.Run (Machine.Computes (step singleSlot)) s
          (secondAttempt ++ [forcedEnd 1]) u ∧
        u.log.filterMap Effect.decidedId = [1, 0] := by
  have hdefault : ∃ s, (firstAttempt ++ [forcedEnd 0]).foldlM (step singleSlot)
      (start singleSlot {} ∅ 0) = some s ∧
      s.log.head? = some (.decided (leaseOf 0 pageRequest) (.retried false)) ∧
      ∃ u, (secondAttempt ++ [forcedEnd 1]).foldlM (step singleSlot) s = some u ∧
        u.log.filterMap Effect.decidedId = [1, 0] := ⟨_, rfl, rfl, _, rfl, rfl⟩
  have hstrategy : ∃ t, (firstAttempt ++ [forcedEnd 0]).foldlM
      (step (withStrategy singleSlot (some (repeating 1)))) (start singleSlot {} ∅ 0) = some t ∧
      t.log.head? = some (.decided (leaseOf 0 pageRequest) .failed) := ⟨_, rfl, rfl⟩
  obtain ⟨s, hs, hretried, u, hu, htwice⟩ := hdefault
  obtain ⟨t, ht, hfailed⟩ := hstrategy
  exact ⟨s, t, Machine.run_of_foldlM hs, hretried, Machine.run_of_foldlM ht, hfailed,
    mirrors_repeating _, rfl, u, Machine.run_of_foldlM hu, htwice⟩

theorem default_agrees_unless_forced_retryCrawl :
    ∃ v, attempts v "a" = 2 ∧ attempts v "data:," = 1 ∧ attempts v "data:," ≤ 1 ∧
      v.queue.place "data:," = .handled := by
  obtain ⟨s, q, hrun, hlog, hfirst, hsecond, hthird, -, hplace⟩ :=
    run_retryCrawl Marked (KeepsMark (withStrategy singleSlot none)) "data:,"
      (fun h => absurd h (by decide)) (fun _ => ⟨rfl, fun _ _ he => by cases he; rfl⟩)
  refine ⟨⟨s, q⟩, ?_, ?_, ?_, hplace⟩
  · simp [attempts_eq, hlog, hfirst, hsecond, hthird]
  · simp [attempts_eq, hlog, hfirst, hsecond, hthird]
  · refine (default_agrees_unless_forced (repeating singleSlot.retry.maxRequestRetries)
      (mirrors_repeating singleSlot.retry)).2 none "data:," {} ∅ 0 _ _ _ ?_ hrun
    intro request hs
    rw [hs.eq waiting_page]
    rfl

end Millipede.System
