import Millipede.Crawler.Accounting
import Millipede.Crawler.Journal
import Millipede.Storage.LeaseService

/-!
# How a crawl ends

A dispatcher that is neither cancelled nor stopped leaves its loop for one of three reasons: an
error, the limit on successes, or a queue that says it is finished. In the last case every
request the queue knows has been handled, and every request that was handled in this crawl has
been marked exactly once.
-/

namespace Millipede.Engine

def Phase.outcome : Phase → Option (Option CrawlError)
  | .abandoning _ (.finish outcome) => some outcome
  | .joining outcome => some outcome
  | .releasing _ outcome => some outcome
  | .returned outcome => some outcome
  | _ => none

structure Steering where
  cancelled : Bool
  drain : Bool
  draining : Bool
  outcome : Option (Option CrawlError)

def State.steering (s : State) : Steering where
  cancelled := s.cancelled
  drain := s.drain
  draining := s.draining
  outcome := s.phase.outcome

variable {opts : EngineOptions} {s t : State} {e : Event}

def Onward (s t : State) : Prop :=
  t.steering = s.steering ∨
    s.phase.outcome = none ∧ ∃ error, t.steering = { s.steering with outcome := some (some error) }

inductive Steers (opts : EngineOptions) (s : State) (e : Event) (t : State) : Prop
  | onward : Onward s t → Steers opts s e t
  | looped (clock : Instant) :
      s.phase = .top → t = { loopTop opts s with clock } → Steers opts s e t
  | woken (clock : Instant) (wake : Wake) : s.phase.outcome = none →
      (wake = .drained → s.drain = true) → t = { woken s wake with clock } → Steers opts s e t
  | drained (clock : Instant) : s.phase = .settling → s.draining = true →
      t = { s with clock, phase := .returned none } → Steers opts s e t
  | finished (wake : Option Instant) : s.phase = .checkingFinished wake → e = .flag (some true) →
      t = { s with phase := .returned none } → Steers opts s e t

theorem beginAbort_onward (error : CrawlError) (ho : s.phase.outcome = none) :
    Onward s (beginAbort s (some error)) := .inr ⟨ho, error, rfl⟩

theorem afterPump_steering (s : State) (desired : ℕ) (ho : s.phase.outcome = none) :
    (afterPump opts s desired).steering = s.steering := by
  unfold afterPump
  split_ifs
  · simp only [State.steering, ho]
    rfl
  · simp only [State.steering, ho]
    rfl

theorem takeToken_steering (s : State) (desired sequence : ℕ) (entry : DeferredStart)
    (now : Instant) (tokenWait : Option Duration) (started : Instant)
    (ho : s.phase.outcome = none) :
    (takeToken opts s desired sequence entry now tokenWait started).steering = s.steering := by
  cases tokenWait with
  | none => rfl
  | some wait => exact afterPump_steering (putBack s (now + wait) sequence entry) desired ho

theorem pump_steering (s : State) (desired : ℕ) (now : Instant) (tokenWait : Option Duration)
    (started : Instant) (ho : s.phase.outcome = none) :
    (pump opts s desired now tokenWait started).steering = s.steering := by
  unfold pump
  split_ifs with hroom
  · split
    · exact afterPump_steering _ _ ho
    · split_ifs
      · exact afterPump_steering _ _ ho
      · split
        · simp only [State.steering, ho]
          rfl
        · simp only
          split_ifs
          · exact takeToken_steering _ _ _ _ _ _ _ ho
          · split
            · exact takeToken_steering _ _ _ _ _ _ _ ho
            · split_ifs
              · rfl
              · exact takeToken_steering _ _ _ _ _ _ _ ho
  · exact afterPump_steering _ _ ho

theorem settle_steers (hp : s.phase = .settling) (now clock : Instant) :
    Steers opts s e { settle s now with clock } := by
  unfold settle
  simp only
  split_ifs with hempty hdraining
  · exact .drained clock hp hdraining rfl
  · refine .onward (.inl ?_)
    simp only [State.steering, hp]
    rfl
  · refine .onward (.inl ?_)
    simp only [State.steering, hp]
    rfl

theorem runOn_steers {now started clock : Instant} {tokenWait : Option Duration}
    (h : runOn opts s now tokenWait started = some t) :
    Steers opts s e { t with clock } := by
  unfold runOn at h
  cases hp : s.phase with
  | top =>
    simp only [hp, Option.some.injEq] at h
    rw [← h]
    exact .looped clock hp rfl
  | renewScan =>
    simp only [hp, Option.some.injEq] at h
    rw [← h]
    refine .onward (.inl ?_)
    simp only [State.steering, renewScan, hp]
    rfl
  | renewing due =>
    cases due with
    | nil =>
      simp only [hp, Option.some.injEq] at h
      rw [← h]
      refine .onward (.inl ?_)
      simp only [State.steering, startPump, hp]
      rfl
    | cons sequence due => simp only [hp, reduceCtorEq] at h
  | pumping desired =>
    simp only [hp, Option.some.injEq] at h
    rw [← h]
    have ho : s.phase.outcome = none := by
      rw [hp]
      rfl
    exact .onward (.inl (pump_steering s desired now tokenWait started ho))
  | settling =>
    simp only [hp, Option.some.injEq] at h
    rw [← h]
    exact settle_steers hp now clock
  | abandoning rest next =>
    cases rest with
    | cons lease rest => simp only [hp, reduceCtorEq] at h
    | nil =>
      cases next with
      | renew =>
        simp only [hp, Option.some.injEq] at h
        rw [← h]
        refine .onward (.inl ?_)
        simp only [State.steering, hp]
        rfl
      | finish outcome =>
        simp only [hp, Option.some.injEq] at h
        rw [← h]
        refine .onward (.inl ?_)
        simp only [State.steering, hp]
        rfl
  | joining outcome =>
    simp only [hp] at h
    split_ifs at h
    cases h
    refine .onward (.inl ?_)
    simp only [State.steering, hp]
    rfl
  | releasing rest outcome =>
    cases rest with
    | cons lease rest => simp only [hp, reduceCtorEq] at h
    | nil =>
      simp only [hp, Option.some.injEq] at h
      rw [← h]
      refine .onward (.inl ?_)
      simp only [State.steering, beginAbandon, hp]
      rfl
  | fetching desired | checkingFinished wake | checkingEmpty wake | idling wake | selecting wake
  | completing c | returned outcome | panicked => simp only [hp, reduceCtorEq] at h

theorem renewed_onward {due : List ℕ} (hp : s.phase = .renewing due) (sequence : ℕ)
    (reply : StorageResult Unit) (rest : List ℕ) : Onward s (renewed s sequence reply rest) := by
  have ho : s.phase.outcome = none := by
    rw [hp]
    rfl
  unfold renewed
  split
  · refine .inl ?_
    simp only [State.steering, ho]
    rfl
  · split
    · exact beginAbort_onward _ ho
    · refine .inl ?_
      simp only [State.steering, ho]
      rfl

theorem conclude_steering (s : State) (lease : Lease) (host : Option String)
    (error : Option CrawlError) (duration : Duration) (observation : AttemptObservation)
    (now : Instant) (handledAt : ℤ) (consulted : ℕ) (ho : s.phase.outcome = none) :
    (conclude opts s lease host error duration observation now handledAt consulted).steering =
      s.steering := by
  have hs : s.steering = { s.steering with outcome := none } := by
    simp only [State.steering, ho]
  rw [hs]
  simp only [conclude]
  split
  · rfl
  · split_ifs
    · rfl
    · rfl
    · rfl

theorem handleCompletion_steering (s : State) (slot : ℕ) (joined : Joined) (now : Instant)
    (handledAt : ℤ) (consulted : ℕ) (ho : s.phase.outcome = none) :
    (handleCompletion opts s slot joined now handledAt consulted).steering = s.steering := by
  have hs : s.steering = { s.steering with outcome := none } := by
    simp only [State.steering, ho]
  cases hslot : s.slots.lookup slot with
  | none =>
    rw [hs]
    simp only [handleCompletion, hslot]
    rfl
  | some state =>
    rw [handleCompletion_eq hslot]
    cases ending state joined now with
    | none =>
      rw [hs]
      rfl
    | some ended => exact conclude_steering _ _ _ _ _ _ _ _ _ ho

theorem answer_onward {c : Completing} {reply : StorageResult Unit}
    (hp : s.phase = .completing c) (h : answer opts s c reply = some t) : Onward s t := by
  have ho : s.phase.outcome = none := by
    rw [hp]
    rfl
  have hs : s.steering = { s.steering with outcome := none } := by
    simp only [State.steering, ho]
  cases c with
  | abandonCritical lease error =>
    cases h
    exact beginAbort_onward _ ho
  | failedHandler lease total errorText status loadedUrl => cases h
  | abandonCancelled lease | markFinished lease total observation | reclaiming lease rotates
  | markFailed lease total errorText status loadedUrl =>
    cases reply with
    | ok _ =>
      cases h
      refine .inl ?_
      rw [hs]
      rfl
    | error e =>
      cases h
      exact beginAbort_onward _ ho

theorem step_steers (h : step opts s e = some t) (hcancel : e ≠ .cancel) (hstop : e ≠ .stop) :
    Steers opts s e t := by
  cases e with
  | run now tokenWait started =>
    simp only [step] at h
    split_ifs at h
    obtain ⟨u, hu, rfl⟩ := Option.map_eq_some_iff.mp h
    exact runOn_steers hu
  | renewed i reply =>
    simp only [step] at h
    split at h
    · rename_i due hp
      obtain ⟨sequence, -, rfl⟩ := Option.map_eq_some_iff.mp h
      exact .onward (renewed_onward hp _ _ _)
    · cases h
  | fetched reply readyNow stdNow renewNow =>
    simp only [step] at h
    split at h
    · rename_i desired hp
      have hs : s.steering = { s.steering with outcome := none } := by
        simp only [State.steering, hp]
        rfl
      split_ifs at h
      split at h
      · cases h
        refine .onward (.inl ?_)
        rw [hs]
        rfl
      · cases h
        refine .onward (.inl ?_)
        rw [hs]
        rfl
    · cases h
  | flag value =>
    simp only [step] at h
    split at h
    · rename_i wake hp
      split_ifs at h with hvalue
      · cases h
        rw [hvalue]
        exact .finished wake hp rfl rfl
      · cases h
        refine .onward (.inl ?_)
        simp only [State.steering, hp]
        rfl
    · rename_i wake hp
      split_ifs at h
      · cases h
        refine .onward (.inl ?_)
        simp only [State.steering, hp]
        rfl
      · cases h
        refine .onward (.inl ?_)
        simp only [State.steering, hp]
        rfl
    · cases h
  | woken wake now =>
    have hdrain : ∀ {busy : Bool} {due : Option Instant},
        canWake { s with clock := now } busy due now wake = true → wake = .drained →
        s.drain = true := by
      intro busy due hwake hdrained
      rw [hdrained] at hwake
      exact (Bool.and_eq_true_iff.mp hwake).1
    simp only [step] at h
    split_ifs at h
    split at h
    · rename_i due hp
      split_ifs at h with hwake
      cases h
      refine .woken now wake ?_ (hdrain hwake) rfl
      rw [hp]
      rfl
    · rename_i due hp
      split_ifs at h with hwake
      cases h
      refine .woken now wake ?_ (hdrain hwake) rfl
      rw [hp]
      rfl
    · cases h
  | completed slot joined now handledAt consulted =>
    have hp : ∃ wake, s.phase = .selecting wake := by
      simp only [step] at h
      split at h
      · rename_i wake hp
        exact ⟨wake, hp⟩
      · cases h
    obtain ⟨wake, hp⟩ := hp
    obtain ⟨-, rfl⟩ := step_completed h
    refine .onward (.inl (handleCompletion_steering _ _ _ _ _ _ ?_))
    simp only [hp]
    rfl
  | answered reply =>
    simp only [step] at h
    split at h
    · rename_i c hp
      exact .onward (answer_onward hp h)
    · cases h
  | handlerDone =>
    simp only [step] at h
    split at h
    · rename_i hp
      cases h
      refine .onward (.inl ?_)
      simp only [State.steering, hp]
      rfl
    · cases h
  | joined slot =>
    simp only [step] at h
    split at h
    · split_ifs at h
      cases h
      exact .onward (.inl rfl)
    · cases h
  | released i reply =>
    simp only [step] at h
    split at h
    · rename_i rest outcome hp
      obtain ⟨lease, -, rfl⟩ := Option.map_eq_some_iff.mp h
      refine .onward (.inl ?_)
      simp only [State.steering, logCall, hp]
      rfl
    · cases h
  | abandoned i reply =>
    simp only [step] at h
    split at h
    · rename_i rest next hp
      obtain ⟨lease, -, rfl⟩ := Option.map_eq_some_iff.mp h
      refine .onward (.inl ?_)
      simp only [State.steering, logCall, hp]
      cases next with
      | renew => rfl
      | finish outcome => rfl
    · cases h
  | cancel => exact absurd rfl hcancel
  | stop => exact absurd rfl hstop
  | rescale decision =>
    cases h
    exact .onward (.inl rfl)
  | setDelayFloor host floor =>
    cases h
    exact .onward (.inl rfl)

theorem Settles.requestsFinished_le {c : Completing} {reply : StorageResult Unit}
    {statistics : Statistics} {results : List HandledRequest} {phase : Phase}
    (h : Settles s c reply statistics results phase) :
    s.statistics.requestsFinished ≤ statistics.requestsFinished := by
  cases h with
  | finished lease total observation handled =>
    rw [Statistics.requestsFinished_recordFinished]
    exact Nat.le_succ _
  | failed lease total errorText status loadedUrl handled =>
    rw [Statistics.requestsFinished_recordFailed]
  | _ => exact le_rfl

theorem Move.requestsFinished_le (hm : Move opts s e t) :
    s.statistics.requestsFinished ≤ t.statistics.requestsFinished := by
  cases hm with
  | panic clock _ hc hlost hq ht hi => rw [ht]
  | postponed now started tokenWait desired readyAt sequence rest entry limiter wait phase _ hc hn
      hfrom hlt hd hr he hl ht hafter => rw [ht]
  | concluded wake slot state joined now handledAt consulted lease error observation choice c
      accumulated overrides statistics mode limiter hc hfrom hslot hs hends hcon hfin hfail hret
      hmode hl => exact hfin.ge
  | answered c how op reply statistics results phase hfrom hop hhow hset =>
    exact hset.requestsFinished_le
  | _ => exact le_rfl

theorem limitReached_iff : limitReached opts s = true ↔
    ∃ limit, opts.maxRequestsPerCrawl = some limit ∧ limit ≤ s.statistics.requestsFinished := by
  unfold limitReached
  cases opts.maxRequestsPerCrawl with
  | none => simp
  | some limit => simp

theorem Move.limitReached (hm : Move opts s e t) (h : limitReached opts s = true) :
    limitReached opts t = true := by
  obtain ⟨limit, hlimit, hle⟩ := limitReached_iff.mp h
  exact limitReached_iff.mpr ⟨limit, hlimit, hle.trans hm.requestsFinished_le⟩

/-- Nobody has asked the dispatcher to end: it drains only because it has reached its limit, and
has a result other than an error only when it has returned. -/
structure Unstopped (opts : EngineOptions) (s : State) : Prop where
  cancelled : s.cancelled = false
  drain : s.drain = true → limitReached opts s = true
  draining : s.draining = true → limitReached opts s = true
  outcome : s.phase.outcome = some none → s.phase = .returned none

theorem unstopped_start (statistics : Statistics) (limiter : DomainLimiter) (clock : Instant) :
    Unstopped opts (start opts statistics limiter clock) where
  cancelled := rfl
  drain := by
    intro h
    cases h
  draining := by
    intro h
    cases h
  outcome := by
    intro h
    cases h

theorem step_returned {outcome : Option CrawlError} (h : step opts s e = some t)
    (hp : s.phase = .returned outcome) : t.phase = .returned outcome := by
  cases e with
  | run now tokenWait started =>
    simp only [step, runOn, hp, Option.map_none, ite_self] at h
    cases h
  | woken wake now =>
    simp only [step, hp, ite_self] at h
    cases h
  | cancel | stop | rescale decision | setDelayFloor host floor =>
    cases h
    exact hp
  | renewed i reply | fetched reply readyNow stdNow renewNow | flag value | answered reply
  | completed slot joined now handledAt consulted | handlerDone | joined slot
  | released i reply | abandoned i reply =>
    simp only [step, hp] at h
    cases h

theorem loopTop_steering (hcancelled : s.cancelled = false) :
    ((loopTop opts s).drain = true → s.drain = true ∨ limitReached opts s = true) ∧
      ((loopTop opts s).draining = true →
        s.draining = true ∨ s.drain = true ∨ limitReached opts s = true) ∧
      (loopTop opts s).cancelled = false ∧ (loopTop opts s).phase.outcome = none := by
  have hdrain : (s.drain || !(s.draining || s.drain) && limitReached opts s) = true →
      s.drain = true ∨ limitReached opts s = true := by
    cases s.drain <;> cases limitReached opts s <;> simp
  have hdraining :
      (s.draining || s.drain || !(s.draining || s.drain) && limitReached opts s) = true →
        s.draining = true ∨ s.drain = true ∨ limitReached opts s = true := by
    cases s.drain <;> cases s.draining <;> cases limitReached opts s <;> simp
  simp only [loopTop, hcancelled, Bool.false_eq_true, if_false]
  split_ifs
  · exact ⟨hdrain, hdraining, rfl, rfl⟩
  · exact ⟨hdrain, hdraining, rfl, rfl⟩

theorem Unstopped.step (h : Unstopped opts s) (hs : step opts s e = some t)
    (hcancel : e ≠ .cancel) (hstop : e ≠ .stop) : Unstopped opts t := by
  have hlimit := (step_move hs).limitReached
  cases step_steers hs hcancel hstop with
  | onward hon =>
    obtain hsame | ⟨ho, error, hends⟩ := hon
    · have hcancelled : t.cancelled = s.cancelled := congrArg Steering.cancelled hsame
      have hdrain : t.drain = s.drain := congrArg Steering.drain hsame
      have hdraining : t.draining = s.draining := congrArg Steering.draining hsame
      have houtcome : t.phase.outcome = s.phase.outcome := congrArg Steering.outcome hsame
      refine ⟨hcancelled.trans h.cancelled, fun hd => hlimit (h.drain (hdrain ▸ hd)),
        fun hd => hlimit (h.draining (hdraining ▸ hd)), ?_⟩
      intro hnone
      rw [houtcome] at hnone
      exact step_returned hs (h.outcome hnone)
    · have hcancelled : t.cancelled = s.cancelled := congrArg Steering.cancelled hends
      have hdrain : t.drain = s.drain := congrArg Steering.drain hends
      have hdraining : t.draining = s.draining := congrArg Steering.draining hends
      have houtcome : t.phase.outcome = some (some error) := congrArg Steering.outcome hends
      refine ⟨hcancelled.trans h.cancelled, fun hd => hlimit (h.drain (hdrain ▸ hd)),
        fun hd => hlimit (h.draining (hdraining ▸ hd)), ?_⟩
      intro hnone
      rw [houtcome] at hnone
      cases hnone
  | looped clock hp ht =>
    obtain ⟨hdrain, hdraining, hcancelled, houtcome⟩ := @loopTop_steering opts s h.cancelled
    rw [ht] at hlimit ⊢
    refine ⟨hcancelled, ?_, ?_, ?_⟩
    · intro hd
      obtain hd | hl := hdrain hd
      · exact hlimit (h.drain hd)
      · exact hlimit hl
    · intro hd
      obtain hd | hd | hl := hdraining hd
      · exact hlimit (h.draining hd)
      · exact hlimit (h.drain hd)
      · exact hlimit hl
    · intro hnone
      rw [houtcome] at hnone
      cases hnone
  | woken clock wake ho hwake ht =>
    rw [ht] at hlimit ⊢
    refine ⟨h.cancelled, fun hd => hlimit (h.drain hd), ?_, ?_⟩
    · intro hd
      obtain hd | hd := (Bool.or_eq_true _ _).mp hd
      · exact hlimit (h.draining hd)
      · exact hlimit (h.drain (hwake (beq_iff_eq.mp hd)))
    · intro hnone
      cases hnone
  | drained clock hp hd ht =>
    rw [ht] at hlimit ⊢
    exact ⟨h.cancelled, fun hd => hlimit (h.drain hd), fun hd => hlimit (h.draining hd),
      fun _ => rfl⟩
  | finished wake hp he ht =>
    rw [ht] at hlimit ⊢
    exact ⟨h.cancelled, fun hd => hlimit (h.drain hd), fun hd => hlimit (h.draining hd),
      fun _ => rfl⟩

theorem Unstopped.returns (h : Unstopped opts s) (hs : Engine.step opts s e = some t)
    (hcancel : e ≠ .cancel) (hstop : e ≠ .stop) (hrunning : s.phase ≠ .returned none)
    (hreturns : t.phase = .returned none) :
    limitReached opts s = true ∨
      e = .flag (some true) ∧ ∃ wake, s.phase = .checkingFinished wake := by
  have houtcome : t.phase.outcome = some none := by
    rw [hreturns]
    rfl
  cases step_steers hs hcancel hstop with
  | onward hon =>
    obtain hsame | ⟨ho, error, hends⟩ := hon
    · have hold : t.phase.outcome = s.phase.outcome := congrArg Steering.outcome hsame
      exact absurd (h.outcome (hold.symm.trans houtcome)) hrunning
    · have hnew : t.phase.outcome = some (some error) := congrArg Steering.outcome hends
      rw [houtcome] at hnew
      cases hnew
  | looped clock hp ht =>
    have hnone := (@loopTop_steering opts s h.cancelled).2.2.2
    rw [ht] at houtcome
    exact absurd (hnone.symm.trans houtcome) (Option.some_ne_none _ ∘ Eq.symm)
  | woken clock wake ho hwake ht =>
    rw [ht] at houtcome
    cases houtcome
  | drained clock hp hd ht => exact .inl (h.draining hd)
  | finished wake hp he ht => exact .inr ⟨he, wake, hp⟩

theorem queueCall_markHandled {lease : Lease} {reply : StorageResult QueueReply}
    (h : queueCall s e = some (.markHandled lease, reply)) :
    ∃ c answered, e = .answered answered ∧ s.phase = .completing c ∧
      c.op = some (.markHandled lease) ∧ reply = unitReply answered := by
  cases e with
  | answered answered =>
    simp only [queueCall] at h
    split at h
    · rename_i c hp
      obtain ⟨op, hop, heq⟩ := Option.map_eq_some_iff.mp h
      cases heq
      exact ⟨c, answered, rfl, hp, hop, rfl⟩
    · cases h
  | renewed i reply' =>
    simp only [queueCall] at h
    split at h
    · obtain ⟨entry, -, heq⟩ := Option.map_eq_some_iff.mp h
      cases heq
    · cases h
  | fetched reply' readyNow stdNow renewNow =>
    cases reply' with
    | none => cases h
    | some reply' => cases h
  | flag value =>
    cases value with
    | none => cases h
    | some value =>
      simp only [queueCall] at h
      split at h <;> cases h
  | released i reply' =>
    simp only [queueCall] at h
    split at h
    · obtain ⟨lease', -, heq⟩ := Option.map_eq_some_iff.mp h
      cases heq
    · cases h
  | abandoned i reply' =>
    simp only [queueCall] at h
    split at h
    · obtain ⟨lease', -, heq⟩ := Option.map_eq_some_iff.mp h
      cases heq
    · cases h
  | _ => cases h

theorem step_markHandled (h : step opts s e = some t) {lease : Lease}
    {reply : StorageResult QueueReply}
    (hq : queueCall s e = some (.markHandled lease, reply)) :
    t.log = .called .markHandled lease true :: s.log ∨
      ∃ error, t.phase.outcome = some (some error) := by
  obtain ⟨c, answered, rfl, hp, hop, -⟩ := queueCall_markHandled hq
  simp only [step, hp] at h
  cases c with
  | markFinished lease' total observation =>
    cases hop
    cases answered with
    | ok _ =>
      cases h
      exact .inl rfl
    | error e =>
      cases h
      exact .inr ⟨_, rfl⟩
  | markFailed lease' total errorText status loadedUrl =>
    cases hop
    cases answered with
    | ok _ =>
      cases h
      exact .inl rfl
    | error e =>
      cases h
      exact .inr ⟨_, rfl⟩
  | abandonCancelled lease' | abandonCritical lease' error | reclaiming lease' rotates
  | failedHandler lease' total errorText status loadedUrl => cases hop

end Millipede.Engine

namespace Millipede

namespace LeaseQueue
variable {q q' : LeaseQueue} {expired : List LeaseId} {key : String}
  {call : Option (QueueOp × StorageResult QueueReply)}

theorem Consumes.handled_inv {op : QueueOp} (h : q.Consumes op q')
    (hk : q'.place key = .handled) : q.place key = .handled ∨
      ∃ lease, op = .markHandled lease ∧ q.issued lease.leaseId = some key := by
  obtain ⟨lease, key₀, request, place, hret, hgoes, hlive, -, hplace⟩ := h.inv
  rw [hplace] at hk
  split_ifs at hk with heq
  · subst hk
    right
    cases op with
    | markHandled _ =>
      cases hret
      exact ⟨_, rfl, heq ▸ q.issued_of_leased _ _ _ hlive⟩
    | _ => cases hgoes
  · exact .inl hk

theorem Reacts.handled_inv (h : q.Reacts expired call q') (hk : q'.place key = .handled) :
    q.place key = .handled ∨ ∃ lease reply, call = some (.markHandled lease, reply) ∧
      q.issued lease.leaseId = some key := by
  have hwithdrawn : (q.withdraw expired).place key = .handled → q.place key = .handled :=
    (withdraw_handled expired).mp
  have hconsumed : ∀ {op : QueueOp} (reply : StorageResult QueueReply),
      (q.withdraw expired).Consumes op q' → q.place key = .handled ∨
        ∃ lease reply', some (op, reply) = some (.markHandled lease, reply') ∧
          q.issued lease.leaseId = some key := by
    intro op reply hc
    obtain hold | ⟨lease, rfl, hissued⟩ := hc.handled_inv hk
    · exact .inl (hwithdrawn hold)
    · exact .inr ⟨lease, reply, rfl, hissued⟩
  cases call with
  | none =>
    cases h
    exact .inl hk
  | some call =>
    obtain ⟨op, reply⟩ := call
    change Answers _ op reply q' at h
    cases h with
    | leased lease key₀ bound waiting fresh =>
      rw [place_grant] at hk
      split_ifs at hk with heq
      exact .inl (hwithdrawn hk)
    | consumed _ _ hc => exact hconsumed _ hc
    | refused _ err _ hq =>
      obtain rfl | hc := hq
      · exact .inl (hwithdrawn hk)
      · exact hconsumed _ hc
    | _ => exact .inl (hwithdrawn hk)

theorem place_withdraw_unknown : (q.withdraw expired).place key = .unknown ↔
    q.place key = .unknown := by
  obtain heq | ⟨id, r, -, hp, hp'⟩ := q.place_withdraw expired key
  · rw [heq]
  · simp [hp, hp']

theorem Consumes.unknown_iff {op : QueueOp} (h : q.Consumes op q') :
    q'.place key = .unknown ↔ q.place key = .unknown := by
  obtain ⟨lease, key₀, request, place, -, hgoes, hlive, -, hplace⟩ := h.inv
  rw [hplace]
  split_ifs with heq
  · have hknown : place ≠ .unknown := by
      cases op <;> cases hgoes <;> exact Place.noConfusion
    simp [heq, hlive, hknown]
  · rfl

theorem Reacts.unknown_iff (h : q.Reacts expired call q') :
    q'.place key = .unknown ↔ q.place key = .unknown := by
  have hwithdrawn : (q.withdraw expired).place key = .unknown ↔ q.place key = .unknown :=
    place_withdraw_unknown
  rw [← hwithdrawn]
  cases call with
  | none =>
    have hq : q' = q := h
    rw [hq, hwithdrawn]
  | some call =>
    obtain ⟨op, reply⟩ := call
    change Answers _ op reply q' at h
    cases h with
    | leased lease key₀ bound waiting fresh =>
      rw [place_grant]
      split_ifs with heq
      · simp [heq, waiting]
      · rfl
    | consumed _ _ hc => exact hc.unknown_iff
    | refused _ err _ hq =>
      obtain rfl | hc := hq
      · rfl
      · exact hc.unknown_iff
    | _ => rfl

theorem add_unknown_iff (q : LeaseQueue) (request : Request) :
    (q.add request).place key = .unknown ↔ q.place key = .unknown ∧ key ≠ request.uniqueKey := by
  unfold add
  split_ifs with hnew
  · rw [place_put]
    split_ifs with heq
    · simp [heq]
    · simp [heq]
  · constructor
    · intro hp
      refine ⟨hp, ?_⟩
      rintro rfl
      exact hnew hp
    · exact And.left

end LeaseQueue

namespace System

open Engine

variable {opts : EngineOptions} {u v : System} {ev : SystemEvent} {q₀ : LeaseQueue}

def Undisturbed : SystemEvent → Prop
  | .engine .cancel _ => False
  | .engine .stop _ => False
  | _ => True

def Honest (u : System) : SystemEvent → Prop
  | .engine e expired => queueCall u.engine e = some (.isFinished, .ok (.flag true)) →
    (u.queue.withdraw expired).Finished
  | .add _ => True

abbrev Continues (opts : EngineOptions) : System → SystemEvent → System → Prop :=
  Machine.Guarded (fun u ev => Undisturbed ev ∧ Honest u ev) (Step opts)

/-- What has been handled since the start has been marked, unless the crawl ends with an error. -/
def Counted (q₀ : LeaseQueue) (u : System) : Prop :=
  ∀ key, u.queue.place key = .handled → q₀.place key = .handled ∨ 0 < handledCount u key ∨
    ∃ error, u.engine.phase.outcome = some (some error)

theorem handledCount_step (hl : Linked opts u) (hs : Step opts u ev v) :
    (∀ key, handledCount v key = handledCount u key) ∨
      ∃ key₀, u.queue.place key₀ ≠ .handled ∧
        ∀ key, handledCount v key = handledCount u key + if key = key₀ then 1 else 0 := by
  have hfresh := (hl.step hs).fresh
  cases hs with
  | @dispatched s t q q' e expired hstep hans =>
    have hsame : ∀ key, countFor Effect.handledId q' key s.log = handledCount ⟨s, q⟩ key :=
      countFor_congr hl.issued_of_handled fun id key => hans.issued_some
    have hquiet : ∀ effect, t.log = effect :: s.log → effect.handledId = none →
        ∀ key, handledCount ⟨t, q'⟩ key = handledCount ⟨s, q⟩ key := by
      intro effect hlog hno key
      rw [handledCount, hlog, countFor_cons_none hno, hsame]
    cases (step_move hstep).flow hl.accounted.sound hfresh with
    | kept hq hheld hlog =>
      obtain hlog | ⟨lease, time, hlog⟩ := hlog
      · exact .inl fun key => by rw [handledCount, hlog, hsame]
      · exact .inl (hquiet _ hlog rfl)
    | took lease hq hheld hlog => exact .inl (hquiet _ hlog rfl)
    | renewed lease rest hq hs ht hlog =>
      exact .inl fun key => by rw [handledCount, hlog, hsame]
    | concluded old lease choice c rest hq hp hid hexp hid' hs ht hlog =>
      exact .inl (hquiet _ hlog rfl)
    | gave how op lease reply rest hq hret hhow hfrom hs ht hlog =>
      cases hid : (Effect.called how lease reply.isOk).handledId with
      | none => exact .inl (hquiet _ hlog hid)
      | some id =>
        have hidentified : id = lease.leaseId ∧ reply.isOk = true := by
          cases how <;> cases hok : reply.isOk <;> rw [hok] at hid <;> cases hid
          exact ⟨rfl, rfl⟩
        obtain ⟨rfl, hok⟩ := hidentified
        rw [hq] at hans
        obtain hc | ⟨⟨error, herror⟩, -⟩ := LeaseQueue.Responds.gave hans hhow
        · obtain ⟨lease', key₀, request, place, hret', -, hlive, hissued, -⟩ := hc.inv
          rw [hret] at hret'
          cases hret'
          refine .inr ⟨key₀, ?_, ?_⟩
          · intro hhandled
            rw [← LeaseQueue.withdraw_handled expired, hlive] at hhandled
            cases hhandled
          · have hk : q'.issued lease.leaseId = some key₀ := by
              rw [hissued]
              exact (q.withdraw expired).issued_of_leased _ _ _ hlive
            intro key
            rw [handledCount, hlog, countFor_cons_some hid hk, hsame]
        · cases reply with
          | ok _ => cases herror
          | error _ => cases hok
  | @added s q request =>
    refine .inl (countFor_congr hl.issued_of_handled ?_)
    intro id key hid
    simpa using hid

theorem handledCount_le (hl : Linked opts u) (hs : Step opts u ev v) (key : String) :
    handledCount u key ≤ handledCount v key := by
  obtain hsame | ⟨key₀, -, hmore⟩ := handledCount_step hl hs
  · exact (hsame key).ge
  · exact (hmore key).ge.trans' (Nat.le_add_right ..)

def Untouched (q₀ : LeaseQueue) (u : System) : Prop :=
  ∀ key, q₀.place key = .handled → u.queue.place key = .handled ∧ handledCount u key = 0

theorem Untouched.step (h : Untouched q₀ u) (hl : Linked opts u) (hs : Step opts u ev v) :
    Untouched q₀ v := by
  intro key hk
  obtain ⟨hhandled, hzero⟩ := h key hk
  constructor
  · cases hs with
    | dispatched hstep hans => exact hans.handled hhandled
    | @added s q request =>
      obtain heq | ⟨-, hnew, -⟩ := LeaseQueue.place_add q request key
      · exact heq.trans hhandled
      · exact nomatch hhandled.symm.trans hnew
  · obtain hsame | ⟨key₀, hne, hmore⟩ := handledCount_step hl hs
    · rw [hsame, hzero]
    · have hother : key ≠ key₀ := by
        rintro rfl
        exact hne hhandled
      rw [hmore, hzero, if_neg hother]

theorem error_kept {s t : State} {e : Event} (hs : Engine.step opts s e = some t)
    (hcancel : e ≠ .cancel) (hstop : e ≠ .stop) {error : CrawlError}
    (h : s.phase.outcome = some (some error)) :
    t.phase.outcome = some (some error) := by
  cases step_steers hs hcancel hstop with
  | onward hon =>
    obtain hsame | ⟨ho, -⟩ := hon
    · have hold : t.phase.outcome = s.phase.outcome := congrArg Steering.outcome hsame
      rw [hold, h]
    · rw [ho] at h
      cases h
  | looped clock hp ht =>
    rw [hp] at h
    cases h
  | woken clock wake ho hwake ht =>
    rw [ho] at h
    cases h
  | drained clock hp hd ht =>
    rw [hp] at h
    cases h
  | finished wake hp he ht =>
    rw [hp] at h
    cases h

theorem Counted.step (h : Counted q₀ u) (hl : Linked opts u) (hs : Step opts u ev v)
    (hquiet : Undisturbed ev) : Counted q₀ v := by
  intro key hk
  have hcount := handledCount_le hl hs key
  cases hs with
  | @dispatched s t q q' e expired hstep hans =>
    have hcancel : e ≠ .cancel := by
      rintro rfl
      exact hquiet
    have hstop : e ≠ .stop := by
      rintro rfl
      exact hquiet
    obtain hold | ⟨lease, reply, hcall, hissued⟩ := hans.handled_inv hk
    · obtain hstart | hpos | ⟨error, hends⟩ := h key hold
      · exact .inl hstart
      · exact .inr (.inl (lt_of_lt_of_le hpos hcount))
      · exact .inr (.inr ⟨error, error_kept hstep hcancel hstop hends⟩)
    · obtain hlog | hends := step_markHandled hstep hcall
      · refine .inr (.inl ?_)
        have hid : Effect.handledId (.called .markHandled lease true) = some lease.leaseId := rfl
        rw [handledCount, hlog, countFor_cons_some hid (hans.issued_some hissued), if_pos rfl]
        exact Nat.succ_pos _
      · exact .inr (.inr hends)
  | @added s q request =>
    obtain heq | ⟨-, -, hnew⟩ := LeaseQueue.place_add q request key
    · obtain hstart | hpos | hends := h key (heq.symm.trans hk)
      · exact .inl hstart
      · exact .inr (.inl (lt_of_lt_of_le hpos hcount))
      · exact .inr (.inr hends)
    · rw [hnew] at hk
      cases hk

/-- The books of a crawl that nobody disturbs. -/
structure Concluding (opts : EngineOptions) (q₀ : LeaseQueue) (u : System) : Prop where
  settled : Settled opts u
  unstopped : Unstopped opts u.engine
  counted : Counted q₀ u
  untouched : Untouched q₀ u

theorem concluding_start (statistics : Statistics) (limiter : DomainLimiter) (clock : Instant)
    (q : LeaseQueue) : Concluding opts q ⟨start opts statistics limiter clock, q⟩ where
  settled := settled_start statistics limiter clock q
  unstopped := unstopped_start statistics limiter clock
  counted := fun _ hk => .inl hk
  untouched := fun _ hk => ⟨hk, rfl⟩

theorem Concluding.step (h : Concluding opts q₀ u) (hs : Continues opts u ev v) :
    Concluding opts q₀ v := by
  obtain ⟨⟨hquiet, -⟩, hs⟩ := hs
  refine ⟨h.settled.step hs, ?_, h.counted.step h.settled.linked hs hquiet,
    h.untouched.step h.settled.linked hs⟩
  cases hs with
  | @dispatched s t q q' e expired hstep hans =>
    refine h.unstopped.step hstep ?_ ?_
    · rintro rfl
      exact hquiet
    · rintro rfl
      exact hquiet
  | added request => exact h.unstopped

/-- The requests a crawl is to handle: those its queue knows when it starts and those that are
added while it runs. -/
def Accepted (q₀ : LeaseQueue) (es : List SystemEvent) (key : String) : Prop :=
  q₀.place key ≠ .unknown ∨ ∃ request, .add request ∈ es ∧ request.uniqueKey = key

/-- A queue knows what is accepted and nothing else. -/
theorem known_iff_accepted {es : List SystemEvent} {s : State}
    (run : Machine.Run (Step opts) ⟨s, q₀⟩ es u) (key : String) :
    u.queue.place key ≠ .unknown ↔ Accepted q₀ es key := by
  induction run with
  | nil => exact ⟨.inl, fun h => h.resolve_right fun ⟨_, hmem, _⟩ => nomatch hmem⟩
  | @snoc v w es ev hrun hs ih =>
    have hsplit : Accepted q₀ (es ++ [ev]) key ↔ Accepted q₀ es key ∨
        ∃ request, ev = .add request ∧ request.uniqueKey = key := by
      simp only [Accepted, List.mem_append, List.mem_singleton, or_and_right, exists_or, or_assoc,
        eq_comm]
    rw [hsplit, ← ih]
    cases hs with
    | dispatched hstep hans =>
      rw [Ne, hans.unknown_iff]
      exact ⟨.inl, fun h => h.resolve_right fun ⟨_, heq, _⟩ => nomatch heq⟩
    | @added s q request =>
      rw [Ne, LeaseQueue.add_unknown_iff, not_and_or, not_not]
      simp [eq_comm]

/-- The loop ends without an error when the limit is reached or the queue says it is finished. -/
theorem Concluding.ends (h : Concluding opts q₀ u) (last : Continues opts u ev v)
    (running : u.engine.phase ≠ .returned none) (returned : v.engine.phase = .returned none) :
    (∃ limit, opts.maxRequestsPerCrawl = some limit ∧
      limit ≤ v.engine.statistics.requestsFinished) ∨ v.queue.Finished := by
  obtain ⟨⟨hquiet, hhonest⟩, hs⟩ := last
  cases hs with
  | @dispatched s t q q' e expired hstep hans =>
    have hcancel : e ≠ .cancel := by
      rintro rfl
      exact hquiet
    have hstop : e ≠ .stop := by
      rintro rfl
      exact hquiet
    obtain hlimit | ⟨rfl, wake, hp⟩ := h.unstopped.returns hstep hcancel hstop running returned
    · exact .inl (limitReached_iff.mp ((step_move hstep).limitReached hlimit))
    · right
      have hcall : queueCall s (.flag (some true)) = some (.isFinished, .ok (.flag true)) := by
        simp only at hp
        simp only [queueCall, hp]
      have hfinished : (q.withdraw expired).Finished := hhonest hcall
      rw [hcall] at hans
      have hq : q' = q.withdraw expired := LeaseQueue.Responds.harmless hans trivial
      rw [← hq] at hfinished
      exact hfinished
  | added request => exact absurd returned running

theorem Concluding.counts (h : Concluding opts q₀ u) (finished : u.queue.Finished)
    (returned : u.engine.phase = .returned none) (key : String) :
    handledCount u key ≤ 1 ∧
      (handledCount u key = 1 ↔ u.queue.place key ≠ .unknown ∧ q₀.place key ≠ .handled) := by
  obtain ⟨hle, hhandled⟩ := h.settled.once key
  refine ⟨hle, ?_⟩
  constructor
  · intro hone
    constructor
    · intro hunknown
      exact nomatch (hhandled (hone ▸ Nat.one_pos)).symm.trans hunknown
    · intro hstart
      have hzero := (h.untouched key hstart).2
      omega
  · rintro ⟨hknown, hnew⟩
    obtain hstart | hpos | ⟨error, hends⟩ := h.counted key ((finished key).resolve_left hknown)
    · exact absurd hstart hnew
    · exact le_antisymm hle hpos
    · rw [returned] at hends
      cases hends

/-- A crawl that nobody disturbs and that ends without an error has reached its limit or has
handled every request there was, those of this crawl exactly once; and it holds no lease. -/
theorem crawl_completes (statistics : Statistics) (limiter : DomainLimiter) (clock : Instant)
    {es : List SystemEvent}
    (run : Machine.Run (Continues opts) ⟨start opts statistics limiter clock, q₀⟩ es u)
    (last : Continues opts u ev v) (running : u.engine.phase ≠ .returned none)
    (returned : v.engine.phase = .returned none) :
    held v.engine = [] ∧
      ((∃ limit, opts.maxRequestsPerCrawl = some limit ∧
          limit ≤ v.engine.statistics.requestsFinished) ∨
        v.queue.Finished ∧ ∀ key,
          (v.queue.place key = .handled ↔ Accepted q₀ (es ++ [ev]) key) ∧ handledCount v key ≤ 1 ∧
          (handledCount v key = 1 ↔
            Accepted q₀ (es ++ [ev]) key ∧ q₀.place key ≠ .handled)) := by
  have hrun : Machine.Run (Step opts) ⟨start opts statistics limiter clock, q₀⟩ (es ++ [ev]) v :=
    (run.snoc last).mono fun _ _ _ h => h.2
  have hu : Concluding opts q₀ u :=
    Machine.run_invariant (fun _ _ _ h hs => h.step hs) run
      (concluding_start statistics limiter clock q₀)
  have hv := hu.step last
  refine ⟨hv.settled.linked.accounted.sound.held_returned returned, ?_⟩
  refine (hu.ends last running returned).imp_right ?_
  intro hfinished
  refine ⟨hfinished, ?_⟩
  intro key
  rw [← known_iff_accepted hrun key]
  refine ⟨⟨?_, (hfinished key).resolve_left⟩, hv.counts hfinished returned key⟩
  intro hhandled hunknown
  exact nomatch hhandled.symm.trans hunknown

def handledKeys (u : System) : List String :=
  u.engine.log.filterMap fun effect => effect.handledId.bind u.queue.issued

theorem count_handledKeys (u : System) (key : String) :
    (handledKeys u).count key = handledCount u key := by
  rw [handledKeys, List.count_filterMap, handledCount, countFor]
  congr 1
  funext effect
  cases effect.handledId with
  | none => rfl
  | some id => rfl

theorem length_handledKeys (hl : Linked opts u) :
    (handledKeys u).length = u.engine.log.countP Effect.isHandled := by
  rw [handledKeys, List.length_filterMap_eq_countP]
  apply List.countP_congr
  intro effect hmem
  rw [Effect.isHandled]
  cases hid : effect.handledId with
  | none => rfl
  | some id =>
    have hissued := hl.issued_of_handled effect hmem id hid
    simp [hissued]

theorem tallied_of_run {statistics : Statistics} {limiter : DomainLimiter} {clock : Instant}
    {es : List SystemEvent}
    (run : Machine.Run (Step opts) ⟨start opts statistics limiter clock, q₀⟩ es u) :
    Tallied statistics u.engine := by
  have keep : ∀ s ev t, Tallied statistics s.engine → Step opts s ev t →
      Tallied statistics t.engine := by
    intro s ev t h hs
    cases hs with
    | dispatched hstep hans => exact h.move (step_move hstep)
    | added request => exact h
  exact Machine.run_invariant keep run ⟨rfl, rfl, rfl⟩

-- The crawl of one page asks once more, finds nothing and ends.
def onePage : LeaseQueue := waiting [pageRequest]

def beforeIdle : State :=
  ((ticks 5 4).foldlM (silentStep singleSlot) afterAnswer).getD afterAnswer

def afterIdle : State := { beforeIdle with clock := 5, phase := .settling }

def beforeFlag : State :=
  ((ticks 5 1).foldlM (silentStep singleSlot) afterIdle).getD afterIdle

def finishingEvents : List SystemEvent :=
  (ticks 5 4).map quietly ++ [quietly (.fetched (some (.ok none)) 5 5 5)] ++
    (ticks 5 1).map quietly

theorem honest_of_call {e : Event} {expired : List LeaseId}
    (h : ∀ s, queueCall s e ≠ some (.isFinished, .ok (.flag true))) (u : System) :
    Honest u (.engine e expired) :=
  fun hcall => absurd hcall (h u.engine)

theorem continues_of_quiet {es : List SystemEvent} {s t : State} {q q' : LeaseQueue}
    (run : Machine.Run (Step singleSlot) ⟨s, q⟩ es ⟨t, q'⟩)
    (h : ∀ ev ∈ es, Undisturbed ev ∧ ∀ u, Honest u ev) :
    Machine.Run (Continues singleSlot) ⟨s, q⟩ es ⟨t, q'⟩ :=
  run.guarded fun ev hev u => ⟨(h ev hev).1, (h ev hev).2 u⟩

theorem honest_tick (now : Instant) :
    Undisturbed (quietly (.run now none now)) ∧ ∀ u, Honest u (quietly (.run now none now)) := by
  refine ⟨trivial, honest_of_call ?_⟩
  intro s hcall
  cases hcall

theorem honest_ticks {now : Instant} {n : ℕ} {ev : SystemEvent}
    (h : ev ∈ (ticks now n).map quietly) : Undisturbed ev ∧ ∀ u, Honest u ev := by
  obtain ⟨e, he, rfl⟩ := List.mem_map.mp h
  rw [List.eq_of_mem_replicate he]
  exact honest_tick now

theorem honest_crawlEvents {ev : SystemEvent} (h : ev ∈ crawlEvents) :
    Undisturbed ev ∧ ∀ u, Honest u ev := by
  simp only [crawlEvents, List.map_append, List.mem_append, List.mem_singleton, List.map_cons,
    List.map_nil] at h
  obtain ((h | rfl) | h | rfl) | rfl := h
  · exact honest_ticks h
  · refine ⟨trivial, honest_of_call ?_⟩
    intro s hcall
    cases hcall
  · exact honest_ticks h
  · refine ⟨trivial, honest_of_call ?_⟩
    intro s hcall
    cases hcall
  · refine ⟨trivial, honest_of_call ?_⟩
    intro s hcall
    simp only [queueCall] at hcall
    split at hcall
    · obtain ⟨op, hop, heq⟩ := Option.map_eq_some_iff.mp hcall
      cases heq
    · cases hcall

theorem run_finishingEvents (q : LeaseQueue) :
    Machine.Run (Continues singleSlot) ⟨afterAnswer, q⟩ finishingEvents ⟨beforeFlag, q⟩ := by
  have hpump := continues_of_quiet (run_silent q
    (rfl : (ticks 5 4).foldlM (silentStep singleSlot) afterAnswer = some beforeIdle))
    fun ev => honest_ticks
  have hsettle := continues_of_quiet (run_silent q
    (rfl : (ticks 5 1).foldlM (silentStep singleSlot) afterIdle = some beforeFlag))
    fun ev => honest_ticks
  have hidle : Continues singleSlot ⟨beforeIdle, q⟩
      (quietly (.fetched (some (.ok none)) 5 5 5)) ⟨afterIdle, q⟩ := by
    refine ⟨⟨trivial, ?_⟩, .dispatched rfl ?_⟩
    · intro hcall
      cases hcall
    · have hanswers : (q.withdraw []).Answers .fetchNext (.ok (.leased none)) (q.withdraw []) :=
        .idle
      have hcall : queueCall beforeIdle (.fetched (some (.ok none)) 5 5 5) =
          some (.fetchNext, .ok (.leased none)) := rfl
      rw [hcall, LeaseQueue.Reacts, LeaseQueue.Responds]
      rw [LeaseQueue.withdraw_nil] at hanswers ⊢
      exact hanswers
  exact (hpump.snoc hidle).append hsettle

theorem crawl_completes_onePage : ∃ t q,
    Machine.Run (Step singleSlot) ⟨start singleSlot {} ∅ 0, onePage⟩
      (crawlEvents ++ finishingEvents ++ [quietly (.flag (some true))]) ⟨t, q⟩ ∧
      held t = [] ∧ q.place "data:," = .handled ∧ handledCount ⟨t, q⟩ "data:," = 1 := by
  obtain ⟨q, hcrawl, hplace, -⟩ := run_crawlEvents
  have hfinished : q.Finished := by
    intro key
    by_cases hkey : key = "data:,"
    · exact .inr (hkey ▸ hplace)
    · left
      by_contra hknown
      obtain hstart | ⟨request, hmem, -⟩ := (known_iff_accepted hcrawl key).mp hknown
      · apply hstart
        have hne : pageRequest.uniqueKey ≠ key := Ne.symm hkey
        simp [waiting, hne]
      · simp [crawlEvents, quietly, ticks] at hmem
  have hrun := (continues_of_quiet hcrawl fun ev => honest_crawlEvents).append
    (run_finishingEvents q)
  have hlast : Continues singleSlot ⟨beforeFlag, q⟩ (quietly (.flag (some true)))
      ⟨{ beforeFlag with phase := .returned none }, q⟩ := by
    have hcall : queueCall beforeFlag (.flag (some true)) =
        some (.isFinished, .ok (.flag true)) := rfl
    refine ⟨⟨trivial, ?_⟩, .dispatched rfl ?_⟩
    · intro _
      rw [LeaseQueue.withdraw_nil]
      exact hfinished
    · have hanswers : (q.withdraw []).Answers .isFinished (.ok (.flag true)) (q.withdraw []) :=
        .finished true
      rw [hcall, LeaseQueue.Reacts, LeaseQueue.Responds]
      rw [LeaseQueue.withdraw_nil] at hanswers ⊢
      exact hanswers
  obtain ⟨hheld, hlimit | ⟨-, hall⟩⟩ := crawl_completes {} ∅ 0 hrun hlast Phase.noConfusion rfl
  · obtain ⟨limit, hnone, -⟩ := hlimit
    cases hnone
  · have haccepted := ((hall "data:,").1).mp hplace
    have hnew : onePage.place "data:," ≠ .handled := by
      have hpending : onePage.place "data:," = .pending pageRequest := by
        simp [onePage, waiting, pageRequest, Request.get]
      rw [hpending]
      exact Place.noConfusion
    exact ⟨_, q, (hrun.snoc hlast).mono fun _ _ _ h => h.2, hheld, hplace,
      (hall "data:,").2.2.mpr ⟨haccepted, hnew⟩⟩

end System

end Millipede
