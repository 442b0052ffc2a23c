import Millipede.Crawler.System

/-!
# What a crawl counts

The counters of a run against its log: the limit on finished requests is reserved before
a lease is fetched, and every terminal record stands for one successful `mark_handled`.
-/

namespace Millipede.Engine

variable {opts : EngineOptions} {s t : State} {e : Event}

def pendingSuccess : Phase → ℕ
  | .completing (.markFinished _ _ _) => 1
  | _ => 0

/-- What is finished, running, deferred or about to be recorded fits into the limit. -/
structure Reserved (limit : ℕ) (s : State) : Prop where
  total : s.statistics.requestsFinished + s.inFlight.length + s.deferredEntries.len +
    pendingSuccess s.phase ≤ limit
  room : ∀ desired, s.phase = .fetching desired →
    s.statistics.requestsFinished + s.inFlight.length + s.deferredEntries.len < limit

variable {limit : ℕ}

theorem Fetchable.room_left (hlimit : opts.maxRequestsPerCrawl = some limit) {desired : ℕ}
    (h : Fetchable opts s desired) :
    s.statistics.requestsFinished + s.inFlight.length + s.deferredEntries.len < limit := by
  have hl := h.limit
  simp only [requestLimitReserved, hlimit, decide_eq_false_iff_not, not_le] at hl
  exact hl

theorem Reserved.phaseMove (h : Reserved limit s) (hlimit : opts.maxRequestsPerCrawl = some limit)
    {phase : Phase} (hm : PhaseMove opts s phase) :
    pendingSuccess phase ≤ pendingSuccess s.phase ∧ ∀ desired, phase = .fetching desired →
      s.statistics.requestsFinished + s.inFlight.length + s.deferredEntries.len < limit := by
  cases hm with
  | stay => exact ⟨le_rfl, h.room⟩
  | fetch desired hfrom hf => exact ⟨Nat.zero_le _, fun _ _ => hf.room_left hlimit⟩
  | _ => exact ⟨Nat.zero_le _, fun _ hp => nomatch hp⟩

theorem Reserved.move (h : Reserved limit s) (hlimit : opts.maxRequestsPerCrawl = some limit)
    (hm : Move opts s e t) : Reserved limit t := by
  have htotal := h.total
  cases hm with
  | quiet clock cancelled drain draining mode limiter phase hc hmode hl hphase hq =>
    obtain ⟨hle, hroom⟩ := h.phaseMove hlimit hphase
    exact ⟨by simp only; omega, hroom⟩
  | panic clock _ hc hlost hq ht hi =>
    rw [ht]
    exact ⟨by simp only [pendingSuccess]; omega, fun _ hp => (by cases hp)⟩
  | gather clock drain draining next hc hfrom hq =>
    refine ⟨?_, fun _ hp => (by cases hp)⟩
    simp only [beginAbandon, pendingSuccess]
    have hempty : AList.len (∅ : HashMap ℕ DeferredStart) = 0 := rfl
    omega
  | release clock outcome hc hfrom hi hq =>
    exact ⟨by simp only [pendingSuccess]; omega, fun _ hp => (by cases hp)⟩
  | renewed due i sequence entry hfrom hi he hq =>
    have hlen := AList.len_insert_present entry.extended he
    exact ⟨by simp only [pendingSuccess]; omega, fun _ hp => (by cases hp)⟩
  | postponed now started tokenWait desired readyAt sequence rest entry limiter wait phase _ hc hn
      hfrom hlt hd hr he hl ht hafter =>
    have hlen := AList.len_erase he
    have hnew := AList.len_insert_new { entry with domainReserved := true }
      (AList.lookup_erase sequence s.deferredEntries)
    rw [ht] at hafter ⊢
    cases hafter with
    | again => exact ⟨by simp only [pendingSuccess]; omega, fun _ hp => (by cases hp)⟩
    | settle => exact ⟨by simp only [pendingSuccess]; omega, fun _ hp => (by cases hp)⟩
    | fetch hf =>
      exact ⟨by simp only [pendingSuccess]; omega, fun _ _ => hf.room_left hlimit⟩
  | started now started desired readyAt sequence rest entry limiter hc hn hfrom hlt hd
      hr he hl =>
    have hlen := AList.len_erase he
    refine ⟨?_, fun _ hp => (by cases hfrom.symm.trans hp)⟩
    simp only [List.length_append, List.length_singleton, hfrom, pendingSuccess] at htotal ⊢
    omega
  | fetched desired lease readyNow stdNow renewNow overrides carried readyAt renewAt h₁ h₂ h₃ hfrom
      hr hw =>
    have hroom := h.room desired hfrom
    have hlen := AList.len_insert_le s.deferredEntries s.nextDeferred
      { lease, carried, domainReserved := false, renewAt }
    exact ⟨by simp only [pendingSuccess]; omega, fun _ hp => (by cases hp)⟩
  | cancelledAttempt wake slot state now handledAt consulted hc hfrom hslot hs =>
    have hlen := List.length_erase_of_mem hslot
    exact ⟨by simp only [pendingSuccess]; omega, fun _ hp => (by cases hp)⟩
  | concluded wake slot state joined now handledAt consulted lease error observation choice c
      accumulated overrides statistics mode limiter hc hfrom hslot hs hends hcon hfin hfail hret
      hmode hl =>
    have hlen := List.length_erase_of_mem hslot
    have hpos := List.length_pos_of_mem hslot
    have hpending : pendingSuccess (.completing c) ≤ 1 := by
      cases c <;> simp [pendingSuccess]
    exact ⟨by simp only; omega, fun _ hp => (by cases hp)⟩
  | answered c how op reply statistics results phase hfrom hop hhow hset =>
    rw [hfrom] at htotal
    cases hset with
    | finished lease total observation handled =>
      refine ⟨?_, fun _ hp => (by cases hp)⟩
      simp only [Statistics.requestsFinished_recordFinished, pendingSuccess] at htotal ⊢
      omega
    | failed lease total errorText status loadedUrl handled =>
      refine ⟨?_, fun _ hp => (by cases hp)⟩
      simp only [Statistics.requestsFinished_recordFailed, pendingSuccess] at htotal ⊢
      omega
    | _ => exact ⟨by simp only [pendingSuccess]; omega, fun _ hp => (by cases hp)⟩
  | joined slot outcome hfrom hslot =>
    have hlen := List.length_erase_of_mem hslot
    refine ⟨by simp only; omega, ?_⟩
    intro desired hp
    cases hfrom.symm.trans hp
  | dropped rest i lease reply phase hi hfrom hq =>
    obtain ⟨outcome, -, rfl⟩ | ⟨next, -, rfl⟩ := hfrom
    · exact ⟨by simp only [pendingSuccess]; omega, fun _ hp => (by cases hp)⟩
    · exact ⟨by simp only [pendingSuccess]; omega, fun _ hp => (by cases hp)⟩

/-- With a limit set, what is finished, running and deferred never exceeds it, in any state
of any run. -/
theorem success_limit (hlimit : opts.maxRequestsPerCrawl = some limit) {statistics : Statistics}
    (hstart : statistics.requestsFinished ≤ limit) (limiter : DomainLimiter) (clock : Instant)
    {es : List Event}
    (run : Machine.Run (Machine.Computes (step opts)) (start opts statistics limiter clock) es t) :
    t.statistics.requestsFinished + t.inFlight.length + t.deferredEntries.len ≤ limit ∧
      t.statistics.requestsFinished ≤ limit := by
  have hinit : Reserved limit (start opts statistics limiter clock) :=
    ⟨hstart, fun _ hp => nomatch hp⟩
  have h : Reserved limit t :=
    Machine.run_invariant (fun _ _ _ h hstep => h.move hlimit (step_move hstep)) run hinit
  have htotal := h.total
  omega

def singleRequest : EngineOptions := { singleSlot with maxRequestsPerCrawl := some 1 }

theorem success_limit_finishedAttempt :
    ∃ t, Machine.Run (Machine.Computes (step singleRequest)) (start singleRequest {} ∅ 0)
        (finishedCrawl.take 10) t ∧
      t.statistics.requestsFinished = 1 ∧
      t.statistics.requestsFinished + t.inFlight.length + t.deferredEntries.len ≤ 1 := by
  have hrun : ∃ t, (finishedCrawl.take 10).foldlM (step singleRequest)
      (start singleRequest {} ∅ 0) = some t ∧ t.statistics.requestsFinished = 1 := ⟨_, rfl, rfl⟩
  obtain ⟨t, ht, hone⟩ := hrun
  have hrun := Machine.run_of_foldlM ht
  exact ⟨t, hrun, hone, (success_limit rfl (Nat.zero_le 1) ∅ 0 hrun).1⟩

def Effect.handledId : Effect → Option LeaseId
  | .called .markHandled lease true => some lease.leaseId
  | _ => none

def Effect.isHandled (effect : Effect) : Bool := effect.handledId.isSome

def Effect.isRetry : Effect → Bool
  | .decided _ (.retried _) => true
  | _ => false

/-- The counters against the log, from the statistics a run starts with. -/
structure Tallied (base : Statistics) (s : State) : Prop where
  terminal : s.statistics.requestsFinished + s.statistics.requestsFailed =
    base.requestsFinished + base.requestsFailed + s.log.countP Effect.isHandled
  offered : s.results.length = s.log.countP Effect.isHandled
  retries : s.statistics.requestsRetries = base.requestsRetries + s.log.countP Effect.isRetry

theorem Tallied.logged {base : Statistics} (h : Tallied base s) {effect : Effect}
    (hh : effect.isHandled = false) (hr : effect.isRetry = false)
    (hstat : t.statistics = s.statistics) (hres : t.results = s.results)
    (hlog : t.log = effect :: s.log) : Tallied base t := by
  have hhandled : t.log.countP Effect.isHandled = s.log.countP Effect.isHandled := by
    rw [hlog, List.countP_cons_of_neg (by simp [hh])]
  have hretry : t.log.countP Effect.isRetry = s.log.countP Effect.isRetry := by
    rw [hlog, List.countP_cons_of_neg (by simp [hr])]
  exact ⟨by rw [hstat, hhandled, h.terminal], by rw [hres, hhandled, h.offered],
    by rw [hstat, hretry, h.retries]⟩

theorem countP_isRetry_decided (lease : Lease) (choice : Choice) (log : List Effect) :
    (Effect.decided lease choice :: log).countP Effect.isRetry =
      log.countP Effect.isRetry + choice.retries := by
  cases choice with
  | retried rotates => exact List.countP_cons_of_pos rfl
  | _ => exact List.countP_cons_of_neg (by simp [Effect.isRetry])

/-- A terminal record is made when and only when `mark_handled` has succeeded. -/
theorem Settles.recorded {c : Completing} {reply : StorageResult Unit} {statistics : Statistics}
    {results : List HandledRequest} {phase : Phase} {op : QueueOp} {how : ConsumingCall}
    (hset : Settles s c reply statistics results phase) (hop : c.op = some op)
    (hhow : callKind op = some how) :
    (statistics = s.statistics ∧ results = s.results ∧
        Effect.isHandled (.called how c.lease reply.isOk) = false) ∨
      (statistics.requestsFinished + statistics.requestsFailed =
          s.statistics.requestsFinished + s.statistics.requestsFailed + 1 ∧
        statistics.requestsRetries = s.statistics.requestsRetries ∧
        results.length = s.results.length + 1 ∧
        Effect.isHandled (.called how c.lease reply.isOk) = true) := by
  cases hset with
  | finished lease total observation handled =>
    cases hop
    cases hhow
    refine .inr ⟨?_, by simp, by simp, rfl⟩
    simp only [Statistics.requestsFinished_recordFinished,
      Statistics.requestsFailed_recordFinished]
    omega
  | failed lease total errorText status loadedUrl handled =>
    cases hop
    cases hhow
    exact .inr ⟨rfl, rfl, by simp, rfl⟩
  | refused c e outcome =>
    refine .inl ⟨rfl, rfl, ?_⟩
    cases how <;> rfl
  | _ =>
    cases hop
    cases hhow
    exact .inl ⟨rfl, rfl, rfl⟩

theorem Tallied.move {base : Statistics} (h : Tallied base s) (hm : Move opts s e t) :
    Tallied base t := by
  cases hm with
  | panic clock _ hc hlost hq ht hi =>
    rw [ht]
    exact ⟨h.terminal, h.offered, h.retries⟩
  | postponed now started tokenWait desired readyAt sequence rest entry limiter wait phase _ hc hn
      hfrom hlt hd hr he hl ht hafter =>
    rw [ht]
    exact ⟨h.terminal, h.offered, h.retries⟩
  | started => exact h.logged rfl rfl rfl rfl rfl
  | fetched => exact h.logged rfl rfl rfl rfl rfl
  | dropped => exact h.logged rfl rfl rfl rfl rfl
  | concluded wake slot state joined now handledAt consulted lease error observation choice c
      accumulated overrides statistics mode limiter hc hfrom hslot hs hends hcon hfin hfail hret
      hmode hl =>
    have hhandled : (Effect.decided lease choice :: s.log).countP Effect.isHandled =
        s.log.countP Effect.isHandled :=
          List.countP_cons_of_neg (by simp [Effect.isHandled, Effect.handledId])
    have hretry := countP_isRetry_decided lease choice s.log
    have hold := h.retries
    exact ⟨by rw [hhandled, ← h.terminal, hfin, hfail], by rw [hhandled, h.offered],
      by rw [hretry, hret]; omega⟩
  | answered c how op reply statistics results phase hfrom hop hhow hset =>
    have hretry : (Effect.called how c.lease reply.isOk :: s.log).countP Effect.isRetry =
        s.log.countP Effect.isRetry := List.countP_cons_of_neg (by simp [Effect.isRetry])
    obtain ⟨hstat, hres, hno⟩ | ⟨hsum, hret, hlen, hyes⟩ := hset.recorded hop hhow
    · exact h.logged hno rfl hstat hres rfl
    · have hhandled : (Effect.called how c.lease reply.isOk :: s.log).countP Effect.isHandled =
          s.log.countP Effect.isHandled + 1 := List.countP_cons_of_pos hyes
      have hterm := h.terminal
      have hoff := h.offered
      exact ⟨by simp only [hhandled]; omega, by simp only [hhandled]; omega,
        by simp only [hretry, hret, h.retries]⟩
  | _ => exact ⟨h.terminal, h.offered, h.retries⟩

theorem call_unique {log : List Effect} (h : (consumedIds log).Nodup)
    {how how' : ConsumingCall} {lease lease' : Lease} {ok ok' : Bool}
    (hm : .called how lease ok ∈ log) (hm' : .called how' lease' ok' ∈ log)
    (hid : lease.leaseId = lease'.leaseId) : how = how' := by
  by_contra hne
  have hpair := List.pairwise_filterMap.mp h
  have hdiff : Effect.called how lease ok ≠ .called how' lease' ok' := by
    intro heq
    cases heq
    exact hne rfl
  have hsymm : Std.Symm fun a a' : Effect => ∀ b, a.consumedId = some b →
      ∀ b', a'.consumedId = some b' → b ≠ b' := ⟨fun _ _ hr x hx y hy => (hr y hy x hx).symm⟩
  exact hpair.forall hm hm' hdiff lease.leaseId rfl lease'.leaseId rfl hid

def CriticalAbandoned (s : State) : Prop :=
  ∀ lease, .decided lease .critical ∈ s.log →
    (∃ lease' error, s.phase = .completing (.abandonCritical lease' error) ∧
        lease'.leaseId = lease.leaseId) ∨
      ∃ lease' ok, .called .abandon lease' ok ∈ s.log ∧ lease'.leaseId = lease.leaseId

theorem CriticalAbandoned.kept (h : CriticalAbandoned s)
    (hlog : ∃ effects, t.log = effects ++ s.log)
    (hnew : ∀ lease, .decided lease .critical ∈ t.log → .decided lease .critical ∈ s.log)
    (hphase : ∀ lease error, s.phase = .completing (.abandonCritical lease error) →
      t.phase = .completing (.abandonCritical lease error)) : CriticalAbandoned t := by
  obtain ⟨effects, hlog⟩ := hlog
  intro lease hm
  obtain ⟨lease', error, hp, hid⟩ | ⟨lease', ok, hcall, hid⟩ := h lease (hnew lease hm)
  · exact .inl ⟨lease', error, hphase lease' error hp, hid⟩
  · exact .inr ⟨lease', ok, by rw [hlog]; exact List.mem_append_right _ hcall, hid⟩

theorem CriticalAbandoned.move (h : CriticalAbandoned s) (hm : Move opts s e t) :
    CriticalAbandoned t := by
  have hstay : t.log = s.log →
      (∀ lease error, s.phase = .completing (.abandonCritical lease error) → t.phase = s.phase) →
      CriticalAbandoned t := by
    intro hlog hphase
    refine h.kept ⟨[], by simpa using hlog⟩ (fun lease hm => by rwa [hlog] at hm) ?_
    intro lease error hp
    rw [hphase lease error hp, hp]
  have hgrow : ∀ effect : Effect, t.log = effect :: s.log →
      (∀ lease, effect ≠ .decided lease .critical) →
      (∀ lease error, s.phase = .completing (.abandonCritical lease error) → t.phase = s.phase) →
      CriticalAbandoned t := by
    intro effect hlog hne hphase
    refine h.kept ⟨[effect], by simpa using hlog⟩ ?_ ?_
    · intro lease hm
      rw [hlog] at hm
      obtain heq | hm := List.mem_cons.mp hm
      · exact absurd heq.symm (hne lease)
      · exact hm
    · intro lease error hp
      rw [hphase lease error hp, hp]
  cases hm with
  | quiet clock cancelled drain draining mode limiter phase hc hmode hl hphase hq =>
    refine hstay rfl fun lease error hp => ?_
    have hleft := hphase
    cases hleft with
    | stay => rfl
    | _ => simp_all
  | panic clock _ hc hlost hq ht hi =>
    refine hstay (by rw [ht]) fun lease error hp => ?_
    simp [hp] at hlost
  | gather clock drain draining next hc hfrom hq =>
    exact hstay rfl fun lease error hp => by simp [hp] at hfrom
  | release clock outcome hc hfrom hi hq =>
    exact hstay rfl fun lease error hp => nomatch hfrom.symm.trans hp
  | renewed due i sequence entry hfrom hi he hq =>
    exact hstay rfl fun lease error hp => nomatch hfrom.symm.trans hp
  | postponed now started tokenWait desired readyAt sequence rest entry limiter wait phase _ hc hn
      hfrom hlt hd hr he hl ht hafter =>
    exact hstay (by rw [ht]) fun lease error hp => nomatch hfrom.symm.trans hp
  | started now started desired readyAt sequence rest entry limiter hc hn hfrom hlt hd
      hr he hl =>
    exact hgrow _ rfl (fun _ heq => nomatch heq) fun lease error hp => nomatch hfrom.symm.trans hp
  | fetched desired lease readyNow stdNow renewNow overrides carried readyAt renewAt h₁ h₂ h₃ hfrom
      hr hw =>
    exact hgrow _ rfl (fun _ heq => nomatch heq) fun lease error hp => nomatch hfrom.symm.trans hp
  | cancelledAttempt wake slot state now handledAt consulted hc hfrom hslot hs =>
    exact hstay rfl fun lease error hp => nomatch hfrom.symm.trans hp
  | concluded wake slot state joined now handledAt consulted lease error observation choice c
      accumulated overrides statistics mode limiter hc hfrom hslot hs hends hcon hfin hfail hret
      hmode hl =>
    by_cases hcrit : choice = .critical
    · subst hcrit
      intro other hm
      obtain heq | hm := List.mem_cons.mp hm
      · cases heq
        cases hcon with
        | critical error hc => exact .inl ⟨_, error, rfl, rfl⟩
      · obtain ⟨lease', error, hp, -⟩ | ⟨lease', ok, hcall, hid⟩ := h other hm
        · exact nomatch hfrom.symm.trans hp
        · exact .inr ⟨lease', ok, List.mem_cons_of_mem _ hcall, hid⟩
    · refine hgrow _ rfl (fun _ heq => ?_) fun lease error hp => nomatch hfrom.symm.trans hp
      cases heq
      exact hcrit rfl
  | answered c how op reply statistics results phase hfrom hop hhow hset =>
    intro lease hm
    obtain heq | hm := List.mem_cons.mp hm
    · cases heq
    · obtain ⟨lease', error, hp, hid⟩ | ⟨lease', ok, hcall, hid⟩ := h lease hm
      · have hc : c = .abandonCritical lease' error := by
          rw [hfrom] at hp
          cases hp
          rfl
        subst hc
        cases hop
        cases hhow
        exact .inr ⟨lease', reply.isOk, List.mem_cons_self, hid⟩
      · exact .inr ⟨lease', ok, List.mem_cons_of_mem _ hcall, hid⟩
  | joined slot outcome hfrom hslot =>
    exact hstay rfl fun lease error hp => nomatch hfrom.symm.trans hp
  | dropped rest i lease reply phase hi hfrom hq =>
    exact hgrow _ rfl (fun _ heq => nomatch heq) fun lease error hp => by simp [hp] at hfrom

end Millipede.Engine

namespace Millipede.System

open Engine

variable {opts : EngineOptions} {u v : System} {ev : SystemEvent}

/-- The successful `mark_handled` calls for the request of a key. -/
def handledCount (u : System) (key : String) : ℕ :=
  countFor Effect.handledId u.queue key u.engine.log

/-- No request is counted twice, and one that is counted is handled. -/
def Once (u : System) : Prop :=
  ∀ key, handledCount u key ≤ 1 ∧ (0 < handledCount u key → u.queue.place key = .handled)

theorem Once.quiet (h : Once u) {t : State} {q' : LeaseQueue}
    (hcount : ∀ key, countFor Effect.handledId q' key t.log = handledCount u key)
    (hplace : ∀ key, u.queue.place key = .handled → q'.place key = .handled) : Once ⟨t, q'⟩ := by
  intro key
  rw [handledCount, hcount key]
  exact ⟨(h key).1, fun hpos => hplace key ((h key).2 hpos)⟩

theorem Linked.issued_of_handled (h : Linked opts u) :
    ∀ effect ∈ u.engine.log, ∀ id, effect.handledId = some id → (u.queue.issued id).isSome := by
  intro effect hmem id hid
  apply h.issued_of_consumed
  refine List.mem_filterMap.mpr ⟨effect, hmem, ?_⟩
  cases effect with
  | called how lease ok =>
    cases how <;> cases ok <;> cases hid
    rfl
  | _ => cases hid

theorem Once.consumed (h : Once u) {t : State} {q' : LeaseQueue} {lease : Lease}
    {expired : List LeaseId}
    (hc : LeaseQueue.Consumes (u.queue.withdraw expired) (.markHandled lease) q')
    (hlog : t.log = .called .markHandled lease true :: u.engine.log) : Once ⟨t, q'⟩ := by
  obtain ⟨_, key₀, request, place, hret, hgoes, hlive, hq, hplace⟩ := hc.inv
  cases hret
  cases hgoes
  have hissued : q'.issued lease.leaseId = some key₀ := by
    rw [hq]
    exact (u.queue.withdraw expired).issued_of_leased _ _ _ hlive
  have hzero : handledCount u key₀ = 0 := by
    by_contra hne
    have hhandled := (LeaseQueue.withdraw_handled expired).mpr
      ((h key₀).2 (Nat.pos_of_ne_zero hne))
    rw [hlive] at hhandled
    cases hhandled
  have hsame : ∀ key, countFor Effect.handledId q' key u.engine.log = handledCount u key := by
    intro key
    simp only [handledCount, countFor, hq, LeaseQueue.issued_withdraw]
  intro key
  rw [handledCount, hlog, hplace, countFor_cons_some rfl hissued, hsame]
  by_cases hkey : key = key₀
  · subst hkey
    rw [if_pos rfl, if_pos rfl, hzero]
    exact ⟨le_rfl, fun _ => rfl⟩
  · rw [if_neg hkey, if_neg hkey]
    exact ⟨(h key).1, fun hpos => (LeaseQueue.withdraw_handled expired).mpr ((h key).2 hpos)⟩

theorem Once.step (h : Once u) (hl : Linked opts u) (hs : Step opts u ev v) : Once v := by
  have hfresh := (hl.step hs).fresh
  cases hs with
  | @dispatched s t q q' e expired hstep hans =>
    have hsame : ∀ key, countFor Effect.handledId q' key s.log = handledCount ⟨s, q⟩ key :=
      countFor_congr hl.issued_of_handled fun id key => hans.issued_some
    have hother : ∀ effect : Effect, t.log = effect :: s.log → effect.handledId = none →
        Once ⟨t, q'⟩ := by
      intro effect hlog hno
      refine h.quiet (fun key => ?_) fun _ => hans.handled
      rw [hlog, countFor_cons_none hno, hsame]
    cases (step_move hstep).flow hl.accounted.sound hfresh with
    | kept hq hheld hlog =>
      obtain hlog | ⟨lease, time, hlog⟩ := hlog
      · exact h.quiet (fun key => by rw [hlog, hsame]) fun _ => hans.handled
      · exact hother _ hlog rfl
    | concluded old lease choice c rest hq hp hid hexp hid' hs ht hlog => exact hother _ hlog rfl
    | took lease hq hheld hlog => exact hother _ hlog rfl
    | renewed lease rest hq hs ht hlog =>
      exact h.quiet (fun key => by rw [hlog, hsame]) fun _ => hans.handled
    | gave how op lease reply rest hq hret hhow hfrom hs ht hlog =>
      rw [hq] at hans
      cases reply with
      | error err => exact hother _ hlog (by cases how <;> rfl)
      | ok _ =>
        obtain hc | ⟨⟨err, herr⟩, -⟩ := LeaseQueue.Responds.gave hans hhow
        · cases op with
          | markHandled lease' =>
            cases hret
            cases hhow
            exact h.consumed hc hlog
          | reclaim lease' opts =>
            cases hhow
            exact hother _ hlog rfl
          | abandon lease' =>
            cases hhow
            exact hother _ hlog rfl
          | _ => cases hhow
        · cases herr
  | added request =>
    refine h.quiet (countFor_congr hl.issued_of_handled ?_) fun key hk => ?_
    · intro id key hid
      simpa using hid
    · obtain heq | ⟨-, hnew, -⟩ := LeaseQueue.place_add _ request key
      · exact heq.trans hk
      · exact nomatch hk.symm.trans hnew

structure Settled (opts : EngineOptions) (u : System) : Prop where
  linked : Linked opts u
  once : Once u
  critical : CriticalAbandoned u.engine

theorem Settled.step (h : Settled opts u) (hs : Step opts u ev v) : Settled opts v := by
  refine ⟨h.linked.step hs, h.once.step h.linked hs, ?_⟩
  cases hs with
  | dispatched hstep hans => exact h.critical.move (step_move hstep)
  | added request => exact h.critical

theorem settled_start (statistics : Statistics) (limiter : DomainLimiter) (clock : Instant)
    (q : LeaseQueue) : Settled opts ⟨start opts statistics limiter clock, q⟩ where
  linked := linked_start statistics limiter clock q
  once := fun _ => ⟨Nat.zero_le 1, fun hpos => absurd hpos (lt_irrefl 0)⟩
  critical := fun _ hm => nomatch hm

theorem Settled.not_handled (h : Settled opts u) {lease lease' : Lease} {ok : Bool}
    (hm : .decided lease .critical ∈ u.engine.log ∨ ∃ ok, .called .abandon lease ok ∈ u.engine.log)
    (hm' : .called .markHandled lease' ok ∈ u.engine.log) : lease.leaseId ≠ lease'.leaseId := by
  intro hid
  have hall := h.linked.accounted.conserved.nodup_iff.mp h.linked.fresh.1
  have hnodup : (consumedIds u.engine.log).Nodup := hall.of_append_left
  have habandon : ∀ {l : Lease} {ok : Bool}, .called .abandon l ok ∈ u.engine.log →
      l.leaseId = lease'.leaseId → False :=
    fun hc hl => nomatch call_unique hnodup hc hm' hl
  obtain hcrit | ⟨ok, hc⟩ := hm
  · obtain ⟨held', error, hp, hheld⟩ | ⟨l, ok, hc, hl⟩ := h.critical lease hcrit
    · have hin : held'.leaseId ∈ (held u.engine).map Lease.leaseId := by
        apply List.mem_map_of_mem
        simp [held, hp, Phase.leases, Completing.lease]
      have hout : lease'.leaseId ∈ consumedIds u.engine.log :=
        List.mem_filterMap.mpr ⟨_, hm', rfl⟩
      exact (List.nodup_append.mp hall).2.2 _ hout _ hin (hid ▸ hheld.symm)
    · exact habandon hc (hl.trans hid)
  · exact habandon hc hid

/-- Terminal records, results and successful `mark_handled` calls agree in number in every
run, whatever the queue answers; over a queue that leases no handled request again no request
is counted twice, and neither an abandoned nor a critical attempt is counted at all. -/
theorem terminal_accounting (statistics : Statistics) (limiter : DomainLimiter)
    (clock : Instant) :
    (∀ es t, Machine.Run (Machine.Computes (Engine.step opts))
        (start opts statistics limiter clock) es t →
      t.statistics.requestsFinished + t.statistics.requestsFailed =
        statistics.requestsFinished + statistics.requestsFailed + t.log.countP Effect.isHandled ∧
      t.results.length = t.log.countP Effect.isHandled ∧
      t.statistics.requestsRetries =
        statistics.requestsRetries + t.log.countP Effect.isRetry) ∧
    ∀ q es v, Machine.Run (Step opts) ⟨start opts statistics limiter clock, q⟩ es v →
      (∀ key, handledCount v key ≤ 1) ∧
      ∀ lease lease' ok, .called .markHandled lease' ok ∈ v.engine.log →
        (.decided lease .critical ∈ v.engine.log ∨
          ∃ ok', .called .abandon lease ok' ∈ v.engine.log) →
        lease.leaseId ≠ lease'.leaseId := by
  refine ⟨?_, ?_⟩
  · intro es t run
    have hinit : Tallied statistics (start opts statistics limiter clock) := ⟨rfl, rfl, rfl⟩
    have h : Tallied statistics t :=
      Machine.run_invariant (fun _ _ _ h hstep => h.move (step_move hstep)) run hinit
    exact ⟨h.terminal, h.offered, h.retries⟩
  · intro q es v run
    have h : Settled opts v :=
      Machine.run_invariant (fun _ _ _ h hs => h.step hs) run
        (settled_start statistics limiter clock q)
    exact ⟨fun key => (h.once key).1, fun _ _ _ hm' hm => h.not_handled hm hm'⟩

theorem terminal_accounting_crawlEvents :
    afterAnswer.statistics.requestsFinished = 1 ∧ afterAnswer.results.length = 1 ∧
      ∃ q, handledCount ⟨afterAnswer, q⟩ "data:," = 1 ∧
        ∀ key, handledCount ⟨afterAnswer, q⟩ key ≤ 1 := by
  obtain ⟨q, hrun, -, hissued⟩ := run_crawlEvents
  refine ⟨rfl, rfl, q, ?_, ?_⟩
  · have hid : pageHandled.leaseId = 0 := rfl
    simp [handledCount, countFor, afterAnswer_log, Effect.handledId, hid, hissued]
  · exact ((terminal_accounting {} ∅ 0).2 _ _ _ hrun).1

end Millipede.System
