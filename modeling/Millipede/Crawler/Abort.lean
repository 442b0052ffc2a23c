import Millipede.Crawler.Completion

/-!
# An abort ends

Once the crawl is cancelled, every step the dispatcher takes lowers a rank: the leases it may
still fetch, the attempts it may still start and those it has to join, the calls it has to make.
What happens around the dispatcher leaves the rank alone.
-/

namespace Millipede.Engine

variable {opts : EngineOptions} {s t : State} {e : Event}

/-- What has to be joined or given back. -/
def State.burden (s : State) : ℕ := s.inFlight.length + s.slots.len + s.deferredEntries.len

def State.unreserved (s : State) : ℕ :=
  s.deferredEntries.values.countP fun entry => !entry.domainReserved

def State.room (s : State) (desired : ℕ) : ℕ :=
  desired + s.deferredCap - (s.inFlight.length + s.deferredEntries.len)

def State.pumpRank (s : State) (desired : ℕ) : ℕ :=
  4 * s.room desired + 2 * (desired - s.inFlight.length) + s.unreserved + s.burden + 10

/-- How many steps a cancelled dispatcher may still take in a phase. -/
def Phase.rank (opts : EngineOptions) (s : State) : Phase → ℕ
  | .returned _ | .panicked => 0
  | .abandoning rest (.finish _) => rest.length + 1
  | .releasing rest _ => rest.length + s.deferredEntries.len + 2
  | .joining _ => s.burden + 3
  | .top => s.burden + 4
  | .idling _ => s.burden + 5
  | .completing (.failedHandler _ _ _ _ _) => s.burden + 6
  | .completing _ => s.burden + 5
  | .checkingEmpty _ => s.burden + 6
  | .checkingFinished _ => s.burden + 7
  | .selecting _ => s.burden + 7
  | .settling => s.burden + 8
  | .fetching desired => s.pumpRank desired
  | .pumping desired => s.pumpRank desired + 1
  | .renewing due => due.length + s.pumpRank opts.pool.limit + 2
  | .renewScan => s.deferredEntries.len + s.pumpRank opts.pool.limit + 3
  | .abandoning rest .renew =>
    rest.length + s.deferredEntries.len + s.pumpRank opts.pool.limit + 4

def rank (opts : EngineOptions) (s : State) : ℕ := s.phase.rank opts s

def Event.dispatches : Event → Bool
  | .cancel | .stop | .rescale _ | .setDelayFloor _ _ => false
  | _ => true

theorem burden_le_pumpRank (s : State) (desired : ℕ) : s.burden + 10 ≤ s.pumpRank desired := by
  simp only [State.pumpRank]
  omega

theorem pumpRank_mono (s : State) {desired desired' : ℕ} (h : desired ≤ desired') :
    s.pumpRank desired ≤ s.pumpRank desired' := by
  simp only [State.pumpRank, State.room]
  omega

theorem rank_afterPump_le (opts : EngineOptions) (s : State) (desired : ℕ) :
    rank opts (afterPump opts s desired) ≤ s.pumpRank desired := by
  have hle := burden_le_pumpRank s desired
  unfold afterPump
  split_ifs
  · simp only [rank, Phase.rank, State.burden] at hle ⊢
    omega
  · exact le_rfl

theorem unreserved_erase {m : HashMap ℕ DeferredStart} {sequence : ℕ} {entry : DeferredStart}
    (h : m.lookup sequence = some entry) :
    (m.erase sequence).values.countP (fun entry => !entry.domainReserved) +
        (!entry.domainReserved).toNat =
      m.values.countP fun entry => !entry.domainReserved := by
  have hcount := (AList.values_perm_erase h).countP_eq fun entry => !entry.domainReserved
  rw [hcount, List.countP_cons]
  cases entry.domainReserved <;> rfl

structure TakenOut (s : State) (sequence : ℕ) (entry : DeferredStart) (s' : State) : Prop where
  phase : s'.phase = s.phase
  inFlight : s'.inFlight = s.inFlight
  slots : s'.slots = s.slots
  capacity : s'.deferredCap = s.deferredCap
  entries : s'.deferredEntries = s.deferredEntries.erase sequence
  found : s.deferredEntries.lookup sequence = some entry

variable {s' : State} {desired sequence : ℕ} {entry : DeferredStart}

theorem TakenOut.pumpRank_putBack (h : TakenOut s sequence entry s') {entry' : DeferredStart}
    (hreserved : entry'.domainReserved = true) (desired : ℕ) (readyAt : Instant) :
    (putBack s' readyAt sequence entry').pumpRank desired + (!entry.domainReserved).toNat =
      s.pumpRank desired := by
  have hnone : s'.deferredEntries.lookup sequence = none := by
    rw [h.entries, AList.lookup_erase_ite, if_pos rfl]
  have hlen : (s'.deferredEntries.insert sequence entry').len = s.deferredEntries.len := by
    rw [AList.len_insert_new _ hnone, h.entries, AList.len_erase h.found]
  have hcount := unreserved_erase h.found
  have hun : (putBack s' readyAt sequence entry').unreserved + (!entry.domainReserved).toNat =
      s.unreserved := by
    simp only [State.unreserved, putBack, AList.values_insert_new _ hnone]
    rw [List.countP_cons_of_neg (by simp [hreserved]), h.entries]
    exact hcount
  simp only [State.pumpRank, State.room, State.burden] at hun ⊢
  simp only [putBack, hlen, h.inFlight, h.slots, h.capacity] at hun ⊢
  omega

theorem TakenOut.rank_putBack (h : TakenOut s sequence entry s') (hp : s.phase = .pumping desired)
    (hfresh : entry.domainReserved = false) {entry' : DeferredStart}
    (hreserved : entry'.domainReserved = true) (readyAt : Instant) :
    rank opts (putBack s' readyAt sequence entry') < s.pumpRank desired + 1 := by
  have hback := h.pumpRank_putBack hreserved desired readyAt
  have hphase : (putBack s' readyAt sequence entry').phase = .pumping desired := h.phase.trans hp
  rw [hfresh] at hback
  simp only [rank, hphase, Phase.rank]
  simp only [Bool.not_false, Bool.toNat_true] at hback
  omega

theorem TakenOut.pumpRank_startAttempt (h : TakenOut s sequence entry s')
    (hroom : s.inFlight.length < desired) (entry' : DeferredStart) (started : Instant) :
    (startAttempt s' entry' started).pumpRank desired < s.pumpRank desired := by
  have hlen := AList.len_erase h.found
  have hslots := AList.len_insert_le s.slots s'.nextSlot
    { lease := entry'.lease, started : SlotState }
  have hcount := unreserved_erase h.found
  have hun : (startAttempt s' entry' started).unreserved ≤ s.unreserved := by
    simp only [State.unreserved, startAttempt, h.entries]
    omega
  simp only [State.pumpRank, State.room, State.burden] at hun ⊢
  simp only [startAttempt, h.entries, h.inFlight, h.slots, h.capacity, List.length_append,
    List.length_singleton] at hun ⊢
  omega

theorem TakenOut.rank_takeToken (h : TakenOut s sequence entry s') (hp : s.phase = .pumping desired)
    (hroom : s.inFlight.length < desired) {entry' : DeferredStart}
    (hreserved : entry'.domainReserved = true) (now : Instant) (tokenWait : Option Duration)
    (started : Instant) :
    rank opts (takeToken opts s' desired sequence entry' now tokenWait started) <
      s.pumpRank desired + 1 := by
  cases tokenWait with
  | some wait =>
    have hback := h.pumpRank_putBack hreserved desired (now + wait)
    have hafter := rank_afterPump_le opts (putBack s' (now + wait) sequence entry') desired
    simp only [takeToken]
    omega
  | none =>
    have hstart := h.pumpRank_startAttempt hroom entry' started
    have hphase : (startAttempt s' entry' started).phase = .pumping desired := h.phase.trans hp
    simp only [takeToken, rank, hphase, Phase.rank]
    omega

theorem rank_pump (opts : EngineOptions) (hp : s.phase = .pumping desired) (now : Instant)
    (tokenWait : Option Duration) (started : Instant) :
    rank opts (pump opts s desired now tokenWait started) < s.pumpRank desired + 1 := by
  have hafter := rank_afterPump_le opts s desired
  unfold pump
  split_ifs with hroom
  · split
    · omega
    · rename_i readyAt sequence deferred hd
      split_ifs with hready
      · omega
      · split
        · simp only [rank, Phase.rank]
          omega
        · rename_i entry he
          have htaken : TakenOut s sequence entry
              { s with deferred, deferredEntries := s.deferredEntries.erase sequence } :=
            ⟨rfl, rfl, rfl, rfl, rfl, he⟩
          simp only
          split_ifs with hreserved
          · exact htaken.rank_takeToken hp hroom hreserved now tokenWait started
          · split
            · exact htaken.rank_takeToken hp hroom rfl now tokenWait started
            · rename_i host hhost
              have htaken' : TakenOut s sequence entry
                  { s with
                    limiter := (DomainLimiter.reserveSlot opts.pool.sameDomainDelay s.limiter host
                      now).2
                    deferred, deferredEntries := s.deferredEntries.erase sequence } :=
                ⟨rfl, rfl, rfl, rfl, rfl, he⟩
              split_ifs with hwait
              · exact htaken'.rank_putBack hp (Bool.eq_false_of_not_eq_true hreserved) rfl _
              · exact htaken'.rank_takeToken hp hroom rfl now tokenWait started
  · omega

theorem runOn_rank (h : Sound opts s) (hc : s.cancelled = true) {now started : Instant}
    {tokenWait : Option Duration} (hrun : runOn opts s now tokenWait started = some t) :
    rank opts t < rank opts s := by
  unfold runOn at hrun
  cases hp : s.phase with
  | top =>
    simp only [hp, Option.some.injEq] at hrun
    rw [← hrun, loopTop, if_pos hc]
    simp only [rank, hp, beginAbort, Phase.rank, State.burden]
    omega
  | renewScan =>
    simp only [hp, Option.some.injEq] at hrun
    rw [← hrun]
    have hdue : ((s.deferredEntries.entries.filter fun e => e.2.renewAt ≤ now).map
        Sigma.fst).length ≤ s.deferredEntries.len := by
      rw [List.length_map]
      exact List.length_filter_le ..
    have hsame : ∀ due, ({ s with phase := .renewing due } : State).pumpRank opts.pool.limit =
        s.pumpRank opts.pool.limit := fun _ => rfl
    simp only [rank, hp, renewScan, Phase.rank, hsame]
    omega
  | renewing due =>
    cases due with
    | cons sequence due => simp only [hp, reduceCtorEq] at hrun
    | nil =>
      simp only [hp, Option.some.injEq] at hrun
      rw [← hrun]
      have hle := pumpRank_mono s h.within.desired_le
      have hsame : (startPump s).pumpRank s.mode.desiredConcurrency =
          s.pumpRank s.mode.desiredConcurrency := rfl
      simp only [rank, hp, startPump, Phase.rank, List.length_nil] at hsame ⊢
      omega
  | pumping desired =>
    simp only [hp, Option.some.injEq] at hrun
    rw [← hrun]
    have hlt := rank_pump opts hp now tokenWait started
    simpa only [rank, hp, Phase.rank] using hlt
  | settling =>
    simp only [hp, Option.some.injEq] at hrun
    rw [← hrun]
    unfold settle
    split_ifs
    · simp only [rank, hp, Phase.rank]
      omega
    · simp only [rank, hp, Phase.rank, State.burden]
      omega
    · simp only [rank, hp, Phase.rank, State.burden]
      omega
  | abandoning rest next =>
    cases rest with
    | cons lease rest => simp only [hp, reduceCtorEq] at hrun
    | nil =>
      cases next with
      | renew =>
        simp only [hp, Option.some.injEq] at hrun
        rw [← hrun]
        have hsame : ({ s with phase := .renewScan } : State).pumpRank opts.pool.limit =
            s.pumpRank opts.pool.limit := rfl
        simp only [rank, hp, Phase.rank, hsame, List.length_nil]
        omega
      | finish outcome =>
        simp only [hp, Option.some.injEq] at hrun
        rw [← hrun]
        simp only [rank, hp, Phase.rank]
        omega
  | joining outcome =>
    simp only [hp] at hrun
    split_ifs at hrun with hidle
    cases hrun
    have hslots : (slotLeases s).length = s.slots.len := by
      simp [slotLeases, AList.values, AList.len]
    simp only [rank, hp, Phase.rank, State.burden, hslots]
    omega
  | releasing rest outcome =>
    cases rest with
    | cons lease rest => simp only [hp, reduceCtorEq] at hrun
    | nil =>
      simp only [hp, Option.some.injEq] at hrun
      rw [← hrun]
      have hdeferred : (deferredLeases s).length = s.deferredEntries.len := by
        simp [deferredLeases, AList.values, AList.len]
      simp only [rank, hp, beginAbandon, Phase.rank, hdeferred, List.length_nil]
      omega
  | fetching desired | checkingFinished wake | checkingEmpty wake | idling wake | selecting wake
  | completing c | returned outcome | panicked => simp only [hp, reduceCtorEq] at hrun

theorem Completing.rank_le (c : Completing) (opts : EngineOptions) (s : State) :
    Phase.rank opts s (.completing c) ≤ s.burden + 6 := by
  cases c <;> simp only [Phase.rank] <;> omega

theorem conclude_completing (opts : EngineOptions) (s : State) (lease : Lease)
    (host : Option String) (error : Option CrawlError) (duration : Duration)
    (observation : AttemptObservation) (now : Instant) (handledAt : ℤ) (consulted : ℕ) :
    ∃ c, (conclude opts s lease host error duration observation now handledAt consulted).phase =
      .completing c := by
  simp only [conclude]
  split
  · exact ⟨_, rfl⟩
  · split_ifs
    · exact ⟨_, rfl⟩
    · exact ⟨_, rfl⟩
    · exact ⟨_, rfl⟩

theorem rank_handleCompletion_le (opts : EngineOptions) (s : State) (slot : ℕ)
    (joined : Joined) (now : Instant) (handledAt : ℤ) (consulted : ℕ) :
    rank opts (handleCompletion opts s slot joined now handledAt consulted) ≤ s.burden + 6 := by
  cases hslot : s.slots.lookup slot with
  | none =>
    simp only [handleCompletion, hslot, rank, Phase.rank]
    exact Nat.zero_le _
  | some state =>
    have hlen := AList.len_erase hslot
    rw [handleCompletion_eq hslot]
    cases ending state joined now with
    | none =>
      simp only [rank, Phase.rank, State.burden]
      omega
    | some ended =>
      obtain ⟨lease, error, duration, observation⟩ := ended
      simp only
      generalize hs' : ({ s with slots := s.slots.erase slot } : State) = s'
      have hkept := conclude_kept opts s' lease state.lease.request.url.hostStr error duration
        observation now handledAt consulted
      obtain ⟨c, hc⟩ := conclude_completing opts s' lease
        state.lease.request.url.hostStr error duration observation now handledAt consulted
      generalize conclude opts s' lease state.lease.request.url.hostStr error duration observation
        now handledAt consulted = t at hkept hc
      obtain ⟨hinFlight, -, hslots, -, hentries⟩ := hkept
      have hle := c.rank_le opts t
      have hburden : t.burden ≤ s.burden := by
        simp only [State.burden, hinFlight, hslots, hentries, ← hs']
        omega
      simp only [rank, hc]
      omega

theorem rank_answer {c : Completing} {reply : StorageResult Unit} (hp : s.phase = .completing c)
    (h : answer opts s c reply = some t) : rank opts t < rank opts s := by
  cases c with
  | abandonCritical lease error =>
    cases h
    simp only [rank, hp, beginAbort, logCall, Phase.rank, State.burden]
    omega
  | failedHandler lease total errorText status loadedUrl => cases h
  | abandonCancelled lease | markFinished lease total observation | reclaiming lease rotates
  | markFailed lease total errorText status loadedUrl =>
    cases reply with
    | ok _ =>
      cases h
      simp only [rank, hp, logCall, offer, Phase.rank, State.burden]
      omega
    | error e =>
      cases h
      simp only [rank, hp, beginAbort, logCall, Phase.rank, State.burden]
      omega

theorem rank_renewed {due : List ℕ} {i : ℕ} (hp : s.phase = .renewing due)
    (hi : due[i]? = some sequence) (reply : StorageResult Unit) :
    rank opts (renewed s sequence reply (due.eraseIdx i)) < rank opts s := by
  have hlt : i < due.length := (List.getElem?_eq_some_iff.mp hi).1
  have hlen := List.length_eraseIdx_of_lt hlt
  have hle := burden_le_pumpRank s opts.pool.limit
  unfold renewed
  split
  · simp only [rank, hp, Phase.rank]
    omega
  · rename_i entry he
    cases reply with
    | error e =>
      simp only [rank, hp, beginAbort, Phase.rank, State.burden] at hle ⊢
      omega
    | ok _ =>
      have hcount := AList.countP_values_insert s.deferredEntries sequence entry.extended
        fun entry => !entry.domainReserved
      have hsame : ({ s with
          deferredEntries := s.deferredEntries.insert sequence entry.extended
          phase := .renewing (due.eraseIdx i) } : State).pumpRank opts.pool.limit =
          s.pumpRank opts.pool.limit := by
        have hextended : entry.extended.domainReserved = entry.domainReserved := rfl
        simp only [he, Option.toList_some, List.countP_singleton, hextended] at hcount
        simp only [State.pumpRank, State.room, State.unreserved, State.burden,
          AList.len_insert_present _ he]
        omega
      simp only [rank, hp, Phase.rank, hsame]
      omega

theorem rank_fetched (h : Sound opts s) (hp : s.phase = .fetching desired)
    (hroom : (fetchedIds s.log).length + 1 ≤ 2 ^ 64) (lease : Lease)
    (readyNow stdNow renewNow : Instant) :
    rank opts (fetched s desired lease readyNow stdNow renewNow) < rank opts s := by
  have hphase := h.phase
  rw [hp] at hphase
  obtain ⟨-, hlt, hcap⟩ := hphase
  have hnone := (h.sequence_free hroom).2
  simp only [rank, hp, fetched, Phase.rank, State.pumpRank, State.room, State.unreserved,
    State.burden, AList.len_insert_new _ hnone, AList.values_insert_new _ hnone]
  rw [List.countP_cons_of_pos (by simp)]
  omega

/-- Each step of a cancelled dispatcher lowers the rank. -/
theorem rank_step (h : Sound opts s) (hc : s.cancelled = true)
    (hroom : (fetchedIds t.log).length ≤ 2 ^ 64) (hstep : step opts s e = some t)
    (he : e.dispatches = true) : rank opts t < rank opts s := by
  cases e with
  | cancel | stop | rescale decision | setDelayFloor host floor => cases he
  | run now tokenWait started =>
    simp only [step] at hstep
    split_ifs at hstep
    obtain ⟨u, hu, rfl⟩ := Option.map_eq_some_iff.mp hstep
    have hlt := runOn_rank h hc hu
    exact hlt
  | renewed i reply =>
    simp only [step] at hstep
    split at hstep
    · rename_i due hp
      obtain ⟨sequence, hi, rfl⟩ := Option.map_eq_some_iff.mp hstep
      exact rank_renewed hp hi reply
    · cases hstep
  | fetched reply readyNow stdNow renewNow =>
    simp only [step] at hstep
    split at hstep
    · rename_i desired hp
      have hle := burden_le_pumpRank s desired
      split_ifs at hstep
      split at hstep
      · rename_i lease
        cases hstep
        have hlog : (fetchedIds s.log).length + 1 ≤ 2 ^ 64 := hroom
        have hlt := rank_fetched h hp hlog lease readyNow stdNow renewNow
        exact hlt
      · cases hstep
        simp only [rank, hp, Phase.rank, State.burden] at hle ⊢
        omega
    · cases hstep
  | flag value =>
    simp only [step] at hstep
    split at hstep
    · rename_i wake hp
      split_ifs at hstep
      · cases hstep
        simp only [rank, hp, Phase.rank]
        omega
      · cases hstep
        simp only [rank, hp, Phase.rank, State.burden]
        omega
    · rename_i wake hp
      split_ifs at hstep
      · cases hstep
        simp only [rank, hp, Phase.rank, State.burden]
        omega
      · cases hstep
        simp only [rank, hp, Phase.rank, State.burden]
        omega
    · cases hstep
  | woken wake now =>
    simp only [step] at hstep
    split_ifs at hstep
    split at hstep
    · rename_i due hp
      split_ifs at hstep
      cases hstep
      simp only [rank, hp, woken, Phase.rank, State.burden]
      omega
    · rename_i due hp
      split_ifs at hstep
      cases hstep
      simp only [rank, hp, woken, Phase.rank, State.burden]
      omega
    · cases hstep
  | completed slot joined now handledAt consulted =>
    have hp : ∃ wake, s.phase = .selecting wake := by
      simp only [step] at hstep
      split at hstep
      · rename_i wake hp
        exact ⟨wake, hp⟩
      · cases hstep
    obtain ⟨wake, hp⟩ := hp
    obtain ⟨hmem, rfl⟩ := step_completed hstep
    have hle := rank_handleCompletion_le opts
      { s with clock := now, inFlight := s.inFlight.erase slot } slot joined now handledAt consulted
    have hlen := List.length_erase_of_mem hmem
    simp only [State.burden] at hle
    simp only [rank, hp, Phase.rank, State.burden] at hle ⊢
    omega
  | answered reply =>
    simp only [step] at hstep
    split at hstep
    · rename_i c hp
      exact rank_answer hp hstep
    · cases hstep
  | handlerDone =>
    simp only [step] at hstep
    split at hstep
    · rename_i hp
      cases hstep
      simp only [rank, hp, Phase.rank, State.burden]
      omega
    · cases hstep
  | joined slot =>
    simp only [step] at hstep
    split at hstep
    · rename_i outcome hp
      split_ifs at hstep with hmem
      cases hstep
      have hlen := List.length_erase_of_mem hmem
      have hpos := List.length_pos_of_mem hmem
      simp only [rank, hp, Phase.rank, State.burden]
      omega
    · cases hstep
  | released i reply =>
    simp only [step] at hstep
    split at hstep
    · rename_i rest outcome hp
      obtain ⟨lease, hi, rfl⟩ := Option.map_eq_some_iff.mp hstep
      have hlen := List.length_eraseIdx_of_lt (List.getElem?_eq_some_iff.mp hi).1
      have hlt : i < rest.length := (List.getElem?_eq_some_iff.mp hi).1
      simp only [rank, hp, logCall, Phase.rank]
      omega
    · cases hstep
  | abandoned i reply =>
    simp only [step] at hstep
    split at hstep
    · rename_i rest next hp
      obtain ⟨lease, hi, rfl⟩ := Option.map_eq_some_iff.mp hstep
      have hlen := List.length_eraseIdx_of_lt (List.getElem?_eq_some_iff.mp hi).1
      have hlt : i < rest.length := (List.getElem?_eq_some_iff.mp hi).1
      cases next with
      | renew =>
        have hsame : (logCall { s with phase := .abandoning (rest.eraseIdx i) .renew } .abandon
            lease reply).pumpRank opts.pool.limit = s.pumpRank opts.pool.limit := rfl
        simp only [rank, hp, logCall, Phase.rank] at hsame ⊢
        simp only [hsame]
        omega
      | finish outcome =>
        simp only [rank, hp, Phase.rank]
        omega
    · cases hstep

theorem rank_around (hstep : step opts s e = some t) (he : e.dispatches = false) :
    rank opts t = rank opts s := by
  cases e with
  | cancel | stop | rescale decision | setDelayFloor host floor =>
    cases hstep
    rfl
  | _ => cases he

theorem cancelled_step (hstep : step opts s e = some t) (hc : s.cancelled = true) :
    t.cancelled = true := by
  have hsteering : ∀ {u : State}, u.steering = s.steering → u.cancelled = true :=
    fun h => (congrArg Steering.cancelled h).trans hc
  by_cases hcancel : e = .cancel
  · subst hcancel
    cases hstep
    rfl
  · by_cases hstop : e = .stop
    · subst hstop
      cases hstep
      exact hc
    · cases step_steers hstep hcancel hstop with
      | onward hon =>
        obtain hsame | ⟨-, error, hends⟩ := hon
        · exact hsteering hsame
        · exact (congrArg Steering.cancelled hends).trans hc
      | looped clock hp ht =>
        rw [ht, loopTop, if_pos hc]
        exact hc
      | woken clock wake ho hwake ht =>
        rw [ht]
        exact hc
      | drained clock hp hd ht =>
        rw [ht]
        exact hc
      | finished wake hp hev ht =>
        rw [ht]
        exact hc

structure Capped (opts : EngineOptions) (s : State) : Prop where
  slots : s.slots.len ≤ opts.pool.limit
  leases : s.phase.leases.length ≤ max opts.pool.limit minDeferredCapacity

theorem Sound.slots_le (h : Sound opts s) (hp : s.phase.isJoining = false) :
    s.slots.len ≤ opts.pool.limit := by
  have hsub : s.slots.keys ⊆ s.inFlight := h.slot_inFlight hp
  have hle := (List.subperm_of_subset s.slots.keys_nodup hsub).length_le
  rw [AList.keys_length] at hle
  exact hle.trans h.inFlight_le

theorem one_le_capacity (opts : EngineOptions) :
    1 ≤ max opts.pool.limit minDeferredCapacity :=
  le_max_of_le_right (by decide)

theorem Move.slots_kept (hm : Move opts s e t) (hp : t.phase.isJoining = true) :
    t.slots = s.slots := by
  cases hm with
  | panic clock _ hc hlost hq ht hi => rw [ht]
  | postponed now started tokenWait desired readyAt sequence rest entry limiter wait phase _ hc hn
      hfrom hlt hd hr he hl ht hafter => rw [ht]
  | started now started desired readyAt sequence rest entry limiter hc hn hfrom hlt hd hr he hl =>
    simp only [hfrom] at hp
    cases hp
  | release | cancelledAttempt | concluded => cases hp
  | _ => rfl

theorem Move.leases_le (hm : Move opts s e t) (hs : Sound opts s) (h : Capped opts s) :
    t.phase.leases.length ≤ max opts.pool.limit minDeferredCapacity := by
  have hone := one_le_capacity opts
  have hcap := hs.deferred_le
  rw [hs.capacity] at hcap
  cases hm with
  | quiet clock cancelled drain draining mode limiter phase hc hmode hl hphase hq =>
    simp only [hphase.leases]
    exact h.leases
  | panic clock _ hc hlost hq ht hi =>
    rw [ht]
    exact Nat.zero_le _
  | gather clock drain draining next hc hfrom hq =>
    simpa [beginAbandon, Phase.leases, deferredLeases, AList.values, AList.len] using hcap
  | release clock outcome hc hfrom hidle hq =>
    have hle := h.slots.trans (le_max_left _ minDeferredCapacity)
    simpa [Phase.leases, slotLeases, AList.values, AList.len] using hle
  | renewed due i sequence entry hfrom hi he hq => exact Nat.zero_le _
  | postponed now started tokenWait desired readyAt sequence rest entry limiter wait phase _ hc hn
      hfrom hlt hd hr he hl ht hafter =>
    rw [ht]
    cases hafter with
    | again | settle | fetch => exact Nat.zero_le _
  | started now started desired readyAt sequence rest entry limiter hc hn hfrom hlt hd hr he hl =>
    simp only [hfrom, Phase.leases]
    exact Nat.zero_le _
  | fetched desired lease readyNow stdNow renewNow overrides carried readyAt renewAt hc hr hstd
      hfrom hready hrenew => exact Nat.zero_le _
  | cancelledAttempt wake slot state now handledAt consulted hc hfrom hmem hslot => exact hone
  | concluded wake slot state joined now handledAt consulted lease error observation choice c
      accumulated overrides statistics mode limiter hc hfrom hmem hslot hends hcon hfin hfail hret
      hmode hl => exact hone
  | answered c how op reply statistics results phase hfrom hop hhow hset =>
    simp only [hset.leases]
    exact Nat.zero_le _
  | joined slot outcome hfrom hmem => exact h.leases
  | dropped rest i lease reply phase hi hfrom hq =>
    have hle := h.leases
    have herase := List.length_eraseIdx_le rest i
    obtain ⟨outcome, hp, rfl⟩ | ⟨next, hp, rfl⟩ := hfrom
    · simp only [hp, Phase.leases] at hle ⊢
      omega
    · simp only [hp, Phase.leases] at hle ⊢
      omega

theorem Capped.move (h : Capped opts s) (hs : Sound opts s) (ht : Sound opts t)
    (hm : Move opts s e t) : Capped opts t := by
  refine ⟨?_, hm.leases_le hs h⟩
  cases hp : t.phase.isJoining with
  | false => exact ht.slots_le hp
  | true =>
    rw [hm.slots_kept hp]
    exact h.slots

theorem pumpRank_le (h : Sound opts s) (hl : Capped opts s) {desired : ℕ}
    (hd : desired ≤ opts.pool.limit) :
    s.deferredEntries.len + s.pumpRank desired ≤
      11 * max opts.pool.limit minDeferredCapacity + 10 := by
  have hinFlight := h.inFlight_le
  have hdeferred := h.deferred_le
  have hslots := hl.slots
  have hmax := le_max_left opts.pool.limit minDeferredCapacity
  have hun : s.unreserved ≤ s.deferredEntries.len := by
    have hle := List.countP_le_length (p := fun entry => !entry.domainReserved)
      (l := s.deferredEntries.values)
    simpa [State.unreserved, AList.values, AList.len] using hle
  rw [h.capacity] at hdeferred
  simp only [State.pumpRank, State.room, State.burden, h.capacity]
  omega

theorem rank_le (h : Sound opts s) (hl : Capped opts s) :
    rank opts s ≤ 12 * max opts.pool.limit minDeferredCapacity + 14 := by
  have hpump := pumpRank_le h hl le_rfl
  have hinFlight := h.inFlight_le
  have hdeferred := h.deferred_le
  have hslots := hl.slots
  have hleases := hl.leases
  have hphase := h.phase
  have hmax := le_max_left opts.pool.limit minDeferredCapacity
  rw [h.capacity] at hdeferred
  cases hp : s.phase with
  | renewing due =>
    rw [hp] at hphase
    have hdue := (List.subperm_of_subset hphase.1 hphase.2).length_le
    rw [AList.keys_length] at hdue
    simp only [rank, hp, Phase.rank]
    omega
  | pumping desired =>
    rw [hp] at hphase
    have hle := pumpRank_le h hl hphase
    simp only [rank, hp, Phase.rank]
    omega
  | fetching desired =>
    rw [hp] at hphase
    have hle := pumpRank_le h hl hphase.1
    simp only [rank, hp, Phase.rank]
    omega
  | abandoning rest next =>
    rw [hp, Phase.leases] at hleases
    cases next with
    | renew =>
      simp only [rank, hp, Phase.rank]
      omega
    | finish outcome =>
      simp only [rank, hp, Phase.rank]
      omega
  | releasing rest outcome =>
    rw [hp, Phase.leases] at hleases
    simp only [rank, hp, Phase.rank]
    omega
  | completing c =>
    have hle := c.rank_le opts s
    simp only [State.burden] at hle
    simp only [rank, hp]
    omega
  | top | renewScan | settling | checkingFinished wake | checkingEmpty wake | idling wake
  | selecting wake | joining outcome | returned outcome | panicked =>
    simp only [rank, hp, Phase.rank, State.burden]
    omega

end Millipede.Engine

namespace Millipede

def SystemEvent.dispatches : SystemEvent → Bool
  | .engine e _ => e.dispatches
  | .add _ => false

namespace System

open Engine

variable {opts : EngineOptions} {u v : System} {ev : SystemEvent}

/-- A cancelled system whose books are right. -/
structure Aborting (opts : EngineOptions) (u : System) : Prop where
  linked : Linked opts u
  capped : Capped opts u.engine
  cancelled : u.engine.cancelled = true

theorem Linked.capped_step (h : Linked opts u) (hl : Capped opts u.engine)
    (hs : Step opts u ev v) : Capped opts v.engine := by
  have hv := h.step hs
  cases hs with
  | dispatched hstep hans =>
    exact hl.move h.accounted.sound hv.accounted.sound (step_move hstep)
  | added request => exact hl

theorem Aborting.step (h : Aborting opts u) (hs : Step opts u ev v) : Aborting opts v := by
  refine ⟨h.linked.step hs, h.linked.capped_step h.capped hs, ?_⟩
  cases hs with
  | dispatched hstep hans => exact cancelled_step hstep h.cancelled
  | added request => exact h.cancelled

theorem Aborting.falls (h : Aborting opts u) (hs : Step opts u ev v) :
    rank opts v.engine + ev.dispatches.toNat ≤ rank opts u.engine := by
  have hv := h.linked.step hs
  cases hs with
  | @dispatched s t q q' e expired hstep hans =>
    cases he : e.dispatches with
    | false =>
      simp only [SystemEvent.dispatches, he, Bool.toNat_false, add_zero]
      exact (rank_around hstep he).le
    | true =>
      have hlt := rank_step h.linked.accounted.sound h.cancelled hv.fresh.count_le hstep he
      simp only [SystemEvent.dispatches, he, Bool.toNat_true]
      exact hlt
  | added request => exact le_rfl

-- The crawl of one page, cancelled while its attempt runs.
def running : State := ((ticks 0 3).foldlM (silentStep singleSlot) afterFetch).getD afterFetch

end System

end Millipede
