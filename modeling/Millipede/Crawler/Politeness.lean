import Millipede.Crawler.Leases

/-!
# When attempts on one host are started

The limiter spaces the slots of a host, and an entry of the heap is not looked at before
its slot. A start may come later than its slot, though: for want of a free place in
`in_flight`, for want of a start token, or because the dispatcher was busy. The next slot
of the host is counted from the last slot and not from the last start, so it may then be
too close. `punctual` says that it is not, and the starts are then as far apart as they
should be.
-/

namespace Millipede.Engine

open DomainLimiter

variable {opts : EngineOptions} {s t : State} {e : Event} {delay : Duration}

def Effect.startOn (host : String) : Effect → Option Instant
  | .started lease time => if lease.request.url.hostStr = some host then some time else none
  | _ => none

def startTimes (log : List Effect) (host : String) : List Instant :=
  log.filterMap (Effect.startOn host)

def dueOn (entries : HashMap ℕ DeferredStart) (host : String) (x : Instant × ℕ) : Option Instant :=
  (entries.lookup x.2).bind fun entry =>
    if entry.domainReserved ∧ entry.lease.request.url.hostStr = some host then some x.1 else none

def dueTimes (deferred : List (Instant × ℕ)) (entries : HashMap ℕ DeferredStart)
    (host : String) : List Instant :=
  deferred.filterMap (dueOn entries host)

def popped (s : State) (now : Instant) : Option (DeferredStart × List (Instant × ℕ)) :=
  match s.phase, s.deferred with
  | .pumping desired, (readyAt, sequence) :: rest =>
    if s.inFlight.length < desired ∧ readyAt ≤ now then
      (s.deferredEntries.lookup sequence).map fun entry => (entry, rest)
    else none
  | _, _ => none

/-- What keeps the starts on a host apart. After a start that came later than the last slot of
the host, the next slot is far enough from the start; and when an attempt is started, the
entries that have their slots already are not due too soon. -/
def punctual (opts : EngineOptions) (s : State) : Event → Bool
  | .run now tokenWait started =>
    match popped s now with
    | none => true
    | some (entry, rest) =>
      match entry.lease.request.url.hostStr with
      | none => true
      | some host =>
        let slot := s.limiter.nextSlot host now
        let delay := opts.pool.sameDomainDelay
        (entry.domainReserved || (startTimes s.log host).all fun time =>
          (s.limiter.entry host).lastReserved.any (fun last => decide (time ≤ last)) ||
            decide (time + delay ≤ slot)) &&
        (tokenWait.isSome || (!entry.domainReserved && decide (now < slot)) ||
          (dueTimes rest s.deferredEntries host).all fun due => decide (started + delay ≤ due))
  | _ => true

def Apart (delay : Duration) (log : List Effect) : Prop :=
  ∀ host, (startTimes log host).Pairwise fun newer older => older + delay ≤ newer

structure Polite (delay : Duration) (s : State) : Prop where
  spaced : ∀ host, Spaced delay (s.limiter.entry host)
  ahead : ∀ host, ∀ due ∈ dueTimes s.deferred s.deferredEntries host,
    ∀ time ∈ startTimes s.log host, time + delay ≤ due
  apart : Apart delay s.log

theorem LimiterMove.spaced {limiter limiter' : DomainLimiter}
    (hm : LimiterMove delay limiter limiter') (h : ∀ host, Spaced delay (limiter.entry host)) :
    ∀ host, Spaced delay (limiter'.entry host) := by
  obtain rfl | ⟨host, floor, rfl⟩ | ⟨host, status, retryAfter, now, rfl⟩ := hm
  · exact h
  · exact spaced_setDelayFloor h host floor
  · exact spaced_noteResponse h host status retryAfter now

theorem Reserves.spaced {limiter limiter' : DomainLimiter} {entry : DeferredStart} {now : Instant}
    {wait : Duration} (hm : Reserves delay limiter entry now limiter' wait)
    (h : ∀ host, Spaced delay (limiter.entry host)) :
    ∀ host, Spaced delay (limiter'.entry host) := by
  obtain ⟨rfl, -⟩ | ⟨host, -, -, rfl, -⟩ := hm
  · exact h
  · exact spaced_reserveSlot h host now

theorem startTimes_cons {effect : Effect} (hno : effect.isStarted = false) (log : List Effect)
    (host : String) : startTimes (effect :: log) host = startTimes log host := by
  cases effect with
  | started => cases hno
  | _ => rfl

theorem startTimes_started {lease : Lease} {host : String}
    (hhost : lease.request.url.hostStr = some host) (time : Instant) (log : List Effect) :
    startTimes (.started lease time :: log) host = time :: startTimes log host := by
  simp [startTimes, Effect.startOn, hhost]

theorem startTimes_other {lease : Lease} {host : String}
    (hhost : lease.request.url.hostStr ≠ some host) (time : Instant) (log : List Effect) :
    startTimes (.started lease time :: log) host = startTimes log host := by
  simp [startTimes, Effect.startOn, hhost]

theorem Polite.kept (h : Polite delay s)
    (hspaced : ∀ host, Spaced delay (t.limiter.entry host))
    (hlog : t.log = s.log ∨ ∃ effect, t.log = effect :: s.log ∧ effect.isStarted = false)
    (hdue : ∀ host, ∀ due ∈ dueTimes t.deferred t.deferredEntries host,
      due ∈ dueTimes s.deferred s.deferredEntries host) : Polite delay t := by
  have htimes : ∀ host, startTimes t.log host = startTimes s.log host := by
    intro host
    obtain hlog | ⟨effect, hlog, hno⟩ := hlog
    · rw [hlog]
    · rw [hlog, startTimes_cons hno]
  refine ⟨hspaced, ?_, ?_⟩
  · intro host due hd
    rw [htimes]
    exact h.ahead host due (hdue host due hd)
  · intro host
    rw [htimes]
    exact h.apart host

theorem mem_dueTimes {deferred : List (Instant × ℕ)} {entries : HashMap ℕ DeferredStart}
    {host : String} {due : Instant} : due ∈ dueTimes deferred entries host ↔
      ∃ sequence entry, (due, sequence) ∈ deferred ∧ entries.lookup sequence = some entry ∧
        entry.domainReserved = true ∧ entry.lease.request.url.hostStr = some host := by
  simp only [dueTimes, dueOn, List.mem_filterMap, Option.bind_eq_some_iff,
    Option.ite_none_right_eq_some, Option.some.injEq]
  constructor
  · rintro ⟨⟨time, sequence⟩, hm, entry, he, ⟨hreserved, hhost⟩, rfl⟩
    exact ⟨sequence, entry, hm, he, hreserved, hhost⟩
  · rintro ⟨sequence, entry, hm, he, hreserved, hhost⟩
    exact ⟨(due, sequence), hm, entry, he, ⟨hreserved, hhost⟩, rfl⟩

section Pump
variable {now started readyAt : Instant} {tokenWait : Option Duration} {desired sequence : ℕ}
  {rest : List (Instant × ℕ)} {entry : DeferredStart} {limiter : DomainLimiter} {wait : Duration}
  {host : String}

theorem popped_eq (hp : s.phase = .pumping desired) (hlt : s.inFlight.length < desired)
    (hd : s.deferred = (readyAt, sequence) :: rest) (hr : readyAt ≤ now)
    (he : s.deferredEntries.lookup sequence = some entry) : popped s now = some (entry, rest) := by
  simp only [popped, hp, hd, hlt, hr, he, and_self, if_true, Option.map_some]

theorem punctual_slot (h : punctual opts s (.run now tokenWait started) = true)
    (hpop : popped s now = some (entry, rest))
    (hhost : entry.lease.request.url.hostStr = some host) (hnew : entry.domainReserved = false)
    {time : Instant} (hs : time ∈ startTimes s.log host) :
    (∃ last, (s.limiter.entry host).lastReserved = some last ∧ time ≤ last) ∨
      time + opts.pool.sameDomainDelay ≤ s.limiter.nextSlot host now := by
  simp only [punctual, hpop, hhost, hnew, Bool.false_or, Bool.and_eq_true, List.all_eq_true] at h
  simpa [Option.any_eq_true] using h.1 time hs

theorem punctual_spared (h : punctual opts s (.run now none started) = true)
    (hpop : popped s now = some (entry, rest))
    (hhost : entry.lease.request.url.hostStr = some host)
    (hready : entry.domainReserved = true ∨ s.limiter.nextSlot host now ≤ now) {due : Instant}
    (hdue : due ∈ dueTimes rest s.deferredEntries host) :
    started + opts.pool.sameDomainDelay ≤ due := by
  have hgo : (!entry.domainReserved && decide (now < s.limiter.nextSlot host now)) = false := by
    obtain hready | hready := hready
    · simp [hready]
    · simp [hready]
  simp only [punctual, hpop, hhost, hgo, Option.isSome_none, Bool.false_or, Bool.and_eq_true,
    List.all_eq_true] at h
  simpa using h.2 due hdue

theorem Polite.slot_after (h : Polite opts.pool.sameDomainDelay s)
    (hpunctual : punctual opts s (.run now tokenWait started) = true)
    (hpop : popped s now = some (entry, rest))
    (hd : s.deferred = (readyAt, sequence) :: rest) (hr : readyAt ≤ now)
    (he : s.deferredEntries.lookup sequence = some entry)
    (hres : Reserves opts.pool.sameDomainDelay s.limiter entry now limiter wait)
    (hhost : entry.lease.request.url.hostStr = some host) {time : Instant}
    (hs : time ∈ startTimes s.log host) : time + opts.pool.sameDomainDelay ≤ now + wait := by
  obtain ⟨-, hhas | hnone⟩ | ⟨host', hnew, hhost', -, hwait⟩ := hres
  · have hdue : readyAt ∈ dueTimes s.deferred s.deferredEntries host :=
      mem_dueTimes.mpr ⟨sequence, entry, by rw [hd]; exact List.mem_cons_self, he, hhas, hhost⟩
    calc time + opts.pool.sameDomainDelay ≤ readyAt := h.ahead host readyAt hdue time hs
      _ ≤ now := hr
      _ ≤ now + wait := Nat.le_add_right _ _
  · exact nomatch hnone.symm.trans hhost
  · cases hhost.symm.trans hhost'
    have hslot : s.limiter.nextSlot host now ≤ now + wait := Nat.sub_le_iff_le_add'.mp hwait
    refine le_trans ?_ hslot
    obtain ⟨last, hlast, hle⟩ | hfar := punctual_slot hpunctual hpop hhost hnew hs
    · exact (Nat.add_le_add_right hle _).trans ((h.spaced host).le_nextSlot hlast now)
    · exact hfar

theorem Sound.sequence_once (h : Sound opts s) (hd : s.deferred = (readyAt, sequence) :: rest) :
    ∀ time, (time, sequence) ∉ rest := by
  intro time hm
  have hnodup : (s.deferred.map Prod.snd).Nodup :=
    h.heap.nodup_iff.mpr s.deferredEntries.keys_nodup
  rw [hd, List.map_cons] at hnodup
  exact (List.nodup_cons.mp hnodup).1 (List.mem_map.mpr ⟨_, hm, rfl⟩)

theorem Polite.postponed (h : Polite opts.pool.sameDomainDelay s) (hsound : Sound opts s)
    (hpunctual : punctual opts s (.run now tokenWait started) = true)
    (hpop : popped s now = some (entry, rest))
    (hd : s.deferred = (readyAt, sequence) :: rest) (hr : readyAt ≤ now)
    (he : s.deferredEntries.lookup sequence = some entry)
    (hres : Reserves opts.pool.sameDomainDelay s.limiter entry now limiter wait)
    (hlimiter : t.limiter = limiter) (hlog : t.log = s.log)
    (hdeferred : t.deferred = heapPush (now + wait, sequence) rest)
    (hentries : t.deferredEntries = (s.deferredEntries.erase sequence).insert sequence
      { entry with domainReserved := true }) : Polite opts.pool.sameDomainDelay t where
  spaced := by
    rw [hlimiter]
    exact hres.spaced h.spaced
  ahead := by
    intro host due hdue time hs
    rw [hlog] at hs
    obtain ⟨k, other, hm, hk, hreserved, hhost⟩ := mem_dueTimes.mp hdue
    rw [hdeferred] at hm
    rw [hentries] at hk
    by_cases hne : k = sequence
    · subst hne
      rw [AList.lookup_insert] at hk
      cases hk
      obtain heq | hm := List.mem_cons.mp ((heapPush_perm _ _).mem_iff.mp hm)
      · cases heq
        exact h.slot_after hpunctual hpop hd hr he hres hhost hs
      · exact absurd hm (hsound.sequence_once hd due)
    · rw [AList.lookup_insert_ne hne, AList.lookup_erase_ne hne] at hk
      refine h.ahead host due (mem_dueTimes.mpr ⟨k, other, ?_, hk, hreserved, hhost⟩) time hs
      rw [hd]
      obtain heq | hm := List.mem_cons.mp ((heapPush_perm _ _).mem_iff.mp hm)
      · cases heq
        exact absurd rfl hne
      · exact List.mem_cons_of_mem _ hm
  apart := by
    rw [hlog]
    exact h.apart

theorem Polite.starts (h : Polite opts.pool.sameDomainDelay s) (hsound : Sound opts s)
    (hpunctual : punctual opts s (.run now none started) = true) (hn : now ≤ started)
    (hpop : popped s now = some (entry, rest))
    (hd : s.deferred = (readyAt, sequence) :: rest) (hr : readyAt ≤ now)
    (he : s.deferredEntries.lookup sequence = some entry)
    (hres : Reserves opts.pool.sameDomainDelay s.limiter entry now limiter 0)
    (hlimiter : t.limiter = limiter) (hlog : t.log = .started entry.lease started :: s.log)
    (hdeferred : t.deferred = rest)
    (hentries : t.deferredEntries = s.deferredEntries.erase sequence) :
    Polite opts.pool.sameDomainDelay t where
  spaced := by
    rw [hlimiter]
    exact hres.spaced h.spaced
  ahead := by
    intro host due hdue
    have hold : due ∈ dueTimes rest s.deferredEntries host := by
      obtain ⟨k, other, hm, hk, hreserved, hhost⟩ := mem_dueTimes.mp hdue
      rw [hdeferred] at hm
      rw [hentries] at hk
      have hne : k ≠ sequence := by
        intro heq
        rw [heq] at hm
        exact hsound.sequence_once hd due hm
      rw [AList.lookup_erase_ne hne] at hk
      exact mem_dueTimes.mpr ⟨k, other, hm, hk, hreserved, hhost⟩
    have hbefore : ∀ time ∈ startTimes s.log host, time + opts.pool.sameDomainDelay ≤ due := by
      obtain ⟨k, other, hmem, hk, hreserved, hother⟩ := mem_dueTimes.mp hold
      refine h.ahead host due (mem_dueTimes.mpr ⟨k, other, ?_, hk, hreserved, hother⟩)
      rw [hd]
      exact List.mem_cons_of_mem _ hmem
    rw [hlog]
    by_cases hhost : entry.lease.request.url.hostStr = some host
    · rw [startTimes_started hhost]
      intro time hs
      obtain rfl | hs := List.mem_cons.mp hs
      · refine punctual_spared hpunctual hpop hhost ?_ hold
        obtain ⟨-, hhas | hnone⟩ | ⟨host', -, hhost', -, hwait⟩ := hres
        · exact .inl hhas
        · exact nomatch hnone.symm.trans hhost
        · cases hhost.symm.trans hhost'
          exact .inr (Nat.sub_le_iff_le_add'.mp hwait)
      · exact hbefore time hs
    · rw [startTimes_other hhost]
      exact hbefore
  apart := by
    intro host
    rw [hlog]
    by_cases hhost : entry.lease.request.url.hostStr = some host
    · rw [startTimes_started hhost]
      refine List.pairwise_cons.mpr ⟨?_, h.apart host⟩
      intro time hs
      exact (h.slot_after hpunctual hpop hd hr he hres hhost hs).trans hn
    · rw [startTimes_other hhost]
      exact h.apart host

end Pump

theorem Polite.move (h : Polite opts.pool.sameDomainDelay s) (hsound : Sound opts s)
    (hm : Move opts s e t) (hpunctual : punctual opts s e = true) :
    Polite opts.pool.sameDomainDelay t := by
  cases hm with
  | quiet clock cancelled drain draining mode limiter phase hc hmode hlim hphase hq =>
    exact h.kept (hlim.spaced h.spaced) (.inl rfl) fun _ _ hdue => hdue
  | panic clock _ hc hlost hq ht hi => exact (hsound.no_panic hlost).elim
  | gather clock drain draining next hc hfrom hq =>
    refine h.kept h.spaced (.inl rfl) ?_
    intro host due hdue
    cases hdue
  | renewed due i sequence entry hfrom hi he hq =>
    refine h.kept h.spaced (.inl rfl) ?_
    intro host time hdue
    obtain ⟨k, other, hm, hk, hreserved, hhost⟩ := mem_dueTimes.mp hdue
    by_cases hne : k = sequence
    · subst hne
      rw [AList.lookup_insert] at hk
      cases hk
      exact mem_dueTimes.mpr ⟨k, entry, hm, he, hreserved, hhost⟩
    · rw [AList.lookup_insert_ne hne] at hk
      exact mem_dueTimes.mpr ⟨k, other, hm, hk, hreserved, hhost⟩
  | postponed now started tokenWait desired readyAt sequence rest entry limiter wait phase _ hc hn
      hfrom hlt hd hr he hres ht hafter =>
    have hpop := popped_eq hfrom hlt hd hr he
    rw [ht]
    exact h.postponed hsound hpunctual hpop hd hr he hres rfl rfl rfl rfl
  | started now started desired readyAt sequence rest entry limiter hc hn hfrom hlt hd hr he hres =>
    have hpop := popped_eq hfrom hlt hd hr he
    exact h.starts hsound hpunctual hn hpop hd hr he hres rfl rfl rfl rfl
  | fetched desired lease readyNow stdNow renewNow overrides carried readyAt renewAt h₁ h₂ h₃ hfrom
      hr hw =>
    refine h.kept h.spaced (.inr ⟨_, rfl, rfl⟩) ?_
    intro host due hdue
    obtain ⟨k, other, hm, hk, hreserved, hhost⟩ := mem_dueTimes.mp hdue
    by_cases hne : k = s.nextDeferred
    · subst hne
      rw [AList.lookup_insert] at hk
      cases hk
      cases hreserved
    · rw [AList.lookup_insert_ne hne] at hk
      refine mem_dueTimes.mpr ⟨k, other, ?_, hk, hreserved, hhost⟩
      obtain heq | hm := List.mem_cons.mp ((heapPush_perm _ _).mem_iff.mp hm)
      · cases heq
        exact absurd rfl hne
      · exact hm
  | concluded wake slot state joined now handledAt consulted lease error observation choice c
      accumulated overrides statistics mode limiter hc hfrom hslot hs hends hcon hfin hfail hret
      hmode hlim =>
    exact h.kept (hlim.spaced h.spaced) (.inr ⟨_, rfl, rfl⟩) fun _ _ hdue => hdue
  | release => exact h.kept h.spaced (.inl rfl) fun _ _ hdue => hdue
  | cancelledAttempt => exact h.kept h.spaced (.inl rfl) fun _ _ hdue => hdue
  | joined => exact h.kept h.spaced (.inl rfl) fun _ _ hdue => hdue
  | answered => exact h.kept h.spaced (.inr ⟨_, rfl, rfl⟩) fun _ _ hdue => hdue
  | dropped => exact h.kept h.spaced (.inr ⟨_, rfl, rfl⟩) fun _ _ hdue => hdue

/-- In every run whose steps are punctual, attempts on one host are started the delay apart. -/
theorem starts_apart_of_punctual (statistics : Statistics) {limiter : DomainLimiter}
    (hl : ∀ host, Spaced opts.pool.sameDomainDelay (limiter.entry host)) (clock : Instant)
    {es : List Event}
    (run : Machine.Run (Machine.Guarded (fun s e => punctual opts s e = true)
      (Machine.Computes (step opts)))
      (start opts statistics limiter clock) es t) (hf : FreshLeases t.log) :
    Apart opts.pool.sameDomainDelay t.log := by
  have hstart : Polite opts.pool.sameDomainDelay (start opts statistics limiter clock) := by
    refine ⟨hl, ?_, fun _ => List.Pairwise.nil⟩
    intro host due hdue
    cases hdue
  have hboth := Machine.run_invariant_until (H := fun s => FreshLeases s.log)
    (I := fun s => Sound opts s ∧ Polite opts.pool.sameDomainDelay s)
    (fun _ _ _ hstep hf => hf.before (step_move hstep.2))
    (fun _ _ _ h hstep hf => ⟨h.1.move (step_move hstep.2) hf,
      h.2.move h.1 (step_move hstep.2) hstep.1⟩)
    run ⟨sound_start statistics limiter clock, hstart⟩ hf
  exact hboth.2.apart

-- Two places, ten units between the starts on a host.
def twoSlots : EngineOptions :=
  { singleSlot with
    pool := AutoscaledPool.new
      { fixedConcurrency := some 2, minConcurrency := 1, maxConcurrency := 2
        desiredConcurrency := none, mode := .aimd 10, hasSignals := false, decreased := id
        upStep := id, downStep := id, sameDomainDelay := 10 } }

def hostRequest (key : String) : Request := .get ⟨key, some "host"⟩ key

def hostLease (n : ℕ) : Lease := leaseOf n (hostRequest (toString n))

def takeIn (n : ℕ) (now : Instant) : List Event :=
  .fetched (some (.ok (some (hostLease n)))) now now now :: ticks now 2

def succeeds (slot n : ℕ) (now : Instant) : List Event :=
  [.completed slot (.finished { error := none, duration := 1, request := hostRequest (toString n),
                                observation := {} }) now 0 0, .answered (.ok ())]

/-- Four leases are fetched at once. The first two fill the places until 40, when the slots of
the other two have passed. -/
def bunchedStarts : List Event :=
  ticks 0 4 ++ takeIn 0 0 ++ takeIn 1 0 ++ takeIn 2 0 ++ takeIn 3 0 ++
    [.fetched (some (.ok none)) 0 0 0] ++ ticks 0 1 ++
    [.woken .deferredDue 10] ++ ticks 10 6 ++ succeeds 0 0 40 ++ ticks 40 6 ++
    succeeds 1 1 40 ++ ticks 40 4

/-- The delay is ten, and both starts are at 40. -/
theorem starts_bunched :
    ∃ t, Machine.Run (Machine.Computes (step twoSlots)) (start twoSlots {} ∅ 0) bunchedStarts t ∧
      FreshLeases t.log ∧ startTimes t.log "host" = [40, 40, 10, 0] ∧
      ¬ Apart twoSlots.pool.sameDomainDelay t.log := by
  have hrun : (bunchedStarts.foldlM (step twoSlots) (start twoSlots {} ∅ 0)).map
      (fun t => (fetchedIds t.log, startTimes t.log "host")) =
        some ([3, 2, 1, 0], [40, 40, 10, 0]) := by decide +kernel
  obtain ⟨t, ht, hlog⟩ := Option.map_eq_some_iff.mp hrun
  obtain ⟨hids, htimes⟩ := Prod.mk.inj hlog
  refine ⟨t, Machine.run_of_foldlM ht, ?_, htimes, ?_⟩
  · rw [FreshLeases, hids]
    decide
  · intro hapart
    have hpairs := hapart "host"
    rw [htimes] at hpairs
    exact absurd hpairs (by decide)

def punctualStep (opts : EngineOptions) (s : State) (e : Event) : Option State :=
  if punctual opts s e then step opts s e else none

theorem guarded_of_punctualStep {s t : State} {e : Event}
    (h : Machine.Computes (punctualStep opts) s e t) :
    Machine.Guarded (fun s e => punctual opts s e = true) (Machine.Computes (step opts)) s e t := by
  simp only [Machine.Computes, punctualStep] at h
  split_ifs at h with hp
  exact ⟨hp, h⟩

def timelyStarts : List Event :=
  ticks 0 4 ++ takeIn 0 0 ++ takeIn 1 0 ++ [.fetched (some (.ok none)) 0 0 0] ++ ticks 0 1 ++
    [.woken .deferredDue 10] ++ ticks 10 4

theorem starts_apart_of_punctual_timelyStarts :
    ∃ t, Machine.Run (Machine.Computes (step twoSlots)) (start twoSlots {} ∅ 0) timelyStarts t ∧
      startTimes t.log "host" = [10, 0] ∧ Apart twoSlots.pool.sameDomainDelay t.log := by
  have hrun : (timelyStarts.foldlM (punctualStep twoSlots) (start twoSlots {} ∅ 0)).map
      (fun t => (fetchedIds t.log, startTimes t.log "host")) = some ([1, 0], [10, 0]) := by
    decide +kernel
  obtain ⟨t, ht, hlog⟩ := Option.map_eq_some_iff.mp hrun
  obtain ⟨hids, htimes⟩ := Prod.mk.inj hlog
  have hguarded := (Machine.run_of_foldlM ht).mono fun _ _ _ => guarded_of_punctualStep
  have hfresh : FreshLeases t.log := by
    rw [FreshLeases, hids]
    decide
  have hspaced : ∀ host, Spaced twoSlots.pool.sameDomainDelay
      (DomainLimiter.entry ∅ host) := by
    intro host last hlast
    cases hlast
  exact ⟨t, hguarded.mono fun _ _ _ hstep => hstep.2, htimes,
    starts_apart_of_punctual {} hspaced 0 hguarded hfresh⟩

end Millipede.Engine
