import Millipede.Crawler.Journal

/-!
# Overrides and durations

The two side maps of the dispatcher, `overrides` and `accumulated`, checked against the
journal of the run. `Books` says that what a request is owed is in `overrides`, or has moved
to the deferred start of its lease; `Tallies` that what its attempts have taken so far is in
`accumulated`, until the request is closed. Both rest on the queue: two leases that the
dispatcher holds are never for the same key.
-/

namespace Millipede.System

open Engine

variable {opts : EngineOptions} {s t : State} {q q' : LeaseQueue} {e : Event}
  {journal : List Note}

structure Apart (s : State) : Prop where
  deferred : ∀ {i j : ℕ} {entry other : DeferredStart}, s.deferredEntries.lookup i = some entry →
    s.deferredEntries.lookup j = some other → j ≠ i →
    other.lease.request.uniqueKey ≠ entry.lease.request.uniqueKey
  slots : ∀ {i j : ℕ} {state other : SlotState}, s.slots.lookup i = some state →
    s.slots.lookup j = some other → j ≠ i →
    other.lease.request.uniqueKey ≠ state.lease.request.uniqueKey
  mixed : ∀ {i j : ℕ} {state : SlotState} {entry : DeferredStart},
    s.slots.lookup i = some state → s.deferredEntries.lookup j = some entry →
    entry.lease.request.uniqueKey ≠ state.lease.request.uniqueKey

theorem Keyed.ne_of_mem (h : Keyed ⟨s, q⟩) (hl : Linked opts ⟨s, q⟩) (hlive : Live ⟨s, q⟩)
    {lease other : Lease} {rest : List Lease} (hs : (held s).Perm (lease :: rest))
    (hm : other ∈ rest) : other.request.uniqueKey ≠ lease.request.uniqueKey := by
  intro he
  have hlease := h.leases lease (hs.mem_iff.mpr List.mem_cons_self)
  have hother := h.leases other (hs.mem_iff.mpr (List.mem_cons_of_mem _ hm))
  exact held_unique hl hlive hs hm hlease (he ▸ hother)

theorem held_perm_slot {slot : ℕ} {state : SlotState} (h : s.slots.lookup slot = some state) :
    (held s).Perm (state.lease ::
      ((s.slots.erase slot).values.map SlotState.lease ++ deferredLeases s ++
        s.phase.leases)) :=
  (((AList.values_perm_erase h).map SlotState.lease).append_right _).append_right _

theorem held_perm_deferred {sequence : ℕ} {entry : DeferredStart}
    (h : s.deferredEntries.lookup sequence = some entry) :
    (held s).Perm (entry.lease ::
      (slotLeases s ++ (s.deferredEntries.erase sequence).values.map DeferredStart.lease ++
        s.phase.leases)) := by
  have hentries := (AList.values_perm_erase h).map DeferredStart.lease
  exact ((hentries.append_left _).trans List.perm_middle).append_right _

theorem Keyed.apart (h : Keyed ⟨s, q⟩) (hl : Linked opts ⟨s, q⟩) (hlive : Live ⟨s, q⟩) :
    Apart s where
  deferred := by
    intro i j entry other hi hj hne
    refine h.ne_of_mem hl hlive (held_perm_deferred hi) ?_
    refine List.mem_append_left _ (List.mem_append_right _ (List.mem_map_of_mem ?_))
    exact AList.mem_values_iff.mpr ⟨j, by rwa [AList.lookup_erase_ite, if_neg hne]⟩
  slots := by
    intro i j state other hi hj hne
    refine h.ne_of_mem hl hlive (held_perm_slot hi) ?_
    refine List.mem_append_left _ (List.mem_append_left _ (List.mem_map_of_mem ?_))
    exact AList.mem_values_iff.mpr ⟨j, by rwa [AList.lookup_erase_ite, if_neg hne]⟩
  mixed := by
    intro i j state entry hi hj
    refine h.ne_of_mem hl hlive (held_perm_slot hi) ?_
    refine List.mem_append_left _ (List.mem_append_right _ (List.mem_map_of_mem ?_))
    exact AList.mem_values_iff.mpr ⟨j, hj⟩

theorem Keyed.fetched_ne (h : Keyed ⟨s, q⟩) (hlive : Live ⟨s, q⟩) {lease : Lease}
    (hr : q.Responds [] .fetchNext (.ok (.leased (some lease))) q') {other : Lease}
    (hm : other ∈ held s) : other.request.uniqueKey ≠ lease.request.uniqueKey := by
  intro he
  obtain ⟨key, -, hwait, -, -⟩ := LeaseQueue.Responds.lease_inv hr
  rw [LeaseQueue.withdraw_nil] at hwait
  obtain ⟨r, hp⟩ := hlive.place hm (h.leases other hm)
  rw [he, h.queue key _ (.inl hwait), hwait] at hp
  cases hp

/-- What a request is owed is in `overrides`, or is carried by the deferred start of its
lease. -/
structure Books (s : State) (journal : List Note) : Prop where
  carried : ∀ sequence entry, s.deferredEntries.lookup sequence = some entry →
    entry.carried = owed entry.lease.request.uniqueKey journal ∧
      s.overrides.lookup entry.lease.request.uniqueKey = none
  due : ∀ readyAt sequence entry, (readyAt, sequence) ∈ s.deferred →
    s.deferredEntries.lookup sequence = some entry →
    ∃ time, fetchTime entry.lease.request.uniqueKey journal = some time ∧
      time + entry.carried.backoff.getD 0 ≤ readyAt
  running : ∀ slot state, s.slots.lookup slot = some state →
    owed state.lease.request.uniqueKey journal = {}
  overrides : s.draining = false → s.phase.leaving = false → ∀ key,
    (∀ sequence entry, s.deferredEntries.lookup sequence = some entry →
      entry.lease.request.uniqueKey ≠ key) →
    (s.overrides.lookup key).getD {} = owed key journal
  fetching : ∀ desired, s.phase = .fetching desired → s.draining = false
  gathering : ∀ rest, s.phase = .abandoning rest .renew → s.draining = true

theorem books_start (statistics : Statistics) (limiter : DomainLimiter) (clock : Instant) :
    Books (start opts statistics limiter clock) [] where
  carried := fun _ _ he => (nomatch he)
  due := fun _ _ _ _ he => (nomatch he)
  running := fun _ _ hs => (nomatch hs)
  overrides := fun _ _ _ _ => rfl
  fetching := fun _ hp => (nomatch hp)
  gathering := fun _ hp => (nomatch hp)

structure SameStarts (s t : State) : Prop where
  entries : ∀ sequence, (t.deferredEntries.lookup sequence).map
      (fun entry => (entry.carried, entry.lease.request.uniqueKey)) =
    (s.deferredEntries.lookup sequence).map
      fun entry => (entry.carried, entry.lease.request.uniqueKey)
  heap : ∀ readyAt sequence, (readyAt, sequence) ∈ t.deferred →
    ∃ earlier ≤ readyAt, (earlier, sequence) ∈ s.deferred
  slots : ∀ slot state, t.slots.lookup slot = some state → s.slots.lookup slot = some state
  overrides : t.overrides = s.overrides

theorem SameStarts.of_eq (hentries : t.deferredEntries = s.deferredEntries)
    (hheap : t.deferred = s.deferred)
    (hslots : ∀ slot state, t.slots.lookup slot = some state → s.slots.lookup slot = some state)
    (hoverrides : t.overrides = s.overrides) : SameStarts s t where
  entries := fun _ => by rw [hentries]
  heap := fun readyAt _ hmem => ⟨readyAt, le_rfl, hheap ▸ hmem⟩
  slots := hslots
  overrides := hoverrides

theorem SameStarts.entry (h : SameStarts s t) {sequence : ℕ} {entry : DeferredStart}
    (he : t.deferredEntries.lookup sequence = some entry) :
    ∃ old, s.deferredEntries.lookup sequence = some old ∧ old.carried = entry.carried ∧
      old.lease.request.uniqueKey = entry.lease.request.uniqueKey := by
  have hmap := h.entries sequence
  rw [he, Option.map_some] at hmap
  obtain ⟨old, hold, heq⟩ := Option.map_eq_some_iff.mp hmap.symm
  exact ⟨old, hold, congrArg Prod.fst heq, congrArg Prod.snd heq⟩

theorem SameStarts.entry_old (h : SameStarts s t) {sequence : ℕ} {old : DeferredStart}
    (ho : s.deferredEntries.lookup sequence = some old) :
    ∃ entry, t.deferredEntries.lookup sequence = some entry ∧
      entry.lease.request.uniqueKey = old.lease.request.uniqueKey := by
  have hmap := h.entries sequence
  rw [ho, Option.map_some] at hmap
  obtain ⟨entry, hentry, heq⟩ := Option.map_eq_some_iff.mp hmap
  exact ⟨entry, hentry, congrArg Prod.snd heq⟩

theorem Books.frame (h : Books s journal) (hsame : SameStarts s t)
    (hdraining : t.draining = false → s.draining = false)
    (hleaving : t.phase.leaving = false → s.phase.leaving = false)
    (hfetching : ∀ desired, t.phase = .fetching desired → t.draining = false)
    (hgathering : ∀ rest, t.phase = .abandoning rest .renew → t.draining = true) :
    Books t journal where
  carried := by
    intro sequence entry he
    obtain ⟨old, ho, hcarried, hkey⟩ := hsame.entry he
    rw [← hcarried, ← hkey, hsame.overrides]
    exact h.carried sequence old ho
  due := by
    intro readyAt sequence entry hmem he
    obtain ⟨old, ho, hcarried, hkey⟩ := hsame.entry he
    obtain ⟨earlier, hle, hmem⟩ := hsame.heap readyAt sequence hmem
    obtain ⟨time, htime, hdue⟩ := h.due earlier sequence old hmem ho
    rw [← hcarried, ← hkey]
    exact ⟨time, htime, hdue.trans hle⟩
  running := fun slot state hs => h.running slot state (hsame.slots slot state hs)
  overrides := by
    intro hd hl key hno
    rw [hsame.overrides]
    refine h.overrides (hdraining hd) (hleaving hl) key ?_
    intro sequence old ho
    obtain ⟨entry, he, hkey⟩ := hsame.entry_old ho
    rw [← hkey]
    exact hno sequence entry he
  fetching := hfetching
  gathering := hgathering

section Started
variable {desired sequence : ℕ} {readyAt time : Instant} {rest : List (Instant × ℕ)}
  {entry : DeferredStart}

theorem Books.started (h : Books s journal) (hapart : Apart s)
    (hp : s.phase = .pumping desired) (hd : s.deferred = (readyAt, sequence) :: rest)
    (he : s.deferredEntries.lookup sequence = some entry)
    (hslot : t.slots = s.slots.insert s.nextSlot { lease := entry.lease, started := time })
    (hentries : t.deferredEntries = s.deferredEntries.erase sequence) (hheap : t.deferred = rest)
    (hoverrides : t.overrides = s.overrides) (hdraining : t.draining = s.draining)
    (hphase : t.phase = s.phase) :
    Books t (.started entry.lease.request.uniqueKey entry.carried time :: journal) where
  carried := by
    intro i other hother
    rw [hentries, AList.lookup_erase_ite] at hother
    split_ifs at hother with hne
    obtain ⟨hcarried, hnone⟩ := h.carried i other hother
    rw [owed, if_neg (hapart.deferred he hother hne).symm, hoverrides]
    exact ⟨hcarried, hnone⟩
  due := by
    intro due i other hmem hother
    rw [hheap] at hmem
    rw [hentries, AList.lookup_erase_ite] at hother
    split_ifs at hother with hne
    refine h.due due i other ?_ hother
    rw [hd]
    exact List.mem_cons_of_mem _ hmem
  running := by
    intro slot state hs
    rw [hslot, AList.lookup_insert_ite] at hs
    rw [owed]
    split_ifs at hs with hnew
    · cases hs
      exact if_pos rfl
    · split_ifs
      · rfl
      · exact h.running slot state hs
  overrides := by
    intro hdrain hleaving key hno
    rw [hoverrides, owed]
    split_ifs with hkey
    · rw [← hkey, (h.carried sequence entry he).2]
      rfl
    · refine h.overrides (hdraining ▸ hdrain) (by rw [hp]; rfl) key ?_
      intro i other hother
      by_cases hi : i = sequence
      · rw [hi, he] at hother
        cases hother
        exact hkey
      · refine hno i other ?_
        rw [hentries, AList.lookup_erase_ite, if_neg hi]
        exact hother
  fetching := by
    intro desired' hp'
    rw [hphase, hp] at hp'
    cases hp'
  gathering := by
    intro rest' hp'
    rw [hphase, hp] at hp'
    cases hp'

end Started

section Fetched
variable {desired : ℕ} {lease : Lease} {readyNow renewNow : Instant}

theorem Books.fetched (h : Books s journal) (hp : s.phase = .fetching desired)
    (hfree : s.deferredEntries.lookup s.nextDeferred = none)
    (hunused : ∀ readyAt, (readyAt, s.nextDeferred) ∉ s.deferred)
    (hnew : ∀ other ∈ held s, other.request.uniqueKey ≠ lease.request.uniqueKey)
    (stdNow : Instant) :
    Books (fetched { s with clock := renewNow } desired lease readyNow stdNow renewNow)
      (.fetched lease.request.uniqueKey readyNow :: journal) := by
  have hother : ∀ i other, s.deferredEntries.lookup i = some other →
      other.lease.request.uniqueKey ≠ lease.request.uniqueKey :=
    fun i other ho => hnew other.lease (mem_held_of_deferred ho)
  have howed : (s.overrides.lookup lease.request.uniqueKey).getD {} =
      owed lease.request.uniqueKey journal :=
    h.overrides (h.fetching desired hp) (by rw [hp]; rfl) _ hother
  constructor
  · intro i entry he
    simp only [Engine.fetched, AList.lookup_insert_ite, AList.lookup_erase_ite] at he ⊢
    split_ifs at he with hi
    · cases he
      exact ⟨howed, if_pos rfl⟩
    · obtain ⟨hcarried, hnone⟩ := h.carried i entry he
      refine ⟨hcarried, ?_⟩
      rw [hnone, ite_self]
  · intro readyAt i entry hmem he
    simp only [Engine.fetched, AList.lookup_insert_ite] at hmem he ⊢
    have hmem := (heapPush_perm _ _).mem_iff.mp hmem
    split_ifs at he with hi
    · cases he
      rw [hi] at hmem
      obtain heq | hold := List.mem_cons.mp hmem
      · cases heq
        exact ⟨readyNow, if_pos rfl, le_rfl⟩
      · exact absurd hold (hunused readyAt)
    · obtain heq | hold := List.mem_cons.mp hmem
      · cases heq
        exact absurd rfl hi
      · rw [fetchTime, if_neg (hother i entry he).symm]
        exact h.due readyAt i entry hold he
  · intro slot state hs
    exact h.running slot state hs
  · intro hd hl key hno
    simp only [Engine.fetched, AList.lookup_erase_ite, AList.lookup_insert_ite] at hno ⊢
    have hkey : lease.request.uniqueKey ≠ key := hno s.nextDeferred _ (if_pos rfl)
    rw [if_neg hkey.symm]
    refine h.overrides hd (by rw [hp]; rfl) key ?_
    intro i entry he
    refine hno i entry ?_
    rw [if_neg, he]
    rintro rfl
    rw [hfree] at he
    cases he
  · intro desired' hp'
    cases hp'
  · intro rest' hp'
    cases hp'

end Fetched

section Ended
variable {slot consulted : ℕ} {state : SlotState} {joined : Joined} {now : Instant}
  {handledAt : ℤ} {new : List Note} {wake : Option Instant}

theorem Books.ended (h : Books s journal) (hapart : Apart s) (hp : s.phase = .selecting wake)
    (hs : s.slots.lookup slot = some state) (hslots : t.slots = s.slots.erase slot)
    (hheap : t.deferred = s.deferred) (hentries : t.deferredEntries = s.deferredEntries)
    (hdraining : t.draining = s.draining) {c : Completing} (hphase : t.phase = .completing c)
    (hfetched : ∀ key, fetchTime key (new ++ journal) = fetchTime key journal)
    (hothers : ∀ key, key ≠ state.lease.request.uniqueKey →
      owed key (new ++ journal) = owed key journal ∧
        t.overrides.lookup key = s.overrides.lookup key)
    (hpaid : s.draining = false → (t.overrides.lookup state.lease.request.uniqueKey).getD {} =
      owed state.lease.request.uniqueKey (new ++ journal)) : Books t (new ++ journal) where
  carried := by
    intro i entry he
    rw [hentries] at he
    obtain ⟨howed, hlookup⟩ := hothers _ (hapart.mixed hs he)
    rw [howed, hlookup]
    exact h.carried i entry he
  due := by
    intro readyAt i entry hmem he
    rw [hheap] at hmem
    rw [hentries] at he
    rw [hfetched]
    exact h.due readyAt i entry hmem he
  running := by
    intro other state' hs'
    rw [hslots, AList.lookup_erase_ite] at hs'
    split_ifs at hs' with hne
    rw [(hothers _ (hapart.slots hs hs' hne)).1]
    exact h.running other state' hs'
  overrides := by
    intro hdrain hleaving key hno
    by_cases hkey : key = state.lease.request.uniqueKey
    · rw [hkey]
      exact hpaid (hdraining ▸ hdrain)
    · obtain ⟨howed, hlookup⟩ := hothers key hkey
      rw [howed, hlookup]
      refine h.overrides (hdraining ▸ hdrain) (by rw [hp]; rfl) key ?_
      rw [hentries] at hno
      exact hno
  fetching := by
    intro desired hp'
    rw [hphase] at hp'
    cases hp'
  gathering := by
    intro rest hp'
    rw [hphase] at hp'
    cases hp'

theorem Books.unowed (h : Books s journal) (hapart : Apart s) (hp : s.phase = .selecting wake)
    (hs : s.slots.lookup slot = some state) (hdraining : s.draining = false) :
    (s.overrides.lookup state.lease.request.uniqueKey).getD {} = {} := by
  have hbooked := h.overrides hdraining (by rw [hp]; rfl) state.lease.request.uniqueKey
    fun i entry he => hapart.mixed hs he
  rw [hbooked, h.running slot state hs]

theorem Books.concluded (h : Books s journal) (hapart : Apart s) (hp : s.phase = .selecting wake)
    (hs : s.slots.lookup slot = some state) {lease : Lease} {error : Option CrawlError}
    {duration : Duration} {observation : AttemptObservation} {clock : Instant}
    {inFlight : List ℕ} {host : Option String}
    (hend : ending state joined now = some (lease, error, duration, observation))
    (hkey : lease.request.uniqueKey = state.lease.request.uniqueKey)
    (ht : t = conclude opts { s with clock, inFlight, slots := s.slots.erase slot } lease host error
      duration observation now handledAt consulted) :
    Books t (endNotes opts state joined now consulted t ++ journal) := by
  have hkept := conclude_kept opts { s with clock, inFlight, slots := s.slots.erase slot } lease
    host error duration observation now handledAt consulted
  have hcases := conclude_cases opts { s with clock, inFlight, slots := s.slots.erase slot } lease
    host error duration observation now handledAt consulted
  simp only [← ht, hkey] at hkept hcases
  obtain ⟨-, hdraining, hslots, hheap, hentries⟩ := hkept
  obtain ⟨error', lease', rotates, rfl, heligible, hphase, -, -, hoverrides⟩ |
    ⟨c, hphase, hcloses, -, -, -, hoverrides⟩ := hcases
  · rw [endNotes_retried hend hphase]
    refine h.ended hapart hp hs hslots hheap hentries hdraining hphase (fun _ => rfl) ?_ ?_
    · intro key hne
      refine ⟨if_neg hne.symm, ?_⟩
      rw [hoverrides]
      split
      · rw [AList.lookup_insert_ite, if_neg hne]
      · rfl
    · intro hopen
      rw [List.cons_append, owed, if_pos rfl, ← retryDecision_overrides heligible, hoverrides]
      split
      · rename_i overrides hsome
        rw [AList.lookup_insert_ite, if_pos rfl, hsome]
      · rename_i hnone
        rw [hnone]
        exact h.unowed hapart hp hs hopen
  · rw [endNotes_closed hend hphase hcloses]
    refine h.ended hapart hp hs hslots hheap hentries hdraining hphase (fun _ => rfl) ?_ ?_
    · intro key hne
      refine ⟨rfl, ?_⟩
      rw [hoverrides, AList.lookup_erase_ite, if_neg hne]
    · intro _
      rw [hoverrides, AList.lookup_erase_ite, if_pos rfl]
      exact (h.running slot state hs).symm

end Ended

theorem draining_of_step (hstep : step opts s e = some t) (h : s.draining = true) :
    t.draining = true := by
  obtain heq | ⟨hon, -⟩ := step_draining hstep
  · rw [heq, h]
  · exact hon

theorem stays_of_move (hm : Move opts s e t) (hsound : Sound opts s) (hfresh : FreshLeases t.log)
    (ht : t.phase.leaving = false) : s.phase.leaving = false := by
  by_contra hs
  obtain hon | hpanic := hm.leaving (Bool.eq_true_of_not_eq_false hs)
  · rw [hon] at ht
    cases ht
  · have hphase := (hsound.move hm hfresh).phase
    rw [hpanic] at hphase
    exact hphase

theorem Books.phases (h : Books s journal) (hstep : step opts s e = some t) :
    (∀ desired, t.phase = .fetching desired → t.draining = false) ∧
      ∀ rest, t.phase = .abandoning rest .renew → t.draining = true := by
  have hopen : s.draining = false → ∀ desired, t.phase = .fetching desired →
      t.draining = false := by
    intro hs desired hp
    obtain heq | ⟨-, hno⟩ := step_draining hstep
    · rw [heq, hs]
    · exact absurd hp (hno desired)
  have hm := step_move hstep
  cases hm with
  | quiet clock cancelled drain draining mode limiter phase hc hmode hl hphase hq =>
    refine ⟨?_, ?_⟩
    · rintro desired rfl
      refine hopen ?_ desired rfl
      generalize hto : Phase.fetching desired = phase at hphase
      cases hphase with
      | stay => exact h.fetching desired hto.symm
      | fetch desired hfrom hfetchable => exact hfetchable.draining
      | _ => cases hto
    · rintro rest rfl
      refine draining_of_step hstep ?_
      generalize hto : Phase.abandoning rest .renew = phase at hphase
      cases hphase with
      | stay => exact h.gathering rest hto.symm
      | _ => cases hto
  | gather clock drain draining next hc hfrom hq =>
    refine ⟨fun _ hp => (by cases hp), ?_⟩
    intro rest hp
    obtain ⟨hfrom, rfl⟩ | ⟨outcome, -, rfl⟩ := hfrom
    · exact step_gathers hstep hfrom hp
    · cases hp
  | postponed now started tokenWait desired readyAt sequence rest entry limiter wait phase _ hc hn
      hfrom hlt hd hr he hl ht hafter =>
    subst ht
    cases hafter with
    | again => exact ⟨fun _ hp => (by cases hp), fun _ hp => (by cases hp)⟩
    | settle => exact ⟨fun _ hp => (by cases hp), fun _ hp => (by cases hp)⟩
    | fetch hfetchable => exact ⟨fun _ _ => hfetchable.draining, fun _ hp => (by cases hp)⟩
  | panic clock _ hc hlost hq ht hi =>
    rw [ht]
    exact ⟨fun _ hp => (by cases hp), fun _ hp => (by cases hp)⟩
  | started now started desired readyAt sequence rest entry limiter hc hn hfrom hlt hd hr he hl =>
    refine ⟨fun _ hp => ?_, fun _ hp => ?_⟩ <;> cases hfrom.symm.trans hp
  | answered c how op reply statistics results phase hfrom hop hhow hset =>
    cases hset <;> exact ⟨fun _ hp => (by cases hp), fun _ hp => (by cases hp)⟩
  | joined slot outcome hfrom hslot =>
    refine ⟨fun _ hp => ?_, fun _ hp => ?_⟩ <;> cases hfrom.symm.trans hp
  | dropped rest i lease reply phase hi hfrom hq =>
    obtain ⟨outcome, hfrom, rfl⟩ | ⟨next, hfrom, rfl⟩ := hfrom
    · exact ⟨fun _ hp => (by cases hp), fun _ hp => (by cases hp)⟩
    · refine ⟨fun _ hp => (by cases hp), ?_⟩
      intro rest' hp
      cases hp
      exact h.gathering rest hfrom
  | _ => exact ⟨fun _ hp => (by cases hp), fun _ hp => (by cases hp)⟩

theorem sameStarts_renewed {sequence : ℕ} {entry : DeferredStart} {phase : Phase}
    (he : s.deferredEntries.lookup sequence = some entry) :
    SameStarts s { s with
      deferredEntries := s.deferredEntries.insert sequence entry.extended, phase } where
  entries := by
    intro i
    rw [AList.lookup_insert_ite]
    split_ifs with hi
    · rw [hi, he]
      rfl
    · rfl
  heap := fun readyAt i hmem => ⟨readyAt, le_rfl, hmem⟩
  slots := fun _ _ hs => hs
  overrides := rfl

theorem sameStarts_postponed {sequence : ℕ} {entry : DeferredStart} {readyAt later : Instant}
    {rest : List (Instant × ℕ)} (hd : s.deferred = (readyAt, sequence) :: rest)
    (he : s.deferredEntries.lookup sequence = some entry) (hle : readyAt ≤ later)
    {clock : Instant} {limiter : DomainLimiter} {phase : Phase} :
    SameStarts s { s with
      clock, limiter, phase
      deferred := heapPush (later, sequence) rest
      deferredEntries := (s.deferredEntries.erase sequence).insert sequence
        { entry with domainReserved := true } } where
  entries := by
    intro i
    rw [AList.lookup_insert_ite, AList.lookup_erase_ite]
    split_ifs with hi
    · rw [hi, he]
      rfl
    · rfl
  heap := by
    intro time i hmem
    obtain heq | hmem := List.mem_cons.mp ((heapPush_perm _ _).mem_iff.mp hmem)
    · cases heq
      exact ⟨readyAt, hle, by rw [hd]; exact List.mem_cons_self⟩
    · exact ⟨time, le_rfl, by rw [hd]; exact List.mem_cons_of_mem _ hmem⟩
  slots := fun _ _ hs => hs
  overrides := rfl

theorem Books.reported (h : Books s journal) (key : String) (duration : Duration) :
    Books s (.reported key duration :: journal) :=
  ⟨h.carried, h.due, h.running, h.overrides, h.fetching, h.gathering⟩

theorem Books.move (h : Books s journal) (hapart : Apart s) (hsound : Sound opts s)
    (hfresh : FreshLeases t.log) (hstep : step opts s e = some t)
    (hkeys : KeepsKey s e)
    (hnew : ∀ lease, queueCall s e = some (.fetchNext, .ok (.leased (some lease))) →
      ∀ other ∈ held s, other.request.uniqueKey ≠ lease.request.uniqueKey) :
    Books t (notes opts s e t ++ journal) := by
  have hdraining : t.draining = false → s.draining = false := by
    intro ht
    obtain heq | ⟨hon, -⟩ := step_draining hstep
    · exact heq ▸ ht
    · rw [hon] at ht
      cases ht
  have hm := step_move hstep
  have hleaving := stays_of_move hm hsound hfresh
  obtain ⟨hfetching, hgathering⟩ := h.phases hstep
  cases hm with
  | quiet clock cancelled drain draining mode limiter phase hc hmode hl hphase hq =>
    rw [notes_eq_nil hstep rfl ?_ rfl]
    · exact h.frame (.of_eq rfl rfl (fun _ _ hs => hs) rfl) hdraining hleaving hfetching
        hgathering
    · intro lease hcall
      rw [hcall] at hq
      exact hq lease rfl
  | panic clock _ hc hlost hq ht hi => exact (hsound.no_panic hlost).elim
  | gather clock drain draining next hc hfrom hq =>
    rw [notes_eq_nil hstep rfl (by simp [hq]) rfl]
    refine ⟨fun _ _ he => (nomatch he), fun _ _ _ _ he => (nomatch he), h.running, ?_, hfetching,
      hgathering⟩
    intro hd hl
    cases next with
    | renew =>
      rw [hgathering _ rfl] at hd
      cases hd
    | finish outcome => cases hl
  | release clock outcome hc hfrom hi hq =>
    rw [notes_eq_nil hstep rfl (by simp [hq]) rfl]
    exact h.frame (.of_eq rfl rfl (fun _ _ hs => (nomatch hs)) rfl) hdraining hleaving hfetching
      hgathering
  | renewed due i sequence entry hfrom hi he hq =>
    rw [notes_eq_nil hstep rfl (by simp [hq]) rfl]
    exact h.frame (sameStarts_renewed he) hdraining hleaving hfetching hgathering
  | postponed now started tokenWait desired readyAt sequence rest entry limiter wait phase _ hc hn
      hfrom hlt hd hr he hl ht hafter =>
    subst ht
    rw [notes_eq_nil hstep rfl (by simp [queueCall]) rfl]
    exact h.frame (sameStarts_postponed hd he (hr.trans (Nat.le_add_right _ _))) hdraining
      hleaving hfetching hgathering
  | started now started desired readyAt sequence rest entry limiter hc hn hfrom hlt hd hr he hl =>
    simp only [notes, List.length_append, List.length_singleton, Nat.lt_succ_self, if_true,
      popped_eq hfrom hlt hd hr he]
    exact h.started hapart hfrom hd he rfl rfl rfl rfl rfl rfl
  | fetched desired lease readyNow stdNow renewNow overrides carried readyAt renewAt h₁ h₂ h₃ hfrom
      hr hw =>
    have hcount : (fetchedIds s.log).length + 1 ≤ 2 ^ 64 := hfresh.count_le
    obtain ⟨-, hfree⟩ := hsound.sequence_free hcount
    have hunused : ∀ time, (time, s.nextDeferred) ∉ s.deferred := by
      intro time hmem
      have hkey := hsound.heap.subset (List.mem_map_of_mem (f := Prod.snd) hmem)
      exact AList.lookup_eq_none.mp hfree (AList.mem_keys.mpr hkey)
    simp only [step, hfrom] at hstep
    rw [if_pos ⟨h₁, h₂, h₃⟩] at hstep
    rw [← Option.some.inj hstep]
    exact h.fetched hfrom hfree hunused (hnew lease rfl) stdNow
  | cancelledAttempt wake slot state now handledAt consulted hc hfrom hslot hs =>
    rw [notes_cancelled hs]
    refine h.frame (.of_eq rfl rfl ?_ rfl) hdraining hleaving hfetching hgathering
    intro other state' hs'
    rw [AList.lookup_erase_ite] at hs'
    split_ifs at hs'
    exact hs'
  | concluded wake slot state joined now handledAt consulted lease error observation choice c
      accumulated overrides statistics mode limiter hc hfrom hslot hs hends hcon hfin hfail hret
      hmode hl =>
    simp only [notes, hs]
    obtain ⟨duration, hend⟩ : ∃ duration,
        ending state joined now = some (lease, error, duration, observation) := by
      cases hends <;> exact ⟨_, rfl⟩
    exact h.concluded hapart hfrom hs hend (Ends.uniqueKey hends hkeys hs)
      (step_concluded hstep hs hend)
  | answered c how op reply statistics results phase hfrom hop hhow hset =>
    have hbooks : Books
        { s with statistics, results, phase, log := .called how c.lease reply.isOk :: s.log }
        journal :=
      h.frame (.of_eq rfl rfl (fun _ _ hs => hs) rfl) hdraining hleaving hfetching hgathering
    cases hset with
    | finished lease total observation handled =>
      simp only [notes, List.drop_left]
      exact hbooks.reported _ _
    | failed lease total errorText status loadedUrl handled =>
      simp only [notes, List.drop_left]
      exact hbooks.reported _ _
    | _ =>
      simp only [notes, List.drop_length]
      exact hbooks
  | joined slot outcome hfrom hslot =>
    exact h.frame (.of_eq rfl rfl (fun _ _ hs => hs) rfl) hdraining hleaving hfetching hgathering
  | dropped rest i lease reply phase hi hfrom hq =>
    rw [notes_eq_nil hstep rfl (by simp [hq]) rfl]
    exact h.frame (.of_eq rfl rfl (fun _ _ hs => hs) rfl) hdraining hleaving hfetching hgathering

def closing : Phase → Option (String × Option Duration)
  | .completing c => if c.closes then some (c.lease.request.uniqueKey, c.total) else none
  | _ => none

/-- What the attempts of a request have taken so far is in `accumulated`, until it is closed. -/
structure Tallies (s : State) (q : LeaseQueue) (journal : List Note) : Prop where
  accumulated : s.phase.leaving = false → ∀ key, q.place key ≠ .handled →
    (∀ total, closing s.phase ≠ some (key, total)) →
    (s.accumulated.lookup key).getD 0 = spent key journal
  closed : ∀ key total, closing s.phase = some (key, total) →
    s.overrides.lookup key = none ∧ s.accumulated.lookup key = none ∧
      ∀ reported, total = some reported → reported = spent key journal
  handled : ∀ key, q.place key = .handled →
    s.overrides.lookup key = none ∧ s.accumulated.lookup key = none

theorem tallies_start (statistics : Statistics) (limiter : DomainLimiter) (clock : Instant)
    (q : LeaseQueue) : Tallies (start opts statistics limiter clock) q [] where
  accumulated := fun _ _ _ _ => rfl
  closed := fun _ _ hc => (nomatch hc)
  handled := fun _ _ => ⟨rfl, rfl⟩

theorem Tallies.withdraw (h : Tallies s q journal) (expired : List LeaseId) :
    Tallies s (q.withdraw expired) journal where
  accumulated := fun hl key hp => h.accumulated hl key
    fun hq => hp ((LeaseQueue.withdraw_handled expired).mpr hq)
  closed := h.closed
  handled := fun key hp => h.handled key ((LeaseQueue.withdraw_handled expired).mp hp)

theorem PhaseMove.closing_eq {phase : Phase} (h : PhaseMove opts s phase) :
    closing phase = closing s.phase := by
  cases h with
  | stay => rfl
  | abort outcome hfrom => obtain hfrom | ⟨due, hfrom⟩ := hfrom <;> rw [hfrom] <;> rfl
  | scan hfrom => obtain hfrom | hfrom := hfrom <;> rw [hfrom] <;> rfl
  | settle desired hfrom => obtain hfrom | hfrom := hfrom <;> rw [hfrom] <;> rfl
  | again wake hfrom => obtain hfrom | hfrom | hfrom := hfrom <;> rw [hfrom] <;> rfl
  | fetch desired hfrom hf => rw [hfrom]; rfl
  | check wake hfrom hi hd => rw [hfrom]; rfl
  | drained hfrom hi hd => rw [hfrom]; rfl
  | renew now hfrom => rw [hfrom]; rfl
  | pump hfrom => rw [hfrom]; rfl
  | select wake hfrom => rw [hfrom]; rfl
  | finished wake hfrom => rw [hfrom]; rfl
  | checkEmpty wake hfrom => rw [hfrom]; rfl
  | idle wake hfrom => rw [hfrom]; rfl
  | handled lease total errorText status loadedUrl hfrom => rw [hfrom]; rfl
  | exits outcome hfrom => rw [hfrom]; rfl

theorem Tallies.frame (h : Tallies s q journal) {new : List Note}
    (haccumulated : t.accumulated = s.accumulated)
    (hoverrides : ∀ key, s.overrides.lookup key = none → t.overrides.lookup key = none)
    (hspent : ∀ key, spent key (new ++ journal) = spent key journal)
    (hplace : ∀ key, q'.place key = .handled ↔ q.place key = .handled)
    (hclosing : closing t.phase = closing s.phase)
    (hleaving : t.phase.leaving = false → s.phase.leaving = false) :
    Tallies t q' (new ++ journal) where
  accumulated := by
    intro hl key hp hc
    rw [haccumulated, hspent]
    exact h.accumulated (hleaving hl) key (fun hq => hp ((hplace key).mpr hq))
      fun total => hclosing ▸ hc total
  closed := by
    intro key total hc
    obtain ⟨hnone, hzero, hreport⟩ := h.closed key total (hclosing ▸ hc)
    rw [haccumulated, hspent]
    exact ⟨hoverrides key hnone, hzero, hreport⟩
  handled := by
    intro key hp
    obtain ⟨hnone, hzero⟩ := h.handled key ((hplace key).mp hp)
    rw [haccumulated]
    exact ⟨hoverrides key hnone, hzero⟩

theorem handled_of_consumes {op : QueueOp} (h : q.Consumes op q') {key : String}
    (hk : q'.place key = .handled) :
    q.place key = .handled ∨
      ∃ lease r, op = .markHandled lease ∧ q.place key = .leased lease.leaseId r := by
  obtain ⟨lease, k, r, place, hret, hgoes, hlive, -, hplace⟩ := h.inv
  rw [hplace] at hk
  split_ifs at hk with heq
  · subst heq hk
    cases op <;> cases hret <;> cases hgoes
    exact .inr ⟨lease, r, rfl, hlive⟩
  · exact .inl hk

theorem handled_of_reacts {call : Option (QueueOp × StorageResult QueueReply)}
    (h : q.Reacts [] call q') {key : String} (hk : q'.place key = .handled) :
    q.place key = .handled ∨ ∃ lease reply r, call = some (.markHandled lease, reply) ∧
      q.place key = .leased lease.leaseId r := by
  cases call with
  | none =>
    cases h
    exact .inl hk
  | some call =>
    obtain ⟨op, reply⟩ := call
    have h : LeaseQueue.Answers q op reply q' := by
      have hr : LeaseQueue.Answers (q.withdraw []) op reply q' := h
      rwa [LeaseQueue.withdraw_nil] at hr
    have hconsumed : q.Consumes op q' → q.place key = .handled ∨ ∃ lease reply' r,
        some (op, reply) = some (.markHandled lease, reply') ∧
          q.place key = .leased lease.leaseId r := by
      intro hc
      obtain hold | ⟨lease, r, rfl, hlive⟩ := handled_of_consumes hc hk
      · exact .inl hold
      · exact .inr ⟨lease, reply, r, rfl, hlive⟩
    cases h with
    | leased lease k bound waiting fresh =>
      rw [LeaseQueue.place_grant] at hk
      split_ifs at hk
      exact .inl hk
    | consumed op _ hc => exact hconsumed hc
    | refused op e _ hq =>
      obtain rfl | hc := hq
      · exact .inl hk
      · exact hconsumed hc
    | _ => exact .inl hk

theorem handled_iff_of_reacts {call : Option (QueueOp × StorageResult QueueReply)}
    (h : q.Reacts [] call q') (hcall : ∀ lease reply, call ≠ some (.markHandled lease, reply))
    (key : String) : q'.place key = .handled ↔ q.place key = .handled := by
  refine ⟨?_, h.handled⟩
  intro hk
  obtain hold | ⟨lease, reply, r, hmark, -⟩ := handled_of_reacts h hk
  · exact hold
  · exact absurd hmark (hcall lease reply)

section Ended
variable {slot consulted : ℕ} {state : SlotState} {joined : Joined} {now : Instant}
  {handledAt : ℤ} {wake : Option Instant}

theorem Tallies.concluded (h : Tallies s q journal) (hp : s.phase = .selecting wake)
    (hopen : q.place state.lease.request.uniqueKey ≠ .handled)
    {lease : Lease} {error : Option CrawlError} {duration : Duration}
    {observation : AttemptObservation} {clock : Instant} {inFlight : List ℕ}
    {host : Option String}
    (hend : ending state joined now = some (lease, error, duration, observation))
    (hkey : lease.request.uniqueKey = state.lease.request.uniqueKey)
    (ht : t = conclude opts { s with clock, inFlight, slots := s.slots.erase slot } lease host error
      duration observation now handledAt consulted) :
    Tallies t q (endNotes opts state joined now consulted t ++ journal) := by
  have hcases := conclude_cases opts { s with clock, inFlight, slots := s.slots.erase slot } lease
    host error duration observation now handledAt consulted
  simp only [← ht, hkey] at hcases
  have hbefore : ∀ key, q.place key ≠ .handled →
      (s.accumulated.lookup key).getD 0 = spent key journal := by
    intro key hk
    exact h.accumulated (by rw [hp]; rfl) key hk fun total hc => by rw [hp] at hc; cases hc
  have hne : ∀ key, q.place key = .handled → key ≠ state.lease.request.uniqueKey := by
    rintro key hk rfl
    exact hopen hk
  obtain ⟨error', lease', rotates, rfl, heligible, hphase, -, haccumulated, hoverrides⟩ |
    ⟨c, hphase, hcloses, hclosekey, htotal, haccumulated, hoverrides⟩ := hcases
  · rw [endNotes_retried hend hphase]
    refine ⟨?_, ?_, ?_⟩
    · intro _ key hk _
      rw [haccumulated, AList.lookup_insert_ite]
      simp only [List.cons_append, List.nil_append, spent]
      by_cases heq : key = state.lease.request.uniqueKey
      · rw [if_pos heq, if_pos heq.symm, ← hbefore key hk, heq, hkey]
        rfl
      · rw [if_neg heq, if_neg (Ne.symm heq), Nat.add_zero]
        exact hbefore key hk
    · intro key total hc
      rw [hphase] at hc
      cases hc
    · intro key hk
      obtain ⟨hnone, hzero⟩ := h.handled key hk
      rw [haccumulated, AList.lookup_insert_ite, if_neg (hne key hk), hoverrides]
      refine ⟨?_, hzero⟩
      split
      · rw [AList.lookup_insert_ite, if_neg (hne key hk), hnone]
      · exact hnone
  · rw [endNotes_closed hend hphase hcloses]
    have hclosing : closing t.phase = some (state.lease.request.uniqueKey, c.total) := by
      rw [hphase, closing, if_pos hcloses, hclosekey]
    refine ⟨?_, ?_, ?_⟩
    · intro _ key hk hc
      have heq : key ≠ state.lease.request.uniqueKey := by
        rintro rfl
        exact hc _ hclosing
      rw [haccumulated, AList.lookup_erase_ite, if_neg heq]
      simp only [List.cons_append, List.nil_append, spent]
      rw [if_neg (Ne.symm heq), Nat.add_zero]
      exact hbefore key hk
    · intro key total hc
      rw [hclosing] at hc
      cases hc
      rw [haccumulated, hoverrides, AList.lookup_erase_ite, AList.lookup_erase_ite, if_pos rfl,
        if_pos rfl]
      refine ⟨rfl, rfl, ?_⟩
      intro reported hr
      rw [htotal reported hr, hkey, List.cons_append, List.nil_append, spent, if_pos rfl,
        ← hbefore _ hopen]
    · intro key hk
      obtain ⟨hnone, hzero⟩ := h.handled key hk
      rw [haccumulated, hoverrides, AList.lookup_erase_ite, AList.lookup_erase_ite,
        if_neg (hne key hk), if_neg (hne key hk)]
      exact ⟨hnone, hzero⟩

end Ended

section Answered
variable {c : Completing} {op : QueueOp} {reply : StorageResult Unit} {statistics : Statistics}
  {results : List HandledRequest} {phase : Phase}

theorem closing_of_markHandled {lease : Lease} (h : c.op = some (.markHandled lease)) :
    closing (.completing c) = some (lease.request.uniqueKey, c.total) := by
  cases c <;> cases h <;> rfl

theorem handled_of_settles (h : Settles s c reply statistics results phase)
    (hcloses : c.closes = true) (hop : c.op = some op) (hstays : phase.leaving = false) :
    reply = .ok () ∧ op = .markHandled c.lease := by
  cases h with
  | finished lease total observation handled =>
    cases hop
    exact ⟨rfl, rfl⟩
  | failed lease total errorText status loadedUrl handled =>
    cases hop
    exact ⟨rfl, rfl⟩
  | abandoned lease => cases hcloses
  | reclaimed lease rotates => cases hcloses
  | critical lease error reply outcome => cases hstays
  | refused c e outcome => cases hstays

theorem place_of_markHandled {lease : Lease}
    (hr : q.Responds [] (.markHandled lease) (.ok .unit) q')
    (hk : q.issued lease.leaseId = some lease.request.uniqueKey) :
    q'.place lease.request.uniqueKey = .handled := by
  cases hr with
  | consumed op _ hc =>
    obtain ⟨lease', key, r, place, hret, hgoes, hlive, -, hplace⟩ := hc.inv
    cases hret
    cases hgoes
    have hissued := (q.withdraw []).issued_of_leased _ _ _ hlive
    rw [LeaseQueue.issued_withdraw, hk] at hissued
    rw [hplace, if_pos (Option.some.inj hissued)]

theorem Tallies.answered (h : Tallies s q journal) (hkeyed : Keyed ⟨s, q⟩) {new : List Note}
    (hfrom : s.phase = .completing c) (hop : c.op = some op)
    (hset : Settles s c reply statistics results phase)
    (hans : q.Reacts [] (some (op, unitReply reply)) q')
    (haccumulated : t.accumulated = s.accumulated) (hoverrides : t.overrides = s.overrides)
    (hphase : t.phase = phase) (hspent : ∀ key, spent key (new ++ journal) = spent key journal) :
    Tallies t q' (new ++ journal) := by
  have hheld : c.lease ∈ held s := by simp [held, hfrom, Phase.leases]
  have hclosing : closing t.phase = none := by
    rw [hphase]
    cases hset <;> rfl
  refine ⟨?_, ?_, ?_⟩
  · intro hl key hk _
    rw [haccumulated, hspent]
    refine h.accumulated (by rw [hfrom]; rfl) key (fun hq => hk (hans.handled hq)) ?_
    intro total hc
    rw [hfrom, closing] at hc
    split_ifs at hc with hcloses
    cases hc
    obtain ⟨rfl, rfl⟩ := handled_of_settles hset hcloses hop (hphase ▸ hl)
    exact hk (place_of_markHandled hans (hkeyed.leases c.lease hheld))
  · intro key total hc
    rw [hclosing] at hc
    cases hc
  · intro key hk
    rw [haccumulated, hoverrides]
    obtain hold | ⟨lease, reply', r, hmark, hlive⟩ := handled_of_reacts hans hk
    · exact h.handled key hold
    · cases hmark
      have hissued := q.issued_of_leased _ _ _ hlive
      have hlease : lease = c.lease := by
        have hret := Completing.returned_op hop
        exact Option.some.inj hret
      rw [hlease, hkeyed.leases c.lease hheld] at hissued
      obtain ⟨hnone, hzero, -⟩ := h.closed key c.total (by
        rw [hfrom, closing_of_markHandled hop, hlease, Option.some.inj hissued])
      exact ⟨hnone, hzero⟩

end Answered

theorem spent_reports (handled : List HandledRequest) (key : String) :
    spent key ((handled.map fun h => .reported h.request.uniqueKey h.duration) ++ journal) =
      spent key journal := by
  induction handled with
  | nil => rfl
  | cons h handled ih => exact ih

theorem Tallies.move (h : Tallies s q journal) (hkeyed : Keyed ⟨s, q⟩) (hlive : Live ⟨s, q⟩)
    (hsound : Sound opts s) (hfresh : FreshLeases t.log) (hstep : step opts s e = some t)
    (hkeys : KeepsKey s e) (hans : q.Reacts [] (queueCall s e) q') :
    Tallies t q' (notes opts s e t ++ journal) := by
  have hm := step_move hstep
  have hleaving := stays_of_move hm hsound hfresh
  cases hm with
  | quiet clock cancelled drain draining mode limiter phase hc hmode hl hphase hq =>
    rw [notes_eq_nil hstep rfl ?_ rfl]
    · refine h.frame rfl (fun _ hk => hk) (fun _ => rfl) (handled_iff_of_reacts hans ?_)
        (PhaseMove.closing_eq hphase) hleaving
      intro lease reply hcall
      rw [hcall] at hq
      exact hq.elim
    · intro lease hcall
      rw [hcall] at hq
      exact hq lease rfl
  | panic clock _ hc hlost hq ht hi => exact (hsound.no_panic hlost).elim
  | gather clock drain draining next hc hfrom hq =>
    rw [notes_eq_nil hstep rfl (by simp [hq]) rfl]
    refine h.frame rfl (fun _ hk => hk) (fun _ => rfl) (handled_iff_of_reacts hans (by simp [hq]))
      ?_ hleaving
    obtain ⟨hfrom, -⟩ | ⟨outcome, hfrom, -⟩ := hfrom <;> rw [hfrom] <;> rfl
  | release clock outcome hc hfrom hi hq =>
    rw [notes_eq_nil hstep rfl (by simp [hq]) rfl]
    exact h.frame rfl (fun _ hk => hk) (fun _ => rfl) (handled_iff_of_reacts hans (by simp [hq]))
      (by rw [hfrom]; rfl) hleaving
  | renewed due i sequence entry hfrom hi he hq =>
    rw [notes_eq_nil hstep rfl (by simp [hq]) rfl]
    exact h.frame rfl (fun _ hk => hk) (fun _ => rfl) (handled_iff_of_reacts hans (by simp [hq]))
      (by rw [hfrom]; rfl) hleaving
  | postponed now started tokenWait desired readyAt sequence rest entry limiter wait phase _ hc hn
      hfrom hlt hd hr he hl ht hafter =>
    subst ht
    rw [notes_eq_nil hstep rfl (by simp [queueCall]) rfl]
    refine h.frame rfl (fun _ hk => hk) (fun _ => rfl)
      (handled_iff_of_reacts hans (by simp [queueCall])) ?_ hleaving
    rw [hfrom]
    cases hafter <;> rfl
  | started now started desired readyAt sequence rest entry limiter hc hn hfrom hlt hd hr he hl =>
    simp only [notes, List.length_append, List.length_singleton, Nat.lt_succ_self, if_true,
      popped_eq hfrom hlt hd hr he]
    exact h.frame rfl (fun _ hk => hk) (fun _ => rfl)
      (handled_iff_of_reacts hans (by simp [queueCall])) rfl hleaving
  | fetched desired lease readyNow stdNow renewNow overrides carried readyAt renewAt h₁ h₂ h₃ hfrom
      hr hw =>
    simp only [step, hfrom] at hstep
    rw [if_pos ⟨h₁, h₂, h₃⟩] at hstep
    rw [← Option.some.inj hstep]
    refine h.frame rfl ?_ (fun _ => rfl) (handled_iff_of_reacts hans (by simp [queueCall]))
      (by rw [hfrom]; rfl) (fun _ => by rw [hfrom]; rfl)
    intro key hk
    simp only [Engine.fetched, AList.lookup_erase_ite, hk, ite_self]
  | cancelledAttempt wake slot state now handledAt consulted hc hfrom hslot hs =>
    rw [notes_cancelled hs]
    exact h.frame rfl (fun _ hk => hk) (fun _ => rfl)
      (handled_iff_of_reacts hans (by simp [queueCall])) (by rw [hfrom]; rfl) hleaving
  | concluded wake slot state joined now handledAt consulted lease error observation choice c
      accumulated overrides statistics mode limiter hc hfrom hslot hs hends hcon hfin hfail hret
      hmode hl =>
    simp only [notes, hs]
    obtain ⟨duration, hend⟩ : ∃ duration,
        ending state joined now = some (lease, error, duration, observation) := by
      cases hends <;> exact ⟨_, rfl⟩
    have hheld := mem_held_of_slot hs
    obtain ⟨r, hplace⟩ := hlive.place hheld (hkeyed.leases state.lease hheld)
    cases hans
    exact h.concluded hfrom (fun hk => (by cases hplace.symm.trans hk)) hend
      (Ends.uniqueKey hends hkeys hs)
      (step_concluded hstep hs hend)
  | answered c how op reply statistics results phase hfrom hop hhow hset =>
    simp only [queueCall, hfrom, hop, Option.map_some] at hans
    exact h.answered hkeyed hfrom hop hset hans rfl rfl rfl (spent_reports _)
  | joined slot outcome hfrom hslot =>
    exact h.frame rfl (fun _ hk => hk) (fun _ => rfl)
      (handled_iff_of_reacts hans (by simp [queueCall])) rfl hleaving
  | dropped rest i lease reply phase hi hfrom hq =>
    rw [notes_eq_nil hstep rfl (by simp [hq]) rfl]
    refine h.frame rfl (fun _ hk => hk) (fun _ => rfl) (handled_iff_of_reacts hans (by simp [hq]))
      ?_ hleaving
    obtain ⟨outcome, hfrom, rfl⟩ | ⟨next, hfrom, rfl⟩ := hfrom <;> rw [hfrom] <;> rfl

/-- Every attempt is started with what its request is owed, and no earlier than the backoff
after its lease was fetched; every report is of the time that the attempts have taken. -/
structure Faithful (journal : List Note) : Prop where
  starts : ∀ key carried time older, .started key carried time :: older <:+ journal →
    carried = owed key older ∧ ∃ fetch, fetchTime key older = some fetch ∧
      fetch + carried.backoff.getD 0 ≤ time
  reports : ∀ key duration older, .reported key duration :: older <:+ journal →
    duration = spent key older

theorem faithful_nil : Faithful [] := by
  constructor
  · intro key carried time older h
    exact nomatch List.suffix_nil.mp h
  · intro key duration older h
    exact nomatch List.suffix_nil.mp h

theorem Faithful.cons (h : Faithful journal) {note : Note}
    (hstart : ∀ key carried time, note = .started key carried time →
      carried = owed key journal ∧ ∃ fetch, fetchTime key journal = some fetch ∧
        fetch + carried.backoff.getD 0 ≤ time)
    (hreport : ∀ key duration, note = .reported key duration → duration = spent key journal) :
    Faithful (note :: journal) where
  starts := by
    intro key carried time older hsuffix
    obtain heq | hsuffix := List.suffix_cons_iff.mp hsuffix
    · cases heq
      exact hstart key carried time rfl
    · exact h.starts key carried time older hsuffix
  reports := by
    intro key duration older hsuffix
    obtain heq | hsuffix := List.suffix_cons_iff.mp hsuffix
    · cases heq
      exact hreport key duration rfl
    · exact h.reports key duration older hsuffix

theorem Faithful.fetched (h : Faithful journal) (key : String) (time : Instant) :
    Faithful (.fetched key time :: journal) :=
  h.cons (fun _ _ _ hn => nomatch hn) fun _ _ hn => nomatch hn

theorem Faithful.endNotes (h : Faithful journal) (opts : EngineOptions) (state : SlotState)
    (joined : Joined) (now : Instant) (consulted : ℕ) (t : State) :
    Faithful (endNotes opts state joined now consulted t ++ journal) := by
  have hended : ∀ key duration, Faithful (.ended key duration :: journal) :=
    fun key duration => h.cons (fun _ _ _ hn => (by cases hn)) fun _ _ hn => (by cases hn)
  simp only [Engine.endNotes]
  split
  · exact h
  · split
    · exact (hended _ _).cons (fun _ _ _ hn => (by cases hn)) fun _ _ hn => (by cases hn)
    · exact hended _ _

theorem notes_answered {reply : StorageResult Unit}
    (h : step opts s (.answered reply) = some t) :
    notes opts s (.answered reply) t = [] ∨ ∃ key total,
      closing s.phase = some (key, some total) ∧
        notes opts s (.answered reply) t = [.reported key total] := by
  simp only [step] at h
  split at h
  · rename_i c hp
    rw [hp]
    cases c with
    | markFinished lease total observation =>
      cases reply with
      | ok _ =>
        cases h
        exact .inr ⟨lease.request.uniqueKey, total, rfl, by simp [notes, offer, logCall]⟩
      | error e =>
        cases h
        exact .inl (by simp [notes, beginAbort, logCall])
    | markFailed lease total errorText status loadedUrl =>
      cases reply with
      | ok _ =>
        cases h
        exact .inr ⟨lease.request.uniqueKey, total, rfl, by simp [notes, offer, logCall]⟩
      | error e =>
        cases h
        exact .inl (by simp [notes, beginAbort, logCall])
    | failedHandler lease total errorText status loadedUrl => cases h
    | _ =>
      cases reply <;> cases h <;> exact .inl (by simp [notes, beginAbort, logCall])
  · cases h

theorem popped_inv {now : Instant} {entry : DeferredStart} {rest : List (Instant × ℕ)}
    (h : popped s now = some (entry, rest)) :
    ∃ readyAt sequence, s.deferred = (readyAt, sequence) :: rest ∧ readyAt ≤ now ∧
      s.deferredEntries.lookup sequence = some entry := by
  simp only [popped] at h
  split at h
  · rename_i desired readyAt sequence rest' hp hd
    split_ifs at h with hready
    obtain ⟨entry', he, heq⟩ := Option.map_eq_some_iff.mp h
    cases heq
    exact ⟨readyAt, sequence, hd, hready.2, he⟩
  · cases h

theorem Faithful.move (h : Faithful journal) (hbooks : Books s journal)
    (htallies : Tallies s q journal) (hstep : step opts s e = some t) :
    Faithful (notes opts s e t ++ journal) := by
  cases e with
  | run now tokenWait started =>
    simp only [notes]
    split
    · split
      · rename_i entry rest hpopped
        obtain ⟨readyAt, sequence, hd, hready, he⟩ := popped_inv hpopped
        refine h.cons ?_ fun _ _ hn => (by cases hn)
        intro key carried time hn
        cases hn
        refine ⟨(hbooks.carried sequence entry he).1, ?_⟩
        have hmem : (readyAt, sequence) ∈ s.deferred := by
          rw [hd]
          exact List.mem_cons_self
        obtain ⟨fetch, hfetch, hdue⟩ := hbooks.due readyAt sequence entry hmem he
        refine ⟨fetch, hfetch, ?_⟩
        simp only [step] at hstep
        split_ifs at hstep with hclock
        exact (hdue.trans hready).trans hclock.2
      · exact h
    · exact h
  | fetched reply readyNow stdNow renewNow =>
    obtain _ | _ | _ | lease := reply
    · exact h
    · exact h
    · exact h
    · exact h.fetched _ _
  | completed slot joined now handledAt consulted =>
    simp only [notes]
    split
    · exact h.endNotes _ _ _ _ _ _
    · exact h
  | answered reply =>
    obtain hnone | ⟨key, total, hclosing, hone⟩ := notes_answered hstep
    · rw [hnone]
      exact h
    · rw [hone]
      refine h.cons (fun _ _ _ hn => (by cases hn)) ?_
      intro k duration hn
      cases hn
      exact (htallies.closed key (some total) hclosing).2.2 total rfl
  | _ => exact h

structure Recorded where
  system : System
  journal : List Note

def RecordedStep (opts : EngineOptions) (r : Recorded) (ev : SystemEvent) (r' : Recorded) :
    Prop :=
  Step opts r.system ev r'.system ∧ r'.journal = (match ev with
    | .engine e _ => notes opts r.system.engine e r'.system.engine
    | .add _ => []) ++ r.journal

/-- The queue takes back no lease in use, and hooks leave `unique_key` unchanged. -/
structure Respects (r : Recorded) (ev : SystemEvent) : Prop where
  exclusive : Exclusive r.system ev
  keys : ∀ e expired, ev = .engine e expired → KeepsKey r.system.engine e

structure InOrder (opts : EngineOptions) (r : Recorded) : Prop where
  linked : Linked opts r.system
  live : Live r.system
  keyed : Keyed r.system
  books : Books r.system.engine r.journal
  tallies : Tallies r.system.engine r.system.queue r.journal
  faithful : Faithful r.journal

theorem Tallies.added (h : Tallies s q journal) (request : Request) :
    Tallies s (q.add request) journal := by
  have hplace : ∀ key, (q.add request).place key = .handled ↔ q.place key = .handled := by
    intro key
    obtain heq | ⟨-, hunknown, hpending⟩ := q.place_add request key
    · rw [heq]
    · simp [hunknown, hpending]
  rw [← List.nil_append journal]
  exact h.frame rfl (fun _ hk => hk) (fun _ => rfl) hplace rfl id

theorem Keyed.withdraw (h : Keyed ⟨s, q⟩) (expired : List LeaseId) :
    Keyed ⟨s, q.withdraw expired⟩ :=
  ⟨keyedQueue_withdraw h.queue expired, h.leases⟩

theorem InOrder.step {r r' : Recorded} {ev : SystemEvent} (h : InOrder opts r)
    (hrespects : Respects r ev) (hs : RecordedStep opts r ev r') : InOrder opts r' := by
  obtain ⟨⟨s, q⟩, journal⟩ := r
  obtain ⟨⟨t, q'⟩, journal'⟩ := r'
  obtain ⟨hstep, hjournal⟩ := hs
  simp only at hstep hjournal
  have hlinked := h.linked.step hstep
  have hlive := h.live.step h.linked hstep hrespects.exclusive
  have hkeyed := h.keyed.step h.linked hstep hrespects.keys
  cases hstep with
  | dispatched hstep hans =>
    obtain ⟨gone, hgone, hans⟩ := hans.after_withdraw
    have hkeep : ∀ lease ∈ held _, lease.leaseId ∉ gone :=
      fun lease hm hmem => hrespects.exclusive lease hm (hgone hmem)
    have hkeyed' := h.keyed.withdraw gone
    have hlive' := h.live.withdraw hkeep
    have hkeys := hrespects.keys _ _ rfl
    have hsound := h.linked.accounted.sound
    rw [hjournal]
    refine ⟨hlinked, hlive, hkeyed, ?_, ?_, ?_⟩
    · refine h.books.move (h.keyed.apart h.linked h.live) hsound hlinked.fresh hstep hkeys ?_
      intro lease hcall other hother
      rw [hcall] at hans
      exact hkeyed'.fetched_ne hlive' hans hother
    · exact (h.tallies.withdraw gone).move hkeyed' hlive' hsound hlinked.fresh hstep hkeys hans
    · exact h.faithful.move h.books h.tallies hstep
  | added request =>
    rw [hjournal]
    exact ⟨hlinked, hlive, hkeyed, h.books, h.tallies.added request, h.faithful⟩

theorem inOrder_start (statistics : Statistics) (limiter : DomainLimiter) (clock : Instant)
    {q : LeaseQueue} (hq : KeyedQueue q) :
    InOrder opts ⟨⟨start opts statistics limiter clock, q⟩, []⟩ where
  linked := linked_start statistics limiter clock q
  live := live_start statistics limiter clock q
  keyed := ⟨hq, fun _ hl => (nomatch hl)⟩
  books := books_start statistics limiter clock
  tallies := tallies_start statistics limiter clock q
  faithful := faithful_nil

/-- The overrides of a directive go to the attempt that it authorises and to no other, after
the backoff; and a handled request leaves nothing behind but a report of all the time that
its attempts have taken. -/
theorem overrides_reach_next_attempt (opts : EngineOptions) (statistics : Statistics)
    (limiter : DomainLimiter) (clock : Instant) (q : LeaseQueue) (hq : KeyedQueue q)
    (es : List SystemEvent) (r : Recorded)
    (run : Machine.Run (Machine.Guarded Respects (RecordedStep opts))
      ⟨⟨start opts statistics limiter clock, q⟩, []⟩ es r) :
    (∀ key carried time older, .started key carried time :: older <:+ r.journal →
      carried = owed key older ∧ ∃ fetch, fetchTime key older = some fetch ∧
        fetch + carried.backoff.getD 0 ≤ time) ∧
    (∀ key, r.system.queue.place key = .handled →
      r.system.engine.overrides.lookup key = none ∧
        r.system.engine.accumulated.lookup key = none) ∧
    ∀ key duration older, .reported key duration :: older <:+ r.journal →
      duration = spent key older := by
  have h : InOrder opts r := by
    refine Machine.run_invariant ?_ run (inOrder_start statistics limiter clock hq)
    rintro r ev r' hr ⟨hrespects, hstep⟩
    exact hr.step hrespects hstep
  exact ⟨h.faithful.starts, h.tallies.handled, h.faithful.reports⟩

-- A page that is retried once, under another profile and after a pause.
def record (opts : EngineOptions) (s : State) (journal : List Note) :
    List Event → Option (State × List Note × List (QueueOp × StorageResult QueueReply))
  | [] => some (s, journal, [])
  | e :: es =>
    if KeepsKey s e then
      (step opts s e).bind fun t =>
        (record opts t (notes opts s e t ++ journal) es).map fun (u, journal, calls) =>
          (u, journal, (queueCall s e).toList ++ calls)
    else none

inductive Serves : LeaseQueue → List (QueueOp × StorageResult QueueReply) → LeaseQueue → Prop
  | nil (q : LeaseQueue) : Serves q [] q
  | cons {q q' q'' : LeaseQueue} {call : QueueOp × StorageResult QueueReply}
      {calls : List (QueueOp × StorageResult QueueReply)} :
      q.Reacts [] (some call) q' → Serves q' calls q'' → Serves q (call :: calls) q''

theorem run_of_record {es : List Event} {journal' : List Note}
    {calls : List (QueueOp × StorageResult QueueReply)}
    (h : record opts s journal es = some (t, journal', calls)) (hserves : Serves q calls q') :
    Machine.Run (Machine.Guarded Respects (RecordedStep opts)) ⟨⟨s, q⟩, journal⟩
      (es.map quietly) ⟨⟨t, q'⟩, journal'⟩ := by
  induction es generalizing s q journal calls with
  | nil =>
    cases h
    cases hserves
    exact .nil _
  | cons e es ih =>
    simp only [record] at h
    split_ifs at h with hkeys
    obtain ⟨u, hstep, h⟩ := Option.bind_eq_some_iff.mp h
    obtain ⟨⟨v, final, rest⟩, hrest, heq⟩ := Option.map_eq_some_iff.mp h
    cases heq
    obtain ⟨q₁, hreacts, hserves⟩ : ∃ q₁, q.Reacts [] (queueCall s e) q₁ ∧ Serves q₁ rest q' := by
      cases hcall : queueCall s e with
      | none =>
        rw [hcall] at hserves
        exact ⟨q, rfl, hserves⟩
      | some call =>
        rw [hcall] at hserves
        cases hserves with
        | cons hreacts hserves => exact ⟨_, hreacts, hserves⟩
    have hone : Machine.Guarded Respects (RecordedStep opts) ⟨⟨s, q⟩, journal⟩ (quietly e)
        ⟨⟨u, q₁⟩, notes opts s e u ++ journal⟩ := by
      refine ⟨⟨fun _ _ hm => (nomatch hm), ?_⟩, .dispatched hstep hreacts, rfl⟩
      intro e' expired he
      cases he
      exact hkeys
    exact ((Machine.Run.nil _).snoc hone).append (ih hrest hserves)

def switching : RetryStrategy where
  maxRetries := 1
  onRetry := fun _ _ =>
    { shouldRetry := true, userAgentProfile := some "mobile", backoff := some 7 }

def switchingProfile : EngineOptions :=
  { singleSlot with retry := { singleSlot.retry with retryStrategy := some switching } }

def page : Request := .get ⟨"data:,", none⟩ "data:,"

def pageAgain : Request := retriedRequest page "retryable: down" false

def attempt (leaseId : LeaseId) (request : Request) (fetch now done : Instant)
    (error : Option CrawlError) : List Event :=
  ticks fetch 4 ++ [.fetched (some (.ok (some (leaseOf leaseId request)))) fetch fetch fetch] ++
    ticks now 3 ++
    [.completed leaseId (.finished { error, duration := done - now, request, observation := {} })
      done 0 0, .answered (.ok ())]

def retriedCrawl : List Event :=
  attempt 0 page 0 0 5 (some (.retry (.msg "down"))) ++ attempt 1 pageAgain 5 12 20 none

def retriedJournal : List Note :=
  [.reported "data:," 13, .ended "data:," 8,
   .started "data:," { userAgentProfile := some "mobile", backoff := some 7 } 12,
   .fetched "data:," 5,
   .authorised "data:," { userAgentProfile := some "mobile", backoff := some 7 },
   .ended "data:," 5, .started "data:," {} 0, .fetched "data:," 0]

def failedLease : Lease :=
  { leaseOf 0 page with request := pushError page "retryable: down" }

def doneLease : Lease :=
  { leaseOf 1 pageAgain with
    request := { pageAgain with state := .done, handledAt := some 0 } }

def retriedCalls : List (QueueOp × StorageResult QueueReply) :=
  [(.fetchNext, .ok (.leased (some (leaseOf 0 page)))),
   (.reclaim failedLease { forefront := false, incrementRetry := true }, .ok .unit),
   (.fetchNext, .ok (.leased (some (leaseOf 1 pageAgain)))), (.markHandled doneLease, .ok .unit)]

theorem record_retriedCrawl : ∃ t,
    record switchingProfile (start switchingProfile {} ∅ 0) [] retriedCrawl =
      some (t, retriedJournal, retriedCalls) := ⟨_, rfl⟩

theorem keyedQueue_waiting : KeyedQueue (waiting [page]) := by
  intro key request hs
  simp only [Stored, waiting, List.find?_cons, List.find?_nil] at hs
  split at hs
  · rename_i r hr
    split at hr
    · rename_i hkey
      cases hr
      obtain hs | ⟨leaseId, hs⟩ := hs
      · cases hs
        exact beq_iff_eq.mp hkey
      · cases hs
    · cases hr
  · obtain hs | ⟨leaseId, hs⟩ := hs
    · cases hs
    · cases hs

theorem serves_retriedCalls :
    ∃ q, Serves (waiting [page]) retriedCalls q ∧ q.place "data:," = .handled := by
  have hwait : ((waiting [page]).withdraw []).place "data:," = .pending page := by
    simp [waiting, page, Request.get]
  let q₁ := ((waiting [page]).withdraw []).grant "data:," 0 page rfl
  have hleased : (q₁.withdraw []).place "data:," = .leased 0 page := by
    rw [LeaseQueue.withdraw_nil]
    exact LeaseQueue.place_grant.trans (if_pos rfl)
  let q₂ := (q₁.withdraw []).put "data:," (.pending pageAgain) (by simp)
  have hagain : (q₂.withdraw []).place "data:," = .pending pageAgain := by
    rw [LeaseQueue.withdraw_nil]
    exact LeaseQueue.place_put.trans (if_pos rfl)
  let q₃ := (q₂.withdraw []).grant "data:," 1 pageAgain rfl
  have hleased' : (q₃.withdraw []).place "data:," = .leased 1 pageAgain := by
    rw [LeaseQueue.withdraw_nil]
    exact LeaseQueue.place_grant.trans (if_pos rfl)
  let q₄ := (q₃.withdraw []).put "data:," .handled (by simp)
  have h₁ : (waiting [page]).Reacts [] (some (.fetchNext, .ok (.leased (leaseOf 0 page)))) q₁ :=
    LeaseQueue.Answers.leased (leaseOf 0 page) "data:," (by decide) hwait rfl
  have h₂ : q₁.Reacts [] (some (.reclaim failedLease {}, .ok .unit)) q₂ :=
    LeaseQueue.Answers.consumed _ _ (.intro failedLease "data:," page _ rfl hleased rfl)
  have h₃ : q₂.Reacts [] (some (.fetchNext, .ok (.leased (leaseOf 1 pageAgain)))) q₃ :=
    LeaseQueue.Answers.leased (leaseOf 1 pageAgain) "data:," (by decide) hagain rfl
  have h₄ : q₃.Reacts [] (some (.markHandled doneLease, .ok .unit)) q₄ :=
    LeaseQueue.Answers.consumed _ _ (.intro doneLease "data:," pageAgain _ rfl hleased' rfl)
  exact ⟨q₄, .cons h₁ (.cons h₂ (.cons h₃ (.cons h₄ (.nil q₄)))),
    LeaseQueue.place_put.trans (if_pos rfl)⟩

theorem overrides_reach_next_attempt_retriedCrawl : ∃ r,
    Machine.Run (Machine.Guarded Respects (RecordedStep switchingProfile))
      ⟨⟨start switchingProfile {} ∅ 0, waiting [page]⟩, []⟩ (retriedCrawl.map quietly) r ∧
    r.journal = retriedJournal ∧
    { userAgentProfile := some "mobile", backoff := some 7 } =
      owed "data:," (retriedJournal.drop 3) ∧
    13 = spent "data:," (retriedJournal.drop 1) ∧
    r.system.queue.place "data:," = .handled ∧
    r.system.engine.overrides.lookup "data:," = none ∧
    r.system.engine.accumulated.lookup "data:," = none := by
  obtain ⟨t, ht⟩ := record_retriedCrawl
  obtain ⟨q, hserves, hplace⟩ := serves_retriedCalls
  have hrun := run_of_record ht hserves
  obtain ⟨hstarts, hhandled, hreports⟩ :=
    overrides_reach_next_attempt switchingProfile {} ∅ 0 _ keyedQueue_waiting _ _ hrun
  have hsecond : .started "data:," { userAgentProfile := some "mobile", backoff := some 7 } 12 ::
      retriedJournal.drop 3 <:+ retriedJournal := List.drop_suffix 2 retriedJournal
  have hreport : .reported "data:," 13 :: retriedJournal.drop 1 <:+ retriedJournal :=
    List.suffix_rfl
  exact ⟨_, hrun, rfl, (hstarts _ _ _ _ hsecond).1, hreports _ _ _ hreport, hplace,
    hhandled _ hplace⟩

end Millipede.System
