import Mathlib.Data.List.Perm.Subperm
import Millipede.Crawler.Moves
import Millipede.Library.Machine

/-!
# The leases of the dispatcher

Where the dispatcher keeps each lease it has fetched: in a slot beside a running attempt,
in the map of deferred starts, or in the phase that is handing it back. `Sound` ties the
maps to the heap and to the futures, so that the three `expect`s cannot fail; `Flow` says
how one step moves the leases, and conservation over whole runs follows.

Slot and sequence numbers are `u64` counters that wrap. They stay apart as long as the
queue hands out no lease identifier twice: identifiers are `u64` values too.
-/

namespace Millipede.Engine

def Effect.fetchedId : Effect → Option LeaseId
  | .fetched lease => some lease.leaseId
  | _ => none

def Effect.consumedId : Effect → Option LeaseId
  | .called _ lease _ => some lease.leaseId
  | _ => none

def Effect.isStarted : Effect → Bool
  | .started _ _ => true
  | _ => false

def fetchedIds (log : List Effect) : List LeaseId := log.filterMap Effect.fetchedId

/-- The leases that the dispatcher has passed to `mark_handled`, `reclaim` or `abandon`. -/
def consumedIds (log : List Effect) : List LeaseId := log.filterMap Effect.consumedId

def startCount (log : List Effect) : ℕ := log.countP Effect.isStarted

def held (s : State) : List Lease := slotLeases s ++ deferredLeases s ++ s.phase.leases

theorem mem_held_of_slot {s : State} {slot : ℕ} {state : SlotState}
    (h : s.slots.lookup slot = some state) : state.lease ∈ held s :=
  List.mem_append_left _ (List.mem_append_left _
    (List.mem_map_of_mem (AList.mem_values_iff.mpr ⟨slot, h⟩)))

theorem mem_held_of_deferred {s : State} {sequence : ℕ} {entry : DeferredStart}
    (h : s.deferredEntries.lookup sequence = some entry) : entry.lease ∈ held s :=
  List.mem_append_left _ (List.mem_append_right _
    (List.mem_map_of_mem (AList.mem_values_iff.mpr ⟨sequence, h⟩)))

/-- No identifier comes from the queue twice, and each is a `u64`. -/
def FreshLeases (log : List Effect) : Prop :=
  (fetchedIds log).Nodup ∧ ∀ id ∈ fetchedIds log, id < 2 ^ 64

theorem FreshLeases.count_le {log : List Effect} (h : FreshLeases log) :
    (fetchedIds log).length ≤ 2 ^ 64 := by
  have hsub : fetchedIds log ⊆ List.range (2 ^ 64) := by
    intro id hid
    exact List.mem_range.mpr (h.2 id hid)
  simpa using (List.subperm_of_subset h.1 hsub).length_le

theorem FreshLeases.of_cons {log : List Effect} {effect : Effect}
    (h : FreshLeases (effect :: log)) : FreshLeases log := by
  have hs : (fetchedIds log).Sublist (fetchedIds (effect :: log)) :=
    (List.sublist_cons_self effect log).filterMap _
  exact ⟨h.1.sublist hs, fun id hid => h.2 id (hs.subset hid)⟩

def AtPhase (opts : EngineOptions) (s : State) : Phase → Prop
  | .renewing due => due.Nodup ∧ ∀ sequence ∈ due, sequence ∈ s.deferredEntries.keys
  | .pumping desired => desired ≤ opts.pool.limit
  | .fetching desired =>
    desired ≤ opts.pool.limit ∧ s.inFlight.length < desired ∧ s.deferredEntries.len < s.deferredCap
  | .checkingFinished _ => s.inFlight = [] ∧ s.deferredEntries.entries = []
  | .checkingEmpty _ => s.inFlight = [] ∧ s.deferredEntries.entries = []
  | .idling _ => s.inFlight = [] ∧ s.deferredEntries.entries = []
  | .releasing _ _ => s.inFlight = []
  | .abandoning _ (.finish _) => s.inFlight = [] ∧ s.deferredEntries.entries = []
  | .returned _ => s.inFlight = [] ∧ s.deferredEntries.entries = []
  | .panicked => False
  | _ => True

def Phase.isJoining : Phase → Bool
  | .joining _ => true
  | _ => false

structure Sound (opts : EngineOptions) (s : State) : Prop where
  within : s.mode.Within opts.pool
  capacity : s.deferredCap = max opts.pool.limit minDeferredCapacity
  heap : (s.deferred.map Prod.snd).Perm s.deferredEntries.keys
  inFlight_nodup : s.inFlight.Nodup
  inFlight_slot : ∀ slot ∈ s.inFlight, slot ∈ s.slots.keys
  slot_inFlight : s.phase.isJoining = false → ∀ slot ∈ s.slots.keys, slot ∈ s.inFlight
  inFlight_le : s.inFlight.length ≤ opts.pool.limit
  deferred_le : s.deferredEntries.len ≤ s.deferredCap
  nextSlot : s.nextSlot = startCount s.log % 2 ^ 64
  nextDeferred : s.nextDeferred = (fetchedIds s.log).length % 2 ^ 64
  slot_lt : ∀ slot ∈ s.slots.keys, slot < startCount s.log
  sequence_lt : ∀ sequence ∈ s.deferredEntries.keys, sequence < (fetchedIds s.log).length
  started_le : startCount s.log + s.deferredEntries.len ≤ (fetchedIds s.log).length
  phase : AtPhase opts s s.phase

theorem heapPush_perm (x : Instant × ℕ) (heap : List (Instant × ℕ)) :
    (heapPush x heap).Perm (x :: heap) := by
  induction heap with
  | nil => exact .refl _
  | cons y ys ih =>
    simp only [heapPush]
    split_ifs
    · exact .refl _
    · exact (ih.cons y).trans (.swap x y ys)

variable {opts : EngineOptions} {s t : State} {e : Event}

theorem sound_start (statistics : Statistics) (limiter : DomainLimiter) (clock : Instant) :
    Sound opts (start opts statistics limiter clock) := by
  have hw := PoolMode.within_initial opts.pool
  constructor <;> simp [start, hw, AtPhase, startCount, fetchedIds, AList.len]

theorem ModeMove.within {pool : AutoscaledPool} {mode mode' : PoolMode}
    (h : ModeMove pool mode mode') (hw : mode.Within pool) : mode'.Within pool := by
  obtain rfl | ⟨decision, rfl⟩ | ⟨kind, rfl⟩ := h
  · exact hw
  · exact PoolMode.within_rescale hw decision
  · exact PoolMode.within_recordOutcome hw kind

theorem Sound.phaseMove (h : Sound opts s) {phase : Phase} (hm : PhaseMove opts s phase) :
    AtPhase opts s phase ∧
      (phase.isJoining = false → ∀ slot ∈ s.slots.keys, slot ∈ s.inFlight) := by
  have hp := h.phase
  have hslot := h.slot_inFlight
  cases hm with
  | stay => exact ⟨hp, hslot⟩
  | abort outcome _ => exact ⟨trivial, fun hj => nomatch hj⟩
  | scan hfrom =>
    refine ⟨trivial, fun _ => hslot ?_⟩
    obtain hfrom | hfrom := hfrom <;> rw [hfrom] <;> rfl
  | renew now hfrom =>
    refine ⟨⟨?_, ?_⟩, fun _ => hslot (by rw [hfrom]; rfl)⟩
    · have hsub : (dueEntries s now).Sublist s.deferredEntries.keys :=
        List.filter_sublist.map Sigma.fst
      exact s.deferredEntries.keys_nodup.sublist hsub
    · intro sequence hs
      exact (List.filter_sublist.map Sigma.fst).subset hs
  | pump hfrom =>
    refine ⟨?_, fun _ => hslot (by rw [hfrom]; rfl)⟩
    exact h.within.desired_le
  | fetch desired hfrom hf =>
    rw [hfrom] at hp
    exact ⟨⟨hp, hf.running, hf.room⟩, fun _ => hslot (by rw [hfrom]; rfl)⟩
  | settle desired hfrom =>
    refine ⟨trivial, fun _ => hslot ?_⟩
    obtain hfrom | hfrom := hfrom <;> rw [hfrom] <;> rfl
  | select wake hfrom => exact ⟨trivial, fun _ => hslot (by rw [hfrom]; rfl)⟩
  | check wake hfrom hi hd => exact ⟨⟨hi, hd⟩, fun _ => hslot (by rw [hfrom]; rfl)⟩
  | drained hfrom hi hd => exact ⟨⟨hi, hd⟩, fun _ => hslot (by rw [hfrom]; rfl)⟩
  | finished wake hfrom =>
    rw [hfrom] at hp
    exact ⟨hp, fun _ => hslot (by rw [hfrom]; rfl)⟩
  | checkEmpty wake hfrom =>
    rw [hfrom] at hp
    exact ⟨hp, fun _ => hslot (by rw [hfrom]; rfl)⟩
  | idle wake hfrom =>
    rw [hfrom] at hp
    exact ⟨hp, fun _ => hslot (by rw [hfrom]; rfl)⟩
  | again wake hfrom =>
    refine ⟨trivial, fun _ => hslot ?_⟩
    obtain hfrom | hfrom | hfrom := hfrom <;> rw [hfrom] <;> rfl
  | handled lease total errorText status loadedUrl hfrom =>
    exact ⟨trivial, fun _ => hslot (by rw [hfrom]; rfl)⟩
  | exits outcome hfrom =>
    rw [hfrom] at hp
    exact ⟨hp, fun _ => hslot (by rw [hfrom]; rfl)⟩

/-- The `expect`s of the dispatcher hold. -/
theorem Sound.no_panic (h : Sound opts s)
    (hlost : (∃ due sequence, s.phase = .renewing due ∧ sequence ∈ due ∧
          s.deferredEntries.lookup sequence = none) ∨
        (∃ desired readyAt sequence rest, s.phase = .pumping desired ∧
          s.deferred = (readyAt, sequence) :: rest ∧
          s.deferredEntries.lookup sequence = none) ∨
        ∃ slot ∈ s.inFlight, (∃ wake, s.phase = .selecting wake) ∧
          s.slots.lookup slot = none) : False := by
  obtain ⟨due, sequence, hp, hmem, hnone⟩ | ⟨desired, readyAt, sequence, rest, hp, hd, hnone⟩ |
    ⟨slot, hmem, -, hnone⟩ := hlost
  · have hphase := h.phase
    rw [hp] at hphase
    exact AList.lookup_eq_none.mp hnone (AList.mem_keys.mpr (hphase.2 sequence hmem))
  · have hin : sequence ∈ s.deferredEntries.keys := by
      apply h.heap.subset
      simp [hd]
    exact AList.lookup_eq_none.mp hnone (AList.mem_keys.mpr hin)
  · exact AList.lookup_eq_none.mp hnone (AList.mem_keys.mpr (h.inFlight_slot slot hmem))

theorem Sound.slot_free (h : Sound opts s) (hf : FreshLeases s.log) {sequence : ℕ}
    {entry : DeferredStart} (he : s.deferredEntries.lookup sequence = some entry) :
    s.nextSlot = startCount s.log ∧ startCount s.log + 1 ≤ 2 ^ 64 ∧
      s.slots.lookup s.nextSlot = none := by
  have hlen := AList.len_erase he
  have hle := h.started_le
  have hcount := hf.count_le
  have hslot := h.nextSlot
  rw [Nat.mod_eq_of_lt (by omega)] at hslot
  refine ⟨hslot, by omega, ?_⟩
  rw [AList.lookup_eq_none, AList.mem_keys]
  intro hmem
  have hlt := h.slot_lt _ hmem
  omega

theorem Sound.sequence_free (h : Sound opts s)
    (hroom : (fetchedIds s.log).length + 1 ≤ 2 ^ 64) :
    s.nextDeferred = (fetchedIds s.log).length ∧
      s.deferredEntries.lookup s.nextDeferred = none := by
  have hseq := h.nextDeferred
  rw [Nat.mod_eq_of_lt (by omega)] at hseq
  refine ⟨hseq, ?_⟩
  rw [AList.lookup_eq_none, AList.mem_keys]
  intro hmem
  have hlt := h.sequence_lt _ hmem
  omega

theorem Sound.started (h : Sound opts s) (hf : FreshLeases s.log) {clock started : Instant}
    {desired sequence : ℕ} {readyAt : Instant} {rest : List (Instant × ℕ)} {entry : DeferredStart}
    {limiter : DomainLimiter} (hp : s.phase = .pumping desired)
    (hlt : s.inFlight.length < desired) (hd : s.deferred = (readyAt, sequence) :: rest)
    (he : s.deferredEntries.lookup sequence = some entry) :
    Sound opts
      { s with
        clock
        limiter
        deferred := rest
        deferredEntries := s.deferredEntries.erase sequence
        nextSlot := (s.nextSlot + 1) % 2 ^ 64
        inFlight := s.inFlight ++ [s.nextSlot]
        slots := s.slots.insert s.nextSlot { lease := entry.lease, started }
        log := .started entry.lease started :: s.log } := by
  obtain ⟨hslot, hroom, hfree⟩ := h.slot_free hf he
  have hlen := AList.len_erase he
  have hkeys := AList.keys_perm_erase he
  have hnew : (s.slots.insert s.nextSlot { lease := entry.lease, started }).keys =
      s.nextSlot :: s.slots.keys := AList.keys_insert_new _ hfree
  have hcount : startCount (.started entry.lease started :: s.log) = startCount s.log + 1 :=
    List.countP_cons_of_pos rfl
  have hphase := h.phase
  have hle := h.started_le
  have hcap := h.deferred_le
  have hfetched : fetchedIds (.started entry.lease started :: s.log) = fetchedIds s.log := rfl
  rw [hp] at hphase
  exact { h with
    heap := by
      have hheap := h.heap.trans hkeys
      rw [hd, List.map_cons] at hheap
      exact hheap.cons_inv
    inFlight_nodup := by
      refine List.nodup_append.mpr ⟨h.inFlight_nodup, List.nodup_singleton _, ?_⟩
      intro a ha b hb hab
      have hmem := h.inFlight_slot a ha
      rw [hab, List.mem_singleton.mp hb] at hmem
      exact AList.lookup_eq_none.mp hfree (AList.mem_keys.mpr hmem)
    inFlight_slot := by
      intro slot hs
      rw [hnew]
      obtain hs | hs := List.mem_append.mp hs
      · exact List.mem_cons_of_mem _ (h.inFlight_slot slot hs)
      · simp [List.mem_singleton.mp hs]
    slot_inFlight := by
      intro _ slot hs
      rw [hnew] at hs
      obtain rfl | hs := List.mem_cons.mp hs
      · exact List.mem_append_right _ (List.mem_singleton_self _)
      · exact List.mem_append_left _ (h.slot_inFlight (by rw [hp]; rfl) slot hs)
    inFlight_le := by
      have htop : desired ≤ opts.pool.limit := hphase
      simp only [List.length_append, List.length_singleton]
      omega
    deferred_le := by
      simp only
      omega
    nextSlot := by
      simp only [hcount, hslot]
    slot_lt := by
      intro slot hs
      rw [hnew] at hs
      simp only [hcount]
      obtain rfl | hs := List.mem_cons.mp hs
      · omega
      · have := h.slot_lt slot hs
        omega
    sequence_lt := by
      intro k hk
      exact h.sequence_lt k (hkeys.mem_iff.mpr (List.mem_cons_of_mem _ hk))
    started_le := by
      simp only [hcount, hfetched]
      omega
    phase := by
      simp only [hp]
      exact hphase }

theorem Sound.fetched (h : Sound opts s) {lease : Lease} {clock : Instant} {desired : ℕ}
    {overrides : HashMap String AttemptOverrides} {carried : AttemptOverrides}
    {readyAt renewAt : Instant} (hf : FreshLeases (.fetched lease :: s.log))
    (hp : s.phase = .fetching desired) :
    Sound opts
      { s with
        clock
        overrides
        nextDeferred := (s.nextDeferred + 1) % 2 ^ 64
        deferred := heapPush (readyAt, s.nextDeferred) s.deferred
        deferredEntries := s.deferredEntries.insert s.nextDeferred
          { lease, carried, domainReserved := false, renewAt }
        phase := .pumping desired
        log := .fetched lease :: s.log } := by
  have hlog : (fetchedIds (.fetched lease :: s.log)).length = (fetchedIds s.log).length + 1 := rfl
  have hcount := hf.count_le
  rw [hlog] at hcount
  obtain ⟨hseq, hfree⟩ := h.sequence_free hcount
  have hnew := AList.keys_insert_new
    (DeferredStart.mk lease carried false renewAt) hfree
  have hlen := AList.len_insert_new
    (DeferredStart.mk lease carried false renewAt) hfree
  have hstarts : startCount (.fetched lease :: s.log) = startCount s.log := by
    exact List.countP_cons_of_neg (by simp [Effect.isStarted])
  have hphase := h.phase
  have hle := h.started_le
  rw [hp] at hphase
  exact { h with
    heap := by
      simp only [hnew]
      exact ((heapPush_perm _ _).map Prod.snd).trans (h.heap.cons _)
    slot_inFlight := by
      intro _ slot hs
      exact h.slot_inFlight (by rw [hp]; rfl) slot hs
    deferred_le := by
      have := hphase.2.2
      simp only [hlen]
      omega
    nextSlot := by
      simp only [hstarts]
      exact h.nextSlot
    nextDeferred := by
      simp only [hlog, hseq]
    slot_lt := by
      intro slot hs
      simp only [hstarts]
      exact h.slot_lt slot hs
    sequence_lt := by
      intro k hk
      simp only [hlog]
      simp only [hnew] at hk
      obtain rfl | hk := List.mem_cons.mp hk
      · omega
      · have := h.sequence_lt k hk
        omega
    started_le := by
      simp only [hstarts, hlen, hlog]
      omega
    phase := hphase.1 }

theorem Sound.rewritten (h : Sound opts s) {clock : Instant} {limiter : DomainLimiter}
    {deferred : List (Instant × ℕ)} {deferredEntries : HashMap ℕ DeferredStart} {phase : Phase}
    (hkeys : deferredEntries.keys.Perm s.deferredEntries.keys)
    (hheap : (deferred.map Prod.snd).Perm s.deferredEntries.keys)
    (hj : s.phase.isJoining = false)
    (hphase : AtPhase opts { s with clock, limiter, deferred, deferredEntries, phase } phase) :
    Sound opts { s with clock, limiter, deferred, deferredEntries, phase } := by
  have hlen : deferredEntries.len = s.deferredEntries.len := by
    simpa [AList.keys_length] using hkeys.length_eq
  exact { h with
    heap := hheap.trans hkeys.symm
    slot_inFlight := fun _ => h.slot_inFlight hj
    deferred_le := by
      have := h.deferred_le
      simp only
      omega
    sequence_lt := by
      intro k hk
      exact h.sequence_lt k (hkeys.mem_iff.mp hk)
    started_le := by
      have := h.started_le
      simp only
      omega
    phase := hphase }

theorem Sound.completed (h : Sound opts s) {slot : ℕ} {state : SlotState} {clock : Instant}
    {accumulated : HashMap String Duration} {overrides : HashMap String AttemptOverrides}
    {statistics : Statistics} {mode : PoolMode} {limiter : DomainLimiter} {c : Completing}
    {log : List Effect} (hm : ModeMove opts.pool s.mode mode)
    (hs : s.slots.lookup slot = some state) (hj : s.phase.isJoining = false)
    (hlog : fetchedIds log = fetchedIds s.log ∧ startCount log = startCount s.log) :
    Sound opts
      { s with
        clock
        inFlight := s.inFlight.erase slot
        slots := s.slots.erase slot
        accumulated, overrides, statistics, mode, limiter
        phase := .completing c
        log } := by
  have hkeys := AList.keys_perm_erase hs
  have hmem : ∀ k, k ∈ (s.slots.erase slot).keys ↔ k ∈ s.slots.keys ∧ k ≠ slot := by
    intro k
    rw [AList.mem_keys_iff, AList.mem_keys_iff, AList.lookup_erase_ite]
    split_ifs with hk
    · simp [hk]
    · simp [hk]
  obtain ⟨hfetched, hstarts⟩ := hlog
  exact { h with
    within := hm.within h.within
    inFlight_nodup := h.inFlight_nodup.erase slot
    inFlight_slot := by
      intro k hk
      obtain ⟨hne, hk⟩ := (h.inFlight_nodup.mem_erase_iff).mp hk
      exact (hmem k).mpr ⟨h.inFlight_slot k hk, hne⟩
    slot_inFlight := by
      intro _ k hk
      obtain ⟨hk, hne⟩ := (hmem k).mp hk
      exact (h.inFlight_nodup.mem_erase_iff).mpr ⟨hne, h.slot_inFlight hj k hk⟩
    inFlight_le := List.length_erase_le.trans h.inFlight_le
    nextSlot := by
      simp only [hstarts]
      exact h.nextSlot
    nextDeferred := by
      simp only [hfetched]
      exact h.nextDeferred
    slot_lt := by
      intro k hk
      simp only [hstarts]
      exact h.slot_lt k ((hmem k).mp hk).1
    sequence_lt := by
      intro k hk
      simp only [hfetched]
      exact h.sequence_lt k hk
    started_le := by
      simp only [hfetched, hstarts]
      exact h.started_le
    phase := trivial }

theorem Sound.move (h : Sound opts s) (hm : Move opts s e t)
    (hf : FreshLeases t.log) : Sound opts t := by
  cases hm with
  | quiet clock cancelled drain draining mode limiter phase hc hmode hl hphase hq =>
    obtain ⟨hat, hslot⟩ := h.phaseMove hphase
    exact { h with
      within := hmode.within h.within
      slot_inFlight := hslot
      phase := by cases phase <;> exact hat }
  | panic clock _ hc hlost hq ht hi => exact (h.no_panic hlost).elim
  | gather clock drain draining next hc hfrom hq =>
    have hslot : s.phase.isJoining = false := by
      obtain ⟨hfrom, -⟩ | ⟨outcome, hfrom, -⟩ := hfrom <;> rw [hfrom] <;> rfl
    have hle := h.started_le
    exact { h with
      heap := .refl _
      slot_inFlight := fun _ => h.slot_inFlight hslot
      deferred_le := Nat.zero_le _
      sequence_lt := fun k hk => nomatch hk
      started_le := (Nat.le_add_right _ _).trans hle
      phase := by
        obtain ⟨-, rfl⟩ | ⟨outcome, hfrom, rfl⟩ := hfrom
        · trivial
        · have hphase := h.phase
          rw [hfrom] at hphase
          exact ⟨hphase, rfl⟩ }
  | release clock outcome hc hfrom hi hq =>
    exact { h with
      inFlight_slot := by
        intro slot hs
        simp only [hi] at hs
        cases hs
      slot_inFlight := fun _ slot hs => nomatch hs
      slot_lt := fun slot hs => nomatch hs
      phase := hi }
  | renewed due i sequence entry hfrom hi he hq =>
    have hphase := h.phase
    rw [hfrom] at hphase
    have hkeys := AList.keys_insert_perm entry.extended he
    refine h.rewritten hkeys h.heap (by rw [hfrom]; rfl) ⟨?_, ?_⟩
    · exact hphase.1.sublist (List.eraseIdx_sublist _ _)
    · intro k hk
      exact hkeys.mem_iff.mpr (hphase.2 k ((List.eraseIdx_sublist _ _).subset hk))
  | postponed now started tokenWait desired readyAt sequence rest entry limiter wait phase _ hc hn'
      hfrom hlt hd hr he hl ht hafter =>
    subst ht
    have hphase := h.phase
    rw [hfrom] at hphase
    have hfree : (s.deferredEntries.erase sequence).lookup sequence = none :=
      AList.lookup_erase _ _
    have hkeys := AList.keys_perm_erase he
    refine h.rewritten ?_ ?_ (by rw [hfrom]; rfl) ?_
    · rw [AList.keys_insert_new _ hfree]
      exact hkeys.symm
    · have hheap := h.heap
      rw [hd] at hheap
      exact ((heapPush_perm _ _).map Prod.snd).trans hheap
    · cases hafter with
      | again => exact hphase
      | settle => trivial
      | fetch hf => exact ⟨hphase, hf.running, hf.room⟩
  | started now started desired readyAt sequence rest entry limiter hc hn' hfrom hlt hd
      hr he hl =>
    exact h.started hf.of_cons hfrom hlt hd he
  | fetched desired lease readyNow stdNow renewNow overrides carried readyAt renewAt h₁ h₂ h₃ hfrom
      hr hw =>
    exact h.fetched hf hfrom
  | cancelledAttempt wake slot state now handledAt consulted hc hfrom hslot hs =>
    exact h.completed .refl hs (by rw [hfrom]; rfl) ⟨rfl, rfl⟩
  | concluded wake slot state joined now handledAt consulted lease error observation choice c
      accumulated overrides statistics mode limiter hc hfrom hslot hs hends hcon hfin hfail hret
      hmode hl =>
    exact h.completed hmode hs (by rw [hfrom]; rfl) ⟨rfl, rfl⟩
  | answered c how op reply statistics results phase hfrom hop hhow hset =>
    have hslot := h.slot_inFlight (by rw [hfrom]; rfl)
    exact { h with
      slot_inFlight := fun _ => hslot
      phase := by cases hset <;> trivial }
  | joined slot outcome hfrom hslot =>
    exact { h with
      inFlight_nodup := h.inFlight_nodup.erase slot
      inFlight_slot := fun k hk => h.inFlight_slot k (List.mem_of_mem_erase hk)
      slot_inFlight := by
        intro hj
        simp only [hfrom] at hj
        cases hj
      inFlight_le := List.length_erase_le.trans h.inFlight_le
      phase := by
        simp only [hfrom]
        trivial }
  | dropped rest i lease reply phase hi hfrom hq =>
    have hphase := h.phase
    have hslot : s.phase.isJoining = false := by
      obtain ⟨outcome, hfrom, -⟩ | ⟨next, hfrom, -⟩ := hfrom <;> rw [hfrom] <;> rfl
    exact { h with
      slot_inFlight := fun _ => h.slot_inFlight hslot
      phase := by
        obtain ⟨outcome, hfrom, rfl⟩ | ⟨next, hfrom, rfl⟩ := hfrom
        · rw [hfrom] at hphase
          exact hphase
        · rw [hfrom] at hphase
          cases next <;> exact hphase }

/-- What a step does to the leases held, with the queue call it makes and the entry it adds
to the log. -/
inductive Flow (s : State) (e : Event) (t : State) : Prop
  | kept : Harmless (queueCall s e) → (held t).Perm (held s) →
      (t.log = s.log ∨ ∃ lease time, t.log = .started lease time :: s.log) → Flow s e t
  | took (lease : Lease) :
      queueCall s e = some (.fetchNext, .ok (.leased (some lease))) →
      (held t).Perm (lease :: held s) → t.log = .fetched lease :: s.log → Flow s e t
  | renewed (lease : Lease) (rest : List Lease) :
      queueCall s e = some (.renew lease.leaseId deferredLeaseExtension, .ok .unit) →
      (held s).Perm (lease :: rest) →
      (held t).Perm
        ({ lease with expiresAt := lease.expiresAt + deferredLeaseExtension } :: rest) →
      t.log = s.log → Flow s e t
  | concluded (old lease : Lease) (choice : Choice) (c : Completing) (rest : List Lease) :
      queueCall s e = none → t.phase = .completing c → c.lease.leaseId = old.leaseId →
      c.lease.expiresAt = old.expiresAt → lease.leaseId = old.leaseId →
      (held s).Perm (old :: rest) → (held t).Perm (c.lease :: rest) →
      t.log = .decided lease choice :: s.log → Flow s e t
  | gave (how : ConsumingCall) (op : QueueOp) (lease : Lease) (reply : StorageResult Unit)
      (rest : List Lease) :
      queueCall s e = some (op, unitReply reply) → op.returned = some lease →
      callKind op = some how →
      (op = .abandon lease ∨ ∃ c, s.phase = .completing c ∧ c.op = some op) →
        (held s).Perm (lease :: rest) → (held t).Perm rest →
      t.log = .called how lease reply.isOk :: s.log → Flow s e t

theorem PhaseMove.leases {phase : Phase} (h : PhaseMove opts s phase) :
    phase.leases = s.phase.leases := by
  cases h with
  | stay => rfl
  | abort outcome hfrom => obtain hfrom | ⟨due, hfrom⟩ := hfrom <;> rw [hfrom] <;> rfl
  | scan hfrom => obtain hfrom | hfrom := hfrom <;> rw [hfrom] <;> rfl
  | renew now hfrom => rw [hfrom]; rfl
  | pump hfrom => rw [hfrom]; rfl
  | fetch desired hfrom hf => rw [hfrom]; rfl
  | settle desired hfrom => obtain hfrom | hfrom := hfrom <;> rw [hfrom] <;> rfl
  | select wake hfrom => rw [hfrom]; rfl
  | check wake hfrom hi hd => rw [hfrom]; rfl
  | drained hfrom hi hd => rw [hfrom]; rfl
  | finished wake hfrom => rw [hfrom]; rfl
  | checkEmpty wake hfrom => rw [hfrom]; rfl
  | idle wake hfrom => rw [hfrom]; rfl
  | again wake hfrom => obtain hfrom | hfrom | hfrom := hfrom <;> rw [hfrom] <;> rfl
  | handled lease total errorText status loadedUrl hfrom => rw [hfrom]; rfl
  | exits outcome hfrom => rw [hfrom]; rfl

theorem Ends.lease_eq {old lease : Lease} {joined : Joined} {error : Option CrawlError}
    {observation : AttemptObservation} (h : Ends old joined lease error observation) :
    lease.leaseId = old.leaseId ∧ lease.expiresAt = old.expiresAt := by
  cases h <;> exact ⟨rfl, rfl⟩

theorem Concludes.lease_eq {lease : Lease} {error : Option CrawlError}
    {observation : AttemptObservation} {handledAt : ℤ} {consulted : ℕ} {choice : Choice}
    {c : Completing} (h : Concludes opts lease observation handledAt consulted error choice c) :
    c.lease.leaseId = lease.leaseId ∧ c.lease.expiresAt = lease.expiresAt := by
  cases h with
  | succeeded total => exact ⟨rfl, rfl⟩
  | critical error hc => exact ⟨rfl, rfl⟩
  | retried error rotates request hc he hr hq => exact ⟨rfl, rfl⟩
  | failed error c hc he hlease hcases =>
    rw [hlease]
    exact ⟨rfl, rfl⟩

theorem Completing.returned_op {c : Completing} {op : QueueOp} (h : c.op = some op) :
    op.returned = some c.lease := by
  cases c <;> cases h <;> rfl

theorem Settles.leases {c : Completing} {reply : StorageResult Unit} {statistics : Statistics}
    {results : List HandledRequest} {phase : Phase}
    (h : Settles s c reply statistics results phase) : phase.leases = [] := by
  cases h <;> rfl

theorem perm_eraseIdx {rest : List Lease} {i : ℕ} {lease : Lease} (h : rest[i]? = some lease) :
    rest.Perm (lease :: rest.eraseIdx i) := by
  obtain ⟨hi, rfl⟩ := List.getElem?_eq_some_iff.mp h
  exact (List.getElem_cons_eraseIdx_perm hi).symm

theorem Move.flow (hm : Move opts s e t) (h : Sound opts s) (hf : FreshLeases t.log) :
    Flow s e t := by
  cases hm with
  | quiet clock cancelled drain draining mode limiter phase hc hmode hl hphase hq =>
    refine .kept hq ?_ (.inl rfl)
    simp only [held, hphase.leases]
    exact .refl _
  | panic clock _ hc hlost hq ht hi => exact (h.no_panic hlost).elim
  | gather clock drain draining next hc hfrom hq =>
    refine .kept (by rw [hq]; trivial) ?_ (.inl rfl)
    have hnone : s.phase.leases = [] := by
      obtain ⟨hfrom, -⟩ | ⟨outcome, hfrom, -⟩ := hfrom <;> rw [hfrom] <;> rfl
    have hgathered : held (beginAbandon { s with clock, drain, draining } next) =
        slotLeases s ++ [] ++ deferredLeases s := rfl
    rw [hgathered, held, hnone, List.append_nil, List.append_nil]
  | release clock outcome hc hfrom hi hq =>
    refine .kept (by rw [hq]; trivial) ?_ (.inl rfl)
    simp only [held, hfrom, Phase.leases, List.append_nil]
    exact List.perm_append_comm
  | renewed due i sequence entry hfrom hi he hq =>
    obtain ⟨rest, hold, hnew⟩ := AList.values_insert_perm entry.extended he
    refine .renewed entry.lease (slotLeases s ++ rest.map DeferredStart.lease) hq ?_ ?_ rfl
    · simp only [held, hfrom, Phase.leases, List.append_nil]
      exact ((hold.map DeferredStart.lease).append_left _).trans List.perm_middle
    · simp only [held, Phase.leases, List.append_nil]
      exact ((hnew.map DeferredStart.lease).append_left _).trans List.perm_middle
  | postponed now started tokenWait desired readyAt sequence rest entry limiter wait phase _ hc hn
      hfrom hlt hd hr he hl ht hafter =>
    subst ht
    refine .kept trivial ?_ (.inl rfl)
    have hnone : phase.leases = s.phase.leases := by
      rw [hfrom]
      cases hafter <;> rfl
    have hfree : (s.deferredEntries.erase sequence).lookup sequence = none :=
      AList.lookup_erase _ _
    simp only [held, hnone]
    apply List.Perm.append_right
    apply List.Perm.append_left
    simp only [deferredLeases, AList.values_insert_new _ hfree]
    exact ((AList.values_perm_erase he).map DeferredStart.lease).symm
  | started now started desired readyAt sequence rest entry limiter hc hn hfrom hlt hd
      hr he hl =>
    refine .kept trivial ?_ (.inr ⟨_, _, rfl⟩)
    obtain ⟨-, -, hfree⟩ := h.slot_free hf.of_cons he
    simp only [held, slotLeases, AList.values_insert_new _ hfree, List.map_cons]
    apply List.Perm.append_right
    refine List.perm_middle.symm.trans ?_
    apply List.Perm.append_left
    exact ((AList.values_perm_erase he).map DeferredStart.lease).symm
  | fetched desired lease readyNow stdNow renewNow overrides carried readyAt renewAt h₁ h₂ h₃ hfrom
      hr hw =>
    refine .took lease rfl ?_ rfl
    obtain ⟨-, hfree⟩ := h.sequence_free hf.count_le
    simp only [held, hfrom, Phase.leases, List.append_nil, deferredLeases,
      AList.values_insert_new _ hfree, List.map_cons]
    exact List.perm_middle
  | cancelledAttempt wake slot state now handledAt consulted hc hfrom hslot hs =>
    refine .kept trivial ?_ (.inl rfl)
    simp only [held, hfrom, Phase.leases, Completing.lease, List.append_nil]
    refine List.perm_append_comm.trans ?_
    exact (((AList.values_perm_erase hs).map SlotState.lease).append_right _).symm
  | concluded wake slot state joined now handledAt consulted lease error observation choice c
      accumulated overrides statistics mode limiter hc hfrom hslot hs hends hcon hfin hfail hret
      hmode hl =>
    have hslots := (AList.values_perm_erase hs).map SlotState.lease
    refine .concluded state.lease lease choice c
      ((s.slots.erase slot).values.map SlotState.lease ++ deferredLeases s) rfl rfl
      (hcon.lease_eq.1.trans hends.lease_eq.1) (hcon.lease_eq.2.trans hends.lease_eq.2)
      hends.lease_eq.1 ?_ ?_ rfl
    · simp only [held, hfrom, Phase.leases, List.append_nil]
      exact hslots.append_right _
    · simp only [held, Phase.leases]
      exact List.perm_append_comm
  | answered c how op reply statistics results phase hfrom hop hhow hset =>
    refine .gave how op c.lease reply (slotLeases s ++ deferredLeases s) ?_
      (Completing.returned_op hop) hhow (.inr ⟨c, hfrom, hop⟩) ?_ ?_ rfl
    · simp only [queueCall, hfrom, hop, Option.map_some]
    · simp only [held, hfrom, Phase.leases]
      exact List.perm_append_comm
    · simp only [held, hset.leases, List.append_nil]
      exact .refl _
  | joined slot outcome hfrom hslot => exact .kept trivial (.refl _) (.inl rfl)
  | dropped rest i lease reply phase hi hfrom hq =>
    have hperm := perm_eraseIdx hi
    refine .gave .abandon _ lease reply (slotLeases s ++ deferredLeases s ++ rest.eraseIdx i) hq rfl
      rfl (.inl rfl) ?_ ?_ rfl
    · have hrest : s.phase.leases = rest := by
        obtain ⟨outcome, hfrom, -⟩ | ⟨next, hfrom, -⟩ := hfrom <;> rw [hfrom] <;> rfl
      simp only [held, hrest]
      exact (hperm.append_left _).trans List.perm_middle
    · have hrest : phase.leases = rest.eraseIdx i := by
        obtain ⟨outcome, -, rfl⟩ | ⟨next, -, rfl⟩ := hfrom <;> rfl
      simp only [held, hrest]
      exact .refl _

/-- Every lease fetched has been handed out or is held, and no more than once. -/
def Conserved (s : State) : Prop :=
  (fetchedIds s.log).Perm (consumedIds s.log ++ (held s).map Lease.leaseId)

theorem Conserved.flow (h : Conserved s) (hflow : Flow s e t) : Conserved t := by
  unfold Conserved at h ⊢
  cases hflow with
  | kept hq hheld hlog =>
    have hids : fetchedIds t.log = fetchedIds s.log ∧ consumedIds t.log = consumedIds s.log := by
      obtain hlog | ⟨lease, time, hlog⟩ := hlog
      · rw [hlog]
        exact ⟨rfl, rfl⟩
      · rw [hlog]
        exact ⟨rfl, rfl⟩
    rw [hids.1, hids.2]
    exact h.trans ((hheld.map _).symm.append_left _)
  | took lease hq hheld hlog =>
    rw [hlog]
    refine (h.cons lease.leaseId).trans ?_
    exact List.perm_middle.symm.trans ((hheld.map _).symm.append_left _)
  | renewed lease rest hq hs ht hlog =>
    rw [hlog]
    have hids : ((held s).map Lease.leaseId).Perm ((held t).map Lease.leaseId) :=
      (hs.map Lease.leaseId).trans (ht.map Lease.leaseId).symm
    exact h.trans (hids.append_left _)
  | concluded old lease choice c rest hq hp hid hexp hid' hs ht hlog =>
    rw [hlog]
    have hids : ((held s).map Lease.leaseId).Perm ((held t).map Lease.leaseId) := by
      refine (hs.map _).trans ?_
      rw [List.map_cons, ← hid]
      exact (ht.map _).symm
    exact h.trans (hids.append_left _)
  | gave how op lease reply rest hq hret hhow hfrom hs ht hlog =>
    rw [hlog]
    refine h.trans ?_
    refine ((hs.map Lease.leaseId).append_left _).trans ?_
    exact List.perm_middle.trans (((ht.map _).symm.append_left _).cons _)

/-- What holds of the leases in every state of every run. -/
structure Accounted (opts : EngineOptions) (s : State) : Prop where
  sound : Sound opts s
  conserved : Conserved s

theorem Move.log_suffix (hm : Move opts s e t) :
    t.log = s.log ∨ ∃ effect, t.log = effect :: s.log := by
  cases hm with
  | panic clock _ hc hlost hq ht hi =>
    rw [ht]
    exact .inl rfl
  | postponed now started tokenWait desired readyAt sequence rest entry limiter wait phase _ hc hn
      hfrom hlt hd hr he hl ht hafter =>
    rw [ht]
    exact .inl rfl
  | started => exact .inr ⟨_, rfl⟩
  | fetched => exact .inr ⟨_, rfl⟩
  | concluded => exact .inr ⟨_, rfl⟩
  | answered => exact .inr ⟨_, rfl⟩
  | dropped => exact .inr ⟨_, rfl⟩
  | _ => exact .inl rfl

theorem FreshLeases.before (hm : Move opts s e t) (hf : FreshLeases t.log) : FreshLeases s.log := by
  obtain hlog | ⟨effect, hlog⟩ := hm.log_suffix
  · rwa [hlog] at hf
  · rw [hlog] at hf
    exact hf.of_cons

theorem Accounted.move (h : Accounted opts s)
    (hm : Move opts s e t) (hf : FreshLeases t.log) : Accounted opts t :=
  ⟨h.sound.move hm hf, h.conserved.flow (hm.flow h.sound hf)⟩

theorem accounted_start (statistics : Statistics) (limiter : DomainLimiter) (clock : Instant) :
    Accounted opts (start opts statistics limiter clock) :=
  ⟨sound_start statistics limiter clock, .refl _⟩

theorem Sound.held_returned (h : Sound opts s) {outcome : Option CrawlError}
    (hp : s.phase = .returned outcome) : held s = [] := by
  have hphase := h.phase
  rw [hp] at hphase
  have hslots : s.slots.entries = [] := by
    apply AList.entries_eq_nil_iff.mpr
    intro slot
    rw [AList.lookup_eq_none, AList.mem_keys]
    intro hmem
    have hin := h.slot_inFlight (by rw [hp]; rfl) slot hmem
    rw [hphase.1] at hin
    cases hin
  simp [held, slotLeases, deferredLeases, AList.values, hslots, hphase.2, hp, Phase.leases]

-- A crawl of one request, with a single slot.
def singleSlot : EngineOptions where
  retry := { maxRequestRetries := 1, maxSessionRotations := 1, retryStrategy := none }
  pool := AutoscaledPool.new
    { fixedConcurrency := some 1, minConcurrency := 1, maxConcurrency := 1
      desiredConcurrency := none, mode := .aimd 10, hasSignals := false, decreased := id
      upStep := id, downStep := id, sameDomainDelay := 0 }
  maxRequestsPerCrawl := none
  failedHandler := false
  debugStr := id

def leaseOf (leaseId : LeaseId) (request : Request) : Lease :=
  { request, leaseId, expiresAt := Duration.fromSecs 180 }

def pageRequest : Request := { Request.get ⟨"data:,", none⟩ "data:," with noRetry := true }

def ticks (now : Instant) (n : ℕ) : List Event := List.replicate n (.run now none now)

def firstAttempt : List Event :=
  ticks 0 4 ++ [.fetched (some (.ok (some (leaseOf 0 pageRequest)))) 0 0 0] ++ ticks 0 3

def finishedCrawl : List Event :=
  firstAttempt ++
    [.completed 0 (.finished { error := none, duration := 5, request := pageRequest,
                               observation := {} }) 5 0 0,
     .answered (.ok ())] ++
    ticks 5 4 ++ [.fetched (some (.ok none)) 5 5 5] ++ ticks 5 1 ++ [.flag (some true)]

end Millipede.Engine
