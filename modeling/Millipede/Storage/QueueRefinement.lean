import Millipede.Fingerprint
import Millipede.Storage.FsQueueRun
import Millipede.Storage.MemoryConservation

/-!
# The file-system queue refines the in-memory queue

The deque of the in-memory queue is the file-system queue's pending map read in
the order of its keys: a back push takes an order number above all others and a
front push one below. The rest of the two states correspond key by key.
-/

namespace Millipede.FsQueue
variable {β : Type*}

def storedRequest (s : QueueState) (id : RequestId) : Option Request :=
  (s.requests.lookup id).map StoredRequest.request

structure Simulates (s : QueueState) (t : MemoryQueue.QueueState) : Prop where
  pending : ∃ deque, t.pending = .fifo deque ∧
    (s.pending.entries.map fun e => storedRequest s e.2) = deque.map some
  dedup : ∀ k, t.dedup.lookup k = (s.dedup.lookup k).map Prod.fst
  handled : ∀ k, k ∈ t.handled ↔ ∃ id, s.dedup.lookup k = some (id, true)
  leases : ∀ l, (t.inFlight.lookup l).map MemoryQueue.LeasedRequest.request =
    (s.leases.lookup l).bind fun e => storedRequest s e.1
  handledCount : t.handledCount = s.handledCount
  nextLeaseId : t.nextLeaseId = s.nextLeaseId

/-- After `n` order numbers the counters have moved at most `n` places. -/
structure OrdersWithin (n : ℕ) (s : QueueState) : Prop where
  order : s.nextOrder ≤ n + 1
  forefront : -1 - (n : ℤ) ≤ s.nextForefrontOrder

section Relation
variable {K : Set String} {n : ℕ} {s : QueueState} {t : MemoryQueue.QueueState}

theorem simulates_empty : Simulates QueueState.empty MemoryQueue.new := by
  refine ⟨⟨[], rfl, rfl⟩, fun _ => rfl, ?_, fun _ => rfl, rfl, rfl⟩
  intro k
  simp [QueueState.empty, MemoryQueue.new]

theorem ordersWithin_empty : OrdersWithin 0 QueueState.empty := by
  constructor <;> simp [QueueState.empty]

theorem OrdersWithin.mono {m : ℕ} (h : OrdersWithin n s) (hnm : n ≤ m) : OrdersWithin m s := by
  obtain ⟨ho, hf⟩ := h
  exact ⟨by omega, by omega⟩

theorem takeOrder_ok {tr : Option RequestId} (hc : Consistent K tr s) (h : OrdersWithin n s)
    (hn : n + 1 < 2 ^ 63 - 1) (forefront : Bool) :
    ∃ o s', s.takeOrder forefront = .ok (o, s') ∧ OrdersWithin (n + 1) s' ∧
      ∀ id, (s.pending.insert o id).entries =
        if forefront then (o, id) :: s.pending.entries else s.pending.entries ++ [(o, id)] := by
  obtain ⟨ho, hf⟩ := h
  have hpending : ∀ e ∈ s.pending.entries, s.nextForefrontOrder < e.1 ∧ e.1 < s.nextOrder := by
    intro e he
    obtain ⟨-, st, hst, hso⟩ := hc.pending_stored e.1 e.2 (OrderedMap.mem_entries_iff.mp he)
    exact hc.order_bounds e.2 st e.1 hst hso
  cases forefront with
  | true =>
    have hroom : i64Min ≤ s.nextForefrontOrder - 1 := by
      simp only [i64Min]
      omega
    refine ⟨s.nextForefrontOrder, { s with nextForefrontOrder := s.nextForefrontOrder - 1 },
      by simp [QueueState.takeOrder, hroom], ⟨?_, ?_⟩, ?_⟩
    · simp only
      omega
    · simp only
      omega
    · intro id
      exact OrderedMap.entries_insert_below id fun e he => (hpending e he).1
  | false =>
    have hroom : s.nextOrder + 1 ≤ i64Max := by
      simp only [i64Max]
      omega
    refine ⟨s.nextOrder, { s with nextOrder := s.nextOrder + 1 },
      by simp [QueueState.takeOrder, hroom], ⟨?_, ?_⟩, ?_⟩
    · simp only
      omega
    · simp only
      omega
    · intro id
      exact OrderedMap.entries_insert_above id fun e he => (hpending e he).2

theorem Simulates.takeOrder (h : Simulates s t) {forefront : Bool} {o : ℤ} {s' : QueueState}
    (ht : s.takeOrder forefront = .ok (o, s')) : Simulates s' t := by
  obtain ⟨hreq, hleases, hpending, hdedup, hcount, hnext⟩ := takeOrder_requests ht
  refine ⟨?_, ?_, ?_, ?_, ?_, ?_⟩
  · simp only [storedRequest, hreq, hpending]
    exact h.pending
  · rw [hdedup]
    exact h.dedup
  · rw [hdedup]
    exact h.handled
  · simp only [storedRequest, hreq, hleases]
    exact h.leases
  · rw [hcount]
    exact h.handledCount
  · rw [hnext]
    exact h.nextLeaseId

theorem Simulates.release (h : Simulates s t) (l : LeaseId) :
    Simulates { s with leases := s.leases.erase l } { t with inFlight := t.inFlight.erase l } := by
  refine { h with leases := ?_ }
  intro l'
  simp only [AList.lookup_erase_ite]
  split_ifs
  · rfl
  · exact h.leases l'

theorem storedRequest_store_ne {id : RequestId} {r : Request} (orderNo : Option ℤ)
    (hne : id ≠ r.id) : storedRequest (store s r orderNo) id = storedRequest s id := by
  simp only [storedRequest, store, AList.lookup_insert_ite, if_neg hne]

theorem storedRequest_store (r : Request) (orderNo : Option ℤ) :
    storedRequest (store s r orderNo) r.id = some r := by
  simp only [storedRequest, store, AList.lookup_insert_ite, if_true]
  rfl

theorem storedRequest_frame {r : Request} (hc : Consistent K (some r.id) s)
    (orderNo : Option ℤ) :
    (s.pending.entries.map fun e => storedRequest (store s r orderNo) e.2) =
        (s.pending.entries.map fun e => storedRequest s e.2) ∧
      ∀ l, (s.leases.lookup l).bind (fun e => storedRequest (store s r orderNo) e.1) =
        (s.leases.lookup l).bind fun e => storedRequest s e.1 := by
  constructor
  · apply List.map_congr_left
    intro e he
    have hne := (hc.pending_stored e.1 e.2 (OrderedMap.mem_entries_iff.mp he)).1
    exact storedRequest_store_ne orderNo fun heq => hne (congrArg some heq)
  · intro l
    cases hl : s.leases.lookup l with
    | none => rfl
    | some e =>
      have hne := (hc.leased_stored l e.1 e.2 hl).1
      exact storedRequest_store_ne orderNo fun heq => hne (congrArg some heq)

theorem Simulates.accept {r : Request} (h : Simulates s t) (hc : Consistent K (some r.id) s)
    {forefront : Bool} {o : ℤ}
    (hpush : (s.pending.insert o r.id).entries = if forefront then (o, r.id) :: s.pending.entries
      else s.pending.entries ++ [(o, r.id)])
    (hknown : ∀ v, s.dedup.lookup r.uniqueKey = some v → v = (r.id, false)) :
    Simulates (accept s r o)
      { t with
        dedup := t.dedup.insert r.uniqueKey r.id
        pending := t.pending.push forefront r } := by
  obtain ⟨hframe, hlframe⟩ := storedRequest_frame hc (some o)
  have hr : storedRequest (FsQueue.accept s r o) r.id = some r := storedRequest_store r (some o)
  refine ⟨?_, ?_, ?_, ?_, h.handledCount, h.nextLeaseId⟩
  · obtain ⟨deque, hdeque, hmap⟩ := h.pending
    have hold : (s.pending.entries.map fun e => storedRequest (FsQueue.accept s r o) e.2) =
        deque.map some := hframe.trans hmap
    simp only [FsQueue.accept] at hpush ⊢
    rw [hpush, hdeque]
    cases forefront with
    | true =>
      refine ⟨r :: deque, rfl, ?_⟩
      simp only [if_true, List.map_cons]
      exact congrArg₂ List.cons hr hold
    | false =>
      refine ⟨deque ++ [r], rfl, ?_⟩
      simp only [Bool.false_eq_true, if_false, List.map_append]
      exact congrArg₂ (· ++ ·) hold (congrArg (fun q => [q]) hr)
  · intro k
    simp only [FsQueue.accept, AList.lookup_insert_ite]
    split_ifs
    · rfl
    · exact h.dedup k
  · intro k
    simp only [FsQueue.accept, AList.lookup_insert_ite]
    rw [h.handled k]
    by_cases hk : k = r.uniqueKey
    · subst hk
      simp only [if_true]
      constructor
      · intro hd
        obtain ⟨id, hd⟩ := hd
        cases hknown _ hd
      · intro hd
        obtain ⟨id, hd⟩ := hd
        cases hd
    · simp only [if_neg hk]
  · intro l
    exact (h.leases l).trans (hlframe l).symm

theorem Simulates.congr_dedup (h : Simulates s t) {dedup : HashMap String RequestId}
    (hd : ∀ k, dedup.lookup k = t.dedup.lookup k) : Simulates s { t with dedup } :=
  { h with dedup := fun k => (hd k).trans (h.dedup k) }

theorem Simulates.settle {r : Request} (h : Simulates s t) (hc : Consistent K (some r.id) s)
    (hknown : s.dedup.lookup r.uniqueKey = some (r.id, false))
    (hcount : s.handledCount + 1 < 2 ^ 64) :
    Simulates (settle s r)
      { t with
        handledCount := (t.handledCount + 1) % 2 ^ 64
        handled := insert r.uniqueKey t.handled } := by
  obtain ⟨hframe, hlframe⟩ := storedRequest_frame hc none
  refine ⟨?_, ?_, ?_, ?_, ?_, h.nextLeaseId⟩
  · obtain ⟨deque, hdeque, hmap⟩ := h.pending
    exact ⟨deque, hdeque, hframe.trans hmap⟩
  · intro k
    simp only [FsQueue.settle, FsQueue.store, AList.lookup_insert_ite]
    rw [h.dedup k]
    by_cases hk : k = r.uniqueKey
    · subst hk
      rw [if_pos rfl, hknown]
      rfl
    · rw [if_neg hk]
  · intro k
    simp only [FsQueue.settle, FsQueue.store, AList.lookup_insert_ite, Finset.mem_insert]
    rw [h.handled k]
    by_cases hk : k = r.uniqueKey
    · simp [hk]
    · simp [hk]
  · intro l
    exact (h.leases l).trans (hlframe l).symm
  · have hc := h.handledCount
    simp only [FsQueue.settle, u64Max]
    omega

theorem Simulates.grant {o : ℤ} {id : RequestId} {rest : OrderedMap ℤ RequestId} {r : Request}
    (h : Simulates s t) (hp : s.pending.popFirst = some ((o, id), rest))
    (hr : storedRequest s id = some r) (hnext : s.nextLeaseId + 1 < 2 ^ 64) (e e' : Instant) :
    ∃ deque, t.pending = .fifo (r :: deque) ∧
      Simulates
        { s with
          pending := rest
          nextLeaseId := s.nextLeaseId + 1
          leases := s.leases.insert s.nextLeaseId (id, e) }
        { t with
          pending := .fifo deque
          nextLeaseId := (t.nextLeaseId + 1) % 2 ^ 64
          inFlight := t.inFlight.insert t.nextLeaseId { request := r, expiresAt := e' } } := by
  obtain ⟨deque, hdeque, hmap⟩ := h.pending
  have hn := h.nextLeaseId
  rw [OrderedMap.entries_of_popFirst hp, List.map_cons, hr] at hmap
  cases deque with
  | nil => cases hmap
  | cons q deque =>
    obtain ⟨hq, hrest⟩ := List.cons_eq_cons.mp hmap
    cases hq
    refine ⟨deque, hdeque, ⟨deque, rfl, hrest⟩, h.dedup, h.handled, ?_, h.handledCount, ?_⟩
    · intro l
      simp only [AList.lookup_insert_ite, hn]
      split_ifs
      · exact hr.symm
      · exact h.leases l
    · simp only
      omega

theorem Simulates.extend (h : Simulates s t) {l : LeaseId} {id : RequestId} {e : Instant}
    {leased : MemoryQueue.LeasedRequest} (hl : s.leases.lookup l = some (id, e))
    (hm : t.inFlight.lookup l = some leased) (e' e'' : Instant) :
    Simulates { s with leases := s.leases.insert l (id, e') }
      { t with inFlight := t.inFlight.insert l { leased with expiresAt := e'' } } := by
  refine { h with leases := ?_ }
  intro l'
  simp only [AList.lookup_insert_ite]
  split_ifs with he
  · have hold := h.leases l
    rw [hl, hm] at hold
    exact hold
  · exact h.leases l'

theorem Simulates.lookup_iff (h : Simulates s t) (hc : Consistent K none s) (l : LeaseId) :
    t.inFlight.lookup l = none ↔ s.leases.lookup l = none := by
  have hl := h.leases l
  cases hs : s.leases.lookup l with
  | none =>
    rw [hs] at hl
    simpa using hl
  | some e =>
    obtain ⟨-, -, st, o, hst, -⟩ := hc.leased_stored l e.1 e.2 hs
    rw [hs, Option.bind_some, storedRequest, hst] at hl
    cases hm : t.inFlight.lookup l with
    | none =>
      rw [hm] at hl
      cases hl
    | some leased => simp

end Relation

section Operations
variable {codec : Codec β} {K : Set String} {m n : ℕ} {s : QueueState} {d : Disk β}
  {t : MemoryQueue.QueueState}

theorem addLocked_simulates (inj : Set.InjOn RequestId.fromUniqueKey K) (hg : Good codec K m s d)
    (ho : OrdersWithin n s) (hs : Simulates s t) {r : Request} (hid : r.Identified)
    (hk : r.uniqueKey ∈ K) (hn : n + 1 < 2 ^ 63 - 1) (opts : AddOptions) :
    ∃ s' d', addLocked codec .completes s d r opts =
        .returned (.ok (MemoryQueue.addLocked t r opts).1) s' d' ∧
      OrdersWithin (n + 1) s' ∧ Simulates s' (MemoryQueue.addLocked t r opts).2 := by
  have hdt := hs.dedup r.uniqueKey
  simp only [addLocked, MemoryQueue.addLocked]
  cases hd : s.dedup.lookup r.uniqueKey with
  | some known =>
    obtain ⟨id, handled⟩ := known
    rw [hd] at hdt
    have hhandled : decide (r.uniqueKey ∈ t.handled) = handled := by
      cases handled <;> simp [hs.handled, hd]
    simp only [hdt, Option.map_some, hhandled]
    exact ⟨s, d, rfl, ho.mono (Nat.le_succ n), hs⟩
  | none =>
    rw [hd] at hdt
    obtain ⟨o, s', ht, ho', hpush⟩ := takeOrder_ok hg.consistent ho hn opts.forefront
    obtain ⟨-, -, hpending, hdedup, -, -⟩ := takeOrder_requests ht
    obtain ⟨hg', -⟩ := hg.takeOrder ht
    have hd' : s'.dedup.lookup r.uniqueKey = none := by rw [hdedup, hd]
    simp only [hdt, Option.map_none, ht, writeRequest]
    refine ⟨_, _, rfl, ⟨ho'.order, ho'.forefront⟩, ?_⟩
    have hno := Consistent.lookup_of_new hg'.consistent inj hid hk hd'
    apply (hs.takeOrder ht).accept (hg'.consistent.enter hno)
    · rw [hpending]
      exact hpush r.id
    · intro v hv
      rw [hd'] at hv
      cases hv

theorem addBatch_simulates (inj : Set.InjOn RequestId.fromUniqueKey K) (hg : Good codec K m s d)
    (ho : OrdersWithin n s) (hs : Simulates s t) {requests : List Request}
    (hadd : ∀ r ∈ requests, r.Identified ∧ r.uniqueKey ∈ K)
    (hn : n + requests.length < 2 ^ 63 - 1) (opts : AddOptions) {fate : ℕ → WriteFate β}
    (hfate : ∀ i, fate i = .completes) (processed : List ProcessedRequest) :
    ∃ s' d', addBatch codec fate opts s d processed requests =
        .returned (.ok (processed ++ (MemoryQueue.addBatch t opts requests).1)) s' d' ∧
      OrdersWithin (n + requests.length) s' ∧
      Simulates s' (MemoryQueue.addBatch t opts requests).2 := by
  induction requests generalizing n s d t processed with
  | nil => exact ⟨s, d, by simp [addBatch, MemoryQueue.addBatch], ho, hs⟩
  | cons r requests ih =>
    obtain ⟨hid, hk⟩ := hadd r List.mem_cons_self
    rw [List.length_cons] at hn ⊢
    obtain ⟨s₁, d₁, hone, ho₁, hs₁⟩ := addLocked_simulates inj hg ho hs hid hk (by omega) opts
    have hg₁ := addLocked_kept hg ⟨hid, hk⟩ (Consistent.lookup_of_new hg.consistent inj hid hk) opts
      .completes
    rw [hone] at hg₁
    obtain ⟨s', d', hrest, ho', hs'⟩ := ih hg₁ ho₁ hs₁
      (fun q hq => hadd q (List.mem_cons_of_mem _ hq)) (by omega)
      (processed ++ [(MemoryQueue.addLocked t r opts).1])
    refine ⟨s', d', ?_, ?_, hs'⟩
    · simp only [addBatch, hfate, hone, hrest, MemoryQueue.addBatch]
      simp
    · have hlen : n + (requests.length + 1) = n + 1 + requests.length := by omega
      rw [hlen]
      exact ho'

/-- A lease that comes back unchanged, as both queues see it. -/
theorem Simulates.returned (hg : Good codec K m s d) (hs : Simulates s t) {lease : Lease}
    (hun : Unchanged s lease) {id : RequestId} {e : Instant}
    (hl : s.leases.lookup lease.leaseId = some (id, e)) :
    s.dedup.lookup lease.request.uniqueKey = some (id, false) ∧
      validateUniqueKey s id lease.request = .ok () ∧
      ∃ leased, t.inFlight.lookup lease.leaseId = some leased ∧
        leased.request.uniqueKey = lease.request.uniqueKey := by
  obtain ⟨hid, -, -, st, o, hst, ho, hkey⟩ := Good.leased hg hun hl
  have hd : s.dedup.lookup lease.request.uniqueKey = some (id, false) := by
    have hsd := hg.consistent.stored_dedup id st hst
    rw [hkey, ho] at hsd
    exact hsd
  refine ⟨hd, by simp [validateUniqueKey, hd], ?_⟩
  have hleases := hs.leases lease.leaseId
  rw [hl, Option.bind_some, storedRequest, hst] at hleases
  cases hm : t.inFlight.lookup lease.leaseId with
  | none =>
    rw [hm] at hleases
    cases hleases
  | some leased =>
    rw [hm] at hleases
    refine ⟨leased, rfl, ?_⟩
    have hreq : leased.request = st.request := Option.some.inj hleases
    rw [hreq, hkey]

theorem requeue_simulates (hg : Good codec K m s d)
    (ho : OrdersWithin n s) (hs : Simulates s t) {lease : Lease} (hun : Unchanged s lease)
    (hn : n + 1 < 2 ^ 63 - 1) {id : RequestId} {e : Instant}
    (hl : s.leases.lookup lease.leaseId = some (id, e)) (forefront incrementRetry : Bool) :
    ∃ s' d', requeue codec .completes s d lease forefront incrementRetry =
        .returned (.ok ()) s' d' ∧ OrdersWithin (n + 1) s' ∧
      Simulates s'
        { t with
          inFlight := t.inFlight.erase lease.leaseId
          pending := t.pending.push forefront (lease.request.reclaimed incrementRetry) } := by
  obtain ⟨hid, hident, hk, st, o₀, hst, ho₀, hkey⟩ := Good.leased hg hun hl
  obtain ⟨hd, hvalid, -⟩ := hs.returned hg hun hl
  obtain ⟨o, s', ht, ho', hpush⟩ := takeOrder_ok hg.consistent ho hn forefront
  obtain ⟨hreq, hleases, hpending, hdedup, -, -⟩ := takeOrder_requests ht
  obtain ⟨hg', -⟩ := hg.takeOrder ht
  subst hid
  generalize hr : lease.request.reclaimed incrementRetry = r
  have hrid : r.id = lease.request.id := by rw [← hr, Request.reclaimed_id]
  have hrkey : r.uniqueKey = lease.request.uniqueKey := by rw [← hr, Request.reclaimed_uniqueKey]
  rw [← hreq, ← hrid] at hst
  rw [← hdedup, ← hrid, ← hrkey] at hd
  rw [← hrkey] at hkey
  rw [← hrid] at hvalid
  have hkeys : ∀ st', s'.requests.lookup r.id = some st' → st'.request.uniqueKey = r.uniqueKey := by
    intro st' hst'
    rw [hst] at hst'
    cases hst'
    exact hkey
  have heq : replaceStoredRequest { s' with
      leases := s'.leases.erase lease.leaseId
      pending := s'.pending.insert o r.id } r.id r (some o) false =
      accept { s' with leases := s'.leases.erase lease.leaseId } r o :=
    replaceStoredRequest_eq_store (some o) hkeys
  have hl' : s'.leases.lookup lease.leaseId = some (r.id, e) := by rw [hleases, hl, hrid]
  simp only [requeue, leaseRequestId, hl, hvalid, ht, writeRequest, hr, ← hrid, heq]
  refine ⟨_, _, rfl, ⟨ho'.order, ho'.forefront⟩, ?_⟩
  have hpush' : (s'.pending.insert o r.id).entries =
      if forefront then (o, r.id) :: s'.pending.entries
      else s'.pending.entries ++ [(o, r.id)] := by
    rw [hpending]
    exact hpush r.id
  have hacc := ((hs.takeOrder ht).release lease.leaseId).accept
    (hg'.consistent.release hl') hpush' (by
      intro v hv
      rw [hd] at hv
      exact (Option.some.inj hv).symm)
  refine hacc.congr_dedup ?_
  intro k
  simp only [AList.lookup_insert_ite]
  split_ifs with hkk
  · rw [hkk, hs.dedup, ← hdedup, hd]
    rfl
  · rfl

theorem markHandled_simulates (hg : Good codec K m s d)
    (hs : Simulates s t) {lease : Lease} (hun : Unchanged s lease) (hm : m < 2 ^ 63)
    {id : RequestId} {e : Instant} (hl : s.leases.lookup lease.leaseId = some (id, e)) :
    ∃ s' d', markHandled codec .completes s d lease = .returned (.ok ()) s' d' ∧
      (s'.nextOrder = s.nextOrder ∧ s'.nextForefrontOrder = s.nextForefrontOrder) ∧
      Simulates s'
        { t with
          inFlight := t.inFlight.erase lease.leaseId
          handledCount := (t.handledCount + 1) % 2 ^ 64
          handled := insert lease.request.uniqueKey t.handled } := by
  obtain ⟨hid, hident, hk, st, o₀, hst, ho₀, hkey⟩ := Good.leased hg hun hl
  obtain ⟨hd, hvalid, -⟩ := hs.returned hg hun hl
  subst hid
  have hkeys : ∀ st', s.requests.lookup lease.request.id = some st' →
      st'.request.uniqueKey = lease.request.uniqueKey := by
    intro st' hst'
    rw [hst] at hst'
    cases hst'
    exact hkey
  have heq : replaceStoredRequest { s with
      leases := s.leases.erase lease.leaseId
      handledCount := min (s.handledCount + 1) u64Max }
      lease.request.id lease.request none true =
      settle { s with leases := s.leases.erase lease.leaseId } lease.request :=
    replaceStoredRequest_eq_store none hkeys
  have hcount := hg.bounded.handled
  simp only [markHandled, leaseRequestId, hl, hvalid, writeRequest, heq]
  refine ⟨_, _, rfl, ⟨rfl, rfl⟩, ?_⟩
  have hset := (hs.release lease.leaseId).settle (hg.consistent.release hl) hd (by
    simp only
    omega)
  exact hset

theorem renew_simulates (hc : Consistent K none s) (hs : Simulates s t) {now : Instant}
    {leaseId : LeaseId} {extendBy : Duration} {id : RequestId} {e : Instant}
    (hl : s.leases.lookup leaseId = some (id, e)) (hlt : now < e)
    (hfs : Representable s now (.renew leaseId extendBy))
    (hmemory : MemoryQueue.Representable t (.renew leaseId extendBy)) :
    ∃ leased, renew s now leaseId extendBy = (some (.ok ()),
        { s with leases := s.leases.insert leaseId (id, e + extendBy) }) ∧
      MemoryQueue.renew t leaseId extendBy = some (.ok (),
        { t with inFlight := t.inFlight.insert leaseId leased }) ∧
      Simulates { s with leases := s.leases.insert leaseId (id, e + extendBy) }
        { t with inFlight := t.inFlight.insert leaseId leased } := by
  have hne : t.inFlight.lookup leaseId ≠ none := by
    rw [Ne, hs.lookup_iff hc, hl]
    simp
  obtain ⟨leased, hleased⟩ := Option.ne_none_iff_exists'.mp hne
  have hextended := extended_of_le (hfs leaseId extendBy id e rfl hl hlt)
  have hextended' := extended_of_le (hmemory leaseId extendBy leased rfl hleased)
  refine ⟨{ leased with expiresAt := leased.expiresAt + extendBy }, ?_, ?_,
    hs.extend hl hleased _ _⟩
  · simp only [renew, hl, if_neg (Nat.not_le.mpr hlt), hextended]
  · simp only [MemoryQueue.renew, hleased, hextended', Option.map_some]

theorem reclaimExpired_eq {now : Instant}
    (hlive : ∀ l id e, s.leases.lookup l = some (id, e) → now < e) : reclaimExpired s now = s := by
  have hnone : expired s now = [] := by
    simp only [expired, List.map_eq_nil_iff, List.filter_eq_nil_iff]
    intro entry he
    obtain ⟨l, id, e⟩ := entry
    have hlt := hlive l id e (AList.mem_entries_iff.mp he)
    simpa using hlt
  simp only [reclaimExpired, hnone, List.foldl_nil]

end Operations

/-- A reply without the deadline of its lease. -/
def QueueReply.observed : QueueReply → QueueReply
  | .leased (some lease) => .leased (some { lease with expiresAt := 0 })
  | reply => reply

/-- One operation made on both queues, each of them reading its own clock. -/
structure Call (β : Type*) where
  env : Surroundings β
  clock : Instant
  op : QueueOp

def fsStep (codec : Codec β) (p : Process β) (c : Call β) : Process β :=
  p.step codec (.call c.env c.op)

def fsReply (codec : Codec β) : Process β → Call β → Option (StorageResult QueueReply)
  | .running s d, c =>
    match call codec c.env s d c.op with
    | .returned result _ _ => some (result.map QueueReply.observed)
    | _ => none
  | _, _ => none

def memoryStep (t : Option MemoryQueue.QueueState) (c : Call β) :
    Option MemoryQueue.QueueState :=
  t.bind fun t => (MemoryQueue.call c.clock t c.op).map Prod.snd

def memoryReply (t : Option MemoryQueue.QueueState) (c : Call β) :
    Option (StorageResult QueueReply) :=
  t.bind fun t => (MemoryQueue.call c.clock t c.op).map fun r => r.1.map QueueReply.observed

/-- Every write succeeds, no lease has reached its deadline, and a renewed deadline is an
`Instant`. -/
def Ordinary (K : Set String) (p : Process β) (c : Call β) : Prop :=
  Legal K p (.call c.env c.op) ∧ (∀ i, c.env.fate i = .completes) ∧
    ∀ s d, p = .running s d → Representable s c.env.now c.op ∧
      ∀ l id e, s.leases.lookup l = some (id, e) → c.env.now < e

/-- The in-memory queue reads another clock: its renewed deadlines are `Instant`s too. -/
def Renewable (t : Option MemoryQueue.QueueState) (c : Call β) : Prop :=
  ∀ t', t = some t' → MemoryQueue.Representable t' c.op

section Runs
variable {codec : Codec β} {K : Set String} {m n : ℕ} {s : QueueState} {d : Disk β}
  {t : MemoryQueue.QueueState}

def Agree (codec : Codec β) (n : ℕ) (c : Call β) (s : QueueState) (d : Disk β)
    (t : MemoryQueue.QueueState) : Prop :=
  ∃ result result' s' d' t', call codec c.env s d c.op = .returned result s' d' ∧
    MemoryQueue.call c.clock t c.op = some (result', t') ∧
    result.map QueueReply.observed = result'.map QueueReply.observed ∧
    OrdersWithin (n + c.op.steps) s' ∧ Simulates s' t'

theorem agree_of_not_leased (hg : Good codec K m s d) (ho : OrdersWithin n s)
    (hs : Simulates s t) {c : Call β} {l : LeaseId} (hop : c.op.presented = some l)
    (hl : s.leases.lookup l = none) : Agree codec n c s d t := by
  have hm : t.inFlight.lookup l = none := (hs.lookup_iff hg.consistent l).mpr hl
  have hfs := call_of_not_leased codec c.env d hop hl
  refine ⟨_, .error (.leaseNotFound l), s, d, t, hfs, ?_, rfl, ho.mono (Nat.le_add_right _ _), hs⟩
  obtain ⟨env, clock, op⟩ := c
  cases op with
  | markHandled lease =>
    cases hop
    simp [MemoryQueue.call, MemoryQueue.markHandled, MemoryQueue.removeLease, hm, Except.map]
  | reclaim lease opts =>
    cases hop
    simp [MemoryQueue.call, MemoryQueue.reclaim, MemoryQueue.removeLease, hm, Except.map]
  | abandon lease =>
    cases hop
    simp [MemoryQueue.call, MemoryQueue.abandon, MemoryQueue.removeLease, hm, Except.map]
  | renew leaseId extendBy =>
    cases hop
    simp [MemoryQueue.call, MemoryQueue.renew, hm, Except.map]
  | add r opts => cases hop
  | addBatch requests opts => cases hop
  | fetchNext => cases hop
  | isEmpty => cases hop
  | isFinished => cases hop
  | handledCount => cases hop
  | pendingCount => cases hop

theorem Simulates.isEmpty_eq (hs : Simulates s t) : t.pending.isEmpty = s.pending.isEmpty := by
  obtain ⟨deque, hdeque, hmap⟩ := hs.pending
  have hlen := congrArg List.length hmap
  simp only [List.length_map] at hlen
  rw [hdeque, OrderedMap.isEmpty, MemoryQueue.Frontier.isEmpty, Bool.eq_iff_iff,
    List.isEmpty_iff_length_eq_zero, List.isEmpty_iff_length_eq_zero, hlen]

theorem Simulates.len_eq (hs : Simulates s t) : t.pending.len = s.pending.len := by
  obtain ⟨deque, hdeque, hmap⟩ := hs.pending
  have hlen := congrArg List.length hmap
  simp only [List.length_map] at hlen
  rw [hdeque, OrderedMap.len, MemoryQueue.Frontier.len, hlen]

theorem Simulates.leases_isEmpty_eq (hs : Simulates s t) (hc : Consistent K none s) :
    t.inFlight.entries.isEmpty = s.leases.entries.isEmpty := by
  rw [Bool.eq_iff_iff, List.isEmpty_iff, List.isEmpty_iff, AList.entries_eq_nil_iff,
    AList.entries_eq_nil_iff]
  exact forall_congr' fun l => hs.lookup_iff hc l

theorem fetchNext_agree (hg : Good codec K m s d) (ho : OrdersWithin n s) (hs : Simulates s t)
    (hm : m < 2 ^ 63) {env : Surroundings β}
    (hlive : ∀ l id e, s.leases.lookup l = some (id, e) → env.now < e) (clock : Instant) :
    Agree codec n ⟨env, clock, .fetchNext⟩ s d t := by
  have ho' : OrdersWithin (n + 1) s := ho.mono (Nat.le_succ n)
  simp only [Agree, call, MemoryQueue.call, fetchNext, reclaimExpired_eq hlive, QueueOp.steps]
  cases hp : s.pending.popFirst with
  | none =>
    obtain ⟨deque, hdeque, hmap⟩ := hs.pending
    rw [OrderedMap.popFirst_eq_none_iff.mp hp] at hmap
    have hnil : deque = [] := List.map_eq_nil_iff.mp hmap.symm
    simp only [MemoryQueue.fetchNext, hdeque, hnil, MemoryQueue.Frontier.popFront]
    exact ⟨_, _, s, d, t, rfl, rfl, rfl, ho', hs⟩
  | some popped =>
    obtain ⟨⟨o, id⟩, rest⟩ := popped
    obtain ⟨-, st, hst, -⟩ :=
      hg.consistent.pending_stored o id (OrderedMap.find_of_popFirst hp)
    have hlease := hg.bounded.lease
    have hroom : s.nextLeaseId + 1 ≤ u64Max := by
      simp only [u64Max]
      omega
    have hr : storedRequest s id = some st.request := by rw [storedRequest, hst]; rfl
    obtain ⟨deque, hdeque, hgrant⟩ :=
      hs.grant hp hr (by omega) (env.later + leaseTtl) (clock + MemoryQueue.leaseTtl)
    simp only [hst, if_pos hroom, MemoryQueue.fetchNext, hdeque, MemoryQueue.Frontier.popFront]
    refine ⟨_, _, _, d, _, rfl, rfl, ?_, ⟨ho'.order, ho'.forefront⟩, hgrant⟩
    simp only [Except.map, QueueReply.observed, hs.nextLeaseId]

theorem call_agree (inj : Set.InjOn RequestId.fromUniqueKey K) (hg : Good codec K m s d)
    (ho : OrdersWithin n s) (hs : Simulates s t) (hm : m < 2 ^ 63) {c : Call β}
    (hc : Ordinary K (.running s d) c) (hmemory : MemoryQueue.Representable t c.op)
    (hn : n + c.op.steps < 2 ^ 63 - 1) : Agree codec n c s d t := by
  obtain ⟨env, clock, op⟩ := c
  obtain ⟨⟨hadd, hret⟩, hfate, hrunning⟩ := hc
  replace hfate : ∀ i, env.fate i = .completes := hfate
  obtain ⟨hfs, hlive⟩ := hrunning s d rfl
  replace hlive : ∀ l id e, s.leases.lookup l = some (id, e) → env.now < e := hlive
  -- an operation that presents a lease succeeds on both queues, or the lease is unknown to both
  cases op with
  | add r opts =>
    obtain ⟨hid, hk⟩ := hadd r (by simp [QueueOp.added])
    obtain ⟨s', d', hcall, ho', hs'⟩ := addLocked_simulates inj hg ho hs hid hk hn opts
    refine ⟨.ok (.info (MemoryQueue.addLocked t r opts).1), _, s', d', _, ?_, rfl, rfl, ho', hs'⟩
    simp only [call, hfate, hcall]
    rfl
  | addBatch requests opts =>
    replace hn : n + max 1 requests.length < 2 ^ 63 - 1 := hn
    have hlen : n + requests.length ≤ n + max 1 requests.length := by omega
    replace hadd : ∀ r ∈ requests, r.Identified ∧ r.uniqueKey ∈ K := hadd
    obtain ⟨s', d', hcall, ho', hs'⟩ :=
      addBatch_simulates inj hg ho hs hadd (by omega) opts hfate []
    refine ⟨.ok (.batch (MemoryQueue.addBatch t opts requests).1), _, s', d', _, ?_, rfl, rfl,
      ho'.mono hlen, hs'⟩
    simp only [call, hcall]
    rfl
  | fetchNext => exact fetchNext_agree hg ho hs hm hlive clock
  | markHandled lease =>
    cases hl : s.leases.lookup lease.leaseId with
    | none => exact agree_of_not_leased hg ho hs rfl hl
    | some entry =>
      have hun := hret lease rfl
      obtain ⟨-, -, leased, hleased, hkey⟩ := hs.returned hg hun hl
      obtain ⟨s', d', hcall, ⟨hco, hcf⟩, hs'⟩ := markHandled_simulates hg hs hun hm hl
      have ho' := ho.mono (Nat.le_succ n)
      refine ⟨.ok .unit, .ok .unit, s', d', _, ?_, ?_, rfl,
        ⟨by rw [hco]; exact ho'.order, by rw [hcf]; exact ho'.forefront⟩, hs'⟩
      · simp only [call, hfate, hcall]
        rfl
      · simp [MemoryQueue.call, MemoryQueue.markHandled, MemoryQueue.removeLease, hleased, hkey,
          Except.map]
  | reclaim lease opts =>
    cases hl : s.leases.lookup lease.leaseId with
    | none => exact agree_of_not_leased hg ho hs rfl hl
    | some entry =>
      have hun := hret lease rfl
      obtain ⟨-, -, leased, hleased, -⟩ := hs.returned hg hun hl
      obtain ⟨s', d', hcall, ho', hs'⟩ :=
        requeue_simulates hg ho hs hun hn hl opts.forefront opts.incrementRetry
      refine ⟨.ok .unit, .ok .unit, s', d', _, ?_, ?_, rfl, ho', hs'⟩
      · simp only [call, hfate, hcall]
        rfl
      · simp [MemoryQueue.call, MemoryQueue.reclaim, MemoryQueue.removeLease, hleased, Except.map]
  | abandon lease =>
    cases hl : s.leases.lookup lease.leaseId with
    | none => exact agree_of_not_leased hg ho hs rfl hl
    | some entry =>
      have hun := hret lease rfl
      obtain ⟨-, -, leased, hleased, -⟩ := hs.returned hg hun hl
      obtain ⟨s', d', hcall, ho', hs'⟩ := requeue_simulates hg ho hs hun hn hl true false
      refine ⟨.ok .unit, .ok .unit, s', d', _, ?_, ?_, rfl, ho', hs'⟩
      · simp only [call, hfate, hcall]
        rfl
      · simp [MemoryQueue.call, MemoryQueue.abandon, MemoryQueue.removeLease, hleased, Except.map,
          Request.reclaimed, MemoryQueue.Frontier.push]
  | renew leaseId extendBy =>
    cases hl : s.leases.lookup leaseId with
    | none => exact agree_of_not_leased hg ho hs rfl hl
    | some entry =>
      obtain ⟨id, e⟩ := entry
      have ho' := ho.mono (Nat.le_succ n)
      obtain ⟨leased, hrenew, hrenew', hs'⟩ :=
        renew_simulates hg.consistent hs hl (hlive leaseId id e hl) hfs hmemory
      have hcall : call codec env s d (.renew leaseId extendBy) = .returned (.ok .unit)
          { s with leases := s.leases.insert leaseId (id, e + extendBy) } d := by
        simp only [call, hrenew]
        rfl
      have hcall' : MemoryQueue.call clock t (.renew leaseId extendBy) =
          some (.ok .unit, { t with inFlight := t.inFlight.insert leaseId leased }) := by
        simp only [MemoryQueue.call, hrenew', Option.map_some]
        rfl
      exact ⟨_, _, _, _, _, hcall, hcall', rfl, ⟨ho'.order, ho'.forefront⟩, hs'⟩
  | isEmpty =>
    refine ⟨_, _, s, d, t, rfl, rfl, ?_, ho.mono (Nat.le_succ n), hs⟩
    rw [hs.isEmpty_eq]
  | isFinished =>
    refine ⟨_, _, s, d, t, rfl, rfl, ?_, ho.mono (Nat.le_succ n), hs⟩
    rw [hs.isEmpty_eq, hs.leases_isEmpty_eq hg.consistent]
  | handledCount =>
    refine ⟨_, _, s, d, t, rfl, rfl, ?_, ho.mono (Nat.le_succ n), hs⟩
    rw [hs.handledCount]
  | pendingCount =>
    refine ⟨_, _, s, d, t, rfl, rfl, ?_, ho.mono (Nat.le_succ n), hs⟩
    rw [hs.len_eq]

def Related (codec : Codec β) (K : Set String) (n : ℕ) (p : Process β)
    (t : Option MemoryQueue.QueueState) : Prop :=
  ∃ s d t', p = .running s d ∧ t = some t' ∧ Good codec K n s d ∧ OrdersWithin n s ∧
    Simulates s t'

theorem related_step (inj : Set.InjOn RequestId.fromUniqueKey K) {p : Process β}
    {t : Option MemoryQueue.QueueState} {c : Call β} (h : Related codec K n p t)
    (hc : Ordinary K p c) (hmemory : Renewable t c) (hn : n + c.op.steps ≤ 2 ^ 63 - 2) :
    fsReply codec p c = memoryReply t c ∧ (fsReply codec p c).isSome ∧
      Related codec K (n + c.op.steps) (fsStep codec p c) (memoryStep t c) := by
  obtain ⟨s, d, t', rfl, rfl, hg, ho, hs⟩ := h
  have hsteps : 1 ≤ c.op.steps := by
    cases c.op <;> simp [QueueOp.steps]
  obtain ⟨result, result', s', d', t₁, hcall, hmem, hobs, ho', hs'⟩ :=
    call_agree inj hg ho hs (by omega) hc (hmemory t' rfl) (by omega)
  have hfs := (hc.2.2 s d rfl).1
  have hg' := call_good inj hg (by simp only [u64Max]; omega) c.env hc.1 hfs
  rw [hcall] at hg'
  refine ⟨?_, ?_, s', d', t₁, ?_, ?_, FsQueue.Kept.mono hg' (by omega), ho', hs'⟩
  · simp only [fsReply, hcall, memoryReply, Option.bind_some, hmem, Option.map_some, hobs]
  · simp only [fsReply, hcall]
    rfl
  · simp only [fsStep, Process.step, hcall]
  · simp only [memoryStep, Option.bind_some, hmem, Option.map_some]

end Runs

/-- With fewer than `2 ^ 63 - 1` steps, a batch counting as many as it has requests, the
order numbers last. -/
theorem fs_refines_memory (codec : Codec β) {K : Set String}
    (inj : Set.InjOn RequestId.fromUniqueKey K) (calls : List (Call β))
    (hb : (calls.map fun c => c.op.steps).sum < 2 ^ 63 - 1)
    (ordinary : Machine.Along (fsStep codec) (Ordinary K) Process.start calls)
    (renewable : Machine.Along memoryStep Renewable (some MemoryQueue.new) calls) :
    Machine.outputs (fsStep codec) (fsReply codec) Process.start calls =
        Machine.outputs memoryStep memoryReply (some MemoryQueue.new) calls ∧
      ∀ reply ∈ Machine.outputs (fsStep codec) (fsReply codec) Process.start calls,
        reply.isSome := by
  have keep : ∀ n p t (c : Call β), Related codec K n p t → Ordinary K p c → Renewable t c →
      n + c.op.steps ≤ 2 ^ 63 - 2 →
      fsReply codec p c = memoryReply t c ∧ (fsReply codec p c).isSome ∧
        Related codec K (n + c.op.steps) (fsStep codec p c) (memoryStep t c) :=
    fun n p t c h hc hmemory hn => related_step inj h hc hmemory hn
  have hstart : Related codec K 0 Process.start (some MemoryQueue.new) :=
    ⟨_, _, _, rfl, rfl, kept_empty codec _, ordersWithin_empty, simulates_empty⟩
  exact Machine.outputs_eq _ _ keep hstart ordinary renewable (by omega)

theorem ordinary_running {K : Set String} {s : QueueState} {d : Disk β} {c : Call β}
    (legal : Legal K (.running s d) (.call c.env c.op)) (hfate : ∀ i, c.env.fate i = .completes)
    (hfs : Representable s c.env.now c.op) (hlive : ∀ x ∈ s.leases.entries, c.env.now < x.2.2) :
    Ordinary K (.running s d) c := by
  refine ⟨legal, hfate, ?_⟩
  intro s' d' hp
  cases hp
  refine ⟨hfs, ?_⟩
  intro l id e hl
  exact hlive ⟨l, id, e⟩ (AList.mem_entries_iff.mpr hl)

theorem renewable_of_ne {t : Option MemoryQueue.QueueState} {c : Call β}
    (h : ∀ leaseId extendBy, c.op ≠ .renew leaseId extendBy) : Renewable t c :=
  fun _ _ => MemoryQueue.representable_of_ne h

/-- A forefront add, a front hand-back, a renewal, and a lease that is given back twice. -/
def ordinaryCalls : List (Call (Request × Option ℤ)) :=
  [⟨.calm 0, 5, .add requestA { forefront := true }⟩, ⟨.calm 0, 5, .fetchNext⟩,
   ⟨.calm 1, 5, .reclaim ⟨requestA, 0, leaseTtl⟩ { forefront := true }⟩, ⟨.calm 2, 6, .fetchNext⟩,
   ⟨.calm 2, 6, .renew 1 leaseTtl⟩,
   ⟨.calm 2, 6, .markHandled ⟨requestA.incrementRetry, 1, leaseTtl + 2⟩⟩,
   ⟨.calm 3, 7, .markHandled ⟨requestA.incrementRetry, 1, leaseTtl + 2⟩⟩]

theorem along_ordinaryCalls :
    Machine.Along (fsStep plainCodec) (Ordinary {"a"}) Process.start ordinaryCalls := by
  have hquiet : ∀ {s : QueueState} {now : Instant} {op : QueueOp},
      (∀ leaseId extendBy, op ≠ .renew leaseId extendBy) → Representable s now op :=
    fun h => representable_of_ne h
  refine ⟨ordinary_running ?_ (fun _ => rfl) (hquiet (by simp)) (by decide),
    ordinary_running ?_ (fun _ => rfl) (hquiet (by simp)) (by decide),
    ordinary_running ⟨?_, ?_⟩ (fun _ => rfl) (hquiet (by simp)) (by decide),
    ordinary_running ?_ (fun _ => rfl) (hquiet (by simp)) (by decide),
    ordinary_running ?_ (fun _ => rfl) ?_ (by decide),
    ordinary_running ⟨?_, ?_⟩ (fun _ => rfl) (hquiet (by simp)) (by decide),
    ordinary_running ⟨?_, ?_⟩ (fun _ => rfl) (hquiet (by simp)) (by decide), trivial⟩
  · refine legal_call _ _ ?_ rfl
    intro r hr
    cases List.mem_singleton.mp hr
    exact ⟨rfl, rfl⟩
  · exact legal_call _ _ (by simp [QueueOp.added]) rfl
  · simp [QueueOp.added]
  · intro lease h id e st hl hst
    cases h
    have hid : some (requestA.id, leaseTtl) = some (id, e) := hl
    cases hid
    have hreq : some (⟨requestA, some (-1)⟩ : StoredRequest) = some st := hst
    cases hreq
    exact ⟨rfl, rfl⟩
  · exact legal_call _ _ (by simp [QueueOp.added]) rfl
  · exact legal_call _ _ (by simp [QueueOp.added]) rfl
  · intro leaseId extendBy id e hop hl _
    cases hop
    have hid : some (requestA.id, 2 + leaseTtl) = some (id, e) := hl
    cases hid
    decide
  · simp [QueueOp.added]
  · intro lease h id e st hl hst
    cases h
    have hid : some (requestA.id, 2 + leaseTtl + leaseTtl) = some (id, e) := hl
    cases hid
    have hreq : some (⟨requestA.incrementRetry, some (-2)⟩ : StoredRequest) = some st := hst
    cases hreq
    exact ⟨rfl, rfl⟩
  · simp [QueueOp.added]
  · intro lease h id e st hl
    cases h
    have hgone : (none : Option (RequestId × Instant)) = some (id, e) := hl
    cases hgone

theorem renewable_ordinaryCalls :
    Machine.Along memoryStep Renewable (some MemoryQueue.new) ordinaryCalls := by
  have hquiet : ∀ {t : Option MemoryQueue.QueueState} {c : Call (Request × Option ℤ)},
      (∀ leaseId extendBy, c.op ≠ .renew leaseId extendBy) → Renewable t c :=
    fun h => renewable_of_ne h
  refine ⟨hquiet (by simp), hquiet (by simp), hquiet (by simp), hquiet (by simp), ?_,
    hquiet (by simp), hquiet (by simp), trivial⟩
  intro t ht leaseId extendBy leased hop hl
  cases ht
  cases hop
  have hleased : some (⟨requestA.incrementRetry, 6 + MemoryQueue.leaseTtl⟩ :
      MemoryQueue.LeasedRequest) = some leased := hl
  cases hleased
  decide

theorem fs_refines_memory_ordinaryCalls :
    Machine.outputs (fsStep plainCodec) (fsReply plainCodec) Process.start ordinaryCalls =
        Machine.outputs memoryStep memoryReply (some MemoryQueue.new) ordinaryCalls ∧
      ∀ reply ∈ Machine.outputs (fsStep plainCodec) (fsReply plainCodec) Process.start
        ordinaryCalls, reply.isSome :=
  fs_refines_memory plainCodec (Set.injOn_singleton _ "a") ordinaryCalls (by decide)
    along_ordinaryCalls renewable_ordinaryCalls

/-- A renewal for too long panics on both queues, and only the in-memory one is lost by it. -/
theorem fs_queue_outlives_panic :
    (Machine.outputs (fsStep plainCodec) (fsReply plainCodec) Process.start
        [⟨.calm 0, 0, .add requestA {}⟩, ⟨.calm 0, 0, .fetchNext⟩,
          ⟨.calm 0, 0, .renew 0 Duration.max⟩, ⟨.calm 0, 0, .isEmpty⟩]).map Option.isSome =
      [true, true, false, true] ∧
    (Machine.outputs memoryStep memoryReply (some MemoryQueue.new)
        ([⟨.calm 0, 0, .add requestA {}⟩, ⟨.calm 0, 0, .fetchNext⟩,
          ⟨.calm 0, 0, .renew 0 Duration.max⟩, ⟨.calm 0, 0, .isEmpty⟩] :
            List (Call (Request × Option ℤ)))).map Option.isSome =
      [true, true, false, false] := by
  decide +kernel

def freshRequest (key : ℕ → String) (i : ℕ) : Request :=
  Request.get ⟨"https://a.test/", some "a.test"⟩ (key i)

def addCall (key : ℕ → String) (i : ℕ) : Call (Request × Option ℤ) :=
  ⟨.calm 0, 0, .add (freshRequest key i) {}⟩

def Filled (key : ℕ → String) (j : ℕ) (p : Process (Request × Option ℤ)) : Prop :=
  ∃ s d, p = .running s d ∧ s.nextOrder = j + 1 ∧ s.leases = ∅ ∧
    ∀ i, j ≤ i → i < 2 ^ 64 → s.dedup.lookup (key i) = none

section Exhaustion
variable {key : ℕ → String}

theorem filled_step (hkey : ∀ i j, i < 2 ^ 64 → j < 2 ^ 64 → key i = key j → i = j) {j : ℕ}
    {p : Process (Request × Option ℤ)} (h : Filled key j p) (hj : j + 2 ≤ 2 ^ 63 - 1) :
    Filled key (j + 1) (fsStep plainCodec p (addCall key j)) := by
  obtain ⟨s, d, rfl, ho, hl, hd⟩ := h
  have hnew : s.dedup.lookup (freshRequest key j).uniqueKey = none := hd j le_rfl (by omega)
  have hroom : s.nextOrder + 1 ≤ i64Max := by
    simp only [i64Max]
    omega
  have hstep : fsStep plainCodec (.running s d) (addCall key j) =
      .running (accept { s with nextOrder := s.nextOrder + 1 } (freshRequest key j) s.nextOrder)
        (d.put plainCodec (freshRequest key j) (some s.nextOrder)) := by
    simp only [fsStep, Process.step, addCall, call, addLocked, hnew, QueueState.takeOrder, hroom,
      Bool.false_eq_true, if_false, if_true, Surroundings.calm, writeRequest, Outcome.map]
  refine ⟨_, _, hstep, ?_, hl, ?_⟩
  · simp only [accept, ho]
    omega
  · intro i hi hlt
    have hne : key i ≠ (freshRequest key j).uniqueKey := by
      intro he
      have := hkey i j hlt (by omega) he
      omega
    simp only [accept, AList.lookup_insert_ite, if_neg hne]
    exact hd i (by omega) hlt

theorem filled_run (hkey : ∀ i j, i < 2 ^ 64 → j < 2 ^ 64 → key i = key j → i = j) {j : ℕ}
    (hj : j + 1 ≤ 2 ^ 63 - 1) :
    Filled key j (((List.range j).map (addCall key)).foldl (fsStep plainCodec) Process.start) := by
  induction j with
  | zero => exact ⟨_, _, rfl, rfl, rfl, fun _ _ _ => rfl⟩
  | succ j ih =>
    rw [List.range_succ, List.map_append, List.foldl_append]
    exact filled_step hkey (ih (by omega)) hj

theorem Filled.ordinary {j : ℕ} {p : Process (Request × Option ℤ)} (h : Filled key j p)
    {K : Set String} (hK : key j ∈ K) : Ordinary K p (addCall key j) := by
  obtain ⟨s, d, rfl, -, hl, -⟩ := h
  refine ⟨legal_call _ _ ?_ rfl, fun _ => rfl, ?_⟩
  · intro r hr
    cases List.mem_singleton.mp hr
    exact ⟨rfl, hK⟩
  · intro s' d' hp
    cases hp
    refine ⟨representable_of_ne (by simp [addCall]), ?_⟩
    intro l id e hlook
    rw [hl] at hlook
    cases hlook

theorem ordinary_adds (hkey : ∀ i j, i < 2 ^ 64 → j < 2 ^ 64 → key i = key j → i = j) {n : ℕ}
    (hn : n ≤ 2 ^ 63 - 1) :
    Machine.Along (fsStep plainCodec) (Ordinary (Set.image key (Set.Iio (2 ^ 64)))) Process.start
      ((List.range n).map (addCall key)) := by
  induction n with
  | zero => trivial
  | succ n ih =>
    rw [List.range_succ, List.map_append, Machine.along_append]
    refine ⟨ih (by omega), ?_, trivial⟩
    apply (filled_run hkey (by omega)).ordinary
    exact Set.mem_image_of_mem key (by simp only [Set.mem_Iio]; omega)

theorem renewable_adds (key : ℕ → String) (is : List ℕ) (t : Option MemoryQueue.QueueState) :
    Machine.Along memoryStep Renewable t (is.map (addCall key)) := by
  induction is generalizing t with
  | nil => trivial
  | cons i is ih => exact ⟨renewable_of_ne (by simp [addCall]), ih _⟩

/-- The last order number of an `i64` is never given out. -/
theorem Filled.exhausted {n : ℕ} {p : Process (Request × Option ℤ)} (h : Filled key n p)
    (hn : n = 2 ^ 63 - 2) : fsReply plainCodec p (addCall key n) =
      some (.error (.backend "request queue order exhausted")) := by
  obtain ⟨s, d, rfl, ho, -, hd⟩ := h
  have hnew : s.dedup.lookup (freshRequest key n).uniqueKey = none := hd n le_rfl (by omega)
  have hfull : ¬ s.nextOrder + 1 ≤ i64Max := by
    simp only [i64Max]
    omega
  simp only [fsReply, addCall, call, addLocked, hnew, QueueState.takeOrder, hfull,
    Bool.false_eq_true, if_false, Outcome.map, Except.map]

end Exhaustion

/-- `2 ^ 63 - 1` adds of different requests are one too many for the file-system queue. -/
theorem fs_refines_memory_fails_at_last_order :
    ¬ ∀ (K : Set String), Set.InjOn RequestId.fromUniqueKey K →
      ∀ calls : List (Call (Request × Option ℤ)), calls.length < 2 ^ 63 →
        (calls.map fun c => c.op.steps).sum < 2 ^ 63 →
        Machine.Along (fsStep plainCodec) (Ordinary K) Process.start calls →
        Machine.Along memoryStep Renewable (some MemoryQueue.new) calls →
        Machine.outputs (fsStep plainCodec) (fsReply plainCodec) Process.start calls =
          Machine.outputs memoryStep memoryReply (some MemoryQueue.new) calls := by
  intro hall
  obtain ⟨key, hids⟩ := Fingerprint.exists_keys
  have hkey : ∀ i j, i < 2 ^ 64 → j < 2 ^ 64 → key i = key j → i = j :=
    fun i j hi hj he => hids i j hi hj (congrArg _ he)
  have hinj : Set.InjOn RequestId.fromUniqueKey (Set.image key (Set.Iio (2 ^ 64))) := by
    intro k hk k' hk' he
    obtain ⟨i, hi, rfl⟩ := hk
    obtain ⟨j, hj, rfl⟩ := hk'
    rw [hids i j hi hj he]
  obtain ⟨n, hn⟩ : ∃ n, n = 2 ^ 63 - 2 := ⟨_, rfl⟩
  have hsteps : (((List.range (n + 1)).map (addCall key)).map fun c => c.op.steps).sum = n + 1 := by
    have hone : ((fun c : Call (Request × Option ℤ) => c.op.steps) ∘ addCall key) =
      fun _ => 1 := rfl
    rw [List.map_map, hone, List.map_const', List.sum_replicate, List.length_range]
    simp
  have heq := hall _ hinj ((List.range (n + 1)).map (addCall key))
    (by rw [List.length_map, List.length_range]; omega) (by rw [hsteps]; omega)
    (ordinary_adds hkey (by omega)) (renewable_adds key _ _)
  rw [List.range_succ, List.map_append, Machine.outputs_append, Machine.outputs_append] at heq
  have hlast := (List.append_inj' heq rfl).2
  simp only [List.map_cons, List.map_nil, Machine.outputs, List.cons.injEq, and_true] at hlast
  rw [(filled_run hkey (by omega)).exhausted hn] at hlast
  generalize ((List.range n).map (addCall key)).foldl memoryStep (some MemoryQueue.new) = t at hlast
  cases t with
  | none => cases hlast
  | some t => cases hlast

end Millipede.FsQueue
