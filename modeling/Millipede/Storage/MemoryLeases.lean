import Millipede.Storage.LeaseService
import Millipede.Storage.MemoryConservation

/-!
# The in-memory queue is a queue with exclusive leases

Under either policy, and whatever the attempts have made of their requests: a request of the
frontier belongs to the key under which it was added, which need not be its own any more, so
the relation to the abstract queue pairs the two. No lease is ever taken back.
-/

namespace Millipede.MemoryQueue

/-- The requests of the frontier wait in the abstract queue, each under one key. -/
def Waits (f : Frontier) (q : LeaseQueue) : Prop :=
  ∃ waiting : List (String × Request), waiting.Nodup ∧
    f.requests.Perm (waiting.map Prod.snd) ∧
    ∀ key request, (key, request) ∈ waiting ↔ q.place key = .pending request

structure Models (n : ℕ) (t : QueueState) (q : LeaseQueue) : Prop where
  active : t.pending.Active
  known : ∀ key, t.dedup.lookup key = none ↔ q.place key = .unknown
  waits : Waits t.pending q
  leased : ∀ leaseId request,
    (t.inFlight.lookup leaseId).map LeasedRequest.request = some request ↔
      ∃ key, q.place key = .leased leaseId request
  issued : ∀ leaseId key, q.issued leaseId = some key → leaseId < t.nextLeaseId
  fetched : t.nextLeaseId ≤ n

variable {n : ℕ} {t : QueueState} {q : LeaseQueue}

theorem models_new (policy : MemoryQueuePolicy) : Models 0 (withPolicy policy) .empty where
  active := (Frontier.active_new policy).1
  known := fun key => ⟨fun _ => rfl, fun _ => rfl⟩
  waits := by
    refine ⟨[], List.nodup_nil, ?_, ?_⟩
    · have hnil : (withPolicy policy).pending.requests = [] := (Frontier.active_new policy).2
      rw [hnil]
      exact .refl _
    · intro key request
      constructor
      · intro h
        cases h
      · intro h
        cases h
  leased := by
    intro leaseId request
    constructor
    · intro h
      cases h
    · rintro ⟨key, h⟩
      cases h
  issued := by
    intro leaseId key h
    cases h
  fetched := le_rfl

theorem Models.mono {m : ℕ} (h : Models n t q) (hnm : n ≤ m) : Models m t q :=
  { h with fetched := h.fetched.trans hnm }

theorem Frontier.isEmpty_iff {f : Frontier} (h : f.Active) :
    f.isEmpty = true ↔ f.requests = [] := by
  cases f with
  | fifo requests => exact List.isEmpty_iff
  | domainRoundRobin f =>
    constructor
    · intro hempty
      have hentries : f.byHost.entries = [] := List.isEmpty_iff.mp hempty
      simp [requests, DomainRoundRobin.requests, AList.values, hentries]
    · intro hnil
      rw [isEmpty, List.isEmpty_iff, AList.entries_eq_nil_iff]
      intro host
      by_contra hsome
      obtain ⟨queue, hqueue⟩ := Option.ne_none_iff_exists'.mp hsome
      have hmem : queue ∈ f.byHost.values := AList.mem_values_iff.mpr ⟨host, hqueue⟩
      exact h.busy host queue hqueue (List.flatten_eq_nil_iff.mp hnil queue hmem)

theorem Models.idle_iff (h : Models n t q) : t.pending.isEmpty = true ↔ q.Idle := by
  obtain ⟨waiting, -, hperm, hmem⟩ := h.waits
  rw [Frontier.isEmpty_iff h.active]
  constructor
  · intro hnil key request hp
    rw [hnil] at hperm
    have hwaiting : waiting = [] := List.map_eq_nil_iff.mp (List.nil_perm.mp hperm)
    have hin := (hmem key request).mpr hp
    rw [hwaiting] at hin
    cases hin
  · intro hidle
    have hwaiting : waiting = [] := by
      apply List.eq_nil_iff_forall_not_mem.mpr
      rintro ⟨key, request⟩ hin
      exact hidle key request ((hmem key request).mp hin)
    rw [hwaiting] at hperm
    exact List.perm_nil.mp hperm

theorem Models.finished_iff (h : Models n t q) :
    (t.pending.isEmpty && t.inFlight.entries.isEmpty) = true ↔ q.Finished := by
  rw [LeaseQueue.finished_iff, Bool.and_eq_true, h.idle_iff, List.isEmpty_iff,
    AList.entries_eq_nil_iff]
  refine and_congr_right fun _ => ?_
  constructor
  · intro hnone key leaseId request hp
    have hsome := (h.leased leaseId request).mpr ⟨key, hp⟩
    rw [hnone leaseId] at hsome
    cases hsome
  · intro hfree leaseId
    by_contra hsome
    obtain ⟨leased, hleased⟩ := Option.ne_none_iff_exists'.mp hsome
    obtain ⟨key, hp⟩ := (h.leased leaseId leased.request).mp (by rw [hleased]; rfl)
    exact hfree key leaseId leased.request hp

theorem Waits.push {f : Frontier} (h : Waits f q) (hactive : f.Active) (forefront : Bool)
    {key : String} {request : Request} (hkey : ∀ r, q.place key ≠ .pending r)
    (hput : ∀ leaseId r, Place.pending request ≠ .leased leaseId r) :
    Waits (f.push forefront request) (q.put key (.pending request) hput) := by
  obtain ⟨waiting, hnodup, hperm, hmem⟩ := h
  have hnew : ∀ r, (key, r) ∉ waiting := fun r hin => hkey r ((hmem key r).mp hin)
  refine ⟨(key, request) :: waiting, List.nodup_cons.mpr ⟨hnew request, hnodup⟩, ?_, ?_⟩
  · exact ((Frontier.push_spec hactive forefront request).2).trans (hperm.cons request)
  · intro k r
    rw [LeaseQueue.place_put, List.mem_cons]
    by_cases hk : k = key
    · subst hk
      rw [if_pos rfl]
      constructor
      · rintro (heq | hin)
        · cases heq
          rfl
        · exact absurd hin (hnew r)
      · intro hp
        cases hp
        exact .inl rfl
    · rw [if_neg hk, ← hmem k r]
      constructor
      · rintro (heq | hin)
        · cases heq
          exact absurd rfl hk
        · exact hin
      · exact .inr

theorem Waits.put {f : Frontier} (h : Waits f q) {key : String} {place : Place}
    (hput : ∀ leaseId r, place ≠ .leased leaseId r) (hold : ∀ r, q.place key ≠ .pending r)
    (hnew : ∀ r, place ≠ .pending r) : Waits f (q.put key place hput) := by
  obtain ⟨waiting, hnodup, hperm, hmem⟩ := h
  refine ⟨waiting, hnodup, hperm, ?_⟩
  intro k r
  rw [LeaseQueue.place_put, hmem k r]
  by_cases hk : k = key
  · subst hk
    rw [if_pos rfl]
    exact ⟨fun hp => absurd hp (hold r), fun hp => absurd hp (hnew r)⟩
  · rw [if_neg hk]

theorem Models.addLocked (h : Models n t q) (request : Request) (opts : AddOptions) :
    Models n (addLocked t request opts).2 (q.add request) := by
  unfold MemoryQueue.addLocked
  split
  · rename_i requestId hknown
    have hplace : q.place request.uniqueKey ≠ .unknown := by
      intro hp
      rw [(h.known _).mpr hp] at hknown
      cases hknown
    have hsame : q.add request = q := if_neg hplace
    rw [hsame]
    exact h
  · rename_i hnew
    have hplace := (h.known _).mp hnew
    have hput : q.add request = q.put request.uniqueKey (.pending request) (by simp) :=
      if_pos hplace
    have hold : ∀ r, q.place request.uniqueKey ≠ .pending r := by
      intro r hp
      rw [hplace] at hp
      cases hp
    rw [hput]
    refine ⟨(Frontier.push_spec h.active opts.forefront request).1, ?_,
      h.waits.push h.active opts.forefront hold _, ?_, h.issued, h.fetched⟩
    · intro key
      rw [LeaseQueue.place_put, AList.lookup_insert_ite]
      by_cases hk : key = request.uniqueKey
      · rw [if_pos hk, if_pos hk]
        constructor
        · intro hsome
          cases hsome
        · intro hp
          cases hp
      · rw [if_neg hk, if_neg hk]
        exact h.known key
    · intro leaseId r
      rw [h.leased leaseId r]
      constructor
      · rintro ⟨key, hp⟩
        refine ⟨key, ?_⟩
        rw [LeaseQueue.place_put, if_neg, hp]
        intro hk
        rw [hk, hplace] at hp
        cases hp
      · rintro ⟨key, hp⟩
        rw [LeaseQueue.place_put] at hp
        split_ifs at hp with hk
        · exact ⟨key, hp⟩

theorem Models.addBatch (h : Models n t q) (requests : List Request) (opts : AddOptions) :
    Models n (addBatch t opts requests).2 (q.addAll requests) := by
  induction requests generalizing t q with
  | nil => exact h
  | cons request requests ih => exact ih (h.addLocked request opts)

theorem Models.grant (h : Models n t q) {request : Request} {rest : Frontier}
    (hactive : rest.Active) (hperm : t.pending.requests.Perm (request :: rest.requests))
    (hn : n + 1 < 2 ^ 64) (expiresAt : Instant) :
    ∃ key fresh, q.place key = .pending request ∧ Models (n + 1)
      { t with
        pending := rest
        nextLeaseId := (t.nextLeaseId + 1) % 2 ^ 64
        inFlight := t.inFlight.insert t.nextLeaseId { request, expiresAt } }
      (q.grant key t.nextLeaseId request fresh) := by
  obtain ⟨waiting, hnodup, hwaiting, hmem⟩ := h.waits
  have hfetched := h.fetched
  have hroom : (t.nextLeaseId + 1) % 2 ^ 64 = t.nextLeaseId + 1 := Nat.mod_eq_of_lt (by omega)
  have hfresh : q.issued t.nextLeaseId = none := by
    by_contra hsome
    obtain ⟨key, hkey⟩ := Option.ne_none_iff_exists'.mp hsome
    exact lt_irrefl _ (h.issued _ key hkey)
  have hin : request ∈ waiting.map Prod.snd :=
    (hperm.symm.trans hwaiting).subset List.mem_cons_self
  obtain ⟨⟨key, r⟩, hpair, rfl⟩ := List.mem_map.mp hin
  have hplace := (hmem key r).mp hpair
  obtain ⟨others, hothers⟩ : ∃ others, waiting.Perm ((key, r) :: others) := by
    obtain ⟨before, after, rfl⟩ := List.append_of_mem hpair
    exact ⟨before ++ after, List.perm_middle⟩
  obtain ⟨hnew, hnodup⟩ := List.nodup_cons.mp (hothers.nodup_iff.mp hnodup)
  have hrest : rest.requests.Perm (others.map Prod.snd) :=
    (hperm.symm.trans (hwaiting.trans (hothers.map Prod.snd))).cons_inv
  refine ⟨key, hfresh, hplace, ?_⟩
  rw [hroom]
  refine ⟨hactive, ?_, ⟨others, hnodup, hrest, ?_⟩, ?_, ?_, ?_⟩
  · intro k
    rw [LeaseQueue.place_grant, h.known k]
    split_ifs with hk
    · subst hk
      rw [hplace]
      constructor
      · intro hp
        cases hp
      · intro hp
        cases hp
    · rfl
  · intro k r'
    have hsame := hmem k r'
    rw [hothers.mem_iff, List.mem_cons] at hsame
    rw [LeaseQueue.place_grant]
    split_ifs with hk
    · subst hk
      constructor
      · intro hin'
        have hp := hsame.mp (.inr hin')
        rw [hplace] at hp
        cases hp
        exact absurd hin' hnew
      · intro hp
        cases hp
    · rw [← hsame]
      constructor
      · exact .inr
      · rintro (heq | hin')
        · exact absurd (congrArg Prod.fst heq) hk
        · exact hin'
  · intro leaseId r'
    rw [AList.lookup_insert_ite]
    split_ifs with hid
    · subst hid
      rw [Option.map_some, Option.some.injEq]
      constructor
      · rintro rfl
        exact ⟨key, LeaseQueue.place_grant.trans (if_pos rfl)⟩
      · rintro ⟨k, hp⟩
        rw [LeaseQueue.place_grant] at hp
        split_ifs at hp with hk
        · cases hp
          rfl
        · have hissued := q.issued_of_leased _ _ _ hp
          rw [hfresh] at hissued
          cases hissued
    · rw [h.leased leaseId r']
      constructor
      · rintro ⟨k, hp⟩
        refine ⟨k, ?_⟩
        rw [LeaseQueue.place_grant, if_neg, hp]
        intro hk
        rw [hk, hplace] at hp
        cases hp
      · rintro ⟨k, hp⟩
        rw [LeaseQueue.place_grant] at hp
        split_ifs at hp with hk
        · cases hp
          exact absurd rfl hid
        · exact ⟨k, hp⟩
  · intro leaseId k hissued
    rw [LeaseQueue.issued_grant] at hissued
    split_ifs at hissued with hid
    · rw [hid]
      exact Nat.lt_succ_self _
    · exact Nat.lt_succ_of_lt (h.issued leaseId k hissued)
  · exact Nat.succ_le_succ hfetched

theorem Models.giveBack (h : Models n t q) {leaseId : LeaseId} {leased : LeasedRequest}
    (hleased : t.inFlight.lookup leaseId = some leased) :
    ∃ key, q.place key = .leased leaseId leased.request ∧
      ∀ (place : Place) (hput : ∀ id r, place ≠ .leased id r) (pending : Frontier)
        (handled : Finset String) (handledCount : ℕ), place ≠ .unknown → pending.Active →
        Waits pending (q.put key place hput) →
        Models n { t with
          inFlight := t.inFlight.erase leaseId, pending, handled, handledCount }
          (q.put key place hput) := by
  obtain ⟨key, hkey⟩ := (h.leased leaseId leased.request).mp (by rw [hleased]; rfl)
  refine ⟨key, hkey, ?_⟩
  intro place hput pending handled handledCount hplace hactive hwaits
  refine ⟨hactive, ?_, hwaits, ?_, h.issued, h.fetched⟩
  · intro k
    rw [LeaseQueue.place_put, h.known k]
    split_ifs with hk
    · subst hk
      rw [hkey]
      constructor
      · intro hp
        cases hp
      · intro hp
        exact absurd hp hplace
    · rfl
  · intro id r
    rw [AList.lookup_erase_ite]
    split_ifs with hid
    · subst hid
      constructor
      · intro hsome
        cases hsome
      · rintro ⟨k, hp⟩
        rw [LeaseQueue.place_put] at hp
        split_ifs at hp with hk
        · exact absurd hp (hput _ _)
        · have hissued := q.issued_of_leased _ _ _ hp
          rw [q.issued_of_leased _ _ _ hkey] at hissued
          exact absurd (Option.some.inj hissued).symm hk
    · rw [h.leased id r]
      constructor
      · rintro ⟨k, hp⟩
        refine ⟨k, ?_⟩
        rw [LeaseQueue.place_put, if_neg, hp]
        intro hk
        rw [hk, hkey] at hp
        cases hp
        exact hid rfl
      · rintro ⟨k, hp⟩
        rw [LeaseQueue.place_put] at hp
        split_ifs at hp with hk
        · exact absurd hp (hput _ _)
        · exact ⟨k, hp⟩

theorem Models.extend (h : Models n t q) {leaseId : LeaseId} {leased : LeasedRequest}
    (hleased : t.inFlight.lookup leaseId = some leased) (expiresAt : Instant) :
    Models n { t with inFlight := t.inFlight.insert leaseId { leased with expiresAt } } q := by
  refine { h with leased := ?_ }
  intro id r
  rw [← h.leased id r, AList.lookup_insert_ite]
  split_ifs with hid
  · rw [hid, hleased]
    rfl
  · rfl

theorem Models.call_unknown {op : QueueOp} {leaseId : LeaseId} (h : Models n t q) (now : Instant)
    (hop : op.presented = some leaseId) (hnone : t.inFlight.lookup leaseId = none) :
    ∃ reply t' q', call now t op = some (reply, t') ∧ q.Serves op reply q' ∧ Models n t' q' := by
  refine ⟨_, t, q, MemoryQueue.call_unknown t now hop hnone, ?_, h⟩
  cases op with
  | markHandled _ | reclaim _ _ | renew _ _ | abandon _ =>
    exact ⟨.refused _ _ _ (.inl rfl), trivial⟩
  | add _ _ | addBatch _ _ | fetchNext | isEmpty | isFinished | handledCount | pendingCount =>
    cases hop

theorem Models.call_known {op : QueueOp} {leaseId : LeaseId} {leased : LeasedRequest}
    (h : Models n t q) (hrepresentable : Representable t op) (now : Instant)
    (hop : op.presented = some leaseId) (hleased : t.inFlight.lookup leaseId = some leased) :
    ∃ reply t' q', call now t op = some (reply, t') ∧ q.Serves op reply q' ∧ Models n t' q' := by
  obtain ⟨key, hkey, hgive⟩ := h.giveBack hleased
  have hold : ∀ r, q.place key ≠ .pending r := by
    intro r hp
    rw [hkey] at hp
    cases hp
  have hback : ∀ (request : Request) (forefront : Bool),
      Models n { t with
        inFlight := t.inFlight.erase leaseId, pending := t.pending.push forefront request }
        (q.put key (.pending request) (by simp)) := by
    intro request forefront
    refine hgive (.pending request) _ _ t.handled t.handledCount ?_ ?_ ?_
    · intro hp
      cases hp
    · exact (Frontier.push_spec h.active forefront request).1
    · exact h.waits.push h.active forefront hold _
  cases op with
  | markHandled lease =>
    cases hop
    have hwaits : Waits t.pending (q.put key .handled (by simp)) := by
      refine h.waits.put _ hold ?_
      intro r hp
      cases hp
    have hhandled := hgive .handled _ t.pending (insert leased.request.uniqueKey t.handled)
      ((t.handledCount + 1) % 2 ^ 64) Place.noConfusion h.active hwaits
    refine ⟨.ok .unit, _, _, ?_, ⟨.consumed _ _ ?_, trivial⟩, hhandled⟩
    · simp only [call, markHandled, removeLease, hleased]
      rfl
    · exact .intro lease key leased.request .handled rfl hkey rfl
  | reclaim lease opts =>
    cases hop
    refine ⟨.ok .unit, _, _, ?_, ⟨.consumed _ _ ?_, trivial⟩,
      hback (lease.request.reclaimed opts.incrementRetry) opts.forefront⟩
    · simp only [call, reclaim, removeLease, hleased]
      rfl
    · exact .intro lease key leased.request (.pending (lease.request.reclaimed opts.incrementRetry))
        rfl hkey rfl
  | renew leaseId extendBy =>
    cases hop
    have hextended := extended_of_le (hrepresentable leaseId extendBy leased rfl hleased)
    refine ⟨.ok .unit, _, q, ?_, ⟨.renewed _ _ key leased.request hkey, trivial⟩,
      h.extend hleased (leased.expiresAt + extendBy)⟩
    simp only [call, renew, hleased, hextended]
    rfl
  | abandon lease =>
    cases hop
    refine ⟨.ok .unit, _, _, ?_, ⟨.consumed _ _ ?_, trivial⟩, hback lease.request true⟩
    · simp only [call, abandon, removeLease, hleased]
      rfl
    · exact .intro lease key leased.request (.pending lease.request) rfl hkey rfl
  | add _ _ | addBatch _ _ | fetchNext | isEmpty | isFinished | handledCount | pendingCount =>
    cases hop

theorem Models.call_fetchNext (h : Models n t q) (hn : n + 1 < 2 ^ 64) (now : Instant) :
    ∃ reply t' q', call now t .fetchNext = some (reply, t') ∧ q.Serves .fetchNext reply q' ∧
      Models (n + 1) t' q' := by
  obtain ⟨hnil, hpop⟩ | ⟨request, rest, hpop, hactive, hperm⟩ := Frontier.popFront_spec h.active
  · have hidle : q.Idle := h.idle_iff.mp ((Frontier.isEmpty_iff h.active).mpr hnil)
    refine ⟨.ok (.leased none), t, q, ?_, ⟨.idle, hidle⟩, h.mono (Nat.le_succ n)⟩
    simp only [call, fetchNext, hpop]
    rfl
  · obtain ⟨key, hfresh, hplace, hgrant⟩ := h.grant hactive hperm hn (now + leaseTtl)
    have hbound : t.nextLeaseId < 2 ^ 64 := lt_of_le_of_lt h.fetched (by omega)
    refine ⟨.ok (.leased (some ⟨request, t.nextLeaseId, now + leaseTtl⟩)), _, _, ?_, ⟨?_, trivial⟩,
      hgrant⟩
    · simp only [call, fetchNext, hpop]
      rfl
    · exact .leased ⟨request, t.nextLeaseId, now + leaseTtl⟩ key hbound hplace hfresh

/-- A call returns, and it is one that the abstract queue may answer so. -/
theorem Models.call {op : QueueOp} (h : Models n t q) (hn : n + fetches op < 2 ^ 64)
    (hrepresentable : Representable t op) (now : Instant) :
    ∃ reply t' q', call now t op = some (reply, t') ∧ q.Serves op reply q' ∧
      Models (n + fetches op) t' q' := by
  have hpresented : ∀ leaseId, op.presented = some leaseId → fetches op = 0 →
      ∃ reply t' q', MemoryQueue.call now t op = some (reply, t') ∧ q.Serves op reply q' ∧
        Models (n + fetches op) t' q' := by
    intro leaseId hop hfetches
    rw [hfetches, Nat.add_zero]
    cases hleased : t.inFlight.lookup leaseId with
    | none => exact h.call_unknown now hop hleased
    | some leased => exact h.call_known hrepresentable now hop hleased
  cases op with
  | add request opts =>
    exact ⟨_, _, _, rfl, ⟨[request], List.prefix_rfl, fun _ => rfl, rfl⟩, h.addLocked request opts⟩
  | addBatch requests opts =>
    exact ⟨_, _, _, rfl, ⟨requests, List.prefix_rfl, fun _ => rfl, rfl⟩, h.addBatch requests opts⟩
  | fetchNext => exact h.call_fetchNext hn now
  | markHandled lease => exact hpresented lease.leaseId rfl rfl
  | reclaim lease opts => exact hpresented lease.leaseId rfl rfl
  | renew leaseId extendBy => exact hpresented leaseId rfl rfl
  | abandon lease => exact hpresented lease.leaseId rfl rfl
  | isEmpty => exact ⟨_, _, q, rfl, ⟨.empty _, h.idle_iff⟩, h⟩
  | isFinished => exact ⟨_, _, q, rfl, ⟨.finished _, h.finished_iff⟩, h⟩
  | handledCount | pendingCount => exact ⟨_, _, q, rfl, rfl, h⟩

structure Answered where
  call : Call
  reply : StorageResult QueueReply

def Answers (t : QueueState) (a : Answered) (t' : QueueState) : Prop :=
  call a.call.now t a.call.op = some (a.reply, t')

def Answered.exchange (a : Answered) : LeaseQueue.Exchange := ⟨[], a.call.op, a.reply⟩

theorem Models.step {a : Answered} {t' : QueueState} (h : Models n t q)
    (hn : n + fetches a.call.op < 2 ^ 64) (hs : Answers t a t') :
    ∃ q', q.Exchanges a.exchange q' ∧ Models (n + fetches a.call.op) t' q' := by
  obtain ⟨reply, t₁, q', hcall, hserves, hkept⟩ :=
    h.call hn (representable_of_call hs) a.call.now
  rw [Answers, hcall] at hs
  cases hs
  refine ⟨q', ?_, hkept⟩
  rw [LeaseQueue.Exchanges, Answered.exchange, LeaseQueue.withdraw_nil]
  exact hserves

/-- Under either policy the queue is one with exclusive leases: what it answers in a run, the
abstract queue may answer without ever taking a lease back, and what it says of itself is so.
Every further call is answered if a deadline it moves is still an `Instant`. -/
theorem memory_refines (policy : MemoryQueuePolicy) {as : List Answered}
    (run : Machine.Run Answers (withPolicy policy) as t)
    (few : fetchCalls (as.map Answered.call) < 2 ^ 64) :
    (∃ q, Machine.Run LeaseQueue.Exchanges .empty (as.map Answered.exchange) q ∧
      Models (fetchCalls (as.map Answered.call)) t q) ∧
    ∀ c : Call, Representable t c.op →
      fetchCalls (as.map Answered.call) + fetches c.op < 2 ^ 64 →
        ∃ reply t', Answers t ⟨c, reply⟩ t' := by
  have hmodels : ∃ q, Machine.Run LeaseQueue.Exchanges .empty (as.map Answered.exchange) q ∧
      Models (fetchCalls (as.map Answered.call)) t q := by
    induction run with
    | nil => exact ⟨.empty, .nil _, models_new policy⟩
    | @snoc u v as a hrun hs ih =>
      simp only [fetchCalls, List.map_append, List.sum_append, List.map_cons, List.map_nil,
        List.sum_cons, List.sum_nil, Nat.add_zero] at few ih ⊢
      obtain ⟨q, hq, hu⟩ := ih (by omega)
      obtain ⟨q', hstep, hv⟩ := hu.step few hs
      exact ⟨q', hq.snoc hstep, hv⟩
  refine ⟨hmodels, ?_⟩
  obtain ⟨q, -, h⟩ := hmodels
  intro c hrepresentable hn
  obtain ⟨reply, t', q', hcall, -⟩ := h.call hn hrepresentable c.now
  exact ⟨reply, t', hcall⟩

-- A request comes back under another key than it was added with.
def rekeyedPage : Lease := ⟨page "a.com" "b", 0, leaseTtl⟩

def rekeying : List Answered :=
  [⟨⟨.add (page "a.com" "a") {}, 0⟩, .ok (.info ⟨(page "a.com" "a").id, "a", false, false⟩)⟩,
   ⟨⟨.fetchNext, 0⟩, .ok (.leased (some ⟨page "a.com" "a", 0, 0 + leaseTtl⟩))⟩,
   ⟨⟨.reclaim rekeyedPage {}, 1⟩, .ok .unit⟩, ⟨⟨.isFinished, 1⟩, .ok (.flag false)⟩]

theorem run_rekeying : ∃ t, Machine.Run Answers (withPolicy .fifo) rekeying t ∧
    t.pending.requests = [(page "a.com" "b").incrementRetry] := by
  have hadd : Machine.Run Answers (withPolicy .fifo) (rekeying.take 1) _ :=
    (Machine.Run.nil _).snoc rfl
  have hfetch : Machine.Run Answers (withPolicy .fifo) (rekeying.take 2) _ := hadd.snoc rfl
  have hreclaim : Machine.Run Answers (withPolicy .fifo) (rekeying.take 3) _ := hfetch.snoc rfl
  exact ⟨_, hreclaim.snoc rfl, rfl⟩

theorem memory_refines_rekeying : ∃ t q, Machine.Run LeaseQueue.Exchanges .empty
    (rekeying.map Answered.exchange) q ∧ Models 1 t q ∧
    t.pending.requests = [(page "a.com" "b").incrementRetry] := by
  obtain ⟨t, hrun, hpending⟩ := run_rekeying
  obtain ⟨⟨q, hq, hmodels⟩, -⟩ := memory_refines .fifo hrun (by decide)
  exact ⟨t, q, hq, hmodels, hpending⟩

end Millipede.MemoryQueue
