import Mathlib.Data.Finset.Card
import Millipede.Crawler.Admission
import Millipede.Storage.MemoryQueue

/-!
# How many requests a queue accepts

Calls of `send` over a queue that the dispatcher uses at the same time. The number that is
compared with the limit is the larger of the counter and of the queue's handled and pending
requests. It leaves out requests that are leased, and those whose reservation was given
back by a call that was cut off after the queue had accepted them. As long as a call that
finds a place this way is right about it, the queue never accepts more than the limit.
-/

namespace Millipede

/-- A queue with its set of unique keys. An `add_batch` that is cut off has added some of its
requests. -/
structure CountedQueue where
  State : Type
  accepted : State → Finset String
  Replies : State → QueueOp → StorageResult QueueReply → State → Prop
  GivenUp : State → List Request → State → Prop
  accepted_mono : ∀ {q q' : State} {op : QueueOp} {reply : StorageResult QueueReply},
    Replies q op reply q' → accepted q ⊆ accepted q'
  accepted_kept : ∀ {q q' : State} {op : QueueOp} {reply : StorageResult QueueReply},
    op.added = [] → Replies q op reply q' → accepted q' = accepted q
  card_added : ∀ {q q' : State} {op : QueueOp} {reply : StorageResult QueueReply},
    Replies q op reply q' → (accepted q').card ≤ (accepted q).card + op.added.length
  card_givenUp : ∀ {q q' : State} {requests : List Request}, GivenUp q requests q' →
    accepted q ⊆ accepted q' ∧ (accepted q').card ≤ (accepted q).card + requests.length

def CountedQueue.Readable (Q : CountedQueue) : Prop :=
  ∀ q e q', ¬ Q.Replies q .handledCount (.error e) q' ∧ ¬ Q.Replies q .pendingCount (.error e) q'

namespace Enqueue

def Sender.requests (sender : Sender) : List Request := sender.drafts.map Draft.request

def queueCall (sender : Sender) : Action → Option (QueueOp × StorageResult QueueReply)
  | .handledCount reply => some (.handledCount, reply.map .count)
  | .pendingCount reply => some (.pendingCount, reply.map .count)
  | .addBatch reply =>
    some (.addBatch sender.requests { forefront := sender.forefront }, reply.map .batch)
  | _ => none

structure System (Q : CountedQueue) where
  calls : State
  queue : Q.State

inductive SystemEvent where
  | send (candidates : List Request) (forefront : Bool)
  | act (i : ℕ) (action : Action)
  | dispatch (op : QueueOp) (reply : StorageResult QueueReply)

variable {Q : CountedQueue} {policy : CrawlPolicy} {limit : ℕ}

inductive Step (Q : CountedQueue) (policy : CrawlPolicy) :
    System Q → SystemEvent → System Q → Prop
  | sent {s t : State} {q : Q.State} (candidates : List Request) (forefront : Bool)
      (step : Enqueue.step policy s (.send candidates forefront) = some t) :
      Step Q policy ⟨s, q⟩ (.send candidates forefront) ⟨t, q⟩
  | acted {s t : State} {q : Q.State} (i : ℕ) (sender : Sender) (action : Action)
      (own : s.senders[i]? = some sender) (step : Enqueue.step policy s (.act i action) = some t)
      (alone : queueCall sender action = none) :
      Step Q policy ⟨s, q⟩ (.act i action) ⟨t, q⟩
  | called {s t : State} {q q' : Q.State} (i : ℕ) (sender : Sender) (action : Action)
      (op : QueueOp) (reply : StorageResult QueueReply) (own : s.senders[i]? = some sender)
      (step : Enqueue.step policy s (.act i action) = some t)
      (call : queueCall sender action = some (op, reply)) (answer : Q.Replies q op reply q') :
      Step Q policy ⟨s, q⟩ (.act i action) ⟨t, q'⟩
  | cutOff {s t : State} {q q' : Q.State} (i : ℕ) (sender : Sender)
      (own : s.senders[i]? = some sender) (adding : sender.phase = .adding)
      (step : Enqueue.step policy s (.act i .giveUp) = some t)
      (some_added : Q.GivenUp q sender.requests q') :
      Step Q policy ⟨s, q⟩ (.act i .giveUp) ⟨t, q'⟩
  | dispatched {s : State} {q q' : Q.State} (op : QueueOp) (reply : StorageResult QueueReply)
      (added : op.added = []) (answer : Q.Replies q op reply q') :
      Step Q policy ⟨s, q⟩ (.dispatch op reply) ⟨s, q'⟩

def Sender.coming (sender : Sender) : ℕ :=
  match sender.phase with
  | .releasing _ _ .rejected => sender.drafts.length
  | .releasing _ _ _ => sender.drafts.length + 1
  | .transforming _ _ _ => sender.drafts.length + 1
  | .waiting _ | .settling _ | .dropping | .finished => 0
  | _ => sender.drafts.length

def demand (u : System Q) : ℕ :=
  (Q.accepted u.queue).card + Tasks.total Sender.coming u.calls.senders

/-- When the number that a call compares is below the limit, so is the number of requests that
were accepted or have their admission. -/
def Counted (limit : ℕ) (u : System Q) (ev : SystemEvent) : Prop :=
  ∀ (i : ℕ) sender request rest handled pending, ev = .act i .synchronize →
    u.calls.senders[i]? = some sender →
    sender.phase = .synchronizing request rest handled pending →
    max u.calls.counter (saturatingAdd handled pending) < limit → demand u < limit

section Coming
variable {s : State} {i : ℕ} {sender : Sender} {action : Action} {effect : Effect}

def Action.unreadable : Action → Bool
  | .handledCount (.error _) | .pendingCount (.error _) => true
  | _ => false

theorem coming_le (hlimit : policy.maxRequestsPerCrawl = some limit)
    (h : act policy s i sender action = some effect) (hread : action.unreadable = false)
    (hno : action ≠ .reserve) : effect.sender.coming ≤ sender.coming := by
  cases action with
  | choose =>
    simp only [act] at h
    split at h
    · rename_i rest hp
      cases h
      cases rest with
      | nil => simp [choose, Sender.coming, hp]
      | cons request rest =>
        simp only [choose, hlimit, Option.isSome_some, if_true]
        split <;> simp [Sender.skip, Sender.coming, hp]
    · cases h
  | lock =>
    simp only [act] at h
    split at h
    · cases h
      simp_all [Sender.coming]
    · cases h
  | handledCount reply =>
    simp only [act] at h
    split at h
    · cases h
      cases reply with
      | error e => cases hread
      | ok handled => simp_all [Sender.coming]
    · cases h
  | pendingCount reply =>
    simp only [act] at h
    split at h
    · cases h
      cases reply with
      | error e => cases hread
      | ok pending => simp_all [Sender.coming]
    · cases h
  | synchronize =>
    simp only [act] at h
    split at h
    · rename_i hp
      cases h
      dsimp only
      split_ifs <;> simp [Sender.coming, hp]
    · cases h
  | reserve => exact absurd rfl hno
  | release =>
    simp only [act] at h
    split at h
    · rename_i request rest admission hp
      cases h
      cases admission <;> simp [released, Sender.skip, Sender.coming, hp]
    · cases h
  | transform result request =>
    simp only [act] at h
    split at h
    · rename_i hp
      cases result <;> cases h <;> simp [Sender.skip, Sender.coming, hp]
    · cases h
  | addBatch reply =>
    simp only [act] at h
    split at h
    · cases h
      cases reply <;> simp [Sender.coming]
    · cases h
  | wait =>
    simp only [act] at h
    split at h
    · cases h
      simp [Sender.coming]
    · cases h
  | settle =>
    simp only [act] at h
    split at h
    · cases h
      simp [Sender.coming]
    · cases h
      simp only [settle]
      split_ifs <;> simp [Sender.coming]
    · cases h
  | drop =>
    simp only [act] at h
    split at h
    · cases h
      simp [Sender.coming]
    · cases h
      simp_all [Sender.coming]
    · cases h
  | giveUp =>
    simp only [act] at h
    by_cases hp : sender.phase.fallible = true
    · rw [if_pos hp] at h
      cases h
      simp [Sender.coming]
    · rw [if_neg hp] at h
      cases h

theorem coming_reserve (h : act policy s i sender .reserve = some effect) :
    sender.phase.isReserving = true ∧ effect.sender.coming = sender.coming + 1 ∧
      effect.sender.phase.isReserving = false := by
  simp only [act] at h
  split at h
  · rename_i hp
    cases h
    simp [Sender.coming, hp, Phase.isReserving]
  · cases h

theorem coming_addBatch {reply : StorageResult (List ProcessedRequest)}
    (h : act policy s i sender (.addBatch reply) = some effect) :
    sender.coming = sender.requests.length ∧ effect.sender.coming = 0 := by
  simp only [act] at h
  split at h
  · rename_i hp
    cases h
    cases reply <;> simp [Sender.coming, Sender.requests, hp]
  · cases h

theorem isReserving_synchronize (h : act policy s i sender action = some effect)
    (hr : effect.sender.phase.isReserving = true) :
    action = .synchronize ∧ ∃ request rest handled pending,
      sender.phase = .synchronizing request rest handled pending ∧
      ∀ limit, policy.maxRequestsPerCrawl = some limit →
        max s.counter (saturatingAdd handled pending) < limit := by
  cases action with
  | synchronize =>
    simp only [act] at h
    split at h
    · rename_i request rest handled pending hp
      cases h
      refine ⟨rfl, request, rest, handled, pending, hp, ?_⟩
      intro limit hlimit
      dsimp only at hr
      split_ifs at hr with hfull
      · cases hr
      · simpa [hlimit] using hfull
    · cases h
  | choose =>
    have hphase : ∀ rest, (choose policy sender rest).phase.isReserving = false := by
      intro rest
      cases rest with
      | nil => rfl
      | cons request rest =>
        simp only [choose]
        split
        · rfl
        · split_ifs <;> rfl
    simp only [act] at h
    split at h
    · cases h
      rw [hphase] at hr
      cases hr
    · cases h
  | release =>
    simp only [act] at h
    split at h
    · rename_i request rest admission hp
      cases h
      cases admission <;> cases hr
    · cases h
  | handledCount reply =>
    simp only [act] at h
    split at h
    · cases h
      cases reply <;> cases hr
    · cases h
  | pendingCount reply =>
    simp only [act] at h
    split at h
    · cases h
      cases reply <;> cases hr
    · cases h
  | transform result request =>
    simp only [act] at h
    split at h
    · cases result <;> cases h <;> cases hr
    · cases h
  | addBatch reply =>
    simp only [act] at h
    split at h
    · cases h
      cases reply <;> cases hr
    · cases h
  | settle =>
    simp only [act] at h
    split at h
    · cases h
      cases hr
    · cases h
      simp only [settle] at hr
      split_ifs at hr <;> cases hr
    · cases h
  | drop =>
    simp only [act] at h
    split at h
    · cases h
      cases hr
    · rename_i hp hd
      cases h
      simp only [hp] at hr
      cases hr
    · cases h
  | giveUp =>
    simp only [act] at h
    by_cases hp : sender.phase.fallible = true
    · rw [if_pos hp] at h
      cases h
      cases hr
    · rw [if_neg hp] at h
      cases h
  | _ =>
    simp only [act] at h
    split at h
    · cases h
      cases hr
    · cases h

end Coming

/-- The queue has room for everything that was admitted. -/
structure Admitted (limit : ℕ) (u : System Q) : Prop where
  balanced : Balanced limit u.calls
  demand_le : demand u ≤ limit
  room : ∀ (i : ℕ) sender, u.calls.senders[i]? = some sender → sender.phase.isReserving = true →
    demand u < limit

section Run
variable {s t : State} {q q' : Q.State} {i : ℕ} {sender : Sender} {action : Action}

theorem Admitted.act {effect : Effect} (h : Admitted limit (⟨s, q⟩ : System Q)) (hl : limit < u64)
    (hlimit : policy.maxRequestsPerCrawl = some limit) (hi : s.senders[i]? = some sender)
    (ha : act policy s i sender action = some effect) (hread : action.unreadable = false)
    (hcounted : Counted limit (⟨s, q⟩ : System Q) (.act i action))
    (hcard : action ≠ .reserve → (Q.accepted q').card + effect.sender.coming ≤
      (Q.accepted q).card + sender.coming)
    (hsame : action = .reserve → q' = q) :
    Admitted limit (⟨s.after i effect, q'⟩ : System Q) := by
  have htotal := Tasks.total_set (f := Sender.coming) hi effect.sender
  have hget := Tasks.getElem?_set hi effect.sender
  have hdemand := h.demand_le
  simp only [demand] at hdemand
  by_cases hreserve : action = .reserve
  · subst hreserve
    obtain ⟨hr, hcoming, hr'⟩ := coming_reserve ha
    have hroom := h.room i sender hi hr
    simp only [demand] at hroom
    refine ⟨h.balanced.does hl hlimit hi (act_does ha), ?_, ?_⟩
    · simp only [demand, State.after, hsame rfl]
      omega
    · intro j other hj hother
      simp only [State.after, hget] at hj
      split_ifs at hj with hji
      · cases hj
        rw [hr'] at hother
        cases hother
      · have hlock := (h.balanced.locked i sender hi).mp (admitting_of_isReserving hr)
        have hlock' := (h.balanced.locked j other hj).mp (admitting_of_isReserving hother)
        rw [hlock] at hlock'
        cases hlock'
        exact absurd rfl hji
  · have hle := hcard hreserve
    refine ⟨h.balanced.does hl hlimit hi (act_does ha), ?_, ?_⟩
    · simp only [demand, State.after]
      omega
    · intro j other hj hother
      simp only [State.after, hget] at hj
      simp only [demand, State.after]
      split_ifs at hj with hji
      · cases hj
        obtain ⟨hsync, request, rest, handled, pending, hp, hfull⟩ :=
          isReserving_synchronize ha hother
        have hroom := hcounted i sender request rest handled pending (by rw [hsync]) hi hp
          (hfull limit hlimit)
        simp only [demand] at hroom
        omega
      · have hroom := h.room j other hj hother
        simp only [demand] at hroom
        omega

theorem step_act (hi : s.senders[i]? = some sender)
    (hs : step policy s (.act i action) = some t) :
    ∃ effect, act policy s i sender action = some effect ∧ t = s.after i effect := by
  simp only [step, hi] at hs
  obtain ⟨effect, heffect, ht⟩ := Option.map_eq_some_iff.mp hs
  exact ⟨effect, heffect, ht.symm⟩

theorem readable_of_alone (h : queueCall sender action = none) : action.unreadable = false := by
  cases action with
  | handledCount => cases h
  | pendingCount => cases h
  | _ => rfl

theorem Admitted.step {u v : System Q} {ev : SystemEvent} (h : Admitted limit u)
    (hl : limit < u64) (hlimit : policy.maxRequestsPerCrawl = some limit) (hread : Q.Readable)
    (hcounted : Counted limit u ev) (hs : Step Q policy u ev v) : Admitted limit v := by
  cases hs with
  | @sent s t q candidates forefront hstep =>
    have hbalanced := h.balanced.step hl hlimit hstep
    cases hstep
    have hsame : ∀ q, demand (⟨{ s with senders := s.senders ++
        [{ forefront, drafts := [], added := [], skipped := [], phase := .choosing candidates }] },
        q⟩ : System Q) = demand (⟨s, q⟩ : System Q) := by
      intro q
      simp [demand, Sender.coming]
    refine ⟨hbalanced, ?_, ?_⟩
    · rw [hsame]
      exact h.demand_le
    · intro j other hj hr
      rw [hsame]
      have hj : (s.senders ++ [_])[j]? = some other := hj
      rw [List.getElem?_append] at hj
      split_ifs at hj with hlt
      · exact h.room j other hj hr
      · rw [List.mem_singleton.mp (List.mem_of_getElem? hj)] at hr
        cases hr
  | acted i sender action hi hstep halone =>
    obtain ⟨effect, ha, rfl⟩ := step_act hi hstep
    have hreadable := readable_of_alone halone
    refine h.act hl hlimit hi ha hreadable hcounted ?_ (fun _ => rfl)
    intro hno
    exact Nat.add_le_add_left (coming_le hlimit ha hreadable hno) _
  | cutOff i sender hi hadding hstep hsome =>
    obtain ⟨effect, ha, rfl⟩ := step_act hi hstep
    refine h.act hl hlimit hi ha rfl hcounted ?_ (fun heq => (by cases heq))
    intro _
    have hcard := (Q.card_givenUp hsome).2
    have hgone : effect.sender.coming = 0 := by
      simp only [Enqueue.act, hadding, Phase.fallible, if_true] at ha
      cases ha
      rfl
    have hcoming : sender.coming = sender.requests.length := by
      simp [Sender.coming, Sender.requests, hadding]
    omega
  | called i sender action op reply hi hstep hcall hans =>
    obtain ⟨effect, ha, rfl⟩ := step_act hi hstep
    cases action with
    | handledCount counts =>
      cases hcall
      have hreadable : (Action.handledCount counts).unreadable = false := by
        cases counts with
        | error e => exact absurd hans (hread _ e _).1
        | ok handled => rfl
      refine h.act hl hlimit hi ha hreadable hcounted ?_ (fun heq => (by cases heq))
      intro hno
      rw [Q.accepted_kept rfl hans]
      exact Nat.add_le_add_left (coming_le hlimit ha hreadable hno) _
    | pendingCount counts =>
      cases hcall
      have hreadable : (Action.pendingCount counts).unreadable = false := by
        cases counts with
        | error e => exact absurd hans (hread _ e _).2
        | ok pending => rfl
      refine h.act hl hlimit hi ha hreadable hcounted ?_ (fun heq => (by cases heq))
      intro hno
      rw [Q.accepted_kept rfl hans]
      exact Nat.add_le_add_left (coming_le hlimit ha hreadable hno) _
    | addBatch processed =>
      cases hcall
      refine h.act hl hlimit hi ha rfl hcounted ?_ (fun heq => (by cases heq))
      intro _
      obtain ⟨hcoming, hgone⟩ := coming_addBatch ha
      have hcard := Q.card_added hans
      simp only [QueueOp.added] at hcard
      omega
    | _ => cases hcall
  | @dispatched s q q' op reply hadded hans =>
    have hsame : demand (⟨s, q'⟩ : System Q) = demand (⟨s, q⟩ : System Q) := by
      simp only [demand, Q.accepted_kept hadded hans]
    refine ⟨h.balanced, ?_, ?_⟩
    · rw [hsame]
      exact h.demand_le
    · intro j other hj hr
      rw [hsame]
      exact h.room j other hj hr

end Run

/-- In every interleaving in which each place that is found is there, the queue never accepts
more requests than the limit. -/
theorem total_admission {q : Q.State} (hl : limit < u64)
    (hlimit : policy.maxRequestsPerCrawl = some limit) (hread : Q.Readable)
    (hseeds : (Q.accepted q).card ≤ limit) {es : List SystemEvent} {v : System Q}
    (run : Machine.Run (Machine.Guarded (Counted limit) (Step Q policy)) ⟨start, q⟩ es v) :
    (Q.accepted v.queue).card ≤ limit := by
  have hstart : Admitted limit (⟨start, q⟩ : System Q) :=
    ⟨balanced_start limit, hseeds, fun _ _ hi => nomatch hi⟩
  have h := Machine.run_invariant (fun _ _ _ h hs => h.step hl hlimit hread hs.1 hs.2) run hstart
  exact (Nat.le_add_right _ _).trans h.demand_le

end Enqueue

namespace MemoryQueue

def keys (q : QueueState) : Finset String := q.dedup.keys.toFinset

theorem keys_addLocked (q : QueueState) (request : Request) (opts : AddOptions) :
    keys q ⊆ keys (addLocked q request opts).2 ∧
      (keys (addLocked q request opts).2).card ≤ (keys q).card + 1 := by
  unfold addLocked
  split
  · exact ⟨Finset.Subset.refl _, Nat.le_succ _⟩
  · rename_i hnew
    have hkeys : keys { q with dedup := q.dedup.insert request.uniqueKey request.id } =
        insert request.uniqueKey (keys q) := by
      simp only [keys, AList.keys_insert_new _ hnew, List.toFinset_cons]
    refine ⟨?_, ?_⟩
    · exact hkeys ▸ Finset.subset_insert _ _
    · exact hkeys ▸ Finset.card_insert_le _ _

theorem keys_addBatch (q : QueueState) (opts : AddOptions) (requests : List Request) :
    keys q ⊆ keys (addBatch q opts requests).2 ∧
      (keys (addBatch q opts requests).2).card ≤ (keys q).card + requests.length := by
  induction requests generalizing q with
  | nil => exact ⟨Finset.Subset.refl _, le_rfl⟩
  | cons request requests ih =>
    obtain ⟨hsub, hcard⟩ := keys_addLocked q request opts
    obtain ⟨hsub', hcard'⟩ := ih (addLocked q request opts).2
    refine ⟨hsub.trans hsub', ?_⟩
    simp only [addBatch, List.length_cons]
    omega

theorem dedup_removeLease {q q' : QueueState} {leaseId : LeaseId} {leased : LeasedRequest}
    (h : removeLease q leaseId = .ok (leased, q')) : q'.dedup = q.dedup := by
  unfold removeLease at h
  split at h
  · cases h
    rfl
  · cases h

theorem dedup_fetchNext {now : Instant} {q q' : QueueState} {lease : Option Lease}
    (h : fetchNext q now = some (lease, q')) : q'.dedup = q.dedup := by
  unfold fetchNext at h
  split at h
  · cases h
  · cases h
    rfl
  · cases h
    rfl

theorem dedup_markHandled (q : QueueState) (lease : Lease) :
    (markHandled q lease).2.dedup = q.dedup := by
  unfold markHandled
  split
  · rfl
  · rename_i hremoved
    have hdedup := dedup_removeLease hremoved
    exact hdedup

theorem dedup_reclaim (q : QueueState) (lease : Lease) (opts : ReclaimOptions) :
    (reclaim q lease opts).2.dedup = q.dedup := by
  unfold reclaim
  split
  · rfl
  · rename_i hremoved
    have hdedup := dedup_removeLease hremoved
    exact hdedup

theorem dedup_renew {q q' : QueueState} {leaseId : LeaseId} {extendBy : Duration}
    {result : StorageResult Unit} (h : renew q leaseId extendBy = some (result, q')) :
    q'.dedup = q.dedup := by
  unfold renew at h
  split at h
  · cases h
    rfl
  · obtain ⟨expiresAt, -, heq⟩ := Option.map_eq_some_iff.mp h
    cases heq
    rfl

theorem dedup_abandon (q : QueueState) (lease : Lease) :
    (abandon q lease).2.dedup = q.dedup := by
  unfold abandon
  split
  · rfl
  · rename_i hremoved
    have hdedup := dedup_removeLease hremoved
    exact hdedup

theorem keys_call {now : Instant} {q q' : QueueState} {op : QueueOp}
    {reply : StorageResult QueueReply} (h : call now q op = some (reply, q')) :
    keys q ⊆ keys q' ∧ (keys q').card ≤ (keys q).card + op.added.length ∧
      (op.added = [] → keys q' = keys q) := by
  have hkept : q'.dedup = q.dedup → keys q ⊆ keys q' ∧
      (keys q').card ≤ (keys q).card + op.added.length ∧ (op.added = [] → keys q' = keys q) := by
    intro hdedup
    have hkeys : keys q' = keys q := by rw [keys, keys, hdedup]
    rw [hkeys]
    exact ⟨Finset.Subset.refl _, Nat.le_add_right _ _, fun _ => rfl⟩
  cases op with
  | add request opts =>
    cases h
    obtain ⟨hsub, hcard⟩ := keys_addLocked q request opts
    exact ⟨hsub, hcard, fun hnone => nomatch hnone⟩
  | addBatch requests opts =>
    cases h
    obtain ⟨hsub, hcard⟩ := keys_addBatch q opts requests
    refine ⟨hsub, hcard, ?_⟩
    intro hnone
    cases requests with
    | nil => rfl
    | cons request requests => cases hnone
  | fetchNext =>
    obtain ⟨⟨lease, q₁⟩, hf, heq⟩ := Option.map_eq_some_iff.mp h
    cases heq
    exact hkept (dedup_fetchNext hf)
  | markHandled lease =>
    cases h
    exact hkept (dedup_markHandled q lease)
  | reclaim lease opts =>
    cases h
    exact hkept (dedup_reclaim q lease opts)
  | renew leaseId extendBy =>
    obtain ⟨⟨result, q₁⟩, hrenew, heq⟩ := Option.map_eq_some_iff.mp h
    cases heq
    exact hkept (dedup_renew hrenew)
  | abandon lease =>
    cases h
    exact hkept (dedup_abandon q lease)
  | isEmpty | isFinished | handledCount | pendingCount =>
    cases h
    exact hkept rfl

/-- An `add_batch` in memory has no `await`: it is cut off before it starts or not at all. -/
def counted : CountedQueue where
  State := QueueState
  accepted := keys
  Replies := fun q op reply q' => ∃ now, call now q op = some (reply, q')
  GivenUp := fun q requests q' => q' = q ∨ ∃ opts, q' = (addBatch q opts requests).2
  accepted_mono := fun ⟨_, h⟩ => (keys_call h).1
  accepted_kept := fun hop ⟨_, h⟩ => (keys_call h).2.2 hop
  card_added := fun ⟨_, h⟩ => (keys_call h).2.1
  card_givenUp := by
    intro q q' requests h
    obtain rfl | ⟨opts, rfl⟩ := h
    · exact ⟨Finset.Subset.refl _, Nat.le_add_right _ _⟩
    · exact keys_addBatch q opts requests

theorem readable_counted : counted.Readable := by
  intro q e q'
  constructor
  · intro h
    obtain ⟨now, h⟩ := h
    cases h
  · intro h
    obtain ⟨now, h⟩ := h
    cases h

end MemoryQueue

namespace Enqueue

open MemoryQueue (counted)

/-- What drives a system: the queue's answers are computed. -/
inductive Drive where
  | send (candidates : List Request)
  | act (i : ℕ) (action : Action)
  | handledCount (i : ℕ)
  | pendingCount (i : ℕ)
  | addBatch (i : ℕ)
  | fetchNext

def Drive.event (u : System counted) : Drive → Option (SystemEvent × MemoryQueue.QueueState)
  | .send candidates => some (.send candidates false, u.queue)
  | .act i action =>
    match u.calls.senders[i]? with
    | none => none
    | some sender =>
      if (queueCall sender action).isNone then some (.act i action, u.queue) else none
  | .handledCount i => some (.act i (.handledCount (.ok u.queue.handledCount)), u.queue)
  | .pendingCount i => some (.act i (.pendingCount (.ok u.queue.pending.len)), u.queue)
  | .addBatch i =>
    (u.calls.senders[i]?).map fun sender =>
      let (infos, q) := MemoryQueue.addBatch u.queue { forefront := sender.forefront }
        sender.requests
      (.act i (.addBatch (.ok infos)), q)
  | .fetchNext =>
    (MemoryQueue.fetchNext u.queue 0).map fun (lease, q) =>
      (.dispatch .fetchNext (.ok (.leased lease)), q)

def SystemEvent.apply (policy : CrawlPolicy) (s : State) : SystemEvent → Option State
  | .send candidates forefront => step policy s (.send candidates forefront)
  | .act i action => step policy s (.act i action)
  | .dispatch _ _ => some s

def Drive.step (policy : CrawlPolicy) (guard : System counted → SystemEvent → Bool)
    (u : System counted) (drive : Drive) : Option (System counted) :=
  (drive.event u).bind fun (ev, q) =>
    if guard u ev then (ev.apply policy u.calls).map fun t => ⟨t, q⟩ else none

variable {policy : CrawlPolicy} {guard : System counted → SystemEvent → Bool}

theorem own_of_step {s t : State} {i : ℕ} {action : Action}
    (h : Enqueue.step policy s (.act i action) = some t) :
    ∃ sender, s.senders[i]? = some sender := by
  simp only [Enqueue.step] at h
  cases hi : s.senders[i]? with
  | none =>
    rw [hi] at h
    cases h
  | some sender => exact ⟨sender, rfl⟩

theorem Drive.step_sound {u v : System counted} {drive : Drive}
    (h : drive.step policy guard u = some v) :
    ∃ ev, Machine.Guarded (fun u ev => guard u ev = true) (Step counted policy) u ev v := by
  obtain ⟨⟨ev, q⟩, hev, h⟩ := Option.bind_eq_some_iff.mp h
  simp only at h
  split_ifs at h with hguard
  obtain ⟨t, ht, rfl⟩ := Option.map_eq_some_iff.mp h
  refine ⟨ev, hguard, ?_⟩
  cases drive with
  | send candidates =>
    cases hev
    exact .sent candidates false ht
  | act i action =>
    simp only [Drive.event] at hev
    cases hi : u.calls.senders[i]? with
    | none =>
      rw [hi] at hev
      cases hev
    | some sender =>
      simp only [hi] at hev
      split_ifs at hev with hcall
      cases hev
      exact .acted i sender action hi ht (Option.isNone_iff_eq_none.mp hcall)
  | handledCount i =>
    cases hev
    obtain ⟨sender, hi⟩ := own_of_step ht
    exact .called i sender _ _ _ hi ht rfl ⟨0, rfl⟩
  | pendingCount i =>
    cases hev
    obtain ⟨sender, hi⟩ := own_of_step ht
    exact .called i sender _ _ _ hi ht rfl ⟨0, rfl⟩
  | addBatch i =>
    obtain ⟨sender, hi, heq⟩ := Option.map_eq_some_iff.mp hev
    cases heq
    exact .called i sender _ _ _ hi ht rfl ⟨0, rfl⟩
  | fetchNext =>
    obtain ⟨⟨lease, q'⟩, hf, heq⟩ := Option.map_eq_some_iff.mp hev
    cases heq
    cases ht
    refine .dispatched .fetchNext _ rfl ⟨0, ?_⟩
    simp only [MemoryQueue.call, hf, Option.map_some]

theorem run_of_drives {u v : System counted} {drives : List Drive}
    (h : drives.foldlM (Drive.step policy guard) u = some v) :
    ∃ es, Machine.Run (Machine.Guarded (fun u ev => guard u ev = true) (Step counted policy))
      u es v := by
  have hrun := Machine.run_of_foldlM h
  clear h
  induction hrun with
  | nil => exact ⟨[], .nil _⟩
  | snoc _ hstep ih =>
    obtain ⟨es, hes⟩ := ih
    obtain ⟨ev, hev⟩ := Drive.step_sound hstep
    exact ⟨es ++ [ev], hes.snoc hev⟩

def seesAll (limit : ℕ) (u : System counted) : SystemEvent → Bool
  | .act i .synchronize =>
    match (u.calls.senders[i]?).map Sender.phase with
    | some (.synchronizing _ _ handled pending) =>
      decide (max u.calls.counter (saturatingAdd handled pending) < limit → demand u < limit)
    | _ => true
  | _ => true

theorem counted_of_seesAll {limit : ℕ} {u : System counted} {ev : SystemEvent}
    (h : seesAll limit u ev = true) : Counted limit u ev := by
  rintro i sender request rest handled pending rfl hi hp
  simp only [seesAll, hi, Option.map_some, hp, decide_eq_true_eq] at h
  exact h

-- A call enqueues one link, with what the queue shows to it.
def seeded : MemoryQueue.QueueState := (MemoryQueue.addLocked MemoryQueue.new (link "seed") {}).2

def sendsOne : List Drive :=
  [.send [link "a"], .act 0 .choose, .act 0 .lock, .handledCount 0, .pendingCount 0,
   .act 0 .synchronize, .act 0 .reserve, .act 0 .release, .act 0 (.transform .enqueue (link "a")),
   .act 0 .choose, .addBatch 0]

def twoPlaces : CrawlPolicy := { maxCrawlDepth := none, maxRequestsPerCrawl := some 2 }

theorem total_admission_sendsOne : ∃ es v,
    Machine.Run (Machine.Guarded (Counted 2) (Step counted twoPlaces)) ⟨start, seeded⟩ es v ∧
      (counted.accepted v.queue).card = 2 ∧ (counted.accepted v.queue).card ≤ 2 := by
  have hcomputed : ((.fetchNext :: sendsOne).foldlM (Drive.step twoPlaces (seesAll 2))
      ⟨start, seeded⟩).map (fun v => (counted.accepted v.queue).card) = some 2 := by
    decide +kernel
  obtain ⟨v, hv, hcard⟩ := Option.map_eq_some_iff.mp hcomputed
  obtain ⟨es, hrun⟩ := run_of_drives hv
  have hcounted : Machine.Run (Machine.Guarded (Counted 2) (Step counted twoPlaces))
      ⟨start, seeded⟩ es v := hrun.mono fun _ _ _ h => ⟨counted_of_seesAll h.1, h.2⟩
  have hseeds : (counted.accepted seeded).card ≤ 2 := by decide +kernel
  exact ⟨es, v, hcounted, hcard,
    total_admission (by decide) rfl MemoryQueue.readable_counted hseeds hcounted⟩

/-- There is one place and the seed has it. While the seed is leased the queue shows nothing
handled and nothing pending, and the link is accepted as well. -/
theorem leased_seed_uncounted : (counted.accepted seeded).card ≤ 1 ∧ ∃ es v,
    Machine.Run (Step counted onePlace) ⟨start, seeded⟩ es v ∧
      1 < (counted.accepted v.queue).card := by
  have hcomputed : ((.fetchNext :: sendsOne).foldlM (Drive.step onePlace fun _ _ => true)
      ⟨start, seeded⟩).map (fun v => (counted.accepted v.queue).card) = some 2 := by
    decide +kernel
  obtain ⟨v, hv, hcard⟩ := Option.map_eq_some_iff.mp hcomputed
  obtain ⟨es, hrun⟩ := run_of_drives hv
  refine ⟨by decide +kernel, es, v, hrun.mono fun _ _ _ h => h.2, ?_⟩
  rw [hcard]
  decide

end Enqueue

end Millipede
