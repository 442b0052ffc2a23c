import Mathlib.Data.Finset.Card
import Millipede.Library.Machine
import Millipede.Storage.MemoryQueue

/-!
# What the in-memory queue holds

Every accepted key is at one place: in the frontier, in a lease, or among the handled ones.
The frontier is known by the requests it holds, in whatever order; both policies put in and
take out one request at a time.
-/

namespace Millipede.MemoryQueue

namespace DomainRoundRobin

def requests (f : DomainRoundRobin) : List Request := f.byHost.values.flatten

/-- The rotation lists the hosts with a queue, each once, and no queue is empty. -/
structure Active (f : DomainRoundRobin) : Prop where
  hosts : f.rotation.Perm f.byHost.keys
  busy : ∀ host requests, f.byHost.lookup host = some requests → requests ≠ []

variable {f : DomainRoundRobin}

theorem Active.insert_present {host : String} {old new : List Request} (h : f.Active)
    (hold : f.byHost.lookup host = some old) (hnew : new ≠ []) :
    ({ f with byHost := f.byHost.insert host new } : DomainRoundRobin).Active := by
  constructor
  · exact h.hosts.trans (AList.keys_insert_perm new hold).symm
  · intro host' requests hlookup
    rw [AList.lookup_insert_ite] at hlookup
    split_ifs at hlookup
    · cases hlookup
      exact hnew
    · exact h.busy host' requests hlookup

theorem requests_insert_present {host : String} {old : List Request} (new : List Request)
    (hold : f.byHost.lookup host = some old) :
    ∃ rest, f.requests.Perm (old ++ rest) ∧
      ({ f with byHost := f.byHost.insert host new } : DomainRoundRobin).requests.Perm
        (new ++ rest) := by
  obtain ⟨rest, hperm, hperm'⟩ := AList.values_insert_perm new hold
  exact ⟨rest.flatten, by simpa [requests] using hperm.flatten,
    by simpa [requests] using hperm'.flatten⟩

theorem Active.insert_new {host : String} {request : Request} {rotation : List String}
    (h : f.Active) (hnone : f.byHost.lookup host = none)
    (hrotation : rotation.Perm (host :: f.rotation)) :
    ({ byHost := f.byHost.insert host [request], rotation } : DomainRoundRobin).Active := by
  constructor
  · rw [AList.keys_insert_new _ hnone]
    exact hrotation.trans (h.hosts.cons host)
  · intro host' requests hlookup
    rw [AList.lookup_insert_ite] at hlookup
    split_ifs at hlookup
    · cases hlookup
      exact List.cons_ne_nil _ _
    · exact h.busy host' requests hlookup

theorem requests_insert_new {host : String} {request : Request} {rotation : List String}
    (hnone : f.byHost.lookup host = none) :
    ({ byHost := f.byHost.insert host [request], rotation } : DomainRoundRobin).requests =
      request :: f.requests := by
  simp only [requests, AList.values_insert_new _ hnone, List.flatten_cons, List.singleton_append]

theorem pushBack_spec (h : f.Active) (request : Request) :
    (f.pushBack request).Active ∧ (f.pushBack request).requests.Perm (request :: f.requests) := by
  simp only [pushBack]
  split
  · rename_i old hold
    obtain ⟨rest, hperm, hperm'⟩ := requests_insert_present (old ++ [request]) hold
    refine ⟨h.insert_present hold (by simp), hperm'.trans ?_⟩
    rw [List.append_assoc, List.singleton_append]
    exact List.perm_middle.trans (hperm.symm.cons request)
  · rename_i hnone
    refine ⟨h.insert_new hnone List.perm_append_comm, ?_⟩
    rw [requests_insert_new hnone]

theorem pushFront_spec (h : f.Active) (request : Request) :
    (f.pushFront request).Active ∧
      (f.pushFront request).requests.Perm (request :: f.requests) := by
  simp only [pushFront]
  split
  · rename_i old hold
    obtain ⟨rest, hperm, hperm'⟩ := requests_insert_present (request :: old) hold
    exact ⟨h.insert_present hold (List.cons_ne_nil _ _), hperm'.trans (hperm.symm.cons request)⟩
  · rename_i hnone
    refine ⟨h.insert_new hnone (.refl _), ?_⟩
    rw [requests_insert_new hnone]

theorem popFront_spec (h : f.Active) :
    (f.requests = [] ∧ f.popFront = some (none, f)) ∨
      ∃ request rest, f.popFront = some (some request, rest) ∧ rest.Active ∧
        f.requests.Perm (request :: rest.requests) := by
  cases hrotation : f.rotation with
  | nil =>
    left
    have hnil : f.byHost.keys = [] := by
      have hperm := h.hosts
      rw [hrotation] at hperm
      exact List.nil_perm.mp hperm
    have hentries : f.byHost.entries = [] := List.map_eq_nil_iff.mp hnil
    exact ⟨by simp [requests, AList.values, hentries], by simp [popFront, hrotation]⟩
  | cons host rotation =>
    right
    have hmem : host ∈ f.byHost.keys := h.hosts.subset (hrotation ▸ List.mem_cons_self)
    obtain ⟨queue, hqueue⟩ := AList.mem_keys_iff.mp hmem
    obtain ⟨request, rest, rfl⟩ := List.exists_cons_of_ne_nil (h.busy host queue hqueue)
    cases rest with
    | nil =>
      refine ⟨request, { byHost := f.byHost.erase host, rotation }, ?_, ⟨?_, ?_⟩, ?_⟩
      · simp [popFront, hrotation, hqueue]
      · have hperm := h.hosts.trans (AList.keys_perm_erase hqueue)
        rw [hrotation] at hperm
        exact hperm.cons_inv
      · intro host' requests hlookup
        rw [AList.lookup_erase_ite] at hlookup
        split_ifs at hlookup
        exact h.busy host' requests hlookup
      · simpa [requests] using (AList.values_perm_erase hqueue).flatten
    | cons second rest =>
      obtain ⟨others, hperm, hperm'⟩ := requests_insert_present (second :: rest) hqueue
      refine ⟨request, { byHost := f.byHost.insert host (second :: rest),
                         rotation := rotation ++ [host] }, ?_, ⟨?_, ?_⟩, ?_⟩
      · simp [popFront, hrotation, hqueue]
      · have hturn : (rotation ++ [host]).Perm f.rotation := by
          rw [hrotation]
          exact List.perm_append_comm
        exact hturn.trans (h.insert_present hqueue (List.cons_ne_nil second rest)).hosts
      · exact (h.insert_present hqueue (List.cons_ne_nil second rest)).busy
      · exact hperm.trans (hperm'.symm.cons request)

theorem len_eq (f : DomainRoundRobin) : f.len = f.requests.length := by
  simp [len, requests, List.length_flatten]

end DomainRoundRobin

namespace Frontier

def requests : Frontier → List Request
  | .fifo requests => requests
  | .domainRoundRobin f => f.requests

def Active : Frontier → Prop
  | .fifo _ => True
  | .domainRoundRobin f => f.Active

theorem active_new (policy : MemoryQueuePolicy) :
    (new policy).Active ∧ (new policy).requests = [] := by
  cases policy with
  | fifo => exact ⟨trivial, rfl⟩
  | domainRoundRobin =>
    refine ⟨⟨.refl _, ?_⟩, rfl⟩
    intro host requests hlookup
    cases hlookup

variable {f : Frontier}

theorem pushFront_spec (h : f.Active) (request : Request) :
    (f.pushFront request).Active ∧
      (f.pushFront request).requests.Perm (request :: f.requests) := by
  cases f with
  | fifo requests => exact ⟨trivial, .refl _⟩
  | domainRoundRobin f => exact f.pushFront_spec h request

theorem push_spec (h : f.Active) (forefront : Bool) (request : Request) :
    (f.push forefront request).Active ∧
      (f.push forefront request).requests.Perm (request :: f.requests) := by
  unfold push
  split_ifs
  · exact pushFront_spec h request
  · cases f with
    | fifo requests => exact ⟨trivial, List.perm_append_comm⟩
    | domainRoundRobin f => exact f.pushBack_spec h request

theorem popFront_spec (h : f.Active) :
    (f.requests = [] ∧ f.popFront = some (none, f)) ∨
      ∃ request rest, f.popFront = some (some request, rest) ∧ rest.Active ∧
        f.requests.Perm (request :: rest.requests) := by
  cases f with
  | fifo requests =>
    cases requests with
    | nil => exact .inl ⟨rfl, rfl⟩
    | cons request requests => exact .inr ⟨request, .fifo requests, rfl, trivial, .refl _⟩
  | domainRoundRobin f =>
    rcases f.popFront_spec h with ⟨hnil, hpop⟩ | ⟨request, rest, hpop, hactive, hperm⟩
    · exact .inl ⟨hnil, by simp [popFront, hpop]⟩
    · exact .inr ⟨request, .domainRoundRobin rest, by simp [popFront, hpop], hactive, hperm⟩

theorem len_eq (f : Frontier) : f.len = f.requests.length := by
  cases f with
  | fifo requests => rfl
  | domainRoundRobin f => exact f.len_eq

end Frontier

/-- The queue, with the keys that callers have added and those they have marked. -/
structure World where
  queue : QueueState
  accepted : Finset String
  marked : Finset String

def World.new (policy : MemoryQueuePolicy) : World where
  queue := withPolicy policy
  accepted := ∅
  marked := ∅

structure Call where
  op : QueueOp
  now : Instant

def markedBy (op : QueueOp) (reply : StorageResult QueueReply) (marked : Finset String) :
    Finset String :=
  match op, reply with
  | .markHandled lease, .ok _ => insert lease.request.uniqueKey marked
  | _, _ => marked

/-- `none` is a panic. -/
def step (w : World) (c : Call) : Option World :=
  (call c.now w.queue c.op).map fun (reply, queue) =>
    { queue
      accepted := w.accepted ∪ (c.op.added.map Request.uniqueKey).toFinset
      marked := markedBy c.op reply w.marked }

/-- A lease comes back with the unique key it was given out with; a stale one may have any. -/
def Unchanged (s : QueueState) (op : QueueOp) : Prop :=
  ∀ lease leased, op.returned = some lease → s.inFlight.lookup lease.leaseId = some leased →
    lease.request.uniqueKey = leased.request.uniqueKey

instance (s : QueueState) (op : QueueOp) : Decidable (Unchanged s op) :=
  decidable_of_iff (∀ lease ∈ op.returned, ∀ leased ∈ s.inFlight.lookup lease.leaseId,
    lease.request.uniqueKey = leased.request.uniqueKey) <| by
    simp only [Unchanged, Option.mem_def]
    exact ⟨fun h lease leased hop hleased => h lease hop leased hleased,
      fun h lease hop leased hleased => h lease leased hop hleased⟩

/-- A renewal leaves the lease a deadline that is an `Instant`. -/
def Representable (s : QueueState) (op : QueueOp) : Prop :=
  ∀ leaseId extendBy leased, op = .renew leaseId extendBy →
    s.inFlight.lookup leaseId = some leased → leased.expiresAt + extendBy ≤ lastInstant

theorem representable_of_ne {s : QueueState} {op : QueueOp}
    (h : ∀ leaseId extendBy, op ≠ .renew leaseId extendBy) : Representable s op :=
  fun leaseId extendBy _ hop => absurd hop (h leaseId extendBy)

abbrev Serves : World → Call → World → Prop :=
  Machine.Guarded (fun w c => Unchanged w.queue c.op) (Machine.Computes step)

def QueueState.leasedKeys (s : QueueState) : List String :=
  s.inFlight.values.map fun leased => leased.request.uniqueKey

def QueueState.pendingKeys (s : QueueState) : List String :=
  s.pending.requests.map Request.uniqueKey

structure Conserved (n : ℕ) (w : World) : Prop where
  active : w.queue.pending.Active
  partition : ∀ key, w.queue.pendingKeys.count key + w.queue.leasedKeys.count key +
    (if key ∈ w.queue.handled then 1 else 0) = w.queue.dedup.keys.count key
  total : w.queue.dedup.len =
    w.queue.pendingKeys.length + w.queue.inFlight.len + w.queue.handled.card
  accepted : w.queue.dedup.keys.toFinset = w.accepted
  marked : w.queue.handled = w.marked
  counted : w.queue.handledCount = w.queue.handled.card
  granted : ∀ leaseId leased, w.queue.inFlight.lookup leaseId = some leased →
    leaseId < w.queue.nextLeaseId
  spent : w.queue.handled.card + w.queue.inFlight.len ≤ w.queue.nextLeaseId
  fetched : w.queue.nextLeaseId ≤ n

theorem conserved_new (policy : MemoryQueuePolicy) : Conserved 0 (World.new policy) where
  active := (Frontier.active_new policy).1
  partition := by
    intro key
    have hnil : (World.new policy).queue.pendingKeys = [] :=
      List.map_eq_nil_iff.mpr (Frontier.active_new policy).2
    rw [hnil]
    rfl
  total := by
    have hnil : (World.new policy).queue.pendingKeys = [] :=
      List.map_eq_nil_iff.mpr (Frontier.active_new policy).2
    rw [hnil]
    rfl
  accepted := rfl
  marked := rfl
  counted := rfl
  granted := fun _ _ h => nomatch h
  spent := le_rfl
  fetched := le_rfl

variable {n : ℕ} {w : World}

theorem pendingKeys_push {f : Frontier} (h : f.Active) (forefront : Bool) (request : Request) :
    ((f.push forefront request).requests.map Request.uniqueKey).Perm
      (request.uniqueKey :: f.requests.map Request.uniqueKey) :=
  (Frontier.push_spec h forefront request).2.map Request.uniqueKey

theorem Conserved.known_iff (h : Conserved n w) {key : String} :
    (∃ requestId, w.queue.dedup.lookup key = some requestId) ↔ key ∈ w.accepted := by
  rw [← h.accepted, List.mem_toFinset, AList.mem_keys_iff]

theorem Conserved.addLocked (h : Conserved n w) (request : Request) (opts : AddOptions) :
    Conserved n ⟨(addLocked w.queue request opts).2, insert request.uniqueKey w.accepted,
      w.marked⟩ := by
  unfold MemoryQueue.addLocked
  split
  · rename_i requestId hknown
    have hmem : request.uniqueKey ∈ w.accepted := h.known_iff.mp ⟨requestId, hknown⟩
    rw [Finset.insert_eq_of_mem hmem]
    exact h
  · rename_i hnew
    have hkeys := AList.keys_insert_new request.id hnew
    have hpush := pendingKeys_push h.active opts.forefront request
    refine ⟨(Frontier.push_spec h.active opts.forefront request).1, ?_, ?_, ?_, h.marked,
      h.counted, h.granted, h.spent, h.fetched⟩
    · intro key
      have hpartition := h.partition key
      simp only [QueueState.pendingKeys, hpush.count_eq, hkeys, List.count_cons]
      simp only [QueueState.pendingKeys] at hpartition
      simp only [QueueState.leasedKeys] at hpartition ⊢
      omega
    · have htotal := h.total
      simp only [QueueState.pendingKeys, hpush.length_eq, List.length_cons,
        AList.len_insert_new _ hnew]
      simp only [QueueState.pendingKeys] at htotal
      omega
    · have haccepted := h.accepted
      simp only [hkeys, List.toFinset_cons, haccepted]

/-- What the answers to added requests say, in terms of the keys that were accepted before. -/
def Reports (accepted marked : Finset String) : List Request → List ProcessedRequest → Prop
  | [], [] => True
  | request :: requests, info :: infos =>
    info.uniqueKey = request.uniqueKey ∧
      (info.wasAlreadyPresent = true ↔ request.uniqueKey ∈ accepted) ∧
      (info.wasAlreadyHandled = true ↔ request.uniqueKey ∈ marked) ∧
      Reports (insert request.uniqueKey accepted) marked requests infos
  | _, _ => False

theorem Conserved.accepted_of_marked (h : Conserved n w) {key : String}
    (hmarked : key ∈ w.marked) : key ∈ w.accepted := by
  have hpartition := h.partition key
  rw [h.marked, if_pos hmarked] at hpartition
  rw [← h.accepted, List.mem_toFinset, ← List.count_pos_iff]
  omega

theorem Conserved.reports_addLocked (h : Conserved n w) (request : Request) (opts : AddOptions) :
    let info := (MemoryQueue.addLocked w.queue request opts).1
    info.uniqueKey = request.uniqueKey ∧
      (info.wasAlreadyPresent = true ↔ request.uniqueKey ∈ w.accepted) ∧
      (info.wasAlreadyHandled = true ↔ request.uniqueKey ∈ w.marked) := by
  unfold MemoryQueue.addLocked
  split
  · rename_i requestId hknown
    refine ⟨rfl, ?_, ?_⟩
    · simp only [true_iff]
      exact h.known_iff.mp ⟨requestId, hknown⟩
    · simp only [decide_eq_true_eq, h.marked]
  · rename_i hnew
    have hunknown : request.uniqueKey ∉ w.accepted := by
      intro hmem
      obtain ⟨requestId, hknown⟩ := h.known_iff.mpr hmem
      rw [hnew] at hknown
      cases hknown
    refine ⟨rfl, ?_, ?_⟩
    · simpa using hunknown
    · simpa using fun hmarked => hunknown (h.accepted_of_marked hmarked)

theorem Conserved.addBatch (h : Conserved n w) (requests : List Request) (opts : AddOptions) :
    Conserved n ⟨(addBatch w.queue opts requests).2,
        w.accepted ∪ (requests.map Request.uniqueKey).toFinset, w.marked⟩ ∧
      Reports w.accepted w.marked requests (addBatch w.queue opts requests).1 := by
  induction requests generalizing w with
  | nil => exact ⟨by simpa [MemoryQueue.addBatch] using h, trivial⟩
  | cons request requests ih =>
    obtain ⟨hrest, hreports⟩ := ih (h.addLocked request opts)
    obtain ⟨hkey, hpresent, hhandled⟩ := h.reports_addLocked request opts
    refine ⟨?_, hkey, hpresent, hhandled, hreports⟩
    simp only [List.map_cons, List.toFinset_cons, Finset.union_insert]
    rwa [Finset.insert_union] at hrest

theorem Conserved.fetchNext (h : Conserved n w) (hn : n + 1 < 2 ^ 64) (now : Instant) :
    ∃ lease queue, fetchNext w.queue now = some (lease, queue) ∧
      Conserved (n + 1) ⟨queue, w.accepted, w.marked⟩ := by
  rcases Frontier.popFront_spec h.active with ⟨-, hpop⟩ | ⟨request, rest, hpop, hactive, hperm⟩
  · refine ⟨none, w.queue, by simp [MemoryQueue.fetchNext, hpop], ?_⟩
    exact { h with fetched := Nat.le_succ_of_le h.fetched }
  · have hfetched := h.fetched
    have hroom : (w.queue.nextLeaseId + 1) % 2 ^ 64 = w.queue.nextLeaseId + 1 :=
      Nat.mod_eq_of_lt (by omega)
    have hnone : w.queue.inFlight.lookup w.queue.nextLeaseId = none := by
      by_contra hsome
      obtain ⟨leased, hleased⟩ := Option.ne_none_iff_exists'.mp hsome
      exact lt_irrefl _ (h.granted _ leased hleased)
    have hpending := hperm.map Request.uniqueKey
    refine ⟨_, _, by simp only [MemoryQueue.fetchNext, hpop]; rfl, ?_⟩
    rw [hroom]
    refine ⟨hactive, ?_, ?_, h.accepted, h.marked, h.counted, ?_, ?_, ?_⟩
    · intro key
      have hpartition := h.partition key
      simp only [QueueState.pendingKeys, hpending.count_eq, QueueState.leasedKeys,
        List.map_cons, List.count_cons] at hpartition
      simp only [QueueState.pendingKeys, QueueState.leasedKeys, AList.values_insert_new _ hnone,
        List.map_cons, List.count_cons]
      omega
    · have htotal := h.total
      have hlength := hpending.length_eq
      simp only [QueueState.pendingKeys, List.map_cons, List.length_cons] at htotal hlength
      simp only [QueueState.pendingKeys, AList.len_insert_new _ hnone]
      omega
    · intro leaseId leased hlookup
      simp only [AList.lookup_insert_ite] at hlookup
      split_ifs at hlookup with heq
      · exact heq ▸ Nat.lt_succ_self _
      · exact Nat.lt_succ_of_lt (h.granted leaseId leased hlookup)
    · have hspent := h.spent
      simp only [AList.len_insert_new _ hnone]
      omega
    · show w.queue.nextLeaseId + 1 ≤ n + 1
      omega

theorem Conserved.remove {leaseId : LeaseId} {leased : LeasedRequest} (h : Conserved n w)
    (hleased : w.queue.inFlight.lookup leaseId = some leased) :
    (∀ key, w.queue.leasedKeys.count key =
      ((w.queue.inFlight.erase leaseId).values.map fun l => l.request.uniqueKey).count key +
        if leased.request.uniqueKey == key then 1 else 0) ∧
      (w.queue.inFlight.erase leaseId).len + 1 = w.queue.inFlight.len ∧
      ∀ leaseId' leased', (w.queue.inFlight.erase leaseId).lookup leaseId' = some leased' →
        leaseId' < w.queue.nextLeaseId := by
  refine ⟨?_, AList.len_erase hleased, ?_⟩
  · intro key
    have hperm := (AList.values_perm_erase hleased).map fun l => l.request.uniqueKey
    rw [QueueState.leasedKeys, hperm.count_eq, List.map_cons, List.count_cons]
  · intro leaseId' leased' hlookup
    rw [AList.lookup_erase_ite] at hlookup
    split_ifs at hlookup
    exact h.granted leaseId' leased' hlookup

theorem Conserved.giveBack {leaseId : LeaseId} {leased : LeasedRequest} {request : Request}
    (h : Conserved n w) (hleased : w.queue.inFlight.lookup leaseId = some leased)
    (hkey : request.uniqueKey = leased.request.uniqueKey) (forefront : Bool) :
    Conserved n ⟨{ w.queue with
      inFlight := w.queue.inFlight.erase leaseId
      pending := w.queue.pending.push forefront request }, w.accepted, w.marked⟩ := by
  obtain ⟨hcount, hlen, hgranted⟩ := h.remove hleased
  have hpush := pendingKeys_push h.active forefront request
  refine ⟨(Frontier.push_spec h.active forefront request).1, ?_, ?_, h.accepted, h.marked,
    h.counted, hgranted, ?_, h.fetched⟩
  · intro key
    have hpartition := h.partition key
    rw [hcount key] at hpartition
    simp only [QueueState.pendingKeys] at hpartition
    simp only [QueueState.pendingKeys, QueueState.leasedKeys, hpush.count_eq, List.count_cons,
      hkey]
    omega
  · have htotal := h.total
    simp only [QueueState.pendingKeys] at htotal
    simp only [QueueState.pendingKeys, hpush.length_eq, List.length_cons]
    omega
  · have hspent := h.spent
    show w.queue.handled.card + (w.queue.inFlight.erase leaseId).len ≤ w.queue.nextLeaseId
    omega

theorem Conserved.unhandled {leaseId : LeaseId} {leased : LeasedRequest} (h : Conserved n w)
    (hleased : w.queue.inFlight.lookup leaseId = some leased) :
    leased.request.uniqueKey ∉ w.queue.handled := by
  intro hmem
  have hpartition := h.partition leased.request.uniqueKey
  rw [(h.remove hleased).1, if_pos hmem] at hpartition
  have hnodup := List.nodup_iff_count_le_one.mp w.queue.dedup.keys_nodup leased.request.uniqueKey
  simp only [beq_self_eq_true, if_true] at hpartition
  omega

theorem Conserved.markHandled {leaseId : LeaseId} {leased : LeasedRequest} (h : Conserved n w)
    (hn : n < 2 ^ 64) (hleased : w.queue.inFlight.lookup leaseId = some leased) :
    Conserved n ⟨{ w.queue with
      inFlight := w.queue.inFlight.erase leaseId
      handledCount := (w.queue.handledCount + 1) % 2 ^ 64
      handled := insert leased.request.uniqueKey w.queue.handled }, w.accepted,
      insert leased.request.uniqueKey w.marked⟩ := by
  obtain ⟨hcount, hlen, hgranted⟩ := h.remove hleased
  have hnew := h.unhandled hleased
  have hcard := Finset.card_insert_of_notMem hnew
  have hspent := h.spent
  have hfetched := h.fetched
  have hcounted := h.counted
  refine ⟨h.active, ?_, ?_, h.accepted, ?_, ?_, hgranted, ?_, h.fetched⟩
  · intro key
    have hpartition := h.partition key
    rw [hcount key] at hpartition
    simp only [QueueState.leasedKeys, Finset.mem_insert]
    by_cases hk : key = leased.request.uniqueKey
    · subst hk
      simp only [if_neg hnew, beq_self_eq_true, if_true] at hpartition
      simp only [true_or, if_true]
      simp only [QueueState.pendingKeys] at hpartition ⊢
      omega
    · have hne : (leased.request.uniqueKey == key) = false := beq_eq_false_iff_ne.mpr (Ne.symm hk)
      simp only [hne, Bool.false_eq_true, if_false] at hpartition
      simp only [hk, false_or]
      simp only [QueueState.pendingKeys] at hpartition ⊢
      omega
  · have htotal := h.total
    simp only [hcard]
    simp only [QueueState.pendingKeys] at htotal ⊢
    omega
  · rw [h.marked]
  · simp only [hcard]
    rw [Nat.mod_eq_of_lt (by omega), hcounted]
  · simp only [hcard]
    omega

theorem Conserved.renew {leaseId : LeaseId} {leased : LeasedRequest} (h : Conserved n w)
    (hleased : w.queue.inFlight.lookup leaseId = some leased) (expiresAt : Instant) :
    Conserved n ⟨{ w.queue with
      inFlight := w.queue.inFlight.insert leaseId { leased with expiresAt } },
      w.accepted, w.marked⟩ := by
  have hlen := AList.len_insert_present { leased with expiresAt } hleased
  refine ⟨h.active, ?_, ?_, h.accepted, h.marked, h.counted, ?_, ?_, h.fetched⟩
  · intro key
    obtain ⟨rest, hperm, hperm'⟩ := AList.values_insert_perm { leased with expiresAt } hleased
    have hsame := (hperm.map fun l => l.request.uniqueKey).trans
      (hperm'.map fun l => l.request.uniqueKey).symm
    have hpartition := h.partition key
    rw [QueueState.leasedKeys, hsame.count_eq] at hpartition
    exact hpartition
  · rw [hlen]
    exact h.total
  · intro leaseId' leased' hlookup
    rw [AList.lookup_insert_ite] at hlookup
    split_ifs at hlookup with heq
    · exact heq ▸ h.granted leaseId leased hleased
    · exact h.granted leaseId' leased' hlookup
  · rw [hlen]
    exact h.spent

def fetches : QueueOp → ℕ
  | .fetchNext => 1
  | _ => 0

def answers : StorageResult QueueReply → List ProcessedRequest
  | .ok reply => reply.processed
  | .error _ => []

theorem representable_of_call {s : QueueState} {op : QueueOp} {now : Instant}
    {r : StorageResult QueueReply × QueueState} (h : call now s op = some r) :
    Representable s op := by
  rintro leaseId extendBy leased rfl hleased
  simp only [call, renew, hleased, Option.map_map, Option.map_eq_some_iff] at h
  obtain ⟨expiresAt, hextended, -⟩ := h
  exact (extended_eq_some hextended).1

theorem call_unknown (s : QueueState) {op : QueueOp} {leaseId : LeaseId} (now : Instant)
    (hop : op.presented = some leaseId) (hnone : s.inFlight.lookup leaseId = none) :
    call now s op = some (.error (.leaseNotFound leaseId), s) := by
  cases op with
  | markHandled lease =>
    cases hop
    simp [call, markHandled, removeLease, hnone, Except.map]
  | reclaim lease opts =>
    cases hop
    simp [call, reclaim, removeLease, hnone, Except.map]
  | renew leaseId extendBy =>
    cases hop
    simp [call, renew, hnone, Except.map]
  | abandon lease =>
    cases hop
    simp [call, abandon, removeLease, hnone, Except.map]
  | add _ _ | addBatch _ _ | fetchNext | isEmpty | isFinished | handledCount | pendingCount =>
    cases hop

theorem Conserved.call_known {op : QueueOp} {leaseId : LeaseId} {leased : LeasedRequest}
    (h : Conserved n w) (hn : n < 2 ^ 64) (hunchanged : Unchanged w.queue op)
    (hrepresentable : Representable w.queue op) (now : Instant)
    (hop : op.presented = some leaseId)
    (hleased : w.queue.inFlight.lookup leaseId = some leased) :
    ∃ queue, MemoryQueue.call now w.queue op = some (.ok .unit, queue) ∧
      Conserved n ⟨queue, w.accepted, markedBy op (.ok .unit) w.marked⟩ := by
  cases op with
  | markHandled lease =>
    cases hop
    have hkey := hunchanged lease leased rfl hleased
    have hmarked := h.markHandled hn hleased
    refine ⟨_, ?_, by simp only [markedBy, hkey]; exact hmarked⟩
    simp [MemoryQueue.call, MemoryQueue.markHandled, removeLease, hleased, Except.map]
  | reclaim lease opts =>
    cases hop
    have hkey := hunchanged lease leased rfl hleased
    rw [← Request.reclaimed_uniqueKey _ opts.incrementRetry] at hkey
    refine ⟨_, ?_, h.giveBack hleased hkey opts.forefront⟩
    simp [MemoryQueue.call, reclaim, removeLease, hleased, Except.map]
  | renew leaseId extendBy =>
    cases hop
    have hextended := extended_of_le (hrepresentable leaseId extendBy leased rfl hleased)
    refine ⟨_, ?_, h.renew hleased (leased.expiresAt + extendBy)⟩
    simp [MemoryQueue.call, MemoryQueue.renew, hleased, hextended, Except.map]
  | abandon lease =>
    cases hop
    have hkey := hunchanged lease leased rfl hleased
    refine ⟨_, ?_, h.giveBack hleased hkey true⟩
    simp [MemoryQueue.call, abandon, removeLease, hleased, Except.map, Frontier.push]
  | add _ _ | addBatch _ _ | fetchNext | isEmpty | isFinished | handledCount | pendingCount =>
    cases hop

/-- One call: it returns, it conserves, and its answer is true. -/
theorem Conserved.call {op : QueueOp} (h : Conserved n w) (hn : n + fetches op < 2 ^ 64)
    (hunchanged : Unchanged w.queue op) (hrepresentable : Representable w.queue op)
    (now : Instant) :
    ∃ reply queue, MemoryQueue.call now w.queue op = some (reply, queue) ∧
      Conserved (n + fetches op) ⟨queue,
        w.accepted ∪ (op.added.map Request.uniqueKey).toFinset, markedBy op reply w.marked⟩ ∧
      Reports w.accepted w.marked op.added (answers reply) := by
  have hpresented : ∀ leaseId, op.presented = some leaseId → op.added = [] → fetches op = 0 →
      ∃ reply queue, MemoryQueue.call now w.queue op = some (reply, queue) ∧
        Conserved (n + fetches op) ⟨queue,
          w.accepted ∪ (op.added.map Request.uniqueKey).toFinset, markedBy op reply w.marked⟩ ∧
        Reports w.accepted w.marked op.added (answers reply) := by
    intro leaseId hop hadded hfetches
    rw [hadded, hfetches]
    simp only [List.map_nil, List.toFinset_nil, Finset.union_empty, Nat.add_zero]
    cases hleased : w.queue.inFlight.lookup leaseId with
    | none =>
      refine ⟨_, _, call_unknown w.queue now hop hleased, ?_, trivial⟩
      have hmarked : markedBy op (.error (.leaseNotFound leaseId)) w.marked = w.marked := by
        cases op <;> rfl
      rw [hmarked]
      exact h
    | some leased =>
      obtain ⟨queue, hcall, hkept⟩ :=
        h.call_known (by omega) hunchanged hrepresentable now hop hleased
      exact ⟨_, queue, hcall, hkept, trivial⟩
  cases op with
  | add request opts =>
    obtain ⟨hkey, hpresent, hhandled⟩ := h.reports_addLocked request opts
    refine ⟨_, _, rfl, ?_, hkey, hpresent, hhandled, trivial⟩
    have hadded := h.addLocked request opts
    rw [Finset.insert_eq, Finset.union_comm] at hadded
    exact hadded
  | addBatch requests opts =>
    obtain ⟨hadded, hreports⟩ := h.addBatch requests opts
    exact ⟨_, _, rfl, hadded, hreports⟩
  | fetchNext =>
    obtain ⟨lease, queue, hfetch, hkept⟩ := h.fetchNext hn now
    refine ⟨.ok (.leased lease), queue, by simp [MemoryQueue.call, hfetch], ?_, trivial⟩
    simpa [QueueOp.added, markedBy, fetches] using hkept
  | markHandled lease => exact hpresented lease.leaseId rfl rfl rfl
  | reclaim lease opts => exact hpresented lease.leaseId rfl rfl rfl
  | renew leaseId extendBy => exact hpresented leaseId rfl rfl rfl
  | abandon lease => exact hpresented lease.leaseId rfl rfl rfl
  | isEmpty | isFinished | handledCount | pendingCount =>
    refine ⟨_, _, rfl, ?_, trivial⟩
    simpa [QueueOp.added, markedBy, fetches] using h

def fetchCalls (calls : List Call) : ℕ := (calls.map fun c => fetches c.op).sum

theorem conserved_run {policy : MemoryQueuePolicy} {calls : List Call}
    (run : Machine.Run Serves (World.new policy) calls w)
    (few : fetchCalls calls < 2 ^ 64) : Conserved (fetchCalls calls) w := by
  induction run with
  | nil => exact conserved_new policy
  | @snoc u v calls c hrun hs ih =>
    obtain ⟨hunchanged, hs⟩ := hs
    simp only [fetchCalls, List.map_append, List.sum_append, List.map_cons, List.map_nil,
      List.sum_cons, List.sum_nil, Nat.add_zero] at few ⊢
    have hu := ih (by simp only [fetchCalls]; omega)
    obtain ⟨answer, hanswer, -⟩ := Option.map_eq_some_iff.mp hs
    obtain ⟨reply, queue, hcall, hkept, -⟩ :=
      hu.call few hunchanged (representable_of_call hanswer) c.now
    simp only [Machine.Computes, step, hcall, Option.map_some, Option.some.injEq] at hs
    subst hs
    exact hkept

/-- Whatever the policy, every accepted key is pending, leased or handled, in one place only;
the numbers add up; the next call returns if a deadline it moves is still an `Instant`, and says
of each key whether it was accepted or marked before; and one with an unknown lease fails and
changes nothing. -/
theorem queue_conserves (policy : MemoryQueuePolicy) {calls : List Call}
    (run : Machine.Run Serves (World.new policy) calls w)
    (few : fetchCalls calls < 2 ^ 64) :
    (∀ key, w.queue.pendingKeys.count key + w.queue.leasedKeys.count key +
      (if key ∈ w.queue.handled then 1 else 0) = if key ∈ w.accepted then 1 else 0) ∧
    w.queue.dedup.len = w.queue.pending.len + w.queue.inFlight.len + w.queue.handledCount ∧
    (∀ op now, Unchanged w.queue op → Representable w.queue op →
      fetchCalls calls + fetches op < 2 ^ 64 → ∃ reply queue,
      call now w.queue op = some (reply, queue) ∧
      Reports w.accepted w.marked op.added (answers reply)) ∧
    ∀ op now leaseId, op.presented = some leaseId → w.queue.inFlight.lookup leaseId = none →
      call now w.queue op = some (.error (.leaseNotFound leaseId), w.queue) := by
  have h := conserved_run run few
  refine ⟨?_, ?_, ?_, ?_⟩
  · intro key
    rw [h.partition key, ← h.accepted]
    simp only [List.mem_toFinset]
    split_ifs with hmem
    · exact List.count_eq_one_of_mem w.queue.dedup.keys_nodup hmem
    · exact List.count_eq_zero_of_not_mem hmem
  · have htotal := h.total
    rw [QueueState.pendingKeys, List.length_map, ← Frontier.len_eq] at htotal
    rw [h.counted]
    exact htotal
  · intro op now hunchanged hrepresentable hfew
    obtain ⟨reply, queue, hcall, -, hreports⟩ := h.call hfew hunchanged hrepresentable now
    exact ⟨reply, queue, hcall, hreports⟩
  · intro op now leaseId hop hnone
    exact call_unknown w.queue now hop hnone

-- Two hosts take turns; one request is handled, the other is given back.
def page (host key : String) : Request := .get ⟨"https://" ++ host ++ "/", some host⟩ key

def turns : List Call :=
  [⟨.addBatch [page "a.com" "a1", page "a.com" "a2", page "b.com" "b1"] {}, 0⟩, ⟨.fetchNext, 1⟩,
   ⟨.fetchNext, 2⟩, ⟨.markHandled ⟨page "a.com" "a1", 0, 0⟩, 3⟩, ⟨.renew 1 leaseTtl, 3⟩,
   ⟨.reclaim ⟨page "b.com" "b1", 1, 0⟩ {}, 4⟩, ⟨.abandon ⟨page "b.com" "b1", 1, 0⟩, 5⟩]

theorem queue_conserves_turns : ∃ w, Machine.Run Serves (World.new .domainRoundRobin) turns w ∧
      w.queue.pending.len = 2 ∧
      w.queue.dedup.len = w.queue.pending.len + w.queue.inFlight.len + w.queue.handledCount := by
  have hrun : (turns.foldlM (fun w c => if Unchanged w.queue c.op then step w c else none)
      (World.new .domainRoundRobin)).map (fun w => w.queue.pending.len) = some 2 := by
    decide +kernel
  obtain ⟨w, hw, hlen⟩ := Option.map_eq_some_iff.mp hrun
  have run := Machine.guarded_run_of_foldlM hw
  exact ⟨w, run, hlen, (queue_conserves .domainRoundRobin run (by decide)).2.1⟩

-- The counter of lease identifiers comes round while a lease is held.
def heldLease : World where
  queue := { (withPolicy .fifo) with
    dedup := ((∅ : HashMap String RequestId).insert "a" (page "a.com" "a").id).insert "b"
      (page "b.com" "b").id
    pending := .fifo [page "b.com" "b"]
    inFlight := (∅ : HashMap LeaseId LeasedRequest).insert 0 ⟨page "a.com" "a", 0 + leaseTtl⟩
    nextLeaseId := 1 }
  accepted := {"a", "b"}
  marked := ∅

def round (k : ℕ) : List Call :=
  [⟨.fetchNext, 0⟩, ⟨.abandon ⟨page "b.com" "b", k + 1, 0⟩, 0⟩]

def afterRounds (k : ℕ) : World :=
  { heldLease with queue := { heldLease.queue with nextLeaseId := (k + 1) % 2 ^ 64 } }

theorem erase_insert_new {m : HashMap LeaseId LeasedRequest} {leaseId : LeaseId}
    (leased : LeasedRequest) (h : m.lookup leaseId = none) :
    (m.insert leaseId leased).erase leaseId = m := by
  apply AList.ext
  have hentries := AList.entries_insert_new leased h
  show (m.insert leaseId leased).entries.kerase leaseId = m.entries
  rw [hentries]
  exact List.kerase_cons_eq rfl

theorem run_round {k : ℕ} (hk : k + 1 < 2 ^ 64) :
    Machine.Run Serves (afterRounds k) (round k) (afterRounds (k + 1)) := by
  have hid : (k + 1) % 2 ^ 64 = k + 1 := Nat.mod_eq_of_lt hk
  have hnone : heldLease.queue.inFlight.lookup (k + 1) = none := by
    simp only [heldLease, AList.lookup_insert_ite]
    rw [if_neg (Nat.succ_ne_zero k)]
    rfl
  let fetched : QueueState := { heldLease.queue with
    pending := .fifo []
    inFlight := heldLease.queue.inFlight.insert (k + 1) ⟨page "b.com" "b", 0 + leaseTtl⟩
    nextLeaseId := (k + 1 + 1) % 2 ^ 64 }
  have hfetch : step (afterRounds k) ⟨.fetchNext, 0⟩ =
      some { heldLease with queue := fetched } := by
    simp only [step, call, fetchNext, afterRounds, hid, heldLease, Frontier.popFront, markedBy,
      QueueOp.added, List.map_nil, List.toFinset_nil, Finset.union_empty, Option.map_some, fetched]
  have hlookup : fetched.inFlight.lookup (k + 1) = some ⟨page "b.com" "b", 0 + leaseTtl⟩ :=
    AList.lookup_insert _
  have habandon : step { heldLease with queue := fetched }
      ⟨.abandon ⟨page "b.com" "b", k + 1, 0⟩, 0⟩ = some (afterRounds (k + 1)) := by
    have herase : fetched.inFlight.erase (k + 1) = heldLease.queue.inFlight :=
      erase_insert_new _ hnone
    simp only [step, call, abandon, removeLease, hlookup, herase]
    simp [Except.map, markedBy, QueueOp.added, afterRounds, fetched, Frontier.pushFront, heldLease]
  have hunchanged : Unchanged (afterRounds k).queue .fetchNext := by
    intro lease leased hop
    cases hop
  have hunchanged' : Unchanged fetched (.abandon ⟨page "b.com" "b", k + 1, 0⟩) := by
    intro lease leased hop hleased
    cases hop
    rw [hlookup] at hleased
    cases hleased
    rfl
  have hfirst : Machine.Run Serves (afterRounds k) [⟨.fetchNext, 0⟩]
      { heldLease with queue := fetched } := (Machine.Run.nil _).snoc ⟨hunchanged, hfetch⟩
  exact hfirst.snoc ⟨hunchanged', habandon⟩

theorem run_rounds {k : ℕ} (hk : k < 2 ^ 64) :
    Machine.Run Serves (afterRounds 0) ((List.range k).flatMap round) (afterRounds k) := by
  induction k with
  | zero => exact .nil _
  | succ k ih =>
    rw [List.range_succ, List.flatMap_append, List.flatMap_singleton]
    exact (ih (by omega)).append (run_round hk)

def opening : List Call :=
  [⟨.add (page "a.com" "a") {}, 0⟩, ⟨.fetchNext, 0⟩, ⟨.add (page "b.com" "b") {}, 0⟩]

theorem run_opening : Machine.Run Serves (World.new .fifo) opening (afterRounds 0) := by
  apply Machine.guarded_run_of_foldlM
  rfl

/-- After `2 ^ 64` fetches the identifier of the held lease is given out again, and the
request that was leased under it is nowhere. -/
theorem request_lost : ∃ calls w, Machine.Run Serves (World.new .fifo) calls w ∧
    "a" ∈ w.accepted ∧ w.queue.pendingKeys.count "a" + w.queue.leasedKeys.count "a" +
      (if "a" ∈ w.queue.handled then 1 else 0) = 0 := by
  have hrun := run_opening.append (run_rounds (k := 2 ^ 64 - 1) (by decide))
  have hlast : step (afterRounds (2 ^ 64 - 1)) ⟨.fetchNext, 0⟩ = some { heldLease with
      queue := { heldLease.queue with
        pending := .fifo []
        inFlight := heldLease.queue.inFlight.insert 0 ⟨page "b.com" "b", 0 + leaseTtl⟩
        nextLeaseId := 1 } } := by
    rfl
  refine ⟨_, _, hrun.snoc ⟨?_, hlast⟩, ?_, ?_⟩
  · intro lease leased hop
    cases hop
  · decide
  · decide

/-- A lease that is renewed for too long ends the service. -/
theorem renewal_panics : ∃ calls w, Machine.Run Serves (World.new .fifo) calls w ∧
    Unchanged w.queue (.renew 0 Duration.max) ∧ call 0 w.queue (.renew 0 Duration.max) = none := by
  refine ⟨opening, afterRounds 0, run_opening, ?_, rfl⟩
  intro lease leased hop
  cases hop

end Millipede.MemoryQueue
