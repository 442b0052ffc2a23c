import Millipede.Storage.FsLeases

/-!
# The table of leases

What a call of the file-system queue does to the leases it has given out, whatever the requests
and the directory look like: `fetch_next` drops those that have expired, `renew` looks at one,
and every other call touches at most the lease that it is given.
-/

namespace Millipede.FsQueue
variable {β : Type*} {s s' : QueueState} {now : Instant} {d d' : Disk β}

/-- The entry of a lease, unless it has expired. -/
def unexpired (s : QueueState) (now : Instant) (leaseId : LeaseId) : Option (RequestId × Instant) :=
  (s.leases.lookup leaseId).filter fun entry => decide (now < entry.2)

inductive LeaseMove (s : QueueState) (now : Instant) :
    QueueOp → StorageResult QueueReply → QueueState → Prop
  | granted (lease : Lease) (id : RequestId) (s' : QueueState) :
      lease.leaseId = s.nextLeaseId → s.nextLeaseId < u64Max →
      s'.nextLeaseId = s.nextLeaseId + 1 →
      (∀ l, s'.leases.lookup l =
        if l = lease.leaseId then some (id, lease.expiresAt) else unexpired s now l) →
      LeaseMove s now .fetchNext (.ok (.leased (some lease))) s'
  | swept (reply : StorageResult QueueReply) (s' : QueueState) :
      (∀ lease, reply ≠ .ok (.leased (some lease))) →
      (∀ l, reply ≠ .error (.leaseNotFound l)) → s'.nextLeaseId = s.nextLeaseId →
      (∀ l, s'.leases.lookup l = unexpired s now l) → LeaseMove s now .fetchNext reply s'
  | renewed (leaseId : LeaseId) (extendBy : Duration) (id : RequestId) (e : Instant)
      (s' : QueueState) :
      unexpired s now leaseId = some (id, e) → s'.nextLeaseId = s.nextLeaseId →
      (∀ l, s'.leases.lookup l =
        if l = leaseId then some (id, e + extendBy) else s.leases.lookup l) →
      LeaseMove s now (.renew leaseId extendBy) (.ok .unit) s'
  | lost (leaseId : LeaseId) (extendBy : Duration) (s' : QueueState) :
      unexpired s now leaseId = none → s'.nextLeaseId = s.nextLeaseId →
      (∀ l, s'.leases.lookup l = if l = leaseId then none else s.leases.lookup l) →
      LeaseMove s now (.renew leaseId extendBy) (.error (.leaseNotFound leaseId)) s'
  | gave (op : QueueOp) (lease : Lease) (reply : StorageResult QueueReply) (s' : QueueState) :
      op.returned = some lease → s'.nextLeaseId = s.nextLeaseId →
      (∀ l, s'.leases.lookup l = s.leases.lookup l ∨
        l = lease.leaseId ∧ s'.leases.lookup l = none) →
      (∀ l, reply = .error (.leaseNotFound l) → s.leases.lookup lease.leaseId = none) →
      LeaseMove s now op reply s'
  | other (op : QueueOp) (reply : StorageResult QueueReply) (s' : QueueState) :
      op ≠ .fetchNext → op.presented = none → (∀ l, reply ≠ .error (.leaseNotFound l)) →
      s'.nextLeaseId = s.nextLeaseId → s'.leases = s.leases → LeaseMove s now op reply s'

theorem unexpired_of_lt {l : LeaseId} {id : RequestId} {e : Instant}
    (hl : s.leases.lookup l = some (id, e)) (h : now < e) :
    unexpired s now l = some (id, e) := by
  rw [unexpired, hl, Option.filter_some, decide_eq_true h]
  rfl

theorem unexpired_of_le {l : LeaseId} {id : RequestId} {e : Instant}
    (hl : s.leases.lookup l = some (id, e)) (h : e ≤ now) : unexpired s now l = none := by
  rw [unexpired, hl, Option.filter_some, decide_eq_false (Nat.not_lt.mpr h)]
  rfl

theorem lookup_takeBack (s : QueueState) (leaseId l : LeaseId) :
    (takeBack s leaseId).leases.lookup l =
      if l = leaseId then none else s.leases.lookup l := by
  unfold takeBack
  cases hl : s.leases.lookup leaseId with
  | none =>
    split_ifs with hid
    · rw [hid]
      exact hl
    · rfl
  | some entry =>
    have herase := AList.lookup_erase_ite s.leases l leaseId
    simp only
    split
    · exact herase
    · exact herase

theorem nextLeaseId_takeBack (s : QueueState) (leaseId : LeaseId) :
    (takeBack s leaseId).nextLeaseId = s.nextLeaseId := by
  unfold takeBack
  split
  · rfl
  · simp only
    split
    · rfl
    · rfl

theorem foldl_takeBack (s : QueueState) (ids : List LeaseId) :
    (ids.foldl takeBack s).nextLeaseId = s.nextLeaseId ∧
      ∀ l, (ids.foldl takeBack s).leases.lookup l =
        if l ∈ ids then none else s.leases.lookup l := by
  induction ids generalizing s with
  | nil => exact ⟨rfl, fun l => (if_neg List.not_mem_nil).symm⟩
  | cons leaseId ids ih =>
    obtain ⟨hnext, hlookup⟩ := ih (takeBack s leaseId)
    refine ⟨hnext.trans (nextLeaseId_takeBack s leaseId), ?_⟩
    intro l
    rw [List.foldl_cons, hlookup, lookup_takeBack]
    by_cases hid : l = leaseId
    · simp [hid]
    · simp [hid]

theorem lookup_reclaimExpired (s : QueueState) (now : Instant) (l : LeaseId) :
    (reclaimExpired s now).leases.lookup l = unexpired s now l := by
  unfold reclaimExpired
  rw [(foldl_takeBack s _).2 l, unexpired]
  cases hl : s.leases.lookup l with
  | none => exact ite_self none
  | some entry =>
    have hexpired : l ∈ expired s now ↔ entry.2 ≤ now := by
      rw [mem_expired, hl]
      constructor
      · rintro ⟨id, e, heq, hle⟩
        cases heq
        exact hle
      · intro hle
        exact ⟨entry.1, entry.2, rfl, hle⟩
    rw [Option.filter_some, if_congr hexpired rfl rfl]
    by_cases hle : entry.2 ≤ now
    · simp [hle]
    · simp [hle, Nat.lt_of_not_le hle]

theorem nextLeaseId_reclaimExpired (s : QueueState) (now : Instant) :
    (reclaimExpired s now).nextLeaseId = s.nextLeaseId := (foldl_takeBack s _).1

theorem fetchNext_leases {later : Instant} {result : StorageResult (Option Lease)}
    (h : fetchNext s now later = (some result, s')) :
    LeaseMove s now .fetchNext (result.map .leased) s' := by
  have hnext := nextLeaseId_reclaimExpired s now
  have hlookup := lookup_reclaimExpired s now
  unfold fetchNext at h
  generalize reclaimExpired s now = t at h hnext hlookup
  cases hp : t.pending.popFirst with
  | none =>
    simp only [hp] at h
    cases h
    exact .swept _ _ (fun lease heq => by cases heq) (fun l heq => by cases heq) hnext hlookup
  | some popped =>
    obtain ⟨⟨o, id⟩, rest⟩ := popped
    cases hst : t.requests.lookup id with
    | none =>
      simp only [hp, hst] at h
      cases h
    | some st =>
      simp only [hp, hst] at h
      split_ifs at h with hroom
      · cases h
        refine .granted _ id _ hnext (by omega) (congrArg (· + 1) hnext) ?_
        intro l
        exact (AList.lookup_insert_ite ..).trans (if_congr Iff.rfl rfl (hlookup l))
      · cases h
        exact .swept _ _ (fun lease heq => by cases heq) (fun l heq => by cases heq) hnext hlookup

theorem renew_leases {leaseId : LeaseId} {extendBy : Duration} {result : StorageResult Unit}
    (h : renew s now leaseId extendBy = (some result, s')) :
    LeaseMove s now (.renew leaseId extendBy) (result.map fun _ => .unit) s' := by
  unfold renew at h
  cases hl : s.leases.lookup leaseId with
  | none =>
    simp only [hl] at h
    cases h
    refine .lost leaseId extendBy _ ?_ rfl ?_
    · rw [unexpired, hl]
      rfl
    · intro l
      split_ifs with hid
      · rw [hid, hl]
      · rfl
  | some entry =>
    obtain ⟨id, e⟩ := entry
    simp only [hl] at h
    split_ifs at h with hle
    · cases h
      refine .lost leaseId extendBy _ ?_ (nextLeaseId_takeBack s leaseId)
        (lookup_takeBack s leaseId)
      exact unexpired_of_le hl hle
    · cases hextended : extended e extendBy with
      | none =>
        simp only [hextended] at h
        cases h
      | some e' =>
        obtain ⟨-, rfl⟩ := extended_eq_some hextended
        simp only [hextended] at h
        cases h
        exact .renewed leaseId extendBy id e _ (unexpired_of_lt hl (Nat.lt_of_not_le hle)) rfl
          fun l => AList.lookup_insert_ite ..

theorem LeaseMove.next_le {op : QueueOp} {reply : StorageResult QueueReply}
    (h : LeaseMove s now op reply s') :
    s.nextLeaseId ≤ s'.nextLeaseId := by
  cases h with
  | granted lease id _ hid hroom hnext => omega
  | swept _ _ _ _ hnext => exact hnext.ge
  | renewed _ _ _ _ _ _ hnext => exact hnext.ge
  | lost _ _ _ _ hnext => exact hnext.ge
  | gave _ _ _ _ _ hnext => exact hnext.ge
  | other _ _ _ _ _ _ hnext => exact hnext.ge

theorem LeaseMove.granted_inv {lease : Lease}
    (h : LeaseMove s now .fetchNext (.ok (.leased (some lease))) s') :
    lease.leaseId = s.nextLeaseId ∧ s.nextLeaseId < u64Max ∧
      s'.nextLeaseId = s.nextLeaseId + 1 ∧ ∃ id, ∀ l, s'.leases.lookup l =
        if l = lease.leaseId then some (id, lease.expiresAt) else unexpired s now l := by
  cases h with
  | granted _ id _ hid hroom hnext hlookup => exact ⟨hid, hroom, hnext, id, hlookup⟩
  | swept _ _ hreply => exact absurd rfl (hreply lease)
  | gave _ _ _ _ hop => cases hop
  | other _ _ _ hop => exact absurd rfl hop

/-- A lease stays with the request that it was granted for. -/
theorem LeaseMove.owner {op : QueueOp} {reply : StorageResult QueueReply}
    (h : LeaseMove s now op reply s') {l : LeaseId} {id id' : RequestId} {e e' : Instant}
    (hl : s.leases.lookup l = some (id, e)) (hlt : l < s.nextLeaseId)
    (hl' : s'.leases.lookup l = some (id', e')) : id' = id := by
  have hkept : unexpired s now l = some (id', e') → id' = id := by
    intro hunexpired
    rw [unexpired, hl, Option.filter_some] at hunexpired
    split_ifs at hunexpired
    cases hunexpired
    rfl
  cases h with
  | granted lease owner _ hid hroom hnext hlookup =>
    have hne : l ≠ lease.leaseId := by
      rw [hid]
      exact hlt.ne
    rw [hlookup, if_neg hne] at hl'
    exact hkept hl'
  | swept _ _ _ _ hnext hlookup =>
    rw [hlookup] at hl'
    exact hkept hl'
  | renewed leaseId extendBy owner deadline _ hunexpired hnext hlookup =>
    rw [hlookup] at hl'
    split_ifs at hl' with hid
    · cases hl'
      rw [← hid, unexpired, hl, Option.filter_some] at hunexpired
      split_ifs at hunexpired
      cases hunexpired
      rfl
    · rw [hl] at hl'
      cases hl'
      rfl
  | lost leaseId extendBy _ hgone hnext hlookup =>
    rw [hlookup] at hl'
    split_ifs at hl'
    rw [hl] at hl'
    cases hl'
    rfl
  | gave _ lease _ _ hop hnext hsame herror =>
    obtain hsame | ⟨-, hnone⟩ := hsame l
    · rw [hsame, hl] at hl'
      cases hl'
      rfl
    · rw [hnone] at hl'
      cases hl'
  | other _ _ _ hop hpresented hreply hnext hsame =>
    rw [hsame, hl] at hl'
    cases hl'
    rfl

section Calls
variable {codec : Codec β} {fate : WriteFate β}

theorem takeOrder_error {forefront : Bool} {e : StorageError}
    (h : s.takeOrder forefront = .error e) (l : LeaseId) : e ≠ .leaseNotFound l := by
  unfold QueueState.takeOrder at h
  split_ifs at h
  · cases h
    exact StorageError.noConfusion
  · cases h
    exact StorageError.noConfusion

theorem validateUniqueKey_error {id : RequestId} {request : Request} {e : StorageError}
    (h : validateUniqueKey s id request = .error e) (l : LeaseId) : e ≠ .leaseNotFound l := by
  unfold validateUniqueKey at h
  split at h
  · split_ifs at h
    cases h
    exact StorageError.noConfusion
  · cases h

theorem writeRequest_error {request : Request} {orderNo : Option ℤ} {e : StorageError}
    (h : writeRequest codec fate d request orderNo = .error e d') (l : LeaseId) :
    e ≠ .leaseNotFound l := by
  cases fate with
  | fails text residue =>
    cases h
    exact StorageError.noConfusion
  | completes | crashesBefore residue | crashesAfter => cases h

theorem addLocked_leases {request : Request} {opts : AddOptions}
    {result : StorageResult ProcessedRequest}
    (h : addLocked codec fate s d request opts = .returned result s' d') :
    (∀ l, result ≠ .error (.leaseNotFound l)) ∧ s'.nextLeaseId = s.nextLeaseId ∧
      s'.leases = s.leases := by
  unfold addLocked at h
  split at h
  · cases h
    exact ⟨fun l heq => (by cases heq), rfl, rfl⟩
  · split at h
    · next e ht =>
      cases h
      exact ⟨fun l heq => takeOrder_error ht l (Except.error.inj heq), rfl, rfl⟩
    · next o s₁ ht =>
      obtain ⟨-, hleases, -, -, -, hnext⟩ := takeOrder_requests ht
      split at h
      · next e d₁ hw =>
        cases h
        exact ⟨fun l heq => writeRequest_error hw l (Except.error.inj heq), hnext, hleases⟩
      · cases h
      · cases h
        exact ⟨fun l heq => (by cases heq), hnext, hleases⟩

theorem addBatch_leases {fates : ℕ → WriteFate β} {opts : AddOptions} {requests : List Request}
    {processed : List ProcessedRequest} {result : StorageResult (List ProcessedRequest)}
    (h : addBatch codec fates opts s d processed requests = .returned result s' d') :
    (∀ l, result ≠ .error (.leaseNotFound l)) ∧ s'.nextLeaseId = s.nextLeaseId ∧
      s'.leases = s.leases := by
  induction requests generalizing s d processed with
  | nil =>
    cases h
    exact ⟨fun l heq => (by cases heq), rfl, rfl⟩
  | cons request requests ih =>
    unfold addBatch at h
    split at h
    · next hadd =>
      obtain ⟨-, hnext, hleases⟩ := addLocked_leases hadd
      obtain ⟨herror, hnext', hleases'⟩ := ih h
      exact ⟨herror, hnext'.trans hnext, hleases'.trans hleases⟩
    · next hadd =>
      obtain ⟨herror, hnext, hleases⟩ := addLocked_leases hadd
      cases h
      refine ⟨fun l heq => herror l ?_, hnext, hleases⟩
      rw [Except.error.inj heq]
    · cases h
    · cases h

theorem leaseRequestId_error {leaseId : LeaseId} {e : StorageError}
    (h : leaseRequestId s leaseId = .error e) : s.leases.lookup leaseId = none := by
  unfold leaseRequestId at h
  split at h
  · cases h
  · next hl => exact hl

theorem requeue_leases {op : QueueOp} {lease : Lease} {forefront incrementRetry : Bool}
    {result : StorageResult Unit} (hop : op.returned = some lease)
    (h : requeue codec fate s d lease forefront incrementRetry = .returned result s' d') :
    LeaseMove s now op (result.map fun _ => .unit) s' := by
  unfold requeue at h
  split at h
  · next e hl =>
    cases h
    exact .gave op lease _ _ hop rfl (fun _ => .inl rfl) fun _ _ => leaseRequestId_error hl
  · split at h
    · next e hv =>
      cases h
      refine .gave op lease _ _ hop rfl (fun _ => .inl rfl) fun l heq => ?_
      exact absurd (Except.error.inj heq) (validateUniqueKey_error hv l)
    · simp only at h
      split at h
      · next e ht =>
        cases h
        refine .gave op lease _ _ hop rfl (fun _ => .inl rfl) fun l heq => ?_
        exact absurd (Except.error.inj heq) (takeOrder_error ht l)
      · next o s₁ ht =>
        obtain ⟨-, hleases, -, -, -, hnext⟩ := takeOrder_requests ht
        split at h
        · next e d₁ hw =>
          cases h
          refine .gave op lease _ _ hop hnext (fun _ => .inl (by rw [hleases])) fun l heq => ?_
          exact absurd (Except.error.inj heq) (writeRequest_error hw l)
        · cases h
        · cases h
          refine .gave op lease _ _ hop hnext ?_ fun l heq => by cases heq
          intro l
          have herase := AList.lookup_erase_ite s₁.leases l lease.leaseId
          rw [hleases] at herase
          split_ifs at herase with hid
          · exact .inr ⟨hid, hleases ▸ herase⟩
          · exact .inl (hleases ▸ herase)

theorem markHandled_leases {op : QueueOp} {lease : Lease} {result : StorageResult Unit}
    (hop : op.returned = some lease)
    (h : markHandled codec fate s d lease = .returned result s' d') :
    LeaseMove s now op (result.map fun _ => .unit) s' := by
  unfold markHandled at h
  split at h
  · next e hl =>
    cases h
    exact .gave op lease _ _ hop rfl (fun _ => .inl rfl) fun _ _ => leaseRequestId_error hl
  · split at h
    · next e hv =>
      cases h
      refine .gave op lease _ _ hop rfl (fun _ => .inl rfl) fun l heq => ?_
      exact absurd (Except.error.inj heq) (validateUniqueKey_error hv l)
    · split at h
      · next e d₁ hw =>
        cases h
        refine .gave op lease _ _ hop rfl (fun _ => .inl rfl) fun l heq => ?_
        exact absurd (Except.error.inj heq) (writeRequest_error hw l)
      · cases h
      · cases h
        refine .gave op lease _ _ hop rfl ?_ fun l heq => by cases heq
        intro l
        have herase := AList.lookup_erase_ite s.leases l lease.leaseId
        split_ifs at herase with hid
        · exact .inr ⟨hid, herase⟩
        · exact .inl herase

/-- What a call that is answered does to the leases. -/
theorem call_leases {env : Surroundings β} {op : QueueOp} {reply : StorageResult QueueReply}
    (h : call codec env s d op = .returned reply s' d') : LeaseMove s env.now op reply s' := by
  cases op with
  | add request opts =>
    obtain ⟨result, hadd, rfl⟩ := Outcome.map_eq_returned h
    obtain ⟨herror, hnext, hleases⟩ := addLocked_leases hadd
    refine .other _ _ _ QueueOp.noConfusion rfl (fun l heq => herror l ?_) hnext hleases
    cases result with
    | ok info => cases heq
    | error e => exact congrArg Except.error (Except.error.inj heq)
  | addBatch requests opts =>
    obtain ⟨result, hadd, rfl⟩ := Outcome.map_eq_returned h
    obtain ⟨herror, hnext, hleases⟩ := addBatch_leases hadd
    refine .other _ _ _ QueueOp.noConfusion rfl (fun l heq => herror l ?_) hnext hleases
    cases result with
    | ok infos => cases heq
    | error e => exact congrArg Except.error (Except.error.inj heq)
  | fetchNext =>
    obtain ⟨result, hfetch, rfl⟩ := Outcome.map_eq_returned h
    exact fetchNext_leases (Outcome.unwritten_eq_returned hfetch)
  | markHandled lease =>
    obtain ⟨result, hmark, rfl⟩ := Outcome.map_eq_returned h
    exact markHandled_leases rfl hmark
  | reclaim lease opts =>
    obtain ⟨result, hrequeue, rfl⟩ := Outcome.map_eq_returned h
    exact requeue_leases rfl hrequeue
  | abandon lease =>
    obtain ⟨result, hrequeue, rfl⟩ := Outcome.map_eq_returned h
    exact requeue_leases rfl hrequeue
  | renew leaseId extendBy =>
    obtain ⟨result, hrenew, rfl⟩ := Outcome.map_eq_returned h
    exact renew_leases (Outcome.unwritten_eq_returned hrenew)
  | isEmpty | isFinished | handledCount | pendingCount =>
    cases h
    exact .other _ _ _ QueueOp.noConfusion rfl (fun l heq => by cases heq) rfl rfl

end Calls

/-- The queue leases the request that it returns. -/
theorem Kept.granted {codec : Codec β} {P : Request → Prop} {n : ℕ} {env : Surroundings β}
    {lease : Lease} (h : Kept codec P n s d)
    (hcall : call codec env s d .fetchNext = .returned (.ok (.leased (some lease))) s' d') :
    ∃ e, s'.leases.lookup lease.leaseId = some (lease.request.id, e) := by
  obtain ⟨result, hfetch, hresult⟩ := Outcome.map_eq_returned hcall
  have hfetch := Outcome.unwritten_eq_returned hfetch
  have ht := reclaimExpired_kept h env.now
  unfold fetchNext at hfetch
  generalize reclaimExpired s env.now = t at hfetch ht
  cases hp : t.pending.popFirst with
  | none =>
    simp only [hp] at hfetch
    cases hfetch
    cases hresult
  | some popped =>
    obtain ⟨⟨o, id⟩, rest⟩ := popped
    cases hst : t.requests.lookup id with
    | none =>
      simp only [hp, hst] at hfetch
      cases hfetch
    | some st =>
      simp only [hp, hst] at hfetch
      split_ifs at hfetch with hroom
      · cases hfetch
        cases hresult
        rw [(ht.consistent.stored id st hst).1]
        exact ⟨_, (AList.lookup_insert_ite ..).trans (if_pos rfl)⟩
      · cases hfetch
        cases hresult

end Millipede.FsQueue
