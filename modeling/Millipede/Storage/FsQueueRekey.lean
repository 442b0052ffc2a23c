import Millipede.Storage.FsQueueRecovery

/-!
# Leases that come back with another key

A request keeps its identifier, and with it its record and its file, when its lease comes
back with another unique key; the key it was added with is forgotten. That is safe as long as
nobody adds this key again: its identifier still belongs to the request.
-/

namespace Millipede.FsQueue
variable {β : Type*}

def Untouched (id : RequestId) (s : QueueState) (d : Disk β) (s' : QueueState) (d' : Disk β) :
    Prop :=
  s'.requests.lookup id = s.requests.lookup id ∧
    d'.files.lookup (Layout.requestFileName id) = d.files.lookup (Layout.requestFileName id)

section Frame
variable {codec : Codec β} {P : Request → Prop} {s s' : QueueState} {d d' : Disk β}
  {id : RequestId}

theorem Untouched.refl (id : RequestId) (s : QueueState) (d : Disk β) : Untouched id s d s d :=
  ⟨rfl, rfl⟩

theorem Untouched.trans {s'' : QueueState} {d'' : Disk β} (h : Untouched id s d s' d')
    (h' : Untouched id s' d' s'' d'') : Untouched id s d s'' d'' :=
  ⟨h'.1.trans h.1, h'.2.trans h.2⟩

theorem lookup_leave (d : Disk β) (destination : String) (residue : Option (UInt64 × β))
    (id : RequestId) : (d.leave destination residue).files.lookup (Layout.requestFileName id) =
      d.files.lookup (Layout.requestFileName id) := by
  cases residue with
  | none => rfl
  | some p =>
    simp only [Disk.leave, AList.lookup_insert_ite]
    rw [if_neg]
    intro heq
    have htemp := Layout.isRequestFile_temporaryName destination p.1
    rw [← heq, Layout.isRequestFile_requestFileName] at htemp
    cases htemp

theorem lookup_put {r : Request} (orderNo : Option ℤ) (h : id ≠ r.id) :
    (d.put codec r orderNo).files.lookup (Layout.requestFileName id) =
      d.files.lookup (Layout.requestFileName id) := by
  simp only [Disk.put, AList.lookup_insert_ite]
  rw [if_neg fun heq => h (Layout.requestFileName_injective heq)]

theorem addLocked_untouched {r : Request} {opts : AddOptions} {fate : WriteFate β}
    {result : StorageResult ProcessedRequest} (hfresh : Fresh s r)
    (hid : ∃ st, s.requests.lookup id = some st)
    (h : addLocked codec fate s d r opts = .returned result s' d') : Untouched id s d s' d' := by
  simp only [addLocked] at h
  split at h
  · cases h
    exact .refl id s d
  · rename_i hd
    split at h
    · cases h
      exact .refl id s d
    · rename_i o s₁ ht
      have hreq := (takeOrder_requests ht).1
      have hne : id ≠ r.id := by
        rintro rfl
        obtain ⟨st, hst⟩ := hid
        rw [hfresh hd] at hst
        cases hst
      cases fate with
      | completes =>
        cases h
        refine ⟨?_, lookup_put _ hne⟩
        simp only [accept, AList.lookup_insert_ite, if_neg hne, hreq]
      | fails text residue =>
        cases h
        exact ⟨by rw [hreq], lookup_leave _ _ _ _⟩
      | crashesBefore residue => cases h
      | crashesAfter => cases h

theorem addBatch_untouched {requests : List Request} {opts : AddOptions} {fate : ℕ → WriteFate β}
    {processed : List ProcessedRequest} {result : StorageResult (List ProcessedRequest)}
    (hfresh : ∀ r ∈ requests, Fresh s r)
    (hids : ∀ r ∈ requests, ∀ q ∈ requests, q.id = r.id → q.uniqueKey = r.uniqueKey)
    (hid : ∃ st, s.requests.lookup id = some st)
    (h : addBatch codec fate opts s d processed requests = .returned result s' d') :
    Untouched id s d s' d' := by
  induction requests generalizing s d processed with
  | nil =>
    cases h
    exact .refl id _ _
  | cons r requests ih =>
    simp only [addBatch] at h
    cases hone : addLocked codec (fate processed.length) s d r opts with
    | returned result₁ s₁ d₁ =>
      have hfirst := addLocked_untouched (hfresh r List.mem_cons_self) hid hone
      rw [hone] at h
      cases result₁ with
      | error e =>
        cases h
        exact hfirst
      | ok info =>
        refine hfirst.trans (ih ?_ ?_ ?_ h)
        · intro q hq
          have hids := hids r List.mem_cons_self q (List.mem_cons_of_mem _ hq)
          exact (hfresh q (List.mem_cons_of_mem _ hq)).addLocked hids hone
        · intro q hq q' hq'
          exact hids q (List.mem_cons_of_mem _ hq) q' (List.mem_cons_of_mem _ hq')
        · rw [hfirst.1]
          exact hid
    | crashed d₁ =>
      rw [hone] at h
      cases h
    | panicked s₁ d₁ =>
      rw [hone] at h
      cases h

def NotLeased (id : RequestId) (s : QueueState) (lease : Lease) : Prop :=
  ∀ e, s.leases.lookup lease.leaseId ≠ some (id, e)

theorem requeue_untouched {lease : Lease} {forefront incrementRetry : Bool} {fate : WriteFate β}
    {result : StorageResult Unit} (hret : Returns P s lease) (hother : NotLeased id s lease)
    (h : requeue codec fate s d lease forefront incrementRetry = .returned result s' d') :
    Untouched id s d s' d' := by
  simp only [requeue, leaseRequestId] at h
  cases hl : s.leases.lookup lease.leaseId with
  | none =>
    simp only [hl] at h
    cases h
    exact .refl id s d
  | some entry =>
    obtain ⟨owner, e⟩ := entry
    simp only [hl] at h
    have howner := (hret owner e hl).1
    have hne : id ≠ (lease.request.reclaimed incrementRetry).id := by
      rw [Request.reclaimed_id, howner]
      rintro rfl
      exact hother e hl
    split at h
    · cases h
      exact .refl id s d
    · split at h
      · cases h
        exact .refl id s d
      · rename_i o s₁ ht
        have hreq := (takeOrder_requests ht).1
        cases fate with
        | completes =>
          cases h
          refine ⟨?_, lookup_put _ hne⟩
          rw [Request.reclaimed_id, howner] at hne
          simp only [replaceStoredRequest, AList.lookup_insert_ite, if_neg hne, hreq]
        | fails text residue =>
          cases h
          exact ⟨by rw [hreq], lookup_leave _ _ _ _⟩
        | crashesBefore residue => cases h
        | crashesAfter => cases h

theorem markHandled_untouched {lease : Lease} {fate : WriteFate β} {result : StorageResult Unit}
    (hret : Returns P s lease) (hother : NotLeased id s lease)
    (h : markHandled codec fate s d lease = .returned result s' d') : Untouched id s d s' d' := by
  simp only [markHandled, leaseRequestId] at h
  cases hl : s.leases.lookup lease.leaseId with
  | none =>
    simp only [hl] at h
    cases h
    exact .refl id s d
  | some entry =>
    obtain ⟨owner, e⟩ := entry
    simp only [hl] at h
    have howner := (hret owner e hl).1
    have hne : id ≠ lease.request.id := by
      rw [howner]
      rintro rfl
      exact hother e hl
    split at h
    · cases h
      exact .refl id s d
    · cases fate with
      | completes =>
        cases h
        refine ⟨?_, lookup_put _ hne⟩
        rw [howner] at hne
        simp only [replaceStoredRequest, AList.lookup_insert_ite, if_neg hne]
      | fails text residue =>
        cases h
        exact ⟨rfl, lookup_leave _ _ _ _⟩
      | crashesBefore residue => cases h
      | crashesAfter => cases h

theorem takeBack_requests (s : QueueState) (leaseId : LeaseId) :
    (takeBack s leaseId).requests = s.requests := by
  simp only [takeBack]
  split
  · rfl
  · split <;> rfl

theorem reclaimExpired_requests (s : QueueState) (now : Instant) :
    (reclaimExpired s now).requests = s.requests := by
  simp only [reclaimExpired]
  generalize expired s now = ids
  induction ids generalizing s with
  | nil => rfl
  | cons leaseId ids ih => rw [List.foldl_cons, ih, takeBack_requests]

theorem fetchNext_requests (s : QueueState) (now later : Instant) :
    (fetchNext s now later).2.requests = s.requests := by
  have hreclaim := reclaimExpired_requests s now
  simp only [fetchNext]
  split
  · exact hreclaim
  · split
    · exact hreclaim
    · split_ifs <;> exact hreclaim

theorem renew_requests (s : QueueState) (now : Instant) (leaseId : LeaseId)
    (extendBy : Duration) : (renew s now leaseId extendBy).2.requests = s.requests := by
  simp only [renew]
  split
  · rfl
  · split_ifs
    · exact takeBack_requests s leaseId
    · split <;> rfl

theorem returned_of_map {α γ : Type*} {out : Outcome β α} {f : α → γ} {result : StorageResult γ}
    (h : out.map f = .returned result s' d') : ∃ result₁, out = .returned result₁ s' d' := by
  cases out with
  | returned result₁ s₁ d₁ =>
    cases h
    exact ⟨result₁, rfl⟩
  | crashed d₁ => cases h
  | panicked s₁ d₁ => cases h

/-- A call that writes no file and leaves the stored requests as they are. -/
theorem unwritten_untouched {α γ : Type*} {r : Option (StorageResult α) × QueueState} {f : α → γ}
    {result : StorageResult γ} (hrequests : r.2.requests = s.requests)
    (h : (Outcome.unwritten d r).map f = .returned result s' d') : Untouched id s d s' d' := by
  obtain ⟨_ | result₁, s₁⟩ := r
  · cases h
  · cases h
    exact ⟨congrArg (AList.lookup id) hrequests, rfl⟩

/-- A call touches the request whose lease it gives back, and no other. -/
theorem call_untouched {env : Surroundings β} {op : QueueOp} {result : StorageResult QueueReply}
    (hop : Admissible P s op) (hid : ∃ st, s.requests.lookup id = some st)
    (hother : ∀ lease, op.returned = some lease → NotLeased id s lease)
    (h : call codec env s d op = .returned result s' d') : Untouched id s d s' d' := by
  cases op with
  | add r opts =>
    obtain ⟨result₁, h⟩ := returned_of_map h
    exact addLocked_untouched (hop.added r List.mem_cons_self).2 hid h
  | addBatch requests opts =>
    obtain ⟨result₁, h⟩ := returned_of_map h
    exact addBatch_untouched (fun r hr => (hop.added r hr).2) hop.ids hid h
  | fetchNext => exact unwritten_untouched (fetchNext_requests s env.now env.later) h
  | markHandled lease =>
    obtain ⟨result₁, h⟩ := returned_of_map h
    exact markHandled_untouched (hop.returned lease rfl) (hother lease rfl) h
  | reclaim lease opts =>
    obtain ⟨result₁, h⟩ := returned_of_map h
    exact requeue_untouched (hop.returned lease rfl) (hother lease rfl) h
  | abandon lease =>
    obtain ⟨result₁, h⟩ := returned_of_map h
    exact requeue_untouched (hop.returned lease rfl) (hother lease rfl) h
  | renew leaseId extendBy =>
    exact unwritten_untouched (renew_requests s env.now leaseId extendBy) h
  | isEmpty | isFinished | handledCount | pendingCount =>
    cases h
    exact .refl id s d

end Frame

/-- The requests added have the identifiers of their keys; a lease comes back with the
identifier it was granted for and whatever key. -/
def Rekeys (K : Set String) : Process β → Event β → Prop
  | .running s _, .call _ op =>
    (∀ r ∈ op.added, r.Identified ∧ r.uniqueKey ∈ K) ∧
      ∀ lease, op.returned = some lease → ∀ id e, s.leases.lookup lease.leaseId = some (id, e) →
        lease.request.id = id
  | _, _ => True

/-- Nobody adds a key that the queue has forgotten while its identifier is in use. -/
def NoKeyReturns : Process β → Event β → Prop
  | .running s _, .call _ op => ∀ r ∈ op.added, Fresh s r
  | _, _ => True

def KeysApart (s : QueueState) : Prop :=
  ∀ k id handled, s.dedup.lookup k = some (id, handled) →
    (∃ st, s.requests.lookup id = some st) ∧
      ∀ k' handled', s.dedup.lookup k' = some (id, handled') → k' = k

theorem Placed.keysApart {P : Request → Prop} {s : QueueState} (h : Placed P none s) :
    KeysApart s := by
  intro k id handled hd
  obtain ⟨st, hst, hk, -⟩ := h.dedup_stored k id handled hd
  refine ⟨⟨st, hst⟩, ?_⟩
  intro k' handled' hd'
  obtain ⟨st', hst', hk', -⟩ := h.dedup_stored k' id handled' hd'
  rw [hst] at hst'
  cases hst'
  exact hk'.symm.trans hk

theorem admissible_of_rekeys {K : Set String} (inj : Set.InjOn RequestId.fromUniqueKey K)
    {s : QueueState} {d : Disk β} {env : Surroundings β} {op : QueueOp}
    (hrekeys : Rekeys K (.running s d) (.call env op))
    (hkeys : NoKeyReturns (.running s d) (.call env op)) :
    Admissible (fun _ => True) s op := by
  obtain ⟨hadd, hret⟩ := hrekeys
  refine ⟨fun r hr => ⟨trivial, hkeys r hr⟩, ?_, fun lease hl id e hlease =>
    ⟨hret lease hl id e hlease, trivial⟩⟩
  intro r hr q hq hids
  obtain ⟨hid, hk⟩ := hadd r hr
  obtain ⟨hid', hk'⟩ := hadd q hq
  rw [hid, hid'] at hids
  exact inj hk' hk hids

section Runs
variable {codec : Codec β} {K : Set String}

abbrev Rekeying (K : Set String) (p : Process β) (e : Event β) : Prop :=
  Rekeys K p e ∧ NoKeyReturns p e ∧ e.survives

theorem run_rekeying (inj : Set.InjOn RequestId.fromUniqueKey K) {es : List (Event β)}
    (hb : es.length < u64Max)
    (legal : Machine.Along (Process.step codec) (Rekeying K) Process.start es) :
    ∃ s d, Process.run codec es = .running s d ∧ Kept codec (fun _ => True) es.length s d := by
  refine run_kept (fun _ _ _ => trivial) ?_ hb legal
  rintro n s d e - ⟨hrekeys, hkeys, hsurv⟩
  refine ⟨?_, hsurv⟩
  cases e with
  | call env op => exact admissible_of_rekeys inj hrekeys hkeys
  | crash => trivial
  | reopen => trivial

def Held (s : QueueState) (id : RequestId) : Prop :=
  (∃ o, s.pending.find o = some id) ∨ (∃ l e, s.leases.lookup l = some (id, e)) ∨
    ∃ k, s.dedup.lookup k = some (id, true)

theorem Placed.held {P : Request → Prop} {s : QueueState} (h : Placed P none s) {id : RequestId}
    {st : StoredRequest} (hst : s.requests.lookup id = some st) : Held s id := by
  cases ho : st.orderNo with
  | none =>
    have hd := h.stored_dedup id st hst
    rw [ho] at hd
    exact .inr (.inr ⟨_, hd⟩)
  | some o =>
    rcases h.placed id st o hst ho (by simp) with hp | ⟨l, e, hl⟩
    · exact .inl ⟨o, hp⟩
    · exact .inr (.inl ⟨l, e, hl⟩)

/-- A request that is stored stays stored: what was written is never undone. -/
theorem stored_stays {s₁ s : QueueState} {d₁ d : Disk β} {n₁ n : ℕ} {P : Request → Prop}
    (h₁ : Kept codec P n₁ s₁ d₁) (h : Kept codec P n s d) (es : List (Event β))
    (hrun : es.foldl (Process.step codec) (.running s₁ d₁) = .running s d) {id : RequestId}
    {st₁ : StoredRequest} (hst₁ : s₁.requests.lookup id = some st₁) :
    ∃ st, s.requests.lookup id = some st := by
  have hsuffix : d₁.history <:+ _ := Process.disk_run codec (.running s₁ d₁) es
  rw [hrun] at hsuffix
  replace hsuffix : d₁.history <:+ d.history := hsuffix
  have hwritten : (lastWrite d₁.history id).isSome := by
    rw [h₁.mirrors.last, hst₁]
    rfl
  have hlast := lastWrite_isSome_of_suffix hsuffix hwritten
  rw [h.mirrors.last, Option.isSome_map] at hlast
  exact Option.isSome_iff_exists.mp hlast

/-- As long as no forgotten key is added while its identifier is in use: different keys refer
to different stored requests, a call touches only the request whose lease it gives back, and
every request that was ever stored is pending, leased or handled. -/
theorem rekeying_safe (codec : Codec β) {K : Set String}
    (inj : Set.InjOn RequestId.fromUniqueKey K) (es : List (Event β))
    (hb : es.length < 2 ^ 64 - 1)
    (legal : Machine.Along (Process.step codec) (Rekeying K) Process.start es) :
    ∃ s d, Process.run codec es = .running s d ∧ KeysApart s ∧
      (∀ env op result s' d', Rekeying K (.running s d) (.call env op) →
        call codec env s d op = .returned result s' d' →
        ∀ id st, s.requests.lookup id = some st →
          (∀ lease, op.returned = some lease → NotLeased id s lease) →
          Untouched id s d s' d') ∧
      ∀ es₁ es₂ s₁ d₁ id st₁, es = es₁ ++ es₂ → Process.run codec es₁ = .running s₁ d₁ →
        s₁.requests.lookup id = some st₁ →
        ∃ st, s.requests.lookup id = some st ∧ Held s id := by
  obtain ⟨s, d, hrun, h⟩ := run_rekeying inj hb legal
  refine ⟨s, d, hrun, h.consistent.keysApart, ?_, ?_⟩
  · rintro env op result s' d' ⟨hrekeys, hkeys, -⟩ hcall id st hst hother
    exact call_untouched (admissible_of_rekeys inj hrekeys hkeys) ⟨st, hst⟩ hother hcall
  · rintro es₁ es₂ s₁ d₁ id st₁ rfl hrun₁ hst₁
    have hlegal₁ := (Machine.along_append.mp legal).1
    rw [List.length_append] at hb
    have hb₁ : es₁.length < u64Max := by
      simp only [u64Max]
      omega
    obtain ⟨s₀, d₀, hrun₀, h₁⟩ := run_rekeying inj hb₁ hlegal₁
    rw [hrun₁] at hrun₀
    cases hrun₀
    have hrest : es₂.foldl (Process.step codec) (.running s₁ d₁) = .running s d := by
      rw [← hrun₁, ← hrun, Process.run, Process.run, List.foldl_append]
    obtain ⟨st, hst⟩ := stored_stays h₁ h es₂ hrest hst₁
    exact ⟨st, hst, h.consistent.held hst⟩

end Runs

-- A lease comes back with another key. Adding a third key then is harmless; adding the
-- forgotten one is not.
def requestC : Request := Request.get ⟨"https://c.test/", some "c.test"⟩ "c"

def renamed : Lease := ⟨{ requestA with uniqueKey := "b" }, 0, leaseTtl⟩

def renamedRun : List (Event (Request × Option ℤ)) :=
  [.call (.calm 0) (.add requestA {}), .call (.calm 0) .fetchNext,
   .call (.calm 0) (.reclaim renamed {})]

theorem injOn_added : Set.InjOn RequestId.fromUniqueKey {"a", "c"} := by
  have hne : RequestId.fromUniqueKey "a" ≠ RequestId.fromUniqueKey "c" := by decide +kernel
  rintro k (rfl | rfl) k' (rfl | rfl) heq
  · rfl
  · exact absurd heq hne
  · exact absurd heq.symm hne
  · rfl

theorem renamedRun_rekeys : Machine.Along (Process.step plainCodec) (Rekeying {"a", "c"})
    Process.start renamedRun := by
  refine ⟨⟨⟨?_, ?_⟩, ?_, fun _ => rfl⟩, ⟨⟨?_, ?_⟩, ?_, fun _ => rfl⟩,
    ⟨⟨?_, ?_⟩, ?_, fun _ => rfl⟩, trivial⟩
  · intro r hr
    cases List.mem_singleton.mp hr
    exact ⟨rfl, .inl rfl⟩
  · intro lease hl
    cases hl
  · intro r hr _
    rfl
  · intro r hr
    cases hr
  · intro lease hl
    cases hl
  · intro r hr
    cases hr
  · intro r hr
    cases hr
  · intro lease hl id e hlease
    cases hl
    have hid : some (requestA.id, leaseTtl) = some (id, e) := hlease
    cases hid
    rfl
  · intro r hr
    cases hr

def Process.keys : Process β → List (String × RequestId × Bool)
  | .running s _ => s.dedup.entries.map fun e => (e.1, e.2)
  | _ => []

theorem rekeying_safe_renamedRun : ∃ s d,
    Process.run plainCodec (renamedRun ++ [.call (.calm 0) (.add requestC {})]) =
        .running s d ∧
      KeysApart s ∧
      (Process.running s d).keys = [("c", requestC.id, false), ("b", requestA.id, false)] := by
  have hlast : Machine.Along (Process.step plainCodec) (Rekeying {"a", "c"})
      (renamedRun.foldl (Process.step plainCodec) Process.start)
      [.call (.calm 0) (.add requestC {})] := by
    refine ⟨⟨⟨?_, ?_⟩, ?_, fun _ => rfl⟩, trivial⟩
    · intro r hr
      cases List.mem_singleton.mp hr
      exact ⟨rfl, .inr rfl⟩
    · intro lease hl
      cases hl
    · intro r hr _
      cases List.mem_singleton.mp hr
      decide +kernel
  obtain ⟨s, d, hrun, hapart, -⟩ := rekeying_safe plainCodec injOn_added _ (by decide)
    (Machine.along_append.mpr ⟨renamedRun_rekeys, hlast⟩)
  refine ⟨s, d, hrun, hapart, ?_⟩
  rw [← hrun]
  decide +kernel

/-- The forgotten key comes back: both keys name one request, and the record and the file of
the renamed request are overwritten. -/
theorem key_returns :
    Machine.Along (Process.step plainCodec) (fun p e => Rekeys {"a", "c"} p e ∧ e.survives)
        Process.start (renamedRun ++ [.call (.calm 0) (.add requestA {})]) ∧
      (Process.run plainCodec renamedRun).keys = [("b", requestA.id, false)] ∧
      ∃ s d, Process.run plainCodec (renamedRun ++ [.call (.calm 0) (.add requestA {})]) =
          .running s d ∧
        ¬ KeysApart s ∧
        (s.requests.lookup requestA.id).map (·.request.uniqueKey) = some "a" ∧
        (d.files.lookup (Layout.requestFileName requestA.id)).map (·.1.uniqueKey) =
          some "a" := by
  refine ⟨Machine.along_append.mpr ⟨?_, ?_⟩, by decide +kernel, _, _, rfl, ?_, ?_, ?_⟩
  · obtain ⟨hadd, hfetch, hreclaim, -⟩ := renamedRun_rekeys
    exact ⟨⟨hadd.1, hadd.2.2⟩, ⟨hfetch.1, hfetch.2.2⟩, ⟨hreclaim.1, hreclaim.2.2⟩, trivial⟩
  · refine ⟨⟨⟨?_, ?_⟩, fun _ => rfl⟩, trivial⟩
    · intro r hr
      cases List.mem_singleton.mp hr
      exact ⟨rfl, .inl rfl⟩
    · intro lease hl
      cases hl
  · intro happart
    have hkeys := (happart "a" requestA.id false rfl).2 "b" false rfl
    exact absurd hkeys (by decide)
  · decide +kernel
  · decide +kernel

end Millipede.FsQueue
