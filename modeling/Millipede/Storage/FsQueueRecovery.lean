import Millipede.Storage.FsQueueScan

/-!
# Crash recovery of the file-system queue

However the calls, crashes and restarts of the processes on one directory follow
each other, a scan finds every request as it was last written: the accepted ones
pending under their last order number, the handled ones settled for good.
-/

namespace Millipede.FsQueue
variable {β : Type*}

def Outcome.OnDisk {α : Type*} (P : Disk β → Prop) : Outcome β α → Prop
  | .returned _ _ d => P d
  | .crashed d => P d
  | .panicked _ d => P d

section History
variable (codec : Codec β) (s : QueueState) (d : Disk β)

theorem Outcome.OnDisk.map {α γ : Type*} {P : Disk β → Prop} {out : Outcome β α}
    (h : out.OnDisk P) (f : α → γ) : (out.map f).OnDisk P := by
  cases out <;> exact h

theorem Outcome.OnDisk.imp {α : Type*} {P Q : Disk β → Prop} {out : Outcome β α}
    (h : out.OnDisk P) (hpq : ∀ d, P d → Q d) : out.OnDisk Q := by
  cases out with
  | returned result s d => exact hpq d h
  | crashed d => exact hpq d h
  | panicked s d => exact hpq d h

theorem history_leave (destination : String) (residue : Option (UInt64 × β)) :
    (d.leave destination residue).history = d.history := by
  cases residue <;> rfl

theorem history_writeRequest {α : Type*} (fate : WriteFate β) (r : Request) (orderNo : Option ℤ)
    (a : α) (s' : QueueState) :
    Outcome.OnDisk (fun d' => d.history <:+ d'.history)
      (match writeRequest codec fate d r orderNo with
      | .error e d' => Outcome.returned (.error e) s d'
      | .crashed d' => .crashed d'
      | .ok d' => .returned (.ok a) s' d') := by
  cases fate with
  | completes => exact List.suffix_cons _ _
  | fails text residue => exact (history_leave d _ residue).symm ▸ List.suffix_rfl
  | crashesBefore residue => exact (history_leave d _ residue).symm ▸ List.suffix_rfl
  | crashesAfter => exact List.suffix_cons _ _

theorem history_addLocked (fate : WriteFate β) (r : Request) (opts : AddOptions) :
    (addLocked codec fate s d r opts).OnDisk fun d' => d.history <:+ d'.history := by
  simp only [addLocked]
  cases s.dedup.lookup r.uniqueKey with
  | some known => exact List.suffix_rfl
  | none =>
    cases s.takeOrder opts.forefront with
    | error e => exact List.suffix_rfl
    | ok taken => exact history_writeRequest codec taken.2 d fate r _ _ _

theorem history_addBatch (fate : ℕ → WriteFate β) (opts : AddOptions)
    (processed : List ProcessedRequest) (requests : List Request) :
    (addBatch codec fate opts s d processed requests).OnDisk
      fun d' => d.history <:+ d'.history := by
  induction requests generalizing s d processed with
  | nil => exact List.suffix_rfl
  | cons r requests ih =>
    have hr := history_addLocked codec s d (fate processed.length) r opts
    simp only [addBatch]
    cases ho : addLocked codec (fate processed.length) s d r opts with
    | returned result s' d' =>
      rw [ho] at hr
      cases result with
      | ok info => exact (ih s' d' (processed ++ [info])).imp fun _ hd => List.IsSuffix.trans hr hd
      | error e => exact hr
    | crashed d' =>
      rw [ho] at hr
      exact hr
    | panicked s' d' =>
      rw [ho] at hr
      exact hr

theorem history_requeue (fate : WriteFate β) (lease : Lease) (forefront incrementRetry : Bool) :
    (requeue codec fate s d lease forefront incrementRetry).OnDisk
      fun d' => d.history <:+ d'.history := by
  simp only [requeue]
  cases leaseRequestId s lease.leaseId with
  | error e => exact List.suffix_rfl
  | ok requestId =>
    simp only
    cases validateUniqueKey s requestId lease.request with
    | error e => exact List.suffix_rfl
    | ok _ =>
      cases s.takeOrder forefront with
      | error e => exact List.suffix_rfl
      | ok taken => exact history_writeRequest codec taken.2 d fate _ _ () _

theorem history_markHandled (fate : WriteFate β) (lease : Lease) :
    (markHandled codec fate s d lease).OnDisk fun d' => d.history <:+ d'.history := by
  simp only [markHandled]
  cases leaseRequestId s lease.leaseId with
  | error e => exact List.suffix_rfl
  | ok requestId =>
    simp only
    cases validateUniqueKey s requestId lease.request with
    | error e => exact List.suffix_rfl
    | ok _ => exact history_writeRequest codec s d fate _ _ () _

theorem history_unwritten {α : Type*} (r : Option (StorageResult α) × QueueState) :
    (Outcome.unwritten d r).OnDisk fun d' => d.history <:+ d'.history := by
  obtain ⟨_ | result, s⟩ := r <;> exact List.suffix_rfl

theorem history_call (env : Surroundings β) (op : QueueOp) :
    (call codec env s d op).OnDisk fun d' => d.history <:+ d'.history := by
  cases op with
  | add r opts => exact (history_addLocked codec s d _ r opts).map _
  | addBatch requests opts => exact (history_addBatch codec s d env.fate opts [] requests).map _
  | fetchNext => exact (history_unwritten d _).map _
  | markHandled lease => exact (history_markHandled codec s d _ lease).map _
  | reclaim lease opts => exact (history_requeue codec s d _ lease _ _).map _
  | abandon lease => exact (history_requeue codec s d _ lease _ _).map _
  | renew leaseId extendBy => exact (history_unwritten d _).map _
  | isEmpty => exact List.suffix_rfl
  | isFinished => exact List.suffix_rfl
  | handledCount => exact List.suffix_rfl
  | pendingCount => exact List.suffix_rfl

end History

theorem lastWrite_isSome_of_suffix {h h' : List (Request × Option ℤ)} (hs : h <:+ h')
    {id : RequestId} (hid : (lastWrite h id).isSome) : (lastWrite h' id).isSome := by
  simp only [lastWrite, List.find?_isSome] at hid ⊢
  obtain ⟨w, hw, he⟩ := hid
  exact ⟨w, hs.subset hw, he⟩

theorem addLocked_dedup {codec : Codec β} {fate : WriteFate β} {s s' : QueueState} {d d' : Disk β}
    {r : Request} {opts : AddOptions} {result : StorageResult ProcessedRequest}
    (h : addLocked codec fate s d r opts = .returned result s' d') :
    (∀ k v, s.dedup.lookup k = some v → s'.dedup.lookup k = some v) ∧
      ∀ info, result = .ok info →
        ∃ handled, s'.dedup.lookup info.uniqueKey = some (info.requestId, handled) := by
  simp only [addLocked] at h
  cases hd : s.dedup.lookup r.uniqueKey with
  | some known =>
    simp only [hd, Outcome.returned.injEq] at h
    obtain ⟨rfl, rfl, rfl⟩ := h
    refine ⟨fun k v hk => hk, ?_⟩
    intro info hinfo
    cases hinfo
    exact ⟨known.2, hd⟩
  | none =>
    cases ht : s.takeOrder opts.forefront with
    | error e =>
      simp only [hd, ht, Outcome.returned.injEq] at h
      obtain ⟨rfl, rfl, rfl⟩ := h
      exact ⟨fun k v hk => hk, fun info hinfo => (by cases hinfo)⟩
    | ok taken =>
      obtain ⟨o, s₁⟩ := taken
      have hsame := (takeOrder_requests ht).2.2.2.1
      simp only [hd, ht] at h
      cases hw : writeRequest codec fate d r (some o) with
      | ok d₁ =>
        simp only [hw, Outcome.returned.injEq] at h
        obtain ⟨rfl, rfl, rfl⟩ := h
        constructor
        · intro k v hk
          simp only [accept, AList.lookup_insert_ite, hsame]
          have hne : k ≠ r.uniqueKey := by
            intro he
            rw [he, hd] at hk
            cases hk
          rw [if_neg hne, hk]
        · intro info hinfo
          cases hinfo
          exact ⟨false, AList.lookup_insert _⟩
      | error e d₁ =>
        simp only [hw, Outcome.returned.injEq] at h
        obtain ⟨rfl, rfl, rfl⟩ := h
        refine ⟨?_, fun info hinfo => (by cases hinfo)⟩
        intro k v hk
        rw [hsame, hk]
      | crashed d₁ =>
        simp only [hw] at h
        cases h

theorem addBatch_dedup {codec : Codec β} {fate : ℕ → WriteFate β} {opts : AddOptions}
    {requests : List Request} {s s' : QueueState} {d d' : Disk β}
    {processed infos : List ProcessedRequest}
    (hp : ∀ info ∈ processed,
      ∃ handled, s.dedup.lookup info.uniqueKey = some (info.requestId, handled))
    (h : addBatch codec fate opts s d processed requests = .returned (.ok infos) s' d') :
    ∀ info ∈ infos, ∃ handled, s'.dedup.lookup info.uniqueKey = some (info.requestId, handled) := by
  induction requests generalizing s d processed with
  | nil =>
    simp only [addBatch, Outcome.returned.injEq, Except.ok.injEq] at h
    obtain ⟨rfl, rfl, rfl⟩ := h
    exact hp
  | cons r requests ih =>
    simp only [addBatch] at h
    cases ho : addLocked codec (fate processed.length) s d r opts with
    | returned result s₁ d₁ =>
      obtain ⟨hold, hnew⟩ := addLocked_dedup ho
      cases result with
      | ok info =>
        simp only [ho] at h
        apply ih _ h
        intro info' hinfo'
        rcases List.mem_append.mp hinfo' with hmem | hmem
        · obtain ⟨handled, hl⟩ := hp info' hmem
          exact ⟨handled, hold _ _ hl⟩
        · exact hnew info' (congrArg _ (List.mem_singleton.mp hmem).symm)
      | error e =>
        simp only [ho, Outcome.returned.injEq] at h
        cases h.1
    | crashed d₁ =>
      simp only [ho] at h
      cases h
    | panicked s₁ d₁ =>
      simp only [ho] at h
      cases h

theorem markHandled_written {codec : Codec β} {fate : WriteFate β} {s s' : QueueState}
    {d d' : Disk β} {lease : Lease}
    (h : markHandled codec fate s d lease = .returned (.ok ()) s' d') :
    (lease.request, none) ∈ d'.history := by
  simp only [markHandled] at h
  cases hl : leaseRequestId s lease.leaseId with
  | error e =>
    simp only [hl, Outcome.returned.injEq] at h
    cases h.1
  | ok requestId =>
    simp only [hl] at h
    cases hv : validateUniqueKey s requestId lease.request with
    | error e =>
      simp only [hv, Outcome.returned.injEq] at h
      cases h.1
    | ok _ =>
      simp only [hv] at h
      cases fate with
      | completes =>
        simp only [writeRequest, Outcome.returned.injEq] at h
        obtain ⟨-, -, rfl⟩ := h
        exact List.mem_cons_self
      | fails text residue =>
        simp only [writeRequest, Outcome.returned.injEq] at h
        cases h.1
      | crashesBefore residue =>
        simp only [writeRequest] at h
        cases h
      | crashesAfter =>
        simp only [writeRequest] at h
        cases h

def Process.disk : Process β → Disk β
  | .running _ d => d
  | .stopped d => d

/-- The queue that a scan of the directory `d` should find, in terms of the writes that
have happened. -/
structure Recovered (codec : Codec β) (d : Disk β) (s : QueueState) : Prop where
  requests : ∀ id, s.requests.lookup id =
    (lastWrite d.history id).map fun w => { request := w.1, orderNo := w.2 }
  pending : ∀ o id, s.pending.find o = some id ↔ ∃ r, lastWrite d.history id = some (r, some o)
  sorted : (s.pending.entries.map Prod.fst).Pairwise (· < ·)
  settled : ∀ r, (r, none) ∈ d.history →
    s.dedup.lookup r.uniqueKey = some (r.id, true) ∧ ∀ o, s.pending.find o ≠ some r.id
  dedup : ∀ k id handled, s.dedup.lookup k = some (id, handled) ↔
    ∃ r orderNo, lastWrite d.history id = some (r, orderNo) ∧ r.uniqueKey = k ∧
      handled = orderNo.isNone
  handledCount : s.handledCount = (decodedFiles codec d).countP fun e => e.2.1.isNone
  counters : ∀ o id, s.pending.find o = some id → s.nextForefrontOrder < o ∧ o < s.nextOrder
  leases : s.leases = ∅

section Recovery
variable {codec : Codec β} {P : Request → Prop} {K : Set String} {n : ℕ}

theorem Kept.recovered {s : QueueState} {d : Disk β} (h : Kept codec P n s d)
    (hs : Scanned (decodedFiles codec d) s) (hround : codec.RoundTrips) :
    Recovered codec d s := by
  have hreq : ∀ id, s.requests.lookup id =
      (lastWrite d.history id).map fun w => { request := w.1, orderNo := w.2 } := by
    intro id
    rw [h.mirrors.last id]
    cases s.requests.lookup id <;> rfl
  have hlast : ∀ id r orderNo, lastWrite d.history id = some (r, orderNo) ↔
      s.requests.lookup id = some { request := r, orderNo } := by
    intro id r orderNo
    rw [h.mirrors.last id]
    cases s.requests.lookup id with
    | none => simp
    | some st =>
      obtain ⟨r', orderNo'⟩ := st
      simp
  refine ⟨hreq, ?_, ?_, ?_, ?_, ?_, ?_, hs.leases⟩
  · intro o id
    constructor
    · intro hp
      obtain ⟨-, st, hst, ho⟩ := h.consistent.pending_stored o id hp
      obtain ⟨r, orderNo⟩ := st
      exact ⟨r, (hlast id r _).mpr (by rw [hst]; exact congrArg _ (congrArg _ ho))⟩
    · intro hw
      obtain ⟨r, hw⟩ := hw
      have hst := (hlast id r _).mp hw
      obtain hp | hleased := h.consistent.placed id _ o hst rfl (by simp)
      · exact hp
      · obtain ⟨l, e, hl⟩ := hleased
        rw [hs.leases] at hl
        cases hl
  · exact List.pairwise_map.mpr s.pending.sorted
  · intro r hr
    have hst := h.mirrors.settled r hr
    refine ⟨h.consistent.stored_dedup r.id _ hst, ?_⟩
    intro o hp
    obtain ⟨-, st, hst', ho⟩ := h.consistent.pending_stored o r.id hp
    rw [hst] at hst'
    cases hst'
    cases ho
  · intro k id handled
    constructor
    · intro hd
      obtain ⟨st, hst, hk, hh⟩ := h.consistent.dedup_stored k id handled hd
      exact ⟨st.request, st.orderNo, (hlast id _ _).mpr hst, hk, hh⟩
    · intro hw
      obtain ⟨r, orderNo, hw, rfl, rfl⟩ := hw
      exact h.consistent.stored_dedup id _ ((hlast id r orderNo).mp hw)
  · rw [h.bounded.handled_eq]
    exact (hs.handledStored_eq h hround).2
  · intro o id hp
    obtain ⟨-, st, hst, ho⟩ := h.consistent.pending_stored o id hp
    exact h.consistent.order_bounds id st o hst ho

abbrev Process.Good (codec : Codec β) (K : Set String) (n : ℕ) (p : Process β) : Prop :=
  p.Kept codec (Identifies K) n

theorem Process.kept_start : Process.Kept codec P 0 Process.start := kept_empty codec P

theorem Process.Kept.step (hstable : ∀ r b, P r → P (r.reclaimed b)) (hround : codec.RoundTrips)
    {p : Process β} {e : Event β} (h : p.Kept codec P n) (hallowed : Allowed P p e)
    (hn : n < u64Max) : (p.step codec e).Kept codec P (n + 1) := by
  cases p with
  | running s d =>
    have hsucc := FsQueue.Kept.mono h (Nat.le_succ n)
    cases e with
    | crash => exact ⟨s, hsucc⟩
    | reopen => exact hsucc
    | call env op => exact FsQueue.Kept.step_call h hn hstable env hallowed
  | stopped d =>
    obtain ⟨s, hg⟩ := h
    have hsucc := hg.mono (Nat.le_succ n)
    cases e with
    | crash => exact ⟨s, hsucc⟩
    | call env op => exact ⟨s, hsucc⟩
    | reopen =>
      obtain ⟨s', hscan, hg', -⟩ := scanQueue_kept hsucc hround (by omega)
      simp only [Process.step, hscan]
      exact hg'

/-- A run keeps what each of its steps keeps; `Q` is what is known of the steps. -/
theorem Process.Kept.run {Q : Process β → Event β → Prop}
    (hstable : ∀ r b, P r → P (r.reclaimed b)) (hround : codec.RoundTrips)
    (hallowed : ∀ m p e, Process.Kept codec P m p → Q p e → Allowed P p e) {p : Process β}
    {es : List (Event β)} (h : p.Kept codec P n)
    (along : Machine.Along (Process.step codec) Q p es) (hn : n + es.length < u64Max) :
    (es.foldl (Process.step codec) p).Kept codec P (n + es.length) := by
  have keep : ∀ m p e, Process.Kept codec P m p → Q p e → m + 1 ≤ n + es.length →
      Process.Kept codec P (m + 1) (Process.step codec p e) := by
    intro m p e hp hq hm
    exact Process.Kept.step hstable hround hp (hallowed m p e hp hq) (by omega)
  have hinv := Machine.foldl_invariant (fun _ => 1) (Process.Kept codec P) keep h along (by simp)
  simpa using hinv

theorem Process.Good.allowed (inj : Set.InjOn RequestId.fromUniqueKey K) {p : Process β}
    {e : Event β} (h : p.Good codec K n) (legal : Legal K p e) : Allowed (Identifies K) p e := by
  cases p with
  | running s d =>
    cases e with
    | call env op => exact admissible_of_legal inj h legal
    | crash => trivial
    | reopen => trivial
  | stopped d => trivial

theorem Process.Good.step (inj : Set.InjOn RequestId.fromUniqueKey K) (hround : codec.RoundTrips)
    {p : Process β} {e : Event β} (h : p.Good codec K n) (legal : Legal K p e) (hn : n < u64Max) :
    (p.step codec e).Good codec K (n + 1) :=
  Process.Kept.step Identifies.reclaimed hround h (h.allowed inj legal) hn

theorem Process.Good.run (inj : Set.InjOn RequestId.fromUniqueKey K) (hround : codec.RoundTrips)
    {p : Process β} {es : List (Event β)} (h : p.Good codec K n)
    (legal : Machine.Along (Process.step codec) (Legal K) p es) (hn : n + es.length < u64Max) :
    (es.foldl (Process.step codec) p).Good codec K (n + es.length) :=
  Process.Kept.run Identifies.reclaimed hround (fun _ _ _ => Process.Good.allowed inj) h legal hn

theorem Process.disk_step (codec : Codec β) (p : Process β) (e : Event β) :
    p.disk.history <:+ (p.step codec e).disk.history := by
  cases p with
  | running s d =>
    cases e with
    | crash | reopen => exact List.suffix_rfl
    | call env op =>
      have hcall := history_call codec s d env op
      simp only [Process.step]
      cases hout : FsQueue.call codec env s d op with
      | returned result s' d' | crashed d' | panicked s' d' =>
        rw [hout] at hcall
        exact hcall
  | stopped d =>
    cases e with
    | crash | call env op => exact List.suffix_rfl
    | reopen =>
      simp only [Process.step]
      cases scanQueue codec d with
      | ok s => exact List.suffix_rfl
      | error e => exact List.suffix_rfl

theorem Process.disk_run (codec : Codec β) (p : Process β) (es : List (Event β)) :
    p.disk.history <:+ (es.foldl (Process.step codec) p).disk.history := by
  induction es generalizing p with
  | nil => exact List.suffix_rfl
  | cons e es ih => exact (Process.disk_step codec p e).trans (ih (p.step codec e))

theorem Outcome.map_eq_ok {α γ : Type*} {out : Outcome β α} {f : α → γ} {b : γ}
    {s : QueueState} {d : Disk β} (h : out.map f = .returned (.ok b) s d) :
    ∃ a, out = .returned (.ok a) s d ∧ f a = b := by
  cases out with
  | returned result s' d' =>
    cases result with
    | ok a =>
      cases h
      exact ⟨a, rfl, rfl⟩
    | error e => cases h
  | crashed d' => cases h
  | panicked s' d' => cases h

theorem call_dedup {env : Surroundings β} {op : QueueOp} {s s' : QueueState} {d d' : Disk β}
    {reply : QueueReply} (h : call codec env s d op = .returned (.ok reply) s' d') :
    ∀ info ∈ reply.processed,
      ∃ handled, s'.dedup.lookup info.uniqueKey = some (info.requestId, handled) := by
  intro info hinfo
  cases op with
  | add r opts =>
    obtain ⟨known, ho, rfl⟩ := Outcome.map_eq_ok h
    cases List.mem_singleton.mp hinfo
    exact (addLocked_dedup ho).2 _ rfl
  | addBatch requests opts =>
    obtain ⟨infos, ho, rfl⟩ := Outcome.map_eq_ok h
    exact addBatch_dedup (by simp) ho info hinfo
  | fetchNext =>
    obtain ⟨_, -, rfl⟩ := Outcome.map_eq_ok h
    cases hinfo
  | renew leaseId extendBy =>
    obtain ⟨_, -, rfl⟩ := Outcome.map_eq_ok h
    cases hinfo
  | markHandled lease =>
    obtain ⟨_, -, rfl⟩ := Outcome.map_eq_ok h
    cases hinfo
  | reclaim lease opts =>
    obtain ⟨_, -, rfl⟩ := Outcome.map_eq_ok h
    cases hinfo
  | abandon lease =>
    obtain ⟨_, -, rfl⟩ := Outcome.map_eq_ok h
    cases hinfo
  | isEmpty =>
    cases h
    cases hinfo
  | isFinished =>
    cases h
    cases hinfo
  | handledCount =>
    cases h
    cases hinfo
  | pendingCount =>
    cases h
    cases hinfo

/-- What a successful call has added or handled is in the files from then on. -/
def Lasting (codec : Codec β) (es : List (Event β)) (d : Disk β) : Prop :=
  ∀ es₁ env op es₂ s₁ d₁ reply s₂ d₂, es = es₁ ++ .call env op :: es₂ →
    Process.run codec es₁ = .running s₁ d₁ →
    call codec env s₁ d₁ op = .returned (.ok reply) s₂ d₂ →
    (∀ info ∈ reply.processed, ∃ r orderNo,
      lastWrite d.history info.requestId = some (r, orderNo) ∧ r.uniqueKey = info.uniqueKey) ∧
    ∀ lease, op = .markHandled lease → (lease.request, none) ∈ d.history

theorem run_lasting (inj : Set.InjOn RequestId.fromUniqueKey K) (hround : codec.RoundTrips)
    {es : List (Event β)} (hn : es.length < u64Max)
    (legal : Machine.Along (Process.step codec) (Legal K) Process.start es) {s : QueueState}
    {d : Disk β} (hg : Good codec K n s d) (hd : (Process.run codec es).disk = d) :
    Lasting codec es d := by
  intro es₁ env op es₂ s₁ d₁ reply s₂ d₂ hes hrun hcall
  subst hes
  obtain ⟨legal₁, hop, -⟩ := Machine.along_append.mp legal
  rw [List.length_append, List.length_cons] at hn
  have hg₁ := Process.Good.run inj hround Process.kept_start legal₁ (by omega)
  simp only [Process.run] at hrun
  rw [hrun] at hg₁ hop
  have hg₂ := Process.Good.step inj hround hg₁ hop (by omega)
  simp only [Process.step, hcall] at hg₂
  have hstep : Process.run codec (es₁ ++ .call env op :: es₂) =
      es₂.foldl (Process.step codec) (.running s₂ d₂) := by
    rw [Process.run, List.foldl_append, hrun, List.foldl_cons]
    simp only [Process.step, hcall]
  have hsuffix : d₂.history <:+ _ := Process.disk_run codec (.running s₂ d₂) es₂
  rw [← hstep, hd] at hsuffix
  constructor
  · intro info hinfo
    obtain ⟨handled, hknown⟩ := call_dedup hcall info hinfo
    obtain ⟨st, hst, hkey, -⟩ := hg₂.consistent.dedup_stored _ _ _ hknown
    have hlast := hg₂.mirrors.last info.requestId
    rw [hst] at hlast
    have hsome := lastWrite_isSome_of_suffix hsuffix (by rw [hlast]; rfl)
    rw [hg.mirrors.last] at hsome ⊢
    cases hst' : s.requests.lookup info.requestId with
    | none =>
      rw [hst'] at hsome
      cases hsome
    | some st' =>
      refine ⟨st'.request, st'.orderNo, rfl, ?_⟩
      obtain ⟨hid, hident, hk⟩ := hg₂.consistent.stored _ st hst
      obtain ⟨hid', hident', hk'⟩ := hg.consistent.stored _ st' hst'
      rw [← hkey]
      apply inj hk' hk
      rw [← hident, ← hident', hid, hid']
  · intro lease hop
    subst hop
    obtain ⟨_, ho, -⟩ := Outcome.map_eq_ok hcall
    exact hsuffix.subset (markHandled_written ho)

end Recovery

theorem crash_recovery (codec : Codec β) (hround : codec.RoundTrips) {K : Set String}
    (inj : Set.InjOn RequestId.fromUniqueKey K) (es : List (Event β)) (hb : es.length < 2 ^ 63)
    (legal : Machine.Along (Process.step codec) (Legal K) Process.start es) :
    ∃ d s, (Process.run codec es).disk = d ∧ scanQueue codec d = .ok s ∧
      Recovered codec d s ∧ Lasting codec es d := by
  have hn : es.length < u64Max := by
    simp only [u64Max]
    omega
  have hgood := Process.Good.run inj hround Process.kept_start legal (by omega)
  have hdisk : ∃ d s, (Process.run codec es).disk = d ∧ Good codec K (0 + es.length) s d := by
    simp only [Process.run]
    cases hp : es.foldl (Process.step codec) Process.start with
    | running s d =>
      rw [hp] at hgood
      exact ⟨d, s, rfl, hgood⟩
    | stopped d =>
      rw [hp] at hgood
      obtain ⟨s, hs⟩ := hgood
      exact ⟨d, s, rfl, hs⟩
  obtain ⟨d, s, hd, hg⟩ := hdisk
  obtain ⟨s', hscan, hg', hs'⟩ := scanQueue_kept hg hround (by omega)
  exact ⟨d, s', hd, hscan, hg'.recovered hs' hround, run_lasting inj hround hn legal hg hd⟩

def crashingRun : List (Event (Request × Option ℤ)) :=
  [.call (.calm 0) (.add requestA {}), .call (.calm 0) .fetchNext, .crash, .reopen,
   .call (.calm 0) .fetchNext,
   .call ⟨0, 0, fun _ => .crashesAfter⟩ (.reclaim ⟨requestA, 0, leaseTtl⟩ {})]

theorem crash_recovery_crashingRun :
    ∃ d s, (Process.run plainCodec crashingRun).disk = d ∧ scanQueue plainCodec d = .ok s ∧
      Recovered plainCodec d s ∧ Lasting plainCodec crashingRun d := by
  apply crash_recovery plainCodec (fun _ _ => rfl) (Set.injOn_singleton _ "a") crashingRun
    (by decide)
  refine ⟨?_, ?_, trivial, trivial, ?_, ⟨?_, ?_⟩, trivial⟩
  · refine legal_call _ _ ?_ rfl
    intro r hr
    cases List.mem_singleton.mp hr
    exact ⟨rfl, rfl⟩
  · exact legal_call _ _ (by simp [QueueOp.added]) rfl
  · exact legal_call _ _ (by simp [QueueOp.added]) rfl
  · simp [QueueOp.added]
  · intro lease h id e st hl hst
    cases h
    have hid : some (requestA.id, leaseTtl) = some (id, e) := hl
    cases hid
    have hreq : some (⟨requestA, some 1⟩ : StoredRequest) = some st := hst
    cases hreq
    exact ⟨rfl, rfl⟩

end Millipede.FsQueue
