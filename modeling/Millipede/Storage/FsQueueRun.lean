import Millipede.Storage.FsQueueInvariant

/-!
# Runs of the file-system request queue

A process calls the queue, may die at any moment, also in the middle of a write,
and may be started again on the same directory. Every operation keeps the queue
consistent and mirrored by its directory; a crash leaves a directory that mirrors
some consistent queue.
-/

namespace Millipede.FsQueue
variable {β : Type*}

structure Kept (codec : Codec β) (P : Request → Prop) (n : ℕ) (s : QueueState) (d : Disk β) :
    Prop where
  consistent : Placed P none s
  bounded : Bounded n s
  mirrors : Mirrors codec s.requests d

abbrev Good (codec : Codec β) (K : Set String) : ℕ → QueueState → Disk β → Prop :=
  Kept codec (Identifies K)

def Outcome.Kept {α : Type*} (codec : Codec β) (P : Request → Prop) (n : ℕ) : Outcome β α → Prop
  | .returned _ s d => FsQueue.Kept codec P n s d
  | .crashed d => ∃ s, FsQueue.Kept codec P n s d
  | .panicked _ _ => False

abbrev Outcome.Good {α : Type*} (codec : Codec β) (K : Set String) (n : ℕ) (out : Outcome β α) :
    Prop := out.Kept codec (Identifies K) n

/-- A lease given back names the request it was granted for. -/
def Unchanged (s : QueueState) (lease : Lease) : Prop :=
  ∀ id e st, s.leases.lookup lease.leaseId = some (id, e) → s.requests.lookup id = some st →
    lease.request.id = id ∧ lease.request.uniqueKey = st.request.uniqueKey

section Operations
variable {codec : Codec β} {P : Request → Prop} {K : Set String} {n : ℕ} {s : QueueState}
  {d : Disk β}

theorem Kept.mono {m : ℕ} (h : Kept codec P n s d) (hnm : n ≤ m) : Kept codec P m s d :=
  { h with bounded := h.bounded.mono hnm }

theorem Outcome.Kept.mono {α : Type*} {m : ℕ} {out : Outcome β α} (h : out.Kept codec P n)
    (hnm : n ≤ m) : out.Kept codec P m := by
  cases out with
  | returned result s d => exact FsQueue.Kept.mono h hnm
  | crashed d =>
    obtain ⟨s, hs⟩ := h
    exact ⟨s, hs.mono hnm⟩
  | panicked s d => exact h

theorem Outcome.Kept.map {α γ : Type*} {out : Outcome β α} (h : out.Kept codec P n)
    (f : α → γ) : (out.map f).Kept codec P n := by
  cases out with
  | returned result s d => exact h
  | crashed d => exact h
  | panicked s d => exact h

theorem kept_empty (codec : Codec β) (P : Request → Prop) :
    Kept codec P 0 QueueState.empty Disk.empty :=
  ⟨placed_empty P, bounded_empty, mirrors_empty⟩

theorem Kept.takeOrder (h : Kept codec P n s d) {forefront : Bool} {o : ℤ} {s' : QueueState}
    (ht : s.takeOrder forefront = .ok (o, s')) : Kept codec P n s' d ∧ FreshOrder s' o := by
  obtain ⟨hc, hf⟩ := h.consistent.takeOrder ht
  refine ⟨⟨hc, h.bounded.takeOrder ht, ?_⟩, hf⟩
  rw [(takeOrder_requests ht).1]
  exact h.mirrors

theorem Kept.write {α : Type*} {m : ℕ} {s' : QueueState} {r : Request} {orderNo : Option ℤ}
    (h : Kept codec P n s d) (hnm : n ≤ m) (hc : Placed P none s') (hb : Bounded m s')
    (hreq : s'.requests = s.requests.insert r.id { request := r, orderNo })
    (hlive : ∀ st, s.requests.lookup r.id = some st → st.orderNo ≠ none) (fate : WriteFate β)
    (a : α) :
    Outcome.Kept codec P m
      (match writeRequest codec fate d r orderNo with
      | .error e d' => .returned (.error e) s d'
      | .crashed d' => .crashed d'
      | .ok d' => .returned (.ok a) s' d') := by
  have hput : Kept codec P m s' (d.put codec r orderNo) := by
    refine ⟨hc, hb, ?_⟩
    rw [hreq]
    exact h.mirrors.put r orderNo hlive
  have hleave : ∀ residue, Kept codec P m s (d.leave (Layout.requestFileName r.id) residue) :=
    fun residue => { h.mono hnm with mirrors := h.mirrors.leave _ residue }
  cases fate with
  | completes => exact hput
  | fails text residue => exact hleave residue
  | crashesBefore residue => exact ⟨s, hleave residue⟩
  | crashesAfter => exact ⟨s', hput⟩

def Fresh (s : QueueState) (r : Request) : Prop :=
  s.dedup.lookup r.uniqueKey = none → s.requests.lookup r.id = none

theorem addLocked_kept (h : Kept codec P n s d) {r : Request} (hP : P r) (hfresh : Fresh s r)
    (opts : AddOptions) (fate : WriteFate β) :
    (addLocked codec fate s d r opts).Kept codec P n := by
  simp only [addLocked]
  cases hd : s.dedup.lookup r.uniqueKey with
  | some known => exact h
  | none =>
    cases ht : s.takeOrder opts.forefront with
    | error e => exact h
    | ok taken =>
      obtain ⟨o, s'⟩ := taken
      obtain ⟨h', hf⟩ := h.takeOrder ht
      obtain ⟨hreq, -, -, hdedup, -⟩ := takeOrder_requests ht
      have hd' : s'.dedup.lookup r.uniqueKey = none := by rw [hdedup, hd]
      have hno : s'.requests.lookup r.id = none := by rw [hreq, hfresh hd]
      have hlive : ∀ st, s'.requests.lookup r.id = some st → st.orderNo ≠ none := by
        intro st hst
        rw [hno] at hst
        cases hst
      have hb : Bounded n (accept s' r o) := { h'.bounded.store r o hlive with }
      exact h'.write le_rfl (h'.consistent.accept hP hno hd' hf) hb rfl hlive fate _

theorem Fresh.addLocked {r q : Request} {opts : AddOptions} {fate : WriteFate β}
    {info : ProcessedRequest} {s' : QueueState} {d' : Disk β} (hq : Fresh s q)
    (hid : q.id = r.id → q.uniqueKey = r.uniqueKey)
    (h : addLocked codec fate s d r opts = .returned (.ok info) s' d') : Fresh s' q := by
  simp only [FsQueue.addLocked] at h
  split at h
  · cases h
    exact hq
  · split at h
    · cases h
    · rename_i hd o s₁ ht
      obtain ⟨hreq, -, -, hdedup, -⟩ := takeOrder_requests ht
      split at h
      · cases h
      · cases h
      · cases h
        intro hnone
        simp only [accept, hdedup, hreq, AList.lookup_insert_ite] at hnone ⊢
        split_ifs at hnone with hkey
        rw [if_neg fun heq => hkey (hid heq)]
        exact hq hnone

theorem addBatch_kept (h : Kept codec P n s d) {requests : List Request}
    (hadd : ∀ r ∈ requests, P r ∧ Fresh s r)
    (hids : ∀ r ∈ requests, ∀ q ∈ requests, q.id = r.id → q.uniqueKey = r.uniqueKey)
    (opts : AddOptions) (fate : ℕ → WriteFate β) (processed : List ProcessedRequest) :
    (addBatch codec fate opts s d processed requests).Kept codec P n := by
  induction requests generalizing s d processed with
  | nil => exact h
  | cons r requests ih =>
    obtain ⟨hP, hfresh⟩ := hadd r List.mem_cons_self
    have hr := addLocked_kept h hP hfresh opts (fate processed.length)
    simp only [addBatch]
    cases ho : addLocked codec (fate processed.length) s d r opts with
    | returned result s' d' =>
      rw [ho] at hr
      cases result with
      | ok info =>
        refine ih hr ?_ ?_ _
        · intro q hq
          obtain ⟨hPq, hfq⟩ := hadd q (List.mem_cons_of_mem _ hq)
          have hid := hids r List.mem_cons_self q (List.mem_cons_of_mem _ hq)
          exact ⟨hPq, hfq.addLocked hid ho⟩
        · intro q hq q' hq'
          exact hids q (List.mem_cons_of_mem _ hq) q' (List.mem_cons_of_mem _ hq')
      | error e => exact hr
    | crashed d' =>
      rw [ho] at hr
      exact hr
    | panicked s' d' =>
      rw [ho] at hr
      exact hr

/-- A lease comes back with the identifier it was granted for, and whatever is asked of its
request. -/
def Returns (P : Request → Prop) (s : QueueState) (lease : Lease) : Prop :=
  ∀ id e, s.leases.lookup lease.leaseId = some (id, e) →
    lease.request.id = id ∧ P lease.request

theorem owned_of_valid {r : Request} (h : validateUniqueKey s r.id r = .ok ()) : Owned s r := by
  intro id handled hd
  simp only [validateUniqueKey, hd] at h
  split_ifs at h with hid
  exact not_not.mp hid

theorem requeue_kept (h : Kept codec P n s d) (hstable : ∀ r b, P r → P (r.reclaimed b))
    {lease : Lease} (hret : Returns P s lease) (forefront incrementRetry : Bool)
    (fate : WriteFate β) :
    (requeue codec fate s d lease forefront incrementRetry).Kept codec P n := by
  simp only [requeue, leaseRequestId]
  cases hl : s.leases.lookup lease.leaseId with
  | none => exact h
  | some entry =>
    obtain ⟨id, e⟩ := entry
    obtain ⟨hid, hP⟩ := hret id e hl
    obtain ⟨-, -, st, o₀, hst, ho₀, -⟩ := h.consistent.leased_stored _ _ _ hl
    simp only
    cases hvalid : validateUniqueKey s id lease.request with
    | error e => exact h
    | ok _ =>
      cases ht : s.takeOrder forefront with
      | error e => exact h
      | ok taken =>
        obtain ⟨o, s'⟩ := taken
        obtain ⟨h', hf⟩ := h.takeOrder ht
        obtain ⟨hreq, hleases, -, hdedup, -⟩ := takeOrder_requests ht
        rw [← hreq] at hst
        rw [← hleases] at hl
        subst hid
        have hown := owned_of_valid hvalid
        generalize hr : lease.request.reclaimed incrementRetry = r
        have hrid : r.id = lease.request.id := by rw [← hr, Request.reclaimed_id]
        have hrkey : r.uniqueKey = lease.request.uniqueKey := by
          rw [← hr, Request.reclaimed_uniqueKey]
        rw [← hrid] at hl hst
        have hlive : ∀ st', s'.requests.lookup r.id = some st' → st'.orderNo ≠ none := by
          intro st' hst'
          rw [hst] at hst'
          cases hst'
          simp [ho₀]
        have hown' : Owned { s' with leases := s'.leases.erase lease.leaseId } r := by
          intro id' handled hd
          rw [hrkey, hdedup] at hd
          exact (hown id' handled hd).trans hrid.symm
        have hqueue := (h'.consistent.release hl).queue (hr ▸ hstable _ _ hP) hown' (o := o) hf
        simp only [← hrid]
        refine h'.write le_rfl hqueue ?_ rfl hlive fate ()
        exact { h'.bounded.store r o hlive with }

theorem markHandled_kept (h : Kept codec P n s d) {lease : Lease} (hret : Returns P s lease)
    (hn : n < u64Max) (fate : WriteFate β) :
    (markHandled codec fate s d lease).Kept codec P (n + 1) := by
  have hsucc := h.mono (Nat.le_succ n)
  simp only [markHandled, leaseRequestId]
  cases hl : s.leases.lookup lease.leaseId with
  | none => exact hsucc
  | some entry =>
    obtain ⟨id, e⟩ := entry
    obtain ⟨hid, hP⟩ := hret id e hl
    obtain ⟨-, -, st, o₀, hst, ho₀, -⟩ := h.consistent.leased_stored _ _ _ hl
    simp only
    cases hvalid : validateUniqueKey s id lease.request with
    | error e => exact hsucc
    | ok _ =>
      subst hid
      have hlive : ∀ st', s.requests.lookup lease.request.id = some st' → st'.orderNo ≠ none := by
        intro st' hst'
        rw [hst] at hst'
        cases hst'
        simp [ho₀]
      have hset := (h.consistent.release hl).settle hP (owned_of_valid hvalid)
        (min (s.handledCount + 1) u64Max)
      refine h.write (Nat.le_succ n) hset ?_ rfl hlive fate ()
      exact { h.bounded.settle lease.request hst ho₀ hn with }

theorem takeBack_kept (h : Kept codec P n s d) (leaseId : LeaseId) :
    Kept codec P n (takeBack s leaseId) d := by
  simp only [takeBack]
  cases hl : s.leases.lookup leaseId with
  | none => exact h
  | some entry =>
    obtain ⟨id, e⟩ := entry
    obtain ⟨-, -, st, o, hst, ho, -⟩ := h.consistent.leased_stored leaseId id e hl
    simp only [hst, Option.bind_some, ho]
    exact ⟨(h.consistent.release hl).putBack hst ho, { h.bounded with }, h.mirrors⟩

theorem reclaimExpired_kept (h : Kept codec P n s d) (now : Instant) :
    Kept codec P n (reclaimExpired s now) d := by
  simp only [reclaimExpired]
  generalize expired s now = ids
  induction ids generalizing s with
  | nil => exact h
  | cons id ids ih => exact ih (takeBack_kept h id)

theorem fetchNext_kept (h : Kept codec P n s d) (hn : n < u64Max) (now later : Instant) :
    ∃ result s', fetchNext s now later = (some result, s') ∧ Kept codec P (n + 1) s' d := by
  have hr := reclaimExpired_kept h now
  simp only [fetchNext]
  cases hp : (reclaimExpired s now).pending.popFirst with
  | none => exact ⟨_, _, rfl, hr.mono (Nat.le_succ n)⟩
  | some popped =>
    obtain ⟨⟨o, id⟩, rest⟩ := popped
    obtain ⟨-, st, hst, ho⟩ := hr.consistent.pending_stored o id (OrderedMap.find_of_popFirst hp)
    have hlease := hr.bounded.lease
    have hfree : (reclaimExpired s now).nextLeaseId + 1 ≤ u64Max := by omega
    simp only [hst, if_pos hfree]
    refine ⟨_, _, rfl, (hr.consistent.pop hp).grant hst ho _, ?_, hr.mirrors⟩
    exact { hr.bounded.mono (Nat.le_succ n) with lease := Nat.succ_le_succ hlease }

/-- A renewal leaves a lease that has not expired a deadline that is an `Instant`. -/
def Representable (s : QueueState) (now : Instant) (op : QueueOp) : Prop :=
  ∀ leaseId extendBy requestId expiresAt, op = .renew leaseId extendBy →
    s.leases.lookup leaseId = some (requestId, expiresAt) → now < expiresAt →
    expiresAt + extendBy ≤ lastInstant

theorem representable_of_ne {now : Instant} {op : QueueOp}
    (h : ∀ leaseId extendBy, op ≠ .renew leaseId extendBy) : Representable s now op :=
  fun leaseId extendBy _ _ hop => absurd hop (h leaseId extendBy)

theorem renew_kept (h : Kept codec P n s d) {now : Instant} {leaseId : LeaseId}
    {extendBy : Duration} (hrepresentable : Representable s now (.renew leaseId extendBy)) :
    ∃ result s', renew s now leaseId extendBy = (some result, s') ∧ Kept codec P n s' d := by
  simp only [renew]
  cases hl : s.leases.lookup leaseId with
  | none => exact ⟨_, _, rfl, h⟩
  | some entry =>
    obtain ⟨id, e⟩ := entry
    simp only
    split_ifs with hle
    · exact ⟨_, _, rfl, takeBack_kept h leaseId⟩
    · have hextended := hrepresentable _ _ id e rfl hl (Nat.lt_of_not_le hle)
      rw [extended_of_le hextended]
      exact ⟨_, _, rfl, h.consistent.extend hl _, { h.bounded with }, h.mirrors⟩

/-- A renewal that panics leaves the queue as it is. -/
theorem call_panics (codec : Codec β) {env : Surroundings β} {op : QueueOp}
    (h : ¬ Representable s env.now op) : call codec env s d op = .panicked s d := by
  simp only [Representable, not_forall] at h
  obtain ⟨leaseId, extendBy, requestId, expiresAt, rfl, hl, hlt, hlate⟩ := h
  have hnone : extended expiresAt extendBy = none := if_neg hlate
  simp only [call, renew, hl, if_neg (Nat.not_le.mpr hlt), hnone]
  rfl

theorem representable_of_call {env : Surroundings β} {op : QueueOp} {d' : Disk β}
    {result : StorageResult QueueReply} {s' : QueueState}
    (h : call codec env s d op = .returned result s' d') : Representable s env.now op := by
  by_contra hnot
  rw [call_panics codec hnot] at h
  cases h

/-- What an operation is asked for: the requests it adds are fresh and one to an identifier,
and the lease it gives back has the identifier it was granted for. -/
structure Admissible (P : Request → Prop) (s : QueueState) (op : QueueOp) : Prop where
  added : ∀ r ∈ op.added, P r ∧ Fresh s r
  ids : ∀ r ∈ op.added, ∀ q ∈ op.added, q.id = r.id → q.uniqueKey = r.uniqueKey
  returned : ∀ lease, op.returned = some lease → Returns P s lease

theorem call_kept (h : Kept codec P n s d) (hn : n < u64Max)
    (hstable : ∀ r b, P r → P (r.reclaimed b)) (env : Surroundings β) {op : QueueOp}
    (hop : Admissible P s op) (hrepresentable : Representable s env.now op) :
    (call codec env s d op).Kept codec P (n + 1) := by
  have hsucc := h.mono (Nat.le_succ n)
  cases op with
  | add r opts =>
    obtain ⟨hP, hfresh⟩ := hop.added r List.mem_cons_self
    exact ((addLocked_kept h hP hfresh opts _).mono (Nat.le_succ n)).map _
  | addBatch requests opts =>
    exact ((addBatch_kept h hop.added hop.ids opts _ []).mono (Nat.le_succ n)).map _
  | fetchNext =>
    obtain ⟨result, s', hf, hg⟩ := fetchNext_kept h hn env.now env.later
    simp only [call, hf]
    exact hg
  | markHandled lease => exact (markHandled_kept h (hop.returned lease rfl) hn _).map _
  | reclaim lease opts =>
    exact ((requeue_kept h hstable (hop.returned lease rfl) _ _ _).mono (Nat.le_succ n)).map _
  | renew leaseId extendBy =>
    obtain ⟨result, s', hr, hg⟩ := renew_kept hsucc hrepresentable
    simp only [call, hr]
    exact hg
  | abandon lease =>
    exact ((requeue_kept h hstable (hop.returned lease rfl) _ _ _).mono (Nat.le_succ n)).map _
  | isEmpty => exact hsucc
  | isFinished => exact hsucc
  | handledCount => exact hsucc
  | pendingCount => exact hsucc

theorem Good.leased (h : Good codec K n s d) {lease : Lease} (hun : Unchanged s lease)
    {id : RequestId} {e : Instant} (hl : s.leases.lookup lease.leaseId = some (id, e)) :
    lease.request.id = id ∧ lease.request.Identified ∧ lease.request.uniqueKey ∈ K ∧
      ∃ st o, s.requests.lookup id = some st ∧ st.orderNo = some o ∧
        st.request.uniqueKey = lease.request.uniqueKey := by
  obtain ⟨-, -, st, o, hst, ho, -⟩ := h.consistent.leased_stored _ _ _ hl
  obtain ⟨hsid, hident, hk⟩ := h.consistent.stored id st hst
  obtain ⟨hid, hkey⟩ := hun id e st hl hst
  refine ⟨hid, ?_, hkey ▸ hk, st, o, hst, ho, hkey.symm⟩
  rw [Request.Identified, hid, hkey, ← hsid]
  exact hident

theorem Identifies.reclaimed (r : Request) (b : Bool) (h : Identifies K r) :
    Identifies K (r.reclaimed b) := by
  obtain ⟨hident, hk⟩ := h
  refine ⟨?_, ?_⟩
  · rw [Request.Identified, Request.reclaimed_id, Request.reclaimed_uniqueKey, hident]
  · rwa [Request.reclaimed_uniqueKey]

end Operations

inductive Process (β : Type*) where
  | running (state : QueueState) (disk : Disk β)
  | stopped (disk : Disk β)

inductive Event (β : Type*) where
  | call (env : Surroundings β) (op : QueueOp)
  | crash
  | reopen

namespace Process

def start : Process β := .running .empty .empty

def step (codec : Codec β) : Process β → Event β → Process β
  | .running s d, .call env op =>
    match call codec env s d op with
    | .returned _ s d => .running s d
    | .crashed d => .stopped d
    | .panicked s d => .running s d
  | .running _ d, .crash => .stopped d
  | .stopped d, .reopen =>
    match scanQueue codec d with
    | .ok s => .running s d
    | .error _ => .stopped d
  | p, _ => p

def run (codec : Codec β) (es : List (Event β)) : Process β := es.foldl (step codec) start

end Process

def Legal (K : Set String) : Process β → Event β → Prop
  | .running s _, .call _ op =>
    (∀ r ∈ op.added, r.Identified ∧ r.uniqueKey ∈ K) ∧
      ∀ lease, op.returned = some lease → Unchanged s lease
  | _, _ => True

def Allowed (P : Request → Prop) : Process β → Event β → Prop
  | .running s _, .call _ op => Admissible P s op
  | _, _ => True

theorem admissible_of_legal {codec : Codec β} {K : Set String} {n : ℕ} {s : QueueState} {d : Disk β}
    (inj : Set.InjOn RequestId.fromUniqueKey K) (h : Good codec K n s d) {env : Surroundings β}
    {op : QueueOp} (legal : Legal K (.running s d) (.call env op)) :
    Admissible (Identifies K) s op := by
  obtain ⟨hadd, hret⟩ := legal
  refine ⟨?_, ?_, ?_⟩
  · intro r hr
    obtain ⟨hid, hk⟩ := hadd r hr
    exact ⟨⟨hid, hk⟩, Consistent.lookup_of_new h.consistent inj hid hk⟩
  · intro r hr q hq hids
    obtain ⟨hid, hk⟩ := hadd r hr
    obtain ⟨hid', hk'⟩ := hadd q hq
    rw [hid, hid'] at hids
    exact inj hk' hk hids
  · intro lease hl id e hlease
    obtain ⟨hid, hident, hk, -⟩ := Good.leased h (hret lease hl) hlease
    exact ⟨hid, hident, hk⟩

theorem call_good {codec : Codec β} {K : Set String} {n : ℕ} {s : QueueState} {d : Disk β}
    (inj : Set.InjOn RequestId.fromUniqueKey K) (h : Good codec K n s d) (hn : n < u64Max)
    (env : Surroundings β) {op : QueueOp}
    (legal : Legal K (.running s d) (.call env op)) (hrepresentable : Representable s env.now op) :
    (call codec env s d op).Good codec K (n + 1) :=
  call_kept h hn Identifies.reclaimed env (admissible_of_legal inj h legal) hrepresentable

def Process.Kept (codec : Codec β) (P : Request → Prop) (n : ℕ) : Process β → Prop
  | .running s d => FsQueue.Kept codec P n s d
  | .stopped d => ∃ s, FsQueue.Kept codec P n s d

theorem Kept.step_call {codec : Codec β} {P : Request → Prop} {n : ℕ} {s : QueueState} {d : Disk β}
    (h : Kept codec P n s d) (hn : n < u64Max) (hstable : ∀ r b, P r → P (r.reclaimed b))
    (env : Surroundings β) {op : QueueOp} (hop : Admissible P s op) :
    (Process.step codec (.running s d) (.call env op)).Kept codec P (n + 1) := by
  by_cases hrepresentable : Representable s env.now op
  · have hcall := call_kept h hn hstable env hop hrepresentable
    simp only [Process.step]
    cases hout : call codec env s d op with
    | returned result s' d' =>
      rw [hout] at hcall
      exact hcall
    | crashed d' =>
      rw [hout] at hcall
      exact hcall
    | panicked s' d' =>
      rw [hout] at hcall
      exact hcall.elim
  · simp only [Process.step, call_panics codec hrepresentable]
    exact h.mono (Nat.le_succ n)

theorem legal_call {K : Set String} (p : Process β) (env : Surroundings β) {op : QueueOp}
    (hadd : ∀ r ∈ op.added, r.Identified ∧ r.uniqueKey ∈ K) (hret : op.returned = none) :
    Legal K p (.call env op) := by
  cases p with
  | running s d =>
    refine ⟨hadd, ?_⟩
    intro lease hl
    rw [hret] at hl
    cases hl
  | stopped d => trivial

def WriteFate.survives : WriteFate β → Bool
  | .completes => true
  | .fails _ _ => true
  | .crashesBefore _ => false
  | .crashesAfter => false

/-- The process stays alive: writes may fail, but none is interrupted. -/
def Event.survives : Event β → Prop
  | .call env _ => ∀ i, (env.fate i).survives = true
  | .crash => False
  | .reopen => False

theorem writeRequest_ne_crashed (codec : Codec β) {fate : WriteFate β}
    (h : fate.survives = true) (d d' : Disk β) (r : Request) (orderNo : Option ℤ) :
    writeRequest codec fate d r orderNo ≠ .crashed d' := by
  cases fate <;> simp_all [WriteFate.survives, writeRequest]

theorem addLocked_ne_crashed (codec : Codec β) {fate : WriteFate β}
    (h : fate.survives = true) (s : QueueState) (d d' : Disk β) (r : Request)
    (opts : AddOptions) : addLocked codec fate s d r opts ≠ .crashed d' := by
  have hw := writeRequest_ne_crashed codec h d
  simp only [addLocked]
  grind

theorem addBatch_ne_crashed (codec : Codec β) {fate : ℕ → WriteFate β}
    (h : ∀ i, (fate i).survives = true) (s : QueueState) (d d' : Disk β) (opts : AddOptions)
    (processed : List ProcessedRequest) (requests : List Request) :
    addBatch codec fate opts s d processed requests ≠ .crashed d' := by
  induction requests generalizing s d processed with
  | nil => simp [addBatch]
  | cons r requests ih =>
    have ha := addLocked_ne_crashed codec (h processed.length) s d
    simp only [addBatch]
    grind

theorem requeue_ne_crashed (codec : Codec β) {fate : WriteFate β} (h : fate.survives = true)
    (s : QueueState) (d d' : Disk β) (lease : Lease) (forefront incrementRetry : Bool) :
    requeue codec fate s d lease forefront incrementRetry ≠ .crashed d' := by
  have hw := writeRequest_ne_crashed codec h d
  simp only [requeue]
  grind

theorem markHandled_ne_crashed (codec : Codec β) {fate : WriteFate β} (h : fate.survives = true)
    (s : QueueState) (d d' : Disk β) (lease : Lease) :
    markHandled codec fate s d lease ≠ .crashed d' := by
  have hw := writeRequest_ne_crashed codec h d
  simp only [markHandled]
  grind

theorem Outcome.map_ne_crashed {α γ : Type*} {out : Outcome β α} {f : α → γ} {d : Disk β}
    (h : out ≠ .crashed d) : out.map f ≠ .crashed d := by
  cases out <;> simp_all [Outcome.map]

theorem Outcome.unwritten_ne_crashed {α : Type*} {d d' : Disk β}
    {r : Option (StorageResult α) × QueueState} : Outcome.unwritten d r ≠ .crashed d' := by
  obtain ⟨_ | result, s⟩ := r <;> simp [Outcome.unwritten]

theorem call_ne_crashed (codec : Codec β) {env : Surroundings β} {op : QueueOp}
    (h : (Event.call env op).survives) (s : QueueState) (d d' : Disk β) :
    call codec env s d op ≠ .crashed d' := by
  cases op with
  | add r opts => exact Outcome.map_ne_crashed (addLocked_ne_crashed codec (h 0) s d d' r opts)
  | addBatch requests opts =>
    exact Outcome.map_ne_crashed (addBatch_ne_crashed codec h s d d' opts [] requests)
  | fetchNext => exact Outcome.map_ne_crashed Outcome.unwritten_ne_crashed
  | markHandled lease =>
    exact Outcome.map_ne_crashed (markHandled_ne_crashed codec (h 0) s d d' lease)
  | reclaim lease opts =>
    exact Outcome.map_ne_crashed (requeue_ne_crashed codec (h 0) s d d' lease _ _)
  | abandon lease =>
    exact Outcome.map_ne_crashed (requeue_ne_crashed codec (h 0) s d d' lease _ _)
  | renew leaseId extendBy => exact Outcome.map_ne_crashed Outcome.unwritten_ne_crashed
  | isEmpty => simp [call]
  | isFinished => simp [call]
  | handledCount => simp [call]
  | pendingCount => simp [call]

/-- Every stored request that is not handled is in one place, and a handled one in none. -/
structure Exclusive (s : QueueState) : Prop where
  placed : ∀ id st o, s.requests.lookup id = some st → st.orderNo = some o →
    (s.pending.find o = some id ∧ (∀ o', s.pending.find o' = some id → o' = o) ∧
      ∀ l e, s.leases.lookup l ≠ some (id, e)) ∨
    ((∀ o', s.pending.find o' ≠ some id) ∧ ∃! l, ∃ e, s.leases.lookup l = some (id, e))
  handled : ∀ k id, s.dedup.lookup k = some (id, true) →
    (∀ o, s.pending.find o ≠ some id) ∧ ∀ l e, s.leases.lookup l ≠ some (id, e)
  handled_iff : ∀ id st, s.requests.lookup id = some st →
    s.dedup.lookup st.request.uniqueKey = some (id, st.orderNo.isNone)
  pending_stored : ∀ o id, s.pending.find o = some id → ∃ st, s.requests.lookup id = some st

theorem Placed.exclusive {P : Request → Prop} {s : QueueState} (h : Placed P none s) :
    Exclusive s where
  placed id st o hst ho := by
    obtain hp | hleased := h.placed id st o hst ho (by simp)
    · left
      refine ⟨hp, ?_, ?_⟩
      · intro o' hp'
        obtain ⟨-, st', hst', ho'⟩ := h.pending_stored o' id hp'
        rw [hst] at hst'
        cases hst'
        rw [ho] at ho'
        exact (Option.some.inj ho').symm
      · intro l e hl
        obtain ⟨-, -, st', o', hst', ho', hfree⟩ := h.leased_stored l id e hl
        grind
    · right
      obtain ⟨l, e, hl⟩ := hleased
      obtain ⟨-, -, st', o', hst', ho', hfree⟩ := h.leased_stored l id e hl
      refine ⟨?_, l, ⟨e, hl⟩, ?_⟩
      · intro o₂ hp
        obtain ⟨-, st₂, hst₂, ho₂⟩ := h.pending_stored o₂ id hp
        grind
      · intro l' hl'
        obtain ⟨e', hl'⟩ := hl'
        exact h.lease_unique l' l id e' e hl' hl
  handled k id hd := by
    obtain ⟨st, hst, -, hnone⟩ := h.dedup_stored k id true hd
    have ho : st.orderNo = none := by simpa using hnone.symm
    constructor
    · intro o hp
      obtain ⟨-, st', hst', ho'⟩ := h.pending_stored o id hp
      grind
    · intro l e hl
      obtain ⟨-, -, st', o', hst', ho', -⟩ := h.leased_stored l id e hl
      grind
  handled_iff := h.stored_dedup
  pending_stored o id hp := by
    obtain ⟨-, st, hst, -⟩ := h.pending_stored o id hp
    exact ⟨st, hst⟩

theorem call_of_not_leased (codec : Codec β) (env : Surroundings β) {s : QueueState}
    (d : Disk β) {op : QueueOp} {l : LeaseId} (hop : op.presented = some l)
    (hl : s.leases.lookup l = none) :
    call codec env s d op = .returned (.error (.leaseNotFound l)) s d := by
  cases op with
  | markHandled lease =>
    cases hop
    simp [call, markHandled, leaseRequestId, hl, Outcome.map, Except.map]
  | reclaim lease opts =>
    cases hop
    simp [call, requeue, leaseRequestId, hl, Outcome.map, Except.map]
  | abandon lease =>
    cases hop
    simp [call, requeue, leaseRequestId, hl, Outcome.map, Except.map]
  | renew leaseId extendBy =>
    cases hop
    simp [call, renew, hl, Outcome.unwritten, Outcome.map, Except.map]
  | add r opts => cases hop
  | addBatch requests opts => cases hop
  | fetchNext => cases hop
  | isEmpty => cases hop
  | isFinished => cases hop
  | handledCount => cases hop
  | pendingCount => cases hop

/-- The process goes on as long as no event kills it and its calls are admissible. -/
theorem run_kept {codec : Codec β} {P : Request → Prop} {Q : Process β → Event β → Prop}
    (hstable : ∀ r b, P r → P (r.reclaimed b))
    (hallowed : ∀ n s d e, Kept codec P n s d → Q (.running s d) e →
      Allowed P (.running s d) e ∧ e.survives)
    {es : List (Event β)} (hb : es.length < u64Max)
    (legal : Machine.Along (Process.step codec) Q Process.start es) :
    ∃ s d, Process.run codec es = .running s d ∧ Kept codec P es.length s d := by
  have keep : ∀ n p e, (∃ s d, p = .running s d ∧ Kept codec P n s d) → Q p e →
      n + 1 ≤ es.length →
      ∃ s d, Process.step codec p e = .running s d ∧ Kept codec P (n + 1) s d := by
    intro n p e hp hlegal hn
    obtain ⟨s, d, rfl, hg⟩ := hp
    obtain ⟨hadmissible, hsurv⟩ := hallowed n s d e hg hlegal
    cases e with
    | crash => exact absurd hsurv id
    | reopen => exact absurd hsurv id
    | call env op =>
      have hkept := hg.step_call (by omega) hstable env hadmissible
      have hcrash := call_ne_crashed codec hsurv s d
      simp only [Process.step] at hkept ⊢
      cases hout : call codec env s d op with
      | returned result s' d' =>
        rw [hout] at hkept
        exact ⟨s', d', rfl, hkept⟩
      | crashed d' => exact absurd hout (hcrash d')
      | panicked s' d' =>
        rw [hout] at hkept
        exact ⟨s', d', rfl, hkept⟩
  have hinv := Machine.foldl_invariant (fun _ => 1)
    (fun n p => ∃ s d, p = .running s d ∧ Kept codec P n s d) keep
    ⟨_, _, rfl, kept_empty codec P⟩ legal (by simp)
  simpa [Process.run] using hinv

theorem run_good {codec : Codec β} {K : Set String} (inj : Set.InjOn RequestId.fromUniqueKey K)
    {es : List (Event β)} (hb : es.length < u64Max)
    (legal : Machine.Along (Process.step codec) (fun p e => Legal K p e ∧ e.survives)
      Process.start es) :
    ∃ s d, Process.run codec es = .running s d ∧ Good codec K es.length s d := by
  refine run_kept Identifies.reclaimed ?_ hb legal
  rintro n s d e hg ⟨hlegal, hsurv⟩
  refine ⟨?_, hsurv⟩
  cases e with
  | call env op => exact admissible_of_legal inj hg hlegal
  | crash => trivial
  | reopen => trivial

/-- Whatever the clock reads and whichever writes fail. -/
theorem lease_exclusive (codec : Codec β) {K : Set String}
    (inj : Set.InjOn RequestId.fromUniqueKey K) (es : List (Event β)) (hb : es.length < 2 ^ 63)
    (legal : Machine.Along (Process.step codec) (fun p e => Legal K p e ∧ e.survives)
      Process.start es) :
    ∃ s d, Process.run codec es = .running s d ∧ Exclusive s ∧
      ∀ env op l, op.presented = some l → s.leases.lookup l = none →
        call codec env s d op = .returned (.error (.leaseNotFound l)) s d := by
  have hlt : es.length < u64Max := by
    simp only [u64Max]
    omega
  obtain ⟨s, d, hrun, hg⟩ := run_good inj hlt legal
  refine ⟨s, d, hrun, hg.consistent.exclusive, ?_⟩
  intro env op l hop hl
  exact call_of_not_leased codec env d hop hl

def plainCodec : Codec (Request × Option ℤ) where
  encode r o := (r, o)
  decode b := some (b.1, b.2, false)

def Surroundings.calm (now : Instant) : Surroundings (Request × Option ℤ) :=
  ⟨now, now, fun _ => .completes⟩

def requestA : Request := Request.get ⟨"https://a.test/", some "a.test"⟩ "a"

def expiringRun : List (Event (Request × Option ℤ)) :=
  [.call (.calm 0) (.add requestA {}), .call (.calm 0) .fetchNext,
   .call (.calm leaseTtl) .fetchNext,
   .call (.calm leaseTtl) (.markHandled ⟨requestA, 0, leaseTtl⟩)]

theorem lease_exclusive_expiringRun :
    ∃ s d, Process.run plainCodec expiringRun = .running s d ∧ Exclusive s ∧
      ∀ env op l, op.presented = some l → s.leases.lookup l = none →
        call plainCodec env s d op = .returned (.error (.leaseNotFound l)) s d := by
  apply lease_exclusive plainCodec (Set.injOn_singleton _ "a") expiringRun (by decide)
  refine ⟨⟨?_, fun _ => rfl⟩, ⟨?_, fun _ => rfl⟩, ⟨?_, fun _ => rfl⟩, ⟨⟨?_, ?_⟩, fun _ => rfl⟩,
    trivial⟩
  · refine legal_call _ _ ?_ rfl
    intro r hr
    cases List.mem_singleton.mp hr
    exact ⟨rfl, rfl⟩
  · exact legal_call _ _ (by simp [QueueOp.added]) rfl
  · exact legal_call _ _ (by simp [QueueOp.added]) rfl
  · simp [QueueOp.added]
  · intro lease h id e st hl
    cases h
    have hgone : (none : Option (RequestId × Instant)) = some (id, e) := hl
    cases hgone

end Millipede.FsQueue
