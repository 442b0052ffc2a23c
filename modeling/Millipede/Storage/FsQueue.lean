import Mathlib.Algebra.Order.Ring.Int
import Mathlib.Data.List.Sort
import Millipede.Storage.Layout
import Millipede.Storage.Queue

/-!
# The file-system request queue

`FsRequestQueue` as functions on its in-memory state and the request directory.
Every request-file write is given its fate: it happens, it fails, or the process
dies before or after the rename; a failed or interrupted write may leave a
temporary file behind. The clock readings of a call are arguments. The file
format is a parameter: `encode` writes the envelope of a request and an optional
order number, `decode` is `decode_request`.
-/

namespace Millipede.FsQueue

def leaseTtl : Duration := Duration.fromSecs 180

def i64Max : ℤ := 2 ^ 63 - 1
def i64Min : ℤ := -2 ^ 63
def u64Max : ℕ := 2 ^ 64 - 1

structure Codec (β : Type*) where
  encode : Request → Option ℤ → β
  decode : β → Option (Request × Option ℤ × Bool)

/-- The request directory. `history` lists the request-file writes that have
happened, the latest first; the queue never reads it. -/
structure Disk (β : Type*) where
  files : HashMap String β
  history : List (Request × Option ℤ)

def Disk.empty {β : Type*} : Disk β := ⟨∅, []⟩

structure StoredRequest where
  request : Request
  orderNo : Option ℤ

structure QueueState where
  pending : OrderedMap ℤ RequestId
  dedup : HashMap String (RequestId × Bool)
  leases : HashMap LeaseId (RequestId × Instant)
  requests : HashMap RequestId StoredRequest
  handledCount : ℕ
  nextOrder : ℤ
  nextForefrontOrder : ℤ
  nextLeaseId : ℕ

namespace QueueState

def empty : QueueState where
  pending := .empty
  dedup := ∅
  leases := ∅
  requests := ∅
  handledCount := 0
  nextOrder := 1
  nextForefrontOrder := -1
  nextLeaseId := 0

def takeOrder (s : QueueState) (forefront : Bool) : StorageResult (ℤ × QueueState) :=
  if forefront then
    if i64Min ≤ s.nextForefrontOrder - 1 then
      .ok (s.nextForefrontOrder, { s with nextForefrontOrder := s.nextForefrontOrder - 1 })
    else .error (.backend "request queue forefront order exhausted")
  else
    if s.nextOrder + 1 ≤ i64Max then
      .ok (s.nextOrder, { s with nextOrder := s.nextOrder + 1 })
    else .error (.backend "request queue order exhausted")

end QueueState

inductive WriteFate (β : Type*) where
  | completes
  | fails (text : String) (residue : Option (UInt64 × β))
  | crashesBefore (residue : Option (UInt64 × β))
  | crashesAfter

/-- What is left of a write that did not reach the rename. -/
def Disk.leave {β : Type*} (d : Disk β) (destination : String) :
    Option (UInt64 × β) → Disk β
  | none => d
  | some (random, bytes) =>
    { d with files := d.files.insert (Layout.temporaryName destination random) bytes }

def Disk.put {β : Type*} (codec : Codec β) (d : Disk β) (request : Request)
    (orderNo : Option ℤ) : Disk β where
  files := d.files.insert (Layout.requestFileName request.id) (codec.encode request orderNo)
  history := (request, orderNo) :: d.history

inductive Written (β : Type*) where
  | ok (disk : Disk β)
  | error (e : StorageError) (disk : Disk β)
  | crashed (disk : Disk β)

def writeRequest {β : Type*} (codec : Codec β) (fate : WriteFate β) (d : Disk β)
    (request : Request) (orderNo : Option ℤ) : Written β :=
  let destination := Layout.requestFileName request.id
  match fate with
  | .completes => .ok (d.put codec request orderNo)
  | .fails text residue => .error (.io text) (d.leave destination residue)
  | .crashesBefore residue => .crashed (d.leave destination residue)
  | .crashesAfter => .crashed (d.put codec request orderNo)

/-- A panic ends the task of the call and frees its lock: the queue goes on in the state that
the call has left. -/
inductive Outcome (β α : Type*) where
  | returned (result : StorageResult α) (state : QueueState) (disk : Disk β)
  | crashed (disk : Disk β)
  | panicked (state : QueueState) (disk : Disk β)

def leaseRequestId (s : QueueState) (leaseId : LeaseId) : StorageResult RequestId :=
  match s.leases.lookup leaseId with
  | some (requestId, _) => .ok requestId
  | none => .error (.leaseNotFound leaseId)

def validateUniqueKey (s : QueueState) (requestId : RequestId) (request : Request) :
    StorageResult Unit :=
  match s.dedup.lookup request.uniqueKey with
  | some (knownId, _) =>
    if knownId ≠ requestId then
      .error (.backend "request lease changed unique_key to an existing queue key")
    else .ok ()
  | none => .ok ()

def replaceStoredRequest (s : QueueState) (requestId : RequestId) (request : Request)
    (orderNo : Option ℤ) (handled : Bool) : QueueState :=
  let dedup :=
    match s.requests.lookup requestId with
    | some previous =>
      if previous.request.uniqueKey ≠ request.uniqueKey then
        s.dedup.erase previous.request.uniqueKey
      else s.dedup
    | none => s.dedup
  { s with
    dedup := dedup.insert request.uniqueKey (requestId, handled)
    requests := s.requests.insert requestId { request, orderNo } }

/-- An expired lease is dropped and its request is pending again under the order
number it is stored with. -/
def takeBack (s : QueueState) (leaseId : LeaseId) : QueueState :=
  match s.leases.lookup leaseId with
  | none => s
  | some (requestId, _) =>
    let s := { s with leases := s.leases.erase leaseId }
    match (s.requests.lookup requestId).bind StoredRequest.orderNo with
    | some orderNo => { s with pending := s.pending.insert orderNo requestId }
    | none => s

def expired (s : QueueState) (now : Instant) : List LeaseId :=
  (s.leases.entries.filter fun e => e.2.2 ≤ now).map Sigma.fst

def reclaimExpired (s : QueueState) (now : Instant) : QueueState :=
  (expired s now).foldl takeBack s

def accept (s : QueueState) (request : Request) (orderNo : ℤ) : QueueState :=
  { s with
    pending := s.pending.insert orderNo request.id
    dedup := s.dedup.insert request.uniqueKey (request.id, false)
    requests := s.requests.insert request.id { request, orderNo := some orderNo } }

section Operations
variable {β : Type*} (codec : Codec β)

def addLocked (fate : WriteFate β) (s : QueueState) (d : Disk β) (request : Request)
    (opts : AddOptions) : Outcome β ProcessedRequest :=
  match s.dedup.lookup request.uniqueKey with
  | some (requestId, handled) =>
    .returned (.ok { requestId, uniqueKey := request.uniqueKey, wasAlreadyPresent := true,
                     wasAlreadyHandled := handled }) s d
  | none =>
    match s.takeOrder opts.forefront with
    | .error e => .returned (.error e) s d
    | .ok (orderNo, s) =>
      match writeRequest codec fate d request (some orderNo) with
      | .error e d => .returned (.error e) s d
      | .crashed d => .crashed d
      | .ok d =>
        .returned (.ok { requestId := request.id, uniqueKey := request.uniqueKey,
                         wasAlreadyPresent := false, wasAlreadyHandled := false })
          (accept s request orderNo) d

/-- The loop of `add_batch`; the write of the `i`-th request has fate `fate i`. -/
def addBatch (fate : ℕ → WriteFate β) (opts : AddOptions) :
    QueueState → Disk β → List ProcessedRequest → List Request →
      Outcome β (List ProcessedRequest)
  | s, d, processed, [] => .returned (.ok processed) s d
  | s, d, processed, request :: requests =>
    match addLocked codec (fate processed.length) s d request opts with
    | .returned (.ok info) s d => addBatch fate opts s d (processed ++ [info]) requests
    | .returned (.error e) s d => .returned (.error e) s d
    | .crashed d => .crashed d
    | .panicked s d => .panicked s d

def requeue (fate : WriteFate β) (s : QueueState) (d : Disk β) (lease : Lease)
    (forefront incrementRetry : Bool) : Outcome β Unit :=
  match leaseRequestId s lease.leaseId with
  | .error e => .returned (.error e) s d
  | .ok requestId =>
    match validateUniqueKey s requestId lease.request with
    | .error e => .returned (.error e) s d
    | .ok () =>
      let request := lease.request.reclaimed incrementRetry
      match s.takeOrder forefront with
      | .error e => .returned (.error e) s d
      | .ok (orderNo, s) =>
        match writeRequest codec fate d request (some orderNo) with
        | .error e d => .returned (.error e) s d
        | .crashed d => .crashed d
        | .ok d =>
          let s := { s with
            leases := s.leases.erase lease.leaseId
            pending := s.pending.insert orderNo requestId }
          .returned (.ok ()) (replaceStoredRequest s requestId request (some orderNo) false) d

def markHandled (fate : WriteFate β) (s : QueueState) (d : Disk β) (lease : Lease) :
    Outcome β Unit :=
  match leaseRequestId s lease.leaseId with
  | .error e => .returned (.error e) s d
  | .ok requestId =>
    match validateUniqueKey s requestId lease.request with
    | .error e => .returned (.error e) s d
    | .ok () =>
      match writeRequest codec fate d lease.request none with
      | .error e d => .returned (.error e) s d
      | .crashed d => .crashed d
      | .ok d =>
        let s := { s with
          leases := s.leases.erase lease.leaseId
          handledCount := min (s.handledCount + 1) u64Max }
        .returned (.ok ()) (replaceStoredRequest s requestId lease.request none true) d

end Operations

/-- `now` is read by `reclaim_expired` and `later` for the new deadline. `none` is the
failed `expect` on a pending identifier without a stored request. -/
def fetchNext (s : QueueState) (now later : Instant) :
    Option (StorageResult (Option Lease)) × QueueState :=
  let s := reclaimExpired s now
  match s.pending.popFirst with
  | none => (some (.ok none), s)
  | some ((_, requestId), pending) =>
    let s := { s with pending }
    match s.requests.lookup requestId with
    | none => (none, s)
    | some stored =>
      if s.nextLeaseId + 1 ≤ u64Max then
        let leaseId := s.nextLeaseId
        let expiresAt := later + leaseTtl
        (some (.ok (some { request := stored.request, leaseId, expiresAt })),
          { s with
            nextLeaseId := s.nextLeaseId + 1
            leases := s.leases.insert leaseId (requestId, expiresAt) })
      else (some (.error (.backend "request queue lease identifiers exhausted")), s)

/-- `none` is the panic on a deadline that is no `Instant`. -/
def renew (s : QueueState) (now : Instant) (leaseId : LeaseId) (extendBy : Duration) :
    Option (StorageResult Unit) × QueueState :=
  match s.leases.lookup leaseId with
  | none => (some (.error (.leaseNotFound leaseId)), s)
  | some (requestId, expiresAt) =>
    if expiresAt ≤ now then (some (.error (.leaseNotFound leaseId)), takeBack s leaseId)
    else
      match extended expiresAt extendBy with
      | none => (none, s)
      | some expiresAt =>
        (some (.ok ()), { s with leases := s.leases.insert leaseId (requestId, expiresAt) })

/-- What a call reads from outside: the clock, and the fates of its writes. -/
structure Surroundings (β : Type*) where
  now : Instant
  later : Instant
  fate : ℕ → WriteFate β

def Outcome.map {β α γ : Type*} (f : α → γ) : Outcome β α → Outcome β γ
  | .returned result s d => .returned (result.map f) s d
  | .crashed d => .crashed d
  | .panicked s d => .panicked s d

def Outcome.unwritten {β α : Type*} (d : Disk β) :
    Option (StorageResult α) × QueueState → Outcome β α
  | (some result, s) => .returned result s d
  | (none, s) => .panicked s d

def call {β : Type*} (codec : Codec β) (env : Surroundings β) (s : QueueState) (d : Disk β) :
    QueueOp → Outcome β QueueReply
  | .add request opts => (addLocked codec (env.fate 0) s d request opts).map .info
  | .addBatch requests opts => (addBatch codec env.fate opts s d [] requests).map .batch
  | .fetchNext => (Outcome.unwritten d (fetchNext s env.now env.later)).map .leased
  | .markHandled lease => (markHandled codec (env.fate 0) s d lease).map fun _ => .unit
  | .reclaim lease opts =>
    (requeue codec (env.fate 0) s d lease opts.forefront opts.incrementRetry).map fun _ => .unit
  | .renew leaseId extendBy =>
    (Outcome.unwritten d (renew s env.now leaseId extendBy)).map fun _ => .unit
  | .abandon lease => (requeue codec (env.fate 0) s d lease true false).map fun _ => .unit
  | .isEmpty => .returned (.ok (.flag s.pending.isEmpty)) s d
  | .isFinished =>
    .returned (.ok (.flag (s.pending.isEmpty && s.leases.entries.isEmpty))) s d
  | .handledCount => .returned (.ok (.count s.handledCount)) s d
  | .pendingCount => .returned (.ok (.count s.pending.len)) s d

def scanEntry (s : QueueState) (entry : Request × Option ℤ × Bool) : StorageResult QueueState := do
  let (request, diskOrderNo, bare) := entry
  let (orderNo, s) ←
    if bare then do
      let (orderNo, s) ← s.takeOrder false
      pure (some orderNo, s)
    else
      match diskOrderNo with
      | some orderNo =>
        if (s.pending.find orderNo).isSome then do
          let (orderNo, s) ← s.takeOrder false
          pure (some orderNo, s)
        else pure (some orderNo, s)
      | none => pure (none, s)
  let s :=
    match orderNo with
    | some orderNo => { s with pending := s.pending.insert orderNo request.id }
    | none => { s with handledCount := min (s.handledCount + 1) u64Max }
  pure { s with
    dedup := s.dedup.insert request.uniqueKey (request.id, orderNo.isNone)
    requests := s.requests.insert request.id { request, orderNo } }

def decodedFiles {β : Type*} (codec : Codec β) (d : Disk β) : List (Request × Option ℤ × Bool) :=
  let files := (d.files.keys.filter Layout.isRequestFile).insertionSort (· ≤ ·)
  files.filterMap fun file => (d.files.lookup file).bind codec.decode

def scannedCounters (decoded : List (Request × Option ℤ × Bool)) : QueueState :=
  let orders := decoded.filterMap fun entry => entry.2.1
  let maxNormal := ((orders.filter fun orderNo => 0 < orderNo).max?).getD 0
  let minForefront := ((orders.filter fun orderNo => orderNo < 0).min?).getD 0
  { QueueState.empty with
    nextOrder := min (maxNormal + 1) i64Max
    nextForefrontOrder := if minForefront < 0 then max (minForefront - 1) i64Min else -1 }

def scanQueue {β : Type*} (codec : Codec β) (d : Disk β) : StorageResult QueueState :=
  let decoded := decodedFiles codec d
  decoded.foldlM scanEntry (scannedCounters decoded)

end Millipede.FsQueue
