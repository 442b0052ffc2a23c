import Millipede.Request

/-!
# The lease-based queue interface

The values that cross the `RequestQueue` trait, and its operations as one type so
that two backends can be run on the same sequence of calls. Every raw counter is a
natural number; the operations that a `u32` or `u64` would wrap or refuse say so
where they are defined.
-/

namespace Millipede

abbrev LeaseId := ℕ

inductive StorageError where
  | serialization (text : String)
  | io (text : String)
  | leaseNotFound (leaseId : LeaseId)
  | backend (text : String)
  | unsupported (text : String)
  | rateLimited (retryAfter : Option Duration)
  deriving DecidableEq, Repr

abbrev StorageResult (α : Type*) := Except StorageError α

def StorageError.toText : StorageError → String
  | .serialization text => "serialization: " ++ text
  | .io text => "io: " ++ text
  | .leaseNotFound leaseId =>
    "lease " ++ toString leaseId ++ " not found (already completed, abandoned, or expired)"
  | .backend text => "storage backend: " ++ text
  | .unsupported text => "operation not supported by this backend: " ++ text
  | .rateLimited _ => "storage backend rate limited"

/-- The last `Instant` of a Unix clock, which counts seconds in an `i64`. -/
def lastInstant : Instant := (2 ^ 63 - 1) * 1000000000 + 999999999

/-- `expires_at += extend_by`; it panics where the sum is no `Instant`. -/
def extended (expiresAt : Instant) (extendBy : Duration) : Option Instant :=
  if expiresAt + extendBy ≤ lastInstant then some (expiresAt + extendBy) else none

theorem extended_of_le {expiresAt : Instant} {extendBy : Duration}
    (h : expiresAt + extendBy ≤ lastInstant) :
    extended expiresAt extendBy = some (expiresAt + extendBy) := if_pos h

theorem extended_eq_some {expiresAt t : Instant} {extendBy : Duration}
    (h : extended expiresAt extendBy = some t) :
    expiresAt + extendBy ≤ lastInstant ∧ t = expiresAt + extendBy := by
  unfold extended at h
  split_ifs at h with hle
  exact ⟨hle, (Option.some.inj h).symm⟩

structure Lease where
  request : Request
  leaseId : LeaseId
  expiresAt : Instant

structure AddOptions where
  forefront : Bool := false

structure ReclaimOptions where
  forefront : Bool := false
  incrementRetry : Bool := true

structure ProcessedRequest where
  requestId : RequestId
  uniqueKey : String
  wasAlreadyPresent : Bool
  wasAlreadyHandled : Bool
  deriving DecidableEq, Repr

/-- `retry_count += 1` on a `u32` of a release build. -/
def Request.incrementRetry (r : Request) : Request :=
  { r with retryCount := (r.retryCount + 1) % 2 ^ 32 }

def Request.reclaimed (r : Request) (incrementRetry : Bool) : Request :=
  if incrementRetry then r.incrementRetry else r

@[simp] theorem Request.reclaimed_id (r : Request) (b : Bool) : (r.reclaimed b).id = r.id := by
  cases b <;> rfl

@[simp] theorem Request.reclaimed_uniqueKey (r : Request) (b : Bool) :
    (r.reclaimed b).uniqueKey = r.uniqueKey := by
  cases b <;> rfl

inductive QueueOp where
  | add (request : Request) (opts : AddOptions)
  | addBatch (requests : List Request) (opts : AddOptions)
  | fetchNext
  | markHandled (lease : Lease)
  | reclaim (lease : Lease) (opts : ReclaimOptions)
  | renew (leaseId : LeaseId) (extendBy : Duration)
  | abandon (lease : Lease)
  | isEmpty
  | isFinished
  | handledCount
  | pendingCount

def QueueOp.added : QueueOp → List Request
  | .add request _ => [request]
  | .addBatch requests _ => requests
  | _ => []

def QueueOp.returned : QueueOp → Option Lease
  | .markHandled lease | .reclaim lease _ | .abandon lease => some lease
  | _ => none

def QueueOp.presented : QueueOp → Option LeaseId
  | .markHandled lease | .reclaim lease _ | .abandon lease => some lease.leaseId
  | .renew leaseId _ => some leaseId
  | _ => none

/-- A batch is as many steps as the requests its loop adds. -/
def QueueOp.steps : QueueOp → ℕ
  | .addBatch requests _ => max 1 requests.length
  | _ => 1

inductive QueueReply where
  | info (processed : ProcessedRequest)
  | batch (processed : List ProcessedRequest)
  | leased (lease : Option Lease)
  | unit
  | flag (value : Bool)
  | count (value : ℕ)

def QueueReply.processed : QueueReply → List ProcessedRequest
  | .info processed => [processed]
  | .batch processed => processed
  | _ => []

end Millipede
