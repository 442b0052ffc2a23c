import Mathlib.Data.Finset.Insert
import Millipede.Storage.Queue

/-!
# The in-memory request queue

`MemoryRequestQueue` with both frontier policies. A lease's deadline is kept and
extended but never looked at: in this backend an expired lease is not reassigned. The clock
leaves room for `LEASE_TTL`, but the caller of `renew` says how far a deadline moves.
-/

namespace Millipede.MemoryQueue

def leaseTtl : Duration := Duration.fromSecs 180

structure DomainRoundRobin where
  byHost : HashMap String (List Request)
  rotation : List String

namespace DomainRoundRobin

def hostKey (request : Request) : String :=
  String.ofList ((request.url.hostStr.getD "").toList.map Char.toLower)

def pushBack (f : DomainRoundRobin) (request : Request) : DomainRoundRobin :=
  let host := hostKey request
  match f.byHost.lookup host with
  | some requests => { f with byHost := f.byHost.insert host (requests ++ [request]) }
  | none => { byHost := f.byHost.insert host [request], rotation := f.rotation ++ [host] }

def pushFront (f : DomainRoundRobin) (request : Request) : DomainRoundRobin :=
  let host := hostKey request
  match f.byHost.lookup host with
  | some requests => { f with byHost := f.byHost.insert host (request :: requests) }
  | none => { byHost := f.byHost.insert host [request], rotation := host :: f.rotation }

/-- `none` where the source expects every host of the rotation to be active. -/
def popFront (f : DomainRoundRobin) : Option (Option Request × DomainRoundRobin) :=
  match f.rotation with
  | [] => some (none, f)
  | host :: rotation =>
    match f.byHost.lookup host with
    | none => none
    | some requests =>
      let rest := requests.tail
      if rest.isEmpty then
        some (requests.head?, { byHost := f.byHost.erase host, rotation := rotation })
      else
        some (requests.head?,
          { byHost := f.byHost.insert host rest, rotation := rotation ++ [host] })

def len (f : DomainRoundRobin) : ℕ := (f.byHost.values.map List.length).sum

end DomainRoundRobin

inductive MemoryQueuePolicy where
  | fifo
  | domainRoundRobin
  deriving DecidableEq, Repr

inductive Frontier where
  | fifo (requests : List Request)
  | domainRoundRobin (requests : DomainRoundRobin)

namespace Frontier

def new : MemoryQueuePolicy → Frontier
  | .fifo => .fifo []
  | .domainRoundRobin => .domainRoundRobin { byHost := ∅, rotation := [] }

def pushBack : Frontier → Request → Frontier
  | .fifo requests, request => .fifo (requests ++ [request])
  | .domainRoundRobin requests, request => .domainRoundRobin (requests.pushBack request)

def pushFront : Frontier → Request → Frontier
  | .fifo requests, request => .fifo (request :: requests)
  | .domainRoundRobin requests, request => .domainRoundRobin (requests.pushFront request)

def popFront : Frontier → Option (Option Request × Frontier)
  | .fifo [] => some (none, .fifo [])
  | .fifo (request :: requests) => some (some request, .fifo requests)
  | .domainRoundRobin requests =>
    requests.popFront.map fun (request, rest) => (request, .domainRoundRobin rest)

def len : Frontier → ℕ
  | .fifo requests => requests.length
  | .domainRoundRobin requests => requests.len

def isEmpty : Frontier → Bool
  | .fifo requests => requests.isEmpty
  | .domainRoundRobin requests => requests.byHost.entries.isEmpty

/-- `push_front` or `push_back`, as the options ask. -/
def push (f : Frontier) (forefront : Bool) (request : Request) : Frontier :=
  if forefront then f.pushFront request else f.pushBack request

end Frontier

structure LeasedRequest where
  request : Request
  expiresAt : Instant

structure QueueState where
  dedup : HashMap String RequestId
  handled : Finset String
  pending : Frontier
  inFlight : HashMap LeaseId LeasedRequest
  handledCount : ℕ
  nextLeaseId : ℕ

/-- `MemoryRequestQueue::new`: an empty queue with the FIFO policy. -/
def new : QueueState where
  dedup := ∅
  handled := ∅
  pending := .fifo []
  inFlight := ∅
  handledCount := 0
  nextLeaseId := 0

def withPolicy (policy : MemoryQueuePolicy) : QueueState := { new with pending := .new policy }

def addLocked (s : QueueState) (request : Request) (opts : AddOptions) :
    ProcessedRequest × QueueState :=
  match s.dedup.lookup request.uniqueKey with
  | some requestId =>
    ({ requestId, uniqueKey := request.uniqueKey, wasAlreadyPresent := true,
       wasAlreadyHandled := decide (request.uniqueKey ∈ s.handled) }, s)
  | none =>
    ({ requestId := request.id, uniqueKey := request.uniqueKey, wasAlreadyPresent := false,
       wasAlreadyHandled := false },
     { s with
       dedup := s.dedup.insert request.uniqueKey request.id
       pending := s.pending.push opts.forefront request })

def addBatch (s : QueueState) (opts : AddOptions) :
    List Request → List ProcessedRequest × QueueState
  | [] => ([], s)
  | request :: requests =>
    let (info, s) := addLocked s request opts
    let (infos, s) := addBatch s opts requests
    (info :: infos, s)

/-- The counter is a `u64` of a release build; `none` is the frontier's failed `expect`. -/
def fetchNext (s : QueueState) (now : Instant) : Option (Option Lease × QueueState) :=
  match s.pending.popFront with
  | none => none
  | some (none, _) => some (none, s)
  | some (some request, pending) =>
    let leaseId := s.nextLeaseId
    let expiresAt := now + leaseTtl
    some (some { request, leaseId, expiresAt },
      { s with
        pending
        nextLeaseId := (s.nextLeaseId + 1) % 2 ^ 64
        inFlight := s.inFlight.insert leaseId { request, expiresAt } })

def removeLease (s : QueueState) (leaseId : LeaseId) :
    StorageResult (LeasedRequest × QueueState) :=
  match s.inFlight.lookup leaseId with
  | some leased => .ok (leased, { s with inFlight := s.inFlight.erase leaseId })
  | none => .error (.leaseNotFound leaseId)

def markHandled (s : QueueState) (lease : Lease) : StorageResult Unit × QueueState :=
  match removeLease s lease.leaseId with
  | .error e => (.error e, s)
  | .ok (leased, s) =>
    (.ok (), { s with
      handledCount := (s.handledCount + 1) % 2 ^ 64
      handled := insert leased.request.uniqueKey s.handled })

def reclaim (s : QueueState) (lease : Lease) (opts : ReclaimOptions) :
    StorageResult Unit × QueueState :=
  match removeLease s lease.leaseId with
  | .error e => (.error e, s)
  | .ok (_, s) =>
    (.ok (), { s with
      pending := s.pending.push opts.forefront (lease.request.reclaimed opts.incrementRetry) })

/-- `none` is the panic on a deadline that is no `Instant`. -/
def renew (s : QueueState) (leaseId : LeaseId) (extendBy : Duration) :
    Option (StorageResult Unit × QueueState) :=
  match s.inFlight.lookup leaseId with
  | none => some (.error (.leaseNotFound leaseId), s)
  | some leased =>
    (extended leased.expiresAt extendBy).map fun expiresAt =>
      (.ok (), { s with inFlight := s.inFlight.insert leaseId { leased with expiresAt } })

def abandon (s : QueueState) (lease : Lease) : StorageResult Unit × QueueState :=
  match removeLease s lease.leaseId with
  | .error e => (.error e, s)
  | .ok (_, s) => (.ok (), { s with pending := s.pending.pushFront lease.request })

/-- One call of the trait. `none` is a panic; it poisons the mutex, and no later call returns. -/
def call (now : Instant) (s : QueueState) : QueueOp → Option (StorageResult QueueReply × QueueState)
  | .add request opts =>
    let (info, s) := addLocked s request opts
    some (.ok (.info info), s)
  | .addBatch requests opts =>
    let (infos, s) := addBatch s opts requests
    some (.ok (.batch infos), s)
  | .fetchNext => (fetchNext s now).map fun (lease, s) => (.ok (.leased lease), s)
  | .markHandled lease => some ((markHandled s lease).map (fun r => r.map fun _ => .unit) id)
  | .reclaim lease opts => some ((reclaim s lease opts).map (fun r => r.map fun _ => .unit) id)
  | .renew leaseId extendBy =>
    (renew s leaseId extendBy).map fun (result, s) => (result.map fun _ => .unit, s)
  | .abandon lease => some ((abandon s lease).map (fun r => r.map fun _ => .unit) id)
  | .isEmpty => some (.ok (.flag s.pending.isEmpty), s)
  | .isFinished => some (.ok (.flag (s.pending.isEmpty && s.inFlight.entries.isEmpty)), s)
  | .handledCount => some (.ok (.count s.handledCount), s)
  | .pendingCount => some (.ok (.count s.pending.len), s)

end Millipede.MemoryQueue
