import Millipede.Library.Machine
import Millipede.Library.Tasks
import Millipede.Storage.Queue

/-!
# Enqueueing links

`EnqueueLinks::send` from the filtered candidates on, with the admission counter that all
calls of a crawler share. Any number of calls run side by side. A call is a task whose
phase is an `await` point or a point between two accesses to shared memory, so that one
step makes at most one access; `giveUp` is a cancellation or an error, after which the
call drops its reservations one by one. The `transform` of a call, which may enqueue links
itself, is one of its phases. Which requests the candidates stand for after filtering, and
what a transform makes of one, are inputs.
-/

namespace Millipede.Enqueue

def u64 : ℕ := 2 ^ 64

/-- `fetch_add(1)` and `fetch_sub(1)` wrap around. -/
def fetchAdd (counter : ℕ) : ℕ := (counter + 1) % u64
def fetchSub (counter : ℕ) : ℕ := (counter + (u64 - 1)) % u64

def saturatingAdd (a b : ℕ) : ℕ := min (a + b) (u64 - 1)

structure CrawlPolicy where
  maxCrawlDepth : Option ℕ
  maxRequestsPerCrawl : Option ℕ

inductive SkipReason where
  | maxDepthExceeded (depth limit : ℕ)
  | maxRequestsReached (limit : ℕ)
  | transformRejected (reason : String)
  | duplicateUniqueKey
  deriving DecidableEq, Repr

inductive TransformResult where
  | enqueue
  | skip (reason : String)
  deriving DecidableEq, Repr

inductive Admission where
  | reserved
  | untracked
  | rejected
  deriving DecidableEq, Repr

structure Draft where
  request : Request
  reserved : Bool

inductive Phase where
  | choosing (rest : List Request)
  | locking (request : Request) (rest : List Request)
  | counting (request : Request) (rest : List Request)
  | countingPending (request : Request) (rest : List Request) (handled : ℕ)
  | synchronizing (request : Request) (rest : List Request) (handled pending : ℕ)
  | reserving (request : Request) (rest : List Request)
  | releasing (request : Request) (rest : List Request) (admission : Admission)
  | transforming (request : Request) (rest : List Request) (reserved : Bool)
  | adding
  | waiting (processed : List ProcessedRequest)
  | settling (processed : List ProcessedRequest)
  | dropping
  | finished

/-- A call of `send`. -/
structure Sender where
  forefront : Bool
  drafts : List Draft
  added : List ProcessedRequest
  skipped : List (String × SkipReason)
  phase : Phase

structure State where
  /-- `enqueue_admissions` -/
  counter : ℕ
  /-- The call that holds `enqueue_admission`. -/
  lock : Option ℕ
  /-- How many reservations have been committed; no step reads it. -/
  committed : ℕ
  senders : List Sender

inductive Action where
  | choose
  | lock
  | handledCount (reply : StorageResult ℕ)
  | pendingCount (reply : StorageResult ℕ)
  | synchronize
  | reserve
  | release
  | transform (result : TransformResult) (request : Request)
  | addBatch (reply : StorageResult (List ProcessedRequest))
  | wait
  | settle
  | drop
  | giveUp

def start : State := { counter := 0, lock := none, committed := 0, senders := [] }

def Sender.skip (sender : Sender) (request : Request) (reason : SkipReason) : Sender :=
  { sender with skipped := sender.skipped ++ [(request.url.serialization, reason)] }

def choose (policy : CrawlPolicy) (sender : Sender) : List Request → Sender
  | [] => { sender with phase := .adding }
  | request :: rest =>
    match policy.maxCrawlDepth.filter fun limit => decide (limit < request.crawlDepth) with
    | some limit =>
      { sender.skip request (.maxDepthExceeded request.crawlDepth limit) with
        phase := .choosing rest }
    | none =>
      if policy.maxRequestsPerCrawl.isSome then { sender with phase := .locking request rest }
      else { sender with phase := .transforming request rest false }

/-- `reserve_request_slot` has returned. -/
def released (policy : CrawlPolicy) (sender : Sender) (request : Request) (rest : List Request) :
    Admission → Sender
  | .reserved => { sender with phase := .transforming request rest true }
  | .untracked => { sender with phase := .transforming request rest false }
  | .rejected =>
    { sender.skip request (.maxRequestsReached (policy.maxRequestsPerCrawl.getD 0)) with
      phase := .choosing rest }

/-- The reservations that a call still holds, the request at hand included. -/
def Sender.unwound (sender : Sender) : List Draft :=
  match sender.phase with
  | .releasing request _ .reserved => sender.drafts ++ [{ request, reserved := true }]
  | .transforming request _ reserved => sender.drafts ++ [{ request, reserved }]
  | _ => sender.drafts

def Phase.fallible : Phase → Bool
  | .locking _ _ | .counting _ _ | .countingPending _ _ _ | .synchronizing _ _ _ _
  | .reserving _ _ | .transforming _ _ _ | .adding | .waiting _ => true
  | _ => false

def Phase.admitting : Phase → Bool
  | .counting _ _ | .countingPending _ _ _ | .synchronizing _ _ _ _ | .reserving _ _
  | .releasing _ _ _ => true
  | _ => false

/-- What one step of a call does to the counter, to the lock and to the number of committed
reservations, and the call after it. -/
structure Effect where
  counter : ℕ
  lock : Option ℕ
  committed : ℕ
  sender : Sender

def State.after (s : State) (i : ℕ) (effect : Effect) : State where
  counter := effect.counter
  lock := effect.lock
  committed := effect.committed
  senders := s.senders.set i effect.sender

def giveBack (reserved : Bool) (counter : ℕ) : ℕ := if reserved then fetchSub counter else counter

/-- The reservation for the next processed request is committed, or given back if the queue
knew the request. -/
def settle (s : State) (sender : Sender) (info : ProcessedRequest)
    (processed : List ProcessedRequest) : Effect :=
  let draft := sender.drafts.head?
  let reserved := draft.any Draft.reserved
  let rest := { sender with drafts := sender.drafts.tail, phase := .settling processed }
  if info.wasAlreadyPresent || info.wasAlreadyHandled then
    let url := (draft.map fun d => d.request.url.serialization).getD info.uniqueKey
    ⟨giveBack reserved s.counter, s.lock, s.committed,
      { rest with skipped := sender.skipped ++ [(url, .duplicateUniqueKey)] }⟩
  else
    ⟨s.counter, s.lock, s.committed + reserved.toNat, { rest with added := sender.added ++ [info] }⟩

def act (policy : CrawlPolicy) (s : State) (i : ℕ) (sender : Sender) :
    Action → Option Effect
  | .choose =>
    match sender.phase with
    | .choosing rest => some ⟨s.counter, s.lock, s.committed, choose policy sender rest⟩
    | _ => none
  | .lock =>
    match sender.phase, s.lock with
    | .locking request rest, none =>
      some ⟨s.counter, some i, s.committed, { sender with phase := .counting request rest }⟩
    | _, _ => none
  | .handledCount reply =>
    match sender.phase with
    | .counting request rest =>
      let phase := match reply with
        | .ok handled => .countingPending request rest handled
        | .error _ => .releasing request rest .untracked
      some ⟨s.counter, s.lock, s.committed, { sender with phase }⟩
    | _ => none
  | .pendingCount reply =>
    match sender.phase with
    | .countingPending request rest handled =>
      let phase := match reply with
        | .ok pending => .synchronizing request rest handled pending
        | .error _ => .releasing request rest .untracked
      some ⟨s.counter, s.lock, s.committed, { sender with phase }⟩
    | _ => none
  | .synchronize =>
    match sender.phase with
    | .synchronizing request rest handled pending =>
      let admitted := max s.counter (saturatingAdd handled pending)
      let phase := if policy.maxRequestsPerCrawl.any fun limit => decide (limit ≤ admitted) then
          .releasing request rest .rejected
        else .reserving request rest
      some ⟨admitted, s.lock, s.committed, { sender with phase }⟩
    | _ => none
  | .reserve =>
    match sender.phase with
    | .reserving request rest =>
      some ⟨fetchAdd s.counter, s.lock, s.committed,
        { sender with phase := .releasing request rest .reserved }⟩
    | _ => none
  | .release =>
    match sender.phase with
    | .releasing request rest admission =>
      some ⟨s.counter, none, s.committed, released policy sender request rest admission⟩
    | _ => none
  | .transform result request =>
    match sender.phase with
    | .transforming candidate rest reserved =>
      match result with
      | .enqueue =>
        some ⟨s.counter, s.lock, s.committed,
          { sender with drafts := sender.drafts ++ [{ request, reserved }],
                        phase := .choosing rest }⟩
      | .skip reason =>
        some ⟨giveBack reserved s.counter, s.lock, s.committed,
          { sender.skip candidate (.transformRejected reason) with phase := .choosing rest }⟩
    | _ => none
  | .addBatch reply =>
    match sender.phase with
    | .adding =>
      let phase := match reply with
        | .ok processed => .waiting processed
        | .error _ => .dropping
      some ⟨s.counter, s.lock, s.committed, { sender with phase }⟩
    | _ => none
  | .wait =>
    match sender.phase with
    | .waiting processed =>
      some ⟨s.counter, s.lock, s.committed, { sender with phase := .settling processed }⟩
    | _ => none
  | .settle =>
    match sender.phase with
    | .settling [] => some ⟨s.counter, s.lock, s.committed, { sender with phase := .dropping }⟩
    | .settling (info :: processed) => some (settle s sender info processed)
    | _ => none
  | .drop =>
    match sender.phase, sender.drafts with
    | .dropping, [] => some ⟨s.counter, s.lock, s.committed, { sender with phase := .finished }⟩
    | .dropping, draft :: drafts =>
      some ⟨giveBack draft.reserved s.counter, s.lock, s.committed, { sender with drafts }⟩
    | _, _ => none
  | .giveUp =>
    if sender.phase.fallible then
      some ⟨s.counter, if sender.phase.admitting then none else s.lock, s.committed,
        { sender with drafts := sender.unwound, phase := .dropping }⟩
    else none

inductive Event where
  /-- A new call, with the requests of its candidates. -/
  | send (candidates : List Request) (forefront : Bool)
  | act (i : ℕ) (action : Action)

def step (policy : CrawlPolicy) (s : State) : Event → Option State
  | .send candidates forefront =>
    some { s with senders := s.senders ++
      [{ forefront, drafts := [], added := [], skipped := [], phase := .choosing candidates }] }
  | .act i action =>
    match s.senders[i]? with
    | none => none
    | some sender =>
      (act policy s i sender action).map (s.after i)

end Millipede.Enqueue
