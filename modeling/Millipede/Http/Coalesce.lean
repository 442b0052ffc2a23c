import Millipede.Library.Machine
import Millipede.Library.OrderedMap
import Millipede.Library.Tasks
import Millipede.Request

/-!
# Joining requests in flight

`CoalescingClient::send`. The callers run side by side; a step of a caller makes one access
to what they share, the map of cells and the cells. A cell is a `OnceCell`: whoever holds it
runs its initializer, and when that caller is dropped another may take it. A future can be
dropped at its `await`s, and then its guard runs; between the answer of `inner.send` and the
return of the caller there is no `await`.
-/

namespace Millipede

inductive HttpClientErrorKind where
  | build
  | invalidRequest
  | connect
  | timeout
  | redirect
  | decode
  | io
  | other
  deriving DecidableEq, Repr

structure HttpClientError where
  kind : HttpClientErrorKind
  source : String
  deriving DecidableEq, Repr

def HttpClientErrorKind.text : HttpClientErrorKind → String
  | build => "failed to build HTTP client: "
  | invalidRequest => "invalid HTTP request: "
  | connect => "HTTP connection failed: "
  | timeout => "HTTP request timed out: "
  | redirect => "HTTP redirect failed: "
  | decode => "HTTP response decode failed: "
  | io => "HTTP I/O failed: "
  | other => "HTTP client error: "

def HttpClientError.toString (error : HttpClientError) : String := error.kind.text ++ error.source

/-- The jar is known by its address. The defaults are those of `HttpRequest::new`. -/
structure HttpRequest where
  url : Url
  method : String := "GET"
  headers : List (String × List UInt8) := []
  body : Option RequestBody := none
  cookieJar : Option ℕ := none
  proxy : Option Url := none
  timeout : Option Duration := none
  maxRedirects : ℕ := 10
  useHeaderGenerator : Bool := false
  sessionToken : Option String := none

structure CoalesceKey where
  uniqueKey : String
  proxy : Option String
  jar : Option ℕ
  deriving DecidableEq, Repr

namespace Coalesce

def coalesceKey (request : HttpRequest) : Option CoalesceKey :=
  if (request.method ≠ "GET" ∧ request.method ≠ "HEAD") ∨ request.body.isSome then none
  else some { uniqueKey := Request.computeUniqueKey request.url request.method none
              proxy := request.proxy.map Url.serialization
              jar := request.cookieJar }

variable {Response : Type}

abbrev Outcome (Response : Type) := Except HttpClientError Response
abbrev Shared (Response : Type) := Except String Response

/-- The result that the initializer leaves for the other callers. -/
def followerResult (result : Outcome Response) : Shared Response :=
  result.mapError HttpClientError.toString

def joined (result : Shared Response) : Outcome Response :=
  result.mapError fun message => ⟨.other, "coalesced request failed: " ++ message⟩

structure Cell (Response : Type) where
  /-- The key it was made for; no step reads it. -/
  key : CoalesceKey
  /-- The caller whose initializer runs. -/
  holder : Option ℕ
  value : Option (Shared Response)

inductive Phase (Response : Type) where
  /-- A request that is not coalesced has an `inner.send` of its own. -/
  | forwarding
  | lookingUp
  | waiting (cell : ℕ)
  | sending (cell : ℕ)
  | settling (cell : ℕ)
  /-- The guard is dropped; there is no result if the caller was cancelled. -/
  | leaving (cell : ℕ) (result : Option (Outcome Response))
  | removing (cell : ℕ) (result : Option (Outcome Response))
  | finished (cell : Option ℕ) (result : Option (Outcome Response))

/-- A call of `send`. -/
structure Caller (Response : Type) where
  request : HttpRequest
  active : Bool
  leaderResult : Option (Outcome Response)
  phase : Phase Response

structure State (Response : Type) where
  inFlight : HashMap CoalesceKey ℕ
  cells : List (Cell Response)
  callers : List (Caller Response)

def start : State Response := { inFlight := ∅, cells := [], callers := [] }

inductive Action (Response : Type) where
  | lookUp
  | acquire
  | join
  | answer (outcome : Outcome Response)
  | settle
  | leave
  | remove
  | cancel

inductive Event (Response : Type) where
  | send (request : HttpRequest)
  | act (i : ℕ) (action : Action Response)

structure Effect (Response : Type) where
  inFlight : HashMap CoalesceKey ℕ
  cells : List (Cell Response)
  caller : Caller Response

def State.after (s : State Response) (i : ℕ) (effect : Effect Response) : State Response where
  inFlight := effect.inFlight
  cells := effect.cells
  callers := s.callers.set i effect.caller

def State.quiet (s : State Response) (caller : Caller Response) : Effect Response :=
  ⟨s.inFlight, s.cells, caller⟩

def lookUp (s : State Response) (caller : Caller Response) (key : CoalesceKey) : Effect Response :=
  match s.inFlight.lookup key with
  | some cell => s.quiet { caller with phase := .waiting cell }
  | none =>
    ⟨s.inFlight.insert key s.cells.length, s.cells ++ [{ key, holder := none, value := none }],
      { caller with phase := .waiting s.cells.length }⟩

/-- The last part of the guard's `drop`, under the lock. -/
def remove (s : State Response) (caller : Caller Response) (cell : ℕ)
    (result : Option (Outcome Response)) : Effect Response :=
  let caller := { caller with phase := .finished (some cell) result }
  match coalesceKey caller.request with
  | none => s.quiet caller
  | some key =>
    if s.inFlight.lookup key = some cell then ⟨s.inFlight.erase key, s.cells, caller⟩
    else s.quiet caller

def act (s : State Response) (i : ℕ) (caller : Caller Response) :
    Action Response → Option (Effect Response)
  | .lookUp =>
    match caller.phase, coalesceKey caller.request with
    | .lookingUp, some key => some (lookUp s caller key)
    | _, _ => none
  | .acquire =>
    match caller.phase with
    | .waiting c =>
      match s.cells[c]? with
      | some ⟨key, none, none⟩ =>
        some ⟨s.inFlight, s.cells.set c ⟨key, some i, none⟩,
          { caller with active := true, phase := .sending c }⟩
      | _ => none
    | _ => none
  | .join =>
    match caller.phase with
    | .waiting c =>
      match s.cells[c]? with
      | some ⟨_, _, some value⟩ =>
        some (s.quiet { caller with phase := .leaving c (some (joined value)) })
      | _ => none
    | _ => none
  | .answer outcome =>
    match caller.phase with
    | .forwarding => some (s.quiet { caller with phase := .finished none (some outcome) })
    | .sending c =>
      some (s.quiet { caller with leaderResult := some outcome, phase := .settling c })
    | _ => none
  | .settle =>
    match caller.phase, caller.leaderResult with
    | .settling c, some outcome =>
      match s.cells[c]? with
      | some cell =>
        some ⟨s.inFlight, s.cells.set c ⟨cell.key, none, some (followerResult outcome)⟩,
          { caller with phase := .leaving c (some outcome) }⟩
      | none => none
    | _, _ => none
  | .leave =>
    match caller.phase with
    | .leaving c result =>
      if !caller.active || (s.cells[c]?.bind Cell.value).isNone then
        some (s.quiet { caller with phase := .finished (some c) result })
      else some (s.quiet { caller with phase := .removing c result })
    | _ => none
  | .remove =>
    match caller.phase with
    | .removing c result => some (remove s caller c result)
    | _ => none
  | .cancel =>
    match caller.phase with
    | .forwarding | .lookingUp => some (s.quiet { caller with phase := .finished none none })
    | .waiting c => some (s.quiet { caller with phase := .leaving c none })
    -- The initializer goes first and gives up the cell; then the guard is dropped.
    | .sending c =>
      match s.cells[c]? with
      | some cell =>
        some ⟨s.inFlight, s.cells.set c ⟨cell.key, none, cell.value⟩,
          { caller with phase := .leaving c none }⟩
      | none => none
    | _ => none

/-- A call that begins: a request without a key goes to `inner` at once. -/
def Caller.new (request : HttpRequest) : Caller Response where
  request := request
  active := false
  leaderResult := none
  phase := if (coalesceKey request).isSome then .lookingUp else .forwarding

def step (s : State Response) : Event Response → Option (State Response)
  | .send request => some { s with callers := s.callers ++ [.new request] }
  | .act i action =>
    match s.callers[i]? with
    | none => none
    | some caller => (act s i caller action).map (s.after i)

end Coalesce

end Millipede
