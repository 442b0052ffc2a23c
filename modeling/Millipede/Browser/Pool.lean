import Millipede.Library.Keyed
import Millipede.Library.Machine
import Millipede.Library.OrderedMap
import Millipede.Library.Tasks

/-!
# The browser pool

`BrowserPool`: the calls of `new_page`, `PageHandle::close` and `shutdown`, the background
worker and the tasks that the guards spawn, all as tasks that run side by side. A phase is
a point at which a task can be interrupted by others, so a step is one critical section of
the state lock or one access to a notification, a channel or an atomic. What the provider,
the hooks and the clock decide is the action of the step: `fail` is an error or a deadline
that has passed, `cancel` the drop of the task at its `await`, `spawn` a `try_lock` that
found the lock taken. Cancellations are inside a runtime. Browsers and proxies are not
followed: a slot has a browser or not. A page is known by the call that created it.
-/

namespace Millipede.BrowserPool

def u64 : ℕ := 2 ^ 64

abbrev BrowserId := ℕ
abbrev PageId := ℕ

structure BrowserPoolOptions where
  maxOpenPagesPerBrowser : ℕ
  retireBrowserAfterPageCount : ℕ
  maxBrowsers : Option ℕ

structure BrowserSlot where
  id : BrowserId
  browser : Bool
  openPages : ℕ
  inFlightPages : ℕ
  pagesCreated : ℕ
  launching : Bool
  retired : Bool

structure PageEntry where
  page : ℕ
  browserId : BrowserId
  closing : Bool

structure PoolState where
  browsers : List BrowserSlot
  pages : HashMap PageId PageEntry
  nextBrowserId : BrowserId
  shutDown : Bool

inductive CloseCommand where
  | page (id : PageId)
  | finalize
  | barrier
  | stop
  deriving DecidableEq

inductive CloseState where
  | opened
  | closing
  | closed
  deriving DecidableEq

/-- `HandleShared`; it is dropped with the last clone of the handle. -/
structure Handle where
  id : PageId
  /-- The page and its browser; no step reads them. -/
  page : ℕ
  browserId : BrowserId
  closeState : CloseState
  dropped : Bool

inductive Receiver where
  | unclaimed
  | worker
  | gone
  deriving DecidableEq

structure Shared where
  pool : PoolState
  handles : List Handle
  commands : List CloseCommand
  receiver : Receiver
  /-- Some `BrowserPool` exists. -/
  owned : Bool
  /-- `NEXT_PAGE_ID`, of the whole process. -/
  nextPageId : PageId
  /-- How many browsers were to be launched, and how many page ids were taken; no step reads
  them. -/
  launched : ℕ
  issued : ℕ
  /-- The registered pages for which `provider.close_page` was called, and those for which an
  `open_pages` was decremented; no step reads them. -/
  closeCalls : List ℕ
  released : List (ℕ × BrowserId)

inductive Phase where
  -- `acquire_page`
  | enabling
  | choosing (notified : Bool)
  | parked (notified : Bool)
  | launching (id : BrowserId)
  | installing (id : BrowserId)
  | installed
  | discarding (id : BrowserId)
  | unlisting (id : BrowserId)
  | unlisted
  | creating (id : BrowserId)
  | preparing (id : BrowserId)
  | rejecting (id : BrowserId)
  | numbering (id : BrowserId)
  | registering (id : BrowserId) (pageId : PageId)
  | refusing (id : BrowserId)
  -- `LaunchGuard`
  | abandoning (id : BrowserId)
  | cleaning (id : BrowserId)
  | cleaned
  -- `PageReservationGuard`
  | undoing (id : BrowserId)
  | rollingBack (id : BrowserId)
  | rolledBack (taken : Bool)
  -- `close_page`
  | entering (id : PageId)
  | waiting (id : PageId) (notified : Bool)
  | preClosing (id : PageId) (entry : PageEntry)
  | closing (id : PageId) (entry : PageEntry)
  | finishing (id : PageId) (entry : PageEntry) (result : Bool)
  | finished (id : PageId) (taken result : Bool)
  | telling (id : PageId) (taken result : Bool)
  | closingBrowser (result : Bool)
  -- `PageCloseGuard`
  | unclosing (id : PageId)
  | resetting (id : PageId)
  | reset (id : PageId)
  -- `PageHandle::close` and the drop of the last handle
  | calling (handle : ℕ)
  | spawning (handle : ℕ)
  | joining (handle : ℕ) (task : ℕ)
  | releasing (handle : ℕ)
  | enqueueing (handle : ℕ)
  | finalizing
  -- the worker
  | receiving
  | busy (task : ℕ)
  -- `shutdown`
  | marking
  | marked
  | barring
  | barred
  | draining
  | looking (notified : Bool)
  | drainParked (notified : Bool)
  | collecting
  | spawningClosers (ids : List PageId)
  | joiningClosers
  | taking
  | closingBrowsers
  | stopping
  | stopped
  | done (result : Bool)

structure State where
  shared : Shared
  tasks : List Phase

def PoolState.new : PoolState :=
  { browsers := [], pages := ∅, nextBrowserId := 1, shutDown := false }

def start : State where
  shared := {
    pool := .new
    handles := []
    commands := []
    receiver := .unclaimed
    owned := true
    nextPageId := 1
    launched := 0
    issued := 0
    closeCalls := []
    released := [] }
  tasks := []

inductive Action where
  | run
  | fail
  | cancel
  | spawn
  deriving DecidableEq

inductive Wake where
  | nobody
  | capacity
  | closers (id : PageId)
  deriving DecidableEq

def Wake.apply : Wake → Phase → Phase
  | .capacity, .choosing _ => .choosing true
  | .capacity, .parked _ => .parked true
  | .capacity, .looking _ => .looking true
  | .capacity, .drainParked _ => .drainParked true
  | .closers id, .waiting other notified => .waiting other (notified || decide (other = id))
  | _, phase => phase

structure Effect where
  shared : Shared
  phase : Phase
  spawned : List Phase
  wake : Wake

def State.after (s : State) (i : ℕ) (effect : Effect) : State where
  shared := effect.shared
  tasks := (s.tasks.map effect.wake.apply).set i effect.phase ++ effect.spawned

def Shared.goes (s : Shared) (phase : Phase) : Effect := ⟨s, phase, [], .nobody⟩

def Shared.setPool (s : Shared) (pool : PoolState) : Shared := { s with pool }

section Critical
variable (opts : BrowserPoolOptions)

def BrowserSlot.available (slot : BrowserSlot) : Bool :=
  !slot.retired && !slot.launching && slot.browser &&
    decide (slot.openPages < opts.maxOpenPagesPerBrowser) &&
    decide (slot.pagesCreated < opts.retireBrowserAfterPageCount)

def BrowserSlot.reserve (slot : BrowserSlot) : BrowserSlot :=
  { slot with openPages := slot.openPages + 1
              inFlightPages := slot.inFlightPages + 1
              pagesCreated := slot.pagesCreated + 1 }

def BrowserSlot.isLive (slot : BrowserSlot) : Bool := slot.launching || slot.browser

def PoolState.launchAllowed (pool : PoolState) : Bool :=
  opts.maxBrowsers.all fun maximum => decide (pool.browsers.countP BrowserSlot.isLive < maximum)

def BrowserSlot.new (id : BrowserId) : BrowserSlot where
  id := id
  browser := false
  openPages := 0
  inFlightPages := 0
  pagesCreated := 0
  launching := true
  retired := false

def PoolState.slot (pool : PoolState) (id : BrowserId) : Option BrowserSlot :=
  pool.browsers.lookupBy BrowserSlot.id id

def PoolState.update (pool : PoolState) (id : BrowserId) (f : BrowserSlot → BrowserSlot) :
    PoolState :=
  { pool with browsers := pool.browsers.updateFirst (fun slot => decide (slot.id = id)) f }

def Shared.launch (s : Shared) : Shared :=
  { s with
    pool := { s.pool with
      browsers := s.pool.browsers ++ [.new s.pool.nextBrowserId]
      nextBrowserId := (s.pool.nextBrowserId + 1) % u64 }
    launched := s.launched + 1 }

/-- The choice of `acquire_page`. -/
def choose (s : Shared) (notified : Bool) : Effect :=
  if s.pool.shutDown then s.goes (.done false)
  else
    match s.pool.browsers.find? (BrowserSlot.available opts) with
    | some slot =>
      (s.setPool { s.pool with
        browsers := s.pool.browsers.updateFirst (BrowserSlot.available opts) .reserve }).goes
        (.creating slot.id)
    | none =>
      if s.pool.launchAllowed opts then s.launch.goes (.launching s.pool.nextBrowserId)
      else s.goes (.parked notified)

theorem choose_cases (s : Shared) (notified : Bool) :
    (s.pool.shutDown = true ∧ choose opts s notified = s.goes (.done false)) ∨
    (∃ slot, s.pool.browsers.find? (BrowserSlot.available opts) = some slot ∧
      choose opts s notified = (s.setPool { s.pool with
        browsers := s.pool.browsers.updateFirst (BrowserSlot.available opts) .reserve }).goes
        (.creating slot.id)) ∨
    (s.pool.launchAllowed opts = true ∧
      choose opts s notified = s.launch.goes (.launching s.pool.nextBrowserId)) ∨
    (s.pool.shutDown = false ∧ s.pool.browsers.find? (BrowserSlot.available opts) = none ∧
      s.pool.launchAllowed opts = false ∧ choose opts s notified = s.goes (.parked notified)) := by
  unfold choose
  by_cases hshut : s.pool.shutDown = true
  · exact .inl ⟨hshut, by rw [if_pos hshut]⟩
  · rw [if_neg hshut]
    cases hfind : s.pool.browsers.find? (BrowserSlot.available opts) with
    | some slot => exact .inr (.inl ⟨slot, rfl, rfl⟩)
    | none =>
      by_cases hallowed : s.pool.launchAllowed opts = true
      · exact .inr (.inr (.inl ⟨hallowed, by simp only [hallowed, if_true]⟩))
      · refine .inr (.inr (.inr ⟨by simpa using hshut, rfl, by simpa using hallowed, ?_⟩))
        simp only [hallowed, Bool.false_eq_true, if_false]

def BrowserSlot.install (slot : BrowserSlot) : BrowserSlot :=
  { slot with browser := true, launching := false }

def install (s : Shared) (id : BrowserId) : Effect :=
  if s.pool.shutDown then s.goes (.discarding id)
  else
    match s.pool.slot id with
    | some _ => (s.setPool (s.pool.update id .install)).goes .installed
    | none => s.goes (.discarding id)

/-- `retain(|slot| slot.id != id)` -/
def PoolState.unlist (pool : PoolState) (id : BrowserId) : PoolState :=
  { pool with browsers := pool.browsers.filter fun slot => decide (slot.id ≠ id) }

/-- `PageId::next` -/
def Shared.number (s : Shared) : Shared :=
  { s with nextPageId := (s.nextPageId + 1) % u64, issued := s.issued + 1 }

def BrowserSlot.register (slot : BrowserSlot) : BrowserSlot :=
  { slot with inFlightPages := slot.inFlightPages - 1 }

def register (s : Shared) (page : ℕ) (id : BrowserId) (pageId : PageId) : Effect :=
  if s.pool.shutDown then s.goes (.refusing id)
  else
    { shared := { s with
        pool := { s.pool.update id .register with
          pages := s.pool.pages.insert pageId { page, browserId := id, closing := false } }
        handles := s.handles ++
          [{ id := pageId, page, browserId := id, closeState := .opened, dropped := false }] }
      phase := .done true
      spawned := []
      wake := .nobody }

def BrowserSlot.rollBack (slot : BrowserSlot) : BrowserSlot :=
  { slot with
    openPages := slot.openPages - 1
    inFlightPages := slot.inFlightPages - 1
    pagesCreated := slot.pagesCreated - 1
    retired := decide (opts.retireBrowserAfterPageCount ≤ slot.pagesCreated - 1) }

def BrowserSlot.release (slot : BrowserSlot) : BrowserSlot :=
  { slot with
    openPages := slot.openPages - 1
    retired := slot.retired || decide (opts.retireBrowserAfterPageCount ≤ slot.pagesCreated) }

/-- The browser of a slot without pages that is retired, or of a pool that is shut down, is to
be taken out. -/
def BrowserSlot.isIdle (shutDown : Bool) (slot : BrowserSlot) : Bool :=
  decide (slot.openPages = 0) && (slot.retired || shutDown)

def BrowserSlot.retire (shutDown : Bool) (slot : BrowserSlot) : BrowserSlot :=
  if slot.isIdle shutDown then { slot with browser := false } else slot

def PoolState.takes (pool : PoolState) (id : BrowserId) (f : BrowserSlot → BrowserSlot) : Bool :=
  (pool.slot id).any fun slot => (f slot).isIdle pool.shutDown && (f slot).browser

def rollBack (s : Shared) (id : BrowserId) : Effect :=
  (s.setPool (s.pool.update id fun slot => (slot.rollBack opts).retire s.pool.shutDown)).goes
    (.rolledBack (s.pool.takes id (BrowserSlot.rollBack opts)))

def enter (s : Shared) (id : PageId) : Effect :=
  match s.pool.pages.lookup id with
  | none => s.goes (.done true)
  | some entry =>
    if entry.closing then s.goes (.waiting id false)
    else
      (s.setPool { s.pool with pages := s.pool.pages.insert id { entry with closing := true }
        }).goes (.preClosing id { entry with closing := true })

def finish (s : Shared) (id : PageId) (entry : PageEntry) (result : Bool) : Effect :=
  let pool := { s.pool with pages := s.pool.pages.erase id }
  { shared := { s with
      pool := pool.update entry.browserId fun slot => (slot.release opts).retire s.pool.shutDown
      released := s.released ++
        if (s.pool.slot entry.browserId).isSome then [(entry.page, entry.browserId)] else [] }
    phase := .finished id (s.pool.takes entry.browserId (BrowserSlot.release opts)) result
    spawned := []
    wake := .nobody }

/-- `entry.closing = false`, if the page is still there. -/
def PoolState.unclose (pool : PoolState) (id : PageId) : PoolState :=
  match pool.pages.lookup id with
  | none => pool
  | some entry => { pool with pages := pool.pages.insert id { entry with closing := false } }

def PoolState.takeIdle (pool : PoolState) : PoolState :=
  { pool with browsers := pool.browsers.map fun slot =>
      if slot.openPages = 0 ∧ slot.inFlightPages = 0 then { slot with browser := false } else slot }

def PoolState.takeAll (pool : PoolState) : PoolState :=
  if pool.pages.entries.isEmpty then
    { pool with browsers := pool.browsers.map fun slot => { slot with browser := false } }
  else pool

end Critical

def Shared.send (s : Shared) (command : CloseCommand) : Shared :=
  if s.receiver = .gone then s else { s with commands := s.commands ++ [command] }

def Shared.setCloseState (s : Shared) (handle : ℕ) (closeState : CloseState) : Shared :=
  { s with handles := s.handles.modify handle fun h => { h with closeState } }

def Shared.hangUp (s : Shared) : Shared := { s with receiver := .gone, commands := [] }

def Phase.isDone : Phase → Bool
  | .done _ => true
  | _ => false

/-- The worker alone holds the pool: `strong_count` is one. -/
def State.orphaned (s : State) (worker : ℕ) (rest : List CloseCommand) : Bool :=
  !s.shared.owned && s.shared.handles.all Handle.dropped &&
    (s.tasks.set worker (.done true)).all Phase.isDone &&
    rest.all fun command => decide (command = .barrier) || decide (command = .stop)

section Steps
variable (opts : BrowserPoolOptions)

def receive (s : State) (i : ℕ) : Option Effect :=
  match s.shared.commands with
  | [] => none
  | .page id :: rest =>
    some ⟨{ s.shared with commands := rest }, .busy s.tasks.length, [.entering id], .nobody⟩
  | .finalize :: rest =>
    let pool := if s.orphaned i rest then s.shared.pool.takeAll else s.shared.pool
    some ⟨{ s.shared with pool, commands := rest }, .receiving, [], .nobody⟩
  | .barrier :: rest => some ⟨{ s.shared with commands := rest }, .receiving, [], .nobody⟩
  | .stop :: _ => some ⟨s.shared.hangUp, .done true, [], .nobody⟩

def join (s : State) (handle task : ℕ) : Option Effect :=
  match s.tasks[task]? with
  | some (.done true) => some ((s.shared.setCloseState handle .closed).goes (.done true))
  | some (.done false) => some ((s.shared.setCloseState handle .opened).goes (.done false))
  | _ => none

def run (s : State) (i : ℕ) : Phase → Option Effect
  | .enabling => some (s.shared.goes (.choosing false))
  | .choosing notified => some (choose opts s.shared notified)
  | .parked true => some (s.shared.goes .enabling)
  | .launching id => some (s.shared.goes (.installing id))
  | .installing id => some (install s.shared id)
  | .installed => some ⟨s.shared, .enabling, [], .capacity⟩
  | .discarding id => some (s.shared.goes (.unlisting id))
  | .unlisting id => some ((s.shared.setPool (s.shared.pool.unlist id)).goes .unlisted)
  | .unlisted => some ⟨s.shared, .done false, [], .capacity⟩
  | .creating id => some (s.shared.goes (.preparing id))
  | .preparing id => some (s.shared.goes (.numbering id))
  | .rejecting id | .refusing id => some ⟨s.shared, .done false, [.rollingBack id], .nobody⟩
  | .numbering id => some (s.shared.number.goes (.registering id s.shared.nextPageId))
  | .registering id pageId => some (register s.shared i id pageId)
  | .abandoning id | .cleaning id =>
    some ((s.shared.setPool (s.shared.pool.unlist id)).goes .cleaned)
  | .cleaned => some ⟨s.shared, .done false, [], .capacity⟩
  | .undoing id => some (s.shared.goes (.rollingBack id))
  | .rollingBack id => some (rollBack opts s.shared id)
  | .rolledBack taken =>
    some ⟨s.shared, if taken then .closingBrowser true else .done true, [], .capacity⟩
  | .entering id => some (enter s.shared id)
  | .waiting id true => some (s.shared.goes (.entering id))
  | .preClosing id entry =>
    some (Shared.goes { s.shared with closeCalls := s.shared.closeCalls ++ [entry.page] }
      (.closing id entry))
  | .closing id entry => some (s.shared.goes (.finishing id entry true))
  | .finishing id entry result => some (finish opts s.shared id entry result)
  | .finished id taken result => some ⟨s.shared, .telling id taken result, [], .capacity⟩
  | .telling id taken result =>
    some ⟨s.shared, if taken then .closingBrowser result else .done result, [], .closers id⟩
  | .closingBrowser result => some (s.shared.goes (.done result))
  | .unclosing id | .resetting id =>
    some ((s.shared.setPool (s.shared.pool.unclose id)).goes (.reset id))
  | .reset id => some ⟨s.shared, .done false, [], .closers id⟩
  | .calling handle =>
    match s.shared.handles[handle]? with
    | some h =>
      if h.closeState = .opened then
        some ((s.shared.setCloseState handle .closing).goes (.spawning handle))
      else some (s.shared.goes (.done true))
    | none => none
  | .spawning handle =>
    s.shared.handles[handle]?.map fun h =>
      ⟨s.shared, .joining handle s.tasks.length, [.entering h.id], .nobody⟩
  | .joining handle task => join s handle task
  | .releasing handle =>
    s.shared.handles[handle]?.map fun h =>
      s.shared.goes (if h.closeState = .closed then .finalizing else .enqueueing handle)
  | .enqueueing handle =>
    s.shared.handles[handle]?.map fun h => (s.shared.send (.page h.id)).goes .finalizing
  | .finalizing => some ((s.shared.send .finalize).goes (.done true))
  | .receiving => receive s i
  | .busy task =>
    match s.tasks[task]? with
    | some (.done _) => some (s.shared.goes .receiving)
    | _ => none
  | .marking =>
    some ((s.shared.setPool { s.shared.pool with shutDown := true }).goes .marked)
  | .marked => some ⟨s.shared, .barring, [], .capacity⟩
  | .barring => some ((s.shared.send .barrier).goes .barred)
  | .barred => some (s.shared.goes .draining)
  | .draining => some (s.shared.goes (.looking false))
  | .looking notified =>
    let inFlight := s.shared.pool.browsers.any fun slot =>
      slot.launching || decide (slot.inFlightPages ≠ 0)
    some (s.shared.goes (if inFlight then .drainParked notified else .collecting))
  | .drainParked true => some (s.shared.goes .draining)
  | .collecting => some (s.shared.goes (.spawningClosers s.shared.pool.pages.keys))
  | .spawningClosers [] => some (s.shared.goes .joiningClosers)
  | .spawningClosers (id :: ids) =>
    some ⟨s.shared, .spawningClosers ids, [.entering id], .nobody⟩
  | .joiningClosers => some (s.shared.goes .taking)
  | .taking => some ((s.shared.setPool s.shared.pool.takeIdle).goes .closingBrowsers)
  | .closingBrowsers => some (s.shared.goes .stopping)
  | .stopping => some ((s.shared.send .stop).goes .stopped)
  | .stopped => some (s.shared.goes (.done true))
  | .parked false | .waiting _ false | .drainParked false | .done _ => none

/-- What a task awaits has failed, or its deadline has passed. -/
def fail (s : State) : Phase → Option Effect
  | .launching id => some (s.shared.goes (.abandoning id))
  | .creating id => some ⟨s.shared, .done false, [.rollingBack id], .nobody⟩
  | .preparing id => some (s.shared.goes (.rejecting id))
  | .closing id entry => some (s.shared.goes (.finishing id entry false))
  -- A hook after the close panics.
  | .telling id _ _ => some ⟨s.shared, .done false, [], .closers id⟩
  | .drainParked _ => some (s.shared.goes .collecting)
  | _ => none

/-- A task is dropped at its `await`, and its guard with it. -/
def cancel (s : State) : Phase → Option Effect
  | .choosing _ | .parked _ => some (s.shared.goes (.done false))
  | .launching id | .installing id | .discarding id | .unlisting id =>
    some (s.shared.goes (.abandoning id))
  | .creating id => some ⟨s.shared, .done false, [.rollingBack id], .nobody⟩
  | .preparing id | .rejecting id | .registering id _ | .refusing id =>
    some ⟨s.shared, .done false, [.undoing id], .nobody⟩
  | .entering _ | .waiting _ _ | .closingBrowser _ =>
    some (s.shared.goes (.done false))
  | .preClosing id _ | .closing id _ | .finishing id _ _ => some (s.shared.goes (.unclosing id))
  | .joining handle _ => some ((s.shared.setCloseState handle .opened).goes (.done false))
  | .receiving | .busy _ => some (s.shared.hangUp.goes (.done false))
  | .marking | .barred | .looking _ | .drainParked _ | .collecting | .joiningClosers | .taking
  | .closingBrowsers | .stopped => some (s.shared.goes (.done false))
  | _ => none

/-- A guard that could not take the lock leaves its work to a task. -/
def spawn (s : State) : Phase → Option Effect
  | .abandoning id => some ⟨s.shared, .done false, [.cleaning id], .nobody⟩
  | .unclosing id => some ⟨s.shared, .done false, [.resetting id], .nobody⟩
  | _ => none

def act (s : State) (i : ℕ) (phase : Phase) : Action → Option Effect
  | .run => run opts s i phase
  | .fail => fail s phase
  | .cancel => cancel s phase
  | .spawn => spawn s phase

inductive Event where
  | newPage
  | shutdown
  | close (handle : ℕ)
  | dropHandle (handle : ℕ)
  | dropPool
  /-- Another pool of the process takes a page id. -/
  | otherPage
  | act (i : ℕ) (action : Action)

def begin (s : State) (phase : Phase) : State where
  shared := { s.shared with
    receiver := if s.shared.receiver = .unclaimed then .worker else s.shared.receiver }
  tasks := s.tasks ++ (if s.shared.receiver = .unclaimed then [.receiving] else []) ++ [phase]

def Phase.uses (handle : ℕ) : Phase → Bool
  | .calling h | .spawning h | .joining h _ => decide (h = handle)
  | _ => false

def step (s : State) : Event → Option State
  | .newPage => if s.shared.owned then some (begin s .enabling) else none
  | .shutdown => if s.shared.owned then some (begin s .marking) else none
  | .close handle =>
    match s.shared.handles[handle]? with
    | some h => if h.dropped then none else some { s with tasks := s.tasks ++ [.calling handle] }
    | none => none
  | .dropHandle handle =>
    match s.shared.handles[handle]? with
    | some h =>
      if h.dropped || s.tasks.any (Phase.uses handle) then none
      else some {
        shared := { s.shared with
          handles := s.shared.handles.modify handle fun h => { h with dropped := true } }
        tasks := s.tasks ++ [.releasing handle] }
    | none => none
  | .dropPool => some { s with shared := { s.shared with owned := false } }
  | .otherPage => some { s with shared := s.shared.number }
  | .act i action =>
    match s.tasks[i]? with
    | none => none
    | some phase => (act opts s i phase action).map (s.after i)

end Steps

end Millipede.BrowserPool
