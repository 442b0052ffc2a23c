import Mathlib.Data.Finset.Card
import Millipede.Library.Firsts
import Millipede.Library.Machine
import Millipede.Request

/-!
# The sitemap request list

`SitemapRequestList`: a stack of sitemaps that are still to be read, the document that is
being read, and what has been seen and emitted. A call of `fetch_next` holds the lock and
goes round a loop; between two rounds nothing is kept outside of the state, so a call that is
dropped at an `await` leaves the state in which another call goes on. A turn is one round, and
what the server and the store answer is its input. A document is the sequence of events that
its parser sends.
-/

namespace Millipede.Sitemap

/-- The `url` crate: a parsed URL is written so that it is parsed again as the same URL. -/
class UrlText (Url : Type) where
  parse : String → Option Url
  asStr : Url → String
  parse_asStr : ∀ url, parse (asStr url) = some url

open UrlText

inductive SitemapEvent where
  | entry (loc : String)
  | nested (location : String)

inductive SitemapParseError where
  | xml
  | body

abbrev EventResult := Except SitemapParseError SitemapEvent

def maxDepth : ℕ := 5

def autoPersistInterval : ℕ := 100

structure PendingSitemap (Url : Type) where
  url : Url
  depth : ℕ

structure ActiveSitemap (Url : Type) where
  pending : PendingSitemap Url
  /-- What the receiver will get. -/
  events : List EventResult
  entriesSeen : ℕ
  skipEntries : ℕ
  nested : List (PendingSitemap Url)

/-- A GET request of crawl depth zero. -/
structure SitemapRequest (Url : Type) where
  url : Url
  label : Option String
  userData : List (String × Json)

structure SitemapRequestListBuilder (Url : Type) where
  sitemapUrls : List Url
  persistence : Bool
  label : Option String
  userData : List (String × Json)
  limit : Option ℕ

structure State (Url : Type) where
  roots : List Url
  persistence : Bool
  label : Option String
  userData : List (String × Json)
  limit : Option ℕ
  /-- A stack, its top first. -/
  pending : List (PendingSitemap Url)
  completed : Finset String
  completedFailures : Finset String
  seenSitemaps : Finset String
  emittedUrls : Finset String
  current : Option (ActiveSitemap Url)
  emittedTotal : ℕ
  loaded : Bool
  finished : Bool
  successfulRoots : Finset String
  failedRoots : Finset String
  resumeSkip : Option ℕ
  pendingEmission : Option (SitemapRequest Url)

structure PersistedState where
  version : ℕ
  completed : Finset String
  completedFailures : Finset String
  inProgress : Option String
  inProgressDepth : Option ℕ
  emittedInProgress : ℕ
  /-- The top of the stack first. -/
  pending : List String
  pendingDepths : HashMap String ℕ
  emittedTotal : ℕ

variable {Url : Type} [UrlText Url]

def PendingSitemap.key (p : PendingSitemap Url) : String := asStr p.url

def keys (l : List (PendingSitemap Url)) : Finset String := (l.map PendingSitemap.key).toFinset

def SitemapRequestListBuilder.build (b : SitemapRequestListBuilder Url) : Option (State Url) :=
  if b.sitemapUrls.isEmpty then none
  else
    let roots := b.sitemapUrls.firsts asStr ∅
    some {
      roots
      persistence := b.persistence
      label := b.label
      userData := b.userData
      limit := b.limit
      pending := roots.map fun url => { url, depth := 0 }
      completed := ∅
      completedFailures := ∅
      seenSitemaps := (roots.map asStr).toFinset
      emittedUrls := ∅
      current := none
      emittedTotal := 0
      loaded := false
      finished := false
      successfulRoots := ∅
      failedRoots := ∅
      resumeSkip := none
      pendingEmission := none }

section Persistence
variable [DecidableEq Url]

def State.depthOf (s : State Url) (url : Url) : ℕ := if url ∈ s.roots then 0 else 1

/-- The saved stack, with the sitemap in progress on top. -/
def State.restoreStack (s : State Url) (saved : PersistedState) : List (PendingSitemap Url) :=
  let pending := (saved.pending.filterMap parse).map fun url =>
    { url, depth := (saved.pendingDepths.lookup (asStr url)).getD (s.depthOf url) }
  match saved.inProgress.bind parse with
  | some url => { url, depth := saved.inProgressDepth.getD (s.depthOf url) } :: pending
  | none => pending

def State.restore (s : State Url) (saved : PersistedState) : State Url :=
  let pending := s.restoreStack saved
  let done := s.roots.filter fun root => decide (asStr root ∈ saved.completed)
  let failed := done.filter fun root => decide (asStr root ∈ saved.completedFailures)
  let succeeded := done.filter fun root => decide (asStr root ∉ saved.completedFailures)
  { s with
    completed := saved.completed
    completedFailures := saved.completedFailures
    emittedTotal := saved.emittedTotal
    pending
    resumeSkip := if (saved.inProgress.bind fun text => (parse text : Option Url)).isSome then
      some saved.emittedInProgress else s.resumeSkip
    seenSitemaps := s.seenSitemaps ∪ saved.completed ∪ keys pending
    failedRoots := s.failedRoots ∪ (failed.map asStr).toFinset
    successfulRoots := s.successfulRoots ∪ (succeeded.map asStr).toFinset
    loaded := true }

/-- `load_persisted`, once the store has answered; a version that is not known is refused. -/
def State.loadPersisted (s : State Url) (stored : Option PersistedState) : Option (State Url) :=
  if s.loaded then some s
  else if s.persistence then
    match stored with
    | none => some { s with loaded := true }
    | some saved => if saved.version = 2 then some (s.restore saved) else none
  else some { s with loaded := true }

end Persistence

/-- A sitemap that was in progress in an earlier process and has not been opened again. -/
def State.stagedResume (s : State Url) : Option (PendingSitemap Url) :=
  if s.current.isNone && s.resumeSkip.isSome then s.pending.head? else none

def State.inProgress (s : State Url) : Option (PendingSitemap Url) :=
  (s.current.map ActiveSitemap.pending).or s.stagedResume

def State.waiting (s : State Url) : List (PendingSitemap Url) :=
  if s.stagedResume.isSome then s.pending.tail else s.pending

def State.persistSnapshot (s : State Url) (emittedTotal : ℕ) (includePendingEmission : Bool) :
    PersistedState :=
  { version := 2
    completed := s.completed
    completedFailures := s.completedFailures
    inProgress := s.inProgress.map PendingSitemap.key
    inProgressDepth := s.inProgress.map PendingSitemap.depth
    emittedInProgress :=
      match s.current with
      | none => s.resumeSkip.getD 0
      | some current =>
        if includePendingEmission then current.entriesSeen
        else current.entriesSeen - s.pendingEmission.isSome.toNat
    pending := s.waiting.map PendingSitemap.key
    pendingDepths := s.waiting.foldr (fun p depths => depths.insert p.key p.depth) ∅
    emittedTotal }

def State.persistNow (s : State Url) : PersistedState := s.persistSnapshot s.emittedTotal false

def State.limitReached (s : State Url) : Bool :=
  s.limit.any fun limit => decide (limit ≤ s.emittedTotal)

def State.isFinished (s : State Url) : Bool :=
  s.finished || s.limitReached ||
    s.current.isNone && s.pending.all fun p => decide (p.key ∈ s.completed)

def State.openStack (s : State Url) : List (PendingSitemap Url) :=
  s.pending.dropWhile fun p => decide (p.key ∈ s.completed)

def State.peeked (s : State Url) (p : PendingSitemap Url) (rest : List (PendingSitemap Url)) :
    State Url :=
  { s with pending := p :: rest, seenSitemaps := insert p.key s.seenSitemaps }

def State.peekPending (s : State Url) : State Url × Option (PendingSitemap Url) :=
  match s.openStack with
  | [] => ({ s with pending := [] }, none)
  | p :: rest => (s.peeked p rest, some p)

def State.opened (s : State Url) (p : PendingSitemap Url) (events : List EventResult) :
    State Url :=
  { s with
    pending := s.pending.tail
    resumeSkip := none
    successfulRoots := if p.depth = 0 then insert p.key s.successfulRoots else s.successfulRoots
    current := some {
      pending := p
      events
      entriesSeen := 0
      skipEntries := s.resumeSkip.getD 0
      nested := [] } }

def State.markFetchFailure (s : State Url) (p : PendingSitemap Url) : State Url :=
  { s with
    pending := s.pending.tail
    resumeSkip := none
    failedRoots := if p.depth = 0 then insert p.key s.failedRoots else s.failedRoots
    completedFailures := insert p.key s.completedFailures
    completed := insert p.key s.completed }

def State.completeCurrent (s : State Url) (current : ActiveSitemap Url) : State Url :=
  { s with
    current := none
    pending := current.nested ++ s.pending
    completedFailures := s.completedFailures.erase current.pending.key
    completed := insert current.pending.key s.completed }

/-- The children that the document has staged are forgotten. -/
def State.failCurrent (s : State Url) (current : ActiveSitemap Url) : State Url :=
  let key := current.pending.key
  { s with
    current := none
    seenSitemaps := s.seenSitemaps \ keys current.nested
    successfulRoots :=
      if current.pending.depth = 0 then s.successfulRoots.erase key else s.successfulRoots
    failedRoots := if current.pending.depth = 0 then insert key s.failedRoots else s.failedRoots
    completedFailures := insert key s.completedFailures
    completed := insert key s.completed }

def State.request (s : State Url) (url : Url) : SitemapRequest Url where
  url := url
  label := s.label
  userData := s.userData

def State.proceed (s : State Url) (current : ActiveSitemap Url) : State Url :=
  { s with current := some current }

def State.addEntry (s : State Url) (current : ActiveSitemap Url) (loc : String) : State Url :=
  match parse loc with
  | none => s.proceed current
  | some url =>
    if current.entriesSeen ≤ current.skipEntries then
      { s.proceed current with emittedUrls := insert (asStr url) s.emittedUrls }
    else if asStr url ∈ s.emittedUrls then s.proceed current
    else
      { s.proceed current with
        emittedUrls := insert (asStr url) s.emittedUrls
        pendingEmission := some (s.request url) }

section Turn
variable [DecidableEq Url]

def State.stage (s : State Url) (current : ActiveSitemap Url) (url : Url) : State Url :=
  let depth := if url ∈ s.roots then 0 else current.pending.depth + 1
  { s with
    seenSitemaps := insert (asStr url) s.seenSitemaps
    current := some { current with nested := current.nested ++ [{ url, depth }] } }

def State.addNested (s : State Url) (current : ActiveSitemap Url) (location : String) :
    State Url :=
  if maxDepth ≤ current.pending.depth then s.proceed current
  else
    match parse location with
    | none => s.proceed current
    | some url =>
      if asStr url ∈ s.seenSitemaps then s.proceed current else s.stage current url

def State.handle (s : State Url) (current : ActiveSitemap Url) : State Url :=
  match current.events with
  | .ok (.entry loc) :: events =>
    s.addEntry { current with events, entriesSeen := current.entriesSeen + 1 } loc
  | .ok (.nested location) :: events => s.addNested { current with events } location
  | .error .body :: _ => s.failCurrent current
  | .error .xml :: _ => s.completeCurrent current
  | [] => s.completeCurrent current

/-- What a round waits for: the document on top of the stack, or the store. `dropped` is the
drop of the call while it waits. -/
inductive Reply where
  | opened (events : List EventResult)
  | refused
  | dropped

inductive Outcome (Url : Type) where
  | goesOn
  | returned (request : Option (SitemapRequest Url))
  | failed
  | dropped

structure Turn (Url : Type) where
  list : State Url
  outcome : Outcome Url
  /-- What is written to the store. -/
  checkpoint : Option PersistedState

def State.goes (s : State Url) : Turn Url := ⟨s, .goesOn, none⟩

def State.saves (s : State Url) (autoPersist : Bool) : Turn Url :=
  ⟨s, .goesOn, if autoPersist && s.persistence then some s.persistNow else none⟩

/-- Every hundredth emission is saved before it is made. -/
def State.emissionCheckpoint (s : State Url) (autoPersist : Bool) : Option PersistedState :=
  if autoPersist && decide ((s.emittedTotal + 1) % autoPersistInterval = 0) && s.persistence then
    some (s.persistSnapshot (s.emittedTotal + 1) true)
  else none

def State.emitted (s : State Url) : State Url :=
  { s with emittedTotal := s.emittedTotal + 1, pendingEmission := none }

def State.emit (s : State Url) (autoPersist : Bool) (request : SitemapRequest Url) (reply : Reply) :
    Turn Url :=
  match reply with
  | .dropped => ⟨s, .dropped, s.emissionCheckpoint autoPersist⟩
  | _ => ⟨s.emitted, .returned (some request), s.emissionCheckpoint autoPersist⟩

def State.exhausted (s : State Url) : Turn Url :=
  let allFailed := !s.roots.isEmpty && decide (s.successfulRoots = ∅) &&
    decide (s.failedRoots.card = s.roots.length)
  ⟨{ s with finished := true }, if allFailed then .failed else .returned none, none⟩

def State.open (s : State Url) (autoPersist : Bool) (reply : Reply) : Turn Url :=
  match s.peekPending with
  | (s, none) => s.exhausted
  | (s, some p) =>
    match reply with
    | .opened events => (s.opened p events).goes
    | .refused => (s.markFetchFailure p).saves autoPersist
    | .dropped => ⟨s, .dropped, none⟩

def ActiveSitemap.ends (current : ActiveSitemap Url) : Bool :=
  match current.events with
  | .ok _ :: _ => false
  | _ => true

/-- The source goes on from `open` to the first event in the same round; nothing that it
tests at the start of a round has changed by then. -/
def State.turn (s : State Url) (autoPersist : Bool) (reply : Reply) : Turn Url :=
  if s.finished || s.limitReached then
    ⟨{ s with finished := true, current := none }, .returned none, none⟩
  else
    match s.pendingEmission with
    | some request => s.emit autoPersist request reply
    | none =>
      match s.current with
      | none => s.open autoPersist reply
      | some current =>
        if current.ends then (s.handle current).saves autoPersist else (s.handle current).goes

/-- A list, the store and what was done since the list was loaded. -/
structure World (Url : Type) where
  list : State Url
  stored : Option PersistedState
  /-- The list as it was loaded and what it was loaded from, what it has emitted since and the
  documents that became current; no step reads them. -/
  origin : State Url
  loadedFrom : Option PersistedState
  emitted : List (SitemapRequest Url)
  visited : List (PendingSitemap Url)

inductive Event where
  /-- A call begins: the store answers or not. -/
  | load (answered : Bool)
  | turn (autoPersist : Bool) (reply : Reply) (stored : Bool)
  | persist (stored : Bool)
  /-- A new process with the same builder, the limit apart. -/
  | restart (limit : Option ℕ)

def Outcome.emitted : Outcome Url → List (SitemapRequest Url)
  | .returned request => request.toList
  | _ => []

def State.visits (s t : State Url) : List (PendingSitemap Url) :=
  match s.current, t.current with
  | none, some current => [current.pending]
  | _, _ => []

def World.begin (list : State Url) (stored : Option PersistedState) : World Url where
  list := list
  stored := stored
  origin := list
  loadedFrom := none
  emitted := []
  visited := []

def step (b : SitemapRequestListBuilder Url) (w : World Url) : Event → Option (World Url)
  | .load answered =>
    if answered then
      (w.list.loadPersisted w.stored).map fun list =>
        if w.list.loaded then w
        else { w with
          list
          origin := list
          loadedFrom := if w.list.persistence then w.stored else none }
    else some w
  | .turn autoPersist reply stored =>
    if w.list.loaded then
      let result := w.list.turn autoPersist reply
      some { w with
        list := result.list
        stored := if stored then result.checkpoint.or w.stored else w.stored
        emitted := w.emitted ++ result.outcome.emitted
        visited := w.visited ++ w.list.visits result.list }
    else none
  | .persist stored =>
    if w.list.loaded then
      some { w with
        stored := if stored && w.list.persistence then some w.list.persistNow else w.stored }
    else none
  | .restart limit => { b with limit }.build.map fun list => .begin list w.stored

end Turn

end Millipede.Sitemap
