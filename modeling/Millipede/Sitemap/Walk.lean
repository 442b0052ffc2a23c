import Millipede.Sitemap.Snapshots

/-!
# The walk over the sitemaps

What a list reads does not depend on what it has emitted: it walks over the documents, depth
first, and enters a sitemap that was never named before. A list that is polled to its end
emits, of the entries that the walk reads, the first of each URL that it does not pass over,
up to its limit: it passes over what it has emitted and what stands in front of the cursor it was
resumed at.
-/

namespace Millipede.Sitemap

open UrlText

variable {Url : Type}

/-- A document that is being read: what is left of it and the sitemaps that it has named. -/
structure Visit (Url : Type) where
  sitemap : PendingSitemap Url
  left : List EventResult
  children : List (PendingSitemap Url)

structure Walk (Url : Type) where
  stack : List (PendingSitemap Url)
  known : Finset String
  visit : Option (Visit Url)

def ActiveSitemap.visit (current : ActiveSitemap Url) : Visit Url where
  sitemap := current.pending
  left := current.events
  children := current.nested

def State.walk (s : State Url) : Walk Url where
  stack := s.pending
  known := s.seenSitemaps
  visit := s.current.map ActiveSitemap.visit

theorem walk_visit_of_current {s : State Url} {current : ActiveSitemap Url}
    (h : s.current = some current) : s.walk.visit = some current.visit := by
  rw [State.walk, h]
  rfl

theorem walk_visit_of_none {s : State Url} (h : s.current = none) : s.walk.visit = none := by
  rw [State.walk, h]
  rfl

def State.within {α : Type} (s : State Url) (l : List α) : List α :=
  match s.limit with
  | none => l
  | some limit => l.take (limit - s.emittedTotal)

theorem within_of_limitReached {α : Type} {s : State Url} (h : s.limitReached = true) (l : List α) :
    s.within l = [] := by
  unfold State.limitReached at h
  unfold State.within
  cases hlimit : s.limit with
  | none =>
    rw [hlimit] at h
    cases h
  | some limit =>
    rw [hlimit] at h
    have hle : limit ≤ s.emittedTotal := of_decide_eq_true h
    simp only [Nat.sub_eq_zero_of_le hle, List.take_zero]

theorem within_cons {α : Type} {s : State Url} (h : s.limitReached = false) (a : α) (l : List α) :
    s.within (a :: l) = a :: s.emitted.within l := by
  unfold State.limitReached at h
  unfold State.within
  show _ = a :: match s.limit with | none => l | some limit => l.take (limit - (s.emittedTotal + 1))
  cases hlimit : s.limit with
  | none => rfl
  | some limit =>
    rw [hlimit] at h
    have hlt : s.emittedTotal < limit := Nat.lt_of_not_le (of_decide_eq_false h)
    obtain ⟨left, hleft⟩ : ∃ left, limit - s.emittedTotal = left + 1 :=
      ⟨limit - s.emittedTotal - 1, by omega⟩
    have hnext : limit - (s.emittedTotal + 1) = left := by omega
    simp only [hleft, hnext, List.take_succ_cons]

theorem within_of_no_limit {α : Type} {s : State Url} (h : s.limit = none) (l : List α) :
    s.within l = l := by
  rw [State.within, h]

theorem State.SameList.request {s t : State Url} (h : s.SameList t) : t.request = s.request := by
  funext url
  rw [State.request, State.request, h.label, h.userData]

theorem State.SameList.within {s t : State Url} (h : s.SameList t)
    (htotal : t.emittedTotal = s.emittedTotal) {α : Type} (l : List α) :
    t.within l = s.within l := by
  rw [State.within, State.within, h.limit, htotal]

def answer (docs : Url → Option (List EventResult)) (s : State Url) : Reply :=
  match s.pending.head?.bind fun p => docs p.url with
  | some events => .opened events
  | none => .refused

theorem answer_ne_dropped (docs : Url → Option (List EventResult)) (s : State Url) :
    answer docs s ≠ .dropped := by
  unfold answer
  split
  · intro h
    cases h
  · intro h
    cases h

variable [UrlText Url]

/-- The URLs of the first `n` entries of a document. -/
def entryKeys (Url : Type) [UrlText Url] : ℕ → List EventResult → Finset String
  | n + 1, .ok (.entry loc) :: events =>
    (parse loc : Option Url).elim (entryKeys Url n events) fun url =>
      insert (asStr url) (entryKeys Url n events)
  | n + 1, .ok (.nested _) :: events => entryKeys Url (n + 1) events
  | _, _ => ∅

theorem entryKeys_zero (events : List EventResult) : entryKeys Url 0 events = ∅ := by
  unfold entryKeys
  rfl

/-- What the list is still to read in front of the cursor it was resumed at. -/
def State.cursorKeys (docs : Url → Option (List EventResult)) (s : State Url) : Finset String :=
  match s.current with
  | some current =>
    entryKeys Url (current.skipEntries - current.entriesSeen) current.events
  | none => s.resumeSkip.elim ∅ fun n =>
    (s.pending.head?.bind fun p => docs p.url).elim ∅ (entryKeys Url n)

/-- The URLs that a list does not emit when it reads them. -/
def State.passedOver (docs : Url → Option (List EventResult)) (s : State Url) : Finset String :=
  s.emittedUrls ∪ s.cursorKeys docs

namespace Walk

def goesOn (w : Walk Url) (visit : Visit Url) : Walk Url := { w with visit := some visit }

/-- A sitemap is named: it is a child if it is new and not too deep. -/
def name (w : Walk Url) (visit : Visit Url) (location : String) : Walk Url :=
  if maxDepth ≤ visit.sitemap.depth then w.goesOn visit
  else
    match parse location with
    | none => w.goesOn visit
    | some url =>
      if asStr url ∈ w.known then w.goesOn visit
      else
        { w with
          known := insert (asStr url) w.known
          visit := some { visit with
            children := visit.children ++ [{ url, depth := visit.sitemap.depth + 1 }] } }

def read (w : Walk Url) (visit : Visit Url) : SitemapEvent → Walk Url
  | .entry _ => w.goesOn visit
  | .nested location => w.name visit location

/-- One step, where `docs` has the documents that are served. The children of a document whose
body fails are forgotten. -/
def next (docs : Url → Option (List EventResult)) (w : Walk Url) : Walk Url :=
  match w.visit with
  | some visit =>
    match visit.left with
    | .ok event :: left => w.read { visit with left } event
    | .error .body :: _ => { w with known := w.known \ keys visit.children, visit := none }
    | _ => { w with stack := visit.children ++ w.stack, visit := none }
  | none =>
    match w.stack with
    | [] => w
    | p :: rest =>
      match docs p.url with
      | some events => { w with stack := rest, visit := some ⟨p, events, []⟩ }
      | none => { w with stack := rest }

def entry (w : Walk Url) : Option Url :=
  w.visit.bind fun visit =>
    match visit.left with
    | .ok (.entry loc) :: _ => parse loc
    | _ => none

/-- The URLs that are read until the walk ends. -/
inductive Reads (docs : Url → Option (List EventResult)) : Walk Url → List Url → Prop
  | ends {w : Walk Url} : w.visit = none → w.stack = [] → Reads docs w []
  | goes {w : Walk Url} {urls : List Url} : (w.visit = none → w.stack ≠ []) →
      Reads docs (w.next docs) urls → Reads docs w (w.entry.toList ++ urls)

variable {docs : Url → Option (List EventResult)} {w : Walk Url} {urls : List Url}

theorem entry_of_no_visit (h : w.visit = none) : w.entry = none := by
  rw [Walk.entry, h]
  rfl

theorem next_of_no_visit (h : w.visit = none) {p : PendingSitemap Url}
    {rest : List (PendingSitemap Url)} (hstack : w.stack = p :: rest) :
    w.next docs = { w with
      stack := rest
      visit := (docs p.url).map fun events => ⟨p, events, []⟩ } := by
  unfold Walk.next
  simp only [h, hstack]
  cases docs p.url with
  | none => rfl
  | some events => rfl

theorem Reads.eq_nil (h : Reads docs w urls) (hvisit : w.visit = none) (hstack : w.stack = []) :
    urls = [] := by
  cases h with
  | ends _ _ => rfl
  | goes hmore _ => exact absurd hstack (hmore hvisit)

theorem Reads.exists_next (h : Reads docs w urls) (hmore : w.visit = none → w.stack ≠ []) :
    ∃ rest, urls = w.entry.toList ++ rest ∧ Reads docs (w.next docs) rest := by
  cases h with
  | ends hvisit hstack => exact absurd hstack (hmore hvisit)
  | @goes _ rest _ hrest => exact ⟨rest, rfl, hrest⟩

end Walk

variable {s : State Url} {current : ActiveSitemap Url} {docs : Url → Option (List EventResult)}

theorem addEntry_walk (loc : String) :
    (s.addEntry current loc).walk = s.walk.goesOn current.visit := by
  unfold State.addEntry
  split
  · rfl
  · split_ifs
    · rfl
    · rfl
    · rfl

theorem Sound.entered_walk {result : Turn Url} (hs : Sound s) {p : PendingSitemap Url}
    {rest : List (PendingSitemap Url)} (hcurrent : s.current = none)
    (hstack : s.pending = p :: rest)
    (hserved : ∀ events, docs p.url = some events →
      result.list = (s.peeked p rest).opened p events)
    (hrefused : docs p.url = none → result.list = (s.peeked p rest).markFetchFailure p) :
    result.list.walk = s.walk.next docs := by
  have hseen : insert p.key s.seenSitemaps = s.seenSitemaps := by
    refine Finset.insert_eq_of_mem (hs.seen_scheduled p ?_)
    rw [scheduled_of_none hcurrent, hstack]
    exact List.mem_cons_self
  rw [Walk.next_of_no_visit (walk_visit_of_none hcurrent) (hstack : s.walk.stack = p :: rest)]
  cases hdoc : docs p.url with
  | none =>
    rw [hrefused hdoc]
    simp [State.walk, State.markFetchFailure, State.peeked, hseen, hcurrent]
  | some events =>
    rw [hserved events hdoc]
    simp [State.walk, State.opened, State.peeked, hseen, ActiveSitemap.visit]

theorem passedOver_of_current (docs : Url → Option (List EventResult))
    (h : s.current = some current) : s.passedOver docs = s.emittedUrls ∪
      entryKeys Url (current.skipEntries - current.entriesSeen) current.events := by
  rw [State.passedOver, State.cursorKeys, h]

theorem passedOver_of_none (docs : Url → Option (List EventResult)) (h : s.current = none)
    (hresume : s.resumeSkip = none) : s.passedOver docs = s.emittedUrls := by
  rw [State.passedOver, State.cursorKeys, h, hresume]
  exact Finset.union_empty _

theorem Sound.resume_of_current (h : Sound s) (hcurrent : s.current = some current) :
    s.resumeSkip = none := by
  by_contra hsome
  rw [(h.resume hsome).1] at hcurrent
  cases hcurrent

theorem entryKeys_of_ends (h : current.ends = true) (n : ℕ) :
    entryKeys Url n current.events = ∅ := by
  unfold ActiveSitemap.ends at h
  split at h
  · cases h
  · next hok =>
    unfold entryKeys
    split
    · next heq => exact absurd heq (hok _ _)
    · next heq => exact absurd heq (hok _ _)
    · rfl

theorem walk_entry_of_ends (hcurrent : s.current = some current) (h : current.ends = true) :
    s.walk.entry = none := by
  have hleft : current.visit.left = current.events := rfl
  rw [Walk.entry, walk_visit_of_current hcurrent, Option.bind_some, hleft]
  unfold ActiveSitemap.ends at h
  split at h
  · cases h
  · next hok =>
    split
    · next heq => exact absurd heq (hok _ _)
    · rfl

theorem addEntry_current (loc : String) : (s.addEntry current loc).current = some current := by
  unfold State.addEntry
  split
  · rfl
  · split_ifs
    · rfl
    · rfl
    · rfl

theorem addEntry_emittedUrls (loc : String) :
    (s.addEntry current loc).emittedUrls =
      (parse loc : Option Url).elim s.emittedUrls fun url => insert (asStr url) s.emittedUrls := by
  unfold State.addEntry
  cases hurl : (parse loc : Option Url) with
  | none => rfl
  | some url =>
    simp only [Option.elim_some]
    split_ifs with hcursor hknown
    · rfl
    · exact (Finset.insert_eq_of_mem hknown).symm
    · rfl

theorem addEntry_behind (hcursor : current.entriesSeen ≤ current.skipEntries) (loc : String) :
    (s.addEntry current loc).pendingEmission = s.pendingEmission := by
  unfold State.addEntry
  cases hurl : (parse loc : Option Url) with
  | none => rfl
  | some url =>
    simp only [if_pos hcursor]
    rfl

theorem addEntry_beyond (hcursor : ¬ current.entriesSeen ≤ current.skipEntries)
    (hemission : s.pendingEmission = none) (loc : String) :
    (s.addEntry current loc).pendingEmission =
      ((parse loc).filter fun url => decide (asStr url ∉ s.emittedUrls)).map s.request := by
  unfold State.addEntry
  cases hurl : (parse loc : Option Url) with
  | none => exact hemission
  | some url =>
    simp only [if_neg hcursor]
    by_cases hknown : asStr url ∈ s.emittedUrls
    · rw [if_pos hknown, Option.filter_some, decide_eq_false (not_not_intro hknown)]
      exact hemission
    · rw [if_neg hknown, Option.filter_some, decide_eq_true hknown]
      rfl

/-- An entry is emitted if the list does not pass its URL over, and then it passes it over. -/
theorem addEntry_passes (docs : Url → Option (List EventResult)) {loc : String}
    {events : List EventResult} (hcurrent : s.current = some current)
    (hevents : current.events = .ok (.entry loc) :: events) (hemission : s.pendingEmission = none)
    {next : State Url} (hnext : next = s.addEntry { current with
      events
      entriesSeen := current.entriesSeen + 1 } loc) :
    next.pendingEmission = ((parse loc).filter fun url =>
        decide (asStr url ∉ s.passedOver docs)).map s.request ∧
      next.passedOver docs = (parse loc : Option Url).elim (s.passedOver docs) fun url =>
        insert (asStr url) (s.passedOver docs) := by
  subst hnext
  have hpassed := passedOver_of_current docs hcurrent
  rw [hevents] at hpassed
  rw [passedOver_of_current docs (addEntry_current loc), addEntry_emittedUrls]
  by_cases hcursor : current.entriesSeen + 1 ≤ current.skipEntries
  · obtain ⟨n, hn⟩ : ∃ n, current.skipEntries - current.entriesSeen = n + 1 :=
      ⟨current.skipEntries - current.entriesSeen - 1, by omega⟩
    have hafter : current.skipEntries - (current.entriesSeen + 1) = n := by omega
    rw [hn, entryKeys] at hpassed
    rw [addEntry_behind hcursor, hemission, hafter]
    cases hurl : (parse loc : Option Url) with
    | none =>
      rw [hurl] at hpassed
      exact ⟨rfl, hpassed.symm⟩
    | some url =>
      rw [hurl, Option.elim_some] at hpassed
      have hknown : asStr url ∈ s.passedOver docs := by
        rw [hpassed]
        exact Finset.mem_union_right _ (Finset.mem_insert_self _ _)
      rw [Option.filter_some, decide_eq_false (not_not_intro hknown), Option.elim_some,
        Option.elim_some, Finset.insert_eq_of_mem hknown, hpassed]
      exact ⟨rfl, Finset.insert_union_comm _ _ _⟩
  · have hbefore : current.skipEntries - current.entriesSeen = 0 := by omega
    have hafter : current.skipEntries - (current.entriesSeen + 1) = 0 := by omega
    rw [hbefore, entryKeys_zero, Finset.union_empty] at hpassed
    rw [addEntry_beyond hcursor hemission, hafter, entryKeys_zero, Finset.union_empty, hpassed]
    exact ⟨rfl, rfl⟩

theorem entered_passes (docs : Url → Option (List EventResult)) {t : State Url}
    {p : PendingSitemap Url} {rest : List (PendingSitemap Url)} (hcurrent : s.current = none)
    (hstack : s.pending = p :: rest)
    (hserved : ∀ events, docs p.url = some events → t = (s.peeked p rest).opened p events)
    (hrefused : docs p.url = none → t = (s.peeked p rest).markFetchFailure p) :
    t.finished = s.finished ∧ t.pendingEmission = s.pendingEmission ∧
      t.passedOver docs = s.passedOver docs ∧ t.emittedTotal = s.emittedTotal := by
  have hpassed : s.passedOver docs = s.emittedUrls ∪ s.resumeSkip.elim ∅ fun n =>
      (docs p.url).elim ∅ (entryKeys Url n) := by
    rw [State.passedOver, State.cursorKeys, hcurrent, hstack]
    rfl
  rw [hpassed]
  cases hdoc : docs p.url with
  | some events =>
    rw [hserved events hdoc]
    refine ⟨rfl, rfl, ?_, rfl⟩
    rw [passedOver_of_current docs rfl]
    show s.emittedUrls ∪ entryKeys Url (s.resumeSkip.getD 0 - 0) events = _
    cases s.resumeSkip with
    | none => rw [Option.getD_none, entryKeys_zero, Option.elim_none]
    | some n => rfl
  | none =>
    rw [hrefused hdoc]
    refine ⟨rfl, rfl, ?_, rfl⟩
    have hgone : ((s.peeked p rest).markFetchFailure p).passedOver docs = s.emittedUrls :=
      passedOver_of_none docs hcurrent rfl
    rw [hgone]
    cases s.resumeSkip with
    | none => exact (Finset.union_empty _).symm
    | some n => exact (Finset.union_empty _).symm

section Turn
variable [DecidableEq Url] {autoPersist : Bool} {reply : Reply} {result : Turn Url}

theorem Sound.addNested_walk (h : Sound s) (location : String) :
    (s.addNested current location).walk = s.walk.name current.visit location := by
  have hgoes : (s.proceed current).walk = s.walk.goesOn current.visit := rfl
  unfold State.addNested Walk.name
  by_cases hdepth : maxDepth ≤ current.pending.depth
  · have hvisit : maxDepth ≤ current.visit.sitemap.depth := hdepth
    rw [if_pos hdepth, if_pos hvisit]
    exact hgoes
  · have hvisit : ¬ maxDepth ≤ current.visit.sitemap.depth := hdepth
    rw [if_neg hdepth, if_neg hvisit]
    cases hurl : (parse location : Option Url) with
    | none => exact hgoes
    | some url =>
      by_cases hknown : asStr url ∈ s.seenSitemaps
      · have hwalk : asStr url ∈ s.walk.known := hknown
        simp only [if_pos hknown, if_pos hwalk]
        exact hgoes
      · have hwalk : asStr url ∉ s.walk.known := hknown
        have hroot : url ∉ s.roots := fun hin => hknown (h.seen_roots url hin)
        simp only [if_neg hknown, if_neg hwalk, State.stage, if_neg hroot]
        rfl

theorem Sound.handle_walk (h : Sound s) (docs : Url → Option (List EventResult))
    (hcurrent : s.current = some current) : (s.handle current).walk = s.walk.next docs := by
  have hvisit := walk_visit_of_current hcurrent
  unfold State.handle Walk.next
  simp only [hvisit]
  have hleft : current.visit.left = current.events := rfl
  rw [hleft]
  cases current.events with
  | nil => rfl
  | cons event events =>
    match event with
    | .ok (.entry loc) => exact addEntry_walk loc
    | .ok (.nested location) => exact h.addNested_walk location
    | .error .body => rfl
    | .error .xml => rfl

def SitemapEvent.isEntry : SitemapEvent → Bool
  | .entry _ => true
  | .nested _ => false

theorem handle_counts {event : SitemapEvent} {events : List EventResult}
    (hevents : current.events = .ok event :: events) :
    ∃ nested, (s.handle current).current = some { current with
      events
      entriesSeen := current.entriesSeen + event.isEntry.toNat
      nested } := by
  unfold State.handle
  rw [hevents]
  cases event with
  | entry loc =>
    simp only
    unfold State.addEntry
    split
    · exact ⟨_, rfl⟩
    · split_ifs
      · exact ⟨_, rfl⟩
      · exact ⟨_, rfl⟩
      · exact ⟨_, rfl⟩
  | nested location =>
    simp only
    unfold State.addNested
    split_ifs
    · exact ⟨_, rfl⟩
    · split
      · exact ⟨_, rfl⟩
      · split_ifs
        · exact ⟨_, rfl⟩
        · exact ⟨_, rfl⟩

theorem addNested_passes (docs : Url → Option (List EventResult)) {location : String}
    {events : List EventResult} (hcurrent : s.current = some current)
    (hevents : current.events = .ok (.nested location) :: events) :
    (s.addNested { current with events } location).pendingEmission = s.pendingEmission ∧
      (s.addNested { current with events } location).passedOver docs = s.passedOver docs := by
  have hsame : entryKeys Url (current.skipEntries - current.entriesSeen) current.events =
      entryKeys Url (current.skipEntries - current.entriesSeen) events := by
    rw [hevents]
    cases current.skipEntries - current.entriesSeen with
    | zero => rw [entryKeys_zero, entryKeys_zero]
    | succ n => rw [entryKeys]
  rw [passedOver_of_current docs hcurrent, hsame]
  unfold State.addNested
  split_ifs
  · exact ⟨rfl, rfl⟩
  · split
    · exact ⟨rfl, rfl⟩
    · split_ifs
      · exact ⟨rfl, rfl⟩
      · exact ⟨rfl, rfl⟩

theorem handle_of_ends (h : current.ends = true) :
    (s.handle current).emittedUrls = s.emittedUrls ∧
      (s.handle current).pendingEmission = s.pendingEmission := by
  unfold ActiveSitemap.ends at h
  unfold State.handle
  split at h
  · cases h
  · next hok =>
    split
    · next heq => exact absurd heq (hok _ _)
    · next heq => exact absurd heq (hok _ _)
    · exact ⟨rfl, rfl⟩
    · exact ⟨rfl, rfl⟩
    · exact ⟨rfl, rfl⟩

theorem Sound.handle_passes (h : Sound s) (docs : Url → Option (List EventResult))
    (hcurrent : s.current = some current) (hemission : s.pendingEmission = none) :
    (s.handle current).pendingEmission =
        (s.walk.entry.filter fun url => decide (asStr url ∉ s.passedOver docs)).map s.request ∧
      (s.handle current).passedOver docs = s.walk.entry.elim (s.passedOver docs) fun url =>
        insert (asStr url) (s.passedOver docs) := by
  cases hends : current.ends with
  | true =>
    obtain ⟨hknown, hpending⟩ := handle_of_ends (s := s) hends
    have hresume := (handle_handles s current).same.2.1.trans (h.resume_of_current hcurrent)
    rw [walk_entry_of_ends hcurrent hends, passedOver_of_none docs (handle_end hends) hresume,
      passedOver_of_current docs hcurrent, entryKeys_of_ends hends, Finset.union_empty]
    exact ⟨hpending.trans hemission, hknown⟩
  | false =>
    obtain ⟨event, events, hevents⟩ := exists_ok_of_ends hends
    have hleft : current.visit.left = .ok event :: events := hevents
    rw [Walk.entry, walk_visit_of_current hcurrent, Option.bind_some, hleft]
    unfold State.handle
    rw [hevents]
    cases event with
    | entry loc => exact addEntry_passes docs hcurrent hevents hemission rfl
    | nested location =>
      obtain ⟨hpending, hpassed⟩ := addNested_passes (s := s) docs hcurrent hevents
      exact ⟨hpending.trans hemission, hpassed⟩

theorem Handles.total {t : State Url} (ht : Handles s current t) :
    t.emittedTotal = s.emittedTotal := by
  cases ht <;> rfl

def Outcome.ends : Outcome Url → Bool
  | .returned none => true
  | .failed => true
  | _ => false

def State.poll (docs : Url → Option (List EventResult)) (s : State Url) : Turn Url :=
  s.turn false (answer docs s)

/-- The requests that a list emits which is polled until it returns none or fails. -/
inductive Emits (docs : Url → Option (List EventResult)) :
    State Url → List (SitemapRequest Url) → Prop
  | ends {s : State Url} : (s.poll docs).outcome.ends = true → Emits docs s []
  | goes {s : State Url} {requests : List (SitemapRequest Url)} :
      (s.poll docs).outcome.ends = false → Emits docs (s.poll docs).list requests →
      Emits docs s ((s.poll docs).outcome.emitted ++ requests)

variable {requests requests' : List (SitemapRequest Url)}

theorem Emits.unique (h : Emits docs s requests) (h' : Emits docs s requests') :
    requests = requests' := by
  induction h generalizing requests' with
  | ends hends =>
    cases h' with
    | ends _ => rfl
    | goes hgoes _ =>
      rw [hends] at hgoes
      cases hgoes
  | goes hgoes _ ih =>
    cases h' with
    | ends hends =>
      rw [hends] at hgoes
      cases hgoes
    | goes _ hrest => rw [ih hrest]

theorem Sound.exists_emits (h : Sound s) (docs : Url → Option (List EventResult)) :
    ∃ requests, Emits docs s requests := by
  induction s using below_wf.induction with
  | _ s ih =>
    cases hends : (s.poll docs).outcome.ends with
    | true => exact ⟨[], .ends hends⟩
    | false =>
      have hturns : Turns s false (answer docs s) (s.poll docs) := turn_turns _ _ _
      have hgoes : (s.poll docs).outcome ≠ .returned none := by
        intro heq
        rw [heq] at hends
        cases hends
      obtain ⟨requests, hrest⟩ :=
        ih _ (h.turns_below (answer_ne_dropped docs s) hturns hgoes) (h.turns hturns)
      exact ⟨_, .goes hends hrest⟩

inductive Polls (docs : Url → Option (List EventResult)) (s : State Url) (result : Turn Url) : Prop
  | stops : ¬ s.running → result.outcome = .returned none → Polls docs s result
  | emits (request : SitemapRequest Url) : s.running → s.pendingEmission = some request →
      result.list = s.emitted → result.outcome = .returned (some request) → Polls docs s result
  | exhausts : s.pendingEmission = none → s.current = none → s.pending = [] →
      result.outcome.ends = true → Polls docs s result
  | enters (p : PendingSitemap Url) (rest : List (PendingSitemap Url)) : s.running →
      s.pendingEmission = none → s.current = none → s.pending = p :: rest →
      result.outcome = .goesOn →
      (∀ events, docs p.url = some events → result.list = (s.peeked p rest).opened p events) →
      (docs p.url = none → result.list = (s.peeked p rest).markFetchFailure p) → Polls docs s result
  | handles (current : ActiveSitemap Url) : s.running → s.pendingEmission = none →
      s.current = some current → result.list = s.handle current → result.outcome = .goesOn →
      Polls docs s result

theorem Sound.poll_polls (h : Sound s) (docs : Url → Option (List EventResult)) :
    Polls docs s (s.poll docs) := by
  have hturns : Turns s false (answer docs s) (s.poll docs) := turn_turns _ _ _
  have hanswer : ∀ p rest, s.openStack = p :: rest → answer docs s = match docs p.url with
      | some events => .opened events
      | none => .refused := by
    intro p rest hstack
    unfold answer
    rw [← h.openStack, hstack]
    rfl
  have hne := answer_ne_dropped docs s
  generalize s.poll docs = result at hturns
  generalize answer docs s = reply at hturns hanswer hne
  cases hturns with
  | stops _ hstop => exact .stops hstop rfl
  | emits _ request hrunning hemission =>
    cases reply with
    | dropped => exact absurd rfl hne
    | opened events => exact .emits request hrunning hemission rfl rfl
    | refused => exact .emits request hrunning hemission rfl rfl
  | exhausts _ hrunning hemission hcurrent hstack =>
    refine .exhausts hemission hcurrent (h.openStack.symm.trans hstack) ?_
    simp only [State.exhausted]
    split_ifs
    · rfl
    · rfl
  | opens p rest events hrunning hemission hcurrent hstack =>
    have hdoc := hanswer p rest hstack
    refine .enters p rest hrunning hemission hcurrent (h.openStack.symm.trans hstack) rfl ?_ ?_
    · intro served hserved
      rw [hserved] at hdoc
      cases hdoc
      rfl
    · intro hrefused
      rw [hrefused] at hdoc
      cases hdoc
  | refuses p rest hrunning hemission hcurrent hstack =>
    have hdoc := hanswer p rest hstack
    refine .enters p rest hrunning hemission hcurrent (h.openStack.symm.trans hstack) rfl ?_ ?_
    · intro served hserved
      rw [hserved] at hdoc
      cases hdoc
    · exact fun _ => rfl
  | drops p rest _ _ _ _ => exact absurd rfl hne
  | handles _ current hrunning hemission hcurrent =>
    refine .handles current hrunning hemission hcurrent ?_ ?_
    · split_ifs
      · rfl
      · rfl
    · split_ifs
      · rfl
      · rfl

theorem Sound.exists_reads_unlimited (hs : Sound s) (hlimit : s.limit = none)
    (hfinished : s.finished = false) (docs : Url → Option (List EventResult)) :
    ∃ urls, Walk.Reads docs s.walk urls := by
  induction s using below_wf.induction with
  | _ s ih =>
    have hrunning : s.running := by
      refine ⟨hfinished, ?_⟩
      rw [State.limitReached, hlimit]
      rfl
    have hturns : Turns s false (answer docs s) (s.poll docs) := turn_turns _ _ _
    have hsound := hs.turns hturns
    have hsame := (turns_same hturns).limit.trans hlimit
    have hbelow := hs.turns_below (answer_ne_dropped docs s) hturns
    -- A turn after which the list goes on has a successor that reads on.
    have hnext : (s.poll docs).outcome ≠ .returned none → (s.poll docs).list.finished = false →
        ∃ urls, Walk.Reads docs (s.poll docs).list.walk urls :=
      fun hgoes hopen => ih _ (hbelow hgoes) hsound hsame hopen
    have hpolls := hs.poll_polls docs
    generalize s.poll docs = result at hpolls hnext
    cases hpolls with
    | stops hstop _ => exact absurd hrunning hstop
    | exhausts _ hcurrent hstack _ => exact ⟨[], .ends (walk_visit_of_none hcurrent) hstack⟩
    | emits request _ _ hlist houtcome =>
      have hsome : result.outcome ≠ .returned none := by
        rw [houtcome]
        intro h
        cases h
      rw [hlist] at hnext
      exact hnext hsome hfinished
    | enters p rest _ _ hcurrent hstack houtcome hserved hrefused =>
      have hgoes : result.outcome ≠ .returned none := by
        rw [houtcome]
        intro h
        cases h
      have hopen : result.list.finished = false := by
        cases hdoc : docs p.url with
        | none =>
          rw [hrefused hdoc]
          exact hfinished
        | some events =>
          rw [hserved events hdoc]
          exact hfinished
      obtain ⟨urls, hurls⟩ := hnext hgoes hopen
      rw [hs.entered_walk hcurrent hstack hserved hrefused] at hurls
      refine ⟨_, .goes (fun _ hempty => ?_) hurls⟩
      rw [show s.walk.stack = s.pending from rfl, hstack] at hempty
      cases hempty
    | handles current _ _ hcurrent hlist houtcome =>
      have hgoes : result.outcome ≠ .returned none := by
        rw [houtcome]
        intro h
        cases h
      have hopen : (s.handle current).finished = false :=
        (handle_handles s current).same.2.2.trans hfinished
      rw [hlist] at hnext
      obtain ⟨urls, hurls⟩ := hnext hgoes hopen
      rw [hs.handle_walk docs hcurrent] at hurls
      refine ⟨_, .goes (fun hvisit => ?_) hurls⟩
      rw [walk_visit_of_current hcurrent] at hvisit
      cases hvisit

theorem Sound.exists_reads (hs : Sound s) (docs : Url → Option (List EventResult)) :
    ∃ urls, Walk.Reads docs s.walk urls := by
  have hsound : Sound { s with limit := none, finished := false } := by
    refine ⟨hs.nodup, hs.unfinished, hs.seen_roots, hs.seen_completed, hs.seen_scheduled, hs.depth,
      hs.staged, hs.resume, ?_, fun h => nomatch h⟩
    intro hsome
    exact ⟨⟨rfl, rfl⟩, (hs.emission hsome).2⟩
  exact hsound.exists_reads_unlimited rfl rfl docs

/-- A list that is polled to its end emits what its walk reads, each URL once and none that it
passes over, up to its limit. -/
theorem Emits.eq_within (h : Emits docs s requests) (hs : Sound s) (hfinished : s.finished = false)
    {urls : List Url} (hreads : Walk.Reads docs s.walk urls) :
    requests = s.within (s.pendingEmission.toList ++
      (urls.firsts asStr (s.passedOver docs)).map s.request) := by
  induction h generalizing urls with
  | @ends s hends =>
    have hpolls := hs.poll_polls docs
    generalize s.poll docs = result at hpolls hends
    cases hpolls with
    | stops hstop _ =>
      have hreached : s.limitReached = true := by
        by_contra hnot
        exact hstop ⟨hfinished, Bool.eq_false_of_not_eq_true hnot⟩
      rw [within_of_limitReached hreached]
    | exhausts hemission hcurrent hstack _ =>
      rw [hreads.eq_nil (walk_visit_of_none hcurrent) hstack, hemission]
      cases hlimit : s.limit with
      | none => simp [State.within, hlimit, List.firsts]
      | some limit => simp [State.within, hlimit, List.firsts]
    | emits request _ _ _ houtcome =>
      rw [houtcome] at hends
      cases hends
    | enters p rest _ _ _ _ houtcome _ _ =>
      rw [houtcome] at hends
      cases hends
    | handles current _ _ _ _ houtcome =>
      rw [houtcome] at hends
      cases hends
  | @goes s requests hgoes hrest ih =>
    have hsound : Sound (s.poll docs).list := hs.turns (turn_turns s false (answer docs s))
    cases hs.poll_polls docs with
    | stops _ houtcome =>
      rw [houtcome] at hgoes
      cases hgoes
    | exhausts _ _ _ hends =>
      rw [hends] at hgoes
      cases hgoes
    | emits request hrunning hemission hlist houtcome =>
      rw [hlist] at ih
      have hih := ih hs.emitted hfinished hreads
      rw [houtcome, hemission, hih]
      exact (within_cons hrunning.2 request _).symm
    | enters p rest _ hemission hcurrent hstack houtcome hserved hrefused =>
      have hmore : s.walk.visit = none → s.walk.stack ≠ [] := by
        intro _ hempty
        rw [show s.walk.stack = s.pending from rfl, hstack] at hempty
        cases hempty
      obtain ⟨urls, rfl, hurls⟩ := hreads.exists_next hmore
      rw [← hs.entered_walk hcurrent hstack hserved hrefused] at hurls
      obtain ⟨hopen, hnone, hpassed, htotal⟩ :=
        entered_passes docs hcurrent hstack hserved hrefused
      have hsame : s.SameList (s.poll docs).list :=
        turns_same (turn_turns s false (answer docs s))
      rw [ih hsound (hopen.trans hfinished) hurls, houtcome, hemission, hnone.trans hemission,
        hpassed, Walk.entry_of_no_visit (walk_visit_of_none hcurrent), hsame.request,
        hsame.within htotal]
      rfl
    | handles current _ hemission hcurrent hlist houtcome =>
      have hmore : s.walk.visit = none → s.walk.stack ≠ [] := by
        intro hvisit
        rw [walk_visit_of_current hcurrent] at hvisit
        cases hvisit
      obtain ⟨urls, rfl, hurls⟩ := hreads.exists_next hmore
      rw [← hs.handle_walk docs hcurrent] at hurls
      have hhandle := handle_handles s current
      have hopen : (s.handle current).finished = false := hhandle.same.2.2.trans hfinished
      obtain ⟨hpending, hpassed⟩ := hs.handle_passes docs hcurrent hemission
      rw [hlist] at ih hsound
      rw [ih hsound hopen hurls, houtcome, hemission, hpending, hpassed, List.firsts_toList_append,
        hhandle.same.1.request, hhandle.same.1.within hhandle.total, List.map_append]
      cases s.walk.entry.filter fun url => decide (asStr url ∉ s.passedOver docs) with
      | none => rfl
      | some url => rfl

end Turn

end Millipede.Sitemap
