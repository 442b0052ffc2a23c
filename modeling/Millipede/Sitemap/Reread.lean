import Millipede.Sitemap.Emission

/-!
# Reading again

A list that is rebuilt from a snapshot opens the sitemap in progress once more. Its walk goes
the way that the walk of the saved list has gone, and comes to where that walk stood.
-/

namespace Millipede.Sitemap

open UrlText

variable {Url : Type} [UrlText Url]

/-- The walk of a list that is rebuilt from a snapshot of this one. -/
def State.reread (s : State Url) : Walk Url where
  stack := s.inProgress.toList ++ s.waiting
  known := s.rootKeys ∪ s.completed ∪ keys (s.inProgress.toList ++ s.waiting)
  visit := none

def SitemapEvent.entryUrl (Url : Type) [UrlText Url] : SitemapEvent → Option Url
  | .entry loc => parse loc
  | .nested _ => none

variable {b : SitemapRequestListBuilder Url} {s r t : State Url} {current : ActiveSitemap Url}
  {docs : Url → Option (List EventResult)} {w : Walk Url} {front : List SitemapEvent}

namespace Walk

def readUrls (docs : Url → Option (List EventResult)) (w : Walk Url) : ℕ → List Url
  | 0 => []
  | n + 1 => w.entry.toList ++ readUrls docs (w.next docs) n

theorem next_of_end (hvisit : w.visit = none) (hstack : w.stack = []) : w.next docs = w := by
  unfold Walk.next
  simp only [hvisit, hstack]

theorem Reads.exists_rest {urls : List Url} (h : Reads docs w urls) (n : ℕ) :
    ∃ rest, urls = w.readUrls docs n ++ rest ∧ Reads docs ((Walk.next docs)^[n] w) rest := by
  induction n generalizing w urls with
  | zero => exact ⟨urls, rfl, h⟩
  | succ n ih =>
    rw [Function.iterate_succ_apply]
    by_cases hmore : w.visit = none → w.stack ≠ []
    · obtain ⟨after, rfl, hafter⟩ := h.exists_next hmore
      obtain ⟨rest, rfl, hrest⟩ := ih hafter
      exact ⟨rest, (List.append_assoc ..).symm, hrest⟩
    · obtain ⟨hvisit, hstack⟩ := Classical.not_imp.mp hmore
      have hstack := not_not.mp hstack
      have hnext : w.next docs = w := next_of_end hvisit hstack
      obtain ⟨rest, heq, hrest⟩ := ih h
      refine ⟨rest, ?_, hnext.symm ▸ hrest⟩
      rw [heq, readUrls, entry_of_no_visit hvisit, hnext]
      rfl

theorem Reads.unique {urls urls' : List Url} (h : Reads docs w urls) (h' : Reads docs w urls') :
    urls = urls' := by
  induction h generalizing urls' with
  | ends hvisit hstack => exact (h'.eq_nil hvisit hstack).symm
  | goes hmore _ ih =>
    obtain ⟨rest, rfl, hrest⟩ := h'.exists_next hmore
    rw [ih hrest]

theorem next_of_ok (docs : Url → Option (List EventResult)) {visit : Visit Url}
    {event : SitemapEvent} {left : List EventResult} (hvisit : w.visit = some visit)
    (hleft : visit.left = .ok event :: left) :
    w.entry = event.entryUrl Url ∧
      ∃ children, (w.next docs).visit = some { visit with left, children } := by
  constructor
  · rw [Walk.entry, hvisit]
    cases event with
    | entry loc =>
      simp only [Option.bind_some, hleft]
      rfl
    | nested location =>
      simp only [Option.bind_some, hleft]
      rfl
  · unfold Walk.next
    simp only [hvisit, hleft]
    cases event with
    | entry loc => exact ⟨_, rfl⟩
    | nested location =>
      unfold Walk.read Walk.name
      split_ifs
      · exact ⟨_, rfl⟩
      · simp only
        split
        · exact ⟨_, rfl⟩
        · split_ifs
          · exact ⟨_, rfl⟩
          · exact ⟨_, rfl⟩

theorem readUrls_front {visit : Visit Url} {left : List EventResult} (hvisit : w.visit = some visit)
    (hleft : visit.left = front.map .ok ++ left) :
    w.readUrls docs front.length = front.filterMap (SitemapEvent.entryUrl Url) := by
  induction front generalizing w visit with
  | nil => rfl
  | cons event front ih =>
    obtain ⟨hentry, children, hnext⟩ := next_of_ok docs hvisit hleft
    rw [List.length_cons, readUrls, ih hnext rfl, hentry, List.filterMap_cons]
    cases event.entryUrl Url with
    | none => rfl
    | some url => rfl

end Walk

theorem reread_of_current (h : s.current = some current) : s.reread = ⟨current.pending :: s.pending,
    s.rootKeys ∪ s.completed ∪ keys (current.pending :: s.pending), none⟩ := by
  obtain ⟨hprogress, hwaiting⟩ := saved_of_current h
  rw [State.reread, hprogress, hwaiting]
  rfl

theorem reread_of_none (h : s.current = none) :
    s.reread = ⟨s.pending, s.rootKeys ∪ s.completed ∪ keys s.pending, none⟩ := by
  rw [State.reread, saved_of_none h]

theorem Sound.seen_eq (h : Sound s) (hcurrent : s.current = none)
    (haccounted : s.Accounted s.rootKeys) :
    s.seenSitemaps = s.rootKeys ∪ s.completed ∪ keys s.pending := by
  refine Finset.Subset.antisymm ?_ ?_
  · rw [← scheduled_of_none hcurrent]
    exact haccounted
  · refine Finset.union_subset (Finset.union_subset ?_ h.seen_completed) ?_
    · intro key hkey
      obtain ⟨root, hroot, rfl⟩ := List.mem_map.mp (List.mem_toFinset.mp hkey)
      exact h.seen_roots root hroot
    · intro key hkey
      obtain ⟨p, hp, rfl⟩ := exists_of_mem_keys hkey
      exact h.seen_scheduled p (List.mem_append_right _ hp)

theorem Sound.walk_eq_reread (h : Sound s) (hcurrent : s.current = none)
    (haccounted : s.Accounted s.rootKeys) : s.walk = s.reread := by
  rw [reread_of_none hcurrent, State.walk, h.seen_eq hcurrent haccounted, hcurrent]
  rfl

theorem Sound.restore_walk [DecidableEq Url] (h : Sound s) (hr : Sound r) (hfresh : r.Fresh)
    (hroots : r.roots = s.roots) (n : ℕ) (emission : Bool) :
    (r.restore (s.persistSnapshot n emission)).walk = s.reread := by
  have hstack := h.restoreStack r n emission
  have hseen : r.seenSitemaps = s.rootKeys := by
    refine Finset.Subset.antisymm ?_ ?_
    · intro key hkey
      obtain ⟨root, hroot, rfl⟩ := hfresh.seen key hkey
      rw [hroots] at hroot
      exact List.mem_toFinset.mpr (List.mem_map_of_mem hroot)
    · intro key hkey
      obtain ⟨root, hroot, rfl⟩ := List.mem_map.mp (List.mem_toFinset.mp hkey)
      rw [← hroots] at hroot
      exact hr.seen_roots root hroot
  have hvisit : (r.restore (s.persistSnapshot n emission)).walk.visit = none :=
    walk_visit_of_none hfresh.current
  unfold State.walk at hvisit ⊢
  simp only at hvisit
  rw [hvisit, State.reread, ← hseen]
  simp only [State.restore, hstack]
  rfl

/-- How far the current document has been read. -/
structure State.Rereads (docs : Url → Option (List EventResult)) (s : State Url)
    (current : ActiveSitemap Url) (front : List SitemapEvent) : Prop where
  served : docs current.pending.url = some (front.map .ok ++ current.events)
  counted : current.entriesSeen = front.countP SitemapEvent.isEntry
  walk : s.walk = (Walk.next docs)^[front.length + 1] s.reread
  known : ∀ url ∈ front.filterMap (SitemapEvent.entryUrl Url), asStr url ∈ s.emittedUrls
  emission : ∀ request, s.pendingEmission = some request → ∃ before loc url,
    front = before ++ [.entry loc] ∧ parse loc = some url ∧ request = s.request url ∧
      url ∉ before.filterMap (SitemapEvent.entryUrl Url)

def urlKeys (Url : Type) [UrlText Url] (front : List SitemapEvent) : Finset String :=
  ((front.filterMap (SitemapEvent.entryUrl Url)).map asStr).toFinset

theorem mem_urlKeys {front : List SitemapEvent} {key : String} : key ∈ urlKeys Url front ↔
    ∃ url ∈ front.filterMap (SitemapEvent.entryUrl Url), asStr url = key := by
  rw [urlKeys, List.mem_toFinset, List.mem_map]

theorem asStr_injective : Function.Injective (asStr : Url → String) := by
  intro url url' heq
  have hparse := parse_asStr url
  rw [heq, parse_asStr] at hparse
  exact (Option.some.inj hparse).symm

theorem urlKeys_cons (event : SitemapEvent) (front : List SitemapEvent) :
    urlKeys Url (event :: front) = (event.entryUrl Url).elim (urlKeys Url front) fun url =>
      insert (asStr url) (urlKeys Url front) := by
  rw [urlKeys, List.filterMap_cons]
  cases event.entryUrl Url with
  | none => rfl
  | some url => exact List.toFinset_cons

theorem entryKeys_front (front : List SitemapEvent) (events : List EventResult) :
    entryKeys Url (front.countP SitemapEvent.isEntry) (front.map .ok ++ events) =
      urlKeys Url front := by
  induction front with
  | nil => exact entryKeys_zero _
  | cons event front ih =>
    rw [urlKeys_cons, ← ih]
    cases event with
    | entry loc =>
      rw [List.countP_cons_of_pos rfl, List.map_cons, List.cons_append, entryKeys]
      rfl
    | nested location =>
      rw [List.countP_cons_of_neg (by exact Bool.false_ne_true), List.map_cons, List.cons_append]
      cases front.countP SitemapEvent.isEntry with
      | zero => rw [entryKeys_zero, entryKeys_zero]; rfl
      | succ n => rw [entryKeys]; rfl

def requestKeys (requests : List (SitemapRequest Url)) : Finset String :=
  (requests.map fun request => asStr request.url).toFinset

theorem mem_requestKeys {requests : List (SitemapRequest Url)} {key : String} :
    key ∈ requestKeys requests ↔ ∃ request ∈ requests, asStr request.url = key := by
  rw [requestKeys, List.mem_toFinset, List.mem_map]

/-- The URLs in front of the saved cursor. -/
def PersistedState.cursorKeys (docs : Url → Option (List EventResult)) (saved : PersistedState) :
    Finset String :=
  (saved.inProgress.bind fun text => (parse text : Option Url)).elim ∅ fun url =>
    (docs url).elim ∅ (entryKeys Url saved.emittedInProgress)

theorem saved_cursorKeys_of_none (docs : Url → Option (List EventResult))
    (h : s.current = none) : s.persistNow.cursorKeys docs = s.cursorKeys docs := by
  have hkey : ∀ p : PendingSitemap Url, (parse p.key : Option Url) = some p.url :=
    fun p => parse_asStr p.url
  unfold PersistedState.cursorKeys State.cursorKeys State.persistNow State.persistSnapshot
    State.inProgress State.stagedResume
  simp only [h]
  cases s.resumeSkip with
  | none => rfl
  | some n =>
    cases s.pending with
    | nil => rfl
    | cons p rest =>
      simp [hkey]

theorem State.Rereads.saved_cursorKeys (h : s.Rereads docs current front)
    (hcurrent : s.current = some current) :
    ∃ before, s.persistNow.cursorKeys docs = urlKeys Url before ∧
      front.filterMap (SitemapEvent.entryUrl Url) =
        before.filterMap (SitemapEvent.entryUrl Url) ++
          s.pendingEmission.toList.map SitemapRequest.url ∧
      ∀ request ∈ s.pendingEmission, request = s.request request.url ∧
        asStr request.url ∉ urlKeys Url before := by
  have hsaved : s.persistNow.cursorKeys docs = entryKeys Url
      (current.entriesSeen - s.pendingEmission.isSome.toNat) (front.map .ok ++ current.events) := by
    have hkey : (parse current.pending.key : Option Url) = some current.pending.url :=
      parse_asStr current.pending.url
    simp only [PersistedState.cursorKeys, State.persistNow, State.persistSnapshot, hcurrent,
      (saved_of_current hcurrent).1, Option.map_some, Option.bind_some, hkey, Option.elim_some,
      h.served]
    rfl
  rw [hsaved, h.counted]
  cases hemission : s.pendingEmission with
  | none =>
    refine ⟨front, entryKeys_front front _, (List.append_nil _).symm, ?_⟩
    intro request hrequest
    cases hrequest
  | some request =>
    obtain ⟨before, loc, url, rfl, hurl, rfl, hnew⟩ := h.emission request hemission
    refine ⟨before, ?_, ?_, ?_⟩
    · have hcount : (before ++ [SitemapEvent.entry loc]).countP SitemapEvent.isEntry -
          (some (s.request url)).isSome.toNat = before.countP SitemapEvent.isEntry := by
        rw [List.countP_append]
        rfl
      rw [hcount, List.map_append, List.append_assoc]
      exact entryKeys_front before _
    · rw [List.filterMap_append]
      have hlast : [SitemapEvent.entry loc].filterMap (SitemapEvent.entryUrl Url) = [url] := by
        have hentry : (SitemapEvent.entry loc).entryUrl Url = some url := hurl
        rw [List.filterMap_cons_some hentry]
        rfl
      rw [hlast]
      rfl
    · intro other hother
      cases hother
      refine ⟨rfl, fun hmem => hnew ?_⟩
      obtain ⟨old, hold, heq⟩ := mem_urlKeys.mp hmem
      have hsame : old = url := asStr_injective heq
      exact hsame ▸ hold

theorem Sound.answered {p : PendingSitemap Url} {rest : List (PendingSitemap Url)} (h : Sound s)
    (hstack : s.openStack = p :: rest) {reply : Reply} (hreply : Answered docs s reply) :
    (∀ events, reply = .opened events → docs p.url = some events) ∧
      (reply = .refused → docs p.url = none) := by
  have hanswer : answer docs s = (docs p.url).elim .refused .opened := by
    unfold answer
    rw [← h.openStack, hstack]
    simp only [List.head?_cons, Option.bind_some]
    cases docs p.url with
    | none => rfl
    | some events => rfl
  rcases hreply with rfl | rfl
  · exact ⟨fun _ heq => (by cases heq), fun heq => (by cases heq)⟩
  · rw [hanswer]
    cases docs p.url with
    | none => exact ⟨fun _ heq => (by cases heq), fun _ => rfl⟩
    | some served => exact ⟨fun _ heq => (by cases heq; rfl), fun heq => (by cases heq)⟩

theorem walk_entry_of_current (hcurrent : s.current = some current) :
    s.walk.entry = current.events.head?.bind fun result =>
      result.toOption.bind (SitemapEvent.entryUrl Url) := by
  have hleft : current.visit.left = current.events := rfl
  rw [Walk.entry, walk_visit_of_current hcurrent]
  simp only [Option.bind_some, hleft]
  cases current.events with
  | nil => rfl
  | cons result events =>
    cases result with
    | error e => rfl
    | ok event =>
      cases event with
      | entry loc => rfl
      | nested location => rfl

section Handle
variable [DecidableEq Url] {event : SitemapEvent} {events : List EventResult}

theorem handle_pendingEmission (hevents : current.events = .ok event :: events)
    (hemission : s.pendingEmission = none) {request : SitemapRequest Url}
    (hrequest : (s.handle current).pendingEmission = some request) :
    ∃ loc url, event = .entry loc ∧ parse loc = some url ∧ request = s.request url ∧
      asStr url ∉ s.emittedUrls := by
  unfold State.handle at hrequest
  rw [hevents] at hrequest
  have hnone : s.pendingEmission ≠ some request := by
    rw [hemission]
    exact Option.some_ne_none _ ∘ Eq.symm
  cases event with
  | nested location =>
    simp only at hrequest
    unfold State.addNested at hrequest
    split_ifs at hrequest
    · exact absurd hrequest hnone
    · split at hrequest
      · exact absurd hrequest hnone
      · split_ifs at hrequest
        · exact absurd hrequest hnone
        · exact absurd hrequest hnone
  | entry loc =>
    simp only at hrequest
    unfold State.addEntry at hrequest
    cases hurl : (parse loc : Option Url) with
    | none =>
      simp only [hurl] at hrequest
      exact absurd hrequest hnone
    | some url =>
      simp only [hurl] at hrequest
      split_ifs at hrequest with hcursor hknown
      · exact absurd hrequest hnone
      · exact absurd hrequest hnone
      · exact ⟨loc, url, rfl, hurl, (Option.some.inj hrequest).symm, hknown⟩

theorem handle_emittedUrls (hcurrent : s.current = some current) :
    (s.handle current).emittedUrls = s.walk.entry.elim s.emittedUrls
      fun url => insert (asStr url) s.emittedUrls := by
  rw [walk_entry_of_current hcurrent]
  unfold State.handle
  cases current.events with
  | nil => rfl
  | cons event events =>
    rcases event with (_ | _) | loc | location
    · rfl
    · rfl
    · simp only
      unfold State.addEntry
      have hurl : (SitemapEvent.entry loc).entryUrl Url = parse loc := rfl
      simp only [List.head?_cons, Option.bind_some, Except.toOption, hurl]
      cases (parse loc : Option Url) with
      | none => rfl
      | some url =>
        simp only
        split_ifs with hcursor hknown
        · rfl
        · exact (Finset.insert_eq_of_mem hknown).symm
        · rfl
    · simp only
      unfold State.addNested
      split_ifs
      · rfl
      · split
        · rfl
        · split_ifs
          · rfl
          · rfl

theorem handle_reread (hcurrent : s.current = some current)
    (hevents : current.events = .ok event :: events) :
    (s.handle current).reread = s.reread := by
  obtain ⟨nested, hafter⟩ := handle_counts (s := s) hevents
  rw [reread_of_current hcurrent, reread_of_current hafter]
  have hhandles := handle_handles s current
  generalize s.handle current = t at hhandles hafter
  cases hhandles with
  | proceeds _ _ _ _ _ _ _ => rfl
  | stages _ _ _ _ _ _ _ => rfl
  | fails _ _ => cases hafter
  | completes => cases hafter

theorem State.Rereads.handle (h : s.Rereads docs current front) (hs : Sound s)
    (hcurrent : s.current = some current) (hemission : s.pendingEmission = none)
    (hevents : current.events = .ok event :: events) :
    ∃ current', (s.handle current).current = some current' ∧
      (s.handle current).Rereads docs current' (front ++ [event]) := by
  obtain ⟨nested, hafter⟩ := handle_counts (s := s) hevents
  refine ⟨_, hafter, ?_, ?_, ?_, ?_, ?_⟩
  · rw [h.served, hevents, List.map_append, List.append_assoc]
    rfl
  · rw [List.countP_append, h.counted]
    cases event with
    | entry loc => rfl
    | nested location => rfl
  · rw [hs.handle_walk docs hcurrent, handle_reread hcurrent hevents, h.walk, List.length_append,
      ← Function.iterate_succ_apply' (Walk.next docs)]
    rfl
  · intro url hurl
    rw [handle_emittedUrls hcurrent,
      (Walk.next_of_ok docs (walk_visit_of_current hcurrent) hevents).1]
    rw [List.filterMap_append, List.mem_append] at hurl
    have hold : url ∈ front.filterMap (SitemapEvent.entryUrl Url) →
        asStr url ∈ (event.entryUrl Url).elim s.emittedUrls
          fun url => insert (asStr url) s.emittedUrls := by
      intro hmem
      have hknown := h.known url hmem
      cases event.entryUrl Url with
      | none => exact hknown
      | some other => exact Finset.mem_insert_of_mem hknown
    rcases hurl with hfront | hlast
    · exact hold hfront
    · rw [List.mem_filterMap] at hlast
      obtain ⟨last, hlast, hentry⟩ := hlast
      rw [List.mem_singleton.mp hlast] at hentry
      rw [hentry]
      exact Finset.mem_insert_self _ _
  · intro request hrequest
    obtain ⟨loc, url, rfl, hurl, rfl, hnew⟩ := handle_pendingEmission hevents hemission hrequest
    refine ⟨front, loc, url, rfl, hurl, ?_, fun hmem => hnew (h.known url hmem)⟩
    rw [(handle_handles s current).same.1.request]

end Handle

/-- The current document has been read in part, and it can be read again up to there. -/
def State.Rereadable (docs : Url → Option (List EventResult)) (s : State Url) : Prop :=
  ∀ current, s.current = some current → ∃ front, s.Rereads docs current front

theorem rereadable_of_none (h : s.current = none) : s.Rereadable docs := by
  intro current hc
  rw [h] at hc
  cases hc

/-- The URLs that a list rebuilt from the snapshot passes over, or emits first. -/
def State.recovered (docs : Url → Option (List EventResult)) (s : State Url) : Finset String :=
  s.persistNow.cursorKeys docs ∪ requestKeys s.pendingEmission.toList

theorem State.Rereadable.recovered_subset (h : s.Rereadable docs) (hs : Sound s) :
    s.recovered docs ⊆ s.passedOver docs := by
  cases hcurrent : s.current with
  | none =>
    have hnone := hs.emission_of_none hcurrent
    rw [State.recovered, saved_cursorKeys_of_none docs hcurrent, hnone]
    exact Finset.union_subset Finset.subset_union_right (Finset.empty_subset _)
  | some current =>
    obtain ⟨front, hfront⟩ := h current hcurrent
    obtain ⟨before, hsaved, hurls, -⟩ := hfront.saved_cursorKeys hcurrent
    rw [State.recovered, hsaved]
    intro key hkey
    suffices hin : ∃ url ∈ front.filterMap (SitemapEvent.entryUrl Url), asStr url = key by
      obtain ⟨url, hurl, rfl⟩ := hin
      exact Finset.mem_union_left _ (hfront.known url hurl)
    rw [hurls]
    rcases Finset.mem_union.mp hkey with hbefore | hpending
    · obtain ⟨url, hurl, rfl⟩ := mem_urlKeys.mp hbefore
      exact ⟨url, List.mem_append_left _ hurl, rfl⟩
    · obtain ⟨request, hrequest, rfl⟩ := mem_requestKeys.mp hpending
      exact ⟨request.url, List.mem_append_right _ (List.mem_map_of_mem hrequest), rfl⟩

theorem State.Rereadable.firsts_reread (h : s.Rereadable docs) (hs : Sound s)
    (haccounted : s.Accounted s.rootKeys) {urls all : List Url}
    (hreads : Walk.Reads docs s.walk urls) (hall : Walk.Reads docs s.reread all) :
    (all.firsts asStr (s.persistNow.cursorKeys docs)).map s.request =
      s.pendingEmission.toList ++ (urls.firsts asStr (s.recovered docs)).map s.request := by
  cases hcurrent : s.current with
  | none =>
    rw [← hs.walk_eq_reread hcurrent haccounted] at hall
    rw [hall.unique hreads, State.recovered, hs.emission_of_none hcurrent]
    exact congrArg (fun known => (urls.firsts asStr known).map s.request)
      (Finset.union_empty _).symm
  | some current =>
    obtain ⟨front, hfront⟩ := h current hcurrent
    have hopened : (s.reread.next docs).visit = some ⟨current.pending,
        front.map .ok ++ current.events, []⟩ := by
      have hstack : s.reread.stack = current.pending :: s.pending := by
        rw [reread_of_current hcurrent]
      rw [Walk.next_of_no_visit rfl hstack, hfront.served]
      rfl
    obtain ⟨rest, rfl, hrest⟩ := hall.exists_rest (front.length + 1)
    rw [← hfront.walk] at hrest
    obtain ⟨before, hsaved, hurls, hpending⟩ := hfront.saved_cursorKeys hcurrent
    have hold : (before.filterMap (SitemapEvent.entryUrl Url)).firsts asStr
        (urlKeys Url before) = [] := by
      refine List.firsts_eq_nil ?_
      intro url hurl
      exact mem_urlKeys.mpr ⟨url, hurl, rfl⟩
    have hkeys : urlKeys Url before ∪
        ((before.filterMap (SitemapEvent.entryUrl Url)).map asStr).toFinset =
          urlKeys Url before := Finset.union_self _
    rw [hrest.unique hreads, Walk.readUrls, Walk.readUrls_front hopened rfl, hurls,
      Walk.entry_of_no_visit rfl, Option.toList_none, List.nil_append, List.append_assoc,
      State.recovered, hsaved, List.firsts_append, hold, hkeys, List.nil_append]
    cases hemission : s.pendingEmission with
    | none =>
      exact congrArg (fun known => (urls.firsts asStr known).map s.request)
        (Finset.union_empty _).symm
    | some request =>
      obtain ⟨hrequest, hnew⟩ := hpending request hemission
      rw [Option.toList_some, List.map_singleton, List.singleton_append,
        List.firsts_cons_new hnew, List.map_cons, ← hrequest]
      refine congrArg (fun known => request :: (urls.firsts asStr known).map s.request) ?_
      rw [Finset.insert_eq, Finset.union_comm]
      rfl

theorem Sound.rereads_opened (h : Sound s) (haccounted : s.Accounted s.rootKeys)
    {p : PendingSitemap Url} {rest : List (PendingSitemap Url)} {events : List EventResult}
    (hcurrent : s.current = none) (hemission : s.pendingEmission = none)
    (hstack : s.openStack = p :: rest) (hdoc : docs p.url = some events) :
    ((s.peeked p rest).opened p events).Rereadable docs := by
  have hpending : s.pending = p :: rest := h.openStack.symm.trans hstack
  intro current hc
  refine ⟨[], ?_, ?_, ?_, fun _ hurl => (by cases hurl), ?_⟩
  · cases hc
    exact hdoc
  · cases hc
    rfl
  · have hreread : ((s.peeked p rest).opened p events).reread = s.reread := by
      rw [reread_of_current hc, reread_of_none hcurrent, hpending]
      cases hc
      rfl
    have hentered : (((s.peeked p rest).opened p events).goes).list.walk = s.walk.next docs := by
      refine h.entered_walk hcurrent hpending ?_ ?_
      · intro served hserved
        rw [hdoc] at hserved
        cases hserved
        rfl
      · intro hrefused
        rw [hdoc] at hrefused
        cases hrefused
    rw [hreread, ← h.walk_eq_reread hcurrent haccounted]
    exact hentered
  · intro request hrequest
    have hrequest : s.pendingEmission = some request := hrequest
    rw [hemission] at hrequest
    cases hrequest

variable [DecidableEq Url] {autoPersist : Bool} {reply : Reply} {result : Turn Url}

theorem restore_passedOver (docs : Url → Option (List EventResult)) (hfresh : r.Fresh)
    (saved : PersistedState) : (r.restore saved).passedOver docs = saved.cursorKeys docs := by
  have hcurrent : (r.restore saved).current = none := hfresh.current
  have hknown : (r.restore saved).emittedUrls = ∅ := hfresh.emittedUrls
  rw [State.passedOver, State.cursorKeys, hcurrent, hknown, Finset.empty_union]
  unfold State.restore State.restoreStack PersistedState.cursorKeys
  cases saved.inProgress.bind fun text => (parse text : Option Url) with
  | none =>
    simp only [Option.isSome_none, Bool.false_eq_true, if_false, hfresh.resume]
    rfl
  | some url => rfl

theorem State.Rereadable.turns (h : s.Rereadable docs) (hs : Sound s)
    (haccounted : s.finished = false → s.Accounted s.rootKeys) (hreply : Answered docs s reply)
    (ht : Turns s autoPersist reply result) : result.list.Rereadable docs := by
  cases ht with
  | stops reply _ => exact rereadable_of_none rfl
  | emits reply request _ _ =>
    have hemitted : s.emitted.Rereadable docs := by
      intro current hc
      obtain ⟨front, hserved, hcounted, hwalk, hknown, -⟩ := h current hc
      exact ⟨front, hserved, hcounted, hwalk, hknown, fun _ hrequest => (by cases hrequest)⟩
    cases reply with
    | dropped => exact h
    | opened events => exact hemitted
    | refused => exact hemitted
  | exhausts reply _ _ hcurrent _ => exact rereadable_of_none hcurrent
  | opens p rest events hrunning hemission hcurrent hstack =>
    have hdoc := (hs.answered hstack hreply).1 events rfl
    exact hs.rereads_opened (haccounted hrunning.1) hcurrent hemission hstack hdoc
  | refuses p rest _ _ hcurrent _ => exact rereadable_of_none hcurrent
  | drops p rest _ _ hcurrent _ => exact rereadable_of_none hcurrent
  | handles reply current _ hemission hcurrent =>
    have hhandle : (s.handle current).Rereadable docs := by
      cases hends : current.ends with
      | true => exact rereadable_of_none (handle_end hends)
      | false =>
        obtain ⟨event, events, hevents⟩ := exists_ok_of_ends hends
        obtain ⟨front, hfront⟩ := h current hcurrent
        obtain ⟨current', hafter, hrereads⟩ := hfront.handle hs hcurrent hemission hevents
        intro next hnext
        rw [hafter] at hnext
        cases hnext
        exact ⟨_, hrereads⟩
    split_ifs
    · exact hhandle
    · exact hhandle

end Millipede.Sitemap
