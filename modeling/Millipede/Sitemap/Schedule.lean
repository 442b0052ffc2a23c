import Millipede.Sitemap.RequestList

/-!
# What is scheduled

The sitemaps that are scheduled are the current one, the children that it has staged and the
stack. They are different from each other and from those that are completed, in every
process and across restarts, since a child is staged only if it was never seen.
-/

namespace Millipede.Sitemap

open UrlText

variable {Url : Type}

section Schedule
variable {s : State Url}

/-- The document that is being read and the children that it has staged. -/
def State.active (s : State Url) : List (PendingSitemap Url) :=
  match s.current with
  | some current => current.pending :: current.nested
  | none => []

def State.scheduled (s : State Url) : List (PendingSitemap Url) := s.active ++ s.pending

theorem scheduled_of_current {current : ActiveSitemap Url} (h : s.current = some current) :
    s.scheduled = current.pending :: current.nested ++ s.pending := by
  rw [State.scheduled, State.active, h]

theorem scheduled_of_none (h : s.current = none) : s.scheduled = s.pending := by
  rw [State.scheduled, State.active, h]
  rfl

theorem saved_sublist (s : State Url) : (s.inProgress.toList ++ s.waiting).Sublist s.scheduled := by
  unfold State.inProgress State.waiting State.stagedResume
  cases hcurrent : s.current with
  | some current =>
    rw [scheduled_of_current hcurrent]
    simp
  | none =>
    rw [scheduled_of_none hcurrent]
    cases hresume : s.resumeSkip with
    | none => simp
    | some skip =>
      cases hpending : s.pending with
      | nil => simp
      | cons p rest => simp

end Schedule

variable [UrlText Url] {b : SitemapRequestListBuilder Url} {s t : State Url}
  {current : ActiveSitemap Url}

def State.running (s : State Url) : Prop := s.finished = false ∧ s.limitReached = false

structure Sound (s : State Url) : Prop where
  nodup : (s.scheduled.map PendingSitemap.key).Nodup
  unfinished : ∀ p ∈ s.scheduled, p.key ∉ s.completed
  seen_roots : ∀ root ∈ s.roots, asStr root ∈ s.seenSitemaps
  seen_completed : s.completed ⊆ s.seenSitemaps
  seen_scheduled : ∀ p ∈ s.scheduled, p.key ∈ s.seenSitemaps
  depth : ∀ p ∈ s.scheduled, p.depth ≤ maxDepth
  staged : ∀ current, s.current = some current → ∀ p ∈ current.nested,
    current.pending.depth < p.depth ∧ ∀ root ∈ s.roots, asStr root ≠ p.key
  resume : s.resumeSkip ≠ none → s.current = none ∧ s.pending ≠ []
  emission : s.pendingEmission ≠ none →
    s.running ∧ ∃ current, s.current = some current ∧ 0 < current.entriesSeen
  finished : s.finished = true → s.current = none

theorem Sound.openStack (h : Sound s) : s.openStack = s.pending := by
  unfold State.openStack
  cases hpending : s.pending with
  | nil => rfl
  | cons p rest =>
    have hmem : p ∈ s.scheduled := List.mem_append_right _ (hpending ▸ List.mem_cons_self)
    rw [List.dropWhile_cons_of_neg]
    simpa using h.unfinished p hmem

theorem Sound.emission_of_none (h : Sound s) (hcurrent : s.current = none) :
    s.pendingEmission = none := by
  by_contra hsome
  obtain ⟨-, current, hc, -⟩ := h.emission hsome
  rw [hcurrent] at hc
  cases hc

theorem build_sound (h : b.build = some s) : Sound s := by
  unfold SitemapRequestListBuilder.build at h
  split_ifs at h
  cases h
  have hkeys : ((b.sitemapUrls.firsts asStr ∅).map fun url =>
      ({ url, depth := 0 } : PendingSitemap Url)).map PendingSitemap.key =
      (b.sitemapUrls.firsts asStr ∅).map asStr := by
    rw [List.map_map]
    rfl
  constructor
  · rw [scheduled_of_none rfl]
    show (List.map _ (List.map _ _)).Nodup
    rw [hkeys]
    exact List.nodup_map_firsts
  · exact fun _ _ h => (by cases h)
  · intro root hroot
    exact List.mem_toFinset.mpr (List.mem_map_of_mem hroot)
  · exact Finset.empty_subset _
  · intro p hp
    rw [scheduled_of_none rfl] at hp
    have hkey := List.mem_map_of_mem (f := PendingSitemap.key) hp
    rw [hkeys] at hkey
    exact List.mem_toFinset.mpr hkey
  · intro p hp
    rw [scheduled_of_none rfl] at hp
    obtain ⟨url, -, rfl⟩ := List.mem_map.mp hp
    exact Nat.zero_le _
  · exact fun _ h => (by cases h)
  · exact fun h => absurd rfl h
  · exact fun h => absurd rfl h
  · exact fun h => (by cases h)

theorem Sound.mono (h : Sound s) (hroots : t.roots = s.roots)
    (hscheduled : t.scheduled.Sublist s.scheduled)
    (hcompleted : ∀ key ∈ t.completed, key ∈ s.completed ∨
      ∃ p ∈ s.scheduled, p.key = key ∧ ∀ q ∈ t.scheduled, q.key ≠ key)
    (hseen : s.seenSitemaps ⊆ t.seenSitemaps)
    (hstaged : ∀ current, t.current = some current → ∀ p ∈ current.nested,
      current.pending.depth < p.depth ∧ ∀ root ∈ s.roots, asStr root ≠ p.key)
    (hresume : t.resumeSkip ≠ none → t.current = none ∧ t.pending ≠ [])
    (hemission : t.pendingEmission ≠ none →
      t.running ∧ ∃ current, t.current = some current ∧ 0 < current.entriesSeen)
    (hfinished : t.finished = true → t.current = none) : Sound t where
  nodup := h.nodup.sublist (hscheduled.map _)
  unfinished := by
    intro p hp hdone
    obtain hold | ⟨-, -, -, hnone⟩ := hcompleted p.key hdone
    · exact h.unfinished p (hscheduled.subset hp) hold
    · exact hnone p hp rfl
  seen_roots := by
    rw [hroots]
    exact fun root hroot => hseen (h.seen_roots root hroot)
  seen_completed := by
    intro key hkey
    obtain hold | ⟨p, hp, rfl, -⟩ := hcompleted key hkey
    · exact hseen (h.seen_completed hold)
    · exact hseen (h.seen_scheduled p hp)
  seen_scheduled := fun p hp => hseen (h.seen_scheduled p (hscheduled.subset hp))
  depth := fun p hp => h.depth p (hscheduled.subset hp)
  staged := by
    rw [hroots]
    exact hstaged
  resume := hresume
  emission := hemission
  finished := hfinished

theorem Sound.complete (h : Sound s) (hcurrent : s.current = some current)
    (hemission : s.pendingEmission = none) : Sound (s.completeCurrent current) := by
  have hscheduled := scheduled_of_current hcurrent
  refine h.mono rfl ?_ ?_ (Finset.Subset.refl _) (fun _ h => nomatch h) ?_
    (fun hsome => absurd hemission hsome) (fun _ => rfl)
  · rw [hscheduled, scheduled_of_none rfl]
    exact List.sublist_cons_self _ _
  · intro key hkey
    rcases Finset.mem_insert.mp hkey with rfl | hold
    · refine .inr ⟨current.pending, by rw [hscheduled]; exact List.mem_cons_self, rfl, ?_⟩
      intro q hq heq
      have hnodup := h.nodup
      rw [hscheduled, List.cons_append, List.map_cons, List.nodup_cons] at hnodup
      exact hnodup.1 (heq ▸ List.mem_map_of_mem hq)
    · exact .inl hold
  · intro hsome
    have hnone := (h.resume hsome).1
    rw [hcurrent] at hnone
    cases hnone

theorem Sound.fail (h : Sound s) (hcurrent : s.current = some current)
    (hemission : s.pendingEmission = none) : Sound (s.failCurrent current) := by
  have hscheduled := scheduled_of_current hcurrent
  have hnodup := h.nodup
  rw [hscheduled, List.cons_append, List.map_cons, List.nodup_cons, List.map_append,
    List.nodup_append] at hnodup
  obtain ⟨hnew, -, hpending, hdisjoint⟩ := hnodup
  have hmem : current.pending ∈ s.scheduled := by
    rw [hscheduled]
    exact List.mem_cons_self
  have hwaiting : ∀ p ∈ s.pending, p ∈ s.scheduled := fun p hp => List.mem_append_right _ hp
  have hkeys : ∀ key, key ∈ keys current.nested ↔ key ∈ current.nested.map PendingSitemap.key :=
    fun key => List.mem_toFinset
  have hnot : ∀ p ∈ s.pending, p.key ∉ keys current.nested := by
    intro p hp hin
    exact hdisjoint _ ((hkeys _).mp hin) _ (List.mem_map_of_mem hp) rfl
  have hself : current.pending.key ∉ keys current.nested := by
    intro hin
    exact hnew (List.mem_append_left _ ((hkeys _).mp hin))
  constructor
  · rw [scheduled_of_none rfl]
    exact hpending
  · intro p hp hdone
    rw [scheduled_of_none rfl] at hp
    rcases Finset.mem_insert.mp hdone with heq | hold
    · exact hnew (heq ▸ List.mem_append_right _ (List.mem_map_of_mem hp))
    · exact h.unfinished p (hwaiting p hp) hold
  · intro root hroot
    refine Finset.mem_sdiff.mpr ⟨h.seen_roots root hroot, ?_⟩
    intro hin
    obtain ⟨p, hp, heq⟩ := List.mem_map.mp ((hkeys _).mp hin)
    exact (h.staged current hcurrent p hp).2 root hroot heq.symm
  · intro key hkey
    rcases Finset.mem_insert.mp hkey with rfl | hold
    · exact Finset.mem_sdiff.mpr ⟨h.seen_scheduled _ hmem, hself⟩
    · refine Finset.mem_sdiff.mpr ⟨h.seen_completed hold, ?_⟩
      intro hin
      obtain ⟨p, hp, rfl⟩ := List.mem_map.mp ((hkeys _).mp hin)
      refine h.unfinished p ?_ hold
      rw [hscheduled]
      exact List.mem_append_left _ (List.mem_cons_of_mem _ hp)
  · intro p hp
    rw [scheduled_of_none rfl] at hp
    exact Finset.mem_sdiff.mpr ⟨h.seen_scheduled p (hwaiting p hp), hnot p hp⟩
  · intro p hp
    rw [scheduled_of_none rfl] at hp
    exact h.depth p (hwaiting p hp)
  · exact fun _ h => nomatch h
  · intro hsome
    have hnone := (h.resume hsome).1
    rw [hcurrent] at hnone
    cases hnone
  · exact fun hsome => absurd hemission hsome
  · exact fun _ => rfl

theorem Sound.proceeds {current' : ActiveSitemap Url} (h : Sound s)
    (hcurrent : s.current = some current) (ht : t.current = some current')
    (hpending : current'.pending = current.pending) (hnested : current'.nested = current.nested)
    (hsame : t.roots = s.roots ∧ t.pending = s.pending ∧ t.completed = s.completed ∧
      t.seenSitemaps = s.seenSitemaps ∧ t.resumeSkip = s.resumeSkip)
    (hrunning : t.running)
    (hemission : t.pendingEmission ≠ none → 0 < current'.entriesSeen) : Sound t := by
  obtain ⟨hroots, hstack, hcompleted, hseen, hresume⟩ := hsame
  have hscheduled : t.scheduled = s.scheduled := by
    rw [scheduled_of_current hcurrent, scheduled_of_current ht, hpending, hnested, hstack]
  refine h.mono hroots ?_ ?_ ?_ ?_ ?_ ?_ ?_
  · rw [hscheduled]
  · rw [hcompleted]
    exact fun key hkey => .inl hkey
  · rw [hseen]
  · intro c hc
    rw [ht] at hc
    cases hc
    rw [hnested, hpending]
    exact h.staged current hcurrent
  · intro hsome
    rw [hresume] at hsome
    have hnone := (h.resume hsome).1
    rw [hcurrent] at hnone
    cases hnone
  · exact fun hsome => ⟨hrunning, current', ht, hemission hsome⟩
  · intro hfinished
    rw [hrunning.1] at hfinished
    cases hfinished

theorem Sound.emitted (h : Sound s) : Sound s.emitted :=
  h.mono rfl (List.Sublist.refl _) (fun _ hkey => .inl hkey) (Finset.Subset.refl _) h.staged
    h.resume (fun hsome => absurd rfl hsome) h.finished

theorem Sound.peeked (h : Sound s) {p : PendingSitemap Url} {rest : List (PendingSitemap Url)}
    (hstack : s.openStack = p :: rest) : Sound (s.peeked p rest) := by
  have hpending : s.pending = p :: rest := h.openStack.symm.trans hstack
  have hscheduled : (s.peeked p rest).scheduled = s.scheduled := by
    simp only [State.scheduled, State.active, State.peeked, hpending]
  refine h.mono rfl (hscheduled ▸ List.Sublist.refl _) (fun key hkey => .inl hkey)
    (Finset.subset_insert _ _) h.staged ?_ h.emission h.finished
  exact fun hsome => ⟨(h.resume hsome).1, fun hnil => nomatch hnil⟩

section Turn
variable [DecidableEq Url] {autoPersist : Bool} {reply : Reply} {result : Turn Url}

theorem scheduled_stage {current' : ActiveSitemap Url} (hcurrent : s.current = some current)
    (hpending : current'.pending = current.pending) (hnested : current'.nested = current.nested)
    (url : Url) : (s.stage current' url).scheduled.Perm
      ({ url, depth := if url ∈ s.roots then 0 else current.pending.depth + 1 } ::
        s.scheduled) := by
  rw [scheduled_of_current hcurrent, scheduled_of_current rfl]
  show List.Perm (current'.pending :: (current'.nested ++ [_]) ++ s.pending) _
  rw [hpending, hnested]
  have hmiddle : List.Perm ((current.pending :: current.nested) ++
      { url, depth := if url ∈ s.roots then 0 else current.pending.depth + 1 } :: s.pending) _ :=
    List.perm_middle
  simpa using hmiddle

theorem Sound.stage {url : Url} (h : Sound s) (hcurrent : s.current = some current)
    (hrunning : s.running) (hemission : s.pendingEmission = none)
    (hdepth : current.pending.depth < maxDepth) (hnew : asStr url ∉ s.seenSitemaps) :
    Sound (s.stage current url) := by
  have hscheduled := scheduled_of_current hcurrent
  have hfresh : ∀ p ∈ s.scheduled, p.key ≠ asStr url := by
    intro p hp heq
    exact hnew (heq ▸ h.seen_scheduled p hp)
  have hroot : url ∉ s.roots := fun hin => hnew (h.seen_roots url hin)
  have hperm := scheduled_stage hcurrent (rfl : current.pending = _) rfl url
  rw [if_neg hroot] at hperm
  have hmem : ∀ p ∈ (s.stage current url).scheduled, p ∈ s.scheduled ∨
      p = { url, depth := current.pending.depth + 1 } := by
    intro p hp
    rcases List.mem_cons.mp (hperm.mem_iff.mp hp) with heq | hold
    · exact .inr heq
    · exact .inl hold
  constructor
  · rw [(hperm.map _).nodup_iff, List.map_cons, List.nodup_cons]
    refine ⟨?_, h.nodup⟩
    intro hin
    obtain ⟨p, hp, heq⟩ := List.mem_map.mp hin
    exact hfresh p hp heq
  · intro p hp hdone
    obtain hold | rfl := hmem p hp
    · exact h.unfinished p hold hdone
    · exact hnew (h.seen_completed hdone)
  · exact fun root hroot => Finset.mem_insert_of_mem (h.seen_roots root hroot)
  · exact fun key hkey => Finset.mem_insert_of_mem (h.seen_completed hkey)
  · intro p hp
    obtain hold | rfl := hmem p hp
    · exact Finset.mem_insert_of_mem (h.seen_scheduled p hold)
    · exact Finset.mem_insert_self _ _
  · intro p hp
    obtain hold | rfl := hmem p hp
    · exact h.depth p hold
    · exact hdepth
  · intro c hc p hp
    cases hc
    rcases List.mem_append.mp hp with hold | hone
    · exact h.staged current hcurrent p hold
    · rw [List.mem_singleton.mp hone, if_neg hroot]
      refine ⟨Nat.lt_succ_self _, ?_⟩
      intro root hin heq
      have heq : asStr root = asStr url := heq
      exact hnew (heq ▸ h.seen_roots root hin)
  · intro hsome
    have hnone := (h.resume hsome).1
    rw [hcurrent] at hnone
    cases hnone
  · exact fun hsome => absurd hemission hsome
  · intro hfinished
    have hrunning : s.finished = false := hrunning.1
    have hfinished : s.finished = true := hfinished
    rw [hrunning] at hfinished
    cases hfinished

inductive Turns (s : State Url) (autoPersist : Bool) : Reply → Turn Url → Prop
  | stops (reply : Reply) : ¬ s.running →
      Turns s autoPersist reply ⟨{ s with finished := true, current := none }, .returned none, none⟩
  | emits (reply : Reply) (request : SitemapRequest Url) : s.running →
      s.pendingEmission = some request →
      Turns s autoPersist reply (s.emit autoPersist request reply)
  | exhausts (reply : Reply) : s.running → s.pendingEmission = none → s.current = none →
      s.openStack = [] → Turns s autoPersist reply (State.exhausted { s with pending := [] })
  | opens (p : PendingSitemap Url) (rest : List (PendingSitemap Url)) (events : List EventResult) :
      s.running → s.pendingEmission = none → s.current = none → s.openStack = p :: rest →
      Turns s autoPersist (.opened events) ((s.peeked p rest).opened p events).goes
  | refuses (p : PendingSitemap Url) (rest : List (PendingSitemap Url)) :
      s.running → s.pendingEmission = none → s.current = none → s.openStack = p :: rest →
      Turns s autoPersist .refused (((s.peeked p rest).markFetchFailure p).saves autoPersist)
  | drops (p : PendingSitemap Url) (rest : List (PendingSitemap Url)) :
      s.running → s.pendingEmission = none → s.current = none → s.openStack = p :: rest →
      Turns s autoPersist .dropped ⟨s.peeked p rest, .dropped, none⟩
  | handles (reply : Reply) (current : ActiveSitemap Url) : s.running → s.pendingEmission = none →
      s.current = some current →
      Turns s autoPersist reply
        (if current.ends then (s.handle current).saves autoPersist else (s.handle current).goes)

theorem turn_turns (s : State Url) (autoPersist : Bool) (reply : Reply) :
    Turns s autoPersist reply (s.turn autoPersist reply) := by
  unfold State.turn
  by_cases hstop : (s.finished || s.limitReached) = true
  · rw [if_pos hstop]
    refine .stops reply ?_
    rintro ⟨hfinished, hlimit⟩
    rw [hfinished, hlimit] at hstop
    cases hstop
  · rw [if_neg hstop]
    have hrunning : s.running := by simpa [State.running] using hstop
    cases hemission : s.pendingEmission with
    | some request => exact .emits reply request hrunning hemission
    | none =>
      cases hcurrent : s.current with
      | some current => exact .handles reply current hrunning hemission hcurrent
      | none =>
        simp only [State.open, State.peekPending]
        cases hstack : s.openStack with
        | nil => exact .exhausts reply hrunning hemission hcurrent hstack
        | cons p rest =>
          cases reply with
          | opened events => exact .opens p rest events hrunning hemission hcurrent hstack
          | refused => exact .refuses p rest hrunning hemission hcurrent hstack
          | dropped => exact .drops p rest hrunning hemission hcurrent hstack

inductive Handles (s : State Url) (current : ActiveSitemap Url) : State Url → Prop
  | proceeds (event : EventResult) (events : List EventResult) (entriesSeen : ℕ)
      (emittedUrls : Finset String) (pendingEmission : Option (SitemapRequest Url)) :
      current.events = event :: events → (pendingEmission ≠ s.pendingEmission → 0 < entriesSeen) →
      Handles s current { s with
        current := some { current with events, entriesSeen }
        emittedUrls, pendingEmission }
  | stages (location : String) (url : Url) (events : List EventResult) :
      current.events = .ok (.nested location) :: events → parse location = some url →
      current.pending.depth < maxDepth → asStr url ∉ s.seenSitemaps →
      Handles s current (s.stage { current with events } url)
  | fails (events : List EventResult) : current.events = .error .body :: events →
      Handles s current (s.failCurrent current)
  | completes : Handles s current (s.completeCurrent current)

theorem handle_handles (s : State Url) (current : ActiveSitemap Url) :
    Handles s current (s.handle current) := by
  unfold State.handle
  split
  · rename_i loc events hevents
    unfold State.addEntry
    split
    · exact .proceeds _ _ _ _ _ hevents fun _ => Nat.succ_pos _
    · split_ifs
      · exact .proceeds _ _ _ _ _ hevents fun _ => Nat.succ_pos _
      · exact .proceeds _ _ _ _ _ hevents fun _ => Nat.succ_pos _
      · exact .proceeds _ _ _ _ _ hevents fun _ => Nat.succ_pos _
  · rename_i location events hevents
    have hproceeds : Handles s current (s.proceed { current with events }) :=
      .proceeds _ _ current.entriesSeen _ _ hevents fun hne => absurd rfl hne
    unfold State.addNested
    split_ifs with hdepth
    · exact hproceeds
    · split
      · exact hproceeds
      · rename_i url hurl
        split_ifs with hseen
        · exact hproceeds
        · exact .stages location url events hevents hurl (Nat.lt_of_not_le hdepth) hseen
  · rename_i events hevents
    exact .fails events hevents
  · exact .completes
  · exact .completes

theorem Sound.handles (h : Sound s) (hrunning : s.running) (hemission : s.pendingEmission = none)
    (hcurrent : s.current = some current) (ht : Handles s current t) : Sound t := by
  cases ht with
  | proceeds event events entriesSeen emittedUrls pendingEmission hevents hseen =>
    refine h.proceeds hcurrent rfl rfl rfl ⟨rfl, rfl, rfl, rfl, rfl⟩ hrunning ?_
    exact fun hsome => hseen fun heq => hsome (heq.trans hemission)
  | stages location url events hevents hurl hdepth hnew =>
    have hproceeds : Sound (s.proceed { current with events }) :=
      h.proceeds hcurrent rfl rfl rfl ⟨rfl, rfl, rfl, rfl, rfl⟩ hrunning
        fun hsome => absurd hemission hsome
    exact hproceeds.stage rfl hrunning hemission hdepth hnew
  | fails events hevents => exact h.fail hcurrent hemission
  | completes => exact h.complete hcurrent hemission

theorem Sound.turns (h : Sound s) (ht : Turns s autoPersist reply result) : Sound result.list := by
  cases ht with
  | stops reply hstop =>
    refine h.mono rfl ?_ (fun key hkey => .inl hkey) (Finset.Subset.refl _)
      (fun _ h => nomatch h) ?_ ?_ (fun _ => rfl)
    · rw [scheduled_of_none rfl]
      exact List.sublist_append_right _ _
    · exact fun hsome => ⟨rfl, (h.resume hsome).2⟩
    · exact fun hsome => absurd (h.emission hsome).1 hstop
  | emits reply request hrunning hemission =>
    cases reply with
    | dropped => exact h
    | opened events => exact h.emitted
    | refused => exact h.emitted
  | exhausts reply hrunning hemission hcurrent hstack =>
    refine h.mono rfl ?_ (fun key hkey => .inl hkey) (Finset.Subset.refl _) h.staged ?_ ?_
      (fun _ => hcurrent)
    · have hnone : (State.exhausted { s with pending := [] }).list.scheduled = [] :=
        scheduled_of_none hcurrent
      rw [hnone]
      exact List.nil_sublist _
    · exact fun hsome => absurd (h.openStack.symm.trans hstack) (h.resume hsome).2
    · exact fun hsome => absurd hemission hsome
  | opens p rest events hrunning hemission hcurrent hstack =>
    have hpeek := h.peeked hstack
    have hscheduled : (s.peeked p rest).scheduled = p :: rest := scheduled_of_none hcurrent
    refine hpeek.mono rfl ?_ (fun key hkey => .inl hkey) (Finset.Subset.refl _) ?_ ?_ ?_ ?_
    · rw [hscheduled]
      exact List.Sublist.refl _
    · intro c hc q hq
      cases hc
      cases hq
    · exact fun hsome => absurd rfl hsome
    · exact fun hsome => absurd hemission hsome
    · intro hfinished
      have hfinished : s.finished = true := hfinished
      rw [hrunning.1] at hfinished
      cases hfinished
  | refuses p rest hrunning hemission hcurrent hstack =>
    have hpeek := h.peeked hstack
    have hscheduled : (s.peeked p rest).scheduled = p :: rest := scheduled_of_none hcurrent
    have hafter : (((s.peeked p rest).markFetchFailure p).saves autoPersist).list.scheduled =
        rest := scheduled_of_none hcurrent
    refine hpeek.mono rfl ?_ ?_ (Finset.Subset.refl _) hpeek.staged ?_ ?_ ?_
    · rw [hscheduled, hafter]
      exact List.sublist_cons_self _ _
    · intro key hkey
      rcases Finset.mem_insert.mp hkey with rfl | hold
      · refine .inr ⟨p, by rw [hscheduled]; exact List.mem_cons_self, rfl, ?_⟩
        intro q hq heq
        rw [hafter] at hq
        have hnodup := hpeek.nodup
        rw [hscheduled, List.map_cons, List.nodup_cons] at hnodup
        exact hnodup.1 (heq ▸ List.mem_map_of_mem hq)
      · exact .inl hold
    · exact fun hsome => absurd rfl hsome
    · exact fun hsome => absurd hemission hsome
    · exact fun _ => hcurrent
  | drops p rest hrunning hemission hcurrent hstack => exact h.peeked hstack
  | handles reply current hrunning hemission hcurrent =>
    have hhandle := h.handles hrunning hemission hcurrent (handle_handles s current)
    split_ifs
    · exact hhandle
    · exact hhandle

end Turn

theorem depths_lookup (l : List (PendingSitemap Url)) (hnodup : (l.map PendingSitemap.key).Nodup)
    {p : PendingSitemap Url} (hp : p ∈ l) :
    (l.foldr (fun p (depths : HashMap String ℕ) => depths.insert p.key p.depth) ∅).lookup p.key =
      some p.depth := by
  induction l with
  | nil => cases hp
  | cons q l ih =>
    rw [List.map_cons, List.nodup_cons] at hnodup
    rw [List.foldr_cons, AList.lookup_insert_ite]
    rcases List.mem_cons.mp hp with rfl | hp
    · rw [if_pos rfl]
    · have hne : p.key ≠ q.key := by
        intro heq
        exact hnodup.1 (heq ▸ List.mem_map_of_mem hp)
      rw [if_neg hne]
      exact ih hnodup.2 hp

theorem Sound.saved_nodup (h : Sound s) :
    ((s.inProgress.toList ++ s.waiting).map PendingSitemap.key).Nodup :=
  h.nodup.sublist ((saved_sublist s).map _)

structure State.Fresh (s : State Url) : Prop where
  current : s.current = none
  emission : s.pendingEmission = none
  finished : s.finished = false
  resume : s.resumeSkip = none
  completed : s.completed = ∅
  emittedUrls : s.emittedUrls = ∅
  seen : ∀ key ∈ s.seenSitemaps, ∃ root ∈ s.roots, asStr root = key

theorem build_fresh (h : b.build = some s) : s.Fresh := by
  unfold SitemapRequestListBuilder.build at h
  split_ifs at h
  cases h
  refine ⟨rfl, rfl, rfl, rfl, rfl, rfl, ?_⟩
  intro key hkey
  exact List.mem_map.mp (List.mem_toFinset.mp hkey)

section Restore
variable [DecidableEq Url] {r : State Url}

theorem Sound.restoreStack (h : Sound s) (r : State Url) (n : ℕ) (emission : Bool) :
    r.restoreStack (s.persistSnapshot n emission) = s.inProgress.toList ++ s.waiting := by
  have hnodup : (s.waiting.map PendingSitemap.key).Nodup :=
    h.saved_nodup.sublist ((List.sublist_append_right _ _).map _)
  have hparse : ∀ l : List (PendingSitemap Url),
      (l.map PendingSitemap.key).filterMap (parse : String → Option Url) =
        l.map PendingSitemap.url := by
    intro l
    rw [List.filterMap_map]
    induction l with
    | nil => rfl
    | cons p l ih =>
      have hp : (parse p.key : Option Url) = some p.url := parse_asStr p.url
      simp only [List.filterMap_cons, Function.comp, hp, List.map_cons]
      exact congrArg _ ih
  have hwaiting : ((s.waiting.map PendingSitemap.key).filterMap (parse : String → Option Url)).map
      (fun url => { url, depth := ((s.persistSnapshot n emission).pendingDepths.lookup
        (asStr url)).getD (r.depthOf url) }) = s.waiting := by
    rw [hparse, List.map_map]
    refine (List.map_congr_left fun p hp => ?_).trans (List.map_id _)
    have hdepth := depths_lookup s.waiting hnodup hp
    simp only [Function.comp, State.persistSnapshot]
    rw [PendingSitemap.key] at hdepth
    rw [hdepth]
    rfl
  have hnamed : (s.persistSnapshot n emission).inProgress.bind (parse : String → Option Url) =
      (s.inProgress.map PendingSitemap.key).bind parse := rfl
  unfold State.restoreStack
  simp only [hnamed]
  cases hprogress : s.inProgress with
  | none =>
    simp only [Option.map_none, Option.bind_none, Option.toList_none, List.nil_append]
    exact hwaiting
  | some p =>
    have hp : (parse p.key : Option Url) = some p.url := parse_asStr p.url
    simp only [Option.map_some, Option.bind_some, hp, Option.toList_some, List.singleton_append]
    refine List.cons_eq_cons.mpr ⟨?_, hwaiting⟩
    simp only [State.persistSnapshot, hprogress]
    rfl

theorem restore_resume (s : State Url) (hfresh : r.Fresh) (n : ℕ) (emission : Bool) :
    (r.restore (s.persistSnapshot n emission)).resumeSkip =
      s.inProgress.map fun _ => (s.persistSnapshot n emission).emittedInProgress := by
  show (if (Option.bind (s.inProgress.map PendingSitemap.key)
    fun text => (parse text : Option Url)).isSome then some _ else r.resumeSkip) = _
  cases hprogress : s.inProgress with
  | none => exact hfresh.resume
  | some p =>
    have hp : (parse p.key : Option Url) = some p.url := parse_asStr p.url
    simp only [Option.map_some, Option.bind_some, hp, Option.isSome_some, if_true]

theorem Sound.restore (h : Sound s) (hr : Sound r) (hfresh : r.Fresh) (n : ℕ) (emission : Bool) :
    Sound (r.restore (s.persistSnapshot n emission)) := by
  have hstack := h.restoreStack r n emission
  have hrestored : (r.restore (s.persistSnapshot n emission)).scheduled =
      r.restoreStack (s.persistSnapshot n emission) := scheduled_of_none hfresh.current
  have hscheduled := hrestored.trans hstack
  constructor
  · rw [hscheduled]
    exact h.saved_nodup
  · rw [hscheduled]
    exact fun p hp => h.unfinished p ((saved_sublist s).subset hp)
  · intro root hroot
    exact Finset.mem_union_left _ (Finset.mem_union_left _ (hr.seen_roots root hroot))
  · intro key hkey
    exact Finset.mem_union_left _ (Finset.mem_union_right _ hkey)
  · intro p hp
    rw [hrestored] at hp
    exact Finset.mem_union_right _ (List.mem_toFinset.mpr (List.mem_map_of_mem hp))
  · rw [hscheduled]
    exact fun p hp => h.depth p ((saved_sublist s).subset hp)
  · intro c hc
    have hc : r.current = some c := hc
    rw [hfresh.current] at hc
    cases hc
  · intro hsome
    refine ⟨hfresh.current, ?_⟩
    rw [restore_resume s hfresh] at hsome
    show r.restoreStack _ ≠ []
    rw [hstack]
    cases hprogress : s.inProgress with
    | none =>
      rw [hprogress] at hsome
      exact absurd rfl hsome
    | some p => exact fun hnil => nomatch hnil
  · exact fun hsome => absurd hfresh.emission hsome
  · exact fun _ => hfresh.current

end Restore

end Millipede.Sitemap
