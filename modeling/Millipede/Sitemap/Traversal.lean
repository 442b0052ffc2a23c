import Millipede.Sitemap.Schedule

/-!
# The traversal of sitemaps

What has been seen is scheduled or completed, but for the roots and for what is given up when
the limit is reached. A document becomes current once in a process, the current document is
not completed, and a cursor is that of the snapshot for the document it is applied to.
-/

namespace Millipede.Sitemap

open UrlText

variable {Url : Type}

section Same
variable {s t : State Url} {current : ActiveSitemap Url}

structure State.SameList (s t : State Url) : Prop where
  roots : t.roots = s.roots
  persistence : t.persistence = s.persistence
  limit : t.limit = s.limit
  loaded : t.loaded = s.loaded
  label : t.label = s.label
  userData : t.userData = s.userData

theorem visits_of_current (t : State Url) (hcurrent : s.current = some current) :
    s.visits t = [] := by
  rw [State.visits, hcurrent]

theorem visits_of_none (s : State Url) (ht : t.current = none) : s.visits t = [] := by
  rw [State.visits, ht]
  cases s.current <;> rfl

end Same

variable [UrlText Url] {b : SitemapRequestListBuilder Url} {s t : State Url}
  {current : ActiveSitemap Url} {exempt : Finset String}

theorem mem_keys_of_mem {p : PendingSitemap Url} {l : List (PendingSitemap Url)} (hp : p ∈ l) :
    p.key ∈ keys l :=
  List.mem_toFinset.mpr (List.mem_map_of_mem hp)

theorem exists_of_mem_keys {key : String} {l : List (PendingSitemap Url)} (h : key ∈ keys l) :
    ∃ p ∈ l, p.key = key :=
  List.mem_map.mp (List.mem_toFinset.mp h)

/-- What was seen is scheduled or completed. -/
def State.Accounted (s : State Url) (exempt : Finset String) : Prop :=
  s.seenSitemaps ⊆ exempt ∪ s.completed ∪ keys s.scheduled

theorem State.Accounted.mono (h : s.Accounted exempt)
    (hseen : ∀ key ∈ t.seenSitemaps, key ∈ s.seenSitemaps ∨ key ∈ keys t.scheduled)
    (hcompleted : s.completed ⊆ t.completed)
    (hscheduled : ∀ p ∈ s.scheduled, p.key ∈ t.seenSitemaps →
      p.key ∈ t.completed ∨ p.key ∈ keys t.scheduled) : t.Accounted exempt := by
  intro key hkey
  rcases hseen key hkey with hold | hnew
  · rcases Finset.mem_union.mp (h hold) with hdone | hdue
    · refine Finset.mem_union_left _ ?_
      rcases Finset.mem_union.mp hdone with hexempt | hdone
      · exact Finset.mem_union_left _ hexempt
      · exact Finset.mem_union_right _ (hcompleted hdone)
    · obtain ⟨p, hp, rfl⟩ := exists_of_mem_keys hdue
      rcases hscheduled p hp hkey with hdone | hdue
      · exact Finset.mem_union_left _ (Finset.mem_union_right _ hdone)
      · exact Finset.mem_union_right _ hdue
  · exact Finset.mem_union_right _ hnew

theorem build_accounted (h : b.build = some s) (exempt : Finset String) : s.Accounted exempt := by
  intro key hkey
  refine Finset.mem_union_right _ ?_
  unfold SitemapRequestListBuilder.build at h
  split_ifs at h
  cases h
  obtain ⟨root, hroot, rfl⟩ := List.mem_map.mp (List.mem_toFinset.mp hkey)
  exact mem_keys_of_mem (p := { url := root, depth := 0 }) (List.mem_map_of_mem hroot)

theorem State.Accounted.proceeds {current' : ActiveSitemap Url} (h : s.Accounted exempt)
    (hcurrent : s.current = some current) (ht : t.current = some current')
    (hpending : current'.pending = current.pending) (hnested : current'.nested = current.nested)
    (hstack : t.pending = s.pending) (hcompleted : t.completed = s.completed)
    (hseen : t.seenSitemaps = s.seenSitemaps) : t.Accounted exempt := by
  have hscheduled : t.scheduled = s.scheduled := by
    rw [scheduled_of_current hcurrent, scheduled_of_current ht, hpending, hnested, hstack]
  unfold State.Accounted at h ⊢
  rw [hseen, hcompleted, hscheduled]
  exact h

theorem State.Accounted.complete (h : s.Accounted exempt) (hcurrent : s.current = some current) :
    (s.completeCurrent current).Accounted exempt := by
  refine h.mono (fun _ hkey => .inl hkey) (Finset.subset_insert _ _) ?_
  intro p hp _
  rw [scheduled_of_current hcurrent] at hp
  rcases List.mem_cons.mp hp with rfl | hp
  · exact .inl (Finset.mem_insert_self _ _)
  · exact .inr (mem_keys_of_mem hp)

theorem State.Accounted.fail (h : s.Accounted exempt) (hcurrent : s.current = some current) :
    (s.failCurrent current).Accounted exempt := by
  refine h.mono (fun _ hkey => .inl (Finset.mem_sdiff.mp hkey).1) (Finset.subset_insert _ _) ?_
  intro p hp hseen
  rw [scheduled_of_current hcurrent] at hp
  rcases List.mem_cons.mp hp with rfl | hp
  · exact .inl (Finset.mem_insert_self _ _)
  · rcases List.mem_append.mp hp with hnested | hp
    · exact absurd (mem_keys_of_mem hnested) (Finset.mem_sdiff.mp hseen).2
    · exact .inr (mem_keys_of_mem hp)

section Turn
variable [DecidableEq Url] {autoPersist : Bool} {reply : Reply} {result : Turn Url}

theorem State.Accounted.stage {current' : ActiveSitemap Url} (h : s.Accounted exempt)
    (hcurrent : s.current = some current) (hpending : current'.pending = current.pending)
    (hnested : current'.nested = current.nested) (url : Url) :
    (s.stage current' url).Accounted exempt := by
  have hperm := scheduled_stage hcurrent hpending hnested url
  refine h.mono ?_ (Finset.Subset.refl _) ?_
  · intro key hkey
    rcases Finset.mem_insert.mp hkey with rfl | hold
    · exact .inr (mem_keys_of_mem (hperm.mem_iff.mpr List.mem_cons_self))
    · exact .inl hold
  · exact fun p hp _ => .inr (mem_keys_of_mem (hperm.mem_iff.mpr (List.mem_cons_of_mem _ hp)))

theorem State.Accounted.handles (h : s.Accounted exempt) (hcurrent : s.current = some current)
    (ht : Handles s current t) : t.Accounted exempt := by
  cases ht with
  | proceeds event events entriesSeen emittedUrls pendingEmission _ _ =>
    exact h.proceeds hcurrent rfl rfl rfl rfl rfl rfl
  | stages location url events _ _ _ _ =>
    exact h.stage hcurrent rfl rfl url
  | fails events _ => exact h.fail hcurrent
  | completes => exact h.complete hcurrent

theorem State.Accounted.turns (h : s.Accounted exempt) (hs : Sound s)
    (hstays : ¬ s.running → s.current = none) (ht : Turns s autoPersist reply result) :
    result.list.Accounted exempt := by
  have hpeeked : ∀ p rest, s.openStack = p :: rest → ∀ key ∈ insert p.key s.seenSitemaps,
      key ∈ s.seenSitemaps := by
    intro p rest hstack key hkey
    have hp : p ∈ s.scheduled := by
      refine List.mem_append_right _ ?_
      rw [← hs.openStack, hstack]
      exact List.mem_cons_self
    rcases Finset.mem_insert.mp hkey with rfl | hold
    · exact hs.seen_scheduled p hp
    · exact hold
  have hpending : ∀ p rest, s.current = none → s.openStack = p :: rest →
      s.scheduled = p :: rest := by
    intro p rest hcurrent hstack
    rw [scheduled_of_none hcurrent, ← hs.openStack, hstack]
  cases ht with
  | stops reply hstop =>
    have hcurrent := hstays hstop
    refine h.mono (fun _ hkey => .inl hkey) (Finset.Subset.refl _) ?_
    intro p hp _
    rw [scheduled_of_none hcurrent] at hp
    exact .inr (mem_keys_of_mem (List.mem_append_right _ hp))
  | emits reply request hrunning hemission =>
    cases reply with
    | dropped => exact h
    | opened events => exact h
    | refused => exact h
  | exhausts reply hrunning hemission hcurrent hstack =>
    refine h.mono (fun _ hkey => .inl hkey) (Finset.Subset.refl _) ?_
    intro p hp _
    rw [scheduled_of_none hcurrent, ← hs.openStack, hstack] at hp
    cases hp
  | opens p rest events hrunning hemission hcurrent hstack =>
    refine h.mono ?_ (Finset.Subset.refl _) ?_
    · exact fun key hkey => .inl (hpeeked p rest hstack key hkey)
    · intro q hq _
      rw [hpending p rest hcurrent hstack] at hq
      exact .inr (mem_keys_of_mem hq)
  | refuses p rest hrunning hemission hcurrent hstack =>
    have hafter : (((s.peeked p rest).markFetchFailure p).saves autoPersist).list.scheduled =
        rest := scheduled_of_none hcurrent
    refine h.mono ?_ (Finset.subset_insert _ _) ?_
    · exact fun key hkey => .inl (hpeeked p rest hstack key hkey)
    · intro q hq _
      rw [hpending p rest hcurrent hstack] at hq
      rcases List.mem_cons.mp hq with rfl | hq
      · exact .inl (Finset.mem_insert_self _ _)
      · rw [hafter]
        exact .inr (mem_keys_of_mem hq)
  | drops p rest hrunning hemission hcurrent hstack =>
    have hafter : (s.peeked p rest).scheduled = p :: rest := scheduled_of_none hcurrent
    refine h.mono ?_ (Finset.Subset.refl _) ?_
    · exact fun key hkey => .inl (hpeeked p rest hstack key hkey)
    · intro q hq _
      rw [hpending p rest hcurrent hstack] at hq
      rw [hafter]
      exact .inr (mem_keys_of_mem hq)
  | handles reply current hrunning hemission hcurrent =>
    have hhandle := h.handles hcurrent (handle_handles s current)
    split_ifs
    · exact hhandle
    · exact hhandle

theorem Handles.goes_or_ends (ht : Handles s current t) :
    (∃ current', t.current = some current' ∧ current'.pending = current.pending ∧
      current'.skipEntries = current.skipEntries ∧ t.completed = s.completed) ∨
    t.current = none ∧ t.completed = insert current.pending.key s.completed := by
  cases ht with
  | proceeds event events entriesSeen emittedUrls pendingEmission _ _ =>
    exact .inl ⟨_, rfl, rfl, rfl, rfl⟩
  | stages location url events _ _ _ _ => exact .inl ⟨_, rfl, rfl, rfl, rfl⟩
  | fails events _ => exact .inr ⟨rfl, rfl⟩
  | completes => exact .inr ⟨rfl, rfl⟩

theorem Handles.same (ht : Handles s current t) :
    s.SameList t ∧ t.resumeSkip = s.resumeSkip ∧ t.finished = s.finished := by
  cases ht with
  | _ => exact ⟨⟨rfl, rfl, rfl, rfl, rfl, rfl⟩, rfl, rfl⟩

theorem turns_same (ht : Turns s autoPersist reply result) : s.SameList result.list := by
  cases ht with
  | emits reply request _ _ => cases reply <;> exact ⟨rfl, rfl, rfl, rfl, rfl, rfl⟩
  | handles reply current _ _ _ =>
    have hsame := (handle_handles s current).same.1
    split_ifs
    · exact hsame
    · exact hsame
  | _ => exact ⟨rfl, rfl, rfl, rfl, rfl, rfl⟩

end Turn

def PersistedState.Saved (Url : Type) [UrlText Url] (saved : PersistedState) : Prop :=
  ∃ (s : State Url) (n : ℕ) (emission : Bool), Sound s ∧ saved = s.persistSnapshot n emission

def State.rootKeys (s : State Url) : Finset String := (s.roots.map asStr).toFinset

structure Kept (b : SitemapRequestListBuilder Url) (w : World Url) : Prop where
  sound : Sound w.list
  accounted : w.list.finished = false → w.list.Accounted w.list.rootKeys
  built : w.list.loaded = false → w.visited = [] ∧
    ∃ limit, { b with limit }.build = some w.list
  stored : ∀ saved, w.stored = some saved → saved.Saved Url
  visited_nodup : (w.visited.map PendingSitemap.key).Nodup
  visited_depth : ∀ p ∈ w.visited, p.depth ≤ maxDepth
  visited_done : ∀ p ∈ w.visited, p.key ∈ w.list.completed ∨
    (∃ current, w.list.current = some current ∧ current.pending.key = p.key) ∨
    w.list.finished = true
  resume : ∀ k, w.list.resumeSkip = some k → ∃ saved p rest, w.loadedFrom = some saved ∧
    w.list.pending = p :: rest ∧ saved.inProgress = some p.key ∧ saved.emittedInProgress = k
  skip : ∀ current, w.list.current = some current → current.skipEntries ≠ 0 →
    ∃ saved, w.loadedFrom = some saved ∧ saved.inProgress = some current.pending.key ∧
      saved.emittedInProgress = current.skipEntries

theorem kept_begin {limit : Option ℕ} {stored : Option PersistedState}
    (h : { b with limit }.build = some s)
    (hstored : ∀ saved, stored = some saved → saved.Saved Url) : Kept b (.begin s stored) where
  sound := build_sound h
  accounted := fun _ => build_accounted h _
  built := fun _ => ⟨rfl, limit, h⟩
  stored := hstored
  visited_nodup := List.nodup_nil
  visited_depth := fun _ hp => nomatch hp
  visited_done := fun _ hp => nomatch hp
  resume := by
    intro k hk
    rw [show (World.begin s stored).list.resumeSkip = none from (build_fresh h).resume] at hk
    cases hk
  skip := by
    intro current hc
    rw [show (World.begin s stored).list.current = none from (build_fresh h).current] at hc
    cases hc

section Step
variable {w w' : World Url} {autoPersist : Bool} {reply : Reply} {result : Turn Url}

theorem Sound.loaded (h : Sound s) : Sound { s with loaded := true } :=
  ⟨h.nodup, h.unfinished, h.seen_roots, h.seen_completed, h.seen_scheduled, h.depth, h.staged,
    h.resume, h.emission, h.finished⟩

theorem Kept.stays (h : Kept b w) {list : State Url} {stored : Option PersistedState}
    (emitted : List (SitemapRequest Url)) (hsound : Sound list)
    (haccounted : list.finished = false → list.Accounted list.rootKeys)
    (hloaded : list.loaded = true)
    (hstored : ∀ saved, stored = some saved → saved.Saved Url)
    (hvisits : w.list.visits list = []) (hcompleted : w.list.completed ⊆ list.completed)
    (hcurrent : ∀ current, w.list.current = some current →
      current.pending.key ∈ list.completed ∨
      (∃ current', list.current = some current' ∧
        current'.pending.key = current.pending.key) ∨ list.finished = true)
    (hfinished : w.list.finished = true → list.finished = true)
    (hresume : ∀ k, list.resumeSkip = some k →
      w.list.resumeSkip = some k ∧ list.pending = w.list.pending)
    (hskip : ∀ current', list.current = some current' → ∃ current,
      w.list.current = some current ∧ current'.pending = current.pending ∧
      current'.skipEntries = current.skipEntries) :
    Kept b { w with
      list, stored, emitted
      visited := w.visited ++ w.list.visits list } := by
  rw [hvisits, List.append_nil]
  refine ⟨hsound, haccounted, ?_, hstored, h.visited_nodup, h.visited_depth, ?_, ?_, ?_⟩
  · intro hfalse
    have hfalse : list.loaded = false := hfalse
    rw [hloaded] at hfalse
    cases hfalse
  · intro p hp
    obtain hdone | ⟨current, hc, heq⟩ | hfin := h.visited_done p hp
    · exact .inl (hcompleted hdone)
    · rw [← heq]
      exact hcurrent current hc
    · exact .inr (.inr (hfinished hfin))
  · intro k hk
    obtain ⟨hk', hpending⟩ := hresume k hk
    obtain ⟨saved, p, rest, hfrom, hstack, hfacts⟩ := h.resume k hk'
    exact ⟨saved, p, rest, hfrom, hpending.trans hstack, hfacts⟩
  · intro current' hc hne
    obtain ⟨current, hc', hpending, hskips⟩ := hskip current' hc
    obtain ⟨saved, hfrom, hprogress, hcursor⟩ := h.skip current hc' (hskips ▸ hne)
    exact ⟨saved, hfrom, hpending ▸ hprogress, hcursor.trans hskips.symm⟩

theorem Kept.opens (h : Kept b w) {p : PendingSitemap Url} {rest : List (PendingSitemap Url)}
    {events : List EventResult} {stored : Option PersistedState}
    (emitted : List (SitemapRequest Url)) (hloaded : w.list.loaded = true)
    (hrunning : w.list.running) (hcurrent : w.list.current = none)
    (hstack : w.list.openStack = p :: rest)
    (hsound : Sound ((w.list.peeked p rest).opened p events))
    (haccounted : ((w.list.peeked p rest).opened p events).finished = false →
      ((w.list.peeked p rest).opened p events).Accounted w.list.rootKeys)
    (hstored : ∀ saved, stored = some saved → saved.Saved Url) :
    Kept b { w with
      list := (w.list.peeked p rest).opened p events
      stored, emitted
      visited := w.visited ++ [p] } := by
  have hpending : w.list.pending = p :: rest := h.sound.openStack.symm.trans hstack
  have hmem : p ∈ w.list.scheduled := by
    rw [scheduled_of_none hcurrent, hpending]
    exact List.mem_cons_self
  have hnew : p.key ∉ w.visited.map PendingSitemap.key := by
    intro hin
    obtain ⟨q, hq, heq⟩ := List.mem_map.mp hin
    obtain hdone | ⟨current, hc, -⟩ | hfin := h.visited_done q hq
    · exact h.sound.unfinished p hmem (heq ▸ hdone)
    · rw [hcurrent] at hc
      cases hc
    · rw [hrunning.1] at hfin
      cases hfin
  refine ⟨hsound, haccounted, ?_, hstored, ?_, ?_, ?_, fun k hk => (nomatch hk), ?_⟩
  · intro hfalse
    have hfalse : w.list.loaded = false := hfalse
    rw [hloaded] at hfalse
    cases hfalse
  · rw [List.map_append, List.map_singleton]
    refine List.nodup_append.mpr ⟨h.visited_nodup, List.nodup_singleton _, ?_⟩
    intro a ha c hc
    rw [List.mem_singleton.mp hc]
    rintro rfl
    exact hnew ha
  · intro q hq
    rcases List.mem_append.mp hq with hold | hone
    · exact h.visited_depth q hold
    · rw [List.mem_singleton.mp hone]
      exact h.sound.depth p hmem
  · intro q hq
    rcases List.mem_append.mp hq with hold | hone
    · obtain hdone | ⟨current, hc, -⟩ | hfin := h.visited_done q hold
      · exact .inl hdone
      · rw [hcurrent] at hc
        cases hc
      · exact .inr (.inr hfin)
    · rw [List.mem_singleton.mp hone]
      exact .inr (.inl ⟨_, rfl, rfl⟩)
  · intro current hc hne
    cases hc
    -- The cursor of the list is that of the sitemap on top of its stack.
    cases hskip : w.list.resumeSkip with
    | none =>
      refine absurd ?_ hne
      show w.list.resumeSkip.getD 0 = 0
      rw [hskip]
      rfl
    | some k =>
      obtain ⟨saved, q, rest', hfrom, hstack', hprogress, hcursor⟩ := h.resume k hskip
      rw [hpending] at hstack'
      cases hstack'
      refine ⟨saved, hfrom, hprogress, hcursor.trans ?_⟩
      show k = w.list.resumeSkip.getD 0
      rw [hskip]
      rfl

theorem rootKeys_of_same (h : s.SameList t) : t.rootKeys = s.rootKeys := by
  unfold State.rootKeys
  rw [h.roots]

theorem Kept.unsaved (h : Kept b w) (hfresh : w.list.Fresh) (loadedFrom : Option PersistedState) :
    Kept b { w with
      list := { w.list with loaded := true }
      origin := { w.list with loaded := true }
      loadedFrom } := by
  refine ⟨h.sound.loaded, h.accounted, fun h => (nomatch h), h.stored, h.visited_nodup,
    h.visited_depth, h.visited_done, ?_, ?_⟩
  · intro k hk
    have hk : w.list.resumeSkip = some k := hk
    rw [hfresh.resume] at hk
    cases hk
  · intro current hc
    have hc : w.list.current = some current := hc
    rw [hfresh.current] at hc
    cases hc

variable [DecidableEq Url]

theorem checkpoint_cases (ht : Turns s autoPersist reply result) {saved : PersistedState}
    (hsaved : result.checkpoint = some saved) : ∃ n emission,
      saved = s.persistSnapshot n emission ∨ saved = result.list.persistSnapshot n emission := by
  have hemission : s.emissionCheckpoint autoPersist = some saved →
      saved = s.persistSnapshot (s.emittedTotal + 1) true := by
    intro h
    unfold State.emissionCheckpoint at h
    split_ifs at h
    exact (Option.some.inj h).symm
  have hsaves : ∀ t : State Url, (t.saves autoPersist).checkpoint = some saved →
      saved = t.persistSnapshot t.emittedTotal false := by
    intro t h
    simp only [State.saves] at h
    split_ifs at h
    exact (Option.some.inj h).symm
  cases ht with
  | stops reply _ => cases hsaved
  | emits reply request _ _ =>
    cases reply with
    | dropped => exact ⟨_, _, .inl (hemission hsaved)⟩
    | opened events => exact ⟨_, _, .inl (hemission hsaved)⟩
    | refused => exact ⟨_, _, .inl (hemission hsaved)⟩
  | exhausts reply _ _ _ _ => cases hsaved
  | opens p rest events _ _ _ _ => cases hsaved
  | refuses p rest _ _ _ _ => exact ⟨_, _, .inr (hsaves _ hsaved)⟩
  | drops p rest _ _ _ _ => cases hsaved
  | handles reply current _ _ _ =>
    split_ifs at hsaved ⊢
    · exact ⟨_, _, .inr (hsaves _ hsaved)⟩
    · cases hsaved

theorem checkpoint_saved (h : Sound s) (ht : Turns s autoPersist reply result)
    {saved : PersistedState} (hsaved : result.checkpoint = some saved) : saved.Saved Url := by
  obtain ⟨n, emission, hbefore | hafter⟩ := checkpoint_cases ht hsaved
  · exact ⟨s, n, emission, h, hbefore⟩
  · exact ⟨result.list, n, emission, h.turns ht, hafter⟩

theorem restore_accounted (s : State Url) {r : State Url} (hfresh : r.Fresh) (n : ℕ)
    (emission : Bool) :
    (r.restore (s.persistSnapshot n emission)).Accounted
      (r.restore (s.persistSnapshot n emission)).rootKeys := by
  intro key hkey
  rcases Finset.mem_union.mp hkey with hkey | hkey
  · rcases Finset.mem_union.mp hkey with hkey | hkey
    · obtain ⟨root, hroot, rfl⟩ := hfresh.seen key hkey
      refine Finset.mem_union_left _ (Finset.mem_union_left _ ?_)
      exact List.mem_toFinset.mpr (List.mem_map_of_mem hroot)
    · exact Finset.mem_union_left _ (Finset.mem_union_right _ hkey)
  · refine Finset.mem_union_right _ ?_
    rw [show (r.restore (s.persistSnapshot n emission)).scheduled = r.restoreStack _ from
      scheduled_of_none hfresh.current]
    exact hkey

theorem Kept.restored (h : Kept b w) (hs : Sound s) (hfresh : w.list.Fresh)
    (hvisited : w.visited = []) (n : ℕ) (emission : Bool) (origin : State Url) :
    Kept b { w with
      list := w.list.restore (s.persistSnapshot n emission)
      origin
      loadedFrom := some (s.persistSnapshot n emission) } := by
  refine ⟨hs.restore h.sound hfresh n emission, fun _ => restore_accounted s hfresh n emission,
    fun h => (nomatch h), h.stored, h.visited_nodup, h.visited_depth, ?_, ?_, ?_⟩
  · intro p hp
    have hp : p ∈ w.visited := hp
    rw [hvisited] at hp
    cases hp
  · intro k hk
    have hk : (w.list.restore (s.persistSnapshot n emission)).resumeSkip = some k := hk
    rw [restore_resume s hfresh] at hk
    obtain ⟨p, hprogress, hcursor⟩ := Option.map_eq_some_iff.mp hk
    refine ⟨_, p, s.waiting, rfl, ?_, ?_, hcursor⟩
    · show w.list.restoreStack _ = _
      rw [hs.restoreStack w.list n emission, hprogress]
      rfl
    · show s.inProgress.map PendingSitemap.key = _
      rw [hprogress]
      rfl
  · intro current hc
    have hc : w.list.current = some current := hc
    rw [hfresh.current] at hc
    cases hc

theorem Kept.load (h : Kept b w) {list : State Url} (hunloaded : w.list.loaded = false)
    (hload : w.list.loadPersisted w.stored = some list) :
    Kept b { w with
      list
      origin := list
      loadedFrom := if w.list.persistence then w.stored else none } := by
  obtain ⟨hvisited, limit, hbuilt⟩ := h.built hunloaded
  have hfresh := build_fresh hbuilt
  unfold State.loadPersisted at hload
  simp only [hunloaded, Bool.false_eq_true, if_false] at hload
  split_ifs at hload with hpersistence
  · obtain hstored | ⟨saved, hstored⟩ := Option.eq_none_or_eq_some w.stored
    · rw [hstored] at hload
      cases hload
      exact h.unsaved hfresh _
    · rw [hstored] at hload
      obtain ⟨s, n, emission, hs, rfl⟩ := h.stored saved hstored
      have hlist : w.list.restore (s.persistSnapshot n emission) = list := Option.some.inj hload
      subst hlist
      rw [if_pos hpersistence, hstored]
      have hrestored := h.restored hs hfresh hvisited n emission
        (w.list.restore (s.persistSnapshot n emission))
      rw [hstored] at hrestored
      exact hrestored
  · cases hload
    exact h.unsaved hfresh _

/-- A list that has stopped has nothing to account for. -/
theorem State.Accounted.turns_until_finished (h : s.finished = false → s.Accounted s.rootKeys)
    (hs : Sound s) (ht : Turns s autoPersist reply result) :
    result.list.finished = false → result.list.Accounted result.list.rootKeys := by
  intro hunfinished
  rw [rootKeys_of_same (turns_same ht)]
  by_cases hrunning : s.running
  · exact (h hrunning.1).turns hs (fun hstop => absurd hrunning hstop) ht
  · cases ht with
    | stops reply _ => cases hunfinished
    | _ => contradiction

theorem Kept.turn (h : Kept b w) (hloaded : w.list.loaded = true)
    (ht : Turns w.list autoPersist reply result) (stored : Bool) :
    Kept b { w with
      list := result.list
      stored := if stored then result.checkpoint.or w.stored else w.stored
      emitted := w.emitted ++ result.outcome.emitted
      visited := w.visited ++ w.list.visits result.list } := by
  have hsound := h.sound.turns ht
  have haccounted := State.Accounted.turns_until_finished h.accounted h.sound ht
  have hafter : result.list.loaded = true := (turns_same ht).loaded.trans hloaded
  have hstored : ∀ saved, (if stored then result.checkpoint.or w.stored else w.stored) =
      some saved → saved.Saved Url := by
    intro saved hsaved
    split_ifs at hsaved
    · rcases Option.or_eq_some_iff.mp hsaved with hnew | ⟨-, hold⟩
      · exact checkpoint_saved h.sound ht hnew
      · exact h.stored saved hold
    · exact h.stored saved hsaved
  cases ht with
  | stops reply hstop =>
    exact h.stays _ hsound haccounted hafter hstored (visits_of_none _ rfl) (Finset.Subset.refl _)
      (fun _ _ => .inr (.inr rfl)) (fun _ => rfl) (fun _ hk => ⟨hk, rfl⟩) (fun _ hc => nomatch hc)
  | emits reply request hrunning hemission =>
    have hcurrent : (w.list.emit autoPersist request reply).list.current = w.list.current := by
      cases reply <;> rfl
    have hvisits : w.list.visits (w.list.emit autoPersist request reply).list = [] := by
      cases hc : w.list.current with
      | some current => exact visits_of_current _ hc
      | none => exact visits_of_none _ (hcurrent.trans hc)
    refine h.stays _ hsound haccounted hafter hstored hvisits ?_ ?_ ?_ ?_ ?_
    · cases reply <;> exact Finset.Subset.refl _
    · exact fun current hc => .inr (.inl ⟨current, hcurrent.trans hc, rfl⟩)
    · intro hfin
      rw [hrunning.1] at hfin
      cases hfin
    · cases reply <;> exact fun _ hk => ⟨hk, rfl⟩
    · exact fun current' hc => ⟨current', hcurrent.symm.trans hc, rfl, rfl⟩
  | exhausts reply hrunning hemission hcurrent hstack =>
    refine h.stays _ hsound haccounted hafter hstored (visits_of_none _ hcurrent)
      (Finset.Subset.refl _) (fun _ _ => .inr (.inr rfl)) (fun _ => rfl) ?_ ?_
    · exact fun k hk => ⟨hk, hstack.symm.trans h.sound.openStack⟩
    · exact fun current' hc => ⟨current', hc, rfl, rfl⟩
  | opens p rest events hrunning hemission hcurrent hstack =>
    have hvisits : w.list.visits ((w.list.peeked p rest).opened p events).goes.list = [p] := by
      rw [State.visits, hcurrent]
      rfl
    rw [hvisits]
    exact h.opens _ hloaded hrunning hcurrent hstack hsound haccounted hstored
  | refuses p rest hrunning hemission hcurrent hstack =>
    refine h.stays _ hsound haccounted hafter hstored (visits_of_none _ hcurrent)
      (Finset.subset_insert _ _) ?_ id (fun _ hk => nomatch hk) ?_
    · intro current hc
      rw [hcurrent] at hc
      cases hc
    · exact fun current' hc => ⟨current', hc, rfl, rfl⟩
  | drops p rest hrunning hemission hcurrent hstack =>
    refine h.stays _ hsound haccounted hafter hstored (visits_of_none _ hcurrent)
      (Finset.Subset.refl _) ?_ id ?_ ?_
    · intro current hc
      rw [hcurrent] at hc
      cases hc
    · exact fun k hk => ⟨hk, hstack.symm.trans h.sound.openStack⟩
    · exact fun current' hc => ⟨current', hc, rfl, rfl⟩
  | handles reply current hrunning hemission hcurrent =>
    have hlist : (if current.ends then (w.list.handle current).saves autoPersist
        else (w.list.handle current).goes).list = w.list.handle current := by
      split_ifs
      · rfl
      · rfl
    obtain ⟨-, hresume, hfinished⟩ := (handle_handles w.list current).same
    have hnone : ∀ k, w.list.resumeSkip ≠ some k := by
      intro k hk
      have hidle := (h.sound.resume (by rw [hk]; exact Option.some_ne_none k)).1
      rw [hcurrent] at hidle
      cases hidle
    have hgone := (handle_handles w.list current).goes_or_ends
    rw [← hlist] at hgone hresume hfinished
    refine h.stays _ hsound haccounted hafter hstored (visits_of_current _ hcurrent) ?_ ?_ ?_ ?_ ?_
    · obtain ⟨-, -, -, -, hsame⟩ | ⟨-, hmore⟩ := hgone
      · rw [hsame]
      · rw [hmore]
        exact Finset.subset_insert _ _
    · intro current' hc
      rw [hcurrent] at hc
      cases hc
      obtain ⟨current', hc, hpending, -, -⟩ | ⟨-, hmore⟩ := hgone
      · exact .inr (.inl ⟨current', hc, congrArg PendingSitemap.key hpending⟩)
      · exact .inl (hmore ▸ Finset.mem_insert_self _ _)
    · exact fun hfin => hfinished.trans hfin
    · exact fun k hk => absurd (hresume.symm.trans hk) (hnone k)
    · intro current' hc
      obtain ⟨next, hnext, hpending, hskip, -⟩ | ⟨hidle, -⟩ := hgone
      · rw [hnext] at hc
        cases hc
        exact ⟨current, hcurrent, hpending, hskip⟩
      · rw [hidle] at hc
        cases hc

theorem kept_step {event : Event} (h : Kept b w) (hstep : step b w event = some w') :
    Kept b w' := by
  cases event with
  | load answered =>
    cases answered with
    | false =>
      cases hstep
      exact h
    | true =>
      simp only [step, if_true] at hstep
      obtain ⟨list, hlist, rfl⟩ := Option.map_eq_some_iff.mp hstep
      by_cases hloaded : w.list.loaded = true
      · rw [if_pos hloaded]
        exact h
      · rw [if_neg hloaded]
        exact h.load (Bool.eq_false_iff.mpr hloaded) hlist
  | turn autoPersist reply stored =>
    unfold step at hstep
    split_ifs at hstep with hloaded
    cases hstep
    exact h.turn hloaded (turn_turns _ _ _) stored
  | persist stored =>
    unfold step at hstep
    split_ifs at hstep with hloaded
    cases hstep
    refine ⟨h.sound, h.accounted, h.built, ?_, h.visited_nodup, h.visited_depth, h.visited_done,
      h.resume, h.skip⟩
    intro saved hsaved
    have hsaved : (if stored && w.list.persistence then some w.list.persistNow else w.stored) =
        some saved := hsaved
    split_ifs at hsaved
    · cases hsaved
      exact ⟨w.list, w.list.emittedTotal, false, h.sound, rfl⟩
    · exact h.stored saved hsaved
  | restart limit =>
    obtain ⟨list, hlist, rfl⟩ := Option.map_eq_some_iff.mp hstep
    exact kept_begin hlist h.stored

theorem kept_run {events : List Event} (hbuilt : b.build = some s)
    (hrun : Machine.Run (Machine.Computes (step b)) (.begin s none) events w) : Kept b w := by
  refine Machine.run_invariant (I := Kept b) ?_ hrun ?_
  · intro _ _ _ h hstep
    exact kept_step h hstep
  · have hbegun : { b with limit := b.limit }.build = some s := hbuilt
    exact kept_begin hbegun fun _ hsaved => nomatch hsaved

end Step

end Millipede.Sitemap
