import Millipede.Sitemap.TraversalEnd

/-!
# What a snapshot holds

What is known and not completed waits in the snapshot, is in progress there, or is a child that
the sitemap in progress has staged and names again when it is read again. A list that stops at
its limit while a sitemap is being read lets go of that sitemap: it is not completed and it is
not on the stack.
-/

namespace Millipede.Sitemap

open UrlText

variable {Url : Type} {s : State Url} {current : ActiveSitemap Url}

theorem saved_of_current (h : s.current = some current) :
    s.inProgress = some current.pending ∧ s.waiting = s.pending := by
  unfold State.inProgress State.waiting State.stagedResume
  rw [h]
  exact ⟨rfl, rfl⟩

theorem saved_of_none (h : s.current = none) : s.inProgress.toList ++ s.waiting = s.pending := by
  unfold State.inProgress State.waiting State.stagedResume
  rw [h]
  cases s.resumeSkip with
  | none => rfl
  | some skip =>
    cases s.pending with
    | nil => rfl
    | cons p rest => rfl

theorem saved_of_scheduled {p : PendingSitemap Url} (hp : p ∈ s.scheduled) :
    p ∈ s.inProgress.toList ++ s.waiting ∨
      ∃ current, s.current = some current ∧ p ∈ current.nested := by
  cases hcurrent : s.current with
  | none =>
    left
    rwa [saved_of_none hcurrent, ← scheduled_of_none hcurrent]
  | some current =>
    obtain ⟨hprogress, hwaiting⟩ := saved_of_current hcurrent
    rw [scheduled_of_current hcurrent, List.cons_append, List.mem_cons, List.mem_append] at hp
    rw [hprogress, hwaiting]
    rcases hp with rfl | hnested | hpending
    · exact .inl (List.mem_cons_self ..)
    · exact .inr ⟨current, rfl, hnested⟩
    · exact .inl (List.mem_cons_of_mem _ hpending)

theorem due_of_none (h : s.current = none) : s.due = s.pending := by
  rw [State.due, h]
  rfl

theorem due_of_current (h : s.current = some current) :
    s.due = current.pending :: s.pending := by
  rw [State.due, h]
  rfl

theorem exists_ok_of_ends (h : current.ends = false) :
    ∃ event events, current.events = .ok event :: events := by
  unfold ActiveSitemap.ends at h
  split at h
  · exact ⟨_, _, ‹_›⟩
  · cases h

variable [UrlText Url] {b : SitemapRequestListBuilder Url} {r : State Url}

/-- What is known and not completed waits in the snapshot, or it is in progress there, or the
sitemap in progress has staged it. -/
def State.Covers (s : State Url) (saved : PersistedState) : Prop :=
  ∀ key ∈ s.seenSitemaps, key ∉ s.completed →
    key ∈ saved.pending ∨ saved.inProgress = some key ∨
      ∃ current, s.current = some current ∧ saved.inProgress = some current.pending.key ∧
        key ∈ keys current.nested

theorem State.Accounted.exists_scheduled (h : s.Accounted ∅) {key : String}
    (hseen : key ∈ s.seenSitemaps) (hopen : key ∉ s.completed) :
    ∃ p ∈ s.scheduled, p.key = key := by
  rcases Finset.mem_union.mp (h hseen) with hdone | hdue
  · rw [Finset.empty_union] at hdone
    exact absurd hdone hopen
  · exact exists_of_mem_keys hdue

theorem State.Accounted.covers (h : s.Accounted ∅) (n : ℕ) (emission : Bool) :
    s.Covers (s.persistSnapshot n emission) := by
  intro key hseen hopen
  obtain ⟨p, hp, rfl⟩ := h.exists_scheduled hseen hopen
  rcases saved_of_scheduled hp with hsaved | ⟨current, hcurrent, hnested⟩
  · rcases List.mem_append.mp hsaved with hprogress | hwaiting
    · have hprogress : s.inProgress = some p := Option.mem_toList.mp hprogress
      refine .inr (.inl ?_)
      show s.inProgress.map PendingSitemap.key = some p.key
      rw [hprogress]
      rfl
    · exact .inl (List.mem_map_of_mem hwaiting)
  · refine .inr (.inr ⟨current, hcurrent, ?_, mem_keys_of_mem hnested⟩)
    show s.inProgress.map PendingSitemap.key = some current.pending.key
    rw [(saved_of_current hcurrent).1]
    rfl

theorem build_roots {limit : Option ℕ} (h : { b with limit }.build = some s) :
    s.roots = b.sitemapUrls.firsts asStr ∅ := by
  unfold SitemapRequestListBuilder.build at h
  split_ifs at h
  cases h
  rfl

def State.Holds (s : State Url) (key : String) : Prop := key ∈ s.completed ∨ key ∈ keys s.due

theorem build_unloaded (h : b.build = some s) :
    s.loaded = false ∧ s.persistence = b.persistence := by
  unfold SitemapRequestListBuilder.build at h
  split_ifs at h
  cases h
  exact ⟨rfl, rfl⟩

theorem build_limit (h : b.build = some s) : s.limit = b.limit := by
  unfold SitemapRequestListBuilder.build at h
  split_ifs at h
  cases h
  rfl

theorem State.Holds.mono {t : State Url} {key : String} (h : s.Holds key)
    (hcompleted : s.completed ⊆ t.completed)
    (hdue : ∀ p ∈ s.due, p.key ∈ t.completed ∨ p ∈ t.due) : t.Holds key := by
  rcases h with hdone | hin
  · exact .inl (hcompleted hdone)
  · obtain ⟨p, hp, rfl⟩ := exists_of_mem_keys hin
    exact (hdue p hp).imp id mem_keys_of_mem

/-- No turn finds the limit reached while a sitemap is being read. -/
def StopsIdle (w : World Url) : Event → Prop
  | .turn _ _ _ => w.list.limitReached = true → w.list.current = none
  | _ => True

instance (w : World Url) : (event : Event) → Decidable (StopsIdle w event)
  | .turn _ _ _ => inferInstanceAs (Decidable (w.list.limitReached = true → w.list.current = none))
  | .load _ => inferInstanceAs (Decidable True)
  | .persist _ => inferInstanceAs (Decidable True)
  | .restart _ => inferInstanceAs (Decidable True)

def PersistedState.Complete (roots : List Url) (saved : PersistedState) : Prop :=
  ∃ (s : State Url) (n : ℕ) (emission : Bool), Sound s ∧ s.Accounted ∅ ∧ s.roots = roots ∧
    saved = s.persistSnapshot n emission

structure Complete (b : SitemapRequestListBuilder Url) (w : World Url) : Prop where
  kept : Kept b w
  accounted : w.list.Accounted ∅
  roots : w.list.roots = b.sitemapUrls.firsts asStr ∅
  stored : ∀ saved, w.stored = some saved → saved.Complete w.list.roots
  finished : w.list.finished = true →
    w.list.limitReached = true ∨ w.list.pending = [] ∧ w.list.current = none

theorem complete_begin {limit : Option ℕ} {stored : Option PersistedState}
    (h : { b with limit }.build = some s)
    (hstored : ∀ saved, stored = some saved →
      saved.Complete (b.sitemapUrls.firsts (asStr : Url → String) ∅)) :
    Complete b (.begin s stored) := by
  have hroots : s.roots = b.sitemapUrls.firsts asStr ∅ := build_roots h
  refine ⟨kept_begin h ?_, build_accounted h ∅, hroots, ?_, ?_⟩
  · intro saved hsaved
    obtain ⟨s, n, emission, hs, -, -, rfl⟩ := hstored saved hsaved
    exact ⟨s, n, emission, hs, rfl⟩
  · show ∀ saved, stored = some saved → saved.Complete s.roots
    rw [hroots]
    exact hstored
  · intro hfinished
    have hfinished : s.finished = true := hfinished
    rw [(build_fresh h).finished] at hfinished
    cases hfinished

theorem Complete.stays {w : World Url} (h : Complete b w)
    (hidle : w.list.limitReached = true → w.list.current = none) :
    ¬ w.list.running → w.list.current = none := by
  intro hstop
  by_cases hfinished : w.list.finished = true
  · exact h.kept.sound.finished hfinished
  · apply hidle
    by_contra hlimit
    exact hstop ⟨Bool.eq_false_of_not_eq_true hfinished, Bool.eq_false_of_not_eq_true hlimit⟩

theorem Complete.ended {w : World Url} (h : Complete b w) (hfinished : w.list.finished = true)
    (hlimit : w.list.limitReached = false) : w.list.pending = [] ∧ w.list.current = none := by
  apply (h.finished hfinished).resolve_left
  rw [hlimit]
  exact Bool.false_ne_true

theorem Complete.holds_end {w : World Url} (h : Complete b w) (hfinished : w.list.finished = true)
    (hlimit : w.list.limitReached = false) {key : String} (hholds : w.list.Holds key) :
    key ∈ w.list.completed := by
  obtain ⟨hpending, hcurrent⟩ := h.ended hfinished hlimit
  rcases hholds with hdone | hdue
  · exact hdone
  · rw [due_of_none hcurrent, hpending] at hdue
    cases hdue

section Turn
variable [DecidableEq Url] {autoPersist : Bool} {reply : Reply} {result : Turn Url}

theorem State.Accounted.restore (h : s.Accounted ∅) (hs : Sound s) (hfresh : r.Fresh)
    (hroots : r.roots = s.roots) (n : ℕ) (emission : Bool) :
    (r.restore (s.persistSnapshot n emission)).Accounted ∅ := by
  have hrestored : (r.restore (s.persistSnapshot n emission)).scheduled =
      r.restoreStack (s.persistSnapshot n emission) := scheduled_of_none hfresh.current
  have hscheduled := hrestored.trans (hs.restoreStack r n emission)
  intro key hkey
  rw [Finset.empty_union]
  rcases Finset.mem_union.mp hkey with hkey | hkey
  · rcases Finset.mem_union.mp hkey with hkey | hkey
    · obtain ⟨root, hroot, rfl⟩ := hfresh.seen key hkey
      rw [hroots] at hroot
      by_cases hdone : asStr root ∈ s.completed
      · exact Finset.mem_union_left _ hdone
      · obtain ⟨p, hp, heq⟩ := h.exists_scheduled (hs.seen_roots root hroot) hdone
        rw [hscheduled, ← heq]
        rcases saved_of_scheduled hp with hsaved | ⟨current, hcurrent, hnested⟩
        · exact Finset.mem_union_right _ (mem_keys_of_mem hsaved)
        · exact absurd heq.symm ((hs.staged current hcurrent p hnested).2 root hroot)
    · exact Finset.mem_union_left _ hkey
  · rw [hrestored]
    exact Finset.mem_union_right _ hkey

/-- A list that stops was stopped before or reaches its limit, or it has come to its end. -/
theorem finished_turns (ht : Turns s autoPersist reply result)
    (hfinished : result.list.finished = true) :
    (s.finished = true ∨ s.limitReached = true) ∧
        result.list = { s with finished := true, current := none } ∨
      result.list.pending = [] ∧ result.list.current = none := by
  have hrunning : ∀ t : State Url, t.finished = s.finished → t.finished = true → ¬ s.running := by
    rintro t hsame hafter ⟨hbefore, -⟩
    rw [← hsame, hafter] at hbefore
    cases hbefore
  cases ht with
  | stops reply hstop =>
    refine .inl ⟨?_, rfl⟩
    by_contra hneither
    simp only [not_or, Bool.not_eq_true] at hneither
    exact hstop hneither
  | emits reply request hrun _ =>
    cases reply with
    | dropped => exact absurd hrun (hrunning s rfl hfinished)
    | opened events => exact absurd hrun (hrunning s.emitted rfl hfinished)
    | refused => exact absurd hrun (hrunning s.emitted rfl hfinished)
  | exhausts reply _ _ hcurrent _ => exact .inr ⟨rfl, hcurrent⟩
  | opens p rest events hrun _ _ _ => exact absurd hrun (hrunning _ rfl hfinished)
  | refuses p rest hrun _ _ _ => exact absurd hrun (hrunning _ rfl hfinished)
  | drops p rest hrun _ _ _ => exact absurd hrun (hrunning _ rfl hfinished)
  | handles reply current hrun _ _ =>
    have hsame := (handle_handles s current).same.2.2
    split_ifs at hfinished
    · exact absurd hrun (hrunning _ hsame hfinished)
    · exact absurd hrun (hrunning _ hsame hfinished)

variable {w w' : World Url} {event : Event}

theorem Complete.turn (h : Complete b w)
    (hidle : w.list.limitReached = true → w.list.current = none)
    (hloaded : w.list.loaded = true) (ht : Turns w.list autoPersist reply result)
    (stored : Bool) : Complete b { w with
      list := result.list
      stored := if stored then result.checkpoint.or w.stored else w.stored
      emitted := w.emitted ++ result.outcome.emitted
      visited := w.visited ++ w.list.visits result.list } := by
  have hsound := h.kept.sound
  have haccounted := h.accounted.turns hsound (h.stays hidle) ht
  have hroots := (turns_same ht).roots
  refine ⟨h.kept.turn hloaded ht stored, haccounted, hroots.trans h.roots, ?_, ?_⟩
  · show ∀ saved, (if stored then result.checkpoint.or w.stored else w.stored) = some saved →
      saved.Complete result.list.roots
    rw [hroots]
    intro saved hsaved
    split_ifs at hsaved
    · rcases Option.or_eq_some_iff.mp hsaved with hnew | ⟨-, hold⟩
      · obtain ⟨n, emission, hbefore | hafter⟩ := checkpoint_cases ht hnew
        · exact ⟨w.list, n, emission, hsound, h.accounted, rfl, hbefore⟩
        · exact ⟨result.list, n, emission, hsound.turns ht, haccounted, hroots, hafter⟩
      · exact h.stored saved hold
    · exact h.stored saved hsaved
  · intro hfinished
    rcases finished_turns ht hfinished with ⟨hbefore, heq⟩ | hend
    · show result.list.limitReached = true ∨ result.list.pending = [] ∧ result.list.current = none
      rw [heq]
      rcases hbefore with hfinished | hlimit
      · exact (h.finished hfinished).imp id fun hend => ⟨hend.1, rfl⟩
      · exact .inl hlimit
    · exact .inr hend

theorem Complete.load (h : Complete b w) {list : State Url} (hunloaded : w.list.loaded = false)
    (hload : w.list.loadPersisted w.stored = some list) : Complete b { w with
      list
      origin := list
      loadedFrom := if w.list.persistence then w.stored else none } := by
  have hkept := h.kept.load hunloaded hload
  obtain ⟨-, limit, hbuilt⟩ := h.kept.built hunloaded
  have hfresh := build_fresh hbuilt
  have hplain : { w.list with loaded := true } = list → Complete b { w with
      list
      origin := list
      loadedFrom := if w.list.persistence then w.stored else none } := by
    rintro rfl
    exact ⟨hkept, h.accounted, h.roots, h.stored, h.finished⟩
  unfold State.loadPersisted at hload
  simp only [hunloaded, Bool.false_eq_true, if_false] at hload
  split_ifs at hload
  · obtain hstored | ⟨saved, hstored⟩ := Option.eq_none_or_eq_some w.stored
    · rw [hstored] at hload
      exact hplain (Option.some.inj hload)
    · rw [hstored] at hload
      obtain ⟨s, n, emission, hs, haccounted, hroots, rfl⟩ := h.stored saved hstored
      have hlist : w.list.restore (s.persistSnapshot n emission) = list := Option.some.inj hload
      subst hlist
      refine ⟨hkept, haccounted.restore hs hfresh hroots.symm n emission, h.roots, h.stored, ?_⟩
      intro hfinished
      rw [show (w.list.restore (s.persistSnapshot n emission)).finished = false from
        hfresh.finished] at hfinished
      cases hfinished
  · exact hplain (Option.some.inj hload)

theorem Complete.step (h : Complete b w) (hidle : StopsIdle w event)
    (hstep : step b w event = some w') : Complete b w' := by
  cases event with
  | load answered =>
    cases answered with
    | false =>
      cases hstep
      exact h
    | true =>
      simp only [Sitemap.step, if_true] at hstep
      obtain ⟨list, hlist, rfl⟩ := Option.map_eq_some_iff.mp hstep
      by_cases hloaded : w.list.loaded = true
      · rw [if_pos hloaded]
        exact h
      · rw [if_neg hloaded]
        exact h.load (Bool.eq_false_iff.mpr hloaded) hlist
  | turn autoPersist reply stored =>
    unfold Sitemap.step at hstep
    split_ifs at hstep with hloaded
    cases hstep
    exact h.turn hidle hloaded (turn_turns _ _ _) stored
  | persist stored =>
    have hkept := kept_step h.kept hstep
    unfold Sitemap.step at hstep
    split_ifs at hstep with hloaded
    cases hstep
    refine ⟨hkept, h.accounted, h.roots, ?_, h.finished⟩
    intro saved hsaved
    have hsaved : (if stored && w.list.persistence then some w.list.persistNow else w.stored) =
        some saved := hsaved
    split_ifs at hsaved
    · cases hsaved
      exact ⟨w.list, w.list.emittedTotal, false, h.kept.sound, h.accounted, rfl, rfl⟩
    · exact h.stored saved hsaved
  | restart limit =>
    obtain ⟨list, hlist, rfl⟩ := Option.map_eq_some_iff.mp hstep
    refine complete_begin hlist ?_
    rw [← h.roots]
    exact h.stored

theorem complete_run {events : List Event} (h : Complete b w)
    (hrun : Machine.Run (Machine.Guarded StopsIdle (Machine.Computes (step b))) w events w') :
    Complete b w' := by
  refine Machine.run_invariant (I := Complete b) ?_ hrun h
  intro _ _ _ hbefore hstep
  exact hbefore.step hstep.1 hstep.2

def Serves (docs : Url → List EventResult) (w : World Url) : Event → Prop
  | .turn _ (.opened events) _ => w.list.current = none →
      ∀ p rest, w.list.openStack = p :: rest → events = docs p.url
  | _ => True

/-- What the current document has read, and which of it has named its children. -/
def State.Traced (docs : Url → List EventResult) (s : State Url) : Prop :=
  ∀ current, s.current = some current → ∃ front : List SitemapEvent,
    docs current.pending.url = front.map .ok ++ current.events ∧
    ∀ child ∈ current.nested, current.pending.depth < maxDepth ∧
      ∃ location, .nested location ∈ front ∧ parse location = some child.url

theorem handle_ok {event : SitemapEvent} {events : List EventResult}
    (hevents : current.events = .ok event :: events) :
    ∃ current', (s.handle current).current = some current' ∧
      current'.pending = current.pending ∧ current'.events = events ∧
      (current'.nested = current.nested ∨ ∃ (location : String) (child : PendingSitemap Url),
        event = .nested location ∧ parse location = some child.url ∧
        current.pending.depth < maxDepth ∧ current'.nested = current.nested ++ [child]) := by
  unfold State.handle
  rw [hevents]
  cases event with
  | entry loc =>
    simp only
    unfold State.addEntry
    split
    · exact ⟨_, rfl, rfl, rfl, .inl rfl⟩
    · split_ifs
      · exact ⟨_, rfl, rfl, rfl, .inl rfl⟩
      · exact ⟨_, rfl, rfl, rfl, .inl rfl⟩
      · exact ⟨_, rfl, rfl, rfl, .inl rfl⟩
  | nested location =>
    simp only
    unfold State.addNested
    split_ifs with hdepth
    · exact ⟨_, rfl, rfl, rfl, .inl rfl⟩
    · split
      · exact ⟨_, rfl, rfl, rfl, .inl rfl⟩
      · rename_i url hurl
        split_ifs
        · exact ⟨_, rfl, rfl, rfl, .inl rfl⟩
        · exact ⟨_, rfl, rfl, rfl, .inr ⟨location, _, rfl, hurl, Nat.lt_of_not_le hdepth, rfl⟩⟩

theorem handle_end (h : current.ends = true) : (s.handle current).current = none := by
  unfold ActiveSitemap.ends at h
  unfold State.handle
  split at h
  · cases h
  · split
    · simp_all
    · simp_all
    · rfl
    · rfl
    · rfl

theorem State.Traced.handle {docs : Url → List EventResult} (h : s.Traced docs)
    (hcurrent : s.current = some current) : (s.handle current).Traced docs := by
  intro current' hc
  cases hends : current.ends with
  | true =>
    rw [handle_end hends] at hc
    cases hc
  | false =>
    obtain ⟨event, events, hevents⟩ := exists_ok_of_ends hends
    obtain ⟨next, hnext, hpending, hleft, hnested⟩ := handle_ok (s := s) hevents
    have heq : next = current' := Option.some.inj (hnext.symm.trans hc)
    subst heq
    obtain ⟨front, hdoc, hchildren⟩ := h current hcurrent
    refine ⟨front ++ [event], ?_, ?_⟩
    · rw [hpending, hdoc, hevents, hleft, List.map_append, List.append_assoc]
      rfl
    · have hold : ∀ child ∈ current.nested, next.pending.depth < maxDepth ∧
          ∃ location, .nested location ∈ front ++ [event] ∧ parse location = some child.url := by
        intro child hchild
        obtain ⟨hdepth, location, hmem, hurl⟩ := hchildren child hchild
        rw [hpending]
        exact ⟨hdepth, location, List.mem_append_left _ hmem, hurl⟩
      rcases hnested with hsame | ⟨location, new, rfl, hurl, hdepth, hmore⟩
      · rw [hsame]
        exact hold
      · rw [hmore]
        intro child hchild
        rcases List.mem_append.mp hchild with hchild | hchild
        · exact hold child hchild
        · rw [List.mem_singleton.mp hchild, hpending]
          exact ⟨hdepth, location, List.mem_append_right _ (List.mem_singleton_self _), hurl⟩

theorem State.Traced.turns {docs : Url → List EventResult} (h : s.Traced docs)
    (ht : Turns s autoPersist reply result)
    (hserves : ∀ events, reply = .opened events → s.current = none →
      ∀ p rest, s.openStack = p :: rest → events = docs p.url) : result.list.Traced docs := by
  have hnone : ∀ t : State Url, t.current = none → t.Traced docs := by
    intro t ht current hc
    rw [ht] at hc
    cases hc
  cases ht with
  | stops reply _ => exact hnone _ rfl
  | emits reply request _ _ =>
    cases reply with
    | dropped => exact h
    | opened events => exact h
    | refused => exact h
  | exhausts reply _ _ hcurrent _ => exact hnone _ hcurrent
  | opens p rest events _ _ hcurrent hstack =>
    intro current hc
    cases hc
    refine ⟨[], ?_, fun _ hchild => nomatch hchild⟩
    exact (hserves events rfl hcurrent p rest hstack).symm
  | refuses p rest _ _ hcurrent _ => exact hnone _ hcurrent
  | drops p rest _ _ hcurrent _ => exact hnone _ hcurrent
  | handles reply current _ _ hcurrent =>
    have hhandle := h.handle hcurrent
    split_ifs
    · exact hhandle
    · exact hhandle

theorem loadPersisted_current {list : State Url} {stored : Option PersistedState}
    (h : s.loadPersisted stored = some list) : list.current = s.current := by
  unfold State.loadPersisted at h
  split_ifs at h
  · cases h
    rfl
  · cases stored with
    | none =>
      cases h
      rfl
    | some saved =>
      simp only at h
      split_ifs at h
      cases h
      rfl
  · cases h
    rfl

theorem traced_step {docs : Url → List EventResult} (h : w.list.Traced docs)
    (hserves : Serves docs w event) (hstep : step b w event = some w') : w'.list.Traced docs := by
  cases event with
  | load answered =>
    cases answered with
    | false =>
      cases hstep
      exact h
    | true =>
      simp only [Sitemap.step, if_true] at hstep
      obtain ⟨list, hlist, rfl⟩ := Option.map_eq_some_iff.mp hstep
      by_cases hloaded : w.list.loaded = true
      · rw [if_pos hloaded]
        exact h
      · rw [if_neg hloaded]
        intro current hc
        exact h current ((loadPersisted_current hlist).symm.trans hc)
  | turn autoPersist reply stored =>
    unfold Sitemap.step at hstep
    split_ifs at hstep
    cases hstep
    refine h.turns (turn_turns _ _ _) ?_
    rintro events rfl hcurrent
    exact hserves hcurrent
  | persist stored =>
    unfold Sitemap.step at hstep
    split_ifs at hstep
    cases hstep
    exact h
  | restart limit =>
    obtain ⟨list, hlist, rfl⟩ := Option.map_eq_some_iff.mp hstep
    intro current hc
    have hc : list.current = some current := hc
    rw [(build_fresh hlist).current] at hc
    cases hc

theorem handles_due {t : State Url} (hcurrent : s.current = some current)
    (ht : Handles s current t) :
    s.completed ⊆ t.completed ∧ ∀ p ∈ s.due, p.key ∈ t.completed ∨ p ∈ t.due := by
  have hdue := due_of_current hcurrent
  cases ht with
  | proceeds event events entriesSeen emittedUrls pendingEmission _ _ =>
    refine ⟨Finset.Subset.refl _, fun p hp => .inr ?_⟩
    rwa [due_of_current rfl, ← hdue]
  | stages location url events _ _ _ _ =>
    refine ⟨Finset.Subset.refl _, fun p hp => .inr ?_⟩
    rw [hdue] at hp
    exact hp
  | fails events _ =>
    refine ⟨Finset.subset_insert _ _, fun p hp => ?_⟩
    rw [hdue] at hp
    rcases List.mem_cons.mp hp with rfl | hp
    · exact .inl (Finset.mem_insert_self _ _)
    · exact .inr hp
  | completes =>
    refine ⟨Finset.subset_insert _ _, fun p hp => ?_⟩
    rw [hdue] at hp
    rcases List.mem_cons.mp hp with rfl | hp
    · exact .inl (Finset.mem_insert_self _ _)
    · exact .inr (List.mem_append_right current.nested hp)

theorem turns_due (hs : Sound s) (hstays : ¬ s.running → s.current = none)
    (ht : Turns s autoPersist reply result) : s.completed ⊆ result.list.completed ∧
      ∀ p ∈ s.due, p.key ∈ result.list.completed ∨ p ∈ result.list.due := by
  have hpending : ∀ p rest, s.current = none → s.openStack = p :: rest → s.due = p :: rest := by
    intro p rest hcurrent hstack
    rw [due_of_none hcurrent, ← hs.openStack, hstack]
  cases ht with
  | stops reply hstop =>
    refine ⟨Finset.Subset.refl _, fun p hp => .inr ?_⟩
    rw [due_of_none (hstays hstop)] at hp
    rwa [due_of_none rfl]
  | emits reply request _ _ =>
    have hsame : (s.emit autoPersist request reply).list.due = s.due ∧
        (s.emit autoPersist request reply).list.completed = s.completed := by
      cases reply <;> exact ⟨rfl, rfl⟩
    rw [hsame.1, hsame.2]
    exact ⟨Finset.Subset.refl _, fun p hp => .inr hp⟩
  | exhausts reply _ _ hcurrent hstack =>
    refine ⟨Finset.Subset.refl _, fun p hp => ?_⟩
    rw [due_of_none hcurrent, ← hs.openStack, hstack] at hp
    cases hp
  | opens p rest events _ _ hcurrent hstack =>
    refine ⟨Finset.Subset.refl _, fun q hq => .inr ?_⟩
    rwa [hpending p rest hcurrent hstack] at hq
  | refuses p rest _ _ hcurrent hstack =>
    refine ⟨Finset.subset_insert _ _, fun q hq => ?_⟩
    rw [hpending p rest hcurrent hstack] at hq
    rcases List.mem_cons.mp hq with rfl | hq
    · exact .inl (Finset.mem_insert_self _ _)
    · have hafter : (((s.peeked p rest).markFetchFailure p).saves autoPersist).list.due = rest :=
        due_of_none hcurrent
      rw [hafter]
      exact .inr hq
  | drops p rest _ _ hcurrent hstack =>
    refine ⟨Finset.Subset.refl _, fun q hq => .inr ?_⟩
    rw [hpending p rest hcurrent hstack] at hq
    have hafter : (s.peeked p rest).due = p :: rest := due_of_none hcurrent
    rwa [hafter]
  | handles reply current _ _ hcurrent =>
    have hhandle := handles_due hcurrent (handle_handles s current)
    split_ifs
    · exact hhandle
    · exact hhandle

/-- The child of an index is to be read or has been, or the index is to be read up to the name
of the child; or the index has failed. -/
def State.Names (s : State Url) (index : PendingSitemap Url) (child : Url) : Prop :=
  s.Holds (asStr child) ∨ index.key ∈ s.completed ∩ s.completedFailures ∨ index ∈ s.pending ∨
    ∃ current, s.current = some current ∧ current.pending = index ∧
      (asStr child ∈ keys current.nested ∨
        ∃ (front : List SitemapEvent) (location : String) (rest : List EventResult),
          current.events = front.map .ok ++ .ok (.nested location) :: rest ∧
            parse location = some child)

variable {index : PendingSitemap Url} {child : Url}

theorem State.Accounted.handle_named (h : s.Accounted ∅) (hcurrent : s.current = some current)
    (hdepth : current.pending.depth < maxDepth) {front : List SitemapEvent} {location : String}
    {rest : List EventResult}
    (hevents : current.events = front.map .ok ++ .ok (.nested location) :: rest)
    (hurl : parse location = some child) : (s.handle current).Names current.pending child := by
  cases front with
  | cons event front =>
    obtain ⟨next, hnext, hpending, hleft, -⟩ := handle_ok (s := s)
      (hevents : current.events = .ok event :: _)
    exact .inr (.inr (.inr ⟨next, hnext, hpending, .inr ⟨front, location, rest, hleft, hurl⟩⟩))
  | nil =>
    have hevents : current.events = .ok (.nested location) :: rest := hevents
    unfold State.handle State.addNested
    rw [hevents]
    simp only [hurl]
    rw [if_neg (Nat.not_le_of_lt hdepth)]
    split_ifs with hseen
    · -- The child is known already: it is completed or scheduled.
      by_cases hdone : asStr child ∈ s.completed
      · exact .inl (.inl hdone)
      · obtain ⟨p, hp, heq⟩ := h.exists_scheduled hseen hdone
        rw [scheduled_of_current hcurrent, List.cons_append, List.mem_cons, List.mem_append] at hp
        rcases hp with rfl | hnested | hpending
        · refine .inl (.inr ?_)
          rw [← heq]
          exact mem_keys_of_mem (List.mem_cons_self ..)
        · refine .inr (.inr (.inr ⟨_, rfl, rfl, .inl ?_⟩))
          rw [← heq]
          exact mem_keys_of_mem hnested
        · refine .inl (.inr ?_)
          rw [← heq]
          exact mem_keys_of_mem (List.mem_cons_of_mem _ hpending)
    · refine .inr (.inr (.inr ⟨_, rfl, rfl, .inl ?_⟩))
      exact mem_keys_of_mem (p := { url := child, depth := _ })
        (List.mem_append_right _ (List.mem_singleton_self _))

theorem handle_staged (hstaged : asStr child ∈ keys current.nested) :
    (s.handle current).Names current.pending child := by
  cases hends : current.ends with
  | false =>
    obtain ⟨event, events, hevents⟩ := exists_ok_of_ends hends
    obtain ⟨next, hnext, hpending, -, hnested⟩ := handle_ok (s := s) hevents
    refine .inr (.inr (.inr ⟨next, hnext, hpending, .inl ?_⟩))
    obtain ⟨p, hp, heq⟩ := exists_of_mem_keys hstaged
    rw [← heq]
    rcases hnested with hsame | ⟨-, new, -, -, -, hmore⟩
    · rw [hsame]
      exact mem_keys_of_mem hp
    · rw [hmore]
      exact mem_keys_of_mem (List.mem_append_left _ hp)
  | true =>
    have hcompletes : (s.completeCurrent current).Names current.pending child := by
      obtain ⟨p, hp, heq⟩ := exists_of_mem_keys hstaged
      refine .inl (.inr ?_)
      rw [← heq]
      exact mem_keys_of_mem (List.mem_append_left _ hp : p ∈ current.nested ++ s.pending)
    have hfails : (s.failCurrent current).Names current.pending child :=
      .inr (.inl (Finset.mem_inter.mpr
        ⟨Finset.mem_insert_self _ _, Finset.mem_insert_self _ _⟩))
    unfold ActiveSitemap.ends at hends
    unfold State.handle
    split at hends
    · cases hends
    · split
      · simp_all
      · simp_all
      · exact hfails
      · exact hcompletes
      · exact hcompletes

theorem handles_failures {t : State Url} (ht : Handles s current t) {key : String}
    (hother : key ≠ current.pending.key) (hkey : key ∈ s.completed ∩ s.completedFailures) :
    key ∈ t.completed ∩ t.completedFailures := by
  obtain ⟨hdone, hfailed⟩ := Finset.mem_inter.mp hkey
  cases ht with
  | proceeds _ _ _ _ _ _ _ => exact hkey
  | stages _ _ _ _ _ _ _ => exact hkey
  | fails _ _ =>
    exact Finset.mem_inter.mpr ⟨Finset.mem_insert_of_mem hdone, Finset.mem_insert_of_mem hfailed⟩
  | completes =>
    exact Finset.mem_inter.mpr
      ⟨Finset.mem_insert_of_mem hdone, Finset.mem_erase.mpr ⟨hother, hfailed⟩⟩

theorem failures_turns (hs : Sound s) (ht : Turns s autoPersist reply result) :
    s.completed ∩ s.completedFailures ⊆
      result.list.completed ∩ result.list.completedFailures := by
  intro key hkey
  have ⟨hdone, hfailed⟩ := Finset.mem_inter.mp hkey
  cases ht with
  | emits reply request _ _ =>
    cases reply with
    | dropped => exact hkey
    | opened events => exact hkey
    | refused => exact hkey
  | refuses p rest _ _ _ _ =>
    exact Finset.mem_inter.mpr
      ⟨Finset.mem_insert_of_mem hdone, Finset.mem_insert_of_mem hfailed⟩
  | handles reply current _ _ hcurrent =>
    have hother : key ≠ current.pending.key := by
      rintro rfl
      refine hs.unfinished current.pending ?_ hdone
      rw [scheduled_of_current hcurrent]
      exact List.mem_cons_self
    have hhandle := handles_failures (handle_handles s current) hother hkey
    split_ifs
    · exact hhandle
    · exact hhandle
  | _ => exact hkey

theorem handles_pending {t : State Url} (ht : Handles s current t) : s.pending ⊆ t.pending := by
  cases ht with
  | completes => exact List.subset_append_right _ _
  | _ => exact List.Subset.refl _

theorem pending_turns (hs : Sound s) {p : PendingSitemap Url} (hp : p ∈ s.pending)
    (ht : Turns s autoPersist reply result) :
    p ∈ result.list.pending ∨ p.key ∈ result.list.completed ∩ result.list.completedFailures ∨
      ∃ events rest current, reply = .opened events ∧ s.current = none ∧
        s.openStack = p :: rest ∧ result.list.current = some current ∧ current.pending = p ∧
        current.events = events := by
  cases ht with
  | stops reply _ => exact .inl hp
  | emits reply request _ _ => cases reply <;> exact .inl hp
  | exhausts reply _ _ _ hstack =>
    rw [← hs.openStack, hstack] at hp
    cases hp
  | opens q rest events _ _ hcurrent hstack =>
    rw [← hs.openStack, hstack] at hp
    rcases List.mem_cons.mp hp with rfl | hp
    · exact .inr (.inr ⟨events, rest, _, rfl, hcurrent, hstack, rfl, rfl, rfl⟩)
    · exact .inl hp
  | refuses q rest _ _ _ hstack =>
    rw [← hs.openStack, hstack] at hp
    rcases List.mem_cons.mp hp with rfl | hp
    · exact .inr (.inl (Finset.mem_inter.mpr
        ⟨Finset.mem_insert_self _ _, Finset.mem_insert_self _ _⟩))
    · exact .inl hp
  | drops q rest _ _ _ hstack =>
    rw [← hs.openStack, hstack] at hp
    exact .inl hp
  | handles reply current _ _ hcurrent =>
    have hhandle := handles_pending (handle_handles s current) hp
    split_ifs
    · exact .inl hhandle
    · exact .inl hhandle

theorem State.Names.turns (h : s.Names index child) (hs : Sound s) (haccounted : s.Accounted ∅)
    (hstays : ¬ s.running → s.current = none) {docs : Url → List EventResult}
    {front : List SitemapEvent} {location : String} {rest : List EventResult}
    (hdoc : docs index.url = front.map .ok ++ .ok (.nested location) :: rest)
    (hurl : parse location = some child) (hdepth : index.depth < maxDepth)
    (hserves : ∀ events, reply = .opened events → s.current = none →
      ∀ p rest, s.openStack = p :: rest → events = docs p.url)
    (ht : Turns s autoPersist reply result) : result.list.Names index child := by
  rcases h with hholds | hfailed | hpending | ⟨current, hcurrent, rfl, hevents⟩
  · obtain ⟨hcompleted, hdue⟩ := turns_due hs hstays ht
    exact .inl (hholds.mono hcompleted hdue)
  · exact .inr (.inl (failures_turns hs ht hfailed))
  · rcases pending_turns hs hpending ht with hkept | hfailed | hopened
    · exact .inr (.inr (.inl hkept))
    · exact .inr (.inl hfailed)
    · obtain ⟨events, rest', current, hreply, hnone, hstack, hc, hindex, hevents⟩ := hopened
      refine .inr (.inr (.inr ⟨current, hc, hindex, .inr ⟨front, location, rest, ?_, hurl⟩⟩))
      rw [hevents, hserves events hreply hnone index rest' hstack, hdoc]
  · have hhandle : (s.handle current).Names current.pending child := by
      rcases hevents with hstaged | ⟨front, location, rest, hevents, hurl⟩
      · exact handle_staged hstaged
      · exact haccounted.handle_named hcurrent hdepth hevents hurl
    have hnone : ∀ {P : Prop}, s.current = none → P := by
      intro P hnone
      rw [hcurrent] at hnone
      cases hnone
    cases ht with
    | stops reply hstop => exact hnone (hstays hstop)
    | emits reply request _ _ =>
      cases reply <;> exact .inr (.inr (.inr ⟨current, hcurrent, rfl, hevents⟩))
    | exhausts reply _ _ hc _ => exact hnone hc
    | opens p rest events _ _ hc _ => exact hnone hc
    | refuses p rest _ _ hc _ => exact hnone hc
    | drops p rest _ _ hc _ => exact hnone hc
    | handles reply current' _ _ hc =>
      have heq : current' = current := Option.some.inj (hc.symm.trans hcurrent)
      subst heq
      split_ifs
      · exact hhandle
      · exact hhandle

/-- A turn of a process that goes on: it does not stop inside of a sitemap, and the documents
are as they were. -/
def GoesOn (docs : Url → List EventResult) (w : World Url) (event : Event) : Prop :=
  StopsIdle w event ∧ Serves docs w event ∧ ∀ limit, event ≠ .restart limit

theorem loadPersisted_saved {limit : Option ℕ} (hbuilt : { b with limit }.build = some r)
    (hpersistence : b.persistence = true) (s : State Url) :
    r.loadPersisted (some s.persistNow) = some (r.restore s.persistNow) := by
  obtain ⟨hunloaded, hsame⟩ := build_unloaded hbuilt
  have hsame : r.persistence = true := hsame.trans hpersistence
  unfold State.loadPersisted
  rw [hunloaded, hsame]
  rfl

theorem reads_on (found : State Url → Prop) {docs : Url → List EventResult}
    {snapshot : PersistedState} {limit : Option ℕ} {events : List Event}
    (hload : ∀ limit (fresh list : State Url), { b with limit }.build = some fresh →
      fresh.loadPersisted (some snapshot) = some list → found list)
    (hturn : ∀ (s : State Url) (autoPersist : Bool) (reply : Reply) (result : Turn Url),
      Sound s → s.Accounted ∅ → (¬ s.running → s.current = none) →
      (∀ events, reply = .opened events → s.current = none →
        ∀ p rest, s.openStack = p :: rest → events = docs p.url) →
      found s → Turns s autoPersist reply result → found result.list)
    (hbuilt : { b with limit }.build = some r) (hcomplete : Complete b (.begin r (some snapshot)))
    (hrun : Machine.Run (Machine.Guarded (GoesOn docs) (Machine.Computes (step b)))
      (.begin r (some snapshot)) events w) :
    Complete b w ∧ (w.list.loaded = true → found w.list) := by
  have hinvariant : Complete b w ∧ (w.list.loaded = false → w.stored = some snapshot) ∧
      (w.list.loaded = true → found w.list) := by
    refine Machine.run_invariant (I := fun w : World Url => Complete b w ∧
      (w.list.loaded = false → w.stored = some snapshot) ∧
      (w.list.loaded = true → found w.list)) ?_ hrun ?_
    · rintro w event w' ⟨h, hstored, hfound⟩ ⟨⟨hidle, hserves, hstays⟩, hstep⟩
      refine ⟨h.step hidle hstep, ?_⟩
      have hstep : step b w event = some w' := hstep
      cases event with
      | load answered =>
        cases answered with
        | false =>
          cases hstep
          exact ⟨hstored, hfound⟩
        | true =>
          simp only [Sitemap.step, if_true] at hstep
          obtain ⟨list, hlist, rfl⟩ := Option.map_eq_some_iff.mp hstep
          by_cases hloaded : w.list.loaded = true
          · rw [if_pos hloaded]
            exact ⟨hstored, hfound⟩
          · rw [if_neg hloaded]
            have hunloaded := Bool.eq_false_iff.mpr hloaded
            rw [hstored hunloaded] at hlist
            obtain ⟨-, limit, hfresh⟩ := h.kept.built hunloaded
            exact ⟨fun _ => hstored hunloaded,
              fun _ => hload limit w.list list hfresh hlist⟩
      | turn autoPersist reply stored =>
        unfold Sitemap.step at hstep
        split_ifs at hstep with hloaded
        cases hstep
        have hafter := (turns_same (turn_turns w.list autoPersist reply)).loaded.trans hloaded
        refine ⟨fun hunloaded => ?_, fun _ => ?_⟩
        · have hunloaded : (w.list.turn autoPersist reply).list.loaded = false := hunloaded
          rw [hafter] at hunloaded
          cases hunloaded
        · refine hturn w.list autoPersist reply _ h.kept.sound h.accounted (h.stays hidle) ?_
            (hfound hloaded) (turn_turns _ _ _)
          rintro events rfl hcurrent
          exact hserves hcurrent
      | persist stored =>
        unfold Sitemap.step at hstep
        split_ifs at hstep with hloaded
        cases hstep
        refine ⟨fun hunloaded => ?_, hfound⟩
        have hunloaded : w.list.loaded = false := hunloaded
        rw [hloaded] at hunloaded
        cases hunloaded
      | restart limit => exact absurd rfl (hstays limit)
    · refine ⟨hcomplete, fun _ => rfl, fun hloaded => ?_⟩
      have hloaded : r.loaded = true := hloaded
      rw [(build_unloaded hbuilt).1] at hloaded
      cases hloaded
  exact ⟨hinvariant.1, hinvariant.2.2⟩

/-- The snapshot of a run in which no turn finds the limit reached while a sitemap is being read
has every sitemap that is known and not completed, with the cursor of the one in progress; and
a list that is rebuilt from it and read to its end has read them all, unless the index failed
that was to name them again. -/
theorem snapshots_complete {events : List Event} (hbuilt : b.build = some s)
    (hrun : Machine.Run (Machine.Guarded StopsIdle (Machine.Computes (step b)))
      (.begin s none) events w) :
    w.list.Covers w.list.persistNow ∧
    (∀ current, w.list.current = some current →
      w.list.persistNow.emittedInProgress + w.list.pendingEmission.isSome.toNat =
        current.entriesSeen) ∧
    (∀ limit fresh, b.persistence = true → { b with limit }.build = some fresh →
      ∃ rebuilt, fresh.loadPersisted (some w.list.persistNow) = some rebuilt ∧
        rebuilt.pending = w.list.inProgress.toList ++ w.list.waiting ∧
        rebuilt.resumeSkip =
          w.list.inProgress.map fun _ => w.list.persistNow.emittedInProgress) ∧
    ∀ (docs : Url → List EventResult) limit fresh later w', b.persistence = true →
      Machine.Run (Machine.Guarded (Serves docs) (Machine.Computes (step b)))
        (.begin s none) events w →
      { b with limit }.build = some fresh →
      Machine.Run (Machine.Guarded (GoesOn docs) (Machine.Computes (step b)))
        (.begin fresh (some w.list.persistNow)) later w' →
      w'.list.finished = true → w'.list.limitReached = false →
      ∀ key ∈ w.list.seenSitemaps, key ∈ w'.list.completed ∨
        ∃ current, w.list.current = some current ∧ key ∈ keys current.nested ∧
          current.pending.key ∈ w'.list.completedFailures := by
  have hbegun : { b with limit := b.limit }.build = some s := hbuilt
  have hstart : Complete b (.begin s none) :=
    complete_begin hbegun fun _ hsaved => nomatch hsaved
  have h := complete_run hstart hrun
  have hsound := h.kept.sound
  refine ⟨h.accounted.covers _ _, ?_, ?_, ?_⟩
  · intro current hcurrent
    simp only [State.persistNow, State.persistSnapshot, hcurrent]
    cases hemission : w.list.pendingEmission with
    | none => simp
    | some request =>
      have hsome : w.list.pendingEmission ≠ none := by
        rw [hemission]
        exact Option.some_ne_none _
      obtain ⟨-, current', hc, hpos⟩ := hsound.emission hsome
      rw [hcurrent] at hc
      cases hc
      simp
      omega
  · intro limit fresh hpersistence hfresh
    refine ⟨_, loadPersisted_saved hfresh hpersistence w.list, ?_, ?_⟩
    · exact hsound.restoreStack fresh _ _
    · exact restore_resume w.list (build_fresh hfresh) _ _
  · intro docs limit fresh later w' hpersistence hserved hfresh hlater hfinished hlimit key hkey
    have htraced : w.list.Traced docs := by
      refine Machine.run_invariant (I := fun w : World Url => w.list.Traced docs) ?_ hserved ?_
      · exact fun _ _ _ h hstep => traced_step h hstep.1 hstep.2
      · intro current hc
        have hc : s.current = some current := hc
        rw [(build_fresh hbegun).current] at hc
        cases hc
    have hbegin : Complete b (.begin fresh (some w.list.persistNow)) := by
      refine complete_begin hfresh ?_
      intro saved hsaved
      cases hsaved
      rw [← h.roots]
      exact ⟨w.list, _, _, hsound, h.accounted, rfl, rfl⟩
    have hafter : Complete b w' :=
      complete_run hbegin (hlater.mono fun _ _ _ hstep => ⟨hstep.1.1, hstep.2⟩)
    have hloaded : w'.list.loaded = true := by
      by_contra hnot
      obtain ⟨-, _, hunloaded⟩ := hafter.kept.built (Bool.eq_false_iff.mpr hnot)
      rw [(build_fresh hunloaded).finished] at hfinished
      cases hfinished
    have hrestored : ∀ limit (fresh list : State Url), { b with limit }.build = some fresh →
        fresh.loadPersisted (some w.list.persistNow) = some list →
        list.completed = w.list.completed ∧ list.current = none ∧
          list.pending = w.list.inProgress.toList ++ w.list.waiting := by
      intro limit fresh list hfresh hlist
      rw [loadPersisted_saved hfresh hpersistence] at hlist
      cases hlist
      exact ⟨rfl, (build_fresh hfresh).current, hsound.restoreStack fresh _ _⟩
    have hholds : ∀ key, (key ∈ w.list.completed ∨
        ∃ p ∈ w.list.inProgress.toList ++ w.list.waiting, p.key = key) →
        key ∈ w'.list.completed := by
      intro key hsaved
      have hfound := (reads_on (fun s => s.Holds key) ?_ ?_ hfresh hbegin hlater).2 hloaded
      · exact hafter.holds_end hfinished hlimit hfound
      · intro limit fresh list hbuilt hlist
        obtain ⟨hcompleted, hcurrent, hpending⟩ := hrestored limit fresh list hbuilt hlist
        rcases hsaved with hdone | ⟨p, hp, rfl⟩
        · exact .inl (hcompleted ▸ hdone)
        · refine .inr (mem_keys_of_mem ?_)
          rwa [due_of_none hcurrent, hpending]
      · intro s autoPersist reply result hs _ hstays _ hfound ht
        obtain ⟨hcompleted, hdue⟩ := turns_due hs hstays ht
        exact hfound.mono hcompleted hdue
    by_cases hdone : key ∈ w.list.completed
    · exact .inl (hholds key (.inl hdone))
    · obtain ⟨p, hp, rfl⟩ := h.accounted.exists_scheduled hkey hdone
      rcases saved_of_scheduled hp with hsaved | ⟨current, hcurrent, hnested⟩
      · exact .inl (hholds p.key (.inr ⟨p, hsaved, rfl⟩))
      · obtain ⟨front, hdoc, hchildren⟩ := htraced current hcurrent
        obtain ⟨hdepth, location, hmem, hurl⟩ := hchildren p hnested
        obtain ⟨before, after, rfl⟩ := List.append_of_mem hmem
        rw [List.map_append, List.map_cons, List.append_assoc, List.cons_append] at hdoc
        have hfound := (reads_on (fun s => s.Names current.pending p.url) ?_ ?_ hfresh
          hbegin hlater).2 hloaded
        · obtain ⟨hempty, hnone⟩ := hafter.ended hfinished hlimit
          rcases hfound with hheld | hfailed | hpending | ⟨next, hnext, -⟩
          · exact .inl (hafter.holds_end hfinished hlimit hheld)
          · exact .inr ⟨current, hcurrent, mem_keys_of_mem hnested,
              (Finset.mem_inter.mp hfailed).2⟩
          · rw [hempty] at hpending
            cases hpending
          · rw [hnone] at hnext
            cases hnext
        · intro limit fresh list hbuilt hlist
          obtain ⟨-, -, hpending⟩ := hrestored limit fresh list hbuilt hlist
          refine .inr (.inr (.inl ?_))
          rw [hpending, (saved_of_current hcurrent).1]
          exact List.mem_cons_self
        · intro s autoPersist reply result hs haccounted hstays hserves hfound ht
          exact hfound.turns hs haccounted hstays hdoc hurl hdepth hserves ht

/-- The sitemap that is being read when the limit is found to be reached is in no snapshot. -/
theorem stopped_uncovered (h : Sound s) (hcurrent : s.current = some current)
    (hlimit : s.limitReached = true) :
    ¬ (s.turn autoPersist reply).list.Covers (s.turn autoPersist reply).list.persistNow := by
  have hlist : (s.turn autoPersist reply).list = { s with finished := true, current := none } := by
    unfold State.turn
    rw [hlimit, Bool.or_true]
    rfl
  have hscheduled := scheduled_of_current hcurrent
  have hmem : current.pending ∈ s.scheduled := by
    rw [hscheduled]
    exact List.mem_cons_self
  have hnone : s.resumeSkip = none := by
    by_contra hsome
    have hidle := (h.resume hsome).1
    rw [hcurrent] at hidle
    cases hidle
  rw [hlist]
  intro hcovers
  have hwaiting : ({ s with finished := true, current := none } : State Url).stagedResume =
      none := by
    simp [State.stagedResume, hnone]
  rcases hcovers current.pending.key (h.seen_scheduled _ hmem) (h.unfinished _ hmem) with
    hpending | hprogress | ⟨next, hnext, -⟩
  · have hnodup := h.nodup
    rw [hscheduled, List.cons_append, List.map_cons, List.nodup_cons] at hnodup
    apply hnodup.1
    rw [List.map_append]
    refine List.mem_append_right _ ?_
    simpa [State.persistNow, State.persistSnapshot, State.waiting, hwaiting] using hpending
  · simp [State.persistNow, State.persistSnapshot, State.inProgress, hwaiting] at hprogress
  · cases hnext

end Turn

def onePage (limit : Option ℕ) : SitemapRequestListBuilder PlainUrl where
  sitemapUrls := [⟨"pages"⟩]
  persistence := true
  label := none
  userData := []
  limit := limit

def limitedRun : List Event :=
  [.load true,
    .turn true (.opened [.ok (.entry "first"), .ok (.nested "more"), .ok (.entry "second")]) true,
    .turn true .refused true, .turn true .refused true, .turn true .refused true]

/-- After the last turn the sitemap is neither completed nor in the snapshot. -/
theorem snapshots_incomplete : ∃ s w, (onePage (some 1)).build = some s ∧
    limitedRun.foldlM (step (onePage (some 1))) (.begin s none) = some w ∧
    w.emitted.length = 1 ∧ ¬ w.list.Covers w.list.persistNow := by
  refine ⟨_, _, rfl, rfl, rfl, ?_⟩
  intro hcovers
  rcases hcovers "pages" (by decide) (by decide) with hpending | hprogress | ⟨current, hcurrent, -⟩
  · exact absurd hpending (by decide)
  · exact absurd hprogress (by decide)
  · cases hcurrent

theorem snapshots_complete_stagedChild : ∃ s w, (onePage none).build = some s ∧
    limitedRun.foldlM (step (onePage none)) (.begin s none) = some w ∧
    "more" ∈ w.list.seenSitemaps ∧ "more" ∉ w.list.completed ∧
    w.list.Covers w.list.persistNow := by
  have hrun : ∃ s w, (onePage none).build = some s ∧
      limitedRun.foldlM (fun w e => if StopsIdle w e then step (onePage none) w e else none)
        (.begin s none) = some w ∧
      limitedRun.foldlM (step (onePage none)) (.begin s none) = some w ∧
      "more" ∈ w.list.seenSitemaps ∧ "more" ∉ w.list.completed :=
    ⟨_, _, rfl, rfl, rfl, by decide, by decide⟩
  obtain ⟨s, w, hbuilt, hguarded, hfold, hseen, hopen⟩ := hrun
  have hcomplete := snapshots_complete hbuilt (Machine.guarded_run_of_foldlM hguarded)
  exact ⟨s, w, hbuilt, hfold, hseen, hopen, hcomplete.1⟩

end Millipede.Sitemap
