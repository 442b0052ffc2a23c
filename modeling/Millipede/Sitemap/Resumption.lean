import Millipede.Sitemap.Reread

/-!
# Going on after a stop

A list that is rebuilt from a snapshot walks as the saved list would have walked, from the start of
the sitemap in progress, and passes over what stands there in front of the saved cursor. Of what
the saved list passed over otherwise it knows nothing: a URL that was emitted from an earlier
sitemap, or that stands behind a cursor that has moved back, is emitted once more.
-/

namespace Millipede.Sitemap

open UrlText

variable {Url : Type} [UrlText Url] {b : SitemapRequestListBuilder Url} {s r : State Url}
  {docs : Url → Option (List EventResult)} {requests : List (SitemapRequest Url)}

/-- Of what the walk still reads before the limit is reached, the list passes something over that
a list rebuilt from its snapshot would emit. -/
def State.Repeats (docs : Url → Option (List EventResult)) (s : State Url) : Prop :=
  ∃ before url after, Walk.Reads docs s.walk (before ++ url :: after) ∧
    (∀ limit, s.limit = some limit → s.emittedTotal + s.pendingEmission.toList.length +
      (before.firsts asStr (s.passedOver docs)).length < limit) ∧
    asStr url ∈ s.passedOver docs ∧ asStr url ∉ s.recovered docs

theorem not_repeats_of_subset (h : s.passedOver docs ⊆ s.recovered docs) : ¬ s.Repeats docs := by
  rintro ⟨_, _, _, -, -, hpassed, hnew⟩
  exact hnew (h hpassed)

/-- A list that is finished has reached its limit or read everything. -/
def State.Ended (s : State Url) : Prop :=
  s.finished = true → s.limitReached = true ∨ s.pending = []

theorem State.Ended.not_repeats (h : s.Ended) (hs : Sound s) (hfinished : s.finished = true) :
    ¬ s.Repeats docs := by
  rintro ⟨before, url, after, hreads, hroom, -⟩
  rcases h hfinished with hlimit | hpending
  · obtain ⟨limit, hsome, hle⟩ := (Option.any_eq_true _ _).mp hlimit
    have hlt := hroom limit hsome
    have hle := of_decide_eq_true hle
    omega
  · have hempty := hreads.eq_nil (walk_visit_of_none (hs.finished hfinished)) hpending
    simp at hempty

variable [DecidableEq Url]

/-- Lists of one builder. -/
structure State.Alike (s r : State Url) : Prop where
  roots : r.roots = s.roots
  persistence : r.persistence = s.persistence
  limit : r.limit = s.limit
  request : r.request = s.request

structure State.Rebuilds (s r : State Url) : Prop where
  sound : Sound r
  fresh : r.Fresh
  alike : s.Alike r

theorem State.Rebuilds.within {α : Type} (hr : s.Rebuilds r) (l : List α) :
    (r.restore s.persistNow).within l = s.within l := by
  have hlimit : (r.restore s.persistNow).limit = s.limit := hr.alike.limit
  rw [State.within, State.within, hlimit]
  rfl

theorem emits_of_limitReached (docs : Url → Option (List EventResult)) (h : s.limitReached = true) :
    Emits docs s [] := by
  refine .ends ?_
  have hpoll : s.poll docs =
      ⟨{ s with finished := true, current := none }, .returned none, none⟩ := by
    unfold State.poll State.turn
    rw [h, Bool.or_true]
    rfl
  rw [hpoll]
  rfl

theorem State.Rebuilds.ends_of_finished (hr : s.Rebuilds r) (h : Sound s) (hended : s.Ended)
    (hfinished : s.finished = true) : Emits docs (r.restore s.persistNow) [] := by
  have hrestored : Sound (r.restore s.persistNow) := h.restore hr.sound hr.fresh _ _
  rcases hended hfinished with hlimit | hpending
  · refine emits_of_limitReached docs ?_
    have hsame : (r.restore s.persistNow).limit = s.limit := hr.alike.limit
    rw [← hlimit, State.limitReached, State.limitReached, hsame]
    rfl
  · refine hrestored.emits_of_isFinished docs ?_
    have hempty : (r.restore s.persistNow).pending = [] := by
      show r.restoreStack s.persistNow = []
      rw [State.persistNow, h.restoreStack r, saved_of_none (h.finished hfinished), hpending]
    have hidle : (r.restore s.persistNow).current = none := hr.fresh.current
    rw [State.isFinished, hempty, hidle]
    simp

theorem State.Rebuilds.emits (hr : s.Rebuilds r) (h : Sound s) (hrereadable : s.Rereadable docs)
    (haccounted : s.Accounted s.rootKeys) {urls : List Url} (hreads : Walk.Reads docs s.walk urls)
    (hemits : Emits docs (r.restore s.persistNow) requests) : requests = s.within
      (s.pendingEmission.toList ++ (urls.firsts asStr (s.recovered docs)).map s.request) := by
  have hrestored : Sound (r.restore s.persistNow) := h.restore hr.sound hr.fresh _ _
  have hwalk : (r.restore s.persistNow).walk = s.reread :=
    h.restore_walk hr.sound hr.fresh hr.alike.roots s.emittedTotal false
  obtain ⟨all, hall⟩ := hrestored.exists_reads docs
  have hnone : (r.restore s.persistNow).pendingEmission = none := hr.fresh.emission
  have hrequest : (r.restore s.persistNow).request = s.request := hr.alike.request
  rw [hemits.eq_within hrestored hr.fresh.finished hall, hr.within, hnone, Option.toList_none,
    List.nil_append, restore_passedOver docs hr.fresh, hrequest]
  rw [hwalk] at hall
  rw [hrereadable.firsts_reread h haccounted hreads hall]

/-- The rebuilt list goes on as the saved list would have gone on, exactly if nothing that it does
not know comes again. -/
theorem State.Rebuilds.emits_eq_iff (hr : s.Rebuilds r) (h : Sound s)
    (hrereadable : s.Rereadable docs) (haccounted : s.finished = false → s.Accounted s.rootKeys)
    (hended : s.Ended) {tail rest : List (SitemapRequest Url)} (htail : Emits docs s tail)
    (hrest : Emits docs (r.restore s.persistNow) rest) : tail = rest ↔ ¬ s.Repeats docs := by
  cases hfinished : s.finished with
  | true =>
    rw [htail.unique (emits_of_finished docs hfinished),
      hrest.unique (hr.ends_of_finished h hended hfinished)]
    exact iff_of_true rfl (hended.not_repeats h hfinished)
  | false =>
    obtain ⟨urls, hreads⟩ := h.exists_reads docs
    rw [htail.eq_within h hfinished hreads,
      hr.emits h hrereadable (haccounted hfinished) hreads hrest,
      within_firsts_eq_iff (hrereadable.recovered_subset h)]
    constructor
    · rintro hall ⟨before, url, after, hread, hroom, hpassed, hnew⟩
      exact hnew (hall before url after (hreads.unique hread) hroom hpassed)
    · intro hnot before url after heq hroom hpassed
      by_contra hnew
      exact hnot ⟨before, url, after, heq ▸ hreads, hroom, hpassed, hnew⟩

/-- Nothing is lost without a limit. -/
theorem State.Rebuilds.mem_of_mem_tail (hr : s.Rebuilds r) (h : Sound s)
    (hrereadable : s.Rereadable docs) (haccounted : s.finished = false → s.Accounted s.rootKeys)
    (hlimit : s.limit = none) {tail rest : List (SitemapRequest Url)} (htail : Emits docs s tail)
    (hrest : Emits docs (r.restore s.persistNow) rest) : ∀ request ∈ tail, request ∈ rest := by
  intro request hrequest
  cases hfinished : s.finished with
  | true =>
    rw [htail.unique (emits_of_finished docs hfinished)] at hrequest
    cases hrequest
  | false =>
    obtain ⟨urls, hreads⟩ := h.exists_reads docs
    rw [htail.eq_within h hfinished hreads, within_of_no_limit hlimit] at hrequest
    rw [hr.emits h hrereadable (haccounted hfinished) hreads hrest, within_of_no_limit hlimit]
    refine (List.mem_append.mp hrequest).elim (List.mem_append_left _) fun hlater => ?_
    obtain ⟨url, hurl, rfl⟩ := List.mem_map.mp hlater
    exact List.mem_append_right _ (List.mem_map_of_mem
      (List.mem_firsts_of_subset asStr_injective (hrereadable.recovered_subset h) hurl))

section Turn
variable {autoPersist : Bool} {reply : Reply} {result : Turn Url}

theorem State.Ended.turns (h : s.Ended) (ht : Turns s autoPersist reply result) :
    result.list.Ended := by
  intro hfinished
  rcases finished_turns ht hfinished with ⟨hbefore, heq⟩ | ⟨hpending, -⟩
  · rw [heq]
    rcases hbefore with hbefore | hlimit
    · exact h hbefore
    · exact .inl hlimit
  · exact .inr hpending

end Turn

theorem loadPersisted_cases (hunloaded : s.loaded = false) {stored : Option PersistedState}
    {list : State Url} (h : s.loadPersisted stored = some list) :
    list = { s with loaded := true } ∨ ∃ saved, stored = some saved ∧ list = s.restore saved := by
  unfold State.loadPersisted at h
  simp only [hunloaded, Bool.false_eq_true, if_false] at h
  split_ifs at h
  · cases stored with
    | none => exact .inl (Option.some.inj h).symm
    | some saved =>
      simp only at h
      split_ifs at h
      exact .inr ⟨saved, rfl, (Option.some.inj h).symm⟩
  · exact .inl (Option.some.inj h).symm

/-- A list over the processes: what the earlier ones have emitted, and this one. -/
structure History (Url : Type) where
  earlier : List (SitemapRequest Url)
  world : World Url

def History.emitted (h : History Url) : List (SitemapRequest Url) := h.earlier ++ h.world.emitted

def History.step (b : SitemapRequestListBuilder Url) (h : History Url) (event : Event) :
    Option (History Url) :=
  (Sitemap.step b h.world event).map fun world =>
    match event with
    | .restart _ => { earlier := h.emitted, world }
    | _ => { h with world }

/-- The server answers with the documents that it has. A process stops when its list has just been
saved, and the next one, which is configured alike, will repeat nothing. -/
def StopsSaved (b : SitemapRequestListBuilder Url) (docs : Url → Option (List EventResult))
    (h : History Url) : Event → Prop
  | .turn _ reply _ => Answered docs h.world.list reply
  | .restart limit => limit = b.limit ∧ h.world.list.loaded = true ∧
      h.world.stored = some h.world.list.persistNow ∧ ¬ h.world.list.Repeats docs
  | _ => True

variable {h h' : History Url} {whole : List (SitemapRequest Url)}

/-- What was emitted is followed by what the list emits, once it is loaded. -/
structure Resuming (b : SitemapRequestListBuilder Url) (docs : Url → Option (List EventResult))
    (whole : List (SitemapRequest Url)) (s : State Url) (h : History Url) : Prop where
  kept : Kept b h.world
  rereadable : h.world.list.Rereadable docs
  ended : h.world.list.Ended
  alike : s.Alike h.world.list
  unloaded : h.world.list.loaded = false → h.world.list = s ∧ h.world.emitted = [] ∧
    ∀ list requests, s.loadPersisted h.world.stored = some list → Emits docs list requests →
      h.earlier ++ requests = whole
  rest : h.world.list.loaded = true → ∀ requests, Emits docs h.world.list requests →
    h.emitted ++ requests = whole

theorem Resuming.rebuilds (hh : Resuming b docs whole s h) (hbuilt : b.build = some s) :
    h.world.list.Rebuilds s :=
  ⟨build_sound hbuilt, build_fresh hbuilt, hh.alike.roots.symm, hh.alike.persistence.symm,
    hh.alike.limit.symm, hh.alike.request.symm⟩

theorem resuming_begin (hbuilt : b.build = some s) (hwhole : Emits docs s whole) :
    Resuming b docs whole s ⟨[], .begin s none⟩ := by
  have hfresh := build_fresh hbuilt
  have hkept : { b with limit := b.limit }.build = some s := hbuilt
  refine ⟨kept_begin hkept fun _ hsaved => (by cases hsaved), rereadable_of_none hfresh.current, ?_,
    ⟨rfl, rfl, rfl, rfl⟩, fun _ => ⟨rfl, rfl, ?_⟩, ?_⟩
  · intro hfinished
    have hfinished : s.finished = true := hfinished
    rw [hfresh.finished] at hfinished
    cases hfinished
  · intro list requests hload hrequests
    have hlist : some { s with loaded := true } = some list :=
      (loadPersisted_none hbuilt).symm.trans hload
    cases hlist
    obtain ⟨urls, hreads⟩ := (build_sound hbuilt).exists_reads docs
    exact (emits_of_build hbuilt hreads true hrequests).trans
      (emits_of_build hbuilt hreads s.loaded hwhole).symm
  · intro hloaded
    have hloaded : s.loaded = true := hloaded
    rw [(build_unloaded hbuilt).1] at hloaded
    cases hloaded

theorem Resuming.load {list : State Url} {loadedFrom : Option PersistedState}
    (hh : Resuming b docs whole s h) (hbuilt : b.build = some s)
    (hunloaded : h.world.list.loaded = false)
    (hlist : h.world.list.loadPersisted h.world.stored = some list)
    (hkept : Kept b { h.world with list, origin := list, loadedFrom }) :
    Resuming b docs whole s
      { h with world := { h.world with list, origin := list, loadedFrom } } := by
  obtain ⟨hsame, hemitted, hrest⟩ := hh.unloaded hunloaded
  rw [hsame] at hlist hunloaded
  have hfresh := build_fresh hbuilt
  have hloads : list.loaded = true ∧ list.current = none ∧ list.finished = false ∧
      s.Alike list := by
    rcases loadPersisted_cases hunloaded hlist with rfl | ⟨saved, -, rfl⟩
    · exact ⟨rfl, hfresh.current, hfresh.finished, rfl, rfl, rfl, rfl⟩
    · exact ⟨rfl, hfresh.current, hfresh.finished, rfl, rfl, rfl, rfl⟩
  obtain ⟨hloaded, hcurrent, hopen, halike⟩ := hloads
  refine ⟨hkept, rereadable_of_none hcurrent, ?_, halike, ?_, ?_⟩
  · intro hfinished
    have hfinished : list.finished = true := hfinished
    rw [hopen] at hfinished
    cases hfinished
  · intro hnot
    have hnot : list.loaded = false := hnot
    rw [hloaded] at hnot
    cases hnot
  · intro _ requests hrequests
    rw [History.emitted]
    simp only [hemitted, List.append_nil]
    exact hrest list requests hlist hrequests

theorem Resuming.turn {autoPersist stored : Bool} {reply : Reply} {world : World Url}
    (hh : Resuming b docs whole s h) (hanswered : Answered docs h.world.list reply)
    (hstep : Sitemap.step b h.world (.turn autoPersist reply stored) = some world) :
    Resuming b docs whole s { h with world } := by
  have hkept := kept_step hh.kept hstep
  unfold Sitemap.step at hstep
  split_ifs at hstep with hloaded
  cases hstep
  have hsound := hh.kept.sound
  have hturns := turn_turns h.world.list autoPersist reply
  have hsame := turns_same hturns
  refine ⟨hkept, hh.rereadable.turns hsound hh.kept.accounted hanswered hturns,
    hh.ended.turns hturns, ?_, ?_, ?_⟩
  · exact ⟨hsame.roots.trans hh.alike.roots, hsame.persistence.trans hh.alike.persistence,
      hsame.limit.trans hh.alike.limit, hsame.request.trans hh.alike.request⟩
  · intro hnot
    have hnot : (h.world.list.turn autoPersist reply).list.loaded = false := hnot
    rw [hsame.loaded, hloaded] at hnot
    cases hnot
  · intro _ requests hrequests
    have hsplit : ∀ l, h.earlier ++ (h.world.emitted ++ l) ++ requests =
        h.emitted ++ (l ++ requests) := by
      intro l
      rw [History.emitted, List.append_assoc, List.append_assoc, List.append_assoc]
    refine (hsplit _).trans ?_
    obtain ⟨hlist, houtcome⟩ | ⟨hlist, houtcome⟩ := hsound.turn_answered hanswered autoPersist
    · rw [hlist] at hrequests
      rw [houtcome]
      exact hh.rest hloaded _ hrequests.of_poll
    · rw [hlist] at hrequests
      rw [houtcome]
      exact hh.rest hloaded _ hrequests

theorem Resuming.step {event : Event} (hh : Resuming b docs whole s h) (hbuilt : b.build = some s)
    (hpersistence : b.persistence = true) (hstops : StopsSaved b docs h event)
    (hstep : h.step b event = some h') : Resuming b docs whole s h' := by
  obtain ⟨world, hworld, rfl⟩ := Option.map_eq_some_iff.mp hstep
  cases event with
  | load answered =>
    have hkept := kept_step hh.kept hworld
    cases answered with
    | false =>
      cases hworld
      exact hh
    | true =>
      simp only [Sitemap.step, if_true] at hworld
      obtain ⟨list, hlist, rfl⟩ := Option.map_eq_some_iff.mp hworld
      by_cases hloaded : h.world.list.loaded = true
      · rw [if_pos hloaded]
        exact hh
      · simp only [if_neg hloaded] at hkept ⊢
        exact hh.load hbuilt (Bool.eq_false_iff.mpr hloaded) hlist hkept
  | turn autoPersist reply stored => exact hh.turn hstops hworld
  | persist stored =>
    have hkept := kept_step hh.kept hworld
    unfold Sitemap.step at hworld
    split_ifs at hworld with hloaded
    cases hworld
    refine ⟨hkept, hh.rereadable, hh.ended, hh.alike, fun hnot => ?_, hh.rest⟩
    have hnot : h.world.list.loaded = false := hnot
    rw [hloaded] at hnot
    cases hnot
  | restart limit =>
    obtain ⟨rfl, hloaded, hstored, hrepeats⟩ := hstops
    have hbuilt' : { b with limit := b.limit }.build = some s := hbuilt
    have hkept := kept_step hh.kept hworld
    simp only [Sitemap.step, hbuilt', Option.map_some, Option.some.injEq] at hworld
    subst hworld
    refine ⟨hkept, rereadable_of_none (build_fresh hbuilt).current, ?_, ⟨rfl, rfl, rfl, rfl⟩,
      fun _ => ⟨rfl, rfl, ?_⟩, ?_⟩
    · intro hfinished
      have hfinished : s.finished = true := hfinished
      rw [(build_fresh hbuilt).finished] at hfinished
      cases hfinished
    · intro list rest hlist hrest
      have hlist : s.loadPersisted h.world.stored = some list := hlist
      rw [hstored, loadPersisted_saved hbuilt' hpersistence] at hlist
      cases hlist
      obtain ⟨tail, htail⟩ := hh.kept.sound.exists_emits docs
      have heq := ((hh.rebuilds hbuilt).emits_eq_iff hh.kept.sound hh.rereadable hh.kept.accounted
        hh.ended htail hrest).mpr hrepeats
      rw [← heq]
      exact hh.rest hloaded tail htail
    · intro hnot
      have hnot : s.loaded = true := hnot
      rw [(build_unloaded hbuilt).1] at hnot
      cases hnot

theorem history_run {w w' : World Url} {events : List Event} (earlier : List (SitemapRequest Url))
    (hrun : Machine.Run (Machine.Guarded (Uninterrupted docs) (Machine.Computes (step b)))
      w events w') :
    Machine.Run (Machine.Guarded (StopsSaved b docs) (Machine.Computes (History.step b)))
      ⟨earlier, w⟩ events ⟨earlier, w'⟩ := by
  induction hrun with
  | nil => exact .nil _
  | @snoc v u events event _ hstep ih =>
    obtain ⟨hgoes, hstep⟩ := hstep
    have hworld : Sitemap.step b v event = some u := hstep
    refine .snoc ih ⟨?_, ?_⟩
    · cases event with
      | turn autoPersist reply stored => exact hgoes
      | restart limit => exact hgoes.elim
      | load answered => trivial
      | persist stored => trivial
    · rw [Machine.Computes, History.step, hworld]
      cases event with
      | restart limit => exact hgoes.elim
      | turn autoPersist reply stored => rfl
      | load answered => rfl
      | persist stored => rfl

/-- A list is stopped, whenever it has just been saved, and built again, any number of times. What
was emitted is followed by what is left of an undisturbed list, as long as each stop leaves nothing
to repeat; a further stop keeps that exactly if it leaves nothing to repeat; and without a limit
nothing is lost by it. -/
theorem resumption {events : List Event} (hbuilt : b.build = some s)
    (hpersistence : b.persistence = true)
    (hrun : Machine.Run (Machine.Guarded (StopsSaved b docs) (Machine.Computes (History.step b)))
      ⟨[], .begin s none⟩ events h) (hwhole : Emits docs s whole) :
    (h.world.list.loaded = true → ∀ rest, Emits docs h.world.list rest →
      h.emitted ++ rest = whole) ∧
    ∀ saved list rest, Sitemap.step b h.world (.persist true) = some saved →
      s.loadPersisted saved.stored = some list → Emits docs list rest →
      (h.emitted ++ rest = whole ↔ ¬ h.world.list.Repeats docs) ∧
        (b.limit = none → ∀ request ∈ whole, request ∈ h.emitted ++ rest) := by
  have hresuming : Resuming b docs whole s h := by
    refine Machine.run_invariant (I := Resuming b docs whole s) ?_ hrun
      (resuming_begin hbuilt hwhole)
    intro _ _ _ hh hstep
    exact hh.step hbuilt hpersistence hstep.1 hstep.2
  refine ⟨hresuming.rest, ?_⟩
  intro saved list rest hsave hload hrest
  unfold Sitemap.step at hsave
  split_ifs at hsave with hloaded
  cases hsave
  have hpersists : h.world.list.persistence = true :=
    hresuming.alike.persistence.trans ((build_unloaded hbuilt).2.trans hpersistence)
  have hbuilt' : { b with limit := b.limit }.build = some s := hbuilt
  simp only [hpersists, Bool.true_and, if_true] at hload
  rw [loadPersisted_saved hbuilt' hpersistence] at hload
  cases hload
  have hr := hresuming.rebuilds hbuilt
  have hsound := hresuming.kept.sound
  obtain ⟨tail, htail⟩ := hsound.exists_emits docs
  have hsplit := hresuming.rest hloaded tail htail
  constructor
  · rw [← hsplit, List.append_cancel_left_eq, ← hr.emits_eq_iff hsound hresuming.rereadable
      hresuming.kept.accounted hresuming.ended htail hrest]
    exact eq_comm
  · intro hlimit request hrequest
    have hnone : h.world.list.limit = none := by
      rw [hresuming.alike.limit, ← hlimit]
      exact build_limit hbuilt
    rw [← hsplit] at hrequest
    refine (List.mem_append.mp hrequest).elim (List.mem_append_left _) fun hlater => ?_
    exact List.mem_append_right _ (hr.mem_of_mem_tail hsound hresuming.rereadable
      hresuming.kept.accounted hnone htail hrest request hlater)

def firstPage : List Event :=
  [.load true, .turn true (.opened pages) true, .turn true .refused true, .turn true .refused true,
    .persist true]

theorem resumption_firstPage : ∃ (s list : State PlainUrl) (h : History PlainUrl)
    (saved : World PlainUrl) (whole rest : List (SitemapRequest PlainUrl)),
    (onePage none).build = some s ∧ h.earlier.length = 1 ∧ Emits servedPages s whole ∧
      Sitemap.step (onePage none) h.world (.persist true) = some saved ∧
      s.loadPersisted saved.stored = some list ∧ Emits servedPages list rest ∧
      h.emitted ++ rest = whole := by
  have hruns : ∃ s w w' list saved, (onePage none).build = some s ∧
      firstPage.foldlM (fun w e => if Uninterrupted servedPages w e then
        step (onePage none) w e else none) (.begin s none) = some w ∧
      w.emitted.length = 1 ∧ w.list.loaded = true ∧ w.stored = some w.list.persistNow ∧
      w.list.passedOver servedPages ⊆ w.list.recovered servedPages ∧
      (firstPage.take 3).foldlM (fun w e => if Uninterrupted servedPages w e then
        step (onePage none) w e else none) (.begin s w.stored) = some w' ∧
      w'.list.passedOver servedPages ⊆ w'.list.recovered servedPages ∧
      Sitemap.step (onePage none) w' (.persist true) = some saved ∧
      s.loadPersisted saved.stored = some list ∧
      Emits servedPages list [s.request ⟨"second"⟩] := by
    refine ⟨_, _, _, _, _, rfl, rfl, rfl, rfl, rfl, by decide, rfl, by decide, rfl, rfl, ?_⟩
    exact .goes rfl (.goes rfl (.goes rfl (.goes rfl (.goes rfl (.goes rfl (.goes rfl
      (.goes rfl (.ends rfl))))))))
  obtain ⟨s, w, w', list, saved, hbuilt, hfirst, hlength, hloaded, hstored, hknown, hsecond,
    hknown', hsaved, hload, hrest⟩ := hruns
  have hstop : Machine.Guarded (StopsSaved (onePage none) servedPages)
      (Machine.Computes (History.step (onePage none))) ⟨[], w⟩ (.restart none)
      ⟨w.emitted, .begin s w.stored⟩ := by
    refine ⟨⟨rfl, hloaded, hstored, not_repeats_of_subset hknown⟩, ?_⟩
    rw [Machine.Computes, History.step, Sitemap.step]
    have hbuilt : { onePage none with limit := none }.build = some s := hbuilt
    rw [hbuilt]
    rfl
  have hrun := ((history_run [] (Machine.guarded_run_of_foldlM hfirst)).snoc hstop).append
    (history_run w.emitted (Machine.guarded_run_of_foldlM hsecond))
  obtain ⟨whole, hwhole⟩ := (build_sound hbuilt).exists_emits servedPages
  obtain ⟨hiff, -⟩ := (resumption hbuilt rfl hrun hwhole).2 saved list _ hsaved hload hrest
  exact ⟨s, list, ⟨w.emitted, w'⟩, saved, whole, _, hbuilt, hlength, hwhole, hsaved, hload, hrest,
    hiff.mpr (not_repeats_of_subset hknown')⟩

def twoPages : SitemapRequestListBuilder PlainUrl where
  sitemapUrls := [⟨"one"⟩, ⟨"two"⟩]
  persistence := true
  label := none
  userData := []
  limit := none

def servedTwice (url : PlainUrl) : Option (List EventResult) :=
  if url.text = "one" then some [.ok (.entry "page")]
  else if url.text = "two" then some [.ok (.entry "other"), .ok (.entry "page")]
  else none

def bothPages : List Event :=
  [.load true, .turn true (.opened [.ok (.entry "page")]) true] ++
    List.replicate 4 (.turn true (.opened [.ok (.entry "other"), .ok (.entry "page")]) true) ++
    List.replicate 2 (.turn true .refused true)

/-- Stopped after the first entry of the second sitemap, which then names the page again. -/
theorem page_repeated : ∃ (s r : State PlainUrl) (w saved : World PlainUrl)
    (whole rest : List (SitemapRequest PlainUrl)), twoPages.build = some s ∧
      Machine.Run (Machine.Guarded (Uninterrupted servedTwice) (Machine.Computes (step twoPages)))
        (.begin s none) bothPages w ∧
      step twoPages w (.persist true) = some saved ∧
      s.loadPersisted saved.stored = some r ∧ Emits servedTwice s whole ∧
      Emits servedTwice r rest ∧ w.emitted ++ rest ≠ whole := by
  have hrun : ∃ s r w saved, twoPages.build = some s ∧
      bothPages.foldlM (fun w e => if Uninterrupted servedTwice w e then step twoPages w e
        else none) (.begin s none) = some w ∧
      step twoPages w (.persist true) = some saved ∧ s.loadPersisted saved.stored = some r ∧
      Emits servedTwice s [s.request ⟨"page"⟩, s.request ⟨"other"⟩] ∧
      Emits servedTwice r [s.request ⟨"page"⟩] ∧
      w.emitted = [s.request ⟨"page"⟩, s.request ⟨"other"⟩] := by
    refine ⟨_, _, _, _, rfl, rfl, rfl, rfl, ?_, ?_, rfl⟩
    · exact .goes rfl (.goes rfl (.goes rfl (.goes rfl (.goes rfl (.goes rfl (.goes rfl
        (.goes rfl (.goes rfl (.ends rfl)))))))))
    · exact .goes rfl (.goes rfl (.goes rfl (.goes rfl (.goes rfl (.ends rfl)))))
  obtain ⟨s, r, w, saved, hbuilt, hrun, hsaved, hload, hwhole, hrest, hemitted⟩ := hrun
  refine ⟨s, r, w, saved, _, _, hbuilt, Machine.guarded_run_of_foldlM hrun, hsaved, hload,
    hwhole, hrest, ?_⟩
  rw [hemitted]
  simp

end Millipede.Sitemap
