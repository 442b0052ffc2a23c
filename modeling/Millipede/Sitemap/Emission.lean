import Mathlib.Data.List.TakeWhile
import Millipede.Sitemap.Walk

/-!
# What a list emits

A process polls its list, drops calls while they wait and saves the list whenever it likes. What
it has emitted and what the list still emits when it is polled to its end are together what the
walk over the documents reads, each URL once, up to the limit.
-/

namespace Millipede.Sitemap

open UrlText

variable {Url : Type}

theorem emitted_of_ends {outcome : Outcome Url} (h : outcome.ends = true) :
    outcome.emitted = [] := by
  cases outcome with
  | returned request =>
    cases request with
    | none => rfl
    | some request => cases h
  | _ => rfl

theorem exhausted_emitted (s : State Url) : s.exhausted.outcome.emitted = [] := by
  simp only [State.exhausted]
  split_ifs
  · rfl
  · rfl

theorem State.request_injective (s : State Url) : Function.Injective s.request :=
  fun _ _ h => congrArg SitemapRequest.url h

variable [UrlText Url] {b : SitemapRequestListBuilder Url} {s r : State Url}
  {w w' : World Url} {docs : Url → Option (List EventResult)}
  {requests : List (SitemapRequest Url)}

theorem Sound.peeked_eq (h : Sound s) {p : PendingSitemap Url} {rest : List (PendingSitemap Url)}
    (hstack : s.openStack = p :: rest) : s.peeked p rest = s := by
  have hpending : s.pending = p :: rest := h.openStack.symm.trans hstack
  have hseen : insert p.key s.seenSitemaps = s.seenSitemaps := by
    refine Finset.insert_eq_of_mem (h.seen_scheduled p (List.mem_append_right _ ?_))
    rw [hpending]
    exact List.mem_cons_self
  rw [State.peeked, hseen, ← hpending]

/-- To pass over more changes nothing, exactly if it does not before the limit is reached. -/
theorem within_firsts_eq_iff {front : List (SitemapRequest Url)} {urls : List Url}
    {again known : Finset String} (hsub : again ⊆ known) :
    s.within (front ++ (urls.firsts asStr known).map s.request) =
        s.within (front ++ (urls.firsts asStr again).map s.request) ↔
      ∀ before url after, urls = before ++ url :: after →
        (∀ limit, s.limit = some limit →
          s.emittedTotal + front.length + (before.firsts asStr known).length < limit) →
        asStr url ∈ known → asStr url ∈ again := by
  have hmap := List.map_injective_iff.mpr s.request_injective
  unfold State.within
  cases s.limit with
  | none =>
    simp only [List.append_cancel_left_eq, hmap.eq_iff, List.firsts_eq_iff hsub, reduceCtorEq,
      false_implies, implies_true, true_implies]
  | some limit =>
    simp only [List.take_append, List.append_cancel_left_eq, ← List.map_take, hmap.eq_iff,
      List.take_firsts_eq_iff hsub, Option.some.injEq, forall_eq']
    refine forall₃_congr fun before url after => forall_congr' fun _ => imp_congr_left ?_
    omega

theorem passedOver_of_fresh (docs : Url → Option (List EventResult)) (h : s.Fresh) :
    s.passedOver docs = ∅ := by
  rw [passedOver_of_none docs h.current h.resume, h.emittedUrls]

variable [DecidableEq Url]

theorem loadPersisted_none (h : b.build = some s) :
    s.loadPersisted none = some { s with loaded := true } := by
  rw [State.loadPersisted, (build_unloaded h).1]
  simp only [Bool.false_eq_true, if_false]
  split_ifs
  · rfl
  · rfl

theorem turn_autoPersist (s : State Url) (autoPersist : Bool) (reply : Reply) :
    (s.turn autoPersist reply).list = (s.turn false reply).list ∧
      (s.turn autoPersist reply).outcome = (s.turn false reply).outcome := by
  unfold State.turn
  split_ifs
  · exact ⟨rfl, rfl⟩
  · cases s.pendingEmission with
    | some request => cases reply <;> exact ⟨rfl, rfl⟩
    | none =>
      cases s.current with
      | none =>
        simp only [State.open]
        obtain ⟨t, _ | p⟩ := s.peekPending
        · exact ⟨rfl, rfl⟩
        · cases reply <;> exact ⟨rfl, rfl⟩
      | some current =>
        simp only
        split_ifs
        · exact ⟨rfl, rfl⟩
        · exact ⟨rfl, rfl⟩

theorem Sound.turn_dropped (h : Sound s) (docs : Url → Option (List EventResult)) :
    (s.turn false .dropped).list = (s.poll docs).list ∧
        (s.turn false .dropped).outcome = (s.poll docs).outcome ∨
      (s.turn false .dropped).list = s ∧ (s.turn false .dropped).outcome.emitted = [] := by
  have hdropped : Turns s false .dropped (s.turn false .dropped) := turn_turns _ _ _
  unfold State.poll
  generalize hresult : s.turn false .dropped = result at hdropped
  cases hdropped with
  | stops _ hstop =>
    left
    have hturn : s.turn false (answer docs s) = s.turn false .dropped := by
      unfold State.turn
      have hstops : (s.finished || s.limitReached) = true := by
        by_contra hnot
        exact hstop (by simpa [State.running] using hnot)
      rw [if_pos hstops, if_pos hstops]
    rw [hturn, hresult]
    exact ⟨rfl, rfl⟩
  | emits _ request hrunning hemission => exact .inr ⟨rfl, rfl⟩
  | exhausts _ hrunning hemission hcurrent hstack =>
    left
    have hturn : s.turn false (answer docs s) = s.turn false .dropped := by
      unfold State.turn
      simp only [hemission, hcurrent, State.open, State.peekPending, hstack]
    rw [hturn, hresult]
    exact ⟨rfl, rfl⟩
  | drops p rest hrunning hemission hcurrent hstack => exact .inr ⟨h.peeked_eq hstack, rfl⟩
  | handles _ current hrunning hemission hcurrent =>
    left
    have hturn : s.turn false (answer docs s) = s.turn false .dropped := by
      unfold State.turn
      simp only [hemission, hcurrent]
    rw [hturn, hresult]
    exact ⟨rfl, rfl⟩

deriving instance DecidableEq for SitemapEvent, SitemapParseError, Reply

/-- The server answers with the documents that it has, unless the call is dropped before. -/
def Answered (docs : Url → Option (List EventResult)) (s : State Url) (reply : Reply) : Prop :=
  reply = .dropped ∨ reply = answer docs s

theorem Sound.turn_answered (h : Sound s) {reply : Reply} (hreply : Answered docs s reply)
    (autoPersist : Bool) :
    (s.turn autoPersist reply).list = (s.poll docs).list ∧
        (s.turn autoPersist reply).outcome = (s.poll docs).outcome ∨
      (s.turn autoPersist reply).list = s ∧
        (s.turn autoPersist reply).outcome.emitted = [] := by
  obtain ⟨hlist, houtcome⟩ := turn_autoPersist s autoPersist reply
  rw [hlist, houtcome]
  rcases hreply with rfl | rfl
  · exact h.turn_dropped docs
  · exact .inl ⟨rfl, rfl⟩

theorem finished_of_ends (docs : Url → Option (List EventResult))
    (h : (s.poll docs).outcome.ends = true) : (s.poll docs).list.finished = true := by
  have hturns : Turns s false (answer docs s) (s.poll docs) := turn_turns _ _ _
  have hne := answer_ne_dropped docs s
  generalize s.poll docs = result at hturns h
  generalize answer docs s = reply at hturns hne
  cases hturns with
  | stops _ _ => rfl
  | emits _ request _ _ =>
    cases reply with
    | dropped => exact absurd rfl hne
    | opened events => cases h
    | refused => cases h
  | exhausts _ _ _ _ _ => rfl
  | opens p rest events _ _ _ _ => cases h
  | refuses p rest _ _ _ _ => cases h
  | drops p rest _ _ _ _ => exact absurd rfl hne
  | handles _ current _ _ _ =>
    split_ifs at h
    · cases h
    · cases h

theorem emits_of_finished (docs : Url → Option (List EventResult)) (h : s.finished = true) :
    Emits docs s [] := by
  refine .ends ?_
  have hpoll : s.poll docs =
      ⟨{ s with finished := true, current := none }, .returned none, none⟩ := by
    unfold State.poll State.turn
    rw [h]
    rfl
  rw [hpoll]
  rfl

theorem Emits.of_poll (h : Emits docs (s.poll docs).list requests) :
    Emits docs s ((s.poll docs).outcome.emitted ++ requests) := by
  cases hends : (s.poll docs).outcome.ends with
  | false => exact .goes hends h
  | true =>
    rw [emitted_of_ends hends, h.unique (emits_of_finished docs (finished_of_ends docs hends))]
    exact .ends hends

theorem Sound.emits_of_isFinished (h : Sound s) (docs : Url → Option (List EventResult))
    (hfinished : s.isFinished = true) : Emits docs s [] := by
  refine .ends ?_
  have hexhausts : s.current = none → s.openStack = [] → (s.poll docs).outcome.ends = true := by
    intro hcurrent hstack
    have hpending : s.pending = [] := h.openStack.symm.trans hstack
    have hpolls := h.poll_polls docs
    generalize s.poll docs = result at hpolls
    cases hpolls with
    | stops _ houtcome =>
      rw [houtcome]
      rfl
    | emits request _ hemission _ _ =>
      rw [h.emission_of_none hcurrent] at hemission
      cases hemission
    | exhausts _ _ _ hends => exact hends
    | enters p rest _ _ _ hstack' _ _ _ =>
      rw [hpending] at hstack'
      cases hstack'
    | handles current _ _ hc _ _ =>
      rw [hcurrent] at hc
      cases hc
  by_cases hrunning : s.running
  · simp only [State.isFinished, hrunning.1, hrunning.2, Bool.false_or, Bool.and_eq_true,
      List.all_eq_true, decide_eq_true_eq, Option.isNone_iff_eq_none] at hfinished
    refine hexhausts hfinished.1 ?_
    exact List.dropWhile_eq_nil_iff.mpr fun p hp => decide_eq_true (hfinished.2 p hp)
  · have hpolls := h.poll_polls docs
    generalize s.poll docs = result at hpolls
    cases hpolls with
    | stops _ houtcome =>
      rw [houtcome]
      rfl
    | exhausts _ _ _ hends => exact hends
    | emits _ hrun _ _ _ => exact absurd hrun hrunning
    | enters _ _ hrun _ _ _ _ _ _ => exact absurd hrun hrunning
    | handles _ hrun _ _ _ _ => exact absurd hrun hrunning

/-- A turn of one process, which the server answers with the documents that it has. -/
def Uninterrupted (docs : Url → Option (List EventResult)) (w : World Url) : Event → Prop
  | .turn _ reply _ => Answered docs w.list reply
  | .restart _ => False
  | _ => True

instance (docs : Url → Option (List EventResult)) (w : World Url) :
    (event : Event) → Decidable (Uninterrupted docs w event)
  | .turn _ reply _ =>
    inferInstanceAs (Decidable (reply = .dropped ∨ reply = answer docs w.list))
  | .load _ => inferInstanceAs (Decidable True)
  | .persist _ => inferInstanceAs (Decidable True)
  | .restart _ => inferInstanceAs (Decidable False)

structure Emitting (docs : Url → Option (List EventResult)) (whole : List (SitemapRequest Url))
    (s : State Url) (w : World Url) : Prop where
  sound : Sound w.list
  unloaded : w.list.loaded = false → w.list = s ∧ w.stored = none ∧ w.emitted = []
  rest : ∀ requests, Emits docs w.list requests → w.emitted ++ requests = whole

/-- A list that was just built emits all that its walk reads. -/
theorem emits_of_build (h : b.build = some s) {urls : List Url}
    (hreads : Walk.Reads docs s.walk urls) (loaded : Bool)
    (hemits : Emits docs { s with loaded } requests) :
    requests = s.within ((urls.firsts asStr ∅).map s.request) := by
  have hs := build_sound h
  have hfresh := build_fresh h
  have hsound : Sound { s with loaded } :=
    ⟨hs.nodup, hs.unfinished, hs.seen_roots, hs.seen_completed, hs.seen_scheduled, hs.depth,
      hs.staged, hs.resume, hs.emission, hs.finished⟩
  have heq := hemits.eq_within hsound hfresh.finished hreads
  have hpassed : ({ s with loaded } : State Url).passedOver docs = ∅ :=
    passedOver_of_fresh (s := s) docs hfresh
  have hnone : ({ s with loaded } : State Url).pendingEmission = none := hfresh.emission
  rw [heq, hpassed, hnone]
  rfl

theorem Emitting.step {whole : List (SitemapRequest Url)} {event : Event}
    (h : Emitting docs whole s w) (hbuilt : b.build = some s) {urls : List Url}
    (hreads : Walk.Reads docs s.walk urls)
    (hwhole : whole = s.within ((urls.firsts asStr ∅).map s.request))
    (hgoes : Uninterrupted docs w event) (hstep : step b w event = some w') :
    Emitting docs whole s w' := by
  cases event with
  | load answered =>
    cases answered with
    | false =>
      cases hstep
      exact h
    | true =>
      simp only [Sitemap.step, if_true] at hstep
      obtain ⟨list, hlist, rfl⟩ := Option.map_eq_some_iff.mp hstep
      by_cases hloaded : w.list.loaded = true
      · rw [if_pos hloaded]
        exact h
      · rw [if_neg hloaded]
        obtain ⟨hsame, hstored, hemitted⟩ := h.unloaded (Bool.eq_false_iff.mpr hloaded)
        have hlist' : list = { s with loaded := true } := by
          rw [hsame, hstored, loadPersisted_none hbuilt] at hlist
          exact (Option.some.inj hlist).symm
        subst hlist'
        refine ⟨(build_sound hbuilt).loaded, fun hunloaded => (by cases hunloaded), ?_⟩
        intro requests hrequests
        rw [hemitted, List.nil_append, hwhole]
        exact emits_of_build hbuilt hreads true hrequests
  | turn autoPersist reply stored =>
    unfold Sitemap.step at hstep
    split_ifs at hstep with hloaded
    cases hstep
    have hturns := turn_turns w.list autoPersist reply
    have hafter := (turns_same hturns).loaded.trans hloaded
    refine ⟨h.sound.turns hturns, fun hunloaded => ?_, ?_⟩
    · rw [hafter] at hunloaded
      cases hunloaded
    · intro requests hrequests
      obtain ⟨hlist, houtcome⟩ | ⟨hlist, houtcome⟩ := h.sound.turn_answered hgoes autoPersist
      · rw [hlist] at hrequests
        rw [houtcome, List.append_assoc]
        exact h.rest _ hrequests.of_poll
      · rw [hlist] at hrequests
        rw [houtcome, List.append_nil]
        exact h.rest _ hrequests
  | persist stored =>
    unfold Sitemap.step at hstep
    split_ifs at hstep with hloaded
    cases hstep
    refine ⟨h.sound, fun hunloaded => ?_, h.rest⟩
    have hunloaded : w.list.loaded = false := hunloaded
    rw [hloaded] at hunloaded
    cases hunloaded
  | restart limit => exact hgoes.elim

theorem emitting_begin (hbuilt : b.build = some s) {urls : List Url}
    (hreads : Walk.Reads docs s.walk urls) :
    Emitting docs (s.within ((urls.firsts asStr ∅).map s.request)) s (.begin s none) := by
  refine ⟨build_sound hbuilt, fun _ => ⟨rfl, rfl, rfl⟩, ?_⟩
  intro requests hrequests
  exact emits_of_build hbuilt hreads s.loaded hrequests

/-- However its calls are dropped and whenever it is saved, a list emits what the walk over the
documents reads: each URL once, in the order of the walk and up to the limit. A list that is
finished has emitted it all, and every list gets there when it is polled on. -/
theorem emission_walks {events : List Event} (hbuilt : b.build = some s)
    (hrun : Machine.Run (Machine.Guarded (Uninterrupted docs) (Machine.Computes (step b)))
      (.begin s none) events w) :
    ∃ urls rest, Walk.Reads docs s.walk urls ∧ Emits docs w.list rest ∧
      w.emitted ++ rest = s.within ((urls.firsts asStr ∅).map s.request) ∧
      (w.list.isFinished = true → rest = []) := by
  obtain ⟨urls, hreads⟩ := (build_sound hbuilt).exists_reads docs
  have hemitting : Emitting docs (s.within ((urls.firsts asStr ∅).map s.request)) s w := by
    refine Machine.run_invariant (I := Emitting docs _ s) ?_ hrun ?_
    · intro _ _ _ h hstep
      exact h.step hbuilt hreads rfl hstep.1 hstep.2
    · exact emitting_begin hbuilt hreads
  obtain ⟨rest, hrest⟩ := hemitting.sound.exists_emits docs
  refine ⟨urls, rest, hreads, hrest, hemitting.rest rest hrest, ?_⟩
  intro hfinished
  exact hrest.unique (hemitting.sound.emits_of_isFinished docs hfinished)

def pages : List EventResult :=
  [.ok (.entry "first"), .ok (.nested "more"), .ok (.entry "first"), .ok (.entry "second")]

def servedPages (url : PlainUrl) : Option (List EventResult) :=
  if url.text = "pages" then some pages else none

def droppedRun : List Event :=
  [.load true, .turn true (.opened pages) true, .turn true .dropped true, .turn true .dropped true,
    .turn true .refused true]

theorem emission_walks_droppedEmission : ∃ (s : State PlainUrl) (w : World PlainUrl)
    (urls : List PlainUrl) (rest : List (SitemapRequest PlainUrl)),
    (onePage none).build = some s ∧ w.emitted.length = 1 ∧ Walk.Reads servedPages s.walk urls ∧
      w.emitted ++ rest = s.within ((urls.firsts asStr ∅).map s.request) := by
  have hrun : ∃ s w, (onePage none).build = some s ∧
      droppedRun.foldlM (fun w e => if Uninterrupted servedPages w e then step (onePage none) w e
        else none) (.begin s none) = some w ∧ w.emitted.length = 1 := ⟨_, _, rfl, rfl, rfl⟩
  obtain ⟨s, w, hbuilt, hrun, hlength⟩ := hrun
  obtain ⟨urls, rest, hreads, -, heq, -⟩ :=
    emission_walks hbuilt (Machine.guarded_run_of_foldlM hrun)
  exact ⟨s, w, urls, rest, hbuilt, hlength, hreads, heq⟩

end Millipede.Sitemap
