import Millipede.Sitemap.Coverage

/-!
# A queue that is fed from a list

`RequestQueueWithSitemap` wraps a queue. Its `fetch_next` drains the list in batches into the
inner queue whenever that is empty, holding the drain lock; it may be dropped wherever it waits,
and the process may stop at any step. What the inner queue answers is part of the events.
-/

namespace Millipede.Sitemap.Tandem

open UrlText

variable {Url : Type}

/-- Where the call of `fetch_next` waits that holds the drain lock; `left` counts what is left
of the batch, the entry that is being fetched or added included. -/
inductive Phase where
  | idle
  | looking
  | fetching (left : ℕ)
  | adding (left : ℕ)
  | saving (failed : Bool)
  | serving
  deriving DecidableEq

structure RequestQueueWithSitemap (Url : Type) where
  list : World Url
  batch : ℕ
  batch_pos : 0 < batch
  pendingAdd : Option (SitemapRequest Url)
  phase : Phase
  /-- What the inner queue has accepted since the first process began; no step reads it. -/
  added : List (SitemapRequest Url)

inductive Event where
  | call
  /-- `inner.is_empty` answers, or fails. -/
  | looked (empty : Option Bool)
  | loaded (answered : Bool)
  | polled (reply : Reply)
  | added (accepted : Bool)
  | saved (answered stored : Bool)
  | served
  | cancelled
  | restarted

def new (list : World Url) : RequestQueueWithSitemap Url where
  list := list
  batch := 32
  batch_pos := by decide
  pendingAdd := none
  phase := .idle
  added := []

def RequestQueueWithSitemap.batchSize (q : RequestQueueWithSitemap Url) (n : ℕ) :
    RequestQueueWithSitemap Url :=
  { q with batch := max n 1, batch_pos := lt_max_of_lt_right Nat.one_pos }

def RequestQueueWithSitemap.fill (q : RequestQueueWithSitemap Url) : ℕ → Phase
  | 0 => .saving false
  | left + 1 => if q.pendingAdd.isNone then .fetching (left + 1) else .adding (left + 1)

structure RequestQueueWithSitemap.Poised (q : RequestQueueWithSitemap Url) : Prop where
  fetching : ∀ left, q.phase = .fetching left → q.pendingAdd = none
  saving : ∀ failed, q.phase = .saving failed → q.pendingAdd = none

theorem poised_of_none {q : RequestQueueWithSitemap Url} (h : q.pendingAdd = none) : q.Poised :=
  ⟨fun _ _ => h, fun _ _ => h⟩

theorem poised_fill {q : RequestQueueWithSitemap Url} {left : ℕ}
    (h : 0 < left ∨ q.pendingAdd = none) : { q with phase := q.fill left }.Poised := by
  cases hpending : q.pendingAdd with
  | none => exact poised_of_none rfl
  | some request =>
    obtain ⟨n, rfl⟩ : ∃ n, left = n + 1 := by
      rcases h with hpos | hnone
      · exact ⟨left - 1, by omega⟩
      · rw [hnone] at hpending
        cases hpending
    have hfill : q.fill (n + 1) = .adding (n + 1) := by
      rw [RequestQueueWithSitemap.fill, hpending]
      rfl
    refine ⟨fun left hphase => ?_, fun failed hphase => ?_⟩
    · have hphase : q.fill (n + 1) = .fetching left := hphase
      rw [hfill] at hphase
      cases hphase
    · have hphase : q.fill (n + 1) = .saving failed := hphase
      rw [hfill] at hphase
      cases hphase

def RequestQueueWithSitemap.fetched (q : RequestQueueWithSitemap Url) (left : ℕ) :
    Outcome Url → RequestQueueWithSitemap Url
  | .goesOn => q
  | .returned none => { q with phase := .saving false }
  | .returned (some request) => { q with pendingAdd := some request, phase := .adding left }
  | .failed => { q with phase := .saving true }
  | .dropped => { q with phase := .idle }

theorem fetched_added (q : RequestQueueWithSitemap Url) (hnone : q.pendingAdd = none) (left : ℕ)
    (outcome : Outcome Url) : (q.fetched left outcome).list = q.list ∧
      (q.fetched left outcome).added ++ (q.fetched left outcome).pendingAdd.toList =
        q.added ++ outcome.emitted := by
  cases outcome with
  | returned request =>
    cases request with
    | none => exact ⟨rfl, congrArg (q.added ++ ·.toList) hnone⟩
    | some request => exact ⟨rfl, rfl⟩
  | goesOn => exact ⟨rfl, congrArg (q.added ++ ·.toList) hnone⟩
  | failed => exact ⟨rfl, congrArg (q.added ++ ·.toList) hnone⟩
  | dropped => exact ⟨rfl, congrArg (q.added ++ ·.toList) hnone⟩

theorem stopsIdle_of_no_limit {w : World Url} (h : w.list.limit = none) (event : Sitemap.Event) :
    StopsIdle w event := by
  cases event with
  | turn _ _ _ =>
    intro hreached
    rw [State.limitReached, h] at hreached
    cases hreached
  | _ => trivial

variable [UrlText Url]

def RequestQueueWithSitemap.drained (q : RequestQueueWithSitemap Url) : Bool :=
  q.pendingAdd.isNone && q.list.list.isFinished

/-- The inner queue is asked when the list is drained. -/
def RequestQueueWithSitemap.whenDrained (q : RequestQueueWithSitemap Url) (inner : Option Bool) :
    Option Bool :=
  if q.drained then inner else some false

def RequestQueueWithSitemap.isEmpty (q : RequestQueueWithSitemap Url) (inner : Option Bool) :
    Option Bool :=
  q.whenDrained inner

def RequestQueueWithSitemap.isFinished (q : RequestQueueWithSitemap Url) (inner : Option Bool) :
    Option Bool :=
  q.whenDrained inner

theorem drained_of_answer {q : RequestQueueWithSitemap Url} {inner : Option Bool}
    (h : q.isEmpty inner = some true ∨ q.isFinished inner = some true) :
    q.pendingAdd = none ∧ q.list.list.isFinished = true := by
  have hdrained : q.drained = true := by
    by_contra hnot
    unfold RequestQueueWithSitemap.isEmpty RequestQueueWithSitemap.isFinished
      RequestQueueWithSitemap.whenDrained at h
    rw [if_neg hnot] at h
    simp at h
  rwa [RequestQueueWithSitemap.drained, Bool.and_eq_true, Option.isNone_iff_eq_none] at hdrained

section Step
variable [DecidableEq Url]

/-- `load_persisted`; the store is asked once. -/
def loads (b : SitemapRequestListBuilder Url) (w : World Url) (answered : Bool) :
    Option (World Url) :=
  if w.list.loaded then some w
  else if answered || !w.list.persistence then Sitemap.step b w (.load true)
  else none

/-- An error of the store is only logged. -/
def persistAfterBatch (b : SitemapRequestListBuilder Url) (w : World Url)
    (answered stored : Bool) : World Url :=
  ((loads b w answered).bind fun w => Sitemap.step b w (.persist stored)).getD w

def step (b : SitemapRequestListBuilder Url) (q : RequestQueueWithSitemap Url) (event : Event) :
    Option (RequestQueueWithSitemap Url) :=
  match event, q.phase with
  | .call, .idle => some { q with phase := .looking }
  | .looked none, .looking => some { q with phase := .idle }
  | .looked (some false), .looking => some { q with phase := .serving }
  | .looked (some true), .looking =>
    some { q with phase := if q.drained then .serving else q.fill q.batch }
  | .loaded answered, .fetching _ =>
    match loads b q.list answered with
    | some list => some { q with list }
    | none => some { q with phase := .saving true }
  | .polled reply, .fetching left =>
    (Sitemap.step b q.list (.turn false reply true)).map fun list =>
      { q with list }.fetched left (q.list.list.turn false reply).outcome
  | .added accepted, .adding left =>
    q.pendingAdd.map fun request =>
      if accepted then
        let q := { q with pendingAdd := none, added := q.added ++ [request] }
        { q with phase := q.fill (left - 1) }
      else { q with phase := .idle }
  | .saved answered stored, .saving failed =>
    let q := { q with list := persistAfterBatch b q.list answered stored }
    some { q with phase := if failed then .idle else if q.drained then .serving else .looking }
  | .served, .serving => some { q with phase := .idle }
  | .cancelled, _ => some { q with phase := .idle }
  | .restarted, _ => (Sitemap.step b q.list (.restart b.limit)).map fun list =>
      { q with list, pendingAdd := none, phase := .idle }
  | _, _ => none

variable {b : SitemapRequestListBuilder Url} {q q' : RequestQueueWithSitemap Url} {event : Event}

inductive Moves (b : SitemapRequestListBuilder Url) (q : RequestQueueWithSitemap Url) :
    Event → RequestQueueWithSitemap Url → Prop
  | stays (event : Event) (phase : Phase) : Moves b q event { q with phase }
  | loads (answered : Bool) (left : ℕ) (list : World Url) : q.phase = .fetching left →
      loads b q.list answered = some list → Moves b q (.loaded answered) { q with list }
  | polls (reply : Reply) (left : ℕ) (list : World Url) : q.phase = .fetching left →
      Sitemap.step b q.list (.turn false reply true) = some list →
      Moves b q (.polled reply)
        ({ q with list }.fetched left (q.list.list.turn false reply).outcome)
  | adds (request : SitemapRequest Url) (phase : Phase) : q.pendingAdd = some request →
      Moves b q (.added true)
        { q with pendingAdd := none, phase, added := q.added ++ [request] }
  | saves (answered stored failed : Bool) (phase : Phase) : q.phase = .saving failed →
      Moves b q (.saved answered stored)
        { q with list := persistAfterBatch b q.list answered stored, phase }
  | restarts (list : World Url) : Sitemap.step b q.list (.restart b.limit) = some list →
      Moves b q .restarted { q with list, pendingAdd := none, phase := .idle }

theorem step_moves (h : step b q event = some q') : Moves b q event q' := by
  unfold step at h
  split at h
  · cases h
    exact .stays _ _
  · cases h
    exact .stays _ _
  · cases h
    exact .stays _ _
  · cases h
    exact .stays _ _
  · next answered left hphase =>
    split at h
    · next list hlist =>
      cases h
      exact .loads answered left list hphase hlist
    · cases h
      exact .stays _ _
  · next reply left hphase =>
    obtain ⟨list, hlist, rfl⟩ := Option.map_eq_some_iff.mp h
    exact .polls reply left list hphase hlist
  · next accepted left hphase =>
    obtain ⟨request, hrequest, rfl⟩ := Option.map_eq_some_iff.mp h
    cases accepted with
    | true => exact .adds request _ hrequest
    | false => exact .stays _ _
  · next answered stored failed hphase =>
    cases h
    exact .saves answered stored failed _ hphase
  · cases h
    exact .stays _ _
  · cases h
    exact .stays _ _
  · obtain ⟨list, hlist, rfl⟩ := Option.map_eq_some_iff.mp h
    exact .restarts list hlist
  · cases h

theorem RequestQueueWithSitemap.Poised.step (hq : q.Poised) (h : step b q event = some q') :
    q'.Poised := by
  have hidle : ∀ (q : RequestQueueWithSitemap Url) (phase : Phase),
      (∀ left, phase ≠ .fetching left) → (∀ failed, phase ≠ .saving failed) →
      { q with phase }.Poised :=
    fun q phase hfetching hsaving => ⟨fun left h => absurd h (hfetching left),
      fun failed h => absurd h (hsaving failed)⟩
  unfold Tandem.step at h
  split at h
  · cases h
    exact hidle _ _ (by simp) (by simp)
  · cases h
    exact hidle _ _ (by simp) (by simp)
  · cases h
    exact hidle _ _ (by simp) (by simp)
  · cases h
    split_ifs
    · exact hidle _ _ (by simp) (by simp)
    · exact poised_fill (.inl q.batch_pos)
  · next hphase =>
    have hnone := hq.fetching _ hphase
    split at h
    · cases h
      exact poised_of_none hnone
    · cases h
      exact poised_of_none hnone
  · next reply left hphase =>
    have hnone := hq.fetching left hphase
    obtain ⟨list, -, rfl⟩ := Option.map_eq_some_iff.mp h
    cases (q.list.list.turn false reply).outcome with
    | returned request =>
      cases request with
      | none => exact poised_of_none hnone
      | some request =>
        exact hidle { q with list, pendingAdd := some request } _ (by simp) (by simp)
    | goesOn => exact poised_of_none hnone
    | failed => exact poised_of_none hnone
    | dropped => exact poised_of_none hnone
  · obtain ⟨request, -, rfl⟩ := Option.map_eq_some_iff.mp h
    split_ifs
    · exact poised_of_none rfl
    · exact hidle _ _ (by simp) (by simp)
  · next hphase =>
    cases h
    exact poised_of_none (hq.saving _ hphase)
  · cases h
    exact hidle _ _ (by simp) (by simp)
  · cases h
    exact hidle _ _ (by simp) (by simp)
  · obtain ⟨list, -, rfl⟩ := Option.map_eq_some_iff.mp h
    exact poised_of_none rfl
  · cases h

theorem loads_cases {w w' : World Url} {answered : Bool} (h : loads b w answered = some w') :
    w' = w ∧ w.list.loaded = true ∨
      w.list.loaded = false ∧ Sitemap.step b w (.load true) = some w' := by
  unfold loads at h
  split_ifs at h with hloaded hanswered
  · cases h
    exact .inl ⟨rfl, hloaded⟩
  · exact .inr ⟨Bool.eq_false_iff.mpr hloaded, h⟩

theorem persistAfterBatch_cases (b : SitemapRequestListBuilder Url) (w : World Url)
    (answered stored : Bool) : persistAfterBatch b w answered stored = w ∨
      ∃ w', loads b w answered = some w' ∧
        Sitemap.step b w' (.persist stored) = some (persistAfterBatch b w answered stored) := by
  unfold persistAfterBatch
  cases loads b w answered with
  | none => exact .inl rfl
  | some w' =>
    simp only [Option.bind_some]
    cases hpersist : Sitemap.step b w' (.persist stored) with
    | none => exact .inl rfl
    | some w'' => exact .inr ⟨w', rfl, hpersist⟩

theorem persistAfterBatch_invariant {I : World Url → Prop} {w : World Url}
    (hload : ∀ w w', I w → Sitemap.step b w (.load true) = some w' → I w')
    (hpersist : ∀ w w' stored, I w → Sitemap.step b w (.persist stored) = some w' → I w')
    (answered stored : Bool) (h : I w) : I (persistAfterBatch b w answered stored) := by
  rcases persistAfterBatch_cases b w answered stored with heq | ⟨w', hloads, hstep⟩
  · rw [heq]
    exact h
  · rcases loads_cases hloads with ⟨rfl, -⟩ | ⟨-, hloaded⟩
    · exact hpersist _ _ _ h hstep
    · exact hpersist _ _ _ (hload _ _ h hloaded) hstep

/-- No process stops, and the server answers with the documents that it has. -/
def Uninterrupted (docs : Url → Option (List EventResult)) (q : RequestQueueWithSitemap Url) :
    Event → Prop
  | .polled reply => Answered docs q.list.list reply
  | .restarted => False
  | _ => True

instance (docs : Url → Option (List EventResult)) (q : RequestQueueWithSitemap Url) :
    (event : Event) → Decidable (Uninterrupted docs q event)
  | .polled reply =>
    inferInstanceAs (Decidable (reply = .dropped ∨ reply = answer docs q.list.list))
  | .restarted => inferInstanceAs (Decidable False)
  | .call => inferInstanceAs (Decidable True)
  | .looked _ => inferInstanceAs (Decidable True)
  | .loaded _ => inferInstanceAs (Decidable True)
  | .added _ => inferInstanceAs (Decidable True)
  | .saved _ _ => inferInstanceAs (Decidable True)
  | .served => inferInstanceAs (Decidable True)
  | .cancelled => inferInstanceAs (Decidable True)

variable {docs : Url → Option (List EventResult)} {whole : List (SitemapRequest Url)}
  {s : State Url}

structure Feeding (docs : Url → Option (List EventResult)) (whole : List (SitemapRequest Url))
    (s : State Url) (q : RequestQueueWithSitemap Url) : Prop where
  emitting : Emitting docs whole s q.list
  added : q.added ++ q.pendingAdd.toList = q.list.emitted
  poised : q.Poised

theorem load_emitted {w w' : World Url} {answered : Bool}
    (h : Sitemap.step b w (.load answered) = some w') : w'.emitted = w.emitted := by
  unfold Sitemap.step at h
  cases answered with
  | false =>
    cases h
    rfl
  | true =>
    simp only [if_true] at h
    obtain ⟨list, -, rfl⟩ := Option.map_eq_some_iff.mp h
    by_cases hloaded : w.list.loaded = true
    · rw [if_pos hloaded]
    · rw [if_neg hloaded]

theorem persist_emitted {w w' : World Url} {stored : Bool}
    (h : Sitemap.step b w (.persist stored) = some w') : w'.emitted = w.emitted := by
  unfold Sitemap.step at h
  split_ifs at h
  cases h
  rfl

theorem turn_emitted {w w' : World Url} {autoPersist stored : Bool} {reply : Reply}
    (h : Sitemap.step b w (.turn autoPersist reply stored) = some w') :
    w'.emitted = w.emitted ++ (w.list.turn autoPersist reply).outcome.emitted := by
  unfold Sitemap.step at h
  split_ifs at h
  cases h
  rfl

theorem Feeding.step (h : Feeding docs whole s q) (hbuilt : b.build = some s) {urls : List Url}
    (hreads : Walk.Reads docs s.walk urls)
    (hwhole : whole = s.within ((urls.firsts asStr ∅).map s.request))
    (hgoes : Uninterrupted docs q event) (hstep : step b q event = some q') :
    Feeding docs whole s q' := by
  have hpoised := h.poised.step hstep
  have hloads : ∀ w : World Url, Sitemap.Uninterrupted docs w (.load true) := fun _ => trivial
  have hpersists : ∀ (w : World Url) (stored : Bool),
      Sitemap.Uninterrupted docs w (.persist stored) := fun _ _ => trivial
  cases step_moves hstep with
  | stays event phase => exact ⟨h.emitting, h.added, hpoised⟩
  | loads answered left list _ hlist =>
    rcases loads_cases hlist with ⟨rfl, -⟩ | ⟨-, hload⟩
    · exact ⟨h.emitting, h.added, hpoised⟩
    · refine ⟨h.emitting.step hbuilt hreads hwhole (hloads _) hload, ?_, hpoised⟩
      exact h.added.trans (load_emitted hload).symm
  | polls reply left list hphase hturn =>
    have hnone := h.poised.fetching left hphase
    have hadded := h.added
    rw [hnone, Option.toList_none, List.append_nil] at hadded
    obtain ⟨hlist, hfetched⟩ := fetched_added { q with list } hnone left
      (q.list.list.turn false reply).outcome
    have hanswered : Sitemap.Uninterrupted docs q.list (.turn false reply true) := hgoes
    refine ⟨?_, ?_, hpoised⟩
    · rw [hlist]
      exact h.emitting.step hbuilt hreads hwhole hanswered hturn
    · rw [hfetched, hlist, turn_emitted hturn, ← hadded]
  | adds request phase hrequest =>
    refine ⟨h.emitting, ?_, hpoised⟩
    have hadded := h.added
    rw [hrequest] at hadded
    exact (List.append_nil _).trans hadded
  | saves answered stored failed phase hphase =>
    have hboth : Emitting docs whole s (persistAfterBatch b q.list answered stored) ∧
        (persistAfterBatch b q.list answered stored).emitted = q.list.emitted := by
      refine persistAfterBatch_invariant (I := fun w => Emitting docs whole s w ∧
        w.emitted = q.list.emitted) ?_ ?_ answered stored ⟨h.emitting, rfl⟩
      · intro w w' hw hload
        exact ⟨hw.1.step hbuilt hreads hwhole (hloads w) hload, (load_emitted hload).trans hw.2⟩
      · intro w w' stored hw hpersist
        exact ⟨hw.1.step hbuilt hreads hwhole (hpersists w stored) hpersist,
          (persist_emitted hpersist).trans hw.2⟩
    exact ⟨hboth.1, h.added.trans hboth.2.symm, hpoised⟩
  | restarts list _ => exact hgoes.elim

/-- However the calls are dropped and whatever the inner queue refuses, it is fed with what the
walk over the documents reads: each URL once, in the order of the walk and up to the limit. The
queue is empty or finished only when all of it has been added. -/
theorem feeding_walks {events : List Event} (hbuilt : b.build = some s) (batch : ℕ)
    (hrun : Machine.Run (Machine.Guarded (Uninterrupted docs) (Machine.Computes (step b)))
      ((new (.begin s none)).batchSize batch) events q) :
    ∃ urls rest, Walk.Reads docs s.walk urls ∧ Emits docs q.list.list rest ∧
      q.added ++ q.pendingAdd.toList ++ rest =
        s.within ((urls.firsts asStr ∅).map s.request) ∧
      ∀ inner, q.isEmpty inner = some true ∨ q.isFinished inner = some true →
        q.added = s.within ((urls.firsts asStr ∅).map s.request) := by
  obtain ⟨urls, hreads⟩ := (build_sound hbuilt).exists_reads docs
  have hfeeding : Feeding docs (s.within ((urls.firsts asStr ∅).map s.request)) s q := by
    refine Machine.run_invariant (I := Feeding docs _ s) ?_ hrun ?_
    · intro _ _ _ h hstep
      exact h.step hbuilt hreads rfl hstep.1 hstep.2
    · exact ⟨emitting_begin hbuilt hreads, rfl, poised_of_none rfl⟩
  obtain ⟨rest, hrest⟩ := hfeeding.emitting.sound.exists_emits docs
  have hsplit := hfeeding.emitting.rest rest hrest
  rw [← hfeeding.added] at hsplit
  refine ⟨urls, rest, hreads, hrest, hsplit, ?_⟩
  intro inner hanswer
  obtain ⟨hnone, hfinished⟩ := drained_of_answer hanswer
  have hend := hrest.unique (hfeeding.emitting.sound.emits_of_isFinished docs hfinished)
  rw [hnone, hend] at hsplit
  simpa using hsplit

def droppedFeeding : List Event :=
  [.call, .looked (some true), .loaded true, .polled (.opened pages), .polled .refused,
    .polled .dropped, .call, .looked (some true), .polled .refused, .added false, .call,
    .looked (some true), .added true]

theorem feeding_walks_droppedFeeding : ∃ (s : State PlainUrl)
    (q : RequestQueueWithSitemap PlainUrl) (urls : List PlainUrl)
    (rest : List (SitemapRequest PlainUrl)), (onePage none).build = some s ∧
      q.added.length = 1 ∧ Walk.Reads servedPages s.walk urls ∧
      q.added ++ q.pendingAdd.toList ++ rest =
        s.within ((urls.firsts asStr ∅).map s.request) := by
  have hrun : ∃ s q, (onePage none).build = some s ∧
      droppedFeeding.foldlM (fun q e => if Uninterrupted servedPages q e then
        step (onePage none) q e else none) ((new (.begin s none)).batchSize 2) = some q ∧
      q.added.length = 1 := ⟨_, _, rfl, rfl, rfl⟩
  obtain ⟨s, q, hbuilt, hrun, hlength⟩ := hrun
  obtain ⟨urls, rest, hreads, -, heq, -⟩ :=
    feeding_walks hbuilt 2 (Machine.guarded_run_of_foldlM hrun)
  exact ⟨s, q, urls, rest, hbuilt, hlength, hreads, heq⟩

/-- The server answers with the documents that it has; any process may stop. -/
def Served (docs : Url → Option (List EventResult)) (q : RequestQueueWithSitemap Url) :
    Event → Prop
  | .polled reply => Answered docs q.list.list reply
  | _ => True

instance (docs : Url → Option (List EventResult)) (q : RequestQueueWithSitemap Url) :
    (event : Event) → Decidable (Served docs q event)
  | .polled reply =>
    inferInstanceAs (Decidable (reply = .dropped ∨ reply = answer docs q.list.list))
  | .call => inferInstanceAs (Decidable True)
  | .looked _ => inferInstanceAs (Decidable True)
  | .loaded _ => inferInstanceAs (Decidable True)
  | .added _ => inferInstanceAs (Decidable True)
  | .saved _ _ => inferInstanceAs (Decidable True)
  | .served => inferInstanceAs (Decidable True)
  | .cancelled => inferInstanceAs (Decidable True)
  | .restarted => inferInstanceAs (Decidable True)

variable {all : List Url} {delivered : List (SitemapRequest Url)}

structure Covered (b : SitemapRequestListBuilder Url) (docs : Url → Option (List EventResult))
    (all : List Url) (s : State Url) (delivered saved : List (SitemapRequest Url))
    (w : World Url) : Prop where
  complete : Complete b w
  limit : w.list.limit = none
  unloaded : w.list.loaded = false → w.list = s
  covering : w.list.Covering docs all delivered
  stored : ∀ snapshot, w.stored = some snapshot → (s.restore snapshot).Covering docs all saved

theorem covered_begin (hbuilt : b.build = some s) (hlimit : b.limit = none)
    (hreads : Walk.Reads docs s.walk all) (saved : List (SitemapRequest Url))
    {snapshot : Option PersistedState}
    (hcomplete : Complete b (.begin s snapshot))
    (hstored : ∀ v, snapshot = some v → (s.restore v).Covering docs all saved) :
    Covered b docs all s saved saved (.begin s snapshot) := by
  refine ⟨hcomplete, (build_limit hbuilt).trans hlimit, fun _ => rfl, ?_, hstored⟩
  exact (covering_fresh (build_fresh hbuilt) hreads).mono (Finset.empty_subset _)

theorem Covered.step_load {w w' : World Url} (h : Covered b docs all s delivered delivered w)
    (hbuilt : b.build = some s) (hreads : Walk.Reads docs s.walk all)
    (hload : Sitemap.step b w (.load true) = some w') :
    Covered b docs all s delivered delivered w' := by
  have hcomplete := h.complete.step (stopsIdle_of_no_limit h.limit _) hload
  simp only [Sitemap.step, if_true] at hload
  obtain ⟨list, hlist, rfl⟩ := Option.map_eq_some_iff.mp hload
  by_cases hloaded : w.list.loaded = true
  · rw [if_pos hloaded]
    exact h
  · rw [if_neg hloaded] at hcomplete ⊢
    have hunloaded := Bool.eq_false_iff.mpr hloaded
    have hs := h.unloaded hunloaded
    have hfresh := build_fresh hbuilt
    have hlimit := h.limit
    rw [hs] at hlimit
    suffices hlist : list.limit = none ∧ list.loaded = true ∧ list.Covering docs all delivered by
      refine ⟨hcomplete, hlist.1, fun hnot => ?_, hlist.2.2, h.stored⟩
      have hnot : list.loaded = false := hnot
      rw [hlist.2.1] at hnot
      cases hnot
    have hplain : { s with loaded := true } = list →
        list.limit = none ∧ list.loaded = true ∧ list.Covering docs all delivered := by
      rintro rfl
      refine ⟨hlimit, rfl, ?_⟩
      have hfresh' : ({ s with loaded := true } : State Url).Fresh :=
        ⟨hfresh.current, hfresh.emission, hfresh.finished, hfresh.resume, hfresh.completed,
          hfresh.emittedUrls, hfresh.seen⟩
      exact (covering_fresh hfresh' hreads).mono (Finset.empty_subset _)
    unfold State.loadPersisted at hlist
    rw [hs] at hlist
    simp only [(build_unloaded hbuilt).1, Bool.false_eq_true, if_false] at hlist
    split_ifs at hlist with hpersistence
    · split at hlist
      · exact hplain (Option.some.inj hlist)
      · next snapshot hsnapshot =>
        split_ifs at hlist with hversion
        cases hlist
        exact ⟨hlimit, rfl, h.stored snapshot hsnapshot⟩
    · exact hplain (Option.some.inj hlist)

theorem Covered.step_persist {w w' : World Url} {stored : Bool}
    (h : Covered b docs all s delivered delivered w) (hbuilt : b.build = some s)
    (hpersist : Sitemap.step b w (.persist stored) = some w') :
    Covered b docs all s delivered delivered w' := by
  have hcomplete := h.complete.step (stopsIdle_of_no_limit h.limit _) hpersist
  have hsound := h.complete.kept.sound
  have hbuilt' : { b with limit := b.limit }.build = some s := hbuilt
  have hroots : s.roots = w.list.roots := (build_roots hbuilt').trans h.complete.roots.symm
  have haccounted := h.complete.accounted.weaken w.list.rootKeys
  have hsaved : (s.restore w.list.persistNow).Covering docs all delivered :=
    h.covering.restore hsound haccounted (build_sound hbuilt) (build_fresh hbuilt) hroots
  unfold Sitemap.step at hpersist
  split_ifs at hpersist with hloaded
  cases hpersist
  refine ⟨hcomplete, h.limit, h.unloaded, h.covering, ?_⟩
  intro snapshot hsnapshot
  have hsnapshot : (if stored && w.list.persistence then some w.list.persistNow
    else w.stored) = some snapshot := hsnapshot
  split_ifs at hsnapshot
  · cases hsnapshot
    exact hsaved
  · exact h.stored snapshot hsnapshot

theorem Covered.step_turn {w w' : World Url} {reply : Reply} {saved : List (SitemapRequest Url)}
    (h : Covered b docs all s delivered saved w) (hreply : Answered docs w.list reply)
    (hturn : Sitemap.step b w (.turn false reply true) = some w') :
    Covered b docs all s (delivered ++ (w.list.turn false reply).outcome.emitted) saved w' := by
  have hidle := stopsIdle_of_no_limit h.limit (.turn false reply true)
  have hcomplete := h.complete.step hidle hturn
  have hsound := h.complete.kept.sound
  have haccounted := h.complete.accounted.weaken w.list.rootKeys
  have hturns := turn_turns w.list false reply
  have hsame := turns_same hturns
  have hunsaved := hturns.unsaved
  unfold Sitemap.step at hturn
  split_ifs at hturn with hloaded
  cases hturn
  refine ⟨hcomplete, hsame.limit.trans h.limit, fun hunloaded => ?_, ?_, ?_⟩
  · have hunloaded : (w.list.turn false reply).list.loaded = false := hunloaded
    rw [hsame.loaded, hloaded] at hunloaded
    cases hunloaded
  · exact h.covering.turns hsound haccounted (h.complete.stays hidle) hreply hturns
  · intro snapshot hsnapshot
    have hsnapshot : (w.list.turn false reply).checkpoint.or w.stored = some snapshot := hsnapshot
    rw [hunsaved] at hsnapshot
    exact h.stored snapshot hsnapshot

/-- The next process goes on from the snapshot that is stored. -/
theorem Covered.restart {w : World Url} {saved : List (SitemapRequest Url)}
    (h : Covered b docs all s delivered saved w) (hbuilt : b.build = some s)
    (hlimit : b.limit = none) (hreads : Walk.Reads docs s.walk all) :
    Covered b docs all s saved saved (.begin s w.stored) := by
  have hbuilt' : { b with limit := b.limit }.build = some s := hbuilt
  have hrestart : Sitemap.step b w (.restart b.limit) = some (.begin s w.stored) := by
    simp only [Sitemap.step, hbuilt', Option.map_some]
  have hcomplete := h.complete.step (stopsIdle_of_no_limit h.limit (.restart b.limit)) hrestart
  exact covered_begin hbuilt hlimit hreads saved hcomplete h.stored

/-- Whatever a process has read, what is not added is still to be read. -/
structure Delivering (b : SitemapRequestListBuilder Url) (docs : Url → Option (List EventResult))
    (all : List Url) (s : State Url) (q : RequestQueueWithSitemap Url) : Prop where
  covered : Covered b docs all s (q.added ++ q.pendingAdd.toList) q.added q.list
  poised : q.Poised

theorem Delivering.added_eq (h : Delivering b docs all s q) (hnone : q.pendingAdd = none) :
    Covered b docs all s q.added q.added q.list := by
  have hcovered := h.covered
  rwa [hnone, Option.toList_none, List.append_nil] at hcovered

theorem Delivering.of_none (hcovered : Covered b docs all s q.added q.added q.list)
    (hnone : q.pendingAdd = none) (hpoised : q.Poised) : Delivering b docs all s q := by
  refine ⟨?_, hpoised⟩
  rwa [hnone, Option.toList_none, List.append_nil]

theorem Delivering.step (h : Delivering b docs all s q) (hbuilt : b.build = some s)
    (hlimit : b.limit = none) (hreads : Walk.Reads docs s.walk all)
    (hserved : Served docs q event) (hstep : step b q event = some q') :
    Delivering b docs all s q' := by
  have hpoised := h.poised.step hstep
  cases step_moves hstep with
  | stays event phase => exact ⟨h.covered, hpoised⟩
  | loads answered left list hphase hlist =>
    rcases loads_cases hlist with ⟨rfl, -⟩ | ⟨-, hload⟩
    · exact ⟨h.covered, hpoised⟩
    · have hnone := h.poised.fetching left hphase
      exact .of_none ((h.added_eq hnone).step_load hbuilt hreads hload) hnone hpoised
  | polls reply left list hphase hturn =>
    have hnone := h.poised.fetching left hphase
    have hcovered := (h.added_eq hnone).step_turn hserved hturn
    obtain ⟨hlist, hfetched⟩ := fetched_added { q with list } hnone left
      (q.list.list.turn false reply).outcome
    have hadded : ({ q with list }.fetched left (q.list.list.turn false reply).outcome).added =
        q.added := by
      cases (q.list.list.turn false reply).outcome with
      | returned request => cases request <;> rfl
      | _ => rfl
    refine ⟨?_, hpoised⟩
    rw [hfetched, hlist, hadded]
    exact hcovered
  | adds request phase hrequest =>
    have hcovered := h.covered
    rw [hrequest] at hcovered
    have hstored : ∀ snapshot, q.list.stored = some snapshot →
        (s.restore snapshot).Covering docs all (q.added ++ [request]) := by
      intro snapshot hsnapshot
      refine (hcovered.stored snapshot hsnapshot).mono ?_
      rw [requestKeys_append]
      exact Finset.subset_union_left
    exact .of_none ⟨hcovered.complete, hcovered.limit, hcovered.unloaded, hcovered.covering,
      hstored⟩ rfl hpoised
  | saves answered stored failed phase hphase =>
    have hnone := h.poised.saving failed hphase
    refine .of_none ?_ hnone hpoised
    exact persistAfterBatch_invariant (fun w w' hw hload => hw.step_load hbuilt hreads hload)
      (fun w w' stored hw hpersist => hw.step_persist hbuilt hpersist) answered stored
      (h.added_eq hnone)
  | restarts list hrestart =>
    have hbuilt' : { b with limit := b.limit }.build = some s := hbuilt
    simp only [Sitemap.step, hbuilt', Option.map_some] at hrestart
    cases hrestart
    exact .of_none (h.covered.restart hbuilt hlimit hreads) rfl hpoised

theorem Covered.idle {w : World Url} {saved : List (SitemapRequest Url)}
    (h : Covered b docs all s delivered saved w) (hfinished : w.list.isFinished = true) :
    w.list.pending = [] ∧ w.list.current = none := by
  have hlimit : w.list.limitReached = false := by
    rw [State.limitReached, h.limit]
    rfl
  cases hdone : w.list.finished with
  | true => exact h.complete.ended hdone hlimit
  | false =>
    simp only [State.isFinished, hdone, hlimit, Bool.false_or, Bool.and_eq_true,
      List.all_eq_true, decide_eq_true_eq, Option.isNone_iff_eq_none] at hfinished
    refine ⟨?_, hfinished.1⟩
    rw [← h.complete.kept.sound.openStack]
    exact List.dropWhile_eq_nil_iff.mpr fun p hp => decide_eq_true (hfinished.2 p hp)

theorem Covered.ended {w : World Url} {saved : List (SitemapRequest Url)}
    (h : Covered b docs all s delivered saved w) (hfinished : w.list.isFinished = true) :
    ∀ url ∈ all, asStr url ∈ requestKeys delivered := by
  obtain ⟨hpending, hcurrent⟩ := h.idle hfinished
  exact h.covering.ended (h.complete.kept.sound.emission_of_none hcurrent)
    (.ends (walk_visit_of_none hcurrent) hpending)

theorem Covered.step_poll {w : World Url} {saved : List (SitemapRequest Url)}
    (h : Covered b docs all s delivered saved w) (hloaded : w.list.loaded = true) :
    ∃ w', w'.list = (w.list.poll docs).list ∧ w'.list.loaded = true ∧
      Covered b docs all s (delivered ++ (w.list.poll docs).outcome.emitted) saved w' := by
  have hturn : Sitemap.step b w (.turn false (answer docs w.list) true) = some { w with
      list := (w.list.poll docs).list
      stored := (w.list.poll docs).checkpoint.or w.stored
      emitted := w.emitted ++ (w.list.poll docs).outcome.emitted
      visited := w.visited ++ w.list.visits (w.list.poll docs).list } := if_pos hloaded
  have hsame := turns_same (turn_turns w.list false (answer docs w.list))
  exact ⟨_, rfl, hsame.loaded.trans hloaded, h.step_turn (.inr rfl) hturn⟩

/-- What is left is emitted when the list is polled to its end. -/
theorem Covered.emits {w : World Url} {saved rest : List (SitemapRequest Url)}
    (h : Covered b docs all s delivered saved w) (hloaded : w.list.loaded = true)
    (hemits : Emits docs w.list rest) :
    ∀ url ∈ all, asStr url ∈ requestKeys (delivered ++ rest) := by
  generalize hlist : w.list = list at hemits
  induction hemits generalizing w delivered with
  | @ends list hends =>
    subst hlist
    obtain ⟨w', hlist, -, hafter⟩ := h.step_poll hloaded
    rw [emitted_of_ends hends] at hafter
    refine hafter.ended ?_
    rw [hlist, State.isFinished, finished_of_ends docs hends, Bool.true_or]
    rfl
  | @goes list requests hends hrest ih =>
    subst hlist
    obtain ⟨w', hlist, hloaded', hafter⟩ := h.step_poll hloaded
    rw [← List.append_assoc]
    exact ih hafter hloaded' hlist

end Step

end Millipede.Sitemap.Tandem
