import Millipede.Sitemap.Reread

/-!
# What is left to deliver

Requests are taken from a list and delivered elsewhere. Across stops every URL that the walk reads
has been delivered, is about to be emitted or is still to be read: a snapshot that is saved when
all that was emitted is delivered loses nothing.
-/

namespace Millipede.Sitemap

open UrlText

variable {Url : Type} [UrlText Url] {s r : State Url} {current : ActiveSitemap Url}
  {docs : Url → Option (List EventResult)} {front : List SitemapEvent} {all : List Url}
  {delivered more : List (SitemapRequest Url)}

theorem requestKeys_append {requests : List (SitemapRequest Url)} :
    requestKeys (requests ++ more) = requestKeys requests ∪ requestKeys more := by
  rw [requestKeys, List.map_append, List.toFinset_append]
  rfl

/-- The URLs of the first `n` entries of a sitemap. -/
def servedKeys (docs : Url → Option (List EventResult)) (url : Url) (n : ℕ) : Finset String :=
  (docs url).elim ∅ (entryKeys Url n)

theorem entryKeys_subset {front : List SitemapEvent} {events : List EventResult}
    (h : ∀ m, entryKeys Url m events = ∅) (n : ℕ) :
    entryKeys Url n (front.map .ok ++ events) ⊆ urlKeys Url front := by
  induction front generalizing n with
  | nil =>
    rw [List.map_nil, List.nil_append, h]
    exact Finset.empty_subset _
  | cons event front ih =>
    rw [urlKeys_cons, List.map_cons, List.cons_append]
    cases n with
    | zero =>
      rw [entryKeys_zero]
      exact Finset.empty_subset _
    | succ n =>
      cases event with
      | nested location =>
        rw [entryKeys]
        exact ih (n + 1)
      | entry loc =>
        have hurl : (SitemapEvent.entry loc).entryUrl Url = parse loc := rfl
        rw [entryKeys, hurl]
        cases (parse loc : Option Url) with
        | none => exact ih n
        | some url => exact Finset.insert_subset_insert _ (ih n)

/-- What the list passes over has been delivered or is to be emitted, what stands in the completed
sitemaps has been delivered, and every URL of `all` that is neither is still to be read. -/
structure State.Covering (docs : Url → Option (List EventResult)) (all : List Url)
    (delivered : List (SitemapRequest Url)) (s : State Url) : Prop where
  rereadable : s.Rereadable docs
  passed : s.passedOver docs ⊆ requestKeys (delivered ++ s.pendingEmission.toList)
  completed : ∀ url n, asStr url ∈ s.completed → servedKeys docs url n ⊆ requestKeys delivered
  rest : ∀ urls, Walk.Reads docs s.walk urls → ∀ url ∈ all,
    asStr url ∈ requestKeys (delivered ++ s.pendingEmission.toList) ∨ url ∈ urls

theorem State.Covering.mono (h : s.Covering docs all delivered)
    (hsub : requestKeys delivered ⊆ requestKeys more) : s.Covering docs all more := by
  have hkeys : requestKeys (delivered ++ s.pendingEmission.toList) ⊆
      requestKeys (more ++ s.pendingEmission.toList) := by
    rw [requestKeys_append, requestKeys_append]
    exact Finset.union_subset_union_left hsub
  exact ⟨h.rereadable, Finset.Subset.trans h.passed hkeys,
    fun url n hdone => Finset.Subset.trans (h.completed url n hdone) hsub,
    fun urls hreads url hurl => (h.rest urls hreads url hurl).imp_left fun hin => hkeys hin⟩

theorem covering_fresh (hfresh : s.Fresh) {urls : List Url} (hreads : Walk.Reads docs s.walk urls) :
    s.Covering docs urls [] := by
  refine ⟨rereadable_of_none hfresh.current, ?_, ?_, ?_⟩
  · rw [passedOver_of_fresh docs hfresh]
    exact Finset.empty_subset _
  · intro url n hdone
    rw [hfresh.completed] at hdone
    cases hdone
  · intro urls' hreads' url hurl
    rw [hreads'.unique hreads]
    exact .inr hurl

theorem State.Covering.ended (h : s.Covering docs all delivered)
    (hemission : s.pendingEmission = none) (hreads : Walk.Reads docs s.walk []) :
    ∀ url ∈ all, asStr url ∈ requestKeys delivered := by
  intro url hurl
  have hin := (h.rest [] hreads url hurl).resolve_right List.not_mem_nil
  rwa [hemission, Option.toList_none, List.append_nil] at hin

/-- What stands in front of the cursor that is saved has been delivered. -/
theorem State.Covering.cursor_delivered (h : s.Covering docs all delivered) (hs : Sound s) :
    s.persistNow.cursorKeys docs ⊆ requestKeys delivered := by
  cases hcurrent : s.current with
  | none =>
    have hpassed := h.passed
    rw [hs.emission_of_none hcurrent, Option.toList_none, List.append_nil] at hpassed
    rw [saved_cursorKeys_of_none docs hcurrent]
    exact Finset.Subset.trans Finset.subset_union_right hpassed
  | some current =>
    obtain ⟨front, hfront⟩ := h.rereadable current hcurrent
    obtain ⟨before, hsaved, hurls, hpending⟩ := hfront.saved_cursorKeys hcurrent
    rw [hsaved]
    intro key hkey
    obtain ⟨url, hurl, rfl⟩ := mem_urlKeys.mp hkey
    have hknown : asStr url ∈ s.emittedUrls := by
      refine hfront.known url ?_
      rw [hurls]
      exact List.mem_append_left _ hurl
    have hin := h.passed (Finset.mem_union_left _ hknown)
    rw [requestKeys_append] at hin
    refine (Finset.mem_union.mp hin).resolve_right ?_
    intro hlast
    obtain ⟨request, hrequest, heq⟩ := mem_requestKeys.mp hlast
    exact (hpending request (Option.mem_toList.mp hrequest)).2 (heq ▸ hkey)

/-- Everything in a sitemap that has been read to its end is known. -/
theorem State.Rereads.ended (h : s.Rereads docs current front) (hends : current.ends = true)
    (n : ℕ) : servedKeys docs current.pending.url n ⊆ s.emittedUrls := by
  rw [servedKeys, h.served]
  refine Finset.Subset.trans (entryKeys_subset (entryKeys_of_ends hends) n) ?_
  intro key hkey
  obtain ⟨url, hurl, rfl⟩ := mem_urlKeys.mp hkey
  exact h.known url hurl

theorem State.Accounted.weaken (h : s.Accounted ∅) (exempt : Finset String) :
    s.Accounted exempt := by
  refine Finset.Subset.trans h ?_
  rw [Finset.empty_union]
  exact Finset.union_subset_union_left Finset.subset_union_right

theorem State.Covering.enters (h : s.Covering docs all delivered) (hs : Sound s)
    (hcurrent : s.current = none) {p : PendingSitemap Url} {rest : List (PendingSitemap Url)}
    (hstack : s.openStack = p :: rest)
    {t : State Url} (hrereadable : t.Rereadable docs)
    (hserved : ∀ events, docs p.url = some events → t = (s.peeked p rest).opened p events)
    (hrefused : docs p.url = none → t = (s.peeked p rest).markFetchFailure p) :
    t.Covering docs all delivered := by
  have hpending : s.pending = p :: rest := hs.openStack.symm.trans hstack
  have hwalk : t.goes.list.walk = s.walk.next docs :=
    hs.entered_walk hcurrent hpending hserved hrefused
  obtain ⟨-, hemission, hpassed, -⟩ := entered_passes docs hcurrent hpending hserved hrefused
  refine ⟨hrereadable, ?_, ?_, ?_⟩
  · rw [hpassed, hemission]
    exact h.passed
  · intro url n hdone
    cases hdoc : docs p.url with
    | some events =>
      rw [hserved events hdoc] at hdone
      exact h.completed url n hdone
    | none =>
      rw [hrefused hdoc] at hdone
      rcases Finset.mem_insert.mp hdone with heq | hdone
      · have hsame : url = p.url := asStr_injective heq
        rw [servedKeys, hsame, hdoc]
        exact Finset.empty_subset _
      · exact h.completed url n hdone
  · intro urls hreads url hurl
    have hreads : Walk.Reads docs (s.walk.next docs) urls := hwalk ▸ hreads
    have hgoes : Walk.Reads docs s.walk (s.walk.entry.toList ++ urls) := by
      refine .goes (fun _ hempty => ?_) hreads
      rw [show s.walk.stack = s.pending from rfl, hpending] at hempty
      cases hempty
    have hin := h.rest _ hgoes url hurl
    rw [Walk.entry_of_no_visit (walk_visit_of_none hcurrent)] at hin
    rw [hemission]
    exact hin

theorem State.Covering.emits {request : SitemapRequest Url} (h : s.Covering docs all delivered)
    (hemission : s.pendingEmission = some request) :
    s.emitted.Covering docs all (delivered ++ [request]) := by
  have hkeys : delivered ++ s.pendingEmission.toList =
      (delivered ++ [request]) ++ s.emitted.pendingEmission.toList := by
    rw [hemission]
    exact (List.append_nil _).symm
  refine ⟨?_, ?_, fun url n hdone => ?_, ?_⟩
  · intro current hc
    obtain ⟨front, hserved, hcounted, hwalk, hknown, -⟩ := h.rereadable current hc
    exact ⟨front, hserved, hcounted, hwalk, hknown, fun _ hrequest => (by cases hrequest)⟩
  · rw [← hkeys]
    exact h.passed
  · rw [requestKeys_append]
    exact Finset.Subset.trans (h.completed url n hdone) Finset.subset_union_left
  · rw [← hkeys]
    exact h.rest

theorem State.Covering.finishes {t : State Url} (h : s.Covering docs all delivered)
    (hrereadable : t.Rereadable docs) (hwalk : t.walk = s.walk)
    (hpassed : t.passedOver docs = s.passedOver docs) (hcompleted : t.completed = s.completed)
    (hemission : t.pendingEmission = s.pendingEmission) : t.Covering docs all delivered := by
  refine ⟨hrereadable, ?_, ?_, ?_⟩
  · rw [hpassed, hemission]
    exact h.passed
  · rw [hcompleted]
    exact h.completed
  · rw [hwalk, hemission]
    exact h.rest

variable [DecidableEq Url]

theorem State.Covering.reread (h : s.Covering docs all delivered) (hs : Sound s)
    (haccounted : s.Accounted s.rootKeys) {urls : List Url}
    (hreads : Walk.Reads docs s.reread urls) :
    ∀ url ∈ all, asStr url ∈ requestKeys delivered ∨ url ∈ urls := by
  intro url hurl
  obtain ⟨later, hlater⟩ := hs.exists_reads docs
  have hsplit := h.rereadable.firsts_reread hs haccounted hlater hreads
  -- What the saved list still emits is what the rebuilt one finds behind its cursor.
  have hfound : ∀ request ∈ s.pendingEmission.toList ++
      (later.firsts asStr (s.recovered docs)).map s.request, request.url ∈ urls := by
    intro request hrequest
    rw [← hsplit] at hrequest
    obtain ⟨found, hin, rfl⟩ := List.mem_map.mp hrequest
    exact List.mem_of_mem_firsts hin
  have hpending : asStr url ∈ requestKeys s.pendingEmission.toList → url ∈ urls := by
    intro hkey
    obtain ⟨request, hrequest, heq⟩ := mem_requestKeys.mp hkey
    exact asStr_injective heq ▸ hfound request (List.mem_append_left _ hrequest)
  rcases h.rest later hlater url hurl with hkey | hin
  · rw [requestKeys_append] at hkey
    exact (Finset.mem_union.mp hkey).imp_right hpending
  · have hfate : asStr url ∈ s.recovered docs ∨
        asStr url ∈ (later.firsts asStr (s.recovered docs)).map asStr := List.mem_map_firsts hin
    rcases hfate with hrecovered | hfirst
    · refine (Finset.mem_union.mp hrecovered).imp ?_ hpending
      exact fun hkey => h.cursor_delivered hs hkey
    · obtain ⟨other, hother, heq⟩ := List.mem_map.mp hfirst
      have hsame : other = url := asStr_injective heq
      subst hsame
      exact .inr (hfound _ (List.mem_append_right _ (List.mem_map_of_mem hother)))

/-- A list that is rebuilt from a snapshot misses nothing that was not delivered. -/
theorem State.Covering.restore (h : s.Covering docs all delivered) (hs : Sound s)
    (haccounted : s.Accounted s.rootKeys) (hr : Sound r) (hfresh : r.Fresh)
    (hroots : r.roots = s.roots) : (r.restore s.persistNow).Covering docs all delivered := by
  have hnone : (r.restore s.persistNow).pendingEmission = none := hfresh.emission
  refine ⟨rereadable_of_none hfresh.current, ?_, h.completed, ?_⟩
  · rw [restore_passedOver docs hfresh, hnone, Option.toList_none, List.append_nil]
    exact h.cursor_delivered hs
  · intro urls hreads url hurl
    have hwalk : (r.restore s.persistNow).walk = s.reread :=
      hs.restore_walk hr hfresh hroots s.emittedTotal false
    rw [hwalk] at hreads
    rw [hnone, Option.toList_none, List.append_nil]
    exact h.reread hs haccounted hreads url hurl

section Turn
variable {reply : Reply} {result : Turn Url}

theorem handle_completed (s : State Url) (current : ActiveSitemap Url) :
    (s.handle current).completed =
      if current.ends then insert current.pending.key s.completed else s.completed := by
  unfold State.handle ActiveSitemap.ends
  rcases current.events with _ | ⟨(_ | _) | loc | location, events⟩
  · rfl
  · rfl
  · rfl
  · simp only [Bool.false_eq_true, if_false]
    unfold State.addEntry
    split
    · rfl
    · split_ifs
      · rfl
      · rfl
      · rfl
  · simp only [Bool.false_eq_true, if_false]
    unfold State.addNested
    split_ifs
    · rfl
    · split
      · rfl
      · split_ifs
        · rfl
        · rfl

theorem State.Covering.handle (h : s.Covering docs all delivered) (hs : Sound s)
    (hrereadable : (s.handle current).Rereadable docs) (hcurrent : s.current = some current)
    (hemission : s.pendingEmission = none) : (s.handle current).Covering docs all delivered := by
  obtain ⟨hpending, hpassed⟩ := hs.handle_passes docs hcurrent hemission
  have hold := h.passed
  have hrest := h.rest
  rw [hemission, Option.toList_none, List.append_nil] at hold hrest
  have hentry : ∀ url, s.walk.entry = some url → asStr url ∈
      requestKeys (delivered ++ (s.handle current).pendingEmission.toList) := by
    intro url hurl
    rw [requestKeys_append, Finset.mem_union, hpending, hurl, Option.filter_some]
    by_cases hknown : asStr url ∈ s.passedOver docs
    · exact .inl (hold hknown)
    · rw [decide_eq_true hknown]
      exact .inr (mem_requestKeys.mpr ⟨s.request url, List.mem_singleton_self _, rfl⟩)
  have hsub : requestKeys delivered ⊆
      requestKeys (delivered ++ (s.handle current).pendingEmission.toList) := by
    rw [requestKeys_append]
    exact Finset.subset_union_left
  refine ⟨hrereadable, ?_, ?_, ?_⟩
  · rw [hpassed]
    cases hurl : s.walk.entry with
    | none => exact Finset.Subset.trans hold hsub
    | some url => exact Finset.insert_subset (hentry url hurl) (Finset.Subset.trans hold hsub)
  · intro url n hdone
    rw [handle_completed] at hdone
    split_ifs at hdone with hends
    · rcases Finset.mem_insert.mp hdone with heq | hdone
      · have hsame : url = current.pending.url := asStr_injective heq
        obtain ⟨front, hfront⟩ := h.rereadable current hcurrent
        rw [hsame]
        exact Finset.Subset.trans (hfront.ended hends n)
          (Finset.Subset.trans Finset.subset_union_left hold)
      · exact h.completed url n hdone
    · exact h.completed url n hdone
  · intro urls hreads url hurl
    rw [hs.handle_walk docs hcurrent] at hreads
    have hgoes : Walk.Reads docs s.walk (s.walk.entry.toList ++ urls) := by
      refine .goes (fun hnone => ?_) hreads
      rw [walk_visit_of_current hcurrent] at hnone
      cases hnone
    rcases hrest _ hgoes url hurl with hkey | hin
    · exact .inl (hsub hkey)
    · refine (List.mem_append.mp hin).imp (fun hread => ?_) id
      exact hentry url (Option.mem_toList.mp hread)

theorem Turns.unsaved (ht : Turns s false reply result) : result.checkpoint = none := by
  cases ht with
  | emits reply request _ _ => cases reply <;> rfl
  | handles reply current _ _ _ =>
    split_ifs
    · rfl
    · rfl
  | _ => rfl

/-- A turn keeps what is covered; what it emits is to be delivered. -/
theorem State.Covering.turns (h : s.Covering docs all delivered) (hs : Sound s)
    (haccounted : s.Accounted s.rootKeys) (hstays : ¬ s.running → s.current = none)
    (hreply : Answered docs s reply) (ht : Turns s false reply result) :
    result.list.Covering docs all (delivered ++ result.outcome.emitted) := by
  have hrereadable := h.rereadable.turns hs (fun _ => haccounted) hreply ht
  have hsame : s.Covering docs all (delivered ++ []) := by
    rw [List.append_nil]
    exact h
  cases ht with
  | stops reply hstop =>
    have hcurrent := hstays hstop
    refine hsame.finishes hrereadable ?_ ?_ rfl rfl
    · rw [State.walk, State.walk, hcurrent]
    · rw [State.passedOver, State.passedOver, State.cursorKeys, State.cursorKeys, hcurrent]
  | emits reply request _ hemission =>
    cases reply with
    | dropped => exact hsame
    | opened events => exact h.emits hemission
    | refused => exact h.emits hemission
  | exhausts reply _ _ hcurrent hstack =>
    have hpending : s.pending = [] := hs.openStack.symm.trans hstack
    rw [exhausted_emitted]
    have hwalk : ({ s with pending := [], finished := true } : State Url).walk = s.walk := by
      rw [State.walk, State.walk, hpending]
    have hpassed : ({ s with pending := [], finished := true } : State Url).passedOver docs =
        s.passedOver docs := by
      rw [State.passedOver, State.passedOver, State.cursorKeys, State.cursorKeys, hpending]
    exact hsame.finishes hrereadable hwalk hpassed rfl rfl
  | opens p rest events _ _ hcurrent hstack =>
    have hdoc := (hs.answered hstack hreply).1 events rfl
    refine (List.append_nil delivered).symm ▸
      h.enters hs hcurrent hstack hrereadable ?_ ?_
    · intro served hserved
      rw [hdoc] at hserved
      cases hserved
      rfl
    · intro hrefused
      rw [hdoc] at hrefused
      cases hrefused
  | refuses p rest _ _ hcurrent hstack =>
    have hdoc := (hs.answered hstack hreply).2 rfl
    refine (List.append_nil delivered).symm ▸
      h.enters hs hcurrent hstack hrereadable ?_ (fun _ => rfl)
    intro served hserved
    rw [hdoc] at hserved
    cases hserved
  | drops p rest _ _ _ hstack =>
    show (s.peeked p rest).Covering docs all (delivered ++ [])
    rw [hs.peeked_eq hstack]
    exact hsame
  | handles reply current hrunning hemission hcurrent =>
    have hlist : (if current.ends then (s.handle current).saves false
        else (s.handle current).goes).list = s.handle current ∧
        (if current.ends then (s.handle current).saves false
        else (s.handle current).goes).outcome.emitted = [] := by
      split_ifs
      · exact ⟨rfl, rfl⟩
      · exact ⟨rfl, rfl⟩
    rw [hlist.1] at hrereadable ⊢
    rw [hlist.2, List.append_nil]
    exact h.handle hs hrereadable hcurrent hemission

end Turn

end Millipede.Sitemap
