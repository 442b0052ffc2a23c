import Mathlib.Data.Multiset.DershowitzManna
import Mathlib.Order.WellFounded
import Millipede.Sitemap.Traversal

/-!
# The end of the traversal

A document leads to documents that are nested deeper, and the depth is limited; so a list
that is polled comes to its end, however many sitemaps the server names. The rank of a list
is the multiset of the depths that are left to its sitemaps, and below it what is left of the
current document.
-/

namespace Millipede.Sitemap

open UrlText

variable {Url : Type}

/-- The sitemaps that are to be read or are being read. The children of a document count when
it is complete. -/
def State.due (s : State Url) : List (PendingSitemap Url) :=
  (s.current.map ActiveSitemap.pending).toList ++ s.pending

def PendingSitemap.height (p : PendingSitemap Url) : ℕ := maxDepth - p.depth

def State.heights (s : State Url) : Multiset ℕ := (s.due.map PendingSitemap.height : List ℕ)

def State.eventsLeft (s : State Url) : ℕ := (s.current.map fun c => c.events.length).getD 0

inductive State.Below (t s : State Url) : Prop where
  | finished : s.finished = false → t.finished = true → State.Below t s
  | heights : t.finished = s.finished → t.heights.IsDershowitzMannaLT s.heights →
      State.Below t s
  | opened : t.finished = s.finished → t.heights = s.heights → s.current = none →
      t.current ≠ none → State.Below t s
  | event : t.finished = s.finished → t.heights = s.heights →
      t.current.isSome = s.current.isSome → t.eventsLeft < s.eventsLeft → State.Below t s
  | emitted : t.finished = s.finished → t.heights = s.heights → t.current = s.current →
      s.pendingEmission ≠ none → t.pendingEmission = none → State.Below t s

def State.rank (s : State Url) : ℕ × Multiset ℕ × ℕ × ℕ × ℕ :=
  ((!s.finished).toNat, s.heights, s.current.isNone.toNat, s.eventsLeft,
    s.pendingEmission.isSome.toNat)

def rankLT : ℕ × Multiset ℕ × ℕ × ℕ × ℕ → ℕ × Multiset ℕ × ℕ × ℕ × ℕ → Prop :=
  Prod.Lex (· < ·) <| Prod.Lex Multiset.IsDershowitzMannaLT <|
    Prod.Lex (· < ·) <| Prod.Lex (· < ·) (· < ·)

theorem rankLT_wf : WellFounded rankLT :=
  Nat.lt_wfRel.wf.prod_lex <| Multiset.wellFounded_isDershowitzMannaLT.prod_lex <|
    Nat.lt_wfRel.wf.prod_lex <| Nat.lt_wfRel.wf.prod_lex Nat.lt_wfRel.wf

theorem below_wf : WellFounded (State.Below : State Url → State Url → Prop) := by
  refine Subrelation.wf ?_ (InvImage.wf State.rank rankLT_wf)
  intro t s h
  simp only [InvImage, State.rank, rankLT]
  cases h with
  | finished hs ht =>
    refine Prod.Lex.left _ _ ?_
    rw [hs, ht]
    exact Nat.zero_lt_one
  | heights hfinished hheights =>
    rw [hfinished]
    exact .right _ (.left _ _ hheights)
  | opened hfinished hheights hs ht =>
    rw [hfinished, hheights]
    refine .right _ (.right _ (.left _ _ ?_))
    rw [hs, Option.isNone_eq_false_iff.mpr (Option.isSome_iff_ne_none.mpr ht)]
    exact Nat.zero_lt_one
  | event hfinished hheights hcurrent hevents =>
    have hnone : t.current.isNone = s.current.isNone := by
      rw [← Option.not_isSome, ← Option.not_isSome, hcurrent]
    rw [hfinished, hheights, hnone]
    exact .right _ (.right _ (.right _ (.left _ _ hevents)))
  | emitted hfinished hheights hcurrent hs ht =>
    have hevents : t.eventsLeft = s.eventsLeft := by
      unfold State.eventsLeft
      rw [hcurrent]
    rw [hfinished, hheights, hcurrent, hevents]
    refine .right _ (.right _ (.right _ (.right _ ?_)))
    rw [ht, Option.isSome_iff_ne_none.mpr hs]
    exact Nat.zero_lt_one

variable {s t : State Url} {current : ActiveSitemap Url}

theorem heights_of_current (h : s.current = some current) :
    s.heights = current.pending.height ::ₘ (s.pending.map PendingSitemap.height : List ℕ) := by
  unfold State.heights State.due
  rw [h]
  rfl

theorem heights_of_none (h : s.current = none) :
    s.heights = (s.pending.map PendingSitemap.height : List ℕ) := by
  unfold State.heights State.due
  rw [h]
  rfl

theorem heights_lt {p : PendingSitemap Url} {nested rest : List (PendingSitemap Url)}
    (hdepth : ∀ q ∈ nested, p.depth < q.depth) (hlimit : ∀ q ∈ nested, q.depth ≤ maxDepth)
    (hs : s.heights = p.height ::ₘ (rest.map PendingSitemap.height : List ℕ))
    (ht : t.heights = ((nested ++ rest).map PendingSitemap.height : List ℕ)) :
    t.heights.IsDershowitzMannaLT s.heights := by
  refine ⟨(rest.map PendingSitemap.height : List ℕ), (nested.map PendingSitemap.height : List ℕ),
    {p.height}, Multiset.singleton_ne_zero _, ?_, ?_, ?_⟩
  · rw [ht, List.map_append, ← Multiset.coe_add, add_comm]
  · rw [hs, add_comm, Multiset.singleton_add]
  · intro height hheight
    obtain ⟨q, hq, rfl⟩ := List.mem_map.mp (Multiset.mem_coe.mp hheight)
    refine ⟨p.height, Multiset.mem_singleton_self _, ?_⟩
    have hdeeper := hdepth q hq
    have hbound := hlimit q hq
    unfold PendingSitemap.height
    omega

theorem heights_lt_tail {p : PendingSitemap Url} {rest : List (PendingSitemap Url)}
    (hs : s.heights = p.height ::ₘ (rest.map PendingSitemap.height : List ℕ))
    (ht : t.heights = (rest.map PendingSitemap.height : List ℕ)) :
    t.heights.IsDershowitzMannaLT s.heights := by
  have hnil : ∀ q ∈ ([] : List (PendingSitemap Url)), p.depth < q.depth ∧ q.depth ≤ maxDepth :=
    fun _ hq => nomatch hq
  exact heights_lt (fun q hq => (hnil q hq).1) (fun q hq => (hnil q hq).2) hs ht

theorem State.Below.proceeds {event : EventResult} {events : List EventResult}
    {current' : ActiveSitemap Url} (hcurrent : s.current = some current)
    (hevents : current.events = event :: events) (ht : t.current = some current')
    (hpending : current'.pending = current.pending) (hleft : current'.events = events)
    (hstack : t.pending = s.pending) (hfinished : t.finished = s.finished) : t.Below s := by
  refine .event hfinished ?_ ?_ ?_
  · rw [heights_of_current hcurrent, heights_of_current ht, hpending, hstack]
  · rw [hcurrent, ht]
    rfl
  · unfold State.eventsLeft
    rw [hcurrent, ht]
    show current'.events.length < current.events.length
    rw [hleft, hevents]
    exact Nat.lt_succ_self _

section Turn
variable [UrlText Url] [DecidableEq Url] {autoPersist : Bool} {reply : Reply} {result : Turn Url}

theorem Sound.handles_below (h : Sound s) (hcurrent : s.current = some current)
    (ht : Handles s current t) : t.Below s := by
  have hheights := heights_of_current hcurrent
  cases ht with
  | proceeds event events entriesSeen emittedUrls pendingEmission hevents _ =>
    exact .proceeds hcurrent hevents rfl rfl rfl rfl rfl
  | stages location url events hevents _ _ _ =>
    exact .proceeds hcurrent hevents rfl rfl rfl rfl rfl
  | fails events _ => exact .heights rfl (heights_lt_tail hheights (heights_of_none rfl))
  | completes =>
    refine .heights rfl (heights_lt ?_ ?_ hheights (heights_of_none rfl))
    · exact fun q hq => (h.staged current hcurrent q hq).1
    · intro q hq
      refine h.depth q ?_
      rw [scheduled_of_current hcurrent]
      exact List.mem_append_left _ (List.mem_cons_of_mem _ hq)

/-- Every turn that is not dropped brings a list nearer to its end. -/
theorem Sound.turns_below (h : Sound s) (hreply : reply ≠ .dropped)
    (ht : Turns s autoPersist reply result) (hgoes : result.outcome ≠ .returned none) :
    result.list.Below s := by
  cases ht with
  | stops reply hstop => exact absurd rfl hgoes
  | emits reply request hrunning hemission =>
    have hsome : s.pendingEmission ≠ none := by
      rw [hemission]
      exact Option.some_ne_none _
    cases reply with
    | dropped => exact absurd rfl hreply
    | opened events => exact .emitted rfl rfl rfl hsome rfl
    | refused => exact .emitted rfl rfl rfl hsome rfl
  | exhausts reply hrunning hemission hcurrent hstack => exact .finished hrunning.1 rfl
  | opens p rest events hrunning hemission hcurrent hstack =>
    refine .opened rfl ?_ hcurrent (Option.some_ne_none _)
    rw [heights_of_none hcurrent, ← h.openStack, hstack]
    rfl
  | refuses p rest hrunning hemission hcurrent hstack =>
    refine .heights rfl (heights_lt_tail (p := p) ?_ (heights_of_none hcurrent))
    rw [heights_of_none hcurrent, ← h.openStack, hstack]
    rfl
  | drops p rest hrunning hemission hcurrent hstack => exact absurd rfl hreply
  | handles reply current hrunning hemission hcurrent =>
    have hbelow := h.handles_below hcurrent (handle_handles s current)
    split_ifs
    · exact hbelow
    · exact hbelow

theorem Sound.ends (h : Sound s) {lists : ℕ → State Url} {autoPersist : ℕ → Bool}
    {reply : ℕ → Reply} (hstart : lists 0 = s)
    (hturn : ∀ n, lists (n + 1) = ((lists n).turn (autoPersist n) (reply n)).list)
    (hreply : ∀ n, reply n ≠ .dropped) :
    ∃ n, ((lists n).turn (autoPersist n) (reply n)).outcome = .returned none := by
  by_contra hnever
  have hgoes : ∀ n, ((lists n).turn (autoPersist n) (reply n)).outcome ≠ .returned none :=
    fun n heq => hnever ⟨n, heq⟩
  have hsound : ∀ n, Sound (lists n) := by
    intro n
    induction n with
    | zero => exact hstart ▸ h
    | succ n ih =>
      rw [hturn n]
      exact ih.turns (turn_turns _ _ _)
  refine (wellFounded_iff_isEmpty_descending_chain.mp below_wf).false ⟨lists, fun n => ?_⟩
  rw [hturn n]
  exact (hsound n).turns_below (hreply n) (turn_turns _ _ _) (hgoes n)

end Turn

variable [UrlText Url] {b : SitemapRequestListBuilder Url} {key : String}

def State.Free (s : State Url) (key : String) : Prop :=
  key ∉ s.rootKeys ∪ s.completed ∪ keys s.scheduled

def State.Reads (s : State Url) (current : ActiveSitemap Url) : Prop :=
  s.running ∧ s.pendingEmission = none ∧ s.current = some current

theorem State.Free.mono (h : s.Free key) (hroots : t.roots = s.roots)
    (hcompleted : t.completed ⊆ s.completed ∪ keys s.scheduled)
    (hscheduled : t.scheduled ⊆ s.scheduled) : t.Free key := by
  intro hkey
  refine h ?_
  rcases Finset.mem_union.mp hkey with hkey | hkey
  · rcases Finset.mem_union.mp hkey with hroot | hdone
    · unfold State.rootKeys at hroot
      rw [hroots] at hroot
      exact Finset.mem_union_left _ (Finset.mem_union_left _ hroot)
    · rcases Finset.mem_union.mp (hcompleted hdone) with hdone | hdue
      · exact Finset.mem_union_left _ (Finset.mem_union_right _ hdone)
      · exact Finset.mem_union_right _ hdue
  · obtain ⟨p, hp, rfl⟩ := exists_of_mem_keys hkey
    exact Finset.mem_union_right _ (mem_keys_of_mem (hscheduled hp))

theorem State.Free.ends (h : s.Free key) (hcurrent : s.current = some current)
    (hroots : t.roots = s.roots) (ht : t.current = none)
    (hcompleted : t.completed = insert current.pending.key s.completed)
    (hstack : t.pending ⊆ current.nested ++ s.pending) : t.Free key := by
  have hscheduled := scheduled_of_current hcurrent
  refine h.mono hroots ?_ ?_
  · rw [hcompleted]
    refine Finset.insert_subset (Finset.mem_union_right _ ?_) Finset.subset_union_left
    rw [hscheduled]
    exact mem_keys_of_mem List.mem_cons_self
  · rw [hscheduled, scheduled_of_none ht]
    exact fun p hp => List.mem_cons_of_mem _ (hstack hp)

/-- The children of an index whose body fails are free. -/
theorem Sound.failed_free (h : Sound s) (hcurrent : s.current = some current)
    {child : PendingSitemap Url} (hchild : child ∈ current.nested) :
    (s.failCurrent current).Free child.key := by
  have hscheduled := scheduled_of_current hcurrent
  have hmem : child ∈ s.scheduled := by
    rw [hscheduled]
    exact List.mem_append_left _ (List.mem_cons_of_mem _ hchild)
  have hnodup := h.nodup
  rw [hscheduled, List.cons_append, List.map_cons, List.nodup_cons, List.map_append,
    List.nodup_append] at hnodup
  obtain ⟨hself, -, -, hapart⟩ := hnodup
  have hin := List.mem_map_of_mem (f := PendingSitemap.key) hchild
  intro hkey
  rcases Finset.mem_union.mp hkey with hkey | hdue
  · rcases Finset.mem_union.mp hkey with hroot | hdone
    · obtain ⟨root, hroot, heq⟩ := List.mem_map.mp (List.mem_toFinset.mp hroot)
      exact (h.staged current hcurrent child hchild).2 root hroot heq
    · rcases Finset.mem_insert.mp hdone with heq | hdone
      · exact hself (heq ▸ List.mem_append_left _ hin)
      · exact h.unfinished child hmem hdone
  · obtain ⟨p, hp, heq⟩ := exists_of_mem_keys hdue
    rw [scheduled_of_none rfl] at hp
    exact hapart _ hin _ (List.mem_map_of_mem hp) heq.symm

section Turn
variable [DecidableEq Url] {autoPersist : Bool} {reply : Reply} {result : Turn Url}

theorem State.Free.handles (h : s.Free key) (hcurrent : s.current = some current)
    (ht : Handles s current t) :
    t.Free key ∨ ∃ current', t.current = some current' ∧ key ∈ keys current'.nested := by
  have hscheduled := scheduled_of_current hcurrent
  cases ht with
  | proceeds event events entriesSeen emittedUrls pendingEmission _ _ =>
    refine .inl (h.mono rfl Finset.subset_union_left ?_)
    rw [hscheduled, scheduled_of_current rfl]
    exact List.Subset.refl _
  | stages location url events _ _ _ _ =>
    have hperm := scheduled_stage hcurrent
      (rfl : ({ current with events } : ActiveSitemap Url).pending = _) rfl url
    by_cases hkey : asStr url = key
    · refine .inr ⟨_, rfl, ?_⟩
      rw [← hkey]
      exact List.mem_toFinset.mpr (List.mem_map.mpr
        ⟨_, List.mem_append_right _ (List.mem_singleton.mpr rfl), rfl⟩)
    · refine .inl fun hin => h ?_
      rcases Finset.mem_union.mp hin with hold | hdue
      · exact Finset.mem_union_left _ hold
      · obtain ⟨p, hp, rfl⟩ := exists_of_mem_keys hdue
        rcases List.mem_cons.mp (hperm.mem_iff.mp hp) with rfl | hp
        · exact absurd rfl hkey
        · exact Finset.mem_union_right _ (mem_keys_of_mem hp)
  | fails events _ => exact .inl (h.ends hcurrent rfl rfl rfl (List.subset_append_right _ _))
  | completes => exact .inl (h.ends hcurrent rfl rfl rfl (List.Subset.refl _))

theorem State.Free.turns (h : s.Free key) (hs : Sound s) (ht : Turns s autoPersist reply result) :
    result.list.Free key ∨
      ∃ current, result.list.current = some current ∧ key ∈ keys current.nested := by
  have hpending : ∀ p rest, s.current = none → s.openStack = p :: rest →
      s.scheduled = p :: rest := by
    intro p rest hcurrent hstack
    rw [scheduled_of_none hcurrent, ← hs.openStack, hstack]
  cases ht with
  | stops reply hstop =>
    refine .inl (h.mono rfl Finset.subset_union_left ?_)
    rw [scheduled_of_none rfl]
    exact List.subset_append_right _ _
  | emits reply request hrunning hemission =>
    cases reply with
    | dropped => exact .inl h
    | opened events => exact .inl h
    | refused => exact .inl h
  | exhausts reply hrunning hemission hcurrent hstack =>
    refine .inl (h.mono rfl Finset.subset_union_left ?_)
    rw [show (State.exhausted { s with pending := [] }).list.scheduled = [] from
      scheduled_of_none hcurrent]
    exact List.nil_subset _
  | opens p rest events hrunning hemission hcurrent hstack =>
    refine .inl (h.mono rfl Finset.subset_union_left ?_)
    rw [hpending p rest hcurrent hstack]
    exact List.Subset.refl _
  | refuses p rest hrunning hemission hcurrent hstack =>
    have hafter : (((s.peeked p rest).markFetchFailure p).saves autoPersist).list.scheduled =
        rest := scheduled_of_none hcurrent
    refine .inl (h.mono rfl ?_ ?_)
    · rw [hpending p rest hcurrent hstack]
      refine Finset.insert_subset (Finset.mem_union_right _ ?_) Finset.subset_union_left
      exact mem_keys_of_mem List.mem_cons_self
    · rw [hafter, hpending p rest hcurrent hstack]
      exact List.subset_cons_self _ _
  | drops p rest hrunning hemission hcurrent hstack =>
    refine .inl (h.mono rfl Finset.subset_union_left ?_)
    rw [show (s.peeked p rest).scheduled = p :: rest from scheduled_of_none hcurrent,
      hpending p rest hcurrent hstack]
    exact List.Subset.refl _
  | handles reply current hrunning hemission hcurrent =>
    have hhandle := h.handles hcurrent (handle_handles s current)
    split_ifs
    · exact hhandle
    · exact hhandle

theorem turn_of_reads (h : s.Reads current) (autoPersist : Bool) (reply : Reply) :
    (s.turn autoPersist reply).list = s.handle current := by
  obtain ⟨⟨hfinished, hlimit⟩, hemission, hcurrent⟩ := h
  unfold State.turn
  rw [hfinished, hlimit, hemission, hcurrent]
  simp only [Bool.or_self, Bool.false_eq_true, if_false]
  split_ifs
  · rfl
  · rfl

theorem stages_free (hseen : s.Accounted s.rootKeys) {location : String} {url : Url}
    {events : List EventResult} (hevents : current.events = .ok (.nested location) :: events)
    (hurl : parse location = some url) (hdepth : current.pending.depth < maxDepth)
    (hfree : s.Free (asStr url)) :
    (s.handle current).current = some { current with
      events
      nested := current.nested ++ [{ url, depth := current.pending.depth + 1 }] } := by
  have hroot : url ∉ s.roots := by
    intro hin
    refine hfree (Finset.mem_union_left _ (Finset.mem_union_left _ ?_))
    exact List.mem_toFinset.mpr (List.mem_map_of_mem hin)
  have hnew : asStr url ∉ s.seenSitemaps := fun hin => hfree (hseen hin)
  unfold State.handle State.addNested
  rw [hevents]
  simp only [hurl]
  rw [if_neg (Nat.not_le_of_lt hdepth), if_neg hnew]
  simp only [State.stage, if_neg hroot]

variable {w : World Url}

/-- In a process no sitemap becomes the current document twice and none nested too deep does;
the current document is not completed, and a cursor is used for the sitemap that it was saved
for. The children of an index whose body fails are off the schedule and free for an index
that names them later. A list that is polled returns none at last. -/
theorem sitemaps_visited_once {events : List Event} (hbuilt : b.build = some s)
    (hrun : Machine.Run (Machine.Computes (step b)) (.begin s none) events w) :
    ((w.visited.map PendingSitemap.key).Nodup ∧ ∀ p ∈ w.visited, p.depth ≤ maxDepth) ∧
    (∀ current, w.list.current = some current → current.pending.key ∉ w.list.completed ∧
      (current.skipEntries ≠ 0 → ∃ saved, w.loadedFrom = some saved ∧
        saved.inProgress = some current.pending.key ∧
        saved.emittedInProgress = current.skipEntries)) ∧
    (∀ current events autoPersist reply, w.list.Reads current →
      current.events = .error .body :: events →
      let after := (w.list.turn autoPersist reply).list
      after.current = none ∧ after.pending = w.list.pending ∧
        ∀ child ∈ current.nested, after.Free child.key) ∧
    (∀ key autoPersist reply, w.list.Free key →
      let after := (w.list.turn autoPersist reply).list
      after.Free key ∨ ∃ current, after.current = some current ∧ key ∈ keys current.nested) ∧
    (∀ current location url events autoPersist reply, w.list.Reads current →
      current.events = .ok (.nested location) :: events → parse location = some url →
      current.pending.depth < maxDepth → w.list.Free (asStr url) →
      (w.list.turn autoPersist reply).list.current = some { current with
        events
        nested := current.nested ++ [{ url, depth := current.pending.depth + 1 }] }) ∧
    ∀ (lists : ℕ → State Url) (autoPersist : ℕ → Bool) (reply : ℕ → Reply),
      lists 0 = w.list → (∀ n, reply n ≠ .dropped) →
      (∀ n, lists (n + 1) = ((lists n).turn (autoPersist n) (reply n)).list) →
      ∃ n, ((lists n).turn (autoPersist n) (reply n)).outcome = .returned none := by
  have h := kept_run hbuilt hrun
  refine ⟨⟨h.visited_nodup, h.visited_depth⟩, ?_, ?_, ?_, ?_, ?_⟩
  · intro current hcurrent
    have hmem : current.pending ∈ w.list.scheduled := by
      rw [scheduled_of_current hcurrent]
      exact List.mem_cons_self
    exact ⟨h.sound.unfinished _ hmem, h.skip current hcurrent⟩
  · intro current events autoPersist reply hreads hevents
    have hturn : (w.list.turn autoPersist reply).list = w.list.failCurrent current := by
      rw [turn_of_reads hreads]
      unfold State.handle
      rw [hevents]
    rw [hturn]
    exact ⟨rfl, rfl, fun child hchild => h.sound.failed_free hreads.2.2 hchild⟩
  · intro key autoPersist reply hfree
    exact hfree.turns h.sound (turn_turns _ _ _)
  · intro current location url events autoPersist reply hreads hevents hurl hdepth hfree
    rw [turn_of_reads hreads]
    exact stages_free (h.accounted hreads.1.1) hevents hurl hdepth hfree
  · intro lists autoPersist reply hstart hreply hturn
    exact h.sound.ends hstart hturn hreply

end Turn

structure PlainUrl where
  text : String
deriving DecidableEq

instance : UrlText PlainUrl where
  parse text := some ⟨text⟩
  asStr := PlainUrl.text
  parse_asStr _ := rfl

def twoIndexes : SitemapRequestListBuilder PlainUrl where
  sitemapUrls := [⟨"first"⟩]
  persistence := false
  label := none
  userData := []
  limit := none

def circular : List Event :=
  [.load true,
    .turn true (.opened [.ok (.nested "first"), .ok (.nested "second")]) true,
    .turn true .refused true, .turn true .refused true, .turn true .refused true,
    .turn true (.opened [.ok (.nested "first"), .ok (.entry "page")]) true,
    .turn true .refused true, .turn true .refused true]

theorem sitemaps_visited_once_circular : ∃ s w, twoIndexes.build = some s ∧
    circular.foldlM (step twoIndexes) (.begin s none) = some w ∧
    w.visited.map PendingSitemap.depth = [0, 1] ∧
    (w.visited.map PendingSitemap.key).Nodup := by
  have hrun : ∃ s w, twoIndexes.build = some s ∧
      circular.foldlM (step twoIndexes) (.begin s none) = some w ∧
      w.visited.map PendingSitemap.depth = [0, 1] := ⟨_, _, rfl, rfl, rfl⟩
  obtain ⟨s, w, hbuilt, hfold, hdepths⟩ := hrun
  have honce := sitemaps_visited_once hbuilt (Machine.run_of_foldlM hfold)
  exact ⟨s, w, hbuilt, hfold, hdepths, honce.1.1⟩

end Millipede.Sitemap
