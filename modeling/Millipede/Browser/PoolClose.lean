import Millipede.Browser.PoolAccounting

/-!
# A registered page is closed once

As long as no close task is aborted and no hook panics: whoever has the `closing` flag of a
page calls `provider.close_page` once and then removes the page and counts it off, in one
critical section. The books are kept per handle, since every registered page has one.
-/

namespace Millipede.BrowserPool

variable {opts : BrowserPoolOptions} {s t : State} {i : ℕ} {phase : Phase} {effect : Effect}

/-- The page of which a task has called `provider.close_page` and which it has not counted off. -/
def Phase.closesPage : Phase → Option ℕ
  | .closing _ entry | .finishing _ entry _ => some entry.page
  | _ => none

def Phase.isCloseTask : Phase → Bool
  | .entering _ | .waiting _ _ | .preClosing _ _ | .closing _ _ | .finishing _ _ _
  | .closingBrowser _ | .receiving | .busy _ => true
  | _ => false

/-- An abort of a close task, or a hook of one that panics. -/
def Phase.disturbed : Phase → Action → Bool
  | phase, .cancel => phase.isCloseTask
  | .telling _ _ _, .fail => true
  | _, _ => false

def Event.disturbs (s : State) : Event → Bool
  | .act i action => s.tasks[i]?.any fun phase => phase.disturbed action
  | _ => false

def Undisturbed (s : State) (e : Event) : Prop := e.disturbs s = false

theorem Undisturbed.act {action : Action} (h : Undisturbed s (.act i action))
    (hi : s.tasks[i]? = some phase) : phase.disturbed action = false := by
  rw [Undisturbed, Event.disturbs, hi] at h
  exact h

def Handle.core (handle : Handle) : PageId × ℕ × BrowserId :=
  (handle.id, handle.page, handle.browserId)

def Shared.cores (s : Shared) : List (PageId × ℕ × BrowserId) := s.handles.map Handle.core

def Shared.present (s : Shared) (id : PageId) : Option (ℕ × BrowserId) :=
  (s.pool.pages.lookup id).map fun entry => (entry.page, entry.browserId)

structure Shared.SameBooks (s t : Shared) : Prop where
  cores : t.cores = s.cores
  closeCalls : t.closeCalls = s.closeCalls
  released : t.released = s.released
  present : ∀ id, t.present id = s.present id
  issued : t.issued = s.issued

inductive Books (opts : BrowserPoolOptions) (s : State) (i : ℕ) : Phase → Effect → Prop
  | keeps {phase : Phase} {effect : Effect} : s.shared.SameBooks effect.shared →
      (∀ page, holders Phase.closesPage page (effect.phase :: effect.spawned) =
        holders Phase.closesPage page [phase]) →
      (∀ id, holders Phase.numbered id (effect.phase :: effect.spawned) ≤
        holders Phase.numbered id [phase]) → phase.isDone = false → Books opts s i phase effect
  | numbers (id : BrowserId) : Books opts s i (.numbering id)
      (s.shared.number.goes (.registering id s.shared.nextPageId))
  | registers (id : BrowserId) (pageId : PageId) (hrunning : s.shared.pool.shutDown = false) :
      Books opts s i (.registering id pageId) (register s.shared i id pageId)
  | calls (id : PageId) (entry : PageEntry) : Books opts s i (.preClosing id entry)
      (Shared.goes { s.shared with closeCalls := s.shared.closeCalls ++ [entry.page] }
        (.closing id entry))
  | finishes (id : PageId) (entry : PageEntry) (result : Bool) :
      Books opts s i (.finishing id entry result) (finish opts s.shared id entry result)

theorem Shared.SameBooks.refl (s : Shared) : s.SameBooks s := ⟨rfl, rfl, rfl, fun _ => rfl, rfl⟩

theorem Shared.sameBooks_setPool {s : Shared} {pool : PoolState}
    (h : pool.pages = s.pool.pages) : s.SameBooks (s.setPool pool) :=
  ⟨rfl, rfl, rfl, fun id => by simp only [Shared.present, Shared.setPool, h], rfl⟩

theorem map_core_modify (handles : List Handle) (k : ℕ) {f : Handle → Handle}
    (hf : ∀ handle, (f handle).core = handle.core) :
    (handles.modify k f).map Handle.core = handles.map Handle.core := by
  refine List.ext_getElem? fun j => ?_
  simp only [List.getElem?_map, List.getElem?_modify]
  cases handles[j]? with
  | none => rfl
  | some h =>
    simp only [Option.map_some]
    split_ifs
    · exact congrArg some (hf h)
    · rfl

theorem Shared.sameBooks_setCloseState (s : Shared) (handle : ℕ) (closeState : CloseState) :
    s.SameBooks (s.setCloseState handle closeState) :=
  ⟨map_core_modify _ _ fun _ => rfl, rfl, rfl, fun _ => rfl, rfl⟩

theorem Shared.sameBooks_send (s : Shared) (command : CloseCommand) :
    s.SameBooks (s.send command) := by
  unfold Shared.send
  split_ifs
  · exact .refl s
  · exact ⟨rfl, rfl, rfl, fun _ => rfl, rfl⟩

theorem Books.alone {shared : Shared} {phase' : Phase} {wake : Wake}
    (hsame : s.shared.SameBooks shared)
    (hcloses : phase'.closesPage = phase.closesPage)
    (hnumbered : phase'.numbered = none) (hdone : phase.isDone = false) :
    Books opts s i phase ⟨shared, phase', [], wake⟩ := by
  refine .keeps hsame ?_ ?_ hdone
  · intro page
    simp only [holders, List.countP_singleton, hcloses]
  · intro id
    rw [holders_none hnumbered]
    exact Nat.zero_le _

theorem Books.spawns {shared : Shared} {phase' phase'' : Phase} {wake : Wake}
    (hsame : s.shared.SameBooks shared)
    (hcloses : phase.closesPage = none) (hcloses' : phase'.closesPage = none)
    (hcloses'' : phase''.closesPage = none)
    (hnumbered : phase'.numbered = none) (hnumbered' : phase''.numbered = none)
    (hdone : phase.isDone = false) : Books opts s i phase ⟨shared, phase', [phase''], wake⟩ := by
  refine .keeps hsame ?_ ?_ hdone
  · intro page
    rw [holders_cons, holders_none hcloses, holders_none hcloses', holders_none hcloses'']
  · intro id
    rw [holders_cons, holders_none hnumbered, holders_none hnumbered']
    exact Nat.zero_le _

theorem books_fail (h : fail s phase = some effect) : Books opts s i phase effect := by
  cases phase <;> cases h <;>
    first
    | exact .alone (.refl _) rfl rfl rfl
    | exact .spawns (.refl _) rfl rfl rfl rfl rfl rfl

theorem books_cancel (h : cancel s phase = some effect) (hu : phase.disturbed .cancel = false) :
    Books opts s i phase effect := by
  cases phase <;> cases h <;>
    first
    | exact .alone (.refl _) rfl rfl rfl
    | exact .spawns (.refl _) rfl rfl rfl rfl rfl rfl
    | exact .alone (Shared.sameBooks_setCloseState _ _ _) rfl rfl rfl
    | cases hu

theorem books_spawn (h : spawn s phase = some effect) : Books opts s i phase effect := by
  cases phase <;> cases h <;>
    exact .spawns (.refl _) rfl rfl rfl rfl rfl rfl

theorem books_choose (notified : Bool) :
    Books opts s i (.choosing notified) (choose opts s.shared notified) := by
  obtain ⟨-, heq⟩ | ⟨slot, -, heq⟩ | ⟨-, heq⟩ | ⟨-, -, -, heq⟩ :=
    choose_cases opts s.shared notified
  · rw [heq]
    exact .alone (.refl _) rfl rfl rfl
  · rw [heq]
    exact .alone (Shared.sameBooks_setPool rfl) rfl rfl rfl
  · rw [heq]
    exact .alone ⟨rfl, rfl, rfl, fun _ => rfl, rfl⟩ rfl rfl rfl
  · rw [heq]
    exact .alone (.refl _) rfl rfl rfl

theorem Shared.sameBooks_flag {s : Shared} {id : PageId} {entry : PageEntry}
    (hentry : s.pool.pages.lookup id = some entry) (closing : Bool) :
    s.SameBooks (s.setPool { s.pool with
      pages := s.pool.pages.insert id { entry with closing } }) := by
  refine ⟨rfl, rfl, rfl, ?_, rfl⟩
  intro k
  simp only [Shared.present, Shared.setPool, AList.lookup_insert_ite]
  split_ifs with hk
  · rw [hk, hentry]
    rfl
  · rfl

theorem Shared.sameBooks_unclose (s : Shared) (id : PageId) :
    s.SameBooks (s.setPool (s.pool.unclose id)) := by
  unfold PoolState.unclose
  split
  · exact .refl s
  · rename_i entry hentry
    exact Shared.sameBooks_flag hentry false

theorem books_enter (id : PageId) : Books opts s i (.entering id) (enter s.shared id) := by
  unfold enter
  split
  · exact .alone (.refl _) rfl rfl rfl
  · rename_i entry hentry
    split_ifs
    · exact .alone (.refl _) rfl rfl rfl
    · exact .alone (Shared.sameBooks_flag hentry true) rfl rfl rfl

theorem books_receive (h : receive s i = some effect) : Books opts s i .receiving effect := by
  unfold receive at h
  split at h
  · cases h
  · cases h
    exact .spawns ⟨rfl, rfl, rfl, fun _ => rfl, rfl⟩ rfl rfl rfl rfl rfl rfl
  · rename_i rest _
    cases h
    refine .alone ⟨rfl, rfl, rfl, ?_, rfl⟩ rfl rfl rfl
    intro id
    simp only [Shared.present]
    split_ifs
    · simp only [PoolState.takeAll]
      split_ifs <;> rfl
    · rfl
  · cases h
    exact .alone ⟨rfl, rfl, rfl, fun _ => rfl, rfl⟩ rfl rfl rfl
  · cases h
    exact .alone ⟨rfl, rfl, rfl, fun _ => rfl, rfl⟩ rfl rfl rfl

theorem books_run (h : run opts s i phase = some effect) : Books opts s i phase effect := by
  cases phase with
  | choosing notified =>
    cases h
    exact books_choose notified
  | installing id =>
    cases h
    unfold install
    split_ifs
    · exact .alone (.refl _) rfl rfl rfl
    · split
      · exact .alone (Shared.sameBooks_setPool rfl) rfl rfl rfl
      · exact .alone (.refl _) rfl rfl rfl
  | unlisting id | abandoning id | cleaning id =>
    cases h
    exact .alone (Shared.sameBooks_setPool rfl) rfl rfl rfl
  | numbering id =>
    cases h
    exact .numbers id
  | registering id pageId =>
    cases h
    cases hshut : s.shared.pool.shutDown with
    | false => exact .registers id pageId hshut
    | true =>
      rw [register, if_pos hshut]
      exact .alone (.refl _) rfl rfl rfl
  | rollingBack id =>
    cases h
    exact .alone (Shared.sameBooks_setPool rfl) rfl rfl rfl
  | entering id =>
    cases h
    exact books_enter id
  | preClosing id entry =>
    cases h
    exact .calls id entry
  | closing id entry =>
    cases h
    exact .alone (.refl _) rfl rfl rfl
  | finishing id entry result =>
    cases h
    exact .finishes id entry result
  | unclosing id | resetting id =>
    cases h
    exact .alone (Shared.sameBooks_unclose _ _) rfl rfl rfl
  | marking | taking =>
    cases h
    exact .alone (Shared.sameBooks_setPool rfl) rfl rfl rfl
  | receiving => exact books_receive h
  | parked notified | drainParked notified =>
    cases notified <;> cases h
    exact .alone (.refl _) rfl rfl rfl
  | waiting id notified =>
    cases notified <;> cases h
    exact .alone (.refl _) rfl rfl rfl
  | calling handle =>
    simp only [run] at h
    split at h
    · split_ifs at h
      · cases h
        exact .alone (Shared.sameBooks_setCloseState _ _ _) rfl rfl rfl
      · cases h
        exact .alone (.refl _) rfl rfl rfl
    · cases h
  | spawning handle =>
    obtain ⟨h', -, rfl⟩ := Option.map_eq_some_iff.mp h
    exact .spawns (.refl _) rfl rfl rfl rfl rfl rfl
  | joining handle task =>
    simp only [run, join] at h
    split at h
    · cases h
      exact .alone (Shared.sameBooks_setCloseState _ _ _) rfl rfl rfl
    · cases h
      exact .alone (Shared.sameBooks_setCloseState _ _ _) rfl rfl rfl
    · cases h
  | releasing handle =>
    obtain ⟨h', -, rfl⟩ := Option.map_eq_some_iff.mp h
    split_ifs
    · exact .alone (.refl _) rfl rfl rfl
    · exact .alone (.refl _) rfl rfl rfl
  | enqueueing handle =>
    obtain ⟨h', -, rfl⟩ := Option.map_eq_some_iff.mp h
    exact .alone (Shared.sameBooks_send _ _) rfl rfl rfl
  | finalizing | barring | stopping =>
    cases h
    exact .alone (Shared.sameBooks_send _ _) rfl rfl rfl
  | busy task =>
    simp only [run] at h
    split at h
    · cases h
      exact .alone (.refl _) rfl rfl rfl
    · cases h
  | looking notified =>
    cases h
    split_ifs
    · exact .alone (.refl _) rfl rfl rfl
    · exact .alone (.refl _) rfl rfl rfl
  | spawningClosers ids =>
    cases ids <;> cases h
    · exact .alone (.refl _) rfl rfl rfl
    · exact .spawns (.refl _) rfl rfl rfl rfl rfl rfl
  | rolledBack taken | telling id taken result =>
    cases h
    cases taken
    · exact .alone (.refl _) rfl rfl rfl
    · exact .alone (.refl _) rfl rfl rfl
  | rejecting id | refusing id =>
    cases h
    exact .spawns (.refl _) rfl rfl rfl rfl rfl rfl
  | _ =>
    cases h <;> exact .alone (.refl _) rfl rfl rfl

theorem books_act {action : Action} (h : act opts s i phase action = some effect)
    (hu : phase.disturbed action = false) : Books opts s i phase effect := by
  cases action with
  | run => exact books_run h
  | fail => exact books_fail h
  | cancel => exact books_cancel h hu
  | spawn => exact books_spawn h

theorem Wake.closesPage_apply (wake : Wake) (p : Phase) :
    (wake.apply p).closesPage = p.closesPage := by
  cases wake <;> cases p <;> rfl

theorem closeEntry_of_closesPage {p : Phase} {page : ℕ} (h : p.closesPage = some page) :
    ∃ id entry, p.closeEntry = some (id, entry) ∧ entry.page = page := by
  cases p with
  | closing id entry | finishing id entry result =>
    cases h
    exact ⟨id, entry, rfl, rfl⟩
  | _ => cases h

/-- The books. A page is identified by its handle's id, page and browser. -/
structure Tally (s : State) : Prop where
  ids : ∀ id, holders Phase.numbered id s.tasks + (s.shared.cores.map Prod.fst).count id ≤ 1
  issued : ∀ c ∈ s.shared.cores, c.1 ≤ s.shared.issued
  pages : (s.shared.cores.map fun c => c.2.1).Nodup
  done : ∀ id page browserId, (id, page, browserId) ∈ s.shared.cores →
    ∃ result, s.tasks[page]? = some (.done result)
  entry : ∀ id x, s.shared.present id = some x → (id, x) ∈ s.shared.cores
  released_sub : ∀ x ∈ s.shared.released, ∃ id, (id, x) ∈ s.shared.cores
  calls_sub : ∀ page ∈ s.shared.closeCalls, ∃ id browserId, (id, page, browserId) ∈ s.shared.cores
  tally : ∀ id x, (id, x) ∈ s.shared.cores →
    s.shared.released.count x + (s.shared.present id).isSome.toNat = 1
  calls : ∀ id page browserId, (id, page, browserId) ∈ s.shared.cores →
    s.shared.closeCalls.count page =
      s.shared.released.count (page, browserId) + holders Phase.closesPage page s.tasks

theorem tally_start : Tally start where
  ids := fun _ => Nat.zero_le _
  issued := fun _ h => nomatch h
  pages := List.nodup_nil
  done := fun _ _ _ h => nomatch h
  entry := fun _ _ h => nomatch h
  released_sub := fun _ h => nomatch h
  calls_sub := fun _ h => nomatch h
  tally := fun _ _ h => nomatch h
  calls := fun _ _ _ h => nomatch h

theorem done_after {page : ℕ} {result : Bool} (hi : s.tasks[i]? = some phase)
    (hdone : phase.isDone = false) (h : s.tasks[page]? = some (.done result)) :
    (s.after i effect).tasks[page]? = some (.done result) := by
  have hne : page ≠ i := by
    rintro rfl
    rw [hi] at h
    cases h
    cases hdone
  have hafter : (s.after i effect).tasks[page]? = some (effect.wake.apply (.done result)) :=
    getElem?_after_other hi h hne
  rw [hafter]
  cases effect.wake <;> rfl

theorem Tally.keeps (h : Tally s) (hi : s.tasks[i]? = some phase)
    (hsame : s.shared.SameBooks effect.shared)
    (hcloses : ∀ page, holders Phase.closesPage page (effect.phase :: effect.spawned) =
      holders Phase.closesPage page [phase])
    (hnumbered : ∀ id, holders Phase.numbered id (effect.phase :: effect.spawned) ≤
      holders Phase.numbered id [phase]) (hdone : phase.isDone = false) :
    Tally (s.after i effect) := by
  refine ⟨?_, ?_, ?_, ?_, ?_, ?_, ?_, ?_, ?_⟩
  · intro id
    have hold := h.ids id
    have hafter := holders_after Wake.numbered_apply hi effect id
    have hle := hnumbered id
    simp only [State.after, hsame.cores] at hafter ⊢
    omega
  · simp only [State.after, hsame.cores, hsame.issued]
    exact h.issued
  · simp only [State.after, hsame.cores]
    exact h.pages
  · intro id page browserId hmem
    simp only [State.after, hsame.cores] at hmem
    obtain ⟨result, hresult⟩ := h.done id page browserId hmem
    exact ⟨result, done_after hi hdone hresult⟩
  · intro id x hx
    simp only [State.after, hsame.present, hsame.cores] at hx ⊢
    exact h.entry id x hx
  · simp only [State.after, hsame.released, hsame.cores]
    exact h.released_sub
  · simp only [State.after, hsame.closeCalls, hsame.cores]
    exact h.calls_sub
  · intro id x hmem
    simp only [State.after, hsame.cores, hsame.released, hsame.present] at hmem ⊢
    exact h.tally id x hmem
  · intro id page browserId hmem
    have hafter := holders_after Wake.closesPage_apply hi effect page
    have heq := hcloses page
    simp only [State.after, hsame.cores, hsame.released, hsame.closeCalls] at hmem hafter ⊢
    have hold := h.calls id page browserId hmem
    omega

theorem Tally.numbers {id : BrowserId} (h : Tally s) (hpages : Pages s)
    (hi : s.tasks[i]? = some (.numbering id)) (hbound : s.shared.issued + 1 < u64) :
    Tally (s.after i (s.shared.number.goes (.registering id s.shared.nextPageId))) := by
  have hnew : s.shared.nextPageId = s.shared.issued + 1 := by
    rw [hpages.next, Nat.mod_eq_of_lt hbound]
  refine ⟨?_, ?_, h.pages, ?_, h.entry, h.released_sub, h.calls_sub, h.tally, ?_⟩
  · intro k
    have hold := h.ids k
    have hissued := hpages.issued k
    have hafter := holders_after Wake.numbered_apply hi
      (s.shared.number.goes (.registering id s.shared.nextPageId)) k
    rw [holders_none rfl, Shared.goes,
      holders_some (p := .registering id s.shared.nextPageId) rfl] at hafter
    show holders Phase.numbered k (s.after i _).tasks + (s.shared.cores.map Prod.fst).count k ≤ 1
    rw [Shared.goes]
    split_ifs at hafter with hk
    · have hk' : k = s.shared.issued + 1 := hk.trans hnew
      have hnone : (s.shared.cores.map Prod.fst).count k = 0 := by
        rw [List.count_eq_zero]
        intro hmem
        obtain ⟨c, hc, hcore⟩ := List.mem_map.mp hmem
        have hle : k ≤ s.shared.issued := hcore ▸ h.issued c hc
        omega
      have hzero : holders Phase.numbered k s.tasks = 0 := by
        by_contra hpos
        have hle := hissued (by omega)
        omega
      omega
    · omega
  · intro c hc
    exact (h.issued c hc).trans (Nat.le_succ _)
  · intro k page browserId hmem
    obtain ⟨result, hresult⟩ := h.done k page browserId hmem
    exact ⟨result, done_after hi rfl hresult⟩
  · intro k page browserId hmem
    have hold := h.calls k page browserId hmem
    have hafter := holders_after Wake.closesPage_apply hi
      (s.shared.number.goes (.registering id s.shared.nextPageId)) page
    rw [holders_none rfl, Shared.goes, holders_none rfl] at hafter
    show s.shared.closeCalls.count page = s.shared.released.count (page, browserId) +
      holders Phase.closesPage page (s.after i _).tasks
    rw [Shared.goes]
    omega

theorem Tally.core_unique (h : Tally s) {id id' : PageId} {page : ℕ} {b b' : BrowserId}
    (hmem : (id, page, b) ∈ s.shared.cores) (hmem' : (id', page, b') ∈ s.shared.cores) :
    id = id' ∧ b = b' := by
  have heq := List.inj_on_of_nodup_map h.pages hmem hmem' rfl
  simp only [Prod.mk.injEq] at heq
  exact ⟨heq.1, heq.2.2⟩

theorem Tally.registers {id : BrowserId} {pageId : PageId} (h : Tally s) (hpages : Pages s)
    (hi : s.tasks[i]? = some (.registering id pageId)) (hrunning : s.shared.pool.shutDown = false) :
    Tally (s.after i (register s.shared i id pageId)) := by
  -- No handle has this page, since the call that made it is not done.
  have hnew : ∀ k b, (k, i, b) ∉ s.shared.cores := by
    intro k b hmem
    obtain ⟨result, hresult⟩ := h.done k i b hmem
    rw [hi] at hresult
    cases hresult
  have hpos : 0 < holders Phase.numbered pageId s.tasks :=
    holders_pos (List.mem_of_getElem? hi) rfl
  have hunused : ∀ x, (pageId, x) ∉ s.shared.cores := by
    intro x hmem
    have hone := h.ids pageId
    have hcount : 0 < (s.shared.cores.map Prod.fst).count pageId :=
      List.count_pos_iff.mpr (List.mem_map_of_mem (f := Prod.fst) hmem)
    omega
  have hcores : (register s.shared i id pageId).shared.cores =
      s.shared.cores ++ [(pageId, i, id)] := by
    simp [register, hrunning, Shared.cores, Handle.core]
  have hpresent : ∀ k, (register s.shared i id pageId).shared.present k =
      if k = pageId then some (i, id) else s.shared.present k := by
    intro k
    simp only [register, hrunning, Bool.false_eq_true, if_false, Shared.present,
      AList.lookup_insert_ite]
    split_ifs <;> rfl
  have hphase : (register s.shared i id pageId).phase = .done true := by
    simp [register, hrunning]
  have hspawned : (register s.shared i id pageId).spawned = [] := by
    simp [register, hrunning]
  have hshared : (register s.shared i id pageId).shared.released = s.shared.released ∧
      (register s.shared i id pageId).shared.closeCalls = s.shared.closeCalls ∧
      (register s.shared i id pageId).shared.issued = s.shared.issued := by
    simp [register, hrunning]
  refine ⟨?_, ?_, ?_, ?_, ?_, ?_, ?_, ?_, ?_⟩
  · intro k
    have hold := h.ids k
    have hafter := holders_after Wake.numbered_apply hi (register s.shared i id pageId) k
    rw [hphase, hspawned, holders_some (p := .registering id pageId) rfl,
      holders_none rfl] at hafter
    simp only [State.after, hcores, List.map_append, List.map_cons, List.map_nil,
      List.count_append, List.count_singleton] at hafter ⊢
    by_cases hk : k = pageId
    · simp only [hk, if_true, BEq.rfl] at hafter hold ⊢
      omega
    · simp only [hk, if_false] at hafter
      simp only [beq_iff_eq, Ne.symm hk, if_false]
      omega
  · intro c hc
    simp only [State.after, hcores, List.mem_append, List.mem_singleton, hshared] at hc ⊢
    rcases hc with hc | rfl
    · exact h.issued c hc
    · exact hpages.issued pageId (by omega)
  · simp only [State.after, hcores, List.map_append, List.map_cons, List.map_nil]
    refine List.nodup_append.mpr ⟨h.pages, List.nodup_singleton _, ?_⟩
    intro a ha b hb
    rw [List.mem_singleton.mp hb]
    rintro rfl
    obtain ⟨⟨k, page, b⟩, hmem, hpage⟩ := List.mem_map.mp ha
    simp only at hpage
    subst hpage
    exact hnew k b hmem
  · intro k page b hmem
    simp only [State.after, hcores, List.mem_append, List.mem_singleton] at hmem
    rcases hmem with hmem | heq
    · obtain ⟨result, hresult⟩ := h.done k page b hmem
      exact ⟨result, done_after hi rfl hresult⟩
    · cases heq
      refine ⟨true, ?_⟩
      rw [getElem?_after_self hi, hphase]
  · intro k x hx
    simp only [State.after, hpresent, hcores, List.mem_append, List.mem_singleton] at hx ⊢
    split_ifs at hx with hk
    · cases hx
      exact .inr (by rw [hk])
    · exact .inl (h.entry k x hx)
  · intro x hx
    simp only [State.after, hshared] at hx
    obtain ⟨k, hmem⟩ := h.released_sub x hx
    refine ⟨k, ?_⟩
    simp only [State.after, hcores]
    exact List.mem_append_left _ hmem
  · intro page hpage
    simp only [State.after, hshared] at hpage
    obtain ⟨k, b, hmem⟩ := h.calls_sub page hpage
    refine ⟨k, b, ?_⟩
    simp only [State.after, hcores]
    exact List.mem_append_left _ hmem
  · intro k x hmem
    simp only [State.after, hcores, List.mem_append, List.mem_singleton, hshared, hpresent]
      at hmem ⊢
    rcases hmem with hmem | heq
    · have hne : k ≠ pageId := by
        rintro rfl
        exact hunused x hmem
      rw [if_neg hne]
      exact h.tally k x hmem
    · cases heq
      have hzero : s.shared.released.count (i, id) = 0 := by
        rw [List.count_eq_zero]
        intro hx
        obtain ⟨k, hk⟩ := h.released_sub _ hx
        exact hnew k id hk
      rw [hzero, if_pos rfl]
      rfl
  · intro k page b hmem
    have hafter := holders_after Wake.closesPage_apply hi (register s.shared i id pageId) page
    rw [hphase, hspawned, holders_none rfl, holders_none rfl] at hafter
    simp only [State.after, hcores, List.mem_append, List.mem_singleton, hshared] at hmem hafter ⊢
    rcases hmem with hmem | heq
    · have hold := h.calls k page b hmem
      omega
    · cases heq
      have hcalls : s.shared.closeCalls.count i = 0 := by
        rw [List.count_eq_zero]
        intro hx
        obtain ⟨k, b, hk⟩ := h.calls_sub _ hx
        exact hnew k b hk
      have hreleased : s.shared.released.count (i, id) = 0 := by
        rw [List.count_eq_zero]
        intro hx
        obtain ⟨k, hk⟩ := h.released_sub _ hx
        exact hnew k id hk
      have hclosing : holders Phase.closesPage i s.tasks = 0 := by
        refine holders_eq_zero_of fun p hp heq => ?_
        obtain ⟨j, hj⟩ := List.mem_iff_getElem?.mp hp
        obtain ⟨k, entry, hentry, hpage⟩ := closeEntry_of_closesPage heq
        obtain ⟨e, he, -, hpage'⟩ := hpages.entries j p k entry hj hentry
        refine hnew k e.browserId (h.entry k (i, e.browserId) ?_)
        rw [Shared.present, he, ← hpage, ← hpage']
        rfl
      omega

theorem Tally.calls_page {id : PageId} {entry : PageEntry} (h : Tally s) (hpages : Pages s)
    (hi : s.tasks[i]? = some (.preClosing id entry)) :
    Tally (s.after i (Shared.goes { s.shared with
      closeCalls := s.shared.closeCalls ++ [entry.page] } (.closing id entry))) := by
  obtain ⟨e, he, hbrowser, hpage⟩ := hpages.entries i _ id entry hi rfl
  have hmem : (id, entry.page, e.browserId) ∈ s.shared.cores := by
    refine h.entry id (entry.page, e.browserId) ?_
    rw [Shared.present, he, ← hpage]
    rfl
  refine ⟨?_, h.issued, h.pages, ?_, h.entry, h.released_sub, ?_, h.tally, ?_⟩
  · intro k
    have hold := h.ids k
    have hafter := holders_after Wake.numbered_apply hi (Shared.goes { s.shared with
      closeCalls := s.shared.closeCalls ++ [entry.page] } (.closing id entry)) k
    rw [Shared.goes, holders_none rfl, holders_none rfl] at hafter
    rw [Shared.goes]
    exact (Nat.add_left_inj.mpr hafter) ▸ hold
  · intro k page b hcore
    obtain ⟨result, hresult⟩ := h.done k page b hcore
    exact ⟨result, done_after hi rfl hresult⟩
  · intro page hcalled
    rcases List.mem_append.mp hcalled with hcalled | hcalled
    · exact h.calls_sub page hcalled
    · rw [List.mem_singleton.mp hcalled]
      exact ⟨id, e.browserId, hmem⟩
  · intro k page b hcore
    have hold := h.calls k page b hcore
    have hafter := holders_after Wake.closesPage_apply hi (Shared.goes { s.shared with
      closeCalls := s.shared.closeCalls ++ [entry.page] } (.closing id entry)) page
    rw [Shared.goes, holders_none rfl, holders_some (p := .closing id entry) rfl] at hafter
    show (s.shared.closeCalls ++ [entry.page]).count page = s.shared.released.count (page, b) +
      holders Phase.closesPage page (s.after i _).tasks
    rw [Shared.goes, List.count_append, List.count_singleton]
    by_cases hk : page = entry.page
    · simp only [hk, if_true, BEq.rfl] at hafter hold ⊢
      omega
    · simp only [hk, if_false] at hafter
      simp only [beq_iff_eq, Ne.symm hk, if_false]
      omega

theorem Tally.id_unique (h : Tally s) {id : PageId} {x y : ℕ × BrowserId}
    (hmem : (id, x) ∈ s.shared.cores) (hmem' : (id, y) ∈ s.shared.cores) : x = y := by
  have hnodup : (s.shared.cores.map Prod.fst).Nodup := by
    refine List.nodup_iff_count_le_one.mpr fun k => ?_
    exact (Nat.le_add_left _ _).trans (h.ids k)
  exact (Prod.mk.inj (List.inj_on_of_nodup_map hnodup hmem hmem' rfl)).2

theorem Tally.finishes {id : PageId} {entry : PageEntry} {result : Bool} (h : Tally s)
    (hpages : Pages s) (haccounts : Accounts opts s)
    (hi : s.tasks[i]? = some (.finishing id entry result)) :
    Tally (s.after i (finish opts s.shared id entry result)) := by
  obtain ⟨e, he, hbrowser, hpage⟩ := hpages.entries i _ id entry hi rfl
  obtain ⟨slot, hslot, -⟩ := haccounts.finishes hi he hbrowser
  have hentry : s.shared.present id = some (entry.page, entry.browserId) := by
    rw [Shared.present, he, ← hpage, ← hbrowser]
    rfl
  have hmem := h.entry id _ hentry
  have hreleased : (finish opts s.shared id entry result).shared.released =
      s.shared.released ++ [(entry.page, entry.browserId)] := by
    simp [finish, hslot]
  have hpresent : ∀ k, (finish opts s.shared id entry result).shared.present k =
      if k = id then none else s.shared.present k := by
    intro k
    simp only [finish, Shared.present, PoolState.update, AList.lookup_erase_ite]
    split_ifs <;> rfl
  refine ⟨?_, h.issued, h.pages, ?_, ?_, ?_, h.calls_sub, ?_, ?_⟩
  · intro k
    have hold := h.ids k
    have hafter := holders_after Wake.numbered_apply hi (finish opts s.shared id entry result) k
    rw [holders_none rfl, finish, holders_none rfl] at hafter
    rw [finish]
    exact (Nat.add_left_inj.mpr hafter) ▸ hold
  · intro k page b hcore
    obtain ⟨r, hr⟩ := h.done k page b hcore
    exact ⟨r, done_after hi rfl hr⟩
  · intro k x hx
    simp only [State.after, hpresent] at hx
    split_ifs at hx
    exact h.entry k x hx
  · intro x hx
    simp only [State.after, hreleased, List.mem_append, List.mem_singleton] at hx
    rcases hx with hx | rfl
    · exact h.released_sub x hx
    · exact ⟨id, hmem⟩
  · intro k x hcore
    have hcore : (k, x) ∈ s.shared.cores := hcore
    have hold := h.tally k x hcore
    simp only [State.after, hreleased, hpresent, List.count_append, List.count_singleton]
    by_cases hk : k = id
    · subst hk
      have hx : x = (entry.page, entry.browserId) := h.id_unique hcore hmem
      subst hx
      simp only [hentry, Option.isSome_some, Bool.toNat_true] at hold
      simp
      omega
    · have hx : (entry.page, entry.browserId) ≠ x := by
        rintro rfl
        exact hk (h.core_unique hcore hmem).1
      simp only [hk, if_false, beq_iff_eq, hx]
      omega
  · intro k page b hcore
    have hcore : (k, page, b) ∈ s.shared.cores := hcore
    have hold := h.calls k page b hcore
    have hafter := holders_after Wake.closesPage_apply hi (finish opts s.shared id entry result)
      page
    rw [holders_some (p := .finishing id entry result) rfl, finish, holders_none rfl] at hafter
    show s.shared.closeCalls.count page =
      (finish opts s.shared id entry result).shared.released.count (page, b) +
        holders Phase.closesPage page (s.after i _).tasks
    rw [hreleased, finish, List.count_append, List.count_singleton]
    by_cases hk : page = entry.page
    · subst hk
      obtain rfl := (h.core_unique hcore hmem).2
      simp only [if_true, BEq.rfl] at hafter ⊢
      omega
    · have hx : (entry.page, entry.browserId) ≠ (page, b) := by
        intro heq
        exact hk (Prod.mk.inj heq).1.symm
      simp only [hk, if_false] at hafter
      simp only [beq_iff_eq, hx, if_false]
      omega

theorem Tally.books (h : Tally s) (hpages : Pages s) (haccounts : Accounts opts s)
    (hi : s.tasks[i]? = some phase) (hb : Books opts s i phase effect)
    (hbound : effect.shared.issued < u64) : Tally (s.after i effect) := by
  cases hb with
  | keeps hsame hcloses hnumbered hdone => exact h.keeps hi hsame hcloses hnumbered hdone
  | numbers id => exact h.numbers hpages hi hbound
  | registers id pageId hrunning => exact h.registers hpages hi hrunning
  | calls id entry => exact h.calls_page hpages hi
  | finishes id entry result => exact h.finishes hpages haccounts hi

structure Opens (s t : State) (phases : List Phase) : Prop where
  tasks : t.tasks = s.tasks ++ phases
  begins : ∀ p ∈ phases, p.begins = true
  pool : t.shared.pool = s.shared.pool
  cores : t.shared.cores = s.shared.cores
  closeCalls : t.shared.closeCalls = s.shared.closeCalls
  released : t.shared.released = s.shared.released
  issued : s.shared.issued ≤ t.shared.issued
  commands : t.shared.commands = s.shared.commands
  receiver : t.shared.receiver = .gone → s.shared.receiver = .gone
  handles : ∀ (k : ℕ) handle, t.shared.handles[k]? = some handle →
    s.shared.handles[k]? = some handle ∨
    .releasing k ∈ phases ∧ ∃ old, s.shared.handles[k]? = some old ∧
      handle = { old with dropped := true }

theorem opens_begin {phase : Phase} (hphase : phase.begins = true) :
    ∃ phases, Opens s (begin s phase) phases := by
  refine ⟨(if s.shared.receiver = .unclaimed then [.receiving] else []) ++ [phase], ?_, ?_, rfl,
    rfl, rfl, rfl, le_rfl, rfl, ?_, fun _ _ h => .inl h⟩
  · simp only [begin, List.append_assoc]
  · intro p hp
    rcases List.mem_append.mp hp with hp | hp
    · split_ifs at hp
      · rw [List.mem_singleton.mp hp]
        rfl
      · cases hp
    · rw [List.mem_singleton.mp hp]
      exact hphase
  · intro hgone
    simp only [begin] at hgone
    split_ifs at hgone
    exact hgone

theorem step_opens {e : Event} (h : step opts s e = some t) :
    (∃ phases, Opens s t phases) ∨
    ∃ i phase action effect, e = .act i action ∧ s.tasks[i]? = some phase ∧
      act opts s i phase action = some effect ∧ t = s.after i effect := by
  cases e with
  | newPage | shutdown =>
    simp only [step] at h
    split_ifs at h
    cases h
    exact .inl (opens_begin rfl)
  | close handle =>
    simp only [step] at h
    split at h
    · split_ifs at h
      cases h
      refine .inl ⟨[.calling handle], rfl, ?_, rfl, rfl, rfl, rfl, le_rfl, rfl, id,
        fun _ _ h => .inl h⟩
      intro p hp
      rw [List.mem_singleton.mp hp]
      rfl
    · cases h
  | dropHandle handle =>
    simp only [step] at h
    split at h
    · split_ifs at h
      cases h
      refine .inl ⟨[.releasing handle], rfl, ?_, rfl, map_core_modify _ _ fun _ => rfl, rfl, rfl,
        le_rfl, rfl, id, ?_⟩
      · intro p hp
        rw [List.mem_singleton.mp hp]
        rfl
      · intro k new hnew
        simp only [List.getElem?_modify] at hnew
        obtain ⟨old, hold, heq⟩ := Option.map_eq_some_iff.mp hnew
        split_ifs at heq with hk
        · subst hk
          exact .inr ⟨List.mem_singleton.mpr rfl, old, hold, heq.symm⟩
        · exact .inl (heq ▸ hold)
    · cases h
  | dropPool =>
    cases h
    refine .inl ⟨[], ?_, fun _ hp => (by cases hp), rfl, rfl, rfl, rfl, le_rfl, rfl, id,
      fun _ _ h => .inl h⟩
    rw [List.append_nil]
  | otherPage =>
    cases h
    refine .inl ⟨[], ?_, fun _ hp => (by cases hp), rfl, rfl, rfl, rfl, Nat.le_succ _, rfl, id,
      fun _ _ h => .inl h⟩
    rw [List.append_nil]
  | act i action =>
    simp only [step] at h
    split at h
    · cases h
    · rename_i phase hi
      obtain ⟨effect, ha, rfl⟩ := Option.map_eq_some_iff.mp h
      exact .inr ⟨i, phase, action, effect, rfl, hi, ha, rfl⟩

theorem Tally.opens {phases : List Phase} (h : Tally s) (ho : Opens s t phases) : Tally t := by
  have hnumbered : ∀ id, holders Phase.numbered id phases = 0 :=
    fun id => holders_eq_zero fun p hp => (Phase.holds_nothing (ho.begins p hp)).2.2.2.1
  have hcloses : ∀ page, holders Phase.closesPage page phases = 0 := by
    intro page
    refine holders_eq_zero fun p hp => ?_
    have hbegins := ho.begins p hp
    cases p <;> first | rfl | cases hbegins
  have hpresent : ∀ id, t.shared.present id = s.shared.present id := by
    intro id
    rw [Shared.present, ho.pool]
    rfl
  refine ⟨?_, ?_, ?_, ?_, ?_, ?_, ?_, ?_, ?_⟩
  · intro id
    rw [ho.tasks, ho.cores, holders_append, hnumbered]
    exact h.ids id
  · intro c hc
    rw [ho.cores] at hc
    exact (h.issued c hc).trans ho.issued
  · rw [ho.cores]
    exact h.pages
  · intro id page browserId hmem
    rw [ho.cores] at hmem
    obtain ⟨result, hresult⟩ := h.done id page browserId hmem
    refine ⟨result, ?_⟩
    rw [ho.tasks, ← hresult]
    exact List.getElem?_append_left (List.getElem?_eq_some_iff.mp hresult).1
  · intro id x hx
    rw [hpresent] at hx
    rw [ho.cores]
    exact h.entry id x hx
  · rw [ho.cores, ho.released]
    exact h.released_sub
  · rw [ho.cores, ho.closeCalls]
    exact h.calls_sub
  · intro id x hmem
    rw [ho.cores] at hmem
    rw [ho.released, hpresent]
    exact h.tally id x hmem
  · intro id page browserId hmem
    rw [ho.cores] at hmem
    rw [ho.tasks, ho.closeCalls, ho.released, holders_append, hcloses]
    exact h.calls id page browserId hmem

theorem Tally.step {e : Event} (h : Tally s) (hpages : Pages s) (haccounts : Accounts opts s)
    (hs : step opts s e = some t) (hu : Undisturbed s e) (hbound : t.shared.issued < u64) :
    Tally t := by
  obtain ⟨phases, ho⟩ | ⟨i, phase, action, effect, rfl, hi, ha, rfl⟩ := step_opens hs
  · exact h.opens ho
  · exact h.books hpages haccounts hi (books_act ha (hu.act hi)) hbound

end Millipede.BrowserPool
