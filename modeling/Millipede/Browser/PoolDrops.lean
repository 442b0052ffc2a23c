import Millipede.Browser.PoolClose
import Millipede.Browser.PoolWakeups

/-!
# No page is forgotten

When the last handle of a page is dropped, somebody has begun to close the page, or a close
command is queued. A task that is to close a page stays until the page is gone; a handle is
`CLOSED` only when its page is gone; and the worker stops only after `shutdown` has begun to
close every page that was left.
-/

namespace Millipede.BrowserPool

variable {opts : BrowserPoolOptions} {s t : State} {i : ℕ} {phase : Phase} {effect : Effect}

def Phase.closer : Phase → Option PageId
  | .entering id | .waiting id _ | .preClosing id _ | .closing id _ | .finishing id _ _ => some id
  | _ => none

def Phase.drops : Phase → Option ℕ
  | .releasing handle | .enqueueing handle => some handle
  | _ => none

/-- The pages for which `shutdown` has yet to spawn a task, once it has collected them. -/
def Phase.leaves : Phase → Option (List PageId)
  | .spawningClosers ids => some ids
  | .joiningClosers | .taking | .closingBrowsers | .stopping | .stopped => some []
  | _ => none

def Phase.joins : Phase → Option (ℕ × ℕ)
  | .joining handle task => some (handle, task)
  | _ => none

/-- Somebody has begun to close the page, or it is gone. -/
def State.Started (s : State) (id : PageId) : Prop :=
  s.shared.present id = none ∨ ∃ (j : ℕ) (p : Phase), s.tasks[j]? = some p ∧ p.closer = some id

def Shared.stops (s : Shared) : Prop := .stop ∈ s.commands ∨ s.receiver = .gone

/-- What a step does about the pages that are to be closed. -/
structure Heeds (s : State) (phase : Phase) (effect : Effect) : Prop where
  closer : ∀ id, phase.closer = some id →
    effect.phase.closer = some id ∨ effect.shared.present id = none
  joins : ∀ k task, effect.phase.joins = some (k, task) → task = s.tasks.length ∧
    ∃ handle, s.shared.handles[k]? = some handle ∧ effect.spawned = [.entering handle.id]
  drops : ∀ k handle, phase.drops = some k → s.shared.handles[k]? = some handle →
    effect.phase.drops = some k ∨ handle.closeState = .closed ∨
      .page handle.id ∈ effect.shared.commands ∨ s.shared.receiver = .gone
  leaves : ∀ ids, effect.phase.leaves = some ids →
    (phase.shut = true ∧ effect.shared.pool.pages = s.shared.pool.pages ∧
      ids = s.shared.pool.pages.keys) ∨
    ∃ ids', phase.leaves = some ids' ∧
      ∀ id ∈ ids', id ∈ ids ∨ ∃ p ∈ effect.spawned, p.closer = some id
  spawned : (effect.spawned.all fun p => p.leaves.isNone && p.joins.isNone) = true
  closed : ∀ (k : ℕ) handle, effect.shared.handles[k]? = some handle →
    handle.closeState = .closed →
    (∃ old, s.shared.handles[k]? = some old ∧ old.closeState = .closed) ∨
      ∃ task, phase = .joining k task ∧ s.tasks[task]? = some (.done true)
  dropped : ∀ (k : ℕ) handle, effect.shared.handles[k]? = some handle → handle.dropped = true →
    ∃ old, s.shared.handles[k]? = some old ∧ old.dropped = true
  commands : ∀ id, .page id ∈ s.shared.commands → .page id ∈ effect.shared.commands ∨
    (∃ p ∈ effect.spawned, p.closer = some id) ∨ s.shared.stops
  stops : effect.shared.stops → s.shared.stops ∨ phase.leaves = some []

structure Shared.SameDesk (s t : Shared) : Prop where
  handles : t.handles = s.handles
  commands : t.commands = s.commands
  receiver : t.receiver = s.receiver

theorem Heeds.of_handles (hhandles : effect.shared.handles = s.shared.handles)
    (hcloser : ∀ id, phase.closer = some id →
      effect.phase.closer = some id ∨ effect.shared.present id = none)
    (hjoins : effect.phase.joins = none)
    (hdrops : ∀ k handle, phase.drops = some k → s.shared.handles[k]? = some handle →
      effect.phase.drops = some k ∨ handle.closeState = .closed ∨
        .page handle.id ∈ effect.shared.commands ∨ s.shared.receiver = .gone)
    (hleaves : effect.phase.leaves = none ∨ effect.phase.leaves = phase.leaves)
    (hspawned : (effect.spawned.all fun p => p.leaves.isNone && p.joins.isNone) = true)
    (hcommands : ∀ id, .page id ∈ s.shared.commands → .page id ∈ effect.shared.commands ∨
      (∃ p ∈ effect.spawned, p.closer = some id) ∨ s.shared.stops)
    (hstops : effect.shared.stops → s.shared.stops ∨ phase.leaves = some []) :
    Heeds s phase effect where
  closer := hcloser
  joins := by
    intro k task h
    rw [hjoins] at h
    cases h
  drops := hdrops
  leaves := by
    intro ids hids
    rcases hleaves with h | h
    · rw [h] at hids
      cases hids
    · exact .inr ⟨ids, h ▸ hids, fun id hid => .inl hid⟩
  spawned := hspawned
  closed := by
    intro k handle hk hclosed
    rw [hhandles] at hk
    exact .inl ⟨handle, hk, hclosed⟩
  dropped := by
    intro k handle hk hdropped
    rw [hhandles] at hk
    exact ⟨handle, hk, hdropped⟩
  commands := hcommands
  stops := hstops

theorem Heeds.quiet (hdesk : s.shared.SameDesk effect.shared)
    (hcloser : phase.closer = none ∨ effect.phase.closer = phase.closer)
    (hjoins : effect.phase.joins = none) (hdrops : phase.drops = none)
    (hleaves : effect.phase.leaves = none ∨ effect.phase.leaves = phase.leaves)
    (hspawned : (effect.spawned.all fun p => p.leaves.isNone && p.joins.isNone) = true) :
    Heeds s phase effect := by
  refine .of_handles hdesk.handles ?_ hjoins ?_ hleaves hspawned ?_ ?_
  · intro id hid
    rcases hcloser with h | h
    · rw [h] at hid
      cases hid
    · exact .inl (h.trans hid)
  · intro k handle h
    rw [hdrops] at h
    cases h
  · intro id hid
    rw [hdesk.commands]
    exact .inl hid
  · intro h
    rw [Shared.stops, hdesk.commands, hdesk.receiver] at h
    exact .inl h

theorem Shared.SameDesk.refl (s : Shared) : s.SameDesk s := ⟨rfl, rfl, rfl⟩

theorem Heeds.sets {k : ℕ} {closeState : CloseState} {phase' : Phase}
    (hclosed : closeState = .closed →
      ∃ task, phase = .joining k task ∧ s.tasks[task]? = some (.done true))
    (hcloser : phase.closer = none) (hjoins : phase'.joins = none) (hdrops : phase.drops = none)
    (hleaves : phase'.leaves = none) :
    Heeds s phase ((s.shared.setCloseState k closeState).goes phase') := by
  have hquiet : Heeds s phase (s.shared.goes phase') :=
    .quiet (.refl _) (.inl hcloser) hjoins hdrops (.inl hleaves) rfl
  have hhandles : ∀ (j : ℕ) handle,
      (s.shared.setCloseState k closeState).handles[j]? = some handle →
      ∃ old, s.shared.handles[j]? = some old ∧ handle.dropped = old.dropped ∧
        (handle.closeState = old.closeState ∨ j = k ∧ handle.closeState = closeState) := by
    intro j handle hj
    simp only [Shared.setCloseState, List.getElem?_modify] at hj
    obtain ⟨old, hold, heq⟩ := Option.map_eq_some_iff.mp hj
    refine ⟨old, hold, ?_⟩
    split_ifs at heq with hk
    · rw [← heq]
      exact ⟨rfl, .inr ⟨hk.symm, rfl⟩⟩
    · rw [← heq]
      exact ⟨rfl, .inl rfl⟩
  refine ⟨hquiet.closer, hquiet.joins, hquiet.drops, hquiet.leaves, rfl, ?_, ?_, hquiet.commands,
    hquiet.stops⟩
  · intro j handle hj hstate
    obtain ⟨old, hold, -, hsame | ⟨rfl, hset⟩⟩ := hhandles j handle hj
    · exact .inl ⟨old, hold, hsame ▸ hstate⟩
    · exact .inr (hclosed (hset ▸ hstate))
  · intro j handle hj hdropped
    obtain ⟨old, hold, hsame, -⟩ := hhandles j handle hj
    exact ⟨old, hold, hsame ▸ hdropped⟩

theorem Heeds.sends {command : CloseCommand} {phase' : Phase} (hcloser : phase.closer = none)
    (hjoins : phase'.joins = none)
    (hdrops : ∀ k handle, phase.drops = some k → s.shared.handles[k]? = some handle →
      command = .page handle.id)
    (hleaves : phase'.leaves = none ∨ phase'.leaves = phase.leaves)
    (hstop : command = .stop → phase.leaves = some []) :
    Heeds s phase ((s.shared.send command).goes phase') := by
  refine .of_handles ?_ ?_ hjoins ?_ hleaves rfl ?_ ?_
  · simp only [Shared.send, Shared.goes]
    split_ifs <;> rfl
  · intro id hid
    rw [hcloser] at hid
    cases hid
  · intro k handle hk hhandle
    rw [hdrops k handle hk hhandle, Shared.send]
    split_ifs with hgone
    · exact .inr (.inr (.inr hgone))
    · exact .inr (.inr (.inl (List.mem_append_right _ (List.mem_singleton.mpr rfl))))
  · intro id hid
    rw [Shared.send]
    split_ifs
    · exact .inl hid
    · exact .inl (List.mem_append_left _ hid)
  · intro hstops
    simp only [Shared.send, Shared.goes] at hstops
    split_ifs at hstops with hgone
    · exact .inl hstops
    · rcases hstops with hmem | hgone'
      · rcases List.mem_append.mp hmem with hold | hnew
        · exact .inl (.inl hold)
        · exact .inr (hstop (List.mem_singleton.mp hnew).symm)
      · exact absurd hgone' hgone

theorem heeds_fail (h : fail s phase = some effect) : Heeds s phase effect := by
  cases phase <;> cases h <;>
    first
    | exact .quiet (.refl _) (.inl rfl) rfl rfl (.inl rfl) rfl
    | exact .quiet (.refl _) (.inr rfl) rfl rfl (.inl rfl) rfl

theorem heeds_cancel (h : cancel s phase = some effect) (hu : phase.disturbed .cancel = false) :
    Heeds s phase effect := by
  cases phase <;> cases h <;>
    first
    | exact .quiet (.refl _) (.inl rfl) rfl rfl (.inl rfl) rfl
    | exact .sets (fun h => nomatch h) rfl rfl rfl rfl
    | cases hu

theorem heeds_spawn (h : spawn s phase = some effect) : Heeds s phase effect := by
  cases phase <;> cases h <;> exact .quiet (.refl _) (.inl rfl) rfl rfl (.inl rfl) rfl

theorem heeds_choose (notified : Bool) :
    Heeds s (.choosing notified) (choose opts s.shared notified) := by
  obtain ⟨-, heq⟩ | ⟨slot, -, heq⟩ | ⟨-, heq⟩ | ⟨-, -, -, heq⟩ :=
    choose_cases opts s.shared notified
  · rw [heq]
    exact .quiet (.refl _) (.inl rfl) rfl rfl (.inl rfl) rfl
  · rw [heq]
    exact .quiet ⟨rfl, rfl, rfl⟩ (.inl rfl) rfl rfl (.inl rfl) rfl
  · rw [heq]
    exact .quiet ⟨rfl, rfl, rfl⟩ (.inl rfl) rfl rfl (.inl rfl) rfl
  · rw [heq]
    exact .quiet (.refl _) (.inl rfl) rfl rfl (.inl rfl) rfl

theorem heeds_register (id : BrowserId) (pageId : PageId) :
    Heeds s (.registering id pageId) (register s.shared i id pageId) := by
  unfold register
  split_ifs
  · exact .quiet (.refl _) (.inl rfl) rfl rfl (.inl rfl) rfl
  · refine ⟨fun _ h => (nomatch h), fun _ _ h => (nomatch h), fun _ _ h => (nomatch h),
      fun _ h => (nomatch h), rfl, ?_, ?_, fun _ h => .inl h, fun h => .inl h⟩
    · intro k handle hk hclosed
      simp only [List.getElem?_append, List.getElem?_singleton] at hk
      split_ifs at hk
      · exact .inl ⟨handle, hk, hclosed⟩
      · cases hk
        cases hclosed
    · intro k handle hk hdropped
      simp only [List.getElem?_append, List.getElem?_singleton] at hk
      split_ifs at hk
      · exact ⟨handle, hk, hdropped⟩
      · cases hk
        cases hdropped

theorem heeds_enter (id : PageId) : Heeds s (.entering id) (enter s.shared id) := by
  unfold enter
  split
  · rename_i hnone
    refine .of_handles rfl ?_ rfl (fun _ _ h => nomatch h) (.inl rfl) rfl (fun _ h => .inl h) .inl
    intro k hk
    cases hk
    exact .inr (by rw [Shared.goes, Shared.present, hnone]; rfl)
  · split_ifs
    · exact .quiet (.refl _) (.inr rfl) rfl rfl (.inl rfl) rfl
    · exact .quiet ⟨rfl, rfl, rfl⟩ (.inr rfl) rfl rfl (.inl rfl) rfl

theorem heeds_finish (id : PageId) (entry : PageEntry) (result : Bool) :
    Heeds s (.finishing id entry result) (finish opts s.shared id entry result) := by
  refine .of_handles rfl ?_ rfl (fun _ _ h => nomatch h) (.inl rfl) rfl (fun _ h => .inl h) .inl
  intro k hk
  cases hk
  right
  simp only [finish, Shared.present, PoolState.update, AList.lookup_erase_ite, if_true]
  rfl

theorem heeds_receive (h : receive s i = some effect) : Heeds s .receiving effect := by
  have hrest : ∀ {command : CloseCommand} {rest : List CloseCommand},
      s.shared.commands = command :: rest → ∀ id, .page id ∈ s.shared.commands →
      .page id ∈ rest ∨ command = .page id := by
    intro command rest hcommands id hid
    rw [hcommands] at hid
    rcases List.mem_cons.mp hid with heq | hmem
    · exact .inr heq.symm
    · exact .inl hmem
  have hstops : ∀ {command : CloseCommand} {rest : List CloseCommand} (pool : PoolState),
      s.shared.commands = command :: rest →
      Shared.stops { s.shared with pool, commands := rest } → s.shared.stops := by
    intro command rest pool hcommands hstops
    rcases hstops with hmem | hgone
    · exact .inl (hcommands ▸ List.mem_cons_of_mem _ hmem)
    · exact .inr hgone
  unfold receive at h
  split at h
  · cases h
  · rename_i id rest hcommands
    cases h
    refine .of_handles rfl (fun _ h => nomatch h) rfl (fun _ _ h => nomatch h) (.inl rfl) rfl ?_
      (fun h => .inl (hstops _ hcommands h))
    intro k hk
    obtain hmem | heq := hrest hcommands k hk
    · exact .inl hmem
    · cases heq
      exact .inr (.inl ⟨.entering id, List.mem_singleton.mpr rfl, rfl⟩)
  · rename_i rest hcommands
    cases h
    refine .of_handles rfl (fun _ h => nomatch h) rfl (fun _ _ h => nomatch h) (.inl rfl) rfl ?_
      (fun h => .inl (hstops _ hcommands h))
    intro k hk
    obtain hmem | heq := hrest hcommands k hk
    · exact .inl hmem
    · cases heq
  · rename_i rest hcommands
    cases h
    refine .of_handles rfl (fun _ h => nomatch h) rfl (fun _ _ h => nomatch h) (.inl rfl) rfl ?_
      (fun h => .inl (hstops _ hcommands h))
    intro k hk
    obtain hmem | heq := hrest hcommands k hk
    · exact .inl hmem
    · cases heq
  · rename_i rest hcommands
    cases h
    have hstop : s.shared.stops := .inl (hcommands ▸ List.mem_cons_self)
    exact .of_handles rfl (fun _ h => nomatch h) rfl (fun _ _ h => nomatch h) (.inl rfl) rfl
      (fun _ _ => .inr (.inr hstop)) (fun _ => .inl hstop)

theorem heeds_run (h : run opts s i phase = some effect) : Heeds s phase effect := by
  cases phase with
  | choosing notified =>
    cases h
    exact heeds_choose notified
  | installing id =>
    cases h
    unfold install
    split_ifs
    · exact .quiet (.refl _) (.inl rfl) rfl rfl (.inl rfl) rfl
    · split
      · exact .quiet ⟨rfl, rfl, rfl⟩ (.inl rfl) rfl rfl (.inl rfl) rfl
      · exact .quiet (.refl _) (.inl rfl) rfl rfl (.inl rfl) rfl
  | registering id pageId =>
    cases h
    exact heeds_register id pageId
  | entering id =>
    cases h
    exact heeds_enter id
  | finishing id entry result =>
    cases h
    exact heeds_finish id entry result
  | receiving => exact heeds_receive h
  | waiting id notified =>
    cases notified <;> cases h
    exact .quiet (.refl _) (.inr rfl) rfl rfl (.inl rfl) rfl
  | preClosing id entry | closing id entry =>
    cases h
    exact .quiet ⟨rfl, rfl, rfl⟩ (.inr rfl) rfl rfl (.inl rfl) rfl
  | parked notified | drainParked notified =>
    cases notified <;> cases h
    exact .quiet (.refl _) (.inl rfl) rfl rfl (.inl rfl) rfl
  | calling handle =>
    simp only [run] at h
    split at h
    · split_ifs at h
      · cases h
        exact .sets (fun h => (by cases h)) rfl rfl rfl rfl
      · cases h
        exact .quiet (.refl _) (.inl rfl) rfl rfl (.inl rfl) rfl
    · cases h
  | spawning handle =>
    obtain ⟨found, hfound, rfl⟩ := Option.map_eq_some_iff.mp h
    refine ⟨fun _ h => (by cases h), ?_, fun _ _ h => (by cases h), fun _ h => (by cases h), rfl,
      fun k h hk hclosed => .inl ⟨h, hk, hclosed⟩, fun k h hk hdropped => ⟨h, hk, hdropped⟩,
      fun _ h => .inl h, .inl⟩
    intro k task heq
    cases heq
    exact ⟨rfl, found, hfound, rfl⟩
  | joining handle task =>
    simp only [run, join] at h
    split at h
    · rename_i hdone
      cases h
      exact .sets (fun _ => ⟨task, rfl, hdone⟩) rfl rfl rfl rfl
    · cases h
      exact .sets (fun h => (by cases h)) rfl rfl rfl rfl
    · cases h
  | releasing handle =>
    obtain ⟨found, hfound, rfl⟩ := Option.map_eq_some_iff.mp h
    refine .of_handles rfl (fun _ h => (by cases h)) ?_ ?_ (.inl ?_) rfl (fun _ h => .inl h) .inl
    · simp only [Shared.goes]
      split_ifs <;> rfl
    · intro k other hk hother
      cases hk
      rw [hfound] at hother
      cases hother
      by_cases hclosed : found.closeState = .closed
      · exact .inr (.inl hclosed)
      · simp only [Shared.goes, hclosed, if_false]
        exact .inl rfl
    · simp only [Shared.goes]
      split_ifs <;> rfl
  | enqueueing handle =>
    obtain ⟨found, hfound, rfl⟩ := Option.map_eq_some_iff.mp h
    refine .sends rfl rfl ?_ (.inl rfl) (fun h => (by cases h))
    intro k other hk hother
    cases hk
    rw [hfound] at hother
    cases hother
    rfl
  | finalizing | barring =>
    cases h
    exact .sends rfl rfl (fun _ _ h => (by cases h)) (.inl rfl) (fun h => (by cases h))
  | stopping =>
    cases h
    exact .sends rfl rfl (fun _ _ h => (by cases h)) (.inr rfl) (fun _ => rfl)
  | busy task =>
    simp only [run] at h
    split at h
    · cases h
      exact .quiet (.refl _) (.inl rfl) rfl rfl (.inl rfl) rfl
    · cases h
  | looking notified =>
    cases h
    split_ifs
    · exact .quiet (.refl _) (.inl rfl) rfl rfl (.inl rfl) rfl
    · exact .quiet (.refl _) (.inl rfl) rfl rfl (.inl rfl) rfl
  | collecting =>
    cases h
    refine ⟨fun _ h => (by cases h), fun _ _ h => (by cases h), fun _ _ h => (by cases h), ?_, rfl,
      fun k h hk hclosed => .inl ⟨h, hk, hclosed⟩, fun k h hk hdropped => ⟨h, hk, hdropped⟩,
      fun _ h => .inl h, .inl⟩
    intro ids hids
    cases hids
    exact .inl ⟨rfl, rfl, rfl⟩
  | spawningClosers ids =>
    cases ids with
    | nil =>
      cases h
      exact .quiet (.refl _) (.inl rfl) rfl rfl (.inr rfl) rfl
    | cons id rest =>
      cases h
      refine ⟨fun _ h => (by cases h), fun _ _ h => (by cases h), fun _ _ h => (by cases h), ?_,
        rfl, fun k h hk hclosed => .inl ⟨h, hk, hclosed⟩, fun k h hk hdropped => ⟨h, hk, hdropped⟩,
        fun _ h => .inl h, .inl⟩
      intro ids hids
      cases hids
      refine .inr ⟨_, rfl, ?_⟩
      intro k hk
      rcases List.mem_cons.mp hk with rfl | hk
      · exact .inr ⟨.entering k, List.mem_singleton.mpr rfl, rfl⟩
      · exact .inl hk
  | joiningClosers | taking | closingBrowsers =>
    cases h
    exact .quiet ⟨rfl, rfl, rfl⟩ (.inl rfl) rfl rfl (.inr rfl) rfl
  | rolledBack taken | telling id taken result =>
    cases h
    cases taken
    · exact .quiet (.refl _) (.inl rfl) rfl rfl (.inl rfl) rfl
    · exact .quiet (.refl _) (.inl rfl) rfl rfl (.inl rfl) rfl
  | _ =>
    cases h <;> exact .quiet ⟨rfl, rfl, rfl⟩ (.inl rfl) rfl rfl (.inl rfl) rfl

theorem heeds_act {action : Action} (h : act opts s i phase action = some effect)
    (hu : phase.disturbed action = false) : Heeds s phase effect := by
  cases action with
  | run => exact heeds_run h
  | fail => exact heeds_fail h
  | cancel => exact heeds_cancel h hu
  | spawn => exact heeds_spawn h

theorem Wake.closer_apply (wake : Wake) (p : Phase) : (wake.apply p).closer = p.closer := by
  cases wake <;> cases p <;> rfl

theorem Wake.drops_apply (wake : Wake) (p : Phase) : (wake.apply p).drops = p.drops := by
  cases wake <;> cases p <;> rfl

theorem Wake.leaves_apply (wake : Wake) (p : Phase) : (wake.apply p).leaves = p.leaves := by
  cases wake <;> cases p <;> rfl

theorem Wake.joins_apply (wake : Wake) (p : Phase) : (wake.apply p).joins = p.joins := by
  cases wake <;> cases p <;> rfl

theorem Phase.shut_of_leaves {p : Phase} {ids : List PageId} (h : p.leaves = some ids) :
    p.shut = true := by
  cases p <;> first | rfl | cases h

structure Minded (s : State) : Prop where
  joined : ∀ (j : ℕ) p k task, s.tasks[j]? = some p → p.joins = some (k, task) →
    ∃ handle, s.shared.handles[k]? = some handle ∧ (s.shared.present handle.id = none ∨
      ∃ q, s.tasks[task]? = some q ∧ q.closer = some handle.id)
  closed : ∀ (k : ℕ) handle, s.shared.handles[k]? = some handle → handle.closeState = .closed →
    s.shared.present handle.id = none
  dropped : ∀ (k : ℕ) handle, s.shared.handles[k]? = some handle → handle.dropped = true →
    (∃ (j : ℕ) (p : Phase), s.tasks[j]? = some p ∧ p.drops = some k) ∨ s.Started handle.id ∨
      .page handle.id ∈ s.shared.commands
  swept : ∀ (j : ℕ) p ids, s.tasks[j]? = some p → p.leaves = some ids →
    ∀ id, s.Started id ∨ id ∈ ids
  stopped : s.shared.stops → s.shared.pool.shutDown = true ∧ ∀ id, s.Started id

theorem minded_start : Minded start where
  joined := fun _ _ _ _ h => nomatch h
  closed := fun _ _ h => nomatch h
  dropped := fun _ _ h => nomatch h
  swept := fun _ _ _ h => nomatch h
  stopped := by
    rintro (hmem | hgone)
    · cases hmem
    · cases hgone

theorem Books.cores (h : Books opts s i phase effect) :
    ∃ added, effect.shared.cores = s.shared.cores ++ added := by
  cases h with
  | keeps hsame _ _ _ => exact ⟨[], by rw [hsame.cores, List.append_nil]⟩
  | numbers id => exact ⟨[], (List.append_nil _).symm⟩
  | registers id pageId hrunning =>
    exact ⟨[(pageId, i, id)], by simp [register, hrunning, Shared.cores, Handle.core]⟩
  | calls id entry => exact ⟨[], (List.append_nil _).symm⟩
  | finishes id entry result => exact ⟨[], (List.append_nil _).symm⟩

theorem Books.handle (h : Books opts s i phase effect) {k : ℕ} {old : Handle}
    (hold : s.shared.handles[k]? = some old) :
    ∃ new, effect.shared.handles[k]? = some new ∧ new.id = old.id := by
  obtain ⟨added, hadded⟩ := h.cores
  have hcore : s.shared.cores[k]? = some old.core := by
    rw [Shared.cores, List.getElem?_map, hold]
    rfl
  have hnew : effect.shared.cores[k]? = some old.core := by
    rw [hadded, ← hcore]
    exact List.getElem?_append_left (List.getElem?_eq_some_iff.mp hcore).1
  rw [Shared.cores, List.getElem?_map] at hnew
  obtain ⟨new, hfound, heq⟩ := Option.map_eq_some_iff.mp hnew
  exact ⟨new, hfound, congrArg Prod.fst heq⟩

theorem Books.gone (h : Books opts s i phase effect) (htally : Tally s)
    (hi : s.tasks[i]? = some phase) {id : PageId} (hgone : s.shared.present id = none) :
    effect.shared.present id = none ∨
      s.shared.pool.shutDown = false ∧ ∀ x, (id, x) ∉ s.shared.cores := by
  cases h with
  | keeps hsame _ _ _ => exact .inl ((hsame.present id).trans hgone)
  | numbers _ => exact .inl hgone
  | registers browserId pageId hrunning =>
    by_cases hid : id = pageId
    · subst hid
      refine .inr ⟨hrunning, ?_⟩
      intro x hmem
      have hpos : 0 < holders Phase.numbered id s.tasks :=
        holders_pos (List.mem_of_getElem? hi) rfl
      have hone := htally.ids id
      have hcount : 0 < (s.shared.cores.map Prod.fst).count id :=
        List.count_pos_iff.mpr (List.mem_map_of_mem (f := Prod.fst) hmem)
      omega
    · left
      simp only [register, hrunning, Bool.false_eq_true, if_false, Shared.present,
        AList.lookup_insert_ite, hid]
      exact hgone
  | calls _ _ => exact .inl hgone
  | finishes other entry result =>
    left
    simp only [finish, Shared.present, PoolState.update, AList.lookup_erase_ite]
    split_ifs
    · rfl
    · exact hgone

theorem mem_cores {k : ℕ} {handle : Handle} (hk : s.shared.handles[k]? = some handle) :
    (handle.id, handle.page, handle.browserId) ∈ s.shared.cores :=
  List.mem_map_of_mem (f := Handle.core) (List.mem_of_getElem? hk)

theorem Books.gone_handle (h : Books opts s i phase effect) (htally : Tally s)
    (hi : s.tasks[i]? = some phase) {k : ℕ} {handle : Handle}
    (hk : s.shared.handles[k]? = some handle) (hgone : s.shared.present handle.id = none) :
    effect.shared.present handle.id = none := by
  obtain hstill | ⟨-, hnew⟩ := h.gone htally hi hgone
  · exact hstill
  · exact absurd (mem_cores hk) (hnew _)

theorem started_of_spawned {id : PageId} {p : Phase} (hp : p ∈ effect.spawned)
    (hcloser : p.closer = some id) : (s.after i effect).Started id := by
  have hmem : p ∈ (s.after i effect).tasks := List.mem_append_right _ hp
  obtain ⟨j, hj⟩ := List.mem_iff_getElem?.mp hmem
  exact .inr ⟨j, p, hj, hcloser⟩

section Step
variable (htally : Tally s) (hi : s.tasks[i]? = some phase) (hb : Books opts s i phase effect)
  (hheeds : Heeds s phase effect)

include htally hi hb hheeds

theorem closer_after {j : ℕ} {id : PageId} (h : s.shared.present id = none ∨
      ∃ p, s.tasks[j]? = some p ∧ p.closer = some id) :
    (effect.shared.present id = none ∨
      ∃ p, (s.after i effect).tasks[j]? = some p ∧ p.closer = some id) ∨
    s.shared.pool.shutDown = false ∧ ∀ x, (id, x) ∉ s.shared.cores := by
  rcases h with hgone | ⟨p, hj, hp⟩
  · exact (hb.gone htally hi hgone).imp_left .inl
  · by_cases hji : j = i
    · subst hji
      rw [hi] at hj
      cases hj
      obtain hstill | hgone := hheeds.closer id hp
      · exact .inl (.inr ⟨effect.phase, getElem?_after_self hi, hstill⟩)
      · exact .inl (.inl hgone)
    · refine .inl (.inr ⟨effect.wake.apply p, getElem?_after_other hi hj hji, ?_⟩)
      rw [Wake.closer_apply]
      exact hp

theorem State.Started.after {id : PageId} (h : s.Started id) :
    (s.after i effect).Started id ∨
      s.shared.pool.shutDown = false ∧ ∀ x, (id, x) ∉ s.shared.cores := by
  rcases h with hgone | ⟨j, hj⟩
  · exact (hb.gone htally hi hgone).imp_left .inl
  · refine (closer_after htally hi hb hheeds (.inr hj)).imp_left ?_
    rintro (hgone | hstill)
    · exact .inl hgone
    · exact .inr ⟨j, hstill⟩

theorem State.Started.handle_after {k : ℕ} {handle : Handle} (h : s.Started handle.id)
    (hk : s.shared.handles[k]? = some handle) : (s.after i effect).Started handle.id := by
  obtain hstill | ⟨-, hnew⟩ := h.after htally hi hb hheeds
  · exact hstill
  · exact absurd (mem_cores hk) (hnew _)

theorem State.Started.shut_after {id : PageId} (h : s.Started id)
    (hshut : s.shared.pool.shutDown = true) : (s.after i effect).Started id := by
  obtain hstill | ⟨hrunning, -⟩ := h.after htally hi hb hheeds
  · exact hstill
  · rw [hshut] at hrunning
    cases hrunning

theorem Minded.joined_after (h : Minded s) {j : ℕ} {q : Phase} {k task : ℕ}
    (hj : (s.after i effect).tasks[j]? = some q) (hq : q.joins = some (k, task)) :
    ∃ handle, effect.shared.handles[k]? = some handle ∧ (effect.shared.present handle.id = none ∨
      ∃ r, (s.after i effect).tasks[task]? = some r ∧ r.closer = some handle.id) := by
  have hspawned : ∀ p ∈ effect.spawned, p.leaves = none ∧ p.joins = none := by
    simpa using hheeds.spawned
  obtain ⟨-, rfl⟩ | ⟨-, p, hp, rfl⟩ | hnew := getElem?_after hi hj
  · obtain ⟨rfl, handle, hk, hentering⟩ := hheeds.joins k task hq
    obtain ⟨new, hnew, hid⟩ := hb.handle hk
    refine ⟨new, hnew, .inr ⟨.entering handle.id, ?_, congrArg some hid.symm⟩⟩
    simp only [State.after, hentering]
    rw [List.getElem?_append_right (by simp)]
    simp
  · rw [Wake.joins_apply] at hq
    obtain ⟨handle, hk, hcloser⟩ := h.joined j p k task hp hq
    obtain ⟨new, hnew, hid⟩ := hb.handle hk
    refine ⟨new, hnew, ?_⟩
    rw [hid]
    obtain hstill | ⟨-, hfresh⟩ := closer_after htally hi hb hheeds hcloser
    · exact hstill
    · exact absurd (mem_cores hk) (hfresh _)
  · rw [(hspawned q hnew).2] at hq
    cases hq

theorem Minded.closed_after (h : Minded s) {k : ℕ} {handle : Handle}
    (hk : effect.shared.handles[k]? = some handle) (hclosed : handle.closeState = .closed) :
    effect.shared.present handle.id = none := by
  have hgone : ∃ old, s.shared.handles[k]? = some old ∧ s.shared.present old.id = none := by
    obtain ⟨old, hold, hstate⟩ | ⟨task, rfl, hdone⟩ := hheeds.closed k handle hk hclosed
    · exact ⟨old, hold, h.closed k old hold hstate⟩
    · obtain ⟨old, hold, hgone | ⟨q, hq, hcloser⟩⟩ := h.joined i _ k task hi rfl
      · exact ⟨old, hold, hgone⟩
      · -- The close task has returned, so it does not close the page any more.
        rw [hdone] at hq
        cases hq
        cases hcloser
  obtain ⟨old, hold, hgone⟩ := hgone
  obtain ⟨new, hnew, hid⟩ := hb.handle hold
  rw [hk] at hnew
  cases hnew
  rw [hid]
  exact hb.gone_handle htally hi hold hgone

theorem Minded.dropped_after (h : Minded s) {k : ℕ} {handle : Handle}
    (hk : effect.shared.handles[k]? = some handle) (hdropped : handle.dropped = true) :
    (∃ (j : ℕ) (p : Phase), (s.after i effect).tasks[j]? = some p ∧ p.drops = some k) ∨
      (s.after i effect).Started handle.id ∨ .page handle.id ∈ effect.shared.commands := by
  obtain ⟨old, hold, hdropped'⟩ := hheeds.dropped k handle hk hdropped
  obtain ⟨new, hnew, hid⟩ := hb.handle hold
  rw [hk] at hnew
  cases hnew
  rw [hid]
  have hstarted : s.Started old.id → (s.after i effect).Started old.id :=
    fun hs => hs.handle_after htally hi hb hheeds hold
  obtain ⟨j, p, hj, hp⟩ | hs | hcommand := h.dropped k old hold hdropped'
  · by_cases hji : j = i
    · subst hji
      rw [hi] at hj
      cases hj
      obtain hstill | hclosed | hqueued | hgone := hheeds.drops k old hp hold
      · exact .inl ⟨j, effect.phase, getElem?_after_self hi, hstill⟩
      · exact .inr (.inl (hstarted (.inl (h.closed k old hold hclosed))))
      · exact .inr (.inr hqueued)
      · exact .inr (.inl (hstarted ((h.stopped (.inr hgone)).2 old.id)))
    · refine .inl ⟨j, effect.wake.apply p, getElem?_after_other hi hj hji, ?_⟩
      rw [Wake.drops_apply]
      exact hp
  · exact .inr (.inl (hstarted hs))
  · obtain hqueued | ⟨p, hp, hcloser⟩ | hstops := hheeds.commands old.id hcommand
    · exact .inr (.inr hqueued)
    · exact .inr (.inl (started_of_spawned hp hcloser))
    · exact .inr (.inl (hstarted ((h.stopped hstops).2 old.id)))

theorem Minded.swept_after (h : Minded s) (hawake : Awake opts s) {j : ℕ} {q : Phase}
    {ids : List PageId} (hj : (s.after i effect).tasks[j]? = some q) (hq : q.leaves = some ids)
    (id : PageId) : (s.after i effect).Started id ∨ id ∈ ids := by
  have hspawned : ∀ p ∈ effect.spawned, p.leaves = none ∧ p.joins = none := by
    simpa using hheeds.spawned
  obtain ⟨-, rfl⟩ | ⟨-, p, hp, rfl⟩ | hnew := getElem?_after hi hj
  · obtain ⟨hshut, hpages, rfl⟩ | ⟨ids', hleaves, hrest⟩ := hheeds.leaves ids hq
    · by_cases hid : id ∈ s.shared.pool.pages
      · exact .inr (AList.mem_keys.mp hid)
      · refine .inl (.inl ?_)
        simp only [State.after, Shared.present, hpages, AList.lookup_eq_none.mpr hid]
        rfl
    · have hshut := hawake.shut i phase hi (Phase.shut_of_leaves hleaves)
      obtain hs | hmem := h.swept i phase ids' hi hleaves id
      · exact .inl (hs.shut_after htally hi hb hheeds hshut)
      · obtain hleft | ⟨p, hp, hcloser⟩ := hrest id hmem
        · exact .inr hleft
        · exact .inl (started_of_spawned hp hcloser)
  · rw [Wake.leaves_apply] at hq
    have hshut := hawake.shut j p hp (Phase.shut_of_leaves hq)
    exact (h.swept j p ids hp hq id).imp_left fun hs => hs.shut_after htally hi hb hheeds hshut
  · rw [(hspawned q hnew).1] at hq
    cases hq

end Step

theorem Minded.act {action : Action} (h : Minded s) (htally : Tally s) (hawake : Awake opts s)
    (hi : s.tasks[i]? = some phase) (ha : act opts s i phase action = some effect)
    (hu : phase.disturbed action = false) : Minded (s.after i effect) := by
  have hb := books_act ha hu
  have hheeds := heeds_act ha hu
  refine ⟨?_, ?_, ?_, ?_, ?_⟩
  · exact fun j q k task hj hq => h.joined_after htally hi hb hheeds hj hq
  · exact fun k handle hk hclosed => h.closed_after htally hi hb hheeds hk hclosed
  · exact fun k handle hk hdropped => h.dropped_after htally hi hb hheeds hk hdropped
  · exact fun j q ids hj hq id => h.swept_after htally hi hb hheeds hawake hj hq id
  · intro hstops
    have hall : s.shared.pool.shutDown = true ∧ ∀ id, s.Started id := by
      obtain hstops | hleaves := hheeds.stops hstops
      · exact h.stopped hstops
      · refine ⟨hawake.shut i phase hi (Phase.shut_of_leaves hleaves), fun id => ?_⟩
        obtain hs | hmem := h.swept i phase [] hi hleaves id
        · exact hs
        · cases hmem
    exact ⟨(fair_act ha).shut_down hall.1,
      fun id => (hall.2 id).shut_after htally hi hb hheeds hall.1⟩

theorem Phase.begins_alone {p : Phase} (h : p.begins = true) :
    p.joins = none ∧ p.leaves = none := by
  cases p <;> first | exact ⟨rfl, rfl⟩ | cases h

theorem Minded.opens {phases : List Phase} (h : Minded s) (ho : Opens s t phases) : Minded t := by
  have hold : ∀ {j : ℕ} {p : Phase}, s.tasks[j]? = some p → t.tasks[j]? = some p := by
    intro j p hj
    rw [ho.tasks, ← hj]
    exact List.getElem?_append_left (List.getElem?_eq_some_iff.mp hj).1
  have hnew : ∀ {j : ℕ} {p : Phase}, t.tasks[j]? = some p → s.tasks[j]? = some p ∨ p ∈ phases := by
    intro j p hj
    rw [ho.tasks, List.getElem?_append] at hj
    split_ifs at hj
    · exact .inl hj
    · exact .inr (List.mem_of_getElem? hj)
  have hpresent : ∀ id, t.shared.present id = s.shared.present id := by
    intro id
    rw [Shared.present, ho.pool]
    rfl
  have hstarted : ∀ {id}, s.Started id → t.Started id := by
    rintro id (hgone | ⟨j, p, hj, hp⟩)
    · exact .inl ((hpresent id).trans hgone)
    · exact .inr ⟨j, p, hold hj, hp⟩
  have hstops : t.shared.stops → s.shared.stops := by
    rintro (hmem | hgone)
    · exact .inl (ho.commands ▸ hmem)
    · exact .inr (ho.receiver hgone)
  refine ⟨?_, ?_, ?_, ?_, ?_⟩
  · intro j p k task hj hp
    obtain hj | hmem := hnew hj
    · obtain ⟨handle, hk, hcloser⟩ := h.joined j p k task hj hp
      have hcore : t.shared.cores[k]? = some handle.core := by
        rw [ho.cores, Shared.cores, List.getElem?_map, hk]
        rfl
      rw [Shared.cores, List.getElem?_map] at hcore
      obtain ⟨new, hfound, heq⟩ := Option.map_eq_some_iff.mp hcore
      have hid : new.id = handle.id := congrArg Prod.fst heq
      refine ⟨new, hfound, ?_⟩
      rw [hid, hpresent]
      refine hcloser.imp_right ?_
      rintro ⟨q, hq, hc⟩
      exact ⟨q, hold hq, hc⟩
    · rw [(Phase.begins_alone (ho.begins p hmem)).1] at hp
      cases hp
  · intro k handle hk hclosed
    rw [hpresent]
    obtain hsame | ⟨-, old, hold', rfl⟩ := ho.handles k handle hk
    · exact h.closed k handle hsame hclosed
    · exact h.closed k old hold' hclosed
  · intro k handle hk hdropped
    obtain hk | ⟨hmem, -⟩ := ho.handles k handle hk
    · rw [ho.commands]
      obtain ⟨j, p, hj, hp⟩ | hs | hqueued := h.dropped k handle hk hdropped
      · exact .inl ⟨j, p, hold hj, hp⟩
      · exact .inr (.inl (hstarted hs))
      · exact .inr (.inr hqueued)
    · have hin : Phase.releasing k ∈ t.tasks := by
        rw [ho.tasks]
        exact List.mem_append_right _ hmem
      obtain ⟨j, hj⟩ := List.mem_iff_getElem?.mp hin
      exact .inl ⟨j, _, hj, rfl⟩
  · intro j p ids hj hp id
    obtain hj | hmem := hnew hj
    · exact (h.swept j p ids hj hp id).imp_left hstarted
    · rw [(Phase.begins_alone (ho.begins p hmem)).2] at hp
      cases hp
  · intro hst
    obtain ⟨hshut, hall⟩ := h.stopped (hstops hst)
    exact ⟨by rw [ho.pool]; exact hshut, fun id => hstarted (hall id)⟩

theorem Minded.step {e : Event} (h : Minded s) (htally : Tally s) (hawake : Awake opts s)
    (hs : step opts s e = some t) (hu : Undisturbed s e) : Minded t := by
  obtain ⟨phases, ho⟩ | ⟨i, phase, action, effect, rfl, hi, ha, rfl⟩ := step_opens hs
  · exact h.opens ho
  · exact h.act htally hawake hi ha (hu.act hi)

theorem minded_run {es : List Event}
    (run : Machine.Run (Machine.Guarded Undisturbed (Machine.Computes (step opts))) start es t)
    (hlaunched : t.shared.launched < u64) (hissued : t.shared.issued < u64) :
    (Pages t ∧ Accounts opts t) ∧ Tally t ∧ Awake opts t ∧ Minded t := by
  refine Machine.run_invariant_until
    (I := fun t => (Pages t ∧ Accounts opts t) ∧ Tally t ∧ Awake opts t ∧ Minded t)
    (H := fun t => t.shared.launched < u64 ∧ t.shared.issued < u64) ?_ ?_ run
    ⟨⟨pages_start, accounts_start⟩, tally_start, awake_start, minded_start⟩ ⟨hlaunched, hissued⟩
  · rintro s e t ⟨-, hs⟩ hbound
    obtain ⟨hl, hp⟩ := counters_mono hs
    exact ⟨hl.trans_lt hbound.1, hp.trans_lt hbound.2⟩
  · rintro s e t ⟨⟨hpages, haccounts⟩, htally, hawake, hminded⟩ ⟨hu, hs⟩ hbound
    exact ⟨⟨hpages.step hs hbound.2, haccounts.step hpages hs hbound.1⟩,
      htally.step hpages haccounts hs hu hbound.2, hawake.step hs,
      hminded.step htally hawake hs hu⟩

end Millipede.BrowserPool
