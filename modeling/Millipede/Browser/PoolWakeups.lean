import Millipede.Browser.PoolMoves

/-!
# No lost wakeup

A call of `new_page` that waits has registered for the notification before it looked at the
pool. Every step that makes room ends in a phase in which its task goes on to notify all
that wait, so a call whose notification has not been fired waits for room that is not there,
or such a task is about to run.
-/

namespace Millipede.BrowserPool

variable {opts : BrowserPoolOptions} {s t : State} {i j : ℕ} {phase : Phase} {effect : Effect}

def Phase.notifies : Phase → Bool
  | .installed | .unlisted | .cleaned | .rolledBack _ | .finished _ _ _ | .marked => true
  | _ => false

def PoolState.hasRoom (opts : BrowserPoolOptions) (pool : PoolState) : Bool :=
  pool.shutDown || pool.browsers.any (BrowserSlot.available opts) || pool.launchAllowed opts

def Phase.shut : Phase → Bool
  | .marked | .barring | .barred | .draining | .looking _ | .drainParked _ | .collecting
  | .spawningClosers _ | .joiningClosers | .taking | .closingBrowsers | .stopping | .stopped => true
  | _ => false

def Phase.isParked : Phase → Bool
  | .parked false => true
  | _ => false

@[simp] theorem Wake.notifies_apply (wake : Wake) (phase : Phase) :
    (wake.apply phase).notifies = phase.notifies := by
  cases wake <;> cases phase <;> rfl

@[simp] theorem Wake.shut_apply (wake : Wake) (phase : Phase) :
    (wake.apply phase).shut = phase.shut := by
  cases wake <;> cases phase <;> rfl

theorem Wake.isParked_apply {wake : Wake} (h : (wake.apply phase).isParked = true) :
    phase.isParked = true ∧ wake ≠ .capacity := by
  cases wake with
  | nobody => exact ⟨by cases phase <;> exact h, fun heq => nomatch heq⟩
  | closers id => exact ⟨by cases phase <;> exact h, fun heq => nomatch heq⟩
  | capacity => cases phase <;> cases h

theorem Phase.isDone_of_isParked (h : phase.isParked = true) : phase.isDone = false := by
  cases phase <;> first | rfl | cases h

theorem hasRoom_update {pool : PoolState} {id : BrowserId} {f : BrowserSlot → BrowserSlot}
    (havailable : ∀ slot, (f slot).available opts = slot.available opts)
    (hlive : ∀ slot, (f slot).isLive = slot.isLive) :
    (pool.update id f).hasRoom opts = pool.hasRoom opts := by
  have hany : ∀ l : List BrowserSlot, l.any (BrowserSlot.available opts) =
      (l.map (BrowserSlot.available opts)).any fun b => b := by
    intro l
    rw [List.any_map]
    rfl
  have hcount : ∀ l : List BrowserSlot, l.countP BrowserSlot.isLive =
      (l.map BrowserSlot.isLive).countP fun b => b := by
    intro l
    rw [List.countP_map]
    rfl
  simp only [PoolState.hasRoom, PoolState.launchAllowed, PoolState.update, hany, hcount,
    List.map_updateFirst (fun slot _ => havailable slot),
    List.map_updateFirst (fun slot _ => hlive slot)]

/-- What a step does for those that wait. -/
structure Fair (opts : BrowserPoolOptions) (s : State) (i : ℕ) (phase : Phase) (effect : Effect) :
    Prop where
  notifies : phase.notifies = true → effect.wake = .capacity
  makes_room : s.shared.pool.hasRoom opts = false →
    (phase.shut = true → s.shared.pool.shutDown = true) →
    effect.shared.pool.hasRoom opts = false ∨ effect.phase.notifies = true ∨
      ∀ p ∈ s.tasks.set i (.done true), p.isDone = true
  parks : effect.phase.isParked = true → effect.shared.pool.hasRoom opts = false
  spawned : (effect.spawned.all fun p => !p.isParked && !p.shut) = true
  shut_down : s.shared.pool.shutDown = true → effect.shared.pool.shutDown = true
  shut : effect.phase.shut = true → phase.shut = true ∨ effect.shared.pool.shutDown = true

theorem Fair.quiet (hnotifies : phase.notifies = true → effect.wake = .capacity)
    (hpool : effect.shared.pool = s.shared.pool) (hparked : effect.phase.isParked = false)
    (hspawned : (effect.spawned.all fun p => !p.isParked && !p.shut) = true)
    (hshut : effect.phase.shut = true → phase.shut = true) : Fair opts s i phase effect where
  notifies := hnotifies
  makes_room := fun hroom _ => .inl (hpool ▸ hroom)
  parks := by
    intro h
    rw [hparked] at h
    cases h
  spawned := hspawned
  shut_down := fun h => hpool ▸ h
  shut := fun h => .inl (hshut h)

theorem send_pool (s : Shared) (command : CloseCommand) : (s.send command).pool = s.pool := by
  unfold Shared.send
  split_ifs <;> rfl

theorem fair_fail (h : fail s phase = some effect) : Fair opts s i phase effect := by
  cases phase <;> cases h <;>
    exact .quiet (fun h => nomatch h) rfl rfl rfl (fun h => h)

theorem fair_cancel (h : cancel s phase = some effect) : Fair opts s i phase effect := by
  cases phase <;> cases h <;>
    exact .quiet (fun h => nomatch h) rfl rfl rfl (fun h => nomatch h)

theorem fair_spawn (h : spawn s phase = some effect) : Fair opts s i phase effect := by
  cases phase <;> cases h <;>
    exact .quiet (fun h => nomatch h) rfl rfl rfl (fun h => nomatch h)

theorem hasRoom_eq_false {pool : PoolState} : pool.hasRoom opts = false ↔
    pool.shutDown = false ∧ pool.browsers.find? (BrowserSlot.available opts) = none ∧
      pool.launchAllowed opts = false := by
  simp only [PoolState.hasRoom, Bool.or_eq_false_iff, List.any_eq_false, List.find?_eq_none,
    and_assoc]

theorem fair_choose (notified : Bool) :
    Fair opts s i (.choosing notified) (choose opts s.shared notified) := by
  obtain ⟨-, heq⟩ | ⟨slot, hslot, heq⟩ | ⟨hallowed, heq⟩ | ⟨hshut, hnone, hfull, heq⟩ :=
    choose_cases opts s.shared notified
  · rw [heq]
    exact .quiet (fun h => nomatch h) rfl rfl rfl (fun h => nomatch h)
  · rw [heq]
    refine ⟨fun h => (nomatch h), ?_, fun h => (nomatch h), rfl, fun h => h, fun h => (nomatch h)⟩
    intro hroom _
    obtain ⟨-, hnone, -⟩ := hasRoom_eq_false.mp hroom
    rw [hslot] at hnone
    cases hnone
  · rw [heq]
    refine ⟨fun h => (nomatch h), ?_, fun h => (nomatch h), rfl, fun h => h, fun h => (nomatch h)⟩
    intro hroom _
    obtain ⟨-, -, hfull⟩ := hasRoom_eq_false.mp hroom
    rw [hallowed] at hfull
    cases hfull
  · rw [heq]
    refine ⟨fun h => (nomatch h), fun hroom _ => .inl hroom, ?_, rfl, fun h => h,
      fun h => (nomatch h)⟩
    intro _
    exact hasRoom_eq_false.mpr ⟨hshut, hnone, hfull⟩

theorem Fair.announces (hnotifies : phase.notifies = false)
    (hannounces : effect.phase.notifies = true)
    (hparked : effect.phase.isParked = false)
    (hspawned : (effect.spawned.all fun p => !p.isParked && !p.shut) = true)
    (hshutDown : s.shared.pool.shutDown = true → effect.shared.pool.shutDown = true)
    (hshut : effect.phase.shut = true → effect.shared.pool.shutDown = true) :
    Fair opts s i phase effect where
  notifies := by
    intro h
    rw [hnotifies] at h
    cases h
  makes_room := fun _ _ => .inr (.inl hannounces)
  parks := by
    intro h
    rw [hparked] at h
    cases h
  spawned := hspawned
  shut_down := hshutDown
  shut := fun h => .inr (hshut h)

theorem fair_install (id : BrowserId) :
    Fair opts s i (.installing id) (install s.shared id) := by
  unfold install
  split_ifs
  · exact .quiet (fun h => nomatch h) rfl rfl rfl (fun h => nomatch h)
  · split
    · exact .announces rfl rfl rfl rfl (fun h => h) (fun h => nomatch h)
    · exact .quiet (fun h => nomatch h) rfl rfl rfl (fun h => nomatch h)

theorem Fair.same_room (hnotifies : phase.notifies = false)
    (hroom : effect.shared.pool.hasRoom opts = s.shared.pool.hasRoom opts)
    (hparked : effect.phase.isParked = false)
    (hspawned : (effect.spawned.all fun p => !p.isParked && !p.shut) = true)
    (hshutDown : effect.shared.pool.shutDown = s.shared.pool.shutDown)
    (hshut : effect.phase.shut = true → phase.shut = true) : Fair opts s i phase effect where
  notifies := by
    intro h
    rw [hnotifies] at h
    cases h
  makes_room := fun h _ => .inl (hroom.trans h)
  parks := by
    intro h
    rw [hparked] at h
    cases h
  spawned := hspawned
  shut_down := fun h => hshutDown.trans h
  shut := fun h => .inl (hshut h)

theorem fair_register (page : ℕ) (id : BrowserId) (pageId : PageId) :
    Fair opts s i (.registering id pageId) (register s.shared page id pageId) := by
  unfold register
  split_ifs
  · exact .quiet (fun h => nomatch h) rfl rfl rfl (fun h => nomatch h)
  · refine .same_room rfl ?_ rfl rfl rfl (fun h => nomatch h)
    have hroom : (s.shared.pool.update id .register).hasRoom opts = s.shared.pool.hasRoom opts :=
      hasRoom_update (fun _ => rfl) (fun _ => rfl)
    exact hroom

theorem fair_enter (id : PageId) : Fair opts s i (.entering id) (enter s.shared id) := by
  unfold enter
  split
  · exact .quiet (fun h => nomatch h) rfl rfl rfl (fun h => nomatch h)
  · split_ifs
    · exact .quiet (fun h => nomatch h) rfl rfl rfl (fun h => nomatch h)
    · exact .same_room rfl rfl rfl rfl rfl (fun h => nomatch h)

theorem fair_unclose (id : PageId) (hnotifies : phase.notifies = false) :
    Fair opts s i phase ((s.shared.setPool (s.shared.pool.unclose id)).goes (.reset id)) := by
  have hsame : (s.shared.pool.unclose id).browsers = s.shared.pool.browsers ∧
      (s.shared.pool.unclose id).shutDown = s.shared.pool.shutDown := by
    unfold PoolState.unclose
    split <;> exact ⟨rfl, rfl⟩
  refine .same_room hnotifies ?_ rfl rfl hsame.2 (fun h => nomatch h)
  simp only [PoolState.hasRoom, PoolState.launchAllowed, Shared.goes, Shared.setPool, hsame.1,
    hsame.2]

theorem fair_receive (h : receive s i = some effect) : Fair opts s i .receiving effect := by
  unfold receive at h
  split at h
  · cases h
  · cases h
    exact .quiet (fun h => nomatch h) rfl rfl rfl (fun h => nomatch h)
  · rename_i rest _
    cases h
    refine ⟨fun h => (nomatch h), ?_, fun h => (nomatch h), rfl, ?_, fun h => (nomatch h)⟩
    · intro hroom _
      by_cases horphan : s.orphaned i rest = true
      · simp only [State.orphaned, Bool.and_eq_true, List.all_eq_true] at horphan
        exact .inr (.inr horphan.1.2)
      · simp only [horphan, Bool.false_eq_true, if_false]
        exact .inl hroom
    · intro hshut
      dsimp only
      split_ifs
      · unfold PoolState.takeAll
        split_ifs <;> exact hshut
      · exact hshut
  · cases h
    exact .quiet (fun h => nomatch h) rfl rfl rfl (fun h => nomatch h)
  · cases h
    exact .quiet (fun h => nomatch h) rfl rfl rfl (fun h => nomatch h)

theorem fair_join {handle task : ℕ} (h : join s handle task = some effect) :
    Fair opts s i (.joining handle task) effect := by
  unfold join at h
  split at h
  · cases h
    exact .quiet (fun h => nomatch h) rfl rfl rfl (fun h => nomatch h)
  · cases h
    exact .quiet (fun h => nomatch h) rfl rfl rfl (fun h => nomatch h)
  · cases h

theorem fair_run (h : run opts s i phase = some effect) : Fair opts s i phase effect := by
  cases phase with
  | choosing notified =>
    cases h
    exact fair_choose notified
  | installing id =>
    cases h
    exact fair_install id
  | registering id pageId =>
    cases h
    exact fair_register i id pageId
  | entering id =>
    cases h
    exact fair_enter id
  | unlisting id | abandoning id | cleaning id =>
    cases h
    exact .announces rfl rfl rfl rfl (fun h => h) (fun h => (by cases h))
  | rollingBack id =>
    cases h
    exact .announces rfl rfl rfl rfl (fun h => h) (fun h => (by cases h))
  | finishing id entry result =>
    cases h
    exact .announces rfl rfl rfl rfl (fun h => h) (fun h => (by cases h))
  | marking =>
    cases h
    exact .announces rfl rfl rfl rfl (fun _ => rfl) (fun _ => rfl)
  | unclosing id | resetting id =>
    cases h
    exact fair_unclose id rfl
  | receiving => exact fair_receive h
  | joining handle task => exact fair_join h
  | taking =>
    cases h
    refine ⟨fun h => (by cases h), ?_, fun h => (by cases h), rfl, fun h => h, fun _ => .inl rfl⟩
    intro hroom hshut
    rw [(hasRoom_eq_false.mp hroom).1] at hshut
    cases hshut rfl
  | parked notified | drainParked notified =>
    cases notified <;> cases h
    exact .quiet (fun h => (by cases h)) rfl rfl rfl (fun h => h)
  | waiting id notified =>
    cases notified <;> cases h
    exact .quiet (fun h => (by cases h)) rfl rfl rfl (fun h => h)
  | calling handle =>
    simp only [run] at h
    split at h
    · split_ifs at h
      · cases h
        exact .quiet (fun h => (by cases h)) rfl rfl rfl (fun h => (by cases h))
      · cases h
        exact .quiet (fun h => (by cases h)) rfl rfl rfl (fun h => (by cases h))
    · cases h
  | spawning handle | enqueueing handle =>
    obtain ⟨h', -, rfl⟩ := Option.map_eq_some_iff.mp h
    exact .quiet (fun h => (by cases h)) (by simp [Shared.goes, send_pool]) rfl rfl
      (fun h => (by cases h))
  | releasing handle =>
    obtain ⟨h', -, rfl⟩ := Option.map_eq_some_iff.mp h
    split_ifs
    · exact .quiet (fun h => (by cases h)) rfl rfl rfl (fun h => (by cases h))
    · exact .quiet (fun h => (by cases h)) rfl rfl rfl (fun h => (by cases h))
  | busy task =>
    simp only [run] at h
    split at h
    · cases h
      exact .quiet (fun h => (by cases h)) rfl rfl rfl (fun h => (by cases h))
    · cases h
  | looking notified =>
    cases h
    split_ifs
    · exact .quiet (fun h => (by cases h)) rfl rfl rfl (fun h => h)
    · exact .quiet (fun h => (by cases h)) rfl rfl rfl (fun h => h)
  | spawningClosers ids =>
    cases ids <;> cases h
    · exact .quiet (fun h => (by cases h)) rfl rfl rfl (fun h => h)
    · exact .quiet (fun h => (by cases h)) rfl rfl rfl (fun h => h)
  | rolledBack taken | telling id taken result =>
    cases h
    cases taken
    · exact .quiet (fun h => (by first | rfl | cases h)) rfl rfl rfl (fun h => (by cases h))
    · exact .quiet (fun h => (by first | rfl | cases h)) rfl rfl rfl (fun h => (by cases h))
  | finalizing | barring | stopping =>
    cases h
    exact .quiet (fun h => (by cases h)) (send_pool _ _) rfl rfl (fun h => h)
  | _ =>
    cases h <;>
      exact .quiet (fun h => (by first | rfl | cases h)) rfl rfl rfl
        (fun h => (by first | exact h | cases h))

theorem fair_act {action : Action} (h : act opts s i phase action = some effect) :
    Fair opts s i phase effect := by
  cases action with
  | run => exact fair_run h
  | fail => exact fair_fail h
  | cancel => exact fair_cancel h
  | spawn => exact fair_spawn h

/-- A call that waits and was not notified waits for room, or somebody will notify it. -/
structure Awake (opts : BrowserPoolOptions) (s : State) : Prop where
  shut : ∀ (j : ℕ) p, s.tasks[j]? = some p → p.shut = true → s.shared.pool.shutDown = true
  parked : ∀ (j : ℕ) p, s.tasks[j]? = some p → p.isParked = true →
    s.shared.pool.hasRoom opts = false ∨ ∃ (k : ℕ) (q : Phase), s.tasks[k]? = some q ∧
      q.notifies = true

theorem Awake.act {action : Action} (h : Awake opts s) (hi : s.tasks[i]? = some phase)
    (ha : act opts s i phase action = some effect) : Awake opts (s.after i effect) := by
  have hfair := fair_act ha
  have hspawned : ∀ p ∈ effect.spawned, p.isParked = false ∧ p.shut = false := by
    simpa using hfair.spawned
  constructor
  · intro j q hj hq
    obtain ⟨-, rfl⟩ | ⟨-, p, hp, rfl⟩ | hnew := getElem?_after hi hj
    · obtain hold | hnow := hfair.shut hq
      · exact hfair.shut_down (h.shut i phase hi hold)
      · exact hnow
    · rw [Wake.shut_apply] at hq
      exact hfair.shut_down (h.shut j p hp hq)
    · rw [(hspawned q hnew).2] at hq
      cases hq
  · intro j q hj hq
    obtain ⟨-, rfl⟩ | ⟨hji, p, hp, rfl⟩ | hnew := getElem?_after hi hj
    · exact .inl (hfair.parks hq)
    · obtain ⟨hparked, hwake⟩ := Wake.isParked_apply hq
      obtain hroom | ⟨k, r, hk, hr⟩ := h.parked j p hp hparked
      · obtain hstill | hwill | hnobody := hfair.makes_room hroom (h.shut i phase hi)
        · exact .inl hstill
        · exact .inr ⟨i, effect.phase, getElem?_after_self hi, hwill⟩
        · have hother : (s.tasks.set i (.done true))[j]? = some p := by
            rw [Tasks.getElem?_set hi, if_neg hji, hp]
          have hdone := hnobody p (List.mem_of_getElem? hother)
          rw [Phase.isDone_of_isParked hparked] at hdone
          cases hdone
      · -- The task that is going to notify is another one: this step has notified nobody.
        have hki : k ≠ i := by
          rintro rfl
          rw [hi] at hk
          cases hk
          exact hwake (hfair.notifies hr)
        refine .inr ⟨k, effect.wake.apply r, getElem?_after_other hi hk hki, ?_⟩
        rw [Wake.notifies_apply]
        exact hr
    · rw [(hspawned q hnew).1] at hq
      cases hq

theorem Phase.quiet_of_begins (h : phase.begins = true) :
    phase.isParked = false ∧ phase.shut = false := by
  cases phase <;> first | exact ⟨rfl, rfl⟩ | cases h

theorem Awake.begins {shared : Shared} {phases : List Phase} (h : Awake opts s)
    (hpool : shared.pool = s.shared.pool) (hphases : ∀ p ∈ phases, p.begins = true) :
    Awake opts ⟨shared, s.tasks ++ phases⟩ := by
  have hold : ∀ (j : ℕ) p, (s.tasks ++ phases)[j]? = some p →
      s.tasks[j]? = some p ∨ p ∈ phases := by
    intro j p hj
    rw [List.getElem?_append] at hj
    split_ifs at hj
    · exact .inl hj
    · exact .inr (List.mem_of_getElem? hj)
  constructor
  · intro j p hj hp
    rw [hpool]
    obtain hj | hmem := hold j p hj
    · exact h.shut j p hj hp
    · rw [(Phase.quiet_of_begins (hphases p hmem)).2] at hp
      cases hp
  · intro j p hj hp
    rw [hpool]
    obtain hj | hmem := hold j p hj
    · obtain hroom | ⟨k, q, hk, hq⟩ := h.parked j p hj hp
      · exact .inl hroom
      · refine .inr ⟨k, q, ?_, hq⟩
        rw [← hk]
        exact List.getElem?_append_left (List.getElem?_eq_some_iff.mp hk).1
    · rw [(Phase.quiet_of_begins (hphases p hmem)).1] at hp
      cases hp

theorem Awake.step {e : Event} (h : Awake opts s) (hs : step opts s e = some t) :
    Awake opts t := by
  obtain ⟨shared, phases, rfl, hsame, hphases⟩ | rfl | ⟨i, phase, action, effect, -, hi, ha, rfl⟩ :=
    step_cases hs
  · exact h.begins hsame.pool hphases
  · exact ⟨h.shut, h.parked⟩
  · exact h.act hi ha

theorem awake_start : Awake opts start :=
  ⟨fun _ _ h => (nomatch h), fun _ _ h => (nomatch h)⟩

/-- In every interleaving, while a call waits and its notification has not been fired, the pool
is not shut down, no slot can serve a page and no browser may be launched, or some task has
changed the state and is yet to notify. -/
theorem no_lost_wakeup {es : List Event}
    (run : Machine.Run (Machine.Computes (step opts)) start es t) (i : ℕ)
    (hi : t.tasks[i]? = some (.parked false)) :
    (t.shared.pool.shutDown = false ∧
      (∀ slot ∈ t.shared.pool.browsers, slot.available opts = false) ∧
      t.shared.pool.launchAllowed opts = false) ∨
    ∃ (j : ℕ) (phase : Phase), t.tasks[j]? = some phase ∧ phase.notifies = true := by
  have h : Awake opts t := Machine.run_invariant (fun _ _ _ h hs => h.step hs) run awake_start
  refine (h.parked i _ hi rfl).imp_left ?_
  intro hroom
  obtain ⟨hshut, hnone, hfull⟩ := hasRoom_eq_false.mp hroom
  exact ⟨hshut, fun slot hslot => by simpa using List.find?_eq_none.mp hnone slot hslot, hfull⟩

-- One browser with room for one page: the second call has to wait.
def oneOfEach : BrowserPoolOptions where
  maxOpenPagesPerBrowser := 1
  retireBrowserAfterPageCount := 100
  maxBrowsers := some 1

def goesOn (i n : ℕ) : List Event := List.replicate n (.act i .run)

def firstPage : List Event := .newPage :: goesOn 1 11

def secondWaits : List Event := firstPage ++ .newPage :: goesOn 2 2

theorem no_lost_wakeup_secondWaits : ∃ t,
    Machine.Run (Machine.Computes (step oneOfEach)) start secondWaits t ∧
      t.tasks[2]? = some (.parked false) ∧
      t.shared.pool.launchAllowed oneOfEach = false := by
  have hrun : (secondWaits.foldlM (step oneOfEach) start).map (fun t =>
      ((t.tasks[2]?.map Phase.isParked), t.tasks.any Phase.notifies)) =
      some (some true, false) := by decide +kernel
  obtain ⟨t, ht, hfacts⟩ := Option.map_eq_some_iff.mp hrun
  obtain ⟨hparked, hnobody⟩ := Prod.mk.inj hfacts
  obtain ⟨phase, hphase, hparked⟩ := Option.map_eq_some_iff.mp hparked
  have hphase : t.tasks[2]? = some (.parked false) := by
    rw [hphase]
    cases phase with
    | parked notified =>
      cases notified with
      | false => rfl
      | true => cases hparked
    | _ => cases hparked
  have hr := Machine.run_of_foldlM ht
  refine ⟨t, hr, hphase, ?_⟩
  obtain ⟨-, -, hfull⟩ | ⟨j, q, hj, hq⟩ := no_lost_wakeup hr 2 hphase
  · exact hfull
  · have hsome : t.tasks.any Phase.notifies = true :=
      List.any_eq_true.mpr ⟨q, List.mem_of_getElem? hj, hq⟩
    rw [hnobody] at hsome
    cases hsome

end Millipede.BrowserPool
