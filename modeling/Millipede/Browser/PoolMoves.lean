import Millipede.Browser.Pool

/-!
# What the tasks of the pool hold

A task may hold a page reservation of a browser, a browser that is being launched, a page
that is being closed, or a page id that is not registered yet. Most steps pass on what the
task holds, perhaps to a task that they spawn; `Does` lists the others.
-/

namespace Millipede.BrowserPool

section After
variable {s : State} {i j : ℕ} {phase : Phase} {effect : Effect}

theorem getElem?_after (hi : s.tasks[i]? = some phase) {q : Phase}
    (h : (s.after i effect).tasks[j]? = some q) :
    j = i ∧ q = effect.phase ∨ (j ≠ i ∧ ∃ p, s.tasks[j]? = some p ∧ q = effect.wake.apply p) ∨
      q ∈ effect.spawned := by
  have hwoken : (s.tasks.map effect.wake.apply)[i]? = some (effect.wake.apply phase) := by
    rw [List.getElem?_map, hi]
    rfl
  simp only [State.after, List.getElem?_append, Tasks.getElem?_set hwoken] at h
  split_ifs at h with hlt hji
  · exact .inl ⟨hji, (Option.some.inj h).symm⟩
  · rw [List.getElem?_map] at h
    obtain ⟨p, hp, heq⟩ := Option.map_eq_some_iff.mp h
    exact .inr (.inl ⟨hji, p, hp, heq.symm⟩)
  · exact .inr (.inr (List.mem_of_getElem? h))

theorem getElem?_after_self (hi : s.tasks[i]? = some phase) :
    (s.after i effect).tasks[i]? = some effect.phase := by
  have hwoken : (s.tasks.map effect.wake.apply)[i]? = some (effect.wake.apply phase) := by
    rw [List.getElem?_map, hi]
    rfl
  have hset : ((s.tasks.map effect.wake.apply).set i effect.phase)[i]? = some effect.phase := by
    rw [Tasks.getElem?_set hwoken, if_pos rfl]
  rw [← hset]
  exact List.getElem?_append_left (List.getElem?_eq_some_iff.mp hset).1

theorem getElem?_after_other (hi : s.tasks[i]? = some phase) {p : Phase}
    (hj : s.tasks[j]? = some p) (hji : j ≠ i) :
    (s.after i effect).tasks[j]? = some (effect.wake.apply p) := by
  have hwoken : (s.tasks.map effect.wake.apply)[i]? = some (effect.wake.apply phase) := by
    rw [List.getElem?_map, hi]
    rfl
  have hset : ((s.tasks.map effect.wake.apply).set i effect.phase)[j]? =
      some (effect.wake.apply p) := by
    rw [Tasks.getElem?_set hwoken, if_neg hji, List.getElem?_map, hj]
    rfl
  rw [← hset]
  exact List.getElem?_append_left (List.getElem?_eq_some_iff.mp hset).1

end After

def Phase.reserved : Phase → Option BrowserId
  | .creating id | .preparing id | .rejecting id | .numbering id | .registering id _
  | .refusing id | .undoing id | .rollingBack id => some id
  | _ => none

def Phase.launched : Phase → Option BrowserId
  | .launching id | .installing id | .discarding id | .unlisting id | .abandoning id
  | .cleaning id => some id
  | _ => none

def Phase.closes : Phase → Option PageId
  | .preClosing id _ | .closing id _ | .finishing id _ _ | .unclosing id | .resetting id => some id
  | _ => none

def Phase.closeEntry : Phase → Option (PageId × PageEntry)
  | .preClosing id entry | .closing id entry | .finishing id entry _ => some (id, entry)
  | _ => none

def Phase.numbered : Phase → Option PageId
  | .registering _ pageId => some pageId
  | _ => none

def holders (f : Phase → Option ℕ) (id : ℕ) (tasks : List Phase) : ℕ :=
  tasks.countP fun p => decide (f p = some id)

section Holders
variable {f : Phase → Option ℕ} {id : ℕ} {tasks : List Phase} {s : State} {i : ℕ}
  {phase : Phase}

@[simp] theorem holders_nil : holders f id [] = 0 := rfl

@[simp] theorem holders_append (tasks' : List Phase) :
    holders f id (tasks ++ tasks') = holders f id tasks + holders f id tasks' :=
  List.countP_append

theorem holders_cons (p : Phase) :
    holders f id (p :: tasks) = holders f id [p] + holders f id tasks := by
  rw [← holders_append]
  rfl

theorem holders_eq_total (tasks : List Phase) :
    holders f id tasks = Tasks.total (fun p => holders f id [p]) tasks := by
  induction tasks with
  | nil => rfl
  | cons p tasks ih =>
    rw [holders_cons, ih]
    simp [Tasks.total]

theorem holders_singleton {p : Phase} (hf : f p = some id) : holders f id [p] = 1 := by
  simp [holders, hf]

theorem holders_pos {p : Phase} (hp : p ∈ tasks) (hf : f p = some id) :
    0 < holders f id tasks := by
  rw [holders, List.countP_pos_iff]
  exact ⟨p, hp, by simpa using hf⟩

theorem holders_eq_zero_of (h : ∀ p ∈ tasks, f p ≠ some id) : holders f id tasks = 0 := by
  rw [holders, List.countP_eq_zero]
  intro p hp
  simp [h p hp]

theorem holders_eq_zero (h : ∀ p ∈ tasks, f p = none) : holders f id tasks = 0 := by
  refine holders_eq_zero_of fun p hp => ?_
  rw [h p hp]
  exact fun hsome => nomatch hsome

theorem holders_after (hf : ∀ wake p, f (Wake.apply wake p) = f p)
    (hi : s.tasks[i]? = some phase) (effect : Effect) (id : ℕ) :
    holders f id (s.after i effect).tasks + holders f id [phase] =
      holders f id s.tasks + holders f id (effect.phase :: effect.spawned) := by
  have hwoken : (s.tasks.map effect.wake.apply)[i]? = some (effect.wake.apply phase) := by
    rw [List.getElem?_map, hi]
    rfl
  have hmap : ∀ tasks : List Phase,
      holders f id (tasks.map effect.wake.apply) = holders f id tasks := by
    intro tasks
    simp only [holders, List.countP_map]
    congr 1
    funext p
    simp only [Function.comp, hf]
  have hset := Tasks.total_set (f := fun p => holders f id [p]) hwoken effect.phase
  have hsame : holders f id [effect.wake.apply phase] = holders f id [phase] := hmap [phase]
  rw [← holders_eq_total, ← holders_eq_total, hmap] at hset
  rw [State.after, holders_append, holders_cons effect.phase]
  omega

end Holders

theorem Wake.reserved_apply (wake : Wake) (p : Phase) : (wake.apply p).reserved = p.reserved := by
  cases wake <;> cases p <;> rfl

theorem Wake.launched_apply (wake : Wake) (p : Phase) : (wake.apply p).launched = p.launched := by
  cases wake <;> cases p <;> rfl

theorem Wake.closes_apply (wake : Wake) (p : Phase) : (wake.apply p).closes = p.closes := by
  cases wake <;> cases p <;> rfl

theorem Wake.numbered_apply (wake : Wake) (p : Phase) : (wake.apply p).numbered = p.numbered := by
  cases wake <;> cases p <;> rfl

theorem Wake.closeEntry_apply (wake : Wake) (p : Phase) :
    (wake.apply p).closeEntry = p.closeEntry := by
  cases wake <;> cases p <;> rfl

/-- What a task holds, the tasks after it hold. -/
structure PassesOn (phase : Phase) (phases : List Phase) : Prop where
  reserved : ∀ id, holders Phase.reserved id phases = holders Phase.reserved id [phase]
  launched : ∀ id, holders Phase.launched id phases = holders Phase.launched id [phase]
  closes : ∀ id, holders Phase.closes id phases = holders Phase.closes id [phase]
  numbered : ∀ id, holders Phase.numbered id phases ≤ holders Phase.numbered id [phase]
  closeEntry : ∀ p ∈ phases, p.closeEntry = none ∨ p.closeEntry = phase.closeEntry

structure Shared.SamePool (s t : Shared) : Prop where
  pool : t.pool = s.pool
  launched : t.launched = s.launched
  nextPageId : t.nextPageId = s.nextPageId
  issued : t.issued = s.issued

/-- The steps that change the pool, or what the tasks hold. -/
inductive Does (opts : BrowserPoolOptions) (s : State) (i : ℕ) : Phase → Effect → Prop
  | quiet {phase : Phase} {effect : Effect} : s.shared.SamePool effect.shared →
      PassesOn phase (effect.phase :: effect.spawned) → Does opts s i phase effect
  | chooses (notified : Bool) : Does opts s i (.choosing notified) (choose opts s.shared notified)
  | installs (id : BrowserId) : Does opts s i (.installing id) (install s.shared id)
  | unlists {phase phase' : Phase} (id : BrowserId) :
      (∀ k, holders Phase.launched k [phase] = holders Phase.launched k [.cleaning id]) →
      PassesOn .cleaned [phase'] → (phase.reserved = none ∧ phase.closes = none) →
      Does opts s i phase ((s.shared.setPool (s.shared.pool.unlist id)).goes phase')
  | numbers (id : BrowserId) : Does opts s i (.numbering id)
      (s.shared.number.goes (.registering id s.shared.nextPageId))
  | registers (id : BrowserId) (pageId : PageId) :
      Does opts s i (.registering id pageId) (register s.shared i id pageId)
  | rolls_back (id : BrowserId) : Does opts s i (.rollingBack id) (rollBack opts s.shared id)
  | enters (id : PageId) : Does opts s i (.entering id) (enter s.shared id)
  | finishes (id : PageId) (entry : PageEntry) (result : Bool) :
      Does opts s i (.finishing id entry result) (finish opts s.shared id entry result)
  | uncloses {phase : Phase} (id : PageId) :
      (∀ k, holders Phase.closes k [phase] = holders Phase.closes k [.resetting id]) →
      (phase.reserved = none ∧ phase.launched = none) →
      Does opts s i phase ((s.shared.setPool (s.shared.pool.unclose id)).goes (.reset id))
  | marks : Does opts s i .marking
      ((s.shared.setPool { s.shared.pool with shutDown := true }).goes .marked)
  | takes : Does opts s i .taking
      ((s.shared.setPool s.shared.pool.takeIdle).goes .closingBrowsers)
  | finalizes (commands : List CloseCommand) : Does opts s i .receiving
      ⟨{ s.shared with pool := s.shared.pool.takeAll, commands }, .receiving, [], .nobody⟩

section Act
variable {opts : BrowserPoolOptions} {s : State} {i : ℕ} {phase : Phase} {effect : Effect}

theorem PassesOn.one {phase phase' : Phase} (hreserved : phase'.reserved = phase.reserved)
    (hlaunched : phase'.launched = phase.launched) (hcloses : phase'.closes = phase.closes)
    (hnumbered : phase'.numbered = none ∨ phase'.numbered = phase.numbered)
    (hentry : phase'.closeEntry = none ∨ phase'.closeEntry = phase.closeEntry) :
    PassesOn phase [phase'] where
  reserved := fun id => by simp only [holders, List.countP_singleton, hreserved]
  launched := fun id => by simp only [holders, List.countP_singleton, hlaunched]
  closes := fun id => by simp only [holders, List.countP_singleton, hcloses]
  numbered := by
    intro id
    rcases hnumbered with h | h
    · simp [holders, h]
    · simp [holders, List.countP_singleton, h]
  closeEntry := by
    intro p hp
    rw [List.mem_singleton.mp hp]
    exact hentry

theorem PassesOn.cons {phase phase' : Phase} {phases : List Phase} (h : PassesOn phase phases)
    (hreserved : phase'.reserved = none) (hlaunched : phase'.launched = none)
    (hcloses : phase'.closes = none) (hnumbered : phase'.numbered = none)
    (hentry : phase'.closeEntry = none) : PassesOn phase (phase' :: phases) where
  reserved := fun id => by rw [holders_cons, h.reserved]; simp [holders, hreserved]
  launched := fun id => by rw [holders_cons, h.launched]; simp [holders, hlaunched]
  closes := fun id => by rw [holders_cons, h.closes]; simp [holders, hcloses]
  numbered := fun id => by
    rw [holders_cons]
    have hrest := h.numbered id
    simpa [holders, hnumbered] using hrest
  closeEntry := by
    intro p hp
    rcases List.mem_cons.mp hp with rfl | hp
    · exact .inl hentry
    · exact h.closeEntry p hp

theorem Shared.SamePool.refl (s : Shared) : s.SamePool s := ⟨rfl, rfl, rfl, rfl⟩

theorem Shared.samePool_send (s : Shared) (command : CloseCommand) :
    s.SamePool (s.send command) := by
  unfold Shared.send
  split_ifs
  · exact .refl s
  · exact ⟨rfl, rfl, rfl, rfl⟩

theorem Does.alone {shared : Shared} {phase' : Phase} {wake : Wake}
    (hpool : s.shared.SamePool shared)
    (hreserved : phase'.reserved = phase.reserved) (hlaunched : phase'.launched = phase.launched)
    (hcloses : phase'.closes = phase.closes)
    (hnumbered : phase'.numbered = none ∨ phase'.numbered = phase.numbered)
    (hentry : phase'.closeEntry = none ∨ phase'.closeEntry = phase.closeEntry) :
    Does opts s i phase ⟨shared, phase', [], wake⟩ :=
  .quiet hpool (.one hreserved hlaunched hcloses hnumbered hentry)

theorem does_fail (h : fail s phase = some effect) : Does opts s i phase effect := by
  cases phase <;> cases h <;>
    first
    | exact .alone (.refl _) rfl rfl rfl (.inl rfl) (.inl rfl)
    | exact .alone (.refl _) rfl rfl rfl (.inl rfl) (.inr rfl)
    | exact .quiet (.refl _) (.cons (.one rfl rfl rfl (.inl rfl) (.inl rfl)) rfl rfl rfl rfl rfl)

theorem does_cancel (h : cancel s phase = some effect) : Does opts s i phase effect := by
  cases phase <;> cases h <;>
    first
    | exact .alone ⟨rfl, rfl, rfl, rfl⟩ rfl rfl rfl (.inl rfl) (.inl rfl)
    | exact .quiet (.refl _) (.cons (.one rfl rfl rfl (.inl rfl) (.inl rfl)) rfl rfl rfl rfl rfl)

theorem does_spawn (h : spawn s phase = some effect) : Does opts s i phase effect := by
  cases phase <;> cases h <;>
    exact .quiet (.refl _) (.cons (.one rfl rfl rfl (.inl rfl) (.inl rfl)) rfl rfl rfl rfl rfl)

theorem does_receive (h : receive s i = some effect) : Does opts s i .receiving effect := by
  unfold receive at h
  split at h
  · cases h
  · cases h
    refine .quiet ⟨rfl, rfl, rfl, rfl⟩ ?_
    exact .cons (.one rfl rfl rfl (.inl rfl) (.inl rfl)) rfl rfl rfl rfl rfl
  · rename_i rest _
    cases h
    by_cases horphan : s.orphaned i rest = true
    · simp only [horphan, if_true]
      exact .finalizes rest
    · simp only [horphan, Bool.false_eq_true, if_false]
      exact .alone ⟨rfl, rfl, rfl, rfl⟩ rfl rfl rfl (.inl rfl) (.inl rfl)
  · cases h
    exact .alone ⟨rfl, rfl, rfl, rfl⟩ rfl rfl rfl (.inl rfl) (.inl rfl)
  · cases h
    exact .alone ⟨rfl, rfl, rfl, rfl⟩ rfl rfl rfl (.inl rfl) (.inl rfl)

theorem does_run (h : run opts s i phase = some effect) : Does opts s i phase effect := by
  cases phase with
  | choosing notified =>
    cases h
    exact .chooses notified
  | installing id =>
    cases h
    exact .installs id
  | unlisting id | abandoning id | cleaning id =>
    cases h
    exact .unlists id (fun _ => rfl) (.one rfl rfl rfl (.inl rfl) (.inl rfl)) ⟨rfl, rfl⟩
  | numbering id =>
    cases h
    exact .numbers id
  | registering id pageId =>
    cases h
    exact .registers id pageId
  | rollingBack id =>
    cases h
    exact .rolls_back id
  | entering id =>
    cases h
    exact .enters id
  | finishing id entry result =>
    cases h
    exact .finishes id entry result
  | unclosing id | resetting id =>
    cases h
    exact .uncloses id (fun _ => rfl) ⟨rfl, rfl⟩
  | marking =>
    cases h
    exact .marks
  | taking =>
    cases h
    exact .takes
  | receiving => exact does_receive h
  | parked notified | drainParked notified =>
    cases notified <;> cases h
    exact .alone (.refl _) rfl rfl rfl (.inl rfl) (.inl rfl)
  | waiting id notified =>
    cases notified <;> cases h
    exact .alone (.refl _) rfl rfl rfl (.inl rfl) (.inl rfl)
  | calling handle =>
    simp only [run] at h
    split at h
    · split_ifs at h
      · cases h
        exact .alone ⟨rfl, rfl, rfl, rfl⟩ rfl rfl rfl (.inl rfl) (.inl rfl)
      · cases h
        exact .alone (.refl _) rfl rfl rfl (.inl rfl) (.inl rfl)
    · cases h
  | spawning handle =>
    obtain ⟨h', -, rfl⟩ := Option.map_eq_some_iff.mp h
    exact .quiet (.refl _) (.cons (.one rfl rfl rfl (.inl rfl) (.inl rfl)) rfl rfl rfl rfl rfl)
  | joining handle task =>
    simp only [run, join] at h
    split at h
    · cases h
      exact .alone ⟨rfl, rfl, rfl, rfl⟩ rfl rfl rfl (.inl rfl) (.inl rfl)
    · cases h
      exact .alone ⟨rfl, rfl, rfl, rfl⟩ rfl rfl rfl (.inl rfl) (.inl rfl)
    · cases h
  | releasing handle =>
    obtain ⟨h', -, rfl⟩ := Option.map_eq_some_iff.mp h
    split_ifs
    · exact .alone (.refl _) rfl rfl rfl (.inl rfl) (.inl rfl)
    · exact .alone (.refl _) rfl rfl rfl (.inl rfl) (.inl rfl)
  | enqueueing handle =>
    obtain ⟨h', -, rfl⟩ := Option.map_eq_some_iff.mp h
    exact .alone (Shared.samePool_send _ _) rfl rfl rfl (.inl rfl) (.inl rfl)
  | finalizing | barring | stopping =>
    cases h
    exact .alone (Shared.samePool_send _ _) rfl rfl rfl (.inl rfl) (.inl rfl)
  | busy task =>
    simp only [run] at h
    split at h
    · cases h
      exact .alone (.refl _) rfl rfl rfl (.inl rfl) (.inl rfl)
    · cases h
  | looking notified =>
    cases h
    split_ifs
    · exact .alone (.refl _) rfl rfl rfl (.inl rfl) (.inl rfl)
    · exact .alone (.refl _) rfl rfl rfl (.inl rfl) (.inl rfl)
  | spawningClosers ids =>
    cases ids <;> cases h
    · exact .alone (.refl _) rfl rfl rfl (.inl rfl) (.inl rfl)
    · exact .quiet (.refl _) (.cons (.one rfl rfl rfl (.inl rfl) (.inl rfl)) rfl rfl rfl rfl rfl)
  | rolledBack taken | telling id taken result =>
    cases h
    cases taken
    · exact .alone (.refl _) rfl rfl rfl (.inl rfl) (.inl rfl)
    · exact .alone (.refl _) rfl rfl rfl (.inl rfl) (.inl rfl)
  | preClosing id entry | closing id entry =>
    cases h
    exact .alone ⟨rfl, rfl, rfl, rfl⟩ rfl rfl rfl (.inl rfl) (.inr rfl)
  | rejecting id | refusing id =>
    cases h
    exact .quiet (.refl _) (.cons (.one rfl rfl rfl (.inl rfl) (.inl rfl)) rfl rfl rfl rfl rfl)
  | _ =>
    cases h <;> exact .alone (.refl _) rfl rfl rfl (.inl rfl) (.inl rfl)

theorem act_does {action : Action} (h : act opts s i phase action = some effect) :
    Does opts s i phase effect := by
  cases action with
  | run => exact does_run h
  | fail => exact does_fail h
  | cancel => exact does_cancel h
  | spawn => exact does_spawn h

end Act

def Phase.begins : Phase → Bool
  | .receiving | .enabling | .marking | .calling _ | .releasing _ => true
  | _ => false

theorem Phase.holds_nothing {p : Phase} (h : p.begins = true) :
    p.reserved = none ∧ p.launched = none ∧ p.closes = none ∧ p.numbered = none ∧
      p.closeEntry = none := by
  cases p <;> first | exact ⟨rfl, rfl, rfl, rfl, rfl⟩ | cases h

/-- What an event can do: tasks begin, a page id is taken elsewhere, or a task takes a step. -/
theorem step_cases {opts : BrowserPoolOptions} {s t : State} {e : Event}
    (h : step opts s e = some t) :
    (∃ shared phases, t = ⟨shared, s.tasks ++ phases⟩ ∧ s.shared.SamePool shared ∧
      ∀ p ∈ phases, p.begins = true) ∨
    t = { s with shared := s.shared.number } ∨
    ∃ i phase action effect, e = .act i action ∧ s.tasks[i]? = some phase ∧
      act opts s i phase action = some effect ∧ t = s.after i effect := by
  have hbegin : ∀ phase : Phase, phase.begins = true →
      ∃ shared phases, begin s phase = ⟨shared, s.tasks ++ phases⟩ ∧ s.shared.SamePool shared ∧
        ∀ p ∈ phases, p.begins = true := by
    intro phase hphase
    refine ⟨(begin s phase).shared,
      (if s.shared.receiver = .unclaimed then [.receiving] else []) ++ [phase], ?_,
      ⟨rfl, rfl, rfl, rfl⟩, ?_⟩
    · simp only [begin, List.append_assoc]
    intro p hp
    rcases List.mem_append.mp hp with hp | hp
    · split_ifs at hp
      · rw [List.mem_singleton.mp hp]
        rfl
      · cases hp
    · rw [List.mem_singleton.mp hp]
      exact hphase
  cases e with
  | newPage | shutdown =>
    simp only [step] at h
    split_ifs at h
    cases h
    exact .inl (hbegin _ rfl)
  | close handle =>
    simp only [step] at h
    split at h
    · split_ifs at h
      cases h
      refine .inl ⟨_, _, rfl, .refl _, ?_⟩
      intro p hp
      rw [List.mem_singleton.mp hp]
      rfl
    · cases h
  | dropHandle handle =>
    simp only [step] at h
    split at h
    · split_ifs at h
      cases h
      refine .inl ⟨_, _, rfl, ⟨rfl, rfl, rfl, rfl⟩, ?_⟩
      intro p hp
      rw [List.mem_singleton.mp hp]
      rfl
    · cases h
  | dropPool =>
    cases h
    refine .inl ⟨{ s.shared with owned := false }, [], ?_, ⟨rfl, rfl, rfl, rfl⟩, ?_⟩
    · rw [List.append_nil]
    intro p hp
    cases hp
  | otherPage =>
    cases h
    exact .inr (.inl rfl)
  | act i action =>
    simp only [step] at h
    split at h
    · cases h
    · rename_i phase hi
      obtain ⟨effect, ha, rfl⟩ := Option.map_eq_some_iff.mp h
      exact .inr (.inr ⟨i, phase, action, effect, rfl, hi, ha, rfl⟩)

end Millipede.BrowserPool
