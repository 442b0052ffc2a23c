import Millipede.Http.CoalesceSafety

/-!
# What coalescing leaves in the map

An entry is minded while some call will still take it out: a call that waits for its cell or
runs the initializer, as long as there is no value, and the leader afterwards. A call that is
dropped as the last one at a cell without a value deserts the entry; the guard leaves it
there for a successor that does not come.
-/

namespace Millipede.Coalesce

variable {Response : Type} {s t : State Response} {i : ℕ} {caller : Caller Response}

inductive Moved (s : State Response) (i : ℕ) (caller : Caller Response) :
    Action Response → Effect Response → Prop
  | found {key c} (phase : caller.phase = .lookingUp)
      (own : coalesceKey caller.request = some key) (entry : s.inFlight.lookup key = some c) :
      Moved s i caller .lookUp (s.quiet { caller with phase := .waiting c })
  | made {key} (phase : caller.phase = .lookingUp)
      (own : coalesceKey caller.request = some key) (absent : s.inFlight.lookup key = none) :
      Moved s i caller .lookUp
        ⟨s.inFlight.insert key s.cells.length,
          s.cells ++ [{ key, holder := none, value := none }],
          { caller with phase := .waiting s.cells.length }⟩
  | acquired {c key} (phase : caller.phase = .waiting c)
      (cell : s.cells[c]? = some ⟨key, none, none⟩) :
      Moved s i caller .acquire
        ⟨s.inFlight, s.cells.set c ⟨key, some i, none⟩,
          { caller with active := true, phase := .sending c }⟩
  | joins {c cell value} (phase : caller.phase = .waiting c) (found : s.cells[c]? = some cell)
      (settled : cell.value = some value) :
      Moved s i caller .join
        (s.quiet { caller with phase := .leaving c (some (joined value)) })
  | forwarded {outcome} (phase : caller.phase = .forwarding) :
      Moved s i caller (.answer outcome)
        (s.quiet { caller with phase := .finished none (some outcome) })
  | answered {c outcome} (phase : caller.phase = .sending c) :
      Moved s i caller (.answer outcome)
        (s.quiet { caller with leaderResult := some outcome, phase := .settling c })
  | settled {c cell outcome} (phase : caller.phase = .settling c)
      (own : caller.leaderResult = some outcome) (found : s.cells[c]? = some cell) :
      Moved s i caller .settle
        ⟨s.inFlight, s.cells.set c ⟨cell.key, none, some (followerResult outcome)⟩,
          { caller with phase := .leaving c (some outcome) }⟩
  | idle {c result} (phase : caller.phase = .leaving c result)
      (nothing : caller.active = true → (s.cells[c]?.bind Cell.value) = none) :
      Moved s i caller .leave (s.quiet { caller with phase := .finished (some c) result })
  | removes {c result} (phase : caller.phase = .leaving c result) :
      Moved s i caller .leave (s.quiet { caller with phase := .removing c result })
  | removed {c result key} (phase : caller.phase = .removing c result)
      (own : coalesceKey caller.request = some key) (entry : s.inFlight.lookup key = some c) :
      Moved s i caller .remove
        ⟨s.inFlight.erase key, s.cells, { caller with phase := .finished (some c) result }⟩
  | kept {c result} (phase : caller.phase = .removing c result)
      (other : ∀ key, coalesceKey caller.request = some key → s.inFlight.lookup key ≠ some c) :
      Moved s i caller .remove (s.quiet { caller with phase := .finished (some c) result })
  | unplaced (phase : caller.phase = .forwarding ∨ caller.phase = .lookingUp) :
      Moved s i caller .cancel (s.quiet { caller with phase := .finished none none })
  | waiter {c} (phase : caller.phase = .waiting c) :
      Moved s i caller .cancel (s.quiet { caller with phase := .leaving c none })
  | sender {c cell} (phase : caller.phase = .sending c) (found : s.cells[c]? = some cell) :
      Moved s i caller .cancel
        ⟨s.inFlight, s.cells.set c ⟨cell.key, none, cell.value⟩,
          { caller with phase := .leaving c none }⟩

theorem act_moved {action : Action Response} {effect : Effect Response}
    (ha : act s i caller action = some effect) : Moved s i caller action effect := by
  cases action with
  | lookUp =>
    simp only [act] at ha
    split at ha
    · rename_i key hp hkey
      cases ha
      unfold lookUp
      split
      · exact .found hp hkey ‹_›
      · exact .made hp hkey ‹_›
    · cases ha
  | acquire =>
    simp only [act] at ha
    split at ha
    · split at ha
      · cases ha
        exact .acquired ‹_› ‹_›
      · cases ha
    · cases ha
  | join =>
    simp only [act] at ha
    split at ha
    · split at ha
      · cases ha
        exact .joins ‹_› ‹_› rfl
      · cases ha
    · cases ha
  | answer outcome =>
    simp only [act] at ha
    split at ha
    · cases ha
      exact .forwarded ‹_›
    · cases ha
      exact .answered ‹_›
    · cases ha
  | settle =>
    simp only [act] at ha
    split at ha
    · split at ha
      · cases ha
        exact .settled ‹_› ‹_› ‹_›
      · cases ha
    · cases ha
  | leave =>
    simp only [act] at ha
    split at ha
    · rename_i hp
      split_ifs at ha with hidle
      · cases ha
        refine .idle hp ?_
        intro hactive
        simpa [hactive] using hidle
      · cases ha
        exact .removes hp
    · cases ha
  | remove =>
    simp only [act] at ha
    split at ha
    · rename_i c result hp
      cases ha
      simp only [remove]
      split
      · rename_i hnone
        refine .kept hp ?_
        intro key hkey
        rw [hnone] at hkey
        cases hkey
      · rename_i key hkey
        split_ifs with hentry
        · exact .removed hp hkey hentry
        · refine .kept hp ?_
          intro key' hkey'
          rw [hkey] at hkey'
          cases hkey'
          exact hentry
    · cases ha
  | cancel =>
    simp only [act] at ha
    split at ha
    · cases ha
      exact .unplaced (.inl ‹_›)
    · cases ha
      exact .unplaced (.inr ‹_›)
    · cases ha
      exact .waiter ‹_›
    · split at ha
      · cases ha
        exact .sender ‹_› ‹_›
      · cases ha
    · cases ha

theorem step_moved {action : Action Response} (hs : step s (.act i action) = some t) :
    ∃ caller effect, s.callers[i]? = some caller ∧ Moved s i caller action effect ∧
      t = s.after i effect := by
  obtain ⟨caller, effect, hi, ha, rfl⟩ := step_act hs
  exact ⟨caller, effect, hi, act_moved ha, rfl⟩

def Phase.attends : Phase Response → Option ℕ
  | .waiting c | .sending c | .settling c => some c
  | _ => none

/-- The caller will take the entry of the cell out, or hand that duty on. -/
def Minds (caller : Caller Response) (c : ℕ) (cell : Cell Response) : Prop :=
  caller.phase.attends = some c ∧ cell.value = none ∨
    (∃ result, caller.phase = .leaving c result) ∧ caller.active = true ∧ cell.value.isSome ∨
    ∃ result, caller.phase = .removing c result

def Minded (s : State Response) : Prop :=
  ∀ key c cell, s.inFlight.lookup key = some c → s.cells[c]? = some cell →
    ∃ (j : ℕ) (minder : Caller Response), s.callers[j]? = some minder ∧ Minds minder c cell

/-- The event drops the last caller at a cell that has no value. -/
def Deserts (s : State Response) : Event Response → Prop
  | .act i .cancel => ∃ caller c cell, s.callers[i]? = some caller ∧
      caller.phase.attends = some c ∧ s.cells[c]? = some cell ∧ cell.value = none ∧
      ∀ (j : ℕ) other, j ≠ i → s.callers[j]? = some other → other.phase.attends ≠ some c
  | _ => False

theorem minded_start : Minded (start : State Response) := by
  intro key c cell hentry
  cases hentry

theorem Minded.after {effect : Effect Response} (hi : s.callers[i]? = some caller)
    (h : ∀ key c cell', effect.inFlight.lookup key = some c → effect.cells[c]? = some cell' →
      Minds effect.caller c cell' ∨
        ∃ (j : ℕ) (minder : Caller Response), j ≠ i ∧ s.callers[j]? = some minder ∧
          Minds minder c cell') :
    Minded (s.after i effect) := by
  intro key c cell' hentry hcell'
  rcases h key c cell' hentry hcell' with hown | ⟨j, minder, hji, hj, hminds⟩
  · refine ⟨i, effect.caller, ?_, hown⟩
    simp only [State.after, Tasks.getElem?_set hi, if_pos]
  · refine ⟨j, minder, ?_, hminds⟩
    simp only [State.after, Tasks.getElem?_set hi, if_neg hji]
    exact hj

theorem Minded.quiet {caller' : Caller Response} (h : Minded s)
    (hi : s.callers[i]? = some caller)
    (hown : ∀ key c cell, s.inFlight.lookup key = some c → s.cells[c]? = some cell →
      Minds caller c cell → Minds caller' c cell ∨
        ∃ (j : ℕ) (minder : Caller Response), j ≠ i ∧ s.callers[j]? = some minder ∧
          Minds minder c cell) :
    Minded (s.after i (s.quiet caller')) := by
  refine Minded.after hi ?_
  intro key c cell hentry hcell
  obtain ⟨j, minder, hj, hminds⟩ := h key c cell hentry hcell
  by_cases hji : j = i
  · subst hji
    rw [hi] at hj
    cases hj
    exact hown key c cell hentry hcell hminds
  · exact .inr ⟨j, minder, hji, hj, hminds⟩

theorem Minded.idle {caller' : Caller Response} (h : Minded s)
    (hi : s.callers[i]? = some caller) (hidle : ∀ c cell, s.cells[c]? = some cell →
      ¬ Minds caller c cell) : Minded (s.after i (s.quiet caller')) := by
  refine h.quiet hi ?_
  intro key c cell _ hcell hminds
  exact absurd hminds (hidle c cell hcell)

theorem Minds.place {c : ℕ} {cell : Cell Response} (h : Minds caller c cell) :
    caller.phase.cell = some c := by
  rcases h with ⟨hattends, -⟩ | ⟨⟨result, hp⟩, -⟩ | ⟨result, hp⟩
  · cases hp : caller.phase <;> rw [hp] at hattends <;> first | exact hattends | cases hattends
  · rw [hp]
    rfl
  · rw [hp]
    rfl

theorem Minds.unfinished {c : ℕ} {cell : Cell Response} (h : Minds caller c cell) :
    caller.phase.isFinished = false := by
  rcases h with ⟨hattends, -⟩ | ⟨⟨result, hp⟩, -⟩ | ⟨result, hp⟩
  · cases hp : caller.phase <;> rw [hp] at hattends <;> first | rfl | cases hattends
  · rw [hp]
    rfl
  · rw [hp]
    rfl

theorem not_minds {c : ℕ} {cell : Cell Response} (hp : caller.phase.cell = none) :
    ¬ Minds caller c cell := by
  intro h
  rw [h.place] at hp
  cases hp

theorem Minded.change {caller' : Caller Response} {c : ℕ} {cell cell' : Cell Response}
    (h : Minded s) (hi : s.callers[i]? = some caller) (hcell : s.cells[c]? = some cell)
    (hplace : caller.phase.cell = some c)
    (hown : Minds caller' c cell' ∨
      ∃ (j : ℕ) (minder : Caller Response), j ≠ i ∧ s.callers[j]? = some minder ∧
        Minds minder c cell') :
    Minded (s.after i ⟨s.inFlight, s.cells.set c cell', caller'⟩) := by
  refine Minded.after hi ?_
  intro key d cell'' hentry hcell''
  simp only [Tasks.getElem?_set hcell] at hcell''
  split_ifs at hcell'' with hdc
  · subst hdc
    cases hcell''
    exact hown
  · obtain ⟨j, minder, hj, hminds⟩ := h key d cell'' hentry hcell''
    refine .inr ⟨j, minder, ?_, hj, hminds⟩
    rintro rfl
    rw [hi] at hj
    cases hj
    exact hdc (Option.some.inj (hminds.place.symm.trans hplace))

theorem attended_by_another {c : ℕ} {cell cell' : Cell Response} {action : Action Response}
    (hcancel : action = .cancel) (hguard : ¬ Deserts s (.act i action))
    (hi : s.callers[i]? = some caller) (hattends : caller.phase.attends = some c)
    (hcell : s.cells[c]? = some cell) (hnone : cell.value = none)
    (hnone' : cell'.value = none) :
    ∃ (j : ℕ) (minder : Caller Response), j ≠ i ∧ s.callers[j]? = some minder ∧
      Minds minder c cell' := by
  subst hcancel
  by_contra hno
  apply hguard
  refine ⟨caller, c, cell, hi, hattends, hcell, hnone, ?_⟩
  intro j other hji hj hother
  exact hno ⟨j, other, hji, hj, .inl ⟨hother, hnone'⟩⟩

theorem Minded.moved {action : Action Response} {effect : Effect Response} (h : Minded s)
    (hc : Coalesced s) (hguard : ¬ Deserts s (.act i action)) (hi : s.callers[i]? = some caller)
    (hm : Moved s i caller action effect) : Minded (s.after i effect) := by
  cases hm with
  | @found key c hp hkey hentry =>
    refine h.idle hi ?_
    exact fun d cell _ => not_minds (by rw [hp]; rfl)
  | @made key hp hkey habsent =>
    refine Minded.after hi ?_
    intro key' c cell' hentry hcell'
    rw [AList.lookup_insert_ite] at hentry
    split_ifs at hentry with hk
    · cases hentry
      simp only [List.getElem?_concat_length, Option.some.injEq] at hcell'
      subst hcell'
      exact .inl (.inl ⟨rfl, rfl⟩)
    · obtain ⟨cell, hcell, -⟩ := hc.keyed key' c hentry
      have hlt := (List.getElem?_eq_some_iff.mp hcell).1
      rw [List.getElem?_append_left hlt] at hcell'
      obtain ⟨j, minder, hj, hminds⟩ := h key' c cell' hentry hcell'
      refine .inr ⟨j, minder, ?_, hj, hminds⟩
      rintro rfl
      rw [hi] at hj
      cases hj
      exact not_minds (by rw [hp]; rfl) hminds
  | @acquired c key hp hcell =>
    exact h.change hi hcell (by rw [hp]; rfl) (.inl (.inl ⟨rfl, rfl⟩))
  | @joins c cell value hp hcell hvalue =>
    refine h.idle hi ?_
    intro d other hother hminds
    have hplace := hminds.place
    rw [hp] at hplace
    cases hplace
    rw [hcell] at hother
    cases hother
    rcases hminds with ⟨-, hnone⟩ | ⟨⟨result, hq⟩, -⟩ | ⟨result, hq⟩
    · rw [hvalue] at hnone
      cases hnone
    · rw [hp] at hq
      cases hq
    · rw [hp] at hq
      cases hq
  | @forwarded outcome hp =>
    refine h.idle hi ?_
    exact fun d cell _ => not_minds (by rw [hp]; rfl)
  | @answered c outcome hp =>
    refine h.quiet hi ?_
    intro key d cell _ hcell hminds
    have hplace := hminds.place
    rw [hp] at hplace
    cases hplace
    obtain ⟨cell', hcell', -, hfits⟩ := hc.own i caller c hi (by rw [hp]; rfl)
    rw [hcell] at hcell'
    cases hcell'
    simp only [Fits, hp] at hfits
    exact .inl (.inl ⟨rfl, hfits.2.1⟩)
  | @settled c cell outcome hp hout hcell =>
    obtain ⟨cell', hcell', -, hfits⟩ := hc.own i caller c hi (by rw [hp]; rfl)
    simp only [Fits, hp] at hfits
    exact h.change hi hcell (by rw [hp]; rfl) (.inl (.inr (.inl ⟨⟨_, rfl⟩, hfits.2.2, rfl⟩)))
  | @idle c result hp hnothing =>
    refine h.idle hi ?_
    intro d cell hcell hminds
    have hplace := hminds.place
    rw [hp] at hplace
    cases hplace
    rcases hminds with ⟨hattends, -⟩ | ⟨-, hactive, hvalue⟩ | ⟨result', hq⟩
    · rw [hp] at hattends
      cases hattends
    · have hnone := hnothing hactive
      rw [hcell] at hnone
      simp only [Option.bind_some] at hnone
      rw [hnone] at hvalue
      cases hvalue
    · rw [hp] at hq
      cases hq
  | @removes c result hp =>
    refine h.quiet hi ?_
    intro key d cell _ _ hminds
    have hplace := hminds.place
    rw [hp] at hplace
    cases hplace
    exact .inl (.inr (.inr ⟨result, rfl⟩))
  | @removed c result key hp hkey hentry =>
    refine Minded.after hi ?_
    intro key' d cell hentry' hcell
    rw [AList.lookup_erase_ite] at hentry'
    split_ifs at hentry' with hk
    obtain ⟨j, minder, hj, hminds⟩ := h key' d cell hentry' hcell
    refine .inr ⟨j, minder, ?_, hj, hminds⟩
    rintro rfl
    rw [hi] at hj
    cases hj
    have hplace := hminds.place
    rw [hp] at hplace
    cases hplace
    -- A cell is in the map under one key only.
    obtain ⟨cell₁, hcell₁, hkey₁⟩ := hc.keyed key c hentry
    obtain ⟨cell₂, hcell₂, hkey₂⟩ := hc.keyed key' c hentry'
    rw [hcell₁] at hcell₂
    cases hcell₂
    exact hk (hkey₂.symm.trans hkey₁)
  | @kept c result hp hother =>
    refine h.quiet hi ?_
    intro key d cell hentry hcell hminds
    have hplace := hminds.place
    rw [hp] at hplace
    cases hplace
    obtain ⟨cell₁, hcell₁, hkey₁⟩ := hc.keyed key c hentry
    obtain ⟨cell₂, hcell₂, hkey₂, -⟩ := hc.own i caller c hi (by rw [hp]; rfl)
    rw [hcell₁] at hcell₂
    cases hcell₂
    rw [hkey₁] at hkey₂
    exact absurd hentry (hother key hkey₂)
  | unplaced hp =>
    refine h.idle hi ?_
    rcases hp with hp | hp
    · exact fun d cell _ => not_minds (by rw [hp]; rfl)
    · exact fun d cell _ => not_minds (by rw [hp]; rfl)
  | @waiter c hp =>
    refine h.quiet hi ?_
    intro key d cell _ hcell hminds
    have hplace := hminds.place
    rw [hp] at hplace
    cases hplace
    rcases hminds with ⟨-, hnone⟩ | ⟨⟨result, hq⟩, -⟩ | ⟨result, hq⟩
    · exact .inr (attended_by_another rfl hguard hi (by rw [hp]; rfl) hcell hnone hnone)
    · rw [hp] at hq
      cases hq
    · rw [hp] at hq
      cases hq
  | @sender c cell hp hcell =>
    obtain ⟨cell', hcell', -, hfits⟩ := hc.own i caller c hi (by rw [hp]; rfl)
    rw [hcell] at hcell'
    cases hcell'
    simp only [Fits, hp] at hfits
    refine h.change hi hcell (by rw [hp]; rfl) (.inr ?_)
    exact attended_by_another rfl hguard hi (by rw [hp]; rfl) hcell hfits.2.1 hfits.2.1

theorem Minded.send (h : Minded s) (request : HttpRequest) :
    Minded { s with callers := s.callers ++ [.new request] } := by
  intro key c cell hentry hcell
  obtain ⟨j, minder, hj, hminds⟩ := h key c cell hentry hcell
  refine ⟨j, minder, ?_, hminds⟩
  rw [← hj]
  exact List.getElem?_append_left (List.getElem?_eq_some_iff.mp hj).1

theorem minded_run {es : List (Event Response)}
    (run : Machine.Run (Machine.Guarded (fun s e => ¬ Deserts s e) (Machine.Computes step))
      start es t) : Coalesced t ∧ Minded t := by
  refine Machine.run_invariant (I := fun s => Coalesced s ∧ Minded s) ?_ run
    ⟨coalesced_start, minded_start⟩
  rintro s e t ⟨hc, h⟩ ⟨hguard, hs⟩
  refine ⟨hc.step hs, ?_⟩
  cases e with
  | send request =>
    cases hs
    exact h.send request
  | act i action =>
    obtain ⟨caller, effect, hi, hm, rfl⟩ := step_moved hs
    exact h.moved hc hguard hi hm

theorem empty_of_idle (h : Minded s) (hc : Coalesced s)
    (idle : ∀ (i : ℕ) caller, s.callers[i]? = some caller → caller.phase.isFinished = true) :
    s.inFlight = ∅ := by
  have hnone : ∀ key, s.inFlight.lookup key = none := by
    intro key
    by_contra hsome
    obtain ⟨c, hentry⟩ := Option.ne_none_iff_exists'.mp hsome
    obtain ⟨cell, hcell, -⟩ := hc.keyed key c hentry
    obtain ⟨j, minder, hj, hminds⟩ := h key c cell hentry hcell
    have hf := idle j minder hj
    rw [hminds.unfinished] at hf
    cases hf
  exact AList.ext (AList.entries_eq_nil_iff.mpr hnone)

/-- As long as no call is dropped as the last one at a cell without a value, the map is empty
whenever no call is active. -/
theorem nothing_left_behind {es : List (Event Response)}
    (run : Machine.Run (Machine.Guarded (fun s e => ¬ Deserts s e) (Machine.Computes step))
      start es t)
    (idle : ∀ (i : ℕ) caller, t.callers[i]? = some caller → caller.phase.isFinished = true) :
    t.inFlight = ∅ := by
  obtain ⟨hc, h⟩ := minded_run run
  exact empty_of_idle h hc idle

-- Two calls share an exchange, and the leader takes the entry out.
def slowRequest : HttpRequest where
  url := ⟨"http://localhost/slow", some "localhost"⟩

def shared : List (Event String) :=
  [.send slowRequest, .act 0 .lookUp, .act 0 .acquire, .send slowRequest, .act 1 .lookUp,
   .act 0 (.answer (.ok "page")), .act 0 .settle, .act 1 .join, .act 0 .leave, .act 0 .remove,
   .act 1 .leave]

def State.isIdle (s : State Response) : Bool := s.callers.all fun caller => caller.phase.isFinished

theorem State.isIdle_iff : s.isIdle = true ↔
    ∀ (i : ℕ) caller, s.callers[i]? = some caller → caller.phase.isFinished = true := by
  simp only [State.isIdle, List.all_eq_true]
  constructor
  · intro h i caller hi
    exact h caller (List.mem_of_getElem? hi)
  · intro h caller hmem
    obtain ⟨i, hi⟩ := List.mem_iff_getElem?.mp hmem
    exact h i caller hi

theorem nothing_left_behind_shared : ∃ t : State String,
    Machine.Run (Machine.Guarded (fun s e => ¬ Deserts s e) (Machine.Computes step))
      start shared t ∧ t.callers.length = 2 ∧ t.inFlight = ∅ := by
  have hrun : (shared.foldlM step start).map (fun t => (t.isIdle, t.callers.length)) =
      some (true, 2) := by decide +kernel
  obtain ⟨t, ht, hdata⟩ := Option.map_eq_some_iff.mp hrun
  obtain ⟨hidle, hlength⟩ := Prod.mk.inj hdata
  have hguarded : Machine.Run (Machine.Guarded (fun s e => ¬ Deserts s e)
      (Machine.Computes step)) start shared t := by
    refine (Machine.run_of_foldlM ht).guarded ?_
    intro e he u
    simp only [shared, List.mem_cons, List.not_mem_nil, or_false] at he
    rcases he with rfl | rfl | rfl | rfl | rfl | rfl | rfl | rfl | rfl | rfl | rfl <;>
      exact not_false
  exact ⟨t, hguarded, hlength, nothing_left_behind hguarded (State.isIdle_iff.mp hidle)⟩

def dropped : List (Event String) :=
  [.send slowRequest, .act 0 .lookUp, .act 0 .acquire, .act 0 .cancel, .act 0 .leave]

theorem entry_left_behind : ∃ t : State String,
    Machine.Run (Machine.Computes step) start dropped t ∧
      (∀ (i : ℕ) caller, t.callers[i]? = some caller → caller.phase.isFinished = true) ∧
      t.inFlight ≠ ∅ := by
  have hrun : (dropped.foldlM step start).map (fun t => (t.isIdle, t.inFlight.entries.length)) =
      some (true, 1) := by decide +kernel
  obtain ⟨t, ht, hdata⟩ := Option.map_eq_some_iff.mp hrun
  obtain ⟨hidle, hlength⟩ := Prod.mk.inj hdata
  refine ⟨t, Machine.run_of_foldlM ht, State.isIdle_iff.mp hidle, ?_⟩
  intro hempty
  rw [hempty] at hlength
  cases hlength

end Millipede.Coalesce
