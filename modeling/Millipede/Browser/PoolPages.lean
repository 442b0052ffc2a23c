import Millipede.Browser.PoolMoves

/-!
# Registered pages

A page id is registered at most once, and at most one task has the `closing` flag of a
registered page. Both rest on ids that have not come round.
-/

namespace Millipede.BrowserPool

variable {opts : BrowserPoolOptions} {s t : State} {i : ℕ} {phase : Phase} {effect : Effect}

structure Pages (s : State) : Prop where
  next : s.shared.nextPageId = (s.shared.issued + 1) % u64
  numbers : ∀ id, holders Phase.numbered id s.tasks +
    (s.shared.pool.pages.lookup id).isSome.toNat ≤ 1
  issued : ∀ id, 0 < holders Phase.numbered id s.tasks +
    (s.shared.pool.pages.lookup id).isSome.toNat → id ≤ s.shared.issued
  closers : ∀ id, holders Phase.closes id s.tasks =
    ((s.shared.pool.pages.lookup id).any PageEntry.closing).toNat
  entries : ∀ (j : ℕ) p id entry, s.tasks[j]? = some p → p.closeEntry = some (id, entry) →
    ∃ e, s.shared.pool.pages.lookup id = some e ∧ e.browserId = entry.browserId ∧
      e.page = entry.page

theorem Pages.keep (h : Pages s) (hi : s.tasks[i]? = some phase)
    (hpages : effect.shared.pool.pages = s.shared.pool.pages)
    (hnext : effect.shared.nextPageId = s.shared.nextPageId)
    (hissued : effect.shared.issued = s.shared.issued)
    (hcloses : ∀ id, holders Phase.closes id (effect.phase :: effect.spawned) =
      holders Phase.closes id [phase])
    (hnumbered : ∀ id, holders Phase.numbered id (effect.phase :: effect.spawned) ≤
      holders Phase.numbered id [phase])
    (hentry : ∀ p ∈ effect.phase :: effect.spawned, p.closeEntry = none ∨
      p.closeEntry = phase.closeEntry) : Pages (s.after i effect) := by
  constructor
  · simp only [State.after, hnext, hissued]
    exact h.next
  · intro id
    have hold := h.numbers id
    have hafter := holders_after Wake.numbered_apply hi effect id
    have hle := hnumbered id
    simp only [State.after, hpages] at hafter ⊢
    omega
  · intro id hpos
    have hafter := holders_after Wake.numbered_apply hi effect id
    have hle := hnumbered id
    simp only [State.after, hpages] at hafter hpos
    refine (h.issued id (by omega)).trans (le_of_eq ?_)
    exact hissued.symm
  · intro id
    have hafter := holders_after Wake.closes_apply hi effect id
    have heq := hcloses id
    have hold := h.closers id
    simp only [State.after, hpages] at hafter ⊢
    omega
  · intro j q id entry hj hq
    simp only [State.after, hpages]
    obtain ⟨-, rfl⟩ | ⟨-, p, hp, rfl⟩ | hnew := getElem?_after hi hj
    · obtain hnone | hsame := hentry _ List.mem_cons_self
      · rw [hnone] at hq
        cases hq
      · exact h.entries i phase id entry hi (hsame ▸ hq)
    · rw [Wake.closeEntry_apply] at hq
      exact h.entries j p id entry hp hq
    · obtain hnone | hsame := hentry q (List.mem_cons_of_mem _ hnew)
      · rw [hnone] at hq
        cases hq
      · exact h.entries i phase id entry hi (hsame ▸ hq)

theorem Pages.entries_after (h : Pages s) (hi : s.tasks[i]? = some phase)
    (hown : ∀ p ∈ effect.phase :: effect.spawned, ∀ id entry, p.closeEntry = some (id, entry) →
      ∃ e, effect.shared.pool.pages.lookup id = some e ∧ e.browserId = entry.browserId ∧
        e.page = entry.page)
    (hothers : ∀ (j : ℕ) p id entry e, j ≠ i → s.tasks[j]? = some p →
      p.closeEntry = some (id, entry) → s.shared.pool.pages.lookup id = some e →
      ∃ e', effect.shared.pool.pages.lookup id = some e' ∧ e'.browserId = e.browserId ∧
        e'.page = e.page) :
    ∀ (j : ℕ) p id entry, (s.after i effect).tasks[j]? = some p →
      p.closeEntry = some (id, entry) →
      ∃ e, effect.shared.pool.pages.lookup id = some e ∧ e.browserId = entry.browserId ∧
        e.page = entry.page := by
  intro j q id entry hj hq
  obtain ⟨-, rfl⟩ | ⟨hji, p, hp, rfl⟩ | hnew := getElem?_after hi hj
  · exact hown _ List.mem_cons_self id entry hq
  · rw [Wake.closeEntry_apply] at hq
    obtain ⟨e, he, hbrowser, hpage⟩ := h.entries j p id entry hp hq
    obtain ⟨e', he', hbrowser', hpage'⟩ := hothers j p id entry e hji hp hq he
    exact ⟨e', he', hbrowser'.trans hbrowser, hpage'.trans hpage⟩
  · exact hown q (List.mem_cons_of_mem _ hnew) id entry hq

theorem Pages.numbers_step {id : BrowserId} (h : Pages s)
    (hi : s.tasks[i]? = some (.numbering id)) (hbound : s.shared.issued + 1 < u64) :
    Pages (s.after i (s.shared.number.goes (.registering id s.shared.nextPageId))) := by
  have hnew : s.shared.nextPageId = s.shared.issued + 1 := by
    rw [h.next, Nat.mod_eq_of_lt hbound]
  have hafter := holders_after Wake.numbered_apply hi
    (s.shared.number.goes (.registering id s.shared.nextPageId))
  have hnone : ∀ k, holders Phase.numbered k [.numbering id] = 0 := fun _ => rfl
  have hone : ∀ k, holders Phase.numbered k [.registering id s.shared.nextPageId] =
      if s.shared.nextPageId = k then 1 else 0 := by
    intro k
    simp [holders, List.countP_singleton, Phase.numbered]
  constructor
  · simp only [State.after, Shared.goes, Shared.number, hnew]
  · intro k
    have hold := h.numbers k
    have hlt := h.issued k
    have hk := hafter k
    rw [hnone, Shared.goes, hone] at hk
    simp only [State.after, Shared.goes, Shared.number] at hk ⊢
    split_ifs at hk with heq
    · have hk' : k = s.shared.issued + 1 := heq.symm.trans hnew
      by_contra hmany
      have hle := hlt (by omega)
      omega
    · omega
  · intro k hpos
    have hlt := h.issued k
    have hk := hafter k
    rw [hnone, Shared.goes, hone] at hk
    simp only [State.after, Shared.goes, Shared.number] at hk hpos ⊢
    split_ifs at hk with heq
    · have hk' : k = s.shared.issued + 1 := heq.symm.trans hnew
      omega
    · have hle := hlt (by omega)
      omega
  · intro k
    have hk := holders_after Wake.closes_apply hi
      (s.shared.number.goes (.registering id s.shared.nextPageId)) k
    have hold := h.closers k
    have hzero : holders Phase.closes k [.numbering id] = 0 := rfl
    have hzero' : holders Phase.closes k [.registering id s.shared.nextPageId] = 0 := rfl
    rw [hzero, Shared.goes, hzero'] at hk
    simp only [State.after, Shared.goes, Shared.number] at hk ⊢
    omega
  · refine h.entries_after hi ?_ ?_
    · intro p hp
      rw [List.mem_singleton.mp hp]
      intro _ _ hentry
      cases hentry
    · intro _ _ _ _ e _ _ _ he
      exact ⟨e, he, rfl, rfl⟩

theorem Pages.change {id : PageId} {entry : Option PageEntry} (h : Pages s)
    (hi : s.tasks[i]? = some phase)
    (hlookup : ∀ k, effect.shared.pool.pages.lookup k =
      if k = id then entry else s.shared.pool.pages.lookup k)
    (hnext : effect.shared.nextPageId = s.shared.nextPageId)
    (hissued : effect.shared.issued = s.shared.issued)
    (hnumbered : ∀ k, holders Phase.numbered k (effect.phase :: effect.spawned) +
        (if k = id then entry.isSome.toNat else 0) ≤ holders Phase.numbered k [phase] +
        (if k = id then (s.shared.pool.pages.lookup id).isSome.toNat else 0))
    (hcloses : ∀ k, holders Phase.closes k (effect.phase :: effect.spawned) +
        (if k = id then ((s.shared.pool.pages.lookup id).any PageEntry.closing).toNat else 0) =
      holders Phase.closes k [phase] + if k = id then (entry.any PageEntry.closing).toNat else 0)
    (hown : ∀ p ∈ effect.phase :: effect.spawned, ∀ k copy, p.closeEntry = some (k, copy) →
      ∃ e, effect.shared.pool.pages.lookup k = some e ∧ e.browserId = copy.browserId ∧
        e.page = copy.page)
    (hothers : ∀ (j : ℕ) p copy e, j ≠ i → s.tasks[j]? = some p →
      p.closeEntry = some (id, copy) → s.shared.pool.pages.lookup id = some e →
      ∃ e', entry = some e' ∧ e'.browserId = e.browserId ∧ e'.page = e.page) :
    Pages (s.after i effect) := by
  constructor
  · simp only [State.after, hnext, hissued]
    exact h.next
  · intro k
    have hold := h.numbers k
    have hafter := holders_after Wake.numbered_apply hi effect k
    have hle := hnumbered k
    simp only [State.after, hlookup] at hafter ⊢
    split_ifs at hle ⊢ with hk
    · subst hk
      omega
    · omega
  · intro k hpos
    have hafter := holders_after Wake.numbered_apply hi effect k
    have hle := hnumbered k
    simp only [State.after, hlookup] at hafter hpos
    refine (h.issued k ?_).trans (le_of_eq hissued.symm)
    split_ifs at hle hpos with hk
    · subst hk
      omega
    · omega
  · intro k
    have hafter := holders_after Wake.closes_apply hi effect k
    have heq := hcloses k
    have hold := h.closers k
    simp only [State.after, hlookup] at hafter ⊢
    split_ifs at heq ⊢ with hk
    · subst hk
      omega
    · omega
  · refine h.entries_after hi hown ?_
    intro j p k copy e hji hp hcopy he
    rw [hlookup]
    split_ifs with hk
    · subst hk
      exact hothers j p copy e hji hp hcopy he
    · exact ⟨e, he, rfl, rfl⟩

theorem Pages.closes_unique (h : Pages s) {j : ℕ} {p q : Phase} {id : PageId}
    (hi : s.tasks[i]? = some p) (hj : s.tasks[j]? = some q) (hp : p.closes = some id)
    (hq : q.closes = some id) : i = j := by
  by_contra hij
  have hcount := h.closers id
  have hset := Tasks.total_set (f := fun p => holders Phase.closes id [p]) hi (.done true)
  have hother : (s.tasks.set i (.done true))[j]? = some q := by
    rw [Tasks.getElem?_set hi, if_neg (Ne.symm hij), hj]
  have hle := Tasks.le_total (f := fun p => holders Phase.closes id [p]) hother
  have hzero : holders Phase.closes id [.done true] = 0 := rfl
  rw [← holders_eq_total] at hset hle
  rw [← holders_eq_total, hzero, holders_singleton hp] at hset
  rw [holders_singleton hq] at hle
  have hflag : ((s.shared.pool.pages.lookup id).any PageEntry.closing).toNat ≤ 1 := Bool.toNat_le _
  omega

theorem closes_of_closeEntry {p : Phase} {id : PageId} {entry : PageEntry}
    (h : p.closeEntry = some (id, entry)) : p.closes = some id := by
  cases p <;> cases h <;> rfl

theorem Pages.registers {id : BrowserId} {pageId : PageId} (h : Pages s)
    (hi : s.tasks[i]? = some (.registering id pageId)) :
    Pages (s.after i (register s.shared i id pageId)) ∧
      s.shared.pool.pages.lookup pageId = none := by
  have hpos : 0 < holders Phase.numbered pageId s.tasks :=
    holders_pos (List.mem_of_getElem? hi) rfl
  have hfree : s.shared.pool.pages.lookup pageId = none := by
    have hone := h.numbers pageId
    cases hlookup : s.shared.pool.pages.lookup pageId with
    | none => rfl
    | some entry =>
      rw [hlookup] at hone
      simp only [Option.isSome_some, Bool.toNat_true] at hone
      omega
  refine ⟨?_, hfree⟩
  unfold register
  split_ifs
  · exact h.keep hi rfl rfl rfl (fun _ => rfl) (fun _ => Nat.zero_le _)
      (by simp [Phase.closeEntry, Shared.goes])
  · refine h.change hi (fun k => AList.lookup_insert_ite _ k pageId _) rfl rfl ?_ ?_ ?_ ?_
    · intro k
      have hnone : holders Phase.numbered k [Phase.done true] = 0 := rfl
      have hone : holders Phase.numbered k [.registering id pageId] =
          if k = pageId then 1 else 0 := by
        simp [holders, List.countP_singleton, Phase.numbered, eq_comm]
      simp only [hnone, hone, hfree]
      split_ifs <;> simp
    · intro k
      rw [hfree]
      simp only [Option.any_some, Option.any_none]
      exact rfl
    · intro p hp k copy hcopy
      rw [List.mem_singleton.mp hp] at hcopy
      cases hcopy
    · intro j p copy e _ _ _ he
      rw [hfree] at he
      cases he

theorem Pages.enters {id : PageId} (h : Pages s) (hi : s.tasks[i]? = some (.entering id)) :
    Pages (s.after i (enter s.shared id)) := by
  unfold enter
  split
  · exact h.keep hi rfl rfl rfl (fun _ => rfl) (fun _ => le_rfl)
      (by simp [Phase.closeEntry, Shared.goes])
  · rename_i entry hentry
    split_ifs with hclosing
    · exact h.keep hi rfl rfl rfl (fun _ => rfl) (fun _ => le_rfl)
        (by simp [Phase.closeEntry, Shared.goes])
    · refine h.change hi (fun k => AList.lookup_insert_ite _ k id _) rfl rfl ?_ ?_ ?_ ?_
      · intro k
        rw [hentry]
        exact le_rfl
      · intro k
        have hone : holders Phase.closes k [.preClosing id { entry with closing := true }] =
            if k = id then 1 else 0 := by
          simp [holders, List.countP_singleton, Phase.closes, eq_comm]
        have hzero : holders Phase.closes k [.entering id] = 0 := rfl
        simp only [Shared.goes, hone, hzero, hentry, Option.any_some, hclosing]
        split_ifs <;> rfl
      · intro p hp k copy hcopy
        rw [List.mem_singleton.mp hp] at hcopy
        cases hcopy
        exact ⟨_, AList.lookup_insert _, rfl, rfl⟩
      · intro j p copy e hji hj hcopy he
        rw [hentry] at he
        cases he
        exact ⟨_, rfl, rfl, rfl⟩

theorem Pages.finishes {id : PageId} {entry : PageEntry} {result : Bool} (h : Pages s)
    (hi : s.tasks[i]? = some (.finishing id entry result)) :
    Pages (s.after i (finish opts s.shared id entry result)) := by
  obtain ⟨e, he, -⟩ := h.entries i _ id entry hi rfl
  have hpos : 0 < holders Phase.closes id s.tasks := holders_pos (List.mem_of_getElem? hi) rfl
  have hclosing : e.closing = true := by
    have hcount := h.closers id
    rw [he, Option.any_some] at hcount
    cases hc : e.closing with
    | true => rfl
    | false =>
      rw [hc] at hcount
      simp only [Bool.toNat_false] at hcount
      omega
  refine h.change hi (fun k => AList.lookup_erase_ite _ k id) rfl rfl ?_ ?_ ?_ ?_
  · intro k
    have hzero : ∀ taken, holders Phase.numbered k [.finished id taken result] = 0 := fun _ => rfl
    simp only [finish, hzero, Option.isSome_none, Bool.toNat_false]
    split_ifs <;> exact Nat.zero_le _
  · intro k
    have hone : holders Phase.closes k [.finishing id entry result] = if k = id then 1 else 0 := by
      simp [holders, List.countP_singleton, Phase.closes, eq_comm]
    have hzero : ∀ taken, holders Phase.closes k [.finished id taken result] = 0 := fun _ => rfl
    simp only [finish, hone, hzero, he, Option.any_some, hclosing, Option.any_none]
    split_ifs <;> rfl
  · intro p hp k copy hcopy
    rw [List.mem_singleton.mp hp] at hcopy
    cases hcopy
  · intro j p copy e' hji hj hcopy _
    exact absurd (h.closes_unique hi hj rfl (closes_of_closeEntry hcopy)).symm hji

theorem PoolState.lookup_unclose (pool : PoolState) (id k : PageId) :
    (pool.unclose id).pages.lookup k =
      if k = id then (pool.pages.lookup id).map fun entry => { entry with closing := false }
      else pool.pages.lookup k := by
  unfold PoolState.unclose
  split
  · rename_i hnone
    split_ifs with hk
    · rw [hk, hnone]
      rfl
    · rfl
  · rename_i entry hentry
    rw [AList.lookup_insert_ite, hentry]
    rfl

theorem Pages.uncloses {id : PageId} (h : Pages s) (hi : s.tasks[i]? = some phase)
    (hcloses : ∀ k, holders Phase.closes k [phase] = holders Phase.closes k [.resetting id]) :
    Pages (s.after i ((s.shared.setPool (s.shared.pool.unclose id)).goes (.reset id))) := by
  have hone : ∀ k, holders Phase.closes k [.resetting id] = if k = id then 1 else 0 := by
    intro k
    simp [holders, List.countP_singleton, Phase.closes, eq_comm]
  have hphase : phase.closes = some id := by
    by_contra hne
    have hid := hcloses id
    rw [hone, if_pos rfl] at hid
    simp [holders, hne] at hid
  have hpos : 0 < holders Phase.closes id s.tasks := holders_pos (List.mem_of_getElem? hi) hphase
  have hcount := h.closers id
  cases hentry : s.shared.pool.pages.lookup id with
  | none =>
    rw [hentry] at hcount
    simp only [Option.any_none, Bool.toNat_false] at hcount
    omega
  | some e =>
    have hclosing : e.closing = true := by
      rw [hentry, Option.any_some] at hcount
      cases hc : e.closing with
      | true => rfl
      | false =>
        rw [hc] at hcount
        simp only [Bool.toNat_false] at hcount
        omega
    refine h.change hi (fun k => PoolState.lookup_unclose _ id k) rfl rfl ?_ ?_ ?_ ?_
    · intro k
      have hzero : holders Phase.numbered k [.reset id] = 0 := rfl
      simp only [Shared.goes, hzero, hentry, Option.map_some, Option.isSome_some]
      exact Nat.add_le_add_right (Nat.zero_le _) _
    · intro k
      have hzero : holders Phase.closes k [.reset id] = 0 := rfl
      simp only [Shared.goes, hzero, hcloses, hone, hentry, Option.any_some, hclosing,
        Option.map_some]
      split_ifs <;> rfl
    · intro p hp k copy hcopy
      rw [List.mem_singleton.mp hp] at hcopy
      cases hcopy
    · intro j p copy e' hji hj hcopy he'
      rw [hentry] at he' ⊢
      cases he'
      exact ⟨_, rfl, rfl, rfl⟩

theorem Pages.elsewhere {shared : Shared} {phase' : Phase} (h : Pages s)
    (hi : s.tasks[i]? = some phase) (hpages : shared.pool.pages = s.shared.pool.pages)
    (hnext : shared.nextPageId = s.shared.nextPageId) (hissued : shared.issued = s.shared.issued)
    (hcloses : phase'.closes = phase.closes) (hnumbered : phase'.numbered = none)
    (hentry : phase'.closeEntry = none) : Pages (s.after i (shared.goes phase')) := by
  refine h.keep hi hpages hnext hissued ?_ ?_ ?_
  · intro id
    simp only [Shared.goes, holders, List.countP_singleton, hcloses]
  · intro id
    simp [Shared.goes, holders, hnumbered]
  · intro p hp
    rw [List.mem_singleton.mp hp]
    exact .inl hentry

theorem Pages.does (h : Pages s) (hi : s.tasks[i]? = some phase)
    (hd : Does opts s i phase effect) (hbound : effect.shared.issued < u64) :
    Pages (s.after i effect) := by
  cases hd with
  | quiet hsame hpasses =>
    exact h.keep hi (by rw [hsame.pool]) hsame.nextPageId hsame.issued hpasses.closes
      hpasses.numbered hpasses.closeEntry
  | chooses notified =>
    obtain ⟨-, heq⟩ | ⟨slot, -, heq⟩ | ⟨-, heq⟩ | ⟨-, -, -, heq⟩ :=
      choose_cases opts s.shared notified
    · rw [heq]
      exact h.elsewhere hi rfl rfl rfl rfl rfl rfl
    · rw [heq]
      exact h.elsewhere hi rfl rfl rfl rfl rfl rfl
    · rw [heq]
      exact h.elsewhere hi rfl rfl rfl rfl rfl rfl
    · rw [heq]
      exact h.elsewhere hi rfl rfl rfl rfl rfl rfl
  | installs id =>
    unfold install
    split_ifs
    · exact h.elsewhere hi rfl rfl rfl rfl rfl rfl
    · split
      · exact h.elsewhere hi rfl rfl rfl rfl rfl rfl
      · exact h.elsewhere hi rfl rfl rfl rfl rfl rfl
  | unlists id hlaunched hpasses hnothing =>
    refine h.keep hi rfl rfl rfl ?_ ?_ ?_
    · intro k
      have hnone : holders Phase.closes k [phase] = 0 := by simp [holders, hnothing.2]
      have hafter := hpasses.closes k
      rw [hnone]
      exact hafter
    · intro k
      have hafter := hpasses.numbered k
      exact hafter.trans (Nat.zero_le _)
    · intro p hp
      obtain hnone | hsame := hpasses.closeEntry p hp
      · exact .inl hnone
      · exact .inl hsame
  | numbers id => exact h.numbers_step hi hbound
  | registers id pageId => exact (h.registers hi).1
  | rolls_back id => exact h.elsewhere hi rfl rfl rfl rfl rfl rfl
  | enters id => exact h.enters hi
  | finishes id entry result => exact h.finishes hi
  | uncloses id hcloses hnothing => exact h.uncloses hi hcloses
  | marks => exact h.elsewhere hi rfl rfl rfl rfl rfl rfl
  | takes => exact h.elsewhere hi rfl rfl rfl rfl rfl rfl
  | finalizes commands =>
    refine h.keep hi ?_ rfl rfl (fun _ => rfl) (fun _ => le_rfl) ?_
    · simp only [PoolState.takeAll]
      split_ifs <;> rfl
    · intro p hp
      rw [List.mem_singleton.mp hp]
      exact .inl rfl

theorem Pages.begins {shared : Shared} {phases : List Phase} (h : Pages s)
    (hsame : s.shared.SamePool shared) (hphases : ∀ p ∈ phases, p.begins = true) :
    Pages ⟨shared, s.tasks ++ phases⟩ := by
  have hcloses : ∀ id, holders Phase.closes id phases = 0 :=
    fun id => holders_eq_zero fun p hp => (Phase.holds_nothing (hphases p hp)).2.2.1
  have hnumbered : ∀ id, holders Phase.numbered id phases = 0 :=
    fun id => holders_eq_zero fun p hp => (Phase.holds_nothing (hphases p hp)).2.2.2.1
  constructor
  · rw [hsame.nextPageId, hsame.issued]
    exact h.next
  · intro id
    rw [holders_append, hnumbered, hsame.pool]
    exact h.numbers id
  · intro id
    rw [holders_append, hnumbered, hsame.pool, hsame.issued]
    exact h.issued id
  · intro id
    rw [holders_append, hcloses, hsame.pool]
    exact h.closers id
  · intro j p id entry hj hentry
    rw [hsame.pool]
    simp only [List.getElem?_append] at hj
    split_ifs at hj with hlt
    · exact h.entries j p id entry hj hentry
    · have hp := hphases p (List.mem_of_getElem? hj)
      rw [(Phase.holds_nothing hp).2.2.2.2] at hentry
      cases hentry

theorem Pages.step {e : Event} (h : Pages s) (hs : step opts s e = some t)
    (hbound : t.shared.issued < u64) : Pages t := by
  obtain ⟨shared, phases, rfl, hsame, hphases⟩ | rfl | ⟨i, phase, action, effect, -, hi, ha, rfl⟩ :=
    step_cases hs
  · exact h.begins hsame hphases
  · have hnew : s.shared.issued + 1 < u64 := hbound
    refine ⟨?_, h.numbers, ?_, h.closers, h.entries⟩
    · simp only [Shared.number]
      rw [h.next, Nat.mod_eq_of_lt hnew]
    · intro id hpos
      exact (h.issued id hpos).trans (Nat.le_succ _)
  · exact h.does hi (act_does ha) hbound

theorem pages_start : Pages start where
  next := rfl
  numbers := fun _ => by simp [start, PoolState.new]
  issued := fun _ hpos => by simp [start, PoolState.new] at hpos
  closers := fun _ => by simp [start, PoolState.new]
  entries := fun _ _ _ _ h => nomatch h

end Millipede.BrowserPool
