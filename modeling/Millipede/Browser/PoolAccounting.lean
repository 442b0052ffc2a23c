import Millipede.Browser.PoolPages
import Millipede.Browser.PoolWakeups

/-!
# The accounts of the browser pool

For every browser, `in_flight_pages` counts the tasks that hold one of its reservations and
`open_pages` the registered pages beside them. A slot that is being launched has no pages
and one task that will install or remove it. A browser without a slot counts as a slot in
which everything is zero, so that one equation holds for every id.
-/

namespace Millipede.BrowserPool

variable {opts : BrowserPoolOptions} {s t : State} {i : ℕ} {phase : Phase} {effect : Effect}

def BrowserSlot.absent (id : BrowserId) : BrowserSlot where
  id := id
  browser := false
  openPages := 0
  inFlightPages := 0
  pagesCreated := 0
  launching := false
  retired := false

def PoolState.slotD (pool : PoolState) (id : BrowserId) : BrowserSlot :=
  (pool.slot id).getD (.absent id)

def PoolState.registered (pool : PoolState) (id : BrowserId) : ℕ :=
  pool.pages.values.countP fun entry => decide (entry.browserId = id)

/-- The accounts of a slot, with its registered pages and the tasks that hold its reservations
or its launch. -/
structure BrowserSlot.Balanced (opts : BrowserPoolOptions) (slot : BrowserSlot)
    (registered reserved launched : ℕ) : Prop where
  open_eq : slot.openPages = registered + slot.inFlightPages
  in_flight : slot.inFlightPages = reserved
  in_flight_le : slot.inFlightPages ≤ slot.pagesCreated
  open_le : slot.openPages ≤ opts.maxOpenPagesPerBrowser
  created_le : slot.pagesCreated ≤ opts.retireBrowserAfterPageCount
  launched : launched = slot.launching.toNat
  fresh : slot.launching = true → slot.openPages = 0 ∧ slot.pagesCreated = 0

structure Accounts (opts : BrowserPoolOptions) (s : State) : Prop where
  nodup : (s.shared.pool.browsers.map BrowserSlot.id).Nodup
  ids : ∀ slot ∈ s.shared.pool.browsers, slot.id ≤ s.shared.launched
  next : s.shared.pool.nextBrowserId = (s.shared.launched + 1) % u64
  live : ∀ maximum, opts.maxBrowsers = some maximum →
    s.shared.pool.browsers.countP BrowserSlot.isLive ≤ maximum
  balanced : ∀ id, (s.shared.pool.slotD id).Balanced opts (s.shared.pool.registered id)
    (holders Phase.reserved id s.tasks) (holders Phase.launched id s.tasks)

theorem PoolState.slotD_of_slot {pool : PoolState} {id : BrowserId} {slot : BrowserSlot}
    (h : pool.slot id = some slot) : pool.slotD id = slot := by
  rw [PoolState.slotD, h]
  rfl

theorem PoolState.slot_of_slotD {pool : PoolState} {id : BrowserId}
    (h : (pool.slotD id).openPages ≠ 0 ∨ (pool.slotD id).launching = true) :
    pool.slot id = some (pool.slotD id) := by
  unfold PoolState.slotD at h ⊢
  cases hslot : pool.slot id with
  | some slot => rfl
  | none =>
    rw [hslot] at h
    rcases h with h | h
    · exact absurd rfl h
    · cases h

theorem PoolState.slotD_update {pool : PoolState} {id : BrowserId} {slot : BrowserSlot}
    {f : BrowserSlot → BrowserSlot} (hslot : pool.slot id = some slot)
    (hid : (f slot).id = slot.id) (hnodup : (pool.browsers.map BrowserSlot.id).Nodup)
    (k : BrowserId) : (pool.update id f).slotD k = if k = id then f slot else pool.slotD k := by
  have hkey : slot.id = id := List.key_of_lookupBy hslot
  have hlookup := List.lookupBy_updateFirst BrowserSlot.id (f := f) hslot hid hnodup k
  simp only [PoolState.slotD, PoolState.slot, PoolState.update]
  rw [hlookup, hkey]
  split_ifs <;> rfl

theorem PoolState.map_id_update {pool : PoolState} {id : BrowserId}
    {f : BrowserSlot → BrowserSlot} (hid : ∀ slot, (f slot).id = slot.id) :
    (pool.update id f).browsers.map BrowserSlot.id = pool.browsers.map BrowserSlot.id :=
  List.map_updateFirst fun slot _ => hid slot

theorem PoolState.live_update {pool : PoolState} {id : BrowserId} {f : BrowserSlot → BrowserSlot}
    (hlive : ∀ slot, pool.slot id = some slot → (f slot).isLive = true → slot.isLive = true) :
    (pool.update id f).browsers.countP BrowserSlot.isLive ≤
      pool.browsers.countP BrowserSlot.isLive := by
  cases hslot : pool.slot id with
  | none =>
    refine le_of_eq ?_
    simp only [PoolState.update]
    rw [List.updateFirst_of_find?_eq_none hslot]
  | some slot =>
    have hcount := List.countP_updateFirst (q := BrowserSlot.isLive) (f := f) hslot
    have hle : (f slot).isLive.toNat ≤ slot.isLive.toNat := by
      cases hf : (f slot).isLive with
      | false => exact Nat.zero_le _
      | true => rw [hlive slot hslot hf]
    simp only [PoolState.update]
    omega

theorem mem_ids_iff {pool : PoolState} {n : ℕ} :
    (∀ slot ∈ pool.browsers, slot.id ≤ n) ↔
      ∀ id ∈ pool.browsers.map BrowserSlot.id, id ≤ n := by
  simp only [List.mem_map, forall_exists_index, and_imp, forall_apply_eq_imp_iff₂]

theorem Accounts.after (h : Accounts opts s) (hi : s.tasks[i]? = some phase)
    (hids : effect.shared.pool.browsers.map BrowserSlot.id =
      s.shared.pool.browsers.map BrowserSlot.id)
    (hlaunched : effect.shared.launched = s.shared.launched)
    (hnext : effect.shared.pool.nextBrowserId = s.shared.pool.nextBrowserId)
    (hlive : effect.shared.pool.browsers.countP BrowserSlot.isLive ≤
      s.shared.pool.browsers.countP BrowserSlot.isLive)
    (hbalanced : ∀ k reserved launched,
      reserved + holders Phase.reserved k [phase] = holders Phase.reserved k s.tasks +
        holders Phase.reserved k (effect.phase :: effect.spawned) →
      launched + holders Phase.launched k [phase] = holders Phase.launched k s.tasks +
        holders Phase.launched k (effect.phase :: effect.spawned) →
      (effect.shared.pool.slotD k).Balanced opts (effect.shared.pool.registered k) reserved
        launched) :
    Accounts opts (s.after i effect) := by
  refine ⟨?_, ?_, ?_, ?_, ?_⟩
  · simp only [State.after, hids]
    exact h.nodup
  · rw [mem_ids_iff]
    simp only [State.after, hids, hlaunched]
    exact mem_ids_iff.mp h.ids
  · simp only [State.after, hlaunched, hnext]
    exact h.next
  · intro maximum hmax
    exact hlive.trans (h.live maximum hmax)
  · intro k
    exact hbalanced k _ _ (holders_after Wake.reserved_apply hi effect k)
      (holders_after Wake.launched_apply hi effect k)

/-- Nothing is counted that was not, and nothing is lost. -/
def SameHolders (phase : Phase) (phases : List Phase) (k : BrowserId) : Prop :=
  holders Phase.reserved k phases = holders Phase.reserved k [phase] ∧
    holders Phase.launched k phases = holders Phase.launched k [phase]

theorem Accounts.balanced_same {k : BrowserId} {reserved launched : ℕ} (h : Accounts opts s)
    (hholders : SameHolders phase (effect.phase :: effect.spawned) k)
    (hr : reserved + holders Phase.reserved k [phase] = holders Phase.reserved k s.tasks +
      holders Phase.reserved k (effect.phase :: effect.spawned))
    (hl : launched + holders Phase.launched k [phase] = holders Phase.launched k s.tasks +
      holders Phase.launched k (effect.phase :: effect.spawned)) :
    (s.shared.pool.slotD k).Balanced opts (s.shared.pool.registered k) reserved launched := by
  rw [hholders.1] at hr
  rw [hholders.2] at hl
  rw [Nat.add_right_cancel hr, Nat.add_right_cancel hl]
  exact h.balanced k

theorem Accounts.keep (h : Accounts opts s) (hi : s.tasks[i]? = some phase)
    (hbrowsers : effect.shared.pool.browsers = s.shared.pool.browsers)
    (hlaunched : effect.shared.launched = s.shared.launched)
    (hnext : effect.shared.pool.nextBrowserId = s.shared.pool.nextBrowserId)
    (hregistered : ∀ k, effect.shared.pool.registered k = s.shared.pool.registered k)
    (hholders : ∀ k, SameHolders phase (effect.phase :: effect.spawned) k) :
    Accounts opts (s.after i effect) := by
  refine h.after hi (by rw [hbrowsers]) hlaunched hnext (by rw [hbrowsers]) ?_
  intro k reserved launched hr hl
  have hslot : effect.shared.pool.slotD k = s.shared.pool.slotD k := by
    simp only [PoolState.slotD, PoolState.slot, hbrowsers]
  rw [hslot, hregistered]
  exact h.balanced_same (hholders k) hr hl

theorem Accounts.change (h : Accounts opts s) (id : BrowserId) (slot : BrowserSlot)
    (hi : s.tasks[i]? = some phase)
    (hids : effect.shared.pool.browsers.map BrowserSlot.id =
      s.shared.pool.browsers.map BrowserSlot.id)
    (hlaunched : effect.shared.launched = s.shared.launched)
    (hnext : effect.shared.pool.nextBrowserId = s.shared.pool.nextBrowserId)
    (hlive : effect.shared.pool.browsers.countP BrowserSlot.isLive ≤
      s.shared.pool.browsers.countP BrowserSlot.isLive)
    (hslots : ∀ k, effect.shared.pool.slotD k = if k = id then slot else s.shared.pool.slotD k)
    (hregistered : ∀ k, k ≠ id → effect.shared.pool.registered k = s.shared.pool.registered k)
    (hothers : ∀ k, k ≠ id → SameHolders phase (effect.phase :: effect.spawned) k)
    (hbalanced : ∀ reserved launched,
      reserved + holders Phase.reserved id [phase] = holders Phase.reserved id s.tasks +
        holders Phase.reserved id (effect.phase :: effect.spawned) →
      launched + holders Phase.launched id [phase] = holders Phase.launched id s.tasks +
        holders Phase.launched id (effect.phase :: effect.spawned) →
      slot.Balanced opts (effect.shared.pool.registered id) reserved launched) :
    Accounts opts (s.after i effect) := by
  refine h.after hi hids hlaunched hnext hlive ?_
  intro k reserved launched hr hl
  have hslot := hslots k
  by_cases hk : k = id
  · subst hk
    rw [if_pos rfl] at hslot
    rw [hslot]
    exact hbalanced reserved launched hr hl
  · rw [if_neg hk] at hslot
    rw [hslot, hregistered k hk]
    exact h.balanced_same (hothers k hk) hr hl

theorem holders_some {f : Phase → Option ℕ} {p : Phase} {id : ℕ} (hf : f p = some id) (k : ℕ) :
    holders f k [p] = if k = id then 1 else 0 := by
  simp [holders, List.countP_singleton, hf, eq_comm]

theorem holders_none {f : Phase → Option ℕ} {p : Phase} (hf : f p = none) (k : ℕ) :
    holders f k [p] = 0 := by
  simp [holders, hf]

theorem Accounts.reserves {notified : Bool} {slot : BrowserSlot} (h : Accounts opts s)
    (hi : s.tasks[i]? = some (.choosing notified))
    (hfind : s.shared.pool.browsers.find? (BrowserSlot.available opts) = some slot) :
    Accounts opts (s.after i ((s.shared.setPool { s.shared.pool with
      browsers := s.shared.pool.browsers.updateFirst (BrowserSlot.available opts) .reserve }).goes
      (.creating slot.id))) := by
  have havailable := List.find?_some hfind
  simp only [BrowserSlot.available, Bool.and_eq_true, decide_eq_true_eq,
    Bool.not_eq_true'] at havailable
  obtain ⟨⟨⟨⟨-, hlaunching⟩, -⟩, hopen⟩, hcreated⟩ := havailable
  have hslot : s.shared.pool.slotD slot.id = slot :=
    PoolState.slotD_of_slot (List.lookupBy_of_mem h.nodup (List.mem_of_find?_eq_some hfind))
  refine h.change slot.id slot.reserve hi (List.map_updateFirst fun _ _ => rfl) rfl rfl ?_ ?_
    (fun _ _ => rfl) ?_ ?_
  · have hcount := List.countP_updateFirst (q := BrowserSlot.isLive)
      (f := BrowserSlot.reserve) hfind
    have hsame : slot.reserve.isLive = slot.isLive := rfl
    rw [hsame] at hcount
    exact le_of_eq (Nat.add_right_cancel hcount)
  · intro k
    have hlookup := List.lookupBy_updateFirst BrowserSlot.id (f := BrowserSlot.reserve) hfind rfl
      h.nodup k
    simp only [PoolState.slotD, PoolState.slot, Shared.goes, Shared.setPool]
    rw [hlookup]
    split_ifs <;> rfl
  · intro k hk
    constructor
    · rw [Shared.goes, holders_some (p := .creating slot.id) rfl, if_neg hk, holders_none rfl]
    · rw [Shared.goes, holders_none rfl, holders_none rfl]
  · intro reserved launched hr hl
    rw [Shared.goes, holders_some (p := .creating slot.id) rfl, if_pos rfl, holders_none rfl] at hr
    rw [Shared.goes, holders_none rfl, holders_none rfl] at hl
    have hb := h.balanced slot.id
    rw [hslot] at hb
    refine ⟨?_, ?_, ?_, ?_, ?_, ?_, ?_⟩
    · have hold := hb.open_eq
      simp only [BrowserSlot.reserve]
      show _ = s.shared.pool.registered slot.id + _
      omega
    · have hold := hb.in_flight
      simp only [BrowserSlot.reserve]
      omega
    · have hold := hb.in_flight_le
      simp only [BrowserSlot.reserve]
      omega
    · simp only [BrowserSlot.reserve]
      omega
    · simp only [BrowserSlot.reserve]
      omega
    · have hold := hb.launched
      simp only [BrowserSlot.reserve]
      omega
    · intro hlaunch
      have hlaunch : slot.launching = true := hlaunch
      rw [hlaunching] at hlaunch
      cases hlaunch

theorem Shared.slotD_launch {s : Shared} (hfresh : s.pool.slot s.pool.nextBrowserId = none)
    (k : BrowserId) : s.launch.pool.slotD k =
      if k = s.pool.nextBrowserId then .new k else s.pool.slotD k := by
  simp only [PoolState.slot] at hfresh
  simp only [PoolState.slotD, PoolState.slot, Shared.launch, List.lookupBy_append_singleton]
  by_cases hk : k = s.pool.nextBrowserId
  · rw [if_pos hk, hk, hfresh]
    simp [BrowserSlot.new]
  · have hne : (BrowserSlot.new s.pool.nextBrowserId).id ≠ k := fun heq => hk heq.symm
    rw [if_neg hk, if_neg hne, Option.or_none]

theorem Accounts.launches {notified : Bool} (h : Accounts opts s)
    (hi : s.tasks[i]? = some (.choosing notified))
    (hallowed : s.shared.pool.launchAllowed opts = true)
    (hbound : s.shared.launched + 1 < u64) :
    Accounts opts (s.after i (s.shared.launch.goes (.launching s.shared.pool.nextBrowserId))) := by
  have hnew : s.shared.pool.nextBrowserId = s.shared.launched + 1 := by
    rw [h.next, Nat.mod_eq_of_lt hbound]
  have hfresh : s.shared.pool.slot s.shared.pool.nextBrowserId = none := by
    cases hslot : s.shared.pool.slot s.shared.pool.nextBrowserId with
    | none => rfl
    | some slot =>
      have hle := h.ids slot (List.mem_of_lookupBy hslot)
      have hid : slot.id = s.shared.pool.nextBrowserId := List.key_of_lookupBy hslot
      rw [hid, hnew] at hle
      exact absurd hle (Nat.not_succ_le_self _)
  refine ⟨?_, ?_, ?_, ?_, ?_⟩
  · simp only [State.after, Shared.goes, Shared.launch, List.map_append, List.map_cons,
      List.map_nil]
    refine List.nodup_append.mpr ⟨h.nodup, List.nodup_singleton _, ?_⟩
    intro a ha b hb
    rw [List.mem_singleton.mp hb]
    rintro rfl
    obtain ⟨slot, hslot, hid⟩ := List.mem_map.mp ha
    have hle := h.ids slot hslot
    rw [hid] at hle
    have hle' : s.shared.pool.nextBrowserId ≤ s.shared.launched := hle
    rw [hnew] at hle'
    exact absurd hle' (Nat.not_succ_le_self _)
  · intro slot hslot
    simp only [State.after, Shared.goes, Shared.launch, List.mem_append,
      List.mem_singleton] at hslot ⊢
    rcases hslot with hslot | rfl
    · exact (h.ids slot hslot).trans (Nat.le_succ _)
    · exact le_of_eq hnew
  · simp only [State.after, Shared.goes, Shared.launch, hnew]
  · intro maximum hmax
    simp only [PoolState.launchAllowed, hmax, Option.all_some, decide_eq_true_eq] at hallowed
    simp only [State.after, Shared.goes, Shared.launch, List.countP_append, List.countP_singleton]
    have hone :
        (if (BrowserSlot.new s.shared.pool.nextBrowserId).isLive = true then 1 else 0) = 1 := rfl
    rw [hone]
    exact hallowed
  · intro k
    have hr := holders_after Wake.reserved_apply hi
      (s.shared.launch.goes (.launching s.shared.pool.nextBrowserId)) k
    have hl := holders_after Wake.launched_apply hi
      (s.shared.launch.goes (.launching s.shared.pool.nextBrowserId)) k
    rw [Shared.goes, holders_none rfl, holders_none rfl] at hr
    rw [Shared.goes, holders_none rfl,
      holders_some (p := .launching s.shared.pool.nextBrowserId) rfl] at hl
    have hslot := Shared.slotD_launch hfresh k
    have hb := h.balanced k
    show BrowserSlot.Balanced opts ((s.shared.launch.pool).slotD k) (s.shared.pool.registered k) _ _
    simp only [Shared.goes]
    rw [hslot]
    by_cases hk : k = s.shared.pool.nextBrowserId
    · rw [if_pos hk] at hl ⊢
      have habsent : s.shared.pool.slotD k = .absent k := by
        rw [hk, PoolState.slotD, hfresh]
        rfl
      rw [habsent] at hb
      have hopen := hb.open_eq
      have hflight := hb.in_flight
      have hlaunch := hb.launched
      simp only [BrowserSlot.absent] at hopen hflight hlaunch
      refine ⟨?_, ?_, le_rfl, Nat.zero_le _, Nat.zero_le _, ?_, fun _ => ⟨rfl, rfl⟩⟩
      · simp only [BrowserSlot.new]
        omega
      · simp only [BrowserSlot.new]
        omega
      · simp only [BrowserSlot.new, Bool.toNat_true, Bool.toNat_false] at hlaunch ⊢
        omega
    · rw [if_neg hk] at hl ⊢
      have hr' := Nat.add_right_cancel hr
      have hl' := Nat.add_right_cancel hl
      rw [hr', hl']
      exact hb

theorem Accounts.launching {id : BrowserId} (h : Accounts opts s)
    (hi : s.tasks[i]? = some phase) (hlaunched : phase.launched = some id) :
    ∃ slot, s.shared.pool.slot id = some slot ∧ slot.launching = true := by
  have hpos : 0 < holders Phase.launched id s.tasks :=
    holders_pos (List.mem_of_getElem? hi) hlaunched
  have hl := (h.balanced id).launched
  have hlaunching : (s.shared.pool.slotD id).launching = true := by
    cases hc : (s.shared.pool.slotD id).launching with
    | true => rfl
    | false =>
      rw [hc, Bool.toNat_false] at hl
      omega
  exact ⟨_, PoolState.slot_of_slotD (.inr hlaunching), hlaunching⟩

theorem Accounts.installs {id : BrowserId} (h : Accounts opts s)
    (hi : s.tasks[i]? = some (.installing id)) :
    Accounts opts (s.after i (install s.shared id)) := by
  obtain ⟨slot, hslot, hlaunching⟩ := h.launching hi rfl
  unfold install
  split_ifs
  · exact h.keep hi rfl rfl rfl (fun _ => rfl) (fun _ => ⟨rfl, rfl⟩)
  · rw [hslot]
    refine h.change id slot.install hi (PoolState.map_id_update fun _ => rfl) rfl rfl ?_
      (PoolState.slotD_update hslot rfl h.nodup) (fun _ _ => rfl) ?_ ?_
    · refine PoolState.live_update ?_
      intro other hother _
      rw [hslot] at hother
      cases hother
      simp [BrowserSlot.isLive, hlaunching]
    · intro k hk
      constructor
      · rw [Shared.goes, holders_none rfl, holders_none rfl]
      · rw [Shared.goes, holders_none rfl, holders_some (p := .installing id) rfl, if_neg hk]
    · intro reserved launched hr hl
      rw [Shared.goes, holders_none rfl, holders_none rfl] at hr
      rw [Shared.goes, holders_some (p := .installing id) rfl, if_pos rfl, holders_none rfl] at hl
      have hb := h.balanced id
      rw [PoolState.slotD_of_slot hslot] at hb
      have hold := hb.launched
      rw [hlaunching, Bool.toNat_true] at hold
      refine ⟨hb.open_eq, ?_, hb.in_flight_le, hb.open_le, hb.created_le, ?_, ?_⟩
      · have hflight := hb.in_flight
        simp only [BrowserSlot.install]
        omega
      · simp only [BrowserSlot.install, Bool.toNat_false]
        omega
      · intro hlaunch
        cases hlaunch

theorem Accounts.unlists {id : BrowserId} {phase' : Phase} (h : Accounts opts s)
    (hi : s.tasks[i]? = some phase)
    (hlaunched : ∀ k, holders Phase.launched k [phase] = holders Phase.launched k [.cleaning id])
    (hpasses : PassesOn .cleaned [phase']) (hnothing : phase.reserved = none) :
    Accounts opts (s.after i ((s.shared.setPool (s.shared.pool.unlist id)).goes phase')) := by
  have hone : ∀ k, holders Phase.launched k [phase] = if k = id then 1 else 0 := by
    intro k
    rw [hlaunched, holders_some (p := .cleaning id) rfl]
  have hown : phase.launched = some id := by
    by_contra hne
    have hid := hone id
    rw [if_pos rfl] at hid
    simp [holders, hne] at hid
  obtain ⟨slot, hslot, hlaunching⟩ := h.launching hi hown
  have hslots : ∀ k, (s.shared.pool.unlist id).slotD k =
      if k = id then .absent id else s.shared.pool.slotD k := by
    intro k
    simp only [PoolState.slotD, PoolState.slot, PoolState.unlist, List.lookupBy_filter_ne]
    split_ifs with hk
    · rw [hk]
      rfl
    · rfl
  have hsub : (s.shared.pool.unlist id).browsers.Sublist s.shared.pool.browsers :=
    List.filter_sublist
  refine ⟨?_, ?_, h.next, ?_, ?_⟩
  · exact h.nodup.sublist (hsub.map BrowserSlot.id)
  · intro other hother
    exact h.ids other (hsub.subset hother)
  · intro maximum hmax
    exact (hsub.countP_le).trans (h.live maximum hmax)
  · intro k
    have hr := holders_after Wake.reserved_apply hi
      ((s.shared.setPool (s.shared.pool.unlist id)).goes phase') k
    have hl := holders_after Wake.launched_apply hi
      ((s.shared.setPool (s.shared.pool.unlist id)).goes phase') k
    have hr' : holders Phase.reserved k [phase'] = 0 := hpasses.reserved k
    have hl' : holders Phase.launched k [phase'] = 0 := hpasses.launched k
    rw [holders_none hnothing, Shared.goes, hr'] at hr
    rw [hone, Shared.goes, hl'] at hl
    have hb := h.balanced k
    show BrowserSlot.Balanced opts ((s.shared.pool.unlist id).slotD k)
      (s.shared.pool.registered k) _ _
    rw [hslots, Shared.goes]
    by_cases hk : k = id
    · subst hk
      rw [if_pos rfl] at hl ⊢
      rw [PoolState.slotD_of_slot hslot] at hb
      obtain ⟨hopen, -⟩ := hb.fresh hlaunching
      have hsum := hb.open_eq
      have hflight := hb.in_flight
      have hlaunch := hb.launched
      rw [hlaunching, Bool.toNat_true] at hlaunch
      refine ⟨?_, ?_, le_rfl, Nat.zero_le _, Nat.zero_le _, ?_, fun hc => (by cases hc)⟩
      · simp only [BrowserSlot.absent]
        omega
      · simp only [BrowserSlot.absent]
        omega
      · simp only [BrowserSlot.absent, Bool.toNat_false]
        omega
    · rw [if_neg hk] at hl ⊢
      rw [Nat.add_right_cancel hr, Nat.add_right_cancel hl]
      exact hb

theorem Accounts.reserved {id : BrowserId} (h : Accounts opts s)
    (hi : s.tasks[i]? = some phase) (hreserved : phase.reserved = some id) :
    ∃ slot, s.shared.pool.slot id = some slot ∧ 0 < slot.openPages ∧ 0 < slot.inFlightPages ∧
      0 < slot.pagesCreated ∧ slot.launching = false := by
  have hpos : 0 < holders Phase.reserved id s.tasks :=
    holders_pos (List.mem_of_getElem? hi) hreserved
  have hb := h.balanced id
  have hflight := hb.in_flight
  have hopen := hb.open_eq
  have hcreated := hb.in_flight_le
  refine ⟨_, PoolState.slot_of_slotD (.inl (by omega)), by omega, by omega, by omega, ?_⟩
  cases hc : (s.shared.pool.slotD id).launching with
  | false => rfl
  | true =>
    have hnone := (hb.fresh hc).1
    omega

theorem registered_insert_new {pool : PoolState} {pageId : PageId}
    (hnew : pool.pages.lookup pageId = none) (entry : PageEntry) (k : BrowserId) :
    (pool.pages.insert pageId entry).values.countP (fun e => decide (e.browserId = k)) =
      pool.registered k + if k = entry.browserId then 1 else 0 := by
  have hcount := AList.countP_values_insert pool.pages pageId entry
    (fun e => decide (e.browserId = k))
  rw [hnew] at hcount
  simp only [Option.toList_none, List.countP_nil, Nat.add_zero, List.countP_singleton,
    decide_eq_true_eq] at hcount
  rw [hcount]
  simp only [PoolState.registered, eq_comm]

theorem Accounts.registers {id : BrowserId} {pageId : PageId} (h : Accounts opts s)
    (hi : s.tasks[i]? = some (.registering id pageId))
    (hnew : s.shared.pool.pages.lookup pageId = none) :
    Accounts opts (s.after i (register s.shared i id pageId)) := by
  obtain ⟨slot, hslot, -, hflight, -, hlaunching⟩ := h.reserved hi rfl
  unfold register
  split_ifs
  · exact h.keep hi rfl rfl rfl (fun _ => rfl) (fun _ => ⟨rfl, rfl⟩)
  · refine h.change id slot.register hi (PoolState.map_id_update fun _ => rfl) rfl rfl ?_
      (PoolState.slotD_update hslot rfl h.nodup) ?_ ?_ ?_
    · exact PoolState.live_update fun _ _ hlive => hlive
    · intro k hk
      have hcount := registered_insert_new hnew ⟨i, id, false⟩ k
      rw [if_neg hk] at hcount
      exact hcount
    · intro k hk
      constructor
      · rw [holders_none rfl, holders_some (p := .registering id pageId) rfl, if_neg hk]
      · rw [holders_none rfl, holders_none rfl]
    · intro reserved launched hr hl
      rw [holders_some (p := .registering id pageId) rfl, if_pos rfl, holders_none rfl] at hr
      rw [holders_none rfl, holders_none rfl] at hl
      have hcount := registered_insert_new hnew ⟨i, id, false⟩ id
      rw [if_pos rfl] at hcount
      have hb := h.balanced id
      rw [PoolState.slotD_of_slot hslot] at hb
      show BrowserSlot.Balanced opts slot.register ((s.shared.pool.pages.insert pageId
        ⟨i, id, false⟩).values.countP fun e => decide (e.browserId = id)) reserved launched
      rw [hcount]
      have hopen := hb.open_eq
      have hin := hb.in_flight
      have hle := hb.in_flight_le
      have hlaunch := hb.launched
      refine ⟨?_, ?_, ?_, hb.open_le, hb.created_le, ?_, hb.fresh⟩
      · simp only [BrowserSlot.register]
        omega
      · simp only [BrowserSlot.register]
        omega
      · simp only [BrowserSlot.register]
        omega
      · simp only [BrowserSlot.register]
        omega

@[simp] theorem BrowserSlot.retire_counts (slot : BrowserSlot) (shutDown : Bool) :
    (slot.retire shutDown).id = slot.id ∧ (slot.retire shutDown).openPages = slot.openPages ∧
      (slot.retire shutDown).inFlightPages = slot.inFlightPages ∧
      (slot.retire shutDown).pagesCreated = slot.pagesCreated ∧
      (slot.retire shutDown).launching = slot.launching := by
  unfold BrowserSlot.retire
  split_ifs <;> exact ⟨rfl, rfl, rfl, rfl, rfl⟩

theorem BrowserSlot.live_of_retire {slot : BrowserSlot} {shutDown : Bool}
    (h : (slot.retire shutDown).isLive = true) : slot.isLive = true := by
  unfold BrowserSlot.retire at h
  split_ifs at h
  · simp only [BrowserSlot.isLive, Bool.or_false] at h ⊢
    simp [h]
  · exact h

theorem Accounts.rolls_back {id : BrowserId} (h : Accounts opts s)
    (hi : s.tasks[i]? = some (.rollingBack id)) :
    Accounts opts (s.after i (rollBack opts s.shared id)) := by
  obtain ⟨slot, hslot, hopen, hflight, hcreated, hlaunching⟩ := h.reserved hi rfl
  refine h.change id ((slot.rollBack opts).retire s.shared.pool.shutDown) hi
    (PoolState.map_id_update fun other => ?_) rfl rfl ?_
    (PoolState.slotD_update hslot ?_ h.nodup) (fun _ _ => rfl) ?_ ?_
  · exact (BrowserSlot.retire_counts _ _).1
  · refine PoolState.live_update ?_
    intro other _ hlive
    have hother : (other.rollBack opts).isLive = true := BrowserSlot.live_of_retire hlive
    exact hother
  · exact (BrowserSlot.retire_counts _ _).1
  · intro k hk
    constructor
    · rw [rollBack, Shared.goes, holders_none rfl, holders_some (p := .rollingBack id) rfl,
        if_neg hk]
    · rw [rollBack, Shared.goes, holders_none rfl, holders_none rfl]
  · intro reserved launched hr hl
    rw [rollBack, Shared.goes, holders_some (p := .rollingBack id) rfl, if_pos rfl,
      holders_none rfl] at hr
    rw [rollBack, Shared.goes, holders_none rfl, holders_none rfl] at hl
    have hb := h.balanced id
    rw [PoolState.slotD_of_slot hslot] at hb
    obtain ⟨-, hopen', hflight', hcreated', hlaunching'⟩ :=
      BrowserSlot.retire_counts (slot.rollBack opts) s.shared.pool.shutDown
    have hsum := hb.open_eq
    have hin := hb.in_flight
    have hle := hb.in_flight_le
    have hmax := hb.open_le
    have hretire := hb.created_le
    have hlaunch := hb.launched
    refine ⟨?_, ?_, ?_, ?_, ?_, ?_, ?_⟩
    · rw [hopen', hflight']
      simp only [BrowserSlot.rollBack]
      show _ = s.shared.pool.registered id + _
      omega
    · rw [hflight']
      simp only [BrowserSlot.rollBack]
      omega
    · rw [hflight', hcreated']
      simp only [BrowserSlot.rollBack]
      omega
    · rw [hopen']
      simp only [BrowserSlot.rollBack]
      omega
    · rw [hcreated']
      simp only [BrowserSlot.rollBack]
      omega
    · rw [hlaunching']
      simp only [BrowserSlot.rollBack]
      omega
    · intro hc
      rw [hlaunching'] at hc
      have hc : slot.launching = true := hc
      rw [hlaunching] at hc
      cases hc

theorem registered_erase {pool : PoolState} {pageId : PageId} {entry : PageEntry}
    (hentry : pool.pages.lookup pageId = some entry) (k : BrowserId) :
    pool.registered k = (pool.pages.erase pageId).values.countP
      (fun e => decide (e.browserId = k)) + if k = entry.browserId then 1 else 0 := by
  rw [PoolState.registered, (AList.values_perm_erase hentry).countP_eq, List.countP_cons]
  by_cases hk : k = entry.browserId
  · simp [hk]
  · simp [hk, Ne.symm hk]

theorem Accounts.finishes {id : PageId} {entry : PageEntry} {result : Bool}
    (h : Accounts opts s) (hi : s.tasks[i]? = some (.finishing id entry result)) {e : PageEntry}
    (he : s.shared.pool.pages.lookup id = some e) (hbrowser : e.browserId = entry.browserId) :
    ∃ slot, s.shared.pool.slot entry.browserId = some slot ∧ 0 < slot.openPages ∧
      Accounts opts (s.after i (finish opts s.shared id entry result)) := by
  have hcount := registered_erase he
  have hb := h.balanced entry.browserId
  have hsum := hb.open_eq
  have hown := hcount entry.browserId
  rw [if_pos hbrowser.symm] at hown
  have hslot : s.shared.pool.slot entry.browserId = some (s.shared.pool.slotD entry.browserId) :=
    PoolState.slot_of_slotD (.inl (by omega))
  refine ⟨_, hslot, by omega, ?_⟩
  generalize s.shared.pool.slotD entry.browserId = slot at hb hsum hslot
  refine h.change entry.browserId ((slot.release opts).retire s.shared.pool.shutDown) hi
    (PoolState.map_id_update fun other => ?_) rfl rfl ?_
    (PoolState.slotD_update hslot ?_ h.nodup) ?_ ?_ ?_
  · exact (BrowserSlot.retire_counts _ _).1
  · refine PoolState.live_update ?_
    intro other _ hlive
    have hother : (other.release opts).isLive = true := BrowserSlot.live_of_retire hlive
    exact hother
  · exact (BrowserSlot.retire_counts _ _).1
  · intro k hk
    have hother := hcount k
    rw [hbrowser, if_neg hk] at hother
    exact hother.symm
  · intro k _
    constructor
    · rw [finish, holders_none rfl, holders_none rfl]
    · rw [finish, holders_none rfl, holders_none rfl]
  · intro reserved launched hr hl
    rw [finish, holders_none rfl, holders_none rfl] at hr
    rw [finish, holders_none rfl, holders_none rfl] at hl
    obtain ⟨-, hopen', hflight', hcreated', hlaunching'⟩ :=
      BrowserSlot.retire_counts (slot.release opts) s.shared.pool.shutDown
    have hin := hb.in_flight
    have hmax := hb.open_le
    have hlaunch := hb.launched
    show BrowserSlot.Balanced opts _ ((s.shared.pool.pages.erase id).values.countP
      fun e => decide (e.browserId = entry.browserId)) reserved launched
    refine ⟨?_, ?_, ?_, ?_, ?_, ?_, ?_⟩
    · rw [hopen', hflight']
      simp only [BrowserSlot.release]
      omega
    · rw [hflight']
      simp only [BrowserSlot.release]
      omega
    · rw [hflight', hcreated']
      exact hb.in_flight_le
    · rw [hopen']
      simp only [BrowserSlot.release]
      omega
    · rw [hcreated']
      exact hb.created_le
    · rw [hlaunching']
      simp only [BrowserSlot.release]
      omega
    · intro hc
      rw [hlaunching'] at hc
      have hnone := (hb.fresh hc).1
      omega

theorem Accounts.takes {g : BrowserSlot → BrowserSlot} (h : Accounts opts s)
    (hi : s.tasks[i]? = some phase)
    (hbrowsers : effect.shared.pool.browsers = s.shared.pool.browsers.map g)
    (hpages : effect.shared.pool.pages = s.shared.pool.pages)
    (hlaunched : effect.shared.launched = s.shared.launched)
    (hnext : effect.shared.pool.nextBrowserId = s.shared.pool.nextBrowserId)
    (hg : ∀ slot, g slot = slot ∨ g slot = { slot with browser := false })
    (hholders : ∀ k, SameHolders phase (effect.phase :: effect.spawned) k) :
    Accounts opts (s.after i effect) := by
  have hid : ∀ slot, (g slot).id = slot.id := by
    intro slot
    rcases hg slot with heq | heq <;> rw [heq]
  refine h.after hi ?_ hlaunched hnext ?_ ?_
  · rw [hbrowsers, List.map_map]
    exact List.map_congr_left fun slot _ => hid slot
  · rw [hbrowsers, List.countP_map]
    refine List.countP_mono_left fun slot _ hlive => ?_
    rcases hg slot with heq | heq
    · simpa [heq] using hlive
    · simp only [Function.comp, heq, BrowserSlot.isLive, Bool.or_false] at hlive
      simp [BrowserSlot.isLive, hlive]
  · intro k reserved launched hr hl
    have hb := h.balanced_same (hholders k) hr hl
    have hregistered : effect.shared.pool.registered k = s.shared.pool.registered k := by
      rw [PoolState.registered, hpages]
      rfl
    have hslot : effect.shared.pool.slotD k = g (s.shared.pool.slotD k) ∨
        effect.shared.pool.slotD k = s.shared.pool.slotD k := by
      simp only [PoolState.slotD, PoolState.slot, hbrowsers, List.lookupBy_map _ hid]
      cases List.lookupBy BrowserSlot.id k s.shared.pool.browsers with
      | none => exact .inr rfl
      | some slot => exact .inl rfl
    rw [hregistered]
    rcases hslot with hslot | hslot
    · rw [hslot]
      rcases hg (s.shared.pool.slotD k) with heq | heq
      · rw [heq]
        exact hb
      · rw [heq]
        exact ⟨hb.open_eq, hb.in_flight, hb.in_flight_le, hb.open_le, hb.created_le, hb.launched,
          hb.fresh⟩
    · rw [hslot]
      exact hb

theorem registered_insert_same {pool : PoolState} {pageId : PageId} {entry entry' : PageEntry}
    (hentry : pool.pages.lookup pageId = some entry) (hsame : entry'.browserId = entry.browserId)
    (k : BrowserId) : (pool.pages.insert pageId entry').values.countP
      (fun e => decide (e.browserId = k)) = pool.registered k := by
  have hcount := AList.countP_values_insert pool.pages pageId entry'
    (fun e => decide (e.browserId = k))
  rw [hentry] at hcount
  simp only [Option.toList_some, List.countP_singleton, hsame] at hcount
  exact Nat.add_right_cancel hcount

theorem Accounts.does (h : Accounts opts s) (hpages : Pages s) (hi : s.tasks[i]? = some phase)
    (hd : Does opts s i phase effect) (hbound : effect.shared.launched < u64) :
    Accounts opts (s.after i effect) := by
  cases hd with
  | quiet hsame hpasses =>
    refine h.keep hi (by rw [hsame.pool]) hsame.launched (by rw [hsame.pool]) ?_ ?_
    · intro k
      rw [hsame.pool]
    · intro k
      exact ⟨hpasses.reserved k, hpasses.launched k⟩
  | chooses notified =>
    obtain ⟨-, heq⟩ | ⟨slot, hfind, heq⟩ | ⟨hallowed, heq⟩ | ⟨-, -, -, heq⟩ :=
      choose_cases opts s.shared notified
    · rw [heq]
      exact h.keep hi rfl rfl rfl (fun _ => rfl) (fun _ => ⟨rfl, rfl⟩)
    · rw [heq]
      exact h.reserves hi hfind
    · rw [heq] at hbound ⊢
      exact h.launches hi hallowed hbound
    · rw [heq]
      exact h.keep hi rfl rfl rfl (fun _ => rfl) (fun _ => ⟨rfl, rfl⟩)
  | installs id => exact h.installs hi
  | unlists id hlaunched hpasses hnothing => exact h.unlists hi hlaunched hpasses hnothing.1
  | numbers id => exact h.keep hi rfl rfl rfl (fun _ => rfl) (fun _ => ⟨rfl, rfl⟩)
  | registers id pageId => exact h.registers hi (hpages.registers hi).2
  | rolls_back id => exact h.rolls_back hi
  | enters id =>
    unfold enter
    split
    · exact h.keep hi rfl rfl rfl (fun _ => rfl) (fun _ => ⟨rfl, rfl⟩)
    · rename_i entry hentry
      split_ifs
      · exact h.keep hi rfl rfl rfl (fun _ => rfl) (fun _ => ⟨rfl, rfl⟩)
      · refine h.keep hi rfl rfl rfl ?_ (fun _ => ⟨rfl, rfl⟩)
        exact registered_insert_same hentry rfl
  | finishes id entry result =>
    obtain ⟨e, he, hbrowser, -⟩ := hpages.entries i _ id entry hi rfl
    obtain ⟨-, -, -, hafter⟩ := h.finishes hi he hbrowser
    exact hafter
  | uncloses id _ hnothing =>
    have hbrowsers : (s.shared.pool.unclose id).browsers = s.shared.pool.browsers ∧
        (s.shared.pool.unclose id).nextBrowserId = s.shared.pool.nextBrowserId := by
      unfold PoolState.unclose
      split <;> exact ⟨rfl, rfl⟩
    refine h.keep hi hbrowsers.1 rfl hbrowsers.2 ?_ ?_
    · intro k
      simp only [Shared.goes, Shared.setPool, PoolState.unclose]
      split
      · rfl
      · rename_i entry hentry
        exact registered_insert_same hentry rfl k
    · intro k
      constructor
      · rw [holders_none hnothing.1]
        rfl
      · rw [holders_none hnothing.2]
        rfl
  | marks => exact h.keep hi rfl rfl rfl (fun _ => rfl) (fun _ => ⟨rfl, rfl⟩)
  | takes =>
    refine h.takes hi rfl rfl rfl rfl ?_ (fun _ => ⟨rfl, rfl⟩)
    intro slot
    split_ifs
    · exact .inr rfl
    · exact .inl rfl
  | finalizes commands =>
    by_cases hempty : s.shared.pool.pages.entries.isEmpty = true
    · have htake : s.shared.pool.takeAll = { s.shared.pool with
          browsers := s.shared.pool.browsers.map fun slot => { slot with browser := false } } := by
        rw [PoolState.takeAll, if_pos hempty]
      rw [htake]
      exact h.takes hi rfl rfl rfl rfl (fun _ => .inr rfl) (fun _ => ⟨rfl, rfl⟩)
    · have htake : s.shared.pool.takeAll = s.shared.pool := by
        rw [PoolState.takeAll, if_neg hempty]
      rw [htake]
      exact h.keep hi rfl rfl rfl (fun _ => rfl) (fun _ => ⟨rfl, rfl⟩)

theorem Accounts.step {e : Event} (h : Accounts opts s) (hpages : Pages s)
    (hs : step opts s e = some t) (hbound : t.shared.launched < u64) : Accounts opts t := by
  obtain ⟨shared, phases, rfl, hsame, hphases⟩ | rfl | ⟨i, phase, action, effect, -, hi, ha, rfl⟩ :=
    step_cases hs
  · have hreserved : ∀ k, holders Phase.reserved k phases = 0 :=
      fun k => holders_eq_zero fun p hp => (Phase.holds_nothing (hphases p hp)).1
    have hlaunched : ∀ k, holders Phase.launched k phases = 0 :=
      fun k => holders_eq_zero fun p hp => (Phase.holds_nothing (hphases p hp)).2.1
    refine ⟨?_, ?_, ?_, ?_, ?_⟩
    · rw [hsame.pool]
      exact h.nodup
    · rw [hsame.pool, hsame.launched]
      exact h.ids
    · rw [hsame.pool, hsame.launched]
      exact h.next
    · rw [hsame.pool]
      exact h.live
    · intro k
      rw [holders_append, holders_append, hreserved, hlaunched, hsame.pool]
      exact h.balanced k
  · exact ⟨h.nodup, h.ids, h.next, h.live, h.balanced⟩
  · exact h.does hpages hi (act_does ha) hbound

theorem accounts_start : Accounts opts start where
  nodup := List.nodup_nil
  ids := fun _ hslot => nomatch hslot
  next := rfl
  live := fun _ _ => Nat.zero_le _
  balanced := fun _ => ⟨rfl, rfl, le_rfl, Nat.zero_le _, Nat.zero_le _, rfl, fun h => nomatch h⟩

theorem counters_mono {e : Event} (hs : step opts s e = some t) :
    s.shared.launched ≤ t.shared.launched ∧ s.shared.issued ≤ t.shared.issued := by
  obtain ⟨shared, phases, rfl, hsame, -⟩ | rfl | ⟨i, phase, action, effect, -, -, ha, rfl⟩ :=
    step_cases hs
  · exact ⟨le_of_eq hsame.launched.symm, le_of_eq hsame.issued.symm⟩
  · exact ⟨le_rfl, Nat.le_succ _⟩
  · cases act_does ha with
    | quiet hsame _ => exact ⟨le_of_eq hsame.launched.symm, le_of_eq hsame.issued.symm⟩
    | chooses notified =>
      obtain ⟨-, heq⟩ | ⟨slot, -, heq⟩ | ⟨-, heq⟩ | ⟨-, -, -, heq⟩ :=
        choose_cases opts s.shared notified
      · rw [heq]
        exact ⟨le_rfl, le_rfl⟩
      · rw [heq]
        exact ⟨le_rfl, le_rfl⟩
      · rw [heq]
        exact ⟨Nat.le_succ _, le_rfl⟩
      · rw [heq]
        exact ⟨le_rfl, le_rfl⟩
    | installs id =>
      unfold install
      split_ifs
      · exact ⟨le_rfl, le_rfl⟩
      · split <;> exact ⟨le_rfl, le_rfl⟩
    | numbers id => exact ⟨le_rfl, Nat.le_succ _⟩
    | registers id pageId =>
      unfold register
      split_ifs <;> exact ⟨le_rfl, le_rfl⟩
    | enters id =>
      unfold enter
      split
      · exact ⟨le_rfl, le_rfl⟩
      · split_ifs <;> exact ⟨le_rfl, le_rfl⟩
    | _ => exact ⟨le_rfl, le_rfl⟩

/-- The pages and the accounts are in order as long as no id has come round. -/
theorem in_order_run {es : List Event}
    (run : Machine.Run (Machine.Computes (step opts)) start es t)
    (hlaunched : t.shared.launched < u64) (hissued : t.shared.issued < u64) :
    Pages t ∧ Accounts opts t := by
  refine Machine.run_invariant_until (I := fun t => Pages t ∧ Accounts opts t)
    (H := fun t => t.shared.launched < u64 ∧ t.shared.issued < u64) ?_ ?_ run
    ⟨pages_start, accounts_start⟩ ⟨hlaunched, hissued⟩
  · intro s e t hs hbound
    obtain ⟨hl, hp⟩ := counters_mono hs
    exact ⟨hl.trans_lt hbound.1, hp.trans_lt hbound.2⟩
  · intro s e t h hs hbound
    exact ⟨h.1.step hs hbound.2, h.2.step h.1 hs hbound.1⟩

theorem BrowserSlot.idle_of_retire {slot : BrowserSlot} {shutDown : Bool}
    (hold : slot.browser = true) (hnew : (slot.retire shutDown).browser = false) :
    (slot.retire shutDown).openPages = 0 := by
  unfold BrowserSlot.retire at hnew ⊢
  split_ifs at hnew ⊢ with hidle
  · simp only [BrowserSlot.isIdle, Bool.and_eq_true, decide_eq_true_eq] at hidle
    exact hidle.1
  · rw [hold] at hnew
    cases hnew

def TakesIdle (before after : PoolState) : Prop :=
  ∀ id, (before.slotD id).browser = true → (after.slotD id).browser = false →
    (after.slotD id).openPages = 0 ∨ after.slot id = none

theorem takesIdle_of_browsers {before after : PoolState}
    (h : ∀ id, (before.slotD id).browser = true → (after.slotD id).browser = true) :
    TakesIdle before after := by
  intro id hold hnew
  rw [h id hold] at hnew
  cases hnew

theorem takesIdle_of_same {before after : PoolState} (h : after.browsers = before.browsers) :
    TakesIdle before after := by
  refine takesIdle_of_browsers fun id hold => ?_
  simp only [PoolState.slotD, PoolState.slot, h]
  exact hold

theorem takesIdle_update {pool : PoolState} {id : BrowserId} {f : BrowserSlot → BrowserSlot}
    (hid : ∀ slot, (f slot).id = slot.id) (hnodup : (pool.browsers.map BrowserSlot.id).Nodup)
    (hf : ∀ slot, slot.browser = true → (f slot).browser = false → (f slot).openPages = 0) :
    TakesIdle pool (pool.update id f) := by
  cases hslot : pool.slot id with
  | none =>
    refine takesIdle_of_same ?_
    exact List.updateFirst_of_find?_eq_none hslot
  | some slot =>
    intro k hold hnew
    rw [PoolState.slotD_update hslot (hid slot) hnodup] at hnew ⊢
    split_ifs at hnew ⊢ with hk
    · subst hk
      rw [PoolState.slotD_of_slot hslot] at hold
      exact .inl (hf slot hold hnew)
    · rw [hold] at hnew
      cases hnew

theorem Does.takesIdle (h : Accounts opts s) (hd : Does opts s i phase effect)
    (hworker : phase ≠ .receiving) : TakesIdle s.shared.pool effect.shared.pool := by
  cases hd with
  | quiet hsame _ => exact takesIdle_of_same (by rw [hsame.pool])
  | chooses notified =>
    obtain ⟨-, heq⟩ | ⟨slot, hfind, heq⟩ | ⟨-, heq⟩ | ⟨-, -, -, heq⟩ :=
      choose_cases opts s.shared notified
    · rw [heq]
      exact takesIdle_of_same rfl
    · rw [heq]
      refine takesIdle_of_browsers fun k hold => ?_
      have hlookup := List.lookupBy_updateFirst BrowserSlot.id (f := BrowserSlot.reserve) hfind rfl
        h.nodup k
      have hslot : s.shared.pool.slotD slot.id = slot :=
        PoolState.slotD_of_slot (List.lookupBy_of_mem h.nodup (List.mem_of_find?_eq_some hfind))
      simp only [PoolState.slotD, PoolState.slot, Shared.goes, Shared.setPool]
      rw [hlookup]
      split_ifs with hk
      · rw [hk, hslot] at hold
        exact hold
      · exact hold
    · rw [heq]
      refine takesIdle_of_browsers fun k hold => ?_
      simp only [PoolState.slotD, PoolState.slot, Shared.goes, Shared.launch,
        List.lookupBy_append_singleton] at hold ⊢
      cases hslot : List.lookupBy BrowserSlot.id k s.shared.pool.browsers with
      | none =>
        rw [hslot] at hold
        cases hold
      | some slot =>
        rw [hslot] at hold
        exact hold
    · rw [heq]
      exact takesIdle_of_same rfl
  | installs id =>
    unfold install
    split_ifs
    · exact takesIdle_of_same rfl
    · split
      · exact takesIdle_update (fun _ => rfl) h.nodup (fun _ _ hnew => (by cases hnew))
      · exact takesIdle_of_same rfl
  | unlists id =>
    intro k hold hnew
    simp only [PoolState.slotD, PoolState.slot, PoolState.unlist, Shared.goes, Shared.setPool,
      List.lookupBy_filter_ne] at hold hnew ⊢
    split_ifs at hnew ⊢ with hk
    · exact .inr rfl
    · rw [hold] at hnew
      cases hnew
  | numbers id => exact takesIdle_of_same rfl
  | registers id pageId =>
    unfold register
    split_ifs
    · exact takesIdle_of_same rfl
    · have hupdate : TakesIdle s.shared.pool (s.shared.pool.update id .register) := by
        refine takesIdle_update (fun _ => rfl) h.nodup ?_
        intro slot hold hnew
        have hnew : slot.browser = false := hnew
        rw [hold] at hnew
        cases hnew
      exact hupdate
  | rolls_back id =>
    refine takesIdle_update (fun slot => (BrowserSlot.retire_counts _ _).1) h.nodup ?_
    intro slot hold hnew
    have hold : (slot.rollBack opts).browser = true := hold
    exact BrowserSlot.idle_of_retire hold hnew
  | enters id =>
    unfold enter
    split
    · exact takesIdle_of_same rfl
    · split_ifs <;> exact takesIdle_of_same rfl
  | finishes id entry result =>
    have hupdate : TakesIdle s.shared.pool (s.shared.pool.update entry.browserId fun slot =>
        (slot.release opts).retire s.shared.pool.shutDown) := by
      refine takesIdle_update (fun slot => (BrowserSlot.retire_counts _ _).1) h.nodup ?_
      intro slot hold hnew
      have hold : (slot.release opts).browser = true := hold
      exact BrowserSlot.idle_of_retire hold hnew
    exact hupdate
  | uncloses id =>
    refine takesIdle_of_same ?_
    simp only [Shared.goes, Shared.setPool, PoolState.unclose]
    split <;> rfl
  | marks => exact takesIdle_of_same rfl
  | takes =>
    intro k hold hnew
    have hid : ∀ slot : BrowserSlot, (if slot.openPages = 0 ∧ slot.inFlightPages = 0 then
        { slot with browser := false } else slot).id = slot.id := by
      intro slot
      split_ifs <;> rfl
    simp only [PoolState.slotD, PoolState.slot, PoolState.takeIdle, Shared.goes, Shared.setPool,
      List.lookupBy_map _ hid] at hold hnew ⊢
    cases hslot : List.lookupBy BrowserSlot.id k s.shared.pool.browsers with
    | none =>
      rw [hslot] at hold
      cases hold
    | some slot =>
      rw [hslot] at hold hnew
      simp only [Option.map_some, Option.getD_some] at hold hnew ⊢
      split_ifs at hnew ⊢ with hidle
      · exact .inl hidle.1
      · rw [hold] at hnew
        cases hnew
  | finalizes => exact absurd rfl hworker

/-- In every interleaving in which neither browser ids nor page ids have come round, whenever the
lock is free: the open pages of a slot are its registered pages and those in flight, within the
limits; no more browsers are launching or live than allowed; no subtraction that a task is about
to make would saturate; and, the worker's finalization of an orphaned pool apart, a slot loses
its browser only when it has neither a registered page nor one in flight. -/
theorem pool_accounting {es : List Event}
    (run : Machine.Run (Machine.Computes (step opts)) start es t)
    (hlaunched : t.shared.launched < u64) (hissued : t.shared.issued < u64) :
    (∀ slot ∈ t.shared.pool.browsers,
      slot.openPages = t.shared.pool.registered slot.id + slot.inFlightPages ∧
      slot.openPages ≤ opts.maxOpenPagesPerBrowser ∧
      slot.pagesCreated ≤ opts.retireBrowserAfterPageCount) ∧
    (∀ maximum, opts.maxBrowsers = some maximum →
      t.shared.pool.browsers.countP BrowserSlot.isLive ≤ maximum) ∧
    (∀ (i : ℕ) id, t.tasks[i]? = some (.rollingBack id) → ∃ slot,
      t.shared.pool.slot id = some slot ∧ 0 < slot.openPages ∧ 0 < slot.inFlightPages ∧
      0 < slot.pagesCreated) ∧
    (∀ (i : ℕ) id pageId, t.tasks[i]? = some (.registering id pageId) → ∃ slot,
      t.shared.pool.slot id = some slot ∧ 0 < slot.inFlightPages) ∧
    (∀ (i : ℕ) id entry result, t.tasks[i]? = some (.finishing id entry result) → ∃ slot,
      t.shared.pool.slot entry.browserId = some slot ∧ 0 < slot.openPages) ∧
    ∀ e u, step opts t e = some u → u.shared.launched < u64 → u.shared.issued < u64 →
      (∀ i, e = .act i .run → t.tasks[i]? ≠ some .receiving) →
      ∀ slot ∈ t.shared.pool.browsers, ∀ slot' ∈ u.shared.pool.browsers, slot'.id = slot.id →
        slot.browser = true → slot'.browser = false →
        u.shared.pool.registered slot.id = 0 ∧ slot'.inFlightPages = 0 := by
  obtain ⟨hpages, h⟩ := in_order_run run hlaunched hissued
  refine ⟨?_, h.live, ?_, ?_, ?_, ?_⟩
  · intro slot hslot
    have hb := h.balanced slot.id
    rw [PoolState.slotD_of_slot (List.lookupBy_of_mem h.nodup hslot)] at hb
    exact ⟨hb.open_eq, hb.open_le, hb.created_le⟩
  · intro i id hi
    obtain ⟨slot, hslot, hopen, hflight, hcreated, -⟩ := h.reserved hi rfl
    exact ⟨slot, hslot, hopen, hflight, hcreated⟩
  · intro i id pageId hi
    obtain ⟨slot, hslot, -, hflight, -⟩ := h.reserved hi rfl
    exact ⟨slot, hslot, hflight⟩
  · intro i id entry result hi
    obtain ⟨e, he, hbrowser, -⟩ := hpages.entries i _ id entry hi rfl
    obtain ⟨slot, hslot, hopen, -⟩ := h.finishes hi he hbrowser
    exact ⟨slot, hslot, hopen⟩
  · intro e u hs hl hp hworker slot hslot slot' hslot' hid hold hnew
    have hu := h.step hpages hs hl
    have hfound : u.shared.pool.slotD slot.id = slot' := by
      rw [← hid]
      exact PoolState.slotD_of_slot (List.lookupBy_of_mem hu.nodup hslot')
    have hfound' : t.shared.pool.slotD slot.id = slot :=
      PoolState.slotD_of_slot (List.lookupBy_of_mem h.nodup hslot)
    have hidle : TakesIdle t.shared.pool u.shared.pool := by
      obtain ⟨shared, phases, rfl, hsame, -⟩ | rfl | ⟨i, phase, action, effect, rfl, hi, ha, rfl⟩ :=
        step_cases hs
      · exact takesIdle_of_same (by rw [hsame.pool])
      · exact takesIdle_of_same rfl
      · by_cases hreceiving : phase = .receiving
        · subst hreceiving
          cases action with
          | run => exact absurd hi (hworker i rfl)
          | cancel =>
            cases ha
            exact takesIdle_of_same rfl
          | fail => cases ha
          | spawn => cases ha
        · exact (act_does ha).takesIdle h hreceiving
    have hb := hu.balanced slot.id
    rw [hfound] at hb
    have hsum := hb.open_eq
    obtain hzero | hnone := hidle slot.id (hfound'.symm ▸ hold) (hfound.symm ▸ hnew)
    · rw [hfound] at hzero
      exact ⟨by omega, by omega⟩
    · rw [PoolState.slot, ← hid, List.lookupBy_of_mem hu.nodup hslot'] at hnone
      cases hnone

-- Two pages of one browser, between which the page ids come round.
def twoPages : BrowserPoolOptions where
  maxOpenPagesPerBrowser := 2
  retireBrowserAfterPageCount := 100
  maxBrowsers := none

theorem otherPages (n : ℕ) (s : State) (hnext : s.shared.nextPageId < u64) :
    Machine.Run (Machine.Computes (step opts)) s (List.replicate n .otherPage)
      { s with shared := { s.shared with
          nextPageId := (s.shared.nextPageId + n) % u64, issued := s.shared.issued + n } } := by
  induction n with
  | zero =>
    rw [Nat.add_zero, Nat.mod_eq_of_lt hnext]
    exact .nil s
  | succ n ih =>
    rw [List.replicate_succ']
    refine .snoc ih ?_
    simp only [Machine.Computes, step, Shared.number, Nat.mod_add_mod, Nat.add_assoc]

def firstCloses : List Event :=
  firstPage ++ .newPage :: goesOn 2 6 ++ .close 0 :: goesOn 3 2 ++ goesOn 4 6 ++ goesOn 3 1

theorem pool_accounting_firstCloses : ∃ t,
    Machine.Run (Machine.Computes (step twoPages)) start firstCloses t ∧
      t.shared.pool.browsers.map BrowserSlot.openPages = [1] ∧
      t.shared.pool.browsers.map BrowserSlot.pagesCreated = [2] ∧
      ∀ slot ∈ t.shared.pool.browsers,
        slot.openPages = t.shared.pool.registered slot.id + slot.inFlightPages := by
  have hrun : (firstCloses.foldlM (step twoPages) start).map (fun t =>
      (t.shared.pool.browsers.map BrowserSlot.openPages,
        t.shared.pool.browsers.map BrowserSlot.pagesCreated, t.shared.launched,
        t.shared.issued)) = some ([1], [2], 1, 2) := by decide +kernel
  obtain ⟨t, ht, hfacts⟩ := Option.map_eq_some_iff.mp hrun
  simp only [Prod.mk.injEq] at hfacts
  obtain ⟨hopen, hcreated, hlaunched, hissued⟩ := hfacts
  have hr := Machine.run_of_foldlM ht
  refine ⟨t, hr, hopen, hcreated, ?_⟩
  intro slot hslot
  exact ((pool_accounting hr (by rw [hlaunched]; decide) (by rw [hissued]; decide)).1 slot hslot).1

def onePage : State := (firstPage.foldlM (step twoPages) start).getD start

def idsGone : State :=
  { onePage with shared := { onePage.shared with
      nextPageId := (onePage.shared.nextPageId + (2 ^ 64 - 1)) % u64
      issued := onePage.shared.issued + (2 ^ 64 - 1) } }

theorem idsGone_run : Machine.Run (Machine.Computes (step twoPages)) start
    (firstPage ++ List.replicate (2 ^ 64 - 1) .otherPage) idsGone := by
  have hfirst : firstPage.foldlM (step twoPages) start = some onePage := by
    have hsome : (firstPage.foldlM (step twoPages) start).isSome = true := by decide +kernel
    obtain ⟨t, ht⟩ := Option.isSome_iff_exists.mp hsome
    rw [onePage, ht]
    rfl
  have hnext : onePage.shared.nextPageId < u64 := by decide +kernel
  exact (Machine.run_of_foldlM hfirst).append (otherPages (2 ^ 64 - 1) onePage hnext)

/-- The second page gets the id of the first and takes its place in the map, so that two open
pages are counted where one is registered. One browser was launched. -/
theorem page_id_reused : ∃ es t, Machine.Run (Machine.Computes (step twoPages)) start es t ∧
    t.shared.launched < u64 ∧ ∃ slot ∈ t.shared.pool.browsers,
      slot.openPages ≠ t.shared.pool.registered slot.id + slot.inFlightPages := by
  have hcomputed : ((.newPage :: goesOn 2 6).foldlM (step twoPages) idsGone).map (fun t =>
      (t.shared.launched, t.shared.pool.browsers.map fun slot =>
        (slot.openPages, t.shared.pool.registered slot.id + slot.inFlightPages))) =
      some (1, [(2, 1)]) := by decide +kernel
  obtain ⟨t, ht, hfacts⟩ := Option.map_eq_some_iff.mp hcomputed
  obtain ⟨hlaunched, hslots⟩ := Prod.mk.inj hfacts
  refine ⟨_, t, idsGone_run.append (Machine.run_of_foldlM ht), by rw [hlaunched]; decide, ?_⟩
  obtain ⟨slot, hslot, hcounts⟩ := List.mem_map.mp (hslots ▸ List.mem_singleton.mpr rfl)
  obtain ⟨hopen, hcounted⟩ := Prod.mk.inj hcounts
  refine ⟨slot, hslot, ?_⟩
  rw [hopen, hcounted]
  decide

end Millipede.BrowserPool
