import Millipede.Library.Machine
import Millipede.Proxy

/-!
# Recovery of a tier

A host's tier should fall when a probe succeeds, and rise when a request is blocked that is
no probe. A pending probe is one slot of the host, which the next report empties, whoever
makes it. So a change is backed by the request that it should be backed by exactly as long as
the reports come from the right requests.
-/

namespace Millipede.Proxy
variable {state : TieredState} {rules : StatusRules} {domains : Domains} {w w' : World}
  {host : String}

/-- The changes of the tiers are backed: a fall by the success of a probe that was served by
the lower tier, a rise by a blocked request that was no probe. -/
def Backed (rules : StatusRules) (w : World) (e : Event) (w' : World) : Prop :=
  ∀ host,
    (w'.tier host < w.tier host → ∃ i status visit, e = .respond i status ∧
      w.inFlight[i]? = some visit ∧ classifyStatus rules status = .success ∧
      visit.host = host ∧ visit.probe = true ∧ visit.tier = w'.tier host) ∧
    (w.tier host < w'.tier host → ∃ i status visit, e = .respond i status ∧
      w.inFlight[i]? = some visit ∧ classifyStatus rules status = .blocked ∧
      visit.host = host ∧ visit.probe = false)

/-- A success that finds a pending probe is the success of a probe of that tier, and a probe
that is blocked finds a pending probe, unless the host has the last tier anyway. -/
def Matched (state : TieredState) (rules : StatusRules) (w : World) : Event → Prop
  | .respond i status => ∀ visit ∈ w.inFlight[i]?,
    match classifyStatus rules status with
    | .success =>
      ∀ probe ∈ (w.domains.entry visit.host).probing, visit.probe = true ∧ visit.tier = probe
    | .blocked => (w.domains.entry visit.host).probing = none →
      visit.probe = false ∨ state.tiers.length ≤ w.tier visit.host + 1
    | .nothing => True
  | _ => True

def Ranged (state : TieredState) (domain : DomainTier) : Prop :=
  domain.tier ≤ state.tiers.length - 1 ∧ ∀ probe ∈ domain.probing, domain.tier = probe + 1

theorem entry_insert (domains : Domains) (host host' : String) (domain : DomainTier) :
    Domains.entry (domains.insert host domain) host' =
      if host' = host then domain else domains.entry host' := by
  simp only [Domains.entry, AList.lookup_insert_ite]
  split_ifs <;> rfl

theorem ranged_default (state : TieredState) : Ranged state {} :=
  ⟨Nat.zero_le _, fun _ h => nomatch h⟩

theorem serve_spec {domain : DomainTier} (h : Ranged state domain) :
    (domain.serve state).1 ≤ state.tiers.length - 1 ∧ (domain.serve state).2.tier = domain.tier ∧
      Ranged state (domain.serve state).2 := by
  have htier : min domain.tier (state.tiers.length - 1) = domain.tier := min_eq_left h.1
  simp only [DomainTier.serve, htier]
  split_ifs with hprobe
  · refine ⟨(Nat.sub_le _ _).trans h.1, rfl, h.1, ?_⟩
    intro probe hp
    cases hp
    exact (Nat.sub_add_cancel hprobe.1).symm
  · exact ⟨h.1, rfl, h.1, h.2⟩

theorem tieredUrl_spec (h : Ranged state (domains.entry host)) :
    ∃ answer, tieredUrl state domains host = some (answer,
      if state.tiers.isEmpty then domains
      else domains.insert host ((domains.entry host).serve state).2) := by
  simp only [tieredUrl]
  by_cases hempty : state.tiers.isEmpty
  · simp [hempty]
  · have hpos : 0 < state.tiers.length := by
      rw [List.length_pos_iff]
      simpa using hempty
    have hserving : ((domains.entry host).serve state).1 < state.tiers.length := by
      have hle := (serve_spec h).1
      omega
    rw [if_neg hempty, List.getElem?_eq_getElem hserving]
    simp only [hempty, if_false, Bool.false_eq_true]
    by_cases htier : state.tiers[((domains.entry host).serve state).1].isEmpty
    · rw [if_pos htier]
      exact ⟨_, rfl⟩
    · have hlength : 0 < state.tiers[((domains.entry host).serve state).1].length := by
        rw [List.length_pos_iff]
        simpa using htier
      rw [if_neg htier, List.getElem?_eq_getElem (Nat.mod_lt _ hlength)]
      exact ⟨_, rfl⟩

def Sound (state : TieredState) (w : World) : Prop := ∀ host, Ranged state (w.domains.entry host)

theorem sound_start (state : TieredState) : Sound state start := fun _ => ranged_default state

theorem ranged_report (h : ∀ host, Ranged state (domains.entry host)) (host : String) (r : Report)
    (host' : String) : Ranged state ((report state domains host r).entry host') := by
  cases r with
  | blocked =>
    simp only [report, reportBlocked]
    split_ifs
    · exact h host'
    · rw [entry_insert]
      split_ifs
      · split
        · exact ⟨min_le_right _ _, fun _ hp => nomatch hp⟩
        · exact ⟨(h host).1, fun _ hp => nomatch hp⟩
      · exact h host'
  | success =>
    simp only [report, reportSuccess]
    rw [entry_insert]
    split_ifs
    · split
      · exact h host
      · rename_i probe hprobe
        have htier := (h host).2 probe hprobe
        have hle := (h host).1
        refine ⟨?_, fun _ hp => nomatch hp⟩
        simp only
        omega
    · exact h host'
  | nothing => exact h host'

theorem sound_step {e : Event} (h : Sound state w) (hs : step state rules w e = some w') :
    Sound state w' := by
  cases e with
  | resolve host =>
    obtain ⟨answer, hanswer⟩ := tieredUrl_spec (h host)
    simp only [step, hanswer, Option.map_some, Option.some.injEq] at hs
    subst hs
    intro host'
    simp only
    split_ifs
    · exact h host'
    · rw [entry_insert]
      split_ifs
      · exact (serve_spec (h host)).2.2
      · exact h host'
  | respond i status =>
    obtain ⟨visit, -, rfl⟩ := Option.map_eq_some_iff.mp hs
    exact ranged_report h visit.host _
  | fail i =>
    obtain ⟨visit, -, rfl⟩ := Option.map_eq_some_iff.mp hs
    exact h

theorem entry_report_other {host' : String} (hne : host' ≠ host) (r : Report) :
    (report state domains host r).entry host' = domains.entry host' := by
  cases r with
  | blocked =>
    simp only [report, reportBlocked]
    split_ifs
    · rfl
    · rw [entry_insert, if_neg hne]
  | success =>
    simp only [report, reportSuccess]
    rw [entry_insert, if_neg hne]
  | nothing => rfl

theorem tier_reportSuccess (domains : Domains) (host : String) :
    ((reportSuccess domains host).entry host).tier =
      (domains.entry host).probing.getD (domains.entry host).tier := by
  simp only [reportSuccess, entry_insert, if_true]
  cases (domains.entry host).probing with
  | none => rfl
  | some probe => rfl

theorem tier_reportBlocked_of_probing {probe : ℕ}
    (h : (domains.entry host).probing = some probe) :
    ((reportBlocked state domains host).entry host).tier = (domains.entry host).tier := by
  simp only [reportBlocked]
  split_ifs
  · rfl
  · rw [entry_insert, if_pos rfl, h]

theorem le_tier_reportBlocked (h : Ranged state (domains.entry host)) :
    (domains.entry host).tier ≤ ((reportBlocked state domains host).entry host).tier := by
  have hle := h.1
  simp only [reportBlocked]
  split_ifs
  · exact le_rfl
  · rw [entry_insert, if_pos rfl]
    split
    · simp only
      omega
    · exact le_rfl

theorem lt_tier_reportBlocked (h : (domains.entry host).probing = none) :
    (domains.entry host).tier < ((reportBlocked state domains host).entry host).tier ↔
      (domains.entry host).tier + 1 < state.tiers.length := by
  simp only [reportBlocked]
  by_cases hempty : state.tiers.isEmpty
  · have hnil : state.tiers = [] := by simpa using hempty
    rw [if_pos hempty, hnil]
    simp
  · rw [if_neg hempty, entry_insert, if_pos rfl, h]
    simp only
    omega

theorem backed_respond_iff {i : ℕ} {status : StatusCode} {visit : Visit}
    (hvisit : w.inFlight[i]? = some visit)
    (hother : ∀ host ≠ visit.host, w'.tier host = w.tier host) :
    Backed rules w (.respond i status) w' ↔
      (w'.tier visit.host < w.tier visit.host → classifyStatus rules status = .success ∧
        visit.probe = true ∧ visit.tier = w'.tier visit.host) ∧
      (w.tier visit.host < w'.tier visit.host →
        classifyStatus rules status = .blocked ∧ visit.probe = false) := by
  constructor
  · intro h
    refine ⟨fun hfall => ?_, fun hrise => ?_⟩
    · obtain ⟨j, status', visit', he, hv, hclass, -, hprobe, htier⟩ := (h visit.host).1 hfall
      cases he
      rw [hvisit] at hv
      cases hv
      exact ⟨hclass, hprobe, htier⟩
    · obtain ⟨j, status', visit', he, hv, hclass, -, hprobe⟩ := (h visit.host).2 hrise
      cases he
      rw [hvisit] at hv
      cases hv
      exact ⟨hclass, hprobe⟩
  · intro h host
    by_cases heq : host = visit.host
    · subst heq
      refine ⟨fun hfall => ?_, fun hrise => ?_⟩
      · obtain ⟨hclass, hprobe, htier⟩ := h.1 hfall
        exact ⟨i, status, visit, rfl, hvisit, hclass, rfl, hprobe, htier⟩
      · obtain ⟨hclass, hprobe⟩ := h.2 hrise
        exact ⟨i, status, visit, rfl, hvisit, hclass, rfl, hprobe⟩
    · rw [hother host heq]
      exact ⟨fun hlt => absurd hlt (lt_irrefl _), fun hlt => absurd hlt (lt_irrefl _)⟩

theorem backed_of_tier_eq {e : Event} (h : ∀ host, w'.tier host = w.tier host) :
    Backed rules w e w' := by
  intro host
  rw [h host]
  exact ⟨fun hlt => absurd hlt (lt_irrefl _), fun hlt => absurd hlt (lt_irrefl _)⟩

theorem backed_iff {e : Event} (h : Sound state w) (hs : step state rules w e = some w') :
    Backed rules w e w' ↔ Matched state rules w e := by
  cases e with
  | resolve host =>
    refine iff_of_true (backed_of_tier_eq ?_) trivial
    obtain ⟨answer, hanswer⟩ := tieredUrl_spec (h host)
    simp only [step, hanswer, Option.map_some, Option.some.injEq] at hs
    subst hs
    intro host'
    simp only [World.tier]
    split_ifs
    · rfl
    · rw [entry_insert]
      split_ifs with heq
      · rw [heq]
        exact (serve_spec (h host)).2.1
      · rfl
  | respond i status =>
    obtain ⟨visit, hvisit, rfl⟩ := Option.map_eq_some_iff.mp hs
    have hother : ∀ host ≠ visit.host,
        (report state w.domains visit.host (classifyStatus rules status)).entry host =
          w.domains.entry host := fun host hne => entry_report_other hne _
    rw [backed_respond_iff hvisit fun host hne => congrArg DomainTier.tier (hother host hne)]
    simp only [Matched, hvisit, Option.mem_def, Option.some.injEq, forall_eq', World.tier]
    cases hclass : classifyStatus rules status with
    | blocked =>
      simp only [report, reduceCtorEq, false_and, true_and]
      cases hprobing : (w.domains.entry visit.host).probing with
      | some probe =>
        rw [tier_reportBlocked_of_probing hprobing]
        simp
      | none =>
        rw [lt_tier_reportBlocked hprobing]
        have hle := le_tier_reportBlocked (h visit.host)
        simp only [not_lt.mpr hle, false_implies, true_and, true_implies]
        by_cases hlast : (w.domains.entry visit.host).tier + 1 < state.tiers.length
        · simp [hlast, not_le.mpr hlast]
        · simp [hlast, not_lt.mp hlast]
    | success =>
      simp only [report, reduceCtorEq, false_and, true_and, tier_reportSuccess]
      cases hprobing : (w.domains.entry visit.host).probing with
      | none => simp
      | some probe =>
        have htier := (h visit.host).2 probe hprobing
        simp [htier]
    | nothing => simp [report]
  | fail i =>
    obtain ⟨visit, -, rfl⟩ := Option.map_eq_some_iff.mp hs
    exact iff_of_true (backed_of_tier_eq fun host => rfl) trivial

theorem sound_run {es : List Event}
    (run : Machine.Run (Machine.Computes (step state rules)) start es w) : Sound state w :=
  Machine.run_invariant (I := Sound state) (fun _ _ _ h hs => sound_step h hs) run
    (sound_start state)

/-- For any requests to any hosts, in any order: every index is in range, and every change of
a tier is backed exactly if every report comes from a request that it should come from. -/
theorem tier_recovery (tiers : List (List (Option Url))) (probeInterval : ℕ) (rules : StatusRules)
    (es : List Event) (w : World) :
    (Machine.Run (Machine.Computes (step (tieredWithProbeInterval tiers probeInterval) rules))
        start es w →
      ∀ host, ∃ answer domains,
        tieredUrl (tieredWithProbeInterval tiers probeInterval) w.domains host =
          some (answer, domains)) ∧
    (Machine.Run (fun s e t => Backed rules s e t ∧
        step (tieredWithProbeInterval tiers probeInterval) rules s e = some t) start es w ↔
      Machine.Run (Machine.Guarded (Matched (tieredWithProbeInterval tiers probeInterval) rules)
        (Machine.Computes (step (tieredWithProbeInterval tiers probeInterval) rules)))
        start es w) := by
  refine ⟨?_, ?_⟩
  · intro run host
    obtain ⟨answer, hanswer⟩ := tieredUrl_spec (sound_run run host)
    exact ⟨answer, _, hanswer⟩
  · constructor
    · intro run
      refine run.replace (I := Sound _) (fun s e t h hs => sound_step h hs.2) ?_ (sound_start _)
      exact fun s e t h hs => ⟨(backed_iff h hs.2).mp hs.1, hs.2⟩
    · intro run
      refine run.replace (I := Sound _) (fun s e t h hs => sound_step h hs.2) ?_ (sound_start _)
      exact fun s e t h hs => ⟨(backed_iff h hs.2).mpr hs.1, hs.2⟩

def twoTiers : TieredState := tieredWithProbeInterval [[none], [none]] 2

def defaultRules : StatusRules where
  retryStatusCodes := [408, 429]
  retryServerErrors := true
  sessionStatusCodes := [401, 403]

def besideProbe : List Event :=
  [.resolve "a.test", .respond 0 403, .resolve "a.test", .resolve "a.test"]

/-- The request from the second tier succeeds, and the host falls to the first one. -/
theorem tier_lowered_without_evidence : ∃ w w',
    Machine.Run (Machine.Computes (step twoTiers defaultRules)) start besideProbe w ∧
    step twoTiers defaultRules w (.respond 0 200) = some w' ∧
    w.inFlight[0]? = some { host := "a.test", tier := 1, probe := false } ∧
    w.tier "a.test" = 1 ∧ w'.tier "a.test" = 0 := by
  have hrun : (besideProbe.foldlM (step twoTiers defaultRules) start).map (fun w =>
      (w.inFlight[0]?, w.tier "a.test",
        (step twoTiers defaultRules w (.respond 0 200)).map fun w' => w'.tier "a.test")) =
      some (some { host := "a.test", tier := 1, probe := false }, 1, some 0) := by
    decide +kernel
  obtain ⟨w, hw, heq⟩ := Option.map_eq_some_iff.mp hrun
  simp only [Prod.mk.injEq, Option.map_eq_some_iff] at heq
  obtain ⟨hvisit, htier, w', hw', htier'⟩ := heq
  exact ⟨w, w', Machine.run_of_foldlM hw, hw', hvisit, htier, htier'⟩

end Millipede.Proxy
