import Millipede.Crawler.System

/-!
# How often a request is attempted

A request spends its budget on retries. A `Budget` says what a stored request of one key
looks like, how much of the budget it has spent and that a retry spends one more; it is
kept by everything that the dispatcher does with the request between two attempts. In a
run over a queue that takes back no lease in use, the completed attempts of the key then never
outnumber what is spent by more than the one that ends it.
-/

namespace Millipede.Engine

def Phase.parked : Phase → List Lease
  | .abandoning rest _ => rest
  | .releasing rest _ => rest
  | _ => []

def resting (s : State) : List Lease := slotLeases s ++ deferredLeases s ++ s.phase.parked

def Phase.leaving : Phase → Bool
  | .joining _ => true
  | .releasing _ _ => true
  | .abandoning _ (.finish _) => true
  | .returned _ => true
  | _ => false

def slack (phase : Phase) : ℕ := if phase.leaving then 1 else 0

/-- By how much the attempts of a request may exceed what its stored copy has spent, while
the request is under the lease given. -/
def allowance (leaseId : LeaseId) : Phase → ℕ
  | .completing c => if c.lease.leaseId = leaseId then 1 else 0
  | phase => slack phase

def Effect.decidedId : Effect → Option LeaseId
  | .decided lease _ => some lease.leaseId
  | _ => none

def retriedRequest (request : Request) (text : String) (rotates : Bool) : Request :=
  Request.reclaimed
    (if rotates then
      { pushError request text with
        sessionRotationCount := (request.sessionRotationCount + 1) % 2 ^ 32 }
    else pushError request text) (!rotates)

structure Budget (opts : EngineOptions) where
  /-- What a request of the key looks like. -/
  Fit : Request → Prop
  spent : Request → ℕ
  bound : ℕ
  /-- What an attempt may return. -/
  Accepts : AttemptOutput → Prop
  Tame : CrawlError → Prop
  /-- What a retry finds, with whether it rotates the session. -/
  Room : Request → Bool → Prop
  spent_le : ∀ request, Fit request → spent request ≤ bound
  tame_panic : ∀ error, Tame (.retry error)
  tame_output : ∀ output error, Accepts output → output.error = some error → Tame error
  pushed : ∀ request text, Fit request →
    Fit (pushError request text) ∧ spent (pushError request text) = spent request
  restored : ∀ lease output, Accepts output → Fit lease.request →
    Fit (restoreCounters lease output.request).request ∧
      spent (restoreCounters lease output.request).request = spent lease.request
  retried : ∀ request error observation consulted text rotates, Fit request → Tame error →
    (retryDecision opts.retry consulted request error observation).eligible = true →
    (retryDecision opts.retry consulted request error observation).rotates = rotates →
    Room request rotates ∧ Fit (retriedRequest request text rotates) ∧
      spent (retriedRequest request text rotates) = spent request + 1

def Closing {opts : EngineOptions} (b : Budget opts) (attempts : ℕ) : Completing → Prop
  | .abandonCancelled lease => b.Fit lease.request ∧ attempts ≤ b.spent lease.request
  | .abandonCritical lease _ => b.Fit lease.request ∧ attempts ≤ b.spent lease.request + 1
  | .reclaiming lease rotates =>
    b.Fit (lease.request.reclaimed (!rotates)) ∧
      attempts ≤ b.spent (lease.request.reclaimed (!rotates))
  | _ => True

variable {opts : EngineOptions} {s t : State} {e : Event}

theorem PhaseMove.parked {phase : Phase} (h : PhaseMove opts s phase) :
    phase.parked = s.phase.parked := by
  have hleases := h.leases
  cases h with
  | stay => rfl
  | handled lease total errorText status loadedUrl hfrom =>
    rw [hfrom]
    rfl
  | _ => cases hp : s.phase <;> simp_all [Phase.leases, Phase.parked]

theorem resting_subset {lease : Lease} (h : lease ∈ resting s) : lease ∈ held s := by
  obtain h | h := List.mem_append.mp h
  · exact List.mem_append_left _ h
  · apply List.mem_append_right
    cases hp : s.phase with
    | abandoning rest next => rwa [hp] at h
    | releasing rest outcome => rwa [hp] at h
    | _ =>
      rw [hp] at h
      cases h

theorem resting_eq_held (h : ∀ c, s.phase ≠ .completing c) : resting s = held s := by
  rw [resting, held]
  cases hp : s.phase with
  | completing c => exact absurd hp (h c)
  | _ => rfl

theorem slack_eq_zero {phase : Phase} (h : phase.leaving = false) : slack phase = 0 := by
  simp [slack, h]

theorem allowance_eq_slack {phase : Phase} (h : ∀ c, phase ≠ .completing c) (id : LeaseId) :
    allowance id phase = slack phase := by
  cases phase with
  | completing c => exact absurd rfl (h c)
  | _ => rfl

theorem allowance_le_slack {phase : Phase} {id : LeaseId}
    (h : ∀ c, phase = .completing c → c.lease.leaseId ≠ id) : allowance id phase ≤ slack phase := by
  cases phase with
  | completing c =>
    rw [allowance, if_neg (h c rfl)]
    exact Nat.zero_le _
  | _ => exact le_rfl

theorem allowance_le_one (phase : Phase) (id : LeaseId) : allowance id phase ≤ 1 := by
  cases phase with
  | completing c =>
    rw [allowance]
    split_ifs
    · exact le_rfl
    · exact Nat.zero_le _
  | _ =>
    simp only [allowance, slack]
    split_ifs
    · exact le_rfl
    · exact Nat.zero_le _

theorem slack_le_allowance (phase : Phase) (id : LeaseId) : slack phase ≤ allowance id phase := by
  cases phase with
  | completing c => exact Nat.zero_le _
  | _ => exact le_rfl

theorem PhaseMove.allowance_le {phase : Phase} (h : PhaseMove opts s phase)
    (hslack : slack s.phase ≤ slack phase) (id : LeaseId) :
    allowance id s.phase ≤ allowance id phase := by
  cases hs : s.phase with
  | completing c =>
    cases h with
    | stay => rw [hs]
    | handled lease total errorText status loadedUrl hfrom =>
      rw [← hs, hfrom]
      exact le_rfl
    | _ => simp_all
  | _ =>
    rw [hs] at hslack
    exact hslack.trans (slack_le_allowance phase id)

theorem PhaseMove.leaving {phase : Phase} (h : PhaseMove opts s phase)
    (hs : s.phase.leaving = true) : phase.leaving = true := by
  cases h with
  | stay => exact hs
  | abort outcome hfrom => rfl
  | drained => rfl
  | finished => rfl
  | exits => rfl
  | scan hfrom => obtain hfrom | hfrom := hfrom <;> rw [hfrom] at hs <;> cases hs
  | settle desired hfrom => obtain hfrom | hfrom := hfrom <;> rw [hfrom] at hs <;> cases hs
  | again wake hfrom => obtain hfrom | hfrom | hfrom := hfrom <;> rw [hfrom] at hs <;> cases hs
  | _ => simp_all [Phase.leaving]

theorem Move.leaving (hm : Move opts s e t) (hs : s.phase.leaving = true) :
    t.phase.leaving = true ∨ t.phase = .panicked := by
  cases hm with
  | quiet clock cancelled drain draining mode limiter phase hc hmode hl hphase hq =>
    exact .inl (hphase.leaving hs)
  | panic clock _ hc hlost hq ht hi =>
    rw [ht]
    exact .inr rfl
  | gather clock drain draining next hc hfrom hq =>
    obtain ⟨hfrom, -⟩ | ⟨outcome, -, rfl⟩ := hfrom
    · rw [hfrom] at hs
      cases hs
    · exact .inl rfl
  | release => exact .inl rfl
  | joined => exact .inl hs
  | dropped rest i lease reply phase hi hfrom hq =>
    obtain ⟨outcome, hfrom, rfl⟩ | ⟨next, hfrom, rfl⟩ := hfrom
    · exact .inl rfl
    · rw [hfrom] at hs
      cases next with
      | renew => cases hs
      | finish outcome => exact .inl rfl
  | _ => simp_all [Phase.leaving]

theorem Move.slack_le (hm : Move opts s e t) (hp : t.phase ≠ .panicked) :
    slack s.phase ≤ slack t.phase := by
  cases hs : s.phase.leaving with
  | false =>
    rw [slack_eq_zero hs]
    exact Nat.zero_le _
  | true =>
    obtain ht | ht := hm.leaving hs
    · simp [slack, hs, ht]
    · exact absurd ht hp

theorem Flow.resting (hf : Flow s e t) (hs : ∀ c, s.phase ≠ .completing c)
    (ht : ∀ c, t.phase ≠ .completing c) {lease : Lease} (hm : lease ∈ resting t) :
    (∃ old ∈ resting s, old.leaseId = lease.leaseId ∧ old.request = lease.request) ∨
      queueCall s e = some (.fetchNext, .ok (.leased (some lease))) := by
  rw [resting_eq_held ht] at hm
  rw [resting_eq_held hs]
  cases hf with
  | kept hq hheld hlog => exact .inl ⟨lease, hheld.mem_iff.mp hm, rfl, rfl⟩
  | took new hq hheld hlog =>
    obtain rfl | hm := List.mem_cons.mp (hheld.mem_iff.mp hm)
    · exact .inr hq
    · exact .inl ⟨lease, hm, rfl, rfl⟩
  | renewed old rest hq hs ht hlog =>
    left
    obtain rfl | hm := List.mem_cons.mp (ht.mem_iff.mp hm)
    · exact ⟨old, hs.mem_iff.mpr List.mem_cons_self, rfl, rfl⟩
    · exact ⟨lease, hs.mem_iff.mpr (List.mem_cons_of_mem _ hm), rfl, rfl⟩
  | concluded old decided choice c rest hq hp hid hexp hid' hs' ht' hlog => exact absurd hp (ht c)
  | gave how op given reply rest hq hret hhow hfrom hs' ht' hlog =>
    have hm := ht'.mem_iff.mp hm
    exact .inl ⟨lease, hs'.mem_iff.mpr (List.mem_cons_of_mem _ hm), rfl, rfl⟩

end Millipede.Engine

namespace Millipede.System

open Engine

variable {opts : EngineOptions} {b : Budget opts} {key : String} {s t : State}
  {q q' : LeaseQueue} {e : Event}

/-- The attempts of a request that were completed, all but the cancelled ones. -/
def attempts (u : System) (key : String) : ℕ :=
  countFor Effect.decidedId u.queue key u.engine.log

structure Metered (b : Budget opts) (key : String) (u : System) : Prop where
  unknown : u.queue.place key = .unknown → attempts u key = 0
  pending : ∀ request, u.queue.place key = .pending request →
    b.Fit request ∧ attempts u key ≤ b.spent request + slack u.engine.phase
  leased : ∀ leaseId request, u.queue.place key = .leased leaseId request →
    b.Fit request ∧ attempts u key ≤ b.spent request + allowance leaseId u.engine.phase
  rests : ∀ lease ∈ resting u.engine, u.queue.issued lease.leaseId = some key →
    u.queue.place key = .leased lease.leaseId lease.request
  closing : ∀ c, u.engine.phase = .completing c → u.queue.issued c.lease.leaseId = some key →
    Closing b (attempts u key) c
  total : attempts u key ≤ b.bound + 1
  room : ∀ lease rotates, .decided lease (.retried rotates) ∈ u.engine.log →
    u.queue.issued lease.leaseId = some key → b.Room lease.request rotates

theorem Metered.fit_of_resting (h : Metered b key ⟨s, q⟩) (hs : ∀ c, s.phase ≠ .completing c)
    {lease : Lease} (hm : lease ∈ resting s) (hi : q.issued lease.leaseId = some key) :
    b.Fit lease.request ∧ attempts ⟨s, q⟩ key ≤ b.spent lease.request + slack s.phase := by
  have hleased := h.leased _ _ (h.rests lease hm hi)
  rwa [allowance_eq_slack hs] at hleased

theorem Metered.frame (h : Metered b key ⟨s, q⟩) (hplace : q'.place key = q.place key)
    (hcount : attempts ⟨t, q'⟩ key = attempts ⟨s, q⟩ key)
    (hresting : ∀ lease ∈ resting t, q'.issued lease.leaseId = some key →
      q.issued lease.leaseId = some key ∧
        ∃ old ∈ resting s, old.leaseId = lease.leaseId ∧ old.request = lease.request)
    (hslack : slack s.phase ≤ slack t.phase)
    (hallow : ∀ id r, q.place key = .leased id r → allowance id s.phase ≤ allowance id t.phase)
    (hclosing : ∀ c, t.phase = .completing c → q'.issued c.lease.leaseId = some key →
      Closing b (attempts ⟨s, q⟩ key) c)
    (hroom : ∀ lease rotates, .decided lease (.retried rotates) ∈ t.log →
      q'.issued lease.leaseId = some key →
      .decided lease (.retried rotates) ∈ s.log ∧ q.issued lease.leaseId = some key) :
    Metered b key ⟨t, q'⟩ where
  unknown := by
    intro hp
    rw [hcount]
    exact h.unknown (hplace.symm.trans hp)
  pending := by
    intro request hp
    obtain ⟨hfit, hle⟩ := h.pending request (hplace.symm.trans hp)
    rw [hcount]
    exact ⟨hfit, hle.trans (Nat.add_le_add_left hslack _)⟩
  leased := by
    intro leaseId request hp
    have hp := hplace.symm.trans hp
    obtain ⟨hfit, hle⟩ := h.leased leaseId request hp
    rw [hcount]
    exact ⟨hfit, hle.trans (Nat.add_le_add_left (hallow leaseId request hp) _)⟩
  rests := by
    intro lease hm hi
    obtain ⟨hi, old, hm, hid, hreq⟩ := hresting lease hm hi
    rw [hplace, ← hid, ← hreq]
    exact h.rests old hm (by rw [hid, hi])
  closing := by
    rw [hcount]
    exact hclosing
  total := by
    rw [hcount]
    exact h.total
  room := by
    intro lease rotates hm hi
    obtain ⟨hm, hi⟩ := hroom lease rotates hm hi
    exact h.room lease rotates hm hi

theorem Metered.shift (h : Metered b key ⟨s, q⟩)
    (hlog : t.log = s.log ∨ ∃ effect, t.log = effect :: s.log ∧ effect.decidedId = none)
    (hresting : ∀ lease ∈ resting t, ∃ old ∈ resting s,
      old.leaseId = lease.leaseId ∧ old.request = lease.request)
    (hslack : slack s.phase ≤ slack t.phase)
    (hallow : ∀ id, allowance id s.phase ≤ allowance id t.phase)
    (hclosing : ∀ c, t.phase = .completing c → q.issued c.lease.leaseId = some key →
      Closing b (attempts ⟨s, q⟩ key) c) : Metered b key ⟨t, q⟩ := by
  refine h.frame rfl ?_ ?_ hslack (fun id _ _ => hallow id) hclosing ?_
  · obtain hlog | ⟨effect, hlog, hno⟩ := hlog
    · simp only [attempts, hlog]
    · simp only [attempts, hlog]
      exact countFor_cons_none hno _ _ _
  · intro lease hm hi
    exact ⟨hi, hresting lease hm⟩
  · intro lease rotates hm hi
    refine ⟨?_, hi⟩
    obtain hlog | ⟨effect, hlog, hno⟩ := hlog
    · rwa [hlog] at hm
    · rw [hlog] at hm
      obtain heq | hm := List.mem_cons.mp hm
      · rw [← heq] at hno
        cases hno
      · exact hm

theorem held_unique (hl : Linked opts ⟨s, q⟩) (hlive : Live ⟨s, q⟩) {lease other : Lease}
    {rest : List Lease} (hs : (held s).Perm (lease :: rest)) (hm : other ∈ rest)
    (hk : q.issued lease.leaseId = some key) : q.issued other.leaseId ≠ some key := by
  intro hk'
  obtain ⟨r, hp⟩ := hlive.place (hs.mem_iff.mpr List.mem_cons_self) hk
  obtain ⟨r', hp'⟩ := hlive.place (hs.mem_iff.mpr (List.mem_cons_of_mem _ hm)) hk'
  have hid := LeaseQueue.lease_unique hp hp'
  have hnodup := (hs.map Lease.leaseId).nodup_iff.mp hl.held_nodup
  exact (List.nodup_cons.mp hnodup).1 (List.mem_map.mpr ⟨other, hm, hid.symm⟩)

theorem attempts_called {how : ConsumingCall} {lease : Lease} {ok : Bool}
    (hlog : t.log = .called how lease ok :: s.log) (hissued : q'.issued = q.issued) :
    attempts ⟨t, q'⟩ key = attempts ⟨s, q⟩ key := by
  simp only [attempts, hlog, countFor, hissued]
  exact countFor_cons_none rfl _ _ _

theorem Metered.gave (h : Metered b key ⟨s, q⟩) (hl : Linked opts ⟨s, q⟩) (hlive : Live ⟨s, q⟩)
    {how : ConsumingCall} {op : QueueOp} {lease : Lease} {rest : List Lease}
    {reply : StorageResult Unit} (hret : op.returned = some lease)
    (hhow : callKind op = some how) (hs : (held s).Perm (lease :: rest))
    (hrest : ∀ other ∈ resting t, other ∈ rest ∧ other ∈ resting s)
    (hphase : ∀ c, t.phase ≠ .completing c) (hslack : slack s.phase ≤ slack t.phase)
    (hrefused : (∃ e, unitReply reply = .error e) →
      ∀ id, allowance id s.phase ≤ allowance id t.phase)
    (hcompleting : ∀ c, s.phase = .completing c → c.lease = lease)
    (hlog : t.log = .called how lease reply.isOk :: s.log)
    (hans : q.Responds [] op (unitReply reply) q')
    (hnext : q.issued lease.leaseId = some key → ∀ next,
      LeaseQueue.destination op = some (.pending next) →
        b.Fit next ∧ attempts ⟨s, q⟩ key ≤ b.spent next + slack t.phase) :
    Metered b key ⟨t, q'⟩ := by
  have hroom : ∀ other rotates, .decided other (.retried rotates) ∈ t.log →
      .decided other (.retried rotates) ∈ s.log := by
    intro other rotates hm
    rw [hlog] at hm
    exact List.mem_of_ne_of_mem (by simp) hm
  obtain hc | ⟨hbad, hsame⟩ := LeaseQueue.Responds.gave hans hhow
  · obtain ⟨lease', key', request, place, hret', hgoes, hat, hissued, hplace⟩ := hc.inv
    rw [hret] at hret'
    cases hret'
    simp only [LeaseQueue.withdraw_nil] at hat hissued hplace
    have hkey : q.issued lease.leaseId = some key' := q.issued_of_leased _ _ _ hat
    have hcount : attempts ⟨t, q'⟩ key = attempts ⟨s, q⟩ key := attempts_called hlog hissued
    by_cases hk : key = key'
    · subst hk
      have hnow : q'.place key = place := by rw [hplace, if_pos rfl]
      constructor
      · intro hp
        rw [show q'.place key = place from hnow] at hp
        rw [hp] at hgoes
        cases op <;> cases hgoes
      · intro next hp
        rw [show q'.place key = place from hnow] at hp
        rw [hcount]
        exact hnext hkey next (by rw [hgoes, hp])
      · intro id r hp
        rw [show q'.place key = place from hnow] at hp
        exact absurd hp (LeaseQueue.destination_ne hgoes id r)
      · intro other hm hi
        rw [show q'.issued = q.issued from hissued] at hi
        exact absurd hi (held_unique hl hlive hs (hrest other hm).1 hkey)
      · intro c hp
        exact absurd hp (hphase c)
      · rw [hcount]
        exact h.total
      · intro other rotates hm hi
        rw [show q'.issued = q.issued from hissued] at hi
        exact h.room other rotates (hroom other rotates hm) hi
    · refine h.frame (by rw [hplace, if_neg hk]) hcount ?_ hslack ?_
        (fun c hp => absurd hp (hphase c)) ?_
      · intro other hm hi
        rw [hissued] at hi
        exact ⟨hi, other, (hrest other hm).2, rfl, rfl⟩
      · intro id r hp
        rw [allowance_eq_slack hphase]
        refine (allowance_le_slack ?_).trans hslack
        intro c hp' hid
        rw [← hid, hcompleting c hp'] at hp
        have hkey' := q.issued_of_leased _ _ _ hp
        rw [hkey] at hkey'
        cases hkey'
        exact hk rfl
      · intro other rotates hm hi
        rw [hissued] at hi
        exact ⟨hroom other rotates hm, hi⟩
  · rw [hsame, LeaseQueue.withdraw_nil]
    refine h.shift (.inr ⟨_, hlog, rfl⟩) ?_ hslack (hrefused hbad) fun c hp => absurd hp (hphase c)
    exact fun other hm => ⟨other, (hrest other hm).2, rfl, rfl⟩

theorem Metered.fetched (h : Metered b key ⟨s, q⟩) (hlive : Live ⟨s, q⟩) {lease : Lease}
    (hans : q.Responds [] .fetchNext (.ok (.leased (some lease))) q')
    (hresting : ∀ other ∈ resting t, other = lease ∨ other ∈ resting s)
    (hs : ∀ c, s.phase ≠ .completing c) (hphase : ∀ c, t.phase ≠ .completing c)
    (hslack : slack s.phase = 0) (hlog : t.log = .fetched lease :: s.log)
    (hold : ∀ effect ∈ s.log, ∀ id, effect.decidedId = some id → (q.issued id).isSome) :
    Metered b key ⟨t, q'⟩ := by
  obtain ⟨key', -, hwait, hnone, hq'⟩ := LeaseQueue.Responds.lease_inv hans
  simp only [LeaseQueue.withdraw_nil] at hwait hnone hq'
  have hissued : ∀ id, q'.issued id = if id = lease.leaseId then some key' else q.issued id := by
    intro id
    rw [hq', LeaseQueue.issued_grant]
  have hcount : attempts ⟨t, q'⟩ key = attempts ⟨s, q⟩ key := by
    simp only [attempts, hlog]
    rw [countFor_cons_none rfl]
    exact countFor_congr hold (fun id k => LeaseQueue.Responds.issued_some hans) key
  have hroom : ∀ other rotates, .decided other (.retried rotates) ∈ t.log →
      q'.issued other.leaseId = some key →
      .decided other (.retried rotates) ∈ s.log ∧ q.issued other.leaseId = some key := by
    intro other rotates hm hi
    rw [hlog] at hm
    have hm : .decided other (.retried rotates) ∈ s.log := List.mem_of_ne_of_mem (by simp) hm
    refine ⟨hm, ?_⟩
    obtain ⟨k, hk⟩ := Option.isSome_iff_exists.mp (hold _ hm _ rfl)
    have hkept := LeaseQueue.Responds.issued_some hans hk
    rw [hi] at hkept
    rw [hk, hkept]
  by_cases hk : key = key'
  · subst hk
    obtain ⟨hfit, hle⟩ := h.pending _ hwait
    rw [hslack, Nat.add_zero] at hle
    have hnow : q'.place key = .leased lease.leaseId lease.request := by
      rw [hq', LeaseQueue.place_grant, if_pos rfl]
    constructor
    · intro hp
      cases hnow.symm.trans hp
    · intro next hp
      cases hnow.symm.trans hp
    · intro id r hp
      cases hnow.symm.trans hp
      rw [hcount]
      exact ⟨hfit, hle.trans (Nat.le_add_right _ _)⟩
    · intro other hm hi
      obtain rfl | hm := hresting other hm
      · exact hnow
      · have hne : other.leaseId ≠ lease.leaseId := by
          intro he
          obtain ⟨k, r, hp⟩ := hlive other (resting_subset hm)
          have hsome := q.issued_of_leased _ _ _ hp
          rw [he, hnone] at hsome
          cases hsome
        rw [show q'.issued other.leaseId = q.issued other.leaseId by
          rw [hissued, if_neg hne]] at hi
        obtain ⟨r, hp⟩ := hlive.place (resting_subset hm) hi
        cases hwait.symm.trans hp
    · intro c hp
      exact absurd hp (hphase c)
    · rw [hcount]
      exact h.total
    · intro other rotates hm hi
      obtain ⟨hm, hi⟩ := hroom other rotates hm hi
      exact h.room other rotates hm hi
  · refine h.frame (by rw [hq', LeaseQueue.place_grant, if_neg hk]) hcount ?_
      (by rw [hslack]; exact Nat.zero_le _) ?_ (fun c hp => absurd hp (hphase c)) hroom
    · intro other hm hi
      rw [hissued] at hi
      split_ifs at hi with he
      · cases hi
        exact absurd rfl hk
      · obtain rfl | hm := hresting other hm
        · exact absurd rfl he
        · exact ⟨hi, other, hm, rfl, rfl⟩
    · intro id r _
      rw [allowance_eq_slack hs, hslack]
      exact Nat.zero_le _

theorem closing_of_concludes {old lease : Lease} {joined : Joined} {error : Option CrawlError}
    {observation : AttemptObservation} {handledAt : ℤ} {consulted n : ℕ} {choice : Choice}
    {c : Completing} (hends : Ends old joined lease error observation)
    (hcon : Concludes opts lease observation handledAt consulted error choice c)
    (haccepts : ∀ output, joined = .finished output → b.Accepts output)
    (hfit : b.Fit old.request) (hle : n ≤ b.spent old.request) :
    Closing b (n + 1) c ∧
      ∀ rotates, choice = .retried rotates → b.Room lease.request rotates := by
  have hrestored : b.Fit lease.request ∧ b.spent lease.request = b.spent old.request := by
    cases hends with
    | panicked message => exact ⟨hfit, rfl⟩
    | finished output => exact b.restored old output (haccepts output rfl) hfit
  have htame : ∀ err, error = some err → b.Tame err := by
    intro err herr
    cases hends with
    | panicked message =>
      cases herr
      exact b.tame_panic _
    | finished output => exact b.tame_output output err (haccepts output rfl) herr
  obtain ⟨hfit', hspent⟩ := hrestored
  cases hcon with
  | succeeded total => exact ⟨trivial, fun _ hc => nomatch hc⟩
  | critical err hcrit =>
    obtain ⟨hf, hsp⟩ := b.pushed lease.request (err.toText opts.debugStr) hfit'
    refine ⟨⟨hf, ?_⟩, fun _ hc => nomatch hc⟩
    simp only [hsp, hspent]
    omega
  | retried err rotates request hcrit helig hrot hreq =>
    obtain ⟨hroom, hf, hsp⟩ := b.retried lease.request err observation consulted
      (err.toText opts.debugStr) rotates hfit' (htame err rfl) helig hrot.symm
    have hnext : request.reclaimed (!rotates) =
        retriedRequest lease.request (err.toText opts.debugStr) rotates := by
      rw [retriedRequest, hreq]
    refine ⟨?_, fun r hc => ?_⟩
    · simp only [Closing, hnext, hsp, hspent]
      exact ⟨hf, by omega⟩
    · cases hc
      exact hroom
  | failed err c hcrit helig hlease hcases =>
    refine ⟨?_, fun _ hc => nomatch hc⟩
    obtain ⟨total, text, status, loadedUrl, hc⟩ | ⟨total, text, status, loadedUrl, hc⟩ := hcases
    · rw [hc]
      trivial
    · rw [hc]
      trivial

theorem Metered.concluded (h : Metered b key ⟨s, q⟩) (hl : Linked opts ⟨s, q⟩)
    (hlive : Live ⟨s, q⟩) {old lease : Lease} {joined : Joined} {error : Option CrawlError}
    {observation : AttemptObservation} {handledAt : ℤ} {consulted : ℕ} {choice : Choice}
    {c : Completing} {rest : List Lease} (hends : Ends old joined lease error observation)
    (hcon : Concludes opts lease observation handledAt consulted error choice c)
    (haccepts : q.issued old.leaseId = some key →
      ∀ output, joined = .finished output → b.Accepts output)
    (hs : (held s).Perm (old :: rest)) (hold : old ∈ resting s)
    (hrest : ∀ other ∈ resting t, other ∈ rest ∧ other ∈ resting s)
    (hfrom : ∀ c, s.phase ≠ .completing c) (hslack : slack s.phase = 0)
    (hphase : t.phase = .completing c) (hlog : t.log = .decided lease choice :: s.log) :
    Metered b key ⟨t, q⟩ := by
  have hid : lease.leaseId = old.leaseId := hends.lease_eq.1
  obtain ⟨k, hk⟩ := Option.isSome_iff_exists.mp
    (hl.issued_of_held (hs.mem_iff.mpr List.mem_cons_self))
  have hcount : attempts ⟨t, q⟩ key = attempts ⟨s, q⟩ key + if key = k then 1 else 0 := by
    simp only [attempts, hlog]
    have hsubject : (Effect.decided lease choice).decidedId = some lease.leaseId := rfl
    exact countFor_cons_some hsubject (by rw [hid, hk]) _ _
  by_cases hkey : key = k
  · subst hkey
    rw [if_pos rfl] at hcount
    have hp := h.rests old hold hk
    obtain ⟨hfit, hle⟩ := h.fit_of_resting hfrom hold hk
    rw [hslack, Nat.add_zero] at hle
    obtain ⟨hclosing, hroom⟩ := closing_of_concludes hends hcon (haccepts hk) hfit hle
    have hbound := b.spent_le old.request hfit
    constructor
    · intro hp'
      exact nomatch hp.symm.trans hp'
    · intro next hp'
      exact nomatch hp.symm.trans hp'
    · intro id r hp'
      cases hp.symm.trans hp'
      refine ⟨hfit, ?_⟩
      rw [hcount, hphase, allowance, if_pos (hcon.lease_eq.1.trans hid)]
      exact Nat.add_le_add_right hle 1
    · intro other hm hi
      exact absurd hi (held_unique hl hlive hs (hrest other hm).1 hk)
    · intro c' hp' _
      cases hphase.symm.trans hp'
      rw [hcount]
      exact hclosing
    · rw [hcount]
      omega
    · intro other rotates hm hi
      simp only [hlog] at hm
      obtain heq | hm := List.mem_cons.mp hm
      · cases heq
        exact hroom rotates rfl
      · exact h.room other rotates hm hi
  · rw [if_neg hkey, Nat.add_zero] at hcount
    refine h.frame rfl hcount ?_ (by rw [hslack]; exact Nat.zero_le _) ?_ ?_ ?_
    · intro other hm hi
      exact ⟨hi, other, (hrest other hm).2, rfl, rfl⟩
    · intro id r _
      rw [allowance_eq_slack hfrom, hslack]
      exact Nat.zero_le _
    · intro c' hp' hi
      cases hphase.symm.trans hp'
      rw [hcon.lease_eq.1, hid, hk] at hi
      cases hi
      exact absurd rfl hkey
    · intro other rotates hm hi
      refine ⟨?_, hi⟩
      rw [hlog] at hm
      obtain heq | hm := List.mem_cons.mp hm
      · cases heq
        rw [hid, hk] at hi
        cases hi
        exact absurd rfl hkey
      · exact hm

/-- What an event must meet for the budget of a key: the queue takes back no lease in use,
what an attempt of the key returns is acceptable, and a request added under the key fits. -/
structure Obeys (fits : Request → Prop) (accepts : AttemptOutput → Prop) (key : String)
    (u : System) (ev : SystemEvent) : Prop where
  exclusive : Exclusive u ev
  returns : ∀ slot output now handledAt consulted expired state,
    ev = .engine (.completed slot (.finished output) now handledAt consulted) expired →
    u.engine.slots.lookup slot = some state → u.queue.issued state.lease.leaseId = some key →
    accepts output
  enters : ∀ request, ev = .add request → request.uniqueKey = key → fits request

theorem Metered.withdraw (h : Metered b key ⟨s, q⟩) {expired : List LeaseId}
    (hkeep : ∀ lease ∈ held s, lease.leaseId ∉ expired) :
    Metered b key ⟨s, q.withdraw expired⟩ where
  unknown := by
    intro hp
    obtain heq | ⟨id, r, -, -, hp'⟩ := q.place_withdraw expired key
    · exact h.unknown (heq.symm.trans hp)
    · cases hp'.symm.trans hp
  pending := by
    intro request hp
    obtain heq | ⟨id, r, hid, hleased, hp'⟩ := q.place_withdraw expired key
    · exact h.pending request (heq.symm.trans hp)
    · cases hp'.symm.trans hp
      obtain ⟨hfit, hle⟩ := h.leased id request hleased
      refine ⟨hfit, hle.trans (Nat.add_le_add_left (allowance_le_slack ?_) _)⟩
      intro c hc he
      have hc : s.phase = .completing c := hc
      refine hkeep c.lease ?_ (he ▸ hid)
      simp [held, hc, Phase.leases]
  leased := by
    intro id request hp
    obtain heq | ⟨_, r, -, -, hp'⟩ := q.place_withdraw expired key
    · exact h.leased id request (heq.symm.trans hp)
    · cases hp'.symm.trans hp
  rests := fun lease hm hi =>
    LeaseQueue.withdraw_leased (h.rests lease hm hi) (hkeep lease (resting_subset hm))
  closing := h.closing
  total := h.total
  room := h.room

theorem Linked.issued_of_decided (hl : Linked opts ⟨s, q⟩) :
    ∀ effect ∈ s.log, ∀ id, effect.decidedId = some id → (q.issued id).isSome := by
  intro effect hmem id hid
  cases effect with
  | decided lease choice =>
    cases hid
    exact hl.decided lease choice hmem
  | _ => cases hid

theorem Metered.outside (h : Metered b key ⟨s, q⟩) (hl : Linked opts ⟨s, q⟩) (hlive : Live ⟨s, q⟩)
    (hf : Flow s e t) (hslack : slack s.phase ≤ slack t.phase)
    (hfetch : ∀ lease, queueCall s e = some (.fetchNext, .ok (.leased (some lease))) →
      slack s.phase = 0)
    (hs : ∀ c, s.phase ≠ .completing c) (ht : ∀ c, t.phase ≠ .completing c)
    (hans : q.Reacts [] (queueCall s e) q') : Metered b key ⟨t, q'⟩ := by
  have hrest : (∀ lease, queueCall s e ≠ some (.fetchNext, .ok (.leased (some lease)))) →
      ∀ lease ∈ resting t, ∃ old ∈ resting s,
        old.leaseId = lease.leaseId ∧ old.request = lease.request := by
    intro hno lease hm
    obtain hold | hq := hf.resting hs ht hm
    · exact hold
    · exact absurd hq (hno lease)
  have hclosing : ∀ c, t.phase = .completing c → q.issued c.lease.leaseId = some key →
      Closing b (attempts ⟨s, q⟩ key) c := fun c hp => absurd hp (ht c)
  have hallow : ∀ id, allowance id s.phase ≤ allowance id t.phase := by
    intro id
    rw [allowance_eq_slack hs, allowance_eq_slack ht]
    exact hslack
  have hflow := hf
  cases hflow with
  | kept hq hheld hlog =>
    rw [hans.harmless hq]
    refine h.shift ?_ (hrest ?_) hslack hallow hclosing
    · obtain hlog | ⟨lease, time, hlog⟩ := hlog
      · exact .inl hlog
      · exact .inr ⟨_, hlog, rfl⟩
    · intro lease hcall
      rw [hcall] at hq
      exact hq lease rfl
  | took lease hq hheld hlog =>
    have hzero := hfetch lease hq
    rw [hq] at hans
    refine h.fetched hlive hans ?_ hs ht hzero hlog hl.issued_of_decided
    intro other hm
    rw [resting_eq_held ht] at hm
    rw [resting_eq_held hs]
    exact List.mem_cons.mp (hheld.mem_iff.mp hm)
  | renewed lease rest hq hs' ht' hlog =>
    have hkept := hans
    rw [hq] at hkept
    rw [LeaseQueue.Responds.renewed_eq hkept, LeaseQueue.withdraw_nil]
    exact h.shift (.inl hlog) (hrest fun _ hcall => nomatch hq.symm.trans hcall) hslack hallow
      hclosing
  | concluded old lease choice c rest hq hp hid hexp hid' hs' ht' hlog => exact absurd hp (ht c)
  | gave how op lease reply rest hq hret hhow hfrom hs' ht' hlog =>
    rw [hq] at hans
    have hop : op = .abandon lease := by
      obtain hop | ⟨c, hp, -⟩ := hfrom
      · exact hop
      · exact absurd hp (hs c)
    refine h.gave hl hlive hret hhow hs' ?_ ht hslack (fun _ => hallow)
      (fun c hp => absurd hp (hs c)) hlog hans ?_
    · intro other hm
      rw [resting_eq_held ht] at hm
      rw [resting_eq_held hs]
      have hm := ht'.mem_iff.mp hm
      exact ⟨hm, hs'.mem_iff.mpr (List.mem_cons_of_mem _ hm)⟩
    · intro hk next hgoes
      subst hop
      cases hgoes
      have hm : lease ∈ resting s := by
        rw [resting_eq_held hs]
        exact hs'.mem_iff.mpr List.mem_cons_self
      obtain ⟨hfit, hle⟩ := h.fit_of_resting hs hm hk
      exact ⟨hfit, hle.trans (Nat.add_le_add_left hslack _)⟩

theorem Metered.answered (h : Metered b key ⟨s, q⟩) (hl : Linked opts ⟨s, q⟩)
    (hlive : Live ⟨s, q⟩) {c : Completing} {how : ConsumingCall} {op : QueueOp}
    {reply : StorageResult Unit} {statistics : Statistics} {results : List HandledRequest}
    {phase : Phase} (hp : s.phase = .completing c) (hop : c.op = some op)
    (hhow : callKind op = some how) (hset : Settles s c reply statistics results phase)
    (hphase : t.phase = phase) (hslots : t.slots = s.slots)
    (hdeferred : t.deferredEntries = s.deferredEntries)
    (hlog : t.log = .called how c.lease reply.isOk :: s.log)
    (hans : q.Responds [] op (unitReply reply) q') : Metered b key ⟨t, q'⟩ := by
  have hheld : (held s).Perm (c.lease :: (slotLeases s ++ deferredLeases s)) := by
    simp only [held, hp, Phase.leases]
    exact List.perm_append_comm
  have hparked : resting t = slotLeases s ++ deferredLeases s := by
    have hnone : phase.parked = [] := by cases hset <;> rfl
    simp only [resting, slotLeases, deferredLeases, hslots, hdeferred, hphase, hnone,
      List.append_nil]
  refine h.gave hl hlive (Completing.returned_op hop) hhow hheld ?_ ?_ ?_ ?_ ?_ hlog hans ?_
  · intro other hm
    rw [hparked] at hm
    exact ⟨hm, List.mem_append_left _ hm⟩
  · intro c' hp'
    rw [hphase] at hp'
    cases hset <;> cases hp'
  · rw [hp]
    exact Nat.zero_le _
  · intro hbad id
    have hleft : allowance id phase = 1 := by
      cases hset with
      | critical => rfl
      | refused => rfl
      | _ => obtain ⟨e, he⟩ := hbad; cases he
    rw [hphase, hleft]
    exact allowance_le_one _ _
  · intro c' hp'
    cases hp.symm.trans hp'
    rfl
  · intro hk next hgoes
    have hclose := h.closing c hp hk
    rw [hphase]
    cases c with
    | abandonCancelled lease =>
      cases hop
      cases hgoes
      exact ⟨hclose.1, hclose.2.trans (Nat.le_add_right _ _)⟩
    | abandonCritical lease error =>
      cases hop
      cases hgoes
      have hleft : slack phase = 1 := by cases hset <;> rfl
      rw [hleft]
      exact hclose
    | reclaiming lease rotates =>
      cases hop
      cases hgoes
      exact ⟨hclose.1, hclose.2.trans (Nat.le_add_right _ _)⟩
    | failedHandler => cases hop
    | markFinished =>
      cases hop
      cases hgoes
    | markFailed =>
      cases hop
      cases hgoes

theorem Metered.move (h : Metered b key ⟨s, q⟩) (hl : Linked opts ⟨s, q⟩) (hlive : Live ⟨s, q⟩)
    (hm : Move opts s e t) (hfresh : FreshLeases t.log)
    (hans : q.Reacts [] (queueCall s e) q')
    (hreturns : ∀ slot output now handledAt consulted state,
      e = .completed slot (.finished output) now handledAt consulted →
      s.slots.lookup slot = some state → q.issued state.lease.leaseId = some key →
      b.Accepts output) : Metered b key ⟨t, q'⟩ := by
  have hsound := hl.accounted.sound
  have hflow := hm.flow hsound hfresh
  have hslack : slack s.phase ≤ slack t.phase := by
    apply hm.slack_le
    intro hp
    have hphase := (hsound.move hm hfresh).phase
    rw [hp] at hphase
    exact hphase
  cases hm with
  | quiet clock cancelled drain draining mode limiter phase hc hmode hlim hphase hq =>
    rw [hans.harmless hq]
    refine h.shift (.inl rfl) ?_ hslack (hphase.allowance_le hslack) ?_
    · intro lease hmem
      simp only [resting, hphase.parked] at hmem
      exact ⟨lease, hmem, rfl, rfl⟩
    · intro c hp hi
      simp only at hp
      cases hphase with
      | stay => exact h.closing c hp hi
      | handled =>
        cases hp
        trivial
      | _ => cases hp
  | panic clock _ hc hlost hq ht hi => exact (hsound.no_panic hlost).elim
  | cancelledAttempt wake slot state now handledAt consulted hc hfrom hslot hs =>
    have hsame : q' = q := hans
    have hmem : state.lease ∈ resting s :=
      List.mem_append_left _ (List.mem_append_left _
        (List.mem_map_of_mem (AList.mem_values_iff.mpr ⟨slot, hs⟩)))
    rw [hsame]
    have hno : ∀ c, s.phase ≠ .completing c := fun c hp => (by cases hfrom.symm.trans hp)
    have hallow : ∀ id, allowance id s.phase = 0 := by
      intro id
      rw [hfrom]
      rfl
    refine h.shift (.inl rfl) ?_ hslack (fun id => by rw [hallow id]; exact Nat.zero_le _) ?_
    · intro lease hm
      refine ⟨lease, ?_, rfl, rfl⟩
      simp only [resting, Phase.parked, List.append_nil] at hm
      apply List.mem_append_left
      obtain hm | hm := List.mem_append.mp hm
      · apply List.mem_append_left
        exact ((AList.values_perm_erase hs).map SlotState.lease).mem_iff.mpr
          (List.mem_cons_of_mem _ hm)
      · exact List.mem_append_right _ hm
    · intro c hp hi
      cases hp
      obtain ⟨hfit, hle⟩ := h.fit_of_resting hno hmem hi
      have hzero : slack s.phase = 0 := by rw [hfrom]; rfl
      simp only [hzero, Nat.add_zero] at hle
      exact ⟨hfit, hle⟩
  | concluded wake slot state joined now handledAt consulted lease error observation choice c
      accumulated overrides statistics mode limiter hc hfrom hslot hs hends hcon hfin hfail hret
      hmode hlim =>
    have hsame : q' = q := hans
    have hmem : state.lease ∈ resting s :=
      List.mem_append_left _ (List.mem_append_left _
        (List.mem_map_of_mem (AList.mem_values_iff.mpr ⟨slot, hs⟩)))
    have hslots := (AList.values_perm_erase hs).map SlotState.lease
    rw [hsame]
    have hheld : (held s).Perm
        (state.lease :: ((s.slots.erase slot).values.map SlotState.lease ++ deferredLeases s)) := by
      simp only [held, hfrom, Phase.leases, List.append_nil]
      exact hslots.append_right _
    refine h.concluded hl hlive hends hcon ?_ hheld hmem ?_
      (fun c hp => (by cases hfrom.symm.trans hp)) (by rw [hfrom]; rfl) rfl rfl
    · intro hk output hj
      subst hj
      exact hreturns _ _ _ _ _ state rfl hs hk
    · intro other hm
      simp only [resting, Phase.parked, List.append_nil] at hm
      refine ⟨hm, List.mem_append_left _ ?_⟩
      exact (hslots.append_right _).mem_iff.mpr (List.mem_cons_of_mem _ hm)
  | answered c how op reply statistics results phase hfrom hop hhow hset =>
    have hcall : queueCall s (.answered reply) = some (op, unitReply reply) := by
      simp only [queueCall, hfrom, hop, Option.map_some]
    rw [hcall] at hans
    exact h.answered hl hlive hfrom hop hhow hset rfl rfl rfl rfl hans
  | gather clock drain draining next hc hfrom hq =>
    refine h.outside hl hlive hflow hslack (fun _ hcall => (by cases hq.symm.trans hcall)) ?_
      (fun c hp => (by cases hp)) hans
    intro c hp
    simp [hp] at hfrom
  | release clock outcome hc hfrom hi hq =>
    exact h.outside hl hlive hflow hslack (fun _ hcall => (by cases hq.symm.trans hcall))
      (fun c hp => (by cases hfrom.symm.trans hp)) (fun c hp => (by cases hp)) hans
  | renewed due i sequence entry hfrom hi he hq =>
    exact h.outside hl hlive hflow hslack (fun _ hcall => (by cases hq.symm.trans hcall))
      (fun c hp => (by cases hfrom.symm.trans hp)) (fun c hp => (by cases hp)) hans
  | postponed now started tokenWait desired readyAt sequence rest entry limiter wait phase _ hc hn
      hfrom hlt hd hr he hlim ht hafter =>
    refine h.outside hl hlive hflow hslack (fun _ hcall => (by cases hcall))
      (fun c hp => (by cases hfrom.symm.trans hp)) ?_ hans
    intro c hp
    rw [ht] at hp
    cases hafter <;> cases hp
  | started now started desired readyAt sequence rest entry limiter hc hn hfrom hlt hd
      hr he hlim =>
    exact h.outside hl hlive hflow hslack (fun _ hcall => (by cases hcall))
      (fun c hp => (by cases hfrom.symm.trans hp)) (fun c hp => (by cases hfrom.symm.trans hp)) hans
  | fetched desired lease readyNow stdNow renewNow overrides carried readyAt renewAt h₁ h₂ h₃ hfrom
      hr hw =>
    exact h.outside hl hlive hflow hslack (fun _ _ => by rw [hfrom]; rfl)
      (fun c hp => (by cases hfrom.symm.trans hp)) (fun c hp => (by cases hp)) hans
  | joined slot outcome hfrom hslot =>
    exact h.outside hl hlive hflow hslack (fun _ hcall => (by cases hcall))
      (fun c hp => (by cases hfrom.symm.trans hp)) (fun c hp => (by cases hfrom.symm.trans hp)) hans
  | dropped rest i lease reply phase hi hfrom hq =>
    refine h.outside hl hlive hflow hslack (fun _ hcall => (by cases hq.symm.trans hcall))
      ?_ ?_ hans
    · intro c hp
      simp [hp] at hfrom
    · intro c hp
      obtain ⟨outcome, -, rfl⟩ | ⟨next, -, rfl⟩ := hfrom <;> cases hp

structure Budgeted (b : Budget opts) (key : String) (u : System) : Prop where
  linked : Linked opts u
  live : Live u
  metered : Metered b key u

theorem Budgeted.step {u v : System} {ev : SystemEvent} (h : Budgeted b key u)
    (hobeys : Obeys b.Fit b.Accepts key u ev) (hs : Step opts u ev v) : Budgeted b key v := by
  have hlinked := h.linked.step hs
  refine ⟨hlinked, h.live.step h.linked hs hobeys.exclusive, ?_⟩
  cases hs with
  | dispatched hstep hans =>
    obtain ⟨gone, hgone, hans⟩ := hans.after_withdraw
    have hkeep : ∀ lease ∈ held _, lease.leaseId ∉ gone :=
      fun lease hm hmem => hobeys.exclusive lease hm (hgone hmem)
    refine (h.metered.withdraw hkeep).move (h.linked.withdraw gone) (h.live.withdraw hkeep)
      (step_move hstep) hlinked.fresh hans ?_
    intro slot output now handledAt consulted state he
    exact hobeys.returns slot output now handledAt consulted _ state (by rw [he])
  | @added s q request =>
    obtain heq | ⟨hkey, hnew, hadded⟩ := LeaseQueue.place_add q request key
    · refine h.metered.frame heq ?_ ?_ le_rfl (fun _ _ _ => le_rfl) ?_ ?_
      · simp only [attempts, countFor, LeaseQueue.issued_add]
      · intro lease hm hi
        exact ⟨by simpa using hi, lease, hm, rfl, rfl⟩
      · intro c hp hi
        exact h.metered.closing c hp (by simpa using hi)
      · intro lease rotates hm hi
        exact ⟨hm, by simpa using hi⟩
    · have hcount : attempts ⟨s, q.add request⟩ key = 0 := by
        have hzero := h.metered.unknown hnew
        simpa only [attempts, countFor, LeaseQueue.issued_add] using hzero
      have hno : ∀ lease ∈ held s, (q.add request).issued lease.leaseId ≠ some key := by
        intro lease hm hi
        obtain ⟨r, hp⟩ := h.live.place hm (by simpa using hi)
        exact nomatch hnew.symm.trans hp
      constructor
      · intro _
        exact hcount
      · intro r hp
        cases hadded.symm.trans hp
        rw [hcount]
        exact ⟨hobeys.enters request rfl hkey.symm, Nat.zero_le _⟩
      · intro id r hp
        exact nomatch hadded.symm.trans hp
      · intro lease hm hi
        exact absurd hi (hno lease (resting_subset hm))
      · intro c hp hi
        refine absurd hi (hno c.lease ?_)
        have hp : s.phase = .completing c := hp
        simp [held, hp, Phase.leases]
      · rw [hcount]
        exact Nat.zero_le _
      · intro lease rotates hm hi
        exact h.metered.room lease rotates hm (by simpa using hi)

def Stored (q : LeaseQueue) (key : String) (request : Request) : Prop :=
  q.place key = .pending request ∨ ∃ leaseId, q.place key = .leased leaseId request

theorem run_budgeted (b : Budget opts) (key : String) (statistics : Statistics)
    (limiter : DomainLimiter) (clock : Instant) {q : LeaseQueue} {es : List SystemEvent}
    {v : System} (hq : ∀ request, Stored q key request → b.Fit request)
    (run : Machine.Run (Machine.Guarded (Obeys b.Fit b.Accepts key) (Step opts))
      ⟨start opts statistics limiter clock, q⟩ es v) : Budgeted b key v := by
  refine Machine.run_invariant (fun u ev w h hs => h.step hs.1 hs.2) run ?_
  refine ⟨linked_start statistics limiter clock q, live_start statistics limiter clock q, ?_⟩
  constructor
  · exact fun _ => rfl
  · exact fun request hp => ⟨hq request (.inl hp), Nat.zero_le _⟩
  · exact fun leaseId request hp => ⟨hq request (.inr ⟨leaseId, hp⟩), Nat.zero_le _⟩
  · exact fun lease hm => nomatch hm
  · exact fun c hp => nomatch hp
  · exact Nat.zero_le _
  · exact fun lease rotates hm => nomatch hm

end Millipede.System
