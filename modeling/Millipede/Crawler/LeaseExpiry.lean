import Millipede.Crawler.Politeness
import Millipede.Crawler.QueueCrawl
import Millipede.Crawler.Retries
import Millipede.Storage.FsLeaseTable
import Millipede.Storage.FsQueueRecovery

/-!
# Leases that expire while the dispatcher holds them

The file-system queue takes expired leases back when it is asked for the next request, and one
when it is asked to renew it. The dispatcher renews the leases of requests that wait to be
started, and no others: the lease of an attempt lasts as long as it did when the attempt began.
-/

namespace Millipede

namespace Engine
variable {s t : State} {e : Event} {op : QueueOp} {reply : StorageResult QueueReply}

/-- A lease that the dispatcher names to the queue is one that it holds. -/
theorem queueCall_presented (h : queueCall s e = some (op, reply)) {leaseId : LeaseId}
    (hp : op.presented = some leaseId) : ∃ lease ∈ held s, lease.leaseId = leaseId := by
  cases e with
  | renewed i reply' =>
    simp only [queueCall] at h
    split at h
    · obtain ⟨entry, hentry, heq⟩ := Option.map_eq_some_iff.mp h
      obtain ⟨sequence, -, hlookup⟩ := Option.bind_eq_some_iff.mp hentry
      cases heq
      cases hp
      exact ⟨entry.lease, mem_held_of_deferred hlookup, rfl⟩
    · cases h
  | fetched reply' readyNow stdNow renewNow =>
    cases reply' with
    | none => cases h
    | some reply' =>
      cases h
      cases hp
  | flag value =>
    cases value with
    | none => cases h
    | some value =>
      simp only [queueCall] at h
      split at h
      · cases h
        cases hp
      · cases h
        cases hp
      · cases h
  | answered reply' =>
    simp only [queueCall] at h
    split at h
    · next c hphase =>
      obtain ⟨op', hop, heq⟩ := Option.map_eq_some_iff.mp h
      cases heq
      refine ⟨c.lease, List.mem_append_right _ ?_, ?_⟩
      · rw [hphase]
        exact List.mem_singleton_self _
      · cases c with
        | failedHandler => cases hop
        | _ =>
          cases hop
          exact Option.some.inj hp
    · cases h
  | released i reply' | abandoned i reply' =>
    simp only [queueCall] at h
    split at h
    · next rest other hphase =>
      obtain ⟨lease, hlease, heq⟩ := Option.map_eq_some_iff.mp h
      cases heq
      refine ⟨lease, List.mem_append_right _ ?_, Option.some.inj hp⟩
      rw [hphase]
      exact List.mem_of_getElem? hlease
    · cases h
  | _ => cases h

section Entrusted
variable {opts : EngineOptions} {lease : Lease}

/-- The leases of attempts, and of requests that wait to be started. -/
def entrusted (s : State) : List Lease := slotLeases s ++ deferredLeases s

theorem mem_entrusted : lease ∈ entrusted s ↔
    (∃ slot state, s.slots.lookup slot = some state ∧ state.lease = lease) ∨
      ∃ sequence entry, s.deferredEntries.lookup sequence = some entry ∧ entry.lease = lease := by
  rw [entrusted, List.mem_append, slotLeases, deferredLeases, AList.mem_map_values_iff,
    AList.mem_map_values_iff]

theorem entrusted_subset (s : State) : entrusted s ⊆ held s := List.subset_append_left _ _

/-- A lease is for the request that it was fetched for until its attempt has ended. -/
theorem Move.entrusted (hm : Move opts s e t) (h : lease ∈ entrusted t) :
    (∃ old ∈ entrusted s, old.leaseId = lease.leaseId ∧ old.request = lease.request) ∨
      queueCall s e = some (.fetchNext, .ok (.leased (some lease))) := by
  have hsame : lease ∈ Engine.entrusted s →
      (∃ old ∈ Engine.entrusted s, old.leaseId = lease.leaseId ∧ old.request = lease.request) ∨
        queueCall s e = some (.fetchNext, .ok (.leased (some lease))) :=
    fun hin => .inl ⟨lease, hin, rfl, rfl⟩
  have hslot : ∀ {slot : ℕ} {state : SlotState}, s.slots.lookup slot = some state →
      state.lease ∈ Engine.entrusted s :=
    fun hl => mem_entrusted.mpr (.inl ⟨_, _, hl, rfl⟩)
  have hwaits : ∀ {sequence : ℕ} {entry : DeferredStart},
      s.deferredEntries.lookup sequence = some entry → entry.lease ∈ Engine.entrusted s :=
    fun hl => mem_entrusted.mpr (.inr ⟨_, _, hl, rfl⟩)
  cases hm with
  | panic clock _ hc hlost hq ht =>
    rw [ht] at h
    exact hsame h
  | gather clock drain draining next hc hfrom hq =>
    obtain ⟨slot, state, hl, rfl⟩ | ⟨sequence, entry, hl, -⟩ := mem_entrusted.mp h
    · exact hsame (hslot hl)
    · cases hl
  | release clock outcome hc hfrom hi hq =>
    obtain ⟨slot, state, hl, -⟩ | ⟨sequence, entry, hl, rfl⟩ := mem_entrusted.mp h
    · cases hl
    · exact hsame (hwaits hl)
  | renewed due i sequence entry hfrom hi he hq =>
    obtain ⟨slot, state, hl, rfl⟩ | ⟨other, entry', hl, rfl⟩ := mem_entrusted.mp h
    · exact hsame (hslot hl)
    · rw [AList.lookup_insert_ite] at hl
      split_ifs at hl
      · cases hl
        exact .inl ⟨entry.lease, hwaits he, rfl, rfl⟩
      · exact hsame (hwaits hl)
  | postponed now started tokenWait desired readyAt sequence rest entry limiter wait phase _ hc hn
      hfrom hlt hd hr he hl' ht hafter =>
    subst ht
    obtain ⟨slot, state, hl, rfl⟩ | ⟨other, entry', hl, rfl⟩ := mem_entrusted.mp h
    · exact hsame (hslot hl)
    · rw [AList.lookup_insert_ite, AList.lookup_erase_ite] at hl
      split_ifs at hl
      · cases hl
        exact .inl ⟨entry.lease, hwaits he, rfl, rfl⟩
      · exact hsame (hwaits hl)
  | started now started desired readyAt sequence rest entry limiter hc hn hfrom hlt hd hr he =>
    obtain ⟨slot, state, hl, rfl⟩ | ⟨other, entry', hl, rfl⟩ := mem_entrusted.mp h
    · rw [AList.lookup_insert_ite] at hl
      split_ifs at hl
      · cases hl
        exact .inl ⟨entry.lease, hwaits he, rfl, rfl⟩
      · exact hsame (hslot hl)
    · rw [AList.lookup_erase_ite] at hl
      split_ifs at hl
      exact hsame (hwaits hl)
  | fetched desired fetched readyNow stdNow renewNow overrides carried readyAt renewAt =>
    obtain ⟨slot, state, hl, rfl⟩ | ⟨other, entry', hl, rfl⟩ := mem_entrusted.mp h
    · exact hsame (hslot hl)
    · rw [AList.lookup_insert_ite] at hl
      split_ifs at hl
      · cases hl
        exact .inr rfl
      · exact hsame (hwaits hl)
  | cancelledAttempt wake slot state | concluded wake slot state =>
    obtain ⟨other, state', hl, rfl⟩ | ⟨other, entry', hl, rfl⟩ := mem_entrusted.mp h
    · rw [AList.lookup_erase_ite] at hl
      split_ifs at hl
      exact hsame (hslot hl)
    · exact hsame (hwaits hl)
  | _ => exact hsame h

end Entrusted

end Engine

namespace Crawl

open Engine (EngineOptions queueCall held entrusted Accounted FreshLeases fetchedIds Flow)
open FsQueue (Codec Disk QueueState Surroundings LeaseMove unexpired u64Max)

variable {β : Type*} {codec : Codec β} {opts : EngineOptions}

/-- A call that returns. -/
def fsCalls (codec : Codec β) (p : QueueState × Disk β) (env : Surroundings β) (op : QueueOp)
    (reply : StorageResult QueueReply) (p' : QueueState × Disk β) : Prop :=
  FsQueue.call codec env p.1 p.2 op = .returned reply p'.1 p'.2

/-- Whether the queue, when it is called, takes back a lease that has expired. -/
def looksAt : QueueOp → LeaseId → Prop
  | .fetchNext, _ => True
  | .renew leaseId _, l => l = leaseId
  | _, _ => False

/-- None of the leases the dispatcher holds has reached its deadline when the queue looks at it. -/
def Timely {κ : Type*} (u : Crawl κ) : CrawlEvent (Surroundings β) → Prop
  | .engine e env => ∀ op reply, queueCall u.engine e = some (op, reply) →
      ∀ lease ∈ held u.engine, looksAt op lease.leaseId → env.now < lease.expiresAt
  | .ask _ _ _ => True

/-- The queue has taken back none of the leases the dispatcher holds. -/
def Keeps (u : Crawl (QueueState × Disk β)) : Prop :=
  ∀ lease ∈ held u.engine, u.queue.1.leases.lookup lease.leaseId ≠ none

/-- The dispatcher names no lease that the queue does not find. -/
def Found {κ : Type*} (u : Crawl κ) : CrawlEvent (Surroundings β) → Prop
  | .engine e _ => ∀ op leaseId,
      queueCall u.engine e ≠ some (op, .error (.leaseNotFound leaseId))
  | .ask _ _ _ => True

structure Leased (opts : EngineOptions) (u : Crawl (QueueState × Disk β)) : Prop where
  accounted : Accounted opts u.engine
  fresh : FreshLeases u.engine.log
  granted : ∀ id ∈ fetchedIds u.engine.log, id < u.queue.1.nextLeaseId
  deadline : ∀ lease ∈ held u.engine, ∃ id,
    u.queue.1.leases.lookup lease.leaseId = some (id, lease.expiresAt)

variable {u v : Crawl (QueueState × Disk β)} {ev : CrawlEvent (Surroundings β)}

theorem Leased.keeps (h : Leased opts u) : Keeps u := by
  intro lease hm hnone
  obtain ⟨id, hl⟩ := h.deadline lease hm
  rw [hl] at hnone
  cases hnone

theorem Leased.lt_next (h : Leased opts u) {lease : Lease} (hm : lease ∈ held u.engine) :
    lease.leaseId < u.queue.1.nextLeaseId := by
  apply h.granted
  apply h.accounted.conserved.mem_iff.mpr
  exact List.mem_append_right _ (List.mem_map_of_mem hm)

theorem Leased.held_nodup (h : Leased opts u) : ((held u.engine).map Lease.leaseId).Nodup :=
  (h.accounted.conserved.nodup_iff.mp h.fresh.1).of_append_right

theorem Leased.books_of_same {s t : Engine.State} {k k' : QueueState × Disk β} {e : Engine.Event}
    (h : Leased opts ⟨s, k⟩) (hm : Engine.Move opts s e t)
    (hids : fetchedIds t.log = fetchedIds s.log) (hnext : k.1.nextLeaseId ≤ k'.1.nextLeaseId) :
    Accounted opts t ∧ FreshLeases t.log ∧ ∀ id ∈ fetchedIds t.log, id < k'.1.nextLeaseId := by
  have hfresh : FreshLeases t.log := by
    rw [FreshLeases, hids]
    exact h.fresh
  refine ⟨h.accounted.move hm hfresh, hfresh, ?_⟩
  rw [hids]
  exact fun id hid => (h.granted id hid).trans_le hnext

/-- The books are kept whatever the clock says. -/
theorem Leased.books (h : Leased opts u) (hs : Step opts (fsCalls codec) u ev v) :
    Accounted opts v.engine ∧ FreshLeases v.engine.log ∧
      ∀ id ∈ fetchedIds v.engine.log, id < v.queue.1.nextLeaseId := by
  cases hs with
  | @quiet s t k e env hstep hsilent =>
    have hm := Engine.step_move hstep
    obtain hids | ⟨lease, hcall, -⟩ := System.fetchedIds_of_move hm
    · exact h.books_of_same hm hids le_rfl
    · rw [hsilent] at hcall
      cases hcall
  | @called s t k k' e env op reply hstep hcall hanswer =>
    have hm := Engine.step_move hstep
    have hmove := FsQueue.call_leases hanswer
    obtain hids | ⟨lease, hcall', hids⟩ := System.fetchedIds_of_move hm
    · exact h.books_of_same hm hids hmove.next_le
    · rw [hcall] at hcall'
      cases hcall'
      obtain ⟨hid, hroom, hnext, -⟩ := hmove.granted_inv
      have hgranted : ∀ id ∈ fetchedIds t.log, id < k'.1.nextLeaseId := by
        intro id hmem
        rw [hids] at hmem
        rw [hnext]
        obtain rfl | hmem := List.mem_cons.mp hmem
        · rw [hid]
          exact Nat.lt_succ_self _
        · exact (h.granted id hmem).trans (Nat.lt_succ_self _)
      have hfresh : FreshLeases t.log := by
        rw [FreshLeases, hids]
        refine ⟨List.nodup_cons.mpr ⟨?_, h.fresh.1⟩, ?_⟩
        · intro hmem
          exact absurd (h.granted _ hmem) (Nat.not_lt.mpr hid.ge)
        · intro id hmem
          obtain rfl | hmem := List.mem_cons.mp hmem
          · rw [hid]
            exact hroom.trans_le (by decide)
          · exact h.fresh.2 id hmem
      exact ⟨h.accounted.move hm hfresh, hfresh, hgranted⟩
  | asked other hanswer =>
    refine ⟨h.accounted, h.fresh, fun id hid => ?_⟩
    exact (h.granted id hid).trans_le (FsQueue.call_leases hanswer).next_le

section Call
variable {s t : Engine.State} {k k' : QueueState × Disk β} {e : Engine.Event} {now : Instant}
  {op : QueueOp} {reply : StorageResult QueueReply}

theorem Leased.unexpired (h : Leased opts ⟨s, k⟩)
    (htimely : ∀ lease ∈ held s, looksAt op lease.leaseId → now < lease.expiresAt) {lease : Lease}
    (hm : lease ∈ held s) (hlooks : looksAt op lease.leaseId) :
    ∃ id, FsQueue.unexpired k.1 now lease.leaseId = some (id, lease.expiresAt) := by
  obtain ⟨id, hl⟩ := h.deadline lease hm
  exact ⟨id, FsQueue.unexpired_of_lt hl (htimely lease hm hlooks)⟩

/-- The queue finds every lease that it is asked about in time. -/
theorem Leased.found (h : Leased opts ⟨s, k⟩) (hcall : queueCall s e = some (op, reply))
    (hmove : LeaseMove k.1 now op reply k'.1)
    (htimely : ∀ lease ∈ held s, looksAt op lease.leaseId → now < lease.expiresAt)
    (leaseId : LeaseId) : reply ≠ .error (.leaseNotFound leaseId) := by
  cases hmove with
  | granted lease id _ hid hroom hnext hlookup =>
    intro heq
    cases heq
  | swept _ _ hlease hreply hnext hlookup => exact hreply leaseId
  | renewed id extendBy owner e _ hunexpired hnext hlookup =>
    intro heq
    cases heq
  | lost id extendBy _ hgone hnext hlookup =>
    obtain ⟨lease, hm, hid⟩ := Engine.queueCall_presented hcall rfl
    obtain ⟨owner, hl⟩ := h.unexpired htimely hm hid
    rw [hid, hgone] at hl
    cases hl
  | gave _ lease _ _ hop hnext hsame herror =>
    intro heq
    have hpresented : op.presented = some lease.leaseId := by
      cases op <;> cases hop <;> rfl
    obtain ⟨held, hm, hid⟩ := Engine.queueCall_presented hcall hpresented
    obtain ⟨owner, hl⟩ := h.deadline held hm
    have hnone := herror leaseId heq
    rw [← hid] at hnone
    rw [hnone] at hl
    cases hl
  | other _ _ _ hop hpresented hreply hnext hsame => exact hreply leaseId

/-- What the dispatcher is left with after a call in time. -/
theorem Leased.deadlines (h : Leased opts ⟨s, k⟩) (hflow : Flow s e t)
    (hcall : queueCall s e = some (op, reply)) (hmove : LeaseMove k.1 now op reply k'.1)
    (htimely : ∀ lease ∈ held s, looksAt op lease.leaseId → now < lease.expiresAt) :
    ∀ lease ∈ held t, ∃ id, k'.1.leases.lookup lease.leaseId = some (id, lease.expiresAt) := by
  have hfound := h.found hcall hmove htimely
  cases hflow with
  | kept hq hheld hlog =>
    rw [hcall] at hq
    intro lease hm
    have hm : lease ∈ held s := hheld.mem_iff.mp hm
    cases hmove with
    | granted lease' id _ hid hroom hnext hlookup => exact absurd rfl (hq lease')
    | swept _ _ hlease hreply hnext hlookup =>
      rw [hlookup]
      exact h.unexpired htimely hm trivial
    | renewed id extendBy owner e _ hunexpired hnext hlookup =>
      obtain ⟨e, heq⟩ := hq
      cases heq
    | lost id extendBy _ hgone hnext hlookup => exact absurd rfl (hfound id)
    | gave _ lease' _ _ hop hnext hsame herror =>
      cases op with
      | markHandled | reclaim | abandon => exact hq.elim
      | _ => cases hop
    | other _ _ _ hop hpresented hreply hnext hsame =>
      rw [hsame]
      exact h.deadline lease hm
  | took lease hq hheld hlog =>
    rw [hcall] at hq
    cases hq
    obtain ⟨hid, -, -, id, hlookup⟩ := hmove.granted_inv
    intro other hm
    rw [hlookup]
    obtain rfl | hm := List.mem_cons.mp (hheld.mem_iff.mp hm)
    · exact ⟨id, if_pos rfl⟩
    · have hold : other.leaseId < k.1.nextLeaseId := h.lt_next hm
      have hne : other.leaseId ≠ lease.leaseId := by
        rw [hid]
        exact hold.ne
      rw [if_neg hne]
      exact h.unexpired htimely hm trivial
  | renewed lease rest hq hs ht hlog =>
    rw [hcall] at hq
    cases hq
    have hnodup := (hs.map Lease.leaseId).nodup_iff.mp h.held_nodup
    have hm : lease ∈ held s := hs.mem_iff.mpr List.mem_cons_self
    cases hmove with
    | renewed _ _ owner e _ hunexpired hnext hlookup =>
      obtain ⟨id, hl⟩ := h.unexpired htimely hm rfl
      rw [hunexpired] at hl
      cases hl
      intro other hother
      rw [hlookup]
      obtain rfl | hother := List.mem_cons.mp (ht.mem_iff.mp hother)
      · exact ⟨owner, if_pos rfl⟩
      · have hne : other.leaseId ≠ lease.leaseId := by
          intro heq
          exact (List.nodup_cons.mp hnodup).1 (heq ▸ List.mem_map_of_mem hother)
        rw [if_neg hne]
        exact h.deadline other (hs.mem_iff.mpr (List.mem_cons_of_mem _ hother))
    | gave _ _ _ _ hop => cases hop
    | other _ _ _ _ hpresented => cases hpresented
  | concluded old lease choice c rest hq =>
    rw [hcall] at hq
    cases hq
  | gave how op' lease reply' rest hq hret hhow hfrom hs ht hlog =>
    rw [hcall] at hq
    cases hq
    have hnodup := (hs.map Lease.leaseId).nodup_iff.mp h.held_nodup
    intro other hother
    have hother := ht.mem_iff.mp hother
    have hne : other.leaseId ≠ lease.leaseId := by
      intro heq
      exact (List.nodup_cons.mp hnodup).1 (heq ▸ List.mem_map_of_mem hother)
    have hl := h.deadline other (hs.mem_iff.mpr (List.mem_cons_of_mem _ hother))
    cases op with
    | markHandled | reclaim | abandon =>
      cases hmove with
      | gave _ _ _ _ hop hnext hsame herror =>
        rw [hret] at hop
        cases hop
        obtain hsame | ⟨hid, -⟩ := hsame other.leaseId
        · rw [hsame]
          exact hl
        · exact absurd hid hne
      | other _ _ _ _ hpresented => cases hpresented
    | _ => cases hret

theorem held_of_flow (hflow : Flow s e t) (hcall : queueCall s e = some (op, reply))
    (hop : op.returned = none)
    (hreply : ∀ leaseId extendBy, op = .renew leaseId extendBy → reply ≠ .ok .unit)
    {lease : Lease} (hm : lease ∈ held s) : lease ∈ held t := by
  cases hflow with
  | kept hq hheld hlog => exact hheld.mem_iff.mpr hm
  | took lease' hq hheld hlog => exact hheld.mem_iff.mpr (List.mem_cons_of_mem _ hm)
  | renewed lease' rest hq hs ht hlog =>
    rw [hcall] at hq
    cases hq
    exact absurd rfl (hreply _ _ rfl)
  | concluded old lease' choice c rest hq =>
    rw [hcall] at hq
    cases hq
  | gave how op' lease' reply' rest hq hret hhow hfrom hs ht hlog =>
    rw [hcall] at hq
    injection hq with hq
    injection hq with hop' hreply'
    rw [← hop', hop] at hret
    cases hret

/-- A lease that has expired when the queue looks at it is taken back and still held. -/
theorem Leased.lost (h : Leased opts ⟨s, k⟩) (hflow : Flow s e t)
    (hcall : queueCall s e = some (op, reply)) (hmove : LeaseMove k.1 now op reply k'.1)
    {lease : Lease} (hm : lease ∈ held s) (hlooks : looksAt op lease.leaseId)
    (hlate : lease.expiresAt ≤ now) :
    lease ∈ held t ∧ k'.1.leases.lookup lease.leaseId = none := by
  obtain ⟨id, hl⟩ := h.deadline lease hm
  have hgone := FsQueue.unexpired_of_le hl hlate
  have hlt : lease.leaseId < k.1.nextLeaseId := h.lt_next hm
  cases hmove with
  | granted granted owner _ hid hroom hnext hlookup =>
    have hne : lease.leaseId ≠ granted.leaseId := by
      rw [hid]
      exact hlt.ne
    refine ⟨held_of_flow hflow hcall rfl (fun _ _ hop => by cases hop) hm, ?_⟩
    rw [hlookup, if_neg hne, hgone]
  | swept _ _ hlease hreply hnext hlookup =>
    refine ⟨held_of_flow hflow hcall rfl (fun _ _ hop => by cases hop) hm, ?_⟩
    rw [hlookup, hgone]
  | renewed leaseId extendBy owner e _ hunexpired hnext hlookup =>
    have hid : lease.leaseId = leaseId := hlooks
    rw [← hid, hgone] at hunexpired
    cases hunexpired
  | lost leaseId extendBy _ hnone hnext hlookup =>
    have hid : lease.leaseId = leaseId := hlooks
    refine ⟨held_of_flow hflow hcall rfl (fun _ _ _ heq => by cases heq) hm, ?_⟩
    rw [hlookup, if_pos hid]
  | gave _ lease' _ _ hop hnext hsame herror =>
    cases op with
    | markHandled | reclaim | abandon => exact hlooks.elim
    | _ => cases hop
  | other _ _ _ hop hpresented hreply hnext hsame =>
    cases op with
    | fetchNext => exact absurd rfl hop
    | renew => cases hpresented
    | _ => exact hlooks.elim

end Call

theorem Leased.step (h : Leased opts u) (hs : Step opts (fsCalls codec) u ev v)
    (htimely : Timely u ev) : Leased opts v ∧ Found u ev := by
  obtain ⟨haccounted, hfresh, hgranted⟩ := h.books hs
  cases hs with
  | @quiet s t k e env hstep hsilent =>
    have hflow := (Engine.step_move hstep).flow h.accounted.sound hfresh
    refine ⟨⟨haccounted, hfresh, hgranted, ?_⟩, ?_⟩
    · cases hflow with
      | kept hq hheld hlog =>
        intro lease hm
        exact h.deadline lease (hheld.mem_iff.mp hm)
      | took _ hq | renewed _ _ hq | gave _ _ _ _ _ hq =>
        rw [hsilent] at hq
        cases hq
      | concluded old lease choice c rest hq hp hid hexp hid' hs ht hlog =>
        intro other hm
        obtain rfl | hm := List.mem_cons.mp (ht.mem_iff.mp hm)
        · rw [hid, hexp]
          exact h.deadline old (hs.mem_iff.mpr List.mem_cons_self)
        · exact h.deadline other (hs.mem_iff.mpr (List.mem_cons_of_mem _ hm))
    · intro op leaseId hcall
      rw [hsilent] at hcall
      cases hcall
  | @called s t k k' e env op reply hstep hcall hanswer =>
    have hflow := (Engine.step_move hstep).flow h.accounted.sound hfresh
    have hmove := FsQueue.call_leases hanswer
    have hlate := htimely op reply hcall
    refine ⟨⟨haccounted, hfresh, hgranted, h.deadlines hflow hcall hmove hlate⟩, ?_⟩
    intro op' leaseId hcall'
    have hfound := h.found hcall hmove hlate leaseId
    rw [hcall] at hcall'
    cases hcall'
    exact hfound rfl
  | @asked s k k' op env reply other hanswer =>
    refine ⟨⟨haccounted, hfresh, hgranted, ?_⟩, trivial⟩
    intro lease hm
    obtain ⟨id, hl⟩ := h.deadline lease hm
    refine ⟨id, ?_⟩
    cases FsQueue.call_leases hanswer with
    | granted | swept | renewed | lost => cases other
    | gave _ _ _ _ hop =>
      cases op with
      | markHandled | reclaim | abandon => cases other
      | _ => cases hop
    | other _ _ _ _ _ _ _ hsame =>
      rw [hsame]
      exact hl

theorem Leased.timely (h : Leased opts u) (hs : Step opts (fsCalls codec) u ev v)
    (hkeeps : Keeps v) : Timely u ev := by
  obtain ⟨-, hfresh, -⟩ := h.books hs
  cases hs with
  | @quiet s t k e env hstep hsilent =>
    intro op reply hcall
    rw [hsilent] at hcall
    cases hcall
  | @called s t k k' e env op reply hstep hcall hanswer =>
    intro op' reply' hcall' lease hm hlooks
    rw [hcall] at hcall'
    cases hcall'
    by_contra hlate
    have hflow := (Engine.step_move hstep).flow h.accounted.sound hfresh
    obtain ⟨hheld, hnone⟩ := h.lost hflow hcall (FsQueue.call_leases hanswer) hm hlooks
      (Nat.le_of_not_lt hlate)
    exact hkeeps lease hheld hnone
  | asked other hanswer => trivial


/-- A request that is added under a new key has a new identifier, and a lease comes back with the
identifier that it was granted for. -/
def Admits (u : Crawl (QueueState × Disk β)) : CrawlEvent (Surroundings β) → Prop
  | .engine e _ => ∀ op reply, queueCall u.engine e = some (op, reply) →
      FsQueue.Admissible (fun _ => True) u.queue.1 op
  | .ask op _ _ => FsQueue.Admissible (fun _ => True) u.queue.1 op

abbrev Orderly (codec : Codec β) (n : ℕ) (k : QueueState × Disk β) : Prop :=
  FsQueue.Kept codec (fun _ => True) n k.1 k.2

/-- Attempts and waiting requests have the leases of their own requests. -/
def Attributed (u : Crawl (QueueState × Disk β)) : Prop :=
  ∀ lease ∈ entrusted u.engine, ∃ e,
    u.queue.1.leases.lookup lease.leaseId = some (lease.request.id, e)

theorem Orderly.step {n : ℕ} (h : Orderly codec n u.queue) (hn : n < u64Max)
    (hs : Step opts (fsCalls codec) u ev v) (hadmits : Admits u ev) :
    Orderly codec (n + 1) v.queue := by
  have hcalled : ∀ {k' : QueueState × Disk β} {env : Surroundings β} {op : QueueOp}
      {reply : StorageResult QueueReply}, FsQueue.Admissible (fun _ => True) u.queue.1 op →
      fsCalls codec u.queue env op reply k' → Orderly codec (n + 1) k' := by
    intro k' env op reply hop hanswer
    have hkept := FsQueue.call_kept h hn (fun _ _ _ => trivial) env hop
      (FsQueue.representable_of_call hanswer)
    rw [hanswer] at hkept
    exact hkept
  cases hs with
  | quiet hstep hsilent => exact h.mono (Nat.le_succ n)
  | called hstep hcall hanswer => exact hcalled (hadmits _ _ hcall) hanswer
  | asked other hanswer => exact hcalled hadmits hanswer

theorem Attributed.step {n : ℕ} (h : Attributed u) (hl : Leased opts u) (hl' : Leased opts v)
    (hsorted : Orderly codec n u.queue) (hs : Step opts (fsCalls codec) u ev v) : Attributed v := by
  intro lease hm
  obtain ⟨id', hid'⟩ := hl'.deadline lease (Engine.entrusted_subset _ hm)
  refine ⟨lease.expiresAt, ?_⟩
  have hmoved : ∀ {k' : QueueState × Disk β} {env : Surroundings β} {op : QueueOp}
      {reply : StorageResult QueueReply}, fsCalls codec u.queue env op reply k' →
      ∀ old ∈ entrusted u.engine, ∀ {id : RequestId} {e : Instant},
        k'.1.leases.lookup old.leaseId = some (id, e) → id = old.request.id := by
    intro k' env op reply hanswer old hold id e hlookup
    obtain ⟨e₀, hbefore⟩ := h old hold
    exact (FsQueue.call_leases hanswer).owner hbefore
      (hl.lt_next (Engine.entrusted_subset _ hold)) hlookup
  cases hs with
  | @quiet s t k e env hstep hsilent =>
    obtain ⟨old, hold, hleaseId, hrequest⟩ | hcall := (Engine.step_move hstep).entrusted hm
    · obtain ⟨e₀, hbefore⟩ := h old hold
      rw [hleaseId] at hbefore
      rw [hid'] at hbefore
      cases hbefore
      rw [hid', hrequest]
    · rw [hsilent] at hcall
      cases hcall
  | @called s t k k' e env op reply hstep hcall hanswer =>
    obtain ⟨old, hold, hleaseId, hrequest⟩ | hcall' := (Engine.step_move hstep).entrusted hm
    · rw [← hleaseId] at hid'
      have hsame := hmoved hanswer old hold hid'
      rw [← hleaseId, hid', hsame, hrequest]
    · rw [hcall] at hcall'
      cases hcall'
      obtain ⟨e₀, hgranted⟩ := hsorted.granted hanswer
      rw [hid'] at hgranted
      cases hgranted
      exact hid'
  | asked other hanswer =>
    have hsame := hmoved hanswer lease hm hid'
    rw [hid', hsame]

/-- Two attempts in flight are for two requests. -/
theorem Attributed.attempts_apart {n : ℕ} (h : Attributed u) (hl : Leased opts u)
    (horderly : Orderly codec n u.queue) {slot slot' : ℕ} {state state' : Engine.SlotState}
    (hs : u.engine.slots.lookup slot = some state)
    (hs' : u.engine.slots.lookup slot' = some state')
    (hid : state.lease.request.id = state'.lease.request.id) : slot = slot' := by
  obtain ⟨e, hlease⟩ := h state.lease (Engine.mem_entrusted.mpr (.inl ⟨slot, state, hs, rfl⟩))
  obtain ⟨e', hlease'⟩ := h state'.lease (Engine.mem_entrusted.mpr (.inl ⟨slot', state', hs', rfl⟩))
  rw [← hid] at hlease'
  have hsame := horderly.consistent.lease_unique _ _ _ _ _ hlease hlease'
  by_contra hne
  have hother : (u.engine.slots.erase slot).lookup slot' = some state' := by
    rw [AList.lookup_erase_ite, if_neg fun heq => hne heq.symm]
    exact hs'
  have hslots : ((Engine.slotLeases u.engine).map Lease.leaseId).Nodup := by
    have hnodup := hl.held_nodup
    rw [held, List.append_assoc, List.map_append] at hnodup
    exact hnodup.of_append_left
  have hperm := ((AList.values_perm_erase hs).map Engine.SlotState.lease).map Lease.leaseId
  apply (List.nodup_cons.mp (hperm.nodup_iff.mp hslots)).1
  rw [hsame]
  refine List.mem_map_of_mem (List.mem_map_of_mem ?_)
  exact AList.mem_values_iff.mpr ⟨slot', hother⟩

/-- A step in which the queue finds the lease it is asked about, and after which it has all those
the dispatcher holds. -/
def Safe (codec : Codec β) (opts : EngineOptions) (u : Crawl (QueueState × Disk β))
    (ev : CrawlEvent (Surroundings β)) (v : Crawl (QueueState × Disk β)) : Prop :=
  Step opts (fsCalls codec) u ev v ∧ Found u ev ∧ Keeps v

theorem leased_start (statistics : Statistics) (limiter : DomainLimiter) (clock : Instant)
    (k : QueueState × Disk β) : Leased opts ⟨Engine.start opts statistics limiter clock, k⟩ where
  accounted := Engine.accounted_start statistics limiter clock
  fresh := by
    refine ⟨List.nodup_nil, fun _ hid => ?_⟩
    cases hid
  granted := by
    intro id hid
    cases hid
  deadline := by
    intro lease hm
    cases hm

/-- The dispatcher works under live leases in a run exactly if none of the leases it holds has
reached its deadline whenever the queue looks at it; then no two attempts in flight are for one
request, as long as requests keep the identifiers they were added with. -/
theorem leases_live (statistics : Statistics) (limiter : DomainLimiter) (clock : Instant)
    (k : QueueState × Disk β) (es : List (CrawlEvent (Surroundings β)))
    (u : Crawl (QueueState × Disk β)) :
    (Machine.Run (Machine.Guarded Timely (Step opts (fsCalls codec)))
        ⟨Engine.start opts statistics limiter clock, k⟩ es u ↔
      Machine.Run (Safe codec opts) ⟨Engine.start opts statistics limiter clock, k⟩ es u) ∧
    ∀ before : List (FsQueue.Event β), codec.RoundTrips →
      Machine.Along (FsQueue.Process.step codec) (FsQueue.Allowed fun _ => True)
        FsQueue.Process.start before →
      FsQueue.Process.run codec before = .running k.1 k.2 →
      before.length + es.length < u64Max →
      Machine.Run (Machine.Guarded (fun u ev => Timely u ev ∧ Admits u ev)
        (Step opts (fsCalls codec))) ⟨Engine.start opts statistics limiter clock, k⟩ es u →
      ∀ slot slot' state state', u.engine.slots.lookup slot = some state →
        u.engine.slots.lookup slot' = some state' →
        state.lease.request.id = state'.lease.request.id → slot = slot' := by
  have hstart : Leased opts ⟨Engine.start opts statistics limiter clock, k⟩ :=
    leased_start statistics limiter clock k
  refine ⟨⟨fun run => ?_, fun run => ?_⟩, ?_⟩
  · suffices h : Machine.Run (Safe codec opts) _ es u ∧ Leased opts u from h.1
    induction run with
    | nil => exact ⟨.nil _, hstart⟩
    | snoc _ hstep ih =>
      obtain ⟨hrun, hleased⟩ := ih
      obtain ⟨hleased', hfound⟩ := hleased.step hstep.2 hstep.1
      exact ⟨hrun.snoc ⟨hstep.2, hfound, hleased'.keeps⟩, hleased'⟩
  · suffices h : Machine.Run (Machine.Guarded Timely (Step opts (fsCalls codec))) _ es u ∧
        Leased opts u from h.1
    induction run with
    | nil => exact ⟨.nil _, hstart⟩
    | snoc _ hsafe ih =>
      obtain ⟨hrun, hleased⟩ := ih
      obtain ⟨hstep, -, hkeeps⟩ := hsafe
      have htimely := hleased.timely hstep hkeeps
      exact ⟨hrun.snoc ⟨htimely, hstep⟩, (hleased.step hstep htimely).1⟩
  · intro before hround allowed hbefore few run slot slot' state state' hs hs' hid
    have horderly : Orderly codec before.length k := by
      have hkept := FsQueue.Process.Kept.run (fun _ _ _ => trivial) hround (fun _ _ _ _ hq => hq)
        FsQueue.Process.kept_start allowed (by omega)
      rw [Nat.zero_add, ← FsQueue.Process.run, hbefore] at hkept
      exact hkept
    suffices h : Leased opts u ∧ Orderly codec (before.length + es.length) u.queue ∧ Attributed u
      from h.2.2.attempts_apart h.1 h.2.1 hs hs' hid
    clear hs hs' hid
    induction run with
    | nil =>
      refine ⟨hstart, horderly, fun lease hm => ?_⟩
      cases hm
    | snoc _ hstep ih =>
      rw [List.length_append, List.length_singleton, ← Nat.add_assoc] at few ⊢
      obtain ⟨hleased, hold, hattributed⟩ := ih (by omega)
      obtain ⟨⟨htimely, hadmits⟩, hstep⟩ := hstep
      have hleased' := (hleased.step hstep htimely).1
      exact ⟨hleased', hold.step (by omega) hstep hadmits,
        hattributed.step hleased hleased' hold hstep⟩

-- Two slots: the attempt of a page outlasts its lease, and the page is fetched again.
open FsQueue (leaseTtl plainCodec)
open Engine (State ticks twoSlots leaseOf pageRequest)
open Millipede.System (silentStep pageHandled pageOutput article fetching)

def secondLease : Lease := ⟨pageRequest, 1, leaseTtl + leaseTtl⟩

def continued (s : State) (es : List Engine.Event) : State :=
  (es.foldlM (silentStep twoSlots) s).getD s

def beforePage : State := continued (Engine.start twoSlots {} ∅ 0) (ticks 0 4)

def pageStarted : State :=
  continued (Engine.fetched { beforePage with clock := 0 } 2 (leaseOf 0 pageRequest) 0 0 0)
    (ticks 0 2)

def waitsOn : List Engine.Event := ticks 0 1 ++ [.woken .fallback leaseTtl] ++ ticks leaseTtl 4

def pageLate : State := continued { pageStarted with clock := 0, phase := .settling } waitsOn

def pageTwice : State :=
  continued (Engine.fetched { pageLate with clock := leaseTtl } 2 secondLease leaseTtl leaseTtl
    leaseTtl) (ticks leaseTtl 3)

def nothingNow : Engine.Event := .fetched (some (.ok none)) 0 0 0

def fetchedAgain : Engine.Event :=
  .fetched (some (.ok (some secondLease))) leaseTtl leaseTtl leaseTtl

def overlapEvents : List (CrawlEvent (Surroundings (Request × Option ℤ))) :=
  (ticks 0 4 ++ [fetching 0 pageRequest 0] ++ ticks 0 2 ++ [nothingNow] ++ waitsOn).map
      (.engine · (.calm 0)) ++
    ([fetchedAgain] ++ ticks leaseTtl 3).map (.engine · (.calm leaseTtl))

theorem fs_pageTwice : ∃ k k₁ k₂ k₃,
    FsQueue.Process.run plainCodec [.call (.calm 0) (.add pageRequest {})] = .running k.1 k.2 ∧
    fsCalls plainCodec k (.calm 0) .fetchNext (.ok (.leased (some (leaseOf 0 pageRequest)))) k₁ ∧
    fsCalls plainCodec k₁ (.calm 0) .fetchNext (.ok (.leased none)) k₂ ∧
    fsCalls plainCodec k₂ (.calm leaseTtl) .fetchNext (.ok (.leased (some secondLease))) k₃ ∧
    k₃.1.leases.lookup 0 = none ∧
    fsCalls plainCodec k₃ (.calm leaseTtl) (.markHandled pageHandled)
      (.error (.leaseNotFound 0)) k₃ :=
  ⟨(_, _), (_, _), (_, _), (_, _), rfl, rfl, rfl, rfl, rfl, rfl⟩

theorem run_overlapEvents {k k₁ k₂ k₃ : QueueState × Disk (Request × Option ℤ)}
    (fetch : fsCalls plainCodec k (.calm 0) .fetchNext
      (.ok (.leased (some (leaseOf 0 pageRequest)))) k₁)
    (idle : fsCalls plainCodec k₁ (.calm 0) .fetchNext (.ok (.leased none)) k₂)
    (again : fsCalls plainCodec k₂ (.calm leaseTtl) .fetchNext
      (.ok (.leased (some secondLease))) k₃) :
    Machine.Run (Step twoSlots (fsCalls plainCodec)) ⟨Engine.start twoSlots {} ∅ 0, k⟩
      overlapEvents ⟨pageTwice, k₃⟩ := by
  have hopen := run_silent twoSlots (fsCalls plainCodec) k (.calm 0)
    (rfl : (ticks 0 4).foldlM (silentStep twoSlots) (Engine.start twoSlots {} ∅ 0) =
      some beforePage)
  have hfetch := hopen.snoc (e := .engine (fetching 0 pageRequest 0) (.calm 0))
    (.called rfl rfl fetch)
  have hstart := hfetch.append (run_silent twoSlots (fsCalls plainCodec) k₁ (.calm 0)
    (rfl : (ticks 0 2).foldlM (silentStep twoSlots) _ = some pageStarted))
  have hidle := hstart.snoc (e := .engine nothingNow (.calm 0)) (.called rfl rfl idle)
  have hwait := hidle.append (run_silent twoSlots (fsCalls plainCodec) k₂ (.calm 0)
    (rfl : waitsOn.foldlM (silentStep twoSlots) _ = some pageLate))
  have hagain := hwait.snoc (e := .engine fetchedAgain (.calm leaseTtl)) (.called rfl rfl again)
  have htwice := hagain.append (run_silent twoSlots (fsCalls plainCodec) k₃ (.calm leaseTtl)
    (rfl : (ticks leaseTtl 3).foldlM (silentStep twoSlots) _ = some pageTwice))
  simpa [overlapEvents] using htwice

def pageEnds : Engine.Event := .completed 0 (.finished pageOutput) leaseTtl 0 0

def pageRefused : Engine.Event := .answered (.error (.leaseNotFound 0))

/-- The second attempt starts beside the first, whose end then names a lease that is gone. -/
theorem attempts_overlap : ∃ k u v w,
    FsQueue.Process.run plainCodec [.call (.calm 0) (.add pageRequest {})] =
      .running k.1 k.2 ∧
    Machine.Run (Step twoSlots (fsCalls plainCodec)) ⟨Engine.start twoSlots {} ∅ 0, k⟩
      overlapEvents u ∧
    ¬ Keeps u ∧
    (∃ first second, u.engine.inFlight = [0, 1] ∧ u.engine.slots.lookup 0 = some first ∧
      u.engine.slots.lookup 1 = some second ∧
      first.lease.request.id = second.lease.request.id) ∧
    Step twoSlots (fsCalls plainCodec) u (.engine pageEnds (.calm leaseTtl)) v ∧
    Step twoSlots (fsCalls plainCodec) v (.engine pageRefused (.calm leaseTtl)) w ∧
    ¬ Found v (.engine pageRefused (Surroundings.calm leaseTtl)) := by
  obtain ⟨k, k₁, k₂, k₃, hadded, hfetch, hidle, hagain, hgone, hrefused⟩ := fs_pageTwice
  refine ⟨k, ⟨pageTwice, k₃⟩, ⟨_, k₃⟩, ⟨_, k₃⟩, hadded, run_overlapEvents hfetch hidle hagain,
    ?_, ⟨_, _, rfl, rfl, rfl, rfl⟩, .quiet rfl rfl, .called rfl rfl hrefused, ?_⟩
  · intro hkeeps
    exact hkeeps (leaseOf 0 pageRequest) (List.mem_cons_of_mem _ List.mem_cons_self) hgone
  · intro hfound
    exact hfound (.markHandled pageHandled) 0 rfl

-- Two requests in two slots, both under live leases.
theorem timely_silent {s : State} {k : QueueState × Disk β} {e : Engine.Event}
    {env : Surroundings β} (h : queueCall s e = none) :
    Timely ⟨s, k⟩ (.engine e env) ∧ Admits ⟨s, k⟩ (.engine e env) := by
  constructor
  · intro op reply hcall
    rw [h] at hcall
    cases hcall
  · intro op reply hcall
    rw [h] at hcall
    cases hcall

theorem admits_fetching {s : State} {k : QueueState × Disk β} {leaseId : LeaseId}
    {request : Request} {now : Instant} {env : Surroundings β} :
    Admits ⟨s, k⟩ (.engine (fetching leaseId request now) env) := by
  intro op reply hcall
  cases hcall
  refine ⟨fun r hr => ?_, fun r hr => ?_, fun lease hl => ?_⟩
  · cases hr
  · cases hr
  · cases hl

def pairFetched : State :=
  continued (Engine.fetched { beforePage with clock := 0 } 2 (leaseOf 0 article) 0 0 0) (ticks 0 2)

def pairStarted : State :=
  continued (Engine.fetched { pairFetched with clock := 0 } 2 (leaseOf 1 pageRequest) 0 0 0)
    (ticks 0 3)

def pairEvents : List (CrawlEvent (Surroundings (Request × Option ℤ))) :=
  (ticks 0 4 ++ [fetching 0 article 0] ++ ticks 0 2 ++ [fetching 1 pageRequest 0] ++
    ticks 0 3).map (.engine · (.calm 0))

def pairAdded : List (FsQueue.Event (Request × Option ℤ)) :=
  [.call (.calm 0) (.add article {}), .call (.calm 0) (.add pageRequest {})]

theorem fs_pair : ∃ k k₁ k₂,
    FsQueue.Process.run plainCodec pairAdded = .running k.1 k.2 ∧
    fsCalls plainCodec k (.calm 0) .fetchNext (.ok (.leased (some (leaseOf 0 article)))) k₁ ∧
    fsCalls plainCodec k₁ (.calm 0) .fetchNext
      (.ok (.leased (some (leaseOf 1 pageRequest)))) k₂ :=
  ⟨(_, _), (_, _), (_, _), rfl, rfl, rfl⟩

theorem allowed_pairAdded : Machine.Along (FsQueue.Process.step plainCodec)
    (FsQueue.Allowed fun _ => True) FsQueue.Process.start pairAdded := by
  have hids : pageRequest.id ≠ article.id := by decide +kernel
  refine ⟨⟨fun r hr => ⟨trivial, ?_⟩, ?_, ?_⟩, ⟨fun r hr => ⟨trivial, ?_⟩, ?_, ?_⟩, trivial⟩
  · exact fun _ => rfl
  · intro r hr q hq _
    rw [List.mem_singleton.mp hr, List.mem_singleton.mp hq]
  · intro lease hl
    cases hl
  · rw [List.mem_singleton.mp hr]
    intro _
    exact (AList.lookup_insert_ite ..).trans (if_neg hids)
  · intro r hr q hq _
    rw [List.mem_singleton.mp hr, List.mem_singleton.mp hq]
  · intro lease hl
    cases hl

theorem run_pairEvents {k k₁ k₂ : QueueState × Disk (Request × Option ℤ)}
    (first : fsCalls plainCodec k (.calm 0) .fetchNext
      (.ok (.leased (some (leaseOf 0 article)))) k₁)
    (second : fsCalls plainCodec k₁ (.calm 0) .fetchNext
      (.ok (.leased (some (leaseOf 1 pageRequest)))) k₂) :
    Machine.Run (Machine.Guarded (fun u ev => Timely u ev ∧ Admits u ev)
        (Step twoSlots (fsCalls plainCodec))) ⟨Engine.start twoSlots {} ∅ 0, k⟩ pairEvents
      ⟨pairStarted, k₂⟩ := by
  have hopen := run_silent_guarded (P := fun u ev => Timely u ev ∧ Admits u ev) twoSlots
    (fsCalls plainCodec) k (.calm 0) (fun _ _ => timely_silent) (rfl : (ticks 0 4).foldlM
      (silentStep twoSlots) (Engine.start twoSlots {} ∅ 0) = some beforePage)
  have hfirst := hopen.snoc (e := .engine (fetching 0 article 0) (.calm 0))
    ⟨⟨?_, admits_fetching⟩, .called rfl rfl first⟩
  · have hstart := hfirst.append (run_silent_guarded twoSlots (fsCalls plainCodec) k₁ (.calm 0)
      (fun _ _ => timely_silent) (rfl : (ticks 0 2).foldlM (silentStep twoSlots) _ =
        some pairFetched))
    have hsecond := hstart.snoc (e := .engine (fetching 1 pageRequest 0) (.calm 0))
      ⟨⟨?_, admits_fetching⟩, .called rfl rfl second⟩
    · have hpair := hsecond.append (run_silent_guarded twoSlots (fsCalls plainCodec) k₂ (.calm 0)
        (fun _ _ => timely_silent) (rfl : (ticks 0 3).foldlM (silentStep twoSlots) _ =
          some pairStarted))
      simpa [pairEvents] using hpair
    · intro op reply hcall lease hm _
      rw [List.mem_singleton.mp (hm : lease ∈ [leaseOf 0 article])]
      decide
  · intro op reply hcall lease hm _
    cases hm

theorem leases_live_pairEvents : ∃ k u,
    FsQueue.Process.run plainCodec pairAdded = .running k.1 k.2 ∧
    Machine.Run (Safe plainCodec twoSlots) ⟨Engine.start twoSlots {} ∅ 0, k⟩ pairEvents u ∧
    u.engine.slots.keys = [1, 0] ∧
    ∀ slot slot' state state', u.engine.slots.lookup slot = some state →
      u.engine.slots.lookup slot' = some state' →
      state.lease.request.id = state'.lease.request.id → slot = slot' := by
  obtain ⟨k, k₁, k₂, hadded, hfirst, hsecond⟩ := fs_pair
  have hrun := run_pairEvents hfirst hsecond
  obtain ⟨hsafe, hapart⟩ := @leases_live _ plainCodec twoSlots {} ∅ 0 k pairEvents
    ⟨pairStarted, k₂⟩
  refine ⟨k, ⟨pairStarted, k₂⟩, hadded, ?_, rfl, ?_⟩
  · exact hsafe.mp (hrun.mono fun _ _ _ hs => ⟨hs.1.1, hs.2⟩)
  · exact hapart pairAdded (fun _ _ => rfl) allowed_pairAdded hadded (by decide) hrun

end Crawl

end Millipede
