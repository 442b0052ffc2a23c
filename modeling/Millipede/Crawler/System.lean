import Millipede.Crawler.Leases
import Millipede.Storage.LeaseQueue

/-!
# The dispatcher over a queue

A dispatcher and a queue with exclusive leases, run together: a step of the dispatcher
that calls the queue takes the queue's answer, and between the steps anyone may add
requests. The leases the dispatcher fetches are then new to it, so its own bookkeeping
is sound; and as long as the queue takes back no lease on its own, every lease the
dispatcher holds is live.
-/

namespace Millipede

structure System where
  engine : Engine.State
  queue : LeaseQueue

inductive SystemEvent where
  /-- A step of the dispatcher, and the leases the queue takes back in it. -/
  | engine (e : Engine.Event) (expired : List LeaseId)
  | add (request : Request)

/-- The leases the queue takes back in a step. -/
def SystemEvent.expired : SystemEvent → List LeaseId
  | .engine _ expired => expired
  | .add _ => []

namespace System

open Engine (EngineOptions Event State)

inductive Step (opts : EngineOptions) : System → SystemEvent → System → Prop
  | dispatched {s t : State} {q q' : LeaseQueue} {e : Event} {expired : List LeaseId}
      (step : Engine.step opts s e = some t)
      (answer : q.Reacts expired (Engine.queueCall s e) q') :
      Step opts ⟨s, q⟩ (.engine e expired) ⟨t, q'⟩
  | added {s : State} {q : LeaseQueue} (request : Request) :
      Step opts ⟨s, q⟩ (.add request) ⟨s, q.add request⟩

end System

namespace LeaseQueue

variable {q q' : LeaseQueue} {expired : List LeaseId} {op : QueueOp}
  {reply : StorageResult QueueReply}

theorem Responds.harmless (h : q.Responds expired op reply q')
    (hh : Engine.Harmless (some (op, reply))) : q' = q.withdraw expired := by
  cases h with
  | leased lease key bound waiting fresh => exact absurd rfl (hh lease)
  | idle => rfl
  | renewed leaseId extendBy key request live => rfl
  | empty value => rfl
  | finished value => rfl
  | consumed op _ hc =>
    obtain ⟨lease, key, request, place, hret, hlive, hgoes⟩ := hc
    cases op <;> cases hgoes <;> exact hh.elim
  | refused op e _ hq =>
    obtain rfl | hc := hq
    · rfl
    · obtain ⟨lease, key, request, place, hret, hlive, hgoes⟩ := hc
      cases op <;> cases hgoes <;> exact hh.elim

theorem Responds.lease_inv {lease : Lease}
    (h : q.Responds expired .fetchNext (.ok (.leased (some lease))) q') :
    ∃ key, lease.leaseId < 2 ^ 64 ∧
      (q.withdraw expired).place key = .pending lease.request ∧
      ∃ fresh : (q.withdraw expired).issued lease.leaseId = none,
        q' = (q.withdraw expired).grant key lease.leaseId lease.request fresh := by
  cases h with
  | leased _ key bound waiting fresh => exact ⟨key, bound, waiting, fresh, rfl⟩

theorem Responds.issued_some (h : q.Responds expired op reply q') {id : LeaseId} {key : String}
    (hid : q.issued id = some key) : q'.issued id = some key := by
  have hput : ∀ {q₁ : LeaseQueue}, Consumes (q.withdraw expired) op q₁ →
      q₁.issued id = some key := by
    intro q₁ hc
    obtain ⟨lease, k, request, place, hret, hlive, hgoes⟩ := hc
    exact hid
  cases h with
  | leased lease k bound waiting fresh =>
    rw [issued_grant, if_neg]
    · exact hid
    · intro he
      rw [← he] at fresh
      exact absurd (hid.symm.trans fresh) (by simp)
  | consumed op _ hc => exact hput hc
  | refused op e _ hq =>
    obtain rfl | hc := hq
    · exact hid
    · exact hput hc
  | _ => exact hid

theorem Responds.gave (h : q.Responds expired op reply q') {how : Engine.ConsumingCall}
    (hhow : Engine.callKind op = some how) :
    Consumes (q.withdraw expired) op q' ∨
      (∃ e, reply = .error e) ∧ q' = q.withdraw expired := by
  cases h with
  | consumed op _ hc => exact .inl hc
  | refused op e _ hq =>
    obtain rfl | hc := hq
    · exact .inr ⟨⟨e, rfl⟩, rfl⟩
    · exact .inl hc
  | _ => cases hhow

theorem Responds.handled (h : q.Responds expired op reply q') {key : String}
    (hk : q.place key = .handled) : q'.place key = .handled := by
  have hw := (withdraw_handled expired).mpr hk
  have hput : ∀ {q₁ : LeaseQueue}, Consumes (q.withdraw expired) op q₁ →
      q₁.place key = .handled := by
    intro q₁ hc
    obtain ⟨lease, k, request, place, -, -, hlive, -, hplace⟩ := hc.inv
    have hne : key ≠ k := by
      intro he
      rw [← he, hw] at hlive
      cases hlive
    rw [hplace, if_neg hne, hw]
  cases h with
  | leased lease k bound waiting fresh =>
    have hne : key ≠ k := by
      intro he
      rw [← he, hw] at waiting
      cases waiting
    rw [place_grant, if_neg hne, hw]
  | consumed op _ hc => exact hput hc
  | refused op e _ hq =>
    obtain rfl | hc := hq
    · exact hw
    · exact hput hc
  | _ => exact hw

theorem Responds.renewed_eq {leaseId : LeaseId} {extendBy : Duration}
    (h : q.Responds expired (.renew leaseId extendBy) (.ok .unit) q') :
    q' = q.withdraw expired := by
  cases h with
  | renewed => rfl
  | consumed op _ hc =>
    obtain ⟨lease, key, request, place, -, hgoes, -⟩ := hc.inv
    cases hgoes

section Reacts
variable {call : Option (QueueOp × StorageResult QueueReply)}

theorem Reacts.issued_some (h : q.Reacts expired call q') {id : LeaseId} {key : String}
    (hid : q.issued id = some key) : q'.issued id = some key := by
  cases call with
  | none =>
    cases h
    exact hid
  | some call => exact Responds.issued_some h hid

theorem Reacts.handled (h : q.Reacts expired call q') {key : String}
    (hk : q.place key = .handled) : q'.place key = .handled := by
  cases call with
  | none =>
    cases h
    exact hk
  | some call => exact Responds.handled h hk

theorem Reacts.harmless (h : q.Reacts [] call q') (hh : Engine.Harmless call) : q' = q := by
  cases call with
  | none => exact h
  | some call => simpa using Responds.harmless h hh

theorem Reacts.after_withdraw (h : q.Reacts expired call q') :
    ∃ gone, gone ⊆ expired ∧ (q.withdraw gone).Reacts [] call q' := by
  cases call with
  | none =>
    refine ⟨[], List.nil_subset _, ?_⟩
    rw [withdraw_nil]
    exact h
  | some call =>
    refine ⟨expired, List.Subset.refl _, ?_⟩
    rw [Reacts, Responds, withdraw_nil]
    exact h

end Reacts

end LeaseQueue

namespace System

open Engine

variable {opts : EngineOptions} {u v : System} {ev : SystemEvent}

/-- The dispatcher's books are right, and its leases are among those the queue has issued. -/
structure Linked (opts : EngineOptions) (u : System) : Prop where
  accounted : Accounted opts u.engine
  fresh : FreshLeases u.engine.log
  issued : ∀ id ∈ fetchedIds u.engine.log, (u.queue.issued id).isSome
  decided : ∀ lease choice, .decided lease choice ∈ u.engine.log →
    (u.queue.issued lease.leaseId).isSome

theorem linked_start (statistics : Statistics) (limiter : DomainLimiter) (clock : Instant)
    (q : LeaseQueue) : Linked opts ⟨start opts statistics limiter clock, q⟩ where
  accounted := accounted_start statistics limiter clock
  fresh := ⟨List.nodup_nil, fun _ hid => nomatch hid⟩
  issued := fun _ hid => nomatch hid
  decided := fun _ _ hm => nomatch hm

theorem Linked.issued_of_held (h : Linked opts u) {lease : Lease} (hl : lease ∈ held u.engine) :
    (u.queue.issued lease.leaseId).isSome := by
  apply h.issued
  apply h.accounted.conserved.mem_iff.mpr
  exact List.mem_append_right _ (List.mem_map_of_mem hl)

theorem Linked.issued_of_consumed (h : Linked opts u) {id : LeaseId}
    (hid : id ∈ consumedIds u.engine.log) : (u.queue.issued id).isSome := by
  apply h.issued
  exact h.accounted.conserved.mem_iff.mpr (List.mem_append_left _ hid)

theorem Linked.held_nodup (h : Linked opts u) : ((held u.engine).map Lease.leaseId).Nodup :=
  (h.accounted.conserved.nodup_iff.mp h.fresh.1).of_append_right

theorem fetchedIds_of_move {s t : State} {e : Event} (hm : Move opts s e t) :
    fetchedIds t.log = fetchedIds s.log ∨
      ∃ lease, queueCall s e = some (.fetchNext, .ok (.leased (some lease))) ∧
        fetchedIds t.log = lease.leaseId :: fetchedIds s.log := by
  cases hm with
  | panic clock _ hc hlost hq ht hi =>
    rw [ht]
    exact .inl rfl
  | postponed now started tokenWait desired readyAt sequence rest entry limiter wait phase _ hc hn
      hfrom hlt hd hr he hl ht hafter =>
    rw [ht]
    exact .inl rfl
  | fetched desired lease => exact .inr ⟨lease, rfl, rfl⟩
  | _ => exact .inl rfl

theorem Linked.fresh_step {s t : State} {q q' : LeaseQueue} {e : Event} {expired : List LeaseId}
    (h : Linked opts ⟨s, q⟩) (hm : Move opts s e t) (hans : q.Reacts expired (queueCall s e) q') :
    FreshLeases t.log ∧ ∀ id ∈ fetchedIds t.log, (q'.issued id).isSome := by
  have hkept : ∀ id ∈ fetchedIds s.log, (q'.issued id).isSome := by
    intro id hid
    obtain ⟨key, hkey⟩ := Option.isSome_iff_exists.mp (h.issued id hid)
    rw [hans.issued_some hkey]
    rfl
  rw [FreshLeases]
  obtain hids | ⟨lease, hcall, hids⟩ := fetchedIds_of_move hm
  · rw [hids]
    exact ⟨h.fresh, hkept⟩
  · rw [hcall] at hans
    obtain ⟨key, hbound, -, hnone, hq⟩ := LeaseQueue.Responds.lease_inv hans
    have hnew : lease.leaseId ∉ fetchedIds s.log := by
      intro hmem
      have hsome := h.issued _ hmem
      rw [show q.issued lease.leaseId = none from hnone] at hsome
      cases hsome
    rw [hids]
    refine ⟨⟨List.nodup_cons.mpr ⟨hnew, h.fresh.1⟩, ?_⟩, ?_⟩
    · intro id hid
      obtain rfl | hid := List.mem_cons.mp hid
      · exact hbound
      · exact h.fresh.2 id hid
    · intro id hid
      obtain rfl | hid := List.mem_cons.mp hid
      · rw [hq, LeaseQueue.issued_grant, if_pos rfl]
        rfl
      · exact hkept id hid

theorem decided_of_flow {s t : State} {e : Event} (hf : Flow s e t) {lease : Lease}
    {choice : Choice} (hm : .decided lease choice ∈ t.log) :
    .decided lease choice ∈ s.log ∨ ∃ old ∈ held s, lease.leaseId = old.leaseId := by
  cases hf with
  | kept hq hheld hlog =>
    obtain hlog | ⟨l, time, hlog⟩ := hlog
    · exact .inl (hlog ▸ hm)
    · rw [hlog] at hm
      exact .inl (List.mem_of_ne_of_mem (by simp) hm)
  | took l hq hheld hlog =>
    rw [hlog] at hm
    exact .inl (List.mem_of_ne_of_mem (by simp) hm)
  | renewed l rest hq hs ht hlog => exact .inl (hlog ▸ hm)
  | concluded old l choice c rest hq hp hid hexp hid' hs ht hlog =>
    rw [hlog] at hm
    obtain heq | hm := List.mem_cons.mp hm
    · cases heq
      exact .inr ⟨old, hs.mem_iff.mpr List.mem_cons_self, hid'⟩
    · exact .inl hm
  | gave how op l reply rest hq hret hhow hfrom hs ht hlog =>
    rw [hlog] at hm
    exact .inl (List.mem_of_ne_of_mem (by simp) hm)

theorem Linked.step (h : Linked opts u) (hs : Step opts u ev v) : Linked opts v := by
  cases hs with
  | @dispatched s t q q' e expired hstep hans =>
    have hm := step_move hstep
    obtain ⟨hfresh, hissued⟩ := h.fresh_step hm hans
    refine ⟨h.accounted.move hm hfresh, hfresh, hissued, ?_⟩
    intro lease choice hmem
    have hold : (q.issued lease.leaseId).isSome := by
      obtain hmem | ⟨old, hheld, hid⟩ := decided_of_flow (hm.flow h.accounted.sound hfresh) hmem
      · exact h.decided lease choice hmem
      · rw [hid]
        exact h.issued_of_held hheld
    obtain ⟨key, hkey⟩ := Option.isSome_iff_exists.mp hold
    rw [hans.issued_some hkey]
    rfl
  | added request => exact ⟨h.accounted, h.fresh, by simpa using h.issued, by simpa using h.decided⟩

/-- The queue still has every lease the dispatcher holds. -/
def Live (u : System) : Prop :=
  ∀ lease ∈ held u.engine, ∃ key request, u.queue.place key = .leased lease.leaseId request

theorem live_start (statistics : Statistics) (limiter : DomainLimiter) (clock : Instant)
    (q : LeaseQueue) : Live ⟨start opts statistics limiter clock, q⟩ :=
  fun _ hl => nomatch hl

theorem Live.place (h : Live u) {lease : Lease} (hl : lease ∈ held u.engine) {key : String}
    (hk : u.queue.issued lease.leaseId = some key) :
    ∃ request, u.queue.place key = .leased lease.leaseId request := by
  obtain ⟨key', request, hp⟩ := h lease hl
  have hk' := u.queue.issued_of_leased _ _ _ hp
  rw [hk] at hk'
  cases hk'
  exact ⟨request, hp⟩

/-- The queue takes back no lease that the dispatcher holds. -/
def Exclusive (u : System) (ev : SystemEvent) : Prop :=
  ∀ lease ∈ held u.engine, lease.leaseId ∉ ev.expired

theorem Linked.withdraw {s : State} {q : LeaseQueue} (h : Linked opts ⟨s, q⟩)
    (expired : List LeaseId) : Linked opts ⟨s, q.withdraw expired⟩ :=
  ⟨h.accounted, h.fresh, h.issued, h.decided⟩

theorem Live.withdraw {s : State} {q : LeaseQueue} {expired : List LeaseId} (h : Live ⟨s, q⟩)
    (hkeep : ∀ lease ∈ held s, lease.leaseId ∉ expired) : Live ⟨s, q.withdraw expired⟩ := by
  intro lease hm
  obtain ⟨key, request, hp⟩ := h lease hm
  exact ⟨key, request, LeaseQueue.withdraw_leased hp (hkeep lease hm)⟩

theorem Live.move {s t : State} {q q' : LeaseQueue} {e : Event} (h : Live ⟨s, q⟩)
    (hl : Linked opts ⟨s, q⟩) (hm : Move opts s e t) (hfresh : FreshLeases t.log)
    (hans : q.Reacts [] (queueCall s e) q') : Live ⟨t, q'⟩ := by
  have hnodup := hl.held_nodup
  cases hm.flow hl.accounted.sound hfresh with
  | kept hq hheld hlog =>
    rw [hans.harmless hq]
    exact fun lease hm => h lease (hheld.mem_iff.mp hm)
  | took lease hq hheld hlog =>
    rw [hq] at hans
    obtain ⟨key, -, hwait, hnone, hq'⟩ := LeaseQueue.Responds.lease_inv hans
    simp only [LeaseQueue.withdraw_nil] at hwait hq'
    intro other hm
    simp only [hq', LeaseQueue.place_grant]
    obtain rfl | hm := List.mem_cons.mp (hheld.mem_iff.mp hm)
    · exact ⟨key, other.request, if_pos rfl⟩
    · obtain ⟨k, request, hp⟩ := h other hm
      have hne : k ≠ key := by
        intro he
        rw [he, hwait] at hp
        cases hp
      exact ⟨k, request, by rw [if_neg hne, hp]⟩
  | renewed lease rest hq hs ht hlog =>
    rw [hq] at hans
    rw [LeaseQueue.Responds.renewed_eq hans, LeaseQueue.withdraw_nil]
    intro other hm
    obtain rfl | hm := List.mem_cons.mp (ht.mem_iff.mp hm)
    · exact h lease (hs.mem_iff.mpr List.mem_cons_self)
    · exact h other (hs.mem_iff.mpr (List.mem_cons_of_mem _ hm))
  | concluded old lease choice c rest hq hp hid hexp hid' hs ht hlog =>
    rw [hq] at hans
    cases hans
    intro other hm
    obtain rfl | hm := List.mem_cons.mp (ht.mem_iff.mp hm)
    · rw [hid]
      exact h old (hs.mem_iff.mpr List.mem_cons_self)
    · exact h other (hs.mem_iff.mpr (List.mem_cons_of_mem _ hm))
  | gave how op lease reply rest hq hret hhow hfrom hs ht hlog =>
    rw [hq] at hans
    have hrest : ∀ other ∈ held t, other ∈ held s ∧ other.leaseId ≠ lease.leaseId := by
      intro other hm
      have hm := ht.mem_iff.mp hm
      refine ⟨hs.mem_iff.mpr (List.mem_cons_of_mem _ hm), ?_⟩
      intro he
      have hcons := (hs.map Lease.leaseId).nodup_iff.mp hnodup
      exact (List.nodup_cons.mp hcons).1 (List.mem_map.mpr ⟨other, hm, he⟩)
    obtain hc | ⟨-, hsame⟩ := LeaseQueue.Responds.gave hans hhow
    · obtain ⟨lease', key, request, place, hret', -, hlive, -, hplace⟩ := hc.inv
      rw [hret] at hret'
      cases hret'
      simp only [LeaseQueue.withdraw_nil] at hlive hplace
      intro other hm
      obtain ⟨hm, hne⟩ := hrest other hm
      obtain ⟨k, r, hp⟩ := h other hm
      have hk : k ≠ key := by
        intro he
        rw [he] at hp
        exact hne (LeaseQueue.lease_unique hp hlive)
      exact ⟨k, r, by rw [hplace, if_neg hk, hp]⟩
    · rw [hsame, LeaseQueue.withdraw_nil]
      exact fun other hm => h other (hrest other hm).1

theorem Live.step (h : Live u) (hl : Linked opts u) (hs : Step opts u ev v)
    (hkeep : Exclusive u ev) : Live v := by
  have hfresh := (hl.step hs).fresh
  cases hs with
  | dispatched hstep hans =>
    obtain ⟨gone, hgone, hans⟩ := hans.after_withdraw
    have hlive := h.withdraw fun lease hm hmem => hkeep lease hm (hgone hmem)
    exact hlive.move (hl.withdraw gone) (step_move hstep) hfresh hans
  | added request =>
    intro lease hm
    obtain ⟨key, r, hp⟩ := h lease hm
    obtain heq | ⟨-, hnew, -⟩ := LeaseQueue.place_add _ request key
    · exact ⟨key, r, heq.trans hp⟩
    · exact nomatch hp.symm.trans hnew

/-- The entries of the log about leases of one request; `subject` says which entries count
and for which lease. -/
def countFor (subject : Effect → Option LeaseId) (q : LeaseQueue) (key : String)
    (log : List Effect) : ℕ :=
  log.countP fun effect => (subject effect).any fun id => q.issued id == some key

theorem countFor_congr {subject : Effect → Option LeaseId} {q q' : LeaseQueue}
    {log : List Effect}
    (hissued : ∀ effect ∈ log, ∀ id, subject effect = some id → (q.issued id).isSome)
    (hkept : ∀ id key, q.issued id = some key → q'.issued id = some key) (key : String) :
    countFor subject q' key log = countFor subject q key log := by
  apply List.countP_congr
  intro effect hmem
  cases hs : subject effect with
  | none => rfl
  | some id =>
    obtain ⟨k, hk⟩ := Option.isSome_iff_exists.mp (hissued effect hmem id hs)
    simp only [Option.any_some, hk, hkept _ _ hk]

theorem countFor_cons_none {subject : Effect → Option LeaseId} {effect : Effect}
    (h : subject effect = none) (q : LeaseQueue) (key : String) (log : List Effect) :
    countFor subject q key (effect :: log) = countFor subject q key log :=
  List.countP_cons_of_neg (by simp [h])

theorem countFor_cons_some {subject : Effect → Option LeaseId} {effect : Effect} {id : LeaseId}
    {k : String} {q : LeaseQueue} (h : subject effect = some id) (hk : q.issued id = some k)
    (key : String) (log : List Effect) :
    countFor subject q key (effect :: log) =
      countFor subject q key log + if key = k then 1 else 0 := by
  split_ifs with he
  · exact List.countP_cons_of_pos (by simp [h, hk, he])
  · exact List.countP_cons_of_neg (by simpa [h, hk] using fun he' => he he'.symm)

-- A queue with one request waiting, and the crawl that finishes it.
def silentStep (opts : EngineOptions) (s : State) (e : Event) : Option State :=
  if (queueCall s e).isNone then Engine.step opts s e else none

def quietly (e : Event) : SystemEvent := .engine e []

theorem run_silent {s t : State} {es : List Event} (q : LeaseQueue)
    (h : es.foldlM (silentStep opts) s = some t) :
    Machine.Run (Step opts) ⟨s, q⟩ (es.map quietly) ⟨t, q⟩ := by
  have hrun := Machine.run_of_foldlM h
  clear h
  induction hrun with
  | nil => exact .nil _
  | snoc _ hstep ih =>
    rw [List.map_append]
    refine ih.snoc ?_
    simp only [Machine.Computes, silentStep] at hstep
    split_ifs at hstep with hcall
    refine .dispatched hstep ?_
    rw [Option.isNone_iff_eq_none.mp hcall]
    rfl

def waiting (requests : List Request) : LeaseQueue where
  place := fun key =>
    match requests.find? fun r => r.uniqueKey == key with
    | some r => .pending r
    | none => .unknown
  issued := fun _ => none
  issued_of_leased := by
    intro key leaseId request h
    split at h <;> cases h

def pageLease : Lease := leaseOf 0 pageRequest

def pageOutput : AttemptOutput :=
  { error := none, duration := 5, request := pageRequest, observation := {} }

def pageSuccess : Event := .completed 0 (.finished pageOutput) 5 0 0

def pageFetched : Event := .fetched (some (.ok (some pageLease))) 0 0 0

def crawlEvents : List SystemEvent :=
  (ticks 0 4).map quietly ++ [quietly pageFetched] ++ (ticks 0 3 ++ [pageSuccess]).map quietly ++
    [quietly (.answered (.ok ()))]

def beforeFetch : State :=
  ((ticks 0 4).foldlM (silentStep singleSlot) (start singleSlot {} ∅ 0)).getD
    (start singleSlot {} ∅ 0)

def afterFetch : State := fetched { beforeFetch with clock := 0 } 1 pageLease 0 0 0

def beforeAnswer : State :=
  ((ticks 0 3 ++ [pageSuccess]).foldlM (silentStep singleSlot) afterFetch).getD afterFetch

def pageHandled : Lease :=
  { restoreCounters pageLease pageRequest with
    request := { pageRequest with state := .done, handledAt := some 0 } }

def afterAnswer : State := (answer singleSlot beforeAnswer
  (.markFinished pageHandled 5 {}) (.ok ())).getD beforeAnswer

theorem afterAnswer_log : afterAnswer.log = [.called .markHandled pageHandled true,
    .decided pageLease .succeeded, .started pageLease 0, .fetched pageLease] := rfl

theorem run_crawlEvents :
    ∃ q, Machine.Run (Step singleSlot) ⟨start singleSlot {} ∅ 0, waiting [pageRequest]⟩
        crawlEvents ⟨afterAnswer, q⟩ ∧
      q.place "data:," = .handled ∧ q.issued 0 = some "data:," := by
  have hwait : ((waiting [pageRequest]).withdraw []).place "data:," = .pending pageRequest := by
    simp [waiting, pageRequest, Request.get]
  have hopen := run_silent (waiting [pageRequest])
    (rfl : (ticks 0 4).foldlM (silentStep singleSlot) (start singleSlot {} ∅ 0) = some beforeFetch)
  let q₁ := ((waiting [pageRequest]).withdraw []).grant "data:," 0 pageRequest rfl
  have hlease : Step singleSlot ⟨beforeFetch, waiting [pageRequest]⟩ (quietly pageFetched)
      ⟨afterFetch, q₁⟩ :=
    .dispatched rfl (LeaseQueue.Answers.leased pageLease "data:," (by decide) hwait rfl)
  have hattempt := run_silent q₁
    (rfl : (ticks 0 3 ++ [pageSuccess]).foldlM (silentStep singleSlot) afterFetch =
      some beforeAnswer)
  have hlive : (q₁.withdraw []).place "data:," = .leased 0 pageRequest := by
    rw [LeaseQueue.withdraw_nil]
    exact LeaseQueue.place_grant.trans (if_pos rfl)
  let q₂ := (q₁.withdraw []).put "data:," .handled (by simp)
  have hanswer : Step singleSlot ⟨beforeAnswer, q₁⟩ (quietly (.answered (.ok ())))
      ⟨afterAnswer, q₂⟩ :=
    .dispatched rfl (LeaseQueue.Answers.consumed (.markHandled pageHandled) _
      (.intro pageHandled "data:," pageRequest .handled rfl hlive rfl))
  refine ⟨q₂, ((hopen.snoc hlease).append hattempt).snoc hanswer, ?_, ?_⟩
  · exact LeaseQueue.place_put.trans (if_pos rfl)
  · exact (LeaseQueue.issued_grant.trans (if_pos rfl) : q₁.issued 0 = some "data:,")

end System

end Millipede
