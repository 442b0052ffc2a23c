import Millipede.Storage.FsQueueRun
import Millipede.Storage.LeaseService

/-!
# The file-system queue is a queue with exclusive leases

Whatever the clock reads and whichever writes fail: a lease that is taken back has expired, a
call whose write fails leaves every request where it was, and one that returns moves one
request as the abstract queue does.
-/

namespace Millipede.FsQueue
variable {β : Type*}

inductive Stands (s : QueueState) (key : String) : Place → Prop
  | unknown : s.dedup.lookup key = none → Stands s key .unknown
  | pending (o : ℤ) (id : RequestId) (st : StoredRequest) : s.requests.lookup id = some st →
      st.request.uniqueKey = key → s.pending.find o = some id →
      Stands s key (.pending st.request)
  | leased (leaseId : LeaseId) (id : RequestId) (e : Instant) (st : StoredRequest) :
      s.requests.lookup id = some st → st.request.uniqueKey = key →
      s.leases.lookup leaseId = some (id, e) → Stands s key (.leased leaseId st.request)
  | handled (id : RequestId) (st : StoredRequest) : s.requests.lookup id = some st →
      st.request.uniqueKey = key → st.orderNo = none → Stands s key .handled

structure Models (s : QueueState) (q : LeaseQueue) : Prop where
  stands : ∀ key, Stands s key (q.place key)
  issued : ∀ leaseId key, q.issued leaseId = some key → leaseId < s.nextLeaseId

variable {P : Request → Prop} {s s' : QueueState} {q : LeaseQueue} {key : String} {place : Place}

theorem models_empty : Models .empty .empty where
  stands := fun key => .unknown rfl
  issued := by
    intro leaseId key h
    cases h

theorem Placed.stored_unique (h : Placed P none s) {id id' : RequestId} {st st' : StoredRequest}
    (hst : s.requests.lookup id = some st) (hst' : s.requests.lookup id' = some st')
    (hkey : st.request.uniqueKey = st'.request.uniqueKey) : id = id' ∧ st = st' := by
  have hd := h.stored_dedup id st hst
  have hd' := h.stored_dedup id' st' hst'
  rw [hkey, hd'] at hd
  have hid : id' = id := congrArg Prod.fst (Option.some.inj hd)
  rw [hid, hst] at hst'
  exact ⟨hid.symm, Option.some.inj hst'⟩

theorem Stands.unknown_iff (h : Placed P none s) (hp : Stands s key place) :
    place = .unknown ↔ s.dedup.lookup key = none := by
  have hknown : ∀ {id : RequestId} {st : StoredRequest}, s.requests.lookup id = some st →
      st.request.uniqueKey = key → s.dedup.lookup key ≠ none := by
    intro id st hst hkey hnone
    have hd := h.stored_dedup id st hst
    rw [hkey, hnone] at hd
    cases hd
  cases hp with
  | unknown hnone => exact ⟨fun _ => hnone, fun _ => rfl⟩
  | pending o id st hst hkey ho => exact ⟨Place.noConfusion, fun hn => absurd hn (hknown hst hkey)⟩
  | leased leaseId id e st hst hkey hl =>
    exact ⟨Place.noConfusion, fun hn => absurd hn (hknown hst hkey)⟩
  | handled id st hst hkey ho => exact ⟨Place.noConfusion, fun hn => absurd hn (hknown hst hkey)⟩

theorem Stands.of_lease (h : Placed P none s) (hp : Stands s key place) {leaseId : LeaseId}
    {id : RequestId} {e : Instant} {st : StoredRequest}
    (hl : s.leases.lookup leaseId = some (id, e)) (hst : s.requests.lookup id = some st)
    (hkey : st.request.uniqueKey = key) : place = .leased leaseId st.request := by
  obtain ⟨-, -, st₀, o₀, hst₀, ho₀, hfree⟩ := h.leased_stored leaseId id e hl
  have hsame : st₀ = st := by
    rw [hst] at hst₀
    exact (Option.some.inj hst₀).symm
  subst hsame
  cases hp with
  | unknown hnone =>
    have hd := h.stored_dedup id st₀ hst
    rw [hkey, hnone] at hd
    cases hd
  | pending o id' st' hst' hkey' ho =>
    obtain ⟨rfl, rfl⟩ := h.stored_unique hst hst' (hkey.trans hkey'.symm)
    obtain ⟨-, st₁, hst₁, ho₁⟩ := h.pending_stored o id ho
    rw [hst] at hst₁
    cases hst₁
    rw [ho₀] at ho₁
    cases ho₁
    rw [hfree] at ho
    cases ho
  | leased leaseId' id' e' st' hst' hkey' hl' =>
    obtain ⟨rfl, rfl⟩ := h.stored_unique hst hst' (hkey.trans hkey'.symm)
    rw [h.lease_unique leaseId leaseId' id e e' hl hl']
  | handled id' st' hst' hkey' ho =>
    obtain ⟨rfl, rfl⟩ := h.stored_unique hst hst' (hkey.trans hkey'.symm)
    rw [ho₀] at ho
    cases ho

theorem Stands.of_pending (h : Placed P none s) (hp : Stands s key place) {o : ℤ}
    {id : RequestId} {st : StoredRequest} (ho : s.pending.find o = some id)
    (hst : s.requests.lookup id = some st) (hkey : st.request.uniqueKey = key) :
    place = .pending st.request := by
  obtain ⟨-, st₀, hst₀, ho₀⟩ := h.pending_stored o id ho
  have hsame : st₀ = st := by
    rw [hst] at hst₀
    exact (Option.some.inj hst₀).symm
  subst hsame
  cases hp with
  | unknown hnone =>
    have hd := h.stored_dedup id st₀ hst
    rw [hkey, hnone] at hd
    cases hd
  | pending o' id' st' hst' hkey' ho' =>
    obtain ⟨rfl, rfl⟩ := h.stored_unique hst hst' (hkey.trans hkey'.symm)
    rfl
  | leased leaseId id' e st' hst' hkey' hl =>
    obtain ⟨rfl, rfl⟩ := h.stored_unique hst hst' (hkey.trans hkey'.symm)
    obtain ⟨-, -, st₁, o₁, hst₁, ho₁, hfree⟩ := h.leased_stored leaseId id e hl
    rw [hst] at hst₁
    cases hst₁
    rw [ho₀] at ho₁
    cases ho₁
    rw [hfree] at ho
    cases ho
  | handled id' st' hst' hkey' ho' =>
    obtain ⟨rfl, rfl⟩ := h.stored_unique hst hst' (hkey.trans hkey'.symm)
    rw [ho₀] at ho'
    cases ho'

theorem Placed.stands (h : Placed P none s) (key : String) : ∃ place, Stands s key place := by
  cases hd : s.dedup.lookup key with
  | none => exact ⟨.unknown, .unknown hd⟩
  | some entry =>
    obtain ⟨id, handled⟩ := entry
    obtain ⟨st, hst, hkey, -⟩ := h.dedup_stored key id handled hd
    cases ho : st.orderNo with
    | none => exact ⟨.handled, .handled id st hst hkey ho⟩
    | some o =>
      obtain hp | ⟨leaseId, e, hl⟩ := h.placed id st o hst ho (by simp)
      · exact ⟨.pending st.request, .pending o id st hst hkey hp⟩
      · exact ⟨.leased leaseId st.request, .leased leaseId id e st hst hkey hl⟩

theorem Stands.handled_iff (h : Placed P none s) (hp : Stands s key place) :
    place = .handled ↔ ∃ id, s.dedup.lookup key = some (id, true) := by
  have hopen : ∀ {id : RequestId} {st : StoredRequest} {o : ℤ}, s.requests.lookup id = some st →
      st.request.uniqueKey = key → st.orderNo = some o →
      ¬ ∃ id, s.dedup.lookup key = some (id, true) := by
    rintro id st o hst hkey ho ⟨id', hd'⟩
    have hd := h.stored_dedup id st hst
    rw [hkey, ho, hd'] at hd
    cases hd
  cases hp with
  | unknown hnone => simp [hnone]
  | pending o id st hst hkey ho =>
    obtain ⟨-, st', hst', ho'⟩ := h.pending_stored o id ho
    rw [hst] at hst'
    cases hst'
    exact ⟨Place.noConfusion, fun hd => absurd hd (hopen hst hkey ho')⟩
  | leased leaseId id e st hst hkey hl =>
    obtain ⟨-, -, st', o, hst', ho', -⟩ := h.leased_stored leaseId id e hl
    rw [hst] at hst'
    cases hst'
    exact ⟨Place.noConfusion, fun hd => absurd hd (hopen hst hkey ho')⟩
  | handled id st hst hkey ho =>
    have hd := h.stored_dedup id st hst
    rw [hkey, ho] at hd
    exact ⟨fun _ => ⟨id, hd⟩, fun _ => rfl⟩

/-- A consistent queue stands for a queue with exclusive leases. -/
theorem Placed.models (h : Placed P none s) : ∃ q, Models s q := by
  choose place hplace using h.stands
  let issued := fun leaseId => (s.leases.lookup leaseId).bind fun entry =>
    (s.requests.lookup entry.1).map fun st => st.request.uniqueKey
  have hissued : ∀ leaseId key, issued leaseId = some key → leaseId < s.nextLeaseId := by
    intro leaseId key hk
    obtain ⟨⟨id, e⟩, hl, -⟩ := Option.bind_eq_some_iff.mp hk
    exact (h.leased_stored leaseId id e hl).2.1
  refine ⟨⟨place, issued, ?_⟩, hplace, hissued⟩
  intro key leaseId request hp
  have hstands := hplace key
  rw [hp] at hstands
  cases hstands with
  | leased _ id e st hst hkey hl =>
    simp only [issued, hl, Option.bind_some, hst, Option.map_some, hkey]

structure Touches (id : RequestId) (key : String) (s s' : QueueState) : Prop where
  dedup : ∀ k, k ≠ key → s'.dedup.lookup k = s.dedup.lookup k
  requests : ∀ i, i ≠ id → s'.requests.lookup i = s.requests.lookup i
  pending : ∀ o i, i ≠ id → s.pending.find o = some i → s'.pending.find o = some i
  leases : ∀ l i e, i ≠ id → s.leases.lookup l = some (i, e) →
    ∃ e', s'.leases.lookup l = some (i, e')

theorem Touches.frame {id : RequestId} {k : String} (h : Touches id key s s')
    (hkey : ∀ st, s.requests.lookup id = some st → st.request.uniqueKey = key)
    (hk : k ≠ key) (hp : Stands s k place) : Stands s' k place := by
  have hother : ∀ {i : RequestId} {st : StoredRequest}, s.requests.lookup i = some st →
      st.request.uniqueKey = k → i ≠ id := by
    intro i st hst hst' hid
    subst hid
    exact hk (hst'.symm.trans (hkey st hst))
  cases hp with
  | unknown hnone => exact .unknown ((h.dedup k hk).trans hnone)
  | pending o i st hst hst' ho =>
    have hne := hother hst hst'
    exact .pending o i st ((h.requests i hne).trans hst) hst' (h.pending o i hne ho)
  | leased l i e st hst hst' hl =>
    have hne := hother hst hst'
    obtain ⟨e', hl'⟩ := h.leases l i e hne hl
    exact .leased l i e' st ((h.requests i hne).trans hst) hst' hl'
  | handled i st hst hst' ho =>
    exact .handled i st ((h.requests i (hother hst hst')).trans hst) hst' ho

theorem Models.put {id : RequestId} (h : Models s q) (ht : Touches id key s s')
    (hkey : ∀ st, s.requests.lookup id = some st → st.request.uniqueKey = key)
    (hplace : Stands s' key place) (hput : ∀ leaseId request, place ≠ .leased leaseId request)
    (hnext : s.nextLeaseId ≤ s'.nextLeaseId) : Models s' (q.put key place hput) := by
  refine ⟨?_, fun l k hl => lt_of_lt_of_le (h.issued l k hl) hnext⟩
  intro k
  rw [LeaseQueue.place_put]
  split_ifs with hk
  · rw [hk]
    exact hplace
  · exact ht.frame hkey hk (h.stands k)

theorem Models.congr (h : Models s q) (hdedup : s'.dedup = s.dedup)
    (hrequests : s'.requests = s.requests) (hpending : s'.pending = s.pending)
    (hleases : ∀ l i e, s.leases.lookup l = some (i, e) →
      ∃ e', s'.leases.lookup l = some (i, e'))
    (hnext : s'.nextLeaseId = s.nextLeaseId) : Models s' q := by
  refine ⟨?_, fun l k hl => hnext ▸ h.issued l k hl⟩
  intro k
  have hp := h.stands k
  generalize q.place k = place at hp
  cases hp with
  | unknown hnone => exact .unknown (by rw [hdedup, hnone])
  | pending o i st hst hst' ho =>
    exact .pending o i st (by rw [hrequests, hst]) hst' (by rw [hpending, ho])
  | leased l i e st hst hst' hl =>
    obtain ⟨e', hl'⟩ := hleases l i e hl
    exact .leased l i e' st (by rw [hrequests, hst]) hst' hl'
  | handled i st hst hst' ho => exact .handled i st (by rw [hrequests, hst]) hst' ho

theorem Models.takeOrder (h : Models s q) {forefront : Bool} {o : ℤ}
    (ht : s.takeOrder forefront = .ok (o, s')) : Models s' q := by
  obtain ⟨hrequests, hleases, hpending, hdedup, -, hnext⟩ := takeOrder_requests ht
  refine h.congr hdedup hrequests hpending ?_ hnext
  intro l i e hl
  exact ⟨e, by rw [hleases, hl]⟩

theorem leases_erase {leaseId : LeaseId} {id : RequestId} {e : Instant}
    (hl : s.leases.lookup leaseId = some (id, e)) (l : LeaseId) (i : RequestId) (e' : Instant)
    (hi : i ≠ id) (hl' : s.leases.lookup l = some (i, e')) :
    ∃ e', (s.leases.erase leaseId).lookup l = some (i, e') := by
  refine ⟨e', (AList.lookup_erase_ite ..).trans ((if_neg ?_).trans hl')⟩
  intro heq
  rw [heq, hl] at hl'
  cases hl'
  exact hi rfl

theorem Models.takeBack (h : Models s q) (hc : Placed P none s) (leaseId : LeaseId) :
    Models (takeBack s leaseId) (q.withdraw [leaseId]) := by
  unfold FsQueue.takeBack
  cases hl : s.leases.lookup leaseId with
  | none =>
    refine ⟨?_, h.issued⟩
    intro key
    rw [LeaseQueue.place_withdraw_of_not_leased]
    · exact h.stands key
    · intro request hp
      have hs := h.stands key
      rw [hp] at hs
      cases hs with
      | leased _ id e st hst hkey hl' =>
        rw [hl] at hl'
        cases hl'
  | some entry =>
    obtain ⟨id, e⟩ := entry
    obtain ⟨-, -, st, o, hst, ho, hfree⟩ := hc.leased_stored leaseId id e hl
    simp only [hst, Option.bind_some, ho]
    have hplace := (h.stands st.request.uniqueKey).of_lease hc hl hst rfl
    have htouch : Touches id st.request.uniqueKey s
        { s with leases := s.leases.erase leaseId, pending := s.pending.insert o id } := by
      refine ⟨fun _ _ => rfl, fun _ _ => rfl, ?_, leases_erase hl⟩
      intro o' i hi ho'
      rw [OrderedMap.find_insert, if_neg]
      · exact ho'
      · intro heq
        rw [heq, hfree] at ho'
        cases ho'
    refine ⟨?_, h.issued⟩
    intro key
    by_cases hk : key = st.request.uniqueKey
    · rw [hk, LeaseQueue.place_withdraw_of_leased hplace]
      refine .pending o id st hst rfl ?_
      rw [OrderedMap.find_insert, if_pos rfl]
    · rw [LeaseQueue.place_withdraw_of_not_leased]
      · refine htouch.frame ?_ hk (h.stands key)
        intro st' hst'
        rw [hst] at hst'
        cases hst'
        rfl
      · intro request hp
        have hs := h.stands key
        rw [hp] at hs
        cases hs with
        | leased _ id' e' st' hst' hkey hl' =>
          rw [hl] at hl'
          cases hl'
          rw [hst] at hst'
          cases hst'
          exact hk hkey.symm

theorem Models.reclaim {codec : Codec β} {n : ℕ} {d : Disk β} (h : Models s q)
    (hk : Kept codec P n s d) (expired : List LeaseId) :
    Models (expired.foldl FsQueue.takeBack s) (q.withdraw expired) := by
  induction expired generalizing s q with
  | nil =>
    rw [LeaseQueue.withdraw_nil]
    exact h
  | cons leaseId expired ih =>
    rw [← LeaseQueue.withdraw_cons]
    exact ih (h.takeBack hk.consistent leaseId) (takeBack_kept hk leaseId)

theorem Models.accept (h : Models s q) (hc : Placed P none s) {r : Request} {o : ℤ}
    (hno : s.requests.lookup r.id = none) (hnew : s.dedup.lookup r.uniqueKey = none)
    (hf : FreshOrder s o) : Models (accept s r o) (q.add r) := by
  have hplace := ((h.stands r.uniqueKey).unknown_iff hc).mpr hnew
  have hput : q.add r = q.put r.uniqueKey (.pending r) (by simp) := if_pos hplace
  have htouch : Touches r.id r.uniqueKey s (FsQueue.accept s r o) := by
    refine ⟨?_, ?_, ?_, fun _ _ e _ hl => ⟨e, hl⟩⟩
    · intro k hk
      exact (AList.lookup_insert_ite ..).trans (if_neg hk)
    · intro i hi
      exact (AList.lookup_insert_ite ..).trans (if_neg hi)
    · intro o' i hi ho'
      obtain ⟨-, st, hst, hso⟩ := hc.pending_stored o' i ho'
      refine (OrderedMap.find_insert ..).trans ((if_neg ?_).trans ho')
      intro heq
      exact hf.1 i st hst (heq ▸ hso)
  rw [hput]
  refine h.put htouch ?_ ?_ _ le_rfl
  · intro st hst
    rw [hno] at hst
    cases hst
  · refine .pending o r.id ⟨r, some o⟩ ?_ rfl ?_
    · exact (AList.lookup_insert_ite ..).trans (if_pos rfl)
    · exact (OrderedMap.find_insert ..).trans (if_pos rfl)

section Returned
variable {r : Request} {leaseId : LeaseId} {e : Instant} {st : StoredRequest}

theorem Models.queue (h : Models s q) (hc : Placed P none s) {o : ℤ}
    (hl : s.leases.lookup leaseId = some (r.id, e)) (hst : s.requests.lookup r.id = some st)
    (hkey : st.request.uniqueKey = r.uniqueKey) (hf : FreshOrder s o) :
    Models { store s r (some o) with
        leases := s.leases.erase leaseId, pending := s.pending.insert o r.id }
      (q.put r.uniqueKey (.pending r) (by simp)) := by
  have htouch : Touches r.id r.uniqueKey s { store s r (some o) with
      leases := s.leases.erase leaseId, pending := s.pending.insert o r.id } := by
    refine ⟨?_, ?_, ?_, leases_erase hl⟩
    · intro k hk
      exact (AList.lookup_insert_ite ..).trans (if_neg hk)
    · intro i hi
      exact (AList.lookup_insert_ite ..).trans (if_neg hi)
    · intro o' i hi ho'
      obtain ⟨-, st', hst', hso⟩ := hc.pending_stored o' i ho'
      refine (OrderedMap.find_insert ..).trans ((if_neg ?_).trans ho')
      intro heq
      exact hf.1 i st' hst' (heq ▸ hso)
  refine h.put htouch ?_ ?_ _ le_rfl
  · intro st' hst'
    rw [hst] at hst'
    cases hst'
    exact hkey
  · refine .pending o r.id ⟨r, some o⟩ ?_ rfl ?_
    · exact (AList.lookup_insert_ite ..).trans (if_pos rfl)
    · exact (OrderedMap.find_insert ..).trans (if_pos rfl)

theorem Models.settle (h : Models s q)
    (hl : s.leases.lookup leaseId = some (r.id, e)) (hst : s.requests.lookup r.id = some st)
    (hkey : st.request.uniqueKey = r.uniqueKey) (handledCount : ℕ) :
    Models { store s r none with leases := s.leases.erase leaseId, handledCount }
      (q.put r.uniqueKey .handled (by simp)) := by
  have htouch : Touches r.id r.uniqueKey s
      { store s r none with leases := s.leases.erase leaseId, handledCount } := by
    refine ⟨?_, ?_, fun _ _ _ ho => ho, leases_erase hl⟩
    · intro k hk
      exact (AList.lookup_insert_ite ..).trans (if_neg hk)
    · intro i hi
      exact (AList.lookup_insert_ite ..).trans (if_neg hi)
  refine h.put htouch ?_ ?_ _ le_rfl
  · intro st' hst'
    rw [hst] at hst'
    cases hst'
    exact hkey
  · exact .handled r.id ⟨r, none⟩ ((AList.lookup_insert_ite ..).trans (if_pos rfl)) rfl rfl

end Returned

theorem Models.grant (h : Models s q) (hc : Placed P none s) {o : ℤ} {id : RequestId}
    {rest : OrderedMap ℤ RequestId} {st : StoredRequest}
    (hpop : s.pending.popFirst = some ((o, id), rest)) (hst : s.requests.lookup id = some st)
    (expiresAt : Instant) :
    q.place st.request.uniqueKey = .pending st.request ∧ ∃ fresh, Models
      { s with
        pending := rest
        nextLeaseId := s.nextLeaseId + 1
        leases := s.leases.insert s.nextLeaseId (id, expiresAt) }
      (q.grant st.request.uniqueKey s.nextLeaseId st.request fresh) := by
  have ho := OrderedMap.find_of_popFirst hpop
  have hrest := OrderedMap.find_popFirst_rest hpop
  have hplace := (h.stands st.request.uniqueKey).of_pending hc ho hst rfl
  have hfresh : q.issued s.nextLeaseId = none := by
    by_contra hsome
    obtain ⟨key, hkey⟩ := Option.ne_none_iff_exists'.mp hsome
    exact lt_irrefl _ (h.issued _ key hkey)
  have htouch : Touches id st.request.uniqueKey s
      { s with
        pending := rest
        nextLeaseId := s.nextLeaseId + 1
        leases := s.leases.insert s.nextLeaseId (id, expiresAt) } := by
    refine ⟨fun _ _ => rfl, fun _ _ => rfl, ?_, ?_⟩
    · intro o' i hi ho'
      rw [hrest, if_neg]
      · exact ho'
      · intro heq
        rw [heq, ho] at ho'
        cases ho'
        exact hi rfl
    · intro l i e hi hl
      refine ⟨e, (AList.lookup_insert_ite ..).trans ((if_neg ?_).trans hl)⟩
      intro heq
      obtain ⟨-, hlt, -⟩ := hc.leased_stored l i e hl
      rw [heq] at hlt
      exact lt_irrefl _ hlt
  refine ⟨hplace, hfresh, ?_, ?_⟩
  · intro key
    rw [LeaseQueue.place_grant]
    split_ifs with hk
    · rw [hk]
      refine .leased s.nextLeaseId id expiresAt st hst rfl ?_
      exact (AList.lookup_insert_ite ..).trans (if_pos rfl)
    · refine htouch.frame ?_ hk (h.stands key)
      intro st' hst'
      rw [hst] at hst'
      cases hst'
      rfl
  · intro leaseId key hissued
    rw [LeaseQueue.issued_grant] at hissued
    split_ifs at hissued with hid
    · rw [hid]
      exact Nat.lt_succ_self _
    · exact Nat.lt_succ_of_lt (h.issued leaseId key hissued)

theorem Models.idle_iff (h : Models s q) (hc : Placed P none s) :
    s.pending.isEmpty = true ↔ q.Idle := by
  rw [OrderedMap.isEmpty, List.isEmpty_iff]
  constructor
  · intro hnil key request hp
    have hs := h.stands key
    rw [hp] at hs
    cases hs with
    | pending o id st hst hkey ho =>
      have hmem := OrderedMap.mem_entries_iff.mpr ho
      rw [hnil] at hmem
      cases hmem
  · intro hidle
    apply List.eq_nil_iff_forall_not_mem.mpr
    rintro ⟨o, id⟩ hmem
    have ho := OrderedMap.mem_entries_iff.mp hmem
    obtain ⟨-, st, hst, -⟩ := hc.pending_stored o id ho
    exact hidle _ _ ((h.stands st.request.uniqueKey).of_pending hc ho hst rfl)

theorem Models.finished_iff (h : Models s q) (hc : Placed P none s) :
    (s.pending.isEmpty && s.leases.entries.isEmpty) = true ↔ q.Finished := by
  rw [LeaseQueue.finished_iff, Bool.and_eq_true, h.idle_iff hc, List.isEmpty_iff,
    AList.entries_eq_nil_iff]
  refine and_congr_right fun _ => ?_
  constructor
  · intro hnone key leaseId request hp
    have hs := h.stands key
    rw [hp] at hs
    cases hs with
    | leased _ id e st hst hkey hl =>
      rw [hnone leaseId] at hl
      cases hl
  · intro hfree leaseId
    by_contra hsome
    obtain ⟨⟨id, e⟩, hl⟩ := Option.ne_none_iff_exists'.mp hsome
    obtain ⟨-, -, st, o, hst, -⟩ := hc.leased_stored leaseId id e hl
    exact hfree _ _ _ ((h.stands st.request.uniqueKey).of_lease hc hl hst rfl)

def expiredIn (s : QueueState) (now : Instant) : QueueOp → List LeaseId
  | .fetchNext => expired s now
  | .renew leaseId _ => if leaseId ∈ expired s now then [leaseId] else []
  | _ => []

theorem mem_expired {now : Instant} {leaseId : LeaseId} :
    leaseId ∈ expired s now ↔ ∃ id e, s.leases.lookup leaseId = some (id, e) ∧ e ≤ now := by
  simp only [expired, List.mem_map, List.mem_filter, decide_eq_true_eq]
  constructor
  · rintro ⟨⟨l, id, e⟩, ⟨hmem, hle⟩, rfl⟩
    exact ⟨id, e, AList.mem_entries_iff.mp hmem, hle⟩
  · rintro ⟨id, e, hl, hle⟩
    exact ⟨⟨leaseId, id, e⟩, ⟨AList.mem_entries_iff.mpr hl, hle⟩, rfl⟩

section Calls
variable {codec : Codec β} {K : Set String} {n : ℕ} {d d' : Disk β} {fate : WriteFate β}

theorem Models.addLocked (h : Models s q) (hk : Kept codec P n s d) {r : Request}
    (hfresh : Fresh s r) {opts : AddOptions} {result : StorageResult ProcessedRequest}
    (hcall : addLocked codec fate s d r opts = .returned result s' d') :
    (∃ e, result = .error e ∧ Models s' q) ∨ ∃ info, result = .ok info ∧ Models s' (q.add r) := by
  unfold FsQueue.addLocked at hcall
  cases hd : s.dedup.lookup r.uniqueKey with
  | some known =>
    simp only [hd] at hcall
    cases hcall
    have hplace : q.place r.uniqueKey ≠ .unknown := by
      rw [Ne, (h.stands r.uniqueKey).unknown_iff hk.consistent, hd]
      exact Option.some_ne_none known
    have hsame : q.add r = q := if_neg hplace
    rw [hsame]
    exact .inr ⟨_, rfl, h⟩
  | none =>
    simp only [hd] at hcall
    cases ht : s.takeOrder opts.forefront with
    | error e =>
      simp only [ht] at hcall
      cases hcall
      exact .inl ⟨e, rfl, h⟩
    | ok taken =>
      obtain ⟨o, s₁⟩ := taken
      simp only [ht] at hcall
      obtain ⟨hk₁, hf⟩ := hk.takeOrder ht
      obtain ⟨hrequests, -, -, hdedup, -⟩ := takeOrder_requests ht
      have h₁ := h.takeOrder ht
      cases hw : writeRequest codec fate d r (some o) with
      | error e d₁ =>
        simp only [hw] at hcall
        cases hcall
        exact .inl ⟨e, rfl, h₁⟩
      | crashed d₁ =>
        simp only [hw] at hcall
        cases hcall
      | ok d₁ =>
        simp only [hw] at hcall
        cases hcall
        refine .inr ⟨_, rfl, h₁.accept hk₁.consistent ?_ (by rw [hdedup, hd]) hf⟩
        rw [hrequests, hfresh hd]

theorem Models.addBatch {requests : List Request} (h : Models s q) (hk : Kept codec P n s d)
    (hadd : ∀ r ∈ requests, P r ∧ Fresh s r)
    (hids : ∀ r ∈ requests, ∀ q ∈ requests, q.id = r.id → q.uniqueKey = r.uniqueKey)
    {fate : ℕ → WriteFate β} {opts : AddOptions} {processed : List ProcessedRequest}
    {result : StorageResult (List ProcessedRequest)}
    (hcall : addBatch codec fate opts s d processed requests = .returned result s' d') :
    ∃ accepted, accepted <+: requests ∧ (result.isOk = true → accepted = requests) ∧
      Models s' (q.addAll accepted) := by
  induction requests generalizing s d q processed with
  | nil =>
    cases hcall
    exact ⟨[], List.prefix_rfl, fun _ => rfl, h⟩
  | cons r requests ih =>
    obtain ⟨hP, hfresh⟩ := hadd r List.mem_cons_self
    have hkept := addLocked_kept hk hP hfresh opts (fate processed.length)
    simp only [FsQueue.addBatch] at hcall
    cases hone : FsQueue.addLocked codec (fate processed.length) s d r opts with
    | crashed d₁ =>
      rw [hone] at hcall
      cases hcall
    | panicked s₁ d₁ =>
      rw [hone] at hcall
      cases hcall
    | returned one s₁ d₁ =>
      rw [hone] at hcall hkept
      obtain ⟨e, rfl, h₁⟩ | ⟨info, rfl, h₁⟩ := h.addLocked hk hfresh hone
      · cases hcall
        refine ⟨[], List.nil_prefix, ?_, h₁⟩
        intro hok
        cases hok
      · obtain ⟨accepted, hprefix, hall, hmodels⟩ := ih h₁ hkept
          (fun x hx => ⟨(hadd x (List.mem_cons_of_mem _ hx)).1,
            (hadd x (List.mem_cons_of_mem _ hx)).2.addLocked
              (hids r List.mem_cons_self x (List.mem_cons_of_mem _ hx)) hone⟩)
          (fun x hx y hy => hids x (List.mem_cons_of_mem _ hx) y (List.mem_cons_of_mem _ hy)) hcall
        refine ⟨r :: accepted, List.prefix_cons_inj r |>.mpr hprefix, ?_, hmodels⟩
        intro hok
        rw [hall hok]

theorem Models.returned (h : Models s q) (hg : Good codec K n s d) {lease : Lease}
    (hun : Unchanged s lease) {id : RequestId} {e : Instant}
    (hl : s.leases.lookup lease.leaseId = some (id, e)) :
    lease.request.id = id ∧ ∃ st, s.requests.lookup id = some st ∧
      st.request.uniqueKey = lease.request.uniqueKey ∧
      q.place lease.request.uniqueKey = .leased lease.leaseId st.request := by
  obtain ⟨hid, -, -, st, o, hst, -, hkey⟩ := Good.leased hg hun hl
  exact ⟨hid, st, hst, hkey,
    (h.stands lease.request.uniqueKey).of_lease hg.consistent hl hst hkey⟩

theorem Models.requeue (h : Models s q) (hg : Good codec K n s d) {lease : Lease}
    (hun : Unchanged s lease) {forefront incrementRetry : Bool} {op : QueueOp}
    (hret : op.returned = some lease)
    (hgoes : LeaseQueue.destination op =
      some (.pending (lease.request.reclaimed incrementRetry)))
    {result : StorageResult Unit}
    (hcall : requeue codec fate s d lease forefront incrementRetry = .returned result s' d') :
    ∃ q', q.Answers op (result.map fun _ => .unit) q' ∧ Models s' q' := by
  unfold FsQueue.requeue leaseRequestId at hcall
  cases hl : s.leases.lookup lease.leaseId with
  | none =>
    simp only [hl] at hcall
    cases hcall
    exact ⟨q, .refused _ _ _ (.inl rfl), h⟩
  | some entry =>
    obtain ⟨id, e⟩ := entry
    obtain ⟨hid, st, hst, hkey, hplace⟩ := h.returned hg hun hl
    subst hid
    simp only [hl] at hcall
    cases hvalid : validateUniqueKey s lease.request.id lease.request with
    | error e =>
      simp only [hvalid] at hcall
      cases hcall
      exact ⟨q, .refused _ _ _ (.inl rfl), h⟩
    | ok _ =>
      cases ht : s.takeOrder forefront with
      | error e =>
        simp only [hvalid, ht] at hcall
        cases hcall
        exact ⟨q, .refused _ _ _ (.inl rfl), h⟩
      | ok taken =>
        obtain ⟨o, s₁⟩ := taken
        obtain ⟨hg₁, hf⟩ := hg.takeOrder ht
        obtain ⟨hrequests, hleases, -⟩ := takeOrder_requests ht
        have h₁ := h.takeOrder ht
        generalize hr : lease.request.reclaimed incrementRetry = r at hcall hgoes
        have hrid : r.id = lease.request.id := by rw [← hr, Request.reclaimed_id]
        have hrkey : r.uniqueKey = lease.request.uniqueKey := by
          rw [← hr, Request.reclaimed_uniqueKey]
        simp only [hvalid, ht] at hcall
        cases hw : writeRequest codec fate d r (some o) with
        | error e d₁ =>
          simp only [hw] at hcall
          cases hcall
          exact ⟨q, .refused _ _ _ (.inl rfl), h₁⟩
        | crashed d₁ =>
          simp only [hw] at hcall
          cases hcall
        | ok d₁ =>
          simp only [hw] at hcall
          rw [← hrid] at hl hst hcall
          rw [← hrkey] at hkey hplace
          have hst₁ : s₁.requests.lookup r.id = some st := by rw [hrequests, hst]
          have hl₁ : s₁.leases.lookup lease.leaseId = some (r.id, e) := by rw [hleases, hl]
          have heq : replaceStoredRequest { s₁ with
              leases := s₁.leases.erase lease.leaseId
              pending := s₁.pending.insert o r.id } r.id r (some o) false =
              { store s₁ r (some o) with
                leases := s₁.leases.erase lease.leaseId, pending := s₁.pending.insert o r.id } := by
            refine replaceStoredRequest_eq_store (some o) ?_
            intro st' hst'
            have hsame : st' = st := Option.some.inj (hst'.symm.trans hst₁)
            rw [hsame, hkey]
          rw [heq] at hcall
          cases hcall
          refine ⟨_, .consumed op _ ?_, h₁.queue hg₁.consistent hl₁ hst₁ hkey hf⟩
          exact .intro lease r.uniqueKey st.request (.pending r) hret hplace hgoes

theorem Models.markHandled (h : Models s q) (hg : Good codec K n s d) {lease : Lease}
    (hun : Unchanged s lease) {result : StorageResult Unit}
    (hcall : markHandled codec fate s d lease = .returned result s' d') :
    ∃ q', q.Answers (.markHandled lease) (result.map fun _ => .unit) q' ∧ Models s' q' := by
  unfold FsQueue.markHandled leaseRequestId at hcall
  cases hl : s.leases.lookup lease.leaseId with
  | none =>
    simp only [hl] at hcall
    cases hcall
    exact ⟨q, .refused _ _ _ (.inl rfl), h⟩
  | some entry =>
    obtain ⟨id, e⟩ := entry
    obtain ⟨hid, st, hst, hkey, hplace⟩ := h.returned hg hun hl
    subst hid
    simp only [hl] at hcall
    cases hvalid : validateUniqueKey s lease.request.id lease.request with
    | error e =>
      simp only [hvalid] at hcall
      cases hcall
      exact ⟨q, .refused _ _ _ (.inl rfl), h⟩
    | ok _ =>
      simp only [hvalid] at hcall
      cases hw : writeRequest codec fate d lease.request none with
      | error e d₁ =>
        simp only [hw] at hcall
        cases hcall
        exact ⟨q, .refused _ _ _ (.inl rfl), h⟩
      | crashed d₁ =>
        simp only [hw] at hcall
        cases hcall
      | ok d₁ =>
        simp only [hw] at hcall
        have heq : replaceStoredRequest { s with
            leases := s.leases.erase lease.leaseId
            handledCount := min (s.handledCount + 1) u64Max } lease.request.id lease.request none
            true =
            { store s lease.request none with
              leases := s.leases.erase lease.leaseId
              handledCount := min (s.handledCount + 1) u64Max } := by
          refine replaceStoredRequest_eq_store none ?_
          intro st' hst'
          have hsame : st' = st := Option.some.inj (hst'.symm.trans hst)
          rw [hsame, hkey]
        rw [heq] at hcall
        cases hcall
        refine ⟨_, .consumed _ _ ?_, h.settle hl hst hkey _⟩
        exact .intro lease lease.request.uniqueKey st.request .handled rfl hplace rfl

theorem Models.fetchNext (h : Models s q) (hk : Kept codec P n s d) (hn : n < u64Max)
    {now later : Instant} {result : StorageResult (Option Lease)}
    (hcall : fetchNext s now later = (some result, s')) :
    ∃ q', ((q.withdraw (expired s now)).Answers .fetchNext (result.map .leased) q' ∧
      (q.withdraw (expired s now)).Truthful .fetchNext (result.map .leased)) ∧ Models s' q' := by
  have h₁ : Models (reclaimExpired s now) (q.withdraw (expired s now)) := h.reclaim hk _
  have hk₁ := reclaimExpired_kept hk now
  unfold FsQueue.fetchNext at hcall
  generalize reclaimExpired s now = t at hcall h₁ hk₁
  generalize q.withdraw (expired s now) = r at h₁ ⊢
  cases hp : t.pending.popFirst with
  | none =>
    simp only [hp] at hcall
    cases hcall
    refine ⟨r, ⟨.idle, (h₁.idle_iff hk₁.consistent).mp ?_⟩, h₁⟩
    rw [OrderedMap.isEmpty, OrderedMap.popFirst_eq_none_iff.mp hp]
    rfl
  | some popped =>
    obtain ⟨⟨o, id⟩, rest⟩ := popped
    obtain ⟨-, st, hst, -⟩ :=
      hk₁.consistent.pending_stored o id (OrderedMap.find_of_popFirst hp)
    have hlease := hk₁.bounded.lease
    have hroom : t.nextLeaseId + 1 ≤ u64Max := by omega
    have hbound : t.nextLeaseId < 2 ^ 64 := by
      simp only [u64Max] at hroom
      omega
    obtain ⟨hplace, hfresh, hgrant⟩ := h₁.grant hk₁.consistent hp hst (later + leaseTtl)
    simp only [hp, hst, if_pos hroom] at hcall
    cases hcall
    refine ⟨_, ⟨?_, trivial⟩, hgrant⟩
    exact .leased ⟨st.request, t.nextLeaseId, later + leaseTtl⟩ _ hbound hplace hfresh

theorem Models.renew (h : Models s q) (hc : Placed P none s) {now : Instant} {leaseId : LeaseId}
    {extendBy : Duration} {result : StorageResult Unit}
    (hcall : renew s now leaseId extendBy = (some result, s')) :
    ∃ q', (q.withdraw (expiredIn s now (.renew leaseId extendBy))).Answers
        (.renew leaseId extendBy) (result.map fun _ => .unit) q' ∧ Models s' q' := by
  unfold FsQueue.renew at hcall
  cases hl : s.leases.lookup leaseId with
  | none =>
    have hlive : leaseId ∉ expired s now := by
      intro hmem
      obtain ⟨id, e, hl', -⟩ := mem_expired.mp hmem
      rw [hl] at hl'
      cases hl'
    simp only [hl] at hcall
    cases hcall
    simp only [expiredIn, if_neg hlive, LeaseQueue.withdraw_nil]
    exact ⟨q, .refused _ _ _ (.inl rfl), h⟩
  | some entry =>
    obtain ⟨id, e⟩ := entry
    simp only [hl] at hcall
    split_ifs at hcall with hle
    · cases hcall
      have hgone : leaseId ∈ expired s now := mem_expired.mpr ⟨id, e, hl, hle⟩
      simp only [expiredIn, if_pos hgone]
      exact ⟨_, .refused _ _ _ (.inl rfl), h.takeBack hc leaseId⟩
    · have hlive : leaseId ∉ expired s now := by
        intro hmem
        obtain ⟨id', e', hl', hle'⟩ := mem_expired.mp hmem
        rw [hl] at hl'
        cases hl'
        exact hle hle'
      obtain ⟨-, -, st, o, hst, -⟩ := hc.leased_stored leaseId id e hl
      have hplace := (h.stands st.request.uniqueKey).of_lease hc hl hst rfl
      simp only [expiredIn, if_neg hlive, LeaseQueue.withdraw_nil]
      split at hcall
      · cases hcall
      cases hcall
      refine ⟨q, .renewed _ _ _ _ hplace, h.congr rfl rfl rfl ?_ rfl⟩
      intro l i e' hl'
      by_cases hsame : l = leaseId
      · rw [hsame, hl] at hl'
        cases hl'
        exact ⟨_, (AList.lookup_insert_ite ..).trans (if_pos hsame)⟩
      · exact ⟨e', (AList.lookup_insert_ite ..).trans ((if_neg hsame).trans hl')⟩

theorem Outcome.map_eq_returned {α γ : Type*} {out : Outcome β α} {f : α → γ}
    {result : StorageResult γ} (h : out.map f = .returned result s' d') :
    ∃ result', out = .returned result' s' d' ∧ result = result'.map f := by
  cases out with
  | returned result' s₁ d₁ =>
    cases h
    exact ⟨result', rfl, rfl⟩
  | crashed d₁ => cases h
  | panicked s₁ d₁ => cases h

theorem Outcome.unwritten_eq_returned {α : Type*} {r : Option (StorageResult α) × QueueState}
    {result : StorageResult α} (h : Outcome.unwritten d r = .returned result s' d') :
    r = (some result, s') := by
  obtain ⟨_ | result₁, s₁⟩ := r <;> cases h
  rfl

/-- A call that is answered is one that the abstract queue may answer so. -/
theorem Models.call (inj : Set.InjOn RequestId.fromUniqueKey K) (h : Models s q)
    (hg : Good codec K n s d) (hn : n < u64Max) {env : Surroundings β} {op : QueueOp}
    (legal : Legal K (.running s d) (.call env op)) {reply : StorageResult QueueReply}
    (hcall : call codec env s d op = .returned reply s' d') :
    ∃ q', (q.withdraw (expiredIn s env.now op)).Serves op reply q' ∧ Models s' q' := by
  have hadmissible := admissible_of_legal inj hg legal
  cases op with
  | add request opts =>
    obtain ⟨result, hadd, rfl⟩ := Outcome.map_eq_returned hcall
    simp only [expiredIn, LeaseQueue.withdraw_nil]
    obtain ⟨e, rfl, h'⟩ | ⟨info, rfl, h'⟩ :=
      h.addLocked hg (hadmissible.added request List.mem_cons_self).2 hadd
    · refine ⟨q, ⟨[], List.nil_prefix, ?_, rfl⟩, h'⟩
      intro hok
      cases hok
    · exact ⟨_, ⟨[request], List.prefix_rfl, fun _ => rfl, rfl⟩, h'⟩
  | addBatch requests opts =>
    obtain ⟨result, hadd, rfl⟩ := Outcome.map_eq_returned hcall
    simp only [expiredIn, LeaseQueue.withdraw_nil]
    obtain ⟨accepted, hprefix, hall, h'⟩ :=
      h.addBatch hg hadmissible.added hadmissible.ids hadd
    refine ⟨_, ⟨accepted, hprefix, ?_, rfl⟩, h'⟩
    intro hok
    apply hall
    cases result with
    | ok infos => rfl
    | error e => cases hok
  | fetchNext =>
    obtain ⟨result, hfetch, rfl⟩ := Outcome.map_eq_returned hcall
    exact h.fetchNext hg hn (Outcome.unwritten_eq_returned hfetch)
  | markHandled lease =>
    obtain ⟨result, hmark, rfl⟩ := Outcome.map_eq_returned hcall
    obtain ⟨q', hanswers, h'⟩ := h.markHandled hg (legal.2 lease rfl) hmark
    simp only [expiredIn, LeaseQueue.withdraw_nil]
    exact ⟨q', ⟨hanswers, trivial⟩, h'⟩
  | reclaim lease opts =>
    obtain ⟨result, hrequeue, rfl⟩ := Outcome.map_eq_returned hcall
    have hgoes : LeaseQueue.destination (.reclaim lease opts) =
        some (.pending (lease.request.reclaimed opts.incrementRetry)) := rfl
    obtain ⟨q', hanswers, h'⟩ := h.requeue hg (legal.2 lease rfl) rfl hgoes hrequeue
    simp only [expiredIn, LeaseQueue.withdraw_nil]
    exact ⟨q', ⟨hanswers, trivial⟩, h'⟩
  | abandon lease =>
    obtain ⟨result, hrequeue, rfl⟩ := Outcome.map_eq_returned hcall
    have hgoes : LeaseQueue.destination (.abandon lease) =
        some (.pending (lease.request.reclaimed false)) := rfl
    obtain ⟨q', hanswers, h'⟩ := h.requeue hg (legal.2 lease rfl) rfl hgoes hrequeue
    simp only [expiredIn, LeaseQueue.withdraw_nil]
    exact ⟨q', ⟨hanswers, trivial⟩, h'⟩
  | renew leaseId extendBy =>
    obtain ⟨result, hrenew, rfl⟩ := Outcome.map_eq_returned hcall
    obtain ⟨q', hanswers, h'⟩ := h.renew hg.consistent (Outcome.unwritten_eq_returned hrenew)
    exact ⟨q', ⟨hanswers, trivial⟩, h'⟩
  | isEmpty =>
    cases hcall
    simp only [expiredIn, LeaseQueue.withdraw_nil]
    exact ⟨q, ⟨.empty _, h.idle_iff hg.consistent⟩, h⟩
  | isFinished =>
    cases hcall
    simp only [expiredIn, LeaseQueue.withdraw_nil]
    exact ⟨q, ⟨.finished _, h.finished_iff hg.consistent⟩, h⟩
  | handledCount | pendingCount =>
    cases hcall
    simp only [expiredIn, LeaseQueue.withdraw_nil]
    exact ⟨q, rfl, h⟩

end Calls

/-- A call with its answer, and the leases that had expired when it was made. -/
structure Answered (β : Type*) where
  env : Surroundings β
  op : QueueOp
  expired : List LeaseId
  reply : StorageResult QueueReply

def Answered.exchange (a : Answered β) : LeaseQueue.Exchange := ⟨a.expired, a.op, a.reply⟩

def Answers (codec : Codec β) (p : QueueState × Disk β) (a : Answered β)
    (p' : QueueState × Disk β) : Prop :=
  a.expired = expiredIn p.1 a.env.now a.op ∧
    call codec a.env p.1 p.2 a.op = .returned a.reply p'.1 p'.2

def next (codec : Codec β) (p : QueueState × Disk β) (a : Answered β) : QueueState × Disk β :=
  match call codec a.env p.1 p.2 a.op with
  | .returned _ s d => (s, d)
  | _ => p

/-- Requests have the identifiers of their keys, and leases come back unchanged. -/
def Proper (K : Set String) (p : QueueState × Disk β) (a : Answered β) : Prop :=
  Legal K (.running p.1 p.2) (.call a.env a.op)

section Runs
variable {codec : Codec β} {K : Set String} {n : ℕ} {p p' : QueueState × Disk β} {a : Answered β}

theorem answers_next (hexpired : a.expired = expiredIn p.1 a.env.now a.op)
    (h : ∃ s d, call codec a.env p.1 p.2 a.op = .returned a.reply s d) :
    Answers codec p a (next codec p a) := by
  obtain ⟨s, d, hcall⟩ := h
  refine ⟨hexpired, ?_⟩
  simp only [next, hcall]

theorem Models.step (inj : Set.InjOn RequestId.fromUniqueKey K) (h : Models p.1 q)
    (hg : Good codec K n p.1 p.2) (hn : n < u64Max) (hproper : Proper K p a)
    (hs : Answers codec p a p') :
    ∃ q', q.Exchanges a.exchange q' ∧ Models p'.1 q' ∧ Good codec K (n + 1) p'.1 p'.2 := by
  obtain ⟨hexpired, hcall⟩ := hs
  obtain ⟨q', hserves, h'⟩ := h.call inj hg hn hproper hcall
  have hkept := call_good inj hg hn a.env hproper (representable_of_call hcall)
  rw [hcall] at hkept
  refine ⟨q', ?_, h', hkept⟩
  rw [LeaseQueue.Exchanges, Answered.exchange, hexpired]
  exact hserves

/-- The queue is one with exclusive leases: what it answers in a run of a process, however its
writes end, the abstract queue may answer when it takes back the leases that have expired; and
what it says of itself is so. While no write kills the process every further call is answered if
a deadline it moves is still an `Instant`. -/
theorem fs_refines (inj : Set.InjOn RequestId.fromUniqueKey K) {as : List (Answered β)}
    (run : Machine.Run (Machine.Guarded (Proper K) (Answers codec)) (.empty, .empty) as p)
    (few : as.length < u64Max) :
    (∃ q, Machine.Run LeaseQueue.Exchanges .empty (as.map Answered.exchange) q ∧
      Models p.1 q) ∧
    ∀ env op, Legal K (.running p.1 p.2) (.call env op) → Representable p.1 env.now op →
      (∀ i, (env.fate i).survives = true) →
        ∃ reply p', Answers codec p ⟨env, op, expiredIn p.1 env.now op, reply⟩ p' := by
  have hmodels : (∃ q, Machine.Run LeaseQueue.Exchanges .empty (as.map Answered.exchange) q ∧
      Models p.1 q) ∧ Good codec K as.length p.1 p.2 := by
    induction run with
    | nil => exact ⟨⟨.empty, .nil _, models_empty⟩, kept_empty codec _⟩
    | @snoc u v as a hrun hs ih =>
      simp only [List.map_append, List.map_cons, List.map_nil, List.length_append,
        List.length_singleton] at few ih ⊢
      obtain ⟨⟨q, hq, hu⟩, hg⟩ := ih (by omega)
      obtain ⟨q', hstep, hv, hg'⟩ := hu.step inj hg (by omega) hs.1 hs.2
      exact ⟨⟨q', hq.snoc hstep, hv⟩, hg'⟩
  obtain ⟨hmodels, hg⟩ := hmodels
  refine ⟨hmodels, ?_⟩
  intro env op legal hrepresentable hsurvives
  have hkept := call_good inj hg few env legal hrepresentable
  have hlives : (Event.call env op).survives := hsurvives
  have hcrash := call_ne_crashed codec hlives p.1 p.2
  cases hcall : call codec env p.1 p.2 op with
  | returned reply s' d' => exact ⟨reply, (s', d'), rfl, hcall⟩
  | crashed d' => exact absurd hcall (hcrash d')
  | panicked s' d' =>
    rw [hcall] at hkept
    exact hkept.elim

end Runs

-- The first lease expires and the request is leased again; a write fails.
def failingOnce (now : Instant) : Surroundings (Request × Option ℤ) :=
  ⟨now, now, fun _ => .fails "disk full" none⟩

def expiringCalls : List (Answered (Request × Option ℤ)) :=
  [⟨.calm 0, .add requestA {}, [], .ok (.info ⟨requestA.id, "a", false, false⟩)⟩,
   ⟨.calm 0, .fetchNext, [], .ok (.leased (some ⟨requestA, 0, 0 + leaseTtl⟩))⟩,
   ⟨.calm leaseTtl, .fetchNext, [0], .ok (.leased (some ⟨requestA, 1, leaseTtl + leaseTtl⟩))⟩,
   ⟨failingOnce leaseTtl, .markHandled ⟨requestA, 1, leaseTtl + leaseTtl⟩, [],
    .error (.io "disk full")⟩,
   ⟨.calm leaseTtl, .isFinished, [], .ok (.flag false)⟩]

def expiringState (k : ℕ) : QueueState × Disk (Request × Option ℤ) :=
  (expiringCalls.take k).foldl (next plainCodec) (.empty, .empty)

theorem run_expiringCalls : Machine.Run (Machine.Guarded (Proper {"a"}) (Answers plainCodec))
    (.empty, .empty) expiringCalls (expiringState 5) := by
  have hquiet : ∀ (p : QueueState × Disk (Request × Option ℤ)) (a : Answered _),
      a.op.added = [] → a.op.returned = none → Proper {"a"} p a := by
    intro p a hadded hreturned
    refine legal_call (.running p.1 p.2) a.env ?_ hreturned
    rw [hadded]
    exact fun _ hr => absurd hr List.not_mem_nil
  have hadd : Machine.Run (Machine.Guarded (Proper {"a"}) (Answers plainCodec)) (.empty, .empty)
      (expiringCalls.take 1) (expiringState 1) := by
    refine (Machine.Run.nil _).snoc ⟨⟨?_, ?_⟩, answers_next rfl ⟨_, _, rfl⟩⟩
    · intro r hr
      rw [List.mem_singleton.mp hr]
      exact ⟨rfl, rfl⟩
    · intro lease hl
      cases hl
  have hfetch : Machine.Run (Machine.Guarded (Proper {"a"}) (Answers plainCodec)) (.empty, .empty)
      (expiringCalls.take 2) (expiringState 2) :=
    hadd.snoc ⟨hquiet _ _ rfl rfl, answers_next rfl ⟨_, _, rfl⟩⟩
  have hagain : Machine.Run (Machine.Guarded (Proper {"a"}) (Answers plainCodec)) (.empty, .empty)
      (expiringCalls.take 3) (expiringState 3) :=
    hfetch.snoc ⟨hquiet _ _ rfl rfl, answers_next rfl ⟨_, _, rfl⟩⟩
  have hfails : Machine.Run (Machine.Guarded (Proper {"a"}) (Answers plainCodec)) (.empty, .empty)
      (expiringCalls.take 4) (expiringState 4) := by
    refine hagain.snoc ⟨⟨?_, ?_⟩, answers_next rfl ⟨_, _, rfl⟩⟩
    · intro r hr
      cases hr
    · intro lease hl id e st hlease hst
      cases hl
      cases hlease
      cases hst
      exact ⟨rfl, rfl⟩
  exact hfails.snoc ⟨hquiet _ _ rfl rfl, answers_next rfl ⟨_, _, rfl⟩⟩

theorem fs_refines_expiringCalls : ∃ q,
    Machine.Run LeaseQueue.Exchanges .empty (expiringCalls.map Answered.exchange) q ∧
      Models (expiringState 5).1 q ∧ (expiringState 5).1.nextLeaseId = 2 := by
  obtain ⟨⟨q, hq, hmodels⟩, -⟩ :=
    fs_refines (Set.injOn_singleton _ "a") run_expiringCalls (by decide)
  exact ⟨q, hq, hmodels, rfl⟩

end Millipede.FsQueue
