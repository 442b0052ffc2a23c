import Millipede.Library.Machine
import Millipede.Storage.FsQueue

/-!
# Where each request of the file-system queue is

A request that is stored and not handled is pending under its order number or
held by one lease. Every operation takes one request out of its place and puts it
into another, so the invariant names the request that is on its way: `Placed`
with `transit = some id` says that `id` is in no place and every other request is
where it belongs. `P` is whatever else is known of each stored request; in a
`Consistent` queue it has the identifier of its key.
-/

namespace Millipede.FsQueue

structure Placed (P : Request → Prop) (transit : Option RequestId) (s : QueueState) : Prop where
  stored : ∀ id st, s.requests.lookup id = some st → st.request.id = id ∧ P st.request
  dedup_stored : ∀ k id handled, s.dedup.lookup k = some (id, handled) →
    ∃ st, s.requests.lookup id = some st ∧ st.request.uniqueKey = k ∧ handled = st.orderNo.isNone
  stored_dedup : ∀ id st, s.requests.lookup id = some st →
    s.dedup.lookup st.request.uniqueKey = some (id, st.orderNo.isNone)
  pending_stored : ∀ o id, s.pending.find o = some id →
    some id ≠ transit ∧ ∃ st, s.requests.lookup id = some st ∧ st.orderNo = some o
  leased_stored : ∀ l id e, s.leases.lookup l = some (id, e) →
    some id ≠ transit ∧ l < s.nextLeaseId ∧
      ∃ st o, s.requests.lookup id = some st ∧ st.orderNo = some o ∧ s.pending.find o = none
  placed : ∀ id st o, s.requests.lookup id = some st → st.orderNo = some o → some id ≠ transit →
    s.pending.find o = some id ∨ ∃ l e, s.leases.lookup l = some (id, e)
  lease_unique : ∀ l l' id e e', s.leases.lookup l = some (id, e) →
    s.leases.lookup l' = some (id, e') → l = l'
  order_unique : ∀ id id' st st' o, s.requests.lookup id = some st → st.orderNo = some o →
    s.requests.lookup id' = some st' → st'.orderNo = some o → id = id'
  order_bounds : ∀ id st o, s.requests.lookup id = some st → st.orderNo = some o →
    s.nextForefrontOrder < o ∧ o < s.nextOrder
  counters : s.nextForefrontOrder < 0 ∧ 0 < s.nextOrder

def Identifies (K : Set String) (r : Request) : Prop := r.Identified ∧ r.uniqueKey ∈ K

abbrev Consistent (K : Set String) : Option RequestId → QueueState → Prop := Placed (Identifies K)

variable {P : Request → Prop} {K : Set String} {s : QueueState}

theorem placed_empty (P : Request → Prop) : Placed P none QueueState.empty := by
  constructor <;> simp [QueueState.empty]

theorem Consistent.key_eq {t : Option RequestId} (h : Consistent K t s)
    (inj : Set.InjOn RequestId.fromUniqueKey K) {r : Request} (hid : r.Identified)
    (hk : r.uniqueKey ∈ K) {st : StoredRequest} (hst : s.requests.lookup r.id = some st) :
    st.request.uniqueKey = r.uniqueKey := by
  obtain ⟨he, hi, hm⟩ := h.stored _ _ hst
  apply inj hm hk
  rw [← hi, ← hid, he]

theorem Placed.pop (h : Placed P none s) {o : ℤ} {id : RequestId}
    {rest : OrderedMap ℤ RequestId} (hp : s.pending.popFirst = some ((o, id), rest)) :
    Placed P (some id) { s with pending := rest } := by
  have hfind := OrderedMap.find_of_popFirst hp
  have hrest := OrderedMap.find_popFirst_rest hp
  obtain ⟨-, st, hst, ho⟩ := h.pending_stored o id hfind
  exact { h with
    pending_stored := by
      intro o' id' hf
      simp only [hrest] at hf
      split_ifs at hf with hne
      have hs := h.pending_stored o' id' hf
      grind
    leased_stored := by
      intro l id' e hl
      have hs := h.leased_stored l id' e hl
      simp only [hrest]
      grind
    placed := by
      intro id' st' o' hs ho' hne
      have hpl := h.placed id' st' o' hs ho' (by simp)
      simp only [hrest]
      grind }

theorem Placed.release (h : Placed P none s) {l : LeaseId} {id : RequestId} {e : Instant}
    (hl : s.leases.lookup l = some (id, e)) :
    Placed P (some id) { s with leases := s.leases.erase l } := by
  obtain ⟨-, -, st, o, hst, ho, hfree⟩ := h.leased_stored l id e hl
  exact { h with
    pending_stored := by
      intro o' id' hf
      have hs := h.pending_stored o' id' hf
      grind
    leased_stored := by
      intro l' id' e' hl'
      simp only [AList.lookup_erase_ite] at hl'
      split_ifs at hl' with hne
      have hs := h.leased_stored l' id' e' hl'
      have hu := h.lease_unique l l' id e e' hl
      grind
    placed := by
      intro id' st' o' hs ho' hne
      simp only [AList.lookup_erase_ite]
      have hpl := h.placed id' st' o' hs ho' (by simp)
      grind
    lease_unique := by
      intro l₁ l₂ id' e₁ e₂ h₁ h₂
      simp only [AList.lookup_erase_ite] at h₁ h₂
      split_ifs at h₁ h₂
      exact h.lease_unique l₁ l₂ id' e₁ e₂ h₁ h₂ }

theorem Consistent.lookup_of_new {t : Option RequestId} (h : Consistent K t s)
    (inj : Set.InjOn RequestId.fromUniqueKey K) {r : Request} (hid : r.Identified)
    (hk : r.uniqueKey ∈ K) (hnew : s.dedup.lookup r.uniqueKey = none) :
    s.requests.lookup r.id = none := by
  cases hst : s.requests.lookup r.id with
  | none => rfl
  | some st =>
    have hd := h.stored_dedup r.id st hst
    rw [h.key_eq inj hid hk hst, hnew] at hd
    cases hd

theorem Placed.enter (h : Placed P none s) {id : RequestId} (hno : s.requests.lookup id = none) :
    Placed P (some id) s := by
  exact { h with
    pending_stored := by
      intro o id' hf
      have hs := h.pending_stored o id' hf
      grind
    leased_stored := by
      intro l id' e hl
      have hs := h.leased_stored l id' e hl
      grind
    placed := by
      intro id' st o hs ho hne
      exact h.placed id' st o hs ho (by simp) }

def FreshOrder (s : QueueState) (o : ℤ) : Prop :=
  (∀ id st, s.requests.lookup id = some st → st.orderNo ≠ some o) ∧
    s.nextForefrontOrder < o ∧ o < s.nextOrder

theorem Placed.takeOrder {t : Option RequestId} (h : Placed P t s) {forefront : Bool}
    {o : ℤ} {s' : QueueState} (ht : s.takeOrder forefront = .ok (o, s')) :
    Placed P t s' ∧ FreshOrder s' o := by
  have hc := h.counters
  have hb := h.order_bounds
  simp only [QueueState.takeOrder] at ht
  split_ifs at ht with hf h₁ h₁
  · simp only [Except.ok.injEq, Prod.mk.injEq] at ht
    obtain ⟨rfl, rfl⟩ := ht
    refine ⟨{ h with order_bounds := ?_, counters := ?_ }, ?_, ?_, ?_⟩
    · intro id st o hs ho
      have := hb id st o hs ho
      simp only
      omega
    · simp only
      omega
    · intro id st hs ho
      have := hb id st _ hs ho
      omega
    · simp only
      omega
    · simp only
      omega
  · simp only [Except.ok.injEq, Prod.mk.injEq] at ht
    obtain ⟨rfl, rfl⟩ := ht
    refine ⟨{ h with order_bounds := ?_, counters := ?_ }, ?_, ?_, ?_⟩
    · intro id st o hs ho
      have := hb id st o hs ho
      simp only
      omega
    · simp only
      omega
    · intro id st hs ho
      have := hb id st _ hs ho
      omega
    · simp only
      omega
    · simp only
      omega

def store (s : QueueState) (request : Request) (orderNo : Option ℤ) : QueueState :=
  { s with
    dedup := s.dedup.insert request.uniqueKey (request.id, orderNo.isNone)
    requests := s.requests.insert request.id { request, orderNo } }

def Owned (s : QueueState) (r : Request) : Prop :=
  ∀ id handled, s.dedup.lookup r.uniqueKey = some (id, handled) → id = r.id

/-- The key that the request had before is forgotten. -/
theorem lookup_replaced {r : Request} {id : RequestId} {orderNo : Option ℤ} {handled : Bool}
    {k : String} (hk : k ≠ r.uniqueKey) (v : RequestId × Bool) :
    (replaceStoredRequest s id r orderNo handled).dedup.lookup k = some v ↔
      s.dedup.lookup k = some v ∧
        ∀ prev, s.requests.lookup id = some prev → prev.request.uniqueKey ≠ k := by
  simp only [replaceStoredRequest, AList.lookup_insert_ite, if_neg hk]
  cases hprev : s.requests.lookup id with
  | none => simp
  | some prev =>
    simp only [Option.some.injEq, forall_eq']
    by_cases hsame : prev.request.uniqueKey = r.uniqueKey
    · simp only [hsame, ne_eq, not_true_eq_false, if_false]
      exact ⟨fun h => ⟨h, Ne.symm hk⟩, And.left⟩
    · simp only [ne_eq, hsame, not_false_eq_true, if_true, AList.lookup_erase_ite]
      by_cases hkp : k = prev.request.uniqueKey
      · simp [hkp]
      · simp [hkp, Ne.symm hkp]

theorem lookup_replaced_own {r : Request} {id : RequestId} (orderNo : Option ℤ) (handled : Bool) :
    (replaceStoredRequest s id r orderNo handled).dedup.lookup r.uniqueKey = some (id, handled) :=
  AList.lookup_insert _

theorem Placed.replace {r : Request} (h : Placed P (some r.id) s) (hP : P r) (hown : Owned s r)
    (orderNo : Option ℤ) (hf : ∀ o, orderNo = some o → FreshOrder s o) :
    Placed P (some r.id) (replaceStoredRequest s r.id r orderNo orderNo.isNone) := by
  have hreq : (replaceStoredRequest s r.id r orderNo orderNo.isNone).requests =
      s.requests.insert r.id { request := r, orderNo } := rfl
  exact { h with
    stored := by
      intro id st hst
      have hs := h.stored id st
      simp only [hreq, AList.lookup_insert_ite] at hst
      grind
    dedup_stored := by
      intro k id handled hd
      simp only [hreq, AList.lookup_insert_ite]
      by_cases hk : k = r.uniqueKey
      · rw [hk, lookup_replaced_own] at hd
        cases hd
        exact ⟨_, if_pos rfl, hk.symm, rfl⟩
      · obtain ⟨hd, hprev⟩ := (lookup_replaced hk _).mp hd
        obtain ⟨st, hst, hk', hh⟩ := h.dedup_stored k id handled hd
        have hne : id ≠ r.id := by
          rintro rfl
          exact hprev st hst hk'
        exact ⟨st, by rw [if_neg hne, hst], hk', hh⟩
    stored_dedup := by
      intro id st hst
      simp only [hreq, AList.lookup_insert_ite] at hst
      split_ifs at hst with hid
      · cases hst
        rw [hid]
        exact lookup_replaced_own orderNo orderNo.isNone
      · have hd := h.stored_dedup id st hst
        have hk : st.request.uniqueKey ≠ r.uniqueKey := by
          intro hk
          rw [hk] at hd
          exact hid (hown _ _ hd)
        refine (lookup_replaced hk _).mpr ⟨hd, ?_⟩
        intro prev hprev heq
        have hd' := h.stored_dedup r.id prev hprev
        rw [heq, hd] at hd'
        exact hid (Prod.mk.inj (Option.some.inj hd')).1
    pending_stored := by
      intro o id hp
      have hs := h.pending_stored o id hp
      simp only [hreq, AList.lookup_insert_ite]
      grind
    leased_stored := by
      intro l id e hl
      have hs := h.leased_stored l id e hl
      simp only [hreq, AList.lookup_insert_ite]
      grind [replaceStoredRequest]
    placed := by
      intro id st o hst ho hne
      have hs := h.placed id st o
      simp only [hreq, AList.lookup_insert_ite] at hst
      simp only [replaceStoredRequest]
      grind
    order_unique := by
      intro id id' st st' o hst ho hst' ho'
      have hs := h.order_unique id id' st st' o
      have hfo := hf o
      simp only [FreshOrder] at hfo
      simp only [hreq, AList.lookup_insert_ite] at hst hst'
      grind
    order_bounds := by
      intro id st o hst ho
      have hs := h.order_bounds id st o
      have hfo := hf o
      simp only [FreshOrder] at hfo
      simp only [hreq, AList.lookup_insert_ite] at hst
      simp only [replaceStoredRequest]
      grind }

theorem Placed.putBack {id : RequestId} (h : Placed P (some id) s) {st : StoredRequest}
    {o : ℤ} (hst : s.requests.lookup id = some st) (ho : st.orderNo = some o) :
    Placed P none { s with pending := s.pending.insert o id } := by
  exact { h with
    pending_stored := by
      intro o' id' hp
      have hs := h.pending_stored o' id'
      simp only [OrderedMap.find_insert] at hp
      grind
    leased_stored := by
      intro l id' e hl
      have hs := h.leased_stored l id' e hl
      have hu := h.order_unique id id' st
      simp only [OrderedMap.find_insert]
      grind
    placed := by
      intro id' st' o' hst' ho' hne
      simp only [OrderedMap.find_insert]
      by_cases hid : id' = id
      · subst hid
        rw [hst] at hst'
        cases hst'
        rw [ho] at ho'
        cases ho'
        exact Or.inl (if_pos rfl)
      · have hu := h.order_unique id id' st st' o hst ho hst'
        have hs := h.placed id' st' o' hst' ho' (by simpa using hid)
        grind }

theorem Placed.rest {id : RequestId} (h : Placed P (some id) s) {st : StoredRequest}
    (hst : s.requests.lookup id = some st) (ho : st.orderNo = none) : Placed P none s := by
  exact { h with
    pending_stored := by
      intro o id' hp
      exact ⟨by simp, (h.pending_stored o id' hp).2⟩
    leased_stored := by
      intro l id' e hl
      exact ⟨by simp, (h.leased_stored l id' e hl).2⟩
    placed := by
      intro id' st' o hst' ho' hne
      apply h.placed id' st' o hst' ho'
      intro he
      cases he
      rw [hst] at hst'
      cases hst'
      rw [ho] at ho'
      cases ho' }

theorem Placed.queue {r : Request} (h : Placed P (some r.id) s) (hP : P r) (hown : Owned s r)
    {o : ℤ} (hf : FreshOrder s o) :
    Placed P none { replaceStoredRequest s r.id r (some o) false with
      pending := s.pending.insert o r.id } := by
  have hs := h.replace hP hown (some o) (by
    intro o' ho'
    cases ho'
    exact hf)
  have hst : (replaceStoredRequest s r.id r (some o) false).requests.lookup r.id =
      some ⟨r, some o⟩ := AList.lookup_insert _
  exact hs.putBack hst rfl

theorem replaceStoredRequest_eq_store {r : Request} (orderNo : Option ℤ)
    (hkey : ∀ st, s.requests.lookup r.id = some st → st.request.uniqueKey = r.uniqueKey) :
    replaceStoredRequest s r.id r orderNo orderNo.isNone = store s r orderNo := by
  simp only [replaceStoredRequest, store]
  cases hst : s.requests.lookup r.id with
  | none => rfl
  | some st => simp only [hkey st hst, ne_eq, not_true_eq_false, if_false]

theorem Placed.accept {r : Request} (h : Placed P none s) (hP : P r)
    (hno : s.requests.lookup r.id = none) (hnew : s.dedup.lookup r.uniqueKey = none) {o : ℤ}
    (hf : FreshOrder s o) : Placed P none (accept s r o) := by
  have hown : Owned s r := by
    intro id handled hd
    rw [hnew] at hd
    cases hd
  have hq := (h.enter hno).queue hP hown hf
  have heq : replaceStoredRequest s r.id r (some o) false = store s r (some o) :=
    replaceStoredRequest_eq_store (some o) (by
      intro st hst
      rw [hno] at hst
      cases hst)
  rw [heq] at hq
  exact hq

def settle (s : QueueState) (request : Request) : QueueState :=
  { store s request none with handledCount := min (s.handledCount + 1) u64Max }

theorem Placed.settle {r : Request} (h : Placed P (some r.id) s) (hP : P r) (hown : Owned s r)
    (handledCount : ℕ) :
    Placed P none { replaceStoredRequest s r.id r none true with handledCount } := by
  have hs := h.replace hP hown none (by
    intro o ho
    cases ho)
  have hst : (replaceStoredRequest s r.id r none true).requests.lookup r.id = some ⟨r, none⟩ :=
    AList.lookup_insert _
  have hr := hs.rest hst rfl
  exact { hr with }

theorem Placed.grant {id : RequestId} (h : Placed P (some id) s) {st : StoredRequest}
    {o : ℤ} (hst : s.requests.lookup id = some st) (ho : st.orderNo = some o) (e : Instant) :
    Placed P none
      { s with
        nextLeaseId := s.nextLeaseId + 1
        leases := s.leases.insert s.nextLeaseId (id, e) } := by
  have hfree : s.pending.find o = none := by
    cases hp : s.pending.find o with
    | none => rfl
    | some id' =>
      obtain ⟨hne, st', hst', ho'⟩ := h.pending_stored o id' hp
      have hu := h.order_unique id id' st st' o hst ho hst' ho'
      exact absurd (congrArg some hu.symm) hne
  exact { h with
    pending_stored := by
      intro o' id' hp
      have hs := h.pending_stored o' id' hp
      grind
    leased_stored := by
      intro l id' e' hl
      have hs := h.leased_stored l id' e'
      simp only [AList.lookup_insert_ite] at hl ⊢
      grind
    placed := by
      intro id' st' o' hst' ho' hne
      simp only [AList.lookup_insert_ite]
      by_cases hid : id' = id
      · subst hid
        exact Or.inr ⟨s.nextLeaseId, e, if_pos rfl⟩
      · obtain hp | hleased := h.placed id' st' o' hst' ho' (by simpa using hid)
        · exact Or.inl hp
        · obtain ⟨l, e', hl⟩ := hleased
          have hlt := (h.leased_stored l id' e' hl).2.1
          exact Or.inr ⟨l, e', by rw [if_neg hlt.ne, hl]⟩
    lease_unique := by
      intro l l' id' e₁ e₂ h₁ h₂
      have hu := h.lease_unique l l' id' e₁ e₂
      have hl := h.leased_stored l id' e₁
      have hl' := h.leased_stored l' id' e₂
      simp only [AList.lookup_insert_ite] at h₁ h₂
      grind }

theorem Placed.extend (h : Placed P none s) {l : LeaseId} {id : RequestId} {e : Instant}
    (hl : s.leases.lookup l = some (id, e)) (e' : Instant) :
    Placed P none { s with leases := s.leases.insert l (id, e') } := by
  exact { h with
    leased_stored := by
      intro l' id' e₁ h₁
      have hs := h.leased_stored l' id' e₁
      have hs' := h.leased_stored l id e hl
      simp only [AList.lookup_insert_ite] at h₁
      grind
    placed := by
      intro id' st o hst ho hne
      have hs := h.placed id' st o hst ho hne
      simp only [AList.lookup_insert_ite]
      grind
    lease_unique := by
      intro l₁ l₂ id' e₁ e₂ h₁ h₂
      have hu := h.lease_unique l₁ l₂ id'
      have hu₁ := h.lease_unique l l₁ id e
      have hu₂ := h.lease_unique l l₂ id e
      simp only [AList.lookup_insert_ite] at h₁ h₂
      grind }

def handledStored (s : QueueState) : ℕ := s.requests.values.countP fun st => st.orderNo.isNone

/-- Order numbers stay in an `i64`; after `n` calls at most `n` leases have been granted
and at most `n` requests handled. -/
structure Bounded (n : ℕ) (s : QueueState) : Prop where
  order : s.nextOrder ≤ i64Max
  forefront : i64Min ≤ s.nextForefrontOrder
  lease : s.nextLeaseId ≤ n
  handled : s.handledCount ≤ n
  handled_eq : s.handledCount = handledStored s

theorem Bounded.mono {n m : ℕ} (h : Bounded n s) (hnm : n ≤ m) : Bounded m s :=
  { h with lease := h.lease.trans hnm, handled := h.handled.trans hnm }

theorem bounded_empty : Bounded 0 QueueState.empty := by
  constructor <;> simp [QueueState.empty, i64Max, i64Min, handledStored, AList.values]

theorem Bounded.takeOrder {n : ℕ} (h : Bounded n s) {forefront : Bool} {o : ℤ}
    {s' : QueueState} (ht : s.takeOrder forefront = .ok (o, s')) : Bounded n s' := by
  simp only [QueueState.takeOrder] at ht
  split_ifs at ht with hf hb hb
  · simp only [Except.ok.injEq, Prod.mk.injEq] at ht
    obtain ⟨-, rfl⟩ := ht
    exact { h with forefront := hb }
  · simp only [Except.ok.injEq, Prod.mk.injEq] at ht
    obtain ⟨-, rfl⟩ := ht
    exact { h with order := hb }

theorem Bounded.store {n : ℕ} (h : Bounded n s) (r : Request) (o : ℤ)
    (hlive : ∀ st, s.requests.lookup r.id = some st → st.orderNo ≠ none) :
    Bounded n (store s r (some o)) := by
  have hc := AList.countP_values_insert s.requests r.id ⟨r, some o⟩ fun st => st.orderNo.isNone
  have hold : (s.requests.lookup r.id).toList.countP (fun st => st.orderNo.isNone) = 0 := by
    cases hst : s.requests.lookup r.id with
    | none => rfl
    | some st => simpa using hlive st hst
  rw [hold] at hc
  refine { h with handled_eq := h.handled_eq.trans ?_ }
  simpa [handledStored, FsQueue.store] using hc.symm

theorem Bounded.settle {n : ℕ} (h : Bounded n s) (r : Request) {st : StoredRequest} {o : ℤ}
    (hst : s.requests.lookup r.id = some st) (ho : st.orderNo = some o) (hn : n < u64Max) :
    Bounded (n + 1) (settle s r) := by
  have hle := h.handled
  have hmin : min (s.handledCount + 1) u64Max = s.handledCount + 1 := by omega
  have hc := AList.countP_values_insert s.requests r.id ⟨r, none⟩ fun st => st.orderNo.isNone
  simp only [hst, Option.toList_some, List.countP_singleton, ho] at hc
  refine ⟨h.order, h.forefront, Nat.le_succ_of_le h.lease, ?_, ?_⟩
  · simp only [FsQueue.settle, hmin]
    omega
  · simp only [FsQueue.settle, hmin, handledStored, FsQueue.store]
    have he := h.handled_eq
    simp only [handledStored] at he
    simpa [he] using hc.symm

theorem takeOrder_requests {forefront : Bool} {o : ℤ} {s' : QueueState}
    (ht : s.takeOrder forefront = .ok (o, s')) :
    s'.requests = s.requests ∧ s'.leases = s.leases ∧ s'.pending = s.pending ∧
      s'.dedup = s.dedup ∧ s'.handledCount = s.handledCount ∧ s'.nextLeaseId = s.nextLeaseId := by
  simp only [QueueState.takeOrder] at ht
  split_ifs at ht
  · simp only [Except.ok.injEq, Prod.mk.injEq] at ht
    obtain ⟨-, rfl⟩ := ht
    simp
  · simp only [Except.ok.injEq, Prod.mk.injEq] at ht
    obtain ⟨-, rfl⟩ := ht
    simp

def lastWrite (history : List (Request × Option ℤ)) (id : RequestId) :
    Option (Request × Option ℤ) :=
  history.find? fun w => w.1.id = id

/-- Each stored request is in the file of its identifier, as it was last written, no
other file has the name of a request file, and a request written as handled was not
written again. -/
structure Mirrors {β : Type*} (codec : Codec β) (requests : HashMap RequestId StoredRequest)
    (d : Disk β) : Prop where
  file : ∀ id, d.files.lookup (Layout.requestFileName id) =
    (requests.lookup id).map fun st => codec.encode st.request st.orderNo
  name : ∀ file, Layout.isRequestFile file = true → (d.files.lookup file).isSome →
    ∃ id, file = Layout.requestFileName id
  last : ∀ id, lastWrite d.history id =
    (requests.lookup id).map fun st => (st.request, st.orderNo)
  settled : ∀ r, (r, none) ∈ d.history → requests.lookup r.id = some ⟨r, none⟩

section Disk
variable {β : Type*} {codec : Codec β} {requests : HashMap RequestId StoredRequest} {d : Disk β}

theorem mirrors_empty : Mirrors codec ∅ (Disk.empty : Disk β) where
  file _ := rfl
  name _ _ h := by simp [Disk.empty] at h
  last _ := rfl
  settled _ h := by simp [Disk.empty] at h

theorem Mirrors.put (h : Mirrors codec requests d) (r : Request) (orderNo : Option ℤ)
    (hlive : ∀ st, requests.lookup r.id = some st → st.orderNo ≠ none) :
    Mirrors codec (requests.insert r.id { request := r, orderNo }) (d.put codec r orderNo) where
  file id := by
    simp only [Disk.put, AList.lookup_insert_ite]
    by_cases hid : id = r.id
    · rw [if_pos (congrArg _ hid), if_pos hid]
      rfl
    · have hne : Layout.requestFileName id ≠ Layout.requestFileName r.id := fun he =>
        hid (Layout.requestFileName_injective he)
      rw [if_neg hne, if_neg hid]
      exact h.file id
  name file hf hs := by
    simp only [Disk.put, AList.lookup_insert_ite] at hs
    split_ifs at hs with he
    · exact ⟨r.id, he⟩
    · exact h.name file hf hs
  last id := by
    simp only [Disk.put, lastWrite, List.find?_cons, AList.lookup_insert_ite]
    by_cases hid : id = r.id
    · simp [hid]
    · simp only [Ne.symm hid, decide_false, if_neg hid]
      exact h.last id
  settled q hq := by
    simp only [Disk.put, List.mem_cons, Prod.mk.injEq] at hq
    simp only [AList.lookup_insert_ite]
    obtain ⟨rfl, rfl⟩ | hq := hq
    · exact if_pos rfl
    · have hst := h.settled q hq
      have hne : q.id ≠ r.id := by
        intro he
        rw [he] at hst
        exact hlive _ hst rfl
      rw [if_neg hne, hst]

theorem Mirrors.leave (h : Mirrors codec requests d) (destination : String)
    (residue : Option (UInt64 × β)) : Mirrors codec requests (d.leave destination residue) := by
  cases residue with
  | none => exact h
  | some p =>
    obtain ⟨random, bytes⟩ := p
    have htemp := Layout.isRequestFile_temporaryName destination random
    have hne : ∀ file, Layout.isRequestFile file = true →
        file ≠ Layout.temporaryName destination random := by
      intro file hf he
      rw [he, htemp] at hf
      cases hf
    refine ⟨?_, ?_, h.last, h.settled⟩
    · intro id
      simp only [Disk.leave, AList.lookup_insert_ite]
      rw [if_neg (hne _ (Layout.isRequestFile_requestFileName id))]
      exact h.file id
    · intro file hf hs
      simp only [Disk.leave, AList.lookup_insert_ite] at hs
      rw [if_neg (hne _ hf)] at hs
      exact h.name file hf hs

end Disk

end Millipede.FsQueue
