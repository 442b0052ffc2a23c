import Millipede.Crawler.Enqueue

/-!
# The admission counter

The counter is raised to what the queue shows, so it may run ahead of the reservations;
it never falls behind them. A reservation is made under the lock, right after the counter
was found below the limit, and other calls can only lower the counter in the meantime.
-/

namespace Millipede.Enqueue

variable {policy : CrawlPolicy} {s t : State} {i : ℕ} {sender : Sender} {action : Action}
  {effect : Effect}

def reservations (drafts : List Draft) : ℕ := drafts.countP Draft.reserved

/-- The reservations of a call that are neither committed nor given back. -/
def Sender.outstanding (sender : Sender) : ℕ := reservations sender.unwound

def outstanding (s : State) : ℕ := Tasks.total Sender.outstanding s.senders

def Phase.isReserving : Phase → Bool
  | .reserving _ _ => true
  | _ => false

inductive Does (policy : CrawlPolicy) (s : State) (i : ℕ) (sender : Sender) : Effect → Prop
  | quietly (sender' : Sender) : sender'.outstanding = sender.outstanding →
      sender'.phase.admitting = sender.phase.admitting → sender'.phase.isReserving = false →
      Does policy s i sender ⟨s.counter, s.lock, s.committed, sender'⟩
  | locks (sender' : Sender) : sender'.outstanding = sender.outstanding → s.lock = none →
      sender'.phase.admitting = true → sender'.phase.isReserving = false →
      Does policy s i sender ⟨s.counter, some i, s.committed, sender'⟩
  | synchronizes (handled pending : ℕ) (sender' : Sender) :
      sender'.outstanding = sender.outstanding → sender.phase.admitting = true →
      sender'.phase.admitting = true →
      (sender'.phase.isReserving = true → ∀ limit, policy.maxRequestsPerCrawl = some limit →
        max s.counter (saturatingAdd handled pending) < limit) →
      Does policy s i sender
        ⟨max s.counter (saturatingAdd handled pending), s.lock, s.committed, sender'⟩
  | reserves (sender' : Sender) : sender.phase.isReserving = true →
      sender'.outstanding = sender.outstanding + 1 → sender'.phase.admitting = true →
      sender'.phase.isReserving = false →
      Does policy s i sender ⟨fetchAdd s.counter, s.lock, s.committed, sender'⟩
  | releases (sender' : Sender) : sender'.outstanding = sender.outstanding →
      sender.phase.admitting = true → sender'.phase.admitting = false →
      Does policy s i sender ⟨s.counter, none, s.committed, sender'⟩
  | commits (sender' : Sender) : sender'.outstanding + 1 = sender.outstanding →
      sender.phase.admitting = false → sender'.phase.admitting = false →
      Does policy s i sender ⟨s.counter, s.lock, s.committed + 1, sender'⟩
  | gives_back (sender' : Sender) : sender'.outstanding + 1 = sender.outstanding →
      sender.phase.admitting = false → sender'.phase.admitting = false →
      Does policy s i sender ⟨fetchSub s.counter, s.lock, s.committed, sender'⟩

theorem isReserving_of_not_admitting {phase : Phase} (h : phase.admitting = false) :
    phase.isReserving = false := by
  cases phase with
  | reserving => cases h
  | _ => rfl

@[simp] theorem reservations_cons (draft : Draft) (drafts : List Draft) :
    reservations (draft :: drafts) = reservations drafts + draft.reserved.toNat := by
  cases hr : draft.reserved <;> simp [reservations, hr]

@[simp] theorem reservations_append (drafts drafts' : List Draft) :
    reservations (drafts ++ drafts') = reservations drafts + reservations drafts' :=
  List.countP_append

@[simp] theorem reservations_nil : reservations [] = 0 := rfl

theorem Sender.outstanding_eq (sender : Sender) : sender.outstanding =
    reservations sender.drafts + match sender.phase with
      | .releasing _ _ .reserved => 1
      | .transforming _ _ reserved => reserved.toNat
      | _ => 0 := by
  obtain ⟨forefront, drafts, added, skipped, phase⟩ := sender
  cases phase with
  | releasing request rest admission =>
    cases admission <;> simp [Sender.outstanding, Sender.unwound]
  | transforming request rest reserved => simp [Sender.outstanding, Sender.unwound]
  | _ => rfl

theorem gives_back_does {sender' : Sender} {reserved : Bool}
    (h : sender'.outstanding + reserved.toNat = sender.outstanding)
    (hp : sender.phase.admitting = false) (hp' : sender'.phase.admitting = false) :
    Does policy s i sender ⟨giveBack reserved s.counter, s.lock, s.committed, sender'⟩ := by
  cases reserved with
  | true =>
    rw [giveBack, if_pos rfl]
    exact .gives_back sender' h hp hp'
  | false =>
    rw [giveBack, if_neg Bool.false_ne_true]
    exact .quietly sender' h (hp'.trans hp.symm) (isReserving_of_not_admitting hp')

theorem choose_does (rest : List Request) (hp : sender.phase = .choosing rest) :
    Does policy s i sender ⟨s.counter, s.lock, s.committed, choose policy sender rest⟩ := by
  cases rest with
  | nil =>
    apply Does.quietly <;> simp [choose, Sender.outstanding_eq, hp, Phase.admitting,
      Phase.isReserving]
  | cons request rest =>
    simp only [choose]
    split
    · apply Does.quietly <;> simp [Sender.skip, Sender.outstanding_eq, hp, Phase.admitting,
        Phase.isReserving]
    · split_ifs
      · apply Does.quietly <;> simp [Sender.outstanding_eq, hp, Phase.admitting, Phase.isReserving]
      · apply Does.quietly <;> simp [Sender.outstanding_eq, hp, Phase.admitting, Phase.isReserving]

theorem settle_does {info : ProcessedRequest} {processed : List ProcessedRequest}
    (hp : sender.phase = .settling (info :: processed)) :
    Does policy s i sender (settle s sender info processed) := by
  have hhead : reservations sender.drafts.tail + (sender.drafts.head?.any Draft.reserved).toNat =
      reservations sender.drafts := by
    cases hd : sender.drafts with
    | nil => rfl
    | cons draft drafts => simp
  have hadmitting : sender.phase.admitting = false := by
    rw [hp]
    rfl
  simp only [settle]
  split_ifs
  · apply gives_back_does
    · simpa [Sender.outstanding_eq, hp] using hhead
    · exact hadmitting
    · rfl
  · cases hr : sender.drafts.head?.any Draft.reserved with
    | true =>
      apply Does.commits
      · simpa [Sender.outstanding_eq, hp, hr] using hhead
      · exact hadmitting
      · rfl
    | false =>
      apply Does.quietly
      · simpa [Sender.outstanding_eq, hp, hr] using hhead
      · exact hadmitting.symm
      · rfl

theorem released_does {request : Request} {rest : List Request} {admission : Admission}
    (hp : sender.phase = .releasing request rest admission) :
    Does policy s i sender
      ⟨s.counter, none, s.committed, released policy sender request rest admission⟩ := by
  cases admission with
  | reserved =>
    apply Does.releases <;> simp [released, Sender.outstanding_eq, hp, Phase.admitting]
  | untracked =>
    apply Does.releases <;> simp [released, Sender.outstanding_eq, hp, Phase.admitting]
  | rejected =>
    apply Does.releases <;>
      simp [released, Sender.skip, Sender.outstanding_eq, hp, Phase.admitting]

theorem giveUp_does :
    Does policy s i sender ⟨s.counter, if sender.phase.admitting then none else s.lock,
      s.committed, { sender with drafts := sender.unwound, phase := .dropping }⟩ := by
  have hsame : ({ sender with drafts := sender.unwound, phase := .dropping } :
      Sender).outstanding = sender.outstanding := rfl
  split_ifs with hadmitting
  · exact .releases _ hsame hadmitting rfl
  · exact .quietly _ hsame (Bool.eq_false_of_not_eq_true hadmitting).symm rfl

/-- The one place where the cases of a step are gone through. -/
theorem act_does (h : act policy s i sender action = some effect) :
    Does policy s i sender effect := by
  cases action with
  | choose =>
    simp only [act] at h
    split at h
    · cases h
      exact choose_does _ ‹_›
    · cases h
  | lock =>
    simp only [act] at h
    split at h
    · cases h
      apply Does.locks <;> simp_all [Sender.outstanding_eq, Phase.admitting, Phase.isReserving]
    · cases h
  | handledCount reply =>
    simp only [act] at h
    split at h
    · cases h
      cases reply <;> apply Does.quietly <;>
        simp_all [Sender.outstanding_eq, Phase.admitting, Phase.isReserving]
    · cases h
  | pendingCount reply =>
    simp only [act] at h
    split at h
    · cases h
      cases reply <;> apply Does.quietly <;>
        simp_all [Sender.outstanding_eq, Phase.admitting, Phase.isReserving]
    · cases h
  | synchronize =>
    simp only [act] at h
    split at h
    · rename_i request rest handled pending hp
      cases h
      apply Does.synchronizes
      · split_ifs <;> simp [Sender.outstanding_eq, hp]
      · rw [hp]
        rfl
      · split_ifs <;> rfl
      · intro hreserving limit hlimit
        split_ifs at hreserving with hfull
        · cases hreserving
        · simpa [hlimit] using hfull
    · cases h
  | reserve =>
    simp only [act] at h
    split at h
    · cases h
      apply Does.reserves <;> simp_all [Sender.outstanding_eq, Phase.admitting, Phase.isReserving]
    · cases h
  | release =>
    simp only [act] at h
    split at h
    · cases h
      exact released_does ‹_›
    · cases h
  | transform result request =>
    simp only [act] at h
    split at h
    · rename_i candidate rest reserved hp
      cases result with
      | enqueue =>
        cases h
        apply Does.quietly <;> simp [Sender.outstanding_eq, hp, Phase.admitting, Phase.isReserving]
      | skip reason =>
        cases h
        apply gives_back_does
        · simp [Sender.outstanding_eq, Sender.skip, hp]
        · rw [hp]
          rfl
        · rfl
    · cases h
  | addBatch reply =>
    simp only [act] at h
    split at h
    · cases h
      cases reply <;> apply Does.quietly <;>
        simp_all [Sender.outstanding_eq, Phase.admitting, Phase.isReserving]
    · cases h
  | wait =>
    simp only [act] at h
    split at h
    · cases h
      apply Does.quietly <;> simp_all [Sender.outstanding_eq, Phase.admitting, Phase.isReserving]
    · cases h
  | settle =>
    simp only [act] at h
    split at h
    · cases h
      apply Does.quietly <;> simp_all [Sender.outstanding_eq, Phase.admitting, Phase.isReserving]
    · cases h
      exact settle_does ‹_›
    · cases h
  | drop =>
    simp only [act] at h
    split at h
    · cases h
      apply Does.quietly <;> simp_all [Sender.outstanding_eq, Phase.admitting, Phase.isReserving]
    · rename_i draft drafts hp hd
      cases h
      apply gives_back_does
      · simp [Sender.outstanding_eq, hp, hd]
      · rw [hp]
        rfl
      · simp only [hp]
        rfl
    · cases h
  | giveUp =>
    simp only [act] at h
    by_cases hp : sender.phase.fallible = true
    · rw [if_pos hp] at h
      cases h
      exact giveUp_does
    · rw [if_neg hp] at h
      cases h

theorem fetchAdd_eq {counter : ℕ} (h : counter + 1 < u64) : fetchAdd counter = counter + 1 :=
  Nat.mod_eq_of_lt h

theorem fetchSub_eq {counter : ℕ} (hpos : 1 ≤ counter) (h : counter < u64) :
    fetchSub counter = counter - 1 := by
  unfold fetchSub u64 at *
  omega

theorem saturatingAdd_lt (a b : ℕ) : saturatingAdd a b < u64 := by
  have hle : saturatingAdd a b ≤ u64 - 1 := min_le_right _ _
  unfold u64 at *
  omega

/-- The counter covers every reservation, and the lock is held inside `reserve_request_slot`
only. -/
structure Balanced (limit : ℕ) (s : State) : Prop where
  counter_lt : s.counter < u64
  covered : outstanding s + s.committed ≤ s.counter
  locked : ∀ (i : ℕ) sender, s.senders[i]? = some sender →
    (sender.phase.admitting = true ↔ s.lock = some i)
  holder : ∀ i, s.lock = some i → ∃ sender, s.senders[i]? = some sender
  bounded : outstanding s + s.committed ≤ limit
  reserving : ∀ (i : ℕ) sender, s.senders[i]? = some sender → sender.phase.isReserving = true →
    s.counter < limit

theorem admitting_of_isReserving {phase : Phase} (h : phase.isReserving = true) :
    phase.admitting = true := by
  cases phase with
  | reserving => rfl
  | _ => cases h

theorem Balanced.update {limit : ℕ} (h : Balanced limit s) (hi : s.senders[i]? = some sender)
    {counter : ℕ} {lock : Option ℕ} {committed : ℕ} {sender' : Sender}
    (hcounter : counter < u64)
    (hcovered : sender'.outstanding + committed + s.counter ≤
      counter + sender.outstanding + s.committed)
    (hbounded : outstanding s + sender'.outstanding + committed ≤ limit + sender.outstanding)
    (hown : sender'.phase.admitting = true ↔ lock = some i)
    (hothers : ∀ j, j ≠ i → (lock = some j ↔ s.lock = some j))
    (hreserving : sender'.phase.isReserving = true → counter < limit)
    (hkept : ∀ j, j ≠ i → s.lock = some j → s.counter < limit → counter < limit) :
    Balanced limit
      { counter, lock, committed, senders := s.senders.set i sender' } := by
  have htotal := Tasks.total_set (f := Sender.outstanding) hi sender'
  have hcov := h.covered
  simp only [outstanding] at hcov hbounded
  have hget := Tasks.getElem?_set hi sender'
  constructor
  · exact hcounter
  · simp only [outstanding]
    omega
  · intro j other hj
    simp only [hget] at hj
    split_ifs at hj with hji
    · cases hj
      rw [hji]
      exact hown
    · rw [h.locked j other hj]
      exact (hothers j hji).symm
  · intro j hj
    simp only [hget]
    split_ifs with hji
    · exact ⟨sender', rfl⟩
    · exact h.holder j ((hothers j hji).mp hj)
  · simp only [outstanding]
    omega
  · intro j other hj hr
    simp only [hget] at hj
    split_ifs at hj with hji
    · cases hj
      exact hreserving hr
    · have hlock := (h.locked j other hj).mp (admitting_of_isReserving hr)
      exact hkept j hji hlock (h.reserving j other hj hr)

theorem Balanced.does {limit : ℕ} (h : Balanced limit s) (hl : limit < u64)
    (hlimit : policy.maxRequestsPerCrawl = some limit) (hi : s.senders[i]? = some sender)
    (hd : Does policy s i sender effect) : Balanced limit (s.after i effect) := by
  have hlt := h.counter_lt
  have hcov := h.covered
  have hbound := h.bounded
  have hle : sender.outstanding ≤ outstanding s := Tasks.le_total hi
  have hlock := h.locked i sender hi
  cases hd with
  | quietly sender' hout hadm hres =>
    dsimp only [State.after]
    refine h.update hi hlt (by omega) (by omega) (by rw [hadm, hlock]) (fun _ _ => Iff.rfl) ?_
      (fun _ _ _ hc => hc)
    rw [hres]
    exact fun hr => nomatch hr
  | locks sender' hout hfree hadm hres =>
    dsimp only [State.after]
    refine h.update hi hlt (by omega) (by omega) (by simp [hadm]) ?_ ?_ (fun _ _ _ hc => hc)
    · intro j hj
      rw [hfree]
      simpa using Ne.symm hj
    · rw [hres]
      exact fun hr => nomatch hr
  | synchronizes handled pending sender' hout hadm hadm' hfull =>
    dsimp only [State.after]
    have hmine := hlock.mp hadm
    have hobserved := saturatingAdd_lt handled pending
    refine h.update hi (max_lt hlt hobserved) ?_ (by omega) (by simp [hadm', hmine])
      (fun _ _ => Iff.rfl) (fun hr => hfull hr limit hlimit) ?_
    · have := le_max_left s.counter (saturatingAdd handled pending)
      omega
    · intro j hj hother
      rw [hmine] at hother
      cases hother
      exact absurd rfl hj
  | reserves sender' hres hout hadm' hres' =>
    dsimp only [State.after]
    have hmine := hlock.mp (admitting_of_isReserving hres)
    have hroom := h.reserving i sender hi hres
    have hadd : fetchAdd s.counter = s.counter + 1 := fetchAdd_eq (by omega)
    refine h.update hi (by rw [hadd]; omega) (by rw [hadd]; omega) (by omega)
      (by simp [hadm', hmine]) (fun _ _ => Iff.rfl) ?_ ?_
    · rw [hres']
      exact fun hr => nomatch hr
    · intro j hj hother
      rw [hmine] at hother
      cases hother
      exact absurd rfl hj
  | releases sender' hout hadm hadm' =>
    dsimp only [State.after]
    have hmine := hlock.mp hadm
    refine h.update hi hlt (by omega) (by omega) (by simp [hadm']) ?_ ?_ (fun _ _ _ hc => hc)
    · intro j hj
      rw [hmine]
      simpa using Ne.symm hj
    · rw [isReserving_of_not_admitting hadm']
      exact fun hr => nomatch hr
  | commits sender' hout hadm hadm' =>
    dsimp only [State.after]
    refine h.update hi hlt (by omega) (by omega) (by rw [hadm', ← hlock, hadm])
      (fun _ _ => Iff.rfl) ?_ (fun _ _ _ hc => hc)
    rw [isReserving_of_not_admitting hadm']
    exact fun hr => nomatch hr
  | gives_back sender' hout hadm hadm' =>
    dsimp only [State.after]
    have hsub : fetchSub s.counter = s.counter - 1 := fetchSub_eq (by omega) hlt
    refine h.update hi (by rw [hsub]; omega) (by rw [hsub]; omega) (by omega)
      (by rw [hadm', ← hlock, hadm]) (fun _ _ => Iff.rfl) ?_ ?_
    · rw [isReserving_of_not_admitting hadm']
      exact fun hr => nomatch hr
    · intro j _ _ hc
      rw [hsub]
      omega

theorem balanced_start (limit : ℕ) : Balanced limit start where
  counter_lt := by decide
  covered := le_rfl
  locked := fun _ _ hi => nomatch hi
  holder := fun _ hi => nomatch hi
  bounded := Nat.zero_le _
  reserving := fun _ _ hi => nomatch hi

theorem Balanced.step {limit : ℕ} {e : Event} (h : Balanced limit s) (hl : limit < u64)
    (hlimit : policy.maxRequestsPerCrawl = some limit) (hs : step policy s e = some t) :
    Balanced limit t := by
  cases e with
  | send candidates forefront =>
    cases hs
    have hsame : outstanding { s with senders := s.senders ++
        [{ forefront, drafts := [], added := [], skipped := [], phase := .choosing candidates }] } =
        outstanding s := by
      simp [outstanding, Sender.outstanding_eq]
    have hold : ∀ (j : ℕ) (other : Sender), (s.senders ++
        [{ forefront, drafts := [], added := [], skipped := [],
           phase := .choosing candidates }])[j]? = some other →
        s.senders[j]? = some other ∨ s.senders.length ≤ j ∧ other.phase = .choosing candidates := by
      intro j other hj
      rw [List.getElem?_append] at hj
      split_ifs at hj with hlt
      · exact .inl hj
      · refine .inr ⟨Nat.le_of_not_lt hlt, ?_⟩
        rw [List.mem_singleton.mp (List.mem_of_getElem? hj)]
    refine ⟨h.counter_lt, hsame ▸ h.covered, ?_, ?_, hsame ▸ h.bounded, ?_⟩
    · intro j other hj
      obtain hj | ⟨hlen, hp⟩ := hold j other hj
      · exact h.locked j other hj
      · rw [hp]
        constructor
        · intro hadm
          cases hadm
        · intro hlock
          obtain ⟨sender, hj⟩ := h.holder j hlock
          exact absurd (List.getElem?_eq_some_iff.mp hj).1 (Nat.not_lt.mpr hlen)
    · intro j hj
      obtain ⟨sender, hsender⟩ := h.holder j hj
      exact ⟨sender, List.getElem?_append_left (List.getElem?_eq_some_iff.mp hsender).1 ▸ hsender⟩
    · intro j other hj hr
      obtain hj | ⟨-, hp⟩ := hold j other hj
      · exact h.reserving j other hj hr
      · rw [hp] at hr
        cases hr
  | act i action =>
    simp only [Enqueue.step] at hs
    cases hi : s.senders[i]? with
    | none =>
      rw [hi] at hs
      cases hs
    | some sender =>
      simp only [hi] at hs
      obtain ⟨effect, heffect, rfl⟩ := Option.map_eq_some_iff.mp hs
      exact h.does hl hlimit hi (act_does heffect)

/-- In every interleaving of calls the counter covers the outstanding and the committed
reservations, so giving one back does not wrap; no more than the limit are ever committed; and
whoever holds the lock is inside `reserve_request_slot`, not in its transform. -/
theorem admission_counter {limit : ℕ} (hl : limit < u64)
    (hlimit : policy.maxRequestsPerCrawl = some limit) {es : List Event}
    (run : Machine.Run (Machine.Computes (step policy)) start es t) :
    outstanding t + t.committed ≤ t.counter ∧ t.counter < u64 ∧
      (0 < outstanding t → fetchSub t.counter + 1 = t.counter) ∧
      t.committed ≤ limit ∧
      (∀ i, t.lock = some i →
        ∃ sender, t.senders[i]? = some sender ∧ sender.phase.admitting = true) ∧
      ∀ (i : ℕ) sender request rest reserved, t.senders[i]? = some sender →
        sender.phase = .transforming request rest reserved → t.lock ≠ some i := by
  have h : Balanced limit t :=
    Machine.run_invariant (fun _ _ _ h hs => h.step hl hlimit hs) run (balanced_start limit)
  have hcov := h.covered
  refine ⟨hcov, h.counter_lt, ?_, ?_, ?_, ?_⟩
  · intro hpos
    rw [fetchSub_eq (by omega) h.counter_lt]
    omega
  · have hbound := h.bounded
    omega
  · intro i hi
    obtain ⟨sender, hsender⟩ := h.holder i hi
    exact ⟨sender, hsender, (h.locked i sender hsender).mpr hi⟩
  · intro i sender request rest reserved hi hp hlock
    have hadm := (h.locked i sender hi).mpr hlock
    rw [hp] at hadm
    cases hadm

-- Two calls that compete for one place.
def onePlace : CrawlPolicy := { maxCrawlDepth := none, maxRequestsPerCrawl := some 1 }

def link (key : String) : Request := .get ⟨key, none⟩ key

def admits (i handled pending : ℕ) : List Event :=
  [.act i .choose, .act i .lock, .act i (.handledCount (.ok handled)),
   .act i (.pendingCount (.ok pending)), .act i .synchronize]

def competingCalls : List Event :=
  [.send [link "a"] false, .send [link "b"] false] ++ admits 0 0 0 ++
    [.act 0 .reserve, .act 0 .release] ++ admits 1 0 0 ++ [.act 1 .release]

theorem admission_counter_competingCalls :
    ∃ t, Machine.Run (Machine.Computes (step onePlace)) start competingCalls t ∧
      outstanding t = 1 ∧ t.counter = 1 ∧ fetchSub t.counter + 1 = t.counter := by
  have hrun : (competingCalls.foldlM (step onePlace) start).map
      (fun t => (outstanding t, t.counter)) = some (1, 1) := by decide +kernel
  obtain ⟨t, ht, hcounts⟩ := Option.map_eq_some_iff.mp hrun
  obtain ⟨hout, hcounter⟩ := Prod.mk.inj hcounts
  have hr := Machine.run_of_foldlM ht
  refine ⟨t, hr, hout, hcounter, ?_⟩
  exact (admission_counter (by decide) rfl hr).2.2.1 (by rw [hout]; decide)

end Millipede.Enqueue
