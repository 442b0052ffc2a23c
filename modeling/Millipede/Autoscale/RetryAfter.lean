import Millipede.Autoscale.HostSlots

/-!
# Retry-After

A response may ask for a pause of its host. Later responses compute the host's next slot
anew from the last reserved one, and so they can bring it forward again; here is when they
do.
-/

namespace Millipede.DomainLimiter

/-- The instant that a call of the host asks its next requests to wait for. -/
def Call.raisePromise (host : String) (promise : Instant) : Call → Instant
  | .noteResponse host' _ (some retryAfter) now =>
    if host' = host then max promise (now + retryAfter) else promise
  | _ => promise

def promised (host : String) (calls : List Call) : Instant :=
  calls.foldl (Call.raisePromise host) 0

def times (calls : List Call) : List Instant := calls.filterMap Call.time

def latest (calls : List Call) : Instant := (times calls).foldl max 0

def Honoured (delay : Duration) (calls : List Call) : Prop :=
  ∀ host now, (∀ t ∈ times calls, t ≤ now) → promised host calls ≤ slotAt delay calls host now

def backoff (delay : Duration) (state : DomainState) : Duration :=
  let consecutive429s := min (state.consecutive429s + 1) (2 ^ 32 - 1)
  min (max delay (Duration.fromSecs 1) * 2 ^ min (consecutive429s - 1) 31) maxPenalty

/-- A response with a status does not bring the next slot before the promised instant: the
instant has come, or the response asks for at least as long a pause itself, or the host's
last slot is so late that the next one is behind the instant anyway. -/
def Keeps (delay : Duration) (state : DomainState) (promise : Instant) : Call → Prop
  | .noteResponse _ (some status) retryAfter now =>
    promise ≤ now ∨ (∃ pause ∈ retryAfter, promise ≤ now + pause) ∨
      if status = tooManyRequests then ∀ last ∈ state.lastReserved,
        promise ≤ max (last + max delay state.floor) now + backoff delay state
      else ∃ last ∈ state.lastReserved, promise ≤ last + max delay state.floor
  | _ => True

def Reaches (promise latest : Instant) (state : DomainState) : Prop :=
  promise ≤ max (state.nextAllowed.getD 0) latest

variable {delay : Duration} {state : DomainState} {calls : List Call} {host : String}
  {promise now : Instant}

theorem raiseNextAllowed_nextAllowed (state : DomainState) (candidate : Instant) :
    (raiseNextAllowed state candidate).nextAllowed =
      some (max (state.nextAllowed.getD 0) candidate) := by
  simp only [raiseNextAllowed]
  cases state.nextAllowed with
  | none => simp
  | some next => rfl

theorem noteStatus_none (delay : Duration) (state : DomainState) (now : Instant) :
    noteStatus delay state none now = state := rfl

theorem noteStatus_tooMany (delay : Duration) (state : DomainState) (now : Instant) :
    (noteStatus delay state (some tooManyRequests) now).nextAllowed =
      some (max (match state.lastReserved with
        | some last => last + max delay state.floor
        | none => state.nextAllowed.getD now) now + backoff delay state) := rfl

theorem noteStatus_other {status : StatusCode} (h : status ≠ tooManyRequests) (delay : Duration)
    (state : DomainState) (now : Instant) :
    (noteStatus delay state (some status) now).nextAllowed =
      state.lastReserved.map fun last => last + max delay state.floor := by
  simp [noteStatus, h]

theorem reaches_noteStatus {status : StatusCode} {last : Instant} (h : Reaches promise last state)
    (hnow : last ≤ now) (hahead : now < promise) :
    promise ≤ (noteStatus delay state (some status) now).nextAllowed.getD 0 ↔
      if status = tooManyRequests then ∀ last ∈ state.lastReserved,
        promise ≤ max (last + max delay state.floor) now + backoff delay state
      else ∃ last ∈ state.lastReserved, promise ≤ last + max delay state.floor := by
  simp only [Reaches] at h
  by_cases hstatus : status = tooManyRequests
  · rw [hstatus, if_pos rfl, noteStatus_tooMany]
    cases state.lastReserved with
    | some last => simp
    | none =>
      cases hnext : state.nextAllowed with
      | none =>
        simp only [hnext, Option.getD_none] at h
        grind
      | some next =>
        simp only [hnext, Option.getD_some] at h
        simp
        grind
  · rw [if_neg hstatus, noteStatus_other hstatus]
    cases state.lastReserved with
    | some last => simp
    | none =>
      simp
      grind

theorem reaches_update {last : Instant} (h : Reaches promise last state) (c : Call)
    (hnow : ∀ t ∈ c.time, last ≤ t) :
    Reaches (c.raisePromise c.host promise) (max last (c.time.getD 0)) (c.update delay state) ↔
      Keeps delay state promise c := by
  cases c with
  | reserveSlot host now =>
    have hle : last ≤ now := hnow now rfl
    simp only [Reaches, Call.raisePromise, Call.update, Option.getD_some, Call.time, Keeps,
      iff_true] at h ⊢
    cases hnext : state.nextAllowed with
    | none =>
      simp only [hnext, Option.getD_none] at h ⊢
      grind
    | some next =>
      simp only [hnext, Option.getD_some] at h ⊢
      grind
  | noteResponse host status retryAfter now =>
    have hle : last ≤ now := hnow now rfl
    have hmax : max last now = now := max_eq_right hle
    -- apart from the status, a pause only raises both sides
    have hpause :
        Reaches (Call.raisePromise host promise (.noteResponse host status retryAfter now)) now
          (Call.update delay state (.noteResponse host status retryAfter now)) ↔
        promise ≤ now ∨ (∃ pause ∈ retryAfter, promise ≤ now + pause) ∨
          promise ≤ (noteStatus delay state status now).nextAllowed.getD 0 := by
      cases retryAfter with
      | none =>
        simp only [Reaches, Call.raisePromise, Call.update, le_max_iff, Option.mem_def,
          reduceCtorEq, false_and, exists_false, false_or]
        exact or_comm
      | some pause =>
        simp only [Reaches, Call.raisePromise, Call.update, if_true, raiseNextAllowed_nextAllowed,
          Option.getD_some, Option.mem_def, Option.some.injEq, exists_eq_left']
        grind
    simp only [Call.host, Call.time, Option.getD_some, hmax]
    rw [hpause]
    cases status with
    | none =>
      simp only [Reaches, noteStatus_none] at h ⊢
      simp only [Keeps, iff_true]
      grind
    | some status =>
      simp only [Keeps]
      by_cases hahead : promise ≤ now
      · simp [hahead]
      · rw [reaches_noteStatus h hle (not_le.mp hahead)]
  | setDelayFloor host floor =>
    simp only [Reaches, Call.raisePromise, Call.update, Call.time, Option.getD_none, Keeps,
      iff_true] at h ⊢
    split
    · rw [raiseNextAllowed_nextAllowed, Option.getD_some]
      grind
    · simpa using h

theorem promised_snoc (host : String) (calls : List Call) (c : Call) :
    promised host (calls ++ [c]) = c.raisePromise host (promised host calls) := by
  rw [promised, List.foldl_append]
  rfl

theorem raisePromise_other (promise : Instant) {c : Call} (h : c.host ≠ host) :
    c.raisePromise host promise = promise := by
  cases c with
  | reserveSlot host' now => rfl
  | noteResponse host' status retryAfter now =>
    cases retryAfter with
    | none => rfl
    | some retryAfter => exact if_neg h
  | setDelayFloor host' floor => rfl

theorem latest_snoc (calls : List Call) (c : Call) :
    latest (calls ++ [c]) = max (latest calls) (c.time.getD 0) := by
  simp only [latest, times, List.filterMap_append, List.foldl_append]
  cases hc : c.time <;> simp [hc]

theorem le_latest {t : Instant} (h : t ∈ times calls) : t ≤ latest calls := by
  induction calls using List.reverseRecOn with
  | nil => cases h
  | append_singleton calls c ih =>
    rw [latest_snoc]
    simp only [times, List.filterMap_append, List.mem_append] at h
    rcases h with h | h
    · exact (ih h).trans (le_max_left _ _)
    · have hc : c.time = some t := by simpa using h
      rw [hc]
      exact le_max_right _ _

theorem latest_le (h : ∀ t ∈ times calls, t ≤ now) : latest calls ≤ now := by
  induction calls using List.reverseRecOn with
  | nil => exact Nat.zero_le _
  | append_singleton calls c ih =>
    simp only [times, List.filterMap_append, List.mem_append] at h
    rw [latest_snoc]
    refine max_le (ih fun t ht => h t (.inl ht)) ?_
    cases hc : c.time with
    | none => exact Nat.zero_le _
    | some t => exact h t (.inr (by simp [hc]))

theorem honoured_iff (delay : Duration) (calls : List Call) : Honoured delay calls ↔
    ∀ host, Reaches (promised host calls) (latest calls) ((after delay calls).entry host) := by
  refine forall_congr' fun host => ?_
  simp only [slotAt_eq, Reaches]
  constructor
  · intro h
    have hlast := h (latest calls) fun t ht => le_latest ht
    cases hnext : ((after delay calls).entry host).nextAllowed with
    | none =>
      simp only [hnext, Option.getD_none] at hlast ⊢
      grind
    | some next => simpa [hnext] using hlast
  · intro h now hnow
    have hle := latest_le hnow
    cases hnext : ((after delay calls).entry host).nextAllowed with
    | none =>
      simp only [hnext, Option.getD_none] at h ⊢
      grind
    | some next =>
      simp only [hnext, Option.getD_some] at h ⊢
      grind

theorem honoured_snoc {c : Call} (h : Honoured delay calls)
    (hnow : ∀ t ∈ c.time, latest calls ≤ t) :
    Honoured delay (calls ++ [c]) ↔
      Keeps delay ((after delay calls).entry c.host) (promised c.host calls) c := by
  rw [honoured_iff] at h ⊢
  rw [← reaches_update (h c.host) c hnow]
  simp only [promised_snoc, latest_snoc, after_snoc, entry_call]
  constructor
  · intro hall
    simpa using hall c.host
  · intro hone host
    by_cases heq : host = c.host
    · subst heq
      simpa using hone
    · rw [if_neg heq, raisePromise_other _ (Ne.symm heq)]
      exact (h host).trans (max_le_max le_rfl (le_max_left _ _))

/-- The slots of a run honour every `Retry-After`, at each of its points and for any
reservation that may come next, exactly if each of its calls keeps what was promised before
it. -/
theorem retry_after_honoured_iff (delay : Duration) {calls : List Call}
    (htimes : (times calls).Pairwise (· ≤ ·)) :
    (∀ before, before <+: calls → Honoured delay before) ↔
      ∀ before c, before ++ [c] <+: calls →
        Keeps delay ((after delay before).entry c.host) (promised c.host before) c := by
  have hordered : ∀ before c, before ++ [c] <+: calls → ∀ t ∈ c.time, latest before ≤ t := by
    intro before c hpre t ht
    obtain ⟨rest, rfl⟩ := hpre
    refine latest_le fun t' ht' => ?_
    simp only [times, List.filterMap_append, List.pairwise_append, List.mem_append] at htimes
    exact htimes.1.2.2 t' ht' t (by simpa using ht)
  constructor
  · intro h before c hpre
    have hbefore := h before ((List.prefix_append before [c]).trans hpre)
    exact (honoured_snoc hbefore (hordered before c hpre)).mp (h _ hpre)
  · intro h before
    induction before using List.reverseRecOn with
    | nil =>
      intro _ host now _
      exact Nat.zero_le _
    | append_singleton before c ih =>
      intro hpre
      have hbefore := ih ((List.prefix_append before [c]).trans hpre)
      exact (honoured_snoc hbefore (hordered before c hpre)).mpr (h before c hpre)

def patient : List Call :=
  [.reserveSlot "a.example" 0, .reserveSlot "a.example" 0,
   .noteResponse "a.example" (some 429) (some (Duration.fromSecs 10)) (Duration.fromSecs 1),
   .noteResponse "a.example" (some 200) none (Duration.fromSecs 11)]

theorem retry_after_honoured_patient : Honoured (Duration.fromSecs 1) patient := by
  refine (retry_after_honoured_iff (Duration.fromSecs 1) (by decide)).mpr ?_ patient
    (List.prefix_refl _)
  intro before c hpre
  rcases before with _ | ⟨c₁, _ | ⟨c₂, _ | ⟨c₃, _ | ⟨c₄, before⟩⟩⟩⟩ <;>
    simp only [patient, List.nil_append, List.cons_append, List.cons_prefix_cons,
      List.nil_prefix, List.prefix_nil, List.append_eq_nil_iff, reduceCtorEq, and_false,
      and_true] at hpre
  · subst hpre
    trivial
  · obtain ⟨rfl, rfl⟩ := hpre
    trivial
  · obtain ⟨rfl, rfl, rfl⟩ := hpre
    exact .inl (by decide)
  · obtain ⟨rfl, rfl, rfl, rfl⟩ := hpre
    exact .inl (by decide)

def hasty : List Call :=
  [.reserveSlot "a.example" 0, .reserveSlot "a.example" 0,
   .noteResponse "a.example" (some 429) (some (Duration.fromSecs 10)) (Duration.fromSecs 1),
   .noteResponse "a.example" (some 200) none (Duration.fromSecs 1)]

/-- Ten seconds from the first second on were asked for, and the next slot is in the second
one. -/
theorem slot_before_retry_after : (times hasty).Pairwise (· ≤ ·) ∧
    .noteResponse "a.example" (some 429) (some (Duration.fromSecs 10)) (Duration.fromSecs 1) ∈
      hasty ∧
    slotAt (Duration.fromSecs 1) hasty "a.example" (Duration.fromSecs 1) = Duration.fromSecs 2 ∧
    Duration.fromSecs 2 < Duration.fromSecs 1 + Duration.fromSecs 10 := by
  decide +kernel

end Millipede.DomainLimiter
