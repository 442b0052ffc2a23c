import Millipede.Autoscale
import Millipede.Library.Machine

/-!
# The slots of the hosts

The calls of a `DomainLimiter` in any order, for any hosts and at any times. A host's next
slot stays behind its last one by the delay and the floor that are in force, whatever the
responses in between; no call looks at or changes another host than its own.
-/

namespace Millipede.DomainLimiter

inductive Call where
  | reserveSlot (host : String) (now : Instant)
  | noteResponse (host : String) (status : Option StatusCode) (retryAfter : Option Duration)
      (now : Instant)
  | setDelayFloor (host : String) (floor : Duration)
  deriving DecidableEq, Repr

namespace Call

def host : Call → String
  | .reserveSlot host _ => host
  | .noteResponse host _ _ _ => host
  | .setDelayFloor host _ => host

/-- When a call is made; setting a floor does not look at the clock. -/
def time : Call → Option Instant
  | .reserveSlot _ now => some now
  | .noteResponse _ _ _ now => some now
  | .setDelayFloor _ _ => none

end Call

def call (delay : Duration) (limiter : DomainLimiter) : Call → DomainLimiter
  | .reserveSlot host now => (reserveSlot delay limiter host now).2
  | .noteResponse host status retryAfter now =>
    noteResponse delay limiter host status retryAfter now
  | .setDelayFloor host floor => setDelayFloor delay limiter host floor

def after (delay : Duration) (calls : List Call) : DomainLimiter := calls.foldl (call delay) ∅

def slotAt (delay : Duration) (calls : List Call) (host : String) (now : Instant) : Instant :=
  now + (reserveSlot delay (after delay calls) host now).1

def floorOf (host : String) (calls : List Call) : Duration :=
  calls.foldl (fun floor c => match c with
    | .setDelayFloor host' floor' => if host' = host then floor' else floor
    | _ => floor) 0

def maxPenalty : Duration := Duration.fromSecs (5 * 60)

def Call.update (delay : Duration) (state : DomainState) : Call → DomainState
  | .reserveSlot _ now =>
    let slot := max (state.nextAllowed.getD now) now
    { state with
      nextAllowed := some (slot + (max delay state.floor + state.penalty))
      lastReserved := some slot }
  | .noteResponse _ status retryAfter now =>
    match retryAfter with
    | some retryAfter => raiseNextAllowed (noteStatus delay state status now) (now + retryAfter)
    | none => noteStatus delay state status now
  | .setDelayFloor _ floor =>
    match state.lastReserved with
    | some last => raiseNextAllowed { state with floor } (last + (max delay floor + state.penalty))
    | none => { state with floor }

variable {delay : Duration} {state : DomainState} {calls : List Call} {host : String}

theorem call_eq (delay : Duration) (limiter : DomainLimiter) (c : Call) :
    call delay limiter c = limiter.insert c.host (c.update delay (limiter.entry c.host)) := by
  cases c with
  | reserveSlot host now => rfl
  | noteResponse host status retryAfter now => rfl
  | setDelayFloor host floor => rfl

theorem entry_call (delay : Duration) (limiter : DomainLimiter) (c : Call) (host : String) :
    (call delay limiter c).entry host =
      if host = c.host then c.update delay (limiter.entry host) else limiter.entry host := by
  rw [call_eq, entry_insert]
  split_ifs with h
  · rw [h]
  · rfl

theorem after_snoc (delay : Duration) (calls : List Call) (c : Call) :
    after delay (calls ++ [c]) = call delay (after delay calls) c := by
  rw [after, List.foldl_append]
  rfl

theorem slotAt_eq (delay : Duration) (calls : List Call) (host : String) (now : Instant) :
    slotAt delay calls host now =
      max (((after delay calls).entry host).nextAllowed.getD now) now := by
  have hle : now ≤ (after delay calls).nextSlot host now := le_max_right _ _
  exact Nat.add_sub_cancel' hle

structure Kept (delay : Duration) (state : DomainState) : Prop where
  spaced : Spaced (max delay state.floor) state
  capped : state.penalty ≤ maxPenalty

theorem kept_default (delay : Duration) : Kept delay {} where
  spaced _ h := nomatch h
  capped := Nat.zero_le _

theorem Kept.raise (h : Kept delay state) (candidate : Instant) :
    Kept delay (raiseNextAllowed state candidate) where
  spaced := h.spaced.raise candidate
  capped := h.capped

theorem Kept.noteStatus (h : Kept delay state) (status : Option StatusCode) (now : Instant) :
    Kept delay (noteStatus delay state status now) := by
  simp only [DomainLimiter.noteStatus]
  split_ifs
  · refine ⟨?_, min_le_right _ _⟩
    intro last hlast
    simp only at hlast
    refine ⟨_, rfl, ?_⟩
    simp only [hlast]
    exact (le_max_left _ _).trans (Nat.le_add_right _ _)
  · refine ⟨?_, Nat.zero_le _⟩
    intro last hlast
    simp only at hlast
    exact ⟨_, by simp [hlast], le_rfl⟩
  · exact h

theorem Kept.update (h : Kept delay state) (c : Call) : Kept delay (c.update delay state) := by
  cases c with
  | reserveSlot host now =>
    refine ⟨?_, h.capped⟩
    intro last hlast
    cases hlast
    refine ⟨_, rfl, ?_⟩
    exact Nat.add_le_add_left (Nat.le_add_right _ _) _
  | noteResponse host status retryAfter now =>
    cases retryAfter with
    | none => exact h.noteStatus status now
    | some retryAfter => exact (h.noteStatus status now).raise _
  | setDelayFloor host floor =>
    simp only [Call.update]
    split
    · rename_i last hlast
      refine ⟨?_, h.capped⟩
      intro last' hlast'
      simp only [raiseNextAllowed] at hlast' ⊢
      rw [hlast] at hlast'
      cases hlast'
      refine ⟨_, rfl, ?_⟩
      have hle : last + max delay floor ≤ last + (max delay floor + state.penalty) :=
        Nat.add_le_add_left (Nat.le_add_right _ _) _
      split
      · exact hle.trans (le_max_right _ _)
      · exact hle
    · rename_i hlast
      exact ⟨fun last hlast' => by simp [hlast] at hlast', h.capped⟩

theorem kept_after (delay : Duration) (calls : List Call) (host : String) :
    Kept delay ((after delay calls).entry host) := by
  induction calls using List.reverseRecOn with
  | nil => exact kept_default delay
  | append_singleton calls c ih =>
    rw [after_snoc, entry_call]
    split_ifs
    · exact ih.update c
    · exact ih

def ReservedFrom (slot : Instant) (state : DomainState) : Prop :=
  ∃ last, state.lastReserved = some last ∧ slot ≤ last

theorem noteStatus_lastReserved (delay : Duration) (state : DomainState)
    (status : Option StatusCode) (now : Instant) :
    (noteStatus delay state status now).lastReserved = state.lastReserved := by
  simp only [noteStatus]
  split_ifs <;> rfl

theorem noteStatus_floor (delay : Duration) (state : DomainState) (status : Option StatusCode)
    (now : Instant) : (noteStatus delay state status now).floor = state.floor := by
  simp only [noteStatus]
  split_ifs <;> rfl

theorem ReservedFrom.update {slot : Instant} (hr : ReservedFrom slot state)
    (h : Kept delay state) (c : Call) : ReservedFrom slot (c.update delay state) := by
  obtain ⟨last, hlast, hle⟩ := hr
  cases c with
  | reserveSlot host now =>
    obtain ⟨next, hnext, hspaced⟩ := h.spaced last hlast
    refine ⟨max (state.nextAllowed.getD now) now, rfl, hle.trans ?_⟩
    rw [hnext, Option.getD_some]
    exact (Nat.le_add_right _ _).trans (hspaced.trans (le_max_left _ _))
  | noteResponse host status retryAfter now =>
    have hsame := noteStatus_lastReserved delay state status now
    cases retryAfter with
    | none => exact ⟨last, hsame.trans hlast, hle⟩
    | some retryAfter => exact ⟨last, hsame.trans hlast, hle⟩
  | setDelayFloor host floor =>
    refine ⟨last, ?_, hle⟩
    simp only [Call.update, hlast, raiseNextAllowed]

theorem reservedFrom_after (delay : Duration) (calls : List Call) (host : String) (now : Instant)
    (more : List Call) : ReservedFrom (slotAt delay calls host now)
      ((after delay (calls ++ .reserveSlot host now :: more)).entry host) := by
  induction more using List.reverseRecOn with
  | nil =>
    rw [after_snoc, entry_call, slotAt_eq]
    simp only [Call.host, if_true]
    exact ⟨_, rfl, le_rfl⟩
  | append_singleton more c ih =>
    rw [← List.cons_append, ← List.append_assoc, after_snoc, entry_call]
    split_ifs
    · exact ih.update (kept_after delay _ host) c
    · exact ih

theorem floorOf_snoc (host : String) (calls : List Call) (c : Call) :
    floorOf host (calls ++ [c]) = match c with
      | .setDelayFloor host' floor => if host' = host then floor else floorOf host calls
      | _ => floorOf host calls := by
  rw [floorOf, List.foldl_append]
  rfl

theorem floor_update (delay : Duration) (state : DomainState) (c : Call) :
    (c.update delay state).floor = match c with
      | .setDelayFloor _ floor => floor
      | _ => state.floor := by
  cases c with
  | reserveSlot host now => rfl
  | noteResponse host status retryAfter now =>
    cases retryAfter with
    | none => exact noteStatus_floor delay state status now
    | some retryAfter => exact noteStatus_floor delay state status now
  | setDelayFloor host floor =>
    simp only [Call.update]
    split <;> rfl

theorem floor_after (delay : Duration) (calls : List Call) (host : String) :
    ((after delay calls).entry host).floor = floorOf host calls := by
  induction calls using List.reverseRecOn with
  | nil => rfl
  | append_singleton calls c ih =>
    rw [after_snoc, entry_call, floorOf_snoc]
    cases c with
    | reserveSlot host' now =>
      split_ifs
      · rw [floor_update]
        exact ih
      · exact ih
    | noteResponse host' status retryAfter now =>
      split_ifs
      · rw [floor_update]
        exact ih
      · exact ih
    | setDelayFloor host' floor =>
      simp only [Call.host, eq_comm (a := host)]
      split_ifs
      · rw [floor_update]
      · exact ih

theorem entry_after_filter (delay : Duration) (calls : List Call) (host : String) :
    (after delay (calls.filter fun c => c.host = host)).entry host =
      (after delay calls).entry host := by
  induction calls using List.reverseRecOn with
  | nil => rfl
  | append_singleton calls c ih =>
    rw [after_snoc, entry_call, List.filter_append]
    by_cases hc : c.host = host
    · rw [List.filter_cons_of_pos (by simpa using hc), List.filter_nil, after_snoc, entry_call,
        if_pos hc.symm, if_pos hc.symm, ih]
    · rw [List.filter_cons_of_neg (by simpa using hc), List.filter_nil, List.append_nil,
        if_neg (Ne.symm hc), ih]

/-- Two slots of one host are the delay apart, and so they are the floor that is in force
when the later one is reserved. A penalty is at most five minutes. The calls for other hosts
make no difference to a host's slots. -/
theorem reserved_slots_spaced (delay : Duration) :
    (∀ before host now between later,
      slotAt delay before host now +
          max delay (floorOf host (before ++ .reserveSlot host now :: between)) ≤
        slotAt delay (before ++ .reserveSlot host now :: between) host later) ∧
    (∀ calls host, ((after delay calls).entry host).penalty ≤ Duration.fromSecs (5 * 60)) ∧
    ∀ calls host now, slotAt delay (calls.filter fun c => c.host = host) host now =
      slotAt delay calls host now := by
  refine ⟨?_, fun calls host => (kept_after delay calls host).capped, ?_⟩
  · intro before host now between later
    have hkept := kept_after delay (before ++ .reserveSlot host now :: between) host
    obtain ⟨last, hlast, hle⟩ := reservedFrom_after delay before host now between
    obtain ⟨next, hnext, hspaced⟩ := hkept.spaced last hlast
    rw [floor_after] at hspaced
    rw [slotAt_eq delay (before ++ .reserveSlot host now :: between), hnext, Option.getD_some]
    exact (Nat.add_le_add_right hle _).trans (hspaced.trans (le_max_left _ _))
  · intro calls host now
    rw [slotAt_eq, slotAt_eq, entry_after_filter]

end Millipede.DomainLimiter
