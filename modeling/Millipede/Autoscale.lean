import Millipede.Errors

/-!
# Concurrency targets and host politeness

`AutoscaledPool` as the dispatcher sees it: the desired concurrency of the three
modes and the per-host slots of `DomainLimiter`. The results of floating-point
rounding are parameters; whatever they are, the bounds clamp them. The task-start
budget answers from a floating-point bucket and is not part of this state: the
dispatcher takes its answers as inputs.
-/

namespace Millipede

inductive ScaleDecision where
  | hold
  | scaleUp
  | scaleDown
  deriving DecidableEq, Repr

inductive AttemptOutcomeKind where
  | success
  | setback
  deriving DecidableEq, Repr

inductive AutoscaleMode where
  | aimd (increaseAfterSuccesses : ℕ)
  | loadSignals
  deriving DecidableEq, Repr

structure AutoscaledPoolOptions where
  fixedConcurrency : Option ℕ
  minConcurrency : ℕ
  maxConcurrency : ℕ
  desiredConcurrency : Option ℕ
  mode : AutoscaleMode
  /-- Whether any load signal is registered. -/
  hasSignals : Bool
  /-- `(desired as f32 * decrease_factor).round() as usize` with the factor in force. -/
  decreased : ℕ → ℕ
  /-- `(current as f32 * up_ratio).ceil() as usize`, and the same with `down_ratio`. -/
  upStep : ℕ → ℕ
  downStep : ℕ → ℕ
  sameDomainDelay : Duration

inductive PoolMode where
  | fixed (value : ℕ)
  | aimd (desired successStreak : ℕ)
  | loadSignals (desired : ℕ)
  deriving DecidableEq, Repr

namespace PoolMode

def desiredConcurrency : PoolMode → ℕ
  | .fixed value => value
  | .aimd desired _ => desired
  | .loadSignals desired => desired

def maxConcurrency (limit : ℕ) : PoolMode → ℕ
  | .fixed value => value
  | .aimd _ _ => limit
  | .loadSignals _ => limit

end PoolMode

/-- The pool with its bounds normalized. What changes during a run is the mode. -/
structure AutoscaledPool where
  initial : PoolMode
  minConcurrency : ℕ
  maxConcurrency : ℕ
  increaseAfterSuccesses : ℕ
  decreased : ℕ → ℕ
  upStep : ℕ → ℕ
  downStep : ℕ → ℕ
  sameDomainDelay : Duration
  min_pos : 1 ≤ minConcurrency
  min_le_max : minConcurrency ≤ maxConcurrency
  streak_pos : 1 ≤ increaseAfterSuccesses
  initial_le : initial.desiredConcurrency ≤ initial.maxConcurrency maxConcurrency

def clamp (low high value : ℕ) : ℕ := max low (min high value)

theorem clamp_le {low high : ℕ} (h : low ≤ high) (value : ℕ) : clamp low high value ≤ high :=
  max_le h (min_le_left _ _)

namespace AutoscaledPool

def initialMode (options : AutoscaledPoolOptions) (low high : ℕ) : PoolMode :=
  let initial := options.desiredConcurrency.getD low
  match options.fixedConcurrency with
  | some fixed => .fixed (max fixed 1)
  | none =>
    match options.mode with
    | .aimd _ => .aimd (clamp low high initial) 0
    | .loadSignals =>
      if options.hasSignals then .loadSignals (clamp low high initial)
      else .aimd (clamp low high initial) 0

theorem initialMode_le (options : AutoscaledPoolOptions) {low high : ℕ} (h : low ≤ high) :
    (initialMode options low high).desiredConcurrency ≤
      (initialMode options low high).maxConcurrency high := by
  simp only [initialMode]
  split
  · exact le_rfl
  · split
    · exact clamp_le h _
    · split
      · exact clamp_le h _
      · exact clamp_le h _

def new (options : AutoscaledPoolOptions) : AutoscaledPool where
  initial := initialMode options (max options.minConcurrency 1)
    (max options.maxConcurrency (max options.minConcurrency 1))
  minConcurrency := max options.minConcurrency 1
  maxConcurrency := max options.maxConcurrency (max options.minConcurrency 1)
  increaseAfterSuccesses := match options.mode with
    | .aimd increaseAfterSuccesses => max increaseAfterSuccesses 1
    | .loadSignals => 10
  decreased := options.decreased
  upStep := options.upStep
  downStep := options.downStep
  sameDomainDelay := options.sameDomainDelay
  min_pos := le_max_right _ _
  min_le_max := le_max_right _ _
  streak_pos := by
    split
    · exact le_max_right _ _
    · decide
  initial_le := initialMode_le options (le_max_right _ _)

def limit (pool : AutoscaledPool) : ℕ := pool.initial.maxConcurrency pool.maxConcurrency

def applyScaleDecision (pool : AutoscaledPool) (current : ℕ) : ScaleDecision → ℕ
  | .hold => current
  | .scaleUp =>
    min (current + max (pool.upStep current) 1) (max pool.maxConcurrency pool.minConcurrency)
  | .scaleDown => max (current - max (pool.downStep current) 1) pool.minConcurrency

end AutoscaledPool

namespace PoolMode

def recordSuccess (pool : AutoscaledPool) (desired successStreak : ℕ) : PoolMode :=
  let next := successStreak + 1
  let streak := if pool.increaseAfterSuccesses ≤ next then next - pool.increaseAfterSuccesses
    else next
  if pool.increaseAfterSuccesses - 1 ≤ successStreak then
    .aimd (min (desired + 1) pool.maxConcurrency) streak
  else .aimd desired streak

def recordSetback (pool : AutoscaledPool) (desired : ℕ) : PoolMode :=
  .aimd (clamp pool.minConcurrency pool.maxConcurrency (pool.decreased desired)) 0

def recordOutcome (pool : AutoscaledPool) (outcome : AttemptOutcomeKind) : PoolMode → PoolMode
  | .aimd desired successStreak =>
    match outcome with
    | .success => recordSuccess pool desired successStreak
    | .setback => recordSetback pool desired
  | mode => mode

/-- One round of the background scaling task, which runs for load signals only. -/
def rescale (pool : AutoscaledPool) (decision : ScaleDecision) : PoolMode → PoolMode
  | .loadSignals desired => .loadSignals (pool.applyScaleDecision desired decision)
  | mode => mode

structure Within (pool : AutoscaledPool) (mode : PoolMode) : Prop where
  maximum : mode.maxConcurrency pool.maxConcurrency = pool.limit
  desired_le : mode.desiredConcurrency ≤ pool.limit

variable {pool : AutoscaledPool} {mode : PoolMode}

theorem within_initial (pool : AutoscaledPool) : pool.initial.Within pool :=
  ⟨rfl, pool.initial_le⟩

theorem within_aimd {desired successStreak desired' successStreak' : ℕ}
    (hw : (PoolMode.aimd desired successStreak).Within pool) (h : desired' ≤ pool.maxConcurrency) :
    (PoolMode.aimd desired' successStreak').Within pool :=
  ⟨hw.maximum, h.trans hw.maximum.le⟩

theorem within_recordOutcome (hw : mode.Within pool) (outcome : AttemptOutcomeKind) :
    (mode.recordOutcome pool outcome).Within pool := by
  cases mode with
  | fixed value => exact hw
  | loadSignals desired => exact hw
  | aimd desired streak =>
    have hle : desired ≤ pool.maxConcurrency := hw.desired_le.trans hw.maximum.ge
    cases outcome with
    | success =>
      simp only [recordOutcome, recordSuccess]
      split_ifs
      · exact within_aimd hw (min_le_right _ _)
      · exact within_aimd hw (min_le_right _ _)
      · exact within_aimd hw hle
      · exact within_aimd hw hle
    | setback => exact within_aimd hw (clamp_le pool.min_le_max _)

theorem within_rescale (hw : mode.Within pool) (decision : ScaleDecision) :
    (mode.rescale pool decision).Within pool := by
  cases mode with
  | fixed value => exact hw
  | aimd desired streak => exact hw
  | loadSignals desired =>
    have hle : desired ≤ pool.maxConcurrency := hw.desired_le.trans hw.maximum.ge
    refine ⟨hw.maximum, le_trans ?_ hw.maximum.le⟩
    cases decision with
    | hold => exact hle
    | scaleUp =>
      have hmax : max pool.maxConcurrency pool.minConcurrency = pool.maxConcurrency :=
        max_eq_left pool.min_le_max
      exact (min_le_right _ _).trans hmax.le
    | scaleDown => exact max_le ((Nat.sub_le _ _).trans hle) pool.min_le_max

end PoolMode

structure DomainState where
  nextAllowed : Option Instant := none
  lastReserved : Option Instant := none
  consecutive429s : ℕ := 0
  penalty : Duration := 0
  floor : Duration := 0
  deriving DecidableEq, Repr

abbrev DomainLimiter := HashMap String DomainState

namespace DomainLimiter

def tooManyRequests : StatusCode := 429

def entry (limiter : DomainLimiter) (host : String) : DomainState :=
  (limiter.lookup host).getD {}

def nextSlot (limiter : DomainLimiter) (host : String) (now : Instant) : Instant :=
  max ((limiter.entry host).nextAllowed.getD now) now

/-- `reserve_slot`: the wait until the reserved slot, and the limiter with it. -/
def reserveSlot (delay : Duration) (limiter : DomainLimiter) (host : String) (now : Instant) :
    Duration × DomainLimiter :=
  let state := limiter.entry host
  let spacing := max delay state.floor + state.penalty
  let slot := limiter.nextSlot host now
  (slot - now, limiter.insert host
    { state with nextAllowed := some (slot + spacing), lastReserved := some slot })

def raiseNextAllowed (state : DomainState) (candidate : Instant) : DomainState :=
  { state with
    nextAllowed := some (match state.nextAllowed with
      | some current => max current candidate
      | none => candidate) }

def noteStatus (delay : Duration) (state : DomainState) (status : Option StatusCode)
    (now : Instant) : DomainState :=
  if status = some tooManyRequests then
    let consecutive429s := min (state.consecutive429s + 1) (2 ^ 32 - 1)
    let multiplier := 2 ^ min (consecutive429s - 1) 31
    let penalty := min (max delay (Duration.fromSecs 1) * multiplier)
      (Duration.fromSecs (5 * 60))
    let baseline := Nat.max
      (match state.lastReserved with
      | some lastReserved => lastReserved + max delay state.floor
      | none => state.nextAllowed.getD now) now
    { state with consecutive429s, penalty, nextAllowed := some (baseline + penalty) }
  else if status.isSome then
    { state with
      consecutive429s := 0
      penalty := 0
      nextAllowed := state.lastReserved.map fun last => last + max delay state.floor }
  else state

def noteResponse (delay : Duration) (limiter : DomainLimiter) (host : String)
    (status : Option StatusCode) (retryAfter : Option Duration) (now : Instant) :
    DomainLimiter :=
  let state := noteStatus delay (limiter.entry host) status now
  limiter.insert host
    (match retryAfter with
    | some retryAfter => raiseNextAllowed state (now + retryAfter)
    | none => state)

def setDelayFloor (delay : Duration) (limiter : DomainLimiter) (host : String)
    (floor : Duration) : DomainLimiter :=
  let state := { limiter.entry host with floor }
  limiter.insert host
    (match state.lastReserved with
    | some last => raiseNextAllowed state (last + (max delay state.floor + state.penalty))
    | none => state)

def Spaced (delay : Duration) (state : DomainState) : Prop :=
  ∀ last, state.lastReserved = some last → ∃ next, state.nextAllowed = some next ∧
    last + delay ≤ next

variable {delay : Duration} {state : DomainState}

theorem entry_insert (limiter : DomainLimiter) (host host' : String) (state : DomainState) :
    DomainLimiter.entry (limiter.insert host state) host' =
      if host' = host then state else limiter.entry host' := by
  simp only [entry, AList.lookup_insert_ite]
  split_ifs <;> rfl

theorem Spaced.raise (h : Spaced delay state) (candidate : Instant) :
    Spaced delay (raiseNextAllowed state candidate) := by
  intro last hlast
  obtain ⟨next, hn, hle⟩ := h last hlast
  refine ⟨max next candidate, ?_, hle.trans (le_max_left _ _)⟩
  simp only [raiseNextAllowed, hn]

theorem Spaced.noteStatus (h : Spaced delay state) (status : Option StatusCode) (now : Instant) :
    Spaced delay (noteStatus delay state status now) := by
  intro last hlast
  simp only [DomainLimiter.noteStatus] at hlast ⊢
  split_ifs at hlast ⊢ with h₁ h₂
  · simp only at hlast
    refine ⟨_, rfl, ?_⟩
    simp only [hlast, Duration.fromSecs]
    show last + delay ≤ _
    calc last + delay ≤ last + max delay state.floor := Nat.add_le_add_left (le_max_left _ _) _
      _ ≤ max (last + max delay state.floor) now := le_max_left _ _
      _ ≤ _ := Nat.le_add_right _ _
  · simp only at hlast
    refine ⟨last + max delay state.floor, by simp [hlast], ?_⟩
    exact Nat.add_le_add_left (le_max_left _ _) _
  · exact h last hlast

theorem spaced_noteResponse {limiter : DomainLimiter}
    (h : ∀ host, Spaced delay (limiter.entry host)) (host : String) (status : Option StatusCode)
    (retryAfter : Option Duration) (now : Instant) (host' : String) :
    Spaced delay ((noteResponse delay limiter host status retryAfter now).entry host') := by
  simp only [noteResponse, entry_insert]
  by_cases he : host' = host
  · subst he
    rw [if_pos rfl]
    have hs := (h host').noteStatus status now
    cases retryAfter with
    | none => exact hs
    | some retryAfter => exact hs.raise _
  · rw [if_neg he]
    exact h host'

theorem spaced_setDelayFloor {limiter : DomainLimiter}
    (h : ∀ host, Spaced delay (limiter.entry host)) (host : String) (floor : Duration)
    (host' : String) :
    Spaced delay ((setDelayFloor delay limiter host floor).entry host') := by
  simp only [setDelayFloor, entry_insert]
  by_cases he : host' = host
  · subst he
    rw [if_pos rfl]
    have hs : Spaced delay { limiter.entry host' with floor } := h host'
    generalize limiter.entry host' = state at hs
    obtain ⟨nextAllowed, lastReserved, consecutive429s, penalty, old⟩ := state
    cases lastReserved with
    | none => exact hs
    | some last => exact hs.raise _
  · rw [if_neg he]
    exact h host'

theorem spaced_reserveSlot {limiter : DomainLimiter}
    (h : ∀ host, Spaced delay (limiter.entry host)) (host : String) (now : Instant)
    (host' : String) : Spaced delay ((reserveSlot delay limiter host now).2.entry host') := by
  simp only [reserveSlot, entry_insert]
  split_ifs
  · intro last hlast
    cases hlast
    refine ⟨_, rfl, Nat.add_le_add_left ?_ _⟩
    exact (le_max_left _ _).trans (Nat.le_add_right _ _)
  · exact h host'

theorem Spaced.le_nextSlot {limiter : DomainLimiter} {host : String}
    (h : Spaced delay (limiter.entry host)) {last : Instant}
    (hlast : (limiter.entry host).lastReserved = some last) (now : Instant) :
    last + delay ≤ limiter.nextSlot host now := by
  obtain ⟨next, hn, hle⟩ := h last hlast
  rw [nextSlot, hn, Option.getD_some]
  exact hle.trans (le_max_left _ _)

end DomainLimiter

end Millipede
