import Mathlib.Algebra.BigOperators.Group.List.Basic
import Mathlib.Tactic.Ring
import Millipede.Library.Machine
import Millipede.Statistics

/-!
# What the statistics sum to

The whole state behind a `StatisticsHandle`, what the calls do to it, and what it persists and
restores. Every record goes into a counter and into one place of an aggregate, so the
aggregates sum to the counters, and the average lies between the least and the greatest
duration. The per-minute rates are left out.
-/

namespace Millipede.Statistics

def nanosPerSec : ℕ := 1000000000

/-- `Duration::new`, which carries nanoseconds over to the seconds. -/
def newDuration (secs nanos : ℕ) : Duration := secs * nanosPerSec + nanos

/-- The nanosecond part that `duration_average` passes to `Duration::new`, cast to `u32`. -/
def averageNanos (total : Duration) (count : ℕ) : ℕ :=
  let remainingSeconds := total / nanosPerSec % count
  let remainingNanos := remainingSeconds * nanosPerSec + total % nanosPerSec
  remainingNanos / count % 2 ^ 32

def durationAverage (total : Duration) (count : ℕ) : Duration :=
  newDuration (total / nanosPerSec / count) (averageNanos total count)

theorem remainder_lt (total : Duration) {count : ℕ} (hcount : 0 < count) :
    (total / nanosPerSec % count * nanosPerSec + total % nanosPerSec) / count < nanosPerSec := by
  have hseconds : total / nanosPerSec % count + 1 ≤ count := Nat.mod_lt _ hcount
  have hnanos : total % nanosPerSec < nanosPerSec := Nat.mod_lt _ (by decide)
  rw [Nat.div_lt_iff_lt_mul hcount, Nat.mul_comm nanosPerSec count]
  calc total / nanosPerSec % count * nanosPerSec + total % nanosPerSec
      < total / nanosPerSec % count * nanosPerSec + nanosPerSec := Nat.add_lt_add_left hnanos _
    _ = (total / nanosPerSec % count + 1) * nanosPerSec := by ring
    _ ≤ count * nanosPerSec := Nat.mul_le_mul_right _ hseconds

/-- The cast loses nothing. -/
theorem averageNanos_eq (total : Duration) {count : ℕ} (hcount : 0 < count) :
    averageNanos total count =
      (total / nanosPerSec % count * nanosPerSec + total % nanosPerSec) / count := by
  have hlt := remainder_lt total hcount
  refine Nat.mod_eq_of_lt (hlt.trans ?_)
  decide

theorem averageNanos_lt (total : Duration) {count : ℕ} (hcount : 0 < count) :
    averageNanos total count < nanosPerSec := by
  rw [averageNanos_eq total hcount]
  exact remainder_lt total hcount

theorem durationAverage_eq (total : Duration) {count : ℕ} (hcount : 0 < count) :
    durationAverage total count = total / count := by
  have hparts : total = (total / nanosPerSec % count * nanosPerSec + total % nanosPerSec) +
      total / nanosPerSec / count * nanosPerSec * count := by
    calc total = total / nanosPerSec * nanosPerSec + total % nanosPerSec :=
          (Nat.div_add_mod' total nanosPerSec).symm
      _ = (total / nanosPerSec / count * count + total / nanosPerSec % count) * nanosPerSec +
          total % nanosPerSec := by rw [Nat.div_add_mod' (total / nanosPerSec) count]
      _ = _ := by ring
  unfold durationAverage newDuration
  rw [averageNanos_eq total hcount]
  conv_rhs => rw [hparts]
  rw [Nat.add_mul_div_right _ _ hcount, Nat.add_comm]

structure State where
  counters : Statistics := {}
  accumulatedRuntime : Duration := 0
  startedAt : Option Instant := none
  /-- The oldest event first; whether it was a success. -/
  recentEvents : List (Instant × Bool) := []

structure Persisted where
  requestsFinished : ℕ
  requestsFailed : ℕ
  requestsRetries : ℕ
  requestDurationSum : Duration
  requestMinDuration : Duration
  requestMaxDuration : Duration
  statusCodes : HashMap ℕ ℕ
  retryHistogram : List ℕ
  errors : HashMap String ℕ
  retryErrors : HashMap String ℕ
  accumulatedRuntime : Duration

namespace State

def pruneWindow (s : State) (now : Instant) (window : Duration) : State :=
  { s with recentEvents := s.recentEvents.dropWhile fun e => decide (window < now - e.1) }

def recordFinished (s : State) (now : Instant) (window duration : Duration)
    (statusCode : Option ℕ) (retryCount : ℕ) : State :=
  { s with
    counters := s.counters.recordFinished duration statusCode retryCount
    recentEvents := s.recentEvents ++ [(now, true)] }.pruneWindow now window

def recordFailed (s : State) (now : Instant) (window duration : Duration) (errorKey : String)
    (retryCount : ℕ) : State :=
  { s with
    counters := s.counters.recordFailed duration errorKey retryCount
    recentEvents := s.recentEvents ++ [(now, false)] }.pruneWindow now window

def recordRetry (s : State) (now : Instant) (window : Duration) (errorKey : String) : State :=
  { s with counters := s.counters.recordRetry errorKey }.pruneWindow now window

def markRunStarted (s : State) (now : Instant) : State :=
  { s with startedAt := s.startedAt.or (some now) }

def runtime (s : State) (now : Instant) : Duration :=
  s.accumulatedRuntime + (s.startedAt.map fun start => now - start).getD 0

def markRunStopped (s : State) (now : Instant) : State :=
  { s with accumulatedRuntime := s.runtime now, startedAt := none }

def persist (s : State) (now : Instant) : Persisted where
  requestsFinished := s.counters.requestsFinished
  requestsFailed := s.counters.requestsFailed
  requestsRetries := s.counters.requestsRetries
  requestDurationSum := s.counters.requestDurationSum
  requestMinDuration := s.counters.requestMinDuration
  requestMaxDuration := s.counters.requestMaxDuration
  statusCodes := s.counters.statusCodes
  retryHistogram := s.counters.retryHistogram
  errors := s.counters.errors
  retryErrors := s.counters.retryErrors
  accumulatedRuntime := s.runtime now

def restore (persisted : Persisted) : State where
  counters := {
    requestsFinished := persisted.requestsFinished
    requestsFailed := persisted.requestsFailed
    requestsRetries := persisted.requestsRetries
    requestDurationSum := persisted.requestDurationSum
    requestMinDuration := persisted.requestMinDuration
    requestMaxDuration := persisted.requestMaxDuration
    statusCodes := persisted.statusCodes
    retryHistogram := persisted.retryHistogram
    errors := persisted.errors
    retryErrors := persisted.retryErrors }
  accumulatedRuntime := persisted.accumulatedRuntime
  startedAt := none
  recentEvents := []

end State

def requestAvgDuration (s : Statistics) : Duration :=
  let completed := s.requestsFinished + s.requestsFailed
  if completed = 0 then 0 else durationAverage s.requestDurationSum completed

/-- A handle and what it has written to the store, the oldest first. -/
structure World where
  state : State := {}
  written : List Persisted := []

inductive Event where
  | finished (now : Instant) (duration : Duration) (statusCode : Option ℕ) (retryCount : ℕ)
  | failed (now : Instant) (duration : Duration) (errorKey : String) (retryCount : ℕ)
  | retry (now : Instant) (errorKey : String)
  | runStarted (now : Instant)
  | runStopped (now : Instant)
  | persist (now : Instant)
  /-- One of the snapshots is read back: the store may answer late. -/
  | restore (n : ℕ)

def step (window : Duration) (w : World) : Event → World
  | .finished now duration statusCode retryCount =>
    { w with state := w.state.recordFinished now window duration statusCode retryCount }
  | .failed now duration errorKey retryCount =>
    { w with state := w.state.recordFailed now window duration errorKey retryCount }
  | .retry now errorKey => { w with state := w.state.recordRetry now window errorKey }
  | .runStarted now => { w with state := w.state.markRunStarted now }
  | .runStopped now => { w with state := w.state.markRunStopped now }
  | .persist now => { w with written := w.written ++ [w.state.persist now] }
  | .restore n => { w with state := (w.written[n]?).elim w.state State.restore }

/-- The aggregates sum to the counters. -/
structure Consistent (s : Statistics) : Prop where
  histogram : s.retryHistogram.sum = s.requestsFinished + s.requestsFailed
  errors : s.errors.values.sum = s.requestsFailed
  retryErrors : s.retryErrors.values.sum = s.requestsRetries
  statusCodes : s.statusCodes.values.sum ≤ s.requestsFinished
  least : (s.requestsFinished + s.requestsFailed) * s.requestMinDuration ≤ s.requestDurationSum
  greatest : s.requestDurationSum ≤ (s.requestsFinished + s.requestsFailed) * s.requestMaxDuration

theorem consistent_default : Consistent {} :=
  ⟨rfl, rfl, rfl, Nat.zero_le _, Nat.zero_le _, Nat.zero_le _⟩

theorem sum_bump {κ : Type*} [DecidableEq κ] (m : HashMap κ ℕ) (key : κ) :
    (bump m key).values.sum = m.values.sum + 1 := by
  unfold bump
  cases hkey : m.lookup key with
  | none =>
    rw [AList.values_insert_new _ hkey, List.sum_cons, Option.getD_none]
    omega
  | some n =>
    obtain ⟨rest, hold, hnew⟩ := AList.values_insert_perm (n + 1) hkey
    rw [Option.getD_some, hnew.sum_eq, hold.sum_eq, List.sum_cons, List.sum_cons]
    omega

theorem sum_modify (l : List ℕ) {n : ℕ} (hn : n < l.length) :
    (l.modify n (· + 1)).sum = l.sum + 1 := by
  induction l generalizing n with
  | nil => cases hn
  | cons m l ih =>
    cases n with
    | zero =>
      rw [List.modify_zero_cons, List.sum_cons, List.sum_cons]
      omega
    | succ n =>
      rw [List.modify_succ_cons, List.sum_cons, List.sum_cons, ih (Nat.lt_of_succ_lt_succ hn)]
      omega

theorem sum_recordTerminalRetryCount (s : Statistics) (retryCount : ℕ) :
    (s.recordTerminalRetryCount retryCount).retryHistogram.sum = s.retryHistogram.sum + 1 := by
  unfold recordTerminalRetryCount
  rw [sum_modify]
  · rw [List.sum_append, List.sum_replicate, nsmul_zero, add_zero]
  · rw [List.length_append, List.length_replicate]
    omega

/-- The first duration is both the least and the greatest. -/
theorem recordDuration_bounds {s : Statistics} {n : ℕ}
    (hcount : s.requestsFinished + s.requestsFailed = n + 1)
    (hleast : n * s.requestMinDuration ≤ s.requestDurationSum)
    (hgreatest : s.requestDurationSum ≤ n * s.requestMaxDuration) (duration : Duration) :
    (n + 1) * (s.recordDuration duration).requestMinDuration ≤
      (s.recordDuration duration).requestDurationSum ∧
    (s.recordDuration duration).requestDurationSum ≤
      (n + 1) * (s.recordDuration duration).requestMaxDuration := by
  have hleast' : n * (s.recordDuration duration).requestMinDuration ≤ s.requestDurationSum ∧
      (s.recordDuration duration).requestMinDuration ≤ duration := by
    simp only [recordDuration, hcount]
    split_ifs with hless
    · refine ⟨?_, le_refl _⟩
      rcases hless with hfirst | hless
      · rw [Nat.succ.inj hfirst, Nat.zero_mul]
        exact Nat.zero_le _
      · exact (Nat.mul_le_mul_left n (Nat.le_of_lt hless)).trans hleast
    · exact ⟨hleast, Nat.le_of_not_lt fun hlt => hless (.inr hlt)⟩
  have hgreatest' : s.requestDurationSum ≤ n * (s.recordDuration duration).requestMaxDuration ∧
      duration ≤ (s.recordDuration duration).requestMaxDuration := by
    simp only [recordDuration, hcount]
    split_ifs with hmore
    · refine ⟨?_, le_refl _⟩
      rcases hmore with hfirst | hmore
      · rw [Nat.succ.inj hfirst, Nat.zero_mul] at hgreatest ⊢
        exact hgreatest
      · exact hgreatest.trans (Nat.mul_le_mul_left n (Nat.le_of_lt hmore))
    · exact ⟨hgreatest, Nat.le_of_not_lt fun hlt => hmore (.inr hlt)⟩
  rw [Nat.succ_mul, Nat.succ_mul]
  exact ⟨Nat.add_le_add hleast'.1 hleast'.2, Nat.add_le_add hgreatest'.1 hgreatest'.2⟩

section Consistent
variable {s : Statistics}

theorem Consistent.recordFinished (h : Consistent s) (duration : Duration)
    (statusCode : Option ℕ) (retryCount : ℕ) :
    Consistent (s.recordFinished duration statusCode retryCount) := by
  let started := { s with requestsFinished := s.requestsFinished + 1 }
  have hcount : started.requestsFinished + started.requestsFailed =
      s.requestsFinished + s.requestsFailed + 1 := Nat.add_right_comm _ _ _
  have hbounds := recordDuration_bounds hcount h.least h.greatest duration
  have hhistogram : ((started.recordDuration duration).recordTerminalRetryCount
      retryCount).retryHistogram.sum = s.requestsFinished + 1 + s.requestsFailed := by
    rw [sum_recordTerminalRetryCount, Nat.add_right_comm]
    exact congrArg (· + 1) h.histogram
  rw [← hcount] at hbounds
  cases statusCode with
  | none => exact ⟨hhistogram, h.errors, h.retryErrors, Nat.le_succ_of_le h.statusCodes,
      hbounds.1, hbounds.2⟩
  | some code =>
    refine ⟨hhistogram, h.errors, h.retryErrors, ?_, hbounds.1, hbounds.2⟩
    exact (sum_bump s.statusCodes code).le.trans (Nat.succ_le_succ h.statusCodes)

theorem Consistent.recordFailed (h : Consistent s) (duration : Duration) (errorKey : String)
    (retryCount : ℕ) : Consistent (s.recordFailed duration errorKey retryCount) := by
  let started := { s with requestsFailed := s.requestsFailed + 1 }
  have hcount : started.requestsFinished + started.requestsFailed =
      s.requestsFinished + s.requestsFailed + 1 := rfl
  have hbounds := recordDuration_bounds hcount h.least h.greatest duration
  refine ⟨?_, ?_, h.retryErrors, h.statusCodes, hbounds.1, hbounds.2⟩
  · exact (sum_recordTerminalRetryCount _ retryCount).trans (congrArg (· + 1) h.histogram)
  · exact (sum_bump _ _).trans (congrArg (· + 1) h.errors)

theorem Consistent.recordRetry (h : Consistent s) (errorKey : String) :
    Consistent (s.recordRetry errorKey) :=
  ⟨h.histogram, h.errors, (sum_bump _ _).trans (congrArg (· + 1) h.retryErrors), h.statusCodes,
    h.least, h.greatest⟩

theorem counters_restore (s : State) (now : Instant) :
    (State.restore (s.persist now)).counters = s.counters := rfl

theorem Consistent.average (h : Consistent s)
    (hterminal : 0 < s.requestsFinished + s.requestsFailed) :
    s.requestMinDuration ≤ s.requestAvgDuration ∧
      s.requestAvgDuration ≤ s.requestMaxDuration := by
  unfold requestAvgDuration
  rw [if_neg (Nat.ne_of_gt hterminal), durationAverage_eq _ hterminal]
  constructor
  · rw [Nat.le_div_iff_mul_le hterminal, Nat.mul_comm]
    exact h.least
  · exact Nat.div_le_of_le_mul h.greatest

end Consistent

structure Sound (w : World) : Prop where
  state : Consistent w.state.counters
  written : ∀ persisted ∈ w.written, Consistent (State.restore persisted).counters

theorem Sound.step {w : World} (h : Sound w) (window : Duration) (event : Event) :
    Sound (step window w event) := by
  cases event with
  | finished now duration statusCode retryCount =>
    exact ⟨h.state.recordFinished duration statusCode retryCount, h.written⟩
  | failed now duration errorKey retryCount =>
    exact ⟨h.state.recordFailed duration errorKey retryCount, h.written⟩
  | retry now errorKey => exact ⟨h.state.recordRetry errorKey, h.written⟩
  | runStarted now => exact ⟨h.state, h.written⟩
  | runStopped now => exact ⟨h.state, h.written⟩
  | persist now =>
    refine ⟨h.state, ?_⟩
    intro persisted hmem
    rcases List.mem_append.mp hmem with hold | hnew
    · exact h.written persisted hold
    · rw [List.mem_singleton.mp hnew, counters_restore]
      exact h.state
  | restore n =>
    refine ⟨?_, h.written⟩
    show Consistent ((w.written[n]?).elim w.state State.restore).counters
    cases hread : w.written[n]? with
    | none => exact h.state
    | some persisted => exact h.written persisted (List.mem_of_getElem? hread)

theorem sound_run (window : Duration) (events : List Event) :
    Sound (events.foldl (step window) {}) := by
  induction events using List.reverseRecOn with
  | nil => exact ⟨consistent_default, fun _ hmem => nomatch hmem⟩
  | append_singleton events event ih =>
    rw [List.foldl_append]
    exact ih.step window event

/-- After any calls the aggregates sum to the counters and the average lies between the
extremes; it is the quotient in whole nanoseconds, and the part that is passed as nanoseconds
is less than a second. -/
theorem statistics_consistent (window : Duration) (events : List Event) :
    let s := (events.foldl (step window) {}).state.counters
    s.retryHistogram.sum = s.requestsFinished + s.requestsFailed ∧
    s.errors.values.sum = s.requestsFailed ∧
    s.retryErrors.values.sum = s.requestsRetries ∧
    s.statusCodes.values.sum ≤ s.requestsFinished ∧
    (0 < s.requestsFinished + s.requestsFailed →
      s.requestMinDuration ≤ s.requestAvgDuration ∧
        s.requestAvgDuration ≤ s.requestMaxDuration) ∧
    ∀ (total : Duration) (count : ℕ), 0 < count →
      durationAverage total count = total / count ∧ averageNanos total count < nanosPerSec := by
  have h := (sound_run window events).state
  refine ⟨h.histogram, h.errors, h.retryErrors, h.statusCodes, h.average, ?_⟩
  exact fun total count hcount => ⟨durationAverage_eq total hcount, averageNanos_lt total hcount⟩

def readBack : List Event :=
  [.finished 5 3 (some 200) 1, .persist 6, .failed 7 8 "timeout" 0, .restore 0,
    .failed 9 4 "timeout" 2]

theorem statistics_consistent_readBack :
    let s := (readBack.foldl (step 60) {}).state.counters
    s.retryHistogram = [0, 1, 1] ∧ s.requestMinDuration = 3 ∧ s.requestMaxDuration = 4 ∧
      s.requestMinDuration ≤ s.requestAvgDuration ∧
        s.requestAvgDuration ≤ s.requestMaxDuration := by
  have h := statistics_consistent 60 readBack
  refine ⟨rfl, rfl, rfl, ?_⟩
  exact h.2.2.2.2.1 (by decide)

end Millipede.Statistics
