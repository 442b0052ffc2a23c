import Mathlib.Data.List.MinMax
import Millipede.Autoscale
import Millipede.Library.Machine
import Millipede.Library.Recent
import Millipede.Storage.Queue

/-!
# Scaling by load signals

The load signals with their bounded histories and the background task of `AutoscaledPool` that
samples them one after another and moves the concurrency target. Observations come from other
threads at any moment, also between the samples of one round, and a thread may be overtaken
between reading the clock and pushing what it saw.
-/

namespace Millipede

structure LoadSnapshot where
  /-- The source's `at`. -/
  capturedAt : Instant
  overloaded : Bool
  deriving DecidableEq, Repr

def historyMaxAge : Duration := Duration.fromSecs 300

def historyMaxLen : ℕ := 4096

/-- `Instant::checked_sub`. An instant before the first one would be as good as none here. -/
def checkedSub (now : Instant) (age : Duration) : Option Instant :=
  if age ≤ now then some (now - age) else none

abbrev SnapshotHistory := List LoadSnapshot

namespace SnapshotHistory

def push (snapshots : SnapshotHistory) (snapshot : LoadSnapshot) : SnapshotHistory :=
  let snapshots := snapshots ++ [snapshot]
  let snapshots := match checkedSub snapshot.capturedAt historyMaxAge with
    | some cutoff =>
      snapshots.dropWhile fun entry : LoadSnapshot => decide (entry.capturedAt < cutoff)
    | none => snapshots
  snapshots.drop (snapshots.length - historyMaxLen)

def sample (snapshots : SnapshotHistory) (now : Instant) (window : Duration) : List LoadSnapshot :=
  match checkedSub now window with
  | some cutoff =>
    snapshots.filter fun snapshot : LoadSnapshot => decide (cutoff ≤ snapshot.capturedAt)
  | none => snapshots

def view (log : List LoadSnapshot) (now : Instant) (window : Duration) : List LoadSnapshot :=
  sample (Recent.newest historyMaxLen log) now window

def Aged (now : Instant) (snapshot : LoadSnapshot) : Prop :=
  snapshot.capturedAt + historyMaxAge < now

theorem sample_eq_filter (snapshots : SnapshotHistory) (now : Instant) (window : Duration) :
    sample snapshots now window =
      snapshots.filter fun snapshot => decide (now ≤ snapshot.capturedAt + window) := by
  by_cases hage : window ≤ now
  · simp only [sample, checkedSub, if_pos hage, tsub_le_iff_right]
  · simp only [sample, checkedSub, if_neg hage]
    symm
    rw [List.filter_eq_self]
    intro snapshot _
    exact decide_eq_true ((not_le.mp hage).le.trans (Nat.le_add_left _ _))

theorem push_eq_retain (snapshots : SnapshotHistory) (snapshot : LoadSnapshot) :
    push snapshots snapshot = Recent.retain historyMaxLen
      (fun entry => decide (entry.capturedAt + historyMaxAge < snapshot.capturedAt))
      snapshots snapshot := by
  by_cases hage : historyMaxAge ≤ snapshot.capturedAt
  · simp only [push, checkedSub, Recent.retain, if_pos hage, lt_tsub_iff_right]
  · have hnone : ∀ entry : LoadSnapshot,
        ¬ entry.capturedAt + historyMaxAge < snapshot.capturedAt :=
      fun entry hlt => hage ((Nat.le_add_left _ _).trans hlt.le)
    have hkept : ∀ xs : List LoadSnapshot, xs.dropWhile (fun _ => false) = xs := by
      intro xs
      cases xs <;> rfl
    simp only [push, checkedSub, Recent.retain, if_neg hage, hnone, decide_false, hkept]

variable {log snapshots : SnapshotHistory} {now now' : Instant} {snapshot : LoadSnapshot}

theorem keeps_push (h : Recent.Keeps historyMaxLen (Aged now) log snapshots) (hle : now ≤ now')
    (hcaptured : snapshot.capturedAt ≤ now') :
    Recent.Keeps historyMaxLen (Aged now') (log ++ [snapshot]) (push snapshots snapshot) := by
  rw [push_eq_retain]
  refine (h.mono fun x hx => ?_).retain (fun x hx => ?_) snapshot
  · exact lt_of_lt_of_le hx hle
  · exact lt_of_lt_of_le (of_decide_eq_true hx) hcaptured

/-- No window that the histories are kept for misses anything. -/
theorem sample_eq_view (h : Recent.Keeps historyMaxLen (Aged now) log snapshots) (hle : now ≤ now')
    {window : Duration} (hwindow : window ≤ historyMaxAge) :
    sample snapshots now' window = view log now' window := by
  rw [view, sample_eq_filter, sample_eq_filter]
  refine h.filter fun x hx => decide_eq_false (not_le.mpr ?_)
  calc x.capturedAt + window ≤ x.capturedAt + historyMaxAge := Nat.add_le_add_left hwindow _
    _ < now := hx
    _ ≤ now' := hle

end SnapshotHistory

/-- `samples.iter().max_by_key(|sample| sample.at)`, which takes the last of equals. -/
def latest (samples : List LoadSnapshot) : Option LoadSnapshot :=
  samples.reverse.argmax LoadSnapshot.capturedAt

def overloadedNow (samples : List LoadSnapshot) : Bool :=
  (latest samples).any LoadSnapshot.overloaded

/-- What a wrapped storage operation tells the client signal. -/
def observe {α : Type*} : StorageResult α → Option Bool
  | .ok _ => some false
  | .error (.rateLimited _) => some true
  | .error _ => none

/-- How the histories are kept: as in the source, or in full. -/
structure HistoryKind where
  push : List LoadSnapshot → LoadSnapshot → List LoadSnapshot
  sample : List LoadSnapshot → Instant → Duration → List LoadSnapshot

def HistoryKind.bounded : HistoryKind := ⟨SnapshotHistory.push, SnapshotHistory.sample⟩

def HistoryKind.complete : HistoryKind := ⟨fun log x => log ++ [x], SnapshotHistory.view⟩

structure ScalingOptions where
  window : Duration
  minSamples : ℕ
  /-- `mean >= desired_utilization_ratio`, from the healthy samples and all samples of each
  signal that counts. -/
  utilized : List (ℕ × ℕ) → Bool

namespace Scaler

inductive Phase where
  | waiting
  /-- `evaluate` is to sample the signal `i` next. -/
  | evaluating (i : ℕ) (ratios : List (ℕ × ℕ))
  | stopped
  deriving DecidableEq, Repr

structure State where
  clock : Instant
  histories : List (List LoadSnapshot)
  mode : PoolMode
  phase : Phase
  wakeups : ℕ

inductive Event where
  | tick (now : Instant)
  | sample (now : Instant)
  /-- A push to the history of a signal, when its lock is taken. -/
  | record (i : ℕ) (now : Instant) (snapshot : LoadSnapshot)
  | observed (i : ℕ) (now capturedAt : Instant) (result : StorageResult Unit)
  | cancel

def start (pool : AutoscaledPool) (signals : ℕ) (clock : Instant) : State :=
  { clock, histories := List.replicate signals [], mode := pool.initial, phase := .waiting,
    wakeups := 0 }

/-- A decision is applied to the target, and the dispatcher woken if that moved. -/
def conclude (pool : AutoscaledPool) (s : State) (decision : ScaleDecision) : State :=
  let mode := s.mode.rescale pool decision
  { s with
    mode, phase := .waiting
    wakeups :=
      if mode.desiredConcurrency = s.mode.desiredConcurrency then s.wakeups else s.wakeups + 1 }

def proceed (opts : ScalingOptions) (pool : AutoscaledPool) (s : State) (i : ℕ)
    (ratios : List (ℕ × ℕ)) : State :=
  if i < s.histories.length then { s with phase := .evaluating i ratios }
  else if ratios.isEmpty then conclude pool s .hold
  else if opts.utilized ratios then conclude pool s .scaleUp
  else conclude pool s .hold

def sampled (opts : ScalingOptions) (pool : AutoscaledPool) (s : State) (i : ℕ)
    (ratios : List (ℕ × ℕ)) (samples : List LoadSnapshot) : State :=
  if overloadedNow samples then conclude pool s .scaleDown
  else if max opts.minSamples 1 ≤ samples.length then
    proceed opts pool s (i + 1)
      (ratios ++ [(samples.countP fun sample => !sample.overloaded, samples.length)])
  else proceed opts pool s (i + 1) ratios

def record (kind : HistoryKind) (s : State) (i : ℕ) (snapshot : LoadSnapshot) : State :=
  { s with histories := s.histories.modify i fun history => kind.push history snapshot }

def step (kind : HistoryKind) (opts : ScalingOptions) (pool : AutoscaledPool) (s : State) :
    Event → Option State
  | .tick now =>
    match s.phase with
    | .waiting =>
      if s.clock ≤ now then some (proceed opts pool { s with clock := now } 0 []) else none
    | _ => none
  | .sample now =>
    match s.phase with
    | .evaluating i ratios =>
      if s.clock ≤ now then
        s.histories[i]?.map fun history =>
          sampled opts pool { s with clock := now } i ratios (kind.sample history now opts.window)
      else none
    | _ => none
  | .record i now snapshot =>
    if s.clock ≤ now ∧ snapshot.capturedAt ≤ now then
      some (record kind { s with clock := now } i snapshot)
    else none
  | .observed i now capturedAt result =>
    if s.clock ≤ now ∧ capturedAt ≤ now then
      some (match observe result with
        | some overloaded => record kind { s with clock := now } i { capturedAt, overloaded }
        | none => { s with clock := now })
    else none
  | .cancel =>
    match s.phase with
    | .waiting => some { s with phase := .stopped }
    | _ => none

def Event.recorded (i : ℕ) : Event → Option LoadSnapshot
  | .record j _ snapshot => if j = i then some snapshot else none
  | .observed j _ capturedAt result =>
    if j = i then (observe result).map fun overloaded => { capturedAt, overloaded } else none
  | _ => none

def recorded (es : List Event) (i : ℕ) : List LoadSnapshot := es.filterMap (Event.recorded i)

variable {opts : ScalingOptions} {pool : AutoscaledPool} {s t : State} {e : Event}
  {logs : List (List LoadSnapshot)}

def State.withLogs (s : State) (logs : List (List LoadSnapshot)) : State :=
  { s with histories := logs }

def extend (logs : List (List LoadSnapshot)) (e : Event) : List (List LoadSnapshot) :=
  logs.mapIdx fun i log => log ++ (e.recorded i).toList

/-- Each history keeps what a window may still show of its log. -/
structure Logged (logs : List (List LoadSnapshot)) (s : State) : Prop where
  length : logs.length = s.histories.length
  keeps : ∀ (i : ℕ) (log history : List LoadSnapshot), logs[i]? = some log →
    s.histories[i]? = some history →
    Recent.Keeps historyMaxLen (SnapshotHistory.Aged s.clock) log history

theorem proceed_withLogs (h : logs.length = s.histories.length) (opts : ScalingOptions)
    (pool : AutoscaledPool) (i : ℕ) (ratios : List (ℕ × ℕ)) :
    proceed opts pool (s.withLogs logs) i ratios =
      (proceed opts pool s i ratios).withLogs logs := by
  unfold proceed
  simp only [State.withLogs, h]
  split_ifs <;> rfl

theorem sampled_withLogs (h : logs.length = s.histories.length) (opts : ScalingOptions)
    (pool : AutoscaledPool) (i : ℕ) (ratios : List (ℕ × ℕ)) (samples : List LoadSnapshot) :
    sampled opts pool (s.withLogs logs) i ratios samples =
      (sampled opts pool s i ratios samples).withLogs logs := by
  unfold sampled
  split_ifs
  · rfl
  · exact proceed_withLogs h _ _ _ _
  · exact proceed_withLogs h _ _ _ _

theorem proceed_histories (opts : ScalingOptions) (pool : AutoscaledPool) (s : State) (i : ℕ)
    (ratios : List (ℕ × ℕ)) :
    (proceed opts pool s i ratios).histories = s.histories ∧
      (proceed opts pool s i ratios).clock = s.clock := by
  unfold proceed
  split_ifs <;> exact ⟨rfl, rfl⟩

theorem sampled_histories (opts : ScalingOptions) (pool : AutoscaledPool) (s : State) (i : ℕ)
    (ratios : List (ℕ × ℕ)) (samples : List LoadSnapshot) :
    (sampled opts pool s i ratios samples).histories = s.histories ∧
      (sampled opts pool s i ratios samples).clock = s.clock := by
  unfold sampled
  split_ifs
  · exact ⟨rfl, rfl⟩
  · exact proceed_histories _ _ _ _ _
  · exact proceed_histories _ _ _ _ _

theorem extend_of_none (h : ∀ i, e.recorded i = none) : extend logs e = logs := by
  apply List.ext_getElem?
  intro j
  simp [extend, h]

theorem Logged.later (h : Logged logs s) (hhistories : t.histories = s.histories)
    (hclock : s.clock ≤ t.clock) : Logged logs t := by
  refine ⟨h.length.trans (congrArg List.length hhistories.symm), ?_⟩
  intro i log history hlog hhistory
  rw [hhistories] at hhistory
  exact (h.keeps i log history hlog hhistory).mono fun x hx => lt_of_lt_of_le hx hclock

theorem extend_eq_modify {i : ℕ} {snapshot : LoadSnapshot}
    (h : ∀ j, e.recorded j = if i = j then some snapshot else none) :
    extend logs e = logs.modify i fun log => log ++ [snapshot] := by
  apply List.ext_getElem?
  intro j
  rw [extend, List.getElem?_mapIdx, List.getElem?_modify, h]
  by_cases hij : i = j
  · simp [hij]
  · simp [hij]

theorem Logged.record (h : Logged logs s) {now : Instant} {i : ℕ} {snapshot : LoadSnapshot}
    (hclock : s.clock ≤ now) (hcaptured : snapshot.capturedAt ≤ now)
    (he : ∀ j, e.recorded j = if i = j then some snapshot else none) :
    record .complete ({ s with clock := now }.withLogs logs) i snapshot =
        (record .bounded { s with clock := now } i snapshot).withLogs (extend logs e) ∧
      Logged (extend logs e) (record .bounded { s with clock := now } i snapshot) := by
  rw [extend_eq_modify he]
  refine ⟨rfl, ?_, ?_⟩
  · simp only [Scaler.record, List.length_modify]
    exact h.length
  · intro j log history hlog hhistory
    simp only [Scaler.record, HistoryKind.bounded, List.getElem?_modify, Option.map_eq_map]
      at hlog hhistory
    obtain ⟨old, hold, rfl⟩ := Option.map_eq_some_iff.mp hlog
    obtain ⟨kept, hkept, rfl⟩ := Option.map_eq_some_iff.mp hhistory
    have hkeeps := h.keeps j old kept hold hkept
    by_cases hij : i = j
    · rw [if_pos hij, if_pos hij]
      exact SnapshotHistory.keeps_push hkeeps hclock hcaptured
    · rw [if_neg hij, if_neg hij]
      exact hkeeps.mono fun x hx => lt_of_lt_of_le hx hclock

theorem Logged.step (h : Logged logs s) (hwindow : opts.window ≤ historyMaxAge)
    (hstep : step .bounded opts pool s e = some t) :
    step .complete opts pool (s.withLogs logs) e = some (t.withLogs (extend logs e)) ∧
      Logged (extend logs e) t := by
  cases e with
  | tick now =>
    rw [extend_of_none fun _ => rfl]
    simp only [Scaler.step] at hstep
    split at hstep
    · rename_i hphase
      split_ifs at hstep with hclock
      cases hstep
      have hkept := proceed_histories opts pool { s with clock := now } 0 []
      refine ⟨?_, h.later hkept.1 (hclock.trans hkept.2.ge)⟩
      simp only [Scaler.step, State.withLogs, hphase, if_pos hclock]
      exact congrArg some (proceed_withLogs (s := { s with clock := now }) h.length opts pool 0 [])
    · cases hstep
  | sample now =>
    rw [extend_of_none fun _ => rfl]
    simp only [Scaler.step] at hstep
    split at hstep
    · rename_i i ratios hphase
      split_ifs at hstep with hclock
      obtain ⟨history, hhistory, rfl⟩ := Option.map_eq_some_iff.mp hstep
      have hi : i < logs.length := by
        rw [h.length]
        exact (List.getElem?_eq_some_iff.mp hhistory).1
      have hlog : logs[i]? = some logs[i] := List.getElem?_eq_getElem hi
      have hview := SnapshotHistory.sample_eq_view (h.keeps i _ history hlog hhistory) hclock
        hwindow
      have hkept := sampled_histories opts pool { s with clock := now } i ratios
        (SnapshotHistory.sample history now opts.window)
      refine ⟨?_, h.later hkept.1 (hclock.trans hkept.2.ge)⟩
      have hsame := sampled_withLogs (s := { s with clock := now }) h.length opts pool i ratios
        (SnapshotHistory.sample history now opts.window)
      have hview : HistoryKind.complete.sample logs[i] now opts.window =
          SnapshotHistory.sample history now opts.window := hview.symm
      simp only [Scaler.step, State.withLogs, hphase, if_pos hclock, hlog, Option.map_some, hview]
      exact congrArg some hsame
    · cases hstep
  | record i now snapshot =>
    simp only [Scaler.step] at hstep
    split_ifs at hstep with hnow
    cases hstep
    have hrecord := h.record (e := .record i now snapshot) hnow.1 hnow.2 fun _ => rfl
    exact ⟨(if_pos hnow).trans (congrArg some hrecord.1), hrecord.2⟩
  | observed i now capturedAt result =>
    simp only [Scaler.step] at hstep
    split_ifs at hstep with hnow
    cases hobserved : observe result with
    | none =>
      have hnone : ∀ j, (Event.observed i now capturedAt result).recorded j = none := by
        intro j
        simp only [Event.recorded, hobserved, Option.map_none, ite_self]
      rw [hobserved] at hstep
      cases hstep
      rw [extend_of_none hnone]
      refine ⟨?_, h.later rfl hnow.1⟩
      simp only [Scaler.step, State.withLogs, if_pos hnow, hobserved]
    | some overloaded =>
      rw [hobserved] at hstep
      cases hstep
      have hsome : ∀ j, (Event.observed i now capturedAt result).recorded j =
          if i = j then some { capturedAt, overloaded } else none := by
        intro j
        simp only [Event.recorded, hobserved, Option.map_some]
      have hrecord := h.record hnow.1 hnow.2 hsome
      refine ⟨?_, hrecord.2⟩
      simp only [Scaler.step, State.withLogs, if_pos hnow, hobserved]
      exact congrArg some hrecord.1
  | cancel =>
    rw [extend_of_none fun _ => rfl]
    simp only [Scaler.step] at hstep
    split at hstep
    · rename_i hphase
      cases hstep
      refine ⟨?_, h.later rfl le_rfl⟩
      simp only [Scaler.step, State.withLogs, hphase]
    · cases hstep

structure Scaled (pool : AutoscaledPool) (mode : PoolMode) (desired : ℕ) : Prop where
  mode : mode = .loadSignals desired
  min_le : pool.minConcurrency ≤ desired
  le_max : desired ≤ pool.maxConcurrency

variable {mode : PoolMode} {desired : ℕ}

theorem Scaled.rescale (h : Scaled pool mode desired) (decision : ScaleDecision) :
    Scaled pool (mode.rescale pool decision) (pool.applyScaleDecision desired decision) := by
  obtain ⟨rfl, hmin, hmax⟩ := h
  have hbounds := pool.min_le_max
  refine ⟨rfl, ?_, ?_⟩
  · cases decision with
    | hold => exact hmin
    | scaleUp => exact le_min (hmin.trans (Nat.le_add_right _ _)) (le_max_right _ _)
    | scaleDown => exact le_max_right _ _
  · cases decision with
    | hold => exact hmax
    | scaleUp => exact (min_le_right _ _).trans (max_le le_rfl hbounds)
    | scaleDown => exact max_le ((Nat.sub_le _ _).trans hmax) hbounds

theorem Scaled.conclude (h : Scaled pool s.mode desired) (decision : ScaleDecision) :
    Scaled pool (conclude pool s decision).mode (pool.applyScaleDecision desired decision) :=
  h.rescale decision

theorem scaleDown_lt (pool : AutoscaledPool) (h : pool.minConcurrency ≤ desired) :
    pool.applyScaleDecision desired .scaleDown < desired ∨
      desired = pool.minConcurrency ∧
        pool.applyScaleDecision desired .scaleDown = pool.minConcurrency := by
  have hmin := pool.min_pos
  simp only [AutoscaledPool.applyScaleDecision]
  omega

theorem le_scaleUp (h : desired ≤ pool.maxConcurrency) :
    desired ≤ pool.applyScaleDecision desired .scaleUp :=
  le_min (Nat.le_add_right _ _) (h.trans (le_max_left _ _))

theorem Scaled.proceed (h : Scaled pool s.mode desired) (opts : ScalingOptions) (i : ℕ)
    (ratios : List (ℕ × ℕ)) :
    ∃ desired', Scaled pool (proceed opts pool s i ratios).mode desired' ∧ desired ≤ desired' := by
  unfold Scaler.proceed
  split_ifs
  · exact ⟨desired, h, le_rfl⟩
  · exact ⟨_, h.conclude .hold, le_rfl⟩
  · exact ⟨_, h.conclude .scaleUp, le_scaleUp h.le_max⟩
  · exact ⟨_, h.conclude .hold, le_rfl⟩

theorem Scaled.sampled (h : Scaled pool s.mode desired) (opts : ScalingOptions) (i : ℕ)
    (ratios : List (ℕ × ℕ)) (samples : List LoadSnapshot) :
    ∃ desired', Scaled pool (sampled opts pool s i ratios samples).mode desired' ∧
      if overloadedNow samples then
        desired' < desired ∨ desired = pool.minConcurrency ∧ desired' = pool.minConcurrency
      else desired ≤ desired' := by
  unfold Scaler.sampled
  split_ifs
  · exact ⟨_, h.conclude .scaleDown, scaleDown_lt pool h.min_le⟩
  · exact h.proceed _ _ _
  · exact h.proceed _ _ _

theorem Scaled.step (h : Scaled pool s.mode desired)
    (hstep : step .bounded opts pool s e = some t) :
    ∃ desired', Scaled pool t.mode desired' := by
  cases e with
  | tick now =>
    simp only [Scaler.step] at hstep
    split at hstep
    · split_ifs at hstep
      cases hstep
      obtain ⟨desired', hscaled, -⟩ := Scaled.proceed (s := { s with clock := now }) h opts 0 []
      exact ⟨desired', hscaled⟩
    · cases hstep
  | sample now =>
    simp only [Scaler.step] at hstep
    split at hstep
    · split_ifs at hstep
      obtain ⟨history, -, rfl⟩ := Option.map_eq_some_iff.mp hstep
      obtain ⟨desired', hscaled, -⟩ := Scaled.sampled (s := { s with clock := now }) h opts _ _ _
      exact ⟨desired', hscaled⟩
    · cases hstep
  | record i now snapshot =>
    simp only [Scaler.step] at hstep
    split_ifs at hstep
    cases hstep
    exact ⟨desired, h⟩
  | observed i now capturedAt result =>
    simp only [Scaler.step] at hstep
    split_ifs at hstep
    cases hstep
    split <;> exact ⟨desired, h⟩
  | cancel =>
    simp only [Scaler.step] at hstep
    split at hstep
    · cases hstep
      exact ⟨desired, h⟩
    · cases hstep

end Scaler

end Millipede
