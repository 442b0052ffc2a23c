import Mathlib.Data.Rat.Cast.Order
import Mathlib.Tactic.Linarith
import Mathlib.Tactic.NormNum
import Mathlib.Tactic.Ring
import Millipede.Request

/-!
# The budget of task starts

`TaskRateLimiter`, with exact arithmetic: a bucket that has room for the tasks of one minute,
holds one token at first, and is refilled at the rate of the budget. Time that passes without
a start is saved up in the bucket, so that a minute can see the saved tokens and the new ones.
-/

namespace Millipede

structure TaskRateLimiter where
  capacity : ℚ
  refillPerSec : ℚ
  tokens : ℚ
  lastRefill : Instant

namespace TaskRateLimiter

def asSecs (duration : Duration) : ℚ := duration / 1000000000

def new (maxTasksPerMinute : ℕ) (now : Instant) : TaskRateLimiter where
  capacity := (max maxTasksPerMinute 1 : ℕ)
  refillPerSec := (max maxTasksPerMinute 1 : ℕ) / 60
  tokens := 1
  lastRefill := now

def refill (limiter : TaskRateLimiter) (now : Instant) : TaskRateLimiter :=
  let elapsed := asSecs (now - limiter.lastRefill)
  { limiter with
    tokens := min (limiter.tokens + elapsed * limiter.refillPerSec) limiter.capacity
    lastRefill := now }

def spend (limiter : TaskRateLimiter) : TaskRateLimiter :=
  { limiter with tokens := limiter.tokens - 1 }

def tryAcquire (limiter : TaskRateLimiter) (now : Instant) : Except ℚ Unit × TaskRateLimiter :=
  let limiter := limiter.refill now
  if 1 ≤ limiter.tokens then (.ok (), limiter.spend)
  else (.error ((1 - limiter.tokens) / limiter.refillPerSec), limiter)

def starts (limiter : TaskRateLimiter) : List Instant → List Instant
  | [] => []
  | now :: times =>
    match limiter.tryAcquire now with
    | (.ok (), limiter) => now :: limiter.starts times
    | (.error _, limiter) => limiter.starts times

def minute : Duration := Duration.fromSecs 60

def startsIn (limiter : TaskRateLimiter) (times : List Instant) (window : Instant) : ℕ :=
  ((limiter.starts times).filter fun t => window ≤ t ∧ t < window + minute).length

structure Sound (limiter : TaskRateLimiter) : Prop where
  rate : 0 ≤ limiter.refillPerSec
  empty : 0 ≤ limiter.tokens
  full : limiter.tokens ≤ limiter.capacity

variable {limiter : TaskRateLimiter} {times : List Instant} {now last t : Instant} {n : ℕ}

@[simp] theorem refill_lastRefill (limiter : TaskRateLimiter) (now : Instant) :
    (limiter.refill now).lastRefill = now := rfl

@[simp] theorem refill_refillPerSec (limiter : TaskRateLimiter) (now : Instant) :
    (limiter.refill now).refillPerSec = limiter.refillPerSec := rfl

@[simp] theorem refill_capacity (limiter : TaskRateLimiter) (now : Instant) :
    (limiter.refill now).capacity = limiter.capacity := rfl

@[simp] theorem spend_lastRefill (limiter : TaskRateLimiter) :
    limiter.spend.lastRefill = limiter.lastRefill := rfl

@[simp] theorem spend_refillPerSec (limiter : TaskRateLimiter) :
    limiter.spend.refillPerSec = limiter.refillPerSec := rfl

@[simp] theorem spend_tokens (limiter : TaskRateLimiter) :
    limiter.spend.tokens = limiter.tokens - 1 := rfl

@[simp] theorem spend_capacity (limiter : TaskRateLimiter) :
    limiter.spend.capacity = limiter.capacity := rfl

theorem starts_nil (limiter : TaskRateLimiter) : limiter.starts [] = [] := rfl

section
-- the equation lemmas of `starts` would compute with the level of the bucket
attribute [local irreducible] tryAcquire

theorem starts_cons (limiter : TaskRateLimiter) (now : Instant) (times : List Instant) :
    limiter.starts (now :: times) = match limiter.tryAcquire now with
      | (.ok (), limiter) => now :: limiter.starts times
      | (.error _, limiter) => limiter.starts times := rfl

end

theorem asSecs_nonneg (duration : Duration) : 0 ≤ asSecs duration :=
  div_nonneg (Nat.cast_nonneg _) (by norm_num)

theorem asSecs_sub_add_sub {a b c : Instant} (hab : a ≤ b) (hbc : b ≤ c) :
    asSecs (b - a) + asSecs (c - b) = asSecs (c - a) := by
  simp only [asSecs, Instant] at *
  rw [Nat.cast_sub hab, Nat.cast_sub hbc, Nat.cast_sub (hab.trans hbc)]
  ring

theorem asSecs_le {d d' : Duration} (h : d ≤ d') : asSecs d ≤ asSecs d' :=
  div_le_div_of_nonneg_right (Nat.cast_le.mpr h) (by norm_num)

theorem sound_new (n : ℕ) (now : Instant) : (new n now).Sound where
  rate := div_nonneg (Nat.cast_nonneg _) (by norm_num)
  empty := by simp [new]
  full := by simp [new]

theorem Sound.refill (h : limiter.Sound) (now : Instant) : (limiter.refill now).Sound where
  rate := h.rate
  empty := by
    refine le_min ?_ (h.empty.trans h.full)
    exact add_nonneg h.empty (mul_nonneg (asSecs_nonneg _) h.rate)
  full := min_le_right _ _

theorem Sound.refill_refill (h : limiter.Sound) (now : Instant) :
    (limiter.refill now).refill now = limiter.refill now := by
  have hfull := (h.refill now).full
  simp only [TaskRateLimiter.refill, Nat.sub_self, asSecs] at hfull ⊢
  simp

theorem tryAcquire_cases (limiter : TaskRateLimiter) (now : Instant) :
    (1 ≤ (limiter.refill now).tokens ∧
      limiter.tryAcquire now = (.ok (), (limiter.refill now).spend)) ∨
    (limiter.refill now).tokens < 1 ∧ ∃ wait,
      limiter.tryAcquire now = (.error wait, limiter.refill now) := by
  simp only [tryAcquire]
  split_ifs with h
  · exact .inl ⟨h, rfl⟩
  · exact .inr ⟨not_le.mp h, _, rfl⟩

theorem Sound.spend (h : limiter.Sound) (htoken : 1 ≤ limiter.tokens) : limiter.spend.Sound where
  rate := h.rate
  empty := sub_nonneg.mpr htoken
  full := (sub_le_self _ zero_le_one).trans h.full

theorem starts_refill (h : limiter.Sound) :
    (limiter.refill now).starts (now :: times) = limiter.starts (now :: times) := by
  have htry : (limiter.refill now).tryAcquire now = limiter.tryAcquire now := by
    rw [tryAcquire, h.refill_refill, tryAcquire]
  rw [starts_cons, htry, starts_cons]

theorem mem_of_mem_starts (h : t ∈ limiter.starts times) : t ∈ times := by
  induction times generalizing limiter with
  | nil => exact h
  | cons now times ih =>
    rw [starts_cons] at h
    split at h
    · rcases List.mem_cons.mp h with rfl | h
      · exact List.mem_cons_self
      · exact List.mem_cons_of_mem _ (ih h)
    · exact List.mem_cons_of_mem _ (ih h)

theorem le_of_mem_starts (hsorted : (now :: times).Pairwise (· ≤ ·))
    (h : t ∈ limiter.starts (now :: times)) : now ≤ t := by
  rcases List.mem_cons.mp (mem_of_mem_starts h) with rfl | h
  · exact le_rfl
  · exact (List.pairwise_cons.mp hsorted).1 t h

theorem starts_eq_nil_of_lt (hsorted : (now :: times).Pairwise (· ≤ ·)) (h : last < now) :
    (limiter.starts (now :: times)).filter (· ≤ last) = [] := by
  refine List.filter_eq_nil_iff.mpr ?_
  intro t ht
  simpa using h.trans_le (le_of_mem_starts hsorted ht)

theorem starts_le (h : limiter.Sound) (hall : times.Pairwise (· ≤ ·))
    (hfrom : ∀ t ∈ times, limiter.lastRefill ≤ t) (hlast : limiter.lastRefill ≤ last) :
    (((limiter.starts times).filter (· ≤ last)).length : ℚ) ≤
      limiter.tokens + asSecs (last - limiter.lastRefill) * limiter.refillPerSec := by
  induction times generalizing limiter with
  | nil =>
    have hempty := h.empty
    have hrate := mul_nonneg (asSecs_nonneg (last - limiter.lastRefill)) h.rate
    simp only [starts_nil, List.filter_nil, List.length_nil, Nat.cast_zero]
    linarith
  | cons now times ih =>
    obtain ⟨hlater, hsorted⟩ := List.pairwise_cons.mp hall
    have hnow : limiter.lastRefill ≤ now := hfrom now List.mem_cons_self
    by_cases hle : now ≤ last
    · have hlevel : (limiter.refill now).tokens ≤
          limiter.tokens + asSecs (now - limiter.lastRefill) * limiter.refillPerSec :=
        min_le_left _ _
      have htime := asSecs_sub_add_sub hnow hle
      have hsplit : asSecs (last - limiter.lastRefill) * limiter.refillPerSec =
          asSecs (now - limiter.lastRefill) * limiter.refillPerSec +
            asSecs (last - now) * limiter.refillPerSec := by
        rw [← htime]
        ring
      rcases tryAcquire_cases limiter now with ⟨htoken, heq⟩ | ⟨-, wait, heq⟩
      · have hrest := ih ((h.refill now).spend htoken) hsorted hlater hle
        rw [starts_cons, heq]
        simp only [List.filter_cons, decide_eq_true hle, if_true, List.length_cons, Nat.cast_add,
          Nat.cast_one]
        simp only [spend_tokens, spend_refillPerSec, spend_lastRefill, refill_refillPerSec,
          refill_lastRefill] at hrest
        linarith
      · have hrest := ih (h.refill now) hsorted hlater hle
        simp only [refill_refillPerSec, refill_lastRefill] at hrest
        rw [starts_cons, heq]
        linarith
    · have hempty := h.empty
      have hrate := mul_nonneg (asSecs_nonneg (last - limiter.lastRefill)) h.rate
      rw [starts_eq_nil_of_lt hall (not_le.mp hle), List.length_nil, Nat.cast_zero]
      linarith

/-- Whatever was saved up before a window is at most the capacity. -/
theorem starts_window_le (h : limiter.Sound) (hall : times.Pairwise (· ≤ ·))
    (window last : Instant) :
    (((limiter.starts times).filter fun t => window ≤ t ∧ t ≤ last).length : ℚ) ≤
      limiter.capacity + asSecs (last - window) * limiter.refillPerSec := by
  have hspare : (0 : ℚ) ≤ limiter.capacity + asSecs (last - window) * limiter.refillPerSec :=
    add_nonneg (h.empty.trans h.full) (mul_nonneg (asSecs_nonneg _) h.rate)
  induction times generalizing limiter with
  | nil => simpa [starts_nil] using hspare
  | cons now times ih =>
    obtain ⟨hlater, hsorted⟩ := List.pairwise_cons.mp hall
    by_cases hbefore : now < window
    · -- not in the window: the next call has a bucket of the same size
      have hout : ¬ (window ≤ now ∧ now ≤ last) := fun hin => absurd hin.1 (not_le.mpr hbefore)
      rcases tryAcquire_cases limiter now with ⟨htoken, heq⟩ | ⟨-, wait, heq⟩
      · rw [starts_cons, heq]
        simp only [List.filter_cons, decide_eq_false hout, Bool.false_eq_true, if_false]
        exact ih ((h.refill now).spend htoken) hsorted hspare
      · rw [starts_cons, heq]
        exact ih (h.refill now) hsorted hspare
    · have hin : window ≤ now := not_lt.mp hbefore
      have hfilter : ((limiter.starts (now :: times)).filter fun t => window ≤ t ∧ t ≤ last) =
          (limiter.starts (now :: times)).filter (· ≤ last) := by
        refine List.filter_congr fun t ht => ?_
        have hge : now ≤ t := le_of_mem_starts hall ht
        simp [hin.trans hge]
      rw [hfilter]
      by_cases hle : now ≤ last
      · rw [← starts_refill h]
        have hpaid := starts_le (h.refill now) hall
          (List.forall_mem_cons.mpr ⟨le_rfl, hlater⟩) hle
        have hfull := (h.refill now).full
        have htime := mul_le_mul_of_nonneg_right (asSecs_le (Nat.sub_le_sub_left hin last)) h.rate
        simp only [refill_refillPerSec, refill_lastRefill, refill_capacity] at hpaid hfull
        linarith
      · rw [starts_eq_nil_of_lt hall (not_le.mp hle), List.length_nil, Nat.cast_zero]
        exact hspare

theorem minute_eq : minute = 60000000000 := by
  norm_num [minute, Duration.fromSecs]

theorem minute_pos : 0 < minute := by
  norm_num [minute, Duration.fromSecs]

theorem sub_one_lt_minute (window : Instant) {rate : ℚ} (hrate : 0 < rate) :
    asSecs (window + minute - 1 - window) * rate < 60 * rate := by
  refine mul_lt_mul_of_pos_right ?_ hrate
  have hlength : window + minute - 1 - window = minute - 1 := by
    rw [Nat.add_sub_assoc minute_pos, Nat.add_sub_cancel_left]
  rw [hlength, asSecs, Nat.cast_sub minute_pos, minute_eq]
  norm_num

theorem startsIn_eq (limiter : TaskRateLimiter) (times : List Instant) (window : Instant) :
    limiter.startsIn times window =
      ((limiter.starts times).filter fun t => window ≤ t ∧ t ≤ window + minute - 1).length := by
  rw [startsIn]
  congr 1
  refine List.filter_congr fun t _ => ?_
  have hlast : t ≤ window + minute - 1 ↔ t < window + minute :=
    Nat.le_sub_one_iff_lt (Nat.add_pos_right window minute_pos)
  rw [decide_eq_decide, hlast]

theorem new_capacity (hn : 1 ≤ n) (created : Instant) : (new n created).capacity = n := by
  simp [new, hn]

theorem new_refillPerSec (hn : 1 ≤ n) (created : Instant) :
    (new n created).refillPerSec = n / 60 := by
  simp [new, hn]

theorem startsIn_le (hn : 1 ≤ n) (created : Instant) (hall : times.Pairwise (· ≤ ·))
    (window : Instant) :
    (new n created).startsIn times window ≤ 2 * n - 1 := by
  have hle := starts_window_le (sound_new n created) hall window (window + minute - 1)
  have hrate : (0 : ℚ) < n / 60 := div_pos (Nat.cast_pos.mpr hn) (by norm_num)
  have hlt := sub_one_lt_minute window hrate
  rw [← startsIn_eq, new_capacity hn, new_refillPerSec hn] at hle
  have hsum : ((new n created).startsIn times window : ℚ) < (2 * n : ℕ) := by
    push_cast
    linarith
  exact Nat.le_sub_one_of_lt (Nat.cast_lt.mp hsum)

theorem startsIn_first (hn : 1 ≤ n) {created : Instant} (hall : times.Pairwise (· ≤ ·))
    (hfrom : ∀ t ∈ times, created ≤ t) : (new n created).startsIn times created ≤ n := by
  have hwindow : created ≤ created + minute - 1 := Nat.le_sub_one_of_lt
    (Nat.lt_add_of_pos_right minute_pos)
  have hle := starts_le (sound_new n created) hall hfrom hwindow
  have hrate : (0 : ℚ) < n / 60 := div_pos (Nat.cast_pos.mpr hn) (by norm_num)
  have hlt := sub_one_lt_minute created hrate
  have hfilter : ((new n created).starts times).filter (· ≤ created + minute - 1) =
      ((new n created).starts times).filter
        fun t => created ≤ t ∧ t ≤ created + minute - 1 := by
    refine List.filter_congr fun t ht => ?_
    simp [hfrom t (mem_of_mem_starts ht)]
  rw [hfilter, ← startsIn_eq, new_refillPerSec hn] at hle
  have htokens : (new n created).tokens = 1 := rfl
  have hlast : (new n created).lastRefill = created := rfl
  rw [htokens, hlast] at hle
  have hsum : ((new n created).startsIn times created : ℚ) < (n + 1 : ℕ) := by
    push_cast
    linarith
  exact Nat.le_of_lt_succ (Nat.cast_lt.mp hsum)

theorem Sound.refill_self (h : limiter.Sound) : limiter.refill limiter.lastRefill = limiter := by
  simp only [TaskRateLimiter.refill, Nat.sub_self, asSecs]
  simp [h.full]

theorem spend_iterate (limiter : TaskRateLimiter) (k : ℕ) :
    spend^[k] limiter = { limiter with tokens := limiter.tokens - k } := by
  induction k with
  | zero => simp
  | succ k ih =>
    rw [Function.iterate_succ_apply', ih, spend]
    push_cast
    rw [sub_sub]

theorem starts_replicate (h : limiter.Sound) {k : ℕ} (hk : (k : ℚ) ≤ limiter.tokens)
    (rest : List Instant) :
    limiter.starts (List.replicate k limiter.lastRefill ++ rest) =
      List.replicate k limiter.lastRefill ++ (spend^[k] limiter).starts rest := by
  induction k generalizing limiter with
  | zero => rfl
  | succ k ih =>
    push_cast at hk
    have hk0 : (0 : ℚ) ≤ k := Nat.cast_nonneg k
    have hone : 1 ≤ limiter.tokens := by linarith
    have hrest := ih (h.spend hone) (by rw [spend_tokens]; linarith)
    rw [spend_lastRefill] at hrest
    rw [List.replicate_succ, List.cons_append, starts_cons, tryAcquire, h.refill_self, if_pos hone,
      List.cons_append, Function.iterate_succ_apply]
    exact congrArg _ hrest

def saved (n : ℕ) : List Instant :=
  List.replicate n minute ++ List.replicate (n - 1) (2 * minute - 1)

theorem refill_minute (hn : 1 ≤ n) : ((new n 0).refill minute).tokens = n := by
  have htokens : (new n 0).tokens = 1 := rfl
  have hlast : (new n 0).lastRefill = 0 := rfl
  have hn' : (1 : ℚ) ≤ n := by exact_mod_cast hn
  simp only [refill, htokens, hlast, new_refillPerSec hn, new_capacity hn, asSecs, Nat.sub_zero,
    minute_eq]
  refine min_eq_right ?_
  push_cast
  linarith

/-- At the end of a minute that begins with an empty bucket one token is missing at most. -/
theorem refill_minute_end (hn : 1 ≤ n) (hu32 : n < 2 ^ 32) (h : limiter.capacity = n)
    (hrate : limiter.refillPerSec = n / 60) (hempty : limiter.tokens = 0)
    (hlast : limiter.lastRefill = minute) :
    ((n - 1 : ℕ) : ℚ) ≤ (limiter.refill (2 * minute - 1)).tokens := by
  have hu32' : (n : ℚ) < 2 ^ 32 := by exact_mod_cast hu32
  have htime : 2 * minute - 1 - minute = minute - 1 := by
    rw [two_mul, Nat.add_sub_assoc minute_pos, Nat.add_sub_cancel_left]
  simp only [refill, h, hrate, hempty, hlast, htime, asSecs]
  rw [Nat.cast_sub hn, Nat.cast_sub minute_pos, minute_eq]
  refine le_min ?_ ?_
  · push_cast
    linarith
  · push_cast
    linarith

theorem starts_saved (hn : 1 ≤ n) (hu32 : n < 2 ^ 32) :
    (new n 0).starts (saved n) = saved n := by
  have hfull := (sound_new n 0).refill minute
  have hlevel := refill_minute hn
  have hfirst : (new n 0).starts (saved n) = List.replicate n minute ++
      (spend^[n] ((new n 0).refill minute)).starts (List.replicate (n - 1) (2 * minute - 1)) := by
    have hall := starts_replicate hfull hlevel.ge (List.replicate (n - 1) (2 * minute - 1))
    rw [refill_lastRefill] at hall
    rw [← hall]
    obtain ⟨k, rfl⟩ := Nat.exists_eq_add_of_le' hn
    simp only [saved, List.replicate_succ, List.cons_append]
    exact (starts_refill (sound_new _ 0)).symm
  rw [hfirst, saved]
  congr 1
  generalize hk : n - 1 = k
  cases k with
  | zero => rfl
  | succ k =>
    have hspent := spend_iterate ((new n 0).refill minute) n
    have hsound : (spend^[n] ((new n 0).refill minute)).Sound := by
      rw [hspent]
      exact ⟨hfull.rate, by simp [hlevel], by simp [hlevel, refill_capacity, new_capacity hn]⟩
    have hend : ((n - 1 : ℕ) : ℚ) ≤
        ((spend^[n] ((new n 0).refill minute)).refill (2 * minute - 1)).tokens := by
      refine refill_minute_end hn hu32 ?_ ?_ ?_ ?_
      · rw [hspent]
        exact new_capacity hn 0
      · rw [hspent]
        exact new_refillPerSec hn 0
      · rw [hspent]
        simp [hlevel]
      · rw [hspent]
        rfl
    rw [hk] at hend
    have hall := starts_replicate (hsound.refill (2 * minute - 1)) hend []
    rw [List.append_nil, refill_lastRefill] at hall
    rw [List.replicate_succ, ← starts_refill hsound, ← List.replicate_succ, hall]
    simp [starts_nil]

theorem saved_sorted (n : ℕ) : (saved n).Pairwise (· ≤ ·) := by
  have hle : minute ≤ 2 * minute - 1 := by
    rw [two_mul, Nat.add_sub_assoc minute_pos]
    exact Nat.le_add_right _ _
  refine List.pairwise_append.mpr ⟨List.pairwise_replicate.mpr (.inr le_rfl),
    List.pairwise_replicate.mpr (.inr le_rfl), ?_⟩
  intro a ha b hb
  rw [List.eq_of_mem_replicate ha, List.eq_of_mem_replicate hb]
  exact hle

theorem startsIn_saved (hn : 1 ≤ n) (hu32 : n < 2 ^ 32) :
    (new n 0).startsIn (saved n) minute = 2 * n - 1 := by
  rw [startsIn, starts_saved hn hu32]
  have hall : ∀ t ∈ saved n, minute ≤ t ∧ t < minute + minute := by
    intro t ht
    rcases List.mem_append.mp ht with ht | ht
    · rw [List.eq_of_mem_replicate ht]
      exact ⟨le_rfl, Nat.lt_add_of_pos_right minute_pos⟩
    · rw [List.eq_of_mem_replicate ht, two_mul]
      refine ⟨?_, Nat.sub_lt (Nat.add_pos_right _ minute_pos) Nat.one_pos⟩
      rw [Nat.add_sub_assoc minute_pos]
      exact Nat.le_add_right _ _
  rw [List.filter_eq_self.mpr fun t ht => decide_eq_true (hall t ht)]
  simp only [saved, List.length_append, List.length_replicate]
  omega

/-- A budget of `n` task starts a minute lets at most `2 * n - 1` of them happen in any minute,
and at most `n` in the first one. For every `n` there are calls that reach the bound. -/
theorem starts_per_minute {n : ℕ} (hn : 1 ≤ n) (hu32 : n < 2 ^ 32) :
    (∀ created times, times.Pairwise (· ≤ ·) → (∀ t ∈ times, created ≤ t) →
      (∀ window, (new n created).startsIn times window ≤ 2 * n - 1) ∧
        (new n created).startsIn times created ≤ n) ∧
    ∃ times window, times.Pairwise (· ≤ ·) ∧
      (new n 0).startsIn times window = 2 * n - 1 := by
  refine ⟨?_, saved n, minute, saved_sorted n, startsIn_saved hn hu32⟩
  intro created times hall hfrom
  exact ⟨startsIn_le hn created hall, startsIn_first hn hall hfrom⟩

theorem starts_per_minute_two : (∀ created times, times.Pairwise (· ≤ ·) →
    (∀ t ∈ times, created ≤ t) → (∀ window, (new 2 created).startsIn times window ≤ 3) ∧
      (new 2 created).startsIn times created ≤ 2) ∧
    ∃ times window, times.Pairwise (· ≤ ·) ∧ (new 2 0).startsIn times window = 3 :=
  starts_per_minute (n := 2) (by decide) (by decide)

/-- With a budget of two, three tasks start between the ends of the first two minutes. -/
theorem three_starts_of_two : ([60000000000, 60000000000, 90000000000].Pairwise (· ≤ ·)) ∧
    (new 2 0).startsIn [60000000000, 60000000000, 90000000000] 60000000000 = 3 ∧ 2 < 3 := by
  decide +kernel

end TaskRateLimiter

end Millipede
