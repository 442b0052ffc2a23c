import Mathlib.Data.List.Basic
import Millipede.Request

/-!
# Sessions and the session pool

`Session` with the state that decides whether it can be used, and `SessionPool::session`
without a sticky session, as `HttpKind` and the browser kind call it. A checkout holds the
pool's lock while it looks at the sessions one by one; their scores may change in between, so
it is three kinds of steps: taking the lock, looking at the next session, and choosing. A
session is known by its number among all sessions ever made. Times are wall-clock readings.
-/

namespace Millipede.Sessions

structure SessionConfig where
  maxErrorScoreScaled : ℕ := 3000
  errorScoreDecrementScaled : ℕ := 500
  maxUsageCount : ℕ := 50
  maxAge : Duration := Duration.fromSecs 3000

structure SessionPoolOptions where
  maxPoolSize : ℕ := 1000
  sessionConfig : SessionConfig := {}

structure Session where
  errorScoreScaled : ℕ
  usageCount : ℕ
  retired : Bool
  expiresAt : Instant

def u32Max : ℕ := 2 ^ 32 - 1

namespace Session

def new (config : SessionConfig) (now : Instant) : Session := ⟨0, 0, false, now + config.maxAge⟩

def recordUsage (s : Session) : Session := { s with usageCount := min (s.usageCount + 1) u32Max }

def isUsable (config : SessionConfig) (now : Instant) (s : Session) : Bool :=
  !s.retired && decide (now < s.expiresAt) &&
    decide (s.errorScoreScaled < config.maxErrorScoreScaled) &&
    decide (s.usageCount < config.maxUsageCount)

def markGood (config : SessionConfig) (s : Session) : Session :=
  { s with errorScoreScaled := s.errorScoreScaled - config.errorScoreDecrementScaled }

def markBad (s : Session) : Session :=
  { s with errorScoreScaled := min (s.errorScoreScaled + 1000) u32Max }

def retire (s : Session) : Session := { s with retired := true }

end Session

/-- What anybody who has a session may do to it. -/
inductive Action where
  | markGood
  | markBad
  | retire
  | recordUsage

def Action.apply (config : SessionConfig) : Action → Session → Session
  | .markGood => Session.markGood config
  | .markBad => Session.markBad
  | .retire => Session.retire
  | .recordUsage => Session.recordUsage

structure Checkout where
  /-- The slot of the attempt that checks out, or somebody else. -/
  holder : Option ℕ
  unread : List ℕ
  kept : List ℕ

structure Pool where
  made : List Session
  sessions : List ℕ
  checkout : Option Checkout

namespace Pool

def new : Pool := ⟨[], [], none⟩

def touch (p : Pool) (config : SessionConfig) (action : Action) (n : ℕ) : Pool :=
  { p with made := p.made.modify n (action.apply config) }

def lock (p : Pool) (holder : Option ℕ) : Option Pool :=
  if p.checkout.isNone then some { p with checkout := some ⟨holder, p.sessions, []⟩ } else none

def look (p : Pool) (config : SessionConfig) (now : Instant) : Option Pool :=
  match p.checkout with
  | some ⟨holder, n :: unread, kept⟩ =>
    let usable := (p.made[n]?).any (Session.isUsable config now)
    some { p with checkout := some ⟨holder, unread, if usable then kept ++ [n] else kept⟩ }
  | _ => none

def make (p : Pool) (config : SessionConfig) (now : Instant) : Pool :=
  { p with made := p.made ++ [(Session.new config now).recordUsage] }

/-- All sessions have been looked at: a new one while there is room, else one at random. `draw`
is `rand_u64`. -/
def choose (p : Pool) (opts : SessionPoolOptions) (now : Instant) (draw : ℕ) :
    Option (ℕ × Pool) :=
  match p.checkout with
  | some ⟨_, [], kept⟩ =>
    let p := { p with checkout := none }
    let fresh := p.made.length
    if kept.length < opts.maxPoolSize then
      some (fresh, { p.make opts.sessionConfig now with sessions := kept ++ [fresh] })
    else
      match kept[draw % kept.length]? with
      | none => some (fresh, { p.make opts.sessionConfig now with sessions := kept })
      | some n =>
        some (n, { p.touch opts.sessionConfig .recordUsage n with sessions := kept })
  | _ => none

/-- A checkout that is dropped leaves the sessions as they were. -/
def release (p : Pool) (slot : ℕ) : Pool :=
  match p.checkout with
  | some c => if c.holder = some slot then { p with checkout := none } else p
  | none => p

def restore (p : Pool) (sessions : List Session) : Option Pool :=
  if p.checkout.isNone then
    some { p with
      made := p.made ++ sessions
      sessions := List.range' p.made.length sessions.length }
  else none

structure Bounded (p : Pool) : Prop where
  sessions : ∀ n ∈ p.sessions, n < p.made.length
  unread : ∀ c, p.checkout = some c → ∀ n ∈ c.unread, n < p.made.length
  kept : ∀ c, p.checkout = some c → ∀ n ∈ c.kept, n < p.made.length

theorem bounded_new : Bounded new :=
  ⟨fun _ hn => (nomatch hn), fun _ hc => (nomatch hc), fun _ hc => (nomatch hc)⟩

@[simp] theorem length_touch (p : Pool) (config : SessionConfig) (action : Action) (n : ℕ) :
    (p.touch config action n).made.length = p.made.length := by
  simp [touch]

theorem Bounded.touch {p : Pool} (h : Bounded p) (config : SessionConfig) (action : Action)
    (n : ℕ) : Bounded (p.touch config action n) := by
  refine ⟨?_, ?_, ?_⟩
  · rw [length_touch]
    exact h.sessions
  · rw [length_touch]
    exact h.unread
  · rw [length_touch]
    exact h.kept

theorem Bounded.lock {p q : Pool} {holder : Option ℕ} (h : Bounded p)
    (hlock : p.lock holder = some q) : Bounded q ∧ q.made = p.made := by
  simp only [Pool.lock] at hlock
  split at hlock
  · cases hlock
    refine ⟨⟨h.sessions, ?_, ?_⟩, rfl⟩
    · rintro c hc
      cases hc
      exact h.sessions
    · rintro c hc n hn
      cases hc
      cases hn
  · cases hlock

theorem Bounded.look {p q : Pool} {config : SessionConfig} {now : Instant} (h : Bounded p)
    (hlook : p.look config now = some q) : Bounded q ∧ q.made = p.made := by
  simp only [Pool.look] at hlook
  split at hlook
  · rename_i holder n unread kept hc
    cases hlook
    refine ⟨⟨h.sessions, ?_, ?_⟩, rfl⟩
    · rintro c hc'
      cases hc'
      exact fun m hm => h.unread _ hc m (List.mem_cons_of_mem _ hm)
    · rintro c hc' m hm
      cases hc'
      simp only at hm
      split at hm
      · rcases List.mem_append.mp hm with hold | hnew
        · exact h.kept _ hc m hold
        · rw [List.mem_singleton.mp hnew]
          exact h.unread _ hc n List.mem_cons_self
      · exact h.kept _ hc m hm
  · cases hlook

theorem Bounded.release {p : Pool} (h : Bounded p) (slot : ℕ) : Bounded (p.release slot) := by
  simp only [Pool.release]
  split
  · split
    · exact ⟨h.sessions, fun _ hc => (nomatch hc), fun _ hc => (nomatch hc)⟩
    · exact h
  · exact h

@[simp] theorem made_release (p : Pool) (slot : ℕ) : (p.release slot).made = p.made := by
  simp only [Pool.release]
  split
  · split <;> rfl
  · rfl

theorem bounded_restore {p q : Pool} {sessions : List Session}
    (hr : p.restore sessions = some q) : Bounded q ∧ p.made.length ≤ q.made.length := by
  simp only [Pool.restore] at hr
  split at hr
  · rename_i hnone
    cases hr
    have hno : p.checkout = none := Option.isNone_iff_eq_none.mp hnone
    refine ⟨⟨?_, ?_, ?_⟩, ?_⟩
    · intro n hn
      simp only [List.mem_range'_1] at hn
      simp only [List.length_append]
      omega
    · intro c hc
      rw [hno] at hc
      cases hc
    · intro c hc
      rw [hno] at hc
      cases hc
    · simp
  · cases hr

theorem choose_cases {p q : Pool} {opts : SessionPoolOptions} {now : Instant} {draw n : ℕ}
    (h : p.choose opts now draw = some (n, q)) :
    ∃ holder kept, p.checkout = some ⟨holder, [], kept⟩ ∧ q.checkout = none ∧
      ((n = p.made.length ∧ q.made.length = p.made.length + 1 ∧
          ∀ m ∈ q.sessions, m ∈ kept ∨ m = n) ∨
        (n ∈ kept ∧ opts.maxPoolSize ≤ kept.length ∧ q.made.length = p.made.length ∧
          q.sessions = kept)) := by
  simp only [Pool.choose] at h
  split at h
  · rename_i holder kept hc
    refine ⟨holder, kept, hc, ?_⟩
    split at h
    · cases h
      refine ⟨rfl, .inl ⟨rfl, by simp [make], ?_⟩⟩
      intro m hm
      simpa using hm
    · rename_i hfull
      split at h
      · cases h
        exact ⟨rfl, .inl ⟨rfl, by simp [make], fun m hm => .inl hm⟩⟩
      · rename_i m hm
        cases h
        exact ⟨rfl, .inr ⟨List.mem_of_getElem? hm, not_lt.mp hfull, length_touch _ _ _ _, rfl⟩⟩
  · cases h

/-- In a full pool every session found usable may be given again. -/
theorem exists_choose {p : Pool} {opts : SessionPoolOptions} {holder : Option ℕ} {kept : List ℕ}
    {n : ℕ} (hc : p.checkout = some ⟨holder, [], kept⟩) (hn : n ∈ kept)
    (hfull : opts.maxPoolSize ≤ kept.length) (now : Instant) :
    ∃ draw q, p.choose opts now draw = some (n, q) := by
  obtain ⟨i, hi, rfl⟩ := List.mem_iff_getElem.mp hn
  have hget : kept[i % kept.length]? = some kept[i] := by
    rw [Nat.mod_eq_of_lt hi]
    exact List.getElem?_eq_getElem hi
  exact ⟨i, { p.touch opts.sessionConfig .recordUsage kept[i] with
    checkout := none, sessions := kept }, by
      simp [Pool.choose, hc, if_neg (not_lt.mpr hfull), hget, touch]⟩

theorem Bounded.choose {p q : Pool} {opts : SessionPoolOptions} {now : Instant} {draw n : ℕ}
    (h : Bounded p) (hchoose : p.choose opts now draw = some (n, q)) :
    Bounded q ∧ p.made.length ≤ q.made.length ∧ n < q.made.length := by
  obtain ⟨holder, kept, hc, hnone, ⟨rfl, hmade, hsub⟩ | ⟨hmem, -, hmade, hsub⟩⟩ :=
    choose_cases hchoose
  · refine ⟨⟨?_, ?_, ?_⟩, by omega, by omega⟩
    · intro m hm
      rcases hsub m hm with hold | hnew
      · have := h.kept _ hc m hold
        omega
      · omega
    · intro c hc'
      rw [hnone] at hc'
      cases hc'
    · intro c hc'
      rw [hnone] at hc'
      cases hc'
  · have hlt := h.kept _ hc n hmem
    refine ⟨⟨?_, ?_, ?_⟩, by omega, by omega⟩
    · intro m hm
      rw [hsub] at hm
      have := h.kept _ hc m hm
      omega
    · intro c hc'
      rw [hnone] at hc'
      cases hc'
    · intro c hc'
      rw [hnone] at hc'
      cases hc'

end Pool

end Millipede.Sessions
