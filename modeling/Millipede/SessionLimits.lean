import Millipede.Library.Machine
import Millipede.Sessions

/-!
# Limits of the session pool

All that is done to a session pool and its sessions, in any order: `session` with and without
a sticky session, `retire_session`, `persist` and `restore`, and what those who hold a session
do to it. `session` and `persist` ask the sessions one by one under the lock of the pool, so
each is a step for every question. A call may be dropped wherever it waits.

Snapshots are read and written through a store that others may use; `Written` says where a
snapshot can come from.
-/

namespace Millipede.SessionLimits
open Sessions (Pool Session SessionConfig SessionPoolOptions Action)

variable {Id : Type*}

structure PersistedSession (Id : Type*) where
  id : Id
  session : Session

inductive Sticky where
  | none
  | found (n : ℕ)
  | usable (n : ℕ)

structure Handed where
  number : ℕ
  /-- Whether the session existed before the call. -/
  retained : Bool
  /-- The session as the call found it. -/
  checked : Option Session

structure State (Id : Type*) where
  pool : Pool
  /-- The identifiers of the sessions made. -/
  ids : List Id
  sticky : Sticky
  /-- What `persist` has to ask and what it has been told. -/
  saving : Option (List ℕ × List (PersistedSession Id))
  written : List (List (PersistedSession Id))
  /-- The sessions that the call has found usable, as they were then. -/
  looked : List (ℕ × Session)
  handed : List Handed

def start : State Id := ⟨.new, [], .none, none, [], [], []⟩

inductive Event (Id : Type*) where
  | session (sticky : Option Id)
  /-- The sticky session is asked. -/
  | ask (now : Instant)
  | stick
  | look (now : Instant)
  | choose (now : Instant) (draw : ℕ) (generated : Id)
  /-- A call is dropped, before or after it has thrown out what is not usable. -/
  | drop (retained : Bool)
  | retireSession (id : Id)
  | persist
  | save
  | saved
  /-- A snapshot is restored but for the entries whose cookies are corrupt. -/
  | restore (snapshot : List (PersistedSession Id)) (readable : PersistedSession Id → Bool)
  | touch (n : ℕ) (action : Action)

namespace State

def unlocked (s : State Id) : Bool := s.pool.checkout.isNone && s.saving.isNone

def find [DecidableEq Id] (s : State Id) (id : Id) : Option ℕ :=
  s.pool.sessions.find? fun n => s.ids[n]? == some id

def check (s : State Id) (config : SessionConfig) (now : Instant) (n : ℕ) : Option Session :=
  (s.pool.made[n]?).filter (Session.isUsable config now)

def note (s : State Id) (n : ℕ) : Option Session → List (ℕ × Session)
  | some session => (n, session) :: s.looked
  | none => s.looked

end State

def step [DecidableEq Id] (opts : SessionPoolOptions) (s : State Id) : Event Id → Option (State Id)
  | .session sticky =>
    if s.unlocked then
      (s.pool.lock none).map fun pool =>
        { s with
          pool
          sticky := (sticky.bind s.find).elim .none .found
          looked := [] }
    else none
  | .ask now =>
    match s.sticky with
    | .found n =>
      let checked := s.check opts.sessionConfig now n
      some { s with
        sticky := if checked.isSome then .usable n else .none
        looked := s.note n checked }
    | _ => none
  | .stick =>
    match s.sticky with
    | .usable n =>
      some { s with
        pool := { s.pool.touch opts.sessionConfig .recordUsage n with checkout := none }
        sticky := .none
        handed := s.handed ++ [⟨n, true, s.looked.lookup n⟩] }
    | _ => none
  | .look now =>
    match s.sticky, s.pool.checkout with
    | .none, some ⟨_, n :: _, _⟩ =>
      (s.pool.look opts.sessionConfig now).map fun pool =>
        { s with pool, looked := s.note n (s.check opts.sessionConfig now n) }
    | _, _ => none
  | .choose now draw generated =>
    match s.sticky with
    | .none =>
      (s.pool.choose opts now draw).map fun (n, pool) =>
        let retained := decide (n < s.pool.made.length)
        { s with
          pool
          ids := if retained then s.ids else s.ids ++ [generated]
          handed := s.handed ++
            [⟨n, retained, if retained then s.looked.lookup n else none⟩] }
    | _ => none
  | .drop retained =>
    match s.pool.checkout with
    | some ⟨_, unread, kept⟩ =>
      let sessions := if retained && unread.isEmpty then kept else s.pool.sessions
      some { s with
        pool := { s.pool with sessions, checkout := none }
        sticky := .none
        saving := none }
    | none => some { s with saving := none }
  | .retireSession id =>
    if s.unlocked then
      match s.find id with
      | some n => some { s with pool := s.pool.touch opts.sessionConfig .retire n }
      | none => some s
    else none
  | .persist => if s.unlocked then some { s with saving := some (s.pool.sessions, []) } else none
  | .save =>
    match s.saving with
    | some (n :: unread, entries) =>
      match s.ids[n]?, s.pool.made[n]? with
      | some id, some session => some { s with saving := some (unread, entries ++ [⟨id, session⟩]) }
      | _, _ => none
    | _ => none
  | .saved =>
    match s.saving with
    | some ([], entries) => some { s with saving := none, written := s.written ++ [entries] }
    | _ => none
  | .restore snapshot readable =>
    if s.unlocked then
      let entries := snapshot.filter readable
      (s.pool.restore (entries.map PersistedSession.session)).map fun pool =>
        { s with pool, ids := s.ids ++ entries.map PersistedSession.id }
    else none
  | .touch n action => some { s with pool := s.pool.touch opts.sessionConfig action n }

/-- Snapshots that a pool with these options has written: one that only records usage itself
and has restored only such snapshots. -/
inductive Written [DecidableEq Id] (opts : SessionPoolOptions) :
    List (PersistedSession Id) → Prop
  | of_run {events : List (Event Id)} {s : State Id} {snapshot : List (PersistedSession Id)}
      (run : Machine.Run (Machine.Computes (step opts)) start events s)
      (hown : ∀ n, .touch n .recordUsage ∉ events)
      (hrestored : ∀ snapshot readable, .restore snapshot readable ∈ events →
        Written opts snapshot)
      (hwritten : snapshot ∈ s.written) : Written opts snapshot

def Fit (config : SessionConfig) (session : Session) : Prop :=
  session.retired = false ∧ session.errorScoreScaled < config.maxErrorScoreScaled ∧
    session.usageCount < config.maxUsageCount

def Within (limit : ℕ) (made : List Session) : Prop :=
  ∀ session ∈ made, session.usageCount ≤ limit

def Below (limit : ℕ) (made : List Session) (n : ℕ) : Prop :=
  ∀ session, made[n]? = some session → session.usageCount < limit

theorem fit_of_isUsable {config : SessionConfig} {now : Instant} {session : Session}
    (h : session.isUsable config now = true) : Fit config session := by
  simp only [Session.isUsable, Bool.and_eq_true, Bool.not_eq_true', decide_eq_true_eq] at h
  exact ⟨h.1.1.1, h.1.2, h.2⟩

theorem usageCount_apply {config : SessionConfig} {action : Action} (session : Session)
    (h : action ≠ .recordUsage) :
    (action.apply config session).usageCount = session.usageCount := by
  cases action with
  | markGood => rfl
  | markBad => simp only [Action.apply, Session.markBad]
  | retire => rfl
  | recordUsage => exact absurd rfl h

theorem usageCount_recordUsage (session : Session) :
    session.recordUsage.usageCount ≤ session.usageCount + 1 := by
  show min (session.usageCount + 1) Sessions.u32Max ≤ session.usageCount + 1
  exact Nat.min_le_left ..

theorem getElem?_touch (p : Pool) (config : SessionConfig) (action : Action) (m n : ℕ) :
    (p.touch config action m).made[n]? =
      (p.made[n]?).map fun session =>
        if m = n then action.apply config session else session := by
  rw [Pool.touch, List.getElem?_modify]
  split_ifs with h
  · rfl
  · simp

theorem within_touch {limit n : ℕ} {p : Pool} {config : SessionConfig} {action : Action}
    (h : Within limit p.made) (hother : action ≠ .recordUsage) :
    Within limit (p.touch config action n).made := by
  intro session hmem
  obtain ⟨i, hi⟩ := List.mem_iff_getElem?.mp hmem
  rw [getElem?_touch, Option.map_eq_some_iff] at hi
  obtain ⟨old, hold, rfl⟩ := hi
  have hle := h old (List.mem_of_getElem? hold)
  split_ifs
  · rwa [usageCount_apply old hother]
  · exact hle

theorem below_touch {limit m n : ℕ} {p : Pool} {config : SessionConfig} {action : Action}
    (h : Below limit p.made n) (hother : action ≠ .recordUsage) :
    Below limit (p.touch config action m).made n := by
  intro session hget
  rw [getElem?_touch, Option.map_eq_some_iff] at hget
  obtain ⟨old, hold, rfl⟩ := hget
  have hlt := h old hold
  split_ifs
  · rwa [usageCount_apply old hother]
  · exact hlt

theorem within_record {limit n : ℕ} {p : Pool} {config : SessionConfig}
    (h : Within limit p.made) (hbelow : Below limit p.made n) :
    Within limit (p.touch config .recordUsage n).made := by
  intro session hmem
  obtain ⟨i, hi⟩ := List.mem_iff_getElem?.mp hmem
  rw [getElem?_touch, Option.map_eq_some_iff] at hi
  obtain ⟨old, hold, rfl⟩ := hi
  by_cases hn : n = i
  · subst hn
    have hlt := hbelow old hold
    rw [if_pos rfl]
    exact (usageCount_recordUsage old).trans hlt
  · rw [if_neg hn]
    exact h old (List.mem_of_getElem? hold)

theorem within_append {limit : ℕ} {made others : List Session} (h : Within limit made)
    (hothers : Within limit others) : Within limit (made ++ others) := by
  intro session hmem
  rcases List.mem_append.mp hmem with hold | hnew
  · exact h session hold
  · exact hothers session hnew

theorem within_make {limit : ℕ} {p : Pool} {config : SessionConfig} {now : Instant}
    (h : Within limit p.made) (hlimit : 1 ≤ limit) : Within limit (p.make config now).made := by
  refine within_append h fun session hmem => ?_
  rw [List.mem_singleton.mp hmem]
  exact (usageCount_recordUsage _).trans hlimit

def Bounded (opts : SessionPoolOptions) (snapshot : List (PersistedSession Id)) : Prop :=
  snapshot.length ≤ opts.maxPoolSize ∧
    ∀ entry ∈ snapshot, entry.session.usageCount ≤ opts.sessionConfig.maxUsageCount

/-- A session that a call has found usable under the lock that it still holds. -/
structure Checked (opts : SessionPoolOptions) (s : State Id) (n : ℕ) : Prop where
  below : Below opts.sessionConfig.maxUsageCount s.pool.made n
  looked : ∃ session, s.looked.lookup n = some session

structure Sound (opts : SessionPoolOptions) (s : State Id) : Prop where
  size : s.pool.sessions.length ≤ opts.maxPoolSize
  checkout : ∀ c, s.pool.checkout = some c →
    c.kept.length + c.unread.length ≤ opts.maxPoolSize ∧ ∀ n ∈ c.kept, Checked opts s n
  sticky : ∀ n, s.sticky = .usable n → Checked opts s n
  locked : s.pool.checkout = none → s.sticky = .none
  usage : Within opts.sessionConfig.maxUsageCount s.pool.made
  looked : ∀ entry ∈ s.looked, Fit opts.sessionConfig entry.2
  handed : ∀ handed ∈ s.handed, handed.retained = true →
    ∃ session, handed.checked = some session ∧ Fit opts.sessionConfig session
  saving : ∀ unread entries, s.saving = some (unread, entries) →
    entries.length + unread.length ≤ opts.maxPoolSize ∧
      ∀ entry ∈ entries, entry.session.usageCount ≤ opts.sessionConfig.maxUsageCount
  written : ∀ snapshot ∈ s.written, Bounded opts snapshot

variable {opts : SessionPoolOptions}

theorem sound_start : Sound opts (start : State Id) := by
  constructor
  · exact Nat.zero_le _
  · intro c hc
    cases hc
  · intro n hn
    cases hn
  · intro _
    rfl
  · intro session hmem
    cases hmem
  · intro entry hmem
    cases hmem
  · intro handed hmem
    cases hmem
  · intro unread entries hsaving
    cases hsaving
  · intro snapshot hmem
    cases hmem

theorem mem_note {s : State Id} {config : SessionConfig} {now : Instant} {n : ℕ}
    (h : ∀ entry ∈ s.looked, Fit config entry.2) :
    ∀ entry ∈ s.note n (s.check config now n), Fit config entry.2 := by
  intro entry hmem
  cases hcheck : s.check config now n with
  | none =>
    rw [hcheck] at hmem
    exact h entry hmem
  | some session =>
    rw [hcheck] at hmem
    rcases List.mem_cons.mp hmem with rfl | hold
    · exact fit_of_isUsable (Option.filter_eq_some_iff.mp hcheck).2
    · exact h entry hold

theorem Checked.note {s t : State Id} {n : ℕ} (h : Checked opts s n) (m : ℕ)
    (checked : Option Session) (hmade : t.pool.made = s.pool.made)
    (hlooked : t.looked = s.note m checked) : Checked opts t n := by
  refine ⟨hmade ▸ h.below, ?_⟩
  obtain ⟨session, hsession⟩ := h.looked
  rw [hlooked]
  cases checked with
  | none => exact ⟨session, hsession⟩
  | some other =>
    by_cases hn : n = m
    · subst hn
      exact ⟨other, by simp [State.note]⟩
    · have hne : (n == m) = false := by simpa using hn
      exact ⟨session, by rw [State.note, List.lookup_cons, hne]; exact hsession⟩

theorem checked_of_check {s t : State Id} {session : Session} {now : Instant} {n : ℕ}
    (hcheck : s.check opts.sessionConfig now n = some session)
    (hmade : t.pool.made = s.pool.made) (hlooked : t.looked = s.note n (some session)) :
    Checked opts t n := by
  obtain ⟨hget, husable⟩ := Option.filter_eq_some_iff.mp hcheck
  constructor
  · intro other hother
    rw [hmade, hget] at hother
    cases hother
    exact (fit_of_isUsable husable).2.2
  · exact ⟨session, by simp [hlooked, State.note]⟩

theorem Sound.fit {s : State Id} {n : ℕ} (h : Sound opts s) (hn : Checked opts s n) :
    ∃ session, s.looked.lookup n = some session ∧ Fit opts.sessionConfig session := by
  obtain ⟨session, hsession⟩ := hn.looked
  obtain ⟨before, after, hsplit, -⟩ := List.lookup_eq_some_iff.mp hsession
  refine ⟨session, hsession, h.looked (n, session) ?_⟩
  rw [hsplit]
  exact List.mem_append_right _ List.mem_cons_self

theorem Sound.touch {s : State Id} {m : ℕ} {action : Action} (h : Sound opts s)
    (hother : action ≠ .recordUsage) :
    Sound opts { s with pool := s.pool.touch opts.sessionConfig action m } := by
  have hchecked : ∀ n, Checked opts s n →
      Checked opts { s with pool := s.pool.touch opts.sessionConfig action m } n :=
    fun n hn => ⟨below_touch hn.below hother, hn.looked⟩
  refine ⟨h.size, ?_, ?_, h.locked, within_touch h.usage hother, h.looked, h.handed, h.saving,
    h.written⟩
  · intro c hc
    exact ⟨(h.checkout c hc).1, fun n hn => hchecked n ((h.checkout c hc).2 n hn)⟩
  · intro n hn
    exact hchecked n (h.sticky n hn)

theorem Sound.withSaving {s : State Id} {saving : Option (List ℕ × List (PersistedSession Id))}
    {written : List (List (PersistedSession Id))} (h : Sound opts s)
    (hsaving : ∀ unread entries, saving = some (unread, entries) →
      entries.length + unread.length ≤ opts.maxPoolSize ∧
        ∀ entry ∈ entries, entry.session.usageCount ≤ opts.sessionConfig.maxUsageCount)
    (hwritten : ∀ snapshot ∈ written, Bounded opts snapshot) :
    Sound opts { s with saving, written } := by
  refine ⟨h.size, ?_, ?_, h.locked, h.usage, h.looked, h.handed, hsaving, hwritten⟩
  · intro c hc
    obtain ⟨hroom, hkept⟩ := h.checkout c hc
    exact ⟨hroom, fun n hn => ⟨(hkept n hn).below, (hkept n hn).looked⟩⟩
  · intro n hn
    exact ⟨(h.sticky n hn).below, (h.sticky n hn).looked⟩

/-- How a call that has asked all sessions ends. -/
theorem choose_spec {p q : Pool} {now : Instant} {draw n : ℕ}
    (h : p.choose opts now draw = some (n, q)) :
    ∃ holder kept, p.checkout = some ⟨holder, [], kept⟩ ∧ q.checkout = none ∧
      (q.sessions = kept ∨
        kept.length < opts.maxPoolSize ∧ q.sessions.length = kept.length + 1) ∧
      ((n = p.made.length ∧ q.made = (p.make opts.sessionConfig now).made) ∨
        (n ∈ kept ∧ q.made = (p.touch opts.sessionConfig .recordUsage n).made)) := by
  simp only [Pool.choose] at h
  split at h
  · rename_i holder kept hcheckout
    refine ⟨holder, kept, hcheckout, ?_⟩
    by_cases hroom : kept.length < opts.maxPoolSize
    · rw [if_pos hroom] at h
      cases h
      exact ⟨rfl, .inr ⟨hroom, List.length_append⟩, .inl ⟨rfl, rfl⟩⟩
    · rw [if_neg hroom] at h
      split at h
      · cases h
        exact ⟨rfl, .inl rfl, .inl ⟨rfl, rfl⟩⟩
      · rename_i m hm
        cases h
        exact ⟨rfl, .inl rfl, .inr ⟨List.mem_of_getElem? hm, rfl⟩⟩
  · cases h

variable [DecidableEq Id]

theorem Sound.step {s t : State Id} {event : Event Id} (h : Sound opts s)
    (hlimit : 1 ≤ opts.sessionConfig.maxUsageCount) (hstep : step opts s event = some t)
    (hown : ∀ n, event ≠ .touch n .recordUsage)
    (hrestored : ∀ snapshot readable, event = .restore snapshot readable →
      Bounded opts snapshot) : Sound opts t := by
  cases event with
  | session sticky =>
    simp only [SessionLimits.step] at hstep
    split_ifs at hstep with hunlocked
    obtain ⟨pool, hlock, rfl⟩ := Option.map_eq_some_iff.mp hstep
    simp only [Pool.lock] at hlock
    split_ifs at hlock
    cases hlock
    refine ⟨h.size, ?_, ?_, fun hno => (by cases hno), h.usage, ?_, h.handed, h.saving, h.written⟩
    · rintro c ⟨⟩
      exact ⟨by simpa using h.size, fun n hn => (by cases hn)⟩
    · intro n hn
      cases hfound : sticky.bind s.find with
      | none => simp [hfound] at hn
      | some m => simp [hfound] at hn
    · intro entry hmem
      cases hmem
  | ask now =>
    simp only [SessionLimits.step] at hstep
    split at hstep
    · rename_i n hsticky
      cases hstep
      refine ⟨h.size, ?_, ?_, ?_, h.usage, mem_note h.looked, h.handed, h.saving, h.written⟩
      · intro c hc
        exact ⟨(h.checkout c hc).1, fun m hm =>
          ((h.checkout c hc).2 m hm).note n _ rfl rfl⟩
      · intro m hm
        cases hcheck : s.check opts.sessionConfig now n with
        | none => simp [hcheck] at hm
        | some session =>
          rw [if_pos (by rw [hcheck]; rfl)] at hm
          cases hm
          exact checked_of_check hcheck rfl rfl
      · intro hno
        cases hsticky.symm.trans (h.locked hno)
    · cases hstep
  | stick =>
    simp only [SessionLimits.step] at hstep
    split at hstep
    · rename_i n hsticky
      cases hstep
      have hchecked := h.sticky n hsticky
      refine ⟨h.size, fun c hc => (by cases hc), fun m hm => (by cases hm), fun _ => rfl,
        within_record h.usage hchecked.below, h.looked, ?_, h.saving, h.written⟩
      intro handed hmem hretained
      rcases List.mem_append.mp hmem with hold | hnew
      · exact h.handed handed hold hretained
      · rw [List.mem_singleton.mp hnew]
        exact h.fit hchecked
    · cases hstep
  | look now =>
    simp only [SessionLimits.step] at hstep
    split at hstep
    · rename_i holder n unread kept hsticky hcheckout
      obtain ⟨pool, hlook, rfl⟩ := Option.map_eq_some_iff.mp hstep
      simp only [Pool.look, hcheckout, Option.some.injEq] at hlook
      subst hlook
      obtain ⟨hroom, hkept⟩ := h.checkout _ hcheckout
      simp only [List.length_cons] at hroom
      refine ⟨h.size, ?_, ?_, fun hno => (by cases hno), h.usage, mem_note h.looked, h.handed,
        h.saving, h.written⟩
      · rintro c ⟨⟩
        rw [← Option.isSome_filter]
        show (if (s.check opts.sessionConfig now n).isSome then kept ++ [n] else kept).length +
          unread.length ≤ _ ∧
            ∀ m ∈ if (s.check opts.sessionConfig now n).isSome then kept ++ [n] else kept, _
        cases hcheck : s.check opts.sessionConfig now n with
        | none =>
          constructor
          · simp only [Option.isSome_none, Bool.false_eq_true, if_false]
            omega
          intro m hm
          exact (hkept m hm).note n none rfl rfl
        | some session =>
          constructor
          · simp only [Option.isSome_some, if_true, List.length_append, List.length_singleton]
            omega
          intro m hm
          rcases List.mem_append.mp hm with hold | hnew
          · exact (hkept m hold).note n (some session) rfl rfl
          · rw [List.mem_singleton.mp hnew]
            exact checked_of_check hcheck rfl rfl
      · intro m hm
        exact absurd (hsticky.symm.trans hm) (by simp)
    · cases hstep
  | choose now draw generated =>
    simp only [SessionLimits.step] at hstep
    split at hstep
    · rename_i hsticky
      obtain ⟨⟨n, pool⟩, hchoose, rfl⟩ := Option.map_eq_some_iff.mp hstep
      obtain ⟨holder, kept, hcheckout, hnone, hsessions, hmade⟩ := choose_spec hchoose
      obtain ⟨hroom, hkept⟩ := h.checkout _ hcheckout
      refine ⟨?_, ?_, ?_, fun _ => hsticky, ?_, h.looked, ?_, h.saving, h.written⟩
      · show pool.sessions.length ≤ opts.maxPoolSize
        rcases hsessions with hsame | ⟨hless, hmore⟩
        · rw [hsame]
          exact (Nat.le_add_right _ _).trans hroom
        · rw [hmore]
          exact hless
      · intro c hc
        cases hnone.symm.trans hc
      · intro m hm
        cases hsticky.symm.trans hm
      · show Within _ pool.made
        rcases hmade with ⟨-, hmade⟩ | ⟨hn, hmade⟩
        · rw [hmade]
          exact within_make h.usage hlimit
        · rw [hmade]
          exact within_record h.usage (hkept n hn).below
      · intro handed hmem hretained
        rcases List.mem_append.mp hmem with hold | hnew
        · exact h.handed handed hold hretained
        · rw [List.mem_singleton.mp hnew] at hretained ⊢
          simp only [decide_eq_true_eq] at hretained ⊢
          rw [if_pos hretained]
          rcases hmade with ⟨hfresh, -⟩ | ⟨hn, -⟩
          · exact absurd hretained (by omega)
          · exact h.fit (hkept n hn)
    · cases hstep
  | drop retained =>
    simp only [SessionLimits.step] at hstep
    split at hstep
    · rename_i holder unread kept hcheckout
      cases hstep
      have hroom := (h.checkout _ hcheckout).1
      refine ⟨?_, fun c hc => (by cases hc), fun m hm => (by cases hm), fun _ => rfl, h.usage,
        h.looked, h.handed, fun unread entries hsaving => (by cases hsaving), h.written⟩
      split_ifs
      · exact (Nat.le_add_right _ _).trans hroom
      · exact h.size
    · cases hstep
      exact h.withSaving (fun unread entries hsaving => (by cases hsaving)) h.written
  | retireSession id =>
    simp only [SessionLimits.step] at hstep
    split_ifs at hstep
    split at hstep
    · cases hstep
      exact h.touch (by simp)
    · cases hstep
      exact h
  | persist =>
    simp only [SessionLimits.step] at hstep
    split_ifs at hstep
    cases hstep
    refine h.withSaving ?_ h.written
    rintro unread entries ⟨⟩
    exact ⟨by simpa using h.size, fun entry hmem => (by cases hmem)⟩
  | save =>
    simp only [SessionLimits.step] at hstep
    split at hstep
    · rename_i n unread entries hsaving
      split at hstep
      · rename_i id session hid hsession
        cases hstep
        obtain ⟨hroom, husage⟩ := h.saving _ _ hsaving
        refine h.withSaving ?_ h.written
        rintro unread' entries' ⟨⟩
        constructor
        · rw [List.length_cons] at hroom
          rw [List.length_append, List.length_singleton]
          omega
        · intro entry hmem
          rcases List.mem_append.mp hmem with hold | hnew
          · exact husage entry hold
          · rw [List.mem_singleton.mp hnew]
            exact h.usage session (List.mem_of_getElem? hsession)
      · cases hstep
    · cases hstep
  | saved =>
    simp only [SessionLimits.step] at hstep
    split at hstep
    · rename_i entries hsaving
      cases hstep
      refine h.withSaving (fun unread entries hsaving => (by cases hsaving)) ?_
      intro snapshot hmem
      rcases List.mem_append.mp hmem with hold | hnew
      · exact h.written snapshot hold
      · rw [List.mem_singleton.mp hnew]
        exact h.saving _ _ hsaving
    · cases hstep
  | restore snapshot readable =>
    simp only [SessionLimits.step] at hstep
    split_ifs at hstep with hunlocked
    obtain ⟨pool, hrestore, rfl⟩ := Option.map_eq_some_iff.mp hstep
    obtain ⟨hlength, husage⟩ := hrestored snapshot readable rfl
    simp only [Pool.restore] at hrestore
    split_ifs at hrestore with hnone
    cases hrestore
    have hno : s.pool.checkout = none := Option.isNone_iff_eq_none.mp hnone
    refine ⟨?_, ?_, ?_, h.locked, ?_, h.looked, h.handed, h.saving, h.written⟩
    · show (List.range' _ _).length ≤ _
      rw [List.length_range', List.length_map]
      exact (List.length_filter_le ..).trans hlength
    · intro c hc
      cases hno.symm.trans hc
    · intro n hn
      cases (h.locked hno).symm.trans hn
    · refine within_append h.usage fun session hmem => ?_
      obtain ⟨entry, hentry, rfl⟩ := List.mem_map.mp hmem
      exact husage entry (List.mem_of_mem_filter hentry)
  | touch n action =>
    cases hstep
    refine h.touch fun haction => hown n ?_
    rw [haction]

theorem sound_run {events : List (Event Id)} {s : State Id}
    (hlimit : 1 ≤ opts.sessionConfig.maxUsageCount)
    (run : Machine.Run (Machine.Computes (step opts)) start events s)
    (hown : ∀ n, .touch n .recordUsage ∉ events)
    (hrestored : ∀ snapshot readable, .restore snapshot readable ∈ events →
      Bounded opts snapshot) : Sound opts s := by
  generalize hstart : (start : State Id) = s₀ at run
  induction run with
  | nil =>
    subst hstart
    exact sound_start
  | snoc run hstep ih =>
    have hsound := ih (fun n hn => hown n (List.mem_append_left _ hn))
      (fun snapshot readable hmem => hrestored snapshot readable (List.mem_append_left _ hmem))
    refine hsound.step hlimit hstep ?_ ?_
    · rintro n rfl
      exact hown n (List.mem_append_right _ List.mem_cons_self)
    · rintro snapshot readable rfl
      exact hrestored snapshot readable (List.mem_append_right _ List.mem_cons_self)

theorem Written.bounded {snapshot : List (PersistedSession Id)} (h : Written opts snapshot)
    (hlimit : 1 ≤ opts.sessionConfig.maxUsageCount) : Bounded opts snapshot := by
  induction h with
  | of_run run hown hrestored hwritten ih =>
    exact (sound_run hlimit run hown ih).written _ hwritten

/-- Whatever is done to the pool, it keeps its limits. -/
theorem pool_limits {events : List (Event Id)} {s : State Id}
    (hlimit : 1 ≤ opts.sessionConfig.maxUsageCount)
    (run : Machine.Run (Machine.Computes (step opts)) start events s)
    (hown : ∀ n, .touch n .recordUsage ∉ events)
    (hrestored : ∀ snapshot readable, .restore snapshot readable ∈ events →
      Written opts snapshot) :
    s.pool.sessions.length ≤ opts.maxPoolSize ∧
      (∀ session ∈ s.pool.made, session.usageCount ≤ opts.sessionConfig.maxUsageCount) ∧
      (∀ handed ∈ s.handed, handed.retained = true →
        ∃ session, handed.checked = some session ∧ Fit opts.sessionConfig session) ∧
      ∀ holder kept draw, s.pool.checkout = some ⟨holder, [], kept⟩ → kept ≠ [] →
        opts.maxPoolSize ≤ kept.length → ∃ n, kept[draw % kept.length]? = some n := by
  have hsound := sound_run hlimit run hown fun snapshot readable hmem =>
    (hrestored snapshot readable hmem).bounded hlimit
  refine ⟨hsound.size, hsound.usage, hsound.handed, fun holder kept draw _ hkept _ => ?_⟩
  have hlt : draw % kept.length < kept.length := Nat.mod_lt _ (List.length_pos_iff.mpr hkept)
  exact ⟨kept[draw % kept.length], List.getElem?_eq_getElem hlt⟩

def oneSession : SessionPoolOptions where
  maxPoolSize := 1
  sessionConfig := { maxUsageCount := 2 }

def savedOnce : List (Event String) :=
  [.session none, .choose 0 7 "session-1", .touch 0 .markBad, .persist, .save, .saved]

def restoredOnce : List (PersistedSession String) :=
  [⟨"session-1", ⟨1000, 1, false, 3000000000000⟩⟩]

def afterRestore : List (Event String) :=
  [.restore restoredOnce fun _ => true, .session (some "session-1"), .ask 1, .stick,
    .session (some "session-1"), .ask 2, .look 2, .choose 2 7 "session-2"]

set_option maxRecDepth 4000 in
theorem restoredOnce_written : Written oneSession restoredOnce := by
  have hrun : Machine.Run (Machine.Computes (step oneSession)) start savedOnce _ :=
    Machine.run_of_foldlM rfl
  refine .of_run hrun ?_ ?_ (List.mem_singleton.mpr rfl)
  · simp [savedOnce]
  · simp [savedOnce]

theorem pool_limits_oneSession :
    ∃ s : State String,
      Machine.Run (Machine.Computes (step oneSession)) start (savedOnce ++ afterRestore) s ∧
        s.handed.map Handed.retained = [false, true, false] ∧ s.pool.sessions.length ≤ 1 := by
  have hrun : Machine.Run (Machine.Computes (step oneSession)) start
      (savedOnce ++ afterRestore) _ := Machine.run_of_foldlM rfl
  refine ⟨_, hrun, rfl, (pool_limits (by decide) hrun ?_ ?_).1⟩
  · simp [savedOnce, afterRestore]
  · intro snapshot readable hmem
    have hsnapshot : snapshot = restoredOnce := by
      simp only [savedOnce, afterRestore, List.mem_append, List.mem_cons, List.not_mem_nil,
        reduceCtorEq, false_or, or_false, Event.restore.injEq] at hmem
      exact hmem.1
    rw [hsnapshot]
    exact restoredOnce_written

end Millipede.SessionLimits
