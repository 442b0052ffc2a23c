import Millipede.Crawler.Leases
import Millipede.Library.Machine
import Millipede.Sessions

/-!
# Rotation of sessions

The dispatcher, the attempts of `HttpKind` that it has started, and the session pool they
share. An attempt checks one session out, sends its request, and fails with a session error
when the response is blocked: its status is a session status code, or the detector knows the
page. The session gets a bad mark, the dispatcher counts a rotation and gives the request
back, and the next attempt of the request checks a session out as any other does.

`avoid` remembers the session of the failed attempt until the next attempt of its request is
started, and with that attempt from then on; nothing reads it. Handlers, hooks and other
users of the pool may touch any session at any time.
-/

namespace Millipede.Rotation
open Sessions (Pool Session SessionPoolOptions Action)

structure Options where
  engine : Engine.EngineOptions
  pool : SessionPoolOptions

structure Attempt where
  avoid : Option ℕ
  session : Option ℕ
  blocked : Option CrawlError

structure World where
  engine : Engine.State
  pool : Pool
  attempts : HashMap ℕ Attempt
  avoid : HashMap String ℕ

def start (opts : Options) (statistics : Statistics) (limiter : DomainLimiter)
    (clock : Instant) : World where
  engine := Engine.start opts.engine statistics limiter clock
  pool := .new
  attempts := ∅
  avoid := ∅

inductive Event where
  | engine (e : Engine.Event)
  | completed (slot : ℕ) (joined : Engine.Joined) (now : Instant) (handledAt : ℤ)
      (consulted : ℕ)
  | lock (holder : Option ℕ)
  | look (now : Instant)
  | choose (now : Instant) (draw : ℕ)
  | blocked (slot : ℕ) (error : CrawlError)
  | touch (n : ℕ) (action : Action)
  | restore (sessions : List Session)

def startedSlot (s t : Engine.State) : Option ℕ :=
  if s.inFlight.length < t.inFlight.length then some s.nextSlot else none

/-- The dispatcher has moved on; a new attempt takes the memory of its request over. -/
def dispatched (w : World) (engine : Engine.State) : World :=
  match startedSlot w.engine engine with
  | none => { w with engine }
  | some slot =>
    match engine.slots.lookup slot with
    | none => { w with engine }
    | some { lease, .. } =>
      let key := lease.request.uniqueKey
      { w with
        engine
        attempts := w.attempts.insert slot ⟨w.avoid.lookup key, none, none⟩
        avoid := w.avoid.erase key }

def ended (w : World) (slot : ℕ) : World :=
  { w with attempts := w.attempts.erase slot, pool := w.pool.release slot }

/-- The session to be avoided after a completion: the attempt has failed with the error of
its blocked response, and the dispatcher gives the request back. -/
def toAvoid (a : Attempt) (joined : Engine.Joined) (phase : Engine.Phase) :
    Option (String × ℕ) :=
  match a.blocked, a.session, joined, phase with
  | some error, some n, .finished output, .completing (.reclaiming lease _) =>
    if output.error = some error then some (lease.request.uniqueKey, n) else none
  | _, _, _, _ => none

def complete (w : World) (engine : Engine.State) (slot : ℕ) (joined : Engine.Joined) : World :=
  match w.attempts.lookup slot with
  | none => { w with engine }
  | some a =>
    let w := ended { w with engine } slot
    match toAvoid a joined engine.phase with
    | some (key, n) => { w with avoid := w.avoid.insert key n }
    | none => w

def isCompletion : Engine.Event → Bool
  | .completed _ _ _ _ _ => true
  | _ => false

def joinedSlot : Engine.Event → Option ℕ
  | .joined slot => some slot
  | _ => none

def step (opts : Options) (w : World) : Event → Option World
  | .engine e =>
    if isCompletion e then none
    else (Engine.step opts.engine w.engine e).map fun engine =>
      match joinedSlot e with
      | some slot => ended (dispatched w engine) slot
      | none => dispatched w engine
  | .completed slot joined now handledAt consulted =>
    (Engine.step opts.engine w.engine (.completed slot joined now handledAt consulted)).map
      fun engine => complete w engine slot joined
  | .lock holder =>
    match holder with
    | none => (w.pool.lock none).map fun pool => { w with pool }
    | some slot =>
      match w.attempts.lookup slot with
      | some { session := none, .. } => (w.pool.lock (some slot)).map fun pool => { w with pool }
      | _ => none
  | .look now => (w.pool.look opts.pool.sessionConfig now).map fun pool => { w with pool }
  | .choose now draw =>
    (w.pool.choose opts.pool now draw).map fun (n, pool) =>
      match w.pool.checkout.bind Sessions.Checkout.holder with
      | none => { w with pool }
      | some slot =>
        match w.attempts.lookup slot with
        | none => { w with pool }
        | some a => { w with pool, attempts := w.attempts.insert slot { a with session := some n } }
  | .blocked slot error =>
    match w.attempts.lookup slot with
    | some { avoid, session := some n, blocked := none } =>
      if error.rotatesSession then
        some { w with
          pool := w.pool.touch opts.pool.sessionConfig .markBad n
          attempts := w.attempts.insert slot ⟨avoid, some n, some error⟩ }
      else none
    | _ => none
  | .touch n action => some { w with pool := w.pool.touch opts.pool.sessionConfig action n }
  | .restore sessions => (w.pool.restore sessions).map fun pool => { w with pool }

/-- The attempt's sessions exist, and the one it has is not the one to be avoided. -/
structure Attempt.Rotated (made : ℕ) (a : Attempt) : Prop where
  session_lt : ∀ n, a.session = some n → n < made
  avoid_lt : ∀ n, a.avoid = some n → n < made
  differs : ∀ n, a.avoid = some n → a.session ≠ some n

theorem Attempt.Rotated.mono {made made' : ℕ} {a : Attempt} (h : a.Rotated made)
    (hle : made ≤ made') : a.Rotated made' :=
  ⟨fun n hn => (h.session_lt n hn).trans_le hle, fun n hn => (h.avoid_lt n hn).trans_le hle,
    h.differs⟩

structure Sound (w : World) : Prop where
  pool : w.pool.Bounded
  avoid : ∀ key n, w.avoid.lookup key = some n → n < w.pool.made.length
  attempts : ∀ slot a, w.attempts.lookup slot = some a → a.Rotated w.pool.made.length

/-- When the next attempt of a request checks out, the session of its failed attempt was not
found usable, or there is room for a new one. -/
def Leaves (opts : Options) (w : World) : Event → Prop
  | .choose _ _ => ∀ c ∈ w.pool.checkout, ∀ slot ∈ c.holder, ∀ a ∈ w.attempts.lookup slot,
      ∀ n ∈ a.avoid, n ∉ c.kept ∨ c.kept.length < opts.pool.maxPoolSize
  | _ => True

instance (opts : Options) (w : World) (e : Event) : Decidable (Leaves opts w e) :=
  match e with
  | .choose _ _ => inferInstanceAs (Decidable (∀ c ∈ w.pool.checkout, ∀ slot ∈ c.holder,
      ∀ a ∈ w.attempts.lookup slot, ∀ n ∈ a.avoid,
        n ∉ c.kept ∨ c.kept.length < opts.pool.maxPoolSize))
  | .engine _ | .completed _ _ _ _ _ | .lock _ | .look _ | .blocked _ _ | .touch _ _
  | .restore _ => isTrue trivial

section Proofs
variable {opts : Options} {w v : World}

theorem Sound.withPool (h : Sound w) {pool : Pool} (hb : pool.Bounded)
    (hle : w.pool.made.length ≤ pool.made.length) : Sound { w with pool } :=
  ⟨hb, fun key n hn => (h.avoid key n hn).trans_le hle,
    fun slot a ha => (h.attempts slot a ha).mono hle⟩

theorem Sound.dispatched (h : Sound w) (engine : Engine.State) :
    Sound (dispatched w engine) := by
  simp only [Rotation.dispatched]
  split
  · exact ⟨h.pool, h.avoid, h.attempts⟩
  · rename_i slot _
    split
    · exact ⟨h.pool, h.avoid, h.attempts⟩
    · rename_i lease started _
      refine ⟨h.pool, ?_, ?_⟩
      · intro key n hn
        simp only [AList.lookup_erase_ite] at hn
        split at hn
        · cases hn
        · exact h.avoid key n hn
      · intro slot' a ha
        simp only [AList.lookup_insert_ite] at ha
        split at ha
        · cases ha
          exact ⟨fun n hn => (nomatch hn), fun n hn => h.avoid _ n hn, fun n _ hn => (nomatch hn)⟩
        · exact h.attempts slot' a ha

theorem Sound.ended (h : Sound w) (slot : ℕ) : Sound (ended w slot) := by
  refine ⟨h.pool.release slot, ?_, ?_⟩
  · intro key n hn
    simp only [Rotation.ended, Pool.made_release]
    exact h.avoid key n hn
  · intro slot' a ha
    simp only [Rotation.ended, AList.lookup_erase_ite, Pool.made_release] at ha ⊢
    split at ha
    · cases ha
    · exact h.attempts slot' a ha

theorem toAvoid_eq_some {a : Attempt} {joined : Engine.Joined} {phase : Engine.Phase}
    {key : String} {n : ℕ} (h : toAvoid a joined phase = some (key, n)) : a.session = some n := by
  simp only [toAvoid] at h
  split at h
  · rename_i hsession
    split at h
    · cases h
      exact hsession
    · cases h
  · cases h

theorem Sound.complete (h : Sound w) (engine : Engine.State) (slot : ℕ)
    (joined : Engine.Joined) : Sound (complete w engine slot joined) := by
  have hw : Sound { w with engine } := ⟨h.pool, h.avoid, h.attempts⟩
  simp only [Rotation.complete]
  split
  · exact hw
  · rename_i a ha
    have hended := hw.ended slot
    split
    · rename_i key n hkey
      refine ⟨hended.pool, ?_, hended.attempts⟩
      intro key' m hm
      simp only [AList.lookup_insert_ite] at hm
      split at hm
      · cases hm
        simp only [Rotation.ended, Pool.made_release]
        exact (h.attempts slot a ha).session_lt n (toAvoid_eq_some hkey)
      · exact hended.avoid key' m hm
    · exact hended

theorem Sound.insert (h : Sound w) {pool : Pool} (hb : pool.Bounded)
    (hle : w.pool.made.length ≤ pool.made.length) {slot : ℕ} {a : Attempt}
    (ha : a.Rotated pool.made.length) :
    Sound { w with pool, attempts := w.attempts.insert slot a } := by
  refine ⟨hb, fun key n hn => (h.avoid key n hn).trans_le hle, ?_⟩
  intro slot' a' ha'
  simp only [AList.lookup_insert_ite] at ha'
  split at ha'
  · cases ha'
    exact ha
  · exact (h.attempts slot' a' ha').mono hle

theorem choose_ne {now : Instant} {draw n m : ℕ} {pool : Pool} {slot : ℕ} {a : Attempt}
    (h : Sound w) (hleaves : Leaves opts w (.choose now draw))
    (hchoose : w.pool.choose opts.pool now draw = some (n, pool))
    (hholder : w.pool.checkout.bind Sessions.Checkout.holder = some slot)
    (ha : w.attempts.lookup slot = some a) (hm : a.avoid = some m) : n ≠ m := by
  obtain ⟨holder, kept, hc, -, hcases⟩ := Pool.choose_cases hchoose
  rw [hc] at hholder
  cases (show holder = some slot from hholder)
  rcases hcases with ⟨rfl, -, -⟩ | ⟨hmem, hfull, -, -⟩
  · have := (h.attempts slot a ha).avoid_lt m hm
    omega
  · rintro rfl
    rcases hleaves _ hc slot rfl a ha n hm with hnot | hroom
    · exact hnot hmem
    · exact absurd hroom (not_lt.mpr hfull)

theorem Sound.choose {now : Instant} {draw : ℕ} (h : Sound w)
    (hleaves : Leaves opts w (.choose now draw))
    (hstep : step opts w (.choose now draw) = some v) : Sound v := by
  obtain ⟨⟨n, pool⟩, hchoose, rfl⟩ := Option.map_eq_some_iff.mp hstep
  obtain ⟨hb, hle, hlt⟩ := h.pool.choose hchoose
  simp only
  split
  · exact h.withPool hb hle
  · rename_i slot hholder
    split
    · exact h.withPool hb hle
    · rename_i a ha
      refine h.insert hb hle ⟨?_, ?_, ?_⟩
      · intro m hm
        cases hm
        exact hlt
      · exact fun m hm => ((h.attempts slot a ha).avoid_lt m hm).trans_le hle
      · intro m hm hn
        cases hn
        exact choose_ne h hleaves hchoose hholder ha hm rfl

theorem Sound.step {e : Event} (h : Sound w) (hleaves : Leaves opts w e)
    (hstep : step opts w e = some v) : Sound v := by
  cases e with
  | engine e =>
    simp only [Rotation.step] at hstep
    split at hstep
    · cases hstep
    · obtain ⟨engine, -, rfl⟩ := Option.map_eq_some_iff.mp hstep
      split
      · exact (h.dispatched engine).ended _
      · exact h.dispatched engine
  | completed slot joined now handledAt consulted =>
    obtain ⟨engine, -, rfl⟩ := Option.map_eq_some_iff.mp hstep
    exact h.complete engine slot joined
  | lock holder =>
    simp only [Rotation.step] at hstep
    split at hstep
    · obtain ⟨pool, hlock, rfl⟩ := Option.map_eq_some_iff.mp hstep
      obtain ⟨hb, hmade⟩ := h.pool.lock hlock
      exact h.withPool hb (by rw [hmade])
    · split at hstep
      · obtain ⟨pool, hlock, rfl⟩ := Option.map_eq_some_iff.mp hstep
        obtain ⟨hb, hmade⟩ := h.pool.lock hlock
        exact h.withPool hb (by rw [hmade])
      · cases hstep
  | look now =>
    obtain ⟨pool, hlook, rfl⟩ := Option.map_eq_some_iff.mp hstep
    obtain ⟨hb, hmade⟩ := h.pool.look hlook
    exact h.withPool hb (by rw [hmade])
  | choose now draw => exact h.choose hleaves hstep
  | blocked slot error =>
    simp only [Rotation.step] at hstep
    split at hstep
    · rename_i avoid n ha
      split at hstep
      · cases hstep
        have hold := h.attempts slot _ ha
        refine h.insert (h.pool.touch _ _ _) (by simp) ?_
        rw [Pool.length_touch]
        exact ⟨hold.session_lt, hold.avoid_lt, hold.differs⟩
      · cases hstep
    · cases hstep
  | touch n action =>
    cases hstep
    exact h.withPool (h.pool.touch _ _ _) (by simp)
  | restore sessions =>
    obtain ⟨pool, hrestore, rfl⟩ := Option.map_eq_some_iff.mp hstep
    obtain ⟨hb, hle⟩ := Pool.bounded_restore hrestore
    exact h.withPool hb hle

/-- Where a checkout does not leave the session behind, it may be the one that comes out. -/
theorem exists_draw_of_not_leaves {now : Instant} {draw : ℕ}
    (h : ¬ Leaves opts w (.choose now draw)) {holder : Option ℕ} {kept : List ℕ}
    (hc : w.pool.checkout = some ⟨holder, [], kept⟩) :
    ∃ slot a n, w.attempts.lookup slot = some a ∧ a.avoid = some n ∧
      ∃ draw' pool, w.pool.choose opts.pool now draw' = some (n, pool) := by
  simp only [Leaves, not_forall, not_or, not_not, not_lt] at h
  obtain ⟨c, hc', slot, -, a, ha, n, hn, hkept, hfull⟩ := h
  rw [hc] at hc'
  cases hc'
  exact ⟨slot, a, n, ha, hn, Pool.exists_choose hc hkept hfull now⟩

end Proofs

theorem sound_start (opts : Options) (statistics : Statistics) (limiter : DomainLimiter)
    (clock : Instant) : Sound (start opts statistics limiter clock) :=
  ⟨Pool.bounded_new, fun _ _ h => (nomatch h), fun _ _ h => (nomatch h)⟩

/-- As long as every checkout after a blocked response leaves the session of the failed
attempt behind, the next attempt of a request has another session. -/
theorem session_rotates (opts : Options) (statistics : Statistics) (limiter : DomainLimiter)
    (clock : Instant) (es : List Event) (w : World)
    (run : Machine.Run (Machine.Guarded (Leaves opts) (Machine.Computes (step opts)))
      (start opts statistics limiter clock) es w) :
    ∀ slot a n m, w.attempts.lookup slot = some a → a.avoid = some n → a.session = some m →
      m ≠ n := by
  have hsound : Sound w := by
    refine Machine.run_invariant ?_ run (sound_start opts statistics limiter clock)
    rintro w e v hw ⟨hleaves, hstep⟩
    exact hw.step hleaves hstep
  rintro slot a n m ha hn hm rfl
  exact (hsound.attempts slot a ha).differs m hn hm

-- A page that is blocked at its first attempt.
def withPoolSize (n : ℕ) : Options := ⟨Engine.singleSlot, { maxPoolSize := n }⟩

def page : Request := Request.get ⟨"https://a.test/", some "a.test"⟩ "https://a.test/"

def forbidden : CrawlError := .session ⟨⟨"HTTP status 403", some ⟨403, none⟩⟩, []⟩

def leaseAgain : Lease :=
  Engine.leaseOf 1 { Engine.pushError page (forbidden.toText id) with sessionRotationCount := 1 }

def dispatch (es : List Engine.Event) : List Event := es.map .engine

def blockedOnce : List Event :=
  dispatch (Engine.ticks 0 4 ++ [.fetched (some (.ok (some (Engine.leaseOf 0 page)))) 0 0 0] ++
    Engine.ticks 0 3) ++
  [.lock (some 0), .choose 0 0, .blocked 0 forbidden,
   .completed 0 (.finished { error := some forbidden, duration := 5, request := page,
                             observation := {} }) 5 0 0] ++
  dispatch ([.answered (.ok ())] ++ Engine.ticks 5 4 ++
    [.fetched (some (.ok (some leaseAgain))) 5 5 5] ++ Engine.ticks 5 3) ++
  [.lock (some 1), .look 5, .choose 5 0]

theorem session_rotates_roomForTwo : ∃ w,
    Machine.Run (Machine.Guarded (Leaves (withPoolSize 2)) (Machine.Computes
      (step (withPoolSize 2)))) (start (withPoolSize 2) {} ∅ 0) blockedOnce w ∧
    ∃ a n m, w.attempts.lookup 1 = some a ∧ a.avoid = some n ∧ a.session = some m ∧ m ≠ n := by
  have hrun : (blockedOnce.foldlM (fun w e => if Leaves (withPoolSize 2) w e then
      step (withPoolSize 2) w e else none) (start (withPoolSize 2) {} ∅ 0)).map
      (fun w => (w.attempts.lookup 1).map fun a => (a.avoid, a.session)) =
      some (some (some 0, some 1)) := by
    decide +kernel
  obtain ⟨w, hw, hdata⟩ := Option.map_eq_some_iff.mp hrun
  obtain ⟨a, ha, hpair⟩ := Option.map_eq_some_iff.mp hdata
  simp only [Prod.mk.injEq] at hpair
  have run := Machine.guarded_run_of_foldlM hw
  exact ⟨w, run, a, 0, 1, ha, hpair.1, hpair.2,
    session_rotates _ _ _ _ _ w run 1 a 0 1 ha hpair.1 hpair.2⟩

theorem session_kept : ∃ w,
    Machine.Run (Machine.Computes (step (withPoolSize 1))) (start (withPoolSize 1) {} ∅ 0)
      blockedOnce w ∧
    ∃ a, w.attempts.lookup 1 = some a ∧ a.avoid = some 0 ∧ a.session = some 0 := by
  have hrun : (blockedOnce.foldlM (step (withPoolSize 1)) (start (withPoolSize 1) {} ∅ 0)).map
      (fun w => (w.attempts.lookup 1).map fun a => (a.avoid, a.session)) =
      some (some (some 0, some 0)) := by
    decide +kernel
  obtain ⟨w, hw, hdata⟩ := Option.map_eq_some_iff.mp hrun
  obtain ⟨a, ha, hpair⟩ := Option.map_eq_some_iff.mp hdata
  simp only [Prod.mk.injEq] at hpair
  exact ⟨w, Machine.run_of_foldlM hw, a, ha, hpair⟩

end Millipede.Rotation
