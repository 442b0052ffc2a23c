import Millipede.Crawler.Completion
import Millipede.Storage.FsLeases
import Millipede.Storage.MemoryLeases

/-!
# A crawl over a queue of the repository

The dispatcher runs over a queue that answers its calls, and requests are added from outside.
Where the queue is one with exclusive leases, a run is one of the dispatcher over the abstract
queue, so what is proved of that one holds of it; the in-memory and the file-system queue are
such queues.
-/

namespace Millipede

structure Crawl (κ : Type*) where
  engine : Engine.State
  queue : κ

/-- `env` is what a call of the queue reads from outside; others than the dispatcher may add
requests and ask how many there are. -/
inductive CrawlEvent (ε : Type*) where
  | engine (e : Engine.Event) (env : ε)
  | ask (op : QueueOp) (env : ε) (reply : StorageResult QueueReply)

def CrawlEvent.undisturbed {ε : Type*} : CrawlEvent ε → Prop
  | .engine .cancel _ => False
  | .engine .stop _ => False
  | _ => True

namespace Engine
variable {s : State} {e : Event} {op : QueueOp} {reply : StorageResult QueueReply}

theorem Completing.dispatches {c : Completing} (h : c.op = some op) :
    LeaseQueue.dispatches op = true := by
  cases c <;> cases h <;> rfl

theorem queueCall_dispatches (h : queueCall s e = some (op, reply)) :
    LeaseQueue.dispatches op = true := by
  cases e with
  | renewed i reply' =>
    simp only [queueCall] at h
    split at h
    · obtain ⟨entry, -, heq⟩ := Option.map_eq_some_iff.mp h
      cases heq
      rfl
    · cases h
  | fetched reply' readyNow stdNow renewNow =>
    cases reply' with
    | none => cases h
    | some reply' =>
      cases h
      rfl
  | flag value =>
    cases value with
    | none => cases h
    | some value =>
      simp only [queueCall] at h
      split at h
      · cases h
        rfl
      · cases h
        rfl
      · cases h
  | answered reply' =>
    simp only [queueCall] at h
    split at h
    · obtain ⟨op', hop, heq⟩ := Option.map_eq_some_iff.mp h
      cases heq
      exact Completing.dispatches hop
    · cases h
  | released i reply' =>
    simp only [queueCall] at h
    split at h
    · obtain ⟨lease, -, heq⟩ := Option.map_eq_some_iff.mp h
      cases heq
      rfl
    · cases h
  | abandoned i reply' =>
    simp only [queueCall] at h
    split at h
    · obtain ⟨lease, -, heq⟩ := Option.map_eq_some_iff.mp h
      cases heq
      rfl
    · cases h
  | _ => cases h

end Engine

namespace Crawl

open Engine (EngineOptions queueCall)
open Millipede.System (Honest Undisturbed)

variable {κ ε : Type*}

def takesBack : QueueOp → Bool
  | .fetchNext => true
  | .renew _ _ => true
  | _ => false

theorem not_takesBack {op : QueueOp} (h : LeaseQueue.dispatches op = false) :
    takesBack op = false := by
  cases op with
  | fetchNext | renew leaseId extendBy => cases h
  | _ => rfl

section Backend
variable (opts : EngineOptions) (answers : κ → ε → QueueOp → StorageResult QueueReply → κ → Prop)

inductive Step : Crawl κ → CrawlEvent ε → Crawl κ → Prop
  | quiet {s t : Engine.State} {k : κ} {e : Engine.Event} {env : ε}
      (step : Engine.step opts s e = some t) (silent : queueCall s e = none) :
      Step ⟨s, k⟩ (.engine e env) ⟨t, k⟩
  | called {s t : Engine.State} {k k' : κ} {e : Engine.Event} {env : ε} {op : QueueOp}
      {reply : StorageResult QueueReply} (step : Engine.step opts s e = some t)
      (call : queueCall s e = some (op, reply)) (answer : answers k env op reply k') :
      Step ⟨s, k⟩ (.engine e env) ⟨t, k'⟩
  | asked {s : Engine.State} {k k' : κ} {op : QueueOp} {env : ε}
      {reply : StorageResult QueueReply} (other : LeaseQueue.dispatches op = false)
      (answer : answers k env op reply k') : Step ⟨s, k⟩ (.ask op env reply) ⟨s, k'⟩

/-- The queue is one with exclusive leases, for fewer than `bound` calls, that takes leases back
only when it looks for the next request or for a lease. -/
structure Implements (R : ℕ → κ → LeaseQueue → Prop) (bound : ℕ) : Prop where
  mono : ∀ n k q, R n k q → R (n + 1) k q
  serves : ∀ n k q env op reply k', R n k q → n < bound → answers k env op reply k' →
    ∃ expired q', (q.withdraw expired).Serves op reply q' ∧ R (n + 1) k' q' ∧
      (takesBack op = false → expired = [])

end Backend

inductive Shows : CrawlEvent ε → List SystemEvent → Prop
  | engine (e : Engine.Event) (env : ε) (expired : List LeaseId) :
      Shows (.engine e env) [.engine e expired]
  | asked (op : QueueOp) (env : ε) (reply : StorageResult QueueReply) (requests : List Request) :
      (reply.isOk = true → requests = op.added) →
      Shows (.ask op env reply) (requests.map .add)

variable {opts : EngineOptions} {answers : κ → ε → QueueOp → StorageResult QueueReply → κ → Prop}
  {R : ℕ → κ → LeaseQueue → Prop} {bound n : ℕ} {u v : Crawl κ} {ev : CrawlEvent ε}
  {q : LeaseQueue}

/-- The steps of the abstract crawl whose queue is finished if it says so. -/
abbrev Truly (opts : EngineOptions) : System → SystemEvent → System → Prop :=
  Machine.Guarded Honest (System.Step opts)

theorem run_addAll (s : Engine.State) (q : LeaseQueue) (requests : List Request) :
    Machine.Run (Truly opts) ⟨s, q⟩ (requests.map .add) ⟨s, q.addAll requests⟩ := by
  induction requests using List.reverseRecOn with
  | nil => exact .nil _
  | append_singleton requests request ih =>
    rw [List.map_append, LeaseQueue.addAll, List.foldl_append]
    exact ih.snoc ⟨trivial, .added request⟩

theorem Implements.step (h : Implements answers R bound) (hR : R n u.queue q) (hn : n < bound)
    (hs : Step opts answers u ev v) :
    ∃ evs q', Shows ev evs ∧ Machine.Run (Truly opts) ⟨u.engine, q⟩ evs ⟨v.engine, q'⟩ ∧
      R (n + 1) v.queue q' := by
  cases hs with
  | @quiet s t k e env hstep hsilent =>
    refine ⟨[.engine e []], q, .engine e env [], ?_, h.mono n k q hR⟩
    refine (Machine.Run.nil _).snoc ⟨?_, .dispatched hstep ?_⟩
    · intro hcall
      rw [hsilent] at hcall
      cases hcall
    · rw [hsilent]
      rfl
  | @called s t k k' e env op reply hstep hcall hanswer =>
    obtain ⟨expired, q', hserves, hR', -⟩ := h.serves n k q env op reply k' hR hn hanswer
    obtain ⟨hanswers, htruthful⟩ := hserves.answers (Engine.queueCall_dispatches hcall)
    refine ⟨[.engine e expired], q', .engine e env expired, ?_, hR'⟩
    refine (Machine.Run.nil _).snoc ⟨?_, .dispatched hstep ?_⟩
    · intro hsays
      rw [hcall] at hsays
      cases hsays
      exact htruthful.mp rfl
    · rw [hcall]
      exact hanswers
  | @asked s k k' op env reply hother hanswer =>
    obtain ⟨expired, q', hserves, hR', hkeeps⟩ := h.serves n k q env op reply k' hR hn hanswer
    rw [hkeeps (not_takesBack hother), LeaseQueue.withdraw_nil] at hserves
    obtain ⟨requests, -, hall, rfl⟩ := hserves.adds hother
    exact ⟨_, _, .asked op env reply requests hall, run_addAll s q requests, hR'⟩

def Acknowledged (es : List (CrawlEvent ε)) (key : String) : Prop :=
  ∃ op env reply, .ask op env (.ok reply) ∈ es ∧ ∃ request ∈ op.added, request.uniqueKey = key

theorem Shows.undisturbed {evs : List SystemEvent} (h : Shows ev evs) (hev : ev.undisturbed) :
    ∀ x ∈ evs, Undisturbed x := by
  intro x hx
  cases h with
  | engine e env expired =>
    rw [List.mem_singleton.mp hx]
    cases e with
    | cancel | stop => exact hev.elim
    | _ => trivial
  | asked op env reply requests hall =>
    obtain ⟨request, -, rfl⟩ := List.mem_map.mp hx
    trivial

theorem Shows.acknowledged {evs : List SystemEvent} {op : QueueOp} {env : ε} {reply : QueueReply}
    (h : Shows (.ask op env (.ok reply)) evs) : evs = op.added.map .add := by
  cases h with
  | asked _ _ _ requests hall => rw [hall rfl]

/-- A run over the queue is one over the abstract queue. -/
theorem Implements.run (h : Implements answers R bound) {s : Engine.State} {k : κ}
    (hR : R n k q) {es : List (CrawlEvent ε)}
    (run : Machine.Run (Step opts answers) ⟨s, k⟩ es u) (few : n + es.length ≤ bound) :
    ∃ evs q', Machine.Run (Truly opts) ⟨s, q⟩ evs ⟨u.engine, q'⟩ ∧
      R (n + es.length) u.queue q' ∧ ((∀ ev ∈ es, ev.undisturbed) → ∀ x ∈ evs, Undisturbed x) ∧
      ∀ key, Acknowledged es key → ∃ request, .add request ∈ evs ∧ request.uniqueKey = key := by
  induction run with
  | nil =>
    refine ⟨[], q, .nil _, hR, ?_, ?_⟩
    · intro _ x hx
      cases hx
    · rintro key ⟨op, env, reply, hmem, -⟩
      cases hmem
  | @snoc v w es ev hrun hs ih =>
    simp only [List.length_append, List.length_singleton, ← Nat.add_assoc] at few ⊢
    obtain ⟨evs, q₁, hevs, hv, hquiet, hknown⟩ := ih (by omega)
    obtain ⟨more, q₂, hshows, hmore, hw⟩ := h.step hv (by omega) hs
    refine ⟨evs ++ more, q₂, hevs.append hmore, hw, ?_, ?_⟩
    · intro hall x hx
      obtain hx | hx := List.mem_append.mp hx
      · exact hquiet (fun ev hev => hall ev (List.mem_append_left _ hev)) x hx
      · have hev := hall ev (List.mem_append_right _ (List.mem_singleton_self ev))
        exact hshows.undisturbed hev x hx
    · rintro key ⟨op, env, reply, hmem, request, hrequest, hkey⟩
      obtain hmem | hmem := List.mem_append.mp hmem
      · obtain ⟨request', hin, hkey'⟩ := hknown key ⟨op, env, reply, hmem, request, hrequest, hkey⟩
        exact ⟨request', List.mem_append_left _ hin, hkey'⟩
      · rw [← List.mem_singleton.mp hmem] at hshows
        rw [hshows.acknowledged]
        exact ⟨request, List.mem_append_right _ (List.mem_map_of_mem hrequest), hkey⟩

theorem continues_of_truly {evs : List SystemEvent} {x y : System}
    (run : Machine.Run (Truly opts) x evs y) (h : ∀ ev ∈ evs, Undisturbed ev) :
    Machine.Run (System.Continues opts) x evs y :=
  (run.guarded fun ev hev _ => h ev hev).mono fun _ _ _ hs => ⟨⟨hs.1, hs.2.1⟩, hs.2.2⟩

/-- What is left of a crawl that has handled everything: `q₀` is what the queue stood for at its
start, `q` what it stands for now. -/
structure Done (statistics : Statistics) (q₀ : LeaseQueue) (s : Engine.State)
    (q : LeaseQueue) : Prop where
  finished : q.Finished
  nodup : (System.handledKeys ⟨s, q⟩).Nodup
  marked : ∀ key, key ∈ System.handledKeys ⟨s, q⟩ ↔
    q.place key ≠ .unknown ∧ q₀.place key ≠ .handled
  recorded : s.statistics.requestsFinished + s.statistics.requestsFailed =
    statistics.requestsFinished + statistics.requestsFailed +
      (System.handledKeys ⟨s, q⟩).length
  offered : s.results.length = (System.handledKeys ⟨s, q⟩).length

theorem done_of_run {statistics : Statistics} {limiter : DomainLimiter} {clock : Instant}
    {evs : List SystemEvent} {x : System}
    (run : Machine.Run (System.Continues opts)
      ⟨Engine.start opts statistics limiter clock, q⟩ evs x)
    (returned : x.engine.phase = .returned none) (finished : x.queue.Finished) :
    Done statistics q x.engine x.queue := by
  have hconcluding := Machine.run_invariant (fun _ _ _ h hs => h.step hs) run
    (System.concluding_start statistics limiter clock q)
  have hlength := System.length_handledKeys hconcluding.settled.linked
  have htallied := System.tallied_of_run (run.mono fun _ _ _ hs => hs.2)
  have hcounts := hconcluding.counts finished returned
  refine ⟨finished, ?_, ?_, ?_, ?_⟩
  · rw [List.nodup_iff_count_le_one]
    intro key
    rw [System.count_handledKeys]
    exact (hcounts key).1
  · intro key
    have hle : System.handledCount ⟨x.engine, x.queue⟩ key ≤ 1 := (hcounts key).1
    have hone : System.handledCount ⟨x.engine, x.queue⟩ key = 1 ↔ _ := (hcounts key).2
    rw [← hone, ← List.count_pos_iff, System.count_handledKeys]
    omega
  · rw [hlength]
    exact htallied.terminal
  · rw [hlength]
    exact htallied.offered

theorem Implements.completes (h : Implements answers R bound) {k : κ} (hR : R n k q)
    (statistics : Statistics) (limiter : DomainLimiter) (clock : Instant)
    {es : List (CrawlEvent ε)}
    (run : Machine.Run (Step opts answers) ⟨Engine.start opts statistics limiter clock, k⟩ es u)
    (last : Step opts answers u ev v) (few : n + es.length < bound)
    (quiet : ∀ e ∈ es ++ [ev], e.undisturbed) (running : u.engine.phase ≠ .returned none)
    (returned : v.engine.phase = .returned none) :
    Engine.held v.engine = [] ∧
      ((∃ limit, opts.maxRequestsPerCrawl = some limit ∧
          limit ≤ v.engine.statistics.requestsFinished) ∨
        ∃ q', R (n + es.length + 1) v.queue q' ∧ Done statistics q v.engine q' ∧
          ∀ key, q.place key ≠ .unknown ∨ Acknowledged (es ++ [ev]) key →
            q'.place key = .handled) := by
  obtain ⟨evs, q₁, hevs, hu, hquiet, hknown⟩ := h.run hR run few.le
  obtain ⟨more, q₂, hshows, hmore, hv⟩ := h.step hu few last
  have hcalm : ∀ e ∈ es, e.undisturbed := fun e he => quiet e (List.mem_append_left _ he)
  have hevq := quiet ev (List.mem_append_right _ (List.mem_singleton_self ev))
  have hall := continues_of_truly hevs (hquiet hcalm)
  have hend := continues_of_truly hmore (hshows.undisturbed hevq)
  cases hshows with
  | asked op env reply requests hadded =>
    cases last with
    | asked hother hanswer => exact absurd returned running
  | engine e env expired =>
    have hlast := hend.of_singleton
    have hconcluding := Machine.run_invariant (fun _ _ _ h hs => h.step hs) hall
      (System.concluding_start statistics limiter clock q)
    have hafter := hconcluding.step hlast
    refine ⟨hafter.settled.linked.accounted.sound.held_returned returned, ?_⟩
    refine (hconcluding.ends hlast running returned).imp_right fun hfinished => ⟨q₂, hv, ?_⟩
    refine ⟨done_of_run (hall.snoc hlast) returned hfinished, ?_⟩
    intro key haccepted
    have hrun := (hall.snoc hlast).mono fun _ _ _ hs => hs.2
    refine (hfinished key).resolve_left ((System.known_iff_accepted hrun key).mpr ?_)
    refine haccepted.imp_right ?_
    rintro ⟨op, env', reply, hmem, request, hrequest, hkey⟩
    obtain hmem | hmem := List.mem_append.mp hmem
    · obtain ⟨request', hin, hkey'⟩ :=
        hknown key ⟨op, env', reply, hmem, request, hrequest, hkey⟩
      exact ⟨request', List.mem_append_left _ hin, hkey'⟩
    · cases List.mem_singleton.mp hmem

-- The crawl of one page, over any queue that answers so.
variable (opts answers) in
theorem run_silent_guarded {P : Crawl κ → CrawlEvent ε → Prop} {s t : Engine.State}
    {es : List Engine.Event} (k : κ) (env : ε)
    (hP : ∀ s e, queueCall s e = none → P ⟨s, k⟩ (.engine e env))
    (h : es.foldlM (System.silentStep opts) s = some t) :
    Machine.Run (Machine.Guarded P (Step opts answers)) ⟨s, k⟩ (es.map (.engine · env))
      ⟨t, k⟩ := by
  have hrun := Machine.run_of_foldlM h
  clear h
  induction hrun with
  | nil => exact .nil _
  | @snoc s t es e _ hstep ih =>
    rw [List.map_append]
    refine ih.snoc ?_
    simp only [Machine.Computes, System.silentStep] at hstep
    split_ifs at hstep with hcall
    have hsilent := Option.isNone_iff_eq_none.mp hcall
    exact ⟨hP _ _ hsilent, .quiet hstep hsilent⟩

variable (opts answers) in
theorem run_silent {s t : Engine.State} {es : List Engine.Event} (k : κ) (env : ε)
    (h : es.foldlM (System.silentStep opts) s = some t) :
    Machine.Run (Step opts answers) ⟨s, k⟩ (es.map (.engine · env)) ⟨t, k⟩ := by
  have hrun := run_silent_guarded (P := fun _ _ => True) opts answers k env (fun _ _ _ => trivial) h
  exact hrun.mono fun _ _ _ hs => hs.2

def pageAnswered : Engine.Event := .answered (.ok ())

def nothingFetched : Engine.Event := .fetched (some (.ok none)) 5 5 5

def onePageEvents (env : ε) : List (CrawlEvent ε) :=
  (Engine.ticks 0 4 ++ [System.pageFetched] ++ (Engine.ticks 0 3 ++ [System.pageSuccess]) ++
    [pageAnswered] ++ Engine.ticks 5 4 ++ [nothingFetched] ++ Engine.ticks 5 1).map (.engine · env)

theorem run_onePage {k₀ k₁ k₂ k₃ : κ} {env : ε}
    (fetch : answers k₀ env .fetchNext (.ok (.leased (some System.pageLease))) k₁)
    (mark : answers k₁ env (.markHandled System.pageHandled) (.ok .unit) k₂)
    (idle : answers k₂ env .fetchNext (.ok (.leased none)) k₃) :
    Machine.Run (Step Engine.singleSlot answers) ⟨Engine.start Engine.singleSlot {} ∅ 0, k₀⟩
      (onePageEvents env) ⟨System.beforeFlag, k₃⟩ := by
  have hopen := run_silent Engine.singleSlot answers k₀ env
    (rfl : (Engine.ticks 0 4).foldlM (System.silentStep Engine.singleSlot)
      (Engine.start Engine.singleSlot {} ∅ 0) = some System.beforeFetch)
  have hfetch : Step Engine.singleSlot answers ⟨System.beforeFetch, k₀⟩
      (.engine System.pageFetched env) ⟨System.afterFetch, k₁⟩ := .called rfl rfl fetch
  have hattempt := run_silent Engine.singleSlot answers k₁ env
    (rfl : (Engine.ticks 0 3 ++ [System.pageSuccess]).foldlM (System.silentStep Engine.singleSlot)
      System.afterFetch = some System.beforeAnswer)
  have hmark : Step Engine.singleSlot answers ⟨System.beforeAnswer, k₁⟩
      (.engine pageAnswered env) ⟨System.afterAnswer, k₂⟩ := .called rfl rfl mark
  have hpump := run_silent Engine.singleSlot answers k₂ env
    (rfl : (Engine.ticks 5 4).foldlM (System.silentStep Engine.singleSlot) System.afterAnswer =
      some System.beforeIdle)
  have hidle : Step Engine.singleSlot answers ⟨System.beforeIdle, k₂⟩
      (.engine nothingFetched env) ⟨System.afterIdle, k₃⟩ := .called rfl rfl idle
  have hsettle := run_silent Engine.singleSlot answers k₃ env
    (rfl : (Engine.ticks 5 1).foldlM (System.silentStep Engine.singleSlot) System.afterIdle =
      some System.beforeFlag)
  simp only [onePageEvents, List.map_append]
  have hattempted := (hopen.snoc hfetch).append hattempt
  have hhandled := (hattempted.snoc hmark).append hpump
  exact (hhandled.snoc hidle).append hsettle

theorem undisturbed_onePageEvents {env : ε} {e : CrawlEvent ε} (h : e ∈ onePageEvents env) :
    e.undisturbed := by
  obtain ⟨x, hx, rfl⟩ := List.mem_map.mp h
  simp only [List.mem_append, List.mem_singleton, Engine.ticks, List.mem_replicate] at hx
  obtain (((((⟨-, rfl⟩ | rfl) | ⟨-, rfl⟩ | rfl) | rfl) | ⟨-, rfl⟩) | rfl) | ⟨-, rfl⟩ := hx <;>
    trivial

end Crawl

end Millipede
