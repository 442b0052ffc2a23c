import Millipede.Crawler.QueueCrawl

/-!
# A crawl over the in-memory queue

Under either policy, and whatever the attempts make of their requests.
-/

namespace Millipede.Crawl

open Engine (EngineOptions)

variable {opts : EngineOptions} {ev : CrawlEvent Instant} {u v : Crawl MemoryQueue.QueueState}

def memoryAnswers (t : MemoryQueue.QueueState) (now : Instant) (op : QueueOp)
    (reply : StorageResult QueueReply) (t' : MemoryQueue.QueueState) : Prop :=
  MemoryQueue.call now t op = some (reply, t')

theorem fetches_le_one (op : QueueOp) : MemoryQueue.fetches op ≤ 1 := by
  cases op with
  | fetchNext => exact le_rfl
  | _ => exact Nat.zero_le 1

theorem memory_implements : Implements memoryAnswers MemoryQueue.Models (2 ^ 64 - 1) where
  mono := fun n t q h => h.mono (Nat.le_succ n)
  serves := by
    intro n t q now op reply t' h hn hanswers
    have hle := fetches_le_one op
    have hfew : n + MemoryQueue.fetches op < 2 ^ 64 := by omega
    obtain ⟨reply', t₁, q', hcall, hserves, hkept⟩ :=
      h.call hfew (MemoryQueue.representable_of_call hanswers) now
    rw [memoryAnswers, hcall] at hanswers
    cases hanswers
    refine ⟨[], q', ?_, hkept.mono (by omega), fun _ => rfl⟩
    rw [LeaseQueue.withdraw_nil]
    exact hserves

theorem Done.keys {statistics : Statistics} {s : Engine.State} {q : LeaseQueue}
    {t : MemoryQueue.QueueState} {n : ℕ} (h : Done statistics .empty s q)
    (models : MemoryQueue.Models n t q) :
    (System.handledKeys ⟨s, q⟩).length = t.dedup.len := by
  have hperm := AList.perm_filter_keys (m := t.dedup) (P := fun _ => true) h.nodup ?_
  · rw [hperm.length_eq, List.filter_true, AList.keys_length]
  · intro key
    rw [h.marked, Ne, ← models.known key]
    exact and_congr_right fun _ => ⟨fun _ => rfl, fun _ => Place.noConfusion⟩

/-- A crawl over a new queue that nobody disturbs, and that ends without an error, has reached its
limit or has left nothing waiting and nothing leased. Then it knows every request whose addition
was acknowledged, and has recorded one success or failure and offered one result for each request
it knows. -/
theorem memory_crawl_completes (policy : MemoryQueue.MemoryQueuePolicy) (statistics : Statistics)
    (limiter : DomainLimiter) (clock : Instant) {es : List (CrawlEvent Instant)}
    (run : Machine.Run (Step opts memoryAnswers)
      ⟨Engine.start opts statistics limiter clock, MemoryQueue.withPolicy policy⟩ es u)
    (last : Step opts memoryAnswers u ev v) (few : es.length < 2 ^ 64 - 1)
    (quiet : ∀ e ∈ es ++ [ev], e.undisturbed) (running : u.engine.phase ≠ .returned none)
    (returned : v.engine.phase = .returned none) :
    Engine.held v.engine = [] ∧
      ((∃ limit, opts.maxRequestsPerCrawl = some limit ∧
          limit ≤ v.engine.statistics.requestsFinished) ∨
        v.queue.pending.requests = [] ∧ v.queue.inFlight = ∅ ∧
          (∀ key, Acknowledged (es ++ [ev]) key → key ∈ v.queue.dedup) ∧
          v.engine.statistics.requestsFinished + v.engine.statistics.requestsFailed =
            statistics.requestsFinished + statistics.requestsFailed + v.queue.dedup.len ∧
          v.engine.results.length = v.queue.dedup.len) := by
  obtain ⟨hheld, hends⟩ := memory_implements.completes (MemoryQueue.models_new policy) statistics
    limiter clock run last (by omega) quiet running returned
  refine ⟨hheld, hends.imp_right ?_⟩
  rintro ⟨q, hmodels, hdone, hknown⟩
  have hkeys := hdone.keys hmodels
  have hfinished := hmodels.finished_iff.mpr hdone.finished
  obtain ⟨hpending, hleases⟩ := Bool.and_eq_true_iff.mp hfinished
  refine ⟨(MemoryQueue.Frontier.isEmpty_iff hmodels.active).mp hpending, ?_, ?_, ?_, ?_⟩
  · exact AList.ext (List.isEmpty_iff.mp hleases)
  · intro key hacknowledged
    have hhandled := hknown key (.inr hacknowledged)
    rw [← AList.lookup_isSome, Option.isSome_iff_ne_none, Ne, hmodels.known, hhandled]
    exact Place.noConfusion
  · rw [← hkeys]
    exact hdone.recorded
  · rw [← hkeys]
    exact hdone.offered

-- One page is added and crawled.
def pageKnown : StorageResult QueueReply :=
  .ok (.info ⟨Engine.pageRequest.id, "data:,", false, false⟩)

theorem memory_onePage : ∃ t₁ t₂ t₃,
    memoryAnswers (MemoryQueue.withPolicy .fifo) 0 (.add Engine.pageRequest {}) pageKnown t₁ ∧
      memoryAnswers t₁ 0 .fetchNext (.ok (.leased (some System.pageLease))) t₂ ∧
      memoryAnswers t₂ 0 (.markHandled System.pageHandled) (.ok .unit) t₃ ∧
      memoryAnswers t₃ 0 .fetchNext (.ok (.leased none)) t₃ ∧
      memoryAnswers t₃ 0 .isFinished (.ok (.flag true)) t₃ :=
  ⟨_, _, _, rfl, rfl, rfl, rfl, rfl⟩

theorem memory_crawl_completes_onePage : ∃ v : Crawl MemoryQueue.QueueState,
    Machine.Run (Step Engine.singleSlot memoryAnswers)
      ⟨Engine.start Engine.singleSlot {} ∅ 0, MemoryQueue.withPolicy .fifo⟩
      ([.ask (.add Engine.pageRequest {}) 0 pageKnown] ++ onePageEvents 0 ++
        [.engine (.flag (some true)) 0]) v ∧
      v.queue.pending.requests = [] ∧ "data:," ∈ v.queue.dedup ∧
      v.engine.results.length = v.queue.dedup.len := by
  obtain ⟨t₁, t₂, t₃, hadd, hfetch, hmark, hidle, hfinished⟩ := memory_onePage
  have hknown : Step Engine.singleSlot memoryAnswers
      ⟨Engine.start Engine.singleSlot {} ∅ 0, MemoryQueue.withPolicy .fifo⟩
      (.ask (.add Engine.pageRequest {}) 0 pageKnown)
      ⟨Engine.start Engine.singleSlot {} ∅ 0, t₁⟩ := .asked rfl hadd
  have hrun := ((Machine.Run.nil _).snoc hknown).append (run_onePage hfetch hmark hidle)
  have hlast : Step Engine.singleSlot memoryAnswers ⟨System.beforeFlag, t₃⟩
      (.engine (.flag (some true)) 0)
      ⟨{ System.beforeFlag with phase := .returned none }, t₃⟩ := .called rfl rfl hfinished
  have hquiet : ∀ e ∈ [] ++ [.ask (.add Engine.pageRequest {}) 0 pageKnown] ++ onePageEvents 0 ++
      [.engine (.flag (some true)) 0], e.undisturbed := by
    intro e he
    simp only [List.nil_append, List.mem_append, List.mem_singleton] at he
    obtain (rfl | he) | rfl := he
    · trivial
    · exact undisturbed_onePageEvents he
    · trivial
  obtain ⟨-, ⟨limit, hnone, -⟩ | ⟨hpending, -, hkeys, -, hresults⟩⟩ :=
    memory_crawl_completes .fifo {} ∅ 0 hrun hlast (by decide) hquiet Engine.Phase.noConfusion rfl
  · cases hnone
  · refine ⟨_, hrun.snoc hlast, hpending, hkeys "data:," ?_, hresults⟩
    exact ⟨_, 0, _, List.mem_cons_self, Engine.pageRequest, List.mem_singleton_self _, rfl⟩

end Millipede.Crawl
