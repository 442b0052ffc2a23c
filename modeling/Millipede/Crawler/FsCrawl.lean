import Millipede.Crawler.QueueCrawl
import Millipede.Storage.FsQueueRecovery

/-!
# A crawl over the file-system queue

The processes before may have been killed at any moment, in the middle of a write too. Whatever
they have left in the directory, the next one opens it and crawls what is still to be crawled.
-/

namespace Millipede.Crawl

open Engine (EngineOptions)
open FsQueue (Codec Disk Good Legal Process Surroundings u64Max)

variable {β : Type*} {codec : Codec β} {K : Set String}

/-- The keys of the requests that the processes before have acknowledged. -/
def Promised (codec : Codec β) (es : List (FsQueue.Event β)) (key : String) : Prop :=
  ∃ es₁ env op es₂ s₁ d₁ reply s₂ d₂, es = es₁ ++ .call env op :: es₂ ∧
    Process.run codec es₁ = .running s₁ d₁ ∧
    FsQueue.call codec env s₁ d₁ op = .returned (.ok reply) s₂ d₂ ∧
    ∃ info ∈ reply.processed, info.uniqueKey = key

/-- The directory can be opened, and whoever opens it finds what was promised. -/
theorem opens (hround : codec.RoundTrips) (inj : Set.InjOn RequestId.fromUniqueKey K)
    {before : List (FsQueue.Event β)}
    (legal : Machine.Along (Process.step codec) (Legal K) Process.start before)
    (short : before.length < u64Max) {d : Disk β} (hd : (Process.run codec before).disk = d) :
    ∃ s, FsQueue.scanQueue codec d = .ok s ∧ Good codec K before.length s d ∧
      ∀ key, Promised codec before key → s.dedup.lookup key ≠ none := by
  have hgood := Process.Good.run inj hround Process.kept_start legal (by omega)
  rw [Nat.zero_add] at hgood
  have hkept : ∃ s, Good codec K before.length s d := by
    rw [Process.run] at hd
    cases hp : before.foldl (Process.step codec) Process.start with
    | running s d' =>
      rw [hp] at hd hgood
      cases hd
      exact ⟨s, hgood⟩
    | stopped d' =>
      rw [hp] at hd hgood
      cases hd
      exact hgood
  obtain ⟨s₀, hg⟩ := hkept
  obtain ⟨s, hscan, hg', -⟩ := FsQueue.scanQueue_kept hg hround short.le
  refine ⟨s, hscan, hg', ?_⟩
  rintro key ⟨es₁, env, op, es₂, s₁, d₁, reply, s₂, d₂, hes, hrun, hcall, info, hinfo, rfl⟩
  have hlasting := FsQueue.run_lasting inj hround short legal hg' hd
  obtain ⟨r, orderNo, hlast, hkey⟩ := (hlasting _ _ _ _ _ _ _ _ _ hes hrun hcall).1 info hinfo
  rw [hg'.mirrors.last] at hlast
  obtain ⟨st, hst, heq⟩ := Option.map_eq_some_iff.mp hlast
  cases heq
  rw [← hkey, hg'.consistent.stored_dedup _ st hst]
  exact Option.some_ne_none _

end Millipede.Crawl
