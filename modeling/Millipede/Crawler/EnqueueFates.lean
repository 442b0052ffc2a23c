import Mathlib.Data.List.Zip
import Millipede.Crawler.EnqueueSend

/-!
# The fate of a candidate

The loops of `EnqueueLinks::send` go over the candidates one after another, but each candidate
alone meets the rules in one order, and the first one that applies decides.
-/

namespace Millipede.EnqueueLinks

open Enqueue (PatternOverrides Candidate LinkOptions TransformResult Admission)

inductive Fate where
  | skipped (skip : SkippedUrl)
  | repeated
  | truncated
  | added (info : ProcessedRequest)

def Fate.skip? : Fate → Option SkippedUrl
  | .skipped skip => some skip
  | _ => none

def Fate.info? : Fate → Option ProcessedRequest
  | .added info => some info
  | _ => none

def Fate.dropped : Fate → Bool
  | .repeated => true
  | .truncated => true
  | _ => false

/-- What a call goes by once it has compiled its patterns, and what the queue replied. -/
structure Sending where
  crates : Crates
  policy : CrawlPolicy
  filters : Filters
  options : EnqueueLinksOptions
  admission : ℕ → Except CrawlError Admission
  processed : List ProcessedRequest

structure Place where
  earlier : List UrlCandidate
  candidate : UrlCandidate

namespace Sending

def survivors (call : Sending) (candidates : List UrlCandidate) : List Candidate :=
  candidates.filterMap fun candidate => (screen call.crates call.filters candidate).toOption

def retained (call : Sending) (candidates : List UrlCandidate) : List Candidate :=
  call.options.retained (call.survivors candidates)

def attempt (call : Sending) (turn : ℕ) (candidate : Candidate) :
    Except CrawlError (Except SkippedUrl Request) :=
  EnqueueLinks.attempt call.crates call.policy call.options call.admission turn candidate

def drafts (call : Sending) (kept : List Candidate) : List Request :=
  kept.zipIdx.filterMap fun p =>
    match call.attempt p.2 p.1 with
    | .ok (.ok request) => some request
    | _ => none

def turn (call : Sending) (place : Place) : ℕ := (call.retained place.earlier).length
def slot (call : Sending) (place : Place) : ℕ := (call.drafts (call.retained place.earlier)).length

def ifResolved (call : Sending) (place : Place) (rule : Url → Option Fate) : Option Fate :=
  match resolve call.crates call.filters place.candidate with
  | .error _ => none
  | .ok url => rule url

def built (call : Sending) (url : Url) : Except RequestBuildError Request :=
  build call.crates call.options
    { url, overrides := (call.filters.includeOverride url.serialization).getD {} }

def unresolvable (call : Sending) (place : Place) : Option Fate :=
  match resolve call.crates call.filters place.candidate with
  | .error raw => some (.skipped ⟨raw, .invalidUrl⟩)
  | .ok _ => none

def outsideStrategy (call : Sending) (place : Place) : Option Fate :=
  call.ifResolved place fun url =>
    if place.candidate.applyStrategy ∧
        call.crates.strategyAllows call.filters.strategy call.filters.parentUrl url = false then
      some (.skipped ⟨url.serialization, .strategyExcluded⟩)
    else none

def excluded (call : Sending) (place : Place) : Option Fate :=
  call.ifResolved place fun url =>
    (firstExclusion call.filters.excludes url.serialization).map fun reason =>
      .skipped ⟨url.serialization, reason⟩

def notIncluded (call : Sending) (place : Place) : Option Fate :=
  call.ifResolved place fun url =>
    if (call.filters.includes ≠ [] ∨ call.filters.regex ≠ []) ∧
        (∀ p ∈ call.filters.includes, p.pattern.isMatch url.serialization = false) ∧
        ∀ isMatch ∈ call.filters.regex, isMatch url.serialization = false then
      some (.skipped ⟨url.serialization,
        if call.filters.includes = [] then .regexExcluded else .globExcluded⟩)
    else none

def repeated (call : Sending) (place : Place) : Option Fate :=
  call.ifResolved place fun url =>
    if url.serialization ∈ (call.survivors place.earlier).map fun c => c.url.serialization then
      some .repeated
    else none

def beyondLimit (call : Sending) (place : Place) : Option Fate :=
  match call.options.limit with
  | some limit => if limit ≤ call.turn place then some .truncated else none
  | none => none

def notBuildable (call : Sending) (place : Place) : Option Fate :=
  call.ifResolved place fun url =>
    match call.built url with
    | .error _ => some (.skipped ⟨url.serialization, .invalidUrl⟩)
    | .ok _ => none

def tooDeep (call : Sending) (place : Place) : Option Fate :=
  call.ifResolved place fun url =>
    match call.policy.maxCrawlDepth with
    | some limit =>
      if limit < call.options.childDepth then
        some (.skipped ⟨url.serialization, .maxDepthExceeded call.options.childDepth limit⟩)
      else none
    | none => none

def noSlot (call : Sending) (place : Place) : Option Fate :=
  call.ifResolved place fun url =>
    match call.policy.maxRequestsPerCrawl, call.admission (call.turn place) with
    | some limit, .ok .rejected => some (.skipped ⟨url.serialization, .maxRequestsReached limit⟩)
    | _, _ => none

def transformRejects (call : Sending) (place : Place) : Option Fate :=
  call.ifResolved place fun url =>
    match call.built url with
    | .error _ => none
    | .ok request =>
      match transformed call.options (call.turn place) request with
      | (.skip reason, _) => some (.skipped ⟨url.serialization, .transformRejected reason⟩)
      | (.enqueue, _) => none

/-- The URL that is reported is the one that the transform left. -/
def alreadyKnown (call : Sending) (place : Place) : Option Fate :=
  call.ifResolved place fun url =>
    match call.built url, call.processed[call.slot place]? with
    | .ok request, some info =>
      if ProcessedRequest.known info then
        some (.skipped
          ⟨(transformed call.options (call.turn place) request).2.url.serialization,
            .duplicateUniqueKey⟩)
      else none
    | _, _ => none

def isAdded (call : Sending) (place : Place) : Option Fate :=
  call.processed[call.slot place]?.map .added

def rules : List (Sending → Place → Option Fate) :=
  [unresolvable, outsideStrategy, excluded, notIncluded, repeated, beyondLimit, notBuildable,
    tooDeep, noSlot, transformRejects, alreadyKnown, isAdded]

/-- The first rule that applies. -/
def fateOf (call : Sending) (place : Place) : Option Fate :=
  rules.findSome? fun rule => rule call place

variable {call : Sending} {place : Place} {candidate : UrlCandidate} {earlier : List UrlCandidate}

theorem notIncluded_iff (filters : Filters) (text : String) :
    ((!filters.includes.isEmpty || !filters.regex.isEmpty) &&
        ((filters.includeOverride text).isNone &&
          !filters.regex.any fun isMatch => isMatch text)) = true ↔
      (filters.includes ≠ [] ∨ filters.regex ≠ []) ∧
        (∀ p ∈ filters.includes, p.pattern.isMatch text = false) ∧
        ∀ isMatch ∈ filters.regex, isMatch text = false := by
  simp [Filters.includeOverride]

/-- The rules of the first loop, in its order. -/
theorem screen_error (earlier : List UrlCandidate) {skip : SkippedUrl}
    (h : screen call.crates call.filters candidate = .error skip) :
    call.fateOf ⟨earlier, candidate⟩ = some (.skipped skip) := by
  simp only [screen] at h
  cases hresolve : resolve call.crates call.filters candidate with
  | error raw =>
    rw [hresolve] at h
    cases h
    simp [fateOf, rules, unresolvable, hresolve]
  | ok url =>
    simp only [hresolve] at h
    have hfirst : call.unresolvable ⟨earlier, candidate⟩ = none := by
      simp only [unresolvable, hresolve]
    split at h
    · rename_i hstrategy
      cases h
      simp only [Bool.and_eq_true, Bool.not_eq_true'] at hstrategy
      simp [fateOf, rules, hfirst, outsideStrategy, ifResolved, hresolve, hstrategy]
    · rename_i hstrategy
      simp only [Bool.and_eq_true, Bool.not_eq_true'] at hstrategy
      have hsecond : call.outsideStrategy ⟨earlier, candidate⟩ = none := by
        simp only [outsideStrategy, ifResolved, hresolve, if_neg hstrategy]
      split at h
      · rename_i reason hreason
        cases h
        simp [fateOf, rules, hfirst, hsecond, excluded, ifResolved, hresolve, hreason]
      · rename_i hreason
        have hthird : call.excluded ⟨earlier, candidate⟩ = none := by
          simp only [excluded, ifResolved, hresolve, hreason, Option.map_none]
        split at h
        · rename_i hincluded
          cases h
          rw [notIncluded_iff] at hincluded
          have hfourth : call.notIncluded ⟨earlier, candidate⟩ = some (.skipped
              ⟨url.serialization,
                if call.filters.includes = [] then .regexExcluded else .globExcluded⟩) := by
            simp only [notIncluded, ifResolved, hresolve, if_pos hincluded]
          simp [fateOf, rules, hfirst, hsecond, hthird, hfourth]
        · cases h

theorem screen_ok (earlier : List UrlCandidate) {kept : Candidate}
    (h : screen call.crates call.filters candidate = .ok kept) :
    resolve call.crates call.filters candidate = .ok kept.url ∧
      kept = { url := kept.url,
               overrides := (call.filters.includeOverride kept.url.serialization).getD {} } ∧
      call.fateOf ⟨earlier, candidate⟩ =
        [repeated, beyondLimit, notBuildable, tooDeep, noSlot, transformRejects, alreadyKnown,
          isAdded].findSome? fun rule => rule call ⟨earlier, candidate⟩ := by
  simp only [screen] at h
  cases hresolve : resolve call.crates call.filters candidate with
  | error raw =>
    rw [hresolve] at h
    cases h
  | ok url =>
    simp only [hresolve] at h
    split at h
    · cases h
    · rename_i hstrategy
      simp only [Bool.and_eq_true, Bool.not_eq_true'] at hstrategy
      split at h
      · cases h
      · rename_i hreason
        split at h
        · cases h
        · rename_i hincluded
          rw [notIncluded_iff] at hincluded
          cases h
          refine ⟨rfl, rfl, ?_⟩
          have hfirst : call.unresolvable ⟨earlier, candidate⟩ = none := by
            simp only [unresolvable, hresolve]
          have hsecond : call.outsideStrategy ⟨earlier, candidate⟩ = none := by
            simp only [outsideStrategy, ifResolved, hresolve, if_neg hstrategy]
          have hthird : call.excluded ⟨earlier, candidate⟩ = none := by
            simp only [excluded, ifResolved, hresolve, hreason, Option.map_none]
          have hfourth : call.notIncluded ⟨earlier, candidate⟩ = none := by
            simp only [notIncluded, ifResolved, hresolve, if_neg hincluded]
          simp [fateOf, rules, hfirst, hsecond, hthird, hfourth]

def settled (call : Sending) (slot : ℕ) (request : Request) : Option Fate :=
  call.processed[slot]?.map fun info =>
    if ProcessedRequest.known info then
      .skipped ⟨request.url.serialization, .duplicateUniqueKey⟩
    else .added info

def decided (call : Sending) (slot : ℕ) : Except SkippedUrl Request → Option Fate
  | .error skip => some (.skipped skip)
  | .ok request => call.settled slot request

theorem rekey_url (toVec : Json → List UInt8) (request edited : Request) :
    (Enqueue.rekey toVec request edited).url = edited.url := by
  simp only [Enqueue.rekey]
  split_ifs <;> rfl

theorem attempt_fate {kept : Candidate} {outcome : Except SkippedUrl Request}
    (hscreen : screen call.crates call.filters candidate = .ok kept)
    (hrepeated : call.repeated ⟨earlier, candidate⟩ = none)
    (hlimit : call.beyondLimit ⟨earlier, candidate⟩ = none)
    (h : call.attempt (call.turn ⟨earlier, candidate⟩) kept = .ok outcome) :
    call.fateOf ⟨earlier, candidate⟩ =
      call.decided (call.slot ⟨earlier, candidate⟩) outcome := by
  obtain ⟨hresolve, hkept, hfate⟩ := screen_ok earlier hscreen
  have hbuilt : call.built kept.url = build call.crates call.options kept := by
    rw [built, ← hkept]
  rw [hfate]
  simp only [attempt, EnqueueLinks.attempt, ← hbuilt] at h
  cases hbuild : call.built kept.url with
  | error error =>
    simp only [hbuild] at h
    cases h
    have hrule : call.notBuildable ⟨earlier, candidate⟩ =
        some (.skipped ⟨kept.url.serialization, .invalidUrl⟩) := by
      simp only [notBuildable, ifResolved, hresolve, hbuild]
    simp [hrepeated, hlimit, hrule, decided]
  | ok request =>
    simp only [hbuild] at h
    have hbuildable : call.notBuildable ⟨earlier, candidate⟩ = none := by
      simp only [notBuildable, ifResolved, hresolve, hbuild]
    split at h
    · rename_i limit hdeep
      cases h
      obtain ⟨hmax, hless⟩ := Option.filter_eq_some_iff.mp hdeep
      have hrule : call.tooDeep ⟨earlier, candidate⟩ = some (.skipped
          ⟨kept.url.serialization, .maxDepthExceeded call.options.childDepth limit⟩) := by
        simp only [tooDeep, ifResolved, hresolve, hmax, if_pos (of_decide_eq_true hless)]
      simp [hrepeated, hlimit, hbuildable, hrule, decided]
    · rename_i hdeep
      have hshallow : call.tooDeep ⟨earlier, candidate⟩ = none := by
        simp only [tooDeep, ifResolved, hresolve]
        cases hmax : call.policy.maxCrawlDepth with
        | none => rfl
        | some limit =>
          rw [hmax] at hdeep
          simpa using hdeep
      split at h
      · cases h
      · rename_i hadmission
        cases h
        simp only [admissionAt] at hadmission
        cases hmax : call.policy.maxRequestsPerCrawl with
        | none => simp [hmax] at hadmission
        | some limit =>
          simp only [hmax, Option.isSome_some, if_true] at hadmission
          have hrule : call.noSlot ⟨earlier, candidate⟩ =
              some (.skipped ⟨kept.url.serialization, .maxRequestsReached limit⟩) := by
            simp only [noSlot, ifResolved, hresolve, hmax, hadmission]
          simp [hrepeated, hlimit, hbuildable, hshallow, hrule, decided]
      · rename_i granted hgranted hadmission
        have hslot : call.noSlot ⟨earlier, candidate⟩ = none := by
          simp only [noSlot, ifResolved, hresolve]
          cases hmax : call.policy.maxRequestsPerCrawl with
          | none => rfl
          | some limit =>
            simp only [admissionAt, hmax, Option.isSome_some, if_true] at hadmission
            rw [hadmission]
            cases granted with
            | reserved => rfl
            | untracked => rfl
            | rejected => exact absurd rfl hgranted
        split at h
        · rename_i reason edited htransform
          cases h
          have hrule : call.transformRejects ⟨earlier, candidate⟩ =
              some (.skipped ⟨kept.url.serialization, .transformRejected reason⟩) := by
            simp only [transformRejects, ifResolved, hresolve, hbuild, htransform]
          simp [hrepeated, hlimit, hbuildable, hshallow, hslot, hrule, decided]
        · rename_i edited htransform
          cases h
          have htransforms : call.transformRejects ⟨earlier, candidate⟩ = none := by
            simp only [transformRejects, ifResolved, hresolve, hbuild, htransform]
          have hknown : call.alreadyKnown ⟨earlier, candidate⟩ =
              call.processed[call.slot ⟨earlier, candidate⟩]?.bind fun info =>
                if ProcessedRequest.known info then
                  some (.skipped ⟨edited.url.serialization, .duplicateUniqueKey⟩)
                else none := by
            simp only [alreadyKnown, ifResolved, hresolve, hbuild]
            cases call.processed[call.slot ⟨earlier, candidate⟩]? with
            | none => rfl
            | some info => simp only [htransform, Option.bind_some]
          simp only [decided, settled, rekey_url]
          cases hinfo : call.processed[call.slot ⟨earlier, candidate⟩]? with
          | none =>
            rw [hinfo] at hknown
            simp [hrepeated, hlimit, hbuildable, hshallow, hslot, htransforms, hknown, isAdded,
              hinfo]
          | some info =>
            simp only [hinfo, Option.bind_some] at hknown
            split_ifs at hknown with hflags
            · simp [hrepeated, hlimit, hbuildable, hshallow, hslot, htransforms, hknown, hflags]
            · simp [hrepeated, hlimit, hbuildable, hshallow, hslot, htransforms, hknown, hflags,
                isAdded, hinfo]

end Sending

end Millipede.EnqueueLinks
