import Millipede.Crawler.EnqueueKeys
import Millipede.Errors
import Millipede.RequestBuilder

/-!
# Sending links

`EnqueueLinks::send` from its candidates to its result. The `url` and `globset` crates, the
registrable domains and the extractor are parameters. The admission and the transform are asked
once in each turn of the loop over the retained candidates, and what they answer is arbitrary,
as is the reply of the queue.
-/

namespace Millipede.EnqueueLinks

open Enqueue (PatternOverrides Candidate LinkOptions TransformResult Admission)

inductive EnqueueStrategy where
  | all
  | sameHostname
  | sameDomain
  | sameOrigin
  deriving DecidableEq, Repr

inductive SkipReason where
  | maxDepthExceeded (depth limit : ℕ)
  | maxRequestsReached (limit : ℕ)
  | strategyExcluded
  | globExcluded
  | regexExcluded
  | transformRejected (reason : String)
  | duplicateUniqueKey
  | invalidUrl
  deriving DecidableEq, Repr

structure SkippedUrl where
  url : String
  reason : SkipReason
  deriving DecidableEq, Repr

inductive UrlCandidate where
  | absolute (url : Url)
  | raw (url : String) (base : Option Url)

inductive UrlPattern where
  | glob (pattern : String)
  | regex (isMatch : String → Bool)

structure GlobPattern where
  pattern : UrlPattern
  overrides : PatternOverrides := {}

inductive CompiledPattern where
  | glob (isMatch : String → Bool)
  | regex (isMatch : String → Bool)

def CompiledPattern.isMatch : CompiledPattern → String → Bool
  | .glob isMatch => isMatch
  | .regex isMatch => isMatch

structure CompiledInclude where
  pattern : CompiledPattern
  overrides : PatternOverrides

structure Crates where
  formats : Formats
  toVec : Json → List UInt8
  join : Url → String → Option Url
  strategyAllows : EnqueueStrategy → Url → Url → Bool
  compileGlob : String → Except AnyError (String → Bool)

structure CrawlPolicy extends Enqueue.CrawlPolicy where
  strategy : EnqueueStrategy
  /-- Whether there is a handler of skipped URLs. -/
  onSkipped : Bool

def CrawlPolicy.default : CrawlPolicy where
  maxCrawlDepth := none
  maxRequestsPerCrawl := none
  strategy := .sameHostname
  onSkipped := false

structure EnqueueLinker where
  crawlPolicy : Option CrawlPolicy
  parentUrl : Url
  extractor : Option (Option String → Except CrawlError (List (String × Option Url)))

structure EnqueueLinksOptions extends LinkOptions where
  candidates : List UrlCandidate := []
  baseUrl : Option Url := none
  selector : Option String := none
  strategy : Option EnqueueStrategy := none
  globs : List GlobPattern := []
  regex : List (String → Bool) := []
  exclude : List UrlPattern := []
  transform : Option (ℕ → Request → TransformResult × Request) := none
  forefront : Bool := false

/-- What `reserve_request_slot` answers in each turn, and the queue. -/
structure Answers where
  admission : ℕ → Except CrawlError Admission
  addBatch : List Request → Bool → Except CrawlError (List ProcessedRequest)

structure EnqueueResult where
  added : List ProcessedRequest
  skipped : List SkippedUrl

def allCandidates (linker : EnqueueLinker) (options : EnqueueLinksOptions) :
    Except CrawlError (List UrlCandidate) :=
  if options.selector.isSome || (options.candidates.isEmpty && linker.extractor.isSome) then
    match linker.extractor with
    | none => .error (.nonRetryable (.msg
        ("selector-based enqueue requires an HTML or browser context; " ++
          "use urls()/raw_urls() on HTTP contexts")))
    | some extract =>
      match extract options.selector with
      | .error error => .error error
      | .ok links => .ok (options.candidates ++ links.map fun link => .raw link.1 link.2)
  else .ok options.candidates

section Patterns
variable (crates : Crates)

def compilePattern : UrlPattern → Except CrawlError CompiledPattern
  | .glob pattern =>
    match crates.compileGlob pattern with
    | .ok isMatch => .ok (.glob isMatch)
    | .error error => .error (.nonRetryable error)
  | .regex isMatch => .ok (.regex isMatch)

def compilePatterns : List UrlPattern → Except CrawlError (List CompiledPattern)
  | [] => .ok []
  | pattern :: rest =>
    match compilePattern crates pattern with
    | .error error => .error error
    | .ok pattern => (compilePatterns rest).map (pattern :: ·)

def compileIncludePatterns : List GlobPattern → Except CrawlError (List CompiledInclude)
  | [] => .ok []
  | source :: rest =>
    match compilePattern crates source.pattern with
    | .error error => .error error
    | .ok pattern =>
      (compileIncludePatterns rest).map ({ pattern, overrides := source.overrides } :: ·)

end Patterns

structure Filters where
  strategy : EnqueueStrategy
  parentUrl : Url
  baseUrl : Option Url
  includes : List CompiledInclude
  regex : List (String → Bool)
  excludes : List CompiledPattern

def firstExclusion (patterns : List CompiledPattern) (url : String) : Option SkipReason :=
  patterns.findSome? fun pattern =>
    if pattern.isMatch url then
      some (match pattern with
        | .glob _ => .globExcluded
        | .regex _ => .regexExcluded)
    else none

/-- A relative reference has no colon in its first path segment. -/
def resolveRawUrl (crates : Crates) (base : Url) (raw : String) : Option Url :=
  match crates.formats.parseUrl raw with
  | .ok absolute => some absolute
  | .error _ =>
    let path := raw.toList.takeWhile fun c => c ≠ '?' ∧ c ≠ '#'
    if ':' ∈ path.takeWhile (· ≠ '/') then none else crates.join base raw

def resolve (crates : Crates) (filters : Filters) : UrlCandidate → Except String Url
  | .absolute url => .ok url
  | .raw raw base =>
    match resolveRawUrl crates ((base.or filters.baseUrl).getD filters.parentUrl) raw with
    | some url => .ok url
    | none => .error raw

def UrlCandidate.applyStrategy : UrlCandidate → Bool
  | .absolute _ => false
  | .raw _ _ => true

def Filters.includeOverride (filters : Filters) (url : String) : Option PatternOverrides :=
  (filters.includes.find? fun p => p.pattern.isMatch url).map CompiledInclude.overrides

/-- One turn of the first loop: the candidate is skipped, or kept. -/
def screen (crates : Crates) (filters : Filters) (candidate : UrlCandidate) :
    Except SkippedUrl Candidate :=
  match resolve crates filters candidate with
  | .error raw => .error ⟨raw, .invalidUrl⟩
  | .ok url =>
    let urlText := url.serialization
    if candidate.applyStrategy && !crates.strategyAllows filters.strategy filters.parentUrl url then
      .error ⟨urlText, .strategyExcluded⟩
    else
      match firstExclusion filters.excludes urlText with
      | some reason => .error ⟨urlText, reason⟩
      | none =>
        let hasGlobs := !filters.includes.isEmpty
        let includeOverride := filters.includeOverride urlText
        if (hasGlobs || !filters.regex.isEmpty) &&
            (includeOverride.isNone && !filters.regex.any fun isMatch => isMatch urlText) then
          .error ⟨urlText, if hasGlobs then .globExcluded else .regexExcluded⟩
        else .ok { url, overrides := includeOverride.getD {} }

structure Log where
  skipped : List SkippedUrl := []
  reported : List SkippedUrl := []

def reportSkip (policy : CrawlPolicy) (log : Log) (skip : SkippedUrl) : Log where
  skipped := log.skipped ++ [skip]
  reported := if policy.onSkipped then log.reported ++ [skip] else log.reported

def filterCandidates (crates : Crates) (policy : CrawlPolicy) (filters : Filters) :
    Log → List UrlCandidate → Log × List Candidate
  | log, [] => (log, [])
  | log, candidate :: rest =>
    match screen crates filters candidate with
    | .error skip => filterCandidates crates policy filters (reportSkip policy log skip) rest
    | .ok kept =>
      let (log, candidates) := filterCandidates crates policy filters log rest
      (log, kept :: candidates)

section Prepare
variable (crates : Crates) (policy : CrawlPolicy) (options : EnqueueLinksOptions)
  (admission : ℕ → Except CrawlError Admission)

def build (candidate : Candidate) : Except RequestBuildError Request :=
  RequestBuilder.build crates.formats crates.toVec
    { url := some (.ok candidate.url)
      method := candidate.overrides.method
      headers := candidate.overrides.headers.getD []
      userData := (candidate.overrides.userData.or options.userData).getD []
      label := candidate.overrides.label.or options.label
      crawlDepth := options.childDepth }

def admissionAt (turn : ℕ) : Except CrawlError Admission :=
  if policy.maxRequestsPerCrawl.isSome then admission turn else .ok .untracked

def transformed (turn : ℕ) (request : Request) : TransformResult × Request :=
  match options.transform with
  | none => (.enqueue, request)
  | some transform => transform turn request

/-- One turn of the second loop: the call fails, or the candidate is skipped, or it becomes a
request for the queue. -/
def attempt (turn : ℕ) (candidate : Candidate) : Except CrawlError (Except SkippedUrl Request) :=
  let urlText := candidate.url.serialization
  match build crates options candidate with
  | .error _ => .ok (.error ⟨urlText, .invalidUrl⟩)
  | .ok request =>
    match policy.maxCrawlDepth.filter fun limit => decide (limit < options.childDepth) with
    | some limit => .ok (.error ⟨urlText, .maxDepthExceeded options.childDepth limit⟩)
    | none =>
      match admissionAt policy admission turn with
      | .error error => .error error
      | .ok .rejected =>
        .ok (.error ⟨urlText, .maxRequestsReached (policy.maxRequestsPerCrawl.getD 0)⟩)
      | .ok _ =>
        match transformed options turn request with
        | (.skip reason, _) => .ok (.error ⟨urlText, .transformRejected reason⟩)
        | (.enqueue, edited) => .ok (.ok (Enqueue.rekey crates.toVec request edited))

def prepare : (turn : ℕ) → Log → List Candidate → Except CrawlError (Log × List Request)
  | _, log, [] => .ok (log, [])
  | turn, log, candidate :: rest =>
    match attempt crates policy options admission turn candidate with
    | .error error => .error error
    | .ok (.error skip) => prepare (turn + 1) (reportSkip policy log skip) rest
    | .ok (.ok request) =>
      (prepare (turn + 1) log rest).map fun result => (result.1, request :: result.2)

end Prepare

def ProcessedRequest.known (info : ProcessedRequest) : Bool :=
  info.wasAlreadyPresent || info.wasAlreadyHandled

/-- The loop over what the queue has processed, with the URLs of the requests. -/
def settle (policy : CrawlPolicy) : Log → List String → List ProcessedRequest →
    Log × List ProcessedRequest
  | log, _, [] => (log, [])
  | log, urls, info :: rest =>
    if ProcessedRequest.known info then
      let skip := ⟨urls.head?.getD info.uniqueKey, .duplicateUniqueKey⟩
      settle policy (reportSkip policy log skip) urls.tail rest
    else
      let (log, added) := settle policy log urls.tail rest
      (log, info :: added)

def send (crates : Crates) (linker : EnqueueLinker) (options : EnqueueLinksOptions)
    (answers : Answers) : Except CrawlError (EnqueueResult × List SkippedUrl) :=
  match allCandidates linker options with
  | .error error => .error error
  | .ok candidates =>
    let policy := linker.crawlPolicy.getD .default
    match compileIncludePatterns crates options.globs, compilePatterns crates options.exclude with
    | .error error, _ => .error error
    | .ok _, .error error => .error error
    | .ok includes, .ok excludes =>
      let filters : Filters :=
        { strategy := options.strategy.getD policy.strategy, parentUrl := linker.parentUrl,
          baseUrl := options.baseUrl, includes, regex := options.regex, excludes }
      let (log, kept) := filterCandidates crates policy filters {} candidates
      match prepare crates policy options answers.admission 0 log
          (options.retained kept) with
      | .error error => .error error
      | .ok (log, requests) =>
        match answers.addBatch requests options.forefront with
        | .error error => .error error
        | .ok processed =>
          let (log, added) :=
            settle policy log (requests.map fun request => request.url.serialization) processed
          .ok ({ added, skipped := log.skipped }, log.reported)

end Millipede.EnqueueLinks
