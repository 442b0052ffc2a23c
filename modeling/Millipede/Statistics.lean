import Millipede.Request

/-!
# Crawl statistics

The counters of `StatisticsHandle` and what the three `record_*` calls do to them.
The sliding window behind the per-minute rates and the subscribers are left out:
nothing else reads them.
-/

namespace Millipede

/-- The Unicode `White_Space` characters, which `split_whitespace` splits at. -/
def isWhitespace (c : Char) : Bool :=
  let n := c.toNat
  (0x9 ≤ n && n ≤ 0xd) || n == 0x20 || n == 0x85 || n == 0xa0 || n == 0x1680 ||
    (0x2000 ≤ n && n ≤ 0x200a) || n == 0x2028 || n == 0x2029 || n == 0x202f || n == 0x205f ||
    n == 0x3000

def splitBy (p : Char → Bool) : List Char → List (List Char)
  | [] => [[]]
  | c :: cs =>
    if p c then [] :: splitBy p cs
    else
      match splitBy p cs with
      | [] => [[c]]
      | piece :: pieces => (c :: piece) :: pieces

def firstLine (text : List Char) : List Char :=
  let line := text.takeWhile (· ≠ '\n')
  if line.length < text.length && line.getLast? == some '\r' then line.dropLast else line

def isUuidToken (token : List Char) : Bool :=
  let parts := splitBy (· == '-') token
  parts.map List.length == [8, 4, 4, 4, 12] &&
    parts.all fun part => part.all fun c =>
      ('0' ≤ c && c ≤ '9') || ('a' ≤ c && c ≤ 'f') || ('A' ≤ c && c ≤ 'F')

/-- A run of digits becomes one `#`. -/
def maskDigits : Bool → List Char → List Char
  | _, [] => []
  | previousWasDigit, c :: cs =>
    if c.isDigit then
      if previousWasDigit then maskDigits true cs else '#' :: maskDigits true cs
    else c :: maskDigits false cs

def maskToken (token : List Char) : List Char :=
  if "http://".toList.isPrefixOf token || "https://".toList.isPrefixOf token then "<url>".toList
  else if isUuidToken token then "<uuid>".toList
  else maskDigits false token

def errorKeyMaxChars : ℕ := 200

def normalizeErrorKey (errorKey : String) : String :=
  let tokens := (splitBy isWhitespace (firstLine errorKey.toList)).filter (· ≠ [])
  String.ofList (([' '].intercalate (tokens.map maskToken)).take errorKeyMaxChars)

structure Statistics where
  requestsFinished : ℕ := 0
  requestsFailed : ℕ := 0
  requestsRetries : ℕ := 0
  requestDurationSum : Duration := 0
  requestMinDuration : Duration := 0
  requestMaxDuration : Duration := 0
  statusCodes : HashMap ℕ ℕ := ∅
  retryHistogram : List ℕ := []
  errors : HashMap String ℕ := ∅
  retryErrors : HashMap String ℕ := ∅

namespace Statistics

/-- `*map.entry(key).or_default() += 1` -/
def bump {κ : Type*} [DecidableEq κ] (m : HashMap κ ℕ) (key : κ) : HashMap κ ℕ :=
  m.insert key ((m.lookup key).getD 0 + 1)

def recordDuration (s : Statistics) (duration : Duration) : Statistics :=
  let first := s.requestsFinished + s.requestsFailed = 1
  { s with
    requestDurationSum := s.requestDurationSum + duration
    requestMinDuration :=
      if first ∨ duration < s.requestMinDuration then duration else s.requestMinDuration
    requestMaxDuration :=
      if first ∨ s.requestMaxDuration < duration then duration else s.requestMaxDuration }

def recordTerminalRetryCount (s : Statistics) (retryCount : ℕ) : Statistics :=
  let histogram := s.retryHistogram ++
    List.replicate (retryCount + 1 - s.retryHistogram.length) 0
  { s with retryHistogram := histogram.modify retryCount (· + 1) }

def recordFinished (s : Statistics) (duration : Duration) (statusCode : Option ℕ)
    (retryCount : ℕ) : Statistics :=
  let s := { s with requestsFinished := s.requestsFinished + 1 }
  let s := (s.recordDuration duration).recordTerminalRetryCount retryCount
  match statusCode with
  | some code => { s with statusCodes := bump s.statusCodes code }
  | none => s

def recordFailed (s : Statistics) (duration : Duration) (errorKey : String)
    (retryCount : ℕ) : Statistics :=
  let s := { s with requestsFailed := s.requestsFailed + 1 }
  let s := (s.recordDuration duration).recordTerminalRetryCount retryCount
  { s with errors := bump s.errors (normalizeErrorKey errorKey) }

def recordRetry (s : Statistics) (errorKey : String) : Statistics :=
  { s with
    requestsRetries := s.requestsRetries + 1
    retryErrors := bump s.retryErrors (normalizeErrorKey errorKey) }

@[simp] theorem requestsFinished_recordFinished (s : Statistics) (duration : Duration)
    (code : Option ℕ) (retryCount : ℕ) :
    (s.recordFinished duration code retryCount).requestsFinished = s.requestsFinished + 1 := by
  cases code <;> rfl

@[simp] theorem requestsFailed_recordFinished (s : Statistics) (duration : Duration)
    (code : Option ℕ) (retryCount : ℕ) :
    (s.recordFinished duration code retryCount).requestsFailed = s.requestsFailed := by
  cases code <;> rfl

@[simp] theorem requestsRetries_recordFinished (s : Statistics) (duration : Duration)
    (code : Option ℕ) (retryCount : ℕ) :
    (s.recordFinished duration code retryCount).requestsRetries = s.requestsRetries := by
  cases code <;> rfl

@[simp] theorem requestsFinished_recordFailed (s : Statistics) (duration : Duration)
    (errorKey : String) (retryCount : ℕ) :
    (s.recordFailed duration errorKey retryCount).requestsFinished = s.requestsFinished := rfl

@[simp] theorem requestsFailed_recordFailed (s : Statistics) (duration : Duration)
    (errorKey : String) (retryCount : ℕ) :
    (s.recordFailed duration errorKey retryCount).requestsFailed = s.requestsFailed + 1 := rfl

@[simp] theorem requestsRetries_recordFailed (s : Statistics) (duration : Duration)
    (errorKey : String) (retryCount : ℕ) :
    (s.recordFailed duration errorKey retryCount).requestsRetries = s.requestsRetries := rfl

end Statistics

example : normalizeErrorKey "non-retryable: fetch https://a.com/1 failed in 42ms" =
    "non-retryable: fetch <url> failed in #ms" := by decide

end Millipede
