import Millipede.Request

/-!
# Crawl errors

`CrawlError` with its classification. The `anyhow` error under a variant is its
chain: the text of each link, and the status and `Retry-After` of the links that
are HTTP status errors. `Debug` output of a string is a parameter of the display
text.
-/

namespace Millipede

abbrev StatusCode := ℕ

structure HttpStatusError where
  status : StatusCode
  retryAfter : Option Duration
  deriving DecidableEq, Repr

structure ErrorLink where
  text : String
  httpStatus : Option HttpStatusError
  deriving DecidableEq, Repr

/-- An error and its sources, the outermost first. -/
structure AnyError where
  outer : ErrorLink
  sources : List ErrorLink
  deriving DecidableEq, Repr

def AnyError.msg (text : String) : AnyError := ⟨⟨text, none⟩, []⟩

def AnyError.chain (e : AnyError) : List ErrorLink := e.outer :: e.sources

inductive AntiBotTech where
  | cloudflare
  | dataDome
  | perimeterX
  | kasada
  | imperva
  | akamai
  | custom (name : String)
  | unknown
  deriving DecidableEq, Repr

def AntiBotTech.debug (debugStr : String → String) : AntiBotTech → String
  | .cloudflare => "Cloudflare"
  | .dataDome => "DataDome"
  | .perimeterX => "PerimeterX"
  | .kasada => "Kasada"
  | .imperva => "Imperva"
  | .akamai => "Akamai"
  | .custom name => "Custom(" ++ debugStr name ++ ")"
  | .unknown => "Unknown"

inductive CrawlError where
  | retry (error : AnyError)
  | session (error : AnyError)
  | forceRetry (error : AnyError)
  | nonRetryable (error : AnyError)
  | critical (error : AnyError)
  | missingRoute (label : Option String) (method : String)
  | antiBotDetected (tech : AntiBotTech) (source : AnyError)
  deriving DecidableEq, Repr

namespace CrawlError

def source : CrawlError → Option AnyError
  | .retry error | .session error | .forceRetry error | .nonRetryable error
  | .critical error => some error
  | .antiBotDetected _ source => some source
  | .missingRoute _ _ => none

def httpStatus (e : CrawlError) : Option StatusCode :=
  e.source.bind fun error => error.chain.findSome? fun link =>
    link.httpStatus.map HttpStatusError.status

def retryAfter (e : CrawlError) : Option Duration :=
  e.source.bind fun error => error.chain.findSome? fun link =>
    link.httpStatus.bind HttpStatusError.retryAfter

def isRetryable : CrawlError → Bool
  | .retry _ | .session _ | .forceRetry _ | .antiBotDetected _ _ => true
  | _ => false

def rotatesSession : CrawlError → Bool
  | .session _ | .antiBotDetected _ _ => true
  | _ => false

def ignoresMaxRetries : CrawlError → Bool
  | .forceRetry _ => true
  | _ => false

def isCritical : CrawlError → Bool
  | .critical _ => true
  | _ => false

def antiBot : CrawlError → Option AntiBotTech
  | .antiBotDetected tech _ => some tech
  | _ => none

def debugLabel (debugStr : String → String) : Option String → String
  | some label => "Some(" ++ debugStr label ++ ")"
  | none => "None"

def toText (debugStr : String → String) : CrawlError → String
  | .retry error => "retryable: " ++ error.outer.text
  | .session error => "session: " ++ error.outer.text
  | .forceRetry error => "force-retry: " ++ error.outer.text
  | .nonRetryable error => "non-retryable: " ++ error.outer.text
  | .critical error => "critical: " ++ error.outer.text
  | .missingRoute label method =>
    "missing route for label " ++ debugLabel debugStr label ++ " (" ++ method ++ ")"
  | .antiBotDetected tech _ => "anti-bot detected: " ++ tech.debug debugStr

theorem isRetryable_of_ignoresMaxRetries {e : CrawlError} (h : e.ignoresMaxRetries = true) :
    e.isRetryable = true ∧ e.rotatesSession = false ∧ e.isCritical = false := by
  cases e <;> simp_all [ignoresMaxRetries, isRetryable, rotatesSession, isCritical]

end CrawlError

end Millipede
