import Millipede.Errors

/-!
# Tiered proxies

`ProxyConfiguration` with tiers, and the reports that `HttpKind` makes about the hosts it
fetched from. Any number of requests to a host are out at once; a report names the host, not
the request that it is about. Indexing is partial where the source indexes a vector.
-/

namespace Millipede.Proxy

structure DomainTier where
  tier : ℕ := 0
  requests : ℕ := 0
  probing : Option ℕ := none
  deriving DecidableEq, Repr

structure TieredState where
  tiers : List (List (Option Url))
  probeInterval : ℕ

abbrev Domains := HashMap String DomainTier

def tieredWithProbeInterval (tiers : List (List (Option Url))) (probeInterval : ℕ) :
    TieredState where
  tiers := tiers
  probeInterval := max probeInterval 1

def Domains.entry (domains : Domains) (host : String) : DomainTier :=
  (domains.lookup host).getD {}

def DomainTier.serve (state : TieredState) (domain : DomainTier) : ℕ × DomainTier :=
  let tier := min domain.tier (state.tiers.length - 1)
  let requests := min (domain.requests + 1) (2 ^ 32 - 1)
  if 0 < tier ∧ requests % state.probeInterval = 0 then
    (tier - 1, { tier, requests, probing := some (tier - 1) })
  else (tier, { tier, requests, probing := domain.probing })

/-- `none` where an index is out of range. -/
def tieredUrl (state : TieredState) (domains : Domains) (host : String) :
    Option ((Option Url × Option ℕ) × Domains) :=
  if state.tiers.isEmpty then some ((none, none), domains)
  else
    let (serving, domain) := (domains.entry host).serve state
    match state.tiers[serving]? with
    | none => none
    | some tier =>
      if tier.isEmpty then some ((none, some (serving % 256)), domains.insert host domain)
      else (tier[domain.requests % tier.length]?).map fun url =>
        ((url, some (serving % 256)), domains.insert host domain)

def reportBlocked (state : TieredState) (domains : Domains) (host : String) : Domains :=
  if state.tiers.isEmpty then domains
  else
    let domain := domains.entry host
    domains.insert host (match domain.probing with
      | none =>
        { tier := min (domain.tier + 1) (state.tiers.length - 1), requests := 0, probing := none }
      | some _ => { domain with probing := none })

def reportSuccess (domains : Domains) (host : String) : Domains :=
  let domain := domains.entry host
  domains.insert host (match domain.probing with
    | none => domain
    | some probe => { tier := probe, requests := 0, probing := none })

structure StatusRules where
  retryStatusCodes : List StatusCode
  retryServerErrors : Bool
  sessionStatusCodes : List StatusCode

inductive Report where
  | blocked
  | success
  | nothing
  deriving DecidableEq, Repr

/-- What `classify_status` reports to the proxies. -/
def classifyStatus (rules : StatusRules) (status : StatusCode) : Report :=
  if status ∈ rules.sessionStatusCodes then .blocked
  else if status ∈ rules.retryStatusCodes ∨
      (rules.retryServerErrors ∧ 500 ≤ status ∧ status < 600) then .nothing
  else if ¬ (200 ≤ status ∧ status < 300) ∧ ¬ (300 ≤ status ∧ status < 400) then .nothing
  else .success

def report (state : TieredState) (domains : Domains) (host : String) : Report → Domains
  | .blocked => reportBlocked state domains host
  | .success => reportSuccess domains host
  | .nothing => domains

/-- A request that is out: where it went, the tier that served it, and whether it did so as
a probe. The source keeps none of this. -/
structure Visit where
  host : String
  tier : ℕ
  probe : Bool
  deriving DecidableEq, Repr

structure World where
  domains : Domains
  inFlight : List Visit

inductive Event where
  | resolve (host : String)
  | respond (i : ℕ) (status : StatusCode)
  | fail (i : ℕ)

def start : World := { domains := ∅, inFlight := [] }

def World.visit (state : TieredState) (w : World) (host : String) : Visit :=
  let (serving, domain) := (w.domains.entry host).serve state
  { host, tier := serving, probe := decide (serving < domain.tier) }

def step (state : TieredState) (rules : StatusRules) (w : World) : Event → Option World
  | .resolve host =>
    (tieredUrl state w.domains host).map fun (_, domains) =>
      { domains, inFlight := w.inFlight ++ [w.visit state host] }
  | .respond i status =>
    w.inFlight[i]?.map fun visit =>
      { domains := report state w.domains visit.host (classifyStatus rules status)
        inFlight := w.inFlight.eraseIdx i }
  | .fail i => w.inFlight[i]?.map fun _ => { w with inFlight := w.inFlight.eraseIdx i }

def World.tier (w : World) (host : String) : ℕ := (w.domains.entry host).tier

end Millipede.Proxy
