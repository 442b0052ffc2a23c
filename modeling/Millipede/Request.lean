import Mathlib.Algebra.GroupWithZero.Nat
import Millipede.Library.OrderedMap

/-!
# Requests

The request record of `millipede-core`, its identifier and the classes of values
it carries. Instants and durations are nanoseconds. Identifiers are derived from
the unique key by two rounds of FNV-1a over its UTF-8 bytes.
-/

namespace Millipede

abbrev Instant := ℕ
abbrev Duration := ℕ

def Duration.fromSecs (n : ℕ) : Duration := n * 1000000000

/-- `Duration::MAX`: a `u64` of seconds. -/
def Duration.max : Duration := (2 ^ 64 - 1) * 1000000000 + 999999999

/-- A parsed URL: its serialization and the host text that `host_str` returns. -/
structure Url where
  serialization : String
  hostStr : Option String
  deriving DecidableEq, Repr

inductive Json where
  | null
  | bool (value : Bool)
  | number (text : String)
  | string (value : String)
  | array (items : List Json)
  | object (members : List (String × Json))

inductive RequestBody where
  | bytes (content : List UInt8)
  | form (pairs : List (String × String))
  | json (value : Json)

inductive RequestState where
  | unprocessed
  | beforeNav
  | afterNav
  | requestHandler
  | done
  | errorHandler
  | error
  | skipped
  deriving DecidableEq, Repr

structure RequestId where
  value : String
  deriving DecidableEq, Repr

structure Request where
  id : RequestId
  url : Url
  loadedUrl : Option Url
  uniqueKey : String
  method : String
  headers : List (String × List UInt8)
  body : Option RequestBody
  userData : List (String × Json)
  label : Option String
  retryCount : ℕ
  sessionRotationCount : ℕ
  maxRetries : Option ℕ
  noRetry : Bool
  errorMessages : List String
  handledAt : Option ℤ
  state : RequestState
  crawlDepth : ℕ
  skipNavigation : Bool

def fnv1a64Seeded (bytes : List UInt8) (seed : UInt64) : UInt64 :=
  bytes.foldl (fun hash byte => (hash ^^^ byte.toUInt64) * 0x100000001b3) seed

def fnv1a64 (bytes : List UInt8) : UInt64 := fnv1a64Seeded bytes 0xcbf29ce484222325

def hex16 (n : ℕ) : List Char :=
  let digits := Nat.toDigits 16 n
  List.replicate (16 - digits.length) '0' ++ digits

def RequestId.fromUniqueKey (uniqueKey : String) : RequestId :=
  let bytes := uniqueKey.toUTF8.data.toList
  let h1 := fnv1a64 bytes
  let h2 := fnv1a64Seeded bytes h1
  ⟨String.ofList (hex16 h1.toNat ++ hex16 h2.toNat)⟩

/-- The URL after `set_fragment(None)`. -/
def Url.withoutFragment (url : Url) : String :=
  String.ofList (url.serialization.toList.takeWhile (· ≠ '#'))

/-- The bytes of a body that its key is computed from; `toVec` is `serde_json::to_vec`. -/
def RequestBody.canonicalBytes (toVec : Json → List UInt8) : RequestBody → List UInt8
  | .bytes content => content
  | .form pairs =>
    ("&".intercalate (pairs.map fun (key, value) => key ++ "=" ++ value)).toUTF8.data.toList
  | .json value => toVec value

/-- `compute_unique_key`, given the canonical bytes of the body. -/
def Request.computeUniqueKey (url : Url) (method : String) (body : Option (List UInt8)) : String :=
  if method = "GET" ∧ body.isNone then url.withoutFragment
  else method ++ "(" ++ String.ofList (hex16 (fnv1a64 (body.getD [])).toNat) ++ "):" ++
    url.withoutFragment

def Request.Identified (r : Request) : Prop := r.id = RequestId.fromUniqueKey r.uniqueKey

/-- A GET request as the builder makes it, before any attempt. -/
def Request.get (url : Url) (uniqueKey : String) : Request where
  id := RequestId.fromUniqueKey uniqueKey
  url := url
  loadedUrl := none
  uniqueKey := uniqueKey
  method := "GET"
  headers := []
  body := none
  userData := []
  label := none
  retryCount := 0
  sessionRotationCount := 0
  maxRetries := none
  noRetry := false
  errorMessages := []
  handledAt := none
  state := .unprocessed
  crawlDepth := 0
  skipNavigation := false

end Millipede
