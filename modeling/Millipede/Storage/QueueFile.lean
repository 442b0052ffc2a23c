import Mathlib.Data.List.Basic
import Millipede.RequestBuilder
import Millipede.Storage.FsQueue

/-!
# Request files

What `write_request` puts into a request file and how `decode_request` reads one: the
queue's own envelope, a Crawlee envelope, or a bare request. A file is a JSON value; printing
and parsing it is `serde_json`, as a parameter. The members of an object stand in the order
of their keys, as `serde_json::Map` keeps them.
-/

namespace Millipede.QueueFile

/-- `serde_json::to_vec_pretty` and `from_slice`. -/
structure JsonText (β : Type*) where
  print : Json → β
  parse : β → Option Json

def get (key : String) : Json → Option Json
  | .object members => members.lookup key
  | _ => none

def ofNat (n : ℕ) : Json := .number (String.ofList (Nat.toDigits 10 n))

def ofInt : ℤ → Json
  | .ofNat n => ofNat n
  | .negSucc n => .number (String.ofList ('-' :: Nat.toDigits 10 (n + 1)))

def readDigits (digits : List Char) : Option ℕ :=
  if digits ≠ [] ∧ digits.all Char.isDigit then some (Nat.ofDigitChars 10 digits 0) else none

def asUnsigned (bound : ℕ) : Json → Option ℕ
  | .number text => (readDigits text.toList).filter fun n => decide (n < bound)
  | _ => none

def asU32 : Json → Option ℕ := asUnsigned (2 ^ 32)

def asI64 : Json → Option ℤ
  | .number text =>
    match text.toList with
    | '-' :: digits =>
      ((readDigits digits).map fun n : ℕ => -(n : ℤ)).filter fun n => decide (FsQueue.i64Min ≤ n)
    | digits => ((readDigits digits).map fun n : ℕ => (n : ℤ)).filter fun n =>
        decide (n ≤ FsQueue.i64Max)
  | _ => none

def asString : Json → Option String
  | .string s => some s
  | _ => none

def asBool : Json → Option Bool
  | .bool b => some b
  | _ => none

def asObject : Json → Option (List (String × Json))
  | .object members => some members
  | _ => none

section Containers
variable {α : Type*}

def ofOption (write : α → Json) : Option α → Json
  | none => .null
  | some a => write a

def asOption (read : Json → Option α) : Json → Option (Option α)
  | .null => some none
  | v => (read v).map some

def asList (read : Json → Option α) : Json → Option (List α)
  | .array items => items.mapM read
  | _ => none

def asPair : Json → Option (String × String)
  | .array [a, b] => (asString a).bind fun a => (asString b).map fun b => (a, b)
  | _ => none

def ofPair (p : String × String) : Json := .array [.string p.1, .string p.2]

def required (members : List (String × Json)) (key : String) (read : Json → Option α) :
    Option α :=
  (members.lookup key).bind read

/-- A field of an `Option` type, absent or `null` when it is `None`. -/
def optional (members : List (String × Json)) (key : String) (read : Json → Option α) :
    Option (Option α) :=
  match members.lookup key with
  | none => some none
  | some v => asOption read v

/-- A field with `#[serde(default)]`. -/
def defaulted (members : List (String × Json)) (key : String) (read : Json → Option α)
    (default : α) : Option α :=
  match members.lookup key with
  | none => some default
  | some v => read v

end Containers

/-- The members of a struct: an object, or an array with a value for each field. -/
def structMembers (keys : List String) : Json → Option (List (String × Json))
  | .object members => some members
  | .array items => if items.length = keys.length then some (keys.zip items) else none
  | _ => none

def ofBody : RequestBody → Json
  | .bytes content => .object [("bytes", .array (content.map fun byte => ofNat byte.toNat))]
  | .form pairs => .object [("form", .array (pairs.map ofPair))]
  | .json value => .object [("json", value)]

def asBody : Json → Option RequestBody
  | .object [(tag, value)] =>
    if tag = "bytes" then
      (asList (asUnsigned 256) value).map fun bytes => .bytes (bytes.map UInt8.ofNat)
    else if tag = "form" then (asList asPair value).map .form
    else if tag = "json" then some (.json value)
    else none
  | _ => none

def stateName : RequestState → String
  | .unprocessed => "Unprocessed"
  | .beforeNav => "BeforeNav"
  | .afterNav => "AfterNav"
  | .requestHandler => "RequestHandler"
  | .done => "Done"
  | .errorHandler => "ErrorHandler"
  | .error => "Error"
  | .skipped => "Skipped"

def stateOfName (name : String) : Option RequestState :=
  [RequestState.unprocessed, .beforeNav, .afterNav, .requestHandler, .done, .errorHandler,
    .error, .skipped].find? fun state => stateName state == name

/-- A unit variant is its name, or an object with the name and `null`. -/
def asState : Json → Option RequestState
  | .string name => stateOfName name
  | .object [(name, .null)] => stateOfName name
  | _ => none

section Requests
variable (f : Formats)

def asUrl (v : Json) : Option Url := (asString v).bind fun s => (f.parseUrl s).toOption

/-- `method_serde` -/
def asMethod (v : Json) : Option String := (asString v).bind fun s => (f.method (utf8 s)).toOption

def asTime (v : Json) : Option ℤ := (asString v).bind fun s => (f.parseTime s).toOption

/-- `header_map_serde::serialize`: a value that is not text cannot be written. -/
def writeHeaders (headers : HeaderMap) : Option Json :=
  (headers.mapM fun p => (f.toStr p.2).toOption.map fun text => (p.1, text)).map
    fun pairs : List (String × String) => .array (pairs.map ofPair)

/-- `header_map_serde::deserialize` -/
def asHeaders (v : Json) : Option HeaderMap :=
  (asList asPair v).bind fun pairs => (pairs.foldlM (appendHeader f) []).toOption

def writeTime : Option ℤ → Option Json
  | none => some .null
  | some t => (f.formatTime t).toOption.map .string

def requestMembers (r : Request) (headers handledAt : Json) : List (String × Json) := [
  ("body", ofOption ofBody r.body),
  ("crawl_depth", ofNat r.crawlDepth),
  ("error_messages", .array (r.errorMessages.map .string)),
  ("handled_at", handledAt),
  ("headers", headers),
  ("id", .string r.id.value),
  ("label", ofOption .string r.label),
  ("loaded_url", ofOption (fun u : Url => .string u.serialization) r.loadedUrl),
  ("max_retries", ofOption ofNat r.maxRetries),
  ("method", .string r.method),
  ("no_retry", .bool r.noRetry),
  ("retry_count", ofNat r.retryCount),
  ("session_rotation_count", ofNat r.sessionRotationCount),
  ("skip_navigation", .bool r.skipNavigation),
  ("state", .string (stateName r.state)),
  ("unique_key", .string r.uniqueKey),
  ("url", .string r.url.serialization),
  ("user_data", .object r.userData)]

def writeRequest (r : Request) : Option Json :=
  (writeHeaders f r.headers).bind fun headers => (writeTime f r.handledAt).map fun handledAt =>
    .object (requestMembers r headers handledAt)

def requestKeys : List String :=
  ["id", "url", "loaded_url", "unique_key", "method", "headers", "body", "user_data", "label",
    "retry_count", "session_rotation_count", "max_retries", "no_retry", "error_messages",
    "handled_at", "state", "crawl_depth", "skip_navigation"]

def readMembers (members : List (String × Json)) : Option Request := do
  let id ← required members "id" asString
  let url ← required members "url" (asUrl f)
  let loadedUrl ← optional members "loaded_url" (asUrl f)
  let uniqueKey ← required members "unique_key" asString
  let method ← required members "method" (asMethod f)
  let headers ← required members "headers" (asHeaders f)
  let body ← optional members "body" asBody
  let userData ← required members "user_data" asObject
  let label ← optional members "label" asString
  let retryCount ← required members "retry_count" asU32
  let sessionRotationCount ← required members "session_rotation_count" asU32
  let maxRetries ← optional members "max_retries" asU32
  let noRetry ← required members "no_retry" asBool
  let errorMessages ← required members "error_messages" (asList asString)
  let handledAt ← required members "handled_at" (asOption (asTime f))
  let state ← required members "state" asState
  let crawlDepth ← required members "crawl_depth" asU32
  let skipNavigation ← required members "skip_navigation" asBool
  some ⟨⟨id⟩, url, loadedUrl, uniqueKey, method, headers, body, userData, label, retryCount,
    sessionRotationCount, maxRetries, noRetry, errorMessages, handledAt, state, crawlDepth,
    skipNavigation⟩

def readRequest (v : Json) : Option Request :=
  (structMembers requestKeys v).bind (readMembers f)

/-- `RequestEnvelope` -/
def writeEnvelope (r : Request) (orderNo : Option ℤ) : Option Json :=
  (writeRequest f r).map fun json => .object [
    ("id", .string r.id.value),
    ("json", json),
    ("method", .string r.method),
    ("orderNo", ofOption ofInt orderNo),
    ("retryCount", ofNat r.retryCount),
    ("uniqueKey", .string r.uniqueKey),
    ("url", .string r.url.serialization)]

/-- `ReadEnvelope` -/
def readEnvelope (v : Json) : Option (Request × Option ℤ) := do
  let members ← asObject v
  let orderNo ← optional members "orderNo" asI64
  let request ← required members "json" (readRequest f)
  some (request, orderNo)

def asTexts (v : Json) : Option (List (String × String)) :=
  (asObject v).bind fun members => members.mapM fun (key, v) =>
    (asString v).map fun text => (key, text)

def parseOptional : Option String → Option (Option Url)
  | none => some none
  | some text => (f.parseUrl text).toOption.map some

/-- `CrawleeRequestEnvelope` and `into_request`. The headers are in a `HashMap`; `drain` is
the order in which it gives them out. -/
def readCrawlee (toVec : Json → List UInt8)
    (drain : List (String × String) → List (String × String)) (v : Json) :
    Option (Request × Option ℤ) := do
  let members ← asObject v
  let id ← required members "id" asString
  let url ← required members "url" asString
  let uniqueKey ← required members "uniqueKey" asString
  let method ← defaulted members "method" asString "GET"
  let headers ← defaulted members "headers" asTexts []
  let payload ← defaulted members "payload" (asOption asString) none
  let userData ← defaulted members "userData" asObject []
  let retryCount ← defaulted members "retryCount" asU32 0
  let sessionRotationCount ← defaulted members "sessionRotationCount" asU32 0
  let maxRetries ← defaulted members "maxRetries" (asOption asU32) none
  let noRetry ← defaulted members "noRetry" asBool false
  let errorMessages ← defaulted members "errorMessages" (asList asString) []
  let loadedUrl ← defaulted members "loadedUrl" (asOption asString) none
  let handledAt ← defaulted members "handledAt" (asOption (asTime f)) none
  let crawlDepth ← defaulted members "crawlDepth" asU32 0
  let skipNavigation ← defaulted members "skipNavigation" asBool false
  let orderNo ← optional members "orderNo" asI64
  let method ← (f.method (utf8 method)).toOption
  let label := (userData.lookup "label").bind asString
  let request ← (RequestBuilder.build f toVec
    { url := some (f.parseUrl url), method := some method, pendingHeaders := drain headers,
      body := payload.map fun text => .bytes (utf8 text), userData, label, maxRetries, noRetry,
      skipNavigation, uniqueKey := some uniqueKey, crawlDepth }).toOption
  let loadedUrl ← parseOptional f loadedUrl
  some ({ request with
    id := ⟨id⟩, uniqueKey, retryCount, sessionRotationCount, errorMessages, handledAt, loadedUrl
    state := if orderNo.isSome then .unprocessed else .done }, orderNo)

end Requests

def decodeRequest {β : Type*} (f : Formats) (text : JsonText β) (toVec : Json → List UInt8)
    (drain : List (String × String) → List (String × String)) (bytes : β) :
    Option (Request × Option ℤ × Bool) :=
  (text.parse bytes).bind fun v =>
    if (get "json" v).isSome then
      (readEnvelope f v).map fun (request, orderNo) => (request, orderNo, false)
    else if (get "uniqueKey" v).isSome || (get "orderNo" v).isSome then
      (readCrawlee f toVec drain v).map fun (request, orderNo) => (request, orderNo, false)
    else (readRequest f v).map fun request => (request, none, true)

theorem readDigits_toDigits (n : ℕ) : readDigits (Nat.toDigits 10 n) = some n := by
  have hall : (Nat.toDigits 10 n).all Char.isDigit = true := by
    rw [List.all_eq_true]
    intro c hc
    exact Nat.isDigit_of_mem_toDigits (by decide) (by decide) hc
  simp [readDigits, hall, Nat.toDigits_ne_nil]

theorem asUnsigned_ofNat {bound n : ℕ} (h : n < bound) :
    asUnsigned bound (ofNat n) = some n := by
  simp [asUnsigned, ofNat, readDigits_toDigits, h]

theorem toDigits_ne_minus (n : ℕ) (rest : List Char) : Nat.toDigits 10 n ≠ '-' :: rest := by
  intro h
  have hdigit : '-'.isDigit = true :=
    Nat.isDigit_of_mem_toDigits (by decide) (by decide) (h ▸ List.mem_cons_self)
  exact absurd hdigit (by decide)

theorem asI64_ofInt {i : ℤ} (hmin : FsQueue.i64Min ≤ i) (hmax : i ≤ FsQueue.i64Max) :
    asI64 (ofInt i) = some i := by
  cases i with
  | ofNat n =>
    simp only [ofInt, ofNat, asI64, String.toList_ofList]
    split
    · rename_i digits heq
      exact absurd heq (toDigits_ne_minus n digits)
    · simpa [readDigits_toDigits] using hmax
  | negSucc n =>
    simp only [ofInt, asI64, String.toList_ofList, readDigits_toDigits]
    have heq : -((n + 1 : ℕ) : ℤ) = Int.negSucc n := rfl
    rw [Option.map_some, heq, Option.filter_some_pos (by simpa using hmin)]

section Containers
variable {α : Type*}

theorem asOption_ofOption {read : Json → Option α} {write : α → Json} {o : Option α}
    (h : ∀ a, o = some a → write a ≠ .null ∧ read (write a) = some a) :
    asOption read (ofOption write o) = some o := by
  cases o with
  | none => rfl
  | some a =>
    obtain ⟨hne, hread⟩ := h a rfl
    simp only [ofOption, asOption, hread]
    rfl

theorem asList_map {read : Json → Option α} {write : α → Json} {l : List α}
    (h : ∀ a ∈ l, read (write a) = some a) : asList read (.array (l.map write)) = some l := by
  simp only [asList]
  induction l with
  | nil => rfl
  | cons a l ih =>
    have hrest := ih fun b hb => h b (List.mem_cons_of_mem _ hb)
    simp [h a List.mem_cons_self, hrest]

end Containers

theorem required_eq {α : Type*} {members : List (String × Json)} {key : String}
    {read : Json → Option α} {v : Json} {a : α} (hv : members.lookup key = some v)
    (hread : read v = some a) : required members key read = some a := by
  rw [required, hv]
  exact hread

theorem optional_eq {α : Type*} {members : List (String × Json)} {key : String}
    {read : Json → Option α} {v : Json} {a : Option α} (hv : members.lookup key = some v)
    (hread : asOption read v = some a) : optional members key read = some a := by
  rw [optional, hv]
  exact hread

theorem asPair_ofPair (p : String × String) : asPair (ofPair p) = some p := rfl

theorem asBody_ofBody (body : RequestBody) : asBody (ofBody body) = some body := by
  cases body with
  | bytes content =>
    have hread : asList (asUnsigned 256) (.array ((content.map UInt8.toNat).map ofNat)) =
        some (content.map UInt8.toNat) := by
      refine asList_map ?_
      intro n hn
      obtain ⟨byte, -, rfl⟩ := List.mem_map.mp hn
      exact asUnsigned_ofNat byte.toNat_lt
    rw [List.map_map] at hread
    simp only [ofBody, asBody, if_pos]
    rw [show (fun byte : UInt8 => ofNat byte.toNat) = ofNat ∘ UInt8.toNat from rfl, hread]
    simp only [Option.map_some, List.map_map]
    rw [show UInt8.ofNat ∘ UInt8.toNat = id from funext fun byte => UInt8.ofNat_toNat, List.map_id]
  | form pairs =>
    have hread : asList asPair (.array (pairs.map ofPair)) = some pairs :=
      asList_map fun p _ => asPair_ofPair p
    simp [ofBody, asBody, hread]
  | json value => simp [ofBody, asBody]

theorem asState_stateName (state : RequestState) :
    asState (.string (stateName state)) = some state := by
  cases state <;> rfl

section Requests
variable {f : Formats} {r : Request}

theorem toOption_eq_some {ε α : Type*} {x : Except ε α} {a : α} :
    x.toOption = some a ↔ x = .ok a := by
  cases x <;> simp [Except.toOption]

theorem mapM_toStr {headers : HeaderMap} {pairs : List (String × String)}
    (h : headers.mapM (fun p => (f.toStr p.2).toOption.map fun text => (p.1, text)) =
      some pairs) :
    List.Forall₂ (fun p q => q.1 = p.1 ∧ f.toStr p.2 = .ok q.2) headers pairs := by
  induction headers generalizing pairs with
  | nil =>
    cases h
    exact .nil
  | cons p headers ih =>
    rw [List.mapM_cons] at h
    obtain ⟨q, hq, h⟩ := Option.bind_eq_some_iff.mp h
    obtain ⟨rest, hrest, h⟩ := Option.bind_eq_some_iff.mp h
    cases h
    obtain ⟨text, htext, rfl⟩ := Option.map_eq_some_iff.mp hq
    exact .cons ⟨rfl, toOption_eq_some.mp htext⟩ (ih hrest)

/-- Appending the headers in their order gives the map again. -/
theorem foldlM_appendHeader (hf : f.RoundTrips) {init headers : HeaderMap}
    {pairs : List (String × String)} (hv : HeaderMap.Valid f (init ++ headers))
    (h : List.Forall₂ (fun p q => q.1 = p.1 ∧ f.toStr p.2 = .ok q.2) headers pairs) :
    pairs.foldlM (appendHeader f) init = .ok (init ++ headers) := by
  induction h generalizing init with
  | nil =>
    rw [List.append_nil]
    rfl
  | @cons p q headers pairs hpq _ ih =>
    obtain ⟨hname, htext⟩ := hpq
    have hmem : p ∈ init ++ p :: headers := List.mem_append_right _ List.mem_cons_self
    have happ : appendHeader f init q = .ok (init ++ [p]) := by
      simp only [appendHeader, hname, hf.toStr _ _ htext, hv.names p hmem, hv.values p hmem]
      rw [HeaderMap.append_of_grouped hv.grouped]
    have hrest : HeaderMap.Valid f ((init ++ [p]) ++ headers) := by
      rwa [List.append_assoc, List.singleton_append]
    rw [List.foldlM_cons, happ]
    have hfold := ih hrest
    rw [List.append_assoc, List.singleton_append] at hfold
    exact hfold

theorem asHeaders_writeHeaders (hf : f.RoundTrips) {headers : HeaderMap} {v : Json}
    (hv : HeaderMap.Valid f headers) (h : writeHeaders f headers = some v) :
    asHeaders f v = some headers := by
  obtain ⟨pairs, hpairs, rfl⟩ := Option.map_eq_some_iff.mp h
  have hread : asList asPair (.array (pairs.map ofPair)) = some pairs :=
    asList_map fun p _ => asPair_ofPair p
  have hfold : pairs.foldlM (appendHeader f) [] = .ok ([] ++ headers) :=
    foldlM_appendHeader hf hv (mapM_toStr hpairs)
  simp only [asHeaders, hread, Option.bind_some, hfold]
  rfl

structure Describes (f : Formats) (members : List (String × Json)) (r : Request) : Prop where
  id : required members "id" asString = some r.id.value
  url : required members "url" (asUrl f) = some r.url
  loadedUrl : optional members "loaded_url" (asUrl f) = some r.loadedUrl
  uniqueKey : required members "unique_key" asString = some r.uniqueKey
  method : required members "method" (asMethod f) = some r.method
  headers : required members "headers" (asHeaders f) = some r.headers
  body : optional members "body" asBody = some r.body
  userData : required members "user_data" asObject = some r.userData
  label : optional members "label" asString = some r.label
  retryCount : required members "retry_count" asU32 = some r.retryCount
  sessionRotationCount :
    required members "session_rotation_count" asU32 = some r.sessionRotationCount
  maxRetries : optional members "max_retries" asU32 = some r.maxRetries
  noRetry : required members "no_retry" asBool = some r.noRetry
  errorMessages : required members "error_messages" (asList asString) = some r.errorMessages
  handledAt : required members "handled_at" (asOption (asTime f)) = some r.handledAt
  state : required members "state" asState = some r.state
  crawlDepth : required members "crawl_depth" asU32 = some r.crawlDepth
  skipNavigation : required members "skip_navigation" asBool = some r.skipNavigation

theorem readMembers_iff {members : List (String × Json)} :
    readMembers f members = some r ↔ Describes f members r := by
  constructor
  · intro h
    unfold readMembers at h
    obtain ⟨id, hid, h⟩ := Option.bind_eq_some_iff.mp h
    obtain ⟨url, hurl, h⟩ := Option.bind_eq_some_iff.mp h
    obtain ⟨loadedUrl, hloaded, h⟩ := Option.bind_eq_some_iff.mp h
    obtain ⟨uniqueKey, hkey, h⟩ := Option.bind_eq_some_iff.mp h
    obtain ⟨method, hmethod, h⟩ := Option.bind_eq_some_iff.mp h
    obtain ⟨headers, hheaders, h⟩ := Option.bind_eq_some_iff.mp h
    obtain ⟨body, hbody, h⟩ := Option.bind_eq_some_iff.mp h
    obtain ⟨userData, hdata, h⟩ := Option.bind_eq_some_iff.mp h
    obtain ⟨label, hlabel, h⟩ := Option.bind_eq_some_iff.mp h
    obtain ⟨retryCount, hretry, h⟩ := Option.bind_eq_some_iff.mp h
    obtain ⟨rotations, hrotations, h⟩ := Option.bind_eq_some_iff.mp h
    obtain ⟨maxRetries, hmax, h⟩ := Option.bind_eq_some_iff.mp h
    obtain ⟨noRetry, hno, h⟩ := Option.bind_eq_some_iff.mp h
    obtain ⟨errorMessages, herrors, h⟩ := Option.bind_eq_some_iff.mp h
    obtain ⟨handledAt, hhandled, h⟩ := Option.bind_eq_some_iff.mp h
    obtain ⟨state, hstate, h⟩ := Option.bind_eq_some_iff.mp h
    obtain ⟨crawlDepth, hdepth, h⟩ := Option.bind_eq_some_iff.mp h
    obtain ⟨skipNavigation, hskip, h⟩ := Option.bind_eq_some_iff.mp h
    cases h
    exact ⟨hid, hurl, hloaded, hkey, hmethod, hheaders, hbody, hdata, hlabel, hretry, hrotations,
      hmax, hno, herrors, hhandled, hstate, hdepth, hskip⟩
  · intro h
    simp only [readMembers, h.id, h.url, h.loadedUrl, h.uniqueKey, h.method, h.headers, h.body,
      h.userData, h.label, h.retryCount, h.sessionRotationCount, h.maxRetries, h.noRetry,
      h.errorMessages, h.handledAt, h.state, h.crawlDepth, h.skipNavigation, Option.bind_eq_bind,
      Option.bind_some]

theorem asTime_writeTime (hf : f.RoundTrips) {t : Option ℤ} {v : Json}
    (h : writeTime f t = some v) : asOption (asTime f) v = some t := by
  cases t with
  | none =>
    cases h
    rfl
  | some t =>
    obtain ⟨s, hs, rfl⟩ := Option.map_eq_some_iff.mp h
    have hformat := toOption_eq_some.mp hs
    simp [asOption, asTime, asString, hf.time t s hformat, Except.toOption]

theorem readRequest_writeRequest (hf : f.RoundTrips) {v : Json} (hv : r.Valid f)
    (h : writeRequest f r = some v) : readRequest f v = some r := by
  obtain ⟨headers, hheaders, h⟩ := Option.bind_eq_some_iff.mp h
  obtain ⟨handledAt, htime, rfl⟩ := Option.map_eq_some_iff.mp h
  have hurl : asUrl f (.string r.url.serialization) = some r.url := by
    simp [asUrl, asString, hv.url, Except.toOption]
  have hmethod : asMethod f (.string r.method) = some r.method := by
    simp [asMethod, asString, hv.method, Except.toOption]
  have hread := asHeaders_writeHeaders hf hv.headers hheaders
  have hbody : asOption asBody (ofOption ofBody r.body) = some r.body := by
    refine asOption_ofOption fun body _ => ⟨?_, asBody_ofBody body⟩
    cases body <;> simp [ofBody]
  have hloaded : asOption (asUrl f) (ofOption (fun u : Url => .string u.serialization)
      r.loadedUrl) = some r.loadedUrl := by
    refine asOption_ofOption fun u hu => ⟨by simp, ?_⟩
    simp [asUrl, asString, hv.loadedUrl u hu, Except.toOption]
  have hlabel : asOption asString (ofOption .string r.label) = some r.label :=
    asOption_ofOption fun label _ => ⟨by simp, rfl⟩
  have hretries : asOption asU32 (ofOption ofNat r.maxRetries) = some r.maxRetries :=
    asOption_ofOption fun n hn => ⟨by simp [ofNat], asUnsigned_ofNat (hv.maxRetries n hn)⟩
  have herrors : asList asString (.array (r.errorMessages.map .string)) =
      some r.errorMessages := asList_map fun text _ => rfl
  have hretry : asU32 (ofNat r.retryCount) = some r.retryCount := asUnsigned_ofNat hv.retryCount
  have hrotation : asU32 (ofNat r.sessionRotationCount) = some r.sessionRotationCount :=
    asUnsigned_ofNat hv.sessionRotationCount
  have hdepth : asU32 (ofNat r.crawlDepth) = some r.crawlDepth := asUnsigned_ofNat hv.crawlDepth
  have hdescribes : Describes f (requestMembers r headers handledAt) r := {
    id := required_eq rfl rfl
    url := required_eq rfl hurl
    loadedUrl := optional_eq rfl hloaded
    uniqueKey := required_eq rfl rfl
    method := required_eq rfl hmethod
    headers := required_eq rfl hread
    body := optional_eq rfl hbody
    userData := required_eq rfl rfl
    label := optional_eq rfl hlabel
    retryCount := required_eq rfl hretry
    sessionRotationCount := required_eq rfl hrotation
    maxRetries := optional_eq rfl hretries
    noRetry := required_eq rfl rfl
    errorMessages := required_eq rfl herrors
    handledAt := required_eq rfl (asTime_writeTime hf htime)
    state := required_eq rfl (asState_stateName r.state)
    crawlDepth := required_eq rfl hdepth
    skipNavigation := required_eq rfl rfl }
  exact readMembers_iff.mpr hdescribes

theorem mapM_isSome {α β : Type*} {g : α → Option β} {l : List α} :
    (l.mapM g).isSome = true ↔ ∀ a ∈ l, (g a).isSome = true := by
  induction l with
  | nil => simp
  | cons a l ih =>
    rw [List.mapM_cons, List.forall_mem_cons, ← ih]
    cases hg : g a with
    | none => simp
    | some b => cases hl : l.mapM g <;> simp

theorem writeHeaders_isSome {headers : HeaderMap} :
    (writeHeaders f headers).isSome = true ↔ ∀ p ∈ headers, ∃ text, f.toStr p.2 = .ok text := by
  simp only [writeHeaders, Option.isSome_map, mapM_isSome]
  constructor
  · intro h p hp
    obtain ⟨text, htext⟩ := Option.isSome_iff_exists.mp (h p hp)
    exact ⟨text, toOption_eq_some.mp htext⟩
  · intro h p hp
    obtain ⟨text, htext⟩ := h p hp
    rw [htext]
    rfl

theorem of_required {α : Type*} {members : List (String × Json)} {key : String}
    {read : Json → Option α} {a : α} (h : required members key read = some a) :
    ∃ v, read v = some a := by
  obtain ⟨v, -, hread⟩ := Option.bind_eq_some_iff.mp h
  exact ⟨v, hread⟩

theorem of_asOption {α : Type*} {read : Json → Option α} {v : Json} {a : α}
    (h : asOption read v = some (some a)) : ∃ v, read v = some a := by
  simp only [asOption] at h
  split at h
  · cases h
  · obtain ⟨b, hread, hb⟩ := Option.map_eq_some_iff.mp h
    cases hb
    exact ⟨_, hread⟩

theorem of_optional {α : Type*} {members : List (String × Json)} {key : String}
    {read : Json → Option α} {a : α} (h : optional members key read = some (some a)) :
    ∃ v, read v = some a := by
  simp only [optional] at h
  split at h
  · cases h
  · exact of_asOption h

theorem of_defaulted {α : Type*} {members : List (String × Json)} {key : String}
    {read : Json → Option α} {default a : α} (h : defaulted members key read default = some a) :
    a = default ∨ ∃ v, read v = some a := by
  simp only [defaulted] at h
  split at h
  · cases h
    exact .inl rfl
  · exact .inr ⟨_, h⟩

theorem lt_of_asU32 {v : Json} {n : ℕ} (h : asU32 v = some n) : n < 2 ^ 32 := by
  simp only [asU32, asUnsigned] at h
  split at h
  · have hfilter := (Option.filter_eq_some_iff.mp h).2
    exact of_decide_eq_true hfilter
  · cases h

theorem parseUrl_of_asUrl (hf : f.RoundTrips) {v : Json} {u : Url} (h : asUrl f v = some u) :
    f.parseUrl u.serialization = .ok u := by
  obtain ⟨s, -, hs⟩ := Option.bind_eq_some_iff.mp h
  exact hf.url s u (toOption_eq_some.mp hs)

theorem formatTime_of_asTime (hf : f.RoundTrips) {v : Json} {t : ℤ} (h : asTime f v = some t) :
    ∃ s, f.formatTime t = .ok s := by
  obtain ⟨s, -, hs⟩ := Option.bind_eq_some_iff.mp h
  exact hf.timeFormats s t (toOption_eq_some.mp hs)

theorem readRequest_valid (hf : f.RoundTrips) {v : Json} (h : readRequest f v = some r) :
    r.Valid f := by
  obtain ⟨members, -, hread⟩ := Option.bind_eq_some_iff.mp h
  have hd := readMembers_iff.mp hread
  refine ⟨?_, ?_, ?_, ?_, ?_, ?_, ?_, ?_, ?_⟩
  · obtain ⟨v, hv⟩ := of_required hd.url
    exact parseUrl_of_asUrl hf hv
  · intro u hu
    obtain ⟨v, hv⟩ := of_optional (hu ▸ hd.loadedUrl)
    exact parseUrl_of_asUrl hf hv
  · obtain ⟨v, hv⟩ := of_required hd.method
    obtain ⟨s, -, hs⟩ := Option.bind_eq_some_iff.mp hv
    exact hf.method _ _ (toOption_eq_some.mp hs)
  · obtain ⟨v, hv⟩ := of_required hd.headers
    obtain ⟨pairs, -, hfold⟩ := Option.bind_eq_some_iff.mp hv
    exact (HeaderMap.Valid.nil f).foldlM hf (toOption_eq_some.mp hfold)
  · obtain ⟨v, hv⟩ := of_required hd.retryCount
    exact lt_of_asU32 hv
  · obtain ⟨v, hv⟩ := of_required hd.sessionRotationCount
    exact lt_of_asU32 hv
  · intro n hn
    obtain ⟨v, hv⟩ := of_optional (hn ▸ hd.maxRetries)
    exact lt_of_asU32 hv
  · intro t ht
    obtain ⟨v, hv⟩ := of_required hd.handledAt
    obtain ⟨v, hv⟩ := of_asOption (ht ▸ hv)
    exact formatTime_of_asTime hf hv
  · obtain ⟨v, hv⟩ := of_required hd.crawlDepth
    exact lt_of_asU32 hv

theorem parseUrl_of_parseOptional (hf : f.RoundTrips) {text : Option String} {u : Url}
    (h : parseOptional f text = some (some u)) : f.parseUrl u.serialization = .ok u := by
  cases text with
  | none => cases h
  | some text =>
    obtain ⟨u', hu', heq⟩ := Option.map_eq_some_iff.mp h
    cases heq
    exact hf.url text u (toOption_eq_some.mp hu')

theorem readCrawlee_valid (hf : f.RoundTrips) {toVec : Json → List UInt8}
    {drain : List (String × String) → List (String × String)} {v : Json} {orderNo : Option ℤ}
    (h : readCrawlee f toVec drain v = some (r, orderNo)) : r.Valid f := by
  unfold readCrawlee at h
  obtain ⟨members, -, h⟩ := Option.bind_eq_some_iff.mp h
  obtain ⟨id, -, h⟩ := Option.bind_eq_some_iff.mp h
  obtain ⟨url, -, h⟩ := Option.bind_eq_some_iff.mp h
  obtain ⟨uniqueKey, -, h⟩ := Option.bind_eq_some_iff.mp h
  obtain ⟨method, -, h⟩ := Option.bind_eq_some_iff.mp h
  obtain ⟨headers, -, h⟩ := Option.bind_eq_some_iff.mp h
  obtain ⟨payload, -, h⟩ := Option.bind_eq_some_iff.mp h
  obtain ⟨userData, -, h⟩ := Option.bind_eq_some_iff.mp h
  obtain ⟨retryCount, hretry, h⟩ := Option.bind_eq_some_iff.mp h
  obtain ⟨rotations, hrotations, h⟩ := Option.bind_eq_some_iff.mp h
  obtain ⟨maxRetries, hmax, h⟩ := Option.bind_eq_some_iff.mp h
  obtain ⟨noRetry, -, h⟩ := Option.bind_eq_some_iff.mp h
  obtain ⟨errorMessages, -, h⟩ := Option.bind_eq_some_iff.mp h
  obtain ⟨loadedText, -, h⟩ := Option.bind_eq_some_iff.mp h
  obtain ⟨handledAt, hhandled, h⟩ := Option.bind_eq_some_iff.mp h
  obtain ⟨crawlDepth, hdepth, h⟩ := Option.bind_eq_some_iff.mp h
  obtain ⟨skipNavigation, -, h⟩ := Option.bind_eq_some_iff.mp h
  obtain ⟨orderNo, -, h⟩ := Option.bind_eq_some_iff.mp h
  obtain ⟨method', hmethod, h⟩ := Option.bind_eq_some_iff.mp h
  obtain ⟨request, hrequest, h⟩ := Option.bind_eq_some_iff.mp h
  obtain ⟨loadedUrl, hloaded, h⟩ := Option.bind_eq_some_iff.mp h
  cases h
  have hbuilt := RequestBuilder.build_valid hf ?_ (toOption_eq_some.mp hrequest)
  · refine ⟨hbuilt.url, ?_, hbuilt.method, hbuilt.headers, ?_, ?_, hbuilt.maxRetries, ?_,
      hbuilt.crawlDepth⟩
    · rintro u rfl
      exact parseUrl_of_parseOptional hf hloaded
    · rcases of_defaulted hretry with hzero | ⟨v, hv⟩
      · rw [hzero]
        exact Nat.two_pow_pos 32
      · exact lt_of_asU32 hv
    · rcases of_defaulted hrotations with hzero | ⟨v, hv⟩
      · rw [hzero]
        exact Nat.two_pow_pos 32
      · exact lt_of_asU32 hv
    · rintro t rfl
      rcases of_defaulted hhandled with hnone | ⟨v, hv⟩
      · cases hnone
      · obtain ⟨v, hv⟩ := of_asOption hv
        exact formatTime_of_asTime hf hv
  · refine ⟨?_, ?_, HeaderMap.Valid.nil f, ?_, ?_⟩
    · intro u hu
      exact hf.url _ _ (Option.some.inj hu)
    · exact hf.method _ _ (toOption_eq_some.mp hmethod)
    · rintro n rfl
      rcases of_defaulted hmax with hnone | ⟨v, hv⟩
      · cases hnone
      · obtain ⟨v, hv⟩ := of_asOption hv
        exact lt_of_asU32 hv
    · rcases of_defaulted hdepth with hzero | ⟨v, hv⟩
      · simp only [hzero]
        exact Nat.two_pow_pos 32
      · exact lt_of_asU32 hv

end Requests

section Files
variable {β : Type*} (f : Formats) (text : JsonText β) (toVec : Json → List UInt8)
  (drain : List (String × String) → List (String × String))

theorem decodeRequest_valid (hf : f.RoundTrips) {bytes : β} {r : Request} {orderNo : Option ℤ}
    {bare : Bool} (h : decodeRequest f text toVec drain bytes = some (r, orderNo, bare)) :
    r.Valid f := by
  obtain ⟨v, -, h⟩ := Option.bind_eq_some_iff.mp h
  split at h
  · obtain ⟨⟨r', orderNo'⟩, hread, heq⟩ := Option.map_eq_some_iff.mp h
    cases heq
    unfold readEnvelope at hread
    obtain ⟨members, -, hread⟩ := Option.bind_eq_some_iff.mp hread
    obtain ⟨orderNo, -, hread⟩ := Option.bind_eq_some_iff.mp hread
    obtain ⟨request, hrequest, hread⟩ := Option.bind_eq_some_iff.mp hread
    cases hread
    obtain ⟨v, hv⟩ := of_required hrequest
    exact readRequest_valid hf hv
  · split at h
    · obtain ⟨⟨r', orderNo'⟩, hread, heq⟩ := Option.map_eq_some_iff.mp h
      cases heq
      exact readCrawlee_valid hf hread
    · obtain ⟨r', hread, heq⟩ := Option.map_eq_some_iff.mp h
      cases heq
      exact readRequest_valid hf hread

end Files

section Arising
variable {β : Type*} (f : Formats) (text : JsonText β) (toVec : Json → List UInt8)

/-- The requests that reach the queue: built, or read from a file (with the headers of a
Crawlee envelope in any order), and then changed by the engine. -/
inductive Arises : Request → Prop
  | built {b : RequestBuilder} {r : Request} (valid : b.Valid f)
      (build : b.build f toVec = .ok r) : Arises r
  | decoded {drain : List (String × String) → List (String × String)} {bytes : β} {r : Request}
      {orderNo : Option ℤ} {bare : Bool}
      (decode : decodeRequest f text toVec drain bytes = some (r, orderNo, bare)) : Arises r
  | processed {r : Request} {retryCount sessionRotationCount : ℕ} {errorMessages : List String}
      {state : RequestState} {handledAt : Option ℤ} {loadedUrl : Option Url} (before : Arises r)
      (retries : retryCount < 2 ^ 32) (rotations : sessionRotationCount < 2 ^ 32)
      (time : ∀ t, handledAt = some t → ∃ s, f.formatTime t = .ok s)
      (loaded : ∀ u, loadedUrl = some u → f.parseUrl u.serialization = .ok u) :
      Arises { r with
        retryCount, sessionRotationCount, errorMessages, state, handledAt, loadedUrl }

variable {f text toVec}

theorem Arises.valid (hf : f.RoundTrips) {r : Request} (h : Arises f text toVec r) :
    r.Valid f := by
  induction h with
  | built valid build => exact RequestBuilder.build_valid hf valid build
  | @decoded drain _ _ _ _ decode => exact decodeRequest_valid f text toVec drain hf decode
  | processed _ retries rotations time loaded ih =>
    exact ⟨ih.url, loaded, ih.method, ih.headers, retries, rotations, ih.maxRetries, time,
      ih.crawlDepth⟩

end Arising

section Trips
variable {β : Type*} {f : Formats} {text : JsonText β} {toVec : Json → List UInt8}
  {drain : List (String × String) → List (String × String)} {r : Request} {orderNo : Option ℤ}

def envelopeBytes (f : Formats) (text : JsonText β) (r : Request) (orderNo : Option ℤ) :
    Option β :=
  (writeEnvelope f r orderNo).map text.print

def bareBytes (f : Formats) (text : JsonText β) (r : Request) : Option β :=
  (writeRequest f r).map text.print

def RoundTrips (f : Formats) (text : JsonText β) (toVec : Json → List UInt8)
    (drain : List (String × String) → List (String × String)) (r : Request)
    (orderNo : Option ℤ) : Prop :=
  (∃ bytes, envelopeBytes f text r orderNo = some bytes ∧
    decodeRequest f text toVec drain bytes = some (r, orderNo, false)) ∧
  ∃ bytes, bareBytes f text r = some bytes ∧
    decodeRequest f text toVec drain bytes = some (r, none, true)

theorem writeRequest_isSome (hv : r.Valid f) (h : ∀ p ∈ r.headers, ∃ t, f.toStr p.2 = .ok t) :
    ∃ v, writeRequest f r = some v := by
  obtain ⟨headers, hheaders⟩ := Option.isSome_iff_exists.mp (writeHeaders_isSome.mpr h)
  have htime : ∃ v, writeTime f r.handledAt = some v := by
    cases ht : r.handledAt with
    | none => exact ⟨_, rfl⟩
    | some t =>
      obtain ⟨s, hs⟩ := hv.handledAt t ht
      exact ⟨.string s, by simp [writeTime, hs, Except.toOption]⟩
  obtain ⟨handledAt, hhandled⟩ := htime
  exact ⟨_, by rw [writeRequest, hheaders, Option.bind_some, hhandled, Option.map_some]⟩

theorem toStr_of_writeRequest {v : Json} (h : writeRequest f r = some v) :
    ∀ p ∈ r.headers, ∃ t, f.toStr p.2 = .ok t := by
  obtain ⟨headers, hheaders, -⟩ := Option.bind_eq_some_iff.mp h
  exact writeHeaders_isSome.mp (by rw [hheaders]; rfl)

theorem readEnvelope_writeEnvelope (hf : f.RoundTrips) (hv : r.Valid f)
    (ho : ∀ o, orderNo = some o → FsQueue.i64Min ≤ o ∧ o ≤ FsQueue.i64Max) {v : Json}
    (h : writeEnvelope f r orderNo = some v) :
    readEnvelope f v = some (r, orderNo) ∧ (get "json" v).isSome = true := by
  obtain ⟨json, hjson, rfl⟩ := Option.map_eq_some_iff.mp h
  have horder : asOption asI64 (ofOption ofInt orderNo) = some orderNo := by
    refine asOption_ofOption fun o hor => ⟨?_, asI64_ofInt (ho o hor).1 (ho o hor).2⟩
    cases o <;> simp [ofInt, ofNat]
  have hread := readRequest_writeRequest hf hv hjson
  refine ⟨?_, rfl⟩
  simp only [readEnvelope, asObject, Option.bind_eq_bind, Option.bind_some]
  rw [optional_eq rfl horder, Option.bind_some, required_eq rfl hread, Option.bind_some]

theorem get_writeRequest {v : Json} (h : writeRequest f r = some v) :
    get "json" v = none ∧ get "uniqueKey" v = none ∧ get "orderNo" v = none := by
  obtain ⟨headers, -, h⟩ := Option.bind_eq_some_iff.mp h
  obtain ⟨handledAt, -, rfl⟩ := Option.map_eq_some_iff.mp h
  exact ⟨rfl, rfl, rfl⟩

/-- Exactly the requests whose header values are text survive a request file. -/
theorem queue_file_round_trip (hf : f.RoundTrips)
    (ht : ∀ v, text.parse (text.print v) = some v) (hr : Arises f text toVec r)
    (ho : ∀ o, orderNo = some o → FsQueue.i64Min ≤ o ∧ o ≤ FsQueue.i64Max) :
    RoundTrips f text toVec drain r orderNo ↔ ∀ p ∈ r.headers, ∃ t, f.toStr p.2 = .ok t := by
  have hv := hr.valid hf
  constructor
  · rintro ⟨-, bytes, hbare, -⟩
    obtain ⟨v, hwrite, -⟩ := Option.map_eq_some_iff.mp hbare
    exact toStr_of_writeRequest hwrite
  · intro htexts
    obtain ⟨v, hwrite⟩ := writeRequest_isSome hv htexts
    refine ⟨⟨_, by rw [envelopeBytes, writeEnvelope, hwrite]; rfl, ?_⟩,
      _, by rw [bareBytes, hwrite]; rfl, ?_⟩
    · obtain ⟨hread, hjson⟩ := readEnvelope_writeEnvelope hf hv ho
        (by rw [writeEnvelope, hwrite]; rfl)
      rw [decodeRequest, ht, Option.bind_some, if_pos hjson, hread]
      rfl
    · obtain ⟨hjson, hkey, horder⟩ := get_writeRequest hwrite
      rw [decodeRequest, ht, Option.bind_some, hjson, hkey, horder,
        readRequest_writeRequest hf hv hwrite]
      rfl

end Trips

def known (texts : List String) (bytes : List UInt8) : Except String String :=
  match texts.find? fun s => utf8 s == bytes with
  | some s => .ok s
  | none => .error "invalid"

theorem utf8_of_known {texts : List String} {bytes : List UInt8} {s : String}
    (h : known texts bytes = .ok s) : utf8 s = bytes := by
  simp only [known] at h
  split at h
  · rename_i s' hfind
    cases h
    simpa using List.find?_some hfind
  · cases h

def permitted (byte : UInt8) : Bool := (32 ≤ byte && byte != 127) || byte == 9

def fewFormats : Formats where
  parseUrl s := .ok ⟨s, some "a.test"⟩
  method := known ["GET", "POST"]
  headerName := known ["accept", "x-name"]
  headerValue bytes := if bytes.all permitted then .ok bytes else .error "invalid"
  toStr := known ["text/html"]
  formatTime _ := .error "no times"
  parseTime _ := .error "no times"

theorem fewFormats_roundTrips : fewFormats.RoundTrips where
  url := by
    intro s u h
    cases h
    rfl
  method := by
    intro bytes m h
    rw [utf8_of_known h]
    exact h
  headerName := by
    intro bytes n h
    rw [utf8_of_known h]
    exact h
  headerValue := by
    intro bytes v h
    simp only [fewFormats] at h ⊢
    split at h
    · rename_i hall
      cases h
      rw [if_pos hall]
    · cases h
  toStr := fun _ _ h => utf8_of_known h
  time := fun _ _ h => (nomatch h)
  timeFormats := fun _ _ h => (nomatch h)

def plainText : JsonText Json := ⟨id, some⟩

def withHeader (name value : String) : RequestBuilder where
  url := some (.ok ⟨"https://a.test/", some "a.test"⟩)
  pendingHeaders := [(name, value)]

theorem withHeader_valid (name value : String) : (withHeader name value).Valid fewFormats where
  url := by
    intro u h
    cases h
    rfl
  method := by
    show fewFormats.method (utf8 "GET") = .ok "GET"
    decide +kernel
  headers := HeaderMap.Valid.nil _
  maxRetries := fun _ h => (nomatch h)
  crawlDepth := Nat.two_pow_pos 32

theorem queue_file_round_trip_accept : ∃ r,
    (withHeader "accept" "text/html").build fewFormats (fun _ => []) = .ok r ∧
      RoundTrips fewFormats plainText (fun _ => []) id r (some 1) := by
  have hbuild : ((withHeader "accept" "text/html").build fewFormats fun _ => []).toOption.map
      (fun r => r.headers) = some [("accept", utf8 "text/html")] := by decide +kernel
  obtain ⟨r, hr, hheaders⟩ := Option.map_eq_some_iff.mp hbuild
  have hok := toOption_eq_some.mp hr
  refine ⟨r, hok, ?_⟩
  refine (queue_file_round_trip fewFormats_roundTrips (fun _ => rfl)
    (.built (withHeader_valid _ _) hok) ?_).mpr ?_
  · intro o ho
    cases ho
    exact ⟨by decide, by decide⟩
  · intro p hp
    rw [hheaders] at hp
    cases List.mem_singleton.mp hp
    exact ⟨"text/html", by decide +kernel⟩

/-- A header value that the builder takes and no file can hold. -/
theorem header_not_written : ∃ r,
    (withHeader "x-name" "é").build fewFormats (fun _ => []) = .ok r ∧
      Arises fewFormats plainText (fun _ => []) r ∧
      envelopeBytes fewFormats plainText r (some 1) = none ∧
      ¬ RoundTrips fewFormats plainText (fun _ => []) id r (some 1) := by
  have hbuild : ((withHeader "x-name" "é").build fewFormats fun _ => []).toOption.map
      (fun r => r.headers) = some [("x-name", [195, 169])] := by decide +kernel
  obtain ⟨r, hr, hheaders⟩ := Option.map_eq_some_iff.mp hbuild
  have hok := toOption_eq_some.mp hr
  have hwrite : envelopeBytes fewFormats plainText r (some 1) = none := by
    have hnone : writeHeaders fewFormats r.headers = none := by
      rw [hheaders]
      rfl
    simp [envelopeBytes, writeEnvelope, writeRequest, hnone]
  refine ⟨r, hok, .built (withHeader_valid _ _) hok, hwrite, ?_⟩
  rintro ⟨⟨bytes, hbytes, -⟩, -⟩
  rw [hwrite] at hbytes
  cases hbytes

end Millipede.QueueFile
