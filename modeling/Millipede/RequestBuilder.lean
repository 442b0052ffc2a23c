import Millipede.Request

/-!
# Building requests

`RequestBuilder::build` with the header map it fills. What `http`, `url` and `time` accept
and print is a parameter, together with what their documentation says about it. A header map
is its pairs in the order of iteration, in which the values of a name stand together.
-/

namespace Millipede

def utf8 (s : String) : List UInt8 := s.toUTF8.data.toList

structure Formats where
  parseUrl : String → Except String Url
  /-- `Method::from_bytes` -/
  method : List UInt8 → Except String String
  /-- `HeaderName::from_bytes` -/
  headerName : List UInt8 → Except String String
  /-- `HeaderValue::from_bytes` -/
  headerValue : List UInt8 → Except String (List UInt8)
  /-- `HeaderValue::to_str` -/
  toStr : List UInt8 → Except String String
  /-- `time::serde::rfc3339` -/
  formatTime : ℤ → Except String String
  parseTime : String → Except String ℤ

/-- The values of the crates are read back from what they print. -/
structure Formats.RoundTrips (f : Formats) : Prop where
  url : ∀ s u, f.parseUrl s = .ok u → f.parseUrl u.serialization = .ok u
  method : ∀ bytes m, f.method bytes = .ok m → f.method (utf8 m) = .ok m
  headerName : ∀ bytes n, f.headerName bytes = .ok n → f.headerName (utf8 n) = .ok n
  headerValue : ∀ bytes v, f.headerValue bytes = .ok v → f.headerValue v = .ok v
  toStr : ∀ v s, f.toStr v = .ok s → utf8 s = v
  time : ∀ t s, f.formatTime t = .ok s → f.parseTime s = .ok t
  timeFormats : ∀ s t, f.parseTime s = .ok t → ∃ s', f.formatTime t = .ok s'

abbrev HeaderMap := List (String × List UInt8)

/-- `HeaderMap::append`: after the last value of the name, or at the end. -/
def HeaderMap.append (name : String) (value : List UInt8) : HeaderMap → HeaderMap
  | [] => [(name, value)]
  | p :: rest =>
    if p.1 = name ∧ name ∉ rest.map Prod.fst then p :: (name, value) :: rest
    else p :: append name value rest

def HeaderMap.Grouped : HeaderMap → Prop
  | [] => True
  | p :: rest =>
    (p.1 ∈ rest.map Prod.fst → rest.head?.map Prod.fst = some p.1) ∧ HeaderMap.Grouped rest

inductive RequestBuildError where
  | missingUrl
  | invalidUrl (error : String)
  | invalidHeader (name message : String)
  | serialization (error : String)

structure RequestBuilder where
  url : Option (Except String Url) := none
  method : Option String := none
  headers : HeaderMap := []
  pendingHeaders : List (String × String) := []
  body : Option RequestBody := none
  serializationError : Option String := none
  userData : List (String × Json) := []
  label : Option String := none
  maxRetries : Option ℕ := none
  noRetry : Bool := false
  skipNavigation : Bool := false
  uniqueKey : Option String := none
  crawlDepth : ℕ := 0

def appendHeader (f : Formats) (headers : HeaderMap) (pending : String × String) :
    Except RequestBuildError HeaderMap :=
  match f.headerName (utf8 pending.1) with
  | .error message => .error (.invalidHeader pending.1 message)
  | .ok name =>
    match f.headerValue (utf8 pending.2) with
    | .error message => .error (.invalidHeader pending.1 message)
    | .ok value => .ok (headers.append name value)

/-- `toVec` is `serde_json::to_vec`. -/
def RequestBuilder.build (f : Formats) (toVec : Json → List UInt8) (b : RequestBuilder) :
    Except RequestBuildError Request :=
  match b.serializationError with
  | some error => .error (.serialization error)
  | none =>
    match b.url with
    | none => .error .missingUrl
    | some (.error error) => .error (.invalidUrl error)
    | some (.ok url) =>
      match b.pendingHeaders.foldlM (appendHeader f) b.headers with
      | .error error => .error error
      | .ok headers =>
        let method := b.method.getD "GET"
        let uniqueKey := b.uniqueKey.getD
          (Request.computeUniqueKey url method (b.body.map (RequestBody.canonicalBytes toVec)))
        .ok { Request.get url uniqueKey with
          method, headers
          body := b.body
          userData := b.userData
          label := b.label
          maxRetries := b.maxRetries
          noRetry := b.noRetry
          crawlDepth := b.crawlDepth
          skipNavigation := b.skipNavigation }

namespace HeaderMap

theorem mem_names_append (name : String) (value : List UInt8) (h : HeaderMap) (n : String) :
    n ∈ (append name value h).map Prod.fst ↔ n = name ∨ n ∈ h.map Prod.fst := by
  induction h with
  | nil => simp [append]
  | cons p rest ih =>
    simp only [append]
    split
    · simp only [List.map_cons, List.mem_cons]
      tauto
    · simp only [List.map_cons, List.mem_cons, ih]
      tauto

theorem head?_append_cons (name : String) (value : List UInt8) (p : String × List UInt8)
    (rest : HeaderMap) : (append name value (p :: rest)).head? = some p := by
  simp only [append]
  split <;> rfl

theorem Grouped.append {h : HeaderMap} (hg : Grouped h) (name : String) (value : List UInt8) :
    Grouped (append name value h) := by
  induction h with
  | nil => simp [HeaderMap.append, Grouped]
  | cons p rest ih =>
    simp only [HeaderMap.append]
    split
    · rename_i hlast
      refine ⟨fun _ => by simp [hlast.1], ?_, hg.2⟩
      intro hmem
      exact absurd hmem hlast.2
    · rename_i hnot
      refine ⟨?_, ih hg.2⟩
      intro hmem
      have hrest : p.1 ∈ rest.map Prod.fst := by
        rcases (mem_names_append name value rest p.1).mp hmem with hname | hrest
        · by_contra hno
          exact hnot ⟨hname, hname ▸ hno⟩
        · exact hrest
      cases rest with
      | nil => cases hrest
      | cons q rest =>
        rw [head?_append_cons]
        exact hg.1 hrest

theorem append_of_grouped {init : HeaderMap} {name : String} {value : List UInt8}
    {rest : HeaderMap} (hg : Grouped (init ++ (name, value) :: rest)) :
    append name value init = init ++ [(name, value)] := by
  induction init with
  | nil => rfl
  | cons p init ih =>
    simp only [append]
    split
    · rename_i hlast
      -- the pair stands directly after the last value of its name
      have hnil : init = [] := by
        cases init with
        | nil => rfl
        | cons q init =>
          have hnext : some q.1 = some p.1 := hg.1 (by simp [hlast.1])
          refine absurd ?_ hlast.2
          rw [List.map_cons, Option.some.inj hnext, hlast.1]
          exact List.mem_cons_self
      rw [hnil]
      rfl
    · rw [ih hg.2]
      rfl

/-- The names and values of a map are those of the `http` crate. -/
structure Valid (f : Formats) (h : HeaderMap) : Prop where
  grouped : Grouped h
  names : ∀ p ∈ h, f.headerName (utf8 p.1) = .ok p.1
  values : ∀ p ∈ h, f.headerValue p.2 = .ok p.2

theorem mem_append {name : String} {value : List UInt8} {h : HeaderMap}
    {p : String × List UInt8} (hp : p ∈ append name value h) : p = (name, value) ∨ p ∈ h := by
  induction h with
  | nil => exact .inl (List.mem_singleton.mp hp)
  | cons q rest ih =>
    simp only [append] at hp
    split at hp
    · simp only [List.mem_cons] at hp ⊢
      tauto
    · rcases List.mem_cons.mp hp with rfl | hp
      · exact .inr List.mem_cons_self
      · exact (ih hp).imp_right (List.mem_cons_of_mem _)

theorem Valid.appendHeader {f : Formats} (hf : f.RoundTrips) {h h' : HeaderMap}
    {pending : String × String} (hv : Valid f h) (happ : appendHeader f h pending = .ok h') :
    Valid f h' := by
  simp only [Millipede.appendHeader] at happ
  split at happ
  · cases happ
  · rename_i name hname
    split at happ
    · cases happ
    · rename_i value hvalue
      cases happ
      refine ⟨hv.grouped.append name value, ?_, ?_⟩
      · intro p hp
        rcases mem_append hp with rfl | hp
        · exact hf.headerName _ _ hname
        · exact hv.names p hp
      · intro p hp
        rcases mem_append hp with rfl | hp
        · exact hf.headerValue _ _ hvalue
        · exact hv.values p hp

theorem Valid.foldlM {f : Formats} (hf : f.RoundTrips) {h h' : HeaderMap}
    {pending : List (String × String)} (hv : Valid f h)
    (hfold : pending.foldlM (Millipede.appendHeader f) h = .ok h') : Valid f h' := by
  induction pending generalizing h with
  | nil =>
    cases hfold
    exact hv
  | cons p pending ih =>
    rw [List.foldlM_cons] at hfold
    cases happ : Millipede.appendHeader f h p with
    | error e =>
      rw [happ] at hfold
      cases hfold
    | ok h₁ =>
      rw [happ] at hfold
      exact ih (hv.appendHeader hf happ) hfold

theorem Valid.nil (f : Formats) : Valid f [] :=
  ⟨trivial, fun _ hp => (nomatch hp), fun _ hp => (nomatch hp)⟩

end HeaderMap

structure Request.Valid (f : Formats) (r : Request) : Prop where
  url : f.parseUrl r.url.serialization = .ok r.url
  loadedUrl : ∀ u, r.loadedUrl = some u → f.parseUrl u.serialization = .ok u
  method : f.method (utf8 r.method) = .ok r.method
  headers : HeaderMap.Valid f r.headers
  retryCount : r.retryCount < 2 ^ 32
  sessionRotationCount : r.sessionRotationCount < 2 ^ 32
  maxRetries : ∀ n, r.maxRetries = some n → n < 2 ^ 32
  handledAt : ∀ t, r.handledAt = some t → ∃ s, f.formatTime t = .ok s
  crawlDepth : r.crawlDepth < 2 ^ 32

structure RequestBuilder.Valid (f : Formats) (b : RequestBuilder) : Prop where
  url : ∀ u, b.url = some (.ok u) → f.parseUrl u.serialization = .ok u
  method : f.method (utf8 (b.method.getD "GET")) = .ok (b.method.getD "GET")
  headers : HeaderMap.Valid f b.headers
  maxRetries : ∀ n, b.maxRetries = some n → n < 2 ^ 32
  crawlDepth : b.crawlDepth < 2 ^ 32

theorem RequestBuilder.build_valid {f : Formats} (hf : f.RoundTrips) {toVec : Json → List UInt8}
    {b : RequestBuilder} {r : Request} (hb : b.Valid f) (h : b.build f toVec = .ok r) :
    r.Valid f := by
  simp only [build] at h
  split at h
  · cases h
  · split at h
    · cases h
    · cases h
    · rename_i url hurl
      split at h
      · cases h
      · rename_i headers hheaders
        cases h
        exact {
          url := hb.url url hurl
          loadedUrl := fun _ hu => (nomatch hu)
          method := hb.method
          headers := hb.headers.foldlM hf hheaders
          retryCount := Nat.two_pow_pos 32
          sessionRotationCount := Nat.two_pow_pos 32
          maxRetries := hb.maxRetries
          handledAt := fun _ ht => (nomatch ht)
          crawlDepth := hb.crawlDepth }

end Millipede
