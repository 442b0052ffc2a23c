import Mathlib.Data.List.Chain
import Millipede.Http.Redirects

/-!
# Credentials along redirects

The headers of each hop are made from those of the request, whatever its URL. Two runs whose
requests differ in their credentials only differ in nothing else, and every hop carries them.
-/

namespace Millipede

namespace HeaderMap

def getAll (headers : HeaderMap) (name : String) : List (List UInt8) :=
  (headers.filter fun p => p.1 = name).map Prod.snd

variable {headers : HeaderMap} {name other : String} {value : List UInt8}

theorem filter_insert_of_false {keep : String × List UInt8 → Bool}
    (h : ∀ value, keep (name, value) = false) :
    (headers.insert name value).filter keep = headers.filter keep := by
  have hrest : ∀ rest : HeaderMap,
      (rest.filter fun q => q.1 ≠ name).filter keep = rest.filter keep := by
    intro rest
    rw [List.filter_filter]
    refine List.filter_congr fun q _ => ?_
    by_cases hq : q.1 = name
    · obtain ⟨k, v⟩ := q
      cases hq
      simp [h v]
    · simp [hq]
  induction headers with
  | nil => simp [insert, h]
  | cons p rest ih =>
    simp only [insert]
    split_ifs with hp
    · obtain ⟨k, v⟩ := p
      cases hp
      rw [List.filter_cons_of_neg (by simp [h]), List.filter_cons_of_neg (by simp [h]), hrest]
    · by_cases hkeep : keep p = true
      · rw [List.filter_cons_of_pos hkeep, List.filter_cons_of_pos hkeep, ih]
      · rw [List.filter_cons_of_neg hkeep, List.filter_cons_of_neg hkeep, ih]

theorem filter_insert_of_true {keep : String × List UInt8 → Bool}
    (h : ∀ value, keep (name, value) = true) :
    (headers.insert name value).filter keep = insert name value (headers.filter keep) := by
  induction headers with
  | nil => simp [insert, h]
  | cons p rest ih =>
    simp only [insert]
    split_ifs with hp
    · obtain ⟨k, v⟩ := p
      cases hp
      rw [List.filter_cons_of_pos (h _), List.filter_cons_of_pos (h _), List.filter_filter]
      simp only [insert, if_true, List.filter_filter, Bool.and_comm]
    · by_cases hkeep : keep p = true
      · rw [List.filter_cons_of_pos hkeep, List.filter_cons_of_pos hkeep, ih, insert, if_neg hp]
      · rw [List.filter_cons_of_neg hkeep, List.filter_cons_of_neg hkeep, ih]

theorem get_insert_self : (headers.insert name value).get name = some value := by
  induction headers with
  | nil => simp [insert, get]
  | cons p rest ih =>
    simp only [insert]
    split_ifs with hp
    · simp [get]
    · simpa [get, hp] using ih

theorem getAll_insert_of_ne (h : other ≠ name) :
    (headers.insert name value).getAll other = headers.getAll other := by
  rw [getAll, filter_insert_of_false (by simpa using h.symm), getAll]

theorem get_eq_head? : headers.get name = (headers.getAll name).head? := by
  rw [get, getAll, List.head?_map, List.head?_filter]

theorem containsKey_iff : headers.containsKey name = true ↔ headers.getAll name ≠ [] := by
  simp [containsKey, getAll, List.filter_eq_nil_iff]

theorem mem_insert {p : String × List UInt8} (h : p ∈ headers.insert name value) :
    p = (name, value) ∨ p ∈ headers := by
  induction headers with
  | nil => simpa [insert] using h
  | cons q rest ih =>
    simp only [insert] at h
    split_ifs at h with hq
    · rcases List.mem_cons.mp h with rfl | hp
      · exact .inl rfl
      · exact .inr (List.mem_cons_of_mem _ (List.mem_of_mem_filter hp))
    · rcases List.mem_cons.mp h with rfl | hp
      · exact .inr List.mem_cons_self
      · exact (ih hp).imp_right (List.mem_cons_of_mem _)

end HeaderMap

namespace Redirects

def credentialNames : List String := ["authorization", "proxy-authorization", cookieName]

def withoutCredentials (headers : HeaderMap) : HeaderMap :=
  headers.filter fun p => p.1 ∉ credentialNames

def Valid (client : ReqwestClient J) (headers : HeaderMap) : Prop :=
  ∀ p ∈ headers, client.fromBytes p.2 = .ok p.2

/-- What `http` and the cookie jar promise of header values: they are strings of permitted
bytes. -/
structure Documented (client : ReqwestClient J) : Prop where
  parseValue : ∀ s value, client.parseValue s = .ok value → client.fromBytes value = .ok value
  jarCookie : ∀ jar url value, client.cookieHeaderFor jar url = some value →
    client.fromBytes value = .ok value
  joined : ∀ v w, client.fromBytes v = .ok v → client.fromBytes w = .ok w →
    client.fromBytes (v ++ utf8 "; " ++ w) = .ok (v ++ utf8 "; " ++ w)

variable {J : Type} {client : ReqwestClient J} {request : HttpRequest} {answers : Answers}
variable {headers other : HeaderMap} {name : String} {value : List UInt8} {jar : J} {url : Url}

theorem withoutCredentials_insert (h : name ∈ credentialNames) :
    withoutCredentials (headers.insert name value) = withoutCredentials headers :=
  HeaderMap.filter_insert_of_false (by simpa using h)

theorem withoutCredentials_insert_of_not_mem (h : name ∉ credentialNames) :
    withoutCredentials (headers.insert name value) =
      (withoutCredentials headers).insert name value :=
  HeaderMap.filter_insert_of_true (by simpa using h)

theorem containsKey_withoutCredentials (h : name ∉ credentialNames) :
    (withoutCredentials headers).containsKey name = headers.containsKey name := by
  simp only [HeaderMap.containsKey, withoutCredentials, List.any_filter]
  refine List.any_congr rfl fun p => ?_
  by_cases hp : p.1 = name
  · simp [hp, h]
  · simp [hp]

theorem withoutCredentials_insertMissing
    (h : withoutCredentials headers = withoutCredentials other) :
    withoutCredentials (insertMissing name value headers) =
      withoutCredentials (insertMissing name value other) := by
  by_cases hname : name ∈ credentialNames
  · simp only [insertMissing]
    split_ifs <;> simp only [withoutCredentials_insert hname, h]
  · have hkey : headers.containsKey name = other.containsKey name := by
      rw [← containsKey_withoutCredentials hname, h, containsKey_withoutCredentials hname]
    simp only [insertMissing, hkey]
    split_ifs
    · exact h
    · rw [withoutCredentials_insert_of_not_mem hname, withoutCredentials_insert_of_not_mem hname,
        h]

theorem withProfile_induction {P : HeaderMap → HeaderMap → Prop} (profile : HeaderProfile)
    (h : P headers other)
    (hinsert : ∀ headers other s name value, client.parseValue s = .ok value → P headers other →
      P (insertMissing name value headers) (insertMissing name value other)) :
    P (withProfile client profile headers) (withProfile client profile other) := by
  refine List.foldl_rel ?_ fun p _ headers other h => ?_
  · cases hagent : client.parseValue profile.userAgent with
    | error error => exact h
    | ok value => exact hinsert _ _ _ _ _ hagent h
  · cases hname : client.parseName p.1 with
    | error error => simpa only [hname] using h
    | ok name =>
      cases hvalue : client.parseValue p.2 with
      | error error => simpa only [hname, hvalue] using h
      | ok value => simpa only [hname, hvalue] using hinsert _ _ _ name _ hvalue h

theorem withGenerator_induction {P : HeaderMap → HeaderMap → Prop} (headers other : HeaderMap)
    (h : P headers other)
    (hinsert : ∀ headers other s name value, client.parseValue s = .ok value → P headers other →
      P (insertMissing name value headers) (insertMissing name value other)) :
    P (withGenerator client request url headers) (withGenerator client request url other) := by
  simp only [withGenerator]
  split_ifs
  · exact withProfile_induction _ h hinsert
  · exact h

theorem withoutCredentials_withGenerator
    (h : withoutCredentials headers = withoutCredentials other) :
    withoutCredentials (withGenerator client request url headers) =
      withoutCredentials (withGenerator client request url other) :=
  withGenerator_induction (P := fun a b => withoutCredentials a = withoutCredentials b) _ _ h
    fun _ _ _ _ _ _ h => withoutCredentials_insertMissing h

theorem userAgentName_not_mem : userAgentName ∉ credentialNames := by decide

theorem withUserAgent_withoutCredentials :
    (withUserAgent client headers).map withoutCredentials =
      withUserAgent client (withoutCredentials headers) := by
  simp only [withUserAgent, containsKey_withoutCredentials userAgentName_not_mem]
  split_ifs
  · rfl
  · cases client.defaultUserAgent with
    | none => rfl
    | some agent =>
      cases hvalue : client.parseValue agent with
      | error error => simp [hvalue, Except.map]
      | ok value =>
        simp [hvalue, Except.map, withoutCredentials_insert_of_not_mem userAgentName_not_mem]

theorem Valid.insert (h : Valid client headers) (hvalue : client.fromBytes value = .ok value) :
    Valid client (headers.insert name value) := by
  intro p hp
  rcases HeaderMap.mem_insert hp with rfl | hp
  · exact hvalue
  · exact h p hp

theorem Valid.insertMissing (h : Valid client headers)
    (hvalue : client.fromBytes value = .ok value) :
    Valid client (insertMissing name value headers) := by
  simp only [Redirects.insertMissing]
  split_ifs
  · exact h
  · exact h.insert hvalue

theorem Valid.withGenerator (hclient : Documented client) (h : Valid client headers) :
    Valid client (withGenerator client request url headers) :=
  withGenerator_induction (P := fun a _ : HeaderMap => Valid client a) _ headers h
    fun _ _ _ _ _ hvalue h => h.insertMissing (hclient.parseValue _ _ hvalue)

theorem Valid.withUserAgent (hclient : Documented client) (h : Valid client headers)
    (hheaders : withUserAgent client headers = .ok other) : Valid client other := by
  simp only [Redirects.withUserAgent] at hheaders
  split at hheaders
  · cases hheaders
    exact h
  · split at hheaders
    · cases hheaders
      exact h
    · split at hheaders
      · cases hheaders
      · rename_i hvalue
        cases hheaders
        exact h.insert (hclient.parseValue _ _ hvalue)

theorem mem_of_get (h : headers.get name = some value) : (name, value) ∈ headers := by
  simp only [HeaderMap.get, Option.map_eq_some_iff] at h
  obtain ⟨⟨k, v⟩, hfind, rfl⟩ := h
  have hk : k = name := by simpa using List.find?_some hfind
  exact hk ▸ List.mem_of_find?_eq_some hfind

/-- What the jar adds to a cookie header that is there already. -/
def jarSuffix (client : ReqwestClient J) (request : HttpRequest) (jar : J) (url : Url) :
    List UInt8 :=
  if request.cookieJar.isSome then
    match client.cookieHeaderFor jar url with
    | none => []
    | some jarCookie => utf8 "; " ++ jarCookie
  else []

theorem withCookies_spec (hclient : Documented client) (request : HttpRequest) (jar : J)
    (url : Url) (h : Valid client headers) :
    ∃ sent, withCookies client request jar url headers = .ok sent ∧
      withoutCredentials sent = withoutCredentials headers ∧
      (∀ name, name ≠ cookieName → sent.getAll name = headers.getAll name) ∧
      ∀ value, headers.get cookieName = some value →
        sent.get cookieName = some (value ++ jarSuffix client request jar url) := by
  have hcookie : cookieName ∈ credentialNames := by decide
  simp only [withCookies, jarSuffix]
  split_ifs
  · cases hjar : client.cookieHeaderFor jar url with
    | none => exact ⟨headers, rfl, rfl, fun _ _ => rfl, fun value h => by simpa using h⟩
    | some jarCookie =>
      cases hget : headers.get cookieName with
      | none =>
        refine ⟨_, rfl, withoutCredentials_insert hcookie,
          fun _ hne => HeaderMap.getAll_insert_of_ne hne, ?_⟩
        intro value h
        cases h
      | some existing =>
        have hvalid := hclient.joined existing jarCookie (h _ (mem_of_get hget))
          (hclient.jarCookie _ _ _ hjar)
        simp only [hvalid]
        refine ⟨_, rfl, withoutCredentials_insert hcookie,
          fun _ hne => HeaderMap.getAll_insert_of_ne hne, fun value h => ?_⟩
        cases h
        rw [HeaderMap.get_insert_self, List.append_assoc]
  · exact ⟨headers, rfl, rfl, fun _ _ => rfl, fun value h => by simpa using h⟩

theorem headersFor_withoutCredentials (hclient : Documented client)
    (h : Valid client request.headers) :
    (headersFor client request jar url).map withoutCredentials = withUserAgent client
      (withoutCredentials (withGenerator client request url request.headers)) := by
  rw [← withUserAgent_withoutCredentials, headersFor]
  cases hagent : withUserAgent client (withGenerator client request url request.headers) with
  | error error => rfl
  | ok headers =>
    obtain ⟨sent, hsent, hwithout, -⟩ := withCookies_spec hclient request jar url
      ((h.withGenerator hclient).withUserAgent hclient hagent)
    simp only [hsent, Except.map, hwithout]

/-- The credentials of the request are sent, the cookies followed by those of the jar. -/
structure Carries (client : ReqwestClient J) (request : HttpRequest) (hop : Hop J) : Prop where
  authorization : ∀ name ∈ ["authorization", "proxy-authorization"],
    HeaderMap.getAll request.headers name ≠ [] →
      HeaderMap.getAll hop.sent.headers name = HeaderMap.getAll request.headers name
  cookie : ∀ value, HeaderMap.get request.headers cookieName = some value →
    HeaderMap.get hop.sent.headers cookieName =
      some (value ++ jarSuffix client request hop.jar hop.sent.url)

theorem getAll_insertMissing {key : String} (h : headers.getAll key ≠ []) :
    (insertMissing name value headers).getAll key = headers.getAll key := by
  simp only [insertMissing]
  split_ifs with hname
  · rfl
  · refine HeaderMap.getAll_insert_of_ne fun hkey => ?_
    rw [HeaderMap.containsKey_iff] at hname
    exact hname (hkey ▸ h)

theorem getAll_withGenerator (client : ReqwestClient J) (request : HttpRequest) (url : Url)
    {key : String} (h : headers.getAll key ≠ []) :
    (withGenerator client request url headers).getAll key = headers.getAll key := by
  refine withGenerator_induction (P := fun a _ : HeaderMap => a.getAll key = headers.getAll key)
    _ headers rfl fun a _ _ _ _ _ ha => ?_
  rw [getAll_insertMissing (by rwa [ha]), ha]

theorem getAll_withUserAgent {key : String} (h : headers.getAll key ≠ [])
    (hheaders : withUserAgent client headers = .ok other) :
    other.getAll key = headers.getAll key := by
  simp only [withUserAgent] at hheaders
  split at hheaders
  · cases hheaders
    rfl
  · rename_i hagent
    split at hheaders
    · cases hheaders
      rfl
    · split at hheaders
      · cases hheaders
      · cases hheaders
        refine HeaderMap.getAll_insert_of_ne fun hkey => ?_
        rw [HeaderMap.containsKey_iff] at hagent
        exact hagent (hkey ▸ h)

theorem headersFor_carries (hclient : Documented client) (h : Valid client request.headers)
    {hop : Hop J} (hheaders : headersFor client request hop.jar hop.sent.url =
      .ok hop.sent.headers) : Carries client request hop := by
  simp only [headersFor] at hheaders
  split at hheaders
  · cases hheaders
  · rename_i agent hagent
    obtain ⟨sent, hsent, -, hothers, hcookie⟩ := withCookies_spec hclient request hop.jar
      hop.sent.url ((h.withGenerator hclient).withUserAgent hclient hagent)
    have hkept : ∀ key, HeaderMap.getAll request.headers key ≠ [] →
        HeaderMap.getAll agent key = HeaderMap.getAll request.headers key := by
      intro key hkey
      have hgenerator := getAll_withGenerator client request hop.sent.url hkey
      rw [getAll_withUserAgent (by rwa [hgenerator]) hagent, hgenerator]
    rw [hsent] at hheaders
    rw [Except.ok.inj hheaders] at hothers hcookie
    constructor
    · intro name hname hsupplied
      have hne : name ≠ cookieName := by
        rintro rfl
        revert hname
        decide
      rw [hothers name hne, hkept name hsupplied]
    · intro value hvalue
      refine hcookie value ?_
      rw [HeaderMap.get_eq_head?] at hvalue ⊢
      rw [hkept _ (fun h => by rw [h] at hvalue; cases hvalue), hvalue]

def Hop.stripped (hop : Hop J) : Hop J :=
  { hop with sent := { hop.sent with headers := withoutCredentials hop.sent.headers } }

def Run.stripped (run : Run J) : Run J := { run with hops := run.hops.map Hop.stripped }

theorem stripped_cons (hop : Hop J) (run : Option (Run J)) :
    (run.map fun run => { run with hops := hop :: run.hops }).map Run.stripped =
      (run.map Run.stripped).map fun run => { run with hops := hop.stripped :: run.hops } := by
  cases run <;> rfl

theorem respond_headers (s : Loop J) (response : Response) :
    respond client { request with headers } s response = respond client request s response := rfl

theorem stored_headers (jar : J) (response : Response) :
    stored client { request with headers } jar url response =
      stored client request jar url response := rfl

theorem execute_stripped (answers : Answers) (hclient : Documented client)
    (hvalid : Valid client request.headers)
    (hother : Valid client other)
    (hsame : withoutCredentials request.headers = withoutCredentials other) (turns k : ℕ)
    (s : Loop J) :
    (execute client request answers turns k s).map Run.stripped =
      (execute client { request with headers := other } answers turns k s).map Run.stripped := by
  induction turns generalizing k s with
  | zero => rfl
  | succ turns ih =>
    have hheaders : (headersFor client request s.jar s.url).map withoutCredentials =
        (headersFor client { request with headers := other } s.jar s.url).map
          withoutCredentials := by
      rw [headersFor_withoutCredentials hclient hvalid,
        headersFor_withoutCredentials hclient hother]
      exact congrArg _ (withoutCredentials_withGenerator hsame)
    simp only [execute, respond_headers, stored_headers]
    cases hturn : answers.clientFor k with
    | error error => rfl
    | ok _ =>
      cases hfirst : headersFor client request s.jar s.url with
      | error error =>
        cases hsecond : headersFor client { request with headers := other } s.jar s.url with
        | error error' =>
          rw [hfirst, hsecond] at hheaders
          cases hheaders
          rfl
        | ok sent' =>
          rw [hfirst, hsecond] at hheaders
          cases hheaders
      | ok sent =>
        cases hsecond : headersFor client { request with headers := other } s.jar s.url with
        | error error' =>
          rw [hfirst, hsecond] at hheaders
          cases hheaders
        | ok sent' =>
          rw [hfirst, hsecond] at hheaders
          have hsent : withoutCredentials sent = withoutCredentials sent' :=
            Except.ok.inj hheaders
          cases hanswer : answers.send k with
          | error error => simp [Run.stripped, Hop.stripped, hsent]
          | ok response =>
            cases hrespond : respond client request s response with
            | error error => simp [hrespond, Run.stripped, Hop.stripped, hsent]
            | ok turn =>
              cases turn with
              | done last chain => simp [hrespond, Run.stripped, Hop.stripped, hsent]
              | again t =>
                simp only [hrespond, stripped_cons, ih (k + 1) t, Hop.stripped, hsent]

theorem Kept.headersFor {s : Loop J} {run : Run J} (h : Kept client request s run) :
    ∀ hop ∈ run.hops, headersFor client request hop.jar hop.sent.url = .ok hop.sent.headers := by
  refine h.next.induction _ _ ?_ fun hne => ?_
  · rintro a b ⟨response, location, target, hfollows⟩ -
    exact hfollows.headers
  · have hfirst := h.first _ (List.head_mem_head? hne)
    rw [hfirst.jar, hfirst.url]
    exact hfirst.headers

/-- Two requests that differ in their credentials only: whatever is answered, the runs are the
same but for the credentials, and these go to every URL that the run requests. -/
theorem redirects_carry_credentials (hclient : Documented client) (request : HttpRequest)
    (other : HeaderMap) (answers : Answers) (jar : J) (hlimit : request.maxRedirects < 2 ^ 32)
    (hvalid : Valid client request.headers) (hother : Valid client other)
    (hsame : withoutCredentials request.headers = withoutCredentials other) :
    ∃ a b : Run J,
      (∀ turns, request.maxRedirects < turns →
        execute client request answers turns 0 (begin request jar) = some a ∧
        execute client { request with headers := other } answers turns 0 (begin request jar) =
          some b) ∧
      a.stripped = b.stripped ∧
      (∀ hop ∈ a.hops, Carries client request hop) ∧
      ∀ hop ∈ b.hops, Carries client { request with headers := other } hop := by
  obtain ⟨a, hruna, hkepta⟩ := execute_spec client request answers hlimit 0 (begin request jar)
    (Nat.zero_le _)
  obtain ⟨b, hrunb, hkeptb⟩ := execute_spec client { request with headers := other } answers
    hlimit 0 (begin request jar) (Nat.zero_le _)
  have hturns : ∀ turns, request.maxRedirects < turns →
      request.maxRedirects < (begin request jar).chain.length + turns := by
    intro turns hturns
    simpa [begin] using hturns
  refine ⟨a, b, fun turns h => ⟨hruna turns (hturns turns h), hrunb turns (hturns turns h)⟩, ?_,
    fun hop hhop => headersFor_carries hclient hvalid (hkepta.headersFor hop hhop),
    fun hop hhop => headersFor_carries hclient hother (hkeptb.headersFor hop hhop)⟩
  have heq := execute_stripped answers hclient hvalid hother hsame (request.maxRedirects + 1) 0
    (begin request jar)
  rw [hruna _ (hturns _ (Nat.lt_succ_self _)), hrunb _ (hturns _ (Nat.lt_succ_self _))] at heq
  exact Option.some.inj heq

def otherUrl : Url := ⟨"https://b.test/", some "b.test"⟩

def crossingClient : ReqwestClient (Option (List UInt8)) :=
  { plainClient with
    toStr := fun value =>
      if value = utf8 otherUrl.serialization then .ok otherUrl.serialization else .error "invalid"
    join := fun _ target =>
      if target = otherUrl.serialization then .ok otherUrl else .error "invalid" }

def crossing : Answers where
  clientFor _ := .ok ()
  send
    | 0 => .ok ⟨302, [(locationName, utf8 otherUrl.serialization)]⟩
    | _ => .ok ⟨200, []⟩

def tokenRequest : HttpRequest where
  url := firstUrl
  headers := [("accept", utf8 "text/html"), ("authorization", utf8 "Bearer one")]

def otherToken : HeaderMap := [("accept", utf8 "text/html"), ("authorization", utf8 "Bearer two")]

theorem crossingClient_documented : Documented crossingClient where
  parseValue _ _ _ := rfl
  jarCookie _ _ _ _ := rfl
  joined _ _ _ _ := rfl

theorem redirects_carry_credentials_token : ∃ a b : Run (Option (List UInt8)),
    (∀ turns, 10 < turns →
      execute crossingClient tokenRequest crossing turns 0 (begin tokenRequest none) = some a ∧
      execute crossingClient { tokenRequest with headers := otherToken } crossing turns 0
        (begin tokenRequest none) = some b) ∧
    a.stripped = b.stripped ∧
    (∀ hop ∈ a.hops, Carries crossingClient tokenRequest hop) ∧
    ∀ hop ∈ b.hops, Carries crossingClient { tokenRequest with headers := otherToken } hop :=
  redirects_carry_credentials crossingClient_documented tokenRequest otherToken crossing none
    (by decide) (fun _ _ => rfl) (fun _ _ => rfl) rfl

def NothingCrosses (client : ReqwestClient J) (answers : Answers) : Prop :=
  ∀ (request : HttpRequest) (other : HeaderMap) (jar : J) (turns : ℕ) (a b : Run J),
    withoutCredentials request.headers = withoutCredentials other →
    execute client request answers turns 0 (begin request jar) = some a →
    execute client { request with headers := other } answers turns 0 (begin request jar) =
      some b →
    (a.hops.map Hop.sent).filter (fun sent => sent.url.hostStr ≠ request.url.hostStr) =
      (b.hops.map Hop.sent).filter (fun sent => sent.url.hostStr ≠ request.url.hostStr)

theorem token_crosses : ¬ NothingCrosses crossingClient crossing := by
  intro h
  have hsent := h tokenRequest otherToken none 2 _ _ rfl rfl rfl
  have hvalue := congrArg (List.map Sent.headers) hsent
  revert hvalue
  decide +kernel

end Redirects

end Millipede
