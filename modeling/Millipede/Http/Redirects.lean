import Millipede.Errors
import Millipede.Http.Coalesce
import Millipede.RequestBuilder

/-!
# Following redirects

`ReqwestClient::execute_following_redirects`. What the servers answer is arbitrary, answer by
answer; `reqwest`, `url`, `http`, the header generator and the cookie store are parameters. A
cookie jar is the state that its two operations read and write.
-/

namespace Millipede

namespace HeaderMap

def get (headers : HeaderMap) (name : String) : Option (List UInt8) :=
  (headers.find? fun p => p.1 = name).map Prod.snd

def containsKey (headers : HeaderMap) (name : String) : Bool := headers.any fun p => p.1 = name

/-- The value takes the place of all values of its name. -/
def insert (name : String) (value : List UInt8) : HeaderMap → HeaderMap
  | [] => [(name, value)]
  | p :: rest =>
    if p.1 = name then (name, value) :: rest.filter fun q => q.1 ≠ name
    else p :: insert name value rest

end HeaderMap

namespace Redirects

def userAgentName : String := "user-agent"
def cookieName : String := "cookie"
def locationName : String := "location"

structure HeaderProfile where
  userAgent : String
  headers : List (String × String)

structure ReqwestClient (J : Type) where
  defaultUserAgent : Option String
  generate : String → HeaderProfile
  /-- `str::parse::<HeaderName>` and `str::parse::<HeaderValue>` -/
  parseName : String → Except String String
  parseValue : String → Except String (List UInt8)
  /-- `HeaderValue::from_bytes` and `HeaderValue::to_str` -/
  fromBytes : List UInt8 → Except String (List UInt8)
  toStr : List UInt8 → Except String String
  join : Url → String → Except String Url
  cookieHeaderFor : J → Url → Option (List UInt8)
  storeResponseCookies : J → Url → HeaderMap → J

structure Response where
  status : StatusCode
  headers : HeaderMap

/-- What is answered in each turn of the loop: `client_for` and `send`. -/
structure Answers where
  clientFor : ℕ → Except HttpClientError Unit
  send : ℕ → Except HttpClientError Response

structure Sent where
  url : Url
  method : String
  headers : HeaderMap
  body : Option RequestBody
  proxy : Option Url
  timeout : Option Duration

variable {J : Type}

structure Loop (J : Type) where
  url : Url
  method : String
  body : Option RequestBody
  chain : List Url
  jar : J

def insertMissing (name : String) (value : List UInt8) (headers : HeaderMap) : HeaderMap :=
  if headers.containsKey name then headers else headers.insert name value

def withProfile (client : ReqwestClient J) (profile : HeaderProfile) (headers : HeaderMap) :
    HeaderMap :=
  let headers := match client.parseValue profile.userAgent with
    | .ok value => insertMissing userAgentName value headers
    | .error _ => headers
  profile.headers.foldl (fun headers p =>
    match client.parseName p.1, client.parseValue p.2 with
    | .ok name, .ok value => insertMissing name value headers
    | _, _ => headers) headers

def withGenerator (client : ReqwestClient J) (request : HttpRequest) (url : Url)
    (headers : HeaderMap) : HeaderMap :=
  if request.useHeaderGenerator then
    withProfile client (client.generate (request.sessionToken.getD url.serialization)) headers
  else headers

def withUserAgent (client : ReqwestClient J) (headers : HeaderMap) :
    Except HttpClientError HeaderMap :=
  if headers.containsKey userAgentName then .ok headers
  else
    match client.defaultUserAgent with
    | none => .ok headers
    | some userAgent =>
      match client.parseValue userAgent with
      | .error error => .error ⟨.invalidRequest, "invalid default User-Agent: " ++ error⟩
      | .ok value => .ok (headers.insert userAgentName value)

def withCookies (client : ReqwestClient J) (request : HttpRequest) (jar : J) (url : Url)
    (headers : HeaderMap) : Except HttpClientError HeaderMap :=
  if request.cookieJar.isSome then
    match client.cookieHeaderFor jar url with
    | none => .ok headers
    | some jarCookie =>
      match headers.get cookieName with
      | none => .ok (headers.insert cookieName jarCookie)
      | some existing =>
        match client.fromBytes (existing ++ utf8 "; " ++ jarCookie) with
        | .error error => .error ⟨.invalidRequest, error⟩
        | .ok value => .ok (headers.insert cookieName value)
  else .ok headers

def headersFor (client : ReqwestClient J) (request : HttpRequest) (jar : J) (url : Url) :
    Except HttpClientError HeaderMap :=
  match withUserAgent client (withGenerator client request url request.headers) with
  | .error error => .error error
  | .ok headers => withCookies client request jar url headers

/-- Whether a followed redirect turns the method into GET and drops the body. -/
def rewrites (status : StatusCode) (method : String) : Bool :=
  status = 303 || ((status = 301 || status = 302) && method ≠ "GET" && method ≠ "HEAD")

def isRedirection (status : StatusCode) : Bool := 300 ≤ status && status < 400

inductive Turn (J : Type) where
  | again (s : Loop J)
  | done (response : Response) (chain : List Url)

def stored (client : ReqwestClient J) (request : HttpRequest) (jar : J) (url : Url)
    (response : Response) : J :=
  if request.cookieJar.isSome then client.storeResponseCookies jar url response.headers else jar

def respond (client : ReqwestClient J) (request : HttpRequest) (s : Loop J)
    (response : Response) : Except HttpClientError (Turn J) :=
  if isRedirection response.status then
    match response.headers.get locationName with
    | none => .ok (.done response s.chain)
    | some location =>
      if request.maxRedirects ≤ s.chain.length % 2 ^ 32 then
        .error ⟨.redirect, "exceeded " ++ toString request.maxRedirects ++ " redirects"⟩
      else
        match client.toStr location with
        | .error error => .error ⟨.redirect, "invalid redirect Location header: " ++ error⟩
        | .ok location =>
          match client.join s.url location with
          | .error error => .error ⟨.redirect, "invalid redirect target: " ++ error⟩
          | .ok url =>
            let rewritten := rewrites response.status s.method
            .ok (.again
              { url
                method := if rewritten then "GET" else s.method
                body := if rewritten then none else s.body
                chain := s.chain ++ [s.url]
                jar := stored client request s.jar s.url response })
  else .ok (.done response s.chain)

structure Hop (J : Type) where
  sent : Sent
  jar : J
  answer : Except HttpClientError Response

structure Run (J : Type) where
  hops : List (Hop J)
  jar : J
  result : Except HttpClientError (Response × List Url)

/-- The loop, for so many turns at most; `none` if they are not enough. -/
def execute (client : ReqwestClient J) (request : HttpRequest) (answers : Answers) :
    (turns : ℕ) → (k : ℕ) → Loop J → Option (Run J)
  | 0, _, _ => none
  | turns + 1, k, s =>
    match answers.clientFor k with
    | .error error => some { hops := [], jar := s.jar, result := .error error }
    | .ok () =>
      match headersFor client request s.jar s.url with
      | .error error => some { hops := [], jar := s.jar, result := .error error }
      | .ok headers =>
        let hop : Hop J :=
          { sent := { url := s.url, method := s.method, headers, body := s.body,
                      proxy := request.proxy, timeout := request.timeout }
            jar := s.jar
            answer := answers.send k }
        match answers.send k with
        | .error error => some { hops := [hop], jar := s.jar, result := .error error }
        | .ok response =>
          let jar := stored client request s.jar s.url response
          match respond client request s response with
          | .error error => some { hops := [hop], jar, result := .error error }
          | .ok (.done response chain) =>
            some { hops := [hop], jar, result := .ok (response, chain) }
          | .ok (.again s) =>
            (execute client request answers turns (k + 1) s).map fun run =>
              { run with hops := hop :: run.hops }

def begin (request : HttpRequest) (jar : J) : Loop J where
  url := request.url
  method := request.method
  body := request.body
  chain := []
  jar := jar

variable {client : ReqwestClient J} {request : HttpRequest} {answers : Answers} {s t : Loop J}

structure Follows (client : ReqwestClient J) (request : HttpRequest) (a b : Hop J)
    (response : Response) (location : List UInt8) (target : String) : Prop where
  answered : a.answer = .ok response
  redirected : isRedirection response.status = true
  located : response.headers.get locationName = some location
  read : client.toStr location = .ok target
  joined : client.join a.sent.url target = .ok b.sent.url
  method : b.sent.method = if rewrites response.status a.sent.method then "GET" else a.sent.method
  body : b.sent.body = if rewrites response.status a.sent.method then none else a.sent.body
  jar : b.jar = stored client request a.jar a.sent.url response
  headers : headersFor client request b.jar b.sent.url = .ok b.sent.headers

def Next (client : ReqwestClient J) (request : HttpRequest) (a b : Hop J) : Prop :=
  ∃ response location target, Follows client request a b response location target

theorem respond_again {response : Response}
    (h : respond client request s response = .ok (.again t)) :
    isRedirection response.status = true ∧ s.chain.length % 2 ^ 32 < request.maxRedirects ∧
      ∃ location target, response.headers.get locationName = some location ∧
        client.toStr location = .ok target ∧ client.join s.url target = .ok t.url ∧
        t.method = (if rewrites response.status s.method then "GET" else s.method) ∧
        t.body = (if rewrites response.status s.method then none else s.body) ∧
        t.chain = s.chain ++ [s.url] ∧ t.jar = stored client request s.jar s.url response := by
  simp only [respond] at h
  split at h
  · rename_i hredirect
    split at h
    · cases h
    · rename_i location hlocation
      split at h
      · cases h
      · rename_i hlimit
        split at h
        · cases h
        · rename_i target htarget
          split at h
          · cases h
          · rename_i url hurl
            cases h
            exact ⟨hredirect, not_le.mp hlimit, location, target, hlocation, htarget, hurl, rfl,
              rfl, rfl, rfl⟩
  · cases h

theorem respond_done {response last : Response} {chain : List Url}
    (h : respond client request s response = .ok (.done last chain)) :
    last = response ∧ chain = s.chain := by
  simp only [respond] at h
  split at h
  · split at h
    · cases h
      exact ⟨rfl, rfl⟩
    · split at h
      · cases h
      · split at h
        · cases h
        · split at h
          · cases h
          · cases h
  · cases h
    exact ⟨rfl, rfl⟩

structure Sends (client : ReqwestClient J) (request : HttpRequest) (s : Loop J) (hop : Hop J) :
    Prop where
  url : hop.sent.url = s.url
  method : hop.sent.method = s.method
  body : hop.sent.body = s.body
  jar : hop.jar = s.jar
  headers : headersFor client request s.jar s.url = .ok hop.sent.headers

structure Kept (client : ReqwestClient J) (request : HttpRequest) (s : Loop J) (run : Run J) :
    Prop where
  first : ∀ hop ∈ run.hops.head?, Sends client request s hop
  next : run.hops.IsChain (Next client request)
  count : s.chain.length + run.hops.length ≤ request.maxRedirects + 1
  result : ∀ response chain, run.result = .ok (response, chain) → ∃ front last,
    run.hops = front ++ [last] ∧ chain = s.chain ++ front.map (fun hop => hop.sent.url) ∧
      last.answer = .ok response
  jar : ∀ last ∈ run.hops.getLast?, ∀ response, last.answer = .ok response →
    run.jar = stored client request last.jar last.sent.url response
  idle : run.hops = [] → run.jar = s.jar

theorem kept_nil (hle : s.chain.length ≤ request.maxRedirects) (error : HttpClientError) :
    Kept client request s { hops := [], jar := s.jar, result := .error error } where
  first _ h := nomatch h
  next := .nil
  count := hle.trans (Nat.le_succ _)
  result _ _ h := nomatch h
  jar _ h := nomatch h
  idle _ := rfl

theorem kept_single {hop : Hop J} {jar : J} {result : Except HttpClientError (Response × List Url)}
    (hle : s.chain.length ≤ request.maxRedirects) (hsends : Sends client request s hop)
    (hjar : ∀ response, hop.answer = .ok response →
      jar = stored client request hop.jar hop.sent.url response)
    (hresult : ∀ response chain, result = .ok (response, chain) →
      chain = s.chain ∧ hop.answer = .ok response) :
    Kept client request s { hops := [hop], jar, result } where
  first hop' h := by
    cases h
    exact hsends
  next := .singleton _
  count := by simpa using hle
  result response chain h := by
    obtain ⟨hchain, hanswer⟩ := hresult response chain h
    exact ⟨[], hop, rfl, by simp [hchain], hanswer⟩
  jar last h response hlast := by
    cases h
    exact hjar response hlast
  idle h := nomatch h

theorem Kept.cons {hop : Hop J} {run : Run J} (h : Kept client request t run)
    (hsends : Sends client request s hop) (hchain : t.chain = s.chain ++ [s.url])
    (hnext : ∀ next, Sends client request t next → Next client request hop next)
    (hjar : ∀ response, hop.answer = .ok response →
      t.jar = stored client request hop.jar hop.sent.url response) :
    Kept client request s { run with hops := hop :: run.hops } where
  first hop' h' := by
    cases h'
    exact hsends
  next := by
    cases hhops : run.hops with
    | nil => exact .singleton _
    | cons next hops =>
      have hrest := h.next
      rw [hhops] at hrest
      exact List.isChain_cons_cons.mpr ⟨hnext next (h.first next (by simp [hhops])), hrest⟩
  count := by
    have hcount := h.count
    rw [hchain, List.length_append] at hcount
    simp only [List.length_cons, List.length_nil] at hcount ⊢
    omega
  result response chain hresult := by
    obtain ⟨front, last, hhops, hurls, hanswer⟩ := h.result response chain hresult
    refine ⟨hop :: front, last, by simp [hhops], ?_, hanswer⟩
    rw [hurls, hchain, List.map_cons, hsends.url]
    simp
  jar last hlast response hanswer := by
    cases hhops : run.hops with
    | nil =>
      simp only [hhops] at hlast
      cases hlast
      exact (h.idle hhops).trans (hjar response hanswer)
    | cons next hops =>
      refine h.jar last ?_ response hanswer
      simpa [hhops] using hlast
  idle h' := nomatch h'

/-- The loop ends, after as many turns as are left to the redirect limit and one more. -/
theorem execute_spec (client : ReqwestClient J) (request : HttpRequest) (answers : Answers)
    (hlimit : request.maxRedirects < 2 ^ 32) (k : ℕ) (s : Loop J)
    (hle : s.chain.length ≤ request.maxRedirects) :
    ∃ run, (∀ turns, request.maxRedirects < s.chain.length + turns →
      execute client request answers turns k s = some run) ∧ Kept client request s run := by
  generalize hleft : request.maxRedirects - s.chain.length = left
  induction left using Nat.strong_induction_on generalizing k s with
  | h left ih =>
    have hsucc : ∀ turns, request.maxRedirects < s.chain.length + turns → ∃ t, turns = t + 1 := by
      intro turns hturns
      exact Nat.exists_eq_succ_of_ne_zero (by omega)
    cases hclient : answers.clientFor k with
    | error error =>
      refine ⟨_, fun turns hturns => ?_, kept_nil hle error⟩
      obtain ⟨t, rfl⟩ := hsucc turns hturns
      simp only [execute, hclient]
    | ok _ =>
      cases hheaders : headersFor client request s.jar s.url with
      | error error =>
        refine ⟨_, fun turns hturns => ?_, kept_nil hle error⟩
        obtain ⟨t, rfl⟩ := hsucc turns hturns
        simp only [execute, hclient, hheaders]
      | ok headers =>
        let hop : Hop J :=
          { sent := { url := s.url, method := s.method, headers, body := s.body,
                      proxy := request.proxy, timeout := request.timeout }
            jar := s.jar
            answer := answers.send k }
        have hsends : Sends client request s hop := ⟨rfl, rfl, rfl, rfl, hheaders⟩
        have hanswer : hop.answer = answers.send k := rfl
        cases hsend : answers.send k with
        | error error =>
          refine ⟨{ hops := [hop], jar := s.jar, result := .error error }, fun turns hturns => ?_,
            kept_single hle hsends (fun response h => ?_) (fun _ _ h => nomatch h)⟩
          · obtain ⟨t, rfl⟩ := hsucc turns hturns
            simp only [execute, hclient, hheaders, hsend, hop]
          · rw [hanswer, hsend] at h
            cases h
        | ok response =>
          have hstored : ∀ response', hop.answer = .ok response' →
              stored client request s.jar s.url response =
                stored client request hop.jar hop.sent.url response' := by
            intro response' h
            rw [hanswer, hsend] at h
            cases h
            rfl
          cases hrespond : respond client request s response with
          | error error =>
            refine ⟨{ hops := [hop], jar := stored client request s.jar s.url response,
                      result := .error error }, fun turns hturns => ?_,
              kept_single hle hsends hstored (fun _ _ h => nomatch h)⟩
            obtain ⟨t, rfl⟩ := hsucc turns hturns
            simp only [execute, hclient, hheaders, hsend, hrespond, hop]
          | ok turn =>
            cases turn with
            | done last chain =>
              obtain ⟨rfl, rfl⟩ := respond_done hrespond
              refine ⟨{ hops := [hop], jar := stored client request s.jar s.url last,
                        result := .ok (last, s.chain) }, fun turns hturns => ?_,
                kept_single hle hsends hstored (fun _ _ h => ?_)⟩
              · obtain ⟨t, rfl⟩ := hsucc turns hturns
                simp only [execute, hclient, hheaders, hsend, hrespond, hop]
              · cases h
                exact ⟨rfl, hanswer.trans hsend⟩
            | again t =>
              obtain ⟨hredirect, hroom, location, target, hlocation, htarget, hurl, hmethod, hbody,
                hchain, hjar⟩ := respond_again hrespond
              rw [Nat.mod_eq_of_lt (by omega)] at hroom
              have hlength : t.chain.length = s.chain.length + 1 := by simp [hchain]
              obtain ⟨run, hrun, hkept⟩ := ih _ (by omega) (k + 1) t (by omega) rfl
              refine ⟨{ run with hops := hop :: run.hops }, fun turns hturns => ?_,
                hkept.cons hsends hchain (fun next hnext => ?_)
                  (fun response' h => hjar.trans (hstored response' h))⟩
              · obtain ⟨t', rfl⟩ := hsucc turns hturns
                simp only [execute, hclient, hheaders, hsend, hrespond, hrun t' (by omega),
                  Option.map_some, hop]
              · exact ⟨response, location, target, hanswer.trans hsend, hredirect, hlocation,
                  htarget, hnext.url ▸ hurl, hnext.method.trans hmethod, hnext.body.trans hbody,
                  hnext.jar.trans hjar, by rw [hnext.jar, hnext.url]; exact hnext.headers⟩

theorem Next.body_none {a b : Hop J} (h : Next client request a b) (hbody : a.sent.body = none) :
    b.sent.body = none := by
  obtain ⟨response, location, target, hfollows⟩ := h
  rw [hfollows.body, hbody]
  split_ifs <;> rfl

theorem body_stays_none {hops : List (Hop J)} (h : hops.IsChain (Next client request)) :
    hops.Pairwise fun a b => a.sent.body = none → b.sent.body = none := by
  have htrans : IsTrans (Hop J) fun a b => a.sent.body = none → b.sent.body = none :=
    ⟨fun _ _ _ hab hbc ha => hbc (hab ha)⟩
  exact List.isChain_iff_pairwise.mp (h.imp fun _ _ hnext => hnext.body_none)

/-- Whatever is answered, the loop returns after at most one request more than it may follow
redirects. The first request is the given one, and each later one follows the answer of the
one before it: to the `Location` joined to its URL, with method and body unless a redirect
rewrites them, and with the cookies of a jar in which the response is stored already. A
response comes with the URLs before the last one. -/
theorem redirects_followed (client : ReqwestClient J) {request : HttpRequest}
    (hlimit : request.maxRedirects < 2 ^ 32) (answers : Answers) (jar : J) :
    ∃ run, (∀ turns, request.maxRedirects < turns →
        execute client request answers turns 0 (begin request jar) = some run) ∧
      run.hops.length ≤ request.maxRedirects + 1 ∧
      (∀ first ∈ run.hops.head?, first.sent.url = request.url ∧
        first.sent.method = request.method ∧ first.sent.body = request.body ∧ first.jar = jar ∧
        headersFor client request jar request.url = .ok first.sent.headers) ∧
      run.hops.IsChain (Next client request) ∧
      (run.hops.Pairwise fun a b => a.sent.body = none → b.sent.body = none) ∧
      (∀ response chain, run.result = .ok (response, chain) →
        chain.length ≤ request.maxRedirects ∧ ∃ last, run.hops.getLast? = some last ∧
          last.answer = .ok response ∧
          run.hops.map (fun hop => hop.sent.url) = chain ++ [last.sent.url]) ∧
      ∀ last ∈ run.hops.getLast?, ∀ response, last.answer = .ok response →
        run.jar = stored client request last.jar last.sent.url response := by
  obtain ⟨run, hrun, hkept⟩ := execute_spec client request answers hlimit 0 (begin request jar)
    (Nat.zero_le _)
  have hcount : run.hops.length ≤ request.maxRedirects + 1 := by
    simpa [begin] using hkept.count
  refine ⟨run, fun turns hturns => hrun turns (by simpa [begin] using hturns), hcount, ?_,
    hkept.next, body_stays_none hkept.next, ?_, hkept.jar⟩
  · intro first hfirst
    have hsends := hkept.first first hfirst
    exact ⟨hsends.url, hsends.method, hsends.body, hsends.jar, hsends.headers⟩
  · intro response chain hresult
    obtain ⟨front, last, hhops, hchain, hanswer⟩ := hkept.result response chain hresult
    rw [hhops, List.length_append, List.length_singleton] at hcount
    refine ⟨?_, last, by simp [hhops], hanswer, by simp [hhops, hchain, begin]⟩
    rw [hchain]
    simpa [begin] using hcount

def firstUrl : Url := ⟨"https://a.test/", some "a.test"⟩
def secondUrl : Url := ⟨"https://a.test/next", some "a.test"⟩

def plainClient : ReqwestClient (Option (List UInt8)) where
  defaultUserAgent := none
  generate _ := ⟨"", []⟩
  parseName := .ok
  parseValue value := .ok (utf8 value)
  fromBytes := .ok
  toStr value := if value = utf8 "/next" then .ok "/next" else .error "invalid"
  join _ target := if target = "/next" then .ok secondUrl else .error "invalid"
  cookieHeaderFor jar _ := jar
  storeResponseCookies jar _ headers := (headers.get "set-cookie").or jar

def postRequest : HttpRequest where
  url := firstUrl
  method := "POST"
  body := some (.bytes (utf8 "a=b"))
  cookieJar := some 0
  maxRedirects := 1

def redirectedOnce : Answers where
  clientFor _ := .ok ()
  send
    | 0 => .ok ⟨302, [(locationName, utf8 "/next"), ("set-cookie", utf8 "id=1")]⟩
    | _ => .ok ⟨200, []⟩

theorem redirects_followed_once : ∃ run, (∀ turns, 1 < turns →
    execute plainClient postRequest redirectedOnce turns 0 (begin postRequest none) = some run) ∧
    run.hops.map (fun hop => (hop.sent.url, hop.sent.method, hop.sent.body.isSome,
      hop.sent.headers.get cookieName)) =
        [(firstUrl, "POST", true, none), (secondUrl, "GET", false, some (utf8 "id=1"))] := by
  obtain ⟨run, hrun, -⟩ :=
    @redirects_followed _ plainClient postRequest (by decide) redirectedOnce none
  refine ⟨run, hrun, ?_⟩
  have hvalue : (execute plainClient postRequest redirectedOnce 2 0 (begin postRequest none)).map
      (fun run => run.hops.map fun hop => (hop.sent.url, hop.sent.method, hop.sent.body.isSome,
        hop.sent.headers.get cookieName)) =
      some [(firstUrl, "POST", true, none),
        (secondUrl, "GET", false, some (utf8 "id=1"))] := rfl
  rw [hrun 2 (by decide)] at hvalue
  exact Option.some.inj hvalue

end Redirects

end Millipede
