import Millipede.Http.CoalesceEntries

/-!
# Whose response a caller receives

The key of a call tells the method, the URL without its fragment, the proxy and the jar. It
does not tell the headers or the redirect limit: calls that differ in these alone share an
exchange.
-/

namespace Millipede

/-- A URL as the `url` crate writes it, with its scheme in lower case before the first colon. -/
def Url.Absolute (url : Url) : Prop :=
  ∃ scheme rest : List Char, url.serialization.toList = scheme ++ ':' :: rest ∧
    ∀ c ∈ scheme, c.isLower ∨ c.isDigit ∨ c = '+' ∨ c = '-' ∨ c = '.'

theorem Url.Absolute.head {url : Url} (h : url.Absolute) (rest : List Char) :
    url.withoutFragment.toList ≠ 'H' :: rest := by
  obtain ⟨scheme, after, htext, hscheme⟩ := h
  intro heq
  simp only [Url.withoutFragment, String.toList_ofList, htext] at heq
  cases scheme with
  | nil =>
    simp at heq
  | cons c scheme =>
    have hc := hscheme c List.mem_cons_self
    rw [List.cons_append, List.takeWhile_cons] at heq
    split_ifs at heq
    cases heq
    revert hc
    decide

theorem computeUniqueKey_separates {url url' : Url} {method method' : String}
    (h : url.Absolute) (h' : url'.Absolute) (hm : method = "GET" ∨ method = "HEAD")
    (hm' : method' = "GET" ∨ method' = "HEAD")
    (heq : Request.computeUniqueKey url method none =
      Request.computeUniqueKey url' method' none) :
    method = method' ∧ url.withoutFragment = url'.withoutFragment := by
  have hhead : ∀ u : Url, (Request.computeUniqueKey u "HEAD" none).toList =
      ("HEAD" ++ "(" ++ String.ofList (hex16 (fnv1a64 []).toNat) ++ "):").toList ++
        u.withoutFragment.toList := by
    intro u
    simp [Request.computeUniqueKey]
  have hget : ∀ u : Url, Request.computeUniqueKey u "GET" none = u.withoutFragment := by
    intro u
    simp [Request.computeUniqueKey]
  have htext := congrArg String.toList heq
  rcases hm with rfl | rfl <;> rcases hm' with rfl | rfl
  · exact ⟨rfl, by rwa [hget, hget] at heq⟩
  · rw [hget, hhead] at htext
    exact absurd htext (h.head _)
  · rw [hget, hhead] at htext
    exact absurd htext.symm (h'.head _)
  · rw [hhead, hhead] at htext
    exact ⟨rfl, String.toList_injective (List.append_cancel_left htext)⟩

namespace Coalesce

/-- The parts of a request that the key leaves out and that the answer depends on. -/
def SameRest (a b : HttpRequest) : Prop :=
  a.headers = b.headers ∧ a.maxRedirects = b.maxRedirects

structure Alike (a b : HttpRequest) : Prop where
  method : a.method = b.method
  url : a.url.withoutFragment = b.url.withoutFragment
  headers : a.headers = b.headers
  proxy : a.proxy.map Url.serialization = b.proxy.map Url.serialization
  cookieJar : a.cookieJar = b.cookieJar
  maxRedirects : a.maxRedirects = b.maxRedirects

theorem Alike.refl (a : HttpRequest) : Alike a a := ⟨rfl, rfl, rfl, rfl, rfl, rfl⟩

theorem coalesceKey_eq_some {request : HttpRequest} {key : CoalesceKey}
    (h : coalesceKey request = some key) :
    (request.method = "GET" ∨ request.method = "HEAD") ∧
      key = ⟨Request.computeUniqueKey request.url request.method none,
        request.proxy.map Url.serialization, request.cookieJar⟩ := by
  simp only [coalesceKey] at h
  split_ifs at h with hplain
  cases h
  refine ⟨?_, rfl⟩
  by_contra hno
  exact hplain (.inl (not_or.mp hno))

theorem alike_of_key {a b : HttpRequest} {key : CoalesceKey} (ha : a.url.Absolute)
    (hb : b.url.Absolute) (hkey : coalesceKey a = some key) (hkey' : coalesceKey b = some key)
    (hrest : SameRest a b) : Alike a b := by
  obtain ⟨hm, rfl⟩ := coalesceKey_eq_some hkey
  obtain ⟨hm', heq⟩ := coalesceKey_eq_some hkey'
  obtain ⟨htext, hproxy, hjar⟩ := CoalesceKey.mk.inj heq
  obtain ⟨hmethod, hurl⟩ := computeUniqueKey_separates ha hb hm hm' htext
  exact ⟨hmethod, hurl, hrest.1, hproxy, hjar, hrest.2⟩

variable {Response : Type} {s t : State Response} {i : ℕ} {caller : Caller Response}

/-- A call begins while one for the same key is active whose headers or redirect limit are
other ones. -/
def Mixes (s : State Response) : Event Response → Prop
  | .send request => ∃ (i : ℕ) (caller : Caller Response) (key : CoalesceKey),
      s.callers[i]? = some caller ∧ caller.phase.isFinished = false ∧
      coalesceKey caller.request = some key ∧ coalesceKey request = some key ∧
      ¬ SameRest caller.request request
  | .act _ _ => False

def Phase.served : Phase Response → Bool
  | .finished _ result => result.isSome
  | _ => true

structure Unmixed (s : State Response) : Prop where
  agree : ∀ (i j : ℕ) caller other key, s.callers[i]? = some caller → s.callers[j]? = some other →
    caller.phase.isFinished = false → other.phase.isFinished = false →
    coalesceKey caller.request = some key → coalesceKey other.request = some key →
    SameRest caller.request other.request
  shared : ∀ (i : ℕ) caller (c : ℕ) cell value, s.callers[i]? = some caller →
    caller.phase.served = true → caller.phase.cell = some c → s.cells[c]? = some cell →
    cell.value = some value →
    ∃ (j : ℕ) (leader : Caller Response) (outcome : Outcome Response),
      s.callers[j]? = some leader ∧ leader.phase.cell = some c ∧
      leader.leaderResult = some outcome ∧ value = followerResult outcome ∧
      SameRest leader.request caller.request

theorem unmixed_start : Unmixed (start : State Response) where
  agree := fun _ _ _ _ _ h => nomatch h
  shared := fun _ _ _ _ _ h => nomatch h

theorem SameRest.symm {a b : HttpRequest} (h : SameRest a b) : SameRest b a :=
  ⟨h.1.symm, h.2.symm⟩

theorem Unmixed.send {request : HttpRequest} (h : Unmixed s)
    (hguard : ¬ Mixes s (.send request)) :
    Unmixed { s with callers := s.callers ++ [.new request] } := by
  have hnew : ∀ (i : ℕ) (caller : Caller Response) key, s.callers[i]? = some caller →
      caller.phase.isFinished = false → coalesceKey caller.request = some key →
      coalesceKey request = some key → SameRest caller.request request := by
    intro i caller key hi hf hkey hkey'
    by_contra hno
    exact hguard ⟨i, caller, key, hi, hf, hkey, hkey', hno⟩
  constructor
  · intro i j caller other key hi hj hf hf' hkey hkey'
    obtain hi | rfl := getElem?_concat_new hi
    · obtain hj | rfl := getElem?_concat_new hj
      · exact h.agree i j caller other key hi hj hf hf' hkey hkey'
      · exact hnew i caller key hi hf hkey hkey'
    · obtain hj | rfl := getElem?_concat_new hj
      · exact (hnew j other key hj hf' hkey' hkey).symm
      · exact ⟨rfl, rfl⟩
  · intro i caller c cell value hi hserved hplace hcell hvalue
    obtain hi | rfl := getElem?_concat_new hi
    · obtain ⟨j, leader, outcome, hj, hrest⟩ :=
        h.shared i caller c cell value hi hserved hplace hcell hvalue
      refine ⟨j, leader, outcome, ?_, hrest⟩
      rw [← hj]
      exact List.getElem?_append_left (List.getElem?_eq_some_iff.mp hj).1
    · rw [Caller.new_cell] at hplace
      cases hplace

theorem Moved.value {action : Action Response} {effect : Effect Response} {c : ℕ}
    {cell' : Cell Response} {value : Shared Response} (hm : Moved s i caller action effect)
    (hcell' : effect.cells[c]? = some cell') (hvalue : cell'.value = some value) :
    (∃ cell, s.cells[c]? = some cell ∧ cell.value = some value) ∨
      ∃ outcome, caller.phase = .settling c ∧ value = followerResult outcome ∧
        effect.caller.leaderResult = some outcome ∧ effect.caller.phase.cell = some c := by
  cases hm with
  | @made key hp hkey habsent =>
    rcases Nat.lt_or_ge c s.cells.length with hlt | hge
    · exact .inl ⟨cell', by rwa [List.getElem?_append_left hlt] at hcell', hvalue⟩
    · rw [List.getElem?_append_right hge] at hcell'
      have hmem := List.mem_of_getElem? hcell'
      rw [List.mem_singleton] at hmem
      rw [hmem] at hvalue
      cases hvalue
  | @acquired d key hp hcell =>
    simp only [Tasks.getElem?_set hcell] at hcell'
    split_ifs at hcell' with hcd
    · cases hcell'
      cases hvalue
    · exact .inl ⟨cell', hcell', hvalue⟩
  | @settled d cell outcome hp hout hcell =>
    simp only [Tasks.getElem?_set hcell] at hcell'
    split_ifs at hcell' with hcd
    · cases hcell'
      cases hvalue
      subst hcd
      exact .inr ⟨outcome, hp, rfl, hout, rfl⟩
    · exact .inl ⟨cell', hcell', hvalue⟩
  | @sender d cell hp hcell =>
    simp only [Tasks.getElem?_set hcell] at hcell'
    split_ifs at hcell' with hcd
    · cases hcell'
      subst hcd
      exact .inl ⟨cell, hcell, hvalue⟩
    · exact .inl ⟨cell', hcell', hvalue⟩
  | _ => exact .inl ⟨cell', hcell', hvalue⟩

theorem Moved.leader {action : Action Response} {effect : Effect Response}
    {outcome : Outcome Response} (hm : Moved s i caller action effect) (hc : Coalesced s)
    (hi : s.callers[i]? = some caller) (hout : caller.leaderResult = some outcome) :
    effect.caller.leaderResult = some outcome ∧
      effect.caller.phase.cell = caller.phase.cell := by
  have hfresh : caller.phase.cell = none → False := by
    intro hnone
    rw [hc.fresh i caller hi hnone] at hout
    cases hout
  have hsending : ∀ c, caller.phase = .sending c → False := by
    intro c hp
    obtain ⟨cell, -, -, hfits⟩ := hc.own i caller c hi (by rw [hp]; rfl)
    simp only [Fits, hp] at hfits
    rw [hfits.2.2.1] at hout
    cases hout
  cases hm with
  | found hp _ _ | made hp _ _ | forwarded hp => exact (hfresh (by rw [hp]; rfl)).elim
  | unplaced hp => rcases hp with hp | hp <;> exact (hfresh (by rw [hp]; rfl)).elim
  | answered hp | sender hp _ => exact (hsending _ hp).elim
  | acquired hp _ | joins hp _ _ | settled hp _ _ | idle hp _ | removes hp | removed hp _ _
  | kept hp _ | waiter hp => exact ⟨hout, by rw [hp]; rfl⟩

theorem Moved.place {action : Action Response} {effect : Effect Response} {c : ℕ}
    {cell' : Cell Response} {value : Shared Response} (hm : Moved s i caller action effect)
    (hplace : effect.caller.phase.cell = some c) (hcell' : effect.cells[c]? = some cell')
    (hvalue : cell'.value = some value) :
    caller.phase.cell = some c ∨
      ∃ key, coalesceKey caller.request = some key ∧ s.inFlight.lookup key = some c := by
  cases hm with
  | @found key d hp hkey hentry =>
    cases hplace
    exact .inr ⟨key, hkey, hentry⟩
  | @made key hp hkey habsent =>
    -- A cell that was just made has no value.
    cases hplace
    simp only [List.getElem?_concat_length, Option.some.injEq] at hcell'
    rw [← hcell'] at hvalue
    cases hvalue
  | forwarded hp | unplaced hp => cases hplace
  | acquired hp _ | joins hp _ _ | answered hp | settled hp _ _ | idle hp _ | removes hp
  | removed hp _ _ | kept hp _ | waiter hp | sender hp _ =>
    rw [hp]
    exact .inl hplace

theorem Coalesced.leader_active {j c : ℕ} {leader : Caller Response} {key : CoalesceKey}
    {outcome : Outcome Response} (hc : Coalesced s) (hj : s.callers[j]? = some leader)
    (hplace : leader.phase.cell = some c) (hout : leader.leaderResult = some outcome)
    (hentry : s.inFlight.lookup key = some c) : leader.phase.isFinished = false := by
  cases hp : leader.phase with
  | finished d result =>
    rw [hp] at hplace
    cases hplace
    exact absurd hentry (hc.retired j leader c result hj hp (by rw [hout]; rfl) key)
  | _ => rfl

theorem Unmixed.act {action : Action Response} {effect : Effect Response} (h : Unmixed s)
    (hc : Coalesced s) (hi : s.callers[i]? = some caller)
    (ha : Coalesce.act s i caller action = some effect) : Unmixed (s.after i effect) := by
  have hm := act_moved ha
  have hremembers := act_remembers ha
  -- What a caller was before the step, whether it is the one that moved or not.
  have hback : ∀ (j : ℕ) (other : Caller Response), (s.after i effect).callers[j]? = some other →
      ∃ old, s.callers[j]? = some old ∧ other.request = old.request ∧
        (other.phase.isFinished = false → old.phase.isFinished = false) := by
    intro j other hj
    simp only [State.after, Tasks.getElem?_set hi] at hj
    split_ifs at hj with hji
    · cases hj
      exact ⟨caller, hji ▸ hi, hremembers.request, fun _ => hremembers.running⟩
    · exact ⟨other, hj, rfl, id⟩
  constructor
  · intro j k other another key hj hk hf hf' hkey hkey'
    obtain ⟨old, hold, hreq, hrunning⟩ := hback j other hj
    obtain ⟨old', hold', hreq', hrunning'⟩ := hback k another hk
    rw [hreq] at hkey ⊢
    rw [hreq'] at hkey' ⊢
    exact h.agree j k old old' key hold hold' (hrunning hf) (hrunning' hf') hkey hkey'
  · intro j other c cell' value hj hserved hplace hcell' hvalue
    -- A leader from before the step is one after it.
    have hforth : (∃ (k : ℕ) (leader : Caller Response) (outcome : Outcome Response),
        s.callers[k]? = some leader ∧ leader.phase.cell = some c ∧
        leader.leaderResult = some outcome ∧ value = followerResult outcome ∧
        SameRest leader.request other.request) →
        ∃ (k : ℕ) (leader : Caller Response) (outcome : Outcome Response),
          (s.after i effect).callers[k]? = some leader ∧ leader.phase.cell = some c ∧
          leader.leaderResult = some outcome ∧ value = followerResult outcome ∧
          SameRest leader.request other.request := by
      rintro ⟨k, leader, outcome, hk, hkc, hout, hval, hrest⟩
      by_cases hki : k = i
      · subst hki
        rw [hi] at hk
        cases hk
        obtain ⟨hout', hplace'⟩ := hm.leader hc hi hout
        refine ⟨k, effect.caller, outcome, ?_, hplace'.trans hkc, hout', hval, ?_⟩
        · simp only [State.after, Tasks.getElem?_set hi, if_pos]
        · rw [hremembers.request]
          exact hrest
      · refine ⟨k, leader, outcome, ?_, hkc, hout, hval, hrest⟩
        simp only [State.after, Tasks.getElem?_set hi, if_neg hki]
        exact hk
    rcases hm.value hcell' hvalue with ⟨cell, hcell, hold⟩ | ⟨outcome, hp, hval, hout, hic⟩
    · apply hforth
      simp only [State.after, Tasks.getElem?_set hi] at hj
      split_ifs at hj with hji
      · subst hji
        cases hj
        rw [hremembers.request]
        rcases hm.place hplace hcell' hvalue with hsame | ⟨key, hkey, hentry⟩
        · refine h.shared j caller c cell value hi ?_ hsame hcell hold
          have hrunning := hremembers.running
          cases hq : caller.phase with
          | finished d result =>
            rw [hq] at hrunning
            cases hrunning
          | _ => rfl
        · obtain ⟨k, leader, outcome, hk, hkc, hout, hval⟩ := hc.settled c cell value hcell hold
          obtain ⟨cell₁, hcell₁, hkey₁, -⟩ := hc.own k leader c hk hkc
          obtain ⟨cell₂, hcell₂, hkey₂⟩ := hc.keyed key c hentry
          rw [hcell₁] at hcell₂
          cases hcell₂
          rw [hkey₂] at hkey₁
          exact ⟨k, leader, outcome, hk, hkc, hout, hval, h.agree k j leader caller key hk hi
            (hc.leader_active hk hkc hout hentry) hremembers.running hkey₁ hkey⟩
      · exact h.shared j other c cell value hj hserved hplace hcell hold
    · -- The value is new: everybody at the cell is active, and so is its leader.
      refine ⟨i, effect.caller, outcome, ?_, hic, hout, hval, ?_⟩
      · simp only [State.after, Tasks.getElem?_set hi, if_pos]
      simp only [State.after, Tasks.getElem?_set hi] at hj
      split_ifs at hj with hji
      · cases hj
        exact ⟨rfl, rfl⟩
      · obtain ⟨cell, hcell, hkey, hfits⟩ := hc.own i caller c hi (by rw [hp]; rfl)
        simp only [Fits, hp] at hfits
        obtain ⟨cell₁, hcell₁, hkey₁, hfits₁⟩ := hc.own j other c hj hplace
        rw [hcell] at hcell₁
        cases hcell₁
        have hactive : other.phase.isFinished = false := by
          cases hq : other.phase with
          | finished d result =>
            rw [hq] at hserved
            obtain ⟨r, rfl⟩ := Option.isSome_iff_exists.mp hserved
            simp only [Fits, hq, Explained] at hfits₁
            split at hfits₁
            · rw [hfits.2.1] at hfits₁
              cases hfits₁.2.2
            · obtain ⟨v, hv, -⟩ := hfits₁ r rfl
              rw [hfits.2.1] at hv
              cases hv
          | _ => rfl
        rw [hremembers.request]
        exact h.agree i j caller other cell.key hi hj hremembers.running hactive hkey hkey₁

theorem unmixed_run {es : List (Event Response)}
    (run : Machine.Run (Machine.Guarded (fun s e => ¬ Mixes s e) (Machine.Computes step))
      start es t) : Coalesced t ∧ Unmixed t := by
  refine Machine.run_invariant (I := fun s => Coalesced s ∧ Unmixed s) ?_ run
    ⟨coalesced_start, unmixed_start⟩
  rintro s e t ⟨hc, h⟩ ⟨hguard, hs⟩
  refine ⟨hc.step hs, ?_⟩
  cases e with
  | send request =>
    cases hs
    exact h.send hguard
  | act i action =>
    obtain ⟨caller, effect, hi, ha, rfl⟩ := step_act hs
    exact h.act hc hi ha

theorem sent {es : List (Event Response)} (run : Machine.Run (Machine.Computes step) start es t)
    (hi : t.callers[i]? = some caller) : .send caller.request ∈ es := by
  induction run generalizing i caller with
  | nil => cases hi
  | @snoc u v es e _ hs ih =>
    cases e with
    | send request =>
      cases hs
      obtain hi | rfl := getElem?_concat_new hi
      · exact List.mem_append_left _ (ih hi)
      · exact List.mem_append_right _ List.mem_cons_self
    | act j action =>
      obtain ⟨old, effect, hj, ha, rfl⟩ := step_act hs
      simp only [State.after, Tasks.getElem?_set hj] at hi
      split_ifs at hi with hij
      · cases hi
        rw [(act_remembers ha).request]
        exact List.mem_append_left _ (ih hj)
      · exact List.mem_append_left _ (ih hi)

/-- As long as no call begins next to an active one for the same key with other headers or
another redirect limit, a caller receives only a response to a request like its own, and
active calls that share a cell have requests alike. -/
theorem coalescing_never_mixes {es : List (Event Response)}
    (run : Machine.Run (Machine.Guarded (fun s e => ¬ Mixes s e) (Machine.Computes step))
      start es t)
    (urls : ∀ request, .send request ∈ es → request.url.Absolute) :
    (∀ (i : ℕ) caller cell response, t.callers[i]? = some caller →
      caller.phase = .finished cell (some (.ok response)) →
      ∃ (j : ℕ) (leader : Caller Response), t.callers[j]? = some leader ∧
        .act j (.answer (.ok response)) ∈ es ∧ Alike leader.request caller.request) ∧
    ∀ (i j : ℕ) caller other c, t.callers[i]? = some caller → t.callers[j]? = some other →
      caller.phase.isFinished = false → other.phase.isFinished = false →
      caller.phase.cell = some c → other.phase.cell = some c →
      Alike caller.request other.request := by
  obtain ⟨hc, h⟩ := unmixed_run run
  have hrun : Machine.Run (Machine.Computes step) start es t := run.mono fun _ _ _ hs => hs.2
  have habsolute : ∀ (i : ℕ) caller, t.callers[i]? = some caller → caller.request.url.Absolute :=
    fun i caller hi => urls _ (sent hrun hi)
  -- Callers of one cell have its key.
  have halike : ∀ (i j : ℕ) caller other c, t.callers[i]? = some caller →
      t.callers[j]? = some other → caller.phase.cell = some c → other.phase.cell = some c →
      SameRest caller.request other.request → Alike caller.request other.request := by
    intro i j caller other c hi hj hplace hplace' hrest
    obtain ⟨cell, hcell, hkey, -⟩ := hc.own i caller c hi hplace
    obtain ⟨cell', hcell', hkey', -⟩ := hc.own j other c hj hplace'
    rw [hcell] at hcell'
    cases hcell'
    exact alike_of_key (habsolute i caller hi) (habsolute j other hj) hkey hkey' hrest
  constructor
  · intro i caller cell response hi hp
    obtain ⟨hown, hforwarded⟩ := answered hrun hi
    cases cell with
    | none => exact ⟨i, caller, hi, hforwarded _ hp, .refl _⟩
    | some c =>
      have hplace : caller.phase.cell = some c := by
        rw [hp]
        rfl
      obtain ⟨cell, hcell, -, hfits⟩ := hc.own i caller c hi hplace
      simp only [Fits, hp, Explained] at hfits
      cases hl : caller.leaderResult with
      | some outcome =>
        rw [hl] at hfits
        cases hfits.2.1
        exact ⟨i, caller, hi, hown _ hl, .refl _⟩
      | none =>
        rw [hl] at hfits
        obtain ⟨value, hv, hr⟩ := hfits _ rfl
        obtain ⟨j, leader, outcome, hj, hplace', hout, rfl, hrest⟩ :=
          h.shared i caller c cell value hi (by rw [hp]; rfl) hplace hcell hv
        have houtcome : outcome = .ok response := by
          cases outcome with
          | error e => cases hr
          | ok response' =>
            cases hr
            rfl
        subst houtcome
        exact ⟨j, leader, hj, (answered hrun hj).1 _ hout,
          halike j i leader caller c hj hi hplace' hplace hrest⟩
  · intro i j caller other c hi hj hf hf' hplace hplace'
    refine halike i j caller other c hi hj hplace hplace' ?_
    obtain ⟨cell, hcell, hkey, -⟩ := hc.own i caller c hi hplace
    obtain ⟨cell', hcell', hkey', -⟩ := hc.own j other c hj hplace'
    rw [hcell] at hcell'
    cases hcell'
    exact h.agree i j caller other cell.key hi hj hf hf' hkey hkey'

/-- Calls that all have the same headers and redirect limit never mix. -/
theorem guarded_of_sends {es : List (Event Response)}
    (run : Machine.Run (Machine.Computes step) start es t)
    (h : ∀ a b, .send a ∈ es → .send b ∈ es → SameRest a b) :
    Machine.Run (Machine.Guarded (fun s e => ¬ Mixes s e) (Machine.Computes step)) start es t := by
  induction run with
  | nil => exact .nil _
  | @snoc u v es e hrun hs ih =>
    refine .snoc (ih fun a b ha hb => h a b (List.mem_append_left _ ha)
      (List.mem_append_left _ hb)) ⟨?_, hs⟩
    cases e with
    | send request =>
      rintro ⟨i, caller, key, hi, -, -, -, hno⟩
      exact hno (h _ _ (List.mem_append_left _ (sent hrun hi))
        (List.mem_append_right _ List.mem_cons_self))
    | act i action => exact not_false

theorem slowRequest_of_mem {request : HttpRequest} (h : .send request ∈ shared) :
    request = slowRequest := by
  simpa [shared] using h

theorem scheme_http : ∀ c ∈ "http".toList,
    c.isLower ∨ c.isDigit ∨ c = '+' ∨ c = '-' ∨ c = '.' := by
  intro c hc
  have hlower : "http".toList.all Char.isLower = true := by decide
  exact .inl (List.all_eq_true.mp hlower c hc)

theorem slowRequest_absolute : slowRequest.url.Absolute :=
  ⟨"http".toList, "//localhost/slow".toList, by decide, scheme_http⟩

theorem coalescing_never_mixes_shared : ∃ (t : State String) (caller leader : Caller String)
    (j : ℕ), Machine.Run (Machine.Guarded (fun s e => ¬ Mixes s e) (Machine.Computes step))
      start shared t ∧ t.callers[1]? = some caller ∧
      caller.phase = .finished (some 0) (some (.ok "page")) ∧ t.callers[j]? = some leader ∧
      Alike leader.request caller.request := by
  have hrun : (shared.foldlM step start).map
      (fun t => t.callers[1]?.map fun caller => caller.phase.ending) =
        some (some (some (some 0, some (.ok "page")))) := by decide +kernel
  obtain ⟨t, ht, hcaller⟩ := Option.map_eq_some_iff.mp hrun
  obtain ⟨caller, hcaller, hphase⟩ := Option.map_eq_some_iff.mp hcaller
  have hguarded := guarded_of_sends (Machine.run_of_foldlM ht) (by
    intro a b ha hb
    rw [slowRequest_of_mem ha, slowRequest_of_mem hb]
    exact ⟨rfl, rfl⟩)
  have hp := Phase.eq_finished hphase
  obtain ⟨j, leader, hj, -, halike⟩ := (coalescing_never_mixes hguarded (by
    intro request hmem
    rw [slowRequest_of_mem hmem]
    exact slowRequest_absolute)).1 1 caller _ _ hcaller hp
  exact ⟨t, caller, leader, j, hguarded, hcaller, hp, hj, halike⟩

-- Two calls for one URL that ask for different representations.
def htmlRequest : HttpRequest where
  url := ⟨"http://localhost/item", some "localhost"⟩
  headers := [("accept", "text/html".toUTF8.data.toList)]

def jsonRequest : HttpRequest where
  url := ⟨"http://localhost/item", some "localhost"⟩
  headers := [("accept", "application/json".toUTF8.data.toList)]

def mixed : List (Event String) :=
  [.send htmlRequest, .act 0 .lookUp, .act 0 .acquire, .send jsonRequest, .act 1 .lookUp,
   .act 0 (.answer (.ok "<p>item</p>")), .act 0 .settle, .act 1 .join, .act 1 .leave]

theorem response_mixed : ∃ (t : State String) (caller : Caller String),
    Machine.Run (Machine.Computes step) start mixed t ∧
      (∀ request, .send request ∈ mixed → request.url.Absolute) ∧
      t.callers[1]? = some caller ∧
      caller.phase = .finished (some 0) (some (.ok "<p>item</p>")) ∧
      ∀ (j : ℕ) leader, t.callers[j]? = some leader →
        .act j (.answer (.ok "<p>item</p>")) ∈ mixed → ¬ Alike leader.request caller.request := by
  have hrun : (mixed.foldlM step start).map (fun t =>
      (t.callers[0]?.map fun leader => decide (leader.request.headers = htmlRequest.headers),
        t.callers[1]?.map fun caller =>
          (decide (caller.request.headers = jsonRequest.headers),
            decide (caller.phase.ending = some (some 0, some (.ok "<p>item</p>")))))) =
      some (some true, some (true, true)) := by decide +kernel
  obtain ⟨t, ht, hdata⟩ := Option.map_eq_some_iff.mp hrun
  obtain ⟨hleader, hcaller⟩ := Prod.mk.inj hdata
  obtain ⟨leader, hj, hhtml⟩ := Option.map_eq_some_iff.mp hleader
  obtain ⟨caller, hi, hcaller⟩ := Option.map_eq_some_iff.mp hcaller
  obtain ⟨hjson, hphase⟩ := Prod.mk.inj hcaller
  have habsolute : (⟨"http://localhost/item", some "localhost"⟩ : Url).Absolute :=
    ⟨"http".toList, "//localhost/item".toList, by decide, scheme_http⟩
  refine ⟨t, caller, Machine.run_of_foldlM ht, ?_, hi, ?_, ?_⟩
  · intro request hmem
    have hrequest : request = htmlRequest ∨ request = jsonRequest := by simpa [mixed] using hmem
    rcases hrequest with rfl | rfl
    · exact habsolute
    · exact habsolute
  · exact Phase.eq_finished (decide_eq_true_iff.mp hphase)
  · intro j leader' hj' hmem halike
    have hzero : j = 0 := by simpa [mixed] using hmem
    subst hzero
    rw [hj] at hj'
    cases hj'
    have hheaders := halike.headers
    rw [decide_eq_true_iff.mp hhtml, decide_eq_true_iff.mp hjson] at hheaders
    revert hheaders
    decide

end Coalesce

end Millipede
