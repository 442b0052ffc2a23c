import Mathlib.Data.Set.Function
import Millipede.Crawler.Enqueue
import Millipede.Library.Firsts
import Millipede.Storage.Layout

/-!
# Identifiers of enqueued links

The loop of `EnqueueLinks::send` that makes requests of the candidates that were not
filtered out. What the admission answers and what the transform makes of a request are
arguments, given for each turn of the loop. A transform that leaves the unique key alone has
its key and identifier computed anew from the fields; one that sets a key of its own keeps
the identifier of the key before.
-/

namespace Millipede.Enqueue

structure PatternOverrides where
  label : Option String := none
  userData : Option (List (String × Json)) := none
  method : Option String := none
  headers : Option (List (String × List UInt8)) := none

structure Candidate where
  url : Url
  overrides : PatternOverrides := {}

structure LinkOptions where
  label : Option String := none
  userData : Option (List (String × Json)) := none
  limit : Option ℕ := none
  parentDepth : ℕ := 0

/-- `parent_depth.saturating_add(1)` on a `u32`. -/
def LinkOptions.childDepth (options : LinkOptions) : ℕ := min (options.parentDepth + 1) (2 ^ 32 - 1)

/-- The builder with what the candidate and the options set; it cannot fail here. -/
def LinkOptions.build (options : LinkOptions) (candidate : Candidate) : Request :=
  let method := candidate.overrides.method.getD "GET"
  let uniqueKey := Request.computeUniqueKey candidate.url method none
  { Request.get candidate.url uniqueKey with
    method
    headers := candidate.overrides.headers.getD []
    userData := (candidate.overrides.userData.or options.userData).getD []
    label := candidate.overrides.label.or options.label
    crawlDepth := options.childDepth }

def LinkOptions.retained (options : LinkOptions) (candidates : List Candidate) : List Candidate :=
  let distinct := candidates.firsts (fun candidate => candidate.url.serialization) ∅
  match options.limit with
  | some limit => distinct.take limit
  | none => distinct

section Loop
variable (toVec : Json → List UInt8)

def rekey (request edited : Request) : Request :=
  if edited.uniqueKey = request.uniqueKey then
    let uniqueKey := Request.computeUniqueKey edited.url edited.method
      (edited.body.map (RequestBody.canonicalBytes toVec))
    { edited with uniqueKey, id := RequestId.fromUniqueKey uniqueKey }
  else edited

variable (policy : CrawlPolicy) (options : LinkOptions) (grants : ℕ → Option Admission)
  (transform : ℕ → Request → TransformResult × Request)

/-- Without a limit on requests nothing is reserved. -/
def admission (turn : ℕ) : Option Admission :=
  if policy.maxRequestsPerCrawl.isSome then grants turn else some .untracked

/-- The requests that are transformed and not rejected, before and after the transform; `none`
if the admission fails and with it the call. -/
def edits : ℕ → List Candidate → Option (List (Request × Request))
  | _, [] => some []
  | turn, candidate :: candidates =>
    let request := options.build candidate
    if policy.maxCrawlDepth.any fun limit => decide (limit < options.childDepth) then
      edits (turn + 1) candidates
    else
      match admission policy grants turn with
      | none => none
      | some .rejected => edits (turn + 1) candidates
      | some _ =>
        match transform turn request with
        | (.skip _, _) => edits (turn + 1) candidates
        | (.enqueue, edited) => (edits (turn + 1) candidates).map ((request, edited) :: ·)

/-- The requests that `send` hands to the queue. -/
def handedOver (candidates : List Candidate) : Option (List Request) :=
  (edits policy options grants transform 0 (options.retained candidates)).map
    (List.map fun (request, edited) => rekey toVec request edited)

end Loop

theorem build_identified (options : LinkOptions) (candidate : Candidate) :
    (options.build candidate).Identified := rfl

variable {toVec : Json → List UInt8} {policy : CrawlPolicy} {options : LinkOptions}
  {grants : ℕ → Option Admission} {transform : ℕ → Request → TransformResult × Request}

theorem mem_edits {turn : ℕ} {candidates : List Candidate} {pairs : List (Request × Request)}
    (h : edits policy options grants transform turn candidates = some pairs)
    {p : Request × Request} (hp : p ∈ pairs) :
    (∃ candidate, p.1 = options.build candidate) ∧ ∃ turn, p.2 = (transform turn p.1).2 := by
  induction candidates generalizing turn pairs with
  | nil =>
    cases h
    cases hp
  | cons candidate candidates ih =>
    simp only [edits] at h
    split_ifs at h with hdeep
    · exact ih h hp
    · split at h
      · cases h
      · exact ih h hp
      · split at h
        · exact ih h hp
        · rename_i edited htransform
          obtain ⟨rest, hrest, rfl⟩ := Option.map_eq_some_iff.mp h
          rcases List.mem_cons.mp hp with rfl | hp
          · exact ⟨⟨candidate, rfl⟩, turn, by rw [htransform]⟩
          · exact ih hrest hp

/-- The identifier of a request that leaves the loop. -/
theorem rekey_identified_iff {request edited : Request} (hbuilt : request.Identified)
    (hid : edited.id = request.id) :
    (rekey toVec request edited).Identified ↔
      edited.uniqueKey = request.uniqueKey ∨
        RequestId.fromUniqueKey edited.uniqueKey = RequestId.fromUniqueKey request.uniqueKey := by
  unfold rekey
  split_ifs with hkey
  · simp [Request.Identified, hkey]
  · simp only [Request.Identified, hkey, false_or] at hbuilt ⊢
    rw [hid, hbuilt]
    exact eq_comm

def keysInvolved (toVec : Json → List UInt8) (pairs : List (Request × Request)) : Set String :=
  { key | ∃ p ∈ pairs, key = p.1.uniqueKey ∨ key = (rekey toVec p.1 p.2).uniqueKey }

theorem rekey_key_of_ne {request edited : Request} (h : edited.uniqueKey ≠ request.uniqueKey) :
    (rekey toVec request edited).uniqueKey = edited.uniqueKey := by
  rw [rekey, if_neg h]

/-- Every request handed to the queue has the identifier of its key, and different keys have
different identifiers and files, if and only if no transform sets a unique key. -/
theorem identifiers_match_keys {candidates : List Candidate} {pairs : List (Request × Request)}
    (keepsId : ∀ turn request, (transform turn request).2.id = request.id)
    (hedits : edits policy options grants transform 0 (options.retained candidates) = some pairs)
    (inj : Set.InjOn RequestId.fromUniqueKey (keysInvolved toVec pairs)) :
    (∃ requests, handedOver toVec policy options grants transform candidates = some requests ∧
      (∀ r ∈ requests, r.Identified) ∧
      ∀ r ∈ requests, ∀ r' ∈ requests, r.uniqueKey ≠ r'.uniqueKey →
        r.id ≠ r'.id ∧ Layout.requestFileName r.id ≠ Layout.requestFileName r'.id) ↔
    ∀ p ∈ pairs, p.2.uniqueKey = p.1.uniqueKey := by
  have hidentified : ∀ p ∈ pairs,
      ((rekey toVec p.1 p.2).Identified ↔ p.2.uniqueKey = p.1.uniqueKey) := by
    intro p hp
    obtain ⟨⟨candidate, hbuilt⟩, turn, hedited⟩ := mem_edits hedits hp
    rw [rekey_identified_iff (hbuilt ▸ build_identified options candidate)
      (hedited ▸ keepsId turn p.1)]
    refine ⟨?_, .inl⟩
    rintro (hkey | hhash)
    · exact hkey
    · by_contra hne
      refine hne (inj ⟨p, hp, .inr (rekey_key_of_ne hne).symm⟩ ⟨p, hp, .inl rfl⟩ hhash)
  have hhanded : handedOver toVec policy options grants transform candidates =
      some (pairs.map fun (request, edited) => rekey toVec request edited) := by
    rw [handedOver, hedits]
    rfl
  constructor
  · rintro ⟨requests, hrequests, hall, -⟩ p hp
    rw [hhanded] at hrequests
    cases hrequests
    exact (hidentified p hp).mp (hall _ (List.mem_map.mpr ⟨p, hp, rfl⟩))
  · intro hkept
    have hall : ∀ r ∈ pairs.map (fun (request, edited) => rekey toVec request edited),
        r.Identified ∧ r.uniqueKey ∈ keysInvolved toVec pairs := by
      intro r hr
      obtain ⟨p, hp, rfl⟩ := List.mem_map.mp hr
      exact ⟨(hidentified p hp).mpr (hkept p hp), p, hp, .inr rfl⟩
    refine ⟨_, hhanded, fun r hr => (hall r hr).1, ?_⟩
    intro r hr r' hr' hne
    obtain ⟨hid, hmem⟩ := hall r hr
    obtain ⟨hid', hmem'⟩ := hall r' hr'
    have hids : r.id ≠ r'.id := by
      intro heq
      rw [hid, hid'] at heq
      exact hne (inj hmem hmem' heq)
    exact ⟨hids, fun hfile => hids (Layout.requestFileName_injective hfile)⟩

-- Two links; the transform sends the first to another page.
def linkUrl (path : String) : Url := ⟨"http://localhost" ++ path, some "localhost"⟩

def links : List Candidate := [{ url := linkUrl "/one" }, { url := linkUrl "/two" }]

def redirectFirst (turn : ℕ) (request : Request) : TransformResult × Request :=
  (.enqueue, if turn = 0 then { request with url := linkUrl "/three" } else request)

def noLimits : CrawlPolicy := { maxCrawlDepth := none, maxRequestsPerCrawl := none }

def redirected : List (Request × Request) :=
  let first := LinkOptions.build {} { url := linkUrl "/one" }
  let second := LinkOptions.build {} { url := linkUrl "/two" }
  [(first, { first with url := linkUrl "/three" }), (second, second)]

theorem identifiers_match_keys_redirected :
    edits noLimits {} (fun _ => none) redirectFirst 0 (LinkOptions.retained {} links) =
      some redirected ∧
    ∃ requests, handedOver (fun _ => []) noLimits {} (fun _ => none) redirectFirst links =
      some requests ∧ (∀ r ∈ requests, r.Identified) := by
  have hedits : edits noLimits {} (fun _ => none) redirectFirst 0 (LinkOptions.retained {} links) =
      some redirected := by rfl
  have hkeys : ∀ key ∈ keysInvolved (fun _ => []) redirected,
      key ∈ ["http://localhost/one", "http://localhost/two", "http://localhost/three"] := by
    rintro key ⟨p, hp, hkey⟩
    simp only [redirected, List.mem_cons, List.not_mem_nil, or_false] at hp
    rcases hp with rfl | rfl <;> rcases hkey with rfl | rfl <;> decide +kernel
  have inj : Set.InjOn RequestId.fromUniqueKey (keysInvolved (fun _ => []) redirected) := by
    have hall : ∀ a ∈ ["http://localhost/one", "http://localhost/two", "http://localhost/three"],
        ∀ b ∈ ["http://localhost/one", "http://localhost/two", "http://localhost/three"],
        RequestId.fromUniqueKey a = RequestId.fromUniqueKey b → a = b := by decide +kernel
    intro a ha b hb
    exact hall a (hkeys a ha) b (hkeys b hb)
  refine ⟨hedits, ?_⟩
  obtain ⟨requests, hhanded, hall, -⟩ := (identifiers_match_keys (by
    intro turn request
    simp only [redirectFirst]
    split_ifs <;> rfl) hedits inj).mpr (by
    intro p hp
    simp only [redirected, List.mem_cons, List.not_mem_nil, or_false] at hp
    rcases hp with rfl | rfl <;> rfl)
  exact ⟨requests, hhanded, hall⟩

def nameFirst (turn : ℕ) (request : Request) : TransformResult × Request :=
  (.enqueue, if turn = 0 then { request with uniqueKey := "explicit" }
    else { request with url := linkUrl "/one" })

theorem identifier_of_another_key :
    (∀ turn request, (nameFirst turn request).2.id = request.id) ∧
    ∃ r r' : Request,
      handedOver (fun _ => []) noLimits {} (fun _ => none) nameFirst links = some [r, r'] ∧
      r.id ≠ RequestId.fromUniqueKey r.uniqueKey ∧
      r.uniqueKey ≠ r'.uniqueKey ∧ r.id = r'.id := by
  constructor
  · intro turn request
    simp only [nameFirst]
    split_ifs <;> rfl
  · exact ⟨_, _, rfl, by decide +kernel, by decide +kernel, by decide +kernel⟩

end Millipede.Enqueue
