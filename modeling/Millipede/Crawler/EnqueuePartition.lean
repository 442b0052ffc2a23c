import Millipede.Crawler.EnqueueFates

/-!
# One fate for each candidate

What the loops skip and add, taken together, are the fates of the candidates.
-/

namespace Millipede.EnqueueLinks

open Enqueue (PatternOverrides Candidate LinkOptions TransformResult Admission)

theorem foldl_reportSkip (policy : CrawlPolicy) (log : Log) (skips : List SkippedUrl) :
    skips.foldl (reportSkip policy) log =
      { skipped := log.skipped ++ skips
        reported := if policy.onSkipped then log.reported ++ skips else log.reported } := by
  induction skips generalizing log with
  | nil => simp
  | cons skip skips ih =>
    rw [List.foldl_cons, ih]
    simp only [reportSkip]
    split_ifs <;> simp

namespace Sending

def screened (call : Sending) (candidates : List UrlCandidate) : List SkippedUrl :=
  candidates.filterMap fun candidate =>
    match screen call.crates call.filters candidate with
    | .error skip => some skip
    | .ok _ => none

def refused (call : Sending) (kept : List Candidate) : List SkippedUrl :=
  kept.zipIdx.filterMap fun p =>
    match call.attempt p.2 p.1 with
    | .ok (.error skip) => some skip
    | _ => none

def duplicates (call : Sending) (requests : List Request) : List SkippedUrl :=
  (call.processed.zip requests).filterMap fun p =>
    if ProcessedRequest.known p.1 then some ⟨p.2.url.serialization, .duplicateUniqueKey⟩ else none

def additions (call : Sending) (requests : List Request) : List ProcessedRequest :=
  (call.processed.zip requests).filterMap fun p =>
    if ProcessedRequest.known p.1 then none else some p.1

variable {call : Sending}

theorem filterCandidates_eq (call : Sending) (log : Log) (candidates : List UrlCandidate) :
    filterCandidates call.crates call.policy call.filters log candidates =
      ((call.screened candidates).foldl (reportSkip call.policy) log,
        call.survivors candidates) := by
  induction candidates generalizing log with
  | nil => rfl
  | cons candidate candidates ih =>
    simp only [filterCandidates, screened, survivors, List.filterMap_cons] at ih ⊢
    cases hscreen : screen call.crates call.filters candidate with
    | error skip => simp only [ih, Except.toOption, List.foldl_cons]
    | ok kept => simp only [ih, Except.toOption]

theorem prepare_eq (call : Sending) {turn : ℕ} {log log' : Log} {kept : List Candidate}
    {requests : List Request}
    (h : prepare call.crates call.policy call.options call.admission turn log kept =
      .ok (log', requests)) :
    log' = ((kept.zipIdx turn).filterMap fun p => match call.attempt p.2 p.1 with
        | .ok (.error skip) => some skip
        | _ => none).foldl (reportSkip call.policy) log ∧
      requests = ((kept.zipIdx turn).filterMap fun p => match call.attempt p.2 p.1 with
        | .ok (.ok request) => some request
        | _ => none) ∧
      ∀ p ∈ kept.zipIdx turn, ∃ outcome, call.attempt p.2 p.1 = .ok outcome := by
  induction kept generalizing turn log requests with
  | nil =>
    cases h
    exact ⟨rfl, rfl, fun p hp => (nomatch hp)⟩
  | cons candidate kept ih =>
    rw [prepare] at h
    simp only [List.zipIdx_cons, List.filterMap_cons, List.forall_mem_cons]
    cases hattempt : call.attempt turn candidate with
    | error error =>
      rw [attempt] at hattempt
      rw [hattempt] at h
      cases h
    | ok outcome =>
      have hattempt' := hattempt
      rw [attempt] at hattempt'
      rw [hattempt'] at h
      cases outcome with
      | error skip =>
        obtain ⟨hlog, hrequests, hall⟩ := ih h
        exact ⟨hlog, hrequests, ⟨_, rfl⟩, hall⟩
      | ok request =>
        cases hrest : prepare call.crates call.policy call.options call.admission (turn + 1) log
            kept with
        | error error => simp [hrest, Except.map] at h
        | ok result =>
          obtain ⟨log'', rest⟩ := result
          simp only [hrest, Except.map, Except.ok.injEq, Prod.mk.injEq] at h
          obtain ⟨rfl, rfl⟩ := h
          obtain ⟨hlog, hrequests, hall⟩ := ih hrest
          exact ⟨hlog, congrArg (request :: ·) hrequests, ⟨_, rfl⟩, hall⟩

theorem settle_eq (policy : CrawlPolicy) (log : Log) (requests : List Request)
    (processed : List ProcessedRequest) (h : processed.length = requests.length) :
    settle policy log (requests.map fun request => request.url.serialization) processed =
      (((processed.zip requests).filterMap fun p => if ProcessedRequest.known p.1 then
          some ⟨p.2.url.serialization, .duplicateUniqueKey⟩ else none).foldl
            (reportSkip policy) log,
        (processed.zip requests).filterMap fun p =>
          if ProcessedRequest.known p.1 then none else some p.1) := by
  induction processed generalizing log requests with
  | nil => rfl
  | cons info processed ih =>
    cases requests with
    | nil => cases h
    | cons request requests =>
      have hlength : processed.length = requests.length := Nat.succ.inj h
      simp only [settle, List.map_cons, List.head?_cons, Option.getD_some, List.tail_cons,
        List.zip_cons_cons, List.filterMap_cons, ih _ requests hlength]
      split_ifs <;> rfl

variable {candidates : List UrlCandidate} {candidate : UrlCandidate} {kept : Candidate}

theorem retained_of_error (candidates : List UrlCandidate) {skip : SkippedUrl}
    (h : screen call.crates call.filters candidate = .error skip) :
    call.retained (candidates ++ [candidate]) = call.retained candidates := by
  simp [retained, survivors, h, Except.toOption]

theorem beyondLimit_eq_none_iff : call.beyondLimit ⟨candidates, candidate⟩ = none ↔
    ∀ limit ∈ call.options.limit, (call.retained candidates).length < limit := by
  simp only [beyondLimit, turn]
  cases call.options.limit with
  | none => simp
  | some limit =>
    by_cases hlimit : limit ≤ (call.retained candidates).length
    · simp [hlimit, not_lt.mpr hlimit]
    · simp [hlimit, not_le.mp hlimit]

theorem repeated_eq_none_iff (h : screen call.crates call.filters candidate = .ok kept) :
    call.repeated ⟨candidates, candidate⟩ = none ↔
      kept.url.serialization ∉ (call.survivors candidates).map fun c => c.url.serialization := by
  obtain ⟨hresolve, -, -⟩ := screen_ok candidates h
  simp only [repeated, ifResolved, hresolve]
  split_ifs with hmem <;> simp [hmem]

theorem retained_concat (candidates : List UrlCandidate)
    (h : screen call.crates call.filters candidate = .ok kept) :
    call.retained (candidates ++ [candidate]) = call.retained candidates ++
      if call.repeated ⟨candidates, candidate⟩ = none ∧
        call.beyondLimit ⟨candidates, candidate⟩ = none then [kept] else [] := by
  have hsurvivors : call.survivors (candidates ++ [candidate]) =
      call.survivors candidates ++ [kept] := by
    simp [survivors, h, Except.toOption]
  simp only [repeated_eq_none_iff h, beyondLimit_eq_none_iff, retained, hsurvivors,
    LinkOptions.retained, List.firsts_concat, Finset.notMem_empty, false_or]
  generalize (call.survivors candidates).firsts (fun c => c.url.serialization) ∅ = distinct
  by_cases hmem : kept.url.serialization ∈
      (call.survivors candidates).map fun c => c.url.serialization
  · simp [hmem]
  · cases hlimit : call.options.limit with
    | none => simp [hmem]
    | some limit =>
      by_cases hroom : distinct.length < limit
      · simp only [hmem, if_false, List.take_append, Option.mem_def, Option.some.injEq,
          forall_eq', List.length_take, not_false_eq_true, true_and]
        have hone : ∃ more, limit - distinct.length = more + 1 :=
          Nat.exists_eq_succ_of_ne_zero (by omega)
        obtain ⟨more, hmore⟩ := hone
        rw [min_eq_right hroom.le, if_pos hroom, List.take_of_length_le hroom.le, hmore]
        simp
      · have hfull : limit ≤ distinct.length := not_lt.mp hroom
        simp [hmem, List.take_append_of_le_length hfull, hfull]

theorem drafts_of_ok {request : Request} (kept : List Candidate) {last : Candidate}
    (h : call.attempt kept.length last = .ok (.ok request)) :
    call.drafts (kept ++ [last]) = call.drafts kept ++ [request] := by
  simp [drafts, List.zipIdx_append, h]

theorem drafts_of_error {skip : SkippedUrl} (kept : List Candidate) {last : Candidate}
    (h : call.attempt kept.length last = .ok (.error skip)) :
    call.drafts (kept ++ [last]) = call.drafts kept := by
  simp [drafts, List.zipIdx_append, h]

theorem refused_of_ok {request : Request} (kept : List Candidate) {last : Candidate}
    (h : call.attempt kept.length last = .ok (.ok request)) :
    call.refused (kept ++ [last]) = call.refused kept := by
  simp [refused, List.zipIdx_append, h]

theorem refused_of_error {skip : SkippedUrl} (kept : List Candidate) {last : Candidate}
    (h : call.attempt kept.length last = .ok (.error skip)) :
    call.refused (kept ++ [last]) = call.refused kept ++ [skip] := by
  simp [refused, List.zipIdx_append, h]

theorem zip_concat {α β : Type} {as : List α} {bs : List β} {a : α} (b : β)
    (h : as[bs.length]? = some a) : as.zip (bs ++ [b]) = as.zip bs ++ [(a, b)] := by
  induction bs generalizing as with
  | nil =>
    cases as with
    | nil => cases h
    | cons first as =>
      cases h
      simp
  | cons second bs ih =>
    cases as with
    | nil => cases h
    | cons first as => exact congrArg ((first, second) :: ·) (ih h)

/-- Each candidate has the fate that its rules give it, and the fates are what the loops did. -/
structure Accounts (call : Sending) (candidates : List UrlCandidate) (fates : List Fate) :
    Prop where
  count : fates.length = candidates.length
  decided : ∀ front candidate back, candidates = front ++ candidate :: back →
    fates[front.length]? = call.fateOf ⟨front, candidate⟩
  skipped : (fates.filterMap Fate.skip?).Perm (call.screened candidates ++
    call.refused (call.retained candidates) ++
    call.duplicates (call.drafts (call.retained candidates)))
  added : fates.filterMap Fate.info? = call.additions (call.drafts (call.retained candidates))

structure Served (call : Sending) (candidates : List UrlCandidate) : Prop where
  attempts : ∀ p ∈ (call.retained candidates).zipIdx, ∃ outcome,
    call.attempt p.2 p.1 = .ok outcome
  replies : (call.drafts (call.retained candidates)).length ≤ call.processed.length

theorem decided_concat {fates : List Fate} {fate : Fate} (h : call.Accounts candidates fates)
    (hfate : call.fateOf ⟨candidates, candidate⟩ = some fate) :
    ∀ front next back, candidates ++ [candidate] = front ++ next :: back →
      (fates ++ [fate])[front.length]? = call.fateOf ⟨front, next⟩ := by
  intro front next back heq
  rcases List.eq_nil_or_concat back with rfl | ⟨rest, last, rfl⟩
  · obtain ⟨rfl, hnext⟩ := List.append_inj' heq rfl
    cases hnext
    rw [← h.count, List.getElem?_concat_length, hfate]
  · have heq' : candidates ++ [candidate] = (front ++ next :: rest) ++ [last] := by
      rw [heq]
      simp
    obtain ⟨rfl, -⟩ := List.append_inj' heq' rfl
    rw [List.getElem?_append_left, h.decided front next rest rfl]
    rw [h.count]
    simp

theorem screened_of_error {skip : SkippedUrl}
    (h : screen call.crates call.filters candidate = .error skip) :
    call.screened (candidates ++ [candidate]) = call.screened candidates ++ [skip] := by
  simp [screened, h]

theorem screened_of_ok (h : screen call.crates call.filters candidate = .ok kept) :
    call.screened (candidates ++ [candidate]) = call.screened candidates := by
  simp [screened, h]

theorem Accounts.concat_same {fates : List Fate} {fate : Fate}
    (h : call.Accounts candidates fates)
    (hfate : call.fateOf ⟨candidates, candidate⟩ = some fate)
    (hretained : call.retained (candidates ++ [candidate]) = call.retained candidates)
    (hscreened : call.screened (candidates ++ [candidate]) =
      call.screened candidates ++ fate.skip?.toList)
    (hinfo : fate.info? = none) :
    call.Accounts (candidates ++ [candidate]) (fates ++ [fate]) where
  count := by simp [h.count]
  decided := decided_concat h hfate
  skipped := by
    rw [hretained, hscreened, List.filterMap_append]
    have hfate' : [fate].filterMap Fate.skip? = fate.skip?.toList := by
      cases hskip : fate.skip? <;> simp [hskip]
    rw [hfate']
    refine (h.skipped.append_right _).trans ?_
    simp only [List.append_assoc]
    refine List.Perm.append_left _ ?_
    rw [← List.append_assoc]
    exact List.perm_append_comm
  added := by
    rw [hretained, List.filterMap_append, h.added]
    simp [hinfo]

theorem Accounts.concat_refused {fates : List Fate} {skip : SkippedUrl}
    (h : call.Accounts candidates fates)
    (hfate : call.fateOf ⟨candidates, candidate⟩ = some (.skipped skip))
    (hscreen : screen call.crates call.filters candidate = .ok kept)
    (hretained : call.retained (candidates ++ [candidate]) = call.retained candidates ++ [kept])
    (hattempt : call.attempt (call.retained candidates).length kept = .ok (.error skip)) :
    call.Accounts (candidates ++ [candidate]) (fates ++ [.skipped skip]) where
  count := by simp [h.count]
  decided := decided_concat h hfate
  skipped := by
    rw [hretained, screened_of_ok hscreen, refused_of_error _ hattempt, drafts_of_error _ hattempt,
      List.filterMap_append]
    refine (h.skipped.append_right _).trans ?_
    simp only [List.append_assoc, List.filterMap_cons, Fate.skip?, List.filterMap_nil]
    exact List.Perm.append_left _ (List.Perm.append_left _ List.perm_append_comm)
  added := by
    rw [hretained, drafts_of_error _ hattempt, List.filterMap_append, h.added]
    simp [Fate.info?]

theorem Accounts.concat_settled {fates : List Fate} {request : Request} {info : ProcessedRequest}
    (h : call.Accounts candidates fates)
    (hscreen : screen call.crates call.filters candidate = .ok kept)
    (hretained : call.retained (candidates ++ [candidate]) = call.retained candidates ++ [kept])
    (hattempt : call.attempt (call.retained candidates).length kept = .ok (.ok request))
    (hinfo : call.processed[(call.drafts (call.retained candidates)).length]? = some info)
    (hfate : call.fateOf ⟨candidates, candidate⟩ = call.decided
      (call.drafts (call.retained candidates)).length (.ok request)) :
    ∃ fate, call.Accounts (candidates ++ [candidate]) (fates ++ [fate]) := by
  have hzip := zip_concat request hinfo
  by_cases hknown : ProcessedRequest.known info
  · have hfate' : call.fateOf ⟨candidates, candidate⟩ =
        some (.skipped ⟨request.url.serialization, .duplicateUniqueKey⟩) := by
      rw [hfate]
      simp [Sending.decided, settled, hinfo, hknown]
    refine ⟨_, by simp [h.count], decided_concat h hfate', ?_, ?_⟩
    · rw [hretained, screened_of_ok hscreen, refused_of_ok _ hattempt, drafts_of_ok _ hattempt,
        List.filterMap_append, duplicates, hzip, List.filterMap_append, ← List.append_assoc]
      refine (h.skipped.append_right _).trans (List.Perm.of_eq ?_)
      simp [duplicates, Fate.skip?, hknown]
    · rw [hretained, drafts_of_ok _ hattempt, List.filterMap_append, h.added, additions, additions,
        hzip, List.filterMap_append]
      simp [Fate.info?, hknown]
  · have hfate' : call.fateOf ⟨candidates, candidate⟩ = some (.added info) := by
      rw [hfate]
      simp [Sending.decided, settled, hinfo, hknown]
    refine ⟨_, by simp [h.count], decided_concat h hfate', ?_, ?_⟩
    · rw [hretained, screened_of_ok hscreen, refused_of_ok _ hattempt, drafts_of_ok _ hattempt,
        List.filterMap_append, duplicates, hzip, List.filterMap_append, ← List.append_assoc]
      refine (h.skipped.append_right _).trans (List.Perm.of_eq ?_)
      simp [duplicates, Fate.skip?, hknown]
    · rw [hretained, drafts_of_ok _ hattempt, List.filterMap_append, h.added, additions, additions,
        hzip, List.filterMap_append]
      simp [Fate.info?, hknown]

theorem retained_nil : call.retained [] = [] := by
  simp only [retained, survivors, List.filterMap_nil, LinkOptions.retained, List.firsts]
  split <;> simp

theorem Served.of_retained_eq (h : call.Served (candidates ++ [candidate]))
    (hretained : call.retained (candidates ++ [candidate]) = call.retained candidates) :
    call.Served candidates :=
  ⟨hretained ▸ h.attempts, hretained ▸ h.replies⟩

theorem repeated_cases (call : Sending) (place : Place) :
    call.repeated place = none ∨ call.repeated place = some .repeated := by
  simp only [repeated, ifResolved]
  split
  · exact .inl rfl
  · split_ifs
    · exact .inr rfl
    · exact .inl rfl

theorem beyondLimit_cases (call : Sending) (place : Place) :
    call.beyondLimit place = none ∨ call.beyondLimit place = some .truncated := by
  simp only [beyondLimit]
  split
  · split_ifs
    · exact .inr rfl
    · exact .inl rfl
  · exact .inl rfl

theorem exists_accounts (h : call.Served candidates) :
    ∃ fates, call.Accounts candidates fates := by
  induction candidates using List.reverseRecOn with
  | nil =>
    refine ⟨[], rfl, fun front c back heq => ?_, ?_, ?_⟩
    · simp at heq
    · simp [retained_nil, screened, refused, duplicates, drafts]
    · simp [retained_nil, additions, drafts]
  | append_singleton candidates candidate ih =>
    cases hscreen : screen call.crates call.filters candidate with
    | error skip =>
      have hretained := retained_of_error candidates hscreen
      obtain ⟨fates, haccounts⟩ := ih (h.of_retained_eq hretained)
      exact ⟨_, haccounts.concat_same (screen_error candidates hscreen) hretained
        (screened_of_error hscreen) rfl⟩
    | ok kept =>
      have hretained := retained_concat candidates hscreen
      have hscreened : call.screened (candidates ++ [candidate]) = call.screened candidates ++ [] :=
        (screened_of_ok hscreen).trans (List.append_nil _).symm
      obtain ⟨-, -, hfate⟩ := screen_ok candidates hscreen
      rcases repeated_cases call ⟨candidates, candidate⟩ with hrepeated | hrepeated
      · rcases beyondLimit_cases call ⟨candidates, candidate⟩ with hlimit | hlimit
        · rw [if_pos ⟨hrepeated, hlimit⟩] at hretained
          obtain ⟨hattempts, hreplies⟩ := h
          rw [hretained, List.zipIdx_append, List.forall_mem_append] at hattempts
          obtain ⟨outcome, hattempt⟩ := hattempts.2 (kept, (call.retained candidates).length)
            (by simp)
          have hdecided := attempt_fate hscreen hrepeated hlimit hattempt
          cases outcome with
          | error skip =>
            rw [hretained, drafts_of_error _ hattempt] at hreplies
            obtain ⟨fates, haccounts⟩ := ih ⟨hattempts.1, hreplies⟩
            exact ⟨_, haccounts.concat_refused hdecided hscreen hretained hattempt⟩
          | ok request =>
            rw [hretained, drafts_of_ok _ hattempt, List.length_append, List.length_singleton]
              at hreplies
            obtain ⟨fates, haccounts⟩ := ih ⟨hattempts.1, by omega⟩
            obtain ⟨fate, hconcat⟩ := haccounts.concat_settled hscreen hretained hattempt
              (List.getElem?_eq_getElem (by omega)) hdecided
            exact ⟨_, hconcat⟩
        · have hother : call.fateOf ⟨candidates, candidate⟩ = some .truncated := by
            rw [hfate]
            simp [hrepeated, hlimit]
          rw [if_neg (by simp [hlimit]), List.append_nil] at hretained
          obtain ⟨fates, haccounts⟩ := ih (h.of_retained_eq hretained)
          exact ⟨_, haccounts.concat_same hother hretained hscreened rfl⟩
      · have hother : call.fateOf ⟨candidates, candidate⟩ = some .repeated := by
          rw [hfate]
          simp [hrepeated]
        rw [if_neg (by simp [hrepeated]), List.append_nil] at hretained
        obtain ⟨fates, haccounts⟩ := ih (h.of_retained_eq hretained)
        exact ⟨_, haccounts.concat_same hother hretained hscreened rfl⟩

end Sending

structure Sends (crates : Crates) (linker : EnqueueLinker) (options : EnqueueLinksOptions)
    (answers : Answers) (candidates : List UrlCandidate) (call : Sending) : Prop where
  crates_eq : call.crates = crates
  policy_eq : call.policy = linker.crawlPolicy.getD .default
  options_eq : call.options = options
  admission_eq : call.admission = answers.admission
  candidates_eq : allCandidates linker options = .ok candidates
  strategy : call.filters.strategy = options.strategy.getD call.policy.strategy
  parentUrl : call.filters.parentUrl = linker.parentUrl
  baseUrl : call.filters.baseUrl = options.baseUrl
  includes : compileIncludePatterns crates options.globs = .ok call.filters.includes
  regex : call.filters.regex = options.regex
  excludes : compilePatterns crates options.exclude = .ok call.filters.excludes
  replied : answers.addBatch (call.drafts (call.retained candidates)) options.forefront =
    .ok call.processed

theorem length_eq_fates (fates : List Fate) :
    (fates.filterMap Fate.info?).length + (fates.filterMap Fate.skip?).length +
      fates.countP Fate.dropped = fates.length := by
  induction fates with
  | nil => rfl
  | cons fate fates ih =>
    cases fate with
    | skipped skip =>
      simp only [List.filterMap_cons, Fate.info?, Fate.skip?, List.length_cons, Fate.dropped,
        List.countP_cons, Bool.false_eq_true, if_false]
      omega
    | repeated =>
      simp only [List.filterMap_cons, Fate.info?, Fate.skip?, List.length_cons, Fate.dropped,
        List.countP_cons, if_true]
      omega
    | truncated =>
      simp only [List.filterMap_cons, Fate.info?, Fate.skip?, List.length_cons, Fate.dropped,
        List.countP_cons, if_true]
      omega
    | added info =>
      simp only [List.filterMap_cons, Fate.info?, Fate.skip?, List.length_cons, Fate.dropped,
        List.countP_cons, Bool.false_eq_true, if_false]
      omega

theorem send_eq_ok {crates : Crates} {linker : EnqueueLinker} {options : EnqueueLinksOptions}
    {answers : Answers} {result : EnqueueResult} {reported : List SkippedUrl}
    (hqueue : ∀ requests processed, answers.addBatch requests options.forefront = .ok processed →
      processed.length = requests.length)
    (h : send crates linker options answers = .ok (result, reported)) :
    ∃ candidates call, Sends crates linker options answers candidates call ∧
      call.Served candidates ∧
      result.skipped = call.screened candidates ++ call.refused (call.retained candidates) ++
        call.duplicates (call.drafts (call.retained candidates)) ∧
      result.added = call.additions (call.drafts (call.retained candidates)) ∧
      reported = if call.policy.onSkipped then result.skipped else [] := by
  simp only [send] at h
  cases hcandidates : allCandidates linker options with
  | error error => simp [hcandidates] at h
  | ok candidates =>
    simp only [hcandidates] at h
    cases hincludes : compileIncludePatterns crates options.globs with
    | error error => simp [hincludes] at h
    | ok includes =>
      cases hexcludes : compilePatterns crates options.exclude with
      | error error => simp [hincludes, hexcludes] at h
      | ok excludes =>
        simp only [hincludes, hexcludes] at h
        let call (processed : List ProcessedRequest) : Sending :=
          { crates, policy := linker.crawlPolicy.getD .default
            filters :=
              { strategy := options.strategy.getD (linker.crawlPolicy.getD .default).strategy
                parentUrl := linker.parentUrl, baseUrl := options.baseUrl, includes
                regex := options.regex, excludes }
            options, admission := answers.admission, processed }
        have hfilter := Sending.filterCandidates_eq (call []) {} candidates
        simp only [call] at hfilter
        simp only [hfilter] at h
        split at h
        · cases h
        · rename_i log requests hprepare
          obtain ⟨hlog, hrequests, hattempts⟩ := Sending.prepare_eq (call []) hprepare
          split at h
          · cases h
          · rename_i processed hprocessed
            have hlength := hqueue _ _ hprocessed
            rw [Sending.settle_eq _ _ _ _ hlength, hlog, ← List.foldl_append, ← List.foldl_append,
              foldl_reportSkip] at h
            have hdrafts : requests =
                (call processed).drafts ((call processed).retained candidates) := hrequests
            cases h
            refine ⟨candidates, call processed,
              ⟨rfl, rfl, rfl, rfl, hcandidates, rfl, rfl, rfl, hincludes, rfl, hexcludes, ?_⟩,
              ⟨hattempts, ?_⟩, ?_, ?_, ?_⟩
            · rw [← hdrafts]
              exact hprocessed
            · rw [← hdrafts]
              exact hlength.ge
            · rw [← hdrafts, List.append_assoc]
              rfl
            · rw [← hdrafts]
              rfl
            · rfl

/-- Whenever `send` returns a result, each candidate has the fate that the first rule that
applies gives it, and the result is what became of the candidates: the handler is told of each
that is skipped, and the order of what is added is theirs. -/
theorem each_candidate_one_fate (crates : Crates) (linker : EnqueueLinker)
    (options : EnqueueLinksOptions) (answers : Answers)
    (hqueue : ∀ requests processed, answers.addBatch requests options.forefront = .ok processed →
      processed.length = requests.length) {result : EnqueueResult} {reported : List SkippedUrl}
    (h : send crates linker options answers = .ok (result, reported)) :
    ∃ (candidates : List UrlCandidate) (call : Sending) (fates : List Fate),
      Sends crates linker options answers candidates call ∧ fates.length = candidates.length ∧
      (∀ front candidate back, candidates = front ++ candidate :: back →
        fates[front.length]? = call.fateOf ⟨front, candidate⟩) ∧
      result.added = fates.filterMap Fate.info? ∧
      result.skipped.Perm (fates.filterMap Fate.skip?) ∧
      reported = (if call.policy.onSkipped then result.skipped else []) ∧
      result.added.length + result.skipped.length + fates.countP Fate.dropped =
        candidates.length := by
  obtain ⟨candidates, call, hsends, hserved, hskipped, hadded, hreported⟩ := send_eq_ok hqueue h
  obtain ⟨fates, haccounts⟩ := Sending.exists_accounts hserved
  have hadded' : result.added = fates.filterMap Fate.info? := hadded.trans haccounts.added.symm
  have hskipped' : result.skipped.Perm (fates.filterMap Fate.skip?) :=
    hskipped ▸ haccounts.skipped.symm
  refine ⟨candidates, call, fates, hsends, haccounts.count, haccounts.decided, hadded', hskipped',
    hreported, ?_⟩
  rw [hadded', hskipped'.length_eq, length_eq_fates, haccounts.count]

def plainCrates : Crates where
  formats :=
    { parseUrl := fun s =>
        if s = "http://localhost/two" then .ok (Enqueue.linkUrl "/two") else .error "invalid"
      method := fun _ => .error "unused"
      headerName := fun _ => .error "unused"
      headerValue := fun _ => .error "unused"
      toStr := fun _ => .error "unused"
      formatTime := fun _ => .error "unused"
      parseTime := fun _ => .error "unused" }
  toVec _ := []
  join _ raw := some (Enqueue.linkUrl raw)
  strategyAllows _ parent url := parent.hostStr = url.hostStr
  compileGlob _ := .error (.msg "invalid")

def rootLinker : EnqueueLinker where
  crawlPolicy := none
  parentUrl := Enqueue.linkUrl "/root"
  extractor := none

def fourLinks : EnqueueLinksOptions where
  candidates := [.raw "/one" none, .raw "::bad::" none, .raw "/one" none,
    .raw "http://localhost/two" none]

def twoKnown : Answers where
  admission _ := .ok .untracked
  addBatch requests _ := .ok (requests.map fun request =>
    { requestId := request.id, uniqueKey := request.uniqueKey
      wasAlreadyPresent := request.url = Enqueue.linkUrl "/two", wasAlreadyHandled := false })

theorem each_candidate_one_fate_fourLinks : ∃ result reported,
    send plainCrates rootLinker fourLinks twoKnown = .ok (result, reported) ∧
      result.skipped =
        [⟨"::bad::", .invalidUrl⟩, ⟨"http://localhost/two", .duplicateUniqueKey⟩] ∧
      ∃ fates : List Fate, fates.length = 4 ∧ result.added = fates.filterMap Fate.info? ∧
        result.skipped.Perm (fates.filterMap Fate.skip?) := by
  have hqueue : ∀ requests processed, twoKnown.addBatch requests fourLinks.forefront =
      .ok processed → processed.length = requests.length := by
    rintro requests _ ⟨⟩
    exact List.length_map _
  refine ⟨_, _, rfl, rfl, ?_⟩
  obtain ⟨candidates, call, fates, hsends, hlength, -, hadded, hskipped, -⟩ :=
    each_candidate_one_fate plainCrates rootLinker fourLinks twoKnown hqueue rfl
  have hcandidates : candidates = fourLinks.candidates := (Except.ok.inj hsends.candidates_eq).symm
  exact ⟨fates, by rw [hlength, hcandidates]; rfl, hadded, hskipped⟩

end Millipede.EnqueueLinks
