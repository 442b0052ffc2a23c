import Millipede.Http.Coalesce

/-!
# Coalescing is safe

A cell without a value can always be found under its key, so nobody makes a second one;
it leaves the map only once it has its value, and its leader takes it out, at the latest,
before it returns.
-/

namespace Millipede.Coalesce

variable {Response : Type}

def Phase.cell : Phase Response → Option ℕ
  | .waiting c | .sending c | .settling c | .leaving c _ | .removing c _ => some c
  | .finished c _ => c
  | .forwarding | .lookingUp => none

def Phase.isFinished : Phase Response → Bool
  | .finished _ _ => true
  | _ => false

/-- The result of a caller that is about to return or has returned is its own, and then it is
what the cell holds, or it is taken from the cell. -/
def Explained (caller : Caller Response) (cell : Cell Response)
    (result : Option (Outcome Response)) : Prop :=
  match caller.leaderResult with
  | some outcome =>
    caller.active = true ∧ result = some outcome ∧ cell.value = some (followerResult outcome)
  | none => ∀ r, result = some r → ∃ value, cell.value = some value ∧ r = joined value

def Fits (i : ℕ) (caller : Caller Response) (cell : Cell Response) : Prop :=
  match caller.phase with
  | .forwarding | .lookingUp => True
  | .waiting _ => caller.leaderResult = none
  | .sending _ => cell.holder = some i ∧ cell.value = none ∧ caller.leaderResult = none ∧
      caller.active = true
  | .settling _ => cell.holder = some i ∧ cell.value = none ∧ caller.active = true
  | .leaving _ result | .finished _ result => Explained caller cell result
  | .removing _ result => Explained caller cell result ∧ cell.value.isSome

structure Coalesced (s : State Response) : Prop where
  keyed : ∀ key c, s.inFlight.lookup key = some c → ∃ cell, s.cells[c]? = some cell ∧ cell.key = key
  unsettled : ∀ (c : ℕ) cell, s.cells[c]? = some cell → cell.value = none →
    s.inFlight.lookup cell.key = some c
  settled : ∀ (c : ℕ) cell value, s.cells[c]? = some cell → cell.value = some value →
    ∃ (j : ℕ) (leader : Caller Response) (outcome : Outcome Response),
      s.callers[j]? = some leader ∧ leader.phase.cell = some c ∧
      leader.leaderResult = some outcome ∧ value = followerResult outcome
  own : ∀ (i : ℕ) caller c, s.callers[i]? = some caller → caller.phase.cell = some c →
    ∃ cell, s.cells[c]? = some cell ∧ coalesceKey caller.request = some cell.key ∧
      Fits i caller cell
  fresh : ∀ (i : ℕ) caller, s.callers[i]? = some caller → caller.phase.cell = none →
    caller.leaderResult = none
  retired : ∀ (i : ℕ) caller c result, s.callers[i]? = some caller →
    caller.phase = .finished (some c) result → caller.leaderResult.isSome = true →
    ∀ key, s.inFlight.lookup key ≠ some c

theorem coalesced_start : Coalesced (start : State Response) where
  keyed := fun _ _ h => nomatch h
  unsettled := fun _ _ h => nomatch h
  settled := fun _ _ _ h => nomatch h
  own := fun _ _ _ h => nomatch h
  fresh := fun _ _ h => nomatch h
  retired := fun _ _ _ _ h => nomatch h

variable {s t : State Response} {i : ℕ} {caller caller' : Caller Response} {c : ℕ}

theorem Explained.mono {cell cell' : Cell Response} {result : Option (Outcome Response)}
    (hvalue : ∀ value, cell.value = some value → cell'.value = some value)
    (h : Explained caller cell result) : Explained caller cell' result := by
  unfold Explained at h ⊢
  split at h
  · exact ⟨h.1, h.2.1, hvalue _ h.2.2⟩
  · intro r hr
    obtain ⟨value, hv, heq⟩ := h r hr
    exact ⟨value, hvalue value hv, heq⟩

theorem Fits.mono {j : ℕ} {cell cell' : Cell Response} (hholder : cell.holder ≠ some j)
    (hvalue : ∀ value, cell.value = some value → cell'.value = some value)
    (h : Fits j caller cell) : Fits j caller cell' := by
  unfold Fits at h ⊢
  split at h
  · exact trivial
  · exact trivial
  · exact h
  · exact absurd h.1 hholder
  · exact absurd h.1 hholder
  · exact h.mono hvalue
  · exact h.mono hvalue
  · refine ⟨h.1.mono hvalue, ?_⟩
    obtain ⟨value, hv⟩ := Option.isSome_iff_exists.mp h.2
    rw [hvalue value hv]
    rfl

theorem Coalesced.move {cells : List (Cell Response)} (h : Coalesced s)
    (hi : s.callers[i]? = some caller)
    (hleader : caller.leaderResult.isSome = true → caller'.leaderResult = caller.leaderResult ∧
      caller'.phase.cell = caller.phase.cell)
    (hforth : ∀ (d : ℕ) cell, s.cells[d]? = some cell → ∃ cell', cells[d]? = some cell' ∧
      cell'.key = cell.key ∧ ∀ j other, j ≠ i → Fits j other cell → Fits j other cell')
    (hunsettled : ∀ (d : ℕ) cell', cells[d]? = some cell' → cell'.value = none →
      s.inFlight.lookup cell'.key = some d)
    (hsettled : ∀ (d : ℕ) cell' value, cells[d]? = some cell' → cell'.value = some value →
      (∃ cell, s.cells[d]? = some cell ∧ cell.value = some value) ∨
      caller'.phase.cell = some d ∧
        ∃ outcome, caller'.leaderResult = some outcome ∧ value = followerResult outcome)
    (hown : ∀ c, caller'.phase.cell = some c → ∃ cell, cells[c]? = some cell ∧
      coalesceKey caller'.request = some cell.key ∧ Fits i caller' cell)
    (hfresh : caller'.phase.cell = none → caller'.leaderResult = none)
    (hretired : ∀ c result, caller'.phase = .finished (some c) result →
      caller'.leaderResult.isSome = true → ∀ key, s.inFlight.lookup key ≠ some c) :
    Coalesced (s.after i ⟨s.inFlight, cells, caller'⟩) := by
  have hget := Tasks.getElem?_set hi caller'
  constructor
  · intro key d hd
    obtain ⟨cell, hcell, hkey⟩ := h.keyed key d hd
    obtain ⟨cell', hcell', hsame, -⟩ := hforth d cell hcell
    exact ⟨cell', hcell', hsame.trans hkey⟩
  · exact hunsettled
  · intro d cell' value hd hv
    obtain ⟨cell, hcell, hv'⟩ | ⟨hplace, outcome, hout, heq⟩ := hsettled d cell' value hd hv
    · obtain ⟨j, leader, outcome, hj, hplace, hout, heq⟩ := h.settled d cell value hcell hv'
      by_cases hji : j = i
      · subst hji
        rw [hi] at hj
        cases hj
        obtain ⟨hsame, hplace'⟩ := hleader (by rw [hout]; rfl)
        refine ⟨j, caller', outcome, ?_, hplace'.trans hplace, hsame.trans hout, heq⟩
        simp only [State.after, hget, if_true]
      · refine ⟨j, leader, outcome, ?_, hplace, hout, heq⟩
        simp only [State.after, hget, if_neg hji, hj]
    · refine ⟨i, caller', outcome, ?_, hplace, hout, heq⟩
      simp only [State.after, hget, if_true]
  · intro j other d hj hd
    simp only [State.after, hget] at hj
    split_ifs at hj with hji
    · cases hj
      subst hji
      exact hown d hd
    · obtain ⟨cell, hcell, hkey, hfits⟩ := h.own j other d hj hd
      obtain ⟨cell', hcell', hsame, hmono⟩ := hforth d cell hcell
      exact ⟨cell', hcell', hkey.trans (by rw [hsame]), hmono j other hji hfits⟩
  · intro j other hj hd
    simp only [State.after, hget] at hj
    split_ifs at hj with hji
    · cases hj
      exact hfresh hd
    · exact h.fresh j other hj hd
  · intro j other d result hj hp hl
    simp only [State.after, hget] at hj
    split_ifs at hj with hji
    · cases hj
      exact hretired d result hp hl
    · exact h.retired j other d result hj hp hl

theorem Coalesced.quiet (h : Coalesced s) (hi : s.callers[i]? = some caller)
    (hleader : caller.leaderResult.isSome = true → caller'.leaderResult = caller.leaderResult ∧
      caller'.phase.cell = caller.phase.cell)
    (hown : ∀ c, caller'.phase.cell = some c → ∃ cell, s.cells[c]? = some cell ∧
      coalesceKey caller'.request = some cell.key ∧ Fits i caller' cell)
    (hfresh : caller'.phase.cell = none → caller'.leaderResult = none)
    (hretired : ∀ c result, caller'.phase = .finished (some c) result →
      caller'.leaderResult.isSome = true → ∀ key, s.inFlight.lookup key ≠ some c) :
    Coalesced (s.after i (s.quiet caller')) := by
  refine h.move hi hleader ?_ h.unsettled ?_ hown hfresh hretired
  · intro d cell hcell
    exact ⟨cell, hcell, rfl, fun _ _ _ hfits => hfits⟩
  · intro d cell value hcell hv
    exact .inl ⟨cell, hcell, hv⟩

theorem Coalesced.change {cell cell' : Cell Response} (h : Coalesced s)
    (hi : s.callers[i]? = some caller) (hc : s.cells[c]? = some cell)
    (hplace : caller.phase.cell = some c) (hplace' : caller'.phase.cell = some c)
    (hrunning : caller'.phase.isFinished = false) (hrequest : caller'.request = caller.request)
    (hsame : caller'.leaderResult = caller.leaderResult) (hkey : cell'.key = cell.key)
    (hnone : cell.value = none) (hholder : ∀ j, j ≠ i → cell.holder ≠ some j)
    (hvalue : ∀ value, cell'.value = some value →
      ∃ outcome, caller'.leaderResult = some outcome ∧ value = followerResult outcome)
    (hfits : Fits i caller' cell') :
    Coalesced (s.after i ⟨s.inFlight, s.cells.set c cell', caller'⟩) := by
  have hcells := Tasks.getElem?_set hc cell'
  refine h.move hi (fun _ => ⟨hsame, hplace'.trans hplace.symm⟩) ?_ ?_ ?_ ?_ ?_ ?_
  · intro d old hold
    rw [hcells]
    split_ifs with hdc
    · subst hdc
      rw [hc] at hold
      cases hold
      refine ⟨cell', rfl, hkey, ?_⟩
      intro j other hji hother
      refine hother.mono (hholder j hji) ?_
      intro value hv
      rw [hnone] at hv
      cases hv
    · exact ⟨old, hold, rfl, fun _ _ _ hother => hother⟩
  · intro d new hnew hv
    rw [hcells] at hnew
    split_ifs at hnew with hdc
    · cases hnew
      rw [hkey, hdc]
      exact h.unsettled c cell hc hnone
    · exact h.unsettled d new hnew hv
  · intro d new value hnew hv
    rw [hcells] at hnew
    split_ifs at hnew with hdc
    · cases hnew
      exact .inr ⟨hdc ▸ hplace', hvalue value hv⟩
    · exact .inl ⟨new, hnew, hv⟩
  · intro d hd
    rw [hplace'] at hd
    cases hd
    obtain ⟨old, hold, hcall, -⟩ := h.own i caller c hi hplace
    rw [hc] at hold
    cases hold
    refine ⟨cell', ?_, ?_, hfits⟩
    · rw [hcells, if_pos rfl]
    · rw [hrequest, hkey]
      exact hcall
  · intro hd
    rw [hplace'] at hd
    cases hd
  · intro d result hp
    rw [hp] at hrunning
    cases hrunning

theorem Caller.new_cell (request : HttpRequest) :
    (Caller.new request : Caller Response).phase.cell = none := by
  unfold Caller.new
  dsimp only
  split_ifs <;> rfl

theorem getElem?_concat_new {request : HttpRequest} {callers : List (Caller Response)}
    (hi : (callers ++ [.new request])[i]? = some caller) :
    callers[i]? = some caller ∨ caller = .new request := by
  rw [List.getElem?_append] at hi
  split_ifs at hi with hlt
  · exact .inl hi
  · exact .inr (List.mem_singleton.mp (List.mem_of_getElem? hi))

theorem Coalesced.send (h : Coalesced s) (request : HttpRequest) :
    Coalesced { s with callers := s.callers ++ [.new request] } := by
  refine ⟨h.keyed, h.unsettled, ?_, ?_, ?_, ?_⟩
  · intro c cell value hc hv
    obtain ⟨j, leader, outcome, hj, hrest⟩ := h.settled c cell value hc hv
    refine ⟨j, leader, outcome, ?_, hrest⟩
    rw [← hj]
    exact List.getElem?_append_left (List.getElem?_eq_some_iff.mp hj).1
  · intro j other c hj hc
    obtain hj | rfl := getElem?_concat_new hj
    · exact h.own j other c hj hc
    · rw [Caller.new_cell] at hc
      cases hc
  · intro j other hj hc
    obtain hj | rfl := getElem?_concat_new hj
    · exact h.fresh j other hj hc
    · rfl
  · intro j other c result hj hp hl
    obtain hj | rfl := getElem?_concat_new hj
    · exact h.retired j other c result hj hp hl
    · cases hl

theorem Coalesced.lookUp {key : CoalesceKey} (h : Coalesced s) (hi : s.callers[i]? = some caller)
    (hp : caller.phase = .lookingUp) (hkey : coalesceKey caller.request = some key) :
    Coalesced (s.after i (lookUp s caller key)) := by
  have hnone : caller.leaderResult = none := h.fresh i caller hi (by rw [hp]; rfl)
  unfold Coalesce.lookUp
  split
  · rename_i c hc
    refine h.quiet hi ?_ ?_ ?_ ?_
    · intro hl
      rw [hnone] at hl
      cases hl
    · intro d hd
      cases hd
      obtain ⟨cell, hcell, hk⟩ := h.keyed key c hc
      refine ⟨cell, hcell, ?_, hnone⟩
      rw [hk]
      exact hkey
    · intro hd
      cases hd
    · intro d result hd
      cases hd
  · rename_i habsent
    -- The new cell and its entry, before the caller has taken note of them.
    have hgrown : Coalesced { s with
        inFlight := s.inFlight.insert key s.cells.length
        cells := s.cells ++ [{ key, holder := none, value := none }] } := by
      have hlt : ∀ {key' d}, s.inFlight.lookup key' = some d → d < s.cells.length := by
        intro key' d hd
        obtain ⟨cell, hcell, -⟩ := h.keyed key' d hd
        exact (List.getElem?_eq_some_iff.mp hcell).1
      have hkept : ∀ (d : ℕ) cell, s.cells[d]? = some cell →
          (s.cells ++ [{ key, holder := none, value := none }])[d]? = some cell := by
        intro d cell hcell
        rw [← hcell]
        exact List.getElem?_append_left (List.getElem?_eq_some_iff.mp hcell).1
      have hcells : ∀ (d : ℕ) cell,
          (s.cells ++ [{ key, holder := none, value := none }])[d]? = some cell →
          s.cells[d]? = some cell ∨ d = s.cells.length ∧ cell = ⟨key, none, none⟩ := by
        intro d cell hd
        rw [List.getElem?_append] at hd
        split_ifs at hd with hdlt
        · exact .inl hd
        · obtain ⟨hzero, heq⟩ := List.getElem?_eq_some_iff.mp hd
          simp only [List.length_singleton] at hzero
          exact .inr ⟨by omega, List.mem_singleton.mp (List.mem_of_getElem? hd)⟩
      constructor
      · intro key' d hd
        rw [AList.lookup_insert_ite] at hd
        split_ifs at hd with hk
        · cases hd
          exact ⟨_, List.getElem?_concat_length, hk.symm⟩
        · obtain ⟨cell, hcell, hk'⟩ := h.keyed key' d hd
          exact ⟨cell, hkept d cell hcell, hk'⟩
      · intro d cell hd hv
        rw [AList.lookup_insert_ite]
        obtain hd | ⟨rfl, rfl⟩ := hcells d cell hd
        · have hmapped := h.unsettled d cell hd hv
          rw [if_neg, hmapped]
          rintro rfl
          rw [habsent] at hmapped
          cases hmapped
        · rw [if_pos rfl]
      · intro d cell value hd hv
        obtain hd | ⟨rfl, rfl⟩ := hcells d cell hd
        · exact h.settled d cell value hd hv
        · cases hv
      · intro j other d hj hd
        obtain ⟨cell, hcell, hrest⟩ := h.own j other d hj hd
        exact ⟨cell, hkept d cell hcell, hrest⟩
      · exact h.fresh
      · intro j other d result hj hf hl key' hd
        rw [AList.lookup_insert_ite] at hd
        split_ifs at hd with hk
        · cases hd
          obtain ⟨cell, hcell, -⟩ := h.own j other s.cells.length hj (by rw [hf]; rfl)
          exact Nat.lt_irrefl _ (List.getElem?_eq_some_iff.mp hcell).1
        · exact h.retired j other d result hj hf hl key' hd
    refine hgrown.quiet hi ?_ ?_ ?_ ?_
    · intro hl
      rw [hnone] at hl
      cases hl
    · intro d hd
      cases hd
      exact ⟨_, List.getElem?_concat_length, hkey, hnone⟩
    · intro hd
      cases hd
    · intro d result hd
      cases hd

theorem Coalesced.remove {result : Option (Outcome Response)} (h : Coalesced s)
    (hi : s.callers[i]? = some caller) (hp : caller.phase = .removing c result) :
    Coalesced (s.after i (remove s caller c result)) := by
  obtain ⟨cell, hcell, hkey, hfits⟩ := h.own i caller c hi (by rw [hp]; rfl)
  simp only [Fits, hp] at hfits
  obtain ⟨hexplained, hsome⟩ := hfits
  simp only [Coalesce.remove, hkey]
  split
  · -- Only this cell, which has its value, can no longer be found.
    have hshrunk : Coalesced { s with inFlight := s.inFlight.erase cell.key } := by
      constructor
      · intro key d hd
        rw [AList.lookup_erase_ite] at hd
        split_ifs at hd
        exact h.keyed key d hd
      · intro d other hd hv
        have hmapped := h.unsettled d other hd hv
        rw [AList.lookup_erase_ite, if_neg, hmapped]
        intro hk
        rw [hk] at hmapped
        rename_i hfound
        rw [hfound] at hmapped
        cases hmapped
        rw [hcell] at hd
        cases hd
        rw [hv] at hsome
        cases hsome
      · exact h.settled
      · exact h.own
      · exact h.fresh
      · intro j other d result' hj hf hl key hd
        rw [AList.lookup_erase_ite] at hd
        split_ifs at hd
        exact h.retired j other d result' hj hf hl key hd
    refine hshrunk.quiet hi ?_ ?_ ?_ ?_
    · intro _
      exact ⟨rfl, by rw [hp]; rfl⟩
    · intro d hd
      cases hd
      exact ⟨cell, hcell, hkey, hexplained⟩
    · intro hd
      cases hd
    · intro d result' hd _ key hfound
      cases hd
      obtain ⟨cell', hcell', hk⟩ := hshrunk.keyed key c hfound
      rw [hcell] at hcell'
      cases hcell'
      simp only [AList.lookup_erase_ite, hk, if_true] at hfound
      cases hfound
  · rename_i hother
    refine h.quiet hi ?_ ?_ ?_ ?_
    · intro _
      exact ⟨rfl, by rw [hp]; rfl⟩
    · intro d hd
      cases hd
      exact ⟨cell, hcell, hkey, hexplained⟩
    · intro hd
      cases hd
    · intro d result' hd _ key hfound
      cases hd
      obtain ⟨cell', hcell', hk⟩ := h.keyed key c hfound
      rw [hcell] at hcell'
      cases hcell'
      rw [hk] at hother
      exact hother hfound

theorem Coalesced.act {action : Action Response} {effect : Effect Response} (h : Coalesced s)
    (hi : s.callers[i]? = some caller) (ha : act s i caller action = some effect) :
    Coalesced (s.after i effect) := by
  cases action with
  | lookUp =>
    simp only [Coalesce.act] at ha
    split at ha
    · rename_i key hp hkey
      cases ha
      exact h.lookUp hi hp hkey
    · cases ha
  | acquire =>
    simp only [Coalesce.act] at ha
    split at ha
    · rename_i c hp
      obtain ⟨cell, hcell, -, hfits⟩ := h.own i caller c hi (by rw [hp]; rfl)
      simp only [Fits, hp] at hfits
      split at ha
      · rename_i key hc
        cases ha
        refine h.change hi hc (by rw [hp]; rfl) rfl rfl rfl rfl rfl rfl ?_ ?_ ?_
        · intro j _ hj
          cases hj
        · intro value hv
          cases hv
        · exact ⟨rfl, rfl, hfits, rfl⟩
      · cases ha
    · cases ha
  | join =>
    simp only [Coalesce.act] at ha
    split at ha
    · rename_i c hp
      obtain ⟨cell, hcell, hkey, hfits⟩ := h.own i caller c hi (by rw [hp]; rfl)
      simp only [Fits, hp] at hfits
      split at ha
      · rename_i hc
        cases ha
        rw [hcell] at hc
        cases hc
        refine h.quiet hi ?_ ?_ ?_ ?_
        · intro hl
          rw [hfits] at hl
          cases hl
        · intro d hd
          cases hd
          refine ⟨_, hcell, hkey, ?_⟩
          simp only [Fits, Explained, hfits]
          intro r hr
          cases hr
          exact ⟨_, rfl, rfl⟩
        · intro hd
          cases hd
        · intro d result hd
          cases hd
      · cases ha
    · cases ha
  | answer outcome =>
    simp only [Coalesce.act] at ha
    split at ha
    · rename_i hp
      cases ha
      have hnone := h.fresh i caller hi (by rw [hp]; rfl)
      refine h.quiet hi ?_ ?_ ?_ ?_
      · intro hl
        rw [hnone] at hl
        cases hl
      · intro d hd
        cases hd
      · intro _
        exact hnone
      · intro d result hd
        cases hd
    · rename_i c hp
      cases ha
      obtain ⟨cell, hcell, hkey, hfits⟩ := h.own i caller c hi (by rw [hp]; rfl)
      simp only [Fits, hp] at hfits
      obtain ⟨hholder, hvalue, hnone, hactive⟩ := hfits
      refine h.quiet hi ?_ ?_ ?_ ?_
      · intro hl
        rw [hnone] at hl
        cases hl
      · intro d hd
        cases hd
        exact ⟨cell, hcell, hkey, hholder, hvalue, hactive⟩
      · intro hd
        cases hd
      · intro d result hd
        cases hd
    · cases ha
  | settle =>
    simp only [Coalesce.act] at ha
    split at ha
    · rename_i c outcome hp hout
      obtain ⟨cell, hcell, -, hfits⟩ := h.own i caller c hi (by rw [hp]; rfl)
      simp only [Fits, hp] at hfits
      obtain ⟨hholder, hvalue, hactive⟩ := hfits
      rw [hcell] at ha
      cases ha
      refine h.change hi hcell (by rw [hp]; rfl) rfl rfl rfl rfl rfl hvalue ?_ ?_ ?_
      · intro j hji hj
        rw [hholder] at hj
        cases hj
        exact hji rfl
      · intro value hv
        cases hv
        exact ⟨outcome, hout, rfl⟩
      · simp [Fits, Explained, hout, hactive]
    · cases ha
  | leave =>
    simp only [Coalesce.act] at ha
    split at ha
    · rename_i c result hp
      obtain ⟨cell, hcell, hkey, hfits⟩ := h.own i caller c hi (by rw [hp]; rfl)
      simp only [Fits, hp] at hfits
      rw [hcell] at ha
      split_ifs at ha with hidle
      · cases ha
        refine h.quiet hi ?_ ?_ ?_ ?_
        · intro _
          exact ⟨rfl, by rw [hp]; rfl⟩
        · intro d hd
          cases hd
          exact ⟨cell, hcell, hkey, hfits⟩
        · intro hd
          cases hd
        · -- A leader's guard is active and finds the value.
          intro d result' _ hl
          obtain ⟨outcome, hout⟩ := Option.isSome_iff_exists.mp hl
          have hout : caller.leaderResult = some outcome := hout
          simp only [Explained, hout] at hfits
          simp [hfits.1, hfits.2.2] at hidle
      · cases ha
        refine h.quiet hi ?_ ?_ ?_ ?_
        · intro _
          exact ⟨rfl, by rw [hp]; rfl⟩
        · intro d hd
          cases hd
          refine ⟨cell, hcell, hkey, hfits, ?_⟩
          simp only [Option.bind_some, Bool.or_eq_true, not_or] at hidle
          exact Option.isSome_iff_ne_none.mpr fun hv => hidle.2 (by rw [hv]; rfl)
        · intro hd
          cases hd
        · intro d result' hd
          cases hd
    · cases ha
  | remove =>
    simp only [Coalesce.act] at ha
    split at ha
    · rename_i c result hp
      cases ha
      exact h.remove hi hp
    · cases ha
  | cancel =>
    have hquiet : caller.phase.cell = none →
        Coalesced (s.after i (s.quiet { caller with phase := .finished none none })) := by
      intro hp
      have hnone := h.fresh i caller hi hp
      refine h.quiet hi ?_ ?_ ?_ ?_
      · intro hl
        rw [hnone] at hl
        cases hl
      · intro d hd
        cases hd
      · intro _
        exact hnone
      · intro d result hd
        cases hd
    simp only [Coalesce.act] at ha
    split at ha
    · rename_i hp
      cases ha
      exact hquiet (by rw [hp]; rfl)
    · rename_i hp
      cases ha
      exact hquiet (by rw [hp]; rfl)
    · rename_i c hp
      cases ha
      obtain ⟨cell, hcell, hkey, hfits⟩ := h.own i caller c hi (by rw [hp]; rfl)
      simp only [Fits, hp] at hfits
      refine h.quiet hi ?_ ?_ ?_ ?_
      · intro hl
        rw [hfits] at hl
        cases hl
      · intro d hd
        cases hd
        refine ⟨cell, hcell, hkey, ?_⟩
        simp only [Fits, Explained, hfits]
        intro r hr
        cases hr
      · intro hd
        cases hd
      · intro d result hd
        cases hd
    · rename_i c hp
      obtain ⟨cell, hcell, -, hfits⟩ := h.own i caller c hi (by rw [hp]; rfl)
      simp only [Fits, hp] at hfits
      obtain ⟨hholder, hvalue, hnone, hactive⟩ := hfits
      rw [hcell] at ha
      cases ha
      refine h.change hi hcell (by rw [hp]; rfl) rfl rfl rfl rfl rfl hvalue ?_ ?_ ?_
      · intro j hji hj
        rw [hholder] at hj
        cases hj
        exact hji rfl
      · intro value hv
        rw [hvalue] at hv
        cases hv
      · simp only [Fits, Explained, hnone]
        intro r hr
        cases hr
    · cases ha

theorem step_act {action : Action Response} (hs : step s (.act i action) = some t) :
    ∃ caller effect, s.callers[i]? = some caller ∧ Coalesce.act s i caller action = some effect ∧
      t = s.after i effect := by
  simp only [step] at hs
  split at hs
  · cases hs
  · rename_i caller hi
    obtain ⟨effect, ha, rfl⟩ := Option.map_eq_some_iff.mp hs
    exact ⟨caller, effect, hi, ha, rfl⟩

theorem Coalesced.step {e : Event Response} (h : Coalesced s) (hs : step s e = some t) :
    Coalesced t := by
  cases e with
  | send request =>
    cases hs
    exact h.send request
  | act i action =>
    obtain ⟨caller, effect, hi, ha, rfl⟩ := step_act hs
    exact h.act hi ha

structure Remembers (s : State Response) (action : Action Response)
    (caller caller' : Caller Response) : Prop where
  running : caller.phase.isFinished = false
  request : caller'.request = caller.request
  leaderResult : caller'.leaderResult = caller.leaderResult ∨
    ∃ outcome, action = .answer outcome ∧ caller'.leaderResult = some outcome
  forwarded : ∀ r, caller'.phase = .finished none (some r) → action = .answer r
  cell : caller'.phase.cell = caller.phase.cell ∨
    action = .lookUp ∧ ∃ key c, caller'.phase.cell = some c ∧
      (s.inFlight.lookup key = some c ∨ c = s.cells.length)

theorem Remembers.plain {action : Action Response} (hrunning : caller.phase.isFinished = false)
    (hrequest : caller'.request = caller.request)
    (hleader : caller'.leaderResult = caller.leaderResult)
    (hforwarded : ∀ r, caller'.phase ≠ .finished none (some r))
    (hcell : caller'.phase.cell = caller.phase.cell) : Remembers s action caller caller' where
  running := hrunning
  request := hrequest
  leaderResult := .inl hleader
  forwarded := fun r hr => absurd hr (hforwarded r)
  cell := .inl hcell

theorem act_remembers {action : Action Response} {effect : Effect Response}
    (ha : act s i caller action = some effect) : Remembers s action caller effect.caller := by
  cases action with
  | lookUp =>
    simp only [act] at ha
    split at ha
    · rename_i key hp _
      have hrunning : caller.phase.isFinished = false := by
        rw [hp]
        rfl
      cases ha
      unfold lookUp
      split
      · rename_i c hc
        refine ⟨hrunning, rfl, .inl rfl, ?_, .inr ⟨rfl, key, c, rfl, .inl hc⟩⟩
        intro r hr
        cases hr
      · refine ⟨hrunning, rfl, .inl rfl, ?_, .inr ⟨rfl, key, _, rfl, .inr rfl⟩⟩
        intro r hr
        cases hr
    · cases ha
  | acquire | join =>
    simp only [act] at ha
    split at ha
    · rename_i hp
      split at ha
      · cases ha
        exact .plain (by rw [hp]; rfl) rfl rfl (fun r hr => nomatch hr) (by rw [hp]; rfl)
      · cases ha
    · cases ha
  | answer outcome =>
    simp only [act] at ha
    split at ha
    · rename_i hp
      cases ha
      refine ⟨by rw [hp]; rfl, rfl, .inl rfl, ?_, .inl (by rw [hp]; rfl)⟩
      intro r hr
      cases hr
      rfl
    · rename_i hp
      cases ha
      refine ⟨by rw [hp]; rfl, rfl, .inr ⟨outcome, rfl, rfl⟩, ?_, .inl (by rw [hp]; rfl)⟩
      intro r hr
      cases hr
    · cases ha
  | settle =>
    simp only [act] at ha
    split at ha
    · rename_i hp _
      split at ha
      · cases ha
        exact .plain (by rw [hp]; rfl) rfl rfl (fun r hr => nomatch hr) (by rw [hp]; rfl)
      · cases ha
    · cases ha
  | leave =>
    simp only [act] at ha
    split at ha
    · rename_i hp
      split_ifs at ha
      · cases ha
        exact .plain (by rw [hp]; rfl) rfl rfl (fun r hr => nomatch hr) (by rw [hp]; rfl)
      · cases ha
        exact .plain (by rw [hp]; rfl) rfl rfl (fun r hr => nomatch hr) (by rw [hp]; rfl)
    · cases ha
  | remove =>
    simp only [act] at ha
    split at ha
    · rename_i c result hp
      cases ha
      have hcaller : (remove s caller c result).caller =
          { caller with phase := .finished (some c) result } := by
        simp only [remove]
        split
        · rfl
        · split_ifs <;> rfl
      rw [hcaller]
      exact .plain (by rw [hp]; rfl) rfl rfl (fun r hr => nomatch hr) (by rw [hp]; rfl)
    · cases ha
  | cancel =>
    simp only [act] at ha
    split at ha
    · rename_i hp
      cases ha
      exact .plain (by rw [hp]; rfl) rfl rfl (fun r hr => nomatch hr) (by rw [hp]; rfl)
    · rename_i hp
      cases ha
      exact .plain (by rw [hp]; rfl) rfl rfl (fun r hr => nomatch hr) (by rw [hp]; rfl)
    · rename_i hp
      cases ha
      exact .plain (by rw [hp]; rfl) rfl rfl (fun r hr => nomatch hr) (by rw [hp]; rfl)
    · rename_i hp
      split at ha
      · cases ha
        exact .plain (by rw [hp]; rfl) rfl rfl (fun r hr => nomatch hr) (by rw [hp]; rfl)
      · cases ha
    · cases ha

variable {es : List (Event Response)}

theorem coalesced_run (h : Machine.Run (Machine.Computes step) start es t) : Coalesced t :=
  Machine.run_invariant (fun _ _ _ h hs => h.step hs) h coalesced_start

theorem finished_stays (h : Machine.Run (Machine.Computes step) s es t)
    (hi : s.callers[i]? = some caller) (hf : caller.phase.isFinished = true) :
    t.callers[i]? = some caller := by
  induction h with
  | nil => exact hi
  | @snoc u v es e _ hs ih =>
    cases e with
    | send request =>
      cases hs
      rw [← ih]
      exact List.getElem?_append_left (List.getElem?_eq_some_iff.mp ih).1
    | act j action =>
      obtain ⟨other, effect, hj, ha, rfl⟩ := step_act hs
      simp only [State.after, Tasks.getElem?_set hj]
      split_ifs with hij
      · subst hij
        rw [ih] at hj
        cases hj
        rw [(act_remembers ha).running] at hf
        cases hf
      · exact ih

theorem answered (h : Machine.Run (Machine.Computes step) start es t)
    (hi : t.callers[i]? = some caller) :
    (∀ outcome, caller.leaderResult = some outcome → .act i (.answer outcome) ∈ es) ∧
      ∀ r, caller.phase = .finished none (some r) → .act i (.answer r) ∈ es := by
  induction h generalizing caller with
  | nil => cases hi
  | @snoc u v es e _ hs ih =>
    cases e with
    | send request =>
      cases hs
      obtain hi | rfl := getElem?_concat_new hi
      · obtain ⟨hout, hres⟩ := ih hi
        exact ⟨fun o ho => List.mem_append_left _ (hout o ho),
          fun r hr => List.mem_append_left _ (hres r hr)⟩
      · constructor
        · intro outcome hout
          cases hout
        · intro r hr
          simp only [Caller.new] at hr
          split_ifs at hr
    | act j action =>
      obtain ⟨other, effect, hj, ha, rfl⟩ := step_act hs
      simp only [State.after, Tasks.getElem?_set hj] at hi
      split_ifs at hi with hij
      · subst hij
        cases hi
        have hremembers := act_remembers ha
        constructor
        · intro outcome hout
          obtain hsame | ⟨o, rfl, ho⟩ := hremembers.leaderResult
          · rw [hsame] at hout
            exact List.mem_append_left _ ((ih hj).1 outcome hout)
          · rw [ho] at hout
            cases hout
            exact List.mem_append_right _ List.mem_cons_self
        · intro r hr
          rw [hremembers.forwarded r hr]
          exact List.mem_append_right _ List.mem_cons_self
      · obtain ⟨hout, hres⟩ := ih hi
        exact ⟨fun o ho => List.mem_append_left _ (hout o ho),
          fun r hr => List.mem_append_left _ (hres r hr)⟩

/-- When a caller looked up its cell, the cell was in the map or did not exist. -/
theorem looked_up (h : Machine.Run (Machine.Computes step) start es t)
    (hi : t.callers[i]? = some caller) (hc : caller.phase.cell = some c) :
    ∃ (before after : List (Event Response)) (u : State Response),
      es = before ++ .act i .lookUp :: after ∧
      Machine.Run (Machine.Computes step) start before u ∧
      Machine.Run (Machine.Computes step) u (.act i .lookUp :: after) t ∧
      ((∃ key, u.inFlight.lookup key = some c) ∨ c = u.cells.length) := by
  induction h generalizing caller with
  | nil => cases hi
  | @snoc u v es e hrun hs ih =>
    have hlater : (∃ old, u.callers[i]? = some old ∧ old.phase.cell = some c) →
        ∃ (before after : List (Event Response)) (w : State Response),
          es ++ [e] = before ++ .act i .lookUp :: after ∧
          Machine.Run (Machine.Computes step) start before w ∧
          Machine.Run (Machine.Computes step) w (.act i .lookUp :: after) v ∧
          ((∃ key, w.inFlight.lookup key = some c) ∨ c = w.cells.length) := by
      rintro ⟨old, hold, hcell⟩
      obtain ⟨before, after, w, rfl, hbefore, hafter, hw⟩ := ih hold hcell
      refine ⟨before, after ++ [e], w, ?_, hbefore, ?_, hw⟩
      · rw [List.append_assoc, List.cons_append]
      · exact hafter.snoc hs
    cases e with
    | send request =>
      cases hs
      obtain hi | rfl := getElem?_concat_new hi
      · exact hlater ⟨caller, hi, hc⟩
      · rw [Caller.new_cell] at hc
        cases hc
    | act j action =>
      obtain ⟨other, effect, hj, ha, rfl⟩ := step_act hs
      simp only [State.after, Tasks.getElem?_set hj] at hi
      split_ifs at hi with hij
      · subst hij
        cases hi
        obtain hsame | ⟨rfl, key, d, hd, hfound⟩ := (act_remembers ha).cell
        · exact hlater ⟨other, hj, hsame ▸ hc⟩
        · rw [hd] at hc
          cases hc
          refine ⟨es, [], u, rfl, hrun, ?_, hfound.imp_left fun hk => ⟨key, hk⟩⟩
          exact (Machine.Run.nil u).snoc hs
      · exact hlater ⟨caller, hi, hc⟩

theorem leader_unreturned {u : State Response} {es' : List (Event Response)} {j : ℕ}
    {leader leader' : Caller Response} {outcome : Outcome Response}
    (hbefore : Machine.Run (Machine.Computes step) start es' u)
    (hafter : Machine.Run (Machine.Computes step) u es t)
    (hfound : (∃ key, u.inFlight.lookup key = some c) ∨ c = u.cells.length)
    (hj : t.callers[j]? = some leader) (hplace : leader.phase.cell = some c)
    (hout : leader.leaderResult = some outcome) (hj' : u.callers[j]? = some leader') :
    leader'.phase.isFinished = false := by
  by_contra hf
  have hf : leader'.phase.isFinished = true := by simpa using hf
  have hstays := finished_stays hafter hj' hf
  rw [hj] at hstays
  cases hstays
  have h := coalesced_run hbefore
  obtain ⟨key, hkey⟩ | hlen := hfound
  · have hp : ∃ result, leader.phase = .finished (some c) result := by
      cases hphase : leader.phase with
      | finished cell result =>
        rw [hphase] at hplace
        exact ⟨result, congrArg (fun d => Phase.finished d result) hplace⟩
      | _ =>
        rw [hphase] at hf
        cases hf
    obtain ⟨result, hp⟩ := hp
    exact h.retired j leader c result hj' hp (by rw [hout]; rfl) key hkey
  · obtain ⟨cell, hcell, -⟩ := h.own j leader c hj' hplace
    have hlt := (List.getElem?_eq_some_iff.mp hcell).1
    omega

/-- However calls of `send` are interleaved and dropped, there is one exchange for a key at a
time, and every result is that of an exchange for the key: the caller's own, or that of a
leader which had not returned when the caller looked up the key. -/
theorem coalescing_safe (run : Machine.Run (Machine.Computes step) start es t) :
    (∀ (i j : ℕ) caller other c d, t.callers[i]? = some caller → t.callers[j]? = some other →
      caller.phase = .sending c → other.phase = .sending d →
      coalesceKey caller.request = coalesceKey other.request → i = j) ∧
    ∀ (i : ℕ) caller cell r, t.callers[i]? = some caller →
      caller.phase = .finished cell (some r) →
      ∃ (j : ℕ) (leader : Caller Response) (outcome : Outcome Response),
        t.callers[j]? = some leader ∧
        coalesceKey leader.request = coalesceKey caller.request ∧
        .act j (.answer outcome) ∈ es ∧
        (j = i ∧ r = outcome ∨
          r = joined (followerResult outcome) ∧
          ∃ (before after : List (Event Response)) (u : State Response),
            es = before ++ .act i .lookUp :: after ∧
            Machine.Run (Machine.Computes step) start before u ∧
            ∀ leader', u.callers[j]? = some leader' → leader'.phase.isFinished = false) := by
  have h := coalesced_run run
  constructor
  · intro i j caller other c d hi hj hp hq hsame
    obtain ⟨cell, hcell, hkey, hfits⟩ := h.own i caller c hi (by rw [hp]; rfl)
    obtain ⟨cell', hcell', hkey', hfits'⟩ := h.own j other d hj (by rw [hq]; rfl)
    simp only [Fits, hp] at hfits
    simp only [Fits, hq] at hfits'
    have hfound := h.unsettled c cell hcell hfits.2.1
    have hfound' := h.unsettled d cell' hcell' hfits'.2.1
    rw [hkey, hkey'] at hsame
    rw [Option.some.inj hsame, hfound'] at hfound
    cases hfound
    rw [hcell] at hcell'
    cases hcell'
    exact Option.some.inj (hfits.1.symm.trans hfits'.1)
  · intro i caller cell r hi hp
    obtain ⟨hown, hforwarded⟩ := answered run hi
    cases cell with
    | none => exact ⟨i, caller, r, hi, rfl, hforwarded r hp, .inl ⟨rfl, rfl⟩⟩
    | some c =>
      have hplace : caller.phase.cell = some c := by
        rw [hp]
        rfl
      obtain ⟨cell, hcell, hkey, hfits⟩ := h.own i caller c hi hplace
      simp only [Fits, hp, Explained] at hfits
      cases hl : caller.leaderResult with
      | some outcome =>
        rw [hl] at hfits
        refine ⟨i, caller, outcome, hi, rfl, hown outcome hl, .inl ⟨rfl, ?_⟩⟩
        exact Option.some.inj hfits.2.1
      | none =>
        rw [hl] at hfits
        obtain ⟨value, hv, hr⟩ := hfits r rfl
        obtain ⟨j, leader, outcome, hj, hplace', hout, rfl⟩ := h.settled c cell value hcell hv
        obtain ⟨cell', hcell', hkey', -⟩ := h.own j leader c hj hplace'
        rw [hcell] at hcell'
        cases hcell'
        obtain ⟨before, after, u, hes, hbefore, hafter, hfound⟩ := looked_up run hi hplace
        refine ⟨j, leader, outcome, hj, hkey'.trans hkey.symm, (answered run hj).1 outcome hout, ?_⟩
        refine .inr ⟨hr, before, after, u, hes, hbefore, ?_⟩
        intro leader' hj'
        exact leader_unreturned hbefore hafter hfound hj hplace' hout hj'

-- A leader is dropped, its follower is promoted, and a third caller joins.
def pageRequest : HttpRequest where
  url := ⟨"http://localhost/slow#top", some "localhost"⟩
  method := "GET"
  body := none
  cookieJar := none
  proxy := none

def promotion : List (Event String) :=
  [.send pageRequest, .act 0 .lookUp, .act 0 .acquire, .send pageRequest, .act 1 .lookUp,
   .act 0 .cancel, .act 1 .acquire, .act 0 .leave, .send pageRequest, .act 2 .lookUp,
   .act 1 (.answer (.ok "page")), .act 1 .settle, .act 2 .join, .act 1 .leave, .act 1 .remove,
   .act 2 .leave]

def Phase.ending : Phase Response → Option (Option ℕ × Option (Outcome Response))
  | .finished cell result => some (cell, result)
  | _ => none

theorem Phase.eq_finished {p : Phase Response} {cell : Option ℕ}
    {result : Option (Outcome Response)} (h : p.ending = some (cell, result)) :
    p = .finished cell result := by
  cases p
  case finished =>
    cases h
    rfl
  all_goals cases h

theorem coalescing_safe_promotion : ∃ (t : State String) (caller : Caller String),
    Machine.Run (Machine.Computes step) start promotion t ∧ t.callers[2]? = some caller ∧
      caller.phase = .finished (some 0) (some (.ok "page")) ∧
      ∃ (j : ℕ) (outcome : Outcome String), .act j (.answer outcome) ∈ promotion := by
  have hrun : (promotion.foldlM step start).map
      (fun t => t.callers[2]?.map fun caller => caller.phase.ending) =
        some (some (some (some 0, some (.ok "page")))) := by decide +kernel
  obtain ⟨t, ht, hcaller⟩ := Option.map_eq_some_iff.mp hrun
  obtain ⟨caller, hcaller, hphase⟩ := Option.map_eq_some_iff.mp hcaller
  have hr := Machine.run_of_foldlM ht
  have hp := Phase.eq_finished hphase
  obtain ⟨j, -, outcome, -, -, hanswer, -⟩ := (coalescing_safe hr).2 2 caller _ _ hcaller hp
  exact ⟨t, caller, hr, hcaller, hp, j, outcome, hanswer⟩

end Millipede.Coalesce
