import Mathlib.Data.List.TakeWhile
import Mathlib.Tactic.Common

/-!
# Logs kept in part

A log of which only a recent part is kept: each push drops what is stale from the front and
then the oldest entries beyond a cap. Who does not look at stale entries sees in that part
what the newest entries of the whole log show.
-/

namespace Recent

variable {α : Type*}

def retain (cap : ℕ) (stale : α → Bool) (kept : List α) (x : α) : List α :=
  let kept := (kept ++ [x]).dropWhile stale
  kept.drop (kept.length - cap)

def newest (cap : ℕ) (log : List α) : List α := log.drop (log.length - cap)

/-- Of the newest entries of the log only old ones are not kept. -/
def Keeps (cap : ℕ) (old : α → Prop) (log kept : List α) : Prop :=
  ∃ dropped, newest cap log = dropped ++ kept ∧ ∀ x ∈ dropped, old x

variable {cap : ℕ} {old old' : α → Prop} {log kept : List α} {stale : α → Bool}

theorem newest_concat (cap : ℕ) (log : List α) (x : α) :
    newest cap (log ++ [x]) = newest cap (newest cap log ++ [x]) := by
  have hsplit : log ++ [x] = log.take (log.length - cap) ++ (newest cap log ++ [x]) := by
    rw [newest, ← List.append_assoc, List.take_append_drop]
  have hlen : (newest cap log).length = log.length - (log.length - cap) := List.length_drop ..
  have htake : (log.take (log.length - cap)).length = log.length - cap := by
    rw [List.length_take]
    omega
  rw [newest, newest, hsplit, List.drop_append, List.drop_eq_nil_of_le, List.nil_append]
  · congr 1
    simp only [List.length_append, List.length_singleton]
    omega
  · simp only [List.length_append, List.length_singleton]
    omega

theorem Keeps.mono (h : Keeps cap old log kept) (hold : ∀ x, old x → old' x) :
    Keeps cap old' log kept := by
  obtain ⟨dropped, hlog, hdropped⟩ := h
  exact ⟨dropped, hlog, fun x hx => hold x (hdropped x hx)⟩

theorem Keeps.retain (h : Keeps cap old log kept) (hstale : ∀ x, stale x = true → old x) (x : α) :
    Keeps cap old (log ++ [x]) (retain cap stale kept x) := by
  obtain ⟨dropped, hlog, hdropped⟩ := h
  let gone := dropped ++ (kept ++ [x]).takeWhile stale
  let left := (kept ++ [x]).dropWhile stale
  have hparts : newest cap log ++ [x] = gone ++ left := by
    rw [hlog, List.append_assoc, List.append_assoc, List.takeWhile_append_dropWhile]
  have hgone : ∀ y ∈ gone, old y := by
    intro y hy
    obtain hy | hy := List.mem_append.mp hy
    · exact hdropped y hy
    · exact hstale y (List.mem_takeWhile_imp hy)
  refine ⟨gone.drop (gone.length + left.length - cap), ?_, ?_⟩
  · have hcap : gone.length + left.length - cap - gone.length = left.length - cap := by omega
    rw [newest_concat, hparts, newest, List.length_append, List.drop_append, hcap]
    rfl
  · exact fun y hy => hgone y (List.mem_of_mem_drop hy)

theorem Keeps.filter (h : Keeps cap old log kept) {p : α → Bool}
    (hp : ∀ x, old x → p x = false) : kept.filter p = (newest cap log).filter p := by
  obtain ⟨dropped, hlog, hdropped⟩ := h
  have hnone : dropped.filter p = [] := by
    rw [List.filter_eq_nil_iff]
    intro x hx
    simp [hp x (hdropped x hx)]
  rw [hlog, List.filter_append, hnone, List.nil_append]

end Recent
