import Mathlib.Algebra.GroupWithZero.Nat
import Mathlib.Algebra.Order.BigOperators.Group.List
import Mathlib.Algebra.Order.Group.Nat

/-!
# Tasks that run side by side

The tasks are a list; a step replaces one of them. A total over all tasks changes by what
the one task contributes.
-/

namespace Tasks
variable {τ : Type*} {f : τ → ℕ} {tasks : List τ} {i : ℕ} {old : τ}

def total (f : τ → ℕ) (tasks : List τ) : ℕ := (tasks.map f).sum

@[simp] theorem total_nil : total f [] = 0 := rfl

@[simp] theorem total_append_singleton (new : τ) :
    total f (tasks ++ [new]) = total f tasks + f new := by
  simp [total]

theorem total_set (h : tasks[i]? = some old) (new : τ) :
    total f (tasks.set i new) + f old = total f tasks + f new := by
  induction tasks generalizing i with
  | nil => simp at h
  | cons task tasks ih =>
    cases i with
    | zero =>
      cases h
      simp only [List.set_cons_zero, total, List.map_cons, List.sum_cons]
      omega
    | succ i =>
      have hrest := ih h
      simp only [total] at hrest
      simp only [List.set_cons_succ, total, List.map_cons, List.sum_cons]
      omega

theorem le_total (h : tasks[i]? = some old) : f old ≤ total f tasks :=
  List.le_sum_of_mem (List.mem_map_of_mem (List.mem_of_getElem? h))

theorem getElem?_set (h : tasks[i]? = some old) (new : τ) (j : ℕ) :
    (tasks.set i new)[j]? = if j = i then some new else tasks[j]? := by
  obtain ⟨hlt, -⟩ := List.getElem?_eq_some_iff.mp h
  by_cases hj : j = i
  · subst hj
    rw [List.getElem?_set_self hlt, if_pos rfl]
  · rw [List.getElem?_set_ne (Ne.symm hj), if_neg hj]

end Tasks
