import Mathlib.Data.List.Basic
import Mathlib.Algebra.Order.Group.Nat

/-!
# Records that are found by a key

A list of records in which the first one that meets a condition is changed in place.
-/

namespace List
variable {α κ : Type*}

def updateFirst (p : α → Bool) (f : α → α) : List α → List α
  | [] => []
  | a :: l => if p a then f a :: l else a :: updateFirst p f l

theorem map_updateFirst {β : Type*} {p : α → Bool} {f : α → α} {g : α → β} {l : List α}
    (h : ∀ a, p a = true → g (f a) = g a) : (l.updateFirst p f).map g = l.map g := by
  induction l with
  | nil => rfl
  | cons a l ih =>
    simp only [updateFirst]
    split_ifs with ha
    · rw [map_cons, map_cons, h a ha]
    · rw [map_cons, map_cons, ih]

theorem updateFirst_of_find?_eq_none {p : α → Bool} {f : α → α} {l : List α}
    (h : l.find? p = none) : l.updateFirst p f = l := by
  induction l with
  | nil => rfl
  | cons a l ih =>
    rw [find?_cons] at h
    split at h
    · cases h
    · rename_i ha
      simp only [updateFirst, ha, Bool.false_eq_true, if_false, ih h]

theorem countP_updateFirst {p q : α → Bool} {f : α → α} {l : List α} {a : α}
    (h : l.find? p = some a) :
    (l.updateFirst p f).countP q + (q a).toNat = l.countP q + (q (f a)).toNat := by
  induction l with
  | nil => cases h
  | cons b l ih =>
    rw [find?_cons] at h
    simp only [updateFirst]
    split at h
    · rename_i hb
      cases h
      rw [if_pos hb, countP_cons, countP_cons]
      cases q a <;> cases q (f a) <;> simp
    · rename_i hb
      have hrest := ih h
      simp only [hb, Bool.false_eq_true, if_false, countP_cons]
      omega

section Key
variable [DecidableEq κ] (key : α → κ)

def lookupBy (k : κ) (l : List α) : Option α := l.find? fun a => decide (key a = k)

theorem key_of_lookupBy {key : α → κ} {k : κ} {l : List α} {a : α}
    (h : l.lookupBy key k = some a) : key a = k := by
  simpa using List.find?_some h

theorem mem_of_lookupBy {key : α → κ} {k : κ} {l : List α} {a : α}
    (h : l.lookupBy key k = some a) : a ∈ l := List.mem_of_find?_eq_some h

theorem lookupBy_of_mem {key : α → κ} {l : List α} {a : α} (hnodup : (l.map key).Nodup)
    (ha : a ∈ l) : l.lookupBy key (key a) = some a := by
  induction l with
  | nil => cases ha
  | cons b l ih =>
    rw [map_cons, nodup_cons] at hnodup
    simp only [lookupBy, find?_cons]
    by_cases hb : key b = key a
    · rcases mem_cons.mp ha with rfl | ha
      · simp
      · exact absurd (hb ▸ mem_map_of_mem ha) hnodup.1
    · rcases mem_cons.mp ha with rfl | ha
      · exact absurd rfl hb
      · simp only [hb, decide_false]
        exact ih hnodup.2 ha

theorem lookupBy_updateFirst {p : α → Bool} {f : α → α} {l : List α} {a : α}
    (hfind : l.find? p = some a) (hkey : key (f a) = key a) (hnodup : (l.map key).Nodup) (k : κ) :
    (l.updateFirst p f).lookupBy key k =
      if k = key a then some (f a) else l.lookupBy key k := by
  induction l with
  | nil => cases hfind
  | cons b l ih =>
    rw [map_cons, nodup_cons] at hnodup
    rw [find?_cons] at hfind
    simp only [updateFirst, lookupBy]
    split at hfind
    · rename_i hb
      cases hfind
      rw [if_pos hb, find?_cons, find?_cons, hkey]
      by_cases hk : key a = k
      · simp [hk]
      · simp [hk, Ne.symm hk]
    · rename_i hb
      have hrest := ih hfind hnodup.2
      simp only [lookupBy] at hrest
      simp only [hb, Bool.false_eq_true, if_false, find?_cons]
      by_cases hk : key b = k
      · have hne : k ≠ key a := by
          rintro rfl
          exact hnodup.1 (hk ▸ mem_map_of_mem (List.mem_of_find?_eq_some hfind))
        simp [hk, hne]
      · simp only [hk, decide_false]
        exact hrest

theorem lookupBy_filter_ne (k₀ k : κ) (l : List α) :
    (l.filter fun a => decide (key a ≠ k₀)).lookupBy key k =
      if k = k₀ then none else l.lookupBy key k := by
  induction l with
  | nil => simp [lookupBy]
  | cons b l ih =>
    simp only [lookupBy] at ih
    simp only [lookupBy, filter_cons, find?_cons]
    by_cases hb : key b = k₀
    · subst hb
      by_cases hk : k = key b
      · subst hk
        simp
      · simp only [ne_eq, not_true, decide_false, Bool.false_eq_true, if_false, ih, hk,
          Ne.symm hk]
    · by_cases hk : key b = k
      · subst hk
        simp [hb]
      · simp only [ne_eq, hb, not_false_eq_true, decide_true, if_true, find?_cons, hk,
          decide_false, ih]

theorem lookupBy_map {f : α → α} (hkey : ∀ a, key (f a) = key a) (k : κ) (l : List α) :
    (l.map f).lookupBy key k = (l.lookupBy key k).map f := by
  simp only [lookupBy, find?_map]
  congr 2
  funext a
  simp only [Function.comp, hkey]

theorem lookupBy_append_singleton (k : κ) (l : List α) (a : α) :
    (l ++ [a]).lookupBy key k = (l.lookupBy key k).or (if key a = k then some a else none) := by
  simp only [lookupBy, find?_append, find?_cons, find?_nil]
  by_cases h : key a = k
  · simp [h]
  · simp [h]

end Key

end List
