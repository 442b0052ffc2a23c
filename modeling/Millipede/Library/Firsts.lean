import Mathlib.Data.Finset.Insert
import Mathlib.Data.List.Nodup
import Mathlib.Data.Finset.Lattice.Lemmas

/-!
# First occurrences

`firsts key known l` keeps the elements of `l` whose key is not known and has not come
before, as a loop does that keeps a set of the keys it has met.
-/

namespace List
variable {α κ : Type*} [DecidableEq κ] (key : α → κ)

def firsts (known : Finset κ) : List α → List α
  | [] => []
  | a :: l => if key a ∈ known then firsts known l else a :: firsts (insert (key a) known) l

variable {key} {known : Finset κ} {l : List α} {a : α}

theorem firsts_cons_known (h : key a ∈ known) : (a :: l).firsts key known = l.firsts key known := by
  rw [firsts, if_pos h]

theorem firsts_cons_new (h : key a ∉ known) :
    (a :: l).firsts key known = a :: l.firsts key (insert (key a) known) := by
  rw [firsts, if_neg h]

theorem firsts_toList_append (o : Option α) :
    (o.toList ++ l).firsts key known =
      (o.filter fun a => decide (key a ∉ known)).toList ++
        l.firsts key (o.elim known fun a => insert (key a) known) := by
  cases o with
  | none => rfl
  | some a =>
    by_cases h : key a ∈ known
    · rw [Option.filter_some, decide_eq_false (not_not_intro h)]
      show (a :: l).firsts key known = l.firsts key (insert (key a) known)
      rw [firsts_cons_known h, Finset.insert_eq_of_mem h]
    · rw [Option.filter_some, decide_eq_true h]
      exact firsts_cons_new h

theorem not_known_of_mem_firsts (h : a ∈ l.firsts key known) : key a ∉ known := by
  induction l generalizing known with
  | nil => cases h
  | cons b l ih =>
    by_cases hb : key b ∈ known
    · rw [firsts_cons_known hb] at h
      exact ih h
    · rw [firsts_cons_new hb] at h
      rcases List.mem_cons.mp h with rfl | h
      · exact hb
      · exact fun ha => ih h (Finset.mem_insert_of_mem ha)

theorem mem_of_mem_firsts (h : a ∈ l.firsts key known) : a ∈ l := by
  induction l generalizing known with
  | nil => cases h
  | cons b l ih =>
    by_cases hb : key b ∈ known
    · rw [firsts_cons_known hb] at h
      exact List.mem_cons_of_mem _ (ih h)
    · rw [firsts_cons_new hb] at h
      rcases List.mem_cons.mp h with rfl | h
      · exact List.mem_cons_self
      · exact List.mem_cons_of_mem _ (ih h)

theorem mem_map_firsts (h : a ∈ l) : key a ∈ known ∨ key a ∈ (l.firsts key known).map key := by
  induction l generalizing known with
  | nil => cases h
  | cons b l ih =>
    by_cases hb : key b ∈ known
    · rw [firsts_cons_known hb]
      rcases List.mem_cons.mp h with rfl | h
      · exact .inl hb
      · exact ih h
    · rw [firsts_cons_new hb]
      rcases List.mem_cons.mp h with rfl | h
      · exact .inr List.mem_cons_self
      · have hih : key a ∈ insert (key b) known ∨ _ := ih h
        rcases hih with hk | hk
        · rcases Finset.mem_insert.mp hk with heq | hk
          · rw [heq]
            exact .inr List.mem_cons_self
          · exact .inl hk
        · exact .inr (List.mem_cons_of_mem _ hk)

theorem mem_firsts_of_subset (hkey : Function.Injective key) {known' : Finset κ}
    (hsub : known ⊆ known') (h : a ∈ l.firsts key known') : a ∈ l.firsts key known := by
  have hfate : key a ∈ known ∨ key a ∈ (l.firsts key known).map key :=
    mem_map_firsts (mem_of_mem_firsts h)
  rcases hfate with hknown | hfirst
  · exact absurd (hsub hknown) (not_known_of_mem_firsts h)
  · obtain ⟨a', ha', heq⟩ := List.mem_map.mp hfirst
    exact hkey heq ▸ ha'

theorem nodup_map_firsts : ((l.firsts key known).map key).Nodup := by
  induction l generalizing known with
  | nil => exact List.nodup_nil
  | cons b l ih =>
    by_cases hb : key b ∈ known
    · rw [firsts_cons_known hb]
      exact ih
    · rw [firsts_cons_new hb, List.map_cons]
      refine List.nodup_cons.mpr ⟨?_, ih⟩
      intro hmem
      obtain ⟨a, ha, heq⟩ := List.mem_map.mp hmem
      exact not_known_of_mem_firsts ha (heq ▸ Finset.mem_insert_self _ _)

theorem firsts_concat : (l ++ [a]).firsts key known =
    l.firsts key known ++ if key a ∈ known ∨ key a ∈ l.map key then [] else [a] := by
  induction l generalizing known with
  | nil => by_cases ha : key a ∈ known <;> simp [firsts, ha]
  | cons b l ih =>
    rw [cons_append]
    by_cases hb : key b ∈ known
    · have hiff : (key a ∈ known ∨ key a ∈ (b :: l).map key) ↔
          (key a ∈ known ∨ key a ∈ l.map key) := by
        rw [map_cons, mem_cons]
        constructor
        · rintro (h | h | h)
          · exact .inl h
          · exact .inl (h ▸ hb)
          · exact .inr h
        · exact fun h => h.imp_right .inr
      simp only [firsts_cons_known hb, ih, hiff]
    · have hiff : (key a ∈ known ∨ key a ∈ (b :: l).map key) ↔
          (key a ∈ insert (key b) known ∨ key a ∈ l.map key) := by
        rw [map_cons, mem_cons, Finset.mem_insert]
        tauto
      simp only [firsts_cons_new hb, ih, hiff, cons_append]

theorem firsts_append {l' : List α} : (l ++ l').firsts key known =
    l.firsts key known ++ l'.firsts key (known ∪ (l.map key).toFinset) := by
  induction l generalizing known with
  | nil =>
    rw [nil_append, map_nil, toFinset_nil, Finset.union_empty]
    rfl
  | cons b l ih =>
    rw [cons_append, map_cons, toFinset_cons]
    by_cases hb : key b ∈ known
    · rw [firsts_cons_known hb, firsts_cons_known hb, ih, Finset.union_insert,
        Finset.insert_eq_of_mem (Finset.mem_union_left _ hb)]
    · rw [firsts_cons_new hb, firsts_cons_new hb, ih, Finset.union_insert, Finset.insert_union,
        cons_append]

theorem firsts_eq_nil (h : ∀ a ∈ l, key a ∈ known) : l.firsts key known = [] := by
  rw [List.eq_nil_iff_forall_not_mem]
  intro a ha
  exact not_known_of_mem_firsts ha (h a (mem_of_mem_firsts ha))

theorem length_firsts_le : (l.firsts key known).length ≤ l.length := by
  induction l generalizing known with
  | nil => exact le_rfl
  | cons b l ih =>
    by_cases hb : key b ∈ known
    · rw [firsts_cons_known hb]
      exact ih.trans (Nat.le_succ _)
    · rw [firsts_cons_new hb]
      exact Nat.succ_le_succ ih

/-- To know more changes nothing of the first `n`, exactly if it is of no use before them. -/
theorem take_firsts_eq_iff {known' : Finset κ} (hsub : known ⊆ known') (n : ℕ) :
    (l.firsts key known').take n = (l.firsts key known).take n ↔
      ∀ before a after, l = before ++ a :: after → (before.firsts key known').length < n →
        key a ∈ known' → key a ∈ known := by
  induction l generalizing known known' n with
  | nil => simp [firsts]
  | cons b l ih =>
    have hsplit : (∀ before a after, b :: l = before ++ a :: after →
          (before.firsts key known').length < n → key a ∈ known' → key a ∈ known) ↔
        (0 < n → key b ∈ known' → key b ∈ known) ∧
          ∀ before a after, l = before ++ a :: after →
            ((b :: before).firsts key known').length < n → key a ∈ known' → key a ∈ known := by
      constructor
      · intro h
        exact ⟨h [] b l rfl, fun before a after heq => h (b :: before) a after (by rw [heq]; rfl)⟩
      · rintro ⟨hfirst, hrest⟩ (_ | ⟨c, before⟩) a after heq
        · cases heq
          exact hfirst
        · cases heq
          exact hrest before a after rfl
    rw [hsplit]
    by_cases hb : key b ∈ known
    · simp only [firsts_cons_known hb, firsts_cons_known (hsub hb), ih hsub n, hb, implies_true,
        true_and]
    · rw [firsts_cons_new hb]
      cases n with
      | zero => simp
      | succ n =>
        by_cases hb' : key b ∈ known'
        · refine iff_of_false (fun heq => ?_) (fun h => hb (h.1 (Nat.succ_pos n) hb'))
          have hmem : b ∈ ((b :: l).firsts key known').take (n + 1) := by
            rw [heq]
            exact List.mem_cons_self
          exact not_known_of_mem_firsts (List.mem_of_mem_take hmem) hb'
        · rw [firsts_cons_new hb', List.take_succ_cons, List.take_succ_cons, List.cons.injEq,
            ih (Finset.insert_subset_insert _ hsub) n]
          simp only [true_and, hb', false_implies, implies_true, firsts_cons_new hb',
            List.length_cons, Nat.add_lt_add_iff_right, Finset.mem_insert]
          refine forall₃_congr fun before a after => forall₂_congr fun _ _ => ?_
          constructor
          · intro h ha
            refine (h (.inr ha)).resolve_left fun hsame => ?_
            rw [hsame] at ha
            exact hb' ha
          · exact fun h => Or.imp_right h

theorem firsts_eq_iff {known' : Finset κ} (hsub : known ⊆ known') :
    l.firsts key known' = l.firsts key known ↔
      ∀ before a after, l = before ++ a :: after → key a ∈ known' → key a ∈ known := by
  have htake : (l.firsts key known').take (l.length + 1) =
      (l.firsts key known).take (l.length + 1) ↔ _ := take_firsts_eq_iff hsub (l.length + 1)
  rw [List.take_of_length_le (length_firsts_le.trans (Nat.le_succ _)),
    List.take_of_length_le (length_firsts_le.trans (Nat.le_succ _))] at htake
  rw [htake]
  refine forall₃_congr fun before a after => forall_congr' fun heq => ?_
  have hlt : (before.firsts key known').length < l.length + 1 := by
    have hle : (before.firsts key known').length ≤ before.length := length_firsts_le
    rw [heq, length_append]
    omega
  exact forall_prop_of_true hlt

end List
