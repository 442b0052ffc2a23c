import Mathlib.Data.List.AList
import Mathlib.Order.Lattice

/-!
# Finite maps

`HashMap` is Mathlib's association list with pairwise distinct keys; the lemmas
below add the conditional forms of `lookup` and the size of a map. `OrderedMap`
is a map that keeps its entries sorted by key, so that the smallest key can be
taken out first and the entries can be read as a sequence. Inserting above or
below every key extends that sequence at its end or at its front.
-/

abbrev HashMap (κ ν : Type*) := AList (fun _ : κ => ν)

namespace AList
variable {κ ν : Type*} [DecidableEq κ]

def len {κ ν : Type*} (m : HashMap κ ν) : ℕ := m.entries.length

def values {κ ν : Type*} (m : HashMap κ ν) : List ν := m.entries.map Sigma.snd

theorem lookup_insert_ite (m : HashMap κ ν) (a k : κ) (v : ν) :
    (m.insert k v).lookup a = if a = k then some v else m.lookup a := by
  split_ifs with h
  · subst h
    exact AList.lookup_insert m
  · exact AList.lookup_insert_ne h

theorem lookup_erase_ite (m : HashMap κ ν) (a k : κ) :
    (m.erase k).lookup a = if a = k then none else m.lookup a := by
  split_ifs with h
  · subst h
    exact AList.lookup_erase _ m
  · exact AList.lookup_erase_ne h

theorem mem_entries_iff {m : HashMap κ ν} {k : κ} {v : ν} :
    (⟨k, v⟩ : Sigma fun _ : κ => ν) ∈ m.entries ↔ m.lookup k = some v :=
  AList.mem_lookup_iff.symm

theorem mem_keys_iff {m : HashMap κ ν} {k : κ} : k ∈ m.keys ↔ ∃ v, m.lookup k = some v := by
  rw [← AList.mem_keys, ← AList.lookup_isSome, Option.isSome_iff_exists]

theorem mem_values_iff {m : HashMap κ ν} {v : ν} :
    v ∈ m.values ↔ ∃ k, m.lookup k = some v := by
  simp only [values, List.mem_map]
  constructor
  · rintro ⟨⟨k, w⟩, hm, rfl⟩
    exact ⟨k, mem_entries_iff.mp hm⟩
  · rintro ⟨k, hk⟩
    exact ⟨⟨k, v⟩, mem_entries_iff.mpr hk, rfl⟩

theorem mem_map_values_iff {α : Type*} {m : HashMap κ ν} {f : ν → α} {a : α} :
    a ∈ m.values.map f ↔ ∃ k v, m.lookup k = some v ∧ f v = a := by
  rw [List.mem_map]
  constructor
  · rintro ⟨v, hm, hv⟩
    obtain ⟨k, hk⟩ := mem_values_iff.mp hm
    exact ⟨k, v, hk, hv⟩
  · rintro ⟨k, v, hk, hv⟩
    exact ⟨v, mem_values_iff.mpr ⟨k, hk⟩, hv⟩

theorem keys_length {κ ν : Type*} (m : HashMap κ ν) : m.keys.length = m.len :=
  List.length_map _

theorem perm_filter_keys {m : HashMap κ ν} {P : κ → Bool} {ks : List κ} (nodup : ks.Nodup)
    (h : ∀ k, k ∈ ks ↔ m.lookup k ≠ none ∧ P k = true) : ks.Perm (m.keys.filter P) := by
  rw [List.perm_ext_iff_of_nodup nodup (m.keys_nodup.filter _)]
  intro k
  rw [h, List.mem_filter, mem_keys_iff, Option.ne_none_iff_exists']

theorem entries_eq_nil_iff {m : HashMap κ ν} : m.entries = [] ↔ ∀ k, m.lookup k = none := by
  constructor
  · intro h k
    rw [AList.lookup_eq_none, AList.mem_keys, AList.keys, h]
    simp
  · intro h
    refine List.eq_nil_iff_forall_not_mem.mpr ?_
    rintro ⟨k, v⟩ hm
    have hk := mem_entries_iff.mp hm
    rw [h k] at hk
    cases hk

theorem entries_perm_erase {m : HashMap κ ν} {k : κ} {v : ν} (h : m.lookup k = some v) :
    m.entries.Perm (⟨k, v⟩ :: (m.erase k).entries) := by
  have hm : (⟨k, v⟩ : Sigma fun _ : κ => ν) ∈ m.entries := mem_entries_iff.mpr h
  obtain ⟨w, l₁, l₂, hk, hs, he⟩ := List.exists_of_kerase (List.mem_keys_of_mem hm)
  have hw : w = v := by
    have hmw : (⟨k, w⟩ : Sigma fun _ : κ => ν) ∈ m.entries := by
      rw [hs]
      simp
    have hl := mem_entries_iff.mp hmw
    rw [h] at hl
    exact (Option.some.inj hl).symm
  subst hw
  have he' : (m.erase k).entries = l₁ ++ l₂ := he
  rw [he', hs]
  exact List.perm_middle

theorem values_perm_erase {m : HashMap κ ν} {k : κ} {v : ν} (h : m.lookup k = some v) :
    m.values.Perm (v :: (m.erase k).values) := by
  simpa [values] using (entries_perm_erase h).map Sigma.snd

theorem entries_insert_new {m : HashMap κ ν} {k : κ} (v : ν) (h : m.lookup k = none) :
    (m.insert k v).entries = ⟨k, v⟩ :: m.entries :=
  AList.entries_insert_of_notMem (AList.lookup_eq_none.mp h)

theorem values_insert_new {m : HashMap κ ν} {k : κ} (v : ν) (h : m.lookup k = none) :
    (m.insert k v).values = v :: m.values := by
  rw [values, entries_insert_new v h, List.map_cons, values]

theorem countP_values_insert (m : HashMap κ ν) (k : κ) (v : ν) (p : ν → Bool) :
    (m.insert k v).values.countP p + (m.lookup k).toList.countP p =
      m.values.countP p + [v].countP p := by
  have hi : (m.insert k v).values = v :: (m.erase k).values := by
    simp only [values, AList.entries_insert, List.map_cons]
    rfl
  rw [hi, List.countP_cons, List.countP_singleton]
  cases hk : m.lookup k with
  | none =>
    have he : (m.erase k).values = m.values := by
      have hn : k ∉ m.entries.keys := AList.lookup_eq_none.mp hk
      exact congrArg (List.map Sigma.snd) (List.kerase_of_notMem_keys hn)
    simp [he]
  | some w =>
    have hp := (values_perm_erase hk).countP_eq p
    rw [List.countP_cons] at hp
    simp only [Option.toList_some, List.countP_singleton]
    omega

theorem len_erase {m : HashMap κ ν} {k : κ} {v : ν} (h : m.lookup k = some v) :
    (m.erase k).len + 1 = m.len := by
  simpa [len] using (entries_perm_erase h).length_eq.symm

theorem len_insert_new {m : HashMap κ ν} {k : κ} (v : ν) (h : m.lookup k = none) :
    (m.insert k v).len = m.len + 1 := by
  rw [len, entries_insert_new v h, List.length_cons, len]

theorem len_insert_le (m : HashMap κ ν) (k : κ) (v : ν) : (m.insert k v).len ≤ m.len + 1 := by
  rw [len, AList.entries_insert, List.length_cons]
  exact Nat.add_le_add_right (List.kerase_sublist k m.entries).length_le 1

theorem keys_perm_erase {m : HashMap κ ν} {k : κ} {v : ν} (h : m.lookup k = some v) :
    m.keys.Perm (k :: (m.erase k).keys) := by
  simpa [AList.keys, List.keys] using (entries_perm_erase h).map Sigma.fst

theorem keys_insert_new {m : HashMap κ ν} {k : κ} (v : ν) (h : m.lookup k = none) :
    (m.insert k v).keys = k :: m.keys := by
  rw [AList.keys, entries_insert_new v h, List.keys_cons]
  rfl

theorem values_insert_perm {m : HashMap κ ν} {k : κ} {v : ν} (w : ν) (h : m.lookup k = some v) :
    ∃ rest, m.values.Perm (v :: rest) ∧ (m.insert k w).values.Perm (w :: rest) := by
  refine ⟨(m.erase k).values, values_perm_erase h, ?_⟩
  simp only [values, AList.entries_insert, List.map_cons]
  rfl

theorem keys_insert_perm {m : HashMap κ ν} {k : κ} {v : ν} (w : ν) (h : m.lookup k = some v) :
    (m.insert k w).keys.Perm m.keys := by
  rw [AList.keys_insert]
  exact (List.perm_cons_erase (mem_keys_iff.mpr ⟨v, h⟩)).symm

theorem len_insert_present {m : HashMap κ ν} {k : κ} {v : ν} (w : ν) (h : m.lookup k = some v) :
    (m.insert k w).len = m.len := by
  rw [← keys_length, ← keys_length]
  exact (keys_insert_perm w h).length_eq

end AList

structure OrderedMap (κ ν : Type*) [LinearOrder κ] where
  entries : List (κ × ν)
  sorted : entries.Pairwise (fun a b => a.1 < b.1)

namespace OrderedMap
variable {κ ν : Type*} [LinearOrder κ]

def empty : OrderedMap κ ν := ⟨[], .nil⟩

def find (m : OrderedMap κ ν) (k : κ) : Option ν :=
  (m.entries.find? (fun e => e.1 = k)).map Prod.snd

def insertEntry (k : κ) (v : ν) : List (κ × ν) → List (κ × ν)
  | [] => [(k, v)]
  | e :: es =>
    if k < e.1 then (k, v) :: e :: es
    else if k = e.1 then (k, v) :: es
    else e :: insertEntry k v es

theorem mem_insertEntry {k : κ} {v : ν} {es : List (κ × ν)} {e : κ × ν}
    (h : e ∈ insertEntry k v es) : e = (k, v) ∨ e ∈ es := by
  induction es with
  | nil => simpa [insertEntry] using h
  | cons a es ih =>
    simp only [insertEntry] at h
    split_ifs at h with h₁ h₂
    · simpa using h
    · rcases List.mem_cons.mp h with h | h
      · exact Or.inl h
      · exact Or.inr (List.mem_cons_of_mem _ h)
    · rcases List.mem_cons.mp h with h | h
      · exact Or.inr (h ▸ List.mem_cons_self)
      · exact (ih h).imp_right (List.mem_cons_of_mem _)

theorem insertEntry_sorted (k : κ) (v : ν) {es : List (κ × ν)}
    (h : es.Pairwise (fun a b => a.1 < b.1)) :
    (insertEntry k v es).Pairwise (fun a b => a.1 < b.1) := by
  induction es with
  | nil => simp [insertEntry]
  | cons a es ih =>
    obtain ⟨ha, hes⟩ := List.pairwise_cons.mp h
    simp only [insertEntry]
    split_ifs with h₁ h₂
    · refine List.pairwise_cons.mpr ⟨?_, h⟩
      intro e he
      rcases List.mem_cons.mp he with rfl | he
      · exact h₁
      · exact h₁.trans (ha e he)
    · exact List.pairwise_cons.mpr ⟨fun e he => by simpa [h₂] using ha e he, hes⟩
    · refine List.pairwise_cons.mpr ⟨?_, ih hes⟩
      intro e he
      rcases mem_insertEntry he with rfl | he
      · exact lt_of_le_of_ne (le_of_not_gt h₁) (Ne.symm h₂)
      · exact ha e he

def insert (m : OrderedMap κ ν) (k : κ) (v : ν) : OrderedMap κ ν :=
  ⟨insertEntry k v m.entries, insertEntry_sorted k v m.sorted⟩

def popFirst (m : OrderedMap κ ν) : Option ((κ × ν) × OrderedMap κ ν) :=
  match m with
  | ⟨[], _⟩ => none
  | ⟨e :: es, h⟩ => some (e, ⟨es, (List.pairwise_cons.mp h).2⟩)

def isEmpty (m : OrderedMap κ ν) : Bool := m.entries.isEmpty

def len (m : OrderedMap κ ν) : ℕ := m.entries.length

@[ext] theorem ext {m n : OrderedMap κ ν} (h : m.entries = n.entries) : m = n := by
  cases m
  cases n
  subst h
  rfl

@[simp] theorem find_empty (k : κ) : (empty : OrderedMap κ ν).find k = none := rfl

@[simp] theorem entries_empty : (empty : OrderedMap κ ν).entries = [] := rfl

theorem mem_entries_iff {m : OrderedMap κ ν} {k : κ} {v : ν} :
    (k, v) ∈ m.entries ↔ m.find k = some v := by
  obtain ⟨es, hs⟩ := m
  simp only [find]
  induction es with
  | nil => simp
  | cons e es ih =>
    obtain ⟨he, hes⟩ := List.pairwise_cons.mp hs
    by_cases hk : e.1 = k
    · simp only [List.mem_cons, List.find?_cons, hk, decide_true, Option.map_some,
        Option.some.injEq]
      constructor
      · rintro (h | h)
        · rw [← h]
        · exact absurd (he _ h) (by simp [hk])
      · intro h
        exact Or.inl (by rw [← hk, ← h])
    · have hne : (k, v) ≠ e := fun h => hk (by rw [← h])
      simp only [List.mem_cons, List.find?_cons, hk, decide_false, hne, false_or]
      exact ih hes

theorem find_insert (m : OrderedMap κ ν) (k a : κ) (v : ν) :
    (m.insert k v).find a = if a = k then some v else m.find a := by
  obtain ⟨es, hs⟩ := m
  simp only [find, insert]
  clear hs
  induction es with
  | nil =>
    by_cases h : a = k
    · simp [insertEntry, h]
    · simp [insertEntry, h, Ne.symm h]
  | cons e es ih =>
    simp only [insertEntry]
    by_cases hak : a = k
    · subst hak
      rw [if_pos rfl] at ih ⊢
      split_ifs with h₁ h₂
      · simp
      · simp
      · simpa [List.find?_cons, Ne.symm h₂] using ih
    · rw [if_neg hak] at ih ⊢
      split_ifs with h₁ h₂
      · simp [List.find?_cons, Ne.symm hak]
      · simp [Ne.symm hak, ← h₂]
      · by_cases he : e.1 = a
        · simp [he]
        · simpa [List.find?_cons, he] using ih

theorem popFirst_eq_none_iff {m : OrderedMap κ ν} : m.popFirst = none ↔ m.entries = [] := by
  obtain ⟨es, hs⟩ := m
  cases es <;> simp [popFirst]

theorem entries_of_popFirst {m rest : OrderedMap κ ν} {e : κ × ν}
    (h : m.popFirst = some (e, rest)) : m.entries = e :: rest.entries := by
  obtain ⟨es, hs⟩ := m
  cases es with
  | nil => simp [popFirst] at h
  | cons a es =>
    simp only [popFirst, Option.some.injEq, Prod.mk.injEq] at h
    obtain ⟨rfl, rfl⟩ := h
    rfl

theorem find_of_popFirst {m rest : OrderedMap κ ν} {k : κ} {v : ν}
    (h : m.popFirst = some ((k, v), rest)) : m.find k = some v := by
  rw [← mem_entries_iff, entries_of_popFirst h]
  exact List.mem_cons_self

theorem find_popFirst_rest {m rest : OrderedMap κ ν} {k : κ} {v : ν}
    (h : m.popFirst = some ((k, v), rest)) (a : κ) :
    rest.find a = if a = k then none else m.find a := by
  have he := entries_of_popFirst h
  have hs := m.sorted
  rw [he] at hs
  obtain ⟨hk, -⟩ := List.pairwise_cons.mp hs
  split_ifs with ha
  · subst ha
    refine Option.eq_none_iff_forall_ne_some.mpr ?_
    intro w hw
    exact lt_irrefl a (hk (a, w) (mem_entries_iff.mpr hw))
  · refine Option.ext fun w => ?_
    rw [← mem_entries_iff, ← mem_entries_iff, he, List.mem_cons]
    constructor
    · exact Or.inr
    · rintro (hw | hw)
      · exact absurd (congrArg Prod.fst hw) ha
      · exact hw

theorem entries_insert_above {m : OrderedMap κ ν} {k : κ} (v : ν)
    (h : ∀ e ∈ m.entries, e.1 < k) : (m.insert k v).entries = m.entries ++ [(k, v)] := by
  obtain ⟨es, hs⟩ := m
  simp only [insert] at h ⊢
  clear hs
  induction es with
  | nil => rfl
  | cons e es ih =>
    have he := h e List.mem_cons_self
    simp only [insertEntry, not_lt_of_gt he, he.ne', if_false, List.cons_append]
    rw [ih fun a ha => h a (List.mem_cons_of_mem _ ha)]

theorem entries_insert_below {m : OrderedMap κ ν} {k : κ} (v : ν)
    (h : ∀ e ∈ m.entries, k < e.1) : (m.insert k v).entries = (k, v) :: m.entries := by
  obtain ⟨es, hs⟩ := m
  cases es with
  | nil => rfl
  | cons e es => simp [insert, insertEntry, h e List.mem_cons_self]

end OrderedMap
