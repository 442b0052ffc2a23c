import Mathlib.Data.List.Sort
import Mathlib.Order.Lattice

/-!
# Pages of a sorted collection

A page holds the first items after an exclusive cursor, and the cursor of the next page where
items are left. A listing follows the cursors to a page with none. The collection may change
between two pages: what is there all the time is still listed once.
-/

namespace Paging
variable {α κ : Type*} [LinearOrder κ]

structure Page (α κ : Type*) where
  items : List α
  truncated : Bool
  next : Option κ

section Pages
variable (key : α → κ)

def after (start : Option κ) (items : List α) : List α :=
  items.filter fun a => start.all fun k => decide (k < key a)

def page (limit : ℕ) (start : Option κ) (items : List α) : Page α κ :=
  let selected := (after key start items).take limit
  let truncated := !((after key start items).drop limit).isEmpty
  { items := selected
    truncated
    next := if truncated then selected.getLast?.map key else none }

/-- The calls of a listing from a cursor on, each with the collection that it found. -/
inductive Listed {σ : Type*} (page : σ → Option κ → Page α κ) :
    Option κ → List (σ × Page α κ) → Prop
  | last {s : σ} {start : Option κ} (hend : (page s start).truncated = false) :
      Listed page start [(s, page s start)]
  | more {s : σ} {start : Option κ} {calls : List (σ × Page α κ)}
      (hmore : (page s start).truncated = true) (h : Listed page (page s start).next calls) :
      Listed page start ((s, page s start) :: calls)

def listed {σ : Type*} (calls : List (σ × Page α κ)) : List α := calls.flatMap fun c => c.2.items

def Ascending (items : List α) : Prop := items.Pairwise fun a b => key a < key b

end Pages

variable {key : α → κ} {limit : ℕ} {start : Option κ} {items : List α}

theorem mem_after {a : α} : a ∈ after key start items ↔ a ∈ items ∧ ∀ k ∈ start, k < key a := by
  simp [after, Option.all_eq_true]

theorem Ascending.after (h : Ascending key items) : Ascending key (after key start items) :=
  List.Pairwise.filter _ h

theorem Ascending.nodup (h : Ascending key items) : (items.map key).Nodup :=
  List.pairwise_map.mpr (h.imp ne_of_lt)

theorem after_map {β : Type*} (f : β → α) (start : Option κ) (items : List β) :
    after key start (items.map f) = (after (key ∘ f) start items).map f := by
  rw [after, List.filter_map]
  rfl

theorem page_map {β : Type*} (f : β → α) (limit : ℕ) (start : Option κ) (items : List β) :
    page key limit start (items.map f) =
      ⟨(page (key ∘ f) limit start items).items.map f,
        (page (key ∘ f) limit start items).truncated,
        (page (key ∘ f) limit start items).next⟩ := by
  simp only [page, after_map, ← List.map_take, ← List.map_drop, List.isEmpty_map,
    List.getLast?_map, Option.map_map]

theorem page_truncated :
    (page key limit start items).truncated = true ↔
      (after key start items).drop limit ≠ [] := by
  simp [page]

theorem page_items_of_end (h : (page key limit start items).truncated = false) :
    (page key limit start items).items = after key start items := by
  have hnil : (after key start items).drop limit = [] := by simpa [page] using h
  exact List.take_of_length_le (List.drop_eq_nil_iff.mp hnil)

theorem page_next (hlimit : 1 ≤ limit) (h : (page key limit start items).truncated = true) :
    ∃ init last, (page key limit start items).items = init ++ [last] ∧
      (page key limit start items).next = some (key last) := by
  have hne : (after key start items).take limit ≠ [] := by
    intro hnil
    rcases List.take_eq_nil_iff.mp hnil with hzero | hempty
    · omega
    · apply page_truncated.mp h
      rw [hempty, List.drop_nil]
  refine ⟨_, _, (List.dropLast_append_getLast hne).symm, ?_⟩
  have hnext : (page key limit start items).next =
      if (page key limit start items).truncated then
        ((after key start items).take limit).getLast?.map key else none := rfl
  rw [hnext, if_pos h, List.getLast?_eq_getLast_of_ne_nil hne]
  rfl

theorem filter_above_last {init rest : List α} {last : α}
    (h : Ascending key (init ++ [last] ++ rest)) :
    (init ++ [last] ++ rest).filter (fun a => decide (key last < key a)) = rest := by
  obtain ⟨hfirst, -, hcross⟩ := List.pairwise_append.mp h
  obtain ⟨-, -, hinit⟩ := List.pairwise_append.mp hfirst
  have hnone : (init ++ [last]).filter (fun a => decide (key last < key a)) = [] := by
    rw [List.filter_eq_nil_iff]
    intro a ha
    rcases List.mem_append.mp ha with hold | hlast
    · simpa using (hinit a hold last List.mem_cons_self).le
    · simp [List.mem_singleton.mp hlast]
  have hall : rest.filter (fun a => decide (key last < key a)) = rest := by
    rw [List.filter_eq_self]
    intro a ha
    exact decide_eq_true (hcross last (by simp) a ha)
  rw [List.filter_append, hnone, hall, List.nil_append]

theorem after_next (hsorted : Ascending key items) (hlimit : 1 ≤ limit)
    (h : (page key limit start items).truncated = true) :
    after key (page key limit start items).next items =
      (after key start items).drop limit := by
  obtain ⟨init, last, hitems, hnext⟩ := page_next hlimit h
  have hsplit : init ++ [last] ++ (after key start items).drop limit = after key start items := by
    rw [← hitems]
    exact List.take_append_drop limit _
  have hlast : last ∈ after key start items := by
    rw [← hsplit]
    simp
  -- what comes after the new cursor comes after the old one
  have hagain : after key (some (key last)) items =
      (after key start items).filter fun a => decide (key last < key a) := by
    rw [after, after, List.filter_filter]
    refine List.filter_congr fun a _ => ?_
    cases hstart : start with
    | none => simp
    | some k =>
      have hk : k < key last := (mem_after.mp hlast).2 k hstart
      by_cases hlt : key last < key a
      · simp [hlt, hk.trans hlt]
      · simp [hlt]
  have hascending : Ascending key (after key start items) := hsorted.after
  rw [← hsplit] at hascending
  rw [hnext, hagain, ← hsplit, filter_above_last hascending, hsplit]

section Listings
variable {σ : Type*} {pageOf : σ → Option κ → Page α κ} {contents : σ → List α}
  {calls : List (σ × Page α κ)}

theorem Listed.ascending (h : Listed pageOf start calls) (hlimit : 1 ≤ limit)
    (hpage : ∀ s start, pageOf s start = page key limit start (contents s))
    (hsorted : ∀ s, Ascending key (contents s)) :
    Ascending key (listed calls) ∧ ∀ a ∈ listed calls, ∀ k ∈ start, k < key a := by
  have hafter : ∀ s start, ∀ a ∈ (pageOf s start).items, a ∈ after key start (contents s) := by
    intro s start a ha
    rw [hpage] at ha
    exact List.mem_of_mem_take ha
  have hitems : ∀ s start, Ascending key (pageOf s start).items := by
    intro s start
    rw [hpage]
    exact (hsorted s).after.sublist (List.take_sublist ..)
  induction h with
  | @last s start hend =>
    simp only [listed, List.flatMap_cons, List.flatMap_nil, List.append_nil]
    exact ⟨hitems s start, fun a ha => (mem_after.mp (hafter s start a ha)).2⟩
  | @more s start calls hmore h ih =>
    obtain ⟨hrest, habove⟩ := ih
    have hmore' : (page key limit start (contents s)).truncated = true := by
      rw [← hpage]
      exact hmore
    obtain ⟨init, last, hinit, hnext⟩ := page_next hlimit hmore'
    rw [← hpage] at hinit hnext
    have hlast : last ∈ after key start (contents s) := hafter s start last (by simp [hinit])
    have hcross : ∀ a ∈ listed calls, key last < key a := fun a ha =>
      habove a ha (key last) hnext
    simp only [listed, List.flatMap_cons]
    refine ⟨List.pairwise_append.mpr ⟨hitems s start, hrest, ?_⟩, ?_⟩
    · intro a ha b hb
      rw [hinit] at ha
      rcases List.mem_append.mp ha with hold | hnew
      · have hpair := hitems s start
        rw [hinit] at hpair
        have hlt := (List.pairwise_append.mp hpair).2.2 a hold last List.mem_cons_self
        exact hlt.trans (hcross b hb)
      · rw [List.mem_singleton.mp hnew]
        exact hcross b hb
    · intro a ha k hk
      rcases List.mem_append.mp ha with hold | hnew
      · exact (mem_after.mp (hafter s start a hold)).2 k hk
      · exact ((mem_after.mp hlast).2 k hk).trans (hcross a hnew)

theorem Listed.mem (h : Listed pageOf start calls) (hlimit : 1 ≤ limit)
    (hpage : ∀ s start, pageOf s start = page key limit start (contents s))
    (hsorted : ∀ s, Ascending key (contents s)) {k : κ} (hstart : ∀ first ∈ start, first < k)
    (hpresent : ∀ c ∈ calls, k ∈ (contents c.1).map key) : k ∈ (listed calls).map key := by
  induction h with
  | @last s start hend =>
    simp only [listed, List.flatMap_cons, List.flatMap_nil, List.append_nil]
    rw [hpage] at hend ⊢
    obtain ⟨a, ha, rfl⟩ := List.mem_map.mp (hpresent _ List.mem_cons_self)
    rw [page_items_of_end hend]
    exact List.mem_map_of_mem (mem_after.mpr ⟨ha, hstart⟩)
  | @more s start calls hmore h ih =>
    simp only [listed, List.flatMap_cons, List.map_append, List.mem_append]
    obtain ⟨a, ha, rfl⟩ := List.mem_map.mp (hpresent _ List.mem_cons_self)
    have hafter := mem_after.mpr ⟨ha, hstart⟩
    rw [hpage] at hmore
    have hleft := after_next (hsorted s) hlimit hmore
    rw [← List.take_append_drop limit (after key start (contents s))] at hafter
    rcases List.mem_append.mp hafter with htaken | hdropped
    · left
      rw [hpage]
      exact List.mem_map_of_mem htaken
    · right
      rw [← hleft, ← hpage] at hdropped
      exact ih (mem_after.mp hdropped).2 fun c hc => hpresent c (List.mem_cons_of_mem _ hc)

theorem exists_listed (s : σ) (start : Option κ) (hlimit : 1 ≤ limit)
    (hpage : ∀ start, pageOf s start = page key limit start (contents s))
    (hsorted : Ascending key (contents s)) :
    ∃ calls, Listed pageOf start calls ∧ (∀ c ∈ calls, c.1 = s) ∧
      listed calls = after key start (contents s) := by
  induction hn : (after key start (contents s)).length using Nat.strong_induction_on
    generalizing start with
  | _ n ih =>
    by_cases hmore : (pageOf s start).truncated = true
    · have hmore' := hmore
      rw [hpage] at hmore'
      have hleft := after_next hsorted hlimit hmore'
      have hne := page_truncated.mp hmore'
      have hfewer : (after key (pageOf s start).next (contents s)).length < n := by
        rw [hpage, hleft, List.length_drop, hn]
        have : (after key start (contents s)).length ≠ 0 := by
          intro hzero
          rw [List.length_eq_zero_iff.mp hzero, List.drop_nil] at hne
          exact hne rfl
        omega
      obtain ⟨calls, hlisted, hsame, hitems⟩ := ih _ hfewer _ rfl
      refine ⟨_, .more hmore hlisted, ?_, ?_⟩
      · intro c hc
        rcases List.mem_cons.mp hc with rfl | hrest
        · rfl
        · exact hsame c hrest
      · rw [listed, List.flatMap_cons]
        show (pageOf s start).items ++ listed calls = _
        rw [hitems, hpage, hleft]
        exact List.take_append_drop limit _
    · have hend : (pageOf s start).truncated = false := Bool.eq_false_of_not_eq_true hmore
      refine ⟨_, .last hend, ?_, ?_⟩
      · intro c hc
        rw [List.mem_singleton.mp hc]
      · simp only [listed, List.flatMap_cons, List.flatMap_nil, List.append_nil]
        rw [hpage] at hend ⊢
        exact page_items_of_end hend

end Listings

end Paging
