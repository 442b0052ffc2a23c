import Mathlib.Data.List.Basic

/-!
# Deques and turns

A deque with what has been taken from its front so far. The second part is about lists
whose members take turns: the first one is served and may join again at the end.
-/

inductive DequeOp (α : Type*) where
  | pushBack (a : α)
  | pushFront (a : α)
  | popFront
  deriving Repr

structure Deque (α : Type*) where
  waiting : List α := []
  taken : List α := []
  deriving Repr

namespace Deque
variable {α : Type*}

def apply (q : Deque α) : DequeOp α → Deque α
  | .pushBack a => { q with waiting := q.waiting ++ [a] }
  | .pushFront a => { q with waiting := a :: q.waiting }
  | .popFront => { waiting := q.waiting.tail, taken := q.taken ++ q.waiting.head?.toList }

def after (ops : List (DequeOp α)) : Deque α := ops.foldl apply {}

end Deque

namespace List
variable {α : Type*}

/-- The turn of `b` comes before the next one of `a`. -/
def Ahead (b a : α) (l : List α) : Prop := ∃ front back, l = front ++ b :: back ∧ a ∉ front

variable {a b c : α} {l : List α}

theorem ahead_of_not_mem (hb : b ∈ l) (ha : a ∉ l) : Ahead b a l := by
  obtain ⟨front, back, rfl⟩ := append_of_mem hb
  exact ⟨front, back, rfl, fun h => ha (mem_append_left _ h)⟩

theorem Ahead.mem (h : Ahead b a l) : b ∈ l := by
  obtain ⟨front, back, rfl, -⟩ := h
  simp

theorem Ahead.append (h : Ahead b a l) (l' : List α) : Ahead b a (l ++ l') := by
  obtain ⟨front, back, rfl, hfront⟩ := h
  exact ⟨front, back ++ l', by simp, hfront⟩

theorem Ahead.tail (h : Ahead b a (c :: l)) (hc : c ≠ b) : Ahead b a l := by
  obtain ⟨front, back, heq, hfront⟩ := h
  cases front with
  | nil => exact absurd (cons.inj heq).1 hc
  | cons d front =>
    obtain ⟨-, rfl⟩ := cons.inj heq
    exact ⟨front, back, rfl, fun h => hfront (mem_cons_of_mem _ h)⟩

theorem Ahead.head_ne (h : Ahead b a (c :: l)) (hab : a ≠ b) : c ≠ a := by
  obtain ⟨front, back, heq, hfront⟩ := h
  cases front with
  | nil => exact fun hca => hab (hca ▸ (cons.inj heq).1)
  | cons d front =>
    rintro rfl
    exact hfront ((cons.inj heq).1 ▸ mem_cons_self)

end List
