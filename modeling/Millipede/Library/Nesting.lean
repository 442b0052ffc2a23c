import Mathlib.Data.List.Basic

/-!
# Tags and nesting

A sequence of start tags, end tags and leaves is well nested if a stack of open names accepts
it, and then it is the text of a forest.
-/

inductive Token (ν α : Type*) where
  | start (name : ν)
  | stop (name : ν)
  | leaf (a : α)

inductive Forest (ν α : Type*) where
  | nil
  | leaf (a : α) (rest : Forest ν α)
  | node (name : ν) (inner rest : Forest ν α)

namespace Forest

variable {ν α : Type*}

def flatten : Forest ν α → List (Token ν α)
  | nil => []
  | leaf a rest => .leaf a :: rest.flatten
  | node name inner rest => .start name :: (inner.flatten ++ .stop name :: rest.flatten)

def direct : Forest ν α → List α
  | nil => []
  | leaf a rest => a :: rest.direct
  | node _ _ rest => rest.direct

def within (p : ν → Bool) : Forest ν α → List α
  | nil => []
  | leaf _ rest => rest.within p
  | node name inner rest => if p name then inner.direct ++ rest.within p else rest.within p

end Forest

namespace Token

variable {ν α : Type*}

/-- The names that stay open; an end tag closes the innermost one, which has its name. -/
def nest [DecidableEq ν] : List ν → List (Token ν α) → Option (List ν)
  | names, [] => some names
  | names, start name :: rest => nest (name :: names) rest
  | names, leaf _ :: rest => nest names rest
  | [], stop _ :: _ => none
  | other :: names, stop name :: rest => if other = name then nest names rest else none

inductive Closes : List ν → List (Token ν α) → Prop where
  | all (forest : Forest ν α) : Closes [] forest.flatten
  | one (name : ν) (forest : Forest ν α) {names : List ν} {rest : List (Token ν α)} :
      Closes names rest → Closes (name :: names) (forest.flatten ++ stop name :: rest)

variable {names : List ν} {tokens : List (Token ν α)} {name : ν} {a : α}

theorem Closes.leaf (h : Closes names tokens) : Closes names (leaf a :: tokens) := by
  cases h with
  | all forest => exact .all (.leaf a forest)
  | one name forest h => exact .one name (.leaf a forest) h

theorem Closes.start (h : Closes (name :: names) tokens) : Closes names (start name :: tokens) := by
  cases h with
  | one _ inner h =>
    cases h with
    | all rest => exact .all (.node name inner rest)
    | one other rest h =>
      have hone := Closes.one other (.node name inner rest) h
      simpa [Forest.flatten] using hone

variable [DecidableEq ν]

theorem nest_flatten (forest : Forest ν α) (names : List ν) (rest : List (Token ν α)) :
    nest names (forest.flatten ++ rest) = nest names rest := by
  induction forest generalizing names rest with
  | nil => rfl
  | leaf a forest ih => exact ih names rest
  | node name inner forest ihinner ih =>
    simp only [Forest.flatten, List.cons_append, List.append_assoc, nest, ihinner, if_true, ih]

theorem closes_of_nest (h : nest names tokens = some []) : Closes names tokens := by
  induction tokens generalizing names with
  | nil =>
    cases h
    exact .all .nil
  | cons token rest ih =>
    cases token with
    | start name => exact (ih h).start
    | leaf a =>
      simp only [nest] at h
      exact (ih h).leaf
    | stop name =>
      cases names with
      | nil => cases h
      | cons other names =>
        simp only [nest] at h
        split_ifs at h with hname
        subst hname
        exact .one other .nil (ih h)

theorem nest_eq_nil_iff :
    nest [] tokens = some [] ↔ ∃ forest : Forest ν α, forest.flatten = tokens := by
  constructor
  · intro h
    cases closes_of_nest h with
    | all forest => exact ⟨forest, rfl⟩
  · rintro ⟨forest, rfl⟩
    have h := nest_flatten forest [] []
    rwa [List.append_nil] at h

end Token
