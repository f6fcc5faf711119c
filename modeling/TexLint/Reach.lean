/-!
# Reachability by depth-first search

What can be reached from a start by following steps, in the order in which a
depth-first search meets it.

## The model

* A `Search` knows the elements that have not been met yet, those that have, and those
  whose steps are still to be followed, the next one first.
* An element that is met leaves the first list and enters the other two, so the first
  and the last together never grow, and each round follows one element: the search ends
  (`Search.size`).
-/

namespace TexLint

/-- A depth-first search under way. -/
structure Search (α : Type) where
  /-- The elements that have not been met. -/
  unmet : List α
  /-- The elements that have been met, in order. -/
  met : List α
  /-- The elements whose steps are still to be followed. -/
  stack : List α

namespace Search

variable {α : Type} [BEq α] [LawfulBEq α]

/-- How many rounds a search can still take. -/
def size (s : Search α) : Nat := s.stack.length + s.unmet.length

/-- Meets an element. One that has been met before, or is out of bounds, changes
nothing. -/
def meet (s : Search α) (x : α) : Search α :=
  if x ∈ s.unmet then ⟨s.unmet.erase x, s.met ++ [x], x :: s.stack⟩ else s

theorem size_meet (s : Search α) (x : α) : (s.meet x).size = s.size := by
  unfold meet
  split
  · next h =>
    have := List.length_pos_of_mem h
    simp only [size, List.length_cons, List.length_erase_of_mem h]
    omega
  · rfl

theorem size_foldl_meet (s : Search α) (xs : List α) : (xs.foldl meet s).size = s.size := by
  induction xs generalizing s with
  | nil => rfl
  | cons x xs ih => rw [List.foldl_cons, ih, size_meet]

/-- Follows all steps: the elements met, in order. -/
def run (next : α → List α) (s : Search α) : List α :=
  match _h : s.stack with
  | [] => s.met
  | x :: rest => run next ((next x).foldl meet { s with stack := rest })
termination_by s.size
decreasing_by
  rw [size_foldl_meet]
  simp [size, _h]

end Search

/-- The elements of `bound` that can be reached from `start` in one or more steps through
elements of `bound`, `start` itself left out. -/
def reachable {α : Type} [BEq α] [LawfulBEq α] (bound : List α) (next : α → List α)
    (start : α) : List α :=
  Search.run next ⟨bound.filter (· != start), [], [start]⟩

end TexLint
