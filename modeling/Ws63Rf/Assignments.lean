import Mathlib.Data.List.Pairwise

/-! Stores that assign values to some of their places and keep the others. A
run of such steps leaves in each place what was assigned to it last, and steps
that share no place may be run in any order. -/
namespace Ws63Rf.Assignments

variable {Place Val : Type}

/-- What a step assigns, at the places it assigns to. -/
def Assignment (Place Val : Type) := Place → Option Val

def Assignment.apply (step : Assignment Place Val) (store : Place → Val) : Place → Val :=
  fun place => (step place).getD (store place)

/-- The store after these steps, first to last. -/
def settled (steps : List (Assignment Place Val)) (store : Place → Val) : Place → Val :=
  steps.foldl (fun store step => step.apply store) store

/-- What was assigned last stays. -/
theorem settled_eq (steps : List (Assignment Place Val)) (store : Place → Val) (place : Place) :
    settled steps store place = (steps.reverse.findSome? (· place)).getD (store place) := by
  induction steps generalizing store with
  | nil => rfl
  | cons step steps ih =>
    have shown := ih (step.apply store)
    rw [settled, List.foldl_cons]
    rw [settled] at shown
    rw [shown, List.reverse_cons, List.findSome?_append]
    cases steps.reverse.findSome? (· place) with
    | none => simp [Assignment.apply]
    | some value => rfl

/-- Neither step assigns to a place of the other. -/
def Apart (first second : Assignment Place Val) : Prop :=
  ∀ place, first place = none ∨ second place = none

instance : Std.Symm (@Apart Place Val) where
  symm _ _ apart place := (apart place).symm

theorem Apart.swap {first second : Assignment Place Val} (apart : Apart first second)
    (store : Place → Val) : second.apply (first.apply store) = first.apply (second.apply store) := by
  funext place
  rcases apart place with untouched | untouched <;> simp [Assignment.apply, untouched]

/-- Steps that share no place settle to the same store in every order. -/
theorem settled_perm {steps steps' : List (Assignment Place Val)} (apart : steps.Pairwise Apart)
    (reordered : steps.Perm steps') (store : Place → Val) :
    settled steps store = settled steps' store := by
  apply reordered.foldl_eq'
  intro first member second member' store
  by_cases same : first = second
  · rw [same]
  · exact (apart.forall member member' same).swap store

end Ws63Rf.Assignments
