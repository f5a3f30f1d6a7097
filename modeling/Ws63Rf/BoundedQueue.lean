import Ws63Rf.LapCounter
import Mathlib.Data.List.Basic
import Mathlib.Logic.Function.Basic

/-! A queue of bounded length as a machine that answers requests, what its
answers say about the order of the elements, and the slots of a ring read as
such a queue. -/
namespace Ws63Rf.BoundedQueue

/-! ## Machines that answer -/

section Machines
variable {σ τ ι ο : Type}

/-- The answers to these requests, in order. -/
def answers (step : σ → ι → ο × σ) : σ → List ι → List ο
  | _, [] => []
  | state, request :: requests =>
    (step state request).1 :: answers step (step state request).2 requests

/-- The state behind these requests. -/
def behind (step : σ → ι → ο × σ) (state : σ) (requests : List ι) : σ :=
  requests.foldl (fun state request => (step state request).2) state

/-- A machine whose steps answer as those of another, and keep to it, answers
every run as it does. -/
theorem answers_eq_of_simulation {κ : Type} {step : σ → ι → ο × σ} {step' : τ → κ → ο × τ}
    {translate : ι → κ} (Related : σ → τ → Prop)
    (simulates : ∀ {state state'}, Related state state' → ∀ request,
      (step state request).1 = (step' state' (translate request)).1 ∧
        Related (step state request).2 (step' state' (translate request)).2)
    (requests : List ι) {state : σ} {state' : τ} (related : Related state state') :
    answers step state requests = answers step' state' (requests.map translate) := by
  induction requests generalizing state state' with
  | nil => rfl
  | cons request requests ih =>
    obtain ⟨same, next⟩ := simulates related request
    rw [List.map_cons, answers, answers, same, ih next]

end Machines

/-! ## Queues -/

section Queues
variable {α : Type}

inductive Request (α : Type) where
  | push (element : α)
  | pop
  deriving DecidableEq

inductive Answer (α : Type) where
  | refused
  | taken
  | delivered (element : α)
  deriving DecidableEq

/-- A push to a full queue and a pop from an empty one are refused. -/
def step (capacity : Nat) (queue : List α) : Request α → Answer α × List α
  | .push element =>
    if queue.length < capacity then (.taken, queue ++ [element]) else (.refused, queue)
  | .pop =>
    match queue with
    | [] => (.refused, [])
    | element :: queue => (.delivered element, queue)

/-- The elements whose pushes were taken. -/
def accepted : List (Request α) → List (Answer α) → List α
  | .push element :: requests, .taken :: answered => element :: accepted requests answered
  | _ :: requests, _ :: answered => accepted requests answered
  | _, _ => []

def delivered (answered : List (Answer α)) : List α :=
  answered.filterMap fun
    | .delivered element => some element
    | _ => none

theorem length_step_le (capacity : Nat) {queue : List α} (bounded : queue.length ≤ capacity)
    (request : Request α) : (step capacity queue request).2.length ≤ capacity := by
  cases request with
  | push element =>
    simp only [step]
    split
    · rename_i room
      rw [List.length_append]
      exact room
    · exact bounded
  | pop =>
    cases queue with
    | nil => exact bounded
    | cons first queue => exact Nat.le_of_succ_le bounded

theorem length_behind_le (capacity : Nat) {queue : List α} (bounded : queue.length ≤ capacity)
    (requests : List (Request α)) : (behind (step capacity) queue requests).length ≤ capacity := by
  induction requests generalizing queue with
  | nil => exact bounded
  | cons request requests ih => exact ih (length_step_le capacity bounded request)

/-- What was in the queue and what was taken since is delivered in that order;
what is not yet delivered is still there. -/
theorem delivered_append_behind (capacity : Nat) (queue : List α) (requests : List (Request α)) :
    let answered := answers (step capacity) queue requests
    delivered answered ++ behind (step capacity) queue requests =
      queue ++ accepted requests answered := by
  induction requests generalizing queue with
  | nil => simp [answers, behind, delivered, accepted]
  | cons request requests ih =>
    have later := ih (step capacity queue request).2
    dsimp only at later ⊢
    cases request with
    | push element =>
      simp only [step] at later
      by_cases room : queue.length < capacity
      · rw [if_pos room] at later
        simp only [answers, step, if_pos room]
        simpa [delivered, accepted, behind, step, room] using later
      · rw [if_neg room] at later
        simp only [answers, step, if_neg room]
        simpa [delivered, accepted, behind, step, room] using later
    | pop =>
      cases queue with
      | nil => simpa [answers, delivered, accepted, behind, step] using later
      | cons first queue => simpa [answers, delivered, accepted, behind, step] using later

end Queues

/-! ## The slots of a ring -/

section Slots
open LapCounter
variable {α : Type} {depth first last : Nat}

/-- The slots that the counts from `first` up to `last` stand for, in order. -/
def between (depth : Nat) (slots : Nat → α) (first last : Nat) : List α :=
  (List.range' first (last - first)).map fun n => slots (position depth n)

@[simp] theorem length_between (slots : Nat → α) :
    (between depth slots first last).length = last - first := by
  simp [between]

/-- Only the slots of the ring matter. -/
theorem between_congr {slots slots' : Nat → α} (positive : 0 < depth)
    (same : ∀ i < depth, slots i = slots' i) :
    between depth slots first last = between depth slots' first last :=
  List.map_congr_left fun n _ => same _ (position_lt positive n)

/-- Counts less than a lap apart stand for different slots. -/
theorem position_ne (before : first < last) (near : last < first + depth) :
    position depth first ≠ position depth last := by
  have positive : 0 < depth := by omega
  intro same
  rcases lap_cases positive (Nat.le_of_lt before) (Nat.le_of_lt near) with ⟨-, place⟩ | ⟨-, place⟩
  · omega
  · omega

/-- A store to the free slot behind the last appends. -/
theorem between_push (slots : Nat → α) (ordered : first ≤ last) (room : last < first + depth)
    (element : α) :
    between depth (Function.update slots (position depth last) element) first (last + 1) =
      between depth slots first last ++ [element] := by
  have count : last + 1 - first = (last - first) + 1 := by omega
  have place : first + (last - first) = last := by omega
  rw [between, count, List.range'_1_concat, List.map_append, place]
  congr 1
  · apply List.map_congr_left
    intro n member
    have inside := List.mem_range'_1.mp member
    exact Function.update_of_ne (position_ne (by omega) (by omega)) _ _
  · simp

/-- The first slot and the ones behind it. -/
theorem between_pop (slots : Nat → α) (filled : first < last) :
    between depth slots first last =
      slots (position depth first) :: between depth slots (first + 1) last := by
  have count : last - first = (last - (first + 1)) + 1 := by omega
  rw [between, count, List.range'_succ]
  rfl

end Slots

end Ws63Rf.BoundedQueue
