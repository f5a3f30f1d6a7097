import Mathlib.Algebra.Order.Group.Nat
import Mathlib.Tactic.Ring

/-! Counters that run round a ring of some depth and are kept as a position and
the parity of the laps completed. Of two such counters at most one lap apart,
that is enough to tell the distance between them. -/
namespace Ws63Rf.LapCounter

/-- The place on the ring after this many steps. -/
def position (depth n : Nat) : Nat := n % depth

/-- An odd number of laps has been completed. -/
def oddLap (depth n : Nat) : Bool := decide (n / depth % 2 = 1)

variable {depth n k behind ahead : Nat}

theorem position_lt (positive : 0 < depth) (n : Nat) : position depth n < depth :=
  Nat.mod_lt n positive

/-- Steps that end before the lap does only move the position. -/
theorem ahead_within (fits : position depth n + k < depth) :
    position depth (n + k) = position depth n + k ∧ oddLap depth (n + k) = oddLap depth n := by
  have positive : 0 < depth := Nat.zero_lt_of_lt fits
  have split : n + k = position depth n + k + depth * (n / depth) := by
    have whole := Nat.mod_add_div n depth
    unfold position
    omega
  have lap : (n + k) / depth = n / depth := by
    rw [split, Nat.add_mul_div_left _ _ positive, Nat.div_eq_of_lt fits, Nat.zero_add]
  constructor
  · unfold position at *
    rw [split, Nat.add_mul_mod_self_left, Nat.mod_eq_of_lt fits]
  · simp only [oddLap, lap]

/-- Steps that end in the next lap come out one depth lower, with the other parity. -/
theorem ahead_past (near : k ≤ depth) (passes : depth ≤ position depth n + k)
    (positive : 0 < depth) :
    position depth (n + k) = position depth n + k - depth ∧
      oddLap depth (n + k) = !oddLap depth n := by
  have bound := position_lt positive n
  have small : position depth n + k - depth < depth := by omega
  have split : n + k = position depth n + k - depth + depth * (n / depth + 1) := by
    have whole := Nat.mod_add_div n depth
    have next : depth * (n / depth + 1) = depth * (n / depth) + depth := by ring
    unfold position at *
    omega
  have lap : (n + k) / depth = n / depth + 1 := by
    rw [split, Nat.add_mul_div_left _ _ positive, Nat.div_eq_of_lt small, Nat.zero_add]
  constructor
  · unfold position at *
    rw [split, Nat.add_mul_mod_self_left, Nat.mod_eq_of_lt small]
  · have parity : (n / depth + 1) % 2 = 1 ↔ ¬ n / depth % 2 = 1 := by omega
    simp only [oddLap, lap, parity, decide_not]

/-- One step moves on, or starts the next lap on reaching the depth. -/
theorem step_next (positive : 0 < depth) (n : Nat) :
    position depth (n + 1) =
        (if position depth n + 1 = depth then 0 else position depth n + 1) ∧
      oddLap depth (n + 1) =
        (if position depth n + 1 = depth then !oddLap depth n else oddLap depth n) := by
  have bound := position_lt positive n
  by_cases last : position depth n + 1 = depth
  · obtain ⟨place, lap⟩ := ahead_past (n := n) (k := 1) positive (by omega) positive
    simp only [if_pos last]
    exact ⟨by omega, lap⟩
  · simp only [if_neg last]
    exact ahead_within (by omega)

/-! ## Two counters at most one lap apart -/

/-- Either both are on one lap, the later one further along, or the later one
is on the next lap and no further along. -/
theorem lap_cases (positive : 0 < depth) (ordered : behind ≤ ahead)
    (bounded : ahead ≤ behind + depth) :
    (oddLap depth ahead = oddLap depth behind ∧
      position depth ahead + behind = position depth behind + ahead) ∨
    (oddLap depth ahead = (!oddLap depth behind) ∧
      position depth ahead + depth + behind = position depth behind + ahead) := by
  obtain ⟨k, rfl⟩ := Nat.exists_eq_add_of_le ordered
  have near : k ≤ depth := by omega
  by_cases fits : position depth behind + k < depth
  · obtain ⟨place, lap⟩ := ahead_within fits
    exact .inl ⟨lap, by omega⟩
  · have passes : depth ≤ position depth behind + k := Nat.le_of_not_lt fits
    obtain ⟨place, lap⟩ := ahead_past near passes positive
    exact .inr ⟨lap, by omega⟩

theorem same_iff (positive : 0 < depth) (ordered : behind ≤ ahead)
    (bounded : ahead ≤ behind + depth) :
    position depth behind = position depth ahead ∧ oddLap depth behind = oddLap depth ahead ↔
      ahead = behind := by
  have bound := position_lt positive behind
  rcases lap_cases positive ordered bounded with ⟨lap, place⟩ | ⟨lap, place⟩
  · rw [lap]
    constructor
    · rintro ⟨same, -⟩
      omega
    · intro same
      exact ⟨by omega, rfl⟩
  · rw [lap]
    constructor
    · rintro ⟨-, same⟩
      simp at same
    · intro same
      have upper := position_lt positive ahead
      omega

theorem lapped_iff (positive : 0 < depth) (ordered : behind ≤ ahead)
    (bounded : ahead ≤ behind + depth) :
    position depth behind = position depth ahead ∧ oddLap depth behind ≠ oddLap depth ahead ↔
      ahead = behind + depth := by
  have bound := position_lt positive behind
  have upper := position_lt positive ahead
  rcases lap_cases positive ordered bounded with ⟨lap, place⟩ | ⟨lap, place⟩
  · constructor
    · rintro ⟨-, other⟩
      exact absurd lap.symm other
    · intro full
      omega
  · constructor
    · rintro ⟨same, -⟩
      omega
    · intro full
      exact ⟨by omega, by simp [lap]⟩

end Ws63Rf.LapCounter
