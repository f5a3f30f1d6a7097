import Mathlib.Algebra.CharP.Basic
import Mathlib.Algebra.Ring.GeomSum
import Mathlib.Data.Nat.Factorization.Basic
import Mathlib.Data.Nat.Prime.Basic
import Mathlib.Dynamics.PeriodicPts.Lemmas
import Mathlib.RingTheory.Coprime.Lemmas
import Mathlib.RingTheory.Nilpotent.Basic
import Mathlib.Tactic.LinearCombination

/-! Linear congruential generators `x ↦ a * x + c` modulo a power of two, and
what a full period says about a run: with `a % 4 = 1` and an odd `c`, a state
comes back exactly after the multiples of the modulus. -/
namespace Ws63Rf.LinearCongruential
open Finset Function

/-! ## Orbits of full length -/

section Orbits
variable {α : Type} [Fintype α] {f : α → α} {x : α}

/-- A run of full period is in every state at exactly one of its turns. -/
theorem existsUnique_turn (full : minimalPeriod f x = Fintype.card α) (y : α) :
    ∃! k, k < Fintype.card α ∧ f^[k] x = y := by
  classical
  have apart : Set.InjOn (f^[·] x) (range (Fintype.card α)) := by
    intro k inside l inside' same
    simp only [coe_range, ← full] at inside inside'
    exact iterate_injOn_Iio_minimalPeriod inside inside' same
  have everywhere : (range (Fintype.card α)).image (f^[·] x) = univ := by
    rw [← card_eq_iff_eq_univ, card_image_of_injOn apart, card_range]
  obtain ⟨k, inside, reached⟩ := mem_image.mp (everywhere ▸ mem_univ y)
  refine ⟨k, ⟨mem_range.mp inside, reached⟩, ?_⟩
  rintro l ⟨inside', reached'⟩
  exact apart (mem_coe.mpr (mem_range.mpr inside')) (mem_coe.mpr inside) (reached'.trans reached.symm)

/-- So the turns with some property are as many as the states that have it. -/
theorem card_turns (full : minimalPeriod f x = Fintype.card α) (P : α → Prop) [DecidablePred P] :
    #{k ∈ range (Fintype.card α) | P (f^[k] x)} = #{y | P y} := by
  apply card_nbij (f^[·] x)
  · intro k member
    simpa using (mem_filter.mp member).2
  · intro k member l member' same
    have inside := mem_range.mp (mem_filter.mp member).1
    have inside' := mem_range.mp (mem_filter.mp member').1
    exact (existsUnique_turn full (f^[l] x)).unique ⟨inside, same⟩ ⟨inside', rfl⟩
  · intro y member
    obtain ⟨k, ⟨inside, reached⟩, -⟩ := existsUnique_turn full y
    refine ⟨k, mem_coe.mpr (mem_filter.mpr ⟨mem_range.mpr inside, ?_⟩), reached⟩
    rw [reached]
    exact (mem_filter.mp (mem_coe.mp member)).2

end Orbits

/-! ## Geometric sums and powers of two -/

/-- With `a % 4 = 1`, a power of two divides a geometric sum of `a` exactly
where it divides the number of its terms. -/
theorem two_pow_dvd_geom_sum_iff {a : ℕ} (four : a % 4 = 1) (n d : ℕ) :
    2 ^ n ∣ ∑ i ∈ range d, a ^ i ↔ 2 ^ n ∣ d := by
  induction n generalizing d with
  | zero => simp
  | succ n ih =>
    have powers : ∀ e, a ^ e % 4 = 1 := fun e => by rw [Nat.pow_mod, four]; simp
    have parity : (∑ i ∈ range d, a ^ i) % 2 = d % 2 := by
      have odd : ∀ i ∈ range d, a ^ i % 2 = 1 := fun i _ => by have power := powers i; omega
      rw [sum_nat_mod, sum_congr rfl odd]
      simp
    rcases Nat.even_or_odd' d with ⟨e, rfl | rfl⟩
    · obtain ⟨o, twice⟩ : ∃ o, 1 + a ^ e = 2 * (2 * o + 1) := by
        have power := powers e
        exact ⟨a ^ e / 4, by omega⟩
      have halves : ∑ i ∈ range (2 * e), a ^ i = 2 * ((∑ i ∈ range e, a ^ i) * (2 * o + 1)) := by
        rw [two_mul, sum_range_add]
        simp only [pow_add, ← mul_sum]
        linear_combination (∑ i ∈ range e, a ^ i) * twice
      have odd : Nat.Coprime (2 ^ n) (2 * o + 1) := Nat.Coprime.pow_left n (by simp)
      rw [halves, pow_succ', Nat.mul_dvd_mul_iff_left two_pos, Nat.mul_dvd_mul_iff_left two_pos,
        odd.dvd_mul_right, ih]
    · have two : ∀ m, 2 ^ (n + 1) ∣ m → m % 2 = 0 := fun m divides =>
        Nat.mod_eq_zero_of_dvd ((dvd_pow_self 2 n.succ_ne_zero).trans divides)
      constructor
      · intro divides
        have even := two _ divides
        omega
      · intro divides
        have even := two _ divides
        omega

/-! ## The generator -/

section Generator
variable {R : Type} [CommRing R]

def step (a c : ℕ) (x : R) : R := a * x + c

theorem iterate_step (a c d : ℕ) (x : R) :
    (step a c)^[d] x = x + (∑ i ∈ range d, (a : R) ^ i) * ((a - 1) * x + c) := by
  induction d with
  | zero => simp
  | succ d ih =>
    rw [iterate_succ_apply', ih, step, geom_sum_succ]
    ring

/-- An odd number and a multiple of two add up to a unit. -/
theorem isUnit_odd_add_even (n : ℕ) [CharP R (2 ^ n)] {c : ℕ} (odd : c % 2 = 1) (x : R) :
    IsUnit (c + 2 * x) := by
  have modulus : (2 : R) ^ n = 0 := by exact_mod_cast CharP.cast_eq_zero R (2 ^ n)
  have coprime : Nat.Coprime c (2 ^ n) :=
    Nat.Coprime.pow_right n (Nat.coprime_two_right.mpr (Nat.odd_iff.mpr odd))
  have unit : IsUnit (c : R) := by
    have mapped := (Nat.isCoprime_iff_coprime.mpr coprime).map (Int.castRingHom R)
    rw [← isCoprime_zero_right, ← modulus]
    simpa using mapped
  have nilpotent : IsNilpotent (2 * x) := ⟨n, by rw [mul_pow, modulus, zero_mul]⟩
  exact nilpotent.isUnit_add_left_of_commute unit (Commute.all _ _)

/-- The state comes back exactly after the multiples of the modulus. -/
theorem minimalPeriod_step (n : ℕ) [CharP R (2 ^ n)] {a c : ℕ} (four : a % 4 = 1) (odd : c % 2 = 1)
    (x : R) : minimalPeriod (step a c) x = 2 ^ n := by
  obtain ⟨m, multiplier⟩ : ∃ m, a = 2 * m + 1 := ⟨a / 2, by omega⟩
  have even : ((a : R) - 1) * x + c = c + 2 * (m * x) := by
    rw [multiplier]
    push_cast
    ring
  have unit : IsUnit (((a : R) - 1) * x + c) := even ▸ isUnit_odd_add_even n odd (m * x)
  have returns : ∀ d, IsPeriodicPt (step a c) d x ↔ 2 ^ n ∣ d := by
    intro d
    calc (step a c)^[d] x = x
        ↔ ((∑ i ∈ range d, a ^ i : ℕ) : R) = 0 := by
          rw [iterate_step, add_eq_left, unit.mul_left_eq_zero]
          push_cast
          rfl
      _ ↔ 2 ^ n ∣ ∑ i ∈ range d, a ^ i := CharP.cast_eq_zero_iff R (2 ^ n) _
      _ ↔ 2 ^ n ∣ d := two_pow_dvd_geom_sum_iff four n d
  apply Nat.dvd_antisymm
  · exact ((returns _).mpr dvd_rfl).minimalPeriod_dvd
  · exact (returns _).mp (isPeriodicPt_minimalPeriod _ _)

/-! ## Two states -/

/-- Two states of one generator go apart by powers of its multiplier. -/
theorem iterate_step_sub (a c k : ℕ) (x y : R) :
    (step a c)^[k] x - (step a c)^[k] y = a ^ k * (x - y) := by
  induction k with
  | zero => simp
  | succ k ih =>
    rw [iterate_succ_apply', iterate_succ_apply', step, step, pow_succ', mul_assoc, ← ih]
    ring

/-- With `a % 8 = 5`, each squaring of `a` keeps it off 1 by one more factor of
two, and no further. -/
theorem pow_two_pow_eq {a : ℕ} (five : a % 8 = 5) (m : ℕ) :
    ∃ q, a ^ 2 ^ m = 2 ^ (m + 2) * (2 * q + 1) + 1 := by
  induction m with
  | zero =>
    refine ⟨a / 8, ?_⟩
    rw [pow_zero, pow_one]
    omega
  | succ m ih =>
    obtain ⟨q, power⟩ := ih
    refine ⟨q + 2 ^ m * (2 * q + 1) ^ 2, ?_⟩
    rw [pow_succ 2 m, pow_mul, power]
    ring

/-- Where less than `2^n` divides the difference of two states, it is some day
off by half the modulus. -/
theorem exists_half_apart (n : ℕ) [CharP R (2 ^ (n + 2))] {a : ℕ} (five : a % 8 = 5) {d : ℕ}
    (early : ¬ 2 ^ n ∣ d) : ∃ k < 2 ^ n, (a : R) ^ k * d = d + 2 ^ (n + 1) := by
  have nonzero : d ≠ 0 := by
    rintro rfl
    exact early (dvd_zero _)
  obtain ⟨t, odd, ⟨e, rfl⟩, rfl⟩ := Nat.exists_eq_two_pow_mul_odd nonzero
  have small : t < n := by
    by_contra large
    exact early ((pow_dvd_pow 2 (Nat.le_of_not_lt large)).mul_right _)
  obtain ⟨m, rfl⟩ := Nat.exists_eq_add_of_lt small
  obtain ⟨q, power⟩ := pow_two_pow_eq five m
  have modulus : (2 : R) ^ (t + m + 1 + 2) = 0 := by
    exact_mod_cast CharP.cast_eq_zero R (2 ^ (t + m + 1 + 2))
  refine ⟨2 ^ m, Nat.pow_lt_pow_right one_lt_two (by omega), ?_⟩
  rw [← Nat.cast_pow, power]
  push_cast
  linear_combination (2 * e * q + e + q) * modulus

/-- After `2^k` steps the bits of a state below `k` are back and bit `k` is
complemented. -/
theorem iterate_step_two_pow {a c : ℕ} (four : a % 4 = 1) (odd : c % 2 = 1) (k : ℕ) (x : R) :
    ∃ m : R, (step a c)^[2 ^ k] x = x + 2 ^ k + 2 ^ (k + 1) * m := by
  obtain ⟨s, sum⟩ := (two_pow_dvd_geom_sum_iff four k (2 ^ k)).mpr dvd_rfl
  have half : s % 2 = 1 := by
    by_contra other
    have twice : 2 ^ (k + 1) ∣ ∑ i ∈ range (2 ^ k), a ^ i := by
      rw [sum, pow_succ]
      exact Nat.mul_dvd_mul_left _ (Nat.dvd_of_mod_eq_zero (by omega))
    rw [two_pow_dvd_geom_sum_iff four, Nat.pow_dvd_pow_iff_le_right one_lt_two] at twice
    omega
  obtain ⟨b, rfl⟩ : ∃ b, a = 2 * b + 1 := ⟨a / 2, by omega⟩
  obtain ⟨e, rfl⟩ : ∃ e, c = 2 * e + 1 := ⟨c / 2, by omega⟩
  obtain ⟨r, rfl⟩ : ∃ r, s = 2 * r + 1 := ⟨s / 2, by omega⟩
  have sum' := congrArg (Nat.cast (R := R)) sum
  push_cast at sum'
  refine ⟨r + (2 * r + 1) * (b * x + e), ?_⟩
  rw [iterate_step]
  push_cast
  rw [sum']
  ring

end Generator

end Ws63Rf.LinearCongruential
