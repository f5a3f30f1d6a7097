import Ws63Rf.OalUtil
import Ws63Rf.LinearCongruential
import Mathlib.Data.UInt

/-! `oal_gen_random` over sequences of calls. Between resets its static variable
runs through a linear congruential generator of full period. -/
namespace Ws63Rf.GenRandomProofs
open OalUtil LinearCongruential Finset Function
open scoped UInt32.CommRing

/-! ## Calls -/

structure Call where
  val : OsalU32
  rstFlag : OsalU8

/-- The static variable before each call of a sequence; the program starts with
a zero. -/
def randBefore (calls : ℕ → Call) : ℕ → OsalU32
  | 0 => 0
  | k + 1 => (oalGenRandom (randBefore calls k) (calls k).val (calls k).rstFlag).2

/-- The byte each call returns. -/
def returned (calls : ℕ → Call) (k : ℕ) : OsalU8 :=
  (oalGenRandom (randBefore calls k) (calls k).val (calls k).rstFlag).1

/-- The byte a state is returned as. -/
def topByte (rand : OsalU32) : OsalU8 := (rand >>> 24).toUInt8

theorem returned_eq (calls : ℕ → Call) (k : ℕ) :
    returned calls k = topByte (randBefore calls (k + 1)) := rfl

/-- Without a reset a call is a step of the generator, whatever its first
argument. -/
theorem rand_stepped (rand val : OsalU32) :
    (oalGenRandom rand val 0).2 = step 1664525 1013904223 rand := by
  change rand * 1664525 + 1013904223 = ((1664525 : ℕ) : OsalU32) * rand + ((1013904223 : ℕ) : OsalU32)
  rw [mul_comm]
  rfl

/-- Over calls that do not reset it, the state is iterated. -/
theorem randBefore_add (calls : ℕ → Call) (first k : ℕ)
    (unreset : ∀ l < k, (calls (first + l)).rstFlag = 0) :
    randBefore calls (first + k) = (step 1664525 1013904223)^[k] (randBefore calls first) := by
  induction k with
  | zero => rfl
  | succ k ih =>
    rw [← Nat.add_assoc, randBefore, unreset k k.lt_succ_self, rand_stepped, iterate_succ_apply',
      ih fun l before => unreset l (Nat.lt_succ_of_lt before)]

/-! ## States and bytes -/

instance : CharP OsalU32 (2 ^ 32) where
  cast_eq_zero_iff m := by
    rw [← UInt32.toNat_inj, Nat.dvd_iff_mod_eq_zero]
    exact Iff.of_eq (congrArg (· = 0) UInt32.toNat_ofNat')

/-- A state is a number below 2^32. -/
def stateEquiv : OsalU32 ≃ Fin (2 ^ 32) where
  toFun rand := rand.toFin
  invFun := UInt32.ofFin
  left_inv _ := rfl
  right_inv _ := rfl

noncomputable instance : Fintype OsalU32 := Fintype.ofEquiv _ stateEquiv.symm

theorem card_states : Fintype.card OsalU32 = 2 ^ 32 := by
  rw [Fintype.card_congr stateEquiv, Fintype.card_fin]

theorem toNat_topByte (rand : OsalU32) : (topByte rand).toNat = rand.toNat / 2 ^ 24 := by
  have bound := rand.toNat_lt
  rw [topByte, UInt32.toNat_toUInt8, UInt32.toNat_shiftRight]
  change rand.toNat >>> 24 % 2 ^ 8 = _
  rw [Nat.shiftRight_eq_div_pow]
  omega

/-- Every byte is the top of as many states. -/
theorem card_topByte (byte : OsalU8) : #{rand | topByte rand = byte} = 2 ^ 24 := by
  have interval : #(Ico (byte.toNat * 2 ^ 24) ((byte.toNat + 1) * 2 ^ 24)) = 2 ^ 24 := by
    rw [Nat.card_Ico]
    omega
  rw [← interval]
  have bound := byte.toNat_lt
  apply card_nbij UInt32.toNat
  · intro rand member
    have top := congrArg UInt8.toNat (mem_filter.mp member).2
    rw [toNat_topByte] at top
    rw [coe_Ico, Set.mem_Ico]
    omega
  · intro rand _ other _ same
    exact UInt32.toNat_inj.mp same
  · intro number member
    rw [coe_Ico, Set.mem_Ico] at member
    have small : number < 2 ^ 32 := by omega
    refine ⟨UInt32.ofNat number, ?_, UInt32.toNat_ofNat_of_lt' small⟩
    rw [mem_coe, mem_filter]
    refine ⟨mem_univ _, UInt8.toNat_inj.mp ?_⟩
    rw [toNat_topByte, UInt32.toNat_ofNat_of_lt' small]
    omega

/-! ## Full period -/

/-- The multiplier leaves 1 modulo 4 and the increment is odd. -/
theorem minimalPeriod_rand (rand : OsalU32) :
    minimalPeriod (step 1664525 1013904223) rand = Fintype.card OsalU32 := by
  rw [card_states]
  exact minimalPeriod_step 32 rfl rfl rand

/-- In any sequence of calls, wherever 2^32 calls in a row do not reset the
generator, behind a reset to any seed as anywhere else: every state is left by
exactly one of them, and every byte is returned by exactly 2^24 of them. -/
theorem gen_random_full_period (calls : ℕ → Call) (first : ℕ)
    (unreset : ∀ k < 2 ^ 32, (calls (first + k)).rstFlag = 0) :
    (∀ rand, ∃! k, k < 2 ^ 32 ∧ randBefore calls (first + k + 1) = rand) ∧
    ∀ byte, #{k ∈ range (2 ^ 32) | returned calls (first + k) = byte} = 2 ^ 24 := by
  have left : ∀ k < 2 ^ 32, randBefore calls (first + k + 1) =
      (step 1664525 1013904223)^[k] (step 1664525 1013904223 (randBefore calls first)) := by
    intro k inside
    rw [Nat.add_assoc, randBefore_add calls first (k + 1) fun l before => unreset l (by omega),
      iterate_succ_apply]
  constructor
  · intro rand
    obtain ⟨k, ⟨inside, reached⟩, only⟩ := existsUnique_turn (minimalPeriod_rand _) rand
    rw [card_states] at inside
    refine ⟨k, ⟨inside, (left k inside).trans reached⟩, ?_⟩
    rintro l ⟨inside', reached'⟩
    apply only
    rw [card_states]
    exact ⟨inside', (left l inside').symm.trans reached'⟩
  · intro byte
    rw [← card_topByte byte, ← card_turns (minimalPeriod_rand _) (topByte · = byte), card_states]
    apply congrArg card
    apply filter_congr
    intro k inside
    rw [returned_eq, left k (mem_range.mp inside)]

/-- Behind a reset to the seed 12345, with any arguments that do not reset. -/
theorem gen_random_full_period_seeded :
    let calls : ℕ → Call := fun k => if k = 0 then ⟨12345, 1⟩ else ⟨UInt32.ofNat k, 0⟩
    (∀ rand, ∃! k, k < 2 ^ 32 ∧ randBefore calls (1 + k + 1) = rand) ∧
    ∀ byte, #{k ∈ range (2 ^ 32) | returned calls (1 + k) = byte} = 2 ^ 24 :=
  gen_random_full_period _ 1 fun k _ => by simp

end Ws63Rf.GenRandomProofs
