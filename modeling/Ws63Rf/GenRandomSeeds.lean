import Ws63Rf.GenRandomProofs

/-! What the bytes of `oal_gen_random` give away. They determine the seed, and
their lower bits come around long before the generator does. -/
namespace Ws63Rf.GenRandomSeeds
open OalUtil LinearCongruential GenRandomProofs Function
open scoped UInt32.CommRing

/-! ## Streams -/

/-- The states behind a reset to a seed are those of the generator. -/
theorem randBefore_reset (calls : ℕ → Call) {reset : ℕ} (resets : (calls reset).rstFlag ≠ 0) (k : ℕ)
    (unreset : ∀ l < k, (calls (reset + 1 + l)).rstFlag = 0) :
    randBefore calls (reset + k + 1) =
      (step 1664525 1013904223)^[k + 1] (calls reset).val := by
  have seeded : randBefore calls (reset + 1) = step 1664525 1013904223 (calls reset).val := by
    rw [← rand_stepped _ 0, randBefore]
    simp [oalGenRandom, resets]
  rw [Nat.add_right_comm, randBefore_add calls (reset + 1) k unreset, seeded, iterate_succ_apply]

theorem cast_toNat (x : OsalU32) : ((x.toNat : ℕ) : OsalU32) = x := UInt32.ofNat_toNat

/-- States with one top byte are closer than one step of it. -/
theorem sub_of_topByte {x y : OsalU32} (same : topByte x = topByte y) :
    (x - y).toNat < 2 ^ 24 ∨ 2 ^ 32 - 2 ^ 24 < (x - y).toNat := by
  have tops := congrArg UInt8.toNat same
  rw [toNat_topByte, toNat_topByte] at tops
  rw [UInt32.toNat_sub]
  have bound := x.toNat_lt
  have bound' := y.toNat_lt
  omega

/-- Half the modulus apart is far apart. -/
theorem far_of_half (d : OsalU32) (near : d.toNat < 2 ^ 24 ∨ 2 ^ 32 - 2 ^ 24 < d.toNat) :
    ¬ ((d + 2 ^ 31).toNat < 2 ^ 24 ∨ 2 ^ 32 - 2 ^ 24 < (d + 2 ^ 31).toNat) := by
  have half : ((2 : OsalU32) ^ 31).toNat = 2 ^ 31 := by decide
  have bound := d.toNat_lt
  rw [UInt32.toNat_add, half]
  omega

/-- Two states that have one top byte at every step are one: were they apart,
they would be far apart some day. -/
theorem eq_zero_of_near (d : OsalU32) (near : ∀ k < 2 ^ 30,
    ((1664525 : ℕ) ^ k * d).toNat < 2 ^ 24 ∨ 2 ^ 32 - 2 ^ 24 < ((1664525 : ℕ) ^ k * d).toNat) :
    d = 0 := by
  have first := near 0 (by decide)
  rw [pow_zero, one_mul] at first
  by_cases late : 2 ^ 30 ∣ d.toNat
  · obtain ⟨e, multiple⟩ := late
    have bound := d.toNat_lt
    exact UInt32.toNat_inj.mp (by rw [UInt32.toNat_zero]; omega)
  · obtain ⟨k, inside, half⟩ :=
      exists_half_apart (R := OsalU32) 30 (show 1664525 % 8 = 5 from rfl) late
    have far := near k inside
    rw [cast_toNat] at half
    exact absurd (half ▸ far) (far_of_half d first)

/-- The multiplier can be divided by. -/
theorem isUnit_multiplier : IsUnit ((1664525 : ℕ) : OsalU32) := by
  have odd := isUnit_odd_add_even (R := OsalU32) 32 (show 1664525 % 2 = 1 from rfl) 0
  rwa [mul_zero, add_zero] at odd

/-- The bytes behind a reset determine the seed: two seeds whose first 2^30
bytes agree are one. -/
theorem bytes_determine_seed (calls calls' : ℕ → Call) (reset reset' : ℕ)
    (resets : (calls reset).rstFlag ≠ 0) (resets' : (calls' reset').rstFlag ≠ 0)
    (unreset : ∀ k < 2 ^ 30, (calls (reset + 1 + k)).rstFlag = 0)
    (unreset' : ∀ k < 2 ^ 30, (calls' (reset' + 1 + k)).rstFlag = 0) :
    (∀ k < 2 ^ 30, returned calls (reset + k) = returned calls' (reset' + k)) ↔
      (calls reset).val = (calls' reset').val := by
  have state : ∀ k < 2 ^ 30, randBefore calls (reset + k + 1) =
      (step 1664525 1013904223)^[k + 1] (calls reset).val := fun k inside =>
    randBefore_reset calls resets k fun l before => unreset l (by omega)
  have state' : ∀ k < 2 ^ 30, randBefore calls' (reset' + k + 1) =
      (step 1664525 1013904223)^[k + 1] (calls' reset').val := fun k inside =>
    randBefore_reset calls' resets' k fun l before => unreset' l (by omega)
  generalize (calls reset).val = seed at state ⊢
  generalize (calls' reset').val = seed' at state' ⊢
  constructor
  · intro same
    -- how far apart the first states after the seeds are
    let d : OsalU32 := (1664525 : ℕ) * (seed - seed')
    have zero : d = 0 := by
      apply eq_zero_of_near
      intro k inside
      have tops := same k inside
      rw [returned_eq, returned_eq, state k inside, state' k inside] at tops
      have near := sub_of_topByte tops
      rwa [iterate_step_sub, pow_succ, mul_assoc] at near
    exact sub_eq_zero.mp (isUnit_multiplier.mul_right_eq_zero.mp zero)
  · rintro rfl k inside
    rw [returned_eq, returned_eq, state k inside, state' k inside]

/-- Two programs reset the generator, to 1 and to 2^31 + 1. -/
theorem bytes_determine_seed_top_bit :
    let calls : OsalU32 → ℕ → Call := fun seed k => if k = 0 then ⟨seed, 1⟩ else ⟨0, 0⟩
    (∀ k < 2 ^ 30, returned (calls 1) (0 + k) = returned (calls 0x80000001) (0 + k)) ↔
      (1 : OsalU32) = 0x80000001 :=
  bytes_determine_seed _ _ 0 0 (by decide) (by decide) (fun k _ => by simp) fun k _ => by simp

/-! ## Short periods -/

/-- Adding one more to the bits from `k` on complements bit `k`. -/
theorem testBit_add_two_pow (n k m : ℕ) :
    (n + 2 ^ k + 2 ^ (k + 1) * m).testBit k = !n.testBit k := by
  have quotient : (n + 2 ^ k + 2 ^ (k + 1) * m) / 2 ^ k = n / 2 ^ k + (1 + 2 * m) := by
    rw [show n + 2 ^ k + 2 ^ (k + 1) * m = n + 2 ^ k * (1 + 2 * m) by ring,
      Nat.add_mul_div_left _ _ (Nat.two_pow_pos k)]
  rw [Nat.testBit_eq_decide_div_mod_eq, Nat.testBit_eq_decide_div_mod_eq, quotient]
  grind

/-- Over 2^(24+i) calls that do not reset the generator, bit `i` of the byte it
returns is complemented: the lowest bit repeats every 2^25 calls. -/
theorem returned_bit_flips (calls : ℕ → Call) (first i : ℕ) (inByte : i < 8)
    (unreset : ∀ k < 2 ^ (24 + i), (calls (first + 1 + k)).rstFlag = 0) :
    (returned calls (first + 2 ^ (24 + i))).toNat.testBit i =
      !(returned calls first).toNat.testBit i := by
  have later := randBefore_add calls (first + 1) (2 ^ (24 + i)) unreset
  rw [returned_eq, returned_eq, Nat.add_right_comm, later, toNat_topByte, toNat_topByte,
    Nat.testBit_div_two_pow, Nat.testBit_div_two_pow, Nat.add_comm i 24]
  generalize randBefore calls (first + 1) = rand
  obtain ⟨m, moved⟩ := iterate_step_two_pow (R := OsalU32) (show 1664525 % 4 = 1 from rfl)
    (show 1013904223 % 2 = 1 from rfl) (24 + i) rand
  have written : (step 1664525 1013904223)^[2 ^ (24 + i)] rand =
      ((rand.toNat + 2 ^ (24 + i) + 2 ^ (24 + i + 1) * m.toNat : ℕ) : OsalU32) := by
    rw [moved]
    push_cast
    rw [cast_toNat, cast_toNat]
  rw [written]
  change (UInt32.ofNat _).toNat.testBit _ = _
  rw [UInt32.toNat_ofNat', Nat.testBit_mod_two_pow, decide_eq_true (by omega : 24 + i < 32),
    Bool.true_and, testBit_add_two_pow]

/-- Without any reset, the first byte and the one 2^24 calls later. -/
theorem returned_bit_flips_lowest :
    (returned (fun _ => ⟨0, 0⟩) (0 + 2 ^ (24 + 0))).toNat.testBit 0 =
      !(returned (fun _ => ⟨0, 0⟩) 0).toNat.testBit 0 :=
  returned_bit_flips (fun _ => ⟨0, 0⟩) 0 0 (by decide) fun _ _ => rfl

end Ws63Rf.GenRandomSeeds
