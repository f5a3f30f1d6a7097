import Mathlib.Data.BitVec
import Mathlib.Order.Bounds.Basic

/-! Masks of low bits: rounding a number to multiples of a power of two, and
reading and replacing a field of a word. -/
namespace Ws63Rf.Masks

variable {w : Nat}

/-- The mask has its lowest `k` bits set and no others. -/
def IsLowMask (k : Nat) (mask : BitVec w) : Prop := ∀ i, mask.getLsbD i = decide (i < k)

theorem toNat_pred {bound : BitVec w} (power : bound.toNat = 2 ^ k) :
    (bound - 1).toNat = 2 ^ k - 1 := by
  have positive := Nat.two_pow_pos k
  have small := bound.isLt
  rw [BitVec.toNat_sub, power]
  rcases Nat.eq_zero_or_pos w with rfl | wide
  · omega
  · have one : (1 : BitVec w).toNat = 1 := Nat.mod_eq_of_lt (Nat.one_lt_two_pow wide.ne')
    rw [one, show 2 ^ w - 1 + 2 ^ k = 2 ^ w + (2 ^ k - 1) by omega, Nat.add_mod_left]
    exact Nat.mod_eq_of_lt (by omega)

/-- The predecessor of a power of two is a mask. -/
theorem isLowMask_pred {bound : BitVec w} (power : bound.toNat = 2 ^ k) :
    IsLowMask k (bound - 1) := by
  intro i
  rw [← BitVec.testBit_toNat, toNat_pred power, Nat.testBit_two_pow_sub_one]

theorem toNat_shifted_one (small : k < w) : ((1 : BitVec w) <<< k).toNat = 2 ^ k := by
  have below : 2 ^ k < 2 ^ w := Nat.pow_lt_pow_right (by omega) small
  have one : (1 : BitVec w).toNat = 1 := Nat.mod_eq_of_lt (Nat.one_lt_two_pow (by omega))
  rw [BitVec.toNat_shiftLeft, one, Nat.one_shiftLeft, Nat.mod_eq_of_lt below]

/-! ## Multiples of a power of two -/

/-- `m` is the least multiple that is not below `n`. -/
def LeastMultiple (bound n m : Nat) : Prop := IsLeast {m | bound ∣ m ∧ n ≤ m} m

/-- `m` is the greatest multiple that is not above `n`. -/
def GreatestMultiple (bound n m : Nat) : Prop := IsGreatest {m | bound ∣ m ∧ m ≤ n} m

theorem greatestMultiple_div (bound n : Nat) : GreatestMultiple bound n (n / bound * bound) := by
  constructor
  · exact ⟨Nat.dvd_mul_left _ _, Nat.div_mul_le_self n bound⟩
  · rintro m ⟨divides, below⟩
    calc m = m / bound * bound := (Nat.div_mul_cancel divides).symm
      _ ≤ n / bound * bound := Nat.mul_le_mul_right _ (Nat.div_le_div_right below)

/-- The least multiple not below `n` is the greatest not above `n + bound - 1`. -/
theorem leastMultiple_iff {bound : Nat} (positive : 0 < bound) (n m : Nat) :
    LeastMultiple bound n m ↔ GreatestMultiple bound (n + (bound - 1)) m := by
  have least : LeastMultiple bound n ((n + (bound - 1)) / bound * bound) := by
    constructor
    · refine ⟨Nat.dvd_mul_left _ _, ?_⟩
      have split := Nat.div_add_mod' (n + (bound - 1)) bound
      have rest := Nat.mod_lt (n + (bound - 1)) positive
      omega
    · rintro m ⟨divides, above⟩
      apply Nat.le_of_lt_add_of_dvd _ (Nat.dvd_mul_left _ _) divides
      have below := Nat.div_mul_le_self (n + (bound - 1)) bound
      omega
  have greatest := greatestMultiple_div bound (n + (bound - 1))
  constructor
  · intro other
    rwa [other.unique least]
  · intro other
    rwa [other.unique greatest]

/-! ## Rounding words -/

section Rounding
variable {mask bound word : BitVec w}

theorem toNat_clear (low : IsLowMask k mask) (word : BitVec w) :
    (word &&& ~~~mask).toNat = word.toNat / 2 ^ k * 2 ^ k := by
  apply Nat.eq_of_testBit_eq
  intro i
  rw [Nat.testBit_mul_two_pow, Nat.testBit_div_two_pow, BitVec.testBit_toNat, BitVec.testBit_toNat,
    BitVec.getLsbD_and, BitVec.getLsbD_not, low i]
  by_cases kept : k ≤ i
  · rw [Nat.sub_add_cancel kept]
    by_cases inside : i < w
    · simp [inside, kept]
    · simp [BitVec.getLsbD_of_ge word i (Nat.le_of_not_lt inside)]
  · simp [kept, Nat.lt_of_not_le kept]

theorem toNat_fill (low : IsLowMask k mask) (word : BitVec w) :
    (word ||| mask).toNat = word.toNat / 2 ^ k * 2 ^ k + (2 ^ k - 1) := by
  have below : 2 ^ k - 1 < 2 ^ k := Nat.sub_lt (Nat.two_pow_pos k) Nat.one_pos
  apply Nat.eq_of_testBit_eq
  intro i
  rw [Nat.mul_comm, Nat.testBit_two_pow_mul_add _ below, Nat.testBit_div_two_pow,
    Nat.testBit_two_pow_sub_one, BitVec.testBit_toNat, BitVec.testBit_toNat, BitVec.getLsbD_or, low i]
  by_cases filled : i < k
  · simp [filled]
  · simp [filled, Nat.sub_add_cancel (Nat.le_of_not_lt filled)]

theorem clear_greatest (power : bound.toNat = 2 ^ k) (word : BitVec w) :
    GreatestMultiple (2 ^ k) word.toNat (word &&& ~~~(bound - 1)).toNat := by
  rw [toNat_clear (isLowMask_pred power)]
  exact greatestMultiple_div _ _

/-- A multiple that fits leaves room for one more step below the modulus. -/
theorem multiple_room (power : bound.toNat = 2 ^ k) (divides : 2 ^ k ∣ m) (fits : m < 2 ^ w) :
    m + 2 ^ k ≤ 2 ^ w := by
  have small : 2 ^ k < 2 ^ w := power ▸ bound.isLt
  have steps : 2 ^ k ∣ 2 ^ w := Nat.pow_dvd_pow 2 ((Nat.pow_lt_pow_iff_right (by omega)).mp small).le
  apply Nat.le_of_lt_add_of_dvd _ (Nat.dvd_add divides dvd_rfl) steps
  omega

/-- Adding and then masking rounds up. -/
theorem add_then_clear (power : bound.toNat = 2 ^ k) (least : LeastMultiple (2 ^ k) word.toNat m)
    (fits : m < 2 ^ w) : ((word + (bound - 1)) &&& ~~~(bound - 1)).toNat = m := by
  have room := multiple_room power least.1.1 fits
  have above := least.1.2
  have positive := Nat.two_pow_pos k
  have sum : (word + (bound - 1)).toNat = word.toNat + (2 ^ k - 1) := by
    rw [BitVec.toNat_add, toNat_pred power, Nat.mod_eq_of_lt (by omega)]
  have greatest := clear_greatest power (word + (bound - 1))
  rw [sum, ← leastMultiple_iff positive] at greatest
  exact greatest.unique least

/-- So does filling the predecessor's low bits and adding one, from zero too,
where the predecessor is all ones. -/
theorem fill_then_add (power : bound.toNat = 2 ^ k) (least : LeastMultiple (2 ^ k) word.toNat m)
    (fits : m < 2 ^ w) : (((word - 1) ||| (bound - 1)) + 1).toNat = m := by
  have room := multiple_room power least.1.1 fits
  have positive := Nat.two_pow_pos k
  have wide : 1 < 2 ^ w := Nat.lt_of_le_of_lt positive (power ▸ bound.isLt)
  have one : (1 : BitVec w).toNat = 1 := Nat.mod_eq_of_lt wide
  rcases Nat.eq_zero_or_pos word.toNat with zero | nonzero
  · have none : m = 0 := Nat.le_zero.mp (least.2 ⟨Nat.dvd_zero _, zero.le⟩)
    have ones : word - 1 = BitVec.allOnes w := by
      rw [BitVec.eq_of_toNat_eq (zero.trans (Nat.zero_mod _).symm : word.toNat = (0#w).toNat)]
      exact (BitVec.zero_sub _).trans BitVec.neg_one_eq_allOnes
    rw [ones, BitVec.allOnes_or, BitVec.toNat_add, BitVec.toNat_allOnes, one, none,
      Nat.sub_add_cancel wide.le, Nat.mod_self]
  · have pred : (word - 1).toNat = word.toNat - 1 := by
      have bounded := word.isLt
      rw [BitVec.toNat_sub, one, show 2 ^ w - 1 + word.toNat = 2 ^ w + (word.toNat - 1) by omega,
        Nat.add_mod_left, Nat.mod_eq_of_lt (by omega)]
    have greatest := greatestMultiple_div (2 ^ k) (word.toNat - 1 + 2 ^ k)
    rw [show word.toNat - 1 + 2 ^ k = word.toNat + (2 ^ k - 1) by omega,
      ← leastMultiple_iff positive] at greatest
    have rounded := greatest.unique least
    rw [show word.toNat + (2 ^ k - 1) = word.toNat - 1 + 2 ^ k by omega, Nat.add_div_right _ positive,
      Nat.succ_mul] at rounded
    rw [BitVec.toNat_add, toNat_fill (isLowMask_pred power), pred, one, Nat.mod_eq_of_lt (by omega)]
    omega

/-- A mask that is complemented at a narrower width and widened afterwards
clears the bits above that width too. -/
theorem toNat_clear_narrow {v : Nat} {narrow : BitVec v} (low : IsLowMask k narrow)
    (wide : IsLowMask k mask) (word : BitVec w) :
    (word &&& (~~~narrow).setWidth w).toNat = (word &&& ~~~mask).toNat % 2 ^ v := by
  apply Nat.eq_of_testBit_eq
  intro i
  rw [Nat.testBit_mod_two_pow, BitVec.testBit_toNat, BitVec.testBit_toNat, BitVec.getLsbD_and,
    BitVec.getLsbD_and, BitVec.getLsbD_setWidth, BitVec.getLsbD_not, BitVec.getLsbD_not, low i, wide i]
  by_cases inside : i < w
  · by_cases kept : i < v
    · simp [inside, kept]
    · simp [kept]
  · simp [BitVec.getLsbD_of_ge word i (Nat.le_of_not_lt inside)]

end Rounding

/-! ## Fields of a word -/

/-- The word after a store to the field that starts at `pos`. -/
structure Updated (pos : Nat) {bits : Nat} (field : BitVec bits) (before after : BitVec w) : Prop where
  inside : ∀ i < bits, after.getLsbD (pos + i) = field.getLsbD i
  outside : ∀ i, i < pos ∨ pos + bits ≤ i → after.getLsbD i = before.getLsbD i

section Fields
variable {pos bits pos' bits' : Nat} {field : BitVec bits} {field' : BitVec bits'}
  {before after : BitVec w}

/-- What was stored is read back. -/
theorem Updated.read (updated : Updated pos field before after) :
    after.extractLsb' pos bits = field := by
  apply BitVec.eq_of_getLsbD_eq
  intro i inside
  rw [BitVec.getLsbD_extractLsb', updated.inside i inside]
  simp [inside]

/-- Stores to two fields that do not meet may be made in either order. -/
theorem Updated.commute {one other both both' : BitVec w}
    (apart : pos + bits ≤ pos' ∨ pos' + bits' ≤ pos)
    (first : Updated pos field before one) (second : Updated pos' field' one both)
    (first' : Updated pos' field' before other) (second' : Updated pos field other both') :
    both = both' := by
  apply BitVec.eq_of_getLsbD_eq
  intro i _
  by_cases here : pos ≤ i ∧ i < pos + bits
  · obtain ⟨k, rfl⟩ := Nat.exists_eq_add_of_le here.1
    rw [second.outside _ (by omega), first.inside k (by omega), second'.inside k (by omega)]
  · by_cases there : pos' ≤ i ∧ i < pos' + bits'
    · obtain ⟨k, rfl⟩ := Nat.exists_eq_add_of_le there.1
      rw [second.inside k (by omega), second'.outside _ (by omega), first'.inside k (by omega)]
    · rw [second.outside _ (by omega), first.outside _ (by omega), second'.outside _ (by omega),
        first'.outside _ (by omega)]

/-- Clearing a field with its mask and filling in what has no other bits set. -/
theorem updated_masked {mask chosen : BitVec w} (low : IsLowMask bits mask) (room : pos + bits ≤ w)
    (same : ∀ i, chosen.getLsbD i = field.getLsbD i) (before : BitVec w) :
    Updated pos field before ((before &&& ~~~(mask <<< pos)) ||| (chosen <<< pos)) := by
  constructor
  · intro i inside
    simp only [BitVec.getLsbD_or, BitVec.getLsbD_and, BitVec.getLsbD_not, BitVec.getLsbD_shiftLeft,
      low _, same, Nat.add_sub_cancel_left]
    simp [inside, show pos + i < w by omega, show ¬ pos + i < pos by omega]
  · intro i outside
    simp only [BitVec.getLsbD_or, BitVec.getLsbD_and, BitVec.getLsbD_not, BitVec.getLsbD_shiftLeft,
      low _, same]
    rcases outside with below | above
    · by_cases inWord : i < w
      · simp [below, inWord]
      · simp [BitVec.getLsbD_of_ge before i (Nat.le_of_not_lt inWord), inWord]
    · have empty : field.getLsbD (i - pos) = false := BitVec.getLsbD_of_ge _ _ (by omega)
      by_cases inWord : i < w
      · simp [empty, inWord, show ¬ i - pos < bits by omega]
      · simp [BitVec.getLsbD_of_ge before i (Nat.le_of_not_lt inWord), inWord]

/-- Clearing alone stores zero. -/
theorem updated_cleared {mask : BitVec w} (low : IsLowMask bits mask) (room : pos + bits ≤ w)
    (before : BitVec w) : Updated pos (0 : BitVec bits) before (before &&& ~~~(mask <<< pos)) := by
  have filled : Updated pos (0 : BitVec bits) before ((before &&& ~~~(mask <<< pos)) ||| (0#w <<< pos)) :=
    updated_masked low room (by simp) before
  simpa using filled

/-- A store that is made in a wider word and written back. -/
theorem Updated.narrow {v : Nat} {register : BitVec v} (fits : v ≤ w) (room : pos + bits ≤ v)
    (updated : Updated pos field (register.setWidth w) after) :
    Updated pos field register (after.setWidth v) := by
  constructor
  · intro i inside
    rw [BitVec.getLsbD_setWidth, updated.inside i inside]
    simp [show pos + i < v by omega]
  · intro i outside
    rw [BitVec.getLsbD_setWidth, updated.outside i outside, BitVec.getLsbD_setWidth]
    by_cases inRegister : i < v
    · simp [inRegister, show i < w by omega]
    · simp [BitVec.getLsbD_of_ge register i (Nat.le_of_not_lt inRegister)]

/-- Shifting a field down and masking it reads it. -/
theorem toNat_read {v : Nat} {mask : BitVec w} (low : IsLowMask bits mask) (register : BitVec v)
    (fits : v ≤ w) : (register.setWidth w >>> pos &&& mask).toNat =
      (register.extractLsb' pos bits).toNat := by
  apply Nat.eq_of_testBit_eq
  intro i
  rw [BitVec.testBit_toNat, BitVec.testBit_toNat, BitVec.getLsbD_and, BitVec.getLsbD_ushiftRight,
    BitVec.getLsbD_setWidth, BitVec.getLsbD_extractLsb', low i, Bool.and_comm]
  by_cases inRegister : pos + i < v
  · simp [show pos + i < w by omega]
  · simp [BitVec.getLsbD_of_ge register _ (Nat.le_of_not_lt inRegister)]

end Fields

end Ws63Rf.Masks
