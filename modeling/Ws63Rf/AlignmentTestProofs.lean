import Ws63Rf.AlignmentProofs
import Ws63Rf.ComparisonProofs

/-! The alignment tests. They look at the low 32 bits of a value, which decide
divisibility by every boundary up to 2^32, and every result of a rounding macro
passes them, even one that has lost its upper half. -/
namespace Ws63Rf.AlignmentTestProofs
open CExpr Expr TdBase OalUtil Masks AlignmentProofs ComparisonProofs

section Tests
variable {boundary : Value} {k : Nat}

/-- A boundary less one, as the tests mask with it. -/
theorem mask_yields (power : boundary.toInt = 2 ^ k) :
    boundary.type.promoted.Holds (2 ^ k - 1) ∧
      (value boundary - 1).Yields boundary.type.promoted (2 ^ k - 1) := by
  have positive : 0 < boundary.type.promoted.bits :=
    Nat.lt_of_lt_of_le (by decide) boundary.type.promoted_bits
  have large : (0 : Int) < 2 ^ k := Int.pow_pos (by omega)
  have held := IntType.holds_promoted boundary.holds_toInt
  rw [power] at held
  have one := IntType.convert_of_holds positive (held.below (by omega) (show (1 : Int) ≤ 2 ^ k by omega))
  have less := held.below (show (0 : Int) ≤ 2 ^ k - 1 by omega) (by omega)
  have yields := (yields_value boundary).sub (yields_int (n := 1) (by decide)) (IntType.common_int _)
  rw [power, IntType.convert_of_holds positive held, Nat.cast_one, one,
    IntType.convert_of_holds positive less] at yields
  exact ⟨less, yields fun _ => less⟩

/-- The test takes the low bits of the low 32 bits. -/
theorem remainder_yields (power : boundary.toInt = 2 ^ k) (v : Value) :
    (tdU32.common boundary.type.promoted).Holds (2 ^ k - 1) ∧
      ((value v).cast tdU32 &&& (value boundary - 1)).Yields (tdU32.common boundary.type.promoted)
        (v.toInt % 2 ^ 32 % 2 ^ k) := by
  obtain ⟨held, mask⟩ := mask_yields power
  have large : (0 : Int) < 2 ^ k := Int.pow_pos (by omega)
  have held' : (tdU32.common boundary.type.promoted).Holds (2 ^ k - 1) := by
    rw [IntType.common_comm]
    exact (IntType.holds_common_iff held).mpr (.inr (by omega))
  have cut := ((yields_value v).cast tdU32).and_low mask rfl held'
  rw [show tdU32.convert v.toInt = v.toInt % 2 ^ 32 from rfl] at cut
  exact ⟨held', cut⟩

/-- What it takes is compared with zero. -/
theorem test_yields (power : boundary.toInt = 2 ^ k) (v : Value) :
    (uapiIsByteAlign (value v) (value boundary)).Yields .int
      (if v.toInt % 2 ^ 32 % 2 ^ k = 0 then 1 else 0) := by
  obtain ⟨held, cut⟩ := remainder_yields power v
  have positive := IntType.bits_positive tdU32 boundary.type.promoted
  have large : (0 : Int) < 2 ^ k := Int.pow_pos (by omega)
  have below := Int.emod_lt_of_pos (v.toInt % 2 ^ 32) large
  have kept := IntType.convert_of_holds positive
    (held.below (Int.emod_nonneg (v.toInt % 2 ^ 32) large.ne') (by omega))
  have zero := IntType.convert_of_holds positive (IntType.holds_zero _)
  have compared := cut.equal (yields_int (n := 0) (by decide))
    ((IntType.common_int _).trans (IntType.promoted_common _ _))
  rw [kept, Nat.cast_zero, zero] at compared
  exact compared

theorem tests_decide (power : boundary.toInt = 2 ^ k) (within : k ≤ 32) (v : Value) :
    Denotes (uapiIsByteAlign (value v) (value boundary)) (if (2 : Int) ^ k ∣ v.toInt then 1 else 0) ∧
    Denotes (osalIsAligned (value v) (value boundary)) (if (2 : Int) ^ k ∣ v.toInt then 1 else 0) := by
  have yields := test_yields power v
  have divides : (2 : Int) ^ k ∣ 2 ^ 32 := pow_dvd_pow 2 within
  simp only [Int.emod_emod_of_dvd _ divides, ← Int.dvd_iff_emod_eq_zero] at yields
  exact ⟨yields.denotes, yields.denotes⟩

/-- Up to a boundary of 2^32 both tests decide divisibility, of values of every
type; beyond, they would have to look at the upper half of a 64-bit value. -/
theorem tests_exact_iff (power : boundary.toInt = 2 ^ k) :
    (∀ v : Value,
      Denotes (uapiIsByteAlign (value v) (value boundary)) (if (2 : Int) ^ k ∣ v.toInt then 1 else 0) ∧
      Denotes (osalIsAligned (value v) (value boundary)) (if (2 : Int) ^ k ∣ v.toInt then 1 else 0)) ↔
    k ≤ 32 := by
  constructor
  · intro exact
    by_contra beyond
    have denoted := (exact ⟨tdU64, 0x100000000#64⟩).1
    have tested := ((test_yields power _).denotes_iff _).mp denoted
    have value : Value.toInt ⟨tdU64, 0x100000000#64⟩ = 2 ^ 32 := by decide
    have indivisible : ¬ (2 : Int) ^ k ∣ 2 ^ 32 := by
      intro divides
      have larger : (2 : Int) ^ 32 < 2 ^ k := mod_cast Nat.pow_lt_pow_right (by decide) (by omega)
      exact absurd (Int.le_of_dvd (by decide) divides) (by omega)
    rw [value, if_neg indivisible] at tested
    simp at tested
  · intro within
    exact tests_decide power within

/-- Boundaries of a page and of 2^40. -/
theorem tests_exact_iff_page :
    Denotes (uapiIsByteAlign (value ⟨tdU64, 0x500003000#64⟩) (value ⟨tdU32, 4096#32⟩)) 1 ∧
      ¬ ∀ v, Denotes (uapiIsByteAlign (value v) (value ⟨tdU64, 0x10000000000#64⟩))
        (if (2 : Int) ^ 40 ∣ v.toInt then 1 else 0) ∧
        Denotes (osalIsAligned (value v) (value ⟨tdU64, 0x10000000000#64⟩))
          (if (2 : Int) ^ 40 ∣ v.toInt then 1 else 0) := by
  have page : Value.toInt ⟨tdU32, 4096#32⟩ = 2 ^ 12 := by decide
  have huge : Value.toInt ⟨tdU64, 0x10000000000#64⟩ = 2 ^ 40 := by decide
  constructor
  · have tested := ((tests_exact_iff page).mpr (by decide) ⟨tdU64, 0x500003000#64⟩).1
    rwa [if_pos (by decide)] at tested
  · intro exact
    exact absurd ((tests_exact_iff huge).mp exact) (by decide)

end Tests

/-! ## Rounded values -/

section Rounded
variable {m n : Nat} {operand : BitVec m} {boundary : BitVec n}

/-- Clearing leaves a multiple, also where the mask was complemented first and
the upper half is lost. -/
theorem dvd_cleared (fits : n ≤ m) (power : boundary.toNat = 2 ^ k) (operand : BitVec m) :
    2 ^ k ∣ (operand &&& (~~~(boundary - 1)).setWidth m).toNat := by
  have small : k ≤ n := by
    have bound := boundary.isLt
    rw [power] at bound
    exact ((Nat.pow_lt_pow_iff_right Nat.one_lt_two).mp bound).le
  have steps : 2 ^ k ∣ 2 ^ n := Nat.pow_dvd_pow 2 small
  have widened := isLowMask_pred (toNat_widened fits power)
  rw [toNat_clear_narrow (isLowMask_pred power) widened, toNat_clear widened]
  exact (Nat.dvd_mod_iff steps).mpr (Nat.dvd_mul_left _ _)

/-- So does filling up and adding one, even where that wraps around. -/
theorem dvd_filled (fits : n ≤ m) (power : boundary.toNat = 2 ^ k) (operand : BitVec m) :
    2 ^ k ∣ ((operand ||| (boundary - 1).setWidth m) + 1).toNat := by
  have powerWide := toNat_widened fits power
  have bound := (boundary.setWidth m).isLt
  rw [powerWide] at bound
  have steps : 2 ^ k ∣ 2 ^ m :=
    Nat.pow_dvd_pow 2 ((Nat.pow_lt_pow_iff_right Nat.one_lt_two).mp bound).le
  have positive := Nat.two_pow_pos k
  have one : (1 : BitVec m).toNat = 1 := Nat.mod_eq_of_lt (Nat.lt_of_le_of_lt positive bound)
  rw [widened_pred fits power, BitVec.toNat_add, toNat_fill (isLowMask_pred powerWide), one,
    Nat.add_assoc, Nat.sub_add_cancel positive]
  exact (Nat.dvd_mod_iff steps).mpr (Nat.dvd_add (Nat.dvd_mul_left _ _) dvd_rfl)

/-- The rounding macros of both headers. -/
def roundings : List (Expr → Expr → Expr) :=
  [uapiByteAlign, alignNext, osalPadding, osalRoundUp, roundUp, osalRoundDown, roundDown]

theorem rounding_word (wide : 32 ≤ n) (fits : n ≤ m) (power : boundary.toNat = 2 ^ k)
    {rounding : Expr → Expr → Expr} (member : rounding ∈ roundings) (operand : BitVec m) :
    ∃ rounded : BitVec m, rounding (word operand) (word boundary) = word rounded ∧
      2 ^ k ∣ rounded.toNat := by
  simp only [roundings, List.mem_cons, List.not_mem_nil, or_false] at member
  rcases member with rfl | rfl | rfl | rfl | rfl | rfl | rfl
  · exact ⟨_, byteAlign_words wide fits, dvd_cleared fits power _⟩
  · exact ⟨_, alignNext_words wide fits, dvd_cleared fits power _⟩
  · exact ⟨_, byteAlign_words wide fits, dvd_cleared fits power _⟩
  · exact ⟨_, (roundUp_words wide fits).1, dvd_filled fits power _⟩
  · exact ⟨_, (roundUp_words wide fits).2, dvd_filled fits power _⟩
  · exact ⟨_, (roundDown_words wide fits).1, dvd_cleared fits power _⟩
  · refine ⟨_, (roundDown_words wide fits).2, ?_⟩
    rw [widened_pred fits power]
    exact (clear_greatest (toNat_widened fits power) operand).1.1

end Rounded

/-- Both tests find the operand aligned. -/
structure Passes (operand boundary : Expr) : Prop where
  uapiIsByteAlign : Denotes (uapiIsByteAlign operand boundary) 1
  osalIsAligned : Denotes (osalIsAligned operand boundary) 1

theorem passes_iff {m k : Nat} {boundary : BitVec 32} (power : boundary.toNat = 2 ^ k)
    (operand : BitVec m) : Passes (word operand) (word boundary) ↔ 2 ^ k ∣ operand.toNat := by
  have small : k < 32 := by
    have bound := boundary.isLt
    rw [power] at bound
    exact (Nat.pow_lt_pow_iff_right Nat.one_lt_two).mp bound
  have number : Value.toInt ⟨tdU32, boundary⟩ = 2 ^ k := by
    change (boundary.toNat : Int) = 2 ^ k
    exact_mod_cast power
  obtain ⟨uapi, osal⟩ := tests_decide number small.le ⟨⟨m, false⟩, operand⟩
  have same : (2 : Int) ^ k ∣ Value.toInt ⟨⟨m, false⟩, operand⟩ ↔ 2 ^ k ∣ operand.toNat := by
    change (2 : Int) ^ k ∣ (operand.toNat : Int) ↔ _
    exact_mod_cast Int.natCast_dvd_natCast
  constructor
  · intro passes
    by_contra indivisible
    rw [if_neg (fun divides => indivisible (same.mp divides))] at uapi
    exact absurd (passes.uapiIsByteAlign.unique uapi) (by decide)
  · intro divides
    rw [if_pos (same.mpr divides)] at uapi osal
    exact ⟨uapi, osal⟩

/-- Whatever a rounding macro returns is aligned, also where the number is not
the multiple that it should be; and a 32-bit value is aligned where none of
the macros changes it. -/
theorem rounded_passes (boundary : BitVec 32) (power : boundary.toNat.isPowerOfTwo) :
    (∀ rounding ∈ roundings, ∀ operand : BitVec 32,
      Passes (rounding (lvalue tdU32 operand) (lvalue tdU32 boundary)) (lvalue tdU32 boundary)) ∧
    (∀ rounding ∈ roundings, ∀ operand : BitVec 64,
      Passes (rounding (lvalue tdU64 operand) (lvalue tdU32 boundary)) (lvalue tdU32 boundary)) ∧
    ∀ operand : BitVec 32, Passes (lvalue tdU32 operand) (lvalue tdU32 boundary) ↔
      ∀ rounding ∈ roundings,
        Denotes (rounding (lvalue tdU32 operand) (lvalue tdU32 boundary)) operand.toNat := by
  obtain ⟨k, power⟩ := power
  have passes : ∀ {m : Nat}, 32 ≤ m → ∀ rounding ∈ roundings, ∀ operand : BitVec m,
      Passes (rounding (word operand) (word boundary)) (word boundary) := by
    intro m fits rounding member operand
    obtain ⟨rounded, evaluated, divides⟩ := rounding_word (Nat.le_refl 32) fits power member operand
    rw [evaluated]
    exact (passes_iff power rounded).mpr divides
  refine ⟨passes (Nat.le_refl 32), passes (by decide), ?_⟩
  intro operand
  constructor
  · intro aligned
    have divides := (passes_iff power operand).mp aligned
    have least : LeastMultiple (2 ^ k) operand.toNat operand.toNat :=
      ⟨⟨divides, Nat.le_refl _⟩, fun _ above => above.2⟩
    have greatest : GreatestMultiple (2 ^ k) operand.toNat operand.toNat :=
      ⟨⟨divides, Nat.le_refl _⟩, fun _ below => below.2⟩
    obtain ⟨byteAlign, next, padding, osalUp, up, osalDown, down⟩ :=
      (exact_iff (Nat.le_refl 32) (Nat.le_refl 32) power least greatest operand.isLt).mpr operand.isLt
    intro rounding member
    simp only [roundings, List.mem_cons, List.not_mem_nil, or_false] at member
    rcases member with rfl | rfl | rfl | rfl | rfl | rfl | rfl
    exacts [byteAlign, next, padding, osalUp, up, osalDown, down]
  · intro unchanged
    have member : alignNext ∈ roundings := by simp [roundings]
    obtain ⟨rounded, evaluated, divides⟩ :=
      rounding_word (Nat.le_refl 32) (Nat.le_refl 32) power member operand
    have same := (denotes_word evaluated operand.toNat).mp (unchanged _ member)
    exact (passes_iff power operand).mpr (same ▸ divides)

/-- Rounding 2^32 + 5 to a boundary of 8 loses its upper half and is aligned. -/
theorem rounded_passes_lost : (8#32).toNat.isPowerOfTwo ∧
    Passes (uapiByteAlign (lvalue tdU64 0x100000005#64) (lvalue tdU32 8#32)) (lvalue tdU32 8#32) := by
  have power : (8#32).toNat.isPowerOfTwo := ⟨3, rfl⟩
  exact ⟨power, (rounded_passes 8#32 power).2.1 uapiByteAlign (by simp [roundings]) 0x100000005#64⟩

/-! ## A boundary of four -/

/-- The remainder is taken in the value's own type. -/
theorem unalign_yields (v : Value) :
    (uapiIsUnalignU32 (value v)).Yields v.type.promoted (v.toInt % 4) := by
  have held : v.type.promoted.Holds (2 ^ 2 - 1) := by
    have three : IntType.int.Holds (2 ^ 2 - 1) := by decide
    rw [← IntType.common_int, IntType.common_comm]
    exact (IntType.holds_common_iff three).mpr (.inr (by decide))
  exact (yields_value v).and_low (k := 2) (yields_int (n := 3) (by decide)) (IntType.common_int v.type) held

theorem align_u32_denotes (v : Value) :
    Denotes (uapiIsAlignU32 (value v)) (if 4 ∣ v.toInt then 1 else 0) := by
  have negated := (unalign_yields v).lnot
  simp only [← Int.dvd_iff_emod_eq_zero] at negated
  exact negated.denotes

section Words
variable {m : Nat}

theorem align4_word (wide : 32 ≤ m) (operand : BitVec m) :
    uapiAlign4 (word operand) = word ((operand + 3).setWidth 32 &&& ~~~3#32) := by
  have three : Value.as ⟨m, false⟩ ⟨.int, 3#32⟩ = 3 := Value.as_eq_ofInt ⟨m, false⟩ ⟨.int, 3#32⟩
  have sum : word operand + 3 = word (operand + 3) := by
    refine (arithmetic_unsigned _ (Nat.le_refl 32) wide).trans ?_
    rw [BitVec.setWidth_eq]
    exact congrArg (fun added => word (operand + added)) three
  rw [uapiAlign4, sum]
  exact arithmetic_int _ ((operand + 3).setWidth 32) (~~~3#32)

/-- The multiple of four is exact where it fits 32 bits, which the value that
is rounded may be wider than. -/
theorem align4_exact_iff (wide : 32 ≤ m) (operand : BitVec m) {up : Nat}
    (least : LeastMultiple 4 operand.toNat up) (room : up < 2 ^ m) :
    Denotes (uapiAlign4 (word operand)) up ↔ up < 2 ^ 32 := by
  have large : 2 ^ 32 ≤ 2 ^ m := Nat.pow_le_pow_right Nat.two_pos wide
  have power : (4#m).toNat = 2 ^ 2 := Nat.mod_eq_of_lt (by omega)
  have space := multiple_room power least.1.1 room
  have above := least.1.2
  have greatest := greatestMultiple_div 4 (operand.toNat + 3)
  have multiple := ((leastMultiple_iff (by decide) _ _).mp least).unique greatest
  have three : (3 : BitVec m).toNat = 3 := Nat.mod_eq_of_lt (show 3 < 2 ^ m by omega)
  have sum : (operand + 3).toNat = operand.toNat + 3 := by
    rw [BitVec.toNat_add, three, Nat.mod_eq_of_lt (by omega)]
  have cleared : ((operand + 3).setWidth 32 &&& ~~~3#32).toNat = (operand.toNat + 3) % 2 ^ 32 / 4 * 4 := by
    have low : IsLowMask 2 (3#32) := isLowMask_pred (show (4#32).toNat = 2 ^ 2 from rfl)
    rw [toNat_clear low, BitVec.toNat_setWidth, sum]
    rfl
  rw [denotes_word (align4_word wide operand), cleared]
  omega

/-- A length of 61 bytes in a 64-bit variable. -/
theorem align4_exact_iff_length : Denotes (uapiAlign4 (word 61#64)) 64 := by
  have least : LeastMultiple 4 61 64 :=
    (leastMultiple_iff (by decide) _ _).mpr (greatestMultiple_div 4 64)
  exact (align4_exact_iff (by decide) 61#64 least (by decide)).mpr (by decide)

end Words

end Ws63Rf.AlignmentTestProofs
