import Ws63Rf.Masks
import Ws63Rf.OalUtil
import Ws63Rf.TdBase

/-! The alignment macros of both headers against the least and the greatest
multiple of a power of two. Whether the mask is widened before it is
complemented decides what becomes of 64-bit values. -/
namespace Ws63Rf.AlignmentProofs
open CExpr Expr TdBase OalUtil Masks

/-- Each macro denotes the multiple it is named for. -/
structure Exact (operand boundary : Expr) (up down : Nat) : Prop where
  uapiByteAlign : Denotes (uapiByteAlign operand boundary) up
  alignNext : Denotes (alignNext operand boundary) up
  osalPadding : Denotes (osalPadding operand boundary) up
  osalRoundUp : Denotes (osalRoundUp operand boundary) up
  roundUp : Denotes (roundUp operand boundary) up
  osalRoundDown : Denotes (osalRoundDown operand boundary) down
  roundDown : Denotes (roundDown operand boundary) down

section Words
variable {m n : Nat} {operand : BitVec m} {boundary : BitVec n}

/-! ## What the macros compute -/

theorem byteAlign_words (wide : 32 ≤ n) (fits : n ≤ m) :
    uapiByteAlign (word operand) (word boundary) =
      word ((operand + boundary.setWidth m - 1) &&& (~~~(boundary - 1)).setWidth m) := by
  rw [uapiByteAlign, word_add_word wide fits, word_sub_one (wide.trans fits), word_sub_one wide,
    complement_word wide, word_and_word wide fits]
  rfl

theorem alignNext_words (wide : 32 ≤ n) (fits : n ≤ m) :
    alignNext (word operand) (word boundary) =
      word ((operand + (boundary - 1).setWidth m) &&& (~~~(boundary - 1)).setWidth m) := by
  rw [alignNext, word_sub_one wide, word_add_word wide fits, complement_word wide,
    word_and_word wide fits]
  rfl

theorem roundDown_words (wide : 32 ≤ n) (fits : n ≤ m) :
    osalRoundDown (word operand) (word boundary) =
      word (operand &&& (~~~(boundary - 1)).setWidth m) ∧
    roundDown (word operand) (word boundary) =
      word (operand &&& ~~~(boundary - 1).setWidth m) := by
  constructor
  · rw [osalRoundDown, word_sub_one wide, complement_word wide, word_and_word wide fits]
    rfl
  · rw [roundDown, roundMask, word_sub_one wide, castLike_word, complement_word (wide.trans fits),
      word_and_word (wide.trans fits) (Nat.le_refl m), BitVec.setWidth_eq]
    rfl

theorem roundUp_words (wide : 32 ≤ n) (fits : n ≤ m) :
    osalRoundUp (word operand) (word boundary) =
      word ((operand - 1 ||| (boundary - 1).setWidth m) + 1) ∧
    roundUp (word operand) (word boundary) =
      word ((operand - 1 ||| (boundary - 1).setWidth m) + 1) := by
  constructor
  · rw [osalRoundUp, word_sub_one (wide.trans fits), word_sub_one wide, word_or_word wide fits,
      word_add_one (wide.trans fits)]
    rfl
  · rw [roundUp, roundMask, word_sub_one (wide.trans fits), word_sub_one wide, castLike_word,
      word_or_word (wide.trans fits) (Nat.le_refl m), BitVec.setWidth_eq,
      word_add_one (wide.trans fits)]
    rfl

/-! ## What they compute it for -/

theorem toNat_widened (fits : n ≤ m) (power : boundary.toNat = 2 ^ k) :
    (boundary.setWidth m).toNat = 2 ^ k := by
  rw [BitVec.toNat_setWidth_of_le fits, power]

/-- The predecessor may be taken before or after widening. -/
theorem widened_pred (fits : n ≤ m) (power : boundary.toNat = 2 ^ k) :
    (boundary - 1).setWidth m = boundary.setWidth m - 1 := by
  apply BitVec.eq_of_toNat_eq
  rw [toNat_pred (toNat_widened fits power), BitVec.toNat_setWidth_of_le fits, toNat_pred power]

/-- The macros that fill and add, and those that widen their mask before they
complement it, are exact at every width. The others are exact modulo the width
of the boundary. -/
theorem exact_iff (wide : 32 ≤ n) (fits : n ≤ m) (power : boundary.toNat = 2 ^ k)
    (least : LeastMultiple (2 ^ k) operand.toNat up)
    (greatest : GreatestMultiple (2 ^ k) operand.toNat down) (room : up < 2 ^ m) :
    Exact (word operand) (word boundary) up down ↔ up < 2 ^ n := by
  have widened := widened_pred fits power
  have powerWide := toNat_widened fits power
  have clearedLow := toNat_clear_narrow (isLowMask_pred power) (isLowMask_pred powerWide)
  have cleared := (clear_greatest powerWide operand).unique greatest
  have added : (operand + (boundary - 1).setWidth m &&& (~~~(boundary - 1)).setWidth m).toNat =
      up % 2 ^ n := by
    rw [widened, clearedLow, add_then_clear powerWide least room]
  constructor
  · intro macros
    have denoted := (denotes_word (alignNext_words wide fits) up).mp macros.alignNext
    rw [← denoted, added]
    exact Nat.mod_lt _ (Nat.two_pow_pos n)
  · intro narrow
    rw [Nat.mod_eq_of_lt narrow] at added
    have summed : (operand + boundary.setWidth m - 1 &&& (~~~(boundary - 1)).setWidth m).toNat = up := by
      rw [add_sub_assoc, ← widened]
      exact added
    have filled : ((operand - 1 ||| (boundary - 1).setWidth m) + 1).toNat = up := by
      rw [widened]
      exact fill_then_add powerWide least room
    have below : down < 2 ^ n :=
      Nat.lt_of_le_of_lt (Nat.le_trans greatest.1.2 least.1.2) narrow
    constructor
    · exact (denotes_word (byteAlign_words wide fits) up).mpr summed
    · exact (denotes_word (alignNext_words wide fits) up).mpr added
    · exact (denotes_word (byteAlign_words wide fits) up).mpr summed
    · exact (denotes_word (roundUp_words wide fits).1 up).mpr filled
    · exact (denotes_word (roundUp_words wide fits).2 up).mpr filled
    · rw [denotes_word (roundDown_words wide fits).1, clearedLow, cleared, Nat.mod_eq_of_lt below]
    · rw [denotes_word (roundDown_words wide fits).2, widened, cleared]

/-- The least multiple fits the width of the boundary exactly where the number
and the boundary add up to no more than its modulus. -/
theorem least_below_iff (power : boundary.toNat = 2 ^ k) (least : LeastMultiple (2 ^ k) number up) :
    up < 2 ^ n ↔ number + boundary.toNat ≤ 2 ^ n := by
  have small : 2 ^ k < 2 ^ n := power ▸ boundary.isLt
  have positive := Nat.two_pow_pos k
  rw [power]
  constructor
  · intro below
    have room := multiple_room power least.1.1 below
    have above := least.1.2
    omega
  · intro together
    have steps : 2 ^ k ∣ 2 ^ n :=
      Nat.pow_dvd_pow 2 ((Nat.pow_lt_pow_iff_right (by omega)).mp small).le
    have bound := least.2 ⟨Nat.dvd_sub steps dvd_rfl, Nat.le_sub_of_add_le together⟩
    omega

end Words

/-- With a power of two in a 32-bit variable, all seven macros are exact on
every 32-bit value whose least multiple fits. On 64-bit values they all are
exactly where the value and the boundary add up to at most 2^32, so that the
multiple fits 32 bits. -/
theorem alignment_exact_iff (boundary : BitVec 32) (power : boundary.toNat.isPowerOfTwo) :
    (∀ (operand : BitVec 32) (up down : Nat), LeastMultiple boundary.toNat operand.toNat up →
      GreatestMultiple boundary.toNat operand.toNat down → up < 2 ^ 32 →
      Exact (lvalue tdU32 operand) (lvalue tdU32 boundary) up down) ∧
    ∀ (operand : BitVec 64) (up down : Nat), LeastMultiple boundary.toNat operand.toNat up →
      GreatestMultiple boundary.toNat operand.toNat down → up < 2 ^ 64 →
      (Exact (lvalue tdU64 operand) (lvalue tdU32 boundary) up down ↔
        operand.toNat + boundary.toNat ≤ 2 ^ 32) := by
  obtain ⟨k, power⟩ := power
  constructor
  · intro operand up down least greatest fits
    rw [power] at least greatest
    exact (exact_iff (Nat.le_refl 32) (Nat.le_refl 32) power least greatest fits).mpr fits
  · intro operand up down least greatest fits
    rw [power] at least greatest
    rw [← least_below_iff power least]
    exact exact_iff (Nat.le_refl 32) (by omega) power least greatest fits

/-- 2^32 + 1 is rounded up to 16 at a boundary of 16, its upper half lost. -/
theorem byteAlign_loses_upper_half :
    ¬ ∀ (boundary : BitVec 32), boundary.toNat.isPowerOfTwo → ∀ (operand : BitVec 64) (up down : Nat),
      LeastMultiple boundary.toNat operand.toNat up →
      GreatestMultiple boundary.toNat operand.toNat down → up < 2 ^ 64 →
      Exact (lvalue tdU64 operand) (lvalue tdU32 boundary) up down := by
  intro always
  have least : LeastMultiple 16 (2 ^ 32 + 1) (2 ^ 32 + 16) :=
    (leastMultiple_iff (by omega) _ _).mpr (greatestMultiple_div 16 (2 ^ 32 + 16))
  have greatest : GreatestMultiple 16 (2 ^ 32 + 1) (2 ^ 32) := greatestMultiple_div 16 (2 ^ 32 + 1)
  have macros := always 16#32 ⟨4, rfl⟩ 4294967297#64 _ _ least greatest (by omega)
  have evaluated : uapiByteAlign (lvalue tdU64 4294967297#64) (lvalue tdU32 16#32) = word 16#64 :=
    byteAlign_words (Nat.le_refl 32) (by omega)
  have denoted : (16 : Nat) = 2 ^ 32 + 16 :=
    (denotes_word evaluated (2 ^ 32 + 16)).mp macros.uapiByteAlign
  omega

/-- At a boundary of 4096: the value 1 of either width. -/
theorem alignment_exact_iff_page :
    (4096#32).toNat.isPowerOfTwo ∧ Exact (lvalue tdU32 1#32) (lvalue tdU32 4096#32) 4096 0 ∧
      Exact (lvalue tdU64 1#64) (lvalue tdU32 4096#32) 4096 0 := by
  have power : (4096#32).toNat.isPowerOfTwo := ⟨12, rfl⟩
  have least : LeastMultiple 4096 1 4096 :=
    (leastMultiple_iff (by omega) _ _).mpr (greatestMultiple_div 4096 4096)
  have greatest : GreatestMultiple 4096 1 0 := greatestMultiple_div 4096 1
  obtain ⟨narrow, wide⟩ := alignment_exact_iff 4096#32 power
  exact ⟨power, narrow 1#32 4096 0 least greatest (by omega),
    (wide 1#64 4096 0 least greatest (by omega)).mpr (by decide)⟩

end Ws63Rf.AlignmentProofs
