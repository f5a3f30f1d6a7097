import Mathlib.Algebra.Order.Group.Unbundled.Int
import Ws63Rf.TdBase

/-! The comparison macros on arguments of any two integer types. Both arguments
are converted to the common type first, and a result that this type does not
have is undefined. -/
namespace Ws63Rf.ComparisonProofs
open CExpr Expr TdBase

/-! ## The alternatives that are chosen -/

section Choices
variable (a b : Value)

/-- An argument as the other one is compared with it. -/
def brought (a b : Value) : Int := (a.type.common b.type).convert a.toInt

theorem brought_right : (a.type.common b.type).convert b.toInt = brought b a := by
  rw [brought, IntType.common_comm]

theorem holds_brought : (a.type.common b.type).Holds (brought a b) :=
  IntType.holds_convert (IntType.bits_positive a.type b.type) _

theorem greater_yields :
    (greater (value a) (value b)).Yields .int (if brought b a < brought a b then 1 else 0) := by
  rw [← brought_right]
  exact (yields_value a).greater (yields_value b) rfl

theorem less_yields :
    (less (value a) (value b)).Yields .int (if brought a b < brought b a then 1 else 0) := by
  rw [← brought_right a b]
  exact (yields_value a).less (yields_value b) rfl

theorem first_yields : ((value a).cast (a.type.common b.type)).Yields (a.type.common b.type)
    (brought a b) :=
  (yields_value a).cast _

theorem second_yields : ((value b).cast (a.type.common b.type)).Yields (a.type.common b.type)
    (brought b a) := by
  rw [← brought_right]
  exact (yields_value b).cast _

theorem max_yields : (uapiMax a b).Yields (a.type.common b.type) (max (brought a b) (brought b a)) := by
  rw [uapiMax, (greater_yields a b).conditional]
  split
  · rw [max_eq_left (by omega)]
    exact first_yields a b
  · rw [max_eq_right (by omega)]
    exact second_yields a b

theorem min_yields : (uapiMin a b).Yields (a.type.common b.type) (min (brought a b) (brought b a)) := by
  rw [uapiMin, (less_yields a b).conditional]
  split
  · rw [min_eq_left (by omega)]
    exact first_yields a b
  · rw [min_eq_right (by omega)]
    exact second_yields a b

/-- A difference that is not negative is defined where the common type has it. -/
theorem denotes_difference (above : brought b a ≤ brought a b) (number : Int) :
    Denotes ((value a - value b).cast (a.type.common b.type)) number ↔
      brought a b - brought b a = number ∧ (a.type.common b.type).Holds number := by
  have positive := IntType.bits_positive a.type b.type
  have first := holds_brought a b
  have second := holds_brought b a
  rw [IntType.common_comm] at second
  have subtracted := (yields_value a).sub (yields_value b) (t := a.type.common b.type) rfl
  have overflows := (yields_value a).sub_overflow (yields_value b) (t := a.type.common b.type) rfl
  rw [brought_right, ← brought] at subtracted overflows
  refine denotes_iff_of_holds (fun holds => ?_) (fun outside => ?_) number
  · have yields := (subtracted fun _ => holds).cast (a.type.common b.type)
    rwa [IntType.convert_of_holds positive holds, IntType.convert_of_holds positive holds] at yields
  · have signed : (a.type.common b.type).signed = true := by
      -- an unsigned type has every difference that is not negative
      by_contra unsigned
      have nonneg := second.nonneg unsigned
      exact outside (first.below (by omega) (by omega))
    exact ⟨.overflow, by rw [overflows signed outside, cast_error]⟩

theorem denotes_sub (number : Int) : Denotes (uapiSub a b) number ↔
    max (brought a b - brought b a) 0 = number ∧ (a.type.common b.type).Holds number := by
  have positive := IntType.bits_positive a.type b.type
  rw [uapiSub, IntType.common_int, IntType.promoted_common, (greater_yields a b).conditional]
  split
  · rw [denotes_difference a b (by omega), max_eq_left (by omega)]
  · have zero := IntType.convert_of_holds positive (IntType.holds_zero (a.type.common b.type))
    have yields := (yields_int (n := 0) (by decide)).cast (a.type.common b.type)
    rw [Nat.cast_zero, zero] at yields
    have denoted := yields.denotes_iff number
    rw [max_eq_right (by omega)]
    refine denoted.trans ⟨?_, And.left⟩
    rintro rfl
    exact ⟨rfl, IntType.holds_zero _⟩

theorem denotes_absSub (number : Int) : Denotes (uapiAbsSub a b) number ↔
    |brought a b - brought b a| = number ∧ (a.type.common b.type).Holds number := by
  rw [uapiAbsSub, IntType.common_comm b.type, IntType.common_self, IntType.promoted_common, (greater_yields a b).conditional]
  split
  · rw [denotes_difference a b (by omega), abs_of_nonneg (by omega)]
  · rw [IntType.common_comm a.type, denotes_difference b a (by omega), abs_sub_comm,
      abs_of_nonneg (show 0 ≤ brought b a - brought a b by omega)]

/-- A promotion keeps the number, so only the negation may not be in the type. -/
theorem denotes_abs (number : Int) : Denotes (uapiAbs a) number ↔
    |a.toInt| = number ∧ a.type.promoted.Holds number := by
  have positive : 0 < a.type.promoted.bits := Nat.lt_of_lt_of_le (by decide) a.type.promoted_bits
  have held := IntType.holds_promoted a.holds_toInt
  have kept := IntType.convert_of_holds positive held
  have zero := IntType.convert_of_holds positive (IntType.holds_zero a.type.promoted)
  have above := (yields_value a).greater (yields_int (n := 0) (by decide)) (IntType.common_int a.type)
  rw [Nat.cast_zero, kept, zero] at above
  have chosen := above.conditional a.type.promoted (value a) (-value a)
  rw [uapiAbs, IntType.common_promoted]
  refine (congrArg (Denotes · number) chosen).to_iff.trans ?_
  split
  · have yields := (yields_value a).cast a.type.promoted
    rw [kept] at yields
    rw [yields.denotes_iff, abs_of_pos (by omega)]
    constructor
    · rintro rfl
      exact ⟨rfl, held⟩
    · exact And.left
  · have negated := (yields_value a).neg rfl
    have overflows := (yields_value a).neg_overflow rfl
    rw [kept] at negated overflows
    rw [abs_of_nonpos (by omega)]
    refine denotes_iff_of_holds (fun holds => ?_) (fun outside => ?_) number
    · have yields := (negated fun _ => holds).cast a.type.promoted
      rwa [IntType.convert_of_holds positive holds, IntType.convert_of_holds positive holds] at yields
    · have signed : a.type.promoted.signed = true := by
        by_contra unsigned
        have nonneg := held.nonneg unsigned
        exact outside (held.below (by omega) (by omega))
      exact ⟨.overflow, by rw [overflows signed outside, cast_error]⟩

end Choices

/-! ## Exactness -/

/-- The macros are right about the numbers that their arguments stand for, and
undefined where the common type does not have the result. -/
structure Exact (a b : Value) : Prop where
  max : Denotes (uapiMax a b) (max a.toInt b.toInt)
  min : Denotes (uapiMin a b) (min a.toInt b.toInt)
  sub : ∀ number, Denotes (uapiSub a b) number ↔
    Max.max (a.toInt - b.toInt) 0 = number ∧ (a.type.common b.type).Holds number
  absSub : ∀ number, Denotes (uapiAbsSub a b) number ↔
    |a.toInt - b.toInt| = number ∧ (a.type.common b.type).Holds number

theorem brought_eq_iff (a b : Value) :
    brought a b = a.toInt ↔ (a.type.common b.type).signed = true ∨ 0 ≤ a.toInt :=
  (IntType.convert_eq_iff (IntType.bits_positive a.type b.type)).trans
    (IntType.holds_common_iff a.holds_toInt)

/-- Nothing is negative in an unsigned common type. -/
theorem brought_nonneg {a b : Value} (unsigned : ¬ (a.type.common b.type).signed = true) :
    0 ≤ brought a b :=
  (holds_brought a b).nonneg unsigned

/-- They are right exactly where no negative number is converted to an unsigned
type on account of the other argument. -/
theorem comparisons_exact_iff (a b : Value) : Exact a b ↔
    (a.type.common b.type).signed = true ∨ 0 ≤ a.toInt ∧ 0 ≤ b.toInt := by
  constructor
  · rintro ⟨-, least, -, -⟩
    by_cases signed : (a.type.common b.type).signed = true
    · exact .inl signed
    · have first := brought_nonneg signed
      rw [IntType.common_comm] at signed
      have second := brought_nonneg signed
      have same := ((min_yields a b).denotes_iff _).mp least
      exact .inr (by omega)
  · intro kept
    have first : brought a b = a.toInt := (brought_eq_iff a b).mpr (kept.imp_right And.left)
    have second : brought b a = b.toInt := by
      rw [brought_eq_iff, IntType.common_comm]
      exact kept.imp_right And.right
    have max := (max_yields a b).denotes
    have min := (min_yields a b).denotes
    have sub := denotes_sub a b
    have absSub := denotes_absSub a b
    rw [first, second] at max min
    simp only [first, second] at sub absSub
    exact ⟨max, min, sub, absSub⟩

/-! ## Limits -/

section Limits
variable {v : Value}

/-- Beside a constant of type `int`, what is promoted to `int` keeps its number. -/
theorem convert_int (promoted : v.type.promoted = .int) : IntType.int.convert v.toInt = v.toInt := by
  have holds := IntType.holds_promoted v.holds_toInt
  rw [promoted] at holds
  exact IntType.convert_of_holds (by decide) holds

theorem common_of_promoted (promoted : v.type.promoted = .int) {t : IntType} :
    v.type.common t = IntType.int.common t := by
  have int : IntType.int.promoted = .int := rfl
  rw [IntType.common, IntType.common, promoted, int]

theorem below_yields (promoted : v.type.promoted = .int) {limit : Expr} {n : Int}
    (yields : limit.Yields .int n) (holds : IntType.int.Holds n) :
    (less (value v) limit).Yields .int (if v.toInt < n then 1 else 0) := by
  have compared := (yields_value v).less yields (common_of_promoted promoted)
  rw [show IntType.int.common .int = .int from rfl, convert_int promoted,
    IntType.convert_of_holds (by decide) holds] at compared
  exact compared

theorem above_yields (promoted : v.type.promoted = .int) {limit : Expr} {n : Int}
    (yields : limit.Yields .int n) (holds : IntType.int.Holds n) :
    (greater (value v) limit).Yields .int (if v.toInt > n then 1 else 0) := by
  have compared := (yields_value v).greater yields (common_of_promoted promoted)
  rw [show IntType.int.common .int = .int from rfl, convert_int promoted,
    IntType.convert_of_holds (by decide) holds] at compared
  exact compared

/-- The limits of the 16-bit and the 8-bit types are where they should be. The
least 32-bit number is the `unsigned int` 2^31, and everything that is not
negative is below it. -/
theorem limits_decide (v : Value) (promoted : v.type.promoted = .int) :
    Denotes (less (value v) tdS16Min) (if v.toInt < -2 ^ 15 then 1 else 0) ∧
    Denotes (greater (value v) tdS16Max) (if v.toInt > 2 ^ 15 - 1 then 1 else 0) ∧
    Denotes (less (value v) tdS8Min) (if v.toInt < -2 ^ 7 then 1 else 0) ∧
    Denotes (greater (value v) tdS8Max) (if v.toInt > 2 ^ 7 - 1 then 1 else 0) ∧
    Denotes (greater (value v) tdS32Max) 0 ∧
    Denotes (less (value v) tdS32Min) (if 0 ≤ v.toInt then 1 else 0) := by
  have inInt : -2 ^ 31 ≤ v.toInt ∧ v.toInt < 2 ^ 31 := by
    have holds := IntType.holds_promoted v.holds_toInt
    rw [promoted] at holds
    exact holds
  refine ⟨(below_yields promoted ⟨_, rfl, rfl⟩ (by decide)).denotes,
    (above_yields promoted ⟨_, rfl, rfl⟩ (by decide)).denotes,
    (below_yields promoted ⟨_, rfl, rfl⟩ (by decide)).denotes,
    (above_yields promoted ⟨_, rfl, rfl⟩ (by decide)).denotes, ?_, ?_⟩
  · have largest : tdS32Max.Yields .int (2 ^ 31 - 1) := ⟨_, rfl, rfl⟩
    have above := above_yields promoted largest (by decide)
    rw [if_neg (by omega)] at above
    exact above.denotes
  · have least : tdS32Min.Yields tdU32 (2 ^ 31) := ⟨_, rfl, rfl⟩
    have below := (yields_value v).less least (common_of_promoted promoted)
    have converted : tdU32.convert v.toInt = v.toInt % 2 ^ 32 := rfl
    rw [show IntType.int.common tdU32 = tdU32 from rfl, converted,
      show tdU32.convert (2 ^ 31) = 2 ^ 31 from rfl] at below
    have sign : v.toInt % 2 ^ 32 < 2 ^ 31 ↔ 0 ≤ v.toInt := by omega
    simp only [sign] at below
    exact below.denotes

end Limits

end Ws63Rf.ComparisonProofs
