import Ws63Rf.Masks
import Ws63Rf.TdBase

/-! The register field macros as accessors of a field, in the three register
widths. The narrow families compute with an `int`, the 32-bit family with an
`unsigned int`; only there can a shift by the number of bits leave the type. -/
namespace Ws63Rf.RegFieldProofs
open CExpr Expr TdBase Masks

/-! ## The type the macros compute in -/

/-- An operand of the promoted type of a register, which is signed for the
narrow ones. -/
def full (signed : Bool) (pattern : BitVec 32) : Expr := value ⟨⟨32, signed⟩, pattern⟩

section Operators
variable {w pos : Nat} {signed : Bool} {a b : BitVec 32}

theorem promoted_register (narrow : w ≤ 32) :
    IntType.promoted ⟨w, false⟩ = ⟨32, decide (w < 32)⟩ := by
  by_cases small : w < 32
  · simp [IntType.promoted, IntType.int, small]
  · obtain rfl : w = 32 := by omega
    rfl

theorem promoted_full : IntType.promoted ⟨32, signed⟩ = ⟨32, signed⟩ := rfl

theorem common_full : IntType.common ⟨32, signed⟩ ⟨32, signed⟩ = ⟨32, signed⟩ := by
  cases signed <;> rfl

theorem common_int : IntType.common ⟨32, signed⟩ .int = ⟨32, signed⟩ := by
  cases signed <;> rfl

theorem common_register (narrow : w ≤ 32) :
    IntType.common ⟨w, false⟩ ⟨32, decide (w < 32)⟩ = ⟨32, decide (w < 32)⟩ := by
  rw [IntType.common, promoted_register narrow]
  simp [promoted_full]

theorem full_or_full : full signed a ||| full signed b = full signed (a ||| b) := by
  refine (arithmetic_common common_full).trans ?_
  rw [as_same_width, as_same_width]
  rfl

theorem full_and_full : full signed a &&& full signed b = full signed (a &&& b) := by
  refine (arithmetic_common common_full).trans ?_
  rw [as_same_width, as_same_width]
  rfl

theorem complement_full : ~~~full signed a = full signed (~~~a) := by
  refine (complement_promoted promoted_full).trans ?_
  rw [as_same_width]
  rfl

theorem full_shifted (inside : pos < 32) : full signed a <<< int pos = full signed (a <<< pos) := by
  refine (shift_defined promoted_full (toInt_int (by omega)) inside).trans ?_
  rw [as_same_width]
  rfl

theorem register_and_full (narrow : w ≤ 32) (reg : BitVec w) :
    lvalue ⟨w, false⟩ reg &&& full (decide (w < 32)) b =
      full (decide (w < 32)) (reg.setWidth 32 &&& b) := by
  refine (arithmetic_common (common_register narrow)).trans ?_
  rw [as_same_width]
  rfl

theorem register_shifted (narrow : w ≤ 32) (inside : pos < 32) (reg : BitVec w) :
    lvalue ⟨w, false⟩ reg <<< int pos = full (decide (w < 32)) (reg.setWidth 32 <<< pos) :=
  shift_defined (promoted_register narrow) (toInt_int (by omega)) inside

/-- A narrow register is not negative as an `int`, so it is shifted in zeros. -/
theorem register_shifted_down (narrow : w ≤ 32) (inside : pos < 32) (reg : BitVec w) :
    lvalue ⟨w, false⟩ reg >>> int pos = full (decide (w < 32)) (reg.setWidth 32 >>> pos) := by
  refine (shift_defined (promoted_register narrow) (toInt_int (by omega)) inside).trans ?_
  change full _ (if decide (w < 32) = true then (reg.setWidth 32).sshiftRight pos
    else reg.setWidth 32 >>> pos) = _
  by_cases small : w < 32
  · have positive : (reg.setWidth 32).msb = false := by
      rw [BitVec.msb_eq_getLsbD_last, BitVec.getLsbD_setWidth]
      simp [BitVec.getLsbD_of_ge reg 31 (by omega)]
    rw [BitVec.sshiftRight_eq_of_msb_false positive, ite_self]
  · rw [if_neg (by simpa using small)]

/-- Below its sign bit an operand denotes its pattern in both types. -/
theorem denotes_full (small : 2 * a.toNat < 2 ^ 32) : Denotes (full signed a) a.toNat := by
  refine ⟨_, rfl, ?_⟩
  cases signed with
  | false => rfl
  | true => exact BitVec.toInt_eq_toNat_of_lt small

/-- What is computed is cut to the width of the register where it is stored. -/
theorem stored_full (narrow : w ≤ 32) :
    stored ⟨w, false⟩ (full signed a) = .ok (a.setWidth w) := by
  cases signed with
  | false => rfl
  | true => exact congrArg Except.ok (BitVec.signExtend_eq_setWidth_of_le _ narrow)

end Operators

/-! ## The three families -/

inductive Family where
  | reg32
  | reg16
  | reg8

namespace Family

/-- The width of the registers. -/
def width : Family → Nat
  | reg32 => 32
  | reg16 => 16
  | reg8 => 8

def setbits : (family : Family) → BitVec family.width → Expr → Expr → Expr →
    Except Undefined (BitVec family.width)
  | reg32 => uapiRegSetbits
  | reg16 => uapiRegSetbits16
  | reg8 => uapiRegSetbits8

def clrbits : (family : Family) → BitVec family.width → Expr → Expr →
    Except Undefined (BitVec family.width)
  | reg32 => uapiRegClrbits
  | reg16 => uapiRegClrbits16
  | reg8 => uapiRegClrbits8

def getbits : (family : Family) → BitVec family.width → Expr → Expr → Expr
  | reg32 => uapiRegGetbits
  | reg16 => uapiRegGetbits16
  | reg8 => uapiRegGetbits8

theorem setbits_eq (family : Family) : family.setbits = regSetbits ⟨family.width, false⟩ := by
  cases family <;> rfl

theorem clrbits_eq (family : Family) : family.clrbits = regClrbits ⟨family.width, false⟩ := by
  cases family <;> rfl

theorem getbits_eq (family : Family) : family.getbits = regGetbits ⟨family.width, false⟩ := by
  cases family <;> rfl

theorem width_le (family : Family) : family.width ≤ 32 := by
  cases family <;> decide

/-- The narrow families leave the sign bit of an `int` alone. -/
theorem width_le_of_lt {family : Family} (small : family.width < 32) : family.width ≤ 16 := by
  cases family with
  | reg32 => exact absurd small (Nat.lt_irrefl 32)
  | reg16 => exact Nat.le_refl 16
  | reg8 => exact Nat.le_add_left 8 8

end Family

/-! ## The mask -/

section Mask
variable {family : Family} {bits : Nat} {signed : Bool} {a : BitVec 32}

/-- In a narrow register's fields the shifted one is positive, so that one can
be taken off it. -/
theorem no_overflow (small : bits ≤ 16) : (1#32 <<< bits).ssubOverflow 1#32 = false := by
  have bound : 2 ^ bits ≤ 2 ^ 16 := Nat.pow_le_pow_right (by omega) small
  have number : (1#32 <<< bits).toNat = 2 ^ bits := toNat_shifted_one (by omega)
  have positive : (1#32 <<< bits).toInt = (2 ^ bits : Nat) := by
    rw [BitVec.toInt_eq_toNat_of_lt (by omega), number]
  have one : (1#32).toInt = 1 := rfl
  rw [BitVec.ssubOverflow, positive, one]
  simp only [Bool.or_eq_false_iff, decide_eq_false_iff_not]
  omega

theorem full_sub_one (kept : signed = true → a.ssubOverflow 1#32 = false) :
    full signed a - 1 = full signed (a - 1#32) := by
  refine (arithmetic_common common_int).trans ?_
  rw [as_same_width]
  change (if signed && a.ssubOverflow (Value.as ⟨32, signed⟩ ⟨⟨32, true⟩, 1#32⟩) then
    Except.error Undefined.overflow else .ok (a - Value.as ⟨32, signed⟩ ⟨⟨32, true⟩, 1#32⟩)).map _ = _
  rw [as_same_width]
  cases signed with
  | false => rfl
  | true =>
    rw [kept rfl]
    rfl

theorem fieldMask_full (fits : bits ≤ family.width) (inside : bits < 32) :
    fieldMask ⟨family.width, false⟩ (int bits) =
      full (decide (family.width < 32)) (1#32 <<< bits - 1#32) := by
  have one : (BitVec.ofNat family.width 1).setWidth 32 = 1#32 := by cases family <;> rfl
  have shifted : (1 : Expr).cast ⟨family.width, false⟩ <<< int bits =
      full (decide (family.width < 32)) (1#32 <<< bits) := by
    change lvalue ⟨family.width, false⟩ (Value.as ⟨family.width, false⟩ ⟨⟨32, true⟩, 1#32⟩) <<<
      int bits = _
    rw [as_one, register_shifted family.width_le inside, one]
  rw [fieldMask, shifted]
  apply full_sub_one
  intro signed
  exact no_overflow (fits.trans (Family.width_le_of_lt (of_decide_eq_true signed)))

/-- A field as wide as the type would shift by the width of the type. -/
theorem fieldMask_undefined : fieldMask .unsignedInt (int 32) = .error .shiftCount := by
  have shifted : (1 : Expr).cast .unsignedInt <<< int 32 = Except.error .shiftCount :=
    shift_undefined rfl (toInt_int (by omega)) (Nat.le_refl 32)
  exact congrArg (fun power : Expr => power - 1) shifted

theorem isLowMask_field (inside : bits < 32) : IsLowMask bits (1#32 <<< bits - 1#32) :=
  isLowMask_pred (toNat_shifted_one inside)

/-- The value is masked in the common type of the value and the mask, which is
no narrower than an `int`, and cut to the register behind that. -/
theorem chosen_field {w : Nat} (narrow : w ≤ 32) (fits : bits ≤ w) (inside : bits < 32)
    (val : Value) :
    ∃ chosen : BitVec w, (value val &&& full signed (1#32 <<< bits - 1#32)).cast ⟨w, false⟩ =
        lvalue ⟨w, false⟩ chosen ∧
      ∀ i, chosen.getLsbD i = (val.as ⟨bits, false⟩).getLsbD i := by
  let c := val.type.common ⟨32, signed⟩
  let mask : Value := ⟨⟨32, signed⟩, 1#32 <<< bits - 1#32⟩
  let masked : Value := ⟨c, val.as c &&& mask.as c⟩
  have wide : 32 ≤ c.bits := IntType.common_bits _ _
  refine ⟨masked.as ⟨w, false⟩, rfl, fun i => ?_⟩
  by_cases inRegister : i < w
  · have inCommon : i < c.bits := by omega
    have inMask : i < IntType.bits ⟨32, signed⟩ := Nat.lt_of_lt_of_le inRegister narrow
    have maskBit : (mask.as c).getLsbD i = decide (i < bits) := by
      rw [getLsbD_as mask inCommon inMask, as_same_width]
      exact isLowMask_field inside i
    have cut : (masked.as ⟨w, false⟩).getLsbD i = (masked.as c).getLsbD i :=
      getLsbD_as masked inRegister inCommon
    have whole : masked.as c = val.as c &&& mask.as c := as_same_width c.bits c.signed c.signed _
    rw [cut, whole, BitVec.getLsbD_and, maskBit]
    by_cases inField : i < bits
    · rw [getLsbD_as val inCommon (show i < IntType.bits ⟨bits, false⟩ from inField)]
      simp [inField]
    · rw [BitVec.getLsbD_of_ge _ i (Nat.le_of_not_lt inField)]
      simp [inField]
  · rw [BitVec.getLsbD_of_ge _ i (Nat.le_of_not_lt inRegister), BitVec.getLsbD_of_ge _ i]
    exact Nat.le_trans fits (Nat.le_of_not_lt inRegister)

end Mask

/-! ## What the macros do to a register -/

section Macros
variable {family : Family} {pos bits : Nat}

/-- The new content of the register has the value's low bits in the field. -/
theorem setbits_updates (nonempty : 1 ≤ bits) (fits : pos + bits ≤ family.width)
    (inside : bits < 32) (reg : BitVec family.width) (val : Value) : ∃ after,
    family.setbits reg (int pos) (int bits) (value val) = .ok after ∧
      Updated pos (val.as ⟨bits, false⟩) reg after := by
  have narrow := family.width_le
  obtain ⟨chosen, evaluated, same⟩ := chosen_field narrow (by omega) inside val
  have low := isLowMask_field inside
  rw [family.setbits_eq, regSetbits, fieldMask_full (by omega) inside, evaluated,
    full_shifted (by omega), complement_full, register_and_full narrow,
    register_shifted narrow (by omega), full_or_full, stored_full narrow]
  refine ⟨_, rfl, ?_⟩
  apply Updated.narrow narrow fits
  apply updated_masked low (by omega)
  intro i
  rw [BitVec.getLsbD_setWidth, same]
  by_cases inWord : i < 32
  · simp [inWord]
  · rw [BitVec.getLsbD_of_ge _ i (show bits ≤ i by omega), Bool.and_false]

theorem clrbits_updates (nonempty : 1 ≤ bits) (fits : pos + bits ≤ family.width)
    (inside : bits < 32) (reg : BitVec family.width) : ∃ after,
    family.clrbits reg (int pos) (int bits) = .ok after ∧
      Updated pos (0 : BitVec bits) reg after := by
  have narrow := family.width_le
  rw [family.clrbits_eq, regClrbits, fieldMask_full (by omega) inside, full_shifted (by omega),
    complement_full, register_and_full narrow, stored_full narrow]
  refine ⟨_, rfl, ?_⟩
  apply Updated.narrow narrow fits
  exact updated_cleared (isLowMask_field inside) (by omega) _

theorem getbits_denotes (nonempty : 1 ≤ bits) (fits : pos + bits ≤ family.width)
    (inside : bits < 32) (reg : BitVec family.width) :
    Denotes (family.getbits reg (int pos) (int bits)) (reg.extractLsb' pos bits).toNat := by
  have narrow := family.width_le
  rw [family.getbits_eq, regGetbits, fieldMask_full (by omega) inside,
    register_shifted_down narrow (by omega), full_and_full,
    ← toNat_read (isLowMask_field inside) reg narrow]
  apply denotes_full
  rw [toNat_read (isLowMask_field inside) reg narrow]
  have below := (reg.extractLsb' pos bits).isLt
  have half : 2 ^ bits ≤ 2 ^ 31 := Nat.pow_le_pow_right (by omega) (by omega)
  omega

/-- The mask of a whole 32-bit register is undefined, and so is what it is
stored through. -/
theorem setbits_undefined (reg : BitVec Family.reg32.width) (pos : Nat) (val : Value) :
    Family.reg32.setbits reg (int pos) (int 32) (value val) = .error .shiftCount :=
  congrArg (fun mask : Expr => stored .unsignedInt
    ((lvalue .unsignedInt reg &&& (~~~(mask <<< int pos))) |||
      ((value val &&& mask).cast .unsignedInt <<< int pos))) fieldMask_undefined

end Macros

/-! ## The laws of an accessor -/

/-- The field reads as this number, and no other bit of the register changed. -/
structure Holds (family : Family) (pos bits : Nat) (number : Int)
    (before after : BitVec family.width) : Prop where
  read : Denotes (family.getbits after (int pos) (int bits)) number
  frame : ∀ i, i < pos ∨ pos + bits ≤ i → after.getLsbD i = before.getLsbD i

/-- The field reads back what was stored modulo its size, or zero where it was
cleared; the other bits stay; and stores to fields that do not meet commute. -/
structure FieldLaws (family : Family) (reg : BitVec family.width) (pos bits : Nat) (val : Value) :
    Prop where
  set : ∃ after, family.setbits reg (int pos) (int bits) (value val) = .ok after ∧
    Holds family pos bits (val.toInt % 2 ^ bits) reg after
  cleared : ∃ after, family.clrbits reg (int pos) (int bits) = .ok after ∧
    Holds family pos bits 0 reg after
  commute : ∀ (pos' bits' : Nat) (val' : Value), 1 ≤ bits' → pos' + bits' ≤ family.width →
    pos + bits ≤ pos' ∨ pos' + bits' ≤ pos → ∃ both,
      (family.setbits reg (int pos) (int bits) (value val) >>=
        fun reg => family.setbits reg (int pos') (int bits') (value val')) = .ok both ∧
      (family.setbits reg (int pos') (int bits') (value val') >>=
        fun reg => family.setbits reg (int pos) (int bits) (value val)) = .ok both

section Laws
variable {family : Family} {pos bits : Nat}

theorem holds_updated (nonempty : 1 ≤ bits) (fits : pos + bits ≤ family.width) (inside : bits < 32)
    {field : BitVec bits} {before after : BitVec family.width}
    (updated : Updated pos field before after) : Holds family pos bits field.toNat before after := by
  have denoted := getbits_denotes nonempty fits inside after
  rw [updated.read] at denoted
  exact ⟨denoted, updated.outside⟩

/-- Two fields that do not meet leave each other less than the whole register. -/
theorem setbits_commute {pos' bits' : Nat} (nonempty : 1 ≤ bits) (fits : pos + bits ≤ family.width)
    (nonempty' : 1 ≤ bits') (fits' : pos' + bits' ≤ family.width)
    (apart : pos + bits ≤ pos' ∨ pos' + bits' ≤ pos) (reg : BitVec family.width)
    (val val' : Value) : ∃ both,
    (family.setbits reg (int pos) (int bits) (value val) >>=
      fun reg => family.setbits reg (int pos') (int bits') (value val')) = .ok both ∧
    (family.setbits reg (int pos') (int bits') (value val') >>=
      fun reg => family.setbits reg (int pos) (int bits) (value val)) = .ok both := by
  have narrow := family.width_le
  have inside : bits < 32 := by omega
  have inside' : bits' < 32 := by omega
  obtain ⟨one, stored, first⟩ := setbits_updates nonempty fits inside reg val
  obtain ⟨both, stored', second⟩ := setbits_updates nonempty' fits' inside' one val'
  obtain ⟨other, swapped, first'⟩ := setbits_updates nonempty' fits' inside' reg val'
  obtain ⟨both', swapped', second'⟩ := setbits_updates nonempty fits inside other val
  have same : both = both' := first.commute apart second first' second'
  refine ⟨both, ?_, ?_⟩
  · rw [stored]
    exact stored'
  · rw [swapped, same]
    exact swapped'

end Laws

/-- In every family, every field of a register obeys the laws, unless it takes
up a whole 32-bit register. -/
theorem field_laws_iff (family : Family) (reg : BitVec family.width) (pos bits : Nat) (val : Value)
    (nonempty : 1 ≤ bits) (fits : pos + bits ≤ family.width) :
    FieldLaws family reg pos bits val ↔ bits < 32 := by
  constructor
  · rintro ⟨⟨after, stored, -⟩, -, -⟩
    by_contra whole
    have narrow := family.width_le
    obtain rfl : bits = 32 := by omega
    cases family with
    | reg32 => cases (setbits_undefined reg pos val).symm.trans stored
    | reg16 => exact whole (Nat.lt_of_le_of_lt (Nat.le_of_add_left_le fits) (by decide))
    | reg8 => exact whole (Nat.lt_of_le_of_lt (Nat.le_of_add_left_le fits) (by decide))
  · intro inside
    obtain ⟨after, stored, updated⟩ := setbits_updates nonempty fits inside reg val
    obtain ⟨empty, cleared, emptied⟩ := clrbits_updates nonempty fits inside reg
    constructor
    · refine ⟨after, stored, ?_⟩
      rw [← toNat_as ⟨bits, false⟩ val]
      exact holds_updated nonempty fits inside updated
    · refine ⟨empty, cleared, ?_⟩
      have zero : (0 : BitVec bits).toNat = 0 := BitVec.toNat_zero
      have holds := holds_updated nonempty fits inside emptied
      rwa [zero] at holds
    · intro pos' bits' val' nonempty' fits' apart
      exact setbits_commute nonempty fits nonempty' fits' apart reg val val'

/-- The field that takes up a whole 16-bit register. -/
theorem field_laws_iff_halfword : FieldLaws .reg16 0 0 16 ⟨.int, 0x12345#32⟩ :=
  (field_laws_iff .reg16 0 0 16 ⟨.int, 0x12345#32⟩ (by decide) (by decide)).mpr (by decide)

/-- The whole of a 32-bit register cannot be stored to as a field of it. -/
theorem whole_register_undefined :
    ¬ ∀ (family : Family) (reg : BitVec family.width) (pos bits : Nat) (val : Value), 1 ≤ bits →
      pos + bits ≤ family.width → FieldLaws family reg pos bits val := by
  intro laws
  obtain ⟨after, stored, -⟩ := (laws .reg32 0 0 32 ⟨.int, 1#32⟩ (by decide) (by decide)).set
  cases (setbits_undefined 0 0 _).symm.trans stored

end Ws63Rf.RegFieldProofs
