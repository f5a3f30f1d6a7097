import Mathlib.Data.BitVec

/-! Integer expressions of C, on two's complement machines with a 32-bit `int`:
types, values, the conversions that operators make, and the operators
themselves. What C leaves undefined is an error of the expression; a left shift
moves the bit pattern, in signed types too. -/
namespace Ws63Rf.CExpr

/-- An integer type, by its width and its signedness. -/
structure IntType where
  bits : Nat
  signed : Bool
  deriving DecidableEq

namespace IntType

def int : IntType := ⟨32, true⟩
def unsignedChar : IntType := ⟨8, false⟩
def unsignedShort : IntType := ⟨16, false⟩
def unsignedInt : IntType := ⟨32, false⟩
def unsignedLongLong : IntType := ⟨64, false⟩

/-- The integer promotions: what is narrower than `int` becomes an `int`. -/
def promoted (t : IntType) : IntType := if t.bits < 32 then int else t

/-- The usual arithmetic conversions: the wider of the promoted types, and
the unsigned one where they have the same width. -/
def common (s t : IntType) : IntType :=
  if s.promoted.bits < t.promoted.bits then t.promoted
  else if t.promoted.bits < s.promoted.bits then s.promoted
  else ⟨s.promoted.bits, s.promoted.signed && t.promoted.signed⟩

theorem promoted_bits (t : IntType) : 32 ≤ t.promoted.bits := by
  rw [promoted]
  split
  · exact Nat.le_refl 32
  · omega

/-- Nothing is computed in a type narrower than `int`. -/
theorem common_bits (s t : IntType) : 32 ≤ (s.common t).bits := by
  rw [common]
  split
  · exact promoted_bits t
  · split <;> exact promoted_bits s

end IntType

/-- A value of an integer type, by its bit pattern. -/
structure Value where
  type : IntType
  pattern : BitVec type.bits
  deriving DecidableEq

/-- The number a value stands for. -/
def Value.toInt (v : Value) : Int :=
  if v.type.signed then v.pattern.toInt else v.pattern.toNat

/-- The bit pattern of a value after its conversion to a type. -/
def Value.as (t : IntType) (v : Value) : BitVec t.bits :=
  if v.type.signed then v.pattern.signExtend t.bits else v.pattern.setWidth t.bits

inductive Undefined where
  | overflow
  | shiftCount
  deriving DecidableEq

/-- An expression, by what it evaluates to. -/
def Expr := Except Undefined Value

namespace Expr

def value (v : Value) : Expr := .ok v

/-- A constant of type `int`. -/
def int (n : Nat) : Expr := value ⟨.int, BitVec.ofNat 32 n⟩

instance : OfNat Expr n := ⟨int n⟩

/-- An operator on two operands that are brought to their common type first. -/
def arithmetic (f : (t : IntType) → BitVec t.bits → BitVec t.bits → Except Undefined (BitVec t.bits)) :
    Expr → Expr → Expr
  | .ok a, .ok b =>
    let t := a.type.common b.type
    (f t (a.as t) (b.as t)).map fun pattern => ⟨t, pattern⟩
  | .error u, _ => .error u
  | _, .error u => .error u

instance : Add Expr := ⟨arithmetic fun t a b =>
  if t.signed && a.saddOverflow b then .error .overflow else .ok (a + b)⟩

instance : Sub Expr := ⟨arithmetic fun t a b =>
  if t.signed && a.ssubOverflow b then .error .overflow else .ok (a - b)⟩

instance : AndOp Expr := ⟨arithmetic fun _ a b => .ok (a &&& b)⟩

instance : OrOp Expr := ⟨arithmetic fun _ a b => .ok (a ||| b)⟩

instance : XorOp Expr := ⟨arithmetic fun _ a b => .ok (a ^^^ b)⟩

instance : Complement Expr := ⟨fun
  | .ok a => value ⟨a.type.promoted, ~~~a.as a.type.promoted⟩
  | .error u => .error u⟩

/-- A shift has the promoted type of its left operand; its count is a number
below the width of that type. -/
def shift (f : (t : IntType) → BitVec t.bits → Nat → BitVec t.bits) : Expr → Expr → Expr
  | .ok a, .ok count =>
    let t := a.type.promoted
    if 0 ≤ count.toInt ∧ count.toInt < t.bits then value ⟨t, f t (a.as t) count.toInt.toNat⟩
    else .error .shiftCount
  | .error u, _ => .error u
  | _, .error u => .error u

instance : ShiftLeft Expr := ⟨shift fun _ a count => a <<< count⟩

instance : ShiftRight Expr := ⟨shift fun t a count =>
  if t.signed then a.sshiftRight count else a >>> count⟩

/-- `(t)e`. -/
def cast (t : IntType) : Expr → Expr
  | .ok a => value ⟨t, a.as t⟩
  | .error u => .error u

/-- `(__typeof__(x))e`. -/
def castLike : (x e : Expr) → Expr
  | .ok x, e => e.cast x.type
  | .error u, _ => .error u

/-- What `lvalue = e` stores in an object of this type. -/
def stored (t : IntType) (e : Expr) : Except Undefined (BitVec t.bits) :=
  Except.map (Value.as t) e

/-- `int` constants denote their number. -/
theorem toInt_int {n : Nat} (fits : n < 2 ^ 31) : Value.toInt ⟨.int, BitVec.ofNat 32 n⟩ = n := by
  change (BitVec.ofNat 32 n).toInt = n
  rw [BitVec.toInt_ofNat']
  apply Int.bmod_eq_of_le <;> omega

section Operators
variable {a b count : Value} {t : IntType} {n : Nat}

theorem arithmetic_common
    {f : (t : IntType) → BitVec t.bits → BitVec t.bits → Except Undefined (BitVec t.bits)}
    (brought : a.type.common b.type = t) : arithmetic f (value a) (value b) =
      (f t (a.as t) (b.as t)).map fun pattern => ⟨t, pattern⟩ := by
  subst brought
  rfl

theorem complement_promoted (promoted : a.type.promoted = t) :
    ~~~value a = value ⟨t, ~~~a.as t⟩ := by
  subst promoted
  rfl

theorem shift_defined {f : (t : IntType) → BitVec t.bits → Nat → BitVec t.bits}
    (promoted : a.type.promoted = t) (counted : count.toInt = n) (inside : n < t.bits) :
    shift f (value a) (value count) = value ⟨t, f t (a.as t) n⟩ := by
  subst promoted
  have back : count.toInt.toNat = n := by omega
  rw [← back]
  exact if_pos ⟨by omega, by omega⟩

theorem shift_undefined {f : (t : IntType) → BitVec t.bits → Nat → BitVec t.bits}
    (promoted : a.type.promoted = t) (counted : count.toInt = n) (outside : t.bits ≤ n) :
    shift f (value a) (value count) = .error .shiftCount := by
  subst promoted
  exact if_neg (by omega)

end Operators

/-- Between types of one width a conversion keeps the bit pattern. -/
@[simp] theorem as_same_width (bits : Nat) (signed other : Bool) (pattern : BitVec bits) :
    Value.as ⟨bits, signed⟩ ⟨⟨bits, other⟩, pattern⟩ = pattern := by
  cases other <;> simp [Value.as]

/-- Conversions to two types agree in the bits that both have. -/
theorem getLsbD_as {s t : IntType} (v : Value) (inside : i < s.bits) (inside' : i < t.bits) :
    (v.as s).getLsbD i = (v.as t).getLsbD i := by
  unfold Value.as
  split
  · rw [BitVec.getLsbD_signExtend, BitVec.getLsbD_signExtend]
    simp only [inside, inside']
  · rw [BitVec.getLsbD_setWidth, BitVec.getLsbD_setWidth]
    simp only [inside, inside']

/-- A conversion keeps the number modulo the width of the new type. -/
theorem toNat_as (t : IntType) (v : Value) : ((v.as t).toNat : Int) = v.toInt % 2 ^ t.bits := by
  have positive : (0 : Int) < 2 ^ t.bits := Int.pow_pos (by omega)
  unfold Value.as Value.toInt
  split
  · rw [BitVec.signExtend, BitVec.toNat_ofInt, Int.toNat_of_nonneg]
    · push_cast
      rfl
    · exact Int.emod_nonneg _ (by exact_mod_cast positive.ne')
  · rw [BitVec.toNat_setWidth]
    push_cast
    rfl

/-- The expression has a value, and that value is this number. -/
def Denotes (e : Expr) (number : Int) : Prop := ∃ v, e = value v ∧ v.toInt = number

/-! ## Unsigned words

What is as wide as an `int` is not promoted, and what is no wider than an
unsigned word takes part in its operations as an unsigned word. -/

/-- An operand of unsigned type. -/
def word {bits : Nat} (pattern : BitVec bits) : Expr := value ⟨⟨bits, false⟩, pattern⟩

/-- A word is stored unchanged in a variable of its type. -/
theorem stored_word {bits : Nat} (pattern : BitVec bits) :
    stored ⟨bits, false⟩ (word pattern) = .ok pattern :=
  congrArg Except.ok (BitVec.setWidth_eq pattern)

/-- An unsigned word denotes its number and no other. -/
theorem denotes_word {bits : Nat} {e : Expr} {pattern : BitVec bits} (evaluated : e = word pattern)
    (number : Nat) : Denotes e number ↔ pattern.toNat = number := by
  subst evaluated
  constructor
  · rintro ⟨v, same, denoted⟩
    cases same
    exact Int.ofNat.inj denoted
  · rintro rfl
    exact ⟨_, rfl, rfl⟩

section Words
variable {m n : Nat} {signed : Bool} {a : BitVec m} {b : BitVec n}

theorem promoted_wide (wide : 32 ≤ n) : IntType.promoted ⟨n, signed⟩ = ⟨n, signed⟩ :=
  if_neg (Nat.not_lt.mpr wide)

theorem common_unsigned (wide : 32 ≤ n) (fits : n ≤ m) :
    IntType.common ⟨m, false⟩ ⟨n, signed⟩ = ⟨m, false⟩ := by
  rw [IntType.common, promoted_wide wide, promoted_wide (wide.trans fits),
    if_neg (Nat.not_lt.mpr fits), ite_eq_left_iff]
  intro _
  rfl

theorem arithmetic_unsigned
    (f : (t : IntType) → BitVec t.bits → BitVec t.bits → Except Undefined (BitVec t.bits))
    (wide : 32 ≤ n) (fits : n ≤ m) :
    arithmetic f (word a) (value ⟨⟨n, signed⟩, b⟩) =
      (f ⟨m, false⟩ (a.setWidth m) (Value.as ⟨m, false⟩ ⟨⟨n, signed⟩, b⟩)).map
        fun pattern => ⟨⟨m, false⟩, pattern⟩ :=
  arithmetic_common (common_unsigned wide fits)

theorem word_add_word (wide : 32 ≤ n) (fits : n ≤ m) : word a + word b = word (a + b.setWidth m) := by
  refine (arithmetic_unsigned _ wide fits).trans ?_
  rw [BitVec.setWidth_eq]
  rfl

theorem word_and_word (wide : 32 ≤ n) (fits : n ≤ m) :
    word a &&& word b = word (a &&& b.setWidth m) := by
  refine (arithmetic_unsigned _ wide fits).trans ?_
  rw [BitVec.setWidth_eq]
  rfl

theorem word_or_word (wide : 32 ≤ n) (fits : n ≤ m) :
    word a ||| word b = word (a ||| b.setWidth m) := by
  refine (arithmetic_unsigned _ wide fits).trans ?_
  rw [BitVec.setWidth_eq]
  rfl

/-- An `int` keeps its bit pattern beside an unsigned word of its width. -/
theorem arithmetic_int
    (f : (t : IntType) → BitVec t.bits → BitVec t.bits → Except Undefined (BitVec t.bits))
    (a b : BitVec 32) : arithmetic f (word a) (value ⟨.int, b⟩) =
      (f ⟨32, false⟩ a b).map fun pattern => ⟨⟨32, false⟩, pattern⟩ := by
  refine (arithmetic_unsigned f (Nat.le_refl 32) (Nat.le_refl 32)).trans ?_
  rw [BitVec.setWidth_eq, as_same_width]

/-- The constant 1 is an `int`; it keeps its number at any width. -/
theorem as_one (m : Nat) : Value.as ⟨m, false⟩ ⟨⟨32, true⟩, 1#32⟩ = 1#m := by
  change (1#32).signExtend m = 1#m
  rw [BitVec.signExtend_eq_setWidth_of_msb_false (by decide)]
  apply BitVec.eq_of_toNat_eq
  simp

theorem word_add_one (wide : 32 ≤ m) : word a + 1 = word (a + 1#m) := by
  refine (arithmetic_unsigned _ (Nat.le_refl 32) wide).trans ?_
  rw [BitVec.setWidth_eq]
  exact congrArg (fun one => word (a + one)) (as_one m)

theorem word_sub_one (wide : 32 ≤ m) : word a - 1 = word (a - 1#m) := by
  refine (arithmetic_unsigned _ (Nat.le_refl 32) wide).trans ?_
  rw [BitVec.setWidth_eq]
  exact congrArg (fun one => word (a - one)) (as_one m)

theorem complement_word (wide : 32 ≤ m) : ~~~word a = word (~~~a) := by
  refine (complement_promoted (promoted_wide wide)).trans ?_
  exact congrArg (fun kept => word (~~~kept)) (BitVec.setWidth_eq a)

theorem castLike_word : (word a).castLike (word b) = word (b.setWidth m) := rfl

end Words

end Expr

end Ws63Rf.CExpr
