import Ws63Rf.CExpr

/-! What an expression leaves in an unsigned variable. Conversions and the
bitwise operators keep the low bits of their operands apart from the rest, so
what a variable no wider than an `int` receives is computed from what it would
receive of the operands, whatever types those have. -/
namespace Ws63Rf.Conversions
open CExpr Expr

section Values
variable {w k : Nat} {t : IntType}

/-- A conversion on the way changes nothing where it is wide enough. -/
theorem as_as (fits : w ≤ t.bits) (v : Value) :
    Value.as ⟨w, false⟩ ⟨t, v.as t⟩ = v.as ⟨w, false⟩ := by
  apply BitVec.eq_of_getLsbD_eq
  intro i inside
  have wide : i < t.bits := Nat.lt_of_lt_of_le inside fits
  have cut := getLsbD_as ⟨t, v.as t⟩ (s := ⟨w, false⟩) (t := t) inside wide
  have same : Value.as t ⟨t, v.as t⟩ = v.as t := as_same_width t.bits t.signed t.signed (v.as t)
  rw [cut, same, getLsbD_as v wide (t := ⟨w, false⟩) inside]

/-- Signed or not, a conversion to a narrower variable cuts the pattern. -/
theorem as_narrow (fits : w ≤ t.bits) (pattern : BitVec t.bits) :
    Value.as ⟨w, false⟩ ⟨t, pattern⟩ = pattern.setWidth w := by
  rw [Value.as]
  split
  · exact BitVec.signExtend_eq_setWidth_of_le _ fits
  · rfl

end Values

section Operators
variable {w k : Nat} {a b : Value}

theorem stored_value (t : IntType) (v : Value) : stored t (value v) = .ok (v.as t) := rfl

theorem stored_cast {t : IntType} (fits : w ≤ t.bits) (e : Expr) :
    stored ⟨w, false⟩ (e.cast t) = stored ⟨w, false⟩ e := by
  cases e with
  | error u => rfl
  | ok v => exact congrArg Except.ok (as_as fits v)

/-- An operator that works on each bit by itself commutes with cutting its
operands and its result. -/
theorem stored_arithmetic (op : {n : Nat} → BitVec n → BitVec n → BitVec n)
    (cuts : ∀ {n : Nat} (x y : BitVec n), (op x y).setWidth w = op (x.setWidth w) (y.setWidth w))
    (fits : w ≤ (a.type.common b.type).bits) :
    stored ⟨w, false⟩ (arithmetic (fun _ x y => .ok (op x y)) (value a) (value b)) =
      .ok (op (a.as ⟨w, false⟩) (b.as ⟨w, false⟩)) := by
  let c := a.type.common b.type
  change Except.ok (Value.as ⟨w, false⟩ ⟨c, op (a.as c) (b.as c)⟩) = _
  rw [as_narrow fits, cuts, ← as_narrow fits, ← as_narrow fits, as_as fits, as_as fits]

theorem stored_and (fits : w ≤ (a.type.common b.type).bits) :
    stored ⟨w, false⟩ (value a &&& value b) = .ok (a.as ⟨w, false⟩ &&& b.as ⟨w, false⟩) :=
  stored_arithmetic (fun x y => x &&& y) (fun _ _ => BitVec.setWidth_and) fits

theorem stored_or (fits : w ≤ (a.type.common b.type).bits) :
    stored ⟨w, false⟩ (value a ||| value b) = .ok (a.as ⟨w, false⟩ ||| b.as ⟨w, false⟩) :=
  stored_arithmetic (fun x y => x ||| y) (fun _ _ => BitVec.setWidth_or) fits

theorem stored_complement (fits : w ≤ a.type.promoted.bits) :
    stored ⟨w, false⟩ (~~~value a) = .ok (~~~a.as ⟨w, false⟩) := by
  change Except.ok (Value.as ⟨w, false⟩ ⟨a.type.promoted, ~~~a.as a.type.promoted⟩) = _
  rw [as_narrow fits, BitVec.setWidth_not fits, ← as_narrow fits, as_as fits]

/-- What is shifted out of the variable is lost there, wherever it goes. -/
theorem stored_shiftLeft (fits : w ≤ a.type.promoted.bits) (inside : k < a.type.promoted.bits)
    (small : k < 2 ^ 31) : stored ⟨w, false⟩ (value a <<< int k) = .ok (a.as ⟨w, false⟩ <<< k) := by
  have shifted : value a <<< int k = value ⟨a.type.promoted, a.as a.type.promoted <<< k⟩ :=
    shift_defined rfl (toInt_int small) inside
  rw [shifted, stored_value, as_narrow fits, BitVec.setWidth_shiftLeft_of_le fits, ← as_narrow fits,
    as_as fits]

end Operators

/-! ## Variables no wider than an `int` -/

section Narrow
variable {w k : Nat} {a b : Expr} {p q : BitVec w}

/-- What stores something is a value that converts to it. -/
theorem value_of_stored {t : IntType} {pattern : BitVec t.bits} (first : stored t a = .ok pattern) :
    ∃ v, a = value v ∧ v.as t = pattern := by
  cases a with
  | error u => cases first
  | ok v => exact ⟨v, rfl, Except.ok.inj first⟩

theorem narrow_and (narrow : w ≤ 32) (first : stored ⟨w, false⟩ a = .ok p)
    (second : stored ⟨w, false⟩ b = .ok q) : stored ⟨w, false⟩ (a &&& b) = .ok (p &&& q) := by
  obtain ⟨u, rfl, rfl⟩ := value_of_stored first
  obtain ⟨v, rfl, rfl⟩ := value_of_stored second
  exact stored_and (narrow.trans (IntType.common_bits _ _))

theorem narrow_or (narrow : w ≤ 32) (first : stored ⟨w, false⟩ a = .ok p)
    (second : stored ⟨w, false⟩ b = .ok q) : stored ⟨w, false⟩ (a ||| b) = .ok (p ||| q) := by
  obtain ⟨u, rfl, rfl⟩ := value_of_stored first
  obtain ⟨v, rfl, rfl⟩ := value_of_stored second
  exact stored_or (narrow.trans (IntType.common_bits _ _))

theorem narrow_complement (narrow : w ≤ 32) (first : stored ⟨w, false⟩ a = .ok p) :
    stored ⟨w, false⟩ (~~~a) = .ok (~~~p) := by
  obtain ⟨v, rfl, rfl⟩ := value_of_stored first
  exact stored_complement (narrow.trans (IntType.promoted_bits _))

theorem narrow_shiftLeft (narrow : w ≤ 32) (inside : k < 32) (first : stored ⟨w, false⟩ a = .ok p) :
    stored ⟨w, false⟩ (a <<< int k) = .ok (p <<< k) := by
  obtain ⟨v, rfl, rfl⟩ := value_of_stored first
  have wide := IntType.promoted_bits v.type
  exact stored_shiftLeft (narrow.trans wide) (Nat.lt_of_lt_of_le inside wide) (by omega)

end Narrow

end Ws63Rf.Conversions
