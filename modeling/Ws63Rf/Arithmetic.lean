import Mathlib.Tactic.Zify
import Mathlib.Algebra.Order.Ring.Int
import Ws63Rf.CExpr

/-! Expressions by the type and the number they yield. A conversion keeps a
number that its type has and takes any other back into the type by multiples of
the modulus; an operator computes with its converted operands. -/
namespace Ws63Rf.CExpr.IntType

/-- The type has this number. -/
def Holds (t : IntType) (n : Int) : Prop :=
  if t.signed then -2 ^ (t.bits - 1) ≤ n ∧ n < 2 ^ (t.bits - 1) else 0 ≤ n ∧ n < 2 ^ t.bits

instance (t : IntType) (n : Int) : Decidable (t.Holds n) :=
  inferInstanceAs (Decidable (if t.signed then _ else _))

/-- The number that a conversion to the type makes of this one. -/
def convert (t : IntType) (n : Int) : Int :=
  if t.signed then n.bmod (2 ^ t.bits) else n % (2 ^ t.bits : Nat)

section Convert
variable {t : IntType} {n : Int}

theorem convert_emod (t : IntType) (n : Int) : t.convert n % 2 ^ t.bits = n % 2 ^ t.bits := by
  have modulus : ((2 ^ t.bits : Nat) : Int) = 2 ^ t.bits := by push_cast; rfl
  rw [convert, ← modulus]
  split
  · exact Int.bmod_emod
  · exact Int.emod_emod _ _

theorem two_halves (positive : 0 < t.bits) : 2 ^ t.bits = 2 * 2 ^ (t.bits - 1) := by
  rw [← Nat.pow_succ', Nat.succ_eq_add_one, Nat.sub_add_cancel positive]

theorem holds_convert (positive : 0 < t.bits) (n : Int) : t.Holds (t.convert n) := by
  have halves := two_halves positive
  have modulus : 0 < 2 ^ t.bits := Nat.two_pow_pos t.bits
  rw [Holds, convert]
  split
  · have below := Int.le_bmod (x := n) modulus
    have above := Int.bmod_lt (x := n) modulus
    push_cast [halves] at below above ⊢
    omega
  · have below := Int.emod_nonneg n (b := (2 ^ t.bits : Nat)) (by omega)
    have above := Int.emod_lt_of_pos n (b := (2 ^ t.bits : Nat)) (by omega)
    push_cast at below above ⊢
    exact ⟨below, above⟩

theorem convert_of_holds (positive : 0 < t.bits) (holds : t.Holds n) : t.convert n = n := by
  have halves := two_halves positive
  rw [Holds] at holds
  rw [convert]
  split at holds
  · rw [if_pos ‹_›]
    apply Int.bmod_eq_of_le <;> push_cast [halves] <;> omega
  · rw [if_neg ‹_›]
    apply Int.emod_eq_of_lt holds.1
    push_cast
    exact holds.2

theorem convert_eq_iff (positive : 0 < t.bits) : t.convert n = n ↔ t.Holds n :=
  ⟨fun same => same ▸ holds_convert positive n, convert_of_holds positive⟩

theorem holds_zero (t : IntType) : t.Holds 0 := by
  have positive : (0 : Int) < 2 ^ (t.bits - 1) := Int.pow_pos (by omega)
  have positive' : (0 : Int) < 2 ^ t.bits := Int.pow_pos (by omega)
  rw [Holds]
  split <;> omega

theorem Holds.nonneg (holds : t.Holds n) (unsigned : ¬ t.signed = true) : 0 ≤ n := by
  rw [Holds, if_neg unsigned] at holds
  exact holds.1

theorem Holds.below {i : Int} (holds : t.Holds n) (nonneg : 0 ≤ i) (below : i ≤ n) : t.Holds i := by
  have positive : (0 : Int) < 2 ^ (t.bits - 1) := Int.pow_pos (by omega)
  rw [Holds] at holds ⊢
  split at holds
  · rw [if_pos ‹_›]
    omega
  · rw [if_neg ‹_›]
    omega

/-- A wider signed type has all numbers of the type. -/
theorem holds_wider {s : IntType} (holds : t.Holds n) (wide : t.bits < s.bits)
    (signed : s.signed = true) : s.Holds n := by
  have whole : (2 : Int) ^ t.bits ≤ 2 ^ (s.bits - 1) :=
    mod_cast Nat.pow_le_pow_right Nat.two_pos (show t.bits ≤ s.bits - 1 by omega)
  have half : (2 : Int) ^ (t.bits - 1) ≤ 2 ^ (s.bits - 1) :=
    mod_cast Nat.pow_le_pow_right Nat.two_pos (show t.bits - 1 ≤ s.bits - 1 by omega)
  rw [Holds, if_pos signed]
  rw [Holds] at holds
  split at holds <;> omega

/-- An unsigned type that is no narrower has those that are not negative. -/
theorem holds_unsigned {s : IntType} (holds : t.Holds n) (wide : t.bits ≤ s.bits)
    (unsigned : s.signed = false) (nonneg : 0 ≤ n) : s.Holds n := by
  have whole : (2 : Int) ^ t.bits ≤ 2 ^ s.bits :=
    mod_cast Nat.pow_le_pow_right Nat.two_pos wide
  have half : (2 : Int) ^ (t.bits - 1) ≤ 2 ^ s.bits :=
    mod_cast Nat.pow_le_pow_right Nat.two_pos (show t.bits - 1 ≤ s.bits by omega)
  rw [Holds, unsigned, if_neg Bool.false_ne_true]
  rw [Holds] at holds
  split at holds <;> omega

theorem holds_promoted (holds : t.Holds n) : t.promoted.Holds n := by
  rw [promoted]
  split
  · exact holds_wider holds ‹_› rfl
  · exact holds

/-- A common type has the numbers of both types, except that an unsigned one
has no negative numbers. -/
theorem holds_common_iff {s : IntType} (holds : t.Holds n) :
    (t.common s).Holds n ↔ (t.common s).signed = true ∨ 0 ≤ n := by
  constructor
  · intro inside
    rw [Holds] at inside
    split at inside
    · exact .inl ‹_›
    · exact .inr inside.1
  · have promoted := holds_promoted holds
    intro kept
    by_cases signed : (t.common s).signed = true
    · rw [common] at signed ⊢
      split_ifs at signed ⊢ with wider narrower
      · exact holds_wider promoted wider signed
      · exact promoted
      · rw [Holds, if_pos (Bool.and_eq_true_iff.mp signed).1] at promoted
        rw [Holds, if_pos signed]
        exact promoted
    · refine holds_unsigned promoted ?_ (by simpa using signed) (kept.resolve_left signed)
      rw [common]
      split
      · omega
      · split <;> exact Nat.le_refl _

end Convert

/-! ## Common types -/

section Types

theorem promoted_promoted (t : IntType) : t.promoted.promoted = t.promoted :=
  if_neg (Nat.not_lt.mpr t.promoted_bits)

theorem common_comm (s t : IntType) : s.common t = t.common s := by
  rw [common, common]
  split
  · rw [if_neg (by omega)]
  · split
    · rfl
    · have same : s.promoted.bits = t.promoted.bits := by omega
      rw [same, Bool.and_comm]

theorem common_self (t : IntType) : t.common t = t.promoted := by
  simp [common]

theorem common_promoted (t : IntType) : t.common t.promoted = t.promoted := by
  simp [common, promoted_promoted]

theorem promoted_common (s t : IntType) : (s.common t).promoted = s.common t :=
  if_neg (Nat.not_lt.mpr (common_bits s t))

/-- Beside an `int` a type is promoted and keeps its sign. -/
theorem common_int (t : IntType) : t.common .int = t.promoted := by
  have stays : int.promoted = .int := rfl
  rw [common, stays]
  by_cases narrow : t.bits < 32
  · rw [promoted, if_pos narrow]
    rfl
  · rw [promoted, if_neg narrow]
    by_cases same : t.bits = 32
    · obtain ⟨bits, signed⟩ := t
      obtain rfl : bits = 32 := same
      simp [int]
    · exact (if_neg narrow).trans (if_pos (show 32 < t.bits by omega))

/-- Beside any type one keeps what is not negative. -/
theorem Holds.common {t : IntType} {n : Int} (holds : t.Holds n) (nonneg : 0 ≤ n) (s : IntType) :
    (s.common t).Holds n := by
  rw [common_comm]
  exact (holds_common_iff holds).mpr (.inr nonneg)

theorem bits_positive (s t : IntType) : 0 < (s.common t).bits :=
  Nat.lt_of_lt_of_le (by decide) (common_bits s t)

end Types

end Ws63Rf.CExpr.IntType

namespace Ws63Rf.CExpr

/-! ## Patterns as numbers -/

namespace Value
variable {t : IntType}

/-- A conversion takes the number into the new type. -/
theorem as_eq_ofInt (t : IntType) (v : Value) : v.as t = BitVec.ofInt t.bits v.toInt := by
  rw [as, toInt]
  split
  · rfl
  · exact (BitVec.ofNat_toNat _ _).symm

theorem toInt_ofInt (t : IntType) (n : Int) :
    Value.toInt ⟨t, BitVec.ofInt t.bits n⟩ = t.convert n := by
  rw [toInt, IntType.convert]
  split
  · exact BitVec.toInt_ofInt n
  · rw [BitVec.toNat_ofInt, Int.toNat_of_nonneg]
    exact Int.emod_nonneg _ (by exact_mod_cast (Nat.two_pow_pos t.bits).ne')

theorem ofInt_toInt (pattern : BitVec t.bits) :
    BitVec.ofInt t.bits (Value.toInt ⟨t, pattern⟩) = pattern := by
  rw [toInt]
  split
  · exact BitVec.ofInt_toInt
  · exact (BitVec.ofNat_toNat _ _).trans (BitVec.setWidth_eq _)

/-- A value is a number of its type. -/
theorem holds_toInt (v : Value) : v.type.Holds v.toInt := by
  rw [IntType.Holds, toInt]
  split
  · exact ⟨BitVec.le_toInt v.pattern, BitVec.toInt_lt⟩
  · exact ⟨by omega, by exact_mod_cast v.pattern.isLt⟩

theorem toInt_as (t : IntType) (v : Value) : Value.toInt ⟨t, v.as t⟩ = t.convert v.toInt := by
  rw [as_eq_ofInt, toInt_ofInt]

theorem toInt_add (p q : BitVec t.bits) :
    Value.toInt ⟨t, p + q⟩ = t.convert (Value.toInt ⟨t, p⟩ + Value.toInt ⟨t, q⟩) := by
  rw [← toInt_ofInt, BitVec.ofInt_add, ofInt_toInt, ofInt_toInt]

theorem toInt_neg (p : BitVec t.bits) : Value.toInt ⟨t, -p⟩ = t.convert (-Value.toInt ⟨t, p⟩) := by
  rw [← toInt_ofInt, BitVec.ofInt_neg, ofInt_toInt]

theorem toInt_sub (p q : BitVec t.bits) :
    Value.toInt ⟨t, p - q⟩ = t.convert (Value.toInt ⟨t, p⟩ - Value.toInt ⟨t, q⟩) := by
  rw [← toInt_ofInt, Int.sub_eq_add_neg, BitVec.ofInt_add, BitVec.ofInt_neg, ofInt_toInt,
    ofInt_toInt, BitVec.sub_eq_add_neg]

theorem toNat_of_nonneg {p : BitVec t.bits} (nonneg : 0 ≤ Value.toInt ⟨t, p⟩) :
    (p.toNat : Int) = Value.toInt ⟨t, p⟩ := by
  simp only [toInt] at nonneg ⊢
  split
  · rename_i signed
    rw [if_pos signed] at nonneg
    have cond := BitVec.toInt_eq_toNat_cond p
    have bound := p.isLt
    split at cond <;> omega
  · rfl

/-- A left shift multiplies, a right shift divides and rounds down. -/
theorem toInt_shiftLeft (p : BitVec t.bits) (k : Nat) :
    Value.toInt ⟨t, p <<< k⟩ = t.convert (Value.toInt ⟨t, p⟩ * 2 ^ k) := by
  have power : BitVec.twoPow t.bits k = BitVec.ofInt t.bits (2 ^ k) := by
    have natural : (2 : Int) ^ k = (2 ^ k : Nat) := by push_cast; rfl
    apply BitVec.eq_of_toNat_eq
    rw [natural, BitVec.ofInt_natCast, BitVec.toNat_twoPow, BitVec.toNat_ofNat]
  rw [← toInt_ofInt, BitVec.ofInt_mul, ofInt_toInt, BitVec.shiftLeft_eq_mul_twoPow, power]

theorem toInt_shiftRight (p : BitVec t.bits) (k : Nat) :
    Value.toInt ⟨t, if t.signed then p.sshiftRight k else p >>> k⟩ = Value.toInt ⟨t, p⟩ / 2 ^ k := by
  simp only [toInt]
  split
  · rw [BitVec.toInt_sshiftRight, Int.shiftRight_eq_div_pow]
    push_cast
    rfl
  · rw [BitVec.toNat_ushiftRight, Nat.shiftRight_eq_div_pow]
    push_cast
    rfl

/-- What is below a number that is not negative is not negative either. -/
theorem toInt_of_le {p q : BitVec t.bits} (below : p.toNat ≤ q.toNat)
    (nonneg : 0 ≤ Value.toInt ⟨t, q⟩) : Value.toInt ⟨t, p⟩ = p.toNat := by
  simp only [toInt] at nonneg ⊢
  split
  · rename_i signed
    rw [if_pos signed] at nonneg
    have cond := BitVec.toInt_eq_toNat_cond p
    have cond' := BitVec.toInt_eq_toNat_cond q
    have bound := q.isLt
    split at cond <;> split at cond' <;> omega
  · rfl

theorem toNat_emod (p : BitVec t.bits) : (p.toNat : Int) = Value.toInt ⟨t, p⟩ % 2 ^ t.bits := by
  have same := congrArg BitVec.toNat (ofInt_toInt p)
  rw [BitVec.toNat_ofInt] at same
  rw [← same, Int.toNat_of_nonneg]
  · push_cast
    rfl
  · exact Int.emod_nonneg _ (by exact_mod_cast (Nat.two_pow_pos t.bits).ne')

end Value

namespace Expr

/-! ## More operators -/

/-- A comparison of two operands in their common type is an `int`. -/
def relation (holds : Int → Int → Prop) [DecidableRel holds] : Expr → Expr → Expr
  | .ok a, .ok b =>
    let t := a.type.common b.type
    int (if holds (Value.toInt ⟨t, a.as t⟩) (Value.toInt ⟨t, b.as t⟩) then 1 else 0)
  | .error u, _ => .error u
  | _, .error u => .error u

/-- `a < b` -/
def less := relation (· < ·)

/-- `a > b` -/
def greater := relation (· > ·)

/-- `a == b` -/
def equal := relation (· = ·)

/-- `!a` -/
def lnot : Expr → Expr
  | .ok a => int (if a.toInt = 0 then 1 else 0)
  | .error u => .error u

instance : Neg Expr := ⟨fun
  | .ok a =>
    let t := a.type.promoted
    if t.signed && (a.as t).negOverflow then .error .overflow else value ⟨t, -a.as t⟩
  | .error u => .error u⟩

/-- `condition ? first : second`, which has the common type of its alternatives;
the other one is not evaluated. -/
def conditional (t : IntType) (condition first second : Expr) : Expr :=
  match condition with
  | .ok c => if c.toInt ≠ 0 then first.cast t else second.cast t
  | .error u => .error u

/-! ## What operators yield -/

/-- The expression has a value of this type, which is this number. -/
def Yields (e : Expr) (t : IntType) (n : Int) : Prop :=
  ∃ pattern, e = value ⟨t, pattern⟩ ∧ Value.toInt ⟨t, pattern⟩ = n

theorem Yields.denotes {e : Expr} {t : IntType} {n : Int} (yields : e.Yields t n) : Denotes e n := by
  obtain ⟨pattern, rfl, number⟩ := yields
  exact ⟨_, rfl, number⟩

/-- An expression has one number. -/
theorem Denotes.unique {e : Expr} {m n : Int} (first : Denotes e m) (second : Denotes e n) : m = n := by
  obtain ⟨v, rfl, rfl⟩ := first
  obtain ⟨_, same, rfl⟩ := second
  cases same
  rfl

theorem Yields.denotes_iff {e : Expr} {t : IntType} {n : Int} (yields : e.Yields t n) (other : Int) :
    Denotes e other ↔ n = other :=
  ⟨yields.denotes.unique, fun same => same ▸ yields.denotes⟩

theorem Yields.congr {e : Expr} {t : IntType} {m n : Int} (yields : e.Yields t m) (same : m = n) :
    e.Yields t n :=
  same ▸ yields

/-- The type and the number determine the expression. -/
theorem Yields.ext {a b : Expr} {t : IntType} {n : Int} (first : a.Yields t n) (second : b.Yields t n) :
    a = b := by
  obtain ⟨p, rfl, number⟩ := first
  obtain ⟨q, rfl, number'⟩ := second
  rw [← Value.ofInt_toInt p, ← Value.ofInt_toInt q, number, number']

theorem not_denotes_error {u : Undefined} {n : Int} : ¬ Denotes (.error u) n := by
  rintro ⟨v, same, -⟩
  cases same

@[simp] theorem cast_error (t : IntType) (u : Undefined) : cast t (.error u) = .error u := rfl

/-- What comes to a number where it fits, and is undefined elsewhere. -/
theorem denotes_iff_of_fits {e : Expr} {n : Int} {fits : Prop} (denotes : fits → Denotes e n)
    (overflows : ¬ fits → ∃ u, e = .error u) (number : Int) :
    Denotes e number ↔ n = number ∧ fits := by
  by_cases inside : fits
  · rw [and_iff_left inside]
    exact ⟨(denotes inside).unique, fun same => same ▸ denotes inside⟩
  · obtain ⟨u, rfl⟩ := overflows inside
    constructor
    · exact fun denotes => absurd denotes not_denotes_error
    · exact fun both => absurd both.2 inside

theorem denotes_iff_of_holds {e : Expr} {t : IntType} {n : Int} (yields : t.Holds n → e.Yields t n)
    (overflows : ¬ t.Holds n → ∃ u, e = .error u) (number : Int) :
    Denotes e number ↔ n = number ∧ t.Holds number := by
  rw [denotes_iff_of_fits (fun holds => (yields holds).denotes) overflows]
  exact and_congr_right fun same => by rw [same]

theorem yields_value (v : Value) : (value v).Yields v.type v.toInt := ⟨v.pattern, rfl, rfl⟩

theorem yields_int {n : Nat} (fits : n < 2 ^ 31) : (int n).Yields .int n := ⟨_, rfl, toInt_int fits⟩

section Operators
variable {a b : Expr} {s s' t : IntType} {m n : Int}

theorem Yields.cast (yields : a.Yields s m) (t : IntType) : (a.cast t).Yields t (t.convert m) := by
  obtain ⟨pattern, rfl, rfl⟩ := yields
  exact ⟨_, rfl, Value.toInt_as t _⟩

/-- An operator is given its operands' numbers in the common type. -/
theorem arithmetic_yields
    {f : (t : IntType) → BitVec t.bits → BitVec t.bits → Except Undefined (BitVec t.bits)} {k : Int}
    (first : a.Yields s m) (second : b.Yields s' n) (common : s.common s' = t)
    (computes : ∀ p q, Value.toInt ⟨t, p⟩ = t.convert m → Value.toInt ⟨t, q⟩ = t.convert n →
      ∃ r, f t p q = .ok r ∧ Value.toInt ⟨t, r⟩ = k) : (arithmetic f a b).Yields t k := by
  obtain ⟨p, rfl, rfl⟩ := first
  obtain ⟨q, rfl, rfl⟩ := second
  obtain ⟨r, computed, number⟩ := computes _ _ (Value.toInt_as t ⟨s, p⟩) (Value.toInt_as t ⟨s', q⟩)
  refine ⟨r, ?_, number⟩
  rw [arithmetic_common common, computed]
  rfl

theorem arithmetic_undefined
    {f : (t : IntType) → BitVec t.bits → BitVec t.bits → Except Undefined (BitVec t.bits)}
    {u : Undefined} (first : a.Yields s m) (second : b.Yields s' n) (common : s.common s' = t)
    (fails : ∀ p q, Value.toInt ⟨t, p⟩ = t.convert m → Value.toInt ⟨t, q⟩ = t.convert n →
      f t p q = .error u) : arithmetic f a b = .error u := by
  obtain ⟨p, rfl, rfl⟩ := first
  obtain ⟨q, rfl, rfl⟩ := second
  rw [arithmetic_common common, fails _ _ (Value.toInt_as t ⟨s, p⟩) (Value.toInt_as t ⟨s', q⟩)]
  rfl

/-- Signed arithmetic is defined where the result is in the type. -/
theorem saddOverflow_iff (signed : t.signed = true) (p q : BitVec t.bits) :
    p.saddOverflow q = true ↔ ¬ t.Holds (Value.toInt ⟨t, p⟩ + Value.toInt ⟨t, q⟩) := by
  simp only [BitVec.saddOverflow, IntType.Holds, Value.toInt, signed, if_true, Bool.or_eq_true,
    decide_eq_true_eq]
  omega

theorem ssubOverflow_iff (signed : t.signed = true) (p q : BitVec t.bits) :
    p.ssubOverflow q = true ↔ ¬ t.Holds (Value.toInt ⟨t, p⟩ - Value.toInt ⟨t, q⟩) := by
  simp only [BitVec.ssubOverflow, IntType.Holds, Value.toInt, signed, if_true, Bool.or_eq_true,
    decide_eq_true_eq]
  omega

theorem Yields.add (first : a.Yields s m) (second : b.Yields s' n) (common : s.common s' = t)
    (holds : t.signed = true → t.Holds (t.convert m + t.convert n)) :
    (a + b).Yields t (t.convert (t.convert m + t.convert n)) := by
  apply arithmetic_yields first second common
  intro p q number number'
  refine ⟨p + q, if_neg ?_, by rw [Value.toInt_add, number, number']⟩
  rintro overflow
  obtain ⟨signed, overflow⟩ := Bool.and_eq_true_iff.mp overflow
  rw [saddOverflow_iff signed, number, number'] at overflow
  exact overflow (holds signed)

theorem Yields.add_overflow (first : a.Yields s m) (second : b.Yields s' n)
    (common : s.common s' = t) (signed : t.signed = true)
    (outside : ¬ t.Holds (t.convert m + t.convert n)) : a + b = .error .overflow := by
  apply arithmetic_undefined first second common
  intro p q number number'
  apply if_pos
  rw [signed, Bool.true_and, saddOverflow_iff signed, number, number']
  exact outside

theorem Yields.sub (first : a.Yields s m) (second : b.Yields s' n) (common : s.common s' = t)
    (holds : t.signed = true → t.Holds (t.convert m - t.convert n)) :
    (a - b).Yields t (t.convert (t.convert m - t.convert n)) := by
  apply arithmetic_yields first second common
  intro p q number number'
  refine ⟨p - q, if_neg ?_, by rw [Value.toInt_sub, number, number']⟩
  rintro overflow
  obtain ⟨signed, overflow⟩ := Bool.and_eq_true_iff.mp overflow
  rw [ssubOverflow_iff signed, number, number'] at overflow
  exact overflow (holds signed)

theorem Yields.sub_overflow (first : a.Yields s m) (second : b.Yields s' n)
    (common : s.common s' = t) (signed : t.signed = true)
    (outside : ¬ t.Holds (t.convert m - t.convert n)) : a - b = .error .overflow := by
  apply arithmetic_undefined first second common
  intro p q number number'
  apply if_pos
  rw [signed, Bool.true_and, ssubOverflow_iff signed, number, number']
  exact outside

theorem negOverflow_iff (signed : t.signed = true) (p : BitVec t.bits) :
    p.negOverflow = true ↔ ¬ t.Holds (-Value.toInt ⟨t, p⟩) := by
  have below := BitVec.le_toInt p
  have above := BitVec.toInt_lt (x := p)
  simp only [BitVec.negOverflow, IntType.Holds, Value.toInt, signed, if_true, beq_iff_eq]
  omega

theorem Yields.neg (yields : a.Yields s m) (promoted : s.promoted = t)
    (holds : t.signed = true → t.Holds (-t.convert m)) :
    (-a).Yields t (t.convert (-t.convert m)) := by
  obtain ⟨p, rfl, rfl⟩ := yields
  subst promoted
  have number := Value.toInt_as s.promoted ⟨s, p⟩
  refine ⟨-Value.as s.promoted ⟨s, p⟩, if_neg ?_, by rw [Value.toInt_neg, number]⟩
  intro overflow
  obtain ⟨signed, overflow⟩ := Bool.and_eq_true_iff.mp overflow
  rw [negOverflow_iff signed, number] at overflow
  exact overflow (holds signed)

theorem Yields.neg_overflow (yields : a.Yields s m) (promoted : s.promoted = t)
    (signed : t.signed = true) (outside : ¬ t.Holds (-t.convert m)) : -a = .error .overflow := by
  obtain ⟨p, rfl, rfl⟩ := yields
  subst promoted
  have number := Value.toInt_as s.promoted ⟨s, p⟩
  apply if_pos
  rw [signed, Bool.true_and, negOverflow_iff signed, number]
  exact outside

/-- The order of the operands does not matter. -/
theorem Yields.or_comm (first : a.Yields s m) (second : b.Yields s' n) : a ||| b = b ||| a := by
  obtain ⟨p, rfl, -⟩ := first
  obtain ⟨q, rfl, -⟩ := second
  refine (arithmetic_common rfl).trans (Eq.symm ?_)
  refine (arithmetic_common (IntType.common_comm s' s)).trans ?_
  exact congrArg (fun joined => value ⟨s.common s', joined⟩) (BitVec.or_comm _ _)

theorem Yields.shiftLeft {k : Nat} (yields : a.Yields s m) (promoted : s.promoted = t)
    (inside : k < t.bits) (small : k < 2 ^ 31) :
    (a <<< int k).Yields t (t.convert (t.convert m * 2 ^ k)) := by
  obtain ⟨p, rfl, rfl⟩ := yields
  exact ⟨_, shift_defined promoted (toInt_int small) inside, by
    rw [Value.toInt_shiftLeft, Value.toInt_as]⟩

theorem Yields.shiftRight {k : Nat} (yields : a.Yields s m) (promoted : s.promoted = t)
    (inside : k < t.bits) (small : k < 2 ^ 31) :
    (a >>> int k).Yields t (t.convert m / 2 ^ k) := by
  obtain ⟨p, rfl, rfl⟩ := yields
  exact ⟨_, shift_defined promoted (toInt_int small) inside, by
    rw [Value.toInt_shiftRight, Value.toInt_as]⟩

/-- Numbers that share no bit are added by joining them. -/
theorem Yields.or_disjoint {k : Nat} (first : a.Yields s m) (second : b.Yields s' n)
    (common : s.common s' = t) (inside : k ≤ t.bits) (nonneg : 0 ≤ t.convert m)
    (below : t.convert m < 2 ^ k) (above : 2 ^ k ∣ n) :
    (a ||| b).Yields t (t.convert (t.convert m + t.convert n)) := by
  apply arithmetic_yields first second common
  intro p q number number'
  have low : p.toNat < 2 ^ k := by
    have same := Value.toNat_of_nonneg (number.symm ▸ nonneg)
    zify
    omega
  have high : 2 ^ k ∣ q.toNat := by
    have divides : (2 : Int) ^ k ∣ 2 ^ t.bits := pow_dvd_pow 2 inside
    have multiple : (2 : Int) ^ k ∣ q.toNat := by
      rw [Value.toNat_emod, number', IntType.convert_emod, Int.dvd_iff_emod_eq_zero,
        Int.emod_emod_of_dvd _ divides]
      exact Int.emod_eq_zero_of_dvd above
    exact_mod_cast multiple
  have apart : p &&& q = 0 := by
    obtain ⟨c, multiple⟩ := high
    apply BitVec.eq_of_getLsbD_eq
    intro i _
    rw [BitVec.getLsbD_and, ← BitVec.testBit_toNat, ← BitVec.testBit_toNat, multiple,
      Nat.testBit_two_pow_mul]
    by_cases lower : i < k
    · simp [lower]
    · have clear := Nat.testBit_lt_two_pow (Nat.lt_of_lt_of_le low
        (Nat.pow_le_pow_right Nat.two_pos (Nat.le_of_not_lt lower)))
      simp [clear]
  refine ⟨p ||| q, rfl, ?_⟩
  rw [← BitVec.add_eq_or_of_and_eq_zero p q apart, Value.toInt_add, number, number']

/-- A mask that is not negative selects bits of the pattern. -/
theorem Yields.and (first : a.Yields s m) (second : b.Yields s' n) (common : s.common s' = t)
    (holds : t.Holds n) (nonneg : 0 ≤ n) :
    (a &&& b).Yields t ((m % 2 ^ t.bits).toNat &&& n.toNat : Nat) := by
  have positive : 0 < t.bits := common ▸ Nat.lt_of_lt_of_le (by decide) (IntType.common_bits s s')
  apply arithmetic_yields first second common
  intro p q number number'
  rw [IntType.convert_of_holds positive holds] at number'
  have pattern : p.toNat = (m % 2 ^ t.bits).toNat := by
    rw [← IntType.convert_emod, ← number, ← Value.toNat_emod, Int.toNat_natCast]
  have mask : q.toNat = n.toNat := by
    have same := Value.toNat_of_nonneg (number'.symm ▸ nonneg)
    rw [← number', ← same, Int.toNat_natCast]
  have below : (p &&& q).toNat ≤ q.toNat := Nat.and_le_right
  refine ⟨p &&& q, rfl, ?_⟩
  rw [Value.toInt_of_le below (number'.symm ▸ nonneg), BitVec.toNat_and, pattern, mask]

/-- A type that has a mask is at least as wide. -/
theorem mask_inside {k : Nat} (holds : t.Holds (2 ^ k - 1)) : k ≤ t.bits := by
  have half : (2 : Int) ^ (t.bits - 1) ≤ 2 ^ t.bits :=
    mod_cast Nat.pow_le_pow_right Nat.two_pos (Nat.sub_le t.bits 1)
  have below : (2 : Int) ^ k - 1 < 2 ^ t.bits := by
    rw [IntType.Holds] at holds
    split at holds <;> omega
  have natural : 2 ^ k ≤ 2 ^ t.bits := by
    zify
    omega
  exact (Nat.pow_le_pow_iff_right Nat.one_lt_two).mp natural

theorem mask_toNat (j k : Nat) : ((2 : Int) ^ j - 2 ^ k).toNat = 2 ^ j - 2 ^ k := by
  have natural : ∀ i : Nat, (2 : Int) ^ i = (2 ^ i : Nat) := fun i => by push_cast; rfl
  rw [natural, natural]
  omega

theorem remainder_toNat {k : Nat} (inside : k ≤ t.bits) (m : Int) :
    (((m % 2 ^ t.bits).toNat % 2 ^ k : Nat) : Int) = m % 2 ^ k := by
  have divides : (2 : Int) ^ k ∣ 2 ^ t.bits := pow_dvd_pow 2 inside
  have nonneg : 0 ≤ m % 2 ^ t.bits := Int.emod_nonneg m (Int.pow_pos (by omega)).ne'
  push_cast
  rw [Int.toNat_of_nonneg nonneg, Int.emod_emod_of_dvd _ divides]

/-- A mask of low bits takes the remainder. -/
theorem Yields.and_low {k : Nat} (first : a.Yields s m) (second : b.Yields s' (2 ^ k - 1))
    (common : s.common s' = t) (holds : t.Holds (2 ^ k - 1)) : (a &&& b).Yields t (m % 2 ^ k) := by
  have power : (0 : Int) < 2 ^ k := Int.pow_pos (by omega)
  refine (first.and second common holds (by omega)).congr ?_
  rw [← pow_zero (2 : Int), mask_toNat, pow_zero, Nat.and_two_pow_sub_one_eq_mod,
    remainder_toNat (mask_inside holds)]

/-- A mask of upper bits does too, where the lower ones are clear. -/
theorem two_pow_mul_and {c j k : Nat} (ordered : k ≤ j) :
    2 ^ k * c &&& (2 ^ j - 2 ^ k) = 2 ^ k * c % 2 ^ j := by
  have whole : 2 ^ j = 2 ^ k * 2 ^ (j - k) := by
    rw [← Nat.pow_add, Nat.add_sub_cancel' ordered]
  have mask : 2 ^ j - 2 ^ k = (2 ^ (j - k) - 1) <<< k := by
    rw [Nat.shiftLeft_eq, Nat.sub_mul, Nat.one_mul, whole, Nat.mul_comm]
  have shifted : 2 ^ k * c = c <<< k := by
    rw [Nat.shiftLeft_eq, Nat.mul_comm]
  rw [mask, shifted, ← Nat.shiftLeft_and_distrib, Nat.and_two_pow_sub_one_eq_mod, ← shifted, whole,
    Nat.mul_mod_mul_left, Nat.shiftLeft_eq, Nat.mul_comm]

theorem Yields.and_upper {j k : Nat} (first : a.Yields s m) (second : b.Yields s' (2 ^ j - 2 ^ k))
    (common : s.common s' = t) (holds : t.Holds (2 ^ j - 1)) (ordered : k ≤ j) (multiple : 2 ^ k ∣ m) :
    (a &&& b).Yields t (m % 2 ^ j) := by
  have smaller : (2 : Int) ^ k ≤ 2 ^ j := mod_cast Nat.pow_le_pow_right Nat.two_pos ordered
  have power : (0 : Int) < 2 ^ k := Int.pow_pos (by omega)
  have inside := mask_inside holds
  have pattern : 2 ^ k ∣ (m % 2 ^ t.bits).toNat := by
    have clear := remainder_toNat (ordered.trans inside) m
    rw [Int.emod_eq_zero_of_dvd multiple] at clear
    exact Nat.dvd_of_mod_eq_zero (by exact_mod_cast clear)
  obtain ⟨c, above⟩ := pattern
  have mask := first.and second common (holds.below (by omega) (by omega)) (by omega)
  refine mask.congr ?_
  rw [mask_toNat, above, two_pow_mul_and ordered, ← above, remainder_toNat inside]

theorem Yields.relation (first : a.Yields s m)
    (holds : Int → Int → Prop) [DecidableRel holds] (second : b.Yields s' n) (common : s.common s' = t) : (relation holds a b).Yields .int
      (if holds (t.convert m) (t.convert n) then 1 else 0) := by
  obtain ⟨p, rfl, rfl⟩ := first
  obtain ⟨q, rfl, rfl⟩ := second
  subst common
  rw [← Value.toInt_as _ ⟨s, p⟩, ← Value.toInt_as _ ⟨s', q⟩]
  change (int (if holds _ _ then 1 else 0)).Yields .int _
  split <;> exact yields_int (by decide)

theorem Yields.less (first : a.Yields s m) (second : b.Yields s' n) (common : s.common s' = t) :
    (less a b).Yields .int (if t.convert m < t.convert n then 1 else 0) :=
  first.relation (· < ·) second common

theorem Yields.greater (first : a.Yields s m) (second : b.Yields s' n) (common : s.common s' = t) :
    (greater a b).Yields .int (if t.convert m > t.convert n then 1 else 0) :=
  first.relation (· > ·) second common

theorem Yields.equal (first : a.Yields s m) (second : b.Yields s' n) (common : s.common s' = t) :
    (equal a b).Yields .int (if t.convert m = t.convert n then 1 else 0) :=
  first.relation (· = ·) second common

theorem Yields.lnot (yields : a.Yields s m) :
    (lnot a).Yields .int (if m = 0 then 1 else 0) := by
  obtain ⟨p, rfl, rfl⟩ := yields
  change (int (if _ = (0 : Int) then 1 else 0)).Yields .int _
  split <;> exact yields_int (by decide)

/-- The conditional is the alternative that its condition chooses. -/
theorem Yields.conditional {condition : Prop} [Decidable condition]
    (yields : a.Yields s (if condition then 1 else 0)) (t : IntType) (first second : Expr) :
    conditional t a first second = if condition then first.cast t else second.cast t := by
  obtain ⟨p, rfl, number⟩ := yields
  change (if Value.toInt ⟨s, p⟩ ≠ 0 then _ else _) = _
  rw [number]
  by_cases chosen : condition <;> simp [chosen]

end Operators

end Expr

end Ws63Rf.CExpr
