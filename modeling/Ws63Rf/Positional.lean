import Mathlib.Data.Nat.Digits.Defs
import Mathlib.Data.Nat.Digits.Lemmas

/-! Numbers written most significant digit first, the order in which a reader
meets their digits. The value is Mathlib's `Nat.ofDigits` of the reversed
digits; the lemmas say how it grows when one more digit is read. -/
namespace Ws63Rf.Positional

/-- The number these digits write in this base. -/
def value (base : Nat) (digits : List Nat) : Nat := Nat.ofDigits base digits.reverse

@[simp] theorem value_nil (base : Nat) : value base [] = 0 := rfl

@[simp] theorem value_singleton (base digit : Nat) : value base [digit] = digit := by
  simp [value]

theorem value_append (base : Nat) (front back : List Nat) :
    value base (front ++ back) = value base front * base ^ back.length + value base back := by
  simp only [value, List.reverse_append, Nat.ofDigits_append, List.length_reverse]
  ring

theorem value_cons (base digit : Nat) (rest : List Nat) :
    value base (digit :: rest) = digit * base ^ rest.length + value base rest := by
  simpa using value_append base [digit] rest

theorem value_concat (base : Nat) (front : List Nat) (digit : Nat) :
    value base (front ++ [digit]) = value base front * base + digit := by
  simp [value_append]

/-- Nothing but zero digits write zero. -/
theorem value_eq_zero_iff {base : Nat} (positive : 0 < base) (digits : List Nat) :
    value base digits = 0 ↔ ∀ digit ∈ digits, digit = 0 := by
  induction digits with
  | nil => simp
  | cons digit rest ih => simp [value_cons, ih, positive.ne']

theorem value_le_append (base : Nat) (positive : 0 < base) (front back : List Nat) :
    value base front ≤ value base (front ++ back) := by
  have power : 0 < base ^ back.length := Nat.pow_pos positive
  rw [value_append]
  calc value base front ≤ value base front * base ^ back.length := Nat.le_mul_of_pos_right _ power
    _ ≤ _ := Nat.le_add_right _ _

/-- Digits behind a positive number change it. -/
theorem value_append_eq_iff {base : Nat} (proper : 1 < base) {front : List Nat} (back : List Nat)
    (positive : value base front ≠ 0) : value base (front ++ back) = value base front ↔ back = [] := by
  constructor
  · intro same
    by_contra nonempty
    have more : 1 < base ^ back.length :=
      Nat.one_lt_pow (mt List.length_eq_zero_iff.mp nonempty) proper
    have grows : value base front < value base front * base ^ back.length :=
      (Nat.lt_mul_iff_one_lt_right (Nat.pos_of_ne_zero positive)).mpr more
    rw [value_append] at same
    omega
  · rintro rfl
    rw [List.append_nil]

/-- The standard rendering of a number spells digits of the base that write
the number back. -/
theorem toDigits_spells {base : Nat} (proper : 1 < base) (n : Nat) :
    ∃ digits, Nat.toDigits base n = digits.map Nat.digitChar ∧
      (∀ digit ∈ digits, digit < base) ∧ value base digits = n := by
  induction n using Nat.strong_induction_on with
  | _ n ih =>
    by_cases small : n < base
    · exact ⟨[n], by simp [Nat.toDigits_of_lt_base small], by simpa using small, by simp⟩
    · have fits : base ≤ n := Nat.le_of_not_lt small
      have positive : 0 < base := Nat.lt_trans Nat.zero_lt_one proper
      have smaller : n / base < n := Nat.div_lt_self (Nat.lt_of_lt_of_le positive fits) proper
      obtain ⟨digits, spelling, bounded, written⟩ := ih (n / base) smaller
      refine ⟨digits ++ [n % base], ?_, ?_, ?_⟩
      · rw [Nat.toDigits_of_base_le proper fits, spelling]
        simp
      · intro digit member
        rcases List.mem_append.mp member with member | member
        · exact bounded digit member
        · rw [List.mem_singleton.mp member]
          exact Nat.mod_lt n positive
      · rw [value_concat, written]
        exact Nat.div_add_mod' n base

end Ws63Rf.Positional
