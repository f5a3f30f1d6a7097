import Ws63Rf.OalUtil
import Ws63Rf.Positional

/-! What a numeral is, independently of any reader: digits of a base in either
letter case, an optional hexadecimal prefix, and C's choice of a base by the
first characters. The header's character macros are tied to these digits here,
once for all of its readers. -/
namespace Ws63Rf.Numerals
open OalUtil Positional

/-- The value of a hexadecimal digit in either case; no other character has one. -/
def digitValue (c : OsalS8) : Option Nat :=
  if 48 ≤ c.toInt ∧ c.toInt ≤ 57 then some (c.toInt - 48).toNat
  else if 65 ≤ c.toInt ∧ c.toInt ≤ 70 then some (c.toInt - 55).toNat
  else if 97 ≤ c.toInt ∧ c.toInt ≤ 102 then some (c.toInt - 87).toNat
  else none

/-- The character is a digit of the base. -/
def isDigitOf (base : Nat) (c : OsalS8) : Bool := (digitValue c).any (· < base)

/-- These characters spell these digits of the base, case by case. -/
def Spells (base : Nat) (text : List OsalS8) (digits : List Nat) : Prop :=
  List.Forall₂ (fun c digit => digitValue c = some digit ∧ digit < base) text digits

/-- The text is at least one digit of the base and writes this number. -/
def Plain (base : Nat) (text : List OsalS8) (number : Nat) : Prop :=
  ∃ digits, Spells base text digits ∧ digits ≠ [] ∧ value base digits = number

/-- The `x` of a hexadecimal prefix. -/
def IsMarker (c : OsalS8) : Prop := c = chr 'x' ∨ c = chr 'X'

instance (c : OsalS8) : Decidable (IsMarker c) := inferInstanceAs (Decidable (_ ∨ _))

/-- The numerals of each base argument, with the base their digits have and
the number they write. Argument 0 leaves the base to the spelling. -/
inductive Numeral : Int32 → List OsalS8 → Nat → Nat → Prop where
  | octal (plain : Plain 8 text number) : Numeral 8 text 8 number
  | decimal (plain : Plain 10 text number) : Numeral 10 text 10 number
  | hex (plain : Plain 16 text number) : Numeral 16 text 16 number
  | prefixedHex (marker : IsMarker x) (plain : Plain 16 text number) :
      Numeral 16 (chr '0' :: x :: text) 16 number
  | guessedHex (marker : IsMarker x) (plain : Plain 16 text number) :
      Numeral 0 (chr '0' :: x :: text) 16 number
  | guessedOctal (zero : text.head? = some (chr '0')) (plain : Plain 8 text number) :
      Numeral 0 text 8 number
  | guessedDecimal (nonzero : text.head? ≠ some (chr '0')) (plain : Plain 10 text number) :
      Numeral 0 text 10 number

/-- The optional minus sign in front of a numeral. -/
def sign (negative : Bool) : List OsalS8 := if negative then [chr '-'] else []

/-- The number a numeral denotes under its sign. -/
def signed (negative : Bool) (number : Nat) : Int := if negative then -number else number

/-- Spaces, an optional `-` and a numeral. -/
def SignedNumeral (base : Int32) (text : List OsalS8) : Prop :=
  ∃ spaces negative numeral digitBase number, Numeral base numeral digitBase number ∧
    text = List.replicate spaces (chr ' ') ++ sign negative ++ numeral

/-- The usual rendering of an integer: a `-` where it is negative, then the
digits of its magnitude. -/
def render (base : Nat) (n : Int) : List OsalS8 :=
  sign (decide (n < 0)) ++ (Nat.toDigits base n.natAbs).map chr

theorem space_ne_minus : chr ' ' ≠ chr '-' := by decide

/-! ## The character macros -/

/-- A statement about every character is a finite check. -/
theorem every_char {P : OsalS8 → Prop} (checked : ∀ b : BitVec 8, P (Int8.ofBitVec b))
    (c : OsalS8) : P c :=
  checked c.toBitVec

theorem oalIsxdigit_eq (c : OsalS8) : oalIsxdigit c = (digitValue c).isSome := by
  revert c
  exact every_char (by decide)

theorem oalIsdigit_eq (c : OsalS8) : oalIsdigit c = isDigitOf 10 c := by
  revert c
  exact every_char (by decide)

theorem oalTolower_eq_x (c : OsalS8) : oalTolower c = (chr 'x').toUInt8 ↔ IsMarker c := by
  unfold IsMarker
  revert c
  exact every_char (by decide)

theorem digitValue_lt {c : OsalS8} (found : digitValue c = some digit) : digit < 16 := by
  have bounded : ∀ c, (digitValue c).all (· < 16) = true := every_char (by decide)
  simpa [found] using bounded c

/-- A hex digit gives its value, any other character 0xff. -/
theorem hexOf_decided (c : OsalS8) : hexOf c = ((digitValue c).map UInt8.ofNat).getD 0xff := by
  revert c
  exact every_char (by decide)

theorem hexOf_eq {c : OsalS8} (found : digitValue c = some digit) :
    hexOf c = UInt8.ofNat digit := by
  rw [hexOf_decided, found]
  rfl

theorem hexOf_other {c : OsalS8} (noDigit : digitValue c = none) : hexOf c = 0xff := by
  rw [hexOf_decided, noDigit]
  rfl

/-- The value the digit loop computes for a hexadecimal digit. -/
theorem strtoull_value_eq {c : OsalS8} (found : digitValue c = some digit) :
    (if oalIsdigit c then UInt32.ofInt (c.toInt - (chr '0').toInt)
      else UInt32.ofInt ((oalTolower c).toNat - (chr 'a').toInt + 10)) = UInt32.ofNat digit := by
  have agrees : ∀ c, (digitValue c).all (fun digit =>
      (if oalIsdigit c then UInt32.ofInt (c.toInt - (chr '0').toInt)
        else UInt32.ofInt ((oalTolower c).toNat - (chr 'a').toInt + 10)) =
          UInt32.ofNat digit) = true := every_char (by decide)
  simpa [found] using agrees c

theorem isDigitOf_of_value {base : Nat} {c : OsalS8} (found : digitValue c = some digit)
    (small : digit < base) : isDigitOf base c = true := by
  simp [isDigitOf, found, small]

theorem isDigitOf_iff {base : Nat} {c : OsalS8} :
    isDigitOf base c = true ↔ ∃ digit, digitValue c = some digit ∧ digit < base := by
  simp [isDigitOf, Option.any_eq_true]

/-- No sign, space, separator, prefix marker or NUL is a digit of any base. -/
theorem not_isDigitOf_punctuation (base : Nat) {c : OsalS8}
    (punctuation : c = chr ' ' ∨ c = chr '-' ∨ c = chr ':' ∨ c = 0 ∨ IsMarker c) :
    isDigitOf base c = false := by
  have none : digitValue c = none := by
    rcases punctuation with rfl | rfl | rfl | rfl | rfl | rfl <;> decide
  simp [isDigitOf, none]

/-! ## Spelled digits -/

theorem Spells.isDigitOf {base : Nat} (spelled : Spells base text digits) :
    ∀ c ∈ text, isDigitOf base c = true := by
  induction spelled with
  | nil => simp
  | cons first rest ih =>
    intro c member
    rcases List.mem_cons.mp member with rfl | member
    · exact isDigitOf_of_value first.1 first.2
    · exact ih c member

/-- Characters that are all digits spell something. -/
theorem exists_spelled {base : Nat} (text : List OsalS8)
    (all : ∀ c ∈ text, Numerals.isDigitOf base c = true) : ∃ digits, Spells base text digits := by
  induction text with
  | nil => exact ⟨[], .nil⟩
  | cons c text ih =>
    obtain ⟨digit, found, small⟩ := isDigitOf_iff.mp (all c (by simp))
    obtain ⟨digits, spelled⟩ := ih fun c member => all c (List.mem_cons_of_mem _ member)
    exact ⟨digit :: digits, .cons ⟨found, small⟩ spelled⟩

theorem Spells.length_eq {base : Nat} (spelled : Spells base text digits) :
    text.length = digits.length := List.Forall₂.length_eq spelled

theorem Spells.nil_iff {base : Nat} (spelled : Spells base text digits) :
    digits = [] ↔ text = [] := by
  rw [← List.length_eq_zero_iff, ← List.length_eq_zero_iff, spelled.length_eq]

theorem Plain.head {base : Nat} (plain : Plain base text number) :
    ∃ first rest, text = first :: rest ∧ Numerals.isDigitOf base first = true := by
  obtain ⟨digits, spelled, nonempty, -⟩ := plain
  cases spelled with
  | nil => exact absurd rfl nonempty
  | cons first rest => exact ⟨_, _, rfl, isDigitOf_of_value first.1 first.2⟩

/-- Every numeral begins with a digit, hence with neither a space nor a sign. -/
theorem Numeral.head (numeral : Numeral base text digitBase number) :
    ∃ first rest, text = first :: rest ∧ isDigitOf digitBase first = true := by
  cases numeral with
  | prefixedHex | guessedHex => exact ⟨_, _, rfl, by decide⟩
  | octal plain | decimal plain | hex plain | guessedOctal _ plain | guessedDecimal _ plain =>
    exact plain.head

theorem digit_unsigned {base : Nat} {c : OsalS8} (digit : isDigitOf base c = true) :
    c ≠ chr ' ' ∧ c ≠ chr '-' := by
  constructor <;> rintro rfl
  · rw [not_isDigitOf_punctuation base (.inl rfl)] at digit
    cases digit
  · rw [not_isDigitOf_punctuation base (.inr (.inl rfl))] at digit
    cases digit

/-- Any nonempty run of digits writes a number. -/
theorem exists_plain_iff {base : Nat} :
    (∃ number, Plain base text number) ↔
      text ≠ [] ∧ ∀ c ∈ text, Numerals.isDigitOf base c = true := by
  constructor
  · rintro ⟨number, digits, spelled, nonempty, -⟩
    exact ⟨mt spelled.nil_iff.mpr nonempty, spelled.isDigitOf⟩
  · rintro ⟨nonempty, all⟩
    obtain ⟨digits, spelled⟩ := exists_spelled text all
    exact ⟨value base digits, digits, spelled, mt spelled.nil_iff.mp nonempty, rfl⟩

/-! ## Spaces and sign in front of a numeral -/

/-- The rest of a text whose spaces and sign have all been passed. -/
def Opened (negative : Bool) (body : List OsalS8) : Prop :=
  negative = false → body.head? ≠ some (chr ' ') ∧ body.head? ≠ some (chr '-')

theorem exists_opened (text : List OsalS8) : ∃ spaces negative body,
    text = List.replicate spaces (chr ' ') ++ sign negative ++ body ∧ Opened negative body := by
  induction text with
  | nil => exact ⟨0, false, [], rfl, fun _ => by simp⟩
  | cons c text ih =>
    by_cases space : c = chr ' '
    · obtain ⟨spaces, negative, body, rfl, opened⟩ := ih
      exact ⟨spaces + 1, negative, body, by simp [space, List.replicate_succ], opened⟩
    · by_cases minus : c = chr '-'
      · exact ⟨0, true, text, by simp [sign, minus], fun impossible => by cases impossible⟩
      · exact ⟨0, false, c :: text, by simp [sign], fun _ => by simp [space, minus]⟩

/-- Behind the spaces and a sign, no further space or sign begins an unsigned
body, nor what follows it. -/
theorem Opened.follows (opened : Opened negative body) (plain : c ≠ chr ' ' ∧ c ≠ chr '-')
    (rest : List OsalS8) : ∃ first tail, body ++ c :: rest = first :: tail ∧
      (negative = false → first ≠ chr ' ' ∧ first ≠ chr '-') := by
  cases body with
  | nil => exact ⟨c, rest, rfl, fun _ => plain⟩
  | cons first body => exact ⟨first, body ++ c :: rest, rfl, fun plus => by simpa using opened plus⟩

/-- Spaces, sign and digits of a signed numeral line up with those of any text
it is a prefix of. -/
theorem Opened.aligned {digitBase : Nat} (opened : Opened negative body)
    (digit : isDigitOf digitBase first = true)
    (front : List.replicate k (chr ' ') ++ sign minus ++ first :: word <+:
      List.replicate spaces (chr ' ') ++ sign negative ++ body) :
    k = spaces ∧ minus = negative ∧ first :: word <+: body := by
  obtain ⟨noSpace, noMinus⟩ := digit_unsigned digit
  induction spaces generalizing k with
  | zero =>
    cases k with
    | zero =>
      cases minus <;> cases negative
      · exact ⟨rfl, rfl, by simpa [sign] using front⟩
      · simp [sign, noMinus] at front
      · obtain ⟨tail, rfl⟩ : ∃ tail, body = chr '-' :: tail := by
          obtain ⟨tail, split⟩ := front
          exact ⟨_, by simpa [sign] using split.symm⟩
        exact absurd rfl (opened rfl).2
      · exact ⟨rfl, rfl, by simpa [sign] using front⟩
    | succ k =>
      cases negative with
      | true => simp [sign, List.replicate_succ, space_ne_minus] at front
      | false =>
        obtain ⟨tail, rfl⟩ : ∃ tail, body = chr ' ' :: tail := by
          obtain ⟨tail, split⟩ := front
          exact ⟨_, by simpa [sign, List.replicate_succ] using split.symm⟩
        exact absurd rfl (opened rfl).1
  | succ spaces ih =>
    cases k with
    | zero => cases minus <;> simp [sign, List.replicate_succ, noSpace, space_ne_minus.symm] at front
    | succ k =>
      have inner := ih (k := k) (by simpa [List.replicate_succ] using front)
      exact ⟨congrArg Nat.succ inner.1, inner.2⟩

/-! ## Renderings -/

/-- A magnitude under the sign of its number is that number. -/
theorem signed_natAbs (n : Int) : signed (decide (n < 0)) n.natAbs = n := by
  by_cases negative : n < 0
  · rw [signed, if_pos (decide_eq_true negative)]
    omega
  · rw [signed, if_neg (by simpa using negative)]
    omega

private theorem digitChar_spelled : ∀ digit < 16,
    digitValue (chr (Nat.digitChar digit)) = some digit := by
  decide

/-- The digits of a rendering spell the magnitude of the number. -/
theorem toDigits_plain {base : Nat} (proper : 1 < base) (known : base ≤ 16) (n : Nat) :
    Plain base ((Nat.toDigits base n).map chr) n := by
  obtain ⟨digits, spelling, bounded, written⟩ := toDigits_spells proper n
  refine ⟨digits, ?_, ?_, written⟩
  · rw [spelling, List.map_map]
    apply List.forall₂_map_left_iff.mpr
    apply List.forall₂_same.mpr
    intro digit member
    have small := bounded digit member
    exact ⟨digitChar_spelled digit (Nat.lt_of_lt_of_le small known), small⟩
  · rintro rfl
    simp at spelling

end Ws63Rf.Numerals
