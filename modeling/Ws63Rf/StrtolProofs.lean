import Ws63Rf.Numerals

/-! `oal_strtol` against the numerals it is meant to read: the value it
returns, the end it reports and how far it looks. The three source functions
are followed stage by stage: the choice of a base, the prefix, the digit loop. -/
namespace Ws63Rf.StrtolProofs
open Scan OalUtil Positional Numerals

/-! ## The digit loop -/

private theorem turn_digit {base : OalUtil.OsalU32} {c : OsalS8} (found : digitValue c = some digit)
    (small : digit < base.toNat) (result : Nat) :
    strtoullTurn base (UInt64.ofNat result) c =
      .next (UInt64.ofNat (result * base.toNat + digit)) := by
  have bound : digit < UInt32.size := Nat.lt_trans (digitValue_lt found) (by decide)
  have below : ¬ base ≤ UInt32.ofNat digit := by
    rw [UInt32.le_iff_toNat_le, UInt32.toNat_ofNat_of_lt' bound]
    omega
  have wide : base.toUInt64 = UInt64.ofNat base.toNat := by
    rw [← UInt32.toUInt64_ofNat' base.toNat_lt, UInt32.ofNat_toNat]
  simp only [strtoullTurn, oalIsxdigit_eq, found, Option.isSome_some, ↓reduceIte,
    strtoull_value_eq found, below, wide, UInt32.toUInt64_ofNat' bound,
    UInt64.ofNat_add, UInt64.ofNat_mul]

private theorem turn_other {base : OsalU32} {c : OsalS8} (other : isDigitOf base.toNat c = false)
    (result : UInt64) : strtoullTurn base result c = .stop result := by
  cases found : digitValue c with
  | none => simp [strtoullTurn, oalIsxdigit_eq, found]
  | some digit =>
    have bound : digit < UInt32.size := Nat.lt_trans (digitValue_lt found) (by decide)
    have large : base ≤ UInt32.ofNat digit := by
      rw [UInt32.le_iff_toNat_le, UInt32.toNat_ofNat_of_lt' bound]
      simpa [isDigitOf, found] using other
    simp only [strtoullTurn, oalIsxdigit_eq, found, Option.isSome_some, ↓reduceIte,
      strtoull_value_eq found, large]

private theorem digits_taken {base : OsalU32} (spelled : Spells base.toNat text digits)
    (result : Nat) :
    Takes (fun _ => true) (fun result c => .ok (strtoullTurn base result c))
      (UInt64.ofNat result) text
      (UInt64.ofNat (result * base.toNat ^ digits.length + value base.toNat digits)) := by
  induction spelled generalizing result with
  | nil => simp [Takes]
  | @cons c digit text digits first rest ih =>
    refine ⟨rfl, _, congrArg Except.ok (turn_digit first.1 first.2 result), ?_⟩
    have regrouped : result * base.toNat ^ (digits.length + 1) + value base.toNat (digit :: digits) =
        (result * base.toNat + digit) * base.toNat ^ digits.length + value base.toNat digits := by
      rw [value_cons]
      ring
    rw [List.length_cons, regrouped]
    exact ih _

/-- The digit loop takes exactly the leading digits of its base and computes
their value modulo 2^64. -/
theorem digit_loop {base : OsalU32} (spelled : Spells base.toNat text digits)
    (ends : isDigitOf base.toNat c = false) (offset : Nat) (rest : List OsalS8) :
    walk (fun _ => true) (fun result c => .ok (strtoullTurn base result c)) 0 offset
        (text ++ c :: rest) =
      ⟨List.range' offset (text.length + 1),
        .ok (UInt64.ofNat (value base.toNat digits), ⟨offset + text.length, c :: rest⟩)⟩ := by
  have taken : Takes (fun _ => true) (fun result c => .ok (strtoullTurn base result c))
      0 text (UInt64.ofNat (value base.toNat digits)) := by
    simpa using digits_taken spelled 0
  rw [walk_takes text taken, walk_stop rfl (congrArg Except.ok (turn_other ends _))]
  simp [List.range'_1_concat]

/-! ## Base and prefix -/

/-- The text begins with `0x` or `0X`. -/
def HexPrefixed (text : List OsalS8) : Prop :=
  ∃ x rest, text = chr '0' :: x :: rest ∧ IsMarker x

theorem guess_hex (marker : IsMarker x) (digit : isDigitOf 16 c = true) (offset : Nat)
    (rest : List OsalS8) :
    simpleGuessBase ⟨offset, chr '0' :: x :: c :: rest⟩ =
      ⟨[offset, offset + 1, offset + 2], .ok 16⟩ := by
  obtain ⟨value, found, -⟩ := isDigitOf_iff.mp digit
  simp [simpleGuessBase, (oalTolower_eq_x x).mpr marker, oalIsxdigit_eq, found]

theorem guess_octal (plain : ¬ IsMarker c) (offset : Nat) (rest : List OsalS8) :
    simpleGuessBase ⟨offset, chr '0' :: c :: rest⟩ = ⟨[offset, offset + 1], .ok 8⟩ := by
  simp [simpleGuessBase, mt (oalTolower_eq_x c).mp plain]

theorem guess_bare_prefix (marker : IsMarker x) (other : isDigitOf 16 c = false) (offset : Nat)
    (rest : List OsalS8) :
    simpleGuessBase ⟨offset, chr '0' :: x :: c :: rest⟩ =
      ⟨[offset, offset + 1, offset + 2], .ok 8⟩ := by
  have nothing : digitValue c = none := by
    cases found : digitValue c with
    | none => rfl
    | some digit => simp [isDigitOf, found, digitValue_lt found] at other
  simp [simpleGuessBase, (oalTolower_eq_x x).mpr marker, oalIsxdigit_eq, nothing]

theorem guess_decimal (nonzero : c ≠ chr '0') (offset : Nat) (rest : List OsalS8) :
    simpleGuessBase ⟨offset, c :: rest⟩ = ⟨[offset], .ok 10⟩ := by
  simp [simpleGuessBase, nonzero]

theorem prefix_other_base {base : OsalU32} (other : base ≠ 16) (p : Cursor OsalS8) :
    skipHexPrefix base p = ⟨[], .ok p⟩ := by
  simp [skipHexPrefix, other]

theorem prefix_skipped (marker : IsMarker x) (offset : Nat) (rest : List OsalS8) :
    skipHexPrefix 16 ⟨offset, chr '0' :: x :: rest⟩ =
      ⟨[offset, offset + 1], .ok ⟨offset + 2, rest⟩⟩ := by
  simp [skipHexPrefix, (oalTolower_eq_x x).mpr marker]

/-- Without a prefix nothing is skipped, and only a leading `0` makes the code
look one character further. -/
theorem prefix_absent (spelled : Spells 16 text digits)
    (ends : isDigitOf 16 c = false) (plain : ¬ HexPrefixed (text ++ c :: rest)) (offset : Nat) :
    ∃ reads, skipHexPrefix 16 ⟨offset, text ++ c :: rest⟩ =
        ⟨reads, .ok ⟨offset, text ++ c :: rest⟩⟩ ∧
      ∀ read ∈ reads, read ≤ offset + text.length := by
  have look : ∀ first second tail, text ++ c :: rest = first :: second :: tail →
      first = chr '0' → oalTolower second ≠ (chr 'x').toUInt8 := by
    rintro first second tail spelling rfl lower
    exact plain ⟨second, tail, spelling, (oalTolower_eq_x second).mp lower⟩
  match text, spelled with
  | [], _ =>
    have nonzero : c ≠ chr '0' := by
      rintro rfl
      exact absurd ends (by decide)
    exact ⟨[offset], by simp [skipHexPrefix, nonzero], by simp⟩
  | first :: text, _ =>
    by_cases zero : first = chr '0'
    · refine ⟨[offset, offset + 1], ?_, by simp⟩
      match text with
      | [] => simp [skipHexPrefix, zero, look first c rest rfl zero]
      | second :: text => simp [skipHexPrefix, zero, look first second _ rfl zero]
    · exact ⟨[offset], by simp [skipHexPrefix, zero], by simp⟩

/-! ## The staged parser -/

/-- Once the base is chosen and its prefix passed, the digits decide. -/
theorem strtoull_stages (base digitBase : OsalU32) (opening text : List OsalS8)
    (endp : Option (Cursor OsalS8))
    (chosen : chooseBase base ⟨offset, opening ++ (text ++ c :: rest)⟩ =
      ⟨guessed, .ok digitBase⟩)
    (skipped : skipHexPrefix digitBase ⟨offset, opening ++ (text ++ c :: rest)⟩ =
      ⟨looked, .ok ⟨offset + opening.length, text ++ c :: rest⟩⟩)
    (spelled : Spells digitBase.toNat text digits) (ends : isDigitOf digitBase.toNat c = false) :
    oalSimpleStrtoull ⟨offset, opening ++ (text ++ c :: rest)⟩ endp base =
      ⟨guessed ++ looked ++ List.range' (offset + opening.length) (text.length + 1),
        .ok (UInt64.ofNat (value digitBase.toNat digits),
          endp.map fun _ => ⟨offset + opening.length + text.length, c :: rest⟩)⟩ := by
  simp [oalSimpleStrtoull, chosen, skipped, digit_loop spelled ends]

private theorem digit_not_marker {base : Nat} (digit : digitValue c = some d ∧ d < base) :
    ¬ IsMarker c := by
  intro marker
  have other := not_isDigitOf_punctuation base (.inr (.inr (.inr (.inr marker))))
  rw [isDigitOf_of_value digit.1 digit.2] at other
  cases other

/-- The character after a leading `0` of a numeral is its next digit or what
follows the numeral. -/
private theorem second_not_marker {base : Nat} (spelled : Spells base (first :: text) digits)
    (plain : ¬ IsMarker c) (rest : List OsalS8) : ∃ second tail, text ++ c :: rest = second :: tail ∧
      ¬ IsMarker second := by
  cases spelled with
  | cons head tail =>
    cases tail with
    | nil => exact ⟨c, rest, rfl, plain⟩
    | @cons second _ text _ digit _ => exact ⟨second, _, rfl, digit_not_marker digit⟩

private theorem digits_not_prefixed (spelled : Spells 16 text digits) (nonempty : digits ≠ [])
    (plain : ¬ IsMarker c) (rest : List OsalS8) : ¬ HexPrefixed (text ++ c :: rest) := by
  rintro ⟨x, tail, spelling, marker⟩
  cases text with
  | nil => exact nonempty (spelled.nil_iff.mpr rfl)
  | cons first text =>
    obtain ⟨second, after, follows, other⟩ := second_not_marker spelled plain rest
    simp only [List.cons_append, follows, List.cons.injEq] at spelling
    exact other (spelling.2.1 ▸ marker)

/-- What reading a stretch of text and reporting its end amounts to: the value,
the end, and no read beyond the character after it. -/
def Reads (run : Run (UInt64 × Option (Cursor OsalS8))) (endp : Option (Cursor OsalS8))
    (number : Nat) (last : Cursor OsalS8) : Prop :=
  ∃ reads, run = ⟨reads, .ok (UInt64.ofNat number, endp.map fun _ => last)⟩ ∧
    ∀ read ∈ reads, read ≤ last.offset

private theorem reads_of_stages (base digitBase : OsalU32) (opening text : List OsalS8)
    (endp : Option (Cursor OsalS8))
    (chosen : chooseBase base ⟨offset, opening ++ (text ++ c :: rest)⟩ =
      ⟨guessed, .ok digitBase⟩)
    (skipped : skipHexPrefix digitBase ⟨offset, opening ++ (text ++ c :: rest)⟩ =
      ⟨looked, .ok ⟨offset + opening.length, text ++ c :: rest⟩⟩)
    (spelled : Spells digitBase.toNat text digits) (ends : isDigitOf digitBase.toNat c = false)
    (near : ∀ read ∈ guessed ++ looked, read ≤ offset + opening.length + text.length) :
    Reads (oalSimpleStrtoull ⟨offset, opening ++ (text ++ c :: rest)⟩ endp base) endp
      (value digitBase.toNat digits)
      ⟨offset + opening.length + text.length, c :: rest⟩ := by
  refine ⟨_, strtoull_stages base digitBase opening text endp chosen skipped spelled ends, ?_⟩
  intro read member
  rcases List.mem_append.mp member with member | member
  · exact near read member
  · obtain ⟨step, below, rfl⟩ := List.mem_range'.mp member
    simp only
    omega

private theorem prefixed_end (offset : Nat) (x : OsalS8) (text : List OsalS8) :
    offset + (chr '0' :: x :: text).length = offset + [chr '0', x].length + text.length := by
  simp
  omega

/-- Every numeral of every base argument is read to its end and no further
than the character after it; its value is computed modulo 2^64. -/
theorem strtoull_numeral (numeral : Numeral base text digitBase number)
    (ends : isDigitOf digitBase c = false) (plain : ¬ IsMarker c)
    (endp : Option (Cursor OsalS8)) (offset : Nat) (rest : List OsalS8) :
    Reads (oalSimpleStrtoull ⟨offset, text ++ c :: rest⟩ endp base.toUInt32) endp number
      ⟨offset + text.length, c :: rest⟩ := by
  cases numeral with
  | octal octal =>
    obtain ⟨digits, spelled, -, rfl⟩ := octal
    exact reads_of_stages 8 8 [] text endp rfl (prefix_other_base (by decide) _) spelled ends
      (by simp)
  | decimal decimal =>
    obtain ⟨digits, spelled, -, rfl⟩ := decimal
    exact reads_of_stages 10 10 [] text endp rfl (prefix_other_base (by decide) _) spelled ends
      (by simp)
  | hex hex =>
    obtain ⟨digits, spelled, nonempty, rfl⟩ := hex
    obtain ⟨looked, skipped, near⟩ :=
      prefix_absent spelled ends (digits_not_prefixed spelled nonempty plain rest) offset
    exact reads_of_stages 16 16 [] text endp rfl skipped spelled ends (by simpa using near)
  | @prefixedHex x text number marker hex =>
    obtain ⟨digits, spelled, -, rfl⟩ := hex
    rw [prefixed_end]
    exact reads_of_stages 16 16 [chr '0', x] text endp rfl
      (prefix_skipped marker offset (text ++ c :: rest)) spelled ends (by simp; omega)
  | @guessedHex x text number marker hex =>
    obtain ⟨digits, spelled, nonempty, rfl⟩ := hex
    cases spelled with
    | nil => exact absurd rfl nonempty
    | @cons first digit text digits head tail =>
      have guessed : chooseBase 0 ⟨offset, [chr '0', x] ++ (first :: text ++ c :: rest)⟩ = _ :=
        guess_hex marker (isDigitOf_of_value head.1 head.2) offset (text ++ c :: rest)
      rw [prefixed_end]
      exact reads_of_stages 0 16 [chr '0', x] (first :: text) endp guessed
        (prefix_skipped marker offset _) (.cons head tail) ends (by simp; omega)
  | guessedOctal zero octal =>
    obtain ⟨digits, spelled, -, rfl⟩ := octal
    cases text with
    | nil => simp at zero
    | cons first text =>
      obtain rfl : first = chr '0' := by simpa using zero
      obtain ⟨second, tail, follows, other⟩ := second_not_marker spelled plain rest
      have guessed : chooseBase 0 ⟨offset, chr '0' :: (text ++ c :: rest)⟩ =
          ⟨[offset, offset + 1], .ok 8⟩ := by
        rw [follows]
        exact guess_octal other offset tail
      exact reads_of_stages 0 8 [] (chr '0' :: text) endp guessed
        (prefix_other_base (by decide) _) spelled ends (by simp)
  | guessedDecimal nonzero decimal =>
    obtain ⟨digits, spelled, nonempty, rfl⟩ := decimal
    cases text with
    | nil => exact absurd (spelled.nil_iff.mpr rfl) nonempty
    | cons first text =>
      have other : first ≠ chr '0' := by simpa using nonzero
      have guessed : chooseBase 0 ⟨offset, first :: (text ++ c :: rest)⟩ = ⟨[offset], .ok 10⟩ :=
        guess_decimal other offset (text ++ c :: rest)
      exact reads_of_stages 0 10 [] (first :: text) endp guessed
        (prefix_other_base (by decide) _) spelled ends (by simp)

/-! ## `oal_strtol` -/

/-- Spaces and one sign are passed over before the digits are looked at. -/
theorem strtol_opened (spaces : Nat) (negative : Bool)
    (unsigned : negative = false → c ≠ chr ' ' ∧ c ≠ chr '-') (rest : List OsalS8)
    (endp : Option (Cursor OsalS8)) (base : Int32) :
    oalStrtol ⟨0, List.replicate spaces (chr ' ') ++ sign negative ++ c :: rest⟩ endp base =
      (oalSimpleStrtoull ⟨spaces + (sign negative).length, c :: rest⟩ endp base.toUInt32 >>=
        fun parsed => pure (toSlong (if negative then -parsed.1 else parsed.1), parsed.2)).after
          (List.range' 0 (spaces + 1) ++ [spaces]) := by
  have spaced : ∀ c ∈ List.replicate spaces (chr ' '), (c == chr ' ') = true := by
    intro c member
    simpa using (List.mem_replicate.mp member).2
  cases negative with
  | true =>
    have skipped := skipWhile_append (· == chr ' ') _ spaced
      (beq_eq_false_iff_ne.mpr space_ne_minus.symm) 0 (c :: rest)
    simp [oalStrtol, sign, skipped]
  | false =>
    obtain ⟨noSpace, noSign⟩ := unsigned rfl
    have skipped := skipWhile_append (· == chr ' ') _ spaced
      (show (c == chr ' ') = false by simpa using noSpace) 0 rest
    simp [oalStrtol, sign, skipped, noSign]

theorem toSlong_signed (negative : Bool) (number : Nat) :
    (toSlong (if negative then -UInt64.ofNat number else UInt64.ofNat number)).toInt =
      (signed negative number).bmod (2 ^ 32) := by
  cases negative <;> simp [toSlong, signed, Int32.size]

/-- Spaces, sign and numeral are read to the numeral's end; the value is the
signed number modulo 2^32. -/
theorem strtol_numeral (spaces : Nat) (negative : Bool)
    (numeral : Numeral base text digitBase number) (ends : isDigitOf digitBase c = false)
    (plain : ¬ IsMarker c) (endp : Option (Cursor OsalS8)) (rest : List OsalS8) :
    ∃ reads value,
      oalStrtol ⟨0, List.replicate spaces (chr ' ') ++ sign negative ++ text ++ c :: rest⟩
          endp base =
        ⟨reads, .ok (value, endp.map fun _ =>
          ⟨spaces + (sign negative).length + text.length, c :: rest⟩)⟩ ∧
      value.toInt = (signed negative number).bmod (2 ^ 32) ∧
      ∀ read ∈ reads, read ≤ spaces + (sign negative).length + text.length := by
  obtain ⟨first, tail, rfl, digit⟩ := numeral.head
  obtain ⟨reads, parsed, near⟩ := strtoull_numeral numeral ends plain endp
    (spaces + (sign negative).length) rest
  have opened := strtol_opened spaces negative (fun _ => digit_unsigned digit)
    (tail ++ c :: rest) endp base
  rw [← List.cons_append, ← List.append_assoc, parsed, Run.ok_bind,
    Run.pure_def, Run.after_mk, Run.after_mk] at opened
  refine ⟨_, _, opened, toSlong_signed negative number, ?_⟩
  intro read member
  simp only [List.append_nil, List.mem_append, List.mem_singleton] at member
  rcases member with (member | rfl) | member
  · obtain ⟨step, below, rfl⟩ := List.mem_range'.mp member
    omega
  · omega
  · exact near read member

/-- In base 10 any text is read: the number is that of the digits right behind
spaces and sign, and what lies behind the text does not matter. -/
theorem strtol_decimal (spaces : Nat) (opened : Opened negative body) :
    ∃ digits result, Spells 10 (body.takeWhile (isDigitOf 10)) digits ∧
      result.toInt = (signed negative (value 10 digits)).bmod (2 ^ 32) ∧
      ∀ c, isDigitOf 10 c = false → c ≠ chr ' ' ∧ c ≠ chr '-' → ∀ rest,
        (oalStrtol ⟨0, List.replicate spaces (chr ' ') ++ sign negative ++ (body ++ c :: rest)⟩
          none 10).result = .ok (result, none) := by
  obtain ⟨digits, spelled⟩ := exists_spelled (body.takeWhile (isDigitOf 10))
    fun c member => List.mem_takeWhile_imp member
  refine ⟨digits, _, spelled, toSlong_signed negative _, ?_⟩
  intro c other plain rest
  obtain ⟨first, tail, cons, unsigned⟩ := opened.follows plain rest
  obtain ⟨after, others, split, ends⟩ := takeWhile_ends other body rest
  have parsed : oalSimpleStrtoull ⟨spaces + (sign negative).length,
      [] ++ (body.takeWhile (isDigitOf 10) ++ after :: others)⟩ none 10 = _ :=
    strtoull_stages 10 10 [] (body.takeWhile (isDigitOf 10)) none rfl
      (prefix_other_base (by decide) _) spelled ends
  rw [List.nil_append, ← split, cons] at parsed
  have ran := strtol_opened spaces negative unsigned tail none 10
  rw [cons, ran, show (10 : Int32).toUInt32 = 10 from rfl, parsed]
  rfl

theorem render_numeral {base : Nat} (known : base = 8 ∨ base = 10 ∨ base = 16) (n : Nat) :
    Numeral (Int32.ofNat base) ((Nat.toDigits base n).map chr) base n := by
  rcases known with rfl | rfl | rfl
  · exact .octal (toDigits_plain (by omega) (by omega) n)
  · exact .decimal (toDigits_plain (by omega) (by omega) n)
  · exact .hex (toDigits_plain (by omega) (by omega) n)

private theorem signed_magnitude (n : Int32) :
    (signed (decide (n.toInt < 0)) n.toInt.natAbs).bmod (2 ^ 32) = n.toInt := by
  rw [signed_natAbs]
  have wrapped : (Int32.ofInt n.toInt).toInt = n.toInt.bmod (2 ^ 32) := Int32.toInt_ofInt
  rw [← wrapped, Int32.ofInt_toInt]

/-- The character behind a numeral ends it: it is no digit of the numeral's
base, and no `x` that a leading 0 could take for a prefix. -/
def Ends (digitBase : Nat) (following : List OsalS8) : Prop :=
  ∀ c ∈ following.head?, isDigitOf digitBase c = false ∧ ¬ IsMarker c

/-- Every numeral of every base argument, behind any spaces and an optional
sign, is computed modulo 2^32 into the signed range; the end pointer is left on
the text behind it and no character further on is read. Every 32-bit integer
is recovered from its octal, decimal and hexadecimal rendering. -/
theorem strtol_computes_every_numeral :
    (∀ (base : Int32) (spaces : Nat) (negative : Bool) (text : List OsalS8)
        (digitBase number : Nat) (following beyond : List OsalS8)
        (ppcEndptr : Option (Cursor OsalS8)),
      Numeral base text digitBase number → Ends digitBase following →
      let front := List.replicate spaces (chr ' ') ++ sign negative ++ text
      let after := following ++ 0 :: beyond
      ∃ reads value,
        oalStrtol ⟨0, front ++ after⟩ ppcEndptr base =
          ⟨reads, .ok (value, ppcEndptr.map fun _ => ⟨front.length, after⟩)⟩ ∧
        value.toInt = (signed negative number).bmod (2 ^ 32) ∧
        ∀ read ∈ reads, read ≤ front.length) ∧
    (∀ (n : Int32) (base : Nat), base = 8 ∨ base = 10 ∨ base = 16 →
      ∀ (beyond : List OsalS8) (ppcEndptr : Option (Cursor OsalS8)),
        ∃ reads, oalStrtol ⟨0, render base n.toInt ++ 0 :: beyond⟩ ppcEndptr (Int32.ofNat base) =
          ⟨reads, .ok (n, ppcEndptr.map fun _ => ⟨(render base n.toInt).length, 0 :: beyond⟩)⟩) := by
  constructor
  · intro base spaces negative text digitBase number following beyond ppcEndptr numeral ends
    dsimp only
    have frontLength : (List.replicate spaces (chr ' ') ++ sign negative ++ text).length =
        spaces + (sign negative).length + text.length := by simp [Nat.add_assoc]
    rw [frontLength]
    cases following with
    | nil =>
      exact strtol_numeral spaces negative numeral
        (not_isDigitOf_punctuation _ (.inr (.inr (.inr (.inl rfl))))) (by decide) ppcEndptr beyond
    | cons c following =>
      obtain ⟨other, plain⟩ := ends c (by simp)
      exact strtol_numeral spaces negative numeral other plain ppcEndptr (following ++ 0 :: beyond)
  · intro n base known beyond ppcEndptr
    obtain ⟨reads, value, ran, exact, -⟩ := strtol_numeral 0 (decide (n.toInt < 0))
      (render_numeral known n.toInt.natAbs)
      (not_isDigitOf_punctuation _ (.inr (.inr (.inr (.inl rfl)))))
      (show ¬ IsMarker 0 by decide) ppcEndptr beyond
    rw [signed_magnitude, Int32.toInt_inj] at exact
    subst value
    refine ⟨reads, ?_⟩
    simpa [render] using ran

/-- `"-0x80000000;"` with the base left to the spelling: the numeral behind the
sign is 2^31, and the extreme negative value comes out. -/
theorem strtol_computes_every_numeral_extreme :
    ∃ reads value,
      oalStrtol ⟨0, [45, 48, 120, 56, 48, 48, 48, 48, 48, 48, 48, 59, 0]⟩ (some ⟨0, []⟩) 0 =
        ⟨reads, .ok (value, some ⟨11, [59, 0]⟩)⟩ ∧
      value.toInt = (signed true (2 ^ 31)).bmod (2 ^ 32) ∧ ∀ read ∈ reads, read ≤ 11 :=
  strtol_computes_every_numeral.1 0 0 true [48, 120, 56, 48, 48, 48, 48, 48, 48, 48] 16 (2 ^ 31)
    [59] [] (some ⟨0, []⟩)
    (.guessedHex (.inl rfl) ⟨[8, 0, 0, 0, 0, 0, 0, 0],
      by simp [Spells, digitValue], by decide, by decide⟩)
    (by
      intro c member
      obtain rfl : 59 = c := Option.some.inj member
      decide)

end Ws63Rf.StrtolProofs
