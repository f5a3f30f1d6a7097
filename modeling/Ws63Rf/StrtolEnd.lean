import Ws63Rf.StrtolProofs

/-! Where `oal_strtol` leaves the end pointer on any string whatever, measured
against the longest prefix that is a signed numeral. -/
namespace Ws63Rf.StrtolEnd
open Scan OalUtil Positional Numerals StrtolProofs

/-- The text is a numeral of the base argument. -/
def IsNumeral (base : Int32) (text : List OsalS8) : Prop :=
  ∃ digitBase number, Numeral base text digitBase number

/-- A hexadecimal prefix with a digit behind it. -/
def HexOpening (text : List OsalS8) : Prop :=
  ∃ x first rest, text = chr '0' :: x :: first :: rest ∧ IsMarker x ∧ isDigitOf 16 first = true

/-- A hexadecimal prefix without a digit behind it. -/
def BareHexPrefix (text : List OsalS8) : Prop := HexPrefixed text ∧ ¬ HexOpening text

/-! ## Numerals at the front of a text -/

private theorem isNumeral_plain {base : Int32} {digitBase : Nat}
    (cases : ∀ text, IsNumeral base text ↔ ∃ number, Plain digitBase text number)
    (text : List OsalS8) :
    IsNumeral base text ↔ text ≠ [] ∧ ∀ c ∈ text, isDigitOf digitBase c = true :=
  (cases text).trans exists_plain_iff

private theorem isNumeral_octal (text : List OsalS8) :
    IsNumeral 8 text ↔ text ≠ [] ∧ ∀ c ∈ text, isDigitOf 8 c = true := by
  refine isNumeral_plain (fun text => ⟨?_, ?_⟩) text
  · rintro ⟨_, number, numeral⟩
    cases numeral with
    | octal plain => exact ⟨number, plain⟩
  · rintro ⟨number, plain⟩
    exact ⟨8, number, .octal plain⟩

private theorem isNumeral_decimal (text : List OsalS8) :
    IsNumeral 10 text ↔ text ≠ [] ∧ ∀ c ∈ text, isDigitOf 10 c = true := by
  refine isNumeral_plain (fun text => ⟨?_, ?_⟩) text
  · rintro ⟨_, number, numeral⟩
    cases numeral with
    | decimal plain => exact ⟨number, plain⟩
  · rintro ⟨number, plain⟩
    exact ⟨10, number, .decimal plain⟩

/-- A prefixed numeral at the front of a text gives the text a hexadecimal
opening. -/
private theorem hexOpening_of_numeral {x : OsalS8} (marker : IsMarker x)
    (plain : Plain 16 digits number) (front : chr '0' :: x :: digits <+: text) :
    HexOpening text := by
  obtain ⟨first, rest, rfl, digit⟩ := plain.head
  obtain ⟨tail, rfl⟩ := front
  exact ⟨x, first, rest ++ tail, rfl, marker, digit⟩

/-- Without a hexadecimal opening, explicit base 16 has only plain numerals. -/
private theorem isNumeral_hex (closed : ¬ HexOpening text) (front : word <+: text) :
    IsNumeral 16 word ↔ word ≠ [] ∧ ∀ c ∈ word, isDigitOf 16 c = true := by
  rw [← exists_plain_iff]
  constructor
  · rintro ⟨_, number, numeral⟩
    cases numeral with
    | hex plain => exact ⟨number, plain⟩
    | prefixedHex marker plain => exact absurd (hexOpening_of_numeral marker plain front) closed
  · rintro ⟨number, plain⟩
    exact ⟨16, number, .hex plain⟩

private theorem prefix_head (nonempty : word ≠ []) (front : word <+: text) :
    word.head? = text.head? := by
  obtain ⟨rest, rfl⟩ := front
  rw [List.head?_append_of_ne_nil _ nonempty]

/-- Without a hexadecimal opening, base 0 reads octal behind a leading 0 and
decimal elsewhere. -/
private theorem isNumeral_guessed (closed : ¬ HexOpening text) (front : word <+: text) :
    IsNumeral 0 word ↔ word ≠ [] ∧
      ∀ c ∈ word, isDigitOf (if text.head? = some (chr '0') then 8 else 10) c = true := by
  rw [← exists_plain_iff]
  constructor
  · rintro ⟨_, number, numeral⟩
    cases numeral with
    | guessedHex marker plain => exact absurd (hexOpening_of_numeral marker plain front) closed
    | guessedOctal zero plain =>
      obtain ⟨first, rest, rfl, -⟩ := plain.head
      rw [prefix_head (by simp) front] at zero
      exact ⟨number, by rwa [if_pos zero]⟩
    | guessedDecimal nonzero plain =>
      obtain ⟨first, rest, rfl, -⟩ := plain.head
      rw [prefix_head (by simp) front] at nonzero
      exact ⟨number, by rwa [if_neg nonzero]⟩
  · rintro ⟨number, plain⟩
    obtain ⟨first, rest, rfl, -⟩ := plain.head
    have heads : (first :: rest).head? = text.head? := prefix_head (by simp) front
    by_cases zero : text.head? = some (chr '0')
    · rw [if_pos zero] at plain
      exact ⟨8, number, .guessedOctal (heads.trans zero) plain⟩
    · rw [if_neg zero] at plain
      exact ⟨10, number, .guessedDecimal (heads ▸ zero) plain⟩

/-- Plain digits cannot pass the `x` of a prefix. -/
private theorem plain_before_marker {base : Nat} {x : OsalS8} (marker : IsMarker x)
    (plain : Plain base word number) (front : word <+: chr '0' :: x :: rest) :
    word.length ≤ 1 := by
  have digits := (exists_plain_iff.mp ⟨number, plain⟩).2
  have bounded := length_le_takeWhile front digits
  have stopped : isDigitOf base x = false :=
    not_isDigitOf_punctuation base (.inr (.inr (.inr (.inr marker))))
  rw [List.takeWhile_cons] at bounded
  split at bounded
  · simpa [List.takeWhile_cons, stopped] using bounded
  · simp at bounded
    simp [bounded]

/-- Behind a hexadecimal opening the longest numeral is the prefix and every
hex digit that follows. -/
private theorem longest_hex {base : Int32} (either : base = 0 ∨ base = 16) {x first : OsalS8}
    (marker : IsMarker x) (digit : isDigitOf 16 first = true) (rest : List OsalS8) :
    LongestPrefix (IsNumeral base) (chr '0' :: x :: first :: rest)
      (2 + ((first :: rest).takeWhile (isDigitOf 16)).length) := by
  have front : (first :: rest).takeWhile (isDigitOf 16) <+: first :: rest :=
    List.takeWhile_prefix _
  constructor
  · have digits : ∀ c ∈ (first :: rest).takeWhile (isDigitOf 16), isDigitOf 16 c = true :=
      fun c member => List.mem_takeWhile_imp member
    obtain ⟨number, plain⟩ := exists_plain_iff.mpr ⟨by simp [digit], digits⟩
    refine ⟨chr '0' :: x :: (first :: rest).takeWhile (isDigitOf 16), ?_, ?_, ?_⟩
    · obtain ⟨tail, split⟩ := front
      exact ⟨tail, by simp only [List.cons_append, split]⟩
    · rcases either with rfl | rfl
      · exact ⟨16, number, .guessedHex marker plain⟩
      · exact ⟨16, number, .prefixedHex marker plain⟩
    · simp only [List.length_cons]
      omega
  · rintro n ⟨word, within, ⟨digitBase, number, numeral⟩, rfl⟩
    have prefixed : ∀ second digits, Plain 16 digits number →
        chr '0' :: second :: digits <+: chr '0' :: x :: first :: rest →
        digits.length ≤ ((first :: rest).takeWhile (isDigitOf 16)).length := by
      intro second digits plain within
      have inner := (List.cons_prefix_cons.mp (List.cons_prefix_cons.mp within).2).2
      exact length_le_takeWhile inner (exists_plain_iff.mp ⟨number, plain⟩).2
    cases numeral with
    | prefixedHex _ plain | guessedHex _ plain =>
      have bound := prefixed _ _ plain within
      simp only [List.length_cons]
      omega
    | octal plain | decimal plain | hex plain | guessedOctal _ plain | guessedDecimal _ plain =>
      have bound := plain_before_marker marker plain within
      omega

/-! ## The end `oal_simple_strtoull` reports -/

/-- The run returns, with the end pointer this far behind the offset. -/
def EndsAt (run : Run (UInt64 × Option (Cursor OsalS8))) (endp : Option (Cursor OsalS8))
    (last : Nat) : Prop :=
  ∃ reads number rest, run = ⟨reads, .ok (number, endp.map fun _ => ⟨last, rest⟩)⟩

/-- The end reported is that of the longest numeral, or no character is taken
where there is none. -/
def Exact (base : Int32) (text : List OsalS8) (n : Nat) : Prop :=
  LongestPrefix (IsNumeral base) text n ∨ (¬ HasPrefix (IsNumeral base) text ∧ n = 0)

/-- Where numerals are plain runs of one base's digits, reading such a run is
exact. -/
private theorem exact_plain {base : Int32} {digitBase : Nat} {text : List OsalS8}
    (runs : ∀ word, word <+: text →
      (IsNumeral base word ↔ word ≠ [] ∧ ∀ c ∈ word, isDigitOf digitBase c = true)) :
    Exact base text (text.takeWhile (isDigitOf digitBase)).length := by
  by_cases empty : text.takeWhile (isDigitOf digitBase) = []
  · refine .inr ⟨?_, by simp [empty]⟩
    rintro ⟨word, front, inside⟩
    obtain ⟨nonempty, digits⟩ := (runs word front).mp inside
    have bounded := length_le_takeWhile front digits
    rw [empty] at bounded
    exact nonempty (List.length_eq_zero_iff.mp (Nat.le_zero.mp bounded))
  · exact .inl (longestPrefix_takeWhile runs empty)

/-- The digit run at the front of a terminated text, as the staged parser
needs it. -/
private theorem split_digits (digitBase : Nat) (text beyond : List OsalS8) :
    ∃ digits c rest, text ++ 0 :: beyond = text.takeWhile (isDigitOf digitBase) ++ c :: rest ∧
      Spells digitBase (text.takeWhile (isDigitOf digitBase)) digits ∧
      isDigitOf digitBase c = false := by
  have nul : isDigitOf digitBase 0 = false :=
    not_isDigitOf_punctuation digitBase (.inr (.inr (.inr (.inl rfl))))
  obtain ⟨c, rest, split, ends⟩ := takeWhile_ends nul text beyond
  obtain ⟨digits, spelled⟩ := exists_spelled
    (text.takeWhile (isDigitOf digitBase)) fun c member => List.mem_takeWhile_imp member
  exact ⟨digits, c, rest, split, spelled, ends⟩

/-- Without a hexadecimal opening the guess is octal behind a leading 0 and
decimal elsewhere, however the text goes on. -/
private theorem guess_closed (closed : ¬ HexOpening text) (offset : Nat) (beyond : List OsalS8) :
    ∃ reads, simpleGuessBase ⟨offset, text ++ 0 :: beyond⟩ =
      ⟨reads, .ok (if text.head? = some (chr '0') then 8 else 10)⟩ := by
  cases text with
  | nil => exact ⟨_, guess_decimal (by decide) offset beyond⟩
  | cons first text =>
    by_cases zero : first = chr '0'
    · subst first
      rw [if_pos (by rfl)]
      cases text with
      | nil => exact ⟨_, guess_octal (by decide) offset beyond⟩
      | cons second text =>
        by_cases marker : IsMarker second
        · cases text with
          | nil => exact ⟨_, guess_bare_prefix marker (by decide) offset beyond⟩
          | cons third text =>
            have other : isDigitOf 16 third = false := by
              apply Bool.eq_false_iff.mpr
              intro digit
              exact closed ⟨second, third, text, rfl, marker, digit⟩
            exact ⟨_, guess_bare_prefix marker other offset (text ++ 0 :: beyond)⟩
        · exact ⟨_, guess_octal marker offset (text ++ 0 :: beyond)⟩
    · rw [if_neg (by simpa using zero)]
      exact ⟨_, guess_decimal zero offset (text ++ 0 :: beyond)⟩

private theorem endsAt_plain {base digitBase : OsalU32} (text beyond : List OsalS8) (offset : Nat)
    (endp : Option (Cursor OsalS8))
    (chosen : ∃ guessed, chooseBase base ⟨offset, text ++ 0 :: beyond⟩ = ⟨guessed, .ok digitBase⟩)
    (skipped : ∃ looked, skipHexPrefix digitBase ⟨offset, text ++ 0 :: beyond⟩ =
      ⟨looked, .ok ⟨offset, text ++ 0 :: beyond⟩⟩) :
    EndsAt (oalSimpleStrtoull ⟨offset, text ++ 0 :: beyond⟩ endp base) endp
      (offset + (text.takeWhile (isDigitOf digitBase.toNat)).length) := by
  obtain ⟨digits, c, rest, split, spelled, ends⟩ := split_digits digitBase.toNat text beyond
  obtain ⟨guessed, chosen⟩ := chosen
  obtain ⟨looked, skipped⟩ := skipped
  rw [split] at chosen skipped ⊢
  have ran := strtoull_stages base digitBase [] _ endp chosen skipped spelled ends
  exact ⟨_, _, _, ran⟩

private theorem endsAt_hex {base : OsalU32} (either : base = 0 ∨ base = 16) {x first : OsalS8}
    (marker : IsMarker x) (digit : isDigitOf 16 first = true) (text beyond : List OsalS8)
    (offset : Nat) (endp : Option (Cursor OsalS8)) :
    EndsAt (oalSimpleStrtoull ⟨offset, chr '0' :: x :: first :: text ++ 0 :: beyond⟩ endp base)
      endp (offset + (2 + ((first :: text).takeWhile (isDigitOf 16)).length)) := by
  obtain ⟨digits, c, rest, split, spelled, ends⟩ := split_digits 16 (first :: text) beyond
  obtain ⟨guessed, chosen⟩ : ∃ guessed, chooseBase base
      ⟨offset, [chr '0', x] ++ (first :: text ++ 0 :: beyond)⟩ = ⟨guessed, .ok 16⟩ := by
    rcases either with rfl | rfl
    · exact ⟨_, guess_hex marker digit offset (text ++ 0 :: beyond)⟩
    · exact ⟨[], rfl⟩
  have skipped := prefix_skipped marker offset (first :: text ++ 0 :: beyond)
  have ran := strtoull_stages base 16 [chr '0', x] ((first :: text).takeWhile (isDigitOf 16)) endp
    (split ▸ chosen) (split ▸ skipped) spelled ends
  rw [← split] at ran
  rw [← Nat.add_assoc]
  exact ⟨_, _, _, ran⟩

/-- A terminator never completes a prefix. -/
private theorem hexPrefixed_terminated (opens : HexPrefixed (text ++ 0 :: beyond)) :
    HexPrefixed text := by
  obtain ⟨x, rest, spelling, marker⟩ := opens
  match text with
  | [] => exact absurd (List.cons.inj spelling).1 (by decide)
  | [first] =>
    have nul := (List.cons.inj (List.cons.inj spelling).2).1
    subst x
    exact absurd marker (by decide)
  | first :: second :: text =>
    simp only [List.cons_append, List.cons.injEq] at spelling
    obtain ⟨rfl, rfl, -⟩ := spelling
    exact ⟨_, text, rfl, marker⟩

/-- On any terminated text and any base argument the reported end is exact,
except that explicit base 16 passes over a prefix that no digit follows. -/
theorem strtoull_exact {base : Int32} (known : base = 0 ∨ base = 8 ∨ base = 10 ∨ base = 16)
    (text beyond : List OsalS8) (bare : ¬ (base = 16 ∧ BareHexPrefix text)) (offset : Nat)
    (endp : Option (Cursor OsalS8)) :
    ∃ n, EndsAt (oalSimpleStrtoull ⟨offset, text ++ 0 :: beyond⟩ endp base.toUInt32) endp
      (offset + n) ∧ Exact base text n := by
  by_cases hexadecimal : (base = 0 ∨ base = 16) ∧ HexOpening text
  · obtain ⟨either, x, first, rest, rfl, marker, digit⟩ := hexadecimal
    have either32 : base.toUInt32 = 0 ∨ base.toUInt32 = 16 := by
      rcases either with rfl | rfl <;> decide
    exact ⟨_, endsAt_hex either32 marker digit rest beyond offset endp,
      .inl (longest_hex either marker digit rest)⟩
  · rcases known with rfl | rfl | rfl | rfl
    · have closed : ¬ HexOpening text := fun opens => hexadecimal ⟨.inl rfl, opens⟩
      obtain ⟨reads, guessed⟩ := guess_closed closed offset beyond
      refine ⟨_, endsAt_plain text beyond offset endp ⟨reads, guessed⟩ ⟨[], ?_⟩, ?_⟩
      · exact prefix_other_base (by split <;> decide) _
      · have bases : UInt32.toNat (if text.head? = some (chr '0') then 8 else 10) =
            if text.head? = some (chr '0') then 8 else 10 := by split <;> rfl
        rw [bases]
        exact exact_plain fun word front => isNumeral_guessed closed front
    · exact ⟨_, endsAt_plain text beyond offset endp ⟨[], rfl⟩ ⟨[], prefix_other_base (by decide) _⟩,
        exact_plain fun word _ => isNumeral_octal word⟩
    · exact ⟨_, endsAt_plain text beyond offset endp ⟨[], rfl⟩ ⟨[], prefix_other_base (by decide) _⟩,
        exact_plain fun word _ => isNumeral_decimal word⟩
    · have closed : ¬ HexOpening text := fun opens => hexadecimal ⟨.inr rfl, opens⟩
      have plain : ¬ HexPrefixed (text ++ 0 :: beyond) := by
        intro opens
        have inside := hexPrefixed_terminated opens
        exact bare ⟨rfl, inside, closed⟩
      obtain ⟨digits, c, rest, split, spelled, ends⟩ := split_digits 16 text beyond
      obtain ⟨looked, skipped, -⟩ := prefix_absent spelled ends (split ▸ plain) offset
      rw [← split] at skipped
      exact ⟨_, endsAt_plain text beyond offset endp ⟨[], rfl⟩ ⟨looked, skipped⟩,
        exact_plain fun word front => isNumeral_hex closed front⟩

/-! ## The end `oal_strtol` reports -/

/-- How many characters the leading spaces and one `-` behind them take. -/
def openingLength (text : List OsalS8) : Nat :=
  let spaces := (text.takeWhile (· == chr ' ')).length
  if (text.drop spaces).head? = some (chr '-') then spaces + 1 else spaces

private theorem openingLength_opened (spaces : Nat) (opened : Opened negative body) :
    openingLength (List.replicate spaces (chr ' ') ++ sign negative ++ body) =
      spaces + (sign negative).length := by
  have taken : (List.replicate spaces (chr ' ') ++ sign negative ++ body).takeWhile
      (· == chr ' ') = List.replicate spaces (chr ' ') := by
    rw [List.append_assoc, List.takeWhile_append_of_pos (by simp)]
    cases negative with
    | true => simp [sign, space_ne_minus.symm]
    | false =>
      have noSpace := (opened rfl).1
      cases body with
      | nil => simp [sign]
      | cons c body => simpa [sign] using noSpace
  rw [openingLength, taken, List.length_replicate, List.append_assoc,
    List.drop_left' List.length_replicate]
  cases negative with
  | true => simp [sign]
  | false => simp [sign, (opened rfl).2]

/-- What is longest or missing among the numerals of the body is so among the
signed numerals of the whole text. -/
private theorem exact_opened {base : Int32} (spaces : Nat) (opened : Opened negative body)
    (exact : Exact base body n) :
    let text := List.replicate spaces (chr ' ') ++ sign negative ++ body
    let last := spaces + (sign negative).length + n
    LongestPrefix (SignedNumeral base) text last ∨
      (¬ HasPrefix (SignedNumeral base) text ∧ last = openingLength text) := by
  dsimp only
  have aligned : ∀ word, word <+: List.replicate spaces (chr ' ') ++ sign negative ++ body →
      SignedNumeral base word → ∃ digits, digits <+: body ∧ IsNumeral base digits ∧
        word.length = spaces + (sign negative).length + digits.length := by
    rintro word front ⟨k, minus, digits, digitBase, number, numeral, rfl⟩
    obtain ⟨first, rest, rfl, digit⟩ := numeral.head
    obtain ⟨rfl, rfl, inner⟩ := opened.aligned digit front
    exact ⟨first :: rest, inner, ⟨digitBase, number, numeral⟩, by simp [Nat.add_assoc]⟩
  rcases exact with ⟨⟨digits, front, ⟨digitBase, number, numeral⟩, rfl⟩, longest⟩ | ⟨missing, rfl⟩
  · refine .inl ⟨⟨List.replicate spaces (chr ' ') ++ sign negative ++ digits, ?_, ?_, ?_⟩, ?_⟩
    · exact (List.prefix_append_right_inj _).mpr front
    · exact ⟨spaces, negative, digits, digitBase, number, numeral, rfl⟩
    · simp [Nat.add_assoc]
    · rintro m ⟨word, within, inside, rfl⟩
      obtain ⟨other, inner, isNumeral, length⟩ := aligned word within inside
      have bound := longest ⟨other, inner, isNumeral, rfl⟩
      omega
  · refine .inr ⟨?_, by rw [openingLength_opened spaces opened]; rfl⟩
    rintro ⟨word, within, inside⟩
    obtain ⟨other, inner, isNumeral, -⟩ := aligned word within inside
    exact missing ⟨other, inner, isNumeral⟩

/-- C's contract for the end pointer: just past the longest signed numeral, or
back at the start where the text has none. -/
def EndAsC (base : Int32) (text : List OsalS8) (last : Nat) : Prop :=
  LongestPrefix (SignedNumeral base) text last ∨
    (¬ HasPrefix (SignedNumeral base) text ∧ last = 0)

/-- Where a string has a signed numeral at its front, the end pointer is left
just past the longest one. Where it has none the pointer is left behind the
spaces and the sign, not at the start. Nothing is said of explicit base 16 on a
prefix that no hex digit follows. -/
theorem strtol_end_is_longest_numeral (s : CString) (beyond : List OsalS8) (base : Int32)
    (known : base = 0 ∨ base = 8 ∨ base = 10 ∨ base = 16)
    (bare : ¬ (base = 16 ∧ BareHexPrefix (s.chars.drop (openingLength s.chars))))
    (content : Cursor OsalS8) :
    ∃ reads value last rest,
      oalStrtol ⟨0, s.memory beyond⟩ (some content) base = ⟨reads, .ok (value, some ⟨last, rest⟩)⟩ ∧
      (LongestPrefix (SignedNumeral base) s.chars last ∨
        (¬ HasPrefix (SignedNumeral base) s.chars ∧ last = openingLength s.chars)) := by
  obtain ⟨spaces, negative, body, split, opened⟩ := exists_opened s.chars
  have closed : ¬ (base = 16 ∧ BareHexPrefix body) := by
    rw [split, openingLength_opened spaces opened, List.drop_left' (by simp)] at bare
    exact bare
  obtain ⟨n, ⟨reads, number, rest, parsed⟩, exact⟩ := strtoull_exact known body beyond closed
    (spaces + (sign negative).length) (some content)
  have nul : (0 : OsalS8) ≠ chr ' ' ∧ (0 : OsalS8) ≠ chr '-' := by decide
  obtain ⟨c, tail, cons, unsigned⟩ := opened.follows nul beyond
  have ran := strtol_opened spaces negative unsigned tail (some content) base
  rw [← cons, parsed, Run.ok_bind, Run.pure_def, Run.after_mk, Run.after_mk,
    ← List.append_assoc, ← split] at ran
  exact ⟨_, _, _, _, ran, split ▸ exact_opened spaces opened exact⟩

private theorem signedNumeral_has_digit (inside : SignedNumeral base word) :
    ∃ c ∈ word, isDigitOf 16 c = true := by
  obtain ⟨spaces, negative, digits, digitBase, number, numeral, rfl⟩ := inside
  obtain ⟨first, rest, rfl, digit⟩ := numeral.head
  obtain ⟨value, found, -⟩ := isDigitOf_iff.mp digit
  exact ⟨first, by simp, isDigitOf_of_value found (digitValue_lt found)⟩

/-- On `" x"` no numeral is found, yet the end pointer moves behind the space:
the start is not reported back. -/
theorem strtol_end_moves_without_numeral :
    ¬ ∀ (s : CString) (beyond : List OsalS8) (base : Int32),
      base = 0 ∨ base = 8 ∨ base = 10 ∨ base = 16 → ∀ content : Cursor OsalS8,
        ∃ reads value last rest,
          oalStrtol ⟨0, s.memory beyond⟩ (some content) base =
            ⟨reads, .ok (value, some ⟨last, rest⟩)⟩ ∧ EndAsC base s.chars last := by
  intro asC
  let s : CString := ⟨[chr ' ', chr 'x'], by decide⟩
  obtain ⟨reads, value, last, rest, ran, ending⟩ := asC s [] 10 (by decide) ⟨0, []⟩
  have code : oalStrtol ⟨0, s.memory []⟩ (some ⟨0, []⟩) 10 =
      ⟨[0, 1, 1, 1], .ok (0, some ⟨1, [chr 'x', 0]⟩)⟩ := by decide
  have missing : ¬ HasPrefix (SignedNumeral 10) s.chars := by
    rintro ⟨word, front, inside⟩
    obtain ⟨c, member, digit⟩ := signedNumeral_has_digit inside
    have inside : c = chr ' ' ∨ c = chr 'x' := by simpa [s] using front.subset member
    have none : isDigitOf 16 c = false := by
      rcases inside with rfl | rfl <;> decide
    rw [none] at digit
    cases digit
  have one : last = 1 := by
    rw [code] at ran
    injection ran with _ result
    injection result with pair
    injection pair with _ cursor
    injection cursor with cursor
    injection cursor with offset
    exact offset.symm
  rcases ending with ⟨⟨word, front, inside, -⟩, -⟩ | ⟨-, zero⟩
  · exact missing ⟨word, front, inside⟩
  · omega

/-- `"-12 kg"` in base 10 meets the conditions: its longest signed numeral is
`-12`. -/
theorem strtol_end_is_longest_numeral_decimal : ∃ reads value last rest,
    oalStrtol ⟨0, [45, 49, 50, 32, 107, 103, 0]⟩ (some ⟨0, []⟩) 10 =
      ⟨reads, .ok (value, some ⟨last, rest⟩)⟩ ∧
    (LongestPrefix (SignedNumeral 10) [45, 49, 50, 32, 107, 103] last ∨
      (¬ HasPrefix (SignedNumeral 10) [45, 49, 50, 32, 107, 103] ∧
        last = openingLength [45, 49, 50, 32, 107, 103])) :=
  strtol_end_is_longest_numeral ⟨[45, 49, 50, 32, 107, 103], by decide⟩ [] 10 (by decide)
    (fun bare => absurd bare.1 (by decide)) ⟨0, []⟩

end Ws63Rf.StrtolEnd
