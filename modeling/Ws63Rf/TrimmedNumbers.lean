import Ws63Rf.StrimProofs
import Ws63Rf.AtoiProofs

/-! Numbers in strings that are trimmed before they are read. `oal_strim` ends
the string at a space, where every numeral has ended anyway, so `oal_strtol`
does not see the difference. `oal_atoi` reads on behind a space and may. -/
namespace Ws63Rf.TrimmedNumbers
open Scan OalUtil Positional Numerals StrtolProofs StrimProofs AtoiProofs

/-! ## What ends every numeral -/

/-- No digit of any base, and no part of a prefix. -/
def EndsNumeral (c : OsalS8) : Prop := digitValue c = none ∧ ¬ IsMarker c

theorem EndsNumeral.noDigit (ends : EndsNumeral c) (base : Nat) : isDigitOf base c = false := by
  simp [isDigitOf, ends.1]

theorem EndsNumeral.nonzero (ends : EndsNumeral c) : c ≠ chr '0' := by
  rintro rfl
  exact absurd ends.1 (by decide)

theorem space_endsNumeral : EndsNumeral (chr ' ') := ⟨by decide, by decide⟩

theorem nul_endsNumeral : EndsNumeral 0 := ⟨by decide, by decide⟩

/-! ## `oal_simple_strtoull` -/

/-- The base guessed for a text does not depend on what ends it. -/
theorem guess_ended (text : List OsalS8) (offset : Nat) : ∃ reads base, ∀ c rest, EndsNumeral c →
    simpleGuessBase ⟨offset, text ++ c :: rest⟩ = ⟨reads, .ok base⟩ := by
  match text with
  | [] => exact ⟨_, _, fun c rest ends => guess_decimal ends.nonzero offset rest⟩
  | [first] =>
    by_cases zero : first = chr '0'
    · subst first
      exact ⟨_, _, fun c rest ends => guess_octal ends.2 offset rest⟩
    · exact ⟨_, _, fun c rest _ => guess_decimal zero offset (c :: rest)⟩
  | first :: second :: text =>
    by_cases zero : first = chr '0'
    · subst first
      by_cases marker : IsMarker second
      · match text with
        | [] => exact ⟨_, _, fun c rest ends => guess_bare_prefix marker (ends.noDigit 16) offset rest⟩
        | third :: text =>
          cases digit : isDigitOf 16 third with
          | true => exact ⟨_, _, fun c rest _ => guess_hex marker digit offset (text ++ c :: rest)⟩
          | false =>
            exact ⟨_, _, fun c rest _ => guess_bare_prefix marker digit offset (text ++ c :: rest)⟩
      · exact ⟨_, _, fun c rest _ => guess_octal marker offset (text ++ c :: rest)⟩
    · exact ⟨_, _, fun c rest _ => guess_decimal zero offset (second :: text ++ c :: rest)⟩

theorem choose_ended (base : OsalU32) (text : List OsalS8) (offset : Nat) : ∃ reads digitBase,
    ∀ c rest, EndsNumeral c → chooseBase base ⟨offset, text ++ c :: rest⟩ = ⟨reads, .ok digitBase⟩ := by
  by_cases guessing : base = 0
  · obtain ⟨reads, digitBase, guessed⟩ := guess_ended text offset
    exact ⟨reads, digitBase, fun c rest ends => by rw [chooseBase, if_pos guessing, guessed c rest ends]⟩
  · exact ⟨[], base, fun c rest _ => if_neg guessing⟩

/-- A prefix is skipped inside the text or not at all. -/
theorem prefix_ended (base : OsalU32) (text : List OsalS8) (offset : Nat) : ∃ reads n,
    n ≤ text.length ∧ ∀ c rest, EndsNumeral c → skipHexPrefix base ⟨offset, text ++ c :: rest⟩ =
      ⟨reads, .ok ⟨offset + n, text.drop n ++ c :: rest⟩⟩ := by
  by_cases sixteen : base = 16
  · subst sixteen
    match text with
    | [] =>
      exact ⟨[offset], 0, Nat.le_refl 0, fun c rest ends => by simp [skipHexPrefix, ends.nonzero]⟩
    | [first] =>
      by_cases zero : first = chr '0'
      · exact ⟨[offset, offset + 1], 0, Nat.zero_le _, fun c rest ends => by
          simp [skipHexPrefix, zero, mt (oalTolower_eq_x c).mp ends.2]⟩
      · exact ⟨[offset], 0, Nat.zero_le _, fun c rest _ => by simp [skipHexPrefix, zero]⟩
    | first :: second :: text =>
      by_cases zero : first = chr '0'
      · subst first
        by_cases marker : IsMarker second
        · exact ⟨_, 2, by simp, fun c rest _ => prefix_skipped marker offset (text ++ c :: rest)⟩
        · exact ⟨[offset, offset + 1], 0, Nat.zero_le _, fun c rest _ => by
            simp [skipHexPrefix, mt (oalTolower_eq_x second).mp marker]⟩
      · exact ⟨[offset], 0, Nat.zero_le _, fun c rest _ => by simp [skipHexPrefix, zero]⟩
  · exact ⟨[], 0, Nat.zero_le _, fun c rest _ => prefix_other_base sixteen _⟩

theorem turn_ended (ends : EndsNumeral c) (base : OsalU32) (result : UInt64) :
    strtoullTurn base result c = .stop result := by
  simp [strtoullTurn, oalIsxdigit_eq, ends.1]

/-- The value of a text and the end that is reported do not depend on what ends
it, whatever the base. -/
theorem strtoull_ended (base : OsalU32) (text : List OsalS8) (offset : Nat)
    (endp : Option (Cursor OsalS8)) : ∃ reads value n, n ≤ text.length ∧ ∀ c rest, EndsNumeral c →
      oalSimpleStrtoull ⟨offset, text ++ c :: rest⟩ endp base =
        ⟨reads, .ok (value, endp.map fun _ => ⟨offset + n, text.drop n ++ c :: rest⟩)⟩ := by
  obtain ⟨guessed, digitBase, chosen⟩ := choose_ended base text offset
  obtain ⟨looked, opening, inText, skipped⟩ := prefix_ended digitBase text offset
  obtain ⟨scanned, value, digits, inRest, walked⟩ :=
    walk_stopped (strtoullTurn digitBase) (text.drop opening) 0 (offset + opening)
  refine ⟨guessed ++ (looked ++ scanned), value, opening + digits, ?_, fun c rest ends => ?_⟩
  · rw [List.length_drop] at inRest
    omega
  · rw [oalSimpleStrtoull, chosen c rest ends, Run.ok_bind, skipped c rest ends, Run.ok_bind,
      walked c rest (turn_ended ends digitBase)]
    simp [Nat.add_assoc]

/-! ## `oal_strtol` -/

/-- A text that no space opens. -/
theorem strtol_ended (base : Int32) (text : List OsalS8) (noSpace : text.head? ≠ some (chr ' '))
    (offset : Nat) (endp : Option (Cursor OsalS8)) : ∃ reads value n, n ≤ text.length ∧
      ∀ c rest, EndsNumeral c → (text = [] → c = 0) → oalStrtol ⟨offset, text ++ c :: rest⟩ endp base =
        ⟨reads, .ok (value, endp.map fun _ => ⟨offset + n, text.drop n ++ c :: rest⟩)⟩ := by
  have started : ∀ c rest, c ≠ chr ' ' →
      skipWhile (· == chr ' ') ⟨offset, c :: rest⟩ = ⟨[offset], .ok ⟨offset, c :: rest⟩⟩ :=
    fun c rest other => skipWhile_append (· == chr ' ') [] (by simp) (by simpa using other) offset rest
  cases text with
  | nil =>
    obtain ⟨reads, value, n, inside, parsed⟩ := strtoull_ended base.toUInt32 [] offset endp
    refine ⟨offset :: offset :: reads, toSlong value, n, inside, fun c rest ends nul => ?_⟩
    obtain rfl := nul rfl
    have ran := parsed 0 rest ends
    rw [List.nil_append] at ran ⊢
    simp [oalStrtol, started 0 rest (by decide), ran, show (0 : OsalS8) ≠ chr '-' by decide]
  | cons first text =>
    have other : first ≠ chr ' ' := by simpa using noSpace
    by_cases minus : first = chr '-'
    · subst first
      obtain ⟨reads, value, n, inside, parsed⟩ := strtoull_ended base.toUInt32 text (offset + 1) endp
      refine ⟨offset :: offset :: reads, toSlong (-value), n + 1, Nat.succ_le_succ inside,
        fun c rest ends _ => ?_⟩
      have ran := parsed c rest ends
      simp [oalStrtol, started (chr '-') _ other, ran, Nat.add_assoc, Nat.add_comm 1 n]
    · obtain ⟨reads, value, n, inside, parsed⟩ := strtoull_ended base.toUInt32 (first :: text) offset endp
      refine ⟨offset :: offset :: reads, toSlong value, n, inside, fun c rest ends _ => ?_⟩
      have ran := parsed c rest ends
      rw [List.cons_append] at ran ⊢
      simp [oalStrtol, started first _ other, minus, ran]

/-- Leading spaces only move the rest. -/
theorem strtol_leading (leading : List OsalS8) (spaces : ∀ c ∈ leading, isSpace c = true)
    (other : isSpace c = false) (offset : Nat) (rest : List OsalS8) (endp : Option (Cursor OsalS8))
    (base : Int32) : oalStrtol ⟨offset, leading ++ c :: rest⟩ endp base =
      (oalStrtol ⟨offset + leading.length, c :: rest⟩ endp base).after
        (List.range' offset leading.length) := by
  have whole := skipWhile_append isSpace leading spaces other offset rest
  have here := skipWhile_append isSpace [] (by simp) other (offset + leading.length) rest
  rw [List.nil_append, List.length_nil, Nat.add_zero] at here
  change (skipWhile isSpace ⟨offset, leading ++ c :: rest⟩ >>= _) =
    (skipWhile isSpace ⟨offset + leading.length, c :: rest⟩ >>= _).after _
  rw [whole, here, Run.ok_bind, Run.ok_bind, Run.after_after, List.range'_1_concat]
  rfl

/-! ## Trimmed strings -/

/-- Only spaces have no first word. -/
theorem blank_of_firstWord {text : List OsalS8} (empty : firstWord text = []) :
    text.dropWhile isSpace = [] := by
  have head := List.head?_dropWhile_not isSpace text
  rw [firstWord] at empty
  cases body : text.dropWhile isSpace with
  | nil => rfl
  | cons c rest =>
    rw [body] at head empty
    have other : isSpace c = false := head
    simp [other] at empty

/-- Behind the leading spaces stands the first word, and behind that what ends
every numeral, the NUL where there is no word. -/
theorem memory_split (s : CString) (beyond : List OsalS8) : ∃ c rest,
    s.chars.dropWhile isSpace ++ 0 :: beyond = firstWord s.chars ++ c :: rest ∧ EndsNumeral c ∧
      (firstWord s.chars = [] → c = 0) := by
  have noNul : (0 : OsalS8) ∉ s.chars.dropWhile isSpace := fun member =>
    s.noNul ((List.dropWhile_suffix _).mem member)
  let inWord : OsalS8 → Bool := fun c => c != chr ' ' && c != 0
  obtain ⟨c, rest, split, stopped⟩ :=
    takeWhile_ends (show inWord 0 = false by decide) (s.chars.dropWhile isSpace) beyond
  rw [takeWhile_inWord noNul] at split
  have either : c = chr ' ' ∨ c = 0 := by simpa [inWord, or_iff_not_imp_left] using stopped
  refine ⟨c, rest, split, ?_, fun empty => ?_⟩
  · rcases either with rfl | rfl
    · exact space_endsNumeral
    · exact nul_endsNumeral
  · rw [blank_of_firstWord empty] at split
    exact (List.cons.inj split).1.symm

theorem strim_behind (s : CString) (beyond : List OsalS8) : ∃ behind,
    (oalStrim ⟨0, s.memory beyond⟩).result =
      .ok ⟨(s.chars.takeWhile isSpace).length, firstWord s.chars ++ 0 :: behind⟩ := by
  obtain ⟨first, behind, held⟩ := strim_holds s beyond 0
  have result := strim_result s beyond 0
  rw [held] at result
  have place : first = 0 + (s.chars.takeWhile isSpace).length :=
    congrArg Cursor.offset (Except.ok.inj result)
  exact ⟨behind, by rw [held, place, Nat.zero_add]⟩

/-- `oal_strtol` returns the same number for a string and for what `oal_strim`
makes of it, and the same end: no other word is ever part of a numeral. -/
theorem trimming_keeps_strtol (s : CString) (beyond : List OsalS8) (endp : Option (Cursor OsalS8))
    (base : Int32) : ∃ returned value last held held',
    (oalStrim ⟨0, s.memory beyond⟩).result = .ok returned ∧
    (oalStrtol ⟨0, s.memory beyond⟩ endp base).result = .ok (value, endp.map fun _ => ⟨last, held⟩) ∧
    (oalStrtol returned endp base).result = .ok (value, endp.map fun _ => ⟨last, held'⟩) := by
  obtain ⟨behind, trimmed⟩ := strim_behind s beyond
  obtain ⟨c, rest, split, ends, nul⟩ := memory_split s beyond
  have noSpace : (firstWord s.chars).head? ≠ some (chr ' ') := by
    intro first
    have inWord := firstWord_noSpace (List.mem_of_head? first)
    exact absurd inWord (by decide)
  obtain ⟨reads, value, n, -, parsed⟩ :=
    strtol_ended base (firstWord s.chars) noSpace (s.chars.takeWhile isSpace).length endp
  have spaces : ∀ c ∈ s.chars.takeWhile isSpace, isSpace c = true :=
    fun c member => List.mem_takeWhile_imp member
  have memory : s.memory beyond = s.chars.takeWhile isSpace ++ (firstWord s.chars ++ c :: rest) := by
    rw [← split, ← List.append_assoc, List.takeWhile_append_dropWhile]
    rfl
  refine ⟨_, value, (s.chars.takeWhile isSpace).length + n, (firstWord s.chars).drop n ++ c :: rest,
    (firstWord s.chars).drop n ++ 0 :: behind, trimmed, ?_, ?_⟩
  · obtain ⟨d, tail, cons, other⟩ : ∃ d tail, firstWord s.chars ++ c :: rest = d :: tail ∧
        isSpace d = false := by
      cases word : firstWord s.chars with
      | nil => exact ⟨c, rest, rfl, nul word ▸ rfl⟩
      | cons d word' => exact ⟨d, word' ++ c :: rest, rfl, firstWord_noSpace (word ▸ List.mem_cons_self)⟩
    rw [memory, cons, strtol_leading _ spaces other, ← cons, Nat.zero_add, parsed c rest ends nul]
    rfl
  · rw [parsed 0 behind nul_endsNumeral fun _ => rfl]

/-! ## `oal_atoi` -/

/-- What `oal_atoi` goes past behind the first word. -/
def later (text : List OsalS8) : List OsalS8 :=
  (scanned (text.dropWhile isSpace)).drop (scanned (firstWord text)).length

theorem scanned_split (text : List OsalS8) :
    scanned text = text.takeWhile isSpace ++ (scanned (firstWord text) ++ later text) := by
  have spaces : ∀ c ∈ text.takeWhile isSpace, isScanned c = true := by
    intro c member
    have space : isSpace c = true := List.mem_takeWhile_imp member
    rw [isScanned, show (c == chr ' ') = true from space, Bool.or_true]
  have front : scanned (firstWord text) <+: scanned (text.dropWhile isSpace) := by
    obtain ⟨tail, split⟩ := firstWord_front text
    rw [← split, scanned, scanned, List.takeWhile_append]
    split
    · exact (List.takeWhile_prefix _).trans (List.prefix_append _ _)
    · exact List.prefix_rfl
  have whole : scanned text = text.takeWhile isSpace ++ scanned (text.dropWhile isSpace) := by
    rw [scanned, scanned, ← List.takeWhile_append_of_pos spaces, List.takeWhile_append_dropWhile]
  rw [whole, later, List.prefix_iff_eq_append.mp front]

theorem decimals_scanned (text : List OsalS8) : decimals (scanned text) =
    decimals (scanned (firstWord text)) ++ decimals (later text) := by
  have blank : decimals (text.takeWhile isSpace) = [] := by
    rw [decimals_eq_nil]
    intro c member
    obtain rfl : c = chr ' ' := by simpa [isSpace] using List.mem_takeWhile_imp member
    decide
  rw [scanned_split, decimals_append, decimals_append, blank, List.nil_append]

theorem minus_scanned_iff (text : List OsalS8) : chr '-' ∈ scanned text ↔
    chr '-' ∈ scanned (firstWord text) ∨ chr '-' ∈ later text := by
  have noSign : chr '-' ∉ text.takeWhile isSpace := fun member =>
    absurd (List.mem_takeWhile_imp member) (by decide)
  rw [scanned_split, List.mem_append, List.mem_append, or_iff_right noSign]

/-- The first word overflows already, or all digits are zero, or only spaces
follow it, and signs where it has one. -/
def KeepsAtoi (text : List OsalS8) : Prop :=
  2 ^ 31 ≤ value 10 (decimals (scanned (firstWord text))) ∨
    value 10 (decimals (scanned text)) = 0 ∨
    decimals (later text) = [] ∧ (chr '-' ∈ later text → chr '-' ∈ scanned (firstWord text))

/-- What `oal_atoi` comes to for a text that ends somewhere. -/
theorem atoi_terminated (text beyond : List OsalS8) (offset : Nat) :
    (oalAtoi ⟨offset, text ++ 0 :: beyond⟩).result =
      if value 10 (decimals (scanned text)) < 2 ^ 31 then
        .ok (signed (decide (chr '-' ∈ scanned text)) (value 10 (decimals (scanned text))))
      else .error .signedOverflow := by
  obtain ⟨c, rest, split, ends⟩ := takeWhile_ends (show isScanned 0 = false by decide) text beyond
  rw [split]
  exact atoi_result _ (fun c member => List.mem_takeWhile_imp member) ends offset rest

/-- Trimming leaves the result of `oal_atoi` as it is exactly where nothing
counts behind the first word. -/
theorem trimming_keeps_atoi_iff (s : CString) (beyond : List OsalS8) : ∃ returned,
    (oalStrim ⟨0, s.memory beyond⟩).result = .ok returned ∧
      ((oalAtoi returned).result = (oalAtoi ⟨0, s.memory beyond⟩).result ↔ KeepsAtoi s.chars) := by
  obtain ⟨behind, trimmed⟩ := strim_behind s beyond
  refine ⟨_, trimmed, ?_⟩
  have signs := minus_scanned_iff s.chars
  have grows := value_le_append 10 (by omega) (decimals (scanned (firstWord s.chars)))
    (decimals (later s.chars))
  have newSign : (chr '-' ∈ scanned s.chars → chr '-' ∈ scanned (firstWord s.chars)) ↔
      (chr '-' ∈ later s.chars → chr '-' ∈ scanned (firstWord s.chars)) := by
    rw [signs, or_imp, and_iff_right id]
  have agree := numbers_agree_iff (decimals (scanned (firstWord s.chars))) (decimals (later s.chars))
    (decide (chr '-' ∈ scanned s.chars)) (decide (chr '-' ∈ scanned (firstWord s.chars))) (by
      simp only [decide_eq_true_eq, signs]
      exact Or.inl)
  rw [decide_eq_true_eq, decide_eq_true_eq, newSign] at agree
  rw [CString.memory, atoi_terminated, atoi_terminated, KeepsAtoi, decimals_scanned s.chars]
  by_cases small : value 10 (decimals (scanned (firstWord s.chars))) < 2 ^ 31
  · rw [if_pos small, or_iff_right (Nat.not_le_of_lt small)]
    by_cases fits : value 10 (decimals (scanned (firstWord s.chars)) ++ decimals (later s.chars)) < 2 ^ 31
    · rw [if_pos fits, Except.ok.injEq, eq_comm, agree]
    · rw [if_neg fits]
      refine iff_of_false (fun same => by cases same) ?_
      rintro (zero | ⟨none, -⟩)
      · omega
      · rw [none, List.append_nil] at fits
        exact fits small
  · -- the number of all digits is no smaller
    rw [if_neg small, if_neg (by omega)]
    exact iff_of_true rfl (.inl (Nat.le_of_not_lt small))

end Ws63Rf.TrimmedNumbers
