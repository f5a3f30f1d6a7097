import Ws63Rf.StrtolProofs

/-! `oal_atoi` reads one front part of a string, whatever the order of its
digits, signs and spaces. What it computes from that part is stated here once;
its range and its agreement with `oal_strtol` both follow. -/
namespace Ws63Rf.AtoiProofs
open Scan OalUtil Positional Numerals StrtolProofs

/-- The characters the loop of `oal_atoi` goes past. -/
def isScanned (c : OsalS8) : Bool := isDigitOf 10 c || c == chr '-' || c == chr ' '

/-- The front part of a string that `oal_atoi` takes into account. -/
def scanned (text : List OsalS8) : List OsalS8 := text.takeWhile isScanned

/-- The decimal digits among these characters, in order. -/
def decimals (text : List OsalS8) : List Nat :=
  text.filterMap fun c => (digitValue c).filter (· < 10)

@[simp] theorem decimals_append (front back : List OsalS8) :
    decimals (front ++ back) = decimals front ++ decimals back := List.filterMap_append

private theorem decimals_digit {c : OsalS8} (found : digitValue c = some digit) (small : digit < 10)
    (text : List OsalS8) : decimals (c :: text) = digit :: decimals text := by
  rw [decimals, List.filterMap_cons_some (b := digit) (by simp [found, small])]
  rfl

private theorem decimals_other {c : OsalS8} (other : isDigitOf 10 c = false)
    (text : List OsalS8) : decimals (c :: text) = decimals text := by
  have dropped : (digitValue c).filter (· < 10) = none := by
    cases found : digitValue c with
    | none => rfl
    | some digit => simpa [isDigitOf, found] using other
  exact List.filterMap_cons_none (f := fun c => (digitValue c).filter (· < 10)) dropped

/-- Characters without a digit among them contribute none, and conversely. -/
theorem decimals_eq_nil {text : List OsalS8} :
    decimals text = [] ↔ ∀ c ∈ text, isDigitOf 10 c = false := by
  induction text with
  | nil => simp [decimals]
  | cons c text ih =>
    cases digit : isDigitOf 10 c with
    | true =>
      obtain ⟨value, found, small⟩ := isDigitOf_iff.mp digit
      simp [decimals_digit found small, digit]
    | false => simp [decimals_other digit, ih, digit]

theorem decimals_spelled (spelled : Spells 10 text digits) : decimals text = digits := by
  induction spelled with
  | nil => rfl
  | cons first rest ih => rw [decimals_digit first.1 first.2, ih]

/-- Reading on: one more digit in front scales what was read before it. -/
private theorem value_decimals_digit {c : OsalS8} (found : digitValue c = some digit)
    (small : digit < 10) (read : Nat) (text : List OsalS8) :
    read * 10 ^ (decimals (c :: text)).length + value 10 (decimals (c :: text)) =
      (read * 10 + digit) * 10 ^ (decimals text).length + value 10 (decimals text) := by
  rw [decimals_digit found small, value_cons, List.length_cons]
  ring

private theorem not_isScanned (other : isScanned c = false) :
    isDigitOf 10 c = false ∧ c ≠ chr ' ' ∧ c ≠ chr '-' := by
  simp only [isScanned, Bool.or_eq_false_iff, beq_eq_false_iff_ne] at other
  exact ⟨other.1.1, other.2, other.1.2⟩

/-! ## One turn -/

private theorem digit_range {c : OsalS8} (found : digitValue c = some digit) (small : digit < 10) :
    (chr '0' ≤ c ∧ c ≤ chr '9') ∧ c.toInt - (chr '0').toInt = digit := by
  have agrees : ∀ c, (digitValue c).all (fun (digit : Nat) => 10 ≤ digit ∨
      (chr '0' ≤ c ∧ c ≤ chr '9') ∧ c.toInt - (chr '0').toInt = (digit : Int)) = true :=
    every_char (by decide)
  have here := agrees c
  rw [found, Option.all_some, decide_eq_true_eq] at here
  exact here.resolve_left (Nat.not_le_of_lt small)

private theorem checked_ok_bind {β γ : Type} (value : β) (next : β → Except Fault γ) :
    (Except.ok value >>= next) = next value := rfl

private theorem checked_fits {value : Nat} (fits : value < 2 ^ 31) :
    checkedS32 (value : Int) = .ok (value : Int) := by
  rw [checkedS32, if_pos (by omega)]

private theorem checked_large {value : Nat} (large : ¬ value < 2 ^ 31) :
    checkedS32 (value : Int) = .error .signedOverflow := by
  rw [checkedS32, if_neg (by omega)]

/-- A digit extends the accumulator exactly where the new value still fits. -/
private theorem scan_digit {c : OsalS8} (found : digitValue c = some digit) (small : digit < 10)
    (ret : Nat) (flag : Int) :
    atoiTurn (ret, flag) c =
      if ret * 10 + digit < 2 ^ 31 then .ok (.next ((ret * 10 + digit : Nat), flag))
      else .error .signedOverflow := by
  obtain ⟨range, offset⟩ := digit_range found small
  have shifted : (10 * ret : Int) = ((10 * ret : Nat) : Int) := by omega
  have extended : ((10 * ret : Nat) : Int) + digit = ((ret * 10 + digit : Nat) : Int) := by omega
  simp only [atoiTurn, if_pos range, offset, shifted]
  by_cases first : 10 * ret < 2 ^ 31
  · rw [checked_fits first, checked_ok_bind, extended]
    by_cases second : ret * 10 + digit < 2 ^ 31
    · rw [checked_fits second, if_pos second]
      rfl
    · rw [checked_large second, if_neg second]
      rfl
  · rw [checked_large first, if_neg (by omega)]
    rfl

private theorem scan_minus (state : Int × Int) :
    atoiTurn state (chr '-') = .ok (.next (state.1, 1)) := by
  have noDigit : ¬ (chr '0' ≤ chr '-' ∧ chr '-' ≤ chr '9') := by decide
  simp only [atoiTurn, if_neg noDigit]
  rfl

private theorem scan_space (state : Int × Int) :
    atoiTurn state (chr ' ') = .ok (.next state) := by
  have noDigit : ¬ (chr '0' ≤ chr ' ' ∧ chr ' ' ≤ chr '9') := by decide
  simp only [atoiTurn, if_neg noDigit, if_neg space_ne_minus]
  rfl

private theorem scan_other {c : OsalS8} (other : isScanned c = false) (state : Int × Int) :
    atoiTurn state c = .ok (.stop state) := by
  obtain ⟨noDigit, noSpace, noMinus⟩ := not_isScanned other
  have outside : ¬ (chr '0' ≤ c ∧ c ≤ chr '9') := by
    rw [← oalIsdigit_eq] at noDigit
    simpa [oalIsdigit] using noDigit
  simp only [atoiTurn, if_neg outside, if_neg noMinus, if_neg noSpace]
  rfl

/-- The three kinds of characters the loop goes past. -/
private theorem isScanned_cases (going : isScanned c = true) :
    (∃ digit, digitValue c = some digit ∧ digit < 10) ∨ c = chr '-' ∨ c = chr ' ' := by
  simp only [isScanned, Bool.or_eq_true, beq_iff_eq] at going
  rcases going with (digit | minus) | space
  · exact .inl (isDigitOf_iff.mp digit)
  · exact .inr (.inl minus)
  · exact .inr (.inr space)

/-! ## The whole loop -/

/-- The flag is set by the first `-` and never taken back. -/
private def flagAfter (flag : Int) (text : List OsalS8) : Int := if chr '-' ∈ text then 1 else flag

private theorem flagAfter_cons_other (other : c ≠ chr '-') (flag : Int) (text : List OsalS8) :
    flagAfter flag (c :: text) = flagAfter flag text := by
  simp [flagAfter, other.symm]

/-- While the number read so far fits, the loop takes every scanned character. -/
private theorem scanned_taken (text : List OsalS8) (going : ∀ c ∈ text, isScanned c = true)
    (ret : Nat) (flag : Int)
    (fits : ret * 10 ^ (decimals text).length + value 10 (decimals text) < 2 ^ 31) :
    Takes (fun _ => true) atoiTurn (ret, flag) text
      ((ret * 10 ^ (decimals text).length + value 10 (decimals text) : Nat),
        flagAfter flag text) := by
  induction text generalizing ret flag with
  | nil => simp [Takes, decimals, flagAfter]
  | cons c text ih =>
    have rest : ∀ c ∈ text, isScanned c = true := fun c member =>
      going c (List.mem_cons_of_mem _ member)
    rcases isScanned_cases (going c (by simp)) with ⟨digit, found, small⟩ | rfl | rfl
    · have power : 0 < 10 ^ (decimals text).length := Nat.pow_pos (by omega)
      rw [value_decimals_digit found small] at fits ⊢
      have next : ret * 10 + digit < 2 ^ 31 := by
        calc ret * 10 + digit ≤ (ret * 10 + digit) * 10 ^ (decimals text).length :=
              Nat.le_mul_of_pos_right _ power
          _ < 2 ^ 31 := by omega
      have noMinus : c ≠ chr '-' := (digit_unsigned (isDigitOf_of_value found small)).2
      refine ⟨rfl, ((ret * 10 + digit : Nat), flag), ?_, ?_⟩
      · rw [scan_digit found small, if_pos next]
      · rw [flagAfter_cons_other noMinus]
        exact ih rest _ flag fits
    · have noDigit : isDigitOf 10 (chr '-') = false := by decide
      rw [decimals_other noDigit] at fits ⊢
      refine ⟨rfl, _, scan_minus _, ?_⟩
      have set : flagAfter flag (chr '-' :: text) = flagAfter 1 text := by simp [flagAfter]
      rw [set]
      exact ih rest ret 1 fits
    · have noDigit : isDigitOf 10 (chr ' ') = false := by decide
      rw [decimals_other noDigit] at fits ⊢
      refine ⟨rfl, _, scan_space _, ?_⟩
      rw [flagAfter_cons_other space_ne_minus]
      exact ih rest ret flag fits

/-- Once the number no longer fits, the loop has overflowed on the way. -/
private theorem scanned_overflows (text : List OsalS8) (going : ∀ c ∈ text, isScanned c = true)
    (ret : Nat) (flag : Int) (start : ret < 2 ^ 31)
    (large : ¬ ret * 10 ^ (decimals text).length + value 10 (decimals text) < 2 ^ 31)
    (offset : Nat) (beyond : List OsalS8) :
    (walk (fun _ => true) atoiTurn ((ret : Int), flag) offset (text ++ beyond)).result =
      .error .signedOverflow := by
  induction text generalizing ret flag offset with
  | nil => exact absurd start (by simpa [decimals] using large)
  | cons c text ih =>
    have rest : ∀ c ∈ text, isScanned c = true := fun c member =>
      going c (List.mem_cons_of_mem _ member)
    rw [List.cons_append]
    rcases isScanned_cases (going c (by simp)) with ⟨digit, found, small⟩ | rfl | rfl
    · rw [value_decimals_digit found small] at large
      by_cases next : ret * 10 + digit < 2 ^ 31
      · have step := (scan_digit found small ret flag).trans (if_pos next)
        rw [walk_next rfl step, Run.result_after]
        exact ih rest _ flag next large _
      · have step := (scan_digit found small ret flag).trans (if_neg next)
        rw [walk_fault rfl step]
    · rw [decimals_other (by decide)] at large
      rw [walk_next rfl (scan_minus _), Run.result_after]
      exact ih rest ret 1 start large _
    · rw [decimals_other (by decide)] at large
      rw [walk_next rfl (scan_space _), Run.result_after]
      exact ih rest ret flag start large _

/-- `oal_atoi` computes the number all scanned digits write together, negated
by a `-` anywhere among them, and overflows exactly where that number does not
fit before its negation. -/
theorem atoi_result (front : List OsalS8) (going : ∀ c ∈ front, isScanned c = true)
    (ends : isScanned c = false) (offset : Nat) (rest : List OsalS8) :
    (oalAtoi ⟨offset, front ++ c :: rest⟩).result =
      if value 10 (decimals front) < 2 ^ 31 then
        .ok (signed (decide (chr '-' ∈ front)) (value 10 (decimals front)))
      else .error .signedOverflow := by
  by_cases fits : value 10 (decimals front) < 2 ^ 31
  · have taken := scanned_taken front going 0 0 (by simpa using fits)
    simp only [Nat.zero_mul, Nat.zero_add, Nat.cast_zero] at taken
    rw [if_pos fits, oalAtoi, walk_takes front taken, walk_stop rfl (scan_other ends _)]
    by_cases minus : chr '-' ∈ front
    · have negated : checkedS32 (-(value 10 (decimals front) : Int)) =
          .ok (-(value 10 (decimals front) : Int)) := by
        rw [checkedS32, if_pos (by omega)]
      simp [flagAfter, minus, signed, negated]
    · simp [flagAfter, minus, signed]
  · have overflows := scanned_overflows front going 0 0 (by omega) (by simpa using fits) offset
      (c :: rest)
    rw [if_neg fits, oalAtoi]
    rw [Nat.cast_zero] at overflows
    generalize walk (fun _ => true) atoiTurn (0, 0) offset (front ++ c :: rest) = run at overflows
    obtain ⟨reads, result⟩ := run
    cases overflows
    rfl

/-! ## The range of `oal_atoi` -/

private theorem digits_scanned (spelled : Spells 10 text digits) :
    ∀ c ∈ text, isScanned c = true := by
  intro c member
  simp [isScanned, spelled.isDigitOf c member]

private theorem minus_not_digit (spelled : Spells 10 text digits) : chr '-' ∉ text := by
  intro member
  exact (digit_unsigned (spelled.isDigitOf _ member)).2 rfl

/-- What `oal_atoi` sees in the rendering of an integer. -/
private theorem render_scanned (n : Int) :
    (∀ c ∈ render 10 n, isScanned c = true) ∧ value 10 (decimals (render 10 n)) = n.natAbs ∧
      (chr '-' ∈ render 10 n ↔ n < 0) := by
  obtain ⟨digits, spelled, -, written⟩ := toDigits_plain (by omega : 1 < 10) (by omega) n.natAbs
  have scannedDigits := digits_scanned spelled
  have noMinus := minus_not_digit spelled
  unfold render
  by_cases negative : n < 0
  · have shown : sign (decide (n < 0)) = [chr '-'] := by simp [sign, negative]
    have noDigit : decimals [chr '-'] = [] := by decide
    rw [shown, decimals_append, noDigit, decimals_spelled spelled]
    refine ⟨?_, written, by simp [negative]⟩
    intro c member
    rcases List.mem_append.mp member with member | member
    · rw [List.mem_singleton.mp member]
      decide
    · exact scannedDigits c member
  · have hidden : sign (decide (n < 0)) = [] := by simp [sign, negative]
    rw [hidden, List.nil_append, decimals_spelled spelled]
    exact ⟨scannedDigits, written, by simp [negative, noMinus]⟩

/-- `oal_atoi` returns the integer it is given the rendering of, without an
overflow on the way, for every integer but the minimum: that one is built up as
a magnitude of 2^31 before its negation. -/
theorem atoi_reads_all_but_the_minimum (n : Int32) (beyond : List OsalS8) :
    (oalAtoi ⟨0, render 10 n.toInt ++ 0 :: beyond⟩).result = .ok n.toInt ↔ n ≠ Int32.minValue := by
  obtain ⟨going, magnitude, minus⟩ := render_scanned n.toInt
  rw [atoi_result _ going (by decide), magnitude]
  have lower : -2 ^ 31 ≤ n.toInt := n.le_toInt
  have upper : n.toInt < 2 ^ 31 := n.toInt_lt
  have minimum : n = Int32.minValue ↔ n.toInt = -2 ^ 31 := by
    rw [← Int32.toInt_inj]
    rfl
  by_cases small : n.toInt.natAbs < 2 ^ 31
  · rw [if_pos small, decide_eq_decide.mpr minus, signed_natAbs, ne_eq, minimum]
    constructor
    · intro _ extreme
      omega
    · intro _
      rfl
  · rw [if_neg small, ne_eq, minimum]
    constructor
    · intro impossible
      cases impossible
    · intro proper
      omega

/-- On `"-2147483648"`, the rendering of the minimum, the last digit takes the
accumulator out of its type. -/
theorem atoi_overflows_at_the_minimum :
    ¬ ∀ (n : Int32) (beyond : List OsalS8),
      (oalAtoi ⟨0, render 10 n.toInt ++ 0 :: beyond⟩).result = .ok n.toInt := by
  intro covers
  have text : render 10 (Int32.minValue).toInt =
      [45, 50, 49, 52, 55, 52, 56, 51, 54, 52, 56] := by decide
  have code : (oalAtoi ⟨0, [45, 50, 49, 52, 55, 52, 56, 51, 54, 52, 56] ++ 0 :: []⟩).result =
      .error .signedOverflow := by decide
  have claimed := covers Int32.minValue []
  rw [text, code] at claimed
  cases claimed

/-! ## Agreement with `oal_strtol` -/

/-- The strings on which position does not matter: the scanned part writes zero
throughout, or it is a signed numeral behind which only spaces follow, and
further signs only where the numeral has one. -/
def Agreeing (text : List OsalS8) : Prop :=
  (∀ digit ∈ decimals (scanned text), digit = 0) ∨
    ∃ spaces negative digits tail,
      scanned text = List.replicate spaces (chr ' ') ++ sign negative ++ digits ++ tail ∧
      (∀ c ∈ digits, isDigitOf 10 c = true) ∧
      (∀ c ∈ tail, c = chr ' ' ∨ c = chr '-' ∧ negative = true)

private theorem signed_eq_iff (minus negative : Bool) (whole part : Nat) :
    signed minus whole = signed negative part ↔
      whole = part ∧ (minus = negative ∨ whole = 0) := by
  cases minus <;> cases negative <;> simp [signed] <;> omega

private theorem signed_bmod (negative : Bool) (fits : number < 2 ^ 31) :
    (signed negative number).bmod (2 ^ 32) = signed negative number := by
  apply Int.bmod_eq_of_le
  · rw [signed]
    split <;> omega
  · rw [signed]
    split <;> omega

/-- Behind the leading digits the scanned part either writes nothing, and then
consists of spaces and signs, or it has another digit. -/
private theorem no_more_digits (scannedTail : ∀ c ∈ tail, isScanned c = true)
    (none : decimals tail = []) : ∀ c ∈ tail, c = chr ' ' ∨ c = chr '-' := by
  intro c member
  have noDigit := decimals_eq_nil.mp none c member
  have going := scannedTail c member
  simp only [isScanned, noDigit, Bool.false_or, Bool.or_eq_true, beq_iff_eq] at going
  exact going.symm

private theorem decimals_opening (spaces : Nat) (negative : Bool) :
    decimals (List.replicate spaces (chr ' ') ++ sign negative) = [] := by
  rw [decimals_eq_nil]
  intro c member
  rcases List.mem_append.mp member with member | member
  · rw [(List.mem_replicate.mp member).2]
    decide
  · cases negative with
    | true =>
      rw [List.mem_singleton.mp member]
      decide
    | false => cases member

/-- A text has one split into spaces, sign and a part with a digit in front. -/
private theorem opened_split (opened : Opened negative body)
    (digit : isDigitOf 10 first = true)
    (same : List.replicate spaces (chr ' ') ++ sign negative ++ body =
      List.replicate k (chr ' ') ++ sign minus ++ (first :: digits) ++ tail) :
    minus = negative ∧ body = first :: digits ++ tail := by
  have front : List.replicate k (chr ' ') ++ sign minus ++ first :: digits <+:
      List.replicate spaces (chr ' ') ++ sign negative ++ body := by
    rw [same]
    exact List.prefix_append _ _
  obtain ⟨rfl, rfl, -⟩ := opened.aligned digit front
  rw [List.append_assoc _ (first :: digits)] at same
  exact ⟨rfl, List.append_cancel_left same⟩

/-- Where signs only follow a sign, a text with a `-` has it in front. -/
private theorem signed_of_minus (allDigits : ∀ c ∈ digits, isDigitOf 10 c = true)
    (signs : ∀ c ∈ tail, c = chr ' ' ∨ c = chr '-' ∧ negative = true)
    (member : chr '-' ∈ List.replicate spaces (chr ' ') ++ sign negative ++ digits ++ tail) :
    negative = true := by
  by_contra plus
  obtain rfl : negative = false := by simpa using plus
  have places : chr '-' ∈ digits ∨ chr '-' ∈ tail := by
    simpa [sign, space_ne_minus.symm] using member
  rcases places with inDigits | inTail
  · exact (digit_unsigned (allDigits _ inDigits)).2 rfl
  · rcases signs _ inTail with space | ⟨-, impossible⟩
    · exact absurd space.symm space_ne_minus
    · cases impossible

/-- For a scanned part split at its leading digits, agreement says that it
writes zero, or that only spaces and redundant signs are left behind them. -/
private theorem agreeing_iff (spaces : Nat) (opened : Opened negative body)
    (going : ∀ c ∈ body, isScanned c = true)
    (split : scanned text = List.replicate spaces (chr ' ') ++ sign negative ++ body) :
    Agreeing text ↔
      value 10 (decimals body) = 0 ∨
        decimals (body.dropWhile (isDigitOf 10)) = [] ∧ (chr '-' ∈ scanned text → negative = true) := by
  have opening : decimals (scanned text) = decimals body := by
    rw [split, decimals_append, decimals_opening, List.nil_append]
  have inside : ∀ c ∈ body.dropWhile (isDigitOf 10), c ∈ body := fun c member =>
    (List.dropWhile_sublist _).subset member
  unfold Agreeing
  rw [opening, ← value_eq_zero_iff (by omega : 0 < 10)]
  apply or_congr_right'
  intro nonzero
  constructor
  · rintro ⟨k, minus, digits, tail, spelling, allDigits, signs⟩
    have noTail : decimals tail = [] := by
      rw [decimals_eq_nil]
      intro c member
      rcases signs c member with rfl | ⟨rfl, -⟩ <;> decide
    cases digits with
    | nil =>
      rw [spelling, List.append_nil, decimals_append, decimals_opening, noTail] at opening
      exact absurd (congrArg (value 10) opening.symm) nonzero
    | cons first digits =>
      obtain ⟨rfl, rfl⟩ :=
        opened_split opened (allDigits first List.mem_cons_self) (split.symm.trans spelling)
      refine ⟨?_, fun member => signed_of_minus allDigits signs (spelling ▸ member)⟩
      rw [List.dropWhile_append_of_pos allDigits, decimals_eq_nil]
      intro c member
      exact decimals_eq_nil.mp noTail c ((List.dropWhile_sublist _).subset member)
  · rintro ⟨noTail, signs⟩
    refine ⟨spaces, negative, body.takeWhile (isDigitOf 10), body.dropWhile (isDigitOf 10), ?_,
      fun c member => List.mem_takeWhile_imp member, ?_⟩
    · rw [List.append_assoc _ (body.takeWhile _), List.takeWhile_append_dropWhile, split]
    · intro c member
      rcases no_more_digits (fun c member => going c (inside c member)) noTail c member with
        space | rfl
      · exact .inl space
      · refine .inr ⟨rfl, signs ?_⟩
        rw [split]
        exact List.mem_append_right _ (inside _ member)

/-- All the digits under one sign and the leading ones under another write the
same number where that number is zero, or where there are no others and the
signs are the same. -/
theorem numbers_agree_iff (leading others : List Nat) (minus negative : Bool)
    (kept : negative = true → minus = true) :
    signed minus (value 10 (leading ++ others)) = signed negative (value 10 leading) ↔
      value 10 (leading ++ others) = 0 ∨ others = [] ∧ (minus = true → negative = true) := by
  rw [signed_eq_iff]
  by_cases zero : value 10 (leading ++ others) = 0
  · have bound := value_le_append 10 (by omega) leading others
    have leadingZero : value 10 leading = 0 := by omega
    simp [zero, leadingZero]
  · have sameNumber : value 10 (leading ++ others) = value 10 leading ↔ others = [] := by
      constructor
      · intro same
        exact (value_append_eq_iff (by omega) others (same ▸ zero)).mp same
      · rintro rfl
        rw [List.append_nil]
    have sameSign : minus = negative ↔ (minus = true → negative = true) := by
      cases minus <;> cases negative <;> simp_all
    simp only [zero, or_false, false_or, sameNumber, sameSign]

/-- Where `oal_atoi` does not overflow, both parsers return, and they return
the same number exactly on the agreeing strings. -/
theorem atoi_agrees_with_strtol_iff (s : CString) (beyond : List OsalS8)
    (inRange : (oalAtoi ⟨0, s.memory beyond⟩).result ≠ .error .signedOverflow) :
    ∃ number result, (oalAtoi ⟨0, s.memory beyond⟩).result = .ok number ∧
      (oalStrtol ⟨0, s.memory beyond⟩ none 10).result = .ok (result, none) ∧
      (number = result.toInt ↔ Agreeing s.chars) := by
  obtain ⟨c, rest, memory, ends⟩ := takeWhile_ends (show isScanned 0 = false by decide) s.chars beyond
  obtain ⟨noDigit, noSpace, noMinus⟩ := not_isScanned ends
  have going : ∀ c ∈ scanned s.chars, isScanned c = true := fun c member =>
    List.mem_takeWhile_imp member
  obtain ⟨spaces, negative, body, split, opened⟩ := exists_opened (scanned s.chars)
  have bodyGoing : ∀ c ∈ body, isScanned c = true := by
    intro c member
    apply going c
    rw [split]
    exact List.mem_append_right _ member
  have opening : decimals (scanned s.chars) = decimals body := by
    rw [split, decimals_append, decimals_opening, List.nil_append]
  have parts : decimals body = decimals (body.takeWhile (isDigitOf 10)) ++
      decimals (body.dropWhile (isDigitOf 10)) := by
    rw [← decimals_append, List.takeWhile_append_dropWhile]
  have atoi := atoi_result (scanned s.chars) going ends 0 rest
  obtain ⟨digits, result, spelled, leading, parsed⟩ := strtol_decimal spaces opened
  have strtol := parsed c noDigit ⟨noSpace, noMinus⟩ rest
  rw [← List.append_assoc, ← split] at strtol
  rw [← decimals_spelled spelled] at leading
  have sameMemory : s.memory beyond = scanned s.chars ++ c :: rest := memory
  rw [sameMemory] at inRange ⊢
  have fits : value 10 (decimals body) < 2 ^ 31 := by
    by_contra large
    rw [atoi, opening, if_neg large] at inRange
    exact inRange rfl
  have shorter : value 10 (decimals (body.takeWhile (isDigitOf 10))) < 2 ^ 31 := by
    rw [parts] at fits
    exact Nat.lt_of_le_of_lt (value_le_append 10 (by omega) _ _) fits
  have kept : negative = true → decide (chr '-' ∈ scanned s.chars) = true := by
    rintro rfl
    simp [split, sign]
  refine ⟨_, result, by rw [atoi, opening, if_pos fits], strtol, ?_⟩
  rw [agreeing_iff spaces opened bodyGoing split, leading, signed_bmod negative shorter, parts,
    numbers_agree_iff _ _ _ _ kept, decide_eq_true_eq]

/-- On `"1 2"` the space ends the number of `oal_strtol` but not that of
`oal_atoi`. -/
theorem atoi_reads_past_interior_spaces :
    ¬ ∀ (s : CString) (beyond : List OsalS8),
      (oalAtoi ⟨0, s.memory beyond⟩).result ≠ .error .signedOverflow →
        ∃ number result, (oalAtoi ⟨0, s.memory beyond⟩).result = .ok number ∧
          (oalStrtol ⟨0, s.memory beyond⟩ none 10).result = .ok (result, none) ∧
          number = result.toInt := by
  intro agree
  let s : CString := ⟨[chr '1', chr ' ', chr '2'], by decide⟩
  have twelve : (oalAtoi ⟨0, s.memory []⟩).result = .ok 12 := by decide
  have one : (oalStrtol ⟨0, s.memory []⟩ none 10).result = .ok (1, none) := by decide
  obtain ⟨number, result, atoi, strtol, same⟩ := agree s [] (by rw [twelve]; decide)
  rw [twelve] at atoi
  rw [one] at strtol
  cases atoi
  cases strtol
  exact absurd same (by decide)

/-- `" -12 - 5"` stays in range, so the equivalence speaks about it. -/
theorem atoi_agrees_with_strtol_iff_in_range :
    let s : CString := ⟨[32, 45, 49, 50, 32, 45, 32, 53], by decide⟩
    ∃ number result, (oalAtoi ⟨0, s.memory []⟩).result = .ok number ∧
      (oalStrtol ⟨0, s.memory []⟩ none 10).result = .ok (result, none) ∧
      (number = result.toInt ↔ Agreeing s.chars) :=
  atoi_agrees_with_strtol_iff ⟨[32, 45, 49, 50, 32, 45, 32, 53], by decide⟩ [] (by decide)

end Ws63Rf.AtoiProofs
