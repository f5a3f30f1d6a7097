import Ws63Rf.StrtolSequence

/-! `oal_print_hex_dump` and the text it prints. The dump reads the bytes it is
given once each, in order, and its text determines them. The logging mechanism
is not part of the repository: it is a parameter, bound to a `printf` whose text
follows what is in the log. -/
namespace Ws63Rf.PrintHexDump
open Scan OalUtil Numerals StrtolSequence

/-! ## `printf` -/

inductive Argument where
  | string (s : CString)
  | int (n : Int32)

/-- A string literal of the source. -/
def literal (text : String) : List OsalS8 := text.toList.map chr

/-- `%d`. -/
def formatD (n : Int) : List OsalS8 := render 10 n

/-- `%0` with a width and `d`: zeros go between the sign and the digits. -/
def formatZeroD (width : Nat) (n : Int) : List OsalS8 :=
  let minus := sign (decide (n < 0))
  minus ++ ((Nat.toDigits 10 n.natAbs).map chr).leftpad (width - minus.length) (chr '0')

/-- `%0` with a width and `x`, of an `unsigned int`. -/
def formatZeroX (width : Nat) (n : UInt32) : List OsalS8 :=
  ((Nat.toDigits 16 n.toNat).map chr).leftpad width (chr '0')

/-- What a format makes of its arguments, as far as it keeps to the conversions
`%s`, `%d`, `%0<digit>d` and `%0<digit>x` and they fit the arguments. -/
def formatted : List Char → List Argument → Option (List OsalS8)
  | [], _ => some []
  | '%' :: 's' :: fmt, .string s :: args => (formatted fmt args).map (s.chars ++ ·)
  | '%' :: 'd' :: fmt, .int n :: args => (formatted fmt args).map (formatD n.toInt ++ ·)
  | '%' :: '0' :: width :: 'd' :: fmt, .int n :: args =>
    if width.isDigit then
      (formatted fmt args).map (formatZeroD (width.toNat - '0'.toNat) n.toInt ++ ·)
    else none
  | '%' :: '0' :: width :: 'x' :: fmt, .int n :: args =>
    if width.isDigit then
      (formatted fmt args).map (formatZeroX (width.toNat - '0'.toNat) n.toUInt32 ++ ·)
    else none
  | c :: fmt, args => if c = '%' then none else (formatted fmt args).map (chr c :: ·)

/-- `osal_printk`, on a log of some kind. -/
abbrev OsalPrintk (Log : Type) := Log → (fmt : String) → List Argument → Int32 × Log

section Dump
variable {Log : Type} (osalPrintk : OsalPrintk Log)

/-- The header's debug `printf`, seen through the text of the log. -/
structure Documented (text : Log → List OsalS8) : Prop where
  prints : ∀ log fmt args printed, formatted fmt.toList args = some printed →
    text (osalPrintk log fmt args).2 = text log ++ printed

/-! ## `oal_print_hex_dump` -/

/-- `wifi_printf` where printing is configured; no result is used. -/
def wifiPrintf (fmt : String) (args : List Argument) (log : Log) : Log := (osalPrintk log fmt args).2

/-- One turn of the `for` loop. -/
def hexDumpTurn (addr : Cursor OsalU8) (log : Log) (i : Nat) : Run Log := do
  let log :=
    if UInt32.ofNat i &&& 0x000f = 0 then
      wifiPrintf osalPrintk "\r\n%04d: " [.int (Int32.ofNat i)] log
    else log
  let byte ← addr.load i
  return wifiPrintf osalPrintk " %02x" [.int (Int32.ofNat byte.toNat)] log

/-- The log behind the dump; `groupsize` is not used. -/
def oalPrintHexDump (addr : Cursor OsalU8) (len _groupsize : Int32) (preStr : CString) (log : Log) :
    Run Log := do
  let log := wifiPrintf osalPrintk "%s: len = %d" [.string preStr, .int len] log
  let log ← (List.range len.toInt.toNat).foldlM (hexDumpTurn osalPrintk addr) log
  return wifiPrintf osalPrintk "\r\n" [] log

end Dump

/-! ## The text -/

/-- What a turn prints in front of its byte. -/
def lineStart (i : Nat) : List OsalS8 :=
  if UInt32.ofNat i &&& 0x000f = 0 then
    literal "\r\n" ++ formatZeroD 4 (Int32.ofNat i).toInt ++ literal ": "
  else []

/-- `%02x` of a byte. -/
def format02x (byte : OsalU8) : List OsalS8 := formatZeroX 2 (Int32.ofNat byte.toNat).toUInt32

/-- The lines of the bytes from an index on. -/
def lines (i : Nat) : List OsalU8 → List OsalS8
  | [] => []
  | byte :: bytes => lineStart i ++ literal " " ++ format02x byte ++ lines (i + 1) bytes

section Text
variable {Log : Type} {osalPrintk : OsalPrintk Log} {text : Log → List OsalS8}
  (documented : Documented osalPrintk text)
include documented

theorem prints_heading (preStr : CString) (len : Int32) (log : Log) :
    text (wifiPrintf osalPrintk "%s: len = %d" [.string preStr, .int len] log) =
      text log ++ (preStr.chars ++ (literal ": len = " ++ formatD len.toInt)) := by
  refine documented.prints _ _ _ _ ?_
  rw [← List.append_nil (formatD _)]
  rfl

theorem prints_index (i : Int32) (log : Log) :
    text (wifiPrintf osalPrintk "\r\n%04d: " [.int i] log) =
      text log ++ (literal "\r\n" ++ (formatZeroD 4 i.toInt ++ literal ": ")) :=
  documented.prints _ _ _ _ rfl

theorem prints_byte (n : Int32) (log : Log) :
    text (wifiPrintf osalPrintk " %02x" [.int n] log) =
      text log ++ (literal " " ++ formatZeroX 2 n.toUInt32) := by
  refine documented.prints _ _ _ _ ?_
  rw [← List.append_nil (formatZeroX _ _)]
  rfl

theorem prints_end (log : Log) :
    text (wifiPrintf osalPrintk "\r\n" [] log) = text log ++ literal "\r\n" :=
  documented.prints _ _ _ _ rfl

/-- A turn prints the byte it reads. -/
theorem turn_prints {addr : Cursor OsalU8} {byte : OsalU8} {i : Nat}
    (loaded : addr.load i = ⟨[i], .ok byte⟩) (log : Log) :
    ∃ after, hexDumpTurn osalPrintk addr log i = ⟨[i], .ok after⟩ ∧
      text after = text log ++ (lineStart i ++ (literal " " ++ format02x byte)) := by
  rw [hexDumpTurn, loaded]
  refine ⟨_, rfl, ?_⟩
  rw [prints_byte documented, lineStart, format02x]
  split
  · rw [prints_index documented]
    simp only [List.append_assoc]
  · rfl

/-- The turns print the bytes they read, each once. -/
theorem turns_print (i : Nat) (front bytes behind : List OsalU8) (here : front.length = i)
    (log : Log) :
    ∃ after, (List.range' i bytes.length).foldlM
        (hexDumpTurn osalPrintk ⟨0, front ++ bytes ++ behind⟩) log =
          ⟨List.range' i bytes.length, .ok after⟩ ∧
      text after = text log ++ lines i bytes := by
  induction bytes generalizing i front log with
  | nil => exact ⟨log, rfl, by simp [lines]⟩
  | cons byte bytes ih =>
    have loaded : (⟨0, front ++ byte :: bytes ++ behind⟩ : Cursor OsalU8).load i = ⟨[i], .ok byte⟩ := by
      simp [Cursor.load, ← here]
    obtain ⟨between, turned, first⟩ := turn_prints documented loaded log
    obtain ⟨after, later, rest⟩ := ih (i + 1) (front ++ [byte]) (by simp [here]) between
    simp only [List.append_assoc, List.cons_append, List.nil_append] at later turned ⊢
    refine ⟨after, ?_, ?_⟩
    · rw [List.length_cons, List.range'_succ, List.foldlM_cons, turned]
      simp only [Run.ok_bind, Run.after_mk, later, List.cons_append, List.nil_append]
    · rw [rest, first, lines]
      simp only [List.append_assoc]

/-- Where the memory has the bytes, they are read once each, in order, and
nothing else is; this is what is printed. -/
theorem hex_dump_result (memory : List OsalU8) (len groupsize : Int32) (preStr : CString)
    (enough : len.toInt.toNat ≤ memory.length) (log : Log) :
    ∃ after, oalPrintHexDump osalPrintk ⟨0, memory⟩ len groupsize preStr log =
        ⟨List.range len.toInt.toNat, .ok after⟩ ∧
      text after = text log ++ (preStr.chars ++ (literal ": len = " ++ (formatD len.toInt ++
        (lines 0 (memory.take len.toInt.toNat) ++ literal "\r\n")))) := by
  obtain ⟨between, ran, printed⟩ := turns_print documented 0 [] (memory.take len.toInt.toNat)
    (memory.drop len.toInt.toNat) rfl
    (wifiPrintf osalPrintk "%s: len = %d" [.string preStr, .int len] log)
  rw [List.length_take, Nat.min_eq_left enough, List.nil_append, List.take_append_drop] at ran
  refine ⟨wifiPrintf osalPrintk "\r\n" [] between, ?_, ?_⟩
  · rw [oalPrintHexDump, List.range_eq_range', ran]
    simp only [Run.ok_bind, Run.pure_def, Run.after_mk, List.append_nil]
  · rw [prints_end documented, printed, prints_heading documented]
    simp only [List.append_assoc]

end Text

/-! ## Reading it back -/

/-- A byte that is passed as an `int` is printed as itself. -/
theorem toNat_argument (byte : OsalU8) : (Int32.ofNat byte.toNat).toUInt32.toNat = byte.toNat := by
  have below := byte.toNat_lt
  exact UInt32.toNat_ofNat_of_lt' (below.trans (by decide))

theorem format02x_digits (byte : OsalU8) : (format02x byte).map digitValue =
    [some (byte.toNat / 16), some (byte.toNat % 16)] := by
  have every : ∀ b : BitVec 8, (((Nat.toDigits 16 b.toNat).map chr).leftpad 2 (chr '0')).map digitValue =
      [some (b.toNat / 16), some (b.toNat % 16)] := by decide
  rw [format02x, formatZeroX, toNat_argument]
  exact every byte.toBitVec

theorem format02x_length (byte : OsalU8) : (format02x byte).length = 2 := by
  have digits := congrArg List.length (format02x_digits byte)
  rwa [List.length_map] at digits

theorem format02x_injective {byte byte' : OsalU8} (same : format02x byte = format02x byte') :
    byte = byte' := by
  have digits := congrArg (List.map digitValue) same
  rw [format02x_digits, format02x_digits] at digits
  simp only [List.cons.injEq, Option.some.injEq, and_true] at digits
  exact UInt8.toNat_inj.mp (by omega)

/-- As many bytes as were printed are found again. -/
theorem lines_injective {bytes bytes' : List OsalU8} (count : bytes.length = bytes'.length) (i : Nat)
    {behind behind' : List OsalS8} (same : lines i bytes ++ behind = lines i bytes' ++ behind') :
    bytes = bytes' := by
  induction bytes generalizing i bytes' with
  | nil => exact (List.length_eq_zero_iff.mp count.symm).symm
  | cons byte bytes ih =>
    cases bytes' with
    | nil => cases count
    | cons byte' bytes' =>
      simp only [lines, List.append_assoc] at same
      have printed := List.append_cancel_left (List.append_cancel_left same)
      have lengths : (format02x byte).length = (format02x byte').length := by
        rw [format02x_length, format02x_length]
      obtain ⟨first, rest⟩ := List.append_inj printed lengths
      rw [format02x_injective first, ih (Nat.succ.inj count) (i + 1) rest]

/-- `oal_strtol` reads a printed number back. -/
theorem formatD_injective {n n' : Int32} (same : formatD n.toInt = formatD n'.toInt) : n = n' := by
  have ten : 10 = 8 ∨ 10 = 10 ∨ 10 = 16 := by decide
  have ends : isDigitOf 10 0 = false ∧ ¬ IsMarker 0 := by decide
  have read : ∀ n : Int32, ∃ reads last, oalStrtol ⟨0, formatD n.toInt ++ [0]⟩ (some ⟨0, []⟩) 10 =
      ⟨reads, .ok (n, last)⟩ := by
    intro n
    obtain ⟨reads, value, ran, exact, -⟩ := strtol_item (rendering 10 ten (0, n)) [] 0 ends 0 ⟨0, []⟩
    rw [rendering_denotes, Int32.toInt_inj] at exact
    rw [rendering_chars, exact] at ran
    exact ⟨reads, _, ran⟩
  obtain ⟨reads, last, ran⟩ := read n
  obtain ⟨reads', last', ran'⟩ := read n'
  rw [same, ran'] at ran
  exact (Prod.mk.inj (Except.ok.inj (Run.mk.inj ran).2)).1.symm

/-- Signs and digits are no line ends. -/
theorem formatD_inLine (n : Int) : ∀ c ∈ formatD n, (c != chr '\r') = true := by
  have plain : Plain 10 ((Nat.toDigits 10 n.natAbs).map chr) n.natAbs :=
    toDigits_plain (by decide) (by decide) n.natAbs
  obtain ⟨digits, spelled, -, -⟩ := plain
  intro c member
  apply bne_iff_ne.mpr
  rintro rfl
  rcases List.mem_append.mp member with minus | digit
  · rw [sign] at minus
    split at minus
    · exact absurd (List.mem_singleton.mp minus) (by decide)
    · cases minus
  · have inBase := spelled.isDigitOf _ digit
    exact absurd inBase (by decide)

/-- Behind the number there is the end of a line. -/
theorem lines_end (bytes : List OsalU8) : ∃ rest,
    lines 0 bytes ++ literal "\r\n" = chr '\r' :: rest := by
  cases bytes with
  | nil => exact ⟨[chr '\n'], rfl⟩
  | cons byte bytes => exact ⟨_, rfl⟩

/-- Whatever two dumps under one heading add to their logs is the same text only
for the same length and the same bytes. -/
theorem hex_dump_determines_bytes {Log : Type} (osalPrintk : OsalPrintk Log)
    (text : Log → List OsalS8) (documented : Documented osalPrintk text) (preStr : CString)
    (memory memory' : List OsalU8) (len len' groupsize groupsize' : Int32) (log log' : Log)
    (enough : len.toInt.toNat ≤ memory.length) (enough' : len'.toInt.toNat ≤ memory'.length) :
    ∃ after after' printed printed',
      oalPrintHexDump osalPrintk ⟨0, memory⟩ len groupsize preStr log =
        ⟨List.range len.toInt.toNat, .ok after⟩ ∧ text after = text log ++ printed ∧
      oalPrintHexDump osalPrintk ⟨0, memory'⟩ len' groupsize' preStr log' =
        ⟨List.range len'.toInt.toNat, .ok after'⟩ ∧ text after' = text log' ++ printed' ∧
      (printed = printed' ↔
        len = len' ∧ memory.take len.toInt.toNat = memory'.take len'.toInt.toNat) := by
  obtain ⟨after, ran, added⟩ := hex_dump_result documented memory len groupsize preStr enough log
  obtain ⟨after', ran', added'⟩ :=
    hex_dump_result documented memory' len' groupsize' preStr enough' log'
  refine ⟨after, after', _, _, ran, added, ran', added', ?_⟩
  constructor
  · intro same
    have printed := List.append_cancel_left (List.append_cancel_left same)
    obtain ⟨rest, ending⟩ := lines_end (memory.take len.toInt.toNat)
    obtain ⟨rest', ending'⟩ := lines_end (memory'.take len'.toInt.toNat)
    have number := congrArg (List.takeWhile (· != chr '\r')) printed
    rw [ending, ending', List.takeWhile_append_of_pos (formatD_inLine _),
      List.takeWhile_append_of_pos (formatD_inLine _)] at number
    simp only [List.takeWhile_cons, bne_self_eq_false, Bool.false_eq_true, if_false,
      List.append_nil] at number
    obtain rfl := formatD_injective number
    refine ⟨rfl, ?_⟩
    apply lines_injective _ 0 (List.append_cancel_left printed)
    rw [List.length_take, List.length_take, Nat.min_eq_left enough, Nat.min_eq_left enough']
  · rintro ⟨rfl, same⟩
    rw [same]

/-! ## A log that is its text -/

def textLog : OsalPrintk (List OsalS8) := fun log fmt args =>
  match formatted fmt.toList args with
  | some printed => (Int32.ofNat printed.length, log ++ printed)
  | none => (-1, log)

theorem documented_textLog : Documented textLog id where
  prints log fmt args printed made := by
    rw [textLog, made]
    rfl

/-- Seventeen bytes, on two lines, of which the last are different. -/
theorem hex_dump_determines_bytes_second_line : ∃ after after',
    oalPrintHexDump textLog ⟨0, List.replicate 16 0 ++ [0]⟩ 17 1 ⟨[], by decide⟩ [] =
      ⟨List.range 17, .ok after⟩ ∧
    oalPrintHexDump textLog ⟨0, List.replicate 16 0 ++ [1]⟩ 17 1 ⟨[], by decide⟩ [] =
      ⟨List.range 17, .ok after'⟩ ∧ after ≠ after' := by
  obtain ⟨after, after', printed, printed', ran, added, ran', added', same⟩ :=
    hex_dump_determines_bytes textLog id documented_textLog ⟨[], by decide⟩
      (List.replicate 16 0 ++ [0]) (List.replicate 16 0 ++ [1]) 17 17 1 1 [] [] (by decide) (by decide)
  refine ⟨after, after', ran, ran', fun equal => ?_⟩
  have alike : printed = printed' := added.symm.trans (equal.trans added')
  exact absurd (same.mp alike).2 (by decide)

end Ws63Rf.PrintHexDump
