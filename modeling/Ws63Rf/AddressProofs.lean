import Ws63Rf.Nibbles

/-! `oal_strtoaddr` and `oal_strtoipv6` on any text whatever: both store a fixed
number of nibbles, one for each character that is no separator, and both look
only at characters, never for the end of the string. -/
namespace Ws63Rf.AddressProofs
open Scan OalUtil Numerals Nibbles

/-- The characters of a text that are no separators. -/
def significant (separator : OsalS8 → Bool) (text : List OsalS8) : List OsalS8 :=
  text.filter fun c => !separator c

/-- The separator of `oal_strtoipv6`. -/
def isColon (c : OsalS8) : Bool := c == chr ':'

theorem significant_append (separator : OsalS8 → Bool) (front back : List OsalS8) :
    significant separator (front ++ back) =
      significant separator front ++ significant separator back := List.filter_append ..

private theorem significant_separator {separator : OsalS8 → Bool} (skipped : separator c = true)
    (text : List OsalS8) : significant separator (c :: text) = significant separator text := by
  simp [significant, skipped]

private theorem significant_cons {separator : OsalS8 → Bool} (taken : separator c = false)
    (text : List OsalS8) : significant separator (c :: text) = c :: significant separator text := by
  simp [significant, taken]

/-- In front of its first significant character a text has separators only. -/
private theorem split_significant (separator : OsalS8 → Bool) (text : List OsalS8) :
    (∀ c ∈ text, separator c = true) ∨ ∃ skipped c more, text = skipped ++ c :: more ∧
      (∀ c ∈ skipped, separator c = true) ∧ separator c = false ∧
      significant separator text = c :: significant separator more := by
  induction text with
  | nil => exact .inl (by simp)
  | cons first text ih =>
    cases skip : separator first with
    | false => exact .inr ⟨[], first, text, rfl, by simp, skip, significant_cons skip text⟩
    | true =>
      rcases ih with all | ⟨skipped, c, more, rfl, accepted, taken, rest⟩
      · exact .inl (by simpa [skip] using all)
      · refine .inr ⟨first :: skipped, c, more, rfl, ?_, taken, ?_⟩
        · simpa [skip] using accepted
        · rw [significant_separator skip, rest]

private theorem significant_eq_nil {separator : OsalS8 → Bool} {text : List OsalS8}
    (all : ∀ c ∈ text, separator c = true) : significant separator text = [] := by
  simpa [significant] using all

/-- The values spelled digits are stored as. -/
private theorem hexOf_spelled (spelled : Spells 16 text digits) :
    text.map hexOf = digits.map UInt8.ofNat := by
  induction spelled with
  | nil => rfl
  | cons first rest ih => rw [List.map_cons, List.map_cons, hexOf_eq first.1, ih]

/-! ## `oal_strtoaddr` -/

/-- One turn passes the separators, stores one nibble and reads no further than
the character it stored. -/
private theorem strtoaddr_turn (skipped : List OsalS8)
    (accepted : ∀ c ∈ skipped, isSeparator c = true) (taken : isSeparator c = false)
    (charIndex : Nat) (macAddr : Buffer) (offset : Nat) (more : List OsalS8) :
    strtoaddrTurn (⟨offset, skipped ++ c :: more⟩, macAddr) charIndex =
      ⟨List.range' offset (skipped.length + 1) ++ [offset + skipped.length],
        .ok (⟨offset + skipped.length + 1, more⟩, putNibble charIndex (hexOf c) macAddr)⟩ := by
  have passed := skipWhile_append isSeparator skipped accepted taken offset more
  simp [strtoaddrTurn, passed, oalStrtohex, putNibble]

/-- As many turns as the text has significant characters stay inside the text. -/
private theorem strtoaddr_turns (n charIndex : Nat) (text : List OsalS8)
    (enough : n ≤ (significant isSeparator text).length)
    (macAddr : Buffer) (offset : Nat) (rest : List OsalS8) :
    ∃ reads last, (List.range' charIndex n).foldlM strtoaddrTurn (⟨offset, text ++ rest⟩, macAddr) =
        ⟨reads, .ok (last,
          putNibbles charIndex (((significant isSeparator text).map hexOf).take n) macAddr)⟩ ∧
      ∀ read ∈ reads, read < offset + text.length := by
  induction n generalizing charIndex text macAddr offset with
  | zero => exact ⟨[], _, rfl, by simp⟩
  | succ n ih =>
    rcases split_significant isSeparator text with all | ⟨skipped, c, more, rfl, accepted, taken, cut⟩
    · rw [significant_eq_nil all] at enough
      exact absurd enough (by simp)
    · rw [cut] at enough ⊢
      obtain ⟨reads, last, ran, near⟩ := ih (charIndex + 1) more (by simpa using enough)
        (putNibble charIndex (hexOf c) macAddr) (offset + skipped.length + 1)
      refine ⟨List.range' offset (skipped.length + 1) ++ [offset + skipped.length] ++ reads, last,
        ?_, ?_⟩
      · rw [List.range'_succ, List.foldlM_cons, List.append_assoc, List.cons_append,
          strtoaddr_turn skipped accepted taken, Run.ok_bind, ran, Run.after_mk]
        rfl
      · intro read member
        rw [List.length_append, List.length_cons]
        rcases List.mem_append.mp member with first | later
        · rcases List.mem_append.mp first with passed | here
          · have bound := (List.mem_range'_1.mp passed).2
            omega
          · rw [List.mem_singleton.mp here]
            omega
        · have bound := near read later
          omega

/-- More turns than that read past the text. -/
private theorem strtoaddr_overruns (n charIndex : Nat) (text : List OsalS8)
    (short : (significant isSeparator text).length < n)
    (macAddr : Buffer) (offset : Nat) (rest : List OsalS8) :
    offset + text.length ∈
      ((List.range' charIndex n).foldlM strtoaddrTurn (⟨offset, text ++ rest⟩, macAddr)).reads := by
  induction n generalizing charIndex text macAddr offset with
  | zero => exact absurd short (by simp)
  | succ n ih =>
    rw [List.range'_succ, List.foldlM_cons]
    rcases split_significant isSeparator text with all | ⟨skipped, c, more, rfl, accepted, taken, cut⟩
    · apply Run.reads_bind
      apply Run.reads_bind
      exact skipWhile_reads isSeparator text all offset rest
    · rw [cut] at short
      have inner := ih (charIndex + 1) more (by simpa using short)
        (putNibble charIndex (hexOf c) macAddr) (offset + skipped.length + 1)
      have place : offset + (skipped ++ c :: more).length =
          offset + skipped.length + 1 + more.length := by
        simp
        omega
      rw [List.append_assoc, List.cons_append, strtoaddr_turn skipped accepted taken, Run.ok_bind,
        Run.reads_after, place]
      exact List.mem_append_right _ inner

/-- A text with twelve significant characters is decoded inside the text. -/
theorem strtoaddr_inside (text : List OsalS8)
    (enough : 12 ≤ (significant isSeparator text).length) (macAddr : Buffer) (offset : Nat)
    (rest : List OsalS8) :
    ∃ reads, oalStrtoaddr ⟨offset, text ++ rest⟩ macAddr =
        ⟨reads, .ok (putNibbles 0 (((significant isSeparator text).map hexOf).take 12) macAddr)⟩ ∧
      ∀ read ∈ reads, read < offset + text.length := by
  obtain ⟨reads, last, ran, near⟩ := strtoaddr_turns 12 0 text enough macAddr offset rest
  refine ⟨reads, ?_, near⟩
  rw [oalStrtoaddr, List.range_eq_range', ran]
  simp

/-- With fewer it is not. -/
theorem strtoaddr_outside (text : List OsalS8)
    (short : (significant isSeparator text).length < 12) (macAddr : Buffer) (offset : Nat)
    (rest : List OsalS8) :
    offset + text.length ∈ (oalStrtoaddr ⟨offset, text ++ rest⟩ macAddr).reads := by
  rw [oalStrtoaddr, List.range_eq_range']
  apply Run.reads_bind
  exact strtoaddr_overruns 12 0 text short macAddr offset rest

/-! ## `oal_strtoipv6` -/

/-- The nibble position of the first digit: a leading `':'` finds no position
to take the index back from and so moves it ahead. -/
def firstIndex (text : List OsalS8) : Nat := if text.head? = some (chr ':') then 1 else 0

private theorem ipv6_colon {charIndex : Nat} (started : charIndex ≠ 0) (ipv6Addr : Buffer) :
    strtoipv6Turn (charIndex, ipv6Addr) (chr ':') = .next (charIndex, ipv6Addr) := by
  have back : charIndex - 1 + 1 = charIndex := Nat.succ_pred started
  simp [strtoipv6Turn, started, back]

private theorem ipv6_digit (taken : isColon c = false) (charIndex : Nat) (ipv6Addr : Buffer) :
    strtoipv6Turn (charIndex, ipv6Addr) c =
      .next (charIndex + 1, putNibble charIndex (hexOf c) ipv6Addr) := by
  have other : c ≠ chr ':' := by simpa [isColon] using taken
  have half : charIndex >>> 1 = charIndex / 2 := Nat.shiftRight_eq_div_pow charIndex 1
  have shifted (n : Nat) : n <<< 4 = n * 16 := Nat.shiftLeft_eq n 4
  simp only [strtoipv6Turn, if_neg other, half, shifted, putNibble]

private def ipv6Walk (charIndex : Nat) (ipv6Addr : Buffer) (offset : Nat) (text : List OsalS8) :
    Run ((Nat × Buffer) × Cursor OsalS8) :=
  walk (fun state => decide (state.1 < 16 * 2)) (fun state c => .ok (strtoipv6Turn state c))
    (charIndex, ipv6Addr) offset text

private theorem ipv6_full (ipv6Addr : Buffer) (offset : Nat) (text : List OsalS8) :
    ipv6Walk 32 ipv6Addr offset text = ⟨[], .ok ((32, ipv6Addr), ⟨offset, text⟩)⟩ :=
  walk_done rfl offset text

private theorem ipv6_going {charIndex : Nat} (going : charIndex < 32)
    (turn : strtoipv6Turn (charIndex, ipv6Addr) c = .next (next, stored)) (offset : Nat)
    (text : List OsalS8) :
    ipv6Walk charIndex ipv6Addr offset (c :: text) =
      (ipv6Walk next stored (offset + 1) text).after [offset] :=
  walk_next (by simpa using going) (congrArg Except.ok turn) offset text

/-- Reads inside the rest of a text, with the one in front of it, are inside the text. -/
private theorem reads_cons {offset : Nat} {reads : List Nat} {text : List OsalS8}
    (near : ∀ read ∈ reads, read < offset + 1 + text.length) :
    ∀ read ∈ offset :: reads, read < offset + (c :: text).length := by
  rw [List.length_cons]
  intro read member
  rcases List.mem_cons.mp member with rfl | later
  · omega
  · have bound := near read later
    omega

/-- All remaining positions are filled from this text, without a look behind it. -/
private def Fills (charIndex : Nat) (ipv6Addr : Buffer) (offset : Nat) (text rest : List OsalS8) :
    Prop :=
  ∃ reads last, ipv6Walk charIndex ipv6Addr offset (text ++ rest) =
      ⟨reads, .ok ((32, putNibbles charIndex
        (((significant isColon text).map hexOf).take (32 - charIndex)) ipv6Addr), last)⟩ ∧
    ∀ read ∈ reads, read < offset + text.length

private theorem fills_full (ipv6Addr : Buffer) (offset : Nat) (text rest : List OsalS8) :
    Fills 32 ipv6Addr offset text rest :=
  ⟨[], ⟨offset, text ++ rest⟩, ipv6_full ipv6Addr offset _, by simp⟩

/-- Once the index is past 0, or no `':'` comes first, one nibble is stored for
each significant character until all positions are filled. -/
private theorem ipv6_finishes (text : List OsalS8) (charIndex : Nat) (bounded : charIndex ≤ 32)
    (aligned : charIndex ≠ 0 ∨ text.head? ≠ some (chr ':'))
    (enough : 32 ≤ charIndex + (significant isColon text).length)
    (ipv6Addr : Buffer) (offset : Nat) (rest : List OsalS8) :
    Fills charIndex ipv6Addr offset text rest := by
  induction text generalizing charIndex ipv6Addr offset with
  | nil =>
    obtain rfl : charIndex = 32 := by
      simp only [significant, List.filter_nil, List.length_nil] at enough
      omega
    exact fills_full ipv6Addr offset [] rest
  | cons c text ih =>
    by_cases full : charIndex = 32
    · subst full
      exact fills_full ipv6Addr offset (c :: text) rest
    have going : charIndex < 32 := by omega
    cases colon : isColon c with
    | true =>
      obtain rfl : c = chr ':' := by simpa [isColon] using colon
      have started : charIndex ≠ 0 := by simpa using aligned
      rw [significant_separator colon] at enough
      obtain ⟨reads, last, ran, near⟩ :=
        ih charIndex bounded (.inl started) enough ipv6Addr (offset + 1)
      refine ⟨offset :: reads, last, ?_, reads_cons near⟩
      rw [List.cons_append, ipv6_going going (ipv6_colon started ipv6Addr), ran,
        significant_separator colon]
      rfl
    | false =>
      rw [significant_cons colon, List.length_cons] at enough
      obtain ⟨reads, last, ran, near⟩ := ih (charIndex + 1) going (.inl (Nat.succ_ne_zero _))
        (by omega) (putNibble charIndex (hexOf c) ipv6Addr) (offset + 1)
      have remaining : 32 - charIndex = 32 - (charIndex + 1) + 1 := by omega
      refine ⟨offset :: reads, last, ?_, reads_cons near⟩
      rw [List.cons_append, ipv6_going going (ipv6_digit colon charIndex ipv6Addr), ran,
        significant_cons colon, List.map_cons, remaining, List.take_succ_cons]
      rfl

/-- While positions are left at the end of the text, the loop looks behind it. -/
private theorem ipv6_overruns (text : List OsalS8) (charIndex : Nat)
    (aligned : charIndex ≠ 0 ∨ text.head? ≠ some (chr ':'))
    (short : charIndex + (significant isColon text).length < 32)
    (ipv6Addr : Buffer) (offset : Nat) (rest : List OsalS8) :
    offset + text.length ∈ (ipv6Walk charIndex ipv6Addr offset (text ++ rest)).reads := by
  induction text generalizing charIndex ipv6Addr offset with
  | nil => exact walk_reads (by simpa [significant] using short) offset rest
  | cons c text ih =>
    have going : charIndex < 32 := by omega
    have place : offset + (c :: text).length = offset + 1 + text.length := by
      rw [List.length_cons]
      omega
    rw [List.cons_append, place]
    cases colon : isColon c with
    | true =>
      obtain rfl : c = chr ':' := by simpa [isColon] using colon
      have started : charIndex ≠ 0 := by simpa using aligned
      rw [significant_separator colon] at short
      rw [ipv6_going going (ipv6_colon started ipv6Addr), Run.reads_after]
      exact List.mem_append_right _ (ih charIndex (.inl started) short ipv6Addr (offset + 1))
    | false =>
      rw [significant_cons colon, List.length_cons] at short
      rw [ipv6_going going (ipv6_digit colon charIndex ipv6Addr), Run.reads_after]
      exact List.mem_append_right _ (ih (charIndex + 1) (.inl (Nat.succ_ne_zero _)) (by omega) _ _)

/-- Behind its first step the loop has its first position and its alignment. -/
private theorem ipv6_start (text : List OsalS8) (ipv6Addr : Buffer) (offset : Nat) :
    (firstIndex text = 0 ∧ text.head? ≠ some (chr ':')) ∨
      firstIndex text = 1 ∧ ∃ more, text = chr ':' :: more ∧ ∀ rest,
        ipv6Walk 0 ipv6Addr offset (text ++ rest) =
          (ipv6Walk 1 ipv6Addr (offset + 1) (more ++ rest)).after [offset] := by
  cases text with
  | nil => exact .inl ⟨rfl, by simp⟩
  | cons c more =>
    by_cases colon : c = chr ':'
    · subst colon
      exact .inr ⟨rfl, more, rfl, fun rest =>
        ipv6_going (by omega) (show strtoipv6Turn (0, ipv6Addr) (chr ':') = _ from rfl) offset _⟩
    · have other : (c :: more).head? ≠ some (chr ':') := by simpa using colon
      exact .inl ⟨if_neg other, other⟩

theorem strtoipv6_inside (text : List OsalS8)
    (enough : 32 ≤ firstIndex text + (significant isColon text).length)
    (ipv6Addr : Buffer) (offset : Nat) (rest : List OsalS8) :
    ∃ reads, oalStrtoipv6 ⟨offset, text ++ rest⟩ ipv6Addr =
        ⟨reads, .ok (putNibbles (firstIndex text)
          (((significant isColon text).map hexOf).take (32 - firstIndex text)) ipv6Addr)⟩ ∧
      ∀ read ∈ reads, read < offset + text.length := by
  have unfolded : oalStrtoipv6 ⟨offset, text ++ rest⟩ ipv6Addr =
      ipv6Walk 0 ipv6Addr offset (text ++ rest) >>= fun last => pure last.1.2 := rfl
  rcases ipv6_start text ipv6Addr offset with ⟨index, unled⟩ | ⟨index, more, rfl, led⟩
  · rw [index] at enough ⊢
    obtain ⟨reads, last, ran, near⟩ :=
      ipv6_finishes text 0 (by omega) (.inr unled) enough ipv6Addr offset rest
    exact ⟨reads, by rw [unfolded, ran]; simp, near⟩
  · rw [index] at enough ⊢
    rw [significant_separator (by decide)] at enough ⊢
    obtain ⟨reads, last, ran, near⟩ :=
      ipv6_finishes more 1 (by omega) (.inl Nat.one_ne_zero) enough ipv6Addr (offset + 1) rest
    exact ⟨offset :: reads, by rw [unfolded, led, ran]; simp, reads_cons near⟩

theorem strtoipv6_outside (text : List OsalS8)
    (short : firstIndex text + (significant isColon text).length < 32)
    (ipv6Addr : Buffer) (offset : Nat) (rest : List OsalS8) :
    offset + text.length ∈ (oalStrtoipv6 ⟨offset, text ++ rest⟩ ipv6Addr).reads := by
  apply Run.reads_bind
  change _ ∈ (ipv6Walk 0 ipv6Addr offset (text ++ rest)).reads
  rcases ipv6_start text ipv6Addr offset with ⟨index, unled⟩ | ⟨index, more, rfl, led⟩
  · rw [index] at short
    exact ipv6_overruns text 0 (.inr unled) short ipv6Addr offset rest
  · rw [index, significant_separator (by decide)] at short
    have inner := ipv6_overruns more 1 (.inl Nat.one_ne_zero) short ipv6Addr (offset + 1) rest
    rw [led, Run.reads_after, List.length_cons]
    apply List.mem_append_right
    rwa [Nat.add_comm more.length, ← Nat.add_assoc]

/-! ## Reads past the string -/

/-- A string with its NUL, and what lies behind it. -/
private theorem memory_split (s : CString) (beyond : List OsalS8) :
    s.memory beyond = (s.chars ++ [0]) ++ beyond := by
  simp [CString.memory]

private theorem significant_terminated (separator : OsalS8 → Bool) (taken : separator 0 = false)
    (text : List OsalS8) :
    (significant separator (text ++ [0])).length = (significant separator text).length + 1 := by
  rw [significant_append, significant_cons taken]
  simp [significant]

private theorem firstIndex_terminated (text : List OsalS8) :
    firstIndex (text ++ [0]) = firstIndex text := by
  cases text with
  | nil => rfl
  | cons c text => rfl

/-- A run that stays inside a text where it has enough of it and leaves it
otherwise stays inside exactly where it has enough. -/
private theorem inside_iff {β : Type} {run : Run β} {text : List OsalS8} (needed given : Nat)
    (inside : needed ≤ given → ∀ read ∈ run.reads, read < 0 + (text ++ [0]).length)
    (outside : given < needed → 0 + (text ++ [0]).length ∈ run.reads) :
    (∀ read ∈ run.reads, read ≤ text.length) ↔ needed ≤ given := by
  rw [List.length_append, List.length_singleton] at inside outside
  constructor
  · intro within
    by_contra short
    have bound := within _ (outside (by omega))
    omega
  · intro enough read member
    have bound := inside enough read member
    omega

/-- Each parser stays inside its string, its NUL included, exactly where the
string has enough characters to fill the address: all but one, which the NUL
stands in for. -/
theorem parsers_stay_inside_iff (s : CString) (beyond : List OsalS8) (macAddr ipv6Addr : Buffer) :
    ((∀ read ∈ (oalStrtoaddr ⟨0, s.memory beyond⟩ macAddr).reads, read ≤ s.chars.length) ↔
      11 ≤ (significant isSeparator s.chars).length) ∧
    ((∀ read ∈ (oalStrtoipv6 ⟨0, s.memory beyond⟩ ipv6Addr).reads, read ≤ s.chars.length) ↔
      31 ≤ firstIndex s.chars + (significant isColon s.chars).length) := by
  have addrCount := significant_terminated isSeparator (by decide) s.chars
  have ipv6Count := significant_terminated isColon (by decide) s.chars
  have index := firstIndex_terminated s.chars
  rw [memory_split]
  constructor
  · rw [inside_iff 12 (significant isSeparator (s.chars ++ [0])).length]
    · omega
    · intro enough
      obtain ⟨reads, ran, near⟩ := strtoaddr_inside _ enough macAddr 0 beyond
      rw [ran]
      exact near
    · intro short
      exact strtoaddr_outside _ short macAddr 0 beyond
  · rw [inside_iff 32 (firstIndex (s.chars ++ [0]) + (significant isColon (s.chars ++ [0])).length)]
    · omega
    · intro enough
      obtain ⟨reads, ran, near⟩ := strtoipv6_inside _ enough ipv6Addr 0 beyond
      rw [ran]
      exact near
    · intro short
      exact strtoipv6_outside _ short ipv6Addr 0 beyond

/-- On the empty string both parsers take the NUL for a digit and go on behind it. -/
theorem parsers_leave_the_empty_string :
    ¬ ∀ (s : CString) (beyond : List OsalS8) (macAddr ipv6Addr : Buffer),
      (∀ read ∈ (oalStrtoaddr ⟨0, s.memory beyond⟩ macAddr).reads, read ≤ s.chars.length) ∧
      (∀ read ∈ (oalStrtoipv6 ⟨0, s.memory beyond⟩ ipv6Addr).reads, read ≤ s.chars.length) := by
  intro inside
  have reads : 1 ∈ (oalStrtoaddr ⟨0, [0]⟩ ⟨fun _ => 0, []⟩).reads := by decide
  have bound := (inside ⟨[], by decide⟩ [] ⟨fun _ => 0, []⟩ ⟨fun _ => 0, []⟩).1 1 reads
  exact absurd bound (by decide)

/-! ## MAC addresses -/

/-- A text spelling the nibbles of some bytes stores their values. -/
private theorem stored_values {separator : OsalS8 → Bool} {bytes : List OsalU8}
    (spelled : Spells 16 (significant separator text) (nibbles bytes)) :
    (significant separator text).map hexOf = (nibbles bytes).map UInt8.ofNat ∧
      (significant separator text).length = 2 * bytes.length :=
  ⟨hexOf_spelled spelled, by rw [spelled.length_eq, length_nibbles]⟩

/-- From any text whose characters other than separators spell the twelve
digits of an address, in either case, the address is stored and nothing else
is. What follows the text is not looked at, so a text that ends with its
twelfth digit is all that is read. -/
theorem strtoaddr_inverts_every_rendering (address : Vector OsalU8 6) (text : List OsalS8)
    (spelled : Spells 16 (significant isSeparator text) (nibbles address.toList))
    (behind : List OsalS8) (macAddr : Buffer) :
    ∃ reads after, oalStrtoaddr ⟨0, text ++ behind⟩ macAddr = ⟨reads, .ok after⟩ ∧
      Stored 0 address.toList macAddr after ∧ ∀ read ∈ reads, read < text.length := by
  obtain ⟨values, count⟩ := stored_values spelled
  rw [Vector.length_toList] at count
  obtain ⟨reads, ran, near⟩ := strtoaddr_inside text (by omega) macAddr 0 behind
  have all : ((significant isSeparator text).map hexOf).take 12 =
      (significant isSeparator text).map hexOf :=
    List.take_of_length_le (by rw [List.length_map]; omega)
  rw [all, values] at ran
  refine ⟨reads, _, ran, putNibbles_bytes 0 address.toList macAddr, ?_⟩
  simpa using near

/-- `":0-0:1aFf-:c0De7F"` renders 00:1a:ff:c0:de:7f, here in front of `"/9"`. -/
theorem strtoaddr_inverts_every_rendering_mixed :
    ∃ reads after,
      oalStrtoaddr ⟨0, [58, 48, 45, 48, 58, 49, 97, 70, 102, 45, 58, 99, 48, 68, 101, 55, 70] ++
        [47, 57, 0]⟩ ⟨fun _ => 0xa5, []⟩ = ⟨reads, .ok after⟩ ∧
      Stored 0 (#v[0x00, 0x1a, 0xff, 0xc0, 0xde, 0x7f] : Vector OsalU8 6).toList
        ⟨fun _ => 0xa5, []⟩ after ∧ ∀ read ∈ reads, read < 17 :=
  strtoaddr_inverts_every_rendering #v[0x00, 0x1a, 0xff, 0xc0, 0xde, 0x7f]
    [58, 48, 45, 48, 58, 49, 97, 70, 102, 45, 58, 99, 48, 68, 101, 55, 70]
    (by unfold Spells; decide) [47, 57, 0] ⟨fun _ => 0xa5, []⟩

/-! ## IPv6 addresses -/

/-- A list that continues its own shift by one has a single value. -/
private theorem shifted_eq_iff (first : Nat) {digits : List Nat} (nonempty : digits ≠ []) :
    first :: digits.dropLast = digits ↔ ∀ digit ∈ digits, digit = first := by
  induction digits generalizing first with
  | nil => exact absurd rfl nonempty
  | cons digit digits ih =>
    cases digits with
    | nil => simp [eq_comm]
    | cons next digits =>
      have inner := ih digit (by simp)
      rw [List.dropLast_cons_cons, List.cons.injEq, inner]
      constructor
      · rintro ⟨rfl, rest⟩
        exact List.forall_mem_cons.mpr ⟨rfl, rest⟩
      · intro all
        obtain ⟨rfl, rest⟩ := List.forall_mem_cons.mp all
        exact ⟨rfl, rest⟩

/-- The parser leaves these bytes in the buffer when it is given this string. -/
def Decodes (text beyond : List OsalS8) (ipv6Addr : Buffer) (bytes : List OsalU8) : Prop :=
  ∃ reads after, oalStrtoipv6 ⟨0, text ++ 0 :: beyond⟩ ipv6Addr = ⟨reads, .ok after⟩ ∧
    Holds after bytes

private theorem decodes_iff_of_run (ran : oalStrtoipv6 ⟨0, text ++ 0 :: beyond⟩ ipv6Addr =
      ⟨reads, .ok after⟩) : Decodes text beyond ipv6Addr bytes ↔ Holds after bytes := by
  constructor
  · rintro ⟨_, other, again, holds⟩
    rw [ran] at again
    cases again
    exact holds
  · intro holds
    exact ⟨_, _, ran, holds⟩

private theorem decodes_unled {address : Vector OsalU8 16}
    (spelled : Spells 16 (significant isColon text) (nibbles address.toList))
    (unled : text.head? ≠ some (chr ':')) (beyond : List OsalS8) (ipv6Addr : Buffer) :
    Decodes text beyond ipv6Addr address.toList := by
  obtain ⟨values, count⟩ := stored_values spelled
  have index : firstIndex text = 0 := if_neg unled
  have all : ((nibbles address.toList).map UInt8.ofNat).take (32 - 0) =
      (nibbles address.toList).map UInt8.ofNat := List.take_of_length_le (by simp)
  rw [Vector.length_toList] at count
  obtain ⟨reads, ran, -⟩ := strtoipv6_inside text (by omega) ipv6Addr 0 (0 :: beyond)
  rw [index, values, all] at ran
  exact ⟨reads, _, ran, (putNibbles_bytes 0 address.toList ipv6Addr).toHolds⟩

/-- Behind a leading `':'` the low nibble already in the buffer takes the place
of the first digit, and the last digit is never read. -/
private theorem decodes_led_iff {address : Vector OsalU8 16}
    (spelled : Spells 16 (significant isColon text) (nibbles address.toList))
    (led : text.head? = some (chr ':')) (beyond : List OsalS8) (ipv6Addr : Buffer) :
    Decodes text beyond ipv6Addr address.toList ↔
      ∀ digit ∈ nibbles address.toList, digit = (ipv6Addr.byte 0).toNat % 16 := by
  obtain ⟨values, count⟩ := stored_values spelled
  have index : firstIndex text = 1 := if_pos led
  have length : (nibbles address.toList).length = 32 := by simp
  have nonempty : nibbles address.toList ≠ [] := by
    intro empty
    rw [empty] at length
    cases length
  have short : (nibbles address.toList).take 31 = (nibbles address.toList).dropLast := by
    rw [List.dropLast_eq_take, length]
  rw [Vector.length_toList] at count
  obtain ⟨reads, ran, -⟩ := strtoipv6_inside text (by omega) ipv6Addr 0 (0 :: beyond)
  rw [index, values, ← List.map_take, show 32 - 1 = 31 from rfl, short] at ran
  obtain ⟨bytes, sixteen, shifted⟩ := exists_bytes 16
    ((ipv6Addr.byte 0).toNat % 16 :: (nibbles address.toList).dropLast)
    (by rw [List.length_cons, List.length_dropLast, length]) (by
      intro digit member
      rcases List.mem_cons.mp member with rfl | member
      · exact Nat.mod_lt _ (by omega)
      · exact nibbles_lt _ digit (List.mem_of_mem_dropLast member))
  have dropped : (nibbles address.toList).dropLast.map UInt8.ofNat ≠ [] := by
    intro empty
    have size := congrArg List.length empty
    rw [List.length_map, List.length_dropLast, length] at size
    cases size
  have low := putNibbles_low_first _ dropped ipv6Addr
  rw [← List.map_cons, ← shifted] at low
  have holds : Holds (putNibbles 1 ((nibbles address.toList).dropLast.map UInt8.ofNat) ipv6Addr)
      bytes := by
    intro i inside
    rw [low]
    exact (putNibbles_bytes 0 bytes ipv6Addr).toHolds i inside
  rw [decodes_iff_of_run ran, holds_unique (by simp [sixteen]) holds, ← nibbles_injective, shifted,
    shifted_eq_iff _ nonempty]

/-- A text that spells an address between any `':'` is decoded exactly where it
does not begin with one, or where the buffer happens to hold what the address
repeats throughout. So the result is independent of the buffer exactly where
the text does not begin with a `':'`. -/
theorem strtoipv6_decodes_iff (address : Vector OsalU8 16) (text : List OsalS8)
    (spelled : Spells 16 (significant isColon text) (nibbles address.toList))
    (beyond : List OsalS8) :
    (∀ ipv6Addr, Decodes text beyond ipv6Addr address.toList ↔
      text.head? ≠ some (chr ':') ∨
        ∀ digit ∈ nibbles address.toList, digit = (ipv6Addr.byte 0).toNat % 16) ∧
    ((∀ ipv6Addr, Decodes text beyond ipv6Addr address.toList) ↔ text.head? ≠ some (chr ':')) := by
  constructor
  · intro ipv6Addr
    by_cases led : text.head? = some (chr ':')
    · rw [decodes_led_iff spelled led beyond ipv6Addr]
      simp [led]
    · exact iff_of_true (decodes_unled spelled led beyond ipv6Addr) (.inl led)
  · constructor
    · intro always led
      have zero := (decodes_led_iff spelled led beyond ⟨fun _ => 0, []⟩).mp (always _)
      have one := (decodes_led_iff spelled led beyond ⟨fun _ => 1, []⟩).mp (always _)
      have nonempty : 0 < (nibbles address.toList).length := by simp
      have member := List.getElem_mem nonempty
      exact absurd ((zero _ member).symm.trans (one _ member)) (by decide)
    · intro unled ipv6Addr
      exact decodes_unled spelled unled beyond ipv6Addr

/-- `":1000…"`, a colon in front of the address 1000::, with zeros in the buffer. -/
theorem strtoipv6_shifts_behind_leading_colon :
    ¬ ∀ (address : Vector OsalU8 16) (text : List OsalS8),
      Spells 16 (significant isColon text) (nibbles address.toList) →
        ∀ (beyond : List OsalS8) (ipv6Addr : Buffer),
          Decodes text beyond ipv6Addr address.toList := by
  intro decodes
  let address : Vector OsalU8 16 := #v[0x10, 0, 0, 0, 0, 0, 0, 0, 0, 0, 0, 0, 0, 0, 0, 0]
  let text : List OsalS8 := chr ':' :: chr '1' :: List.replicate 31 (chr '0')
  let buffer : Buffer := ⟨fun _ => 0, []⟩
  have spelled : Spells 16 (significant isColon text) (nibbles address.toList) := by
    unfold Spells
    decide
  obtain ⟨reads, after, ran, holds⟩ := decodes address text spelled [] buffer
  have code : (oalStrtoipv6 ⟨0, text ++ 0 :: []⟩ buffer).result.map (fun after => after.byte 0) =
      .ok 0x01 := by decide
  rw [ran] at code
  injection code with first
  have claimed := holds 0 (by decide)
  rw [show after.byte ((0 : Nat) : Int) = 0x01 from first] at claimed
  exact absurd claimed (by decide)

/-- `"fe80:…:1"` written out between colons meets the condition. -/
theorem strtoipv6_decodes_iff_link_local :
    let address : Vector OsalU8 16 := #v[0xfe, 0x80, 0, 0, 0, 0, 0, 0, 0, 0, 0, 0, 0, 0, 0, 0x01]
    let text := [102, 101, 58, 56, 48] ++ List.replicate 26 48 ++ [58, 58, 48, 49, 58]
    (∀ ipv6Addr, Decodes text [] ipv6Addr address.toList ↔ text.head? ≠ some (chr ':') ∨
        ∀ digit ∈ nibbles address.toList, digit = (ipv6Addr.byte 0).toNat % 16) ∧
      ((∀ ipv6Addr, Decodes text [] ipv6Addr address.toList) ↔ text.head? ≠ some (chr ':')) :=
  strtoipv6_decodes_iff #v[0xfe, 0x80, 0, 0, 0, 0, 0, 0, 0, 0, 0, 0, 0, 0, 0, 0x01]
    ([102, 101, 58, 56, 48] ++ List.replicate 26 48 ++ [58, 58, 48, 49, 58])
    (by unfold Spells; decide) []

end Ws63Rf.AddressProofs
