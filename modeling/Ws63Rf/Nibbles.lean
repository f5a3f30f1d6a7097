import Ws63Rf.Numerals

/-! The nibble store both address parsers perform: a high nibble replaces its
byte, a low nibble is shifted in behind what the byte holds. Whole bytes come
out of it, and what it reads back never leaves the byte it writes. -/
namespace Ws63Rf.Nibbles
open OalUtil Numerals

/-- Store one hexadecimal digit at this nibble position. -/
def putNibble (position : Nat) (digit : OsalU8) (buffer : Buffer) : Buffer :=
  buffer.store (position / 2 : Nat)
    (UInt8.ofNat ((buffer.byte (position / 2 : Nat)).toNat * 16 * (position % 2) + digit.toNat))

/-- Store digits at consecutive positions. -/
def putNibbles (position : Nat) : List OsalU8 → Buffer → Buffer
  | [], buffer => buffer
  | digit :: digits, buffer => putNibbles (position + 1) digits (putNibble position digit buffer)

/-- The hexadecimal digits of these bytes, high nibble first. -/
def nibbles : List OsalU8 → List Nat
  | [] => []
  | byte :: bytes => byte.toNat / 16 :: byte.toNat % 16 :: nibbles bytes

/-- Between the two buffers exactly these bytes have been stored, from this
offset on: all of them are there, nothing around them has changed, and no store
went elsewhere. -/
structure Stored (start : Nat) (bytes : List OsalU8) (before after : Buffer) : Prop where
  holds : ∀ i (inside : i < bytes.length), after.byte (start + i : Nat) = bytes[i]
  frame : ∀ offset : Int, offset < start ∨ (start + bytes.length : Nat) ≤ offset →
    after.byte offset = before.byte offset
  within : ∃ stores, after.written = stores ++ before.written ∧
    ∀ offset ∈ stores, (start : Int) ≤ offset ∧ offset < (start + bytes.length : Nat)

/-- The buffer holds these bytes from the pointer on. -/
def Holds (buffer : Buffer) (bytes : List OsalU8) : Prop :=
  ∀ i (inside : i < bytes.length), buffer.byte (i : Nat) = bytes[i]

theorem Stored.toHolds (stored : Stored 0 bytes before after) : Holds after bytes := by
  intro i inside
  simpa using stored.holds i inside

/-- Bytes of one length that a buffer holds are determined by it. -/
theorem holds_unique {left right : List OsalU8} (length : left.length = right.length)
    (holds : Holds buffer left) : Holds buffer right ↔ left = right := by
  constructor
  · intro also
    apply List.ext_getElem length
    intro i first second
    rw [← holds i first, ← also i second]
  · rintro rfl
    exact holds

@[simp] theorem length_nibbles (bytes : List OsalU8) : (nibbles bytes).length = 2 * bytes.length := by
  induction bytes with
  | nil => rfl
  | cons byte bytes ih =>
    simp only [nibbles, List.length_cons, ih]
    omega

theorem nibbles_lt (bytes : List OsalU8) : ∀ digit ∈ nibbles bytes, digit < 16 := by
  induction bytes with
  | nil => simp [nibbles]
  | cons byte bytes ih =>
    have bound := byte.toNat_lt
    simp only [nibbles, List.mem_cons, forall_eq_or_imp]
    exact ⟨by omega, by omega, ih⟩

theorem nibbles_injective {left right : List OsalU8} :
    nibbles left = nibbles right ↔ left = right := by
  constructor
  · intro same
    induction left generalizing right with
    | nil =>
      cases right with
      | nil => rfl
      | cons => cases same
    | cons byte left ih =>
      cases right with
      | nil => cases same
      | cons other right =>
        simp only [nibbles, List.cons.injEq] at same
        have equal : byte = other := UInt8.toNat_inj.mp (by omega)
        rw [equal, ih same.2.2]
  · rintro rfl
    rfl

/-- Every even number of hexadecimal digits are the nibbles of some bytes. -/
theorem exists_bytes (n : Nat) (digits : List Nat) (length : digits.length = 2 * n)
    (small : ∀ digit ∈ digits, digit < 16) : ∃ bytes, bytes.length = n ∧ nibbles bytes = digits := by
  induction n generalizing digits with
  | zero =>
    obtain rfl := List.length_eq_zero_iff.mp length
    exact ⟨[], rfl, rfl⟩
  | succ n ih =>
    match digits with
    | [] => simp at length
    | [_] =>
      rw [List.length_singleton] at length
      omega
    | high :: low :: digits =>
      have highSmall := small high (by simp)
      have lowSmall := small low (by simp)
      obtain ⟨bytes, count, rest⟩ := ih digits (by simp at length; omega) fun digit member =>
        small digit (by simp [member])
      have fits : (UInt8.ofNat (high * 16 + low)).toNat = high * 16 + low :=
        UInt8.toNat_ofNat_of_lt' (by change _ < 256; omega)
      refine ⟨UInt8.ofNat (high * 16 + low) :: bytes, by simp [count], ?_⟩
      rw [nibbles, fits, rest]
      congr 1
      · omega
      · congr 1
        omega

/-! ## Whole bytes -/

/-- The two nibbles of a byte leave that byte, whatever was there before. -/
private theorem put_byte (i : Nat) (byte : OsalU8) (buffer : Buffer) :
    putNibble (2 * i + 1) (UInt8.ofNat (byte.toNat % 16))
        (putNibble (2 * i) (UInt8.ofNat (byte.toNat / 16)) buffer) =
      (buffer.store i (UInt8.ofNat (byte.toNat / 16))).store i byte := by
  have bound := byte.toNat_lt
  have high : (UInt8.ofNat (byte.toNat / 16)).toNat = byte.toNat / 16 :=
    UInt8.toNat_ofNat_of_lt' (by change _ < 256; omega)
  have low : (UInt8.ofNat (byte.toNat % 16)).toNat = byte.toNat % 16 :=
    UInt8.toNat_ofNat_of_lt' (by change _ < 256; omega)
  have evenHalf : 2 * i / 2 = i := by omega
  have oddHalf : (2 * i + 1) / 2 = i := by omega
  have even : 2 * i % 2 = 0 := by omega
  have odd : (2 * i + 1) % 2 = 1 := by omega
  have whole : byte.toNat / 16 * 16 * 1 + byte.toNat % 16 = byte.toNat := by omega
  simp only [putNibble, evenHalf, oddHalf, even, odd, Nat.mul_zero, Nat.zero_add, high,
    Buffer.store, Function.update_self]
  rw [low, whole, UInt8.ofNat_toNat]

/-- Storing the nibbles of some bytes from an even position on stores the bytes. -/
theorem putNibbles_bytes (start : Nat) (bytes : List OsalU8) (buffer : Buffer) :
    Stored start bytes buffer
      (putNibbles (2 * start) ((nibbles bytes).map UInt8.ofNat) buffer) := by
  induction bytes generalizing start buffer with
  | nil => exact ⟨by simp, fun _ _ => rfl, [], rfl, by simp⟩
  | cons byte bytes ih =>
    have step : putNibbles (2 * start) ((nibbles (byte :: bytes)).map UInt8.ofNat) buffer =
        putNibbles (2 * (start + 1)) ((nibbles bytes).map UInt8.ofNat)
          ((buffer.store start (UInt8.ofNat (byte.toNat / 16))).store start byte) := by
      rw [← put_byte]
      rfl
    rw [step]
    obtain ⟨holds, frame, within⟩ := ih (start + 1)
      ((buffer.store start (UInt8.ofNat (byte.toNat / 16))).store start byte)
    refine ⟨?_, ?_, ?_⟩
    · intro i inside
      cases i with
      | zero =>
        rw [frame _ (.inl (by omega))]
        simp [Buffer.store]
      | succ i =>
        have moved : start + (i + 1) = start + 1 + i := by omega
        rw [moved, holds i (by simpa using inside)]
        rfl
    · intro offset outside
      rw [List.length_cons] at outside
      have other : offset ≠ (start : Int) := by omega
      rw [frame offset (by omega)]
      simp [Buffer.store, Function.update_of_ne other]
    · obtain ⟨stores, extended, near⟩ := within
      refine ⟨stores ++ [(start : Int), (start : Int)], by rw [extended]; simp [Buffer.store], ?_⟩
      intro offset member
      rw [List.length_cons]
      rcases List.mem_append.mp member with later | here
      · have bound := near offset later
        omega
      · have place : offset = start := by simpa using here
        omega

/-! ## A low nibble first -/

/-- The bytes that come out depend on the bytes that were there, not on how they
got there. -/
private theorem putNibbles_byte (position : Nat) (digits : List OsalU8) {buffer other : Buffer}
    (same : buffer.byte = other.byte) :
    (putNibbles position digits buffer).byte = (putNibbles position digits other).byte := by
  induction digits generalizing position buffer other with
  | nil => exact same
  | cons digit digits ih =>
    apply ih
    simp only [putNibble, Buffer.store, same]

/-- Starting at a low nibble shifts in what the byte already holds: the bytes
come out as if the nibble found there had been the first digit. -/
theorem putNibbles_low_first (digits : List OsalU8) (nonempty : digits ≠ []) (buffer : Buffer) :
    (putNibbles 1 digits buffer).byte =
      (putNibbles 0 (UInt8.ofNat ((buffer.byte 0).toNat % 16) :: digits) buffer).byte := by
  cases digits with
  | nil => exact absurd rfl nonempty
  | cons digit digits =>
    have held : (UInt8.ofNat ((buffer.byte 0).toNat % 16)).toNat = (buffer.byte 0).toNat % 16 :=
      UInt8.toNat_ofNat_of_lt' (by change _ < 256; omega)
    have shifted : UInt8.ofNat ((buffer.byte 0).toNat * 16 + digit.toNat) =
        UInt8.ofNat ((buffer.byte 0).toNat % 16 * 16 + digit.toNat) := by
      apply UInt8.toNat_inj.mp
      rw [UInt8.toNat_ofNat', UInt8.toNat_ofNat']
      omega
    have first : (putNibble 1 digit buffer).byte =
        (putNibble 1 digit (putNibble 0 (UInt8.ofNat ((buffer.byte 0).toNat % 16)) buffer)).byte := by
      simp only [putNibble, Buffer.store, Nat.reduceDiv, Nat.reduceMod, Nat.cast_zero, Nat.mul_zero,
        Nat.mul_one, Nat.zero_add, Function.update_self, Function.update_idem, held, shifted]
    exact putNibbles_byte 2 digits first

end Ws63Rf.Nibbles
