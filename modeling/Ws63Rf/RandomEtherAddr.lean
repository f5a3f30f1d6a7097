import Ws63Rf.Nibbles

/-! The addresses `oal_random_ether_addr` makes of the time of day. Each of the
two numbers it computes goes into three bytes that overlap, so that little of
the time is left in the address. -/
namespace Ws63Rf.RandomEtherAddr
open OalUtil Nibbles

/-! ## The two numbers -/

/-- The even bytes are taken from this number, the odd ones from the next. -/
def secondsOf (now : Timeval) : Int := (now.tvSec + 2) * (now.tvSec + 2) * now.tvUsec

def microsecondsOf (now : Timeval) : Int := (now.tvSec + 2) * now.tvUsec * now.tvUsec

theorem toNat_ofInt (n : Int) : (UInt32.ofInt n).toNat = (n % 2 ^ 32).toNat := by
  rw [UInt32.ofInt, UInt32.toNat_ofNat']
  omega

theorem toUInt32_ofInt (n : Int) : (UInt64.ofInt n).toUInt32 = UInt32.ofInt n := by
  apply UInt32.toNat_inj.mp
  rw [UInt64.toNat_toUInt32, UInt64.ofInt, UInt64.toNat_ofNat', toNat_ofInt]
  omega

theorem ofInt_toInt32 (word : UInt32) : UInt32.ofInt word.toInt32.toInt = word := by
  apply UInt32.toNat_inj.mp
  have number : word.toInt32.toInt = (word.toNat : Int).bmod (2 ^ 32) := BitVec.toInt_eq_toNat_bmod _
  have bound := word.toNat_lt
  have wrapped : (word.toNat : Int).bmod (2 ^ 32) % (2 ^ 32 : Nat) = word.toNat % (2 ^ 32 : Nat) :=
    Int.bmod_emod
  rw [toNat_ofInt, number]
  omega

/-- None of the conversions changes a product modulo 2^32. -/
theorem ofInt_product (x y z : Int) :
    UInt32.ofInt (toSlong (product x y z)).toInt = UInt32.ofInt (x * y * z) := by
  rw [toSlong, ofInt_toInt32, product]
  simp only [UInt64.toUInt32_mul, UInt32.toUInt32_toUInt64, toUInt32_ofInt, UInt32.ofInt_mul]

/-! ## The bytes -/

/-- The mask keeps the byte above the shifted bits. -/
theorem toNat_masked {mask shift : UInt32} {n : Nat} (inWord : n < 32) (shifted : shift.toNat = n)
    (whole : mask.toNat >>> n = 2 ^ 8 - 1) (word : UInt32) :
    ((word &&& mask) >>> shift).toUInt8.toNat = word.toNat / 2 ^ n % 2 ^ 8 := by
  rw [UInt32.toNat_toUInt8, UInt32.toNat_shiftRight, shifted, Nat.mod_eq_of_lt inWord,
    UInt32.toNat_and, Nat.shiftRight_and_distrib, whole, Nat.and_two_pow_sub_one_eq_mod,
    Nat.shiftRight_eq_div_pow]
  omega

/-- The lowest bit of the first byte is cleared. -/
theorem toNat_first (word : UInt32) :
    ((word &&& 0xff) &&& 0xfe).toUInt8.toNat = 2 * (word.toNat / 2 % 2 ^ 7) := by
  have masked : (word &&& 0xff) &&& 0xfe = word &&& 0xfe := UInt32.and_assoc word 0xff 0xfe
  have high : (word.toNat &&& 0xfe) / 2 = word.toNat / 2 % 2 ^ 7 := by
    have shifted : (word.toNat &&& 0xfe) >>> 1 = word.toNat >>> 1 &&& 2 ^ 7 - 1 :=
      Nat.shiftRight_and_distrib
    rwa [Nat.and_two_pow_sub_one_eq_mod, Nat.shiftRight_one, Nat.shiftRight_one] at shifted
  have low : (word.toNat &&& 0xfe) % 2 ^ 1 = 0 := by
    rw [Nat.and_mod_two_pow]
    exact Nat.and_zero _
  have small : word.toNat &&& 0xfe ≤ 0xfe := Nat.and_le_right
  rw [masked, UInt32.toNat_toUInt8, UInt32.toNat_and, show (0xfe : UInt32).toNat = 0xfe from rfl]
  omega

theorem toNat_ofInt_byte (n : Int) : ((UInt8.ofInt n).toNat : Int) = n % 2 ^ 8 := by
  rw [UInt8.ofInt, UInt8.toNat_ofNat']
  omega

/-- Two shifted copies of each number, the lowest bit of the first cleared. -/
def addressOf (now : Timeval) : List OsalU8 :=
  [.ofInt (2 * (secondsOf now / 2)), .ofInt (microsecondsOf now),
    .ofInt (secondsOf now / 2 ^ 4), .ofInt (microsecondsOf now / 2 ^ 4),
    .ofInt (secondsOf now / 2 ^ 8), .ofInt (microsecondsOf now / 2 ^ 8)]

theorem masked_eq {mask shift : UInt32} {n : Nat} (known : n = 4 ∨ n = 8) (shifted : shift.toNat = n)
    (whole : mask.toNat >>> n = 2 ^ 8 - 1) (number : Int) :
    ((UInt32.ofInt number &&& mask) >>> shift).toUInt8 = .ofInt (number / 2 ^ n) := by
  apply UInt8.toNat_inj.mp
  apply Int.ofNat_inj.mp
  rw [toNat_masked (by omega) shifted whole, toNat_ofInt_byte, toNat_ofInt]
  rcases known with rfl | rfl <;> omega

theorem low_eq (number : Int) : (UInt32.ofInt number &&& 0xff).toUInt8 = .ofInt number := by
  apply UInt8.toNat_inj.mp
  apply Int.ofNat_inj.mp
  have masked : (UInt32.ofInt number).toNat &&& 2 ^ 8 - 1 = _ := Nat.and_two_pow_sub_one_eq_mod _ 8
  rw [UInt32.toNat_toUInt8, UInt32.toNat_and, show (0xff : UInt32).toNat = 2 ^ 8 - 1 from rfl, masked,
    toNat_ofInt_byte, toNat_ofInt]
  omega

theorem first_eq (number : Int) :
    ((UInt32.ofInt number &&& 0xff) &&& 0xfe).toUInt8 = .ofInt (2 * (number / 2)) := by
  apply UInt8.toNat_inj.mp
  apply Int.ofNat_inj.mp
  rw [toNat_first, toNat_ofInt_byte, toNat_ofInt]
  omega

/-- One more byte behind those stored. -/
theorem stored_concat {bytes : List OsalU8} {before after : Buffer} (stored : Stored 0 bytes before after)
    (byte : OsalU8) {offset : Int} (next : offset = bytes.length) :
    Stored 0 (bytes ++ [byte]) before (after.store offset byte) := by
  obtain ⟨holds, frame, stores, extended, near⟩ := stored
  subst next
  refine ⟨?_, ?_, (bytes.length : Int) :: stores, by rw [Buffer.store, extended]; rfl, ?_⟩
  · intro i inside
    rw [Nat.zero_add]
    by_cases last : i = bytes.length
    · subst last
      simp [Buffer.store]
    · have earlier : i < bytes.length := by
        rw [List.length_append, List.length_singleton] at inside
        omega
      rw [List.getElem_append_left earlier, ← holds i earlier, Nat.zero_add]
      exact Function.update_of_ne (by omega) _ _
  · intro offset outside
    rw [List.length_append, List.length_singleton] at outside
    rw [← frame offset (by omega)]
    exact Function.update_of_ne (by omega) _ _
  · rw [List.length_append, List.length_singleton]
    rintro offset (_ | ⟨_, member⟩)
    · omega
    · have bound := near offset member
      omega

/-- The six bytes are stored and nothing else. -/
theorem random_ether_addr_stored (now : Timeval) (addr : Buffer) (len : OsalU8) :
    Stored 0 (addressOf now) addr (oalRandomEtherAddr now addr len) := by
  have nothing : Stored 0 [] addr addr := ⟨by simp, fun _ _ => rfl, [], rfl, by simp⟩
  have stored := stored_concat (stored_concat (stored_concat (stored_concat (stored_concat
    (stored_concat nothing (.ofInt (2 * (secondsOf now / 2))) rfl) (.ofInt (microsecondsOf now)) rfl)
    (.ofInt (secondsOf now / 2 ^ 4)) rfl) (.ofInt (microsecondsOf now / 2 ^ 4)) rfl)
    (.ofInt (secondsOf now / 2 ^ 8)) rfl) (.ofInt (microsecondsOf now / 2 ^ 8)) rfl
  simp only [oalRandomEtherAddr, ofInt_product]
  rw [first_eq, low_eq, masked_eq (.inl rfl) rfl rfl, masked_eq (.inl rfl) rfl rfl,
    masked_eq (.inr rfl) rfl rfl, masked_eq (.inr rfl) rfl rfl]
  exact stored

/-! ## Addresses -/

/-- The address is one of a single station, and nothing around it is stored to. -/
theorem random_ether_addr_unicast (now : Timeval) (addr : Buffer) (len : OsalU8) :
    ((oalRandomEtherAddr now addr len).byte 0).toNat % 2 = 0 ∧
      ∀ offset : Int, offset < 0 ∨ 6 ≤ offset →
        (oalRandomEtherAddr now addr len).byte offset = addr.byte offset := by
  obtain ⟨holds, frame, -⟩ := random_ether_addr_stored now addr len
  have first : (oalRandomEtherAddr now addr len).byte 0 = .ofInt (2 * (secondsOf now / 2)) :=
    holds 0 (Nat.zero_lt_succ 5)
  have number := toNat_ofInt_byte (2 * (secondsOf now / 2))
  refine ⟨?_, frame⟩
  rw [first]
  omega

theorem byte_eq_iff (n m : Int) : UInt8.ofInt n = UInt8.ofInt m ↔ n % 2 ^ 8 = m % 2 ^ 8 := by
  rw [← toNat_ofInt_byte, ← toNat_ofInt_byte, Int.ofNat_inj, UInt8.toNat_inj]

/-- All that is left of the time are fifteen bits of one number and sixteen of
the other. -/
theorem addressOf_eq_iff (now now' : Timeval) : addressOf now = addressOf now' ↔
    secondsOf now / 2 % 2 ^ 15 = secondsOf now' / 2 % 2 ^ 15 ∧
    microsecondsOf now % 2 ^ 16 = microsecondsOf now' % 2 ^ 16 := by
  simp only [addressOf, List.cons.injEq, byte_eq_iff, and_true]
  omega

/-- Two runs leave one address exactly where their times agree in those bits,
whatever the memory held. -/
theorem random_ether_addr_same_iff (now now' : Timeval) (addr addr' : Buffer) (len len' : OsalU8) :
    (∀ i < 6, (oalRandomEtherAddr now addr len).byte (i : Nat) =
      (oalRandomEtherAddr now' addr' len').byte (i : Nat)) ↔
    secondsOf now / 2 % 2 ^ 15 = secondsOf now' / 2 % 2 ^ 15 ∧
    microsecondsOf now % 2 ^ 16 = microsecondsOf now' % 2 ^ 16 := by
  have held := (random_ether_addr_stored now addr len).toHolds
  have held' := (random_ether_addr_stored now' addr' len').toHolds
  have lengths : (addressOf now).length = (addressOf now').length := rfl
  rw [← addressOf_eq_iff, ← holds_unique lengths held]
  constructor
  · intro same i inside
    rw [same i inside]
    exact held' i inside
  · intro also i inside
    rw [also i inside, held' i inside]

/-- An odd number of seconds leaves an odd number of microseconds. -/
theorem microsecondsOf_odd {now : Timeval} (odd : secondsOf now % 2 = 1) :
    microsecondsOf now % 2 = 1 := by
  rw [← Int.odd_iff] at odd ⊢
  rw [secondsOf, Int.odd_mul, Int.odd_mul] at odd
  rw [microsecondsOf, Int.odd_mul, Int.odd_mul]
  exact ⟨⟨odd.1.1, odd.2⟩, odd.2⟩

/-- The address is all zeros exactly where 2^16 divides both numbers, as it does
in every second whose microseconds it divides; adding to the seconds does not
keep this from happening. -/
theorem random_ether_addr_zero_iff (now : Timeval) (addr : Buffer) (len : OsalU8) :
    ((∀ i < 6, (oalRandomEtherAddr now addr len).byte (i : Nat) = 0) ↔
      2 ^ 16 ∣ secondsOf now ∧ 2 ^ 16 ∣ microsecondsOf now) ∧
    (2 ^ 16 ∣ now.tvUsec → ∀ i < 6, (oalRandomEtherAddr now addr len).byte (i : Nat) = 0) := by
  have held := (random_ether_addr_stored now addr len).toHolds
  have zeros : (∀ i < 6, (oalRandomEtherAddr now addr len).byte (i : Nat) = 0) ↔
      addressOf now = List.replicate 6 0 := by
    have lengths : (addressOf now).length = (List.replicate 6 (0 : OsalU8)).length := rfl
    rw [← holds_unique lengths held]
    constructor
    · intro zero i inside
      rw [List.getElem_replicate]
      exact zero i (by simpa using inside)
    · intro also i inside
      rw [also i inside, List.getElem_replicate]
  have numbers : addressOf now = List.replicate 6 0 ↔
      2 ^ 16 ∣ secondsOf now ∧ 2 ^ 16 ∣ microsecondsOf now := by
    have blank : List.replicate 6 0 = addressOf ⟨0, 0⟩ := by decide
    have nothing : secondsOf ⟨0, 0⟩ = 0 ∧ microsecondsOf ⟨0, 0⟩ = 0 := by decide
    rw [blank, addressOf_eq_iff, nothing.1, nothing.2]
    constructor
    · rintro ⟨seconds, microseconds⟩
      have even : secondsOf now % 2 ≠ 1 := fun odd => by
        have other := microsecondsOf_odd odd
        omega
      omega
    · rintro ⟨seconds, microseconds⟩
      omega
  refine ⟨zeros.trans numbers, fun divides => ?_⟩
  rw [zeros, numbers]
  exact ⟨divides.mul_left _, divides.mul_left _⟩

/-- Microsecond 65536 of a second. -/
theorem random_ether_addr_zero_iff_microsecond :
    ∀ i < 6, (oalRandomEtherAddr ⟨1700000000, 65536⟩ ⟨fun _ => 0xa5, []⟩ 6).byte (i : Nat) = 0 :=
  (random_ether_addr_zero_iff ⟨1700000000, 65536⟩ ⟨fun _ => 0xa5, []⟩ 6).2 (by decide)

end Ws63Rf.RandomEtherAddr
