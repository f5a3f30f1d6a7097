import Mathlib.Data.BitVec
import Ws63Rf.Assignments

/-! A memory of bytes, and the little-endian words in it. A word at an address
is the bits that follow from there, so that loads and stores of every width
are about the same bits, and a store assigns to some of them. -/
namespace Ws63Rf.ByteMemory
open Assignments

abbrev Memory := Nat → BitVec 8

/-- The bits of a memory in order, from the lowest of the byte at address 0. -/
def bitAt (mem : Memory) (place : Nat) : Bool := (mem (place / 8)).getLsbD (place % 8)

/-- A memory is its bits. -/
theorem eq_of_bitAt {mem mem' : Memory} (same : ∀ place, bitAt mem place = bitAt mem' place) :
    mem = mem' := by
  funext addr
  apply BitVec.eq_of_getLsbD_eq
  intro i inside
  have bit := same (8 * addr + i)
  rw [bitAt, bitAt] at bit
  rwa [show (8 * addr + i) / 8 = addr by omega, show (8 * addr + i) % 8 = i by omega] at bit

/-- The word with these bits, the lowest first. -/
def ofBits (w : Nat) (bits : Nat → Bool) : BitVec w :=
  (BitVec.ofBoolListLE ((List.range w).map bits)).setWidth w

theorem getLsbD_ofBits {w i : Nat} (bits : Nat → Bool) (inside : i < w) :
    (ofBits w bits).getLsbD i = bits i := by
  rw [ofBits, BitVec.getLsbD_setWidth, BitVec.getLsbD_ofBoolListLE]
  simp [inside]

/-- The little-endian word at an address. -/
def load (w addr : Nat) (mem : Memory) : BitVec w := ofBits w fun i => bitAt mem (8 * addr + i)

/-- The memory after a word is stored at an address, byte by byte. -/
def store {w : Nat} (addr : Nat) (word : BitVec w) (mem : Memory) : Memory := fun a =>
  if addr ≤ a ∧ a < addr + w / 8 then word.extractLsb' (8 * (a - addr)) 8 else mem a

section Words
variable {w addr : Nat}

theorem getLsbD_load (mem : Memory) {i : Nat} (inside : i < w) :
    (load w addr mem).getLsbD i = bitAt mem (8 * addr + i) :=
  getLsbD_ofBits _ inside

/-- The byte at the address is the lowest of the word. -/
theorem toNat_load_byte (w addr : Nat) (mem : Memory) : (load (8 + w) addr mem).toNat =
    2 ^ 8 * (load w (addr + 1) mem).toNat + (mem addr).toNat := by
  apply Nat.eq_of_testBit_eq
  intro i
  rw [Nat.testBit_two_pow_mul_add _ (mem addr).isLt, BitVec.testBit_toNat, BitVec.testBit_toNat,
    BitVec.testBit_toNat]
  by_cases inWord : i < 8 + w
  · rw [getLsbD_load mem inWord, bitAt]
    split
    · rw [show (8 * addr + i) / 8 = addr by omega, show (8 * addr + i) % 8 = i by omega]
    · rw [getLsbD_load mem (by omega), bitAt, show 8 * (addr + 1) + (i - 8) = 8 * addr + i by omega]
  · rw [BitVec.getLsbD_of_ge _ i (by omega), if_neg (by omega), BitVec.getLsbD_of_ge _ _ (by omega)]

theorem bitAt_store (whole : 8 ∣ w) (word : BitVec w) (mem : Memory) (place : Nat) :
    bitAt (store addr word mem) place =
      if 8 * addr ≤ place ∧ place < 8 * addr + w then word.getLsbD (place - 8 * addr)
      else bitAt mem place := by
  have here : (addr ≤ place / 8 ∧ place / 8 < addr + w / 8) ↔
      (8 * addr ≤ place ∧ place < 8 * addr + w) := by omega
  rw [bitAt, store]
  by_cases inside : 8 * addr ≤ place ∧ place < 8 * addr + w
  · rw [if_pos (here.mpr inside), if_pos inside, BitVec.getLsbD_extractLsb',
      show 8 * (place / 8 - addr) + place % 8 = place - 8 * addr by omega]
    simp [Nat.mod_lt]
  · rw [if_neg (fun stored => inside (here.mp stored)), if_neg inside, bitAt]

/-- A store of a word assigns to bits of that word only. -/
theorem store_assigns (whole : 8 ∣ w) {after : BitVec w} {step : Assignment Nat Bool}
    {mem : Memory} (outside : ∀ place, ¬ (8 * addr ≤ place ∧ place < 8 * addr + w) →
      step place = none)
    (inside : ∀ i < w, after.getLsbD i = step.apply (bitAt mem) (8 * addr + i)) :
    bitAt (store addr after mem) = step.apply (bitAt mem) := by
  funext place
  rw [bitAt_store whole]
  by_cases here : 8 * addr ≤ place ∧ place < 8 * addr + w
  · rw [if_pos here, inside _ (by omega), Nat.add_sub_cancel' here.1]
  · rw [if_neg here, Assignment.apply, outside place here, Option.getD_none]

end Words

/-! ## Assignments to some bits of a word -/

section Fields
variable {bits start : Nat}

/-- The bits from `start` on receive those of the field. -/
def fieldAt (start : Nat) (field : BitVec bits) : Assignment Nat Bool := fun place =>
  if start ≤ place ∧ place < start + bits then some (field.getLsbD (place - start)) else none

/-- The bits in a mask receive this one. -/
def maskedAt (start : Nat) (mask : BitVec bits) (bit : Bool) : Assignment Nat Bool := fun place =>
  if start ≤ place ∧ mask.getLsbD (place - start) = true then some bit else none

theorem fieldAt_inside {field : BitVec bits} {i : Nat} (inside : i < bits) :
    fieldAt start field (start + i) = some (field.getLsbD i) := by
  rw [fieldAt, if_pos (by omega), Nat.add_sub_cancel_left]

theorem fieldAt_outside {field : BitVec bits} {place : Nat}
    (outside : place < start ∨ start + bits ≤ place) : fieldAt start field place = none :=
  if_neg (by omega)

/-- Fields that do not meet are assigned to independently. -/
theorem fieldAt_apart {bits' start' : Nat} {field : BitVec bits} {field' : BitVec bits'}
    (apart : start + bits ≤ start' ∨ start' + bits' ≤ start) :
    Apart (fieldAt start field) (fieldAt start' field') := by
  intro place
  by_cases here : start ≤ place ∧ place < start + bits
  · exact .inr (fieldAt_outside (by omega))
  · exact .inl (fieldAt_outside (by omega))

theorem maskedAt_inside {mask : BitVec bits} {bit : Bool} {i : Nat} :
    maskedAt start mask bit (start + i) = if mask.getLsbD i = true then some bit else none := by
  rw [maskedAt, Nat.add_sub_cancel_left]
  simp

theorem maskedAt_outside {mask : BitVec bits} {bit : Bool} {place : Nat}
    (outside : ¬ (start ≤ place ∧ place < start + bits)) : maskedAt start mask bit place = none := by
  apply if_neg
  rintro ⟨above, inMask⟩
  exact outside ⟨above, by have := BitVec.lt_of_getLsbD inMask; omega⟩

end Fields

end Ws63Rf.ByteMemory
