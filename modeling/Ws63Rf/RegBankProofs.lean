import Ws63Rf.Conversions
import Ws63Rf.OalUtil
import Ws63Rf.RegFieldProofs

/-! Runs of the register macros on a memory. A macro assigns to bits of the
register at its address, whichever family it belongs to, so every bit of the
memory holds what was assigned to it last, and a field reads those bits. -/

/-! ## The other macros of the families -/

namespace Ws63Rf.RegFieldProofs.Family
open CExpr Expr TdBase ByteMemory Conversions

/-- The type of the registers. -/
abbrev type (family : Family) : IntType := ⟨family.width, false⟩

def readVal : (family : Family) → Nat → Memory → BitVec family.width
  | reg32 => uapiRegReadVal32
  | reg16 => uapiRegReadVal16
  | reg8 => uapiRegReadVal8

def write : (family : Family) → BitVec family.width → Expr → Except Undefined (BitVec family.width)
  | reg32 => uapiRegWrite32
  | reg16 => uapiRegWrite16
  | reg8 => uapiRegWrite8

def setbit : (family : Family) → BitVec family.width → Expr → Except Undefined (BitVec family.width)
  | reg32 => uapiRegSetbit
  | reg16 => uapiRegSetbit16
  | reg8 => uapiRegSetbit8

def clrbit : (family : Family) → BitVec family.width → Expr → Except Undefined (BitVec family.width)
  | reg32 => uapiRegClrbit
  | reg16 => uapiRegClrbit16
  | reg8 => uapiRegClrbit8

section Registers
variable {family : Family} {pos : Nat}

theorem whole_bytes (family : Family) : 8 ∣ family.width := by
  cases family <;> decide

theorem write_stored (family : Family) (reg : BitVec family.width) (val : Value) :
    family.write reg (value val) = .ok (val.as family.type) := by
  cases family <;> rfl

/-- `(t)1 << pos`. -/
theorem stored_bit (inside : pos < 32) : stored family.type ((1 : Expr).cast family.type <<< int pos) =
    .ok (BitVec.twoPow family.width pos) := by
  apply narrow_shiftLeft family.width_le inside
  rw [stored_cast (Nat.le_refl family.width)]
  exact congrArg Except.ok (as_one family.width)

theorem setbit_stored (inside : pos < 32) (reg : BitVec family.width) :
    family.setbit reg (int pos) = .ok (reg ||| BitVec.twoPow family.width pos) := by
  have stores := narrow_or family.width_le (stored_word reg) (stored_bit inside)
  cases family <;> exact stores

theorem clrbit_stored (inside : pos < 32) (reg : BitVec family.width) :
    family.clrbit reg (int pos) = .ok (reg &&& ~~~BitVec.twoPow family.width pos) := by
  have stores := narrow_and family.width_le (stored_word reg)
    (narrow_complement family.width_le (stored_bit inside))
  cases family <;> exact stores

end Registers

end Ws63Rf.RegFieldProofs.Family

namespace Ws63Rf.RegBankProofs
open CExpr Expr TdBase OalUtil Masks Assignments ByteMemory Conversions RegFieldProofs

theorem setbitmsk_stored (reg : Content .unsignedInt) (msk : Value) :
    uapiRegSetbitmsk reg (value msk) = .ok (reg ||| msk.as .unsignedInt) :=
  narrow_or (Nat.le_refl 32) (stored_word reg) (stored_value .unsignedInt msk)

theorem clrbitmsk_stored (reg : Content .unsignedInt) (msk : Value) :
    uapiRegClrbitmsk reg (value msk) = .ok (reg &&& ~~~msk.as .unsignedInt) :=
  narrow_and (Nat.le_refl 32) (stored_word reg)
    (narrow_complement (Nat.le_refl 32) (stored_value .unsignedInt msk))

/-! ## Commands -/

/-- A use of a register macro: the family, the address and the arguments. -/
inductive Command where
  | write (family : Family) (addr : Nat) (val : Value)
  | setbits (family : Family) (addr pos bits : Nat) (val : Value)
  | clrbits (family : Family) (addr pos bits : Nat)
  | setbit (family : Family) (addr pos : Nat)
  | clrbit (family : Family) (addr pos : Nat)
  | setbitmsk (addr : Nat) (msk : Value)
  | clrbitmsk (addr : Nat) (msk : Value)
  | setU32PtrVal (ptr offset : Nat) (val : Value)
  | oalWrite32 (addr : Nat) (val : Value)
  | oalWrite16 (addr : Nat) (val : Value)

namespace Command

def perform : Command → Memory → Except Undefined Memory
  | write family addr val => regAssign family.type addr fun reg => family.write reg (value val)
  | setbits family addr pos bits val =>
    regAssign family.type addr fun reg => family.setbits reg (int pos) (int bits) (value val)
  | clrbits family addr pos bits =>
    regAssign family.type addr fun reg => family.clrbits reg (int pos) (int bits)
  | setbit family addr pos => regAssign family.type addr fun reg => family.setbit reg (int pos)
  | clrbit family addr pos => regAssign family.type addr fun reg => family.clrbit reg (int pos)
  | setbitmsk addr msk => regAssign .unsignedInt addr fun reg => uapiRegSetbitmsk reg (value msk)
  | clrbitmsk addr msk => regAssign .unsignedInt addr fun reg => uapiRegClrbitmsk reg (value msk)
  | setU32PtrVal ptr offset val => uapiSetU32PtrVal ptr offset (value val)
  | oalWrite32 addr val => regAssign .unsignedInt addr fun reg => oalRegWrite32 reg (value val)
  | oalWrite16 addr val => regAssign .unsignedShort addr fun reg => oalRegWrite16 reg (value val)

/-- Fields lie in their register and are less than the whole of a 32-bit one. -/
def Valid : Command → Prop
  | setbits family _ pos bits _ | clrbits family _ pos bits =>
    1 ≤ bits ∧ pos + bits ≤ family.width ∧ bits < 32
  | setbit family _ pos | clrbit family _ pos => pos < family.width
  | _ => True

/-- What the macro is for: the bits that it assigns to. -/
def assign : Command → Assignment Nat Bool
  | write family addr val => fieldAt (8 * addr) (val.as family.type)
  | setbits _ addr pos bits val => fieldAt (8 * addr + pos) (val.as ⟨bits, false⟩)
  | clrbits _ addr pos bits => fieldAt (8 * addr + pos) (0 : BitVec bits)
  | setbit _ addr pos => fieldAt (8 * addr + pos) 1#1
  | clrbit _ addr pos => fieldAt (8 * addr + pos) 0#1
  | setbitmsk addr msk => maskedAt (8 * addr) (msk.as .unsignedInt) true
  | clrbitmsk addr msk => maskedAt (8 * addr) (msk.as .unsignedInt) false
  | setU32PtrVal ptr offset val => fieldAt (8 * (ptr + offset)) (val.as .unsignedInt)
  | oalWrite32 addr val => fieldAt (8 * addr) (val.as .unsignedInt)
  | oalWrite16 addr val => fieldAt (8 * addr) (val.as .unsignedShort)

end Command

/-! ## One command -/

section Step
variable {w addr pos bits : Nat} {signed : Bool} {after : BitVec w} {mem : Memory}

/-- What the macro makes of a register, put back into memory. -/
theorem regAssign_assigns (content : BitVec w → Except Undefined (BitVec w)) (whole : 8 ∣ w)
    {step : Assignment Nat Bool}
    (outside : ∀ place, ¬ (8 * addr ≤ place ∧ place < 8 * addr + w) → step place = none)
    (evaluated : content (load w addr mem) = .ok after)
    (inside : ∀ i < w, after.getLsbD i = (step (8 * addr + i)).getD ((load w addr mem).getLsbD i)) :
    ∃ mem', regAssign ⟨w, signed⟩ addr content mem = .ok mem' ∧
      bitAt mem' = step.apply (bitAt mem) := by
  refine ⟨store addr after mem, congrArg (Except.map _) evaluated, ?_⟩
  apply store_assigns whole outside
  intro i inWord
  rw [inside i inWord, getLsbD_load mem inWord]
  rfl

theorem word_assigns (content : BitVec w → Except Undefined (BitVec w)) (whole : 8 ∣ w)
    (evaluated : content (load w addr mem) = .ok after) :
    ∃ mem', regAssign ⟨w, signed⟩ addr content mem = .ok mem' ∧
      bitAt mem' = (fieldAt (8 * addr) after).apply (bitAt mem) := by
  apply regAssign_assigns content whole (fun place outside => fieldAt_outside (by omega)) evaluated
  intro i inWord
  rw [fieldAt_inside inWord, Option.getD_some]

theorem field_assigns (content : BitVec w → Except Undefined (BitVec w)) (whole : 8 ∣ w)
    {field : BitVec bits} (fits : pos + bits ≤ w)
    (evaluated : content (load w addr mem) = .ok after)
    (updated : Updated pos field (load w addr mem) after) :
    ∃ mem', regAssign ⟨w, signed⟩ addr content mem = .ok mem' ∧
      bitAt mem' = (fieldAt (8 * addr + pos) field).apply (bitAt mem) := by
  apply regAssign_assigns content whole (fun place outside => fieldAt_outside (by omega)) evaluated
  intro i inWord
  by_cases inField : pos ≤ i ∧ i < pos + bits
  · obtain ⟨k, rfl⟩ := Nat.exists_eq_add_of_le inField.1
    rw [← Nat.add_assoc, fieldAt_inside (by omega), Option.getD_some]
    exact updated.inside k (by omega)
  · rw [fieldAt_outside (by omega), Option.getD_none]
    exact updated.outside i (by omega)

/-- A mask selects bits from the whole word. -/
theorem mask_assigns (content : BitVec w → Except Undefined (BitVec w)) (whole : 8 ∣ w)
    {mask : BitVec w} {bit : Bool} (evaluated : content (load w addr mem) = .ok after)
    (inside : ∀ i < w, after.getLsbD i = if mask.getLsbD i then bit else (load w addr mem).getLsbD i) :
    ∃ mem', regAssign ⟨w, signed⟩ addr content mem = .ok mem' ∧
      bitAt mem' = (maskedAt (8 * addr) mask bit).apply (bitAt mem) := by
  apply regAssign_assigns content whole (fun place outside => maskedAt_outside outside) evaluated
  intro i inWord
  rw [inside i inWord, maskedAt_inside]
  split <;> rfl

/-- A single bit is a field of its own. -/
theorem updated_setbit (inside : pos < w) (reg : BitVec w) :
    Updated pos 1#1 reg (reg ||| BitVec.twoPow w pos) := by
  constructor
  · intro i below
    obtain rfl : i = 0 := by omega
    simp [inside]
  · intro i outside
    have other : pos ≠ i := by omega
    simp [other]

theorem updated_clrbit (inside : pos < w) (reg : BitVec w) :
    Updated pos 0#1 reg (reg &&& ~~~BitVec.twoPow w pos) := by
  constructor
  · intro i below
    obtain rfl : i = 0 := by omega
    simp [inside]
  · intro i outside
    have other : i ≠ pos := by omega
    by_cases inWord : i < w
    · simp [other, inWord]
    · simp [BitVec.getLsbD_of_ge reg i (Nat.le_of_not_lt inWord)]

end Step

/-- Every valid command is defined, and does to the memory what it is for. -/
theorem perform_assigns {command : Command} (valid : command.Valid) (mem : Memory) :
    ∃ mem', command.perform mem = .ok mem' ∧ bitAt mem' = command.assign.apply (bitAt mem) := by
  cases command with
  | write family addr val =>
    exact word_assigns (fun reg => family.write reg (value val)) family.whole_bytes
      (family.write_stored _ val)
  | setbits family addr pos bits val =>
    obtain ⟨nonempty, fits, inside⟩ := valid
    obtain ⟨after, evaluated, updated⟩ := setbits_updates nonempty fits inside
      (load family.width addr mem) val
    exact field_assigns (fun reg => family.setbits reg (int pos) (int bits) (value val))
      family.whole_bytes fits evaluated updated
  | clrbits family addr pos bits =>
    obtain ⟨nonempty, fits, inside⟩ := valid
    obtain ⟨after, evaluated, updated⟩ := clrbits_updates nonempty fits inside
      (load family.width addr mem)
    exact field_assigns (fun reg => family.clrbits reg (int pos) (int bits)) family.whole_bytes fits
      evaluated updated
  | setbit family addr pos =>
    have inside : pos < family.width := valid
    exact field_assigns (fun reg => family.setbit reg (int pos)) family.whole_bytes inside
      (Family.setbit_stored (inside.trans_le family.width_le) _) (updated_setbit inside _)
  | clrbit family addr pos =>
    have inside : pos < family.width := valid
    exact field_assigns (fun reg => family.clrbit reg (int pos)) family.whole_bytes inside
      (Family.clrbit_stored (inside.trans_le family.width_le) _) (updated_clrbit inside _)
  | setbitmsk addr msk =>
    apply mask_assigns (fun reg => uapiRegSetbitmsk reg (value msk)) (by decide)
      (setbitmsk_stored _ msk)
    intro i inWord
    rw [BitVec.getLsbD_or]
    cases (msk.as .unsignedInt).getLsbD i <;> simp
  | clrbitmsk addr msk =>
    apply mask_assigns (fun reg => uapiRegClrbitmsk reg (value msk)) (by decide)
      (clrbitmsk_stored _ msk)
    intro i inWord
    rw [BitVec.getLsbD_and, BitVec.getLsbD_not, decide_eq_true inWord]
    cases (msk.as .unsignedInt).getLsbD i <;> simp
  | setU32PtrVal ptr offset val =>
    exact word_assigns (fun _ => stored .unsignedInt (value val)) (by decide)
      (stored_value .unsignedInt val)
  | oalWrite32 addr val =>
    exact word_assigns (fun reg => oalRegWrite32 reg (value val)) (by decide)
      (stored_value .unsignedInt val)
  | oalWrite16 addr val =>
    exact word_assigns (fun reg => oalRegWrite16 reg (value val)) (by decide)
      (stored_value .unsignedShort val)

/-! ## Runs of commands -/

def run (commands : List Command) (mem : Memory) : Except Undefined Memory :=
  commands.foldlM (fun mem command => command.perform mem) mem

theorem run_cons (command : Command) (commands : List Command) (mem : Memory) :
    run (command :: commands) mem = command.perform mem >>= run commands :=
  List.foldlM_cons

/-- A run settles what its commands assign. -/
theorem run_settles {commands : List Command} (valid : ∀ command ∈ commands, command.Valid)
    (mem : Memory) : ∃ mem', run commands mem = .ok mem' ∧
      bitAt mem' = settled (commands.map Command.assign) (bitAt mem) := by
  induction commands generalizing mem with
  | nil => exact ⟨mem, rfl, rfl⟩
  | cons command commands ih =>
    obtain ⟨once, performed, assigned⟩ := perform_assigns (valid command (by simp)) mem
    obtain ⟨mem', rest, settles⟩ := ih (fun other member => valid other (by simp [member])) once
    refine ⟨mem', ?_, ?_⟩
    · rw [run_cons, performed]
      exact rest
    · rw [settles, assigned]
      rfl

/-- The last command that assigns to a bit decides it. -/
def lastAssigned (commands : List Command) (mem : Memory) (place : Nat) : Bool :=
  (commands.reverse.findSome? fun command => command.assign place).getD (bitAt mem place)

/-- A field reads the bits that follow from its position. -/
theorem getbits_at (family : Family) {pos bits : Nat} (nonempty : 1 ≤ bits)
    (fits : pos + bits ≤ family.width) (inside : bits < 32) (addr : Nat) (mem : Memory) :
    Denotes (family.getbits (regReadVal family.type addr mem) (int pos) (int bits))
      (ofBits bits fun i => bitAt mem (8 * addr + pos + i)).toNat := by
  have denoted := getbits_denotes nonempty fits inside (load family.width addr mem)
  have same : (load family.width addr mem).extractLsb' pos bits =
      ofBits bits fun i => bitAt mem (8 * addr + pos + i) := by
    apply BitVec.eq_of_getLsbD_eq
    intro i inField
    rw [getLsbD_ofBits _ inField, BitVec.getLsbD_extractLsb', getLsbD_load mem (by omega),
      decide_eq_true inField, Bool.true_and, Nat.add_assoc]
  rwa [same] at denoted

/-- Every macro that reads makes up what it reads of these bits. -/
structure ReadsBack (held : Nat → Bool) (mem : Memory) : Prop where
  registers : ∀ (family : Family) (addr : Nat),
    family.readVal addr mem = ofBits family.width fun i => held (8 * addr + i)
  oal32 : ∀ addr, oalRegRead32 addr mem = ofBits 32 fun i => held (8 * addr + i)
  oal16 : ∀ addr, oalRegRead16 addr mem = ofBits 16 fun i => held (8 * addr + i)
  pointers : ∀ ptr offset, uapiGetU32PtrVal ptr offset mem =
    lvalue .unsignedInt (ofBits 32 fun i => held (8 * (ptr + offset) + i))
  fields : ∀ (family : Family) (addr pos bits : Nat), 1 ≤ bits → pos + bits ≤ family.width → bits < 32 →
    Denotes (family.getbits (family.readVal addr mem) (int pos) (int bits))
      (ofBits bits fun i => held (8 * addr + pos + i)).toNat

theorem reads_back (mem : Memory) : ReadsBack (bitAt mem) mem where
  registers family addr := by cases family <;> rfl
  oal32 addr := rfl
  oal16 addr := rfl
  pointers ptr offset := rfl
  fields family addr pos bits nonempty fits inside := by
    cases family with
    | reg32 => exact getbits_at .reg32 nonempty fits inside addr mem
    | reg16 => exact getbits_at .reg16 nonempty fits inside addr mem
    | reg8 => exact getbits_at .reg8 nonempty fits inside addr mem

/-- After any run of the macros every bit of the memory is what was assigned to
it last, and so registers and fields that are read are made up of those bits. -/
theorem run_holds_last (commands : List Command) (valid : ∀ command ∈ commands, command.Valid)
    (mem : Memory) : ∃ mem', run commands mem = .ok mem' ∧
      (∀ place, bitAt mem' place = lastAssigned commands mem place) ∧
      ReadsBack (lastAssigned commands mem) mem' := by
  obtain ⟨mem', performed, settles⟩ := run_settles valid mem
  have held : ∀ place, bitAt mem' place = lastAssigned commands mem place := by
    intro place
    rw [settles, settled_eq, ← List.map_reverse, List.findSome?_map]
    rfl
  refine ⟨mem', performed, held, ?_⟩
  rw [← funext held]
  exact reads_back mem'

/-- A nibble stored through the byte family, in a word read by halves and whole. -/
theorem run_holds_last_nibble : ∃ mem',
    run [.write .reg32 8 ⟨.int, 0x12345678#32⟩, .setbits .reg8 9 4 4 ⟨.int, 0x3A#32⟩] (fun _ => 0) =
      .ok mem' ∧
    Denotes (uapiRegGetbits16 (uapiRegReadVal16 8 mem') (int 0) (int 16)) 0xA678 ∧
    uapiGetU32PtrVal 4 4 mem' = lvalue .unsignedInt 0x1234A678#32 := by
  obtain ⟨mem', performed, -, reads⟩ := run_holds_last
    [.write .reg32 8 ⟨.int, 0x12345678#32⟩, .setbits .reg8 9 4 4 ⟨.int, 0x3A#32⟩]
    (by simp [Command.Valid, Family.width]) (fun _ => 0)
  refine ⟨mem', performed, reads.fields .reg16 8 0 16 (by decide) (by decide) (by decide), ?_⟩
  rw [reads.pointers]
  rfl

/-- Commands that assign to no common bit may be reordered at will. -/
theorem run_perm {commands commands' : List Command} (valid : ∀ command ∈ commands, command.Valid)
    (apart : commands.Pairwise fun first second => Apart first.assign second.assign)
    (reordered : commands.Perm commands') (mem : Memory) : run commands mem = run commands' mem := by
  have valid' : ∀ command ∈ commands', command.Valid :=
    fun command member => valid command (reordered.mem_iff.mpr member)
  obtain ⟨one, performed, settles⟩ := run_settles valid mem
  obtain ⟨other, performed', settles'⟩ := run_settles valid' mem
  have same : one = other := by
    apply eq_of_bitAt
    intro place
    rw [settles, settles', settled_perm (List.pairwise_map.mpr apart) (reordered.map _)]
  rw [performed, performed', same]

/-- A bit and a byte of one register, set and cleared in either order. -/
theorem run_perm_bit : run [.setbit .reg32 4 3, .clrbits .reg8 5 0 8] (fun _ => 0xFF#8) =
    run [.clrbits .reg8 5 0 8, .setbit .reg32 4 3] fun _ => 0xFF#8 := by
  apply run_perm
  · simp [Command.Valid, Family.width]
  · simp only [List.pairwise_cons, List.mem_singleton, List.not_mem_nil, false_imp_iff, implies_true,
      List.Pairwise.nil, and_true, forall_eq]
    exact fieldAt_apart (.inl (by decide))
  · exact List.Perm.swap _ _ _

/-! ## Narrow registers in wide ones -/

/-- The register does not reach over the end of an aligned word. -/
def Aligned (family : Family) (addr : Nat) : Prop := 8 * (addr % 4) + family.width ≤ 32

namespace Command

def InWord : Command → Prop
  | write family addr _ | setbits family addr _ _ _ | clrbits family addr _ _
  | setbit family addr _ | clrbit family addr _ => Aligned family addr
  | oalWrite16 addr _ => Aligned .reg16 addr
  | _ => True

/-- The same access by the 32-bit macros, to the word around the register. -/
def widened : Command → Command
  | write .reg32 addr val => write .reg32 addr val
  | write family addr val =>
    setbits .reg32 (addr - addr % 4) (8 * (addr % 4)) family.width val
  | setbits _ addr pos bits val =>
    setbits .reg32 (addr - addr % 4) (8 * (addr % 4) + pos) bits val
  | clrbits _ addr pos bits => clrbits .reg32 (addr - addr % 4) (8 * (addr % 4) + pos) bits
  | setbit _ addr pos => setbit .reg32 (addr - addr % 4) (8 * (addr % 4) + pos)
  | clrbit _ addr pos => clrbit .reg32 (addr - addr % 4) (8 * (addr % 4) + pos)
  | oalWrite16 addr val => setbits .reg32 (addr - addr % 4) (8 * (addr % 4)) 16 val
  | command => command

end Command

/-- A place in a register is the same place in the word around it. -/
theorem place_widened (addr pos : Nat) :
    8 * (addr - addr % 4) + (8 * (addr % 4) + pos) = 8 * addr + pos := by
  omega

theorem widened_valid {command : Command} (valid : command.Valid) (within : command.InWord) :
    command.widened.Valid := by
  cases command with
  | write family addr val =>
    have aligned : 8 * (addr % 4) + family.width ≤ 32 := within
    cases family with
    | reg32 => trivial
    | reg16 => exact ⟨by decide, aligned, by decide⟩
    | reg8 => exact ⟨by decide, aligned, by decide⟩
  | setbits family addr pos bits val =>
    obtain ⟨nonempty, fits, inside⟩ := valid
    have aligned : 8 * (addr % 4) + family.width ≤ 32 := within
    exact ⟨nonempty, show _ ≤ 32 by omega, inside⟩
  | clrbits family addr pos bits =>
    obtain ⟨nonempty, fits, inside⟩ := valid
    have aligned : 8 * (addr % 4) + family.width ≤ 32 := within
    exact ⟨nonempty, show _ ≤ 32 by omega, inside⟩
  | setbit family addr pos | clrbit family addr pos =>
    have inside : pos < family.width := valid
    have aligned : 8 * (addr % 4) + family.width ≤ 32 := within
    exact show _ < 32 by omega
  | setbitmsk addr msk => trivial
  | clrbitmsk addr msk => trivial
  | setU32PtrVal ptr offset val => trivial
  | oalWrite32 addr val => trivial
  | oalWrite16 addr val => exact ⟨by decide, within, by decide⟩

theorem widened_assign (command : Command) : command.widened.assign = command.assign := by
  cases command with
  | write family addr val =>
    cases family with
    | reg32 => rfl
    | reg16 => exact congrArg (fieldAt · (val.as ⟨16, false⟩)) (place_widened addr 0)
    | reg8 => exact congrArg (fieldAt · (val.as ⟨8, false⟩)) (place_widened addr 0)
  | setbits family addr pos bits val =>
    exact congrArg (fieldAt · (val.as ⟨bits, false⟩)) (place_widened addr pos)
  | clrbits family addr pos bits =>
    exact congrArg (fieldAt · (0 : BitVec bits)) (place_widened addr pos)
  | setbit family addr pos => exact congrArg (fieldAt · 1#1) (place_widened addr pos)
  | clrbit family addr pos => exact congrArg (fieldAt · 0#1) (place_widened addr pos)
  | setbitmsk addr msk => rfl
  | clrbitmsk addr msk => rfl
  | setU32PtrVal ptr offset val => rfl
  | oalWrite32 addr val => rfl
  | oalWrite16 addr val =>
    exact congrArg (fieldAt · (val.as ⟨16, false⟩)) (place_widened addr 0)

/-- A run that accesses bytes and halfwords does what the 32-bit macros do to
the words around them, and their fields are read alike. -/
theorem run_widened (commands : List Command) (valid : ∀ command ∈ commands, command.Valid)
    (within : ∀ command ∈ commands, command.InWord) (mem : Memory) :
    ∃ mem', run commands mem = .ok mem' ∧ run (commands.map Command.widened) mem = .ok mem' ∧
      ∀ (family : Family) (addr pos bits : Nat), Aligned family addr → 1 ≤ bits →
        pos + bits ≤ family.width → bits < 32 → ∃ number : Int,
          Denotes (family.getbits (regReadVal family.type addr mem') (int pos) (int bits)) number ∧
          Denotes (uapiRegGetbits (uapiRegReadVal32 (addr - addr % 4) mem')
            (int (8 * (addr % 4) + pos)) (int bits)) number := by
  have valid' : ∀ command ∈ commands.map Command.widened, command.Valid := by
    intro command member
    obtain ⟨narrow, member', rfl⟩ := List.mem_map.mp member
    exact widened_valid (valid narrow member') (within narrow member')
  have assigns : (commands.map Command.widened).map Command.assign = commands.map Command.assign := by
    rw [List.map_map]
    exact congrFun (congrArg List.map (funext widened_assign)) commands
  obtain ⟨mem', performed, settles⟩ := run_settles valid mem
  obtain ⟨wide, performed', settles'⟩ := run_settles valid' mem
  have same : wide = mem' := by
    apply eq_of_bitAt
    intro place
    rw [settles, settles', assigns]
  refine ⟨mem', performed, same ▸ performed', ?_⟩
  intro family addr pos bits aligned nonempty fits inside
  have room : 8 * (addr % 4) + pos + bits ≤ 32 := by
    rw [Aligned] at aligned
    omega
  refine ⟨_, getbits_at family nonempty fits inside addr mem', ?_⟩
  have read := getbits_at .reg32 nonempty room inside (addr - addr % 4) mem'
  rwa [place_widened] at read

/-- The upper half of the word at 8. -/
theorem run_widened_half : ∃ mem',
    run [.write .reg16 10 ⟨.int, 0xBEEF#32⟩, .setbit .reg8 9 7] (fun _ => 0) = .ok mem' ∧
    run [.setbits .reg32 8 16 16 ⟨.int, 0xBEEF#32⟩, .setbit .reg32 8 15] (fun _ => 0) = .ok mem' := by
  obtain ⟨mem', performed, widened, -⟩ := run_widened
    [.write .reg16 10 ⟨.int, 0xBEEF#32⟩, .setbit .reg8 9 7] (by simp [Command.Valid, Family.width])
    (by simp [Command.InWord, Aligned, Family.width]) (fun _ => 0)
  exact ⟨mem', performed, widened⟩

end Ws63Rf.RegBankProofs
