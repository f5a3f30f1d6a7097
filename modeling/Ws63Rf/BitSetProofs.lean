import Ws63Rf.OalUtil
import Mathlib.Data.Fintype.Basic
import Mathlib.Order.SymmDiff

/-! A 32-bit word under the single bit macros of `td_base.h`, against the set of
its positions that hold a one. -/
namespace Ws63Rf.BitSetProofs
open CExpr Expr TdBase OalUtil Finset

/-! ## Words as sets -/

inductive Operation where
  | set (n : Fin 32)
  | clr (n : Fin 32)
  | switch (n : Fin 32)

/-- The macro that carries an operation out. -/
def Operation.perform (content : Content tdU32) : Operation → Except Undefined (Content tdU32)
  | .set n => uapiSetBitI tdU32 content (int n)
  | .clr n => uapiClrBitI tdU32 content (int n)
  | .switch n => uapiSwitchBitI tdU32 content (int n)

/-- What an operation means for the set. -/
def Operation.apply (members : Finset (Fin 32)) : Operation → Finset (Fin 32)
  | .set n => insert n members
  | .clr n => members.erase n
  | .switch n => symmDiff members {n}

def run (content : Content tdU32) (operations : List Operation) : Except Undefined (Content tdU32) :=
  operations.foldlM Operation.perform content

/-- The positions of a word that hold a one. -/
def members (content : BitVec 32) : Finset (Fin 32) := {n | content.getLsbD n}

@[simp] theorem mem_members {content : BitVec 32} {n : Fin 32} :
    n ∈ members content ↔ content.getLsbD n = true := by
  simp [members]

/-! ## One operation -/

/-- The constant that selects a position. -/
theorem one_shifted (n : Fin 32) : (1 <<< int n : Expr) = value ⟨.int, BitVec.twoPow 32 n⟩ :=
  shift_defined rfl (toInt_int (by omega)) n.isLt

/-- The complement of an `int` is stored in an unsigned word as it is. -/
theorem complement_shifted (n : Fin 32) :
    (~~~(1 <<< int n) : Expr) = value ⟨.int, ~~~BitVec.twoPow 32 n⟩ := by
  rw [one_shifted]
  refine (complement_promoted rfl).trans ?_
  exact congrArg (fun kept => value ⟨.int, ~~~kept⟩) (as_same_width 32 true true _)

/-- The word and an `int` are combined bit by bit. -/
theorem stored_combined (f : (t : IntType) → BitVec t.bits → BitVec t.bits → BitVec t.bits)
    (content selector : BitVec 32) :
    stored tdU32 (arithmetic (fun t a b => .ok (f t a b)) (lvalue tdU32 content)
      (value ⟨.int, selector⟩)) = .ok (f tdU32 content selector) := by
  have combined := arithmetic_int (fun t a b => .ok (f t a b)) content selector
  exact (congrArg (stored tdU32) combined).trans (stored_word _)

theorem set_performed (content : BitVec 32) (n : Fin 32) :
    uapiSetBitI tdU32 content (int n) = .ok (content ||| BitVec.twoPow 32 n) := by
  change stored tdU32 (lvalue tdU32 content ||| (1 <<< int n)) = _
  rw [one_shifted]
  exact stored_combined (fun _ a b => a ||| b) content _

theorem clr_performed (content : BitVec 32) (n : Fin 32) :
    uapiClrBitI tdU32 content (int n) = .ok (content &&& ~~~BitVec.twoPow 32 n) := by
  change stored tdU32 (lvalue tdU32 content &&& ~~~(1 <<< int n)) = _
  rw [complement_shifted]
  exact stored_combined (fun _ a b => a &&& b) content _

theorem switch_performed (content : BitVec 32) (n : Fin 32) :
    uapiSwitchBitI tdU32 content (int n) = .ok (content ^^^ BitVec.twoPow 32 n) := by
  change stored tdU32 (lvalue tdU32 content ^^^ (1 <<< int n)) = _
  rw [one_shifted]
  exact stored_combined (fun _ a b => a ^^^ b) content _

theorem perform_applies (content : BitVec 32) (operation : Operation) : ∃ after,
    operation.perform content = .ok after ∧ members after = operation.apply (members content) := by
  cases operation with
  | set n =>
    refine ⟨_, set_performed content n, ?_⟩
    ext m
    by_cases same : m = n
    · simp [Operation.apply, same]
    · simp [Operation.apply, same, Fin.val_inj]
  | clr n =>
    refine ⟨_, clr_performed content n, ?_⟩
    ext m
    by_cases same : m = n
    · simp [Operation.apply, same]
    · simp [Operation.apply, same, Fin.val_inj]
  | switch n =>
    refine ⟨_, switch_performed content n, ?_⟩
    ext m
    by_cases same : m = n
    · simp [Operation.apply, mem_symmDiff, same]
    · simp [Operation.apply, mem_symmDiff, same, Fin.val_inj]

/-- A run carries out every operation on the set. -/
theorem run_applies (content : BitVec 32) (operations : List Operation) : ∃ last,
    run content operations = .ok last ∧
      members last = operations.foldl Operation.apply (members content) := by
  induction operations generalizing content with
  | nil => exact ⟨content, rfl, rfl⟩
  | cons operation operations ih =>
    obtain ⟨after, performed, applied⟩ := perform_applies content operation
    obtain ⟨last, finished, reached⟩ := ih after
    refine ⟨last, ?_, by rw [reached, applied]; rfl⟩
    change (operation.perform content >>= fun after => run after operations) = _
    rw [performed]
    exact finished

/-! ## Observers -/

/-- The three observers at a position, each as the macro is used: a bit, a
truth value, and the truth value of the opposite. -/
structure Observed (content : BitVec 32) (n : Fin 32) (present : Prop) : Prop where
  getBit : Denotes (uapiGetBitI (lvalue tdU32 content) (int n)) 1 ↔ present
  isSet : (∃ number ≠ 0, Denotes (uapiIsBitSetI (lvalue tdU32 content) (int n)) number) ↔ present
  isClr : Denotes (uapiIsBitClrI (lvalue tdU32 content) (int n)) 0 ↔ present

theorem getBit_iff (content : BitVec 32) (n : Fin 32) :
    Denotes (uapiGetBitI (lvalue tdU32 content) (int n)) 1 ↔ content.getLsbD n = true := by
  have shifted : lvalue tdU32 content >>> int n = word (content >>> n.val) :=
    shift_defined rfl (toInt_int (by omega)) n.isLt
  have evaluated : uapiGetBitI (lvalue tdU32 content) (int n) = word (content >>> n.val &&& 1#32) := by
    rw [uapiGetBitI, shifted]
    exact arithmetic_int _ (content >>> n.val) 1#32
  have bit : (content >>> n.val).getLsbD 0 = content.getLsbD n := by
    rw [BitVec.getLsbD_ushiftRight, Nat.add_zero]
  rw [show (1 : Int) = (1 : Nat) from rfl, denotes_word evaluated,
    BitVec.and_one_eq_setWidth_ofBool_getLsbD, bit]
  cases content.getLsbD n <;> decide

/-- The word with every position but one cleared. -/
theorem selected (content : BitVec 32) (n : Fin 32) :
    uapiIsBitSetI (lvalue tdU32 content) (int n) =
      word (if content.getLsbD n then BitVec.twoPow 32 n else 0) := by
  rw [uapiIsBitSetI, one_shifted]
  refine (arithmetic_int _ content (BitVec.twoPow 32 n)).trans ?_
  rw [BitVec.and_twoPow]
  rfl

theorem isSet_iff (content : BitVec 32) (n : Fin 32) :
    (∃ number ≠ 0, Denotes (uapiIsBitSetI (lvalue tdU32 content) (int n)) number) ↔
      content.getLsbD n = true := by
  rw [selected]
  cases content.getLsbD n with
  | false =>
    constructor
    · rintro ⟨number, nonzero, v, same, denoted⟩
      cases same
      exact absurd denoted.symm nonzero
    · intro absent
      cases absent
  | true =>
    have positive : (BitVec.twoPow 32 n).toNat ≠ 0 := by
      rw [BitVec.toNat_twoPow_of_lt n.isLt]
      exact (Nat.two_pow_pos n).ne'
    exact iff_of_true ⟨_, Int.natCast_ne_zero.mpr positive, _, rfl, rfl⟩ rfl

/-- The bitwise complement of a single position leaves the others set, so it is
never zero. -/
theorem isClr_never_zero (content : BitVec 32) (n : Fin 32) :
    ¬ Denotes (uapiIsBitClrI (lvalue tdU32 content) (int n)) 0 := by
  obtain ⟨other, inside, apart⟩ : ∃ other < 32, n.val ≠ other := by
    by_cases first : n.val = 0
    · exact ⟨1, by omega, by omega⟩
    · exact ⟨0, by omega, first⟩
  obtain ⟨left, chosen, outside⟩ : ∃ left : BitVec 32,
      uapiIsBitSetI (lvalue tdU32 content) (int n) = word left ∧ left.getLsbD other = false := by
    refine ⟨_, selected content n, ?_⟩
    split
    · simp [apart]
    · exact BitVec.getLsbD_zero
  have evaluated : uapiIsBitClrI (lvalue tdU32 content) (int n) = word (~~~left) := by
    change ~~~uapiIsBitSetI (lvalue tdU32 content) (int n) = _
    rw [chosen, complement_word (Nat.le_refl 32)]
  intro zero
  have none : ~~~left = 0#32 := BitVec.eq_of_toNat_eq ((denotes_word evaluated 0).mp zero)
  have kept := congrArg (fun pattern => pattern.getLsbD other) none
  simp only [BitVec.getLsbD_not, outside] at kept
  simp [inside] at kept

/-- Over every run the set and the word stay together: a bit is read and
tested as the set has it, and all three observers agree with the set exactly at
the positions outside of it. -/
theorem observers_agree_iff (content : BitVec 32) (operations : List Operation) : ∃ last,
    run content operations = .ok last ∧ ∀ n : Fin 32,
      let present := n ∈ operations.foldl Operation.apply (members content)
      (Denotes (uapiGetBitI (lvalue tdU32 last) (int n)) 1 ↔ present) ∧
      ((∃ number ≠ 0, Denotes (uapiIsBitSetI (lvalue tdU32 last) (int n)) number) ↔ present) ∧
      (Observed last n present ↔ ¬ present) := by
  obtain ⟨last, finished, reached⟩ := run_applies content operations
  refine ⟨last, finished, fun n => ?_⟩
  rw [← reached]
  have getBit := (getBit_iff last n).trans mem_members.symm
  have isSet := (isSet_iff last n).trans mem_members.symm
  have isClr := isClr_never_zero last n
  refine ⟨getBit, isSet, ?_⟩
  constructor
  · intro observed present
    exact isClr (observed.isClr.mpr present)
  · intro absent
    exact ⟨getBit, isSet, iff_of_false isClr absent⟩

/-- Position 3 set in a zero word is not seen as set by the third observer. -/
theorem isClr_misses_set_bit :
    ¬ ∀ (content last : BitVec 32) (operations : List Operation), run content operations = .ok last →
      ∀ n, Observed last n (n ∈ operations.foldl Operation.apply (members content)) := by
  intro observed
  have at_three := (observed 0 8 [.set 3] rfl 3).isClr.mpr (by simp [Operation.apply])
  exact isClr_never_zero 8 3 at_three

/-! ## The lowest position outside of a byte's set -/

/-- More turns than the loop takes change nothing. -/
theorem findFirstZeroLoop_add (more : Nat) (finished : findFirstZeroLoop fuel byte zeroBit = some found) :
    findFirstZeroLoop (fuel + more) byte zeroBit = some found := by
  induction fuel generalizing byte zeroBit with
  | zero => cases finished
  | succ fuel ih =>
    rw [Nat.add_right_comm]
    simp only [findFirstZeroLoop] at finished ⊢
    split
    · rename_i going
      rw [if_pos going] at finished
      split
      · rename_i last
        rwa [if_pos last] at finished
      · rename_i inside
        rw [if_neg inside] at finished
        exact ih finished
    · rename_i ends
      rwa [if_neg ends] at finished

/-- Eight turns find the lowest position that holds a zero, or 8 if none does. -/
theorem find_first_zero (fuel : Nat) (enough : 8 ≤ fuel) (byte : OsalU8) : ∃ found,
    oalBitFindFirstZeroOneByte fuel byte = some found ∧
      (∀ n < found.toNat, byte.toBitVec.getLsbD n = true) ∧ byte.toBitVec.getLsbD found.toNat = false := by
  have every : ∀ b : BitVec 8, ∃ found : Fin 9,
      oalBitFindFirstZeroOneByte 8 (.ofBitVec b) = some (.ofNat found) ∧
        (∀ n < (UInt8.ofNat found).toNat, b.getLsbD n = true) ∧
        b.getLsbD (UInt8.ofNat found).toNat = false := by decide
  obtain ⟨found, ran, below, here⟩ := every byte.toBitVec
  obtain ⟨more, rfl⟩ := Nat.exists_eq_add_of_le enough
  exact ⟨_, findFirstZeroLoop_add more ran, below, here⟩

end Ws63Rf.BitSetProofs
