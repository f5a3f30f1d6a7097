import Mathlib.Algebra.BigOperators.Group.List.Basic
import Ws63Rf.Arithmetic

/-! The sequence numbers of a block acknowledgement session, which wrap around
at 4096. The macros take numbers of any type; only a signed sum that overflows
before it is masked is lost. -/
namespace Ws63Rf.BaSequence
open CExpr Expr

def hmacBaSeqnoMask : Expr := 0x0FFF

def hmacBaSeqAdd (seq1 seq2 : Expr) : Expr := (seq1 + seq2).cast .unsignedInt &&& hmacBaSeqnoMask

def hmacBaSeqSub (seq1 seq2 : Expr) : Expr := (seq1 - seq2).cast .unsignedInt &&& hmacBaSeqnoMask

section Masked
variable {e a b : Expr} {s s' t : IntType} {m n : Int}

/-- No conversion to a type of 12 bits or more changes the low 12 bits. -/
theorem convert_low {t : IntType} (wide : 32 ≤ t.bits) (n : Int) : t.convert n % 4096 = n % 4096 := by
  have divides : (2 : Int) ^ 12 ∣ 2 ^ t.bits := pow_dvd_pow 2 (by omega)
  have low : t.convert n % 2 ^ t.bits % 2 ^ 12 = n % 2 ^ t.bits % 2 ^ 12 :=
    congrArg (· % 2 ^ 12) (t.convert_emod n)
  rwa [Int.emod_emod_of_dvd _ divides, Int.emod_emod_of_dvd _ divides] at low

theorem masked_yields (yields : e.Yields t n) :
    (e.cast .unsignedInt &&& hmacBaSeqnoMask).Yields .unsignedInt (n % 4096) := by
  have masked := (yields.cast .unsignedInt).and_low (k := 12) (yields_int (n := 0xFFF) (by decide)) rfl
    (by decide)
  exact masked.congr (convert_low (t := .unsignedInt) (by decide) n)

theorem masked_error (u : Undefined) :
    (cast .unsignedInt (.error u) : Expr) &&& hmacBaSeqnoMask = .error u := rfl

/-- What is added is added modulo 4096. -/
theorem seqAdd_yields (first : a.Yields s m) (second : b.Yields s' n)
    (holds : (s.common s').signed = true →
      (s.common s').Holds ((s.common s').convert m + (s.common s').convert n)) :
    (hmacBaSeqAdd a b).Yields .unsignedInt ((m + n) % 4096) := by
  have wide := IntType.common_bits s s'
  refine (masked_yields (first.add second rfl holds)).congr ?_
  rw [convert_low wide, Int.add_emod, convert_low wide, convert_low wide, ← Int.add_emod]

theorem seqSub_yields (first : a.Yields s m) (second : b.Yields s' n)
    (holds : (s.common s').signed = true →
      (s.common s').Holds ((s.common s').convert m - (s.common s').convert n)) :
    (hmacBaSeqSub a b).Yields .unsignedInt ((m - n) % 4096) := by
  have wide := IntType.common_bits s s'
  refine (masked_yields (first.sub second rfl holds)).congr ?_
  rw [convert_low wide, Int.sub_emod, convert_low wide, convert_low wide, ← Int.sub_emod]

end Masked

section Exact
variable {seq1 seq2 : Value}

/-- A signed common type has the numbers of both. -/
theorem signed_convert (signed : (seq1.type.common seq2.type).signed = true) :
    (seq1.type.common seq2.type).convert seq1.toInt = seq1.toInt ∧
      (seq1.type.common seq2.type).convert seq2.toInt = seq2.toInt := by
  have positive := IntType.bits_positive seq1.type seq2.type
  have first := (IntType.holds_common_iff (s := seq2.type) seq1.holds_toInt).mpr (.inl signed)
  rw [IntType.common_comm] at signed
  have second := (IntType.holds_common_iff (s := seq1.type) seq2.holds_toInt).mpr (.inl signed)
  rw [IntType.common_comm] at second
  exact ⟨IntType.convert_of_holds positive first, IntType.convert_of_holds positive second⟩

theorem seqAdd_iff (seq1 seq2 : Value) (number : Int) :
    Denotes (hmacBaSeqAdd (value seq1) (value seq2)) number ↔
      (seq1.toInt + seq2.toInt) % 4096 = number ∧ ((seq1.type.common seq2.type).signed = true →
        (seq1.type.common seq2.type).Holds (seq1.toInt + seq2.toInt)) := by
  refine denotes_iff_of_fits (fun kept => ?_) (fun overflows => ?_) number
  · refine (seqAdd_yields (yields_value seq1) (yields_value seq2) fun signed => ?_).denotes
    obtain ⟨first, second⟩ := signed_convert signed
    rw [first, second]
    exact kept signed
  · obtain ⟨signed, outside⟩ := Classical.not_imp.mp overflows
    obtain ⟨first, second⟩ := signed_convert signed
    rw [← first, ← second] at outside
    have lost := (yields_value seq1).add_overflow (yields_value seq2) rfl signed outside
    exact ⟨.overflow, by rw [hmacBaSeqAdd, lost, masked_error]⟩

theorem seqSub_iff (seq1 seq2 : Value) (number : Int) :
    Denotes (hmacBaSeqSub (value seq1) (value seq2)) number ↔
      (seq1.toInt - seq2.toInt) % 4096 = number ∧ ((seq1.type.common seq2.type).signed = true →
        (seq1.type.common seq2.type).Holds (seq1.toInt - seq2.toInt)) := by
  refine denotes_iff_of_fits (fun kept => ?_) (fun overflows => ?_) number
  · refine (seqSub_yields (yields_value seq1) (yields_value seq2) fun signed => ?_).denotes
    obtain ⟨first, second⟩ := signed_convert signed
    rw [first, second]
    exact kept signed
  · obtain ⟨signed, outside⟩ := Classical.not_imp.mp overflows
    obtain ⟨first, second⟩ := signed_convert signed
    rw [← first, ← second] at outside
    have lost := (yields_value seq1).sub_overflow (yields_value seq2) rfl signed outside
    exact ⟨.overflow, by rw [hmacBaSeqSub, lost, masked_error]⟩

/-- The macros are exact modulo 4096, unless the sum or the difference overflows
a signed type before it is masked. -/
theorem seq_exact_iff (seq1 seq2 : Value) (number : Int) :
    (Denotes (hmacBaSeqAdd (value seq1) (value seq2)) number ↔
      (seq1.toInt + seq2.toInt) % 4096 = number ∧ ((seq1.type.common seq2.type).signed = true →
        (seq1.type.common seq2.type).Holds (seq1.toInt + seq2.toInt))) ∧
    (Denotes (hmacBaSeqSub (value seq1) (value seq2)) number ↔
      (seq1.toInt - seq2.toInt) % 4096 = number ∧ ((seq1.type.common seq2.type).signed = true →
        (seq1.type.common seq2.type).Holds (seq1.toInt - seq2.toInt))) :=
  ⟨seqAdd_iff seq1 seq2 number, seqSub_iff seq1 seq2 number⟩

end Exact

/-! ## Runs -/

/-- A sequence number that is moved on step by step. -/
def advanced (start : Expr) (steps : List Value) : Expr :=
  steps.foldl (fun seq step => hmacBaSeqAdd seq (value step)) start

/-- Beside a type that is no wider an `unsigned int` stays. -/
theorem common_narrow {t : IntType} (narrow : t.bits ≤ 32) :
    IntType.common .unsignedInt t = .unsignedInt := by
  have bits : t.promoted.bits = 32 := by
    rw [IntType.promoted]
    split
    · rfl
    · omega
  have stays : IntType.unsignedInt.promoted = .unsignedInt := rfl
  rw [IntType.common, stays, bits]
  rfl

/-- From an `unsigned int` on nothing is lost, so steps add up. Every step
reduces the number. -/
theorem advanced_yields {steps : List Value} (narrow : ∀ step ∈ steps, step.type.bits ≤ 32)
    {start : Expr} {n : Int} (yields : start.Yields .unsignedInt n) :
    ∃ m, (advanced start steps).Yields .unsignedInt m ∧
      m % 4096 = (n + (steps.map Value.toInt).sum) % 4096 ∧
      (steps ≠ [] ∨ n % 4096 = n → m % 4096 = m) := by
  induction steps generalizing start n with
  | nil => exact ⟨n, yields, by simp, by simp⟩
  | cons step steps ih =>
    have unsigned : ¬ (IntType.common .unsignedInt step.type).signed = true := by
      rw [common_narrow (narrow step (by simp))]
      exact Bool.false_ne_true
    have once := seqAdd_yields yields (yields_value step) (fun signed => absurd signed unsigned)
    obtain ⟨m, last, total, reduced⟩ := ih (fun other member => narrow other (by simp [member])) once
    refine ⟨m, last, ?_, fun _ => reduced (.inr (Int.emod_emod_of_dvd _ (dvd_refl 4096)))⟩
    rw [total, List.map_cons, List.sum_cons, Int.emod_add_emod]
    omega

/-- However a sequence number got from one place to another, the distance is
the sum of the steps modulo 4096. It leads from the start to the number reached,
unless no step reduced a start of 4096 or more. -/
theorem seq_run (start : BitVec 32) (steps : List Value) (narrow : ∀ step ∈ steps, step.type.bits ≤ 32) :
    Denotes (hmacBaSeqSub (advanced (word start) steps) (word start))
      ((steps.map Value.toInt).sum % 4096) ∧
    Denotes (hmacBaSeqAdd (word start) (hmacBaSeqSub (advanced (word start) steps) (word start)))
      ((start.toNat + (steps.map Value.toInt).sum) % 4096) ∧
    (steps ≠ [] ∨ start.toNat < 4096 →
      hmacBaSeqAdd (word start) (hmacBaSeqSub (advanced (word start) steps) (word start)) =
        advanced (word start) steps) := by
  have first : (word start).Yields .unsignedInt start.toNat := ⟨start, rfl, rfl⟩
  obtain ⟨m, last, total, reduced⟩ := advanced_yields narrow first
  have unsigned : ¬ (IntType.common .unsignedInt .unsignedInt).signed = true := by decide
  have distance := seqSub_yields last first (fun signed => absurd signed unsigned)
  have back := seqAdd_yields first distance (fun signed => absurd signed unsigned)
  refine ⟨?_, ?_, fun moved => ?_⟩
  · refine (distance.congr ?_).denotes
    omega
  · refine (back.congr ?_).denotes
    omega
  · have inside : m % 4096 = m := by
      apply reduced
      rcases moved with stepped | below
      · exact .inl stepped
      · exact .inr (by omega)
    refine (back.congr ?_).ext last
    omega

/-- Past the end of the sequence numbers and once around. -/
theorem seq_run_wrapped :
    Denotes (hmacBaSeqSub (advanced (word 4090#32) [⟨.int, 4000#32⟩, ⟨.unsignedShort, 200#16⟩])
      (word 4090#32)) 104 ∧
    hmacBaSeqAdd (word 4090#32)
        (hmacBaSeqSub (advanced (word 4090#32) [⟨.int, 4000#32⟩, ⟨.unsignedShort, 200#16⟩])
          (word 4090#32)) =
      advanced (word 4090#32) [⟨.int, 4000#32⟩, ⟨.unsignedShort, 200#16⟩] := by
  obtain ⟨distance, -, back⟩ :=
    seq_run 4090#32 [⟨.int, 4000#32⟩, ⟨.unsignedShort, 200#16⟩] (by decide)
  exact ⟨distance, back (.inr (by decide))⟩

end Ws63Rf.BaSequence
