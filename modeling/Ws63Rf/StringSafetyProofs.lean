import Ws63Rf.Coupling
import Ws63Rf.StrimProofs

/-! What the text functions see of memory. None of them looks behind the NUL of
its string, so neither what they return nor what they leave behind depends on
it, and they do the same wherever the string lies. -/
namespace Ws63Rf.StringSafetyProofs
open Scan OalUtil Scan.Coupling

section InStep
variable {coupling : Coupling OsalS8} {p p' : Cursor OsalS8}

/-! ## `oal_atoi` -/

theorem checkedS32_error {n : Int} {fault : Fault} (failed : checkedS32 n = .error fault) :
    fault = .signedOverflow := by
  rw [checkedS32] at failed
  split at failed
  · cases failed
  · exact (Except.error.inj failed).symm

theorem atoiTurn_nul (state : Int × Int) : atoiTurn state 0 = .ok (.stop state) := rfl

/-- What follows a check fails by overflow too. -/
theorem checkedS32_bind {next : Int → Except Fault β} {n : Int} {fault : Fault}
    (failed : (checkedS32 n >>= next) = .error fault)
    (later : ∀ {value}, next value = .error fault → fault = .signedOverflow) :
    fault = .signedOverflow := by
  cases checked : checkedS32 n with
  | error other =>
    rw [checked] at failed
    obtain rfl : other = fault := Except.error.inj failed
    exact checkedS32_error checked
  | ok value =>
    rw [checked] at failed
    exact later failed

theorem atoiTurn_error {state : Int × Int} {c : OsalS8} {fault : Fault}
    (failed : atoiTurn state c = .error fault) : fault = .signedOverflow := by
  obtain ⟨ret, flag⟩ := state
  simp only [atoiTurn] at failed
  split at failed
  · refine checkedS32_bind failed fun failed => ?_
    refine checkedS32_bind failed fun failed => ?_
    cases failed
  · split at failed
    · cases failed
    · split at failed <;> cases failed

/-- The same number, or the same overflow. -/
theorem atoi_inStep (moves : ∀ c, c ≠ 0 → coupling.passes c)
    (overflows : coupling.faults .signedOverflow) (coupled : coupling.cursors p p') :
    coupling.InStep (· = ·) (oalAtoi p) (oalAtoi p') := by
  refine (inStep_walk ?_ ?_ (0, 0) coupled).bind ?_
  · intro state c blocked next taken
    obtain rfl : c = 0 := by
      by_contra other
      exact blocked (moves c other)
    cases (atoiTurn_nul state).symm.trans taken
  · intro state c fault failed
    rw [atoiTurn_error failed]
    exact overflows
  · rintro ⟨⟨ret, flag⟩, q⟩ ⟨_, q'⟩ ⟨rfl, -⟩
    dsimp only
    split
    · exact inStep_pure rfl
    · cases checked : checkedS32 (-ret) with
      | ok value => exact ⟨.nil, .ok rfl⟩
      | error fault =>
        rw [checkedS32_error checked]
        exact inStep_error overflows

/-! ## `oal_strtol` -/

/-- A character that a pointer stands on and that is not the NUL may be moved
over, and the one behind it be read. -/
theorem guess_inStep (moves : ∀ c, c ≠ 0 → coupling.passes c) (coupled : coupling.cursors p p') :
    coupling.InStep (· = ·) (simpleGuessBase p) (simpleGuessBase p') := by
  refine (inStep_load coupled).bind ?_
  rintro c _ ⟨rfl, next⟩
  split
  · rename_i zero
    have second := next (moves c (zero ▸ by decide))
    rw [load_advance p 1, load_advance p' 1]
    refine (inStep_load second).bind ?_
    rintro c _ ⟨rfl, next⟩
    split
    · rename_i marker
      have third := next (moves c (by rintro rfl; exact absurd marker (by decide)))
      rw [advance_advance, advance_advance] at third
      rw [load_advance p 2, load_advance p' 2]
      refine (inStep_load third).bind ?_
      rintro c _ ⟨rfl, -⟩
      split <;> exact inStep_pure rfl
    · exact inStep_pure rfl
  · exact inStep_pure rfl

theorem choose_inStep (moves : ∀ c, c ≠ 0 → coupling.passes c) (base : OsalU32)
    (coupled : coupling.cursors p p') :
    coupling.InStep (· = ·) (chooseBase base p) (chooseBase base p') := by
  rw [chooseBase, chooseBase]
  split
  · exact guess_inStep moves coupled
  · exact inStep_pure rfl

theorem prefix_inStep (moves : ∀ c, c ≠ 0 → coupling.passes c) (base : OsalU32)
    (coupled : coupling.cursors p p') :
    coupling.InStep coupling.cursors (skipHexPrefix base p) (skipHexPrefix base p') := by
  rw [skipHexPrefix, skipHexPrefix]
  split
  · refine (inStep_load coupled).bind ?_
    rintro c _ ⟨rfl, next⟩
    split
    · rename_i zero
      have second := next (moves c (zero ▸ by decide))
      rw [load_advance p 1, load_advance p' 1]
      refine (inStep_load second).bind ?_
      rintro c _ ⟨rfl, next⟩
      split
      · rename_i marker
        have third := next (moves c (by rintro rfl; exact absurd marker (by decide)))
        rw [advance_advance, advance_advance] at third
        exact inStep_pure third
      · exact inStep_pure coupled
    · exact inStep_pure coupled
  · exact inStep_pure coupled

theorem strtoullTurn_nul (base : OsalU32) (result : UInt64) :
    strtoullTurn base result 0 = .stop result := rfl

/-- The same value, and end pointers that belong together where they were asked for. -/
def EndsTogether (coupling : Coupling OsalS8) {β : Type} (endp endp' : Option (Cursor OsalS8))
    (r r' : β × Option (Cursor OsalS8)) : Prop :=
  ∃ value q q', coupling.cursors q q' ∧ r = (value, endp.map fun _ => q) ∧
    r' = (value, endp'.map fun _ => q')

variable (endp endp' : Option (Cursor OsalS8))

theorem strtoull_inStep (moves : ∀ c, c ≠ 0 → coupling.passes c) (base : OsalU32)
    (coupled : coupling.cursors p p') : coupling.InStep (EndsTogether coupling endp endp')
      (oalSimpleStrtoull p endp base) (oalSimpleStrtoull p' endp' base) := by
  refine (choose_inStep moves base coupled).bind ?_
  rintro base _ rfl
  refine (prefix_inStep moves base coupled).bind fun digits => ?_
  refine (inStep_walk ?_ ?_ 0 digits).bind ?_
  · intro result c blocked next taken
    obtain rfl : c = 0 := by
      by_contra other
      exact blocked (moves c other)
    rw [strtoullTurn_nul] at taken
    cases taken
  · intro result c fault failed
    cases failed
  · rintro ⟨result, q⟩ ⟨_, q'⟩ ⟨rfl, last⟩
    exact inStep_pure ⟨result, q, q', last, rfl, rfl⟩

theorem strtol_inStep (moves : ∀ c, c ≠ 0 → coupling.passes c) (base : Int32)
    (coupled : coupling.cursors p p') : coupling.InStep (EndsTogether coupling endp endp')
      (oalStrtol p endp base) (oalStrtol p' endp' base) := by
  refine (inStep_skipWhile (fun c space => moves c ?_) coupled).bind fun {q q'} started => ?_
  · rintro rfl
    exact absurd space (by decide)
  · refine (inStep_load started).bind ?_
    rintro c _ ⟨rfl, next⟩
    split
    · rename_i minus
      have unsigned := next (moves c (minus ▸ by decide))
      refine (strtoull_inStep endp endp' moves base.toUInt32 unsigned).bind ?_
      rintro _ _ ⟨value, last, last', together, rfl, rfl⟩
      exact inStep_pure ⟨toSlong (-value), last, last', together, rfl, rfl⟩
    · refine (strtoull_inStep endp endp' moves base.toUInt32 started).bind ?_
      rintro _ _ ⟨value, last, last', together, rfl, rfl⟩
      exact inStep_pure ⟨toSlong value, last, last', together, rfl, rfl⟩

end InStep

/-! ## Nothing behind the NUL -/

section Confined
variable (s : CString)

/-- Pointers to the same place of the string, in front of two memories. -/
def inFront (beyond beyond' : List OsalS8) (faults : Fault → Prop) : Coupling OsalS8 :=
  terminated s.chars 0 beyond beyond' faults

theorem started (beyond beyond' : List OsalS8) (faults : Fault → Prop) :
    (inFront s beyond beyond' faults).cursors ⟨0, s.memory beyond⟩ ⟨0, s.memory beyond'⟩ :=
  ⟨0, Nat.zero_le _, rfl, rfl⟩

/-- What `oal_strtol` returns for a string, and the end it leaves, whatever
stands behind the NUL. -/
theorem strtol_confined (base : Int32) (endp : Option (Cursor OsalS8)) : ∃ reads value last,
    (∀ read ∈ reads, read ≤ s.chars.length) ∧ last ≤ s.chars.length ∧
    ∀ beyond, oalStrtol ⟨0, s.memory beyond⟩ endp base =
      ⟨reads, .ok (value, endp.map fun _ => ⟨last, s.chars.drop last ++ 0 :: beyond⟩)⟩ := by
  obtain ⟨reads, bounded, results⟩ := confined fun beyond =>
    strtol_inStep endp endp (fun _ other => other) base (started s beyond [] fun _ => False)
  rcases results with ⟨_, faults, -⟩ | ⟨reference, results⟩
  · exact faults.elim
  · obtain ⟨-, ⟨value, _, _, ⟨last, inside, -, rfl⟩, -, rfl⟩, -⟩ := results []
    refine ⟨reads, value, last, bounded, inside, fun beyond => ?_⟩
    obtain ⟨_, ⟨value', _, _, ⟨last', _, rfl, rfl⟩, rfl, returned⟩, made⟩ := results beyond
    rw [made]
    obtain ⟨rfl, left⟩ := Prod.mk.inj returned
    cases endp with
    | none => rfl
    | some _ =>
      obtain rfl : last = last' := congrArg Cursor.offset (Option.some.inj left)
      rfl

/-- `oal_atoi` comes to the same number or overflow whatever stands behind the
NUL. -/
theorem atoi_confined : ∃ reads result, (∀ read ∈ reads, read ≤ s.chars.length) ∧
    result ≠ .error .outOfBounds ∧
    ∀ beyond, oalAtoi ⟨0, s.memory beyond⟩ = ⟨reads, result⟩ := by
  obtain ⟨reads, bounded, results⟩ := confined fun beyond =>
    atoi_inStep (fun _ other => other) rfl (started s beyond [] (· = .signedOverflow))
  rcases results with ⟨_, rfl, made⟩ | ⟨number, results⟩
  · exact ⟨reads, .error .signedOverflow, bounded, by simp, made⟩
  · refine ⟨reads, .ok number, bounded, by simp, fun beyond => ?_⟩
    obtain ⟨_, rfl, made⟩ := results beyond
    exact made

/-! ## `oal_strim` -/

end Confined

/-! ## The same text elsewhere -/

/-- Where the string lies does not matter: what is read and the end that is
left lie as far behind as the string does. -/
theorem strtol_moved {p q : Cursor OsalS8} {endp : Cursor OsalS8} {base : Int32}
    (ran : oalStrtol p (some endp) base = ⟨reads, .ok (value, some q)⟩) (distance : Nat)
    (endp' : Cursor OsalS8) :
    oalStrtol ⟨p.offset + distance, p.rest⟩ (some endp') base =
      ⟨reads.map (· + distance), .ok (value, some ⟨q.offset + distance, q.rest⟩)⟩ := by
  have together : (moved distance).cursors p ⟨p.offset + distance, p.rest⟩ := rfl
  have alike := strtol_inStep (some endp) (some endp') (fun _ _ => trivial) base together
  rw [ran] at alike
  generalize oalStrtol ⟨p.offset + distance, p.rest⟩ (some endp') base = there at alike ⊢
  obtain ⟨reads', result⟩ := there
  obtain ⟨alongside, outcome⟩ := alike
  obtain rfl := moved_reads alongside
  cases outcome with
  | ok ends =>
    obtain ⟨_, last, last', rfl, same, rfl⟩ := ends
    obtain ⟨rfl, left⟩ := Prod.mk.inj same
    obtain rfl : q = last := Option.some.inj left
    rfl

end Ws63Rf.StringSafetyProofs
