import Ws63Rf.Scan

/-! Two runs of the same code in step. A coupling says which pointers belong
together, over which characters they may both be moved on, and at which places
they then read; code that keeps to it comes to the same result twice. -/
namespace Ws63Rf.Scan

/-- Pointers that belong together look at the same character, or both behind
their memory. -/
structure Coupling (α : Type) where
  cursors : Cursor α → Cursor α → Prop
  places : Nat → Nat → Prop
  faults : Fault → Prop
  passes : α → Prop
  placed : ∀ {p p'}, cursors p p' → places p.offset p'.offset
  looks : ∀ {p p'}, cursors p p' →
    (∃ c rest rest', p.rest = c :: rest ∧ p'.rest = c :: rest' ∧
      (passes c → cursors ⟨p.offset + 1, rest⟩ ⟨p'.offset + 1, rest'⟩)) ∨
    p.rest = [] ∧ p'.rest = [] ∧ faults .outOfBounds

namespace Coupling
variable {α β β' γ γ' σ : Type} (coupling : Coupling α)

/-- What the two runs come to: related results, or the same fault. -/
inductive Outcome (related : β → β' → Prop) : Except Fault β → Except Fault β' → Prop where
  | ok (same : related value value') : Outcome related (.ok value) (.ok value')
  | error (permitted : coupling.faults fault) : Outcome related (.error fault) (.error fault)

/-- The two runs read in step and come to related results. -/
structure InStep (related : β → β' → Prop) (run : Run β) (run' : Run β') : Prop where
  reads : List.Forall₂ coupling.places run.reads run'.reads
  outcome : coupling.Outcome related run.result run'.result

variable {coupling}

theorem inStep_pure {related : β → β' → Prop} (same : related value value') :
    coupling.InStep related (pure value) (pure value') :=
  ⟨.nil, .ok same⟩

theorem inStep_error {related : β → β' → Prop} (permitted : coupling.faults fault) :
    coupling.InStep related ⟨[], .error fault⟩ ⟨[], .error fault⟩ :=
  ⟨.nil, .error permitted⟩

/-- What follows is in step where the results so far are related. -/
theorem InStep.bind {related : β → β' → Prop} {other : γ → γ' → Prop} {run : Run β} {run' : Run β'}
    {next : β → Run γ} {next' : β' → Run γ'} (inStep : coupling.InStep related run run')
    (goesOn : ∀ {v v'}, related v v' → coupling.InStep other (next v) (next' v')) :
    coupling.InStep other (run >>= next) (run' >>= next') := by
  obtain ⟨reads, result⟩ := run
  obtain ⟨reads', result'⟩ := run'
  obtain ⟨together, outcome⟩ := inStep
  cases outcome with
  | ok same =>
    obtain ⟨after, final⟩ := goesOn same
    exact ⟨List.rel_append together after, final⟩
  | error permitted => exact ⟨together, .error permitted⟩

/-- Reading the character under a pointer, with what may be done next. -/
theorem inStep_load {p p' : Cursor α} (coupled : coupling.cursors p p') :
    coupling.InStep (fun c c' => c = c' ∧ (coupling.passes c →
      coupling.cursors (p.advance 1) (p'.advance 1))) (p.load 0) (p'.load 0) := by
  have placed := coupling.placed coupled
  refine ⟨.cons placed .nil, ?_⟩
  obtain ⟨offset, chars⟩ := p
  obtain ⟨offset', chars'⟩ := p'
  rcases coupling.looks coupled with ⟨c, rest, rest', rfl, rfl, moves⟩ | ⟨rfl, rfl, permitted⟩
  · exact .ok ⟨rfl, moves⟩
  · exact .error permitted

/-- A read ahead is a read under the pointer that has been moved there. -/
theorem load_advance (p : Cursor α) (k : Nat) : p.load k = (p.advance k).load 0 := by
  simp [Cursor.load, Cursor.advance]

theorem advance_advance (p : Cursor α) (j k : Nat) : (p.advance j).advance k = p.advance (j + k) := by
  simp [Cursor.advance, Nat.add_assoc, List.drop_drop]

theorem InStep.after {related : β → β' → Prop} {run : Run β} {run' : Run β'} {offset offset' : Nat}
    (placed : coupling.places offset offset') (inStep : coupling.InStep related run run') :
    coupling.InStep related (run.after [offset]) (run'.after [offset']) :=
  ⟨.cons placed inStep.reads, inStep.outcome⟩

/-- A loop is in step that stops on every character it may not move over. -/
theorem inStep_walk {more : σ → Bool} {turn : σ → α → Except Fault (Turn σ)}
    (stops : ∀ state c, ¬ coupling.passes c → ∀ next, turn state c ≠ .ok (.next next))
    (faults : ∀ state c fault, turn state c = .error fault → coupling.faults fault)
    (state : σ) {p p' : Cursor α} (coupled : coupling.cursors p p') :
    coupling.InStep (fun r r' => r.1 = r'.1 ∧ coupling.cursors r.2 r'.2)
      (walk more turn state p.offset p.rest) (walk more turn state p'.offset p'.rest) := by
  obtain ⟨offset, chars⟩ := p
  obtain ⟨offset', chars'⟩ := p'
  induction chars generalizing state offset offset' chars' with
  | nil =>
    have placed := coupling.placed coupled
    rcases coupling.looks coupled with ⟨c, rest, rest', nonempty, -⟩ | ⟨-, rfl, permitted⟩
    · cases nonempty
    · cases going : more state with
      | false =>
        simp only [walk, going]
        exact inStep_pure ⟨rfl, coupled⟩
      | true =>
        simp only [walk, going]
        exact ⟨.cons placed .nil, .error permitted⟩
  | cons c chars ih =>
    have placed := coupling.placed coupled
    rcases coupling.looks coupled with ⟨_, _, rest', same, rfl, moves⟩ | ⟨empty, -⟩
    · cases same
      cases going : more state with
      | false =>
        rw [walk_done going, walk_done going]
        exact inStep_pure ⟨rfl, coupled⟩
      | true =>
        cases taken : turn state c with
        | error fault =>
          rw [walk_fault going taken, walk_fault going taken]
          exact ⟨.cons placed .nil, .error (faults state c fault taken)⟩
        | ok decided =>
          cases decided with
          | stop last =>
            rw [walk_stop going taken, walk_stop going taken]
            exact ⟨.cons placed .nil, .ok ⟨rfl, coupled⟩⟩
          | next middle =>
            have passes : coupling.passes c := by
              by_contra blocked
              exact stops state c blocked middle taken
            rw [walk_next going taken, walk_next going taken]
            exact (ih middle _ _ _ (moves passes)).after placed
    · cases empty

/-- Skipping is in step over characters that may be moved over. -/
theorem inStep_skipWhile {accepts : α → Bool} (passes : ∀ c, accepts c = true → coupling.passes c)
    {p p' : Cursor α} (coupled : coupling.cursors p p') :
    coupling.InStep coupling.cursors (skipWhile accepts p) (skipWhile accepts p') := by
  refine (inStep_walk ?_ ?_ () coupled).bind fun related => inStep_pure related.2
  · intro _ c blocked next taken
    have rejected : accepts c ≠ true := fun accepted => blocked (passes c accepted)
    simp [rejected] at taken
  · intro _ c fault failed
    cases failed

/-! ## Text before different memory -/

/-- Pointers to the same place of a terminated text, in front of two memories
that code in step does not see. -/
def terminated (text : List α) (final : α) (beyond beyond' : List α) (faults : Fault → Prop) :
    Coupling α where
  cursors p p' := ∃ k ≤ text.length, p = ⟨k, text.drop k ++ final :: beyond⟩ ∧
    p' = ⟨k, text.drop k ++ final :: beyond'⟩
  places place place' := place = place' ∧ place ≤ text.length
  faults := faults
  passes c := c ≠ final
  placed := by
    rintro _ _ ⟨k, inside, rfl, rfl⟩
    exact ⟨rfl, inside⟩
  looks := by
    rintro _ _ ⟨k, inside, rfl, rfl⟩
    refine .inl ?_
    by_cases before : k < text.length
    · rw [List.drop_eq_getElem_cons before]
      exact ⟨text[k], _, _, rfl, rfl, fun _ => ⟨k + 1, before, rfl, rfl⟩⟩
    · rw [List.drop_eq_nil_of_le (Nat.le_of_not_lt before)]
      exact ⟨final, beyond, beyond', rfl, rfl, fun other => absurd rfl other⟩

/-- What is read in step in front of two memories is the same, and inside the
text or on its terminator. -/
theorem terminated_reads {text beyond beyond' : List α} {final : α} {faults : Fault → Prop}
    {reads reads' : List Nat}
    (together : List.Forall₂ (terminated text final beyond beyond' faults).places reads reads') :
    reads = reads' ∧ ∀ read ∈ reads', read ≤ text.length := by
  induction together with
  | nil => exact ⟨rfl, by simp⟩
  | cons placed _ ih =>
    obtain ⟨rfl, inside⟩ := placed
    exact ⟨congrArg _ ih.1, List.forall_mem_cons.mpr ⟨inside, ih.2⟩⟩

/-- Code that is in step with itself before every memory makes the same reads
before all of them, all inside the text or on its terminator, and comes to one
fault or to results that belong together. -/
theorem confined {text : List α} {final : α} {faults : Fault → Prop} {run : List α → Run β}
    {related : List α → β → β → Prop}
    (alike : ∀ beyond, (terminated text final beyond [] faults).InStep (related beyond)
      (run beyond) (run [])) :
    ∃ reads, (∀ read ∈ reads, read ≤ text.length) ∧
      ((∃ fault, faults fault ∧ ∀ beyond, run beyond = ⟨reads, .error fault⟩) ∨
        ∃ reference, ∀ beyond, ∃ value, related beyond value reference ∧
          run beyond = ⟨reads, .ok value⟩) := by
  have same := (alike []).outcome
  generalize run [] = before at alike same
  obtain ⟨reads, result⟩ := before
  refine ⟨reads, (terminated_reads (alike []).reads).2, ?_⟩
  cases same with
  | error permitted =>
    refine .inl ⟨_, permitted, fun beyond => ?_⟩
    obtain ⟨together, outcome⟩ := alike beyond
    generalize run beyond = there at together outcome ⊢
    obtain ⟨reads', result'⟩ := there
    obtain rfl : reads' = reads := (terminated_reads together).1
    cases outcome with
    | error _ => rfl
  | @ok reference _ _ =>
    refine .inr ⟨reference, fun beyond => ?_⟩
    obtain ⟨together, outcome⟩ := alike beyond
    generalize run beyond = there at together outcome ⊢
    obtain ⟨reads', result'⟩ := there
    obtain rfl : reads' = reads := (terminated_reads together).1
    cases outcome with
    | ok belongs => exact ⟨_, belongs, rfl⟩

/-! ## Text at different places -/

/-- The same memory, seen from two offsets. -/
def moved (distance : Nat) : Coupling α where
  cursors p p' := p' = ⟨p.offset + distance, p.rest⟩
  places place place' := place' = place + distance
  faults _ := True
  passes _ := True
  placed := by
    rintro _ _ rfl
    rfl
  looks := by
    rintro ⟨offset, chars⟩ _ rfl
    cases chars with
    | nil => exact .inr ⟨rfl, rfl, trivial⟩
    | cons c rest =>
      refine .inl ⟨c, rest, rest, rfl, rfl, fun _ => ?_⟩
      rw [Nat.add_right_comm]

theorem moved_reads {distance : Nat} {reads reads' : List Nat}
    (together : List.Forall₂ (moved (α := α) distance).places reads reads') :
    reads' = reads.map (· + distance) := by
  induction together with
  | nil => rfl
  | cons placed _ ih => exact congrArg₂ List.cons placed ih

end Coupling

end Ws63Rf.Scan
