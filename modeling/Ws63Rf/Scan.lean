import Mathlib.Data.List.Basic
import Mathlib.Data.List.Range
import Mathlib.Data.List.TakeWhile
import Mathlib.Order.Bounds.Basic

/-! Code that walks a pointer along a block of memory, one character at a time.
A run keeps the offsets it read, so where a program looks is a fact about its
run and not only about its result. Memory is finite: a read past its last
character is an attempted read that yields nothing further. -/
namespace Ws63Rf.Scan

/-- What keeps a run from a result: a read past the accessible memory, or
signed arithmetic that leaves its type. -/
inductive Fault where
  | outOfBounds
  | signedOverflow
  deriving DecidableEq, Repr

/-- One run: the offsets read, oldest first, and the result. -/
structure Run (β : Type) where
  reads : List Nat
  result : Except Fault β
  deriving DecidableEq

/-- A pointer: its offset from where the scan began, and the characters from
it to the end of the accessible memory. -/
structure Cursor (α : Type) where
  offset : Nat
  rest : List α
  deriving DecidableEq

namespace Run

variable {β γ : Type}

/-- The same run, made after these reads. -/
def after (before : List Nat) (run : Run β) : Run β := ⟨before ++ run.reads, run.result⟩

/-- A faulting run stops where it faulted; its reads remain. -/
def bind (run : Run β) (next : β → Run γ) : Run γ :=
  match run.result with
  | .ok value => (next value).after run.reads
  | .error fault => ⟨run.reads, .error fault⟩

instance : Monad Run where
  pure value := ⟨[], .ok value⟩
  bind := bind

@[simp] theorem pure_def (value : β) : (pure value : Run β) = ⟨[], .ok value⟩ := rfl

@[simp] theorem ok_bind (reads : List Nat) (value : β) (next : β → Run γ) :
    ((⟨reads, .ok value⟩ : Run β) >>= next) = (next value).after reads := rfl

@[simp] theorem error_bind (reads : List Nat) (fault : Fault) (next : β → Run γ) :
    ((⟨reads, .error fault⟩ : Run β) >>= next) = ⟨reads, .error fault⟩ := rfl

@[simp] theorem after_mk (before reads : List Nat) (result : Except Fault β) :
    (⟨reads, result⟩ : Run β).after before = ⟨before ++ reads, result⟩ := rfl

@[simp] theorem reads_after (before : List Nat) (run : Run β) :
    (run.after before).reads = before ++ run.reads := rfl

@[simp] theorem result_after (before : List Nat) (run : Run β) :
    (run.after before).result = run.result := rfl

@[simp] theorem after_nil (run : Run β) : run.after [] = run := rfl

@[simp] theorem after_after (first second : List Nat) (run : Run β) :
    (run.after second).after first = run.after (first ++ second) := by
  simp [after]

/-- What the first part of a sequence reads, the sequence reads. -/
theorem reads_bind {read : Nat} {run : Run β} (next : β → Run γ) (made : read ∈ run.reads) :
    read ∈ (run >>= next).reads := by
  obtain ⟨reads, result⟩ := run
  cases result with
  | error fault => exact made
  | ok value => exact List.mem_append_left _ made

/-- Reads made before a sequence belong to its first part. -/
@[simp] theorem after_bind (before : List Nat) (run : Run β) (next : β → Run γ) :
    (run.after before >>= next) = (run >>= next).after before := by
  obtain ⟨reads, result⟩ := run
  cases result <;> simp

end Run

variable {α β γ σ : Type}

/-- `p[k]`: the read is logged whether or not it stays inside memory. -/
def Cursor.load (p : Cursor α) (k : Nat) : Run α :=
  ⟨[p.offset + k], match p.rest[k]? with
    | some c => .ok c
    | none => .error .outOfBounds⟩

/-- `p + k`. -/
def Cursor.advance (p : Cursor α) (k : Nat) : Cursor α := ⟨p.offset + k, p.rest.drop k⟩

/-- `p[k] = c`. -/
def Cursor.store (p : Cursor α) (k : Nat) (c : α) : Cursor α := ⟨p.offset, p.rest.set k c⟩

@[simp] theorem load_zero (offset : Nat) (c : α) (rest : List α) :
    (⟨offset, c :: rest⟩ : Cursor α).load 0 = ⟨[offset], .ok c⟩ := rfl

@[simp] theorem load_succ (offset k : Nat) (c : α) (rest : List α) :
    (⟨offset, c :: rest⟩ : Cursor α).load (k + 1) = (⟨offset + 1, rest⟩ : Cursor α).load k := by
  simp [Cursor.load, Nat.add_comm, Nat.add_left_comm]

@[simp] theorem advance_zero (p : Cursor α) : p.advance 0 = p := rfl

@[simp] theorem advance_succ (offset k : Nat) (c : α) (rest : List α) :
    (⟨offset, c :: rest⟩ : Cursor α).advance (k + 1) =
      (⟨offset + 1, rest⟩ : Cursor α).advance k := by
  simp [Cursor.advance, Nat.add_comm, Nat.add_left_comm]

/-- What one turn of a loop decides about the character under the pointer:
take it and go on, or leave the pointer on it. -/
inductive Turn (σ : Type) where
  | next (state : σ)
  | stop (state : σ)

/-- `for (; more(state); p++) { turn }`. -/
def walk (more : σ → Bool) (turn : σ → α → Except Fault (Turn σ)) (state : σ) (offset : Nat) :
    List α → Run (σ × Cursor α)
  | [] => if more state then ⟨[offset], .error .outOfBounds⟩ else pure (state, ⟨offset, []⟩)
  | c :: rest =>
    if more state then
      (⟨[offset], turn state c⟩ : Run (Turn σ)) >>= fun
        | .next state => walk more turn state (offset + 1) rest
        | .stop state => pure (state, ⟨offset, c :: rest⟩)
    else pure (state, ⟨offset, c :: rest⟩)

section Rules
variable {more : σ → Bool} {turn : σ → α → Except Fault (Turn σ)} {first middle last : σ}

theorem walk_done (done : more first = false) (offset : Nat) (rest : List α) :
    walk more turn first offset rest = ⟨[], .ok (first, ⟨offset, rest⟩)⟩ := by
  cases rest <;> simp [walk, done]

theorem walk_next (going : more first = true) (takes : turn first c = .ok (.next middle))
    (offset : Nat) (rest : List α) :
    walk more turn first offset (c :: rest) =
      (walk more turn middle (offset + 1) rest).after [offset] := by
  simp [walk, going, takes]

theorem walk_stop (going : more first = true) (stops : turn first c = .ok (.stop last))
    (offset : Nat) (rest : List α) :
    walk more turn first offset (c :: rest) = ⟨[offset], .ok (last, ⟨offset, c :: rest⟩)⟩ := by
  simp [walk, going, stops]

theorem walk_fault (going : more first = true) (faults : turn first c = .error fault)
    (offset : Nat) (rest : List α) :
    walk more turn first offset (c :: rest) = ⟨[offset], .error fault⟩ := by
  simp [walk, going, faults]

/-- A loop that goes on reads the character under its pointer, even where
memory has ended. -/
theorem walk_reads (going : more first = true) (offset : Nat) (rest : List α) :
    offset ∈ (walk more turn first offset rest).reads := by
  cases rest with
  | nil => simp [walk, going]
  | cons c rest =>
    simp only [walk, if_pos going]
    cases turn first c with
    | error fault => simp
    | ok taken => simp

/-- The loop takes every one of these characters in turn. -/
def Takes (more : σ → Bool) (turn : σ → α → Except Fault (Turn σ)) : σ → List α → σ → Prop
  | first, [], last => first = last
  | first, c :: rest, last => more first = true ∧
    ∃ middle, turn first c = .ok (.next middle) ∧ Takes more turn middle rest last

/-- A whole stretch of taken characters is read in order, once each, and the
loop goes on behind it. -/
theorem walk_takes (taken : List α) (takes : Takes more turn first taken last)
    (offset : Nat) (rest : List α) :
    walk more turn first offset (taken ++ rest) =
      (walk more turn last (offset + taken.length) rest).after
        (List.range' offset taken.length) := by
  induction taken generalizing first offset with
  | nil => cases takes; rfl
  | cons c taken ih =>
    obtain ⟨going, middle, step, remaining⟩ := takes
    rw [List.cons_append, walk_next going step, ih remaining, Run.after_after]
    simp [List.range'_succ, Nat.add_comm, Nat.add_left_comm]

/-- Where a character stops the loop in every state, whatever stands there and
behind it, the loop does the same in front of it. -/
theorem walk_stopped (turn : σ → α → Turn σ) (text : List α) (first : σ) (offset : Nat) :
    ∃ reads last n, n ≤ text.length ∧ ∀ c rest, (∀ state, turn state c = .stop state) →
      walk (fun _ => true) (fun state c => .ok (turn state c)) first offset (text ++ c :: rest) =
        ⟨reads, .ok (last, ⟨offset + n, text.drop n ++ c :: rest⟩)⟩ := by
  induction text generalizing first offset with
  | nil =>
    exact ⟨[offset], first, 0, Nat.le_refl 0, fun c rest stops =>
      walk_stop rfl (congrArg Except.ok (stops first)) offset rest⟩
  | cons d text ih =>
    cases taken : turn first d with
    | stop last =>
      exact ⟨[offset], last, 0, Nat.zero_le _, fun c rest _ =>
        walk_stop rfl (congrArg Except.ok taken) offset (text ++ c :: rest)⟩
    | next middle =>
      obtain ⟨reads, last, n, inside, ran⟩ := ih middle (offset + 1)
      refine ⟨offset :: reads, last, n + 1, Nat.succ_le_succ inside, fun c rest stops => ?_⟩
      rw [List.cons_append, walk_next rfl (congrArg Except.ok taken), ran c rest stops, Run.after_mk,
        Nat.add_assoc, Nat.add_comm 1 n]
      rfl

end Rules

/-- Behind a run of accepted characters a terminated text goes on with one
that is not accepted. -/
theorem takeWhile_ends {accepts : α → Bool} {final : α} (ends : accepts final = false)
    (text beyond : List α) : ∃ c rest,
      text ++ final :: beyond = text.takeWhile accepts ++ c :: rest ∧ accepts c = false := by
  induction text with
  | nil => exact ⟨final, beyond, rfl, ends⟩
  | cons c text ih =>
    cases accepted : accepts c with
    | false => exact ⟨c, text ++ final :: beyond, by simp [accepted], accepted⟩
    | true =>
      obtain ⟨next, rest, split, other⟩ := ih
      exact ⟨next, rest, by simp [accepted, split], other⟩

/-- `while (accepts(*p)) p++;`. -/
def skipWhile (accepts : α → Bool) (p : Cursor α) : Run (Cursor α) := do
  let (_, p) ← walk (fun () => true) (fun () c => .ok (if accepts c then .next () else .stop ()))
    () p.offset p.rest
  return p

private theorem skip_takes (accepts : α → Bool) (skipped : List α)
    (accepted : ∀ c ∈ skipped, accepts c = true) :
    Takes (fun () => true) (fun () c => .ok (if accepts c then .next () else .stop ()))
      () skipped () := by
  induction skipped with
  | nil => rfl
  | cons c skipped ih =>
    exact ⟨rfl, (), by simp [accepted c (by simp)],
      ih (fun c member => accepted c (List.mem_cons_of_mem _ member))⟩

/-- Skipping reads the accepted characters and the one that ends them. -/
theorem skipWhile_append (accepts : α → Bool) (skipped : List α)
    (accepted : ∀ c ∈ skipped, accepts c = true) (ends : accepts c = false)
    (offset : Nat) (rest : List α) :
    skipWhile accepts ⟨offset, skipped ++ c :: rest⟩ =
      ⟨List.range' offset (skipped.length + 1), .ok ⟨offset + skipped.length, c :: rest⟩⟩ := by
  rw [skipWhile, walk_takes skipped (skip_takes accepts skipped accepted),
    walk_stop rfl (show _ = Except.ok (Turn.stop ()) by simp [ends])]
  simp [List.range'_1_concat]

/-- Skipping never ends inside accepted characters: what is behind them is
read, whatever it is. -/
theorem skipWhile_reads (accepts : α → Bool) (skipped : List α)
    (accepted : ∀ c ∈ skipped, accepts c = true) (offset : Nat) (rest : List α) :
    offset + skipped.length ∈ (skipWhile accepts ⟨offset, skipped ++ rest⟩).reads := by
  rw [skipWhile, walk_takes skipped (skip_takes accepts skipped accepted), Run.after_bind,
    Run.reads_after]
  apply List.mem_append_right
  apply Run.reads_bind
  exact walk_reads rfl _ rest

/-- Skipping along a terminated text takes the pointer to its first character
that is not accepted, the terminator if there is no other. -/
theorem skipWhile_terminated (accepts : α → Bool) {final : α} (ends : accepts final = false)
    (text beyond : List α) (offset : Nat) :
    ∃ reads, skipWhile accepts ⟨offset, text ++ final :: beyond⟩ =
      ⟨reads, .ok ⟨offset + (text.takeWhile accepts).length,
        text.dropWhile accepts ++ final :: beyond⟩⟩ := by
  obtain ⟨c, rest, split, other⟩ := takeWhile_ends ends text beyond
  have whole : text.takeWhile accepts ++ (text.dropWhile accepts ++ final :: beyond) =
      text.takeWhile accepts ++ c :: rest := by
    rw [← split, ← List.append_assoc, List.takeWhile_append_dropWhile]
  have behind : text.dropWhile accepts ++ final :: beyond = c :: rest := List.append_cancel_left whole
  rw [behind, split]
  exact ⟨_, skipWhile_append accepts _ (fun c member => List.mem_takeWhile_imp member) other offset rest⟩

/-! ## Runs that return -/

/-- If the run returns, it has read in front of the limit only, and what it
returns is as described. -/
def Run.Returns (limit : Nat) (post : β → Prop) (run : Run β) : Prop :=
  ∀ value, run.result = .ok value → post value ∧ ∀ read ∈ run.reads, read < limit

/-- The memory from the pointer on ends at the limit. -/
def Cursor.EndsAt (limit : Nat) (p : Cursor α) : Prop := p.offset + p.rest.length = limit

section Returns
variable {limit : Nat} {post : β → Prop} {other : γ → Prop}

theorem returns_pure (holds : post value) : (pure value : Run β).Returns limit post := by
  rintro _ ⟨rfl⟩
  exact ⟨holds, by simp⟩

theorem Run.Returns.bind {run : Run β} {next : β → Run γ} (returns : run.Returns limit post)
    (goesOn : ∀ value, post value → (next value).Returns limit other) :
    (run >>= next).Returns limit other := by
  obtain ⟨reads, result⟩ := run
  cases result with
  | error fault => rintro _ ⟨⟩
  | ok first =>
    intro value made
    obtain ⟨holds, before⟩ := returns first rfl
    obtain ⟨last, later⟩ := goesOn first holds value made
    exact ⟨last, fun read member => (List.mem_append.mp member).elim (before read) (later read)⟩

/-- A run that reads at the limit does not return. -/
theorem Run.Returns.not_ok {run : Run β} (returns : run.Returns limit post)
    (past : limit ∈ run.reads) (value : β) : run.result ≠ .ok value := fun made =>
  Nat.lt_irrefl limit ((returns value made).2 limit past)

/-- A read that yields a character was in front of the limit. -/
theorem returns_load {p : Cursor α} (ends : p.EndsAt limit) (k : Nat) :
    (p.load k).Returns limit fun _ => p.offset + k < limit := by
  intro c made
  have inside : k < p.rest.length := by
    by_contra outside
    rw [Cursor.load, List.getElem?_eq_none (Nat.le_of_not_lt outside)] at made
    cases made
  have below : p.offset + k < limit := by
    rw [← ends]
    omega
  exact ⟨below, fun read member => List.mem_singleton.mp member ▸ below⟩

theorem Cursor.EndsAt.advance {p : Cursor α} (ends : p.EndsAt limit) {k : Nat}
    (inside : p.offset + k ≤ limit) : (p.advance k).EndsAt limit := by
  simp only [Cursor.EndsAt, Cursor.advance, List.length_drop] at ends ⊢
  omega

theorem returns_walk (more : σ → Bool) (turn : σ → α → Except Fault (Turn σ)) (state : σ)
    {p : Cursor α} (ends : p.EndsAt limit) :
    (walk more turn state p.offset p.rest).Returns limit fun r => r.2.EndsAt limit := by
  obtain ⟨offset, chars⟩ := p
  induction chars generalizing state offset with
  | nil =>
    cases going : more state with
    | false =>
      simp only [walk, going]
      exact returns_pure ends
    | true =>
      simp only [walk, going]
      rintro _ ⟨⟩
  | cons c chars ih =>
    cases going : more state with
    | false =>
      rw [walk_done going]
      exact returns_pure ends
    | true =>
      have place : offset + (chars.length + 1) = limit := ends
      have below : offset < limit := by omega
      have behind : Cursor.EndsAt limit ⟨offset + 1, chars⟩ := by
        rw [← place]
        exact Nat.add_right_comm ..
      cases taken : turn state c with
      | error fault =>
        rw [walk_fault going taken]
        rintro _ ⟨⟩
      | ok decided =>
        cases decided with
        | stop last =>
          rw [walk_stop going taken]
          rintro _ ⟨rfl⟩
          exact ⟨ends, by simpa using below⟩
        | next middle =>
          rw [walk_next going taken]
          intro last made
          obtain ⟨holds, later⟩ := ih middle (offset + 1) behind last made
          refine ⟨holds, ?_⟩
          rintro read (_ | ⟨_, member⟩)
          · exact below
          · exact later read member

theorem returns_skipWhile (accepts : α → Bool) {p : Cursor α} (ends : p.EndsAt limit) :
    (skipWhile accepts p).Returns limit (Cursor.EndsAt limit) :=
  (returns_walk _ _ () ends).bind fun _ holds => returns_pure holds

theorem returns_foldlM {ι : Type} {turn : β → ι → Run β} (post : β → Prop) (indices : List ι)
    (step : ∀ state i, post state → (turn state i).Returns limit post) (state : β)
    (holds : post state) : (indices.foldlM turn state).Returns limit post := by
  induction indices generalizing state with
  | nil => exact returns_pure holds
  | cons i indices ih =>
    rw [List.foldlM_cons]
    exact (step state i holds).bind ih

end Returns

/-! ## Longest prefixes -/

/-- `n` is the length of the longest prefix in the language. -/
def LongestPrefix (language : List α → Prop) (text : List α) (n : Nat) : Prop :=
  IsGreatest {n | ∃ word, word <+: text ∧ language word ∧ word.length = n} n

/-- Some prefix is in the language. -/
def HasPrefix (language : List α → Prop) (text : List α) : Prop :=
  ∃ word, word <+: text ∧ language word

theorem length_le_takeWhile {accepts : α → Bool} {word text : List α} (front : word <+: text)
    (accepted : ∀ c ∈ word, accepts c = true) :
    word.length ≤ (text.takeWhile accepts).length := by
  obtain ⟨rest, rfl⟩ := front
  rw [List.takeWhile_append_of_pos accepted]
  simp

/-- Words that are nonempty runs of accepted characters have their longest
representative at the front of a text where acceptance first fails. -/
theorem longestPrefix_takeWhile {language : List α → Prop} {accepts : α → Bool} {text : List α}
    (runs : ∀ word, word <+: text →
      (language word ↔ word ≠ [] ∧ ∀ c ∈ word, accepts c = true))
    (nonempty : text.takeWhile accepts ≠ []) :
    LongestPrefix language text (text.takeWhile accepts).length := by
  constructor
  · have front : text.takeWhile accepts <+: text := List.takeWhile_prefix accepts
    exact ⟨_, front, (runs _ front).mpr ⟨nonempty, fun c member => List.mem_takeWhile_imp member⟩, rfl⟩
  · rintro n ⟨word, front, inside, rfl⟩
    exact length_le_takeWhile front ((runs word front).mp inside).2

end Ws63Rf.Scan
