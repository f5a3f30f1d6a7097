import Ws63Rf.StringSafetyProofs
import Ws63Rf.StrtolProofs

/-! Numbers one behind the other. `oal_strtol` leaves its end pointer where the
next call begins, so a text of numerals is read by as many calls, each from the
end that the one before it left. -/
namespace Ws63Rf.StrtolSequence
open Scan OalUtil Numerals StrtolProofs StringSafetyProofs

/-- So many calls, the content of one end pointer being where each begins. -/
def strtolEach (lBase : Int32) : Nat → Cursor OsalS8 → Run (List OsalSlong × Cursor OsalS8)
  | 0, pcNptr => return ([], pcNptr)
  | calls + 1, pcNptr => do
    let (value, endptr) ← oalStrtol pcNptr (some pcNptr) lBase
    let (values, last) ← strtolEach lBase calls (endptr.getD pcNptr)
    return (value :: values, last)

/-- Spaces, an optional `-` and a numeral of the base argument. -/
structure Item (base : Int32) where
  spaces : Nat
  negative : Bool
  text : List OsalS8
  digitBase : Nat
  number : Nat
  numeral : Numeral base text digitBase number

namespace Item
variable {base : Int32}

def chars (item : Item base) : List OsalS8 :=
  List.replicate item.spaces (chr ' ') ++ sign item.negative ++ item.text

/-- The number an item denotes. -/
def denotes (item : Item base) : Int := signed item.negative item.number

/-- A space or a sign keeps the item apart from the numeral before it. -/
def Separate (item : Item base) : Prop := 0 < item.spaces ∨ item.negative = true

theorem length_chars (item : Item base) :
    item.chars.length = item.spaces + (sign item.negative).length + item.text.length := by
  simp [chars, Nat.add_assoc]

/-- What keeps an item apart ends every numeral. -/
theorem Separate.ends {item : Item base} (separate : item.Separate) (digitBase : Nat)
    (rest : List OsalS8) : Ends digitBase (item.chars ++ rest) := by
  obtain ⟨spaces, negative, text, _, _, _⟩ := item
  cases spaces with
  | succ spaces =>
    rintro c ⟨rfl⟩
    exact ⟨not_isDigitOf_punctuation _ (.inl rfl), by decide⟩
  | zero =>
    rcases separate with positive | rfl
    · exact absurd positive (Nat.lt_irrefl 0)
    · rintro c ⟨rfl⟩
      exact ⟨not_isDigitOf_punctuation _ (.inr (.inl rfl)), by decide⟩

end Item

/-- The items in order, each apart from the one before it, and the last ended by
what follows. -/
def Sequence {base : Int32} (following : List OsalS8) : List (Item base) → Prop
  | [] => True
  | item :: items => Ends item.digitBase (items.flatMap Item.chars ++ following) ∧
    Sequence following items

variable {base : Int32} {following : List OsalS8}

theorem sequence_of_separate (items : List (Item base))
    (separate : ∀ item ∈ items.tail, item.Separate)
    (ends : ∀ item ∈ items.getLast?, Ends item.digitBase following) : Sequence following items := by
  induction items with
  | nil => trivial
  | cons item items ih =>
    cases items with
    | nil => exact ⟨ends item rfl, trivial⟩
    | cons next items =>
      refine ⟨?_, ih (fun item member => separate item (List.mem_cons_of_mem _ member)) ?_⟩
      · rw [List.flatMap_cons, List.append_assoc]
        exact (separate next List.mem_cons_self).ends _ _
      · intro last final
        exact ends last (by rwa [List.getLast?_cons_cons])

/-- One call takes one item, wherever it stands. -/
theorem strtol_item (item : Item base) (rest : List OsalS8) (c : OsalS8)
    (ends : isDigitOf item.digitBase c = false ∧ ¬ IsMarker c) (offset : Nat)
    (endp : Cursor OsalS8) : ∃ reads value,
    oalStrtol ⟨offset, item.chars ++ c :: rest⟩ (some endp) base =
      ⟨reads, .ok (value, some ⟨offset + item.chars.length, c :: rest⟩)⟩ ∧
    value.toInt = item.denotes.bmod (2 ^ 32) ∧
    ∀ read ∈ reads, read ≤ offset + item.chars.length := by
  obtain ⟨reads, value, ran, exact, near⟩ :=
    strtol_numeral item.spaces item.negative item.numeral ends.1 ends.2 (some endp) rest
  rw [← item.length_chars] at ran near
  have there := strtol_moved ran offset endp
  rw [Nat.zero_add, Nat.add_comm _ offset] at there
  refine ⟨_, value, there, exact, ?_⟩
  intro read member
  obtain ⟨first, made, rfl⟩ := List.mem_map.mp member
  have := near first made
  omega

/-- Before a terminated text there is always a character that ends a numeral
which the text ends. -/
theorem ends_next {digitBase : Nat} {after : List OsalS8} (ends : Ends digitBase after)
    (beyond : List OsalS8) : ∃ c rest, after ++ 0 :: beyond = c :: rest ∧
      isDigitOf digitBase c = false ∧ ¬ IsMarker c := by
  cases after with
  | nil =>
    exact ⟨0, beyond, rfl, not_isDigitOf_punctuation _ (.inr (.inr (.inr (.inl rfl)))), by decide⟩
  | cons c after => exact ⟨c, after ++ 0 :: beyond, rfl, ends c rfl⟩

/-- As many calls as there are items return their numbers in order, end behind
the last and read nothing further on. -/
theorem strtolEach_sequence (items : List (Item base)) (sequence : Sequence following items)
    (beyond : List OsalS8) (offset : Nat) : ∃ reads values,
    strtolEach base items.length
        ⟨offset, items.flatMap Item.chars ++ following ++ 0 :: beyond⟩ =
      ⟨reads, .ok (values, ⟨offset + (items.flatMap Item.chars).length, following ++ 0 :: beyond⟩)⟩ ∧
    values.map Int32.toInt = items.map (fun item => item.denotes.bmod (2 ^ 32)) ∧
    ∀ read ∈ reads, read ≤ offset + (items.flatMap Item.chars).length := by
  induction items generalizing offset with
  | nil => exact ⟨[], [], rfl, rfl, by simp⟩
  | cons item items ih =>
    obtain ⟨ends, sequence⟩ := sequence
    obtain ⟨c, rest, split, other⟩ := ends_next ends beyond
    obtain ⟨reads, value, ran, exact, near⟩ :=
      strtol_item item rest c other offset ⟨offset, item.chars ++ c :: rest⟩
    obtain ⟨more, values, remaining, others, nearer⟩ := ih sequence (offset + item.chars.length)
    rw [split] at remaining
    refine ⟨reads ++ more, value :: values, ?_, ?_, ?_⟩
    · rw [List.flatMap_cons, List.append_assoc, List.append_assoc, ← List.append_assoc _ following,
        split, List.length_cons, strtolEach, ran]
      simp only [Run.ok_bind, Option.getD_some, remaining, Run.pure_def, Run.after_mk,
        List.append_nil, List.length_append, Nat.add_assoc]
    · rw [List.map_cons, List.map_cons, exact, others]
    · intro read member
      rw [List.flatMap_cons, List.length_append]
      rcases List.mem_append.mp member with member | member
      · have := near read member
        omega
      · have := nearer read member
        omega

/-! ## Rendered integers -/

/-- An integer behind spaces, in the usual rendering. -/
def rendering (base : Nat) (known : base = 8 ∨ base = 10 ∨ base = 16) (spaced : Nat × Int32) :
    Item (Int32.ofNat base) where
  spaces := spaced.1
  negative := decide (spaced.2.toInt < 0)
  text := (Nat.toDigits base spaced.2.toInt.natAbs).map chr
  digitBase := base
  number := spaced.2.toInt.natAbs
  numeral := render_numeral known spaced.2.toInt.natAbs

theorem rendering_chars (base : Nat) (known : base = 8 ∨ base = 10 ∨ base = 16)
    (spaced : Nat × Int32) : (rendering base known spaced).chars =
      List.replicate spaced.1 (chr ' ') ++ render base spaced.2.toInt :=
  List.append_assoc _ _ _

theorem rendering_denotes (base : Nat) (known : base = 8 ∨ base = 10 ∨ base = 16)
    (spaced : Nat × Int32) :
    (rendering base known spaced).denotes.bmod (2 ^ 32) = spaced.2.toInt := by
  have written : (rendering base known spaced).denotes = spaced.2.toInt := signed_natAbs _
  have wrapped : (Int32.ofInt spaced.2.toInt).toInt = spaced.2.toInt.bmod (2 ^ 32) := Int32.toInt_ofInt
  rw [written, ← wrapped, Int32.ofInt_toInt]

/-- Any signed 32-bit integers, written one behind the other in base 8, 10 or 16
with a space in front of each non-negative one but the first, are what the calls
return, in order; they end where the text goes on and look no further. -/
theorem strtol_recovers_sequence (base : Nat) (known : base = 8 ∨ base = 10 ∨ base = 16)
    (numbers : List (Nat × Int32))
    (separate : ∀ spaced ∈ numbers.tail, 0 < spaced.1 ∨ spaced.2.toInt < 0)
    (following : List OsalS8) (ends : Ends base following) (beyond : List OsalS8) :
    let text := numbers.flatMap fun spaced =>
      List.replicate spaced.1 (chr ' ') ++ render base spaced.2.toInt
    ∃ reads, strtolEach (Int32.ofNat base) numbers.length ⟨0, text ++ following ++ 0 :: beyond⟩ =
        ⟨reads, .ok (numbers.map Prod.snd, ⟨text.length, following ++ 0 :: beyond⟩)⟩ ∧
      ∀ read ∈ reads, read ≤ text.length := by
  intro text
  have written : (numbers.map (rendering base known)).flatMap Item.chars = text := by
    rw [List.flatMap_map]
    exact congrArg numbers.flatMap (funext (rendering_chars base known))
  have sequence : Sequence following (numbers.map (rendering base known)) := by
    apply sequence_of_separate
    · rw [← List.map_tail]
      intro item member
      obtain ⟨spaced, inside, rfl⟩ := List.mem_map.mp member
      exact (separate spaced inside).imp_right decide_eq_true
    · intro item final
      rw [List.getLast?_map] at final
      obtain ⟨spaced, -, rfl⟩ := Option.mem_map.mp final
      exact ends
  obtain ⟨reads, values, ran, exact, near⟩ := strtolEach_sequence _ sequence beyond 0
  rw [List.length_map, written, Nat.zero_add] at ran
  rw [written, Nat.zero_add] at near
  have recovered : values = numbers.map Prod.snd := by
    apply List.map_injective_iff.mpr (fun _ _ => Int32.toInt_inj.mp)
    rw [exact, List.map_map, List.map_map]
    exact List.map_congr_left fun spaced _ => rendering_denotes base known spaced
  exact ⟨reads, recovered ▸ ran, near⟩

/-- `"12-3 0;"` is three numbers. -/
theorem strtol_recovers_sequence_signs : ∃ reads,
    strtolEach 10 3 ⟨0, [49, 50, 45, 51, 32, 48, 59, 0]⟩ =
        ⟨reads, .ok ([12, -3, 0], ⟨6, [59, 0]⟩)⟩ ∧
      ∀ read ∈ reads, read ≤ 6 :=
  strtol_recovers_sequence 10 (by decide) [(0, 12), (0, -3), (1, 0)] (by decide) [59]
    (by
      rintro c ⟨rfl⟩
      decide) []

end Ws63Rf.StrtolSequence
