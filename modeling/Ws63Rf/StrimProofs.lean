import Ws63Rf.OalUtil
import Mathlib.Data.List.DropRight

/-! `oal_strim` against what its header comment asks for: a string without the
spaces at its two ends. The function ends its result at the first space behind
the leading ones, so it does this exactly for strings of a single word. -/
namespace Ws63Rf.StrimProofs
open Scan OalUtil

def isSpace (c : OsalS8) : Bool := c == chr ' '

/-- The NUL-terminated string a pointer points at. -/
def stringAt (p : Cursor OsalS8) : List OsalS8 := p.rest.takeWhile (· != 0)

/-- A text without its leading and its trailing spaces. -/
def trimmed (text : List OsalS8) : List OsalS8 := (text.dropWhile isSpace).rdropWhile isSpace

/-- What `oal_strim` keeps: from the first character that is no space up to the
next space. -/
def firstWord (text : List OsalS8) : List OsalS8 :=
  (text.dropWhile isSpace).takeWhile fun c => !isSpace c

/-- Spaces, characters that are no spaces, and spaces. -/
def SingleWord (text : List OsalS8) : Prop :=
  ∃ leading word trailing, text = leading ++ word ++ trailing ∧
    (∀ c ∈ leading, isSpace c = true) ∧ (∀ c ∈ word, isSpace c = false) ∧
    ∀ c ∈ trailing, isSpace c = true

/-! ## The two scans -/

theorem takeWhile_inWord {text : List OsalS8} (noNul : (0 : OsalS8) ∉ text) :
    text.takeWhile (fun c => c != chr ' ' && c != 0) = text.takeWhile fun c => !isSpace c := by
  induction text with
  | nil => rfl
  | cons c text ih =>
    rw [List.mem_cons, not_or] at noNul
    have inside : c ≠ 0 := fun nul => noNul.1 nul.symm
    simp only [List.takeWhile_cons, ih noNul.2]
    simp [isSpace, inside, bne]

/-- The pointer comes back behind the leading spaces, and a NUL is stored where
the first word ends. -/
theorem strim_result (s : CString) (beyond : List OsalS8) (offset : Nat) :
    (oalStrim ⟨offset, s.memory beyond⟩).result =
      .ok ⟨offset + (s.chars.takeWhile isSpace).length,
        (s.chars.dropWhile isSpace ++ 0 :: beyond).set (firstWord s.chars).length 0⟩ := by
  have noNul : (0 : OsalS8) ∉ s.chars.dropWhile isSpace := fun member =>
    s.noNul ((List.dropWhile_suffix _).mem member)
  obtain ⟨reads, first⟩ := skipWhile_terminated isSpace (show isSpace 0 = false by decide)
    s.chars beyond offset
  obtain ⟨more, second⟩ := skipWhile_terminated (fun c => c != chr ' ' && c != 0)
    (show (0 != chr ' ' && 0 != (0 : OsalS8)) = false by decide) (s.chars.dropWhile isSpace) beyond
    (offset + (s.chars.takeWhile isSpace).length)
  change (skipWhile isSpace ⟨offset, s.chars ++ 0 :: beyond⟩ >>= _).result = _
  rw [first, Run.ok_bind, second, takeWhile_inWord noNul]
  simp [Cursor.store, firstWord]

theorem firstWord_front (text : List OsalS8) : firstWord text <+: text.dropWhile isSpace :=
  List.takeWhile_prefix _

theorem firstWord_noNul (s : CString) : (0 : OsalS8) ∉ firstWord s.chars := fun member =>
  s.noNul ((List.dropWhile_suffix _).mem ((firstWord_front _).mem member))

theorem firstWord_noSpace {text : List OsalS8} (member : c ∈ firstWord text) : isSpace c = false := by
  simpa using List.mem_takeWhile_imp member

/-- The pointer that comes back holds the first word and its NUL. -/
theorem strim_holds (s : CString) (beyond : List OsalS8) (offset : Nat) : ∃ first behind,
    (oalStrim ⟨offset, s.memory beyond⟩).result = .ok ⟨first, firstWord s.chars ++ 0 :: behind⟩ := by
  obtain ⟨rest, split⟩ := firstWord_front s.chars
  rw [strim_result, ← split, List.append_assoc]
  cases rest with
  | nil => exact ⟨offset + (s.chars.takeWhile isSpace).length, beyond, by simp⟩
  | cons c rest =>
    exact ⟨offset + (s.chars.takeWhile isSpace).length, rest ++ 0 :: beyond, by simp⟩

theorem stringAt_terminated {text : List OsalS8} (noNul : (0 : OsalS8) ∉ text) (offset : Nat)
    (behind : List OsalS8) : stringAt ⟨offset, text ++ 0 :: behind⟩ = text := by
  have inside : ∀ c ∈ text, (c != 0) = true := by
    rintro c member
    simp only [bne_iff_ne, ne_eq]
    rintro rfl
    exact noNul member
  simp [stringAt, List.takeWhile_append_of_pos inside]

/-- A word on its own is left as it is. -/
theorem strim_word {word : List OsalS8} (noNul : (0 : OsalS8) ∉ word)
    (noSpace : ∀ c ∈ word, isSpace c = false) (offset : Nat) (behind : List OsalS8) :
    (oalStrim ⟨offset, word ++ 0 :: behind⟩).result = .ok ⟨offset, word ++ 0 :: behind⟩ := by
  have none : word.takeWhile isSpace = [] ∧ word.dropWhile isSpace = word := by
    cases word with
    | nil => exact ⟨rfl, rfl⟩
    | cons c word => simp [noSpace c List.mem_cons_self]
  have all : firstWord word = word := by
    rw [firstWord, none.2, List.takeWhile_eq_self_iff]
    intro c member
    simp [noSpace c member]
  have result := strim_result ⟨word, noNul⟩ behind offset
  rw [none.1, none.2, all, CString.memory] at result
  rw [result]
  simp

/-! ## Trimming -/

/-- Spaces behind a text that does not end with one are what trimming takes
off its end. -/
theorem rdropWhile_word {word trailing : List OsalS8} (noSpace : ∀ c ∈ word, isSpace c = false)
    (spaces : ∀ c ∈ trailing, isSpace c = true) :
    (word ++ trailing).rdropWhile isSpace = word := by
  induction trailing using List.reverseRecOn with
  | nil =>
    rw [List.append_nil, List.rdropWhile_eq_self_iff]
    intro nonempty
    simp [noSpace _ (List.getLast_mem nonempty)]
  | append_singleton trailing c ih =>
    rw [← List.append_assoc, List.rdropWhile_concat_pos _ _ _ (spaces c (by simp))]
    exact ih fun c member => spaces c (List.mem_append_left _ member)

/-- The first word is the trimmed text exactly where it is the only one. -/
theorem firstWord_eq_trimmed_iff (text : List OsalS8) :
    firstWord text = trimmed text ↔ SingleWord text := by
  constructor
  · intro same
    refine ⟨text.takeWhile isSpace, firstWord text,
      (text.dropWhile isSpace).rtakeWhile isSpace, ?_, ?_, ?_, ?_⟩
    · rw [same, List.append_assoc, trimmed, List.rdropWhile_append_rtakeWhile,
        List.takeWhile_append_dropWhile]
    · intro c member
      exact List.mem_takeWhile_imp member
    · intro c member
      exact firstWord_noSpace member
    · intro c member
      exact List.mem_rtakeWhile_imp member
  · rintro ⟨leading, word, trailing, rfl, before, noSpace, behind⟩
    cases word with
    | nil =>
      have blank : (leading ++ [] ++ trailing).dropWhile isSpace = [] := by
        rw [List.dropWhile_eq_nil_iff]
        simpa [or_imp, forall_and] using ⟨before, behind⟩
      rw [firstWord, trimmed, blank]
      rfl
    | cons c word =>
      have body : (leading ++ (c :: word) ++ trailing).dropWhile isSpace = (c :: word) ++ trailing := by
        rw [List.append_assoc, List.dropWhile_append_of_pos before]
        simp [noSpace c List.mem_cons_self]
      rw [firstWord, trimmed, body, rdropWhile_word noSpace behind,
        List.takeWhile_append_of_pos (by simpa using noSpace)]
      cases trailing with
      | nil => simp
      | cons next trailing => simp [behind next List.mem_cons_self]

/-! ## The claim of the header -/

/-- The run leaves the trimmed string, and another run on it changes nothing. -/
structure Trims (s : CString) (returned : Cursor OsalS8) : Prop where
  string : stringAt returned = trimmed s.chars
  again : (oalStrim returned).result = .ok returned

/-- On every string the function returns; it trims the string exactly where no
space stands between two other characters. -/
theorem strim_trims_iff (s : CString) (beyond : List OsalS8) : ∃ returned,
    (oalStrim ⟨0, s.memory beyond⟩).result = .ok returned ∧
      (Trims s returned ↔ SingleWord s.chars) := by
  obtain ⟨offset, behind, result⟩ := strim_holds s beyond 0
  refine ⟨_, result, ?_⟩
  rw [← firstWord_eq_trimmed_iff]
  have held := stringAt_terminated (firstWord_noNul s) offset behind
  constructor
  · rintro ⟨string, -⟩
    rw [← held, string]
  · intro same
    refine ⟨held.trans same, ?_⟩
    exact strim_word (firstWord_noNul s) (fun c member => firstWord_noSpace member) offset behind

/-- Of `"a b"` only `"a"` is left. -/
theorem strim_drops_second_word :
    ¬ ∀ (s : CString) (beyond : List OsalS8) (returned : Cursor OsalS8),
      (oalStrim ⟨0, s.memory beyond⟩).result = .ok returned → Trims s returned := by
  intro trims
  have left := (trims ⟨[chr 'a', chr ' ', chr 'b'], by decide⟩ []
    ⟨0, [chr 'a', 0, chr 'b', 0]⟩ (by decide)).string
  revert left
  decide

end Ws63Rf.StrimProofs
