import Ws63Rf.StrtolProofs

/-! `oal_strtoipv4` on dotted strings with any number of tokens, given that
`strtok_s` hands the tokens out. -/
namespace Ws63Rf.Strtoipv4Proofs
open Scan OalUtil Numerals StrtolProofs

/-! ## The nested parser -/

/-- The number `oal_strtol` makes of a token in base 10. -/
def tokenValue (token : List OsalS8) : OsalSlong :=
  match (oalStrtol ⟨0, token ++ [0]⟩ none 10).result with
  | .ok (value, _) => value
  | .error _ => 0

/-- Any terminated text is parsed, whatever lies behind its end. -/
theorem strtol_token (token behind : List OsalS8) :
    (oalStrtol ⟨0, token ++ 0 :: behind⟩ none 10).result = .ok (tokenValue token, none) := by
  obtain ⟨spaces, negative, body, rfl, opened⟩ := exists_opened token
  obtain ⟨digits, value, -, -, parsed⟩ := strtol_decimal spaces opened
  have terminated := parsed 0 (by decide) (by decide)
  simp only [← List.append_assoc] at terminated
  rw [terminated behind, tokenValue, terminated []]

/-! ## The token loop -/

/-- Started on a string, `strtok_s` hands out these tokens in order, each one
terminated, and then a null pointer. -/
def Yields {Ctx : Type} (strtokS : StrtokS Ctx) (separators : List OsalS8) :
    List (List OsalS8) → Option (List OsalS8) × Ctx → Prop
  | [], (returned, _) => returned = none
  | token :: tokens, (returned, ctx) => (∃ behind, returned = some (token ++ 0 :: behind)) ∧
    Yields strtokS separators tokens (strtokS none separators ctx)

/-- The maximal nonempty stretches without a separator. -/
def tokensOf (separators text : List OsalS8) : List (List OsalS8) :=
  (text.splitOnP separators.contains).filter (· ≠ [])

/-- One byte for each token, at a descending signed index. -/
def storeTokens : OsalS8 → List (List OsalS8) → Buffer → Buffer
  | _, [], ipv4Addr => ipv4Addr
  | paramNum, token :: tokens, ipv4Addr =>
    storeTokens (paramNum - 1) tokens
      (ipv4Addr.store paramNum.toInt (tokenValue token).toUInt32.toUInt8)

section Loop
variable {Ctx : Type} {strtokS : StrtokS Ctx}

/-- With a turn for each token the loop finishes and has stored them all. -/
theorem strtoipv4Loop_result (tokens : List (List OsalS8)) (call : Option (List OsalS8) × Ctx)
    (yields : Yields strtokS [chr '.'] tokens call) (fuel : Nat) (enough : tokens.length ≤ fuel)
    (paramNum : OsalS8) (ipv4Addr : Buffer) :
    (strtoipv4Loop strtokS fuel call paramNum ipv4Addr).result =
      .ok (some (storeTokens paramNum tokens ipv4Addr)) := by
  induction tokens generalizing call fuel paramNum ipv4Addr with
  | nil =>
    obtain ⟨returned, ctx⟩ := call
    cases yields
    cases fuel <;> rfl
  | cons token tokens ih =>
    obtain ⟨returned, ctx⟩ := call
    obtain ⟨⟨behind, rfl⟩, rest⟩ := yields
    cases fuel with
    | zero => exact absurd enough (by simp)
    | succ fuel =>
      have parsed := strtol_token token behind
      rw [strtoipv4Loop]
      generalize oalStrtol ⟨0, token ++ 0 :: behind⟩ none 10 = run at parsed
      obtain ⟨reads, result⟩ := run
      cases parsed
      exact ih _ rest fuel (by simpa using enough) _ _

end Loop

/-! ## Where the bytes go -/

/-- Above zero the descending index does not wrap. -/
private theorem toInt_pred (paramNum : OsalS8) (positive : 0 ≤ paramNum.toInt) :
    (paramNum - 1).toInt = paramNum.toInt - 1 := by
  have upper := paramNum.toInt_lt
  rw [Int8.toInt_sub]
  apply Int.bmod_eq_of_le
  · change _ ≤ paramNum.toInt - 1
    omega
  · change paramNum.toInt - 1 < _
    omega

theorem storeTokens_written (paramNum : OsalS8) (tokens : List (List OsalS8)) (ipv4Addr : Buffer) :
    ∃ stores, (storeTokens paramNum tokens ipv4Addr).written = stores ++ ipv4Addr.written := by
  induction tokens generalizing paramNum ipv4Addr with
  | nil => exact ⟨[], rfl⟩
  | cons token tokens ih =>
    obtain ⟨stores, extended⟩ := ih (paramNum - 1)
      (ipv4Addr.store paramNum.toInt (tokenValue token).toUInt32.toUInt8)
    exact ⟨stores ++ [paramNum.toInt], by rw [storeTokens, extended]; simp [Buffer.store]⟩

/-- Tokens that fit under the index are stored downwards from it, and nothing
around them changes. -/
theorem storeTokens_fits (paramNum : OsalS8) (tokens : List (List OsalS8))
    (fits : (tokens.length : Int) ≤ paramNum.toInt + 1) (ipv4Addr : Buffer) :
    (∀ i (inside : i < tokens.length), (storeTokens paramNum tokens ipv4Addr).byte
      (paramNum.toInt - i) = (tokenValue tokens[i]).toUInt32.toUInt8) ∧
    (∀ offset, offset ≤ paramNum.toInt - tokens.length ∨ paramNum.toInt < offset →
      (storeTokens paramNum tokens ipv4Addr).byte offset = ipv4Addr.byte offset) ∧
    ∃ stores, (storeTokens paramNum tokens ipv4Addr).written = stores ++ ipv4Addr.written ∧
      ∀ offset ∈ stores, paramNum.toInt - tokens.length < offset ∧ offset ≤ paramNum.toInt := by
  induction tokens generalizing paramNum ipv4Addr with
  | nil => exact ⟨by simp, fun _ _ => rfl, [], rfl, by simp⟩
  | cons token tokens ih =>
    rw [List.length_cons] at fits
    have below := toInt_pred paramNum (by omega)
    obtain ⟨holds, frame, stores, extended, near⟩ := ih (paramNum - 1) (by omega)
      (ipv4Addr.store paramNum.toInt (tokenValue token).toUInt32.toUInt8)
    rw [below] at holds frame near
    refine ⟨?_, ?_, stores ++ [paramNum.toInt], ?_, ?_⟩
    · intro i inside
      cases i with
      | zero =>
        rw [storeTokens, frame _ (.inr (by omega))]
        simp [Buffer.store]
      | succ i =>
        have place : paramNum.toInt - ((i + 1 : Nat) : Int) = paramNum.toInt - 1 - i := by omega
        rw [storeTokens, place, holds i (by simpa using inside)]
        rfl
    · intro offset outside
      rw [List.length_cons] at outside
      have other : offset ≠ paramNum.toInt := by omega
      rw [storeTokens, frame offset (by omega)]
      simp [Buffer.store, other]
    · rw [storeTokens, extended]
      simp [Buffer.store]
    · intro offset member
      rw [List.length_cons]
      rcases List.mem_append.mp member with later | here
      · have bound := near offset later
        omega
      · rw [List.mem_singleton.mp here]
        omega

/-- The address the tokens denote, and nothing else stored: the first four
tokens fill `ipv4_addr[0..3]` from its end, the rest of it is as before. -/
structure Decoded (tokens : List (List OsalS8)) (before after : Buffer) : Prop where
  decodes : ∀ i (inside : i < tokens.length), i < 4 → ∃ value,
    (∀ behind, (oalStrtol ⟨0, tokens[i] ++ 0 :: behind⟩ none 10).result = .ok (value, none)) ∧
      after.byte (3 - i) = value.toUInt32.toUInt8
  frame : ∀ offset : Int, 0 ≤ offset → offset < 4 - tokens.length →
    after.byte offset = before.byte offset
  within : ∃ stores, after.written = stores ++ before.written ∧
    ∀ offset ∈ stores, 0 ≤ offset ∧ offset ≤ 3

private theorem decoded_of_short (short : tokens.length ≤ 4) (ipv4Addr : Buffer) :
    Decoded tokens ipv4Addr (storeTokens 3 tokens ipv4Addr) := by
  have top : (3 : OsalS8).toInt = 3 := rfl
  obtain ⟨holds, frame, stores, extended, near⟩ :=
    storeTokens_fits 3 tokens (by rw [top]; omega) ipv4Addr
  rw [top] at holds frame near
  refine ⟨?_, ?_, stores, extended, ?_⟩
  · intro i inside _
    exact ⟨_, strtol_token tokens[i], holds i inside⟩
  · intro offset _ upper
    exact frame offset (.inl (by omega))
  · intro offset member
    have bound := near offset member
    omega

/-- A fifth token goes in front of the address. -/
private theorem not_decoded_of_long (long : 4 < tokens.length) (ipv4Addr : Buffer) :
    ¬ Decoded tokens ipv4Addr (storeTokens 3 tokens ipv4Addr) := by
  match tokens, long with
  | first :: second :: third :: fourth :: fifth :: tokens, _ =>
    intro decoded
    obtain ⟨stores, extended, near⟩ := decoded.within
    let five := ((((ipv4Addr.store 3 (tokenValue first).toUInt32.toUInt8).store 2
      (tokenValue second).toUInt32.toUInt8).store 1 (tokenValue third).toUInt32.toUInt8).store 0
        (tokenValue fourth).toUInt32.toUInt8).store (-1) (tokenValue fifth).toUInt32.toUInt8
    obtain ⟨later, rest⟩ := storeTokens_written (-2) tokens five
    have unfolded : storeTokens 3 (first :: second :: third :: fourth :: fifth :: tokens) ipv4Addr =
        storeTokens (-2) tokens five := rfl
    have same : stores ++ ipv4Addr.written = (later ++ [-1, 0, 1, 2, 3]) ++ ipv4Addr.written := by
      rw [← extended, unfolded, rest]
      simp [five, Buffer.store]
    have all : stores = later ++ [-1, 0, 1, 2, 3] := List.append_cancel_right same
    have impossible := near (-1) (by rw [all]; simp)
    omega

/-! ## `oal_strtoipv4` -/

/-- Joined nonempty tokens are the tokens of the joined text. -/
private theorem tokensOf_joined {separator : OsalS8} {tokens : List (List OsalS8)}
    (nonempty : tokens ≠ []) (proper : ∀ token ∈ tokens, token ≠ [] ∧ separator ∉ token) :
    tokensOf [separator] ([separator].intercalate tokens) = tokens := by
  have single : ([separator].contains : OsalS8 → Bool) = (· == separator) := by
    funext c
    simp [beq_eq_decide]
  have split := List.splitOn_intercalate separator (fun token member => (proper token member).2)
    nonempty
  rw [List.splitOn_eq_splitOnP] at split
  rw [tokensOf, single, split, List.filter_eq_self]
  intro token member
  simpa using (proper token member).1

/-- On every string of nonempty tokens joined by `'.'` the parser returns, and
it decodes the address and stays inside it exactly where there are at most four
tokens. -/
theorem strtoipv4_decodes_iff {Ctx : Type} (strtokS : StrtokS Ctx)
    (tokens : List (List OsalS8)) (nonempty : tokens ≠ [])
    (proper : ∀ token ∈ tokens, token ≠ [] ∧ chr '.' ∉ token)
    (s : CString) (joined : s.chars = [chr '.'].intercalate tokens) (beyond : List OsalS8)
    (pcCtx : Ctx)
    (yields : Yields strtokS [chr '.'] (tokensOf [chr '.'] s.chars)
      (strtokS (some (s.memory beyond)) [chr '.'] pcCtx))
    (fuel : Nat) (enough : tokens.length ≤ fuel) (ipv4Addr : Buffer) :
    ∃ after, (oalStrtoipv4 strtokS fuel pcCtx (s.memory beyond) ipv4Addr).result =
        .ok (some after) ∧
      (Decoded tokens ipv4Addr after ↔ tokens.length ≤ 4) := by
  rw [joined, tokensOf_joined nonempty proper] at yields
  refine ⟨_, strtoipv4Loop_result tokens _ yields fuel enough 3 ipv4Addr, ?_⟩
  constructor
  · intro decoded
    by_contra long
    exact not_decoded_of_long (by omega) ipv4Addr decoded
  · intro short
    exact decoded_of_short short ipv4Addr

/-- A tokenizer in place: the context is the memory it goes on from, and the
separator behind a token is overwritten with a NUL. -/
def tokenizeInPlace : StrtokS (List OsalS8) := fun string separators ctx =>
  let start := (string.getD ctx).dropWhile separators.contains
  let token := start.takeWhile fun c => c != 0 && !separators.contains c
  let behind := start.drop token.length
  if token = [] then (none, behind)
  else (some (token ++ 0 :: behind.tail), if behind.head? = some 0 then behind else behind.tail)

private theorem tokenizeInPlace_token {token : List OsalS8} (nonempty : token ≠ [])
    (proper : ∀ c ∈ token, c ≠ 0 ∧ c ≠ separator) (ends : delimiter = 0 ∨ delimiter = separator)
    (memory : string.getD ctx = token ++ delimiter :: behind) :
    tokenizeInPlace string [separator] ctx =
      (some (token ++ 0 :: behind), if delimiter = 0 then delimiter :: behind else behind) := by
  have unskipped : (token ++ delimiter :: behind).dropWhile [separator].contains =
      token ++ delimiter :: behind := by
    cases token with
    | nil => exact absurd rfl nonempty
    | cons first token =>
      have other := (proper first (by simp)).2
      simp [other]
  have taken : (token ++ delimiter :: behind).takeWhile
      (fun c => c != 0 && !List.contains [separator] c) = token := by
    rw [List.takeWhile_append_of_pos (by simpa using proper)]
    rcases ends with rfl | rfl <;> simp
  have dropped : (token ++ delimiter :: behind).drop token.length = delimiter :: behind := by simp
  simp only [tokenizeInPlace, memory, unskipped, taken, dropped, if_neg nonempty, List.tail_cons,
    List.head?_cons, Option.some.injEq]

/-- It hands out the tokens of every joined string. -/
theorem tokenizeInPlace_yields {separator : OsalS8} (visible : separator ≠ 0)
    (tokens : List (List OsalS8))
    (proper : ∀ token ∈ tokens, token ≠ [] ∧ ∀ c ∈ token, c ≠ 0 ∧ c ≠ separator)
    (string : Option (List OsalS8)) (ctx beyond : List OsalS8)
    (memory : string.getD ctx = [separator].intercalate tokens ++ 0 :: beyond) :
    Yields tokenizeInPlace [separator] tokens (tokenizeInPlace string [separator] ctx) := by
  induction tokens generalizing string ctx with
  | nil =>
    have start : string.getD ctx = 0 :: beyond := by simpa using memory
    simp [Yields, tokenizeInPlace, start, visible.symm]
  | cons token tokens ih =>
    obtain ⟨nonempty, chars⟩ := proper token (by simp)
    have rest : ∀ token ∈ tokens, token ≠ [] ∧ ∀ c ∈ token, c ≠ 0 ∧ c ≠ separator :=
      fun token member => proper token (List.mem_cons_of_mem _ member)
    cases tokens with
    | nil =>
      have last : string.getD ctx = token ++ 0 :: beyond := by simpa using memory
      rw [tokenizeInPlace_token nonempty chars (.inl rfl) last, if_pos rfl]
      exact ⟨⟨beyond, rfl⟩, ih rest none (0 :: beyond) (by simp)⟩
    | cons next tokens =>
      have further : string.getD ctx =
          token ++ separator :: ([separator].intercalate (next :: tokens) ++ 0 :: beyond) := by
        rw [memory]
        simp [List.intercalate]
      rw [tokenizeInPlace_token nonempty chars (.inr rfl) further, if_neg visible]
      exact ⟨⟨_, rfl⟩, ih rest none _ rfl⟩

/-- `"1.2.3.4.5"` stores its fifth byte in front of the address. -/
theorem strtoipv4_leaves_the_address :
    ¬ ∀ (strtokS : StrtokS (List OsalS8)) (tokens : List (List OsalS8)), tokens ≠ [] →
      (∀ token ∈ tokens, token ≠ [] ∧ chr '.' ∉ token) →
      ∀ (s : CString), s.chars = [chr '.'].intercalate tokens →
      ∀ (beyond pcCtx : List OsalS8),
      Yields strtokS [chr '.'] (tokensOf [chr '.'] s.chars)
        (strtokS (some (s.memory beyond)) [chr '.'] pcCtx) →
      ∀ fuel, tokens.length ≤ fuel → ∀ ipv4Addr : Buffer, ∃ after,
        (oalStrtoipv4 strtokS fuel pcCtx (s.memory beyond) ipv4Addr).result = .ok (some after) ∧
          Decoded tokens ipv4Addr after := by
  intro inside
  let s : CString := ⟨[49, 46, 50, 46, 51, 46, 52, 46, 53], by decide⟩
  let buffer : Buffer := ⟨fun _ => 0, []⟩
  have tokens : tokensOf [chr '.'] s.chars = [[49], [50], [51], [52], [53]] := by decide
  have yields : Yields tokenizeInPlace [chr '.'] (tokensOf [chr '.'] s.chars)
      (tokenizeInPlace (some (s.memory [])) [chr '.'] []) := by
    rw [tokens]
    exact tokenizeInPlace_yields (by decide) _ (by simp; decide) _ [] [] rfl
  obtain ⟨after, ran, -, -, stores, extended, near⟩ := inside tokenizeInPlace
    [[49], [50], [51], [52], [53]] (by decide) (by decide) s (by decide) [] [] yields 5 (by decide)
    buffer
  have code : (oalStrtoipv4 tokenizeInPlace 5 [] (s.memory []) buffer).result.map
      (fun after => after.map Buffer.written) = .ok (some [-1, 0, 1, 2, 3]) := by decide
  rw [ran] at code
  injection code with written
  injection written with written
  rw [extended] at written
  have all : stores = [-1, 0, 1, 2, 3] := by simpa [buffer] using written
  have impossible := near (-1) (by rw [all]; decide)
  exact absurd impossible.1 (by decide)

/-- `"192.168.0.1"` is decoded under the conditions. -/
theorem strtoipv4_decodes_iff_four :
    let s : CString := ⟨[49, 57, 50, 46, 49, 54, 56, 46, 48, 46, 49], by decide⟩
    let tokens : List (List OsalS8) := [[49, 57, 50], [49, 54, 56], [48], [49]]
    ∃ after, (oalStrtoipv4 tokenizeInPlace 4 [] (s.memory []) ⟨fun _ => 0, []⟩).result =
        .ok (some after) ∧
      (Decoded tokens ⟨fun _ => 0, []⟩ after ↔ tokens.length ≤ 4) :=
  strtoipv4_decodes_iff tokenizeInPlace [[49, 57, 50], [49, 54, 56], [48], [49]] (by decide)
    (by decide) ⟨[49, 57, 50, 46, 49, 54, 56, 46, 48, 46, 49], by decide⟩ (by decide) [] []
    (by
      have tokens : tokensOf [chr '.'] [49, 57, 50, 46, 49, 54, 56, 46, 48, 46, 49] =
          [[49, 57, 50], [49, 54, 56], [48], [49]] := by decide
      rw [tokens]
      exact tokenizeInPlace_yields (by decide) _ (by simp; decide) _ [] [] rfl)
    4 (by decide) ⟨fun _ => 0, []⟩

end Ws63Rf.Strtoipv4Proofs
