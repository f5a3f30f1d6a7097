import Ws63Rf.AddressProofs

/-! `oal_strtoaddr` and `oal_strtoipv6` on whatever memory they are pointed at.
They return exactly where it has enough characters that are no separators; the
bytes stored are then those of the first of them, digits or not, and nothing is
stored outside the address. -/
namespace Ws63Rf.AddressTextProofs
open Scan OalUtil Nibbles AddressProofs

/-! ## Pairs of stored values -/

/-- The bytes that come out of the values stored for two characters each: the
first is shifted out of its byte as far as it is no digit. -/
def paired : List OsalU8 → List OsalU8
  | high :: low :: values => UInt8.ofNat (high.toNat * 16 + low.toNat) :: paired values
  | _ => []

theorem length_paired (n : Nat) (values : List OsalU8) (even : values.length = 2 * n) :
    (paired values).length = n := by
  induction n generalizing values with
  | zero =>
    obtain rfl := List.length_eq_zero_iff.mp even
    rfl
  | succ n ih =>
    match values with
    | [] | [_] =>
      simp only [List.length_nil, List.length_singleton] at even
      omega
    | high :: low :: values =>
      rw [paired, List.length_cons, ih values (by simp only [List.length_cons] at even; omega)]

/-- Two values leave their byte, whatever was there before. -/
theorem putNibble_pair (start : Nat) (high low : OsalU8) (buffer : Buffer) :
    putNibble (2 * start + 1) low (putNibble (2 * start) high buffer) =
      (buffer.store start high).store start (UInt8.ofNat (high.toNat * 16 + low.toNat)) := by
  have evenHalf : 2 * start / 2 = start := by omega
  have oddHalf : (2 * start + 1) / 2 = start := by omega
  have even : 2 * start % 2 = 0 := by omega
  have odd : (2 * start + 1) % 2 = 1 := by omega
  simp only [putNibble, evenHalf, oddHalf, even, odd, Nat.mul_zero, Nat.mul_one, Nat.zero_add,
    Buffer.store, Function.update_self, UInt8.ofNat_toNat]

/-- Stores behind two to one byte. -/
theorem stored_behind {start : Nat} {byte first : OsalU8} {bytes : List OsalU8} {before after : Buffer}
    (rest : Stored (start + 1) bytes ((before.store start first).store start byte) after) :
    Stored start (byte :: bytes) before after := by
  obtain ⟨holds, frame, stores, extended, near⟩ := rest
  refine ⟨?_, ?_, stores ++ [(start : Int), (start : Int)], by rw [extended]; simp [Buffer.store], ?_⟩
  · intro i inside
    cases i with
    | zero =>
      rw [frame _ (.inl (by omega))]
      simp [Buffer.store]
    | succ i =>
      have moved : start + (i + 1) = start + 1 + i := by omega
      rw [moved, holds i (by simpa using inside)]
      rfl
  · intro offset outside
    rw [List.length_cons] at outside
    have other : offset ≠ (start : Int) := by omega
    rw [frame offset (by omega)]
    simp [Buffer.store, Function.update_of_ne other]
  · intro offset member
    rw [List.length_cons]
    rcases List.mem_append.mp member with later | here
    · have bound := near offset later
      omega
    · have place : offset = start := by simpa using here
      omega

/-- An even number of values from a high nibble on. -/
theorem putNibbles_paired (n start : Nat) (values : List OsalU8) (even : values.length = 2 * n)
    (buffer : Buffer) :
    Stored start (paired values) buffer (putNibbles (2 * start) values buffer) := by
  induction n generalizing start values buffer with
  | zero =>
    obtain rfl := List.length_eq_zero_iff.mp even
    exact ⟨by simp [paired], fun _ _ => rfl, [], rfl, by simp⟩
  | succ n ih =>
    match values with
    | [] | [_] =>
      simp only [List.length_nil, List.length_singleton] at even
      omega
    | high :: low :: values =>
      have rest := ih (start + 1) values (by simp only [List.length_cons] at even; omega)
        (putNibble (2 * start + 1) low (putNibble (2 * start) high buffer))
      rw [putNibble_pair] at rest
      have step : putNibbles (2 * start) (high :: low :: values) buffer =
          putNibbles (2 * (start + 1)) values
            ((buffer.store start high).store start (UInt8.ofNat (high.toNat * 16 + low.toNat))) := by
        rw [← putNibble_pair]
        rfl
      rw [step]
      exact stored_behind rest

/-- No value is stored behind the byte of the last. -/
theorem putNibbles_written (position : Nat) (values : List OsalU8) (buffer : Buffer) :
    ∃ stores, (putNibbles position values buffer).written = stores ++ buffer.written ∧
      ∀ offset ∈ stores, 0 ≤ offset ∧ 2 * offset < (position + values.length : Nat) := by
  induction values generalizing position buffer with
  | nil => exact ⟨[], rfl, by simp⟩
  | cons value values ih =>
    obtain ⟨stores, extended, near⟩ := ih (position + 1) (putNibble position value buffer)
    refine ⟨stores ++ [((position / 2 : Nat) : Int)], ?_, ?_⟩
    · rw [putNibbles, extended, List.append_assoc]
      rfl
    · intro offset member
      rw [List.length_cons]
      rcases List.mem_append.mp member with later | here
      · have bound := near offset later
        omega
      · rw [List.mem_singleton.mp here]
        omega

/-- Values from the first low nibble on come out behind the nibble that was
there. -/
theorem putNibbles_low_paired (n : Nat) (values : List OsalU8) (odd : values.length = 2 * n + 1)
    (buffer : Buffer) :
    Stored 0 (paired (UInt8.ofNat ((buffer.byte 0).toNat % 16) :: values)) buffer
      (putNibbles 1 values buffer) := by
  have nonempty : values ≠ [] := by
    rintro rfl
    simp at odd
  have even : (UInt8.ofNat ((buffer.byte 0).toNat % 16) :: values).length = 2 * (n + 1) := by
    rw [List.length_cons, odd]
    rfl
  have bytes := putNibbles_low_first values nonempty buffer
  obtain ⟨holds, frame, -⟩ := putNibbles_paired (n + 1) 0 _ even buffer
  obtain ⟨stores, extended, near⟩ := putNibbles_written 1 values buffer
  rw [Nat.mul_zero, ← bytes] at holds frame
  refine ⟨holds, frame, stores, extended, fun offset member => ?_⟩
  have bound := near offset member
  rw [length_paired (n + 1) _ even]
  omega

/-- Where a run that returns only if it has enough ends, and with what. -/
private theorem returned_iff {run : Run Buffer} {enough : Prop} {Left : Buffer → Prop}
    (inside : enough → ∃ after, run.result = .ok after ∧ Left after)
    (outside : ¬ enough → ∀ after, run.result ≠ .ok after) :
    ((∃ after, run.result = .ok after) ↔ enough) ∧
      ∀ after, run.result = .ok after → Left after := by
  constructor
  · constructor
    · rintro ⟨after, returned⟩
      by_contra short
      exact outside short after returned
    · intro long
      obtain ⟨after, returned, -⟩ := inside long
      exact ⟨after, returned⟩
  · intro after returned
    have long : enough := by
      by_contra short
      exact outside short after returned
    obtain ⟨_, again, left⟩ := inside long
    rw [returned] at again
    cases again
    exact left

/-! ## `oal_strtoaddr` -/

theorem strtoaddr_returns {limit : Nat} {pcParam : Cursor OsalS8} (ends : pcParam.EndsAt limit)
    (macAddr : Buffer) : (oalStrtoaddr pcParam macAddr).Returns limit fun _ => True := by
  refine (returns_foldlM (fun state => state.1.EndsAt limit) _
    (fun state charIndex ends => ?_) (pcParam, macAddr) ends).bind fun _ _ => returns_pure trivial
  refine (returns_skipWhile isSeparator ends).bind fun pcParam ends => ?_
  have digit : (oalStrtohex pcParam).Returns limit fun _ => pcParam.offset < limit :=
    (returns_load ends 0).bind fun _ below => returns_pure below
  refine digit.bind fun _ below => ?_
  exact returns_pure (ends.advance below)

/-- The function returns where twelve characters are no separators. It then
leaves the bytes of the first twelve, independently of what was there, and
stores nothing outside the six bytes. -/
theorem strtoaddr_on_any_memory (memory : List OsalS8) (macAddr : Buffer) :
    ((∃ after, (oalStrtoaddr ⟨0, memory⟩ macAddr).result = .ok after) ↔
      12 ≤ (significant isSeparator memory).length) ∧
    ∀ after, (oalStrtoaddr ⟨0, memory⟩ macAddr).result = .ok after →
      Stored 0 (paired (((significant isSeparator memory).map hexOf).take 12)) macAddr after := by
  have ends : Cursor.EndsAt memory.length ⟨0, memory⟩ := Nat.zero_add _
  apply returned_iff
  · intro enough
    obtain ⟨reads, ran, -⟩ := strtoaddr_inside memory enough macAddr 0 []
    rw [List.append_nil] at ran
    exact ⟨_, congrArg Run.result ran, putNibbles_paired 6 0 _ (by simp [enough]) macAddr⟩
  · intro short
    have past := strtoaddr_outside memory (Nat.lt_of_not_le short) macAddr 0 []
    rw [List.append_nil, Nat.zero_add] at past
    exact (strtoaddr_returns ends macAddr).not_ok past

/-! ## `oal_strtoipv6` -/

/-- The values whose bytes come out: behind a leading `':'` the first of them is
the nibble that was there. -/
def ipv6Values (memory : List OsalS8) (ipv6Addr : Buffer) : List OsalU8 :=
  if memory.head? = some (chr ':') then
    UInt8.ofNat ((ipv6Addr.byte 0).toNat % 16) :: ((significant isColon memory).map hexOf).take 31
  else ((significant isColon memory).map hexOf).take 32

theorem strtoipv6_returns {limit : Nat} {pcParam : Cursor OsalS8} (ends : pcParam.EndsAt limit)
    (ipv6Addr : Buffer) : (oalStrtoipv6 pcParam ipv6Addr).Returns limit fun _ => True :=
  (returns_walk _ _ (0, ipv6Addr) ends).bind fun _ _ => returns_pure trivial

theorem ipv6_stored (memory : List OsalS8) (ipv6Addr : Buffer)
    (enough : 32 ≤ firstIndex memory + (significant isColon memory).length) :
    Stored 0 (paired (ipv6Values memory ipv6Addr)) ipv6Addr
      (putNibbles (firstIndex memory)
        (((significant isColon memory).map hexOf).take (32 - firstIndex memory)) ipv6Addr) := by
  by_cases led : memory.head? = some (chr ':')
  · have index : firstIndex memory = 1 := if_pos led
    rw [index] at enough ⊢
    rw [ipv6Values, if_pos led]
    refine putNibbles_low_paired 15 _ ?_ ipv6Addr
    rw [List.length_take, List.length_map]
    omega
  · have index : firstIndex memory = 0 := if_neg led
    rw [index] at enough ⊢
    rw [ipv6Values, if_neg led]
    exact putNibbles_paired 16 0 _ (by simpa using enough) ipv6Addr

/-- The function returns where enough characters are no `':'`, and stores
nothing outside the sixteen bytes. -/
theorem strtoipv6_on_any_memory (memory : List OsalS8) (ipv6Addr : Buffer) :
    ((∃ after, (oalStrtoipv6 ⟨0, memory⟩ ipv6Addr).result = .ok after) ↔
      32 ≤ firstIndex memory + (significant isColon memory).length) ∧
    ∀ after, (oalStrtoipv6 ⟨0, memory⟩ ipv6Addr).result = .ok after →
      Stored 0 (paired (ipv6Values memory ipv6Addr)) ipv6Addr after := by
  have ends : Cursor.EndsAt memory.length ⟨0, memory⟩ := Nat.zero_add _
  apply returned_iff
  · intro enough
    obtain ⟨reads, ran, -⟩ := strtoipv6_inside memory enough ipv6Addr 0 []
    rw [List.append_nil] at ran
    exact ⟨_, congrArg Run.result ran, ipv6_stored memory ipv6Addr enough⟩
  · intro short
    have past := strtoipv6_outside memory (Nat.lt_of_not_le short) ipv6Addr 0 []
    rw [List.append_nil, Nat.zero_add] at past
    exact (strtoipv6_returns ends ipv6Addr).not_ok past

end Ws63Rf.AddressTextProofs
