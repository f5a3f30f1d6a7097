import Ws63Rf.ComparisonProofs
import Ws63Rf.OalUtil

/-! Words made of halves and taken apart again. Every macro is given by the
number that it makes of its arguments' numbers, whatever types those have. -/
namespace Ws63Rf.WordCodecProofs
open CExpr Expr TdBase OalUtil ByteMemory ComparisonProofs

/-- The sizes that words are made and taken apart at. -/
inductive Level where
  | u16
  | u32
  | u64

namespace Level

def half : Level → IntType
  | u16 => .unsignedChar
  | u32 => .unsignedShort
  | u64 => .unsignedInt

def whole : Level → IntType
  | u16 => .unsignedShort
  | u32 => .unsignedInt
  | u64 => .unsignedLongLong

def makeu : Level → Expr → Expr → Expr
  | u16 => uapiMakeu16
  | u32 => uapiMakeu32
  | u64 => uapiMakeu64

def hiu : Level → Expr → Expr
  | u16 => uapiHiu8
  | u32 => uapiHiu16
  | u64 => uapiHiu32

def lou : Level → Expr → Expr
  | u16 => uapiLou8
  | u32 => uapiLou16
  | u64 => uapiLou32

theorem makeu_eq (level : Level) : level.makeu = TdBase.makeu level.half level.whole := by
  cases level <;> rfl

/-- What the upper half is cut out with. -/
def mask : Level → Expr
  | u16 => hexadecimal 0xFF
  | u32 => hexadecimal 0xFFFF
  | u64 => hexadecimal 0xFFFFFFFF

theorem hiu_eq (level : Level) : level.hiu = TdBase.hiu level.half level.whole level.mask := by
  cases level <;> rfl

theorem mask_yields (level : Level) : ∃ s, level.mask.Yields s (2 ^ level.half.bits - 1) ∧
    level.whole.promoted.common s = level.whole.promoted := by
  cases level with
  | u16 => exact ⟨.int, ⟨_, rfl, rfl⟩, rfl⟩
  | u32 => exact ⟨.int, ⟨_, rfl, rfl⟩, rfl⟩
  | u64 => exact ⟨.unsignedInt, ⟨_, rfl, rfl⟩, rfl⟩

theorem lou_eq (level : Level) : level.lou = TdBase.lou level.half := by
  cases level <;> rfl

/-- The type that the macros shift and join in has all numbers of the word. -/
theorem room (level : Level) : level.whole.promoted.Holds (2 ^ level.whole.bits - 1) ∧
    level.half.common level.whole.promoted = level.whole.promoted := by
  cases level <;> decide

/-- Two halves make a number of the word. -/
theorem join_bounds (level : Level) {low high : Int} (nonneg : 0 ≤ low)
    (below : low < 2 ^ level.half.bits) (nonneg' : 0 ≤ high) (below' : high < 2 ^ level.half.bits) :
    high < 2 ^ level.whole.bits ∧ 0 ≤ high * 2 ^ level.half.bits ∧
      low + high * 2 ^ level.half.bits < 2 ^ level.whole.bits := by
  cases level <;> (simp only [half, whole, IntType.unsignedChar, IntType.unsignedShort,
    IntType.unsignedInt, IntType.unsignedLongLong] at *; omega)

theorem cut_half (level : Level) (n : Int) :
    n % 2 ^ level.whole.bits / 2 ^ level.half.bits % 2 ^ level.half.bits =
      n / 2 ^ level.half.bits % 2 ^ level.half.bits := by
  cases level <;> (simp only [half, whole, IntType.unsignedChar, IntType.unsignedShort,
    IntType.unsignedInt, IntType.unsignedLongLong] at *; omega)

/-- Joining and cutting are each other's inverses. -/
theorem join_cut (level : Level) (n : Int) :
    n % 2 ^ level.half.bits + n / 2 ^ level.half.bits % 2 ^ level.half.bits * 2 ^ level.half.bits =
      n % 2 ^ level.whole.bits := by
  cases level <;> (simp only [half, whole, IntType.unsignedChar, IntType.unsignedShort,
    IntType.unsignedInt, IntType.unsignedLongLong] at *; omega)

/-- Shifting by a half stays inside the type that is shifted in. -/
theorem shift_inside (level : Level) :
    level.half.bits < level.whole.promoted.bits ∧ level.half.bits < 2 ^ 31 := by
  cases level <;> decide

theorem half_convert (level : Level) (n : Int) : level.half.convert n = n % 2 ^ level.half.bits := by
  cases level <;> rfl

theorem whole_convert (level : Level) (n : Int) :
    level.whole.convert n = n % 2 ^ level.whole.bits := by
  cases level <;> rfl

end Level

/-! ## The macros on numbers -/

section Numbers
variable {a b : Expr} {s s' : IntType} {m n : Int}

theorem lou_yields (level : Level) (yields : a.Yields s m) :
    (level.lou a).Yields level.half (m % 2 ^ level.half.bits) := by
  rw [level.lou_eq, ← level.half_convert]
  exact yields.cast level.half

theorem makeu_yields (level : Level) (first : a.Yields s m) (second : b.Yields s' n) :
    (level.makeu a b).Yields level.whole
      (m % 2 ^ level.half.bits + n % 2 ^ level.half.bits * 2 ^ level.half.bits) := by
  obtain ⟨room, common⟩ := level.room
  obtain ⟨inside, small⟩ := level.shift_inside
  have positive : 0 < level.whole.promoted.bits := Nat.lt_of_le_of_lt (Nat.zero_le _) inside
  have modulus : (0 : Int) < 2 ^ level.half.bits := Int.pow_pos (by omega)
  have nonneg := Int.emod_nonneg m modulus.ne'
  have below := Int.emod_lt_of_pos m modulus
  have nonneg' := Int.emod_nonneg n modulus.ne'
  have below' := Int.emod_lt_of_pos n modulus
  obtain ⟨narrow, shifted, joined⟩ := level.join_bounds nonneg below nonneg' below'
  have kept : ∀ i, 0 ≤ i → i < 2 ^ level.whole.bits → level.whole.promoted.convert i = i :=
    fun i lower upper => IntType.convert_of_holds positive (room.below lower (by omega))
  have low := first.cast level.half
  have high := ((second.cast level.half).cast level.whole).shiftLeft rfl inside small
  rw [level.half_convert] at low
  rw [level.half_convert, level.whole_convert, Int.emod_eq_of_lt nonneg' narrow,
    kept _ nonneg' narrow, kept _ shifted (by omega)] at high
  have both := low.or_disjoint high common inside.le (by rw [kept _ nonneg (by omega)]; exact nonneg)
    (by rw [kept _ nonneg (by omega)]; exact below) (Int.dvd_mul_left _ _)
  rw [kept _ nonneg (by omega), kept _ shifted (by omega), kept _ (by omega) joined] at both
  have word := both.cast level.whole
  rw [level.whole_convert, Int.emod_eq_of_lt (by omega) joined] at word
  rw [level.makeu_eq]
  exact word

theorem hiu_yields (level : Level) (yields : a.Yields s m) :
    (level.hiu a).Yields level.half (m / 2 ^ level.half.bits % 2 ^ level.half.bits) := by
  obtain ⟨room, -⟩ := level.room
  obtain ⟨inside, small⟩ := level.shift_inside
  obtain ⟨t, mask, common⟩ := level.mask_yields
  have positive : 0 < level.whole.promoted.bits := Nat.lt_of_le_of_lt (Nat.zero_le _) inside
  have modulus : (0 : Int) < 2 ^ level.half.bits := Int.pow_pos (by omega)
  have modulus' : (0 : Int) < 2 ^ level.whole.bits := Int.pow_pos (by omega)
  have nonneg := Int.emod_nonneg m modulus'.ne'
  have below := Int.emod_lt_of_pos m modulus'
  have shifted := (yields.cast level.whole).shiftRight rfl inside small
  rw [level.whole_convert, IntType.convert_of_holds positive (room.below nonneg (by omega))] at shifted
  have smaller : (2 : Int) ^ level.half.bits ≤ 2 ^ level.whole.bits := by cases level <;> decide
  have masked := shifted.and_low mask common (room.below (by omega) (by omega))
  have half := masked.cast level.half
  rw [level.half_convert, level.cut_half, Int.emod_emod] at half
  rw [level.hiu_eq]
  exact half

end Numbers

/-! ## Round trips -/

/-- What a word is made of is taken out of it again, and a word that is taken
apart is made of its halves: at every size, for arguments of every type. -/
theorem codec_inverse (level : Level) (a b l : Value) :
    level.lou (level.makeu (value a) (value b)) = (value a).cast level.half ∧
    level.hiu (level.makeu (value a) (value b)) = (value b).cast level.half ∧
    level.makeu (level.lou (value l)) (level.hiu (value l)) = (value l).cast level.whole := by
  have modulus : (0 : Int) < 2 ^ level.half.bits := Int.pow_pos (by omega)
  have first := (yields_value a).cast level.half
  have second := (yields_value b).cast level.half
  have whole := (yields_value l).cast level.whole
  rw [level.half_convert] at first second
  rw [level.whole_convert] at whole
  have made := makeu_yields level (yields_value a) (yields_value b)
  have low := lou_yields level made
  have high := hiu_yields level made
  have joined := makeu_yields level (lou_yields level (yields_value l)) (hiu_yields level (yields_value l))
  rw [Int.add_mul_emod_self_right, Int.emod_emod] at low
  rw [Int.add_mul_ediv_right _ _ modulus.ne', Int.ediv_eq_zero_of_lt (Int.emod_nonneg _ modulus.ne')
    (Int.emod_lt_of_pos _ modulus), Int.zero_add, Int.emod_emod] at high
  rw [Int.emod_emod, Int.emod_emod, level.join_cut] at joined
  exact ⟨low.ext first, high.ext second, joined.ext whole⟩

/-! ## Joining four bytes -/

section Join
variable {a b c d : Value}

/-- Beside an `unsigned int` only a wider type stays. -/
theorem common_u32 (t : IntType) :
    t.common tdU32 = if 32 < t.promoted.bits then t.promoted else tdU32 := by
  have wide := t.promoted_bits
  have u32 : tdU32.promoted = tdU32 := rfl
  rw [IntType.common, u32]
  split
  · exact absurd wide (Nat.not_le.mpr ‹_›)
  · split
    · rw [if_pos ‹_›]
    · have same : t.promoted.bits = 32 := by
        have narrow : ¬ 32 < t.promoted.bits := ‹_›
        omega
      rw [if_neg (by omega), same, show tdU32.signed = false from rfl, Bool.and_false]
      rfl

theorem common_u32_u32 (t : IntType) : (t.common tdU32).common tdU32 = t.common tdU32 := by
  have once := common_u32 t
  by_cases wide : 32 < t.promoted.bits
  · rw [if_pos wide] at once
    rw [once, common_u32, IntType.promoted_promoted, if_pos wide]
  · rw [if_neg wide] at once
    rw [once]
    rfl

theorem keeps_u32 (t : IntType) {n : Int} (nonneg : 0 ≤ n) (below : n < 2 ^ 32) :
    (t.common tdU32).convert n = n := by
  have holds : tdU32.Holds n := ⟨nonneg, below⟩
  exact IntType.convert_of_holds (IntType.bits_positive _ _) (holds.common nonneg t)

theorem shifted_yields (v : Value) {k : Nat} (inside : k < 32) :
    ((value v).cast tdU32 <<< int k).Yields tdU32 (v.toInt % 2 ^ 32 * 2 ^ k % 2 ^ 32) := by
  have shifted := ((yields_value v).cast tdU32).shiftLeft (show tdU32.promoted = tdU32 from rfl)
    inside (by omega)
  have converted : ∀ n, tdU32.convert n = n % 2 ^ 32 := fun _ => rfl
  rwa [converted, converted, converted, Int.emod_emod] at shifted

/-- A field is joined above what is there. -/
theorem join_yields {e : Expr} {s : IntType} {m : Int} (v : Value) {k : Nat} (inside : k < 32)
    (yields : e.Yields s m) (nonneg : 0 ≤ m) (below : m < 2 ^ k) :
    (e ||| ((value v).cast tdU32 <<< int k)).Yields (s.common tdU32)
      (m + v.toInt % 2 ^ 32 * 2 ^ k % 2 ^ 32) := by
  have wide : 32 ≤ (s.common tdU32).bits := IntType.common_bits s tdU32
  have power : (2 : Int) ^ k ≤ 2 ^ 31 := mod_cast Nat.pow_le_pow_right Nat.two_pos (show k ≤ 31 by omega)
  have high : 0 ≤ v.toInt % 2 ^ 32 * 2 ^ k % 2 ^ 32 := Int.emod_nonneg _ (by decide)
  have above : v.toInt % 2 ^ 32 * 2 ^ k % 2 ^ 32 < 2 ^ 32 := Int.emod_lt_of_pos _ (by decide)
  have divides : (2 : Int) ^ k ∣ 2 ^ 32 := pow_dvd_pow 2 (by omega)
  have multiple : (2 : Int) ^ k ∣ v.toInt % 2 ^ 32 * 2 ^ k % 2 ^ 32 := by
    rw [Int.dvd_iff_emod_eq_zero, Int.emod_emod_of_dvd _ divides, Int.mul_emod_left]
  have low : (s.common tdU32).convert m = m := keeps_u32 s nonneg (by omega)
  have joined := yields.or_disjoint (shifted_yields v inside) rfl (show k ≤ _ by omega) (low.symm ▸ nonneg)
    (low.symm ▸ below) multiple
  rw [low, keeps_u32 s high above] at joined
  have gap := Int.le_of_dvd (by omega) (Int.dvd_sub divides multiple)
  rwa [keeps_u32 s (by omega) (by omega)] at joined

/-- The lowest three arguments have to be bytes, since nothing cuts them; what
is above the lowest byte of the last one is shifted out. -/
theorem joinu32_yields (first : 0 ≤ a.toInt ∧ a.toInt < 256) (second : 0 ≤ b.toInt ∧ b.toInt < 256)
    (third : 0 ≤ c.toInt ∧ c.toInt < 256) :
    (uapiJoinu32 (value a) (value b) (value c) (value d)).Yields (a.type.common tdU32)
      (a.toInt + b.toInt * 2 ^ 8 + c.toInt * 2 ^ 16 + d.toInt % 256 * 2 ^ 24) := by
  have two := join_yields b (k := 8) (by decide) (yields_value a) first.1 (by omega)
  have three := join_yields c (k := 16) (by decide) two (by omega) (by omega)
  have four := join_yields d (k := 24) (by decide) three (by omega) (by omega)
  rw [common_u32_u32, common_u32_u32] at four
  have number : a.toInt + b.toInt % 2 ^ 32 * 2 ^ 8 % 2 ^ 32 + c.toInt % 2 ^ 32 * 2 ^ 16 % 2 ^ 32 +
      d.toInt % 2 ^ 32 * 2 ^ 24 % 2 ^ 32 =
      a.toInt + b.toInt * 2 ^ 8 + c.toInt * 2 ^ 16 + d.toInt % 256 * 2 ^ 24 := by
    omega
  exact number ▸ four

end Join

/-! ## Words of an uncut lower half -/

section Uncut
variable (v : Value)

theorem upper16_yields : ((value v).cast .unsignedShort <<< 8 &&& 0xFF00).Yields .int
    (v.toInt % 256 * 256) := by
  have shifted := ((yields_value v).cast .unsignedShort).shiftLeft (k := 8)
    (show IntType.unsignedShort.promoted = .int from rfl) (by decide) (by decide)
  have converted : IntType.unsignedShort.convert v.toInt = v.toInt % 65536 := rfl
  have kept : ∀ i, 0 ≤ i → i < 2 ^ 31 → IntType.int.convert i = i := fun i lower upper =>
    IntType.convert_of_holds (by decide) (show IntType.int.Holds i from
      ⟨Int.le_trans (by decide) lower, upper⟩)
  rw [converted, kept (v.toInt % 65536) (by omega) (by omega),
    kept (v.toInt % 65536 * 2 ^ 8) (by omega) (by omega)] at shifted
  have masked := shifted.and_upper (j := 16) (k := 8) (yields_int (n := 0xFF00) (by decide)) rfl
    (by decide) (by decide) (Int.dvd_mul_left _ _)
  exact masked.congr (by omega)

theorem upper32_yields : ((value v).cast .unsignedInt <<< 16 &&& hexadecimal 0xFFFF0000).Yields tdU32
    (v.toInt % 65536 * 65536) := by
  have shifted := shifted_yields v (k := 16) (by decide)
  have mask : (hexadecimal 0xFFFF0000).Yields tdU32 (2 ^ 32 - 2 ^ 16) := ⟨_, rfl, rfl⟩
  have masked := shifted.and_upper (j := 32) (k := 16) mask rfl (by decide) (by decide) (by omega)
  exact masked.congr (by omega)

/-- A lower half that is not too large is joined below the upper one. -/
theorem lower_yields {upper : Expr} {s t : IntType} {n : Int} {k : Nat} (yields : upper.Yields s n)
    (common : v.type.common s = t) (multiple : 2 ^ k ∣ n) (inside : k ≤ t.bits)
    (holds : t.Holds (v.toInt + n)) (nonneg : 0 ≤ v.toInt) (below : v.toInt < 2 ^ k) (high : 0 ≤ n) :
    (upper ||| value v).Yields t (v.toInt + n) := by
  have positive : 0 < t.bits := common ▸ IntType.bits_positive v.type s
  have low := IntType.convert_of_holds positive (holds.below nonneg (by omega))
  have rest := IntType.convert_of_holds positive (holds.below high (by omega))
  have whole := IntType.convert_of_holds positive holds
  have joined := (yields_value v).or_disjoint yields common inside (low.symm ▸ nonneg)
    (low.symm ▸ below) multiple
  rw [low, rest, whole] at joined
  rwa [yields.or_comm (yields_value v)]

/-- Below a half of zeros the lower half is all there is. -/
theorem zero_or_yields {upper : Expr} {s : IntType} (yields : upper.Yields s 0) :
    (upper ||| value v).Yields (v.type.common s) ((v.type.common s).convert v.toInt) := by
  rw [yields.or_comm (yields_value v)]
  apply arithmetic_yields (yields_value v) yields rfl
  intro p q number number'
  have clear : q = 0 := by
    rw [← Value.ofInt_toInt q, number', IntType.convert_of_holds (IntType.bits_positive _ _)
      (IntType.holds_zero _)]
    exact BitVec.ofInt_ofNat _ 0
  refine ⟨p ||| q, rfl, ?_⟩
  rw [clear, ← number]
  exact congrArg (fun kept => Value.toInt ⟨v.type.common s, kept⟩) BitVec.or_zero

/-- Two words of a lower and an upper half, of which one has its lower half cut,
are the same with every upper half exactly where nothing is cut off, if the
other shows the whole lower half beside some upper half that is zero. -/
theorem agree_iff {uncut cut : Value → Expr} {t : IntType} {size : Int} {upper : Value → Int}
    (made : ∀ u, (cut u).Yields t (v.toInt % size + upper u))
    (alone : ∃ u number, upper u = 0 ∧ Denotes (uncut u) number ∧
      (number = v.toInt % size → 0 ≤ v.toInt ∧ v.toInt < size))
    (joined : 0 ≤ v.toInt → v.toInt < size → ∀ u, Denotes (uncut u) (v.toInt + upper u)) :
    (∀ u, ∃ number, Denotes (uncut u) number ∧ Denotes (cut u) number) ↔
      0 ≤ v.toInt ∧ v.toInt < size := by
  constructor
  · intro agree
    obtain ⟨u, number, zero, whole, fits⟩ := alone
    obtain ⟨other, shown, same⟩ := agree u
    have first := whole.unique shown
    have second := (made u).denotes.unique same
    exact fits (by omega)
  · rintro ⟨nonneg, below⟩ u
    have number := (made u).denotes
    rw [Int.emod_eq_of_lt nonneg below] at number
    exact ⟨_, joined nonneg below u, number⟩

/-- `OAL_MAKE_WORD16` makes the word that `uapi_makeu16` makes, with every upper
half, exactly of the lower halves that are bytes. -/
theorem makeWord16_iff (lsb : Value) : (∀ msb : Value, ∃ number,
    Denotes (oalMakeWord16 (value lsb) (value msb)) number ∧
      Denotes (uapiMakeu16 (value lsb) (value msb)) number) ↔ 0 ≤ lsb.toInt ∧ lsb.toInt < 256 := by
  have made : ∀ msb : Value, (uapiMakeu16 (value lsb) (value msb)).Yields .unsignedShort
      (lsb.toInt % 256 + msb.toInt % 256 * 256) :=
    fun msb => makeu_yields .u16 (yields_value lsb) (yields_value msb)
  refine agree_iff lsb made ?_ fun nonneg below msb => ?_
  · have whole := zero_or_yields lsb (upper16_yields ⟨.int, 0⟩)
    have held := IntType.holds_promoted lsb.holds_toInt
    rw [← IntType.common_int] at held
    rw [IntType.convert_of_holds (IntType.bits_positive _ _) held] at whole
    exact ⟨⟨.int, 0⟩, _, rfl, whole.denotes, fun cut => by omega⟩
  · have word : IntType.int.Holds (lsb.toInt + msb.toInt % 256 * 256) :=
      ⟨Int.le_trans (by decide) (show 0 ≤ _ by omega), show _ < (2 : Int) ^ 31 by omega⟩
    have wide := IntType.common_bits lsb.type .int
    have joined := lower_yields lsb (k := 8) (upper16_yields msb) rfl (Int.dvd_mul_left _ _) (by omega)
      (word.common (by omega) lsb.type) nonneg below (by omega)
    exact joined.denotes

theorem makeWord32_iff (lsw : Value) : (∀ msw : Value, ∃ number,
    Denotes (oalMakeWord32 (value lsw) (value msw)) number ∧
      Denotes (uapiMakeu32 (value lsw) (value msw)) number) ↔ 0 ≤ lsw.toInt ∧ lsw.toInt < 65536 := by
  have made : ∀ msw : Value, (uapiMakeu32 (value lsw) (value msw)).Yields .unsignedInt
      (lsw.toInt % 65536 + msw.toInt % 65536 * 65536) :=
    fun msw => makeu_yields .u32 (yields_value lsw) (yields_value msw)
  refine agree_iff lsw made ?_ fun nonneg below msw => ?_
  · have whole := zero_or_yields lsw (upper32_yields ⟨.int, 0⟩)
    have held := IntType.holds_promoted lsw.holds_toInt
    refine ⟨⟨.int, 0⟩, _, rfl, whole.denotes, fun cut => ?_⟩
    rw [common_u32] at cut
    split at cut
    · rw [IntType.convert_of_holds (by omega) held] at cut
      omega
    · -- a negative `int` becomes an `unsigned int` from 2^31 on
      have wide := lsw.type.promoted_bits
      have bits : lsw.type.promoted.bits = 32 := by omega
      have converted : tdU32.convert lsw.toInt = lsw.toInt % 2 ^ 32 := rfl
      rw [IntType.Holds, bits] at held
      split at held <;> omega
  · have word : tdU32.Holds (lsw.toInt + msw.toInt % 65536 * 65536) :=
      ⟨by omega, show _ < (2 : Int) ^ 32 by omega⟩
    have wide := IntType.common_bits lsw.type tdU32
    have joined := lower_yields lsw (k := 16) (upper32_yields msw) rfl (Int.dvd_mul_left _ _) (by omega)
      (word.common (by omega) lsw.type) nonneg below (by omega)
    exact joined.denotes

/-- The macros that leave the lower half uncut agree with those that cut it, with
every upper half, exactly where there is nothing to cut. -/
theorem makeWord_iff (lower : Value) :
    ((∀ msb : Value, ∃ number, Denotes (oalMakeWord16 (value lower) (value msb)) number ∧
      Denotes (uapiMakeu16 (value lower) (value msb)) number) ↔
        0 ≤ lower.toInt ∧ lower.toInt < 256) ∧
    ((∀ msw : Value, ∃ number, Denotes (oalMakeWord32 (value lower) (value msw)) number ∧
      Denotes (uapiMakeu32 (value lower) (value msw)) number) ↔
        0 ≤ lower.toInt ∧ lower.toInt < 65536) :=
  ⟨makeWord16_iff lower, makeWord32_iff lower⟩

end Uncut

/-! ## Words in memory -/

section Layout
variable (mem : Memory) (addr : Nat)

/-- A byte of the memory as the 8-bit register there reads. -/
def byteAt (k : Nat) : Value := ⟨.unsignedChar, uapiRegReadVal8 (addr + k) mem⟩

theorem byteAt_toInt (k : Nat) : (byteAt mem addr k).toInt = (mem (addr + k)).toNat := by
  have byte : (load 8 (addr + k) mem).toNat =
      2 ^ 8 * (load 0 (addr + k + 1) mem).toNat + (mem (addr + k)).toNat :=
    toNat_load_byte 0 (addr + k) mem
  have empty : (load 0 (addr + k + 1) mem).toNat = 0 := by
    rw [BitVec.eq_nil (load 0 (addr + k + 1) mem)]
    rfl
  change ((load 8 (addr + k) mem).toNat : Int) = _
  omega

theorem byteAt_bounds (k : Nat) : 0 ≤ (byteAt mem addr k).toInt ∧ (byteAt mem addr k).toInt < 256 := by
  have below := (mem (addr + k)).isLt
  rw [byteAt_toInt]
  omega

/-- The register at an address is the number its four bytes are the digits of. -/
theorem readVal32_yields : (lvalue tdU32 (uapiRegReadVal32 addr mem)).Yields tdU32
    ((byteAt mem addr 0).toInt + (byteAt mem addr 1).toInt * 2 ^ 8 +
      (byteAt mem addr 2).toInt * 2 ^ 16 + (byteAt mem addr 3).toInt * 2 ^ 24) := by
  refine ⟨_, rfl, ?_⟩
  have first : (load 32 addr mem).toNat = 2 ^ 8 * (load 24 (addr + 1) mem).toNat + (mem addr).toNat :=
    toNat_load_byte 24 addr mem
  have second : (load 24 (addr + 1) mem).toNat =
      2 ^ 8 * (load 16 (addr + 2) mem).toNat + (mem (addr + 1)).toNat := toNat_load_byte 16 (addr + 1) mem
  have third : (load 16 (addr + 2) mem).toNat =
      2 ^ 8 * (load 8 (addr + 3) mem).toNat + (mem (addr + 2)).toNat := toNat_load_byte 8 (addr + 2) mem
  have fourth : (byteAt mem addr 3).toInt = (load 8 (addr + 3) mem).toNat := rfl
  rw [fourth, byteAt_toInt, byteAt_toInt, byteAt_toInt]
  change ((load 32 addr mem).toNat : Int) = (mem addr).toNat +
    (mem (addr + 1)).toNat * 2 ^ 8 + (mem (addr + 2)).toNat * 2 ^ 16 +
    (load 8 (addr + 3) mem).toNat * 2 ^ 24
  omega

/-- The bytes of a register in memory are the halves of the halves of what it
reads as, and it reads as what either way of joining makes of them. -/
theorem memory_layout :
    uapiMakeu32 (uapiMakeu16 (value (byteAt mem addr 0)) (value (byteAt mem addr 1)))
        (uapiMakeu16 (value (byteAt mem addr 2)) (value (byteAt mem addr 3))) =
      lvalue tdU32 (uapiRegReadVal32 addr mem) ∧
    uapiJoinu32 (value (byteAt mem addr 0)) (value (byteAt mem addr 1)) (value (byteAt mem addr 2))
        (value (byteAt mem addr 3)) = lvalue tdU32 (uapiRegReadVal32 addr mem) ∧
    uapiLou8 (uapiLou16 (lvalue tdU32 (uapiRegReadVal32 addr mem))) = value (byteAt mem addr 0) ∧
    uapiHiu8 (uapiLou16 (lvalue tdU32 (uapiRegReadVal32 addr mem))) = value (byteAt mem addr 1) ∧
    uapiLou8 (uapiHiu16 (lvalue tdU32 (uapiRegReadVal32 addr mem))) = value (byteAt mem addr 2) ∧
    uapiHiu8 (uapiHiu16 (lvalue tdU32 (uapiRegReadVal32 addr mem))) = value (byteAt mem addr 3) := by
  have bounds := byteAt_bounds mem addr
  have byte : ∀ k, (value (byteAt mem addr k)).Yields .unsignedChar (byteAt mem addr k).toInt :=
    fun k => yields_value (byteAt mem addr k)
  have word := readVal32_yields mem addr
  have made := makeu_yields .u32 (makeu_yields .u16 (byte 0) (byte 1)) (makeu_yields .u16 (byte 2) (byte 3))
  have joined := joinu32_yields (d := byteAt mem addr 3) (bounds 0) (bounds 1) (bounds 2)
  have low := lou_yields .u32 word
  have high := hiu_yields .u32 word
  have zero := lou_yields .u16 low
  have one := hiu_yields .u16 low
  have two := lou_yields .u16 high
  have three := hiu_yields .u16 high
  have b0 := bounds 0
  have b1 := bounds 1
  have b2 := bounds 2
  have b3 := bounds 3
  simp only [Level.half, IntType.unsignedChar, IntType.unsignedShort] at made zero one two three
  refine ⟨made.ext (word.congr ?_), joined.ext (word.congr ?_), zero.ext ((byte 0).congr ?_),
    one.ext ((byte 1).congr ?_), two.ext ((byte 2).congr ?_), three.ext ((byte 3).congr ?_)⟩
  all_goals omega

end Layout

end Ws63Rf.WordCodecProofs
