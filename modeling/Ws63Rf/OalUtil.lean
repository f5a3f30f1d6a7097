import Ws63Rf.Scan
import Ws63Rf.TdBase
import Mathlib.Algebra.Group.Int.Defs
import Mathlib.Logic.Function.Basic

/-! The text and address parsers, the rounding macros and the generators of
`oal_util_hcm.h`, as the header computes them. Characters are `signed char`;
`long` is the 32-bit type of the target and `unsigned long long` has 64 bits.
Signed arithmetic is carried out on integers and checked, since leaving the type
is undefined in C. -/
namespace Ws63Rf.OalUtil
open Scan CExpr

abbrev OsalS8 := Int8
abbrev OsalU8 := UInt8
abbrev OsalU32 := UInt32
abbrev OsalSlong := Int32

/-- A character constant of the source. -/
def chr (c : Char) : OsalS8 := Int8.ofNat c.toNat

/-- A NUL-terminated string, given by the characters in front of its NUL. -/
structure CString where
  chars : List OsalS8
  noNul : (0 : OsalS8) ∉ chars

/-- Memory from the first character of the string on: the string, its NUL and
whatever the program can still read behind it. -/
def CString.memory (s : CString) (beyond : List OsalS8) : List OsalS8 := s.chars ++ 0 :: beyond

/-- The bytes around an output pointer, by their offset from it, with the
offsets stored to so far, latest first. -/
structure Buffer where
  byte : Int → OsalU8
  written : List Int

/-- `*(p + offset) = value`. -/
def Buffer.store (buffer : Buffer) (offset : Int) (value : OsalU8) : Buffer :=
  ⟨Function.update buffer.byte offset value, offset :: buffer.written⟩

/-- A `signed int` result, unless the mathematical value does not fit. -/
def checkedS32 (value : Int) : Except Fault Int :=
  if -2 ^ 31 ≤ value ∧ value < 2 ^ 31 then .ok value else .error .signedOverflow

/-! ## Rounding macros -/

/-- `((__typeof__(x))((y) - 1))`. -/
def roundMask (x y : Expr) : Expr := x.castLike (y - 1)

def roundUp (x y : Expr) : Expr := ((x - 1) ||| roundMask x y) + 1

def roundDown (x y : Expr) : Expr := x &&& (~~~roundMask x y)

/-! ## Words, comparisons and registers -/

/-- Only the upper half is cut to size. -/
def oalMakeWord16 (lsb msb : Expr) : Expr := ((msb.cast .unsignedShort <<< 8) &&& 0xFF00) ||| lsb

def oalMakeWord32 (lsw msw : Expr) : Expr :=
  ((msw.cast .unsignedInt <<< 16) &&& TdBase.hexadecimal 0xFFFF0000) ||| lsw

def oalMin := TdBase.uapiMin
def oalMax := TdBase.uapiMax
def oalSub := TdBase.uapiSub
def oalAbsoluteSub := TdBase.uapiAbsSub

def oalRegRead32 := TdBase.uapiRegReadVal32
def oalRegRead16 := TdBase.uapiRegReadVal16
def oalRegWrite32 := TdBase.uapiRegWrite32
def oalRegWrite16 := TdBase.uapiRegWrite16

/-! ## Character macros -/

def oalTolower (x : OsalS8) : OsalU8 := x.toUInt8 ||| 0x20

def oalIsdigit (c : OsalS8) : Bool := chr '0' ≤ c && c ≤ chr '9'

def oalIsxdigit (c : OsalS8) : Bool :=
  (chr '0' ≤ c && c ≤ chr '9') || (chr 'a' ≤ c && c ≤ chr 'f') || (chr 'A' ≤ c && c ≤ chr 'F')

/-! ## `oal_bit_find_first_zero_one_byte` -/

/-- The `while` loop over `(byte, zero_bit)`; without fuel it is left unfinished. -/
def findFirstZeroLoop : Nat → OsalU8 → OsalU8 → Option OsalU8
  | 0, _, _ => none
  | fuel + 1, byte, zeroBit =>
    if byte ≠ 1 then
      let zeroBit := zeroBit + 1
      let byte := byte >>> 1
      if zeroBit > 7 then some zeroBit else findFirstZeroLoop fuel byte zeroBit
    else some zeroBit

def oalBitFindFirstZeroOneByte (fuel : Nat) (byte : OsalU8) : Option OsalU8 :=
  let byte := ~~~byte
  let byte := byte &&& -byte
  findFirstZeroLoop fuel byte 0

/-! ## `oal_strtohex` and the address parsers -/

/-- What `oal_strtohex` makes of the character it is pointed at. -/
def hexOf (c : OsalS8) : OsalU8 :=
  if chr '0' ≤ c ∧ c ≤ chr '9' then UInt8.ofInt (c.toInt - (chr '0').toInt)
  else if chr 'A' ≤ c ∧ c ≤ chr 'F' then UInt8.ofInt (c.toInt - (chr 'A').toInt + 10)
  else if chr 'a' ≤ c ∧ c ≤ chr 'f' then UInt8.ofInt (c.toInt - (chr 'a').toInt + 10)
  else 0xff

def oalStrtohex (string : Cursor OsalS8) : Run OsalU8 := do
  return hexOf (← string.load 0)

/-- The characters `oal_strtoaddr` steps over between digits. -/
def isSeparator (c : OsalS8) : Bool := c == chr ':' || c == chr '-'

/-- One turn of the `for` loop of `oal_strtoaddr`. -/
def strtoaddrTurn (state : Cursor OsalS8 × Buffer) (charIndex : Nat) :
    Run (Cursor OsalS8 × Buffer) := do
  let (pcParam, macAddr) := state
  let pcParam ← skipWhile isSeparator pcParam
  let digit ← oalStrtohex pcParam
  let byte := macAddr.byte (charIndex / 2 : Nat)
  let macAddr := macAddr.store (charIndex / 2 : Nat)
    (UInt8.ofNat (byte.toNat * 16 * (charIndex % 2) + digit.toNat))
  return (pcParam.advance 1, macAddr)

def oalStrtoaddr (pcParam : Cursor OsalS8) (macAddr : Buffer) : Run Buffer := do
  let (_, macAddr) ← (List.range 12).foldlM strtoaddrTurn (pcParam, macAddr)
  return macAddr

/-- One turn of the `for` loop of `oal_strtoipv6`, its `char_index++`
included: a `':'` first takes the index back, except at index 0. -/
def strtoipv6Turn (state : Nat × Buffer) (c : OsalS8) : Turn (Nat × Buffer) :=
  let (charIndex, ipv6Addr) := state
  if c = chr ':' then
    .next ((if charIndex ≠ 0 then charIndex - 1 else charIndex) + 1, ipv6Addr)
  else
    let byte := ipv6Addr.byte (charIndex >>> 1 : Nat)
    .next (charIndex + 1, ipv6Addr.store (charIndex >>> 1 : Nat)
      (UInt8.ofNat ((byte.toNat <<< 4) * (charIndex % 2) + (hexOf c).toNat)))

def oalStrtoipv6 (pcParam : Cursor OsalS8) (ipv6Addr : Buffer) : Run Buffer := do
  let ((_, ipv6Addr), _) ← walk (fun state => decide (state.1 < 16 * 2))
    (fun state c => .ok (strtoipv6Turn state c)) (0, ipv6Addr) pcParam.offset pcParam.rest
  return ipv6Addr

/-! ## `oal_gen_random` -/

/-- `rand` is the function's static variable; its new content is returned
beside the byte. -/
def oalGenRandom (rand val : OsalU32) (rstFlag : OsalU8) : OsalU8 × OsalU32 :=
  let rand := if rstFlag ≠ 0 then val else rand
  let rand := rand * 1664525 + 1013904223
  ((rand >>> 24).toUInt8, rand)

/-! ## `oal_strim` -/

/-- The pointer returned, with the memory from it on after the NUL is stored. -/
def oalStrim (s : Cursor OsalS8) : Run (Cursor OsalS8) := do
  let s ← skipWhile (· == chr ' ') s
  let last ← skipWhile (fun c => c != chr ' ' && c != 0) s
  return s.store (last.offset - s.offset) 0

/-! ## `oal_atoi` -/

/-- One turn of the endless loop of `oal_atoi` over `(ret, flag)`. -/
def atoiTurn (state : Int × Int) (c : OsalS8) : Except Fault (Turn (Int × Int)) := do
  let (ret, flag) := state
  if chr '0' ≤ c ∧ c ≤ chr '9' then
    let shifted ← checkedS32 (10 * ret)
    let ret ← checkedS32 (shifted + (c.toInt - (chr '0').toInt))
    return .next (ret, flag)
  else if c = chr '-' then return .next (ret, 1)
  else if c = chr ' ' then return .next (ret, flag)
  else return .stop (ret, flag)

def oalAtoi (string : Cursor OsalS8) : Run Int := do
  let ((ret, flag), _) ← walk (fun _ => true) atoiTurn (0, 0) string.offset string.rest
  if flag = 0 then return ret else ⟨[], checkedS32 (-ret)⟩

/-! ## `oal_strtol` -/

def simpleGuessBase (cp : Cursor OsalS8) : Run OsalU32 := do
  if (← cp.load 0) = chr '0' then
    if oalTolower (← cp.load 1) = (chr 'x').toUInt8 then
      if oalIsxdigit (← cp.load 2) then return 16 else return 8
    else return 8
  else return 10

/-- `if (base == 0) base = simple_guess_base(cp);`. -/
def chooseBase (base : OsalU32) (cp : Cursor OsalS8) : Run OsalU32 :=
  if base = 0 then simpleGuessBase cp else pure base

/-- `if (base == 16 && cp[0] == '0' && oal_tolower(cp[1]) == 'x') cp += 2;`. -/
def skipHexPrefix (base : OsalU32) (cp : Cursor OsalS8) : Run (Cursor OsalS8) := do
  if base = 16 then
    if (← cp.load 0) = chr '0' then
      if oalTolower (← cp.load 1) = (chr 'x').toUInt8 then return cp.advance 2 else return cp
    else return cp
  else return cp

/-- One turn of the digit loop of `oal_simple_strtoull`: a hex digit that the
base does not have ends the loop like any other character. -/
def strtoullTurn (base : OsalU32) (result : UInt64) (c : OsalS8) : Turn UInt64 :=
  if oalIsxdigit c then
    let value : OsalU32 :=
      if oalIsdigit c then UInt32.ofInt (c.toInt - (chr '0').toInt)
      else UInt32.ofInt ((oalTolower c).toNat - (chr 'a').toInt + 10)
    if base ≤ value then .stop result
    else .next (result * base.toUInt64 + value.toUInt64)
  else .stop result

/-- `endp` is the content of the caller's end pointer, absent when the caller
passed a null pointer; its new content is returned beside the value. -/
def oalSimpleStrtoull (cp : Cursor OsalS8) (endp : Option (Cursor OsalS8)) (base : OsalU32) :
    Run (UInt64 × Option (Cursor OsalS8)) := do
  let base ← chooseBase base cp
  let cp ← skipHexPrefix base cp
  let (result, cp) ← walk (fun _ => true) (fun result c => .ok (strtoullTurn base result c))
    0 cp.offset cp.rest
  return (result, endp.map fun _ => cp)

/-- The `(osal_slong)` cast of an `unsigned long long`. -/
def toSlong (value : UInt64) : OsalSlong := value.toUInt32.toInt32

def oalStrtol (pcNptr : Cursor OsalS8) (ppcEndptr : Option (Cursor OsalS8)) (lBase : Int32) :
    Run (OsalSlong × Option (Cursor OsalS8)) := do
  let pcNptr ← skipWhile (· == chr ' ') pcNptr
  if (← pcNptr.load 0) = chr '-' then
    let (value, endptr) ← oalSimpleStrtoull (pcNptr.advance 1) ppcEndptr lBase.toUInt32
    return (toSlong (-value), endptr)
  else
    let (value, endptr) ← oalSimpleStrtoull pcNptr ppcEndptr lBase.toUInt32
    return (toSlong value, endptr)

/-! ## `oal_random_ether_addr` -/

/-- `struct timeval`; the fields are signed and their width is the system's. -/
structure Timeval where
  tvSec : Int
  tvUsec : Int
  deriving DecidableEq

/-- `(td_u32)((td_u64)x * (td_u64)y) * (td_u64)z`. -/
def product (x y z : Int) : UInt64 :=
  (UInt64.ofInt x * UInt64.ofInt y).toUInt32.toUInt64 * UInt64.ofInt z

/-- With what `gettimeofday` stores, which is taken to leave room for the two
seconds added; `len` is not used. -/
def oalRandomEtherAddr (gettimeofday : Timeval) (addr : Buffer) (_len : OsalU8) : Buffer :=
  let tv1 : Timeval := { gettimeofday with tvSec := gettimeofday.tvSec + 2 }
  let tv2 : Timeval :=
    ⟨(toSlong (product tv1.tvSec tv1.tvSec tv1.tvUsec)).toInt,
      (toSlong (product tv1.tvSec tv1.tvUsec tv1.tvUsec)).toInt⟩
  let sec := UInt32.ofInt tv2.tvSec
  let usec := UInt32.ofInt tv2.tvUsec
  let addr := addr.store 0 ((sec &&& 0xff) &&& 0xfe).toUInt8
  let addr := addr.store 1 (usec &&& 0xff).toUInt8
  let addr := addr.store 2 ((sec &&& 0xff0) >>> 4).toUInt8
  let addr := addr.store 3 ((usec &&& 0xff0) >>> 4).toUInt8
  let addr := addr.store 4 ((sec &&& 0xff00) >>> 8).toUInt8
  addr.store 5 ((usec &&& 0xff00) >>> 8).toUInt8

/-! ## `oal_strtoipv4` -/

section Strtoipv4

/-- `strtok_s` is not part of the header: given the memory of a string or null,
the separators and the context it left behind, it returns the memory from a
token on, or null, and its new context. -/
abbrev StrtokS (Ctx : Type) :=
  Option (List OsalS8) → List OsalS8 → Ctx → Option (List OsalS8) × Ctx

variable {Ctx : Type} (strtokS : StrtokS Ctx)

/-- The `while` loop over the tokens; without fuel it is left unfinished. -/
def strtoipv4Loop : Nat → Option (List OsalS8) × Ctx → OsalS8 → Buffer → Run (Option Buffer)
  | _, (none, _), _, ipv4Addr => return some ipv4Addr
  | 0, (some _, _), _, _ => return none
  | fuel + 1, (some pcToken, pcCtx), paramNum, ipv4Addr => do
    let (value, _) ← oalStrtol ⟨0, pcToken⟩ none 10
    let ipv4Addr := ipv4Addr.store paramNum.toInt value.toUInt32.toUInt8
    strtoipv4Loop fuel (strtokS none [chr '.'] pcCtx) (paramNum - 1) ipv4Addr

/-- The context is not initialised before the first call. -/
def oalStrtoipv4 (fuel : Nat) (pcCtx : Ctx) (ipStr : List OsalS8) (ipv4Addr : Buffer) :
    Run (Option Buffer) :=
  strtoipv4Loop strtokS fuel (strtokS (some ipStr) [chr '.'] pcCtx) 3 ipv4Addr

end Strtoipv4

end Ws63Rf.OalUtil
