import Ws63Rf.Arithmetic
import Ws63Rf.ByteMemory

/-! The alignment, bit and register field macros of `td_base.h`, as C
expressions of their arguments. A variable or register that a macro assigns to
is given by its type and its content; the macro yields its new content. -/
namespace Ws63Rf.TdBase
open CExpr Expr ByteMemory

/-- What is stored in a variable. -/
abbrev Content (t : IntType) := BitVec t.bits

/-- A variable read as an expression. -/
def lvalue (t : IntType) (content : Content t) : Expr := value ⟨t, content⟩

abbrev tdU32 := IntType.unsignedInt
abbrev tdU64 := IntType.unsignedLongLong

/-! ## Limits -/

/-- A hexadecimal constant that an `int` does not have is unsigned. -/
def hexadecimal (n : Nat) : Expr :=
  if n < 2 ^ 31 then int n else value ⟨.unsignedInt, BitVec.ofNat 32 n⟩

def tdS32Max : Expr := ~~~((~~~(0 : Expr)) <<< (32 - 1 : Expr))
def tdS16Max : Expr := hexadecimal 0x7FFF
def tdS8Max : Expr := hexadecimal 0x7F
def tdS32Min : Expr := -hexadecimal 0x80000000
def tdS16Min : Expr := -hexadecimal 0x8000
def tdS8Min : Expr := -hexadecimal 0x80

/-! ## Alignment -/

def uapiByteAlign (value align : Expr) : Expr := (value + align - 1) &&& (~~~(align - 1))

def alignNext (val a : Expr) : Expr := (val + (a - 1)) &&& (~~~(a - 1))

def osalPadding (x size : Expr) : Expr := (x + size - 1) &&& (~~~(size - 1))

def osalRoundDown (value boundary : Expr) : Expr := value &&& (~~~(boundary - 1))

def osalRoundUp (value boundary : Expr) : Expr := ((value - 1) ||| (boundary - 1)) + 1

def uapiAlign4 (x : Expr) : Expr := (x + 3).cast .unsignedInt &&& (~~~3)

def uapiIsAlignU32 (x : Expr) : Expr := lnot (x &&& 3)

def uapiIsUnalignU32 (x : Expr) : Expr := x &&& 3

def uapiIsByteAlign (value align : Expr) : Expr := equal (value.cast tdU32 &&& (align - 1)) 0

def osalIsAligned (val align : Expr) : Expr := equal (val.cast .unsignedInt &&& (align - 1)) 0

/-! ## Comparisons

An argument is evaluated once for the comparison and again for the result, so
these macros are for plain values. -/

def uapiMax (a b : Value) : Expr :=
  conditional (a.type.common b.type) (greater (value a) (value b)) (value a) (value b)

def uapiMin (a b : Value) : Expr :=
  conditional (a.type.common b.type) (less (value a) (value b)) (value a) (value b)

def uapiSub (a b : Value) : Expr :=
  conditional ((a.type.common b.type).common .int) (greater (value a) (value b))
    (value a - value b) 0

def uapiAbs (a : Value) : Expr :=
  conditional (a.type.common a.type.promoted) (greater (value a) 0) (value a) (-value a)

def uapiAbsSub (a b : Value) : Expr :=
  conditional ((a.type.common b.type).common (b.type.common a.type))
    (greater (value a) (value b)) (value a - value b) (value b - value a)

def MAX := uapiMax
def MIN := uapiMin

/-! ## Words and their halves -/

def makeu (half whole : IntType) (a b : Expr) : Expr :=
  (a.cast half ||| ((b.cast half).cast whole <<< int half.bits)).cast whole

def hiu (half whole : IntType) (mask l : Expr) : Expr :=
  ((l.cast whole >>> int half.bits) &&& mask).cast half

def lou (half : IntType) (l : Expr) : Expr := l.cast half

def uapiMakeu16 := makeu .unsignedChar .unsignedShort
def uapiMakeu32 := makeu .unsignedShort .unsignedInt
def uapiMakeu64 := makeu .unsignedInt .unsignedLongLong

def uapiHiu32 := hiu .unsignedInt .unsignedLongLong (hexadecimal 0xFFFFFFFF)
def uapiHiu16 := hiu .unsignedShort .unsignedInt (hexadecimal 0xFFFF)
def uapiHiu8 := hiu .unsignedChar .unsignedShort (hexadecimal 0xFF)

def uapiLou32 := lou .unsignedInt
def uapiLou16 := lou .unsignedShort
def uapiLou8 := lou .unsignedChar

/-- The lowest byte is not converted. -/
def uapiJoinu32 (a b c d : Expr) : Expr :=
  a ||| (b.cast tdU32 <<< 8) ||| (c.cast tdU32 <<< 16) ||| (d.cast tdU32 <<< 24)

/-! ## Single bits -/

def uapiSetBitI (t : IntType) (val : Content t) (n : Expr) : Except Undefined (Content t) :=
  stored t (lvalue t val ||| (1 <<< n))

def uapiClrBitI (t : IntType) (val : Content t) (n : Expr) : Except Undefined (Content t) :=
  stored t (lvalue t val &&& ~~~(1 <<< n))

def uapiSwitchBitI (t : IntType) (val : Content t) (n : Expr) : Except Undefined (Content t) :=
  stored t (lvalue t val ^^^ (1 <<< n))

def uapiIsBitSetI (val n : Expr) : Expr := val &&& (1 <<< n)

def uapiIsBitClrI (val n : Expr) : Expr := ~~~(val &&& (1 <<< n))

def uapiGetBitI (val n : Expr) : Expr := (val >>> n) &&& 1

/-! ## Register fields -/

/-- `((t)1 << (bits)) - 1`. -/
def fieldMask (t : IntType) (bits : Expr) : Expr := ((1 : Expr).cast t <<< bits) - 1

/-- The three families of register macros differ in the type that the address
is read and written with, and that the constant 1 and the value are cast to. -/
def regClrbits (t : IntType) (reg : Content t) (pos bits : Expr) : Except Undefined (Content t) :=
  stored t (lvalue t reg &&& ~~~(fieldMask t bits <<< pos))

def regSetbits (t : IntType) (reg : Content t) (pos bits val : Expr) :
    Except Undefined (Content t) :=
  stored t ((lvalue t reg &&& (~~~(fieldMask t bits <<< pos))) |||
    ((val &&& fieldMask t bits).cast t <<< pos))

def regGetbits (t : IntType) (reg : Content t) (pos bits : Expr) : Expr :=
  (lvalue t reg >>> pos) &&& fieldMask t bits

def uapiRegClrbits := regClrbits .unsignedInt
def uapiRegSetbits := regSetbits .unsignedInt
def uapiRegGetbits := regGetbits .unsignedInt

def uapiRegClrbits16 := regClrbits .unsignedShort
def uapiRegSetbits16 := regSetbits .unsignedShort
def uapiRegGetbits16 := regGetbits .unsignedShort

def uapiRegClrbits8 := regClrbits .unsignedChar
def uapiRegSetbits8 := regSetbits .unsignedChar
def uapiRegGetbits8 := regGetbits .unsignedChar

/-! ## Registers in memory -/

/-- `*(volatile t *)(uintptr_t)(addr)`. -/
def regReadVal (t : IntType) (addr : Nat) (mem : Memory) : Content t := load t.bits addr mem

/-- An assignment to the register at an address, from what the register holds. -/
def regAssign (t : IntType) (addr : Nat) (content : Content t → Except Undefined (Content t))
    (mem : Memory) : Except Undefined Memory :=
  Except.map (fun after => store addr after mem) (content (regReadVal t addr mem))

def uapiRegReadVal32 := regReadVal .unsignedInt
def uapiRegReadVal16 := regReadVal .unsignedShort
def uapiRegReadVal8 := regReadVal .unsignedChar

/-- The value is converted to the type of the register; what it held is lost. -/
def regWrite (t : IntType) (_reg : Content t) (val : Expr) : Except Undefined (Content t) :=
  stored t val

def uapiRegWrite32 := regWrite .unsignedInt
def uapiRegWrite16 := regWrite .unsignedShort
def uapiRegWrite8 := regWrite .unsignedChar

def regSetbit (t : IntType) (reg : Content t) (pos : Expr) : Except Undefined (Content t) :=
  stored t (lvalue t reg ||| ((1 : Expr).cast t <<< pos))

def regClrbit (t : IntType) (reg : Content t) (pos : Expr) : Except Undefined (Content t) :=
  stored t (lvalue t reg &&& ~~~((1 : Expr).cast t <<< pos))

def uapiRegSetbit := regSetbit .unsignedInt
def uapiRegClrbit := regClrbit .unsignedInt

def uapiRegSetbit16 := regSetbit .unsignedShort
def uapiRegClrbit16 := regClrbit .unsignedShort

def uapiRegSetbit8 := regSetbit .unsignedChar
def uapiRegClrbit8 := regClrbit .unsignedChar

/-- Masks are only for the 32-bit registers. -/
def uapiRegSetbitmsk (reg : Content .unsignedInt) (msk : Expr) :
    Except Undefined (Content .unsignedInt) :=
  stored .unsignedInt (lvalue .unsignedInt reg ||| msk)

def uapiRegClrbitmsk (reg : Content .unsignedInt) (msk : Expr) :
    Except Undefined (Content .unsignedInt) :=
  stored .unsignedInt (lvalue .unsignedInt reg &&& ~~~msk)

def uapiSetU32PtrVal (ptr offset : Nat) (val : Expr) : Memory → Except Undefined Memory :=
  regAssign .unsignedInt (ptr + offset) fun _ => stored .unsignedInt val

def uapiGetU32PtrVal (ptr offset : Nat) (mem : Memory) : Expr :=
  lvalue .unsignedInt (load 32 (ptr + offset) mem)

end Ws63Rf.TdBase
