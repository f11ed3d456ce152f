import PGBigNumber.BigInteger.Observe
import PGBigNumber.Library.Code
import PGBigNumber.Store.Checked
import PGBigNumber.Store.Export

/-!
# The C interface

The functions of `pgbn.h` for numbers and strings. A `pgbn_BigInteger_t` owns a `BigIntegerImpl` as
a `BigInteger` does. Clients know their objects by number, and one that was destroyed cannot be used
any more.
-/

namespace PGBigNumber.Pgbn

open BigInteger (Heap BinOp)
open Program (Arg)

def cStr (s : List Char) : List Char := s.takeWhile (· ≠ Char.ofNat 0)

structure Strings where
  str : Nat → Option (List Char)
  live : Nat

def Strings.initial : Strings := ⟨fun _ => none, 0⟩

structure Objects (α : Type) where
  numbers : α
  strings : Strings

namespace Objects

section

variable {α : Type} (s : Objects α)

def stringCreate (str : List Char) : Nat × Objects α :=
  let res := s.strings.live
  (res, { s with strings := ⟨Function.update s.strings.str res (some (cStr str)), res + 1⟩ })

def stringCStr (str : Nat) : Option (List Char × Objects α) :=
  (s.strings.str str).map fun chars => (cStr chars, s)

def stringLength (str : Nat) : Option (Nat × Objects α) :=
  (s.strings.str str).map fun chars => (chars.length, s)

def stringDestroy (str : Nat) : Option (Unit × Objects α) :=
  (s.strings.str str).map fun _ =>
    ((), { s with strings := { s.strings with str := Function.update s.strings.str str none } })

end

variable (s : Objects Heap)

def change (f : Heap → Option Heap) : Option (Unit × Objects Heap) :=
  (f s.numbers).map fun h => ((), { s with numbers := h })

def look {ρ : Type} (f : Heap → Option ρ) : Option (ρ × Objects Heap) :=
  (f s.numbers).map fun r => (r, s)

/-- `res = new pgbn_BigInteger_t` and `res->impl = new pgbn::BigIntegerImpl(..)`. -/
def make (construct : Heap → Nat → Option Heap) : Option (Nat × Objects Heap) :=
  (s.numbers.define construct).map fun h => (s.numbers.live, { s with numbers := h })

/-- `impl->fromString(s, radix, &ok)` with an `ok` that was true before. -/
def fromString (h : Heap) (b : Nat) (str : List Char) (radix : Int) : Option (Bool × Heap) := do
  let i ← h.pImpl b
  let written ← (h.impls.store.fromString i str radix).map Prod.snd
  let h ← h.call b (.fromString · str radix)
  return (written.getD true, h)

def create : Option (Nat × Objects Heap) := s.make fun h v => h.newImpl v .create

def createWithCopying (other : Nat) : Option (Nat × Objects Heap) :=
  s.make fun h v => do h.newImpl v (.createCopy (← h.pImpl other))

def createWithI64 (i64 : {k : Int // Num.InI64 k}) : Option (Nat × Objects Heap) :=
  s.make fun h v => h.newImpl v (.createI64 i64)

/-- `pgbn_BigInteger_CreateWithStr`; no number stands for `NULL`. -/
def createWithStr (str : List Char) (radix : Int) : Option (Option Nat × Objects Heap) := do
  let res := s.numbers.live
  let h ← s.numbers.define fun h v => h.newImpl v .create
  let r ← fromString h res (cStr str) radix
  if r.1 then return (some res, { s with numbers := r.2 })
  else
    let h ← r.2.destroy res
    return (none, { s with numbers := h })

def createWithBin (src : List UInt8) (little : Bool) : Option (Nat × Objects Heap) := do
  let res := s.numbers.live
  let h ← s.numbers.define fun h v => h.newImpl v .create
  let h ← h.fromBinary res src little
  return (res, { s with numbers := h })

def destroy (b : Nat) : Option (Unit × Objects Heap) := do
  let _ ← s.numbers.pImpl b
  s.change (·.destroy b)

def copy (dest src : Nat) : Option (Unit × Objects Heap) :=
  s.change fun h => do
    let i ← h.pImpl dest
    let j ← h.pImpl src
    let impls ← h.impls.step (.assign i j)
    some { h with impls }

def assignWithI64 (b : Nat) (i64 : {k : Int // Num.InI64 k}) : Option (Unit × Objects Heap) :=
  s.change (·.assignI64 b i64)

def assignWithStr (b : Nat) (str : List Char) (radix : Int) : Option (Bool × Objects Heap) := do
  let r ← fromString s.numbers b (cStr str) radix
  return (r.1, { s with numbers := r.2 })

def assignWithBin (b : Nat) (bin : List UInt8) (little : Bool) : Option (Unit × Objects Heap) :=
  s.change (·.fromBinary b bin little)

def convert {α : Type} (f : Store → Nat → Store.Checked α) (b : Nat) :
    Option ((α × Bool) × Objects Heap) := do
  let i ← s.numbers.pImpl b
  let r := f s.numbers.impls.store i
  let impls := { s.numbers.impls with store := r.store }
  return ((r.value, r.ok), { s with numbers := { s.numbers with impls } })

def getInt64WithChecking (b : Nat) : Option ((Int64 × Bool) × Objects Heap) :=
  s.convert Store.pgbnGetInt64WithChecking b

def getInt64 (b : Nat) : Option (Int64 × Objects Heap) :=
  (s.getInt64WithChecking b).map fun r => (r.1.1, r.2)

def getUInt64WithChecking (b : Nat) : Option ((UInt64 × Bool) × Objects Heap) :=
  s.convert Store.pgbnGetUInt64WithChecking b

def getUInt64 (b : Nat) : Option (UInt64 × Objects Heap) :=
  (s.getUInt64WithChecking b).map fun r => (r.1.1, r.2)

def get2sComplementBlock (b i : Nat) : Option (UInt32 × Objects Heap) := do
  let u32 ← s.numbers.block b i
  let h ← s.numbers.get2sComplement b i
  return (u32, { s with numbers := h })

def toString (b radix : Nat) : Option (Nat × Objects Heap) := do
  let str ← s.numbers.text b radix
  let h ← s.numbers.toString b radix
  return { s with numbers := h }.stringCreate str

def getMagData (b maxlen : Nat) : Option (List UInt8 × Objects Heap) :=
  s.look fun h => (h.pImpl b).map (h.impls.store.copyMagDataTo · maxlen)

def isZero (b : Nat) : Option (Bool × Objects Heap) := s.look (·.isZero b)

def isOne (b : Nat) : Option (Bool × Objects Heap) := s.look (·.isOne b)

def isNegOne (b : Nat) : Option (Bool × Objects Heap) := s.look (·.isNegOne b)

def isPositive (b : Nat) : Option (Bool × Objects Heap) := s.look (·.isPositive b)

def isNegative (b : Nat) : Option (Bool × Objects Heap) := s.look (·.isNegative b)

def isEven (b : Nat) : Option (Bool × Objects Heap) := s.look (·.isEven b)

def isOdd (b : Nat) : Option (Bool × Objects Heap) := s.look (·.isOdd b)

def cmpWithI64 (a : Nat) (i64 : {k : Int // Num.InI64 k}) : Option (Int × Objects Heap) :=
  s.look (·.cmp a (.int64 i64))

def cmp (a b : Nat) : Option (Int × Objects Heap) := s.look (·.cmp a (.big b))

def inc (b : Nat) : Option (Unit × Objects Heap) := s.change (·.inc b)

def dec (b : Nat) : Option (Unit × Objects Heap) := s.change (·.dec b)

def notSelf (b : Nat) : Option (Unit × Objects Heap) := s.change (·.notSelf b)

def negate (b : Nat) : Option (Unit × Objects Heap) := s.change (·.negate b)

def absSelf (b : Nat) : Option (Unit × Objects Heap) := s.change (·.abs b)

def notSelfBits (b : Nat) : Option (Unit × Objects Heap) := s.change (·.notBits b)

/-- `pgbn_BigInteger_AddAssign` and `pgbn_BigInteger_AddAssignWithI64`. -/
def addAssign (a : Nat) (b : Arg) : Option (Unit × Objects Heap) := s.change (·.addAssign a b)

/-- `pgbn_BigInteger_SubAssign` and `pgbn_BigInteger_SubAssignWithI64`. -/
def subAssign (a : Nat) (b : Arg) : Option (Unit × Objects Heap) := s.change (·.subAssign a b)

/-- `pgbn_BigInteger_MulAssign` and `pgbn_BigInteger_MulAssignWithI64`. -/
def mulAssign (a : Nat) (b : Arg) : Option (Unit × Objects Heap) := s.change (·.mulAssign a b)

/-- `pgbn_BigInteger_DivAssign` and `pgbn_BigInteger_DivAssignWithI64`. -/
def divAssign (a : Nat) (b : Arg) : Option (Unit × Objects Heap) := s.change (·.divAssign a b)

/-- `pgbn_BigInteger_ModAssign` and `pgbn_BigInteger_ModAssignWithI64`, with a local quotient. -/
def modAssign (a : Nat) (b : Arg) : Option (Unit × Objects Heap) := s.change (·.modAssign a b)

/-- `pgbn_BigInteger_AndAssign` and `pgbn_BigInteger_AndAssignWithI64`. -/
def andAssign (a : Nat) (b : Arg) : Option (Unit × Objects Heap) := s.change (·.andAssign a b)

/-- `pgbn_BigInteger_OrAssign` and `pgbn_BigInteger_OrAssignWithI64`. -/
def orAssign (a : Nat) (b : Arg) : Option (Unit × Objects Heap) := s.change (·.orAssign a b)

/-- `pgbn_BigInteger_XorAssign` and `pgbn_BigInteger_XorAssignWithI64`. -/
def xorAssign (a : Nat) (b : Arg) : Option (Unit × Objects Heap) := s.change (·.xorAssign a b)

/-- `pgbn_BigInteger_SHLAssignWithI64`, whose `int64_t` becomes a `std::uint64_t`. -/
def shlAssignWithI64 (a : Nat) (i64 : Int64) : Option (Unit × Objects Heap) :=
  s.change (·.shiftLeftAssign a i64.toUInt64)

def shrAssignWithI64 (a : Nat) (i64 : Int64) : Option (Unit × Objects Heap) :=
  s.change (·.shiftRightAssign a i64.toUInt64)

def assignOp : BinOp → Objects Heap → Nat → Arg → Option (Unit × Objects Heap)
  | .add => addAssign
  | .sub => subAssign
  | .mul => mulAssign
  | .div => divAssign
  | .mod => modAssign
  | .and => andAssign
  | .or => orAssign
  | .xor => xorAssign

end Objects

/-- A call of the interface. The eight operators take a number or an `int64_t` on their right. -/
inductive Call where
  | stringCreate (str : List Char)
  | stringCStr (str : Nat)
  | stringLength (str : Nat)
  | stringDestroy (str : Nat)
  | create
  | createWithCopying (other : Nat)
  | createWithI64 (i64 : {k : Int // Num.InI64 k})
  | createWithStr (str : List Char) (radix : Int)
  | createWithBin (src : List UInt8) (little : Bool)
  | destroy (b : Nat)
  | copy (dest src : Nat)
  | assignWithI64 (b : Nat) (i64 : {k : Int // Num.InI64 k})
  | assignWithStr (b : Nat) (str : List Char) (radix : Int)
  | assignWithBin (b : Nat) (bin : List UInt8) (little : Bool)
  | getInt64 (b : Nat)
  | getInt64WithChecking (b : Nat)
  | getUInt64 (b : Nat)
  | getUInt64WithChecking (b : Nat)
  | get2sComplementBlock (b i : Nat)
  | toString (b radix : Nat)
  | getMagData (b maxlen : Nat)
  | isZero (b : Nat)
  | isOne (b : Nat)
  | isNegOne (b : Nat)
  | isPositive (b : Nat)
  | isNegative (b : Nat)
  | isEven (b : Nat)
  | isOdd (b : Nat)
  | cmpWithI64 (a : Nat) (i64 : {k : Int // Num.InI64 k})
  | cmp (a b : Nat)
  | inc (b : Nat)
  | dec (b : Nat)
  | notSelf (b : Nat)
  | negate (b : Nat)
  | absSelf (b : Nat)
  | notSelfBits (b : Nat)
  | assignOp (op : BinOp) (a : Nat) (b : Arg)
  | shlAssignWithI64 (a : Nat) (i64 : Int64)
  | shrAssignWithI64 (a : Nat) (i64 : Int64)

abbrev Call.Answer : Call → Type
  | .create | .createWithCopying _ | .createWithI64 _ | .createWithBin _ _ | .stringCreate _
  | .toString _ _ | .stringLength _ => Nat
  | .createWithStr _ _ => Option Nat
  | .stringCStr _ => List Char
  | .getInt64 _ => Int64
  | .getInt64WithChecking _ => Int64 × Bool
  | .getUInt64 _ => UInt64
  | .getUInt64WithChecking _ => UInt64 × Bool
  | .get2sComplementBlock _ _ => UInt32
  | .getMagData _ _ => List UInt8
  | .assignWithStr _ _ _ | .isZero _ | .isOne _ | .isNegOne _ | .isPositive _ | .isNegative _
  | .isEven _ | .isOdd _ => Bool
  | .cmpWithI64 _ _ | .cmp _ _ => Int
  | _ => Unit

def Objects.answer : Code.Machine (Objects Heap) Call.Answer
  | s, .stringCreate str => some (s.stringCreate str)
  | s, .stringCStr str => s.stringCStr str
  | s, .stringLength str => s.stringLength str
  | s, .stringDestroy str => s.stringDestroy str
  | s, .create => s.create
  | s, .createWithCopying other => s.createWithCopying other
  | s, .createWithI64 i64 => s.createWithI64 i64
  | s, .createWithStr str radix => s.createWithStr str radix
  | s, .createWithBin src little => s.createWithBin src little
  | s, .destroy b => s.destroy b
  | s, .copy dest src => s.copy dest src
  | s, .assignWithI64 b i64 => s.assignWithI64 b i64
  | s, .assignWithStr b str radix => s.assignWithStr b str radix
  | s, .assignWithBin b bin little => s.assignWithBin b bin little
  | s, .getInt64 b => s.getInt64 b
  | s, .getInt64WithChecking b => s.getInt64WithChecking b
  | s, .getUInt64 b => s.getUInt64 b
  | s, .getUInt64WithChecking b => s.getUInt64WithChecking b
  | s, .get2sComplementBlock b i => s.get2sComplementBlock b i
  | s, .toString b radix => s.toString b radix
  | s, .getMagData b maxlen => s.getMagData b maxlen
  | s, .isZero b => s.isZero b
  | s, .isOne b => s.isOne b
  | s, .isNegOne b => s.isNegOne b
  | s, .isPositive b => s.isPositive b
  | s, .isNegative b => s.isNegative b
  | s, .isEven b => s.isEven b
  | s, .isOdd b => s.isOdd b
  | s, .cmpWithI64 a i64 => s.cmpWithI64 a i64
  | s, .cmp a b => s.cmp a b
  | s, .inc b => s.inc b
  | s, .dec b => s.dec b
  | s, .notSelf b => s.notSelf b
  | s, .negate b => s.negate b
  | s, .absSelf b => s.absSelf b
  | s, .notSelfBits b => s.notSelfBits b
  | s, .assignOp op a b => s.assignOp op a b
  | s, .shlAssignWithI64 a i64 => s.shlAssignWithI64 a i64
  | s, .shrAssignWithI64 a i64 => s.shrAssignWithI64 a i64

def Objects.initial : Objects Heap := ⟨Heap.initial, Strings.initial⟩

end PGBigNumber.Pgbn
