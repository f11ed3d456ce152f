import PGBigNumber.Number
import PGBigNumber.Library.UseCount

/-!
# The store

`BigIntegerImpl` objects hold windows over vectors that several objects may share. The store has
the vectors by address and the objects by number; objects `0 .. live - 1` are alive, and a function
keeps its local objects at the end and drops them when it returns. The use count of a vector is
the number of live objects that hold it.
-/

namespace PGBigNumber

/-- The codes of `ErrCode` that the number classes set. -/
inductive ErrCode where
  | success
  | divBy0
  | radixInvalid
  | numberStringEmpty
  | numberStringSigInvalid
  | numberStringParse2NumError
  | arithmeticOverflow
deriving DecidableEq, Repr

/-- A `BigIntegerImpl` object: `m_flags`, `m_mag` and `m_firstNotZeroU32IndexLazy`. -/
structure Impl where
  sign : Sign
  /-- The bit `FIRST_NZ_U32_INDEX_CALCUED`. -/
  calcued : Bool
  /-- Address of `m_mag.m_data`. -/
  data : Nat
  lo : Nat
  hi : Nat
  firstNotZeroU32Index : Nat
deriving DecidableEq, Repr

structure Store where
  vec : Nat → List UInt32
  next : Nat
  obj : Nat → Impl
  live : Nat
  status : Option ErrCode

namespace Store

def initial : Store := ⟨fun _ => [], 0, fun _ => ⟨.invalid, false, 0, 0, 0, 0⟩, 0, none⟩

def mag (σ : Store) (i : Nat) : Slice UInt32 := ⟨σ.vec (σ.obj i).data, (σ.obj i).lo, (σ.obj i).hi⟩

def sign (σ : Store) (i : Nat) : Sign := (σ.obj i).sign

def limbs (σ : Store) (i : Nat) : List UInt32 := (σ.mag i).toList

def num (σ : Store) (i : Nat) : Num := ⟨σ.sign i, σ.limbs i⟩

def useCount (σ : Store) (i : Nat) : Nat :=
  UseCount.count (fun j => (σ.obj j).data) σ.live (σ.obj i).data

def Sole (σ : Store) (i : Nat) : Prop := UseCount.Sole (fun j => (σ.obj j).data) σ.live i

def modify (σ : Store) (i : Nat) (f : Impl → Impl) : Store :=
  { σ with obj := Function.update σ.obj i (f (σ.obj i)) }

/-- Assign the sign bits of `m_flags`; the cache bit stays. -/
def setSign (σ : Store) (i : Nat) (s : Sign) : Store := σ.modify i fun o => { o with sign := s }

def setFlags (σ : Store) (i : Nat) (s : Sign) : Store :=
  σ.modify i fun o => { o with sign := s, calcued := false }

def beginWrite (σ : Store) (i : Nat) : Store := σ.modify i fun o => { o with calcued := false }

def putMag (σ : Store) (i : Nat) (s : Slice UInt32) : Store :=
  { σ with
    vec := Function.update σ.vec (σ.obj i).data s.data
    obj := Function.update σ.obj i { σ.obj i with lo := s.lo, hi := s.hi } }

def newMag (σ : Store) (i : Nat) (s : Slice UInt32) : Store :=
  { σ with
    vec := Function.update σ.vec σ.next s.data
    next := σ.next + 1
    obj := Function.update σ.obj i { σ.obj i with data := σ.next, lo := s.lo, hi := s.hi } }

def shareMag (σ : Store) (i j : Nat) : Store :=
  σ.modify i fun o => { o with data := (σ.obj j).data, lo := (σ.obj j).lo, hi := (σ.obj j).hi }

def cloneData (σ : Store) (i : Nat) : Store :=
  if σ.useCount i = 1 then σ else σ.newMag i (σ.mag i).clone

def push (σ : Store) (o : Impl) : Store :=
  { σ with obj := Function.update σ.obj σ.live o, live := σ.live + 1 }

def popTo (σ : Store) (n : Nat) : Store := { σ with live := n }

def setStatus (σ : Store) (e : ErrCode) : Store := { σ with status := some e }

def beZero (σ : Store) (i : Nat) : Store :=
  (σ.newMag i Slice.empty).modify i fun o =>
    { o with sign := .zro, calcued := false, firstNotZeroU32Index := 0 }

def beUnit (σ : Store) (i : Nat) (s : Sign) : Store :=
  (σ.newMag i (Slice.empty.append 1)).modify i fun o =>
    { o with sign := s, calcued := true, firstNotZeroU32Index := 0 }

def beOne (σ : Store) (i : Nat) : Store := σ.beUnit i .pos

def beNegOne (σ : Store) (i : Nat) : Store := σ.beUnit i .neg

def assign (σ : Store) (i j : Nat) : Store :=
  if i = j then σ else σ.modify i fun _ => σ.obj j

def assignMove (σ : Store) (i j : Nat) : Store :=
  if i = j then σ
  else ((σ.assign i j).newMag j Slice.empty).modify j fun o =>
    { o with sign := .invalid, calcued := false, firstNotZeroU32Index := 0 }

def pushCopy (σ : Store) (j : Nat) : Store := σ.push (σ.obj j)

def pushDefault (σ : Store) : Store :=
  (σ.push ⟨.zro, false, 0, 0, 0, 0⟩).newMag σ.live Slice.empty

/-- `BigIntegerImpl(BigIntegerImpl &&)`: the flags stay behind in the source. -/
def pushMove (σ : Store) (j : Nat) : Store := (σ.pushCopy j).newMag j Slice.empty

def isZero (σ : Store) (i : Nat) : Bool := (σ.sign i).zero

def negate (σ : Store) (i : Nat) : Store :=
  if σ.isZero i then σ else σ.setSign i (σ.sign i).flip

def abs (σ : Store) (i : Nat) : Store := if (σ.sign i).negative then σ.negate i else σ

def swap (σ : Store) (i j : Nat) : Store :=
  { σ with obj := Function.update (Function.update σ.obj i (σ.obj j)) j (σ.obj i) }

end Store

end PGBigNumber
