import PGBigNumber.Store.Values

/-!
# Big integers

`BigInteger` objects own a `BigIntegerImpl` each. A copy makes a new one, a move hands it over, and
the operators that return an object work on a temporary copy of their left operand. A result goes
to the next object, the locals of a function to the ones behind it.
-/

namespace PGBigNumber.BigInteger

open Program (Arg Op)

/-- The objects `0 .. live - 1` with their `m_pImpl`, and what these point to. A pointer is null
after a move and after the destructor. -/
structure Heap where
  impls : Program
  pImpl : Nat → Option Nat
  live : Nat

namespace Heap

variable (h : Heap)

def initial : Heap := ⟨Program.initial, fun _ => none, 0⟩

def newImpl (v : Nat) (op : Op) : Option Heap := do
  let impls ← h.impls.step op
  some { h with impls, pImpl := Function.update h.pImpl v (some h.impls.store.live) }

def delete : Option Nat → Option Heap
  | none => some h
  | some i => do
    let impls ← h.impls.step (.destroy i)
    some { h with impls }

/-- A function that runs on `*m_pImpl`; no result where the pointer is null. -/
def call (v : Nat) (f : Nat → Op) : Option Heap := do
  let i ← h.pImpl v
  let impls ← h.impls.step (f i)
  some { h with impls }

def arg : Arg → Option Arg
  | .big w => (h.pImpl w).map .big
  | .int64 k => some (.int64 k)

def callWith (v : Nat) (other : Arg) (f : Nat → Arg → Op) : Option Heap := do
  let i ← h.pImpl v
  let arg ← h.arg other
  let impls ← h.impls.step (f i arg)
  some { h with impls }

def default (v : Nat) : Option Heap := h.newImpl v .create

def copy (v other : Nat) : Option Heap := do h.newImpl v (.createCopy (← h.pImpl other))

def move (v other : Nat) : Heap :=
  { h with pImpl := Function.update (Function.update h.pImpl v (h.pImpl other)) other none }

def ofI64 (v : Nat) (i : {k : Int // Num.InI64 k}) : Option Heap := h.newImpl v (.createI64 i)

def ofString (v : Nat) (str : List Char) (radix : Int) : Option Heap :=
  h.newImpl v (.createString str radix)

def ofBinary (v : Nat) (bin : List UInt8) (little : Bool) : Option Heap :=
  h.newImpl v (.createBytes bin little)

def destroy (v : Nat) : Option Heap :=
  { h with pImpl := Function.update h.pImpl v none }.delete (h.pImpl v)

/-- `operator=(const BigInteger &)`: `reset` deletes what it replaces at the end. -/
def assign (v other : Nat) : Option Heap :=
  if v = other then some h
  else do
    let h' ← h.copy v other
    h'.delete (h.pImpl v)

def assignMove (v other : Nat) : Option Heap :=
  if v = other then some h else (h.move v other).delete (h.pImpl v)

def assignI64 (v : Nat) (i : {k : Int // Num.InI64 k}) : Option Heap := h.call v (.assignI64 · i)

def assignString (v : Nat) (str : List Char) (radix : Int) : Option Heap :=
  h.call v (.fromString · str radix)

def fromBinary (v : Nat) (bin : List UInt8) (little : Bool) : Option Heap :=
  h.call v (.assignBytes · bin little)

def swap (v w : Nat) : Option Heap := do
  let temp := h.live
  let h := h.move temp v
  let h ← h.assignMove v w
  let h ← h.assignMove w temp
  h.destroy temp

def inc (v : Nat) : Option Heap := h.call v .inc

def dec (v : Nat) : Option Heap := h.call v .dec

def addAssign (v : Nat) (other : Arg) : Option Heap := h.callWith v other .addAssign

def subAssign (v : Nat) (other : Arg) : Option Heap := h.callWith v other .subAssign

def mulAssign (v : Nat) (other : Arg) : Option Heap := h.callWith v other .mulAssign

def divAssign (v : Nat) (other : Arg) : Option Heap := h.callWith v other .divAssign

def andAssign (v : Nat) (other : Arg) : Option Heap := h.callWith v other .andAssign

def orAssign (v : Nat) (other : Arg) : Option Heap := h.callWith v other .orAssign

def xorAssign (v : Nat) (other : Arg) : Option Heap := h.callWith v other .xorAssign

/-- `operator%=`, with a local `BigIntegerImpl q` for the quotient. -/
def modAssign (v : Nat) (other : Arg) : Option Heap := do
  let i ← h.pImpl v
  let arg ← h.arg other
  let q := h.impls.store.live
  let impls ← h.impls.step .create
  let impls ← impls.step (.modAssignAndQuotient i arg q)
  let impls ← impls.step (.destroy q)
  some { h with impls }

def shiftLeftAssign (v : Nat) (u64 : UInt64) : Option Heap := h.call v (.shiftLeftAssign · u64.toNat)

def shiftRightAssign (v : Nat) (u64 : UInt64) : Option Heap :=
  h.call v (.shiftRightAssign · u64.toNat)

def negate (v : Nat) : Option Heap := h.call v .negate

def abs (v : Nat) : Option Heap := h.call v .abs

def notSelf (v : Nat) : Option Heap := h.call v .notSelf

def notBits (v : Nat) : Option Heap := h.call v .notBits

def toString (v radix : Nat) : Option Heap := h.call v (.toString · radix)

def get2sComplement (v i : Nat) : Option Heap := h.call v (.getU32 · i)

def asInteger (v : Nat) : Option Heap := h.call v .toU64

def define (construct : Heap → Nat → Option Heap) : Option Heap := do
  let h' ← construct h h.live
  some { h' with live := h.live + 1 }

def construct (v : Nat) : Arg → Option Heap
  | .big w => h.copy v w
  | .int64 k => h.ofI64 v k

/-- `return BigInteger(left).f(...);` where `f` returns a reference to its object, so that the
result is a copy of the temporary. -/
def copied (left : Arg) (f : Heap → Nat → Option Heap) : Option Heap := do
  let result := h.live
  let temp := h.live + 1
  let h ← h.construct temp left
  let h ← f h temp
  let h ← h.copy result temp
  let h ← h.destroy temp
  some { h with live := result + 1 }

def add (left right : Arg) : Option Heap := h.copied left fun h temp => h.addAssign temp right

def sub (left right : Arg) : Option Heap := h.copied left fun h temp => h.subAssign temp right

def mul (left right : Arg) : Option Heap := h.copied left fun h temp => h.mulAssign temp right

def div (left right : Arg) : Option Heap := h.copied left fun h temp => h.divAssign temp right

def mod (left right : Arg) : Option Heap := h.copied left fun h temp => h.modAssign temp right

def and (left right : Arg) : Option Heap := h.copied left fun h temp => h.andAssign temp right

def or (left right : Arg) : Option Heap := h.copied left fun h temp => h.orAssign temp right

def xor (left right : Arg) : Option Heap := h.copied left fun h temp => h.xorAssign temp right

/-- `operator<<`, whose `std::int64_t` becomes the `std::uint64_t` of `operator<<=`. -/
def shiftLeft (left : Nat) (right : Int64) : Option Heap :=
  h.copied (.big left) fun h temp => h.shiftLeftAssign temp right.toUInt64

def shiftRight (left : Nat) (right : Int64) : Option Heap :=
  h.copied (.big left) fun h temp => h.shiftRightAssign temp right.toUInt64

def neg (v : Nat) : Option Heap := h.copied (.big v) negate

def negated (v : Nat) : Option Heap := h.neg v

def absoluted (v : Nat) : Option Heap := h.copied (.big v) abs

def plus (v : Nat) : Option Heap := h.define (·.copy · v)

/-- A copy of `*this` that is returned itself, after `f` has run on `self` or on it. -/
def returned (v : Nat) (f : Heap → Nat → Option Heap) : Option Heap := do
  let temp := h.live
  let h' ← h.copy temp v
  let h' ← f h' temp
  some { h' with live := temp + 1 }

def not (v : Nat) : Option Heap := h.returned v notSelf

def postInc (v : Nat) : Option Heap := h.returned v fun h _ => h.inc v

def postDec (v : Nat) : Option Heap := h.returned v fun h _ => h.dec v

end Heap

/-- The operators with two operands and an assignment form. -/
inductive BinOp where
  | add
  | sub
  | mul
  | div
  | mod
  | and
  | or
  | xor
deriving DecidableEq, Repr

def BinOp.assign : BinOp → Heap → Nat → Arg → Option Heap
  | .add => Heap.addAssign
  | .sub => Heap.subAssign
  | .mul => Heap.mulAssign
  | .div => Heap.divAssign
  | .mod => Heap.modAssign
  | .and => Heap.andAssign
  | .or => Heap.orAssign
  | .xor => Heap.xorAssign

def BinOp.apply : BinOp → Heap → Arg → Arg → Option Heap
  | .add => Heap.add
  | .sub => Heap.sub
  | .mul => Heap.mul
  | .div => Heap.div
  | .mod => Heap.mod
  | .and => Heap.and
  | .or => Heap.or
  | .xor => Heap.xor

/-- The operands of the three overloads of an operator. -/
inductive Operands where
  | bigBig (left right : Nat)
  | bigInt (left : Nat) (right : {k : Int // Num.InI64 k})
  | intBig (left : {k : Int // Num.InI64 k}) (right : Nat)

def Operands.left : Operands → Arg
  | .bigBig left _ | .bigInt left _ => .big left
  | .intBig left _ => .int64 left

def Operands.right : Operands → Arg
  | .bigBig _ right | .intBig _ right => .big right
  | .bigInt _ right => .int64 right

/-- What a program does with its objects. A constructor or an operator that returns an object makes
the next one; an object that was destroyed counts as one that was moved from. -/
inductive Stmt where
  | default
  | copy (other : Nat)
  | move (other : Nat)
  | ofI64 (i : {k : Int // Num.InI64 k})
  | ofString (str : List Char) (radix : Int)
  | ofBinary (bin : List UInt8) (little : Bool)
  | destroy (v : Nat)
  | assign (v other : Nat)
  | assignMove (v other : Nat)
  | assignI64 (v : Nat) (i : {k : Int // Num.InI64 k})
  | assignString (v : Nat) (str : List Char) (radix : Int)
  | fromBinary (v : Nat) (bin : List UInt8) (little : Bool)
  | swap (v w : Nat)
  | inc (v : Nat)
  | dec (v : Nat)
  | opAssign (op : BinOp) (v : Nat) (other : Arg)
  | shiftLeftAssign (v : Nat) (u64 : UInt64)
  | shiftRightAssign (v : Nat) (u64 : UInt64)
  | negate (v : Nat)
  | abs (v : Nat)
  | notSelf (v : Nat)
  | notBits (v : Nat)
  | toString (v radix : Nat)
  | get2sComplement (v i : Nat)
  | asInteger (v : Nat)
  | binary (op : BinOp) (operands : Operands)
  | shiftLeft (left : Nat) (right : Int64)
  | shiftRight (left : Nat) (right : Int64)
  | neg (v : Nat)
  | negated (v : Nat)
  | absoluted (v : Nat)
  | plus (v : Nat)
  | not (v : Nat)
  | postInc (v : Nat)
  | postDec (v : Nat)

def Stmt.exec (h : Heap) : Stmt → Option Heap
  | .default => h.define Heap.default
  | .copy other => h.define (·.copy · other)
  | .move other => h.define fun h v => some (h.move v other)
  | .ofI64 i => h.define (·.ofI64 · i)
  | .ofString str radix => h.define (·.ofString · str radix)
  | .ofBinary bin little => h.define (·.ofBinary · bin little)
  | .destroy v => h.destroy v
  | .assign v other => h.assign v other
  | .assignMove v other => h.assignMove v other
  | .assignI64 v i => h.assignI64 v i
  | .assignString v str radix => h.assignString v str radix
  | .fromBinary v bin little => h.fromBinary v bin little
  | .swap v w => h.swap v w
  | .inc v => h.inc v
  | .dec v => h.dec v
  | .opAssign op v other => op.assign h v other
  | .shiftLeftAssign v u64 => h.shiftLeftAssign v u64
  | .shiftRightAssign v u64 => h.shiftRightAssign v u64
  | .negate v => h.negate v
  | .abs v => h.abs v
  | .notSelf v => h.notSelf v
  | .notBits v => h.notBits v
  | .toString v radix => h.toString v radix
  | .get2sComplement v i => h.get2sComplement v i
  | .asInteger v => h.asInteger v
  | .binary op operands => op.apply h operands.left operands.right
  | .shiftLeft left right => h.shiftLeft left right
  | .shiftRight left right => h.shiftRight left right
  | .neg v => h.neg v
  | .negated v => h.negated v
  | .absoluted v => h.absoluted v
  | .plus v => h.plus v
  | .not v => h.not v
  | .postInc v => h.postInc v
  | .postDec v => h.postDec v

def Operands.objects : Operands → List Nat
  | .bigBig left right => [left, right]
  | .bigInt left _ => [left]
  | .intBig _ right => [right]

def Stmt.objects : Stmt → List Nat
  | .default | .ofI64 _ | .ofString _ _ | .ofBinary _ _ => []
  | .copy v | .move v | .destroy v | .assignI64 v _ | .assignString v _ _ | .fromBinary v _ _
  | .inc v | .dec v | .shiftLeftAssign v _ | .shiftRightAssign v _ | .negate v | .abs v
  | .notSelf v | .notBits v | .toString v _ | .get2sComplement v _ | .asInteger v
  | .shiftLeft v _ | .shiftRight v _ | .neg v | .negated v | .absoluted v | .plus v | .not v
  | .postInc v | .postDec v => [v]
  | .assign v w | .assignMove v w | .swap v w => [v, w]
  | .opAssign _ v other => v :: other.reads
  | .binary _ operands => operands.objects

/-- One statement of a program, on objects that were made before. -/
def step (h : Heap) (stmt : Stmt) : Option Heap :=
  if ∀ v ∈ stmt.objects, v < h.live then stmt.exec h else none

end PGBigNumber.BigInteger
