import PGBigNumber.BigInteger.Owned

/-!
# What big integers mean

The same statements on objects that hold integers, and the conditions under which the statements
come out right.
-/

namespace PGBigNumber

def Values.put (u : Values) (v : Nat) (x : Option Int) : Values :=
  { u with value := Function.update u.value v x }

namespace BigInteger

open Program (Arg Op)

def BinOp.meaning : BinOp → Int → Int → Option Int
  | .add, x, y => some (x + y)
  | .sub, x, y => some (x - y)
  | .mul, x, y => some (x * y)
  | .div, x, y => if y = 0 then none else some (x.tdiv y)
  | .mod, x, y => if y = 0 then none else some (x.tmod y)
  | .and, x, y => some (Int.land x y)
  | .or, x, y => some (Int.lor x y)
  | .xor, x, y => some (Int.xor x y)

def change (u : Values) (v : Nat) (f : Int → Int) : Option Values := do
  return u.set v (f (← u.value v))

def result (u : Values) (v : Nat) (f : Int → Int) : Option Values := do
  return u.push (f (← u.value v))

def Stmt.meaning (u : Values) : Stmt → Option Values
  | .default => some (u.push 0)
  | .copy other | .plus other => result u other id
  | .move other => some (({ u with live := u.live + 1 }.put u.live (u.value other)).put other none)
  | .ofI64 i => some (u.push i)
  | .ofString str radix => do return u.push (← readText 0 str radix)
  | .ofBinary bin little => some (u.push (bytesInt (Store.littleOf bin little)))
  | .destroy v => some (u.put v none)
  | .assign v other => if v = other then some u else do return u.set v (← u.value other)
  | .assignMove v other =>
    if v = other then some u else some ((u.put v (u.value other)).put other none)
  | .assignI64 v i => change u v fun _ => i
  | .assignString v str radix => do return u.set v (← readText (← u.value v) str radix)
  | .fromBinary v bin little => change u v fun _ => bytesInt (Store.littleOf bin little)
  | .swap v w => some ((u.put v (u.value w)).put w (u.value v))
  | .inc v => change u v (· + 1)
  | .dec v => change u v (· - 1)
  | .opAssign op v other => do return u.set v (← op.meaning (← u.value v) (← other.value u))
  | .shiftLeftAssign v u64 => change u v (· * 2 ^ u64.toNat)
  | .shiftRightAssign v u64 => change u v (· / 2 ^ u64.toNat)
  | .negate v => change u v (-·)
  | .abs v => change u v fun x => |x|
  | .notSelf v => change u v (-· - 1)
  | .notBits v => change u v complement
  | .toString v radix => if ValidRadix radix then change u v id else none
  | .get2sComplement v _ | .asInteger v => change u v id
  | .binary op operands => do
    return u.push (← op.meaning (← operands.left.value u) (← operands.right.value u))
  | .shiftLeft left right => result u left (· * 2 ^ right.toUInt64.toNat)
  | .shiftRight left right => result u left (· / 2 ^ right.toUInt64.toNat)
  | .neg v | .negated v => result u v (-·)
  | .absoluted v => result u v fun x => |x|
  | .not v => result u v (-· - 1)
  | .postInc v => do
    let x ← u.value v
    return (u.set v (x + 1)).push x
  | .postDec v => do
    let x ← u.value v
    return (u.set v (x - 1)).push x

def Stmt.evalStep (u : Values) (stmt : Stmt) : Option Values :=
  if ∀ v ∈ stmt.objects, v < u.live then stmt.meaning u else none

/-- What an operator asks of a machine integer on its right, next to the value on its left. -/
def BinOp.Fits : BinOp → Int → Arg → Prop
  | .add, x, .int64 k => Num.TopLimbZero k → x ≠ 0 ∧ x ≠ -k
  | .sub, x, .int64 k => Num.TopLimbZero k → x ≠ 0 ∧ x ≠ k
  | .mul, x, .int64 k => Num.TopLimbZero k → x.natAbs ≠ 1
  | .div, x, .int64 k | .mod, x, .int64 k => Num.TopLimbZero k → x.natAbs ≤ 2 ^ 32 - 2
  | _, _, _ => True

/-- The operators that open the window of the object they change. -/
def BinOp.bitwise : BinOp → Bool
  | .and | .or | .xor => true
  | _ => false

/-- The window of implementation `i` shows no stale limb when it is opened for `b`. -/
def Heap.Unspoiled (h : Heap) (i : Nat) (b : Arg) : Prop :=
  h.impls.store.Unspoiled i (max (h.impls.store.mag i).count (b.len h.impls.store) + 1)

/-- The statement meets none of the conditions under which the library goes wrong. The bitwise
operators that return an object never meet a stale limb: they work on a copy. -/
def Stmt.Faultless (h : Heap) : Stmt → Prop
  | .ofI64 i | .assignI64 _ i => ¬ Num.TopLimbZero i
  | .ofBinary bin little | .fromBinary _ bin little => ¬ Misaligned (Store.littleOf bin little)
  | .opAssign op v other => ∀ i b, h.pImpl v = some i → h.arg other = some b →
    op.Fits (h.impls.store.num i).toInt other ∧ (op.bitwise = true → h.Unspoiled i b)
  | .notSelf v => ∀ i, h.pImpl v = some i →
    h.impls.store.Unspoiled i ((h.impls.store.mag i).count + 1)
  | .notBits v => ∀ i, h.pImpl v = some i →
    h.impls.store.isZero i = true ∨ ∀ k, ((h.impls.store.limbs i).getLastD 0).toNat + 1 ≠ 2 ^ k
  | .binary op operands =>
    match operands with
    | .bigBig _ _ => True
    | .bigInt left k => ∀ i, h.pImpl left = some i → op.Fits (h.impls.store.num i).toInt (.int64 k)
    | .intBig k _ => ¬ Num.TopLimbZero k
  | _ => True

def Heap.values (h : Heap) : Values :=
  ⟨Ownership.deref h.pImpl h.impls.values.value, h.live⟩

end BigInteger

end PGBigNumber
