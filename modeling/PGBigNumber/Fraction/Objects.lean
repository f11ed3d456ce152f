import PGBigNumber.BigInteger.Gcd
import PGBigNumber.Decimal

/-!
# Fractions on big integers

`experimental::Fraction` with its two `BigInteger` members. A `DIVBY0` status ends the process.
-/

namespace PGBigNumber

namespace Fraction

open BigInteger

/-- The objects `m_num` and `m_den` of a fraction. -/
structure Obj where
  num : Nat
  den : Nat
deriving DecidableEq, Repr

namespace Obj

def zero : {k : Int // Num.InI64 k} := ⟨0, inI64_zero⟩

def fix (n : Nat) (f : Obj) : Code Call.Answer Unit := do
  let num ← BigInteger.make (.absoluted f.num)
  let den ← BigInteger.make (.absoluted f.den)
  let g ← gcd n num den
  drop den
  drop num
  exec (.opAssign .div f.num (.big g))
  exec (.opAssign .div f.den (.big g))
  drop g

def default : Code Call.Answer Obj := do
  let num ← BigInteger.make .default
  let den ← BigInteger.make (.ofI64 ⟨1, by decide⟩)
  return ⟨num, den⟩

def make (n num den : Nat) : Code Call.Answer Obj := do
  let m_num ← BigInteger.make (.copy num)
  let m_den ← BigInteger.make (.copy den)
  if ← compare .eq (.bigInt den zero) then .stop
  else
    fix n ⟨m_num, m_den⟩
    return ⟨m_num, m_den⟩

def copy (f : Obj) : Code Call.Answer Obj := do
  let num ← BigInteger.make (.copy f.num)
  let den ← BigInteger.make (.copy f.den)
  return ⟨num, den⟩

def assign (f other : Obj) : Code Call.Answer Unit := do
  exec (.assign f.num other.num)
  exec (.assign f.den other.den)

def setNum (n : Nat) (f : Obj) (num : Nat) : Code Call.Answer Unit := do
  exec (.assign f.num num)
  fix n f

def setDen (n : Nat) (f : Obj) (den : Nat) : Code Call.Answer Unit := do
  if ← compare .eq (.bigInt den zero) then .stop
  else
    exec (.assign f.den den)
    fix n f

def reciprocal (f : Obj) : Code Call.Answer Obj := do
  if ← compare .eq (.bigInt f.den zero) then .stop
  else
    let result ← copy f
    exec (.swap result.num result.den)
    return result

/-- The end of the operators: a default fraction gets the parts that were computed. -/
def combine (n new_num new_den : Nat) : Code Call.Answer Obj := do
  let result ← default
  exec (.assign result.num new_num)
  exec (.assign result.den new_den)
  fix n result
  drop new_den
  drop new_num
  return result

/-- The numerator of a sum or a difference, by cross products. -/
def cross (op : BinOp) (left right : Obj) : Code Call.Answer Nat := do
  let a ← BigInteger.make (.binary .mul (.bigBig left.num right.den))
  let b ← BigInteger.make (.binary .mul (.bigBig right.num left.den))
  let new_num ← BigInteger.make (.binary op (.bigBig a b))
  drop b
  drop a
  return new_num

def add (n : Nat) (left right : Obj) : Code Call.Answer Obj := do
  let new_num ← cross .add left right
  let new_den ← BigInteger.make (.binary .mul (.bigBig left.den right.den))
  combine n new_num new_den

def sub (n : Nat) (left right : Obj) : Code Call.Answer Obj := do
  let new_num ← cross .sub left right
  let new_den ← BigInteger.make (.binary .mul (.bigBig left.den right.den))
  combine n new_num new_den

def mul (n : Nat) (left right : Obj) : Code Call.Answer Obj := do
  let new_num ← BigInteger.make (.binary .mul (.bigBig left.num right.num))
  let new_den ← BigInteger.make (.binary .mul (.bigBig left.den right.den))
  combine n new_num new_den

def div (n : Nat) (left right : Obj) : Code Call.Answer Obj := do
  if ← compare .eq (.bigInt right.num zero) then .stop
  else
    let new_num ← BigInteger.make (.binary .mul (.bigBig left.num right.den))
    let new_den ← BigInteger.make (.binary .mul (.bigBig left.den right.num))
    combine n new_num new_den

def toString (f : Obj) (radix : Nat) : Code Call.Answer (List Char) := do
  let numSignum ← cmp f.num (.int64 zero)
  let denSignum ← cmp f.den (.int64 zero)
  let num ← BigInteger.make (.absoluted f.num)
  let numText ← BigInteger.toString num radix
  let den ← BigInteger.make (.absoluted f.den)
  let denText ← BigInteger.toString den radix
  drop den
  drop num
  return (if numSignum * denSignum = -1 then ['-'] else []) ++ numText ++ '/' :: denText

/-- The decimals of `toDecimal` behind the point, from the remainder `q`. -/
def decimals (f : Obj) (q k : Nat) : Code Call.Answer (List Char) := do
  let mul ← BigInteger.make (.ofString ('1' :: List.replicate k '0') 10)
  let product ← BigInteger.make (.binary .mul (.bigBig q mul))
  let quotient ← BigInteger.make (.binary .div (.bigBig product f.den))
  let digits ← BigInteger.toString quotient 10
  drop quotient
  drop product
  drop mul
  let str := '.' :: digits
  return if k > str.length then str ++ List.replicate (k - str.length) '0' else str

def toDecimal (f : Obj) (maxDecimalDigitCount : Int) : Code Call.Answer (List Char) := do
  let num ← BigInteger.make (.absoluted f.num)
  let den ← BigInteger.make (.absoluted f.den)
  let q ← BigInteger.make (.binary .mod (.bigBig num den))
  drop den
  drop num
  let digitalDigitsStr ←
    (if maxDecimalDigitCount > 0 then decimals f q maxDecimalDigitCount.toNat else pure [])
  let quotient ← BigInteger.make (.binary .div (.bigBig f.num f.den))
  let text ← BigInteger.toString quotient 10
  drop quotient
  drop q
  return text ++ digitalDigitsStr

end Obj

end Fraction

end PGBigNumber
