import PGBigNumber.Store.Program

/-!
# Programs over integers

What the operations of a program mean: the same operations on objects that hold integers and share
nothing.
-/

namespace PGBigNumber

/-- Objects that hold integers; one that was moved from or destroyed holds none. -/
@[ext]
structure Values where
  value : Nat → Option Int
  live : Nat

namespace Values

def push (v : Values) (x : Int) : Values :=
  ⟨Function.update v.value v.live (some x), v.live + 1⟩

def set (v : Values) (i : Nat) (x : Int) : Values :=
  { v with value := Function.update v.value i (some x) }

def lose (v : Values) (i : Nat) : Values := { v with value := Function.update v.value i none }

def initial : Values := ⟨fun _ => none, 0⟩

end Values

namespace Values

variable {u u' : Values} {r v : Nat} {x y : Int}

theorem set_self (hx : u.value v = some x) : u.set v x = u :=
  Values.ext (by rw [set, ← hx, Function.update_eq_self]) rfl

def Tidy (u : Values) : Prop := ∀ v, u.live ≤ v → u.value v = none

theorem Tidy.lt (h : u.Tidy) (hx : u.value v = some x) : v < u.live := by
  by_contra hv
  rw [h v (by omega)] at hx
  exact absurd hx (by simp)

theorem Tidy.push (h : u.Tidy) (x : Int) : (u.push x).Tidy := by
  intro v hv
  have hlt : u.live < v := hv
  change Function.update u.value u.live (some x) v = none
  rw [Function.update_of_ne hlt.ne', h v hlt.le]

theorem Tidy.set (h : u.Tidy) (hv : v < u.live) (x : Int) : (u.set v x).Tidy := by
  intro w hw
  have hle : u.live ≤ w := hw
  change Function.update u.value v (some x) w = none
  rw [Function.update_of_ne (by omega), h w hle]

/-- A function made the object `r` with the integer `x`, and nothing else. -/
structure Adds (u u' : Values) (r : Nat) (x : Int) : Prop where
  old : u.live ≤ r
  new : r < u'.live
  value : u'.value = Function.update u.value r (some x)

theorem Adds.self (h : Adds u u' r x) : u'.value r = some x := by
  rw [h.value, Function.update_self]

theorem Adds.keeps (h : Adds u u' r x) (htidy : u.Tidy) (hy : u.value v = some y) :
    u'.value v = some y := by
  have hv := htidy.lt hy
  have hold := h.old
  rw [h.value, Function.update_of_ne (by omega), hy]

theorem Adds.tidy (h : Adds u u' r x) (htidy : u.Tidy) : u'.Tidy := by
  intro v hv
  have hnew := h.new
  have hold := h.old
  rw [h.value, Function.update_of_ne (by omega), htidy v (by omega)]

end Values

/-- What an object holds after a text was read into it: a text that is rejected leaves it as it is,
and a malformed one that is not rejected has no meaning. -/
def readText (old : Int) (str : List Char) (radix : Int) : Option Int :=
  if radix < 2 ∨ radix > 36 ∨ Rejected radix.toNat str then some old else denote radix.toNat str

/-- The number with the bits of `x` up to its leading one turned over, and with its sign. -/
def complement (x : Int) : Int := x.sign * (2 ^ x.natAbs.size - 1 - x.natAbs : Nat)

def signedMag (limbs : List UInt32) (signum : Int) : Option Int :=
  if signum = -1 ∨ signum = 0 ∨ signum = 1 then some (signum * mag limbs) else none

namespace Program

def Arg.value (v : Values) : Arg → Option Int
  | .big j => v.value j
  | .int64 k => some k

def Arg.divisor (v : Values) (b : Arg) : Option Int := do
  let y ← b.value v
  if y = 0 then none else some y

/-- What an operation does to integers. Division by zero ends a program. -/
def Op.meaning (v : Values) : Op → Option Values
  | .create => some (v.push 0)
  | .createCopy j => do return v.push (← v.value j)
  | .createMove j => do return (v.push (← v.value j)).lose j
  | .createI64 k => some (v.push k)
  | .createMag slice signum => do return v.push (← signedMag slice.1.toList signum)
  | .createString str radix => do return v.push (← readText 0 str radix)
  | .createBytes bin little => some (v.push (bytesInt (Store.littleOf bin little)))
  | .destroy i => some (v.lose i)
  | .assign i j => do return v.set i (← v.value j)
  | .assignMove i j => do
      let x ← v.value j
      return if i = j then v else (v.set i x).lose j
  | .assignI64 i k => some (v.set i k)
  | .fromString i str radix => do return v.set i (← readText (← v.value i) str radix)
  | .assignBytes i bin little => some (v.set i (bytesInt (Store.littleOf bin little)))
  | .swap i j => do return (v.set i (← v.value j)).set j (← v.value i)
  | .getU32 _ _ | .toU64 _ | .toString _ _ => some v
  | .inc i => do return v.set i ((← v.value i) + 1)
  | .dec i => do return v.set i ((← v.value i) - 1)
  | .addAssign i other => do return v.set i ((← v.value i) + (← other.value v))
  | .subAssign i other => do return v.set i ((← v.value i) - (← other.value v))
  | .mulAssign i other => do return v.set i ((← v.value i) * (← other.value v))
  | .divAssign i other => do return v.set i ((← v.value i).tdiv (← other.divisor v))
  | .divideAssignAndReminder i val r => do
      let x ← v.value i
      let y ← val.divisor v
      return (v.set r (x.tmod y)).set i (x.tdiv y)
  | .modAssignAndQuotient i val q => do
      let x ← v.value i
      let y ← val.divisor v
      return (v.set q (x.tdiv y)).set i (x.tmod y)
  | .andAssign i other => do return v.set i (Int.land (← v.value i) (← other.value v))
  | .orAssign i other => do return v.set i (Int.lor (← v.value i) (← other.value v))
  | .xorAssign i other => do return v.set i (Int.xor (← v.value i) (← other.value v))
  | .notSelf i => do return v.set i (-(← v.value i) - 1)
  | .notBits i => do return v.set i (complement (← v.value i))
  | .shiftLeftAssign i n => do return v.set i ((← v.value i) * 2 ^ n)
  | .shiftRightAssign i n => do return v.set i ((← v.value i) / 2 ^ n)
  | .negate i => do return v.set i (-(← v.value i))
  | .abs i => do return v.set i |← v.value i|
  | .mul res a b => do return v.set res ((← v.value a) * (← v.value b))
  | .div q r a b => do
      let x ← v.value a
      let y ← b.divisor v
      return (v.set q (x.tdiv y)).set r (x.tmod y)

end Program

/-- One operation on integers, under the conditions of `Program.step`. -/
def Values.step (v : Values) (op : Program.Op) : Option Values :=
  if (∀ i ∈ op.reads, (v.value i).isSome) ∧ (∀ i ∈ op.writes ++ op.loses, i < v.live) ∧ op.allowed then
    op.meaning v
  else none

def Program.values (p : Program) : Values :=
  ⟨fun i => if p.Usable i then some (p.store.num i).toInt else none, p.store.live⟩

end PGBigNumber
