import PGBigNumber.Store.AssignBytes
import PGBigNumber.Store.Bitwise
import PGBigNumber.Store.Overloads
import PGBigNumber.Store.Text

/-!
# Programs

A program makes, copies, moves and destroys `BigIntegerImpl` objects and calls their public
functions in any order. Queries that neither write an object nor fill a cache (`cmp`, `isOdd`,
`copyMagDataTo` and the like) leave the store as it is and are no operations here.
-/

namespace PGBigNumber

namespace Store

/-- `BigIntegerImpl(Slice<std::uint32_t> &&, int)`; no result where the assertion on `signum`
stands. -/
def pushMag (σ : Store) (slice : Slice UInt32) (signum : Int) : Option Store :=
  let i := σ.live
  let σ := σ.pushDefault.newMag i slice
  let switch :=
    if signum = -1 then some (σ.setSign i .neg)
    else if signum = 0 then some (σ.beZero i)
    else if signum = 1 then some (σ.setSign i .pos)
    else none
  switch.map fun σ =>
    let σ := σ.putMag i (eraseZerosSuffix (σ.mag i))
    if (σ.mag i).count = 0 then σ.beZero i else σ

def destroy (σ : Store) (i : Nat) : Store :=
  (σ.newMag i Slice.empty).modify i fun o =>
    { o with sign := .invalid, calcued := false, firstNotZeroU32Index := 0 }

end Store

/-- The objects of a program and which of them were moved from or destroyed. Those can only be
assigned to. -/
structure Program where
  store : Store
  moved : Nat → Bool

namespace Program

/-- The right operand of an overloaded function. -/
inductive Arg where
  | big (j : Nat)
  | int64 (k : {k : Int // Num.InI64 k})

/-- The constructors, the assignments and the functions that write objects or fill caches. -/
inductive Op where
  | create
  | createCopy (j : Nat)
  | createMove (j : Nat)
  | createI64 (k : {k : Int // Num.InI64 k})
  | createMag (slice : {s : Slice UInt32 // s.Wf}) (signum : Int)
  | createString (str : List Char) (radix : Int)
  | createBytes (bin : List UInt8) (little : Bool)
  | destroy (i : Nat)
  | assign (i j : Nat)
  | assignMove (i j : Nat)
  | assignI64 (i : Nat) (k : {k : Int // Num.InI64 k})
  | fromString (i : Nat) (str : List Char) (radix : Int)
  | assignBytes (i : Nat) (bin : List UInt8) (little : Bool)
  | swap (i j : Nat)
  | getU32 (i n : Nat)
  | toU64 (i : Nat)
  | toString (i radix : Nat)
  | inc (i : Nat)
  | dec (i : Nat)
  | addAssign (i : Nat) (other : Arg)
  | subAssign (i : Nat) (other : Arg)
  | mulAssign (i : Nat) (other : Arg)
  | divAssign (i : Nat) (other : Arg)
  | divideAssignAndReminder (i : Nat) (val : Arg) (r : Nat)
  | modAssignAndQuotient (i : Nat) (val : Arg) (q : Nat)
  | andAssign (i : Nat) (other : Arg)
  | orAssign (i : Nat) (other : Arg)
  | xorAssign (i : Nat) (other : Arg)
  | notSelf (i : Nat)
  | notBits (i : Nat)
  | shiftLeftAssign (i n : Nat)
  | shiftRightAssign (i n : Nat)
  | negate (i : Nat)
  | abs (i : Nat)
  | mul (res a b : Nat)
  | div (q r a : Nat) (b : Arg)

def Op.exec : Op → Store → Option Store
  | .create, σ => some σ.pushDefault
  | .createCopy j, σ => some (σ.pushCopy j)
  | .createMove j, σ => some (σ.pushMove j)
  | .createI64 k, σ => some (σ.pushI64 k)
  | .createMag slice signum, σ => σ.pushMag slice signum
  | .createString str radix, σ => (σ.pushDefault.fromString σ.live str radix).map (·.1)
  | .createBytes bin little, σ => some (σ.pushDefault.assignBytes σ.live bin little)
  | .destroy i, σ => some (σ.destroy i)
  | .assign i j, σ => some (σ.assign i j)
  | .assignMove i j, σ => some (σ.assignMove i j)
  | .assignI64 i k, σ => some (σ.assignI64 i k)
  | .fromString i str radix, σ => (σ.fromString i str radix).map (·.1)
  | .assignBytes i bin little, σ => some (σ.assignBytes i bin little)
  | .swap i j, σ => some (σ.swap i j)
  | .getU32 i n, σ => some (σ.getU32 i n).2
  | .toU64 i, σ => some (σ.toU64 i).2
  | .toString i radix, σ => (σ.toString i radix).map (·.2)
  | .inc i, σ => some (σ.inc i)
  | .dec i, σ => some (σ.dec i)
  | .addAssign i (.big j), σ => some (σ.addAssign i j)
  | .addAssign i (.int64 k), σ => some (σ.addAssignI64 i k)
  | .subAssign i (.big j), σ => some (σ.subAssign i j)
  | .subAssign i (.int64 k), σ => some (σ.subAssignI64 i k)
  | .mulAssign i (.big j), σ => σ.mulAssign i j
  | .mulAssign i (.int64 k), σ => σ.mulAssignI64 i k
  | .divAssign i (.big j), σ => σ.divAssign i j
  | .divAssign i (.int64 k), σ => σ.divAssignI64 i k
  | .divideAssignAndReminder i (.big j) r, σ => σ.divideAssignAndReminder i j r
  | .divideAssignAndReminder i (.int64 k) r, σ => σ.divideAssignAndReminderI64 i k r
  | .modAssignAndQuotient i (.big j) q, σ => σ.modAssignAndQuotient i j q
  | .modAssignAndQuotient i (.int64 k) q, σ => σ.modAssignAndQuotientI64 i k q
  | .andAssign i (.big j), σ => some (σ.andAssign i j)
  | .andAssign i (.int64 k), σ => some (σ.andAssignI64 i k)
  | .orAssign i (.big j), σ => some (σ.orAssign i j)
  | .orAssign i (.int64 k), σ => some (σ.orAssignI64 i k)
  | .xorAssign i (.big j), σ => some (σ.xorAssign i j)
  | .xorAssign i (.int64 k), σ => some (σ.xorAssignI64 i k)
  | .notSelf i, σ => some (σ.notSelf i)
  | .notBits i, σ => σ.notBits i
  | .shiftLeftAssign i n, σ => σ.shiftLeftAssign i n
  | .shiftRightAssign i n, σ => some (σ.shiftRightAssign i n)
  | .negate i, σ => some (σ.negate i)
  | .abs i, σ => some (σ.abs i)
  | .mul res a b, σ => σ.mul res a b
  | .div q r a (.big b), σ => σ.div q r a b
  | .div q r a (.int64 k), σ => σ.divI64 q r a k

def Arg.reads : Arg → List Nat
  | .big j => [j]
  | .int64 _ => []

/-- The objects whose value is used, the out-parameters of divisions with them: a division by zero
leaves these as they are. -/
def Op.reads : Op → List Nat
  | .create | .createI64 _ | .createMag _ _ | .createString _ _ | .createBytes _ _ | .destroy _
  | .assignI64 _ _ | .assignBytes _ _ _ => []
  | .createCopy j | .createMove j | .assign _ j | .assignMove _ j => [j]
  | .fromString i _ _ | .getU32 i _ | .toU64 i | .toString i _ | .inc i | .dec i | .notSelf i
  | .notBits i | .shiftLeftAssign i _ | .shiftRightAssign i _ | .negate i | .abs i => [i]
  | .swap i j => [i, j]
  | .addAssign i other | .subAssign i other | .mulAssign i other | .divAssign i other
  | .andAssign i other | .orAssign i other | .xorAssign i other => i :: other.reads
  | .divideAssignAndReminder i val r => i :: r :: val.reads
  | .modAssignAndQuotient i val q => i :: q :: val.reads
  | .mul _ a b => [a, b]
  | .div q r a b => q :: r :: a :: b.reads

def Op.writes : Op → List Nat
  | .create | .createCopy _ | .createMove _ | .createI64 _ | .createMag _ _ | .createString _ _
  | .createBytes _ _ | .destroy _ | .getU32 _ _ | .toU64 _ | .toString _ _ => []
  | .assign i _ | .assignMove i _ | .assignI64 i _ | .fromString i _ _ | .assignBytes i _ _
  | .inc i | .dec i | .addAssign i _ | .subAssign i _ | .mulAssign i _ | .divAssign i _
  | .andAssign i _ | .orAssign i _ | .xorAssign i _ | .notSelf i | .notBits i
  | .shiftLeftAssign i _ | .shiftRightAssign i _ | .negate i | .abs i | .mul i _ _ => [i]
  | .swap i j => [i, j]
  | .divideAssignAndReminder i _ r => [i, r]
  | .modAssignAndQuotient i _ q => [i, q]
  | .div q r _ _ => [q, r]

def Op.loses : Op → List Nat
  | .createMove j | .destroy j => [j]
  | .assignMove i j => if i = j then [] else [j]
  | _ => []

/-- What the functions ask of their arguments: a radix that the assertion admits, and two objects
for the quotient and the remainder. -/
def Op.allowed : Op → Bool
  | .toString _ radix => decide (ValidRadix radix)
  | .div q r _ _ => decide (q ≠ r)
  | _ => true

def Usable (p : Program) (i : Nat) : Prop := i < p.store.live ∧ p.moved i = false

instance (p : Program) (i : Nat) : Decidable (p.Usable i) := inferInstanceAs (Decidable (_ ∧ _))

def initial : Program := ⟨Store.initial, fun _ => false⟩

def step (p : Program) (op : Op) : Option Program :=
  if (∀ i ∈ op.reads, p.Usable i) ∧ (∀ i ∈ op.writes ++ op.loses, i < p.store.live) ∧ op.allowed then
    (op.exec p.store).map fun σ =>
      ⟨σ, fun i => decide (i ∈ op.loses) ||
        (p.moved i && decide (i ∉ op.writes) && decide (i < p.store.live))⟩
  else none

end Program

end PGBigNumber
