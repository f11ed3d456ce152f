import Mathlib.Logic.Equiv.Basic
import Mathlib.Tactic.Ring
import PGBigNumber.Library.Runs
import PGBigNumber.Library.UseCount
import PGBigNumber.Slice

/-!
# Slices that share vectors

A copy of a slice looks at the same vector, and what one of them writes, cuts off or inserts the
other one feels. `cloneData` gives a slice a vector of its own. A slice that owns its vector alone
is meant to be a list; it is one as long as `slice` uncovers nothing that the vector kept behind
the window. Indices are 64 bits wide: a sum of two of them may wrap around, and no vector is as
long as that.
-/

namespace PGBigNumber

/-- A `Slice` object: the address in `m_data`, `m_lo` and `m_hi`. -/
structure Ref where
  data : Nat
  lo : Nat
  hi : Nat
deriving DecidableEq, Repr

/-- The vectors by address and the slices by number, in the order of their making. -/
structure Slices (α : Type) where
  vec : Nat → List α
  next : Nat
  obj : Nat → Option Ref
  made : Nat

namespace Slices

variable {α : Type}

def initial : Slices α := ⟨fun _ => [], 0, fun _ => none, 0⟩

def view (s : Slices α) (i : Nat) : Option (Slice α) :=
  (s.obj i).map fun r => ⟨s.vec r.data, r.lo, r.hi⟩

def list (s : Slices α) (i : Nat) : Option (List α) := (s.view i).map Slice.toList

def own (s : Slices α) (i : Nat) : Option Nat := (s.obj i).map Ref.data

def useCount (s : Slices α) (i : Nat) : Nat := UseCount.count s.own s.made (s.own i)

def Alone (s : Slices α) (i : Nat) : Prop := (s.obj i).isSome ∧ s.useCount i = 1

/-- `max_size()` of a vector of single bytes; no vector is longer. -/
def maxSize : Nat := 2 ^ 63 - 1

/-- What an operation leaves to a slice. No result where the vector would be too long:
`std::vector` throws. -/
def fit (w : Slice α) : Option (Slice α) := if w.data.length ≤ maxSize then some w else none

def sliceU64 [Inhabited α] (w : Slice α) (lo hi : UInt64) : Slice α :=
  if lo.toNat = hi.toNat then { w with hi := w.lo }
  else
    let last := (w.lo + hi.toNat) % 2 ^ 64
    { data := if hi.toNat > w.count then Slice.resize w.data last else w.data
      lo := (w.lo + lo.toNat) % 2 ^ 64
      hi := last }

/-- Assignment through `operator[]`, whose assertion sees the sum too. -/
def setU64 (w : Slice α) (k : UInt64) (x : α) : Option (Slice α) :=
  let i := (w.lo + k.toNat) % 2 ^ 64
  if i < w.hi then some { w with data := w.data.set i x } else none

/-- `std::numeric_limits<SizeType>::max()`, the default for the end of a window. -/
def toEnd : UInt64 := 0xFFFFFFFFFFFFFFFF

def lastOf (v : List α) (hi : UInt64) : Nat := if hi = toEnd then v.length else hi.toNat

/-- `Slice(pData, lo, hi)` over a vector that nothing else holds. No result where the assertion on
`lo` and `hi` stands. -/
def construct [Inhabited α] (v : List α) (lo hi : UInt64) : Option (Slice α) :=
  if lo.toNat < hi.toNat then
    let last := lastOf v hi
    fit ⟨if last > v.length then Slice.resize v last else v, lo.toNat, last⟩
  else none

/-- Slice `i` looks at address `a`, and what it sees there is `w`. -/
def put (s : Slices α) (i a : Nat) (w : Slice α) : Slices α :=
  { s with
    vec := Function.update s.vec a w.data
    obj := Function.update s.obj i (some ⟨a, w.lo, w.hi⟩) }

def renew (s : Slices α) (i : Nat) (w : Slice α) : Slices α :=
  { s.put i s.next w with next := s.next + 1 }

def bind (s : Slices α) (i : Nat) (r : Option Ref) : Slices α :=
  { s with obj := Function.update s.obj i r }

def grow (s : Slices α) : Slices α := { s with made := s.made + 1 }

def write (s : Slices α) (i : Nat) (f : Slice α → Option (Slice α)) : Option (Slices α) := do
  let r ← s.obj i
  let w ← f ⟨s.vec r.data, r.lo, r.hi⟩
  return s.put i r.data w

def copy (s : Slices α) (i : Nat) : Option (Slices α) :=
  (s.obj i).map fun r => (s.bind s.made (some r)).grow

def assign (s : Slices α) (i j : Nat) : Option (Slices α) := do
  let _ ← s.obj i
  let r ← s.obj j
  return s.bind i (some r)

def swap (s : Slices α) (i j : Nat) : Slices α :=
  { s with obj := fun k => s.obj (Equiv.swap i j k) }

/-- The constructors, the assignments, the end of a slice and its member functions. -/
inductive Op (α : Type) where
  | make
  | construct (v : List α) (lo hi : UInt64)
  | copy (i : Nat)
  | move (i : Nat)
  | assign (i j : Nat)
  | assignMove (i j : Nat)
  | drop (i : Nat)
  | swap (i j : Nat)
  | sliced (i : Nat) (lo hi : UInt64)
  | cloneData (i : Nat)
  | prepend (i : Nat) (x : α)
  | append (i : Nat) (x : α)
  | slice (i : Nat) (lo hi : UInt64)
  | preExtend (i : Nat) (n : UInt64)
  | set (i : Nat) (k : UInt64) (x : α)
deriving DecidableEq, Repr

/-- One operation; no result where a slice is gone or an assertion stands. -/
def step [Inhabited α] (s : Slices α) : Op α → Option (Slices α)
  | .make => some (s.renew s.made Slice.empty).grow
  | .construct v lo hi => (construct v lo hi).map fun w => (s.renew s.made w).grow
  | .copy i => s.copy i
  | .move i => (s.copy i).map (·.renew i Slice.empty)
  | .assign i j => s.assign i j
  | .assignMove i j => (s.assign i j).map (·.renew j Slice.empty)
  | .drop i => (s.obj i).map fun _ => s.bind i none
  | .swap i j => do
      let _ ← s.obj i
      let _ ← s.obj j
      return s.swap i j
  | .sliced i lo hi =>
      if lo.toNat ≤ hi.toNat then
        (s.copy i).bind fun s' => s'.write s.made fun w => fit (sliceU64 w lo hi)
      else none
  | .cloneData i => (s.view i).bind fun w =>
      if s.useCount i = 1 then some s else (fit w.clone).map (s.renew i)
  | .prepend i x => s.write i fun w => fit (w.prepend x)
  | .append i x => s.write i fun w => fit (w.append x)
  | .slice i lo hi =>
      if lo.toNat ≤ hi.toNat then s.write i fun w => fit (sliceU64 w lo hi) else none
  -- with `m_lo = 0` the greatest `n` wraps the length to insert; then the fill leaves the vector
  | .preExtend i n => s.write i fun w => fit (w.preExtend n.toNat)
  | .set i k x => s.write i (setU64 · k x)

def Op.writes : Op α → Option Nat
  | .prepend i _ | .append i _ | .slice i _ _ | .preExtend i _ | .set i _ _ => some i
  | _ => none

def Op.rebinds : Op α → List Nat
  | .move i | .assign i _ | .drop i => [i]
  | .assignMove i j | .swap i j => [i, j]
  | _ => []

def Inside (s : Slices α) : Prop := ∀ i w, s.view i = some w → w.Wf

/-- What the operation makes of the lists. Writing is promised a slice that owns its vector
alone. -/
def Op.Law [Inhabited α] (s s' : Slices α) : Op α → Prop
  | .make => s'.list s.made = some []
  | .construct v lo hi =>
      s'.list s.made = some ((Slice.resize v (lastOf v hi)).drop lo.toNat)
  | .copy i => s'.list s.made = s.list i
  | .move i => s'.list s.made = s.list i ∧ s'.list i = some []
  | .assign i j => s'.list i = s.list j
  | .assignMove i j => (i ≠ j → s'.list i = s.list j) ∧ s'.list j = some []
  | .drop i => s'.list i = none
  | .swap i j => s'.list i = s.list j ∧ s'.list j = s.list i
  | .sliced i lo hi =>
      ∀ l, s.list i = some l → hi.toNat ≤ l.length →
        s'.list s.made = some ((l.take hi.toNat).drop lo.toNat)
  | .cloneData i => s'.list i = s.list i ∧ s'.Alone i
  | .prepend i x => s.Alone i → s'.list i = (s.list i).map (x :: ·)
  | .append i x => s.Alone i → s'.list i = (s.list i).map (· ++ [x])
  | .slice i lo hi => ∀ l, s.Alone i → s.list i = some l →
      (hi.toNat ≤ l.length → s'.list i = some ((l.take hi.toNat).drop lo.toNat)) ∧
      (lo.toNat = 0 → l.length < hi.toNat →
        s'.list i = some (l ++ List.replicate (hi.toNat - l.length) default))
  | .preExtend i n => s.Alone i → s'.list i = (s.list i).map (List.replicate n.toNat default ++ ·)
  | .set i k x => s.Alone i → s'.list i = (s.list i).map (·.set k.toNat x)

/-- A step of lists: every window lies inside its vector, the operation does what is meant, a
slice that it writes stays alone, and a slice keeps its list that neither lets go of its vector nor
shares it with the one written. -/
structure Refines [Inhabited α] (s : Slices α) (op : Op α) (s' : Slices α) : Prop where
  inside : s'.Inside
  law : op.Law s s'
  alone : ∀ i, op.writes = some i → s.Alone i → s'.Alone i
  frame : ∀ i l, s.list i = some l → i ∉ op.rebinds →
    (∀ k, op.writes = some k → s.own k ≠ s.own i) → s'.list i = some l

/-- No slice but `k` over the vector of slice `i` ends behind its element `n`. -/
def Spares (s : Slices α) (i k n : Nat) : Prop :=
  ∀ j v, j ≠ k → s.own j = s.own i → s.view j = some v → v.hi ≤ n

/-- Slice `k` may take the window from `lo` to `hi` of `w`, which slice `i` sees: the end does not
wrap around without the start, and the vector is cut short for no other slice. -/
def Widens (s : Slices α) (i k : Nat) (w : Slice α) (lo hi : UInt64) : Prop :=
  (w.lo + lo.toNat < 2 ^ 64 → w.lo + hi.toNat < 2 ^ 64) ∧
    s.Spares i k ((w.lo + hi.toNat) % 2 ^ 64)

/-- Where the window grows at its end, `slice` uncovers only value-initialised elements if it owns
the vector alone, keeps its sums in range and cuts the vector short for no slice. A window that
goes to the end of a given vector starts inside it. -/
def Op.Safe [Inhabited α] (s : Slices α) : Op α → Prop
  | .construct v lo hi => hi = toEnd → lo.toNat ≤ v.length
  | .sliced i lo hi => ∀ w, s.view i = some w → lo.toNat < hi.toNat → w.count < hi.toNat →
      s.Widens i s.made w lo hi
  | .slice i lo hi => ∀ w, s.view i = some w → lo.toNat < hi.toNat → w.count < hi.toNat →
      s.Widens i i w lo hi ∧ (s.Alone i → lo.toNat = 0 →
        ∀ x ∈ (w.data.drop w.hi).take (hi.toNat - w.count), x = default)
  | _ => True

end Slices

end PGBigNumber
