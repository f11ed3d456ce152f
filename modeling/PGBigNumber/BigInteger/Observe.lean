import PGBigNumber.BigInteger.Exact
import PGBigNumber.Store.Queries

/-!
# What can be read from big integers

The members that look at an object, its text, its bits, and the comparison operators.
-/

namespace PGBigNumber.BigInteger

open Program (Arg)

namespace Heap

variable (h : Heap)

def isZero (v : Nat) : Option Bool := (h.pImpl v).map h.impls.store.isZero

def isOne (v : Nat) : Option Bool := (h.pImpl v).map h.impls.store.isOne

def isNegOne (v : Nat) : Option Bool := (h.pImpl v).map h.impls.store.isNegOne

def isPositive (v : Nat) : Option Bool := (h.pImpl v).map h.impls.store.isPositive

def isNegative (v : Nat) : Option Bool := (h.pImpl v).map h.impls.store.isNegative

def isEven (v : Nat) : Option Bool := (h.pImpl v).map h.impls.store.isEven

def isOdd (v : Nat) : Option Bool := (h.pImpl v).map h.impls.store.isOdd

def asBool (v : Nat) : Option Bool := (h.isZero v).map (!·)

def asUnsigned (v w : Nat) : Option Nat := (h.pImpl v).map (h.impls.store.asUnsigned · w)

def asSigned (v w : Nat) : Option Int := (h.pImpl v).map (h.impls.store.asSigned · w)

def block (v n : Nat) : Option UInt32 := (h.pImpl v).map fun i => (h.impls.store.getU32 i n).1

def text (v radix : Nat) : Option (List Char) := do
  let (s, _) ← h.impls.store.toString (← h.pImpl v) radix
  some s

def cmp (v : Nat) : Arg → Option Int
  | .big w => do return h.impls.store.cmp (← h.pImpl v) (← h.pImpl w)
  | .int64 k => do return h.impls.store.cmpI64 (← h.pImpl v) k

end Heap

inductive Rel where
  | eq
  | ne
  | lt
  | le
  | gt
  | ge
deriving DecidableEq, Repr

def Rel.holds (rel : Rel) (x y : Int) : Bool :=
  match rel with
  | .eq => x = y
  | .ne => x ≠ y
  | .lt => x < y
  | .le => x ≤ y
  | .gt => x > y
  | .ge => x ≥ y

def Rel.test : Rel → Int → Bool
  | .eq, c => c == 0
  | .ne, c => c != 0
  | .lt, c => c < 0
  | .le, c => c ≤ 0
  | .gt, c => c > 0
  | .ge, c => c ≥ 0

/-- What an operator with a machine integer on its left makes of `right.cmp(left)`. -/
def Rel.testSwapped : Rel → Int → Bool
  | .eq, c => c == 0
  | .ne, c => c != 0
  | .lt, c => c > 0
  | .le, c => c ≥ 0
  | .gt, c => c > 0
  | .ge, c => c ≤ 0

def Heap.compare (h : Heap) (rel : Rel) : Operands → Option Bool
  | .bigBig left right => (h.cmp left (.big right)).map rel.test
  | .bigInt left right => (h.cmp left (.int64 right)).map rel.test
  | .intBig left right => (h.cmp right (.int64 left)).map rel.testSwapped

/-- Where an operator answers as the order of the integers does. A machine integer with a zero top
limb passes for longer than the object that equals it, and `operator>` with a machine integer on
its left asks for the opposite. -/
def Rel.Answers (rel : Rel) (x y : Int) : Operands → Prop
  | .bigBig _ _ => True
  | .bigInt _ _ => Num.TopLimbZero y → x = y →
    if 0 < y then rel = .le ∨ rel = .gt else rel = .lt ∨ rel = .ge
  | .intBig _ _ => (rel = .gt → x = y) ∧ (Num.TopLimbZero x → x = y →
    if 0 < x then rel = .lt ∨ rel = .gt ∨ rel = .ge else rel = .le)

namespace Heap

variable {h : Heap} {v w i j : Nat} {x y : Int}

theorem Sound.impl (hs : h.Sound) (hx : h.values.value v = some x) :
    ∃ i, h.pImpl v = some i ∧ i < h.impls.store.live ∧ h.impls.store.num i = Num.ofInt x ∧
      h.impls.store.CacheOk i := by
  obtain ⟨i, hi, hxi⟩ := impl_of_value hx
  obtain ⟨hlt, hnum⟩ := hs.impls.num_of_value hxi
  exact ⟨i, hi, hlt, hnum, hs.impls.caches i hlt⟩

theorem cmp_big (hs : h.Sound) (hx : h.values.value v = some x) (hy : h.values.value w = some y) :
    h.cmp v (.big w) = some (if x < y then -1 else if x = y then 0 else 1) := by
  obtain ⟨i, hi, hlt, hnum, -⟩ := hs.impl hx
  obtain ⟨j, hj, hlt', hnum', -⟩ := hs.impl hy
  rw [← Num.cmp_ofInt, ← hnum, ← hnum', ← Store.cmp_eq hs.owned.wf hlt hlt']
  simp only [cmp, hi, hj, Option.bind_eq_bind, Option.bind_some]
  rfl

theorem cmp_int64 (hs : h.Sound) (hx : h.values.value v = some x) (k : {k : Int // Num.InI64 k}) :
    h.cmp v (.int64 k) = some (Num.cmp (Num.ofInt x) (Num.ofI64 k)) := by
  obtain ⟨i, hi, hlt, hnum, -⟩ := hs.impl hx
  rw [← hnum, ← Store.cmpI64_eq hs.owned.wf hlt]
  simp only [cmp, hi, Option.bind_eq_bind, Option.bind_some]
  rfl

theorem cmp_ofI64 {k : Int} (hk : Num.InI64 k) :
    Num.cmp (Num.ofInt x) (Num.ofI64 k) =
      if x < k then -1 else if x = k then (if Num.TopLimbZero k then -k.sign else 0) else 1 := by
  by_cases htop : Num.TopLimbZero k
  · rw [if_pos htop]
    by_cases hxk : x = k
    · subst hxk
      rw [if_neg (Int.lt_irrefl _), if_pos rfl]
      have hcases : x = 2 ^ 32 - 1 ∨ x = -(2 ^ 32 - 1) := by
        unfold Num.TopLimbZero at htop
        omega
      rcases hcases with rfl | rfl <;> decide
    · rw [(Num.cmp_topLimbZero htop).mpr hxk, Num.cmp_ofInt, if_neg hxk, if_neg hxk]
  · rw [Num.ofI64_eq hk htop, Num.cmp_ofInt, if_neg htop]

theorem test_iff (rel : Rel) (x y c : Int) (hc : c = 0 ∨ c = 1 ∨ c = -1) :
    rel.test (if x < y then -1 else if x = y then c else 1) = rel.holds x y ↔
      (x = y → c = 0 ∨ (if c < 0 then rel = .le ∨ rel = .gt else rel = .lt ∨ rel = .ge)) := by
  rcases Int.lt_trichotomy x y with hlt | rfl | hgt
  · rw [if_pos hlt]
    cases rel <;> simp [Rel.test, Rel.holds] <;> omega
  · rw [if_neg (Int.lt_irrefl _), if_pos rfl]
    rcases hc with rfl | rfl | rfl <;> cases rel <;> simp [Rel.test, Rel.holds]
  · rw [if_neg (by omega), if_neg (by omega)]
    cases rel <;> simp [Rel.test, Rel.holds] <;> omega

theorem testSwapped_iff (rel : Rel) (x y c : Int) (hc : c = 0 ∨ c = 1 ∨ c = -1) :
    rel.testSwapped (if y < x then -1 else if y = x then c else 1) = rel.holds x y ↔
      (rel = .gt → x = y) ∧
        (x = y → c = 0 ∨ (if c < 0 then rel = .lt ∨ rel = .gt ∨ rel = .ge else rel = .le)) := by
  rcases Int.lt_trichotomy y x with hlt | rfl | hgt
  · rw [if_pos hlt]
    cases rel <;> simp [Rel.testSwapped, Rel.holds] <;> omega
  · rw [if_neg (Int.lt_irrefl _), if_pos rfl]
    rcases hc with rfl | rfl | rfl <;> cases rel <;> simp [Rel.testSwapped, Rel.holds]
  · rw [if_neg (by omega), if_neg (by omega)]
    cases rel <;> simp [Rel.testSwapped, Rel.holds] <;> omega

private def equalCmp (k : Int) : Int := if Num.TopLimbZero k then -k.sign else 0

private theorem equalCmp_cases (k : Int) : equalCmp k = 0 ∨ equalCmp k = 1 ∨ equalCmp k = -1 := by
  unfold equalCmp
  split
  · rcases Int.lt_trichotomy k 0 with hneg | rfl | hpos
    · rw [Int.sign_eq_neg_one_of_neg hneg]
      decide
    · decide
    · rw [Int.sign_eq_one_of_pos hpos]
      decide
  · exact Or.inl rfl

private theorem equalCmp_iff {k : Int} {p q : Prop} :
    (equalCmp k = 0 ∨ (if equalCmp k < 0 then p else q)) ↔
      (Num.TopLimbZero k → if 0 < k then p else q) := by
  unfold equalCmp
  by_cases htop : Num.TopLimbZero k
  · have h0 : k ≠ 0 := fun h0 => by
      rw [h0] at htop
      exact absurd htop (by decide)
    rw [if_pos htop, forall_prop_of_true htop]
    rcases Int.lt_or_gt_of_ne h0 with hneg | hpos
    · rw [Int.sign_eq_neg_one_of_neg hneg, if_neg (show ¬ 0 < k by omega)]
      simp
    · rw [Int.sign_eq_one_of_pos hpos, if_pos hpos]
      simp
  · rw [if_neg htop]
    simp [htop]

/-- Exactly where `Rel.Answers` holds, an operator answers as the order of the integers does. -/
theorem compare_iff {rel : Rel} {operands : Operands} (hs : h.Sound)
    (hx : operands.left.value h.values = some x) (hy : operands.right.value h.values = some y) :
    h.compare rel operands = some (rel.holds x y) ↔ rel.Answers x y operands := by
  cases operands with
  | bigBig left right =>
      rw [compare, cmp_big hs hx hy, Option.map_some, Option.some.injEq, test_iff _ _ _ _ (.inl rfl)]
      exact iff_of_true (fun _ => .inl rfl) trivial
  | bigInt left k =>
      obtain rfl := Option.some.inj hy
      rw [compare, cmp_int64 hs hx, Option.map_some, Option.some.injEq, cmp_ofI64 k.2]
      refine (test_iff rel x k (equalCmp k) (equalCmp_cases k)).trans ?_
      rw [equalCmp_iff, forall_comm]
      rfl
  | intBig k right =>
      obtain rfl := Option.some.inj hx
      rw [compare, cmp_int64 hs hy, Option.map_some, Option.some.injEq, cmp_ofI64 k.2]
      refine (testSwapped_iff rel k y (equalCmp k) (equalCmp_cases k)).trans ?_
      rw [equalCmp_iff, forall_comm]
      rfl

/-- What is read from object `v` is what is read from the integer `x`. -/
structure Shows (h : Heap) (v : Nat) (x : Int) : Prop where
  isZero : h.isZero v = some (decide (x = 0))
  isOne : h.isOne v = some (decide (x = 1))
  isNegOne : h.isNegOne v = some (decide (x = -1))
  isPositive : h.isPositive v = some (decide (0 < x))
  isNegative : h.isNegative v = some (decide (x < 0))
  isEven : h.isEven v = some (decide (x % 2 = 0))
  isOdd : h.isOdd v = some (decide (x % 2 = 1))
  asBool : h.asBool v = some (decide (x ≠ 0))
  asUnsigned : ∀ w ≤ 64, h.asUnsigned v w = some (x % 2 ^ w).toNat
  asSigned : ∀ w ≤ 64, h.asSigned v w = some (x.bmod (2 ^ w))
  block : ∀ n, h.block v n = some (limbAt x n)
  text : ∀ radix, ValidRadix radix →
    h.text v radix = some ((if x < 0 then ['-'] else []) ++ toChars x.natAbs radix)

theorem shows_of_value (hs : h.Sound) (hx : h.values.value v = some x) : Shows h v x := by
  obtain ⟨i, hi, hlt, hnum, hcache⟩ := hs.impl hx
  have hwf := hs.owned.wf
  constructor
  · rw [isZero, hi, Option.map_some, Option.some.injEq, Bool.eq_iff_iff, decide_eq_true_iff,
      Store.isZero_iff hnum]
  · rw [isOne, hi, Option.map_some, Store.isOne_eq hwf hlt hnum]
  · rw [isNegOne, hi, Option.map_some, Store.isNegOne_eq hwf hlt hnum]
  · rw [isPositive, hi, Option.map_some, Store.isPositive_eq hnum]
  · rw [isNegative, hi, Option.map_some, Store.isNegative_eq hnum]
  · rw [isEven, hi, Option.map_some, Store.isEven_eq hwf hlt hnum]
  · rw [isOdd, hi, Option.map_some, Store.isOdd, Store.isEven_eq hwf hlt hnum]
    congr 1
    rw [← decide_not]
    congr 1
    apply propext
    omega
  · rw [asBool, isZero, hi, Option.map_some, Option.map_some, Option.some.injEq, Bool.eq_iff_iff,
      Bool.not_eq_true', ← Bool.not_eq_true, Store.isZero_iff hnum, decide_eq_true_iff]
  · intro w hw
    have hvalue := Store.asUnsigned_eq hwf hlt hnum hcache hw
    rw [asUnsigned, hi, Option.map_some, ← hvalue, Int.toNat_natCast]
  · intro w hw
    rw [asSigned, hi, Option.map_some, Store.asSigned_eq hwf hlt hnum hcache hw]
  · intro n
    have hcoherent : (h.impls.store.num i).Coherent :=
      (hnum ▸ Num.ofInt_canon x : (h.impls.store.num i).Canon).coherent
    rw [block, hi, Option.map_some, Store.getU32_exact hwf hlt hcoherent hcache, hnum,
      Num.toInt_ofInt]
  · intro radix hr
    obtain ⟨σ, hrun, -⟩ := Store.toString_spec hr hwf hlt (hnum ▸ Num.ofInt_canon x)
    rw [hnum, Num.toInt_ofInt] at hrun
    rw [text, hi, Option.bind_eq_bind, Option.bind_some, hrun]
    rfl

end Heap

/-- Programs with big integers compute with integers: whatever they do to integers they do to the
objects, in every run whose statements are faultless, and all that can be read from the objects
belongs to those integers. -/
theorem run_exact {stmts : List Stmt} {u : Values}
    (hok : Runs.Guarded step (fun h stmt => stmt.Faultless h) Heap.initial stmts)
    (hrun : stmts.foldlM Stmt.evalStep Values.initial = some u) :
    ∃ h, stmts.foldlM step Heap.initial = some h ∧ h.values = u ∧
      ∀ v x, u.value v = some x → h.Shows v x := by
  obtain ⟨h, hsteps, ⟨himpls, hkept⟩, rfl⟩ := run_simulates hok hrun
  exact ⟨h, hsteps, rfl, fun v x hx => Heap.shows_of_value ⟨himpls, hkept.owned⟩ hx⟩

/-- A conjunction of an object with itself, a remainder, and a move of the result. -/
def remainderStmts : List Stmt :=
  [.ofI64 ⟨-(2 ^ 40), by decide⟩, .binary .and (.bigBig 0 0), .opAssign .mul 1 (.big 0),
    .binary .mod (.bigInt 1 ⟨1000, by decide⟩), .move 2, .destroy 0]

theorem run_exact_remainder : ∃ h, remainderStmts.foldlM step Heap.initial = some h ∧
    h.values.value 0 = none ∧ h.values.value 2 = none ∧ h.text 3 10 = some ['1', '7', '6'] := by
  have htop : ¬ Num.TopLimbZero (-(2 ^ 40)) := by decide
  have htop' : ¬ Num.TopLimbZero 1000 := by decide
  have hplain : ∀ stmt ∈ remainderStmts, stmt.Plain := by
    simp only [remainderStmts, List.forall_mem_cons]
    exact ⟨htop, trivial, rfl, htop', trivial, trivial, List.forall_mem_nil _⟩
  have hok : Runs.Guarded step (fun h stmt => stmt.Faultless h) Heap.initial remainderStmts :=
    guarded_of_plain hplain Heap.initial
  obtain ⟨h, hrun, hvalues, hshows⟩ := run_exact hok rfl
  refine ⟨h, hrun, by rw [hvalues]; rfl, by rw [hvalues]; rfl, ?_⟩
  exact (hshows 3 176 (by decide)).text 10 (by decide)

/-- After such a run a comparison operator answers as the order of the integers does exactly where
`Rel.Answers` holds. -/
theorem run_compares_iff {stmts : List Stmt} {u : Values}
    (hok : Runs.Guarded step (fun h stmt => stmt.Faultless h) Heap.initial stmts)
    (hrun : stmts.foldlM Stmt.evalStep Values.initial = some u) :
    ∃ h, stmts.foldlM step Heap.initial = some h ∧ ∀ rel operands x y,
      operands.left.value u = some x → operands.right.value u = some y →
        (h.compare rel operands = some (rel.holds x y) ↔ rel.Answers x y operands) := by
  obtain ⟨h, hsteps, ⟨himpls, hkept⟩, rfl⟩ := run_simulates hok hrun
  exact ⟨h, hsteps, fun rel operands x y hx hy => Heap.compare_iff ⟨himpls, hkept.owned⟩ hx hy⟩

/-- `5 > x` for the object `x = 7`. -/
theorem run_compares_iff_seven : ∃ h,
    [Stmt.ofI64 ⟨7, by decide⟩].foldlM step Heap.initial = some h ∧
    h.compare .gt (.intBig ⟨5, by decide⟩ 0) ≠ some (Rel.holds .gt 5 7) ∧
      h.compare .ge (.intBig ⟨5, by decide⟩ 0) = some (Rel.holds .ge 5 7) := by
  have htop : ¬ Num.TopLimbZero 7 := by decide
  have hok : Runs.Guarded step (fun h stmt => stmt.Faultless h) Heap.initial
      [.ofI64 ⟨7, by decide⟩] := ⟨htop, fun _ _ => trivial⟩
  obtain ⟨h, hrun, hcompare⟩ := run_compares_iff hok rfl
  refine ⟨h, hrun, fun hanswer => ?_, ?_⟩
  · have hfive : (5 : Int) = 7 := ((hcompare .gt _ 5 7 rfl rfl).mp hanswer).1 rfl
    exact absurd hfive (by decide)
  · exact (hcompare .ge _ 5 7 rfl rfl).mpr ⟨fun hne => absurd hne (by decide), fun _ he => absurd he (by decide)⟩

end PGBigNumber.BigInteger
