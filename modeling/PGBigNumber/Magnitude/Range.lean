import PGBigNumber.Library.Trap
import PGBigNumber.Magnitude.AddSub
import PGBigNumber.Magnitude.Div
import PGBigNumber.Magnitude.Mul

/-!
# No loop wraps around

The limb loops once more, with arithmetic that traps: every 64-bit value that the source computes
is checked, and so is every conversion that is not meant to cut off high bits. The loops never trap,
and what they compute is what the wrapping loops do.
-/

namespace PGBigNumber

namespace Trapping

/-- `for (; i < minlen; ++i)` of `detail::addMag`. -/
def addLoop (b : Operand) : Nat → Nat → List UInt32 → Option (List UInt32 × Nat)
  | _, sum, [] => some ([], sum)
  | i, sum, x :: xs => do
      let pair ← Trap.nat 64 (x.toNat + (b.limb i x).toNat)
      let sum' ← Trap.nat 64 (pair + sum / 2 ^ 32)
      let r ← addLoop b (i + 1) sum' xs
      some (UInt32.ofNat sum' :: r.1, r.2)

def addMag (a : Slice UInt32) (b : Operand) : Option (Slice UInt32) := do
  let maxlen := max a.count (b.count a)
  let minlen := min a.count (b.count a)
  let temp := if maxlen = a.count then Operand.self else b
  let a := a.slice 0 maxlen
  let low ← addLoop b 0 0 (a.toList.take minlen)
  let high := carryLoop temp minlen (low.2 / 2 ^ 32 != 0) (a.toList.drop minlen)
  some (putCarry a (low.1 ++ high.1, high.2))

def subLoop : Int → List UInt32 → List UInt32 → Option (List UInt32 × Int)
  | diff, x :: xs, y :: ys => do
      let difference ← Trap.int 63 ((x.toNat : Int) - y.toNat)
      let diff' ← Trap.int 63 (difference + (diff >>> (32 : Nat)))
      let r ← subLoop diff' xs ys
      some (narrow diff' :: r.1, r.2)
  | diff, _, _ => some ([], diff)

def subMag (a b : Slice UInt32) : Option (Slice UInt32) := do
  let low ← subLoop 0 (a.toList.take b.toList.length) b.toList
  let high := borrowLoop (low.2 >>> (32 : Nat) != 0) (a.toList.drop b.toList.length)
  some (a.assign (low.1 ++ high.1))

def mulLoop (b : Nat) : Nat → List UInt32 → Option (List UInt32 × Nat)
  | carry, [] => some ([], carry)
  | carry, x :: xs => do
      let product ← Trap.nat 64 (x.toNat * b)
      let temp ← Trap.nat 64 (product + carry)
      let r ← mulLoop b (temp / 2 ^ 32) xs
      some (UInt32.ofNat temp :: r.1, r.2)

def gradSchoolMulInplace (a : Slice UInt32) (b : UInt32) : Option (Slice UInt32) := do
  let a := a.slice 0 a.count
  let r ← mulLoop b.toNat 0 a.toList
  if r.2 ≠ 0 then do
    let carry ← Trap.nat 32 r.2
    some ((a.assign r.1).append (UInt32.ofNat carry))
  else some (a.assign r.1)

def mulRow (x : UInt32) : List UInt32 → List UInt32 → Nat → Option (List UInt32)
  | y :: ys, r :: rs, carry => do
      let product ← Trap.nat 64 (x.toNat * y.toNat)
      let sum ← Trap.nat 64 (product + r.toNat)
      let temp ← Trap.nat 64 (sum + carry)
      let row ← mulRow x ys rs (temp / 2 ^ 32)
      some (UInt32.ofNat temp :: row)
  | [], _ :: rs, carry => do
      let carry ← Trap.nat 32 carry
      some (UInt32.ofNat carry :: rs)
  | _, [], _ => some []

def gradeSchoolLoop (b : List UInt32) : List UInt32 → List UInt32 → Option (List UInt32)
  | [], result => some result
  | x :: xs, result => do
      match ← mulRow x b result 0 with
      | [] => some []
      | r :: rs => do
          let rows ← gradeSchoolLoop b xs rs
          some (r :: rows)

def gradeSchoolMul (a b : Slice UInt32) : Option (Slice UInt32) := do
  let result := Slice.empty.slice 0 (a.count + b.count)
  let rows ← gradeSchoolLoop b.toList a.toList result.toList
  some (result.assign rows)

def divSmall (x : Nat) : List UInt32 → Option (List UInt32 × Nat)
  | [] => some ([], 0)
  | m :: ms => do
      let r ← divSmall x ms
      let high ← Trap.nat 64 (r.2 * 2 ^ 32)
      let y ← Trap.nat 64 (high + m.toNat)
      let digit ← Trap.nat 32 (y / x)
      some (UInt32.ofNat digit :: r.1, y % x)

/-- `qHat` after its correction; the product is only made where `qHat` is not the base. -/
def quotientGuess (v w : List UInt32) : Option Nat := do
  let vn1 := (v.getD (v.length - 1) 0).toNat
  let vn2 := (v.getD (v.length - 2) 0).toNat
  let ujn := (w.getD v.length 0).toNat
  let ujn1 := (w.getD (v.length - 1) 0).toNat
  let ujn2 := (w.getD (v.length - 2) 0).toNat
  let high ← Trap.nat 64 (ujn * 2 ^ 32)
  let x ← Trap.nat 64 (high + ujn1)
  let qHat := x / vn1
  let rHat := x % vn1
  if qHat = 2 ^ 32 then Trap.sub qHat 1
  else do
    let product ← Trap.nat 64 (qHat * vn2)
    let scaled ← Trap.nat 64 (2 ^ 32 * rHat)
    let sum ← Trap.nat 64 (scaled + ujn2)
    if product > sum then Trap.sub qHat 1 else some qHat

def mulSub (qHat : Nat) : Nat → Int → List UInt32 → List UInt32 → Option (List UInt32 × Int)
  | carry, borrow, v :: vs, u :: us => do
      let product ← Trap.nat 64 (qHat * v.toNat)
      let carry ← Trap.nat 64 (carry + product)
      let sum ← Trap.int 63 (borrow + u.toNat)
      let borrow ← Trap.int 63 (sum - (carry % 2 ^ 32 : Nat))
      let r ← mulSub qHat (carry / 2 ^ 32) (borrow >>> (32 : Nat)) vs us
      some (narrow borrow :: r.1, r.2)
  | carry, borrow, [], u :: _ => do
      let sum ← Trap.int 63 (borrow + u.toNat)
      -- the source subtracts in `std::uint64_t` and converts the difference back
      let borrow ← Trap.int 63 (sum - carry)
      some ([narrow borrow], borrow >>> (32 : Nat))
  | _, borrow, _, [] => some ([], borrow)

def addBackPass : Nat → List UInt32 → List UInt32 → Option (List UInt32 × Nat)
  | carry, v :: vs, u :: us => do
      let carry ← Trap.nat 64 (carry + u.toNat)
      let carry ← Trap.nat 64 (carry + v.toNat)
      let r ← addBackPass (carry / 2 ^ 32) vs us
      some (UInt32.ofNat carry :: r.1, r.2)
  | carry, [], u :: _ => do
      let carry ← Trap.nat 64 (carry + u.toNat)
      some ([UInt32.ofNat carry], carry / 2 ^ 32)
  | carry, _, [] => some ([], carry)

def addBack (v : List UInt32) : Nat → List UInt32 × Int → Nat → Option (List UInt32 × Nat)
  | fuel, (w, borrow), qHat =>
      if borrow < 0 then
        match fuel with
        | 0 => none
        | fuel + 1 => do
            let r ← addBackPass 0 v w
            let borrow ← Trap.int 63 (borrow + r.2)
            let qHat ← Trap.sub qHat 1
            addBack v fuel (r.1, borrow) qHat
      else some (w, qHat)

def divStep (v w : List UInt32) : Option (List UInt32 × Nat) := do
  let qHat ← quotientGuess v w
  let r ← mulSub qHat 0 0 v w
  addBack v qHat r qHat

def divLoop (v : List UInt32) : Nat → List UInt32 → List UInt32 →
    Option (List UInt32 × List UInt32)
  | 0, u, q => some (u, q)
  | j + 1, u, q => do
      let (w, qHat) ← divStep v ((u.drop j).take (v.length + 1))
      let digit ← Trap.nat 32 qHat
      divLoop v j (u.take j ++ w ++ u.drop (j + (v.length + 1))) (UInt32.ofNat digit :: q)

end Trapping

private theorem addLoop_trapping (b : Operand) (i sum : Nat) (hsum : sum < 2 ^ 64)
    (l : List UInt32) : Trapping.addLoop b i sum l = some (addLoop b i sum l) := by
  induction l generalizing i sum with
  | nil => rfl
  | cons x xs ih =>
      have hx := x.toNat_lt
      have hb := (b.limb i x).toNat_lt
      have hfit : x.toNat + (b.limb i x).toNat + sum / 2 ^ 32 < 2 ^ 64 := by omega
      simp only [Trapping.addLoop, addLoop, Option.bind_eq_bind]
      rw [Trap.nat_bind (by omega), Trap.nat_bind hfit, ih _ _ hfit, Option.bind_some, u64_of_lt hfit]

theorem addMag_trapping (a : Slice UInt32) (b : Operand) :
    Trapping.addMag a b = some (addMag a b) := by
  simp only [Trapping.addMag, addLoop_trapping b 0 0 (by decide), Option.bind_eq_bind,
    Option.bind_some, addMag]

private theorem subLoop_trapping (diff : Int) (hdiff : -(2 ^ 32) ≤ diff ∧ diff < 2 ^ 32)
    (l m : List UInt32) : Trapping.subLoop diff l m = some (subLoop diff l m) := by
  induction l generalizing diff m with
  | nil => rfl
  | cons x xs ih =>
      cases m with
      | nil => rfl
      | cons y ys =>
          have hx := x.toNat_lt
          have hy := y.toNat_lt
          have hshift : diff >>> (32 : Nat) = diff / 2 ^ 32 := Int.shiftRight_eq_div_pow _ 32
          simp only [Trapping.subLoop, subLoop, Option.bind_eq_bind]
          rw [Trap.int_bind (by omega) (by omega), Trap.int_bind (by omega) (by omega),
            ih _ (by omega), Option.bind_some]

theorem subMag_trapping (a b : Slice UInt32) : Trapping.subMag a b = some (subMag a b) := by
  simp only [Trapping.subMag, subLoop_trapping 0 (by decide), Option.bind_eq_bind, Option.bind_some,
    subMag, subLimbs]

private theorem mulLoop_trapping {b : Nat} (hb : b < 2 ^ 32) (carry : Nat) (hc : carry < 2 ^ 32)
    (l : List UInt32) : Trapping.mulLoop b carry l = some (mulLoop b carry l) := by
  induction l generalizing carry with
  | nil => rfl
  | cons x xs ih =>
      have hfit := mul_add_lt x.toNat_lt hb (Nat.zero_lt_of_lt hc) hc
      rw [Nat.add_zero] at hfit
      simp only [Trapping.mulLoop, mulLoop, Option.bind_eq_bind]
      rw [Trap.nat_bind (by omega), Trap.nat_bind hfit, ih _ (by omega), Option.bind_some,
        u64_of_lt hfit]

theorem gradSchoolMulInplace_trapping (a : Slice UInt32) (b : UInt32) :
    Trapping.gradSchoolMulInplace a b = some (gradSchoolMulInplace a b) := by
  have hcarry := (mag_mulLoop b.toNat_lt 0 (by decide) (a.slice 0 a.count).toList).2
  simp only [Trapping.gradSchoolMulInplace, mulLoop_trapping b.toNat_lt 0 (by decide),
    Option.bind_eq_bind, Option.bind_some, gradSchoolMulInplace]
  split
  · rw [Trap.nat_bind hcarry]
  · rfl

private theorem mulRow_trapping (x : UInt32) (b r : List UInt32) (carry : Nat)
    (hc : carry < 2 ^ 32) : Trapping.mulRow x b r carry = some (mulRow x b r carry) := by
  induction b generalizing r carry with
  | nil =>
      cases r with
      | nil => rfl
      | cons z zs =>
          simp only [Trapping.mulRow, mulRow, Option.bind_eq_bind]
          rw [Trap.nat_bind hc]
  | cons y ys ih =>
      cases r with
      | nil => rfl
      | cons z zs =>
          have hfit := mul_add_lt x.toNat_lt y.toNat_lt z.toNat_lt hc
          simp only [Trapping.mulRow, mulRow, Option.bind_eq_bind]
          rw [Trap.nat_bind (by omega), Trap.nat_bind (by omega), Trap.nat_bind hfit,
            ih _ _ (by omega), Option.bind_some, u64_of_lt hfit]

private theorem gradeSchoolLoop_trapping (b a result : List UInt32) :
    Trapping.gradeSchoolLoop b a result = some (gradeSchoolLoop b a result) := by
  induction a generalizing result with
  | nil => rfl
  | cons x xs ih =>
      simp only [Trapping.gradeSchoolLoop, gradeSchoolLoop, Option.bind_eq_bind,
        mulRow_trapping x b result 0 (by decide), Option.bind_some]
      cases mulRow x b result 0 with
      | nil => rfl
      | cons r rs => simp only [ih, Option.bind_some]

theorem gradeSchoolMul_trapping (a b : Slice UInt32) :
    Trapping.gradeSchoolMul a b = some (gradeSchoolMul a b) := by
  simp only [Trapping.gradeSchoolMul, gradeSchoolLoop_trapping, Option.bind_eq_bind,
    Option.bind_some, gradeSchoolMul]

theorem divSmall_trapping {x : Nat} (h0 : 0 < x) (hx : x < 2 ^ 32) (l : List UInt32) :
    Trapping.divSmall x l = some (divSmall x l) := by
  induction l with
  | nil => rfl
  | cons m ms ih =>
      rcases hr : divSmall x ms with ⟨ds, rest⟩
      have hm := m.toNat_lt
      have hrest : rest < x := by
        have hlt := (divSmall_spec h0 hx ms).2
        rwa [hr] at hlt
      have hdigit : (rest * 2 ^ 32 + m.toNat) / x < 2 ^ 32 := by
        apply Nat.div_lt_of_lt_mul
        calc rest * 2 ^ 32 + m.toNat < (rest + 1) * 2 ^ 32 := by omega
          _ ≤ x * 2 ^ 32 := Nat.mul_le_mul_right _ hrest
      have hfit : rest * 2 ^ 32 + m.toNat < 2 ^ 64 := by
        clear hdigit
        omega
      have hhigh : rest * 2 ^ 32 < 2 ^ 64 := Nat.lt_of_le_of_lt (Nat.le_add_right _ _) hfit
      rw [Trapping.divSmall, ih, Option.bind_eq_bind, Option.bind_some, divSmall, hr]
      dsimp only
      rw [u64_of_lt hhigh, u64_of_lt hfit, Option.bind_eq_bind, Trap.nat_bind hhigh,
        Trap.nat_bind hfit, Trap.nat_bind hdigit]

section

variable {v w : List UInt32} {d : Nat}

private theorem quotientGuess_trapping (hv : Normal v) (hlen : w.length = v.length + 1)
    (hsmall : mag w < mag v * 2 ^ 32) :
    Trapping.quotientGuess v w = some (quotientGuess v w) := by
  obtain ⟨P, ul, vl, h, -⟩ := guess_step hv hlen hsmall
  have hg := h.guess_le
  have hr := h.rest_lt
  have hu1 := h.u1_lt
  have hu2 := h.u2_lt
  have hv1 := h.v1_lt
  have hv2 := h.v2_lt
  have hu0 := (w.getD v.length 0).toNat_lt
  unfold QuotientDigit.guess at hg
  unfold QuotientDigit.rest at hr
  simp only [Trapping.quotientGuess, quotientGuess]
  generalize (w.getD v.length 0).toNat = u0 at *
  generalize (w.getD (v.length - 1) 0).toNat = u1 at *
  generalize (w.getD (v.length - 2) 0).toNat = u2 at *
  generalize (v.getD (v.length - 1) 0).toNat = v1 at *
  generalize (v.getD (v.length - 2) 0).toNat = v2 at *
  have hhigh : u0 * 2 ^ 32 < 2 ^ 64 := by omega
  have hx : u0 * 2 ^ 32 + u1 < 2 ^ 64 := by
    clear hhigh hg hr
    omega
  rw [u64_of_lt hhigh, u64_of_lt hx, Option.bind_eq_bind, Trap.nat_bind hhigh, Trap.nat_bind hx]
  generalize (u0 * 2 ^ 32 + u1) / v1 = g at *
  generalize (u0 * 2 ^ 32 + u1) % v1 = r at *
  have hproduct : g * v2 ≤ (2 ^ 32 + 1) * (2 ^ 32 - 1) := Nat.mul_le_mul hg (by omega)
  rw [u64_of_lt (n := g * v2) (by omega), u64_of_lt (n := 2 ^ 32 * r) (by omega),
    u64_of_lt (n := 2 ^ 32 * r + u2) (by omega), u64_of_lt (n := g - 1) (by omega)]
  by_cases hbase : g = 2 ^ 32
  · rw [if_pos hbase, if_pos (Or.inl hbase), Trap.sub_of_le (by omega)]
  · rw [if_neg hbase, Trap.nat_bind (by omega), Trap.nat_bind (by omega), Trap.nat_bind (by omega)]
    by_cases htest : g * v2 > 2 ^ 32 * r + u2
    · have hpos : 1 ≤ g := Nat.one_le_iff_ne_zero.mpr fun h0 => by
        rw [h0, Nat.zero_mul] at htest
        exact absurd htest (Nat.not_lt_zero _)
      rw [if_pos htest, if_pos (Or.inr htest), Trap.sub_of_le hpos]
    · rw [if_neg htest, if_neg fun hor => hor.elim hbase htest]

private theorem mulSub_trapping {qHat : Nat} (hq : qHat ≤ 2 ^ 32) (carry : Nat)
    (hc : carry < 2 ^ 32) (borrow : Int) (hb : -1 ≤ borrow ∧ borrow ≤ 0) (v w : List UInt32) :
    Trapping.mulSub qHat carry borrow v w = some (mulSub qHat carry borrow v w) := by
  induction v generalizing carry borrow w with
  | nil =>
      cases w with
      | nil => rfl
      | cons u us =>
          have hu := u.toNat_lt
          simp only [Trapping.mulSub, mulSub, Option.bind_eq_bind]
          rw [Trap.int_bind (by omega) (by omega), Trap.int_bind (by omega) (by omega),
            i64_of_range (by omega) (by omega)]
  | cons x xs ih =>
      cases w with
      | nil => rfl
      | cons u us =>
          have hx := x.toNat_lt
          have hu := u.toNat_lt
          have hproduct : qHat * x.toNat ≤ 2 ^ 32 * (2 ^ 32 - 1) := Nat.mul_le_mul hq (by omega)
          simp only [Trapping.mulSub, mulSub, Option.bind_eq_bind]
          generalize qHat * x.toNat = product at hproduct
          rw [Trap.nat_bind (by omega), Trap.nat_bind (by omega), u64_of_lt (n := product) (by omega),
            u64_of_lt (by omega)]
          generalize hsum : carry + product = c
          have hshift : (borrow + u.toNat - (c % 2 ^ 32 : Nat)) >>> (32 : Nat) =
              (borrow + u.toNat - (c % 2 ^ 32 : Nat)) / 2 ^ 32 := Int.shiftRight_eq_div_pow _ 32
          rw [Trap.int_bind (by omega) (by omega), Trap.int_bind (by omega) (by omega),
            ih (c / 2 ^ 32) (by omega) _ (by rw [hshift]; omega), Option.bind_some]

private theorem addBackPass_trapping (carry : Nat) (hc : carry < 2 ^ 32) (v w : List UInt32) :
    Trapping.addBackPass carry v w = some (addBackPass carry v w) := by
  induction v generalizing carry w with
  | nil =>
      cases w with
      | nil => rfl
      | cons u us =>
          have hu := u.toNat_lt
          simp only [Trapping.addBackPass, addBackPass, Option.bind_eq_bind]
          rw [Trap.nat_bind (by omega), u64_of_lt (by omega)]
  | cons x xs ih =>
      cases w with
      | nil => rfl
      | cons u us =>
          have hx := x.toNat_lt
          have hu := u.toNat_lt
          simp only [Trapping.addBackPass, addBackPass, Option.bind_eq_bind]
          rw [Trap.nat_bind (by omega), Trap.nat_bind (by omega), ih _ (by omega),
            Option.bind_some, u64_of_lt (by omega)]

def borrows (v : List UInt32) : Nat → List UInt32 × Int → List Int
  | 0, (_, borrow) => [borrow]
  | fuel + 1, (w, borrow) =>
      if borrow < 0 then
        let r := addBackPass 0 v w
        borrow :: borrows v fuel (r.1, borrow + r.2)
      else [borrow]

theorem borrows_zero (v : List UInt32) (fuel : Nat) (w : List UInt32) :
    borrows v fuel (w, 0) = [0] := by
  cases fuel with
  | zero => rfl
  | succ fuel => exact if_neg (by decide)

private theorem addBack_trapping {g : Nat} (hlen : w.length = v.length + 1)
    (hd : d = mag w / mag v) (hv : 0 < mag v) (hdlt : d < 2 ^ 32) (hg : g = d ∨ g = d + 1) :
    Trapping.addBack v g (mulSub g 0 0 v w) g = addBack v g (mulSub g 0 0 v w) g ∧
      (borrows v g (mulSub g 0 0 v w) = [0] ∨ borrows v g (mulSub g 0 0 v w) = [-1, 0]) := by
  rcases hg with rfl | rfl
  · obtain ⟨hborrow, -⟩ := mulSub_exact hlen hd hv hdlt
    rcases hms : mulSub g 0 0 v w with ⟨r, borrow⟩
    rw [hms] at hborrow
    simp only at hborrow
    subst borrow
    refine ⟨?_, Or.inl (borrows_zero v g r)⟩
    cases g with
    | zero => rfl
    | succ g => rw [Trapping.addBack, addBack, if_neg (by decide), if_neg (by decide)]
  · obtain ⟨hborrow, hcarry, -⟩ := mulSub_one_more hlen hd hv hdlt
    rcases hms : mulSub (d + 1) 0 0 v w with ⟨r, borrow⟩
    rw [hms] at hborrow hcarry
    simp only at hborrow hcarry
    subst borrow
    constructor
    · rw [Trapping.addBack, addBack, if_pos (by decide), if_pos (by decide)]
      simp only [addBackPass_trapping 0 (by decide), Option.bind_eq_bind, Option.bind_some, hcarry]
      rw [Trap.int_bind (by decide) (by decide), Trap.sub_bind (by omega),
        show u64 (d + 1 + (2 ^ 64 - 1)) = d by unfold u64; omega, Nat.add_sub_cancel]
      cases d with
      | zero => rfl
      | succ d => rw [Trapping.addBack, addBack, if_neg (by decide), if_neg (by decide)]
    · refine Or.inr ?_
      rw [borrows, if_pos (by decide)]
      dsimp only
      rw [hcarry]
      exact congrArg _ (borrows_zero v d _)

def leading (v w : List UInt32) : Nat :=
  (w.getD v.length 0).toNat * 2 ^ 32 + (w.getD (v.length - 1) 0).toNat

/-- A round of the loop whose true digit is `q`: nothing wraps around, the guess is right or one too
large, and `v` is added back at most once, after which nothing is borrowed. -/
structure RoundExact (v w : List UInt32) (q : Nat) : Prop where
  leading_lt : leading v w < 2 ^ 64
  product_lt : leading v w / (v.getD (v.length - 1) 0).toNat * (v.getD (v.length - 2) 0).toNat < 2 ^ 64
  rest_lt : 2 ^ 32 * (leading v w % (v.getD (v.length - 1) 0).toNat) +
    (w.getD (v.length - 2) 0).toNat < 2 ^ 64
  trapping : ∃ r, Trapping.divStep v w = some r ∧ divStep v w = some r
  guess : quotientGuess v w = q ∨ quotientGuess v w = q + 1
  borrows : borrows v (quotientGuess v w) (mulSub (quotientGuess v w) 0 0 v w) = [0] ∨
    borrows v (quotientGuess v w) (mulSub (quotientGuess v w) 0 0 v w) = [-1, 0]

theorem round_exact (hv : Normal v) (hlen : w.length = v.length + 1)
    (hsmall : mag w < mag v * 2 ^ 32) : RoundExact v w (mag w / mag v) := by
  obtain ⟨P, ul, vl, h, -⟩ := guess_step hv hlen hsmall
  have hdlt : mag w / mag v < 2 ^ 32 := Nat.div_lt_of_lt_mul hsmall
  have hguess := quotientGuess_bounds hv hlen hsmall
  obtain ⟨htrapping, hborrows⟩ := addBack_trapping hlen rfl hv.mag_pos hdlt hguess
  obtain ⟨w', d, hrun, -⟩ := divStep_spec hv hlen hsmall
  refine ⟨?_, ?_, ?_, ⟨_, ?_, hrun⟩, hguess, hborrows⟩
  · have hu0 := (w.getD v.length 0).toNat_lt
    have hu1 := h.u1_lt
    unfold leading
    omega
  · have hg : leading v w / (v.getD (v.length - 1) 0).toNat ≤ 2 ^ 32 + 1 := h.guess_le
    have hproduct := Nat.mul_le_mul hg (Nat.le_of_lt_succ h.v2_lt)
    omega
  · have hr : leading v w % (v.getD (v.length - 1) 0).toNat < (v.getD (v.length - 1) 0).toNat :=
      h.rest_lt
    have hv1 := h.v1_lt
    have hu2 := h.u2_lt
    omega
  · rw [Trapping.divStep, quotientGuess_trapping hv hlen hsmall, Option.bind_eq_bind,
      Option.bind_some, mulSub_trapping (by omega) 0 (by decide) 0 (by decide), Option.bind_eq_bind,
      Option.bind_some, htrapping]
    exact hrun

end

/-- The rounds of the loop: `j` and the window at the start of each. -/
def rounds (v : List UInt32) : Nat → List UInt32 → List (Nat × List UInt32)
  | 0, _ => []
  | j + 1, u =>
      let w := (u.drop j).take (v.length + 1)
      (j, w) :: (divStep v w).elim [] fun r =>
        rounds v j (u.take j ++ r.1 ++ u.drop (j + (v.length + 1)))

private theorem digit_add {V : Nat} (hV : 0 < V) {j k : Nat} (hk : k < j) (d r : Nat) :
    (d * V * (2 ^ 32) ^ j + r) / V / (2 ^ 32) ^ k % 2 ^ 32 = r / V / (2 ^ 32) ^ k % 2 ^ 32 := by
  obtain ⟨n, rfl⟩ : ∃ n, j = k + 1 + n := ⟨j - (k + 1), by omega⟩
  have hpow : 0 < (2 ^ 32) ^ k := Nat.pow_pos (by decide)
  have hsplit : d * V * (2 ^ 32) ^ (k + 1 + n) + r =
      r + V * ((2 ^ 32) ^ k * (2 ^ 32 * (d * (2 ^ 32) ^ n))) := by
    rw [Nat.pow_add, Nat.pow_succ]
    ring
  rw [hsplit, Nat.add_mul_div_left _ _ hV, Nat.add_mul_div_left _ _ hpow, Nat.add_mul_mod_self_left]

private theorem digit_window {v u : List UInt32} {j : Nat} (hlen : j + 1 + v.length ≤ u.length)
    (htop : mag (u.drop (j + 1)) < mag v) :
    mag ((u.drop j).take (v.length + 1)) / mag v = mag u / mag v / (2 ^ 32) ^ j % 2 ^ 32 := by
  obtain ⟨-, -, hdrop, hsmall⟩ := window_bounds hlen htop
  have hsplit := mag_take_drop j u (by omega)
  have hlow := mag_lt (u.take j)
  rw [List.length_take, Nat.min_eq_left (by omega)] at hlow
  have hplace : mag u / (2 ^ 32) ^ j = mag (u.drop j) := by
    rw [hsplit, Nat.add_mul_div_left _ _ (Nat.pow_pos (by decide)), Nat.div_eq_of_lt hlow,
      Nat.zero_add]
  rw [Nat.div_div_eq_div_mul, Nat.mul_comm, ← Nat.div_div_eq_div_mul, hplace, hdrop]
  exact (Nat.mod_eq_of_lt (Nat.div_lt_of_lt_mul hsmall)).symm

/-- Every round is exact, for the digit of the quotient at its place. -/
theorem divLoop_exact {v : List UInt32} (hv : Normal v) (j : Nat) (u q : List UInt32)
    (hlen : j + v.length ≤ u.length) (htop : mag (u.drop j) < mag v) :
    (∃ r, Trapping.divLoop v j u q = some r ∧ divLoop v j u q = some r) ∧
      (rounds v j u).map Prod.fst = (List.range j).reverse ∧
      ∀ round ∈ rounds v j u,
        RoundExact v round.2 (mag u / mag v / (2 ^ 32) ^ round.1 % 2 ^ 32) := by
  induction j generalizing u q with
  | zero => exact ⟨⟨_, rfl, rfl⟩, rfl, fun round hmem => absurd hmem List.not_mem_nil⟩
  | succ j ih =>
      obtain ⟨hwlen, -, -, hsmall⟩ := window_bounds hlen htop
      obtain ⟨w', d, hrun, hspec⟩ := divStep_spec hv hwlen hsmall
      obtain ⟨hu1len, hdrop, hput⟩ := window_put hlen htop hspec
      have hround := round_exact hv hwlen hsmall
      obtain ⟨r, htrapping, hstep⟩ := hround.trapping
      obtain rfl := Option.some.inj (hstep.symm.trans hrun)
      obtain ⟨⟨result, hloop, hloop'⟩, hplaces, hrounds⟩ :=
        ih (u.take j ++ w' ++ u.drop (j + (v.length + 1))) (UInt32.ofNat d :: q) (by omega)
          (hdrop ▸ hspec.rest_lt)
      have hlist : rounds v (j + 1) u = (j, (u.drop j).take (v.length + 1)) ::
          rounds v j (u.take j ++ w' ++ u.drop (j + (v.length + 1))) := by
        rw [rounds, hrun, Option.elim_some]
      refine ⟨⟨result, ?_, ?_⟩, ?_, fun round hmem => ?_⟩
      · rw [Trapping.divLoop, htrapping, Option.bind_eq_bind, Option.bind_some]
        dsimp only
        rw [Option.bind_eq_bind, Trap.nat_bind hspec.digit_lt]
        exact hloop
      · rw [divLoop, hrun]
        exact hloop'
      · rw [hlist, List.map_cons, hplaces, List.range_succ, List.reverse_append]
        rfl
      · rw [hlist] at hmem
        rcases List.mem_cons.mp hmem with rfl | hmem
        · rw [digit_window hlen htop] at hround
          exact hround
        · have hk : round.1 < j := by
            have hin := List.mem_map_of_mem (f := Prod.fst) hmem
            rw [hplaces, List.mem_reverse, List.mem_range] at hin
            exact hin
          rw [hput, digit_add hv.mag_pos hk]
          exact hrounds round hmem

end PGBigNumber
