import Mathlib.Algebra.Order.Ring.Int
import Mathlib.Data.Int.Basic
import Mathlib.Data.Int.GCD
import Mathlib.Data.Nat.Size
import Mathlib.Tactic.Linarith
import Mathlib.Tactic.Ring

/-!
# The greatest common divisor

`algo::gcd` over exact integers.
-/

namespace PGBigNumber

namespace Algo

def gcdLoop (a b : Int) : Int := if 0 < a then gcdLoop (b.tmod a) a else b
termination_by a.toNat
decreasing_by
  have := Int.tmod_lt_of_pos b ‹0 < a›
  omega

def gcd (x y : Int) : Int := if y < x then gcdLoop y x else gcdLoop x y

theorem gcdLoop_eq {a b : Int} (ha : 0 ≤ a) (hb : 0 ≤ b) : gcdLoop a b = Int.gcd a b := by
  fun_induction gcdLoop a b with
  | case1 a b hpos ih =>
      rw [ih (Int.tmod_nonneg a hb) ha, Int.tmod_eq_emod_of_nonneg hb, Int.gcd_emod, Int.gcd_comm]
  | case2 a b hpos =>
      obtain rfl : a = 0 := by omega
      rw [Int.gcd_zero_left]
      omega

/-- On the nonnegative integers `gcd` is the greatest common divisor. -/
theorem gcd_eq {x y : Int} (hx : 0 ≤ x) (hy : 0 ≤ y) : gcd x y = Int.gcd x y := by
  unfold gcd
  split
  · rw [gcdLoop_eq hy hx, Int.gcd_comm]
  · exact gcdLoop_eq hx hy

/-- At most `n` rounds of the loop; no result where it is not over by then. -/
def gcdRounds : Nat → Int → Int → Option Int
  | 0, a, b => if 0 < a then none else some b
  | n + 1, a, b => if 0 < a then gcdRounds n (b.tmod a) a else some b

def gcdWithin (n : Nat) (x y : Int) : Option Int :=
  if y < x then gcdRounds n y x else gcdRounds n x y

theorem two_mul_emod_lt {a b : Int} (ha : 0 < a) (hab : a ≤ b) : 2 * (b % a) < b := by
  have hlt : b % a < a := Int.emod_lt_of_pos b ha
  have hquot : 1 ≤ b / a := (Int.le_ediv_iff_mul_le ha).mpr (by omega)
  have hsum : a * (b / a) + b % a = b := Int.mul_ediv_add_emod b a
  have hle : a * 1 ≤ a * (b / a) := Int.mul_le_mul_of_nonneg_left hquot ha.le
  omega

/-- Every round halves the product of the two variables. -/
theorem gcdRounds_eq {n : Nat} {a b : Int} (ha : 0 ≤ a) (hab : a ≤ b) (hn : a * b < 2 ^ n) :
    gcdRounds n a b = some (gcdLoop a b) := by
  induction n generalizing a b with
  | zero =>
      have hzero : ¬ 0 < a := by
        intro hpos
        have hprod : 0 < a * b := Int.mul_pos hpos (by omega)
        omega
      rw [gcdRounds, gcdLoop, if_neg hzero, if_neg hzero]
  | succ n ih =>
      by_cases hpos : 0 < a
      · have hlt : b % a < a := Int.emod_lt_of_pos b hpos
        have hhalf := two_mul_emod_lt hpos hab
        have hprod : a * (2 * (b % a)) < a * b := Int.mul_lt_mul_of_pos_left hhalf hpos
        rw [gcdRounds, gcdLoop, if_pos hpos, if_pos hpos,
          Int.tmod_eq_emod_of_nonneg (by omega)]
        apply ih (Int.emod_nonneg b hpos.ne') hlt.le
        have hswap : a * (2 * (b % a)) = 2 * (b % a * a) := by ring
        rw [hswap] at hprod
        rw [pow_succ] at hn
        omega
      · rw [gcdRounds, gcdLoop, if_neg hpos, if_neg hpos]

theorem gcdWithin_eq {n : Nat} {x y : Int} (hx : 0 ≤ x) (hy : 0 ≤ y) (hn : x * y < 2 ^ n) :
    gcdWithin n x y = some (gcd x y) := by
  unfold gcdWithin gcd
  split
  next hlt => exact gcdRounds_eq hy hlt.le (by rwa [Int.mul_comm])
  next hge => exact gcdRounds_eq hx (by omega) hn

/-- `g` is the greatest common divisor of `x` and `y`. -/
structure IsGcd (g x y : Int) : Prop where
  nonneg : 0 ≤ g
  dvd_left : g ∣ x
  dvd_right : g ∣ y
  greatest : ∀ d, d ∣ x → d ∣ y → d ∣ g

theorem gcd_isGcd {x y : Int} (hx : 0 ≤ x) (hy : 0 ≤ y) : IsGcd (gcd x y) x y := by
  rw [gcd_eq hx hy]
  exact ⟨Int.natCast_nonneg _, Int.gcd_dvd_left x y, Int.gcd_dvd_right x y,
    fun d hdx hdy => Int.dvd_coe_gcd hdx hdy⟩

/-- `gcd` ends after no more rounds than the product of its arguments has bits, and gives their
greatest common divisor in either order. -/
theorem gcd_exact {x y : Int} (hx : 0 ≤ x) (hy : 0 ≤ y) :
    gcdWithin (x * y).toNat.size x y = some (gcd x y) ∧ IsGcd (gcd x y) x y ∧
      gcd y x = gcd x y ∧ gcd 0 y = y ∧ gcd x 0 = x := by
  have hbits : x * y < 2 ^ (x * y).toNat.size := by
    have hlt : (x * y).toNat < 2 ^ (x * y).toNat.size := Nat.lt_size_self _
    have hcast : (((x * y).toNat : Nat) : Int) = x * y := Int.toNat_of_nonneg (Int.mul_nonneg hx hy)
    rw [← hcast]
    exact_mod_cast hlt
  refine ⟨gcdWithin_eq hx hy hbits, gcd_isGcd hx hy, ?_, ?_, ?_⟩
  · rw [gcd_eq hy hx, gcd_eq hx hy, Int.gcd_comm]
  · rw [gcd_eq Int.le_rfl hy, Int.gcd_zero_left, Int.natAbs_of_nonneg hy]
  · rw [gcd_eq hx Int.le_rfl, Int.gcd_zero_right, Int.natAbs_of_nonneg hx]

/-- Very unbalanced arguments. -/
theorem gcd_exact_unbalanced :
    gcdWithin ((6 : Int) * 10 ^ 20).toNat.size 6 (10 ^ 20) = some (gcd 6 (10 ^ 20)) ∧
      gcd (10 ^ 20) 6 = gcd 6 (10 ^ 20) := by
  have hexact := gcd_exact (x := 6) (y := 10 ^ 20) (by decide) (by decide)
  exact ⟨hexact.1, hexact.2.2.1⟩

end Algo

end PGBigNumber
