import PGBigNumber.Store.GetU32

/-!
# Queries

The functions that only look at an object, and the conversions that cut off the high bits.
-/

namespace PGBigNumber

namespace Store

variable (σ : Store) (i : Nat)

def isPositive : Bool := (σ.sign i).positive

def isNegative : Bool := (σ.sign i).negative

def isOne : Bool := (σ.sign i).positive && (σ.mag i).count == 1 && (σ.mag i).get 0 == 1

def isNegOne : Bool := (σ.sign i).negative && (σ.mag i).count == 1 && (σ.mag i).get 0 == 1

def isEven : Bool := if σ.isZero i then true else (σ.mag i).get 0 &&& 1 == 0

def isOdd : Bool := !σ.isEven i

def asUnsigned (w : Nat) : Nat := (σ.toU64 i).1.toNat % 2 ^ w

def asSigned (w : Nat) : Int := ((σ.toU64 i).1.toNat : Int).bmod (2 ^ w)

variable {σ : Store} {i : Nat} {v : Int}

theorem isPositive_eq (hv : σ.num i = Num.ofInt v) : σ.isPositive i = decide (0 < v) := by
  rw [isPositive, ← num_sign, hv, Num.ofInt]
  by_cases h0 : v = 0
  · rw [if_pos h0, h0]
    rfl
  rw [if_neg h0]
  by_cases hpos : 0 < v
  · rw [if_pos hpos, decide_eq_true hpos]
    rfl
  · rw [if_neg hpos, decide_eq_false hpos]
    rfl

theorem isNegative_eq (hv : σ.num i = Num.ofInt v) : σ.isNegative i = decide (v < 0) := by
  rw [isNegative, ← num_sign, hv, Num.ofInt]
  by_cases h0 : v = 0
  · rw [if_pos h0, h0]
    rfl
  rw [if_neg h0]
  by_cases hpos : 0 < v
  · rw [if_pos hpos, decide_eq_false (by omega)]
    rfl
  · rw [if_neg hpos, decide_eq_true (by omega)]
    rfl

private theorem shows_one_iff (h : σ.Wf) (hi : i < σ.live) :
    ((σ.mag i).count == 1 && (σ.mag i).get 0 == 1) = (σ.limbs i == [1]) := by
  have hlen : (σ.limbs i).length = (σ.mag i).count := Slice.length_toList (h i hi).1
  rw [Bool.eq_iff_iff, Bool.and_eq_true, beq_iff_eq, beq_iff_eq, beq_iff_eq]
  constructor
  · rintro ⟨hcount, hget⟩
    rw [Slice.get_eq (h i hi).1 0 (by omega)] at hget
    obtain ⟨x, hx⟩ := List.length_eq_one_iff.mp (hlen.trans hcount)
    rw [limbs_eq] at hx ⊢
    rw [hx] at hget ⊢
    exact congrArg (fun y => [y]) hget
  · intro hone
    have hcount : (σ.mag i).count = 1 := by rw [← hlen, hone]; rfl
    refine ⟨hcount, ?_⟩
    rw [Slice.get_eq (h i hi).1 0 (by omega), ← limbs_eq, hone]
    rfl

theorem isOne_eq (h : σ.Wf) (hi : i < σ.live) (hv : σ.num i = Num.ofInt v) :
    σ.isOne i = decide (v = 1) := by
  have hnum : σ.isOne i = (σ.num i).isOne := by
    rw [isOne, Bool.and_assoc, shows_one_iff h hi, Num.isOne, num_sign, num_limbs]
  rw [hnum, hv, Bool.eq_iff_iff, Num.isOne_ofInt, decide_eq_true_iff]

theorem isNegOne_eq (h : σ.Wf) (hi : i < σ.live) (hv : σ.num i = Num.ofInt v) :
    σ.isNegOne i = decide (v = -1) := by
  have hnum : σ.isNegOne i = (σ.num i).isNegOne := by
    rw [isNegOne, Bool.and_assoc, shows_one_iff h hi, Num.isNegOne, num_sign, num_limbs]
  rw [hnum, hv, Bool.eq_iff_iff, Num.isNegOne_ofInt, decide_eq_true_iff]

theorem isEven_eq (h : σ.Wf) (hi : i < σ.live) (hv : σ.num i = Num.ofInt v) :
    σ.isEven i = decide (v % 2 = 0) := by
  unfold isEven
  by_cases hz : σ.isZero i = true
  · rw [if_pos hz, (isZero_iff hv).mp hz]
    rfl
  have h0 : v ≠ 0 := fun h0 => hz ((isZero_iff hv).mpr h0)
  have hmag : PGBigNumber.mag (σ.limbs i) = v.natAbs := by
    rw [← num_limbs, hv, Num.mag_ofInt]
  cases hlimbs : σ.limbs i with
  | nil =>
      rw [hlimbs, mag_nil] at hmag
      omega
  | cons x l =>
      have hcount : 0 < (σ.mag i).count := by
        have hlen : (σ.limbs i).length = (σ.mag i).count := Slice.length_toList (h i hi).1
        rw [hlimbs, List.length_cons] at hlen
        omega
      rw [hlimbs, mag_cons] at hmag
      have hbit : (x &&& 1 == 0) = decide (x.toNat % 2 = 0) := by
        rw [Bool.eq_iff_iff, beq_iff_eq, decide_eq_true_iff, ← UInt32.toNat_inj, UInt32.toNat_and,
          show (1 : UInt32).toNat = 1 from rfl, Nat.and_one_is_mod]
        rfl
      rw [if_neg hz, Slice.get_eq (h i hi).1 0 hcount, ← limbs_eq, hlimbs, List.getD_cons_zero, hbit]
      congr 1
      apply propext
      omega

theorem toU64_eq (h : σ.Wf) (hi : i < σ.live) (hv : σ.num i = Num.ofInt v) (hc : σ.CacheOk i) :
    ((σ.toU64 i).1.toNat : Int) = v % 2 ^ 64 := by
  have hcaches : Caches σ (σ.getU32 i 1).2 := getU32_caches
  have hcoherent : (σ.num i).Coherent := (hv ▸ Num.ofInt_canon v : (σ.num i).Canon).coherent
  have hhigh : (σ.getU32 i 1).1 = limbAt v 1 := by
    rw [getU32_exact h hi hcoherent hc, hv, Num.toInt_ofInt]
  have hlow : ((σ.getU32 i 1).2.getU32 i 0).1 = limbAt v 0 := by
    rw [getU32_exact (hcaches.wf h) (by rwa [hcaches.live]) (by rwa [hcaches.num])
      (hcaches.cacheOk i hc), hcaches.num, hv, Num.toInt_ofInt]
  change ((((σ.getU32 i 1).1.toUInt64 <<< 32) |||
    ((σ.getU32 i 1).2.getU32 i 0).1.toUInt64).toNat : Int) = _
  rw [toNat_join, hhigh, hlow, toNat_limbAt, toNat_limbAt, Nat.cast_add, Nat.cast_mul,
    TwosComplement.cast_digit (by decide), TwosComplement.cast_digit (by decide)]
  omega

theorem asUnsigned_eq (h : σ.Wf) (hi : i < σ.live) (hv : σ.num i = Num.ofInt v)
    (hc : σ.CacheOk i) {w : Nat} (hw : w ≤ 64) : (σ.asUnsigned i w : Int) = v % 2 ^ w := by
  have hdvd : (2 : Int) ^ w ∣ 2 ^ 64 := pow_dvd_pow 2 hw
  rw [asUnsigned, Int.natCast_mod, toU64_eq h hi hv hc, Nat.cast_pow, Nat.cast_ofNat,
    Int.emod_emod_of_dvd _ hdvd]

theorem asSigned_eq (h : σ.Wf) (hi : i < σ.live) (hv : σ.num i = Num.ofInt v)
    (hc : σ.CacheOk i) {w : Nat} (hw : w ≤ 64) : σ.asSigned i w = v.bmod (2 ^ w) := by
  have hdvd : ((2 ^ w : Nat) : Int) ∣ 2 ^ 64 := by
    rw [Nat.cast_pow, Nat.cast_ofNat]
    exact pow_dvd_pow 2 hw
  rw [asSigned, toU64_eq h hi hv hc, Int.bmod_def, Int.bmod_def, Int.emod_emod_of_dvd _ hdvd]

end Store

end PGBigNumber
