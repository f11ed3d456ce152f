import PGBigNumber.Store.Div
import PGBigNumber.Store.Mul

/-!
# Results in an operand

`mul` and `div` do not keep their results apart from their operands. What they store when a result
is the same object as an operand, and when that is the product, the quotient and the remainder.
-/

namespace PGBigNumber

namespace Num

variable {v w : Int}

theorem toNat_lowLimb (v : Int) : ((ofInt v).limbs.getD 0 0).toNat = v.natAbs % 2 ^ 32 := by
  rw [← mag_ofInt v]
  cases (ofInt v).limbs with
  | nil => rfl
  | cons x l =>
      rw [List.getD_cons_zero, mag_cons, Nat.add_mul_mod_self_left, Nat.mod_eq_of_lt x.toNat_lt]

private theorem mulLimb_inj {l : List UInt32} (hl : 0 < mag l) {c d : UInt32} :
    mulLimb l c = mulLimb l d ↔ c = d := by
  constructor
  · intro heq
    have hmag := congrArg mag heq
    rw [mag_mulLimb, mag_mulLimb] at hmag
    exact UInt32.toNat_inj.mp (Nat.eq_of_mul_eq_mul_left hl hmag)
  · rintro rfl
    rfl

private theorem mag_limbs_pos (hv : v ≠ 0) : 0 < mag (ofInt v).limbs := by
  rw [mag_ofInt]
  omega

theorem prodLimbsRead_left_iff (hv : v ≠ 0) (hw : w ≠ 0) :
    prodLimbsRead (ofInt v).limbs (ofInt w).limbs (ofInt w).limbs (ofInt w).limbs =
        prodLimbs (ofInt v).limbs (ofInt w).limbs ↔
      ¬ (v.natAbs < 2 ^ 32 ∧ 2 ^ 32 ≤ w.natAbs ∧ w.natAbs % 2 ^ 32 ≠ v.natAbs) := by
  unfold prodLimbsRead prodLimbs
  have hone_v := length_ofInt_one_iff hv
  have hone_w := length_ofInt_one_iff hw
  by_cases hlw : (ofInt w).limbs.length = 1
  · have hlt := hone_w.mp hlw
    rw [if_pos hlw, if_pos hlw]
    exact iff_of_true rfl (by omega)
  rw [if_neg hlw, if_neg hlw]
  by_cases hlv : (ofInt v).limbs.length = 1
  · have hlt := hone_v.mp hlv
    have hge : ¬ w.natAbs < 2 ^ 32 := fun h => hlw (hone_w.mpr h)
    rw [if_pos hlv, if_pos hlv, mulLimb_inj (mag_limbs_pos hw), ← UInt32.toNat_inj, toNat_lowLimb,
      toNat_lowLimb, Nat.mod_eq_of_lt hlt]
    omega
  · have hge : ¬ v.natAbs < 2 ^ 32 := fun h => hlv (hone_v.mpr h)
    rw [if_neg hlv, if_neg hlv]
    exact iff_of_true rfl (by omega)

theorem prodLimbsRead_right_iff (hv : v ≠ 0) (hw : w ≠ 0) :
    prodLimbsRead (ofInt v).limbs (ofInt w).limbs (ofInt v).limbs (ofInt v).limbs =
        prodLimbs (ofInt v).limbs (ofInt w).limbs ↔
      ¬ (w.natAbs < 2 ^ 32 ∧ v.natAbs % 2 ^ 32 ≠ w.natAbs) := by
  unfold prodLimbsRead prodLimbs
  have hone_w := length_ofInt_one_iff hw
  by_cases hlw : (ofInt w).limbs.length = 1
  · have hlt := hone_w.mp hlw
    rw [if_pos hlw, if_pos hlw, mulLimb_inj (mag_limbs_pos hv), ← UInt32.toNat_inj, toNat_lowLimb,
      toNat_lowLimb, Nat.mod_eq_of_lt hlt]
    omega
  · have hge : ¬ w.natAbs < 2 ^ 32 := fun h => hlw (hone_w.mpr h)
    rw [if_neg hlw, if_neg hlw]
    exact iff_of_true rfl (by omega)

private theorem signed_inj_sign {s t : Bool} {l : List UInt32} :
    signed s l = signed t l ↔ s = t := by
  constructor
  · intro heq
    have hpos := congrArg (fun x => x.sign.positive) heq
    rwa [signed_positive, signed_positive] at hpos
  · rintro rfl
    rfl

private theorem signed_inj_limbs {s : Bool} {l m : List UInt32} :
    signed s l = signed s m ↔ l = m := by
  constructor
  · exact congrArg Num.limbs
  · rintro rfl
    rfl

private theorem sign_ofInt_eq_pos : (ofInt v).sign = .pos ↔ 0 < v := by
  rcases Int.lt_trichotomy v 0 with h | rfl | h
  · rw [ofInt_neg h]
    exact iff_of_false (by simp [Sign.neg, Sign.pos]) (by omega)
  · exact iff_of_false (by decide) (by omega)
  · rw [ofInt_pos h]
    exact iff_of_true rfl h

private theorem sign_ofInt_eq (hv : v ≠ 0) (hw : w ≠ 0) :
    (ofInt v).sign = (ofInt w).sign ↔ (0 < v ↔ 0 < w) := by
  rw [← sign_ofInt_eq_pos, ← sign_ofInt_eq_pos]
  rcases Int.lt_or_gt_of_ne hv with h | h <;> rcases Int.lt_or_gt_of_ne hw with h' | h' <;>
    simp [ofInt_neg, ofInt_pos, h, h', Sign.pos, Sign.neg]

end Num

namespace Store

variable {σ σ₁ : Store} {a b q r i : Nat} {v w : Int}

def BothLong (v w : Int) : Prop := (2 ^ 32) ^ 79 ≤ v.natAbs ∧ (2 ^ 32) ^ 79 ≤ w.natAbs

private theorem long_iff (v : Int) :
    (2 ^ 32) ^ 79 ≤ v.natAbs ↔ ¬ (Num.ofInt v).limbs.length < karatsubaThreshold := by
  unfold karatsubaThreshold
  constructor
  · intro hle hlt
    have hmag := mag_lt (Num.ofInt v).limbs
    have hpow : (2 ^ 32) ^ (Num.ofInt v).limbs.length ≤ (2 ^ 32) ^ 79 :=
      Nat.pow_le_pow_right (by decide) (by omega)
    rw [Num.mag_ofInt] at hmag
    exact absurd (hle.trans_lt hmag) (Nat.not_lt_of_le hpow)
  · intro hlen
    by_contra hlt
    have := Num.length_ofInt_le (Nat.lt_of_not_le hlt)
    omega

/-- The product comes out right in its left factor `v`: that is not one limb which is read again as
the low limb of `w`, and not a negative number that Karatsuba takes for a positive one. -/
def LeftFits (v w : Int) : Prop :=
  ¬ (2 ≤ v.natAbs ∧ v.natAbs < 2 ^ 32 ∧ 2 ^ 32 ≤ w.natAbs ∧ w.natAbs % 2 ^ 32 ≠ v.natAbs) ∧
    ¬ (BothLong v w ∧ v < 0)

def RightFits (v w : Int) : Prop :=
  ¬ (2 ≤ w.natAbs ∧ w.natAbs < 2 ^ 32 ∧ 2 ≤ v.natAbs ∧ v.natAbs % 2 ^ 32 ≠ w.natAbs) ∧
    ¬ (BothLong v w ∧ w < 0)

private theorem mulStored_short {P Q : Prop} [Decidable P] [Decidable Q]
    (hunit : ¬ (v.natAbs ≤ 1 ∨ w.natAbs ≤ 1)) (hshort : ¬ BothLong v w) :
    mulStored v w P Q = Num.ofInt (v * w) ↔
      Num.prodLimbsRead (Num.ofInt v).limbs (Num.ofInt w).limbs
          (if P then (Num.ofInt w).limbs else (Num.ofInt v).limbs)
          (if Q then (Num.ofInt v).limbs else (Num.ofInt w).limbs) =
        Num.prodLimbs (Num.ofInt v).limbs (Num.ofInt w).limbs := by
  have hexact : Num.ofInt (v * w) =
      Num.signed (decide ((Num.ofInt v).sign = (Num.ofInt w).sign))
        (Num.prodLimbs (Num.ofInt v).limbs (Num.ofInt w).limbs) := by
    rw [← Num.prod_ofInt (show v ≠ 0 by omega) (show w ≠ 0 by omega), Num.signed]
    simp only [decide_eq_true_eq]
  have hlen : (Num.ofInt v).limbs.length < karatsubaThreshold ∨
      (Num.ofInt w).limbs.length < karatsubaThreshold := by
    by_contra hno
    rw [not_or, ← long_iff, ← long_iff] at hno
    exact hshort hno
  rw [mulStored, if_neg hunit, if_pos hlen, hexact, Num.signed_inj_limbs]

private theorem mulStored_long {P Q : Prop} [Decidable P] [Decidable Q] (hv : v ≠ 0) (hw : w ≠ 0)
    (hlong : BothLong v w) :
    mulStored v w P Q = Num.ofInt (v * w) ↔
      ((if P then Sign.pos else (Num.ofInt v).sign) = (if Q then .pos else (Num.ofInt w).sign) ↔
        (Num.ofInt v).sign = (Num.ofInt w).sign) := by
  have hbig : 1 < (2 ^ 32) ^ 79 := by norm_num
  have hexact : Num.ofInt (v * w) =
      Num.signed (decide ((Num.ofInt v).sign = (Num.ofInt w).sign))
        (Num.limbsOf (v.natAbs * w.natAbs)) := by
    rw [← Num.prod_limbsOf hv hw, Num.signed, Num.mag_ofInt, Num.mag_ofInt]
    simp only [decide_eq_true_eq]
  have hunit : ¬ (v.natAbs ≤ 1 ∨ w.natAbs ≤ 1) := by
    rintro (hle | hle)
    · exact absurd (hlong.1.trans hle) (Nat.not_le_of_lt hbig)
    · exact absurd (hlong.2.trans hle) (Nat.not_le_of_lt hbig)
  have hlen : ¬ ((Num.ofInt v).limbs.length < karatsubaThreshold ∨
      (Num.ofInt w).limbs.length < karatsubaThreshold) := by
    rw [not_or, ← long_iff, ← long_iff]
    exact hlong
  rw [mulStored, if_neg hunit, if_neg hlen, hexact, Num.signed_inj_sign, decide_eq_decide]

private theorem BothLong.two_limbs (h : BothLong v w) :
    2 ^ 32 ≤ v.natAbs ∧ 2 ^ 32 ≤ w.natAbs := by
  have hbig : 2 ^ 32 ≤ (2 ^ 32) ^ 79 := by norm_num
  exact ⟨hbig.trans h.1, hbig.trans h.2⟩

theorem mulStored_left_iff {P Q : Prop} [Decidable P] [Decidable Q] (hP : P) (hQ : ¬ Q) :
    mulStored v w P Q = Num.ofInt (v * w) ↔ LeftFits v w := by
  unfold LeftFits
  by_cases hlong : BothLong v w
  · have htwo := hlong.two_limbs
    rw [mulStored_long (by omega) (by omega) hlong, if_pos hP, if_neg hQ,
      Num.sign_ofInt_eq (by omega) (by omega), eq_comm, Num.sign_ofInt_eq_pos]
    simp only [hlong, true_and]
    omega
  · rw [and_iff_left (show ¬ (BothLong v w ∧ v < 0) from fun h => hlong h.1)]
    by_cases hunit : v.natAbs ≤ 1 ∨ w.natAbs ≤ 1
    · rw [mulStored, if_pos hunit]
      exact iff_of_true rfl (by omega)
    · rw [mulStored_short hunit hlong, if_pos hP, if_neg hQ,
        Num.prodLimbsRead_left_iff (by omega) (by omega)]
      omega

theorem mulStored_right_iff {P Q : Prop} [Decidable P] [Decidable Q] (hP : ¬ P) (hQ : Q) :
    mulStored v w P Q = Num.ofInt (v * w) ↔ RightFits v w := by
  unfold RightFits
  by_cases hlong : BothLong v w
  · have htwo := hlong.two_limbs
    rw [mulStored_long (by omega) (by omega) hlong, if_neg hP, if_pos hQ,
      Num.sign_ofInt_eq (by omega) (by omega), Num.sign_ofInt_eq_pos]
    simp only [hlong, true_and]
    omega
  · rw [and_iff_left (show ¬ (BothLong v w ∧ w < 0) from fun h => hlong h.1)]
    by_cases hunit : v.natAbs ≤ 1 ∨ w.natAbs ≤ 1
    · rw [mulStored, if_pos hunit]
      exact iff_of_true rfl (by omega)
    · rw [mulStored_short hunit hlong, if_neg hP, if_pos hQ,
        Num.prodLimbsRead_right_iff (by omega) (by omega)]
      omega

/-- A square overwrites its factor without loss. -/
theorem mulStored_self {P Q : Prop} [Decidable P] [Decidable Q] (hP : P) (hQ : Q) :
    mulStored v v P Q = Num.ofInt (v * v) := by
  by_cases hlong : BothLong v v
  · have htwo := hlong.two_limbs
    rw [mulStored_long (by omega) (by omega) hlong, if_pos hP, if_pos hQ]
    exact iff_of_true rfl rfl
  · by_cases hunit : v.natAbs ≤ 1 ∨ v.natAbs ≤ 1
    · rw [mulStored, if_pos hunit]
    · rw [mulStored_short hunit hlong, if_pos hP, if_pos hQ, Num.prodLimbsRead_self]

/-- The division comes out right: where the quotient overwrites a divisor of one limb, that limb is
read again as the low limb of the dividend `v`. -/
def QuotientFits (q b : Nat) (v w : Int) : Prop :=
  q = b → v = 0 ∨ 2 ^ 32 ≤ w.natAbs ∨ v.natAbs % 2 ^ 32 = w.natAbs

/-- The call raises `DIVBY0`, whose callback ends the process: it turns a success into it. -/
def DivRaises (σ : Store) (q r a b : Nat) : Prop :=
  ∃ σ', (σ.setStatus .success).div q r a b = some σ' ∧ σ'.status = some .divBy0

private theorem divisor_unique {n m k : Nat} (hm : 0 < m) (hle : m ≤ n) (hquot : n / m = n / k)
    (hrem : n % m = n % k) : m = k := by
  have h₁ := Nat.div_add_mod n m
  have h₂ := Nat.div_add_mod n k
  rw [← hquot, ← hrem] at h₂
  have hpos : 0 < n / m := Nat.div_pos hle hm
  have hmul : m * (n / m) = k * (n / m) := by omega
  exact Nat.eq_of_mul_eq_mul_right hpos hmul

private theorem toNat_overwritten (h : σ.Wf) (ha : a < σ.live) (hq : q < σ.live)
    (hv : σ.num a = Num.ofInt v) (hv0 : v ≠ 0) :
    (((σ.assign q a).mag q).get 0).toNat = v.natAbs % 2 ^ 32 := by
  have hassign := Puts.assign (i := q) (R := fun _ => True) h ha trivial
  have hlimbs : (σ.assign q a).limbs q = (Num.ofInt v).limbs := by
    rw [← num_limbs, hassign.num, hv]
  have hlen := hassign.wf.length_limbs (i := q) (by rw [hassign.live]; exact hq)
  have hpos := List.length_pos_of_ne_nil (Num.limbs_ofInt_ne_nil hv0)
  rw [hlimbs] at hlen
  rw [← Num.toNat_lowLimb, ← hlimbs, limbs_eq,
    Slice.get_eq (hassign.wf q (by rw [hassign.live]; exact hq)).1 0 (by omega)]
  rfl

private theorem overwritten_iff (h : σ.Wf) (hq : q < σ.live) (hr : r < σ.live) (ha : a < σ.live)
    (hqr : q ≠ r) (hv : σ.num a = Num.ofInt v) (hv0 : v ≠ 0) (hw0 : w ≠ 0)
    (hm0 : v.natAbs % 2 ^ 32 ≠ 0) :
    StoresDivision q r v w (σ.divOneLimb q r a q v.sign w.sign) ↔ v.natAbs % 2 ^ 32 = w.natAbs := by
  have hm := toNat_overwritten h ha hq hv hv0
  have hne : ((σ.assign q a).mag q).get 0 ≠ 0 := by
    intro he
    rw [he] at hm
    exact hm0 hm.symm
  constructor
  · rintro ⟨hquot, hrem⟩
    obtain ⟨hnq, hnr⟩ := divOneLimb_quotient (b := q) (w := w) h hq hr ha hqr hv hv0 hne
    rw [hm] at hnq hnr
    rw [hquot] at hnq
    rw [hrem] at hnr
    have hq' := congrArg Int.natAbs (Num.ofInt_injective hnq)
    have hr' := congrArg Int.natAbs (Num.ofInt_injective hnr)
    rw [Int.natAbs_tdiv, apply_ite Int.natAbs, Int.natAbs_neg, Int.natAbs_natCast, ite_self] at hq'
    rw [Int.natAbs_tmod, apply_ite Int.natAbs, Int.natAbs_neg, Int.natAbs_natCast, ite_self] at hr'
    exact divisor_unique (Nat.pos_of_ne_zero hm0) (Nat.mod_le _ _) hq'.symm hr'.symm
  · intro hmw
    exact divOneLimb_exact h hq hr ha hqr hv hv0 hw0 (hm.trans hmw)

/-- The limb that the path for one limb reads of the divisor. -/
theorem toNat_readLimb (h : σ.Wf) (hq : q < σ.live) (ha : a < σ.live) (hb : b < σ.live)
    (hv : σ.num a = Num.ofInt v) (hw : σ.num b = Num.ofInt w) (hv0 : v ≠ 0) (hw0 : w ≠ 0)
    (hone : w.natAbs < 2 ^ 32) : (((σ.assign q a).mag b).get 0).toNat =
      if q = b then v.natAbs % 2 ^ 32 else w.natAbs := by
  by_cases hqb : q = b
  · rw [if_pos hqb, ← toNat_overwritten h ha hq hv hv0, hqb]
  · have hcount : (σ.mag b).count = 1 := by
      rw [← h.length_limbs hb, ← num_limbs, hw]
      exact (Num.length_ofInt_one_iff hw0).mpr hone
    rw [if_neg hqb, toNat_divisorLimb h ha hb hv hw (fun he => absurd he hqb) hcount]

private theorem div_status_iff (h : σ.Wf) (hq : q < σ.live) (hr : r < σ.live) (ha : a < σ.live)
    (hb : b < σ.live) (hqr : q ≠ r) (hv : σ.num a = Num.ofInt v) (hw : σ.num b = Num.ofInt w)
    (hw0 : w ≠ 0) (hstatus : σ.status ≠ some .divBy0) :
    ∃ σ', σ.div q r a b = some σ' ∧ (σ'.status = some .divBy0 ↔
      q = b ∧ v ≠ 0 ∧ w.natAbs < 2 ^ 32 ∧ v.natAbs % 2 ^ 32 = 0) := by
  have hundisturbed : ∀ {σ'}, Undisturbed σ σ' → σ'.status ≠ some .divBy0 := by
    rintro σ' (he | he) hraised
    · exact hstatus (he.symm.trans hraised)
    · exact absurd (he.symm.trans hraised) (by decide)
  obtain ⟨σ', hrun, ⟨hv0, hone, rfl⟩ | ⟨hcond, -, hquiet⟩⟩ := div_cases h hq hr ha hb hqr hv hw hw0
  · have ho := operands_spec h ha hb
    have hlive := ho.live
    have hwf := ho.keeps.good.wf
    have hv' := (ho.keeps.num a ha fun hf => hf).trans hv
    have hw' := (ho.keeps.num b hb fun hf => hf).trans hw
    obtain ⟨hzero, hne⟩ := divOneLimb_status (σ := σ.operands a b) (q := q) (r := r) (a := a) (b := b)
      v.sign w.sign
    have hread := toNat_readLimb hwf (q := q) (by omega) (by omega) (by omega) hv' hw' hv0 hw0 hone
    refine ⟨_, hrun, fun hraised => ?_, ?_⟩
    · have hlimb : (((σ.operands a b).assign q a).mag b).get 0 = 0 := by
        by_contra hlimb
        exact hundisturbed (hne hlimb) hraised
      rw [hlimb] at hread
      by_cases hqb : q = b
      · rw [if_pos hqb] at hread
        exact ⟨hqb, hv0, hone, hread.symm⟩
      · rw [if_neg hqb] at hread
        exact absurd (Int.natAbs_eq_zero.mp hread.symm) hw0
    · rintro ⟨hqb, -, -, hm0⟩
      refine hzero (UInt32.toNat_inj.mp ?_)
      rw [hread, if_pos hqb, hm0]
      rfl
  · refine ⟨σ', hrun, iff_of_false (hundisturbed hquiet) ?_⟩
    rintro ⟨-, hv0, hone, -⟩
    rcases hcond with hzero | hlong
    · exact hv0 hzero
    · omega

theorem divRaises_iff (h : σ.Wf) (hq : q < σ.live) (hr : r < σ.live) (ha : a < σ.live)
    (hb : b < σ.live) (hqr : q ≠ r) (hv : σ.num a = Num.ofInt v) (hw : σ.num b = Num.ofInt w)
    (hw0 : w ≠ 0) : σ.DivRaises q r a b ↔
      q = b ∧ v ≠ 0 ∧ w.natAbs < 2 ^ 32 ∧ v.natAbs % 2 ^ 32 = 0 := by
  obtain ⟨σ', hrun, hiff⟩ := div_status_iff (σ := σ.setStatus .success) h hq hr ha hb hqr hv hw hw0
    (by rintro ⟨⟩)
  rw [← hiff]
  constructor
  · rintro ⟨σ₁, hrun₁, hraised⟩
    obtain rfl := Option.some.inj (hrun.symm.trans hrun₁)
    exact hraised
  · exact fun hraised => ⟨σ', hrun, hraised⟩

/-- Division with any aliasing of its results comes out right exactly when `QuotientFits`. -/
theorem div_divides_iff (h : σ.Wf) (hq : q < σ.live) (hr : r < σ.live) (ha : a < σ.live)
    (hb : b < σ.live) (hqr : q ≠ r) (hv : σ.num a = Num.ofInt v) (hw : σ.num b = Num.ofInt w)
    (hw0 : w ≠ 0) :
    ∃ σ', σ.div q r a b = some σ' ∧
      (StoresDivision q r v w σ' ∧ ¬ σ.DivRaises q r a b ↔ QuotientFits q b v w) := by
  rw [divRaises_iff h hq hr ha hb hqr hv hw hw0]
  obtain ⟨σ', hrun, ⟨hv0, hone, rfl⟩ | ⟨hcond, hres, -⟩⟩ := div_cases h hq hr ha hb hqr hv hw hw0
  · refine ⟨_, hrun, ?_⟩
    have ho := operands_spec h ha hb
    have hlive := ho.live
    have hwf := ho.keeps.good.wf
    have hv' := (ho.keeps.num a ha fun hf => hf).trans hv
    have hw' := (ho.keeps.num b hb fun hf => hf).trans hw
    -- the locals do not show in the numbers of the caller
    have hclose : StoresDivision q r v w
        (((σ.operands a b).divOneLimb q r a b v.sign w.sign).popTo σ.live) ↔
        StoresDivision q r v w ((σ.operands a b).divOneLimb q r a b v.sign w.sign) := Iff.rfl
    rw [hclose]
    by_cases hqb : q = b
    · subst hqb
      have hfits : QuotientFits q q v w ↔ v.natAbs % 2 ^ 32 = w.natAbs := by
        unfold QuotientFits
        rw [eq_self_iff_true, true_implies, or_iff_right hv0, or_iff_right (by omega)]
      rw [hfits]
      by_cases hm0 : v.natAbs % 2 ^ 32 = 0
      · refine iff_of_false (fun hboth => hboth.2 ⟨rfl, hv0, hone, hm0⟩) ?_
        omega
      · rw [overwritten_iff hwf (by omega) (by omega) (by omega) hqr hv' hv0 hw0 hm0,
          and_iff_left fun hraised => hm0 hraised.2.2.2]
    · have hm := toNat_readLimb hwf (q := q) (by omega) (by omega) (by omega) hv' hw' hv0 hw0 hone
      rw [if_neg hqb] at hm
      have hdivided := divOneLimb_exact hwf (q := q) (r := r) (by omega) (by omega) (by omega)
        hqr hv' hv0 hw0 hm
      exact iff_of_true ⟨hdivided, fun hraised => hqb hraised.1⟩ fun he => absurd he hqb
  · refine ⟨σ', hrun, iff_of_true ⟨hres, ?_⟩ fun _ => ?_⟩
    · rintro ⟨-, hv0, hone, -⟩
      rcases hcond with hzero | hlong
      · exact hv0 hzero
      · omega
    · rcases hcond with hv0 | hlong
      · exact Or.inl hv0
      · exact Or.inr (Or.inl hlong)

/-- What a result in an operand comes to: products and divisions are right, and the process goes on,
exactly when `LeftFits`, `RightFits` and `QuotientFits`. -/
theorem results_in_operands (h : σ.Wf) (ha : a < σ.live) (hb : b < σ.live)
    (hca : (σ.num a).Canon) (hcb : (σ.num b).Canon) :
    (∃ σ', σ.mul a a b = some σ' ∧
      (σ'.num a = Num.ofInt ((σ.num a).toInt * (σ.num b).toInt) ↔
        a = b ∨ LeftFits (σ.num a).toInt (σ.num b).toInt)) ∧
    (∃ σ', σ.mul b a b = some σ' ∧
      (σ'.num b = Num.ofInt ((σ.num a).toInt * (σ.num b).toInt) ↔
        a = b ∨ RightFits (σ.num a).toInt (σ.num b).toInt)) ∧
    ∀ q r, q < σ.live → r < σ.live → q ≠ r → (σ.num b).toInt ≠ 0 →
      ∃ σ', σ.div q r a b = some σ' ∧
        (StoresDivision q r (σ.num a).toInt (σ.num b).toInt σ' ∧ ¬ σ.DivRaises q r a b ↔
          QuotientFits q b (σ.num a).toInt (σ.num b).toInt) := by
  have hv := hca.eq_ofInt
  have hw := hcb.eq_ofInt
  have hsame : a = b → (σ.num b).toInt = (σ.num a).toInt := fun he => by rw [he]
  refine ⟨?_, ?_, fun q r hq hr hqr hw0 => div_divides_iff h hq hr ha hb hqr hv hw hw0⟩
  · obtain ⟨σ', hrun, hnum⟩ := mulFuel_stores h ha ha hb hv hw (Nat.le_refl _)
    refine ⟨σ', hrun, ?_⟩
    rw [hnum]
    by_cases hab : a = b
    · rw [hsame hab]
      exact iff_of_true (mulStored_self rfl hab) (Or.inl hab)
    · rw [mulStored_left_iff rfl hab, or_iff_right hab]
  · obtain ⟨σ', hrun, hnum⟩ := mulFuel_stores h hb ha hb hv hw (Nat.le_refl _)
    refine ⟨σ', hrun, ?_⟩
    rw [hnum]
    by_cases hab : a = b
    · rw [hsame hab]
      exact iff_of_true (mulStored_self hab.symm rfl) (Or.inl hab)
    · rw [mulStored_right_iff (Ne.symm hab) rfl, or_iff_right hab]

/-- A negative left factor of one limb, and a quotient in a divisor that the dividend ends with. -/
theorem results_in_operands_pair :
    (∃ σ', (pair (-3) (2 ^ 32 + 3)).mul 0 0 1 = some σ' ∧
      σ'.num 0 = Num.ofInt (-3 * (2 ^ 32 + 3))) ∧
    ∃ σ', (pair (-3) (2 ^ 32 + 3)).div 0 1 1 0 = some σ' ∧
      StoresDivision 0 1 (2 ^ 32 + 3) (-3) σ' ∧ ¬ (pair (-3) (2 ^ 32 + 3)).DivRaises 0 1 1 0 := by
  obtain ⟨hwf, hlive, h0, h1⟩ := pair_spec (-3) (2 ^ 32 + 3)
  rw [Num.ofI64_eq (by decide) (by decide)] at h0 h1
  have hc0 : ((pair (-3) (2 ^ 32 + 3)).num 0).Canon := h0 ▸ Num.ofInt_canon _
  have hc1 : ((pair (-3) (2 ^ 32 + 3)).num 1).Canon := h1 ▸ Num.ofInt_canon _
  obtain ⟨σ₁, hmul, hmulIff⟩ :=
    (results_in_operands hwf (a := 0) (b := 1) (by omega) (by omega) hc0 hc1).1
  obtain ⟨σ₂, hdiv, hdivIff⟩ :=
    (results_in_operands hwf (a := 1) (b := 0) (by omega) (by omega) hc1 hc0).2.2 0 1 (by omega)
      (by omega) (by decide) (by rw [h0, Num.toInt_ofInt]; decide)
  rw [h0, h1, Num.toInt_ofInt, Num.toInt_ofInt] at hmulIff hdivIff
  refine ⟨⟨σ₁, hmul, hmulIff.mpr (Or.inr ⟨by decide, ?_⟩)⟩, σ₂, hdiv, hdivIff.mpr fun _ => ?_⟩
  · rintro ⟨hlong, -⟩
    exact absurd hlong.two_limbs.1 (by decide)
  · exact Or.inr (Or.inr (by decide))

/-- The left factor five is overwritten and read again as the low limb of `2 ^ 32`, which is zero. -/
theorem product_in_operand_wrong : ∃ σ', (pair 5 (2 ^ 32)).mul 0 0 1 = some σ' ∧
    σ'.num 0 ≠ Num.ofInt (5 * 2 ^ 32) := by
  obtain ⟨hwf, hlive, h0, h1⟩ := pair_spec 5 (2 ^ 32)
  rw [Num.ofI64_eq (by decide) (by decide)] at h0 h1
  obtain ⟨σ', hrun, hnum⟩ := mulFuel_stores hwf (show 0 < _ by omega) (show 0 < _ by omega)
    (show 1 < _ by omega) h0 h1 (Nat.le_refl _)
  refine ⟨σ', hrun, fun hexact => ?_⟩
  rw [hnum, mulStored_left_iff rfl (by decide)] at hexact
  exact hexact.1 (by decide)

end Store

end PGBigNumber
