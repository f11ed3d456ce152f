import PGBigNumber.Store.DivAssign
import PGBigNumber.Store.Mul

/-!
# The machine integer overloads

The overloads work on the number that `assign(std::int64_t)` stores. For `2 ^ 32 - 1` and its
negative that number has a zero limb on top, and each operation tells it from the canonical one
for some operands.
-/

namespace PGBigNumber

namespace Num

variable {k v : Int} {l : List UInt32}

private theorem mag_topLimbZero : mag [0xffffffff, 0] = 2 ^ 32 - 1 := rfl

theorem signedInt_topLimbZero (hk : TopLimbZero k) :
    signedInt (decide (0 < k)) [0xffffffff, 0] = k := by
  unfold TopLimbZero at hk
  rw [signedInt, mag_topLimbZero]
  by_cases hpos : 0 < k
  · rw [if_pos (decide_eq_true hpos)]
    omega
  · rw [if_neg (by simpa using hpos)]
    omega

theorem cmpLimbs_topLimbZero (ht : Trimmed l) :
    cmpLimbs l [0xffffffff, 0] = if l.length ≤ 1 then -1 else 1 := by
  rw [cmpLimbs, show ([0xffffffff, 0] : List UInt32).length = 2 from rfl]
  rcases Nat.lt_trichotomy l.length 2 with hlt | heq | hgt
  · rw [if_pos hlt, if_pos (by omega)]
  · rw [if_neg (by omega), if_neg (by omega), if_neg (by omega)]
    obtain ⟨a, b, rfl⟩ := List.length_eq_two.mp heq
    have hb : b ≠ 0 := fun h0 => ht (by rw [h0]; rfl)
    have hlt : ¬ b < 0 := by
      rw [UInt32.lt_iff_toNat_lt]
      exact Nat.not_lt_zero _
    simp only [List.reverse_cons, List.reverse_nil, List.nil_append, List.singleton_append, cmpLoop]
    rw [if_pos hb, if_neg hlt]
  · rw [if_neg (by omega), if_pos hgt, if_neg (by omega)]

theorem length_le_one_iff (ht : Trimmed l) : l.length ≤ 1 ↔ mag l < 2 ^ 32 := by
  constructor
  · intro hlen
    have hlt := mag_lt l
    exact Nat.lt_of_lt_of_le hlt (by
      simpa using Nat.pow_le_pow_right (show 0 < 2 ^ 32 by decide) hlen)
  · intro hmag
    by_contra hlen
    have hpow := ht.pow_le (List.ne_nil_of_length_pos (by omega))
    have hmono := Nat.pow_le_pow_right (show 0 < 2 ^ 32 by decide) (show 1 ≤ l.length - 1 by omega)
    rw [Nat.pow_one] at hmono
    omega

theorem cmpLimbs_ofInt_topLimbZero (v : Int) :
    cmpLimbs (ofInt v).limbs [0xffffffff, 0] = if v.natAbs < 2 ^ 32 then -1 else 1 := by
  have ht : Trimmed (ofInt v).limbs := trimmed_limbsOf _
  rw [cmpLimbs_topLimbZero ht]
  simp only [length_le_one_iff ht, mag_ofInt]

theorem cmpLimbs_by_value (ht : Trimmed l) (hne : mag l ≠ 2 ^ 32 - 1) :
    cmpLimbs l [0xffffffff, 0] =
      if mag l < mag [0xffffffff, 0] then -1 else if mag l = mag [0xffffffff, 0] then 0 else 1 := by
  rw [cmpLimbs_topLimbZero ht, mag_topLimbZero]
  simp only [length_le_one_iff ht]
  by_cases hlt : mag l < 2 ^ 32
  · rw [if_pos hlt, if_pos (by omega)]
  · rw [if_neg hlt, if_neg (by omega), if_neg hne]

private theorem trimmed_sum (hl : l ≠ []) (ht : Trimmed l) :
    Trimmed (addLimbs l [0xffffffff, 0]) := by
  have hpos := ht.mag_pos hl
  apply trimmed_addLimbs_of_le
  intro _
  rw [mag_topLimbZero, show ([0xffffffff, 0] : List UInt32).length = 2 from rfl]
  by_cases hlen : l.length ≤ 2
  · rw [Nat.max_eq_right hlen]
    omega
  · rw [Nat.max_eq_left (by omega)]
    exact Nat.le_add_right_of_le (ht.pow_le hl)

theorem ofI64_not_canon (hk : TopLimbZero k) : ¬ (ofI64 k).Canon := by
  intro hc
  have ht := hc.trimmed
  rw [ofI64_topLimbZero hk] at ht
  exact ht rfl

theorem add_topLimbZero (hk : TopLimbZero k) (h0 : v ≠ 0) (hne : v ≠ -k) :
    add (ofInt v) (ofI64 k) = ofInt (v + k) := by
  have hkv := signedInt_topLimbZero hk
  rw [ofI64_topLimbZero hk]
  rcases ofInt_cases v with ⟨rfl, -⟩ | ⟨s, l, hl, ht, rfl, hv⟩
  · exact absurd rfl h0
  rw [hv, add_signed s _ (ht.mag_pos hl) (trimmed_sum hl ht), hkv]
  intro hst
  refine cmpLimbs_by_value ht fun hmag => hne ?_
  unfold TopLimbZero at hk
  unfold signedInt at hkv ⊢
  rw [hmag]
  rw [mag_topLimbZero] at hkv
  cases s <;> by_cases hpos : 0 < k <;> simp [hpos] at hst ⊢ <;> omega

theorem sub_topLimbZero (hk : TopLimbZero k) (h0 : v ≠ 0) (hne : v ≠ k) :
    sub (ofInt v) (ofI64 k) = ofInt (v - k) := by
  have hkv := signedInt_topLimbZero hk
  rw [ofI64_topLimbZero hk]
  rcases ofInt_cases v with ⟨rfl, -⟩ | ⟨s, l, hl, ht, rfl, hv⟩
  · exact absurd rfl h0
  rw [hv, sub_signed s _ (ht.mag_pos hl) (trimmed_sum hl ht), hkv]
  intro hst
  refine cmpLimbs_by_value ht fun hmag => hne ?_
  unfold TopLimbZero at hk
  unfold signedInt
  rw [hmag, hst]
  by_cases hpos : 0 < k <;> simp [hpos] <;> omega

theorem cmp_topLimbZero (hk : TopLimbZero k) :
    cmp (ofInt v) (ofI64 k) = cmp (ofInt v) (ofInt k) ↔ v ≠ k := by
  have hkv := signedInt_topLimbZero hk
  rcases ofInt_cases k with ⟨rfl, -⟩ | ⟨t, m, -, htm, rfl, hw⟩
  · exact absurd hk (by decide)
  have hm : mag m = 2 ^ 32 - 1 := by
    unfold TopLimbZero signedInt at hk
    split at hk <;> omega
  have ht' : decide (0 < signedInt t m) = t := by
    unfold signedInt
    cases t
    · simp
    · simp
      omega
  rw [ofI64_topLimbZero hk, hw, ht']
  rcases ofInt_cases v with ⟨rfl, hv⟩ | ⟨s, l, hl, htl, rfl, hv⟩
  · rw [hv]
    refine ⟨fun _ h0 => absurd h0 ?_, fun _ => by cases t <;> rfl⟩
    unfold signedInt
    cases t <;> simp <;> omega
  rw [hv]
  have hpos := htl.mag_pos hl
  unfold cmp
  simp only [signed_signum, signed_limbs]
  by_cases hst : s = t
  · subst hst
    have heq : signedInt s l = signedInt s m ↔ mag l = mag m := by
      unfold signedInt
      cases s <;> simp
    rw [Ne, heq, cmpLimbs_spec htl htm]
    by_cases hne : mag l = mag m
    · have hone : l.length ≤ 1 := (length_le_one_iff htl).mpr (by omega)
      rw [cmpLimbs_topLimbZero htl, if_pos hone, if_neg (by omega), if_pos hne]
      cases s <;> simp [hne]
    · rw [cmpLimbs_by_value htl (by omega), mag_topLimbZero, ← hm]
      exact ⟨fun _ => hne, fun _ => rfl⟩
  · have hne : signedInt s l ≠ signedInt t m := by
      unfold signedInt
      cases s <;> cases t <;> simp at hst ⊢ <;> omega
    refine ⟨fun _ => hne, fun _ => ?_⟩
    cases s <;> cases t <;> simp at hst ⊢

theorem mulSmall_topLimbZero (hk : TopLimbZero k) (hne : v.natAbs ≠ 1) :
    mulSmall (ofInt v) (ofI64 k) = ofInt (v * k) := by
  have hkv := signedInt_topLimbZero hk
  rw [ofI64_topLimbZero hk]
  rcases ofInt_cases v with ⟨rfl, hv⟩ | ⟨s, l, hl, ht, rfl, hv⟩
  · rw [hv, mulSmall, zero_sign_zero, Int.zero_mul, ← zero_eq_ofInt]
    rfl
  have hone : (ofInt (signedInt s l)).isOne ≠ true := fun h => hne (by
    rw [(isOne_ofInt _).mp h]; rfl)
  have hneg : (ofInt (signedInt s l)).isNegOne ≠ true := fun h => hne (by
    rw [(isNegOne_ofInt _).mp h]; rfl)
  rw [hv] at hone hneg
  have hmag1 : mag l ≠ 1 := fun h1 => hne (by unfold signedInt; rw [h1]; cases s <;> rfl)
  have hpos := ht.mag_pos hl
  have hprod : mag (prodLimbs l [0xffffffff, 0]) = mag l * mag [0xffffffff, 0] ∧
      Trimmed (prodLimbs l [0xffffffff, 0]) := by
    unfold prodLimbs
    rw [if_neg (by decide)]
    by_cases hlen : l.length = 1
    · obtain ⟨x, rfl⟩ := List.length_eq_one_iff.mp hlen
      rw [mag_singleton] at hmag1 hpos ⊢
      rw [if_pos hlen, List.getD_cons_zero]
      refine ⟨by rw [mag_mulLimb, Nat.mul_comm], trimmed_mulLimb_of_le fun _ => ?_⟩
      rw [mag_topLimbZero]
      change (2 ^ 32) ^ 1 ≤ _
      omega
    · rw [if_neg hlen]
      exact ⟨(mag_trim _).trans (mag_mulLimbs _ _), trimmed_trim _⟩
  rw [hv, mulSmall, signed_zero, signed_zero, if_neg (by decide), if_neg (by simp [isOne]),
    if_neg (by simp [isNegOne]), if_neg hone, if_neg hneg]
  simp only [signed_sign_eq_iff, signed_limbs]
  have hm := signed_mul s (decide (0 < k)) hprod.1 (by
    rw [hprod.1, mag_topLimbZero]
    omega) hprod.2
  rw [hkv] at hm
  exact hm

theorem add_zero_topLimbZero (hk : TopLimbZero k) : add (ofInt 0) (ofI64 k) = ofI64 k := by
  rw [ofI64_topLimbZero hk, ← zero_eq_ofInt, add, signed_zero, if_neg (by decide), zero_sign_zero,
    if_pos rfl]

theorem mulSmall_one_topLimbZero (hk : TopLimbZero k) (h1 : v.natAbs = 1) :
    ¬ (mulSmall (ofInt v) (ofI64 k)).Canon := by
  have hbad : ∀ s, ¬ (signed s [0xffffffff, 0]).Canon := fun s hc => hc.trimmed rfl
  have hv : v = 1 ∨ v = -1 := by omega
  rw [ofI64_topLimbZero hk, mulSmall, signed_zero]
  rcases hv with rfl | rfl
  · rw [← one_eq_ofInt, if_neg (by decide), if_neg (by simp [isOne]), if_neg (by simp [isNegOne]),
      if_pos (by decide)]
    exact hbad _
  · rw [← negOne_eq_ofInt, if_neg (by decide), if_neg (by simp [isOne]), if_neg (by simp [isNegOne]),
      if_neg (by decide), if_pos (by decide), negate_signed]
    exact hbad _

theorem topLimbZero_iff : TopLimbZero k ↔ k = 2 ^ 32 - 1 ∨ k = -(2 ^ 32 - 1) := by
  unfold TopLimbZero
  omega

theorem add_neg_topLimbZero (hk : TopLimbZero k) : ¬ (add (ofInt (-k)) (ofI64 k)).Canon := by
  rcases topLimbZero_iff.mp hk with rfl | rfl <;> decide +kernel

theorem sub_self_topLimbZero (hk : TopLimbZero k) : ¬ (sub (ofInt k) (ofI64 k)).Canon := by
  rcases topLimbZero_iff.mp hk with rfl | rfl <;> decide +kernel

theorem sub_zero_topLimbZero (hk : TopLimbZero k) : ¬ (sub (ofInt 0) (ofI64 k)).Canon := by
  rcases topLimbZero_iff.mp hk with rfl | rfl <;> decide +kernel

theorem add_ofI64_canon_iff {x : Num} (hk : InI64 k) (hx : x.Canon) :
    (add x (ofI64 k)).Canon ↔ (TopLimbZero k → x.toInt ≠ 0 ∧ x.toInt ≠ -k) := by
  obtain ⟨v, rfl⟩ : ∃ v, x = ofInt v := ⟨_, hx.eq_ofInt⟩
  rw [toInt_ofInt]
  by_cases htop : TopLimbZero k
  · constructor
    · intro hc _
      constructor
      · intro h0
        rw [h0, add_zero_topLimbZero htop] at hc
        exact ofI64_not_canon htop hc
      · intro hneg
        rw [hneg] at hc
        exact add_neg_topLimbZero htop hc
    · intro hne
      obtain ⟨h0, hneg⟩ := hne htop
      rw [add_topLimbZero htop h0 hneg]
      exact ofInt_canon _
  · rw [ofI64_eq hk htop, add_ofInt]
    exact iff_of_true (ofInt_canon _) fun h => absurd h htop

theorem sub_ofI64_canon_iff {x : Num} (hk : InI64 k) (hx : x.Canon) :
    (sub x (ofI64 k)).Canon ↔ (TopLimbZero k → x.toInt ≠ 0 ∧ x.toInt ≠ k) := by
  obtain ⟨v, rfl⟩ : ∃ v, x = ofInt v := ⟨_, hx.eq_ofInt⟩
  rw [toInt_ofInt]
  by_cases htop : TopLimbZero k
  · constructor
    · intro hc _
      constructor
      · intro h0
        rw [h0] at hc
        exact sub_zero_topLimbZero htop hc
      · intro heq
        rw [heq] at hc
        exact sub_self_topLimbZero htop hc
    · intro hne
      obtain ⟨h0, heq⟩ := hne htop
      rw [sub_topLimbZero htop h0 heq]
      exact ofInt_canon _
  · rw [ofI64_eq hk htop, sub_ofInt]
    exact iff_of_true (ofInt_canon _) fun h => absurd h htop

theorem mulSmall_ofI64_canon_iff {x : Num} (hk : InI64 k) (hx : x.Canon) :
    (mulSmall x (ofI64 k)).Canon ↔ (TopLimbZero k → x.toInt.natAbs ≠ 1) := by
  obtain ⟨v, rfl⟩ : ∃ v, x = ofInt v := ⟨_, hx.eq_ofInt⟩
  rw [toInt_ofInt]
  by_cases htop : TopLimbZero k
  · constructor
    · intro hc _ h1
      exact mulSmall_one_topLimbZero htop h1 hc
    · intro hne
      rw [mulSmall_topLimbZero htop (hne htop)]
      exact ofInt_canon _
  · rw [ofI64_eq hk htop, mulSmall_ofInt]
    exact iff_of_true (ofInt_canon _) fun h => absurd h htop

end Num

namespace Store

variable {σ σ₁ σ₂ : Store} {i j q r a b : Nat} {k v : Int}

private theorem divPaths_topLimbZero (h : σ.Wf) (ha : a < σ.live) (hb : b < σ.live)
    (hk : Num.TopLimbZero k) (hv : σ.num a = Num.ofInt v) (hb' : σ.num b = Num.ofI64 k) :
    (σ.operands a b).divPaths q r a b σ.live =
      if v = 0 then some (((σ.operands a b).beZero q).beZero r)
      else if v.natAbs < 2 ^ 32 then
        some ((σ.operands a b).divNotGreater q r σ.live (-1) v.sign (if 0 < k then 1 else -1))
      else (σ.operands a b).divKnuth q r σ.live v.sign (if 0 < k then 1 else -1) := by
  have ho := operands_spec h ha hb
  set τ := σ.operands a b
  have hlive := ho.live
  have hwf := ho.keeps.good.wf
  have hold : ∀ j < σ.live, τ.num j = σ.num j := fun j hj => ho.keeps.num j hj fun hf => hf
  have hsa : (τ.sign a).signum = v.sign := by
    rw [← num_sign, hold a ha, hv, Num.signum_ofInt]
  have hnb : τ.num b = Num.signed (decide (0 < k)) [0xffffffff, 0] := by
    rw [hold b hb, hb', Num.ofI64_topLimbZero hk]
  have hsb : (τ.sign b).signum = if 0 < k then 1 else -1 := by
    rw [← num_sign, hnb, Num.signed_signum]
    simp only [decide_eq_true_eq]
  have hcb : (τ.mag b).count = 2 := by
    rw [← hwf.length_limbs (by omega), ← num_limbs, hnb]
    rfl
  have hcmp : τ.cmp σ.live (σ.live + 1) = if v.natAbs < 2 ^ 32 then -1 else 1 := by
    rw [cmp_operands hwf (by omega) (by omega) (by rw [← num_sign, ho.dividend])
      (by rw [← num_sign, ho.divisor]), ← num_limbs, ho.dividend, ← num_limbs (i := σ.live + 1),
      ho.divisor, ← num_limbs, ← num_limbs, hv, hb', Num.ofI64_topLimbZero hk, Num.signed_limbs]
    exact Num.cmpLimbs_ofInt_topLimbZero v
  rw [divPaths, hsa, hsb, hcb, hcmp]
  dsimp only
  rw [if_neg (show ¬ (if 0 < k then (1 : Int) else -1) = 0 by split <;> decide),
    if_neg (by decide : ¬ 2 = 1)]
  simp only [Int.sign_eq_zero_iff_zero]
  by_cases hlt : v.natAbs < 2 ^ 32
  · simp only [if_pos hlt, if_pos (show (-1 : Int) ≤ 0 by decide)]
  · simp only [if_neg hlt, if_neg (show ¬ (1 : Int) ≤ 0 by decide)]

theorem dividesTo_topLimbZero (hk : Num.TopLimbZero k) (hlt : v.natAbs < 2 ^ 32) :
    DividesTo v (Num.ofI64 k) 0 v := by
  intro σ q r a b h hq hr ha hb hqr hqb hv hb'
  have ho := operands_spec h ha hb
  have hpaths := divPaths_topLimbZero (q := q) (r := r) h ha hb hk hv hb'
  have hlive := ho.live
  have hwf := ho.keeps.good.wf
  by_cases h0 : v = 0
  · rw [if_pos h0] at hpaths
    have h₁ := Puts.beZero (i := q) (R := fun _ => False) hwf
    have h₂ := Puts.beZero (i := r) (R := fun _ => False) h₁.wf
    refine ⟨_, by rw [div, hpaths, Option.map_some], ?_, ?_⟩
    · exact (h₂.num_ne (by rw [h₁.live]; omega) hqr).trans (h₁.num.trans Num.zero_eq_ofInt)
    · rw [h0]
      exact h₂.num.trans Num.zero_eq_ofInt
  rw [if_neg h0, if_pos hlt] at hpaths
  obtain ⟨hnq, hnr⟩ := divNotGreater_num (q := q) (r := r) (n := σ.live) hwf (by omega) (by omega)
    hqr (by omega) (-1) v.sign (if 0 < k then 1 else -1)
  refine ⟨_, by rw [div, hpaths, Option.map_some], ?_, ?_⟩
  · apply hnq.trans
    rw [if_neg (by decide)]
    exact Num.zero_eq_ofInt
  · apply hnr.trans
    rw [if_neg (by decide), ← num_limbs, ho.dividend, ← num_limbs, hv]
    rcases Int.lt_or_gt_of_ne h0 with hneg | hpos
    · rw [Int.sign_eq_neg_one_of_neg hneg, if_neg (by decide), Num.ofInt_neg hneg]
    · rw [Int.sign_eq_one_of_pos hpos, if_pos (by decide), Num.ofInt_pos hpos]

/-- With more limbs the normalising loop does not end. -/
theorem div_topLimbZero_none (hk : Num.TopLimbZero k) (hge : 2 ^ 32 ≤ v.natAbs) (h : σ.Wf)
    (ha : a < σ.live) (hb : b < σ.live) (hv : σ.num a = Num.ofInt v)
    (hb' : σ.num b = Num.ofI64 k) : σ.div q r a b = none := by
  have ho := operands_spec h ha hb
  have hpaths := divPaths_topLimbZero (q := q) (r := r) h ha hb hk hv hb'
  have hlive := ho.live
  have hwf := ho.keeps.good.wf
  rw [if_neg (by omega), if_neg (by omega)] at hpaths
  have hlimbs_b : σ.limbs b = [0xffffffff, 0] := by
    rw [← num_limbs, hb', Num.ofI64_topLimbZero hk, Num.signed_limbs]
  have hlv : (σ.operands a b).limbs (σ.live + 1) = [0xffffffff, 0] := by
    rw [← num_limbs, ho.divisor, hlimbs_b]
  have hln : (σ.operands a b).limbs σ.live = (Num.ofInt v).limbs := by
    rw [← num_limbs, ho.dividend, ← num_limbs, hv]
  have hcount : ((σ.operands a b).mag (σ.live + 1)).count ≤ ((σ.operands a b).mag σ.live).count := by
    rw [← hwf.length_limbs (by omega), ← hwf.length_limbs (by omega), hln, hlv]
    apply length_le_of_cmpLimbs
    rw [Num.cmpLimbs_ofInt_topLimbZero, if_neg (by omega)]
    decide
  rw [div, hpaths]
  cases hrun : (σ.operands a b).divKnuth q r σ.live v.sign (if 0 < k then 1 else -1) with
  | none => rfl
  | some σ' =>
      have ht := (divKnuth_trimmed hwf hlive (by rw [← num_sign, ho.dividend]) hcount hrun).2
      rw [hlv] at ht
      exact absurd rfl ht

theorem dividesCanon_ofI64 (hk : Num.InI64 k) (v : Int) : DividesCanon v (Num.ofI64 k) := by
  rcases Decidable.em (Num.TopLimbZero k) with htop | htop
  · intro σ σ₁ q r a b h hq hr ha hb hqr hv hb' hcq _ hrun
    by_cases hlt : v.natAbs < 2 ^ 32
    · have hqb : q ≠ b := fun he => Num.ofI64_not_canon htop (hb' ▸ he ▸ hcq)
      obtain ⟨σ₂, hrun₂, hnq, hnr⟩ := dividesTo_topLimbZero htop hlt h hq hr ha hb hqr
        (fun he => absurd he hqb) hv hb'
      obtain rfl := Option.some.inj (hrun.symm.trans hrun₂)
      exact ⟨hnq ▸ Num.ofInt_canon 0, hnr ▸ Num.ofInt_canon v⟩
    · rw [div_topLimbZero_none htop (by omega) h ha hb hv hb'] at hrun
      exact absurd hrun (by simp)
  · rw [Num.ofI64_eq hk htop]
    exact dividesCanon_ofInt v k

theorem divAssignI64_num {u w : Int} (hd : DividesTo v (Num.ofI64 k) u w) (h : σ.Wf)
    (hi : i < σ.live) (hv : σ.num i = Num.ofInt v) :
    ∃ σ', σ.divAssignI64 i k = some σ' ∧ σ'.num i = Num.ofInt u := by
  have hp := pushI64_pushes (R := fun _ => False) h k
  have hlp := hp.live
  obtain ⟨σ₂, hrun₂, hn⟩ := divAssign_num hd hp.wf (i := i) (j := σ.live) (by omega) (by omega)
    ((hp.num_old hi).trans hv) hp.num
  obtain ⟨σ', hrun, hnum⟩ := withI64_num (f := fun σ temp => σ.divAssign i temp) hrun₂
  exact ⟨σ', hrun, (hnum i).trans hn⟩

theorem divAssignI64_canon (hk : Num.InI64 k) (h : σ.Wf) (hi : i < σ.live)
    (hv : σ.num i = Num.ofInt v) (hrun : σ.divAssignI64 i k = some σ₁) : (σ₁.num i).Canon := by
  have hp := pushI64_pushes (R := fun _ => False) h k
  have hlp := hp.live
  obtain ⟨σ₂, hrun₂, rfl⟩ := Option.map_eq_some_iff.mp hrun
  have hc := divAssign_canon (dividesCanon_ofI64 hk v) hp.wf (i := i) (j := σ.live) (by omega)
    (by omega) ((hp.num_old hi).trans hv) hp.num hrun₂
  exact hc

theorem divAssignI64_none (hk : Num.TopLimbZero k) (hge : 2 ^ 32 ≤ v.natAbs) (h : σ.Wf)
    (hi : i < σ.live) (hv : σ.num i = Num.ofInt v) : σ.divAssignI64 i k = none := by
  have hp := pushI64_pushes (R := fun _ => False) h k
  have h₁ := pushDefault_pushes (R := fun _ => False) hp.wf
  have h₂ := pushDefault_pushes (R := fun _ => False) h₁.wf
  have hlp := hp.live
  have hl₁ := h₁.live
  have hl₂ := h₂.live
  have hnone := div_topLimbZero_none (q := (σ.pushI64 k).live + 1) (r := (σ.pushI64 k).live) hk hge
    h₂.wf (a := i) (b := σ.live) (by omega) (by omega)
    ((h₂.num_old (by omega)).trans ((h₁.num_old (by omega)).trans ((hp.num_old hi).trans hv)))
    ((h₂.num_old (by omega)).trans ((h₁.num_old (by omega)).trans hp.num))
  simp only [divAssignI64, withI64, divAssign, Option.bind_eq_bind, hnone, Option.bind_none,
    Option.map_none]

/-- Both runs return, with the same numbers in the objects of `l`. -/
def SameNums (l : List Nat) (run run' : Option Store) : Prop :=
  ∃ τ τ', run = some τ ∧ run' = some τ' ∧ ∀ m ∈ l, τ.num m = τ'.num m

/-- The overloads for the machine integer `k` do to object `i` what those for object `j` do; `o` is
the out-parameter. -/
structure OverloadsAgree (σ : Store) (i j o : Nat) (k : Int) : Prop where
  cmp : σ.cmpI64 i k = σ.cmp i j
  equal : σ.cmpI64 i k = 0 ↔ (σ.num i).toInt = k
  addAssign : (σ.addAssignI64 i k).num i = (σ.addAssign i j).num i
  subAssign : (σ.subAssignI64 i k).num i = (σ.subAssign i j).num i
  mulAssign : SameNums [i] (σ.mulAssignI64 i k) (σ.mulAssign i j)
  divAssign : k ≠ 0 → SameNums [i] (σ.divAssignI64 i k) (σ.divAssign i j)
  divideAssignAndReminder : k ≠ 0 →
    SameNums [i, o] (σ.divideAssignAndReminderI64 i k o) (σ.divideAssignAndReminder i j o)
  modAssignAndQuotient : k ≠ 0 →
    SameNums [i, o] (σ.modAssignAndQuotientI64 i k o) (σ.modAssignAndQuotient i j o)

/-- The operands for which the stored form of `k` passes for the integer. -/
def PassesFor (v k : Int) : Prop := ¬ Num.TopLimbZero k ∨ (2 ≤ v.natAbs ∧ v.natAbs ≤ 2 ^ 32 - 2)

private theorem dividesTo_ofI64 (hk : Num.InI64 k) (hvk : PassesFor v k) (h0 : k ≠ 0) :
    DividesTo v (Num.ofI64 k) (v.tdiv k) (v.tmod k) := by
  rcases hvk with htop | ⟨-, hle⟩
  · rw [Num.ofI64_eq hk htop]
    exact dividesTo_ofInt h0
  · rcases Decidable.em (Num.TopLimbZero k) with htop | htop
    · have hlt : v.natAbs < k.natAbs := by
        rw [htop]
        omega
      have hquot : v.tdiv k = 0 := by
        have habs : (v.tdiv k).natAbs = 0 := by
          rw [Int.natAbs_tdiv]
          exact Nat.div_eq_of_lt hlt
        omega
      have hmod : v.tmod k = v := by
        have := Int.mul_tdiv_add_tmod v k
        rw [hquot] at this
        omega
      rw [hquot, hmod]
      exact dividesTo_topLimbZero htop (by omega)
    · rw [Num.ofI64_eq hk htop]
      exact dividesTo_ofInt h0

private theorem overloadsAgree_of_passes {o : Nat} (h : σ.Wf) (hi : i < σ.live) (hj : j < σ.live)
    (ho : o < σ.live) (hoi : o ≠ i) (hoj : o ≠ j) (hv : σ.num i = Num.ofInt v) (hk : Num.InI64 k)
    (hw : σ.num j = Num.ofInt k) (hvk : PassesFor v k) : OverloadsAgree σ i j o k := by
  have hcmp : Num.cmp (Num.ofInt v) (Num.ofI64 k) = Num.cmp (Num.ofInt v) (Num.ofInt k) := by
    rcases Decidable.em (Num.TopLimbZero k) with htop | htop
    · apply (Num.cmp_topLimbZero htop).mpr
      intro he
      have hr := hvk.resolve_left (not_not_intro htop)
      rw [he, htop] at hr
      omega
    · rw [Num.ofI64_eq hk htop]
  have hrange : Num.TopLimbZero k → v ≠ 0 ∧ v ≠ k ∧ v ≠ -k ∧ v.natAbs ≠ 1 := fun htop => by
    have hr := hvk.resolve_left (not_not_intro htop)
    unfold Num.TopLimbZero at htop
    omega
  have hadd : Num.add (Num.ofInt v) (Num.ofI64 k) = Num.ofInt (v + k) := by
    rcases Decidable.em (Num.TopLimbZero k) with htop | htop
    · exact Num.add_topLimbZero htop (hrange htop).1 (hrange htop).2.2.1
    · rw [Num.ofI64_eq hk htop, Num.add_ofInt]
  have hsub : Num.sub (Num.ofInt v) (Num.ofI64 k) = Num.ofInt (v - k) := by
    rcases Decidable.em (Num.TopLimbZero k) with htop | htop
    · exact Num.sub_topLimbZero htop (hrange htop).1 (hrange htop).2.1
    · rw [Num.ofI64_eq hk htop, Num.sub_ofInt]
  have hmul : Num.mulSmall (Num.ofInt v) (Num.ofI64 k) = Num.ofInt (v * k) := by
    rcases Decidable.em (Num.TopLimbZero k) with htop | htop
    · exact Num.mulSmall_topLimbZero htop (hrange htop).2.2.2
    · rw [Num.ofI64_eq hk htop, Num.mulSmall_ofInt]
  refine ⟨?_, ?_, ?_, ?_, ?_, fun h0 => ?_, fun h0 => ?_, fun h0 => ?_⟩
  · rw [cmpI64_eq h hi, cmp_eq h hi hj, hv, hw, hcmp]
  · rw [cmpI64_eq h hi, hv, hcmp, Num.cmp_ofInt, Num.toInt_ofInt]
    by_cases hlt : v < k
    · rw [if_pos hlt]
      exact ⟨fun hc => absurd hc (by decide), fun he => absurd he hlt.ne⟩
    · by_cases heq : v = k
      · rw [if_neg hlt, if_pos heq]
        exact ⟨fun _ => heq, fun _ => rfl⟩
      · rw [if_neg hlt, if_neg heq]
        exact ⟨fun hc => absurd hc (by decide), fun he => absurd he heq⟩
  · rw [(addAssignI64_puts h hi k).num, (addAssign_puts h hi hj).num, hv, hw, hadd, Num.add_ofInt]
  · rw [(subAssignI64_puts h hi k).num, (subAssign_puts h hi hj).num, hv, hw, hsub, Num.sub_ofInt]
  · obtain ⟨τ, hrun, hτ⟩ := mulAssignI64_puts h hi k
    obtain ⟨τ', hrun', hτ'⟩ := mulAssignFuel_puts h hi hj hv hw (Nat.le_refl _)
    refine ⟨τ, τ', hrun, hrun', fun m hm => ?_⟩
    rw [List.mem_singleton.mp hm, hτ.num, hτ'.num, hv, hmul]
  · have hd := dividesTo_ofI64 hk hvk h0
    obtain ⟨τ, hrun, hτ⟩ := divAssignI64_num hd h hi hv
    obtain ⟨τ', hrun', hτ'⟩ := divAssign_num (dividesTo_ofInt h0) h hi hj hv hw
    refine ⟨τ, τ', hrun, hrun', fun m hm => ?_⟩
    rw [List.mem_singleton.mp hm, hτ, hτ']
  · have hd := dividesTo_ofI64 hk hvk h0
    obtain ⟨τ, hrun, hτ, hτo⟩ := divideAssignAndReminderI64_num hd h hi ho hv
    obtain ⟨τ', hrun', hτ', hτo'⟩ :=
      divideAssignAndReminder_num (dividesTo_ofInt h0) h hi hj ho hv hw
    refine ⟨τ, τ', hrun, hrun', fun m hm => ?_⟩
    rcases List.mem_pair.mp hm with rfl | rfl
    · rw [hτ, hτ']
    · rw [hτo hoi, hτo' hoi]
  · have hd := dividesTo_ofI64 hk hvk h0
    obtain ⟨τ, hrun, hτ, hτo⟩ := modAssignAndQuotientI64_num hd h hi ho hv
    obtain ⟨τ', hrun', hτ', hτo'⟩ :=
      modAssignAndQuotient_num (dividesTo_ofInt h0) h hi hj ho (fun he => absurd he hoj) hv hw
    refine ⟨τ, τ', hrun, hrun', fun m hm => ?_⟩
    rcases List.mem_pair.mp hm with rfl | rfl
    · rw [hτ, hτ']
    · rw [hτo hoi, hτo' hoi]

/-- The overloads agree exactly where the stored form of `k` passes for the integer. -/
theorem int64_overloads_agree_iff {o : Nat} (h : σ.Wf) (hi : i < σ.live) (hj : j < σ.live)
    (ho : o < σ.live) (hoi : o ≠ i) (hoj : o ≠ j) (hc : (σ.num i).Canon) (hk : Num.InI64 k)
    (hw : σ.num j = Num.ofInt k) :
    OverloadsAgree σ i j o k ↔ PassesFor (σ.num i).toInt k := by
  have hv := hc.eq_ofInt
  generalize (σ.num i).toInt = v at hv
  refine ⟨fun hagree => ?_, fun hvk => overloadsAgree_of_passes h hi hj ho hoi hoj hv hk hw hvk⟩
  rcases Decidable.em (Num.TopLimbZero k) with htop | htop
  · have hk0 : k ≠ 0 := fun h0 => absurd htop (by rw [h0]; decide)
    refine Or.inr ⟨?_, ?_⟩
    · by_contra hlt
      rcases (by omega : v.natAbs = 0 ∨ v.natAbs = 1) with h0 | h1
      · have hadd := hagree.addAssign
        rw [(addAssignI64_puts h hi k).num, (addAssign_puts h hi hj).num, hv, hw,
          Int.natAbs_eq_zero.mp h0, Num.add_zero_topLimbZero htop, Num.add_ofInt] at hadd
        exact Num.ofI64_not_canon htop (hadd ▸ Num.ofInt_canon _)
      · obtain ⟨τ, τ', hrun, hrun', hnum⟩ := hagree.mulAssign
        obtain ⟨τ₁, hrun₁, hτ⟩ := mulAssignI64_puts h hi k
        obtain ⟨τ₁', hrun₁', hτ'⟩ := mulAssignFuel_puts h hi hj hv hw (Nat.le_refl _)
        obtain rfl := Option.some.inj (hrun.symm.trans hrun₁)
        obtain rfl := Option.some.inj (hrun'.symm.trans hrun₁')
        have hbad := hnum i (List.mem_singleton.mpr rfl)
        rw [hτ.num, hτ'.num, hv] at hbad
        exact Num.mulSmall_one_topLimbZero htop h1 (hbad ▸ Num.ofInt_canon _)
    · by_contra hgt
      obtain ⟨τ, τ', hrun, hrun', hnum⟩ := hagree.divAssign hk0
      by_cases hge : 2 ^ 32 ≤ v.natAbs
      · rw [divAssignI64_none htop hge h hi hv] at hrun
        exact absurd hrun (by simp)
      · obtain ⟨τ₁, hrun₁, hτ⟩ := divAssignI64_num (dividesTo_topLimbZero htop (by omega)) h hi hv
        obtain ⟨τ₁', hrun₁', hτ'⟩ := divAssign_num (dividesTo_ofInt hk0) h hi hj hv hw
        obtain rfl := Option.some.inj (hrun.symm.trans hrun₁)
        obtain rfl := Option.some.inj (hrun'.symm.trans hrun₁')
        have hbad := hnum i (List.mem_singleton.mpr rfl)
        rw [hτ, hτ'] at hbad
        have hquot := Num.ofInt_injective hbad
        have habs : (v.tdiv k).natAbs = 1 := by
          rw [Int.natAbs_tdiv, htop, show v.natAbs = 2 ^ 32 - 1 by omega]
          exact Nat.div_self (by decide)
        omega
  · exact Or.inl htop

def countedUp (a : Int) : Store := (pair a (2 ^ 32 - 2)).addAssignI64 1 1

private theorem countedUp_spec {a : Int} (ha : Num.InI64 a) (htop : ¬ Num.TopLimbZero a) :
    (countedUp a).Wf ∧ (countedUp a).live = 4 ∧ (countedUp a).num 0 = Num.ofInt a ∧
      (countedUp a).num 1 = Num.ofInt (2 ^ 32 - 1) := by
  obtain ⟨hwf, hlive, h0, h1⟩ := pair_spec a (2 ^ 32 - 2)
  have hp := addAssignI64_puts hwf (i := 1) (by omega) 1
  refine ⟨hp.wf, by rw [countedUp, hp.live, hlive], ?_, ?_⟩
  · rw [countedUp, hp.num_ne (by omega) (by decide), h0, Num.ofI64_eq ha htop]
  · rw [countedUp, hp.num, h1, Num.ofI64_eq (by decide) (by decide),
      Num.ofI64_eq (by decide) (by decide), Num.add_ofInt]
    rfl

theorem int64_overloads_agree_five : OverloadsAgree (countedUp 5) 0 1 2 (2 ^ 32 - 1) := by
  obtain ⟨hwf, hlive, h0, h1⟩ := countedUp_spec (a := 5) (by decide) (by decide)
  refine (int64_overloads_agree_iff hwf (by omega) (by omega) (by omega) (by decide) (by decide)
    (h0 ▸ Num.ofInt_canon 5) (by decide) h1).mpr (Or.inr ?_)
  rw [h0, Num.toInt_ofInt]
  decide

/-- The integer `2 ^ 32 - 1` does not equal itself when it comes as a machine integer. -/
theorem int64_overloads_disagree :
    (countedUp 5).num 1 = Num.ofInt (2 ^ 32 - 1) ∧
      (countedUp 5).cmpI64 1 (2 ^ 32 - 1) = -1 ∧ ¬ OverloadsAgree (countedUp 5) 1 1 2 (2 ^ 32 - 1) := by
  obtain ⟨hwf, hlive, -, h1⟩ := countedUp_spec (a := 5) (by decide) (by decide)
  have hcmp : (countedUp 5).cmpI64 1 (2 ^ 32 - 1) = -1 := by
    rw [cmpI64_eq hwf (by omega), h1]
    decide
  refine ⟨h1, hcmp, fun hagree => ?_⟩
  have hequal := hagree.equal
  rw [hcmp, h1, Num.toInt_ofInt] at hequal
  exact absurd (hequal.mpr rfl) (by decide)

end Store

end PGBigNumber
