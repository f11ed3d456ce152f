import PGBigNumber.Magnitude.Range
import PGBigNumber.Store.Div

/-!
# The digit loop of a division

`div` reaches the digit loop of `knuthDivImpl` with scaled copies of its operands. Every round of the
loop is exact for them: nothing wraps around, and each digit is right after one correction.
-/

namespace PGBigNumber

namespace Store

/-- `knuthDivImpl` before its loop: `lShift`, and the store with the scaled operands. -/
def knuthReady (σ : Store) (u v : Nat) : Option (Nat × Store) := do
  let N := (σ.mag v).count
  if N ≤ 1 then none
  else
    let lShift ← normalise 32 ((σ.mag v).get (N - 1)).toNat 0
    let σ' ← σ.knuthScale u v lShift
    some (lShift, σ')

/-- The store in which `div` of `a` by `b` calls `knuthDivImpl` on its locals. -/
def knuthOperands (σ : Store) (a b : Nat) : Store :=
  let n := σ.live
  let σ := ((σ.operands a b).beginWrite n).cloneData n
  if (σ.mag n).count = (σ.mag (n + 1)).count then σ.putMag n ((σ.mag n).append 0) else σ

variable {σ : Store} {q r u v a b : Nat}

/-- `knuthDivImpl` is its loop between `knuthReady` and `knuthSave`. -/
theorem knuthDivImpl_ready (σ : Store) (q r u v : Nat) :
    σ.knuthDivImpl q r u v = (σ.knuthReady u v).bind fun ready =>
      (divLoop (ready.2.limbs (σ.live + 1)) ((σ.mag u).count - (σ.mag v).count + 1)
        (ready.2.limbs σ.live) []).map fun result =>
          (ready.2.knuthSave q r σ.live ready.1 result.1 result.2).popTo σ.live := by
  simp only [knuthDivImpl, knuthReady, Option.bind_eq_bind]
  by_cases hN : (σ.mag v).count ≤ 1
  · rw [if_pos hN, if_pos hN, Option.bind_none]
  · rw [if_neg hN, if_neg hN, Option.bind_assoc]
    congr 1
    funext lShift
    rw [Option.bind_assoc]
    congr 1
    funext σ'
    rw [Option.bind_some, Option.map_eq_bind]
    rfl

/-- A division that takes Knuth's path calls `knuthDivImpl` on `knuthOperands`. -/
theorem div_knuthOperands (h : σ.Wf) (ha : a < σ.live) (hb : b < σ.live)
    (htakes : TakesKnuth (σ.num a) (σ.num b)) :
    σ.div q r a b = ((σ.knuthOperands a b).knuthDivImpl q r σ.live (σ.live + 1)).map fun σ' =>
      (((σ'.setSign q (if (σ.sign a).signum = (σ.sign b).signum then .pos else .neg)).setReminderSign
        r (σ.sign a).signum).setStatus .success).popTo σ.live := by
  have ho := operands_spec h ha hb
  have hwf := ho.keeps.good.wf
  have hlive := ho.live
  have hnum_a := ho.keeps.num a ha fun hf => hf
  have hnum_b := ho.keeps.num b hb fun hf => hf
  obtain ⟨hsb, hsa, hone, hgt⟩ := htakes
  have hcount : ((σ.operands a b).mag b).count ≠ 1 := by
    rw [← hwf.length_limbs (by omega), ← num_limbs, hnum_b]
    exact hone
  have hcmp := cmp_operands hwf (n := σ.live) (by omega) (by omega) (by rw [← num_sign, ho.dividend])
    (by rw [← num_sign, ho.divisor])
  rw [← num_limbs, ← num_limbs, ho.dividend, ho.divisor] at hcmp
  simp only [num_limbs, num_sign] at hgt hsa hsb
  rw [div, divPaths, sign_of_num hnum_a, sign_of_num hnum_b]
  dsimp only
  rw [if_neg hsb, if_neg hsa, if_neg hcount, if_neg (by rw [hcmp]; exact Int.not_le.mpr hgt), divKnuth,
    Option.bind_eq_bind, Option.map_bind, Option.map_eq_bind]
  rfl

/-- Every round of the loop of `knuthDivImpl` is exact; `quotient` is what it is to compute. -/
def KnuthExact (σ : Store) (u v quotient : Nat) : Prop :=
  ∃ lShift σ', σ.knuthReady u v = some (lShift, σ') ∧
    let uMag := σ'.limbs σ.live
    let vMag := σ'.limbs (σ.live + 1)
    let m := (σ.mag u).count - (σ.mag v).count + 1
    (∃ result, Trapping.divLoop vMag m uMag [] = some result ∧
      divLoop vMag m uMag [] = some result) ∧
    (rounds vMag m uMag).map Prod.fst = (List.range m).reverse ∧
    ∀ round ∈ rounds vMag m uMag,
      RoundExact vMag round.2 (quotient / (2 ^ 32) ^ round.1 % 2 ^ 32)

theorem knuthDivImpl_exact (h : σ.Wf) (hu : u < σ.live) (hv : v < σ.live) (huv : u ≠ v)
    (hsole : σ.Sole u) (hsu : σ.sign u = .pos) (hsv : σ.sign v = .pos)
    (hcount : (σ.mag v).count < (σ.mag u).count) (h2 : 2 ≤ (σ.mag v).count)
    (htrim : Trimmed (σ.limbs v)) :
    KnuthExact σ u v (PGBigNumber.mag (σ.limbs u) / PGBigNumber.mag (σ.limbs v)) := by
  have hlu := h.length_limbs hu
  have hlv := h.length_limbs hv
  obtain ⟨s, hs, hnorm, hlow, hhigh⟩ := normalise_top h hv (by omega) htrim
  obtain ⟨σ', hscale, h'⟩ := knuthScale_spec h hu hv huv hsole hsu hsv
    (List.ne_nil_of_length_pos (by omega)) (List.ne_nil_of_length_pos (by omega)) s
  obtain ⟨lu, hlimbs, hlen, hmag⟩ := h'.dividend
  obtain ⟨hnormal, hlen', hmag', htop⟩ := scaled_ready hs (by omega) hlow hhigh (by omega) hmag hlen
    h'.divisor_mag (h'.divisor_trimmed htrim) h'.divisor_length
  have hready : σ.knuthReady u v = some (s, σ') := by
    simp only [knuthReady, Option.bind_eq_bind]
    rw [if_neg (by omega), hnorm, Option.bind_some, hscale, Option.bind_some]
  have hloop := divLoop_exact hnormal _ (lu ++ [0]) [] hlen' htop
  -- the quotient of the scaled operands is that of the operands
  rw [hmag', h'.divisor_mag, Nat.mul_div_mul_right _ _ (Nat.two_pow_pos s), hlu, hlv] at hloop
  refine ⟨s, σ', hready, ?_⟩
  rw [hlimbs]
  exact hloop

/-- The operands of `div` meet the conditions of `knuthDivImpl`. -/
theorem div_knuthExact (h : σ.Wf) (ha : a < σ.live) (hb : b < σ.live) (hcanon : (σ.num b).Canon)
    (h2 : 2 ≤ (σ.limbs b).length) (hcmp : 0 < cmpLimbs (σ.limbs a) (σ.limbs b)) :
    KnuthExact (σ.knuthOperands a b) σ.live (σ.live + 1)
      (PGBigNumber.mag (σ.limbs a) / PGBigNumber.mag (σ.limbs b)) := by
  have ho := operands_spec h ha hb
  have hwf := ho.keeps.good.wf
  have hlive := ho.live
  have hlimbs_a : (σ.operands a b).limbs σ.live = σ.limbs a := by rw [← num_limbs, ho.dividend]
  have hlimbs_b : (σ.operands a b).limbs (σ.live + 1) = σ.limbs b := by rw [← num_limbs, ho.divisor]
  have hcount_a : ((σ.operands a b).mag σ.live).count = (σ.limbs a).length := by
    rw [← hwf.length_limbs (by omega), hlimbs_a]
  have hcount_b : ((σ.operands a b).mag (σ.live + 1)).count = (σ.limbs b).length := by
    rw [← hwf.length_limbs (by omega), hlimbs_b]
  have hle := length_le_of_cmpLimbs hcmp.le
  obtain ⟨σ', l, hrun, h', hsole, hmag, hlen, -⟩ := dividend_ready hwf hlive
    (by rw [← num_sign, ho.dividend]) (by rw [hcount_a, hcount_b]; exact hle)
  have hknuth : σ.knuthOperands a b = σ' := hrun
  have hlive' := h'.live
  have hlimbs_l : σ'.limbs σ.live = l := by rw [← num_limbs, h'.num]
  have hnum_b : σ'.num (σ.live + 1) = ⟨.pos, σ.limbs b⟩ :=
    (h'.num_ne (by omega) (by omega)).trans ho.divisor
  have hlimbs_b' : σ'.limbs (σ.live + 1) = σ.limbs b := by rw [← num_limbs, hnum_b]
  have hcount_b' : (σ'.mag (σ.live + 1)).count = (σ.limbs b).length := by
    rw [← h'.wf.length_limbs (by omega), hlimbs_b']
  have hexact := knuthDivImpl_exact h'.wf (u := σ.live) (v := σ.live + 1) (by omega) (by omega)
    (by omega) hsole (by rw [← num_sign, h'.num]) (by rw [← num_sign, hnum_b])
    (by rw [hcount_b', ← h'.wf.length_limbs (by omega), hlimbs_l, ← hcount_b]; exact hlen)
    (by rw [hcount_b']; exact h2) (by rw [hlimbs_b']; exact hcanon.trimmed)
  rw [hlimbs_l, hlimbs_b', hmag, hlimbs_a] at hexact
  rw [hknuth]
  exact hexact

/-- No limb loop wraps around, and every round of Knuth's algorithm is exact. -/
theorem loops_in_range :
    (∀ a b, Trapping.gradSchoolMulInplace a b = some (gradSchoolMulInplace a b)) ∧
    (∀ a b, Trapping.gradeSchoolMul a b = some (gradeSchoolMul a b)) ∧
    (∀ a b, Trapping.addMag a b = some (addMag a b)) ∧
    (∀ a b, Trapping.subMag a b = some (subMag a b)) ∧
    (∀ (u32 : UInt32) l, u32 ≠ 0 →
      Trapping.divSmall u32.toNat l = some (divSmall u32.toNat l)) ∧
    ∀ (σ : Store) (a b : Nat), σ.Wf → a < σ.live → b < σ.live → (σ.num b).Canon →
      2 ≤ (σ.limbs b).length → 0 < cmpLimbs (σ.limbs a) (σ.limbs b) →
        KnuthExact (σ.knuthOperands a b) σ.live (σ.live + 1)
          (PGBigNumber.mag (σ.limbs a) / PGBigNumber.mag (σ.limbs b)) := by
  refine ⟨gradSchoolMulInplace_trapping, gradeSchoolMul_trapping, addMag_trapping, subMag_trapping,
    fun u32 l h0 => ?_, fun σ a b h ha hb hcanon h2 hcmp => div_knuthExact h ha hb hcanon h2 hcmp⟩
  have hpos : 0 < u32.toNat := Nat.pos_of_ne_zero fun he => h0 (UInt32.toNat_inj.mp he)
  exact divSmall_trapping hpos u32.toNat_lt l

theorem loops_in_range_pair :
    Trapping.divSmall 10 [7, 1] = some (divSmall 10 [7, 1]) ∧
    KnuthExact ((pair (-(2 ^ 62)) (2 ^ 33 + 1)).knuthOperands 0 1) 4 5
      (2 ^ 62 / (2 ^ 33 + 1)) := by
  obtain ⟨hwf, hlive, h0, h1⟩ := pair_spec (-(2 ^ 62)) (2 ^ 33 + 1)
  rw [Num.ofI64_eq (by decide) (by decide)] at h0 h1
  have hl0 : (pair (-(2 ^ 62)) (2 ^ 33 + 1)).limbs 0 = [0, 2 ^ 30] := by
    rw [← num_limbs, h0]
    decide
  have hl1 : (pair (-(2 ^ 62)) (2 ^ 33 + 1)).limbs 1 = [1, 2] := by
    rw [← num_limbs, h1]
    decide
  obtain ⟨-, -, -, -, hsmall, hknuth⟩ := loops_in_range
  refine ⟨hsmall 10 [7, 1] (by decide), ?_⟩
  have hexact := hknuth _ 0 1 hwf (by omega) (by omega) (h1 ▸ Num.ofInt_canon _)
    (by rw [hl1]; decide) (by rw [hl0, hl1]; decide)
  rw [hl0, hl1, hlive] at hexact
  exact hexact

end Store

end PGBigNumber
