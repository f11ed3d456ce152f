import PGBigNumber.Magnitude.Basic
import PGBigNumber.Library.QuotientDigit
import Mathlib.Tactic.LinearCombination

/-!
# Division of magnitudes

Division by one limb, and the digit loop of Knuth's algorithm D. The loop keeps one invariant: the
limbs above the current position are worth less than the divisor.
-/

namespace PGBigNumber

/-- The loop of `divideAssignAndReminderByU32`, from the top limb down. -/
def divSmall (x : Nat) : List UInt32 → List UInt32 × Nat
  | [] => ([], 0)
  | m :: ms =>
      let r := divSmall x ms
      let y := u64 (u64 (r.2 * 2 ^ 32) + m.toNat)
      (UInt32.ofNat (y / x) :: r.1, y % x)

@[simp]
theorem length_divSmall (x : Nat) (l : List UInt32) : (divSmall x l).1.length = l.length := by
  induction l with
  | nil => rfl
  | cons m ms ih => simp [divSmall, ih]

theorem divSmall_spec {x : Nat} (h0 : 0 < x) (hx : x < 2 ^ 32) (l : List UInt32) :
    mag (divSmall x l).1 * x + (divSmall x l).2 = mag l ∧ (divSmall x l).2 < x := by
  induction l with
  | nil => simpa [divSmall] using h0
  | cons m ms ih =>
      obtain ⟨hv, hlt⟩ := ih
      have hm := m.toNat_lt
      simp only [divSmall]
      set r := divSmall x ms
      rw [u64_of_lt (n := r.2 * 2 ^ 32) (by omega), u64_of_lt (n := r.2 * 2 ^ 32 + m.toNat) (by omega)]
      refine ⟨?_, Nat.mod_lt _ h0⟩
      have hq : (r.2 * 2 ^ 32 + m.toNat) / x < 2 ^ 32 := by
        apply Nat.div_lt_of_lt_mul
        calc r.2 * 2 ^ 32 + m.toNat < (r.2 + 1) * 2 ^ 32 := by omega
          _ ≤ x * 2 ^ 32 := Nat.mul_le_mul_right _ hlt
      have hdm := Nat.div_add_mod (r.2 * 2 ^ 32 + m.toNat) x
      rw [mag_cons, mag_cons, toNat_ofNat_u32, Nat.mod_eq_of_lt hq, ← hv]
      linear_combination hdm

/-- `while (vn1_copy < b / 2) { vn1_copy <<= 1; ++lShift; }`: no result while the loop is still
running after `fuel` rounds. -/
def normalise : Nat → Nat → Nat → Option Nat
  | 0, vn1, lShift => if vn1 < 2 ^ 32 / 2 then none else some lShift
  | fuel + 1, vn1, lShift =>
      if vn1 < 2 ^ 32 / 2 then normalise fuel (u64 (vn1 * 2)) (lShift + 1) else some lShift

theorem normalise_done {vn1 : Nat} (h : 2 ^ 31 ≤ vn1) (fuel lShift : Nat) :
    normalise fuel vn1 lShift = some lShift := by
  cases fuel <;> exact if_neg (by omega)

theorem normalise_zero (fuel lShift : Nat) : normalise fuel 0 lShift = none := by
  induction fuel generalizing lShift with
  | zero => rfl
  | succ fuel ih =>
      rw [normalise, if_pos (by decide)]
      exact ih (lShift + 1)

private theorem normalise_run (k : Nat) (vn1 lShift fuel : Nat) (hlow : 2 ^ 31 ≤ vn1 * 2 ^ k)
    (hk : k ≤ fuel) (hvn1 : vn1 < 2 ^ 32) :
    ∃ s ≤ k, normalise fuel vn1 lShift = some (lShift + s) ∧
      2 ^ 31 ≤ vn1 * 2 ^ s ∧ vn1 * 2 ^ s < 2 ^ 32 := by
  induction k generalizing vn1 lShift fuel with
  | zero =>
      exact ⟨0, Nat.le_refl 0, normalise_done (by omega) _ _, hlow, by simpa using hvn1⟩
  | succ k ih =>
      by_cases hdone : vn1 < 2 ^ 31
      · cases fuel with
        | zero => omega
        | succ fuel =>
            have hpow : ∀ t, vn1 * 2 ^ (t + 1) = vn1 * 2 * 2 ^ t := fun t => by
              rw [Nat.pow_succ', ← Nat.mul_assoc]
            obtain ⟨s, hs, hrun, hge, hlt⟩ := ih (vn1 * 2) (lShift + 1) fuel
              (by rwa [← hpow]) (by omega) (by omega)
            refine ⟨s + 1, by omega, ?_, by rwa [hpow], by rwa [hpow]⟩
            rw [normalise, if_pos (by omega), u64_of_lt (by omega), hrun]
            congr 1
            omega
      · exact ⟨0, Nat.zero_le _, normalise_done (by omega) _ _, by omega, by simpa using hvn1⟩

/-- A non-zero top limb is normalised by a shift of less than a limb. -/
theorem normalise_spec {vn1 : Nat} (h0 : 0 < vn1) (hvn1 : vn1 < 2 ^ 32) {fuel : Nat}
    (hfuel : 31 ≤ fuel) :
    ∃ s < 32, normalise fuel vn1 0 = some s ∧ 2 ^ 31 ≤ vn1 * 2 ^ s ∧ vn1 * 2 ^ s < 2 ^ 32 := by
  obtain ⟨s, hs, hrun, h⟩ := normalise_run 31 vn1 0 fuel
    (Nat.le_mul_of_pos_left _ h0) hfuel hvn1
  exact ⟨s, by omega, by rw [hrun, Nat.zero_add], h⟩

/-- `qHat` after its single correction, from the top limbs of `v` and of the window `w`. -/
def quotientGuess (v w : List UInt32) : Nat :=
  let vn1 := (v.getD (v.length - 1) 0).toNat
  let vn2 := (v.getD (v.length - 2) 0).toNat
  let ujn := (w.getD v.length 0).toNat
  let ujn1 := (w.getD (v.length - 1) 0).toNat
  let ujn2 := (w.getD (v.length - 2) 0).toNat
  let x := u64 (u64 (ujn * 2 ^ 32) + ujn1)
  let qHat := x / vn1
  let rHat := x % vn1
  if qHat = 2 ^ 32 ∨ u64 (qHat * vn2) > u64 (u64 (2 ^ 32 * rHat) + ujn2) then u64 (qHat - 1)
  else qHat

/-- Multiply and subtract: the loop over `k < N`, then the limb `uMag[j + N]`. -/
def mulSub (qHat : Nat) : Nat → Int → List UInt32 → List UInt32 → List UInt32 × Int
  | carry, borrow, v :: vs, u :: us =>
      let carry := u64 (carry + u64 (qHat * v.toNat))
      let borrow := borrow + u.toNat - (carry % 2 ^ 32 : Nat)
      let r := mulSub qHat (carry / 2 ^ 32) (borrow >>> (32 : Nat)) vs us
      (narrow borrow :: r.1, r.2)
  | carry, borrow, [], u :: _ =>
      let borrow := i64 (borrow + u.toNat - carry)
      ([narrow borrow], borrow >>> (32 : Nat))
  | _, borrow, _, [] => ([], borrow)

def addBackPass : Nat → List UInt32 → List UInt32 → List UInt32 × Nat
  | carry, v :: vs, u :: us =>
      let carry := u64 (carry + u.toNat + v.toNat)
      let r := addBackPass (carry / 2 ^ 32) vs us
      (UInt32.ofNat carry :: r.1, r.2)
  | carry, [], u :: _ =>
      let carry := u64 (carry + u.toNat)
      ([UInt32.ofNat carry], carry / 2 ^ 32)
  | carry, _, [] => ([], carry)

def addBack (v : List UInt32) : Nat → List UInt32 × Int → Nat → Option (List UInt32 × Nat)
  | fuel, (w, borrow), qHat =>
      if borrow < 0 then
        match fuel with
        | 0 => none
        | fuel + 1 =>
            let r := addBackPass 0 v w
            addBack v fuel (r.1, borrow + r.2) (u64 (qHat + (2 ^ 64 - 1)))
      else some (w, qHat)

/-- One round of the loop over `j`: the new window and the digit. -/
def divStep (v w : List UInt32) : Option (List UInt32 × Nat) :=
  let qHat := quotientGuess v w
  addBack v qHat (mulSub qHat 0 0 v w) qHat

/-- The loop over `j`, from the top window of `u` down; `q` collects the digits. -/
def divLoop (v : List UInt32) : Nat → List UInt32 → List UInt32 →
    Option (List UInt32 × List UInt32)
  | 0, u, q => some (u, q)
  | j + 1, u, q => do
      let (w, qHat) ← divStep v ((u.drop j).take (v.length + 1))
      divLoop v j (u.take j ++ w ++ u.drop (j + (v.length + 1))) (UInt32.ofNat qHat :: q)

theorem length_mulSub (qHat carry : Nat) (borrow : Int) (v w : List UInt32)
    (hlen : w.length = v.length + 1) : (mulSub qHat carry borrow v w).1.length = w.length := by
  induction v generalizing carry borrow w with
  | nil =>
      obtain ⟨u, rfl⟩ := List.length_eq_one_iff.mp hlen
      rfl
  | cons x xs ih =>
      cases w with
      | nil => simp at hlen
      | cons u us =>
          simp only [mulSub, List.length_cons]
          rw [ih _ _ us (by simpa using hlen)]

theorem length_addBackPass (carry : Nat) (v w : List UInt32) (hlen : w.length = v.length + 1) :
    (addBackPass carry v w).1.length = w.length := by
  induction v generalizing carry w with
  | nil =>
      obtain ⟨u, rfl⟩ := List.length_eq_one_iff.mp hlen
      rfl
  | cons x xs ih =>
      cases w with
      | nil => simp at hlen
      | cons u us =>
          simp only [addBackPass, List.length_cons]
          rw [ih _ us (by simpa using hlen)]

theorem mag_mulSub {qHat : Nat} (hq : qHat ≤ 2 ^ 32) (carry : Nat) (hc : carry < 2 ^ 32)
    (borrow : Int) (hb : -1 ≤ borrow ∧ borrow ≤ 0) (v w : List UInt32)
    (hlen : w.length = v.length + 1) :
    (mag (mulSub qHat carry borrow v w).1 : Int) +
        ((2 ^ 32) ^ w.length : Nat) * (mulSub qHat carry borrow v w).2 =
      mag w + borrow - (qHat * mag v + carry : Nat) := by
  induction v generalizing carry borrow w with
  | nil =>
      obtain ⟨u, rfl⟩ := List.length_eq_one_iff.mp hlen
      have hu := u.toNat_lt
      have hn := toNat_narrow (borrow + u.toNat - carry)
      have hs : (borrow + u.toNat - (carry : Int)) >>> (32 : Nat) =
          (borrow + u.toNat - carry) / 2 ^ 32 :=
        Int.shiftRight_eq_div_pow _ 32
      simp only [mulSub, mag_nil, mag_singleton, List.length_singleton, Nat.mul_zero,
        Nat.zero_add, Nat.pow_one]
      rw [i64_of_range (by omega) (by omega), hs]
      push_cast
      omega
  | cons x xs ih =>
      cases w with
      | nil => simp at hlen
      | cons u us =>
          have hx := x.toNat_lt
          have hu := u.toNat_lt
          have hprod : qHat * x.toNat ≤ 2 ^ 32 * (2 ^ 32 - 1) :=
            Nat.mul_le_mul hq (by omega)
          have hfit : carry + qHat * x.toNat < 2 ^ 64 := by omega
          simp only [mulSub, mag_cons, List.length_cons]
          rw [u64_of_lt (n := qHat * x.toNat) (by omega), u64_of_lt hfit]
          set c := carry + qHat * x.toNat with hcdef
          set d : Int := borrow + u.toNat - (c % 2 ^ 32 : Nat) with hd
          have hs : d >>> (32 : Nat) = d / 2 ^ 32 := Int.shiftRight_eq_div_pow _ 32
          have hn := toNat_narrow d
          have hi := ih (c / 2 ^ 32) (by omega) (d >>> (32 : Nat)) (by rw [hs]; omega) us
            (by simpa using hlen)
          set r := mulSub qHat (c / 2 ^ 32) (d >>> (32 : Nat)) xs us
          have hpow : (((2 ^ 32) ^ (us.length + 1) : Nat) : Int) * r.2 =
              2 ^ 32 * (((2 ^ 32) ^ us.length : Nat) * r.2) := by
            push_cast
            ring
          have hmul : qHat * (x.toNat + 2 ^ 32 * mag xs) + carry =
              c + 2 ^ 32 * (qHat * mag xs) := by
            rw [hcdef]
            ring
          rw [hpow, hmul]
          rw [hs] at hi
          push_cast at hi hn ⊢
          generalize ((2 ^ 32 : Int) ^ us.length) * r.2 = p at hi ⊢
          generalize (qHat : Int) * (mag xs : Int) = t at hi ⊢
          omega

theorem mag_addBackPass (carry : Nat) (hc : carry < 2 ^ 32) (v w : List UInt32)
    (hlen : w.length = v.length + 1) :
    mag (addBackPass carry v w).1 + (2 ^ 32) ^ w.length * (addBackPass carry v w).2 =
      mag w + mag v + carry := by
  induction v generalizing carry w with
  | nil =>
      obtain ⟨u, rfl⟩ := List.length_eq_one_iff.mp hlen
      have hu := u.toNat_lt
      simp only [addBackPass, mag_nil, mag_singleton, List.length_singleton, Nat.pow_one,
        toNat_ofNat_u32]
      rw [u64_of_lt (by omega)]
      omega
  | cons x xs ih =>
      cases w with
      | nil => simp at hlen
      | cons u us =>
          have hx := x.toNat_lt
          have hu := u.toNat_lt
          simp only [addBackPass, mag_cons, List.length_cons, toNat_ofNat_u32, limbs_pow_succ]
          rw [u64_of_lt (by omega)]
          have hi := ih ((carry + u.toNat + x.toNat) / 2 ^ 32) (by omega) us (by simpa using hlen)
          omega

theorem mag_three (l : List UInt32) (x y z : UInt32) :
    mag (l ++ [x, y, z]) = z.toNat * (2 ^ 32) ^ 2 * (2 ^ 32) ^ l.length +
      y.toNat * 2 ^ 32 * (2 ^ 32) ^ l.length + x.toNat * (2 ^ 32) ^ l.length + mag l := by
  simp only [mag_append, mag_cons, mag_nil]
  ring

theorem mag_two (l : List UInt32) (x y : UInt32) :
    mag (l ++ [x, y]) = y.toNat * 2 ^ 32 * (2 ^ 32) ^ l.length + x.toNat * (2 ^ 32) ^ l.length +
      mag l := by
  simp only [mag_append, mag_cons, mag_nil]
  ring

private theorem addBack_done (v : List UInt32) (fuel : Nat) (w : List UInt32) (qHat : Nat) :
    addBack v fuel (w, 0) qHat = some (w, qHat) := by
  cases fuel <;> exact if_neg (by decide)

/-- What one digit does: the window loses the digit times the divisor. -/
structure DivStepSpec (v w w' : List UInt32) (d : Nat) : Prop where
  length : w'.length = w.length
  value : mag w = d * mag v + mag w'
  rest_lt : mag w' < mag v
  digit_lt : d < 2 ^ 32

section

variable {v w : List UInt32} {d : Nat}

/-- A guess that is right leaves no borrow. -/
theorem mulSub_exact (hlen : w.length = v.length + 1) (hd : d = mag w / mag v) (hv : 0 < mag v)
    (hdlt : d < 2 ^ 32) :
    (mulSub d 0 0 v w).2 = 0 ∧ DivStepSpec v w (mulSub d 0 0 v w).1 d := by
  have hsub := mag_mulSub (by omega : d ≤ 2 ^ 32) 0 (by decide) 0 (by omega) v w hlen
  have hsublen := length_mulSub d 0 0 v w hlen
  rcases hms : mulSub d 0 0 v w with ⟨r, borrow⟩
  rw [hms] at hsub hsublen
  simp only at hsub hsublen
  have hr := mag_lt r
  rw [hsublen] at hr
  set B : Nat := (2 ^ 32) ^ w.length with hB
  have hvlt := mag_lt v
  have hBv : mag v < B := by
    calc mag v < (2 ^ 32) ^ v.length := hvlt
      _ ≤ B := Nat.pow_le_pow_right (by decide) (by omega)
  have hdm := Nat.div_add_mod (mag w) (mag v)
  have hmod := Nat.mod_lt (mag w) hv
  rw [← hd, Nat.mul_comm] at hdm
  have hb : borrow = 0 := by
    by_contra hne
    push_cast at hsub
    rcases Int.lt_or_gt_of_ne hne with hneg | hpos
    · have : (B : Int) * borrow ≤ B * (-1) := Int.mul_le_mul_of_nonneg_left (by omega) (by omega)
      zify at hdm hr
      omega
    · have : (B : Int) * 1 ≤ B * borrow := Int.mul_le_mul_of_nonneg_left (by omega) (by omega)
      zify at hdm hr
      omega
  subst borrow
  refine ⟨rfl, hsublen, ?_, ?_, hdlt⟩
  · zify at hdm ⊢
    push_cast at hsub
    omega
  · zify at hdm hmod ⊢
    push_cast at hsub
    omega

/-- A guess that is one too large borrows one, and the first round of adding back carries it. -/
theorem mulSub_one_more (hlen : w.length = v.length + 1) (hd : d = mag w / mag v) (hv : 0 < mag v)
    (hdlt : d < 2 ^ 32) :
    (mulSub (d + 1) 0 0 v w).2 = -1 ∧ (addBackPass 0 v (mulSub (d + 1) 0 0 v w).1).2 = 1 ∧
      DivStepSpec v w (addBackPass 0 v (mulSub (d + 1) 0 0 v w).1).1 d := by
  have hsub := mag_mulSub (by omega : d + 1 ≤ 2 ^ 32) 0 (by decide) 0 (by omega) v w hlen
  have hsublen := length_mulSub (d + 1) 0 0 v w hlen
  rcases hms : mulSub (d + 1) 0 0 v w with ⟨r, borrow⟩
  rw [hms] at hsub hsublen
  simp only at hsub hsublen
  have hr := mag_lt r
  rw [hsublen] at hr
  set B : Nat := (2 ^ 32) ^ w.length with hB
  have hvlt := mag_lt v
  have hBv : mag v < B := by
    calc mag v < (2 ^ 32) ^ v.length := hvlt
      _ ≤ B := Nat.pow_le_pow_right (by decide) (by omega)
  have hdm := Nat.div_add_mod (mag w) (mag v)
  have hmod := Nat.mod_lt (mag w) hv
  rw [← hd, Nat.mul_comm] at hdm
  have hexp : ((d + 1) * mag v : Nat) = d * mag v + mag v := by ring
  rw [hexp] at hsub
  have hb : borrow = -1 := by
    by_contra hne
    push_cast at hsub
    rcases Int.lt_or_gt_of_ne hne with hneg | hpos
    · have : (B : Int) * borrow ≤ B * (-2) := Int.mul_le_mul_of_nonneg_left (by omega) (by omega)
      zify at hdm hr hBv
      omega
    · have : (B : Int) * 0 ≤ B * borrow := Int.mul_le_mul_of_nonneg_left (by omega) (by omega)
      zify at hdm hr hmod
      omega
  subst borrow
  have hadd := mag_addBackPass 0 (by decide) v r (hsublen.trans hlen)
  have haddlen := length_addBackPass 0 v r (hsublen.trans hlen)
  rcases habp : addBackPass 0 v r with ⟨w', c⟩
  rw [habp, hsublen, ← hB] at hadd
  rw [habp] at haddlen
  simp only at hadd haddlen
  have hw' := mag_lt w'
  rw [haddlen, hsublen, ← hB] at hw'
  have hsum : mag r + mag v = B + mag w % mag v := by
    zify
    push_cast at hsub
    zify at hdm
    omega
  have hc : c = 1 := by
    rcases Nat.lt_trichotomy c 1 with h | h | h
    · have : c = 0 := by omega
      subst c
      omega
    · exact h
    · have := Nat.mul_le_mul_left B (show 2 ≤ c from h)
      omega
  subst c
  have hspec : DivStepSpec v w w' d := ⟨haddlen.trans hsublen, by omega, by omega, hdlt⟩
  exact ⟨rfl, rfl, hspec⟩

private theorem addBack_mulSub {g : Nat} (hlen : w.length = v.length + 1)
    (hd : d = mag w / mag v) (hv : 0 < mag v) (hdlt : d < 2 ^ 32) (hg : g = d ∨ g = d + 1) :
    ∃ w', addBack v g (mulSub g 0 0 v w) g = some (w', d) ∧ DivStepSpec v w w' d := by
  rcases hg with rfl | rfl
  · obtain ⟨hborrow, hspec⟩ := mulSub_exact hlen hd hv hdlt
    rcases hms : mulSub g 0 0 v w with ⟨r, borrow⟩
    rw [hms] at hborrow hspec
    simp only at hborrow hspec
    subst borrow
    exact ⟨r, addBack_done v g r g, hspec⟩
  · obtain ⟨hborrow, hcarry, hspec⟩ := mulSub_one_more hlen hd hv hdlt
    rcases hms : mulSub (d + 1) 0 0 v w with ⟨r, borrow⟩
    rw [hms] at hborrow hcarry hspec
    simp only at hborrow hcarry hspec
    subst borrow
    refine ⟨(addBackPass 0 v r).1, ?_, hspec⟩
    rw [addBack, if_pos (by decide)]
    dsimp only
    rw [hcarry, show u64 (d + 1 + (2 ^ 64 - 1)) = d by unfold u64; omega]
    exact addBack_done v d _ d

end

/-- A divisor whose top limb has its top bit set. -/
structure Normal (v : List UInt32) : Prop where
  two_le : 2 ≤ v.length
  top : 2 ^ 31 ≤ (v.getLastD 0).toNat

theorem Normal.mag_pos {v : List UInt32} (hv : Normal v) : 0 < mag v := by
  have h2 := hv.two_le
  have htop := hv.top
  apply Trimmed.mag_pos
  · intro h
    rw [List.getLastD_eq_getLast?, h] at htop
    exact absurd htop (by decide)
  · rintro rfl
    simp at h2

private theorem split_last_two {l : List UInt32} (h : 2 ≤ l.length) :
    ∃ (m : List UInt32) (x y : UInt32), l = m ++ [x, y] := by
  refine ⟨l.take (l.length - 2), l[l.length - 2], l[l.length - 1], ?_⟩
  conv_lhs => rw [← List.take_append_drop (l.length - 2) l]
  congr 1
  rw [List.drop_eq_getElem_cons (by omega), List.drop_eq_getElem_cons (by omega),
    List.drop_eq_nil_of_le (by omega)]
  congr 3
  omega

section

variable {v w : List UInt32}

/-- The limbs that the guess looks at are the leading digits of a step of long division. -/
theorem guess_step (hv : Normal v) (hlen : w.length = v.length + 1)
    (hsmall : mag w < mag v * 2 ^ 32) :
    ∃ P ul vl, QuotientDigit.Step (2 ^ 32) P (w.getD v.length 0).toNat
        (w.getD (v.length - 1) 0).toNat (w.getD (v.length - 2) 0).toNat ul
        (v.getD (v.length - 1) 0).toNat (v.getD (v.length - 2) 0).toNat vl ∧
      QuotientDigit.window (2 ^ 32) P (w.getD v.length 0).toNat (w.getD (v.length - 1) 0).toNat
        (w.getD (v.length - 2) 0).toNat ul = mag w ∧
      QuotientDigit.divisor (2 ^ 32) P (v.getD (v.length - 1) 0).toNat
        (v.getD (v.length - 2) 0).toNat vl = mag v := by
  obtain ⟨vl, v2, v1, rfl⟩ := split_last_two hv.two_le
  obtain ⟨ul', u1, u0, rfl⟩ := split_last_two (l := w) (by have := hv.two_le; omega)
  obtain ⟨ul, u2, rfl⟩ : ∃ ul u2, ul' = ul ++ [u2] := by
    have hne : ul' ≠ [] := by
      rintro rfl
      simp at hlen
    exact ⟨ul'.dropLast, ul'.getLast hne, (List.dropLast_append_getLast hne).symm⟩
  have hul : ul.length = vl.length := by simpa using hlen
  rw [List.append_assoc] at *
  simp only [List.singleton_append] at *
  have htop : 2 ^ 31 ≤ v1.toNat := by simpa using hv.top
  have e1 : (vl ++ [v2, v1]).getD ((vl ++ [v2, v1]).length - 1) 0 = v1 := by simp
  have e2 : (vl ++ [v2, v1]).getD ((vl ++ [v2, v1]).length - 2) 0 = v2 := by simp
  have e3 : (ul ++ [u2, u1, u0]).getD (vl ++ [v2, v1]).length 0 = u0 := by simp [← hul]
  have e4 : (ul ++ [u2, u1, u0]).getD ((vl ++ [v2, v1]).length - 1) 0 = u1 := by simp [← hul]
  have e5 : (ul ++ [u2, u1, u0]).getD ((vl ++ [v2, v1]).length - 2) 0 = u2 := by simp [← hul]
  rw [mag_three, mag_two, hul] at hsmall
  rw [e1, e2, e3, e4, e5, mag_three, mag_two, hul]
  exact ⟨(2 ^ 32) ^ vl.length, mag ul, mag vl,
    { weight := Nat.pow_pos (by decide)
      normal := by omega
      v1_lt := v1.toNat_lt
      v2_lt := v2.toNat_lt
      vl_lt := mag_lt vl
      u1_lt := u1.toNat_lt
      u2_lt := u2.toNat_lt
      ul_lt := by rw [← hul]; exact mag_lt ul
      small := hsmall }, rfl, rfl⟩

private theorem quotientGuess_eq {P ul vl : Nat}
    (h : QuotientDigit.Step (2 ^ 32) P (w.getD v.length 0).toNat
      (w.getD (v.length - 1) 0).toNat (w.getD (v.length - 2) 0).toNat ul
      (v.getD (v.length - 1) 0).toNat (v.getD (v.length - 2) 0).toNat vl) :
    quotientGuess v w = QuotientDigit.corrected (2 ^ 32) (w.getD v.length 0).toNat
      (w.getD (v.length - 1) 0).toNat (w.getD (v.length - 2) 0).toNat
      (v.getD (v.length - 1) 0).toNat (v.getD (v.length - 2) 0).toNat := by
  have hg := h.guess_le
  have hr := h.rest_lt
  have hu1 := h.u1_lt
  have hu2 := h.u2_lt
  have hv1 := h.v1_lt
  have hv2 := h.v2_lt
  unfold quotientGuess QuotientDigit.corrected
  dsimp only
  have hu0 := (w.getD v.length 0).toNat_lt
  generalize (w.getD v.length 0).toNat = u0 at *
  generalize (w.getD (v.length - 1) 0).toNat = u1 at *
  generalize (w.getD (v.length - 2) 0).toNat = u2 at *
  generalize (v.getD (v.length - 1) 0).toNat = v1 at *
  generalize (v.getD (v.length - 2) 0).toNat = v2 at *
  rw [show u64 (u64 (u0 * 2 ^ 32) + u1) = u0 * 2 ^ 32 + u1 by
    rw [u64_of_lt (n := u0 * 2 ^ 32) (by omega), u64_of_lt (by omega)]]
  change (if QuotientDigit.guess (2 ^ 32) u0 u1 v1 = 2 ^ 32 ∨
      u64 (QuotientDigit.guess (2 ^ 32) u0 u1 v1 * v2) >
        u64 (u64 (2 ^ 32 * QuotientDigit.rest (2 ^ 32) u0 u1 v1) + u2) then
      u64 (QuotientDigit.guess (2 ^ 32) u0 u1 v1 - 1)
    else QuotientDigit.guess (2 ^ 32) u0 u1 v1) = _
  set g := QuotientDigit.guess (2 ^ 32) u0 u1 v1
  set r := QuotientDigit.rest (2 ^ 32) u0 u1 v1
  have hgv : g * v2 ≤ (2 ^ 32 + 1) * (2 ^ 32 - 1) := Nat.mul_le_mul hg (by omega)
  rw [u64_of_lt (n := g * v2) (by omega), u64_of_lt (n := 2 ^ 32 * r) (by omega),
    u64_of_lt (n := 2 ^ 32 * r + u2) (by omega), u64_of_lt (n := g - 1) (by omega)]

theorem quotientGuess_bounds (hv : Normal v) (hlen : w.length = v.length + 1)
    (hsmall : mag w < mag v * 2 ^ 32) :
    quotientGuess v w = mag w / mag v ∨ quotientGuess v w = mag w / mag v + 1 := by
  obtain ⟨P, ul, vl, hstep, hw, hvl⟩ := guess_step hv hlen hsmall
  have hbounds := hstep.corrected_bounds (by decide)
  rw [hw, hvl, ← quotientGuess_eq hstep] at hbounds
  omega

theorem divStep_spec (hv : Normal v) (hlen : w.length = v.length + 1)
    (hsmall : mag w < mag v * 2 ^ 32) :
    ∃ w' d, divStep v w = some (w', d) ∧ DivStepSpec v w w' d := by
  obtain ⟨w', hrun, hspec⟩ := addBack_mulSub hlen rfl hv.mag_pos (Nat.div_lt_of_lt_mul hsmall)
    (quotientGuess_bounds hv hlen hsmall)
  exact ⟨w', _, hrun, hspec⟩

end

section

variable {v u w' : List UInt32} {j d : Nat}

theorem window_bounds (hlen : j + 1 + v.length ≤ u.length) (htop : mag (u.drop (j + 1)) < mag v) :
    ((u.drop j).take (v.length + 1)).length = v.length + 1 ∧
      mag (u.drop (j + (v.length + 1))) = 0 ∧
      mag (u.drop j) = mag ((u.drop j).take (v.length + 1)) ∧
      mag ((u.drop j).take (v.length + 1)) < mag v * 2 ^ 32 := by
  set n := v.length + 1 with hn
  have hcons : mag (u.drop j) < mag v * 2 ^ 32 := by
    rw [List.drop_eq_getElem_cons (by omega), mag_cons]
    have hj : j < u.length := by omega
    have := (u[j]).toNat_lt
    omega
  have hsplit : mag (u.drop j) = mag ((u.drop j).take n) + (2 ^ 32) ^ n * mag (u.drop (j + n)) := by
    rw [← List.drop_drop]
    exact mag_take_drop n (u.drop j) (by rw [List.length_drop]; omega)
  have hhigh : mag (u.drop (j + n)) = 0 := by
    by_contra hne
    have h1 := Nat.mul_le_mul_left ((2 ^ 32) ^ n) (Nat.one_le_iff_ne_zero.mpr hne)
    have h2 := Nat.mul_le_mul_right (2 ^ 32) (mag_lt v).le
    rw [hn, Nat.pow_succ] at h1 hsplit
    omega
  rw [hhigh, Nat.mul_zero, Nat.add_zero] at hsplit
  refine ⟨?_, hhigh, hsplit, hsplit ▸ hcons⟩
  rw [List.length_take, List.length_drop]
  omega

theorem window_put (hlen : j + 1 + v.length ≤ u.length) (htop : mag (u.drop (j + 1)) < mag v)
    (hspec : DivStepSpec v ((u.drop j).take (v.length + 1)) w' d) :
    (u.take j ++ w' ++ u.drop (j + (v.length + 1))).length = u.length ∧
      mag ((u.take j ++ w' ++ u.drop (j + (v.length + 1))).drop j) = mag w' ∧
      mag u = d * mag v * (2 ^ 32) ^ j +
        mag (u.take j ++ w' ++ u.drop (j + (v.length + 1))) := by
  obtain ⟨hwlen, hhigh, hsplit, -⟩ := window_bounds hlen htop
  set n := v.length + 1 with hn
  set u1 := u.take j ++ w' ++ u.drop (j + n) with hu1
  have hw'len : w'.length = n := hspec.length.trans hwlen
  have htake : (u.take j).length = j := by rw [List.length_take]; omega
  have hu1len : u1.length = u.length := by
    rw [hu1, List.length_append, List.length_append, htake, hw'len, List.length_drop]
    omega
  have hdrop : mag (u1.drop j) = mag w' := by
    rw [hu1, List.append_assoc, List.drop_append_of_le_length (by omega),
      List.drop_eq_nil_of_le (by omega), List.nil_append, mag_append, hhigh, Nat.mul_zero,
      Nat.add_zero]
  have hlow : u1.take j = u.take j := by
    rw [hu1, List.append_assoc, List.take_append_of_le_length (by omega),
      List.take_of_length_le (by omega)]
  have hu := mag_take_drop j u (by omega)
  have hu1' := mag_take_drop j u1 (by omega)
  rw [hsplit, hspec.value] at hu
  rw [hlow, hdrop] at hu1'
  refine ⟨hu1len, hdrop, ?_⟩
  linear_combination hu - hu1'

end

/-- The invariant of the digit loop: what stands above the position is less than the divisor.
The digits found and what is left of `u` make up `u`. -/
theorem divLoop_spec {v : List UInt32} (hv : Normal v) (j : Nat) (u q : List UInt32)
    (hlen : j + v.length ≤ u.length) (htop : mag (u.drop j) < mag v) :
    ∃ u' ds, divLoop v j u q = some (u', ds ++ q) ∧ ds.length = j ∧ u'.length = u.length ∧
      mag u = mag ds * mag v + mag u' ∧ mag u' < mag v := by
  induction j generalizing u q with
  | zero => exact ⟨u, [], rfl, rfl, rfl, by simp, by simpa using htop⟩
  | succ j ih =>
      obtain ⟨hwlen, -, -, hsmall⟩ := window_bounds hlen htop
      obtain ⟨w', d, hrun, hspec⟩ := divStep_spec hv hwlen hsmall
      obtain ⟨hu1len, hdrop, hput⟩ := window_put hlen htop hspec
      set u1 := u.take j ++ w' ++ u.drop (j + (v.length + 1))
      obtain ⟨u', ds, hloop, hds, hu'len, hval, hlt⟩ := ih u1 (UInt32.ofNat d :: q) (by omega)
        (hdrop ▸ hspec.rest_lt)
      refine ⟨u', ds ++ [UInt32.ofNat d], ?_, by simp [hds], by omega, ?_, hlt⟩
      · rw [divLoop, hrun, List.append_assoc]
        exact hloop
      · rw [hput, hval, mag_append, mag_singleton, toNat_ofNat_u32,
          Nat.mod_eq_of_lt hspec.digit_lt, hds]
        ring

private theorem mag_top {l : List UInt32} (hl : l ≠ []) :
    (l.getLastD 0).toNat * (2 ^ 32) ^ (l.length - 1) ≤ mag l ∧
      mag l < ((l.getLastD 0).toNat + 1) * (2 ^ 32) ^ (l.length - 1) := by
  have hlast : l.getLastD 0 = l.getLast hl := by
    rw [List.getLastD_eq_getLast?, List.getLast?_eq_getLast_of_ne_nil hl]
    rfl
  have hval : mag l = mag l.dropLast + (2 ^ 32) ^ (l.length - 1) * (l.getLast hl).toNat := by
    conv_lhs => rw [← List.dropLast_append_getLast hl]
    rw [mag_append, mag_singleton, List.length_dropLast]
  have hlt := mag_lt l.dropLast
  rw [List.length_dropLast] at hlt
  rw [hlast, hval, Nat.add_mul, Nat.one_mul, Nat.mul_comm (l.getLast hl).toNat]
  omega

private theorem normal_of_scaled {v v' : List UInt32} {s : Nat} (h2 : 2 ≤ v.length)
    (hlow : 2 ^ 31 ≤ (v.getLastD 0).toNat * 2 ^ s) (hhigh : (v.getLastD 0).toNat * 2 ^ s < 2 ^ 32)
    (hs : s < 32) (hval : mag v' = mag v * 2 ^ s) (htrim : Trimmed v')
    (hlen : v.length ≤ v'.length) : v'.length = v.length ∧ Normal v' := by
  have hv : v ≠ [] := by
    rintro rfl
    exact absurd h2 (by decide)
  have hv' : v' ≠ [] := by
    rintro rfl
    simp only [List.length_nil] at hlen
    omega
  obtain ⟨hge, hlt⟩ := mag_top hv
  have hroom : ((v.getLastD 0).toNat + 1) * 2 ^ s ≤ 2 ^ 32 := by
    obtain ⟨c, hc⟩ : 2 ^ s ∣ 2 ^ 32 := pow_dvd_pow 2 hs.le
    rw [hc, Nat.mul_comm (2 ^ s) c] at hhigh ⊢
    exact Nat.mul_le_mul_right _ (Nat.lt_of_mul_lt_mul_right hhigh)
  have hpow : (2 ^ 32) ^ v.length = 2 ^ 32 * (2 ^ 32) ^ (v.length - 1) := by
    conv_lhs => rw [show v.length = v.length - 1 + 1 by omega]
    exact Nat.pow_succ'
  have hbound : mag v' < (2 ^ 32) ^ v.length := by
    calc mag v' = mag v * 2 ^ s := hval
      _ < ((v.getLastD 0).toNat + 1) * (2 ^ 32) ^ (v.length - 1) * 2 ^ s :=
          Nat.mul_lt_mul_of_pos_right hlt (Nat.two_pow_pos s)
      _ = ((v.getLastD 0).toNat + 1) * 2 ^ s * (2 ^ 32) ^ (v.length - 1) := by ring
      _ ≤ 2 ^ 32 * (2 ^ 32) ^ (v.length - 1) := Nat.mul_le_mul_right _ hroom
      _ = (2 ^ 32) ^ v.length := hpow.symm
  have hlen' : v'.length = v.length := by
    refine Nat.le_antisymm ?_ hlen
    by_contra hgt
    have hmono : (2 ^ 32) ^ v.length ≤ (2 ^ 32) ^ (v'.length - 1) :=
      Nat.pow_le_pow_right (by decide) (by omega)
    exact absurd (hmono.trans (htrim.pow_le hv')) (Nat.not_le_of_lt hbound)
  refine ⟨hlen', by omega, ?_⟩
  have hscaled : 2 ^ 31 * (2 ^ 32) ^ (v.length - 1) ≤ mag v' := by
    calc 2 ^ 31 * (2 ^ 32) ^ (v.length - 1)
        ≤ (v.getLastD 0).toNat * 2 ^ s * (2 ^ 32) ^ (v.length - 1) := Nat.mul_le_mul_right _ hlow
      _ = (v.getLastD 0).toNat * (2 ^ 32) ^ (v.length - 1) * 2 ^ s := by ring
      _ ≤ mag v * 2 ^ s := Nat.mul_le_mul_right _ hge
      _ = mag v' := hval.symm
  have htop := (mag_top hv').2
  rw [hlen'] at htop
  exact Nat.le_of_lt_succ (Nat.lt_of_mul_lt_mul_right (Nat.lt_of_le_of_lt hscaled htop))

section

variable {u v u' v' : List UInt32} {s : Nat}

theorem scaled_ready (hs : s < 32) (h2 : 2 ≤ v.length)
    (hlow : 2 ^ 31 ≤ (v.getLastD 0).toNat * 2 ^ s) (hhigh : (v.getLastD 0).toNat * 2 ^ s < 2 ^ 32)
    (huv : v.length < u.length) (hu : mag u' = mag u * 2 ^ s) (hul : u.length ≤ u'.length)
    (hv : mag v' = mag v * 2 ^ s) (hvt : Trimmed v') (hvl : v.length ≤ v'.length) :
    Normal v' ∧ u.length - v.length + 1 + v'.length ≤ (u' ++ [0]).length ∧
      mag (u' ++ [0]) = mag u * 2 ^ s ∧
      mag ((u' ++ [0]).drop (u.length - v.length + 1)) < mag v' := by
  obtain ⟨hlen', hnormal⟩ := normal_of_scaled h2 hlow hhigh hs hv hvt hvl
  have hlen₁ : (u' ++ [0]).length = u'.length + 1 := by simp
  have hmag₁ : mag (u' ++ [0]) = mag u * 2 ^ s := by
    rw [mag_append, mag_singleton, hu]
    exact Nat.add_zero _
  set M := u.length - v.length with hM
  refine ⟨hnormal, by omega, hmag₁, ?_⟩
  by_contra hge
  have hsplit := mag_take_drop (M + 1) (u' ++ [0]) (by omega)
  have hvtop := (mag_top (l := v') (by rintro rfl; simp at hlen'; omega)).1
  have h31 : 2 ^ 31 * (2 ^ 32) ^ (v.length - 1) ≤ mag v' := by
    rw [hlen'] at hvtop
    exact (Nat.mul_le_mul_right _ hnormal.top).trans hvtop
  have hpow : (2 ^ 32) ^ (M + 1) * (2 ^ 32) ^ (v.length - 1) = (2 ^ 32) ^ u.length := by
    rw [← Nat.pow_add]
    congr 1
    omega
  have hlarge : (2 ^ 32) ^ u.length * 2 ^ 31 ≤ mag u * 2 ^ s := by
    calc (2 ^ 32) ^ u.length * 2 ^ 31
        = (2 ^ 32) ^ (M + 1) * (2 ^ 31 * (2 ^ 32) ^ (v.length - 1)) := by rw [← hpow]; ring
      _ ≤ (2 ^ 32) ^ (M + 1) * mag ((u' ++ [0]).drop (M + 1)) :=
          Nat.mul_le_mul_left _ (h31.trans (Nat.le_of_not_lt hge))
      _ ≤ mag (u' ++ [0]) := by rw [hsplit]; exact Nat.le_add_left _ _
      _ = mag u * 2 ^ s := hmag₁
  have hsmall : mag u * 2 ^ s < (2 ^ 32) ^ u.length * 2 ^ 31 := by
    calc mag u * 2 ^ s < (2 ^ 32) ^ u.length * 2 ^ s :=
          Nat.mul_lt_mul_of_pos_right (mag_lt u) (Nat.two_pow_pos s)
      _ ≤ (2 ^ 32) ^ u.length * 2 ^ 31 :=
          Nat.mul_le_mul_left _ (Nat.pow_le_pow_right (by decide) (by omega))
  exact absurd hlarge (Nat.not_le_of_lt hsmall)

/-- The digit loop on scaled operands finds the quotient and the scaled remainder. -/
theorem divLoop_scaled (hs : s < 32) (h2 : 2 ≤ v.length)
    (hlow : 2 ^ 31 ≤ (v.getLastD 0).toNat * 2 ^ s) (hhigh : (v.getLastD 0).toNat * 2 ^ s < 2 ^ 32)
    (huv : v.length < u.length) (hu : mag u' = mag u * 2 ^ s) (hul : u.length ≤ u'.length)
    (hv : mag v' = mag v * 2 ^ s) (hvt : Trimmed v') (hvl : v.length ≤ v'.length) :
    ∃ r qs, divLoop v' (u.length - v.length + 1) (u' ++ [0]) [] = some (r, qs) ∧
      qs.length = u.length - v.length + 1 ∧ r.length = u'.length + 1 ∧
      mag qs = mag u / mag v ∧ mag r = mag u % mag v * 2 ^ s := by
  obtain ⟨hnormal, hlen, hmag₁, htop⟩ := scaled_ready hs h2 hlow hhigh huv hu hul hv hvt hvl
  obtain ⟨r, qs, hrun, hqs, hr, hval, hlt⟩ := divLoop_spec hnormal _ (u' ++ [0]) [] hlen htop
  rw [List.append_nil] at hrun
  rw [hmag₁, hv] at hval
  rw [hv] at hlt
  have hpos : 0 < mag v := by
    have := hnormal.mag_pos
    rw [hv] at this
    exact Nat.pos_of_mul_pos_right this
  have hdm := (Nat.div_mod_unique (a := mag u * 2 ^ s) (d := mag qs) (c := mag r)
    (Nat.mul_pos hpos (Nat.two_pow_pos s))).mpr ⟨by rw [hval]; ring, hlt⟩
  rw [Nat.mul_div_mul_right _ _ (Nat.two_pow_pos s), Nat.mul_mod_mul_right] at hdm
  exact ⟨r, qs, hrun, hqs, by rw [hr, List.length_append, List.length_singleton], hdm.1.symm,
    hdm.2.symm⟩

end

end PGBigNumber
