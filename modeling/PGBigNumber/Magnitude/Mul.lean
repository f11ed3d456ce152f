import PGBigNumber.Magnitude.Basic

/-!
# Multiplication of magnitudes

The in-place product with one limb and the schoolbook product of two limb lists. Both keep every
partial sum inside 64 bits: a limb product plus two limbs is at most `2 ^ 64 - 1`.
-/

namespace PGBigNumber

def mulLoop (b : Nat) : Nat → List UInt32 → List UInt32 × Nat
  | carry, [] => ([], carry)
  | carry, x :: xs =>
      let temp := u64 (x.toNat * b + carry)
      let r := mulLoop b (temp / 2 ^ 32) xs
      (UInt32.ofNat temp :: r.1, r.2)

def gradSchoolMulInplace (a : Slice UInt32) (b : UInt32) : Slice UInt32 :=
  let a := a.slice 0 a.count
  let r := mulLoop b.toNat 0 a.toList
  if r.2 ≠ 0 then (a.assign r.1).append (UInt32.ofNat r.2) else a.assign r.1

/-- What `gradSchoolMulInplace` leaves when its operand shows `a`. -/
def mulLimb (a : List UInt32) (b : UInt32) : List UInt32 :=
  let r := mulLoop b.toNat 0 a
  if r.2 ≠ 0 then r.1 ++ [UInt32.ofNat r.2] else r.1

/-- One row of `detail::gradeSchoolMul`: `result[k]` from `k = i` on, then `result[i + blen]`. -/
def mulRow (x : UInt32) : List UInt32 → List UInt32 → Nat → List UInt32
  | y :: ys, r :: rs, carry =>
      let temp := u64 (x.toNat * y.toNat + r.toNat + carry)
      UInt32.ofNat temp :: mulRow x ys rs (temp / 2 ^ 32)
  | [], _ :: rs, carry => UInt32.ofNat carry :: rs
  | _, [], _ => []

/-- The rows of `detail::gradeSchoolMul`; limb `i` of the result is final after row `i`. -/
def gradeSchoolLoop (b : List UInt32) : List UInt32 → List UInt32 → List UInt32
  | [], result => result
  | x :: xs, result =>
      match mulRow x b result 0 with
      | [] => []
      | r :: rs => r :: gradeSchoolLoop b xs rs

def gradeSchoolMul (a b : Slice UInt32) : Slice UInt32 :=
  let result := Slice.empty.slice 0 (a.count + b.count)
  result.assign (gradeSchoolLoop b.toList a.toList result.toList)

/-- What `gradeSchoolMul` returns for operands that show `a` and `b`. -/
def mulLimbs (a b : List UInt32) : List UInt32 :=
  gradeSchoolLoop b a (List.replicate (a.length + b.length) 0)

@[simp]
theorem length_mulLoop (b carry : Nat) (l : List UInt32) :
    (mulLoop b carry l).1.length = l.length := by
  induction l generalizing carry with
  | nil => rfl
  | cons x xs ih => simp [mulLoop, ih]

theorem mul_add_lt {x y r c : Nat} (hx : x < 2 ^ 32) (hy : y < 2 ^ 32) (hr : r < 2 ^ 32)
    (hc : c < 2 ^ 32) : x * y + r + c < 2 ^ 64 := by
  have h : x * y ≤ (2 ^ 32 - 1) * (2 ^ 32 - 1) := Nat.mul_le_mul (by omega) (by omega)
  omega

theorem mag_mulLoop {b : Nat} (hb : b < 2 ^ 32) (carry : Nat) (hc : carry < 2 ^ 32)
    (l : List UInt32) :
    mag (mulLoop b carry l).1 + (2 ^ 32) ^ l.length * (mulLoop b carry l).2 =
        mag l * b + carry ∧ (mulLoop b carry l).2 < 2 ^ 32 := by
  induction l generalizing carry with
  | nil => simpa [mulLoop] using hc
  | cons x xs ih =>
      have hfit := mul_add_lt x.toNat_lt hb (Nat.zero_lt_of_lt hc) hc
      rw [Nat.add_zero] at hfit
      have hu := u64_of_lt hfit
      obtain ⟨hv, hlt⟩ := ih (u64 (x.toNat * b + carry) / 2 ^ 32) (by rw [hu]; omega)
      refine ⟨?_, hlt⟩
      simp only [mulLoop, mag_cons, List.length_cons, limbs_pow_succ, toNat_ofNat_u32, Nat.add_mul,
        Nat.mul_assoc]
      rw [hu] at hv ⊢
      omega

section gradSchoolMulInplace

variable {a : Slice UInt32}

theorem toList_slice_self (ha : a.Wf) : (a.slice 0 a.count).toList = a.toList := by
  rw [Slice.toList_slice ha (Nat.zero_le _) (Nat.le_refl _), List.drop_zero,
    ← Slice.length_toList ha, List.take_length]

theorem gradSchoolMulInplace_wf (ha : a.Wf) (b : UInt32) : (gradSchoolMulInplace a b).Wf := by
  have hs := Slice.slice_wf ha (Nat.zero_le a.count)
  unfold gradSchoolMulInplace
  dsimp only
  split
  · exact Slice.append_wf (Slice.assign_wf hs _) _
  · exact Slice.assign_wf hs _

theorem toList_gradSchoolMulInplace (ha : a.Wf) (b : UInt32) :
    (gradSchoolMulInplace a b).toList = mulLimb a.toList b := by
  have hs := Slice.slice_wf ha (Nat.zero_le a.count)
  have hlen : (mulLoop b.toNat 0 a.toList).1.length = (a.slice 0 a.count).count := by
    rw [length_mulLoop, Slice.length_toList ha, Slice.count_slice (Nat.zero_le _), Nat.sub_zero]
  unfold gradSchoolMulInplace mulLimb
  simp only [toList_slice_self ha]
  split
  · rw [Slice.toList_append (Slice.assign_wf hs _), Slice.toList_assign hs hlen]
  · exact Slice.toList_assign hs hlen

end gradSchoolMulInplace

theorem mag_mulLimb (a : List UInt32) (b : UInt32) : mag (mulLimb a b) = mag a * b.toNat := by
  obtain ⟨hv, hlt⟩ := mag_mulLoop b.toNat_lt 0 (by decide) a
  unfold mulLimb
  dsimp only
  split
  next h =>
    rw [mag_append, mag_singleton, toNat_ofNat_u32, Nat.mod_eq_of_lt hlt, length_mulLoop, hv,
      Nat.add_zero]
  next h =>
    rw [not_not.mp h, Nat.mul_zero] at hv
    exact hv

theorem length_le_mulLimb (a : List UInt32) (b : UInt32) :
    a.length ≤ (mulLimb a b).length := by
  unfold mulLimb
  dsimp only
  split
  · rw [List.length_append, length_mulLoop]
    exact Nat.le_succ _
  · rw [length_mulLoop]

theorem trimmed_mulLimb_of_le {a : List UInt32} {b : UInt32}
    (h : a ≠ [] → (2 ^ 32) ^ (a.length - 1) ≤ mag a * b.toNat) : Trimmed (mulLimb a b) := by
  have hv := mag_mulLimb a b
  have hlt := (mag_mulLoop b.toNat_lt 0 (by decide) a).2
  unfold mulLimb at hv ⊢
  dsimp only at hv ⊢
  split
  next hc =>
    apply trimmed_concat
    intro h0
    have := congrArg UInt32.toNat h0
    rw [toNat_ofNat_u32, Nat.mod_eq_of_lt hlt] at this
    exact hc this
  next hc =>
    rw [if_neg hc] at hv
    apply trimmed_of_pow_le
    intro hne
    rw [hv, length_mulLoop]
    apply h
    rintro rfl
    exact hne rfl

theorem trimmed_mulLimb {a : List UInt32} {b : UInt32} (ha : Trimmed a) (hb : b ≠ 0) :
    Trimmed (mulLimb a b) := by
  have hb1 : 1 ≤ b.toNat := by
    have : b.toNat ≠ 0 := fun h => hb (UInt32.toNat_inj.mp h)
    omega
  apply trimmed_mulLimb_of_le
  intro hne
  calc (2 ^ 32) ^ (a.length - 1) ≤ mag a := ha.pow_le hne
    _ = mag a * 1 := (Nat.mul_one _).symm
    _ ≤ mag a * b.toNat := Nat.mul_le_mul_left _ hb1

theorem length_mulRow (x : UInt32) (b r : List UInt32) (carry : Nat) :
    (mulRow x b r carry).length = r.length := by
  induction b generalizing r carry with
  | nil => cases r <;> rfl
  | cons y ys ih =>
      cases r with
      | nil => rfl
      | cons z zs => simp [mulRow, ih]

theorem drop_mulRow (x : UInt32) (b r : List UInt32) (carry : Nat) :
    (mulRow x b r carry).drop (b.length + 1) = r.drop (b.length + 1) := by
  induction b generalizing r carry with
  | nil => cases r <;> simp [mulRow]
  | cons y ys ih =>
      cases r with
      | nil => simp [mulRow]
      | cons z zs => simp [mulRow, ih]

/-- A row adds `x * b` when the limb that takes its carry is still zero. -/
theorem mag_mulRow (x : UInt32) (b r : List UInt32) (carry : Nat) (hc : carry < 2 ^ 32)
    (hlen : b.length < r.length) (hzero : r[b.length] = 0) :
    mag (mulRow x b r carry) = mag r + x.toNat * mag b + carry := by
  induction b generalizing r carry with
  | nil =>
      cases r with
      | nil => simp at hlen
      | cons z zs =>
          have hz : z = 0 := hzero
          subst z
          simp only [mulRow, mag_cons, toNat_ofNat_u32, Nat.mod_eq_of_lt hc, mag_nil, Nat.mul_zero,
            UInt32.toNat_zero]
          omega
  | cons y ys ih =>
      cases r with
      | nil => simp at hlen
      | cons z zs =>
          have hfit := mul_add_lt x.toNat_lt y.toNat_lt z.toNat_lt hc
          have hu := u64_of_lt hfit
          have hv := ih zs (u64 (x.toNat * y.toNat + z.toNat + carry) / 2 ^ 32)
            (by rw [hu]; omega) (by simpa using hlen) (by simpa using hzero)
          simp only [mulRow, mag_cons, toNat_ofNat_u32, Nat.mul_add]
          rw [hu] at hv ⊢
          have hcomm : x.toNat * (2 ^ 32 * mag ys) = 2 ^ 32 * (x.toNat * mag ys) :=
            Nat.mul_left_comm _ _ _
          omega

theorem length_gradeSchoolLoop (b a r : List UInt32) (hr : a.length ≤ r.length) :
    (gradeSchoolLoop b a r).length = r.length := by
  induction a generalizing r with
  | nil => rfl
  | cons x xs ih =>
      have hlen := length_mulRow x b r 0
      unfold gradeSchoolLoop
      split
      next h =>
        rw [h] at hlen
        exact hlen
      next y ys h =>
        rw [h] at hlen
        simp only [List.length_cons] at hlen hr ⊢
        rw [ih ys (by omega), hlen]

/-- Row invariant: the limbs that no row has reached yet are zero. -/
theorem mag_gradeSchoolLoop (b a r : List UInt32)
    (hr : r.drop b.length = List.replicate a.length 0) (hlen : b.length ≤ r.length) :
    mag (gradeSchoolLoop b a r) = mag r + mag a * mag b := by
  induction a generalizing r with
  | nil => simp [gradeSchoolLoop]
  | cons x xs ih =>
      have hrlen : r.length = b.length + (xs.length + 1) := by
        have := congrArg List.length hr
        simp only [List.length_drop, List.length_replicate, List.length_cons] at this
        omega
      have hlt : b.length < r.length := by omega
      have hzero : r[b.length] = 0 := by
        have h0 : (r.drop b.length)[0]? = some 0 := by
          rw [hr, List.getElem?_replicate]
          simp
        rw [List.getElem?_drop, Nat.add_zero, List.getElem?_eq_getElem hlt] at h0
        exact Option.some.inj h0
      have hrow := mag_mulRow x b r 0 (by decide) hlt hzero
      have hdrop := drop_mulRow x b r 0
      have hrowlen := length_mulRow x b r 0
      unfold gradeSchoolLoop
      split
      next h =>
        rw [h] at hrowlen
        simp only [List.length_nil] at hrowlen
        omega
      next y ys h =>
        rw [h] at hrow hdrop hrowlen
        simp only [List.drop_succ_cons, List.length_cons] at hdrop hrowlen
        have hys : ys.drop b.length = List.replicate xs.length 0 := by
          rw [hdrop, ← List.drop_drop, hr, List.drop_replicate]
          simp
        rw [mag_cons, ih ys hys (by omega), mag_cons]
        rw [mag_cons] at hrow
        have hexp : (x.toNat + 2 ^ 32 * mag xs) * mag b =
            x.toNat * mag b + 2 ^ 32 * (mag xs * mag b) := by ring
        omega

theorem gradeSchoolMul_wf (a b : Slice UInt32) : (gradeSchoolMul a b).Wf :=
  Slice.assign_wf (Slice.slice_wf Slice.empty_wf (Nat.zero_le _)) _

theorem toList_gradeSchoolMul {a b : Slice UInt32} (ha : a.Wf) (hb : b.Wf) :
    (gradeSchoolMul a b).toList = mulLimbs a.toList b.toList := by
  unfold gradeSchoolMul mulLimbs
  dsimp only
  rw [Slice.toList_empty_slice, ← Slice.length_toList ha, ← Slice.length_toList hb]
  apply Slice.toList_assign (Slice.slice_wf Slice.empty_wf (Nat.zero_le _))
  rw [length_gradeSchoolLoop _ _ _ (by simp only [List.length_replicate]; omega),
    List.length_replicate, Slice.count_slice (Nat.zero_le _), Nat.sub_zero]

theorem mag_mulLimbs (a b : List UInt32) : mag (mulLimbs a b) = mag a * mag b := by
  rw [mulLimbs, mag_gradeSchoolLoop, mag_replicate_zero, Nat.zero_add]
  · rw [List.drop_replicate, Nat.add_sub_cancel]
  · simp

end PGBigNumber
