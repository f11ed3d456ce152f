import PGBigNumber.Magnitude.Basic
import Mathlib.Tactic.LinearCombination

/-!
# Addition and subtraction of magnitudes

`addMag` and `subMag` write the result over their first operand. The second operand of `addMag`
may be that very slice, so the loops read it through an `Operand`.
-/

namespace PGBigNumber

/-- The right operand of an in-place operation: the slice being written or another one. -/
inductive Operand where
  | self
  | other (b : Slice UInt32)

namespace Operand

def count (a : Slice UInt32) : Operand → Nat
  | self => a.count
  | other b => b.count

/-- Limb `i` at a moment when limb `i` of the written slice still holds `x`. -/
def limb (i : Nat) (x : UInt32) : Operand → UInt32
  | self => x
  | other b => b.toList.getD i 0

def toList (a : Slice UInt32) : Operand → List UInt32
  | self => a.toList
  | other b => b.toList

def Wf : Operand → Prop
  | self => True
  | other b => b.Wf

theorem length_toList {a : Slice UInt32} {o : Operand} (ha : a.Wf) (ho : o.Wf) :
    (o.toList a).length = o.count a := by
  cases o with
  | self => exact Slice.length_toList ha
  | other b => exact Slice.length_toList ho

end Operand

/-- `for (; i < minlen; ++i)` of `detail::addMag`; `sum` carries in its high half. -/
def addLoop (b : Operand) : Nat → Nat → List UInt32 → List UInt32 × Nat
  | _, sum, [] => ([], sum)
  | i, sum, x :: xs =>
      let sum' := u64 (x.toNat + (b.limb i x).toNat + sum / 2 ^ 32)
      let r := addLoop b (i + 1) sum' xs
      (UInt32.ofNat sum' :: r.1, r.2)

/-- `while (i < maxlen && carry)` of `detail::addMag`, followed by its `memcpy`. -/
def carryLoop (temp : Operand) : Nat → Bool → List UInt32 → List UInt32 × Bool
  | _, carry, [] => ([], carry)
  | i, true, x :: xs =>
      let y := temp.limb i x + 1
      let r := carryLoop temp (i + 1) (y == 0) xs
      (y :: r.1, r.2)
  | i, false, x :: xs =>
      let r := carryLoop temp (i + 1) false xs
      (temp.limb i x :: r.1, r.2)

/-- Write the loop's limbs back and, `if (carry)`, `a.append(0x1)`. -/
def putCarry (a : Slice UInt32) (r : List UInt32 × Bool) : Slice UInt32 :=
  if r.2 then (a.assign r.1).append 1 else a.assign r.1

def addMag (a : Slice UInt32) (b : Operand) : Slice UInt32 :=
  let maxlen := max a.count (b.count a)
  let minlen := min a.count (b.count a)
  let temp := if maxlen = a.count then Operand.self else b
  let a := a.slice 0 maxlen
  let low := addLoop b 0 0 (a.toList.take minlen)
  let high := carryLoop temp minlen (low.2 / 2 ^ 32 != 0) (a.toList.drop minlen)
  putCarry a (low.1 ++ high.1, high.2)

/-- The limb loop of `detail::subMag`; `diff` borrows through its arithmetic shift. -/
def subLoop : Int → List UInt32 → List UInt32 → List UInt32 × Int
  | diff, x :: xs, y :: ys =>
      let diff' := (x.toNat : Int) - y.toNat + (diff >>> (32 : Nat))
      let r := subLoop diff' xs ys
      (narrow diff' :: r.1, r.2)
  | diff, _, _ => ([], diff)

/-- `borrow = (--a[i++] == 0xffffffff)` while there is a borrow. -/
def borrowLoop : Bool → List UInt32 → List UInt32 × Bool
  | borrow, [] => ([], borrow)
  | true, x :: xs =>
      let r := borrowLoop (x - 1 == 0xffffffff) xs
      ((x - 1) :: r.1, r.2)
  | false, xs => (xs, false)

def subLimbs (a b : List UInt32) : List UInt32 :=
  let low := subLoop 0 (a.take b.length) b
  low.1 ++ (borrowLoop (low.2 >>> (32 : Nat) != 0) (a.drop b.length)).1

def subMag (a b : Slice UInt32) : Slice UInt32 := a.assign (subLimbs a.toList b.toList)

def incLoop : Bool → List UInt32 → List UInt32 × Bool
  | carry, [] => ([], carry)
  | true, x :: xs =>
      let r := incLoop (x + 1 == 0) xs
      ((x + 1) :: r.1, r.2)
  | false, xs => (xs, false)

def inc (a : Slice UInt32) : Slice UInt32 := putCarry a (incLoop true a.toList)

def dec (a : Slice UInt32) : Slice UInt32 :=
  eraseZerosSuffix (a.assign (borrowLoop true a.toList).1)

def addLists : Nat → List UInt32 → List UInt32 → List UInt32 × Nat
  | sum, x :: xs, y :: ys =>
      let sum' := u64 (x.toNat + y.toNat + sum / 2 ^ 32)
      let r := addLists sum' xs ys
      (UInt32.ofNat sum' :: r.1, r.2)
  | sum, _, _ => ([], sum)

def withCarry (r : List UInt32 × Bool) : List UInt32 := if r.2 then r.1 ++ [1] else r.1

def addLimbs (a b : List UInt32) : List UInt32 :=
  let long := if b.length ≤ a.length then a else b
  let n := min a.length b.length
  let low := addLists 0 (a.take n) (b.take n)
  let high := incLoop (low.2 / 2 ^ 32 != 0) (long.drop n)
  withCarry (low.1 ++ high.1, high.2)

def incLimbs (a : List UInt32) : List UInt32 := withCarry (incLoop true a)

def decLimbs (a : List UInt32) : List UInt32 := trim (borrowLoop true a).1

@[simp]
theorem length_incLoop (c : Bool) (l : List UInt32) : (incLoop c l).1.length = l.length := by
  induction l generalizing c with
  | nil => simp [incLoop]
  | cons x xs ih => cases c <;> simp [incLoop, ih]

@[simp]
theorem length_borrowLoop (c : Bool) (l : List UInt32) :
    (borrowLoop c l).1.length = l.length := by
  induction l generalizing c with
  | nil => simp [borrowLoop]
  | cons x xs ih => cases c <;> simp [borrowLoop, ih]

theorem length_addLists (sum : Nat) (xs ys : List UInt32) (hlen : xs.length = ys.length) :
    (addLists sum xs ys).1.length = xs.length := by
  induction xs generalizing sum ys with
  | nil => simp [addLists]
  | cons x xs ih =>
      cases ys with
      | nil => simp at hlen
      | cons y ys => simp [addLists, ih _ ys (by simpa using hlen)]

theorem length_subLoop (diff : Int) (xs ys : List UInt32) (hlen : xs.length = ys.length) :
    (subLoop diff xs ys).1.length = xs.length := by
  induction xs generalizing diff ys with
  | nil => simp [subLoop]
  | cons x xs ih =>
      cases ys with
      | nil => simp at hlen
      | cons y ys => simp [subLoop, ih _ ys (by simpa using hlen)]

private theorem addLoop_eq (b : Operand) (i sum : Nat) (xs ys : List UInt32)
    (hlen : xs.length = ys.length)
    (hread : ∀ k (hx : k < xs.length), b.limb (i + k) xs[k] = ys.get ⟨k, hlen ▸ hx⟩) :
    addLoop b i sum xs = addLists sum xs ys := by
  induction xs generalizing i sum ys with
  | nil => simp [addLoop, addLists]
  | cons x xs ih =>
      cases ys with
      | nil => simp at hlen
      | cons y ys =>
          have h0 : b.limb i x = y := hread 0 (by simp)
          have hrest : ∀ k (hx : k < xs.length),
              b.limb (i + 1 + k) xs[k] = ys.get ⟨k, by simp at hlen; omega⟩ := by
            intro k hx
            have := hread (k + 1) (by simpa using hx)
            rwa [show i + (k + 1) = i + 1 + k by omega] at this
          simp only [addLoop, addLists, h0]
          rw [ih (i + 1) _ ys (by simpa using hlen) hrest]

private theorem carryLoop_eq (temp : Operand) (i : Nat) (c : Bool) (xs ys : List UInt32)
    (hlen : xs.length = ys.length)
    (hread : ∀ k (hx : k < xs.length), temp.limb (i + k) xs[k] = ys.get ⟨k, hlen ▸ hx⟩) :
    carryLoop temp i c xs = incLoop c ys := by
  induction xs generalizing i c ys with
  | nil =>
      have : ys = [] := List.length_eq_zero_iff.mp hlen.symm
      subst ys
      simp [carryLoop, incLoop]
  | cons x xs ih =>
      cases ys with
      | nil => simp at hlen
      | cons y ys =>
          have h0 : temp.limb i x = y := hread 0 (by simp)
          have hrest : ∀ k (hx : k < xs.length),
              temp.limb (i + 1 + k) xs[k] = ys.get ⟨k, by simp at hlen; omega⟩ := by
            intro k hx
            have := hread (k + 1) (by simpa using hx)
            rwa [show i + (k + 1) = i + 1 + k by omega] at this
          have htail := fun c => ih (i + 1) c ys (by simpa using hlen) hrest
          cases c with
          | true => simp only [carryLoop, incLoop, h0, htail]
          | false =>
              simp only [carryLoop, incLoop, h0, htail]
              cases ys <;> simp [incLoop]

theorem putCarry_wf {a : Slice UInt32} (ha : a.Wf) (r : List UInt32 × Bool) :
    (putCarry a r).Wf := by
  unfold putCarry
  split
  · exact Slice.append_wf (Slice.assign_wf ha _) _
  · exact Slice.assign_wf ha _

theorem toList_putCarry {a : Slice UInt32} (ha : a.Wf) (r : List UInt32 × Bool)
    (hr : r.1.length = a.count) : (putCarry a r).toList = withCarry r := by
  unfold putCarry withCarry
  split
  · rw [Slice.toList_append (Slice.assign_wf ha _), Slice.toList_assign ha hr]
  · exact Slice.toList_assign ha hr

theorem addMag_wf {a : Slice UInt32} (b : Operand) (ha : a.Wf) : (addMag a b).Wf :=
  putCarry_wf (Slice.slice_wf ha (Nat.zero_le _)) _

private theorem addMag_low {a : Slice UInt32} {b : Operand} (ha : a.Wf) (hb : b.Wf) :
    addLoop b 0 0 ((a.slice 0 (max a.count (b.count a))).toList.take (min a.count (b.count a))) =
      addLists 0 (a.toList.take (min a.count (b.count a)))
        ((b.toList a).take (min a.count (b.count a))) := by
  have hla := Slice.length_toList ha
  have hlb := Operand.length_toList ha hb
  rw [Slice.toList_slice_widen ha (Nat.le_max_left _ _),
    List.take_append_of_le_length (by omega)]
  apply addLoop_eq _ _ _ _ _ (by simp only [List.length_take]; omega)
  · intro k hk
    rw [List.length_take] at hk
    rw [Nat.zero_add, List.get_eq_getElem, List.getElem_take, List.getElem_take]
    cases b with
    | self => rfl
    | other b => exact List.getD_eq_getElem _ _ _

private theorem addMag_high {a : Slice UInt32} {b : Operand} (ha : a.Wf) (hb : b.Wf) (c : Bool) :
    carryLoop (if max a.count (b.count a) = a.count then Operand.self else b)
        (min a.count (b.count a)) c
        ((a.slice 0 (max a.count (b.count a))).toList.drop (min a.count (b.count a))) =
      incLoop c ((if (b.toList a).length ≤ a.toList.length then a.toList
        else b.toList a).drop (min a.count (b.count a))) := by
  have hla := Slice.length_toList ha
  have hlb := Operand.length_toList ha hb
  have hlen := Slice.length_toList
    (Slice.slice_wf ha (Nat.zero_le (max a.count (b.count a))))
  rw [Slice.count_slice (Nat.zero_le _)] at hlen
  by_cases hle : b.count a ≤ a.count
  · have hwm : (a.slice 0 (max a.count (b.count a))).toList = a.toList := by
      rw [Slice.toList_slice_widen ha (Nat.le_max_left _ _),
        show max a.count (b.count a) - a.count = 0 by omega]
      simp [Slice.resize]
    rw [if_pos (by omega), if_pos (by omega), hwm]
    exact carryLoop_eq _ _ c _ _ rfl (fun k hk => rfl)
  · rw [if_neg (by omega), if_neg (by omega)]
    cases b with
    | self => exact absurd (Nat.le_refl a.count) hle
    | other b =>
        simp only [Operand.toList, Operand.count] at *
        apply carryLoop_eq
        · intro k hk
          rw [List.length_drop] at hk
          simp only [Operand.limb, List.get_eq_getElem, List.getElem_drop]
          exact List.getD_eq_getElem _ _ _
        · rw [List.length_drop, List.length_drop]
          omega

theorem toList_addMag {a : Slice UInt32} {b : Operand} (ha : a.Wf) (hb : b.Wf) :
    (addMag a b).toList = addLimbs a.toList (b.toList a) := by
  have hla := Slice.length_toList ha
  have hlb := Operand.length_toList ha hb
  unfold addMag
  dsimp only
  rw [toList_putCarry (Slice.slice_wf ha (Nat.zero_le _)), addMag_low ha hb, addMag_high ha hb]
  · unfold addLimbs
    simp only [hla, hlb]
  · rw [addMag_low ha hb, addMag_high ha hb, List.length_append, length_incLoop,
      length_addLists _ _ _ (by simp only [List.length_take]; omega), List.length_take,
      List.length_drop, Slice.count_slice (Nat.zero_le _)]
    split <;> omega

theorem length_subLimbs (a b : List UInt32) (h : b.length ≤ a.length) :
    (subLimbs a b).length = a.length := by
  simp only [subLimbs, List.length_append, length_borrowLoop, List.length_drop]
  rw [length_subLoop _ _ _ (by rw [List.length_take]; omega), List.length_take]
  omega

theorem subMag_wf {a : Slice UInt32} (b : Slice UInt32) (ha : a.Wf) : (subMag a b).Wf :=
  Slice.assign_wf ha _

theorem toList_subMag {a b : Slice UInt32} (ha : a.Wf) (h : b.toList.length ≤ a.toList.length) :
    (subMag a b).toList = subLimbs a.toList b.toList := by
  apply Slice.toList_assign ha
  rw [length_subLimbs _ _ h, Slice.length_toList ha]

theorem inc_wf {a : Slice UInt32} (ha : a.Wf) : (inc a).Wf := putCarry_wf ha _

theorem toList_inc {a : Slice UInt32} (ha : a.Wf) : (inc a).toList = incLimbs a.toList :=
  toList_putCarry ha _ (by rw [length_incLoop, Slice.length_toList ha])

theorem dec_wf {a : Slice UInt32} (ha : a.Wf) : (dec a).Wf :=
  eraseZerosSuffix_wf (Slice.assign_wf ha _)

theorem toList_dec {a : Slice UInt32} (ha : a.Wf) : (dec a).toList = decLimbs a.toList := by
  rw [dec, toList_eraseZerosSuffix (Slice.assign_wf ha _),
    Slice.toList_assign ha (by rw [length_borrowLoop, Slice.length_toList ha])]
  rfl

theorem u32_add_one (x : UInt32) :
    (x + 1).toNat + 2 ^ 32 * (x + 1 == 0).toNat = x.toNat + 1 := by
  have hx := x.toNat_lt
  have hadd : (x + 1).toNat = (x.toNat + 1) % 2 ^ 32 := UInt32.toNat_add x 1
  by_cases h : x + 1 = 0
  · have h0 : (x + 1).toNat = 0 := by rw [h]; rfl
    simp only [h, beq_self_eq_true, Bool.toNat_true, UInt32.toNat_zero]
    omega
  · have h0 : (x + 1).toNat ≠ 0 := fun he => h (UInt32.toNat_inj.mp he)
    simp only [beq_eq_false_iff_ne.mpr h, Bool.toNat_false]
    omega

theorem u32_sub_one (x : UInt32) :
    (x - 1).toNat + 1 = x.toNat + 2 ^ 32 * (x - 1 == 0xffffffff).toNat := by
  have hx := x.toNat_lt
  have hsub : (x - 1).toNat = (2 ^ 32 - 1 + x.toNat) % 2 ^ 32 := UInt32.toNat_sub x 1
  by_cases h : x - 1 = 0xffffffff
  · have h0 : (x - 1).toNat = 0xffffffff := by rw [h]; rfl
    rw [h] at h0 hsub ⊢
    simp only [beq_self_eq_true, Bool.toNat_true]
    omega
  · have h0 : (x - 1).toNat ≠ 0xffffffff := fun he => h (UInt32.toNat_inj.mp he)
    simp only [beq_eq_false_iff_ne.mpr h, Bool.toNat_false]
    omega

theorem mag_incLoop (c : Bool) (l : List UInt32) :
    mag (incLoop c l).1 + (2 ^ 32) ^ l.length * (incLoop c l).2.toNat = mag l + c.toNat := by
  induction l generalizing c with
  | nil => simp [incLoop]
  | cons x xs ih =>
      cases c with
      | false => simp [incLoop]
      | true =>
          have hx := u32_add_one x
          have h := ih (x + 1 == 0)
          simp only [incLoop, mag_cons, List.length_cons, limbs_pow_succ,
            Bool.toNat_true]
          omega

theorem mag_borrowLoop (c : Bool) (l : List UInt32) :
    mag (borrowLoop c l).1 + c.toNat =
      mag l + (2 ^ 32) ^ l.length * (borrowLoop c l).2.toNat := by
  induction l generalizing c with
  | nil => simp [borrowLoop]
  | cons x xs ih =>
      cases c with
      | false => simp [borrowLoop]
      | true =>
          have hx := u32_sub_one x
          have h := ih (x - 1 == 0xffffffff)
          simp only [borrowLoop, mag_cons, List.length_cons, limbs_pow_succ,
            Bool.toNat_true]
          omega

theorem mag_withCarry (r : List UInt32 × Bool) :
    mag (withCarry r) = mag r.1 + (2 ^ 32) ^ r.1.length * r.2.toNat := by
  unfold withCarry
  split
  next h => simp [mag_append, h]
  next h => simp [Bool.eq_false_iff.mpr h]

theorem mag_addLists (sum : Nat) (xs ys : List UInt32) (hlen : xs.length = ys.length)
    (hsum : sum < 2 ^ 33) :
    mag (addLists sum xs ys).1 + (2 ^ 32) ^ xs.length * ((addLists sum xs ys).2 / 2 ^ 32) =
        mag xs + mag ys + sum / 2 ^ 32 ∧
      (addLists sum xs ys).2 < 2 ^ 33 := by
  induction xs generalizing sum ys with
  | nil =>
      have : ys = [] := List.length_eq_zero_iff.mp hlen.symm
      subst ys
      simpa [addLists] using hsum
  | cons x xs ih =>
      cases ys with
      | nil => simp at hlen
      | cons y ys =>
          have hx := x.toNat_lt
          have hy := y.toNat_lt
          have hfit : x.toNat + y.toNat + sum / 2 ^ 32 < 2 ^ 33 := by omega
          have hu := u64_of_lt (Nat.lt_trans hfit (by decide))
          obtain ⟨hv, hlt⟩ := ih (u64 (x.toNat + y.toNat + sum / 2 ^ 32)) ys
            (by simpa using hlen) (by rw [hu]; exact hfit)
          simp only [addLists]
          refine ⟨?_, hlt⟩
          simp only [mag_cons, List.length_cons, limbs_pow_succ, toNat_ofNat_u32]
          rw [hu] at hv ⊢
          omega

theorem length_addLimbs_low (a b : List UInt32) :
    (addLists 0 (a.take (min a.length b.length)) (b.take (min a.length b.length))).1.length =
      min a.length b.length := by
  rw [length_addLists _ _ _ (by simp only [List.length_take]; omega), List.length_take]
  omega

private theorem addLimbs_parts (a b : List UInt32) :
    ∃ r : List UInt32 × Bool, addLimbs a b = withCarry r ∧
      r.1.length = max a.length b.length ∧ mag (withCarry r) = mag a + mag b := by
  set n := min a.length b.length with hn
  set low := addLists 0 (a.take n) (b.take n) with hlow
  set long := if b.length ≤ a.length then a else b with hlong
  set high := incLoop (low.2 / 2 ^ 32 != 0) (long.drop n) with hhigh
  have hlen : low.1.length = n := length_addLimbs_low a b
  have hlonglen : long.length = max a.length b.length := by rw [hlong]; split <;> omega
  refine ⟨(low.1 ++ high.1, high.2), rfl, ?_, ?_⟩
  · simp only [List.length_append, hlen, hhigh, length_incLoop, List.length_drop, hlonglen]
    omega
  · have hshort : (a.take n).length = n := by rw [List.length_take]; omega
    obtain ⟨hv, hlt⟩ := mag_addLists 0 (a.take n) (b.take n)
      (by simp only [List.length_take]; omega) (by decide)
    rw [← hlow, hshort] at hv
    have hc := mag_incLoop (low.2 / 2 ^ 32 != 0) (long.drop n)
    rw [← hhigh, List.length_drop] at hc
    have hcarry : (low.2 / 2 ^ 32 != 0).toNat = low.2 / 2 ^ 32 := by
      rw [← hlow] at hlt
      have : low.2 / 2 ^ 32 = 0 ∨ low.2 / 2 ^ 32 = 1 := by omega
      rcases this with h | h <;> rw [h] <;> rfl
    have hsplit : mag a + mag b = mag (a.take n) + mag (b.take n) +
        (2 ^ 32) ^ n * mag (long.drop n) := by
      rw [mag_take_drop n a (by omega), mag_take_drop n b (by omega), hlong]
      split
      next hle =>
        rw [List.drop_eq_nil_of_le (by omega : b.length ≤ n), mag_nil]
        omega
      next hgt =>
        rw [List.drop_eq_nil_of_le (by omega : a.length ≤ n), mag_nil]
        omega
    rw [mag_withCarry, mag_append, hsplit, hlen]
    simp only [List.length_append, hlen, hhigh, length_incLoop, List.length_drop]
    rw [← hhigh, pow_add, Nat.mul_assoc]
    rw [hcarry] at hc
    have hmul := congrArg ((2 ^ 32) ^ n * ·) hc
    simp only [Nat.mul_add] at hmul
    omega

theorem mag_addLimbs (a b : List UInt32) : mag (addLimbs a b) = mag a + mag b := by
  obtain ⟨r, hr, -, hv⟩ := addLimbs_parts a b
  rw [hr, hv]

theorem trimmed_addLimbs_of_le {a b : List UInt32}
    (h : max a.length b.length ≠ 0 →
      (2 ^ 32) ^ (max a.length b.length - 1) ≤ mag a + mag b) : Trimmed (addLimbs a b) := by
  obtain ⟨r, hr, hlen, hv⟩ := addLimbs_parts a b
  rw [hr]
  unfold withCarry at hv ⊢
  split
  next => exact trimmed_concat (by decide)
  next hc =>
    rw [if_neg hc] at hv
    apply trimmed_of_pow_le
    intro hne
    rw [hv, hlen]
    exact h (by rwa [← hlen, Ne, List.length_eq_zero_iff])

theorem trimmed_addLimbs {a b : List UInt32} (ha : Trimmed a) (hb : Trimmed b) :
    Trimmed (addLimbs a b) := by
  apply trimmed_addLimbs_of_le
  intro hne
  rcases Nat.le_total b.length a.length with hle | hle
  · rw [Nat.max_eq_left hle] at hne ⊢
    exact Nat.le_add_right_of_le (ha.pow_le (List.ne_nil_of_length_pos (by omega)))
  · rw [Nat.max_eq_right hle] at hne ⊢
    exact Nat.le_add_left_of_le (hb.pow_le (List.ne_nil_of_length_pos (by omega)))

theorem mag_incLimbs (a : List UInt32) : mag (incLimbs a) = mag a + 1 := by
  have h := mag_incLoop true a
  rw [incLimbs, mag_withCarry, length_incLoop, h]
  rfl

theorem trimmed_incLimbs {a : List UInt32} (ha : Trimmed a) : Trimmed (incLimbs a) := by
  have hv := mag_incLimbs a
  unfold incLimbs withCarry at hv ⊢
  split
  next h => exact trimmed_concat (by decide)
  next h =>
    rw [if_neg h] at hv
    apply trimmed_of_pow_le
    intro hne
    rw [hv, length_incLoop]
    by_cases hane : a = []
    · subst a
      exact absurd rfl hne
    · exact Nat.le_add_right_of_le (ha.pow_le hane)

theorem incLimbs_ne_nil (a : List UInt32) : incLimbs a ≠ [] := by
  intro h
  have := mag_incLimbs a
  rw [h, mag_nil] at this
  omega

theorem trimmed_decLimbs (a : List UInt32) : Trimmed (decLimbs a) := trimmed_trim _

theorem mag_decLimbs {a : List UInt32} (ha : 0 < mag a) : mag (decLimbs a) = mag a - 1 := by
  have h := mag_borrowLoop true a
  have hlt := mag_lt (borrowLoop true a).1
  rw [length_borrowLoop] at hlt
  rw [decLimbs, mag_trim]
  cases hb : (borrowLoop true a).2 with
  | false =>
      simp only [hb, Bool.toNat_true, Bool.toNat_false, Nat.mul_zero] at h
      omega
  | true =>
      simp only [hb, Bool.toNat_true, Nat.mul_one] at h
      omega

theorem mag_subLoop (diff : Int) (xs ys : List UInt32) (hlen : xs.length = ys.length)
    (hdiff : diff >>> (32 : Nat) = 0 ∨ diff >>> (32 : Nat) = -1) :
    (mag (subLoop diff xs ys).1 : Int) +
        ((2 ^ 32) ^ xs.length : Nat) * ((subLoop diff xs ys).2 >>> (32 : Nat)) =
        mag xs - mag ys + (diff >>> (32 : Nat)) ∧
      ((subLoop diff xs ys).2 >>> (32 : Nat) = 0 ∨ (subLoop diff xs ys).2 >>> (32 : Nat) = -1) := by
  induction xs generalizing diff ys with
  | nil =>
      have : ys = [] := List.length_eq_zero_iff.mp hlen.symm
      subst ys
      simpa [subLoop] using hdiff
  | cons x xs ih =>
      cases ys with
      | nil => simp at hlen
      | cons y ys =>
          have hx := x.toNat_lt
          have hy := y.toNat_lt
          set d := (x.toNat : Int) - y.toNat + (diff >>> (32 : Nat)) with hd
          have hshift : d >>> (32 : Nat) = d / 2 ^ 32 := Int.shiftRight_eq_div_pow d 32
          have hd' : d >>> (32 : Nat) = 0 ∨ d >>> (32 : Nat) = -1 := by omega
          obtain ⟨hv, hb⟩ := ih d ys (by simpa using hlen) hd'
          refine ⟨?_, hb⟩
          have hn := toNat_narrow d
          set r := subLoop d xs ys with hr
          have hloop : subLoop diff (x :: xs) (y :: ys) = (narrow d :: r.1, r.2) := rfl
          simp only [hloop, mag_cons, List.length_cons]
          have hpow : (((2 ^ 32) ^ (xs.length + 1) : Nat) : Int) * (r.2 >>> (32 : Nat)) =
              2 ^ 32 * (((2 ^ 32) ^ xs.length : Nat) * (r.2 >>> (32 : Nat))) := by
            rw [Nat.pow_succ]
            push_cast
            ring
          rw [hpow]
          push_cast at hv ⊢
          omega

private theorem subLimbs_balance {a b : List UInt32} (hlen : b.length ≤ a.length) :
    ∃ c : Bool, mag (subLimbs a b) + mag b = mag a + (2 ^ 32) ^ a.length * c.toNat := by
  have htake : (a.take b.length).length = b.length := by rw [List.length_take]; omega
  obtain ⟨hv, hs⟩ := mag_subLoop 0 (a.take b.length) b htake (Or.inl rfl)
  set low := subLoop 0 (a.take b.length) b with hlow
  have hll : low.1.length = b.length := by rw [hlow, length_subLoop _ _ _ htake, htake]
  have hbor := mag_borrowLoop (low.2 >>> (32 : Nat) != 0) (a.drop b.length)
  set high := borrowLoop (low.2 >>> (32 : Nat) != 0) (a.drop b.length) with hhigh
  have hcast : ((low.2 >>> (32 : Nat) != 0).toNat : Int) = -(low.2 >>> (32 : Nat)) := by
    rcases hs with h | h <;> rw [h] <;> rfl
  have hpow : (2 ^ 32) ^ a.length = (2 ^ 32) ^ b.length * (2 ^ 32) ^ (a.drop b.length).length := by
    rw [← Nat.pow_add, List.length_drop, Nat.add_sub_cancel' hlen]
  refine ⟨high.2, ?_⟩
  rw [mag_take_drop b.length a hlen, hpow, subLimbs, mag_append, ← hlow, ← hhigh, hll]
  rw [htake] at hv
  rw [← Nat.cast_inj (R := Int)] at hbor ⊢
  push_cast at hv hbor ⊢
  rw [hcast] at hbor
  simp only [Int.zero_shiftRight, add_zero] at hv
  linear_combination hv + ((2 : Int) ^ 32) ^ b.length * hbor

theorem mag_subLimbs {a b : List UInt32} (hlen : b.length ≤ a.length) (h : mag b ≤ mag a) :
    mag (subLimbs a b) = mag a - mag b := by
  obtain ⟨c, hc⟩ := subLimbs_balance hlen
  have hlt := mag_lt (subLimbs a b)
  rw [length_subLimbs a b hlen] at hlt
  cases c with
  | false =>
      simp only [Bool.toNat_false, Nat.mul_zero] at hc
      omega
  | true =>
      simp only [Bool.toNat_true, Nat.mul_one] at hc
      omega

end PGBigNumber
