import PGBigNumber.Magnitude.Basic

/-!
# Shifts of magnitudes

Both shifts move whole limbs by moving the window and the remaining bits limb by limb. The left
shift runs from the top limb down because its source and destination overlap.
-/

namespace PGBigNumber

def shlU32 (x : UInt32) (n : Nat) : UInt32 := x <<< UInt32.ofNat n

def shrU32 (x : UInt32) (n : Nat) : UInt32 := x >>> UInt32.ofNat n

/-- `for (; i > nU32s; --i)` of `detail::shlMag`, with `i = nU32s + k`. -/
def shlLoop (nU32s nBits : Nat) : Nat → List UInt32 → List UInt32
  | 0, a => a
  | k + 1, a =>
      shlLoop nU32s nBits k
        (a.set (nU32s + (k + 1)) (shlU32 (a.getD (k + 1) 0) nBits ||| shrU32 (a.getD k 0) (32 - nBits)))

/-- The end of `detail::shlMag` once the window is wide enough: the loop from `i` down, then
`a[i] = a[0] << nBits` and zeros below it. -/
def shlFrom (nU32s nBits i : Nat) (a : List UInt32) : List UInt32 :=
  let a := shlLoop nU32s nBits (i - nU32s) a
  let a := a.set nU32s (shlU32 (a.getD 0 0) nBits)
  List.replicate nU32s 0 ++ a.drop nU32s

/-- `detail::shlMag`; it reads `a[a.count() - 1]`, so an empty slice has no result. -/
def shlMag (a : Slice UInt32) (n : Nat) : Option (Slice UInt32) :=
  let nU32s := n / 32
  let nBits := n % 32
  if nBits = 0 then some (a.preExtend nU32s)
  else if a.count = 0 then none
  else
    let temp := shrU32 (a.get (a.count - 1)) (32 - nBits)
    if temp = 0 then
      let a := a.slice 0 (a.count + nU32s)
      some (a.assign (shlFrom nU32s nBits (a.count - 1) a.toList))
    else
      let a := a.slice 0 (a.count + nU32s + 1)
      let a := a.set (a.count - 1) temp
      some (a.assign (shlFrom nU32s nBits (a.count - 2) a.toList))

/-- The loop of `detail::shrMag`; it stops before the top limb. -/
def shrLoop (nBits : Nat) : List UInt32 → List UInt32
  | x :: y :: rest => (shrU32 x nBits ||| shlU32 y (32 - nBits)) :: shrLoop nBits (y :: rest)
  | l => l

/-- `detail::shrMag`. A top limb that shifts out stays behind the end of the window. -/
def shrMag (a : Slice UInt32) (n : Nat) : Slice UInt32 :=
  let nU32s := n / 32
  let nBits := n % 32
  if nU32s < a.count then
    let a := a.slice nU32s a.count
    if nBits = 0 then a
    else
      let a := a.assign (shrLoop nBits a.toList)
      let temp := shrU32 (a.get (a.count - 1)) nBits
      if temp = 0 then a.slice 0 (a.count - 1) else a.set (a.count - 1) temp
  else a.slice 0 0

def shlBits (nBits : Nat) : UInt32 → List UInt32 → List UInt32
  | _, [] => []
  | prev, x :: xs => (shlU32 x nBits ||| shrU32 prev (32 - nBits)) :: shlBits nBits x xs

def shlLimbs (a : List UInt32) (n : Nat) : List UInt32 :=
  if n % 32 = 0 then List.replicate (n / 32) 0 ++ a
  else
    let temp := shrU32 (a.getLastD 0) (32 - n % 32)
    List.replicate (n / 32) 0 ++ shlBits (n % 32) 0 a ++ (if temp = 0 then [] else [temp])

/-- Each limb takes the bits that leave the limb above it; a zero top limb is dropped. -/
def shrBits (nBits : Nat) : List UInt32 → List UInt32
  | [] => []
  | [x] => if shrU32 x nBits = 0 then [] else [shrU32 x nBits]
  | x :: y :: rest => (shrU32 x nBits ||| shlU32 y (32 - nBits)) :: shrBits nBits (y :: rest)

def shrLimbs (a : List UInt32) (n : Nat) : List UInt32 :=
  if n % 32 = 0 then a.drop (n / 32) else shrBits (n % 32) (a.drop (n / 32))

private theorem two_pow_split {s : Nat} (hs : s ≤ 32) : 2 ^ 32 = 2 ^ s * 2 ^ (32 - s) := by
  rw [← Nat.pow_add, Nat.add_sub_cancel' hs]

theorem toNat_shr (x : UInt32) {s : Nat} (hs : s < 32) : (shrU32 x s).toNat = x.toNat / 2 ^ s := by
  rw [shrU32, UInt32.toNat_shiftRight, UInt32.toNat_ofNat', Nat.shiftRight_eq_div_pow,
    Nat.mod_eq_of_lt (a := s) (b := 2 ^ 32) (by omega), Nat.mod_eq_of_lt hs]

theorem toNat_shl (x : UInt32) {s : Nat} (hs : s < 32) :
    (shlU32 x s).toNat = x.toNat % 2 ^ (32 - s) * 2 ^ s := by
  rw [shlU32, UInt32.toNat_shiftLeft, UInt32.toNat_ofNat', Nat.shiftLeft_eq,
    Nat.mod_eq_of_lt (a := s) (b := 2 ^ 32) (by omega), Nat.mod_eq_of_lt hs,
    two_pow_split hs.le, Nat.mul_comm x.toNat, Nat.mul_mod_mul_left, Nat.mul_comm]

theorem toNat_shl_or_shr (x y : UInt32) {s : Nat} (h0 : 0 < s) (hs : s < 32) :
    (shlU32 x s ||| shrU32 y (32 - s)).toNat =
      x.toNat % 2 ^ (32 - s) * 2 ^ s + y.toNat / 2 ^ (32 - s) := by
  have hlt : y.toNat / 2 ^ (32 - s) < 2 ^ s := by
    apply Nat.div_lt_of_lt_mul
    rw [Nat.mul_comm, ← two_pow_split hs.le]
    exact y.toNat_lt
  rw [UInt32.toNat_or, toNat_shl x hs, toNat_shr y (by omega), ← Nat.shiftLeft_eq,
    Nat.shiftLeft_add_eq_or_of_lt hlt]

theorem toNat_shr_or_shl (x y : UInt32) {s : Nat} (h0 : 0 < s) (hs : s < 32) :
    (shrU32 x s ||| shlU32 y (32 - s)).toNat =
      x.toNat / 2 ^ s + y.toNat % 2 ^ s * 2 ^ (32 - s) := by
  have h := toNat_shl_or_shr y x (s := 32 - s) (by omega) (by omega)
  rw [show 32 - (32 - s) = s by omega] at h
  rw [UInt32.or_comm, h, Nat.add_comm]

theorem length_shlLoop (u s k : Nat) (a : List UInt32) : (shlLoop u s k a).length = a.length := by
  induction k generalizing a with
  | zero => rfl
  | succ k ih => rw [shlLoop, ih, List.length_set]

theorem getElem?_shlLoop (u s k : Nat) (a : List UInt32) (j : Nat) :
    (shlLoop u s k a)[j]? = if u < j ∧ j ≤ u + k ∧ j < a.length then
      some (shlU32 (a.getD (j - u) 0) s ||| shrU32 (a.getD (j - u - 1) 0) (32 - s)) else a[j]? := by
  induction k generalizing a with
  | zero => rw [shlLoop, if_neg (by omega)]
  | succ k ih =>
      rw [shlLoop, ih]
      simp only [List.length_set, List.getD_eq_getElem?_getD, List.getElem?_set]
      grind

theorem length_shlBits (s : Nat) (p : UInt32) (a : List UInt32) :
    (shlBits s p a).length = a.length := by
  induction a generalizing p with
  | nil => rfl
  | cons x xs ih => simp [shlBits, ih]

theorem getElem?_shlBits (s : Nat) (p : UInt32) (a : List UInt32) (j : Nat) :
    (shlBits s p a)[j]? = if j < a.length then
      some (shlU32 (a.getD j 0) s ||| shrU32 (if j = 0 then p else a.getD (j - 1) 0) (32 - s))
      else none := by
  induction a generalizing p j with
  | nil => simp [shlBits]
  | cons x xs ih =>
      cases j with
      | zero => simp [shlBits]
      | succ j =>
          rw [shlBits, List.getElem?_cons_succ, ih]
          cases j <;> simp

theorem shr_zero (s : Nat) : shrU32 0 s = 0 := UInt32.zero_shiftRight

private theorem shlFrom_eq (u s : Nat) (a junk : List UInt32) (ha : a ≠ [])
    (hjunk : u ≤ junk.length) :
    shlFrom u s (a.length - 1 + u) (a ++ junk) =
      List.replicate u 0 ++ shlBits s 0 a ++ junk.drop u := by
  have hpos := List.length_pos_of_ne_nil ha
  rw [shlFrom, Nat.add_sub_cancel, List.append_assoc]
  congr 1
  apply List.ext_getElem?
  intro j
  simp only [List.getElem?_drop, List.getElem?_set, length_shlLoop, List.getD_eq_getElem?_getD,
    getElem?_shlLoop, List.getElem?_append, getElem?_shlBits, length_shlBits, List.length_append]
  by_cases hj : j = 0
  · subst j
    grind [shr_zero, UInt32.or_zero]
  · grind

theorem shlMag_spec {a : Slice UInt32} (ha : a.Wf) {n : Nat} (hne : a.toList ≠ []) :
    ∃ s, shlMag a n = some s ∧ s.Wf ∧ s.toList = shlLimbs a.toList n := by
  have hlen := Slice.length_toList ha
  have hpos := List.length_pos_of_ne_nil hne
  unfold shlMag shlLimbs
  by_cases hbits : n % 32 = 0
  · simp only [if_pos hbits]
    exact ⟨_, rfl, Slice.preExtend_wf ha _, Slice.toList_preExtend ha _⟩
  · have hcount : a.count ≠ 0 := by omega
    have hlast : a.get (a.count - 1) = a.toList.getLastD 0 := by
      rw [Slice.get_eq ha _ (by omega), List.getLastD_eq_getLast?, List.getLast?_eq_getElem?, hlen,
        List.getD_eq_getElem?_getD]
      rfl
    simp only [if_neg hbits, if_neg hcount, hlast]
    split
    next htop =>
      have hs := Slice.slice_wf ha (Nat.zero_le (a.count + n / 32))
      have hwide := Slice.toList_slice_widen ha (Nat.le_add_right a.count (n / 32))
      rw [Nat.add_sub_cancel_left] at hwide
      have hfrom := shlFrom_eq (n / 32) (n % 32) a.toList
        (Slice.resize (a.data.drop a.hi) (n / 32)) hne (by simp)
      rw [Slice.count_slice (Nat.zero_le _), hwide,
        show a.count + n / 32 - 0 - 1 = a.toList.length - 1 + n / 32 by omega, hfrom]
      refine ⟨_, rfl, Slice.assign_wf hs _, ?_⟩
      rw [Slice.toList_assign hs]
      · rw [List.drop_eq_nil_of_le (by simp)]
      · simp only [List.length_append, List.length_replicate, length_shlBits, List.length_drop,
          Slice.resize_length, Slice.count_slice (Nat.zero_le _)]
        omega
    next htop =>
      have hs := Slice.slice_wf ha (Nat.zero_le (a.count + n / 32 + 1))
      have hwide := Slice.toList_slice_widen ha (n := a.count + n / 32 + 1) (by omega)
      rw [show a.count + n / 32 + 1 - a.count = n / 32 + 1 by omega] at hwide
      set temp := shrU32 (a.toList.getLastD 0) (32 - n % 32) with htemp
      set hidden := Slice.resize (a.data.drop a.hi) (n / 32 + 1) with hhidden
      have hhid : hidden.length = n / 32 + 1 := Slice.resize_length _ _
      have hfrom := shlFrom_eq (n / 32) (n % 32) a.toList (hidden.set (n / 32) temp) hne
        (by rw [List.length_set]; omega)
      have hset : (a.toList ++ hidden).set (a.count + n / 32) temp =
          a.toList ++ hidden.set (n / 32) temp := by
        rw [List.set_append_right _ _ (by omega), hlen, Nat.add_sub_cancel_left]
      have hdrop : (hidden.set (n / 32) temp).drop (n / 32) = [temp] := by
        apply List.ext_getElem?
        intro j
        simp only [List.getElem?_drop, List.getElem?_set]
        grind
      rw [Slice.count_set, Slice.count_slice (Nat.zero_le _), Slice.toList_set, hwide,
        show a.count + n / 32 + 1 - 0 - 1 = a.count + n / 32 by omega,
        show a.count + n / 32 + 1 - 0 - 2 = a.toList.length - 1 + n / 32 by omega, hset, hfrom,
        hdrop]
      refine ⟨_, rfl, Slice.assign_wf (Slice.set_wf hs _ _) _, ?_⟩
      rw [Slice.toList_assign (Slice.set_wf hs _ _)]
      simp only [List.length_append, List.length_replicate, length_shlBits,
        List.length_singleton, Slice.count_set, Slice.count_slice (Nat.zero_le _)]
      omega

private theorem shrLoop_last {l : List UInt32} (hl : l ≠ []) (s : Nat) :
    (shrLoop s l).length = l.length ∧ (shrLoop s l).getD (l.length - 1) 0 = l.getLast hl ∧
      shrBits s l = if shrU32 (l.getLast hl) s = 0 then (shrLoop s l).take (l.length - 1)
        else (shrLoop s l).set (l.length - 1) (shrU32 (l.getLast hl) s) := by
  induction l with
  | nil => exact absurd rfl hl
  | cons x xs ih =>
      cases xs with
      | nil => simp [shrLoop, shrBits]
      | cons y rest =>
          obtain ⟨h1, h2, h3⟩ := ih (by simp)
          have hlast : (x :: y :: rest).getLast hl = (y :: rest).getLast (by simp) :=
            List.getLast_cons (by simp)
          refine ⟨by simp [shrLoop, h1], ?_, ?_⟩
          · rw [hlast, ← h2]
            simp [shrLoop]
          · rw [shrBits, h3, hlast, shrLoop]
            split <;> simp

theorem shrMag_wf {a : Slice UInt32} (ha : a.Wf) (n : Nat) : (shrMag a n).Wf := by
  unfold shrMag
  dsimp only
  split
  next hlt =>
    have hs := Slice.slice_wf ha hlt.le
    split
    · exact hs
    · split
      · exact Slice.slice_wf (Slice.assign_wf hs _) (Nat.zero_le _)
      · exact Slice.set_wf (Slice.assign_wf hs _) _ _
  next hge => exact Slice.slice_wf ha (Nat.le_refl 0)

theorem toList_shrMag {a : Slice UInt32} (ha : a.Wf) (n : Nat) :
    (shrMag a n).toList = shrLimbs a.toList n := by
  have hlen := Slice.length_toList ha
  unfold shrMag shrLimbs
  dsimp only
  split
  next hlt =>
    have hs := Slice.slice_wf ha hlt.le
    have hshow : (a.slice (n / 32) a.count).toList = a.toList.drop (n / 32) := by
      rw [Slice.toList_slice ha hlt.le (Nat.le_refl _), List.take_of_length_le hlen.le]
    split
    · exact hshow
    next hbits =>
      set w := a.slice (n / 32) a.count with hw
      have hcount : w.count = a.count - n / 32 := Slice.count_slice hlt.le
      have hne : w.toList ≠ [] := by
        rw [Ne, Slice.toList_eq_nil_iff hs]
        omega
      obtain ⟨h1, h2, h3⟩ := shrLoop_last hne (n % 32)
      have hwlen := Slice.length_toList hs
      have hassign := Slice.toList_assign hs (h1.trans hwlen)
      have hget : (w.assign (shrLoop (n % 32) w.toList)).get (w.count - 1) =
          w.toList.getLast hne := by
        rw [Slice.get_eq (Slice.assign_wf hs _) _ (by rw [Slice.count_assign]; omega), hassign,
          ← hwlen]
        exact h2
      rw [Slice.count_assign, hget, ← hshow, h3, ← hwlen]
      split
      · rw [Slice.toList_slice (Slice.assign_wf hs _) (Nat.zero_le _)
          (by rw [Slice.count_assign]; omega), hassign, List.drop_zero]
      · rw [Slice.toList_set, hassign]
  next hge =>
    have hnil : a.toList.drop (n / 32) = [] := List.drop_eq_nil_of_le (by omega)
    rw [hnil, Slice.toList_slice ha (Nat.le_refl 0) (Nat.zero_le _)]
    simp [shrBits]

private theorem two_pow_shift (n : Nat) : 2 ^ n = (2 ^ 32) ^ (n / 32) * 2 ^ (n % 32) := by
  rw [← Nat.pow_mul, ← Nat.pow_add, Nat.div_add_mod]

private theorem mag_shlBits {s : Nat} (h0 : 0 < s) (hs : s < 32) (p : UInt32) (a : List UInt32) :
    mag (shlBits s p a) + (2 ^ 32) ^ a.length * ((a.getLastD p).toNat / 2 ^ (32 - s)) =
      mag a * 2 ^ s + p.toNat / 2 ^ (32 - s) := by
  induction a generalizing p with
  | nil => simp [shlBits]
  | cons x xs ih =>
      have hi := ih x
      have hsplit : x.toNat % 2 ^ (32 - s) * 2 ^ s + 2 ^ 32 * (x.toNat / 2 ^ (32 - s)) =
          x.toNat * 2 ^ s := by
        conv_rhs => rw [← Nat.div_add_mod x.toNat (2 ^ (32 - s))]
        rw [two_pow_split hs.le]
        ring
      rw [List.getLastD_cons, shlBits, mag_cons, mag_cons, toNat_shl_or_shr x p h0 hs,
        List.length_cons, limbs_pow_succ, Nat.add_mul, ← hsplit, Nat.mul_assoc]
      generalize x.toNat / 2 ^ (32 - s) = q at *
      generalize (2 ^ 32) ^ xs.length * ((xs.getLastD x).toNat / 2 ^ (32 - s)) = c at *
      generalize p.toNat / 2 ^ (32 - s) = d at *
      generalize x.toNat % 2 ^ (32 - s) * 2 ^ s = e at *
      generalize mag xs * 2 ^ s = f at *
      omega

theorem mag_shlLimbs (a : List UInt32) (n : Nat) : mag (shlLimbs a n) = mag a * 2 ^ n := by
  unfold shlLimbs
  split
  next h =>
    rw [mag_zeros_append, two_pow_shift n, h]
    ring
  next h =>
    have hb := mag_shlBits (s := n % 32) (by omega) (by omega) 0 a
    have hlt : n % 32 < 32 := Nat.mod_lt _ (by decide)
    rw [UInt32.toNat_zero, Nat.zero_div, Nat.add_zero] at hb
    have hsplit : mag (if shrU32 (a.getLastD 0) (32 - n % 32) = 0 then []
        else [shrU32 (a.getLastD 0) (32 - n % 32)]) =
        (a.getLastD 0).toNat / 2 ^ (32 - n % 32) := by
      rw [← toNat_shr _ (by omega : 32 - n % 32 < 32)]
      split
      next h0 => rw [h0]; rfl
      next h0 => exact mag_singleton _
    rw [List.append_assoc, mag_zeros_append, mag_append, hsplit, length_shlBits, hb,
      two_pow_shift n]
    ring

theorem le_length_shlLimbs (a : List UInt32) (n : Nat) : a.length ≤ (shlLimbs a n).length := by
  unfold shlLimbs
  dsimp only
  split <;> simp only [List.length_append, List.length_replicate, length_shlBits] <;> omega

theorem trimmed_shlLimbs {a : List UInt32} (ha : Trimmed a) (hne : a ≠ []) (n : Nat) :
    Trimmed (shlLimbs a n) := by
  have hv := mag_shlLimbs a n
  unfold shlLimbs at hv ⊢
  dsimp only at hv ⊢
  split
  next h => exact trimmed_append hne ha
  next h =>
    rw [if_neg h] at hv
    split
    next h0 =>
      rw [if_pos h0, List.append_nil] at hv
      rw [List.append_nil]
      apply trimmed_of_pow_le
      intro hne'
      have hpos := List.length_pos_of_ne_nil hne
      have hle := ha.pow_le hne
      rw [hv, List.length_append, List.length_replicate, length_shlBits,
        Nat.add_sub_assoc hpos, Nat.pow_add, Nat.mul_comm, two_pow_shift n]
      apply Nat.mul_le_mul hle
      exact Nat.le_mul_of_pos_right _ (Nat.two_pow_pos _)
    next h0 => exact trimmed_concat h0

theorem shlLimbs_ne_nil {a : List UInt32} (hne : a ≠ []) (n : Nat) : shlLimbs a n ≠ [] := by
  unfold shlLimbs
  dsimp only
  split
  · simp [hne]
  · intro h
    have := congrArg List.length h
    have := List.length_pos_of_ne_nil hne
    simp only [List.length_append, length_shlBits, List.length_nil] at *
    omega

private theorem mag_shrBits {s : Nat} (h0 : 0 < s) (hs : s < 32) (a : List UInt32) :
    mag (shrBits s a) = mag a / 2 ^ s := by
  induction a with
  | nil => simp [shrBits]
  | cons x xs ih =>
      cases xs with
      | nil =>
          have hx := toNat_shr x hs
          rw [shrBits]
          split
          next h => rw [mag_singleton, ← hx, h]; rfl
          next h => rw [mag_singleton, mag_singleton, hx]
      | cons y rest =>
          rw [shrBits, mag_cons, ih, toNat_shr_or_shl x y h0 hs, mag_cons x]
          set m := mag (y :: rest) with hm
          have hlow : y.toNat % 2 ^ s = m % 2 ^ s := by
            rw [hm, mag_cons, two_pow_split hs.le, Nat.mul_assoc, Nat.add_mul_mod_self_left]
          have hdiv : (x.toNat + 2 ^ 32 * m) / 2 ^ s = x.toNat / 2 ^ s + 2 ^ (32 - s) * m := by
            rw [two_pow_split hs.le, Nat.mul_assoc,
              Nat.add_mul_div_left _ _ (Nat.two_pow_pos s)]
          rw [hdiv, hlow]
          conv_rhs => rw [← Nat.div_add_mod m (2 ^ s)]
          rw [two_pow_split hs.le]
          ring

theorem mag_shrLimbs (a : List UInt32) (n : Nat) : mag (shrLimbs a n) = mag a / 2 ^ n := by
  have hdrop : mag (a.drop (n / 32)) = mag a / (2 ^ 32) ^ (n / 32) := by
    by_cases h : n / 32 ≤ a.length
    · have htake := mag_lt (a.take (n / 32))
      rw [List.length_take, Nat.min_eq_left h] at htake
      rw [mag_take_drop (n / 32) a h, Nat.add_mul_div_left _ _ (Nat.pow_pos (by decide)),
        Nat.div_eq_of_lt htake, Nat.zero_add]
    · rw [List.drop_eq_nil_of_le (by omega), mag_nil, Nat.div_eq_of_lt]
      exact Nat.lt_of_lt_of_le (mag_lt a) (Nat.pow_le_pow_right (by decide) (by omega))
  unfold shrLimbs
  split
  next h =>
    rw [hdrop, two_pow_shift n, h]
    simp
  next h =>
    rw [mag_shrBits (by omega) (Nat.mod_lt _ (by decide)), hdrop, two_pow_shift n,
      Nat.div_div_eq_div_mul]

theorem trimmed_cons {x : UInt32} {l : List UInt32} (hne : l ≠ []) (h : Trimmed l) :
    Trimmed (x :: l) := trimmed_append (l := [x]) hne h

private theorem trimmed_shrBits {s : Nat} (h0 : 0 < s) (hs : s < 32) {a : List UInt32}
    (ha : Trimmed a) : Trimmed (shrBits s a) := by
  induction a with
  | nil => exact trimmed_nil
  | cons x xs ih =>
      cases xs with
      | nil =>
          rw [shrBits]
          split
          · exact trimmed_nil
          next h => exact trimmed_concat (l := []) h
      | cons y rest =>
          have htail : Trimmed (y :: rest) := Trimmed.of_append (l := [x]) (by simp) ha
          by_cases hnil : shrBits s (y :: rest) = []
          · -- the limb above shifts out, so its bits are those of the new top limb
            have hpos := htail.mag_pos (by simp)
            have hzero := mag_shrBits h0 hs (y :: rest)
            rw [hnil, mag_nil] at hzero
            have hlt : mag (y :: rest) < 2 ^ s := by
              rcases Nat.div_eq_zero_iff.mp hzero.symm with h | h
              · exact absurd h (Nat.pos_iff_ne_zero.mp (Nat.two_pow_pos s))
              · exact h
            have hpow : 2 ^ s < 2 ^ 32 := Nat.pow_lt_pow_right (by decide) hs
            have hylt : y.toNat < 2 ^ s ∧ 0 < y.toNat := by
              rw [mag_cons] at hlt hpos
              have : mag rest = 0 := by omega
              rw [this] at hlt hpos
              omega
            rw [shrBits, hnil]
            apply trimmed_concat (l := [])
            intro hz
            have hval := toNat_shr_or_shl x y h0 hs
            rw [hz, UInt32.toNat_zero, Nat.mod_eq_of_lt hylt.1] at hval
            have := Nat.mul_pos hylt.2 (Nat.two_pow_pos (32 - s))
            generalize x.toNat / 2 ^ s = q at hval
            omega
          · exact trimmed_cons hnil (ih htail)

theorem trimmed_shrLimbs {a : List UInt32} (ha : Trimmed a) (n : Nat) :
    Trimmed (shrLimbs a n) := by
  unfold shrLimbs
  split
  · exact ha.drop _
  · exact trimmed_shrBits (by omega) (Nat.mod_lt _ (by decide)) (ha.drop _)

end PGBigNumber
