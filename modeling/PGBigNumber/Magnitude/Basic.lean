import PGBigNumber.Library.Positional
import PGBigNumber.Slice
import Mathlib.Data.UInt
import Mathlib.Tactic.IntervalCases

/-!
# Limb lists

A magnitude is a little-endian list of 32-bit limbs. This module fixes its value, the notion of a
trimmed list, the helper that trims a slice and the comparison of two slices.
-/

namespace PGBigNumber

def u64 (n : Nat) : Nat := n % 2 ^ 64

theorem u64_of_lt {n : Nat} (h : n < 2 ^ 64) : u64 n = n := Nat.mod_eq_of_lt h

def i64 (d : Int) : Int := Int.bmod d (2 ^ 64)

theorem i64_of_range {d : Int} (hlo : -(2 ^ 63) ≤ d) (hhi : d < 2 ^ 63) : i64 d = d := by
  rw [i64]
  apply Int.bmod_eq_of_le <;> omega

def narrow (d : Int) : UInt32 := UInt32.ofNat (d % 2 ^ 32).toNat

theorem toNat_ofNat_u32 (n : Nat) : (UInt32.ofNat n).toNat = n % 2 ^ 32 := UInt32.toNat_ofNat

theorem toNat_narrow (d : Int) : ((narrow d).toNat : Int) = d % 2 ^ 32 := by
  rw [narrow, toNat_ofNat_u32]
  omega

def mag (l : List UInt32) : Nat := Positional.value UInt32.toNat (2 ^ 32) l

@[simp]
theorem mag_nil : mag [] = 0 := rfl

@[simp]
theorem mag_cons (x : UInt32) (l : List UInt32) : mag (x :: l) = x.toNat + 2 ^ 32 * mag l :=
  Positional.value_cons _ _ _ _

theorem mag_append (l m : List UInt32) :
    mag (l ++ m) = mag l + (2 ^ 32) ^ l.length * mag m := Positional.value_append _ _ _ _

theorem limbs_pow_succ (n k : Nat) : (2 ^ 32) ^ (n + 1) * k = 2 ^ 32 * ((2 ^ 32) ^ n * k) := by
  rw [Nat.pow_succ, Nat.mul_comm _ (2 ^ 32), Nat.mul_assoc]

theorem mag_lt (l : List UInt32) : mag l < (2 ^ 32) ^ l.length :=
  Positional.value_lt (fun x => x.toNat_lt) l

theorem mag_singleton (x : UInt32) : mag [x] = x.toNat := by simp

theorem mag_replicate_zero (n : Nat) : mag (List.replicate n 0) = 0 :=
  Positional.value_replicate _ _ n 0 rfl

theorem mag_zeros_append (n : Nat) (l : List UInt32) :
    mag (List.replicate n 0 ++ l) = (2 ^ 32) ^ n * mag l :=
  Positional.value_zeros_append _ _ l n 0 rfl

theorem mag_take_drop (n : Nat) (l : List UInt32) (hn : n ≤ l.length) :
    mag l = mag (l.take n) + (2 ^ 32) ^ n * mag (l.drop n) :=
  Positional.value_take_drop _ _ n l hn

def Trimmed (l : List UInt32) : Prop := l.getLast? ≠ some 0

instance (l : List UInt32) : Decidable (Trimmed l) := inferInstanceAs (Decidable (_ ≠ _))

theorem trimmed_nil : Trimmed [] := by simp [Trimmed]

theorem Trimmed.getLast_ne {l : List UInt32} (h : Trimmed l) (hl : l ≠ []) :
    (l.getLast hl).toNat ≠ 0 := by
  intro h0
  apply h
  rw [List.getLast?_eq_getLast_of_ne_nil hl]
  exact congrArg some (UInt32.toNat_inj.mp h0)

theorem trimmed_concat {l : List UInt32} {x : UInt32} (hx : x ≠ 0) : Trimmed (l ++ [x]) := by
  simpa [Trimmed] using hx

theorem trimmed_append {l m : List UInt32} (hm : m ≠ []) (h : Trimmed m) : Trimmed (l ++ m) := by
  simpa [Trimmed, List.getLast?_append_of_ne_nil l hm] using h

theorem Trimmed.of_append {l m : List UInt32} (hm : m ≠ []) (h : Trimmed (l ++ m)) :
    Trimmed m := by
  simpa [Trimmed, List.getLast?_append_of_ne_nil l hm] using h

theorem Trimmed.drop {l : List UInt32} (h : Trimmed l) (n : Nat) : Trimmed (l.drop n) := by
  by_cases hn : l.drop n = []
  · rw [hn]; exact trimmed_nil
  · exact Trimmed.of_append (l := l.take n) hn (by rwa [List.take_append_drop])

theorem Trimmed.pow_le {l : List UInt32} (h : Trimmed l) (hl : l ≠ []) :
    (2 ^ 32) ^ (l.length - 1) ≤ mag l := Positional.pow_le_value l hl (h.getLast_ne hl)

theorem Trimmed.mag_pos {l : List UInt32} (h : Trimmed l) (hl : l ≠ []) : 0 < mag l :=
  Nat.lt_of_lt_of_le (Nat.pow_pos (by decide)) (h.pow_le hl)

theorem Trimmed.mag_eq_zero {l : List UInt32} (h : Trimmed l) : mag l = 0 ↔ l = [] := by
  constructor
  · intro h0
    by_contra hl
    exact absurd h0 (Nat.ne_of_gt (h.mag_pos hl))
  · rintro rfl
    rfl

theorem Trimmed.mag_inj {l m : List UInt32} (hl : Trimmed l) (hm : Trimmed m)
    (h : mag l = mag m) : l = m :=
  Positional.value_inj (fun x => x.toNat_lt) (fun _ _ => UInt32.toNat_inj.mp) l m
    hl.getLast_ne hm.getLast_ne h

theorem Trimmed.lt_of_length_lt {l m : List UInt32} (hm : Trimmed m)
    (h : l.length < m.length) : mag l < mag m := by
  have hne : m ≠ [] := by intro he; simp [he] at h
  exact Positional.value_lt_of_length_lt (fun x => x.toNat_lt) l m hne (hm.getLast_ne hne) h

theorem trimmed_of_pow_le {l : List UInt32} (h : l ≠ [] → (2 ^ 32) ^ (l.length - 1) ≤ mag l) :
    Trimmed l := by
  intro hlast
  have hne : l ≠ [] := by intro he; simp [he] at hlast
  have hsplit := List.dropLast_append_getLast hne
  have hzero : l.getLast hne = 0 := by
    rw [List.getLast?_eq_getLast_of_ne_nil hne] at hlast
    exact Option.some.inj hlast
  have hlt : mag l < (2 ^ 32) ^ (l.length - 1) := by
    conv_lhs => rw [← hsplit, hzero, mag_append, mag_singleton]
    have := mag_lt l.dropLast
    rw [List.length_dropLast] at this
    simpa using this
  exact absurd (h hne) (Nat.not_le.mpr hlt)

def trim (l : List UInt32) : List UInt32 := l.rdropWhile (· == 0)

@[simp]
theorem mag_trim (l : List UInt32) : mag (trim l) = mag l :=
  Positional.value_rdropWhile _ (fun x hx => by rw [eq_of_beq hx]; rfl) l

theorem trimmed_trim (l : List UInt32) : Trimmed (trim l) := by
  intro hlast
  have hne : trim l ≠ [] := by intro he; simp [he] at hlast
  have h := List.rdropWhile_last_not (· == (0 : UInt32)) l hne
  rw [List.getLast?_eq_getLast_of_ne_nil hne] at hlast
  exact h (beq_iff_eq.mpr (Option.some.inj hlast))

theorem trim_isPrefix (l : List UInt32) : trim l <+: l := List.rdropWhile_prefix _ _

theorem trim_eq_nil_iff (l : List UInt32) : trim l = [] ↔ mag l = 0 := by
  rw [← (trimmed_trim l).mag_eq_zero, mag_trim]

def eraseZerosSuffix (s : Slice UInt32) : Slice UInt32 := s.slice 0 (trim s.toList).length

section eraseZerosSuffix

variable {s : Slice UInt32}

theorem length_trim_le (h : s.Wf) : (trim s.toList).length ≤ s.count := by
  rw [← Slice.length_toList h]
  exact (trim_isPrefix _).length_le

theorem eraseZerosSuffix_wf (h : s.Wf) : (eraseZerosSuffix s).Wf :=
  Slice.slice_wf h (Nat.zero_le _)

@[simp]
theorem eraseZerosSuffix_data (h : s.Wf) : (eraseZerosSuffix s).data = s.data :=
  Slice.slice_data (length_trim_le h)

@[simp]
theorem toList_eraseZerosSuffix (h : s.Wf) : (eraseZerosSuffix s).toList = trim s.toList := by
  rw [eraseZerosSuffix, Slice.toList_slice h (Nat.zero_le _) (length_trim_le h), List.drop_zero]
  exact (List.prefix_iff_eq_take.mp (trim_isPrefix _)).symm

end eraseZerosSuffix

/-- The limb scan of `detail::cmpMag`, most significant limb first. -/
def cmpLoop : List UInt32 → List UInt32 → Int
  | x :: xs, y :: ys => if x ≠ y then (if x < y then -1 else 1) else cmpLoop xs ys
  | _, _ => 0

def cmpMag (a b : Slice UInt32) : Int :=
  if a.count < b.count then -1
  else if a.count > b.count then 1
  else cmpLoop a.toList.reverse b.toList.reverse

def cmpLimbs (a b : List UInt32) : Int :=
  if a.length < b.length then -1
  else if a.length > b.length then 1
  else cmpLoop a.reverse b.reverse

theorem cmpMag_eq {a b : Slice UInt32} (ha : a.Wf) (hb : b.Wf) :
    cmpMag a b = cmpLimbs a.toList b.toList := by
  simp only [cmpMag, cmpLimbs, Slice.length_toList ha, Slice.length_toList hb]

private theorem cmpLoop_spec (xs ys : List UInt32) (hlen : xs.length = ys.length) :
    cmpLoop xs ys = if mag xs.reverse < mag ys.reverse then -1
      else if mag xs.reverse = mag ys.reverse then 0 else 1 := by
  induction xs generalizing ys with
  | nil =>
      have : ys = [] := List.length_eq_zero_iff.mp hlen.symm
      subst ys
      rfl
  | cons x xs ih =>
      cases ys with
      | nil => simp at hlen
      | cons y ys =>
          have htail : xs.length = ys.length := by simpa using hlen
          have hx := mag_lt xs.reverse
          have hy := mag_lt ys.reverse
          rw [List.length_reverse] at hx hy
          rw [htail] at hx
          have hc := ih ys htail
          simp only [cmpLoop, List.reverse_cons, mag_append, mag_singleton, List.length_reverse,
            htail]
          set P := (2 ^ 32) ^ ys.length
          by_cases heq : x = y
          · subst y
            rw [if_neg (by simp), hc]
            simp
          · have hne : x.toNat ≠ y.toNat := fun h => heq (UInt32.toNat_inj.mp h)
            rw [if_pos heq]
            rcases Nat.lt_or_gt_of_ne hne with hlt | hgt
            · have hP : P * x.toNat + P ≤ P * y.toNat := by
                calc P * x.toNat + P = P * (x.toNat + 1) := by ring
                  _ ≤ P * y.toNat := Nat.mul_le_mul_left P hlt
              rw [if_pos (UInt32.lt_iff_toNat_lt.mpr hlt), if_pos (by omega)]
            · have hP : P * y.toNat + P ≤ P * x.toNat := by
                calc P * y.toNat + P = P * (y.toNat + 1) := by ring
                  _ ≤ P * x.toNat := Nat.mul_le_mul_left P hgt
              rw [if_neg (by rw [UInt32.lt_iff_toNat_lt]; omega), if_neg (by omega),
                if_neg (by omega)]

theorem cmpLimbs_spec {a b : List UInt32} (ha : Trimmed a) (hb : Trimmed b) :
    cmpLimbs a b = if mag a < mag b then -1 else if mag a = mag b then 0 else 1 := by
  unfold cmpLimbs
  split
  next hlt => rw [if_pos (hb.lt_of_length_lt hlt)]
  next hge =>
    split
    next hgt =>
      have := ha.lt_of_length_lt hgt
      rw [if_neg (by omega), if_neg (by omega)]
    next hle =>
      rw [cmpLoop_spec _ _ (by simp only [List.length_reverse]; omega), List.reverse_reverse,
        List.reverse_reverse]

theorem length_le_of_cmpLimbs {a b : List UInt32} (h : 0 ≤ cmpLimbs a b) :
    b.length ≤ a.length := by
  by_contra hlt
  rw [cmpLimbs, if_pos (by omega)] at h
  exact absurd h (by decide)

theorem length_le_of_cmpLimbs_neg {a b : List UInt32} (h : cmpLimbs a b ≤ 0) :
    a.length ≤ b.length := by
  by_contra hlt
  rw [cmpLimbs, if_neg (by omega), if_pos (by omega)] at h
  exact absurd h (by decide)

private theorem cmpLoop_self (l : List UInt32) : cmpLoop l l = 0 := by
  induction l with
  | nil => rfl
  | cons x xs ih => rw [cmpLoop, if_neg (by simp), ih]

theorem cmpLimbs_self (l : List UInt32) : cmpLimbs l l = 0 := by
  rw [cmpLimbs, if_neg (by omega), if_neg (by omega), cmpLoop_self]

end PGBigNumber
