import PGBigNumber.Library.Positional
import Mathlib.Data.Int.Bitwise
import Mathlib.Tactic.LinearCombination
import Mathlib.Tactic.Positivity

/-!
# Two's complement digits

An integer has infinitely many digits in every base: the digits of its floor quotients by the
powers of the base. From some place on they are all zero or all `base - 1`. Negation, complement
and the bitwise operations are read off digit by digit, and finitely many digits together with the
sign give the integer back.
-/

namespace TwosComplement

def digit (b : Nat) (v : Int) (k : Nat) : Nat := (v / (b : Int) ^ k % b).toNat

variable {b n k : Nat} {m : Nat} {u v : Int}

theorem cast_digit (hb : 0 < b) (v : Int) (k : Nat) : (digit b v k : Int) = v / (b : Int) ^ k % b :=
  Int.toNat_of_nonneg (Int.emod_nonneg _ (by omega))

theorem digit_lt (hb : 0 < b) (v : Int) (k : Nat) : digit b v k < b := by
  have h := Int.emod_lt_of_pos (v / (b : Int) ^ k) (by exact_mod_cast hb : (0 : Int) < b)
  have hd := cast_digit hb v k
  omega

theorem digit_natCast (m k : Nat) : digit b (m : Int) k = m / b ^ k % b := by
  rw [digit, ← Int.natCast_pow, ← Int.natCast_ediv, ← Int.natCast_emod, Int.toNat_natCast]

theorem digit_not (hb : 0 < b) (v : Int) (k : Nat) : digit b (-v - 1) k = b - 1 - digit b v k := by
  have hpow : (0 : Int) < (b : Int) ^ k := by positivity
  have hd := cast_digit hb v k
  have hlt := digit_lt hb v k
  have hdiv : (-v - 1) / (b : Int) ^ k = -(v / (b : Int) ^ k) - 1 := by
    have hmod := Int.emod_nonneg v hpow.ne'
    have hmod' := Int.emod_lt_of_pos v hpow
    have hv := Int.mul_ediv_add_emod v ((b : Int) ^ k)
    refine (Int.ediv_emod_unique (r := (b : Int) ^ k - 1 - v % (b : Int) ^ k) hpow).mpr ?_ |>.1
    refine ⟨?_, by omega, by omega⟩
    linear_combination -hv
  have hdiv' : (-(v / (b : Int) ^ k) - 1) % (b : Int) = b - 1 - v / (b : Int) ^ k % b := by
    have hmod := Int.emod_nonneg (v / (b : Int) ^ k) (by omega : (b : Int) ≠ 0)
    have hmod' := Int.emod_lt_of_pos (v / (b : Int) ^ k) (by omega : (0 : Int) < b)
    have hv := Int.mul_ediv_add_emod (v / (b : Int) ^ k) b
    refine (Int.ediv_emod_unique (q := -(v / (b : Int) ^ k / b) - 1) (by omega)).mpr ?_ |>.2
    refine ⟨?_, by omega, by omega⟩
    linear_combination -hv
  have hn := cast_digit hb (-v - 1) k
  rw [hdiv, hdiv', ← hd] at hn
  omega

theorem digit_neg_low (h : b ^ (k + 1) ∣ m) : digit b (-(m : Int)) k = 0 := by
  obtain ⟨c, rfl⟩ := h
  by_cases hb : b = 0
  · subst hb
    simp [digit]
  have hpow : (0 : Int) < (b : Int) ^ k := by positivity
  have hdiv : (-((b ^ (k + 1) * c : Nat) : Int)) / (b : Int) ^ k = b * -(c : Int) := by
    push_cast
    rw [pow_succ, show -((b : Int) ^ k * b * c) = (b : Int) ^ k * (b * -(c : Int)) by ring,
      Int.mul_ediv_cancel_left _ hpow.ne']
  rw [digit, hdiv, Int.mul_emod_right, Int.toNat_zero]

/-- At the lowest non-zero digit. -/
theorem digit_neg_at (hb : 0 < b) (h : b ^ k ∣ m) (h0 : m / b ^ k % b ≠ 0) :
    digit b (-(m : Int)) k = b - m / b ^ k % b := by
  obtain ⟨c, rfl⟩ := h
  have hpow : 0 < b ^ k := Nat.pow_pos hb
  rw [Nat.mul_div_cancel_left c hpow] at h0 ⊢
  have hlt := Nat.mod_lt c hb
  have hdiv : (-((b ^ k * c : Nat) : Int)) / (b : Int) ^ k = -(c : Int) := by
    push_cast
    rw [← Int.mul_neg, Int.mul_ediv_cancel_left _ (by positivity)]
  have hmod : (-(c : Int)) % b = (b - c % b : Nat) := by
    have hc := Nat.div_add_mod c b
    refine (Int.ediv_emod_unique (q := -((c / b : Nat) : Int) - 1) (by omega)).mpr ?_ |>.2
    refine ⟨?_, by omega, by omega⟩
    rw [Int.natCast_sub hlt.le]
    have hc' : (b : Int) * ((c / b : Nat) : Int) + ((c % b : Nat) : Int) = c := by exact_mod_cast hc
    linear_combination -hc'
  rw [digit, hdiv, hmod, Int.toNat_natCast]

theorem digit_neg_high (hb : 0 < b) (h : ¬ b ^ k ∣ m) :
    digit b (-(m : Int)) k = b - 1 - m / b ^ k % b := by
  have hpow : 0 < b ^ k := Nat.pow_pos hb
  have hpos : 0 < m := Nat.pos_of_ne_zero fun h0 => h (h0 ▸ Nat.dvd_zero _)
  have hnot := digit_not hb ((m : Int) - 1) k
  rw [show -((m : Int) - 1) - 1 = -(m : Int) by ring,
    show (m : Int) - 1 = ((m - 1 : Nat) : Int) by omega, digit_natCast] at hnot
  have hdiv : (m - 1) / b ^ k = m / b ^ k := by
    have hmod : 0 < m % b ^ k := Nat.pos_of_ne_zero fun h0 => h (Nat.dvd_of_mod_eq_zero h0)
    have hdm := Nat.div_add_mod m (b ^ k)
    have hlt := Nat.mod_lt m hpow
    exact ((Nat.div_mod_unique (a := m - 1) (d := m / b ^ k) (c := m % b ^ k - 1) hpow).mpr
      ⟨by omega, by omega⟩).1
  rw [hnot, hdiv]

theorem value_digits {α : Type*} (dig : α → Nat) (hb : 0 < b) (v : Int) (f : Nat → α)
    (hf : ∀ k < n, dig (f k) = digit b v k) :
    (Positional.value dig b ((List.range n).map f) : Int) = v % (b : Int) ^ n := by
  induction n with
  | zero => simp
  | succ n ih =>
      have hpow : (0 : Int) < (b : Int) ^ n := by positivity
      rw [List.range_succ, List.map_append, Positional.value_append, List.length_map,
        List.length_range]
      push_cast
      rw [ih fun k hk => hf k (by omega)]
      simp only [List.map_cons, List.map_nil, Positional.value_cons, Positional.value_nil,
        Nat.mul_zero, Nat.add_zero]
      rw [hf n (by omega), cast_digit hb]
      have hv := Int.mul_ediv_add_emod v ((b : Int) ^ n)
      have hq := Int.mul_ediv_add_emod (v / (b : Int) ^ n) b
      have h₁ := Int.emod_nonneg v hpow.ne'
      have h₂ := Int.emod_lt_of_pos v hpow
      have h₃ := Int.emod_nonneg (v / (b : Int) ^ n) (by omega : (b : Int) ≠ 0)
      have h₄ := Int.emod_lt_of_pos (v / (b : Int) ^ n) (by omega : (0 : Int) < b)
      refine ((Int.ediv_emod_unique (q := v / (b : Int) ^ n / b)
        (by positivity)).mpr ⟨?_, ?_, ?_⟩).2.symm
      · linear_combination hv + (b : Int) ^ n * hq
      · exact Int.add_nonneg h₁ (Int.mul_nonneg hpow.le h₃)
      · calc v % (b : Int) ^ n + (b : Int) ^ n * (v / (b : Int) ^ n % b)
            < (b : Int) ^ n * (v / (b : Int) ^ n % b + 1) := by linarith
          _ ≤ (b : Int) ^ n * b := Int.mul_le_mul_of_nonneg_left (by omega) hpow.le
          _ = (b : Int) ^ (n + 1) := (pow_succ _ _).symm

theorem testBit_digit (w : Nat) (v : Int) (k j : Nat) :
    (digit (2 ^ w) v k).testBit j = (decide (j < w) && v.testBit (w * k + j)) := by
  have hcast : ((2 ^ w : Nat) : Int) ^ k = ((2 ^ (w * k) : Nat) : Int) := by
    rw [pow_mul]
    push_cast
    rfl
  cases v with
  | ofNat m =>
      rw [Int.ofNat_eq_natCast, digit_natCast, ← pow_mul, Nat.testBit_mod_two_pow,
        Nat.testBit_div_two_pow]
      rw [Nat.add_comm j]
      rfl
  | negSucc m =>
      have hneg : Int.negSucc m = -(m : Int) - 1 := by omega
      have hlt : m / (2 ^ w) ^ k % 2 ^ w < 2 ^ w := Nat.mod_lt _ (Nat.two_pow_pos w)
      rw [hneg, digit_not (Nat.two_pow_pos w), digit_natCast, ← hneg,
        show 2 ^ w - 1 - m / (2 ^ w) ^ k % 2 ^ w = 2 ^ w - (m / (2 ^ w) ^ k % 2 ^ w + 1) by omega,
        Nat.testBit_two_pow_sub_succ hlt, ← pow_mul, Nat.testBit_mod_two_pow,
        Nat.testBit_div_two_pow, Nat.add_comm j]
      by_cases hj : j < w
      · simp [hj, Int.testBit]
      · simp [hj]

theorem digit_land (w : Nat) (u v : Int) (k : Nat) :
    digit (2 ^ w) (u.land v) k = digit (2 ^ w) u k &&& digit (2 ^ w) v k := by
  apply Nat.eq_of_testBit_eq
  intro j
  rw [Nat.testBit_and, testBit_digit, testBit_digit, testBit_digit, Int.testBit_land]
  cases decide (j < w) <;> simp

theorem digit_lor (w : Nat) (u v : Int) (k : Nat) :
    digit (2 ^ w) (u.lor v) k = digit (2 ^ w) u k ||| digit (2 ^ w) v k := by
  apply Nat.eq_of_testBit_eq
  intro j
  rw [Nat.testBit_or, testBit_digit, testBit_digit, testBit_digit, Int.testBit_lor]
  cases decide (j < w) <;> simp

theorem digit_xor (w : Nat) (u v : Int) (k : Nat) :
    digit (2 ^ w) (Int.xor u v) k = digit (2 ^ w) u k ^^^ digit (2 ^ w) v k := by
  apply Nat.eq_of_testBit_eq
  intro j
  rw [Nat.testBit_xor, testBit_digit, testBit_digit, testBit_digit, Int.testBit_lxor]
  cases decide (j < w) <;> simp

private theorem bitwise_ediv (f : Bool → Bool → Bool) (u v : Int) (n : Nat) :
    Int.bitwise f u v / 2 ^ n = Int.bitwise f (u / 2 ^ n) (v / 2 ^ n) := by
  induction n generalizing u v with
  | zero => simp
  | succ n ih =>
      have hstep : Int.bitwise f u v / 2 = Int.bitwise f (u / 2) (v / 2) := by
        conv_lhs => rw [← Int.bit_decomp u, ← Int.bit_decomp v, Int.bitwise_bit, Int.bit_val]
        rw [Int.div2_val, Int.div2_val]
        cases f u.bodd v.bodd <;> simp [Int.add_ediv_of_dvd_left]
      have hpow : ∀ z : Int, z / 2 ^ (n + 1) = z / 2 / 2 ^ n := fun z => by
        rw [pow_succ', Int.ediv_ediv_of_nonneg (by omega)]
      rw [hpow, hpow, hpow, hstep, ih]

def Fits (n : Nat) (v : Int) : Prop := -2 ^ n ≤ v ∧ v < 2 ^ n

theorem fits_iff (n : Nat) (v : Int) : Fits n v ↔ v / 2 ^ n = 0 ∨ v / 2 ^ n = -1 := by
  have hpow : (0 : Int) < 2 ^ n := by positivity
  have hv := Int.mul_ediv_add_emod v (2 ^ n)
  have h₁ := Int.emod_nonneg v hpow.ne'
  have h₂ := Int.emod_lt_of_pos v hpow
  unfold Fits
  generalize v / 2 ^ n = q at *
  generalize v % 2 ^ n = r at *
  generalize (2 : Int) ^ n = p at *
  subst hv
  constructor
  · rintro ⟨hlo, hhi⟩
    by_contra hne
    rcases (by omega : q ≤ -2 ∨ 1 ≤ q) with hq | hq
    · nlinarith
    · nlinarith
  · rintro (rfl | rfl) <;> constructor <;> omega

private theorem natBitwise_zero (f : Bool → Bool → Bool) :
    Int.natBitwise f 0 0 = 0 ∨ Int.natBitwise f 0 0 = -1 := by
  unfold Int.natBitwise
  cases f false false <;> simp

theorem Fits.bitwise (f : Bool → Bool → Bool) (hu : Fits n u) (hv : Fits n v) :
    Fits n (Int.bitwise f u v) := by
  rw [fits_iff] at hu hv ⊢
  rw [bitwise_ediv]
  rcases hu with hu | hu <;> rcases hv with hv | hv <;> rw [hu, hv]
  · exact natBitwise_zero f
  · exact natBitwise_zero fun x y => f x (not y)
  · exact natBitwise_zero fun x y => f (not x) y
  · exact natBitwise_zero fun x y => f (not x) (not y)

theorem Fits.land (hu : Fits n u) (hv : Fits n v) : Fits n (u.land v) :=
  Int.bitwise_and ▸ hu.bitwise and hv

theorem Fits.lor (hu : Fits n u) (hv : Fits n v) : Fits n (u.lor v) :=
  Int.bitwise_or ▸ hu.bitwise or hv

theorem Fits.xor (hu : Fits n u) (hv : Fits n v) : Fits n (Int.xor u v) :=
  Int.bitwise_xor ▸ hu.bitwise Bool.xor hv

theorem Fits.not (hv : Fits n v) : Fits n (-v - 1) := ⟨by have := hv.2; omega, by have := hv.1; omega⟩

theorem Fits.mono {m : Nat} (hv : Fits n v) (hm : n ≤ m) : Fits m v := by
  have hpow : (2 : Int) ^ n ≤ 2 ^ m := by exact_mod_cast Nat.pow_le_pow_right (by decide) hm
  exact ⟨by have := hv.1; omega, by have := hv.2; omega⟩

end TwosComplement
