import Mathlib.Algebra.Order.Floor.Semifield
import Mathlib.Data.Rat.Floor
import PGBigNumber.Fraction
import PGBigNumber.Store.Text

/-!
# Decimal expansion of fractions

`toDecimal` prints the integer part and the decimals by two divisions. The decimals are printed as
an integer and zeros are appended behind them.
-/

namespace PGBigNumber

def decimalText (v : Int) : List Char := (if v < 0 then ['-'] else []) ++ toChars v.natAbs 10

/-- `BigInteger(const StringArg &)`, which stays 0 where the numeral is rejected. -/
def ofText (s : List Char) : Int := if Rejected 10 s then 0 else (denote 10 s).getD 0

private theorem validRadix_ten : ValidRadix 10 := by decide

namespace Store

variable {σ : Store} {i : Nat}

theorem toString_decimalText (h : σ.Wf) (hi : i < σ.live) (hx : (σ.num i).Canon) :
    ∃ σ', σ.toString i 10 = some (decimalText (σ.num i).toInt, σ') := by
  obtain ⟨σ', hrun, -⟩ := toString_spec validRadix_ten h hi hx
  exact ⟨σ', hrun⟩

theorem fromString_ofText (h : σ.Wf) (hi : i < σ.live) (h0 : σ.num i = Num.zero) {s : List Char}
    {v : Int} (hs : denote 10 s = some v) :
    ∃ σ' ok, σ.fromString i s 10 = some (σ', ok) ∧ σ'.num i = Num.ofInt (ofText s) := by
  have hover := rejected_iff_of_denote validRadix_ten hs
  unfold ofText
  by_cases hrej : Rejected 10 s
  · obtain ⟨σ', ok, hrun, hreads⟩ := fromString_reads validRadix_ten h hi s
    refine ⟨σ', ok, hrun, ?_⟩
    rw [if_pos hrej, (hreads.rejected hrej).2.keeps.num i hi fun hf => hf, h0, Num.zero_eq_ofInt]
  · rw [if_neg hrej, hs, Option.getD_some]
    exact fromString_denote validRadix_ten h hi hs fun ho => hrej (hover.mpr ho)

end Store

namespace Fraction

/-- `toDecimal`. The quotient by the denominator keeps the sign of the denominator, and the zeros
that make up the digit count stand behind it. -/
def toDecimal (f : Fraction) (maxDecimalDigitCount : Int) : Option (List Char) :=
  if f.den = 0 then none
  else
    let q := |f.num|.tmod |f.den|
    let digitalDigitsStr :=
      if maxDecimalDigitCount > 0 then
        let mul := ofText ('1' :: List.replicate maxDecimalDigitCount.toNat '0')
        let str := '.' :: decimalText ((q * mul).tdiv f.den)
        if maxDecimalDigitCount > str.length then
          str ++ List.replicate (maxDecimalDigitCount.toNat - str.length) '0'
        else str
      else []
    some (decimalText (f.num.tdiv f.den) ++ digitalDigitsStr)

/-- `s` is the decimal numeral of `v`, cut off after `k` decimals. -/
def IsDecimal (v : ℚ) (k : Nat) (s : List Char) : Prop :=
  ∃ digits : List Char, digits.length = k ∧ digits.all (isDigit 10) = true ∧
    digitsMag 10 digits = ⌊|v| * (10 ^ k : Nat)⌋₊ % 10 ^ k ∧
    s = (if v < 0 ∧ ⌊|v| * (10 ^ k : Nat)⌋₊ ≠ 0 then ['-'] else []) ++ toChars ⌊|v|⌋₊ 10 ++
      '.' :: digits

private theorem all_toChars (n : Nat) : (toChars n 10).all (isDigit 10) = true := by
  unfold toChars
  by_cases h0 : n = 0
  · rw [if_pos h0]
    rfl
  · rw [if_neg h0, List.all_map, List.all_eq_true]
    intro d hd
    exact isDigit_digitChar validRadix_ten (Nat.digits_lt_base (by decide) (List.mem_reverse.mp hd))

private theorem digitsMag_toChars (n : Nat) : digitsMag 10 (toChars n 10) = n := by
  unfold toChars
  by_cases h0 : n = 0
  · rw [if_pos h0, h0]
    rfl
  · rw [if_neg h0, digitsMag_map_digitChar validRadix_ten
      fun d hd => Nat.digits_lt_base (by decide) (List.mem_reverse.mp hd), List.reverse_reverse,
      Nat.ofDigits_digits]

private theorem length_toChars_iff {n k : Nat} (hk : 0 < k) (hn : n < 10 ^ k) :
    (toChars n 10).length = k ↔ 10 ^ (k - 1) ≤ n ∨ n = 0 ∧ k = 1 := by
  unfold toChars
  by_cases h0 : n = 0
  · rw [if_pos h0, h0, List.length_singleton]
    have hpow : 0 < 10 ^ (k - 1) := Nat.pow_pos (by decide)
    omega
  · rw [if_neg h0, List.length_map, List.length_reverse, ← Nat.lt_digits_length_iff (by decide)]
    have hle := (Nat.digits_length_le_iff (by decide) n).mpr hn
    omega

private theorem length_toChars_pos (n : Nat) : 0 < (toChars n 10).length := by
  unfold toChars
  split
  · exact Nat.one_pos
  · next h0 =>
      rw [List.length_map, List.length_reverse]
      exact List.length_pos_of_ne_nil (Nat.digits_ne_nil_iff_ne_zero.mpr h0)

private theorem not_mem_toChars {c : Char} (hc : isDigit 10 c = false) (n : Nat) :
    c ∉ toChars n 10 := by
  intro hmem
  rw [List.all_eq_true.mp (all_toChars n) c hmem] at hc
  exact absurd hc (by decide)

private theorem decimal_inj {p q : Prop} [Decidable p] [Decidable q] (n : Nat) {s t : List Char}
    (hs : '.' ∉ s) :
    (if p then ['-'] else []) ++ toChars n 10 ++ '.' :: s =
      (if q then ['-'] else []) ++ toChars n 10 ++ '.' :: t ↔ (p ↔ q) ∧ s = t := by
  have hpoint : '.' ∉ toChars n 10 := not_mem_toChars rfl n
  have hleft : '.' ∉ (if p then ['-'] else []) ++ toChars n 10 := by
    split <;> simpa using hpoint
  rw [List.append_cons_inj_of_notMem hleft hs, List.append_left_inj]
  by_cases hp : p <;> by_cases hq : q <;> simp [hp, hq]

private theorem decimals_iff {p : Prop} [Decidable p] {k m n : Nat} {s t : List Char}
    (hs : s = (if p then ['-'] else []) ++ toChars m 10)
    (ht : t = s ++ List.replicate (k - (s.length + 1)) '0') :
    (t.length = k ∧ t.all (isDigit 10) = true ∧ digitsMag 10 t = n) ↔
      ¬ p ∧ (toChars m 10).length = k ∧ m = n := by
  have hpos := length_toChars_pos m
  constructor
  · rintro ⟨hlen, hall, hmag⟩
    have hp : ¬ p := by
      intro hp
      rw [ht, hs, if_pos hp] at hall
      exact absurd hall (by simp [show isDigit 10 '-' = false from rfl])
    rw [if_neg hp, List.nil_append] at hs
    subst hs
    rw [ht, List.length_append, List.length_replicate] at hlen
    have hm : (toChars m 10).length = k := by omega
    rw [ht, hm, Nat.sub_eq_zero_of_le (Nat.le_succ k), List.replicate_zero, List.append_nil,
      digitsMag_toChars] at hmag
    exact ⟨hp, hm, hmag⟩
  · rintro ⟨hp, hm, rfl⟩
    rw [if_neg hp, List.nil_append] at hs
    subst hs
    rw [hm, Nat.sub_eq_zero_of_le (Nat.le_succ k), List.replicate_zero, List.append_nil] at ht
    subst ht
    exact ⟨hm, all_toChars m, digitsMag_toChars m⟩

private theorem tdiv_neg_iff {a b : Int} :
    a.tdiv b < 0 ↔ (a < 0 ∧ 0 < b ∨ 0 < a ∧ b < 0) ∧ a.natAbs / b.natAbs ≠ 0 := by
  rcases a.eq_nat_or_neg with ⟨m, rfl | rfl⟩ <;> rcases b.eq_nat_or_neg with ⟨n, rfl | rfl⟩ <;>
    simp only [Int.neg_tdiv, Int.tdiv_neg, Int.natAbs_neg, Int.natAbs_natCast, neg_neg] <;>
    rw [← Int.ofNat_tdiv] <;> generalize hq : m / n = q <;>
    rcases Nat.eq_zero_or_pos m with rfl | hm <;> rcases Nat.eq_zero_or_pos n with rfl | hn <;>
    simp at hq ⊢ <;> omega

private theorem decimalText_tdiv (a b : Int) : decimalText (a.tdiv b) =
    (if (a < 0 ∧ 0 < b ∨ 0 < a ∧ b < 0) ∧ a.natAbs / b.natAbs ≠ 0 then ['-'] else []) ++
      toChars (a.natAbs / b.natAbs) 10 := by
  rw [decimalText, Int.natAbs_tdiv]
  simp only [tdiv_neg_iff]
  rfl

private theorem ofText_pow (k : Nat) : ofText ('1' :: List.replicate k '0') =
    ((if Overflows 10 ('1' :: List.replicate k '0') then 0 else 10 ^ k : Nat) : Int) := by
  have hall : ('1' :: List.replicate k '0').all (isDigit 10) = true := by
    rw [List.all_cons, List.all_replicate]
    simp [show isDigit 10 '1' = true from rfl, show isDigit 10 '0' = true from rfl]
  have hmag : digitsMag 10 ('1' :: List.replicate k '0') = 10 ^ k := by
    have hzeros : digitsMag 10 (List.replicate k '0' ++ []) = digitsMag 10 [] := digitsMag_zeros k []
    rw [List.append_nil, digitsMag_nil] at hzeros
    rw [← List.singleton_append, digitsMag_append, hzeros, List.length_replicate]
    exact Nat.one_mul _
  have hunsigned : unsigned ('1' :: List.replicate k '0') = '1' :: List.replicate k '0' :=
    if_neg (by simp)
  have hdenote : denote 10 ('1' :: List.replicate k '0') = some ((10 ^ k : Nat) : Int) := by
    rw [denote, hunsigned, if_pos ⟨List.cons_ne_nil _ _, hall⟩, hmag]
    simp
  rw [ofText, hdenote, Option.getD_some]
  simp only [rejected_iff_of_denote validRadix_ten hdenote]
  split <;> rfl

private theorem toDecimal_eq {f : Fraction} (hden : f.den ≠ 0) {k : Nat} (hk : 0 < k) {m : Nat}
    (hm : m = f.num.natAbs % f.den.natAbs *
      (if Overflows 10 ('1' :: List.replicate k '0') then 0 else 10 ^ k) / f.den.natAbs)
    {s : List Char} (hs : s = (if f.den < 0 ∧ m ≠ 0 then ['-'] else []) ++ toChars m 10) :
    f.toDecimal k = some
      ((if (f.num < 0 ∧ 0 < f.den ∨ 0 < f.num ∧ f.den < 0) ∧ f.num.natAbs / f.den.natAbs ≠ 0
        then ['-'] else []) ++ toChars (f.num.natAbs / f.den.natAbs) 10 ++
        '.' :: (s ++ List.replicate (k - (s.length + 1)) '0')) := by
  have hq : |f.num|.tmod |f.den| * ofText ('1' :: List.replicate k '0') =
      ((f.num.natAbs % f.den.natAbs *
        (if Overflows 10 ('1' :: List.replicate k '0') then 0 else 10 ^ k) : Nat) : Int) := by
    rw [Int.abs_eq_natAbs, Int.abs_eq_natAbs, ← Int.ofNat_tmod, ofText_pow, ← Nat.cast_mul]
  have htext : decimalText
      ((|f.num|.tmod |f.den| * ofText ('1' :: List.replicate k '0')).tdiv f.den) = s := by
    rw [hq, decimalText_tdiv, Int.natAbs_natCast, ← hm, hs]
    congr 1
    have hzero : f.den < 0 → m ≠ 0 → f.num.natAbs % f.den.natAbs *
        (if Overflows 10 ('1' :: List.replicate k '0') then 0 else 10 ^ k) ≠ 0 := by
      intro _ hne h0
      rw [h0, Nat.zero_div] at hm
      exact hne hm
    generalize f.num.natAbs % f.den.natAbs *
      (if Overflows 10 ('1' :: List.replicate k '0') then 0 else 10 ^ k) = n at *
    congr 1
    apply propext
    constructor
    · rintro ⟨h, hne⟩
      exact ⟨by omega, hne⟩
    · rintro ⟨h, hne⟩
      have := hzero h hne
      exact ⟨by omega, hne⟩
  have hpad : (if (k : Int) > ('.' :: s).length then
      '.' :: s ++ List.replicate (k - ('.' :: s).length) '0' else '.' :: s) =
      '.' :: (s ++ List.replicate (k - (s.length + 1)) '0') := by
    rw [List.length_cons]
    by_cases hlen : s.length + 1 < k
    · rw [if_pos (by omega)]
      rfl
    · rw [if_neg (by omega), Nat.sub_eq_zero_of_le (by omega), List.replicate_zero, List.append_nil]
  unfold toDecimal
  rw [if_neg hden]
  dsimp only
  rw [if_pos (by omega), Int.toNat_natCast, htext, hpad, decimalText_tdiv]

theorem floor_abs_value (f : Fraction) (n : Nat) :
    ⌊|f.value| * n⌋₊ = f.num.natAbs * n / f.den.natAbs := by
  have habs : |f.value| = (f.num.natAbs : ℚ) / f.den.natAbs := by
    rw [value, abs_div, Nat.cast_natAbs, Nat.cast_natAbs, Int.cast_abs, Int.cast_abs]
  rw [habs, div_mul_eq_mul_div, ← Nat.cast_mul, Nat.floor_div_eq_div]

theorem value_neg_iff (f : Fraction) :
    f.value < 0 ↔ f.num < 0 ∧ 0 < f.den ∨ 0 < f.num ∧ f.den < 0 := by
  rw [value, div_neg_iff]
  simp only [Int.cast_pos, Int.cast_lt_zero]
  exact or_comm

private theorem scaled_div (n d k : Nat) (hd : 0 < d) :
    n * 10 ^ k / d = n / d * 10 ^ k + n % d * 10 ^ k / d ∧ n % d * 10 ^ k / d < 10 ^ k := by
  have hsplit := Nat.div_add_mod n d
  have hlt := Nat.mod_lt n hd
  constructor
  · conv_lhs => rw [← hsplit]
    rw [Nat.add_mul, Nat.mul_assoc, Nat.mul_add_div hd]
  · rw [Nat.div_lt_iff_lt_mul hd, Nat.mul_comm (10 ^ k)]
    exact Nat.mul_lt_mul_of_pos_right hlt (Nat.pow_pos (by decide))

private theorem first_decimal_iff (r d k : Nat) (hd : 0 < d) (hk : 0 < k) :
    10 ^ (k - 1) ≤ r * 10 ^ k / d ↔ r * 10 / d ≠ 0 := by
  obtain ⟨j, rfl⟩ := Nat.exists_eq_add_of_le' hk
  have hpow : 0 < 10 ^ j := Nat.pow_pos (by decide)
  have hone : r * 10 / d ≠ 0 ↔ d ≤ r * 10 := by
    rw [ne_eq, Nat.div_eq_zero_iff]
    omega
  rw [hone, Nat.add_sub_cancel, Nat.le_div_iff_mul_le hd, pow_succ, Nat.mul_comm (10 ^ j) d,
    Nat.mul_comm (10 ^ j) 10, ← Nat.mul_assoc]
  exact ⟨fun h => Nat.le_of_mul_le_mul_right h hpow, fun h => Nat.mul_le_mul_right _ h⟩

private theorem value_between_iff (f : Fraction) :
    -1 < f.value ∧ f.value < 0 ↔ f.value < 0 ∧ f.num.natAbs / f.den.natAbs = 0 := by
  have hfloor := floor_abs_value f 1
  rw [Nat.cast_one, mul_one, Nat.mul_one] at hfloor
  rw [← hfloor, Nat.floor_eq_zero]
  constructor
  · rintro ⟨hlow, hneg⟩
    exact ⟨hneg, by rw [abs_of_neg hneg]; linarith⟩
  · rintro ⟨hneg, hlt⟩
    rw [abs_of_neg hneg] at hlt
    exact ⟨by linarith, hneg⟩

private theorem digits_fit_iff {r d k m : Nat} (hd : 0 < d) (hr : r < d) (hk : 0 < k)
    (hm : m = r * (if Overflows 10 ('1' :: List.replicate k '0') then 0 else 10 ^ k) / d) :
    ((toChars m 10).length = k ∧ m = r * 10 ^ k / d) ↔
      r * 10 / d ≠ 0 ∧ ¬ Overflows 10 ('1' :: List.replicate k '0') ∨ r * 10 / d = 0 ∧ k = 1 := by
  have hguard : k = 1 → ¬ Overflows 10 ('1' :: List.replicate k '0') := by
    rintro rfl
    decide
  by_cases hover : Overflows 10 ('1' :: List.replicate k '0')
  · rw [if_pos hover, Nat.mul_zero, Nat.zero_div] at hm
    have hlen : (toChars m 10).length = 1 := by rw [hm]; rfl
    have hk1 : k ≠ 1 := fun hk1 => hguard hk1 hover
    rw [hlen]
    exact iff_of_false (fun h => hk1 h.1.symm) (by tauto)
  · rw [if_neg hover] at hm
    have hlt : m < 10 ^ k := by
      rw [hm, Nat.div_lt_iff_lt_mul hd, Nat.mul_comm (10 ^ k)]
      exact Nat.mul_lt_mul_of_pos_right hr (Nat.pow_pos (by decide))
    rw [length_toChars_iff hk hlt, and_iff_left hm, hm, first_decimal_iff r d k hd hk]
    have hone : k = 1 → (r * 10 ^ k / d = 0 ↔ r * 10 / d = 0) := by
      rintro rfl
      rw [pow_one]
    tauto

private theorem isDecimal_iff (f : Fraction) {k : Nat} {p : Prop} [Decidable p] (t : List Char) :
    IsDecimal f.value k ((if p then ['-'] else []) ++
        toChars (f.num.natAbs / f.den.natAbs) 10 ++ '.' :: t) ↔
      (f.value < 0 ∧ f.num.natAbs * 10 ^ k / f.den.natAbs ≠ 0 ↔ p) ∧
        (t.length = k ∧ t.all (isDigit 10) = true ∧
          digitsMag 10 t = f.num.natAbs * 10 ^ k / f.den.natAbs % 10 ^ k) := by
  have hint := floor_abs_value f 1
  rw [Nat.cast_one, mul_one, Nat.mul_one] at hint
  unfold IsDecimal
  rw [floor_abs_value, hint]
  have hpoint : ∀ {s : List Char}, s.all (isDigit 10) = true → '.' ∉ s := by
    intro s hs hmem
    exact absurd (List.all_eq_true.mp hs _ hmem) (by decide)
  constructor
  · rintro ⟨digits, hlen, hall, hmag, heq⟩
    obtain ⟨hsign, rfl⟩ := (decimal_inj _ (hpoint hall)).mp heq.symm
    exact ⟨hsign, hlen, hall, hmag⟩
  · rintro ⟨hsign, hlen, hall, hmag⟩
    exact ⟨t, hlen, hall, hmag, ((decimal_inj _ (hpoint hall)).mpr ⟨hsign, rfl⟩).symm⟩

/-- The condition under which `toDecimal` prints the decimals: the first one is not zero, the
denominator is positive, the sign does not get lost on an integer part 0 and `k` is within the digit
count guard; or there is a single decimal, which is zero. -/
def DecimalFits (f : Fraction) (k : Nat) : Prop :=
  (⌊|f.value| * (10 : Nat)⌋₊ % 10 ≠ 0 ∧ 0 < f.den ∧ ¬ (-1 < f.value ∧ f.value < 0) ∧
      ¬ Overflows 10 ('1' :: List.replicate k '0')) ∨
    ⌊|f.value| * (10 : Nat)⌋₊ % 10 = 0 ∧ k = 1

/-- `toDecimal` is the truncated decimal expansion exactly when `DecimalFits`. -/
theorem toDecimal_iff (f : Fraction) (hden : f.den ≠ 0) (k : Nat) (hk : 1 ≤ k) :
    ∃ s, f.toDecimal k = some s ∧ (IsDecimal f.value k s ↔ f.DecimalFits k) := by
  set r := f.num.natAbs % f.den.natAbs with hr
  set m := r * (if Overflows 10 ('1' :: List.replicate k '0') then 0 else 10 ^ k) / f.den.natAbs
    with hm
  have hd : 0 < f.den.natAbs := Int.natAbs_pos.mpr hden
  refine ⟨_, toDecimal_eq hden hk hm rfl, ?_⟩
  obtain ⟨hscaled, hlt⟩ := scaled_div f.num.natAbs f.den.natAbs k hd
  rw [← hr] at hscaled hlt
  set q := f.num.natAbs / f.den.natAbs with hq
  have hrest : f.num.natAbs * 10 ^ k / f.den.natAbs % 10 ^ k = r * 10 ^ k / f.den.natAbs := by
    rw [hscaled, Nat.add_mod, Nat.mul_mod_left, Nat.zero_add, Nat.mod_mod, Nat.mod_eq_of_lt hlt]
  have hfirst : ⌊|f.value| * (10 : Nat)⌋₊ % 10 = r * 10 / f.den.natAbs := by
    obtain ⟨hten, hltten⟩ := scaled_div f.num.natAbs f.den.natAbs 1 hd
    rw [pow_one, ← hr] at hten hltten
    rw [floor_abs_value, hten, Nat.add_mod, Nat.mul_mod_left, Nat.zero_add, Nat.mod_mod,
      Nat.mod_eq_of_lt hltten]
  have hzero : q * 10 ^ k + r * 10 ^ k / f.den.natAbs = 0 ↔
      q = 0 ∧ r * 10 ^ k / f.den.natAbs = 0 := by
    have hpow : 10 ^ k ≠ 0 := (Nat.pow_pos (by decide)).ne'
    rw [Nat.add_eq_zero_iff, Nat.mul_eq_zero, or_iff_left hpow]
  rw [isDecimal_iff, decimals_iff rfl rfl, hrest,
    digits_fit_iff hd (Nat.mod_lt _ hd) hk hm, ← value_neg_iff, hscaled, ne_eq, hzero]
  unfold DecimalFits
  rw [hfirst, value_between_iff, ← hq]
  have hfit := digits_fit_iff hd (Nat.mod_lt _ hd) hk hm
  have hfull := first_decimal_iff r f.den.natAbs k hd hk
  have hpow : 0 < 10 ^ (k - 1) := Nat.pow_pos (by decide)
  have hsingle : r * 10 / f.den.natAbs = 0 → k = 1 → r * 10 ^ k / f.den.natAbs = 0 := by
    rintro h0 rfl
    rw [pow_one]
    exact h0
  constructor
  · rintro ⟨hsign, hden', ⟨hne, hover⟩ | hlast⟩
    · have hm0 := (hfit.mpr (Or.inl ⟨hne, hover⟩)).2
      have hF := hfull.mpr hne
      refine Or.inl ⟨hne, ?_, ?_, hover⟩
      · have hm' : m ≠ 0 := by
          rw [hm0]
          exact (hpow.trans_le hF).ne'
        have hnonneg : ¬ f.den < 0 := fun hneg => hden' ⟨hneg, hm'⟩
        exact lt_of_le_of_ne (not_lt.mp hnonneg) hden.symm
      · rintro ⟨hneg, hq0⟩
        have hsome : ¬ (q = 0 ∧ r * 10 ^ k / f.den.natAbs = 0) := by
          rintro ⟨-, h0⟩
          rw [h0] at hF
          exact absurd hF (Nat.not_le_of_lt hpow)
        exact (hsign.mp ⟨hneg, hsome⟩).2 hq0
    · exact Or.inr hlast
  · rintro (⟨hne, hpos, hbetween, hover⟩ | hlast)
    · refine ⟨⟨?_, ?_⟩, fun h => lt_asymm hpos h.1, Or.inl ⟨hne, hover⟩⟩
      · exact fun h => ⟨h.1, fun hq0 => hbetween ⟨h.1, hq0⟩⟩
      · exact fun h => ⟨h.1, fun hboth => h.2 hboth.1⟩
    · have hF := hsingle hlast.1 hlast.2
      have hm0 := (hfit.mpr (Or.inr hlast)).2
      refine ⟨⟨?_, ?_⟩, fun h => h.2 (hm0.trans hF), Or.inr hlast⟩
      · exact fun h => ⟨h.1, fun hq0 => h.2 ⟨hq0, hF⟩⟩
      · exact fun h => ⟨h.1, fun hboth => h.2 hboth.1⟩

/-- 22 / 7 with three decimals. -/
theorem toDecimal_three : ∃ s, toDecimal ⟨22, 7⟩ (3 : Nat) = some s ∧
    IsDecimal (value ⟨22, 7⟩) 3 s := by
  obtain ⟨s, hrun, hiff⟩ := toDecimal_iff ⟨22, 7⟩ (by decide) 3 (by decide)
  refine ⟨s, hrun, hiff.mpr (Or.inl ⟨?_, by decide, fun h => ?_, by decide⟩)⟩
  · rw [floor_abs_value]
    decide
  · have hneg := (value_neg_iff _).mp h.2
    simp at hneg

/-- 1 / 20 is printed as 0.5. -/
theorem toDecimal_twentieth : toDecimal ⟨1, 20⟩ (2 : Nat) = some ['0', '.', '5'] ∧
    ¬ IsDecimal (value ⟨1, 20⟩) 2 ['0', '.', '5'] := by
  refine ⟨by decide, fun hdec => ?_⟩
  obtain ⟨-, hlen, -⟩ := (isDecimal_iff ⟨1, 20⟩ (p := False) ['5']).mp hdec
  exact absurd hlen (by decide)

end Fraction

end PGBigNumber
