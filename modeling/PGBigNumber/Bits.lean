import PGBigNumber.Number
import PGBigNumber.Library.TwosComplement

/-!
# Two's complement form of numbers

`getU32` reads the limbs of the infinite two's complement form of a number, and the bitwise member
functions turn finitely many of such limbs back into sign and magnitude.
-/

namespace PGBigNumber

def firstNz (l : List UInt32) : Nat := l.findIdx (· != 0)

def notPlusOneLimbs (l : List UInt32) (firstNonZeroU32Index : Nat) : List UInt32 :=
  match l.drop firstNonZeroU32Index with
  | [] => l
  | x :: xs => l.take firstNonZeroU32Index ++ -x :: xs.map (~~~ ·)

def limbAt (v : Int) (k : Nat) : UInt32 := UInt32.ofNat (TwosComplement.digit (2 ^ 32) v k)

namespace Num

/-- `getU32(n)`, given the index that `getFirstNonZeroU32Index` returns. -/
def u32At (x : Num) (fnu32zi n : Nat) : UInt32 :=
  if x.sign.zero then 0
  else if n ≥ x.limbs.length then if x.sign.negative then 0xffffffff else 0
  else
    let magInt := x.limbs.getD n 0
    if x.sign.positive then magInt
    else if n > fnu32zi then ~~~magInt
    else if n < fnu32zi then 0
    else -magInt

/-- The end of the bitwise functions, on a sign and two's complement limbs. -/
def decodeTwos (s : Sign) (l : List UInt32) : Num :=
  if l.getLastD 0 = 0 then if trim l = [] then ⟨.zro, []⟩ else ⟨.pos, trim l⟩
  else if l.getLastD 0 = 0xffffffff then ⟨.neg, trim (notPlusOneLimbs l (firstNz l))⟩
  else ⟨s, l⟩

end Num

theorem Num.u32At_zro (l : List UInt32) (f n : Nat) : Num.u32At ⟨.zro, l⟩ f n = 0 := if_pos rfl

theorem Num.u32At_congr {s : Sign} {l m : List UInt32} {f g n : Nat} (hlen : l.length = m.length)
    (hget : l.getD n 0 = m.getD n 0) (hfg : s.zero = true ∨ s.positive = true ∨ f = g) :
    Num.u32At ⟨s, l⟩ f n = Num.u32At ⟨s, m⟩ g n := by
  unfold Num.u32At
  dsimp only
  rw [hlen, hget]
  rcases hfg with h | h | rfl
  · rw [if_pos h, if_pos h]
  · rw [if_pos h, if_pos h]
  · rfl

theorem toNat_limbAt (v : Int) (k : Nat) :
    (limbAt v k).toNat = TwosComplement.digit (2 ^ 32) v k := by
  rw [limbAt, toNat_ofNat_u32, Nat.mod_eq_of_lt (TwosComplement.digit_lt (by decide) v k)]

theorem mag_digit (l : List UInt32) (k : Nat) :
    mag l / (2 ^ 32) ^ k % 2 ^ 32 = (l.getD k 0).toNat := by
  by_cases hk : k < l.length
  · have hsplit := mag_take_drop k l hk.le
    have hlow := mag_lt (l.take k)
    rw [List.length_take, Nat.min_eq_left hk.le] at hlow
    rw [hsplit, Nat.add_mul_div_left _ _ (Nat.pow_pos (by decide)), Nat.div_eq_of_lt hlow,
      Nat.zero_add, List.drop_eq_getElem_cons hk, mag_cons, Nat.add_mul_mod_self_left,
      Nat.mod_eq_of_lt (UInt32.toNat_lt _), List.getD_eq_getElem?_getD, List.getElem?_eq_getElem hk]
    rfl
  · have hlt : mag l < (2 ^ 32) ^ k :=
      Nat.lt_of_lt_of_le (mag_lt l) (Nat.pow_le_pow_right (by decide) (by omega))
    rw [Nat.div_eq_of_lt hlt, List.getD_eq_getElem?_getD, List.getElem?_eq_none (by omega)]
    rfl

theorem firstNz_le (l : List UInt32) : firstNz l ≤ l.length := List.findIdx_le_length

theorem getD_of_lt_firstNz {l : List UInt32} {k : Nat} (hk : k < firstNz l) : l.getD k 0 = 0 := by
  have hlen := Nat.lt_of_lt_of_le hk (firstNz_le l)
  have hnot := List.not_of_lt_findIdx hk
  rw [List.getD_eq_getElem?_getD, List.getElem?_eq_getElem hlen]
  simpa using hnot

theorem getD_firstNz {l : List UInt32} (h : firstNz l < l.length) : l.getD (firstNz l) 0 ≠ 0 := by
  have hfind : (l[firstNz l] != 0) = true := List.findIdx_getElem (w := h)
  rw [List.getD_eq_getElem?_getD, List.getElem?_eq_getElem h]
  exact bne_iff_ne.mp hfind

theorem pow_firstNz_dvd (l : List UInt32) : (2 ^ 32) ^ firstNz l ∣ mag l := by
  have hsplit := mag_take_drop (firstNz l) l (firstNz_le l)
  have hzero : mag (l.take (firstNz l)) = 0 := by
    apply (Positional.value_eq_zero_iff (by decide) _).mpr
    intro x hx
    obtain ⟨k, hk, rfl⟩ := List.getElem_of_mem hx
    rw [List.length_take] at hk
    have h0 := getD_of_lt_firstNz (l := l) (k := k) (by omega)
    rw [List.getD_eq_getElem?_getD, List.getElem?_eq_getElem (by omega)] at h0
    rw [List.getElem_take]
    exact congrArg UInt32.toNat h0
  rw [hsplit, hzero, Nat.zero_add]
  exact Nat.dvd_mul_right _ _

theorem firstNz_lt {l : List UInt32} (h : mag l ≠ 0) : firstNz l < l.length := by
  refine Nat.lt_of_le_of_ne (firstNz_le l) fun he => h ?_
  have hdvd := pow_firstNz_dvd l
  rw [he] at hdvd
  exact Nat.eq_zero_of_dvd_of_lt hdvd (mag_lt l)

namespace Num

variable {x : Num} {v w z : Int} {l : List UInt32} {n k : Nat}

private theorem u32At_neg (h : mag l ≠ 0) (k : Nat) :
    u32At ⟨.neg, l⟩ (firstNz l) k = limbAt (-(mag l : Int)) k := by
  have hlt := firstNz_lt h
  have hdvd := pow_firstNz_dvd l
  have hlow : (2 ^ 32) ^ k ∣ mag l ↔ k ≤ firstNz l := by
    constructor
    · intro hk
      by_contra hgt
      have hdiv := mag_digit l (firstNz l)
      have hstep : (2 ^ 32) ^ (firstNz l + 1) ∣ mag l :=
        (Nat.pow_dvd_pow _ (by omega)).trans hk
      obtain ⟨c, hc⟩ := hstep
      rw [hc, Nat.pow_succ, Nat.mul_assoc, Nat.mul_div_cancel_left _ (Nat.pow_pos (by decide)),
        Nat.mul_mod_right] at hdiv
      exact getD_firstNz hlt (UInt32.toNat_inj.mp hdiv.symm)
    · intro hk
      exact (Nat.pow_dvd_pow _ hk).trans hdvd
  apply UInt32.toNat_inj.mp
  rw [toNat_limbAt]
  have hdig := mag_digit l k
  have hread : u32At ⟨.neg, l⟩ (firstNz l) k =
      if k > firstNz l then ~~~(l.getD k 0) else if k < firstNz l then 0 else -(l.getD k 0) := by
    unfold u32At
    rw [if_neg (show ¬ Sign.neg.zero = true by decide)]
    by_cases hk : k ≥ l.length
    · rw [if_pos hk, if_pos (by omega : k > firstNz l), List.getD_eq_getElem?_getD,
        List.getElem?_eq_none (by omega)]
      rfl
    · rw [if_neg hk]
      rfl
  rw [hread]
  rcases Nat.lt_trichotomy k (firstNz l) with hk | hk | hk
  · rw [if_neg (by omega), if_pos hk, TwosComplement.digit_neg_low]
    · rfl
    · exact (Nat.pow_dvd_pow _ (by omega)).trans hdvd
  · have hne : mag l / (2 ^ 32) ^ k % 2 ^ 32 ≠ 0 := by
      rw [hdig, hk]
      exact fun he => getD_firstNz hlt (UInt32.toNat_inj.mp he)
    rw [if_neg (by omega), if_neg (by omega),
      TwosComplement.digit_neg_at (by decide) (hlow.mpr (by omega)) hne, hdig]
    rw [hdig] at hne
    have hlt32 := (l.getD k 0).toNat_lt
    rw [UInt32.toNat_neg, show UInt32.size = 2 ^ 32 from rfl, Nat.mod_eq_of_lt (by omega)]
  · rw [if_pos hk, TwosComplement.digit_neg_high (by decide) (by rw [hlow]; omega), hdig,
      UInt32.toNat_not]
    rfl

/-- What `getU32` needs of a number: one sign bit, and no negative zero. -/
structure Coherent (x : Num) : Prop where
  one_sign : x.sign = .zro ∨ x.sign = .pos ∨ x.sign = .neg
  nonzero : x.sign = .neg → mag x.limbs ≠ 0

theorem Canon.coherent (h : x.Canon) : x.Coherent := by
  refine ⟨h.one_sign, fun hneg => ?_⟩
  have hne : x.limbs ≠ [] := fun he => by
    have := h.zero_iff.mpr he
    rw [hneg] at this
    exact absurd this (by decide)
  exact Nat.ne_of_gt (h.trimmed.mag_pos hne)

theorem u32At_eq (h : x.Coherent) (k : Nat) : x.u32At (firstNz x.limbs) k = limbAt x.toInt k := by
  obtain ⟨s, l⟩ := x
  obtain ⟨hs, hne⟩ := h
  simp only at hs hne
  rcases hs with rfl | rfl | rfl
  · rw [toInt]
    simp [u32At, Sign.zro, Sign.signum, limbAt, TwosComplement.digit]
  · apply UInt32.toNat_inj.mp
    have hval : toInt ⟨.pos, l⟩ = (mag l : Int) := by simp [toInt, Sign.pos, Sign.signum]
    rw [toNat_limbAt, hval, TwosComplement.digit_natCast, mag_digit]
    unfold u32At
    rw [if_neg (show ¬ Sign.pos.zero = true by decide)]
    by_cases hk : k ≥ l.length
    · rw [if_pos hk, List.getD_eq_getElem?_getD, List.getElem?_eq_none (by omega)]
      rfl
    · rw [if_neg hk]
      rfl
  · have hval : toInt ⟨.neg, l⟩ = -(mag l : Int) := by simp [toInt, Sign.neg, Sign.signum]
    rw [hval]
    exact u32At_neg (hne rfl) k

/-- At the lowest limb that is not zero, a negative number reads right only with the right index. -/
theorem u32At_neg_inj {l : List UInt32} (h : mag l ≠ 0) {f : Nat}
    (heq : u32At ⟨.neg, l⟩ f (firstNz l) = u32At ⟨.neg, l⟩ (firstNz l) (firstNz l)) :
    f = firstNz l := by
  have hlt := firstNz_lt h
  have hne := getD_firstNz hlt
  unfold u32At at heq
  simp only [Sign.neg, Bool.false_eq_true, if_false, Nat.lt_irrefl,
    if_neg (show ¬ firstNz l ≥ l.length by omega)] at heq
  generalize l.getD (firstNz l) 0 = x at heq hne
  rcases Nat.lt_trichotomy f (firstNz l) with hf | hf | hf
  · rw [if_pos hf] at heq
    have hbits := congrArg UInt32.toBitVec heq
    rw [UInt32.toBitVec_not, UInt32.toBitVec_neg] at hbits
    bv_omega
  · exact hf
  · rw [if_neg (by omega), if_pos hf] at heq
    exact absurd (neg_eq_zero.mp heq.symm) hne

theorem u32At_ofInt (v : Int) (k : Nat) :
    (ofInt v).u32At (firstNz (ofInt v).limbs) k = limbAt v k := by
  rw [u32At_eq (ofInt_canon v).coherent, toInt_ofInt]

end Num

theorem getD_trim (l : List UInt32) (k : Nat) : (trim l).getD k 0 = l.getD k 0 := by
  apply UInt32.toNat_inj.mp
  rw [← mag_digit, ← mag_digit, mag_trim]

theorem firstNz_unique {l : List UInt32} {f : Nat} (hlow : ∀ k < f, l.getD k 0 = 0)
    (hne : l.getD f 0 ≠ 0) : firstNz l = f := by
  have hf : f < l.length := by
    by_contra hge
    rw [List.getD_eq_getElem?_getD, List.getElem?_eq_none (by omega)] at hne
    exact hne rfl
  rcases Nat.lt_trichotomy (firstNz l) f with hlt | heq | hgt
  · exact absurd (hlow _ hlt) (getD_firstNz (hlt.trans hf))
  · exact heq
  · exact absurd (getD_of_lt_firstNz hgt) hne

theorem firstNz_append_zeros {l : List UInt32} (h : mag l ≠ 0) (n : Nat) :
    firstNz (l ++ List.replicate n 0) = firstNz l := by
  have hlt := firstNz_lt h
  apply firstNz_unique
  · intro k hk
    rw [List.getD_append _ _ _ _ (by omega)]
    exact getD_of_lt_firstNz hk
  · rw [List.getD_append _ _ _ _ hlt]
    exact getD_firstNz hlt

private theorem notPlusOneLimbs_split {l : List UInt32} (h : mag l ≠ 0) :
    ∃ x xs, x ≠ 0 ∧ l = List.replicate (firstNz l) 0 ++ x :: xs ∧
      notPlusOneLimbs l (firstNz l) =
        List.replicate (firstNz l) 0 ++ -x :: xs.map (~~~ ·) := by
  have hlt := firstNz_lt h
  have hzeros : l.take (firstNz l) = List.replicate (firstNz l) 0 := by
    refine List.eq_replicate_iff.mpr ⟨by rw [List.length_take]; omega, fun y hy => ?_⟩
    obtain ⟨k, hk, rfl⟩ := List.getElem_of_mem hy
    rw [List.length_take] at hk
    have h0 := getD_of_lt_firstNz (l := l) (k := k) (by omega)
    rw [List.getD_eq_getElem?_getD, List.getElem?_eq_getElem (by omega)] at h0
    rw [List.getElem_take]
    exact h0
  have hdrop := List.drop_eq_getElem_cons hlt
  refine ⟨l[firstNz l], l.drop (firstNz l + 1), ?_, ?_, ?_⟩
  · have hne := getD_firstNz hlt
    rw [List.getD_eq_getElem?_getD, List.getElem?_eq_getElem hlt] at hne
    exact hne
  · rw [← hzeros, ← hdrop, List.take_append_drop]
  · unfold notPlusOneLimbs
    rw [hdrop, hzeros]

theorem mag_map_not (l : List UInt32) : mag (l.map (~~~ ·)) + 1 + mag l = (2 ^ 32) ^ l.length := by
  induction l with
  | nil => rfl
  | cons x xs ih =>
      have hx := x.toNat_lt
      rw [List.map_cons, mag_cons, mag_cons, List.length_cons, pow_succ (2 ^ 32) xs.length, ← ih,
        UInt32.toNat_not, show UInt32.size = 2 ^ 32 from rfl]
      omega

/-- `notPlusOne` at the first non-zero limb is negation. -/
theorem mag_notPlusOneLimbs {l : List UInt32} (h : mag l ≠ 0) :
    mag (notPlusOneLimbs l (firstNz l)) + mag l = (2 ^ 32) ^ l.length := by
  obtain ⟨x, xs, hx, hl, hnot⟩ := notPlusOneLimbs_split h
  have hrest := mag_map_not xs
  have hx0 : x.toNat ≠ 0 := fun h0 => hx (UInt32.toNat_inj.mp h0)
  have hneg : (-x).toNat = 2 ^ 32 - x.toNat := by
    have hlt := x.toNat_lt
    rw [UInt32.toNat_neg, show UInt32.size = 2 ^ 32 from rfl, Nat.mod_eq_of_lt (by omega)]
  have hlen := congrArg List.length hl
  rw [List.length_append, List.length_replicate, List.length_cons] at hlen
  have hsum : mag (-x :: xs.map (~~~ ·)) + mag (x :: xs) = (2 ^ 32) ^ (xs.length + 1) := by
    have hlt := x.toNat_lt
    rw [mag_cons, mag_cons, hneg, pow_succ (2 ^ 32) xs.length, ← hrest]
    omega
  rw [hnot, hlen, Nat.pow_add, ← hsum]
  conv_lhs => rw [hl]
  rw [mag_zeros_append, mag_zeros_append, ← hl, Nat.mul_add]

theorem firstNz_notPlusOneLimbs {l : List UInt32} (h : mag l ≠ 0) :
    firstNz (notPlusOneLimbs l (firstNz l)) = firstNz l := by
  obtain ⟨x, xs, hx, hl, hnot⟩ := notPlusOneLimbs_split h
  rw [hnot]
  apply firstNz_unique
  · intro k hk
    rw [List.getD_append _ _ _ _ (by rwa [List.length_replicate]), List.getD_replicate _ hk]
  · rw [List.getD_append_right _ _ _ _ (by rw [List.length_replicate]), List.length_replicate,
      Nat.sub_self, List.getD_cons_zero]
    simpa using hx

theorem length_notPlusOneLimbs (l : List UInt32) (f : Nat) :
    (notPlusOneLimbs l f).length = l.length := by
  unfold notPlusOneLimbs
  split
  · rfl
  next x xs hdrop =>
    have hlen := congrArg List.length hdrop
    rw [List.length_drop, List.length_cons] at hlen
    rw [List.length_append, List.length_take, List.length_cons, List.length_map]
    omega

def twosLimbs (v : Int) (n : Nat) : List UInt32 := (List.range n).map (limbAt v)

theorem mag_twosLimbs (v : Int) (n : Nat) : (mag (twosLimbs v n) : Int) = v % (2 ^ 32) ^ n :=
  TwosComplement.value_digits UInt32.toNat (by decide) v (limbAt v) fun k _ => toNat_limbAt v k

theorem getLastD_twosLimbs (v : Int) (n : Nat) : (twosLimbs v (n + 1)).getLastD 0 = limbAt v n := by
  rw [twosLimbs, List.range_succ, List.map_append, List.map_singleton, List.getLastD_concat]

theorem limbAt_of_fits {v : Int} {n : Nat} (h : TwosComplement.Fits (32 * n) v) :
    limbAt v n = if v < 0 then 0xffffffff else 0 := by
  obtain ⟨hlo, hhi⟩ := h
  apply UInt32.toNat_inj.mp
  rw [pow_mul] at hlo hhi
  have hpow : (0 : Int) < (2 ^ 32) ^ n := by positivity
  rw [toNat_limbAt, TwosComplement.digit, show ((2 ^ 32 : Nat) : Int) = 2 ^ 32 from rfl]
  split
  next hneg =>
    rw [(Int.ediv_emod_unique (q := -1) (r := v + (2 ^ 32) ^ n) hpow).mpr
      ⟨by ring, by omega, by omega⟩ |>.1]
    rfl
  next hpos =>
    rw [Int.ediv_eq_zero_of_lt (by omega) hhi]
    rfl

namespace Num

/-- The end of the bitwise functions undoes two's complement, whatever the sign was before. -/
theorem decodeTwos_twosLimbs {v : Int} {n : Nat} (h : TwosComplement.Fits (32 * n) v) (s : Sign) :
    decodeTwos s (twosLimbs v (n + 1)) = ofInt v := by
  have hmag := mag_twosLimbs v (n + 1)
  have hlen : (twosLimbs v (n + 1)).length = n + 1 := by simp [twosLimbs]
  unfold decodeTwos
  rw [getLastD_twosLimbs, limbAt_of_fits h]
  obtain ⟨hlo, hhi⟩ := h
  rw [pow_mul] at hlo hhi
  have hpow : ((2 : Int) ^ 32) ^ n ≤ (2 ^ 32) ^ (n + 1) := by
    exact_mod_cast Nat.pow_le_pow_right (by decide : 0 < 2 ^ 32) (Nat.le_succ n)
  by_cases hneg : v < 0
  · rw [if_pos hneg, if_neg (by decide), if_pos rfl]
    have hpos : (0 : Int) < (2 ^ 32) ^ n := by positivity
    have hval : v % (2 ^ 32) ^ (n + 1) = v + (2 ^ 32) ^ (n + 1) :=
      ((Int.ediv_emod_unique (q := -1) (by omega)).mpr ⟨by ring, by omega, by omega⟩).2
    have hne : mag (twosLimbs v (n + 1)) ≠ 0 := by omega
    have hnot := mag_notPlusOneLimbs hne
    rw [hlen] at hnot
    set l := notPlusOneLimbs (twosLimbs v (n + 1)) (firstNz (twosLimbs v (n + 1)))
    have hv : (mag (trim l) : Int) = -v := by
      have hcast : (mag l : Int) + mag (twosLimbs v (n + 1)) = (2 ^ 32) ^ (n + 1) := by
        exact_mod_cast hnot
      rw [mag_trim]
      omega
    have hnil : trim l ≠ [] := fun h0 => by
      rw [h0, mag_nil] at hv
      omega
    rw [neg_eq_ofInt hnil (trimmed_trim l), hv, Int.neg_neg]
  · rw [if_neg hneg, if_pos rfl]
    rw [Int.emod_eq_of_lt (by omega) (by omega)] at hmag
    by_cases hnil : trim (twosLimbs v (n + 1)) = []
    · have h0 := mag_trim (twosLimbs v (n + 1))
      rw [hnil, mag_nil] at h0
      rw [if_pos hnil, ← hmag, ← h0]
      exact zero_eq_ofInt
    · rw [if_neg hnil, pos_eq_ofInt hnil (trimmed_trim _), mag_trim, hmag]

end Num

theorem limbAt_eq_zero_of_zero (k : Nat) : limbAt 0 k = 0 := by
  simp [limbAt, TwosComplement.digit]

theorem limbAt_land (u v : Int) (k : Nat) : limbAt u k &&& limbAt v k = limbAt (u.land v) k := by
  apply UInt32.toNat_inj.mp
  rw [UInt32.toNat_and, toNat_limbAt, toNat_limbAt, toNat_limbAt, TwosComplement.digit_land]

theorem limbAt_lor (u v : Int) (k : Nat) : limbAt u k ||| limbAt v k = limbAt (u.lor v) k := by
  apply UInt32.toNat_inj.mp
  rw [UInt32.toNat_or, toNat_limbAt, toNat_limbAt, toNat_limbAt, TwosComplement.digit_lor]

theorem limbAt_xor (u v : Int) (k : Nat) : limbAt u k ^^^ limbAt v k = limbAt (Int.xor u v) k := by
  apply UInt32.toNat_inj.mp
  rw [UInt32.toNat_xor, toNat_limbAt, toNat_limbAt, toNat_limbAt, TwosComplement.digit_xor]

theorem limbAt_not (v : Int) (k : Nat) : ~~~(limbAt v k) = limbAt (-v - 1) k := by
  apply UInt32.toNat_inj.mp
  rw [UInt32.toNat_not, toNat_limbAt, toNat_limbAt, TwosComplement.digit_not (by decide)]
  rfl

namespace Num

theorem Canon.fits {x : Num} (h : x.Canon) : TwosComplement.Fits (32 * x.limbs.length) x.toInt := by
  have hmag := mag_lt x.limbs
  rw [← pow_mul] at hmag
  have hcast : (mag x.limbs : Int) < 2 ^ (32 * x.limbs.length) := by exact_mod_cast hmag
  obtain ⟨s, l⟩ := x
  rcases h.one_sign with hs | hs | hs <;> simp only at hs <;> subst hs <;>
    simp only [toInt, Sign.zro, Sign.pos, Sign.neg, Sign.signum, if_true, Bool.false_eq_true,
      if_false, Int.zero_mul, Int.one_mul] at hcast ⊢
  all_goals exact ⟨by omega, by omega⟩

theorem decodeTwos_canon {s : Sign} {l : List UInt32} (hl : l ≠ [])
    (h : s = .pos ∨ s = .neg ∨ l.getLastD 0 = 0 ∨ l.getLastD 0 = 0xffffffff) :
    (decodeTwos s l).Canon := by
  unfold decodeTwos
  by_cases h0 : l.getLastD 0 = 0
  · rw [if_pos h0]
    by_cases hnil : trim l = []
    · rw [if_pos hnil]
      exact (eq_ofInt_iff.mp zero_eq_ofInt).1
    · rw [if_neg hnil, pos_eq_ofInt hnil (trimmed_trim l)]
      exact ofInt_canon _
  rw [if_neg h0]
  have htrim : Trimmed l := by
    rw [← List.dropLast_append_getLast hl] at h0 ⊢
    rw [List.getLastD_concat] at h0
    exact trimmed_concat h0
  have hne : mag l ≠ 0 := Nat.ne_of_gt (htrim.mag_pos hl)
  by_cases hff : l.getLastD 0 = 0xffffffff
  · rw [if_pos hff]
    have hnot := mag_notPlusOneLimbs hne
    have hlt := mag_lt l
    have hnil : trim (notPlusOneLimbs l (firstNz l)) ≠ [] := by
      intro he
      have hz := mag_trim (notPlusOneLimbs l (firstNz l))
      rw [he, mag_nil] at hz
      omega
    rw [neg_eq_ofInt hnil (trimmed_trim _)]
    exact ofInt_canon _
  · rw [if_neg hff]
    rcases h with rfl | rfl | h | h
    · exact pos_eq_ofInt hl htrim ▸ ofInt_canon _
    · exact neg_eq_ofInt hl htrim ▸ ofInt_canon _
    · exact absurd h h0
    · exact absurd h hff

end Num

def clz (x : UInt32) : Nat := 31 - x.toNat.log2

def notBelowTop (x : UInt32) : UInt32 := ~~~x &&& (0xffffffff >>> UInt32.ofNat (clz x))

def notBitsLimbs (l : List UInt32) : List UInt32 :=
  l.dropLast.map (~~~ ·) ++ [notBelowTop (l.getLastD 0)]

theorem toNat_notBelowTop {x : UInt32} (h : x ≠ 0) :
    (notBelowTop x).toNat = 2 ^ (x.toNat.log2 + 1) - 1 - x.toNat := by
  have h0 : x.toNat ≠ 0 := fun he => h (UInt32.toNat_inj.mp he)
  have hlog : x.toNat.log2 < 32 := (Nat.log2_lt h0).mpr x.toNat_lt
  have hlt : x.toNat < 2 ^ (x.toNat.log2 + 1) := Nat.lt_log2_self
  generalize hn : x.toNat.log2 = n at *
  have hdvd : 2 ^ (n + 1) ∣ 2 ^ 32 := Nat.pow_dvd_pow 2 (by omega)
  have hmask : (0xffffffff >>> UInt32.ofNat (31 - n) : UInt32).toNat = 2 ^ (n + 1) - 1 := by
    interval_cases n <;> rfl
  rw [notBelowTop, clz, hn, UInt32.toNat_and, hmask, UInt32.toNat_not,
    Nat.and_two_pow_sub_one_eq_mod]
  obtain ⟨c, hc⟩ := hdvd
  rw [show UInt32.size = 2 ^ 32 from rfl, hc]
  have hc1 : 1 ≤ c := Nat.pos_of_ne_zero fun he => by
    rw [he, Nat.mul_zero] at hc
    exact absurd hc (by decide)
  obtain ⟨d, rfl⟩ := Nat.exists_eq_add_of_le' hc1
  rw [show 2 ^ (n + 1) * (d + 1) - 1 - x.toNat = 2 ^ (n + 1) - 1 - x.toNat + 2 ^ (n + 1) * d by
    rw [Nat.mul_add, Nat.mul_one]; omega, Nat.add_mul_mod_self_left, Nat.mod_eq_of_lt (by omega)]

theorem size_mag {l : List UInt32} (ht : Trimmed l) (hl : l ≠ []) :
    (mag l).size = 32 * (l.length - 1) + (32 - clz (l.getLastD 0)) ∧
      0 < 32 - clz (l.getLastD 0) ∧ 32 - clz (l.getLastD 0) ≤ 32 := by
  have hsplit := List.dropLast_append_getLast hl
  have hx0 := ht.getLast_ne hl
  generalize l.getLast hl = x at hsplit hx0
  generalize l.dropLast = s at hsplit
  subst hsplit
  have hlog : x.toNat.log2 < 32 := (Nat.log2_lt hx0).mpr x.toNat_lt
  have hlo := Nat.log2_self_le hx0
  have hhi := Nat.lt_log2_self (n := x.toNat)
  have hs := mag_lt s
  have hclz : 32 - clz x = x.toNat.log2 + 1 := by
    unfold clz
    omega
  rw [List.getLastD_concat, hclz, List.length_append, List.length_singleton, Nat.add_sub_cancel,
    mag_append, mag_singleton]
  refine ⟨Nat.le_antisymm (Nat.size_le.mpr ?_) (Nat.lt_size.mpr ?_), by omega, by omega⟩
  · have hle := Nat.mul_le_mul_left ((2 ^ 32) ^ s.length) (Nat.succ_le_of_lt hhi)
    rw [← Nat.pow_mul, ← Nat.pow_add, Nat.mul_succ, Nat.pow_mul] at hle
    omega
  · have hle := Nat.mul_le_mul_left ((2 ^ 32) ^ s.length) hlo
    rw [← Nat.pow_mul, ← Nat.pow_add, Nat.pow_mul] at hle
    exact Nat.le_add_left_of_le hle

/-- The bits below the leading bit are turned over, and the leading bit goes. -/
theorem mag_notBitsLimbs {l : List UInt32} (ht : Trimmed l) (hl : l ≠ []) :
    mag (notBitsLimbs l) + mag l = 2 ^ (mag l).size - 1 := by
  have hsize := (size_mag ht hl).1
  have hsplit := List.dropLast_append_getLast hl
  have hx0 := ht.getLast_ne hl
  generalize l.getLast hl = x at hsplit hx0
  generalize l.dropLast = s at hsplit
  subst hsplit
  have hx : x ≠ 0 := fun he => hx0 (congrArg UInt32.toNat he)
  have hlog : x.toNat.log2 < 32 := (Nat.log2_lt hx0).mpr x.toNat_lt
  have htop := toNat_notBelowTop hx
  have hlt : x.toNat < 2 ^ (x.toNat.log2 + 1) := Nat.lt_log2_self
  have hlow := mag_map_not s
  have hbits : 2 ^ (mag (s ++ [x])).size = (2 ^ 32) ^ s.length * 2 ^ (x.toNat.log2 + 1) := by
    have hclz : 32 - clz x = x.toNat.log2 + 1 := by
      unfold clz
      omega
    rw [hsize, List.getLastD_concat, hclz, List.length_append, List.length_singleton,
      Nat.add_sub_cancel, Nat.pow_add, Nat.pow_mul]
  have hmul : (2 ^ 32) ^ s.length * (notBelowTop x).toNat + (2 ^ 32) ^ s.length * x.toNat +
      (2 ^ 32) ^ s.length = (2 ^ 32) ^ s.length * 2 ^ (x.toNat.log2 + 1) := by
    rw [← Nat.mul_add, ← Nat.mul_succ]
    congr 1
    omega
  rw [hbits, notBitsLimbs, List.dropLast_concat, List.getLastD_concat, mag_append, mag_append,
    mag_singleton, mag_singleton, List.length_map]
  omega

theorem notBelowTop_eq_zero_iff {x : UInt32} (h : x ≠ 0) :
    notBelowTop x = 0 ↔ ∃ k, x.toNat + 1 = 2 ^ k := by
  have hval := toNat_notBelowTop h
  have hlt : x.toNat < 2 ^ (x.toNat.log2 + 1) := Nat.lt_log2_self
  have hx0 : x.toNat ≠ 0 := fun he => h (UInt32.toNat_inj.mp he)
  have hself := Nat.log2_self_le hx0
  rw [← UInt32.toNat_inj, hval, UInt32.toNat_zero]
  constructor
  · intro hzero
    exact ⟨x.toNat.log2 + 1, by omega⟩
  · rintro ⟨k, hk⟩
    -- the power lies above the leading bit and not above the next one
    have hlow : x.toNat.log2 < k := (Nat.pow_lt_pow_iff_right (a := 2) (by decide)).mp (by omega)
    have hle : 2 ^ (x.toNat.log2 + 1) ≤ 2 ^ k := Nat.pow_le_pow_right (by decide) hlow
    omega

end PGBigNumber
