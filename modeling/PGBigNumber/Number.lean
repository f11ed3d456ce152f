import PGBigNumber.Magnitude.AddSub
import PGBigNumber.Magnitude.Mul
import PGBigNumber.Magnitude.Shift

/-!
# Signed numbers

What an object means once its storage is forgotten: three sign bits and the limbs its window shows.
The operations below are what the member functions compute on that content; the integers are their
specification.
-/

namespace PGBigNumber

/-- The bits `ZERO`, `POSITIVE` and `NEGATIVE` of `m_flags`. -/
structure Sign where
  zero : Bool
  positive : Bool
  negative : Bool
deriving DecidableEq, Repr

namespace Sign

def zro : Sign := ⟨true, false, false⟩

def pos : Sign := ⟨false, true, false⟩

def neg : Sign := ⟨false, false, true⟩

def invalid : Sign := ⟨false, false, false⟩

def flip (s : Sign) : Sign := { s with positive := !s.positive, negative := !s.negative }

def signum (s : Sign) : Int := if s.positive then 1 else if s.zero then 0 else -1

end Sign

structure Num where
  sign : Sign
  limbs : List UInt32
deriving DecidableEq, Repr

namespace Num

def toInt (x : Num) : Int := x.sign.signum * mag x.limbs

/-- Exactly one sign bit, `ZERO` exactly when there are no limbs, and no zero limb at the top. -/
structure Canon (x : Num) : Prop where
  one_sign : x.sign = .zro ∨ x.sign = .pos ∨ x.sign = .neg
  zero_iff : x.sign.zero = true ↔ x.limbs = []
  trimmed : Trimmed x.limbs

instance (x : Num) : Decidable x.Canon :=
  decidable_of_iff
    ((x.sign = .zro ∨ x.sign = .pos ∨ x.sign = .neg) ∧ (x.sign.zero = true ↔ x.limbs = []) ∧
      Trimmed x.limbs)
    ⟨fun h => ⟨h.1, h.2.1, h.2.2⟩, fun h => ⟨h.1, h.2, h.3⟩⟩

def limbsOf (n : Nat) : List UInt32 := (Nat.digits (2 ^ 32) n).map UInt32.ofNat

def ofInt (v : Int) : Num :=
  ⟨if v = 0 then .zro else if 0 < v then .pos else .neg, limbsOf v.natAbs⟩

def zero : Num := ⟨.zro, []⟩

def one : Num := ⟨.pos, [1]⟩

def negOne : Num := ⟨.neg, [1]⟩

def isOne (x : Num) : Bool := x.sign.positive && x.limbs == [1]

def isNegOne (x : Num) : Bool := x.sign.negative && x.limbs == [1]

def negate (x : Num) : Num := if x.sign.zero then x else { x with sign := x.sign.flip }

def abs (x : Num) : Num := if x.sign.negative then x.negate else x

def inc (x : Num) : Num :=
  if x.sign.zero then one
  else if x.sign.positive then { x with limbs := incLimbs x.limbs }
  else if decLimbs x.limbs = [] then zero
  else { x with limbs := decLimbs x.limbs }

def dec (x : Num) : Num :=
  if x.sign.zero then negOne
  else if x.sign.positive then
    if decLimbs x.limbs = [] then zero else { x with limbs := decLimbs x.limbs }
  else { x with limbs := incLimbs x.limbs }

/-- The part `addAssign` and `subAssign` share: the smaller magnitude is taken from the larger. -/
def diff (x y : Num) : Num :=
  let cmp := cmpLimbs x.limbs y.limbs
  if cmp = 0 then zero
  else
    ⟨if x.sign.signum = cmp then .pos else .neg,
      trim (if cmp > 0 then subLimbs x.limbs y.limbs else subLimbs y.limbs x.limbs)⟩

def add (x y : Num) : Num :=
  if y.sign.zero then x
  else if x.sign.zero then y
  else if x.sign = y.sign then { x with limbs := addLimbs x.limbs y.limbs }
  else diff x y

def sub (x y : Num) : Num :=
  if y.sign.zero then x
  else if x.sign.zero then y.negate
  else if x.sign = y.sign then diff x y
  else { x with limbs := addLimbs x.limbs y.limbs }

def prodLimbs (a b : List UInt32) : List UInt32 :=
  if b.length = 1 then mulLimb a (b.getD 0 0)
  else if a.length = 1 then mulLimb b (a.getD 0 0)
  else trim (mulLimbs a b)

def mulSmall (x y : Num) : Num :=
  if x.sign.zero || y.sign.zero then zero
  else if y.isOne then x
  else if y.isNegOne then x.negate
  else if x.isOne then y
  else if x.isNegOne then y.negate
  else ⟨if x.sign = y.sign then .pos else .neg, prodLimbs x.limbs y.limbs⟩

/-- `shiftLeftAssign`; `none` is the read past the end of an empty magnitude. -/
def shl (x : Num) (n : Nat) : Option Num :=
  if x.sign.zero then some x
  else if n = 0 then some x
  else if x.limbs = [] ∧ n % 32 ≠ 0 then none
  else some { x with limbs := shlLimbs x.limbs n }

/-- `lostOne` of `shiftRightAssign`: a bit that is shifted out is set. -/
def lostOne (l : List UInt32) (n : Nat) : Bool :=
  (l.take (n / 32)).any (· != 0) || (n % 32 != 0 && shlU32 (l.getD (n / 32) 0) (32 - n % 32) != 0)

def shr (x : Num) (n : Nat) : Num :=
  if x.sign.zero then x
  else if n = 0 then x
  else if x.limbs.length ≤ n / 32 then (if x.sign.negative then negOne else zero)
  else
    let lost := x.sign.negative && lostOne x.limbs n
    if shrLimbs x.limbs n = [] then (if lost then negOne else zero)
    else { x with limbs := if lost then incLimbs (shrLimbs x.limbs n) else shrLimbs x.limbs n }

def cmp (x y : Num) : Int :=
  if x.sign.signum < y.sign.signum then -1
  else if x.sign.signum > y.sign.signum then 1
  else if x.sign.signum = 0 then 0
  else if x.sign.signum = 1 then cmpLimbs x.limbs y.limbs
  else -cmpLimbs x.limbs y.limbs

@[simp]
theorem mag_limbsOf (n : Nat) : mag (limbsOf n) = n := by
  rw [mag, Positional.value, limbsOf, List.map_map]
  have hmap : (Nat.digits (2 ^ 32) n).map (UInt32.toNat ∘ UInt32.ofNat) = Nat.digits (2 ^ 32) n := by
    conv_rhs => rw [← List.map_id (Nat.digits (2 ^ 32) n)]
    apply List.map_congr_left
    intro d hd
    have := Nat.digits_lt_base (by decide) hd
    rw [Function.comp_apply, toNat_ofNat_u32, Nat.mod_eq_of_lt this, id]
  rw [hmap, Nat.ofDigits_digits]

theorem trimmed_limbsOf (n : Nat) : Trimmed (limbsOf n) := by
  intro hlast
  by_cases hn : n = 0
  · subst n
    simp [limbsOf] at hlast
  · have hne := (Nat.digits_ne_nil_iff_ne_zero (b := 2 ^ 32)).mpr hn
    have htop := Nat.getLast_digit_ne_zero (2 ^ 32) hn
    have hlt := Nat.digits_lt_base (b := 2 ^ 32) (by decide) (List.getLast_mem hne)
    rw [limbsOf, List.getLast?_map, List.getLast?_eq_getLast_of_ne_nil hne] at hlast
    have h0 := congrArg UInt32.toNat (Option.some.inj hlast)
    rw [toNat_ofNat_u32, Nat.mod_eq_of_lt hlt] at h0
    exact htop h0

theorem limbsOf_mag {l : List UInt32} (h : Trimmed l) : limbsOf (mag l) = l :=
  (trimmed_limbsOf _).mag_inj h (mag_limbsOf _)

theorem limbsOf_eq_nil_iff (n : Nat) : limbsOf n = [] ↔ n = 0 := by
  rw [← (trimmed_limbsOf n).mag_eq_zero, mag_limbsOf]

theorem ofInt_canon (v : Int) : (ofInt v).Canon := by
  refine ⟨?_, ?_, trimmed_limbsOf _⟩
  · unfold ofInt
    dsimp only
    split
    · exact Or.inl rfl
    · split
      · exact Or.inr (Or.inl rfl)
      · exact Or.inr (Or.inr rfl)
  · unfold ofInt
    dsimp only
    rw [limbsOf_eq_nil_iff]
    split
    next h => simp [Sign.zro, h]
    next h =>
      split
      · exact iff_of_false (by decide) (by omega)
      · exact iff_of_false (by decide) (by omega)

@[simp]
theorem toInt_ofInt (v : Int) : (ofInt v).toInt = v := by
  rw [toInt, ofInt, mag_limbsOf]
  dsimp only
  split
  next h => simp [Sign.signum, Sign.zro, h]
  next h =>
    split
    · simp only [Sign.signum, Sign.pos, if_true]
      omega
    · simp only [Sign.signum, Sign.neg, Bool.false_eq_true, if_false]
      omega

theorem Canon.cases {x : Num} (h : x.Canon) :
    x = zero ∨ (∃ l, x = ⟨.pos, l⟩ ∧ l ≠ [] ∧ Trimmed l) ∨
      (∃ l, x = ⟨.neg, l⟩ ∧ l ≠ [] ∧ Trimmed l) := by
  obtain ⟨s, l⟩ := x
  have hz := h.zero_iff
  rcases h.one_sign with hs | hs | hs <;> simp only at hs hz <;> subst hs
  · exact Or.inl (by rw [hz.mp rfl]; rfl)
  · exact Or.inr (Or.inl ⟨l, rfl, fun hl => absurd (hz.mpr hl) (by decide), h.trimmed⟩)
  · exact Or.inr (Or.inr ⟨l, rfl, fun hl => absurd (hz.mpr hl) (by decide), h.trimmed⟩)

theorem pos_eq_ofInt {l : List UInt32} (hl : l ≠ []) (ht : Trimmed l) :
    (⟨.pos, l⟩ : Num) = ofInt (mag l) := by
  have hpos := ht.mag_pos hl
  rw [ofInt, if_neg (by omega), if_pos (by omega), Int.natAbs_natCast, limbsOf_mag ht]

theorem neg_eq_ofInt {l : List UInt32} (hl : l ≠ []) (ht : Trimmed l) :
    (⟨.neg, l⟩ : Num) = ofInt (-mag l) := by
  have hpos := ht.mag_pos hl
  rw [ofInt, if_neg (by omega), if_neg (by omega), Int.natAbs_neg, Int.natAbs_natCast,
    limbsOf_mag ht]

theorem zero_eq_ofInt : zero = ofInt 0 := by simp [ofInt, zero, limbsOf]

theorem one_eq_ofInt : one = ofInt 1 := by
  rw [one, pos_eq_ofInt (by simp) (by decide)]
  rfl

theorem negOne_eq_ofInt : negOne = ofInt (-1) := by
  rw [negOne, neg_eq_ofInt (by simp) (by decide)]
  rfl

/-- A canonical number is determined by its value. -/
theorem Canon.eq_ofInt {x : Num} (h : x.Canon) : x = ofInt x.toInt := by
  rcases h.cases with rfl | ⟨l, rfl, hl, ht⟩ | ⟨l, rfl, hl, ht⟩
  · exact zero_eq_ofInt
  · rw [pos_eq_ofInt hl ht, toInt_ofInt]
  · rw [neg_eq_ofInt hl ht, toInt_ofInt]

/-- The representation relation: canonical with value `v` is the same as being `ofInt v`. -/
theorem eq_ofInt_iff {x : Num} {v : Int} : x = ofInt v ↔ x.Canon ∧ x.toInt = v := by
  constructor
  · rintro rfl
    exact ⟨ofInt_canon v, toInt_ofInt v⟩
  · rintro ⟨h, rfl⟩
    exact h.eq_ofInt

theorem ofInt_injective : Function.Injective ofInt := fun v w h => by
  rw [← toInt_ofInt v, h, toInt_ofInt]

theorem ofInt_pos {v : Int} (h : 0 < v) : ofInt v = ⟨.pos, limbsOf v.toNat⟩ := by
  rw [ofInt, if_neg (by omega), if_pos h, show v.natAbs = v.toNat by omega]

theorem ofInt_neg {v : Int} (h : v < 0) : ofInt v = ⟨.neg, limbsOf (-v).toNat⟩ := by
  rw [ofInt, if_neg (by omega), if_neg (by omega), show v.natAbs = (-v).toNat by omega]

theorem zero_ofInt_iff (v : Int) : (ofInt v).sign.zero = true ↔ v = 0 := by
  unfold ofInt
  rcases Int.lt_trichotomy v 0 with h | h | h
  · simp [h.ne, show ¬ 0 < v by omega, Sign.neg]
  · simp [h, Sign.zro]
  · simp [h.ne', h, Sign.pos]

def signed (s : Bool) (l : List UInt32) : Num := ⟨if s then .pos else .neg, l⟩

def signedInt (s : Bool) (l : List UInt32) : Int := if s then mag l else -mag l

theorem signedInt_true (l : List UInt32) : signedInt true l = mag l := rfl

theorem signedInt_false (l : List UInt32) : signedInt false l = -mag l := rfl

theorem signed_eq_ofInt (s : Bool) {l : List UInt32} (hl : l ≠ []) (ht : Trimmed l) :
    signed s l = ofInt (signedInt s l) := by
  cases s
  · exact neg_eq_ofInt hl ht
  · exact pos_eq_ofInt hl ht

theorem signed_or_zero (s : Bool) {l : List UInt32} (ht : Trimmed l) :
    (if l = [] then zero else signed s l) = ofInt (signedInt s l) := by
  by_cases hl : l = []
  · subst hl
    rw [if_pos rfl, zero_eq_ofInt]
    cases s <;> rfl
  · rw [if_neg hl, signed_eq_ofInt s hl ht]

theorem ofInt_cases (v : Int) :
    (v = 0 ∧ ofInt v = zero) ∨
      ∃ s l, l ≠ [] ∧ Trimmed l ∧ v = signedInt s l ∧ ofInt v = signed s l := by
  rcases Int.lt_trichotomy v 0 with h | h | h
  · refine Or.inr ⟨false, limbsOf (-v).toNat, ?_, trimmed_limbsOf _, ?_, ofInt_neg h⟩
    · rw [Ne, limbsOf_eq_nil_iff]
      omega
    · simp only [signedInt, mag_limbsOf, Bool.false_eq_true, if_false]
      omega
  · exact Or.inl ⟨h, by rw [h, zero_eq_ofInt]⟩
  · refine Or.inr ⟨true, limbsOf v.toNat, ?_, trimmed_limbsOf _, ?_, ofInt_pos h⟩
    · rw [Ne, limbsOf_eq_nil_iff]
      omega
    · simp only [signedInt, mag_limbsOf, if_true]
      omega

@[simp]
theorem signed_zero (s : Bool) (l : List UInt32) : (signed s l).sign.zero = false := by
  cases s <;> rfl

@[simp]
theorem signed_positive (s : Bool) (l : List UInt32) : (signed s l).sign.positive = s := by
  cases s <;> rfl

@[simp]
theorem signed_negative (s : Bool) (l : List UInt32) : (signed s l).sign.negative = !s := by
  cases s <;> rfl

@[simp]
theorem signed_limbs (s : Bool) (l : List UInt32) : (signed s l).limbs = l := rfl

@[simp]
theorem signed_sign_eq_iff (s t : Bool) (l m : List UInt32) :
    (signed s l).sign = (signed t m).sign ↔ s = t := by
  cases s <;> cases t <;> simp [signed, Sign.pos, Sign.neg]

@[simp]
theorem zero_sign_zero : zero.sign.zero = true := rfl

@[simp]
theorem signed_signum (s : Bool) (l : List UInt32) :
    (signed s l).sign.signum = if s then 1 else -1 := by
  cases s <;> rfl

theorem signed_with_limbs (s : Bool) (l m : List UInt32) :
    ({ signed s l with limbs := m } : Num) = signed s m := rfl

theorem negate_signed (s : Bool) (l : List UInt32) : (signed s l).negate = signed (!s) l := by
  cases s <;> rfl

theorem signedInt_not (s : Bool) (l : List UInt32) : signedInt (!s) l = -signedInt s l := by
  cases s <;> simp [signedInt]

theorem negate_ofInt (v : Int) : (ofInt v).negate = ofInt (-v) := by
  rcases ofInt_cases v with ⟨rfl, h⟩ | ⟨s, l, hl, ht, rfl, h⟩
  · rw [h, Int.neg_zero, h]
    rfl
  · rw [h, negate_signed, signed_eq_ofInt _ hl ht, signedInt_not]

theorem abs_ofInt (v : Int) : (ofInt v).abs = ofInt v.natAbs := by
  rcases ofInt_cases v with ⟨rfl, h⟩ | ⟨s, l, hl, ht, rfl, h⟩
  · rw [h, Int.natAbs_zero, Int.natCast_zero, h]
    rfl
  · rw [h, abs, signed_negative]
    cases s
    · rw [Bool.not_false, if_pos rfl, negate_signed, signed_eq_ofInt _ hl ht]
      simp [signedInt]
    · rw [Bool.not_true, if_neg (by decide), signed_eq_ofInt _ hl ht]
      simp [signedInt]

theorem isOne_ofInt (v : Int) : (ofInt v).isOne = true ↔ v = 1 := by
  rw [← ofInt_injective.eq_iff, ← one_eq_ofInt]
  rcases ofInt_cases v with ⟨rfl, h⟩ | ⟨s, l, hl, ht, rfl, h⟩
  · rw [h]
    decide
  · rw [h, isOne, signed_positive, signed_limbs]
    cases s <;> simp [one, signed, Sign.pos, Sign.neg]

theorem isNegOne_ofInt (v : Int) : (ofInt v).isNegOne = true ↔ v = -1 := by
  rw [← ofInt_injective.eq_iff, ← negOne_eq_ofInt]
  rcases ofInt_cases v with ⟨rfl, h⟩ | ⟨s, l, hl, ht, rfl, h⟩
  · rw [h]
    decide
  · rw [h, isNegOne, signed_negative, signed_limbs]
    cases s <;> simp [negOne, signed, Sign.pos, Sign.neg]

theorem ofInt_zero_iff (v : Int) : (ofInt v).sign.zero = true ↔ v = 0 := by
  rcases ofInt_cases v with ⟨rfl, h⟩ | ⟨s, l, hl, ht, rfl, h⟩
  · simp [h]
  · have := ht.mag_pos hl
    rw [h, signed_zero, signedInt]
    split <;> simp only [Bool.false_eq_true, false_iff] <;> omega

private theorem signed_incLimbs (s : Bool) {l : List UInt32} (ht : Trimmed l) :
    signed s (incLimbs l) = ofInt (signedInt s l + if s then 1 else -1) := by
  rw [signed_eq_ofInt s (incLimbs_ne_nil l) (trimmed_incLimbs ht)]
  congr 1
  unfold signedInt
  rw [mag_incLimbs]
  split <;> push_cast <;> omega

private theorem signed_decLimbs (s : Bool) {l : List UInt32} (hl : l ≠ []) (ht : Trimmed l) :
    (if decLimbs l = [] then zero else signed s (decLimbs l)) =
      ofInt (signedInt s l - if s then 1 else -1) := by
  have hpos := ht.mag_pos hl
  have hmag := mag_decLimbs hpos
  have htrim := trimmed_decLimbs l
  split
  next h =>
    rw [h, mag_nil] at hmag
    rw [zero_eq_ofInt]
    congr 1
    unfold signedInt
    split <;> omega
  next h =>
    rw [signed_eq_ofInt s h htrim]
    congr 1
    unfold signedInt
    rw [hmag]
    split <;> omega

theorem inc_ofInt (v : Int) : (ofInt v).inc = ofInt (v + 1) := by
  rcases ofInt_cases v with ⟨rfl, h⟩ | ⟨s, l, hl, ht, rfl, h⟩
  · rw [h, inc, zero_sign_zero, if_pos rfl, one_eq_ofInt, Int.zero_add]
  · rw [h, inc, signed_zero, if_neg (by decide), signed_positive]
    cases s
    · exact signed_decLimbs false hl ht
    · exact signed_incLimbs true ht

theorem dec_ofInt (v : Int) : (ofInt v).dec = ofInt (v - 1) := by
  rcases ofInt_cases v with ⟨rfl, h⟩ | ⟨s, l, hl, ht, rfl, h⟩
  · rw [h, dec, zero_sign_zero, if_pos rfl, negOne_eq_ofInt, Int.zero_sub]
  · rw [h, dec, signed_zero, if_neg (by decide), signed_positive]
    cases s
    · exact signed_incLimbs false ht
    · exact signed_decLimbs true hl ht

private theorem signed_addLimbs (s : Bool) {l m : List UInt32} (hpos : 0 < mag l)
    (hsum : Trimmed (addLimbs l m)) :
    signed s (addLimbs l m) = ofInt (signedInt s l + signedInt s m) := by
  have hmag := mag_addLimbs l m
  have hne : addLimbs l m ≠ [] := by
    intro h
    rw [h, mag_nil] at hmag
    omega
  rw [signed_eq_ofInt s hne hsum]
  congr 1
  unfold signedInt
  rw [hmag]
  split <;> push_cast <;> omega

theorem diff_signed_of_cmp (s t : Bool) {l m : List UInt32}
    (hcmp : cmpLimbs l m = if mag l < mag m then -1 else if mag l = mag m then 0 else 1) :
    diff (signed s l) (signed t m) = ofInt (signedInt s l - signedInt s m) := by
  unfold diff
  dsimp only
  rw [signed_limbs, signed_limbs, signed_signum]
  rcases Nat.lt_trichotomy (mag l) (mag m) with h | h | h
  · rw [if_pos h] at hcmp
    have hlen : l.length ≤ m.length := length_le_of_cmpLimbs_neg (by rw [hcmp]; decide)
    have hsub := mag_subLimbs hlen h.le
    rw [hcmp, if_neg (by decide : ¬(-1 : Int) = 0), if_neg (by decide : ¬(-1 : Int) > 0)]
    have hne : trim (subLimbs m l) ≠ [] := by
      rw [Ne, trim_eq_nil_iff]
      omega
    have hsign : (if (if s then (1 : Int) else -1) = -1 then Sign.pos else Sign.neg) =
        if (!s) then Sign.pos else Sign.neg := by cases s <;> rfl
    rw [hsign]
    have := signed_eq_ofInt (!s) hne (trimmed_trim _)
    rw [signed] at this
    rw [this]
    congr 1
    cases s <;> simp only [signedInt, mag_trim, hsub] <;> simp <;> omega
  · rw [if_neg (by omega), if_pos h] at hcmp
    rw [hcmp, if_pos rfl, zero_eq_ofInt]
    congr 1
    unfold signedInt
    split <;> omega
  · rw [if_neg (by omega), if_neg (by omega)] at hcmp
    have hlen : m.length ≤ l.length := length_le_of_cmpLimbs (by rw [hcmp]; decide)
    have hsub := mag_subLimbs hlen h.le
    rw [hcmp, if_neg (by decide : ¬(1 : Int) = 0), if_pos (by decide : (1 : Int) > 0)]
    have hne : trim (subLimbs l m) ≠ [] := by
      rw [Ne, trim_eq_nil_iff]
      omega
    have hsign : (if (if s then (1 : Int) else -1) = 1 then Sign.pos else Sign.neg) =
        if s then Sign.pos else Sign.neg := by cases s <;> rfl
    rw [hsign]
    have := signed_eq_ofInt s hne (trimmed_trim _)
    rw [signed] at this
    rw [this]
    congr 1
    cases s <;> simp only [signedInt, mag_trim, hsub] <;> simp <;> omega

theorem add_signed (s t : Bool) {l m : List UInt32} (hpos : 0 < mag l)
    (hsum : Trimmed (addLimbs l m))
    (hcmp : s ≠ t → cmpLimbs l m =
      if mag l < mag m then -1 else if mag l = mag m then 0 else 1) :
    add (signed s l) (signed t m) = ofInt (signedInt s l + signedInt t m) := by
  rw [add, signed_zero, if_neg (by decide), signed_zero, if_neg (by decide)]
  by_cases hst : s = t
  · subst t
    rw [if_pos (by simp), signed_with_limbs, signed_limbs, signed_limbs]
    exact signed_addLimbs s hpos hsum
  · have hts : t = !s := Bool.eq_not_of_ne (Ne.symm hst)
    rw [if_neg (by simpa using hst), diff_signed_of_cmp s t (hcmp hst), hts, signedInt_not,
      Int.sub_eq_add_neg]

theorem sub_signed (s t : Bool) {l m : List UInt32} (hpos : 0 < mag l)
    (hsum : Trimmed (addLimbs l m))
    (hcmp : s = t → cmpLimbs l m =
      if mag l < mag m then -1 else if mag l = mag m then 0 else 1) :
    sub (signed s l) (signed t m) = ofInt (signedInt s l - signedInt t m) := by
  rw [sub, signed_zero, if_neg (by decide), signed_zero, if_neg (by decide)]
  by_cases hst : s = t
  · subst t
    rw [if_pos (by simp)]
    exact diff_signed_of_cmp s s (hcmp rfl)
  · have hts : t = !s := Bool.eq_not_of_ne (Ne.symm hst)
    rw [if_neg (by simpa using hst), signed_with_limbs, signed_limbs, signed_limbs,
      signed_addLimbs s hpos hsum, hts, signedInt_not, Int.sub_neg]

theorem add_ofInt (v w : Int) : add (ofInt v) (ofInt w) = ofInt (v + w) := by
  rcases ofInt_cases w with ⟨rfl, hw⟩ | ⟨t, m, hm, htm, rfl, hw⟩
  · rw [add, hw, zero_sign_zero, if_pos rfl, Int.add_zero]
  · rcases ofInt_cases v with ⟨rfl, hv⟩ | ⟨s, l, hl, htl, rfl, hv⟩
    · rw [add, hw, hv, signed_zero, if_neg (by decide), zero_sign_zero, if_pos rfl, ← hw,
        Int.zero_add]
    · rw [hw, hv]
      exact add_signed s t (htl.mag_pos hl) (trimmed_addLimbs htl htm) fun _ =>
        cmpLimbs_spec htl htm

theorem sub_ofInt (v w : Int) : sub (ofInt v) (ofInt w) = ofInt (v - w) := by
  rcases ofInt_cases w with ⟨rfl, hw⟩ | ⟨t, m, hm, htm, rfl, hw⟩
  · rw [sub, hw, zero_sign_zero, if_pos rfl, Int.sub_zero]
  · rcases ofInt_cases v with ⟨rfl, hv⟩ | ⟨s, l, hl, htl, rfl, hv⟩
    · rw [sub, hw, hv, signed_zero, if_neg (by decide), zero_sign_zero, if_pos rfl, ← hw,
        negate_ofInt, Int.zero_sub]
    · rw [hw, hv]
      exact sub_signed s t (htl.mag_pos hl) (trimmed_addLimbs htl htm) fun _ =>
        cmpLimbs_spec htl htm

theorem signed_mul (s t : Bool) {l m r : List UInt32} (hr : mag r = mag l * mag m)
    (hpos : 0 < mag r) (ht : Trimmed r) :
    (⟨if s = t then Sign.pos else Sign.neg, r⟩ : Num) =
      ofInt (signedInt s l * signedInt t m) := by
  have hne : r ≠ [] := by
    rintro rfl
    exact absurd hpos (by decide)
  have hsign : (⟨if s = t then Sign.pos else Sign.neg, r⟩ : Num) = signed (s == t) r := by
    cases s <;> cases t <;> rfl
  rw [hsign, signed_eq_ofInt _ hne ht]
  congr 1
  cases s <;> cases t <;> simp [signedInt, hr]

private theorem one_limb {k : List UInt32} (hk : Trimmed k) (hlen : k.length = 1) :
    k.getD 0 0 ≠ 0 ∧ mag k = (k.getD 0 0).toNat := by
  obtain ⟨x, rfl⟩ := List.length_eq_one_iff.mp hlen
  refine ⟨?_, mag_singleton x⟩
  intro h
  simp only [List.getD_cons_zero] at h
  subst h
  exact hk rfl

private theorem prodLimbs_spec {l m : List UInt32} (htl : Trimmed l) (htm : Trimmed m) :
    mag (prodLimbs l m) = mag l * mag m ∧ Trimmed (prodLimbs l m) := by
  unfold prodLimbs
  by_cases hm1 : m.length = 1
  · obtain ⟨hne, hval⟩ := one_limb htm hm1
    rw [if_pos hm1, hval]
    exact ⟨mag_mulLimb l _, trimmed_mulLimb htl hne⟩
  rw [if_neg hm1]
  by_cases hl1 : l.length = 1
  · obtain ⟨hne, hval⟩ := one_limb htl hl1
    rw [if_pos hl1, hval, Nat.mul_comm]
    exact ⟨mag_mulLimb m _, trimmed_mulLimb htm hne⟩
  rw [if_neg hl1]
  exact ⟨(mag_trim _).trans (mag_mulLimbs l m), trimmed_trim _⟩

theorem prod_ofInt {v w : Int} (hv0 : v ≠ 0) (hw0 : w ≠ 0) :
    (⟨if (ofInt v).sign = (ofInt w).sign then .pos else .neg,
      prodLimbs (ofInt v).limbs (ofInt w).limbs⟩ : Num) = ofInt (v * w) := by
  rcases ofInt_cases v with ⟨h, -⟩ | ⟨s, l, hl, htl, hv, hvs⟩
  · exact absurd h hv0
  rcases ofInt_cases w with ⟨h, -⟩ | ⟨t, m, hm, htm, hw, hws⟩
  · exact absurd h hw0
  obtain ⟨hmag, htrim⟩ := prodLimbs_spec htl htm
  have hpos := Nat.mul_pos (htl.mag_pos hl) (htm.mag_pos hm)
  rw [hvs, hws, hv, hw]
  simp only [signed_sign_eq_iff, signed_limbs]
  exact signed_mul s t hmag (hmag ▸ hpos) htrim

theorem mag_ofInt (v : Int) : mag (ofInt v).limbs = v.natAbs := mag_limbsOf _

theorem prod_limbsOf {v w : Int} (hv0 : v ≠ 0) (hw0 : w ≠ 0) :
    (⟨if (ofInt v).sign = (ofInt w).sign then .pos else .neg,
      limbsOf (mag (ofInt v).limbs * mag (ofInt w).limbs)⟩ : Num) = ofInt (v * w) := by
  have hsign := congrArg Num.sign (prod_ofInt hv0 hw0)
  rw [mag_ofInt, mag_ofInt, ← Int.natAbs_mul, show (if (ofInt v).sign = (ofInt w).sign
    then Sign.pos else Sign.neg) = (ofInt (v * w)).sign from hsign]
  rfl

/-- `prodLimbs` where a factor of one limb is read from `a'` or `b'`. -/
def prodLimbsRead (a b a' b' : List UInt32) : List UInt32 :=
  if b.length = 1 then mulLimb a (b'.getD 0 0)
  else if a.length = 1 then mulLimb b (a'.getD 0 0)
  else trim (mulLimbs a b)

theorem prodLimbsRead_self (a b : List UInt32) : prodLimbsRead a b a b = prodLimbs a b := rfl

theorem signed_canon_iff (s : Bool) {l : List UInt32} (hl : l ≠ []) :
    (signed s l).Canon ↔ Trimmed l := by
  refine ⟨fun h => h.trimmed, fun ht => ?_⟩
  rw [signed_eq_ofInt s hl ht]
  exact ofInt_canon _

theorem signed_mulLimb_canon_iff (s : Bool) {l : List UInt32} (hl : l ≠ []) (ht : Trimmed l)
    (c : UInt32) : (signed s (mulLimb l c)).Canon ↔ c ≠ 0 := by
  have hne : mulLimb l c ≠ [] := by
    intro he
    have hle := length_le_mulLimb l c
    rw [he] at hle
    exact hl (List.length_eq_zero_iff.mp (Nat.le_zero.mp hle))
  rw [signed_canon_iff s hne]
  constructor
  · rintro htop rfl
    have hpos := htop.mag_pos hne
    rw [mag_mulLimb, UInt32.toNat_zero, Nat.mul_zero] at hpos
    exact absurd hpos (Nat.lt_irrefl 0)
  · exact trimmed_mulLimb ht

theorem length_ofInt_le {v : Int} {n : Nat} (h : v.natAbs < (2 ^ 32) ^ n) :
    (ofInt v).limbs.length ≤ n := by
  by_contra hlt
  have hne : (ofInt v).limbs ≠ [] := fun he => by simp [he] at hlt
  have hpow := Trimmed.pow_le (trimmed_limbsOf v.natAbs) hne
  have hmono : (2 ^ 32) ^ n ≤ (2 ^ 32) ^ ((ofInt v).limbs.length - 1) :=
    Nat.pow_le_pow_right (by decide) (by omega)
  rw [mag_limbsOf] at hpow
  exact absurd (hmono.trans hpow) (Nat.not_le_of_lt h)

theorem limbs_ofInt_ne_nil {v : Int} (hv : v ≠ 0) : (ofInt v).limbs ≠ [] := by
  intro he
  exact hv (Int.natAbs_eq_zero.mp ((limbsOf_eq_nil_iff _).mp he))

theorem length_ofInt_one_iff {v : Int} (hv : v ≠ 0) :
    (ofInt v).limbs.length = 1 ↔ v.natAbs < 2 ^ 32 := by
  have hne := limbs_ofInt_ne_nil hv
  constructor
  · intro hone
    have hlt := mag_lt (ofInt v).limbs
    rwa [mag_ofInt, hone, pow_one] at hlt
  · intro hlt
    have hle : (ofInt v).limbs.length ≤ 1 := length_ofInt_le (by rwa [pow_one])
    have hpos := List.length_pos_of_ne_nil hne
    omega

theorem length_ofInt_shl {v : Int} {n : Nat} (hv : v ≠ 0) (hlt : v.natAbs < 2 ^ 32) :
    (ofInt (v * 2 ^ (32 * n))).limbs.length = n + 1 := by
  have habs : (v * 2 ^ (32 * n)).natAbs = v.natAbs * (2 ^ 32) ^ n := by
    rw [Int.natAbs_mul, Int.natAbs_pow, pow_mul]
    rfl
  have hpos : 0 < v.natAbs := Int.natAbs_pos.mpr hv
  apply Nat.le_antisymm
  · apply length_ofInt_le
    rw [habs, pow_succ, Nat.mul_comm]
    exact Nat.mul_lt_mul_of_pos_left hlt (by positivity)
  · by_contra hshort
    have hmag := mag_lt (ofInt (v * 2 ^ (32 * n))).limbs
    rw [mag_ofInt, habs] at hmag
    have hpow : (2 ^ 32) ^ (ofInt (v * 2 ^ (32 * n))).limbs.length ≤ (2 ^ 32) ^ n :=
      Nat.pow_le_pow_right (by decide) (by omega)
    exact absurd (hmag.trans_le hpow) (Nat.not_lt_of_le (Nat.le_mul_of_pos_left _ hpos))

theorem lowLimb_ofInt_zero_iff (v : Int) :
    (ofInt v).limbs.getD 0 0 = 0 ↔ v.natAbs % 2 ^ 32 = 0 := by
  rw [← mag_ofInt v]
  cases (ofInt v).limbs with
  | nil => exact iff_of_true rfl rfl
  | cons x l =>
      rw [List.getD_cons_zero, mag_cons, Nat.add_mul_mod_self_left, Nat.mod_eq_of_lt x.toNat_lt]
      exact UInt32.toNat_inj.symm

/-- A factor `v` of one limb that is no unit, and a factor `w` with a zero limb at the bottom. -/
def ZeroLimbBelow (v w : Int) : Prop :=
  1 < v.natAbs ∧ v.natAbs < 2 ^ 32 ∧ w ≠ 0 ∧ w.natAbs % 2 ^ 32 = 0

/-- A product that reads the wrong limb is canonical unless that limb is zero. -/
theorem prodLimbsRead_canon_iff {v w : Int} (hv : 1 < v.natAbs) (hw : 1 < w.natAbs) (s : Bool)
    (P Q : Prop) [Decidable P] [Decidable Q] :
    (signed s (prodLimbsRead (ofInt v).limbs (ofInt w).limbs
      (if P then (ofInt w).limbs else (ofInt v).limbs)
      (if Q then (ofInt v).limbs else (ofInt w).limbs))).Canon ↔
      (P → ¬ ZeroLimbBelow v w) ∧ (Q → ¬ ZeroLimbBelow w v) := by
  have hv0 : v ≠ 0 := by omega
  have hw0 : w ≠ 0 := by omega
  have hnv := limbs_ofInt_ne_nil hv0
  have hnw := limbs_ofInt_ne_nil hw0
  have hone_v := length_ofInt_one_iff hv0
  have hone_w := length_ofInt_one_iff hw0
  unfold prodLimbsRead ZeroLimbBelow
  by_cases hlw : (ofInt w).limbs.length = 1
  · have hlt := hone_w.mp hlw
    rw [if_pos hlw, signed_mulLimb_canon_iff s hnv (trimmed_limbsOf _)]
    have hP : ¬ (1 < v.natAbs ∧ v.natAbs < 2 ^ 32 ∧ w ≠ 0 ∧ w.natAbs % 2 ^ 32 = 0) := by omega
    by_cases hQ : Q
    · rw [if_pos hQ, Ne, lowLimb_ofInt_zero_iff]
      constructor
      · exact fun hne => ⟨fun _ => hP, fun _ h => hne h.2.2.2⟩
      · exact fun h hz => h.2 hQ ⟨hw, hlt, hv0, hz⟩
    · rw [if_neg hQ, Ne, lowLimb_ofInt_zero_iff]
      exact iff_of_true (by omega) ⟨fun _ => hP, fun hq => absurd hq hQ⟩
  rw [if_neg hlw]
  by_cases hlv : (ofInt v).limbs.length = 1
  · have hlt := hone_v.mp hlv
    rw [if_pos hlv, signed_mulLimb_canon_iff s hnw (trimmed_limbsOf _)]
    have hQ : ¬ (1 < w.natAbs ∧ w.natAbs < 2 ^ 32 ∧ v ≠ 0 ∧ v.natAbs % 2 ^ 32 = 0) :=
      fun h => hlw (hone_w.mpr h.2.1)
    by_cases hP : P
    · rw [if_pos hP, Ne, lowLimb_ofInt_zero_iff]
      constructor
      · exact fun hne => ⟨fun _ h => hne h.2.2.2, fun _ => hQ⟩
      · exact fun h hz => h.1 hP ⟨hv, hlt, hw0, hz⟩
    · rw [if_neg hP, Ne, lowLimb_ofInt_zero_iff]
      exact iff_of_true (by omega) ⟨fun hp => absurd hp hP, fun _ => hQ⟩
  · rw [if_neg hlv]
    have hprod : trim (mulLimbs (ofInt v).limbs (ofInt w).limbs) ≠ [] := by
      intro he
      have hmag := mag_trim (mulLimbs (ofInt v).limbs (ofInt w).limbs)
      rw [he, mag_mulLimbs, mag_ofInt, mag_ofInt] at hmag
      have hpos : 0 < v.natAbs * w.natAbs := Nat.mul_pos (by omega) (by omega)
      rw [← hmag] at hpos
      exact absurd hpos (Nat.lt_irrefl 0)
    rw [signed_canon_iff s hprod]
    exact iff_of_true (trimmed_trim _) ⟨fun _ h => hlv (hone_v.mpr h.2.1),
      fun _ h => hlw (hone_w.mpr h.2.1)⟩

theorem mulSmall_ofInt (v w : Int) : mulSmall (ofInt v) (ofInt w) = ofInt (v * w) := by
  unfold mulSmall
  by_cases hzero : ((ofInt v).sign.zero || (ofInt w).sign.zero) = true
  · rw [if_pos hzero, zero_eq_ofInt]
    rw [Bool.or_eq_true, ofInt_zero_iff, ofInt_zero_iff] at hzero
    rcases hzero with rfl | rfl
    · rw [Int.zero_mul]
    · rw [Int.mul_zero]
  rw [if_neg hzero]
  by_cases h1 : (ofInt w).isOne = true
  · rw [if_pos h1, (isOne_ofInt w).mp h1, Int.mul_one]
  rw [if_neg h1]
  by_cases h2 : (ofInt w).isNegOne = true
  · rw [if_pos h2, (isNegOne_ofInt w).mp h2, negate_ofInt, Int.mul_neg_one]
  rw [if_neg h2]
  by_cases h3 : (ofInt v).isOne = true
  · rw [if_pos h3, (isOne_ofInt v).mp h3, Int.one_mul]
  rw [if_neg h3]
  by_cases h4 : (ofInt v).isNegOne = true
  · rw [if_pos h4, (isNegOne_ofInt v).mp h4, negate_ofInt, Int.neg_one_mul]
  rw [if_neg h4]
  rw [Bool.or_eq_true, ofInt_zero_iff, ofInt_zero_iff, not_or] at hzero
  exact prod_ofInt hzero.1 hzero.2

def withSign (s : Sign) (x : Num) : Num := if x.sign.zero then x else { x with sign := s }

theorem withSign_ofInt (s : Bool) (v : Int) :
    withSign (if s then .pos else .neg) (ofInt v) =
      ofInt (if s then (v.natAbs : Int) else -(v.natAbs : Int)) := by
  unfold withSign
  by_cases hv : v = 0
  · subst hv
    cases s <;> rfl
  · rw [if_neg (by rwa [ofInt_zero_iff])]
    have hne : limbsOf v.natAbs ≠ [] := by
      rw [Ne, limbsOf_eq_nil_iff]
      omega
    have h := signed_eq_ofInt s hne (trimmed_limbsOf v.natAbs)
    rw [signedInt, mag_limbsOf] at h
    exact h

theorem signum_ofInt (v : Int) : (ofInt v).sign.signum = v.sign := by
  rcases Int.lt_trichotomy v 0 with h | rfl | h
  · rw [ofInt_neg h, Int.sign_eq_neg_one_of_neg h]
    rfl
  · rfl
  · rw [ofInt_pos h, Int.sign_eq_one_of_pos h]
    rfl

theorem tdiv_eq {v w : Int} (hv : v ≠ 0) (hw : w ≠ 0) :
    v.tdiv w = if v.sign = w.sign then ((v.natAbs / w.natAbs : Nat) : Int)
      else -((v.natAbs / w.natAbs : Nat) : Int) := by
  rcases Int.lt_or_gt_of_ne hv with hv | hv <;> rcases Int.lt_or_gt_of_ne hw with hw | hw
  · rw [Int.sign_eq_neg_one_of_neg hv, Int.sign_eq_neg_one_of_neg hw, if_pos rfl,
      Int.natCast_ediv, ← Int.neg_tdiv_neg, Int.tdiv_eq_ediv_of_nonneg (by omega)]
    congr 1 <;> omega
  · rw [Int.sign_eq_neg_one_of_neg hv, Int.sign_eq_one_of_pos hw, if_neg (by decide),
      Int.natCast_ediv, ← Int.neg_neg (v.tdiv w), ← Int.neg_tdiv,
      Int.tdiv_eq_ediv_of_nonneg (by omega)]
    congr 2 <;> omega
  · rw [Int.sign_eq_one_of_pos hv, Int.sign_eq_neg_one_of_neg hw, if_neg (by decide),
      Int.natCast_ediv, ← Int.neg_neg (v.tdiv w), ← Int.tdiv_neg,
      Int.tdiv_eq_ediv_of_nonneg (by omega)]
    congr 2 <;> omega
  · rw [Int.sign_eq_one_of_pos hv, Int.sign_eq_one_of_pos hw, if_pos rfl,
      Int.natCast_ediv, Int.tdiv_eq_ediv_of_nonneg (by omega)]
    congr 1 <;> omega

theorem tmod_eq (v w : Int) :
    v.tmod w = if v < 0 then -((v.natAbs % w.natAbs : Nat) : Int)
      else ((v.natAbs % w.natAbs : Nat) : Int) := by
  split
  next hv =>
    rw [← Int.neg_neg (v.tmod w), ← Int.neg_tmod, Int.tmod_eq_emod_of_nonneg (by omega),
      Int.natCast_emod, Int.natCast_natAbs w, Int.emod_abs]
    congr 2
    omega
  next hv =>
    rw [Int.tmod_eq_emod_of_nonneg (by omega), Int.natCast_emod, Int.natCast_natAbs w,
      Int.emod_abs]
    congr 1
    omega

theorem signedInt_tdiv (s : Bool) {l q : List UInt32} {m : Nat} (h : mag q = mag l / m) :
    (signedInt s l).tdiv m = signedInt s q := by
  cases s
  · rw [signedInt_false, signedInt_false, Int.neg_tdiv, ← Int.ofNat_tdiv, h]
  · rw [signedInt_true, signedInt_true, ← Int.ofNat_tdiv, h]

theorem signedInt_tmod (s : Bool) (l : List UInt32) (m : Nat) :
    (signedInt s l).tmod m = if s then ((mag l % m : Nat) : Int) else -((mag l % m : Nat) : Int) := by
  cases s
  · rw [signedInt_false, Int.neg_tmod, ← Int.ofNat_tmod]
    rfl
  · rw [signedInt_true, ← Int.ofNat_tmod]
    rfl

theorem shl_ofInt (v : Int) (n : Nat) : shl (ofInt v) n = some (ofInt (v * 2 ^ n)) := by
  unfold shl
  rcases ofInt_cases v with ⟨rfl, h⟩ | ⟨s, l, hl, ht, rfl, h⟩
  · rw [h, zero_sign_zero, if_pos rfl, Int.zero_mul, h]
  · rw [h, signed_zero, if_neg (by decide)]
    split
    next h0 => rw [← h, h0, Int.pow_zero, Int.mul_one]
    next h0 =>
      rw [signed_limbs, if_neg (by simp [hl]), signed_with_limbs,
        signed_eq_ofInt s (shlLimbs_ne_nil hl n) (trimmed_shlLimbs ht hl n)]
      congr 2
      unfold signedInt
      rw [mag_shlLimbs]
      split <;> push_cast <;> ring

private theorem neg_ediv (m : Nat) {p : Nat} (hp : 0 < p) :
    (-(m : Int)) / p = if m % p = 0 then -((m / p : Nat) : Int) else -((m / p : Nat) : Int) - 1 := by
  have hdm := Nat.div_add_mod m p
  have hlt := Nat.mod_lt m hp
  have hp0 : (p : Int) ≠ 0 := by omega
  split
  next h =>
    rw [h, Nat.add_zero] at hdm
    have : -(m : Int) = p * -((m / p : Nat) : Int) := by
      conv_lhs => rw [← hdm]
      push_cast
      ring
    rw [this, Int.mul_ediv_cancel_left _ hp0]
  next h =>
    have : -(m : Int) = ((p : Int) - (m % p : Nat)) + p * (-((m / p : Nat) : Int) - 1) := by
      conv_lhs => rw [← hdm]
      push_cast
      ring
    rw [this, Int.add_mul_ediv_left _ _ hp0, Int.ediv_eq_zero_of_lt (by omega) (by omega),
      Int.zero_add]

/-- `lostOne` finds exactly the bits below `2 ^ n`. -/
theorem lostOne_iff {l : List UInt32} {n : Nat} (hn : n / 32 < l.length) :
    lostOne l n = true ↔ mag l % 2 ^ n ≠ 0 := by
  set q := n / 32 with hq
  set r := n % 32 with hr
  have hr32 : r < 32 := Nat.mod_lt _ (by decide)
  have hpow : 2 ^ n = (2 ^ 32) ^ q * 2 ^ r := by rw [← Nat.pow_mul, ← Nat.pow_add, Nat.div_add_mod]
  have hlow := mag_lt (l.take q)
  rw [List.length_take, Nat.min_eq_left hn.le] at hlow
  have htop : mag (l.drop q) % 2 ^ r = (l.getD q 0).toNat % 2 ^ r := by
    rw [List.drop_eq_getElem_cons hn, mag_cons, List.getD_eq_getElem _ _ hn,
      show 2 ^ 32 = 2 ^ r * 2 ^ (32 - r) by rw [← Nat.pow_add, Nat.add_sub_cancel' hr32.le],
      Nat.mul_assoc, Nat.add_mul_mod_self_left]
  have hmod : mag l % 2 ^ n = mag (l.take q) + (2 ^ 32) ^ q * ((l.getD q 0).toNat % 2 ^ r) := by
    rw [hpow, Nat.mod_mul, mag_take_drop q l hn.le, Nat.add_mul_mod_self_left,
      Nat.mod_eq_of_lt hlow, Nat.add_mul_div_left _ _ (Nat.pow_pos (by decide)),
      Nat.div_eq_of_lt hlow, Nat.zero_add, htop]
  have hany : (l.take q).any (· != 0) = true ↔ mag (l.take q) ≠ 0 := by
    rw [mag, Ne, Positional.value_eq_zero_iff (by decide), List.any_eq_true]
    simp [← UInt32.toNat_inj]
  have hshl : (r != 0 && shlU32 (l.getD q 0) (32 - r) != 0) = true ↔
      (l.getD q 0).toNat % 2 ^ r ≠ 0 := by
    rcases Nat.eq_zero_or_pos r with h0 | h0
    · simp [h0, Nat.mod_one]
    · have hval := toNat_shl (l.getD q 0) (s := 32 - r) (by omega)
      rw [show 32 - (32 - r) = r by omega] at hval
      rw [Bool.and_eq_true, bne_iff_ne, bne_iff_ne, Ne, Ne, ← UInt32.toNat_inj, hval,
        UInt32.toNat_zero, Nat.mul_eq_zero]
      have := Nat.two_pow_pos (32 - r)
      omega
  rw [lostOne, Bool.or_eq_true, hany, hshl, hmod]
  have hB : 0 < (2 ^ 32) ^ q := Nat.pow_pos (by decide)
  rw [Ne, Ne, Ne, Nat.add_eq_zero_iff, Nat.mul_eq_zero]
  omega

theorem shl_pos {l : List UInt32} (hl : l ≠ []) (n : Nat) :
    ∃ m, shl ⟨.pos, l⟩ n = some ⟨.pos, m⟩ ∧ mag m = mag l * 2 ^ n ∧ l.length ≤ m.length ∧
      (Trimmed l → Trimmed m) := by
  unfold shl
  rw [if_neg (show ¬Sign.pos.zero = true by decide)]
  by_cases hn : n = 0
  · subst hn
    exact ⟨l, if_pos rfl, by simp, Nat.le_refl _, id⟩
  · rw [if_neg hn, if_neg fun hc => hl hc.1]
    exact ⟨_, rfl, mag_shlLimbs l n, le_length_shlLimbs l n, fun ht => trimmed_shlLimbs ht hl n⟩

theorem shr_ofInt (v : Int) (n : Nat) : shr (ofInt v) n = ofInt (v / 2 ^ n) := by
  unfold shr
  rcases ofInt_cases v with ⟨rfl, h⟩ | ⟨s, l, hl, ht, rfl, h⟩
  · rw [h, zero_sign_zero, if_pos rfl, Int.zero_ediv, h]
  · rw [h, signed_zero, if_neg (by decide)]
    split
    next h0 => rw [← h, h0, Int.pow_zero, Int.ediv_one]
    next h0 =>
      have hp : 0 < 2 ^ n := Nat.two_pow_pos n
      have hcast : ((2 : Int) ^ n) = ((2 ^ n : Nat) : Int) := by push_cast; rfl
      have hmag := mag_shrLimbs l n
      have htrim := trimmed_shrLimbs ht n
      have hpos := ht.mag_pos hl
      rw [signed_limbs, signed_negative, hcast]
      split
      next hlen =>
        have hlt : mag l < 2 ^ n := by
          calc mag l < (2 ^ 32) ^ l.length := mag_lt l
            _ = 2 ^ (32 * l.length) := by rw [← Nat.pow_mul]
            _ ≤ 2 ^ n := Nat.pow_le_pow_right (by decide) (by omega)
        cases s
        · rw [Bool.not_false, if_pos rfl, negOne_eq_ofInt, signedInt_false, neg_ediv _ hp,
            Nat.mod_eq_of_lt hlt, if_neg (by omega), Nat.div_eq_of_lt hlt]
          rfl
        · rw [Bool.not_true, if_neg (by decide), zero_eq_ofInt, signedInt_true, ← Int.natCast_ediv,
            Nat.div_eq_of_lt hlt]
          rfl
      next hlen =>
        have hlost := lostOne_iff (l := l) (n := n) (by omega)
        have hnil : shrLimbs l n = [] ↔ mag l / 2 ^ n = 0 := by
          rw [← htrim.mag_eq_zero, hmag]
        cases s
        · rw [signedInt_false, neg_ediv _ hp, Bool.not_false, Bool.true_and]
          by_cases hb : lostOne l n = true
          · simp only [hb, if_true]
            rw [if_neg (hlost.mp hb)]
            split
            next h1 => rw [negOne_eq_ofInt, hnil.mp h1]; rfl
            next h1 =>
              rw [signed_with_limbs, signed_eq_ofInt _ (incLimbs_ne_nil _) (trimmed_incLimbs htrim),
                signedInt_false, mag_incLimbs, hmag]
              congr 1
              push_cast
              ring
          · rw [Bool.not_eq_true] at hb
            have hzero : mag l % 2 ^ n = 0 := by
              by_contra hne
              rw [hlost.mpr hne] at hb
              exact absurd hb (by decide)
            simp only [hb, Bool.false_eq_true, if_false]
            rw [if_pos hzero]
            split
            next h1 => rw [zero_eq_ofInt, hnil.mp h1]; rfl
            next h1 =>
              rw [signed_with_limbs, signed_eq_ofInt _ h1 htrim, signedInt_false, hmag]
        · simp only [Bool.not_true, Bool.false_and, Bool.false_eq_true, if_false]
          rw [signedInt_true, ← Int.natCast_ediv]
          split
          next h1 => rw [zero_eq_ofInt, hnil.mp h1]; rfl
          next h1 =>
            rw [signed_with_limbs, signed_eq_ofInt _ h1 htrim, signedInt_true, hmag]

theorem shr_pos_limbs {l : List UInt32} (ht : Trimmed l) (n : Nat) :
    (shr ⟨.pos, l⟩ n).limbs = limbsOf (mag l / 2 ^ n) := by
  by_cases hl : l = []
  · subst hl
    rw [mag_nil, Nat.zero_div]
    unfold shr
    by_cases hn : n = 0
    · rw [if_neg (by decide), if_pos hn]
      rfl
    · rw [if_neg (by decide), if_neg hn, if_pos (by simp)]
      rfl
  · rw [pos_eq_ofInt hl ht, shr_ofInt, show ((mag l : Int) / 2 ^ n) = ((mag l / 2 ^ n : Nat) : Int) by
      push_cast; rfl]
    rfl

theorem cmp_ofInt (v w : Int) :
    cmp (ofInt v) (ofInt w) = if v < w then -1 else if v = w then 0 else 1 := by
  unfold cmp
  rcases ofInt_cases v with ⟨rfl, hv⟩ | ⟨s, l, hl, ht, rfl, hv⟩ <;>
    rcases ofInt_cases w with ⟨rfl, hw⟩ | ⟨t, m, hm, htm, rfl, hw⟩
  · rw [hv]
    decide
  · have := htm.mag_pos hm
    rw [hv, hw, signed_signum]
    cases t <;> simp [signedInt, zero, Sign.zro, Sign.signum] <;> omega
  · have := ht.mag_pos hl
    rw [hv, hw, signed_signum]
    cases s <;> simp [signedInt, zero, Sign.zro, Sign.signum] <;> omega
  · have h1 := ht.mag_pos hl
    have h2 := htm.mag_pos hm
    rw [hv, hw, signed_signum, signed_signum, signed_limbs, signed_limbs, cmpLimbs_spec ht htm]
    cases s <;> cases t <;> simp [signedInt] <;> omega

end Num

end PGBigNumber
