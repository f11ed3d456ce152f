import PGBigNumber.Magnitude.Basic

/-!
# Text

The pure part of `fromString` and `toString`: the tables for each radix, the conversion of one
block, the sign part of a numeral, and what a numeral means.
-/

namespace PGBigNumber

def getBitCountByDigitCount (numDigits radix : Nat) : Nat :=
  let bitsPerDigit := [
    0, 0, 1024, 1624, 2048,
    2378, 2648, 2875, 3072, 3247,
    3402, 3543, 3672, 3790, 3899,
    4001, 4096, 4186, 4271, 4350,
    4426, 4498, 4567, 4633, 4696,
    4756, 4814, 4870, 4923, 4975,
    5025, 5074, 5120, 5166, 5210,
    5253, 5295]
  u64 (numDigits * bitsPerDigit.getD radix 0) / 2 ^ 10 + 1

def getDigitCountPerU32 (radix : Nat) : Nat :=
  let digitsPerU32 := [
    0, 0, 30, 19, 15,
    13, 11, 11, 10, 9,
    9, 8, 8, 8, 8,
    7, 7, 7, 7, 7,
    7, 7, 6, 6, 6,
    6, 6, 6, 6, 6,
    6, 6, 6, 6, 6,
    6, 5]
  digitsPerU32.getD radix 0

def getU32BlockRadix (radix : Nat) : Nat :=
  let blockRadix := [
    0x0, 0x0, 0x40000000, 0x4546b3db, 0x40000000,
    0x48c27395, 0x159fd800, 0x75db9c97, 0x40000000, 0x17179149,
    0x3b9aca00, 0xcc6db61, 0x19a10000, 0x309f1021, 0x57f6c100,
    0xa2f1b6f, 0x10000000, 0x18754571, 0x247dbc80, 0x3547667b,
    0x4c4b4000, 0x6b5a6e1d, 0x6c20a40, 0x8d2d931, 0xb640000,
    0xe8d4a51, 0x1269ae40, 0x17179149, 0x1cb91000, 0x23744899,
    0x2b73a840, 0x34e63b41, 0x40000000, 0x4cfa3cc1, 0x5c13d840,
    0x6d91b519, 0x39aa400]
  blockRadix.getD radix 0

/-- `detail::getU64BlockRadix`: the integers the objects of its table are made of. -/
def getU64BlockRadix (radix : Nat) : Nat :=
  let u64BlockRadix := [
    0x0, 0x0, 0x4000000000000000, 0x383d9170b85ff80b, 0x4000000000000000,
    0x6765c793fa10079d, 0x41c21cb8e1000000, 0x3642798750226111, 0x1000000000000000,
    0x12bf307ae81ffd59,
    0xde0b6b3a7640000, 0x4d28cb56c33fa539, 0x1eca170c00000000, 0x780c7372621bd74d,
    0x1e39a5057d810000,
    0x5b27ac993df97701, 0x1000000000000000, 0x27b95e997e21d9f1, 0x5da0e1e53c5c8000,
    0xb16a458ef403f19,
    0x16bcc41e90000000, 0x2d04b7fdd9c0ef49, 0x5658597bcaa24000, 0x6feb266931a75b7,
    0xc29e98000000000,
    0x14adf4b7320334b9, 0x226ed36478bfa000, 0x383d9170b85ff80b, 0x5a3c23e39c000000,
    0x4e900abb53e6b71,
    0x7600ec618141000, 0xaee5720ee830681, 0x1000000000000000, 0x172588ad4f5f0981,
    0x211e44f7d02c1000,
    0x2ee56725f06e5c71, 0x41c21cb8e1000000]
  u64BlockRadix.getD radix 0

def getDigitCountPerU64 (radix : Nat) : Nat :=
  let digitCountPerU64 := [
    0, 0, 62, 39, 31,
    27, 24, 22, 20, 19,
    18, 18, 17, 17, 16,
    16, 15, 15, 15, 14,
    14, 14, 14, 13, 13,
    13, 13, 13, 13, 12,
    12, 12, 12, 12, 12,
    12, 12]
  digitCountPerU64.getD radix 0

def ValidRadix (radix : Nat) : Prop := 2 ≤ radix ∧ radix ≤ 36

instance (radix : Nat) : Decidable (ValidRadix radix) := inferInstanceAs (Decidable (_ ∧ _))

variable {radix : Nat}

private theorem forall_radix {P : Nat → Prop} [DecidablePred P]
    (h : ∀ radix ∈ List.range' 2 35, P radix) (hr : ValidRadix radix) : P radix :=
  h radix (by rw [List.mem_range'_1]; unfold ValidRadix at hr; omega)

theorem getU32BlockRadix_eq (hr : ValidRadix radix) :
    getU32BlockRadix radix = radix ^ getDigitCountPerU32 radix :=
  forall_radix (P := fun radix => getU32BlockRadix radix = radix ^ getDigitCountPerU32 radix)
    (by decide) hr

theorem getU32BlockRadix_range (hr : ValidRadix radix) :
    1 < getU32BlockRadix radix ∧ getU32BlockRadix radix < 2 ^ 31 :=
  forall_radix (P := fun radix => 1 < getU32BlockRadix radix ∧ getU32BlockRadix radix < 2 ^ 31)
    (by decide) hr

theorem getDigitCountPerU32_pos (hr : ValidRadix radix) : 0 < getDigitCountPerU32 radix :=
  forall_radix (P := fun radix => 0 < getDigitCountPerU32 radix) (by decide) hr

theorem getU64BlockRadix_eq (hr : ValidRadix radix) :
    getU64BlockRadix radix = radix ^ getDigitCountPerU64 radix :=
  forall_radix (P := fun radix => getU64BlockRadix radix = radix ^ getDigitCountPerU64 radix)
    (by decide) hr

theorem getU64BlockRadix_range (hr : ValidRadix radix) :
    2 ^ 32 < getU64BlockRadix radix ∧ getU64BlockRadix radix < 2 ^ 63 :=
  forall_radix (P := fun radix => 2 ^ 32 < getU64BlockRadix radix ∧ getU64BlockRadix radix < 2 ^ 63)
    (by decide) hr

def digitValue (c : Char) : Option Nat :=
  if '0' ≤ c ∧ c ≤ '9' then some (c.toNat - '0'.toNat)
  else if 'a' ≤ c ∧ c ≤ 'z' then some (c.toNat - 'a'.toNat + 10)
  else if 'A' ≤ c ∧ c ≤ 'Z' then some (c.toNat - 'A'.toNat + 10)
  else none

def isDigit (radix : Nat) (c : Char) : Bool := (digitValue c).any (· < radix)

def digitChar (d : Nat) : Char := "0123456789abcdefghijklmnopqrstuvwxyz".toList.getD d '0'

/-- The number that digits stand for, the most significant one first. -/
def digitsMag (radix : Nat) (s : List Char) : Nat :=
  Positional.value (fun c => (digitValue c).getD 0) radix s.reverse

/-- `std::from_chars` to a `std::uint32_t`; `none` stands for an error code. -/
def fromChars (s : List Char) (radix : Nat) : Option UInt32 :=
  let digits := s.takeWhile (isDigit radix)
  if digits = [] then none
  else if digitsMag radix digits ≥ 2 ^ 32 then none
  else some (UInt32.ofNat (digitsMag radix digits))

def toChars (n radix : Nat) : List Char :=
  if n = 0 then ['0'] else (Nat.digits radix n).reverse.map digitChar

theorem digitValue_digitChar {d : Nat} (h : d < 36) : digitValue (digitChar d) = some d :=
  (by decide : ∀ d ∈ List.range 36, digitValue (digitChar d) = some d) d (List.mem_range.mpr h)

theorem isDigit_digitChar (hr : ValidRadix radix) {d : Nat} (h : d < radix) :
    isDigit radix (digitChar d) = true := by
  rw [isDigit, digitValue_digitChar (by have := hr.2; omega)]
  simpa using h

@[simp]
theorem digitsMag_nil : digitsMag radix [] = 0 := rfl

theorem digitsMag_append (s t : List Char) :
    digitsMag radix (s ++ t) = digitsMag radix s * radix ^ t.length + digitsMag radix t := by
  rw [digitsMag, List.reverse_append, Positional.value_append, List.length_reverse, Nat.mul_comm,
    Nat.add_comm]
  rfl

theorem digitsMag_zeros (n : Nat) (s : List Char) :
    digitsMag radix (List.replicate n '0' ++ s) = digitsMag radix s := by
  rw [digitsMag, List.reverse_append, List.reverse_replicate]
  exact Positional.value_append_zeros _ _ _ _ _ rfl

theorem digitsMag_lt (hr : ValidRadix radix) {s : List Char} (hs : s.all (isDigit radix) = true) :
    digitsMag radix s < radix ^ s.length := by
  have hlt : ∀ c ∈ s, (digitValue c).getD 0 < radix := by
    intro c hc
    have hd := List.all_eq_true.mp hs c hc
    unfold isDigit at hd
    cases hval : digitValue c with
    | none =>
        rw [hval] at hd
        exact absurd hd Bool.false_ne_true
    | some d =>
        rw [hval] at hd
        simpa using hd
  have hbound := Nat.ofDigits_lt_base_pow_length (b := radix)
    (l := s.reverse.map fun c => (digitValue c).getD 0) hr.1 (by
      intro x hx
      obtain ⟨c, hc, rfl⟩ := List.mem_map.mp hx
      exact hlt c (List.mem_reverse.mp hc))
  rwa [List.length_map, List.length_reverse] at hbound

theorem digitsMag_map_digitChar (hr : ValidRadix radix) {ds : List Nat}
    (hds : ∀ d ∈ ds, d < radix) :
    digitsMag radix (ds.map digitChar) = Nat.ofDigits radix ds.reverse := by
  have hmap : (ds.reverse.map digitChar).map (fun c => (digitValue c).getD 0) = ds.reverse := by
    rw [List.map_map]
    conv_rhs => rw [← List.map_id ds.reverse]
    apply List.map_congr_left
    intro d hd
    have hlt := hds d (List.mem_reverse.mp hd)
    rw [Function.comp_apply, digitValue_digitChar (by have := hr.2; omega), Option.getD_some, id]
  rw [digitsMag, Positional.value, ← List.map_reverse, hmap]

theorem toChars_block (hr : ValidRadix radix) {q r k : Nat} (hk : 0 < k) (hq : 0 < q)
    (hlt : r < radix ^ k) :
    toChars (q * radix ^ k + r) radix = toChars q radix ++
      (List.replicate (k - (toChars r radix).length) '0' ++ toChars r radix) := by
  have hpow : 0 < radix ^ k := Nat.pow_pos (by have := hr.1; omega)
  have hsum : q * radix ^ k + r ≠ 0 := by
    have := Nat.mul_pos hq hpow
    omega
  have hlen := (Nat.digits_length_le_iff hr.1 r).mpr hlt
  have hdigits := Nat.digits_append_zeroes_append_digits (b := radix)
    (k := k - (Nat.digits radix r).length) (m := q) (n := r) hr.1 hq
  rw [Nat.add_sub_cancel' hlen, Nat.add_comm, Nat.mul_comm] at hdigits
  have hpad : List.replicate (k - (toChars r radix).length) '0' ++ toChars r radix =
      (Nat.digits radix r ++ List.replicate (k - (Nat.digits radix r).length) 0).reverse.map
        digitChar := by
    rw [List.reverse_append, List.map_append, List.reverse_replicate, List.map_replicate]
    unfold toChars
    by_cases h0 : r = 0
    · rw [if_pos h0, h0, Nat.digits_zero, List.reverse_nil, List.map_nil, List.append_nil,
        List.length_nil, Nat.sub_zero, List.length_singleton, ← List.replicate_succ',
        Nat.sub_add_cancel hk]
      rfl
    · rw [if_neg h0, List.length_map, List.length_reverse]
      rfl
  rw [hpad, toChars, if_neg hsum, ← hdigits, toChars, if_neg hq.ne', ← List.map_append,
    ← List.reverse_append]

/-- The printed blocks put together, all but the first padded with zeros. -/
def joinBlocks (digitCount : Nat) (strs : List (List Char)) : List Char :=
  strs.getLastD [] ++
    strs.dropLast.reverse.flatMap fun str => List.replicate (digitCount - str.length) '0' ++ str

private theorem joinBlocks_cons {k : Nat} {str : List Char} {strs : List (List Char)}
    (h : strs ≠ []) : joinBlocks k (str :: strs) =
      joinBlocks k strs ++ (List.replicate (k - str.length) '0' ++ str) := by
  have hlast : (str :: strs).getLastD [] = strs.getLastD [] := by
    rw [List.getLastD_cons, List.getLastD_eq_getLast?, List.getLastD_eq_getLast?,
      List.getLast?_eq_some_getLast h]
    rfl
  rw [joinBlocks, hlast, List.dropLast_cons_of_ne_nil h, List.reverse_cons, List.flatMap_append,
    List.flatMap_singleton, ← List.append_assoc, joinBlocks]

/-- The blocks of a number put together are its numeral. -/
theorem joinBlocks_digits (hr : ValidRadix radix) {k : Nat} (hk : 0 < k) {m : Nat} (hm : 0 < m) :
    joinBlocks k ((Nat.digits (radix ^ k) m).map (toChars · radix)) = toChars m radix := by
  have hpow : 1 < radix ^ k := Nat.one_lt_pow hk.ne' hr.1
  induction m using Nat.strongRecOn with
  | ind m ih =>
    rw [Nat.digits_def' hpow hm, List.map_cons]
    have hdiv := Nat.div_add_mod' m (radix ^ k)
    by_cases h0 : m / radix ^ k = 0
    · rw [h0, Nat.zero_mul, Nat.zero_add] at hdiv
      rw [h0, Nat.digits_zero, hdiv]
      simp [joinBlocks]
    · have hlt : m / radix ^ k < m := Nat.div_lt_self hm hpow
      have hne : (Nat.digits (radix ^ k) (m / radix ^ k)).map (toChars · radix) ≠ [] := by
        rw [Ne, List.map_eq_nil_iff, Nat.digits_eq_nil_iff_eq_zero]
        exact h0
      rw [joinBlocks_cons hne, ih _ hlt (Nat.pos_of_ne_zero h0),
        ← toChars_block hr hk (Nat.pos_of_ne_zero h0) (Nat.mod_lt m (by omega)), hdiv]

/-- `s` is the numeral of `v`: a minus for a negative number, then digits without a leading zero,
unless the zero is alone. -/
def IsNumeral (radix : Nat) (v : Int) (s : List Char) : Prop :=
  ∃ ds : List Nat, s = (if v < 0 then ['-'] else []) ++ ds.map digitChar ∧ ds ≠ [] ∧
    (∀ d ∈ ds, d < radix) ∧ (ds.head? = some 0 → ds = [0]) ∧
    Nat.ofDigits radix ds.reverse = v.natAbs

theorem isNumeral_toChars (hr : ValidRadix radix) (v : Int) :
    IsNumeral radix v ((if v < 0 then ['-'] else []) ++ toChars v.natAbs radix) := by
  unfold toChars
  by_cases h0 : v.natAbs = 0
  · refine ⟨[0], ?_, by simp, by simpa using by have := hr.1; omega, fun _ => rfl, ?_⟩
    · rw [if_pos h0]
      rfl
    · rw [h0]
      rfl
  · refine ⟨(Nat.digits radix v.natAbs).reverse, by rw [if_neg h0], ?_, fun d hd => ?_, ?_, ?_⟩
    · rw [Ne, List.reverse_eq_nil_iff, Nat.digits_eq_nil_iff_eq_zero]
      exact h0
    · exact Nat.digits_lt_base hr.1 (List.mem_reverse.mp hd)
    · intro hhead
      have hlast := Nat.getLast_digit_ne_zero radix h0
      rw [List.head?_reverse,
        List.getLast?_eq_some_getLast (Nat.digits_ne_nil_iff_ne_zero.mpr h0)] at hhead
      exact absurd (Option.some.inj hhead) hlast
    · rw [List.reverse_reverse, Nat.ofDigits_digits]

def findLastOf (c : Char) : List Char → Option Nat
  | [] => none
  | d :: s =>
    match findLastOf c s with
    | some k => some (k + 1)
    | none => if d = c then some 0 else none

/-- `sigNum` and `pos` after the search for signs; `none` where a sign is misplaced. -/
def signPart (str : List Char) : Option (Int × Nat) :=
  let posiIndex := findLastOf '+' str
  match findLastOf '-' str with
  | some negIndex => if negIndex ≠ 0 ∨ posiIndex.isSome then none else some (-1, 1)
  | none =>
    match posiIndex with
    | some posiIndex => if posiIndex ≠ 0 then none else some (1, 1)
    | none => some (1, 0)

def unsigned (s : List Char) : List Char :=
  if s.head? = some '-' ∨ s.head? = some '+' then s.tail else s

def significant (s : List Char) : List Char := (unsigned s).dropWhile (· == '0')

def denote (radix : Nat) (s : List Char) : Option Int :=
  if unsigned s ≠ [] ∧ (unsigned s).all (isDigit radix) = true then
    some ((if s.head? = some '-' then -1 else 1) * digitsMag radix (unsigned s))
  else none

theorem findLastOf_eq_none (c : Char) (s : List Char) : findLastOf c s = none ↔ c ∉ s := by
  induction s with
  | nil => simp [findLastOf]
  | cons d s ih =>
      rw [findLastOf, List.mem_cons, not_or, ← ih]
      cases findLastOf c s with
      | some k => simp
      | none =>
          by_cases hd : d = c
          · simp [hd]
          · simp [hd, Ne.symm hd]

theorem findLastOf_cons (c d : Char) (s : List Char) :
    findLastOf c (d :: s) = some 0 ↔ d = c ∧ c ∉ s := by
  rw [findLastOf, ← findLastOf_eq_none]
  cases findLastOf c s with
  | some k => simp
  | none => by_cases hd : d = c <;> simp [hd]

private theorem findLastOf_of_ne {c d : Char} (h : d ≠ c) (s : List Char) :
    findLastOf c (d :: s) = (findLastOf c s).map (· + 1) := by
  rw [findLastOf]
  cases findLastOf c s with
  | some k => rfl
  | none => rw [if_neg h]; rfl

private theorem isSome_findLastOf (c : Char) (s : List Char) :
    (findLastOf c s).isSome = true ↔ c ∈ s := by
  rw [← not_iff_not, ← findLastOf_eq_none, Bool.not_eq_true, Option.isSome_eq_false_iff,
    Option.isNone_iff_eq_none]

theorem signPart_eq (s : List Char) :
    signPart s = if '-' ∈ unsigned s ∨ '+' ∈ unsigned s then none
      else some (if s.head? = some '-' then -1 else 1, s.length - (unsigned s).length) := by
  cases s with
  | nil => rfl
  | cons c t =>
    by_cases hneg : c = '-'
    · subst hneg
      have hu : unsigned ('-' :: t) = t := if_pos (Or.inl rfl)
      rw [hu, signPart, findLastOf_of_ne (c := '+') (by decide) t]
      simp only [Option.isSome_map, isSome_findLastOf, List.head?_cons, if_true, List.length_cons,
        Nat.add_sub_cancel_left]
      by_cases ht : '-' ∈ t
      · rw [if_pos (Or.inl ht)]
        cases hlast : findLastOf '-' ('-' :: t) with
        | none => exact absurd hlast (by simp [findLastOf_eq_none])
        | some k =>
            have hk : k ≠ 0 := fun h0 => ((findLastOf_cons _ _ _).mp (h0 ▸ hlast)).2 ht
            simp only [if_pos (Or.inl hk)]
      · rw [(findLastOf_cons '-' '-' t).mpr ⟨rfl, ht⟩]
        simp [ht]
    by_cases hpos : c = '+'
    · subst hpos
      have hu : unsigned ('+' :: t) = t := if_pos (Or.inr rfl)
      rw [hu, signPart, findLastOf_of_ne (c := '-') (by decide) t]
      simp only [List.head?_cons, List.length_cons, Nat.add_sub_cancel_left]
      by_cases ht : '-' ∈ t
      · obtain ⟨k, hk⟩ := Option.isSome_iff_exists.mp ((isSome_findLastOf '-' t).mpr ht)
        rw [hk, if_pos (Or.inl ht)]
        simp
      · rw [(findLastOf_eq_none '-' t).mpr ht]
        by_cases htp : '+' ∈ t
        · rw [if_pos (Or.inr htp)]
          cases hlast : findLastOf '+' ('+' :: t) with
          | none => exact absurd hlast (by simp [findLastOf_eq_none])
          | some k =>
              have hk : k ≠ 0 := fun h0 => ((findLastOf_cons _ _ _).mp (h0 ▸ hlast)).2 htp
              simp [hk]
        · rw [(findLastOf_cons '+' '+' t).mpr ⟨rfl, htp⟩]
          simp [ht, htp]
    · have hu : unsigned (c :: t) = c :: t := if_neg (by simp [hneg, hpos])
      rw [hu, signPart, findLastOf_of_ne hneg, findLastOf_of_ne hpos]
      simp only [List.head?_cons, List.mem_cons, Ne.symm hneg, Ne.symm hpos, false_or, Nat.sub_self,
        Option.some.injEq, hneg, if_false]
      by_cases ht : '-' ∈ t
      · obtain ⟨k, hk⟩ := Option.isSome_iff_exists.mp ((isSome_findLastOf '-' t).mpr ht)
        rw [hk, if_pos (Or.inl ht)]
        simp
      · rw [(findLastOf_eq_none '-' t).mpr ht]
        by_cases htp : '+' ∈ t
        · obtain ⟨k, hk⟩ := Option.isSome_iff_exists.mp ((isSome_findLastOf '+' t).mpr htp)
          rw [hk, if_pos (Or.inr htp)]
          simp
        · rw [(findLastOf_eq_none '+' t).mpr htp]
          simp [ht, htp]

theorem drop_unsigned (s : List Char) : s.drop (s.length - (unsigned s).length) = unsigned s := by
  unfold unsigned
  split
  · cases s with
    | nil => rfl
    | cons c t => simp
  · simp

def BlocksStart (radix blockSize : Nat) (s : List Char) : Prop :=
  ∀ k, k * blockSize < s.length → isDigit radix (s.getD (k * blockSize) ' ') = true

def firstBlockSize (digitCnt blockSize : Nat) : Nat :=
  if digitCnt % blockSize = 0 then blockSize else digitCnt % blockSize

private theorem fromChars_eq (hr : ValidRadix radix) {s : List Char}
    (hlen : s.length ≤ getDigitCountPerU32 radix) :
    digitsMag radix (s.takeWhile (isDigit radix)) < getU32BlockRadix radix ∧
      fromChars s radix = if s.takeWhile (isDigit radix) = [] then none
        else some (UInt32.ofNat (digitsMag radix (s.takeWhile (isDigit radix)))) := by
  have hlt := digitsMag_lt hr (List.all_takeWhile (p := isDigit radix) (l := s))
  have hle := (List.takeWhile_prefix (isDigit radix) (l := s)).length_le
  have hpow : radix ^ (s.takeWhile (isDigit radix)).length ≤ radix ^ getDigitCountPerU32 radix :=
    Nat.pow_le_pow_right (by have := hr.1; omega) (hle.trans hlen)
  rw [← getU32BlockRadix_eq hr] at hpow
  have hrange := (getU32BlockRadix_range hr).2
  refine ⟨by omega, ?_⟩
  unfold fromChars
  dsimp only
  by_cases hnil : s.takeWhile (isDigit radix) = []
  · rw [if_pos hnil, if_pos hnil]
  · rw [if_neg hnil, if_neg hnil, if_neg (by omega)]

/-- The conversion of a block only looks for its first character. -/
theorem fromChars_isSome (hr : ValidRadix radix) {c : Char} {s : List Char}
    (hlen : (c :: s).length ≤ getDigitCountPerU32 radix) :
    (fromChars (c :: s) radix).isSome = isDigit radix c := by
  rw [(fromChars_eq hr hlen).2, List.takeWhile_cons]
  cases isDigit radix c <;> rfl

theorem fromChars_lt (hr : ValidRadix radix) {s : List Char} {x : UInt32}
    (hlen : s.length ≤ getDigitCountPerU32 radix) (hx : fromChars s radix = some x) :
    x.toNat < getU32BlockRadix radix ∧ x.toNat = digitsMag radix (s.takeWhile (isDigit radix)) := by
  obtain ⟨hlt, heq⟩ := fromChars_eq hr hlen
  have hrange := (getU32BlockRadix_range hr).2
  rw [heq] at hx
  split at hx
  · exact absurd hx (by simp)
  · obtain rfl := Option.some.inj hx
    rw [toNat_ofNat_u32, Nat.mod_eq_of_lt (by omega)]
    exact ⟨hlt, rfl⟩

theorem fromChars_digits (hr : ValidRadix radix) {s : List Char} (hs : s ≠ [])
    (hlen : s.length ≤ getDigitCountPerU32 radix) (hd : s.all (isDigit radix) = true) :
    ∃ x, fromChars s radix = some x ∧ x.toNat = digitsMag radix s := by
  have htake : s.takeWhile (isDigit radix) = s :=
    List.takeWhile_eq_self_iff.mpr (List.all_eq_true.mp hd)
  have heq := (fromChars_eq hr hlen).2
  rw [htake, if_neg hs] at heq
  refine ⟨_, heq, ?_⟩
  have hx := (fromChars_lt hr hlen heq).2
  rwa [htake] at hx

theorem blocksStart_cons {blockSize : Nat} {c : Char} {s : List Char} :
    BlocksStart radix blockSize (c :: s) ↔
      isDigit radix c = true ∧ BlocksStart radix blockSize ((c :: s).drop blockSize) := by
  have hget : ∀ k, ((c :: s).drop blockSize).getD (k * blockSize) ' ' =
      (c :: s).getD ((k + 1) * blockSize) ' ' := by
    intro k
    rw [List.getD_eq_getElem?_getD, List.getElem?_drop, ← List.getD_eq_getElem?_getD,
      Nat.add_mul, Nat.one_mul, Nat.add_comm]
  unfold BlocksStart
  simp only [hget, List.length_drop]
  constructor
  · intro h
    refine ⟨by simpa using h 0 (by simp), fun k hk => h (k + 1) ?_⟩
    rw [Nat.add_mul, Nat.one_mul]
    omega
  · rintro ⟨hc, h⟩ k hk
    cases k with
    | zero => simpa using hc
    | succ k =>
        apply h k
        rw [Nat.add_mul, Nat.one_mul] at hk
        omega

theorem blocksStart_nil (blockSize : Nat) : BlocksStart radix blockSize [] :=
  fun _ hk => absurd hk (Nat.not_lt_zero _)

def BadBlock (radix blockSize : Nat) (s : List Char) : Prop :=
  ∃ j < s.length, (j = 0 ∨ (s.length - j) % blockSize = 0) ∧ isDigit radix (s.getD j ' ') = false

instance (radix blockSize : Nat) (s : List Char) : Decidable (BadBlock radix blockSize s) :=
  inferInstanceAs (Decidable (∃ j < s.length, _ ∧ _))

theorem firstBlockSize_spec {digitCnt blockSize : Nat} (hb : 0 < blockSize) (hpos : 0 < digitCnt) :
    0 < firstBlockSize digitCnt blockSize ∧ firstBlockSize digitCnt blockSize ≤ blockSize ∧
      ∃ m, digitCnt = firstBlockSize digitCnt blockSize + m * blockSize := by
  have hdiv := Nat.div_add_mod' digitCnt blockSize
  have hmod := Nat.mod_lt digitCnt hb
  unfold firstBlockSize
  split
  next h0 =>
    refine ⟨hb, Nat.le_refl _, digitCnt / blockSize - 1, ?_⟩
    obtain ⟨m, hm⟩ := Nat.exists_eq_succ_of_ne_zero
      (show digitCnt / blockSize ≠ 0 from fun he => by rw [he] at hdiv; omega)
    rw [h0, hm, Nat.succ_mul] at hdiv
    rw [hm, Nat.succ_sub_one]
    omega
  next h0 => exact ⟨by omega, by omega, digitCnt / blockSize, by omega⟩

/-- The first block and those of the loop start where the distance to the end is a multiple of the
block size. -/
theorem not_badBlock_iff (radix : Nat) {blockSize : Nat} (hb : 0 < blockSize) (c : Char)
    (s : List Char) :
    ¬ BadBlock radix blockSize (c :: s) ↔ isDigit radix c = true ∧
      BlocksStart radix blockSize
        ((c :: s).drop (firstBlockSize (c :: s).length blockSize)) := by
  obtain ⟨hpos, hle, m, hm⟩ :=
    firstBlockSize_spec hb (show 0 < (c :: s).length from Nat.succ_pos s.length)
  set t := c :: s with ht
  set first := firstBlockSize t.length blockSize
  have hget : ∀ k, (t.drop first).getD (k * blockSize) ' ' = t.getD (first + k * blockSize) ' ' := by
    intro k
    rw [List.getD_eq_getElem?_getD, List.getElem?_drop, ← List.getD_eq_getElem?_getD]
  unfold BadBlock BlocksStart
  simp only [hget, List.length_drop, not_exists, not_and, Bool.not_eq_false]
  constructor
  · intro hgood
    refine ⟨by simpa [ht] using hgood 0 (by simp [ht]) (Or.inl rfl), fun k hk => ?_⟩
    refine hgood (first + k * blockSize) (by omega) (Or.inr ?_)
    have hkm : k ≤ m := by
      by_contra hlt
      have := Nat.mul_le_mul_right blockSize (show m + 1 ≤ k by omega)
      rw [Nat.succ_mul] at this
      omega
    rw [show t.length - (first + k * blockSize) = (m - k) * blockSize by
      rw [Nat.sub_mul]
      omega]
    exact Nat.mul_mod_left _ _
  · rintro ⟨hc, hblocks⟩ j hj (rfl | hmod)
    · simpa [ht] using hc
    · by_cases h0 : j = 0
      · rw [h0]
        simpa [ht] using hc
      obtain ⟨k, hk⟩ := Nat.dvd_of_mod_eq_zero hmod
      have hkm : k ≤ m := by
        by_contra hlt
        have := Nat.mul_le_mul_left blockSize (show m + 1 ≤ k by omega)
        rw [Nat.mul_succ, Nat.mul_comm blockSize m] at this
        omega
      have hj' : j = first + (m - k) * blockSize := by
        have hsub : (m - k) * blockSize = m * blockSize - blockSize * k := by
          rw [Nat.sub_mul, Nat.mul_comm k]
        have := Nat.mul_le_mul_right blockSize hkm
        rw [Nat.mul_comm k] at this
        omega
      rw [hj']
      exact hblocks (m - k) (by omega)

def Overflows (radix : Nat) (s : List Char) : Prop :=
  getBitCountByDigitCount (significant s).length radix + 31 ≥ 2 ^ 32

instance (radix : Nat) (s : List Char) : Decidable (Overflows radix s) :=
  inferInstanceAs (Decidable (_ ≥ _))

/-- A sign stands after the first position, or there is no digit, or there are too many, or a block
starts with a character that is not a digit. -/
def Rejected (radix : Nat) (s : List Char) : Prop :=
  ('-' ∈ unsigned s ∨ '+' ∈ unsigned s) ∨ unsigned s = [] ∨ Overflows radix s ∨
    BadBlock radix (getDigitCountPerU32 radix) (significant s)

instance (radix : Nat) (s : List Char) : Decidable (Rejected radix s) :=
  inferInstanceAs (Decidable (_ ∨ _ ∨ _ ∨ _))

private theorem unsigned_eq (s : List Char) :
    ∃ n, unsigned s = List.replicate n '0' ++ significant s := by
  refine ⟨((unsigned s).takeWhile (· == '0')).length, ?_⟩
  have hzeros : (unsigned s).takeWhile (· == '0') =
      List.replicate ((unsigned s).takeWhile (· == '0')).length '0' := by
    refine List.eq_replicate_iff.mpr ⟨rfl, fun c hc => ?_⟩
    simpa using List.all_eq_true.mp (List.all_takeWhile (p := (· == '0')) (l := unsigned s)) c hc
  rw [← hzeros, significant, List.takeWhile_append_dropWhile]

private theorem isDigit_zero (hr : ValidRadix radix) : isDigit radix '0' = true :=
  isDigit_digitChar hr (d := 0) (by have := hr.1; omega)

theorem all_unsigned (hr : ValidRadix radix) (s : List Char) :
    (unsigned s).all (isDigit radix) = (significant s).all (isDigit radix) := by
  obtain ⟨n, hn⟩ := unsigned_eq s
  rw [hn, List.all_append]
  have hzeros : (List.replicate n '0').all (isDigit radix) = true := by
    rw [List.all_eq_true]
    intro c hc
    rw [List.eq_of_mem_replicate hc]
    exact isDigit_zero hr
  rw [hzeros, Bool.true_and]

theorem digitsMag_unsigned (s : List Char) :
    digitsMag radix (unsigned s) = digitsMag radix (significant s) := by
  obtain ⟨n, hn⟩ := unsigned_eq s
  rw [hn, digitsMag_zeros]

theorem denote_eq_some (hr : ValidRadix radix) {s : List Char} {v : Int}
    (h : denote radix s = some v) :
    unsigned s ≠ [] ∧ (significant s).all (isDigit radix) = true ∧
      v = (if s.head? = some '-' then -1 else 1) * digitsMag radix (significant s) := by
  unfold denote at h
  rw [digitsMag_unsigned, all_unsigned hr] at h
  split at h
  next hboth => exact ⟨hboth.1, hboth.2, (Option.some.inj h).symm⟩
  next => exact absurd h (by simp)

/-- A well-formed numeral is only rejected for its length. -/
theorem rejected_iff_of_denote (hr : ValidRadix radix) {s : List Char} {v : Int}
    (h : denote radix s = some v) : Rejected radix s ↔ Overflows radix s := by
  obtain ⟨hne, hall, -⟩ := denote_eq_some hr h
  rw [← all_unsigned hr] at hall
  have hsign : ¬ ('-' ∈ unsigned s ∨ '+' ∈ unsigned s) := by
    rintro (hmem | hmem) <;> exact absurd (List.all_eq_true.mp hall _ hmem) Bool.false_ne_true
  rw [all_unsigned hr] at hall
  have hbad : ¬ BadBlock radix (getDigitCountPerU32 radix) (significant s) := by
    rintro ⟨j, hj, -, hdigit⟩
    rw [List.getD_eq_getElem _ _ hj, List.all_eq_true.mp hall _ (List.getElem_mem hj)] at hdigit
    exact absurd hdigit (by decide)
  unfold Rejected
  simp only [hsign, hne, hbad, false_or, or_false]

/-- A malformed numeral that is not rejected has digits to convert. -/
theorem significant_ne_nil (hr : ValidRadix radix) {s : List Char} (h : denote radix s = none)
    (hrej : ¬ Rejected radix s) : significant s ≠ [] := by
  intro hnil
  unfold denote at h
  rw [all_unsigned hr, hnil] at h
  have hne : unsigned s ≠ [] := fun h0 => hrej (Or.inr (Or.inl h0))
  rw [if_pos ⟨hne, rfl⟩] at h
  exact absurd h (by simp)

theorem denote_isNumeral (hr : ValidRadix radix) {v : Int} {s : List Char}
    (h : IsNumeral radix v s) : denote radix s = some v := by
  obtain ⟨ds, rfl, hne, hlt, -, hval⟩ := h
  have hall : (ds.map digitChar).all (isDigit radix) = true := by
    rw [List.all_eq_true]
    intro c hc
    obtain ⟨d, hd, rfl⟩ := List.mem_map.mp hc
    exact isDigit_digitChar hr (hlt d hd)
  have hmag := digitsMag_map_digitChar hr hlt
  rw [hval] at hmag
  have hmap : ds.map digitChar ≠ [] := by simpa using hne
  by_cases hneg : v < 0
  · have hu : unsigned ('-' :: ds.map digitChar) = ds.map digitChar := if_pos (Or.inl rfl)
    rw [if_pos hneg, List.singleton_append, denote, hu, if_pos ⟨hmap, hall⟩, List.head?_cons,
      if_pos rfl, hmag]
    congr 1
    omega
  · have hhead : ∀ c, isDigit radix c = false → (ds.map digitChar).head? ≠ some c := by
      intro c hc he
      have hmem := List.mem_of_mem_head? he
      rw [List.all_eq_true.mp hall c hmem] at hc
      exact absurd hc (by decide)
    have hu : unsigned (ds.map digitChar) = ds.map digitChar :=
      if_neg (not_or.mpr ⟨hhead '-' rfl, hhead '+' rfl⟩)
    rw [if_neg hneg, List.nil_append, denote, hu, if_pos ⟨hmap, hall⟩, if_neg (hhead '-' rfl), hmag]
    congr 1
    omega

theorem overflows_nil {s : List Char} (h : significant s = []) : ¬ Overflows radix s := by
  unfold Overflows getBitCountByDigitCount
  rw [h, List.length_nil]
  dsimp only
  rw [Nat.zero_mul]
  decide

private theorem digitValue_ne_zero {c : Char} (h : c ≠ '0') : digitValue c ≠ some 0 := by
  have hinj : c.toNat ≠ 48 := fun he => h (Char.toNat_inj.mp he)
  unfold digitValue
  split
  next hrange =>
    have hle : 48 ≤ c.toNat := hrange.1
    intro h0
    have hsub : c.toNat - 48 = 0 := Option.some.inj h0
    omega
  · split
    · simp
    · split <;> simp

theorem first_block_pos (hr : ValidRadix radix) {s t : List Char} {c : Char} {k : Nat}
    (hs : significant s = c :: t) (hc : isDigit radix c = true) :
    0 < digitsMag radix ((c :: t.take k).takeWhile (isDigit radix)) := by
  have hne : c ≠ '0' := by
    have hhead := List.head?_dropWhile_not (· == '0') (unsigned s)
    rw [← significant, hs, List.head?_cons] at hhead
    simpa using hhead
  have hval : ∃ d, digitValue c = some d ∧ 0 < d := by
    unfold isDigit at hc
    cases hv : digitValue c with
    | none =>
        rw [hv] at hc
        exact absurd hc Bool.false_ne_true
    | some d => exact ⟨d, rfl, Nat.pos_of_ne_zero fun h0 => digitValue_ne_zero hne (h0 ▸ hv)⟩
  obtain ⟨d, hd, hpos⟩ := hval
  rw [List.takeWhile_cons, if_pos hc, ← List.singleton_append, digitsMag_append]
  have hone : digitsMag radix [c] = d := by
    rw [digitsMag, List.reverse_singleton, Positional.value_cons, Positional.value_nil, hd]
    rfl
  rw [hone]
  exact Nat.add_pos_left (Nat.mul_pos hpos (Nat.pow_pos (by have := hr.1; omega))) _

theorem significant_ne_nil_iff (hr : ValidRadix radix) {s : List Char} {v : Int}
    (h : denote radix s = some v) : significant s ≠ [] ↔ v ≠ 0 := by
  obtain ⟨-, hall, hval⟩ := denote_eq_some hr h
  cases hs : significant s with
  | nil =>
      rw [hs, digitsMag_nil] at hval
      simp [hval]
  | cons c t =>
      rw [hs] at hall hval
      have hc : isDigit radix c = true := List.all_eq_true.mp hall c List.mem_cons_self
      have hpos := first_block_pos (k := t.length) hr hs hc
      rw [List.take_length, List.takeWhile_eq_self_iff.mpr (List.all_eq_true.mp hall)] at hpos
      refine iff_of_true (List.cons_ne_nil c t) ?_
      rw [hval]
      split <;> omega

end PGBigNumber
