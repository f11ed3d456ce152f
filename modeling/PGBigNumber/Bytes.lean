import PGBigNumber.Number

/-!
# Bytes

`assign(const void *, SizeType, bool)` strips the sign bytes from a two's complement string,
negates what is left of a negative one and copies the bytes into limbs.
-/

namespace PGBigNumber

def isNegByte (byte : UInt8) : Bool := decide (0x80 ≤ byte)

def signByte (negative : Bool) : UInt8 := if negative then 0xff else 0

def limbOfBytes (bytes : List UInt8) : UInt32 :=
  UInt32.ofNat (Positional.value UInt8.toNat 256 bytes)

def packLimbs : List UInt8 → List UInt32
  | [] => []
  | a :: b :: c :: d :: bytes => limbOfBytes [a, b, c, d] :: packLimbs bytes
  | bytes => [limbOfBytes bytes]

/-- The loops that turn the bytes of a negative number into those of its magnitude. -/
def negateBytes : List UInt8 → List UInt8
  | [] => []
  | byte :: bytes =>
    if byte = 0 then 0 :: negateBytes bytes else -byte :: bytes.map (~~~ ·)

def limbCount (len : Nat) : Nat := len / 4 + if len % 4 ≠ 0 then 1 else 0

def Num.ofBytes (bin : List UInt8) : Num :=
  let negative := isNegByte (bin.getLastD 0)
  let bytes := bin.rdropWhile (· == signByte negative)
  if bytes = [] then if negative then negOne else zero
  else if negative && bytes.all (· == 0) then
    signed false (List.replicate (limbCount bytes.length) 0 ++ [1])
  else
    let l := trim (packLimbs (if negative then negateBytes bytes else bytes))
    if l = [] then zero else signed (!negative) l

def bytesMag (bytes : List UInt8) : Nat := Positional.value UInt8.toNat 256 bytes

/-- The integer with the sign `negative` and the low bytes `bytes`. -/
def bytesTwos (negative : Bool) (bytes : List UInt8) : Int :=
  bytesMag bytes - if negative then 256 ^ bytes.length else 0

/-- The integer whose two's complement form the little-endian string `bin` is. -/
def bytesInt (bin : List UInt8) : Int := bytesTwos (isNegByte (bin.getLastD 0)) bin

variable {bytes bin : List UInt8} {b : Bool}

theorem bytesMag_lt (bytes : List UInt8) : bytesMag bytes < 256 ^ bytes.length :=
  Positional.value_lt UInt8.toNat_lt bytes

@[simp]
theorem bytesMag_nil : bytesMag [] = 0 := rfl

@[simp]
theorem bytesMag_cons (byte : UInt8) (bytes : List UInt8) :
    bytesMag (byte :: bytes) = byte.toNat + 256 * bytesMag bytes :=
  Positional.value_cons ..

theorem bytesMag_eq_zero_iff (bytes : List UInt8) :
    bytesMag bytes = 0 ↔ bytes.all (· == 0) = true := by
  rw [bytesMag, Positional.value_eq_zero_iff (by decide), List.all_eq_true]
  simp only [beq_iff_eq, ← UInt8.toNat_inj, UInt8.toNat_zero]

private theorem bytesTwos_concat (b : Bool) (bytes : List UInt8) :
    bytesTwos b (bytes ++ [signByte b]) = bytesTwos b bytes := by
  have hcat : bytesMag (bytes ++ [signByte b]) =
      bytesMag bytes + 256 ^ bytes.length * (signByte b).toNat := Positional.value_concat ..
  unfold bytesTwos
  rw [hcat, List.length_append, List.length_singleton]
  cases b
  · simp [signByte]
  · simp only [signByte, if_true, Nat.cast_add, Nat.cast_mul, Nat.cast_pow, Nat.cast_ofNat,
      pow_succ (256 : Int) bytes.length]
    have h255 : (UInt8.toNat 0xff : Int) = 255 := rfl
    rw [h255]
    ring

theorem bytesTwos_rdropWhile (b : Bool) (bytes : List UInt8) :
    bytesTwos b (bytes.rdropWhile (· == signByte b)) = bytesTwos b bytes := by
  induction bytes using List.reverseRecOn with
  | nil => rfl
  | append_singleton bytes byte ih =>
      rw [List.rdropWhile_concat]
      by_cases hbyte : byte = signByte b
      · rw [if_pos (by simpa using hbyte), ih, hbyte, bytesTwos_concat]
      · rw [if_neg (by simpa using hbyte)]

private theorem toNat_limbOfBytes (h : bytes.length ≤ 4) :
    (limbOfBytes bytes).toNat = bytesMag bytes := by
  have hlt := bytesMag_lt bytes
  have hpow : 256 ^ bytes.length ≤ 256 ^ 4 := Nat.pow_le_pow_right (by decide) h
  rw [limbOfBytes, toNat_ofNat_u32, ← bytesMag]
  exact Nat.mod_eq_of_lt (by omega)

theorem mag_packLimbs (bytes : List UInt8) : mag (packLimbs bytes) = bytesMag bytes := by
  induction bytes using packLimbs.induct with
  | case1 => rfl
  | case2 a b c d bytes ih =>
      rw [packLimbs, mag_cons, ih, toNat_limbOfBytes (by simp)]
      simp only [bytesMag_cons, bytesMag_nil]
      omega
  | case3 bytes hnil hcons =>
      have hlen : bytes.length ≤ 4 := by
        match bytes, hcons with
        | [], _ | [_], _ | [_, _], _ | [_, _, _], _ => simp
        | a :: b :: c :: d :: bytes, hcons => exact absurd rfl (hcons a b c d bytes)
      rw [packLimbs.eq_3 _ hnil hcons, mag_singleton, toNat_limbOfBytes hlen]

theorem length_packLimbs (bytes : List UInt8) :
    (packLimbs bytes).length = limbCount bytes.length := by
  induction bytes using packLimbs.induct with
  | case1 => rfl
  | case2 a b c d bytes ih =>
      have hstep : limbCount (bytes.length + 4) = limbCount bytes.length + 1 := by
        rw [limbCount, limbCount, Nat.add_mod_right]
        omega
      rw [packLimbs, List.length_cons, ih]
      exact hstep.symm
  | case3 bytes hnil hcons =>
      rw [packLimbs.eq_3 _ hnil hcons]
      match bytes, hnil, hcons with
      | [_], _, _ | [_, _], _, _ | [_, _, _], _, _ => simp [limbCount]
      | a :: b :: c :: d :: bytes, _, hcons => exact absurd rfl (hcons a b c d bytes)

private theorem bytesMag_map_not (bytes : List UInt8) :
    bytesMag (bytes.map (~~~ ·)) + 1 + bytesMag bytes = 256 ^ bytes.length := by
  induction bytes with
  | nil => rfl
  | cons byte bytes ih =>
      have hlt := byte.toNat_lt
      rw [List.map_cons, bytesMag_cons, bytesMag_cons, List.length_cons,
        pow_succ 256 bytes.length, ← ih, UInt8.toNat_not, show UInt8.size = 2 ^ 8 from rfl]
      omega

/-- The negation is one of the magnitude, unless every byte is zero. -/
theorem bytesMag_negateBytes (h : bytesMag bytes ≠ 0) :
    bytesMag (negateBytes bytes) + bytesMag bytes = 256 ^ bytes.length := by
  induction bytes with
  | nil => exact absurd rfl h
  | cons byte bytes ih =>
      rw [bytesMag_cons] at h
      rw [negateBytes, List.length_cons, pow_succ 256 bytes.length]
      by_cases h0 : byte = 0
      · rw [if_pos h0]
        rw [h0, UInt8.toNat_zero] at h
        have hrest := ih (by omega)
        rw [h0, bytesMag_cons, bytesMag_cons, UInt8.toNat_zero, ← hrest]
        omega
      · have hlt := byte.toNat_lt
        have hpos : byte.toNat ≠ 0 := fun he => h0 (UInt8.toNat_inj.mp he)
        have hneg : (-byte).toNat = 256 - byte.toNat := by
          rw [UInt8.toNat_neg, show UInt8.size = 256 from rfl, Nat.mod_eq_of_lt (by omega)]
        rw [if_neg h0, bytesMag_cons, bytesMag_cons, hneg, ← bytesMag_map_not bytes]
        omega

theorem length_negateBytes (bytes : List UInt8) : (negateBytes bytes).length = bytes.length := by
  induction bytes with
  | nil => rfl
  | cons byte bytes ih =>
      rw [negateBytes]
      split <;> simp [ih]

/-- A zero remainder of a negative string that does not fill whole limbs. -/
def Misaligned (bin : List UInt8) : Prop :=
  ∃ n m, n % 4 ≠ 0 ∧ 0 < m ∧ bin = List.replicate n 0 ++ List.replicate m 0xff

namespace Num

private theorem mag_top (n : Nat) :
    mag (List.replicate n 0 ++ [1]) = (2 ^ 32) ^ n := by
  rw [mag_zeros_append, mag_singleton]
  exact Nat.mul_one _

private theorem pow_limbCount (n : Nat) : (2 ^ 32) ^ limbCount n = 256 ^ n ↔ n % 4 = 0 := by
  have hpow : ∀ k, (2 ^ 32) ^ k = 256 ^ (4 * k) := fun k => by
    rw [pow_mul, show 2 ^ 32 = 256 ^ 4 from rfl]
  rw [hpow, Nat.pow_right_inj (by decide), limbCount]
  split <;> omega

theorem ofBytes_canon (bin : List UInt8) : (ofBytes bin).Canon := by
  unfold ofBytes
  dsimp only
  generalize isNegByte (bin.getLastD 0) = b
  by_cases hnil : bin.rdropWhile (· == signByte b) = []
  · rw [if_pos hnil]
    cases b
    · exact zero_eq_ofInt ▸ ofInt_canon 0
    · exact negOne_eq_ofInt ▸ ofInt_canon (-1)
  rw [if_neg hnil]
  split
  · rw [signed_eq_ofInt _ (by simp) (trimmed_concat (by decide))]
    exact ofInt_canon _
  · rw [signed_or_zero _ (trimmed_trim _)]
    exact ofInt_canon _

private theorem rdropWhile_replicate (n m : Nat) :
    (List.replicate n (0 : UInt8) ++ List.replicate m 0xff).rdropWhile (· == 0xff) =
      List.replicate n 0 := by
  induction m with
  | zero =>
      rw [List.replicate_zero, List.append_nil]
      cases n with
      | zero => rfl
      | succ n => rw [List.replicate_succ', List.rdropWhile_concat, if_neg (by decide)]
  | succ m ih =>
      rw [List.replicate_succ', ← List.append_assoc, List.rdropWhile_concat, if_pos (by decide), ih]

private theorem append_sign_bytes (x : UInt8) (bytes : List UInt8) :
    ∃ m, bytes = bytes.rdropWhile (· == x) ++ List.replicate m x := by
  induction bytes using List.reverseRecOn with
  | nil => exact ⟨0, rfl⟩
  | append_singleton bytes byte ih =>
      rw [List.rdropWhile_concat]
      by_cases hbyte : byte = x
      · obtain ⟨m, hm⟩ := ih
        rw [if_pos (by simpa using hbyte), hbyte]
        refine ⟨m + 1, ?_⟩
        rw [List.replicate_succ', ← List.append_assoc, ← hm]
      · rw [if_neg (by simpa using hbyte)]
        exact ⟨0, (List.append_nil _).symm⟩

theorem misaligned_iff (bin : List UInt8) :
    Misaligned bin ↔ isNegByte (bin.getLastD 0) = true ∧
      (bin.rdropWhile (· == 0xff)).all (· == 0) = true ∧
      (bin.rdropWhile (· == 0xff)).length % 4 ≠ 0 := by
  constructor
  · rintro ⟨n, m, hn, hm, rfl⟩
    rw [rdropWhile_replicate]
    refine ⟨?_, by simp, by simpa using hn⟩
    obtain ⟨m, rfl⟩ := Nat.exists_eq_succ_of_ne_zero hm.ne'
    rw [List.replicate_succ', ← List.append_assoc, List.getLastD_concat]
    rfl
  · rintro ⟨hneg, hall, hlen⟩
    obtain ⟨m, hm⟩ := append_sign_bytes 0xff bin
    set bytes := bin.rdropWhile (· == 0xff)
    have hzeros : bytes = List.replicate bytes.length 0 :=
      List.eq_replicate_iff.mpr ⟨rfl, by simpa using hall⟩
    rw [hzeros] at hm
    refine ⟨bytes.length, m, hlen, ?_, hm⟩
    by_contra hm0
    obtain ⟨n, hn⟩ := Nat.exists_eq_succ_of_ne_zero (show bytes.length ≠ 0 by omega)
    rw [show m = 0 by omega, List.replicate_zero, List.append_nil, hn, List.replicate_succ'] at hm
    rw [hm, List.getLastD_concat] at hneg
    exact absurd hneg (by decide)

theorem ofBytes_eq_iff (bin : List UInt8) :
    ofBytes bin = ofInt (bytesInt bin) ↔ ¬ Misaligned bin := by
  rw [misaligned_iff, bytesInt, ofBytes]
  dsimp only
  generalize isNegByte (bin.getLastD 0) = b
  rw [← bytesTwos_rdropWhile b bin]
  cases b with
  | false =>
    set bytes := bin.rdropWhile (· == signByte false)
    have hval : bytesTwos false bytes = signedInt true (trim (packLimbs bytes)) := by
      rw [signedInt_true, mag_trim, mag_packLimbs]
      simp [bytesTwos]
    simp only [Bool.false_and, Bool.false_eq_true, if_false, false_and, not_false_iff, iff_true,
      Bool.not_false, hval, ← signed_or_zero true (trimmed_trim _)]
    by_cases hnil : bytes = []
    · rw [if_pos hnil, hnil]
      rfl
    · rw [if_neg hnil]
  | true =>
    have hff : signByte true = 0xff := rfl
    rw [hff]
    set bytes := bin.rdropWhile (· == 0xff)
    simp only [Bool.true_and, if_true, true_and, Bool.not_true]
    by_cases hnil : bytes = []
    · rw [if_pos hnil, hnil, negOne_eq_ofInt]
      simp [bytesTwos]
    rw [if_neg hnil]
    by_cases hall : bytes.all (· == 0) = true
    · rw [if_pos hall, signed_eq_ofInt _ (by simp) (trimmed_concat (by decide)), signedInt_false,
        mag_top]
      have h0 := (bytesMag_eq_zero_iff bytes).mpr hall
      rw [show bytesTwos true bytes = -((256 ^ bytes.length : Nat) : Int) by simp [bytesTwos, h0]]
      have hiff := pow_limbCount bytes.length
      constructor
      · intro heq hbad
        have hpow := ofInt_injective heq
        exact hbad.2 (hiff.mp (by exact_mod_cast Int.neg_inj.mp hpow))
      · intro hgood
        rw [hiff.mpr (by by_contra hne; exact hgood ⟨hall, hne⟩)]
    · rw [if_neg hall, signed_or_zero false (trimmed_trim _), signedInt_false, mag_trim,
        mag_packLimbs]
      have hne : bytesMag bytes ≠ 0 := fun h0 => hall ((bytesMag_eq_zero_iff bytes).mp h0)
      have hneg := bytesMag_negateBytes hne
      have hval : bytesTwos true bytes = -(bytesMag (negateBytes bytes) : Int) := by
        rw [bytesTwos, if_pos rfl]
        have hcast : ((256 ^ bytes.length : Nat) : Int) = (256 : Int) ^ bytes.length := by simp
        rw [← hcast, ← hneg]
        omega
      rw [hval]
      exact ⟨fun _ hbad => hall hbad.1, fun _ => rfl⟩

end Num

end PGBigNumber
