import PGBigNumber.Bits
import PGBigNumber.Store.AssignBytes

/-!
# Export of the magnitude

`copyMagDataTo` on a little-endian host: the limbs as bytes, cut where the bit count says.
-/

namespace PGBigNumber

def limbBytes (x : UInt32) : List UInt8 := (List.range 4).map fun k => UInt8.ofNat (x.toNat / 256 ^ k)

def magBytes (l : List UInt32) : List UInt8 := l.flatMap limbBytes

def ceilDivide (dividend divisor : Nat) : Nat :=
  dividend / divisor + if dividend % divisor ≠ 0 then 1 else 0

namespace Store

/-- `getMagBitCount`: the bits of the top limb and the number of full limbs. -/
def getMagBitCount (σ : Store) (i : Nat) : Nat × Nat :=
  if σ.isZero i then (0, 0)
  else
    let q := (σ.mag i).count - 1
    let r := 32 - clz ((σ.mag i).get q)
    if r = 32 then (0, q + 1) else (r, q)

/-- `copyMagDataTo`: the bytes written to `dest`; their number is the result. -/
def copyMagDataTo (σ : Store) (i maxlen : Nat) : List UInt8 :=
  if σ.isZero i then []
  else
    let (bitCountR, bitCountQ) := σ.getMagBitCount i
    let byteCount := ceilDivide bitCountR 8 + bitCountQ * 4
    (magBytes (σ.limbs i)).take (min maxlen byteCount)

end Store

variable {l : List UInt32} {bytes : List UInt8}

theorem bytesMag_append (s t : List UInt8) :
    bytesMag (s ++ t) = bytesMag s + 256 ^ s.length * bytesMag t := Positional.value_append ..

private theorem length_limbBytes (x : UInt32) : (limbBytes x).length = 4 := rfl

private theorem bytesMag_limbBytes (x : UInt32) : bytesMag (limbBytes x) = x.toNat := by
  have hx := x.toNat_lt
  have hmap : limbBytes x = [UInt8.ofNat (x.toNat / 256 ^ 0), UInt8.ofNat (x.toNat / 256 ^ 1),
    UInt8.ofNat (x.toNat / 256 ^ 2), UInt8.ofNat (x.toNat / 256 ^ 3)] := rfl
  rw [hmap]
  simp only [bytesMag_cons, bytesMag_nil, UInt8.toNat_ofNat']
  omega

theorem bytesMag_magBytes (l : List UInt32) : bytesMag (magBytes l) = mag l := by
  induction l with
  | nil => rfl
  | cons x l ih =>
      rw [magBytes, List.flatMap_cons, bytesMag_append, ← magBytes, ih, bytesMag_limbBytes,
        length_limbBytes, mag_cons, show 256 ^ 4 = 2 ^ 32 from rfl]

theorem length_magBytes (l : List UInt32) : (magBytes l).length = 4 * l.length := by
  induction l with
  | nil => rfl
  | cons x l ih =>
      rw [magBytes, List.flatMap_cons, List.length_append, ← magBytes, ih, length_limbBytes,
        List.length_cons]
      omega

private theorem bytesMag_take {k : Nat} (hk : k ≤ bytes.length) (h : bytesMag bytes < 256 ^ k) :
    bytesMag (bytes.take k) = bytesMag bytes := by
  have hsplit := Positional.value_take_drop UInt8.toNat 256 k bytes hk
  rw [← bytesMag, ← bytesMag, ← bytesMag] at hsplit
  have hdrop : bytesMag (bytes.drop k) = 0 := by
    by_contra hne
    have := Nat.le_mul_of_pos_right (256 ^ k) (Nat.pos_of_ne_zero hne)
    omega
  rw [hsplit, hdrop, Nat.mul_zero, Nat.add_zero]

private theorem getLast?_ne_zero (h : bytes ≠ [] → 256 ^ (bytes.length - 1) ≤ bytesMag bytes) :
    bytes.getLast? ≠ some 0 := by
  intro hlast
  obtain ⟨s, rfl⟩ := List.getLast?_eq_some_iff.mp hlast
  have hlow := h (by simp)
  have hlt := bytesMag_lt s
  have hzero : bytesMag [0] = 0 := rfl
  rw [bytesMag_append, hzero, Nat.mul_zero, List.length_append, List.length_singleton,
    Nat.add_sub_cancel] at hlow
  omega

namespace Store

variable {σ : Store} {i : Nat}

private theorem byteCount_eq (h : σ.Wf) (hi : i < σ.live) (hx : (σ.num i).Canon)
    (hz : ¬ σ.isZero i = true) :
    ceilDivide (σ.getMagBitCount i).1 8 + (σ.getMagBitCount i).2 * 4 =
      ((PGBigNumber.mag (σ.limbs i)).size + 7) / 8 := by
  have hne : σ.limbs i ≠ [] := fun h0 => hz (hx.zero_iff.mpr h0)
  have hlen := h.length_limbs hi
  have hpos := List.length_pos_of_ne_nil hne
  obtain ⟨hsize, hlow, hhigh⟩ := size_mag hx.trimmed hne
  rw [num_limbs] at hsize hlow hhigh
  have hlast := get_last h hi (by omega)
  unfold getMagBitCount
  rw [if_neg hz, hsize, hlen]
  dsimp only
  rw [hlast]
  unfold ceilDivide
  split
  · split <;> omega
  · split <;> omega

private theorem ofBytes_positive (bytes : List UInt8) :
    Num.ofBytes (bytes ++ [0]) = Num.ofInt (bytesMag bytes) := by
  have hval : bytesInt (bytes ++ [0]) = bytesMag bytes := by
    rw [bytesInt, List.getLastD_concat, bytesTwos, bytesMag_append]
    simp [isNegByte]
  rw [← hval, Num.ofBytes_eq_iff, Num.misaligned_iff, List.getLastD_concat]
  exact fun hbad => absurd hbad.1 (by decide)

/-- `copyMagDataTo` writes the low bytes of the minimal byte string of `|x|`, which reads back. -/
theorem copyMagDataTo_exact (h : σ.Wf) (hi : i < σ.live) (hx : (σ.num i).Canon) :
    ∃ bytes : List UInt8, bytesMag bytes = (σ.num i).toInt.natAbs ∧ bytes.getLast? ≠ some 0 ∧
      bytes.length = ((σ.num i).toInt.natAbs.size + 7) / 8 ∧
      (∀ maxlen, σ.copyMagDataTo i maxlen = bytes.take maxlen) ∧
      ∀ j < σ.live,
        (σ.assignBytes j (bytes ++ [0]) true).num j = Num.ofInt (σ.num i).toInt.natAbs ∧
        (σ.assignBytes j (bytes ++ [0]).reverse false).num j =
          Num.ofInt (σ.num i).toInt.natAbs := by
  have hmag : (σ.num i).toInt.natAbs = PGBigNumber.mag (σ.limbs i) := by
    have hval := Num.mag_ofInt (σ.num i).toInt
    rw [← hx.eq_ofInt, num_limbs] at hval
    exact hval.symm
  rw [hmag]
  set m := PGBigNumber.mag (σ.limbs i) with hm
  set k := (m.size + 7) / 8 with hk
  have hpow : ∀ n, 256 ^ n = 2 ^ (8 * n) := fun n => by rw [Nat.pow_mul, show 2 ^ 8 = 256 from rfl]
  have hlt : m < 256 ^ k := by
    rw [hpow]
    exact Nat.lt_of_lt_of_le m.lt_size_self (Nat.pow_le_pow_right (by decide) (by omega))
  have hle : k ≤ (magBytes (σ.limbs i)).length := by
    have hsize : m.size ≤ 32 * (σ.limbs i).length := by
      rw [Nat.size_le, Nat.pow_mul]
      exact mag_lt (σ.limbs i)
    rw [length_magBytes]
    omega
  have hbytes : bytesMag ((magBytes (σ.limbs i)).take k) = m := by
    rw [bytesMag_take hle (by rwa [bytesMag_magBytes]), bytesMag_magBytes]
  have hlen : ((magBytes (σ.limbs i)).take k).length = k := by
    rw [List.length_take, Nat.min_eq_left hle]
  refine ⟨(magBytes (σ.limbs i)).take k, hbytes, getLast?_ne_zero fun hne => ?_, hlen, fun maxlen => ?_,
    fun j hj => ⟨?_, ?_⟩⟩
  · have hpos := List.length_pos_of_ne_nil hne
    rw [hbytes, hlen, hpow, ← Nat.lt_size]
    omega
  · unfold copyMagDataTo
    by_cases hz : σ.isZero i = true
    · have hnil : σ.limbs i = [] := hx.zero_iff.mp hz
      rw [if_pos hz, hnil, show magBytes [] = [] from rfl, List.take_nil, List.take_nil]
    · rw [if_neg hz]
      dsimp only
      rw [byteCount_eq h hi hx hz, List.take_take]
  · rw [(assignBytes_puts (R := fun _ => False) h hj _ true).num, littleOf, if_pos rfl,
      ofBytes_positive, hbytes]
  · rw [(assignBytes_puts (R := fun _ => False) h hj _ false).num, littleOf,
      if_neg Bool.false_ne_true, List.reverse_reverse, ofBytes_positive, hbytes]

theorem copyMagDataTo_pair : ∃ bytes : List UInt8, bytesMag bytes = 2 ^ 40 ∧
    bytes.length = 6 ∧ (pair (-(2 ^ 40)) 3).copyMagDataTo 0 100 = bytes := by
  obtain ⟨hwf, hlive, h0, -⟩ := pair_spec (-(2 ^ 40)) 3
  rw [Num.ofI64_eq (by decide) (by decide)] at h0
  obtain ⟨bytes, hval, -, hlen, hcopy, -⟩ :=
    copyMagDataTo_exact hwf (i := 0) (by omega) (h0 ▸ Num.ofInt_canon _)
  rw [h0, Num.toInt_ofInt] at hval hlen
  refine ⟨bytes, hval, hlen, ?_⟩
  rw [hcopy, List.take_of_length_le (by rw [hlen]; decide)]

end Store

/-- The bytes of a magnitude, the lowest one first and none of them superfluous. -/
def magnitudeBytes (n : Nat) : List UInt8 := (Nat.digits 256 n).map UInt8.ofNat

private theorem map_toNat_magnitudeBytes (n : Nat) :
    (magnitudeBytes n).map UInt8.toNat = Nat.digits 256 n := by
  rw [magnitudeBytes, List.map_map]
  refine (List.map_congr_left fun d hd => ?_).trans (List.map_id _)
  have hlt := Nat.digits_lt_base (by decide) hd
  rw [Function.comp_apply, UInt8.toNat_ofNat', id]
  omega

private theorem eq_magnitudeBytes (h : bytes.getLast? ≠ some 0) :
    bytes = magnitudeBytes (bytesMag bytes) := by
  have hdigits : Nat.digits 256 (bytesMag bytes) = bytes.map UInt8.toNat := by
    refine Nat.digits_ofDigits 256 (by decide) _ (fun d hd => ?_) fun hne hzero => h ?_
    · obtain ⟨x, -, rfl⟩ := List.mem_map.mp hd
      exact x.toNat_lt
    · have hbytes : bytes ≠ [] := fun hnil => hne (by rw [hnil, List.map_nil])
      rw [List.getLast_map] at hzero
      have hlast : bytes.getLast hbytes = 0 := UInt8.toNat_inj.mp hzero
      rw [List.getLast?_eq_some_getLast hbytes, hlast]
  have hinj : Function.Injective (List.map UInt8.toNat) :=
    List.map_injective_iff.mpr fun _ _ => UInt8.toNat_inj.mp
  exact hinj (by rw [map_toNat_magnitudeBytes, hdigits])

private theorem take_magBytes (l : List UInt32) :
    (magBytes l).take (((mag l).size + 7) / 8) = magnitudeBytes (mag l) := by
  set m := mag l with hm
  set k := (m.size + 7) / 8 with hk
  have hpow : ∀ n, 256 ^ n = 2 ^ (8 * n) := fun n => by rw [Nat.pow_mul, show 2 ^ 8 = 256 from rfl]
  have hlt : m < 256 ^ k := by
    rw [hpow]
    exact Nat.lt_of_lt_of_le m.lt_size_self (Nat.pow_le_pow_right (by decide) (by omega))
  have hle : k ≤ (magBytes l).length := by
    have hsize : m.size ≤ 32 * l.length := by
      rw [Nat.size_le, Nat.pow_mul]
      exact mag_lt l
    rw [length_magBytes]
    omega
  have hbytes : bytesMag ((magBytes l).take k) = m := by
    rw [bytesMag_take hle (by rwa [bytesMag_magBytes]), bytesMag_magBytes]
  have hlen : ((magBytes l).take k).length = k := by rw [List.length_take, Nat.min_eq_left hle]
  have hlast : ((magBytes l).take k).getLast? ≠ some 0 := getLast?_ne_zero fun hne => by
    have hpos := List.length_pos_of_ne_nil hne
    rw [hbytes, hlen, hpow, ← Nat.lt_size]
    omega
  rw [eq_magnitudeBytes hlast, hbytes]

namespace Store

variable {σ : Store} {i : Nat}

theorem copyMagDataTo_eq {v : Int} (h : σ.Wf) (hi : i < σ.live) (hv : σ.num i = Num.ofInt v)
    (maxlen : Nat) : σ.copyMagDataTo i maxlen = (magnitudeBytes v.natAbs).take maxlen := by
  have hx : (σ.num i).Canon := hv ▸ Num.ofInt_canon v
  have hmag : PGBigNumber.mag (σ.limbs i) = v.natAbs := by rw [← num_limbs, hv, Num.mag_ofInt]
  unfold copyMagDataTo
  split
  · next hz =>
    have hnil : magnitudeBytes 0 = [] := by rw [magnitudeBytes, Nat.digits_zero, List.map_nil]
    rw [(isZero_iff hv).mp hz, Int.natAbs_zero, hnil, List.take_nil]
  next hz =>
  dsimp only
  rw [byteCount_eq h hi hx hz, ← List.take_take, take_magBytes, hmag]

end Store

end PGBigNumber
