import PGBigNumber.Bytes
import PGBigNumber.Store.Int64

/-!
# Assignment from bytes

`assign(const void *, SizeType, bool)` on a little-endian host.
-/

namespace PGBigNumber

namespace Store

/-- The part of the assignment after the stripping; the bytes come in little-endian order. -/
def storeBytes (σ : Store) (i : Nat) (negative : Bool) (bytes : List UInt8) : Store :=
  let u32s := limbCount bytes.length
  let σ := σ.putMag i ((σ.mag i).slice 0 u32s)
  let σ := σ.putMag i ((σ.mag i).assign (List.replicate u32s 0))
  if negative && bytes.all (· == 0) then σ.putMag i ((σ.mag i).append 1)
  else
    let bytes := if negative then negateBytes bytes else bytes
    let σ := σ.putMag i ((σ.mag i).assign (packLimbs bytes))
    let σ := σ.putMag i (eraseZerosSuffix (σ.mag i))
    if (σ.mag i).count = 0 then σ.beZero i else σ

def assignBytes (σ : Store) (i : Nat) (bin : List UInt8) (little : Bool) : Store :=
  let σ := (σ.beginWrite i).cloneData i
  if bin = [] then
    let σ := σ.setFlags i .zro
    σ.putMag i ((σ.mag i).slice 0 0)
  else
    let negative := isNegByte (if little then bin.getLastD 0 else bin.headD 0)
    let σ := σ.setFlags i (if negative then .neg else .pos)
    let sign := signByte negative
    let bin := if little then bin.rdropWhile (· == sign) else bin.dropWhile (· == sign)
    if bin = [] then
      if negative then
        let σ := σ.putMag i ((σ.mag i).slice 0 1)
        σ.putMag i ((σ.mag i).set 0 1)
      else
        let σ := σ.setFlags i .zro
        σ.putMag i ((σ.mag i).slice 0 0)
    else σ.storeBytes i negative (if little then bin else bin.reverse)

variable {σ σ₁ : Store} {i : Nat} {R : Nat → Prop} {bin : List UInt8} {t : Sign} {l : List UInt32}

private theorem Opened.clear (ho : Opened σ i R t l σ₁) (hi : i < σ.live) :
    Opened σ i R t [] (σ₁.putMag i ((σ₁.mag i).slice 0 0)) := by
  have hput := ho.put (Slice.slice_wf (ho.wf_mag hi) (Nat.le_refl 0))
  rwa [Slice.toList_slice (ho.wf_mag hi) (Nat.le_refl 0) (Nat.zero_le _)] at hput

private theorem Opened.assign (ho : Opened σ i R t l σ₁) (hi : i < σ.live) {m : List UInt32}
    (hm : m.length = (σ₁.mag i).count) :
    Opened σ i R t m (σ₁.putMag i ((σ₁.mag i).assign m)) := by
  have hput := ho.put (Slice.assign_wf (ho.wf_mag hi) m)
  rwa [Slice.toList_assign (ho.wf_mag hi) hm] at hput

def littleOf (bin : List UInt8) (little : Bool) : List UInt8 := if little then bin else bin.reverse

private theorem getLastD_reverse (bin : List UInt8) : bin.reverse.getLastD 0 = bin.headD 0 := by
  cases bin with
  | nil => rfl
  | cons byte bin => rw [List.reverse_cons, List.getLastD_concat, List.headD_cons]

private theorem storeBytes_puts {b : Bool} {bytes : List UInt8}
    (ho : Opened σ i R (if b then .neg else .pos) l σ₁) (hi : i < σ.live) :
    Puts σ i R
      (if b && bytes.all (· == 0) then
        Num.signed false (List.replicate (limbCount bytes.length) 0 ++ [1])
      else
        let l := trim (packLimbs (if b then negateBytes bytes else bytes))
        if l = [] then Num.zero else Num.signed (!b) l)
      (σ₁.storeBytes i b bytes) := by
  have hslice := Slice.slice_wf (ho.wf_mag hi) (Nat.zero_le (limbCount bytes.length))
  have hcount : ((σ₁.mag i).slice 0 (limbCount bytes.length)).count = limbCount bytes.length := by
    rw [Slice.count_slice (Nat.zero_le _), Nat.sub_zero]
  unfold storeBytes
  dsimp only
  have hzero := (ho.put hslice).assign hi (m := List.replicate (limbCount bytes.length) 0)
    (by rw [mag_putMag_self, hcount, List.length_replicate])
  set σ₂ := (σ₁.putMag i ((σ₁.mag i).slice 0 (limbCount bytes.length))).putMag i
    (((σ₁.putMag i ((σ₁.mag i).slice 0 (limbCount bytes.length))).mag i).assign
      (List.replicate (limbCount bytes.length) 0))
  have hwf := hzero.wf_mag hi
  by_cases hall : (b && bytes.all (· == 0)) = true
  · have hput := hzero.put (Slice.append_wf hwf 1)
    rw [if_pos hall, if_pos hall]
    rw [Slice.toList_append hwf, hzero.toList, if_pos (Bool.and_eq_true_iff.mp hall).1] at hput
    exact hput.puts
  rw [if_neg hall, if_neg hall]
  set m := packLimbs (if b then negateBytes bytes else bytes)
  have hlen : m.length = (σ₂.mag i).count := by
    have hm : m.length = limbCount bytes.length := by
      rw [length_packLimbs]
      cases b
      · rfl
      · rw [if_pos rfl, length_negateBytes]
    rw [hm, ← Slice.length_toList hwf, hzero.toList, List.length_replicate]
  have hcopy := hzero.assign hi hlen
  set σ₃ := σ₂.putMag i ((σ₂.mag i).assign m)
  have herase := hcopy.put (eraseZerosSuffix_wf (hcopy.wf_mag hi))
  rw [toList_eraseZerosSuffix (hcopy.wf_mag hi), hcopy.toList] at herase
  have hend := herase.puts.zeroIfEmpty hi
  cases b <;> exact hend

theorem assignBytes_puts (h : σ.Wf) (hi : i < σ.live) (bin : List UInt8) (little : Bool) :
    Puts σ i R (Num.ofBytes (littleOf bin little)) (σ.assignBytes i bin little) := by
  have hsign : (if little then bin.getLastD 0 else bin.headD 0) = (littleOf bin little).getLastD 0 := by
    cases little
    · exact (getLastD_reverse bin).symm
    · rfl
  have hstrip : ∀ x : UInt8,
      littleOf (if little then bin.rdropWhile (· == x) else bin.dropWhile (· == x)) little =
        (littleOf bin little).rdropWhile (· == x) := by
    intro x
    cases little
    · simp [littleOf, List.rdropWhile]
    · simp [littleOf]
  have hnil : ∀ l : List UInt8, littleOf l little = [] ↔ l = [] := by
    intro l
    cases little <;> simp [littleOf]
  by_cases hbin : bin = []
  · rw [hbin, (hnil []).mpr rfl, show Num.ofBytes [] = Num.zero by decide, assignBytes, if_pos rfl]
    exact ((opened_ready h hi .zro).clear hi).puts
  unfold assignBytes Num.ofBytes
  dsimp only
  rw [hsign, if_neg hbin]
  generalize isNegByte ((littleOf bin little).getLastD 0) = b
  have ho := opened_ready (R := R) h hi (if b then .neg else .pos)
  rw [← hstrip]
  set bytes := if little then bin.rdropWhile (· == signByte b) else bin.dropWhile (· == signByte b)
  simp only [hnil]
  by_cases hbytes : bytes = []
  · rw [if_pos hbytes, if_pos hbytes]
    cases b with
    | true =>
      rw [if_pos rfl, if_pos rfl, mag_putMag_self]
      have hslice := Slice.slice_wf (ho.wf_mag hi) (Nat.zero_le 1)
      have hput := (ho.put hslice).put (Slice.set_wf hslice 0 1)
      have hlen := Slice.length_toList hslice
      rw [Slice.count_slice (Nat.zero_le 1)] at hlen
      obtain ⟨x, hx⟩ := List.length_eq_one_iff.mp hlen
      rw [Slice.toList_set, hx, List.set_cons_zero] at hput
      exact hput.puts
    | false =>
      rw [if_neg (by decide), if_neg (by decide)]
      exact ((ho.setFlags .zro).clear hi).puts
  · rw [if_neg hbytes, if_neg hbytes]
    exact storeBytes_puts ho hi

/-- Bytes of either order are stored exactly, and as those of the other order, unless they are
misaligned. -/
theorem assignBytes_exact_iff (h : σ.Wf) (hi : i < σ.live) (bin : List UInt8) (little : Bool) :
    ((σ.assignBytes i bin little).num i = Num.ofInt (bytesInt (littleOf bin little)) ∧
      (σ.assignBytes i bin little).num i = (σ.assignBytes i bin.reverse (!little)).num i) ↔
      ¬ Misaligned (littleOf bin little) := by
  have hother : littleOf bin.reverse (!little) = littleOf bin little := by
    cases little <;> simp [littleOf]
  rw [(assignBytes_puts (R := fun _ => False) h hi bin little).num,
    (assignBytes_puts (R := fun _ => False) h hi bin.reverse (!little)).num, hother,
    Num.ofBytes_eq_iff]
  exact ⟨fun hboth => hboth.1, fun hgood => ⟨hgood, rfl⟩⟩

theorem assignBytes_exact_ten :
    ((pair 5 7).assignBytes 0 [0xfe, 0xff, 0, 1, 2, 3, 4, 5, 6, 0x80] true).num 0 =
      Num.ofInt (bytesInt [0xfe, 0xff, 0, 1, 2, 3, 4, 5, 6, 0x80]) := by
  obtain ⟨hwf, hlive, -, -⟩ := pair_spec 5 7
  refine ((assignBytes_exact_iff hwf (i := 0) (by omega) _ true).mpr ?_).1
  rw [Num.misaligned_iff]
  decide

/-- The string `00 FF` is -256 and is stored as `-2 ^ 32`. -/
theorem assignBytes_misaligned :
    bytesInt [0, 0xff] = -256 ∧ ((pair 5 7).assignBytes 0 [0, 0xff] true).num 0 = Num.ofInt (-2 ^ 32) ∧
      ((pair 5 7).assignBytes 0 [0, 0xff] true).num 0 ≠ Num.ofInt (bytesInt [0, 0xff]) := by
  obtain ⟨hwf, hlive, -, -⟩ := pair_spec 5 7
  rw [(assignBytes_puts (R := fun _ => False) hwf (i := 0) (by omega) _ true).num]
  decide

end Store

end PGBigNumber
