import PGBigNumber.Store.Bitwise

/-!
# Checked conversions to machine integers

`getInt64`, `getUInt64` and their `try` forms, and the functions of the C interface for the same
purpose. When they are exact, and when the two interfaces agree.
-/

namespace PGBigNumber

namespace Store

/-- What a conversion gives back: a value, the flag and the store. -/
structure Checked (α : Type) where
  value : α
  ok : Bool
  store : Store

def getInt64 (σ : Store) (i : Nat) : Checked Int64 :=
  if σ.cmpI64 i Int64.maxValue.toInt > 0 ∨ σ.cmpI64 i Int64.minValue.toInt < 0 then
    ⟨Int64.maxValue, false, σ.setStatus .arithmeticOverflow⟩
  else
    let (u64, σ) := σ.toU64 i
    ⟨u64.toInt64, true, σ.setStatus .success⟩

/-- `BigInteger::tryGetInt64`: the value is the out-parameter and the flag is returned. -/
def tryGetInt64 (σ : Store) (i : Nat) : Checked Int64 :=
  let result := σ.getInt64 i
  ⟨result.value, result.ok, result.store⟩

def getU64Max (σ : Store) : Option Store :=
  let res := σ.live
  let σ := σ.pushDefault.assignI64 res Int64.maxValue.toInt
  (σ.shiftLeftAssign res 1).map fun σ => σ.orAssignI64 res 1

/-- `BigInteger::getUInt64`. The static constant is made anew in every call. -/
def getUInt64 (σ : Store) (i : Nat) : Option (Checked UInt64) :=
  σ.getU64Max.map fun (withMax : Store) =>
    if (σ.sign i).negative ∨ withMax.cmp i σ.live > 0 then
      ⟨UInt64.ofNat (2 ^ 64 - 1), false, σ.setStatus .arithmeticOverflow⟩
    else
      let (u64, σ) := σ.toU64 i
      ⟨u64.toInt64.toUInt64, true, σ.setStatus .success⟩

def tryGetUInt64 (σ : Store) (i : Nat) : Option (Checked UInt64) :=
  (σ.getUInt64 i).map fun result => ⟨result.value, result.ok, result.store⟩

def pgbnCmpWithI64 (σ : Store) (a : Nat) (i64 : Int64) : Int := σ.cmpI64 a i64.toInt

def pgbnGetInt64WithChecking (σ : Store) (b : Nat) : Checked Int64 :=
  if σ.pgbnCmpWithI64 b Int64.maxValue > 0 ∨ σ.pgbnCmpWithI64 b Int64.minValue < 0 then
    ⟨Int64.maxValue, false, σ.setStatus .arithmeticOverflow⟩
  else
    let (u64, σ) := σ.toU64 b
    ⟨u64.toInt64, true, σ.setStatus .success⟩

/-- `pgbn_BigInteger_GetUInt64WithChecking`: the bounds of `uint64_t` become `int64_t` arguments. -/
def pgbnGetUInt64WithChecking (σ : Store) (b : Nat) : Checked UInt64 :=
  if σ.pgbnCmpWithI64 b (UInt64.ofNat (2 ^ 64 - 1)).toInt64 > 0 ∨
      σ.pgbnCmpWithI64 b (UInt64.ofNat 0).toInt64 < 0 then
    ⟨UInt64.ofNat (2 ^ 64 - 1), false, σ.setStatus .arithmeticOverflow⟩
  else
    let (u64, σ) := σ.toU64 b
    ⟨u64.toInt64.toUInt64, true, σ.setStatus .success⟩

variable {σ : Store} {i : Nat} {α : Type}

private theorem mag_pushI64 {k : Int} (h0 : k ≠ 0) (htwo : ¬ Num.magI64 k < 2 ^ 32 - 1) :
    (σ.pushI64 k).mag σ.live =
      ⟨[0, UInt32.ofNat (Num.magI64 k), UInt32.ofNat (Num.magI64 k / 2 ^ 32)], 1, 3⟩ := by
  have hslice : ((σ.pushDefault.beginWrite σ.live).cloneData σ.live |>.mag σ.live).slice 0 2 =
      ⟨[0, 0, 0], 1, 3⟩ := by
    have hempty : (σ.pushDefault.beginWrite σ.live).mag σ.live = Slice.empty := by
      rw [mag_beginWrite, pushDefault, mag_newMag_self]
    unfold cloneData
    split
    · rw [hempty]
      rfl
    · rw [mag_newMag_self, hempty]
      rfl
  unfold pushI64 assignI64
  dsimp only
  rw [if_neg h0, if_neg htwo, if_pos rfl, mag_setFlags, hslice]
  simp only [mag_putMag_self]
  rfl

private theorem mag_ready_pushI64 {k : Int} (h0 : k ≠ 0) (htwo : ¬ Num.magI64 k < 2 ^ 32 - 1) :
    (((σ.pushI64 k).beginWrite σ.live).cloneData σ.live).mag σ.live = (σ.pushI64 k).mag σ.live := by
  unfold cloneData
  split
  · rw [mag_beginWrite]
  · rw [mag_newMag_self, mag_beginWrite, mag_pushI64 h0 htwo]
    rfl

/-- The constant is `2 ^ 64 - 1`: the shift leaves nothing beyond its two limbs, so the third limb
that `|=` reads is zero. -/
theorem getU64Max_pushes (h : σ.Wf) :
    ∃ σ₁, σ.getU64Max = some σ₁ ∧ Pushes σ (fun _ => False) (Num.ofInt (2 ^ 64 - 1)) σ₁ := by
  have hmax := pushI64_pushes (R := fun _ => False) h Int64.maxValue.toInt
  rw [Num.ofI64_eq (by decide) (by decide)] at hmax
  have hlive : σ.live < (σ.pushI64 Int64.maxValue.toInt).live := by rw [hmax.live]; omega
  have hshl : Num.shl ((σ.pushI64 Int64.maxValue.toInt).num σ.live) 1 =
      some (Num.ofInt (2 ^ 64 - 2)) := by
    rw [hmax.num, Num.shl_ofInt]
    rfl
  obtain ⟨σ₁, hrun, hputs⟩ := shiftLeftAssign_puts hmax.wf hlive hshl
  have hmag : σ₁.mag σ.live = ⟨[0, 0xfffffffe, 0xffffffff], 1, 3⟩ := by
    have hzero : (σ.pushI64 Int64.maxValue.toInt).isZero σ.live = false := by
      rw [isZero, ← num_sign, hmax.num]
      rfl
    rw [shiftLeftAssign, hzero, if_neg (by decide), if_pos (by decide)] at hrun
    dsimp only at hrun
    rw [mag_ready_pushI64 (by decide) (by decide), mag_pushI64 (by decide) (by decide)] at hrun
    obtain ⟨s, hs, rfl⟩ := Option.map_eq_some_iff.mp hrun
    rw [mag_putMag_self]
    exact Option.some.inj (hs.symm.trans (by decide))
  have hunspoiled : σ₁.Unspoiled σ.live (max (σ₁.mag σ.live).count 2 + 1) := by
    have hdata : σ₁.vec (σ₁.obj σ.live).data = [0, 0xfffffffe, 0xffffffff] :=
      congrArg Slice.data hmag
    have hhi : (σ₁.obj σ.live).hi = 3 := congrArg Slice.hi hmag
    refine Or.inr (Or.inr fun k hk _ => ?_)
    rw [hdata, List.getD_eq_default _ _ (by simp only [List.length_cons, List.length_nil]; omega)]
  have hcache : σ₁.CacheOk σ.live := hputs.cache fun j hj => hj ▸ hmax.cache fun _ hf => hf.elim
  have hor : Puts σ₁ σ.live (fun _ => False)
      (Num.ofInt (Int.lor (σ₁.num σ.live).toInt 1)) (σ₁.orAssignI64 σ.live 1) :=
    bitwiseWithI64_puts hputs.wf (by rwa [hputs.live]) (by rw [hputs.num]; exact Num.ofInt_canon _)
      hcache (by decide) hunspoiled limbAt_lor .lor
  rw [hputs.num, Num.toInt_ofInt] at hor
  refine ⟨σ₁.orAssignI64 σ.live 1, ?_, ?_⟩
  · rw [getU64Max]
    change Option.map _ ((σ.pushI64 Int64.maxValue.toInt).shiftLeftAssign σ.live 1) = _
    rw [hrun]
    rfl
  · exact (hmax.puts hputs fun j hj => Or.inl hj).puts hor fun _ hf => hf.elim

private theorem cmpLoop_max_le (l : List UInt32) (n : Nat) :
    cmpLoop l (List.replicate n 0xffffffff) ≤ 0 := by
  induction l generalizing n with
  | nil => exact le_of_eq rfl
  | cons x l ih =>
      cases n with
      | zero => exact le_of_eq rfl
      | succ n =>
          rw [List.replicate_succ, cmpLoop]
          split
          · next hne =>
            have hlt : x < 0xffffffff := by
              rw [UInt32.lt_iff_toNat_lt]
              have hx := x.toNat_lt
              have hne' : x.toNat ≠ 0xffffffff := fun he => hne (UInt32.toNat_inj.mp he)
              change x.toNat < 0xffffffff
              omega
            rw [if_pos hlt]
            decide
          · exact ih n

private theorem max_lt_iff (x : Num) :
    Num.cmp x (Num.ofInt (2 ^ 64 - 1)) > 0 ↔ x.sign.positive = true ∧ 2 < x.limbs.length := by
  have hmax : Num.ofInt (2 ^ 64 - 1) = ⟨.pos, [0xffffffff, 0xffffffff]⟩ := by decide
  rw [hmax, Num.cmp]
  cases hpos : x.sign.positive with
  | true =>
      have hsignum : x.sign.signum = 1 := by rw [Sign.signum, hpos, if_pos rfl]
      rw [hsignum, if_neg (by decide), if_neg (by decide), if_neg (by decide), if_pos rfl, cmpLimbs]
      have hloop := cmpLoop_max_le x.limbs.reverse 2
      simp only [List.length_cons, List.length_nil, true_and]
      split_ifs with hlt hgt
      · omega
      · omega
      · change cmpLoop _ (List.replicate 2 0xffffffff) > 0 ↔ _
        omega
  | false =>
      have hsignum : x.sign.signum < 1 := by
        rw [Sign.signum, hpos, if_neg (by decide)]
        split <;> decide
      rw [if_pos (show x.sign.signum < Sign.pos.signum from hsignum)]
      simp

private theorem cmp_neg_one_or_zero (x : Num) :
    Num.cmp x (Num.ofI64 (-1)) > 0 ∨ Num.cmp x (Num.ofI64 0) < 0 := by
  have hneg : (Num.ofI64 (-1)).sign.signum = -1 := by decide
  have hzero : (Num.ofI64 0).sign.signum = 0 := by decide
  by_cases hx : x.sign.signum < 0
  · refine Or.inr ?_
    rw [Num.cmp, hzero, if_pos hx]
    decide
  · refine Or.inl ?_
    rw [Num.cmp, hneg, if_neg (by omega), if_pos (by omega)]
    decide

theorem toInt_toInt64 (u : UInt64) : u.toInt64.toInt = (u.toNat : Int).bmod (2 ^ 64) :=
  BitVec.toInt_eq_toNat_bmod u.toBitVec

private theorem toNat_toU64 (h : σ.Wf) (hi : i < σ.live) :
    (σ.toU64 i).1.toNat = ((σ.num i).u32At (σ.index i) 1).toNat * 2 ^ 32 +
      ((σ.num i).u32At (σ.index i) 0).toNat := by
  have hcaches : Caches σ (σ.getU32 i 1).2 := getU32_caches
  change ((((σ.getU32 i 1).1.toUInt64 <<< 32) ||| ((σ.getU32 i 1).2.getU32 i 0).1.toUInt64)).toNat = _
  rw [toNat_join, getU32_fst h hi, getU32_fst (hcaches.wf h) (by rwa [hcaches.live]), hcaches.num,
    hcaches.index]

private theorem toU64_exact_iff (h : σ.Wf) (hi : i < σ.live) (hx : (σ.num i).Canon)
    (hlo : -(2 ^ 63) ≤ (σ.num i).toInt) (hhi : (σ.num i).toInt < 2 ^ 64) :
    ((σ.toU64 i).1.toNat : Int) = (σ.num i).toInt % 2 ^ 64 ↔
      ((σ.num i).toInt < 0 → σ.CacheOk i) := by
  have hright := hx.eq_ofInt
  generalize (σ.num i).toInt = v at hright hlo hhi
  have hjoin : ((limbAt v 1).toNat * 2 ^ 32 + (limbAt v 0).toNat : Int) = v % 2 ^ 64 := by
    rw [toNat_limbAt, toNat_limbAt, TwosComplement.cast_digit (by decide),
      TwosComplement.cast_digit (by decide)]
    omega
  have hlow := ((σ.num i).u32At (σ.index i) 0).toNat_lt
  have hlimb := (limbAt v 0).toNat_lt
  rw [toNat_toU64 h hi, ← hjoin, Nat.cast_add, Nat.cast_mul, Nat.cast_pow, Nat.cast_ofNat]
  constructor
  · intro heq hneg hcalcued hne
    have hx₁ : (σ.num i).u32At (σ.index i) 1 = limbAt v 1 := UInt32.toNat_inj.mp (by omega)
    have hx₀ : (σ.num i).u32At (σ.index i) 0 = limbAt v 0 := UInt32.toNat_inj.mp (by omega)
    have hlimbs : σ.limbs i = Num.limbsOf (-v).toNat := by
      rw [← num_limbs, hright, Num.ofInt_neg hneg]
    have hmag : PGBigNumber.mag (σ.limbs i) = (-v).toNat := by rw [hlimbs, Num.mag_limbsOf]
    have hnum : σ.num i = ⟨.neg, σ.limbs i⟩ := by rw [hright, Num.ofInt_neg hneg, hlimbs]
    have hfirst : firstNz (σ.limbs i) < 2 := by
      have hlt := firstNz_lt (l := σ.limbs i) (by omega)
      have hpow := hx.trimmed.pow_le hne
      rw [num_limbs, hmag] at hpow
      have hlen : (σ.limbs i).length - 1 < 2 :=
        (Nat.pow_lt_pow_iff_right (a := 2 ^ 32) (by decide)).mp (by omega)
      omega
    have hread : ∀ k < 2, (σ.num i).u32At (σ.index i) k = limbAt v k := by
      intro k hk
      rcases Nat.lt_succ_iff_lt_or_eq.mp hk with hk | rfl
      · rw [Nat.lt_one_iff.mp hk, hx₀]
      · exact hx₁
    have hindex := hread _ hfirst
    rw [← Num.u32At_ofInt, ← hright, num_limbs, hnum] at hindex
    have hsame := Num.u32At_neg_inj (by omega) hindex
    rwa [index, if_pos hcalcued] at hsame
  · intro hcache
    have hread : ∀ k, (σ.num i).u32At (σ.index i) k = limbAt v k := by
      intro k
      by_cases hneg : v < 0
      · rw [(hcache hneg).u32At_index, hright, Num.u32At_ofInt]
      · obtain ⟨m, rfl⟩ := Int.eq_ofNat_of_zero_le (not_lt.mp hneg)
        rw [← getU32_fst h hi, getU32_ofNat h hi hright]
    rw [hread, hread]

private theorem toU64_value_iff {u : UInt64} {v : Int} (hlo : -(2 ^ 63) ≤ v) (hhi : v < 2 ^ 63) :
    u.toInt64.toInt = v ↔ (u.toNat : Int) = v % 2 ^ 64 := by
  have hu := u.toNat_lt
  rw [toInt_toInt64, Int.bmod_def]
  split <;> omega

/-- The conversion of `v` to a type with the values in `InRange`. -/
structure Checked.Exact (v : Int) (InRange : Prop) (toInt : α → Int) (result : Checked α) : Prop where
  ok : result.ok = true ↔ InRange
  value : InRange → toInt result.value = v
  status : ¬ InRange → result.store.status = some .arithmeticOverflow

def InU64 (v : Int) : Prop := 0 ≤ v ∧ v < 2 ^ 64

/-- The conversions of a canonical number are exact, and the C functions give for any number what
the member functions give. -/
structure Conversions (σ : Store) (i : Nat) : Prop where
  getInt64 : (σ.num i).Canon →
    (σ.getInt64 i).Exact (σ.num i).toInt (Num.InI64 (σ.num i).toInt) Int64.toInt
  tryGetInt64 : (σ.num i).Canon →
    (σ.tryGetInt64 i).Exact (σ.num i).toInt (Num.InI64 (σ.num i).toInt) Int64.toInt
  getUInt64 : (σ.num i).Canon → ∃ result, σ.getUInt64 i = some result ∧
    result.Exact (σ.num i).toInt (InU64 (σ.num i).toInt) fun u => u.toNat
  tryGetUInt64 : (σ.num i).Canon → ∃ result, σ.tryGetUInt64 i = some result ∧
    result.Exact (σ.num i).toInt (InU64 (σ.num i).toInt) fun u => u.toNat
  pgbnInt64 : (σ.pgbnGetInt64WithChecking i).value = (σ.getInt64 i).value ∧
    (σ.pgbnGetInt64WithChecking i).ok = (σ.getInt64 i).ok
  pgbnUInt64 : ∃ result, σ.getUInt64 i = some result ∧
    (σ.pgbnGetUInt64WithChecking i).value = result.value ∧
    (σ.pgbnGetUInt64WithChecking i).ok = result.ok

theorem getInt64_exact_iff (h : σ.Wf) (hi : i < σ.live) (hx : (σ.num i).Canon) :
    (σ.getInt64 i).Exact (σ.num i).toInt (Num.InI64 (σ.num i).toInt) Int64.toInt ↔
      (-(2 ^ 63) ≤ (σ.num i).toInt → (σ.num i).toInt < 0 → σ.CacheOk i) := by
  have hover : (σ.cmpI64 i Int64.maxValue.toInt > 0 ∨ σ.cmpI64 i Int64.minValue.toInt < 0) ↔
      ¬ Num.InI64 (σ.num i).toInt := by
    rw [cmpI64_eq h hi, cmpI64_eq h hi, Num.ofI64_eq (by decide) (by decide),
      Num.ofI64_eq (by decide) (by decide), hx.eq_ofInt, Num.cmp_ofInt, Num.cmp_ofInt,
      Num.toInt_ofInt, Num.InI64, show Int64.maxValue.toInt = 2 ^ 63 - 1 by decide,
      show Int64.minValue.toInt = -(2 ^ 63) by decide]
    split_ifs <;> omega
  by_cases hin : Num.InI64 (σ.num i).toInt
  · have hrun : σ.getInt64 i =
        ⟨(σ.toU64 i).1.toInt64, true, (σ.toU64 i).2.setStatus .success⟩ := by
      rw [getInt64, if_neg fun ho => hover.mp ho hin]
    rw [hrun]
    obtain ⟨hlo, hhi⟩ := hin
    have hbits := toU64_exact_iff h hi hx hlo (by omega)
    rw [← toU64_value_iff hlo hhi] at hbits
    constructor
    · intro hexact _
      exact hbits.mp (hexact.value ⟨hlo, hhi⟩)
    · intro hcache
      exact ⟨iff_of_true rfl ⟨hlo, hhi⟩, fun _ => hbits.mpr (hcache hlo), fun hn => absurd ⟨hlo, hhi⟩ hn⟩
  · have hrun : σ.getInt64 i =
        ⟨Int64.maxValue, false, σ.setStatus .arithmeticOverflow⟩ := by
      rw [getInt64, if_pos (hover.mpr hin)]
    rw [hrun]
    refine iff_of_true ⟨iff_of_false Bool.false_ne_true hin, fun hin' => absurd hin' hin, fun _ => rfl⟩ ?_
    intro hlo hneg
    exact absurd ⟨hlo, by omega⟩ hin

def OutsideU64 (x : Num) : Prop :=
  x.sign.negative = true ∨ x.sign.positive = true ∧ 2 < x.limbs.length

instance (x : Num) : Decidable (OutsideU64 x) := inferInstanceAs (Decidable (_ ∨ _))

theorem outsideU64_iff {x : Num} (hx : x.Canon) : OutsideU64 x ↔ ¬ InU64 x.toInt := by
  have hright := hx.eq_ofInt
  generalize x.toInt = v at hright
  have hneg : x.sign.negative = true ↔ v < 0 := by
    rw [hright, Num.ofInt]
    split_ifs with hzero hpos
    · exact iff_of_false Bool.false_ne_true (by omega)
    · exact iff_of_false Bool.false_ne_true (by omega)
    · exact iff_of_true rfl (by omega)
  rw [OutsideU64, hneg, ← max_lt_iff, hright, Num.cmp_ofInt, InU64]
  split_ifs <;> omega

theorem getUInt64_eq (h : σ.Wf) (hi : i < σ.live) :
    σ.getUInt64 i = some (if OutsideU64 (σ.num i) then
        ⟨UInt64.ofNat (2 ^ 64 - 1), false, σ.setStatus .arithmeticOverflow⟩
      else ⟨(σ.toU64 i).1, true, (σ.toU64 i).2.setStatus .success⟩) := by
  obtain ⟨σ₁, hrun, hmax⟩ := getU64Max_pushes h
  have hcmp : σ₁.cmp i σ.live > 0 ↔
      (σ.num i).sign.positive = true ∧ 2 < (σ.num i).limbs.length := by
    rw [cmp_eq hmax.wf (by rw [hmax.live]; omega) (by rw [hmax.live]; omega), hmax.num_old hi,
      hmax.num, max_lt_iff]
  rw [getUInt64, hrun, Option.map_some]
  simp only [hcmp, UInt64.toUInt64_toInt64]
  rfl

theorem getUInt64_exact (h : σ.Wf) (hi : i < σ.live) (hx : (σ.num i).Canon) :
    ∃ result, σ.getUInt64 i = some result ∧
      result.Exact (σ.num i).toInt (InU64 (σ.num i).toInt) fun u => u.toNat := by
  refine ⟨_, getUInt64_eq h hi, ?_⟩
  by_cases hin : InU64 (σ.num i).toInt
  · rw [if_neg fun ho => (outsideU64_iff hx).mp ho hin]
    obtain ⟨hlo, hhi⟩ := hin
    have hbits := (toU64_exact_iff h hi hx (by omega) hhi).mpr fun hneg => absurd hlo (by omega)
    rw [Int.emod_eq_of_lt hlo hhi] at hbits
    exact ⟨iff_of_true rfl ⟨hlo, hhi⟩, fun _ => hbits, fun hn => absurd ⟨hlo, hhi⟩ hn⟩
  · rw [if_pos ((outsideU64_iff hx).mpr hin)]
    exact ⟨iff_of_false Bool.false_ne_true hin, fun hin' => absurd hin' hin, fun _ => rfl⟩

theorem pgbnGetUInt64_overflows (h : σ.Wf) (hi : i < σ.live) :
    σ.pgbnGetUInt64WithChecking i =
      ⟨UInt64.ofNat (2 ^ 64 - 1), false, σ.setStatus .arithmeticOverflow⟩ := by
  have hcmp : σ.pgbnCmpWithI64 i (UInt64.ofNat (2 ^ 64 - 1)).toInt64 > 0 ∨
      σ.pgbnCmpWithI64 i (UInt64.ofNat 0).toInt64 < 0 := by
    rw [pgbnCmpWithI64, pgbnCmpWithI64, cmpI64_eq h hi, cmpI64_eq h hi]
    exact cmp_neg_one_or_zero (σ.num i)
  rw [pgbnGetUInt64WithChecking, if_pos hcmp]

/-- The conversions are exact and the interfaces agree exactly for the numbers that `getUInt64`
rejects, if a negative one in the range of `getInt64` has no wrong index in its cache. -/
theorem conversions_iff (h : σ.Wf) (hi : i < σ.live) :
    Conversions σ i ↔ OutsideU64 (σ.num i) ∧
      ((σ.num i).Canon → -(2 ^ 63) ≤ (σ.num i).toInt → (σ.num i).toInt < 0 → σ.CacheOk i) := by
  constructor
  · intro hconv
    obtain ⟨result, hrun, -, hok⟩ := hconv.pgbnUInt64
    refine ⟨?_, fun hx => (getInt64_exact_iff h hi hx).mp (hconv.getInt64 hx)⟩
    rw [pgbnGetUInt64_overflows h hi] at hok
    rw [getUInt64_eq h hi, Option.some.injEq] at hrun
    by_contra hin
    rw [if_neg hin] at hrun
    rw [← hrun] at hok
    exact Bool.false_ne_true hok
  · rintro ⟨hout, hcache⟩
    have hexact := fun hx => (getInt64_exact_iff h hi hx).mpr (hcache hx)
    have hunsigned := fun hx => getUInt64_exact h hi hx
    refine ⟨hexact, hexact, hunsigned, fun hx => ?_, ⟨rfl, rfl⟩, _, getUInt64_eq h hi, ?_⟩
    · obtain ⟨result, hrun, hres⟩ := hunsigned hx
      exact ⟨result, by rw [tryGetUInt64, hrun, Option.map_some], hres⟩
    · rw [if_pos hout, pgbnGetUInt64_overflows h hi]
      exact ⟨rfl, rfl⟩

theorem conversions_negative : Conversions (initial.pushI64 (-5)) 0 := by
  have hp := pushI64_pushes (R := fun _ => False) Wf.initial (-5)
  have hnum : (initial.pushI64 (-5)).num 0 = Num.ofI64 (-5) := hp.num
  refine (conversions_iff hp.wf (show 0 < (initial.pushI64 (-5)).live by rw [hp.live]; decide)).mpr
    ⟨?_, fun _ _ _ => hp.cache fun _ hf => hf.elim⟩
  rw [hnum]
  decide

/-- Five fits, and the C function says that it does not. -/
theorem conversions_disagree :
    (∃ result, (pair 5 3).getUInt64 0 = some result ∧ result.ok = true ∧ result.value.toNat = 5) ∧
      ((pair 5 3).pgbnGetUInt64WithChecking 0).ok = false ∧ ¬ Conversions (pair 5 3) 0 := by
  obtain ⟨hwf, hlive, h0, -⟩ := pair_spec 5 3
  rw [Num.ofI64_eq (by decide) (by decide)] at h0
  have hi : 0 < (pair 5 3).live := by omega
  obtain ⟨result, hrun, hexact⟩ := getUInt64_exact hwf hi (h0 ▸ Num.ofInt_canon 5)
  rw [h0, Num.toInt_ofInt] at hexact
  have hin : InU64 5 := ⟨by decide, by decide⟩
  have hoverflow := pgbnGetUInt64_overflows hwf hi
  refine ⟨⟨result, hrun, hexact.ok.mpr hin, by exact_mod_cast hexact.value hin⟩, by rw [hoverflow],
    fun hconv => ?_⟩
  obtain ⟨result', hrun', -, hok⟩ := hconv.pgbnUInt64
  obtain rfl := Option.some.inj (hrun.symm.trans hrun')
  rw [hoverflow, hexact.ok.mpr hin] at hok
  exact Bool.false_ne_true hok

end Store

end PGBigNumber
