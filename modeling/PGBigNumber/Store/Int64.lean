import PGBigNumber.Store.Arith

/-!
# Machine integers

`assign(std::int64_t)`, the temporaries that the `std::int64_t` overloads build with it, and the
overloads of comparison, addition and subtraction.
-/

namespace PGBigNumber

namespace Num

/-- The magnitude that `assign(std::int64_t)` computes, as a `std::uint64_t`. -/
def magI64 (k : Int) : Nat := ((if k < 0 then i64 (-k) else k) % 2 ^ 64).toNat

def ofI64 (k : Int) : Num :=
  if k = 0 then zero
  else
    ⟨if k > 0 then .pos else .neg,
      if magI64 k < 2 ^ 32 - 1 then [UInt32.ofNat (magI64 k)]
      else [UInt32.ofNat (magI64 k), UInt32.ofNat (magI64 k / 2 ^ 32)]⟩

theorem length_ofI64_le (k : Int) : (ofI64 k).limbs.length ≤ 2 := by
  unfold ofI64
  split
  · exact Nat.zero_le _
  · dsimp only
    split <;> simp

def InI64 (k : Int) : Prop := -(2 ^ 63) ≤ k ∧ k < 2 ^ 63

instance (k : Int) : Decidable (InI64 k) := inferInstanceAs (Decidable (_ ∧ _))

theorem magI64_eq {k : Int} (hk : InI64 k) : magI64 k = k.natAbs := by
  obtain ⟨hlo, hhi⟩ := hk
  unfold magI64
  split
  next hneg =>
    have hmod : i64 (-k) % 2 ^ 64 = -k % 2 ^ 64 := by
      rw [i64]
      exact Int.bmod_emod
    rw [hmod]
    omega
  next hpos => omega

def TopLimbZero (k : Int) : Prop := k.natAbs = 2 ^ 32 - 1

instance (k : Int) : Decidable (TopLimbZero k) := inferInstanceAs (Decidable (_ = _))

theorem ofI64_limbs {k : Int} (hk : InI64 k) (h0 : k ≠ 0) :
    ofI64 k = signed (decide (0 < k)) (if k.natAbs < 2 ^ 32 - 1 then [UInt32.ofNat k.natAbs]
      else [UInt32.ofNat k.natAbs, UInt32.ofNat (k.natAbs / 2 ^ 32)]) := by
  rw [ofI64, if_neg h0, magI64_eq hk, signed]
  congr 1
  by_cases hpos : 0 < k
  · rw [if_pos hpos, if_pos (decide_eq_true hpos)]
  · rw [if_neg hpos, if_neg (by simpa using hpos)]

theorem ofI64_eq {k : Int} (hk : InI64 k) (htop : ¬ TopLimbZero k) : ofI64 k = ofInt k := by
  by_cases h0 : k = 0
  · rw [h0, ofI64, if_pos rfl, zero_eq_ofInt]
  have habs : k.natAbs < 2 ^ 64 := by
    obtain ⟨hlo, hhi⟩ := hk
    omega
  unfold TopLimbZero at htop
  rw [ofI64_limbs hk h0]
  have hval : signedInt (decide (0 < k)) (if k.natAbs < 2 ^ 32 - 1 then [UInt32.ofNat k.natAbs]
      else [UInt32.ofNat k.natAbs, UInt32.ofNat (k.natAbs / 2 ^ 32)]) = k := by
    have hmag : PGBigNumber.mag (if k.natAbs < 2 ^ 32 - 1 then [UInt32.ofNat k.natAbs]
        else [UInt32.ofNat k.natAbs, UInt32.ofNat (k.natAbs / 2 ^ 32)]) = k.natAbs := by
      split <;> simp only [mag_cons, mag_nil, toNat_ofNat_u32] <;> omega
    unfold signedInt
    rw [hmag]
    by_cases hpos : 0 < k
    · rw [if_pos (decide_eq_true hpos)]
      omega
    · rw [if_neg (by simpa using hpos)]
      omega
  conv_rhs => rw [← hval]
  apply signed_eq_ofInt
  · split <;> simp
  · split
    next hlt =>
      apply trimmed_concat (l := [])
      rw [Ne, ← UInt32.toNat_inj, toNat_ofNat_u32, UInt32.toNat_zero]
      omega
    next hge =>
      apply trimmed_concat (l := [_])
      rw [Ne, ← UInt32.toNat_inj, toNat_ofNat_u32, UInt32.toNat_zero]
      omega

theorem ofI64_topLimbZero {k : Int} (h : TopLimbZero k) :
    ofI64 k = signed (decide (0 < k)) [0xffffffff, 0] := by
  unfold TopLimbZero at h
  have hk : InI64 k := ⟨by omega, by omega⟩
  rw [ofI64_limbs hk (by omega), h]
  rfl

theorem ofI64_canon_iff {k : Int} (hk : InI64 k) : (ofI64 k).Canon ↔ ¬ TopLimbZero k := by
  constructor
  · intro hc htop
    have := hc.trimmed
    rw [ofI64_topLimbZero htop] at this
    exact this rfl
  · intro htop
    rw [ofI64_eq hk htop]
    exact ofInt_canon k

end Num

namespace Store

def assignI64 (σ : Store) (i : Nat) (k : Int) : Store :=
  let σ := (σ.beginWrite i).cloneData i
  if k = 0 then
    let σ := σ.setFlags i .zro
    σ.putMag i ((σ.mag i).slice 0 0)
  else
    let σ := σ.setFlags i (if k > 0 then .pos else .neg)
    let u64 := Num.magI64 k
    let u32s := if u64 < 2 ^ 32 - 1 then 1 else 2
    let σ := σ.putMag i ((σ.mag i).slice 0 u32s)
    let σ := σ.putMag i ((σ.mag i).set 0 (UInt32.ofNat u64))
    if u32s = 2 then σ.putMag i ((σ.mag i).set 1 (UInt32.ofNat (u64 / 2 ^ 32))) else σ

def pushI64 (σ : Store) (k : Int) : Store := σ.pushDefault.assignI64 σ.live k

def cmpI64 (σ : Store) (i : Nat) (k : Int) : Int := (σ.pushI64 k).cmp i σ.live

def addAssignI64 (σ : Store) (i : Nat) (k : Int) : Store :=
  ((σ.pushI64 k).addAssign i σ.live).popTo σ.live

def subAssignI64 (σ : Store) (i : Nat) (k : Int) : Store :=
  ((σ.pushI64 k).subAssign i σ.live).popTo σ.live

variable {σ σ₁ σ₂ : Store} {i j : Nat} {R Q : Nat → Prop} {x y : Num} {k : Int}

theorem pushDefault_pushes (h : σ.Wf) : Pushes σ R Num.zero σ.pushDefault := by
  refine ⟨rfl, Keeps.pushDefault h.good, ?_, fun _ => .of_not_calcued ?_⟩
  · rw [num_eq, pushDefault, mag_newMag_self, sign_newMag]
    simp [sign, push, Num.zero]
  · simp [pushDefault, push]

theorem pushCopy_pushes (h : σ.Wf) (hj : j < σ.live) (hR : R j) :
    Pushes σ R (σ.num j) (σ.pushCopy j) := by
  have hobj : (σ.pushCopy j).obj σ.live = σ.obj j := by simp [pushCopy, push]
  have hlimbs : (σ.pushCopy j).limbs σ.live = σ.limbs j := by
    rw [limbs, limbs, mag, hobj]
    rfl
  refine ⟨rfl, Keeps.pushCopy h.good hj, ?_, fun hc => ?_⟩
  · change (⟨((σ.pushCopy j).obj σ.live).sign, (σ.pushCopy j).limbs σ.live⟩ : Num) = _
    rw [hlimbs, hobj]
    rfl
  · unfold CacheOk
    rw [hobj, hlimbs]
    exact hc j hR

theorem assignI64_puts (h : σ.Wf) (hi : i < σ.live) (k : Int) :
    Puts σ i R (Num.ofI64 k) (σ.assignI64 i k) := by
  unfold assignI64 Num.ofI64
  dsimp only
  by_cases h0 : k = 0
  · rw [if_pos h0, if_pos h0]
    have ho := opened_ready (R := R) h hi .zro
    have hwf := ho.wf_mag hi
    have hput := ho.put (Slice.slice_wf hwf (Nat.le_refl 0))
    rw [Slice.toList_slice hwf (Nat.le_refl 0) (Nat.zero_le _)] at hput
    exact hput.puts
  rw [if_neg h0, if_neg h0]
  set m := Num.magI64 k
  set t : Sign := if k > 0 then .pos else .neg
  have ho := opened_ready (R := R) h hi t
  set σ₂ := ((σ.beginWrite i).cloneData i).setFlags i t
  have hwf := ho.wf_mag hi
  have hs : ∀ u32s : Nat, (((σ₂.mag i).slice 0 u32s).set 0 (UInt32.ofNat m)).Wf :=
    fun u32s => Slice.set_wf (Slice.slice_wf hwf (Nat.zero_le u32s)) 0 (UInt32.ofNat m)
  have hlow : ∀ u32s : Nat, Opened σ i R t
      ((((σ₂.mag i).slice 0 u32s).toList).set 0 (UInt32.ofNat m))
      ((σ₂.putMag i ((σ₂.mag i).slice 0 u32s)).putMag i
        (((σ₂.mag i).slice 0 u32s).set 0 (UInt32.ofNat m))) := by
    intro u32s
    have hput := (ho.put (Slice.slice_wf hwf (Nat.zero_le u32s))).put (hs u32s)
    rw [Slice.toList_set] at hput
    exact hput
  have hlen : ∀ u32s : Nat, ((σ₂.mag i).slice 0 u32s).toList.length = u32s := fun u32s => by
    rw [Slice.length_toList (Slice.slice_wf hwf (Nat.zero_le u32s)),
      Slice.count_slice (Nat.zero_le _), Nat.sub_zero]
  by_cases hone : m < 2 ^ 32 - 1
  · rw [if_pos hone, if_pos hone, if_neg (by decide), mag_putMag_self]
    obtain ⟨a, ha⟩ := List.length_eq_one_iff.mp (hlen 1)
    have h₁ := hlow 1
    rw [ha, List.set_cons_zero] at h₁
    exact h₁.puts
  · rw [if_neg hone, if_neg hone, if_pos rfl, mag_putMag_self, mag_putMag_self]
    obtain ⟨a, b, hab⟩ := List.length_eq_two.mp (hlen 2)
    have h₂ := (hlow 2).put (Slice.set_wf (hs 2) 1 (UInt32.ofNat (m / 2 ^ 32)))
    rw [Slice.toList_set, Slice.toList_set, hab] at h₂
    exact h₂.puts

theorem pushI64_pushes (h : σ.Wf) (k : Int) : Pushes σ R (Num.ofI64 k) (σ.pushI64 k) := by
  have hd := pushDefault_pushes (R := R) h
  exact hd.puts (Q := fun _ => False)
    (assignI64_puts hd.wf (by rw [hd.live]; omega) k) fun _ hf => hf.elim

theorem obj_assignI64_ne (h : j ≠ i) (k : Int) : (σ.assignI64 i k).obj j = σ.obj j := by
  have hready : ((σ.beginWrite i).cloneData i).obj j = σ.obj j := by
    rw [obj_cloneData_ne h, obj_beginWrite_ne h]
  have hflags : ∀ (τ : Store) t, (τ.setFlags i t).obj j = τ.obj j := fun τ t => obj_modify_ne h
  unfold assignI64
  dsimp only
  split_ifs <;> simp only [obj_putMag_ne h, hflags, hready]

theorem obj_pushI64_ne (h : j ≠ σ.live) (k : Int) : (σ.pushI64 k).obj j = σ.obj j := by
  rw [pushI64, obj_assignI64_ne h, obj_pushDefault_ne h]

theorem cmpI64_eq (h : σ.Wf) (hi : i < σ.live) (k : Int) :
    σ.cmpI64 i k = Num.cmp (σ.num i) (Num.ofI64 k) := by
  have hp := pushI64_pushes (R := fun _ => False) h k
  rw [cmpI64, cmp_eq hp.wf (by rw [hp.live]; omega) (by rw [hp.live]; omega), hp.num_old hi, hp.num]

theorem addAssignI64_puts (h : σ.Wf) (hi : i < σ.live) (k : Int) :
    Puts σ i (· = i) (Num.add (σ.num i) (Num.ofI64 k)) (σ.addAssignI64 i k) := by
  have hp := pushI64_pushes (R := (· = i)) h k
  have ha := addAssign_puts hp.wf (i := i) (j := σ.live) (by rw [hp.live]; omega)
    (by rw [hp.live]; omega)
  rw [hp.num_old hi, hp.num] at ha
  exact hp.close ha fun j hj => hj.symm.imp_right fun he => ⟨he, he ▸ hi⟩

theorem subAssignI64_puts (h : σ.Wf) (hi : i < σ.live) (k : Int) :
    Puts σ i (· = i) (Num.sub (σ.num i) (Num.ofI64 k)) (σ.subAssignI64 i k) := by
  have hp := pushI64_pushes (R := (· = i)) h k
  have ha := subAssign_puts hp.wf (i := i) (j := σ.live) (by rw [hp.live]; omega)
    (by rw [hp.live]; omega)
  rw [hp.num_old hi, hp.num] at ha
  exact hp.close ha fun j hj => hj.symm.imp_right fun he => ⟨he, he ▸ hi⟩

/-- A program that has built two integers and two default objects. -/
def pair (a b : Int) : Store := ((initial.pushI64 a).pushI64 b).pushDefault.pushDefault

theorem pair_spec (a b : Int) :
    (pair a b).Wf ∧ (pair a b).live = 4 ∧ (pair a b).num 0 = Num.ofI64 a ∧
      (pair a b).num 1 = Num.ofI64 b := by
  have h₁ := pushI64_pushes (R := fun _ => False) Wf.initial a
  have h₂ := pushI64_pushes (R := fun _ => False) h₁.wf b
  have h₃ := pushDefault_pushes (R := fun _ => False) h₂.wf
  have h₄ := pushDefault_pushes (R := fun _ => False) h₃.wf
  have hl₁ : (initial.pushI64 a).live = 1 := h₁.live
  have hl₂ : ((initial.pushI64 a).pushI64 b).live = 2 := by rw [h₂.live, hl₁]
  have hl₃ : ((initial.pushI64 a).pushI64 b).pushDefault.live = 3 := by rw [h₃.live, hl₂]
  have hn₁ := h₂.num
  rw [hl₁] at hn₁
  refine ⟨h₄.wf, by rw [pair, h₄.live, hl₃], ?_, ?_⟩
  · rw [pair, h₄.num_old (by omega), h₃.num_old (by omega), h₂.num_old (by omega)]
    exact h₁.num
  · rw [pair, h₄.num_old (by omega), h₃.num_old (by omega), hn₁]

/-- Addition and subtraction are exact, also of an object and itself, and `inc` and `dec` are those
of one. -/
theorem addition_exact (h : σ.Wf) (hi : i < σ.live) (hj : j < σ.live) (hci : (σ.num i).Canon)
    (hcj : (σ.num j).Canon) :
    (σ.addAssign i j).num i = Num.ofInt ((σ.num i).toInt + (σ.num j).toInt) ∧
      (σ.subAssign i j).num i = Num.ofInt ((σ.num i).toInt - (σ.num j).toInt) ∧
      (σ.inc i).num i = Num.ofInt ((σ.num i).toInt + 1) ∧
      (σ.inc i).num i = (σ.addAssignI64 i 1).num i ∧
      (σ.dec i).num i = Num.ofInt ((σ.num i).toInt - 1) ∧
      (σ.dec i).num i = (σ.subAssignI64 i 1).num i := by
  have hv := hci.eq_ofInt
  have hw := hcj.eq_ofInt
  generalize (σ.num i).toInt = v at hv
  generalize (σ.num j).toInt = w at hw
  have hone : Num.ofI64 1 = Num.ofInt 1 := Num.ofI64_eq (by decide) (by decide)
  have hinc := (inc_puts (R := fun _ => False) h hi).num
  have hdec := (dec_puts (R := fun _ => False) h hi).num
  rw [hv, Num.inc_ofInt] at hinc
  rw [hv, Num.dec_ofInt] at hdec
  refine ⟨?_, ?_, hinc, ?_, hdec, ?_⟩
  · rw [(addAssign_puts h hi hj).num, hv, hw, Num.add_ofInt]
  · rw [(subAssign_puts h hi hj).num, hv, hw, Num.sub_ofInt]
  · rw [hinc, (addAssignI64_puts h hi 1).num, hv, hone, Num.add_ofInt]
  · rw [hdec, (subAssignI64_puts h hi 1).num, hv, hone, Num.sub_ofInt]

theorem addition_exact_cancel :
    ((pair (2 ^ 32) (-(2 ^ 32))).addAssign 0 1).num 0 = Num.ofInt 0 := by
  obtain ⟨hwf, hlive, h0, h1⟩ := pair_spec (2 ^ 32) (-(2 ^ 32))
  rw [Num.ofI64_eq (by decide) (by decide)] at h0 h1
  have hadd := (addition_exact hwf (i := 0) (j := 1) (by omega) (by omega)
    (h0 ▸ Num.ofInt_canon _) (h1 ▸ Num.ofInt_canon _)).1
  rw [h0, h1, Num.toInt_ofInt, Num.toInt_ofInt] at hadd
  exact hadd

/-- A left shift multiplies by a power of two, a right shift divides by it and rounds down, and the
one takes back what the other did. -/
theorem shift_exact (h : σ.Wf) (hi : i < σ.live) (hci : (σ.num i).Canon) (n : Nat) :
    (∃ σ', σ.shiftLeftAssign i n = some σ' ∧ σ'.num i = Num.ofInt ((σ.num i).toInt * 2 ^ n) ∧
      (σ'.shiftRightAssign i n).num i = σ.num i) ∧
    (σ.shiftRightAssign i n).num i = Num.ofInt (Int.fdiv (σ.num i).toInt (2 ^ n)) := by
  have hv := hci.eq_ofInt
  generalize (σ.num i).toInt = v at hv
  have hpow : (0 : Int) < 2 ^ n := by positivity
  have hleft : Num.shl (σ.num i) n = some (Num.ofInt (v * 2 ^ n)) := by
    rw [hv, Num.shl_ofInt]
  obtain ⟨σ', hrun, hputs⟩ := shiftLeftAssign_puts h hi hleft
  have hi' : i < σ'.live := by rwa [hputs.live]
  constructor
  · refine ⟨σ', hrun, hputs.num, ?_⟩
    rw [(shiftRightAssign_puts hputs.wf hi' n).num, hputs.num, Num.shr_ofInt, hv,
      Int.mul_ediv_cancel _ hpow.ne']
  · rw [(shiftRightAssign_puts h hi n).num, hv, Num.shr_ofInt,
      Int.fdiv_eq_ediv_of_nonneg _ hpow.le]

theorem shift_exact_negative :
    ((pair (-5) 3).shiftRightAssign 0 1).num 0 = Num.ofInt (-3) := by
  obtain ⟨hwf, hlive, h0, -⟩ := pair_spec (-5) 3
  rw [Num.ofI64_eq (by decide) (by decide)] at h0
  have hright := (shift_exact hwf (i := 0) (by omega) (h0 ▸ Num.ofInt_canon _) 1).2
  rw [h0, Num.toInt_ofInt] at hright
  exact hright

/-- Comparison has three results, which tell the order of the values; it is antisymmetric and
transitive, and finds equal only what has the same sign and magnitude. -/
theorem cmp_exact (h : σ.Wf) (hi : i < σ.live) (hj : j < σ.live) (hci : (σ.num i).Canon)
    (hcj : (σ.num j).Canon) :
    σ.cmp i j = (if (σ.num i).toInt < (σ.num j).toInt then -1
      else if (σ.num i).toInt = (σ.num j).toInt then 0 else 1) ∧
    σ.cmp j i = -σ.cmp i j ∧ (σ.cmp i j = 0 ↔ σ.num i = σ.num j) ∧
    ∀ k < σ.live, (σ.num k).Canon → σ.cmp i j ≤ 0 → σ.cmp j k ≤ 0 →
      σ.cmp i k ≤ 0 ∧ (σ.cmp i k = 0 → σ.cmp i j = 0 ∧ σ.cmp j k = 0) := by
  have hcmp : ∀ {i j}, i < σ.live → j < σ.live → (σ.num i).Canon → (σ.num j).Canon →
      σ.cmp i j = if (σ.num i).toInt < (σ.num j).toInt then -1
        else if (σ.num i).toInt = (σ.num j).toInt then 0 else 1 := by
    intro i j hi hj hci hcj
    have hcmp := cmp_eq h hi hj
    rwa [hci.eq_ofInt, hcj.eq_ofInt, Num.cmp_ofInt] at hcmp
  have hij := hcmp hi hj hci hcj
  have hji := hcmp hj hi hcj hci
  refine ⟨hij, by split_ifs at hij hji <;> omega, ?_, fun k hk hck hle hle' => ?_⟩
  · have hnum : σ.num i = σ.num j ↔ (σ.num i).toInt = (σ.num j).toInt := by
      constructor
      · intro heq
        rw [heq]
      · intro heq
        rw [hci.eq_ofInt, hcj.eq_ofInt, heq]
    rw [hnum]
    split_ifs at hij <;> rw [hij]
    · exact iff_of_false (by decide) (by omega)
    · exact iff_of_true rfl ‹_›
    · exact iff_of_false (by decide) ‹_›
  · have hjk := hcmp hj hk hcj hck
    have hik := hcmp hi hk hci hck
    split_ifs at hij hjk hik <;> omega

theorem cmp_exact_signs : (pair (-(2 ^ 40)) (2 ^ 33)).cmp 0 1 = -1 := by
  obtain ⟨hwf, hlive, h0, h1⟩ := pair_spec (-(2 ^ 40)) (2 ^ 33)
  rw [Num.ofI64_eq (by decide) (by decide)] at h0 h1
  have hcmp := (cmp_exact hwf (i := 0) (j := 1) (by omega) (by omega)
    (h0 ▸ Num.ofInt_canon _) (h1 ▸ Num.ofInt_canon _)).1
  rw [h0, h1, Num.toInt_ofInt, Num.toInt_ofInt] at hcmp
  exact hcmp

end Store

end PGBigNumber
