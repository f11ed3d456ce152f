import PGBigNumber.Magnitude.Div
import PGBigNumber.Store.Int64

/-!
# Division of magnitudes in the store

The two division loops as the library runs them: `divideAssignAndReminderByU32` on the magnitude of
an object, and `knuthDivImpl` on scaled copies of its operands.
-/

namespace PGBigNumber

namespace Store

/-- The loop of `divideAssignAndReminderByU32` over the cloned magnitude and `eraseZerosSuffix`. -/
def divideMag (σ : Store) (i x : Nat) : Store :=
  let σ := (σ.beginWrite i).cloneData i
  let σ := σ.putMag i ((σ.mag i).assign (divSmall x (σ.limbs i)).1)
  σ.putMag i (eraseZerosSuffix (σ.mag i))

def divideAssignAndReminderByU32 (σ : Store) (i : Nat) (u32 : UInt32) (r : Nat) : Store :=
  if u32 = 0 then σ.setStatus .divBy0
  else if σ.isZero i then σ.beZero r
  else
    let thisSigNum := (σ.sign i).signum
    let thisSign : Sign := if thisSigNum = 1 then .pos else .neg
    if u32 = 1 then (σ.beZero r).setSign i thisSign
    else
      let y := (divSmall u32.toNat (σ.limbs i)).2
      let σ := σ.divideMag i u32.toNat
      let σ := if (σ.mag i).count = 0 then σ.beZero i else σ.setSign i thisSign
      let σ := σ.assignI64 r y
      let σ := if σ.isZero r then σ else σ.setSign r (if thisSigNum > 0 then .pos else .neg)
      σ.setStatus .success

/-- `knuthDivImpl` up to `dividend.m_mag.append(0)`; the locals `dividend` and `divisor` stand at
the end of the store. -/
def knuthScale (σ : Store) (u v lShift : Nat) : Option Store := do
  let n := σ.live
  let σ := (σ.pushCopy u).pushCopy v
  let σ ← σ.shiftLeftAssign n lShift
  let σ ← σ.shiftLeftAssign (n + 1) lShift
  some (σ.putMag n ((σ.mag n).append 0))

def knuthSave (σ : Store) (q r n lShift : Nat) (uMag qArr : List UInt32) : Store :=
  let σ := σ.putMag n ((σ.mag n).assign uMag)
  let σ := (σ.setSign q .pos).setSign r .pos
  let σ := σ.newMag q (eraseZerosSuffix ((Slice.empty.slice 0 qArr.length).assign qArr))
  let σ := σ.putMag n (eraseZerosSuffix (σ.mag n))
  let σ := σ.shiftRightAssign n lShift
  let σ := (σ.shareMag r n).newMag n Slice.empty
  if (σ.mag r).count = 0 then σ.beZero r else σ

/-- `knuthDivImpl`; no result where the assertion on the divisor fails or the normalising loop does
not end. -/
def knuthDivImpl (σ : Store) (q r u v : Nat) : Option Store := do
  let n := σ.live
  let N := (σ.mag v).count
  let M := (σ.mag u).count - N
  if N ≤ 1 then none
  else
    let lShift ← normalise 32 ((σ.mag v).get (N - 1)).toNat 0
    let σ ← σ.knuthScale u v lShift
    -- the digits go to an array of their own, the remainder stays in `uMag`
    let (uMag, qArr) ← divLoop (σ.limbs (n + 1)) (M + 1) (σ.limbs n) []
    some ((σ.knuthSave q r n lShift uMag qArr).popTo n)

variable {σ σ₁ σ₂ : Store} {i j n q r a b : Nat} {S T R : Nat → Prop} {x y : Num}

theorem Writes.beZero (h : σ.Wf) (hS : S i) : Writes σ S (σ.beZero i) :=
  (Puts.beZero (R := fun _ => False) h).writes hS fun _ hf => hf.elim

theorem Writes.setSign (h : σ.Wf) (hi : i < σ.live) (hS : S i) (t : Sign) :
    Writes σ S (σ.setSign i t) :=
  (Puts.setSign (R := (· = i)) h rfl t).writes hS fun _ he => he ▸ hi

theorem divideMag_puts (h : σ.Wf) (hi : i < σ.live) (x : Nat) :
    Puts σ i R ⟨σ.sign i, trim (divSmall x (σ.limbs i)).1⟩ (σ.divideMag i x) := by
  have hwf := ready_wf h hi
  have hlimbs : ((σ.beginWrite i).cloneData i).limbs i = σ.limbs i := toList_ready
  unfold divideMag
  dsimp only
  rw [hlimbs]
  have hlen : (divSmall x (σ.limbs i)).1.length =
      (((σ.beginWrite i).cloneData i).mag i).count := by
    rw [length_divSmall, ← Slice.length_toList hwf, toList_ready]
  have hw := Puts.write (R := R) h hi (Slice.assign_wf hwf (divSmall x (σ.limbs i)).1)
  rw [Slice.toList_assign hwf hlen] at hw
  have he := Puts.erase (i := i) (R := fun _ => False) hw.wf (by rw [hw.live]; exact hi) (by simp)
  have hl := congrArg Num.limbs hw.num
  have hs := congrArg Num.sign hw.num
  simp only [num_limbs, num_sign] at hl hs
  rw [hl, hs] at he
  exact hw.trans he fun _ hf => hf.elim

private theorem quotient_puts (h : σ.Wf) (hi : i < σ.live) (x : Nat) (t : Sign) :
    Puts σ i R (if trim (divSmall x (σ.limbs i)).1 = [] then Num.zero
        else ⟨t, trim (divSmall x (σ.limbs i)).1⟩)
      (if ((σ.divideMag i x).mag i).count = 0 then (σ.divideMag i x).beZero i
        else (σ.divideMag i x).setSign i t) := by
  have hd := divideMag_puts (R := R) h hi x
  have hlive : i < (σ.divideMag i x).live := by rw [hd.live]; exact hi
  have hl := congrArg Num.limbs hd.num
  simp only [num_limbs] at hl
  have hcount : ((σ.divideMag i x).mag i).count = 0 ↔ trim (divSmall x (σ.limbs i)).1 = [] := by
    rw [← Slice.toList_eq_nil_iff (hd.wf i hlive).1, ← limbs_eq, hl]
  by_cases hnil : trim (divSmall x (σ.limbs i)).1 = []
  · rw [if_pos hnil, if_pos (hcount.mpr hnil)]
    exact hd.trans (Q := fun _ => False) (.beZero hd.wf) fun _ hf => hf.elim
  · rw [if_neg hnil, if_neg fun hc => hnil (hcount.mp hc)]
    have hset := Puts.setSign (i := i) (R := (· = i)) hd.wf rfl t
    rw [hl] at hset
    exact hd.trans hset fun _ he => Or.inl he

theorem setSign_unless_zero (h : σ.Wf) (hR : R i) (t : Sign) :
    Puts σ i R (Num.withSign t (σ.num i)) (if σ.isZero i then σ else σ.setSign i t) := by
  rw [isZero, Num.withSign, num_sign, num_limbs]
  split
  · exact Puts.refl h hR
  · exact Puts.setSign h hR t

theorem divideAssignAndReminderByU32_writes (h : σ.Wf) (hi : i < σ.live) (hr : r < σ.live)
    (u32 : UInt32) :
    Writes σ (fun k => k = i ∨ k = r) (σ.divideAssignAndReminderByU32 i u32 r) := by
  unfold divideAssignAndReminderByU32
  split
  · exact .setStatus h _
  split
  · exact .beZero h (Or.inr rfl)
  dsimp only
  split
  · have hb := Writes.beZero (S := fun k => k = i ∨ k = r) h (Or.inr rfl)
    exact hb.trans (.setSign hb.wf hi (Or.inl rfl) _)
  · have hq := (quotient_puts (R := fun _ => False) h hi u32.toNat
      (if (σ.sign i).signum = 1 then .pos else .neg)).writes
      (S := fun k => k = i ∨ k = r) (Or.inl rfl) fun _ hf => hf.elim
    apply hq.trans
    have ha := (assignI64_puts (R := fun _ => False) hq.wf (i := r) (by rw [hq.live]; exact hr)
      (divSmall u32.toNat (σ.limbs i)).2).writes (S := fun k => k = i ∨ k = r) (Or.inr rfl)
      fun _ hf => hf.elim
    apply ha.trans
    have hs := (setSign_unless_zero (i := r) (R := (· = r)) ha.wf rfl
      (if (σ.sign i).signum > 0 then .pos else .neg)).writes (S := fun k => k = i ∨ k = r)
      (Or.inr rfl) fun _ he => by rw [he, ha.live, hq.live]; exact hr
    exact hs.trans (.setStatus hs.wf _)

theorem divideAssignAndReminderByU32_num (h : σ.Wf) (hi : i < σ.live) (hr : r < σ.live)
    (hir : i ≠ r) {v : Int} (hv : σ.num i = Num.ofInt v) {u32 : UInt32} (h0 : u32 ≠ 0) :
    (σ.divideAssignAndReminderByU32 i u32 r).num i = Num.ofInt (v.tdiv u32.toNat) ∧
      (σ.divideAssignAndReminderByU32 i u32 r).num r = Num.ofInt (v.tmod u32.toNat) := by
  unfold divideAssignAndReminderByU32
  rw [if_neg h0]
  have hzero := Puts.beZero (i := r) (R := fun _ => False) h
  rcases Num.ofInt_cases v with ⟨rfl, hv0⟩ | ⟨s, l, hl, ht, rfl, hvs⟩
  · rw [if_pos (by rw [isZero, ← num_sign, hv, hv0]; rfl), Int.zero_tdiv, Int.zero_tmod]
    exact ⟨(hzero.num_ne hi hir).trans hv, hzero.num.trans Num.zero_eq_ofInt⟩
  have hnum : σ.num i = Num.signed s l := hv.trans hvs
  have hsign : σ.sign i = if s then .pos else .neg := by rw [← num_sign, hnum]; rfl
  have hlimbs : σ.limbs i = l := by rw [← num_limbs, hnum]; rfl
  have hsig : (σ.sign i).signum = 1 ↔ s = true := by rw [hsign]; cases s <;> decide
  rw [if_neg (by rw [isZero, hsign]; cases s <;> decide)]
  dsimp only
  have ht₁ : (if (σ.sign i).signum = 1 then Sign.pos else Sign.neg) = if s then .pos else .neg :=
    if_congr hsig rfl rfl
  by_cases h1 : u32 = 1
  · subst h1
    rw [if_pos rfl, show (((1 : UInt32).toNat : Nat) : Int) = 1 from rfl, Int.tdiv_one,
      Int.tmod_one]
    have hset := Puts.setSign (i := i) (R := fun _ => True) hzero.wf trivial
      (if (σ.sign i).signum = 1 then .pos else .neg)
    refine ⟨hset.num.trans ?_, (hset.num_ne hr (Ne.symm hir)).trans
      (hzero.num.trans Num.zero_eq_ofInt)⟩
    rw [hvs, ← num_limbs, hzero.num_ne hi hir, hnum, ht₁]
    rfl
  rw [if_neg h1]
  have hpos : 0 < u32.toNat := Nat.pos_of_ne_zero fun he => h0 (UInt32.toNat_inj.mp he)
  obtain ⟨hdiv, hrem⟩ := divSmall_spec hpos u32.toNat_lt l
  have hquot : PGBigNumber.mag (trim (divSmall u32.toNat l).1) = PGBigNumber.mag l / u32.toNat := by
    rw [mag_trim, ← hdiv, Nat.mul_comm, Nat.mul_add_div hpos, Nat.div_eq_of_lt hrem, Nat.add_zero]
  have hmod : (divSmall u32.toNat l).2 = PGBigNumber.mag l % u32.toNat := by
    rw [← hdiv, Nat.mul_comm, Nat.mul_add_mod, Nat.mod_eq_of_lt hrem]
  have hq := quotient_puts (R := fun _ => False) h hi u32.toNat
    (if (σ.sign i).signum = 1 then .pos else .neg)
  rw [hlimbs, ht₁] at hq
  rw [hlimbs, ht₁]
  have ha := assignI64_puts (R := fun _ => False) hq.wf (i := r) (by rw [hq.live]; exact hr)
    (divSmall u32.toNat l).2
  have hs := setSign_unless_zero (i := r) (R := (· = r)) ha.wf rfl
    (if (σ.sign i).signum > 0 then .pos else .neg)
  constructor
  · refine (hs.num_ne ?_ hir).trans ((ha.num_ne ?_ hir).trans (hq.num.trans ?_))
    · rw [ha.live, hq.live]
      exact hi
    · rw [hq.live]
      exact hi
    · rw [Num.signedInt_tdiv s hquot]
      exact Num.signed_or_zero s (trimmed_trim _)
  · apply hs.num.trans
    have hlt := u32.toNat_lt
    have hr64 : Num.ofI64 ((divSmall u32.toNat l).2 : Nat) =
        Num.ofInt ((divSmall u32.toNat l).2 : Nat) := by
      apply Num.ofI64_eq ⟨by omega, by omega⟩
      unfold Num.TopLimbZero
      omega
    have ht₂ : (if (σ.sign i).signum > 0 then Sign.pos else Sign.neg) =
        if s then .pos else .neg := by rw [hsign]; cases s <;> rfl
    rw [ha.num, hr64, ht₂, Num.signedInt_tmod, ← hmod]
    exact Num.withSign_ofInt s _

def SharedBy (σ : Store) (n u : Nat) : Prop :=
  ∀ j < σ.live, j ≠ n → (σ.obj j).data = (σ.obj n).data → j = u

theorem Sole.sharedBy {u : Nat} (h : σ.Sole n) : σ.SharedBy n u :=
  fun j hj hjn hd => absurd hd (h j hj hjn)

private theorem shiftLeftAssign_data (h : σ.Wf) (hi : i < σ.live) {k : Nat}
    (hrun : σ.shiftLeftAssign i k = some σ₁) :
    (∀ j, j ≠ i → σ₁.obj j = σ.obj j) ∧
      ((σ₁.obj i).data = (σ.obj i).data ∨ (σ₁.obj i).data = σ.next) ∧
      (σ.isZero i = false → 0 < k → σ₁.Sole i) := by
  unfold shiftLeftAssign at hrun
  by_cases h0 : σ.isZero i = true
  · rw [if_pos h0] at hrun
    obtain rfl := Option.some.inj hrun
    exact ⟨fun _ _ => rfl, Or.inl rfl, fun hf => by simp [h0] at hf⟩
  rw [if_neg h0] at hrun
  by_cases hk : k > 0
  · rw [if_pos hk] at hrun
    obtain ⟨s, -, rfl⟩ := Option.map_eq_some_iff.mp hrun
    refine ⟨fun j hji => ?_, ?_, fun _ _ => Sole.putMag (Sole.ready h hi)⟩
    · rw [obj_putMag_ne hji, obj_cloneData_ne hji, obj_beginWrite_ne hji]
    · rw [data_putMag, show (σ.obj i).data = ((σ.beginWrite i).obj i).data from (data_beginWrite i).symm]
      exact data_cloneData_self
  · rw [if_neg hk] at hrun
    obtain rfl := Option.some.inj hrun
    exact ⟨fun _ _ => rfl, Or.inl rfl, fun _ hp => absurd hp hk⟩

/-- The scaled operands of `knuthDivImpl`: the dividend may still share its vector with `u`. -/
structure Scaled (σ : Store) (u v s : Nat) (σ' : Store) : Prop where
  live : σ'.live = σ.live + 2
  keeps : Keeps σ.live (· = u) σ σ'
  shared : σ'.SharedBy σ.live u
  sign : σ'.sign σ.live = .pos
  calcued : ∀ j < σ.live, (σ'.obj j).calcued = (σ.obj j).calcued
  dividend : ∃ l, σ'.limbs σ.live = l ++ [0] ∧ (σ.limbs u).length ≤ l.length ∧
    PGBigNumber.mag l = PGBigNumber.mag (σ.limbs u) * 2 ^ s
  divisor_length : (σ.limbs v).length ≤ (σ'.limbs (σ.live + 1)).length
  divisor_mag : PGBigNumber.mag (σ'.limbs (σ.live + 1)) = PGBigNumber.mag (σ.limbs v) * 2 ^ s
  divisor_trimmed : Trimmed (σ.limbs v) → Trimmed (σ'.limbs (σ.live + 1))

private theorem shiftLeftAssign_zero (i : Nat) : σ.shiftLeftAssign i 0 = some σ := by
  unfold shiftLeftAssign
  split <;> rfl

private theorem scaled_sharedBy (h : σ.Wf) {u v s : Nat} (hu : u < σ.live) (hv : v < σ.live)
    (huv : u ≠ v) (hsole : σ.Sole u) {τ τ₁ τ₂ : Store} (hτ : τ = (σ.pushCopy u).pushCopy v)
    (hwf : τ.Wf) (hwf₁ : τ₁.Wf) (hlive : τ.live = σ.live + 2) (hlive₁ : τ₁.live = σ.live + 2)
    (hlive₂ : τ₂.live = σ.live + 2) (hz : τ.isZero σ.live = false)
    (hrun₁ : τ.shiftLeftAssign σ.live s = some τ₁)
    (hrun₂ : τ₁.shiftLeftAssign (σ.live + 1) s = some τ₂) : τ₂.SharedBy σ.live u := by
  by_cases hs : 0 < s
  · obtain ⟨-, -, hsole₁⟩ := shiftLeftAssign_data hwf (by omega) hrun₁
    obtain ⟨hd₂, hself₂, -⟩ := shiftLeftAssign_data hwf₁ (by omega) hrun₂
    have hsole₁ := hsole₁ hz hs
    apply Sole.sharedBy
    intro j hj hjn
    simp only
    rw [hd₂ σ.live (by omega)]
    by_cases hjv : j = σ.live + 1
    · subst hjv
      rcases hself₂ with hsame | hnext
      · rw [hsame]
        exact hsole₁ (σ.live + 1) (by omega) hjn
      · rw [hnext]
        exact Nat.ne_of_gt (hwf₁ σ.live (by omega)).2
    · rw [hd₂ j hjv]
      exact hsole₁ j (by omega) hjn
  · obtain rfl : s = 0 := by omega
    obtain rfl : τ = τ₁ := Option.some.inj ((shiftLeftAssign_zero _).symm.trans hrun₁)
    obtain rfl : τ = τ₂ := Option.some.inj ((shiftLeftAssign_zero _).symm.trans hrun₂)
    have hl₁ : (σ.pushCopy u).live = σ.live + 1 := (pushCopy_pushes (R := fun _ => True) h hu trivial).live
    have hdn : (τ.obj σ.live).data = (σ.obj u).data := by
      rw [hτ, obj_pushCopy_ne (by omega), data_pushCopy_self]
    have hdv : (τ.obj (σ.live + 1)).data = (σ.obj v).data := by
      rw [← hl₁, hτ, data_pushCopy_self, obj_pushCopy_ne (by omega)]
    intro j hj hjn hd
    rw [hdn] at hd
    by_cases hjv : j = σ.live + 1
    · subst hjv
      rw [hdv] at hd
      exact absurd hd (hsole v hv (Ne.symm huv))
    · have hdj : (τ.obj j).data = (σ.obj j).data := by
        rw [hτ, obj_pushCopy_ne (by omega), obj_pushCopy_ne (by omega)]
      rw [hdj] at hd
      by_contra hju
      exact hsole j (by omega) hju hd

theorem knuthScale_spec (h : σ.Wf) {u v : Nat} (hu : u < σ.live) (hv : v < σ.live) (huv : u ≠ v)
    (hsole : σ.Sole u) (hsu : σ.sign u = .pos) (hsv : σ.sign v = .pos) (hlu : σ.limbs u ≠ [])
    (hlv : σ.limbs v ≠ []) (s : Nat) :
    ∃ σ', σ.knuthScale u v s = some σ' ∧ Scaled σ u v s σ' := by
  have h₁ := pushCopy_pushes (R := fun _ => True) h hu trivial
  have hl₁ := h₁.live
  have h₂ := pushCopy_pushes (R := fun _ => True) h₁.wf (j := v) (by omega) trivial
  have hl₂ := h₂.live
  set σ₁ := σ.pushCopy u with hσ₁
  set σ₂ := σ₁.pushCopy v with hσ₂
  set n := σ.live with hn
  have hnum_n : σ₂.num n = ⟨.pos, σ.limbs u⟩ := by
    rw [h₂.num_old (by omega), h₁.num, num, hsu]
  have hnum_v : σ₂.num (n + 1) = ⟨.pos, σ.limbs v⟩ := by
    rw [← hl₁, h₂.num, h₁.num_old hv, num, hsv]
  obtain ⟨lu, hshl_u, hmag_u, hlen_u, -⟩ := Num.shl_pos hlu s
  obtain ⟨lv, hshl_v, hmag_v, hlen_v, htrim_v⟩ := Num.shl_pos hlv s
  obtain ⟨σ₃, hrun₃, h₃⟩ := shiftLeftAssign_puts h₂.wf (i := n) (by omega)
    (hnum_n ▸ hshl_u)
  have hl₃ := h₃.live
  obtain ⟨σ₄, hrun₄, h₄⟩ := shiftLeftAssign_puts h₃.wf (i := n + 1) (by omega)
    (by rw [h₃.num_ne (by omega) (by omega), hnum_v, hshl_v])
  have hl₄ := h₄.live
  have hnum₄ : σ₄.num n = ⟨.pos, lu⟩ := (h₄.num_ne (by omega) (by omega)).trans h₃.num
  have hlimbs₄ : σ₄.limbs n = lu := by rw [← num_limbs, hnum₄]
  have hz : σ₂.isZero n = false := by
    rw [isZero, ← num_sign, hnum_n]
    rfl
  have hshared : σ₄.SharedBy n u :=
    scaled_sharedBy h hu hv huv hsole (by rw [hσ₂, hσ₁]) h₂.wf h₃.wf (by omega) (by omega) (by omega)
      hz hrun₃ hrun₄
  have hwf_n := (h₄.wf n (by omega)).1
  have hput : Keeps σ₄.live (fun k => k = n ∨ k = u) σ₄ (σ₄.putMag n ((σ₄.mag n).append 0)) :=
    Keeps.putMag_of h₄.wf.good (Or.inl rfl) (Slice.append_wf hwf_n 0) fun j hj hjn hd =>
      Or.inr ⟨Or.inr (Or.inr (hshared j hj hjn hd)), Slice.length_le_append _ _⟩
  have hdiv : (σ₄.putMag n ((σ₄.mag n).append 0)).limbs (n + 1) = lv := by
    have := hput.num (n + 1) (by omega) (by omega)
    rw [h₄.num] at this
    rw [← num_limbs, this]
  refine ⟨σ₄.putMag n ((σ₄.mag n).append 0), ?_, ?_⟩
  · simp only [knuthScale, Option.bind_eq_bind]
    rw [hrun₃, Option.bind_some, hrun₄, Option.bind_some]
  refine ⟨by rw [live_putMag]; omega, ?_, ?_, ?_, fun j hj => ?_, ⟨lu, ?_, hlen_u, hmag_u⟩, ?_,
    ?_, ?_⟩
  · refine (h₁.keepsAt (Nat.le_refl _)).then fun _ => (h₂.keepsAt (by omega)).then fun _ =>
      (h₃.keepsAt (by omega) fun hlt => by omega).then fun _ =>
      (h₄.keepsAt (by omega) fun hlt => by omega).then fun _ => ?_
    exact hput.mono (by omega) fun j hj hor => hor.resolve_left (by omega)
  · intro j hj hjn hd
    rw [data_putMag, data_putMag] at hd
    exact hshared j hj hjn hd
  · rw [sign_putMag, ← num_sign, hnum₄]
  · rw [calcued_putMag, (shiftLeftAssign_data h₃.wf (by omega) hrun₄).1 j (by omega),
      (shiftLeftAssign_data h₂.wf (by omega) hrun₃).1 j (by omega), hσ₂,
      obj_pushCopy_ne (by omega), hσ₁, obj_pushCopy_ne (by omega)]
  · rw [limbs_eq, mag_putMag_self, Slice.toList_append hwf_n, ← limbs_eq, hlimbs₄]
  · rw [hdiv]
    exact hlen_v
  · rw [hdiv]
    exact hmag_v
  · rw [hdiv]
    exact htrim_v

private theorem obj_shiftRightAssign (hji : j ≠ i) (k : Nat) :
    (σ.shiftRightAssign i k).obj j = σ.obj j := by
  unfold shiftRightAssign
  dsimp only
  split_ifs <;>
    simp [beNegOne, beUnit, beZero, obj_modify_ne hji, obj_putMag_ne hji, obj_newMag_ne hji,
      obj_cloneData_ne hji, obj_beginWrite_ne hji]

section save

variable {uMag qArr : List UInt32} {u : Nat}

private theorem sign_setSign_both (h : Good n σ) (hq : q < n) (t : Sign) :
    ((σ.setSign q t).setSign r t).sign q = t ∧ ((σ.setSign q t).setSign r t).sign r = t := by
  refine ⟨?_, sign_setSign_self⟩
  by_cases hqr : q = r
  · subst hqr
    exact sign_setSign_self
  · have hkeep := (Keeps.setSign (S := (· = r)) (i := r)
      (Keeps.setSign (S := (· = q)) (i := q) h rfl t).good rfl t).num q hq hqr
    rw [← num_sign, hkeep, num_sign, sign_setSign_self]

private theorem digits_slice (l : List UInt32) :
    ((Slice.empty.slice 0 l.length).assign l).Wf ∧
      ((Slice.empty.slice 0 l.length).assign l).toList = l := by
  have hwf : (Slice.empty.slice 0 l.length : Slice UInt32).Wf :=
    Slice.slice_wf Slice.empty_wf (Nat.zero_le _)
  exact ⟨Slice.assign_wf hwf l,
    Slice.toList_assign hwf (by rw [Slice.count_slice (Nat.zero_le _), Nat.sub_zero])⟩

private theorem zeroIfNone_puts {m : Nat} (h : σ.Wf) (hr : r < σ.live) (hsign : σ.sign r = .pos)
    (hlimbs : σ.limbs r = Num.limbsOf m) :
    Puts σ r (· = r) (Num.ofInt m) (if (σ.mag r).count = 0 then σ.beZero r else σ) := by
  have hcount : (σ.mag r).count = 0 ↔ m = 0 := by
    rw [← Slice.toList_eq_nil_iff (h r hr).1, ← limbs_eq, hlimbs, Num.limbsOf_eq_nil_iff]
  by_cases hzero : m = 0
  · rw [if_pos (hcount.mpr hzero), hzero]
    exact (Puts.beZero h).of_num ((Puts.beZero (R := (· = r)) h).num.trans Num.zero_eq_ofInt)
  · rw [if_neg fun hc => hzero (hcount.mp hc)]
    apply (Puts.refl (R := (· = r)) h rfl).of_num
    rw [num, hsign, hlimbs, Num.ofInt_pos (Int.natCast_pos.mpr (Nat.pos_of_ne_zero hzero))]
    rfl

/-- What the last part of `knuthDivImpl` does to the objects of its caller. -/
structure Saved (σ : Store) (q r n u s : Nat) (uMag qArr : List UInt32) (σ' : Store) : Prop where
  live : σ'.live = σ.live
  keeps : Keeps n (fun k => k = q ∨ k = r ∨ k = u) σ σ'
  quotient : q ≠ r → σ'.num q = ⟨.pos, trim qArr⟩
  remainder : σ'.num r = Num.ofInt (PGBigNumber.mag uMag / 2 ^ s : Nat)
  caches : (σ.obj q).calcued = false → (σ.obj r).calcued = false → σ'.CacheOk q ∧ σ'.CacheOk r

theorem knuthSave_spec (uMag qArr : List UInt32) (h : σ.Wf) (hlive : σ.live = n + 2) (hq : q < n)
    (hr : r < n)
    (hshared : σ.SharedBy n u) (hsign : σ.sign n = .pos)
    (hlen : uMag.length = (σ.mag n).count) (s : Nat) :
    Saved σ q r n u s uMag qArr (σ.knuthSave q r n s uMag qArr) := by
  have hn : n < σ.live := by omega
  have hwf := (h n hn).1
  set σ₁ := σ.putMag n ((σ.mag n).assign uMag) with hσ₁
  have k₁ : Keeps (n + 2) (fun k => k = n ∨ k = u) σ σ₁ :=
    Keeps.putMag_of (hlive ▸ h.good) (Or.inl rfl) (Slice.assign_wf hwf uMag) fun j hj hjn hd =>
      Or.inr ⟨Or.inr (Or.inr (hshared j hj hjn hd)), Slice.length_le_assign hwf uMag⟩
  have hnum₁ : σ₁.num n = ⟨.pos, uMag⟩ := by
    rw [num_eq, hσ₁, mag_putMag_self, sign_putMag, hsign, Slice.toList_assign hwf hlen]
  set σ₃ := (σ₁.setSign q .pos).setSign r .pos with hσ₃
  have k₃ : Keeps (n + 2) (fun k => k = q ∨ k = r) σ₁ σ₃ :=
    (Keeps.setSign k₁.good (Or.inl rfl) .pos).then fun h => .setSign h (Or.inr rfl) .pos
  obtain ⟨hq₃, hr₃⟩ : σ₃.sign q = .pos ∧ σ₃.sign r = .pos :=
    sign_setSign_both k₁.good (by omega) .pos
  set s₀ := (Slice.empty.slice 0 qArr.length).assign qArr with hs₀
  obtain ⟨hs₀wf, hs₀list⟩ : s₀.Wf ∧ s₀.toList = qArr := digits_slice qArr
  set σ₄ := σ₃.newMag q (eraseZerosSuffix s₀) with hσ₄
  have k₄ : Keeps (n + 2) (· = q) σ₃ σ₄ :=
    Keeps.newMag (S := (· = q)) k₃.good rfl (eraseZerosSuffix_wf hs₀wf)
  have hnum_q₄ : σ₄.num q = ⟨.pos, trim qArr⟩ := by
    rw [num_eq, hσ₄, mag_newMag_self, sign_newMag, hq₃, toList_eraseZerosSuffix hs₀wf, hs₀list]
  have hnum_n₄ : σ₄.num n = ⟨.pos, uMag⟩ :=
    (k₄.num n (by omega) (by omega)).trans ((k₃.num n (by omega) (by omega)).trans hnum₁)
  have hlive₄ : σ₄.live = n + 2 := hlive
  have hwf₄ := (k₄.good.wf n (by omega)).1
  set σ₅ := σ₄.putMag n (eraseZerosSuffix (σ₄.mag n)) with hσ₅
  have k₅ : Keeps (n + 2) (· = n) σ₄ σ₅ :=
    Keeps.putMag_data (S := (· = n)) k₄.good rfl (eraseZerosSuffix_wf hwf₄)
      (eraseZerosSuffix_data hwf₄)
  have hnum_n₅ : σ₅.num n = ⟨.pos, trim uMag⟩ := by
    have hl := congrArg Num.limbs hnum_n₄
    have hs := congrArg Num.sign hnum_n₄
    simp only [num_limbs, num_sign] at hl hs
    rw [num_eq, hσ₅, mag_putMag_self, sign_putMag, hs, toList_eraseZerosSuffix hwf₄, ← limbs_eq, hl]
  set σ₆ := σ₅.shiftRightAssign n s with hσ₆
  have p₆ := shiftRightAssign_puts k₅.good.wf (i := n) (by rw [hσ₅, live_putMag]; omega) s
  have k₆ : Keeps (n + 2) (· = n) σ₅ σ₆ := hlive₄ ▸ p₆.keeps
  have hlive₆ : σ₆.live = n + 2 := p₆.live.trans hlive₄
  have hlimbs₆ : σ₆.limbs n = Num.limbsOf (PGBigNumber.mag uMag / 2 ^ s) := by
    have := congrArg Num.limbs p₆.num
    rw [num_limbs, hnum_n₅, Num.shr_pos_limbs (trimmed_trim _), mag_trim] at this
    exact this
  set σ₇ := σ₆.shareMag r n with hσ₇
  have k₇ : Keeps (n + 2) (· = r) σ₆ σ₇ := Keeps.shareMag (S := (· = r)) k₆.good rfl (by omega)
  set σ₈ := σ₇.newMag n Slice.empty with hσ₈
  have k₈ : Keeps (n + 2) (· = n) σ₇ σ₈ :=
    Keeps.newMag (S := (· = n)) k₇.good rfl Slice.empty_wf
  have hsign_r : σ₈.sign r = .pos := by
    have h₅ := congrArg Num.sign ((k₆.num r (by omega) (by omega)).trans (k₅.num r (by omega)
      (by omega)))
    simp only [num_sign] at h₅
    rw [hσ₈, sign_newMag, hσ₇, sign_shareMag, h₅, hσ₄, sign_newMag, hr₃]
  have hlimbs_r : σ₈.limbs r = Num.limbsOf (PGBigNumber.mag uMag / 2 ^ s) := by
    have := congrArg Num.limbs (k₈.num r (by omega) (by omega))
    simp only [num_limbs] at this
    rw [this, limbs_eq, hσ₇, mag_shareMag_self, ← limbs_eq, hlimbs₆]
  have hlive₈ : σ₈.live = n + 2 := hlive₆
  have p₉ : Puts σ₈ r (· = r) (Num.ofInt (PGBigNumber.mag uMag / 2 ^ s : Nat))
      (if (σ₈.mag r).count = 0 then σ₈.beZero r else σ₈) :=
    zeroIfNone_puts k₈.good.wf (by omega) hsign_r hlimbs_r
  have k₉ : Keeps (n + 2) (· = r) σ₈ _ := hlive₈ ▸ p₉.keeps
  -- a step on a local object is no step on those of the caller
  have hlocal : ∀ {τ τ' : Store} {S : Nat → Prop}, Keeps (n + 2) S τ τ' →
      (∀ k < n, S k → k = q ∨ k = r ∨ k = u) → Keeps n (fun k => k = q ∨ k = r ∨ k = u) τ τ' :=
    fun hk hS => hk.mono (by omega) hS
  refine ⟨p₉.live.trans (hlive₈.trans hlive.symm), ?_, fun hqr => ?_, p₉.num, fun hcq hcr => ?_⟩
  · exact (hlocal k₁ (by omega)).then fun _ => (hlocal k₃ (by omega)).then fun _ =>
      (hlocal k₄ (by omega)).then fun _ => (hlocal k₅ (by omega)).then fun _ =>
      (hlocal k₆ (by omega)).then fun _ => (hlocal k₇ (by omega)).then fun _ =>
      (hlocal k₈ (by omega)).then fun _ => hlocal k₉ (by omega)
  · rw [← hnum_q₄]
    exact (k₉.num q (by omega) (by omega)).trans ((k₈.num q (by omega) (by omega)).trans
      ((k₇.num q (by omega) (by omega)).trans ((k₆.num q (by omega) (by omega)).trans
        (k₅.num q (by omega) (by omega)))))
  · have hcr₈ : (σ₈.obj r).calcued = false := by
      rw [hσ₈, calcued_newMag, hσ₇, calcued_shareMag, hσ₆, obj_shiftRightAssign (by omega), hσ₅,
        calcued_putMag, hσ₄, calcued_newMag, hσ₃, calcued_setSign, calcued_setSign, hσ₁,
        calcued_putMag, hcr]
    have hok_r := p₉.cache fun j hj => hj ▸ CacheOk.of_not_calcued hcr₈
    refine ⟨?_, hok_r⟩
    by_cases hqr : q = r
    · subst hqr
      exact hok_r
    have hcq₄ : (σ₄.obj q).calcued = false := by
      rw [hσ₄, calcued_newMag, hσ₃, calcued_setSign, calcued_setSign, hσ₁, calcued_putMag, hcq]
    exact k₉.cache q (by omega) (by omega) (k₈.cache q (by omega) (by omega)
      (k₇.cache q (by omega) (by omega) (k₆.cache q (by omega) (by omega)
        (k₅.cache q (by omega) (by omega) (.of_not_calcued hcq₄)))))

end save

/-- What `knuthDivImpl` leaves: the quotient and the remainder of the magnitudes. -/
structure Divided (σ : Store) (q r u v : Nat) (σ' : Store) : Prop where
  live : σ'.live = σ.live
  keeps : Keeps σ.live (fun k => k = q ∨ k = r ∨ k = u) σ σ'
  quotient : q ≠ r → σ'.num q =
    ⟨.pos, Num.limbsOf (PGBigNumber.mag (σ.limbs u) / PGBigNumber.mag (σ.limbs v))⟩
  remainder : σ'.num r =
    Num.ofInt (PGBigNumber.mag (σ.limbs u) % PGBigNumber.mag (σ.limbs v) : Nat)
  caches : (σ.obj q).calcued = false → (σ.obj r).calcued = false → σ'.CacheOk q ∧ σ'.CacheOk r

private theorem get_top (h : σ.Wf) (hv : j < σ.live) (hcount : 0 < (σ.mag j).count) :
    (σ.mag j).get ((σ.mag j).count - 1) = (σ.limbs j).getLastD 0 := by
  have hlen := h.length_limbs hv
  rw [Slice.get_eq (h j hv).1 _ (by omega), ← limbs_eq, ← hlen, List.getLastD_eq_getLast?,
    List.getLast?_eq_getElem?, List.getD_eq_getElem?_getD]
  rfl

theorem normalise_top (h : σ.Wf) {v : Nat} (hv : v < σ.live) (hpos : 0 < (σ.mag v).count)
    (htrim : Trimmed (σ.limbs v)) :
    ∃ s < 32, normalise 32 ((σ.mag v).get ((σ.mag v).count - 1)).toNat 0 = some s ∧
      2 ^ 31 ≤ ((σ.limbs v).getLastD 0).toNat * 2 ^ s ∧
      ((σ.limbs v).getLastD 0).toNat * 2 ^ s < 2 ^ 32 := by
  have hne : σ.limbs v ≠ [] := List.ne_nil_of_length_pos (by rwa [h.length_limbs hv])
  have htop : 0 < ((σ.limbs v).getLastD 0).toNat := by
    rw [List.getLastD_eq_getLast?, List.getLast?_eq_getLast_of_ne_nil hne]
    exact Nat.pos_of_ne_zero (htrim.getLast_ne hne)
  rw [get_top h hv hpos]
  exact normalise_spec htop (UInt32.toNat_lt _) (by decide)

/-- `knuthDivImpl` returns exactly when the top limb of the divisor is not zero. -/
theorem knuthDivImpl_spec (h : σ.Wf) {u v : Nat} (hq : q < σ.live) (hr : r < σ.live)
    (hu : u < σ.live) (hv : v < σ.live) (huv : u ≠ v) (hsole : σ.Sole u) (hsu : σ.sign u = .pos)
    (hsv : σ.sign v = .pos) (hcount : (σ.mag v).count < (σ.mag u).count)
    (h2 : 2 ≤ (σ.mag v).count) (htrim : Trimmed (σ.limbs v)) :
    ∃ σ', σ.knuthDivImpl q r u v = some σ' ∧ Divided σ q r u v σ' := by
  have hlu := h.length_limbs hu
  have hlv := h.length_limbs hv
  obtain ⟨s, hs, hnorm, hlow, hhigh⟩ := normalise_top h hv (by omega) htrim
  obtain ⟨σ₁, hscale, h₁⟩ := knuthScale_spec h hu hv huv hsole hsu hsv
    (List.ne_nil_of_length_pos (by omega)) (List.ne_nil_of_length_pos (by omega)) s
  obtain ⟨lu, hlimbs, hlen, hmag⟩ := h₁.dividend
  obtain ⟨uMag, qArr, hloop, hqlen, hulen, hqmag, humag⟩ := divLoop_scaled hs
    (by rw [hlv]; exact h2) hlow hhigh (by omega) hmag hlen h₁.divisor_mag
    (h₁.divisor_trimmed htrim) h₁.divisor_length
  have hlive₁ := h₁.live
  have h₂ := knuthSave_spec (q := q) (r := r) (u := u) uMag qArr
    h₁.keeps.good.wf hlive₁ hq hr h₁.shared h₁.sign (by
      rw [hulen, ← h₁.keeps.good.wf.length_limbs (by omega), hlimbs, List.length_append]
      rfl) s
  refine ⟨(σ₁.knuthSave q r σ.live s uMag qArr).popTo σ.live, ?_, rfl, ?_, fun hqr => ?_, ?_,
    fun hcq hcr => ?_⟩
  · simp only [knuthDivImpl, Option.bind_eq_bind]
    rw [if_neg (by omega), hnorm, Option.bind_some, hscale, Option.bind_some, hlimbs, ← hlu, ← hlv, hloop, Option.bind_some]
  · apply (h₁.keeps.mono (Nat.le_refl _) fun j _ hj => Or.inr (Or.inr hj)).then
    intro _
    exact h₂.keeps.then fun hg => .popTo hg (Nat.le_refl _) (by rw [h₂.live]; omega)
  · have hnum := h₂.quotient hqr
    rw [← Num.limbsOf_mag (trimmed_trim qArr), mag_trim, hqmag] at hnum
    exact hnum
  · have hnum := h₂.remainder
    rw [humag, Nat.mul_div_cancel _ (Nat.two_pow_pos s)] at hnum
    exact hnum
  · exact h₂.caches ((h₁.calcued q hq).trans hcq) ((h₁.calcued r hr).trans hcr)

/-- A divisor with a zero limb on top keeps the normalising loop running. -/
theorem knuthDivImpl_trimmed (h : σ.Wf) {u v : Nat} (hv : v < σ.live)
    (hrun : σ.knuthDivImpl q r u v = some σ₁) :
    2 ≤ (σ.mag v).count ∧ Trimmed (σ.limbs v) := by
  simp only [knuthDivImpl, Option.bind_eq_bind] at hrun
  by_cases hN : (σ.mag v).count ≤ 1
  · rw [if_pos hN] at hrun
    exact absurd hrun (by simp)
  rw [if_neg hN, get_top h hv (by omega)] at hrun
  refine ⟨by omega, fun hlast => ?_⟩
  have hzero : ((σ.limbs v).getLastD 0).toNat = 0 := by
    rw [List.getLastD_eq_getLast?, hlast]
    rfl
  rw [hzero, normalise_zero] at hrun
  exact absurd hrun (by simp)

end Store

end PGBigNumber
