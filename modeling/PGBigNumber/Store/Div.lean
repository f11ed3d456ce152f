import PGBigNumber.Store.Knuth

/-!
# Division

`div` copies its operands and sends them down one of four paths: a zero dividend, one limb,
a dividend that is not greater than the divisor, and `knuthDivImpl`. The quotient and the remainder
go to two objects of the caller.
-/

namespace PGBigNumber

namespace Store

def setReminderSign (σ : Store) (r : Nat) (aSigNum : Int) : Store :=
  if σ.isZero r then σ else σ.setSign r (if aSigNum < 0 then .neg else .pos)

def divOneLimb (σ : Store) (q r a b : Nat) (aSigNum bSigNum : Int) : Store :=
  let σ := σ.assign q a
  let σ := σ.divideAssignAndReminderByU32 q ((σ.mag b).get 0) r
  let σ := if σ.isZero q then σ else σ.setSign q (if aSigNum = bSigNum then .pos else .neg)
  σ.setReminderSign r aSigNum

/-- `div` for `|a| ≤ |b|`; `n` is the local `dividend`. -/
def divNotGreater (σ : Store) (q r n : Nat) (cmpCode aSigNum bSigNum : Int) : Store :=
  if cmpCode = 0 then
    (if aSigNum = bSigNum then σ.beOne q else σ.beNegOne q).beZero r
  else ((σ.beZero q).assign r n).setSign r (if aSigNum > 0 then .pos else .neg)

/-- `div` for `|a| > |b|`; `n` and `n + 1` are the locals `dividend` and `divisor`. -/
def divKnuth (σ : Store) (q r n : Nat) (aSigNum bSigNum : Int) : Option Store := do
  let σ := (σ.beginWrite n).cloneData n
  let σ := if (σ.mag n).count = (σ.mag (n + 1)).count then σ.putMag n ((σ.mag n).append 0) else σ
  let σ ← σ.knuthDivImpl q r n (n + 1)
  let σ := σ.setSign q (if aSigNum = bSigNum then .pos else .neg)
  some ((σ.setReminderSign r aSigNum).setStatus .success)

/-- The store of `div` once its locals `dividend` and `divisor` are made. -/
def operands (σ : Store) (a b : Nat) : Store :=
  (((σ.pushCopy a).pushCopy b).setSign σ.live .pos).setSign (σ.live + 1) .pos

/-- `div` from `aSigNum` on; `n` and `n + 1` are its locals. -/
def divPaths (σ : Store) (q r a b n : Nat) : Option Store :=
  let aSigNum := (σ.sign a).signum
  let bSigNum := (σ.sign b).signum
  if bSigNum = 0 then some (σ.setStatus .divBy0)
  else if aSigNum = 0 then some ((σ.beZero q).beZero r)
  else if (σ.mag b).count = 1 then some (σ.divOneLimb q r a b aSigNum bSigNum)
  else
    let cmpCode := σ.cmp n (n + 1)
    if cmpCode ≤ 0 then some (σ.divNotGreater q r n cmpCode aSigNum bSigNum)
    else σ.divKnuth q r n aSigNum bSigNum

def div (σ : Store) (q r a b : Nat) : Option Store :=
  ((σ.operands a b).divPaths q r a b σ.live).map (·.popTo σ.live)

variable {σ σ₁ σ₂ : Store} {i j n q r a b : Nat} {S T R : Nat → Prop} {x y : Num}

theorem setReminderSign_puts (h : σ.Wf) (aSigNum : Int) :
    Puts σ r (· = r) (Num.withSign (if aSigNum < 0 then .neg else .pos) (σ.num r))
      (σ.setReminderSign r aSigNum) := setSign_unless_zero (R := (· = r)) h rfl _

theorem divOneLimb_writes (h : σ.Wf) (hq : q < σ.live) (hr : r < σ.live) (ha : a < σ.live)
    (aSigNum bSigNum : Int) :
    Writes σ (fun k => k = q ∨ k = r) (σ.divOneLimb q r a b aSigNum bSigNum) := by
  have h₁ := (Puts.assign (i := q) (R := (· = a)) h ha rfl).writes (S := fun k => k = q ∨ k = r)
    (Or.inl rfl) fun _ he => he ▸ ha
  have h₂ := h₁.trans (divideAssignAndReminderByU32_writes h₁.wf (by rw [h₁.live]; exact hq)
    (by rw [h₁.live]; exact hr) (((σ.assign q a).mag b).get 0))
  have h₃ := h₂.trans ((setSign_unless_zero (R := (· = q)) h₂.wf rfl
    (if aSigNum = bSigNum then .pos else .neg)).writes (Or.inl rfl) fun _ he => by
      rw [he, h₂.live]; exact hq)
  exact h₃.trans ((setReminderSign_puts h₃.wf aSigNum).writes (Or.inr rfl) fun _ he => by
    rw [he, h₃.live]; exact hr)

theorem divOneLimb_num (h : σ.Wf) (hq : q < σ.live) (hr : r < σ.live) (ha : a < σ.live)
    (hqr : q ≠ r) {v : Int} (hv : σ.num a = Num.ofInt v) (s : Bool) (aSigNum bSigNum : Int)
    (hs : s = decide (aSigNum = bSigNum)) {m : UInt32}
    (hm : ((σ.assign q a).mag b).get 0 = m) :
    (σ.divOneLimb q r a b aSigNum bSigNum).num q =
        Num.withSign (if s then .pos else .neg) (Num.ofInt (if m = 0 then v else v.tdiv m.toNat)) ∧
      (σ.divOneLimb q r a b aSigNum bSigNum).num r =
        Num.withSign (if aSigNum < 0 then .neg else .pos)
          (if m = 0 then σ.num r else Num.ofInt (v.tmod m.toNat)) := by
  have h₁ := Puts.assign (i := q) (R := fun _ => True) h ha trivial
  have hq₁ : (σ.assign q a).num q = Num.ofInt v := h₁.num.trans hv
  have hw₂ := divideAssignAndReminderByU32_writes (i := q) (r := r) h₁.wf (by rw [h₁.live]; exact hq)
    (by rw [h₁.live]; exact hr) m
  have h₂ : ((σ.assign q a).divideAssignAndReminderByU32 q m r).num q =
        Num.ofInt (if m = 0 then v else v.tdiv m.toNat) ∧
      ((σ.assign q a).divideAssignAndReminderByU32 q m r).num r =
        if m = 0 then σ.num r else Num.ofInt (v.tmod m.toNat) := by
    by_cases h0 : m = 0
    · rw [if_pos h0, if_pos h0, divideAssignAndReminderByU32, if_pos h0]
      exact ⟨hq₁, h₁.num_ne hr (Ne.symm hqr)⟩
    · rw [if_neg h0, if_neg h0]
      exact divideAssignAndReminderByU32_num h₁.wf (by rw [h₁.live]; exact hq)
        (by rw [h₁.live]; exact hr) hqr hq₁ h0
  have h₃ := setSign_unless_zero (i := q) (R := (· = q)) hw₂.wf rfl
    (if aSigNum = bSigNum then .pos else .neg)
  have h₄ := setReminderSign_puts (r := r) h₃.wf aSigNum
  have hlive : ((σ.assign q a).divideAssignAndReminderByU32 q m r).live = σ.live :=
    hw₂.live.trans h₁.live
  have ht : (if aSigNum = bSigNum then Sign.pos else Sign.neg) = if s then .pos else .neg := by
    subst hs
    simp
  rw [divOneLimb, hm]
  refine ⟨?_, ?_⟩
  · apply (h₄.num_ne (by rw [h₃.live, hlive]; exact hq) hqr).trans
    rw [h₃.num, h₂.1, ht]
  · apply h₄.num.trans
    rw [h₃.num_ne (by rw [hlive]; exact hr) (Ne.symm hqr), h₂.2]

theorem divNotGreater_writes (h : σ.Wf) (hr : r < σ.live) (hn : n < σ.live)
    (cmpCode aSigNum bSigNum : Int) :
    Writes σ (fun k => k = q ∨ k = r) (σ.divNotGreater q r n cmpCode aSigNum bSigNum) := by
  unfold divNotGreater
  split
  · have h₁ : Writes σ (fun k => k = q ∨ k = r)
        (if aSigNum = bSigNum then σ.beOne q else σ.beNegOne q) := by
      split
      · exact (Puts.beOne (R := fun _ => False) h).writes (Or.inl rfl) fun _ hf => hf.elim
      · exact (Puts.beNegOne (R := fun _ => False) h).writes (Or.inl rfl) fun _ hf => hf.elim
    exact h₁.trans (.beZero h₁.wf (Or.inr rfl))
  · have h₁ := Writes.beZero (i := q) (S := fun k => k = q ∨ k = r) h (Or.inl rfl)
    have h₂ := h₁.trans ((Puts.assign (i := r) (R := (· = n)) h₁.wf hn rfl).writes (Or.inr rfl)
      fun _ he => he ▸ hn)
    exact h₂.trans (.setSign h₂.wf (by rw [h₂.live]; exact hr) (Or.inr rfl) _)

theorem divNotGreater_num (h : σ.Wf) (hq : q < σ.live) (hn : n < σ.live)
    (hqr : q ≠ r) (hqn : q ≠ n) (cmpCode aSigNum bSigNum : Int) :
    (σ.divNotGreater q r n cmpCode aSigNum bSigNum).num q = (if cmpCode = 0 then
        (if aSigNum = bSigNum then Num.one else Num.negOne) else Num.zero) ∧
      (σ.divNotGreater q r n cmpCode aSigNum bSigNum).num r = (if cmpCode = 0 then Num.zero
        else ⟨if aSigNum > 0 then .pos else .neg, σ.limbs n⟩) := by
  unfold divNotGreater
  split
  · have h₁ : Puts σ q (fun _ => False) (if aSigNum = bSigNum then Num.one else Num.negOne)
        (if aSigNum = bSigNum then σ.beOne q else σ.beNegOne q) := by
      split
      · exact .beOne h
      · exact .beNegOne h
    have h₂ := Puts.beZero (i := r) (R := fun _ => False) h₁.wf
    exact ⟨(h₂.num_ne (by rw [h₁.live]; exact hq) hqr).trans h₁.num, h₂.num⟩
  · have h₁ := Puts.beZero (i := q) (R := fun _ => False) h
    have h₂ := Puts.assign (i := r) (j := n) (R := fun _ => True) h₁.wf hn trivial
    have h₃ := Puts.setSign (i := r) (R := fun _ => True) h₂.wf trivial
      (if aSigNum > 0 then .pos else .neg)
    refine ⟨?_, h₃.num.trans ?_⟩
    · refine (h₃.num_ne ?_ hqr).trans ((h₂.num_ne hq hqr).trans h₁.num)
      rw [h₂.live]
      exact hq
    · rw [← num_limbs, h₂.num, h₁.num_ne hn (Ne.symm hqn), num_limbs]

theorem dividend_ready (h : σ.Wf) (hlive : σ.live = n + 2) (hsn : σ.sign n = .pos)
    (hcount : (σ.mag (n + 1)).count ≤ (σ.mag n).count) :
    ∃ σ' l, (let σ := (σ.beginWrite n).cloneData n
        if (σ.mag n).count = (σ.mag (n + 1)).count then σ.putMag n ((σ.mag n).append 0) else σ) = σ' ∧
      Puts σ n (fun _ => False) ⟨.pos, l⟩ σ' ∧ σ'.Sole n ∧
      PGBigNumber.mag l = PGBigNumber.mag (σ.limbs n) ∧ (σ.mag (n + 1)).count < l.length ∧
      ∀ j < n, (σ'.obj j).calcued = (σ.obj j).calcued := by
  have hn : n < σ.live := by omega
  have h₁ := Puts.ready (i := n) (R := fun _ => False) h
  have hsole := Sole.ready h hn
  have hobj : ∀ j < n, ((σ.beginWrite n).cloneData n).obj j = σ.obj j := fun j hj => by
    rw [obj_cloneData_ne (by omega), obj_beginWrite_ne (by omega)]
  have hnum₁ := h₁.num
  set σ₁ := (σ.beginWrite n).cloneData n with hσ₁
  have hlive₁ := h₁.live
  have hlimbs₁ : σ₁.limbs n = σ.limbs n := toList_ready
  have hsign₁ : σ₁.sign n = .pos := by rw [← num_sign, hnum₁, num_sign, hsn]
  have hc₁ : (σ₁.mag n).count = (σ.mag n).count := by
    rw [← h₁.wf.length_limbs (by omega), hlimbs₁, h.length_limbs hn]
  have hc₂ : (σ₁.mag (n + 1)).count = (σ.mag (n + 1)).count :=
    count_of_num (h₁.num_ne (by omega) (by omega)) h₁.wf h (by omega) (by omega)
  dsimp only
  by_cases heq : (σ.mag n).count = (σ.mag (n + 1)).count
  · rw [if_pos (by rw [hc₁, hc₂, heq])]
    have hwf := (h₁.wf n (by omega)).1
    have hput := Puts.put (R := fun _ => False) h₁.wf hsole (by simp [hσ₁])
      (Slice.append_wf hwf 0)
    rw [Slice.toList_append hwf, ← limbs_eq, hlimbs₁, hsign₁] at hput
    refine ⟨_, σ.limbs n ++ [0], rfl, h₁.trans hput fun _ hf => hf.elim, hsole.putMag, ?_, ?_,
      fun j hj => ?_⟩
    · rw [mag_append, mag_singleton]
      exact Nat.add_zero _
    · rw [List.length_append, h.length_limbs hn, heq]
      exact Nat.lt_succ_self _
    · rw [calcued_putMag, hobj j hj]
  · rw [if_neg (by rw [hc₁, hc₂]; exact heq)]
    refine ⟨_, σ.limbs n, rfl, h₁.of_num ?_, hsole, rfl, ?_, fun j hj => by rw [hobj j hj]⟩
    · rw [num, hsign₁, hlimbs₁]
    · rw [h.length_limbs hn]
      omega

theorem divKnuth_trimmed (h : σ.Wf) (hlive : σ.live = n + 2) (hsn : σ.sign n = .pos)
    (hcount : (σ.mag (n + 1)).count ≤ (σ.mag n).count) {aSigNum bSigNum : Int}
    (hrun : σ.divKnuth q r n aSigNum bSigNum = some σ₁) :
    2 ≤ (σ.mag (n + 1)).count ∧ Trimmed (σ.limbs (n + 1)) := by
  obtain ⟨σ₂, l, hrun₂, h₂, -, -, -, -⟩ := dividend_ready h hlive hsn hcount
  have hlive₂ := h₂.live
  simp only [divKnuth, Option.bind_eq_bind, Option.bind_eq_some_iff] at hrun
  obtain ⟨σ₃, hknuth, -⟩ := hrun
  dsimp only at hrun₂
  rw [hrun₂] at hknuth
  have ht := knuthDivImpl_trimmed h₂.wf (by omega) hknuth
  have hnum : σ₂.num (n + 1) = σ.num (n + 1) := h₂.num_ne (by omega) (by omega)
  rw [count_of_num hnum h₂.wf h (by omega) (by omega), limbs_of_num hnum] at ht
  exact ht

structure Knuthed (σ : Store) (q r n : Nat) (aSigNum bSigNum : Int) (σ' : Store) : Prop where
  live : σ'.live = n + 2
  keeps : Keeps n (fun k => k = q ∨ k = r) σ σ'
  quotient : q ≠ r → σ'.num q = ⟨if aSigNum = bSigNum then .pos else .neg,
    Num.limbsOf (PGBigNumber.mag (σ.limbs n) / PGBigNumber.mag (σ.limbs (n + 1)))⟩
  remainder : q ≠ r → σ'.num r = Num.withSign (if aSigNum < 0 then .neg else .pos)
    (Num.ofInt (PGBigNumber.mag (σ.limbs n) % PGBigNumber.mag (σ.limbs (n + 1)) : Nat))
  caches : (σ.obj q).calcued = false → (σ.obj r).calcued = false → σ'.CacheOk q ∧ σ'.CacheOk r

theorem divKnuth_spec (h : σ.Wf) (hlive : σ.live = n + 2) (hq : q < n) (hr : r < n)
    (hsn : σ.sign n = .pos) (hsv : σ.sign (n + 1) = .pos)
    (hcount : (σ.mag (n + 1)).count ≤ (σ.mag n).count) (h2 : 2 ≤ (σ.mag (n + 1)).count)
    (htrim : Trimmed (σ.limbs (n + 1))) (aSigNum bSigNum : Int) :
    ∃ σ', σ.divKnuth q r n aSigNum bSigNum = some σ' ∧ Knuthed σ q r n aSigNum bSigNum σ' := by
  obtain ⟨σ₂, l, hrun₂, h₂, hsole, hmag, hlen, hcal⟩ := dividend_ready h hlive hsn hcount
  have hlive₂ := h₂.live
  have hlimbs_n : σ₂.limbs n = l := by rw [← num_limbs, h₂.num]
  have hnum_v := h₂.num_ne (j := n + 1) (by omega) (by omega)
  have hlimbs_v : σ₂.limbs (n + 1) = σ.limbs (n + 1) := limbs_of_num hnum_v
  have hcount_v : (σ₂.mag (n + 1)).count = (σ.mag (n + 1)).count :=
    count_of_num hnum_v h₂.wf h (by omega) (by omega)
  obtain ⟨σ₃, hrun₃, h₃⟩ := knuthDivImpl_spec (q := q) (r := r) h₂.wf (u := n) (v := n + 1)
    (by omega) (by omega) (by omega) (by omega) (by omega) hsole
    (by rw [← num_sign, h₂.num]) (by rw [← num_sign, hnum_v, num_sign, hsv])
    (by rw [hcount_v, ← h₂.wf.length_limbs (by omega), hlimbs_n]; exact hlen)
    (by rw [hcount_v]; exact h2) (by rw [hlimbs_v]; exact htrim)
  have hlive₃ := h₃.live
  set t : Sign := if aSigNum = bSigNum then .pos else .neg
  have h₄ := Puts.setSign (i := q) (R := (· = q)) h₃.keeps.good.wf rfl t
  have h₅ := setReminderSign_puts (r := r) h₄.wf aSigNum
  have hstatus := Keeps.setStatus (S := fun _ => False) h₅.wf.good .success
  refine ⟨((σ₃.setSign q t).setReminderSign r aSigNum).setStatus .success, ?_, ?_, ?_,
    fun hqr => ?_, fun hqr => ?_, fun hcq hcr => ?_⟩
  · simp only [divKnuth, Option.bind_eq_bind]
    dsimp only at hrun₂
    rw [hrun₂, hrun₃, Option.bind_some]
  · exact h₅.live.trans (h₄.live.trans (hlive₃.trans (hlive₂.trans hlive)))
  · apply (h₂.keepsAt (by omega) fun hlt => by omega).then
    intro _
    apply (h₃.keeps.mono (by omega) fun j hj hor => by omega).then
    intro _
    apply (h₄.keepsAt (by rw [hlive₃]; omega) fun _ => Or.inl rfl).then
    intro _
    apply (h₅.keepsAt (by rw [h₄.live]; omega) fun _ => Or.inr rfl).then
    intro hg
    exact .setStatus hg _
  · apply (hstatus.num q (by rw [h₅.live, h₄.live]; omega) fun hf => hf).trans
    rw [h₅.num_ne (by rw [h₄.live]; omega) hqr, h₄.num, ← num_limbs, h₃.quotient hqr, hlimbs_n,
      hlimbs_v, hmag]
  · apply (hstatus.num r (by rw [h₅.live, h₄.live]; omega) fun hf => hf).trans
    rw [h₅.num, h₄.num_ne (by omega) (Ne.symm hqr), h₃.remainder, hlimbs_n, hlimbs_v, hmag]
  · obtain ⟨hok_q, hok_r⟩ := h₃.caches ((hcal q hq).trans hcq) ((hcal r hr).trans hcr)
    have hok_q₄ := h₄.cache fun j hj => hj ▸ hok_q
    have hok_r₄ : (σ₃.setSign q t).CacheOk r := by
      by_cases hqr : r = q
      · exact hqr ▸ hok_q₄
      · exact h₄.keeps.cache r (by omega) hqr hok_r
    have hok_r₅ := h₅.cache fun j hj => hj ▸ hok_r₄
    refine ⟨?_, hok_r₅⟩
    by_cases hqr : q = r
    · exact hqr ▸ hok_r₅
    · exact h₅.keeps.cache q (by rw [h₄.live]; omega) hqr hok_q₄

/-- The locals of `div` have the magnitudes of the operands. -/
structure Operands (σ : Store) (a b : Nat) (σ' : Store) : Prop where
  live : σ'.live = σ.live + 2
  keeps : Keeps σ.live (fun _ => False) σ σ'
  dividend : σ'.num σ.live = ⟨.pos, σ.limbs a⟩
  divisor : σ'.num (σ.live + 1) = ⟨.pos, σ.limbs b⟩
  calcued : ∀ j < σ.live, (σ'.obj j).calcued = (σ.obj j).calcued
  caches : σ.CachesOk → σ'.CachesOk

theorem operands_spec (h : σ.Wf) (ha : a < σ.live) (hb : b < σ.live) :
    Operands σ a b (σ.operands a b) := by
  have h₁ := pushCopy_pushes (R := (· = a)) h ha rfl
  have hl₁ := h₁.live
  have h₂ := pushCopy_pushes (R := (· = b)) h₁.wf (j := b) (by omega) rfl
  have hl₂ := h₂.live
  have h₃ := Puts.setSign (i := σ.live) (R := (· = σ.live)) h₂.wf rfl .pos
  have h₄ := Puts.setSign (i := σ.live + 1) (R := (· = σ.live + 1)) h₃.wf rfl .pos
  have hl₃ := h₃.live
  have hl₄ := h₄.live
  refine ⟨by rw [operands]; omega, ?_, ?_, ?_, fun j hj => ?_, fun hc => ?_⟩
  · refine (h₁.keepsAt (Nat.le_refl _)).then fun _ => (h₂.keepsAt (by omega)).then fun _ => ?_
    exact (h₃.keepsAt (by omega) fun hlt => by omega).then fun _ =>
      h₄.keepsAt (by omega) fun hlt => by omega
  · refine (h₄.num_ne (by omega) (by omega)).trans (h₃.num.trans ?_)
    rw [← num_limbs, h₂.num_old (by omega), h₁.num, num_limbs]
  · apply h₄.num.trans
    rw [← num_limbs, h₃.num_ne (by omega) (by omega), ← hl₁, h₂.num, h₁.num_old hb, num_limbs]
  · rw [operands, calcued_setSign, calcued_setSign, obj_pushCopy_ne (by omega),
      obj_pushCopy_ne (by omega)]
  · have hc₂ := h₂.cachesOk (by omega) (h₁.cachesOk (by omega) hc)
    exact h₄.cachesOk (by omega) (h₃.cachesOk (by omega) hc₂)

def TakesKnuth (x y : Num) : Prop :=
  y.sign.signum ≠ 0 ∧ x.sign.signum ≠ 0 ∧ y.limbs.length ≠ 1 ∧ 0 < cmpLimbs x.limbs y.limbs

instance (x y : Num) : Decidable (TakesKnuth x y) := inferInstanceAs (Decidable (_ ∧ _))

theorem cmp_operands (h : σ.Wf) (hn : n < σ.live) (hn' : n + 1 < σ.live)
    (hx : σ.sign n = .pos) (hy : σ.sign (n + 1) = .pos) :
    σ.cmp n (n + 1) = cmpLimbs (σ.limbs n) (σ.limbs (n + 1)) := by
  rw [cmp_eq h hn hn', Num.cmp]
  simp only [num_sign, num_limbs, hx, hy]
  rfl

theorem div_divBy0 (h : σ.Wf) (ha : a < σ.live) (hb : b < σ.live)
    (hzero : (σ.num b).sign.signum = 0) :
    σ.div q r a b = some (((σ.operands a b).setStatus .divBy0).popTo σ.live) := by
  have hsign : ((σ.operands a b).sign b).signum = 0 := by
    rw [← num_sign, (operands_spec h ha hb).keeps.num b hb fun hf => hf, hzero]
  rw [div, divPaths, if_pos hsign, Option.map_some]

/-- What any run of `div` that returns does to the rest of the store. -/
theorem div_frame (h : σ.Wf) (hq : q < σ.live) (hr : r < σ.live) (ha : a < σ.live)
    (hb : b < σ.live) (hrun : σ.div q r a b = some σ₁) :
    WritesIf (TakesKnuth (σ.num a) (σ.num b) →
      (σ.obj q).calcued = false ∧ (σ.obj r).calcued = false) σ (fun k => k = q ∨ k = r) σ₁ := by
  have ho := operands_spec h ha hb
  obtain ⟨σ₂, hpaths, rfl⟩ := Option.map_eq_some_iff.mp hrun
  set τ := σ.operands a b
  have hlive := ho.live
  have hwf := ho.keeps.good.wf
  have hnum_a := ho.keeps.num a ha fun hf => hf
  have hnum_b := ho.keeps.num b hb fun hf => hf
  have hsn : τ.sign σ.live = .pos := by rw [← num_sign, ho.dividend]
  have hsv : τ.sign (σ.live + 1) = .pos := by rw [← num_sign, ho.divisor]
  have hln : τ.limbs σ.live = σ.limbs a := by rw [← num_limbs, ho.dividend]
  have hlv : τ.limbs (σ.live + 1) = σ.limbs b := by rw [← num_limbs, ho.divisor]
  have hkeeps₀ : Keeps σ.live (fun k => k = q ∨ k = r) σ τ :=
    ho.keeps.mono (Nat.le_refl _) fun _ _ hf => hf.elim
  -- every path but Knuth's has right caches without a condition
  have hwrites : ∀ {σ'}, Writes τ (fun k => k = q ∨ k = r) σ' →
      WritesIf (TakesKnuth (σ.num a) (σ.num b) →
        (σ.obj q).calcued = false ∧ (σ.obj r).calcued = false) σ (fun k => k = q ∨ k = r)
        (σ'.popTo σ.live) := fun {σ'} hw => by
    have hlive' := hw.live
    refine ⟨rfl, ?_, fun _ hc k hk => hw.caches (ho.caches hc) k ?_⟩
    · exact hkeeps₀.then fun _ => (hw.keeps.mono (by omega) fun _ _ hor => hor).then fun hg =>
        .popTo hg (Nat.le_refl _) (by omega)
    · rw [live_popTo] at hk
      omega
  unfold divPaths at hpaths
  dsimp only at hpaths
  by_cases h0 : (τ.sign b).signum = 0
  · rw [if_pos h0] at hpaths
    exact Option.some.inj hpaths ▸ hwrites (.setStatus hwf _)
  rw [if_neg h0] at hpaths
  by_cases h1 : (τ.sign a).signum = 0
  · rw [if_pos h1] at hpaths
    have hz := Writes.beZero (i := q) (S := fun k => k = q ∨ k = r) hwf (Or.inl rfl)
    exact Option.some.inj hpaths ▸ hwrites (hz.trans (.beZero hz.wf (Or.inr rfl)))
  rw [if_neg h1] at hpaths
  by_cases h2 : (τ.mag b).count = 1
  · rw [if_pos h2] at hpaths
    exact Option.some.inj hpaths ▸
      hwrites (divOneLimb_writes hwf (by omega) (by omega) (by omega) _ _)
  rw [if_neg h2] at hpaths
  by_cases h3 : τ.cmp σ.live (σ.live + 1) ≤ 0
  · rw [if_pos h3] at hpaths
    exact Option.some.inj hpaths ▸ hwrites (divNotGreater_writes hwf (by omega) (by omega) _ _ _)
  rw [if_neg h3] at hpaths
  have hcmp := cmp_operands hwf (n := σ.live) (by omega) (by omega) hsn hsv
  have hcount : (τ.mag (σ.live + 1)).count ≤ (τ.mag σ.live).count := by
    rw [← hwf.length_limbs (by omega), ← hwf.length_limbs (by omega)]
    exact length_le_of_cmpLimbs (by omega)
  have htrim := divKnuth_trimmed hwf hlive hsn hcount hpaths
  obtain ⟨σ₃, hrun₃, h₃⟩ := divKnuth_spec (q := q) (r := r) hwf hlive hq hr hsn hsv hcount htrim.1
    htrim.2 (τ.sign a).signum (τ.sign b).signum
  obtain rfl : σ₃ = σ₂ := Option.some.inj (hrun₃.symm.trans hpaths)
  have hlive₃ := h₃.live
  refine ⟨rfl, ?_, fun hcond hc k hk => ?_⟩
  · exact hkeeps₀.then fun _ => h₃.keeps.then fun hg => .popTo hg (Nat.le_refl _) (by omega)
  rw [live_popTo] at hk
  have hlimbs_b : τ.limbs b = σ.limbs b := limbs_of_num hnum_b
  have hcal := hcond (by
    have ha' := sign_of_num hnum_a
    have hb' := sign_of_num hnum_b
    refine ⟨by rwa [num_sign, ← hb'], by rwa [num_sign, ← ha'], ?_, ?_⟩
    · rw [num_limbs, ← hlimbs_b, hwf.length_limbs (by omega)]
      exact h2
    · rw [num_limbs, num_limbs, ← hln, ← hlv, ← hcmp]
      omega)
  obtain ⟨hok_q, hok_r⟩ := h₃.caches ((ho.calcued q hq).trans hcal.1) ((ho.calcued r hr).trans hcal.2)
  by_cases hkq : k = q
  · exact hkq ▸ hok_q
  by_cases hkr : k = r
  · exact hkr ▸ hok_r
  exact h₃.keeps.cache k hk (by omega) (ho.caches hc k (by omega))

/-- The results of `div` on integers. They are canonical even where `q` aliases the divisor, and
right if the dividend that overwrites it there has the same magnitude. -/
structure DivResults (σ : Store) (q r b : Nat) (v w : Int) (σ' : Store) : Prop where
  exact : (q = b → v.natAbs = w.natAbs) → w ≠ 0 →
    σ'.num q = Num.ofInt (v.tdiv w) ∧ σ'.num r = Num.ofInt (v.tmod w)
  canon : (σ.num q).Canon → (σ.num r).Canon → (σ'.num q).Canon ∧ (σ'.num r).Canon

theorem DivResults.of_exact {v w : Int} (hq : σ₁.num q = Num.ofInt (v.tdiv w))
    (hr : σ₁.num r = Num.ofInt (v.tmod w)) : DivResults σ q r b v w σ₁ :=
  ⟨fun _ _ => ⟨hq, hr⟩, fun _ _ => ⟨hq ▸ Num.ofInt_canon _, hr ▸ Num.ofInt_canon _⟩⟩

theorem withSign_canon {x : Num} (hx : x.Canon) (s : Bool) :
    (Num.withSign (if s then .pos else .neg) x).Canon := by
  rw [hx.eq_ofInt, Num.withSign_ofInt]
  exact Num.ofInt_canon _

theorem toNat_divisorLimb (h : σ.Wf) (ha : a < σ.live) (hb : b < σ.live) {v w : Int}
    (hv : σ.num a = Num.ofInt v) (hw : σ.num b = Num.ofInt w)
    (hqb : q = b → v.natAbs = w.natAbs) (hcount : (σ.mag b).count = 1) :
    (((σ.assign q a).mag b).get 0).toNat = w.natAbs := by
  set m := ((σ.assign q a).mag b).get 0 with hm
  have hassign := Puts.assign (i := q) (R := fun _ => True) h ha trivial
  have hlimbs : σ.limbs b = [m] := by
    have hlen := h.length_limbs hb
    rw [hcount] at hlen
    obtain ⟨y, hy⟩ := List.length_eq_one_iff.mp hlen
    have hlimbs' : (σ.assign q a).limbs b = [y] := by
      rw [← hy, ← num_limbs, ← num_limbs]
      by_cases he : q = b
      · rw [← he, hassign.num, hv, he, hw, Num.ofInt, Num.ofInt, hqb he]
      · rw [hassign.num_ne hb (Ne.symm he)]
    have hlen' := hassign.wf.length_limbs (i := b) (by rw [hassign.live]; exact hb)
    rw [hlimbs'] at hlen'
    rw [hy, hm, get_zero hassign.wf (by rw [hassign.live]; exact hb) hlen'.symm, hlimbs']
    rfl
  rw [← mag_singleton, ← hlimbs, ← num_limbs, hw, Num.mag_ofInt]

private theorem reminderSign_eq {v : Int} (hv0 : v ≠ 0) :
    (if v.sign < 0 then Sign.neg else Sign.pos) =
      if (decide (0 < v)) = true then Sign.pos else Sign.neg := by
  rcases Int.lt_or_gt_of_ne hv0 with hneg | hpos
  · rw [Int.sign_eq_neg_one_of_neg hneg, if_pos (by decide), if_neg (by simp; omega)]
  · rw [Int.sign_eq_one_of_pos hpos, if_neg (by decide), if_pos (by simpa using hpos)]

theorem divOneLimb_quotient (h : σ.Wf) (hq : q < σ.live) (hr : r < σ.live) (ha : a < σ.live)
    (hqr : q ≠ r) {v w : Int} (hv : σ.num a = Num.ofInt v) (hv0 : v ≠ 0)
    (hm0 : ((σ.assign q a).mag b).get 0 ≠ 0) :
    (σ.divOneLimb q r a b v.sign w.sign).num q = Num.ofInt (if v.sign = w.sign
        then (v.natAbs / (((σ.assign q a).mag b).get 0).toNat : Nat)
        else -(v.natAbs / (((σ.assign q a).mag b).get 0).toNat : Nat)) ∧
      (σ.divOneLimb q r a b v.sign w.sign).num r = Num.ofInt (if v < 0
        then -(v.natAbs % (((σ.assign q a).mag b).get 0).toNat : Nat)
        else (v.natAbs % (((σ.assign q a).mag b).get 0).toNat : Nat)) := by
  obtain ⟨hnq, hnr⟩ := divOneLimb_num (b := b) h hq hr ha hqr hv (decide (v.sign = w.sign)) v.sign
    w.sign rfl rfl
  rw [reminderSign_eq hv0] at hnr
  rw [if_neg hm0] at hnq hnr
  rw [Num.withSign_ofInt] at hnq hnr
  rw [hnq, hnr]
  constructor
  · congr 1
    simp only [decide_eq_true_eq, Int.natAbs_tdiv, Int.natAbs_natCast]
    rfl
  · congr 1
    rw [Int.natAbs_tmod, Int.natAbs_natCast]
    by_cases hpos : 0 < v
    · rw [if_pos (by simpa using hpos), if_neg (by omega)]
    · rw [if_neg (by simpa using hpos), if_pos (by omega)]

theorem divOneLimb_exact (h : σ.Wf) (hq : q < σ.live) (hr : r < σ.live) (ha : a < σ.live)
    (hqr : q ≠ r) {v w : Int} (hv : σ.num a = Num.ofInt v) (hv0 : v ≠ 0) (hw0 : w ≠ 0)
    (hm : (((σ.assign q a).mag b).get 0).toNat = w.natAbs) :
    (σ.divOneLimb q r a b v.sign w.sign).num q = Num.ofInt (v.tdiv w) ∧
      (σ.divOneLimb q r a b v.sign w.sign).num r = Num.ofInt (v.tmod w) := by
  have hm0 : ((σ.assign q a).mag b).get 0 ≠ 0 := by
    intro he
    rw [he] at hm
    exact hw0 (Int.natAbs_eq_zero.mp hm.symm)
  have hquot := divOneLimb_quotient (w := w) h hq hr ha hqr hv hv0 hm0
  rw [hm] at hquot
  rw [Num.tdiv_eq hv0 hw0, Num.tmod_eq v w]
  exact hquot

theorem divOneLimb_results (h : σ.Wf) (hq : q < σ.live) (hr : r < σ.live) (ha : a < σ.live)
    (hb : b < σ.live) (hqr : q ≠ r) {v w : Int} (hv : σ.num a = Num.ofInt v)
    (hw : σ.num b = Num.ofInt w) (hv0 : v ≠ 0) (hcount : (σ.mag b).count = 1) :
    DivResults σ q r b v w (σ.divOneLimb q r a b v.sign w.sign) := by
  refine ⟨fun hqb hw0 => ?_, fun _ hrc => ?_⟩
  · exact divOneLimb_exact h hq hr ha hqr hv hv0 hw0 (toNat_divisorLimb h ha hb hv hw hqb hcount)
  · obtain ⟨hnq, hnr⟩ := divOneLimb_num (b := b) h hq hr ha hqr hv (decide (v.sign = w.sign))
      v.sign w.sign rfl rfl
    rw [reminderSign_eq hv0] at hnr
    rw [hnq, hnr]
    refine ⟨withSign_canon (Num.ofInt_canon _) _, withSign_canon ?_ _⟩
    split
    · exact hrc
    · exact Num.ofInt_canon _

private theorem cmpLimbs_ofInt (v w : Int) :
    cmpLimbs (Num.ofInt v).limbs (Num.ofInt w).limbs =
      if v.natAbs < w.natAbs then -1 else if v.natAbs = w.natAbs then 0 else 1 := by
  have hv : Trimmed (Num.ofInt v).limbs := Num.trimmed_limbsOf _
  have hw : Trimmed (Num.ofInt w).limbs := Num.trimmed_limbsOf _
  rw [cmpLimbs_spec hv hw, Num.mag_ofInt, Num.mag_ofInt]

private theorem divNotGreater_results (h : σ.Wf) (hq : q < σ.live) (hn : n < σ.live)
    (hqr : q ≠ r) (hqn : q ≠ n) {v w : Int} (hln : σ.limbs n = (Num.ofInt v).limbs) (hv0 : v ≠ 0)
    (hw0 : w ≠ 0) {cmpCode : Int} (hcmp : cmpCode = if v.natAbs < w.natAbs then -1
      else if v.natAbs = w.natAbs then 0 else 1) (hle : cmpCode ≤ 0) :
    (σ.divNotGreater q r n cmpCode v.sign w.sign).num q = Num.ofInt (v.tdiv w) ∧
      (σ.divNotGreater q r n cmpCode v.sign w.sign).num r = Num.ofInt (v.tmod w) := by
  obtain ⟨hnq, hnr⟩ := divNotGreater_num (r := r) h hq hn hqr hqn cmpCode v.sign w.sign
  rw [hnq, hnr, Num.tdiv_eq hv0 hw0, Num.tmod_eq]
  rcases Nat.lt_trichotomy v.natAbs w.natAbs with hlt | heq | hgt
  · rw [if_pos hlt] at hcmp
    subst hcmp
    have hne : ¬ (-1 : Int) = 0 := by decide
    rw [if_neg hne, if_neg hne, Nat.div_eq_of_lt hlt, Nat.mod_eq_of_lt hlt, hln]
    refine ⟨by simpa using Num.zero_eq_ofInt, ?_⟩
    rcases Int.lt_or_gt_of_ne hv0 with hneg | hpos
    · rw [Int.sign_eq_neg_one_of_neg hneg, if_pos hneg, show -(v.natAbs : Int) = v by omega,
        Num.ofInt_neg hneg]
      rfl
    · rw [Int.sign_eq_one_of_pos hpos, if_neg (show ¬v < 0 by omega),
        show (v.natAbs : Int) = v by omega, Num.ofInt_pos hpos]
      rfl
  · rw [if_neg (by omega), if_pos heq] at hcmp
    subst hcmp
    rw [if_pos rfl, if_pos rfl, heq, Nat.div_self (by omega), Nat.mod_self]
    refine ⟨?_, by simpa using Num.zero_eq_ofInt⟩
    split
    · exact Num.one_eq_ofInt
    · exact Num.negOne_eq_ofInt
  · rw [hcmp, if_neg (by omega), if_neg (by omega)] at hle
    exact absurd hle (by decide)

private theorem beZero_results (h : σ.Wf) (hq : q < σ.live) (hqr : q ≠ r) (w : Int) :
    ((σ.beZero q).beZero r).num q = Num.ofInt (Int.tdiv 0 w) ∧
      ((σ.beZero q).beZero r).num r = Num.ofInt (Int.tmod 0 w) := by
  have h₁ := Puts.beZero (i := q) (R := fun _ => False) h
  have h₂ := Puts.beZero (i := r) (R := fun _ => False) h₁.wf
  rw [Int.zero_tdiv, Int.zero_tmod, ← Num.zero_eq_ofInt]
  refine ⟨?_, h₂.num⟩
  rw [h₂.num_ne (by rw [h₁.live]; exact hq) hqr, h₁.num]

private theorem signed_quotient {v w : Int} (hv0 : v ≠ 0) (hw0 : w ≠ 0)
    (hle : w.natAbs ≤ v.natAbs) :
    (⟨if v.sign = w.sign then .pos else .neg, Num.limbsOf (v.natAbs / w.natAbs)⟩ : Num) =
      Num.ofInt (v.tdiv w) := by
  have hpos : v.natAbs / w.natAbs ≠ 0 := Nat.ne_of_gt (Nat.div_pos hle (by omega))
  have hsigned := Num.withSign_ofInt (decide (v.sign = w.sign)) (v.natAbs / w.natAbs : Nat)
  rw [Num.withSign, if_neg (by rw [Num.ofInt_zero_iff]; exact_mod_cast hpos)] at hsigned
  simp only [decide_eq_true_eq, Int.natAbs_natCast] at hsigned
  rw [Num.tdiv_eq hv0 hw0]
  exact hsigned

private theorem signed_remainder {v : Int} (hv0 : v ≠ 0) (w : Int) :
    Num.withSign (if v.sign < 0 then .neg else .pos) (Num.ofInt (v.natAbs % w.natAbs : Nat)) =
      Num.ofInt (v.tmod w) := by
  have hsigned := Num.withSign_ofInt (decide (0 < v)) (v.natAbs % w.natAbs : Nat)
  rw [Num.tmod_eq]
  rcases Int.lt_or_gt_of_ne hv0 with hneg | hpos
  · rw [if_neg (by simp; omega), if_neg (by simp; omega), Int.natAbs_natCast] at hsigned
    rw [Int.sign_eq_neg_one_of_neg hneg, if_pos (by decide), if_pos hneg]
    exact hsigned
  · rw [if_pos (by simpa using hpos), if_pos (by simpa using hpos), Int.natAbs_natCast] at hsigned
    rw [Int.sign_eq_one_of_pos hpos, if_neg (by decide), if_neg (by omega)]
    exact hsigned

private theorem divKnuth_results (h : σ.Wf) (hlive : σ.live = n + 2) (hq : q < n) (hr : r < n)
    (hqr : q ≠ r) (hsn : σ.sign n = .pos) (hsv : σ.sign (n + 1) = .pos) {v w : Int}
    (hln : σ.limbs n = (Num.ofInt v).limbs) (hlv : σ.limbs (n + 1) = (Num.ofInt w).limbs)
    (hlong : 2 ^ 32 ≤ w.natAbs) (hgt : w.natAbs < v.natAbs) :
    ∃ σ', σ.divKnuth q r n v.sign w.sign = some σ' ∧
      σ'.num q = Num.ofInt (v.tdiv w) ∧ σ'.num r = Num.ofInt (v.tmod w) := by
  have hw0 : w ≠ 0 := by omega
  have hv0 : v ≠ 0 := by omega
  have hcount_n : (σ.mag n).count = (Num.ofInt v).limbs.length := by
    rw [← h.length_limbs (by omega), hln]
  have hcount_v : (σ.mag (n + 1)).count = (Num.ofInt w).limbs.length := by
    rw [← h.length_limbs (by omega), hlv]
  have hle : (Num.ofInt w).limbs.length ≤ (Num.ofInt v).limbs.length := by
    apply length_le_of_cmpLimbs
    rw [cmpLimbs_ofInt, if_neg (by omega), if_neg (by omega)]
    decide
  have hne_one : (Num.ofInt w).limbs.length ≠ 1 := by
    rw [Ne, Num.length_ofInt_one_iff hw0]
    omega
  have hne : (Num.ofInt w).limbs.length ≠ 0 := by
    rw [Ne, List.length_eq_zero_iff]
    exact Num.limbs_ofInt_ne_nil hw0
  obtain ⟨σ', hrun, hknuth⟩ := divKnuth_spec h hlive hq hr hsn hsv
    (by rw [hcount_v, hcount_n]; exact hle) (by omega)
    (by rw [hlv]; exact Num.trimmed_limbsOf _) v.sign w.sign
  refine ⟨σ', hrun, ?_, ?_⟩
  · rw [hknuth.quotient hqr, hln, hlv, Num.mag_ofInt, Num.mag_ofInt]
    exact signed_quotient hv0 hw0 hgt.le
  · rw [hknuth.remainder hqr, hln, hlv, Num.mag_ofInt, Num.mag_ofInt]
    exact signed_remainder hv0 w

/-- The objects `q` and `r` hold the truncated quotient and the remainder. -/
def StoresDivision (q r : Nat) (v w : Int) (σ' : Store) : Prop :=
  σ'.num q = Num.ofInt (v.tdiv w) ∧ σ'.num r = Num.ofInt (v.tmod w)

def Undisturbed (σ σ' : Store) : Prop := σ'.status = σ.status ∨ σ'.status = some .success

theorem status_assign : (σ.assign i j).status = σ.status := by
  unfold assign
  split <;> rfl

theorem status_setReminderSign (aSigNum : Int) :
    (σ.setReminderSign r aSigNum).status = σ.status := by
  unfold setReminderSign
  split <;> rfl

theorem divNotGreater_status {cmpCode aSigNum bSigNum : Int} :
    (σ.divNotGreater q r n cmpCode aSigNum bSigNum).status = σ.status := by
  unfold divNotGreater
  split
  · change (if aSigNum = bSigNum then σ.beOne q else σ.beNegOne q).status = σ.status
    split <;> rfl
  · change ((σ.beZero q).assign r n).status = σ.status
    exact status_assign

theorem divKnuth_status {aSigNum bSigNum : Int}
    (hrun : σ.divKnuth q r n aSigNum bSigNum = some σ₁) : σ₁.status = some .success := by
  obtain ⟨σ₂, -, hrun⟩ := Option.bind_eq_some_iff.mp hrun
  obtain rfl := Option.some.inj hrun
  rfl

theorem divideAssignAndReminderByU32_status {m : UInt32} :
    (m = 0 → (σ.divideAssignAndReminderByU32 i m r).status = some .divBy0) ∧
      (m ≠ 0 → Undisturbed σ (σ.divideAssignAndReminderByU32 i m r)) := by
  unfold divideAssignAndReminderByU32
  constructor
  · intro hm
    rw [if_pos hm]
    rfl
  · intro hm
    rw [if_neg hm]
    split
    · exact Or.inl rfl
    dsimp only
    split
    · exact Or.inl rfl
    · exact Or.inr rfl

theorem divOneLimb_status (aSigNum bSigNum : Int) :
    (((σ.assign q a).mag b).get 0 = 0 →
        (σ.divOneLimb q r a b aSigNum bSigNum).status = some .divBy0) ∧
      (((σ.assign q a).mag b).get 0 ≠ 0 →
        Undisturbed σ (σ.divOneLimb q r a b aSigNum bSigNum)) := by
  have hsign : ∀ {τ : Store} {s : Sign}, (if τ.isZero q then τ else τ.setSign q s).status =
      τ.status := by
    intro τ s
    split <;> rfl
  have hstatus : (σ.divOneLimb q r a b aSigNum bSigNum).status =
      ((σ.assign q a).divideAssignAndReminderByU32 q (((σ.assign q a).mag b).get 0) r).status := by
    rw [divOneLimb, status_setReminderSign, hsign]
  obtain ⟨hzero, hne⟩ := divideAssignAndReminderByU32_status (σ := σ.assign q a) (i := q) (r := r)
    (m := ((σ.assign q a).mag b).get 0)
  refine ⟨fun hm => hstatus.trans (hzero hm), fun hm => ?_⟩
  unfold Undisturbed
  rw [hstatus, ← status_assign (σ := σ) (i := q) (j := a)]
  exact hne hm

/-- Division by a number that is not zero goes down the path for one limb, or divides without further
conditions. -/
theorem div_cases (h : σ.Wf) (hq : q < σ.live) (hr : r < σ.live) (ha : a < σ.live)
    (hb : b < σ.live) (hqr : q ≠ r) {v w : Int} (hv : σ.num a = Num.ofInt v)
    (hw : σ.num b = Num.ofInt w) (hw0 : w ≠ 0) :
    ∃ σ', σ.div q r a b = some σ' ∧
      (v ≠ 0 ∧ w.natAbs < 2 ^ 32 ∧
          σ' = ((σ.operands a b).divOneLimb q r a b v.sign w.sign).popTo σ.live ∨
        (v = 0 ∨ 2 ^ 32 ≤ w.natAbs) ∧ StoresDivision q r v w σ' ∧ Undisturbed σ σ') := by
  have ho := operands_spec h ha hb
  set τ := σ.operands a b with hτ
  have hlive := ho.live
  have hwf := ho.keeps.good.wf
  have hold : ∀ k < σ.live, τ.num k = σ.num k := fun k hk => ho.keeps.num k hk fun hf => hf
  have hsa : (τ.sign a).signum = v.sign := by
    rw [← num_sign, hold a ha, hv, Num.signum_ofInt]
  have hsb : (τ.sign b).signum = w.sign := by
    rw [← num_sign, hold b hb, hw, Num.signum_ofInt]
  have hln : τ.limbs σ.live = (Num.ofInt v).limbs := by
    rw [← num_limbs, ho.dividend, ← hv, num_limbs]
  have hlv : τ.limbs (σ.live + 1) = (Num.ofInt w).limbs := by
    rw [← num_limbs, ho.divisor, ← hw, num_limbs]
  -- the objects of the caller read the same after the locals are gone
  have hclose : ∀ {σ'}, τ.divPaths q r a b σ.live = some σ' → (v = 0 ∨ 2 ^ 32 ≤ w.natAbs) →
      StoresDivision q r v w σ' → Undisturbed τ σ' → ∃ σ'', σ.div q r a b = some σ'' ∧
        (v ≠ 0 ∧ w.natAbs < 2 ^ 32 ∧
            σ'' = (τ.divOneLimb q r a b v.sign w.sign).popTo σ.live ∨
          (v = 0 ∨ 2 ^ 32 ≤ w.natAbs) ∧ StoresDivision q r v w σ'' ∧ Undisturbed σ σ'') :=
    fun {σ'} hrun hcond hres hstatus =>
      ⟨σ'.popTo σ.live, by rw [div, ← hτ, hrun, Option.map_some], Or.inr ⟨hcond, hres, hstatus⟩⟩
  have hpaths : τ.divPaths q r a b σ.live =
      if w.sign = 0 then some (τ.setStatus .divBy0)
      else if v.sign = 0 then some ((τ.beZero q).beZero r)
      else if (τ.mag b).count = 1 then some (τ.divOneLimb q r a b v.sign w.sign)
      else
        let cmpCode := τ.cmp σ.live (σ.live + 1)
        if cmpCode ≤ 0 then some (τ.divNotGreater q r σ.live cmpCode v.sign w.sign)
        else τ.divKnuth q r σ.live v.sign w.sign := by
    rw [divPaths, hsa, hsb]
  rw [if_neg (by rwa [Int.sign_eq_zero_iff_zero])] at hpaths
  by_cases hv0 : v = 0
  · rw [if_pos (by rw [hv0]; rfl)] at hpaths
    have hzero := beZero_results (r := r) hwf (q := q) (by omega) hqr w
    rw [← hv0] at hzero
    exact hclose hpaths (Or.inl hv0) hzero (Or.inl rfl)
  rw [if_neg (by rwa [Int.sign_eq_zero_iff_zero])] at hpaths
  have hcount_b : (τ.mag b).count = (Num.ofInt w).limbs.length := by
    rw [← hwf.length_limbs (by omega), ← num_limbs, hold b hb, hw]
  by_cases hone : (τ.mag b).count = 1
  · rw [if_pos hone] at hpaths
    rw [hcount_b, Num.length_ofInt_one_iff hw0] at hone
    exact ⟨_, by rw [div, ← hτ, hpaths, Option.map_some], Or.inl ⟨hv0, hone, rfl⟩⟩
  rw [if_neg hone] at hpaths
  have hlong : 2 ^ 32 ≤ w.natAbs := by
    rw [hcount_b, Num.length_ofInt_one_iff hw0] at hone
    omega
  have hsn : τ.sign σ.live = .pos := by rw [← num_sign, ho.dividend]
  have hsv : τ.sign (σ.live + 1) = .pos := by rw [← num_sign, ho.divisor]
  have hcmp := cmp_operands hwf (n := σ.live) (by omega) (by omega) hsn hsv
  rw [hln, hlv, cmpLimbs_ofInt] at hcmp
  dsimp only at hpaths
  by_cases hle : τ.cmp σ.live (σ.live + 1) ≤ 0
  · rw [if_pos hle] at hpaths
    obtain ⟨hnq, hnr⟩ := divNotGreater_results (r := r) hwf (by omega) (by omega) hqr (by omega) hln hv0
      hw0 hcmp hle
    exact hclose hpaths (Or.inr hlong) ⟨hnq, hnr⟩ (Or.inl divNotGreater_status)
  rw [if_neg hle] at hpaths
  have hgt : w.natAbs < v.natAbs := by
    by_contra hge
    rw [hcmp] at hle
    split at hle
    · exact hle (by decide)
    · rw [if_pos (by omega)] at hle
      exact hle (by decide)
  obtain ⟨σ', hrun, hres⟩ := divKnuth_results hwf hlive hq hr hqr hsn hsv hln hlv hlong hgt
  exact hclose (hpaths.trans hrun) (Or.inr hlong) hres (Or.inr (divKnuth_status hrun))

/-- Division of integers returns, with the truncated quotient and the remainder. -/
theorem div_results (h : σ.Wf) (hq : q < σ.live) (hr : r < σ.live) (ha : a < σ.live)
    (hb : b < σ.live) (hqr : q ≠ r) {v w : Int} (hv : σ.num a = Num.ofInt v)
    (hw : σ.num b = Num.ofInt w) :
    ∃ σ', σ.div q r a b = some σ' ∧ DivResults σ q r b v w σ' := by
  have ho := operands_spec h ha hb
  have hlive := ho.live
  have hwf := ho.keeps.good.wf
  have hold : ∀ k < σ.live, (σ.operands a b).num k = σ.num k := fun k hk =>
    ho.keeps.num k hk fun hf => hf
  by_cases hw0 : w = 0
  · have hsb : (σ.num b).sign.signum = 0 := by
      rw [hw, Num.signum_ofInt, hw0]
      rfl
    exact ⟨((σ.operands a b).setStatus .divBy0).popTo σ.live, div_divBy0 h ha hb hsb,
      fun _ hne => absurd hw0 hne, fun hcq hcr => ⟨(hold q hq).symm ▸ hcq, (hold r hr).symm ▸ hcr⟩⟩
  obtain ⟨σ', hrun, ⟨hv0, hone, rfl⟩ | ⟨-, hres, -⟩⟩ := div_cases h hq hr ha hb hqr hv hw hw0
  · refine ⟨_, hrun, ?_⟩
    have hcount : ((σ.operands a b).mag b).count = 1 := by
      rw [← hwf.length_limbs (by omega), ← num_limbs, hold b hb, hw]
      exact (Num.length_ofInt_one_iff hw0).mpr hone
    have hres := divOneLimb_results hwf (q := q) (r := r) (by omega) (by omega) (by omega) (by omega)
      hqr ((hold a ha).trans hv) ((hold b hb).trans hw) hv0 hcount
    exact ⟨hres.exact, fun hcq hcr => hres.canon (by rwa [hold q hq]) (by rwa [hold r hr])⟩
  · exact ⟨σ', hrun, .of_exact hres.1 hres.2⟩

/-- Truncated division is exact on every path, whatever `q` and `r` held before. -/
theorem div_exact (h : σ.Wf) (hq : q < σ.live) (hr : r < σ.live) (ha : a < σ.live)
    (hb : b < σ.live) (hqr : q ≠ r) (hqa : q ≠ a) (hqb : q ≠ b) (hra : r ≠ a) (hrb : r ≠ b)
    (hca : (σ.num a).Canon) (hcb : (σ.num b).Canon) (hb0 : (σ.num b).toInt ≠ 0) :
    ∃ σ', σ.div q r a b = some σ' ∧ σ'.num a = σ.num a ∧ σ'.num b = σ.num b ∧
      (σ'.num q).Canon ∧ (σ'.num r).Canon ∧
      (σ.num a).toInt = (σ'.num q).toInt * (σ.num b).toInt + (σ'.num r).toInt ∧
      (σ'.num r).toInt.natAbs < (σ.num b).toInt.natAbs ∧
      ((σ'.num r).toInt = 0 ∨ (σ'.num r).toInt.sign = (σ.num a).toInt.sign) := by
  obtain ⟨σ', hrun, hres⟩ := div_results h hq hr ha hb hqr hca.eq_ofInt hcb.eq_ofInt
  have hframe := div_frame h hq hr ha hb hrun
  obtain ⟨hnq, hnr⟩ := hres.exact (fun he => absurd he hqb) hb0
  obtain ⟨hcq, hvq⟩ := Num.eq_ofInt_iff.mp hnq
  obtain ⟨hcr, hvr⟩ := Num.eq_ofInt_iff.mp hnr
  refine ⟨σ', hrun, hframe.keeps.num a ha (by omega), hframe.keeps.num b hb (by omega), hcq, hcr,
    ?_, ?_, ?_⟩
  · rw [hvq, hvr, Int.mul_comm, Int.mul_tdiv_add_tmod]
  · rw [hvr, Int.natAbs_tmod]
    exact Nat.mod_lt _ (by omega)
  · rw [hvr, Num.tmod_eq]
    split
    next hneg =>
      rw [Int.sign_eq_neg_one_of_neg hneg, Int.sign_eq_neg_one_iff_neg]
      omega
    next hpos =>
      by_cases hzero : (σ.num a).toInt = 0
      · exact Or.inl (by rw [hzero]; simp)
      · rw [Int.sign_eq_one_of_pos (a := (σ.num a).toInt) (by omega), Int.sign_eq_one_iff_pos]
        omega

theorem div_exact_knuth : ∃ σ', (pair (-(2 ^ 62)) (2 ^ 33 + 1)).div 2 3 0 1 = some σ' ∧
    (σ'.num 2).toInt * (2 ^ 33 + 1) + (σ'.num 3).toInt = -(2 ^ 62) ∧
    (σ'.num 3).toInt.natAbs < 2 ^ 33 + 1 := by
  obtain ⟨hwf, hlive, h0, h1⟩ := pair_spec (-(2 ^ 62)) (2 ^ 33 + 1)
  rw [Num.ofI64_eq (by decide) (by decide)] at h0 h1
  obtain ⟨σ', hrun, -, -, -, -, heq, hlt, -⟩ := div_exact hwf (q := 2) (r := 3) (a := 0) (b := 1)
    (by omega) (by omega) (by omega) (by omega) (by decide) (by decide) (by decide) (by decide)
    (by decide) (h0 ▸ Num.ofInt_canon _) (h1 ▸ Num.ofInt_canon _)
    (by rw [h1, Num.toInt_ofInt]; decide)
  rw [h0, h1, Num.toInt_ofInt, Num.toInt_ofInt] at heq
  rw [h1, Num.toInt_ofInt] at hlt
  exact ⟨σ', hrun, heq.symm, hlt⟩

/-- Division of `v` by the number `y` gives `u` and `w`, wherever they are stored. -/
def DividesTo (v : Int) (y : Num) (u w : Int) : Prop :=
  ∀ ⦃σ : Store⦄ ⦃q r a b : Nat⦄, σ.Wf → q < σ.live → r < σ.live → a < σ.live → b < σ.live →
    q ≠ r → (q = b → v.natAbs = y.toInt.natAbs) → σ.num a = Num.ofInt v → σ.num b = y →
    ∃ σ', σ.div q r a b = some σ' ∧ σ'.num q = Num.ofInt u ∧ σ'.num r = Num.ofInt w

/-- Division of `v` by the number `y` leaves canonical numbers. -/
def DividesCanon (v : Int) (y : Num) : Prop :=
  ∀ ⦃σ σ' : Store⦄ ⦃q r a b : Nat⦄, σ.Wf → q < σ.live → r < σ.live → a < σ.live → b < σ.live →
    q ≠ r → σ.num a = Num.ofInt v → σ.num b = y → (σ.num q).Canon → (σ.num r).Canon →
    σ.div q r a b = some σ' → (σ'.num q).Canon ∧ (σ'.num r).Canon

theorem dividesTo_ofInt {v w : Int} (hw0 : w ≠ 0) :
    DividesTo v (Num.ofInt w) (v.tdiv w) (v.tmod w) := by
  intro σ q r a b h hq hr ha hb hqr hqb hv hw
  obtain ⟨σ', hrun, hres⟩ := div_results h hq hr ha hb hqr hv hw
  exact ⟨σ', hrun, hres.exact (fun he => by rw [hqb he, Num.toInt_ofInt]) hw0⟩

theorem dividesCanon_ofInt (v w : Int) : DividesCanon v (Num.ofInt w) := by
  intro σ σ₁ q r a b h hq hr ha hb hqr hv hw hcq hcr hrun
  obtain ⟨σ₂, hrun₂, hres⟩ := div_results h hq hr ha hb hqr hv hw
  obtain rfl := Option.some.inj (hrun.symm.trans hrun₂)
  exact hres.canon hcq hcr

end Store

end PGBigNumber
