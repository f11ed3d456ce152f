import PGBigNumber.Bits
import PGBigNumber.Store.Basic

/-!
# Frames

What a step may not touch. A step on the objects in `S` keeps every other object among the first
`n`: its number stays, and a cached index that was right stays right. Local objects have numbers
from `n` on, so a whole function body has the same frame as each of its steps.
-/

namespace PGBigNumber

namespace Store

/-- The lazily cached index is right. Nothing reads it where there are no limbs, as in a moved-from
object. -/
def CacheOk (σ : Store) (i : Nat) : Prop :=
  (σ.obj i).calcued = true → σ.limbs i ≠ [] →
    (σ.obj i).firstNotZeroU32Index = firstNz (σ.limbs i)

def Wf (σ : Store) : Prop := ∀ i < σ.live, (σ.mag i).Wf ∧ (σ.obj i).data < σ.next

/-- A well-formed store with at least `n` objects. -/
structure Good (n : Nat) (σ : Store) : Prop where
  wf : σ.Wf
  le : n ≤ σ.live

/-- A step from `σ` to `σ'` that touches at most the objects of `S` among the first `n`. -/
structure Keeps (n : Nat) (S : Nat → Prop) (σ σ' : Store) : Prop where
  good : Good n σ'
  num : ∀ j < n, ¬ S j → σ'.num j = σ.num j
  cache : ∀ j < n, ¬ S j → σ.CacheOk j → σ'.CacheOk j

variable {n : Nat} {S T : Nat → Prop} {σ σ₁ σ₂ : Store} {i j : Nat}

theorem Good.mono {m : Nat} (h : Good n σ) (hm : m ≤ n) : Good m σ := ⟨h.wf, hm.trans h.le⟩

theorem Wf.good (h : σ.Wf) : Good σ.live σ := ⟨h, Nat.le_refl _⟩

theorem Wf.initial : Wf initial := fun _ hi => absurd hi (Nat.not_lt_zero _)

theorem Keeps.refl (h : Good n σ) : Keeps n S σ σ := ⟨h, fun _ _ _ => rfl, fun _ _ _ hc => hc⟩

theorem Keeps.then (h₁ : Keeps n S σ σ₁) (h₂ : Good n σ₁ → Keeps n S σ₁ σ₂) : Keeps n S σ σ₂ := by
  have h := h₂ h₁.good
  exact ⟨h.good, fun j hj hs => (h.num j hj hs).trans (h₁.num j hj hs),
    fun j hj hs hc => h.cache j hj hs (h₁.cache j hj hs hc)⟩

theorem Keeps.mono {m : Nat} (h : Keeps n S σ σ₁) (hm : m ≤ n) (hST : ∀ j < m, S j → T j) :
    Keeps m T σ σ₁ :=
  ⟨h.good.mono hm, fun j hj ht => h.num j (by omega) fun hs => ht (hST j hj hs),
    fun j hj ht => h.cache j (by omega) fun hs => ht (hST j hj hs)⟩

section accessors

variable {f : Impl → Impl} {s : Slice UInt32} {o : Impl} {t : Sign}

@[simp]
theorem live_modify : (σ.modify i f).live = σ.live := rfl

@[simp]
theorem live_setSign : (σ.setSign i t).live = σ.live := rfl

@[simp]
theorem live_setFlags : (σ.setFlags i t).live = σ.live := rfl

@[simp]
theorem live_beginWrite : (σ.beginWrite i).live = σ.live := rfl

@[simp]
theorem live_putMag : (σ.putMag i s).live = σ.live := rfl

@[simp]
theorem live_newMag : (σ.newMag i s).live = σ.live := rfl

@[simp]
theorem live_shareMag : (σ.shareMag i j).live = σ.live := rfl

@[simp]
theorem live_cloneData : (σ.cloneData i).live = σ.live := by
  unfold cloneData
  split <;> rfl

@[simp]
theorem live_push : (σ.push o).live = σ.live + 1 := rfl

@[simp]
theorem live_popTo : (σ.popTo n).live = n := rfl

@[simp]
theorem live_beZero : (σ.beZero i).live = σ.live := rfl

@[simp]
theorem live_beUnit : (σ.beUnit i t).live = σ.live := rfl

@[simp]
theorem live_beOne : (σ.beOne i).live = σ.live := rfl

@[simp]
theorem live_beNegOne : (σ.beNegOne i).live = σ.live := rfl

@[simp]
theorem live_assign : (σ.assign i j).live = σ.live := by
  unfold assign
  split <;> rfl

@[simp]
theorem live_assignMove : (σ.assignMove i j).live = σ.live := by
  unfold assignMove
  split <;> simp

@[simp]
theorem live_negate : (σ.negate i).live = σ.live := by
  unfold negate
  split <;> rfl

@[simp]
theorem live_abs : (σ.abs i).live = σ.live := by
  unfold abs
  split <;> simp

@[simp]
theorem live_pushCopy : (σ.pushCopy j).live = σ.live + 1 := rfl

@[simp]
theorem live_pushDefault : σ.pushDefault.live = σ.live + 1 := rfl

@[simp]
theorem live_pushMove : (σ.pushMove j).live = σ.live + 1 := rfl

@[simp]
theorem obj_modify_self : (σ.modify i f).obj i = f (σ.obj i) := Function.update_self ..

theorem obj_modify_ne (h : j ≠ i) : (σ.modify i f).obj j = σ.obj j := Function.update_of_ne h ..

theorem mag_modify (hf : ∀ o, (f o).data = o.data ∧ (f o).lo = o.lo ∧ (f o).hi = o.hi) (j : Nat) :
    (σ.modify i f).mag j = σ.mag j := by
  by_cases h : j = i
  · subst h
    obtain ⟨h1, h2, h3⟩ := hf (σ.obj j)
    simp only [mag, obj_modify_self, h1, h2, h3]
    rfl
  · simp only [mag, obj_modify_ne h]
    rfl

@[simp]
theorem mag_setSign (j : Nat) : (σ.setSign i t).mag j = σ.mag j := mag_modify (by simp) j

@[simp]
theorem mag_setFlags (j : Nat) : (σ.setFlags i t).mag j = σ.mag j := mag_modify (by simp) j

@[simp]
theorem mag_beginWrite (j : Nat) : (σ.beginWrite i).mag j = σ.mag j := mag_modify (by simp) j

@[simp]
theorem mag_putMag_self : (σ.putMag i s).mag i = s := by simp [mag, putMag]

@[simp]
theorem mag_newMag_self : (σ.newMag i s).mag i = s := by simp [mag, newMag]

@[simp]
theorem mag_shareMag_self : (σ.shareMag i j).mag i = σ.mag j := by simp [mag, shareMag, modify]

theorem mag_shareMag_ne {k : Nat} (h : k ≠ i) : (σ.shareMag i j).mag k = σ.mag k := by
  simp only [mag, shareMag, obj_modify_ne h]
  rfl

@[simp]
theorem sign_modify_self : (σ.modify i f).sign i = (f (σ.obj i)).sign := by
  rw [sign, obj_modify_self]

@[simp]
theorem sign_setSign_self : (σ.setSign i t).sign i = t := by simp [setSign]

@[simp]
theorem sign_setFlags_self : (σ.setFlags i t).sign i = t := by simp [setFlags]

@[simp]
theorem sign_beginWrite (j : Nat) : (σ.beginWrite i).sign j = σ.sign j := by
  by_cases h : j = i
  · subst h
    simp [beginWrite, sign]
  · simp [beginWrite, sign, obj_modify_ne h]

@[simp]
theorem sign_putMag (j : Nat) : (σ.putMag i s).sign j = σ.sign j := by
  by_cases h : j = i
  · subst h
    simp [putMag, sign]
  · simp [putMag, sign, Function.update_of_ne h]

@[simp]
theorem sign_newMag (j : Nat) : (σ.newMag i s).sign j = σ.sign j := by
  by_cases h : j = i
  · subst h
    simp [newMag, sign]
  · simp [newMag, sign, Function.update_of_ne h]

@[simp]
theorem sign_shareMag (k : Nat) : (σ.shareMag i j).sign k = σ.sign k := by
  by_cases h : k = i
  · subst h
    simp [shareMag, sign]
  · simp [shareMag, sign, obj_modify_ne h]

@[simp]
theorem sign_cloneData (j : Nat) : (σ.cloneData i).sign j = σ.sign j := by
  unfold cloneData
  split
  · rfl
  · exact sign_newMag j

@[simp]
theorem calcued_setSign (j : Nat) : ((σ.setSign i t).obj j).calcued = (σ.obj j).calcued := by
  by_cases h : j = i
  · subst h
    simp [setSign]
  · simp [setSign, obj_modify_ne h]

@[simp]
theorem calcued_setFlags_self : ((σ.setFlags i t).obj i).calcued = false := by simp [setFlags]

@[simp]
theorem calcued_beginWrite_self : ((σ.beginWrite i).obj i).calcued = false := by simp [beginWrite]

@[simp]
theorem calcued_putMag (j : Nat) : ((σ.putMag i s).obj j).calcued = (σ.obj j).calcued := by
  by_cases h : j = i
  · subst h
    simp [putMag]
  · simp [putMag, Function.update_of_ne h]

@[simp]
theorem calcued_newMag (j : Nat) : ((σ.newMag i s).obj j).calcued = (σ.obj j).calcued := by
  by_cases h : j = i
  · subst h
    simp [newMag]
  · simp [newMag, Function.update_of_ne h]

@[simp]
theorem calcued_shareMag (k : Nat) : ((σ.shareMag i j).obj k).calcued = (σ.obj k).calcued := by
  by_cases h : k = i
  · subst h
    simp [shareMag]
  · simp [shareMag, obj_modify_ne h]

@[simp]
theorem calcued_cloneData (j : Nat) : ((σ.cloneData i).obj j).calcued = (σ.obj j).calcued := by
  unfold cloneData
  split
  · rfl
  · exact calcued_newMag j

@[simp]
theorem limbs_cloneData_self : (σ.cloneData i).limbs i = σ.limbs i := by
  unfold cloneData
  split
  · rfl
  · rw [limbs, mag_newMag_self, Slice.toList_clone]
    rfl

theorem data_modify {f : Impl → Impl} (hf : ∀ o, (f o).data = o.data) (j : Nat) :
    ((σ.modify i f).obj j).data = (σ.obj j).data := by
  by_cases h : j = i
  · subst h
    rw [obj_modify_self, hf]
  · rw [obj_modify_ne h]

@[simp]
theorem data_beginWrite (j : Nat) : ((σ.beginWrite i).obj j).data = (σ.obj j).data := by
  rw [beginWrite, data_modify (by simp)]

@[simp]
theorem data_putMag (j : Nat) : ((σ.putMag i s).obj j).data = (σ.obj j).data := by
  by_cases h : j = i
  · subst h
    simp [putMag]
  · simp [putMag, Function.update_of_ne h]

theorem data_newMag_self : ((σ.newMag i s).obj i).data = σ.next := by simp [newMag]

theorem obj_putMag_ne (h : j ≠ i) : (σ.putMag i s).obj j = σ.obj j := Function.update_of_ne h ..

theorem obj_newMag_ne (h : j ≠ i) : (σ.newMag i s).obj j = σ.obj j := Function.update_of_ne h ..

theorem obj_cloneData_ne (h : j ≠ i) : (σ.cloneData i).obj j = σ.obj j := by
  unfold cloneData
  split
  · rfl
  · exact obj_newMag_ne h

theorem obj_beginWrite_ne (h : j ≠ i) : (σ.beginWrite i).obj j = σ.obj j := obj_modify_ne h

theorem data_cloneData_self :
    ((σ.cloneData i).obj i).data = (σ.obj i).data ∨ ((σ.cloneData i).obj i).data = σ.next := by
  unfold cloneData
  split
  · exact Or.inl rfl
  · exact Or.inr data_newMag_self

theorem data_pushCopy_self : ((σ.pushCopy j).obj σ.live).data = (σ.obj j).data := by
  simp [pushCopy, push]

theorem obj_pushCopy_ne {k : Nat} (h : k ≠ σ.live) : (σ.pushCopy j).obj k = σ.obj k :=
  Function.update_of_ne h ..

theorem obj_pushDefault_ne (h : j ≠ σ.live) : σ.pushDefault.obj j = σ.obj j := by
  simp [pushDefault, newMag, push, Function.update_of_ne h]

theorem calcued_pushDefault_self : (σ.pushDefault.obj σ.live).calcued = false := by
  simp [pushDefault, push]

theorem num_eq : σ.num i = ⟨σ.sign i, (σ.mag i).toList⟩ := rfl

@[simp]
theorem num_sign : (σ.num i).sign = σ.sign i := by rw [num]

@[simp]
theorem num_limbs : (σ.num i).limbs = σ.limbs i := by rw [num]

theorem isZero_iff {v : Int} (hv : σ.num i = Num.ofInt v) : σ.isZero i = true ↔ v = 0 := by
  rw [isZero, ← num_sign, hv, Num.zero_ofInt_iff]

theorem limbs_eq : σ.limbs i = (σ.mag i).toList := rfl

theorem CacheOk.of_not_calcued (h : (σ.obj i).calcued = false) : σ.CacheOk i := by
  intro hc
  rw [h] at hc
  exact absurd hc (by decide)

end accessors

theorem Wf.length_limbs (h : σ.Wf) (hi : i < σ.live) : (σ.limbs i).length = (σ.mag i).count :=
  Slice.length_toList (h i hi).1

section

variable {τ : Store} (heq : τ.num j = σ.num i)
include heq

theorem limbs_of_num : τ.limbs j = σ.limbs i := by rw [← num_limbs, heq, num_limbs]

theorem sign_of_num : τ.sign j = σ.sign i := by rw [← num_sign, heq, num_sign]

theorem count_of_num (hτ : τ.Wf) (hσ : σ.Wf) (hj : j < τ.live) (hi : i < σ.live) :
    (τ.mag j).count = (σ.mag i).count := by
  rw [← hτ.length_limbs hj, limbs_of_num heq, hσ.length_limbs hi]

end

theorem get_last (h : σ.Wf) (hi : i < σ.live) (hcount : 0 < (σ.mag i).count) :
    (σ.mag i).get ((σ.mag i).count - 1) = (σ.limbs i).getLastD 0 := by
  have hlen := h.length_limbs hi
  have hget : (σ.mag i).get ((σ.mag i).count - 1) = (σ.limbs i).getD ((σ.mag i).count - 1) 0 :=
    Slice.get_eq (h i hi).1 _ (by omega)
  rw [hget, ← hlen, List.getD_eq_getElem?_getD, ← List.getLast?_eq_getElem?,
    List.getLastD_eq_getLast?]

theorem get_zero (h : σ.Wf) (hj : j < σ.live) (hone : (σ.mag j).count = 1) :
    (σ.mag j).get 0 = (σ.limbs j).getD 0 0 :=
  Slice.get_eq (h j hj).1 0 (by omega)

private theorem keeps_of (hgood : Good n σ₁)
    (hobj : ∀ j < n, ¬ S j → σ₁.obj j = σ.obj j)
    (hlimbs : ∀ j < n, ¬ S j → σ₁.limbs j = σ.limbs j) : Keeps n S σ σ₁ := by
  refine ⟨hgood, fun j hj hs => ?_, fun j hj hs hc => ?_⟩
  · rw [num, num, sign, sign, hobj j hj hs, hlimbs j hj hs]
  · unfold CacheOk
    rw [hobj j hj hs, hlimbs j hj hs]
    exact hc

theorem Keeps.modify (h : Good n σ) (hS : S i) {f : Impl → Impl}
    (hf : ∀ o, (f o).data = o.data ∧ (f o).lo = o.lo ∧ (f o).hi = o.hi) :
    Keeps n S σ (σ.modify i f) := by
  apply keeps_of
  · refine ⟨fun j hj => ?_, h.le⟩
    rw [mag_modify hf]
    refine ⟨(h.wf j hj).1, ?_⟩
    by_cases hji : j = i
    · subst hji
      rw [obj_modify_self, (hf _).1]
      exact (h.wf j hj).2
    · rw [obj_modify_ne hji]
      exact (h.wf j hj).2
  · exact fun j _ hs => obj_modify_ne fun he => hs (he ▸ hS)
  · intro j _ _
    rw [limbs, limbs, mag_modify hf]

theorem Keeps.setSign (h : Good n σ) (hS : S i) (t : Sign) : Keeps n S σ (σ.setSign i t) :=
  .modify h hS (by simp)

theorem Keeps.setFlags (h : Good n σ) (hS : S i) (t : Sign) : Keeps n S σ (σ.setFlags i t) :=
  .modify h hS (by simp)

theorem Keeps.beginWrite (h : Good n σ) (hS : S i) : Keeps n S σ (σ.beginWrite i) :=
  .modify h hS (by simp)

theorem Keeps.newMag (h : Good n σ) (hS : S i) {s : Slice UInt32} (hs : s.Wf) :
    Keeps n S σ (σ.newMag i s) := by
  have hne : ∀ j < σ.live, (σ.obj j).data ≠ σ.next := fun j hj => Nat.ne_of_lt (h.wf j hj).2
  have hmag : ∀ j < σ.live, j ≠ i → (σ.newMag i s).mag j = σ.mag j := by
    intro j hj hji
    simp only [mag, Store.newMag, Function.update_of_ne hji, Function.update_of_ne (hne j hj)]
  apply keeps_of
  · refine ⟨fun j hj => ?_, h.le⟩
    by_cases hji : j = i
    · subst hji
      rw [mag_newMag_self]
      refine ⟨hs, ?_⟩
      simp [Store.newMag]
    · rw [hmag j hj hji]
      refine ⟨(h.wf j hj).1, ?_⟩
      simp only [Store.newMag, Function.update_of_ne hji]
      exact Nat.lt_succ_of_lt (h.wf j hj).2
  · exact fun j _ hs => Function.update_of_ne (fun he : j = i => hs (he ▸ hS)) ..
  · intro j hj hs'
    rw [limbs, limbs, hmag j (by have := h.le; omega) fun he : j = i => hs' (he ▸ hS)]

/-- Writing through a window is harmless when the vector stays as it is, or when those that share
it are local objects and their windows stay inside. -/
theorem Keeps.putMag_of (h : Good n σ) (hS : S i) {s : Slice UInt32} (hs : s.Wf)
    (hshare : ∀ j < σ.live, j ≠ i → (σ.obj j).data = (σ.obj i).data →
      s.data = (σ.mag i).data ∨ ((n ≤ j ∨ S j) ∧ (σ.mag i).data.length ≤ s.data.length)) :
    Keeps n S σ (σ.putMag i s) := by
  have hmag : ∀ j < σ.live, j ≠ i →
      (σ.putMag i s).mag j = σ.mag j ∨ ((n ≤ j ∨ S j) ∧ ((σ.putMag i s).mag j).Wf) := by
    intro j hj hji
    by_cases hd : (σ.obj j).data = (σ.obj i).data
    · rcases hshare j hj hji hd with heq | ⟨hloc, hlen⟩
      · left
        simp only [mag, Store.putMag, Function.update_of_ne hji, hd, Function.update_self, heq]
      · right
        have hwf := (h.wf j hj).1
        refine ⟨hloc, ?_⟩
        simp only [mag, Slice.Wf, Store.putMag, Function.update_of_ne hji, hd,
          Function.update_self] at hwf hlen ⊢
        omega
    · left
      simp only [mag, Store.putMag, Function.update_of_ne hji, Function.update_of_ne hd]
  apply keeps_of
  · refine ⟨fun j hj => ?_, h.le⟩
    rw [data_putMag]
    refine ⟨?_, (h.wf j hj).2⟩
    by_cases hji : j = i
    · subst hji
      rw [mag_putMag_self]
      exact hs
    · rcases hmag j hj hji with heq | ⟨-, hwf⟩
      · rw [heq]
        exact (h.wf j hj).1
      · exact hwf
  · exact fun j _ hs => Function.update_of_ne (fun he : j = i => hs (he ▸ hS)) ..
  · intro j hj hs'
    have hle := h.le
    rcases hmag j (by omega) fun he : j = i => hs' (he ▸ hS) with heq | ⟨hloc, -⟩
    · rw [limbs, limbs, heq]
    · rcases hloc with hge | hSj
      · omega
      · exact absurd hSj hs'

theorem Keeps.putMag_data (h : Good n σ) (hS : S i) {s : Slice UInt32} (hs : s.Wf)
    (hdata : s.data = (σ.mag i).data) : Keeps n S σ (σ.putMag i s) :=
  .putMag_of h hS hs fun _ _ _ _ => Or.inl hdata

theorem Keeps.putMag (h : Good n σ) (hS : S i) {s : Slice UInt32} (hs : s.Wf) (hsole : σ.Sole i) :
    Keeps n S σ (σ.putMag i s) :=
  .putMag_of h hS hs fun j hj hji hd => absurd hd (hsole j hj hji)

theorem Keeps.cloneData (h : Good n σ) (hS : S i) : Keeps n S σ (σ.cloneData i) := by
  unfold Store.cloneData
  split
  · exact .refl h
  · exact .newMag h hS (Slice.clone_wf _)

theorem Sole.newMag (h : σ.Wf) (s : Slice UInt32) : (σ.newMag i s).Sole i := by
  intro j hj hji
  simp only [Store.newMag, Function.update_of_ne hji, Function.update_self]
  exact Nat.ne_of_lt (h j hj).2

/-- After `cloneData` the vector is the object's own. -/
theorem Sole.cloneData (h : σ.Wf) (hi : i < σ.live) : (σ.cloneData i).Sole i := by
  unfold Store.cloneData
  split
  next hone => exact (UseCount.count_eq_one_iff (fun j => (σ.obj j).data) hi).mp hone
  next => exact Sole.newMag h _

theorem Sole.putMag {s : Slice UInt32} (h : σ.Sole i) : (σ.putMag i s).Sole i := by
  intro j hj hji
  simp only [Store.putMag, Function.update_of_ne hji, Function.update_self]
  exact h j hj hji

theorem Sole.modify {f : Impl → Impl} (hf : ∀ o, (f o).data = o.data) (h : σ.Sole i) :
    (σ.modify j f).Sole i := by
  intro k hk hki
  simp only [data_modify hf]
  exact h k hk hki

theorem Keeps.shareMag (h : Good n σ) (hS : S i) (hj : j < σ.live) :
    Keeps n S σ (σ.shareMag i j) := by
  apply keeps_of
  · refine ⟨fun k hk => ?_, h.le⟩
    by_cases hki : k = i
    · subst hki
      rw [mag_shareMag_self]
      simp only [Store.shareMag, obj_modify_self]
      exact h.wf j hj
    · rw [mag_shareMag_ne hki]
      simp only [Store.shareMag, obj_modify_ne hki]
      exact h.wf k hk
  · exact fun k _ hs => obj_modify_ne fun he => hs (he ▸ hS)
  · intro k _ hs
    rw [limbs, limbs, mag_shareMag_ne fun he : k = i => hs (he ▸ hS)]

theorem Keeps.assign (h : Good n σ) (hS : S i) (hj : j < σ.live) : Keeps n S σ (σ.assign i j) := by
  unfold Store.assign
  split
  · exact .refl h
  · apply keeps_of
    · refine ⟨fun k hk => ?_, h.le⟩
      by_cases hki : k = i
      · subst hki
        simp only [mag, obj_modify_self]
        exact h.wf j hj
      · simp only [mag, obj_modify_ne hki]
        exact h.wf k hk
    · exact fun k _ hs => obj_modify_ne fun he => hs (he ▸ hS)
    · intro k _ hs
      simp only [limbs, mag, obj_modify_ne fun he : k = i => hs (he ▸ hS)]
      rfl

theorem Keeps.beZero (h : Good n σ) (hS : S i) : Keeps n S σ (σ.beZero i) :=
  (Keeps.newMag h hS Slice.empty_wf).then fun h => .modify h hS (by simp)

theorem Keeps.beUnit (h : Good n σ) (hS : S i) (t : Sign) : Keeps n S σ (σ.beUnit i t) :=
  (Keeps.newMag h hS (Slice.append_wf Slice.empty_wf 1)).then fun h => .modify h hS (by simp)

theorem Keeps.pushCopy (h : Good n σ) (hj : j < σ.live) : Keeps n S σ (σ.pushCopy j) := by
  apply keeps_of
  · refine ⟨fun k hk => ?_, Nat.le_succ_of_le h.le⟩
    by_cases hkl : k = σ.live
    · subst hkl
      simp only [mag, Store.pushCopy, push, Function.update_self]
      exact h.wf j hj
    · simp only [mag, Store.pushCopy, push, Function.update_of_ne hkl]
      rw [live_pushCopy] at hk
      exact h.wf k (by omega)
  · exact fun k hk _ => Function.update_of_ne (by have := h.le; omega) ..
  · intro k hk _
    have hkl : k ≠ σ.live := by have := h.le; omega
    simp only [limbs, mag, Store.pushCopy, push, Function.update_of_ne hkl]

theorem Keeps.pushDefault (h : Good n σ) : Keeps n S σ σ.pushDefault := by
  have hmag : ∀ k < σ.live, σ.pushDefault.mag k = σ.mag k ∧
      σ.pushDefault.obj k = σ.obj k := by
    intro k hk
    have hkl : k ≠ σ.live := by omega
    have hne : (σ.obj k).data ≠ σ.next := Nat.ne_of_lt (h.wf k hk).2
    simp [mag, Store.pushDefault, Store.newMag, push, Function.update_of_ne hkl,
      Function.update_of_ne hne]
  apply keeps_of
  · refine ⟨fun k hk => ?_, Nat.le_succ_of_le h.le⟩
    by_cases hkl : k = σ.live
    · subst hkl
      simp only [mag, Store.pushDefault, Store.newMag, push, Function.update_self]
      exact ⟨Slice.empty_wf, Nat.lt_succ_self _⟩
    · rw [live_pushDefault] at hk
      have hk' : k < σ.live := by omega
      rw [(hmag k hk').1, (hmag k hk').2]
      exact ⟨(h.wf k hk').1, Nat.lt_succ_of_lt (h.wf k hk').2⟩
  · exact fun k hk _ => (hmag k (by have := h.le; omega)).2
  · intro k hk _
    rw [limbs, limbs, (hmag k (by have := h.le; omega)).1]

theorem Keeps.pushMove (h : Good n σ) (hS : S j) (hj : j < σ.live) : Keeps n S σ (σ.pushMove j) :=
  (Keeps.pushCopy h hj).then fun h => .newMag h hS Slice.empty_wf

theorem Keeps.popTo {m : Nat} (h : Good n σ) (hn : n ≤ m) (hm : m ≤ σ.live) :
    Keeps n S σ (σ.popTo m) :=
  keeps_of ⟨fun j hj => h.wf j (Nat.lt_of_lt_of_le hj hm), hn⟩ (fun _ _ _ => rfl) fun _ _ _ => rfl

theorem Keeps.swap (h : Good n σ) (hi : S i) (hj : S j) (hil : i < σ.live) (hjl : j < σ.live) :
    Keeps n S σ (σ.swap i j) := by
  have hne : ∀ k, k ≠ i → k ≠ j → (σ.swap i j).obj k = σ.obj k := by
    intro k hki hkj
    exact (Function.update_of_ne hkj ..).trans (Function.update_of_ne hki ..)
  have hmag : ∀ k l, (σ.swap i j).obj k = σ.obj l → (σ.swap i j).mag k = σ.mag l := by
    intro k l hkl
    rw [mag, hkl]
    rfl
  have hwf : ∀ k l, l < σ.live → (σ.swap i j).obj k = σ.obj l →
      ((σ.swap i j).mag k).Wf ∧ ((σ.swap i j).obj k).data < (σ.swap i j).next := by
    intro k l hl hkl
    rw [hmag k l hkl, hkl]
    exact h.wf l hl
  apply keeps_of
  · refine ⟨fun k hk => ?_, h.le⟩
    by_cases hkj : k = j
    · subst hkj
      exact hwf k i hil (Function.update_self ..)
    by_cases hki : k = i
    · subst hki
      exact hwf k j hjl ((Function.update_of_ne hkj ..).trans (Function.update_self ..))
    · exact hwf k k hk (hne k hki hkj)
  · exact fun k _ hs => hne k (fun he => hs (he ▸ hi)) fun he => hs (he ▸ hj)
  · intro k _ hs
    rw [limbs, limbs, hmag k k (hne k (fun he => hs (he ▸ hi)) fun he => hs (he ▸ hj))]

theorem Keeps.setStatus (h : Good n σ) (e : ErrCode) : Keeps n S σ (σ.setStatus e) :=
  keeps_of ⟨h.wf, h.le⟩ (fun _ _ _ => rfl) fun _ _ _ => rfl

end Store

end PGBigNumber
