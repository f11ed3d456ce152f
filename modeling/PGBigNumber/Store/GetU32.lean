import PGBigNumber.Store.Steps

/-!
# Reading limbs in two's complement

`getU32` and the index it caches. A read may fill the caches of objects and changes nothing else.
-/

namespace PGBigNumber

namespace Store

/-- `getFirstNonZeroU32Index`, with the store after it has filled the cache. -/
def getFirstNonZeroU32Index (σ : Store) (i : Nat) : Nat × Store :=
  if (σ.obj i).calcued then ((σ.obj i).firstNotZeroU32Index, σ)
  else
    let n := firstNz (σ.limbs i)
    (n, σ.modify i fun o => { o with calcued := true, firstNotZeroU32Index := n })

def getU32 (σ : Store) (i n : Nat) : UInt32 × Store :=
  if σ.isZero i then (0, σ)
  else if n ≥ (σ.mag i).count then (if (σ.sign i).negative then 0xffffffff else 0, σ)
  else
    let magInt := (σ.mag i).get n
    if (σ.sign i).positive then (magInt, σ)
    else
      let (fnu32zi, σ) := σ.getFirstNonZeroU32Index i
      (if n > fnu32zi then ~~~magInt else if n < fnu32zi then 0 else -magInt, σ)

def toU64 (σ : Store) (i : Nat) : UInt64 × Store :=
  let (high, σ) := σ.getU32 i 1
  let (low, σ) := σ.getU32 i 0
  ((high.toUInt64 <<< 32) ||| low.toUInt64, σ)

def index (σ : Store) (i : Nat) : Nat :=
  if (σ.obj i).calcued then (σ.obj i).firstNotZeroU32Index else firstNz (σ.limbs i)

variable {σ σ₁ σ₂ : Store} {i j n : Nat} {S R : Nat → Prop}

theorem CacheOk.index_eq (h : σ.CacheOk i) (hne : σ.limbs i ≠ []) :
    σ.index i = firstNz (σ.limbs i) := by
  unfold index
  split
  next hc => exact h hc hne
  next => rfl

theorem CacheOk.u32At_index (h : σ.CacheOk i) (n : Nat) :
    (σ.num i).u32At (σ.index i) n = (σ.num i).u32At (firstNz (σ.num i).limbs) n := by
  by_cases hne : σ.limbs i = []
  · unfold Num.u32At
    rw [num_limbs, hne, if_pos (show n ≥ [].length from Nat.zero_le n),
      if_pos (show n ≥ [].length from Nat.zero_le n)]
  · rw [h.index_eq hne, num_limbs]

structure Caches (σ σ' : Store) : Prop where
  vec : σ'.vec = σ.vec
  next : σ'.next = σ.next
  live : σ'.live = σ.live
  sign : ∀ k, σ'.sign k = σ.sign k
  mag : ∀ k, σ'.mag k = σ.mag k
  data : ∀ k, (σ'.obj k).data = (σ.obj k).data
  index : ∀ k, σ'.index k = σ.index k
  calcued : ∀ k, (σ.obj k).calcued = true → (σ'.obj k).calcued = true
  cacheOk : ∀ k, σ.CacheOk k → σ'.CacheOk k

theorem Caches.refl (σ : Store) : Caches σ σ :=
  ⟨rfl, rfl, rfl, fun _ => rfl, fun _ => rfl, fun _ => rfl, fun _ => rfl, fun _ => id, fun _ => id⟩

theorem Caches.trans (h₁ : Caches σ σ₁) (h₂ : Caches σ₁ σ₂) : Caches σ σ₂ where
  vec := h₂.vec.trans h₁.vec
  next := h₂.next.trans h₁.next
  live := h₂.live.trans h₁.live
  sign k := (h₂.sign k).trans (h₁.sign k)
  mag k := (h₂.mag k).trans (h₁.mag k)
  data k := (h₂.data k).trans (h₁.data k)
  index k := (h₂.index k).trans (h₁.index k)
  calcued k hc := h₂.calcued k (h₁.calcued k hc)
  cacheOk k hc := h₂.cacheOk k (h₁.cacheOk k hc)

theorem Caches.limbs (h : Caches σ σ₁) (k : Nat) : σ₁.limbs k = σ.limbs k := by
  rw [Store.limbs, Store.limbs, h.mag]

theorem Caches.num (h : Caches σ σ₁) (k : Nat) : σ₁.num k = σ.num k := by
  rw [Store.num, Store.num, h.sign, h.limbs]

theorem Caches.wf (h : Caches σ σ₁) (hwf : σ.Wf) : σ₁.Wf := by
  intro k hk
  rw [h.live] at hk
  rw [h.mag, h.data, h.next]
  exact hwf k hk

theorem Caches.sole (h : Caches σ σ₁) (hs : σ.Sole i) : σ₁.Sole i := by
  intro k hk hki
  simp only [h.data]
  rw [h.live] at hk
  exact hs k hk hki

theorem Caches.writes (h : Caches σ σ₁) (hwf : σ.Wf) : Writes σ S σ₁ where
  live := h.live
  keeps := ⟨⟨h.wf hwf, Nat.le_of_eq h.live.symm⟩, fun k _ _ => h.num k, fun k _ _ => h.cacheOk k⟩
  caches hc k hk := h.cacheOk k (hc k (h.live ▸ hk))

theorem getFirstNonZeroU32Index_fst : (σ.getFirstNonZeroU32Index i).1 = σ.index i := by
  unfold getFirstNonZeroU32Index index
  split <;> rfl

theorem getFirstNonZeroU32Index_caches : Caches σ (σ.getFirstNonZeroU32Index i).2 := by
  unfold getFirstNonZeroU32Index
  by_cases hc : (σ.obj i).calcued = true
  · rw [if_pos hc]
    exact .refl σ
  rw [if_neg hc]
  dsimp only
  set σ₁ := σ.modify i fun o => { o with calcued := true, firstNotZeroU32Index := firstNz (σ.limbs i) }
    with hσ₁
  have hmag : ∀ k, σ₁.mag k = σ.mag k := fun k => mag_modify (by simp) k
  have hlimbs : ∀ k, σ₁.limbs k = σ.limbs k := fun k => by rw [limbs, limbs, hmag]
  have hobj : ∀ k, k ≠ i → σ₁.obj k = σ.obj k := fun k hk => obj_modify_ne hk
  have hself : σ₁.obj i =
      { σ.obj i with calcued := true, firstNotZeroU32Index := firstNz (σ.limbs i) } :=
    obj_modify_self
  refine ⟨rfl, rfl, rfl, fun k => ?_, hmag, fun k => ?_, fun k => ?_, fun k => ?_, fun k => ?_⟩
  all_goals by_cases hk : k = i
  · rw [hk, sign, hself, sign]
  · rw [sign, hobj k hk, sign]
  · rw [hk, hself]
  · rw [hobj k hk]
  · rw [hk, index, hself, index, if_pos rfl, if_neg hc]
  · rw [index, index, hobj k hk, hlimbs]
  · rw [hk, hself]
    exact fun _ => rfl
  · rw [hobj k hk]
    exact id
  · rw [hk]
    unfold CacheOk
    rw [hlimbs, hself]
    exact fun _ _ _ => rfl
  · unfold CacheOk
    rw [hlimbs, hobj k hk]
    exact id

theorem getU32_fst (h : σ.Wf) (hi : i < σ.live) (n : Nat) :
    (σ.getU32 i n).1 = (σ.num i).u32At (σ.index i) n := by
  have hlen := h.length_limbs hi
  unfold getU32 Num.u32At isZero
  simp only [num_sign, num_limbs, hlen]
  by_cases h0 : (σ.sign i).zero = true
  · rw [if_pos h0, if_pos h0]
  rw [if_neg h0, if_neg h0]
  by_cases hn : n ≥ (σ.mag i).count
  · rw [if_pos hn, if_pos hn]
  have hget : (σ.mag i).get n = (σ.limbs i).getD n 0 := Slice.get_eq (h i hi).1 n (by omega)
  rw [if_neg hn, if_neg hn, hget]
  by_cases hp : (σ.sign i).positive = true
  · rw [if_pos hp, if_pos hp]
  · rw [if_neg hp, if_neg hp]
    dsimp only
    rw [getFirstNonZeroU32Index_fst]

theorem getU32_caches : Caches σ (σ.getU32 i n).2 := by
  unfold getU32
  split
  · exact .refl σ
  split
  · exact .refl σ
  dsimp only
  split
  · exact .refl σ
  · exact getFirstNonZeroU32Index_caches

theorem getU32_calcued (hneg : σ.sign i = .neg) (hcount : 0 < (σ.mag i).count) :
    ((σ.getU32 i 0).2.obj i).calcued = true := by
  unfold getU32 isZero
  rw [hneg, if_neg (by decide), if_neg (by omega), if_neg (by decide)]
  dsimp only
  unfold getFirstNonZeroU32Index
  split
  next hc => exact hc
  next => simp

/-- With the right index, `getU32` is exact. -/
theorem getU32_exact (h : σ.Wf) (hi : i < σ.live) (hx : (σ.num i).Coherent) (hc : σ.CacheOk i)
    (n : Nat) : (σ.getU32 i n).1 = limbAt (σ.num i).toInt n := by
  rw [getU32_fst h hi, hc.u32At_index, Num.u32At_eq hx]

theorem toU64_caches : Caches σ (σ.toU64 i).2 := getU32_caches.trans getU32_caches

theorem getU32_ofNat {m : Nat} (h : σ.Wf) (hi : i < σ.live) (hm : σ.num i = Num.ofInt m) (n : Nat) :
    σ.getU32 i n = (limbAt m n, σ) := by
  have hsign : (σ.sign i).zero = true ∨ (σ.sign i).positive = true := by
    rw [← num_sign, hm, Num.ofInt]
    by_cases h0 : (m : Int) = 0
    · exact Or.inl (by rw [if_pos h0]; rfl)
    · exact Or.inr (by rw [if_neg h0, if_pos (by omega)]; rfl)
  have hfst : (σ.getU32 i n).1 = limbAt m n := by
    rw [getU32_fst h hi, ← Num.u32At_ofInt, ← hm]
    exact Num.u32At_congr rfl rfl (hsign.imp_right Or.inl)
  have hsnd : (σ.getU32 i n).2 = σ := by
    unfold getU32 isZero
    rcases hsign with hz | hp
    · rw [if_pos hz]
    · rw [if_pos hp]
      split
      · rfl
      · split <;> rfl
  exact Prod.ext hfst hsnd

theorem toNat_join (high low : UInt32) :
    ((high.toUInt64 <<< 32) ||| low.toUInt64).toNat = high.toNat * 2 ^ 32 + low.toNat := by
  have hhigh := high.toNat_lt
  have hlow := low.toNat_lt
  rw [UInt64.toNat_or, UInt64.toNat_shiftLeft, UInt32.toNat_toUInt64, UInt32.toNat_toUInt64,
    show (32 : UInt64).toNat % 64 = 32 from rfl, Nat.shiftLeft_eq, Nat.mod_eq_of_lt (by omega),
    ← Nat.shiftLeft_eq, ← Nat.shiftLeft_add_eq_or_of_lt (by omega), Nat.shiftLeft_eq]

theorem toU64_ofNat {m : Nat} (h : σ.Wf) (hi : i < σ.live) (hm : σ.num i = Num.ofInt m)
    (hlt : m < 2 ^ 64) : (σ.toU64 i).1.toNat = m ∧ (σ.toU64 i).2 = σ := by
  unfold toU64
  rw [getU32_ofNat h hi hm 1]
  dsimp only
  rw [getU32_ofNat h hi hm 0]
  refine ⟨?_, rfl⟩
  rw [toNat_join, toNat_limbAt, toNat_limbAt, TwosComplement.digit_natCast,
    TwosComplement.digit_natCast]
  omega

end Store

end PGBigNumber
