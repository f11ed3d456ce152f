import PGBigNumber.Store.GetU32
import PGBigNumber.Store.Int64

/-!
# Bitwise member functions

`DEFINE_BITWISE` and `notSelf` clone the vector, widen the window by `slice(0, len)` and overwrite
it limb by limb with the two's complement form of the result; the top limb then decides the sign.
The widened window shows whatever the vector kept beyond `m_hi`.
-/

namespace PGBigNumber

def notPlusOne (s : Slice UInt32) (firstNonZeroU32Index : Nat) : Slice UInt32 :=
  s.assign (notPlusOneLimbs s.toList firstNonZeroU32Index)

def getU32OfI64ByIndex (k : Int) (n : Nat) : UInt32 :=
  if k = 0 then 0
  else if n ≥ 2 then if k < 0 then 0xffffffff else 0
  else UInt32.ofNat (k / 2 ^ (n * 32) % 2 ^ 32).toNat

namespace Store

def writeLoop (f : Store → Nat → UInt32 × Store) (i : Nat) : List Nat → Store → Store
  | [], σ => σ
  | k :: ks, σ =>
    let (x, σ) := f σ k
    writeLoop f i ks (σ.putMag i ((σ.mag i).set k x))

/-- The `switch` on the top limb; the last branch is where the assertion stands. -/
def settle (σ : Store) (i : Nat) : Store :=
  let top := (σ.mag i).get ((σ.mag i).count - 1)
  if top = 0 then
    let σ := σ.setSign i .pos
    let σ := σ.putMag i (eraseZerosSuffix (σ.mag i))
    let σ := if (σ.mag i).count = 0 then σ.setSign i .zro else σ
    σ.beginWrite i
  else if top = 0xffffffff then
    let σ := (σ.setSign i .neg).beginWrite i
    let (n, σ) := σ.getFirstNonZeroU32Index i
    let σ := σ.putMag i (notPlusOne (σ.mag i) n)
    σ.putMag i (eraseZerosSuffix (σ.mag i))
  else σ

def widen (σ : Store) (i otherlen : Nat) : Store :=
  let σ := ((σ.cloneData i).getU32 i 0).2
  σ.putMag i ((σ.mag i).slice 0 (max (σ.mag i).count otherlen + 1))

/-- The common body of `DEFINE_BITWISE` and `notSelf`; `f` gives the new limbs. -/
def rewriteTwos (σ : Store) (i otherlen : Nat) (f : Store → Nat → UInt32 × Store) : Store :=
  let len := max (σ.mag i).count otherlen + 1
  (writeLoop f i (List.range len) (σ.widen i otherlen)).settle i

def bitwiseLimb (op : UInt32 → UInt32 → UInt32) (i : Nat)
    (getU32Index : Store → Nat → UInt32 × Store) (σ : Store) (k : Nat) : UInt32 × Store :=
  let (x, σ) := σ.getU32 i k
  let (y, σ) := getU32Index σ k
  (op x y, σ)

def notLimb (i : Nat) (σ : Store) (k : Nat) : UInt32 × Store :=
  let (x, σ) := σ.getU32 i k
  (~~~x, σ)

def bitwise (σ : Store) (op : UInt32 → UInt32 → UInt32) (i otherlen : Nat)
    (getU32Index : Store → Nat → UInt32 × Store) : Store :=
  σ.rewriteTwos i otherlen (bitwiseLimb op i getU32Index)

def bitwiseWithOther (σ : Store) (op : UInt32 → UInt32 → UInt32) (i j : Nat) : Store :=
  σ.bitwise op i (σ.mag j).count fun σ k => σ.getU32 j k

def bitwiseWithI64 (σ : Store) (op : UInt32 → UInt32 → UInt32) (i : Nat) (i64 : Int) : Store :=
  σ.bitwise op i 2 fun σ k => (getU32OfI64ByIndex i64 k, σ)

def andAssign (σ : Store) (i j : Nat) : Store := σ.bitwiseWithOther (· &&& ·) i j

def andAssignI64 (σ : Store) (i : Nat) (k : Int) : Store := σ.bitwiseWithI64 (· &&& ·) i k

def orAssign (σ : Store) (i j : Nat) : Store := σ.bitwiseWithOther (· ||| ·) i j

def orAssignI64 (σ : Store) (i : Nat) (k : Int) : Store := σ.bitwiseWithI64 (· ||| ·) i k

def xorAssign (σ : Store) (i j : Nat) : Store := σ.bitwiseWithOther (· ^^^ ·) i j

def xorAssignI64 (σ : Store) (i : Nat) (k : Int) : Store := σ.bitwiseWithI64 (· ^^^ ·) i k

def notSelf (σ : Store) (i : Nat) : Store := σ.rewriteTwos i 0 (notLimb i)

/-- `notBits`; no result where `util::clz` gets a zero or there is no top limb. -/
def notBits (σ : Store) (i : Nat) : Option Store :=
  if σ.isZero i then some σ
  else
    let σ := (σ.beginWrite i).cloneData i
    let l := (σ.mag i).toList
    if l.getLastD 0 = 0 then none
    else some (σ.putMag i ((σ.mag i).assign (notBitsLimbs l)))

variable {σ σ₁ σ₂ : Store} {i j n otherlen : Nat} {S R : Nat → Prop}
  {f : Store → Nat → UInt32 × Store}

/-- What a loop over object `i` leaves alone. -/
structure Near (i : Nat) (σ σ' : Store) : Prop where
  wf : σ'.Wf
  live : σ'.live = σ.live
  sole : σ'.Sole i
  sign : σ'.sign i = σ.sign i
  count : (σ'.mag i).count = (σ.mag i).count
  num : ∀ j < σ.live, j ≠ i → σ'.num j = σ.num j
  index : ∀ j < σ.live, j ≠ i → σ'.index j = σ.index j
  cacheOk : ∀ j < σ.live, j ≠ i → σ.CacheOk j → σ'.CacheOk j
  cached : (σ.obj i).calcued = true → (σ'.obj i).calcued = true ∧ σ'.index i = σ.index i

theorem Near.refl (h : σ.Wf) (hs : σ.Sole i) : Near i σ σ :=
  ⟨h, rfl, hs, rfl, rfl, fun _ _ _ => rfl, fun _ _ _ => rfl, fun _ _ _ => id, fun hc => ⟨hc, rfl⟩⟩

theorem Near.trans (h₁ : Near i σ σ₁) (h₂ : Near i σ₁ σ₂) : Near i σ σ₂ where
  wf := h₂.wf
  live := h₂.live.trans h₁.live
  sole := h₂.sole
  sign := h₂.sign.trans h₁.sign
  count := h₂.count.trans h₁.count
  num j hj hji := (h₂.num j (h₁.live.symm ▸ hj) hji).trans (h₁.num j hj hji)
  index j hj hji := (h₂.index j (h₁.live.symm ▸ hj) hji).trans (h₁.index j hj hji)
  cacheOk j hj hji hc := h₂.cacheOk j (h₁.live.symm ▸ hj) hji (h₁.cacheOk j hj hji hc)
  cached hc := by
    obtain ⟨hc₁, hx₁⟩ := h₁.cached hc
    obtain ⟨hc₂, hx₂⟩ := h₂.cached hc₁
    exact ⟨hc₂, hx₂.trans hx₁⟩

theorem Near.of_caches (h : Caches σ σ₁) (hwf : σ.Wf) (hs : σ.Sole i) : Near i σ σ₁ where
  wf := h.wf hwf
  live := h.live
  sole := h.sole hs
  sign := h.sign i
  count := by rw [h.mag]
  num j _ _ := h.num j
  index j _ _ := h.index j
  cacheOk j _ _ := h.cacheOk j
  cached hc := ⟨h.calcued i hc, h.index i⟩

theorem Near.set (h : σ.Wf) (hi : i < σ.live) (hs : σ.Sole i) (k : Nat) (x : UInt32) :
    Near i σ (σ.putMag i ((σ.mag i).set k x)) := by
  have hkeeps := Keeps.putMag (S := (· = i)) h.good rfl (Slice.set_wf (h i hi).1 k x) hs
  refine ⟨hkeeps.good.wf, rfl, hs.putMag, sign_putMag i, by rw [mag_putMag_self]; rfl,
    fun j hj hji => hkeeps.num j hj hji, fun j hj hji => ?_,
    fun j hj hji => hkeeps.cache j hj hji, fun hc => ⟨by rwa [calcued_putMag], ?_⟩⟩
  · have hlimbs : (σ.putMag i ((σ.mag i).set k x)).limbs j = σ.limbs j :=
      congrArg Num.limbs (hkeeps.num j hj hji)
    unfold Store.index
    rw [hlimbs, obj_putMag_ne hji]
  · unfold Store.index
    rw [calcued_putMag, if_pos hc, if_pos hc]
    simp [putMag]

theorem limbs_putMag_self {s : Slice UInt32} : (σ.putMag i s).limbs i = s.toList := by
  rw [limbs, mag_putMag_self]

theorem limbs_set (k : Nat) (x : UInt32) :
    (σ.putMag i ((σ.mag i).set k x)).limbs i = (σ.limbs i).set k x := by
  rw [limbs_putMag_self, Slice.toList_set]
  rfl

theorem writeLoop_near (hf : ∀ {σ : Store} k, Caches σ (f σ k).2) (hi : i < σ.live) (h : σ.Wf)
    (hs : σ.Sole i) (ks : List Nat) : Near i σ (writeLoop f i ks σ) := by
  induction ks generalizing σ with
  | nil => exact .refl h hs
  | cons k ks ih =>
      have hread := Near.of_caches (i := i) (hf (σ := σ) k) h hs
      have hi₁ : i < (f σ k).2.live := by rw [hread.live]; exact hi
      have hset := Near.set hread.wf hi₁ hread.sole k (f σ k).1
      exact (hread.trans hset).trans (ih (by rw [hset.live]; exact hi₁) hset.wf hset.sole)

/-- One iteration after the other: limb `k` becomes what `f` gives as long as limb `k` is as it was
before the loop. -/
theorem writeLoop_limbs {val : Nat → UInt32} (hf : ∀ {σ : Store} k, Caches σ (f σ k).2)
    (hi : i < σ.live) (h : σ.Wf) (hs : σ.Sole i)
    (hval : ∀ σ₁ k, Near i σ σ₁ → k < (σ.mag i).count →
      (σ₁.limbs i).getD k 0 = (σ.limbs i).getD k 0 → (f σ₁ k).1 = val k)
    (hn : n ≤ (σ.mag i).count) :
    (writeLoop f i (List.range n) σ).limbs i = (List.range n).map val ++ (σ.limbs i).drop n := by
  have hlen := h.length_limbs hi
  have hloop : ∀ ks m σ₁, Near i σ σ₁ → ks = List.range' m (n - m) → m ≤ n →
      σ₁.limbs i = (List.range m).map val ++ (σ.limbs i).drop m →
      (writeLoop f i ks σ₁).limbs i = (List.range n).map val ++ (σ.limbs i).drop n := by
    intro ks
    induction ks with
    | nil =>
        intro m σ₁ _ hks hm hlimbs
        have hmn : n - m = 0 := by
          have := congrArg List.length hks
          simpa using this.symm
        rw [writeLoop, hlimbs, show m = n by omega]
    | cons k ks ih =>
        intro m σ₁ hnear hks hm hlimbs
        have hlt : m < n := by
          have := congrArg List.length hks
          rw [List.length_cons, List.length_range'] at this
          omega
        rw [show n - m = (n - (m + 1)) + 1 by omega, List.range'_succ] at hks
        obtain ⟨rfl, rfl⟩ := List.cons.inj hks
        have hsplit : (σ.limbs i).drop k = (σ.limbs i)[k] :: (σ.limbs i).drop (k + 1) :=
          List.drop_eq_getElem_cons (by omega)
        have hsame : (σ₁.limbs i).getD k 0 = (σ.limbs i).getD k 0 := by
          rw [hlimbs, hsplit, List.getD_append_right _ _ _ _ (by simp), List.length_map,
            List.length_range, Nat.sub_self, List.getD_cons_zero, List.getD_eq_getElem]
        have hread := Near.of_caches (i := i) (hf (σ := σ₁) k) hnear.wf hnear.sole
        have hset := Near.set hread.wf (by rw [hread.live, hnear.live]; exact hi) hread.sole k
          (f σ₁ k).1
        apply ih (k + 1) _ ((hnear.trans hread).trans hset) rfl (by omega)
        rw [limbs_set, (hf k).limbs, hlimbs, hval σ₁ k hnear (by omega) hsame, hsplit,
          List.set_append_right _ _ (by simp), List.length_map, List.length_range, Nat.sub_self,
          List.set_cons_zero, List.range_succ, List.map_append, List.append_assoc]
        rfl
  rw [List.range_eq_range'] at *
  exact hloop _ 0 σ (.refl h hs) (by rw [Nat.sub_zero]) (Nat.zero_le n) (by simp)

theorem notPlusOne_wf {s : Slice UInt32} (h : s.Wf) (n : Nat) : (notPlusOne s n).Wf :=
  Slice.assign_wf h _

theorem toList_notPlusOne {s : Slice UInt32} (h : s.Wf) (n : Nat) :
    (notPlusOne s n).toList = notPlusOneLimbs s.toList n :=
  Slice.toList_assign h (by rw [length_notPlusOneLimbs, Slice.length_toList h])

private theorem settle_pos_puts (h : σ.Wf) (hi : i < σ.live) :
    Puts σ i R (if trim (σ.limbs i) = [] then ⟨.zro, []⟩ else ⟨.pos, trim (σ.limbs i)⟩)
      ((let σ₁ := σ.setSign i .pos
        let σ₁ := σ₁.putMag i (eraseZerosSuffix (σ₁.mag i))
        if (σ₁.mag i).count = 0 then σ₁.setSign i .zro else σ₁).beginWrite i) := by
  have hwf := (h i hi).1
  dsimp only
  rw [mag_setSign, mag_putMag_self]
  set σ₁ := (σ.setSign i .pos).putMag i (eraseZerosSuffix (σ.mag i))
  have hk : Keeps σ.live (· = i) σ σ₁ :=
    (Keeps.setSign (S := (· = i)) h.good rfl .pos).then fun hg =>
      Keeps.putMag_data (S := (· = i)) hg rfl (eraseZerosSuffix_wf hwf) (by
        rw [mag_setSign]
        exact eraseZerosSuffix_data hwf)
  have hlist : (eraseZerosSuffix (σ.mag i)).toList = trim (σ.limbs i) := toList_eraseZerosSuffix hwf
  have hmag : σ₁.mag i = eraseZerosSuffix (σ.mag i) := mag_putMag_self
  by_cases hnil : trim (σ.limbs i) = []
  · rw [if_pos hnil, if_pos ((Slice.toList_eq_nil_iff (eraseZerosSuffix_wf hwf)).mp
      (hlist.trans hnil))]
    refine .of_keeps rfl ((hk.then fun hg => Keeps.setSign (S := (· = i)) hg rfl .zro).then
      fun hg => .beginWrite hg rfl) ?_ (by simp)
    rw [num_beginWrite, num_eq, sign_setSign_self, mag_setSign, hmag, hlist, hnil]
  · rw [if_neg hnil, if_neg fun hc => hnil (hlist.symm.trans
      ((Slice.toList_eq_nil_iff (eraseZerosSuffix_wf hwf)).mpr hc))]
    refine .of_keeps rfl (hk.then fun hg => .beginWrite hg rfl) ?_ (by simp)
    rw [num_beginWrite, num_eq, hmag, hlist]
    simp [σ₁]

private theorem settle_neg_puts (h : σ.Wf) (hi : i < σ.live) (hs : σ.Sole i)
    (hne : PGBigNumber.mag (σ.limbs i) ≠ 0) :
    Puts σ i R ⟨.neg, trim (notPlusOneLimbs (σ.limbs i) (firstNz (σ.limbs i)))⟩
      (let σ₁ := (σ.setSign i .neg).beginWrite i
       let σ₂ := (σ₁.getFirstNonZeroU32Index i).2
       let σ₃ := σ₂.putMag i (notPlusOne (σ₂.mag i) (σ₁.getFirstNonZeroU32Index i).1)
       σ₃.putMag i (eraseZerosSuffix (σ₃.mag i))) := by
  dsimp only
  set σ₁ := (σ.setSign i .neg).beginWrite i with hσ₁
  have k₁ : Keeps σ.live (· = i) σ σ₁ :=
    (Keeps.setSign (S := (· = i)) h.good rfl .neg).then fun hg => .beginWrite hg rfl
  have hmag₁ : σ₁.mag i = σ.mag i := by rw [hσ₁, mag_beginWrite, mag_setSign]
  have hlimbs₁ : σ₁.limbs i = σ.limbs i := by rw [limbs, limbs, hmag₁]
  have hindex : (σ₁.getFirstNonZeroU32Index i).1 = firstNz (σ.limbs i) := by
    rw [getFirstNonZeroU32Index_fst, index, if_neg (by simp [hσ₁]), hlimbs₁]
  have hcache : Caches σ₁ (σ₁.getFirstNonZeroU32Index i).2 := getFirstNonZeroU32Index_caches
  have hcalc : ((σ₁.getFirstNonZeroU32Index i).2.obj i).calcued = true ∧
      ((σ₁.getFirstNonZeroU32Index i).2.obj i).firstNotZeroU32Index = firstNz (σ.limbs i) := by
    unfold getFirstNonZeroU32Index
    rw [if_neg (by simp [hσ₁])]
    simp [hlimbs₁]
  rw [hindex]
  set σ₂ := (σ₁.getFirstNonZeroU32Index i).2
  have hmag₂ : σ₂.mag i = σ.mag i := (hcache.mag i).trans hmag₁
  have hlive₂ : σ₂.live = σ.live := hcache.live
  have hwf₂ := hcache.wf k₁.good.wf
  have hwf := (h i hi).1
  have hs₂ : σ₂.Sole i := hcache.sole ((hs.modify (by simp)).modify (by simp))
  rw [hmag₂, mag_putMag_self]
  set l := notPlusOneLimbs (σ.limbs i) (firstNz (σ.limbs i)) with hl
  have hwfn := notPlusOne_wf hwf (firstNz (σ.limbs i))
  have hlistn : (notPlusOne (σ.mag i) (firstNz (σ.limbs i))).toList = l := toList_notPlusOne hwf _
  have hlist : (eraseZerosSuffix (notPlusOne (σ.mag i) (firstNz (σ.limbs i)))).toList = trim l := by
    rw [toList_eraseZerosSuffix hwfn, hlistn]
  have k₂ : Keeps σ.live (· = i) σ σ₂ := k₁.then fun hg =>
    ((hcache.writes hg.wf).keeps.mono hg.le fun _ _ he => he)
  refine ⟨hlive₂, ?_, ?_, fun _ _ => ?_⟩
  · apply (k₂.then fun hg => Keeps.putMag (S := (· = i)) hg rfl hwfn hs₂).then
    intro hg
    exact Keeps.putMag_data (S := (· = i)) hg rfl (eraseZerosSuffix_wf hwfn) (by
      rw [mag_putMag_self]
      exact eraseZerosSuffix_data hwfn)
  · rw [num_eq, mag_putMag_self, hlist, sign_putMag, sign_putMag, hcache.sign]
    simp [hσ₁]
  · rw [limbs_putMag_self, hlist]
    have hfirst : firstNz (trim l) = firstNz (σ.limbs i) := by
      rw [← firstNz_notPlusOneLimbs hne, ← hl]
      have hlt := mag_notPlusOneLimbs hne
      rw [← hl] at hlt
      have hmax := mag_lt (σ.limbs i)
      have hle : PGBigNumber.mag (trim l) ≠ 0 := by
        rw [mag_trim]
        omega
      exact firstNz_unique (fun k hk => by rw [← getD_trim]; exact getD_of_lt_firstNz hk)
        (by rw [← getD_trim]; exact getD_firstNz (firstNz_lt hle)) |>.symm
    rw [hfirst]
    simp [putMag, hcalc.2]

/-- After the loop the object gets the number whose two's complement limbs it shows; the cache is
in doubt only where the top limb is no sign. -/
theorem settle_puts (h : σ.Wf) (hi : i < σ.live) (hs : σ.Sole i) (hcount : 0 < (σ.mag i).count)
    (hR : R i ∨ (σ.limbs i).getLastD 0 = 0 ∨ (σ.limbs i).getLastD 0 = 0xffffffff) :
    Puts σ i R (Num.decodeTwos (σ.sign i) (σ.limbs i)) (σ.settle i) := by
  have hlast := get_last h hi hcount
  unfold settle Num.decodeTwos
  dsimp only
  rw [hlast]
  by_cases h0 : (σ.limbs i).getLastD 0 = 0
  · rw [if_pos h0, if_pos h0]
    exact settle_pos_puts h hi
  rw [if_neg h0, if_neg h0]
  by_cases hff : (σ.limbs i).getLastD 0 = 0xffffffff
  · rw [if_pos hff, if_pos hff]
    refine settle_neg_puts h hi hs fun hzero => h0 ?_
    have hall := (Positional.value_eq_zero_iff (by decide) _).mp hzero
    by_cases hnil : σ.limbs i = []
    · rw [hnil]
      rfl
    · rw [List.getLastD_eq_getLast?, List.getLast?_eq_getLast_of_ne_nil hnil]
      exact UInt32.toNat_inj.mp (hall _ (List.getLast_mem hnil))
  · rw [if_neg hff, if_neg hff]
    exact .refl h (by tauto)

/-- The limbs that a window of `n` limbs from `m_lo` on shows. -/
def shown (σ : Store) (i n : Nat) : List UInt32 := (((σ.cloneData i).mag i).slice 0 n).toList

structure Widened (σ : Store) (i otherlen : Nat) (σ' : Store) : Prop where
  live : σ'.live = σ.live
  keeps : Keeps σ.live (· = i) σ σ'
  sole : σ'.Sole i
  sign : σ'.sign i = σ.sign i
  count : (σ'.mag i).count = max (σ.mag i).count otherlen + 1
  limbs : σ'.limbs i = σ.shown i (max (σ.mag i).count otherlen + 1)
  index : ∀ j < σ.live, j ≠ i → σ'.index j = σ.index j
  cached : σ.sign i = .neg → 0 < (σ.mag i).count →
    (σ'.obj i).calcued = true ∧ σ'.index i = σ.index i

theorem count_cloneData (h : σ.Wf) (hi : i < σ.live) :
    ((σ.cloneData i).mag i).count = (σ.mag i).count := by
  rw [← Slice.length_toList (mag_cloneData_wf h hi), ← limbs_eq, limbs_cloneData_self,
    h.length_limbs hi]

theorem firstNotZeroU32Index_cloneData :
    ((σ.cloneData i).obj i).firstNotZeroU32Index = (σ.obj i).firstNotZeroU32Index := by
  unfold cloneData
  split
  · rfl
  · simp [newMag]

theorem index_cloneData (h : σ.Wf) (hj : j < σ.live) : (σ.cloneData i).index j = σ.index j := by
  unfold Store.index
  rw [calcued_cloneData, limbs_cloneData h hj]
  by_cases hji : j = i
  · rw [hji, firstNotZeroU32Index_cloneData]
  · rw [obj_cloneData_ne hji]

theorem widen_spec (h : σ.Wf) (hi : i < σ.live) (otherlen : Nat) :
    Widened σ i otherlen (σ.widen i otherlen) := by
  have k₁ : Keeps σ.live (· = i) σ (σ.cloneData i) := Keeps.cloneData h.good rfl
  have hcount := count_cloneData h hi
  have hs₁ : (σ.cloneData i).Sole i := Sole.cloneData h hi
  have hcache : Caches (σ.cloneData i) ((σ.cloneData i).getU32 i 0).2 := getU32_caches
  unfold widen
  dsimp only
  set σ₂ := ((σ.cloneData i).getU32 i 0).2 with hσ₂
  have hlive₂ : σ₂.live = σ.live := by rw [hcache.live, live_cloneData]
  have hmag₂ : σ₂.mag i = (σ.cloneData i).mag i := hcache.mag i
  have hwf₂ := hcache.wf k₁.good.wf
  rw [hmag₂, hcount]
  set len := max (σ.mag i).count otherlen + 1
  have hslice : (((σ.cloneData i).mag i).slice 0 len).Wf :=
    Slice.slice_wf (mag_cloneData_wf h hi) (Nat.zero_le len)
  have k₂ : Keeps σ.live (· = i) σ σ₂ := k₁.then fun hg =>
    (hcache.writes hg.wf).keeps.mono hg.le fun _ _ he => he
  have k₃ : Keeps σ.live (· = i) σ₂ (σ₂.putMag i (((σ.cloneData i).mag i).slice 0 len)) :=
    Keeps.putMag (S := (· = i)) k₂.good rfl hslice (hcache.sole hs₁)
  refine ⟨hlive₂, k₂.then fun _ => k₃, (hcache.sole hs₁).putMag, ?_, ?_, limbs_putMag_self, ?_, ?_⟩
  · rw [sign_putMag, hcache.sign, sign_cloneData]
  · rw [mag_putMag_self, Slice.count_slice (Nat.zero_le len), Nat.sub_zero]
  · intro j hj hji
    have hlimbs := congrArg Num.limbs (k₃.num j hj hji)
    rw [num_limbs, num_limbs] at hlimbs
    rw [← index_cloneData h hj, ← hcache.index]
    unfold Store.index
    rw [hlimbs, obj_putMag_ne hji]
  · intro hneg hpos
    have hc : (σ₂.obj i).calcued = true :=
      getU32_calcued (by rw [sign_cloneData, hneg]) (by rwa [hcount])
    refine ⟨by rwa [calcued_putMag], ?_⟩
    rw [← index_cloneData h hi, ← hcache.index]
    unfold Store.index
    rw [calcued_putMag, if_pos hc, if_pos hc]
    simp [putMag]

theorem rewriteTwos_keeps (otherlen : Nat) (hf : ∀ {σ : Store} k, Caches σ (f σ k).2) (h : σ.Wf)
    (hi : i < σ.live) :
    (σ.rewriteTwos i otherlen f).live = σ.live ∧
      Keeps σ.live (· = i) σ (σ.rewriteTwos i otherlen f) := by
  have hw := widen_spec h hi otherlen
  have hn := writeLoop_near hf (by rw [hw.live]; exact hi) hw.keeps.good.wf hw.sole
    (List.range (max (σ.mag i).count otherlen + 1))
  have hlive := hn.live.trans hw.live
  have hs := settle_puts (R := (· = i)) hn.wf (by rw [hlive]; exact hi) hn.sole
    (by rw [hn.count, hw.count]; omega) (Or.inl rfl)
  refine ⟨hs.live.trans hlive, (hw.keeps.then fun _ => ?_).then fun _ => hlive ▸ hs.keeps⟩
  refine ⟨⟨hn.wf, Nat.le_of_eq hlive.symm⟩, fun j hj hji => ?_, fun j hj hji => ?_⟩
  · exact hn.num j (by rw [hw.live]; exact hj) hji
  · exact hn.cacheOk j (by rw [hw.live]; exact hj) hji

section values

variable {val : Nat → UInt32}

/-- `f` reads `val` while the loop of `rewriteTwos` overwrites the limbs. -/
def ReadsAs (σ : Store) (i otherlen : Nat) (f : Store → Nat → UInt32 × Store)
    (val : Nat → UInt32) : Prop :=
  ∀ σ₁ k, Near i (σ.widen i otherlen) σ₁ → k < max (σ.mag i).count otherlen + 1 →
    (σ₁.limbs i).getD k 0 = ((σ.widen i otherlen).limbs i).getD k 0 → (f σ₁ k).1 = val k

private theorem rewriteTwos_loop (hf : ∀ {σ : Store} k, Caches σ (f σ k).2) (h : σ.Wf)
    (hi : i < σ.live) (hval : σ.ReadsAs i otherlen f val) :
    ∃ σ₁, σ.rewriteTwos i otherlen f = σ₁.settle i ∧ Near i (σ.widen i otherlen) σ₁ ∧
      σ₁.limbs i = (List.range (max (σ.mag i).count otherlen + 1)).map val := by
  have hw := widen_spec h hi otherlen
  have hi₁ : i < (σ.widen i otherlen).live := by rw [hw.live]; exact hi
  refine ⟨_, rfl, writeLoop_near hf hi₁ hw.keeps.good.wf hw.sole _, ?_⟩
  rw [writeLoop_limbs (n := max (σ.mag i).count otherlen + 1) hf hi₁ hw.keeps.good.wf hw.sole
    (fun σ₁ k hn hk => hval σ₁ k hn (by rwa [← hw.count])) (Nat.le_of_eq hw.count.symm),
    List.drop_eq_nil_of_le, List.append_nil]
  rw [hw.keeps.good.wf.length_limbs hi₁, hw.count]

theorem rewriteTwos_num (hf : ∀ {σ : Store} k, Caches σ (f σ k).2) (h : σ.Wf) (hi : i < σ.live)
    (hval : σ.ReadsAs i otherlen f val) :
    (σ.rewriteTwos i otherlen f).num i = Num.decodeTwos (σ.sign i)
      ((List.range (max (σ.mag i).count otherlen + 1)).map val) := by
  have hw := widen_spec h hi otherlen
  obtain ⟨σ₁, hrun, hn, hlimbs⟩ := rewriteTwos_loop hf h hi hval
  have hs := settle_puts (R := (· = i)) hn.wf (by rw [hn.live, hw.live]; exact hi) hn.sole
    (by rw [hn.count, hw.count]; omega) (Or.inl rfl)
  rw [hrun, hs.num, hlimbs, hn.sign, hw.sign]

theorem rewriteTwos_puts (hf : ∀ {σ : Store} k, Caches σ (f σ k).2) (h : σ.Wf) (hi : i < σ.live)
    (hval : σ.ReadsAs i otherlen f val)
    (htop : val (max (σ.mag i).count otherlen) = 0 ∨
      val (max (σ.mag i).count otherlen) = 0xffffffff) :
    Puts σ i R (Num.decodeTwos (σ.sign i)
      ((List.range (max (σ.mag i).count otherlen + 1)).map val)) (σ.rewriteTwos i otherlen f) := by
  have hw := widen_spec h hi otherlen
  obtain ⟨hlive, hkeeps⟩ := rewriteTwos_keeps otherlen hf h hi
  obtain ⟨σ₁, hrun, hn, hlimbs⟩ := rewriteTwos_loop hf h hi hval
  have hlast : (σ₁.limbs i).getLastD 0 = val (max (σ.mag i).count otherlen) := by
    rw [hlimbs, List.range_succ, List.map_append, List.map_singleton, List.getLastD_concat]
  have hs := settle_puts (R := fun _ => False) hn.wf (by rw [hn.live, hw.live]; exact hi) hn.sole
    (by rw [hn.count, hw.count]; omega) (Or.inr (by rwa [hlast]))
  exact ⟨hlive, hkeeps, rewriteTwos_num hf h hi hval, fun _ => hrun ▸ hs.cache fun _ hf => hf.elim⟩

theorem getU32_self (h : σ.Wf) (hi : i < σ.live)
    (hsign : σ.sign i = .zro ∨ σ.sign i = .pos ∨ (σ.sign i = .neg ∧ 0 < (σ.mag i).count))
    {k : Nat} (hn : Near i (σ.widen i otherlen) σ₁)
    (hsame : (σ₁.limbs i).getD k 0 = ((σ.widen i otherlen).limbs i).getD k 0) :
    (σ₁.getU32 i k).1 = Num.u32At
      ⟨σ.sign i, σ.shown i (max (σ.mag i).count otherlen + 1)⟩ (σ.index i) k := by
  have hw := widen_spec h hi otherlen
  have hi₁ : i < (σ.widen i otherlen).live := by rw [hw.live]; exact hi
  have hi₂ : i < σ₁.live := by rw [hn.live]; exact hi₁
  have hsgn : σ₁.sign i = σ.sign i := hn.sign.trans hw.sign
  have hnum : σ₁.num i = ⟨σ.sign i, σ₁.limbs i⟩ := by rw [num, hsgn]
  rw [getU32_fst hn.wf hi₂, hnum]
  apply Num.u32At_congr
  · rw [← hw.limbs, hn.wf.length_limbs hi₂, hw.keeps.good.wf.length_limbs hi₁, hn.count]
  · rw [hsame, hw.limbs]
  · rcases hsign with hs | hs | ⟨hs, hpos⟩
    · exact Or.inl (by rw [hs]; rfl)
    · exact Or.inr (Or.inl (by rw [hs]; rfl))
    · obtain ⟨hc, hx⟩ := hw.cached hs hpos
      exact Or.inr (Or.inr ((hn.cached hc).2.trans hx))

theorem getU32_other (h : σ.Wf) (hi : i < σ.live) (hj : j < σ.live) (hji : j ≠ i) (k : Nat)
    (hn : Near i (σ.widen i otherlen) σ₁) :
    (σ₁.getU32 j k).1 = (σ.num j).u32At (σ.index j) k := by
  have hw := widen_spec h hi otherlen
  have hj₁ : j < (σ.widen i otherlen).live := by rw [hw.live]; exact hj
  rw [getU32_fst hn.wf (by rw [hn.live]; exact hj₁), hn.num j hj₁ hji, hn.index j hj₁ hji,
    hw.keeps.num j hj hji, hw.index j hj hji]

end values

/-- The elements of the vector from `m_hi` up to `m_lo + n` are zero. -/
def HiddenZero (σ : Store) (i n : Nat) : Prop :=
  ∀ k, (σ.obj i).hi ≤ k → k < (σ.obj i).lo + n → (σ.vec (σ.obj i).data).getD k 0 = 0

/-- A window of `n` limbs would show no more than the number: it is zero, or the vector will be
copied first, or what it keeps is zero. -/
def Unspoiled (σ : Store) (i n : Nat) : Prop :=
  σ.isZero i = true ∨ σ.useCount i ≠ 1 ∨ σ.HiddenZero i n

theorem resize_eq_zeros {l : List UInt32} {m : Nat} (h : ∀ k < m, l.getD k 0 = 0) :
    Slice.resize l m = List.replicate m 0 := by
  have htake : l.take m = List.replicate (min m l.length) 0 := by
    refine List.eq_replicate_iff.mpr ⟨List.length_take, fun x hx => ?_⟩
    obtain ⟨k, hk, rfl⟩ := List.getElem_of_mem hx
    rw [List.length_take] at hk
    have h0 := h k (by omega)
    rw [List.getD_eq_getElem?_getD, List.getElem?_eq_getElem (by omega)] at h0
    rw [List.getElem_take]
    exact h0
  rw [Slice.resize, htake, show (default : UInt32) = 0 from rfl, List.replicate_append_replicate]
  congr 1
  omega

theorem shown_eq (h : σ.Wf) (hi : i < σ.live) (hn : (σ.mag i).count ≤ n)
    (hu : σ.useCount i ≠ 1 ∨ σ.HiddenZero i n) :
    σ.shown i n = σ.limbs i ++ List.replicate (n - (σ.mag i).count) 0 := by
  have hwf := mag_cloneData_wf h hi
  have hcount := count_cloneData h hi
  rw [shown, Slice.toList_slice_widen hwf (by rwa [hcount]), ← limbs_eq, limbs_cloneData_self,
    hcount]
  congr 1
  apply resize_eq_zeros
  intro k hk
  unfold cloneData
  by_cases hone : σ.useCount i = 1
  · rw [if_pos hone]
    have hlo := (h i hi).1.1
    have hz := (hu.resolve_left fun hne => hne hone) ((σ.obj i).hi + k) (by omega) (by
      unfold Slice.count at hk
      simp only [mag] at hk hlo ⊢
      omega)
    rw [List.getD_eq_getElem?_getD, List.getElem?_drop]
    rw [List.getD_eq_getElem?_getD] at hz
    exact hz
  · rw [if_neg hone, mag_newMag_self]
    have hnil : (σ.mag i).clone.data.drop (σ.mag i).clone.hi = [] := by
      apply List.drop_eq_nil_of_le
      simp only [Slice.clone, List.length_cons]
      omega
    rw [hnil]
    rfl

theorem shown_exact (h : σ.Wf) (hi : i < σ.live) (hx : (σ.num i).Canon) (hc : σ.CacheOk i)
    (hn : (σ.mag i).count ≤ n) (hu : σ.Unspoiled i n) (k : Nat) :
    Num.u32At ⟨σ.sign i, σ.shown i n⟩ (σ.index i) k = limbAt (σ.num i).toInt k := by
  by_cases h0 : σ.isZero i = true
  · have hval : (σ.num i).toInt = 0 := by
      have hz : (σ.num i).sign.zero = true := h0
      rw [hx.eq_ofInt, Num.ofInt_zero_iff] at hz
      exact hz
    rw [hval, limbAt_eq_zero_of_zero, Num.u32At]
    exact if_pos h0
  have hne : σ.limbs i ≠ [] := fun he => h0 (by
    have hz := hx.zero_iff.mpr he
    rw [num_sign] at hz
    rw [isZero, hz])
  have hmag : PGBigNumber.mag (σ.limbs i) ≠ 0 := Nat.ne_of_gt (hx.trimmed.mag_pos hne)
  rw [shown_eq h hi hn (hu.resolve_left h0), hc.index_eq hne]
  set zeros := List.replicate (n - (σ.mag i).count) (0 : UInt32)
  have hmz : PGBigNumber.mag (σ.limbs i ++ zeros) = PGBigNumber.mag (σ.limbs i) := by
    rw [mag_append, mag_replicate_zero, Nat.mul_zero, Nat.add_zero]
  have hco : Num.Coherent ⟨σ.sign i, σ.limbs i ++ zeros⟩ :=
    ⟨hx.one_sign, fun _ => by rw [hmz]; exact hmag⟩
  have hval : Num.toInt ⟨σ.sign i, σ.limbs i ++ zeros⟩ = (σ.num i).toInt := by
    rw [Num.toInt, Num.toInt, hmz]
    rfl
  rw [← firstNz_append_zeros hmag, ← hval]
  exact Num.u32At_eq hco k

theorem sign_cases (h : σ.Wf) (hi : i < σ.live) (hx : (σ.num i).Canon) :
    σ.sign i = .zro ∨ σ.sign i = .pos ∨ (σ.sign i = .neg ∧ 0 < (σ.mag i).count) := by
  rcases hx.one_sign with hs | hs | hs
  · exact Or.inl hs
  · exact Or.inr (Or.inl hs)
  · refine Or.inr (Or.inr ⟨hs, ?_⟩)
    rw [← h.length_limbs hi, List.length_pos_iff]
    intro he
    have hz := hx.zero_iff.mpr he
    rw [hs] at hz
    exact absurd hz (by decide)

section bitwise

variable {op : UInt32 → UInt32 → UInt32} {iop : Int → Int → Int}
  {getU32Index : Store → Nat → UInt32 × Store} {other : Nat → UInt32} {k : Int}

theorem bitwise_caches (hg : ∀ {σ : Store} k, Caches σ (getU32Index σ k).2) {σ : Store} (k : Nat) :
    Caches σ (bitwiseLimb op i getU32Index σ k).2 :=
  getU32_caches.trans (hg k)

theorem bitwise_reads (h : σ.Wf) (hi : i < σ.live)
    (hsign : σ.sign i = .zro ∨ σ.sign i = .pos ∨ (σ.sign i = .neg ∧ 0 < (σ.mag i).count))
    (hother : σ.ReadsAs i otherlen getU32Index other) :
    σ.ReadsAs i otherlen (bitwiseLimb op i getU32Index) fun k =>
      op (Num.u32At ⟨σ.sign i, σ.shown i (max (σ.mag i).count otherlen + 1)⟩ (σ.index i) k)
        (other k) := by
  intro σ₁ k hn hk hsame
  have hread : Caches σ₁ (σ₁.getU32 i k).2 := getU32_caches
  have hy := hother _ k (hn.trans (.of_caches hread hn.wf hn.sole)) hk (by rw [hread.limbs, hsame])
  change op (σ₁.getU32 i k).1 (getU32Index (σ₁.getU32 i k).2 k).1 = _
  rw [getU32_self h hi hsign hn hsame, hy]

theorem bitwise_canon (hg : ∀ {σ : Store} k, Caches σ (getU32Index σ k).2) (h : σ.Wf)
    (hi : i < σ.live) (hx : (σ.num i).Canon)
    (hop : ∀ y, y = 0 ∨ y = 0xffffffff → op 0 y = 0 ∨ op 0 y = 0xffffffff)
    (hother : σ.ReadsAs i otherlen getU32Index other)
    (htop : σ.sign i = .zro → other (max (σ.mag i).count otherlen) = 0 ∨
      other (max (σ.mag i).count otherlen) = 0xffffffff) :
    ((σ.bitwise op i otherlen getU32Index).num i).Canon := by
  have hsign := sign_cases h hi hx
  rw [bitwise, rewriteTwos_num (bitwise_caches hg) h hi (bitwise_reads h hi hsign hother)]
  apply Num.decodeTwos_canon
  · simp [List.range_succ]
  · rw [List.range_succ, List.map_append, List.map_singleton, List.getLastD_concat]
    rcases hsign with hs | hs | ⟨hs, -⟩
    · have hzero : Num.u32At ⟨σ.sign i, σ.shown i (max (σ.mag i).count otherlen + 1)⟩ (σ.index i)
          (max (σ.mag i).count otherlen) = 0 := by
        rw [hs, Num.u32At_zro]
      rw [hzero]
      exact Or.inr (Or.inr (hop _ (htop hs)))
    · exact Or.inl hs
    · exact Or.inr (Or.inl hs)

/-- The result is the bitwise operation on the integers, where nothing stale is seen. -/
theorem bitwise_puts (hg : ∀ {σ : Store} k, Caches σ (getU32Index σ k).2) (h : σ.Wf)
    (hi : i < σ.live) (hx : (σ.num i).Canon) (hc : σ.CacheOk i)
    (hu : σ.Unspoiled i (max (σ.mag i).count otherlen + 1))
    (hop : ∀ u v k, op (limbAt u k) (limbAt v k) = limbAt (iop u v) k)
    (hfits : ∀ {n u v}, TwosComplement.Fits n u → TwosComplement.Fits n v →
      TwosComplement.Fits n (iop u v))
    {v : Int} (hv : TwosComplement.Fits (32 * otherlen) v)
    (hother : σ.ReadsAs i otherlen getU32Index other)
    (hlimb : ∀ k ≤ max (σ.mag i).count otherlen, other k = limbAt v k) :
    Puts σ i R (Num.ofInt (iop (σ.num i).toInt v)) (σ.bitwise op i otherlen getU32Index) := by
  set len := max (σ.mag i).count otherlen
  have hsign := sign_cases h hi hx
  have hfx : TwosComplement.Fits (32 * len) (σ.num i).toInt := by
    apply hx.fits.mono
    rw [num_limbs, h.length_limbs hi]
    omega
  have hfit := hfits hfx (hv.mono (by omega : 32 * otherlen ≤ 32 * len))
  have hval : ∀ k ≤ len, op (Num.u32At ⟨σ.sign i, σ.shown i (len + 1)⟩ (σ.index i) k) (other k) =
      limbAt (iop (σ.num i).toInt v) k := by
    intro k hk
    rw [shown_exact h hi hx hc (by omega) hu, hlimb k hk, hop]
  have htop : limbAt (iop (σ.num i).toInt v) len = 0 ∨
      limbAt (iop (σ.num i).toInt v) len = 0xffffffff := by
    rw [limbAt_of_fits hfit]
    split
    · exact Or.inr rfl
    · exact Or.inl rfl
  have hcaches : ∀ {σ : Store} k, Caches σ (bitwiseLimb op i getU32Index σ k).2 :=
    bitwise_caches hg
  have hputs := rewriteTwos_puts (R := R) hcaches h hi (bitwise_reads h hi hsign hother)
    (by rwa [hval len (Nat.le_refl _)])
  refine hputs.of_num (hputs.num.trans ?_)
  have hlimbs : (List.range (len + 1)).map (fun k =>
      op (Num.u32At ⟨σ.sign i, σ.shown i (len + 1)⟩ (σ.index i) k) (other k)) =
      twosLimbs (iop (σ.num i).toInt v) (len + 1) :=
    List.map_congr_left fun k hk => hval k (by
      have := List.mem_range.mp hk
      omega)
  rw [hlimbs, Num.decodeTwos_twosLimbs hfit]

end bitwise

section overloads

variable {op : UInt32 → UInt32 → UInt32} {iop : Int → Int → Int} {k : Int}

theorem bitwiseWithOther_keeps (op : UInt32 → UInt32 → UInt32) (j : Nat) (h : σ.Wf)
    (hi : i < σ.live) : (σ.bitwiseWithOther op i j).live = σ.live ∧
      Keeps σ.live (· = i) σ (σ.bitwiseWithOther op i j) :=
  rewriteTwos_keeps _ (bitwise_caches fun _ => getU32_caches) h hi

theorem bitwiseWithI64_keeps (op : UInt32 → UInt32 → UInt32) (k : Int) (h : σ.Wf)
    (hi : i < σ.live) : (σ.bitwiseWithI64 op i k).live = σ.live ∧
      Keeps σ.live (· = i) σ (σ.bitwiseWithI64 op i k) :=
  rewriteTwos_keeps _ (bitwise_caches fun _ => .refl _) h hi

theorem other_reads (h : σ.Wf) (hi : i < σ.live) (hj : j < σ.live)
    (hsign : σ.sign i = .zro ∨ σ.sign i = .pos ∨ (σ.sign i = .neg ∧ 0 < (σ.mag i).count)) :
    σ.ReadsAs i otherlen (fun σ k => σ.getU32 j k) fun k =>
      if j = i then Num.u32At ⟨σ.sign i, σ.shown i (max (σ.mag i).count otherlen + 1)⟩ (σ.index i) k
      else (σ.num j).u32At (σ.index j) k := by
  intro σ₁ k hn hk hsame
  dsimp only
  by_cases hji : j = i
  · rw [if_pos hji, hji]
    exact getU32_self h hi hsign hn hsame
  · rw [if_neg hji]
    exact getU32_other h hi hj hji k hn

theorem bitwiseWithOther_canon (h : σ.Wf) (hi : i < σ.live) (hj : j < σ.live)
    (hx : (σ.num i).Canon)
    (hop : ∀ y, y = 0 ∨ y = 0xffffffff → op 0 y = 0 ∨ op 0 y = 0xffffffff) :
    ((σ.bitwiseWithOther op i j).num i).Canon := by
  refine bitwise_canon (fun _ => getU32_caches) h hi hx hop
    (other_reads h hi hj (sign_cases h hi hx)) fun hs => ?_
  split
  · exact Or.inl (hs ▸ Num.u32At_zro _ _ _)
  · have hlen := h.length_limbs hj
    unfold Num.u32At
    rw [num_limbs, hlen]
    by_cases h0 : (σ.num j).sign.zero = true
    · exact Or.inl (if_pos h0)
    · rw [if_neg h0, if_pos (by omega)]
      split
      · exact Or.inr rfl
      · exact Or.inl rfl

theorem bitwiseWithOther_puts (h : σ.Wf) (hi : i < σ.live) (hj : j < σ.live)
    (hx : (σ.num i).Canon) (hy : (σ.num j).Canon) (hcx : σ.CacheOk i) (hcy : σ.CacheOk j)
    (hu : σ.Unspoiled i (max (σ.mag i).count (σ.mag j).count + 1))
    (hop : ∀ u v k, op (limbAt u k) (limbAt v k) = limbAt (iop u v) k)
    (hfits : ∀ {n u v}, TwosComplement.Fits n u → TwosComplement.Fits n v →
      TwosComplement.Fits n (iop u v)) :
    Puts σ i R (Num.ofInt (iop (σ.num i).toInt (σ.num j).toInt)) (σ.bitwiseWithOther op i j) := by
  have hfy := hy.fits
  rw [num_limbs, h.length_limbs hj] at hfy
  refine bitwise_puts (fun _ => getU32_caches) h hi hx hcx hu hop hfits hfy
    (other_reads h hi hj (sign_cases h hi hx)) fun k _ => ?_
  split
  next hji => rw [shown_exact h hi hx hcx (by omega) hu, hji]
  next => rw [hcy.u32At_index, Num.u32At_eq hy.coherent]

theorem getU32OfI64ByIndex_eq (hk : Num.InI64 k) (n : Nat) :
    getU32OfI64ByIndex k n = limbAt k n := by
  obtain ⟨hlo, hhi⟩ := hk
  have hcast : ((2 ^ 32 : Nat) : Int) = 2 ^ 32 := rfl
  unfold getU32OfI64ByIndex
  by_cases h0 : k = 0
  · rw [if_pos h0, h0, limbAt_eq_zero_of_zero]
  rw [if_neg h0]
  by_cases hn : n ≥ 2
  · have hpow : (2 : Int) ^ 64 ≤ 2 ^ (32 * n) := by
      exact_mod_cast Nat.pow_le_pow_right (by decide) (by omega)
    rw [if_pos hn, limbAt_of_fits ⟨by omega, by omega⟩]
  · rw [if_neg hn, limbAt, TwosComplement.digit, hcast, Nat.mul_comm n 32, pow_mul]

private theorem readsAs_i64 (σ : Store) (i : Nat) (k : Int) :
    σ.ReadsAs i 2 (fun σ n => (getU32OfI64ByIndex k n, σ)) (getU32OfI64ByIndex k) :=
  fun _ _ _ _ _ => rfl

theorem bitwiseWithI64_canon (h : σ.Wf) (hi : i < σ.live) (hx : (σ.num i).Canon)
    (hop : ∀ y, y = 0 ∨ y = 0xffffffff → op 0 y = 0 ∨ op 0 y = 0xffffffff) :
    ((σ.bitwiseWithI64 op i k).num i).Canon := by
  apply bitwise_canon (fun _ => .refl _) h hi hx hop (readsAs_i64 σ i k)
  intro _
  unfold getU32OfI64ByIndex
  split
  · exact Or.inl rfl
  · rw [if_pos (Nat.le_max_right _ _)]
    split
    · exact Or.inr rfl
    · exact Or.inl rfl

theorem bitwiseWithI64_puts (h : σ.Wf) (hi : i < σ.live) (hx : (σ.num i).Canon)
    (hcx : σ.CacheOk i) (hk : Num.InI64 k) (hu : σ.Unspoiled i (max (σ.mag i).count 2 + 1))
    (hop : ∀ u v k, op (limbAt u k) (limbAt v k) = limbAt (iop u v) k)
    (hfits : ∀ {n u v}, TwosComplement.Fits n u → TwosComplement.Fits n v →
      TwosComplement.Fits n (iop u v)) :
    Puts σ i R (Num.ofInt (iop (σ.num i).toInt k)) (σ.bitwiseWithI64 op i k) := by
  obtain ⟨hlo, hhi⟩ := hk
  exact bitwise_puts (fun _ => .refl _) h hi hx hcx hu hop hfits (v := k) ⟨by omega, by omega⟩
    (readsAs_i64 σ i k)
    fun n _ => getU32OfI64ByIndex_eq ⟨hlo, hhi⟩ n

end overloads

theorem notSelf_caches {σ : Store} (k : Nat) :
    Caches σ (notLimb i σ k).2 :=
  getU32_caches

theorem notSelf_keeps (h : σ.Wf) (hi : i < σ.live) :
    (σ.notSelf i).live = σ.live ∧ Keeps σ.live (· = i) σ (σ.notSelf i) :=
  rewriteTwos_keeps _ notSelf_caches h hi

private theorem notSelf_reads (h : σ.Wf) (hi : i < σ.live) (hx : (σ.num i).Canon) :
    σ.ReadsAs i 0 (notLimb i) fun k =>
      ~~~Num.u32At ⟨σ.sign i, σ.shown i (max (σ.mag i).count 0 + 1)⟩ (σ.index i) k := by
  intro σ₁ k hn hk hsame
  change ~~~(σ₁.getU32 i k).1 = _
  rw [getU32_self h hi (sign_cases h hi hx) hn hsame]

theorem notSelf_canon (h : σ.Wf) (hi : i < σ.live) (hx : (σ.num i).Canon) :
    ((σ.notSelf i).num i).Canon := by
  rw [notSelf, rewriteTwos_num notSelf_caches h hi (notSelf_reads h hi hx)]
  apply Num.decodeTwos_canon
  · simp [List.range_succ]
  · rcases sign_cases h hi hx with hs | hs | ⟨hs, -⟩
    · refine Or.inr (Or.inr (Or.inr ?_))
      rw [List.range_succ, List.map_append, List.map_singleton, List.getLastD_concat, hs,
        Num.u32At_zro]
      rfl
    · exact Or.inl hs
    · exact Or.inr (Or.inl hs)

theorem notSelf_puts (h : σ.Wf) (hi : i < σ.live) (hx : (σ.num i).Canon) (hc : σ.CacheOk i)
    (hu : σ.Unspoiled i ((σ.mag i).count + 1)) :
    Puts σ i R (Num.ofInt (-(σ.num i).toInt - 1)) (σ.notSelf i) := by
  have hmax : max (σ.mag i).count 0 = (σ.mag i).count := Nat.max_zero _
  have hfx := hx.fits.not
  rw [num_limbs, h.length_limbs hi] at hfx
  have hval : ∀ k, ~~~Num.u32At ⟨σ.sign i, σ.shown i (max (σ.mag i).count 0 + 1)⟩ (σ.index i) k =
      limbAt (-(σ.num i).toInt - 1) k := by
    intro k
    rw [hmax, shown_exact h hi hx hc (Nat.le_succ _) hu, limbAt_not]
  have hputs := rewriteTwos_puts (R := R) notSelf_caches h hi (notSelf_reads h hi hx) (by
    rw [hval, hmax, limbAt_of_fits hfx]
    split
    · exact Or.inr rfl
    · exact Or.inl rfl)
  refine hputs.of_num (hputs.num.trans ?_)
  rw [List.map_congr_left fun k _ => hval k, hmax]
  exact Num.decodeTwos_twosLimbs hfx _

theorem notBits_puts (h : σ.Wf) (hi : i < σ.live) (hrun : σ.notBits i = some σ₁) :
    Puts σ i (· = i)
      (if σ.isZero i then σ.num i else ⟨σ.sign i, notBitsLimbs (σ.limbs i)⟩) σ₁ := by
  unfold notBits at hrun
  by_cases h0 : σ.isZero i = true
  · rw [if_pos h0] at hrun ⊢
    exact Option.some.inj hrun ▸ .refl h rfl
  rw [if_neg h0] at hrun ⊢
  dsimp only at hrun
  rw [toList_ready] at hrun
  by_cases htop : (σ.limbs i).getLastD 0 = 0
  · rw [if_pos htop] at hrun
    exact absurd hrun (by simp)
  rw [if_neg htop] at hrun
  have hwf := ready_wf h hi
  have hne : σ.limbs i ≠ [] := fun he => htop (by rw [he]; rfl)
  have hlen : (notBitsLimbs (σ.limbs i)).length = (((σ.beginWrite i).cloneData i).mag i).count := by
    have hpos := List.length_pos_iff.mpr hne
    rw [← Slice.length_toList hwf, toList_ready, notBitsLimbs, List.length_append, List.length_map,
      List.length_dropLast, List.length_singleton]
    omega
  have hw := Puts.write (R := (· = i)) h hi
    (Slice.assign_wf hwf (notBitsLimbs (σ.limbs i)))
  rw [Slice.toList_assign hwf hlen] at hw
  exact Option.some.inj hrun ▸ hw

private theorem top_ne_zero (hx : (σ.num i).Canon) (h0 : ¬ σ.isZero i = true) :
    (σ.limbs i).getLastD 0 ≠ 0 := by
  have hne : σ.limbs i ≠ [] := fun he => h0 (hx.zero_iff.mpr he)
  rw [List.getLastD_eq_getLast?, List.getLast?_eq_getLast_of_ne_nil hne]
  exact fun he => hx.trimmed.getLast_ne hne (congrArg UInt32.toNat he)

theorem notBits_isSome (hx : (σ.num i).Canon) : ∃ σ₁, σ.notBits i = some σ₁ := by
  unfold notBits
  by_cases h0 : σ.isZero i = true
  · exact ⟨σ, if_pos h0⟩
  rw [if_neg h0]
  dsimp only
  rw [toList_ready]
  exact ⟨_, if_neg (top_ne_zero hx h0)⟩

/-- `notBits` leaves a canonical number canonical unless the bits of the top limb are all ones. -/
theorem notBits_canon_iff (h : σ.Wf) (hi : i < σ.live) (hx : (σ.num i).Canon)
    (hrun : σ.notBits i = some σ₁) :
    (σ₁.num i).Canon ↔
      σ.isZero i = true ∨ ∀ k, ((σ.limbs i).getLastD 0).toNat + 1 ≠ 2 ^ k := by
  have hputs := notBits_puts h hi hrun
  by_cases h0 : σ.isZero i = true
  · rw [hputs.num, if_pos h0]
    exact ⟨fun _ => Or.inl h0, fun _ => hx⟩
  rw [hputs.num, if_neg h0, or_iff_right h0, ← not_exists,
    ← notBelowTop_eq_zero_iff (top_ne_zero hx h0)]
  have hsign : σ.sign i = .pos ∨ σ.sign i = .neg := by
    rcases hx.one_sign with hs | hs | hs
    · exact absurd (congrArg Sign.zero hs) h0
    · exact Or.inl hs
    · exact Or.inr hs
  have hlist : notBitsLimbs (σ.limbs i) ≠ [] := by simp [notBitsLimbs]
  constructor
  · intro hc htop
    refine hc.trimmed ?_
    rw [notBitsLimbs, htop, List.getLast?_concat]
  · intro htop
    have htrim : Trimmed (notBitsLimbs (σ.limbs i)) := trimmed_concat htop
    rcases hsign with hs | hs <;> rw [hs]
    · rw [Num.pos_eq_ofInt hlist htrim]
      exact Num.ofInt_canon _
    · rw [Num.neg_eq_ofInt hlist htrim]
      exact Num.ofInt_canon _

/-- `x` has the magnitude of `v` with the bits up to its leading one turned over. -/
structure Complemented (v : Int) (x : Num) : Prop where
  number : ∃ w : Int, x = Num.ofInt w ∧ (w = 0 ∨ w.sign = v.sign) ∧
    w.natAbs = 2 ^ v.natAbs.size - 1 - v.natAbs
  allOnes : v.natAbs + PGBigNumber.mag x.limbs = 2 ^ v.natAbs.size - 1
  isZero_iff : x.sign.zero = true ↔ v.natAbs = 2 ^ v.natAbs.size - 1

private theorem Complemented.of_number {v w : Int} (hsign : w = 0 ∨ w.sign = v.sign)
    (hmag : w.natAbs + v.natAbs = 2 ^ v.natAbs.size - 1) : Complemented v (Num.ofInt w) := by
  refine ⟨⟨w, rfl, hsign, by omega⟩, ?_, ?_⟩
  · rw [Num.mag_ofInt]
    omega
  · rw [Num.zero_ofInt_iff]
    omega

private theorem isZero_ne_true (hx : (σ.num i).Canon) (h0 : (σ.num i).toInt ≠ 0) :
    ¬ σ.isZero i = true := by
  intro hz
  apply h0
  rw [← Num.zero_ofInt_iff, ← hx.eq_ofInt]
  exact hz

theorem notBits_mag (h : σ.Wf) (hi : i < σ.live) (hx : (σ.num i).Canon)
    (h0 : (σ.num i).toInt ≠ 0) (hrun : σ.notBits i = some σ₁) :
    σ₁.sign i = σ.sign i ∧
      PGBigNumber.mag (σ₁.limbs i) + (σ.num i).toInt.natAbs =
        2 ^ (σ.num i).toInt.natAbs.size - 1 := by
  have hputs := notBits_puts h hi hrun
  rw [if_neg (isZero_ne_true hx h0)] at hputs
  have hv := hx.eq_ofInt
  generalize (σ.num i).toInt = v at hv h0
  have hlimbs : σ.limbs i = (Num.ofInt v).limbs := congrArg Num.limbs hv
  have hmag := mag_notBitsLimbs (l := (Num.ofInt v).limbs) (Num.ofInt_canon v).trimmed
    (Num.limbs_ofInt_ne_nil h0)
  rw [Num.mag_ofInt, ← hlimbs] at hmag
  refine ⟨congrArg Num.sign hputs.num, ?_⟩
  rw [show σ₁.limbs i = notBitsLimbs (σ.limbs i) from congrArg Num.limbs hputs.num]
  exact hmag

/-- `notBits` is the complement of the magnitude exactly when the top limb is not all ones from its
leading one down. -/
theorem notBits_exact_iff (h : σ.Wf) (hi : i < σ.live) (hx : (σ.num i).Canon)
    (h0 : (σ.num i).toInt ≠ 0) :
    ∃ σ₁, σ.notBits i = some σ₁ ∧ (Complemented (σ.num i).toInt (σ₁.num i) ↔
      ∀ k, ((σ.limbs i).getLastD 0).toNat + 1 ≠ 2 ^ k) := by
  obtain ⟨σ₁, hrun⟩ := notBits_isSome hx
  refine ⟨σ₁, hrun, ?_⟩
  have hcanon : (σ₁.num i).Canon ↔ ∀ k, ((σ.limbs i).getLastD 0).toNat + 1 ≠ 2 ^ k := by
    rw [notBits_canon_iff h hi hx hrun, or_iff_right (isZero_ne_true hx h0)]
  rw [← hcanon]
  constructor
  · intro hcomp
    obtain ⟨w, hw, -⟩ := hcomp.number
    rw [hw]
    exact Num.ofInt_canon w
  · intro hc
    obtain ⟨hsign, hmag⟩ := notBits_mag h hi hx h0 hrun
    have hv := hx.eq_ofInt
    have hw := hc.eq_ofInt
    generalize (σ.num i).toInt = v at hv hmag
    generalize (σ₁.num i).toInt = w at hw
    have hsignum : w.sign = v.sign := by
      rw [← Num.signum_ofInt, ← Num.signum_ofInt, ← hv, ← hw, num_sign, num_sign, hsign]
    have hlimbs : PGBigNumber.mag (σ₁.limbs i) = w.natAbs := by
      rw [← Num.mag_ofInt w, ← hw, num_limbs]
    rw [hw]
    exact .of_number (Or.inr hsignum) (hlimbs ▸ hmag)

theorem notBits_exact_five : ∃ σ₁, (pair (-5) 3).notBits 0 = some σ₁ ∧
    Complemented (-5) (σ₁.num 0) := by
  obtain ⟨hwf, hlive, h0, -⟩ := pair_spec (-5) 3
  rw [Num.ofI64_eq (by decide) (by decide)] at h0
  obtain ⟨σ₁, hrun, hiff⟩ := notBits_exact_iff hwf (i := 0) (by omega) (h0 ▸ Num.ofInt_canon _)
    (by rw [h0, Num.toInt_ofInt]; decide)
  have hlimbs : (pair (-5) 3).limbs 0 = [5] := by
    rw [← num_limbs, h0]
    decide
  rw [h0, Num.toInt_ofInt, hlimbs] at hiff
  refine ⟨σ₁, hrun, hiff.mpr fun k hk => ?_⟩
  have hk' : (6 : Nat) = 2 ^ k := hk
  have hle : k < 3 := (Nat.pow_lt_pow_iff_right (a := 2) (by decide)).mp (by omega)
  interval_cases k <;> omega

/-- One is all ones, and its complement is left with a zero limb and the sign of one. -/
theorem notBits_one_not_complemented : ∃ σ₁, (pair 1 3).notBits 0 = some σ₁ ∧
    ¬ Complemented 1 (σ₁.num 0) ∧ σ₁.num 0 = ⟨.pos, [0]⟩ := by
  obtain ⟨hwf, hlive, h0, -⟩ := pair_spec 1 3
  rw [Num.ofI64_eq (by decide) (by decide)] at h0
  obtain ⟨σ₁, hrun⟩ := notBits_isSome (h0 ▸ Num.ofInt_canon _ : ((pair 1 3).num 0).Canon)
  have hputs := notBits_puts hwf (by omega) hrun
  have hzero : (pair 1 3).isZero 0 = false := congrArg (fun x => x.sign.zero) h0
  have hsign : (pair 1 3).sign 0 = .pos := congrArg Num.sign h0
  have hlimbs : (pair 1 3).limbs 0 = [1] := by
    rw [← num_limbs, h0]
    decide
  have hnum := hputs.num
  rw [hzero, if_neg (by decide), hsign, hlimbs] at hnum
  have hnum' : σ₁.num 0 = ⟨.pos, [0]⟩ := by
    rw [hnum]
    decide
  refine ⟨σ₁, hrun, fun hcomp => ?_, hnum'⟩
  have hfalse := hcomp.isZero_iff.mpr (by decide)
  rw [hnum'] at hfalse
  exact absurd hfalse (by decide)

end Store

end PGBigNumber
