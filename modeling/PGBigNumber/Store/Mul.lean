import PGBigNumber.Store.Int64

/-!
# Multiplication

`mul` and `mulKaratsuba` call each other; the recursion is bounded by a fuel argument, and the
number of limbs of the longer operand is always enough of it.
-/

namespace PGBigNumber

namespace Store

def karatsubaThreshold : Nat := 80

def mulAssignSmall (σ : Store) (i j : Nat) : Store :=
  let σ := σ.setSign i (if σ.sign i = σ.sign j then .pos else .neg)
  if (σ.mag j).count = 1 then
    let σ := σ.cloneData i
    σ.putMag i (gradSchoolMulInplace (σ.mag i) ((σ.mag j).get 0))
  else if (σ.mag i).count = 1 then
    let temp := (σ.mag i).get 0
    let σ := (σ.shareMag i j).cloneData i
    σ.putMag i (gradSchoolMulInplace (σ.mag i) temp)
  else
    let σ := σ.newMag i (gradeSchoolMul (σ.mag i) (σ.mag j))
    σ.putMag i (eraseZerosSuffix (σ.mag i))

/-- The one-limb and schoolbook paths of `mul`, which read the operands after `res` is written. -/
def mulSmall (σ : Store) (res a b : Nat) : Store :=
  if (σ.mag b).count = 1 then
    let σ := (σ.shareMag res a).cloneData res
    σ.putMag res (gradSchoolMulInplace (σ.mag res) ((σ.mag b).get 0))
  else if (σ.mag a).count = 1 then
    let σ := (σ.shareMag res b).cloneData res
    σ.putMag res (gradSchoolMulInplace (σ.mag res) ((σ.mag a).get 0))
  else
    let σ := σ.newMag res (gradeSchoolMul (σ.mag a) (σ.mag b))
    σ.putMag res (eraseZerosSuffix (σ.mag res))

/-- `BigIntegerImpl(m_mag.sliced(lo, hi), +1)`: a block is a window over the vector of `a`. -/
def pushBlock (σ : Store) (a lo hi : Nat) : Store :=
  let i := σ.live
  let o := σ.obj a
  let σ := σ.push ⟨.pos, false, o.data, o.lo, o.hi, 0⟩
  let σ := σ.putMag i ((σ.mag i).sliced lo hi)
  let σ := σ.putMag i (eraseZerosSuffix (σ.mag i))
  if (σ.mag i).count = 0 then σ.beZero i else σ

def pushZero (σ : Store) : Store := σ.pushDefault.beZero σ.live

/-- `split`: the full blocks, the rest, and zeros up to `n` blocks. -/
def split (σ : Store) (a n size : Nat) : Store :=
  let count := (σ.mag a).count
  let numFull := count / size
  let σ := (List.range numFull).foldl (fun σ i => σ.pushBlock a (i * size) ((i + 1) * size)) σ
  if count % size ≠ 0 then
    let σ := σ.pushBlock a (numFull * size) count
    (List.range (n - (numFull + 1))).foldl (fun σ _ => σ.pushZero) σ
  else (List.range (n - numFull)).foldl (fun σ _ => σ.pushZero) σ

def halfOf (σ : Store) (a b : Nat) : Nat := (max (σ.mag a).count (σ.mag b).count + 1) / 2

/-- The start of `mulKaratsuba`: the operands are split and `res` is cloned. -/
def karatsubaBlocks (σ : Store) (res a b half : Nat) : Store :=
  (((σ.split a 2 half).split b 2 half).beginWrite res).cloneData res

/-- The three half products of `mulKaratsuba`; the locals `al ah bl bh p2 p3` stand from `n` on. -/
def karatsubaProducts (mul : Store → Nat → Nat → Nat → Option Store) (σ : Store) (res n : Nat) :
    Option Store := do
  let σ ← mul σ res (n + 1) (n + 3)
  let σ ← mul σ.pushDefault (n + 4) n (n + 2)
  let σ := (σ.pushDefault.addAssign (n + 1) n).addAssign (n + 3) (n + 2)
  mul σ (n + 5) (n + 1) (n + 3)

/-- `mulKaratsuba` from `p3.subAssign(res)` to `res.addAssign(p2)`. -/
def karatsubaCombine (σ : Store) (res n half : Nat) : Option Store := do
  let σ := (σ.subAssign (n + 5) res).subAssign (n + 5) (n + 4)
  let σ ← σ.shiftLeftAssign res (32 * half)
  let σ := σ.addAssign res (n + 5)
  let σ ← σ.shiftLeftAssign res (32 * half)
  some (σ.addAssign res (n + 4))

def mulKaratsuba (mul : Store → Nat → Nat → Nat → Option Store) (σ : Store) (res a b : Nat) :
    Option Store := do
  let half := σ.halfOf a b
  let n := σ.live
  let σ ← karatsubaProducts mul (σ.karatsubaBlocks res a b half) res n
  let σ ← σ.karatsubaCombine res n half
  some ((σ.setSign res (if σ.sign a = σ.sign b then .pos else .neg)).popTo n)

def mulWith (karatsuba : Store → Nat → Nat → Nat → Option Store) (σ : Store) (res a b : Nat) :
    Option Store :=
  if σ.isZero a || σ.isZero b then some (σ.beZero res)
  else if (σ.num a).isOne then some (σ.assign res b)
  else if (σ.num a).isNegOne then some ((σ.assign res b).negate res)
  else if (σ.num b).isOne then some (σ.assign res a)
  else if (σ.num b).isNegOne then some ((σ.assign res a).negate res)
  else
    let σ := σ.beginWrite res
    let σ := σ.setSign res (if σ.sign a = σ.sign b then .pos else .neg)
    if (σ.mag a).count < karatsubaThreshold ∨ (σ.mag b).count < karatsubaThreshold then
      some (σ.mulSmall res a b)
    else karatsuba σ res a b

/-- `mul`, to a depth of `fuel` nested calls of `mulKaratsuba`. -/
def mulFuel : Nat → Store → Nat → Nat → Nat → Option Store
  | 0 => mulWith fun _ _ _ _ => none
  | fuel + 1 => mulWith (mulKaratsuba (mulFuel fuel))

def mulAssignFuel (fuel : Nat) (σ : Store) (i j : Nat) : Option Store :=
  if σ.isZero i || σ.isZero j then some (σ.beZero i)
  else if (σ.num j).isOne then some σ
  else if (σ.num j).isNegOne then some (σ.negate i)
  else if (σ.num i).isOne then some (σ.assign i j)
  else if (σ.num i).isNegOne then some ((σ.assign i j).negate i)
  else
    let σ := σ.beginWrite i
    if (σ.mag i).count < karatsubaThreshold ∨ (σ.mag j).count < karatsubaThreshold then
      some (σ.mulAssignSmall i j)
    else do
      let res := σ.live
      let σ ← mulKaratsuba (mulFuel fuel) σ.pushDefault res i j
      some ((σ.assign i res).popTo res)

def mul (σ : Store) (res a b : Nat) : Option Store :=
  mulFuel (max (σ.mag a).count (σ.mag b).count) σ res a b

def mulAssign (σ : Store) (i j : Nat) : Option Store :=
  mulAssignFuel (max (σ.mag i).count (σ.mag j).count) σ i j

def mulAssignI64 (σ : Store) (i : Nat) (k : Int) : Option Store :=
  ((σ.pushI64 k).mulAssign i σ.live).map (·.popTo σ.live)

variable {σ σ₁ σ₂ : Store} {i j : Nat} {R Q : Nat → Prop} {x y : Num}

private theorem share_write (h : σ.Wf) (hi : i < σ.live) (hj : j < σ.live)
    (hcache : (σ.obj i).calcued = false) (c : UInt32) :
    Puts σ i R ⟨σ.sign i, mulLimb (σ.limbs j) c⟩
      (((σ.shareMag i j).cloneData i).putMag i
        (gradSchoolMulInplace (((σ.shareMag i j).cloneData i).mag i) c)) := by
  have hshare : Puts σ i R ⟨σ.sign i, σ.limbs j⟩ (σ.shareMag i j) := by
    refine .of_keeps live_shareMag (Keeps.shareMag (S := (· = i)) h.good rfl hj) ?_ (by simpa)
    rw [num_eq, sign_shareMag, mag_shareMag_self]
    rfl
  have hwf := mag_cloneData_wf hshare.wf (i := i) hi
  have hlist : (gradSchoolMulInplace (((σ.shareMag i j).cloneData i).mag i) c).toList =
      mulLimb (σ.limbs j) c := by
    rw [toList_gradSchoolMulInplace hwf, ← limbs_eq, limbs_cloneData_self, limbs_eq,
      mag_shareMag_self]
    rfl
  have hw := Puts.cloneWrite (R := fun _ => False) hshare.wf hi
    (by rw [calcued_shareMag, hcache]) (gradSchoolMulInplace_wf hwf c)
  rw [hlist, sign_shareMag] at hw
  exact hshare.trans hw fun _ hf => hf.elim

private theorem schoolbook (h : σ.Wf) (hi : i < σ.live) {a b : Nat} (ha : a < σ.live)
    (hb : b < σ.live) (hcache : (σ.obj i).calcued = false) :
    Puts σ i R ⟨σ.sign i, trim (mulLimbs (σ.limbs a) (σ.limbs b))⟩
      ((σ.newMag i (gradeSchoolMul (σ.mag a) (σ.mag b))).putMag i
        (eraseZerosSuffix ((σ.newMag i (gradeSchoolMul (σ.mag a) (σ.mag b))).mag i))) := by
  have hn := Puts.newMag (R := R) h hcache (gradeSchoolMul_wf (σ.mag a) (σ.mag b))
  rw [toList_gradeSchoolMul (h a ha).1 (h b hb).1] at hn
  have he := Puts.erase (R := fun _ => False) hn.wf hi (by simpa)
  have hl := congrArg Num.limbs hn.num
  simp only [num_limbs] at hl
  rw [hl, sign_newMag] at he
  exact hn.trans he fun _ hf => hf.elim

theorem mulAssignSmall_puts (h : σ.Wf) (hi : i < σ.live) (hj : j < σ.live)
    (hcache : (σ.obj i).calcued = false) :
    Puts σ i R ⟨if σ.sign i = σ.sign j then .pos else .neg,
      Num.prodLimbs (σ.limbs i) (σ.limbs j)⟩ (σ.mulAssignSmall i j) := by
  unfold mulAssignSmall Num.prodLimbs
  set t : Sign := if σ.sign i = σ.sign j then .pos else .neg
  have hs : Puts σ i R ⟨t, σ.limbs i⟩ (σ.setSign i t) :=
    .of_keeps rfl (Keeps.setSign (S := (· = i)) h.good rfl t)
      (by rw [num_eq, sign_setSign_self, mag_setSign]; rfl) (by simpa)
  have hlimbs : ∀ k, (σ.setSign i t).limbs k = σ.limbs k := fun k => by
    rw [limbs_eq, mag_setSign]
    rfl
  have hcache' : ((σ.setSign i t).obj i).calcued = false := by simpa
  simp only [mag_setSign, h.length_limbs hi, h.length_limbs hj]
  by_cases hj1 : (σ.mag j).count = 1
  · rw [if_pos hj1, if_pos hj1]
    have hget : (((σ.setSign i t).cloneData i).mag j).get 0 = (σ.limbs j).getD 0 0 := by
      have hk := Keeps.cloneData (S := (· = i)) hs.wf.good rfl
      have hcount : (((σ.setSign i t).cloneData i).mag j).count = 1 := by
        rw [← hk.good.wf.length_limbs (by simpa), limbs_cloneData hs.wf hj, hlimbs,
          h.length_limbs hj, hj1]
      rw [get_zero hk.good.wf (by simpa) hcount, limbs_cloneData hs.wf hj, hlimbs]
    have hwf := mag_cloneData_wf hs.wf (i := i) hi
    have hw := Puts.cloneWrite (R := fun _ => False) hs.wf hi hcache'
      (gradSchoolMulInplace_wf hwf ((σ.limbs j).getD 0 0))
    rw [toList_gradSchoolMulInplace hwf, ← limbs_eq, limbs_cloneData_self, hlimbs,
      sign_setSign_self] at hw
    rw [hget]
    exact hs.trans hw fun _ hf => hf.elim
  rw [if_neg hj1, if_neg hj1]
  by_cases hi1 : (σ.mag i).count = 1
  · rw [if_pos hi1, if_pos hi1, get_zero h hi hi1]
    have hw := share_write (R := fun _ => False) hs.wf hi hj hcache' ((σ.limbs i).getD 0 0)
    rw [hlimbs, sign_setSign_self] at hw
    exact hs.trans hw fun _ hf => hf.elim
  · rw [if_neg hi1, if_neg hi1]
    have hw := schoolbook (R := fun _ => False) hs.wf hi hi hj hcache'
    rw [hlimbs, hlimbs, sign_setSign_self] at hw
    simp only [mag_setSign] at hw
    exact hs.trans hw fun _ hf => hf.elim

private theorem get_share (h : σ.Wf) {res j k : Nat} (hj : j < σ.live)
    (hk : k < σ.live) (hlj : σ.limbs j ≠ []) (hlk : σ.limbs k ≠ []) :
    (((σ.shareMag res j).cloneData res).mag k).get 0 =
      (if res = k then σ.limbs j else σ.limbs k).getD 0 0 := by
  have hshare : (σ.shareMag res j).Wf := (Keeps.shareMag (S := (· = res)) h.good rfl hj).good.wf
  have hclone : ((σ.shareMag res j).cloneData res).Wf :=
    (Keeps.cloneData (S := (· = res)) hshare.good rfl).good.wf
  have hlimbs : ((σ.shareMag res j).cloneData res).limbs k =
      if res = k then σ.limbs j else σ.limbs k := by
    rw [limbs_cloneData hshare (by simpa)]
    by_cases he : res = k
    · rw [if_pos he, ← he, limbs_eq, mag_shareMag_self]
      rfl
    · rw [if_neg he, limbs_eq, mag_shareMag_ne (Ne.symm he)]
      rfl
  have hne : ((σ.shareMag res j).cloneData res).limbs k ≠ [] := by
    rw [hlimbs]
    split
    · exact hlj
    · exact hlk
  have hcount := hclone.length_limbs (i := k) (by simpa)
  have hpos := List.length_pos_of_ne_nil hne
  rw [← hlimbs, limbs_eq]
  exact Slice.get_eq (hclone k (by simpa)).1 0 (by omega)

theorem mulSmall_puts (h : σ.Wf) {res a b : Nat} (hres : res < σ.live) (ha : a < σ.live)
    (hb : b < σ.live) (hcache : (σ.obj res).calcued = false) :
    ∃ l, Puts σ res R ⟨σ.sign res, l⟩ (σ.mulSmall res a b) ∧
      (σ.limbs a ≠ [] → σ.limbs b ≠ [] → l = Num.prodLimbsRead (σ.limbs a) (σ.limbs b)
        (if res = a then σ.limbs b else σ.limbs a)
        (if res = b then σ.limbs a else σ.limbs b)) := by
  unfold mulSmall Num.prodLimbsRead
  rw [h.length_limbs ha, h.length_limbs hb]
  by_cases hb1 : (σ.mag b).count = 1
  · simp only [if_pos hb1]
    refine ⟨_, share_write h hres ha hcache _, fun hla hlb => ?_⟩
    rw [get_share h ha hb hla hlb]
  by_cases ha1 : (σ.mag a).count = 1
  · simp only [if_neg hb1, if_pos ha1]
    refine ⟨_, share_write h hres hb hcache _, fun hla hlb => ?_⟩
    rw [get_share h hb ha hlb hla]
  · simp only [if_neg hb1, if_neg ha1]
    exact ⟨_, schoolbook h hres ha hb hcache, fun _ _ => rfl⟩

theorem Puts.narrow (h : σ.Wf) (hcache : (σ.obj i).calcued = false) {s : Slice UInt32}
    (hs : s.Wf) (hdata : s.data = (σ.mag i).data) :
    Puts σ i R ⟨σ.sign i, s.toList⟩ (σ.putMag i s) := by
  refine .of_keeps rfl (Keeps.putMag_data (S := (· = i)) h.good rfl hs hdata) ?_ (by simpa)
  rw [num_eq, mag_putMag_self, sign_putMag]

theorem ofInt_block (l : List UInt32) :
    (if trim l = [] then Num.zero else ⟨.pos, trim l⟩) = Num.ofInt (PGBigNumber.mag l) := by
  split
  next h =>
    rw [trim_eq_nil_iff] at h
    rw [h, Num.zero_eq_ofInt]
    rfl
  next h => rw [Num.pos_eq_ofInt h (trimmed_trim l), mag_trim]

theorem pushBlock_pushes (h : σ.Wf) {a lo hi : Nat} (ha : a < σ.live) (hlo : lo ≤ hi)
    (hhi : hi ≤ (σ.mag a).count) :
    Pushes σ R (Num.ofInt (PGBigNumber.mag (((σ.limbs a).take hi).drop lo)))
      (σ.pushBlock a lo hi) := by
  set σ₁ := σ.push ⟨.pos, false, (σ.obj a).data, (σ.obj a).lo, (σ.obj a).hi, 0⟩ with hσ₁
  have hcopy := (pushCopy_pushes (R := (· = a)) h ha rfl)
  have hobj : ∀ k, k ≠ σ.live → σ₁.obj k = (σ.pushCopy a).obj k := fun k hk => by
    simp [hσ₁, pushCopy, push, Function.update_of_ne hk]
  have hmag : ∀ k, σ₁.mag k = (σ.pushCopy a).mag k := fun k => by
    by_cases hk : k = σ.live
    · subst hk
      simp [hσ₁, pushCopy, push, mag]
    · rw [mag, mag, hobj k hk]
      rfl
  have hsign : σ₁.sign σ.live = .pos := by simp [hσ₁, push, sign]
  have hcal : (σ₁.obj σ.live).calcued = false := by simp [hσ₁, push]
  have hshow : σ₁.mag σ.live = σ.mag a := by
    rw [hmag]
    simp [mag, pushCopy, push]
  have hpush : Pushes σ R ⟨.pos, σ.limbs a⟩ σ₁ := by
    refine ⟨rfl, ⟨⟨fun k hk => ?_, Nat.le_succ _⟩, fun k hk _ => ?_, fun k hk _ hc => ?_⟩, ?_,
      fun _ => .of_not_calcued hcal⟩
    · rw [hmag]
      refine ⟨(hcopy.wf k hk).1, ?_⟩
      have hdata : (σ₁.obj k).data = ((σ.pushCopy a).obj k).data := by
        by_cases hkl : k = σ.live
        · subst hkl
          simp [hσ₁, pushCopy, push]
        · rw [hobj k hkl]
      rw [hdata]
      exact (hcopy.wf k hk).2
    · have hkl : k ≠ σ.live := by omega
      rw [← hcopy.num_old hk, num_eq, num_eq, hmag, sign, sign, hobj k hkl]
    · have hkl : k ≠ σ.live := by omega
      have := hcopy.keeps.cache k hk (fun hf => hf) hc
      unfold CacheOk at this ⊢
      rw [limbs_eq, hmag, hobj k hkl]
      exact this
    · rw [num_eq, hsign, hshow]
      rfl
  have hwf := (hpush.wf σ.live (by rw [hpush.live]; omega)).1
  have hcount : hi ≤ (σ₁.mag σ.live).count := by rwa [hshow]
  have hswf : ((σ₁.mag σ.live).slice lo hi).Wf := Slice.slice_wf hwf hlo
  have hn := Puts.narrow (R := fun _ => False) hpush.wf hcal hswf (Slice.slice_data hcount)
  have hlist : ((σ₁.mag σ.live).slice lo hi).toList = ((σ.limbs a).take hi).drop lo := by
    rw [Slice.toList_slice hwf hlo hcount, hshow]
    rfl
  rw [hlist, hsign] at hn
  set l := ((σ.limbs a).take hi).drop lo with hl
  set σ₂ := σ₁.putMag σ.live ((σ₁.mag σ.live).slice lo hi) with hσ₂
  have he := Puts.erase (i := σ.live) (R := fun _ => False) hn.wf
    (by rw [hn.live, hpush.live]; omega) (by rw [hσ₂]; simpa)
  have hnl := congrArg Num.limbs hn.num
  simp only [num_limbs] at hnl
  have hns := congrArg Num.sign hn.num
  simp only [num_sign] at hns
  rw [hnl, hns] at he
  rw [← ofInt_block]
  exact (hpush.puts hn fun _ hf => hf.elim).puts (he.zeroIfEmpty (by rw [hn.live, hpush.live]; omega))
    fun _ hf => hf.elim

theorem pushZero_pushes (h : σ.Wf) : Pushes σ R (Num.ofInt 0) σ.pushZero := by
  have hd := pushDefault_pushes (R := R) h
  rw [← Num.zero_eq_ofInt]
  exact hd.puts (Q := fun _ => False) (.beZero hd.wf) fun _ hf => hf.elim

structure PushesTwo (σ : Store) (x y : Num) (σ' : Store) : Prop where
  live : σ'.live = σ.live + 2
  keeps : Keeps σ.live (fun _ => False) σ σ'
  num₀ : σ'.num σ.live = x
  num₁ : σ'.num (σ.live + 1) = y
  cache₀ : σ'.CacheOk σ.live
  cache₁ : σ'.CacheOk (σ.live + 1)

theorem Pushes.two (h₁ : Pushes σ (fun _ => False) x σ₁) (h₂ : Pushes σ₁ (fun _ => False) y σ₂) :
    PushesTwo σ x y σ₂ := by
  have hlt : σ.live < σ₁.live := by rw [h₁.live]; omega
  refine ⟨by rw [h₂.live, h₁.live], ?_, ?_, ?_, ?_, ?_⟩
  · exact h₁.keeps.then fun _ => h₂.keeps.mono hlt.le fun _ _ hf => hf
  · rw [h₂.num_old hlt, h₁.num]
  · rw [← h₁.live, h₂.num]
  · exact h₂.keeps.cache σ.live hlt (fun hf => hf) (h₁.cache fun _ hf => hf.elim)
  · rw [← h₁.live]
    exact h₂.cache fun _ hf => hf.elim

/-- Split in two halves, of which the upper one may be short, and either may be zero. -/
theorem split_two (h : σ.Wf) {a half : Nat} (ha : a < σ.live) (h0 : 0 < half)
    (hle : (σ.mag a).count ≤ 2 * half) :
    PushesTwo σ (Num.ofInt (PGBigNumber.mag ((σ.limbs a).take half)))
      (Num.ofInt (PGBigNumber.mag ((σ.limbs a).drop half))) (σ.split a 2 half) := by
  have hlen := h.length_limbs ha
  unfold split
  rcases Nat.lt_trichotomy (σ.mag a).count half with hlt | heq | hgt
  · have hq : (σ.mag a).count / half = 0 := Nat.div_eq_of_lt hlt
    have hr : (σ.mag a).count % half = (σ.mag a).count := Nat.mod_eq_of_lt hlt
    have hdrop : (σ.limbs a).drop half = [] := List.drop_eq_nil_of_le (by omega)
    have htake : (σ.limbs a).take half = σ.limbs a := List.take_of_length_le (by omega)
    simp only [hq, hr, hdrop, htake, List.range_zero, List.foldl_nil]
    by_cases hz : (σ.mag a).count = 0
    · have hnil : σ.limbs a = [] := List.length_eq_zero_iff.mp (by omega)
      rw [if_neg (by simpa using hz), hnil]
      have h₁ := pushZero_pushes (R := fun _ => False) h
      exact h₁.two (pushZero_pushes h₁.wf)
    · rw [if_pos hz]
      have h₁ := pushBlock_pushes (R := fun _ => False) h (a := a) ha
        (Nat.zero_le (σ.mag a).count) (Nat.le_refl _)
      rw [List.drop_zero, List.take_of_length_le hlen.le] at h₁
      simp only [Nat.zero_mul]
      exact h₁.two (pushZero_pushes h₁.wf)
  · have hq : (σ.mag a).count / half = 1 := by rw [heq, Nat.div_self h0]
    have hr : (σ.mag a).count % half = 0 := by rw [heq, Nat.mod_self]
    have hdrop : (σ.limbs a).drop half = [] := List.drop_eq_nil_of_le (by omega)
    simp only [hq, hr, hdrop, List.range_one, List.foldl_cons, List.foldl_nil, ne_eq,
      not_true_eq_false, if_false, Nat.zero_mul, Nat.zero_add, Nat.one_mul]
    have h₁ := pushBlock_pushes (R := fun _ => False) h (a := a) ha (Nat.zero_le half) heq.ge
    rw [List.drop_zero] at h₁
    exact h₁.two (pushZero_pushes h₁.wf)
  · have h₁ := pushBlock_pushes (R := fun _ => False) h (a := a) ha (Nat.zero_le half) hgt.le
    rw [List.drop_zero] at h₁
    have ha₁ : a < (σ.pushBlock a 0 half).live := by rw [h₁.live]; omega
    have hlimbs : (σ.pushBlock a 0 half).limbs a = σ.limbs a := limbs_of_num (h₁.num_old ha)
    have hcount : ((σ.pushBlock a 0 half).mag a).count = (σ.mag a).count :=
      count_of_num (h₁.num_old ha) h₁.wf h ha₁ ha
    have h₂ := pushBlock_pushes (R := fun _ => False) h₁.wf (a := a) ha₁
      (show half ≤ (σ.mag a).count from hgt.le) hcount.ge
    rw [hlimbs, List.take_of_length_le hlen.le] at h₂
    by_cases hfull : (σ.mag a).count = 2 * half
    · have hq : (σ.mag a).count / half = 2 := by rw [hfull, Nat.mul_div_cancel _ h0]
      have hr : (σ.mag a).count % half = 0 := by rw [hfull, Nat.mul_mod_left]
      simp only [hq, hr, List.range_succ, List.range_zero, List.nil_append, List.singleton_append,
        List.foldl_cons, List.foldl_nil, ne_eq, not_true_eq_false, if_false, Nat.zero_mul,
        Nat.zero_add, Nat.one_mul, Nat.reduceAdd, Nat.sub_self]
      rw [← hfull]
      exact h₁.two h₂
    · have hq : (σ.mag a).count / half = 1 := by
        apply Nat.div_eq_of_lt_le <;> omega
      have hr : (σ.mag a).count % half ≠ 0 := by
        have := Nat.div_add_mod (σ.mag a).count half
        rw [hq] at this
        omega
      simp only [hq, List.range_one, List.foldl_cons, List.foldl_nil, Nat.zero_mul, Nat.zero_add,
        Nat.one_mul, Nat.reduceAdd, Nat.sub_self, List.range_zero]
      rw [if_pos hr]
      exact h₁.two h₂

/-- Inside the body of a function that writes `res`: `m` local objects follow the `n` old ones, and
the caches of `res` and of the locals are right. -/
structure Body (n res : Nat) (σ : Store) (m : Nat) (σ' : Store) : Prop where
  keeps : Keeps n (· = res) σ σ'
  live : σ'.live = n + m
  cache : ∀ k < n + m, k = res ∨ n ≤ k → σ'.CacheOk k

section body

variable {n m res : Nat}

theorem Body.wf (hb : Body n res σ m σ₁) : σ₁.Wf := hb.keeps.good.wf

theorem Body.puts (hb : Body n res σ m σ₁) (hp : Puts σ₁ i R x σ₂) (hi : i = res ∨ n ≤ i)
    (hR : ∀ j, R j → (j = res ∨ n ≤ j) ∧ j < n + m) : Body n res σ m σ₂ := by
  have hlive := hb.live
  refine ⟨hb.keeps.then fun _ => hp.keepsAt (by omega) fun hlt => by omega,
    hp.live.trans hlive, fun k hk hkr => ?_⟩
  by_cases hki : k = i
  · exact hki ▸ hp.cache fun j hj => hb.cache j (hR j hj).2 (hR j hj).1
  · exact hp.keeps.cache k (by omega) hki (hb.cache k hk hkr)

theorem Body.pushes (hb : Body n res σ m σ₁) (hp : Pushes σ₁ (fun _ => False) x σ₂) :
    Body n res σ (m + 1) σ₂ := by
  have hlive := hb.live
  refine ⟨hb.keeps.then fun _ => hp.keepsAt (by omega), by rw [hp.live]; omega, fun k hk hkr => ?_⟩
  by_cases hkl : k = σ₁.live
  · exact hkl ▸ hp.cache fun _ hf => hf.elim
  · exact hp.keeps.cache k (by omega) (fun hf => hf) (hb.cache k (by omega) hkr)

theorem Body.close (hb : Body n res σ m σ₁) (hn : n = σ.live) (hres : res < n) :
    Puts σ res R ((σ₁.popTo n).num res) (σ₁.popTo n) := by
  have hlive := hb.live
  subst hn
  exact ⟨rfl, hb.keeps.then fun hg => .popTo hg (Nat.le_refl _) (by omega), rfl,
    fun _ => hb.cache res (by omega) (Or.inl rfl)⟩

end body

def MulFrame (mul : Store → Nat → Nat → Nat → Option Store) : Prop :=
  ∀ {σ σ' : Store} {res a b : Nat}, σ.Wf → res < σ.live → a < σ.live → b < σ.live →
    mul σ res a b = some σ' → Puts σ res (fun k => k = a ∨ k = b) (σ'.num res) σ'

/-- The results of `mul` on integers. They are exact in a third object, and canonical in an operand
unless a zero limb of the other one is read in its place. -/
structure MulResults (res a b : Nat) (v w : Int) (x : Num) : Prop where
  exact : res ≠ a → res ≠ b → x = Num.ofInt (v * w)
  canon : x.Canon ↔ (res = a → ¬ Num.ZeroLimbBelow v w) ∧ (res = b → ¬ Num.ZeroLimbBelow w v)

theorem MulResults.of_exact {res a b : Nat} {v w : Int} (hx : x = Num.ofInt (v * w))
    (hv : v.natAbs ≤ 1 ∨ w.natAbs ≤ 1) : MulResults res a b v w x := by
  refine ⟨fun _ _ => hx, iff_of_true (hx ▸ Num.ofInt_canon _) ⟨fun _ h => ?_, fun _ h => ?_⟩⟩
  · obtain ⟨hlt, -, hne, hmod⟩ := h
    omega
  · obtain ⟨hlt, -, hne, hmod⟩ := h
    omega

/-- A product of operands below `2 ^ (32 * n)` returns, and is exact. -/
def MulExact (n : Nat) (mul : Store → Nat → Nat → Nat → Option Store) : Prop :=
  ∀ {σ : Store} {r a b : Nat} {v w : Int}, σ.Wf → r < σ.live → a < σ.live → b < σ.live →
    r ≠ a → r ≠ b → σ.num a = Num.ofInt v → σ.num b = Num.ofInt w →
    v.natAbs < (2 ^ 32) ^ n → w.natAbs < (2 ^ 32) ^ n →
    ∃ σ', mul σ r a b = some σ' ∧ σ'.num r = Num.ofInt (v * w)

/-- The four blocks stand at the end of the store; the old objects other than `res` are as before. -/
structure Blocks (σ : Store) (res a b half : Nat) (σ' : Store) : Prop where
  wf : σ'.Wf
  live : σ'.live = σ.live + 4
  keeps : Keeps σ.live (· = res) σ σ'
  al : σ'.num σ.live = Num.ofInt (PGBigNumber.mag ((σ.limbs a).take half))
  ah : σ'.num (σ.live + 1) = Num.ofInt (PGBigNumber.mag ((σ.limbs a).drop half))
  bl : σ'.num (σ.live + 2) = Num.ofInt (PGBigNumber.mag ((σ.limbs b).take half))
  bh : σ'.num (σ.live + 3) = Num.ofInt (PGBigNumber.mag ((σ.limbs b).drop half))
  cache : ∀ k < σ.live + 4, k = res ∨ σ.live ≤ k → σ'.CacheOk k

theorem karatsubaBlocks_spec (h : σ.Wf) {res a b half : Nat} (hres : res < σ.live)
    (ha : a < σ.live) (hb : b < σ.live) (h0 : 0 < half) (hla : (σ.mag a).count ≤ 2 * half)
    (hlb : (σ.mag b).count ≤ 2 * half) :
    Blocks σ res a b half (σ.karatsubaBlocks res a b half) := by
  have h₁ := split_two h ha h0 hla
  set σ₁ := σ.split a 2 half
  have hb₁ : b < σ₁.live := by rw [h₁.live]; omega
  have hnum : σ₁.num b = σ.num b := h₁.keeps.num b hb fun hf => hf
  have hlimbs : σ₁.limbs b = σ.limbs b := limbs_of_num hnum
  have h₂ := split_two h₁.keeps.good.wf hb₁ h0
    (by rwa [count_of_num hnum h₁.keeps.good.wf h hb₁ hb])
  rw [hlimbs] at h₂
  set σ₂ := σ₁.split b 2 half
  have h₃ := Puts.ready (i := res) (R := fun _ => False) h₂.keeps.good.wf
  have hl₁ := h₁.live
  have hl₂ := h₂.live
  have hnum : ∀ k < 4, (σ.karatsubaBlocks res a b half).num (σ.live + k) = σ₂.num (σ.live + k) :=
    fun k hk => h₃.num_ne (by omega) (by omega)
  have hold : ∀ k < 2, σ₂.num (σ.live + k) = σ₁.num (σ.live + k) := fun k hk =>
    h₂.keeps.num _ (by omega) fun hf => hf
  refine ⟨h₃.wf, ?_, ?_, ?_, ?_, ?_, ?_, fun k hk hkr => ?_⟩
  · rw [karatsubaBlocks, h₃.live]
    omega
  · apply (h₁.keeps.mono (Nat.le_refl _) fun _ _ hf => hf.elim).then
    intro _
    apply (h₂.keeps.mono (by omega) fun _ _ hf => hf.elim).then
    intro _
    exact h₃.keepsAt (by omega) fun _ => rfl
  · exact (hnum 0 (by omega)).trans ((hold 0 (by omega)).trans h₁.num₀)
  · exact (hnum 1 (by omega)).trans ((hold 1 (by omega)).trans h₁.num₁)
  · have := h₂.num₀
    rw [hl₁] at this
    exact (hnum 2 (by omega)).trans this
  · have := h₂.num₁
    rw [hl₁] at this
    exact (hnum 3 (by omega)).trans this
  · rcases hkr with rfl | hge
    · exact h₃.cache fun _ hf => hf.elim
    apply h₃.keeps.cache _ (by omega) (by omega)
    have hc₀ := h₂.cache₀
    have hc₁ := h₂.cache₁
    rw [hl₁] at hc₀ hc₁
    have hk' : k = σ.live ∨ k = σ.live + 1 ∨ k = σ.live + 2 ∨ k = σ.live + 3 := by omega
    rcases hk' with rfl | rfl | rfl | rfl
    · exact h₂.keeps.cache _ (by omega) (fun hf => hf) h₁.cache₀
    · exact h₂.keeps.cache _ (by omega) (fun hf => hf) h₁.cache₁
    · exact hc₀
    · exact hc₁

theorem Blocks.body {res a b half : Nat} (h : Blocks σ res a b half σ₁) :
    Body σ.live res σ 4 σ₁ := ⟨h.keeps, h.live, h.cache⟩

section karatsuba

variable {mul : Store → Nat → Nat → Nat → Option Store} {res a b n half : Nat}

theorem karatsubaProducts_body (hmul : MulFrame mul) (hb : Body n res σ 4 σ₁) (hres : res < n)
    (hrun : karatsubaProducts mul σ₁ res n = some σ₂) : Body n res σ 6 σ₂ := by
  simp only [karatsubaProducts, Option.bind_eq_bind, Option.bind_eq_some_iff] at hrun
  obtain ⟨σB, hB, σC, hC, hE⟩ := hrun
  have hl := hb.live
  have hbB := hb.puts (hmul hb.wf (by omega) (by omega) (by omega) hB) (Or.inl rfl)
    (fun j hj => by omega)
  have hbP := hbB.pushes (pushDefault_pushes hbB.wf)
  have hlP := hbP.live
  have hbC := hbP.puts (hmul hbP.wf (by omega) (by omega) (by omega) hC) (Or.inr (by omega))
    (fun j hj => by omega)
  have hbQ := hbC.pushes (pushDefault_pushes hbC.wf)
  have hlQ := hbQ.live
  have hbD := hbQ.puts (addAssign_puts hbQ.wf (i := n + 1) (j := n) (by omega) (by omega))
    (Or.inr (by omega)) (fun j hj => by omega)
  have hlD := hbD.live
  have hbD' := hbD.puts (addAssign_puts hbD.wf (i := n + 3) (j := n + 2) (by omega)
    (by omega)) (Or.inr (by omega)) (fun j hj => by omega)
  have hlD' := hbD'.live
  exact hbD'.puts (hmul hbD'.wf (by omega) (by omega) (by omega) hE) (Or.inr (by omega))
    (fun j hj => by omega)

theorem karatsubaCombine_body (hb : Body n res σ 6 σ₁) (hres : res < n)
    (hrun : σ₁.karatsubaCombine res n half = some σ₂) : Body n res σ 6 σ₂ := by
  simp only [karatsubaCombine, Option.bind_eq_bind, Option.bind_eq_some_iff,
    Option.some.injEq] at hrun
  obtain ⟨σG, hG, σI, hI, rfl⟩ := hrun
  have hl := hb.live
  have hbF := hb.puts (subAssign_puts hb.wf (i := n + 5) (j := res) (by omega) (by omega))
    (Or.inr (by omega)) (fun j hj => by omega)
  have hlF := hbF.live
  have hbF' := hbF.puts (subAssign_puts hbF.wf (i := n + 5) (j := n + 4) (by omega)
    (by omega)) (Or.inr (by omega)) (fun j hj => by omega)
  have hlF' := hbF'.live
  obtain ⟨_, -, hGp⟩ := shiftLeftAssign_spec hbF'.wf (by omega) hG
  have hbG := hbF'.puts hGp (Or.inl rfl) (fun j hj => by omega)
  have hlG := hbG.live
  have hbH := hbG.puts (addAssign_puts hbG.wf (i := res) (j := n + 5) (by omega) (by omega))
    (Or.inl rfl) (fun j hj => by omega)
  have hlH := hbH.live
  obtain ⟨_, -, hIp⟩ := shiftLeftAssign_spec hbH.wf (by omega) hI
  have hbI := hbH.puts hIp (Or.inl rfl) (fun j hj => by omega)
  have hlI := hbI.live
  exact hbI.puts (addAssign_puts hbI.wf (i := res) (j := n + 4) (by omega) (by omega))
    (Or.inl rfl) (fun j hj => by omega)

theorem Body.setSign_close {m : Nat} (hb : Body n res σ m σ₁) (hn : n = σ.live) (hres : res < n)
    (t : Sign) : Puts σ res R ⟨t, σ₁.limbs res⟩ ((σ₁.setSign res t).popTo n) := by
  have hset := Puts.setSign (i := res) (R := (· = res)) hb.wf rfl t
  have hclose := (hb.puts hset (Or.inl rfl) fun j hj => by omega).close (R := R) hn hres
  have hnum : ((σ₁.setSign res t).popTo n).num res = ⟨t, σ₁.limbs res⟩ := hset.num
  rwa [hnum] at hclose

theorem mulKaratsuba_mono {mul' : Store → Nat → Nat → Nat → Option Store}
    (hle : ∀ {σ σ' : Store} {r c d : Nat}, mul σ r c d = some σ' → mul' σ r c d = some σ')
    (hrun : mulKaratsuba mul σ res a b = some σ₁) : mulKaratsuba mul' σ res a b = some σ₁ := by
  simp only [mulKaratsuba, karatsubaProducts, Option.bind_eq_bind,
    Option.bind_eq_some_iff] at hrun ⊢
  obtain ⟨σE, ⟨σB, hB, σC, hC, hE⟩, hrest⟩ := hrun
  exact ⟨σE, ⟨σB, hle hB, σC, hle hC, hle hE⟩, hrest⟩

theorem mulKaratsuba_frame (hmul : MulFrame mul) (h : σ.Wf) (hres : res < σ.live) (ha : a < σ.live)
    (hb : b < σ.live) (hcount : 0 < (σ.mag a).count) (hrun : mulKaratsuba mul σ res a b = some σ₁) :
    Puts σ res R (σ₁.num res) σ₁ := by
  have hhalf : 0 < σ.halfOf a b := by unfold halfOf; omega
  have hA := karatsubaBlocks_spec h hres ha hb hhalf (by unfold halfOf; omega)
    (by unfold halfOf; omega)
  simp only [mulKaratsuba, Option.bind_eq_bind, Option.bind_eq_some_iff, Option.some.injEq] at hrun
  obtain ⟨σE, hE, σJ, hJ, rfl⟩ := hrun
  have hbJ := karatsubaCombine_body (karatsubaProducts_body hmul hA.body hres hE) hres hJ
  exact (hbJ.setSign_close rfl hres (if σJ.sign a = σJ.sign b then .pos else .neg)).of_num rfl

/-- The half products, when their operands are short enough for the recursive calls. -/
theorem karatsubaProducts_exact {N : Nat} (hmul : MulFrame mul) (hexact : MulExact N mul)
    (h : σ.Wf) (hlive : σ.live = n + 4) (hres : res < n) {al ah bl bh : Int}
    (hal : σ.num n = Num.ofInt al) (hah : σ.num (n + 1) = Num.ofInt ah)
    (hbl : σ.num (n + 2) = Num.ofInt bl) (hbh : σ.num (n + 3) = Num.ofInt bh)
    (hA : al.natAbs + ah.natAbs < (2 ^ 32) ^ N) (hB : bl.natAbs + bh.natAbs < (2 ^ 32) ^ N) :
    ∃ σ', karatsubaProducts mul σ res n = some σ' ∧ σ'.num res = Num.ofInt (ah * bh) ∧
      σ'.num (n + 4) = Num.ofInt (al * bl) ∧
      σ'.num (n + 5) = Num.ofInt ((ah + al) * (bh + bl)) := by
  obtain ⟨σB, hrunB, hBres⟩ := hexact h (r := res) (a := n + 1) (b := n + 3) (by omega)
    (by omega) (by omega) (by omega) (by omega) hah hbh (by omega) (by omega)
  have pB := hmul h (by omega) (by omega) (by omega) hrunB
  have hlB := pB.live
  have pP := pushDefault_pushes (R := fun _ => False) pB.wf
  have hlP := pP.live
  have kP : ∀ k < n + 4, k ≠ res → σB.pushDefault.num k = σ.num k := fun k hk hkr =>
    (pP.num_old (by omega)).trans (pB.num_ne (by omega) hkr)
  obtain ⟨σC, hrunC, hCp2⟩ := hexact pP.wf (r := n + 4) (a := n) (b := n + 2) (by omega)
    (by omega) (by omega) (by omega) (by omega) ((kP n (by omega) (by omega)).trans hal)
    ((kP (n + 2) (by omega) (by omega)).trans hbl) (by omega) (by omega)
  have pC := hmul pP.wf (by omega) (by omega) (by omega) hrunC
  have hlC := pC.live
  have pQ := pushDefault_pushes (R := fun _ => False) pC.wf
  have hlQ := pQ.live
  have kQ : ∀ k < n + 4, σC.pushDefault.num k = σB.num k := fun k hk =>
    (pQ.num_old (by omega)).trans ((pC.num_ne (by omega) (by omega)).trans (pP.num_old (by omega)))
  have kQA : ∀ k < n + 4, k ≠ res → σC.pushDefault.num k = σ.num k := fun k hk hkr =>
    (kQ k hk).trans (pB.num_ne (by omega) hkr)
  have pD := addAssign_puts pQ.wf (i := n + 1) (j := n) (by omega) (by omega)
  rw [kQA n (by omega) (by omega), kQA (n + 1) (by omega) (by omega), hah, hal,
    Num.add_ofInt] at pD
  have hlD := pD.live
  have pD' := addAssign_puts pD.wf (i := n + 3) (j := n + 2) (by omega) (by omega)
  rw [pD.num_ne (by omega) (by omega), pD.num_ne (by omega) (by omega),
    kQA (n + 2) (by omega) (by omega), kQA (n + 3) (by omega) (by omega), hbh, hbl,
    Num.add_ofInt] at pD'
  have hlD' := pD'.live
  obtain ⟨σE, hrunE, hEp3⟩ := hexact pD'.wf (r := n + 5) (a := n + 1) (b := n + 3) (by omega)
    (by omega) (by omega) (by omega) (by omega)
    ((pD'.num_ne (by omega) (by omega)).trans pD.num) pD'.num (by omega) (by omega)
  have pE := hmul pD'.wf (by omega) (by omega) (by omega) hrunE
  have kE : ∀ k < n + 5, k ≠ n + 1 → k ≠ n + 3 → σE.num k = σC.num k := fun k hk h1 h3 =>
    (pE.num_ne (by omega) (by omega)).trans ((pD'.num_ne (by omega) h3).trans
      ((pD.num_ne (by omega) h1).trans (pQ.num_old (by omega))))
  refine ⟨σE, ?_, ?_, ?_, hEp3⟩
  · simp only [karatsubaProducts, Option.bind_eq_bind, hrunB, hrunC, Option.bind_some]
    exact hrunE
  · rw [kE res (by omega) (by omega) (by omega), ← hBres]
    exact (pC.num_ne (by omega) (by omega)).trans (pP.num_old (by omega))
  · exact (kE (n + 4) (by omega) (by omega) (by omega)).trans hCp2

theorem karatsubaCombine_exact (half : Nat) (h : σ.Wf) (hlive : σ.live = n + 6) (hres : res < n)
    {x y z : Int}
    (hx : σ.num res = Num.ofInt x) (hz : σ.num (n + 4) = Num.ofInt z)
    (hy : σ.num (n + 5) = Num.ofInt y) :
    ∃ σ', σ.karatsubaCombine res n half = some σ' ∧ σ'.num res =
      Num.ofInt ((x * 2 ^ (32 * half) + (y - x - z)) * 2 ^ (32 * half) + z) := by
  have pF := subAssign_puts h (i := n + 5) (j := res) (by omega) (by omega)
  rw [hy, hx, Num.sub_ofInt] at pF
  have hlF := pF.live
  have pF' := subAssign_puts pF.wf (i := n + 5) (j := n + 4) (by omega) (by omega)
  rw [pF.num, pF.num_ne (by omega) (by omega), hz, Num.sub_ofInt] at pF'
  have hlF' := pF'.live
  have kF : ∀ k < n + 5, ((σ.subAssign (n + 5) res).subAssign (n + 5) (n + 4)).num k = σ.num k :=
    fun k hk => (pF'.num_ne (by omega) (by omega)).trans (pF.num_ne (by omega) (by omega))
  obtain ⟨σG, hG, pG⟩ := shiftLeftAssign_puts pF'.wf (i := res) (k := 32 * half) (by omega)
    (by rw [kF res (by omega), hx, Num.shl_ofInt])
  have hlG := pG.live
  have pH := addAssign_puts pG.wf (i := res) (j := n + 5) (by omega) (by omega)
  rw [pG.num, pG.num_ne (by omega) (by omega), pF'.num, Num.add_ofInt] at pH
  have hlH := pH.live
  obtain ⟨σI, hI, pI⟩ := shiftLeftAssign_puts pH.wf (i := res) (k := 32 * half) (by omega)
    (by rw [pH.num, Num.shl_ofInt])
  have hlI := pI.live
  have pJ := addAssign_puts pI.wf (i := res) (j := n + 4) (by omega) (by omega)
  rw [pI.num, pI.num_ne (by omega) (by omega), pH.num_ne (by omega) (by omega),
    pG.num_ne (by omega) (by omega), kF (n + 4) (by omega), hz, Num.add_ofInt] at pJ
  refine ⟨σI.addAssign res (n + 4), ?_, pJ.num⟩
  simp only [karatsubaCombine, Option.bind_eq_bind, hG, hI, Option.bind_some]

private theorem mag_halves (l : List UInt32) (n : Nat) :
    PGBigNumber.mag l = PGBigNumber.mag (l.take n) + (2 ^ 32) ^ n * PGBigNumber.mag (l.drop n) := by
  by_cases hn : n ≤ l.length
  · exact mag_take_drop n l hn
  · rw [List.take_of_length_le (by omega), List.drop_eq_nil_of_le (by omega), mag_nil, Nat.mul_zero,
      Nat.add_zero]

private theorem mag_take_lt (l : List UInt32) (n : Nat) :
    PGBigNumber.mag (l.take n) < (2 ^ 32) ^ n :=
  Nat.lt_of_lt_of_le (mag_lt _) (Nat.pow_le_pow_right (by decide) (List.length_take_le n l))

private theorem mag_drop_lt {l : List UInt32} {n : Nat} (hl : l.length ≤ 2 * n) :
    PGBigNumber.mag (l.drop n) < (2 ^ 32) ^ n :=
  Nat.lt_of_lt_of_le (mag_lt _)
    (Nat.pow_le_pow_right (by decide) (by rw [List.length_drop]; omega))

private theorem halves_lt {l : List UInt32} {N : Nat} (hl : l.length ≤ 2 * half)
    (hN : half + 1 ≤ N) :
    PGBigNumber.mag (l.take half) + PGBigNumber.mag (l.drop half) < (2 ^ 32) ^ N := by
  have h₁ := mag_take_lt l half
  have h₂ := mag_drop_lt hl
  have hpow : (2 ^ 32) ^ (half + 1) ≤ (2 ^ 32) ^ N := Nat.pow_le_pow_right (by decide) hN
  rw [pow_succ (2 ^ 32) half] at hpow
  generalize (2 ^ 32) ^ half = P at *
  generalize (2 ^ 32) ^ N = Q at *
  omega

private theorem karatsuba_identity (P al ah bl bh : Int) :
    ((ah * bh) * P + ((ah + al) * (bh + bl) - ah * bh - al * bl)) * P + al * bl =
      (al + P * ah) * (bl + P * bh) := by ring

/-- The comparison of signs at the end of `mulKaratsuba`, where an operand that `res` has overwritten
shows the sign of the product of the magnitudes. -/
def signsAgree (σ : Store) (res a b : Nat) : Bool :=
  let sign : Sign := (Num.ofInt (PGBigNumber.mag (σ.limbs a) * PGBigNumber.mag (σ.limbs b))).sign
  decide ((if res = a then sign else σ.sign a) = if res = b then sign else σ.sign b)

theorem signsAgree_of_ne {res a b : Nat} (hna : res ≠ a) (hnb : res ≠ b) :
    σ.signsAgree res a b = decide (σ.sign a = σ.sign b) := by
  unfold signsAgree
  simp only [if_neg hna, if_neg hnb]

/-- `mulKaratsuba` multiplies magnitudes and sets the sign at the end. -/
theorem mulKaratsuba_exact {N : Nat} (hmul : MulFrame mul) (hexact : MulExact N mul) (h : σ.Wf)
    (hres : res < σ.live) (ha : a < σ.live) (hb : b < σ.live) (hcount : 0 < (σ.mag a).count)
    (hN : σ.halfOf a b + 1 ≤ N) :
    ∃ σ' s, mulKaratsuba mul σ res a b = some σ' ∧
      σ'.num res = Num.signed s
        (Num.limbsOf (PGBigNumber.mag (σ.limbs a) * PGBigNumber.mag (σ.limbs b))) ∧
      s = σ.signsAgree res a b := by
  have hhalf : 0 < σ.halfOf a b := by unfold halfOf; omega
  have hla : (σ.limbs a).length ≤ 2 * σ.halfOf a b := by
    rw [h.length_limbs ha]
    unfold halfOf
    omega
  have hlb : (σ.limbs b).length ≤ 2 * σ.halfOf a b := by
    rw [h.length_limbs hb]
    unfold halfOf
    omega
  have hA := karatsubaBlocks_spec h hres ha hb hhalf (by rwa [← h.length_limbs ha])
    (by rwa [← h.length_limbs hb])
  have hxa := mag_halves (σ.limbs a) (σ.halfOf a b)
  have hxb := mag_halves (σ.limbs b) (σ.halfOf a b)
  obtain ⟨σE, hE, hEres, hEp2, hEp3⟩ := karatsubaProducts_exact hmul hexact hA.wf hA.live hres
    hA.al hA.ah hA.bl hA.bh (halves_lt hla hN) (halves_lt hlb hN)
  have hbE := karatsubaProducts_body hmul hA.body hres hE
  obtain ⟨σJ, hJ, hJres⟩ := karatsubaCombine_exact (σ.halfOf a b) hbE.wf hbE.live hres
    hEres hEp2 hEp3
  have hbJ := karatsubaCombine_body hbE hres hJ
  have hK := hbJ.setSign_close (R := fun _ => False) rfl hres
    (if σJ.sign a = σJ.sign b then .pos else .neg)
  have hprod : σJ.num res =
      Num.ofInt (PGBigNumber.mag (σ.limbs a) * PGBigNumber.mag (σ.limbs b)) := by
    rw [hJres, pow_mul, karatsuba_identity, hxa, hxb]
    push_cast
    rfl
  refine ⟨_, decide (σJ.sign a = σJ.sign b), ?_, hK.num.trans ?_, ?_⟩
  · simp only [mulKaratsuba, Option.bind_eq_bind, hE, hJ, Option.bind_some]
  · have hlimbs : σJ.limbs res = Num.limbsOf _ := congrArg Num.limbs hprod
    rw [hlimbs, Num.signed]
    simp only [decide_eq_true_eq]
    congr 1
  · have hsign : ∀ k < σ.live, σJ.sign k = if res = k then
        (Num.ofInt (PGBigNumber.mag (σ.limbs a) * PGBigNumber.mag (σ.limbs b))).sign
        else σ.sign k := by
      intro k hk
      by_cases hrk : res = k
      · rw [if_pos hrk, ← hrk, ← num_sign, hprod]
      · rw [if_neg hrk]
        exact congrArg Num.sign (hbJ.keeps.num k hk (Ne.symm hrk))
    rw [hsign a ha, hsign b hb, signsAgree]

private theorem isZero_eq : σ.isZero i = (σ.num i).sign.zero := by rw [isZero, num_sign]

theorem mulWith_frame {k : Store → Nat → Nat → Nat → Option Store}
    (hk : ∀ {σ σ' : Store} {res a b : Nat}, σ.Wf → res < σ.live → a < σ.live → b < σ.live →
      0 < (σ.mag a).count → k σ res a b = some σ' →
      Puts σ res (fun _ => False) (σ'.num res) σ') : MulFrame (mulWith k) := by
  intro σ σ' res a b h hres ha hb hrun
  unfold mulWith at hrun
  by_cases h0 : (σ.isZero a || σ.isZero b) = true
  · rw [if_pos h0] at hrun
    exact Option.some.inj hrun ▸ (Puts.beZero h).of_num rfl
  rw [if_neg h0] at hrun
  by_cases h1 : (σ.num a).isOne = true
  · rw [if_pos h1] at hrun
    exact Option.some.inj hrun ▸ (Puts.assign h hb (Or.inr rfl)).of_num rfl
  rw [if_neg h1] at hrun
  by_cases h2 : (σ.num a).isNegOne = true
  · rw [if_pos h2] at hrun
    have hp := Puts.assign (i := res) (R := fun k => k = a ∨ k = b) h hb (Or.inr rfl)
    exact Option.some.inj hrun ▸
      ((hp.trans (.negate (R := (· = res)) hp.wf rfl) fun j hj => Or.inl hj).of_num rfl)
  rw [if_neg h2] at hrun
  by_cases h3 : (σ.num b).isOne = true
  · rw [if_pos h3] at hrun
    exact Option.some.inj hrun ▸ (Puts.assign h ha (Or.inl rfl)).of_num rfl
  rw [if_neg h3] at hrun
  by_cases h4 : (σ.num b).isNegOne = true
  · rw [if_pos h4] at hrun
    have hp := Puts.assign (i := res) (R := fun k => k = a ∨ k = b) h ha (Or.inl rfl)
    exact Option.some.inj hrun ▸
      ((hp.trans (.negate (R := (· = res)) hp.wf rfl) fun j hj => Or.inl hj).of_num rfl)
  rw [if_neg h4] at hrun
  set t : Sign := if (σ.beginWrite res).sign a = (σ.beginWrite res).sign b then .pos else .neg
  have hw := Puts.beginWrite (i := res) (R := fun k => k = a ∨ k = b) h
  have hs := hw.trans (.setSign (R := (· = res)) hw.wf rfl t) fun j hj => Or.inl hj
  by_cases hsmall : (((σ.beginWrite res).setSign res t).mag a).count < karatsubaThreshold ∨
      (((σ.beginWrite res).setSign res t).mag b).count < karatsubaThreshold
  · rw [if_pos hsmall] at hrun
    obtain ⟨_, hm, -⟩ := mulSmall_puts (R := fun _ => False) hs.wf (a := a) (b := b)
      hres ha hb (by simp)
    exact Option.some.inj hrun ▸ ((hs.trans hm fun _ hf => hf.elim).of_num rfl)
  · rw [if_neg hsmall] at hrun
    have hcount : 0 < (((σ.beginWrite res).setSign res t).mag a).count := by
      unfold karatsubaThreshold at hsmall
      omega
    exact hs.trans (hk hs.wf hres ha hb hcount hrun) fun _ hf => hf.elim

theorem mulFuel_frame (fuel : Nat) : MulFrame (mulFuel fuel) := by
  induction fuel with
  | zero => exact mulWith_frame fun _ _ _ _ _ hrun => absurd hrun (by simp)
  | succ fuel ih => exact mulWith_frame fun h hres ha hb hc hrun =>
      mulKaratsuba_frame ih h hres ha hb hc hrun

/-- What `mul` needs of its Karatsuba path: operands of at least 80 and at most `N` limbs have a
product, with the sign that `signsAgree` says. -/
def LongExact (N : Nat) (k : Store → Nat → Nat → Nat → Option Store) : Prop :=
  ∀ {σ : Store} {res a b : Nat}, σ.Wf → res < σ.live → a < σ.live → b < σ.live →
    karatsubaThreshold ≤ (σ.mag a).count → karatsubaThreshold ≤ (σ.mag b).count →
    (σ.mag a).count ≤ N → (σ.mag b).count ≤ N →
    ∃ σ' s, k σ res a b = some σ' ∧
      σ'.num res = Num.signed s
        (Num.limbsOf (PGBigNumber.mag (σ.limbs a) * PGBigNumber.mag (σ.limbs b))) ∧
      s = σ.signsAgree res a b

theorem mulKaratsuba_longExact {N : Nat} (hmul : MulFrame mul) (hexact : MulExact N mul) :
    LongExact (N + 1) (mulKaratsuba mul) := by
  intro σ res a b h hres ha hb hta htb hla hlb
  unfold karatsubaThreshold at hta htb
  apply mulKaratsuba_exact hmul hexact h hres ha hb (by omega)
  unfold halfOf
  omega

/-- What `mul` stores for integers; `P` and `Q` say that the result stands in the left and in the
right operand. A factor of one limb is then read as the other one, and Karatsuba compares a sign
with that of the unsigned product. -/
def mulStored (v w : Int) (P Q : Prop) [Decidable P] [Decidable Q] : Num :=
  if v.natAbs ≤ 1 ∨ w.natAbs ≤ 1 then Num.ofInt (v * w)
  else if (Num.ofInt v).limbs.length < karatsubaThreshold ∨
      (Num.ofInt w).limbs.length < karatsubaThreshold then
    Num.signed (decide ((Num.ofInt v).sign = (Num.ofInt w).sign))
      (Num.prodLimbsRead (Num.ofInt v).limbs (Num.ofInt w).limbs
        (if P then (Num.ofInt w).limbs else (Num.ofInt v).limbs)
        (if Q then (Num.ofInt v).limbs else (Num.ofInt w).limbs))
  else
    Num.signed (decide ((if P then Sign.pos else (Num.ofInt v).sign) =
      if Q then .pos else (Num.ofInt w).sign)) (Num.limbsOf (v.natAbs * w.natAbs))

section mulWith

variable {k : Store → Nat → Nat → Nat → Option Store} {v w : Int}

private theorem mulWith_unit (h : σ.Wf) (ha : a < σ.live) (hb : b < σ.live)
    (hv : σ.num a = Num.ofInt v) (hw : σ.num b = Num.ofInt w)
    (hunit : v.natAbs ≤ 1 ∨ w.natAbs ≤ 1) :
    ∃ σ', mulWith k σ res a b = some σ' ∧ σ'.num res = Num.ofInt (v * w) := by
  unfold mulWith
  rw [isZero_eq, isZero_eq, hv, hw]
  by_cases h0 : ((Num.ofInt v).sign.zero || (Num.ofInt w).sign.zero) = true
  · rw [if_pos h0]
    rw [Bool.or_eq_true, Num.ofInt_zero_iff, Num.ofInt_zero_iff] at h0
    refine ⟨_, rfl, ?_⟩
    rw [(Puts.beZero (R := fun _ => False) h).num, Num.zero_eq_ofInt, Int.mul_eq_zero.mpr h0]
  rw [if_neg h0]
  have hcopy : ∀ {j : Nat} {u : Int}, j < σ.live → σ.num j = Num.ofInt u →
      (σ.assign res j).num res = Num.ofInt u ∧
        ((σ.assign res j).negate res).num res = Num.ofInt (-u) := by
    intro j u hj hu
    have hp := Puts.assign (i := res) (R := fun _ => True) h hj trivial
    rw [hu] at hp
    have hn := Puts.negate (i := res) (R := fun _ => True) hp.wf trivial
    rw [hp.num, Num.negate_ofInt] at hn
    exact ⟨hp.num, hn.num⟩
  by_cases h1 : (Num.ofInt v).isOne = true
  · rw [if_pos h1]
    refine ⟨_, rfl, ?_⟩
    rw [(hcopy hb hw).1, (Num.isOne_ofInt v).mp h1, Int.one_mul]
  rw [if_neg h1]
  by_cases h2 : (Num.ofInt v).isNegOne = true
  · rw [if_pos h2]
    refine ⟨_, rfl, ?_⟩
    rw [(hcopy hb hw).2, (Num.isNegOne_ofInt v).mp h2, Int.neg_one_mul]
  rw [if_neg h2]
  by_cases h3 : (Num.ofInt w).isOne = true
  · rw [if_pos h3]
    refine ⟨_, rfl, ?_⟩
    rw [(hcopy ha hv).1, (Num.isOne_ofInt w).mp h3, Int.mul_one]
  rw [if_neg h3]
  by_cases h4 : (Num.ofInt w).isNegOne = true
  · rw [if_pos h4]
    refine ⟨_, rfl, ?_⟩
    rw [(hcopy ha hv).2, (Num.isNegOne_ofInt w).mp h4, Int.mul_neg_one]
  rw [Bool.or_eq_true, Num.ofInt_zero_iff, Num.ofInt_zero_iff, not_or] at h0
  rw [Num.isOne_ofInt] at h1 h3
  rw [Num.isNegOne_ofInt] at h2 h4
  omega

private theorem mulWith_eq (hv : σ.num a = Num.ofInt v) (hw : σ.num b = Num.ofInt w)
    (hunit : ¬ (v.natAbs ≤ 1 ∨ w.natAbs ≤ 1)) :
    mulWith k σ res a b =
      let σ₁ := (σ.beginWrite res).setSign res
        (if decide ((Num.ofInt v).sign = (Num.ofInt w).sign) then .pos else .neg)
      if (σ₁.mag a).count < karatsubaThreshold ∨ (σ₁.mag b).count < karatsubaThreshold then
        some (σ₁.mulSmall res a b)
      else k σ₁ res a b := by
  have h0 : ¬ ((Num.ofInt v).sign.zero || (Num.ofInt w).sign.zero) = true := by
    rw [Bool.or_eq_true, Num.ofInt_zero_iff, Num.ofInt_zero_iff]
    omega
  have hsign : (if (σ.beginWrite res).sign a = (σ.beginWrite res).sign b then Sign.pos else .neg) =
      if decide ((Num.ofInt v).sign = (Num.ofInt w).sign) then .pos else .neg := by
    rw [sign_beginWrite, sign_beginWrite, ← hv, ← hw, num_sign, num_sign]
    simp only [decide_eq_true_eq]
  unfold mulWith
  rw [isZero_eq, isZero_eq, hv, hw, if_neg h0,
    if_neg fun h => hunit (Or.inl (by rw [(Num.isOne_ofInt v).mp h]; decide)),
    if_neg fun h => hunit (Or.inl (by rw [(Num.isNegOne_ofInt v).mp h]; decide)),
    if_neg fun h => hunit (Or.inr (by rw [(Num.isOne_ofInt w).mp h]; decide)),
    if_neg fun h => hunit (Or.inr (by rw [(Num.isNegOne_ofInt w).mp h]; decide)), ← hsign]

theorem mulWith_num {N : Nat} (hk : LongExact N k) (h : σ.Wf) (hres : res < σ.live)
    (ha : a < σ.live) (hb : b < σ.live) (hv : σ.num a = Num.ofInt v) (hw : σ.num b = Num.ofInt w)
    (hvN : v.natAbs < (2 ^ 32) ^ N) (hwN : w.natAbs < (2 ^ 32) ^ N) :
    ∃ σ', mulWith k σ res a b = some σ' ∧ σ'.num res = mulStored v w (res = a) (res = b) := by
  unfold mulStored
  by_cases hunit : v.natAbs ≤ 1 ∨ w.natAbs ≤ 1
  · rw [if_pos hunit]
    exact mulWith_unit h ha hb hv hw hunit
  rw [if_neg hunit, mulWith_eq hv hw hunit]
  dsimp only
  have hbw := Puts.beginWrite (i := res) (R := fun _ => True) h
  have hset := hbw.trans (.setSign (R := (· = res)) hbw.wf rfl
    (if decide ((Num.ofInt v).sign = (Num.ofInt w).sign) then .pos else .neg)) fun j hj => Or.inl hj
  set σ₁ := (σ.beginWrite res).setSign res
    (if decide ((Num.ofInt v).sign = (Num.ofInt w).sign) then .pos else .neg)
  have hlimbs : ∀ k, σ₁.limbs k = (σ.num k).limbs := fun k => by
    rw [num_limbs, ← limbs_beginWrite (σ := σ) (i := res), limbs_eq, mag_setSign]
    rfl
  have hla : σ₁.limbs a = (Num.ofInt v).limbs := by rw [hlimbs, hv]
  have hlb : σ₁.limbs b = (Num.ofInt w).limbs := by rw [hlimbs, hw]
  rw [← hset.wf.length_limbs ha, ← hset.wf.length_limbs hb, hla, hlb]
  by_cases hsmall : (Num.ofInt v).limbs.length < karatsubaThreshold ∨
      (Num.ofInt w).limbs.length < karatsubaThreshold
  · rw [if_pos hsmall, if_pos hsmall]
    obtain ⟨l, hm, hl⟩ := mulSmall_puts (R := fun _ => False) hset.wf (a := a) (b := b)
      hres ha hb (by simp [σ₁])
    rw [hla, hlb] at hl
    refine ⟨_, rfl, ?_⟩
    rw [hm.num, hl (Num.limbs_ofInt_ne_nil (by omega)) (Num.limbs_ofInt_ne_nil (by omega)),
      sign_setSign_self]
    rfl
  · rw [if_neg hsmall, if_neg hsmall]
    obtain ⟨σ', s, hrun, hnum, hs⟩ := hk hset.wf (a := a) (b := b) hres ha hb
      (by rw [← hset.wf.length_limbs ha, hla]; omega)
      (by rw [← hset.wf.length_limbs hb, hlb]; omega)
      (by rw [← hset.wf.length_limbs ha, hla]; exact Num.length_ofInt_le hvN)
      (by rw [← hset.wf.length_limbs hb, hlb]; exact Num.length_ofInt_le hwN)
    rw [hla, hlb, Num.mag_ofInt, Num.mag_ofInt] at hnum
    refine ⟨σ', hrun, ?_⟩
    have hpos : (0 : Int) < v.natAbs * w.natAbs :=
      Int.mul_pos (by omega) (by omega)
    have hsign : ∀ k < σ.live, k ≠ res → σ₁.sign k = (σ.num k).sign := fun k hk hne =>
      congrArg Num.sign (hset.num_ne hk hne)
    rw [hnum, hs, signsAgree, hla, hlb, Num.mag_ofInt, Num.mag_ofInt, Num.ofInt_pos hpos]
    congr 2
    by_cases hra : res = a <;> by_cases hrb : res = b
    · simp only [if_pos hra, if_pos hrb]
    · simp only [if_pos hra, if_neg hrb, hsign b hb (Ne.symm hrb), hw]
    · simp only [if_neg hra, if_pos hrb, hsign a ha (Ne.symm hra), hv]
    · simp only [if_neg hra, if_neg hrb, hsign a ha (Ne.symm hra), hsign b hb (Ne.symm hrb), hv, hw]

end mulWith

theorem mulStored_results (res a b : Nat) (v w : Int) :
    MulResults res a b v w (mulStored v w (res = a) (res = b)) := by
  unfold mulStored
  by_cases hunit : v.natAbs ≤ 1 ∨ w.natAbs ≤ 1
  · rw [if_pos hunit]
    exact .of_exact rfl hunit
  rw [if_neg hunit]
  have hv0 : v ≠ 0 := by omega
  have hw0 : w ≠ 0 := by omega
  by_cases hsmall : (Num.ofInt v).limbs.length < karatsubaThreshold ∨
      (Num.ofInt w).limbs.length < karatsubaThreshold
  · rw [if_pos hsmall]
    refine ⟨fun hna hnb => ?_, Num.prodLimbsRead_canon_iff (by omega) (by omega) _ _ _⟩
    rw [if_neg hna, if_neg hnb, Num.prodLimbsRead_self, ← Num.prod_ofInt hv0 hw0, Num.signed]
    simp only [decide_eq_true_eq]
  · rw [if_neg hsmall]
    have hprod : Num.limbsOf (v.natAbs * w.natAbs) ≠ [] := by
      rw [Ne, Num.limbsOf_eq_nil_iff]
      exact Nat.mul_ne_zero (by omega) (by omega)
    have hlong : ∀ {u t : Int}, u ≠ 0 → ¬ (Num.ofInt u).limbs.length < karatsubaThreshold →
        ¬ Num.ZeroLimbBelow u t := by
      intro u t hu hlen hz
      rw [(Num.length_ofInt_one_iff hu).mpr hz.2.1] at hlen
      exact hlen (by decide)
    refine ⟨fun hna hnb => ?_, ?_⟩
    · rw [if_neg hna, if_neg hnb, ← Num.prod_limbsOf hv0 hw0, Num.signed, Num.mag_ofInt,
        Num.mag_ofInt]
      simp only [decide_eq_true_eq]
    · rw [Num.signed_canon_iff _ hprod]
      exact iff_of_true (Num.trimmed_limbsOf _)
        ⟨fun _ => hlong hv0 (by omega), fun _ => hlong hw0 (by omega)⟩

theorem mulWith_exact {k : Store → Nat → Nat → Nat → Option Store} {N : Nat}
    (hk : LongExact N k) : MulExact N (mulWith k) := by
  intro σ res a b v w h hres ha hb hna hnb hv hw hvN hwN
  obtain ⟨σ', hrun, hnum⟩ := mulWith_num hk h hres ha hb hv hw hvN hwN
  exact ⟨σ', hrun, hnum.trans ((mulStored_results res a b v w).exact hna hnb)⟩

private theorem longExact_zero : LongExact 79 fun _ _ _ _ => none := by
  intro _ _ _ _ _ _ _ _ hta _ hla _
  unfold karatsubaThreshold at hta
  omega

/-- Every call of `mulKaratsuba` shortens operands of at least 80 limbs, so the limb count of the
operands bounds the depth. -/
theorem mulFuel_exact (fuel : Nat) : MulExact (79 + fuel) (mulFuel fuel) := by
  induction fuel with
  | zero => exact mulWith_exact longExact_zero
  | succ fuel ih => exact mulWith_exact (mulKaratsuba_longExact (mulFuel_frame fuel) ih)

theorem mulFuel_num (fuel : Nat) {v w : Int} (h : σ.Wf) (hres : res < σ.live)
    (ha : a < σ.live) (hb : b < σ.live) (hv : σ.num a = Num.ofInt v) (hw : σ.num b = Num.ofInt w)
    (hvN : v.natAbs < (2 ^ 32) ^ (79 + fuel)) (hwN : w.natAbs < (2 ^ 32) ^ (79 + fuel)) :
    ∃ σ', mulFuel fuel σ res a b = some σ' ∧ σ'.num res = mulStored v w (res = a) (res = b) := by
  cases fuel with
  | zero => exact mulWith_num longExact_zero h hres ha hb hv hw hvN hwN
  | succ fuel =>
      have hlong : LongExact (79 + fuel + 1) (mulKaratsuba (mulFuel fuel)) :=
        mulKaratsuba_longExact (mulFuel_frame fuel) (mulFuel_exact fuel)
      exact mulWith_num hlong h hres ha hb hv hw hvN hwN

private theorem ite_mono {α : Type} {c : Prop} [Decidable c] {x y y' : Option α} {r : α}
    (h : y = some r → y' = some r) :
    (if c then x else y) = some r → (if c then x else y') = some r := by
  by_cases hc : c
  · rw [if_pos hc, if_pos hc]
    exact id
  · rw [if_neg hc, if_neg hc]
    exact h

theorem mulWith_mono {f f' : Store → Nat → Nat → Nat → Option Store}
    (hle : ∀ {σ σ' : Store} {r c d : Nat}, f σ r c d = some σ' → f' σ r c d = some σ')
    {σ σ' : Store} {res a b : Nat} :
    mulWith f σ res a b = some σ' → mulWith f' σ res a b = some σ' := by
  unfold mulWith
  apply ite_mono
  apply ite_mono
  apply ite_mono
  apply ite_mono
  apply ite_mono
  exact ite_mono hle

theorem mulFuel_mono {fuel fuel' : Nat} (hle : fuel ≤ fuel') {σ σ' : Store} {res a b : Nat}
    (hrun : mulFuel fuel σ res a b = some σ') : mulFuel fuel' σ res a b = some σ' := by
  induction fuel generalizing fuel' σ σ' res a b with
  | zero =>
      cases fuel' with
      | zero => exact hrun
      | succ f => exact mulWith_mono (by rintro _ _ _ _ _ ⟨⟩) hrun
  | succ fuel ih =>
      obtain ⟨f, rfl⟩ : ∃ f, fuel' = f + 1 := ⟨fuel' - 1, by omega⟩
      apply mulWith_mono _ hrun
      intro σ σ' r c d
      exact mulKaratsuba_mono fun h => ih (by omega) h

end karatsuba

theorem mulAssignFuel_frame {fuel : Nat} (h : σ.Wf) (hi : i < σ.live) (hj : j < σ.live)
    (hrun : mulAssignFuel fuel σ i j = some σ₁) :
    Puts σ i (fun k => k = i ∨ k = j) (σ₁.num i) σ₁ := by
  unfold mulAssignFuel at hrun
  by_cases h0 : (σ.isZero i || σ.isZero j) = true
  · rw [if_pos h0] at hrun
    exact Option.some.inj hrun ▸ (Puts.beZero h).of_num rfl
  rw [if_neg h0] at hrun
  by_cases h1 : (σ.num j).isOne = true
  · rw [if_pos h1] at hrun
    exact Option.some.inj hrun ▸ Puts.refl h (Or.inl rfl)
  rw [if_neg h1] at hrun
  by_cases h2 : (σ.num j).isNegOne = true
  · rw [if_pos h2] at hrun
    exact Option.some.inj hrun ▸ (Puts.negate h (Or.inl rfl)).of_num rfl
  rw [if_neg h2] at hrun
  by_cases h3 : (σ.num i).isOne = true
  · rw [if_pos h3] at hrun
    exact Option.some.inj hrun ▸ (Puts.assign h hj (Or.inr rfl)).of_num rfl
  rw [if_neg h3] at hrun
  by_cases h4 : (σ.num i).isNegOne = true
  · rw [if_pos h4] at hrun
    have hp := Puts.assign (i := i) (R := fun k => k = i ∨ k = j) h hj (Or.inr rfl)
    exact Option.some.inj hrun ▸
      ((hp.trans (.negate (R := (· = i)) hp.wf rfl) fun j hj => Or.inl hj).of_num rfl)
  rw [if_neg h4] at hrun
  have hw := Puts.beginWrite (i := i) (R := fun k => k = i ∨ k = j) h
  by_cases hsmall : ((σ.beginWrite i).mag i).count < karatsubaThreshold ∨
      ((σ.beginWrite i).mag j).count < karatsubaThreshold
  · rw [if_pos hsmall] at hrun
    have hm := mulAssignSmall_puts (R := fun _ => False) hw.wf hi hj (by simp)
    exact Option.some.inj hrun ▸ ((hw.trans hm fun _ hf => hf.elim).of_num rfl)
  · rw [if_neg hsmall] at hrun
    have hcount : 0 < ((σ.beginWrite i).mag i).count := by
      unfold karatsubaThreshold at hsmall
      omega
    simp only [Option.bind_eq_bind, Option.bind_eq_some_iff, Option.some.injEq] at hrun
    obtain ⟨σ₂, hk, rfl⟩ := hrun
    have hp := pushDefault_pushes (R := fun _ => False) hw.wf
    have hc : 0 < ((σ.beginWrite i).pushDefault.mag i).count := by
      rw [count_of_num (hp.num_old hi) hp.wf hw.wf (by rw [hp.live]; exact Nat.lt_succ_of_lt hi) hi]
      exact hcount
    have hlive := hp.live
    have hlw : (σ.beginWrite i).live = σ.live := hw.live
    have hkf := mulKaratsuba_frame (R := fun _ => False) (mulFuel_frame fuel) hp.wf (by omega)
      (by omega) (by omega) hc hk
    have hpk := hp.puts hkf fun _ hf => hf.elim
    have hlive₂ := hpk.live
    have ha := Puts.assign (i := i) (R := (· = (σ.beginWrite i).live)) hpk.wf (by omega) rfl
    have hclose := hpk.close ha fun k hk => Or.inl hk
    exact (hw.trans hclose fun _ hf => hf.elim).of_num rfl

theorem mulAssignFuel_small (fuel : Nat) (h : σ.Wf) (hi : i < σ.live) (hj : j < σ.live)
    (hsmall : (σ.mag i).count < karatsubaThreshold ∨ (σ.mag j).count < karatsubaThreshold) :
    ∃ σ', mulAssignFuel fuel σ i j = some σ' ∧ σ'.num i = Num.mulSmall (σ.num i) (σ.num j) := by
  unfold mulAssignFuel Num.mulSmall
  rw [isZero_eq, isZero_eq]
  by_cases h0 : ((σ.num i).sign.zero || (σ.num j).sign.zero) = true
  · rw [if_pos h0, if_pos h0]
    exact ⟨_, rfl, (Puts.beZero (R := fun _ => False) h).num⟩
  rw [if_neg h0, if_neg h0]
  by_cases h1 : (σ.num j).isOne = true
  · rw [if_pos h1, if_pos h1]
    exact ⟨_, rfl, rfl⟩
  rw [if_neg h1, if_neg h1]
  by_cases h2 : (σ.num j).isNegOne = true
  · rw [if_pos h2, if_pos h2]
    exact ⟨_, rfl, (Puts.negate (R := fun _ => True) h trivial).num⟩
  rw [if_neg h2, if_neg h2]
  have hp := Puts.assign (i := i) (R := fun _ => True) h hj trivial
  by_cases h3 : (σ.num i).isOne = true
  · rw [if_pos h3, if_pos h3]
    exact ⟨_, rfl, hp.num⟩
  rw [if_neg h3, if_neg h3]
  by_cases h4 : (σ.num i).isNegOne = true
  · rw [if_pos h4, if_pos h4]
    refine ⟨_, rfl, ?_⟩
    rw [(Puts.negate (i := i) (R := fun _ => True) hp.wf trivial).num, hp.num]
  rw [if_neg h4, if_neg h4]
  have hw := Puts.beginWrite (i := i) (R := fun _ => True) h
  have hm := mulAssignSmall_puts (R := fun _ => False) hw.wf hi hj (by simp)
  simp only [mag_beginWrite]
  rw [if_pos hsmall]
  refine ⟨_, rfl, hm.num.trans ?_⟩
  simp only [num_sign, num_limbs, sign_beginWrite, limbs_beginWrite]

private theorem long_not_unit {x : Num} (hx : karatsubaThreshold ≤ x.limbs.length) :
    x.isOne = false ∧ x.isNegOne = false := by
  have hne : (x.limbs == [1]) = false := by
    rw [beq_eq_false_iff_ne]
    intro he
    rw [he] at hx
    exact absurd hx (by decide)
  simp [Num.isOne, Num.isNegOne, hne]

private theorem long_not_zero {v : Int} (hv : karatsubaThreshold ≤ (Num.ofInt v).limbs.length) :
    v ≠ 0 := by
  rintro rfl
  exact absurd hv (by decide)

theorem mulAssignFuel_exact (fuel : Nat) {v w : Int} (h : σ.Wf) (hi : i < σ.live)
    (hj : j < σ.live) (hv : σ.num i = Num.ofInt v) (hw : σ.num j = Num.ofInt w)
    (hfi : (σ.mag i).count ≤ 80 + fuel) (hfj : (σ.mag j).count ≤ 80 + fuel) :
    ∃ σ', mulAssignFuel fuel σ i j = some σ' ∧ σ'.num i = Num.ofInt (v * w) := by
  by_cases hsmall : (σ.mag i).count < karatsubaThreshold ∨ (σ.mag j).count < karatsubaThreshold
  · obtain ⟨σ', hrun, hnum⟩ := mulAssignFuel_small fuel h hi hj hsmall
    exact ⟨σ', hrun, by rw [hnum, hv, hw, Num.mulSmall_ofInt]⟩
  have hbw := Puts.beginWrite (i := i) (R := fun _ => True) h
  have hp := pushDefault_pushes (R := fun _ => False) hbw.wf
  have hlive := hp.live
  have hlw : (σ.beginWrite i).live = σ.live := hbw.live
  have hnum : ∀ k < σ.live, (σ.beginWrite i).pushDefault.num k = σ.num k := fun k hk =>
    (hp.num_old hk).trans (num_beginWrite k)
  have hlimbs : ∀ k < σ.live, (σ.beginWrite i).pushDefault.limbs k = σ.limbs k := fun k hk =>
    limbs_of_num (hnum k hk)
  have hsign : ∀ k < σ.live, (σ.beginWrite i).pushDefault.sign k = σ.sign k := fun k hk =>
    sign_of_num (hnum k hk)
  have hcount : ∀ k < σ.live, ((σ.beginWrite i).pushDefault.mag k).count = (σ.mag k).count :=
    fun k hk => count_of_num (hnum k hk) hp.wf h (by omega) hk
  have hki : karatsubaThreshold ≤ (σ.num i).limbs.length := by
    rw [num_limbs, h.length_limbs hi]
    omega
  have hkj : karatsubaThreshold ≤ (σ.num j).limbs.length := by
    rw [num_limbs, h.length_limbs hj]
    omega
  have hv0 : v ≠ 0 := long_not_zero (hv ▸ hki)
  have hw0 : w ≠ 0 := long_not_zero (hw ▸ hkj)
  obtain ⟨σ₂, s, hk, hres, hs⟩ := mulKaratsuba_exact (mulFuel_frame fuel)
    (mulFuel_exact fuel) hp.wf (show σ.live < _ by omega) (a := i) (b := j) (by omega) (by omega)
    (by
      rw [hcount i hi]
      unfold karatsubaThreshold at hsmall
      omega)
    (by
      unfold halfOf
      rw [hcount i hi, hcount j hj]
      unfold karatsubaThreshold at hsmall
      omega)
  have hkf := mulKaratsuba_frame (R := fun _ => False) (mulFuel_frame fuel) hp.wf (by omega)
    (by omega) (by omega) (by rw [hcount i hi]; unfold karatsubaThreshold at hsmall; omega) hk
  have ha := Puts.assign (i := i) (j := σ.live) (R := fun _ => True) hkf.wf
    (by rw [hkf.live]; omega) trivial
  refine ⟨(σ₂.assign i σ.live).popTo σ.live, ?_, ?_⟩
  · unfold mulAssignFuel
    rw [isZero_eq, isZero_eq, hv, hw, if_neg (by
      rw [Bool.or_eq_true, Num.ofInt_zero_iff, Num.ofInt_zero_iff, not_or]
      exact ⟨hv0, hw0⟩), ← hv, ← hw]
    simp only [(long_not_unit hki).1, (long_not_unit hki).2, (long_not_unit hkj).1,
      (long_not_unit hkj).2, mag_beginWrite, Bool.false_eq_true, if_false]
    rw [if_neg hsmall, hlw, hk]
    rfl
  · refine ha.num.trans (hres.trans ?_)
    rw [hs, signsAgree_of_ne (by omega) (by omega), hsign i hi, hsign j hj, hlimbs i hi, hlimbs j hj, ← num_sign,
      ← num_sign, ← num_limbs, ← num_limbs, hv, hw, Num.signed]
    simp only [decide_eq_true_eq]
    exact Num.prod_limbsOf hv0 hw0

/-- `mul` returns, with any fuel from the limb count of the operands on. -/
theorem mulFuel_stores {fuel res a b : Nat} {v w : Int} (h : σ.Wf) (hres : res < σ.live)
    (ha : a < σ.live) (hb : b < σ.live) (hv : σ.num a = Num.ofInt v) (hw : σ.num b = Num.ofInt w)
    (hfuel : max (σ.mag a).count (σ.mag b).count ≤ fuel) :
    ∃ σ', mulFuel fuel σ res a b = some σ' ∧ σ'.num res = mulStored v w (res = a) (res = b) := by
  have hbound : ∀ {k : Nat} {u : Int}, k < σ.live → σ.num k = Num.ofInt u →
      (σ.mag k).count ≤ fuel → u.natAbs < (2 ^ 32) ^ (79 + fuel) := by
    intro k u hk hu hc
    rw [← Num.mag_ofInt u, ← hu, num_limbs]
    refine Nat.lt_of_lt_of_le (mag_lt _) (Nat.pow_le_pow_right (by decide) ?_)
    rw [h.length_limbs hk]
    omega
  exact mulFuel_num fuel h hres ha hb hv hw (hbound ha hv (by omega)) (hbound hb hw (by omega))

theorem mulFuel_returns {fuel res a b : Nat} {v w : Int} (h : σ.Wf) (hres : res < σ.live)
    (ha : a < σ.live) (hb : b < σ.live) (hv : σ.num a = Num.ofInt v) (hw : σ.num b = Num.ofInt w)
    (hfuel : max (σ.mag a).count (σ.mag b).count ≤ fuel) :
    ∃ σ', mulFuel fuel σ res a b = some σ' ∧ MulResults res a b v w (σ'.num res) := by
  obtain ⟨σ', hrun, hnum⟩ := mulFuel_stores h hres ha hb hv hw hfuel
  exact ⟨σ', hrun, hnum ▸ mulStored_results res a b v w⟩

theorem mulFuel_puts {fuel res a b : Nat} {v w : Int} (h : σ.Wf) (hres : res < σ.live)
    (ha : a < σ.live) (hb : b < σ.live) (hna : res ≠ a) (hnb : res ≠ b)
    (hv : σ.num a = Num.ofInt v) (hw : σ.num b = Num.ofInt w)
    (hfuel : max (σ.mag a).count (σ.mag b).count ≤ fuel) :
    ∃ σ', mulFuel fuel σ res a b = some σ' ∧
      Puts σ res (fun k => k = a ∨ k = b) (Num.ofInt (v * w)) σ' := by
  obtain ⟨σ', hrun, hres'⟩ := mulFuel_returns h hres ha hb hv hw hfuel
  exact ⟨σ', hrun, (mulFuel_frame fuel h hres ha hb hrun).of_num (hres'.exact hna hnb)⟩

theorem mulAssignFuel_puts {fuel : Nat} {v w : Int} (h : σ.Wf) (hi : i < σ.live) (hj : j < σ.live)
    (hv : σ.num i = Num.ofInt v) (hw : σ.num j = Num.ofInt w)
    (hfuel : max (σ.mag i).count (σ.mag j).count ≤ fuel) :
    ∃ σ', mulAssignFuel fuel σ i j = some σ' ∧
      Puts σ i (fun k => k = i ∨ k = j) (Num.ofInt (v * w)) σ' := by
  obtain ⟨σ', hrun, hnum⟩ := mulAssignFuel_exact fuel h hi hj hv hw (by omega) (by omega)
  exact ⟨σ', hrun, (mulAssignFuel_frame h hi hj hrun).of_num hnum⟩

theorem mulAssignI64_puts (h : σ.Wf) (hi : i < σ.live) (k : Int) :
    ∃ σ', σ.mulAssignI64 i k = some σ' ∧
      Puts σ i (· = i) (Num.mulSmall (σ.num i) (Num.ofI64 k)) σ' := by
  have hp := pushI64_pushes (R := (· = i)) h k
  have hlive := hp.live
  have hcount : ((σ.pushI64 k).mag σ.live).count < karatsubaThreshold := by
    rw [← hp.wf.length_limbs (by omega), ← num_limbs, hp.num]
    exact Nat.lt_of_le_of_lt (Num.length_ofI64_le k) (by decide)
  obtain ⟨σ₁, hrun, hnum⟩ := mulAssignFuel_small
    (max ((σ.pushI64 k).mag i).count ((σ.pushI64 k).mag σ.live).count) hp.wf
    (i := i) (j := σ.live) (by omega) (by omega) (Or.inr hcount)
  rw [hp.num_old hi, hp.num] at hnum
  have hf := (mulAssignFuel_frame hp.wf (by omega) (by omega) hrun).of_num hnum
  refine ⟨σ₁.popTo σ.live, ?_, hp.close hf fun j hj => hj.symm.imp_right fun he => ⟨he, he ▸ hi⟩⟩
  rw [mulAssignI64, mulAssign, hrun, Option.map_some]

theorem mulAssignFuel_mono {fuel fuel' : Nat} (hle : fuel ≤ fuel')
    (hrun : mulAssignFuel fuel σ i j = some σ₁) : mulAssignFuel fuel' σ i j = some σ₁ := by
  revert hrun
  unfold mulAssignFuel
  apply ite_mono
  apply ite_mono
  apply ite_mono
  apply ite_mono
  apply ite_mono
  apply ite_mono
  simp only [Option.bind_eq_bind, Option.bind_eq_some_iff]
  rintro ⟨σ₂, hk, hrest⟩
  exact ⟨σ₂, mulKaratsuba_mono (mulFuel_mono hle) hk, hrest⟩

/-- Multiplication is exact at every size, in place and into a third object, and the paths that
end in Karatsuba agree with the ones that do not. -/
theorem multiplication_exact (h : σ.Wf) (hi : i < σ.live) (hj : j < σ.live)
    (hci : (σ.num i).Canon) (hcj : (σ.num j).Canon) :
    (∃ σ', (∀ fuel, max (σ.mag i).count (σ.mag j).count ≤ fuel →
        mulAssignFuel fuel σ i j = some σ') ∧ (σ'.num i).Canon ∧
      (σ'.num i).toInt = (σ.num i).toInt * (σ.num j).toInt ∧
      σ'.num i = Num.mulSmall (σ.num i) (σ.num j)) ∧
    ∀ res < σ.live, res ≠ i → res ≠ j →
      ∃ σ', (∀ fuel, max (σ.mag i).count (σ.mag j).count ≤ fuel →
          mulFuel fuel σ res i j = some σ') ∧ (σ'.num res).Canon ∧
        (σ'.num res).toInt = (σ.num i).toInt * (σ.num j).toInt ∧
        σ'.num res = Num.mulSmall (σ.num i) (σ.num j) := by
  have hv := hci.eq_ofInt
  have hw := hcj.eq_ofInt
  have hsmall : Num.mulSmall (σ.num i) (σ.num j) =
      Num.ofInt ((σ.num i).toInt * (σ.num j).toInt) := by
    rw [← Num.mulSmall_ofInt, ← hv, ← hw]
  have hresult : ∀ {x : Num}, x = Num.ofInt ((σ.num i).toInt * (σ.num j).toInt) →
      x.Canon ∧ x.toInt = (σ.num i).toInt * (σ.num j).toInt ∧
        x = Num.mulSmall (σ.num i) (σ.num j) := fun hx => by
    obtain ⟨hcanon, hval⟩ := Num.eq_ofInt_iff.mp hx
    exact ⟨hcanon, hval, hx.trans hsmall.symm⟩
  refine ⟨?_, fun res hres hni hnj => ?_⟩
  · obtain ⟨σ', hrun, hputs⟩ := mulAssignFuel_puts h hi hj hv hw (Nat.le_refl _)
    exact ⟨σ', fun fuel hfuel => mulAssignFuel_mono hfuel hrun, hresult hputs.num⟩
  · obtain ⟨σ', hrun, hputs⟩ := mulFuel_puts h hres hi hj hni hnj hv hw (Nat.le_refl _)
    exact ⟨σ', fun fuel hfuel => mulFuel_mono hfuel hrun, hresult hputs.num⟩

private theorem pair_shifted {v w : Int} (hv : Num.InI64 v ∧ ¬ Num.TopLimbZero v)
    (hw : Num.InI64 w ∧ ¬ Num.TopLimbZero w) (n : Nat) : ∃ σ : Store, σ.Wf ∧ σ.live = 4 ∧
      σ.num 0 = Num.ofInt (v * 2 ^ n) ∧ σ.num 1 = Num.ofInt (w * 2 ^ n) := by
  obtain ⟨hwf, hlive, h0, h1⟩ := pair_spec v w
  rw [Num.ofI64_eq hv.1 hv.2] at h0
  rw [Num.ofI64_eq hw.1 hw.2] at h1
  obtain ⟨σ₁, -, hputs₁⟩ := shiftLeftAssign_puts hwf (i := 0) (by omega) (h0 ▸ Num.shl_ofInt v n)
  have h1' := (hputs₁.keeps.num 1 (by omega) (by decide)).trans h1
  have hlive₁ := hputs₁.live.trans hlive
  obtain ⟨σ₂, -, hputs₂⟩ := shiftLeftAssign_puts hputs₁.wf (i := 1) (by omega)
    (h1' ▸ Num.shl_ofInt w n)
  exact ⟨σ₂, hputs₂.wf, hputs₂.live.trans hlive₁,
    (hputs₂.keeps.num 0 (by omega) (by decide)).trans hputs₁.num, hputs₂.num⟩

theorem multiplication_exact_karatsuba : ∃ σ σ' : Store,
    (σ.mag 0).count = 81 ∧ (σ.mag 1).count = 81 ∧ mulAssignFuel 81 σ 0 1 = some σ' ∧
      (σ'.num 0).toInt = -3 * 2 ^ (32 * 80) * (5 * 2 ^ (32 * 80)) := by
  obtain ⟨σ, hwf, hlive, h0, h1⟩ := pair_shifted (v := -3) (w := 5) (by decide) (by decide) (32 * 80)
  have hcount₀ : (σ.mag 0).count = 81 := by
    rw [← hwf.length_limbs (by omega), ← num_limbs, h0,
      Num.length_ofInt_shl (by decide) (by decide)]
  have hcount₁ : (σ.mag 1).count = 81 := by
    rw [← hwf.length_limbs (by omega), ← num_limbs, h1,
      Num.length_ofInt_shl (by decide) (by decide)]
  obtain ⟨⟨σ', hrun, -, hval, -⟩, -⟩ := multiplication_exact hwf (i := 0) (j := 1) (by omega)
    (by omega) (h0 ▸ Num.ofInt_canon _) (h1 ▸ Num.ofInt_canon _)
  rw [h0, h1, Num.toInt_ofInt, Num.toInt_ofInt] at hval
  exact ⟨σ, σ', hcount₀, hcount₁, hrun 81 (by omega), hval⟩

end Store

end PGBigNumber
