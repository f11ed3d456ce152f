import PGBigNumber.Store.Steps

/-!
# Additive member functions and shifts

Each function is followed from the source as a chain of primitive steps. Its lemma says that the
chain stores the number computed by the operation of the same name on `Num`, whatever is shared or
aliased.
-/

namespace PGBigNumber

namespace Store

/-- `cmp`; the test on shared vectors comes before the comparison of magnitudes. -/
def cmp (σ : Store) (i j : Nat) : Int :=
  if (σ.sign i).signum < (σ.sign j).signum then -1
  else if (σ.sign i).signum > (σ.sign j).signum then 1
  else if (σ.sign i).signum = 0 then 0
  else if (σ.obj i).data = (σ.obj j).data ∧ (σ.obj i).lo = (σ.obj j).lo ∧
      (σ.obj i).hi = (σ.obj j).hi then 0
  else
    let magCmp := cmpMag (σ.mag i) (σ.mag j)
    if magCmp = 0 then 0 else if (σ.sign i).signum = 1 then magCmp else -magCmp

def inc (σ : Store) (i : Nat) : Store :=
  let σ := (σ.beginWrite i).cloneData i
  if σ.isZero i then σ.beOne i
  else if (σ.sign i).positive then σ.putMag i (PGBigNumber.inc (σ.mag i))
  else
    let σ := σ.putMag i (PGBigNumber.dec (σ.mag i))
    if (σ.mag i).count = 0 then σ.beZero i else σ

def dec (σ : Store) (i : Nat) : Store :=
  let σ := (σ.beginWrite i).cloneData i
  if σ.isZero i then σ.beNegOne i
  else if (σ.sign i).positive then
    let σ := σ.putMag i (PGBigNumber.dec (σ.mag i))
    if (σ.mag i).count = 0 then σ.beZero i else σ
  else σ.putMag i (PGBigNumber.inc (σ.mag i))

/-- The right operand of `addMag` when object `j` is added to object `i`. -/
def operand (σ : Store) (i j : Nat) : Operand := if i = j then .self else .other (σ.mag j)

def addMagAssign (σ : Store) (i j : Nat) : Store :=
  let σ := σ.cloneData i
  σ.putMag i (addMag (σ.mag i) (σ.operand i j))

/-- The end of `addAssign` and `subAssign`, from the comparison of the magnitudes on. The local
`copy` of the negative branch is cloned at once, so it enters as a value. -/
def diffAssign (σ : Store) (i j : Nat) : Store :=
  let cmp := cmpMag (σ.mag i) (σ.mag j)
  if cmp = 0 then σ.beZero i
  else
    let σ :=
      if cmp > 0 then
        let σ := σ.cloneData i
        σ.putMag i (subMag (σ.mag i) (σ.mag j))
      else σ.newMag i (subMag (σ.mag j).clone (σ.mag i))
    let σ := σ.putMag i (eraseZerosSuffix (σ.mag i))
    σ.setSign i (if (σ.sign i).signum = cmp then .pos else .neg)

def addAssign (σ : Store) (i j : Nat) : Store :=
  if σ.isZero j then σ
  else if σ.isZero i then σ.assign i j
  else
    let σ := σ.beginWrite i
    if σ.sign i = σ.sign j then σ.addMagAssign i j else σ.diffAssign i j

def subAssign (σ : Store) (i j : Nat) : Store :=
  if σ.isZero j then σ
  else if σ.isZero i then (σ.assign i j).negate i
  else if i = j then σ.beZero i
  else if σ.sign i = σ.sign j ∧ (σ.obj i).data = (σ.obj j).data ∧
      (σ.obj i).lo = (σ.obj j).lo ∧ (σ.obj i).hi = (σ.obj j).hi then σ.beZero i
  else
    let σ := σ.beginWrite i
    if σ.sign i = σ.sign j then σ.diffAssign i j else σ.addMagAssign i j

/-- `shiftLeftAssign`; no result where `shlMag` reads past an empty slice. -/
def shiftLeftAssign (σ : Store) (i n : Nat) : Option Store :=
  if σ.isZero i then some σ
  else if n > 0 then
    let σ := (σ.beginWrite i).cloneData i
    (shlMag (σ.mag i) n).map (σ.putMag i)
  else some σ

def shiftRightAssign (σ : Store) (i n : Nat) : Store :=
  if σ.isZero i then σ
  else if n > 0 then
    if n / 32 ≥ (σ.mag i).count then
      if (σ.sign i).negative then σ.beNegOne i else σ.beZero i
    else
      let lost := (σ.sign i).negative && Num.lostOne (σ.limbs i) n
      let σ := (σ.beginWrite i).cloneData i
      let σ := σ.putMag i (shrMag (σ.mag i) n)
      if (σ.mag i).count = 0 then if lost then σ.beNegOne i else σ.beZero i
      else if lost then σ.putMag i (PGBigNumber.inc (σ.mag i)) else σ
  else σ

variable {σ σ₁ σ₂ : Store} {i j n : Nat} {S R Q : Nat → Prop} {x y : Num}

theorem num_beZero : (σ.beZero i).num i = Num.zero := by
  simp only [num_eq, Store.beZero, sign_modify_self]
  rw [mag_modify (by simp), mag_newMag_self]
  rfl

theorem num_beUnit (t : Sign) : (σ.beUnit i t).num i = ⟨t, [1]⟩ := by
  simp only [num_eq, Store.beUnit, sign_modify_self]
  rw [mag_modify (by simp), mag_newMag_self]
  rfl

theorem Puts.beZero (h : σ.Wf) : Puts σ i R Num.zero (σ.beZero i) :=
  .of_keeps live_beZero (.beZero h.good rfl) num_beZero (by simp [Store.beZero])

theorem Puts.beUnit (h : σ.Wf) (t : Sign) : Puts σ i R ⟨t, [1]⟩ (σ.beUnit i t) := by
  refine ⟨live_beUnit, Keeps.beUnit (S := (· = i)) h.good rfl t, num_beUnit t, fun _ _ => ?_⟩
  have hl : (σ.beUnit i t).limbs i = [1] := congrArg Num.limbs (num_beUnit t)
  rw [hl]
  simp [Store.beUnit, firstNz]

theorem Puts.beOne (h : σ.Wf) : Puts σ i R Num.one (σ.beOne i) := .beUnit h _

theorem Puts.beNegOne (h : σ.Wf) : Puts σ i R Num.negOne (σ.beNegOne i) := .beUnit h _

theorem Puts.assign (h : σ.Wf) (hj : j < σ.live) (hR : R j) :
    Puts σ i R (σ.num j) (σ.assign i j) := by
  by_cases hij : i = j
  · subst hij
    rw [Store.assign, if_pos rfl]
    exact .refl h hR
  · have hobj : (σ.assign i j).obj i = σ.obj j := by
      rw [Store.assign, if_neg hij, obj_modify_self]
    have hlimbs : (σ.assign i j).limbs i = σ.limbs j := by
      rw [limbs, limbs, mag, hobj, Store.assign, if_neg hij]
      rfl
    refine ⟨live_assign, .assign h.good rfl hj, ?_, fun hc => ?_⟩
    · change (⟨((σ.assign i j).obj i).sign, (σ.assign i j).limbs i⟩ : Num) = _
      rw [hlimbs, hobj]
      rfl
    · unfold CacheOk
      rw [hobj, hlimbs]
      exact hc j hR

theorem Puts.setSign (h : σ.Wf) (hR : R i) (t : Sign) :
    Puts σ i R ⟨t, σ.limbs i⟩ (σ.setSign i t) := by
  refine ⟨rfl, Keeps.setSign (S := (· = i)) h.good rfl t, ?_, fun hc => ?_⟩
  · rw [num_eq, sign_setSign_self, mag_setSign]
    rfl
  · have hi := hc i hR
    unfold CacheOk at hi ⊢
    rw [calcued_setSign, limbs_eq, mag_setSign]
    simpa [Store.setSign, limbs_eq] using hi

theorem Puts.negate (h : σ.Wf) (hR : R i) : Puts σ i R (σ.num i).negate (σ.negate i) := by
  unfold Store.negate Num.negate isZero
  by_cases h0 : (σ.sign i).zero = true
  · rw [if_pos h0, num_sign, if_pos h0]
    exact .refl h hR
  · rw [if_neg h0, num_sign, if_neg h0]
    exact .setSign h hR _

theorem Puts.abs (h : σ.Wf) (hR : R i) : Puts σ i R (σ.num i).abs (σ.abs i) := by
  unfold Store.abs Num.abs
  by_cases hneg : (σ.sign i).negative = true
  · rw [if_pos hneg, num_sign, if_pos hneg]
    exact .negate h hR
  · rw [if_neg hneg, num_sign, if_neg hneg]
    exact .refl h hR

theorem Keeps.write (h : Good n σ) (hi : i < σ.live) (hS : S i) {s : Slice UInt32} (hs : s.Wf) :
    Keeps n S σ ((σ.cloneData i).putMag i s) :=
  (Keeps.cloneData h hS).then fun h₁ => .putMag h₁ hS hs (Sole.cloneData h.wf hi)

theorem mag_newMag_ne (h : σ.Wf) (hj : j < σ.live) (hji : j ≠ i) (s : Slice UInt32) :
    (σ.newMag i s).mag j = σ.mag j := by
  have hne : (σ.obj j).data ≠ σ.next := Nat.ne_of_lt (h j hj).2
  simp only [mag, newMag, Function.update_of_ne hji, Function.update_of_ne hne]

theorem mag_cloneData_ne (h : σ.Wf) (hj : j < σ.live) (hji : j ≠ i) :
    (σ.cloneData i).mag j = σ.mag j := by
  unfold Store.cloneData
  split
  · rfl
  · exact mag_newMag_ne h hj hji _

theorem mag_cloneData_wf (h : σ.Wf) (hi : i < σ.live) : ((σ.cloneData i).mag i).Wf :=
  ((Keeps.cloneData (S := (· = i)) h.good rfl).good.wf i (by rwa [live_cloneData])).1

theorem Puts.cloneWrite (h : σ.Wf) (hi : i < σ.live) (hcache : (σ.obj i).calcued = false)
    {s : Slice UInt32} (hs : s.Wf) :
    Puts σ i R ⟨σ.sign i, s.toList⟩ ((σ.cloneData i).putMag i s) := by
  refine .of_keeps (by simp) (Keeps.write (S := (· = i)) h.good hi rfl hs) ?_ (by simpa)
  rw [num_eq, mag_putMag_self, sign_putMag, sign_cloneData]

theorem Puts.beginWrite (h : σ.Wf) : Puts σ i R (σ.num i) (σ.beginWrite i) := by
  refine .of_keeps (by simp) (Keeps.beginWrite (S := (· = i)) h.good rfl) ?_ (by simp)
  rw [num_eq, mag_beginWrite, sign_beginWrite]
  rfl

theorem Puts.write (h : σ.Wf) (hi : i < σ.live) {s : Slice UInt32} (hs : s.Wf) :
    Puts σ i R ⟨σ.sign i, s.toList⟩ (((σ.beginWrite i).cloneData i).putMag i s) := by
  have hb := Puts.beginWrite (i := i) (R := R) h
  have hw := Puts.cloneWrite (R := R) hb.wf hi calcued_beginWrite_self hs
  rw [sign_beginWrite] at hw
  exact ⟨hw.live, hb.keeps.then fun _ => hw.keeps, hw.num, fun _ => .of_not_calcued (by simp)⟩

theorem Puts.put (h : σ.Wf) (hsole : σ.Sole i) (hcache : (σ.obj i).calcued = false)
    {s : Slice UInt32} (hs : s.Wf) : Puts σ i R ⟨σ.sign i, s.toList⟩ (σ.putMag i s) := by
  refine .of_keeps rfl (Keeps.putMag (S := (· = i)) h.good rfl hs hsole) ?_ (by simpa)
  rw [num_eq, mag_putMag_self, sign_putMag]

theorem toList_ready : (((σ.beginWrite i).cloneData i).mag i).toList = σ.limbs i := by
  rw [← limbs_eq, limbs_cloneData_self, limbs_eq, mag_beginWrite]
  rfl

theorem ready_wf (h : σ.Wf) (hi : i < σ.live) : (((σ.beginWrite i).cloneData i).mag i).Wf :=
  mag_cloneData_wf (Puts.beginWrite (R := fun _ => False) h).wf hi

theorem Sole.ready (h : σ.Wf) (hi : i < σ.live) : ((σ.beginWrite i).cloneData i).Sole i :=
  Sole.cloneData (Puts.beginWrite (R := fun _ => False) h).wf hi

theorem Puts.ready (h : σ.Wf) : Puts σ i R (σ.num i) ((σ.beginWrite i).cloneData i) := by
  refine .of_keeps (by simp) ?_ ?_ (by simp)
  · exact (Puts.beginWrite h (R := fun _ => False)).keeps.then fun h₁ =>
      Keeps.cloneData (S := (· = i)) h₁ rfl
  · rw [num_eq, toList_ready, sign_cloneData, sign_beginWrite]
    rfl

/-- Object `i` shows `t` and `l`, holds its vector alone and has no cache: it can be written
through `m_mag`. -/
structure Opened (σ : Store) (i : Nat) (R : Nat → Prop) (t : Sign) (l : List UInt32) (σ' : Store) :
    Prop where
  puts : Puts σ i R ⟨t, l⟩ σ'
  sole : σ'.Sole i
  calcued : (σ'.obj i).calcued = false

theorem opened_ready (h : σ.Wf) (hi : i < σ.live) (t : Sign) :
    Opened σ i R t (σ.limbs i) (((σ.beginWrite i).cloneData i).setFlags i t) := by
  have hready := Puts.ready (i := i) (R := R) h
  refine ⟨.of_keeps hready.live (hready.keeps.then fun hg =>
    Keeps.setFlags (S := (· = i)) hg rfl t) ?_ (by simp), (Sole.ready h hi).modify (by simp), by simp⟩
  rw [num_eq, sign_setFlags_self, mag_setFlags, toList_ready]

theorem Opened.wf_mag {t : Sign} {l : List UInt32} (ho : Opened σ i R t l σ₁) (hi : i < σ.live) :
    (σ₁.mag i).Wf := (ho.puts.wf i (by rw [ho.puts.live]; exact hi)).1

theorem Opened.toList {t : Sign} {l : List UInt32} (ho : Opened σ i R t l σ₁) :
    (σ₁.mag i).toList = l := by
  rw [← limbs_eq, ← num_limbs, ho.puts.num]

theorem Opened.put {t : Sign} {l : List UInt32} (ho : Opened σ i R t l σ₁) {s : Slice UInt32}
    (hs : s.Wf) : Opened σ i R t s.toList (σ₁.putMag i s) := by
  have hput := Puts.put (R := fun _ => False) ho.puts.wf ho.sole ho.calcued hs
  rw [← num_sign, ho.puts.num] at hput
  exact ⟨ho.puts.trans hput fun _ hf => hf.elim, ho.sole.putMag, by simpa using ho.calcued⟩

theorem Opened.setFlags {t : Sign} {l : List UInt32} (ho : Opened σ i R t l σ₁) (t' : Sign) :
    Opened σ i R t' l (σ₁.setFlags i t') := by
  refine ⟨.of_keeps ho.puts.live (ho.puts.keeps.then fun hg =>
    Keeps.setFlags (S := (· = i)) hg rfl t') ?_ (by simp), ho.sole.modify (by simp), by simp⟩
  rw [num_eq, sign_setFlags_self, mag_setFlags, ho.toList]

theorem Puts.erase (h : σ.Wf) (hi : i < σ.live) (hcache : (σ.obj i).calcued = false) :
    Puts σ i R ⟨σ.sign i, trim (σ.limbs i)⟩ (σ.putMag i (eraseZerosSuffix (σ.mag i))) := by
  have hwf := (h i hi).1
  refine .of_keeps rfl (Keeps.putMag_data (S := (· = i)) h.good rfl (eraseZerosSuffix_wf hwf)
    (eraseZerosSuffix_data hwf)) ?_ (by simpa)
  rw [num_eq, mag_putMag_self, sign_putMag, toList_eraseZerosSuffix hwf]
  rfl

theorem Puts.newMag (h : σ.Wf) (hcache : (σ.obj i).calcued = false) {s : Slice UInt32}
    (hs : s.Wf) : Puts σ i R ⟨σ.sign i, s.toList⟩ (σ.newMag i s) := by
  refine .of_keeps rfl (Keeps.newMag (S := (· = i)) h.good rfl hs) ?_ (by simpa)
  rw [num_eq, mag_newMag_self, sign_newMag]

theorem Puts.zeroIfEmpty {t : Sign} {l : List UInt32} (hp : Puts σ i R ⟨t, l⟩ σ₁)
    (hi : i < σ.live) :
    Puts σ i R (if l = [] then Num.zero else ⟨t, l⟩)
      (if (σ₁.mag i).count = 0 then σ₁.beZero i else σ₁) := by
  have hcount : (σ₁.mag i).count = 0 ↔ l = [] := by
    have hlimbs := congrArg Num.limbs hp.num
    rw [num_limbs] at hlimbs
    rw [← Slice.toList_eq_nil_iff (hp.wf i (by rw [hp.live]; exact hi)).1, ← limbs_eq, hlimbs]
  by_cases hnil : l = []
  · rw [if_pos hnil, if_pos (hcount.mpr hnil)]
    exact hp.trans (Q := fun _ => False) (.beZero hp.wf) fun _ hf => hf.elim
  · rw [if_neg hnil, if_neg (mt hcount.mp hnil)]
    exact hp

private theorem puts_write_or_zero (h : σ.Wf) (hi : i < σ.live) {s : Slice UInt32} (hs : s.Wf) :
    Puts σ i R (if s.toList = [] then Num.zero else ⟨σ.sign i, s.toList⟩)
      (let σ₁ := ((σ.beginWrite i).cloneData i).putMag i s
       if (σ₁.mag i).count = 0 then σ₁.beZero i else σ₁) :=
  (Puts.write h hi hs).zeroIfEmpty hi

theorem inc_puts (h : σ.Wf) (hi : i < σ.live) : Puts σ i R (σ.num i).inc (σ.inc i) := by
  have hwf := ready_wf h hi
  have hlist : (((σ.beginWrite i).cloneData i).mag i).toList = σ.limbs i := toList_ready
  have hready := Puts.ready (i := i) (R := R) h
  unfold Store.inc Num.inc isZero
  simp only [sign_cloneData, sign_beginWrite, num_sign, num_limbs]
  by_cases h0 : (σ.sign i).zero = true
  · rw [if_pos h0, if_pos h0]
    exact hready.trans (Q := fun _ => False) (.beOne hready.wf) (fun _ hf => hf.elim)
  rw [if_neg h0, if_neg h0]
  by_cases hp : (σ.sign i).positive = true
  · rw [if_pos hp, if_pos hp, ← hlist, ← toList_inc hwf]
    exact .write h hi (inc_wf hwf)
  · rw [if_neg hp, if_neg hp, ← hlist, ← toList_dec hwf]
    exact puts_write_or_zero h hi (dec_wf hwf)

theorem dec_puts (h : σ.Wf) (hi : i < σ.live) : Puts σ i R (σ.num i).dec (σ.dec i) := by
  have hwf := ready_wf h hi
  have hlist : (((σ.beginWrite i).cloneData i).mag i).toList = σ.limbs i := toList_ready
  have hready := Puts.ready (i := i) (R := R) h
  unfold Store.dec Num.dec isZero
  simp only [sign_cloneData, sign_beginWrite, num_sign, num_limbs]
  by_cases h0 : (σ.sign i).zero = true
  · rw [if_pos h0, if_pos h0]
    exact hready.trans (Q := fun _ => False) (.beNegOne hready.wf) (fun _ hf => hf.elim)
  rw [if_neg h0, if_neg h0]
  by_cases hp : (σ.sign i).positive = true
  · rw [if_pos hp, if_pos hp, ← hlist, ← toList_dec hwf]
    exact puts_write_or_zero h hi (dec_wf hwf)
  · rw [if_neg hp, if_neg hp, ← hlist, ← toList_inc hwf]
    exact .write h hi (inc_wf hwf)

theorem operand_wf (h : σ.Wf) (hj : j < σ.live) : (σ.operand i j).Wf := by
  unfold operand
  split
  · trivial
  · exact (h j hj).1

/-- Whether the operand is the written object or not, it shows the limbs of `j`. -/
theorem toList_operand : (σ.operand i j).toList (σ.mag i) = σ.limbs j := by
  unfold operand
  split
  next hij => rw [hij]; rfl
  next => rfl

theorem limbs_cloneData (h : σ.Wf) (hj : j < σ.live) : (σ.cloneData i).limbs j = σ.limbs j := by
  by_cases hji : j = i
  · rw [hji, limbs_cloneData_self]
  · rw [limbs, limbs, mag_cloneData_ne h hj hji]

theorem addMagAssign_puts (h : σ.Wf) (hi : i < σ.live) (hj : j < σ.live)
    (hcache : (σ.obj i).calcued = false) :
    Puts σ i R ⟨σ.sign i, addLimbs (σ.limbs i) (σ.limbs j)⟩ (σ.addMagAssign i j) := by
  have hwf := mag_cloneData_wf h hi
  have hclone : (σ.cloneData i).Wf := (Keeps.cloneData (S := (· = i)) h.good rfl).good.wf
  have hop : ((σ.cloneData i).operand i j).Wf := operand_wf hclone (by simpa)
  have hlist : (addMag ((σ.cloneData i).mag i) ((σ.cloneData i).operand i j)).toList =
      addLimbs (σ.limbs i) (σ.limbs j) := by
    rw [toList_addMag hwf hop, toList_operand, ← limbs_eq, limbs_cloneData h hi,
      limbs_cloneData h hj]
  rw [← hlist]
  exact .cloneWrite h hi hcache (addMag_wf _ hwf)

private theorem diff_mag_puts (h : σ.Wf) (hi : i < σ.live) (hj : j < σ.live)
    (hcache : (σ.obj i).calcued = false) :
    Puts σ i R
      ⟨σ.sign i, if cmpMag (σ.mag i) (σ.mag j) > 0 then subLimbs (σ.limbs i) (σ.limbs j)
        else subLimbs (σ.limbs j) (σ.limbs i)⟩
      (if cmpMag (σ.mag i) (σ.mag j) > 0 then
        (σ.cloneData i).putMag i (subMag ((σ.cloneData i).mag i) ((σ.cloneData i).mag j))
      else σ.newMag i (subMag (σ.mag j).clone (σ.mag i))) := by
  have hcmp := cmpMag_eq (h i hi).1 (h j hj).1
  by_cases hgt : cmpMag (σ.mag i) (σ.mag j) > 0
  · rw [if_pos hgt, if_pos hgt]
    have hlen : (σ.limbs j).length ≤ (σ.limbs i).length :=
      length_le_of_cmpLimbs (by rw [hcmp] at hgt; exact hgt.le)
    have hwf := mag_cloneData_wf h hi
    have hlist : (subMag ((σ.cloneData i).mag i) ((σ.cloneData i).mag j)).toList =
        subLimbs (σ.limbs i) (σ.limbs j) := by
      rw [toList_subMag hwf] <;> rw [← limbs_eq, ← limbs_eq, limbs_cloneData h hi,
        limbs_cloneData h hj]
      exact hlen
    rw [← hlist]
    exact .cloneWrite h hi hcache (subMag_wf _ hwf)
  · rw [if_neg hgt, if_neg hgt]
    have hlen : (σ.limbs i).length ≤ (σ.limbs j).length :=
      length_le_of_cmpLimbs_neg (by rw [hcmp] at hgt; exact Int.not_lt.mp hgt)
    have hlist : (subMag (σ.mag j).clone (σ.mag i)).toList =
        subLimbs (σ.limbs j) (σ.limbs i) := by
      rw [toList_subMag (Slice.clone_wf _) (by rw [Slice.toList_clone]; exact hlen),
        Slice.toList_clone]
      rfl
    rw [← hlist]
    exact .newMag h hcache (subMag_wf _ (Slice.clone_wf _))

theorem diffAssign_puts (h : σ.Wf) (hi : i < σ.live) (hj : j < σ.live)
    (hcache : (σ.obj i).calcued = false) :
    Puts σ i R (Num.diff (σ.num i) (σ.num j)) (σ.diffAssign i j) := by
  have hcmp := cmpMag_eq (h i hi).1 (h j hj).1
  unfold Store.diffAssign Num.diff
  simp only [num_sign, num_limbs, limbs_eq, ← hcmp]
  by_cases h0 : cmpMag (σ.mag i) (σ.mag j) = 0
  · rw [if_pos h0, if_pos h0]
    exact .beZero h
  rw [if_neg h0, if_neg h0]
  have hd := diff_mag_puts (R := R) h hi hj hcache
  set σ₁ := if cmpMag (σ.mag i) (σ.mag j) > 0 then
      (σ.cloneData i).putMag i (subMag ((σ.cloneData i).mag i) ((σ.cloneData i).mag j))
    else σ.newMag i (subMag (σ.mag j).clone (σ.mag i)) with hσ₁
  have hc₁ : (σ₁.obj i).calcued = false := by
    rw [hσ₁]
    split <;> simpa
  have hi₁ : i < σ₁.live := by rw [hd.live]; exact hi
  have hsign : σ₁.sign i = σ.sign i := congrArg Num.sign hd.num
  have hlimbs := congrArg Num.limbs hd.num
  simp only [num_limbs] at hlimbs
  have he := Puts.erase (R := fun _ => False) hd.wf hi₁ hc₁
  rw [hlimbs] at he
  have hs := Puts.setSign (R := (· = i)) he.wf rfl
    (if (σ₁.sign i).signum = cmpMag (σ.mag i) (σ.mag j) then .pos else .neg)
  have hl := congrArg Num.limbs he.num
  simp only [num_limbs] at hl
  rw [hl, hsign] at hs
  rw [sign_putMag, hsign]
  exact (hd.trans he fun _ hf => hf.elim).trans hs fun _ hR => Or.inl hR

@[simp]
theorem limbs_beginWrite (k : Nat) : (σ.beginWrite i).limbs k = σ.limbs k := by
  rw [limbs_eq, mag_beginWrite]
  rfl

@[simp]
theorem num_beginWrite (k : Nat) : (σ.beginWrite i).num k = σ.num k := by
  rw [num, num, sign_beginWrite, limbs_beginWrite]

theorem addAssign_puts (h : σ.Wf) (hi : i < σ.live) (hj : j < σ.live) :
    Puts σ i (fun k => k = i ∨ k = j) (Num.add (σ.num i) (σ.num j)) (σ.addAssign i j) := by
  unfold Store.addAssign Num.add isZero
  simp only [num_sign, num_limbs, sign_beginWrite]
  by_cases h0 : (σ.sign j).zero = true
  · rw [if_pos h0, if_pos h0]
    exact .refl h (Or.inl rfl)
  rw [if_neg h0, if_neg h0]
  by_cases h1 : (σ.sign i).zero = true
  · rw [if_pos h1, if_pos h1]
    exact .assign h hj (Or.inr rfl)
  rw [if_neg h1, if_neg h1]
  have hb := Puts.beginWrite (i := i) (R := fun k => k = i ∨ k = j) h
  by_cases hs : σ.sign i = σ.sign j
  · rw [if_pos hs, if_pos hs]
    have ha := addMagAssign_puts (R := fun _ => False) hb.wf hi hj calcued_beginWrite_self
    rw [sign_beginWrite, limbs_beginWrite, limbs_beginWrite] at ha
    exact hb.trans ha fun _ hf => hf.elim
  · rw [if_neg hs, if_neg hs]
    have hd := diffAssign_puts (R := fun _ => False) hb.wf hi hj calcued_beginWrite_self
    rw [num_beginWrite, num_beginWrite] at hd
    exact hb.trans hd fun _ hf => hf.elim

private theorem diff_of_weakEquals (x : Num) (y : Num) (h : x.limbs = y.limbs) :
    Num.diff x y = Num.zero := by
  unfold Num.diff
  dsimp only
  rw [h, cmpLimbs_self, if_pos rfl]

theorem subAssign_puts (h : σ.Wf) (hi : i < σ.live) (hj : j < σ.live) :
    Puts σ i (fun k => k = i ∨ k = j) (Num.sub (σ.num i) (σ.num j)) (σ.subAssign i j) := by
  unfold Store.subAssign Num.sub isZero
  simp only [num_sign, num_limbs, sign_beginWrite]
  by_cases h0 : (σ.sign j).zero = true
  · rw [if_pos h0, if_pos h0]
    exact .refl h (Or.inl rfl)
  rw [if_neg h0, if_neg h0]
  by_cases h1 : (σ.sign i).zero = true
  · rw [if_pos h1, if_pos h1]
    have ha := Puts.assign (i := i) (R := fun k => k = i ∨ k = j) h hj (Or.inr rfl)
    have hn := Puts.negate (i := i) (R := (· = i)) ha.wf rfl
    rw [ha.num] at hn
    exact ha.trans hn fun _ hR => Or.inl hR
  rw [if_neg h1, if_neg h1]
  by_cases hij : i = j
  · subst hij
    rw [if_pos rfl, if_pos rfl, diff_of_weakEquals _ _ rfl]
    exact .beZero h
  rw [if_neg hij]
  by_cases hw : σ.sign i = σ.sign j ∧ (σ.obj i).data = (σ.obj j).data ∧
      (σ.obj i).lo = (σ.obj j).lo ∧ (σ.obj i).hi = (σ.obj j).hi
  · have hmag : σ.mag i = σ.mag j := by
      simp only [mag, hw.2.1, hw.2.2.1, hw.2.2.2]
    rw [if_pos hw, if_pos hw.1, diff_of_weakEquals _ _ (by rw [num_limbs, num_limbs, limbs, hmag]; rfl)]
    exact .beZero h
  rw [if_neg hw]
  have hb := Puts.beginWrite (i := i) (R := fun k => k = i ∨ k = j) h
  by_cases hs : σ.sign i = σ.sign j
  · rw [if_pos hs, if_pos hs]
    have hd := diffAssign_puts (R := fun _ => False) hb.wf hi hj calcued_beginWrite_self
    rw [num_beginWrite, num_beginWrite] at hd
    exact hb.trans hd fun _ hf => hf.elim
  · rw [if_neg hs, if_neg hs]
    have ha := addMagAssign_puts (R := fun _ => False) hb.wf hi hj calcued_beginWrite_self
    rw [sign_beginWrite, limbs_beginWrite, limbs_beginWrite] at ha
    exact hb.trans ha fun _ hf => hf.elim

theorem shiftLeftAssign_puts (h : σ.Wf) (hi : i < σ.live) {k : Nat}
    (hx : Num.shl (σ.num i) k = some x) :
    ∃ σ₁, σ.shiftLeftAssign i k = some σ₁ ∧ Puts σ i (· = i) x σ₁ := by
  unfold Num.shl at hx
  unfold Store.shiftLeftAssign isZero
  simp only [num_sign, num_limbs, gt_iff_lt] at hx ⊢
  by_cases h0 : (σ.sign i).zero = true
  · rw [if_pos h0] at hx ⊢
    exact ⟨σ, rfl, Option.some.inj hx ▸ .refl h rfl⟩
  rw [if_neg h0] at hx ⊢
  by_cases hk : k = 0
  · rw [if_pos hk] at hx
    rw [if_neg (by omega)]
    exact ⟨σ, rfl, Option.some.inj hx ▸ .refl h rfl⟩
  rw [if_neg hk] at hx
  rw [if_pos (by omega)]
  have hwf := ready_wf h hi
  have hlist : (((σ.beginWrite i).cloneData i).mag i).toList = σ.limbs i := toList_ready
  by_cases hnil : σ.limbs i = []
  · by_cases hbits : k % 32 = 0
    · rw [if_neg (by simp [hbits])] at hx
      have hs : shlMag (((σ.beginWrite i).cloneData i).mag i) k =
          some ((((σ.beginWrite i).cloneData i).mag i).preExtend (k / 32)) := by
        unfold shlMag
        exact if_pos hbits
      have hl := Slice.toList_preExtend hwf (k / 32)
      have hput := Puts.write (R := (· = i)) h hi (Slice.preExtend_wf hwf (k / 32))
      rw [hl, hlist] at hput
      rw [hs]
      refine ⟨_, rfl, ?_⟩
      rw [← Option.some.inj hx, shlLimbs, if_pos hbits]
      exact hput
    · rw [if_pos ⟨hnil, hbits⟩] at hx
      exact absurd hx (by simp)
  · rw [if_neg fun hc => hnil hc.1] at hx
    obtain ⟨s, hs, hswf, hsl⟩ := shlMag_spec hwf (n := k) (by rwa [hlist])
    have hput := Puts.write (R := (· = i)) h hi hswf
    rw [hsl, hlist] at hput
    rw [hs]
    exact ⟨_, rfl, Option.some.inj hx ▸ hput⟩

theorem shiftLeftAssign_eq_none (h : σ.Wf) (hi : i < σ.live) {k : Nat}
    (hx : Num.shl (σ.num i) k = none) : σ.shiftLeftAssign i k = none := by
  unfold Num.shl at hx
  unfold Store.shiftLeftAssign isZero
  simp only [num_sign, num_limbs, gt_iff_lt] at hx ⊢
  by_cases h0 : (σ.sign i).zero = true
  · rw [if_pos h0] at hx
    exact absurd hx (by simp)
  rw [if_neg h0] at hx ⊢
  by_cases hk : k = 0
  · rw [if_pos hk] at hx
    exact absurd hx (by simp)
  rw [if_neg hk] at hx
  rw [if_pos (by omega)]
  by_cases hnil : σ.limbs i = [] ∧ k % 32 ≠ 0
  · have hcount : (((σ.beginWrite i).cloneData i).mag i).count = 0 := by
      rw [← Slice.length_toList (ready_wf h hi), toList_ready, hnil.1]
      rfl
    have hs : shlMag (((σ.beginWrite i).cloneData i).mag i) k = none := by
      unfold shlMag
      rw [if_neg hnil.2, if_pos hcount]
    rw [hs]
    rfl
  · rw [if_neg hnil] at hx
    exact absurd hx (by simp)

theorem shiftLeftAssign_spec (h : σ.Wf) (hi : i < σ.live) {k : Nat}
    (hrun : σ.shiftLeftAssign i k = some σ₁) :
    ∃ x, Num.shl (σ.num i) k = some x ∧ Puts σ i (· = i) x σ₁ := by
  cases hx : Num.shl (σ.num i) k with
  | none =>
      rw [shiftLeftAssign_eq_none h hi hx] at hrun
      exact absurd hrun (by simp)
  | some x =>
      obtain ⟨σ₂, hrun₂, hputs⟩ := shiftLeftAssign_puts h hi hx
      rw [hrun₂] at hrun
      exact ⟨x, rfl, Option.some.inj hrun ▸ hputs⟩

theorem shiftRightAssign_puts (h : σ.Wf) (hi : i < σ.live) (k : Nat) :
    Puts σ i (· = i) (Num.shr (σ.num i) k) (σ.shiftRightAssign i k) := by
  have hcount := h.length_limbs hi
  unfold Store.shiftRightAssign Num.shr isZero
  simp only [num_sign, num_limbs, hcount, ge_iff_le, gt_iff_lt]
  by_cases h0 : (σ.sign i).zero = true
  · rw [if_pos h0, if_pos h0]
    exact .refl h rfl
  rw [if_neg h0, if_neg h0]
  by_cases hk : k = 0
  · rw [if_pos hk, if_neg (by omega)]
    exact .refl h rfl
  rw [if_neg hk, if_pos (Nat.pos_of_ne_zero hk)]
  by_cases hout : (σ.mag i).count ≤ k / 32
  · rw [if_pos hout, if_pos hout]
    by_cases hneg : (σ.sign i).negative = true
    · rw [if_pos hneg, if_pos hneg]
      exact .beNegOne h
    · rw [if_neg hneg, if_neg hneg]
      exact .beZero h
  rw [if_neg hout, if_neg hout]
  have hwf := ready_wf h hi
  have hlist : (shrMag (((σ.beginWrite i).cloneData i).mag i) k).toList =
      shrLimbs (σ.limbs i) k := by rw [toList_shrMag hwf, toList_ready]
  have hswf := shrMag_wf hwf k
  have hw := Puts.write (R := (· = i)) h hi hswf
  rw [mag_putMag_self, ← hlist]
  generalize ((σ.sign i).negative && Num.lostOne (σ.limbs i) k) = lost
  by_cases hnil : (shrMag (((σ.beginWrite i).cloneData i).mag i) k).toList = []
  · rw [if_pos ((Slice.toList_eq_nil_iff hswf).mp hnil), if_pos hnil]
    cases lost
    · exact hw.trans (Q := fun _ => False) (.beZero hw.wf) fun _ hf => hf.elim
    · exact hw.trans (Q := fun _ => False) (.beNegOne hw.wf) fun _ hf => hf.elim
  · rw [if_neg fun hc => hnil ((Slice.toList_eq_nil_iff hswf).mpr hc), if_neg hnil]
    cases lost
    · exact hw
    · have hput := Puts.put (R := fun _ => False) hw.wf (Sole.putMag (Sole.ready h hi))
        (by simp) (inc_wf hswf)
      rw [toList_inc hswf] at hput
      simp only [sign_putMag, sign_cloneData, sign_beginWrite] at hput
      exact hw.trans hput fun _ hf => hf.elim

theorem cmp_eq (h : σ.Wf) (hi : i < σ.live) (hj : j < σ.live) :
    σ.cmp i j = Num.cmp (σ.num i) (σ.num j) := by
  have hcmp : cmpMag (σ.mag i) (σ.mag j) = cmpLimbs (σ.limbs i) (σ.limbs j) :=
    cmpMag_eq (h i hi).1 (h j hj).1
  unfold Store.cmp Num.cmp
  simp only [num_sign, num_limbs, ← hcmp]
  by_cases hlt : (σ.sign i).signum < (σ.sign j).signum
  · rw [if_pos hlt, if_pos hlt]
  rw [if_neg hlt, if_neg hlt]
  by_cases hgt : (σ.sign i).signum > (σ.sign j).signum
  · rw [if_pos hgt, if_pos hgt]
  rw [if_neg hgt, if_neg hgt]
  by_cases h0 : (σ.sign i).signum = 0
  · rw [if_pos h0, if_pos h0]
  rw [if_neg h0, if_neg h0]
  by_cases hw : (σ.obj i).data = (σ.obj j).data ∧ (σ.obj i).lo = (σ.obj j).lo ∧
      (σ.obj i).hi = (σ.obj j).hi
  · have hmag : σ.mag i = σ.mag j := by
      simp only [mag, hw.1, hw.2.1, hw.2.2]
    have hz : cmpMag (σ.mag j) (σ.mag j) = 0 := by
      rw [cmpMag_eq (h j hj).1 (h j hj).1, cmpLimbs_self]
    rw [if_pos hw, hmag, hz]
    split <;> rfl
  rw [if_neg hw]
  by_cases hz : cmpMag (σ.mag i) (σ.mag j) = 0
  · rw [if_pos hz, hz]
    split <;> rfl
  · rw [if_neg hz]

end Store

end PGBigNumber
