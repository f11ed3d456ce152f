import PGBigNumber.Store.Program

/-!
# Effects of the operations

What one operation of a program does to the store, for all operations at once: which objects keep
their numbers, when the results are canonical and when the cached indices stay right.
-/

namespace PGBigNumber

namespace Program

open Store

def Arg.num (σ : Store) : Arg → Num
  | .big j => σ.num j
  | .int64 k => Num.ofI64 k

def Arg.len (σ : Store) : Arg → Nat
  | .big j => (σ.mag j).count
  | .int64 _ => 2

/-- The operation stores no zero limb on top: it does not let the form of `2 ^ 32 - 1` or its
negative that `assign(std::int64_t)` makes through, does not complement a top limb whose bits are
all ones, and does not multiply by a zero limb that stands where a factor was. -/
def Op.NoZeroTop (σ : Store) : Op → Prop
  | .createI64 k | .assignI64 _ k => ¬ Num.TopLimbZero k
  | .addAssign i (.int64 k) =>
    Num.TopLimbZero k → (σ.num i).toInt ≠ 0 ∧ (σ.num i).toInt ≠ -k
  | .subAssign i (.int64 k) =>
    Num.TopLimbZero k → (σ.num i).toInt ≠ 0 ∧ (σ.num i).toInt ≠ k
  | .mulAssign i (.int64 k) => Num.TopLimbZero k → (σ.num i).toInt.natAbs ≠ 1
  | .notBits i => σ.isZero i = true ∨ ∀ k, ((σ.limbs i).getLastD 0).toNat + 1 ≠ 2 ^ k
  | .mul res a b => (res = a → ¬ Num.ZeroLimbBelow (σ.num a).toInt (σ.num b).toInt) ∧
    (res = b → ¬ Num.ZeroLimbBelow (σ.num b).toInt (σ.num a).toInt)
  | _ => True

/-- A division that goes through `knuthDivImpl` gets out-parameters without a cached index. -/
def Op.OutsUncached (σ : Store) : Op → Prop
  | .divideAssignAndReminder i val o | .modAssignAndQuotient i val o =>
    TakesKnuth (σ.num i) (val.num σ) → (σ.obj o).calcued = false
  | .div q r a b =>
    TakesKnuth (σ.num a) (b.num σ) → (σ.obj q).calcued = false ∧ (σ.obj r).calcued = false
  | _ => True

/-- The window that a bitwise operation opens shows no limb that the vector kept from an earlier
value. -/
def Op.NothingStale (σ : Store) : Op → Prop
  | .andAssign i other | .orAssign i other | .xorAssign i other =>
    σ.Unspoiled i (max (σ.mag i).count (other.len σ) + 1)
  | .notSelf i => σ.Unspoiled i ((σ.mag i).count + 1)
  | _ => True

def Op.Gets (op : Op) (σ σ' : Store) (k : Nat) : Prop :=
  k ∈ op.writes ∨ (σ.live ≤ k ∧ k < σ'.live)

structure Effect (op : Op) (σ σ' : Store) : Prop where
  live : σ.live ≤ σ'.live
  keeps : Keeps σ.live (fun k => k ∈ op.writes ∨ k ∈ op.loses) σ σ'
  canon : (∀ k ∈ op.reads, (σ.num k).Canon) →
    ((∀ k, op.Gets σ σ' k → (σ'.num k).Canon) ↔ op.NoZeroTop σ)
  caches : (∀ k ∈ op.reads, (σ.num k).Canon) → op.OutsUncached σ → op.NothingStale σ →
    σ.CachesOk → σ'.CachesOk

variable {op : Op} {σ σ' : Store} {i j : Nat} {R : Nat → Prop} {x : Num}

private theorem mem_second {k l : Nat} {ks : List Nat} : l ∈ k :: l :: ks :=
  List.mem_cons_of_mem k List.mem_cons_self

private theorem mem_third {k l m : Nat} {ks : List Nat} : m ∈ k :: l :: m :: ks :=
  List.mem_cons_of_mem k mem_second

private theorem mem_fourth {k l m n : Nat} {ks : List Nat} : n ∈ k :: l :: m :: n :: ks :=
  List.mem_cons_of_mem k mem_third

private theorem effect_of_puts (hp : Puts σ i R x σ') (hwrites : op.writes = [i])
    (hR : ∀ j, R j → j < σ.live)
    (hx : (∀ k ∈ op.reads, (σ.num k).Canon) → (x.Canon ↔ op.NoZeroTop σ)) : Effect op σ σ' where
  live := Nat.le_of_eq hp.live.symm
  keeps := hp.keeps.mono (Nat.le_refl _) fun k _ hk => Or.inl (by simp [hwrites, hk])
  canon hreads := by
    rw [← hx hreads]
    constructor
    · intro hall
      have hi := hall i (Or.inl (by simp [hwrites]))
      rwa [hp.num] at hi
    · intro hc k hk
      have hlive := hp.live
      rcases hk with hk | hk
      · obtain rfl : k = i := by simpa [hwrites] using hk
        rwa [hp.num]
      · omega
  caches _ _ _ hc := hp.cachesOk hR hc

private theorem effect_of_pushes (hp : Pushes σ R x σ') (hwrites : op.writes = [])
    (hR : ∀ j, R j → j < σ.live)
    (hx : (∀ k ∈ op.reads, (σ.num k).Canon) → (x.Canon ↔ op.NoZeroTop σ)) : Effect op σ σ' where
  live := by
    have hlive := hp.live
    omega
  keeps := hp.keeps.mono (Nat.le_refl _) fun _ _ hf => hf.elim
  canon hreads := by
    have hlive := hp.live
    rw [← hx hreads]
    constructor
    · intro hall
      have hnew := hall σ.live (Or.inr (by omega))
      rwa [hp.num] at hnew
    · intro hc k hk
      rcases hk with hk | hk
      · rw [hwrites] at hk
        exact absurd hk List.not_mem_nil
      · obtain rfl : k = σ.live := by omega
        rwa [hp.num]
  caches _ _ _ hc := hp.cachesOk hR hc

private theorem effect_of_writesIf {C : Prop} {S : Nat → Prop} (hw : WritesIf C σ S σ')
    (hS : ∀ k < σ.live, S k → k ∈ op.writes)
    (hx : (∀ k ∈ op.reads, (σ.num k).Canon) → ∀ k ∈ op.writes, (σ'.num k).Canon)
    (htop : op.NoZeroTop σ) (hC : op.OutsUncached σ → C) : Effect op σ σ' where
  live := Nat.le_of_eq hw.live.symm
  keeps := hw.keeps.mono (Nat.le_refl _) fun k hk hs => Or.inl (hS k hk hs)
  canon hreads := by
    refine iff_of_true (fun k hk => ?_) htop
    have hlive := hw.live
    rcases hk with hk | hk
    · exact hx hreads k hk
    · omega
  caches _ hO _ hc := hw.caches (hC hO) hc

private theorem read_effect (hw : Writes σ (fun _ => False) σ') (hwrites : op.writes = [])
    (htop : op.NoZeroTop σ) : Effect op σ σ' := by
  apply effect_of_writesIf (C := True) hw.writesIf (fun _ _ hf => hf.elim) _ htop fun _ => trivial
  intro _ k hk
  rw [hwrites] at hk
  exact absurd hk List.not_mem_nil

private theorem effect_of_keeps (hlive : σ'.live = σ.live) (hk : Keeps σ.live (· = i) σ σ')
    (hwrites : op.writes = [i])
    (hx : (∀ k ∈ op.reads, (σ.num k).Canon) → (σ'.num i).Canon) (htop : op.NoZeroTop σ)
    (hcache : (∀ k ∈ op.reads, (σ.num k).Canon) → op.NothingStale σ → σ.CachesOk →
      σ'.CacheOk i) : Effect op σ σ' where
  live := Nat.le_of_eq hlive.symm
  keeps := hk.mono (Nat.le_refl _) fun k _ hk => Or.inl (by simp [hwrites, hk])
  canon hreads := by
    refine iff_of_true (fun k hk => ?_) htop
    rcases hk with hk | hk
    · obtain rfl : k = i := by simpa [hwrites] using hk
      exact hx hreads
    · omega
  caches hreads _ hstale hc k hkl := by
    by_cases hki : k = i
    · exact hki ▸ hcache hreads hstale hc
    · exact hk.cache k (hlive ▸ hkl) hki (hc k (hlive ▸ hkl))

private theorem canon_ofInt_map {f : Num → Num} {g : Int → Int}
    (hf : ∀ v, f (Num.ofInt v) = Num.ofInt (g v)) (hx : x.Canon) : (f x).Canon := by
  rw [hx.eq_ofInt, hf]
  exact Num.ofInt_canon _

private theorem erase_pushes {τ : Store} {t : Sign} {l : List UInt32}
    (hp : Pushes σ R ⟨t, l⟩ τ) (hcal : (τ.obj σ.live).calcued = false)
    (ht : t = .pos ∨ t = .neg ∨ l = []) :
    ∃ v, Pushes σ R (Num.ofInt v)
      (let τ₁ := τ.putMag σ.live (eraseZerosSuffix (τ.mag σ.live))
       if (τ₁.mag σ.live).count = 0 then τ₁.beZero σ.live else τ₁) := by
  have hlive := hp.live
  have he := (Puts.erase (i := σ.live) (R := fun _ => False) hp.wf (by omega) hcal).zeroIfEmpty
    (by omega)
  have hnum := hp.num
  rw [num, Num.mk.injEq] at hnum
  rw [hnum.1, hnum.2] at he
  have hall := hp.puts he fun _ hf => hf.elim
  by_cases hnil : trim l = []
  · rw [if_pos hnil, Num.zero_eq_ofInt] at hall
    exact ⟨0, hall⟩
  · rw [if_neg hnil] at hall
    rcases ht with rfl | rfl | rfl
    · rw [Num.pos_eq_ofInt hnil (trimmed_trim l)] at hall
      exact ⟨_, hall⟩
    · rw [Num.neg_eq_ofInt hnil (trimmed_trim l)] at hall
      exact ⟨_, hall⟩
    · exact absurd rfl hnil

theorem pushMag_pushes (h : σ.Wf) {s : Slice UInt32} (hs : s.Wf) {signum : Int}
    (hrun : σ.pushMag s signum = some σ') : ∃ v, Pushes σ R (Num.ofInt v) σ' := by
  have hnew := pushDefault_pushes (R := R) h
  have hmag := Puts.newMag (i := σ.live) (R := fun _ => False) hnew.wf calcued_pushDefault_self hs
  have hpush := hnew.puts hmag fun _ hf => hf.elim
  unfold pushMag at hrun
  dsimp only at hrun
  set τ := σ.pushDefault.newMag σ.live s
  have hcal : (τ.obj σ.live).calcued = false :=
    (calcued_newMag σ.live).trans calcued_pushDefault_self
  have hsign : ∀ t, Pushes σ R ⟨t, τ.limbs σ.live⟩ (τ.setSign σ.live t) := fun t =>
    hpush.puts (Puts.setSign (R := (· = σ.live)) hpush.wf rfl t) fun _ he => Or.inl he
  by_cases hneg : signum = -1
  · rw [if_pos hneg] at hrun
    obtain rfl := Option.some.inj hrun
    exact erase_pushes (hsign .neg) (by rw [calcued_setSign, hcal]) (Or.inr (Or.inl rfl))
  rw [if_neg hneg] at hrun
  by_cases hzero : signum = 0
  · rw [if_pos hzero] at hrun
    obtain rfl := Option.some.inj hrun
    exact erase_pushes (hpush.puts (Q := fun _ => False) (.beZero hpush.wf) fun _ hf => hf.elim)
      (by simp [Store.beZero]) (Or.inr (Or.inr rfl))
  rw [if_neg hzero] at hrun
  by_cases hpos : signum = 1
  · rw [if_pos hpos] at hrun
    obtain rfl := Option.some.inj hrun
    exact erase_pushes (hsign .pos) (by rw [calcued_setSign, hcal]) (Or.inl rfl)
  · rw [if_neg hpos] at hrun
    exact absurd hrun (by simp)

theorem cacheOk_of_limbs_nil (h : σ.limbs i = []) : σ.CacheOk i := fun _ hne => absurd h hne

private theorem pushMove_effect (h : σ.Wf) (hj : j < σ.live) :
    Effect (.createMove j) σ (σ.pushMove j) := by
  have hcopy := pushCopy_pushes (R := (· = j)) h hj rfl
  have hlive := hcopy.live
  have hmove : Keeps (σ.pushCopy j).live (· = j) (σ.pushCopy j) (σ.pushMove j) :=
    Keeps.newMag (S := (· = j)) hcopy.wf.good rfl Slice.empty_wf
  constructor
  · exact Nat.le_succ _
  · exact .pushMove h.good (by simp [Op.loses]) hj
  · intro hreads
    refine iff_of_true (fun k hk => ?_) trivial
    rcases hk with hk | hk
    · exact absurd hk List.not_mem_nil
    · rw [live_pushMove] at hk
      obtain rfl : k = σ.live := by omega
      rw [hmove.num _ (by omega) (by omega), hcopy.num]
      exact hreads j List.mem_cons_self
  · intro _ _ _ hc k hk
    rw [live_pushMove] at hk
    by_cases hkj : k = j
    · apply cacheOk_of_limbs_nil
      rw [hkj, limbs, pushMove, mag_newMag_self, Slice.toList_empty]
    · exact hmove.cache k (by omega) hkj (hcopy.cachesOk (fun _ he => he ▸ hj) hc k (by omega))

private theorem limbs_swap {k l : Nat} (hobj : (σ.swap i j).obj k = σ.obj l) :
    (σ.swap i j).limbs k = σ.limbs l := by
  simp only [limbs, Store.mag, hobj]
  rfl

theorem num_swap_left (hij : i ≠ j) : (σ.swap i j).num i = σ.num j := by
  have hobj : (σ.swap i j).obj i = σ.obj j :=
    (Function.update_of_ne hij ..).trans (Function.update_self ..)
  simp only [num, sign, limbs_swap hobj, hobj]

theorem num_swap_right : (σ.swap i j).num j = σ.num i := by
  have hobj : (σ.swap i j).obj j = σ.obj i := Function.update_self ..
  simp only [num, sign, limbs_swap hobj, hobj]

private theorem swap_effect (h : σ.Wf) (hi : i < σ.live) (hj : j < σ.live) :
    Effect (.swap i j) σ (σ.swap i j) := by
  have hkeeps : Keeps σ.live (fun k => k = i ∨ k = j) σ (σ.swap i j) :=
    .swap h.good (Or.inl rfl) (Or.inr rfl) hi hj
  constructor
  · exact Nat.le_refl _
  · exact hkeeps.mono (Nat.le_refl _) fun k _ hk => Or.inl (by simpa [Op.writes] using hk)
  · intro hreads
    refine iff_of_true (fun k hk => ?_) trivial
    have hci := hreads i List.mem_cons_self
    have hcj := hreads j mem_second
    rcases hk with hk | hk
    · obtain rfl | rfl : k = i ∨ k = j := by simpa [Op.writes] using hk
      · by_cases hkj : k = j
        · rw [hkj, num_swap_right, ← hkj]
          exact hci
        · rw [num_swap_left hkj]
          exact hcj
      · rw [num_swap_right]
        exact hci
    · exact absurd hk.2 (Nat.not_lt.mpr hk.1)
  · intro _ _ _ hc k hk
    have hmoved : ∀ l, l < σ.live → (σ.swap i j).obj k = σ.obj l → (σ.swap i j).CacheOk k := by
      intro l hl hobj
      have hcl := hc l hl
      unfold CacheOk at hcl ⊢
      rw [hobj, limbs_swap hobj]
      exact hcl
    by_cases hkj : k = j
    · exact hmoved i hi (hkj ▸ Function.update_self ..)
    by_cases hki : k = i
    · exact hmoved j hj (hki ▸ (Function.update_of_ne (hki ▸ hkj) ..).trans (Function.update_self ..))
    · exact hkeeps.cache k hk (by omega) (hc k hk)

theorem fromString_puts (h : σ.Wf) (hi : i < σ.live) {str : List Char} {radix : Int}
    {ok : Option Bool} (hrun : σ.fromString i str radix = some (σ', ok)) :
    ∃ x, Puts σ i (· = i) x σ' ∧ ((σ.num i).Canon → x.Canon) := by
  have hsame : Writes σ (fun _ => False) σ' → ∃ x, Puts σ i (· = i) x σ' ∧
      ((σ.num i).Canon → x.Canon) := by
    intro hw
    refine ⟨σ.num i, ⟨hw.live, hw.keeps.mono (Nat.le_refl _) fun _ _ hf => hf.elim,
      hw.keeps.num i hi fun hf => hf, fun hc => ?_⟩, id⟩
    exact hw.keeps.cache i hi (fun hf => hf) (hc i rfl)
  have hvalue : ∀ v, Puts σ i (fun _ => False) (Num.ofInt v) σ' → ∃ x, Puts σ i (· = i) x σ' ∧
      ((σ.num i).Canon → x.Canon) :=
    fun v hp => ⟨_, hp.mono fun _ hf => hf.elim, fun _ => Num.ofInt_canon v⟩
  by_cases hrange : radix < 2 ∨ radix > 36
  · rw [fromString, if_pos hrange, Option.some.injEq, Prod.mk.injEq] at hrun
    obtain ⟨rfl, -⟩ := hrun
    exact hsame (.setStatus h _)
  · have hr : ValidRadix radix.toNat := ⟨by omega, by omega⟩
    obtain ⟨σ₁, ok₁, hrun₁, hreads⟩ := fromString_reads hr h hi str
    rw [Int.toNat_of_nonneg (by omega), hrun, Option.some.injEq, Prod.mk.injEq] at hrun₁
    obtain ⟨rfl, -⟩ := hrun₁
    by_cases hrej : Rejected radix.toNat str
    · exact hsame (hreads.rejected hrej).2
    by_cases hzero : significant str = []
    · have hputs := (hreads.zero hrej hzero).2
      rw [Num.zero_eq_ofInt] at hputs
      exact hvalue 0 hputs
    · obtain ⟨v, hputs, -⟩ := (hreads.value hrej hzero).2
      exact hvalue v hputs

private theorem assignMove_effect (h : σ.Wf) (hi : i < σ.live) (hj : j < σ.live) :
    Effect (.assignMove i j) σ (σ.assignMove i j) := by
  obtain ⟨hw, hnum⟩ := assignMove_writes h hi hj
  have hlive := hw.live
  constructor
  · omega
  · apply hw.keeps.mono (Nat.le_refl _)
    intro k _ hk
    by_cases hki : k = i
    · exact Or.inl (by simp [Op.writes, hki])
    · obtain rfl : k = j := hk.resolve_left hki
      exact Or.inr (by simp [Op.loses, Ne.symm hki])
  · intro hreads
    refine iff_of_true (fun k hk => ?_) trivial
    rcases hk with hk | hk
    · obtain rfl : k = i := by simpa [Op.writes] using hk
      rw [hnum]
      exact hreads j List.mem_cons_self
    · omega
  · exact fun _ _ _ hc => hw.caches hc

section arithmetic

variable {k : {k : Int // Num.InI64 k}}

private theorem two_lt (hi : i < σ.live) (hj : j < σ.live) : ∀ k, k = i ∨ k = j → k < σ.live :=
  fun _ hk => hk.elim (fun he => he ▸ hi) fun he => he ▸ hj

private theorem canon_of_two {f : Num → Num → Num} {g : Int → Int → Int} {y : Num}
    (hf : ∀ v w, f (Num.ofInt v) (Num.ofInt w) = Num.ofInt (g v w)) (hx : x.Canon) (hy : y.Canon) :
    (f x y).Canon := by
  rw [hx.eq_ofInt, hy.eq_ofInt, hf]
  exact Num.ofInt_canon _

private theorem addAssign_effect (h : σ.Wf) {other : Arg}
    (hlt : ∀ k ∈ (Op.addAssign i other).reads, k < σ.live)
    (hrun : (Op.addAssign i other).exec σ = some σ') : Effect (.addAssign i other) σ σ' := by
  have hi := hlt i List.mem_cons_self
  cases other with
  | big j =>
      have hj := hlt j mem_second
      obtain rfl := Option.some.inj hrun
      apply effect_of_puts (addAssign_puts h hi hj) rfl (two_lt hi hj)
      intro hc
      exact iff_of_true (canon_of_two Num.add_ofInt (hc i List.mem_cons_self)
        (hc j mem_second)) trivial
  | int64 k =>
      obtain rfl := Option.some.inj hrun
      apply effect_of_puts (addAssignI64_puts h hi k) rfl fun _ he => he ▸ hi
      intro hc
      exact Num.add_ofI64_canon_iff k.2 (hc i List.mem_cons_self)

private theorem subAssign_effect (h : σ.Wf) {other : Arg}
    (hlt : ∀ k ∈ (Op.subAssign i other).reads, k < σ.live)
    (hrun : (Op.subAssign i other).exec σ = some σ') : Effect (.subAssign i other) σ σ' := by
  have hi := hlt i List.mem_cons_self
  cases other with
  | big j =>
      have hj := hlt j mem_second
      obtain rfl := Option.some.inj hrun
      apply effect_of_puts (subAssign_puts h hi hj) rfl (two_lt hi hj)
      intro hc
      exact iff_of_true (canon_of_two Num.sub_ofInt (hc i List.mem_cons_self)
        (hc j mem_second)) trivial
  | int64 k =>
      obtain rfl := Option.some.inj hrun
      apply effect_of_puts (subAssignI64_puts h hi k) rfl fun _ he => he ▸ hi
      intro hc
      exact Num.sub_ofI64_canon_iff k.2 (hc i List.mem_cons_self)

private theorem mulAssign_effect (h : σ.Wf) {other : Arg}
    (hlt : ∀ k ∈ (Op.mulAssign i other).reads, k < σ.live)
    (hrun : (Op.mulAssign i other).exec σ = some σ') : Effect (.mulAssign i other) σ σ' := by
  have hi := hlt i List.mem_cons_self
  cases other with
  | big j =>
      have hj := hlt j mem_second
      apply effect_of_puts (mulAssignFuel_frame h hi hj hrun) rfl (two_lt hi hj)
      intro hc
      obtain ⟨σ₁, hrun₁, hp⟩ := mulAssignFuel_puts h hi hj (hc i List.mem_cons_self).eq_ofInt
        (hc j mem_second).eq_ofInt (Nat.le_refl _)
      obtain rfl := Option.some.inj (hrun.symm.trans hrun₁)
      rw [hp.num]
      exact iff_of_true (Num.ofInt_canon _) trivial
  | int64 k =>
      obtain ⟨σ₁, hrun₁, hp⟩ := mulAssignI64_puts h hi k
      obtain rfl := Option.some.inj (hrun.symm.trans hrun₁)
      apply effect_of_puts hp rfl fun _ he => he ▸ hi
      intro hc
      exact Num.mulSmall_ofI64_canon_iff k.2 (hc i List.mem_cons_self)

private theorem mul_effect (h : σ.Wf) {res a b : Nat} (hres : res < σ.live) (ha : a < σ.live)
    (hb : b < σ.live) (hrun : σ.mul res a b = some σ') : Effect (.mul res a b) σ σ' := by
  apply effect_of_puts (mulFuel_frame _ h hres ha hb hrun) rfl (two_lt ha hb)
  intro hc
  obtain ⟨σ₁, hrun₁, hresults⟩ := mulFuel_returns h hres ha hb
    (hc a List.mem_cons_self).eq_ofInt (hc b mem_second).eq_ofInt (Nat.le_refl _)
  obtain rfl := Option.some.inj (hrun.symm.trans hrun₁)
  exact hresults.canon

theorem divAssignI64_writes (h : σ.Wf) (hi : i < σ.live) {k : Int}
    (hrun : σ.divAssignI64 i k = some σ') : Writes σ (· = i) σ' := by
  have hp := pushI64_pushes (R := fun _ => False) h k
  have hlive := hp.live
  refine (withI64_writes (C := True) h k (fun {σ₁} hdiv => ?_) hrun).writes trivial
  exact (divAssign_writes hp.wf (by omega) (by omega) hdiv).writesIf

private theorem divAssign_effect (h : σ.Wf) {other : Arg}
    (hlt : ∀ k ∈ (Op.divAssign i other).reads, k < σ.live)
    (hrun : (Op.divAssign i other).exec σ = some σ') : Effect (.divAssign i other) σ σ' := by
  have hi := hlt i List.mem_cons_self
  have hone : Writes σ (· = i) σ' → (∀ {v}, σ.num i = Num.ofInt v →
      (∀ k ∈ (Op.divAssign i other).reads, (σ.num k).Canon) → (σ'.num i).Canon) →
      Effect (.divAssign i other) σ σ' := by
    intro hw hcanon
    apply effect_of_writesIf (C := True) hw.writesIf (fun k _ hk => by simp [Op.writes, hk])
    · intro hc k hk
      obtain rfl : k = i := by simpa [Op.writes] using hk
      exact hcanon (hc k List.mem_cons_self).eq_ofInt hc
    · trivial
    · exact fun _ => trivial
  cases other with
  | big j =>
      have hj := hlt j mem_second
      refine hone (divAssign_writes h hi hj hrun) fun hv hc => ?_
      exact divAssign_canon (dividesCanon_ofInt _ _) h hi hj hv
        (hc j mem_second).eq_ofInt hrun
  | int64 k => exact hone (divAssignI64_writes h hi hrun) fun hv _ => divAssignI64_canon k.2 h hi hv hrun

private theorem pair_effect {o : Nat} {C : Prop} (hw : WritesIf C σ (fun k => k = i ∨ k = o) σ')
    (hwrites : op.writes = [i, o]) (hx : (∀ k ∈ op.reads, (σ.num k).Canon) →
      (σ'.num i).Canon ∧ (σ'.num o).Canon)
    (htop : op.NoZeroTop σ) (hC : op.OutsUncached σ → C) : Effect op σ σ' := by
  apply effect_of_writesIf hw (fun k _ hk => by simpa [hwrites] using hk) _ htop hC
  intro hc k hk
  obtain ⟨hi, ho⟩ := hx hc
  obtain rfl | rfl : k = i ∨ k = o := by simpa [hwrites] using hk
  · exact hi
  · exact ho

private theorem divideAssignAndReminder_effect (h : σ.Wf) {val : Arg} {r : Nat}
    (hlt : ∀ k ∈ (Op.divideAssignAndReminder i val r).reads, k < σ.live)
    (hrun : (Op.divideAssignAndReminder i val r).exec σ = some σ') :
    Effect (.divideAssignAndReminder i val r) σ σ' := by
  have hi := hlt i List.mem_cons_self
  have hr := hlt r mem_second
  cases val with
  | big j =>
      have hj := hlt j mem_third
      apply pair_effect (divideAssignAndReminder_writes h hi hj hr hrun) rfl
      · intro hc
        exact divideAssignAndReminder_canon (dividesCanon_ofInt _ _) h hi hj hr
          (hc i List.mem_cons_self).eq_ofInt (hc j mem_third).eq_ofInt
          (hc r mem_second) hrun
      · trivial
      · exact id
  | int64 k =>
      apply pair_effect (divideAssignAndReminderI64_writes h hi hr hrun) rfl
      · intro hc
        exact divideAssignAndReminderI64_canon (dividesCanon_ofI64 k.2 _) h hi hr
          (hc i List.mem_cons_self).eq_ofInt (hc r mem_second) hrun
      · trivial
      · exact id

private theorem modAssignAndQuotient_effect (h : σ.Wf) {val : Arg} {q : Nat}
    (hlt : ∀ k ∈ (Op.modAssignAndQuotient i val q).reads, k < σ.live)
    (hrun : (Op.modAssignAndQuotient i val q).exec σ = some σ') :
    Effect (.modAssignAndQuotient i val q) σ σ' := by
  have hi := hlt i List.mem_cons_self
  have hq := hlt q mem_second
  cases val with
  | big j =>
      have hj := hlt j mem_third
      apply pair_effect (modAssignAndQuotient_writes h hi hj hq hrun) rfl
      · intro hc
        exact modAssignAndQuotient_canon (dividesCanon_ofInt _ _) h hi hj hq
          (hc i List.mem_cons_self).eq_ofInt (hc j mem_third).eq_ofInt
          (hc q mem_second) hrun
      · trivial
      · exact id
  | int64 k =>
      apply pair_effect (modAssignAndQuotientI64_writes h hi hq hrun) rfl
      · intro hc
        exact modAssignAndQuotientI64_canon (dividesCanon_ofI64 k.2 _) h hi hq
          (hc i List.mem_cons_self).eq_ofInt (hc q mem_second) hrun
      · trivial
      · exact id

private theorem div_effect (h : σ.Wf) {q r a : Nat} {b : Arg} (hqr : q ≠ r)
    (hlt : ∀ k ∈ (Op.div q r a b).reads, k < σ.live)
    (hrun : (Op.div q r a b).exec σ = some σ') : Effect (.div q r a b) σ σ' := by
  have hq := hlt q List.mem_cons_self
  have hr := hlt r mem_second
  have ha := hlt a mem_third
  cases b with
  | big b =>
      have hb := hlt b mem_fourth
      apply pair_effect (div_frame h hq hr ha hb hrun) rfl
      · intro hc
        exact dividesCanon_ofInt _ _ h hq hr ha hb hqr (hc a mem_third).eq_ofInt
          (hc b mem_fourth).eq_ofInt (hc q List.mem_cons_self)
          (hc r mem_second) hrun
      · trivial
      · exact id
  | int64 k =>
      apply pair_effect (divI64_writes h hq hr ha hrun) rfl
      · intro hc
        exact divI64_canon (dividesCanon_ofI64 k.2 _) h hq hr ha hqr
          (hc a mem_third).eq_ofInt (hc q List.mem_cons_self) (hc r mem_second)
          hrun
      · trivial
      · exact id

end arithmetic

/-- An operator on limbs works on the two's complement form like one on integers. -/
structure Limbwise (operator : UInt32 → UInt32 → UInt32) (meaning : Int → Int → Int) : Prop where
  limb : ∀ u v k, operator (limbAt u k) (limbAt v k) = limbAt (meaning u v) k
  fits : ∀ {n u v}, TwosComplement.Fits n u → TwosComplement.Fits n v →
    TwosComplement.Fits n (meaning u v)
  sign : ∀ y, y = 0 ∨ y = 0xffffffff → operator 0 y = 0 ∨ operator 0 y = 0xffffffff

theorem and_limbwise : Limbwise (· &&& ·) Int.land :=
  ⟨limbAt_land, .land, fun _ _ => Or.inl UInt32.zero_and⟩

theorem or_limbwise : Limbwise (· ||| ·) Int.lor :=
  ⟨limbAt_lor, .lor, fun y hy => by rwa [UInt32.zero_or]⟩

theorem xor_limbwise : Limbwise (· ^^^ ·) Int.xor :=
  ⟨limbAt_xor, .xor, fun y hy => by rwa [UInt32.zero_xor]⟩

section bitwise

variable {operator : UInt32 → UInt32 → UInt32} {meaning : Int → Int → Int}

private theorem bitwiseWithOther_effect (hlaw : Limbwise operator meaning) (h : σ.Wf)
    (hi : i < σ.live) (hj : j < σ.live) (hwrites : op.writes = [i]) (hreads : op.reads = [i, j])
    (htop : op.NoZeroTop σ)
    (hstale : op.NothingStale σ → σ.Unspoiled i (max (σ.mag i).count (σ.mag j).count + 1)) :
    Effect op σ (σ.bitwiseWithOther operator i j) := by
  obtain ⟨hlive, hkeeps⟩ := bitwiseWithOther_keeps operator j h hi
  apply effect_of_keeps hlive hkeeps hwrites _ htop
  · intro hc hs hcaches
    have hp := bitwiseWithOther_puts (R := fun _ => False) h hi hj (hc i (by simp [hreads]))
      (hc j (by simp [hreads])) (hcaches i hi) (hcaches j hj) (hstale hs) hlaw.limb hlaw.fits
    exact hp.cache fun _ hf => hf.elim
  · intro hc
    exact bitwiseWithOther_canon h hi hj (hc i (by simp [hreads])) hlaw.sign

private theorem bitwiseWithI64_effect (hlaw : Limbwise operator meaning) (h : σ.Wf)
    (hi : i < σ.live) {k : Int} (hk : Num.InI64 k) (hwrites : op.writes = [i])
    (hreads : op.reads = [i]) (htop : op.NoZeroTop σ)
    (hstale : op.NothingStale σ → σ.Unspoiled i (max (σ.mag i).count 2 + 1)) :
    Effect op σ (σ.bitwiseWithI64 operator i k) := by
  obtain ⟨hlive, hkeeps⟩ := bitwiseWithI64_keeps operator k h hi
  apply effect_of_keeps hlive hkeeps hwrites _ htop
  · intro hc hs hcaches
    have hp := bitwiseWithI64_puts (R := fun _ => False) h hi (hc i (by simp [hreads]))
      (hcaches i hi) hk (hstale hs) hlaw.limb hlaw.fits
    exact hp.cache fun _ hf => hf.elim
  · intro hc
    exact bitwiseWithI64_canon h hi (hc i (by simp [hreads])) hlaw.sign

private theorem bitwise_effect {other : Arg} (hlaw : Limbwise operator meaning) (h : σ.Wf)
    (hlt : ∀ k ∈ op.reads, k < σ.live) (hreads : op.reads = i :: other.reads)
    (hwrites : op.writes = [i]) (htop : op.NoZeroTop σ)
    (hstale : op.NothingStale σ → σ.Unspoiled i (max (σ.mag i).count (other.len σ) + 1))
    (hσ' : σ' = match other with
      | .big j => σ.bitwiseWithOther operator i j
      | .int64 k => σ.bitwiseWithI64 operator i k) : Effect op σ σ' := by
  subst hσ'
  have hi := hlt i (by simp [hreads])
  cases other with
  | big j =>
      have hj := hlt j (by simp [hreads, Arg.reads])
      exact bitwiseWithOther_effect hlaw h hi hj hwrites hreads htop hstale
  | int64 k => exact bitwiseWithI64_effect hlaw h hi k.2 hwrites hreads htop hstale

end bitwise

private theorem notSelf_effect (h : σ.Wf) (hi : i < σ.live) :
    Effect (.notSelf i) σ (σ.notSelf i) := by
  obtain ⟨hlive, hkeeps⟩ := notSelf_keeps h hi
  apply effect_of_keeps hlive hkeeps rfl
  · intro hc
    exact notSelf_canon h hi (hc i List.mem_cons_self)
  · trivial
  · intro hc hs hcaches
    have hp := notSelf_puts (R := fun _ => False) h hi (hc i List.mem_cons_self) (hcaches i hi) hs
    exact hp.cache fun _ hf => hf.elim

/-- What an operation in range does. -/
theorem exec_effect (h : σ.Wf) (hlt : ∀ k ∈ op.reads, k < σ.live)
    (hwl : ∀ k ∈ op.writes ++ op.loses, k < σ.live) (hallowed : op.allowed = true)
    (hrun : op.exec σ = some σ') : Effect op σ σ' := by
  cases op with
  | create =>
      obtain rfl := Option.some.inj hrun
      exact effect_of_pushes (pushDefault_pushes (R := fun _ => False) h) rfl
        (fun _ hf => hf.elim) fun _ => iff_of_true zero_canon trivial
  | createCopy j =>
      obtain rfl := Option.some.inj hrun
      have hj := hlt j List.mem_cons_self
      apply effect_of_pushes (pushCopy_pushes (R := (· = j)) h hj rfl) rfl fun _ he => he ▸ hj
      exact fun hc => iff_of_true (hc j List.mem_cons_self) trivial
  | createMove j =>
      obtain rfl := Option.some.inj hrun
      exact pushMove_effect h (hlt j List.mem_cons_self)
  | createI64 k =>
      obtain rfl := Option.some.inj hrun
      exact effect_of_pushes (pushI64_pushes (R := fun _ => False) h k) rfl
        (fun _ hf => hf.elim) fun _ => Num.ofI64_canon_iff k.2
  | createMag s signum =>
      obtain ⟨v, hp⟩ := pushMag_pushes (R := fun _ => False) h s.2 hrun
      exact effect_of_pushes hp rfl (fun _ hf => hf.elim)
        fun _ => iff_of_true (Num.ofInt_canon v) trivial
  | createString str radix =>
      obtain ⟨⟨σ₁, ok⟩, hread, rfl⟩ := Option.map_eq_some_iff.mp hrun
      have hnew := pushDefault_pushes (R := fun _ => False) h
      obtain ⟨x, hp, hx⟩ := fromString_puts hnew.wf (by rw [hnew.live]; omega) hread
      apply effect_of_pushes (hnew.puts hp fun _ he => Or.inl he) rfl fun _ hf => hf.elim
      exact fun _ => iff_of_true (hx (hnew.num ▸ zero_canon)) trivial
  | createBytes bin little =>
      obtain rfl := Option.some.inj hrun
      have hnew := pushDefault_pushes (R := fun _ => False) h
      have hp := assignBytes_puts (i := σ.live) (R := fun _ => False) hnew.wf
        (by rw [hnew.live]; omega) bin little
      exact effect_of_pushes (hnew.puts hp fun _ hf => hf.elim) rfl (fun _ hf => hf.elim)
        fun _ => iff_of_true (Num.ofBytes_canon _) trivial
  | destroy i =>
      obtain rfl := Option.some.inj hrun
      have hp : Puts σ i (fun _ => False) ⟨.invalid, []⟩ (σ.destroy i) := assignMove_source_puts h
      constructor
      · exact Nat.le_refl _
      · exact hp.keeps.mono (Nat.le_refl _) fun k _ hk => Or.inr (by simp [Op.loses, hk])
      · refine fun _ => iff_of_true (fun k hk => ?_) trivial
        rcases hk with hk | hk
        · exact absurd hk List.not_mem_nil
        · exact absurd hk.2 (Nat.not_lt.mpr hk.1)
      · exact fun _ _ _ hc => hp.cachesOk (fun _ hf => hf.elim) hc
  | assign i j =>
      obtain rfl := Option.some.inj hrun
      have hj := hlt j List.mem_cons_self
      apply effect_of_puts (Puts.assign (i := i) (R := (· = j)) h hj rfl) rfl fun _ he => he ▸ hj
      exact fun hc => iff_of_true (hc j List.mem_cons_self) trivial
  | assignMove i j =>
      obtain rfl := Option.some.inj hrun
      exact assignMove_effect h (hwl i List.mem_cons_self) (hlt j List.mem_cons_self)
  | assignI64 i k =>
      obtain rfl := Option.some.inj hrun
      exact effect_of_puts (assignI64_puts (R := fun _ => False) h (hwl i List.mem_cons_self) k)
        rfl (fun _ hf => hf.elim) fun _ => Num.ofI64_canon_iff k.2
  | fromString i str radix =>
      obtain ⟨⟨σ₁, ok⟩, hread, rfl⟩ := Option.map_eq_some_iff.mp hrun
      have hi := hlt i List.mem_cons_self
      obtain ⟨x, hp, hx⟩ := fromString_puts h hi hread
      apply effect_of_puts hp rfl fun _ he => he ▸ hi
      exact fun hc => iff_of_true (hx (hc i List.mem_cons_self)) trivial
  | assignBytes i bin little =>
      obtain rfl := Option.some.inj hrun
      exact effect_of_puts (assignBytes_puts (R := fun _ => False) h
        (hwl i List.mem_cons_self) bin little) rfl (fun _ hf => hf.elim)
        fun _ => iff_of_true (Num.ofBytes_canon _) trivial
  | swap i j =>
      obtain rfl := Option.some.inj hrun
      exact swap_effect h (hlt i List.mem_cons_self) (hlt j mem_second)
  | getU32 i n =>
      obtain rfl := Option.some.inj hrun
      exact read_effect (getU32_caches.writes h) rfl trivial
  | toU64 i =>
      obtain rfl := Option.some.inj hrun
      exact read_effect (toU64_caches.writes h) rfl trivial
  | toString i radix =>
      obtain ⟨⟨s, σ₁⟩, hprint, rfl⟩ := Option.map_eq_some_iff.mp hrun
      exact read_effect (toString_writes h (hlt i List.mem_cons_self) hprint) rfl trivial
  | inc i =>
      obtain rfl := Option.some.inj hrun
      apply effect_of_puts (inc_puts (R := fun _ => False) h (hlt i List.mem_cons_self)) rfl
        fun _ hf => hf.elim
      exact fun hc => iff_of_true (canon_ofInt_map Num.inc_ofInt (hc i List.mem_cons_self)) trivial
  | dec i =>
      obtain rfl := Option.some.inj hrun
      apply effect_of_puts (dec_puts (R := fun _ => False) h (hlt i List.mem_cons_self)) rfl
        fun _ hf => hf.elim
      exact fun hc => iff_of_true (canon_ofInt_map Num.dec_ofInt (hc i List.mem_cons_self)) trivial
  | addAssign i other => exact addAssign_effect h hlt hrun
  | subAssign i other => exact subAssign_effect h hlt hrun
  | mulAssign i other => exact mulAssign_effect h hlt hrun
  | divAssign i other => exact divAssign_effect h hlt hrun
  | divideAssignAndReminder i val r => exact divideAssignAndReminder_effect h hlt hrun
  | modAssignAndQuotient i val q => exact modAssignAndQuotient_effect h hlt hrun
  | andAssign i other =>
      apply bitwise_effect and_limbwise h hlt rfl rfl trivial id
      cases other <;> exact (Option.some.inj hrun).symm
  | orAssign i other =>
      apply bitwise_effect or_limbwise h hlt rfl rfl trivial id
      cases other <;> exact (Option.some.inj hrun).symm
  | xorAssign i other =>
      apply bitwise_effect xor_limbwise h hlt rfl rfl trivial id
      cases other <;> exact (Option.some.inj hrun).symm
  | notSelf i =>
      obtain rfl := Option.some.inj hrun
      exact notSelf_effect h (hlt i List.mem_cons_self)
  | notBits i =>
      have hi := hlt i List.mem_cons_self
      have hp := notBits_puts h hi hrun
      apply effect_of_puts (hp.of_num rfl) rfl fun _ he => he ▸ hi
      exact fun hc => notBits_canon_iff h hi (hc i List.mem_cons_self) hrun
  | shiftLeftAssign i n =>
      have hi := hlt i List.mem_cons_self
      obtain ⟨x, hx, hp⟩ := shiftLeftAssign_spec h hi hrun
      apply effect_of_puts hp rfl fun _ he => he ▸ hi
      intro hc
      rw [(hc i List.mem_cons_self).eq_ofInt, Num.shl_ofInt] at hx
      obtain rfl := Option.some.inj hx
      exact iff_of_true (Num.ofInt_canon _) trivial
  | shiftRightAssign i n =>
      obtain rfl := Option.some.inj hrun
      have hi := hlt i List.mem_cons_self
      apply effect_of_puts (shiftRightAssign_puts h hi n) rfl fun _ he => he ▸ hi
      intro hc
      exact iff_of_true (canon_ofInt_map (f := (Num.shr · n)) (fun v => Num.shr_ofInt v n)
        (hc i List.mem_cons_self)) trivial
  | negate i =>
      obtain rfl := Option.some.inj hrun
      have hi := hlt i List.mem_cons_self
      apply effect_of_puts (Puts.negate (R := (· = i)) h rfl) rfl fun _ he => he ▸ hi
      exact fun hc =>
        iff_of_true (canon_ofInt_map Num.negate_ofInt (hc i List.mem_cons_self)) trivial
  | abs i =>
      obtain rfl := Option.some.inj hrun
      have hi := hlt i List.mem_cons_self
      apply effect_of_puts (Puts.abs (R := (· = i)) h rfl) rfl fun _ he => he ▸ hi
      exact fun hc =>
        iff_of_true (canon_ofInt_map Num.abs_ofInt (hc i List.mem_cons_self)) trivial
  | mul res a b =>
      exact mul_effect h (hwl res List.mem_cons_self) (hlt a List.mem_cons_self)
        (hlt b mem_second) hrun
  | div q r a b => exact div_effect h (of_decide_eq_true hallowed) hlt hrun

end Program

end PGBigNumber
