import PGBigNumber.Library.Runs
import PGBigNumber.Store.Effect

/-!
# Runs of programs

What holds in every state that a program can reach: when all numbers are canonical, when `getU32`
and the bitwise functions are exact, and that objects which share a vector do not feel each
other's writes.
-/

namespace PGBigNumber

namespace Program

open Store

variable {p p' : Program} {op : Op} {i j : Nat} {ops : List Op}

theorem step_inv (h : step p op = some p') :
    (∀ k ∈ op.reads, p.Usable k) ∧ (∀ k ∈ op.writes ++ op.loses, k < p.store.live) ∧
      op.allowed = true ∧ op.exec p.store = some p'.store ∧
      ∀ k, p'.moved k = (decide (k ∈ op.loses) ||
        (p.moved k && decide (k ∉ op.writes) && decide (k < p.store.live))) := by
  unfold step at h
  by_cases hok : (∀ k ∈ op.reads, p.Usable k) ∧ (∀ k ∈ op.writes ++ op.loses, k < p.store.live) ∧
      op.allowed
  · rw [if_pos hok] at h
    obtain ⟨σ, hexec, rfl⟩ := Option.map_eq_some_iff.mp h
    exact ⟨hok.1, hok.2.1, hok.2.2, hexec, fun _ => rfl⟩
  · rw [if_neg hok] at h
    exact absurd h (by simp)

theorem step_effect (hwf : p.store.Wf) (h : step p op = some p') :
    Effect op p.store p'.store := by
  obtain ⟨hreads, hwl, hallowed, hexec, -⟩ := step_inv h
  exact exec_effect hwf (fun k hk => (hreads k hk).1) hwl hallowed hexec

theorem step_wf (hwf : p.store.Wf) (h : step p op = some p') : p'.store.Wf :=
  (step_effect hwf h).keeps.good.wf

theorem not_loses_of_writes (h : i ∈ op.writes) : i ∉ op.loses := by
  cases op <;> simp_all [Op.writes, Op.loses]

theorem usable_step (h : step p op = some p') (hi : p'.Usable i) :
    op.Gets p.store p'.store i ∨ (p.Usable i ∧ i ∉ op.writes ∧ i ∉ op.loses) := by
  obtain ⟨-, -, -, -, hmoved⟩ := step_inv h
  obtain ⟨hlive, hnot⟩ := hi
  rw [hmoved, Bool.or_eq_false_iff, decide_eq_false_iff_not] at hnot
  obtain ⟨hloses, hrest⟩ := hnot
  by_cases hw : i ∈ op.writes
  · exact Or.inl (Or.inl hw)
  by_cases hl : i < p.store.live
  · rw [decide_eq_true hw, decide_eq_true hl, Bool.and_true, Bool.and_true] at hrest
    exact Or.inr ⟨⟨hl, hrest⟩, hw, hloses⟩
  · exact Or.inl (Or.inr ⟨Nat.le_of_not_lt hl, hlive⟩)

theorem Op.Gets.usable (hwf : p.store.Wf) (h : step p op = some p')
    (hi : op.Gets p.store p'.store i) : p'.Usable i := by
  obtain ⟨-, hwl, -, -, hmoved⟩ := step_inv h
  have hlive := (step_effect hwf h).live
  rcases hi with hw | ⟨hge, hlt⟩
  · have hi := hwl i (List.mem_append_left _ hw)
    exact ⟨by omega, by rw [hmoved]; simp [not_loses_of_writes hw, hw]⟩
  · have hloses : i ∉ op.loses := fun hl => by
      have := hwl i (List.mem_append_right _ hl)
      omega
    exact ⟨hlt, by rw [hmoved]; simp [hloses, Nat.not_lt.mpr hge]⟩

theorem num_step (hwf : p.store.Wf) (h : step p op = some p') (hi : i < p.store.live)
    (hw : i ∉ op.writes) (hl : i ∉ op.loses) : p'.store.num i = p.store.num i :=
  (step_effect hwf h).keeps.num i hi fun hor => hor.elim hw hl

def AllCanon (p : Program) : Prop := ∀ i, p.Usable i → (p.store.num i).Canon

theorem step_canon_iff (hwf : p.store.Wf) (hc : p.AllCanon) (h : step p op = some p') :
    p'.AllCanon ↔ op.NoZeroTop p.store := by
  obtain ⟨hreads, -⟩ := step_inv h
  rw [← (step_effect hwf h).canon fun k hk => hc k (hreads k hk)]
  constructor
  · intro hall k hk
    exact hall k (hk.usable hwf h)
  · intro hall k hk
    rcases usable_step h hk with hgets | ⟨hold, hw, hl⟩
    · exact hall k hgets
    · rw [num_step hwf h hold.1 hw hl]
      exact hc k hold

theorem not_usable_initial : ¬ initial.Usable i := fun hi => absurd hi.1 (Nat.not_lt_zero i)

/-- The runs in which all numbers stay canonical are those that never store a zero limb on top. -/
theorem run_canonical_iff (ops : List Op) :
    Runs.Throughout step AllCanon initial ops ↔
      Runs.Permitted step (fun p op => op.NoZeroTop p.store) initial ops :=
  Runs.throughout_iff_permitted (I := fun p => p.store.Wf) (fun _ _ _ hwf h => step_wf hwf h)
    (fun _ _ _ hwf hc h => step_canon_iff hwf hc h) Wf.initial
    fun _ hi => absurd hi not_usable_initial

/-- `BigIntegerImpl(std::int64_t)` gives `2 ^ 32 - 1` the limbs `[0xffffffff, 0]`. -/
theorem createI64_not_canonical : ¬ ∀ ops, Runs.Throughout step AllCanon initial ops := by
  intro hall
  obtain ⟨p, hp⟩ : ∃ p, step initial (.createI64 ⟨2 ^ 32 - 1, by decide⟩) = some p := ⟨_, rfl⟩
  have hcanon : p.AllCanon := (hall [_]).2 p hp
  have htop := (step_canon_iff Wf.initial (fun _ hi => absurd hi not_usable_initial) hp).mp hcanon
  exact htop rfl

/-- The step stores no zero limb on top, and neither reads a stale limb nor leaves a stale index. -/
def Careful (p : Program) (op : Op) : Prop :=
  op.NoZeroTop p.store ∧ op.OutsUncached p.store ∧ op.NothingStale p.store

structure Sound (p : Program) : Prop where
  wf : p.store.Wf
  canon : p.AllCanon
  caches : p.store.CachesOk

theorem step_sound (hs : p.Sound) (hok : Careful p op) (h : step p op = some p') : p'.Sound := by
  obtain ⟨hreads, -⟩ := step_inv h
  constructor
  · exact step_wf hs.wf h
  · exact (step_canon_iff hs.wf hs.canon h).mpr hok.1
  · exact (step_effect hs.wf h).caches (fun k hk => hs.canon k (hreads k hk)) hok.2.1 hok.2.2
      hs.caches

theorem run_sound (hok : Runs.Permitted step Careful initial ops) :
    Runs.Throughout step Sound initial ops := by
  apply Runs.throughout_of_permitted (fun _ _ _ hs hok h => step_sound hs hok h) _ hok
  exact ⟨Wf.initial, fun _ hi => absurd hi not_usable_initial,
    fun _ hi => absurd hi (Nat.not_lt_zero _)⟩

/-- `getU32` reads the two's complement form of every object with a value, and a cached index is
right. -/
def ReadsBack (p : Program) : Prop :=
  ∀ i, p.Usable i → p.store.CacheOk i ∧
    ∀ n, (p.store.getU32 i n).1 = limbAt (p.store.num i).toInt n

/-- In a run of careful steps `getU32` is exact in every state. -/
theorem run_readsBack (hok : Runs.Permitted step Careful initial ops) :
    Runs.Throughout step ReadsBack initial ops := by
  apply (run_sound hok).mono
  intro p hs i hi
  have hc := hs.caches i hi.1
  exact ⟨hc, getU32_exact hs.wf hi.1 (hs.canon i hi).coherent hc⟩

def remainderOps : List Op :=
  [.createI64 ⟨-(2 ^ 62), by decide⟩, .createI64 ⟨2 ^ 33 + 1, by decide⟩, .create,
    .divideAssignAndReminder 0 (.big 1) 2, .getU32 2 0]

private theorem careful_remainderOps : Runs.Permitted step Careful initial remainderOps := by
  have htop₀ : ¬ Num.TopLimbZero (-(2 ^ 62)) := by decide
  have htop₁ : ¬ Num.TopLimbZero (2 ^ 33 + 1) := by decide
  intro p₁ h₁
  refine ⟨⟨htop₀, trivial, trivial⟩, fun p₂ h₂ => ?_⟩
  refine ⟨⟨htop₁, trivial, trivial⟩, fun p₃ h₃ => ?_⟩
  refine ⟨⟨trivial, trivial, trivial⟩, fun p₄ h₄ => ⟨⟨trivial, fun _ => ?_, trivial⟩, ?_⟩⟩
  · obtain rfl := Option.some.inj h₁
    obtain rfl := Option.some.inj h₂
    obtain rfl := Option.some.inj h₃
    rfl
  · exact fun p₅ _ => ⟨⟨trivial, trivial, trivial⟩, trivial⟩

theorem run_readsBack_remainder : Runs.Throughout step ReadsBack initial remainderOps ∧
    (remainderOps.foldlM step initial).isSome = true :=
  ⟨run_readsBack careful_remainderOps, by decide +kernel⟩

/-- The same division with an out-parameter whose index is cached. -/
def staleOps : List Op :=
  [.createI64 ⟨-(2 ^ 62), by decide⟩, .createI64 ⟨2 ^ 33 + 1, by decide⟩,
    .createI64 ⟨-(2 ^ 32), by decide⟩, .getU32 2 0, .divideAssignAndReminder 0 (.big 1) 2]

/-- `knuthDivImpl` stores the remainder and leaves the old index in the cache. -/
theorem divide_leaves_stale_index :
    ¬ ∀ ops, Runs.Permitted step (fun p op => op.NoZeroTop p.store ∧ op.NothingStale p.store)
      initial ops → Runs.Throughout step ReadsBack initial ops := by
  intro hall
  have htop₀ : ¬ Num.TopLimbZero (-(2 ^ 62)) := by decide
  have htop₁ : ¬ Num.TopLimbZero (2 ^ 33 + 1) := by decide
  have htop₂ : ¬ Num.TopLimbZero (-(2 ^ 32)) := by decide
  have hok : Runs.Permitted step (fun p op => op.NoZeroTop p.store ∧ op.NothingStale p.store)
      initial staleOps :=
    fun _ _ => ⟨⟨htop₀, trivial⟩, fun _ _ => ⟨⟨htop₁, trivial⟩, fun _ _ => ⟨⟨htop₂, trivial⟩,
      fun _ _ => ⟨⟨trivial, trivial⟩, fun _ _ => ⟨⟨trivial, trivial⟩, trivial⟩⟩⟩⟩⟩
  have hbad : (staleOps.foldlM step initial).any (fun p => decide (p.Usable 2 ∧
      (p.store.getU32 2 0).1 ≠ limbAt (p.store.num 2).toInt 0)) = true := by decide +kernel
  obtain ⟨p, hp, hcheck⟩ := (Option.any_eq_true _ _).mp hbad
  obtain ⟨husable, hne⟩ := of_decide_eq_true hcheck
  exact hne (((hall staleOps hok).finish hp 2 husable).2 0)

/-- The bitwise functions of object `i` with object `j` store the operations on the integers. -/
structure ExactWith (σ : Store) (i j : Nat) : Prop where
  and : (σ.andAssign i j).num i = Num.ofInt ((σ.num i).toInt.land (σ.num j).toInt)
  or : (σ.orAssign i j).num i = Num.ofInt ((σ.num i).toInt.lor (σ.num j).toInt)
  xor : (σ.xorAssign i j).num i = Num.ofInt (Int.xor (σ.num i).toInt (σ.num j).toInt)

structure ExactWithI64 (σ : Store) (i : Nat) (k : Int) : Prop where
  and : (σ.andAssignI64 i k).num i = Num.ofInt ((σ.num i).toInt.land k)
  or : (σ.orAssignI64 i k).num i = Num.ofInt ((σ.num i).toInt.lor k)
  xor : (σ.xorAssignI64 i k).num i = Num.ofInt (Int.xor (σ.num i).toInt k)

/-- The bitwise functions are exact on all objects with a value, where `C` holds of the object and
of the number of limbs that its window is opened to. -/
def BitwiseExact (C : Store → Nat → Nat → Prop) (p : Program) : Prop :=
  ∀ i, p.Usable i →
    (∀ j, p.Usable j → C p.store i (max (p.store.mag i).count (p.store.mag j).count + 1) →
      ExactWith p.store i j) ∧
    (∀ k, Num.InI64 k → C p.store i (max (p.store.mag i).count 2 + 1) → ExactWithI64 p.store i k) ∧
    (C p.store i ((p.store.mag i).count + 1) →
      (p.store.notSelf i).num i = Num.ofInt (-(p.store.num i).toInt - 1))

/-- In a run of careful steps the bitwise functions are exact in every state, on objects whose
vector keeps nothing where the window will be opened. -/
theorem run_bitwise_exact (hok : Runs.Permitted step Careful initial ops) :
    Runs.Throughout step (BitwiseExact Unspoiled) initial ops := by
  apply (run_sound hok).mono
  intro p hs i hi
  have hx := hs.canon i hi
  have hc := hs.caches i hi.1
  refine ⟨fun j hj hu => ?_, fun k hk hu => ?_, fun hu => ?_⟩
  · have hputs : ∀ {operator meaning}, Limbwise operator meaning → _ := fun hlaw =>
      bitwiseWithOther_puts (R := fun _ => False) hs.wf hi.1 hj.1 hx (hs.canon j hj) hc
        (hs.caches j hj.1) hu hlaw.limb hlaw.fits
    exact ⟨(hputs and_limbwise).num, (hputs or_limbwise).num, (hputs xor_limbwise).num⟩
  · have hputs : ∀ {operator meaning}, Limbwise operator meaning → _ := fun hlaw =>
      bitwiseWithI64_puts (R := fun _ => False) hs.wf hi.1 hx hc hk hu hlaw.limb hlaw.fits
    exact ⟨(hputs and_limbwise).num, (hputs or_limbwise).num, (hputs xor_limbwise).num⟩
  · exact (notSelf_puts (R := fun _ => False) hs.wf hi.1 hx hc hu).num

theorem run_bitwise_exact_remainder :
    Runs.Throughout step (BitwiseExact Unspoiled) initial remainderOps ∧
      (remainderOps.foldlM step initial).any (fun p => decide (p.Usable 2 ∧
        (p.store.andAssignI64 2 12345).num 2 =
          Num.ofInt ((p.store.num 2).toInt.land 12345))) = true :=
  ⟨run_bitwise_exact careful_remainderOps, by decide +kernel⟩

/-- After `x = 1099511627776; x.assign(1)` the vector still keeps the second limb of the old value,
and `x & -1` shows it again. -/
theorem andAssign_stale_limb :
    ¬ ∀ ops, Runs.Permitted step Careful initial ops →
      Runs.Throughout step (BitwiseExact fun _ _ _ => True) initial ops := by
  intro hall
  have htop₀ : ¬ Num.TopLimbZero (2 ^ 40) := by decide
  have htop₁ : ¬ Num.TopLimbZero 1 := by decide
  let ops : List Op := [.createI64 ⟨2 ^ 40, by decide⟩, .assignI64 0 ⟨1, by decide⟩]
  have hok : Runs.Permitted step Careful initial ops :=
    fun _ _ => ⟨⟨htop₀, trivial, trivial⟩, fun _ _ => ⟨⟨htop₁, trivial, trivial⟩, trivial⟩⟩
  have hbad : (ops.foldlM step initial).any (fun p => decide (p.Usable 0 ∧
      (p.store.andAssignI64 0 (-1)).num 0 ≠ Num.ofInt ((p.store.num 0).toInt.land (-1)))) = true := by
    decide +kernel
  obtain ⟨p, hp, hcheck⟩ := (Option.any_eq_true _ _).mp hbad
  obtain ⟨husable, hne⟩ := of_decide_eq_true hcheck
  exact hne (((hall ops hok).finish hp 0 husable).2.1 (-1) (by decide) trivial).and

def pushClone (σ : Store) (j : Nat) : Store := (σ.pushCopy j).cloneData σ.live

theorem pushClone_pushes {σ : Store} (h : σ.Wf) (hj : j < σ.live) :
    Pushes σ (· = j) (σ.num j) (pushClone σ j) := by
  have hcopy := pushCopy_pushes (R := (· = j)) h hj rfl
  have hlive := hcopy.live
  have hkeeps : Keeps (σ.pushCopy j).live (· = σ.live) (σ.pushCopy j) (pushClone σ j) :=
    Keeps.cloneData (S := (· = σ.live)) hcopy.wf.good rfl
  have hputs : Puts (σ.pushCopy j) σ.live (· = σ.live) (σ.num j) (pushClone σ j) := by
    refine ⟨live_cloneData, hkeeps, ?_, fun hc => ?_⟩
    · rw [← hcopy.num, num, num, pushClone, sign_cloneData, limbs_cloneData_self]
    · have hold := hc σ.live rfl
      unfold CacheOk at hold ⊢
      rw [pushClone, calcued_cloneData, limbs_cloneData_self, firstNotZeroU32Index_cloneData]
      exact hold
  exact hcopy.puts hputs fun _ he => Or.inl he

/-- The functions of object `i` do with operand `j` what they do with a copy of `j` that shares
nothing; `o` is an out-parameter, and a quotient that goes to `j` itself overwrites the divisor with
the dividend first. -/
structure OperandByValue (σ : Store) (i j : Nat) : Prop where
  addAssign : (σ.addAssign i j).num i = ((pushClone σ j).addAssign i σ.live).num i
  subAssign : (σ.subAssign i j).num i = ((pushClone σ j).subAssign i σ.live).num i
  mulAssign : SameNums [i] (σ.mulAssign i j) ((pushClone σ j).mulAssign i σ.live)
  divAssign : (σ.num j).toInt ≠ 0 →
    SameNums [i] (σ.divAssign i j) ((pushClone σ j).divAssign i σ.live)
  divideAssignAndReminder : (σ.num j).toInt ≠ 0 → ∀ o < σ.live,
    SameNums [i, o] (σ.divideAssignAndReminder i j o)
      ((pushClone σ j).divideAssignAndReminder i σ.live o)
  modAssignAndQuotient : (σ.num j).toInt ≠ 0 → ∀ o < σ.live,
    (o = j → (σ.num i).toInt.natAbs = (σ.num j).toInt.natAbs) →
    SameNums [i, o] (σ.modAssignAndQuotient i j o)
      ((pushClone σ j).modAssignAndQuotient i σ.live o)

private theorem sameNums_one {run run' : Option Store} {x : Num}
    (h : ∃ τ, run = some τ ∧ τ.num i = x) (h' : ∃ τ, run' = some τ ∧ τ.num i = x) :
    SameNums [i] run run' := by
  obtain ⟨τ, hrun, hx⟩ := h
  obtain ⟨τ', hrun', hx'⟩ := h'
  refine ⟨τ, τ', hrun, hrun', fun m hm => ?_⟩
  rw [List.mem_singleton.mp hm, hx, hx']

private theorem sameNums_two {run run' : Option Store} {x y : Num} {o : Nat}
    (h : ∃ τ, run = some τ ∧ τ.num i = x ∧ (o ≠ i → τ.num o = y))
    (h' : ∃ τ, run' = some τ ∧ τ.num i = x ∧ (o ≠ i → τ.num o = y)) :
    SameNums [i, o] run run' := by
  obtain ⟨τ, hrun, hx, hy⟩ := h
  obtain ⟨τ', hrun', hx', hy'⟩ := h'
  refine ⟨τ, τ', hrun, hrun', fun m hm => ?_⟩
  by_cases hmi : m = i
  · rw [hmi, hx, hx']
  · obtain rfl : m = o := by simpa [hmi] using hm
    rw [hy hmi, hy' hmi]

theorem operandByValue {σ : Store} (h : σ.Wf) (hi : i < σ.live) (hj : j < σ.live)
    (hci : (σ.num i).Canon) (hcj : (σ.num j).Canon) : OperandByValue σ i j := by
  have hclone := pushClone_pushes h hj
  have hlive := hclone.live
  have hwf := hclone.wf
  have hv := hci.eq_ofInt
  have hw := hcj.eq_ofInt
  have hv' := (hclone.num_old hi).trans hv
  have hw' := hclone.num.trans hw
  have hmul : ∀ {τ : Store} {k : Nat}, τ.Wf → i < τ.live → k < τ.live →
      τ.num i = Num.ofInt (σ.num i).toInt → τ.num k = Num.ofInt (σ.num j).toInt →
      ∃ τ', τ.mulAssign i k = some τ' ∧
        τ'.num i = Num.ofInt ((σ.num i).toInt * (σ.num j).toInt) := by
    intro τ k hτ hiτ hkτ hvτ hwτ
    obtain ⟨τ', hrun, hputs⟩ := mulAssignFuel_puts hτ hiτ hkτ hvτ hwτ (Nat.le_refl _)
    exact ⟨τ', hrun, hputs.num⟩
  constructor
  · rw [(addAssign_puts h hi hj).num, (addAssign_puts hwf (by omega) (by omega)).num,
      hclone.num_old hi, hclone.num]
  · rw [(subAssign_puts h hi hj).num, (subAssign_puts hwf (by omega) (by omega)).num,
      hclone.num_old hi, hclone.num]
  · exact sameNums_one (hmul h hi hj hv hw) (hmul hwf (by omega) (by omega) hv' hw')
  · intro h0
    have hd := dividesTo_ofInt (v := (σ.num i).toInt) h0
    exact sameNums_one (divAssign_num hd h hi hj hv hw)
      (divAssign_num hd hwf (by omega) (by omega) hv' hw')
  · intro h0 o ho
    have hd := dividesTo_ofInt (v := (σ.num i).toInt) h0
    exact sameNums_two (divideAssignAndReminder_num hd h hi hj ho hv hw)
      (divideAssignAndReminder_num hd hwf (by omega) (by omega) (by omega) hv' hw')
  · intro h0 o ho hoj
    have hd := dividesTo_ofInt (v := (σ.num i).toInt) h0
    have hmag : o = j →
        (σ.num i).toInt.natAbs = (Num.ofInt (σ.num j).toInt).toInt.natAbs := by
      rwa [Num.toInt_ofInt]
    exact sameNums_two (modAssignAndQuotient_num hd h hi hj ho hmag hv hw)
      (modAssignAndQuotient_num hd hwf (by omega) (by omega) (by omega) (by omega) hv' hw')

/-- An operation changes the numbers of its own objects only, and operands count by value. -/
structure Isolated (p : Program) : Prop where
  others : ∀ op p', step p op = some p' → ∀ k < p.store.live, k ∉ op.writes → k ∉ op.loses →
    p'.store.num k = p.store.num k
  operands : ∀ i j, p.Usable i → p.Usable j → (p.store.num i).Canon → (p.store.num j).Canon →
    OperandByValue p.store i j

/-- In every state of every run, objects that share a vector stay apart. -/
theorem run_isolated (ops : List Op) : Runs.Throughout step Isolated initial ops := by
  have hwf : Runs.Throughout step (fun p => p.store.Wf) initial ops :=
    Runs.throughout_of_invariant (fun _ _ _ hwf h => step_wf hwf h) Wf.initial ops
  apply hwf.mono
  intro p hp
  constructor
  · exact fun op p' h k hk hw hl => num_step hp h hk hw hl
  · exact fun i j hi hj hci hcj => operandByValue hp hi.1 hj.1 hci hcj

end Program

end PGBigNumber
