import PGBigNumber.Store.Alias
import PGBigNumber.Store.Runs
import PGBigNumber.Store.Values

/-!
# Programs compute with integers

A run in which no operation meets one of the conditions under which it goes wrong does with the
objects what the operations mean for integers, whatever the objects share.
-/

namespace PGBigNumber

namespace Store

section outcomes

variable {σ : Store} {i : Nat} {R : Nat → Prop} {k v w x : Int}

theorem Puts.outcome {σ' : Store} (hp : Puts σ i R (Num.ofInt x) σ') :
    ∃ σ₁, some σ' = some σ₁ ∧ σ₁.live = σ.live ∧ σ₁.num i = Num.ofInt x :=
  ⟨σ', rfl, hp.live, hp.num⟩

theorem add_ofI64 (hk : Num.InI64 k) (hfit : Num.TopLimbZero k → v ≠ 0 ∧ v ≠ -k) :
    Num.add (Num.ofInt v) (Num.ofI64 k) = Num.ofInt (v + k) := by
  by_cases htop : Num.TopLimbZero k
  · exact Num.add_topLimbZero htop (hfit htop).1 (hfit htop).2
  · rw [Num.ofI64_eq hk htop, Num.add_ofInt]

theorem sub_ofI64 (hk : Num.InI64 k) (hfit : Num.TopLimbZero k → v ≠ 0 ∧ v ≠ k) :
    Num.sub (Num.ofInt v) (Num.ofI64 k) = Num.ofInt (v - k) := by
  by_cases htop : Num.TopLimbZero k
  · exact Num.sub_topLimbZero htop (hfit htop).1 (hfit htop).2
  · rw [Num.ofI64_eq hk htop, Num.sub_ofInt]

theorem mulSmall_ofI64 (hk : Num.InI64 k) (hfit : Num.TopLimbZero k → v.natAbs ≠ 1) :
    Num.mulSmall (Num.ofInt v) (Num.ofI64 k) = Num.ofInt (v * k) := by
  by_cases htop : Num.TopLimbZero k
  · exact Num.mulSmall_topLimbZero htop (hfit htop)
  · rw [Num.ofI64_eq hk htop, Num.mulSmall_ofInt]

private theorem tdiv_tmod_of_natAbs_lt (hlt : v.natAbs < w.natAbs) : v.tdiv w = 0 ∧ v.tmod w = v := by
  have hquot : v.tdiv w = 0 := by
    rw [← Int.natAbs_eq_zero, Int.natAbs_tdiv]
    exact Nat.div_eq_of_lt hlt
  refine ⟨hquot, ?_⟩
  have hsum := Int.mul_tdiv_add_tmod v w
  rw [hquot] at hsum
  omega

theorem dividesTo_int64 (hk : Num.InI64 k) (h0 : k ≠ 0)
    (hfit : Num.TopLimbZero k → v.natAbs ≤ 2 ^ 32 - 2) :
    DividesTo v (Num.ofI64 k) (v.tdiv k) (v.tmod k) := by
  by_cases htop : Num.TopLimbZero k
  · have hle := hfit htop
    have hlt : v.natAbs < k.natAbs := by
      rw [htop]
      omega
    obtain ⟨hquot, hmod⟩ := tdiv_tmod_of_natAbs_lt hlt
    rw [hquot, hmod]
    exact dividesTo_topLimbZero htop (by omega)
  · rw [Num.ofI64_eq hk htop]
    exact dividesTo_ofInt h0

theorem notBits_outcome (h : σ.Wf) (hi : i < σ.live) (hv : σ.num i = Num.ofInt v)
    (htop : σ.isZero i = true ∨ ∀ k, ((σ.limbs i).getLastD 0).toNat + 1 ≠ 2 ^ k) :
    ∃ σ', σ.notBits i = some σ' ∧ σ'.live = σ.live ∧ σ'.num i = Num.ofInt (complement v) := by
  have hx : (σ.num i).Canon := hv ▸ Num.ofInt_canon v
  have hvalue : (σ.num i).toInt = v := hv ▸ Num.toInt_ofInt v
  obtain ⟨σ', hrun⟩ := notBits_isSome hx
  have hputs := notBits_puts h hi hrun
  refine ⟨σ', hrun, hputs.live, ?_⟩
  by_cases h0 : v = 0
  · rw [hputs.num, if_pos ((isZero_iff hv).mpr h0), hv, h0]
    rfl
  · have hy := ((notBits_canon_iff h hi hx hrun).mpr htop).eq_ofInt
    obtain ⟨hsign, hmag⟩ := notBits_mag h hi hx (by rwa [hvalue]) hrun
    rw [← num_limbs, hy, Num.mag_ofInt, hvalue] at hmag
    rw [← num_sign, ← num_sign, hy, hv] at hsign
    generalize (σ'.num i).toInt = w at hy hsign hmag
    have hsignum : w.sign = v.sign := by
      rw [← Num.signum_ofInt, ← Num.signum_ofInt, hsign]
    have habs : w.natAbs = 2 ^ v.natAbs.size - 1 - v.natAbs := by omega
    rw [hy, complement, ← habs, ← hsignum, Int.sign_mul_natAbs]

theorem readText_outcome (hwf : σ.Wf) (hi : i < σ.live) (hv : σ.num i = Num.ofInt v)
    {str : List Char} {radix : Int} (hx : readText v str radix = some x) :
    ∃ σ' ok, σ.fromString i str radix = some (σ', ok) ∧ σ'.live = σ.live ∧
      σ'.num i = Num.ofInt x := by
  by_cases hrange : radix < 2 ∨ radix > 36
  · rw [readText, if_pos (by tauto)] at hx
    obtain rfl := Option.some.inj hx
    refine ⟨σ.setStatus .radixInvalid, some false, ?_, rfl, hv⟩
    rw [fromString, if_pos hrange]
  have hr : ValidRadix radix.toNat := ⟨by omega, by omega⟩
  obtain ⟨σ', ok, hrun, hreads⟩ := fromString_reads hr hwf hi str
  rw [Int.toNat_of_nonneg (by omega)] at hrun
  by_cases hrej : Rejected radix.toNat str
  · rw [readText, if_pos (by tauto)] at hx
    obtain rfl := Option.some.inj hx
    have hw := (hreads.rejected hrej).2
    exact ⟨σ', ok, hrun, hw.live, (hw.keeps.num i hi fun hf => hf).trans hv⟩
  · rw [readText, if_neg (by tauto)] at hx
    obtain ⟨σ₁, ok₁, hrun₁, hnum⟩ := fromString_denote hr hwf hi hx fun ho =>
      hrej ((rejected_iff_of_denote hr hx).mpr ho)
    rw [Int.toNat_of_nonneg (by omega), hrun, Option.some.injEq, Prod.mk.injEq] at hrun₁
    obtain ⟨rfl, rfl⟩ := hrun₁
    obtain ⟨_, hputs, -⟩ := Program.fromString_puts hwf hi hrun
    exact ⟨σ', ok, hrun, hputs.live, hnum⟩

private theorem erase_outcome {τ : Store} {t : Sign} {l : List UInt32}
    (hp : Pushes σ (fun _ => False) ⟨t, l⟩ τ) (hcal : (τ.obj σ.live).calcued = false)
    (hx : (if trim l = [] then Num.zero else ⟨t, trim l⟩) = Num.ofInt x) :
    Pushes σ (fun _ => False) (Num.ofInt x)
      (let τ₁ := τ.putMag σ.live (eraseZerosSuffix (τ.mag σ.live))
       if (τ₁.mag σ.live).count = 0 then τ₁.beZero σ.live else τ₁) := by
  have hlive := hp.live
  have he := (Puts.erase (i := σ.live) (R := fun _ => False) hp.wf (by omega) hcal).zeroIfEmpty
    (by omega)
  have hnum := hp.num
  rw [num, Num.mk.injEq] at hnum
  rw [hnum.1, hnum.2, hx] at he
  exact hp.puts he fun _ hf => hf.elim

theorem pushMag_outcome (h : σ.Wf) {s : Slice UInt32} (hs : s.Wf) {signum : Int}
    (hx : signedMag s.toList signum = some x) :
    ∃ σ', σ.pushMag s signum = some σ' ∧ σ'.live = σ.live + 1 ∧ σ'.num σ.live = Num.ofInt x := by
  have hnew := pushDefault_pushes (R := fun _ => False) h
  have hpush := hnew.puts (Puts.newMag (i := σ.live) (R := fun _ => False) hnew.wf
    calcued_pushDefault_self hs) fun _ hf => hf.elim
  have hlimbs : (σ.pushDefault.newMag σ.live s).limbs σ.live = s.toList :=
    congrArg Slice.toList mag_newMag_self
  have hcal : ((σ.pushDefault.newMag σ.live s).obj σ.live).calcued = false :=
    (calcued_newMag σ.live).trans calcued_pushDefault_self
  have hsign : ∀ t, Pushes σ (fun _ => False) ⟨t, s.toList⟩
      ((σ.pushDefault.newMag σ.live s).setSign σ.live t) := by
    intro t
    have hset := hpush.puts (Puts.setSign (R := (· = σ.live)) hpush.wf rfl t) fun _ he => Or.inl he
    rwa [hlimbs] at hset
  have hmag : PGBigNumber.mag (trim s.toList) = PGBigNumber.mag s.toList := mag_trim _
  have hnil : trim s.toList = [] → (PGBigNumber.mag s.toList : Int) = 0 := fun he => by
    rw [← hmag, he]
    rfl
  have hdone : ∀ {σ₁}, Pushes σ (fun _ => False) (Num.ofInt x) σ₁ →
      ∃ σ', some σ₁ = some σ' ∧ σ'.live = σ.live + 1 ∧ σ'.num σ.live = Num.ofInt x :=
    fun hp => ⟨_, rfl, hp.live, hp.num⟩
  unfold signedMag at hx
  unfold pushMag
  dsimp only
  by_cases hneg : signum = -1
  · rw [if_pos hneg, Option.map_some]
    rw [if_pos (Or.inl hneg), hneg] at hx
    obtain rfl := Option.some.inj hx
    apply hdone (erase_outcome (hsign .neg) (by rw [calcued_setSign, hcal]) ?_)
    by_cases he : trim s.toList = []
    · rw [if_pos he, hnil he]
      exact Num.zero_eq_ofInt
    · rw [if_neg he, Num.neg_eq_ofInt he (trimmed_trim _), hmag, neg_one_mul]
  rw [if_neg hneg]
  by_cases hzero : signum = 0
  · rw [if_pos hzero, Option.map_some]
    rw [if_pos (Or.inr (Or.inl hzero)), hzero] at hx
    obtain rfl := Option.some.inj hx
    apply hdone (erase_outcome (t := .zro) (l := [])
      (hpush.puts (Q := fun _ => False) (.beZero hpush.wf) fun _ hf => hf.elim)
      (by simp [Store.beZero]) ?_)
    rw [if_pos (show trim [] = [] from rfl), zero_mul]
    exact Num.zero_eq_ofInt
  rw [if_neg hzero]
  by_cases hpos : signum = 1
  · rw [if_pos hpos, Option.map_some]
    rw [if_pos (Or.inr (Or.inr hpos)), hpos] at hx
    obtain rfl := Option.some.inj hx
    apply hdone (erase_outcome (hsign .pos) (by rw [calcued_setSign, hcal]) ?_)
    by_cases he : trim s.toList = []
    · rw [if_pos he, hnil he]
      exact Num.zero_eq_ofInt
    · rw [if_neg he, Num.pos_eq_ofInt he (trimmed_trim _), hmag, one_mul]
  · rw [if_neg (by tauto)] at hx
    exact absurd hx (by simp)

end outcomes

end Store

namespace Program

open Store

/-- The result comes out right: the bytes are not misaligned, `2 ^ 32 - 1` and its negative do not
divide numbers from `2 ^ 32 - 1` on as machine integers, and a result in an operand does not lose
it. -/
def Op.ResultFits (σ : Store) : Op → Prop
  | .createBytes bin little | .assignBytes _ bin little => ¬ Misaligned (littleOf bin little)
  | .divAssign i (.int64 k) | .divideAssignAndReminder i (.int64 k) _
  | .modAssignAndQuotient i (.int64 k) _ | .div _ _ i (.int64 k) =>
    Num.TopLimbZero k → (σ.num i).toInt.natAbs ≤ 2 ^ 32 - 2
  | .modAssignAndQuotient i (.big j) q =>
    QuotientFits q j (σ.num i).toInt (σ.num j).toInt
  | .div q _ a (.big b) => QuotientFits q b (σ.num a).toInt (σ.num b).toInt
  | .mul res a b => (res = a → a = b ∨ LeftFits (σ.num a).toInt (σ.num b).toInt) ∧
    (res = b → a = b ∨ RightFits (σ.num a).toInt (σ.num b).toInt)
  | _ => True

/-- The operation meets none of the conditions under which the library goes wrong. -/
def Faultless (p : Program) (op : Op) : Prop := Careful p op ∧ op.ResultFits p.store

variable {p p' : Program} {op : Op} {i j o : Nat} {x y : Int} {v : Values}

theorem value_of_usable (h : p.Usable i) : p.values.value i = some (p.store.num i).toInt := if_pos h

theorem value_of_not_usable (h : ¬ p.Usable i) : p.values.value i = none := if_neg h

theorem usable_of_value (h : p.values.value i = some x) :
    p.Usable i ∧ (p.store.num i).toInt = x := by
  by_cases hu : p.Usable i
  · rw [value_of_usable hu] at h
    exact ⟨hu, Option.some.inj h⟩
  · rw [value_of_not_usable hu] at h
    exact absurd h (by simp)

theorem isSome_value_iff : (p.values.value i).isSome = true ↔ p.Usable i := by
  by_cases hu : p.Usable i
  · rw [value_of_usable hu]
    exact iff_of_true rfl hu
  · rw [value_of_not_usable hu]
    exact iff_of_false (by simp) hu

theorem Sound.num_of_value (hs : p.Sound) (h : p.values.value i = some x) :
    i < p.store.live ∧ p.store.num i = Num.ofInt x := by
  obtain ⟨hu, rfl⟩ := usable_of_value h
  exact ⟨hu.1, (hs.canon i hu).eq_ofInt⟩

def Admits (p : Program) (op : Op) : Prop :=
  (∀ k ∈ op.reads, p.Usable k) ∧ (∀ k ∈ op.writes ++ op.loses, k < p.store.live) ∧ op.allowed

theorem step_eq (h : p.Admits op) {σ : Store} (hexec : op.exec p.store = some σ) :
    ∃ p', step p op = some p' ∧ p'.store = σ := by
  refine ⟨⟨σ, fun k => decide (k ∈ op.loses) ||
    (p.moved k && decide (k ∉ op.writes) && decide (k < p.store.live))⟩, ?_, rfl⟩
  unfold Admits at h
  rw [step, if_pos h, hexec, Option.map_some]

theorem values_step (hwf : p.store.Wf) (h : step p op = some p') (hlive : v.live = p'.store.live)
    (hnew : ∀ k, op.Gets p.store p'.store k → v.value k = some (p'.store.num k).toInt)
    (hlost : ∀ k ∈ op.loses, v.value k = none)
    (hold : ∀ k, ¬ op.Gets p.store p'.store k → k ∉ op.loses → v.value k = p.values.value k) :
    p'.values = v := by
  refine Values.ext (funext fun k => ?_) hlive.symm
  obtain ⟨-, -, -, -, hmoved⟩ := step_inv h
  by_cases hgets : op.Gets p.store p'.store k
  · rw [value_of_usable (hgets.usable hwf h), hnew k hgets]
  by_cases hloses : k ∈ op.loses
  · have hnot : ¬ p'.Usable k := fun hu => by
      have hm := hu.2
      rw [hmoved, decide_eq_true hloses, Bool.true_or] at hm
      exact absurd hm (by decide)
    rw [value_of_not_usable hnot, hlost k hloses]
  rw [hold k hgets hloses]
  have hw : k ∉ op.writes := fun hw => hgets (Or.inl hw)
  by_cases hu : p.Usable k
  · have hu' : p'.Usable k := by
      refine ⟨Nat.lt_of_lt_of_le hu.1 (step_effect hwf h).live, ?_⟩
      rw [hmoved, decide_eq_false hloses, hu.2, Bool.false_and, Bool.false_and, Bool.or_false]
    rw [value_of_usable hu, value_of_usable hu', num_step hwf h hu.1 hw hloses]
  · have hu' : ¬ p'.Usable k := fun hu' =>
      hu ((usable_step h hu').resolve_left hgets).1
    rw [value_of_not_usable hu, value_of_not_usable hu']

section shapes

variable (hs : p.Sound) (hadm : p.Admits op)
include hs hadm

theorem set_exact (hwrites : op.writes = [i]) (hloses : op.loses = [])
    (hout : ∃ σ, op.exec p.store = some σ ∧ σ.live = p.store.live ∧ σ.num i = Num.ofInt x) :
    ∃ p', step p op = some p' ∧ p'.values = p.values.set i x := by
  obtain ⟨σ, hexec, hlive, hnum⟩ := hout
  obtain ⟨p', hstep, rfl⟩ := step_eq hadm hexec
  have hgets : ∀ k, op.Gets p.store p'.store k ↔ k = i := fun k => by
    rw [Op.Gets, hwrites, List.mem_singleton]
    exact ⟨fun hor => hor.resolve_right (by omega), Or.inl⟩
  refine ⟨p', hstep, values_step hs.wf hstep hlive.symm (fun k hk => ?_) (fun k hk => ?_)
    fun k hk _ => ?_⟩
  · obtain rfl := (hgets k).mp hk
    rw [hnum, Num.toInt_ofInt]
    exact Function.update_self ..
  · rw [hloses] at hk
    exact absurd hk List.not_mem_nil
  · exact Function.update_of_ne (fun he => hk ((hgets k).mpr he)) ..

theorem set_two_exact (hwrites : op.writes = [i, o]) (hloses : op.loses = [])
    (hout : ∃ σ, op.exec p.store = some σ ∧ σ.live = p.store.live ∧ σ.num i = Num.ofInt x ∧
      (o ≠ i → σ.num o = Num.ofInt y)) :
    ∃ p', step p op = some p' ∧ p'.values = (p.values.set o y).set i x := by
  obtain ⟨σ, hexec, hlive, hnum, hnumo⟩ := hout
  obtain ⟨p', hstep, rfl⟩ := step_eq hadm hexec
  have hgets : ∀ k, op.Gets p.store p'.store k ↔ k = i ∨ k = o := fun k => by
    rw [Op.Gets, hwrites, List.mem_pair]
    exact ⟨fun hor => hor.resolve_right (by omega), Or.inl⟩
  refine ⟨p', hstep, values_step hs.wf hstep hlive.symm (fun k hk => ?_) (fun k hk => ?_)
    fun k hk _ => ?_⟩
  · by_cases hki : k = i
    · rw [hki, hnum, Num.toInt_ofInt]
      exact Function.update_self ..
    · obtain rfl := ((hgets k).mp hk).resolve_left hki
      rw [hnumo hki, Num.toInt_ofInt]
      exact (Function.update_of_ne hki ..).trans (Function.update_self ..)
  · rw [hloses] at hk
    exact absurd hk List.not_mem_nil
  · rw [hgets, not_or] at hk
    exact (Function.update_of_ne hk.1 ..).trans (Function.update_of_ne hk.2 ..)

theorem push_exact (hwrites : op.writes = []) (hloses : op.loses = [])
    (hout : ∃ σ, op.exec p.store = some σ ∧ σ.live = p.store.live + 1 ∧
      σ.num p.store.live = Num.ofInt x) :
    ∃ p', step p op = some p' ∧ p'.values = p.values.push x := by
  obtain ⟨σ, hexec, hlive, hnum⟩ := hout
  obtain ⟨p', hstep, rfl⟩ := step_eq hadm hexec
  have hgets : ∀ k, op.Gets p.store p'.store k ↔ k = p.store.live := fun k => by
    rw [Op.Gets, hwrites, or_iff_right List.not_mem_nil]
    omega
  refine ⟨p', hstep, values_step hs.wf hstep hlive.symm (fun k hk => ?_) (fun k hk => ?_)
    fun k hk _ => ?_⟩
  · obtain rfl := (hgets k).mp hk
    rw [hnum, Num.toInt_ofInt]
    exact Function.update_self ..
  · rw [hloses] at hk
    exact absurd hk List.not_mem_nil
  · exact Function.update_of_ne (fun he => hk ((hgets k).mpr he)) ..

theorem same_exact (hwrites : op.writes = []) (hloses : op.loses = [])
    (hout : ∃ σ, op.exec p.store = some σ ∧ σ.live = p.store.live) :
    ∃ p', step p op = some p' ∧ p'.values = p.values := by
  obtain ⟨σ, hexec, hlive⟩ := hout
  obtain ⟨p', hstep, rfl⟩ := step_eq hadm hexec
  refine ⟨p', hstep, values_step hs.wf hstep hlive.symm (fun k hk => ?_) (fun k hk => ?_)
    fun k _ _ => rfl⟩
  · rw [Op.Gets, hwrites, or_iff_right List.not_mem_nil] at hk
    omega
  · rw [hloses] at hk
    exact absurd hk List.not_mem_nil

end shapes

theorem step_meaning (h : p.values.step op = some v) :
    p.Admits op ∧ op.meaning p.values = some v := by
  unfold Values.step at h
  split at h
  next hadm =>
    exact ⟨⟨fun k hk => isSome_value_iff.mp (hadm.1 k hk), hadm.2.1, hadm.2.2⟩, h⟩
  next => exact absurd h (by simp)

theorem divisor_eq_some {b : Arg} (h : b.divisor v = some y) : b.value v = some y ∧ y ≠ 0 := by
  obtain ⟨z, hz, h⟩ := Option.bind_eq_some_iff.mp h
  by_cases h0 : z = 0
  · rw [if_pos h0] at h
    exact absurd h (by simp)
  · rw [if_neg h0] at h
    obtain rfl := Option.some.inj h
    exact ⟨hz, h0⟩

section step

variable (hs : p.Sound) (hadm : p.Admits op)
include hs hadm

private theorem unary_exact {f : Int → Int} (hwrites : op.writes = [i]) (hloses : op.loses = [])
    (hm : (do return p.values.set i (f (← p.values.value i))) = some v)
    (hout : ∀ x, i < p.store.live → p.store.num i = Num.ofInt x →
      ∃ σ, op.exec p.store = some σ ∧ σ.live = p.store.live ∧ σ.num i = Num.ofInt (f x)) :
    ∃ p', step p op = some p' ∧ p'.values = v := by
  obtain ⟨x, hx, hm⟩ := Option.bind_eq_some_iff.mp hm
  obtain rfl := Option.some.inj hm
  obtain ⟨hi, hnum⟩ := hs.num_of_value hx
  exact set_exact hs hadm hwrites hloses (hout x hi hnum)

private theorem binary_exact {f : Int → Int → Int} {other : Option Int} (hwrites : op.writes = [i])
    (hloses : op.loses = [])
    (hm : (do return p.values.set i (f (← p.values.value i) (← other))) = some v)
    (hout : ∀ x y, i < p.store.live → p.store.num i = Num.ofInt x → other = some y →
      ∃ σ, op.exec p.store = some σ ∧ σ.live = p.store.live ∧ σ.num i = Num.ofInt (f x y)) :
    ∃ p', step p op = some p' ∧ p'.values = v := by
  obtain ⟨x, hx, hm⟩ := Option.bind_eq_some_iff.mp hm
  obtain ⟨y, hy, hm⟩ := Option.bind_eq_some_iff.mp hm
  obtain rfl := Option.some.inj hm
  obtain ⟨hi, hnum⟩ := hs.num_of_value hx
  exact set_exact hs hadm hwrites hloses (hout x y hi hnum hy)

private theorem division_exact {f g : Int → Int → Int} {val : Arg} (hwrites : op.writes = [i, o])
    (hloses : op.loses = [])
    (hm : (do
      let x ← p.values.value i
      let y ← val.divisor p.values
      return (p.values.set o (g x y)).set i (f x y)) = some v)
    (hout : ∀ x y, i < p.store.live → p.store.num i = Num.ofInt x →
      val.value p.values = some y → y ≠ 0 →
      ∃ σ, op.exec p.store = some σ ∧ σ.live = p.store.live ∧ σ.num i = Num.ofInt (f x y) ∧
        (o ≠ i → σ.num o = Num.ofInt (g x y))) :
    ∃ p', step p op = some p' ∧ p'.values = v := by
  obtain ⟨x, hx, hm⟩ := Option.bind_eq_some_iff.mp hm
  obtain ⟨y, hy, hm⟩ := Option.bind_eq_some_iff.mp hm
  obtain rfl := Option.some.inj hm
  obtain ⟨hi, hnum⟩ := hs.num_of_value hx
  obtain ⟨hy, hy0⟩ := divisor_eq_some hy
  exact set_two_exact hs hadm hwrites hloses (hout x y hi hnum hy hy0)

end step

section arithmetic

variable {σ : Store} {k : {k : Int // Num.InI64 k}} {other : Arg} (hs : p.Sound)
include hs

private theorem addAssign_step (hadm : p.Admits (.addAssign i other))
    (htop : (Op.addAssign i other).NoZeroTop p.store)
    (hm : (Op.addAssign i other).meaning p.values = some v) :
    ∃ p', step p (.addAssign i other) = some p' ∧ p'.values = v := by
  refine binary_exact hs hadm rfl rfl hm fun x y hi hnum hy => ?_
  cases other with
  | big j =>
      obtain ⟨hj, hnumj⟩ := hs.num_of_value hy
      have hp := addAssign_puts hs.wf hi hj
      rw [hnum, hnumj, Num.add_ofInt] at hp
      exact hp.outcome
  | int64 k =>
      obtain rfl := Option.some.inj hy
      have htop' : Num.TopLimbZero k → (p.store.num i).toInt ≠ 0 ∧ (p.store.num i).toInt ≠ -k := htop
      rw [hnum, Num.toInt_ofInt] at htop'
      have hp := addAssignI64_puts hs.wf hi k
      rw [hnum, add_ofI64 k.2 htop'] at hp
      exact hp.outcome

private theorem subAssign_step (hadm : p.Admits (.subAssign i other))
    (htop : (Op.subAssign i other).NoZeroTop p.store)
    (hm : (Op.subAssign i other).meaning p.values = some v) :
    ∃ p', step p (.subAssign i other) = some p' ∧ p'.values = v := by
  refine binary_exact hs hadm rfl rfl hm fun x y hi hnum hy => ?_
  cases other with
  | big j =>
      obtain ⟨hj, hnumj⟩ := hs.num_of_value hy
      have hp := subAssign_puts hs.wf hi hj
      rw [hnum, hnumj, Num.sub_ofInt] at hp
      exact hp.outcome
  | int64 k =>
      obtain rfl := Option.some.inj hy
      have htop' : Num.TopLimbZero k → (p.store.num i).toInt ≠ 0 ∧ (p.store.num i).toInt ≠ k := htop
      rw [hnum, Num.toInt_ofInt] at htop'
      have hp := subAssignI64_puts hs.wf hi k
      rw [hnum, sub_ofI64 k.2 htop'] at hp
      exact hp.outcome

private theorem mulAssign_step (hadm : p.Admits (.mulAssign i other))
    (htop : (Op.mulAssign i other).NoZeroTop p.store)
    (hm : (Op.mulAssign i other).meaning p.values = some v) :
    ∃ p', step p (.mulAssign i other) = some p' ∧ p'.values = v := by
  refine binary_exact hs hadm rfl rfl hm fun x y hi hnum hy => ?_
  cases other with
  | big j =>
      obtain ⟨hj, hnumj⟩ := hs.num_of_value hy
      obtain ⟨σ, hrun, hp⟩ := mulAssignFuel_puts hs.wf hi hj hnum hnumj (Nat.le_refl _)
      exact ⟨σ, hrun, hp.live, hp.num⟩
  | int64 k =>
      obtain rfl := Option.some.inj hy
      have htop' : Num.TopLimbZero k → (p.store.num i).toInt.natAbs ≠ 1 := htop
      rw [hnum, Num.toInt_ofInt] at htop'
      obtain ⟨σ, hrun, hp⟩ := mulAssignI64_puts hs.wf hi k
      rw [hnum, mulSmall_ofI64 k.2 htop'] at hp
      exact ⟨σ, hrun, hp.live, hp.num⟩

private theorem divAssign_step (hadm : p.Admits (.divAssign i other))
    (hfits : (Op.divAssign i other).ResultFits p.store)
    (hm : (Op.divAssign i other).meaning p.values = some v) :
    ∃ p', step p (.divAssign i other) = some p' ∧ p'.values = v := by
  refine binary_exact hs hadm rfl rfl hm fun x y hi hnum hy => ?_
  obtain ⟨hy, hy0⟩ := divisor_eq_some hy
  cases other with
  | big j =>
      obtain ⟨hj, hnumj⟩ := hs.num_of_value hy
      obtain ⟨σ, hrun, hσ⟩ := divAssign_num (dividesTo_ofInt hy0) hs.wf hi hj hnum hnumj
      exact ⟨σ, hrun, (divAssign_writes hs.wf hi hj hrun).live, hσ⟩
  | int64 k =>
      obtain rfl := Option.some.inj hy
      have hfits' : Num.TopLimbZero k → (p.store.num i).toInt.natAbs ≤ 2 ^ 32 - 2 := hfits
      rw [hnum, Num.toInt_ofInt] at hfits'
      obtain ⟨σ, hrun, hσ⟩ := divAssignI64_num (dividesTo_int64 k.2 hy0 hfits') hs.wf hi hnum
      exact ⟨σ, hrun, (divAssignI64_writes hs.wf hi hrun).live, hσ⟩

private theorem divideAssignAndReminder_step (hadm : p.Admits (.divideAssignAndReminder i other o))
    (hfits : (Op.divideAssignAndReminder i other o).ResultFits p.store)
    (hm : (Op.divideAssignAndReminder i other o).meaning p.values = some v) :
    ∃ p', step p (.divideAssignAndReminder i other o) = some p' ∧ p'.values = v := by
  have ho : o < p.store.live := (hadm.1 o (by simp [Op.reads])).1
  refine division_exact hs hadm rfl rfl hm fun x y hi hnum hy hy0 => ?_
  cases other with
  | big j =>
      obtain ⟨hj, hnumj⟩ := hs.num_of_value hy
      obtain ⟨σ, hrun, hσ, hσo⟩ :=
        divideAssignAndReminder_num (dividesTo_ofInt hy0) hs.wf hi hj ho hnum hnumj
      exact ⟨σ, hrun, (divideAssignAndReminder_writes hs.wf hi hj ho hrun).live, hσ, hσo⟩
  | int64 k =>
      obtain rfl := Option.some.inj hy
      have hfits' : Num.TopLimbZero k → (p.store.num i).toInt.natAbs ≤ 2 ^ 32 - 2 := hfits
      rw [hnum, Num.toInt_ofInt] at hfits'
      obtain ⟨σ, hrun, hσ, hσo⟩ :=
        divideAssignAndReminderI64_num (dividesTo_int64 k.2 hy0 hfits') hs.wf hi ho hnum
      exact ⟨σ, hrun, (divideAssignAndReminderI64_writes hs.wf hi ho hrun).live, hσ, hσo⟩

private theorem modAssignAndQuotient_outcome (hi : i < p.store.live) (hj : j < p.store.live)
    (ho : o < p.store.live) (hnum : p.store.num i = Num.ofInt x) (hnumj : p.store.num j = Num.ofInt y)
    (hy0 : y ≠ 0) (hfits : QuotientFits o j x y) :
    ∃ σ, p.store.modAssignAndQuotient i j o = some σ ∧ σ.live = p.store.live ∧
      σ.num i = Num.ofInt (x.tmod y) ∧ (o ≠ i → σ.num o = Num.ofInt (x.tdiv y)) := by
  have h₁ := pushDefault_pushes (R := fun _ => False) hs.wf
  have hl₁ := h₁.live
  obtain ⟨σ₁, hdiv, hiff⟩ := div_divides_iff h₁.wf (q := o) (r := p.store.live) (a := i) (b := j)
    (by omega) (by omega) (by omega) (by omega) (by omega) ((h₁.num_old hi).trans hnum)
    ((h₁.num_old hj).trans hnumj) hy0
  obtain ⟨⟨hquot, hrem⟩, -⟩ := hiff.mpr hfits
  obtain ⟨σ, hrun, hσ, hσo⟩ := intoResult_num (d := fun σ result => σ.div o result i j) hs.wf hi hdiv
    (div_frame h₁.wf (by omega) (by omega) (by omega) (by omega) hdiv)
  exact ⟨σ, hrun, (modAssignAndQuotient_writes hs.wf hi hj ho hrun).live, hσ.trans hrem,
    fun hoi => (hσo o ho hoi).trans hquot⟩

private theorem modAssignAndQuotient_step (hadm : p.Admits (.modAssignAndQuotient i other o))
    (hfits : (Op.modAssignAndQuotient i other o).ResultFits p.store)
    (hm : (Op.modAssignAndQuotient i other o).meaning p.values = some v) :
    ∃ p', step p (.modAssignAndQuotient i other o) = some p' ∧ p'.values = v := by
  have ho : o < p.store.live := (hadm.1 o (by simp [Op.reads])).1
  refine division_exact (f := Int.tmod) (g := Int.tdiv) hs hadm rfl rfl hm
    fun x y hi hnum hy hy0 => ?_
  cases other with
  | big j =>
      obtain ⟨hj, hnumj⟩ := hs.num_of_value hy
      have hfits' : QuotientFits o j (p.store.num i).toInt (p.store.num j).toInt := hfits
      rw [hnum, hnumj, Num.toInt_ofInt, Num.toInt_ofInt] at hfits'
      exact modAssignAndQuotient_outcome hs hi hj ho hnum hnumj hy0 hfits'
  | int64 k =>
      obtain rfl := Option.some.inj hy
      have hfits' : Num.TopLimbZero k → (p.store.num i).toInt.natAbs ≤ 2 ^ 32 - 2 := hfits
      rw [hnum, Num.toInt_ofInt] at hfits'
      obtain ⟨σ, hrun, hσ, hσo⟩ :=
        modAssignAndQuotientI64_num (dividesTo_int64 k.2 hy0 hfits') hs.wf hi ho hnum
      exact ⟨σ, hrun, (modAssignAndQuotientI64_writes hs.wf hi ho hrun).live, hσ, hσo⟩

private theorem mul_step {res a b : Nat} (hadm : p.Admits (.mul res a b))
    (hfits : (Op.mul res a b).ResultFits p.store)
    (hm : (Op.mul res a b).meaning p.values = some v) :
    ∃ p', step p (.mul res a b) = some p' ∧ p'.values = v := by
  have hres : res < p.store.live := hadm.2.1 res (by simp [Op.writes])
  obtain ⟨x, hx, hm⟩ := Option.bind_eq_some_iff.mp hm
  obtain ⟨y, hy, hm⟩ := Option.bind_eq_some_iff.mp hm
  obtain rfl := Option.some.inj hm
  obtain ⟨ha, hnuma⟩ := hs.num_of_value hx
  obtain ⟨hb, hnumb⟩ := hs.num_of_value hy
  obtain ⟨σ, hrun, hnum⟩ := mulFuel_stores hs.wf hres ha hb hnuma hnumb (Nat.le_refl _)
  refine set_exact hs hadm rfl rfl ⟨σ, hrun, (mulFuel_frame _ hs.wf hres ha hb hrun).live, ?_⟩
  obtain ⟨hleft, hright⟩ : (res = a → a = b ∨ LeftFits (p.store.num a).toInt (p.store.num b).toInt) ∧
    (res = b → a = b ∨ RightFits (p.store.num a).toInt (p.store.num b).toInt) := hfits
  rw [hnuma, hnumb, Num.toInt_ofInt, Num.toInt_ofInt] at hleft hright
  rw [hnum]
  by_cases hab : a = b
  · subst hab
    obtain rfl : x = y := Option.some.inj (hx.symm.trans hy)
    by_cases hra : res = a
    · exact mulStored_self hra hra
    · exact (mulStored_results res a a x x).exact hra hra
  · by_cases hra : res = a
    · exact (mulStored_left_iff hra (hra ▸ hab)).mpr ((hleft hra).resolve_left hab)
    by_cases hrb : res = b
    · exact (mulStored_right_iff hra hrb).mpr ((hright hrb).resolve_left hab)
    · exact (mulStored_results res a b x y).exact hra hrb

private theorem div_step {q r a : Nat} {b : Arg} (hadm : p.Admits (.div q r a b))
    (hfits : (Op.div q r a b).ResultFits p.store)
    (hm : (Op.div q r a b).meaning p.values = some v) :
    ∃ p', step p (.div q r a b) = some p' ∧ p'.values = v := by
  have hq : q < p.store.live := (hadm.1 q (by simp [Op.reads])).1
  have hr : r < p.store.live := (hadm.1 r (by simp [Op.reads])).1
  have hqr : q ≠ r := of_decide_eq_true hadm.2.2
  obtain ⟨x, hx, hm⟩ := Option.bind_eq_some_iff.mp hm
  obtain ⟨y, hy, hm⟩ := Option.bind_eq_some_iff.mp hm
  obtain rfl := Option.some.inj hm
  obtain ⟨ha, hnum⟩ := hs.num_of_value hx
  obtain ⟨hy, hy0⟩ := divisor_eq_some hy
  have hcomm : (p.values.set q (x.tdiv y)).set r (x.tmod y) =
      (p.values.set r (x.tmod y)).set q (x.tdiv y) :=
    Values.ext (Function.update_comm hqr ..) rfl
  rw [hcomm]
  apply set_two_exact hs hadm rfl rfl
  cases b with
  | big b =>
      obtain ⟨hb, hnumb⟩ := hs.num_of_value hy
      have hfits' : QuotientFits q b (p.store.num a).toInt (p.store.num b).toInt := hfits
      rw [hnum, hnumb, Num.toInt_ofInt, Num.toInt_ofInt] at hfits'
      obtain ⟨σ, hrun, hiff⟩ := div_divides_iff hs.wf hq hr ha hb hqr hnum hnumb hy0
      obtain ⟨⟨hquot, hrem⟩, -⟩ := hiff.mpr hfits'
      exact ⟨σ, hrun, (div_frame hs.wf hq hr ha hb hrun).live, hquot, fun _ => hrem⟩
  | int64 k =>
      obtain rfl := Option.some.inj hy
      have hfits' : Num.TopLimbZero k → (p.store.num a).toInt.natAbs ≤ 2 ^ 32 - 2 := hfits
      rw [hnum, Num.toInt_ofInt] at hfits'
      obtain ⟨σ, hrun, hquot, hrem⟩ :=
        divI64_num (dividesTo_int64 k.2 hy0 hfits') hs.wf hq hr ha hqr hnum
      exact ⟨σ, hrun, (divI64_writes hs.wf hq hr ha hrun).live, hquot, fun _ => hrem⟩

end arithmetic

section bitwise

variable {other : Arg} {operator : UInt32 → UInt32 → UInt32} {meaning : Int → Int → Int}
  (hs : p.Sound)
include hs

private theorem bitwise_outcome (hlaw : Limbwise operator meaning) (hi : i < p.store.live)
    (hnum : p.store.num i = Num.ofInt x) (hy : other.value p.values = some y)
    (hstale : p.store.Unspoiled i (max (p.store.mag i).count (other.len p.store) + 1)) :
    ∃ σ, some (match other with
        | .big j => p.store.bitwiseWithOther operator i j
        | .int64 k => p.store.bitwiseWithI64 operator i k) = some σ ∧
      σ.live = p.store.live ∧ σ.num i = Num.ofInt (meaning x y) := by
  have hx : (p.store.num i).Canon := hnum ▸ Num.ofInt_canon x
  cases other with
  | big j =>
      obtain ⟨hj, hnumj⟩ := hs.num_of_value hy
      have hp := bitwiseWithOther_puts (R := fun _ => False) hs.wf hi hj hx
        (hnumj ▸ Num.ofInt_canon y) (hs.caches i hi) (hs.caches j hj) hstale hlaw.limb hlaw.fits
      rw [hnum, hnumj, Num.toInt_ofInt, Num.toInt_ofInt] at hp
      exact hp.outcome
  | int64 k =>
      obtain rfl := Option.some.inj hy
      have hp := bitwiseWithI64_puts (R := fun _ => False) hs.wf hi hx (hs.caches i hi) k.2 hstale
        hlaw.limb hlaw.fits
      rw [hnum, Num.toInt_ofInt] at hp
      exact hp.outcome

private theorem bitwise_step (hadm : p.Admits op) (hlaw : Limbwise operator meaning)
    (hwrites : op.writes = [i]) (hloses : op.loses = [])
    (hexec : op.exec p.store = some (match other with
        | .big j => p.store.bitwiseWithOther operator i j
        | .int64 k => p.store.bitwiseWithI64 operator i k))
    (hstale : p.store.Unspoiled i (max (p.store.mag i).count (other.len p.store) + 1))
    (hm : (do return p.values.set i (meaning (← p.values.value i) (← other.value p.values))) = some v) :
    ∃ p', step p op = some p' ∧ p'.values = v := by
  refine binary_exact hs hadm hwrites hloses hm fun x y hi hnum hy => ?_
  rw [hexec]
  exact bitwise_outcome hs hlaw hi hnum hy hstale

private theorem notSelf_step (hadm : p.Admits (.notSelf i)) (hok : (Op.notSelf i).NothingStale p.store)
    (hm : (Op.notSelf i).meaning p.values = some v) :
    ∃ p', step p (.notSelf i) = some p' ∧ p'.values = v := by
  refine unary_exact (f := fun x => -x - 1) hs hadm rfl rfl hm fun x hi hnum => ?_
  have hp := notSelf_puts (R := fun _ => False) hs.wf hi (hnum ▸ Num.ofInt_canon x) (hs.caches i hi) hok
  rw [hnum, Num.toInt_ofInt] at hp
  exact hp.outcome

end bitwise

section moves

variable (hs : p.Sound)
include hs

private theorem createMove_step (hadm : p.Admits (.createMove j))
    (hm : (Op.createMove j).meaning p.values = some v) :
    ∃ p', step p (.createMove j) = some p' ∧ p'.values = v := by
  obtain ⟨x, hx, hm⟩ := Option.bind_eq_some_iff.mp hm
  obtain rfl := Option.some.inj hm
  obtain ⟨hj, hnum⟩ := hs.num_of_value hx
  have hcopy := pushCopy_pushes (R := (· = j)) hs.wf hj rfl
  have hmove : Keeps (p.store.pushCopy j).live (· = j) (p.store.pushCopy j) (p.store.pushMove j) :=
    Keeps.newMag (S := (· = j)) hcopy.wf.good rfl Slice.empty_wf
  have hlive := hcopy.live
  have hnew : (p.store.pushMove j).num p.store.live = Num.ofInt x :=
    (hmove.num _ (by omega) (by omega)).trans (hcopy.num.trans hnum)
  obtain ⟨p', hstep, hstore⟩ := step_eq hadm (σ := p.store.pushMove j) rfl
  have hlive' : p'.store.live = p.store.live + 1 := by rw [hstore, live_pushMove]
  have hgets : ∀ k, (Op.createMove j).Gets p.store p'.store k ↔ k = p.store.live := fun k => by
    rw [Op.Gets, Op.writes, or_iff_right List.not_mem_nil]
    omega
  refine ⟨p', hstep, values_step hs.wf hstep hlive'.symm (fun k hk => ?_) (fun k hk => ?_)
    fun k hk hl => ?_⟩
  · obtain rfl := (hgets k).mp hk
    rw [hstore, hnew, Num.toInt_ofInt]
    exact (Function.update_of_ne (by omega) ..).trans (Function.update_self ..)
  · obtain rfl := List.mem_singleton.mp hk
    exact Function.update_self ..
  · exact (Function.update_of_ne (fun he => hl (List.mem_singleton.mpr he)) ..).trans
      (Function.update_of_ne (fun he => hk ((hgets k).mpr he)) ..)

private theorem assignMove_step (hadm : p.Admits (.assignMove i j))
    (hm : (Op.assignMove i j).meaning p.values = some v) :
    ∃ p', step p (.assignMove i j) = some p' ∧ p'.values = v := by
  obtain ⟨x, hx, hm⟩ := Option.bind_eq_some_iff.mp hm
  obtain rfl := Option.some.inj hm
  obtain ⟨hj, hnum⟩ := hs.num_of_value hx
  have hi : i < p.store.live := hadm.2.1 i List.mem_cons_self
  obtain ⟨hw, hnumi⟩ := assignMove_writes hs.wf hi hj
  obtain ⟨p', hstep, hstore⟩ := step_eq hadm (σ := p.store.assignMove i j) rfl
  have hlive' : p'.store.live = p.store.live := by rw [hstore, live_assignMove]
  have hgets : ∀ k, (Op.assignMove i j).Gets p.store p'.store k ↔ k = i := fun k => by
    rw [Op.Gets, Op.writes, List.mem_singleton]
    exact ⟨fun hor => hor.resolve_right (by omega), Or.inl⟩
  have hnew : some (p'.store.num i).toInt = some x := by
    rw [hstore, hnumi, hnum, Num.toInt_ofInt]
  refine ⟨p', hstep, ?_⟩
  by_cases hij : i = j
  · subst hij
    rw [if_pos rfl]
    refine values_step hs.wf hstep hlive'.symm (fun k hk => ?_) (fun k hk => ?_) fun k _ _ => rfl
    · obtain rfl := (hgets k).mp hk
      exact hx.trans hnew.symm
    · rw [Op.loses, if_pos rfl] at hk
      exact absurd hk List.not_mem_nil
  · rw [if_neg hij]
    have hloses : ∀ k, k ∈ (Op.assignMove i j).loses ↔ k = j := fun k => by
      rw [Op.loses, if_neg hij, List.mem_singleton]
    refine values_step hs.wf hstep hlive'.symm (fun k hk => ?_) (fun k hk => ?_) fun k hk hl => ?_
    · obtain rfl := (hgets k).mp hk
      rw [hnew]
      exact (Function.update_of_ne hij ..).trans (Function.update_self ..)
    · obtain rfl := (hloses k).mp hk
      exact Function.update_self ..
    · exact (Function.update_of_ne (fun he => hl ((hloses k).mpr he)) ..).trans
        (Function.update_of_ne (fun he => hk ((hgets k).mpr he)) ..)

private theorem destroy_step (hadm : p.Admits (.destroy i)) :
    ∃ p', step p (.destroy i) = some p' ∧ p'.values = p.values.lose i := by
  obtain ⟨p', hstep, hstore⟩ := step_eq hadm (σ := p.store.destroy i) rfl
  have hlive' : p'.store.live = p.store.live := by rw [hstore]; rfl
  refine ⟨p', hstep, values_step hs.wf hstep hlive'.symm (fun k hk => ?_) (fun k hk => ?_)
    fun k _ hl => ?_⟩
  · rw [Op.Gets, Op.writes, or_iff_right List.not_mem_nil] at hk
    omega
  · obtain rfl := List.mem_singleton.mp hk
    exact Function.update_self ..
  · exact Function.update_of_ne (fun he => hl (List.mem_singleton.mpr he)) ..

private theorem swap_step (hadm : p.Admits (.swap i j))
    (hm : (Op.swap i j).meaning p.values = some v) :
    ∃ p', step p (.swap i j) = some p' ∧ p'.values = v := by
  obtain ⟨y, hy, hm⟩ := Option.bind_eq_some_iff.mp hm
  obtain ⟨x, hx, hm⟩ := Option.bind_eq_some_iff.mp hm
  obtain rfl := Option.some.inj hm
  obtain ⟨hi, hnum⟩ := hs.num_of_value hx
  obtain ⟨hj, hnumj⟩ := hs.num_of_value hy
  obtain ⟨p', hstep, hstore⟩ := step_eq hadm (σ := p.store.swap i j) rfl
  have hlive' : p'.store.live = p.store.live := by rw [hstore]; rfl
  have hgets : ∀ k, (Op.swap i j).Gets p.store p'.store k ↔ k = i ∨ k = j := fun k => by
    rw [Op.Gets, Op.writes, List.mem_pair]
    exact ⟨fun hor => hor.resolve_right (by omega), Or.inl⟩
  refine ⟨p', hstep, values_step hs.wf hstep hlive'.symm (fun k hk => ?_)
    (fun k hk => absurd hk List.not_mem_nil) fun k hk _ => ?_⟩
  · by_cases hkj : k = j
    · rw [hkj, hstore, num_swap_right, hnum, Num.toInt_ofInt]
      exact Function.update_self ..
    · obtain rfl := ((hgets k).mp hk).resolve_right hkj
      rw [hstore, num_swap_left hkj, hnumj, Num.toInt_ofInt]
      exact (Function.update_of_ne hkj ..).trans (Function.update_self ..)
  · rw [hgets, not_or] at hk
    exact (Function.update_of_ne hk.2 ..).trans (Function.update_of_ne hk.1 ..)

end moves

def Op.makes : Op → Bool
  | .create | .createCopy _ | .createMove _ | .createI64 _ | .createMag _ _ | .createString _ _
  | .createBytes _ _ => true
  | _ => false

theorem exec_live {σ σ' : Store} (h : σ.Wf) (hlt : ∀ k ∈ op.reads, k < σ.live)
    (hwl : ∀ k ∈ op.writes ++ op.loses, k < σ.live) (hrun : op.exec σ = some σ') :
    σ'.live = σ.live + op.makes.toNat := by
  cases op with
  | create => exact Option.some.inj hrun ▸ rfl
  | createCopy j => exact Option.some.inj hrun ▸ rfl
  | createMove j => exact Option.some.inj hrun ▸ rfl
  | createI64 k => exact Option.some.inj hrun ▸ (pushI64_pushes (R := fun _ => False) h k).live
  | createMag s signum =>
      obtain ⟨v, hp⟩ := pushMag_pushes (R := fun _ => False) h s.2 hrun
      exact hp.live
  | createString str radix =>
      obtain ⟨⟨σ₁, ok⟩, hread, rfl⟩ := Option.map_eq_some_iff.mp hrun
      have hnew := pushDefault_pushes (R := fun _ => False) h
      obtain ⟨x, hp, -⟩ := fromString_puts hnew.wf (by rw [hnew.live]; omega) hread
      exact hp.live.trans hnew.live
  | createBytes bin little =>
      have hnew := pushDefault_pushes (R := fun _ => False) h
      have hp := assignBytes_puts (i := σ.live) (R := fun _ => False) hnew.wf
        (by rw [hnew.live]; omega) bin little
      exact Option.some.inj hrun ▸ hp.live.trans hnew.live
  | destroy i => exact Option.some.inj hrun ▸ rfl
  | assign i j => exact Option.some.inj hrun ▸ live_assign
  | assignMove i j => exact Option.some.inj hrun ▸ live_assignMove
  | assignI64 i k =>
      have hi := hwl i List.mem_cons_self
      exact Option.some.inj hrun ▸ (assignI64_puts (R := fun _ => False) h hi k).live
  | fromString i str radix =>
      obtain ⟨⟨σ₁, ok⟩, hread, rfl⟩ := Option.map_eq_some_iff.mp hrun
      obtain ⟨x, hp, -⟩ := fromString_puts h (hlt i List.mem_cons_self) hread
      exact hp.live
  | assignBytes i bin little =>
      have hi := hwl i List.mem_cons_self
      exact Option.some.inj hrun ▸ (assignBytes_puts (R := fun _ => False) h hi bin little).live
  | swap i j => exact Option.some.inj hrun ▸ rfl
  | getU32 i n => exact Option.some.inj hrun ▸ getU32_caches.live
  | toU64 i => exact Option.some.inj hrun ▸ toU64_caches.live
  | toString i radix =>
      obtain ⟨⟨s, σ₁⟩, hprint, rfl⟩ := Option.map_eq_some_iff.mp hrun
      exact (toString_writes h (hlt i List.mem_cons_self) hprint).live
  | inc i =>
      have hi := hlt i List.mem_cons_self
      exact Option.some.inj hrun ▸ (inc_puts (R := fun _ => False) h hi).live
  | dec i =>
      have hi := hlt i List.mem_cons_self
      exact Option.some.inj hrun ▸ (dec_puts (R := fun _ => False) h hi).live
  | addAssign i other =>
      have hi := hlt i List.mem_cons_self
      cases other with
      | big j =>
          have hj := hlt j (by simp [Op.reads, Arg.reads])
          exact Option.some.inj hrun ▸ (addAssign_puts h hi hj).live
      | int64 k => exact Option.some.inj hrun ▸ (addAssignI64_puts h hi k).live
  | subAssign i other =>
      have hi := hlt i List.mem_cons_self
      cases other with
      | big j =>
          have hj := hlt j (by simp [Op.reads, Arg.reads])
          exact Option.some.inj hrun ▸ (subAssign_puts h hi hj).live
      | int64 k => exact Option.some.inj hrun ▸ (subAssignI64_puts h hi k).live
  | mulAssign i other =>
      have hi := hlt i List.mem_cons_self
      cases other with
      | big j =>
          have hj := hlt j (by simp [Op.reads, Arg.reads])
          exact (mulAssignFuel_frame h hi hj hrun).live
      | int64 k =>
          obtain ⟨σ₁, hrun₁, hp⟩ := mulAssignI64_puts h hi k
          obtain rfl := Option.some.inj (hrun.symm.trans hrun₁)
          exact hp.live
  | divAssign i other =>
      have hi := hlt i List.mem_cons_self
      cases other with
      | big j =>
          have hj := hlt j (by simp [Op.reads, Arg.reads])
          exact (divAssign_writes h hi hj hrun).live
      | int64 k => exact (divAssignI64_writes h hi hrun).live
  | divideAssignAndReminder i val r =>
      have hi := hlt i List.mem_cons_self
      have hr := hlt r (by simp [Op.reads])
      cases val with
      | big j =>
          have hj := hlt j (by simp [Op.reads, Arg.reads])
          exact (divideAssignAndReminder_writes h hi hj hr hrun).live
      | int64 k => exact (divideAssignAndReminderI64_writes h hi hr hrun).live
  | modAssignAndQuotient i val q =>
      have hi := hlt i List.mem_cons_self
      have hq := hlt q (by simp [Op.reads])
      cases val with
      | big j =>
          have hj := hlt j (by simp [Op.reads, Arg.reads])
          exact (modAssignAndQuotient_writes h hi hj hq hrun).live
      | int64 k => exact (modAssignAndQuotientI64_writes h hi hq hrun).live
  | andAssign i other | orAssign i other | xorAssign i other =>
      have hi := hlt i List.mem_cons_self
      cases other with
      | big j => exact Option.some.inj hrun ▸ (bitwiseWithOther_keeps _ j h hi).1
      | int64 k => exact Option.some.inj hrun ▸ (bitwiseWithI64_keeps _ k h hi).1
  | notSelf i =>
      have hi := hlt i List.mem_cons_self
      exact Option.some.inj hrun ▸ (notSelf_keeps h hi).1
  | notBits i => exact (notBits_puts h (hlt i List.mem_cons_self) hrun).live
  | shiftLeftAssign i n =>
      obtain ⟨x, -, hp⟩ := shiftLeftAssign_spec h (hlt i List.mem_cons_self) hrun
      exact hp.live
  | shiftRightAssign i n =>
      have hi := hlt i List.mem_cons_self
      exact Option.some.inj hrun ▸ (shiftRightAssign_puts h hi n).live
  | negate i => exact Option.some.inj hrun ▸ live_negate
  | abs i => exact Option.some.inj hrun ▸ live_abs
  | mul res a b =>
      exact (mulFuel_frame _ h (hwl res List.mem_cons_self) (hlt a List.mem_cons_self)
        (hlt b (by simp [Op.reads])) hrun).live
  | div q r a b =>
      have hq := hlt q List.mem_cons_self
      have hr := hlt r (by simp [Op.reads])
      have ha := hlt a (by simp [Op.reads])
      cases b with
      | big b =>
          have hb := hlt b (by simp [Op.reads, Arg.reads])
          exact (div_frame h hq hr ha hb hrun).live
      | int64 k => exact (divI64_writes h hq hr ha hrun).live

theorem usable_step_iff (hwf : p.store.Wf) (h : step p op = some p') {k : Nat} :
    p'.Usable k ↔ (p.Usable k ∨ k ∈ op.writes ∨ op.makes = true ∧ k = p.store.live) ∧
      k ∉ op.loses := by
  obtain ⟨hreads, hwl, -, hexec, hmoved⟩ := step_inv h
  have hlive := exec_live hwf (fun k hk => (hreads k hk).1) hwl hexec
  have hwrites : k ∈ op.writes → k < p.store.live := fun hk => hwl k (List.mem_append_left _ hk)
  have hloses : k ∈ op.loses → k < p.store.live := fun hk => hwl k (List.mem_append_right _ hk)
  unfold Usable
  rw [hmoved, hlive]
  simp only [Bool.or_eq_false_iff, Bool.and_eq_false_iff, decide_eq_false_iff_not,
    not_not, Nat.not_lt]
  cases op.makes <;> simp only [Bool.toNat_true, Bool.toNat_false, Bool.false_eq_true, false_and,
    true_and, or_false] <;> constructor <;> intro hk <;> grind

private theorem step_values (hs : p.Sound) (hok : Faultless p op) (h : p.values.step op = some v) :
    ∃ p', step p op = some p' ∧ p'.values = v := by
  obtain ⟨hadm, hm⟩ := step_meaning h
  obtain ⟨⟨htop, -, hstale⟩, hfits⟩ := hok
  have hread : ∀ k ∈ op.reads, k < p.store.live := fun k hk => (hadm.1 k hk).1
  cases op with
  | create =>
      obtain rfl := Option.some.inj hm
      have hp := pushDefault_pushes (R := fun _ => False) hs.wf
      exact push_exact hs hadm rfl rfl ⟨_, rfl, hp.live, hp.num.trans Num.zero_eq_ofInt⟩
  | createCopy j =>
      obtain ⟨x, hx, hm⟩ := Option.bind_eq_some_iff.mp hm
      obtain rfl := Option.some.inj hm
      obtain ⟨hj, hnum⟩ := hs.num_of_value hx
      have hp := pushCopy_pushes (R := (· = j)) hs.wf hj rfl
      exact push_exact hs hadm rfl rfl ⟨_, rfl, hp.live, hp.num.trans hnum⟩
  | createMove j => exact createMove_step hs hadm hm
  | createI64 k =>
      obtain rfl := Option.some.inj hm
      have hp := pushI64_pushes (R := fun _ => False) hs.wf k
      rw [Num.ofI64_eq k.2 htop] at hp
      exact push_exact hs hadm rfl rfl ⟨_, rfl, hp.live, hp.num⟩
  | createMag slice signum =>
      obtain ⟨x, hx, hm⟩ := Option.bind_eq_some_iff.mp hm
      obtain rfl := Option.some.inj hm
      exact push_exact hs hadm rfl rfl (pushMag_outcome hs.wf slice.2 hx)
  | createString str radix =>
      obtain ⟨x, hx, hm⟩ := Option.bind_eq_some_iff.mp hm
      obtain rfl := Option.some.inj hm
      have hp := pushDefault_pushes (R := fun _ => False) hs.wf
      obtain ⟨σ, ok, hrun, hlive, hnum⟩ := readText_outcome hp.wf (i := p.store.live)
        (by rw [hp.live]; omega) (hp.num.trans Num.zero_eq_ofInt) hx
      refine push_exact hs hadm rfl rfl ⟨σ, ?_, hlive.trans hp.live, hnum⟩
      rw [Op.exec, hrun, Option.map_some]
  | createBytes bin little =>
      obtain rfl := Option.some.inj hm
      have hnew := pushDefault_pushes (R := fun _ => False) hs.wf
      have hp := assignBytes_puts (i := p.store.live) (R := fun _ => False) hnew.wf
        (by rw [hnew.live]; omega) bin little
      rw [(Num.ofBytes_eq_iff _).mpr hfits] at hp
      exact push_exact hs hadm rfl rfl ⟨_, rfl, hp.live.trans hnew.live, hp.num⟩
  | destroy i =>
      obtain rfl := Option.some.inj hm
      exact destroy_step hs hadm
  | assign i j =>
      obtain ⟨x, hx, hm⟩ := Option.bind_eq_some_iff.mp hm
      obtain rfl := Option.some.inj hm
      obtain ⟨hj, hnum⟩ := hs.num_of_value hx
      have hp := Puts.assign (i := i) (R := (· = j)) hs.wf hj rfl
      rw [hnum] at hp
      exact set_exact hs hadm rfl rfl hp.outcome
  | assignMove i j => exact assignMove_step hs hadm hm
  | assignI64 i k =>
      obtain rfl := Option.some.inj hm
      have hi : i < p.store.live := hadm.2.1 i List.mem_cons_self
      have hp := assignI64_puts (R := fun _ => False) hs.wf hi k
      rw [Num.ofI64_eq k.2 htop] at hp
      exact set_exact hs hadm rfl rfl hp.outcome
  | fromString i str radix =>
      obtain ⟨x, hx, hm⟩ := Option.bind_eq_some_iff.mp hm
      obtain ⟨y, hy, hm⟩ := Option.bind_eq_some_iff.mp hm
      obtain rfl := Option.some.inj hm
      obtain ⟨hi, hnum⟩ := hs.num_of_value hx
      obtain ⟨σ, ok, hrun, hlive, hnum'⟩ := readText_outcome hs.wf hi hnum hy
      refine set_exact hs hadm rfl rfl ⟨σ, ?_, hlive, hnum'⟩
      rw [Op.exec, hrun, Option.map_some]
  | assignBytes i bin little =>
      obtain rfl := Option.some.inj hm
      have hi : i < p.store.live := hadm.2.1 i List.mem_cons_self
      have hp := assignBytes_puts (R := fun _ => False) hs.wf hi bin little
      rw [(Num.ofBytes_eq_iff _).mpr hfits] at hp
      exact set_exact hs hadm rfl rfl hp.outcome
  | swap i j => exact swap_step hs hadm hm
  | getU32 i n =>
      obtain rfl := Option.some.inj hm
      exact same_exact hs hadm rfl rfl ⟨_, rfl, getU32_caches.live⟩
  | toU64 i =>
      obtain rfl := Option.some.inj hm
      exact same_exact hs hadm rfl rfl ⟨_, rfl, toU64_caches.live⟩
  | toString i radix =>
      obtain rfl := Option.some.inj hm
      have hi := hadm.1 i List.mem_cons_self
      obtain ⟨σ, hrun, hw⟩ :=
        toString_spec (of_decide_eq_true hadm.2.2) hs.wf hi.1 (hs.canon i hi)
      refine same_exact hs hadm rfl rfl ⟨σ, ?_, hw.live⟩
      rw [Op.exec, hrun, Option.map_some]
  | inc i =>
      refine unary_exact (f := (· + 1)) hs hadm rfl rfl hm fun x hi hnum => ?_
      have hp := inc_puts (R := fun _ => False) hs.wf hi
      rw [hnum, Num.inc_ofInt] at hp
      exact hp.outcome
  | dec i =>
      refine unary_exact (f := (· - 1)) hs hadm rfl rfl hm fun x hi hnum => ?_
      have hp := dec_puts (R := fun _ => False) hs.wf hi
      rw [hnum, Num.dec_ofInt] at hp
      exact hp.outcome
  | addAssign i other => exact addAssign_step hs hadm htop hm
  | subAssign i other => exact subAssign_step hs hadm htop hm
  | mulAssign i other => exact mulAssign_step hs hadm htop hm
  | divAssign i other => exact divAssign_step hs hadm hfits hm
  | divideAssignAndReminder i val r => exact divideAssignAndReminder_step hs hadm hfits hm
  | modAssignAndQuotient i val q => exact modAssignAndQuotient_step hs hadm hfits hm
  | andAssign i other =>
      exact bitwise_step hs hadm and_limbwise rfl rfl (by cases other <;> rfl) hstale hm
  | orAssign i other =>
      exact bitwise_step hs hadm or_limbwise rfl rfl (by cases other <;> rfl) hstale hm
  | xorAssign i other =>
      exact bitwise_step hs hadm xor_limbwise rfl rfl (by cases other <;> rfl) hstale hm
  | notSelf i => exact notSelf_step hs hadm hstale hm
  | notBits i =>
      exact unary_exact hs hadm rfl rfl hm fun x hi hnum => notBits_outcome hs.wf hi hnum htop
  | shiftLeftAssign i n =>
      refine unary_exact (f := (· * 2 ^ n)) hs hadm rfl rfl hm fun x hi hnum => ?_
      obtain ⟨σ, hrun, hp⟩ := shiftLeftAssign_puts hs.wf hi (hnum ▸ Num.shl_ofInt x n)
      exact ⟨σ, hrun, hp.live, hp.num⟩
  | shiftRightAssign i n =>
      refine unary_exact (f := (· / 2 ^ n)) hs hadm rfl rfl hm fun x hi hnum => ?_
      have hp := shiftRightAssign_puts hs.wf hi n
      rw [hnum, Num.shr_ofInt] at hp
      exact hp.outcome
  | negate i =>
      refine unary_exact hs hadm rfl rfl hm fun x hi hnum => ?_
      have hp := Puts.negate (R := (· = i)) hs.wf rfl
      rw [hnum, Num.negate_ofInt] at hp
      exact hp.outcome
  | abs i =>
      refine unary_exact (f := fun x => |x|) hs hadm rfl rfl hm fun x hi hnum => ?_
      have hp := Puts.abs (R := (· = i)) hs.wf rfl
      rw [hnum, Num.abs_ofInt, Int.natCast_natAbs] at hp
      exact hp.outcome
  | mul res a b => exact mul_step hs hadm hfits hm
  | div q r a b => exact div_step hs hadm hfits hm

/-- An operation that meets no such condition does to the objects what it means for integers. -/
theorem step_exact (hs : p.Sound) (hok : Faultless p op) (h : p.values.step op = some v) :
    ∃ p', step p op = some p' ∧ p'.Sound ∧ p'.values = v := by
  obtain ⟨p', hstep, hvalues⟩ := step_values hs hok h
  exact ⟨p', hstep, step_sound hs hok.1 hstep, hvalues⟩

theorem values_initial : initial.values = Values.initial :=
  Values.ext (funext fun i => value_of_not_usable (not_usable_initial (i := i))) rfl

theorem Sound.initial : Program.initial.Sound :=
  ⟨Wf.initial, fun _ hi => absurd hi not_usable_initial, fun _ hi => absurd hi (Nat.not_lt_zero _)⟩

/-- Programs compute with integers: whatever a program does to integers it does to the objects, in
every run whose operations are faultless. -/
theorem run_computes {ops : List Op} (hok : Runs.Guarded step Faultless initial ops)
    (h : ops.foldlM Values.step Values.initial = some v) :
    ∃ p, ops.foldlM step initial = some p ∧ p.Sound ∧ p.values = v := by
  rw [← values_initial] at h
  exact Runs.simulation Program.values (fun p op v hs hok h => step_exact hs hok h) Sound.initial hok h

/-- A square of an object that shares its vector, and a quotient by the copy. -/
def squareOps : List Op :=
  [.createI64 ⟨2 ^ 40, by decide⟩, .createCopy 0, .mulAssign 0 (.big 0),
    .subAssign 0 (.int64 ⟨7, by decide⟩), .divAssign 0 (.big 1)]

theorem run_computes_square : ∃ p, squareOps.foldlM step initial = some p ∧
    p.values.value 0 = some (2 ^ 40 - 1) ∧ p.values.value 1 = some (2 ^ 40) := by
  have htop : ¬ Num.TopLimbZero (2 ^ 40) := by decide
  have htop' : ¬ Num.TopLimbZero 7 := by decide
  have hok : Runs.Guarded step Faultless initial squareOps :=
    ⟨⟨⟨htop, trivial, trivial⟩, trivial⟩, fun _ _ => ⟨⟨⟨trivial, trivial, trivial⟩, trivial⟩,
      fun _ _ => ⟨⟨⟨trivial, trivial, trivial⟩, trivial⟩, fun _ _ =>
        ⟨⟨⟨fun h => absurd h htop', trivial, trivial⟩, trivial⟩, fun _ _ =>
          ⟨⟨⟨trivial, trivial, trivial⟩, trivial⟩, fun _ _ => trivial⟩⟩⟩⟩⟩
  obtain ⟨p, hrun, -, hvalues⟩ := run_computes hok rfl
  refine ⟨p, hrun, ?_, ?_⟩ <;> rw [hvalues] <;> decide

end Program

end PGBigNumber
