import PGBigNumber.Text
import PGBigNumber.Store.DivAssign
import PGBigNumber.Store.GetU32
import PGBigNumber.Store.Mul

/-!
# Text conversion

`toString` divides a copy by the largest block radix that fits a machine integer and prints the
remainders. `fromString` folds blocks of 32 bits into a local object.
-/

namespace PGBigNumber

namespace Store

/-- The loop of `toString`: the printed blocks in the order they are made. -/
def toStringLoop (temp blockRadix r radix : Nat) :
    Nat → Store → Option (List (List Char) × Store)
  | fuel, σ =>
    if σ.isZero temp then some ([], σ)
    else
      match fuel with
      | 0 => none
      | fuel + 1 => do
        let σ ← σ.divideAssignAndReminder temp blockRadix r
        let (u64, σ) := σ.toU64 r
        let (strs, σ) ← toStringLoop temp blockRadix r radix fuel σ
        some (toChars u64.toNat radix :: strs, σ)

/-- `toString`; the locals are the block radix, `r` and `temp`. -/
def toString (σ : Store) (i radix : Nat) : Option (List Char × Store) :=
  if σ.isZero i then some (['0'], σ)
  else do
    let n := σ.live
    let res := if (σ.sign i).negative then ['-'] else []
    let fuel := (σ.mag i).count
    let σ := ((σ.pushI64 (getU64BlockRadix radix)).pushDefault.pushCopy i).abs (n + 2)
    let (strs, σ) ← toStringLoop (n + 2) n (n + 1) radix fuel σ
    some (res ++ joinBlocks (getDigitCountPerU64 radix) strs, σ.popTo n)

/-- The loop of `fromString`; `false` where a block does not start with a digit. -/
def fromStringLoop (temp radix : Nat) : Nat → List Char → Store → Option (Bool × Store)
  | fuel, s, σ =>
    if s = [] then some (true, σ)
    else
      match fuel with
      | 0 => none
      | fuel + 1 =>
        let blockSize := getDigitCountPerU32 radix
        match fromChars (s.take blockSize) radix with
        | none => some (false, σ)
        | some blockValue => do
          let σ ← σ.mulAssignI64 temp (getU32BlockRadix radix)
          let σ := σ.addAssignI64 temp blockValue.toNat
          fromStringLoop temp radix fuel (s.drop blockSize) σ

def fromString (σ : Store) (i : Nat) (str : List Char) (radix : Int) :
    Option (Store × Option Bool) :=
  if radix < 2 ∨ radix > 36 then some (σ.setStatus .radixInvalid, some false)
  else if str = [] then some (σ.setStatus .numberStringEmpty, some false)
  else
    match signPart str with
    | none => some (σ.setStatus .numberStringSigInvalid, some false)
    | some (sigNum, pos) =>
      if pos = str.length then some (σ.setStatus .numberStringEmpty, some false)
      else
        let digits := (str.drop pos).dropWhile (· == '0')
        if digits = [] then some (σ.beZero i, none)
        else
          let radix := radix.toNat
          let n := σ.live
          let σ := σ.pushDefault.setSign n .pos
          let digitCnt := digits.length
          if getBitCountByDigitCount digitCnt radix + 31 ≥ 2 ^ 32 then
            some ((σ.popTo n).setStatus .arithmeticOverflow, some false)
          else
            let first := firstBlockSize digitCnt (getDigitCountPerU32 radix)
            match fromChars (digits.take first) radix with
            | none => some ((σ.popTo n).setStatus .numberStringParse2NumError, some false)
            | some mag0 => do
              let σ := σ.putMag n ((σ.mag n).append mag0)
              let (parsed, σ) ← fromStringLoop n radix digitCnt (digits.drop first) σ
              if parsed then
                let σ := σ.setSign n (if sigNum = -1 then .neg else .pos)
                some (((σ.assignMove i n).popTo n).setStatus .success, some true)
              else some ((σ.popTo n).setStatus .numberStringParse2NumError, some false)

variable {σ σ₁ : Store} {i n : Nat} {radix : Nat} {R : Nat → Prop}

theorem Keeps.popLocals (h : Keeps σ.live (fun _ => False) σ σ₁) :
    Writes σ (fun _ => False) (σ₁.popTo σ.live) := by
  have hpop := h.then fun hg => Keeps.popTo (S := fun _ => False) hg (Nat.le_refl _) h.good.le
  exact ⟨rfl, hpop, fun hc j hj => hpop.cache j hj (fun hf => hf) (hc j hj)⟩

theorem toStringLoop_keeps {temp blockRadix r fuel : Nat} {strs : List (List Char)} (h : σ.Wf)
    (htemp : temp < σ.live) (hradix : blockRadix < σ.live) (hr : r < σ.live)
    (hrun : toStringLoop temp blockRadix r radix fuel σ = some (strs, σ₁)) :
    σ₁.live = σ.live ∧ Keeps σ.live (fun j => j = temp ∨ j = r) σ σ₁ := by
  induction fuel generalizing σ strs with
  | zero =>
      rw [toStringLoop] at hrun
      by_cases hz : σ.isZero temp = true
      · rw [if_pos hz, Option.some.injEq, Prod.mk.injEq] at hrun
        obtain ⟨-, rfl⟩ := hrun
        exact ⟨rfl, .refl h.good⟩
      · rw [if_neg hz] at hrun
        exact absurd hrun (by simp)
  | succ fuel ih =>
      rw [toStringLoop] at hrun
      by_cases hz : σ.isZero temp = true
      · rw [if_pos hz, Option.some.injEq, Prod.mk.injEq] at hrun
        obtain ⟨-, rfl⟩ := hrun
        exact ⟨rfl, .refl h.good⟩
      · rw [if_neg hz] at hrun
        simp only [Option.bind_eq_bind, Option.bind_eq_some_iff, Option.some.injEq,
          Prod.mk.injEq] at hrun
        obtain ⟨σ₂, hdiv, ⟨rest, σ₃⟩, hloop, -, rfl⟩ := hrun
        have hw := divideAssignAndReminder_writes h htemp hradix hr hdiv
        have hc := (toU64_caches (i := r)).writes (S := fun _ => False) hw.wf
        have hlive := hw.live
        have hlive' := hc.live
        obtain ⟨hl, hkeeps⟩ := ih hc.wf (by omega) (by omega) (by omega) hloop
        have hrest : Keeps σ.live (fun j => j = temp ∨ j = r) (σ₂.toU64 r).2 σ₃ :=
          hkeeps.mono (by omega) fun _ _ hj => hj
        refine ⟨by omega, hw.keeps.then fun _ => ?_⟩
        exact (hc.keeps.mono (by omega) fun _ _ hf => hf.elim).then fun _ => hrest

/-- The locals of `toString`: the radix of a block, a remainder and the magnitude to print. -/
structure Printing (σ : Store) (i : Nat) (blockRadix : Int) (σ' : Store) : Prop where
  live : σ'.live = σ.live + 3
  keeps : Keeps σ.live (fun _ => False) σ σ'
  radix : σ'.num σ.live = Num.ofI64 blockRadix
  number : σ'.num (σ.live + 2) = (σ.num i).abs

private theorem printing (h : σ.Wf) (hi : i < σ.live) (blockRadix : Int) :
    Printing σ i blockRadix
      ((((σ.pushI64 blockRadix).pushDefault).pushCopy i).abs (σ.live + 2)) := by
  have h₁ := pushI64_pushes (R := fun _ => False) h blockRadix
  have h₂ := pushDefault_pushes (R := fun _ => False) h₁.wf
  have hl₁ := h₁.live
  have hl₂ := h₂.live
  have h₃ := pushCopy_pushes (R := (· = i)) h₂.wf (j := i) (by omega) rfl
  have hl₃ := h₃.live
  have h₄ := Puts.abs (i := σ.live + 2) (R := (· = σ.live + 2)) h₃.wf rfl
  have hl₄ := h₄.live
  have hnew : ((σ.pushI64 blockRadix).pushDefault).live = σ.live + 2 := by omega
  refine ⟨by omega, ?_, ?_, ?_⟩
  · exact (h₁.keepsAt (Nat.le_refl _)).then fun _ => (h₂.keepsAt (by omega)).then fun _ =>
      (h₃.keepsAt (by omega)).then fun _ => h₄.keepsAt (by omega) (by omega)
  · rw [h₄.num_ne (by omega) (by omega), h₃.num_old (by omega), h₂.num_old (by omega), h₁.num]
  · have hcopy := h₃.num
    rw [hnew, h₂.num_old (by omega), h₁.num_old hi] at hcopy
    rw [h₄.num, hcopy]

theorem toString_writes {s : List Char} (h : σ.Wf) (hi : i < σ.live)
    (hrun : σ.toString i radix = some (s, σ₁)) : Writes σ (fun _ => False) σ₁ := by
  unfold toString at hrun
  by_cases hz : σ.isZero i = true
  · rw [if_pos hz, Option.some.injEq, Prod.mk.injEq] at hrun
    obtain ⟨-, rfl⟩ := hrun
    exact .refl h
  rw [if_neg hz] at hrun
  simp only [Option.bind_eq_bind, Option.bind_eq_some_iff, Option.some.injEq,
    Prod.mk.injEq] at hrun
  obtain ⟨⟨strs, σ₅⟩, hloop, -, rfl⟩ := hrun
  have hp := printing h hi (getU64BlockRadix radix)
  have hlive := hp.live
  obtain ⟨-, hkeeps⟩ := toStringLoop_keeps hp.keeps.good.wf (by omega) (by omega) (by omega) hloop
  have hall : Keeps σ.live (fun _ => False) σ σ₅ :=
    hp.keeps.then fun _ => hkeeps.mono (by omega) fun j hj hor => by omega
  exact hall.popLocals

/-- The loop peels the digits of the value in the radix of a block off. -/
theorem toStringLoop_spec (hr : ValidRadix radix) (temp blockRadix r : Nat) (hrt : r ≠ temp)
    (hbt : blockRadix ≠ temp) (hbr : blockRadix ≠ r) (fuel m : Nat) {σ : Store} (h : σ.Wf)
    (htemp : temp < σ.live) (hradix : blockRadix < σ.live) (hrl : r < σ.live)
    (hm : σ.num temp = Num.ofInt m) (hb : σ.num blockRadix = Num.ofInt (getU64BlockRadix radix))
    (hfuel : m < (2 ^ 32) ^ fuel) :
    ∃ σ', toStringLoop temp blockRadix r radix fuel σ =
      some ((Nat.digits (getU64BlockRadix radix) m).map (toChars · radix), σ') := by
  have hrange := getU64BlockRadix_range hr
  induction fuel generalizing m σ with
  | zero =>
      have h0 : m = 0 := by
        rw [Nat.pow_zero] at hfuel
        omega
      refine ⟨σ, ?_⟩
      rw [toStringLoop, if_pos ((isZero_iff hm).mpr (by omega)), h0, Nat.digits_zero, List.map_nil]
  | succ fuel ih =>
      by_cases h0 : m = 0
      · refine ⟨σ, ?_⟩
        rw [toStringLoop, if_pos ((isZero_iff hm).mpr (by omega)), h0, Nat.digits_zero, List.map_nil]
      have hz : ¬ σ.isZero temp = true := fun hz => h0 (by exact_mod_cast (isZero_iff hm).mp hz)
      obtain ⟨σ₁, hrun, hquot, hrem⟩ := divideAssignAndReminder_num (v := m)
        (dividesTo_ofInt (w := getU64BlockRadix radix) (by omega)) h htemp hradix hrl hm hb
      have hw := divideAssignAndReminder_writes h htemp hradix hrl hrun
      have hlive := hw.live
      have hrem := hrem hrt
      rw [← Int.ofNat_tdiv] at hquot
      rw [Int.tmod_eq_emod_of_nonneg (by omega), ← Int.natCast_emod] at hrem
      have hlt := Nat.mod_lt m (show getU64BlockRadix radix > 0 by omega)
      obtain ⟨hu64, hsame⟩ := toU64_ofNat hw.wf (i := r) (by omega) hrem (by omega)
      have hnext : m / getU64BlockRadix radix < (2 ^ 32) ^ fuel := by
        rw [Nat.div_lt_iff_lt_mul (by omega)]
        rw [Nat.pow_succ] at hfuel
        exact Nat.lt_of_lt_of_le hfuel (Nat.mul_le_mul_left _ (by omega))
      obtain ⟨σ₂, hrun₂⟩ := ih (m / getU64BlockRadix radix) hw.wf (by omega)
        (by omega) (by omega) hquot ((hw.keeps.num _ hradix (by omega)).trans hb) hnext
      refine ⟨σ₂, ?_⟩
      rw [toStringLoop, if_neg hz, Nat.digits_def' (by omega) (Nat.pos_of_ne_zero h0), List.map_cons]
      simp only [Option.bind_eq_bind, hrun, Option.bind_some, hsame, hrun₂, hu64]

/-- `toString` returns the numeral and leaves every object as it is. -/
theorem toString_spec (hr : ValidRadix radix) (h : σ.Wf) (hi : i < σ.live)
    (hx : (σ.num i).Canon) :
    ∃ σ', σ.toString i radix = some ((if (σ.num i).toInt < 0 then ['-'] else []) ++
        toChars (σ.num i).toInt.natAbs radix, σ') ∧ Writes σ (fun _ => False) σ' := by
  have hv := hx.eq_ofInt
  generalize (σ.num i).toInt = v at hv
  by_cases hz : σ.isZero i = true
  · refine ⟨σ, ?_, .refl h⟩
    rw [toString, if_pos hz, (isZero_iff hv).mp hz]
    rfl
  have h0 : v ≠ 0 := fun h0 => hz ((isZero_iff hv).mpr h0)
  have hrange := getU64BlockRadix_range hr
  have hp := printing h hi (getU64BlockRadix radix)
  have hlive := hp.live
  have hmag := hp.number
  rw [hv, Num.abs_ofInt] at hmag
  have hradix := hp.radix
  rw [Num.ofI64_eq ⟨by omega, by omega⟩ (by unfold Num.TopLimbZero; omega)] at hradix
  have hfuel : v.natAbs < (2 ^ 32) ^ (σ.mag i).count := by
    have hlt := mag_lt (σ.limbs i)
    rw [h.length_limbs hi, ← num_limbs, hv, Num.mag_ofInt] at hlt
    exact hlt
  obtain ⟨σ₅, hrun⟩ := toStringLoop_spec hr (σ.live + 2) σ.live
    (σ.live + 1) (by omega) (by omega) (by omega) (σ.mag i).count
    v.natAbs hp.keeps.good.wf (by omega) (by omega) (by omega) hmag hradix hfuel
  have hsign : (σ.sign i).negative = decide (v < 0) := by
    rw [← num_sign, hv, Num.ofInt, if_neg h0]
    by_cases hpos : 0 < v
    · rw [if_pos hpos]
      exact (decide_eq_false (by omega)).symm
    · rw [if_neg hpos]
      exact (decide_eq_true (by omega)).symm
  suffices hall : σ.toString i radix = some ((if v < 0 then ['-'] else []) ++
      toChars v.natAbs radix, σ₅.popTo σ.live) from ⟨_, hall, toString_writes h hi hall⟩
  rw [toString, if_neg hz]
  simp only [Option.bind_eq_bind, hrun, Option.bind_some, hsign, decide_eq_true_eq]
  rw [getU64BlockRadix_eq hr, joinBlocks_digits hr]
  · by_contra hk
    have hpow := getU64BlockRadix_eq hr
    rw [Nat.eq_zero_of_not_pos hk, Nat.pow_zero] at hpow
    omega
  · omega

private theorem fold_block (hr : ValidRadix radix) (h : σ.Wf) {temp m x : Nat}
    (htemp : temp < σ.live) (hm : σ.num temp = Num.ofInt m) (hx : x < getU32BlockRadix radix) :
    ∃ σ', σ.mulAssignI64 temp (getU32BlockRadix radix) = some σ' ∧
      Puts σ temp (· = temp) (Num.ofInt ((m * getU32BlockRadix radix + x : Nat) : Int))
        (σ'.addAssignI64 temp x) := by
  have hrange := getU32BlockRadix_range hr
  obtain ⟨σ₁, hrun, hmul⟩ := mulAssignI64_puts h htemp (getU32BlockRadix radix)
  rw [hm, Num.ofI64_eq ⟨by omega, by omega⟩ (by unfold Num.TopLimbZero; omega), Num.mulSmall_ofInt]
    at hmul
  have hadd := addAssignI64_puts hmul.wf (i := temp) (by rw [hmul.live]; exact htemp) x
  rw [hmul.num, Num.ofI64_eq ⟨by omega, by omega⟩ (by unfold Num.TopLimbZero; omega),
    Num.add_ofInt] at hadd
  refine ⟨σ₁, hrun, (hmul.trans hadd fun _ he => Or.inl he).of_num ?_⟩
  rw [hadd.num]
  push_cast
  rfl

/-- The loop stops early exactly at a block that does not start with a digit. -/
theorem fromStringLoop_spec (hr : ValidRadix radix) (temp fuel : Nat) (s : List Char)
    {σ : Store} {m : Nat} (h : σ.Wf) (htemp : temp < σ.live) (hm : σ.num temp = Num.ofInt m)
    (hpos : 0 < m) (hfuel : s.length ≤ fuel) :
    ∃ b σ' m', fromStringLoop temp radix fuel s σ = some (b, σ') ∧
      Puts σ temp (· = temp) (Num.ofInt (m' : Nat)) σ' ∧ 0 < m' ∧
      (b = true ↔ BlocksStart radix (getDigitCountPerU32 radix) s) ∧
      (s.length % getDigitCountPerU32 radix = 0 → s.all (isDigit radix) = true →
        m' = m * radix ^ s.length + digitsMag radix s) := by
  have hd := getDigitCountPerU32_pos hr
  induction fuel generalizing s σ m with
  | zero =>
      obtain rfl := List.length_eq_zero_iff.mp (Nat.le_zero.mp hfuel)
      refine ⟨true, σ, m, by rw [fromStringLoop, if_pos rfl],
        (Puts.refl (R := (· = temp)) h rfl).of_num hm, hpos, ?_, ?_⟩
      · simp [blocksStart_nil]
      · simp
  | succ fuel ih =>
      cases s with
      | nil =>
          refine ⟨true, σ, m, by rw [fromStringLoop, if_pos rfl],
            (Puts.refl (R := (· = temp)) h rfl).of_num hm, hpos, ?_, ?_⟩
          · simp [blocksStart_nil]
          · simp
      | cons c t =>
          set d := getDigitCountPerU32 radix with hdef
          obtain ⟨k, hk⟩ := Nat.exists_eq_succ_of_ne_zero hd.ne'
          have hblock : (c :: t).take d = c :: t.take k := by rw [hk, List.take_succ_cons]
          have hlen : (c :: t.take k).length ≤ d := by
            rw [← hblock, List.length_take]
            exact Nat.min_le_left _ _
          have hsome := fromChars_isSome hr hlen
          rw [fromStringLoop, if_neg (by simp)]
          dsimp only
          rw [hblock]
          cases hconv : fromChars (c :: t.take k) radix with
          | none =>
              rw [hconv] at hsome
              refine ⟨false, σ, m, rfl, (Puts.refl (R := (· = temp)) h rfl).of_num hm, hpos, ?_,
                fun _ hall => ?_⟩
              · rw [blocksStart_cons, ← hsome]
                simp
              · rw [List.all_cons, ← hsome] at hall
                exact absurd hall (by simp)
          | some x =>
              rw [hconv] at hsome
              obtain ⟨hlt, -⟩ := fromChars_lt hr hlen hconv
              obtain ⟨σ₁, hrun, hputs⟩ := fold_block hr h htemp hm hlt
              have hrange := getU32BlockRadix_range hr
              have hmpos : 0 < m * getU32BlockRadix radix :=
                Nat.mul_pos hpos (by omega)
              obtain ⟨b, σ₂, m', hrun₂, hputs₂, hm', hb, hval⟩ := ih ((c :: t).drop d) hputs.wf
                (by rw [hputs.live]; exact htemp) hputs.num (by omega)
                (by rw [List.length_drop]; omega)
              refine ⟨b, σ₂, m', ?_, hputs.trans hputs₂ fun _ he => Or.inl he, hm', ?_, ?_⟩
              · simp only [Option.bind_eq_bind, hrun, Option.bind_some]
                exact hrun₂
              · rw [hb, blocksStart_cons, ← hsome]
                simp
              · intro hmod hall
                have hle : d ≤ (c :: t).length :=
                  Nat.le_of_dvd (Nat.succ_pos _) (Nat.dvd_of_mod_eq_zero hmod)
                have hsplit := List.take_append_drop d (c :: t)
                have halls := hall
                rw [← hsplit, List.all_append, Bool.and_eq_true] at halls
                obtain ⟨y, hy, hyval⟩ := fromChars_digits hr (by simp) hlen (hblock ▸ halls.1)
                obtain rfl := Option.some.inj (hconv.symm.trans hy)
                rw [hval (by rw [List.length_drop, ← Nat.mod_eq_sub_mod hle]; exact hmod) halls.2,
                  hyval, ← hblock, getU32BlockRadix_eq hr, ← hdef, Nat.add_mul, Nat.mul_assoc,
                  ← Nat.pow_add, List.length_drop, Nat.add_sub_cancel' hle, Nat.add_assoc,
                  ← List.length_drop, ← digitsMag_append, hsplit]

private theorem Sole.pushDefault (h : σ.Wf) : σ.pushDefault.Sole σ.live := by
  intro j hj hji
  rw [live_pushDefault] at hj
  have hself : (σ.pushDefault.obj σ.live).data = σ.next := by
    simp [Store.pushDefault, push, Store.newMag]
  simp only [obj_pushDefault_ne hji, hself]
  exact Nat.ne_of_lt (h j (by omega)).2

private theorem first_block (h : σ.Wf) {x : UInt32} (hx : x ≠ 0) :
    Pushes σ R (Num.ofInt x.toNat)
      (((σ.pushDefault).setSign σ.live .pos).putMag σ.live
        ((((σ.pushDefault).setSign σ.live .pos).mag σ.live).append x)) := by
  have h₁ := pushDefault_pushes (R := R) h
  have hl₁ := h₁.live
  have h₂ := Puts.setSign (i := σ.live) (R := (· = σ.live)) h₁.wf rfl .pos
  have hl₂ := h₂.live
  have hlimbs : σ.pushDefault.limbs σ.live = [] := by
    rw [← num_limbs, h₁.num]
    rfl
  have hwf := (h₂.wf σ.live (by omega)).1
  have h₃ := Puts.put (R := fun _ => False) h₂.wf ((Sole.pushDefault h).modify (by simp))
    (by rw [calcued_setSign, calcued_pushDefault_self]) (Slice.append_wf hwf x)
  have htrim : Trimmed [x] := trimmed_concat (l := []) hx
  have hlist : (((σ.pushDefault.setSign σ.live .pos).mag σ.live).append x).toList = [x] := by
    rw [Slice.toList_append hwf, mag_setSign, ← limbs_eq, hlimbs, List.nil_append]
  rw [hlist, sign_setSign_self, show (⟨.pos, [x]⟩ : Num) = Num.signed true [x] from rfl,
    Num.signed_eq_ofInt _ (by simp) htrim, Num.signedInt_true, mag_singleton] at h₃
  exact (h₁.puts h₂ fun _ he => Or.inl he).puts h₃ fun _ (hf : False) => hf.elim

/-- What `fromString` does to object `i` on a numeral in a valid radix. -/
structure Reads (σ : Store) (i radix : Nat) (s : List Char) (σ' : Store) (ok : Option Bool) :
    Prop where
  rejected : Rejected radix s → ok = some false ∧ Writes σ (fun _ => False) σ'
  zero : ¬ Rejected radix s → significant s = [] → ok = none ∧ Puts σ i (fun _ => False) Num.zero σ'
  value : ¬ Rejected radix s → significant s ≠ [] → ok = some true ∧
    ∃ v, Puts σ i (fun _ => False) (Num.ofInt v) σ' ∧
      ((significant s).all (isDigit radix) = true →
        v = (if s.head? = some '-' then -1 else 1) * digitsMag radix (significant s))

private theorem Reads.of_rejected {s : List Char} (hrej : Rejected radix s)
    (hw : Writes σ (fun _ => False) σ₁) (e : ErrCode) :
    Reads σ i radix s (σ₁.setStatus e) (some false) :=
  ⟨fun _ => ⟨rfl, hw.trans (.setStatus hw.wf e)⟩, fun hn => absurd hrej hn, fun hn => absurd hrej hn⟩

private theorem finish_value (hi : i < σ.live) (hp : Pushes σ (fun _ => False) (Num.ofInt n) σ₁)
    (hpos : 0 < n) (negative : Prop) [Decidable negative] :
    Puts σ i (fun _ => False) (Num.ofInt ((if negative then -1 else 1) * n))
      (((((σ₁.setSign σ.live (if negative then .neg else .pos)).assignMove i σ.live).popTo
        σ.live)).setStatus .success) := by
  have hlive := hp.live
  have h₁ := Puts.setSign (i := σ.live) (R := (· = σ.live)) hp.wf rfl
    (if negative then .neg else .pos)
  have hnum : (⟨if negative then .neg else .pos, σ₁.limbs σ.live⟩ : Num) =
      Num.ofInt ((if negative then -1 else 1) * n) := by
    have hlimbs : σ₁.limbs σ.live = Num.limbsOf n := by
      rw [← num_limbs, hp.num]
      rfl
    rw [hlimbs]
    by_cases hneg : negative
    · rw [if_pos hneg, if_pos hneg, Num.ofInt_neg (by omega)]
      congr 2
      omega
    · rw [if_neg hneg, if_neg hneg, Num.ofInt_pos (by omega)]
      congr 2
      omega
  rw [hnum] at h₁
  have hlocal := hp.puts h₁ fun _ he => Or.inl he
  set τ := σ₁.setSign σ.live (if negative then .neg else .pos)
  have hlτ := hlocal.live
  have h₂ := Puts.assign (i := i) (R := (· = σ.live)) hlocal.wf (by omega) rfl
  have hl₂ := h₂.live
  have h₃ := assignMove_source_puts (j := σ.live) (R := fun _ => False) h₂.wf
  have hl₃ := h₃.live
  rw [assignMove, if_neg (show ¬ i = σ.live by omega)]
  refine ⟨rfl, ?_, ?_, fun _ => ?_⟩
  · exact (hlocal.keepsAt (Nat.le_refl _)).then fun _ => (h₂.keepsAt (n := σ.live) (S := (· = i))
      (by omega) fun _ => rfl).then fun _ =>
      (h₃.keepsAt (n := σ.live) (S := (· = i)) (by omega) (by omega)).then fun hg =>
        (Keeps.popTo hg (Nat.le_refl _) (by omega)).then fun hg => .setStatus hg _
  · exact (h₃.num_ne (by omega) (by omega)).trans (h₂.num.trans hlocal.num)
  · refine h₃.keeps.cache i (by omega) (by omega) (h₂.cache fun j hj => ?_)
    exact hj ▸ hlocal.cache fun _ hf => hf.elim

private theorem first_block_isSome (hr : ValidRadix radix) (c : Char) (t : List Char) :
    (fromChars ((c :: t).take (firstBlockSize (c :: t).length (getDigitCountPerU32 radix)))
      radix).isSome = isDigit radix c := by
  obtain ⟨hpos, hle, -⟩ :=
    firstBlockSize_spec (getDigitCountPerU32_pos hr) (show 0 < (c :: t).length by simp)
  obtain ⟨k, hk⟩ := Nat.exists_eq_succ_of_ne_zero hpos.ne'
  have hlen : ((c :: t).take (firstBlockSize (c :: t).length (getDigitCountPerU32 radix))).length ≤
      getDigitCountPerU32 radix := by
    rw [List.length_take]
    omega
  rw [hk, List.take_succ_cons] at hlen ⊢
  exact fromChars_isSome hr hlen

private theorem blocks_read (hr : ValidRadix radix) (h : σ.Wf) {s t : List Char} {c : Char}
    {x : UInt32} (hdigits : significant s = c :: t)
    (hconv : fromChars ((c :: t).take (firstBlockSize (c :: t).length
      (getDigitCountPerU32 radix))) radix = some x) :
    ∃ b σ₂ m, fromStringLoop σ.live radix (c :: t).length
        ((c :: t).drop (firstBlockSize (c :: t).length (getDigitCountPerU32 radix)))
        (((σ.pushDefault).setSign σ.live .pos).putMag σ.live
          ((((σ.pushDefault).setSign σ.live .pos).mag σ.live).append x)) = some (b, σ₂) ∧
      Pushes σ (fun _ => False) (Num.ofInt (m : Nat)) σ₂ ∧ 0 < m ∧
      (b = true ↔ ¬ BadBlock radix (getDigitCountPerU32 radix) (c :: t)) ∧
      ((c :: t).all (isDigit radix) = true → m = digitsMag radix (c :: t)) := by
  have hd := getDigitCountPerU32_pos hr
  have hgood := not_badBlock_iff radix hd c t
  have hdigit := first_block_isSome hr c t
  rw [hconv, Option.isSome_some] at hdigit
  obtain ⟨hfpos, hfle, n, hfn⟩ := firstBlockSize_spec hd (show 0 < (c :: t).length by simp)
  set first := firstBlockSize (c :: t).length (getDigitCountPerU32 radix)
  have hblock : ((c :: t).take first).length ≤ getDigitCountPerU32 radix := by
    rw [List.length_take]
    omega
  have hxpos : 0 < x.toNat := by
    obtain ⟨k, hk⟩ := Nat.exists_eq_succ_of_ne_zero hfpos.ne'
    rw [(fromChars_lt hr hblock hconv).2, hk, List.take_succ_cons]
    exact first_block_pos hr hdigits hdigit.symm
  have hp := first_block (R := fun _ => False) h (x := x) fun h0 => by
    rw [h0] at hxpos
    exact absurd hxpos (by decide)
  have hlp := hp.live
  obtain ⟨b, σ₂, m, hrun, hputs, hm, hb, hexact⟩ := fromStringLoop_spec hr σ.live
    (c :: t).length ((c :: t).drop first) hp.wf (by omega) hp.num hxpos
    (by rw [List.length_drop]; omega)
  refine ⟨b, σ₂, m, hrun, hp.puts hputs fun _ he => Or.inl he, hm, ?_, fun hall => ?_⟩
  · rw [hgood, hb, ← hdigit]
    exact ⟨fun hs => ⟨rfl, hs⟩, fun hs => hs.2⟩
  · have hsplit := List.take_append_drop first (c :: t)
    rw [← hsplit, List.all_append, Bool.and_eq_true] at hall
    obtain ⟨y, hy, hyval⟩ := fromChars_digits hr (by simp; omega) hblock hall.1
    obtain rfl := Option.some.inj (hconv.symm.trans hy)
    -- the blocks behind the first one are full
    have hfull : ((c :: t).drop first).length % getDigitCountPerU32 radix = 0 := by
      rw [List.length_drop, show (c :: t).length - first = n * getDigitCountPerU32 radix by omega]
      exact Nat.mul_mod_left _ _
    rw [hexact hfull hall.2, hyval, ← digitsMag_append, hsplit]

theorem fromString_reads (hr : ValidRadix radix) (h : σ.Wf) (hi : i < σ.live) (s : List Char) :
    ∃ σ' ok, σ.fromString i s radix = some (σ', ok) ∧ Reads σ i radix s σ' ok := by
  have hrange := hr
  unfold ValidRadix at hrange
  have hd := getDigitCountPerU32_pos hr
  unfold fromString
  rw [if_neg (by omega)]
  by_cases hnil : s = []
  · rw [if_pos hnil]
    exact ⟨_, _, rfl, .of_rejected (Or.inr (Or.inl (by rw [hnil]; rfl))) (.refl h) _⟩
  rw [if_neg hnil, signPart_eq]
  by_cases hsign : '-' ∈ unsigned s ∨ '+' ∈ unsigned s
  · rw [if_pos hsign]
    exact ⟨_, _, rfl, .of_rejected (Or.inl hsign) (.refl h) _⟩
  rw [if_neg hsign]
  dsimp only
  have hle : (unsigned s).length ≤ s.length := by
    unfold unsigned
    split
    · rw [List.length_tail]
      omega
    · exact Nat.le_refl _
  have hpos := List.length_pos_of_ne_nil hnil
  by_cases hempty : unsigned s = []
  · rw [if_pos (by rw [hempty]; rfl)]
    exact ⟨_, _, rfl, .of_rejected (Or.inr (Or.inl hempty)) (.refl h) _⟩
  have hlen := List.length_pos_of_ne_nil hempty
  rw [if_neg (by omega), drop_unsigned, ← significant, Int.toNat_natCast]
  by_cases hzero : significant s = []
  · rw [if_pos hzero]
    have hgood : ¬ Rejected radix s := by
      rintro (hs | hs | hs | ⟨j, hj, -⟩)
      · exact hsign hs
      · exact hempty hs
      · exact overflows_nil hzero hs
      · rw [hzero] at hj
        exact absurd hj (Nat.not_lt_zero _)
    exact ⟨_, _, rfl, fun hrej => absurd hrej hgood, fun _ _ => ⟨rfl, .beZero h⟩,
      fun _ hne => absurd hzero hne⟩
  rw [if_neg hzero]
  have h₁ := pushDefault_pushes (R := fun _ => False) h
  have h₂ := Puts.setSign (i := σ.live) (R := (· = σ.live)) h₁.wf rfl .pos
  have hlocal : Keeps σ.live (fun _ => False) σ (σ.pushDefault.setSign σ.live .pos) :=
    (h₁.keepsAt (Nat.le_refl _)).then fun _ => h₂.keepsAt (by rw [h₁.live]; omega) (by omega)
  by_cases hover : Overflows radix s
  · rw [if_pos (show getBitCountByDigitCount (significant s).length radix + 31 ≥ 2 ^ 32 from hover)]
    exact ⟨_, _, rfl, .of_rejected (Or.inr (Or.inr (Or.inl hover))) hlocal.popLocals _⟩
  rw [if_neg (show ¬ getBitCountByDigitCount (significant s).length radix + 31 ≥ 2 ^ 32 from hover)]
  have hneg : ((if s.head? = some '-' then (-1 : Int) else 1) = -1) ↔ s.head? = some '-' := by
    split <;> simp_all
  simp only [hneg]
  cases hdigits : significant s with
  | nil => exact absurd hdigits hzero
  | cons c t =>
    have hbad : Rejected radix s ↔ BadBlock radix (getDigitCountPerU32 radix) (c :: t) := by
      unfold Rejected
      simp only [hsign, hempty, hover, hdigits, false_or]
    cases hconv : fromChars ((c :: t).take (firstBlockSize (c :: t).length
        (getDigitCountPerU32 radix))) radix with
    | none =>
      have hsome := first_block_isSome hr c t
      rw [hconv] at hsome
      have hrej : Rejected radix s := by
        by_contra hn
        rw [hbad, not_badBlock_iff radix hd] at hn
        rw [hn.1] at hsome
        exact absurd hsome (by decide)
      exact ⟨_, _, rfl, .of_rejected hrej hlocal.popLocals _⟩
    | some mag0 =>
      obtain ⟨b, σ₂, m, hrun, hall, hm, hb, hexact⟩ := blocks_read hr h hdigits hconv
      rw [← hbad] at hb
      simp only [Option.bind_eq_bind, hrun, Option.bind_some]
      cases b with
      | false =>
        have hrej : Rejected radix s := by
          by_contra hn
          exact absurd (hb.mpr hn) (by decide)
        exact ⟨_, _, rfl, .of_rejected hrej (hall.keepsAt (Nat.le_refl _)).popLocals _⟩
      | true =>
        refine ⟨_, _, rfl, fun hrej => absurd hrej (hb.mp rfl), fun _ h0 => absurd h0 hzero,
          fun _ _ => ⟨rfl, _, finish_value hi hall hm _, fun hds => ?_⟩⟩
        rw [hdigits] at hds
        rw [hexact hds, hdigits]

theorem fromString_denote (hr : ValidRadix radix) (h : σ.Wf) (hi : i < σ.live) {s : List Char}
    {v : Int} (hs : denote radix s = some v) (hover : ¬ Overflows radix s) :
    ∃ σ' ok, σ.fromString i s radix = some (σ', ok) ∧ σ'.num i = Num.ofInt v := by
  obtain ⟨-, hall, hval⟩ := denote_eq_some hr hs
  have hok : ¬ Rejected radix s := fun hrej => hover ((rejected_iff_of_denote hr hs).mp hrej)
  obtain ⟨σ', ok, hrun, hreads⟩ := fromString_reads hr h hi s
  refine ⟨σ', ok, hrun, ?_⟩
  by_cases hzero : significant s = []
  · rw [(hreads.zero hok hzero).2.num, hval, hzero, digitsMag_nil, Num.zero_eq_ofInt]
    simp
  · obtain ⟨-, w, hputs, hw⟩ := hreads.value hok hzero
    rw [hputs.num, hw hall, hval]

/-- Numbers are printed as their numerals, and well-formed numerals are read exactly. -/
theorem text_codec (hr : ValidRadix radix) (h : σ.Wf) (hi : i < σ.live) :
    ((σ.num i).Canon → ∃ s σ', σ.toString i radix = some (s, σ') ∧
      IsNumeral radix (σ.num i).toInt s ∧
      (¬ Overflows radix s → ∀ j < σ'.live, ∃ σ₂ ok, σ'.fromString j s radix = some (σ₂, ok) ∧
        σ₂.num j = σ.num i)) ∧
    ∀ s v, denote radix s = some v → ¬ Overflows radix s →
      ∃ σ' ok, σ.fromString i s radix = some (σ', ok) ∧ σ'.num i = Num.ofInt v := by
  refine ⟨fun hx => ?_, fun s v hs hover => fromString_denote hr h hi hs hover⟩
  obtain ⟨σ', hrun, hw⟩ := toString_spec hr h hi hx
  have hnum := isNumeral_toChars hr (σ.num i).toInt
  refine ⟨_, σ', hrun, hnum, fun hover j hj => ?_⟩
  rw [hx.eq_ofInt]
  rw [Num.toInt_ofInt]
  exact fromString_denote hr hw.wf hj (denote_isNumeral hr hnum) hover

theorem text_codec_pair : (∃ s σ', (pair (-(2 ^ 62)) 3).toString 0 10 = some (s, σ') ∧
      IsNumeral 10 (-(2 ^ 62)) s) ∧
    ∃ σ' ok, (pair (-(2 ^ 62)) 3).fromString 0 ['-', '0', '1', 'f'] 16 = some (σ', ok) ∧
      σ'.num 0 = Num.ofInt (-31) := by
  obtain ⟨hwf, hlive, h0, -⟩ := pair_spec (-(2 ^ 62)) 3
  rw [Num.ofI64_eq (by decide) (by decide)] at h0
  constructor
  · obtain ⟨s, σ', hrun, hnum, -⟩ :=
      (text_codec (show ValidRadix 10 by decide) hwf (i := 0) (by omega)).1
      (h0 ▸ Num.ofInt_canon _)
    rw [h0, Num.toInt_ofInt] at hnum
    exact ⟨s, σ', hrun, hnum⟩
  · exact (text_codec (show ValidRadix 16 by decide) hwf (i := 0) (by omega)).2
      ['-', '0', '1', 'f'] (-31)
      (by decide) (by decide)

/-- A malformed numeral is rejected exactly for one of the reasons that `Rejected` lists. -/
theorem malformed_rejected_iff (hr : ValidRadix radix) (h : σ.Wf) (hi : i < σ.live)
    {s : List Char} (hs : denote radix s = none) :
    (∃ σ', σ.fromString i s radix = some (σ', some false) ∧ σ'.num i = σ.num i) ↔
      Rejected radix s := by
  obtain ⟨σ', ok, hrun, hreads⟩ := fromString_reads hr h hi s
  constructor
  · rintro ⟨σ₂, hrun₂, -⟩
    by_contra hok
    have htrue := (hreads.value hok (significant_ne_nil hr hs hok)).1
    rw [hrun, htrue] at hrun₂
    simp at hrun₂
  · intro hrej
    obtain ⟨rfl, hw⟩ := hreads.rejected hrej
    exact ⟨σ', hrun, hw.keeps.num i hi fun hf => hf⟩

theorem malformed_rejected_sign : ∃ σ',
    (pair 5 7).fromString 0 ['1', '-', '2'] 10 = some (σ', some false) ∧
      σ'.num 0 = (pair 5 7).num 0 := by
  obtain ⟨hwf, hlive, -, -⟩ := pair_spec 5 7
  exact (malformed_rejected_iff (show ValidRadix 10 by decide) hwf (i := 0) (by omega) (by decide)).mpr
    (Or.inl (Or.inl (by decide)))

/-- A bad character behind the start of a block goes unnoticed. -/
theorem malformed_accepted : denote 10 ['1', 'x'] = none ∧
    (∃ σ', (pair 5 7).fromString 0 ['1', 'x'] 10 = some (σ', some true)) ∧
    ¬ ∃ σ', (pair 5 7).fromString 0 ['1', 'x'] 10 = some (σ', some false) ∧
      σ'.num 0 = (pair 5 7).num 0 := by
  obtain ⟨hwf, hlive, -, -⟩ := pair_spec 5 7
  obtain ⟨σ', ok, hrun, hreads⟩ := fromString_reads (show ValidRadix 10 by decide) hwf (i := 0)
    (by omega) ['1', 'x']
  have hok := (hreads.value (by decide) (by decide)).1
  subst hok
  refine ⟨by decide, ⟨σ', hrun⟩, ?_⟩
  rintro ⟨σ₂, hrun₂, -⟩
  have hsame := hrun.symm.trans hrun₂
  simp at hsame

theorem fromString_status {s : List Char} {ok : Option Bool}
    (hrun : σ.fromString i s radix = some (σ₁, ok)) :
    (ok = some true → σ₁.status = some .success) ∧ (ok = none → σ₁.status = σ.status) := by
  have hfail : ∀ {τ : Store} {e : ErrCode}, some (τ.setStatus e, some false) = some (σ₁, ok) →
      (ok = some true → σ₁.status = some .success) ∧ (ok = none → σ₁.status = σ.status) := by
    intro τ e heq
    obtain ⟨-, rfl⟩ := Prod.mk.inj (Option.some.inj heq)
    exact ⟨by simp, by simp⟩
  unfold fromString at hrun
  split at hrun
  · exact hfail hrun
  split at hrun
  · exact hfail hrun
  split at hrun
  · exact hfail hrun
  split at hrun
  · exact hfail hrun
  dsimp only at hrun
  split at hrun
  · obtain ⟨rfl, rfl⟩ := Prod.mk.inj (Option.some.inj hrun)
    exact ⟨by simp, fun _ => rfl⟩
  split at hrun
  · exact hfail hrun
  split at hrun
  · exact hfail hrun
  obtain ⟨⟨parsed, σ₂⟩, -, hrun⟩ := Option.bind_eq_some_iff.mp hrun
  dsimp only at hrun
  cases parsed with
  | false => exact hfail hrun
  | true =>
      obtain ⟨rfl, rfl⟩ := Prod.mk.inj (Option.some.inj hrun)
      exact ⟨fun _ => rfl, by simp⟩

/-- The caller's flag, which held `before`, and the status both say that `v` was read. -/
structure Reports (before : Bool) (i : Nat) (v : Int) (σ' : Store) (written : Option Bool) :
    Prop where
  ok : written.getD before = true
  status : σ'.status = some .success
  value : σ'.num i = Num.ofInt v

/-- A numeral of a value other than zero is reported. The exit for zero writes neither the flag nor
the status, so zero is reported exactly where both said so before. -/
theorem fromString_reports_iff (hr : ValidRadix radix) (h : σ.Wf) (hi : i < σ.live) {s : List Char}
    {v : Int} (hs : denote radix s = some v) (hover : ¬ Overflows radix s) (before : Bool) :
    ∃ σ' written, σ.fromString i s radix = some (σ', written) ∧ σ'.num i = Num.ofInt v ∧
      (Reports before i v σ' written ↔
        v ≠ 0 ∨ before = true ∧ σ.status = some .success) := by
  obtain ⟨-, hall, hval⟩ := denote_eq_some hr hs
  have hok : ¬ Rejected radix s := fun hrej => hover ((rejected_iff_of_denote hr hs).mp hrej)
  obtain ⟨σ', written, hrun, hreads⟩ := fromString_reads hr h hi s
  obtain ⟨hsuccess, hnone⟩ := fromString_status hrun
  refine ⟨σ', written, hrun, ?_⟩
  by_cases hzero : significant s = []
  · obtain ⟨rfl, hputs⟩ := hreads.zero hok hzero
    have hv : v = 0 := by
      rw [hval, hzero, digitsMag_nil]
      simp
    have hnum : σ'.num i = Num.ofInt v := by rw [hputs.num, hv, Num.zero_eq_ofInt]
    refine ⟨hnum, ?_⟩
    rw [or_iff_right (not_not.mpr hv), ← hnone rfl]
    exact ⟨fun hrep => ⟨hrep.ok, hrep.status⟩, fun hold => ⟨hold.1, hold.2, hnum⟩⟩
  · obtain ⟨rfl, w, hputs, hw⟩ := hreads.value hok hzero
    have hnum : σ'.num i = Num.ofInt v := by rw [hputs.num, hw hall, hval]
    have hv : v ≠ 0 := (significant_ne_nil_iff hr hs).mp hzero
    exact ⟨hnum, iff_of_true ⟨rfl, hsuccess rfl, hnum⟩ (Or.inl hv)⟩

theorem fromString_reports_hex : ∃ σ' written,
    (pair 5 7).fromString 0 ['-', '0', '1', 'f'] 16 = some (σ', written) ∧
      Reports false 0 (-31) σ' written := by
  obtain ⟨hwf, hlive, -, -⟩ := pair_spec 5 7
  obtain ⟨σ', written, hrun, -, hiff⟩ := fromString_reports_iff (show ValidRadix 16 by decide) hwf
    (i := 0) (by omega) (s := ['-', '0', '1', 'f']) (v := -31) (by decide) (by decide) false
  exact ⟨σ', written, hrun, hiff.mpr (Or.inl (by decide))⟩

/-- `0` is read, and the flag stays false. -/
theorem fromString_zero_not_reported : denote 10 ['0'] = some 0 ∧ ∃ σ' written,
    (pair 5 7).fromString 0 ['0'] 10 = some (σ', written) ∧ σ'.num 0 = Num.ofInt 0 ∧
      written.getD false = false ∧ ¬ Reports false 0 0 σ' written := by
  obtain ⟨hwf, hlive, -, -⟩ := pair_spec 5 7
  obtain ⟨σ', written, hrun, hreads⟩ := fromString_reads (show ValidRadix 10 by decide) hwf (i := 0)
    (by omega) ['0']
  obtain ⟨rfl, hputs⟩ := hreads.zero (by decide) (by decide)
  refine ⟨by decide, σ', none, hrun, ?_, rfl, fun hrep => ?_⟩
  · rw [hputs.num, Num.zero_eq_ofInt]
  · exact absurd hrep.ok (by decide)

end Store

end PGBigNumber
