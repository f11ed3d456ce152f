import PGBigNumber.Store.Program

/-!
# Division by zero

What the functions that divide an object in place do with a zero divisor, when the callback of the
error returns: `div` touches neither of its results, and its callers store what they passed to it.
-/

namespace PGBigNumber

open Program (Arg)

namespace Store

def operatorDivAssign (σ : Store) (i other : Nat) : Option Store := σ.divAssign i other

def operatorDivAssignI64 (σ : Store) (i : Nat) (i64 : Int) : Option Store := σ.divAssignI64 i i64

def operatorModAssign (σ : Store) (i other : Nat) : Option Store :=
  let q := σ.live
  (σ.pushDefault.modAssignAndQuotient i other q).map (·.popTo q)

def operatorModAssignI64 (σ : Store) (i : Nat) (i64 : Int) : Option Store :=
  let q := σ.live
  (σ.pushDefault.modAssignAndQuotientI64 i i64 q).map (·.popTo q)

/-- The functions that divide an object in place, with their out-parameters. -/
inductive InPlace where
  | divAssign
  | divideAssignAndReminder (r : Nat)
  | modAssignAndQuotient (q : Nat)
  | operatorDivAssign
  | operatorModAssign

def InPlace.out : InPlace → List Nat
  | .divideAssignAndReminder o | .modAssignAndQuotient o => [o]
  | .divAssign | .operatorDivAssign | .operatorModAssign => []

def InPlace.exec (i : Nat) : InPlace → Arg → Store → Option Store
  | .divAssign, .big j, σ => σ.divAssign i j
  | .divAssign, .int64 k, σ => σ.divAssignI64 i k
  | .divideAssignAndReminder r, .big j, σ => σ.divideAssignAndReminder i j r
  | .divideAssignAndReminder r, .int64 k, σ => σ.divideAssignAndReminderI64 i k r
  | .modAssignAndQuotient q, .big j, σ => σ.modAssignAndQuotient i j q
  | .modAssignAndQuotient q, .int64 k, σ => σ.modAssignAndQuotientI64 i k q
  | .operatorDivAssign, .big j, σ => σ.operatorDivAssign i j
  | .operatorDivAssign, .int64 k, σ => σ.operatorDivAssignI64 i k
  | .operatorModAssign, .big j, σ => σ.operatorModAssign i j
  | .operatorModAssign, .int64 k, σ => σ.operatorModAssignI64 i k

def ZeroDivisor (σ : Store) : Arg → Prop
  | .big j => σ.sign j = .zro
  | .int64 k => k.1 = 0

variable {σ σ₁ σ₂ : Store} {i j q r a b : Nat} {S : Nat → Prop} {k : Int}

/-- A step that raises the error, makes the objects in `S` zero and leaves the others as they are. -/
structure Raises (S : Nat → Prop) (σ σ' : Store) : Prop where
  live : σ'.live = σ.live
  keeps : Keeps σ.live S σ σ'
  zero : ∀ j < σ.live, S j → σ'.num j = Num.zero
  status : σ'.status = some .divBy0

theorem status_assignMove : (σ.assignMove i j).status = σ.status := by
  unfold assignMove assign
  split
  · rfl
  · rfl

theorem div_raises (h : σ.Wf) (ha : a < σ.live) (hb : b < σ.live) (hzero : σ.sign b = .zro) :
    ∃ σ', σ.div q r a b = some σ' ∧ Raises (fun _ => False) σ σ' := by
  have hsign : (σ.num b).sign.signum = 0 := by
    rw [num_sign, hzero]
    rfl
  refine ⟨_, div_divBy0 h ha hb hsign, rfl, ?_, fun _ _ hf => hf.elim, rfl⟩
  exact (operands_spec h ha hb).keeps.then fun hg => (Keeps.setStatus hg _).then fun hg =>
    .popTo hg (Nat.le_refl _) hg.le

theorem Raises.close {x : Num} (h₁ : Pushes σ (fun _ => False) x σ₁) (h₂ : Raises S σ₁ σ₂) :
    Raises S σ (σ₂.popTo σ.live) := by
  have hlive : σ₂.live = σ.live + 1 := h₂.live.trans h₁.live
  refine ⟨rfl, ?_, fun j hj hS => h₂.zero j (by rw [h₁.live]; omega) hS, h₂.status⟩
  apply (h₁.keepsAt (Nat.le_refl _)).then
  intro _
  apply (h₂.keeps.mono (by rw [h₁.live]; omega) fun _ _ hS => hS).then
  intro hg
  exact .popTo hg (Nat.le_refl _) (by omega)

theorem withI64_raises (h : σ.Wf) {f : Store → Nat → Option Store}
    (hf : ∃ σ₂, f (σ.pushI64 k) σ.live = some σ₂ ∧ Raises S (σ.pushI64 k) σ₂) :
    ∃ σ', σ.withI64 k f = some σ' ∧ Raises S σ σ' := by
  obtain ⟨σ₂, hrun, hraises⟩ := hf
  exact ⟨σ₂.popTo σ.live, by rw [withI64, hrun, Option.map_some], .close (pushI64_pushes h k) hraises⟩

/-- The operand gets the local result, which `div` has left as it was made: zero. -/
theorem Raises.moveLocal (hk : Keeps σ.live (fun _ => False) σ σ₁) (hi : i < σ.live)
    (hj : σ.live ≤ j) (hjl : j < σ₁.live) (hzero : σ₁.num j = Num.zero)
    (hstatus : σ₁.status = some .divBy0) :
    Raises (· = i) σ ((σ₁.assignMove i j).popTo σ.live) := by
  obtain ⟨hwrites, hnum, -⟩ := Store.moveLocal (C := False) (S := (· = i))
    (hk.mono (Nat.le_refl _) fun _ _ hf => hf.elim) (fun hC => hC.elim) rfl hi hj hjl rfl
  refine ⟨rfl, hwrites.keeps, ?_, ?_⟩
  · rintro k - rfl
    rw [hnum, hzero]
  · change (σ₁.assignMove i j).status = _
    rw [status_assignMove, hstatus]

theorem intoResult_raises (h : σ.Wf) (hi : i < σ.live) {d : Store → Nat → Option Store}
    (hd : ∃ σ₂, d σ.pushDefault σ.live = some σ₂ ∧ Raises (fun _ => False) σ.pushDefault σ₂) :
    ∃ σ', σ.intoResult i d = some σ' ∧ Raises (· = i) σ σ' := by
  obtain ⟨σ₂, hrun, hraises⟩ := hd
  have h₁ := pushDefault_pushes (R := fun _ => False) h
  have hl₁ := h₁.live
  have hl₂ := hraises.live
  refine ⟨(σ₂.assignMove i σ.live).popTo σ.live, ?_, .moveLocal ?_ hi (Nat.le_refl _) (by omega) ?_
    hraises.status⟩
  · simp only [intoResult, Option.bind_eq_bind, hrun, Option.bind_some]
  · exact (h₁.keepsAt (Nat.le_refl _)).then fun _ =>
      hraises.keeps.mono (by omega) fun _ _ hf => hf
  · rw [hraises.keeps.num σ.live (by omega) fun hf => hf, h₁.num]

private theorem sign_pushDefault (h : σ.Wf) (hj : j < σ.live) (hzero : σ.sign j = .zro) :
    σ.pushDefault.sign j = .zro := by
  rw [← num_sign, (pushDefault_pushes (R := fun _ => False) h).num_old hj, num_sign, hzero]

private theorem sign_pushI64 (h : σ.Wf) (hk : k = 0) : (σ.pushI64 k).sign σ.live = .zro := by
  rw [← num_sign, (pushI64_pushes (R := fun _ => False) h k).num, hk]
  rfl

theorem divI64_raises (h : σ.Wf) (ha : a < σ.live) (hk : k = 0) :
    ∃ σ', σ.divI64 q r a k = some σ' ∧ Raises (fun _ => False) σ σ' := by
  have hp := pushI64_pushes (R := fun _ => False) h k
  have hl := hp.live
  exact withI64_raises h (div_raises hp.wf (by omega) (by omega) (sign_pushI64 h hk))

theorem divAssign_raises (h : σ.Wf) (hi : i < σ.live) (hj : j < σ.live) (hzero : σ.sign j = .zro) :
    ∃ σ', σ.divAssign i j = some σ' ∧ Raises (· = i) σ σ' := by
  have h₁ := pushDefault_pushes (R := fun _ => False) h
  have h₂ := pushDefault_pushes (R := fun _ => False) h₁.wf
  have hl₁ := h₁.live
  have hl₂ := h₂.live
  have hsign := sign_pushDefault h₁.wf (by omega) (sign_pushDefault h hj hzero)
  obtain ⟨σ₂, hrun, hraises⟩ := div_raises (q := σ.live + 1) (r := σ.live) (a := i) h₂.wf (by omega)
    (by omega) hsign
  have hlr := hraises.live
  refine ⟨(σ₂.assignMove i (σ.live + 1)).popTo σ.live, ?_, .moveLocal ?_ hi (by omega) (by omega) ?_
    hraises.status⟩
  · simp only [divAssign, Option.bind_eq_bind, hrun, Option.bind_some]
  · exact (h₁.keepsAt (Nat.le_refl _)).then fun _ => (h₂.keepsAt (by omega)).then fun _ =>
      hraises.keeps.mono (by omega) fun _ _ hf => hf
  · rw [hraises.keeps.num (σ.live + 1) (by omega) fun hf => hf, ← hl₁, h₂.num]

theorem divAssignI64_raises (h : σ.Wf) (hi : i < σ.live) (hk : k = 0) :
    ∃ σ', σ.divAssignI64 i k = some σ' ∧ Raises (· = i) σ σ' := by
  have hp := pushI64_pushes (R := fun _ => False) h k
  have hl := hp.live
  exact withI64_raises h (divAssign_raises hp.wf (by omega) (by omega) (sign_pushI64 h hk))

theorem intoResult_div_raises (q r : Nat → Nat) (h : σ.Wf) (hi : i < σ.live) (hj : j < σ.live)
    (hzero : σ.sign j = .zro) :
    ∃ σ', (σ.intoResult i fun τ result => τ.div (q result) (r result) i j) = some σ' ∧
      Raises (· = i) σ σ' := by
  have hp := pushDefault_pushes (R := fun _ => False) h
  have hl := hp.live
  apply intoResult_raises h hi
  exact div_raises hp.wf (by omega) (by omega) (sign_pushDefault h hj hzero)

theorem intoResult_divI64_raises (q r : Nat → Nat) (h : σ.Wf) (hi : i < σ.live) (hk : k = 0) :
    ∃ σ', (σ.intoResult i fun τ result => τ.divI64 (q result) (r result) i k) = some σ' ∧
      Raises (· = i) σ σ' := by
  have hp := pushDefault_pushes (R := fun _ => False) h
  have hl := hp.live
  apply intoResult_raises h hi
  exact divI64_raises hp.wf (by omega) hk

private theorem operatorMod_raises {f : Store → Option Store} (h : σ.Wf)
    (hf : ∃ σ₂, f σ.pushDefault = some σ₂ ∧ Raises S σ.pushDefault σ₂) :
    ∃ σ', (f σ.pushDefault).map (·.popTo σ.live) = some σ' ∧ Raises S σ σ' := by
  obtain ⟨σ₂, hrun, hraises⟩ := hf
  exact ⟨σ₂.popTo σ.live, by rw [hrun, Option.map_some], .close (pushDefault_pushes h) hraises⟩

theorem inPlace_raises (f : InPlace) (other : Arg) (h : σ.Wf) (hi : i < σ.live)
    (hother : ∀ j ∈ other.reads, j < σ.live) (hzero : ZeroDivisor σ other) :
    ∃ σ', f.exec i other σ = some σ' ∧ Raises (· = i) σ σ' := by
  have hp := pushDefault_pushes (R := fun _ => False) h
  have hl := hp.live
  cases other with
  | big j =>
      have hj : j < σ.live := hother j (by simp [Arg.reads])
      cases f with
      | divAssign => exact divAssign_raises h hi hj hzero
      | divideAssignAndReminder r => exact intoResult_div_raises id (fun _ => r) h hi hj hzero
      | modAssignAndQuotient q => exact intoResult_div_raises (fun _ => q) id h hi hj hzero
      | operatorDivAssign => exact divAssign_raises h hi hj hzero
      | operatorModAssign =>
          apply operatorMod_raises (f := fun τ => τ.modAssignAndQuotient i j σ.live) h
          exact intoResult_div_raises (fun _ => σ.live) id hp.wf (by omega) (by omega)
            (sign_pushDefault h hj hzero)
  | int64 k =>
      cases f with
      | divAssign => exact divAssignI64_raises h hi hzero
      | divideAssignAndReminder r => exact intoResult_divI64_raises id (fun _ => r) h hi hzero
      | modAssignAndQuotient q => exact intoResult_divI64_raises (fun _ => q) id h hi hzero
      | operatorDivAssign => exact divAssignI64_raises h hi hzero
      | operatorModAssign =>
          apply operatorMod_raises (f := fun τ => τ.modAssignAndQuotientI64 i k σ.live) h
          exact intoResult_divI64_raises (fun _ => σ.live) id hp.wf (by omega) hzero

/-- The error is raised, and the operand and the out-parameter keep their values. -/
def LeavesOperands (f : InPlace) (i : Nat) (other : Arg) (σ : Store) : Prop :=
  ∃ σ', f.exec i other σ = some σ' ∧ σ'.status = some .divBy0 ∧ σ'.num i = σ.num i ∧
    ∀ o ∈ f.out, σ'.num o = σ.num o

/-- The out-parameter always keeps its value, and the operand exactly when it was zero before. -/
theorem leavesOperands_iff (f : InPlace) (other : Arg) (h : σ.Wf) (hi : i < σ.live)
    (hout : ∀ o ∈ f.out, o < σ.live) (hother : ∀ j ∈ other.reads, j < σ.live)
    (hx : (σ.num i).Canon) (hzero : ZeroDivisor σ other) :
    LeavesOperands f i other σ ↔ (σ.num i).toInt = 0 := by
  obtain ⟨σ₁, hrun, hraises⟩ := inPlace_raises f other h hi hother hzero
  have hnum : σ₁.num i = Num.zero := hraises.zero i hi rfl
  constructor
  · rintro ⟨σ₂, hrun₂, -, hsame, -⟩
    obtain rfl := Option.some.inj (hrun.symm.trans hrun₂)
    rw [← hsame, hnum]
    rfl
  · intro hx0
    have hsame : σ₁.num i = σ.num i := by rw [hnum, hx.eq_ofInt, hx0, Num.zero_eq_ofInt]
    refine ⟨σ₁, hrun, hraises.status, hsame, fun o ho => ?_⟩
    by_cases hoi : o = i
    · rw [hoi, hsame]
    · exact hraises.keeps.num o (hout o ho) hoi

theorem leavesOperands_zero :
    LeavesOperands (.modAssignAndQuotient 1) 0 (.int64 ⟨0, by decide⟩) (pair 0 7) := by
  obtain ⟨hwf, hlive, h0, -⟩ := pair_spec 0 7
  rw [Num.ofI64_eq (by decide) (by decide)] at h0
  refine (leavesOperands_iff (.modAssignAndQuotient 1) (.int64 ⟨0, by decide⟩) hwf (by omega) ?_ ?_
    (h0 ▸ Num.ofInt_canon 0) rfl).mpr ?_
  · intro o ho
    rw [List.mem_singleton.mp ho, hlive]
    decide
  · intro j hj
    exact absurd hj List.not_mem_nil
  · rw [h0, Num.toInt_ofInt]

/-- Five divided by zero becomes zero. -/
theorem leavesOperands_five :
    (∃ σ', (pair 5 0).operatorDivAssign 0 1 = some σ' ∧ σ'.status = some .divBy0 ∧
      σ'.num 0 = Num.ofInt 0) ∧
    ¬ LeavesOperands .operatorDivAssign 0 (.big 1) (pair 5 0) := by
  obtain ⟨hwf, hlive, h0, h1⟩ := pair_spec 5 0
  rw [Num.ofI64_eq (by decide) (by decide)] at h0 h1
  have hzero : (pair 5 0).sign 1 = .zro := congrArg Num.sign h1
  obtain ⟨σ', hrun, hraises⟩ := divAssign_raises hwf (i := 0) (j := 1) (by omega) (by omega) hzero
  have hnum : σ'.num 0 = Num.ofInt 0 := hraises.zero 0 (by omega) rfl
  refine ⟨⟨σ', hrun, hraises.status, hnum⟩, ?_⟩
  rintro ⟨σ₂, hrun₂, -, hsame, -⟩
  obtain rfl := Option.some.inj (hrun.symm.trans hrun₂)
  rw [hnum, h0] at hsame
  exact absurd hsame (by decide)

end Store

end PGBigNumber
