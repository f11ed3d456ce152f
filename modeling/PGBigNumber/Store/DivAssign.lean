import PGBigNumber.Store.Div

/-!
# Division by member functions

The overloads that divide an object in place. Each passes a local object to `div` for the result
that replaces the operand.
-/

namespace PGBigNumber

namespace Store

/-- A local `result` that `d` fills and that is then moved to object `i`. -/
def intoResult (σ : Store) (i : Nat) (d : Store → Nat → Option Store) : Option Store := do
  let result := σ.live
  let σ ← d σ.pushDefault result
  some ((σ.assignMove i result).popTo result)

def withI64 (σ : Store) (k : Int) (f : Store → Nat → Option Store) : Option Store :=
  (f (σ.pushI64 k) σ.live).map (·.popTo σ.live)

def divI64 (σ : Store) (q r a : Nat) (k : Int) : Option Store :=
  σ.withI64 k fun σ temp => σ.div q r a temp

/-- `divAssign`; the locals are `r` and `q`. -/
def divAssign (σ : Store) (i j : Nat) : Option Store := do
  let n := σ.live
  let σ ← σ.pushDefault.pushDefault.div (n + 1) n i j
  some ((σ.assignMove i (n + 1)).popTo n)

def divAssignI64 (σ : Store) (i : Nat) (k : Int) : Option Store :=
  σ.withI64 k fun σ temp => σ.divAssign i temp

def divideAssignAndReminder (σ : Store) (i val r : Nat) : Option Store :=
  σ.intoResult i fun σ result => σ.div result r i val

def divideAssignAndReminderI64 (σ : Store) (i : Nat) (k : Int) (r : Nat) : Option Store :=
  σ.intoResult i fun σ result => σ.divI64 result r i k

def modAssignAndQuotient (σ : Store) (i val q : Nat) : Option Store :=
  σ.intoResult i fun σ result => σ.div q result i val

def modAssignAndQuotientI64 (σ : Store) (i : Nat) (k : Int) (q : Nat) : Option Store :=
  σ.intoResult i fun σ result => σ.divI64 q result i k

variable {σ σ₁ σ₂ : Store} {i j n q r a val : Nat} {S T R : Nat → Prop} {x y : Num} {C : Prop}

theorem assignMove_source_puts (h : σ.Wf) :
    Puts σ j R ⟨.invalid, []⟩ ((σ.newMag j Slice.empty).modify j fun o =>
      { o with sign := .invalid, calcued := false, firstNotZeroU32Index := 0 }) := by
  refine .of_keeps rfl ?_ ?_ (by simp)
  · exact (Keeps.newMag (S := (· = j)) h.good rfl Slice.empty_wf).then fun h₁ =>
      Keeps.modify (S := (· = j)) h₁ rfl (by simp)
  · rw [num_eq, mag_modify (by simp), mag_newMag_self, sign_modify_self]
    rfl

theorem assignMove_writes (h : σ.Wf) (hi : i < σ.live) (hj : j < σ.live) :
    Writes σ (fun k => k = i ∨ k = j) (σ.assignMove i j) ∧ (σ.assignMove i j).num i = σ.num j := by
  unfold assignMove
  by_cases hij : i = j
  · rw [if_pos hij, hij]
    exact ⟨.refl h, rfl⟩
  rw [if_neg hij]
  have h₁ := Puts.assign (i := i) (R := (· = j)) h hj rfl
  have h₂ := assignMove_source_puts (j := j) (R := fun _ => False) h₁.wf
  refine ⟨(h₁.writes (Or.inl rfl) fun _ he => he ▸ hj).trans
    (h₂.writes (Or.inr rfl) fun _ hf => hf.elim), ?_⟩
  exact (h₂.num_ne (by rw [h₁.live]; exact hi) hij).trans h₁.num

theorem moveLocal (hk : Keeps n S σ σ₁) (hc : C → σ.CachesOk → σ₁.CachesOk) (hn : n = σ.live)
    (hi : i < n) (hj : n ≤ j) (hjl : j < σ₁.live) (hS : S i) :
    WritesIf C σ S ((σ₁.assignMove i j).popTo n) ∧
      ((σ₁.assignMove i j).popTo n).num i = σ₁.num j ∧
      ∀ k < n, k ≠ i → ((σ₁.assignMove i j).popTo n).num k = σ₁.num k := by
  have hle := hk.good.le
  obtain ⟨hw, hnum⟩ := assignMove_writes hk.good.wf (i := i) (j := j) (by omega) hjl
  have hlive := hw.live
  subst hn
  refine ⟨⟨rfl, ?_, fun hC hcaches k hk => hw.caches (hc hC hcaches) k ?_⟩, hnum, fun k hk hki => ?_⟩
  · exact hk.then fun _ => (hw.keeps.mono (by omega) fun k hk hor => by
      rcases hor with rfl | rfl
      · exact hS
      · omega).then fun hg => .popTo hg (Nat.le_refl _) (by omega)
  · rw [live_popTo] at hk
    omega
  · exact hw.keeps.num k (by omega) (by omega)

variable {d f : Store → Nat → Option Store} {k : Int}

theorem intoResult_writes (h : σ.Wf) (hi : i < σ.live) (hS : S i)
    (hd : ∀ {σ₂}, d σ.pushDefault σ.live = some σ₂ →
      WritesIf C σ.pushDefault (fun j => S j ∨ j = σ.live) σ₂)
    (hrun : σ.intoResult i d = some σ₁) : WritesIf C σ S σ₁ := by
  simp only [intoResult, Option.bind_eq_bind, Option.bind_eq_some_iff, Option.some.injEq] at hrun
  obtain ⟨σ₂, hrun₂, rfl⟩ := hrun
  have h₁ := pushDefault_pushes (R := fun _ => False) h
  have hl₁ := h₁.live
  have hf := hd hrun₂
  have hlf := hf.live
  refine (moveLocal (j := σ.live) ?_ (fun hC hc => hf.caches hC
    (h₁.cachesOk (fun _ hf => hf.elim) hc)) rfl hi (Nat.le_refl _) (by omega) hS).1
  exact (h₁.keepsAt (Nat.le_refl _)).then fun _ => hf.keeps.mono (by omega) fun j hj hor =>
    hor.resolve_right (by omega)

theorem intoResult_num (h : σ.Wf) (hi : i < σ.live) (hrun : d σ.pushDefault σ.live = some σ₂)
    (hf : WritesIf C σ.pushDefault T σ₂) :
    ∃ σ', σ.intoResult i d = some σ' ∧ σ'.num i = σ₂.num σ.live ∧
      ∀ j < σ.live, j ≠ i → σ'.num j = σ₂.num j := by
  have hlive := hf.live
  rw [live_pushDefault] at hlive
  have hm := moveLocal (S := fun _ => True) (C := False) (i := i) (j := σ.live)
    ((pushDefault_pushes (R := fun _ => False) h).keepsAt (Nat.le_refl _) |>.then fun _ =>
      hf.keeps.mono (by rw [live_pushDefault]; omega) fun _ _ _ => trivial)
    (fun hC => hC.elim) rfl hi (Nat.le_refl _) (by omega) trivial
  refine ⟨_, ?_, hm.2.1, hm.2.2⟩
  simp only [intoResult, Option.bind_eq_bind, hrun, Option.bind_some]

theorem withI64_writes (h : σ.Wf) (k : Int)
    (hf : ∀ {σ'}, f (σ.pushI64 k) σ.live = some σ' → WritesIf C (σ.pushI64 k) S σ')
    (hrun : σ.withI64 k f = some σ₁) : WritesIf C σ S σ₁ := by
  have hp := pushI64_pushes (R := fun _ => False) h k
  obtain ⟨σ₂, hrun₂, rfl⟩ := Option.map_eq_some_iff.mp hrun
  have hw := hf hrun₂
  have hlive := hw.live
  have hlp := hp.live
  refine ⟨rfl, ?_, fun hC hc k hk => hw.caches hC (hp.cachesOk (fun _ hf => hf.elim) hc) k ?_⟩
  · exact (hp.keepsAt (Nat.le_refl _)).then fun _ => (hw.keeps.mono (by omega) fun _ _ hs => hs).then
      fun hg => .popTo hg (Nat.le_refl _) (by omega)
  · rw [live_popTo] at hk
    omega

theorem withI64_num (hrun : f (σ.pushI64 k) σ.live = some σ₂) :
    ∃ σ', σ.withI64 k f = some σ' ∧ ∀ j, σ'.num j = σ₂.num j :=
  ⟨σ₂.popTo σ.live, by rw [withI64, hrun, Option.map_some], fun _ => rfl⟩

theorem divI64_writes (h : σ.Wf) (hq : q < σ.live) (hr : r < σ.live) (ha : a < σ.live)
    (hrun : σ.divI64 q r a k = some σ₁) :
    WritesIf (TakesKnuth (σ.num a) (Num.ofI64 k) →
      (σ.obj q).calcued = false ∧ (σ.obj r).calcued = false) σ (fun j => j = q ∨ j = r) σ₁ := by
  have hp := pushI64_pushes (R := fun _ => False) h k
  have hlp := hp.live
  have hobj : ∀ j < σ.live, (σ.pushI64 k).obj j = σ.obj j := fun j hj =>
    obj_pushI64_ne (by omega) k
  refine withI64_writes h k (fun hrun₂ => ?_) hrun
  have hf := div_frame hp.wf (by omega) (by omega) (by omega) (by omega) hrun₂
  rw [hp.num_old ha, hp.num, hobj q hq, hobj r hr] at hf
  exact hf

theorem divI64_num {u v w : Int} (hd : DividesTo v (Num.ofI64 k) u w) (h : σ.Wf) (hq : q < σ.live)
    (hr : r < σ.live) (ha : a < σ.live) (hqr : q ≠ r) (hv : σ.num a = Num.ofInt v) :
    ∃ σ', σ.divI64 q r a k = some σ' ∧ σ'.num q = Num.ofInt u ∧ σ'.num r = Num.ofInt w := by
  have hp := pushI64_pushes (R := fun _ => False) h k
  have hlp := hp.live
  obtain ⟨σ₂, hrun₂, hnq, hnr⟩ := hd hp.wf (q := q) (r := r) (a := a) (b := σ.live) (by omega)
    (by omega) (by omega) (by omega) hqr (by omega) ((hp.num_old ha).trans hv) hp.num
  obtain ⟨σ', hrun, hnum⟩ := withI64_num (f := fun σ temp => σ.div q r a temp) hrun₂
  exact ⟨σ', hrun, (hnum q).trans hnq, (hnum r).trans hnr⟩

theorem divI64_canon {v : Int} (hd : DividesCanon v (Num.ofI64 k)) (h : σ.Wf) (hq : q < σ.live)
    (hr : r < σ.live) (ha : a < σ.live) (hqr : q ≠ r) (hv : σ.num a = Num.ofInt v)
    (hcq : (σ.num q).Canon) (hcr : (σ.num r).Canon) (hrun : σ.divI64 q r a k = some σ₁) :
    (σ₁.num q).Canon ∧ (σ₁.num r).Canon := by
  have hp := pushI64_pushes (R := fun _ => False) h k
  have hlp := hp.live
  obtain ⟨σ₂, hrun₂, rfl⟩ := Option.map_eq_some_iff.mp hrun
  have hc := hd hp.wf (a := a) (b := σ.live) (by omega) (by omega) (by omega) (by omega) hqr
    ((hp.num_old ha).trans hv) hp.num (by rwa [hp.num_old hq]) (by rwa [hp.num_old hr]) hrun₂
  exact hc

section members

variable {u v w : Int}

theorem divAssign_writes (h : σ.Wf) (hi : i < σ.live) (hj : j < σ.live)
    (hrun : σ.divAssign i j = some σ₁) : Writes σ (· = i) σ₁ := by
  simp only [divAssign, Option.bind_eq_bind, Option.bind_eq_some_iff, Option.some.injEq] at hrun
  obtain ⟨σ₂, hdiv, rfl⟩ := hrun
  have h₁ := pushDefault_pushes (R := fun _ => False) h
  have h₂ := pushDefault_pushes (R := fun _ => False) h₁.wf
  have hl₁ := h₁.live
  have hl₂ := h₂.live
  have hf := div_frame h₂.wf (by omega) (by omega) (by omega) (by omega) hdiv
  have hlf := hf.live
  refine (moveLocal (S := (· = i)) (C := True) (j := σ.live + 1) ?_
    (fun _ hc => hf.caches (fun _ => ⟨?_, ?_⟩) ?_) rfl hi (by omega) (by omega) rfl).1.writes trivial
  · refine (h₁.keepsAt (Nat.le_refl _)).then fun _ => (h₂.keepsAt (by omega)).then fun _ => ?_
    exact hf.keeps.mono (by omega) fun k hk hor => by omega
  · rw [← hl₁, calcued_pushDefault_self]
  · rw [obj_pushDefault_ne (by omega), calcued_pushDefault_self]
  · exact h₂.cachesOk (fun _ hf => hf.elim) (h₁.cachesOk (fun _ hf => hf.elim) hc)

private theorem divAssign_of_div (h : σ.Wf) (hi : i < σ.live) (hj : j < σ.live)
    (hrun : σ.pushDefault.pushDefault.div (σ.live + 1) σ.live i j = some σ₂) :
    ∃ σ', σ.divAssign i j = some σ' ∧ σ'.num i = σ₂.num (σ.live + 1) := by
  have h₁ := pushDefault_pushes (R := fun _ => False) h
  have h₂ := pushDefault_pushes (R := fun _ => False) h₁.wf
  have hl₁ := h₁.live
  have hl₂ := h₂.live
  have hf := div_frame h₂.wf (by omega) (by omega) (by omega) (by omega) hrun
  have hlf := hf.live
  refine ⟨(σ₂.assignMove i (σ.live + 1)).popTo σ.live, ?_,
    (assignMove_writes hf.wf (i := i) (j := σ.live + 1) (by omega) (by omega)).2⟩
  simp only [divAssign, Option.bind_eq_bind, hrun, Option.bind_some]

theorem divAssign_num (hd : DividesTo v y u w) (h : σ.Wf) (hi : i < σ.live) (hj : j < σ.live)
    (hv : σ.num i = Num.ofInt v) (hw : σ.num j = y) :
    ∃ σ', σ.divAssign i j = some σ' ∧ σ'.num i = Num.ofInt u := by
  have h₁ := pushDefault_pushes (R := fun _ => False) h
  have h₂ := pushDefault_pushes (R := fun _ => False) h₁.wf
  have hl₁ := h₁.live
  have hl₂ := h₂.live
  obtain ⟨σ₂, hrun, hnq, -⟩ := hd h₂.wf (q := σ.live + 1) (r := σ.live) (a := i) (b := j)
    (by omega) (by omega) (by omega) (by omega) (by omega) (by omega)
    ((h₂.num_old (by omega)).trans ((h₁.num_old hi).trans hv))
    ((h₂.num_old (by omega)).trans ((h₁.num_old hj).trans hw))
  obtain ⟨σ', hrun', hnum⟩ := divAssign_of_div h hi hj hrun
  exact ⟨σ', hrun', hnum.trans hnq⟩

theorem zero_canon : Num.zero.Canon := (Num.eq_ofInt_iff.mp Num.zero_eq_ofInt).1

theorem divAssign_canon (hd : DividesCanon v y) (h : σ.Wf) (hi : i < σ.live) (hj : j < σ.live)
    (hv : σ.num i = Num.ofInt v) (hw : σ.num j = y) (hrun : σ.divAssign i j = some σ₁) :
    (σ₁.num i).Canon := by
  have h₁ := pushDefault_pushes (R := fun _ => False) h
  have h₂ := pushDefault_pushes (R := fun _ => False) h₁.wf
  have hl₁ := h₁.live
  have hl₂ := h₂.live
  have hrun₀ := hrun
  simp only [divAssign, Option.bind_eq_bind, Option.bind_eq_some_iff, Option.some.injEq] at hrun₀
  obtain ⟨σ₂, hdiv, -⟩ := hrun₀
  obtain ⟨σ₃, hrun₃, hnum⟩ := divAssign_of_div h hi hj hdiv
  obtain rfl := Option.some.inj (hrun.symm.trans hrun₃)
  rw [hnum]
  refine (hd h₂.wf (a := i) (b := j) (by omega) (by omega) (by omega) (by omega) (by omega)
    ((h₂.num_old (by omega)).trans ((h₁.num_old hi).trans hv))
    ((h₂.num_old (by omega)).trans ((h₁.num_old hj).trans hw)) ?_ ?_ hdiv).1
  · rw [← hl₁, h₂.num]
    exact zero_canon
  · rw [h₂.num_old (by omega), h₁.num]
    exact zero_canon

/-- The remainder is an out-parameter; its cached index stays stale on the Knuth path where it is
not cleared before. -/
theorem divideAssignAndReminder_writes (h : σ.Wf) (hi : i < σ.live) (hval : val < σ.live)
    (hr : r < σ.live) (hrun : σ.divideAssignAndReminder i val r = some σ₁) :
    WritesIf (TakesKnuth (σ.num i) (σ.num val) → (σ.obj r).calcued = false) σ
      (fun k => k = i ∨ k = r) σ₁ := by
  have h₁ := pushDefault_pushes (R := fun _ => False) h
  have hl₁ := h₁.live
  refine intoResult_writes h hi (Or.inl rfl) (fun hdiv => ?_) hrun
  have hf := div_frame h₁.wf (by omega) (by omega) (by omega) (by omega) hdiv
  rw [h₁.num_old hi, h₁.num_old hval, obj_pushDefault_ne (j := r) (by omega)] at hf
  exact hf.mono (fun hC ht => ⟨calcued_pushDefault_self, hC ht⟩) fun k _ hor => by tauto

theorem divideAssignAndReminderI64_writes (h : σ.Wf) (hi : i < σ.live) (hr : r < σ.live)
    (hrun : σ.divideAssignAndReminderI64 i k r = some σ₁) :
    WritesIf (TakesKnuth (σ.num i) (Num.ofI64 k) → (σ.obj r).calcued = false) σ
      (fun k => k = i ∨ k = r) σ₁ := by
  have h₁ := pushDefault_pushes (R := fun _ => False) h
  have hl₁ := h₁.live
  refine intoResult_writes h hi (Or.inl rfl) (fun hdiv => ?_) hrun
  have hf := divI64_writes h₁.wf (by omega) (by omega) (by omega) hdiv
  rw [h₁.num_old hi, obj_pushDefault_ne (j := r) (by omega)] at hf
  exact hf.mono (fun hC ht => ⟨calcued_pushDefault_self, hC ht⟩) fun k _ hor => by tauto

theorem modAssignAndQuotient_writes (h : σ.Wf) (hi : i < σ.live) (hval : val < σ.live)
    (hq : q < σ.live) (hrun : σ.modAssignAndQuotient i val q = some σ₁) :
    WritesIf (TakesKnuth (σ.num i) (σ.num val) → (σ.obj q).calcued = false) σ
      (fun k => k = i ∨ k = q) σ₁ := by
  have h₁ := pushDefault_pushes (R := fun _ => False) h
  have hl₁ := h₁.live
  refine intoResult_writes h hi (Or.inl rfl) (fun hdiv => ?_) hrun
  have hf := div_frame h₁.wf (by omega) (by omega) (by omega) (by omega) hdiv
  rw [h₁.num_old hi, h₁.num_old hval, obj_pushDefault_ne (j := q) (by omega)] at hf
  exact hf.mono (fun hC ht => ⟨hC ht, calcued_pushDefault_self⟩) fun k _ hor => by tauto

theorem modAssignAndQuotientI64_writes (h : σ.Wf) (hi : i < σ.live) (hq : q < σ.live)
    (hrun : σ.modAssignAndQuotientI64 i k q = some σ₁) :
    WritesIf (TakesKnuth (σ.num i) (Num.ofI64 k) → (σ.obj q).calcued = false) σ
      (fun k => k = i ∨ k = q) σ₁ := by
  have h₁ := pushDefault_pushes (R := fun _ => False) h
  have hl₁ := h₁.live
  refine intoResult_writes h hi (Or.inl rfl) (fun hdiv => ?_) hrun
  have hf := divI64_writes h₁.wf (by omega) (by omega) (by omega) hdiv
  rw [h₁.num_old hi, obj_pushDefault_ne (j := q) (by omega)] at hf
  exact hf.mono (fun hC ht => ⟨hC ht, calcued_pushDefault_self⟩) fun k _ hor => by tauto

private theorem intoResult_pair (h : σ.Wf) (hi : i < σ.live) {o : Nat} (ho : o < σ.live)
    (hrun : d σ.pushDefault σ.live = some σ₂) (hf : WritesIf C σ.pushDefault T σ₂) :
    ∃ σ', σ.intoResult i d = some σ' ∧ σ'.num i = σ₂.num σ.live ∧ (o ≠ i → σ'.num o = σ₂.num o) := by
  obtain ⟨σ', hrun', hni, hnj⟩ := intoResult_num h hi hrun hf
  exact ⟨σ', hrun', hni, hnj o ho⟩

private theorem intoResult_canon (h : σ.Wf) (hi : i < σ.live) {o : Nat} (ho : o < σ.live)
    (hrun : σ.intoResult i d = some σ₁)
    (hd : ∀ {σ₂}, d σ.pushDefault σ.live = some σ₂ → WritesIf C σ.pushDefault T σ₂ ∧
      (σ₂.num σ.live).Canon ∧ (σ₂.num o).Canon) : (σ₁.num i).Canon ∧ (σ₁.num o).Canon := by
  have hrun₀ := hrun
  simp only [intoResult, Option.bind_eq_bind, Option.bind_eq_some_iff, Option.some.injEq] at hrun₀
  obtain ⟨σ₂, hrun₂, -⟩ := hrun₀
  obtain ⟨hf, hcl, hco⟩ := hd hrun₂
  obtain ⟨σ₃, hrun₃, hni, hno⟩ := intoResult_pair h hi ho hrun₂ hf
  obtain rfl := Option.some.inj (hrun.symm.trans hrun₃)
  have hci : (σ₁.num i).Canon := hni ▸ hcl
  refine ⟨hci, ?_⟩
  by_cases hoi : o = i
  · exact hoi ▸ hci
  · exact hno hoi ▸ hco

theorem divideAssignAndReminder_num (hd : DividesTo v y u w) (h : σ.Wf) (hi : i < σ.live)
    (hval : val < σ.live) (hr : r < σ.live) (hv : σ.num i = Num.ofInt v) (hy : σ.num val = y) :
    ∃ σ', σ.divideAssignAndReminder i val r = some σ' ∧ σ'.num i = Num.ofInt u ∧
      (r ≠ i → σ'.num r = Num.ofInt w) := by
  have h₁ := pushDefault_pushes (R := fun _ => False) h
  have hl₁ := h₁.live
  obtain ⟨σ₂, hrun, hnq, hnr⟩ := hd h₁.wf (q := σ.live) (r := r) (a := i) (b := val) (by omega)
    (by omega) (by omega) (by omega) (by omega) (by omega) ((h₁.num_old hi).trans hv)
    ((h₁.num_old hval).trans hy)
  obtain ⟨σ', hrun', hni, hno⟩ := intoResult_pair (o := r)
    (d := fun σ result => σ.div result r i val) h hi hr hrun
    (div_frame h₁.wf (by omega) (by omega) (by omega) (by omega) hrun)
  exact ⟨σ', hrun', hni.trans hnq, fun hri => (hno hri).trans hnr⟩

theorem divideAssignAndReminder_canon (hd : DividesCanon v y) (h : σ.Wf) (hi : i < σ.live)
    (hval : val < σ.live) (hr : r < σ.live) (hv : σ.num i = Num.ofInt v) (hy : σ.num val = y)
    (hcr : (σ.num r).Canon) (hrun : σ.divideAssignAndReminder i val r = some σ₁) :
    (σ₁.num i).Canon ∧ (σ₁.num r).Canon := by
  have h₁ := pushDefault_pushes (R := fun _ => False) h
  have hl₁ := h₁.live
  refine intoResult_canon h hi hr hrun fun hdiv =>
    ⟨div_frame h₁.wf (by omega) (by omega) (by omega) (by omega) hdiv, ?_⟩
  exact hd h₁.wf (by omega) (by omega) (by omega) (by omega) (by omega) ((h₁.num_old hi).trans hv)
    ((h₁.num_old hval).trans hy) (h₁.num ▸ zero_canon) (by rwa [h₁.num_old hr]) hdiv

theorem divideAssignAndReminderI64_num (hd : DividesTo v (Num.ofI64 k) u w) (h : σ.Wf)
    (hi : i < σ.live) (hr : r < σ.live) (hv : σ.num i = Num.ofInt v) :
    ∃ σ', σ.divideAssignAndReminderI64 i k r = some σ' ∧ σ'.num i = Num.ofInt u ∧
      (r ≠ i → σ'.num r = Num.ofInt w) := by
  have h₁ := pushDefault_pushes (R := fun _ => False) h
  have hl₁ := h₁.live
  obtain ⟨σ₂, hrun, hnq, hnr⟩ := divI64_num hd h₁.wf (q := σ.live) (r := r) (a := i) (by omega)
    (by omega) (by omega) (by omega) ((h₁.num_old hi).trans hv)
  obtain ⟨σ', hrun', hni, hno⟩ := intoResult_pair (o := r)
    (d := fun σ result => σ.divI64 result r i k) h hi hr hrun
    (divI64_writes h₁.wf (by omega) (by omega) (by omega) hrun)
  exact ⟨σ', hrun', hni.trans hnq, fun hri => (hno hri).trans hnr⟩

theorem divideAssignAndReminderI64_canon (hd : DividesCanon v (Num.ofI64 k)) (h : σ.Wf)
    (hi : i < σ.live) (hr : r < σ.live) (hv : σ.num i = Num.ofInt v) (hcr : (σ.num r).Canon)
    (hrun : σ.divideAssignAndReminderI64 i k r = some σ₁) :
    (σ₁.num i).Canon ∧ (σ₁.num r).Canon := by
  have h₁ := pushDefault_pushes (R := fun _ => False) h
  have hl₁ := h₁.live
  refine intoResult_canon h hi hr hrun fun hdiv =>
    ⟨divI64_writes h₁.wf (by omega) (by omega) (by omega) hdiv, ?_⟩
  exact divI64_canon hd h₁.wf (by omega) (by omega) (by omega) (by omega)
    ((h₁.num_old hi).trans hv) (h₁.num ▸ zero_canon) (by rwa [h₁.num_old hr]) hdiv

theorem modAssignAndQuotient_num (hd : DividesTo v y u w) (h : σ.Wf) (hi : i < σ.live)
    (hval : val < σ.live) (hq : q < σ.live) (hqv : q = val → v.natAbs = y.toInt.natAbs)
    (hv : σ.num i = Num.ofInt v) (hy : σ.num val = y) :
    ∃ σ', σ.modAssignAndQuotient i val q = some σ' ∧ σ'.num i = Num.ofInt w ∧
      (q ≠ i → σ'.num q = Num.ofInt u) := by
  have h₁ := pushDefault_pushes (R := fun _ => False) h
  have hl₁ := h₁.live
  obtain ⟨σ₂, hrun, hnq, hnr⟩ := hd h₁.wf (q := q) (r := σ.live) (a := i) (b := val) (by omega)
    (by omega) (by omega) (by omega) (by omega) hqv ((h₁.num_old hi).trans hv)
    ((h₁.num_old hval).trans hy)
  obtain ⟨σ', hrun', hni, hno⟩ := intoResult_pair (o := q)
    (d := fun σ result => σ.div q result i val) h hi hq hrun
    (div_frame h₁.wf (by omega) (by omega) (by omega) (by omega) hrun)
  exact ⟨σ', hrun', hni.trans hnr, fun hqi => (hno hqi).trans hnq⟩

theorem modAssignAndQuotient_canon (hd : DividesCanon v y) (h : σ.Wf) (hi : i < σ.live)
    (hval : val < σ.live) (hq : q < σ.live) (hv : σ.num i = Num.ofInt v) (hy : σ.num val = y)
    (hcq : (σ.num q).Canon) (hrun : σ.modAssignAndQuotient i val q = some σ₁) :
    (σ₁.num i).Canon ∧ (σ₁.num q).Canon := by
  have h₁ := pushDefault_pushes (R := fun _ => False) h
  have hl₁ := h₁.live
  refine intoResult_canon h hi hq hrun fun hdiv =>
    ⟨div_frame h₁.wf (by omega) (by omega) (by omega) (by omega) hdiv, And.symm ?_⟩
  exact hd h₁.wf (by omega) (by omega) (by omega) (by omega) (by omega) ((h₁.num_old hi).trans hv)
    ((h₁.num_old hval).trans hy) (by rwa [h₁.num_old hq]) (h₁.num ▸ zero_canon) hdiv

theorem modAssignAndQuotientI64_num (hd : DividesTo v (Num.ofI64 k) u w) (h : σ.Wf)
    (hi : i < σ.live) (hq : q < σ.live) (hv : σ.num i = Num.ofInt v) :
    ∃ σ', σ.modAssignAndQuotientI64 i k q = some σ' ∧ σ'.num i = Num.ofInt w ∧
      (q ≠ i → σ'.num q = Num.ofInt u) := by
  have h₁ := pushDefault_pushes (R := fun _ => False) h
  have hl₁ := h₁.live
  obtain ⟨σ₂, hrun, hnq, hnr⟩ := divI64_num hd h₁.wf (q := q) (r := σ.live) (a := i) (by omega)
    (by omega) (by omega) (by omega) ((h₁.num_old hi).trans hv)
  obtain ⟨σ', hrun', hni, hno⟩ := intoResult_pair (o := q)
    (d := fun σ result => σ.divI64 q result i k) h hi hq hrun
    (divI64_writes h₁.wf (by omega) (by omega) (by omega) hrun)
  exact ⟨σ', hrun', hni.trans hnr, fun hqi => (hno hqi).trans hnq⟩

theorem modAssignAndQuotientI64_canon (hd : DividesCanon v (Num.ofI64 k)) (h : σ.Wf)
    (hi : i < σ.live) (hq : q < σ.live) (hv : σ.num i = Num.ofInt v) (hcq : (σ.num q).Canon)
    (hrun : σ.modAssignAndQuotientI64 i k q = some σ₁) :
    (σ₁.num i).Canon ∧ (σ₁.num q).Canon := by
  have h₁ := pushDefault_pushes (R := fun _ => False) h
  have hl₁ := h₁.live
  refine intoResult_canon h hi hq hrun fun hdiv =>
    ⟨divI64_writes h₁.wf (by omega) (by omega) (by omega) hdiv, And.symm ?_⟩
  exact divI64_canon hd h₁.wf (by omega) (by omega) (by omega) (by omega)
    ((h₁.num_old hi).trans hv) (by rwa [h₁.num_old hq]) (h₁.num ▸ zero_canon) hdiv

end members

end Store

end PGBigNumber
