import PGBigNumber.Store.Frame

/-!
# Steps

How the functions of the library are specified on stores: a step that stores one number, a step
that makes one local object, and a step that writes several objects.
-/

namespace PGBigNumber

namespace Store

/-- A step that stores `x` in object `i`. The cache of `i` comes out right when those of the
objects in `R` went in right. -/
structure Puts (σ : Store) (i : Nat) (R : Nat → Prop) (x : Num) (σ' : Store) : Prop where
  live : σ'.live = σ.live
  keeps : Keeps σ.live (· = i) σ σ'
  num : σ'.num i = x
  cache : (∀ j, R j → σ.CacheOk j) → σ'.CacheOk i

variable {σ σ₁ σ₂ : Store} {i j n : Nat} {S R Q : Nat → Prop} {x y : Num}

theorem Puts.wf (h : Puts σ i R x σ₁) : σ₁.Wf := h.keeps.good.wf

theorem Puts.mono (h : Puts σ i R x σ₁) (hR : ∀ j, R j → Q j) : Puts σ i Q x σ₁ :=
  ⟨h.live, h.keeps, h.num, fun hc => h.cache fun j hj => hc j (hR j hj)⟩

/-- Two steps on one object; the second may look at that object and at what the first looked at. -/
theorem Puts.trans (h₁ : Puts σ i R x σ₁) (h₂ : Puts σ₁ i Q y σ₂)
    (hR : ∀ j, Q j → j = i ∨ (R j ∧ j < σ.live)) : Puts σ i R y σ₂ := by
  refine ⟨h₂.live.trans h₁.live, ?_, h₂.num, fun hc => h₂.cache fun j hj => ?_⟩
  · exact h₁.keeps.then fun _ => h₁.live ▸ h₂.keeps
  · rcases hR j hj with rfl | ⟨hRj, hlt⟩
    · exact h₁.cache hc
    · by_cases hji : j = i
      · exact hji ▸ h₁.cache hc
      · exact h₁.keeps.cache j hlt hji (hc j hRj)

theorem Puts.num_ne (h : Puts σ i R x σ₁) (hj : j < σ.live) (hji : j ≠ i) : σ₁.num j = σ.num j :=
  h.keeps.num j hj hji

/-- The usual ending: a chain of steps on `i` that leaves the cache bit clear. -/
theorem Puts.of_keeps (hlive : σ₁.live = σ.live) (hkeeps : Keeps σ.live (· = i) σ σ₁)
    (hnum : σ₁.num i = x) (hcache : (σ₁.obj i).calcued = false) : Puts σ i R x σ₁ :=
  ⟨hlive, hkeeps, hnum, fun _ => .of_not_calcued hcache⟩

theorem Puts.refl (h : σ.Wf) (hR : R i) : Puts σ i R (σ.num i) σ :=
  ⟨rfl, .refl h.good, rfl, fun hc => hc i hR⟩

theorem Puts.of_num (h : Puts σ i R x σ₁) (hy : σ₁.num i = y) : Puts σ i R y σ₁ :=
  ⟨h.live, h.keeps, hy, h.cache⟩

theorem Puts.keepsAt (h : Puts σ i R x σ₁) (hn : n ≤ σ.live)
    (hi : i < n → S i) : Keeps n S σ σ₁ :=
  h.keeps.mono hn fun _ hj he => he ▸ hi (he ▸ hj)

/-- A step that makes one new object with number `x`. -/
structure Pushes (σ : Store) (R : Nat → Prop) (x : Num) (σ' : Store) : Prop where
  live : σ'.live = σ.live + 1
  keeps : Keeps σ.live (fun _ => False) σ σ'
  num : σ'.num σ.live = x
  cache : (∀ j, R j → σ.CacheOk j) → σ'.CacheOk σ.live

theorem Pushes.wf (h : Pushes σ R x σ₁) : σ₁.Wf := h.keeps.good.wf

theorem Pushes.num_old (h : Pushes σ R x σ₁) (hj : j < σ.live) : σ₁.num j = σ.num j :=
  h.keeps.num j hj fun hf => hf

theorem Pushes.puts (h₁ : Pushes σ R x σ₁) (h₂ : Puts σ₁ σ.live Q y σ₂)
    (hR : ∀ j, Q j → j = σ.live ∨ (R j ∧ j < σ.live)) : Pushes σ R y σ₂ := by
  refine ⟨h₂.live.trans h₁.live, ?_, h₂.num, fun hc => h₂.cache fun j hj => ?_⟩
  · refine h₁.keeps.then fun _ => h₂.keeps.mono (by rw [h₁.live]; omega) fun j hj he => ?_
    omega
  · rcases hR j hj with rfl | ⟨hRj, hlt⟩
    · exact h₁.cache hc
    · exact h₁.keeps.cache j hlt (fun hf => hf) (hc j hRj)

/-- A step on an old object that uses one local object, which then goes out of scope. -/
theorem Pushes.close (h₁ : Pushes σ R y σ₁) (h₂ : Puts σ₁ i Q x σ₂)
    (hR : ∀ j, Q j → j = σ.live ∨ (R j ∧ j < σ.live)) :
    Puts σ i R x (σ₂.popTo σ.live) := by
  have hlive : σ₂.live = σ.live + 1 := h₂.live.trans h₁.live
  have hkeeps : Keeps σ.live (· = i) σ σ₂ :=
    (h₁.keeps.mono (Nat.le_refl _) fun _ _ hf => hf.elim).then fun _ =>
      h₂.keeps.mono (by rw [h₁.live]; omega) fun _ _ he => he
  refine ⟨rfl, hkeeps.then fun hg => .popTo hg (Nat.le_refl _) (by omega), h₂.num, fun hc => ?_⟩
  apply h₂.cache
  intro j hj
  rcases hR j hj with rfl | ⟨hRj, hlt⟩
  · exact h₁.cache hc
  · exact h₁.keeps.cache j hlt (fun hf => hf) (hc j hRj)

theorem Pushes.keepsAt (h : Pushes σ R x σ₁) (hn : n ≤ σ.live) :
    Keeps n S σ σ₁ :=
  h.keeps.mono hn fun _ _ hf => hf.elim

def CachesOk (σ : Store) : Prop := ∀ i < σ.live, σ.CacheOk i

/-- A step that writes at most the objects in `S`. -/
structure Writes (σ : Store) (S : Nat → Prop) (σ' : Store) : Prop where
  live : σ'.live = σ.live
  keeps : Keeps σ.live S σ σ'
  caches : σ.CachesOk → σ'.CachesOk

theorem Writes.wf (h : Writes σ S σ₁) : σ₁.Wf := h.keeps.good.wf

theorem Writes.refl (h : σ.Wf) : Writes σ S σ := ⟨rfl, .refl h.good, id⟩

theorem Writes.trans (h₁ : Writes σ S σ₁) (h₂ : Writes σ₁ S σ₂) : Writes σ S σ₂ :=
  ⟨h₂.live.trans h₁.live, h₁.keeps.then fun _ => h₁.live ▸ h₂.keeps,
    fun hc => h₂.caches (h₁.caches hc)⟩

/-- The same, with right caches only under the condition `C`. -/
structure WritesIf (C : Prop) (σ : Store) (S : Nat → Prop) (σ' : Store) : Prop where
  live : σ'.live = σ.live
  keeps : Keeps σ.live S σ σ'
  caches : C → σ.CachesOk → σ'.CachesOk

theorem WritesIf.wf {C : Prop} (h : WritesIf C σ S σ₁) : σ₁.Wf := h.keeps.good.wf

theorem WritesIf.writes {C : Prop} (h : WritesIf C σ S σ₁) (hC : C) : Writes σ S σ₁ :=
  ⟨h.live, h.keeps, h.caches hC⟩

theorem Writes.writesIf {C : Prop} (h : Writes σ S σ₁) : WritesIf C σ S σ₁ :=
  ⟨h.live, h.keeps, fun _ => h.caches⟩

theorem WritesIf.mono {C D : Prop} {T : Nat → Prop} (h : WritesIf C σ S σ₁) (hD : D → C)
    (hS : ∀ j < σ.live, S j → T j) : WritesIf D σ T σ₁ :=
  ⟨h.live, h.keeps.mono (Nat.le_refl _) hS, fun hd => h.caches (hD hd)⟩

theorem Puts.cachesOk (h : Puts σ i R x σ₁) (hR : ∀ j, R j → j < σ.live) (hc : σ.CachesOk) :
    σ₁.CachesOk := by
  intro j hj
  rw [h.live] at hj
  by_cases hji : j = i
  · exact hji ▸ h.cache fun k hk => hc k (hR k hk)
  · exact h.keeps.cache j hj hji (hc j hj)

theorem Puts.writes (h : Puts σ i R x σ₁) (hS : S i) (hR : ∀ j, R j → j < σ.live) :
    Writes σ S σ₁ :=
  ⟨h.live, h.keeps.mono (Nat.le_refl _) fun _ _ he => he ▸ hS, h.cachesOk hR⟩

theorem Pushes.cachesOk (h : Pushes σ R x σ₁) (hR : ∀ j, R j → j < σ.live) (hc : σ.CachesOk) :
    σ₁.CachesOk := by
  intro j hj
  rw [h.live] at hj
  by_cases hjl : j = σ.live
  · exact hjl ▸ h.cache fun k hk => hc k (hR k hk)
  · exact h.keeps.cache j (by omega) (fun hf => hf) (hc j (by omega))

theorem Writes.setStatus (h : σ.Wf) (e : ErrCode) : Writes σ S (σ.setStatus e) :=
  ⟨rfl, .setStatus h.good e, id⟩

end Store

end PGBigNumber
