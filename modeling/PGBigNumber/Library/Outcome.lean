import Mathlib.Tactic.Common

/-!
# Stateful computations that may stop

Postconditions for computations over a state that either return a result or stop for a reason: one
for the result together with the state left behind, one for the reason.
-/

namespace Outcome

universe u v

variable {σ α β : Type u} {ε : Type v} {x : StateT σ (Except ε) α} {s : σ} {Q R : α → σ → Prop}
  {E F : ε → Prop}

/-- Run in `s`, `x` returns with `Q` or stops for a reason in `E`. -/
def Ensures (x : StateT σ (Except ε) α) (s : σ) (Q : α → σ → Prop) (E : ε → Prop) : Prop :=
  match x s with
  | .ok (a, s') => Q a s'
  | .error e => E e

theorem ensures_of_ok {a : α} {s' : σ} (hrun : x s = .ok (a, s')) : Ensures x s Q E ↔ Q a s' := by
  unfold Ensures
  rw [hrun]

theorem ensures_of_error {e : ε} (hrun : x s = .error e) : Ensures x s Q E ↔ E e := by
  unfold Ensures
  rw [hrun]

@[simp] theorem ensures_pure (a : α) :
    Ensures (pure a : StateT σ (Except ε) α) s Q E ↔ Q a s := Iff.rfl

@[simp] theorem ensures_throw (e : ε) :
    Ensures (throw e : StateT σ (Except ε) α) s Q E ↔ E e := Iff.rfl

@[simp] theorem ensures_get {Q : σ → σ → Prop} :
    Ensures (get : StateT σ (Except ε) σ) s Q E ↔ Q s s := Iff.rfl

@[simp] theorem ensures_set {Q : PUnit → σ → Prop} (s' : σ) :
    Ensures (set s' : StateT σ (Except ε) PUnit) s Q E ↔ Q ⟨⟩ s' := Iff.rfl

/-- One computation after the other: the first one ensures what the second one needs. -/
@[simp] theorem ensures_bind {Q : β → σ → Prop} (f : α → StateT σ (Except ε) β) :
    Ensures (x >>= f) s Q E ↔ Ensures x s (fun a s' => Ensures (f a) s' Q E) E := by
  unfold Ensures
  simp only [bind, StateT.bind, Except.bind]
  cases x s with
  | ok p => rfl
  | error e => rfl

@[simp] theorem ensures_map {Q : β → σ → Prop} (f : α → β) :
    Ensures (f <$> x) s Q E ↔ Ensures x s (fun a s' => Q (f a) s') E := by
  rw [← bind_pure_comp, ensures_bind]
  simp only [ensures_pure]

theorem ensures_ite (c : Prop) [Decidable c] (y : StateT σ (Except ε) α) :
    Ensures (if c then x else y) s Q E ↔
      (c → Ensures x s Q E) ∧ (¬ c → Ensures y s Q E) := by
  by_cases hc : c <;> simp [hc]

theorem Ensures.mono (h : Ensures x s Q E) (hQ : ∀ a s', Q a s' → R a s')
    (hE : ∀ e, E e → F e) : Ensures x s R F := by
  unfold Ensures at *
  cases hrun : x s with
  | ok p =>
      rw [hrun] at h
      exact hQ _ _ h
  | error e =>
      rw [hrun] at h
      exact hE _ h

end Outcome
