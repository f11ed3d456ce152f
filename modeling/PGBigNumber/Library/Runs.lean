import Mathlib.Logic.Relation
import Mathlib.Tactic.Common

/-!
# Runs of a step function

What holds in every state of a run, read off from what one step preserves. A step that cannot be
taken ends the run.
-/

namespace Runs

variable {σ α : Type*} (step : σ → α → Option σ)

def Throughout (P : σ → Prop) : σ → List α → Prop
  | s, [] => P s
  | s, a :: as => P s ∧ ∀ s', step s a = some s' → Throughout P s' as

/-- Every step that is taken from `s` on meets the condition `ok`. -/
def Permitted (ok : σ → α → Prop) : σ → List α → Prop
  | _, [] => True
  | s, a :: as => ∀ s', step s a = some s' → ok s a ∧ Permitted ok s' as

/-- Every step that is taken from `s` on is related by `R` to where it leads. -/
def Stepwise (R : σ → α → σ → Prop) : σ → List α → Prop
  | _, [] => True
  | s, a :: as => ∀ s', step s a = some s' → R s a s' ∧ Stepwise R s' as

variable {step} {P : σ → Prop} {ok : σ → α → Prop} {R : σ → α → σ → Prop}

theorem throughout_of_permitted
    (hstep : ∀ s a s', P s → ok s a → step s a = some s' → P s') {s : σ} {as : List α}
    (hs : P s) (has : Permitted step ok s as) : Throughout step P s as := by
  induction as generalizing s with
  | nil => exact hs
  | cons a as ih =>
      refine ⟨hs, fun s' hs' => ?_⟩
      obtain ⟨hok, hrest⟩ := has s' hs'
      exact ih (hstep s a s' hs hok hs') hrest

theorem throughout_of_invariant (hinv : ∀ s a s', P s → step s a = some s' → P s') {s : σ}
    (hs : P s) (as : List α) : Throughout step P s as := by
  induction as generalizing s with
  | nil => exact hs
  | cons a as ih => exact ⟨hs, fun s' hs' => ih (hinv s a s' hs hs')⟩

theorem Throughout.mono {Q : σ → Prop} (hPQ : ∀ s, P s → Q s) {s : σ} {as : List α}
    (h : Throughout step P s as) : Throughout step Q s as := by
  induction as generalizing s with
  | nil => exact hPQ s h
  | cons a as ih => exact ⟨hPQ s h.1, fun s' hs' => ih (h.2 s' hs')⟩

theorem Throughout.start {s : σ} {as : List α} (h : Throughout step P s as) : P s := by
  cases as with
  | nil => exact h
  | cons a as => exact h.1

theorem Throughout.finish {s s' : σ} {as : List α} (h : Throughout step P s as)
    (hrun : as.foldlM step s = some s') : P s' := by
  induction as generalizing s with
  | nil =>
      obtain rfl := Option.some.inj hrun
      exact h
  | cons a as ih =>
      rw [List.foldlM_cons] at hrun
      obtain ⟨s₁, hs₁, hrest⟩ := Option.bind_eq_some_iff.mp hrun
      exact ih (h.2 s₁ hs₁) hrest

/-- Under an invariant `I` of all steps: where a step leads out of `P` as soon as it is not
permitted, the runs that stay in `P` are the permitted ones. -/
theorem throughout_iff_permitted {I : σ → Prop}
    (hinv : ∀ s a s', I s → step s a = some s' → I s')
    (hstep : ∀ s a s', I s → P s → step s a = some s' → (P s' ↔ ok s a)) {s : σ} {as : List α}
    (hI : I s) (hP : P s) : Throughout step P s as ↔ Permitted step ok s as := by
  constructor
  · intro has
    induction as generalizing s with
    | nil => trivial
    | cons a as ih =>
        intro s' hs'
        have hrest := has.2 s' hs'
        have hP' := hrest.start
        exact ⟨(hstep s a s' hI hP hs').mp hP', ih (hinv s a s' hI hs') hP' hrest⟩
  · intro has
    have hboth : ∀ s a s', I s ∧ P s → ok s a → step s a = some s' → I s' ∧ P s' :=
      fun s a s' hs hok hs' => ⟨hinv s a s' hs.1 hs', (hstep s a s' hs.1 hs.2 hs').mpr hok⟩
    exact (throughout_of_permitted hboth ⟨hI, hP⟩ has).mono fun _ hs => hs.2

theorem stepwise_iff_permitted {I : σ → Prop}
    (hstep : ∀ s a s', I s → step s a = some s' → (R s a s' ↔ ok s a))
    (hinv : ∀ s a s', I s → step s a = some s' → R s a s' → I s') {s : σ} {as : List α}
    (hI : I s) : Stepwise step R s as ↔ Permitted step ok s as := by
  induction as generalizing s with
  | nil => exact Iff.rfl
  | cons a as ih =>
      constructor
      · intro h s' hs'
        obtain ⟨hR, hrest⟩ := h s' hs'
        exact ⟨(hstep s a s' hI hs').mp hR, (ih (hinv s a s' hI hs' hR)).mp hrest⟩
      · intro h s' hs'
        obtain ⟨hok, hrest⟩ := h s' hs'
        have hR := (hstep s a s' hI hs').mpr hok
        exact ⟨hR, (ih (hinv s a s' hI hs' hR)).mpr hrest⟩

/-- The conditions `ok` hold along the run from `s`, also where it gets stuck. -/
def Guarded (step : σ → α → Option σ) (ok : σ → α → Prop) : σ → List α → Prop
  | _, [] => True
  | s, a :: as => ok s a ∧ ∀ s', step s a = some s' → Guarded step ok s' as

/-- Forward simulation: where every step of the abstract function `stepA` is one of `step` in the
states of `I`, under the condition `ok`, every run of the abstract function is one of `step`. -/
theorem simulation {τ : Type*} {stepA : τ → α → Option τ} {I : σ → Prop} (abs : σ → τ)
    (hstep : ∀ s a t, I s → ok s a → stepA (abs s) a = some t →
      ∃ s', step s a = some s' ∧ I s' ∧ abs s' = t) {s : σ} {as : List α} {t : τ} (hI : I s)
    (hok : Guarded step ok s as) (hrun : as.foldlM stepA (abs s) = some t) :
    ∃ s', as.foldlM step s = some s' ∧ I s' ∧ abs s' = t := by
  induction as generalizing s with
  | nil => exact ⟨s, rfl, hI, Option.some.inj hrun⟩
  | cons a as ih =>
      rw [List.foldlM_cons] at hrun
      obtain ⟨t₁, hfirst, hrest⟩ := Option.bind_eq_some_iff.mp hrun
      obtain ⟨s₁, hs₁, hI₁, habs⟩ := hstep s a t₁ hI hok.1 hfirst
      obtain ⟨s', hs', hIs', ht⟩ := ih hI₁ (hok.2 s₁ hs₁) (habs ▸ hrest)
      refine ⟨s', ?_, hIs', ht⟩
      rw [List.foldlM_cons, hs₁]
      exact hs'

/-- Whichever steps are taken from `s` on, after finitely many of them `P` holds, and before that
there always is a step to take. -/
inductive Inevitable (next : σ → σ → Prop) (P : σ → Prop) : σ → Prop
  | now {s : σ} (h : P s) : Inevitable next P s
  | later {s : σ} (hnext : ∃ s', next s s') (h : ∀ s', next s s' → Inevitable next P s') :
      Inevitable next P s

variable {next : σ → σ → Prop} {I : σ → Prop}

/-- Steps that keep an invariant and lower a measure lead to where no more of them are due. -/
theorem inevitable_of_measure (μ : σ → Nat)
    (hstep : ∀ s s', I s → next s s' → I s' ∧ μ s' < μ s)
    (hprogress : ∀ s, I s → P s ∨ ∃ s', next s s') {s : σ} (hs : I s) : Inevitable next P s := by
  induction hμ : μ s using Nat.strongRecOn generalizing s with
  | ind n ih =>
      subst hμ
      rcases hprogress s hs with hP | hnext
      · exact .now hP
      · refine .later hnext fun s' hs' => ?_
        obtain ⟨hI, hlt⟩ := hstep s s' hs hs'
        exact ih _ hlt hI rfl

theorem Inevitable.exists_of_invariant {s : σ} (h : Inevitable next P s)
    (hstep : ∀ s s', I s → next s s' → I s') (hs : I s) : ∃ s', I s' ∧ P s' := by
  induction h with
  | now hP => exact ⟨_, hs, hP⟩
  | later hnext _ ih =>
      obtain ⟨s', hs'⟩ := hnext
      exact ih s' hs' (hstep _ s' hs hs')

theorem Inevitable.mono {P' : σ → Prop} {s : σ} (h : Inevitable next P s) (hP : ∀ s, P s → P' s) :
    Inevitable next P' s := by
  induction h with
  | now h => exact .now (hP _ h)
  | later hnext _ ih => exact .later hnext ih

theorem Inevitable.of_reaches (hlast : ∀ s s', P s → ¬ next s s') {s s' : σ}
    (h : Inevitable next P s) (hreach : Relation.ReflTransGen next s s') : Inevitable next P s' := by
  induction h with
  | now hP =>
      rcases hreach.cases_head with rfl | ⟨s₁, hfirst, -⟩
      · exact .now hP
      · exact absurd hfirst (hlast _ _ hP)
  | later hnext hrest ih =>
      rcases hreach.cases_head with rfl | ⟨s₁, hfirst, hreach⟩
      · exact .later hnext hrest
      · exact ih s₁ hfirst hreach

theorem Inevitable.of_reachable {next' : σ → σ → Prop} (hsub : ∀ s s', next s s' → next' s s')
    {s : σ} (h : Inevitable next P s)
    (hreach : ∀ s₁ s₂, Relation.ReflTransGen next' s s₁ → next' s₁ s₂ → next s₁ s₂) :
    Inevitable next' P s := by
  induction h with
  | now hP => exact .now hP
  | @later s hnext _ ih =>
      obtain ⟨s₁, hfirst⟩ := hnext
      refine .later ⟨s₁, hsub _ _ hfirst⟩ fun s' hs' => ?_
      exact ih s' (hreach s s' .refl hs') fun s₁ s₂ hs₁ => hreach s₁ s₂ (.head hs' hs₁)

variable {τ : Type*} {nextA : τ → τ → Prop} {Q : τ → Prop} {R : σ → τ → Prop} {t : τ}

theorem reaches_of_simulation
    (hstep : ∀ s s' t, R s t → next s s' → R s' t ∨ ∃ t', nextA t t' ∧ R s' t') {s s' : σ}
    (hR : R s t) (h : Relation.ReflTransGen next s s') :
    ∃ t', Relation.ReflTransGen nextA t t' ∧ R s' t' := by
  induction h with
  | refl => exact ⟨t, .refl, hR⟩
  | tail _ hnext ih =>
      obtain ⟨t₁, hreach, hR₁⟩ := ih
      rcases hstep _ _ t₁ hR₁ hnext with hR' | ⟨t', hnextA, hR'⟩
      · exact ⟨t₁, hreach, hR'⟩
      · exact ⟨t', hreach.tail hnextA, hR'⟩

private theorem Inevitable.of_next (μ : σ → Nat)
    (hprogress : ∀ s t, R s t → P s ∨ ∃ s', next s s')
    (hstep : ∀ s s' t, R s t → next s s' → R s' t ∧ μ s' < μ s ∨ ∃ t', nextA t t' ∧ R s' t')
    (hnextA : ∀ t' s', nextA t t' → R s' t' → Inevitable next P s') {s : σ} (hR : R s t) :
    Inevitable next P s := by
  induction hμ : μ s using Nat.strongRecOn generalizing s with
  | ind n ih =>
      subst hμ
      rcases hprogress s t hR with hP | hnext
      · exact .now hP
      refine .later hnext fun s' hs' => ?_
      rcases hstep s s' t hR hs' with ⟨hR', hlt⟩ | ⟨t', hA, hR'⟩
      · exact ih _ hlt hR' rfl
      · exact hnextA t' s' hA hR'

/-- What is inevitable for the abstract relation, which then has no more steps, leads to what is
inevitable for its refinement, where steps between the abstract ones count down. -/
theorem Inevitable.of_simulation (μ : σ → Nat)
    (hprogress : ∀ s t, R s t → P s ∨ ∃ s', next s s')
    (hstep : ∀ s s' t, R s t → next s s' → R s' t ∧ μ s' < μ s ∨ ∃ t', nextA t t' ∧ R s' t')
    (hlast : ∀ t t', Q t → ¬ nextA t t') {s : σ} (hR : R s t) (h : Inevitable nextA Q t) :
    Inevitable next P s := by
  induction h generalizing s with
  | now hQ => exact .of_next μ hprogress hstep (fun t' _ hA _ => absurd hA (hlast _ t' hQ)) hR
  | later _ _ ih => exact .of_next μ hprogress hstep (fun t' s' hA hR' => ih t' hA hR') hR

end Runs
