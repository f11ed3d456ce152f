import Mathlib.Tactic.Common

/-!
# Code over an interface

Programs that make calls and go on with the answers, apart from the machine that answers them. A
simulation between two machines carries over to all code.
-/

/-- Code that returns a `β`. The answer to the call `q` is a `ρ q`. -/
inductive Code {κ : Type} (ρ : κ → Type) (β : Type) where
  | ret (b : β)
  | stop
  | call (q : κ) (k : ρ q → Code ρ β)

namespace Code

variable {κ : Type} {ρ : κ → Type} {β γ σ τ : Type}

def bind : Code ρ β → (β → Code ρ γ) → Code ρ γ
  | .ret b, f => f b
  | .stop, _ => .stop
  | .call q k, f => .call q fun r => (k r).bind f

instance : Monad (Code ρ) where
  pure := .ret
  bind := bind

def of (q : κ) : Code ρ (ρ q) := .call q .ret

def lift : Option β → Code ρ β
  | some b => .ret b
  | none => .stop

def when (cond : Code ρ Bool) (body : Code ρ Unit) : Code ρ Unit := do
  if ← cond then body else return ()

def loop : Nat → Code ρ Bool → Code ρ Unit → Code ρ Unit
  | 0, cond, _ => do if ← cond then .stop else return ()
  | n + 1, cond, body => do
    if ← cond then
      body
      loop n cond body
    else return ()

/-- What a machine does with a call: it may change its state, and it may have no answer. -/
abbrev Machine (σ : Type) {κ : Type} (ρ : κ → Type) := σ → (q : κ) → Option (ρ q × σ)

def run (M : Machine σ ρ) : Code ρ β → σ → Option (β × σ)
  | .ret b, s => some (b, s)
  | .stop, _ => none
  | .call q k, s => (M s q).bind fun (r, s') => (k r).run M s'

variable {M : Machine σ ρ} {s : σ}

theorem run_bind (c : Code ρ β) (f : β → Code ρ γ) (s : σ) :
    (c >>= f).run M s = (c.run M s).bind fun p => (f p.1).run M p.2 := by
  change (c.bind f).run M s = _
  induction c generalizing s with
  | ret b => rfl
  | stop => rfl
  | call q k ih =>
      rw [Code.bind, run, run, Option.bind_assoc]
      congr 1
      funext p
      exact ih p.1 p.2

theorem run_invariant {I : σ → Prop} (hcall : ∀ s q r s', I s → M s q = some (r, s') → I s')
    {c : Code ρ β} {b : β} {s' : σ} (hs : I s) (hrun : c.run M s = some (b, s')) : I s' := by
  induction c generalizing s with
  | ret b' =>
      cases hrun
      exact hs
  | stop => exact absurd hrun (by simp [run])
  | call q k ih =>
      obtain ⟨⟨r, s₁⟩, hr, hrun⟩ := Option.bind_eq_some_iff.mp hrun
      exact ih r (hcall s q r s₁ hs hr) hrun

/-- A machine with a record of its calls and answers beside it. -/
def recording (M : Machine σ ρ) (note : τ → (q : κ) → ρ q → τ) : Machine (σ × τ) ρ :=
  fun s q => (M s.1 q).map fun r => (r.1, r.2, note s.2 q r.1)

/-- The code runs to its end from `s`, with a result and a state in `Q`. -/
def Ends (M : Machine σ ρ) (c : Code ρ β) (s : σ) (Q : β → σ → Prop) : Prop :=
  ∃ b s', c.run M s = some (b, s') ∧ Q b s'

section

variable {c : Code ρ β} {f : β → Code ρ γ} {Q R : β → σ → Prop} {T : γ → σ → Prop}

theorem Ends.ret {b : β} (h : Q b s) : Ends M (pure b) s Q := ⟨b, s, rfl, h⟩

theorem Ends.of {q : κ} {r : ρ q} {s' : σ} {Q : ρ q → σ → Prop} (hq : M s q = some (r, s'))
    (h : Q r s') : Ends M (.of q) s Q :=
  ⟨r, s', by rw [Code.of, run, hq]; rfl, h⟩

theorem Ends.bind (hc : Ends M c s R) (hf : ∀ b s', R b s' → Ends M (f b) s' T) :
    Ends M (c >>= f) s T := by
  obtain ⟨b, s', hrun, hR⟩ := hc
  obtain ⟨d, s'', hrest, hT⟩ := hf b s' hR
  exact ⟨d, s'', by rw [run_bind, hrun]; exact hrest, hT⟩

theorem Ends.lift {b : β} {o : Option β} (ho : o = some b) {f : β → Code ρ γ}
    (h : Ends M (f b) s T) : Ends M (Code.lift o >>= f) s T := by
  subst ho
  exact h

theorem Ends.step {q : κ} {r : ρ q} {s' : σ} {f : ρ q → Code ρ γ} (hq : M s q = some (r, s'))
    (h : Ends M (f r) s' T) : Ends M (Code.of q >>= f) s T :=
  (Ends.of (Q := fun r' s'' => r' = r ∧ s'' = s') hq ⟨rfl, rfl⟩).bind fun _ _ ⟨hr, hs⟩ =>
    hr ▸ hs ▸ h

theorem Ends.mono (hc : Ends M c s R) (h : ∀ b s', R b s' → Q b s') : Ends M c s Q := by
  obtain ⟨b, s', hrun, hR⟩ := hc
  exact ⟨b, s', hrun, h b s' hR⟩

end

theorem Ends.loop {cond : Code ρ Bool} {body : Code ρ Unit} {I : Nat → σ → Prop} {Q : σ → Prop}
    (hcond : ∀ m s, I m s → Ends M cond s fun b s' =>
      if b then ∃ m' < m, Ends M body s' fun _ => I m' else Q s') {m n : Nat} (hmn : m ≤ n)
    (hs : I m s) : Ends M (Code.loop n cond body) s fun _ => Q := by
  induction n generalizing m s with
  | zero =>
      refine (hcond m s hs).bind fun b s' hb => ?_
      cases b with
      | false => exact .ret hb
      | true =>
          obtain ⟨m', hlt, -⟩ := hb
          omega
  | succ n ih =>
      refine (hcond m s hs).bind fun b s' hb => ?_
      cases b with
      | false => exact .ret hb
      | true =>
          obtain ⟨m', hlt, hbody⟩ := hb
          exact hbody.bind fun _ s'' hI => ih (by omega) hI

/-- The condition `ok` holds for the calls of the code, also where a call is not answered. -/
def Guarded (M : Machine σ ρ) (ok : σ → κ → Prop) : Code ρ β → σ → Prop
  | .ret _, _ => True
  | .stop, _ => True
  | .call q k, s => ok s q ∧ ∀ r s', M s q = some (r, s') → (k r).Guarded M ok s'

def Calls (ok : κ → Prop) : Code ρ β → Prop
  | .ret _ => True
  | .stop => True
  | .call q k => ok q ∧ ∀ r, (k r).Calls ok

section

variable {ok : σ → κ → Prop} {okay : κ → Prop} {c : Code ρ β} {f : β → Code ρ γ}

theorem Calls.bind (hc : c.Calls okay) (hf : ∀ b, (f b).Calls okay) : Calls okay (c >>= f) := by
  change Calls okay (c.bind f)
  induction c with
  | ret b => exact hf b
  | stop => trivial
  | call q k ih => exact ⟨hc.1, fun r => ih r (hc.2 r)⟩

theorem Calls.mono {okay' : κ → Prop} (hc : c.Calls okay) (h : ∀ q, okay q → okay' q) :
    c.Calls okay' := by
  induction c with
  | ret b => trivial
  | stop => trivial
  | call q k ih => exact ⟨h q hc.1, fun r => ih r (hc.2 r)⟩

theorem Calls.of {q : κ} (h : okay q) : Calls okay (Code.of q : Code ρ (ρ q)) :=
  ⟨h, fun _ => trivial⟩

theorem Calls.lift (o : Option β) : Calls okay (Code.lift o : Code ρ β) := by
  cases o <;> trivial

theorem Calls.when {cond : Code ρ Bool} {body : Code ρ Unit} (hcond : cond.Calls okay)
    (hbody : body.Calls okay) : Calls okay (Code.when cond body) := by
  refine hcond.bind fun b => ?_
  cases b with
  | false => trivial
  | true => exact hbody

theorem Calls.forM {ι : Type} {l : List ι} {f : ι → Code ρ Unit} (h : ∀ i ∈ l, (f i).Calls okay) :
    (l.forM f).Calls okay := by
  induction l with
  | nil => trivial
  | cons i l ih =>
      change Calls okay (f i >>= fun _ => l.forM f)
      exact (h i List.mem_cons_self).bind fun _ => ih fun j hj => h j (List.mem_cons_of_mem i hj)

theorem Calls.loop {cond : Code ρ Bool} {body : Code ρ Unit} (hcond : cond.Calls okay)
    (hbody : body.Calls okay) (n : Nat) : Calls okay (Code.loop n cond body) := by
  induction n with
  | zero =>
      refine hcond.bind fun b => ?_
      cases b <;> trivial
  | succ n ih =>
      refine hcond.bind fun b => ?_
      cases b with
      | false => trivial
      | true => exact hbody.bind fun _ => ih

theorem Calls.guarded (hc : c.Calls okay) (h : ∀ s q, okay q → ok s q) (s : σ) :
    c.Guarded M ok s := by
  induction c generalizing s with
  | ret b => trivial
  | stop => trivial
  | call q k ih => exact ⟨h s q hc.1, fun r s' _ => ih r (hc.2 r) s'⟩

theorem Calls.guarded_of {ok' : σ → κ → Prop} (hc : c.Calls okay) (hg : c.Guarded M ok' s)
    (h : ∀ s q, okay q → ok' s q → ok s q) : c.Guarded M ok s := by
  induction c generalizing s with
  | ret b => trivial
  | stop => trivial
  | call q k ih =>
      exact ⟨h s q hc.1 hg.1, fun r s' hr => ih r (hc.2 r) (hg.2 r s' hr)⟩

end

/-- Where every call of the abstract machine `A` is answered the same by `M` in the states of `I`,
under the condition `ok`, so is all code. -/
theorem Ends.simulation {A : Machine τ ρ} {I : σ → Prop} {ok : σ → κ → Prop} (abs : σ → τ)
    (hcall : ∀ s q r t, I s → ok s q → A (abs s) q = some (r, t) →
      ∃ s', M s q = some (r, s') ∧ I s' ∧ abs s' = t) {c : Code ρ β} {Q : β → τ → Prop}
    (hI : I s) (hok : c.Guarded M ok s) (h : Ends A c (abs s) Q) :
    Ends M c s fun b s' => I s' ∧ Q b (abs s') := by
  obtain ⟨b, t, hrun, hQ⟩ := h
  induction c generalizing s with
  | ret b' =>
      cases hrun
      exact ⟨b, s, rfl, hI, hQ⟩
  | stop => exact absurd hrun (by simp [run])
  | call q k ih =>
      obtain ⟨⟨r, t₁⟩, hr, hrun⟩ := Option.bind_eq_some_iff.mp hrun
      obtain ⟨s₁, hs₁, hI₁, rfl⟩ := hcall s q r t₁ hI hok.1 hr
      obtain ⟨b', s', hrun', hQ'⟩ := ih r hI₁ (hok.2 r s₁ hs₁) hrun
      exact ⟨b', s', by rw [run, hs₁]; exact hrun', hQ'⟩

end Code
