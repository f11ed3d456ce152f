import Mathlib.Data.Finset.Card
import Mathlib.Logic.Equiv.Basic
import Mathlib.Logic.Function.Basic
import Mathlib.Tactic.Common

/-!
# Exclusive ownership

Owning pointers: each is null or holds an object, no two hold the same one, and the objects that
are held are the ones that are alive. What can be read through the pointers then changes at one
owner at a time.
-/

namespace Ownership

variable {ι κ β : Type*} [DecidableEq ι] [DecidableEq κ]

/-- Every object that is alive has exactly one owner, and no pointer dangles. -/
structure Exclusive (own : ι → Option κ) (alive : κ → Prop) : Prop where
  unique : ∀ {u v k}, own u = some k → own v = some k → u = v
  alive_iff : ∀ k, alive k ↔ ∃ v, own v = some k

def deref (own : ι → Option κ) (val : κ → Option β) (v : ι) : Option β := (own v).bind val

variable {own : ι → Option κ} {alive alive' : κ → Prop} {val : κ → Option β} {u v : ι} {k : κ}
  {x : Option β}

omit [DecidableEq ι] [DecidableEq κ] in
theorem Exclusive.congr (h : Exclusive own alive) (hiff : ∀ k, alive' k ↔ alive k) :
    Exclusive own alive' :=
  ⟨h.unique, fun k => (hiff k).trans (h.alive_iff k)⟩

omit [DecidableEq ι] [DecidableEq κ] in
theorem Exclusive.alive_of_owner (h : Exclusive own alive) (hv : own v = some k) : alive k :=
  (h.alive_iff k).mpr ⟨v, hv⟩

omit [DecidableEq κ] in
theorem Exclusive.acquire (h : Exclusive own alive) (hv : own v = none) (hk : ¬ alive k) :
    Exclusive (Function.update own v (some k)) fun l => alive l ∨ l = k := by
  have hnew : ∀ w, own w ≠ some k := fun w hw => hk (h.alive_of_owner hw)
  constructor
  · intro u w l hu hw
    rw [Function.update_apply] at hu hw
    split at hu <;> split at hw
    · next hu' hw' => rw [hu', hw']
    · exact absurd (hw.trans hu.symm) (hnew w)
    · exact absurd (hu.trans hw.symm) (hnew u)
    · exact h.unique hu hw
  · intro l
    constructor
    · rintro (hl | rfl)
      · obtain ⟨w, hw⟩ := (h.alive_iff l).mp hl
        refine ⟨w, ?_⟩
        rwa [Function.update_of_ne fun he => by simp [he, hv] at hw]
      · exact ⟨v, Function.update_self ..⟩
    · rintro ⟨w, hw⟩
      rw [Function.update_apply] at hw
      split at hw
      · exact Or.inr (Option.some.inj hw).symm
      · exact Or.inl (h.alive_of_owner hw)

omit [DecidableEq κ] in
theorem Exclusive.release (h : Exclusive own alive) (hv : own v = some k) :
    Exclusive (Function.update own v none) fun l => alive l ∧ l ≠ k := by
  have hold : ∀ {w l}, Function.update own v none w = some l → w ≠ v ∧ own w = some l := by
    intro w l hw
    rw [Function.update_apply] at hw
    split at hw
    · exact absurd hw (by simp)
    · next hne => exact ⟨hne, hw⟩
  constructor
  · exact fun hu hw => h.unique (hold hu).2 (hold hw).2
  · intro l
    constructor
    · rintro ⟨hl, hlk⟩
      obtain ⟨w, hw⟩ := (h.alive_iff l).mp hl
      refine ⟨w, ?_⟩
      rwa [Function.update_of_ne]
      rintro rfl
      exact hlk (Option.some.inj (hw.symm.trans hv))
    · rintro ⟨w, hw⟩
      obtain ⟨hne, hw⟩ := hold hw
      refine ⟨h.alive_of_owner hw, ?_⟩
      rintro rfl
      exact hne (h.unique hw hv)

omit [DecidableEq κ] in
theorem Exclusive.transfer (h : Exclusive own alive) (hu : own u = none) (huv : u ≠ v) :
    Exclusive (Function.update (Function.update own u (own v)) v none) alive := by
  -- the pointers before, with the two names exchanged
  have hswap : ∀ w, Function.update (Function.update own u (own v)) v none w =
      own (Equiv.swap u v w) := by
    intro w
    by_cases hwv : w = v
    · rw [hwv, Function.update_self, Equiv.swap_apply_right, hu]
    by_cases hwu : w = u
    · rw [hwu, Function.update_of_ne huv, Function.update_self, Equiv.swap_apply_left]
    · rw [Function.update_of_ne hwv, Function.update_of_ne hwu, Equiv.swap_apply_of_ne_of_ne hwu hwv]
  constructor
  · intro w w' l hw hw'
    rw [hswap] at hw hw'
    exact (Equiv.swap u v).injective (h.unique hw hw')
  · intro l
    rw [h.alive_iff]
    constructor
    · rintro ⟨w, hw⟩
      exact ⟨Equiv.swap u v w, by rw [hswap, Equiv.swap_apply_self, hw]⟩
    · rintro ⟨w, hw⟩
      exact ⟨_, hswap w ▸ hw⟩

omit [DecidableEq ι] [DecidableEq κ] in
theorem Exclusive.card_eq (h : Exclusive own alive) {owners : Finset ι} {living : Finset κ}
    (howners : ∀ v, v ∈ owners ↔ (own v).isSome) (hliving : ∀ k, k ∈ living ↔ alive k) :
    living.card = owners.card := by
  refine (Finset.card_bij (fun v hv => (own v).get ((howners v).mp hv)) (fun v hv => ?_)
    (fun u hu v hv heq => ?_) fun k hk => ?_).symm
  · exact (hliving _).mpr (h.alive_of_owner (Option.some_get _).symm)
  · have hu' : own u = some ((own v).get ((howners v).mp hv)) := by rw [← heq, Option.some_get]
    exact h.unique hu' (Option.some_get _).symm
  · obtain ⟨v, hv⟩ := (h.alive_iff k).mp ((hliving k).mp hk)
    exact ⟨v, (howners v).mpr (by rw [hv]; rfl), Option.get_of_eq_some _ hv⟩

/-- A write through a pointer shows at its owner only. -/
theorem Exclusive.deref_write (h : Exclusive own alive) (hv : own v = some k) :
    deref own (Function.update val k x) = Function.update (deref own val) v x := by
  funext w
  by_cases hwv : w = v
  · rw [hwv, Function.update_self, deref, hv, Option.bind_some, Function.update_self]
  · rw [Function.update_of_ne hwv, deref, deref]
    cases hw : own w with
    | none => rfl
    | some l =>
        rw [Option.bind_some, Option.bind_some, Function.update_of_ne]
        rintro rfl
        exact hwv (h.unique hw hv)

theorem deref_acquire (hk : ∀ w, own w ≠ some k) :
    deref (Function.update own v (some k)) (Function.update val k x) =
      Function.update (deref own val) v x := by
  funext w
  by_cases hwv : w = v
  · rw [hwv, Function.update_self, deref, Function.update_self, Option.bind_some,
      Function.update_self]
  · rw [Function.update_of_ne hwv, deref, deref, Function.update_of_ne hwv]
    cases hw : own w with
    | none => rfl
    | some l =>
        rw [Option.bind_some, Option.bind_some, Function.update_of_ne]
        rintro rfl
        exact hk w hw

omit [DecidableEq κ] in
theorem deref_reset {o : Option κ} :
    deref (Function.update own v o) val = Function.update (deref own val) v (o.bind val) := by
  funext w
  by_cases hwv : w = v
  · rw [hwv, Function.update_self, deref, Function.update_self]
  · rw [Function.update_of_ne hwv, deref, deref, Function.update_of_ne hwv]

end Ownership
