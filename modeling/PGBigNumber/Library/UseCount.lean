import Mathlib.Data.List.Count
import Mathlib.Data.List.Range
import Mathlib.Tactic.Common

/-!
# Use counts

The use count of a shared pointer is the number of live owners that hold it. A count of one is
what copy-on-write asks before it writes in place: no other owner sees the write.
-/

namespace UseCount

variable {α : Type*} [DecidableEq α]

def count (own : Nat → α) (n : Nat) (p : α) : Nat := (List.range n).countP fun i => own i = p

/-- Owner `i` shares its pointer with none of the first `n` owners. -/
def Sole (own : Nat → α) (n i : Nat) : Prop := ∀ j < n, j ≠ i → own j ≠ own i

theorem count_succ (own : Nat → α) (n : Nat) (p : α) :
    count own (n + 1) p = count own n p + if own n = p then 1 else 0 := by
  simp [count, List.range_succ, List.countP_append, List.countP_cons]

theorem count_eq_zero_iff (own : Nat → α) (n : Nat) (p : α) :
    count own n p = 0 ↔ ∀ j < n, own j ≠ p := by
  simp [count, List.countP_eq_zero]

/-- A use count of one is exclusive ownership. -/
theorem count_eq_one_iff (own : Nat → α) {n i : Nat} (hi : i < n) :
    count own n (own i) = 1 ↔ Sole own n i := by
  induction n with
  | zero => omega
  | succ n ih =>
      rw [count_succ]
      by_cases heq : i = n
      · subst heq
        rw [if_pos rfl]
        constructor
        · intro h j hj hne
          exact (count_eq_zero_iff own i (own i)).mp (by omega) j (by omega)
        · intro h
          have := (count_eq_zero_iff own i (own i)).mpr fun j hj => h j (by omega) (by omega)
          omega
      · have hin : i < n := by omega
        have hpos : 0 < count own n (own i) := by
          rw [Nat.pos_iff_ne_zero, Ne, count_eq_zero_iff]
          exact fun h => h i hin rfl
        by_cases hn : own n = own i
        · rw [if_pos hn]
          constructor
          · intro h
            omega
          · intro h
            exact absurd hn (h n (by omega) (by omega))
        · rw [if_neg hn, Nat.add_zero, ih hin]
          constructor
          · intro h j hj hne
            by_cases hjn : j = n
            · rw [hjn]
              exact hn
            · exact h j (by omega) hne
          · exact fun h j hj hne => h j (by omega) hne

end UseCount
