import Mathlib.Tactic.Ring

/-!
# Arithmetic that traps

Machine operations that have no result where they would wrap around. A program written with them
that has a result has computed every intermediate value exactly.
-/

namespace Trap

def nat (w n : Nat) : Option Nat := if n < 2 ^ w then some n else none

def int (w : Nat) (d : Int) : Option Int := if -(2 ^ w) ≤ d ∧ d < 2 ^ w then some d else none

def sub (m n : Nat) : Option Nat := if n ≤ m then some (m - n) else none

variable {w m n : Nat} {d : Int} {α : Type}

theorem nat_of_lt (h : n < 2 ^ w) : nat w n = some n := if_pos h

theorem int_of_range (hlo : -(2 ^ w) ≤ d) (hhi : d < 2 ^ w) : int w d = some d :=
  if_pos ⟨hlo, hhi⟩

theorem sub_of_le (h : n ≤ m) : sub m n = some (m - n) := if_pos h

theorem nat_bind (h : n < 2 ^ w) (f : Nat → Option α) : (nat w n).bind f = f n := by
  rw [nat_of_lt h, Option.bind_some]

theorem int_bind (hlo : -(2 ^ w) ≤ d) (hhi : d < 2 ^ w) (f : Int → Option α) :
    (int w d).bind f = f d := by
  rw [int_of_range hlo hhi, Option.bind_some]

theorem sub_bind (h : n ≤ m) (f : Nat → Option α) : (sub m n).bind f = f (m - n) := by
  rw [sub_of_le h, Option.bind_some]

end Trap
