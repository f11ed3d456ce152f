import Mathlib.Tactic.Ring
import Mathlib.Tactic.Linarith

/-!
# The quotient digit of long division

One step of long division guesses a digit from the three leading digits of the partial remainder
and the two leading digits of the divisor. The guess is corrected once and never capped, so it may
leave the digit range for a moment; what matters is that the corrected guess is the true digit or
one more.
-/

namespace QuotientDigit

/-- A normalised divisor `v1 v2 vl` and a partial remainder `u0 u1 u2 ul`, most significant digit
first; `P` is the weight of the digits that the guess does not look at. -/
structure Step (b P u0 u1 u2 ul v1 v2 vl : Nat) : Prop where
  weight : 0 < P
  normal : b ≤ 2 * v1
  v1_lt : v1 < b
  v2_lt : v2 < b
  vl_lt : vl < P
  u1_lt : u1 < b
  u2_lt : u2 < b
  ul_lt : ul < P
  small : u0 * b ^ 2 * P + u1 * b * P + u2 * P + ul < (v1 * b * P + v2 * P + vl) * b

def divisor (b P v1 v2 vl : Nat) : Nat := v1 * b * P + v2 * P + vl

def window (b P u0 u1 u2 ul : Nat) : Nat := u0 * b ^ 2 * P + u1 * b * P + u2 * P + ul

def guess (b u0 u1 v1 : Nat) : Nat := (u0 * b + u1) / v1

def rest (b u0 u1 v1 : Nat) : Nat := (u0 * b + u1) % v1

def corrected (b u0 u1 u2 v1 v2 : Nat) : Nat :=
  if guess b u0 u1 v1 = b ∨ guess b u0 u1 v1 * v2 > b * rest b u0 u1 v1 + u2 then
    guess b u0 u1 v1 - 1
  else guess b u0 u1 v1

section

variable {b P u0 u1 u2 ul v1 v2 vl : Nat}

theorem guess_mul_add_rest (b u0 u1 v1 : Nat) :
    guess b u0 u1 v1 * v1 + rest b u0 u1 v1 = u0 * b + u1 := by
  rw [guess, rest, Nat.mul_comm]
  exact Nat.div_add_mod _ _

namespace Step

theorem v1_pos (h : Step b P u0 u1 u2 ul v1 v2 vl) : 0 < v1 := by
  have h1 := h.normal
  have h2 := h.v1_lt
  omega

theorem rest_lt (h : Step b P u0 u1 u2 ul v1 v2 vl) : rest b u0 u1 v1 < v1 :=
  Nat.mod_lt _ h.v1_pos

theorem divisor_pos (h : Step b P u0 u1 u2 ul v1 v2 vl) : 0 < divisor b P v1 v2 vl := by
  have hb : 0 < b := Nat.lt_of_le_of_lt (Nat.zero_le _) h.v1_lt
  have := Nat.mul_pos (Nat.mul_pos h.v1_pos hb) h.weight
  unfold divisor
  omega

theorem le_divisor (_ : Step b P u0 u1 u2 ul v1 v2 vl) : v1 * b * P ≤ divisor b P v1 v2 vl := by
  unfold divisor
  omega

theorem divisor_lt (h : Step b P u0 u1 u2 ul v1 v2 vl) :
    divisor b P v1 v2 vl < (v1 + 1) * b * P := by
  have hv := Nat.mul_le_mul_right P (Nat.succ_le_of_lt h.v2_lt)
  have hl := h.vl_lt
  have hr : (v1 + 1) * b * P = v1 * b * P + b * P := by ring
  have hs : (v2 + 1) * P = v2 * P + P := by ring
  unfold divisor
  simp only [Nat.succ_eq_add_one] at hv
  omega

theorem le_window (_ : Step b P u0 u1 u2 ul v1 v2 vl) :
    (u0 * b + u1) * b * P ≤ window b P u0 u1 u2 ul := by
  have hr : (u0 * b + u1) * b * P = u0 * b ^ 2 * P + u1 * b * P := by ring
  unfold window
  omega

theorem window_lt (h : Step b P u0 u1 u2 ul v1 v2 vl) :
    window b P u0 u1 u2 ul < (u0 * b + u1 + 1) * b * P := by
  have hu := Nat.mul_le_mul_right P (Nat.succ_le_of_lt h.u2_lt)
  have hl := h.ul_lt
  have hr : (u0 * b + u1 + 1) * b * P = u0 * b ^ 2 * P + u1 * b * P + b * P := by ring
  have hs : (u2 + 1) * P = u2 * P + P := by ring
  unfold window
  simp only [Nat.succ_eq_add_one] at hu
  omega

theorem quotient_lt (h : Step b P u0 u1 u2 ul v1 v2 vl) :
    window b P u0 u1 u2 ul / divisor b P v1 v2 vl < b :=
  Nat.div_lt_of_lt_mul h.small

theorem u0_le (h : Step b P u0 u1 u2 ul v1 v2 vl) : u0 ≤ v1 := by
  by_contra hlt
  have hb : 0 < b := Nat.lt_of_le_of_lt (Nat.zero_le _) h.v1_lt
  have hw : (v1 + 1) * b * b * P ≤ window b P u0 u1 u2 ul := by
    calc (v1 + 1) * b * b * P ≤ (u0 * b + u1) * b * P := by
          apply Nat.mul_le_mul_right
          apply Nat.mul_le_mul_right
          calc (v1 + 1) * b ≤ u0 * b := Nat.mul_le_mul_right b (by omega)
            _ ≤ u0 * b + u1 := Nat.le_add_right _ _
      _ ≤ _ := h.le_window
  have hs : window b P u0 u1 u2 ul < divisor b P v1 v2 vl * b := h.small
  have hd : divisor b P v1 v2 vl * b < (v1 + 1) * b * P * b :=
    Nat.mul_lt_mul_of_pos_right h.divisor_lt hb
  have hr : (v1 + 1) * b * P * b = (v1 + 1) * b * b * P := by ring
  omega

theorem guess_le (h : Step b P u0 u1 u2 ul v1 v2 vl) : guess b u0 u1 v1 ≤ b + 1 := by
  apply Nat.le_of_lt_succ
  apply Nat.div_lt_of_lt_mul
  have h0 := Nat.mul_le_mul_right b h.u0_le
  have h1 := h.u1_lt
  have hn := h.normal
  have hr : v1 * (b + 1).succ = v1 * b + 2 * v1 := by rw [Nat.succ_eq_add_one]; ring
  omega

/-- The guess never undershoots. -/
theorem quotient_le_guess (h : Step b P u0 u1 u2 ul v1 v2 vl) :
    window b P u0 u1 u2 ul / divisor b P v1 v2 vl ≤ guess b u0 u1 v1 := by
  have hb : 0 < b := Nat.lt_of_le_of_lt (Nat.zero_le _) h.v1_lt
  rw [guess, Nat.le_div_iff_mul_le h.v1_pos]
  apply Nat.le_of_lt_succ
  have hq := Nat.div_mul_le_self (window b P u0 u1 u2 ul) (divisor b P v1 v2 vl)
  have hmul : window b P u0 u1 u2 ul / divisor b P v1 v2 vl * v1 * (b * P) <
      (u0 * b + u1 + 1) * (b * P) := by
    calc _ = window b P u0 u1 u2 ul / divisor b P v1 v2 vl * (v1 * b * P) := by ring
      _ ≤ window b P u0 u1 u2 ul / divisor b P v1 v2 vl * divisor b P v1 v2 vl :=
          Nat.mul_le_mul_left _ h.le_divisor
      _ ≤ window b P u0 u1 u2 ul := hq
      _ < (u0 * b + u1 + 1) * b * P := h.window_lt
      _ = _ := by ring
  exact Nat.lt_of_mul_lt_mul_right hmul

/-- A failed test proves that the guess is too large. -/
theorem quotient_lt_guess (h : Step b P u0 u1 u2 ul v1 v2 vl)
    (htest : guess b u0 u1 v1 * v2 > b * rest b u0 u1 v1 + u2) :
    window b P u0 u1 u2 ul / divisor b P v1 v2 vl < guess b u0 u1 v1 := by
  rw [Nat.div_lt_iff_lt_mul h.divisor_pos]
  have hx := guess_mul_add_rest b u0 u1 v1
  set g := guess b u0 u1 v1
  set r := rest b u0 u1 v1
  have hl := h.ul_lt
  have ht : (b * r + u2 + 1) * P ≤ g * v2 * P := Nat.mul_le_mul_right P htest
  calc window b P u0 u1 u2 ul = (u0 * b + u1) * (b * P) + u2 * P + ul := by unfold window; ring
    _ = (g * v1 + r) * (b * P) + u2 * P + ul := by rw [hx]
    _ < (g * v1 + r) * (b * P) + u2 * P + P := by omega
    _ = g * v1 * (b * P) + (b * r + u2 + 1) * P := by ring
    _ ≤ g * v1 * (b * P) + g * v2 * P + g * vl := by omega
    _ = g * divisor b P v1 v2 vl := by unfold divisor; ring

theorem guess_le_succ_quotient (h : Step b P u0 u1 u2 ul v1 v2 vl)
    (htest : ¬ guess b u0 u1 v1 * v2 > b * rest b u0 u1 v1 + u2) (hb : 4 ≤ b) :
    guess b u0 u1 v1 ≤ window b P u0 u1 u2 ul / divisor b P v1 v2 vl + 1 := by
  have hx := guess_mul_add_rest b u0 u1 v1
  have hg := h.guess_le
  have hd := h.le_divisor
  have hn := h.normal
  have hl := h.vl_lt
  set g := guess b u0 u1 v1
  set r := rest b u0 u1 v1
  have ht : g * v2 * P ≤ (b * r + u2) * P := Nat.mul_le_mul_right P (by omega)
  have hgl : g * vl ≤ g * (P - 1) := Nat.mul_le_mul_left g (by omega)
  have hgP : g * P ≤ divisor b P v1 v2 vl := by
    calc g * P ≤ (v1 * b) * P := by
          apply Nat.mul_le_mul_right
          calc g ≤ b + 1 := hg
            _ ≤ 2 * b := by omega
            _ ≤ v1 * b := Nat.mul_le_mul_right b (by omega)
      _ ≤ _ := hd
  have hsum : g * divisor b P v1 v2 vl < window b P u0 u1 u2 ul + divisor b P v1 v2 vl := by
    have hgPpos : g * vl < g * P ∨ g = 0 := by
      rcases Nat.eq_zero_or_pos g with h0 | hpos
      · exact Or.inr h0
      · exact Or.inl (Nat.mul_lt_mul_of_pos_left hl hpos)
    have hw : g * v1 * (b * P) + (b * r + u2) * P ≤ window b P u0 u1 u2 ul := by
      calc _ = (g * v1 + r) * (b * P) + u2 * P := by ring
        _ = (u0 * b + u1) * (b * P) + u2 * P := by rw [hx]
        _ ≤ _ := by
          unfold window
          have : (u0 * b + u1) * (b * P) = u0 * b ^ 2 * P + u1 * b * P := by ring
          omega
    have hexp : g * divisor b P v1 v2 vl = g * v1 * (b * P) + g * v2 * P + g * vl := by
      unfold divisor; ring
    rcases hgPpos with hlt | h0
    · omega
    · have := h.divisor_pos
      rw [h0, Nat.zero_mul]
      omega
  have hlt : g * divisor b P v1 v2 vl <
      (window b P u0 u1 u2 ul / divisor b P v1 v2 vl + 2) * divisor b P v1 v2 vl := by
    have hdm := Nat.lt_div_mul_add h.divisor_pos (a := window b P u0 u1 u2 ul)
    have hr : (window b P u0 u1 u2 ul / divisor b P v1 v2 vl + 2) * divisor b P v1 v2 vl =
        window b P u0 u1 u2 ul / divisor b P v1 v2 vl * divisor b P v1 v2 vl +
          2 * divisor b P v1 v2 vl := by ring
    omega
  have := Nat.lt_of_mul_lt_mul_right hlt
  omega

theorem guess_le_quotient_add_two (h : Step b P u0 u1 u2 ul v1 v2 vl) :
    guess b u0 u1 v1 ≤ window b P u0 u1 u2 ul / divisor b P v1 v2 vl + 2 := by
  have hx := guess_mul_add_rest b u0 u1 v1
  have hg := h.guess_le
  have hn := h.normal
  have hpos := h.divisor_pos
  have hdm := Nat.lt_div_mul_add hpos (a := window b P u0 u1 u2 ul)
  rcases Nat.lt_or_ge b (guess b u0 u1 v1) with hbig | hsmall
  · -- the guess is `b + 1`: then the true digit is `b - 1`
    have hge : guess b u0 u1 v1 = b + 1 := by omega
    rw [hge] at hx
    have hq : b - 1 ≤ window b P u0 u1 u2 ul / divisor b P v1 v2 vl := by
      rw [Nat.le_div_iff_mul_le hpos]
      calc (b - 1) * divisor b P v1 v2 vl ≤ (b - 1) * ((v1 + 1) * b * P) :=
            Nat.mul_le_mul_left _ h.divisor_lt.le
        _ = ((b - 1) * (v1 + 1)) * (b * P) := by ring
        _ ≤ (u0 * b + u1) * (b * P) := by
          apply Nat.mul_le_mul_right
          obtain ⟨c, rfl⟩ : ∃ c, b = c + 1 := ⟨b - 1, by have := h.v1_lt; omega⟩
          have h1 : (c + 1 - 1) * (v1 + 1) = c * v1 + c := by rw [Nat.add_sub_cancel]; ring
          have h2 : (c + 1 + 1) * v1 = c * v1 + 2 * v1 := by ring
          omega
        _ = (u0 * b + u1) * b * P := by ring
        _ ≤ _ := h.le_window
    omega
  · have hmul : guess b u0 u1 v1 * divisor b P v1 v2 vl <
        (window b P u0 u1 u2 ul / divisor b P v1 v2 vl + 3) * divisor b P v1 v2 vl := by
      have hup : guess b u0 u1 v1 * divisor b P v1 v2 vl ≤
          guess b u0 u1 v1 * ((v1 + 1) * b * P) := Nat.mul_le_mul_left _ h.divisor_lt.le
      have hexp : guess b u0 u1 v1 * ((v1 + 1) * b * P) =
          guess b u0 u1 v1 * v1 * (b * P) + guess b u0 u1 v1 * (b * P) := by ring
      have hfirst : guess b u0 u1 v1 * v1 * (b * P) ≤ window b P u0 u1 u2 ul := by
        calc _ ≤ (u0 * b + u1) * (b * P) := Nat.mul_le_mul_right _ (by omega)
          _ = (u0 * b + u1) * b * P := by ring
          _ ≤ _ := h.le_window
      have hsecond : guess b u0 u1 v1 * (b * P) ≤ 2 * divisor b P v1 v2 vl := by
        calc _ ≤ 2 * v1 * (b * P) := Nat.mul_le_mul_right _ (by omega)
          _ = 2 * (v1 * b * P) := by ring
          _ ≤ _ := Nat.mul_le_mul_left 2 h.le_divisor
      have hr : (window b P u0 u1 u2 ul / divisor b P v1 v2 vl + 3) * divisor b P v1 v2 vl =
          window b P u0 u1 u2 ul / divisor b P v1 v2 vl * divisor b P v1 v2 vl +
            3 * divisor b P v1 v2 vl := by ring
      omega
    have := Nat.lt_of_mul_lt_mul_right hmul
    omega

/-- The corrected guess is the true digit or one more. -/
theorem corrected_bounds (h : Step b P u0 u1 u2 ul v1 v2 vl) (hb : 4 ≤ b) :
    window b P u0 u1 u2 ul / divisor b P v1 v2 vl ≤ corrected b u0 u1 u2 v1 v2 ∧
      corrected b u0 u1 u2 v1 v2 ≤ window b P u0 u1 u2 ul / divisor b P v1 v2 vl + 1 := by
  have hq := h.quotient_lt
  have hle := h.quotient_le_guess
  have htwo := h.guess_le_quotient_add_two
  have htest := h.quotient_lt_guess
  have hkeep := fun ht => h.guess_le_succ_quotient ht hb
  generalize window b P u0 u1 u2 ul / divisor b P v1 v2 vl = q at *
  unfold corrected
  split
  next hdec =>
    have hlt : q < guess b u0 u1 v1 := by
      rcases hdec with heq | hgt
      · omega
      · exact htest hgt
    omega
  next hpass =>
    have := hkeep (fun ht => hpass (Or.inr ht))
    omega

end Step

end

end QuotientDigit
