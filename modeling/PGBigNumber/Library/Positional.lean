import Mathlib.Data.Nat.Digits.Lemmas
import Mathlib.Data.List.DropRight
import Mathlib.Tactic.Ring
import Mathlib.Tactic.Linarith

/-!
# Positional numerals

A little-endian numeral is a list of digit symbols together with the numeric weight of each
symbol. Machine words, bytes and printed digits are all read this way; the lemmas below are the
ones shared by every such reading.
-/

namespace Positional

variable {α : Type*} (dig : α → Nat) (b : Nat)

def value (l : List α) : Nat := Nat.ofDigits b (l.map dig)

@[simp]
theorem value_nil : value dig b [] = 0 := rfl

@[simp]
theorem value_cons (x : α) (l : List α) :
    value dig b (x :: l) = dig x + b * value dig b l := by
  simp [value, Nat.ofDigits_cons]

theorem value_append (l m : List α) :
    value dig b (l ++ m) = value dig b l + b ^ l.length * value dig b m := by
  simp [value, Nat.ofDigits_append]

theorem value_concat (l : List α) (x : α) :
    value dig b (l ++ [x]) = value dig b l + b ^ l.length * dig x := by
  simp [value_append]

theorem value_take_drop (n : Nat) (l : List α) (hn : n ≤ l.length) :
    value dig b l = value dig b (l.take n) + b ^ n * value dig b (l.drop n) := by
  conv_lhs => rw [← List.take_append_drop n l, value_append, List.length_take, min_eq_left hn]

theorem value_replicate (n : Nat) (z : α) (hz : dig z = 0) :
    value dig b (List.replicate n z) = 0 := by
  induction n with
  | zero => rfl
  | succ n ih => rw [List.replicate_succ, value_cons, ih, hz, Nat.mul_zero]

theorem value_append_zeros (l : List α) (n : Nat) (z : α) (hz : dig z = 0) :
    value dig b (l ++ List.replicate n z) = value dig b l := by
  rw [value_append, value_replicate dig b n z hz, Nat.mul_zero, Nat.add_zero]

theorem value_zeros_append (l : List α) (n : Nat) (z : α) (hz : dig z = 0) :
    value dig b (List.replicate n z ++ l) = b ^ n * value dig b l := by
  rw [value_append, value_replicate dig b n z hz, List.length_replicate, Nat.zero_add]

variable {dig b}

theorem value_lt (hdig : ∀ x, dig x < b) (l : List α) : value dig b l < b ^ l.length := by
  induction l with
  | nil => simp
  | cons x l ih =>
      have hx := hdig x
      rw [value_cons, List.length_cons, pow_succ]
      calc dig x + b * value dig b l < b + b * value dig b l := by omega
        _ = b * (value dig b l + 1) := by ring
        _ ≤ b * b ^ l.length := Nat.mul_le_mul_left b ih
        _ = b ^ l.length * b := Nat.mul_comm _ _

theorem pow_le_value (l : List α) (hl : l ≠ []) (htop : dig (l.getLast hl) ≠ 0) :
    b ^ (l.length - 1) ≤ value dig b l := by
  have hsplit := List.dropLast_append_getLast hl
  rw [← hsplit, value_concat]
  simp only [List.length_append, List.length_dropLast, List.length_singleton,
    Nat.add_sub_cancel]
  calc b ^ (l.length - 1) ≤ b ^ (l.length - 1) * dig (l.getLast hl) :=
        Nat.le_mul_of_pos_right _ (Nat.pos_of_ne_zero htop)
    _ ≤ _ := Nat.le_add_left _ _

/-- The positional order: among numerals without a leading zero the longer one is larger. -/
theorem value_lt_of_length_lt (hdig : ∀ x, dig x < b) (l m : List α) (hm : m ≠ [])
    (htop : dig (m.getLast hm) ≠ 0) (hlen : l.length < m.length) :
    value dig b l < value dig b m := by
  have hb : 0 < b := Nat.lt_of_le_of_lt (Nat.zero_le _) (hdig (m.getLast hm))
  calc value dig b l < b ^ l.length := value_lt hdig l
    _ ≤ b ^ (m.length - 1) := Nat.pow_le_pow_right hb (by omega)
    _ ≤ value dig b m := pow_le_value m hm htop

theorem value_inj_of_length (hdig : ∀ x, dig x < b) (hinj : Function.Injective dig)
    (l m : List α) (hlen : l.length = m.length) (h : value dig b l = value dig b m) : l = m := by
  induction l generalizing m with
  | nil => exact (List.length_eq_zero_iff.mp hlen.symm).symm
  | cons x l ih =>
      cases m with
      | nil => simp at hlen
      | cons y m =>
          rw [value_cons, value_cons] at h
          have hmod := congrArg (· % b) h
          simp only [Nat.add_mul_mod_self_left, Nat.mod_eq_of_lt (hdig _)] at hmod
          have hb : 0 < b := Nat.lt_of_le_of_lt (Nat.zero_le _) (hdig x)
          have htail : value dig b l = value dig b m := by
            rw [hmod] at h
            exact Nat.eq_of_mul_eq_mul_left hb (Nat.add_left_cancel h)
          rw [hinj hmod, ih m (by simpa using hlen) htail]

/-- Canonical numerals (top symbol non-zero) are equal when their values are. -/
theorem value_inj (hdig : ∀ x, dig x < b) (hinj : Function.Injective dig) (l m : List α)
    (hl : ∀ h : l ≠ [], dig (l.getLast h) ≠ 0) (hm : ∀ h : m ≠ [], dig (m.getLast h) ≠ 0)
    (h : value dig b l = value dig b m) : l = m := by
  apply value_inj_of_length hdig hinj l m _ h
  rcases Nat.lt_trichotomy l.length m.length with hlt | heq | hgt
  · have hne : m ≠ [] := by intro he; simp [he] at hlt
    have := value_lt_of_length_lt hdig l m hne (hm hne) hlt
    omega
  · exact heq
  · have hne : l ≠ [] := by intro he; simp [he] at hgt
    have := value_lt_of_length_lt hdig m l hne (hl hne) hgt
    omega

theorem value_eq_zero_iff (hb : 0 < b) (l : List α) :
    value dig b l = 0 ↔ ∀ x ∈ l, dig x = 0 := by
  induction l with
  | nil => simp
  | cons x l ih =>
      rw [value_cons, List.forall_mem_cons, ← ih, Nat.add_eq_zero_iff, Nat.mul_eq_zero]
      constructor
      · rintro ⟨hx, h | h⟩
        · omega
        · exact ⟨hx, h⟩
      · rintro ⟨hx, h⟩
        exact ⟨hx, Or.inr h⟩

theorem value_rdropWhile (p : α → Bool) (hp : ∀ x, p x = true → dig x = 0) (l : List α) :
    value dig b (l.rdropWhile p) = value dig b l := by
  induction l using List.reverseRecOn with
  | nil => rfl
  | append_singleton l x ih =>
      rw [List.rdropWhile_concat]
      by_cases hx : p x = true
      · rw [if_pos hx, ih, value_concat, hp x hx, Nat.mul_zero, Nat.add_zero]
      · rw [if_neg hx]

end Positional
