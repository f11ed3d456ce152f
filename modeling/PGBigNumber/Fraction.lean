import Mathlib.Algebra.Field.Rat
import Mathlib.Algebra.Order.Ring.Int
import Mathlib.Data.Int.Basic
import Mathlib.Data.Int.Cast.Lemmas
import Mathlib.Tactic.FieldSimp
import Mathlib.Tactic.Ring
import PGBigNumber.Algorithm
import PGBigNumber.Library.Runs

/-!
# Fractions

`experimental::Fraction` over exact integers. A `DIVBY0` status ends the process, so an operation
that raises one has no result.
-/

namespace PGBigNumber

/-- `experimental::Fraction`, with the defaults of its default constructor. -/
structure Fraction where
  num : Int := 0
  den : Int := 1
deriving DecidableEq, Repr

namespace Fraction

/-- `fix`. Dividing by a greatest common divisor 0 raises `DIVBY0`. -/
def fix (f : Fraction) : Option Fraction :=
  let g := Algo.gcd |f.num| |f.den|
  if g = 0 then none else some ⟨f.num.tdiv g, f.den.tdiv g⟩

def make (num : Int) (den : Int) : Option Fraction := if den = 0 then none else fix ⟨num, den⟩

def setNum (f : Fraction) (num : Int) : Option Fraction := fix { f with num }

def setDen (f : Fraction) (den : Int) : Option Fraction :=
  if den = 0 then none else fix { f with den }

/-- `reciprocal`. The denominator is tested, not the numerator. -/
def reciprocal (f : Fraction) : Option Fraction :=
  if f.den = 0 then none else some ⟨f.den, f.num⟩

def add (left right : Fraction) : Option Fraction :=
  fix ⟨left.num * right.den + right.num * left.den, left.den * right.den⟩

def sub (left right : Fraction) : Option Fraction :=
  fix ⟨left.num * right.den - right.num * left.den, left.den * right.den⟩

def mul (left right : Fraction) : Option Fraction :=
  fix ⟨left.num * right.num, left.den * right.den⟩

def div (left right : Fraction) : Option Fraction :=
  if right.num = 0 then none else fix ⟨left.num * right.den, left.den * right.num⟩

/-- The denominator is not zero and has no factor in common with the numerator. -/
structure LowestTerms (f : Fraction) : Prop where
  den_ne_zero : f.den ≠ 0
  coprime : Int.gcd f.num f.den = 1

instance (f : Fraction) : Decidable f.LowestTerms :=
  decidable_of_iff (f.den ≠ 0 ∧ Int.gcd f.num f.den = 1) ⟨fun h => ⟨h.1, h.2⟩, fun h => ⟨h.1, h.2⟩⟩

theorem lowestTerms_default : LowestTerms {} := by decide

/-- `fix` divides both parts by their greatest common divisor. -/
theorem fix_eq {f : Fraction} (h : f.den ≠ 0) :
    fix f = some ⟨f.num / Int.gcd f.num f.den, f.den / Int.gcd f.num f.den⟩ := by
  have hg : Algo.gcd |f.num| |f.den| = Int.gcd f.num f.den := by
    rw [Algo.gcd_eq (abs_nonneg _) (abs_nonneg _)]
    simp only [Int.gcd, Int.natAbs_abs]
  have hpos : 0 < Int.gcd f.num f.den := Int.gcd_pos_of_ne_zero_right _ h
  unfold fix
  rw [hg, if_neg (by omega), Int.tdiv_eq_ediv_of_dvd (Int.gcd_dvd_left _ _),
    Int.tdiv_eq_ediv_of_dvd (Int.gcd_dvd_right _ _)]

theorem fix_lowestTerms {f f' : Fraction} (h : f.den ≠ 0) (hf : fix f = some f') :
    f'.LowestTerms := by
  have hpos : 0 < Int.gcd f.num f.den := Int.gcd_pos_of_ne_zero_right _ h
  rw [fix_eq h] at hf
  obtain rfl := Option.some.inj hf
  refine ⟨fun hzero => h ?_, Int.gcd_ediv_gcd_ediv_gcd hpos⟩
  exact Int.eq_zero_of_ediv_eq_zero (Int.gcd_dvd_right _ _) hzero

theorem make_lowestTerms {num den : Int} {f : Fraction} (h : make num den = some f) :
    f.LowestTerms := by
  unfold make at h
  split at h
  · cases h
  · next hden => exact fix_lowestTerms hden h

theorem setDen_lowestTerms {f f' : Fraction} {den : Int} (h : f.setDen den = some f') :
    f'.LowestTerms := by
  unfold setDen at h
  split at h
  · cases h
  · next hden => exact fix_lowestTerms hden h

section

variable {f g f' : Fraction} (hf : f.LowestTerms) (hg : g.LowestTerms)
include hf

theorem setNum_lowestTerms {num : Int} (h : f.setNum num = some f') : f'.LowestTerms :=
  fix_lowestTerms (f := { f with num }) hf.den_ne_zero h

theorem reciprocal_lowestTerms_iff (h : f.reciprocal = some f') :
    f'.LowestTerms ↔ f.num ≠ 0 := by
  unfold reciprocal at h
  rw [if_neg hf.den_ne_zero] at h
  obtain rfl := Option.some.inj h
  exact ⟨LowestTerms.den_ne_zero, fun hnum => ⟨hnum, (Int.gcd_comm _ _).trans hf.coprime⟩⟩

include hg

theorem add_lowestTerms (h : f.add g = some f') : f'.LowestTerms :=
  fix_lowestTerms (mul_ne_zero hf.den_ne_zero hg.den_ne_zero) h

theorem sub_lowestTerms (h : f.sub g = some f') : f'.LowestTerms :=
  fix_lowestTerms (mul_ne_zero hf.den_ne_zero hg.den_ne_zero) h

theorem mul_lowestTerms (h : f.mul g = some f') : f'.LowestTerms :=
  fix_lowestTerms (mul_ne_zero hf.den_ne_zero hg.den_ne_zero) h

omit hg in
theorem div_lowestTerms (h : f.div g = some f') : f'.LowestTerms := by
  unfold div at h
  split at h
  · cases h
  · next hnum => exact fix_lowestTerms (mul_ne_zero hf.den_ne_zero hnum) h

end

def value (f : Fraction) : ℚ := f.num / f.den

def Denotes (result : Option Fraction) (q : ℚ) : Prop :=
  ∃ f, result = some f ∧ f.LowestTerms ∧ f.value = q

theorem value_ediv {num den g : Int} (hden : den ≠ 0) (hnum : g ∣ num) (hdvd : g ∣ den) :
    value ⟨num / g, den / g⟩ = value ⟨num, den⟩ := by
  obtain ⟨n, rfl⟩ := hnum
  obtain ⟨d, rfl⟩ := hdvd
  have hg : g ≠ 0 := left_ne_zero_of_mul hden
  have hgq : (g : ℚ) ≠ 0 := Int.cast_ne_zero.mpr hg
  simp only [value, Int.mul_ediv_cancel_left _ hg, Int.cast_mul]
  rw [mul_div_mul_left _ _ hgq]

theorem fix_denotes {f : Fraction} (h : f.den ≠ 0) : Denotes (fix f) f.value := by
  have hfix := fix_eq h
  exact ⟨_, hfix, fix_lowestTerms h hfix,
    value_ediv h (Int.gcd_dvd_left _ _) (Int.gcd_dvd_right _ _)⟩

section

variable {f g : Fraction} (hf : f.den ≠ 0) (hg : g.den ≠ 0)
include hf hg

private theorem add_denotes : Denotes (f.add g) (f.value + g.value) := by
  have hfq : (f.den : ℚ) ≠ 0 := Int.cast_ne_zero.mpr hf
  have hgq : (g.den : ℚ) ≠ 0 := Int.cast_ne_zero.mpr hg
  have hvalue : value ⟨f.num * g.den + g.num * f.den, f.den * g.den⟩ = f.value + g.value := by
    simp only [value, Int.cast_add, Int.cast_mul]
    field_simp
  rw [← hvalue]
  exact fix_denotes (mul_ne_zero hf hg)

private theorem sub_denotes : Denotes (f.sub g) (f.value - g.value) := by
  have hfq : (f.den : ℚ) ≠ 0 := Int.cast_ne_zero.mpr hf
  have hgq : (g.den : ℚ) ≠ 0 := Int.cast_ne_zero.mpr hg
  have hvalue : value ⟨f.num * g.den - g.num * f.den, f.den * g.den⟩ = f.value - g.value := by
    simp only [value, Int.cast_sub, Int.cast_mul]
    field_simp
  rw [← hvalue]
  exact fix_denotes (mul_ne_zero hf hg)

private theorem mul_denotes : Denotes (f.mul g) (f.value * g.value) := by
  have hvalue : value ⟨f.num * g.num, f.den * g.den⟩ = f.value * g.value := by
    simp only [value, Int.cast_mul]
    rw [mul_div_mul_comm]
  rw [← hvalue]
  exact fix_denotes (mul_ne_zero hf hg)

omit hg in
private theorem div_denotes (hvalue : g.value ≠ 0) : Denotes (f.div g) (f.value / g.value) := by
  have hnum : g.num ≠ 0 := by
    intro hzero
    apply hvalue
    simp only [value, hzero, Int.cast_zero, zero_div]
  have hquot : value ⟨f.num * g.den, f.den * g.num⟩ = f.value / g.value := by
    simp only [value, Int.cast_mul]
    rw [div_div_div_eq]
  unfold div
  rw [if_neg hnum, ← hquot]
  exact fix_denotes (mul_ne_zero hf hnum)

/-- The four operations are those of the rational numbers, with their results in lowest terms. -/
theorem arithmetic_exact :
    Denotes (f.add g) (f.value + g.value) ∧ Denotes (f.sub g) (f.value - g.value) ∧
      Denotes (f.mul g) (f.value * g.value) ∧
      (g.value ≠ 0 → Denotes (f.div g) (f.value / g.value)) :=
  ⟨add_denotes hf hg, sub_denotes hf hg, mul_denotes hf hg, div_denotes hf⟩

end

/-- Signs on either side: 6 / -4 and -3 / 9. -/
theorem arithmetic_exact_signs :
    Denotes (add ⟨6, -4⟩ ⟨-3, 9⟩) (value ⟨6, -4⟩ + value ⟨-3, 9⟩) ∧
      Denotes (div ⟨6, -4⟩ ⟨-3, 9⟩) (value ⟨6, -4⟩ / value ⟨-3, 9⟩) := by
  have hexact := arithmetic_exact (f := ⟨6, -4⟩) (g := ⟨-3, 9⟩) (by decide) (by decide)
  exact ⟨hexact.1, hexact.2.2.2 (by norm_num [value])⟩

/-- What a program does with its fractions, which are numbered in the order of their making. -/
inductive Op where
  | default
  | make (num den : Int)
  | copy (i : Nat)
  | assign (i j : Nat)
  | setNum (i : Nat) (num : Int)
  | setDen (i : Nat) (den : Int)
  | add (i j : Nat)
  | sub (i j : Nat)
  | mul (i j : Nat)
  | div (i j : Nat)
  | reciprocal (i : Nat)
deriving DecidableEq, Repr

def step (fs : List Fraction) : Op → Option (List Fraction)
  | .default => some (fs ++ [{}])
  | .make num den => do return fs ++ [← Fraction.make num den]
  | .copy i => do return fs ++ [← fs[i]?]
  | .assign i j => do
      let _ ← fs[i]?
      return fs.set i (← fs[j]?)
  | .setNum i num => do return fs.set i (← (← fs[i]?).setNum num)
  | .setDen i den => do return fs.set i (← (← fs[i]?).setDen den)
  | .add i j => do return fs ++ [← (← fs[i]?).add (← fs[j]?)]
  | .sub i j => do return fs ++ [← (← fs[i]?).sub (← fs[j]?)]
  | .mul i j => do return fs ++ [← (← fs[i]?).mul (← fs[j]?)]
  | .div i j => do return fs ++ [← (← fs[i]?).div (← fs[j]?)]
  | .reciprocal i => do return fs ++ [← (← fs[i]?).reciprocal]

def AllLowestTerms (fs : List Fraction) : Prop := ∀ f ∈ fs, f.LowestTerms

def NoReciprocalOfZero (fs : List Fraction) (op : Op) : Prop :=
  ∀ i, op = .reciprocal i → ∀ f, fs[i]? = some f → f.num ≠ 0

section

variable {fs : List Fraction} {f : Fraction} (hfs : AllLowestTerms fs)
include hfs

theorem AllLowestTerms.get {i : Nat} (h : fs[i]? = some f) : f.LowestTerms :=
  hfs f (List.mem_of_getElem? h)

theorem AllLowestTerms.append_iff : AllLowestTerms (fs ++ [f]) ↔ f.LowestTerms := by
  simp only [AllLowestTerms, List.mem_append, List.mem_singleton]
  exact ⟨fun h => h f (.inr rfl), fun h g hg => hg.elim (hfs g) fun heq => heq ▸ h⟩

theorem AllLowestTerms.set {i : Nat} (hf : f.LowestTerms) : AllLowestTerms (fs.set i f) := by
  intro g hg
  rcases List.mem_or_eq_of_mem_set hg with hg | rfl
  · exact hfs g hg
  · exact hf

end

private theorem operator_inv {op : Fraction → Fraction → Option Fraction} {fs fs' : List Fraction}
    {i j : Nat} (h : (do return fs ++ [← op (← fs[i]?) (← fs[j]?)]) = some fs') :
    ∃ f g f', fs[i]? = some f ∧ fs[j]? = some g ∧ op f g = some f' ∧ fs' = fs ++ [f'] := by
  obtain ⟨f, hf, h⟩ := Option.bind_eq_some_iff.mp h
  obtain ⟨g, hg, h⟩ := Option.bind_eq_some_iff.mp h
  obtain ⟨f', hf', hfs'⟩ := Option.bind_eq_some_iff.mp h
  exact ⟨f, g, f', hf, hg, hf', (Option.some.inj hfs').symm⟩

/-- One operation keeps all fractions in lowest terms unless it takes the reciprocal of zero. -/
theorem step_lowestTerms_iff {fs fs' : List Fraction} {op : Op} (hfs : AllLowestTerms fs)
    (h : step fs op = some fs') : AllLowestTerms fs' ↔ NoReciprocalOfZero fs op := by
  have hkeeps (hall : AllLowestTerms fs') (hop : ∀ i, op ≠ .reciprocal i) :
      AllLowestTerms fs' ↔ NoReciprocalOfZero fs op :=
    iff_of_true hall fun i hi => absurd hi (hop i)
  cases op with
  | default =>
      obtain rfl := Option.some.inj h
      exact hkeeps (hfs.append_iff.mpr lowestTerms_default) (by simp)
  | make num den =>
      obtain ⟨f, hf, hfs'⟩ := Option.bind_eq_some_iff.mp h
      obtain rfl := Option.some.inj hfs'
      exact hkeeps (hfs.append_iff.mpr (make_lowestTerms hf)) (by simp)
  | copy i =>
      obtain ⟨f, hf, hfs'⟩ := Option.bind_eq_some_iff.mp h
      obtain rfl := Option.some.inj hfs'
      exact hkeeps (hfs.append_iff.mpr (hfs.get hf)) (by simp)
  | assign i j =>
      obtain ⟨_, _, h⟩ := Option.bind_eq_some_iff.mp h
      obtain ⟨f, hf, hfs'⟩ := Option.bind_eq_some_iff.mp h
      obtain rfl := Option.some.inj hfs'
      exact hkeeps (hfs.set (hfs.get hf)) (by simp)
  | setNum i num =>
      obtain ⟨f, hf, h⟩ := Option.bind_eq_some_iff.mp h
      obtain ⟨f', hf', hfs'⟩ := Option.bind_eq_some_iff.mp h
      obtain rfl := Option.some.inj hfs'
      exact hkeeps (hfs.set (setNum_lowestTerms (hfs.get hf) hf')) (by simp)
  | setDen i den =>
      obtain ⟨f, hf, h⟩ := Option.bind_eq_some_iff.mp h
      obtain ⟨f', hf', hfs'⟩ := Option.bind_eq_some_iff.mp h
      obtain rfl := Option.some.inj hfs'
      exact hkeeps (hfs.set (setDen_lowestTerms hf')) (by simp)
  | add i j =>
      obtain ⟨f, g, f', hf, hg, hf', rfl⟩ := operator_inv h
      exact hkeeps (hfs.append_iff.mpr (add_lowestTerms (hfs.get hf) (hfs.get hg) hf')) (by simp)
  | sub i j =>
      obtain ⟨f, g, f', hf, hg, hf', rfl⟩ := operator_inv h
      exact hkeeps (hfs.append_iff.mpr (sub_lowestTerms (hfs.get hf) (hfs.get hg) hf')) (by simp)
  | mul i j =>
      obtain ⟨f, g, f', hf, hg, hf', rfl⟩ := operator_inv h
      exact hkeeps (hfs.append_iff.mpr (mul_lowestTerms (hfs.get hf) (hfs.get hg) hf')) (by simp)
  | div i j =>
      obtain ⟨f, g, f', hf, -, hf', rfl⟩ := operator_inv h
      exact hkeeps (hfs.append_iff.mpr (div_lowestTerms (hfs.get hf) hf')) (by simp)
  | reciprocal i =>
      obtain ⟨f, hf, h⟩ := Option.bind_eq_some_iff.mp h
      obtain ⟨f', hf', hfs'⟩ := Option.bind_eq_some_iff.mp h
      obtain rfl := Option.some.inj hfs'
      rw [hfs.append_iff, reciprocal_lowestTerms_iff (hfs.get hf) hf']
      constructor
      · rintro hnum _ ⟨⟩ g hg
        obtain rfl := Option.some.inj (hf.symm.trans hg)
        exact hnum
      · exact fun hop => hop i rfl f hf

/-- In a run without `DIVBY0`, every fraction is in lowest terms in every state exactly when no
reciprocal of zero is taken. -/
theorem run_lowestTerms_iff (ops : List Op) :
    Runs.Throughout step AllLowestTerms [] ops ↔ Runs.Permitted step NoReciprocalOfZero [] ops :=
  Runs.throughout_iff_permitted (I := fun _ => True) (fun _ _ _ _ _ => trivial)
    (fun _ _ _ _ hfs h => step_lowestTerms_iff hfs h) trivial
    (fun _ hf => absurd hf List.not_mem_nil)

/-- The reciprocal of the default fraction is 1/0. -/
theorem reciprocal_default_not_lowestTerms :
    ¬ ∀ ops, Runs.Throughout step AllLowestTerms [] ops := by
  intro h
  obtain ⟨-, hdefault⟩ := h [.default, .reciprocal 0]
  obtain ⟨-, hreciprocal⟩ := hdefault [{}] rfl
  have hlow := hreciprocal [{}, ⟨1, 0⟩] rfl ⟨1, 0⟩ (by decide)
  exact hlow.den_ne_zero rfl

end Fraction

end PGBigNumber
