import PGBigNumber.Fraction.Objects
import PGBigNumber.Library.Ownership

/-!
# Fractions on big integers compute with fractions

What the functions do to the integers in the parts of their fractions.
-/

namespace PGBigNumber

namespace Fraction

open BigInteger

namespace Obj

section

variable {n v w radix k : Nat} {f g : Obj} {op : BinOp}

theorem not_topLimbZero_zero : ¬ Num.TopLimbZero zero := by decide

private theorem plain_ifZero {β : Type} {c : Code Call.Answer β} (h : Plain c) :
    Plain (compare .eq (.bigInt v zero) >>= fun b => if b = true then Code.stop else c) := by
  refine Code.Calls.bind (plain_compare not_topLimbZero_zero) fun b => ?_
  cases b with
  | true => trivial
  | false => exact h

theorem fix_plain : Plain (fix n f) :=
  plain_make trivial fun _ => plain_make trivial fun _ => (gcd_plain ..).bind fun _ =>
    plain_exec trivial (plain_exec trivial (plain_exec rfl (plain_exec rfl (plain_last trivial))))

theorem default_plain : Plain default :=
  plain_make trivial fun _ => plain_make (show ¬ Num.TopLimbZero 1 by decide) fun _ => trivial

theorem make_plain : Plain (make n v w) :=
  plain_make trivial fun _ => plain_make trivial fun _ =>
    plain_ifZero (fix_plain.bind fun _ => trivial)

theorem copy_plain : Plain (copy f) :=
  plain_make trivial fun _ => plain_make trivial fun _ => trivial

theorem assign_plain : Plain (assign f g) := plain_exec trivial (plain_last trivial)

theorem setNum_plain : Plain (setNum n f v) := plain_exec trivial fix_plain

theorem setDen_plain : Plain (setDen n f v) := plain_ifZero (plain_exec trivial fix_plain)

theorem reciprocal_plain : Plain (reciprocal f) :=
  plain_ifZero (copy_plain.bind fun _ => plain_exec trivial trivial)

theorem combine_plain : Plain (combine n v w) :=
  default_plain.bind fun _ => plain_exec trivial (plain_exec trivial
    (fix_plain.bind fun _ => plain_exec trivial (plain_exec trivial trivial)))

theorem cross_plain : Plain (cross op f g) :=
  plain_make trivial fun _ => plain_make trivial fun _ => plain_make trivial fun _ =>
    plain_exec trivial (plain_exec trivial trivial)

theorem add_plain : Plain (add n f g) :=
  cross_plain.bind fun _ => plain_make trivial fun _ => combine_plain

theorem sub_plain : Plain (sub n f g) :=
  cross_plain.bind fun _ => plain_make trivial fun _ => combine_plain

theorem mul_plain : Plain (mul n f g) :=
  plain_make trivial fun _ => plain_make trivial fun _ => combine_plain

theorem div_plain : Plain (div n f g) :=
  plain_ifZero (plain_make trivial fun _ => plain_make trivial fun _ => combine_plain)

end

/-- The fraction `f` got the value `F`, and nothing else changed. -/
structure Sets (u u' : Values) (f : Obj) (F : Fraction) : Prop where
  live : u.live ≤ u'.live
  value : u'.value =
    Function.update (Function.update u.value f.num (some F.num)) f.den (some F.den)

/-- A new fraction `f` with the value `F`, and nothing else. -/
structure Makes (u u' : Values) (f : Obj) (F : Fraction) : Prop extends Sets u u' f F where
  num : u.live ≤ f.num ∧ f.num < u'.live
  den : u.live ≤ f.den ∧ f.den < u'.live
  ne : f.num ≠ f.den

structure Holds (u : Values) (f : Obj) (F : Fraction) : Prop where
  num : u.value f.num = some F.num
  den : u.value f.den = some F.den

section

variable {u u' : Values} {f g r : Obj} {F G F' : Fraction} {n v w : Nat} {x y z : Int}

def rounds (F : Fraction) : Nat := (|F.num| * |F.den|).toNat.size

theorem gcdWithin_rounds (F : Fraction) :
    Algo.gcdWithin (rounds F) |F.num| |F.den| = some (Algo.gcd |F.num| |F.den|) := by
  refine Algo.gcdWithin_eq (abs_nonneg _) (abs_nonneg _) ?_
  have hlt : (|F.num| * |F.den|).toNat < 2 ^ rounds F := Nat.lt_size_self _
  have hcast : (((|F.num| * |F.den|).toNat : Nat) : Int) = |F.num| * |F.den| :=
    Int.toNat_of_nonneg (Int.mul_nonneg (abs_nonneg _) (abs_nonneg _))
  rw [← hcast]
  exact_mod_cast hlt

theorem fix_ends (htidy : u.Tidy) (hne : f.num ≠ f.den) (hf : Holds u f F)
    (hfix : Fraction.fix F = some F') (hn : rounds F ≤ n) :
    (fix n f).Ends evalCall u fun _ u' => Sets u u' f F' := by
  have hnum := htidy.lt hf.num
  have hden := htidy.lt hf.den
  have hdne : f.den ≠ u.live := by omega
  set u₂ := (u.push |F.num|).push |F.den| with hu₂
  refine ends_make (t := u.push |F.num|) ?_ ?_ ?_
  · simpa [Stmt.objects] using hnum
  · simp [Stmt.meaning, result, hf.num]
  refine ends_make (t := u₂) ?_ ?_ ?_
  · simp [Stmt.objects, Values.push]
    omega
  · simp [Stmt.meaning, result, Values.push, Function.update_of_ne hdne, hf.den, hu₂]
  have hlive₂ : u₂.live = u.live + 2 := rfl
  have htidy₂ : u₂.Tidy := (htidy.push |F.num|).push |F.den|
  have habs : u₂.value u.live = some |F.num| := by
    simp [hu₂, Values.push]
  have habs' : u₂.value (u.live + 1) = some |F.den| := by simp [hu₂, Values.push]
  refine (gcd_ends htidy₂ habs habs' (gcdWithin_rounds F) hn).bind fun g u₃ hadds => ?_
  have hold := hadds.old
  have hnew := hadds.new
  -- without the two absolute values only the divisor is left
  set u₅ := (u₃.put (u.live + 1) none).put u.live none with hu₅
  have hvalue : u₅.value = Function.update u.value g (some (Algo.gcd |F.num| |F.den|)) := by
    have hnone := htidy u.live (Nat.le_refl _)
    have hnone' := htidy (u.live + 1) (Nat.le_succ _)
    simp only [hu₅, Values.put, hadds.value, hu₂, Values.push]
    funext k
    simp only [Function.update_apply]
    grind
  have hlive₅ : u₅.live = u₃.live := rfl
  refine ends_exec ?_ rfl (ends_exec ?_ rfl ?_)
  · simp [Stmt.objects, Values.push]
    omega
  · simp [Stmt.objects, Values.put]
    omega
  change Code.Ends evalCall _ u₅ _
  rw [Fraction.fix] at hfix
  split at hfix
  · exact absurd hfix (by simp)
  next hg =>
  obtain rfl := Option.some.inj hfix
  have hgn : f.num ≠ g := by omega
  have hgd : f.den ≠ g := by omega
  refine ends_exec (t := u₅.set f.num (F.num.tdiv (Algo.gcd |F.num| |F.den|))) ?_ ?_ ?_
  · simp [Stmt.objects, Program.Arg.reads]
    omega
  · simp [Stmt.meaning, Program.Arg.value, hvalue, Function.update_of_ne hgn, hf.num, BinOp.meaning,
      hg]
  refine ends_exec (t := (u₅.set f.num (F.num.tdiv (Algo.gcd |F.num| |F.den|))).set f.den
    (F.den.tdiv (Algo.gcd |F.num| |F.den|))) ?_ ?_ ?_
  · simp [Stmt.objects, Program.Arg.reads, Values.set]
    omega
  · simp [Stmt.meaning, Program.Arg.value, Values.set, hvalue, Function.update_of_ne hgd,
      Function.update_of_ne hne.symm, Function.update_of_ne hgn.symm, hf.den, BinOp.meaning, hg]
  refine ends_last ?_ rfl ⟨?_, ?_⟩
  · simp [Stmt.objects, Values.set]
    omega
  · change u.live ≤ u₃.live
    omega
  · have hnone := htidy g (by omega)
    simp only [Values.put, Values.set, hvalue]
    funext k
    simp only [Function.update_apply]
    grind

theorem Makes.holds (h : Makes u u' f F) : Holds u' f F := by
  constructor
  · rw [h.value, Function.update_of_ne h.ne, Function.update_self]
  · rw [h.value, Function.update_self]

theorem Makes.tidy (h : Makes u u' f F) (htidy : u.Tidy) : u'.Tidy := by
  intro v hv
  have hlive := h.live
  have hnum := h.num
  have hden := h.den
  rw [h.value, Function.update_of_ne (by omega), Function.update_of_ne (by omega),
    htidy v (by omega)]

theorem Makes.keeps (h : Makes u u' f F) (htidy : u.Tidy) (hx : u.value v = some x) :
    u'.value v = some x := by
  have hv := htidy.lt hx
  have hnum := h.num
  have hden := h.den
  rw [h.value, Function.update_of_ne (by omega), Function.update_of_ne (by omega), hx]

theorem default_ends : default.Ends evalCall u fun f u' => Makes u u' f {} := by
  refine ends_make (by simp [Stmt.objects]) rfl (ends_make (by simp [Stmt.objects]) rfl (.ret ?_))
  exact ⟨⟨Nat.le_add_right _ 2, rfl⟩, ⟨Nat.le_refl _, show u.live < u.live + 2 by omega⟩,
    ⟨Nat.le_succ _, Nat.lt_succ_self _⟩, Nat.ne_of_lt (Nat.lt_succ_self _)⟩

private theorem copies_end {β : Type} {k : Nat → Nat → Code Call.Answer β} {Q : β → Values → Prop}
    (htidy : u.Tidy) (hx : u.value v = some x) (hy : u.value w = some y)
    (h : ∀ f u', Makes u u' f ⟨x, y⟩ → (k f.num f.den).Ends evalCall u' Q) :
    (BigInteger.make (.copy v) >>= fun a => BigInteger.make (.copy w) >>= fun b => k a b).Ends
      evalCall u Q := by
  have hv := htidy.lt hx
  have hw := htidy.lt hy
  have hne : w ≠ u.live := by omega
  refine ends_make (t := u.push x) ?_ ?_ ?_
  · simpa [Stmt.objects] using hv
  · simp [Stmt.meaning, result, hx]
  refine ends_make (t := (u.push x).push y) ?_ ?_ (h ⟨u.live, u.live + 1⟩ _ ?_)
  · simp [Stmt.objects, Values.push]
    omega
  · simp [Stmt.meaning, result, Values.push, Function.update_of_ne hne, hy]
  · exact ⟨⟨Nat.le_add_right _ 2, rfl⟩, ⟨Nat.le_refl _, show u.live < u.live + 2 by omega⟩,
      ⟨Nat.le_succ _, Nat.lt_succ_self _⟩, Nat.ne_of_lt (Nat.lt_succ_self _)⟩

private theorem ifZero_ends {β : Type} {c : Code Call.Answer β} {Q : β → Values → Prop}
    (hx : u.value v = some x) (h0 : x ≠ 0) (hc : c.Ends evalCall u Q) :
    (compare .eq (.bigInt v zero) >>= fun b => if b = true then Code.stop else c).Ends
      evalCall u Q := by
  refine Code.Ends.bind (ends_compare hx rfl ⟨rfl, rfl⟩)
    (fun b s' ⟨hb, hs⟩ => ?_ : ∀ b s', b = Rel.eq.holds x zero ∧ s' = u → _)
  rw [hb, hs, show Rel.eq.holds x zero = false from decide_eq_false h0]
  exact hc

theorem Makes.fixed (h : Makes u u' f F) (htidy : u.Tidy) (hfix : Fraction.fix F = some F')
    (hn : rounds F ≤ n) : (fix n f).Ends evalCall u' fun _ u'' => Makes u u'' f F' := by
  refine (fix_ends (h.tidy htidy) h.ne h.holds hfix hn).mono fun _ u'' hsets => ?_
  have hlive := hsets.live
  refine ⟨⟨h.live.trans hlive, ?_⟩, ⟨h.num.1, h.num.2.trans_le hlive⟩,
    ⟨h.den.1, h.den.2.trans_le hlive⟩, h.ne⟩
  rw [hsets.value, h.value]
  funext k
  simp only [Function.update_apply]
  grind

theorem make_ends (htidy : u.Tidy) (hx : u.value v = some x) (hy : u.value w = some y)
    (hmake : Fraction.make x y = some F) (hn : rounds ⟨x, y⟩ ≤ n) :
    (make n v w).Ends evalCall u fun f u' => Makes u u' f F := by
  rw [Fraction.make] at hmake
  split at hmake
  · exact absurd hmake (by simp)
  next hy0 =>
  refine copies_end htidy hx hy fun f u' hf => ifZero_ends (hf.keeps htidy hy) hy0 ?_
  exact (hf.fixed htidy hmake hn).bind fun _ u'' hf' => .ret hf'

theorem copy_ends (htidy : u.Tidy) (hf : Holds u f F) :
    (copy f).Ends evalCall u fun r u' => Makes u u' r F :=
  copies_end htidy hf.num hf.den fun _ _ hr => .ret hr

theorem meaning_assign (hx : u.value w = some x) :
    (Stmt.assign v w).meaning u = some (u.set v x) := by
  rw [Stmt.meaning]
  split
  next heq =>
    subst heq
    exact congrArg some (Values.ext (by rw [Values.set, ← hx, Function.update_eq_self]) rfl)
  next hne =>
    rw [hx]
    rfl

theorem assign_ends (htidy : u.Tidy) (hf : Holds u f F) (hg : Holds u g G)
    (hne : f.num = g.den → G.num = G.den) :
    (assign f g).Ends evalCall u fun _ u' => Sets u u' f G := by
  have hnum := htidy.lt hf.num
  have hden := htidy.lt hf.den
  have hnum' := htidy.lt hg.num
  have hden' := htidy.lt hg.den
  have hkept : (u.set f.num G.num).value g.den = some G.den := by
    by_cases heq : f.num = g.den
    · simp [Values.set, heq, hne heq]
    · exact (Function.update_of_ne (Ne.symm heq) ..).trans hg.den
  refine ends_exec ?_ (meaning_assign hg.num) (ends_last ?_ (meaning_assign hkept) ⟨?_, rfl⟩)
  · simp [Stmt.objects]
    omega
  · simp [Stmt.objects, Values.set]
    omega
  · exact Nat.le_refl _

theorem setNum_ends (htidy : u.Tidy) (hne : f.num ≠ f.den) (hf : Holds u f F)
    (hx : u.value v = some x) (hset : F.setNum x = some F') (hn : rounds ⟨x, F.den⟩ ≤ n) :
    (setNum n f v).Ends evalCall u fun _ u' => Sets u u' f F' := by
  have hnum := htidy.lt hf.num
  have hv := htidy.lt hx
  refine ends_exec ?_ (meaning_assign hx) ?_
  · simp [Stmt.objects]
    omega
  have hheld : Holds (u.set f.num x) f ⟨x, F.den⟩ :=
    ⟨Function.update_self .., (Function.update_of_ne hne.symm ..).trans hf.den⟩
  refine (fix_ends (htidy.set hnum x) hne hheld hset hn).mono fun _ u' hsets => ⟨hsets.live, ?_⟩
  rw [hsets.value, Values.set, Function.update_idem]

theorem setDen_ends (htidy : u.Tidy) (hne : f.num ≠ f.den) (hf : Holds u f F)
    (hx : u.value v = some x) (hset : F.setDen x = some F') (hn : rounds ⟨F.num, x⟩ ≤ n) :
    (setDen n f v).Ends evalCall u fun _ u' => Sets u u' f F' := by
  have hden := htidy.lt hf.den
  have hv := htidy.lt hx
  rw [Fraction.setDen] at hset
  split at hset
  · exact absurd hset (by simp)
  next hx0 =>
  refine ifZero_ends hx hx0 (ends_exec ?_ (meaning_assign hx) ?_)
  · simp [Stmt.objects]
    omega
  have hheld : Holds (u.set f.den x) f ⟨F.num, x⟩ :=
    ⟨(Function.update_of_ne hne ..).trans hf.num, Function.update_self ..⟩
  refine (fix_ends (htidy.set hden x) hne hheld hset hn).mono fun _ u' hsets => ⟨hsets.live, ?_⟩
  rw [hsets.value, Values.set]
  funext k
  simp only [Function.update_apply]
  grind

theorem reciprocal_ends (htidy : u.Tidy) (hf : Holds u f F) (hrec : F.reciprocal = some F') :
    (reciprocal f).Ends evalCall u fun r u' => Makes u u' r F' := by
  rw [Fraction.reciprocal] at hrec
  split at hrec
  · exact absurd hrec (by simp)
  next hden0 =>
  obtain rfl := Option.some.inj hrec
  refine ifZero_ends hf.den hden0 ((copy_ends htidy hf).bind fun r u₁ hr => ?_)
  have hnum := hr.num
  have hden := hr.den
  refine ends_exec ?_ rfl (.ret ⟨⟨hr.live, ?_⟩, hnum, hden, hr.ne⟩)
  · simp [Stmt.objects]
    omega
  · have hne := hr.ne
    simp only [Values.put, hr.holds.num, hr.holds.den, hr.value]
    funext k
    simp only [Function.update_apply]
    grind

theorem combine_ends (htidy : u.Tidy) (h : Makes u u' ⟨v, w⟩ ⟨x, y⟩)
    (hfix : Fraction.fix ⟨x, y⟩ = some F) (hn : rounds ⟨x, y⟩ ≤ n) :
    (combine n v w).Ends evalCall u' fun f u'' => Makes u u'' f F := by
  have htidy' := h.tidy htidy
  have hv : u.live ≤ v ∧ v < u'.live := h.num
  have hw : u.live ≤ w ∧ w < u'.live := h.den
  have hvw : v ≠ w := h.ne
  refine default_ends.bind fun f u₁ hf => ?_
  have hnum := hf.num
  have hden := hf.den
  have hv' : u₁.value v = some x := hf.keeps htidy' h.holds.num
  have hw' : (u₁.set f.num x).value w = some y :=
    (Function.update_of_ne (by omega) ..).trans (hf.keeps htidy' h.holds.den)
  -- the parts are assigned as if they had been made with these values
  have hset : Makes u' ((u₁.set f.num x).set f.den y) f ⟨x, y⟩ := by
    refine ⟨⟨hf.live, ?_⟩, hnum, hden, hf.ne⟩
    simp only [Values.set, hf.value]
    funext k
    simp only [Function.update_apply]
    grind
  refine ends_exec ?_ (meaning_assign hv') (ends_exec ?_ (meaning_assign hw') ?_)
  · simp [Stmt.objects]
    omega
  · simp [Stmt.objects, Values.set]
    omega
  refine (hset.fixed htidy' hfix hn).bind fun _ u₂ hfixed => ?_
  have hnum₂ := hfixed.num
  have hden₂ := hfixed.den
  have hlive := hfixed.live
  refine ends_exec ?_ rfl (ends_exec ?_ rfl (.ret ?_))
  · simp [Stmt.objects]
    omega
  · simp [Stmt.objects, Values.put]
    omega
  refine ⟨⟨h.live.trans hlive, ?_⟩, ⟨by omega, hnum₂.2⟩, ⟨by omega, hden₂.2⟩, hfixed.ne⟩
  have hvnone := htidy v hv.1
  have hwnone := htidy w hw.1
  simp only [Values.put, hfixed.value, h.value]
  funext k
  simp only [Function.update_apply]
  grind

private theorem mul_make {β : Type} {k : Nat → Code Call.Answer β} {Q : β → Values → Prop}
    (htidy : u.Tidy) (hx : u.value v = some x) (hy : u.value w = some y)
    (h : (k u.live).Ends evalCall (u.push (x * y)) Q) :
    (BigInteger.make (.binary .mul (.bigBig v w)) >>= k).Ends evalCall u Q := by
  have hv := htidy.lt hx
  have hw := htidy.lt hy
  refine ends_make ?_ ?_ h
  · simp [Stmt.objects, Operands.objects]
    omega
  · simp [Stmt.meaning, Operands.left, Operands.right, Program.Arg.value, hx, hy, BinOp.meaning]

theorem push_value_of_some (htidy : u.Tidy) (hx : u.value v = some x) (y : Int) :
    (u.push y).value v = some x := by
  have hv := htidy.lt hx
  exact (Function.update_of_ne hv.ne ..).trans hx

theorem cross_ends {op : BinOp} (htidy : u.Tidy) (hf : Holds u f F) (hg : Holds u g G)
    (hz : op.meaning (F.num * G.den) (G.num * F.den) = some z) :
    (cross op f g).Ends evalCall u fun v u' => u.Adds u' v z := by
  refine mul_make htidy hf.num hg.den ?_
  have htidy₁ := htidy.push (F.num * G.den)
  refine mul_make htidy₁ (push_value_of_some htidy hg.num _) (push_value_of_some htidy hf.den _) ?_
  set u₂ := (u.push (F.num * G.den)).push (G.num * F.den) with hu₂
  have hfirst : u₂.value u.live = some (F.num * G.den) := by simp [hu₂, Values.push]
  have hsecond : u₂.value (u.live + 1) = some (G.num * F.den) := by simp [hu₂, Values.push]
  refine ends_make (t := u₂.push z) ?_ ?_ ?_
  · simp [Stmt.objects, Operands.objects, hu₂, Values.push]
  · rw [Stmt.meaning, Operands.left, Operands.right, Program.Arg.value, Program.Arg.value, hfirst,
      show u₂.value (u.push (F.num * G.den)).live = _ from hsecond]
    simp only [Option.bind_eq_bind, Option.bind_some, hz]
    rfl
  refine ends_exec ?_ rfl (ends_exec ?_ rfl (.ret ⟨?_, Nat.lt_succ_self _, ?_⟩))
  · simp [Stmt.objects, hu₂, Values.push]
  · simp [Stmt.objects, hu₂, Values.push, Values.put]
    omega
  · exact Nat.le_add_right u.live 2
  · have hnone := htidy u.live (Nat.le_refl _)
    have hnone' := htidy (u.live + 1) (Nat.le_succ _)
    simp only [hu₂, Values.put, Values.push]
    funext k
    simp only [Function.update_apply]
    grind

private theorem adds_makes (h : u.Adds u' v x) (y : Int) : Makes u (u'.push y) ⟨v, u'.live⟩ ⟨x, y⟩ := by
  have hold := h.old
  have hnew := h.new
  have hlive : (u'.push y).live = u'.live + 1 := rfl
  refine ⟨⟨by omega, ?_⟩, ⟨hold, ?_⟩, ⟨hold.trans hnew.le, ?_⟩, hnew.ne⟩
  · rw [← h.value]
    rfl
  · exact hnew.trans (Nat.lt_succ_self _)
  · exact Nat.lt_succ_self _

theorem crossed_ends {op : BinOp} (htidy : u.Tidy) (hf : Holds u f F) (hg : Holds u g G)
    (hz : op.meaning (F.num * G.den) (G.num * F.den) = some z)
    (hfix : Fraction.fix ⟨z, F.den * G.den⟩ = some F') (hn : rounds ⟨z, F.den * G.den⟩ ≤ n) :
    (cross op f g >>= fun v => BigInteger.make (.binary .mul (.bigBig f.den g.den)) >>= fun w =>
      combine n v w).Ends evalCall u fun r u' => Makes u u' r F' := by
  refine (cross_ends htidy hf hg hz).bind fun v u₁ hv => ?_
  refine mul_make (hv.tidy htidy) (hv.keeps htidy hf.den) (hv.keeps htidy hg.den) ?_
  exact combine_ends htidy (adds_makes hv _) hfix hn

theorem add_ends (htidy : u.Tidy) (hf : Holds u f F) (hg : Holds u g G) (hadd : F.add G = some F')
    (hn : rounds ⟨F.num * G.den + G.num * F.den, F.den * G.den⟩ ≤ n) :
    (add n f g).Ends evalCall u fun r u' => Makes u u' r F' :=
  crossed_ends htidy hf hg rfl hadd hn

theorem sub_ends (htidy : u.Tidy) (hf : Holds u f F) (hg : Holds u g G) (hsub : F.sub G = some F')
    (hn : rounds ⟨F.num * G.den - G.num * F.den, F.den * G.den⟩ ≤ n) :
    (sub n f g).Ends evalCall u fun r u' => Makes u u' r F' :=
  crossed_ends htidy hf hg rfl hsub hn

private theorem products_end {v' w' : Nat} {x' y' : Int} (htidy : u.Tidy) (hx : u.value v = some x)
    (hy : u.value w = some y) (hx' : u.value v' = some x') (hy' : u.value w' = some y')
    (hfix : Fraction.fix ⟨x * y, x' * y'⟩ = some F') (hn : rounds ⟨x * y, x' * y'⟩ ≤ n) :
    (BigInteger.make (.binary .mul (.bigBig v w)) >>= fun a =>
      BigInteger.make (.binary .mul (.bigBig v' w')) >>= fun b => combine n a b).Ends evalCall u
        fun r u' => Makes u u' r F' := by
  refine mul_make htidy hx hy (mul_make (htidy.push _) (push_value_of_some htidy hx' _)
    (push_value_of_some htidy hy' _) (combine_ends htidy ?_ hfix hn))
  exact ⟨⟨Nat.le_add_right _ 2, rfl⟩, ⟨Nat.le_refl _, show u.live < u.live + 2 by omega⟩,
    ⟨Nat.le_succ _, Nat.lt_succ_self _⟩, Nat.ne_of_lt (Nat.lt_succ_self _)⟩

theorem mul_ends (htidy : u.Tidy) (hf : Holds u f F) (hg : Holds u g G) (hmul : F.mul G = some F')
    (hn : rounds ⟨F.num * G.num, F.den * G.den⟩ ≤ n) :
    (mul n f g).Ends evalCall u fun r u' => Makes u u' r F' :=
  products_end htidy hf.num hg.num hf.den hg.den hmul hn

theorem div_ends (htidy : u.Tidy) (hf : Holds u f F) (hg : Holds u g G) (hdiv : F.div G = some F')
    (hn : rounds ⟨F.num * G.den, F.den * G.num⟩ ≤ n) :
    (div n f g).Ends evalCall u fun r u' => Makes u u' r F' := by
  rw [Fraction.div] at hdiv
  split at hdiv
  · exact absurd hdiv (by simp)
  next hnum0 =>
  exact ifZero_ends hg.num hnum0 (products_end htidy hf.num hg.den hf.den hg.num hdiv hn)

end

end Obj

end Fraction

end PGBigNumber
