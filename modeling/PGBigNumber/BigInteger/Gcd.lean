import PGBigNumber.Algorithm
import PGBigNumber.BigInteger.Calls

/-!
# `algo::gcd` on big integers

The function as it runs on objects: two copies, a swap, and a loop that moves its variables.
-/

namespace PGBigNumber.BigInteger

def gcdBody (a b : Nat) : Code Call.Answer Unit := do
  let q ← make (.binary .mod (.bigBig b a))
  exec (.assignMove b a)
  exec (.assignMove a q)
  drop q

def gcd (n x y : Nat) : Code Call.Answer Nat := do
  let a ← make (.copy x)
  let b ← make (.copy y)
  .when (compare .gt (.bigBig a b)) (exec (.swap a b))
  .loop n (compare .gt (.bigInt a ⟨0, inI64_zero⟩)) (gcdBody a b)
  let result ← make (.move b)
  drop b
  drop a
  return result

theorem gcd_plain (n x y : Nat) : Plain (gcd n x y) := by
  have hbody (a b : Nat) : Plain (gcdBody a b) :=
    plain_make trivial fun _ => plain_exec trivial (plain_exec trivial (plain_last trivial))
  have hzero (a : Nat) : (Call.compare .gt (.bigInt a ⟨0, inI64_zero⟩)).Plain :=
    show ¬ Num.TopLimbZero 0 by decide
  refine plain_make trivial fun a => plain_make trivial fun b => ?_
  have hswap : Plain (Code.when (compare .gt (.bigBig a b)) (exec (.swap a b))) :=
    .when (plain_compare trivial) (plain_last trivial)
  have hloop : Plain (Code.loop n (compare .gt (.bigInt a ⟨0, inI64_zero⟩)) (gcdBody a b)) :=
    .loop (plain_compare (hzero a)) (hbody a b) n
  exact hswap.bind fun _ => hloop.bind fun _ => plain_make trivial fun _ =>
    plain_exec trivial (plain_exec trivial trivial)

section

variable {u : Values} {a b m n v w : Nat} {x y g : Int}

/-- The two variables of the function hold `x` and `y`; all other objects are as in `u`. -/
structure Holds (u : Values) (x y : Int) (u' : Values) : Prop where
  live : u.live + 2 ≤ u'.live
  value : u'.value = Function.update (Function.update u.value u.live (some x)) (u.live + 1) (some y)

theorem Holds.first (hh : Holds u x y u') : u'.value u.live = some x := by
  rw [hh.value, Function.update_of_ne (by omega), Function.update_self]

theorem Holds.second (hh : Holds u x y u') : u'.value (u.live + 1) = some y := by
  rw [hh.value, Function.update_self]

theorem gcdBody_ends (htidy : u.Tidy) (hh : Holds u x y u') (hx : x ≠ 0) :
    (gcdBody u.live (u.live + 1)).Ends evalCall u' fun _ => Holds u (y.tmod x) x := by
  have hlive := hh.live
  refine ends_make (t := u'.push (y.tmod x)) ?_ ?_ ?_
  · simp [Stmt.objects, Operands.objects]
    omega
  · simp [Stmt.meaning, Operands.left, Operands.right, Program.Arg.value, hh.first, hh.second,
      BinOp.meaning, hx]
  refine ends_exec ?_ (if_neg (by omega)) ?_
  · simp [Stmt.objects, Values.push]
    omega
  refine ends_exec ?_ (if_neg (by omega)) ?_
  · simp [Stmt.objects, Values.push, Values.put]
    omega
  refine ends_last ?_ rfl ⟨?_, ?_⟩
  · simp [Stmt.objects, Values.push, Values.put]
  · simp only [Values.push, Values.put]
    omega
  · have hnone : u.value u'.live = none := htidy _ (by omega)
    have hfirst := hh.first
    simp only [Values.push, Values.put, hh.value]
    funext k
    simp only [Function.update_apply]
    grind

theorem swap_ends (hh : Holds u x y u') :
    (Code.when (compare .gt (.bigBig u.live (u.live + 1)))
      (exec (.swap u.live (u.live + 1)))).Ends evalCall u' fun _ u'' =>
        if y < x then Holds u y x u'' else Holds u x y u'' := by
  have hlive := hh.live
  refine ends_when hh.first hh.second (fun hgt => ?_) fun hle => ?_
  · have hlt : y < x := of_decide_eq_true hgt
    refine ends_last ?_ rfl ?_
    · simp [Stmt.objects]
      omega
    · rw [if_pos hlt]
      refine ⟨hlive, ?_⟩
      simp only [Values.put, hh.first, hh.second, hh.value]
      funext k
      simp only [Function.update_apply]
      grind
  · rw [if_neg (of_decide_eq_false hle)]
    exact hh

theorem gcdLoop_ends (htidy : u.Tidy) (hh : Holds u x y u')
    (hg : Algo.gcdRounds m x y = some g) (hmn : m ≤ n) :
    (Code.loop n (compare .gt (.bigInt u.live ⟨0, inI64_zero⟩))
      (gcdBody u.live (u.live + 1))).Ends evalCall u' fun _ u'' => ∃ x, Holds u x g u'' := by
  refine Code.Ends.loop (I := fun m u' => ∃ x y, Holds u x y u' ∧ Algo.gcdRounds m x y = some g)
    ?_ hmn ⟨x, y, hh, hg⟩
  rintro m u' ⟨x, y, hh, hg⟩
  refine ends_compare hh.first rfl ?_
  by_cases hpos : 0 < x
  · rw [show Rel.gt.holds x 0 = true from decide_eq_true hpos, if_pos rfl]
    cases m with
    | zero =>
        rw [Algo.gcdRounds, if_pos hpos] at hg
        exact absurd hg (by simp)
    | succ m =>
        rw [Algo.gcdRounds, if_pos hpos] at hg
        exact ⟨m, Nat.lt_succ_self m, (gcdBody_ends htidy hh hpos.ne').mono
          fun _ _ hh' => ⟨_, _, hh', hg⟩⟩
  · rw [show Rel.gt.holds x 0 = false from decide_eq_false hpos]
    have hg : y = g := by
      cases m <;> simpa [Algo.gcdRounds, hpos] using hg
    exact ⟨x, hg ▸ hh⟩

/-- The function gives what the same number of rounds gives for integers. -/
theorem gcd_ends (htidy : u.Tidy) (hx : u.value v = some x) (hy : u.value w = some y) (hg : Algo.gcdWithin m x y = some g)
    (hmn : m ≤ n) : (gcd n v w).Ends evalCall u fun r u' => u.Adds u' r g := by
  have hv := htidy.lt hx
  have hw := htidy.lt hy
  have hwne : w ≠ u.live := by omega
  have hcopies : Holds u x y ((u.push x).push y) := ⟨Nat.le_refl _, rfl⟩
  refine ends_make (t := u.push x) ?_ ?_ ?_
  · simpa [Stmt.objects] using hv
  · simp [Stmt.meaning, result, hx]
  refine ends_make (t := (u.push x).push y) ?_ ?_ ?_
  · simp [Stmt.objects, Values.push]
    omega
  · simp [Stmt.meaning, result, Values.push, Function.update_of_ne hwne, hy]
  refine (swap_ends hcopies).bind fun _ u₁ hh => ?_
  have hloop : (Code.loop n (compare .gt (.bigInt u.live ⟨0, inI64_zero⟩))
      (gcdBody u.live (u.live + 1))).Ends evalCall u₁ fun _ u'' => ∃ x, Holds u x g u'' := by
    rw [Algo.gcdWithin] at hg
    split at hg
    next hlt =>
      rw [if_pos hlt] at hh
      exact gcdLoop_ends htidy hh hg hmn
    next hge =>
      rw [if_neg hge] at hh
      exact gcdLoop_ends htidy hh hg hmn
  refine hloop.bind fun _ u₂ hloop' => ?_
  obtain ⟨z, hh⟩ := hloop'
  have hlive := hh.live
  refine ends_make ?_ rfl ?_
  · simp [Stmt.objects, Values.push]
    omega
  refine ends_exec ?_ rfl (ends_exec ?_ rfl (.ret ⟨?_, ?_, ?_⟩))
  · simp [Stmt.objects, Values.put, Values.push]
    omega
  · simp [Stmt.objects, Values.put]
    omega
  · omega
  · exact Nat.lt_succ_self _
  · have hnone : u.value u.live = none := htidy _ (Nat.le_refl _)
    have hnone' : u.value (u.live + 1) = none := htidy _ (Nat.le_succ _)
    have hsecond := hh.second
    simp only [Values.put, Values.push, hh.value]
    funext k
    simp only [Function.update_apply]
    grind

end

/-- After any faultless run, `gcd` of two objects with integers that are not negative ends within
as many rounds as their product has bits. It returns an object with the greatest common divisor,
and leaves all others and nothing else. -/
theorem run_gcd_exact {stmts : List Stmt} {u : Values}
    (hok : Runs.Guarded step (fun h stmt => stmt.Faultless h) Heap.initial stmts)
    (hrun : stmts.foldlM Stmt.evalStep Values.initial = some u) {v w n : Nat} {x y : Int}
    (hv : u.value v = some x) (hw : u.value w = some y) (hx : 0 ≤ x) (hy : 0 ≤ y)
    (hn : (x * y).toNat.size ≤ n) :
    ∃ h, stmts.foldlM step Heap.initial = some h ∧ h.values = u ∧
      (gcd n v w).Ends Heap.answer h fun r h' =>
        h'.Kept ∧ u.Adds h'.values r (Int.gcd x y) ∧ h'.Shows r (Int.gcd x y) := by
  obtain ⟨h, hsteps, ⟨hs, hk⟩, rfl⟩ := run_simulates hok hrun
  have hbits : x * y < 2 ^ (x * y).toNat.size := by
    have hlt : (x * y).toNat < 2 ^ (x * y).toNat.size := Nat.lt_size_self _
    have hcast : (((x * y).toNat : Nat) : Int) = x * y := Int.toNat_of_nonneg (Int.mul_nonneg hx hy)
    rw [← hcast]
    exact_mod_cast hlt
  have hg : Algo.gcdWithin (x * y).toNat.size x y = some (Int.gcd x y : Int) := by
    rw [Algo.gcdWithin_eq hx hy hbits, Algo.gcd_eq hx hy]
  refine ⟨h, hsteps, rfl, ?_⟩
  refine (code_exact (gcd_plain n v w) hs hk (gcd_ends hk.values_tidy hv hw hg hn)).mono ?_
  rintro r h' ⟨⟨hs', hk'⟩, hadds⟩
  exact ⟨hk', hadds, Heap.shows_of_value ⟨hs', hk'.owned⟩ hadds.self⟩

/-- Two numbers of two limbs each. -/
theorem run_gcd_exact_limbs :
    ∃ h, [Stmt.ofI64 ⟨2 ^ 40 * 6, by decide⟩, .ofI64 ⟨2 ^ 35 * 9, by decide⟩].foldlM step
        Heap.initial = some h ∧
      ∃ r h', (gcd 200 0 1).run Heap.answer h = some (r, h') ∧
        h'.values.value r = some (2 ^ 35 * 3) := by
  have htop : ¬ Num.TopLimbZero (2 ^ 40 * 6) := by decide
  have htop' : ¬ Num.TopLimbZero (2 ^ 35 * 9) := by decide
  have hok : Runs.Guarded step (fun h stmt => stmt.Faultless h) Heap.initial
      [Stmt.ofI64 ⟨2 ^ 40 * 6, by decide⟩, .ofI64 ⟨2 ^ 35 * 9, by decide⟩] :=
    ⟨htop, fun _ _ => ⟨htop', fun _ _ => trivial⟩⟩
  obtain ⟨h, hrun, -, r, h', hgcd, -, hadds, -⟩ :=
    run_gcd_exact (v := 0) (w := 1) (x := 2 ^ 40 * 6) (y := 2 ^ 35 * 9) (n := 200) hok rfl rfl rfl
      (by decide) (by decide) (by decide)
  exact ⟨h, hrun, r, h', hgcd, hadds.self⟩

end PGBigNumber.BigInteger
