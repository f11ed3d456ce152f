import PGBigNumber.Fraction.Programs

/-!
# Texts of fractions

`toString` and `toDecimal` print what the fractions stand for.
-/

namespace PGBigNumber

namespace Fraction

open BigInteger

def toString (f : Fraction) (radix : Nat) : List Char :=
  (if f.num.sign * f.den.sign = -1 then ['-'] else []) ++ toChars f.num.natAbs radix ++
    '/' :: toChars f.den.natAbs radix

def readQuotient (radix : Nat) (s : List Char) : Option ℚ := do
  let num ← denote radix (s.takeWhile (· != '/'))
  let den ← denote radix (s.dropWhile (· != '/')).tail
  if den = 0 then none else some ((num : ℚ) / den)

section

variable {f : Fraction} {radix : Nat}

private theorem slash_not_mem (hr : ValidRadix radix) {s : List Char} {v : Int}
    (h : IsNumeral radix v s) : ∀ c ∈ s, (c != '/') = true := by
  obtain ⟨ds, rfl, -, hlt, -⟩ := h
  intro c hc
  rcases List.mem_append.mp hc with hc | hc
  · split at hc
    · obtain rfl := List.mem_singleton.mp hc
      rfl
    · exact absurd hc List.not_mem_nil
  · obtain ⟨d, hd, rfl⟩ := List.mem_map.mp hc
    have hd36 : d < 36 := by
      have hlt := hlt d hd
      have hle := hr.2
      omega
    exact (by decide : ∀ d ∈ List.range 36, (digitChar d != '/') = true) d (List.mem_range.mpr hd36)

private def signed (f : Fraction) : Int :=
  if f.num.sign * f.den.sign = -1 then -|f.num| else |f.num|

private theorem signs_iff : f.num.sign * f.den.sign = -1 ↔ f.value < 0 := by
  rw [← Int.sign_mul, Int.sign_eq_neg_one_iff_neg, value_neg_iff, Int.mul_neg_iff]
  tauto

private theorem signed_text : (if f.num.sign * f.den.sign = -1 then ['-'] else []) ++
    toChars f.num.natAbs radix =
      (if signed f < 0 then ['-'] else []) ++ toChars (signed f).natAbs radix := by
  by_cases h : f.num.sign * f.den.sign = -1
  · have h0 : f.num ≠ 0 := fun h0 => by simp [h0] at h
    have hneg : signed f < 0 := by
      rw [signed, if_pos h]
      exact Int.neg_neg_of_pos (abs_pos.mpr h0)
    rw [if_pos h, if_pos hneg, signed, if_pos h, Int.natAbs_neg, Int.natAbs_abs]
  · have hnonneg : ¬ signed f < 0 := by
      rw [signed, if_neg h]
      exact Int.not_lt.mpr (abs_nonneg _)
    rw [if_neg h, if_neg hnonneg, signed, if_neg h, Int.natAbs_abs]

private theorem signed_value : (signed f : ℚ) / (|f.den| : Int) = f.value := by
  have habs : |(f.num : ℚ)| / |(f.den : ℚ)| = |f.value| := by rw [value, abs_div]
  rw [signed, Int.cast_abs]
  split
  next h =>
    rw [Int.cast_neg, Int.cast_abs, neg_div, habs, abs_of_neg (signs_iff.mp h), neg_neg]
  next h =>
    rw [Int.cast_abs, habs, abs_of_nonneg (not_lt.mp fun hneg => h (signs_iff.mpr hneg))]

/-- What is printed reads back as the value, whatever the signs are. -/
theorem readQuotient_toString (hr : ValidRadix radix) (hden : f.den ≠ 0) :
    readQuotient radix (f.toString radix) = some f.value := by
  have hnum := isNumeral_toChars hr (signed f)
  have habs : (f.den.natAbs : Int) = |f.den| := (Int.abs_eq_natAbs _).symm
  have hden' : IsNumeral radix |f.den| (toChars f.den.natAbs radix) := by
    have hnumeral := isNumeral_toChars hr |f.den|
    rwa [if_neg (Int.not_lt.mpr (abs_nonneg _)), List.nil_append, Int.natAbs_abs] at hnumeral
  rw [← signed_text] at hnum
  have hall := slash_not_mem hr hnum
  rw [readQuotient, toString, List.takeWhile_append_of_pos hall, List.dropWhile_append_of_pos hall]
  have hslash : ('/' != '/') = false := rfl
  rw [List.takeWhile_cons_of_neg (by simp), List.append_nil, List.dropWhile_cons_of_neg (by simp),
    List.tail_cons, denote_isNumeral hr hnum, denote_isNumeral hr hden']
  simp only [Option.bind_eq_bind, Option.bind_some]
  rw [if_neg (abs_ne_zero.mpr hden), signed_value]

end

namespace Obj

variable {u u' : Values} {f : Obj} {F : Fraction} {radix : Nat}

theorem toString_plain : Plain (toString f radix) :=
  plain_cmp not_topLimbZero_zero fun _ => plain_cmp not_topLimbZero_zero fun _ =>
    plain_make trivial fun _ => plain_toString fun _ => plain_make trivial fun _ =>
      plain_toString fun _ => plain_exec trivial (plain_exec trivial trivial)

private theorem cmp_zero (x : Int) : (if x < 0 then -1 else if x = 0 then 0 else 1) = x.sign := by
  rcases Int.lt_trichotomy x 0 with hneg | rfl | hpos
  · rw [if_pos hneg, Int.sign_eq_neg_one_of_neg hneg]
  · rfl
  · rw [if_neg (by omega), if_neg (by omega), Int.sign_eq_one_of_pos hpos]

private theorem textOf_abs (x : Int) : textOf |x| radix = toChars x.natAbs radix := by
  rw [textOf, if_neg (by simp), List.nil_append, Int.natAbs_abs]

theorem toString_ends (htidy : u.Tidy) (hf : Holds u f F) (hr : ValidRadix radix) :
    (toString f radix).Ends evalCall u fun s u' =>
      s = Fraction.toString F radix ∧ u'.value = u.value := by
  have hnum := htidy.lt hf.num
  have hden := htidy.lt hf.den
  have hdne : f.den ≠ u.live := by omega
  refine ends_cmp hf.num rfl (ends_cmp hf.den rfl ?_)
  refine ends_make (t := u.push |F.num|) ?_ ?_ ?_
  · simpa [Stmt.objects] using hnum
  · simp [Stmt.meaning, result, hf.num]
  refine ends_toString (htidy.push _) (Function.update_self ..) hr ?_
  refine ends_make (t := (u.push |F.num|).push |F.den|) ?_ ?_ ?_
  · simp [Stmt.objects, Values.push]
    omega
  · simp [Stmt.meaning, result, Values.push, Function.update_of_ne hdne, hf.den]
  refine ends_toString ((htidy.push _).push _) (Function.update_self ..) hr ?_
  refine ends_exec ?_ rfl (ends_exec ?_ rfl (.ret ⟨?_, ?_⟩))
  · simp [Stmt.objects, Values.push]
  · simp [Stmt.objects, Values.push, Values.put]
  · rw [textOf_abs, textOf_abs, Fraction.toString, ← cmp_zero, ← cmp_zero]
    rfl
  · have hnone := htidy u.live (Nat.le_refl _)
    have hnone' := htidy (u.live + 1) (Nat.le_succ _)
    simp only [Values.put, Values.push]
    funext k
    simp only [Function.update_apply]
    grind

private theorem validRadix_ten : ValidRadix 10 := by decide

private theorem readText_pow (k : Nat) :
    readText 0 ('1' :: List.replicate k '0') 10 = some (ofText ('1' :: List.replicate k '0')) := by
  have hall : ('1' :: List.replicate k '0').all (isDigit 10) = true := by
    rw [List.all_cons, List.all_replicate]
    simp [show isDigit 10 '1' = true from rfl, show isDigit 10 '0' = true from rfl]
  have hunsigned : unsigned ('1' :: List.replicate k '0') = '1' :: List.replicate k '0' :=
    if_neg (by simp)
  obtain ⟨x, hx⟩ : ∃ x, denote 10 ('1' :: List.replicate k '0') = some x := by
    rw [denote, hunsigned, if_pos ⟨List.cons_ne_nil _ _, hall⟩]
    exact ⟨_, rfl⟩
  have hten : (10 : Int).toNat = 10 := rfl
  by_cases hrej : Rejected 10 ('1' :: List.replicate k '0')
  · rw [readText, if_pos (by rw [hten]; simp [hrej]), ofText, if_pos hrej]
  · rw [readText, if_neg (by rw [hten]; simp [hrej]), ofText, if_neg hrej, hten, hx,
      Option.getD_some]

theorem decimals_plain {q k : Nat} : Plain (decimals f q k) :=
  plain_make trivial fun _ => plain_make trivial fun _ => plain_make trivial fun _ =>
    plain_toString fun _ => plain_exec trivial (plain_exec trivial (plain_exec trivial trivial))

theorem toDecimal_plain {k : Int} : Plain (toDecimal f k) := by
  refine plain_make trivial fun _ => plain_make trivial fun _ => plain_make trivial fun q =>
    plain_exec trivial (plain_exec trivial (Code.Calls.bind ?_ fun _ => ?_))
  · split
    · exact decimals_plain
    · trivial
  · exact plain_make trivial fun _ => plain_toString fun _ =>
      plain_exec trivial (plain_exec trivial trivial)

/-- The decimals of the remainder `m`, as `toDecimal` has them. -/
def decimalsOf (F : Fraction) (m : Int) (k : Nat) : List Char :=
  let str := '.' :: decimalText ((m * ofText ('1' :: List.replicate k '0')).tdiv F.den)
  if k > str.length then str ++ List.replicate (k - str.length) '0' else str

theorem decimals_ends {q k : Nat} {m : Int} (htidy : u.Tidy) (hf : Holds u f F) (hden0 : F.den ≠ 0)
    (hq : u.value q = some m) : (decimals f q k).Ends evalCall u fun s u' =>
      s = decimalsOf F m k ∧ u.live ≤ u'.live ∧ u'.value = u.value := by
  have hdlt := htidy.lt hf.den
  have hqlt := htidy.lt hq
  set p := ofText ('1' :: List.replicate k '0') with hp
  set u₁ := u.push p with hu₁
  set u₂ := u₁.push (m * p) with hu₂
  set u₃ := u₂.push ((m * p).tdiv F.den) with hu₃
  have hlive₂ : u₂.live = u.live + 2 := rfl
  have htidy₃ : u₃.Tidy := ((htidy.push p).push (m * p)).push _
  refine ends_make (t := u₁) (by simp [Stmt.objects]) ?_ ?_
  · rw [Stmt.meaning, readText_pow]
    rfl
  refine ends_make (t := u₂) ?_ ?_ ?_
  · simp [Stmt.objects, Operands.objects, hu₁, Values.push]
    omega
  · have hq₁ : u₁.value q = some m := push_value_of_some htidy hq p
    have hp₁ : u₁.value u.live = some p := Function.update_self ..
    simp [Stmt.meaning, Operands.left, Operands.right, Program.Arg.value, hq₁, hp₁, BinOp.meaning, hu₂]
  refine ends_make (t := u₃) ?_ ?_ ?_
  · simp [Stmt.objects, Operands.objects, hu₂, hu₁, Values.push]
    omega
  · have hd₂ : u₂.value f.den = some F.den :=
      push_value_of_some (htidy.push p) (push_value_of_some htidy hf.den p) _
    have hm₂ : u₂.value u₁.live = some (m * p) := Function.update_self ..
    simp [Stmt.meaning, Operands.left, Operands.right, Program.Arg.value, hd₂, hm₂, BinOp.meaning, hu₃,
      hden0]
  refine ends_toString htidy₃ (Function.update_self ..) validRadix_ten ?_
  refine ends_exec ?_ rfl (ends_exec ?_ rfl (ends_exec ?_ rfl (.ret ⟨rfl, ?_, ?_⟩)))
  · simp [Stmt.objects, hu₃, Values.push]
  · simp [Stmt.objects, hu₃, hu₂, Values.push, Values.put]
  · simp [Stmt.objects, hu₃, hu₂, hu₁, Values.push, Values.put]
    omega
  · simp [hu₃, hu₂, hu₁, Values.push, Values.put]
    omega
  · have hnone := htidy u.live (Nat.le_refl _)
    have hnone' := htidy (u.live + 1) (Nat.le_succ _)
    have hnone'' := htidy (u.live + 2) (by omega)
    simp only [hu₃, hu₂, hu₁, Values.put, Values.push]
    funext k
    simp only [Function.update_apply]
    grind

theorem toDecimal_ends {k : Int} {s : List Char} (htidy : u.Tidy) (hf : Holds u f F)
    (hs : Fraction.toDecimal F k = some s) :
    (toDecimal f k).Ends evalCall u fun s' u' => s' = s ∧ u'.value = u.value := by
  rw [Fraction.toDecimal] at hs
  split at hs
  · exact absurd hs (by simp)
  next hden0 =>
  have hnum := htidy.lt hf.num
  have hden := htidy.lt hf.den
  have hdne : f.den ≠ u.live := by omega
  set m := |F.num|.tmod |F.den| with hm
  set u₁ := u.push |F.num| with hu₁
  set u₂ := u₁.push |F.den| with hu₂
  set u₃ := u₂.push m with hu₃
  have hn₂ : u₂.value u.live = some |F.num| := by simp [hu₂, hu₁, Values.push]
  have hd₂ : u₂.value (u.live + 1) = some |F.den| := by simp [hu₂, hu₁, Values.push]
  refine ends_make (t := u₁) ?_ ?_ ?_
  · simpa [Stmt.objects] using hnum
  · simp [Stmt.meaning, result, hf.num, hu₁]
  refine ends_make (t := u₂) ?_ ?_ ?_
  · simp [Stmt.objects, hu₁, Values.push]
    omega
  · simp [Stmt.meaning, result, hu₁, Values.push, Function.update_of_ne hdne, hf.den, hu₂]
  refine ends_make (t := u₃) ?_ ?_ ?_
  · simp [Stmt.objects, Operands.objects, hu₂, hu₁, Values.push]
  · rw [Stmt.meaning, Operands.left, Operands.right, Program.Arg.value, Program.Arg.value, hn₂,
      show u₂.value u₁.live = _ from hd₂]
    simp only [Option.bind_eq_bind, Option.bind_some, BinOp.meaning, if_neg (abs_ne_zero.mpr hden0)]
    rfl
  -- the remainder is left
  set u₅ := (u₃.put (u.live + 1) none).put u.live none with hu₅
  have hadds : u.Adds u₅ (u.live + 2) m := by
    refine ⟨Nat.le_add_right _ 2, Nat.lt_succ_self _, ?_⟩
    have hnone := htidy u.live (Nat.le_refl _)
    have hnone' := htidy (u.live + 1) (Nat.le_succ _)
    simp only [hu₅, hu₃, hu₂, hu₁, Values.put, Values.push]
    funext k
    simp only [Function.update_apply]
    grind
  refine ends_exec ?_ rfl (ends_exec ?_ rfl ?_)
  · simp [Stmt.objects, hu₃, hu₂, hu₁, Values.push]
  · simp [Stmt.objects, hu₃, hu₂, hu₁, Values.push, Values.put]
    omega
  change Code.Ends evalCall _ u₅ _
  have htidy₅ := hadds.tidy htidy
  have hf₅ : Holds u₅ f F := ⟨hadds.keeps htidy hf.num, hadds.keeps htidy hf.den⟩
  have hdigits : (if k > 0 then decimals f (u.live + 2) k.toNat else pure []).Ends evalCall u₅
      fun s u' => s = (if k > 0 then decimalsOf F m k.toNat else []) ∧ u₅.live ≤ u'.live ∧
        u'.value = u₅.value := by
    split
    · exact decimals_ends htidy₅ hf₅ hden0 hadds.self
    · exact .ret ⟨rfl, Nat.le_refl _, rfl⟩
  refine hdigits.bind fun digits u₆ hstate => ?_
  obtain ⟨hdig, hlive₆, hvalue₆⟩ := hstate
  have hlive₅ : u₅.live = u.live + 3 := rfl
  have htidy₆ : u₆.Tidy := fun v hv => by rw [hvalue₆, htidy₅ v (by omega)]
  refine ends_make (t := u₆.push (F.num.tdiv F.den)) ?_ ?_ ?_
  · simp [Stmt.objects, Operands.objects]
    omega
  · simp [Stmt.meaning, Operands.left, Operands.right, Program.Arg.value, hvalue₆, hf₅.num, hf₅.den,
      BinOp.meaning, hden0]
  refine ends_toString (htidy₆.push _) (Function.update_self ..) validRadix_ten ?_
  refine ends_exec ?_ rfl (ends_exec ?_ rfl (.ret ⟨?_, ?_⟩))
  · simp [Stmt.objects, Values.push]
  · simp [Stmt.objects, hu₂, hu₁, Values.push, Values.put]
    omega
  · rw [← Option.some.inj hs, hdig]
    congr 1
    dsimp only
    by_cases hk : k > 0
    · obtain ⟨n, rfl⟩ := Int.eq_ofNat_of_zero_le hk.le
      rw [if_pos hk, if_pos hk, decimalsOf]
      simp only [Int.toNat_natCast, gt_iff_lt, Nat.cast_lt]
    · rw [if_neg hk, if_neg hk]
  · have hlive₂ : ((u.push |F.num|).push |F.den|).live = u.live + 2 := rfl
    have hnone := htidy u₆.live (by omega)
    have hnone' := htidy (u.live + 2) (by omega)
    simp only [Values.put, Values.push, hvalue₆, hadds.value]
    funext k
    simp only [Function.update_apply]
    grind

end Obj

/-- Behind any program with fractions, `toString` and `toDecimal` print what they print for the
fractions, and leave the objects as they are. A text of `toString` reads back as the value. -/
theorem programs_print {stmts : List Stmt} {u : Values}
    (hok : Runs.Guarded BigInteger.step (fun h stmt => stmt.Faultless h) Heap.initial stmts)
    (hrun : stmts.foldlM Stmt.evalStep Values.initial = some u) {actions : List Action}
    {fs : List Fraction} (hfs : actions.foldlM (Action.step u) [] = some fs) :
    ∃ h, stmts.foldlM BigInteger.step Heap.initial = some h ∧
      ∃ N, ∀ n ≥ N, (runCode n [] actions).Ends Heap.answer h fun objs h' =>
        ∀ (i : Nat) (F : Fraction), fs[i]? = some F → F.den ≠ 0 → ∃ f, objs[i]? = some f ∧
          (∀ radix, ValidRadix radix → (f.toString radix).Ends Heap.answer h' fun s h'' =>
            (h''.Kept ∧ h''.values.value = h'.values.value) ∧ s = F.toString radix ∧
              readQuotient radix s = some F.value) ∧
          ∀ k, (f.toDecimal k).Ends Heap.answer h' fun s h'' =>
            (h''.Kept ∧ h''.values.value = h'.values.value) ∧ F.toDecimal k = some s := by
  obtain ⟨h, hsteps, -, N, hN⟩ := programs_simulate hok hrun hfs
  refine ⟨h, hsteps, N, fun n hn => (hN n hn).mono ?_⟩
  rintro objs h' ⟨⟨hs', hk'⟩, hlays⟩ i F hF hden
  obtain ⟨f, hf, hholds⟩ := hlays.get hF
  have htidy := hk'.values_tidy
  refine ⟨f, hf, fun radix hr => ?_, fun k => ?_⟩
  · have hends := code_exact Obj.toString_plain hs' hk' (Obj.toString_ends htidy hholds hr)
    refine hends.mono ?_
    rintro s h'' ⟨⟨-, hk''⟩, rfl, hvalue⟩
    exact ⟨⟨hk'', hvalue⟩, rfl, readQuotient_toString hr hden⟩
  · obtain ⟨s, hs⟩ : ∃ s, F.toDecimal k = some s := by
      rw [toDecimal, if_neg hden]
      exact ⟨_, rfl⟩
    refine (code_exact Obj.toDecimal_plain hs' hk' (Obj.toDecimal_ends htidy hholds hs)).mono ?_
    rintro s' h'' ⟨⟨-, hk''⟩, rfl, hvalue⟩
    exact ⟨⟨hk'', hvalue⟩, hs⟩

/-- 6 / -4. -/
theorem programs_print_negative :
    ∃ h, [Stmt.ofI64 ⟨6, by decide⟩, .ofI64 ⟨-4, by decide⟩].foldlM BigInteger.step Heap.initial =
        some h ∧
      ∃ n objs h', (runCode n [] [.make (.object 0) (.object 1)]).run Heap.answer h =
        some (objs, h') ∧ ∃ f, objs[0]? = some f ∧ ∃ h'', (f.toString 10).run Heap.answer h' =
          some (['-', '3', '/', '2'], h'') := by
  have hsix : ¬ Num.TopLimbZero 6 := by decide
  have hfour : ¬ Num.TopLimbZero (-4) := by decide
  have hok : Runs.Guarded BigInteger.step (fun h stmt => stmt.Faultless h) Heap.initial
      [Stmt.ofI64 ⟨6, by decide⟩, .ofI64 ⟨-4, by decide⟩] :=
    ⟨hsix, fun _ _ => ⟨hfour, fun _ _ => trivial⟩⟩
  have hmake : Fraction.make 6 (-4) = some ⟨3, -2⟩ := (fix_eq (f := ⟨6, -4⟩) (by decide)).trans rfl
  have hfs : [Action.make (.object 0) (.object 1)].foldlM
      (Action.step ((Values.initial.push 6).push (-4))) [] = some [⟨3, -2⟩] := by
    change (Fraction.make 6 (-4)).bind _ >>= _ = _
    rw [hmake]
    rfl
  obtain ⟨h, hrun, N, hN⟩ := programs_print hok rfl hfs
  obtain ⟨objs, h', hcode, hprint⟩ := hN N (Nat.le_refl N)
  obtain ⟨f, hf, htext, -⟩ := hprint 0 ⟨3, -2⟩ rfl (by decide)
  obtain ⟨s, h'', hs, -, rfl, -⟩ := htext 10 (by decide)
  exact ⟨h, hrun, N, objs, h', hcode, f, hf, h'', hs⟩

end Fraction

end PGBigNumber
