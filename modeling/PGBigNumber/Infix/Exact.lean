import PGBigNumber.Infix.Objects

/-!
# Evaluation on objects gives the values of the trees

Each callback does to objects what it does to integers, whatever the bound on the rounds of its loop
is, if it is large enough.
-/

namespace PGBigNumber.Infix

open Program (Call evalCall Op ends_perform ends_make ends_made)

/-- A function made the object `r` with the integer `x`. Only its variables may have changed. -/
structure Returns (u u' : Values) (vars : List Nat) (r : Nat) (x : Int) : Prop where
  old : u.live ≤ r
  new : r < u'.live
  self : u'.value r = some x
  frame : ∀ i, i ∉ vars → i ≠ r → u'.value i = u.value i

section

variable {u u' : Values} {vars : List Nat} {r left right val i n : Nat} {x y z : Int} {op : Op}

theorem Returns.tidy (h : Returns u u' vars r x) (htidy : u.Tidy) (hvars : ∀ i ∈ vars, i < u.live) :
    u'.Tidy := by
  intro i hi
  have hold := h.old
  have hnew := h.new
  have hni : i ∉ vars := fun hmem => by
    have hlt := hvars i hmem
    omega
  rw [h.frame i hni (by omega), htidy i (by omega)]

theorem returnBool_ends (b : Bool) (vars : List Nat) :
    (returnBool b).Ends evalCall u fun r u' => Returns u u' vars r (ofBool b) := by
  refine ends_made (Program.step_createI64 _) ⟨Nat.le_refl _, Nat.lt_succ_self _, ?_, fun i _ hi => ?_⟩
  · have hb : ((boolI64 b : Int)) = ofBool b := by cases b <;> rfl
    rw [← hb]
    exact Function.update_self ..
  · exact Function.update_of_ne hi ..

theorem default_ends (vars : List Nat) :
    (Program.make .create).Ends evalCall u fun r u' => Returns u u' vars r 0 :=
  ends_made Program.step_create ⟨Nat.le_refl _, Nat.lt_succ_self _, Function.update_self ..,
    fun _ _ hi => Function.update_of_ne hi ..⟩

theorem move_ends (htidy : u.Tidy) (hx : u.value i = some x) (hi : i ∈ vars) :
    (Program.make (.createMove i)).Ends evalCall u fun r u' => Returns u u' vars r x := by
  have hlt := htidy.lt hx
  refine ends_made (Program.step_createMove htidy hx) ⟨Nat.le_refl _, Nat.lt_succ_self _, ?_, ?_⟩
  · change Function.update (Function.update u.value u.live (some x)) i none u.live = _
    rw [Function.update_of_ne hlt.ne', Function.update_self]
  · intro j hj hne
    have hji : j ≠ i := fun hji => hj (hji ▸ hi)
    change Function.update (Function.update u.value u.live (some x)) i none j = _
    rw [Function.update_of_ne hji, Function.update_of_ne hne]

theorem changed_ends (htidy : u.Tidy) (hlt : i < u.live) (hi : i ∈ vars)
    (hstep : u.step op = some (u.set i z)) :
    (Program.perform op >>= fun _ => Program.make (.createMove i)).Ends evalCall u
      fun r u' => Returns u u' vars r z := by
  refine ends_perform hstep ?_
  have hz : (u.set i z).value i = some z := Function.update_self ..
  refine (move_ends (htidy.set hlt z) hz hi).mono fun r u' h => ⟨h.old, h.new, h.self, ?_⟩
  intro j hj hne
  have hji : j ≠ i := fun hji => hj (hji ▸ hi)
  rw [h.frame j hj hne]
  exact Function.update_of_ne hji ..

/-- The two variables of a loop hold `z` and `y`; all other objects are as in `u`. -/
structure Loop (u : Values) (count res : Nat) (z y : Int) (u' : Values) : Prop where
  live : u'.live = u.live
  value : u'.value = Function.update (Function.update u.value count (some z)) res (some y)

theorem Loop.tidy {count res : Nat} (h : Loop u count res z y u') (htidy : u.Tidy)
    (hcount : count < u.live) (hres : res < u.live) : u'.Tidy := by
  intro i hi
  have hlive := h.live
  rw [h.value, Function.update_of_ne (by omega), Function.update_of_ne (by omega),
    htidy i (by omega)]

theorem Loop.count {count res : Nat} (h : Loop u count res z y u') (hne : count ≠ res) :
    u'.value count = some z := by
  rw [h.value, Function.update_of_ne hne, Function.update_self]

theorem Loop.res {count res : Nat} (h : Loop u count res z y u') : u'.value res = some y := by
  rw [h.value, Function.update_self]

theorem round_ends {count res factor : Nat} (htidy : u.Tidy) (hcount : count < u.live)
    (hres : res < u.live) (hne : count ≠ res) (h : Loop u count res z y u')
    (hx : u'.value factor = some x) :
    (Program.perform (.mulAssign res (.big factor)) >>= fun _ => Program.perform (.dec count)).Ends
      evalCall u' fun _ u'' => Loop u count res (z - 1) (y * x) u'' := by
  have htidy' := h.tidy htidy hcount hres
  have hlive := h.live
  have hmul : u'.step (.mulAssign res (.big factor)) = some (u'.set res (y * x)) := by
    refine Program.step_binary htidy' h.res hx rfl rfl rfl rfl ?_
    rw [Op.meaning, h.res, Program.Arg.value, hx]
    rfl
  have hz : (u'.set res (y * x)).value count = some z :=
    (Function.update_of_ne hne ..).trans (h.count hne)
  have hdec : (u'.set res (y * x)).step (.dec count) =
      some ((u'.set res (y * x)).set count (z - 1)) :=
    Program.step_unary (f := (· - 1)) (htidy'.set (by omega) _) hz rfl rfl rfl rfl rfl
  refine ends_perform hmul (Program.ends_last hdec ⟨h.live, ?_⟩)
  simp only [Values.set, h.value]
  funext k
  simp only [Function.update_apply]
  grind

theorem loopResult_ends {count res : Nat} (htidy : u.Tidy) (hcount : count < u.live)
    (hcount' : count ∈ vars) (hnew : res = u.live) (h : Loop (u.push 1) count res z y u') :
    (do
      let result ← Program.make (.createMove res)
      Program.drop res
      return result : Code Call.Answer Nat).Ends evalCall u' fun r u'' => Returns u u'' vars r y := by
  have hlive : u'.live = u.live + 1 := h.live
  have htidy' : u'.Tidy := h.tidy (htidy.push 1) (Nat.lt_succ_of_lt hcount)
    (hnew ▸ Nat.lt_succ_self _)
  refine ends_make (Program.step_createMove htidy' h.res) ?_
  have hdrop : ((u'.push y).lose res).step (.destroy res) =
      some (((u'.push y).lose res).lose res) := by
    refine Program.step_destroy ?_
    simp only [Values.push, Values.lose]
    omega
  refine ends_perform hdrop (.ret ⟨by omega, Nat.lt_succ_self _, ?_, fun i hi hne => ?_⟩)
  · simp only [Values.push, Values.lose, Function.update_apply]
    grind
  · have hic : i ≠ count := fun hic => hi (hic ▸ hcount')
    have hnone := htidy u.live (Nat.le_refl _)
    simp only [Values.push, Values.lose, h.value, Function.update_apply]
    grind

theorem powCode_ends (htidy : u.Tidy) (hx : u.value left = some x) (hy : u.value right = some y)
    (hne : left ≠ right) (hn : y.toNat ≤ n) : (powCode n left right).Ends evalCall u
      fun r u' => Returns u u' [left, right] r (if y = 0 then 0 else powLoop x y.toNat 1) := by
  have hleft := htidy.lt hx
  have hright := htidy.lt hy
  refine Program.ends_isZero hy ?_
  by_cases h0 : y = 0
  · rw [if_pos h0, decide_eq_true h0]
    exact returnBool_ends false _
  rw [if_neg h0, decide_eq_false h0]
  refine ends_make (Program.step_createI64 _) ?_
  have hstart : Loop (u.push 1) right u.live y 1 (u.push 1) := by
    refine ⟨rfl, ?_⟩
    simp only [Values.push]
    funext k
    simp only [Function.update_apply]
    grind
  have hfactor : ∀ {z y u'}, Loop (u.push 1) right u.live z y u' → u'.value left = some x := by
    intro z y u' h
    simp only [h.value, Values.push, Function.update_apply]
    grind
  have hloop : (Code.loop n (do return decide ((← Program.cmpI64 right (boolI64 false)) > 0)) do
      Program.perform (.mulAssign u.live (.big left))
      Program.perform (.dec right) : Code Call.Answer Unit).Ends evalCall (u.push 1) fun _ u' =>
        ∃ z, Loop (u.push 1) right u.live z (powLoop x y.toNat 1) u' := by
    refine Code.Ends.loop (I := fun m u' => ∃ z w, Loop (u.push 1) right u.live z w u' ∧
      z.toNat = m ∧ powLoop x m w = powLoop x y.toNat 1) ?_ hn ⟨y, 1, hstart, rfl, rfl⟩
    rintro m u' ⟨z, w, h, hm, hw⟩
    refine Program.ends_cmpI64 (h.count hright.ne) (.ret ?_)
    have hzero : ((boolI64 false : Int)) = 0 := rfl
    rw [hzero]
    by_cases hz : 0 < z
    · have hcmp : decide (Program.compare z 0 > 0) = true := by
        rw [Program.compare, if_neg (by omega), if_neg (by omega)]
        rfl
      rw [hcmp, if_pos rfl]
      have hm' : m = (z - 1).toNat + 1 := by omega
      refine ⟨(z - 1).toNat, by omega, ?_⟩
      refine (round_ends (htidy.push 1) (Nat.lt_succ_of_lt hright) (Nat.lt_succ_self _) hright.ne h
        (hfactor h)).mono fun _ u'' h' => ⟨z - 1, w * x, h', rfl, ?_⟩
      rw [← hw, hm', powLoop]
    · have hcmp : decide (Program.compare z 0 > 0) = false := by
        rw [Program.compare]
        split
        · rfl
        · rw [if_pos (by omega)]
          rfl
      have hm' : m = 0 := by omega
      rw [hcmp]
      refine ⟨z, ?_⟩
      rw [← hw, hm', powLoop]
      exact h
  refine hloop.bind fun _ u' hend => ?_
  obtain ⟨z, h⟩ := hend
  exact loopResult_ends htidy hright (show right ∈ [left, right] by simp) rfl h

theorem factCode_ends (htidy : u.Tidy) (hx : u.value val = some x) (hn : x.toNat ≤ n) :
    (factCode n val).Ends evalCall u fun r u' => Returns u u' [val] r
      (if x = 0 then 1 else if x < 0 then 0 else factLoop x.toNat 1) := by
  have hval := htidy.lt hx
  refine Program.ends_isZero hx ?_
  by_cases h0 : x = 0
  · rw [if_pos h0, decide_eq_true h0]
    exact returnBool_ends true _
  rw [if_neg h0, decide_eq_false h0]
  refine Program.ends_isNegative hx ?_
  by_cases hneg : x < 0
  · rw [if_pos hneg, decide_eq_true hneg]
    exact returnBool_ends false _
  rw [if_neg hneg, decide_eq_false hneg]
  refine ends_make (Program.step_createI64 _) ?_
  have hstart : Loop (u.push 1) val u.live x 1 (u.push 1) := by
    refine ⟨rfl, ?_⟩
    simp only [Values.push]
    funext k
    simp only [Function.update_apply]
    grind
  have hloop : (Code.loop n (do return !(← Program.isOne val)) do
      Program.perform (.mulAssign u.live (.big val))
      Program.perform (.dec val) : Code Call.Answer Unit).Ends evalCall (u.push 1) fun _ u' =>
        ∃ z, Loop (u.push 1) val u.live z (factLoop x.toNat 1) u' := by
    refine Code.Ends.loop (I := fun m u' => ∃ z w, Loop (u.push 1) val u.live z w u' ∧ 0 < z ∧
      z.toNat = m ∧ factLoop m w = factLoop x.toNat 1) ?_ hn ⟨x, 1, hstart, by omega, rfl, rfl⟩
    rintro m u' ⟨z, w, h, hz, hm, hw⟩
    refine Program.ends_isOne (h.count hval.ne) (.ret ?_)
    by_cases hone : z = 1
    · rw [decide_eq_true hone]
      have hm' : m = 1 := by omega
      refine ⟨z, ?_⟩
      rw [← hw, hm', factLoop]
      exact h
    · rw [decide_eq_false hone, Bool.not_false, if_pos rfl]
      obtain ⟨k, rfl⟩ : ∃ k : Nat, z = (k + 2 : Nat) := ⟨z.toNat - 2, by omega⟩
      have hm' : m = k + 2 := by omega
      refine ⟨k + 1, by omega, ?_⟩
      refine (round_ends (htidy.push 1) (Nat.lt_succ_of_lt hval) (Nat.lt_succ_self _) hval.ne h
        (h.count hval.ne)).mono fun _ u'' h' => ⟨_, _, h', by omega, by omega, ?_⟩
      rw [← hw, hm', factLoop]
  refine hloop.bind fun _ u' hend => ?_
  obtain ⟨z, h⟩ := hend
  exact loopResult_ends htidy hval (List.mem_singleton_self val) rfl h

private theorem compare_neg_iff (x y : Int) : Program.compare x y < 0 ↔ x < y := by
  unfold Program.compare
  split
  · simp [*]
  · split <;> simp [*]

private theorem compare_eq_zero_iff (x y : Int) : Program.compare x y = 0 ↔ x = y := by
  unfold Program.compare
  split
  · simp only [false_iff, show (-1 : Int) = 0 ↔ False by decide]
    omega
  · split <;> simp [*]

private theorem comparison_ends {q : Prop} [Decidable q] {f : Int → Bool}
    (hx : u.value left = some x) (hy : u.value right = some y)
    (hf : f (Program.compare x y) = decide q) (hz : ofBool (decide q) = z) :
    (Program.cmp left right >>= fun c => returnBool (f c)).Ends evalCall u
      fun r u' => Returns u u' [left, right] r z :=
  Program.ends_cmp hx hy (hz ▸ hf ▸ returnBool_ends _ _)

private theorem toNat_u64 (y : Int) : (UInt64.ofNat (y % 2 ^ 64).toNat).toNat = toU64 y := by
  rw [UInt64.toNat_ofNat', toU64]
  omega

theorem binOpResult_ends {nodeType : TokenType} (htidy : u.Tidy) (hx : u.value left = some x)
    (hy : u.value right = some y) (hne : left ≠ right)
    (hz : (binOpEvalCallback [pure x, pure y] nodeType : Eval Int) = .ok z) (hn : y.toNat ≤ n) :
    (binOpResult n nodeType left right).Ends evalCall u
      fun r u' => Returns u u' [left, right] r z := by
  have hlt := htidy.lt hx
  have hmem : left ∈ [left, right] := by simp
  have hchanged {op : Op} {w : Int} (hw : w = z) (hreads : op.reads = [left, right])
      (hwrites : op.writes = [left]) (hloses : op.loses = []) (hallowed : op.allowed = true)
      (hm : op.meaning u = some (u.set left w)) :
      (Program.perform op >>= fun _ => Program.make (.createMove left)).Ends evalCall u
        fun r u' => Returns u u' [left, right] r z := by
    subst hw
    exact changed_ends htidy hlt hmem
      (Program.step_binary htidy hx hy hreads hwrites hloses hallowed hm)
  cases nodeType with
  | or =>
      refine hchanged (Except.ok.inj hz) rfl rfl rfl rfl ?_
      rw [Op.meaning, hx, Program.Arg.value, hy]
      rfl
  | xor =>
      refine hchanged (Except.ok.inj hz) rfl rfl rfl rfl ?_
      rw [Op.meaning, hx, Program.Arg.value, hy]
      rfl
  | and =>
      refine hchanged (Except.ok.inj hz) rfl rfl rfl rfl ?_
      rw [Op.meaning, hx, Program.Arg.value, hy]
      rfl
  | add =>
      refine hchanged (Except.ok.inj hz) rfl rfl rfl rfl ?_
      rw [Op.meaning, hx, Program.Arg.value, hy]
      rfl
  | sub =>
      refine hchanged (Except.ok.inj hz) rfl rfl rfl rfl ?_
      rw [Op.meaning, hx, Program.Arg.value, hy]
      rfl
  | mul =>
      refine hchanged (Except.ok.inj hz) rfl rfl rfl rfl ?_
      rw [Op.meaning, hx, Program.Arg.value, hy]
      rfl
  | div =>
      rw [binOpEvalCallback] at hz
      change (if y = 0 then throw (.status .divBy0) else pure (x.tdiv y) : Eval Int) = .ok z at hz
      split at hz
      · exact absurd hz (by rintro ⟨⟩)
      next h0 =>
      refine hchanged (Except.ok.inj hz) rfl rfl rfl rfl ?_
      rw [Op.meaning, hx, Program.Arg.divisor, Program.Arg.value, hy, Option.bind_eq_bind,
        Option.bind_some, Option.bind_eq_bind, Option.bind_some, if_neg h0]
      rfl
  | equ => exact comparison_ends hx hy (decide_eq_decide.mpr (compare_eq_zero_iff x y)) (Except.ok.inj hz)
  | nequ =>
      exact comparison_ends hx hy (decide_eq_decide.mpr (not_congr (compare_eq_zero_iff x y)))
        (Except.ok.inj hz)
  | lt => exact comparison_ends hx hy (decide_eq_decide.mpr (compare_neg_iff x y)) (Except.ok.inj hz)
  | le =>
      have hle : Program.compare x y ≤ 0 ↔ x ≤ y := by
        have hneg := compare_neg_iff x y
        have hzero := compare_eq_zero_iff x y
        omega
      exact comparison_ends hx hy (decide_eq_decide.mpr hle) (Except.ok.inj hz)
  | gt =>
      have hgt : Program.compare x y > 0 ↔ x > y := by
        have hneg := compare_neg_iff x y
        have hzero := compare_eq_zero_iff x y
        omega
      exact comparison_ends hx hy (decide_eq_decide.mpr hgt) (Except.ok.inj hz)
  | ge =>
      have hge : Program.compare x y ≥ 0 ↔ x ≥ y := by
        have hneg := compare_neg_iff x y
        omega
      exact comparison_ends hx hy (decide_eq_decide.mpr hge) (Except.ok.inj hz)
  | shiftLeft =>
      refine Program.ends_toU64 hy (changed_ends htidy hlt hmem ?_)
      refine (Program.step_unary (f := (· * 2 ^ _)) htidy hx rfl rfl rfl rfl rfl).trans ?_
      rw [toNat_u64]
      exact congrArg (fun w => some (u.set left w)) (Except.ok.inj hz)
  | shiftRight =>
      refine Program.ends_toU64 hy (changed_ends htidy hlt hmem ?_)
      refine (Program.step_unary (f := (· / 2 ^ _)) htidy hx rfl rfl rfl rfl rfl).trans ?_
      rw [toNat_u64]
      exact congrArg (fun w => some (u.set left w)) (Except.ok.inj hz)
  | pow =>
      refine (powCode_ends htidy hx hy hne hn).mono fun r u' h => ?_
      change (if y = 0 then pure 0 else pure (powLoop x y.toNat 1) : Eval Int) = .ok z at hz
      split at hz
      next h0 =>
        rw [if_pos h0] at h
        exact Except.ok.inj hz ▸ h
      next h0 =>
        rw [if_neg h0] at h
        exact Except.ok.inj hz ▸ h
  | _ => exact Except.ok.inj hz ▸ default_ends _

theorem unaryOpResult_ends {nodeType : TokenType} (htidy : u.Tidy) (hx : u.value val = some x)
    (hz : (unaryOpEvalCallback [pure x] nodeType : Eval Int) = .ok z) (hn : x.toNat ≤ n) :
    (unaryOpResult n nodeType val).Ends evalCall u fun r u' => Returns u u' [val] r z := by
  have hlt := htidy.lt hx
  have hmem : val ∈ [val] := List.mem_singleton_self val
  cases nodeType with
  | add => exact Except.ok.inj hz ▸ move_ends htidy hx hmem
  | sub =>
      refine changed_ends htidy hlt hmem ?_
      refine (Program.step_unary (f := (-·)) htidy hx rfl rfl rfl rfl rfl).trans ?_
      exact congrArg (fun w => some (u.set val w)) (Except.ok.inj hz)
  | not =>
      refine changed_ends htidy hlt hmem ?_
      refine (Program.step_unary (f := (-· - 1)) htidy hx rfl rfl rfl rfl rfl).trans ?_
      exact congrArg (fun w => some (u.set val w)) (Except.ok.inj hz)
  | fact =>
      refine (factCode_ends htidy hx hn).mono fun r u' h => ?_
      change (if x = 0 then pure 1 else if x < 0 then pure 0 else pure (factLoop x.toNat 1) :
        Eval Int) = .ok z at hz
      by_cases h0 : x = 0
      · rw [if_pos h0] at h hz
        exact Except.ok.inj hz ▸ h
      by_cases hneg : x < 0
      · rw [if_neg h0, if_pos hneg] at h hz
        exact Except.ok.inj hz ▸ h
      · rw [if_neg h0, if_neg hneg] at h hz
        exact Except.ok.inj hz ▸ h
  | _ => exact Except.ok.inj hz ▸ default_ends _

theorem dropAll_ends {u₀ : Values} (htidy₀ : u₀.Tidy) (hold : u₀.live ≤ r) (hr : r < u.live)
    (hself : u.value r = some x) (hvars : ∀ i ∈ vars, u₀.live ≤ i ∧ i < u.live ∧ i ≠ r)
    (hframe : ∀ i, i ∉ vars → i ≠ r → u.value i = u₀.value i) :
    (dropAll vars).Ends evalCall u fun _ u' => u₀.Adds u' r x := by
  induction vars generalizing u with
  | nil =>
      refine .ret ⟨hold, hr, ?_⟩
      funext i
      rw [Function.update_apply]
      split
      next hi => rw [hi, hself]
      next hi => exact hframe i List.not_mem_nil hi
  | cons j vars ih =>
      obtain ⟨hj₀, hj, hjr⟩ := hvars j List.mem_cons_self
      refine ends_perform (Program.step_destroy hj) (ih hr ?_ ?_ ?_)
      · exact (Function.update_of_ne hjr.symm ..).trans hself
      · exact fun i hi => hvars i (List.mem_cons_of_mem j hi)
      · intro i hi hir
        change Function.update u.value j none i = _
        rw [Function.update_apply]
        split
        next hij => rw [hij, htidy₀ j hj₀]
        next hij => exact hframe i (by simp [hij, hi]) hir

end

/-- The nodes of the tree and the symbols hold what their objects hold. -/
structure Env.Fits (env : Env) (table : SymbolTable) (node : ExprNode) (u : Values) : Prop where
  literal : ∀ k v sym ch, ExprNode.Reaches node (.mk k .val .literal v sym ch) →
    u.value (env.val k) = some v
  constant : ∀ name v, table name = some (.value v) → u.value (env.constant name) = some v

/-- The registered functions do to objects what they do to integers. They may change their
arguments. -/
def Env.Implements (env : Env) (table : SymbolTable) : Prop :=
  ∀ name f g, table name = some (.func f) → f.nativeCall = some g → ∀ (u : Values) args xs,
    u.Tidy → args.Nodup → List.Forall₂ (fun i x => u.value i = some x) args xs →
      (env.nativeCall name args).Ends evalCall u fun r u' => Returns u u' args r (g xs)

/-- With enough rounds the evaluation of the tree on objects makes one with the integer `x`. -/
def Computes (env : Env) (table : SymbolTable) (node : ExprNode) (x : Int) : Prop :=
  ∃ N, ∀ n ≥ N, ∀ u : Values, u.Tidy → env.Fits table node u →
    (evalCode env table n node).Ends evalCall u fun r u' => u.Adds u' r x

section

variable {env : Env} {table : SymbolTable} {node c : ExprNode} {children : List ExprNode}
  {u u' : Values} {r k i : Nat} {x : Int} {cb : EvalCallback} {ty : TokenType} {val : Int}
  {sym : Option SymbolName}

theorem Env.Fits.adds (h : env.Fits table node u) (htidy : u.Tidy) (ha : u.Adds u' r x) :
    env.Fits table node u' :=
  ⟨fun k v sym ch hk => ha.keeps htidy (h.literal k v sym ch hk),
    fun name v hv => ha.keeps htidy (h.constant name v hv)⟩

theorem Env.Fits.child (h : env.Fits table (.mk k cb ty val sym children) u) (hc : c ∈ children) :
    env.Fits table c u :=
  ⟨fun k v sym ch hk => h.literal k v sym ch (.child hc hk), h.constant⟩

theorem childrenCode_eq_map (n : Nat) (children : List ExprNode) :
    childrenCode env table n children = children.map (evalCode env table n) := by
  induction children with
  | nil => rfl
  | cons c children ih => rw [childrenCode, ih, List.map_cons]

private theorem bind_ok {α β : Type} {a : Eval α} {f : α → Eval β} {b : β}
    (h : a >>= f = .ok b) : ∃ v, a = .ok v ∧ f v = .ok b := by
  cases a with
  | ok v => exact ⟨v, rfl, h⟩
  | error e => exact absurd h (by rintro ⟨⟩)

def ChildrenCompute (env : Env) (table : SymbolTable) (children : List ExprNode) : Prop :=
  ∀ c ∈ children, ∀ x, evalCallback table c = .ok x → Computes env table c x

theorem childCode_ends (ih : ChildrenCompute env table children)
    (h : evalChild (evalChildren table children) i = .ok x) :
    ∃ N, ∀ n ≥ N, ∀ u : Values, u.Tidy → (∀ c ∈ children, env.Fits table c u) →
      (childCode (childrenCode env table n children) i).Ends evalCall u
        fun r u' => u.Adds u' r x := by
  rw [evalChildren_eq_map, evalChild, List.getElem?_map] at h
  cases hc : children[i]? with
  | none =>
      rw [hc] at h
      exact absurd h (by rintro ⟨⟩)
  | some c =>
      rw [hc] at h
      have hmem := List.mem_of_getElem? hc
      obtain ⟨N, hN⟩ := ih c hmem x h
      refine ⟨N, fun n hn u htidy hfits => ?_⟩
      rw [childrenCode_eq_map, childCode, List.getElem?_map, hc]
      exact hN n hn u htidy (hfits c hmem)

theorem ifElseNode_ends (ih : ChildrenCompute env table children)
    (h : ifElseNodeEvalCallback (evalChildren table children) = .ok x) :
    ∃ N, ∀ n ≥ N, ∀ u : Values, u.Tidy → (∀ c ∈ children, env.Fits table c u) →
      (ifElseNodeCode (childrenCode env table n children)).Ends evalCall u
        fun r u' => u.Adds u' r x := by
  obtain ⟨c, hc, h⟩ := bind_ok h
  obtain ⟨N, hN⟩ := childCode_ends ih hc
  obtain ⟨N', hN'⟩ : ∃ N, ∀ n ≥ N, ∀ u : Values, u.Tidy → (∀ c ∈ children, env.Fits table c u) →
      (if !decide (c = 0) then childCode (childrenCode env table n children) 1
        else childCode (childrenCode env table n children) 2).Ends evalCall u
          fun r u' => u.Adds u' r x := by
    by_cases h0 : c = 0
    · rw [if_neg (not_not.mpr h0)] at h
      simpa [h0] using childCode_ends ih h
    · rw [if_pos h0] at h
      simpa [h0] using childCode_ends ih h
  refine ⟨max N N', fun n hn u htidy hfits => ?_⟩
  refine (hN n (le_of_max_le_left hn) u htidy hfits).bind fun cond u₁ hcond => ?_
  have htidy₁ := hcond.tidy htidy
  have hfits₁ : ∀ c ∈ children, env.Fits table c u₁ := fun c hc => (hfits c hc).adds htidy hcond
  have hbranch : (do
      if !(← Program.isZero cond) then childCode (childrenCode env table n children) 1
        else childCode (childrenCode env table n children) 2 : Code Call.Answer Nat).Ends evalCall u₁
          fun r u' => u₁.Adds u' r x :=
    Program.ends_isZero hcond.self (hN' n (le_of_max_le_right hn) u₁ htidy₁ hfits₁)
  refine hbranch.bind fun r u₂ hr => ?_
  have hcond₀ := hcond.old
  have hcond₁ := hcond.new
  have hr₁ := hr.old
  have hr₂ := hr.new
  refine (dropAll_ends htidy (by omega) hr₂ hr.self (fun i hi => ?_) fun i hi hir => ?_).bind
    fun _ u₃ hadds => .ret hadds
  · rw [List.mem_singleton.mp hi]
    omega
  · rw [hr.value, Function.update_of_ne hir, hcond.value, Function.update_of_ne (by simpa using hi)]

theorem binOp_ends (ih : ChildrenCompute env table children)
    (h : binOpEvalCallback (evalChildren table children) ty = .ok x) :
    ∃ N, ∀ n ≥ N, ∀ u : Values, u.Tidy → (∀ c ∈ children, env.Fits table c u) →
      (binOpCode (childrenCode env table n children) n ty).Ends evalCall u
        fun r u' => u.Adds u' r x := by
  obtain ⟨l, hl, h⟩ := bind_ok h
  obtain ⟨m, hm, h⟩ := bind_ok h
  obtain ⟨N, hN⟩ := childCode_ends ih hl
  obtain ⟨N', hN'⟩ := childCode_ends ih hm
  refine ⟨max (max N N') m.toNat, fun n hn u htidy hfits => ?_⟩
  have hnN : N ≤ n := by omega
  have hnN' : N' ≤ n := by omega
  refine (hN n hnN u htidy hfits).bind fun left u₁ hleft => ?_
  have htidy₁ := hleft.tidy htidy
  refine (hN' n hnN' u₁ htidy₁ fun c hc => (hfits c hc).adds htidy hleft).bind
    fun right u₂ hright => ?_
  have htidy₂ := hright.tidy htidy₁
  have hlr : left ≠ right := by
    have hnew := hleft.new
    have hold := hright.old
    omega
  refine (binOpResult_ends htidy₂ (hright.keeps htidy₁ hleft.self) hright.self hlr h
    (by omega)).bind fun r u₃ hr => ?_
  have hleft₀ := hleft.old
  have hleft₁ := hleft.new
  have hright₁ := hright.old
  have hright₂ := hright.new
  have hr₂ := hr.old
  have hr₃ := hr.new
  refine (dropAll_ends htidy (by omega) hr₃ hr.self (fun i hi => ?_) fun i hi hir => ?_).bind
    fun _ u₄ hadds => .ret hadds
  · rcases List.mem_pair.mp hi with rfl | rfl <;> omega
  · simp only [List.mem_cons, List.not_mem_nil, or_false, not_or] at hi
    rw [hr.frame i (by simp [hi]) hir, hright.value, Function.update_of_ne hi.1, hleft.value,
      Function.update_of_ne hi.2]

theorem unaryOp_ends (ih : ChildrenCompute env table children)
    (h : unaryOpEvalCallback (evalChildren table children) ty = .ok x) :
    ∃ N, ∀ n ≥ N, ∀ u : Values, u.Tidy → (∀ c ∈ children, env.Fits table c u) →
      (unaryOpCode (childrenCode env table n children) n ty).Ends evalCall u
        fun r u' => u.Adds u' r x := by
  obtain ⟨y, hy, h⟩ := bind_ok h
  obtain ⟨N, hN⟩ := childCode_ends ih hy
  refine ⟨max N y.toNat, fun n hn u htidy hfits => ?_⟩
  refine (hN n (le_of_max_le_left hn) u htidy hfits).bind fun val u₁ hval => ?_
  refine (unaryOpResult_ends (hval.tidy htidy) hval.self h (le_of_max_le_right hn)).bind
    fun r u₂ hr => ?_
  have hval₀ := hval.old
  have hval₁ := hval.new
  have hr₁ := hr.old
  have hr₂ := hr.new
  refine (dropAll_ends htidy (by omega) hr₂ hr.self (fun i hi => ?_) fun i hi hir => ?_).bind
    fun _ u₃ hadds => .ret hadds
  · rw [List.mem_singleton.mp hi]
    omega
  · rw [hr.frame i hi hir, hval.value, Function.update_of_ne (by simpa using hi)]

private theorem copied {i : Nat} (hx : u.value i = some x) :
    (Program.make (.createCopy i)).Ends evalCall u fun r u' => u.Adds u' r x :=
  ends_made (Program.step_createCopy hx) ⟨Nat.le_refl _, Nat.lt_succ_self _, rfl⟩

theorem val_ends (hfits : env.Fits table (.mk k .val ty val sym children) u)
    (h : (valEvalCallback table ty val sym : Eval Int) = .ok x) :
    (valCode env table ty k sym).Ends evalCall u fun r u' => u.Adds u' r x := by
  have hdefault (h0 : 0 = x) : (Program.make .create).Ends evalCall u fun r u' => u.Adds u' r x :=
    h0 ▸ ends_made Program.step_create ⟨Nat.le_refl _, Nat.lt_succ_self _, rfl⟩
  cases ty with
  | literal =>
      obtain rfl : val = x := Except.ok.inj h
      exact copied (hfits.literal k val sym children (.refl _))
  | builtinConstant =>
      cases sym with
      | none => exact absurd h (by rintro ⟨⟩)
      | some name =>
          rw [valEvalCallback, Option.bind_some] at h
          rw [valCode]
          cases hname : table name with
          | none =>
              rw [hname] at h
              exact absurd h (by rintro ⟨⟩)
          | some symbol =>
              rw [hname] at h
              cases symbol with
              | value v =>
                  obtain rfl : v = x := Except.ok.inj h
                  exact copied (hfits.constant name v hname)
              | monostate => exact absurd h (by rintro ⟨⟩)
              | func f => exact absurd h (by rintro ⟨⟩)
  | _ => exact hdefault (Except.ok.inj h)

/-- The objects of evaluated arguments, which are the only ones that were made. -/
structure Arguments (u u' : Values) (args : List Nat) (xs : List Int) : Prop where
  live : u.live ≤ u'.live
  tidy : u'.Tidy
  holds : List.Forall₂ (fun i x => u'.value i = some x) args xs
  distinct : args.Nodup
  range : ∀ i ∈ args, u.live ≤ i ∧ i < u'.live
  frame : ∀ i, i ∉ args → u'.value i = u.value i

theorem argsCode_ends {xs : List Int} (ih : ChildrenCompute env table children)
    (h : (evalChildren table children).mapM id = .ok xs) :
    ∃ N, ∀ n ≥ N, ∀ u : Values, u.Tidy → (∀ c ∈ children, env.Fits table c u) →
      (argsCode (childrenCode env table n children)).Ends evalCall u
        fun args u' => Arguments u u' args xs := by
  induction children generalizing xs with
  | nil =>
      obtain rfl := Except.ok.inj h
      exact ⟨0, fun n _ u htidy _ => .ret ⟨Nat.le_refl _, htidy, .nil, .nil,
        fun _ hi => absurd hi List.not_mem_nil, fun _ _ => rfl⟩⟩
  | cons c children ihc =>
      rw [evalChildren, List.mapM_cons] at h
      obtain ⟨x, hx, h⟩ := bind_ok h
      obtain ⟨ys, hys, h⟩ := bind_ok h
      obtain rfl := Except.ok.inj h
      obtain ⟨N, hN⟩ := ih c List.mem_cons_self x hx
      obtain ⟨N', hN'⟩ := ihc (fun c' hc' => ih c' (List.mem_cons_of_mem c hc')) hys
      refine ⟨max N N', fun n hn u htidy hfits => ?_⟩
      refine (hN n (le_of_max_le_left hn) u htidy (hfits c List.mem_cons_self)).bind
        fun arg u₁ harg => ?_
      have hfits₁ : ∀ c' ∈ children, env.Fits table c' u₁ := fun c' hc' =>
        (hfits c' (List.mem_cons_of_mem c hc')).adds htidy harg
      refine (hN' n (le_of_max_le_right hn) u₁ (harg.tidy htidy) hfits₁).bind
        fun args u₂ hargs => .ret ?_
      have hold := harg.old
      have hnew := harg.new
      have hlive := hargs.live
      have hfresh : arg ∉ args := fun hmem => by
        have hrange := hargs.range arg hmem
        omega
      refine ⟨by omega, hargs.tidy, .cons ?_ hargs.holds,
        List.nodup_cons.mpr ⟨hfresh, hargs.distinct⟩, ?_, ?_⟩
      · rw [hargs.frame arg hfresh, harg.self]
      · intro i hi
        rcases List.mem_cons.mp hi with rfl | hi
        · omega
        · have hrange := hargs.range i hi
          omega
      · intro i hi
        rw [List.mem_cons, not_or] at hi
        rw [hargs.frame i hi.2, harg.value, Function.update_of_ne hi.1]

theorem builtinFunc_ends (himpl : env.Implements table) (ih : ChildrenCompute env table children)
    (h : builtinFuncEvalCallback table sym (evalChildren table children) = .ok x) :
    ∃ N, ∀ n ≥ N, ∀ u : Values, u.Tidy → (∀ c ∈ children, env.Fits table c u) →
      (builtinFuncCode env table sym (childrenCode env table n children)).Ends evalCall u
        fun r u' => u.Adds u' r x := by
  have hlength (n : Nat) : (childrenCode env table n children).length =
      (evalChildren table children).length := by
    rw [childrenCode_eq_map, evalChildren_eq_map, List.length_map, List.length_map]
  cases sym with
  | none => exact absurd h (by rintro ⟨⟩)
  | some name =>
      rw [builtinFuncEvalCallback, Option.bind_some] at h
      cases hname : table name with
      | none =>
          rw [hname] at h
          exact absurd h (by rintro ⟨⟩)
      | some symbol =>
          rw [hname] at h
          cases symbol with
          | value v => exact absurd h (by rintro ⟨⟩)
          | monostate => exact absurd h (by rintro ⟨⟩)
          | func f =>
              dsimp only at h
              split at h
              · exact absurd h (by rintro ⟨⟩)
              next hcount =>
              obtain ⟨xs, hxs, h⟩ := bind_ok h
              cases hcall : f.nativeCall with
              | none =>
                  rw [hcall] at h
                  exact absurd h (by rintro ⟨⟩)
              | some g =>
                  rw [hcall] at h
                  obtain rfl : g xs = x := Except.ok.inj h
                  obtain ⟨N, hN⟩ := argsCode_ends ih hxs
                  refine ⟨N, fun n hn u htidy hfits => ?_⟩
                  have hcode : builtinFuncCode env table (some name)
                      (childrenCode env table n children) = do
                        let args ← argsCode (childrenCode env table n children)
                        let result ← env.nativeCall name args
                        dropAll args
                        return result := by
                    rw [builtinFuncCode, hname]
                    dsimp only
                    rw [hlength, if_neg hcount, hcall]
                  rw [hcode]
                  refine (hN n hn u htidy hfits).bind fun args u₁ hargs => ?_
                  refine (himpl name f g hname hcall u₁ args xs hargs.tidy hargs.distinct
                    hargs.holds).bind fun r u₂ hr => ?_
                  have hlive := hargs.live
                  have hr₁ := hr.old
                  have hr₂ := hr.new
                  refine (dropAll_ends htidy (by omega) hr₂ hr.self (fun i hi => ?_)
                    fun i hi hir => ?_).bind fun _ u₃ hadds => .ret hadds
                  · have hrange := hargs.range i hi
                    omega
                  · rw [hr.frame i hi hir, hargs.frame i hi]

/-- Every tree that has a value computes it on objects. -/
theorem evalCode_computes (himpl : env.Implements table)
    (h : evalCallback table node = .ok x) : Computes env table node x := by
  induction node using ExprNode.induction generalizing x with
  | null => exact absurd h (by rintro ⟨⟩)
  | mk k cb ty val sym children ih =>
      have hchildren : ChildrenCompute env table children := fun c hc x hx => ih c hc hx
      have hlift {code : Nat → Code Call.Answer Nat}
          (hcode : ∃ N, ∀ n ≥ N, ∀ u : Values, u.Tidy → (∀ c ∈ children, env.Fits table c u) →
            (code n).Ends evalCall u fun r u' => u.Adds u' r x) :
          ∃ N, ∀ n ≥ N, ∀ u : Values, u.Tidy → env.Fits table (.mk k cb ty val sym children) u →
            (code n).Ends evalCall u fun r u' => u.Adds u' r x := by
        obtain ⟨N, hN⟩ := hcode
        exact ⟨N, fun n hn u htidy hfits => hN n hn u htidy fun c hc => hfits.child hc⟩
      cases cb with
      | ifElseNode => exact hlift (ifElseNode_ends hchildren h)
      | binOp => exact hlift (binOp_ends hchildren h)
      | unaryOp => exact hlift (unaryOp_ends hchildren h)
      | val => exact ⟨0, fun n _ u htidy hfits => val_ends hfits h⟩
      | builtinFunc => exact hlift (builtinFunc_ends himpl hchildren h)

end

def bitwise : Op → Prop
  | .orAssign _ _ | .xorAssign _ _ | .andAssign _ _ | .notSelf _ => True
  | _ => False

def tame : Call → Prop
  | .op op => ∀ p : Program, p.Faultless op
  | .cmpI64 _ k => ¬ Num.TopLimbZero k
  | _ => True

/-- The window that a bitwise operation opens shows no limb that the vector kept from an earlier
value. -/
def Unstale (p : Program) : Call → Prop
  | .op op => op.NothingStale p.store
  | _ => True

def ExprNode.IsBitwise : ExprNode → Prop
  | .mk _ .binOp ty _ _ _ => ty = .or ∨ ty = .xor ∨ ty = .and
  | .mk _ .unaryOp ty _ _ _ => ty = .not
  | _ => False

section

variable {env : Env} {table : SymbolTable} {node : ExprNode} {okay : Call → Prop} {n i : Nat}
  {vals : List (Code Call.Answer Nat)} {ty : TokenType}

private theorem faultless_of {op : Op} (h : ∀ σ : Store, op.NoZeroTop σ ∧ op.OutsUncached σ ∧
    op.NothingStale σ ∧ op.ResultFits σ) (p : Program) : p.Faultless op :=
  ⟨⟨(h p.store).1, (h p.store).2.1, (h p.store).2.2.1⟩, (h p.store).2.2.2⟩

private theorem tame_of {op : Op} (h : ∀ σ : Store, op.NoZeroTop σ ∧ op.OutsUncached σ ∧
    op.NothingStale σ ∧ op.ResultFits σ) : tame (.op op) :=
  faultless_of h

private theorem tame_boolI64 (b : Bool) : tame (.op (.createI64 (boolI64 b))) := by
  have hb : ¬ Num.TopLimbZero (boolI64 b) := by cases b <;> decide
  exact tame_of fun _ => ⟨hb, trivial, trivial, trivial⟩

variable (htame : ∀ q, tame q → okay q)
include htame

private theorem make_calls {op : Op} (h : okay (.op op)) : (Program.make op).Calls okay :=
  Program.calls_make (htame _ trivial) h

private theorem returnBool_calls (b : Bool) : (returnBool b).Calls okay :=
  make_calls htame (htame _ (tame_boolI64 b))

private theorem move_calls (i : Nat) : (Program.make (.createMove i)).Calls okay :=
  make_calls htame (htame _ (tame_of fun _ => ⟨trivial, trivial, trivial, trivial⟩))

private theorem create_calls : (Program.make .create).Calls okay :=
  make_calls htame (htame _ (tame_of fun _ => ⟨trivial, trivial, trivial, trivial⟩))

private theorem drop_calls (i : Nat) : (Program.drop i).Calls okay :=
  Program.calls_perform (htame _ (tame_of fun _ => ⟨trivial, trivial, trivial, trivial⟩))

private theorem dropAll_calls (is : List Nat) : (dropAll is).Calls okay := by
  induction is with
  | nil => trivial
  | cons i is ih => exact (drop_calls htame i).bind fun _ => ih

private theorem changed_calls {op : Op} (h : okay (.op op)) (i : Nat) :
    (Program.perform op >>= fun _ => Program.make (.createMove i)).Calls okay :=
  (Program.calls_perform h).bind fun _ => move_calls htame i

private theorem round_calls (res factor count : Nat) :
    (Program.perform (.mulAssign res (.big factor)) >>= fun _ => Program.perform (.dec count)).Calls
      okay :=
  (Program.calls_perform (htame (.op (.mulAssign res (.big factor)))
      (tame_of fun _ => ⟨trivial, trivial, trivial, trivial⟩))).bind
    fun _ => Program.calls_perform (htame (.op (.dec count))
      (tame_of fun _ => ⟨trivial, trivial, trivial, trivial⟩))

private theorem powCode_calls (left right : Nat) : (powCode n left right).Calls okay := by
  refine Code.Calls.bind (.of (htame _ trivial)) fun b => ?_
  cases b with
  | true => exact returnBool_calls htame false
  | false =>
      have hzero : tame (.cmpI64 right (boolI64 false)) := show ¬ Num.TopLimbZero 0 by decide
      have hcond : (do return decide ((← Program.cmpI64 right (boolI64 false)) > 0) :
          Code Call.Answer Bool).Calls okay := Code.Calls.bind (.of (htame _ hzero)) fun _ => trivial
      exact (returnBool_calls htame true).bind fun res =>
        (Code.Calls.loop hcond (round_calls htame _ _ _) n).bind fun _ =>
          (move_calls htame res).bind fun _ => (drop_calls htame res).bind fun _ => trivial

private theorem factCode_calls (val : Nat) : (factCode n val).Calls okay := by
  refine Code.Calls.bind (.of (htame _ trivial)) fun b => ?_
  cases b with
  | true => exact returnBool_calls htame true
  | false =>
      refine Code.Calls.bind (.of (htame _ trivial)) fun b => ?_
      cases b with
      | true => exact returnBool_calls htame false
      | false =>
          have hcond : (do return !(← Program.isOne val) : Code Call.Answer Bool).Calls okay :=
            Code.Calls.bind (.of (htame _ trivial)) fun _ => trivial
          exact (returnBool_calls htame true).bind fun res =>
            (Code.Calls.loop hcond (round_calls htame _ _ _) n).bind fun _ =>
              (move_calls htame res).bind fun _ => (drop_calls htame res).bind fun _ => trivial

private theorem binOpResult_calls (left right : Nat)
    (hbit : ty = .or ∨ ty = .xor ∨ ty = .and → ∀ op, bitwise op → okay (.op op)) :
    (binOpResult n ty left right).Calls okay := by
  have hcmp (f : Int → Bool) : (Program.cmp left right >>= fun c => returnBool (f c)).Calls okay :=
    Code.Calls.bind (.of (htame _ trivial)) fun c => returnBool_calls htame (f c)
  have hplain (op : Op) (h : ∀ σ : Store, op.NoZeroTop σ ∧ op.OutsUncached σ ∧ op.NothingStale σ ∧
      op.ResultFits σ) := changed_calls htame (htame (.op op) (tame_of h)) left
  cases ty with
  | or => exact changed_calls htame (hbit (.inl rfl) (.orAssign left (.big right)) trivial) left
  | xor =>
      exact changed_calls htame (hbit (.inr (.inl rfl)) (.xorAssign left (.big right)) trivial) left
  | and =>
      exact changed_calls htame (hbit (.inr (.inr rfl)) (.andAssign left (.big right)) trivial) left
  | equ | nequ | lt | le | gt | ge => exact hcmp _
  | add => exact hplain (.addAssign left (.big right)) fun _ => ⟨trivial, trivial, trivial, trivial⟩
  | sub => exact hplain (.subAssign left (.big right)) fun _ => ⟨trivial, trivial, trivial, trivial⟩
  | mul => exact hplain (.mulAssign left (.big right)) fun _ => ⟨trivial, trivial, trivial, trivial⟩
  | div => exact hplain (.divAssign left (.big right)) fun _ => ⟨trivial, trivial, trivial, trivial⟩
  | shiftLeft =>
      exact Code.Calls.bind (.of (htame _ trivial)) fun u64 =>
        hplain (.shiftLeftAssign left u64.toNat) fun _ => ⟨trivial, trivial, trivial, trivial⟩
  | shiftRight =>
      exact Code.Calls.bind (.of (htame _ trivial)) fun u64 =>
        hplain (.shiftRightAssign left u64.toNat) fun _ => ⟨trivial, trivial, trivial, trivial⟩
  | pow => exact powCode_calls htame left right
  | _ => exact create_calls htame

private theorem unaryOpResult_calls (val : Nat)
    (hbit : ty = .not → ∀ op, bitwise op → okay (.op op)) : (unaryOpResult n ty val).Calls okay := by
  cases ty with
  | add => exact move_calls htame val
  | sub =>
      exact changed_calls htame (htame (.op (.negate val))
        (tame_of fun _ => ⟨trivial, trivial, trivial, trivial⟩)) val
  | not => exact changed_calls htame (hbit rfl (.notSelf val) trivial) val
  | fact => exact factCode_calls htame val
  | _ => exact create_calls htame

omit htame in
private theorem childCode_calls (h : ∀ val ∈ vals, val.Calls okay) (i : Nat) :
    (childCode vals i).Calls okay := by
  rw [childCode]
  cases hv : vals[i]? with
  | none => trivial
  | some val => exact h val (List.mem_of_getElem? hv)

omit htame in
private theorem argsCode_calls (h : ∀ val ∈ vals, val.Calls okay) : (argsCode vals).Calls okay := by
  induction vals with
  | nil => trivial
  | cons val vals ih =>
      exact (h val List.mem_cons_self).bind fun _ =>
        (ih fun val' hval' => h val' (List.mem_cons_of_mem val hval')).bind fun _ => trivial

private theorem valCode_calls (index : Nat) (sym : Option SymbolName) :
    (valCode env table ty index sym).Calls okay := by
  have hcopy (i : Nat) : (Program.make (.createCopy i)).Calls okay :=
    make_calls htame (htame _ (tame_of fun _ => ⟨trivial, trivial, trivial, trivial⟩))
  cases ty with
  | literal => exact hcopy _
  | builtinConstant =>
      cases sym with
      | none => trivial
      | some name =>
          rw [valCode]
          cases table name with
          | none => trivial
          | some symbol =>
              cases symbol with
              | value v => exact hcopy _
              | monostate | func f => trivial
  | _ => exact create_calls htame

private theorem builtinFuncCode_calls (hnat : ∀ name args, (env.nativeCall name args).Calls okay)
    (h : ∀ val ∈ vals, val.Calls okay) (sym : Option SymbolName) :
    (builtinFuncCode env table sym vals).Calls okay := by
  cases sym with
  | none => trivial
  | some name =>
      rw [builtinFuncCode]
      cases table name with
      | none => trivial
      | some symbol =>
          cases symbol with
          | monostate | value v => trivial
          | func f =>
              dsimp only
              split
              · trivial
              refine (argsCode_calls h).bind fun args => ?_
              cases f.nativeCall with
              | none => trivial
              | some g =>
                  exact (hnat name args).bind fun _ => (dropAll_calls htame args).bind fun _ => trivial

/-- What an evaluation calls: bitwise operations at bitwise nodes, and nothing else that can go
wrong. -/
theorem evalCode_calls (hnat : ∀ name args, (env.nativeCall name args).Calls okay)
    (hbit : ∀ m, ExprNode.Reaches node m → m.IsBitwise → ∀ op, bitwise op → okay (.op op)) :
    (evalCode env table n node).Calls okay := by
  induction node using ExprNode.induction with
  | null => trivial
  | mk k cb ty val sym children ih =>
      have hvals : ∀ val ∈ childrenCode env table n children, val.Calls okay := by
        intro val hval
        rw [childrenCode_eq_map] at hval
        obtain ⟨c, hc, rfl⟩ := List.mem_map.mp hval
        exact ih c hc fun m hm => hbit m (.child hc hm)
      have hchild := childCode_calls hvals
      cases cb with
      | ifElseNode =>
          refine (hchild 0).bind fun cond => Code.Calls.bind ?_ fun result =>
            (dropAll_calls htame [cond]).bind fun _ => trivial
          refine Code.Calls.bind (.of (htame _ trivial)) fun b => ?_
          cases b with
          | true => exact hchild 2
          | false => exact hchild 1
      | binOp =>
          exact (hchild 0).bind fun left => (hchild 1).bind fun right =>
            (binOpResult_calls htame left right (hbit _ (.refl _))).bind fun _ =>
              (dropAll_calls htame _).bind fun _ => trivial
      | unaryOp =>
          exact (hchild 0).bind fun val =>
            (unaryOpResult_calls htame val (hbit _ (.refl _))).bind fun _ =>
              (dropAll_calls htame _).bind fun _ => trivial
      | val => exact valCode_calls htame k sym
      | builtinFunc => exact builtinFuncCode_calls htame hnat hvals sym

end

section

variable {env : Env} {table : SymbolTable} {node : ExprNode} {n : Nat}

private theorem evalCode_answered {p : Program}
    (hnat : ∀ name args, (env.nativeCall name args).Calls tame)
    (h : (∀ m, ExprNode.Reaches node m → ¬ m.IsBitwise) ∨
      (evalCode env table n node).Guarded Program.answer Unstale p) :
    (evalCode env table n node).Guarded Program.answer Program.Answered p := by
  have htame : ∀ (p : Program) (q : Call), tame q → p.Answered q := by
    intro p q hq
    cases q with
    | op op => exact hq p
    | cmpI64 i k => exact hq
    | _ => trivial
  rcases h with hnone | hstale
  · have hcalls : (evalCode env table n node).Calls tame :=
      evalCode_calls (fun q hq => hq) hnat fun m hm hbit => absurd hbit (hnone m hm)
    exact hcalls.guarded htame p
  · have hcalls : (evalCode env table n node).Calls fun q => tame q ∨ ∃ op, bitwise op ∧ q = .op op :=
      evalCode_calls (fun q hq => .inl hq)
        (fun name args => (hnat name args).mono fun q hq => .inl hq)
        fun _ _ _ op hop => .inr ⟨op, hop, rfl⟩
    refine hcalls.guarded_of hstale fun p q hq hstale => ?_
    rcases hq with hq | ⟨op, hop, rfl⟩
    · exact htame p q hq
    · cases op with
      | orAssign i other | xorAssign i other | andAssign i other | notSelf i =>
          exact ⟨⟨trivial, trivial, hstale⟩, trivial⟩
      | _ => exact hop.elim

private theorem reaches_mk_iff {k : Nat} {cb : EvalCallback} {ty : TokenType} {val : Int}
    {sym : Option SymbolName} {ch : List ExprNode} {m : ExprNode} :
    ExprNode.Reaches (.mk k cb ty val sym ch) m ↔
      m = .mk k cb ty val sym ch ∨ ∃ c ∈ ch, ExprNode.Reaches c m := by
  constructor
  · rintro (_ | ⟨hc, h⟩)
    · exact .inl rfl
    · exact .inr ⟨_, hc, h⟩
  · rintro (rfl | ⟨c, hc, h⟩)
    · exact .refl _
    · exact .child hc h

/-- Evaluation on objects is evaluation on integers: behind any faultless run, where the nodes hold
their literals, a tree that has a value gives a new object with it and leaves all others as they are.
Only bitwise operators ask for more. -/
theorem eval_exact {ops : List Op} {v : Values} {x : Int}
    (hok : Runs.Guarded Program.step Program.Faultless Program.initial ops)
    (hrun : ops.foldlM Values.step Values.initial = some v) (himpl : env.Implements table)
    (hnat : ∀ name args, (env.nativeCall name args).Calls tame) (hfits : env.Fits table node v)
    (hx : evalCallback table node = .ok x) :
    ∃ p, ops.foldlM Program.step Program.initial = some p ∧ p.values = v ∧ ∃ N, ∀ n ≥ N,
      ((∀ m, ExprNode.Reaches node m → ¬ m.IsBitwise) ∨
        (evalCode env table n node).Guarded Program.answer Unstale p) →
      (evalCode env table n node).Ends Program.answer p fun r p' =>
        p'.Sound ∧ v.Adds p'.values r x := by
  rw [← Program.values_initial] at hrun
  obtain ⟨p, hsteps, hs, rfl⟩ := Runs.simulation Program.values
    (fun p op v hs hok h => Program.step_exact hs hok h) Program.Sound.initial hok hrun
  obtain ⟨N, hN⟩ := evalCode_computes himpl hx
  refine ⟨p, hsteps, rfl, N, fun n hn hcond => ?_⟩
  exact Program.code_exact hs (evalCode_answered hnat hcond) (hN n hn p.values p.values_tidy hfits)

end

def sampleNode : ExprNode :=
  .mk 5 .binOp .sub 0 none
    [.mk 2 .binOp .pow 0 none [.mk 0 .val .literal 2 none [], .mk 1 .val .literal 40 none []],
      .mk 4 .unaryOp .fact 0 none [.mk 3 .val .literal 4 none []]]

theorem eval_exact_sample : ∃ p N, ∀ n ≥ N, ∃ r p',
    (evalCode ⟨fun k => k - k / 3, fun _ => 0, fun _ _ => .stop⟩ (fun _ => none) n sampleNode).run
      Program.answer p = some (r, p') ∧ p'.values.value r = some (2 ^ 40 - 24) := by
  have htop : ¬ Num.TopLimbZero 2 ∧ ¬ Num.TopLimbZero 40 ∧ ¬ Num.TopLimbZero 4 := by decide
  have hok : Runs.Guarded Program.step Program.Faultless Program.initial
      [.createI64 ⟨2, by decide⟩, .createI64 ⟨40, by decide⟩, .createI64 ⟨4, by decide⟩] :=
    ⟨⟨⟨htop.1, trivial, trivial⟩, trivial⟩,
      fun _ _ => ⟨⟨⟨htop.2.1, trivial, trivial⟩, trivial⟩,
        fun _ _ => ⟨⟨⟨htop.2.2, trivial, trivial⟩, trivial⟩, fun _ _ => trivial⟩⟩⟩
  have hbits : ∀ m, ExprNode.Reaches sampleNode m → ¬ m.IsBitwise := by
    intro m hm
    simp only [sampleNode, reaches_mk_iff, List.mem_cons, List.not_mem_nil, or_false, false_and,
      exists_false, exists_eq_or_imp, exists_eq_left] at hm
    rcases hm with rfl | (rfl | rfl | rfl) | rfl | rfl <;> simp [ExprNode.IsBitwise]
  have hfits : Env.Fits ⟨fun k => k - k / 3, fun _ => 0, fun _ _ => .stop⟩ (fun _ => none) sampleNode
      (((Values.initial.push 2).push 40).push 4) := by
    refine ⟨fun k v sym ch hm => ?_, fun name v hname => absurd hname (by simp)⟩
    simp only [sampleNode, reaches_mk_iff, List.mem_cons, List.not_mem_nil, or_false, false_and,
      exists_false, exists_eq_or_imp, exists_eq_left] at hm
    simp only [ExprNode.mk.injEq, reduceCtorEq, false_and, and_false, false_or] at hm
    rcases hm with (⟨rfl, -, -, rfl, -⟩ | ⟨rfl, -, -, rfl, -⟩) | ⟨rfl, -, -, rfl, -⟩ <;> rfl
  have hnat : ∀ name args, (Env.nativeCall ⟨fun k => k - k / 3, fun _ => 0, fun _ _ => .stop⟩
      name args).Calls tame := fun _ _ => trivial
  obtain ⟨p, -, -, N, heval⟩ := eval_exact (x := 2 ^ 40 - 24) hok rfl
    (fun name f g hname => absurd hname (by simp)) hnat hfits (by rfl)
  refine ⟨p, N, fun n hn => ?_⟩
  obtain ⟨r, p', hrun, -, hadds⟩ := heval n hn (.inl hbits)
  exact ⟨r, p', hrun, hadds.self⟩

end PGBigNumber.Infix
