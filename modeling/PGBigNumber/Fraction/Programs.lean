import PGBigNumber.Fraction.Exact

/-!
# Programs with fractions

A client makes fractions of its big integers and of the parts of other fractions. The fractions are
those of the rational arithmetic, and each owns its two parts alone.
-/

namespace PGBigNumber

namespace Fraction

open BigInteger Ownership

/-- A `const BigInteger &`: an object of the client, or `getNum` or `getDen` of a fraction. -/
inductive Source where
  | object (v : Nat)
  | num (i : Nat)
  | den (i : Nat)
deriving DecidableEq, Repr

/-- What a program does with its fractions, which are numbered in the order of their making. -/
inductive Action where
  | default
  | make (num den : Source)
  | copy (i : Nat)
  | assign (i j : Nat)
  | setNum (i : Nat) (num : Source)
  | setDen (i : Nat) (den : Source)
  | add (i j : Nat)
  | sub (i j : Nat)
  | mul (i j : Nat)
  | div (i j : Nat)
  | reciprocal (i : Nat)
deriving DecidableEq, Repr

def Source.obj (objs : List Obj) : Source → Option Nat
  | .object v => some v
  | .num i => objs[i]?.map Obj.num
  | .den i => objs[i]?.map Obj.den

def Action.code (n : Nat) (objs : List Obj) : Action → Code Call.Answer (List Obj)
  | .default => do return objs ++ [← Obj.default]
  | .make num den => do
    let num ← .lift (num.obj objs)
    let den ← .lift (den.obj objs)
    return objs ++ [← Obj.make n num den]
  | .copy i => do
    let f ← .lift objs[i]?
    return objs ++ [← f.copy]
  | .assign i j => do
    let f ← .lift objs[i]?
    let g ← .lift objs[j]?
    f.assign g
    return objs
  | .setNum i num => do
    let f ← .lift objs[i]?
    let num ← .lift (num.obj objs)
    f.setNum n num
    return objs
  | .setDen i den => do
    let f ← .lift objs[i]?
    let den ← .lift (den.obj objs)
    f.setDen n den
    return objs
  | .add i j => do
    let f ← .lift objs[i]?
    let g ← .lift objs[j]?
    return objs ++ [← f.add n g]
  | .sub i j => do
    let f ← .lift objs[i]?
    let g ← .lift objs[j]?
    return objs ++ [← f.sub n g]
  | .mul i j => do
    let f ← .lift objs[i]?
    let g ← .lift objs[j]?
    return objs ++ [← f.mul n g]
  | .div i j => do
    let f ← .lift objs[i]?
    let g ← .lift objs[j]?
    return objs ++ [← f.div n g]
  | .reciprocal i => do
    let f ← .lift objs[i]?
    return objs ++ [← f.reciprocal]

def runCode (n : Nat) (objs : List Obj) (actions : List Action) : Code Call.Answer (List Obj) :=
  actions.foldlM (Action.code n) objs

/-- The integer behind a reference, where the client's objects hold `u`. -/
def Source.value (u : Values) (fs : List Fraction) : Source → Option Int
  | .object v => u.value v
  | .num i => fs[i]?.map Fraction.num
  | .den i => fs[i]?.map Fraction.den

def Action.op (u : Values) (fs : List Fraction) : Action → Option Op
  | .default => some .default
  | .make num den => do return .make (← num.value u fs) (← den.value u fs)
  | .copy i => some (.copy i)
  | .assign i j => some (.assign i j)
  | .setNum i num => do return .setNum i (← num.value u fs)
  | .setDen i den => do return .setDen i (← den.value u fs)
  | .add i j => some (.add i j)
  | .sub i j => some (.sub i j)
  | .mul i j => some (.mul i j)
  | .div i j => some (.div i j)
  | .reciprocal i => some (.reciprocal i)

def Action.step (u : Values) (fs : List Fraction) (a : Action) : Option (List Fraction) := do
  Fraction.step fs (← a.op u fs)

/-- The parts that the fractions own; `true` is for the numerator. -/
def owner (objs : List Obj) (p : Nat × Bool) : Option Nat :=
  objs[p.1]?.map fun f => if p.2 then f.num else f.den

def part (fs : List Fraction) (p : Nat × Bool) : Option Int :=
  fs[p.1]?.map fun F => if p.2 then F.num else F.den

/-- The fractions `fs` lie in the parts of `objs`, apart from each other and from the client's
objects, which hold `u₀`. There are no other objects. -/
structure Lays (u₀ : Values) (objs : List Obj) (fs : List Fraction) (u : Values) : Prop where
  length : objs.length = fs.length
  live : u₀.live ≤ u.live
  tidy : u.Tidy
  client : ∀ v < u₀.live, u.value v = u₀.value v
  owned : Exclusive (owner objs) fun v => u₀.live ≤ v ∧ (u.value v).isSome
  parts : deref (owner objs) u.value = part fs

section

variable {u₀ u u' : Values} {objs : List Obj} {fs fs' : List Fraction} {f g : Obj} {F G : Fraction}
  {i j n v : Nat} {x : Int} {src : Source} {a : Action}

theorem Lays.get (h : Lays u₀ objs fs u) (hF : fs[i]? = some F) :
    ∃ f, objs[i]? = some f ∧ f.Holds u F := by
  have hi : i < objs.length := by
    rw [h.length]
    exact (List.getElem?_eq_some_iff.mp hF).1
  have hf : objs[i]? = some objs[i] := List.getElem?_eq_getElem hi
  have hnum : u.value objs[i].num = some F.num := by
    have hpart := congrFun h.parts (i, true)
    simpa [deref, owner, part, hf, hF] using hpart
  have hden : u.value objs[i].den = some F.den := by
    have hpart := congrFun h.parts (i, false)
    simpa [deref, owner, part, hf, hF] using hpart
  exact ⟨objs[i], hf, hnum, hden⟩

theorem Lays.ne (h : Lays u₀ objs fs u) (hf : objs[i]? = some f) (hg : objs[j]? = some g) :
    f.num ≠ g.den := by
  intro heq
  have hnum : owner objs (i, true) = some f.num := by simp [owner, hf]
  have hden : owner objs (j, false) = some f.num := by simp [owner, hg, heq]
  exact absurd (h.owned.unique hnum hden) (by simp)

theorem Lays.source (h : Lays u₀ objs fs u) (htidy : u₀.Tidy) (hx : src.value u₀ fs = some x) :
    ∃ v, src.obj objs = some v ∧ u.value v = some x := by
  cases src with
  | object v => exact ⟨v, rfl, (h.client v (htidy.lt hx)).trans hx⟩
  | num i =>
      obtain ⟨F, hF, rfl⟩ := Option.map_eq_some_iff.mp hx
      obtain ⟨f, hf, hholds⟩ := h.get hF
      exact ⟨f.num, by rw [Source.obj, hf, Option.map_some], hholds.num⟩
  | den i =>
      obtain ⟨F, hF, rfl⟩ := Option.map_eq_some_iff.mp hx
      obtain ⟨f, hf, hholds⟩ := h.get hF
      exact ⟨f.den, by rw [Source.obj, hf, Option.map_some], hholds.den⟩

private theorem owner_append : owner (objs ++ [f]) = Function.update (Function.update (owner objs)
    (objs.length, true) (some f.num)) (objs.length, false) (some f.den) := by
  funext ⟨i, b⟩
  rcases Nat.lt_trichotomy i objs.length with hlt | rfl | hgt
  · have hne : i ≠ objs.length := hlt.ne
    simp [owner, List.getElem?_append_left hlt, hne]
  · cases b <;> simp [owner]
  · have hne : i ≠ objs.length := hgt.ne'
    have hnone : (objs ++ [f])[i]? = none := by simp; omega
    have hnone' : objs[i]? = none := by simp; omega
    simp [owner, hnone, hnone', hne]

private theorem part_append : part (fs ++ [F]) = Function.update (Function.update (part fs)
    (fs.length, true) (some F.num)) (fs.length, false) (some F.den) := by
  funext ⟨i, b⟩
  rcases Nat.lt_trichotomy i fs.length with hlt | rfl | hgt
  · have hne : i ≠ fs.length := hlt.ne
    simp [part, List.getElem?_append_left hlt, hne]
  · cases b <;> simp [part]
  · have hne : i ≠ fs.length := hgt.ne'
    have hnone : (fs ++ [F])[i]? = none := by simp; omega
    have hnone' : fs[i]? = none := by simp; omega
    simp [part, hnone, hnone', hne]

private theorem part_set (hi : i < fs.length) : part (fs.set i F) = Function.update (Function.update
    (part fs) (i, true) (some F.num)) (i, false) (some F.den) := by
  funext ⟨j, b⟩
  by_cases hj : j = i
  · subst hj
    cases b <;> simp [part, hi]
  · have hij : i ≠ j := Ne.symm hj
    simp [part, List.getElem?_set_ne hij, hj]

theorem Lays.makes (h : Lays u₀ objs fs u) (hm : f.Makes u u' F) :
    Lays u₀ (objs ++ [f]) (fs ++ [F]) u' := by
  have hnum := hm.num
  have hden := hm.den
  have hlive := h.live
  have hlive' := hm.live
  have hnone := h.tidy f.num hnum.1
  have hnone' := h.tidy f.den hden.1
  have hfree : owner objs (objs.length, true) = none := by simp [owner]
  have hfree' : Function.update (owner objs) (objs.length, true) (some f.num)
      (objs.length, false) = none := by simp [owner]
  have hdead : ¬ (u₀.live ≤ f.num ∧ (u.value f.num).isSome) := by simp [hnone]
  have hdead' : ¬ ((u₀.live ≤ f.den ∧ (u.value f.den).isSome) ∨ f.den = f.num) := by
    simp [hnone', hm.ne.symm]
  have hfirst := h.owned.acquire hfree hdead
  refine ⟨by simp [h.length], h.live.trans hlive', hm.tidy h.tidy, fun v hv => ?_, ?_, ?_⟩
  · rw [hm.value, Function.update_of_ne (by omega), Function.update_of_ne (by omega), h.client v hv]
  · rw [owner_append]
    refine (hfirst.acquire hfree' hdead').congr fun v => ?_
    rw [hm.value]
    simp only [Function.update_apply]
    grind
  · rw [owner_append, part_append, hm.value, deref_acquire (fun w hw => ?_),
      deref_acquire (fun w hw => ?_), h.parts, h.length]
    · exact hdead (h.owned.alive_of_owner hw)
    · exact hdead' (hfirst.alive_of_owner hw)

theorem Lays.sets (h : Lays u₀ objs fs u) (hf : objs[i]? = some f) (hs : f.Sets u u' F) :
    Lays u₀ objs (fs.set i F) u' := by
  have hnum : owner objs (i, true) = some f.num := by simp [owner, hf]
  have hden : owner objs (i, false) = some f.den := by simp [owner, hf]
  obtain ⟨hnum₀, hnumSome⟩ := h.owned.alive_of_owner hnum
  obtain ⟨hden₀, hdenSome⟩ := h.owned.alive_of_owner hden
  have hi : i < fs.length := by
    rw [← h.length]
    exact (List.getElem?_eq_some_iff.mp hf).1
  refine ⟨by simp [h.length], h.live.trans hs.live, fun v hv => ?_, fun v hv => ?_, ?_, ?_⟩
  · have hlive := hs.live
    have hv' := h.tidy v (by omega)
    rw [hs.value]
    simp only [Function.update_apply]
    grind
  · rw [hs.value, Function.update_of_ne (by omega), Function.update_of_ne (by omega), h.client v hv]
  · refine h.owned.congr fun v => ?_
    rw [hs.value]
    simp only [Function.update_apply]
    grind
  · rw [hs.value, h.owned.deref_write hden, h.owned.deref_write hnum, h.parts, part_set hi]

/-- With enough rounds the code does to the parts what the action does to the fractions. -/
def Refines (u₀ : Values) (fs fs' : List Fraction)
    (code : Nat → List Obj → Code Call.Answer (List Obj)) : Prop :=
  ∃ N, ∀ n ≥ N, ∀ objs u, Lays u₀ objs fs u →
    (code n objs).Ends evalCall u fun objs' u' => Lays u₀ objs' fs' u'

private theorem refines_binary {op : Fraction → Fraction → Option Fraction}
    {code : Nat → Obj → Obj → Code Call.Answer Obj}
    (hcode : ∀ F G F', op F G = some F' → ∃ N, ∀ n ≥ N, ∀ f g u, u.Tidy → Obj.Holds u f F →
      Obj.Holds u g G → (code n f g).Ends evalCall u fun r u' => r.Makes u u' F')
    (ha : (do return fs ++ [← op (← fs[i]?) (← fs[j]?)]) = some fs') :
    Refines u₀ fs fs' fun n objs => do
      let f ← .lift objs[i]?
      let g ← .lift objs[j]?
      return objs ++ [← code n f g] := by
  obtain ⟨F, hF, ha⟩ := Option.bind_eq_some_iff.mp ha
  obtain ⟨G, hG, ha⟩ := Option.bind_eq_some_iff.mp ha
  obtain ⟨F', hop, ha⟩ := Option.bind_eq_some_iff.mp ha
  obtain rfl := Option.some.inj ha
  obtain ⟨N, hN⟩ := hcode F G F' hop
  refine ⟨N, fun n hn objs u h => ?_⟩
  obtain ⟨f, hf, hholds⟩ := h.get hF
  obtain ⟨g, hg, hholds'⟩ := h.get hG
  refine .lift hf (.lift hg ?_)
  exact (hN n hn f g u h.tidy hholds hholds').bind fun r u' hr => .ret (h.makes hr)

/-- One action. -/
theorem action_refines (htidy : u₀.Tidy) (ha : a.step u₀ fs = some fs') :
    Refines u₀ fs fs' fun n objs => a.code n objs := by
  obtain ⟨op, hop, ha⟩ := Option.bind_eq_some_iff.mp ha
  cases a with
  | default =>
      cases hop
      obtain rfl := Option.some.inj ha
      exact ⟨0, fun n _ objs u h => Obj.default_ends.bind fun r u' hr => .ret (h.makes hr)⟩
  | make num den =>
      obtain ⟨x, hx, hop⟩ := Option.bind_eq_some_iff.mp hop
      obtain ⟨y, hy, hop⟩ := Option.bind_eq_some_iff.mp hop
      cases hop
      obtain ⟨F, hF, ha⟩ := Option.bind_eq_some_iff.mp ha
      obtain rfl := Option.some.inj ha
      refine ⟨Obj.rounds ⟨x, y⟩, fun n hn objs u h => ?_⟩
      obtain ⟨v, hv, hxv⟩ := h.source htidy hx
      obtain ⟨w, hw, hyw⟩ := h.source htidy hy
      refine .lift hv (.lift hw ?_)
      exact (Obj.make_ends h.tidy hxv hyw hF hn).bind fun r u' hr => .ret (h.makes hr)
  | copy i =>
      cases hop
      obtain ⟨F, hF, ha⟩ := Option.bind_eq_some_iff.mp ha
      obtain rfl := Option.some.inj ha
      refine ⟨0, fun n _ objs u h => ?_⟩
      obtain ⟨f, hf, hholds⟩ := h.get hF
      exact .lift hf ((Obj.copy_ends h.tidy hholds).bind fun r u' hr => .ret (h.makes hr))
  | assign i j =>
      cases hop
      obtain ⟨F, hF, ha⟩ := Option.bind_eq_some_iff.mp ha
      obtain ⟨G, hG, ha⟩ := Option.bind_eq_some_iff.mp ha
      obtain rfl := Option.some.inj ha
      refine ⟨0, fun n _ objs u h => ?_⟩
      obtain ⟨f, hf, hholds⟩ := h.get hF
      obtain ⟨g, hg, hholds'⟩ := h.get hG
      refine .lift hf (.lift hg ?_)
      refine (Obj.assign_ends h.tidy hholds hholds' fun heq => absurd heq (h.ne hf hg)).bind ?_
      exact fun _ u' hs => .ret (h.sets hf hs)
  | setNum i num =>
      obtain ⟨x, hx, hop⟩ := Option.bind_eq_some_iff.mp hop
      cases hop
      obtain ⟨F, hF, ha⟩ := Option.bind_eq_some_iff.mp ha
      obtain ⟨F', hF', ha⟩ := Option.bind_eq_some_iff.mp ha
      obtain rfl := Option.some.inj ha
      refine ⟨Obj.rounds ⟨x, F.den⟩, fun n hn objs u h => ?_⟩
      obtain ⟨f, hf, hholds⟩ := h.get hF
      obtain ⟨v, hv, hxv⟩ := h.source htidy hx
      refine .lift hf (.lift hv ?_)
      exact (Obj.setNum_ends h.tidy (h.ne hf hf) hholds hxv hF' hn).bind fun _ u' hs =>
        .ret (h.sets hf hs)
  | setDen i den =>
      obtain ⟨x, hx, hop⟩ := Option.bind_eq_some_iff.mp hop
      cases hop
      obtain ⟨F, hF, ha⟩ := Option.bind_eq_some_iff.mp ha
      obtain ⟨F', hF', ha⟩ := Option.bind_eq_some_iff.mp ha
      obtain rfl := Option.some.inj ha
      refine ⟨Obj.rounds ⟨F.num, x⟩, fun n hn objs u h => ?_⟩
      obtain ⟨f, hf, hholds⟩ := h.get hF
      obtain ⟨v, hv, hxv⟩ := h.source htidy hx
      refine .lift hf (.lift hv ?_)
      exact (Obj.setDen_ends h.tidy (h.ne hf hf) hholds hxv hF' hn).bind fun _ u' hs =>
        .ret (h.sets hf hs)
  | add i j =>
      cases hop
      exact refines_binary (fun F G F' hadd => ⟨_, fun n hn f g u htidy hf hg =>
        Obj.add_ends htidy hf hg hadd hn⟩) ha
  | sub i j =>
      cases hop
      exact refines_binary (fun F G F' hsub => ⟨_, fun n hn f g u htidy hf hg =>
        Obj.sub_ends htidy hf hg hsub hn⟩) ha
  | mul i j =>
      cases hop
      exact refines_binary (fun F G F' hmul => ⟨_, fun n hn f g u htidy hf hg =>
        Obj.mul_ends htidy hf hg hmul hn⟩) ha
  | div i j =>
      cases hop
      exact refines_binary (fun F G F' hdiv => ⟨_, fun n hn f g u htidy hf hg =>
        Obj.div_ends htidy hf hg hdiv hn⟩) ha
  | reciprocal i =>
      cases hop
      obtain ⟨F, hF, ha⟩ := Option.bind_eq_some_iff.mp ha
      obtain ⟨F', hF', ha⟩ := Option.bind_eq_some_iff.mp ha
      obtain rfl := Option.some.inj ha
      refine ⟨0, fun n _ objs u h => ?_⟩
      obtain ⟨f, hf, hholds⟩ := h.get hF
      exact .lift hf ((Obj.reciprocal_ends h.tidy hholds hF').bind fun r u' hr => .ret (h.makes hr))

theorem run_refines {actions : List Action} (htidy : u₀.Tidy)
    (hrun : actions.foldlM (Action.step u₀) fs = some fs') :
    Refines u₀ fs fs' fun n objs => runCode n objs actions := by
  induction actions generalizing fs with
  | nil =>
      obtain rfl := Option.some.inj hrun
      exact ⟨0, fun n _ objs u h => .ret h⟩
  | cons a actions ih =>
      rw [List.foldlM_cons] at hrun
      obtain ⟨fs₁, hfirst, hrest⟩ := Option.bind_eq_some_iff.mp hrun
      obtain ⟨N, hN⟩ := action_refines htidy hfirst
      obtain ⟨N', hN'⟩ := ih hrest
      refine ⟨max N N', fun n hn objs u h => ?_⟩
      change ((a :: actions).foldlM (Action.code n) objs).Ends evalCall u _
      rw [List.foldlM_cons]
      exact (hN n (le_of_max_le_left hn) objs u h).bind fun objs' u' h' =>
        hN' n (le_of_max_le_right hn) objs' u' h'

theorem lays_nil (htidy : u₀.Tidy) : Lays u₀ [] [] u₀ := by
  refine ⟨rfl, Nat.le_refl _, htidy, fun _ _ => rfl, ⟨fun hu => ?_, fun v => ?_⟩, rfl⟩
  · exact absurd hu (by simp [owner])
  · refine iff_of_false (fun ⟨hv, hsome⟩ => ?_) fun ⟨p, hp⟩ => absurd hp (by simp [owner])
    rw [htidy v hv] at hsome
    exact absurd hsome (by simp)

end

theorem action_plain (n : Nat) (objs : List Obj) (a : Action) : Plain (a.code n objs) := by
  cases a with
  | default => exact Obj.default_plain.bind fun _ => trivial
  | make num den =>
      exact Code.Calls.bind (.lift _) fun _ => Code.Calls.bind (.lift _) fun _ =>
        Obj.make_plain.bind fun _ => trivial
  | copy i => exact Code.Calls.bind (.lift _) fun _ => Obj.copy_plain.bind fun _ => trivial
  | assign i j =>
      exact Code.Calls.bind (.lift _) fun _ => Code.Calls.bind (.lift _) fun _ =>
        Obj.assign_plain.bind fun _ => trivial
  | setNum i num =>
      exact Code.Calls.bind (.lift _) fun _ => Code.Calls.bind (.lift _) fun _ =>
        Obj.setNum_plain.bind fun _ => trivial
  | setDen i den =>
      exact Code.Calls.bind (.lift _) fun _ => Code.Calls.bind (.lift _) fun _ =>
        Obj.setDen_plain.bind fun _ => trivial
  | add i j =>
      exact Code.Calls.bind (.lift _) fun _ => Code.Calls.bind (.lift _) fun _ =>
        Obj.add_plain.bind fun _ => trivial
  | sub i j =>
      exact Code.Calls.bind (.lift _) fun _ => Code.Calls.bind (.lift _) fun _ =>
        Obj.sub_plain.bind fun _ => trivial
  | mul i j =>
      exact Code.Calls.bind (.lift _) fun _ => Code.Calls.bind (.lift _) fun _ =>
        Obj.mul_plain.bind fun _ => trivial
  | div i j =>
      exact Code.Calls.bind (.lift _) fun _ => Code.Calls.bind (.lift _) fun _ =>
        Obj.div_plain.bind fun _ => trivial
  | reciprocal i =>
      exact Code.Calls.bind (.lift _) fun _ => Obj.reciprocal_plain.bind fun _ => trivial

theorem run_plain (n : Nat) (objs : List Obj) (actions : List Action) :
    Plain (runCode n objs actions) := by
  induction actions generalizing objs with
  | nil => trivial
  | cons a actions ih => exact (action_plain n objs a).bind ih

theorem programs_simulate {stmts : List Stmt} {u : Values}
    (hok : Runs.Guarded BigInteger.step (fun h stmt => stmt.Faultless h) Heap.initial stmts)
    (hrun : stmts.foldlM Stmt.evalStep Values.initial = some u) {actions : List Action}
    {fs : List Fraction} (hfs : actions.foldlM (Action.step u) [] = some fs) :
    ∃ h, stmts.foldlM BigInteger.step Heap.initial = some h ∧ h.values = u ∧
      ∃ N, ∀ n ≥ N, (runCode n [] actions).Ends Heap.answer h fun objs h' =>
        (h'.impls.Sound ∧ h'.Kept) ∧ Lays u objs fs h'.values := by
  obtain ⟨h, hsteps, ⟨hs, hk⟩, rfl⟩ := run_simulates hok hrun
  obtain ⟨N, hN⟩ := run_refines hk.values_tidy hfs
  refine ⟨h, hsteps, rfl, N, fun n hn => ?_⟩
  exact code_exact (run_plain n [] actions) hs hk (hN n hn [] h.values (lays_nil hk.values_tidy))

/-- Programs with fractions compute with fractions. Behind any faultless run that leaves the client
with the integers `u`, the actions do to the objects what they do to the fractions: each fraction
owns its two parts alone, these show its numerator and its denominator, the client's objects are as
before, and there are no other objects. -/
theorem programs_exact {stmts : List Stmt} {u : Values}
    (hok : Runs.Guarded BigInteger.step (fun h stmt => stmt.Faultless h) Heap.initial stmts)
    (hrun : stmts.foldlM Stmt.evalStep Values.initial = some u) {actions : List Action}
    {fs : List Fraction} (hfs : actions.foldlM (Action.step u) [] = some fs) :
    ∃ h, stmts.foldlM BigInteger.step Heap.initial = some h ∧ h.values = u ∧
      ∃ N, ∀ n ≥ N, (runCode n [] actions).Ends Heap.answer h fun objs h' =>
        h'.Kept ∧ Lays u objs fs h'.values ∧ ∀ (i : Nat) (F : Fraction), fs[i]? = some F →
          ∃ f, objs[i]? = some f ∧ h'.Shows f.num F.num ∧ h'.Shows f.den F.den := by
  obtain ⟨h, hsteps, hvalues, N, hN⟩ := programs_simulate hok hrun hfs
  refine ⟨h, hsteps, hvalues, N, fun n hn => (hN n hn).mono ?_⟩
  rintro objs h' ⟨⟨hs', hk'⟩, hlays⟩
  refine ⟨hk', hlays, fun i F hF => ?_⟩
  obtain ⟨f, hf, hholds⟩ := hlays.get hF
  have hsound : h'.Sound := ⟨hs', hk'.owned⟩
  exact ⟨f, hf, Heap.shows_of_value hsound hholds.num, Heap.shows_of_value hsound hholds.den⟩

/-- A fraction of 6 and 4, and its sum with itself. -/
theorem programs_exact_sum :
    ∃ h, [Stmt.ofI64 ⟨6, by decide⟩, .ofI64 ⟨4, by decide⟩].foldlM BigInteger.step Heap.initial =
        some h ∧
      ∃ n objs h', (runCode n [] [.make (.object 0) (.object 1), .add 0 0]).run Heap.answer h =
        some (objs, h') ∧ ∃ f, objs[1]? = some f ∧ h'.text f.num 10 = some ['3'] := by
  have hsix : ¬ Num.TopLimbZero 6 := by decide
  have hfour : ¬ Num.TopLimbZero 4 := by decide
  have hok : Runs.Guarded BigInteger.step (fun h stmt => stmt.Faultless h) Heap.initial
      [Stmt.ofI64 ⟨6, by decide⟩, .ofI64 ⟨4, by decide⟩] :=
    ⟨hsix, fun _ _ => ⟨hfour, fun _ _ => trivial⟩⟩
  have hmake : Fraction.make 6 4 = some ⟨3, 2⟩ := (fix_eq (f := ⟨6, 4⟩) (by decide)).trans rfl
  have hadd : Fraction.add ⟨3, 2⟩ ⟨3, 2⟩ = some ⟨3, 1⟩ :=
    (fix_eq (f := ⟨12, 4⟩) (by decide)).trans rfl
  have hfs : [Action.make (.object 0) (.object 1), .add 0 0].foldlM
      (Action.step ((Values.initial.push 6).push 4)) [] = some [⟨3, 2⟩, ⟨3, 1⟩] := by
    have hfirst : Action.step ((Values.initial.push 6).push 4) [] (.make (.object 0) (.object 1)) =
        some [⟨3, 2⟩] := by
      change (Fraction.make 6 4).bind _ = _
      rw [hmake]
      rfl
    have hsecond : Action.step ((Values.initial.push 6).push 4) [⟨3, 2⟩] (.add 0 0) =
        some [⟨3, 2⟩, ⟨3, 1⟩] := by
      change (Fraction.add ⟨3, 2⟩ ⟨3, 2⟩).bind _ = _
      rw [hadd]
      rfl
    rw [List.foldlM_cons, hfirst]
    change Action.step _ _ _ >>= _ = _
    rw [hsecond]
    rfl
  obtain ⟨h, hrun, -, N, hN⟩ := programs_exact hok rfl hfs
  obtain ⟨objs, h', hcode, -, -, hshows⟩ := hN N (Nat.le_refl N)
  obtain ⟨f, hf, hnum, -⟩ := hshows 1 ⟨3, 1⟩ rfl
  exact ⟨h, hrun, N, objs, h', hcode, f, hf, hnum.text 10 (by decide)⟩

end Fraction

end PGBigNumber
