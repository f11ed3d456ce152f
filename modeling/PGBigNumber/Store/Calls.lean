import PGBigNumber.Library.Code
import PGBigNumber.Store.Exact
import PGBigNumber.Store.Queries

/-!
# Code with `BigIntegerImpl` objects

Functions that are written with `BigIntegerImpl` objects are code over operations and queries. It
runs on the store and on integers, with the same results.
-/

namespace PGBigNumber.Program

/-- What a function asks of its objects: to carry out an operation, the number of the next object, a
property of an object, a comparison, and the 64 lowest bits. -/
inductive Call where
  | op (op : Op)
  | live
  | isZero (i : Nat)
  | isNegative (i : Nat)
  | isOne (i : Nat)
  | cmp (i j : Nat)
  | cmpI64 (i : Nat) (k : {k : Int // Num.InI64 k})
  | toU64 (i : Nat)

abbrev Call.Answer : Call → Type
  | .op _ => Unit
  | .live => Nat
  | .isZero _ | .isNegative _ | .isOne _ => Bool
  | .cmp _ _ | .cmpI64 _ _ => Int
  | .toU64 _ => UInt64

def ask {α : Type} (p : Program) (i : Nat) (query : Store → Nat → α) : Option (α × Program) :=
  if p.Usable i then some (query p.store i, p) else none

def answer : Code.Machine Program Call.Answer
  | p, .op op => (p.step op).map ((), ·)
  | p, .live => some (p.store.live, p)
  | p, .isZero i => p.ask i Store.isZero
  | p, .isNegative i => p.ask i Store.isNegative
  | p, .isOne i => p.ask i Store.isOne
  | p, .cmp i j => if p.Usable j then p.ask i (·.cmp · j) else none
  | p, .cmpI64 i k => p.ask i (·.cmpI64 · k)
  | p, .toU64 i => do
    let (u64, p) ← p.ask i fun σ i => (σ.toU64 i).1
    return (u64, ← p.step (.toU64 i))

def query {α : Type} (v : Values) (i : Nat) (f : Int → α) : Option (α × Values) := do
  return (f (← v.value i), v)

def compare (x y : Int) : Int := if x < y then -1 else if x = y then 0 else 1

def evalCall : Code.Machine Values Call.Answer
  | v, .op op => (v.step op).map ((), ·)
  | v, .live => some (v.live, v)
  | v, .isZero i => query v i fun x => decide (x = 0)
  | v, .isNegative i => query v i fun x => decide (x < 0)
  | v, .isOne i => query v i fun x => decide (x = 1)
  | v, .cmp i j => do
    let y ← v.value j
    query v i fun x => compare x y
  | v, .cmpI64 i k => query v i fun x => compare x k
  | v, .toU64 i => do
    let (u64, v) ← query v i fun x => UInt64.ofNat (x % 2 ^ 64).toNat
    return (u64, ← v.step (.toU64 i))

def Answered (p : Program) : Call → Prop
  | .op op => p.Faultless op
  | .cmpI64 _ k => ¬ Num.TopLimbZero k
  | _ => True

section

variable {p : Program} {v v' : Values} {q : Call} {i : Nat} {x : Int}

private theorem ask_eq {α : Type} {f : Store → Nat → α} {a : α} (hx : p.values.value i = some x)
    (hf : f p.store i = a) : p.ask i f = some (a, p) := by
  rw [ask, if_pos (usable_of_value hx).1, hf]

private theorem query_eq {α : Type} {f : Int → α} {a : α} (h : query v i f = some (a, v')) :
    ∃ x, v.value i = some x ∧ f x = a ∧ v' = v := by
  obtain ⟨x, hx, h⟩ := Option.bind_eq_some_iff.mp h
  cases h
  exact ⟨x, hx, rfl, rfl⟩

theorem call_exact {r : q.Answer} (hs : p.Sound) (hq : p.Answered q)
    (ha : evalCall p.values q = some (r, v)) :
    ∃ p', p.answer q = some (r, p') ∧ p'.Sound ∧ p'.values = v := by
  cases q with
  | op op =>
      obtain ⟨v', hstep, heq⟩ := Option.map_eq_some_iff.mp ha
      cases heq
      obtain ⟨p', hstep', hrest⟩ := step_exact hs hq hstep
      exact ⟨p', by rw [answer, hstep']; rfl, hrest⟩
  | live =>
      cases ha
      exact ⟨p, rfl, hs, rfl⟩
  | isZero i =>
      obtain ⟨x, hx, rfl, rfl⟩ := query_eq ha
      obtain ⟨hi, hnum⟩ := hs.num_of_value hx
      refine ⟨p, ask_eq hx ?_, hs, rfl⟩
      rw [Bool.eq_iff_iff, decide_eq_true_iff, Store.isZero_iff hnum]
  | isNegative i =>
      obtain ⟨x, hx, rfl, rfl⟩ := query_eq ha
      exact ⟨p, ask_eq hx (Store.isNegative_eq (hs.num_of_value hx).2), hs, rfl⟩
  | isOne i =>
      obtain ⟨x, hx, rfl, rfl⟩ := query_eq ha
      obtain ⟨hi, hnum⟩ := hs.num_of_value hx
      exact ⟨p, ask_eq hx (Store.isOne_eq hs.wf hi hnum), hs, rfl⟩
  | cmp i j =>
      obtain ⟨y, hy, ha⟩ := Option.bind_eq_some_iff.mp ha
      obtain ⟨x, hx, rfl, rfl⟩ := query_eq ha
      obtain ⟨hi, hnum⟩ := hs.num_of_value hx
      obtain ⟨hj, hnum'⟩ := hs.num_of_value hy
      refine ⟨p, ?_, hs, rfl⟩
      rw [answer, if_pos (usable_of_value hy).1]
      refine ask_eq hx ?_
      rw [Store.cmp_eq hs.wf hi hj, hnum, hnum', Num.cmp_ofInt]
      rfl
  | cmpI64 i k =>
      obtain ⟨x, hx, rfl, rfl⟩ := query_eq ha
      obtain ⟨hi, hnum⟩ := hs.num_of_value hx
      refine ⟨p, ?_, hs, rfl⟩
      rw [answer]
      refine ask_eq hx ?_
      rw [Store.cmpI64_eq hs.wf hi, hnum, Num.ofI64_eq k.2 hq, Num.cmp_ofInt]
      rfl
  | toU64 i =>
      obtain ⟨⟨u64, v₁⟩, hquery, ha⟩ := Option.bind_eq_some_iff.mp ha
      obtain ⟨x, hx, rfl, rfl⟩ := query_eq hquery
      obtain ⟨v₂, hstep, heq⟩ := Option.bind_eq_some_iff.mp ha
      cases heq
      obtain ⟨hi, hnum⟩ := hs.num_of_value hx
      have hok : p.Faultless (.toU64 i) := ⟨⟨trivial, trivial, trivial⟩, trivial⟩
      obtain ⟨p', hstep', hrest⟩ := step_exact hs hok hstep
      refine ⟨p', ?_, hrest⟩
      have hvalue : (p.store.toU64 i).1 = UInt64.ofNat (x % 2 ^ 64).toNat := by
        rw [← UInt64.toNat_inj, UInt64.toNat_ofNat']
        have hu64 := Store.toU64_eq hs.wf hi hnum (hs.caches i hi)
        omega
      rw [answer, ask_eq hx hvalue, Option.bind_eq_bind, Option.bind_some]
      dsimp only
      rw [hstep']
      rfl

theorem values_tidy (p : Program) : p.values.Tidy :=
  fun _ hi => value_of_not_usable fun hu => absurd hu.1 (Nat.not_lt.mpr hi)

theorem code_exact {β : Type} {c : Code Call.Answer β} {Q : β → Values → Prop} (hs : p.Sound)
    (hok : c.Guarded answer Answered p) (hends : c.Ends evalCall p.values Q) :
    c.Ends answer p fun b p' => p'.Sound ∧ Q b p'.values := by
  have hcall : ∀ (p : Program) (q : Call) (r : q.Answer) (v : Values), p.Sound → p.Answered q →
      evalCall p.values q = some (r, v) → ∃ p', p.answer q = some (r, p') ∧ p'.Sound ∧ p'.values = v :=
    fun _ _ _ _ hs hq ha => call_exact hs hq ha
  exact Code.Ends.simulation values hcall hs hok hends

end

def perform (op : Op) : Code Call.Answer Unit := .of (Call.op op)

def make (op : Op) : Code Call.Answer Nat := do
  let i ← Code.of Call.live
  perform op
  return i

def drop (i : Nat) : Code Call.Answer Unit := perform (.destroy i)

def isZero (i : Nat) : Code Call.Answer Bool := .of (Call.isZero i)

def isNegative (i : Nat) : Code Call.Answer Bool := .of (Call.isNegative i)

def isOne (i : Nat) : Code Call.Answer Bool := .of (Call.isOne i)

def cmp (i j : Nat) : Code Call.Answer Int := .of (Call.cmp i j)

def cmpI64 (i : Nat) (k : {k : Int // Num.InI64 k}) : Code Call.Answer Int := .of (Call.cmpI64 i k)

def toU64 (i : Nat) : Code Call.Answer UInt64 := .of (Call.toU64 i)

theorem calls_perform {okay : Call → Prop} {op : Op} (h : okay (.op op)) :
    (perform op).Calls okay :=
  .of h

theorem calls_make {okay : Call → Prop} {op : Op} (hlive : okay .live) (h : okay (.op op)) :
    (make op).Calls okay :=
  Code.Calls.bind (.of hlive) fun _ => (calls_perform h).bind fun _ => trivial

section

variable {v v' : Values} {op : Op} {i j : Nat} {x y : Int} {β : Type} {Q : β → Values → Prop}

theorem values_step_eq (hreads : ∀ k ∈ op.reads, (v.value k).isSome)
    (hlive : ∀ k ∈ op.writes ++ op.loses, k < v.live) (hallowed : op.allowed = true)
    (hm : op.meaning v = some v') : v.step op = some v' :=
  (if_pos ⟨hreads, hlive, hallowed⟩).trans hm

theorem ends_last {Q : Unit → Values → Prop} (hstep : v.step op = some v') (h : Q () v') :
    (perform op).Ends evalCall v Q :=
  .of (by rw [evalCall, hstep]; rfl) h

theorem ends_perform {f : Unit → Code Call.Answer β} (hstep : v.step op = some v')
    (h : (f ()).Ends evalCall v' Q) : (perform op >>= f).Ends evalCall v Q :=
  .step (by rw [evalCall, hstep]; rfl) h

theorem ends_made {Q : Nat → Values → Prop} (hstep : v.step op = some v') (h : Q v.live v') :
    (make op).Ends evalCall v Q :=
  .step rfl (ends_perform hstep (.ret h))

theorem ends_make {f : Nat → Code Call.Answer β} (hstep : v.step op = some v')
    (h : (f v.live).Ends evalCall v' Q) : (make op >>= f).Ends evalCall v Q := by
  have hmake : (make op).Ends evalCall v fun i v₁ => i = v.live ∧ v₁ = v' :=
    ends_made hstep ⟨rfl, rfl⟩
  exact hmake.bind fun i v₁ h' => h'.1 ▸ h'.2 ▸ h

theorem ends_isZero {f : Bool → Code Call.Answer β} (hx : v.value i = some x)
    (h : (f (decide (x = 0))).Ends evalCall v Q) : (isZero i >>= f).Ends evalCall v Q :=
  .step (by rw [evalCall, query, hx]; rfl) h

theorem ends_isNegative {f : Bool → Code Call.Answer β} (hx : v.value i = some x)
    (h : (f (decide (x < 0))).Ends evalCall v Q) : (isNegative i >>= f).Ends evalCall v Q :=
  .step (by rw [evalCall, query, hx]; rfl) h

theorem ends_isOne {f : Bool → Code Call.Answer β} (hx : v.value i = some x)
    (h : (f (decide (x = 1))).Ends evalCall v Q) : (isOne i >>= f).Ends evalCall v Q :=
  .step (by rw [evalCall, query, hx]; rfl) h

theorem ends_cmp {f : Int → Code Call.Answer β} (hx : v.value i = some x) (hy : v.value j = some y)
    (h : (f (compare x y)).Ends evalCall v Q) : (cmp i j >>= f).Ends evalCall v Q :=
  .step (by rw [evalCall, hy, Option.bind_eq_bind, Option.bind_some, query, hx]; rfl) h

theorem ends_cmpI64 {f : Int → Code Call.Answer β} {k : {k : Int // Num.InI64 k}}
    (hx : v.value i = some x) (h : (f (compare x k)).Ends evalCall v Q) :
    (cmpI64 i k >>= f).Ends evalCall v Q :=
  .step (by rw [evalCall, query, hx]; rfl) h

theorem ends_toU64 {f : UInt64 → Code Call.Answer β} (hx : v.value i = some x)
    (h : (f (UInt64.ofNat (x % 2 ^ 64).toNat)).Ends evalCall v Q) :
    (toU64 i >>= f).Ends evalCall v Q := by
  have hstep : v.step (.toU64 i) = some v := by
    refine values_step_eq (fun k hk => ?_) (fun _ hk => absurd hk List.not_mem_nil) rfl rfl
    rw [List.mem_singleton.mp hk, hx, Option.isSome_some]
  refine .step ?_ h
  rw [evalCall, query, hx]
  change (v.step (.toU64 i)).bind _ = _
  rw [hstep]
  rfl

theorem step_createI64 (k : {k : Int // Num.InI64 k}) : v.step (.createI64 k) = some (v.push k) :=
  values_step_eq (fun _ hk => absurd hk List.not_mem_nil) (fun _ hk => absurd hk List.not_mem_nil) rfl
    rfl

theorem step_create : v.step .create = some (v.push 0) :=
  values_step_eq (fun _ hk => absurd hk List.not_mem_nil) (fun _ hk => absurd hk List.not_mem_nil) rfl
    rfl

theorem step_createCopy (hx : v.value i = some x) : v.step (.createCopy i) = some (v.push x) := by
  refine values_step_eq (fun k hk => ?_) (fun _ hk => absurd hk List.not_mem_nil) rfl ?_
  · rw [List.mem_singleton.mp hk, hx, Option.isSome_some]
  · rw [Op.meaning, hx]
    rfl

theorem step_createMove (htidy : v.Tidy) (hx : v.value i = some x) :
    v.step (.createMove i) = some ((v.push x).lose i) := by
  refine values_step_eq (fun k hk => ?_) (fun k hk => ?_) rfl ?_
  · rw [List.mem_singleton.mp hk, hx, Option.isSome_some]
  · rw [List.mem_singleton.mp hk]
    exact htidy.lt hx
  · rw [Op.meaning, hx]
    rfl

theorem step_destroy (hi : i < v.live) : v.step (.destroy i) = some (v.lose i) := by
  refine values_step_eq (fun _ hk => absurd hk List.not_mem_nil) (fun k hk => ?_) rfl rfl
  rw [List.mem_singleton.mp hk]
  exact hi

theorem step_unary {f : Int → Int} (htidy : v.Tidy) (hx : v.value i = some x)
    (hreads : op.reads = [i]) (hwrites : op.writes = [i]) (hloses : op.loses = [])
    (hallowed : op.allowed = true)
    (hm : op.meaning v = do return v.set i (f (← v.value i))) : v.step op = some (v.set i (f x)) := by
  refine values_step_eq (fun k hk => ?_) (fun k hk => ?_) hallowed ?_
  · rw [hreads] at hk
    rw [List.mem_singleton.mp hk, hx, Option.isSome_some]
  · rw [hwrites, hloses] at hk
    rw [List.mem_singleton.mp hk]
    exact htidy.lt hx
  · rw [hm, hx]
    rfl

theorem step_binary {z : Int} (htidy : v.Tidy) (hx : v.value i = some x) (hy : v.value j = some y)
    (hreads : op.reads = [i, j]) (hwrites : op.writes = [i]) (hloses : op.loses = [])
    (hallowed : op.allowed = true) (hm : op.meaning v = some (v.set i z)) :
    v.step op = some (v.set i z) := by
  refine values_step_eq (fun k hk => ?_) (fun k hk => ?_) hallowed hm
  · rw [hreads] at hk
    rcases List.mem_pair.mp hk with rfl | rfl
    · rw [hx, Option.isSome_some]
    · rw [hy, Option.isSome_some]
  · rw [hwrites, hloses] at hk
    rw [List.mem_singleton.mp hk]
    exact htidy.lt hx

end

end PGBigNumber.Program
