import PGBigNumber.BigInteger.Observe
import PGBigNumber.Library.Code

/-!
# Code with big integers

Functions that are written with `BigInteger` objects are code over statements and queries. It runs
on objects and on integers, with the same results.
-/

namespace PGBigNumber.BigInteger

open Program (Arg)

/-- What a function asks of its objects: to carry out a statement, the number of the next object, an
answer of a comparison operator or of `cmp`, and a text. -/
inductive Call where
  | stmt (stmt : Stmt)
  | live
  | compare (rel : Rel) (operands : Operands)
  | cmp (v : Nat) (other : Arg)
  | text (v radix : Nat)

abbrev Call.Answer : Call → Type
  | .stmt _ => Unit
  | .live => Nat
  | .compare _ _ => Bool
  | .cmp _ _ => Int
  | .text _ _ => List Char

def Heap.answer : Code.Machine Heap Call.Answer
  | h, .stmt stmt => (step h stmt).map ((), ·)
  | h, .live => some (h.live, h)
  | h, .compare rel operands => (h.compare rel operands).map (·, h)
  | h, .cmp v other => (h.cmp v other).map (·, h)
  | h, .text v radix => do
    let s ← h.text v radix
    return (s, ← step h (.toString v radix))

def textOf (x : Int) (radix : Nat) : List Char :=
  (if x < 0 then ['-'] else []) ++ toChars x.natAbs radix

def evalCall : Code.Machine Values Call.Answer
  | u, .stmt stmt => (stmt.evalStep u).map ((), ·)
  | u, .live => some (u.live, u)
  | u, .compare rel operands => do
    return (rel.holds (← operands.left.value u) (← operands.right.value u), u)
  | u, .cmp v other => do
    let x ← u.value v
    let y ← other.value u
    return (if x < y then -1 else if x = y then 0 else 1, u)
  | u, .text v radix => do
    let x ← u.value v
    return (textOf x radix, ← Stmt.evalStep u (.toString v radix))

def Call.Plain : Call → Prop
  | .stmt s => s.Plain
  | .compare _ (.bigInt _ k) | .cmp _ (.int64 k) => ¬ Num.TopLimbZero k
  | .compare rel (.intBig k _) => rel ≠ .gt ∧ ¬ Num.TopLimbZero k
  | _ => True

section

variable {h : Heap} {u : Values} {q : Call}

theorem Call.Plain.answers {rel : Rel} {operands : Operands}
    (h : (Call.compare rel operands).Plain) {x y : Int} (hx : operands.left.value u = some x)
    (hy : operands.right.value u = some y) : rel.Answers x y operands := by
  cases operands with
  | bigBig left right => trivial
  | bigInt left k =>
      obtain rfl := Option.some.inj hy
      exact fun htop _ => absurd htop h
  | intBig k right =>
      obtain rfl := Option.some.inj hx
      exact ⟨fun hgt => absurd hgt h.1, fun htop => absurd htop h.2⟩

theorem call_exact {r : q.Answer} (hs : h.impls.Sound) (hk : h.Kept) (hq : q.Plain)
    (ha : evalCall h.values q = some (r, u)) :
    ∃ h', h.answer q = some (r, h') ∧ (h'.impls.Sound ∧ h'.Kept) ∧ h'.values = u := by
  have hsound : h.Sound := ⟨hs, hk.owned⟩
  cases q with
  | stmt stmt =>
      obtain ⟨u', heval, heq⟩ := Option.map_eq_some_iff.mp ha
      cases heq
      obtain ⟨h', hstep, hrest⟩ := step_exact hs hk (hq.faultless h) heval
      exact ⟨h', by rw [Heap.answer, hstep]; rfl, hrest⟩
  | live =>
      cases ha
      exact ⟨h, rfl, ⟨hs, hk⟩, rfl⟩
  | compare rel operands =>
      obtain ⟨x, hx, ha⟩ := Option.bind_eq_some_iff.mp ha
      obtain ⟨y, hy, ha⟩ := Option.bind_eq_some_iff.mp ha
      cases ha
      refine ⟨h, ?_, ⟨hs, hk⟩, rfl⟩
      rw [Heap.answer, (Heap.compare_iff hsound hx hy).mpr (hq.answers hx hy)]
      rfl
  | cmp v other =>
      obtain ⟨x, hx, ha⟩ := Option.bind_eq_some_iff.mp ha
      obtain ⟨y, hy, ha⟩ := Option.bind_eq_some_iff.mp ha
      cases ha
      refine ⟨h, ?_, ⟨hs, hk⟩, rfl⟩
      cases other with
      | big w =>
          rw [Heap.answer, Heap.cmp_big hsound hx hy]
          rfl
      | int64 k =>
          obtain rfl := Option.some.inj hy
          rw [Heap.answer, Heap.cmp_int64 hsound hx, Heap.cmp_ofI64 k.2,
            if_neg (show ¬ Num.TopLimbZero k from hq)]
          rfl
  | text v radix =>
      obtain ⟨x, hx, ha⟩ := Option.bind_eq_some_iff.mp ha
      obtain ⟨u', heval, heq⟩ := Option.bind_eq_some_iff.mp ha
      cases heq
      have hr : ValidRadix radix := by
        unfold Stmt.evalStep at heval
        split at heval
        · rw [Stmt.meaning] at heval
          by_contra hr
          rw [if_neg hr] at heval
          exact absurd heval (by simp)
        · exact absurd heval (by simp)
      obtain ⟨h', hstep, hrest⟩ := step_exact hs hk (show (Stmt.toString v radix).Faultless h from trivial) heval
      refine ⟨h', ?_, hrest⟩
      rw [Heap.answer, (Heap.shows_of_value hsound hx).text radix hr, Option.bind_eq_bind,
        Option.bind_some, hstep]
      rfl

/-- Code with such calls does to objects what it does to integers. -/
theorem code_exact {β : Type} {c : Code Call.Answer β} {Q : β → Values → Prop}
    (hc : c.Calls Call.Plain) (hs : h.impls.Sound) (hk : h.Kept)
    (hends : c.Ends evalCall h.values Q) :
    c.Ends Heap.answer h fun b h' => (h'.impls.Sound ∧ h'.Kept) ∧ Q b h'.values := by
  have hcall : ∀ (h : Heap) (q : Call) (r : q.Answer) (u : Values), h.impls.Sound ∧ h.Kept →
      q.Plain → evalCall h.values q = some (r, u) →
      ∃ h', h.answer q = some (r, h') ∧ (h'.impls.Sound ∧ h'.Kept) ∧ h'.values = u :=
    fun _ _ _ _ hI hok ha => call_exact hI.1 hI.2 hok ha
  exact Code.Ends.simulation Heap.values hcall ⟨hs, hk⟩ (hc.guarded (fun _ _ hq => hq) h) hends

end

theorem Heap.Kept.values_tidy {h : Heap} (hk : h.Kept) : h.values.Tidy := by
  intro v hv
  change (h.pImpl v).bind _ = none
  rw [hk.tidy v hv, Option.bind_none]

theorem inI64_zero : Num.InI64 0 := by decide

def exec (stmt : Stmt) : Code Call.Answer Unit := .of (Call.stmt stmt)

def make (stmt : Stmt) : Code Call.Answer Nat := do
  let v ← Code.of Call.live
  exec stmt
  return v

def compare (rel : Rel) (operands : Operands) : Code Call.Answer Bool :=
  .of (Call.compare rel operands)

def cmp (v : Nat) (other : Arg) : Code Call.Answer Int := .of (Call.cmp v other)

def toString (v radix : Nat) : Code Call.Answer (List Char) := .of (Call.text v radix)

def drop (v : Nat) : Code Call.Answer Unit := exec (.destroy v)

abbrev Plain {β : Type} (c : Code Call.Answer β) : Prop := c.Calls Call.Plain

section

variable {β : Type} {stmt : Stmt} {rel : Rel} {operands : Operands} {v radix : Nat} {other : Arg}

theorem plain_last (h : stmt.Plain) : Plain (exec stmt) := .of h

theorem plain_exec {k : Unit → Code Call.Answer β} (h : stmt.Plain) (hk : Plain (k ())) :
    Plain (exec stmt >>= k) :=
  Code.Calls.bind (plain_last h) fun _ => hk

theorem plain_make {k : Nat → Code Call.Answer β} (h : stmt.Plain) (hk : ∀ v, Plain (k v)) :
    Plain (make stmt >>= k) :=
  Code.Calls.bind (Code.Calls.bind (.of trivial) fun _ => plain_exec h trivial) hk

theorem plain_compare (h : (Call.compare rel operands).Plain) : Plain (compare rel operands) := .of h

theorem plain_cmp {k : Int → Code Call.Answer β} (h : (Call.cmp v other).Plain)
    (hk : ∀ c, Plain (k c)) : Plain (cmp v other >>= k) :=
  Code.Calls.bind (.of h) hk

theorem plain_toString {k : List Char → Code Call.Answer β} (hk : ∀ s, Plain (k s)) :
    Plain (toString v radix >>= k) :=
  Code.Calls.bind (.of trivial) hk

end

section

variable {u t : Values} {stmt : Stmt} {rel : Rel} {operands : Operands} {v : Nat} {other : Arg}
  {x y : Int} {β : Type} {Q : β → Values → Prop}

theorem evalStep_eq (hlive : ∀ v ∈ stmt.objects, v < u.live) (hm : stmt.meaning u = some t) :
    stmt.evalStep u = some t :=
  (if_pos hlive).trans hm

theorem ends_last {Q : Unit → Values → Prop} (hlive : ∀ v ∈ stmt.objects, v < u.live)
    (hm : stmt.meaning u = some t) (h : Q () t) : (exec stmt).Ends evalCall u Q :=
  .of (by rw [evalCall, evalStep_eq hlive hm]; rfl) h

theorem ends_exec {f : Unit → Code Call.Answer β} (hlive : ∀ v ∈ stmt.objects, v < u.live)
    (hm : stmt.meaning u = some t) (h : (f ()).Ends evalCall t Q) :
    (exec stmt >>= f).Ends evalCall u Q :=
  .step (by rw [evalCall, evalStep_eq hlive hm]; rfl) h

theorem ends_make {f : Nat → Code Call.Answer β} (hlive : ∀ v ∈ stmt.objects, v < u.live)
    (hm : stmt.meaning u = some t) (h : (f u.live).Ends evalCall t Q) :
    (make stmt >>= f).Ends evalCall u Q := by
  have hmake : (make stmt).Ends evalCall u fun v u₁ => v = u.live ∧ u₁ = t :=
    .step rfl (ends_exec hlive hm (.ret ⟨rfl, rfl⟩))
  exact hmake.bind fun v u₁ ⟨hv, hu⟩ => hv ▸ hu ▸ h

theorem ends_compare {Q : Bool → Values → Prop} (hx : operands.left.value u = some x)
    (hy : operands.right.value u = some y) (h : Q (rel.holds x y) u) :
    (compare rel operands).Ends evalCall u Q :=
  .of (by rw [evalCall, hx, hy]; rfl) h

theorem ends_when {c : Code Call.Answer Unit} {Q : Unit → Values → Prop}
    (hx : operands.left.value u = some x) (hy : operands.right.value u = some y)
    (hyes : rel.holds x y = true → c.Ends evalCall u Q) (hno : rel.holds x y = false → Q () u) :
    (Code.when (compare rel operands) c).Ends evalCall u Q := by
  refine Code.Ends.bind (ends_compare hx hy ⟨rfl, rfl⟩)
    (fun b s' ⟨hb, hs⟩ => ?_ : ∀ b s', b = rel.holds x y ∧ s' = u → _)
  subst hb hs
  cases hb : rel.holds x y with
  | true => exact hyes hb
  | false => exact .ret (hno hb)

theorem ends_cmp {f : Int → Code Call.Answer β} (hx : u.value v = some x) (hy : other.value u = some y)
    (h : (f (if x < y then -1 else if x = y then 0 else 1)).Ends evalCall u Q) :
    (cmp v other >>= f).Ends evalCall u Q :=
  .step (by rw [evalCall, hx, hy]; rfl) h

theorem ends_toString {radix : Nat} {f : List Char → Code Call.Answer β} (htidy : u.Tidy)
    (hx : u.value v = some x) (hr : ValidRadix radix)
    (h : (f (textOf x radix)).Ends evalCall u Q) : (toString v radix >>= f).Ends evalCall u Q := by
  have hlive : ∀ w ∈ (Stmt.toString v radix).objects, w < u.live :=
    fun w hw => List.mem_singleton.mp hw ▸ htidy.lt hx
  -- the text does not change the object
  have hm : (Stmt.toString v radix).meaning u = some u := by
    rw [Stmt.meaning, if_pos hr, change, hx]
    exact congrArg some (Values.set_self hx)
  refine .step ?_ h
  rw [evalCall, hx, Option.bind_eq_bind, Option.bind_some, evalStep_eq hlive hm]
  rfl

end

end PGBigNumber.BigInteger
