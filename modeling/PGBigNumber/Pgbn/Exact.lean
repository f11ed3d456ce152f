import PGBigNumber.BigInteger.Calls
import PGBigNumber.Pgbn.Owned

/-!
# Clients of the C interface compute with integers

What a client is told about its numbers and strings is what it would be told about integers and
texts, also where it goes on with what it was told.
-/

namespace PGBigNumber.Pgbn

open BigInteger (Heap BinOp Stmt textOf)
open Program (Arg)

/-- The number that a text writes, if it writes one: with digits of a radix from 2 to 36 only, and
not more of them than `fromString` counts. -/
def numberOf (str : List Char) (radix : Int) : Option Int :=
  if radix < 2 ∨ radix > 36 ∨ Overflows radix.toNat str then none else denote radix.toNat str

def accepts (str : List Char) (radix : Int) : Bool :=
  !decide (radix < 2 ∨ radix > 36 ∨ Rejected radix.toNat str)

namespace Objects

variable (u : Objects Values)

def exec (stmt : Stmt) : Option (Unit × Objects Values) :=
  (stmt.evalStep u.numbers).map fun v => ((), { u with numbers := v })

def push (x : Int) : Nat × Objects Values :=
  (u.numbers.live, { u with numbers := u.numbers.push x })

def read {ρ : Type} (b : Nat) (f : Int → ρ) : Option (ρ × Objects Values) := do
  return (f (← u.numbers.value b), u)

end Objects

def int64Of (x : Int) : Int64 × Bool :=
  if Num.InI64 x then (Int64.ofInt x, true) else (Int64.maxValue, false)

/-- The calls on integers. The bounds of the conversion to `uint64_t` become `-1` and `0`, and
nothing lies between them. -/
def evalCall : Code.Machine (Objects Values) Call.Answer
  | u, .stringCreate str => some (u.stringCreate str)
  | u, .stringCStr str => u.stringCStr str
  | u, .stringLength str => u.stringLength str
  | u, .stringDestroy str => u.stringDestroy str
  | u, .create => some (u.push 0)
  | u, .createWithCopying other => do return u.push (← u.numbers.value other)
  | u, .createWithI64 i64 => some (u.push i64)
  | u, .createWithStr str radix =>
    match numberOf (cStr str) radix with
    | some x => some (some (u.push x).1, (u.push x).2)
    | none => some (none, { u with numbers := { u.numbers with live := u.numbers.live + 1 } })
  | u, .createWithBin src little => some (u.push (bytesInt (Store.littleOf src little)))
  | u, .destroy b => do
    let _ ← u.numbers.value b
    u.exec (.destroy b)
  | u, .copy dest src => do
    let _ ← u.numbers.value dest
    let x ← u.numbers.value src
    return ((), { u with numbers := u.numbers.set dest x })
  | u, .assignWithI64 b i64 => u.exec (.assignI64 b i64)
  | u, .assignWithStr b str radix => do
    let x ← u.numbers.value b
    match numberOf (cStr str) radix with
    | some y => return (true, { u with numbers := u.numbers.set b y })
    | none => return (false, { u with numbers := u.numbers.set b x })
  | u, .assignWithBin b bin little => u.exec (.fromBinary b bin little)
  | u, .getInt64 b => u.read b fun x => (int64Of x).1
  | u, .getInt64WithChecking b => u.read b int64Of
  | u, .getUInt64 b => u.read b fun _ => UInt64.ofNat (2 ^ 64 - 1)
  | u, .getUInt64WithChecking b => u.read b fun _ => (UInt64.ofNat (2 ^ 64 - 1), false)
  | u, .get2sComplementBlock b i => u.read b fun x => limbAt x i
  | u, .toString b radix => do
    let x ← u.numbers.value b
    if ValidRadix radix then return u.stringCreate (textOf x radix) else none
  | u, .getMagData b maxlen => u.read b fun x => (magnitudeBytes x.natAbs).take maxlen
  | u, .isZero b => u.read b fun x => decide (x = 0)
  | u, .isOne b => u.read b fun x => decide (x = 1)
  | u, .isNegOne b => u.read b fun x => decide (x = -1)
  | u, .isPositive b => u.read b fun x => decide (0 < x)
  | u, .isNegative b => u.read b fun x => decide (x < 0)
  | u, .isEven b => u.read b fun x => decide (x % 2 = 0)
  | u, .isOdd b => u.read b fun x => decide (x % 2 = 1)
  | u, .cmpWithI64 a i64 => u.read a fun x => if x < i64 then -1 else if x = i64 then 0 else 1
  | u, .cmp a b => do
    let y ← u.numbers.value b
    u.read a fun x => if x < y then -1 else if x = y then 0 else 1
  | u, .inc b => u.exec (.inc b)
  | u, .dec b => u.exec (.dec b)
  | u, .notSelf b => u.exec (.notSelf b)
  | u, .negate b => u.exec (.negate b)
  | u, .absSelf b => u.exec (.abs b)
  | u, .notSelfBits b => u.exec (.notBits b)
  | u, .assignOp op a b => u.exec (.opAssign op a b)
  | u, .shlAssignWithI64 a i64 => u.exec (.shiftLeftAssign a i64.toUInt64)
  | u, .shrAssignWithI64 a i64 => u.exec (.shiftRightAssign a i64.toUInt64)

/-- The calls that meet none of the conditions under which the library goes wrong; a text that writes
no number is one that the library refuses. -/
def Call.Faultless (s : Objects Heap) : Call → Prop
  | .createWithI64 i64 | .assignWithI64 _ i64 => ¬ Num.TopLimbZero i64
  | .createWithStr str radix | .assignWithStr _ str radix =>
    numberOf (cStr str) radix = none → accepts (cStr str) radix = false
  | .createWithBin bin little | .assignWithBin _ bin little =>
    ¬ Misaligned (Store.littleOf bin little)
  | .cmpWithI64 a i64 => ∀ i, s.numbers.pImpl a = some i → Num.TopLimbZero i64 →
    (s.numbers.impls.store.num i).toInt ≠ i64
  | .notSelf b => (Stmt.notSelf b).Faultless s.numbers
  | .notSelfBits b => (Stmt.notBits b).Faultless s.numbers
  | .assignOp op a b => (Stmt.opAssign op a b).Faultless s.numbers
  | _ => True

namespace Objects

def values (s : Objects Heap) : Objects Values := ⟨s.numbers.values, s.strings⟩

structure Sound (s : Objects Heap) : Prop where
  impls : s.numbers.impls.Sound
  kept : s.numbers.Kept

theorem Sound.heap {s : Objects Heap} (hs : s.Sound) : s.numbers.Sound := ⟨hs.impls, hs.kept.owned⟩

/-- A call has been answered with `r` and has led to a sound state with the integers `u`. -/
def Answers {ρ : Type} (o : Option (ρ × Objects Heap)) (r : ρ) (u : Objects Values) : Prop :=
  ∃ s, o = some (r, s) ∧ s.Sound ∧ s.values = u

variable {s : Objects Heap} {u : Objects Values} {b : Nat} {x y : Int}

theorem step_sound (stmt : Stmt) (hs : s.Sound) (hok : stmt.Faultless s.numbers) {v : Values}
    (hm : stmt.evalStep s.numbers.values = some v) :
    ∃ h, stmt.exec s.numbers = some h ∧ Sound { s with numbers := h } ∧ h.values = v := by
  obtain ⟨h, hstep, ⟨himpls, hkept⟩, hv⟩ := BigInteger.step_exact hs.impls hs.kept hok hm
  refine ⟨h, ?_, ⟨himpls, hkept⟩, hv⟩
  unfold BigInteger.step at hstep
  split at hstep
  · exact hstep
  · exact absurd hstep (by simp)

theorem change_exact (stmt : Stmt) (hs : s.Sound) (hok : stmt.Faultless s.numbers) {r : Unit}
    (ha : s.values.exec stmt = some (r, u)) : Answers (s.change fun h => stmt.exec h) r u := by
  obtain ⟨v, hm, heq⟩ := Option.map_eq_some_iff.mp ha
  cases heq
  obtain ⟨h, hrun, hs', rfl⟩ := step_sound stmt hs hok hm
  refine ⟨{ s with numbers := h }, ?_, hs', rfl⟩
  rw [change, hrun]
  rfl

theorem make_exact (stmt : Stmt) (hs : s.Sound) (hok : stmt.Faultless s.numbers)
    (hm : stmt.evalStep s.numbers.values = some (s.numbers.values.push x)) :
    Answers ((stmt.exec s.numbers).map fun h => (s.numbers.live, { s with numbers := h }))
      (s.values.push x).1 (s.values.push x).2 := by
  obtain ⟨h, hrun, hs', hv⟩ := step_sound stmt hs hok hm
  refine ⟨{ s with numbers := h }, by rw [hrun, Option.map_some]; rfl, hs', ?_⟩
  rw [values, hv]
  rfl

theorem look_exact {ρ : Type} (f : Heap → Option ρ) {g : Int → ρ} (hs : s.Sound)
    (hf : ∀ x, s.numbers.values.value b = some x → f s.numbers = some (g x)) {r : ρ}
    (ha : s.values.read b g = some (r, u)) : Answers (s.look f) r u := by
  obtain ⟨x, hx, heq⟩ := Option.bind_eq_some_iff.mp ha
  cases heq
  exact ⟨s, by rw [look, hf x hx]; rfl, hs, rfl⟩

theorem cmpWithI64_exact {i64 : {k : Int // Num.InI64 k}} (hs : s.Sound)
    (hok : (Call.cmpWithI64 b i64).Faultless s) (hx : s.numbers.values.value b = some x) :
    s.numbers.cmp b (.int64 i64) = some (if x < i64 then -1 else if x = i64 then 0 else 1) := by
  obtain ⟨i, hi, -, hnum, -⟩ := hs.heap.impl hx
  rw [Heap.cmp_int64 hs.heap hx, Heap.cmp_ofI64 i64.2]
  by_cases hxk : x = i64
  · have htop : ¬ Num.TopLimbZero i64 := fun htop =>
      hok i hi htop (by rw [hnum, Num.toInt_ofInt, hxk])
    rw [if_neg htop]
  · rw [if_neg hxk, if_neg hxk]

theorem settles_exact (hs : s.Sound) {σ : Store} (hσ : Settles s.numbers.impls.store σ) :
    let s' := { s with numbers := { s.numbers with impls := { s.numbers.impls with store := σ } } }
    s'.Sound ∧ s'.values = s.values := by
  intro s'
  have huse : ∀ k, s'.numbers.impls.Usable k ↔ s.numbers.impls.Usable k := hσ.usable_iff
  have hkept : s'.numbers.Kept := hσ.inPlace.kept hs.kept
  obtain ⟨τ, e, hc, rfl⟩ := hσ
  have hlive : τ.live = s.numbers.impls.store.live := hc.live
  have hnum : ∀ k, s'.numbers.impls.store.num k = s.numbers.impls.store.num k := hc.num
  refine ⟨⟨⟨hc.wf hs.impls.wf, fun k hk => ?_, fun k hk => ?_⟩, hkept⟩, ?_⟩
  · rw [hnum]
    exact hs.impls.canon k ((huse k).mp hk)
  · exact hc.cacheOk k (hs.impls.caches k (hlive ▸ hk))
  · have hvalues : s'.numbers.impls.values = s.numbers.impls.values := by
      refine Values.ext (funext fun k => ?_) hlive
      simp only [Program.values, huse, hnum]
    rw [values, values, Heap.values, hvalues]
    rfl

theorem convert_exact {α : Type} {f : Store → Nat → Store.Checked α} {g : Int → α × Bool}
    (hs : s.Sound) {r : α × Bool}
    (hf : ∀ i x, i < s.numbers.impls.store.live → s.numbers.impls.store.num i = Num.ofInt x →
      s.numbers.impls.store.CacheOk i →
        ((f s.numbers.impls.store i).value, (f s.numbers.impls.store i).ok) = g x)
    (hsettles : ∀ σ i, Settles σ (f σ i).store) (ha : s.values.read b g = some (r, u)) :
    Answers (s.convert f b) r u := by
  obtain ⟨x, hx, heq⟩ := Option.bind_eq_some_iff.mp ha
  cases heq
  obtain ⟨i, hi, hlt, hnum, hcache⟩ := hs.heap.impl hx
  obtain ⟨hs', hvalues⟩ := settles_exact hs (hsettles s.numbers.impls.store i)
  refine ⟨_, ?_, hs', hvalues⟩
  rw [convert, hi, Option.bind_eq_bind, Option.bind_some, ← hf i x hlt hnum hcache]
  rfl

theorem int64_answer {σ : Store} {i : Nat} (hwf : σ.Wf) (hi : i < σ.live)
    (hnum : σ.num i = Num.ofInt x) (hcache : σ.CacheOk i) :
    ((σ.pgbnGetInt64WithChecking i).value, (σ.pgbnGetInt64WithChecking i).ok) = int64Of x := by
  have hexact : (σ.pgbnGetInt64WithChecking i).Exact x (Num.InI64 x) Int64.toInt := by
    have hget := (Store.getInt64_exact_iff hwf hi (hnum ▸ Num.ofInt_canon x)).mpr fun _ _ => hcache
    rwa [hnum, Num.toInt_ofInt] at hget
  by_cases hover : σ.pgbnCmpWithI64 i Int64.maxValue > 0 ∨ σ.pgbnCmpWithI64 i Int64.minValue < 0
  · have hrun : σ.pgbnGetInt64WithChecking i =
        ⟨Int64.maxValue, false, σ.setStatus .arithmeticOverflow⟩ := if_pos hover
    rw [hrun] at hexact ⊢
    have hout : ¬ Num.InI64 x := fun hin => Bool.false_ne_true (hexact.ok.mpr hin)
    rw [int64Of, if_neg hout]
  · have hrun : σ.pgbnGetInt64WithChecking i =
        ⟨(σ.toU64 i).1.toInt64, true, (σ.toU64 i).2.setStatus .success⟩ := if_neg hover
    rw [hrun] at hexact ⊢
    have hin : Num.InI64 x := hexact.ok.mp rfl
    have hvalue : (σ.toU64 i).1.toInt64 = Int64.ofInt x := by
      rw [← hexact.value hin, Int64.ofInt_toInt]
    rw [int64Of, if_pos hin, hvalue]

theorem uint64_answer {σ : Store} {i : Nat} (hwf : σ.Wf) (hi : i < σ.live) :
    ((σ.pgbnGetUInt64WithChecking i).value, (σ.pgbnGetUInt64WithChecking i).ok) =
      (UInt64.ofNat (2 ^ 64 - 1), false) := by
  rw [Store.pgbnGetUInt64_overflows hwf hi]

theorem first_exact {α : Type} {o : Option ((α × Bool) × Objects Heap)} {g : Int → α × Bool}
    (ho : ∀ r, s.values.read b g = some (r, u) → Answers o r u) {r : α}
    (ha : s.values.read b (fun x => (g x).1) = some (r, u)) :
    Answers (o.map fun r => (r.1.1, r.2)) r u := by
  obtain ⟨x, hx, heq⟩ := Option.bind_eq_some_iff.mp ha
  cases heq
  obtain ⟨s', hrun, hs', hvalues⟩ := ho (g x) (by rw [read, hx]; rfl)
  exact ⟨s', by rw [hrun]; rfl, hs', hvalues⟩

theorem step_same (stmt : Stmt) (hs : s.Sound) (hx : s.numbers.values.value b = some x)
    (hok : stmt.Faultless s.numbers) (hobjects : stmt.objects = [b])
    (hm : stmt.meaning s.numbers.values = BigInteger.change s.numbers.values b id) :
    ∃ h, stmt.exec s.numbers = some h ∧ Sound { s with numbers := h } ∧
      h.values = s.numbers.values := by
  have hlive := hs.kept.values_tidy.lt hx
  refine step_sound stmt hs hok (BigInteger.evalStep_eq (fun v hv => ?_) ?_)
  · rw [hobjects] at hv
    exact List.mem_singleton.mp hv ▸ hlive
  · rw [hm, BigInteger.change, hx]
    exact congrArg some (Values.set_self hx)

theorem get2sComplementBlock_exact {i : Nat} (hs : s.Sound) {r : UInt32}
    (ha : s.values.read b (fun x => limbAt x i) = some (r, u)) :
    Answers (s.get2sComplementBlock b i) r u := by
  obtain ⟨x, hx, heq⟩ := Option.bind_eq_some_iff.mp ha
  cases heq
  have hblock := (Heap.shows_of_value hs.heap hx).block i
  obtain ⟨h, hrun, hs', hvalues⟩ :=
    step_same (.get2sComplement b i) hs hx trivial rfl rfl
  refine ⟨{ s with numbers := h }, ?_, hs', congrArg (Objects.mk · s.strings) hvalues⟩
  rw [get2sComplementBlock, hblock, Option.bind_eq_bind, Option.bind_some]
  change (Stmt.exec s.numbers (.get2sComplement b i)).bind _ = _
  rw [hrun]
  rfl

theorem toString_exact {radix : Nat} (hs : s.Sound) (hx : s.numbers.values.value b = some x)
    (hr : ValidRadix radix) : Answers (s.toString b radix)
      (s.values.stringCreate (textOf x radix)).1 (s.values.stringCreate (textOf x radix)).2 := by
  have htext := (Heap.shows_of_value hs.heap hx).text radix hr
  obtain ⟨h, hrun, hs', hvalues⟩ := step_same (.toString b radix) hs hx trivial rfl
    (if_pos hr)
  refine ⟨({ s with numbers := h }.stringCreate (textOf x radix)).2, ?_, ⟨hs'.impls, hs'.kept⟩, ?_⟩
  · rw [toString, htext, Option.bind_eq_bind, Option.bind_some]
    change (Stmt.exec s.numbers (.toString b radix)).bind _ = _
    rw [hrun]
    rfl
  · change (⟨h.values, _⟩ : Objects Values) = _
    rw [hvalues]
    rfl

theorem fromString_written {σ : Store} {i : Nat} (hwf : σ.Wf) (hi : i < σ.live) (str : List Char)
    (radix : Int) : ∃ σ' written, σ.fromString i str radix = some (σ', written) ∧
      written.getD true = accepts str radix := by
  by_cases hrange : radix < 2 ∨ radix > 36
  · refine ⟨σ.setStatus .radixInvalid, some false, by rw [Store.fromString, if_pos hrange], ?_⟩
    rw [accepts, decide_eq_true (by tauto)]
    rfl
  have hr : ValidRadix radix.toNat := ⟨by omega, by omega⟩
  obtain ⟨σ', written, hread, hreads⟩ := Store.fromString_reads hr hwf hi str
  rw [Int.toNat_of_nonneg (by omega)] at hread
  refine ⟨σ', written, hread, ?_⟩
  by_cases hrej : Rejected radix.toNat str
  · rw [(hreads.rejected hrej).1, accepts, decide_eq_true (by tauto)]
    rfl
  have haccepts : accepts str radix = true := by
    rw [accepts, decide_eq_false (by tauto)]
    rfl
  rw [haccepts]
  by_cases hzero : significant str = []
  · rw [(hreads.zero hrej hzero).1]
    rfl
  · rw [(hreads.value hrej hzero).1]
    rfl

theorem numberOf_spec {str : List Char} {radix : Int}
    (hok : numberOf str radix = none → accepts str radix = false) (old : Int) :
    accepts str radix = (numberOf str radix).isSome ∧
      readText old str radix = some ((numberOf str radix).getD old) := by
  by_cases hout : radix < 2 ∨ radix > 36 ∨ Rejected radix.toNat str
  · -- only the length of a numeral is ever refused
    have hnone : numberOf str radix = none := by
      unfold numberOf
      split
      · rfl
      · next hin =>
        push Not at hin
        obtain ⟨hlo, hhi, hover⟩ := hin
        have hr : ValidRadix radix.toNat := ⟨by omega, by omega⟩
        have hrejected := (hout.resolve_left (Int.not_lt.mpr hlo)).resolve_left (Int.not_lt.mpr hhi)
        exact Option.eq_none_iff_forall_ne_some.mpr fun y hy =>
          hover ((rejected_iff_of_denote hr hy).mp hrejected)
    rw [hnone, accepts, readText, if_pos hout, decide_eq_true hout]
    exact ⟨rfl, rfl⟩
  · have haccepts : accepts str radix = true := by
      rw [accepts, decide_eq_false hout]
      rfl
    obtain ⟨y, hy⟩ := Option.ne_none_iff_exists'.mp fun hnone =>
      Bool.false_ne_true ((hok hnone).symm.trans haccepts)
    have hdenote : denote radix.toNat str = some y := by
      unfold numberOf at hy
      split at hy
      · cases hy
      · exact hy
    rw [hy, haccepts, readText, if_neg hout, hdenote]
    exact ⟨rfl, rfl⟩

theorem fromString_exact {str : List Char} {radix : Int} (hs : s.Sound)
    (hx : s.numbers.values.value b = some x) (hy : readText x str radix = some y) :
    ∃ h, fromString s.numbers b str radix = some (accepts str radix, h) ∧
      Sound { s with numbers := h } ∧ h.values = s.numbers.values.set b y := by
  obtain ⟨i, hi, hlt, -, -⟩ := hs.heap.impl hx
  have hlive := hs.kept.values_tidy.lt hx
  obtain ⟨h, hrun, hs', hvalues⟩ := step_sound (.assignString b str radix)
    (v := s.numbers.values.set b y) hs trivial
    (BigInteger.evalStep_eq (fun v hv => List.mem_singleton.mp hv ▸ hlive)
      (by rw [Stmt.meaning, hx, Option.bind_eq_bind, Option.bind_some, hy]; rfl))
  obtain ⟨σ, written, hread, hwritten⟩ := fromString_written hs.impls.wf hlt str radix
  refine ⟨h, ?_, hs', hvalues⟩
  have hcall : s.numbers.call b (.fromString · str radix) = some h := hrun
  rw [fromString, hi, Option.bind_eq_bind, Option.bind_some, hread, hcall, ← hwritten]
  rfl

theorem assignWithStr_exact {str : List Char} {radix : Int} (hs : s.Sound)
    (hok : (Call.assignWithStr b str radix).Faultless s) (hx : s.numbers.values.value b = some x)
    {r : Bool} (ha : evalCall s.values (.assignWithStr b str radix) = some (r, u)) :
    Answers (s.assignWithStr b str radix) r u := by
  obtain ⟨haccepts, hread⟩ := numberOf_spec hok x
  obtain ⟨h, hrun, hs', hvalues⟩ := fromString_exact hs hx hread
  have hanswer : Answers (s.assignWithStr b str radix) (accepts (cStr str) radix)
      { s.values with
        numbers := s.numbers.values.set b ((numberOf (cStr str) radix).getD x) } := by
    refine ⟨{ s with numbers := h }, ?_, hs', congrArg (Objects.mk · s.strings) hvalues⟩
    rw [assignWithStr, hrun]
    rfl
  rw [haccepts] at hanswer
  obtain ⟨x', hx', ha⟩ := Option.bind_eq_some_iff.mp ha
  obtain rfl := Option.some.inj (hx.symm.trans hx')
  cases hnumber : numberOf (cStr str) radix with
  | some y =>
      rw [hnumber] at ha hanswer
      cases ha
      exact hanswer
  | none =>
      rw [hnumber] at ha hanswer
      cases ha
      exact hanswer

theorem default_exact (hs : s.Sound) :
    ∃ h, (s.numbers.define fun h v => h.newImpl v .create) = some h ∧
      Sound { s with numbers := h } ∧ h.values = s.numbers.values.push 0 :=
  step_sound .default hs trivial
    (BigInteger.evalStep_eq (fun _ hv => absurd hv List.not_mem_nil) rfl)

private theorem push_set (v : Values) (x y : Int) : (v.push x).set v.live y = v.push y :=
  Values.ext (Function.update_idem ..) rfl

private theorem push_self (v : Values) (x : Int) : (v.push x).value v.live = some x :=
  Function.update_self ..

theorem createWithBin_exact {src : List UInt8} {little : Bool} (hs : s.Sound)
    (hok : ¬ Misaligned (Store.littleOf src little)) :
    Answers (s.createWithBin src little)
      (s.values.push (bytesInt (Store.littleOf src little))).1
      (s.values.push (bytesInt (Store.littleOf src little))).2 := by
  obtain ⟨h₁, hnew, hs₁, hvalues₁⟩ := default_exact hs
  have hx : h₁.values.value s.numbers.live = some 0 := by
    rw [hvalues₁]
    exact push_self ..
  have hlive := hs₁.kept.values_tidy.lt hx
  obtain ⟨h₂, hfill, hs₂, hvalues₂⟩ := step_sound (s := { s with numbers := h₁ })
    (.fromBinary s.numbers.live src little)
    (v := h₁.values.set s.numbers.live (bytesInt (Store.littleOf src little))) hs₁ hok
    (BigInteger.evalStep_eq (fun v hv => List.mem_singleton.mp hv ▸ hlive)
      (by rw [Stmt.meaning, BigInteger.change, hx]; rfl))
  refine ⟨{ s with numbers := h₂ }, ?_, hs₂, ?_⟩
  · have hfill : h₁.fromBinary s.numbers.live src little = some h₂ := hfill
    rw [createWithBin, hnew, Option.bind_eq_bind, Option.bind_some, hfill]
    rfl
  · change (⟨h₂.values, _⟩ : Objects Values) = _
    rw [hvalues₂, hvalues₁]
    exact congrArg (Objects.mk · s.strings) (push_set ..)

/-- A number that could not be read is deleted with its implementation. -/
theorem createWithStr_read {str : List Char} {radix : Int} (hs : s.Sound)
    (hy : readText 0 (cStr str) radix = some y) :
    Answers (s.createWithStr str radix)
      (if accepts (cStr str) radix then some (s.values.push y).1 else none)
      (if accepts (cStr str) radix then (s.values.push y).2
        else
          { s.values with numbers := { s.numbers.values with live := s.numbers.live + 1 } }) := by
  obtain ⟨h₁, hnew, hs₁, hvalues₁⟩ := default_exact hs
  have hx : h₁.values.value s.numbers.live = some 0 := by
    rw [hvalues₁]
    exact push_self ..
  obtain ⟨h₂, hread, hs₂, hvalues₂⟩ := fromString_exact (s := { s with numbers := h₁ }) hs₁ hx hy
  have hread : fromString h₁ s.numbers.live (cStr str) radix =
    some (accepts (cStr str) radix, h₂) := hread
  rw [hvalues₁] at hvalues₂
  have hvalues₂ : h₂.values = s.numbers.values.push y := hvalues₂.trans (push_set ..)
  cases hok : accepts (cStr str) radix with
  | true =>
      refine ⟨{ s with numbers := h₂ }, ?_, hs₂, congrArg (Objects.mk · s.strings) hvalues₂⟩
      rw [createWithStr, hnew, Option.bind_eq_bind, Option.bind_some, hread, hok]
      rfl
  | false =>
      have hlive : s.numbers.live < h₂.values.live := by
        rw [hvalues₂]
        exact Nat.lt_succ_self _
      obtain ⟨h₃, hend, hs₃, hvalues₃⟩ := step_sound (s := { s with numbers := h₂ })
        (.destroy s.numbers.live) (v := h₂.values.put s.numbers.live none) hs₂ trivial
        (BigInteger.evalStep_eq (fun v hv => List.mem_singleton.mp hv ▸ hlive) rfl)
      refine ⟨{ s with numbers := h₃ }, ?_, hs₃, ?_⟩
      · have hend : h₂.destroy s.numbers.live = some h₃ := hend
        rw [createWithStr, hnew, Option.bind_eq_bind, Option.bind_some, hread, hok]
        change (h₂.destroy s.numbers.live).bind _ = _
        rw [hend]
        rfl
      · -- nothing is left of the number
        have hgone : (s.numbers.values.push y).put s.numbers.live none =
            { s.numbers.values with live := s.numbers.live + 1 } := by
          refine Values.ext ?_ rfl
          have hnone := hs.kept.values_tidy s.numbers.live (Nat.le_refl _)
          change Function.update (Function.update s.numbers.values.value s.numbers.live (some y))
            s.numbers.live none = s.numbers.values.value
          rw [Function.update_idem, ← hnone, Function.update_eq_self]
        rw [hvalues₂, hgone] at hvalues₃
        exact congrArg (Objects.mk · s.strings) hvalues₃

theorem createWithStr_exact {str : List Char} {radix : Int} (hs : s.Sound)
    (hok : (Call.createWithStr str radix).Faultless s) {r : Option Nat}
    (ha : evalCall s.values (.createWithStr str radix) = some (r, u)) :
    Answers (s.createWithStr str radix) r u := by
  obtain ⟨haccepts, hread⟩ := numberOf_spec hok 0
  have hanswer := createWithStr_read hs hread
  rw [haccepts] at hanswer
  rw [evalCall] at ha
  cases hnumber : numberOf (cStr str) radix with
  | some y =>
      rw [hnumber] at ha hanswer
      cases ha
      exact hanswer
  | none =>
      rw [hnumber] at ha hanswer
      cases ha
      exact hanswer

theorem destroy_exact (hs : s.Sound) (hx : s.numbers.values.value b = some x) {r : Unit}
    (ha : s.values.exec (.destroy b) = some (r, u)) : Answers (s.destroy b) r u := by
  obtain ⟨i, hi, -⟩ := hs.heap.impl hx
  have hrun : s.destroy b = s.change (·.destroy b) := by
    rw [destroy, hi]
    rfl
  rw [hrun]
  exact change_exact (.destroy b) hs trivial ha

theorem copy_exact {dest src : Nat} (hs : s.Sound) (hx : s.numbers.values.value dest = some x)
    (hy : s.numbers.values.value src = some y) :
    Answers (s.copy dest src) () { s.values with numbers := s.numbers.values.set dest y } := by
  obtain ⟨i, hi, hxi⟩ := Heap.impl_of_value hx
  obtain ⟨j, hj, hyj⟩ := Heap.impl_of_value hy
  have hin : Heap.Inside (.assign i j) i := ⟨rfl, rfl, .inl rfl⟩
  obtain ⟨p', hstep, hreach⟩ := Heap.inPlace_exact (z := y) hs.heap hi hin
    (fun k hk => List.mem_singleton.mp hk ▸ hs.kept.owned.usable hj) rfl
    ⟨⟨trivial, trivial, trivial⟩, trivial⟩ (by rw [Program.Op.meaning, hyj]; rfl)
  have hkept : Heap.Kept { s.numbers with impls := p' } :=
    (Heap.inPlace_of_step hi hin hstep).kept hs.kept
  refine ⟨{ s with numbers := { s.numbers with impls := p' } }, ?_, ⟨hreach.impls, hkept⟩,
    congrArg (Objects.mk · s.strings) hreach.values⟩
  rw [copy, change]
  simp only [hi, hj, hstep, Option.bind_eq_bind, Option.bind_some]
  rfl

end Objects

open Objects

section

variable {s : Objects Heap} {u : Objects Values}

theorem call_exact {q : Call} {r : q.Answer} (hs : s.Sound) (hok : q.Faultless s)
    (ha : evalCall s.values q = some (r, u)) : Answers (s.answer q) r u := by
  cases q with
  | stringCreate str =>
      cases ha
      exact ⟨_, rfl, ⟨hs.impls, hs.kept⟩, rfl⟩
  | stringCStr str | stringLength str =>
      obtain ⟨chars, hchars, heq⟩ := Option.map_eq_some_iff.mp ha
      cases heq
      exact ⟨s, Option.map_eq_some_iff.mpr ⟨chars, hchars, rfl⟩, hs, rfl⟩
  | stringDestroy str =>
      obtain ⟨chars, hchars, heq⟩ := Option.map_eq_some_iff.mp ha
      cases heq
      exact ⟨_, Option.map_eq_some_iff.mpr ⟨chars, hchars, rfl⟩, ⟨hs.impls, hs.kept⟩, rfl⟩
  | create =>
      cases ha
      exact make_exact .default hs trivial
        (BigInteger.evalStep_eq (fun _ hv => absurd hv List.not_mem_nil) rfl)
  | createWithCopying other =>
      obtain ⟨x, hx, heq⟩ := Option.bind_eq_some_iff.mp ha
      cases heq
      have hlive := hs.kept.values_tidy.lt hx
      refine make_exact (.copy other) hs trivial
        (BigInteger.evalStep_eq (fun v hv => List.mem_singleton.mp hv ▸ hlive) ?_)
      change s.numbers.values.value other = some x at hx
      rw [Stmt.meaning, BigInteger.result, hx]
      rfl
  | createWithI64 i64 =>
      cases ha
      exact make_exact (.ofI64 i64) hs hok
        (BigInteger.evalStep_eq (fun _ hv => absurd hv List.not_mem_nil) rfl)
  | createWithStr str radix => exact createWithStr_exact hs hok ha
  | createWithBin src little =>
      cases ha
      exact createWithBin_exact hs hok
  | destroy b =>
      obtain ⟨x, hx, ha⟩ := Option.bind_eq_some_iff.mp ha
      exact destroy_exact hs hx ha
  | copy dest src =>
      obtain ⟨x, hx, ha⟩ := Option.bind_eq_some_iff.mp ha
      obtain ⟨y, hy, heq⟩ := Option.bind_eq_some_iff.mp ha
      cases heq
      exact copy_exact hs hx hy
  | assignWithI64 b i64 => exact change_exact (.assignI64 b i64) hs hok ha
  | assignWithStr b str radix =>
      obtain ⟨x, hx, -⟩ := Option.bind_eq_some_iff.mp ha
      exact assignWithStr_exact hs hok hx ha
  | assignWithBin b bin little => exact change_exact (.fromBinary b bin little) hs hok ha
  | getInt64 b =>
      exact first_exact (fun r ha => convert_exact hs
        (fun i x hi hnum hcache => int64_answer hs.impls.wf hi hnum hcache) settles_int64 ha) ha
  | getInt64WithChecking b =>
      exact convert_exact hs
        (fun i x hi hnum hcache => int64_answer hs.impls.wf hi hnum hcache) settles_int64 ha
  | getUInt64 b =>
      exact first_exact (fun r ha => convert_exact hs
        (fun i x hi _ _ => uint64_answer hs.impls.wf hi) settles_uint64 ha) ha
  | getUInt64WithChecking b =>
      exact convert_exact hs (fun i x hi _ _ => uint64_answer hs.impls.wf hi) settles_uint64 ha
  | get2sComplementBlock b i => exact get2sComplementBlock_exact hs ha
  | toString b radix =>
      obtain ⟨x, hx, ha⟩ := Option.bind_eq_some_iff.mp ha
      by_cases hr : ValidRadix radix
      · rw [if_pos hr] at ha
        cases ha
        exact toString_exact hs hx hr
      · rw [if_neg hr] at ha
        exact absurd ha (by simp)
  | getMagData b maxlen =>
      refine look_exact (fun h => (h.pImpl b).map (h.impls.store.copyMagDataTo · maxlen)) hs
        (fun x hx => ?_) ha
      obtain ⟨i, hi, hlt, hnum, -⟩ := hs.heap.impl hx
      rw [hi, Option.map_some, Store.copyMagDataTo_eq hs.impls.wf hlt hnum]
  | isZero b =>
      exact look_exact (·.isZero b) hs (fun x hx => (Heap.shows_of_value hs.heap hx).isZero) ha
  | isOne b =>
      exact look_exact (·.isOne b) hs (fun x hx => (Heap.shows_of_value hs.heap hx).isOne) ha
  | isNegOne b =>
      exact look_exact (·.isNegOne b) hs (fun x hx => (Heap.shows_of_value hs.heap hx).isNegOne) ha
  | isPositive b =>
      exact look_exact (·.isPositive b) hs
        (fun x hx => (Heap.shows_of_value hs.heap hx).isPositive) ha
  | isNegative b =>
      exact look_exact (·.isNegative b) hs
        (fun x hx => (Heap.shows_of_value hs.heap hx).isNegative) ha
  | isEven b =>
      exact look_exact (·.isEven b) hs (fun x hx => (Heap.shows_of_value hs.heap hx).isEven) ha
  | isOdd b =>
      exact look_exact (·.isOdd b) hs (fun x hx => (Heap.shows_of_value hs.heap hx).isOdd) ha
  | cmpWithI64 a i64 =>
      exact look_exact (·.cmp a (.int64 i64)) hs (fun x hx => cmpWithI64_exact hs hok hx) ha
  | cmp a b =>
      obtain ⟨y, hy, ha⟩ := Option.bind_eq_some_iff.mp ha
      exact look_exact (·.cmp a (.big b)) hs (fun x hx => Heap.cmp_big hs.heap hx hy) ha
  | inc b => exact change_exact (.inc b) hs trivial ha
  | dec b => exact change_exact (.dec b) hs trivial ha
  | notSelf b => exact change_exact (.notSelf b) hs hok ha
  | negate b => exact change_exact (.negate b) hs trivial ha
  | absSelf b => exact change_exact (.abs b) hs trivial ha
  | notSelfBits b => exact change_exact (.notBits b) hs hok ha
  | assignOp op a b =>
      change Answers (assignOp op s a b) r u
      rw [assignOp_eq]
      exact change_exact (.opAssign op a b) hs hok ha
  | shlAssignWithI64 a i64 =>
      exact change_exact (.shiftLeftAssign a i64.toUInt64) hs trivial ha
  | shrAssignWithI64 a i64 =>
      exact change_exact (.shiftRightAssign a i64.toUInt64) hs trivial ha

end

theorem sound_initial : Objects.initial.Sound := ⟨Program.Sound.initial, BigInteger.kept_initial⟩

/-- Whatever a client does with its numbers and strings, where its calls are faultless it gets the
answers that it would get for integers, and ends with the integers that it would end with. -/
theorem client_exact {β : Type} {c : Code Call.Answer β} {Q : β → Objects Values → Prop}
    (hok : c.Guarded Objects.answer (fun s q => q.Faultless s) Objects.initial)
    (hends : c.Ends evalCall ⟨Values.initial, Strings.initial⟩ Q) :
    c.Ends Objects.answer Objects.initial fun b s => Q b s.values := by
  have hcall : ∀ (s : Objects Heap) (q : Call) (r : q.Answer) (u : Objects Values), s.Sound →
      q.Faultless s → evalCall s.values q = some (r, u) →
      ∃ s', s.answer q = some (r, s') ∧ s'.Sound ∧ s'.values = u :=
    fun _ _ _ _ hs hok ha => call_exact hs hok ha
  exact (Code.Ends.simulation Objects.values hcall sound_initial hok hends).mono fun _ _ h => h.2

def assert (cond : Prop) [Decidable cond] : Code Call.Answer Unit :=
  Code.lift (if cond then some () else none)

/-- `pgbn_BigInteger_CreateWithStr` where the number must be there. -/
def createFrom (str : String) : Code Call.Answer Nat := do
  Code.lift (← Code.of (Call.createWithStr str.toList 10))

/-- `main` of `simple.c`; what it prints is its result. -/
def simple : Code Call.Answer (List (List Char)) := do
  let a ← createFrom "1000000000000000000000000000000000000"
  let b ← createFrom "2"
  let c ← createFrom "-1000000000000000000000000000000000000"
  let aStr ← Code.of (Call.toString a 10)
  let bStr ← Code.of (Call.toString b 10)
  let cStr ← Code.of (Call.toString c 10)
  let d ← Code.of (Call.createWithCopying a)
  Code.of (Call.assignOp .mul d (.big b))
  let dStr ← Code.of (Call.toString d 10)
  let s ← Code.of (Call.stringCStr dStr)
  assert (s = "2000000000000000000000000000000000000".toList)
  Code.of (Call.stringDestroy dStr)
  Code.of (Call.assignOp .div d (.big c))
  let dStr ← Code.of (Call.toString d 10)
  let s ← Code.of (Call.stringCStr dStr)
  assert (s = "-2".toList)
  let a' ← Code.of (Call.stringCStr aStr)
  let b' ← Code.of (Call.stringCStr bStr)
  let c' ← Code.of (Call.stringCStr cStr)
  [a, b, c, d].forM fun v => Code.of (Call.destroy v)
  [aStr, bStr, cStr, dStr].forM fun v => Code.of (Call.stringDestroy v)
  return [a', b', c', s]

theorem createFrom_plain {str : String} (h : (numberOf (cStr str.toList) 10).isSome) :
    (createFrom str).Calls fun q => ∀ s, q.Faultless s :=
  Code.Calls.bind (.of fun _ hnone => by rw [hnone] at h; cases h) fun _ => .lift _

theorem assignOp_plain {op : BinOp} (hop : op.bitwise = false) (a b : Nat) (s : Objects Heap) :
    (Call.assignOp op a (.big b)).Faultless s :=
  (show (Stmt.opAssign op a (.big b)).Plain from hop).faultless s.numbers

theorem simple_plain : simple.Calls fun q => ∀ s, q.Faultless s := by
  unfold simple
  refine Code.Calls.bind (createFrom_plain (by decide +kernel)) fun a =>
    Code.Calls.bind (createFrom_plain (by decide +kernel)) fun b =>
      Code.Calls.bind (createFrom_plain (by decide +kernel)) fun c => ?_
  refine Code.Calls.bind (.of fun _ => trivial) fun aStr => ?_
  refine Code.Calls.bind (.of fun _ => trivial) fun bStr => ?_
  refine Code.Calls.bind (.of fun _ => trivial) fun cStr => ?_
  refine Code.Calls.bind (.of fun _ => trivial) fun d => ?_
  refine Code.Calls.bind (.of (assignOp_plain rfl _ _)) fun _ => ?_
  refine Code.Calls.bind (.of fun _ => trivial) fun dStr => ?_
  refine Code.Calls.bind (.of fun _ => trivial) fun s => Code.Calls.bind (.lift _) fun _ => ?_
  refine Code.Calls.bind (.of fun _ => trivial) fun _ => ?_
  refine Code.Calls.bind (.of (assignOp_plain rfl _ _)) fun _ => ?_
  refine Code.Calls.bind (.of fun _ => trivial) fun dStr => ?_
  refine Code.Calls.bind (.of fun _ => trivial) fun s => Code.Calls.bind (.lift _) fun _ => ?_
  refine Code.Calls.bind (.of fun _ => trivial) fun _ => ?_
  refine Code.Calls.bind (.of fun _ => trivial) fun _ => ?_
  refine Code.Calls.bind (.of fun _ => trivial) fun _ => ?_
  exact Code.Calls.bind (.forM fun _ _ => .of fun _ => trivial) fun _ =>
    Code.Calls.bind (.forM fun _ _ => .of fun _ => trivial) fun _ => trivial

def simpleTexts : List (List Char) :=
  ["1000000000000000000000000000000000000".toList, "2".toList,
    "-1000000000000000000000000000000000000".toList, "-2".toList]

private theorem simple_evaluates :
    (simple.run evalCall ⟨Values.initial, Strings.initial⟩).map Prod.fst = some simpleTexts := by
  decide +kernel

theorem client_exact_simple :
    simple.Ends Objects.answer Objects.initial fun texts _ => texts = simpleTexts := by
  obtain ⟨⟨texts, u⟩, hrun, htexts⟩ := Option.map_eq_some_iff.mp simple_evaluates
  have hends : simple.Ends evalCall ⟨Values.initial, Strings.initial⟩
      fun texts _ => texts = simpleTexts := ⟨texts, u, hrun, htexts⟩
  exact client_exact (simple_plain.guarded (fun s q hq => hq s) _) hends

end PGBigNumber.Pgbn
