import PGBigNumber.Pgbn.Basic

/-!
# Ownership of the handles

Each `BigIntegerImpl` belongs to one handle that a client was given and has not destroyed, whatever
the client does.
-/

namespace PGBigNumber.Pgbn

open BigInteger (Heap BinOp)
open Program (Arg Op)

def hold (held : Finset Nat) : (q : Call) → q.Answer → Finset Nat
  | .create, v => insert v held
  | .createWithCopying _, v => insert v held
  | .createWithI64 _, v => insert v held
  | .createWithStr _ _, some v => insert v held
  | .createWithBin _ _, v => insert v held
  | .destroy b, _ => held.erase b
  | _, _ => held

/-- The handles in `held` own the implementations, and no others do. -/
structure Holds (h : Heap) (held : Finset Nat) : Prop where
  kept : h.Kept
  held_iff : ∀ v, v ∈ held ↔ (h.pImpl v).isSome

variable {h h' : Heap} {held : Finset Nat} {v b : Nat}

theorem Holds.lt (ho : Holds h held) {i : Nat} (hv : h.pImpl v = some i) : v < h.live := by
  by_contra hle
  rw [ho.kept.tidy v (by omega)] at hv
  exact absurd hv (by simp)

theorem Holds.inPlace (ho : Holds h held) (hin : h.InPlace h') : Holds h' held :=
  ⟨hin.kept ho.kept, fun v => by rw [hin.pImpl]; exact ho.held_iff v⟩

theorem Holds.define (ho : Holds h held) {construct : Heap → Nat → Option Heap}
    (hf : ∀ {h₁}, construct h h.live = some h₁ → h.Fills h₁ h.live)
    (hrun : h.define construct = some h') : Holds h' (insert h.live held) := by
  refine ⟨Heap.define_kept ho.kept hrun hf, fun v => ?_⟩
  obtain ⟨h₁, hmake, hrun⟩ := Option.bind_eq_some_iff.mp hrun
  obtain rfl := Option.some.inj hrun
  change _ ↔ (h₁.pImpl v).isSome
  rw [(hf hmake).pImpl, Finset.mem_insert]
  by_cases hv : v = h.live
  · rw [hv, Function.update_self]
    exact iff_of_true (Or.inl rfl) rfl
  · rw [Function.update_of_ne hv, ho.held_iff v, or_iff_right hv]

theorem Holds.destroy (ho : Holds h held) {i : Nat} (hb : h.pImpl b = some i)
    (hrun : h.destroy b = some h') : Holds h' (held.erase b) := by
  have hstep : BigInteger.step h (.destroy b) = some h' :=
    (if_pos fun v hv => List.mem_singleton.mp hv ▸ ho.lt hb).trans hrun
  refine ⟨BigInteger.step_kept ho.kept hstep, fun v => ?_⟩
  rw [(Heap.destroy_inv hrun).1, Finset.mem_erase]
  by_cases hv : v = b
  · rw [hv, Function.update_self]
    exact iff_of_false (fun hne => hne.1 rfl) (by simp)
  · rw [Function.update_of_ne hv, ho.held_iff v, and_iff_right hv]

def Settles (σ σ' : Store) : Prop := ∃ τ e, Store.Caches σ τ ∧ σ' = τ.setStatus e

theorem settles_int64 (σ : Store) (i : Nat) : Settles σ (σ.pgbnGetInt64WithChecking i).store := by
  unfold Store.pgbnGetInt64WithChecking
  split
  · exact ⟨σ, _, Store.Caches.refl σ, rfl⟩
  · exact ⟨_, _, Store.toU64_caches, rfl⟩

theorem settles_uint64 (σ : Store) (i : Nat) : Settles σ (σ.pgbnGetUInt64WithChecking i).store := by
  unfold Store.pgbnGetUInt64WithChecking
  split
  · exact ⟨σ, _, Store.Caches.refl σ, rfl⟩
  · exact ⟨_, _, Store.toU64_caches, rfl⟩

theorem Settles.usable_iff {p : Program} {σ : Store} (hσ : Settles p.store σ) (k : Nat) :
    Program.Usable { p with store := σ } k ↔ p.Usable k := by
  obtain ⟨τ, e, hc, rfl⟩ := hσ
  change k < τ.live ∧ _ ↔ k < _ ∧ _
  rw [hc.live]

theorem Settles.inPlace {σ : Store} (hσ : Settles h.impls.store σ) :
    h.InPlace { h with impls := { h.impls with store := σ } } := by
  refine ⟨rfl, rfl, fun ho => ⟨?_, ho.exclusive.congr hσ.usable_iff⟩⟩
  obtain ⟨τ, e, hc, rfl⟩ := hσ
  exact hc.wf ho.wf

open Objects

variable {s s' : Objects Heap}

theorem assignOp_eq (op : BinOp) (a : Nat) (b : Arg) :
    s.assignOp op a b = s.change fun h => op.assign h a b := by cases op <;> rfl

theorem Holds.change (ho : Holds s.numbers held) (f : Heap → Option Heap)
    (hf : ∀ {h}, f s.numbers = some h → s.numbers.InPlace h) {r : Unit}
    (ha : s.change f = some (r, s')) : Holds s'.numbers held := by
  obtain ⟨h, hrun, heq⟩ := Option.map_eq_some_iff.mp ha
  cases heq
  exact ho.inPlace (hf hrun)

theorem Holds.write (ho : Holds s.numbers held) (f : Nat → Op) (hf : ∀ i, Heap.Inside (f i) i)
    {r : Unit} (ha : s.change (·.call b f) = some (r, s')) : Holds s'.numbers held :=
  ho.change (·.call b f) (fun hrun => Heap.call_inPlace hf hrun) ha

theorem Holds.make (ho : Holds s.numbers held) (construct : Heap → Nat → Option Heap)
    (hf : ∀ {h}, construct s.numbers s.numbers.live = some h → s.numbers.Fills h s.numbers.live)
    (ha : s.make construct = some (v, s')) : Holds s'.numbers (insert v held) := by
  obtain ⟨h, hrun, heq⟩ := Option.map_eq_some_iff.mp ha
  cases heq
  exact ho.define hf hrun

theorem Holds.look (ho : Holds s.numbers held) {ρ : Type} (f : Heap → Option ρ) {r : ρ}
    (ha : s.look f = some (r, s')) : Holds s'.numbers held := by
  obtain ⟨x, -, heq⟩ := Option.map_eq_some_iff.mp ha
  cases heq
  exact ho

theorem Holds.convert (ho : Holds s.numbers held) {α : Type} {f : Store → Nat → Store.Checked α}
    (hf : ∀ σ i, Settles σ (f σ i).store) {r : α × Bool} (ha : s.convert f b = some (r, s')) :
    Holds s'.numbers held := by
  obtain ⟨i, hi, heq⟩ := Option.bind_eq_some_iff.mp ha
  cases heq
  exact ho.inPlace (hf _ i).inPlace

theorem fromString_inPlace {str : List Char} {radix : Int} {ok : Bool}
    (ha : fromString h b str radix = some (ok, h')) : h.InPlace h' := by
  obtain ⟨i, -, ha⟩ := Option.bind_eq_some_iff.mp ha
  obtain ⟨written, -, ha⟩ := Option.bind_eq_some_iff.mp ha
  obtain ⟨h₁, hcall, heq⟩ := Option.bind_eq_some_iff.mp ha
  cases heq
  exact Heap.call_inPlace (fun _ => ⟨rfl, rfl, .inl rfl⟩) hcall

theorem create_fills (hrun : h.newImpl v .create = some h') : h.Fills h' v :=
  Heap.newImpl_fills ⟨rfl, rfl, rfl⟩ hrun

theorem Holds.createWithStr (ho : Holds s.numbers held) {str : List Char} {radix : Int}
    {r : Option Nat} (ha : s.createWithStr str radix = some (r, s')) :
    Holds s'.numbers (hold held (.createWithStr str radix) r) := by
  rw [Objects.createWithStr, Option.bind_eq_bind, Option.bind_eq_some_iff] at ha
  obtain ⟨h₁, hnew, ha⟩ := ha
  obtain ⟨⟨ok, h₂⟩, hread, ha⟩ := Option.bind_eq_some_iff.mp ha
  have ho₂ := (ho.define create_fills hnew).inPlace (fromString_inPlace hread)
  cases ok with
  | true =>
      cases ha
      exact ho₂
  | false =>
      obtain ⟨h₃, hend, heq⟩ := Option.bind_eq_some_iff.mp ha
      cases heq
      have hheld := (ho₂.held_iff s.numbers.live).mp (Finset.mem_insert_self ..)
      obtain ⟨i, hi⟩ := Option.isSome_iff_exists.mp hheld
      have hnew : s.numbers.live ∉ held := fun hmem => by
        have hsome := (ho.held_iff _).mp hmem
        rw [ho.kept.tidy _ (Nat.le_refl _)] at hsome
        exact absurd hsome (by simp)
      have ho₃ := ho₂.destroy hi hend
      rwa [Finset.erase_insert hnew] at ho₃

theorem Holds.createWithBin (ho : Holds s.numbers held) {src : List UInt8} {little : Bool}
    (ha : s.createWithBin src little = some (v, s')) : Holds s'.numbers (insert v held) := by
  rw [Objects.createWithBin, Option.bind_eq_bind, Option.bind_eq_some_iff] at ha
  obtain ⟨h₁, hnew, ha⟩ := ha
  obtain ⟨h₂, hfill, heq⟩ := Option.bind_eq_some_iff.mp ha
  cases heq
  exact (ho.define create_fills hnew).inPlace
    (Heap.call_inPlace (fun _ => ⟨rfl, rfl, .inl rfl⟩) hfill)

theorem copy_inPlace {dest src : Nat} {r : Unit} (ha : s.copy dest src = some (r, s')) :
    s.numbers.InPlace s'.numbers := by
  obtain ⟨h, hrun, heq⟩ := Option.map_eq_some_iff.mp ha
  cases heq
  obtain ⟨i, hi, hrun⟩ := Option.bind_eq_some_iff.mp hrun
  obtain ⟨j, -, hrun⟩ := Option.bind_eq_some_iff.mp hrun
  obtain ⟨p, hstep, hrun⟩ := Option.bind_eq_some_iff.mp hrun
  cases hrun
  exact Heap.inPlace_of_step hi ⟨rfl, rfl, .inl rfl⟩ hstep

theorem answer_holds {q : Call} {r : q.Answer} (ho : Holds s.numbers held)
    (ha : s.answer q = some (r, s')) : Holds s'.numbers (hold held q r) := by
  cases q with
  | stringCreate str =>
      cases ha
      exact ho
  | stringCStr str | stringLength str | stringDestroy str =>
      obtain ⟨chars, -, heq⟩ := Option.map_eq_some_iff.mp ha
      cases heq
      exact ho
  | create => exact ho.make (fun h v => h.newImpl v .create) create_fills ha
  | createWithCopying other => exact ho.make (·.copy · other) (fun hrun => Heap.copy_fills hrun) ha
  | createWithI64 i64 =>
      exact ho.make (fun h v => h.newImpl v (.createI64 i64))
        (fun hrun => Heap.newImpl_fills ⟨rfl, rfl, rfl⟩ hrun) ha
  | createWithStr str radix => exact ho.createWithStr ha
  | createWithBin src little => exact ho.createWithBin ha
  | destroy b =>
      obtain ⟨i, hi, ha⟩ := Option.bind_eq_some_iff.mp ha
      obtain ⟨h, hrun, heq⟩ := Option.map_eq_some_iff.mp ha
      cases heq
      exact ho.destroy hi hrun
  | copy dest src => exact ho.inPlace (copy_inPlace ha)
  | assignWithStr b str radix =>
      obtain ⟨⟨ok, h⟩, hread, heq⟩ := Option.bind_eq_some_iff.mp ha
      cases heq
      exact ho.inPlace (fromString_inPlace hread)
  | assignWithI64 b i64 => exact ho.write (.assignI64 · i64) (fun _ => ⟨rfl, rfl, .inl rfl⟩) ha
  | assignWithBin b bin little =>
      exact ho.write (.assignBytes · bin little) (fun _ => ⟨rfl, rfl, .inl rfl⟩) ha
  | inc b => exact ho.write .inc (fun _ => ⟨rfl, rfl, .inl rfl⟩) ha
  | dec b => exact ho.write .dec (fun _ => ⟨rfl, rfl, .inl rfl⟩) ha
  | notSelf b => exact ho.write .notSelf (fun _ => ⟨rfl, rfl, .inl rfl⟩) ha
  | negate b => exact ho.write .negate (fun _ => ⟨rfl, rfl, .inl rfl⟩) ha
  | absSelf b => exact ho.write .abs (fun _ => ⟨rfl, rfl, .inl rfl⟩) ha
  | notSelfBits b => exact ho.write .notBits (fun _ => ⟨rfl, rfl, .inl rfl⟩) ha
  | shlAssignWithI64 a i64 =>
      exact ho.write (.shiftLeftAssign · i64.toUInt64.toNat) (fun _ => ⟨rfl, rfl, .inl rfl⟩) ha
  | shrAssignWithI64 a i64 =>
      exact ho.write (.shiftRightAssign · i64.toUInt64.toNat) (fun _ => ⟨rfl, rfl, .inl rfl⟩) ha
  | assignOp op a b =>
      have ha : s.assignOp op a b = some (r, s') := ha
      rw [assignOp_eq] at ha
      exact ho.change _ (fun hrun => Heap.assign_op_inPlace op hrun) ha
  | getInt64 b =>
      obtain ⟨⟨r, s₁⟩, hrun, heq⟩ := Option.map_eq_some_iff.mp ha
      cases heq
      exact ho.convert settles_int64 hrun
  | getInt64WithChecking b => exact ho.convert settles_int64 ha
  | getUInt64 b =>
      obtain ⟨⟨r, s₁⟩, hrun, heq⟩ := Option.map_eq_some_iff.mp ha
      cases heq
      exact ho.convert settles_uint64 hrun
  | getUInt64WithChecking b => exact ho.convert settles_uint64 ha
  | get2sComplementBlock b i =>
      obtain ⟨x, -, ha⟩ := Option.bind_eq_some_iff.mp ha
      obtain ⟨h, hrun, heq⟩ := Option.bind_eq_some_iff.mp ha
      cases heq
      exact ho.inPlace (Heap.call_inPlace (fun _ => ⟨rfl, rfl, .inr rfl⟩) hrun)
  | toString b radix =>
      obtain ⟨x, -, ha⟩ := Option.bind_eq_some_iff.mp ha
      obtain ⟨h, hrun, heq⟩ := Option.bind_eq_some_iff.mp ha
      cases heq
      exact ho.inPlace (Heap.call_inPlace (fun _ => ⟨rfl, rfl, .inr rfl⟩) hrun)
  | getMagData b maxlen =>
      exact ho.look (fun h => (h.pImpl b).map (h.impls.store.copyMagDataTo · maxlen)) ha
  | isZero b => exact ho.look (·.isZero b) ha
  | isOne b => exact ho.look (·.isOne b) ha
  | isNegOne b => exact ho.look (·.isNegOne b) ha
  | isPositive b => exact ho.look (·.isPositive b) ha
  | isNegative b => exact ho.look (·.isNegative b) ha
  | isEven b => exact ho.look (·.isEven b) ha
  | isOdd b => exact ho.look (·.isOdd b) ha
  | cmpWithI64 a i64 => exact ho.look (·.cmp a (.int64 i64)) ha
  | cmp a b => exact ho.look (·.cmp a (.big b)) ha

theorem holds_initial : Holds Objects.initial.numbers ∅ :=
  ⟨BigInteger.kept_initial, fun _ => iff_of_false (Finset.notMem_empty _) Bool.false_ne_true⟩

/-- After every run of a client the handles that it holds own the implementations that are alive,
one each: none leaks and none is freed twice. -/
theorem client_leaks_nothing {β : Type} {c : Code Call.Answer β} {b : β} {s : Objects Heap}
    {held : Finset Nat}
    (hrun : c.run (Code.recording Objects.answer hold) (Objects.initial, ∅) = some (b, s, held)) :
    s.numbers.Kept ∧ (∀ v, v ∈ held ↔ (s.numbers.pImpl v).isSome) ∧
      ((Finset.range s.numbers.impls.store.live).filter s.numbers.impls.Usable).card =
        held.card := by
  have hcall : ∀ (t : Objects Heap × Finset Nat) (q : Call) (r : q.Answer)
      (t' : Objects Heap × Finset Nat), Holds t.1.numbers t.2 →
      Code.recording Objects.answer hold t q = some (r, t') → Holds t'.1.numbers t'.2 := by
    intro t q r t' ho ha
    obtain ⟨⟨r, s'⟩, hanswer, heq⟩ := Option.map_eq_some_iff.mp ha
    cases heq
    exact answer_holds ho hanswer
  have ho : Holds s.numbers held := Code.run_invariant hcall holds_initial hrun
  refine ⟨ho.kept, ho.held_iff, ho.kept.owned.exclusive.card_eq ho.held_iff fun k => ?_⟩
  rw [Finset.mem_filter, Finset.mem_range]
  exact and_iff_right_of_imp fun hk => hk.1

/-- A client that keeps its first number and is refused the second. -/
def refused : Code Call.Answer (Option Nat) := do
  let a ← Code.of (Call.createWithI64 ⟨-7, by decide⟩)
  let b ← Code.of (Call.createWithStr "12-".toList 10)
  let c ← Code.of (Call.createWithCopying a)
  Code.of (Call.assignOp .mod c (.int64 ⟨3, by decide⟩))
  Code.of (Call.destroy c)
  return b

private theorem refused_runs :
    (refused.run (Code.recording Objects.answer hold) (Objects.initial, ∅)).map
      (fun r => (r.1, r.2.2)) = some (none, {0}) := by
  decide +kernel

theorem client_leaks_nothing_refused :
    ∃ s : Objects Heap,
      refused.run (Code.recording Objects.answer hold) (Objects.initial, ∅) = some (none, s, {0}) ∧
        ((Finset.range s.numbers.impls.store.live).filter s.numbers.impls.Usable).card = 1 := by
  obtain ⟨⟨b, s, held⟩, hrun, heq⟩ := Option.map_eq_some_iff.mp refused_runs
  cases heq
  exact ⟨s, hrun, (client_leaks_nothing hrun).2.2⟩

end PGBigNumber.Pgbn
