import PGBigNumber.BigInteger.Values

/-!
# Programs with big integers compute with integers

A run in which no statement meets one of the conditions under which it goes wrong does with the
objects what the statements mean for integers.
-/

namespace PGBigNumber.BigInteger

open Program (Arg Op)

namespace Heap

structure Sound (h : Heap) : Prop where
  impls : h.impls.Sound
  owned : h.Owned

/-- A function has led to a sound state with the integers `u`. -/
structure Reaches (h' : Heap) (u : Values) : Prop where
  impls : h'.impls.Sound
  values : h'.values = u

variable {h h' : Heap} {v w i j : Nat} {op : Op} {other b : Arg} {x y z : Int} {u : Values}

theorem value_eq (hv : h.pImpl v = some i) : h.values.value v = h.impls.values.value i := by
  change (h.pImpl v).bind h.impls.values.value = _
  rw [hv, Option.bind_some]

theorem impl_of_value (hx : h.values.value v = some x) :
    ∃ i, h.pImpl v = some i ∧ h.impls.values.value i = some x :=
  Option.bind_eq_some_iff.mp hx

theorem arg_of_value (hy : other.value h.values = some y) :
    ∃ b, h.arg other = some b ∧ b.value h.impls.values = some y := by
  cases other with
  | big w =>
      obtain ⟨j, hj, hy⟩ := impl_of_value hy
      exact ⟨.big j, by rw [arg, hj, Option.map_some], hy⟩
  | int64 k => exact ⟨.int64 k, rfl, hy⟩

theorem usable_of_arg {p : Program} (hb : b.value p.values = some y) :
    ∀ k ∈ b.reads, p.Usable k := by
  intro k hk
  cases b with
  | big j =>
      obtain rfl := List.mem_singleton.mp hk
      exact (Program.usable_of_value hb).1
  | int64 k => exact absurd hk List.not_mem_nil

private theorem faultless_create {p : Program} : p.Faultless .create :=
  ⟨⟨trivial, trivial, trivial⟩, trivial⟩

private theorem faultless_createCopy {p : Program} (j : Nat) : p.Faultless (.createCopy j) :=
  ⟨⟨trivial, trivial, trivial⟩, trivial⟩

private theorem faultless_destroy {p : Program} (i : Nat) : p.Faultless (.destroy i) :=
  ⟨⟨trivial, trivial, trivial⟩, trivial⟩

private theorem impl_exact (hs : h.Sound) (hok : h.impls.Faultless op)
    (hreads : ∀ k ∈ op.reads, h.impls.Usable k)
    (hwl : ∀ k ∈ op.writes ++ op.loses, k < h.impls.store.live) (hallowed : op.allowed = true)
    (hm : op.meaning h.impls.values = some u) :
    ∃ p', h.impls.step op = some p' ∧ p'.Sound ∧ p'.values = u := by
  apply Program.step_exact hs.impls hok
  rw [Values.step, if_pos ⟨fun k hk => Program.isSome_value_iff.mpr (hreads k hk), hwl, hallowed⟩, hm]

theorem inPlace_exact (hs : h.Sound) (hv : h.pImpl v = some i) (hin : Inside op i)
    (hreads : ∀ k ∈ op.reads, h.impls.Usable k) (hallowed : op.allowed = true)
    (hok : h.impls.Faultless op) (hm : op.meaning h.impls.values = some (h.impls.values.set i z)) :
    ∃ p', h.impls.step op = some p' ∧ Reaches { h with impls := p' } (h.values.set v z) := by
  have hwl : ∀ k ∈ op.writes ++ op.loses, k < h.impls.store.live := fun k hk => by
    rw [hin.loses, List.append_nil] at hk
    rcases hin.writes with hw | hw
    · obtain rfl := List.mem_singleton.mp (hw ▸ hk)
      exact (hs.owned.usable hv).1
    · exact absurd (hw ▸ hk) List.not_mem_nil
  obtain ⟨p', hstep, hsound, hvalues⟩ := impl_exact hs hok hreads hwl hallowed hm
  refine ⟨p', hstep, hsound, ?_⟩
  refine Values.ext ?_ rfl
  rw [values, hvalues]
  exact hs.owned.exclusive.deref_write hv

theorem call_exact {f : Nat → Op} (hs : h.Sound) (hx : h.values.value v = some x)
    (hf : ∀ i, Inside (f i) i) (hreads : ∀ i, ∀ k ∈ (f i).reads, k = i)
    (hallowed : ∀ i, (f i).allowed = true)
    (hok : ∀ i, h.pImpl v = some i → h.impls.Faultless (f i))
    (hm : ∀ i, h.impls.values.value i = some x →
      (f i).meaning h.impls.values = some (h.impls.values.set i z)) :
    ∃ h', h.call v f = some h' ∧ Reaches h' (h.values.set v z) := by
  obtain ⟨i, hi, hxi⟩ := impl_of_value hx
  obtain ⟨p', hstep, hreach⟩ := inPlace_exact hs hi (hf i)
    (fun k hk => hreads i k hk ▸ hs.owned.usable hi) (hallowed i) (hok i hi) (hm i hxi)
  refine ⟨_, ?_, hreach⟩
  rw [call, hi, Option.bind_eq_bind, Option.bind_some, hstep]
  rfl

theorem callWith_exact {f : Nat → Arg → Op} (hs : h.Sound) (hx : h.values.value v = some x)
    (hy : other.value h.values = some y) (hf : ∀ i b, Inside (f i b) i)
    (hreads : ∀ i b, (f i b).reads = i :: b.reads) (hallowed : ∀ i b, (f i b).allowed = true)
    (hok : ∀ i b, h.pImpl v = some i → h.arg other = some b → h.impls.Faultless (f i b))
    (hm : ∀ i b, h.impls.values.value i = some x → b.value h.impls.values = some y →
      (f i b).meaning h.impls.values = some (h.impls.values.set i z)) :
    ∃ h', h.callWith v other f = some h' ∧ Reaches h' (h.values.set v z) := by
  obtain ⟨i, hi, hxi⟩ := impl_of_value hx
  obtain ⟨b, hb, hyb⟩ := arg_of_value hy
  have hread : ∀ k ∈ (f i b).reads, h.impls.Usable k := fun k hk => by
    rw [hreads, List.mem_cons] at hk
    rcases hk with rfl | hk
    · exact hs.owned.usable hi
    · exact usable_of_arg hyb k hk
  obtain ⟨p', hstep, hreach⟩ :=
    inPlace_exact hs hi (hf i b) hread (hallowed i b) (hok i b hi hb) (hm i b hxi hyb)
  refine ⟨_, ?_, hreach⟩
  rw [callWith, hi, hb, Option.bind_eq_bind, Option.bind_some, Option.bind_eq_bind,
    Option.bind_some, hstep]
  rfl

private theorem mod_exact {p : Program} (hs : p.Sound) (hx : p.values.value i = some x)
    (hy : b.value p.values = some y) (hy0 : y ≠ 0)
    (hfits : ∀ k, b = .int64 k → Num.TopLimbZero k → x.natAbs ≤ 2 ^ 32 - 2) :
    ∃ p₁ p₂ p₃, p.step .create = some p₁ ∧
      p₁.step (.modAssignAndQuotient i b p.store.live) = some p₂ ∧
      p₂.step (.destroy p.store.live) = some p₃ ∧ p₃.Sound ∧
      p₃.values.value = Function.update p.values.value i (some (x.tmod y)) := by
  set q := p.store.live with hq
  have hiq : i ≠ q := Nat.ne_of_lt (Program.usable_of_value hx).1.1
  obtain ⟨p₁, hstep₁, hs₁, hvalues₁⟩ := Program.step_exact hs faultless_create
    (show _ = some (p.values.push 0) by
      rw [Values.step, if_pos (by simp [Op.reads, Op.writes, Op.loses, Op.allowed])]
      rfl)
  have hstore₁ : p₁.store = p.store.pushDefault :=
    (Option.some.inj (Program.step_inv hstep₁).2.2.2.1).symm
  have hx₁ : p₁.values.value i = some x := by
    rw [hvalues₁]
    exact (Function.update_of_ne hiq ..).trans hx
  have hq₁ : p₁.values.value q = some 0 := by
    rw [hvalues₁]
    exact Function.update_self ..
  have hy₁ : b.value p₁.values = some y := by
    cases b with
    | big j =>
        have hjq : j ≠ q := Nat.ne_of_lt (Program.usable_of_value hy).1.1
        rw [hvalues₁]
        exact (Function.update_of_ne hjq ..).trans hy
    | int64 k => exact hy
  have hlive₁ : p₁.values.live = q + 1 := by
    rw [hvalues₁]
    rfl
  have hdivisor : b.divisor p₁.values = some y := by
    rw [Arg.divisor, hy₁]
    exact if_neg hy0
  -- the quotient is a fresh object, apart from the divisor and without a cached index
  have hok : p₁.Faultless (.modAssignAndQuotient i b q) := by
    refine ⟨⟨trivial, fun _ => ?_, trivial⟩, ?_⟩
    · rw [hstore₁]
      exact Store.calcued_pushDefault_self
    · cases b with
      | big j =>
          intro hqj
          have hjq : j ≠ q := Nat.ne_of_lt (Program.usable_of_value hy).1.1
          exact absurd hqj.symm hjq
      | int64 k =>
          intro htop
          rw [(Program.usable_of_value hx₁).2]
          exact hfits k rfl htop
  obtain ⟨p₂, hstep₂, hs₂, hvalues₂⟩ := Program.step_exact hs₁ hok
    (show _ = some ((p₁.values.set q (x.tdiv y)).set i (x.tmod y)) by
      rw [Values.step, if_pos]
      · rw [Op.meaning, hx₁, hdivisor]
        rfl
      · refine ⟨fun k hk => ?_, fun k hk => ?_, rfl⟩
        · rcases List.mem_cons.mp hk with rfl | hk
          · rw [hx₁, Option.isSome_some]
          rcases List.mem_cons.mp hk with rfl | hk
          · rw [hq₁, Option.isSome_some]
          · exact Program.isSome_value_iff.mpr (usable_of_arg hy₁ k hk)
        · have hk : k = i ∨ k = q := List.mem_pair.mp hk
          rw [hlive₁]
          have hi := (Program.usable_of_value hx).1.1
          omega)
  have hlive₂ : p₂.values.live = q + 1 := by
    rw [hvalues₂]
    exact hlive₁
  obtain ⟨p₃, hstep₃, hs₃, hvalues₃⟩ := Program.step_exact hs₂ (faultless_destroy q)
    (show _ = some (p₂.values.lose q) by
      rw [Values.step, if_pos]
      · rfl
      · refine ⟨fun _ hk => absurd hk List.not_mem_nil, fun k hk => ?_, rfl⟩
        obtain rfl := List.mem_singleton.mp hk
        omega)
  refine ⟨p₁, p₂, p₃, hstep₁, hstep₂, hstep₃, hs₃, ?_⟩
  have hqnone : p.values.value q = none :=
    Program.value_of_not_usable fun hu => Nat.lt_irrefl _ hu.1
  rw [hvalues₃, hvalues₂, hvalues₁]
  change Function.update (Function.update (Function.update (Function.update p.values.value q _)
    q _) i _) q none = _
  rw [Function.update_idem, Function.update_comm hiq, Function.update_idem, ← hqnone,
    Function.update_eq_self]

theorem modAssign_exact (hs : h.Sound) (hx : h.values.value v = some x)
    (hy : other.value h.values = some y) (hy0 : y ≠ 0) (hfits : BinOp.mod.Fits x other) :
    ∃ h', h.modAssign v other = some h' ∧ Reaches h' (h.values.set v (x.tmod y)) := by
  obtain ⟨i, hi, hxi⟩ := impl_of_value hx
  obtain ⟨b, hb, hyb⟩ := arg_of_value hy
  have hfits' : ∀ k, b = .int64 k → Num.TopLimbZero k → x.natAbs ≤ 2 ^ 32 - 2 := by
    rintro k rfl
    cases other with
    | big w =>
        obtain ⟨j, -, hj⟩ := Option.map_eq_some_iff.mp hb
        exact absurd hj (by simp)
    | int64 l =>
        obtain rfl : l = k := by simpa [arg] using hb
        exact hfits
  obtain ⟨p₁, p₂, p₃, hstep₁, hstep₂, hstep₃, hs₃, hvalues⟩ :=
    mod_exact hs.impls hxi hyb hy0 hfits'
  refine ⟨{ h with impls := p₃ }, ?_, hs₃, Values.ext ?_ rfl⟩
  · simp only [modAssign, hi, hb, hstep₁, hstep₂, hstep₃, Option.bind_eq_bind, Option.bind_some]
  · change Ownership.deref h.pImpl p₃.values.value = _
    rw [hvalues]
    exact hs.owned.exclusive.deref_write hi

theorem newImpl_exact (hs : h.Sound) (hc : Creates op) (hreads : ∀ k ∈ op.reads, h.impls.Usable k)
    (hallowed : op.allowed = true) (hok : h.impls.Faultless op)
    (hm : op.meaning h.impls.values = some (h.impls.values.push x)) :
    ∃ h', h.newImpl v op = some h' ∧ Reaches h' (h.values.set v x) := by
  obtain ⟨p', hstep, hsound, hvalues⟩ := impl_exact hs hok hreads
    (fun k hk => by simp [hc.writes, hc.loses] at hk) hallowed hm
  have hnew : ∀ w, h.pImpl w ≠ some h.impls.store.live := fun w hw =>
    Nat.lt_irrefl _ (hs.owned.usable hw).1
  refine ⟨{ h with impls := p', pImpl := Function.update h.pImpl v (some h.impls.store.live) },
    ?_, hsound, Values.ext ?_ rfl⟩
  · rw [newImpl, hstep]
    rfl
  · change Ownership.deref _ p'.values.value = _
    rw [hvalues]
    exact Ownership.deref_acquire hnew

def Clean (h : Heap) (v : Nat) : Prop :=
  ∀ i, h.pImpl v = some i → ∀ n, h.impls.store.Unspoiled i n

theorem copy_exact (hs : h.Sound) (hx : h.values.value w = some x) :
    ∃ h', h.copy v w = some h' ∧ Reaches h' (h.values.set v x) := by
  obtain ⟨j, hj, hxj⟩ := impl_of_value hx
  obtain ⟨h', hrun, hreach⟩ := newImpl_exact (v := v) (x := x) hs
    (show Creates (.createCopy j) from ⟨rfl, rfl, rfl⟩)
    (fun k hk => List.mem_singleton.mp hk ▸ hs.owned.usable hj) rfl (faultless_createCopy j)
    (by rw [Op.meaning, hxj]; rfl)
  refine ⟨h', ?_, hreach⟩
  rw [copy, hj]
  exact hrun

theorem copy_clean (hs : h.Sound) (hrun : h.copy v w = some h') : h'.Clean v := by
  obtain ⟨j, hj, hnew⟩ := copy_inv hrun
  obtain ⟨p', hstep, rfl⟩ := newImpl_inv hnew
  intro i hi n
  have hi : Function.update h.pImpl v (some h.impls.store.live) v = some i := hi
  rw [Function.update_self] at hi
  obtain rfl := Option.some.inj hi
  have hstore : p'.store = h.impls.store.pushCopy j :=
    (Option.some.inj (Program.step_inv hstep).2.2.2.1).symm
  have hlt := (hs.owned.usable hj).1
  change p'.store.Unspoiled _ n
  rw [hstore]
  refine Or.inr (Or.inl fun hone => ?_)
  have hsole := (UseCount.count_eq_one_iff (fun k => ((h.impls.store.pushCopy j).obj k).data)
    (Nat.lt_succ_self _)).mp hone
  refine hsole j (by omega) (by omega) ?_
  change ((h.impls.store.pushCopy j).obj j).data = ((h.impls.store.pushCopy j).obj _).data
  rw [Store.data_pushCopy_self]
  exact congrArg Impl.data (Function.update_of_ne (Nat.ne_of_lt hlt) ..)

theorem ofI64_exact {k : {k : Int // Num.InI64 k}} (hs : h.Sound) (hk : ¬ Num.TopLimbZero k) :
    ∃ h', h.ofI64 v k = some h' ∧ Reaches h' (h.values.set v k) :=
  newImpl_exact hs (show Creates (.createI64 k) from ⟨rfl, rfl, rfl⟩)
    (fun _ hk => absurd hk List.not_mem_nil) rfl ⟨⟨hk, trivial, trivial⟩, trivial⟩ rfl

private theorem data_length_pushI64 (σ : Store) {k : Int} (h0 : k ≠ 0) :
    ((σ.pushI64 k).mag σ.live).data.length = ((σ.pushI64 k).mag σ.live).hi := by
  unfold Store.pushI64 Store.assignI64
  dsimp only
  rw [if_neg h0]
  set σ₁ := (σ.pushDefault.beginWrite σ.live).cloneData σ.live with hσ₁
  set σ₂ := σ₁.setFlags σ.live (if k > 0 then .pos else .neg) with hσ₂
  have hcount : (σ₂.mag σ.live).count = 0 := by
    have hempty : (σ.pushDefault.beginWrite σ.live).mag σ.live = Slice.empty := by
      rw [Store.mag_beginWrite]
      exact Store.mag_newMag_self
    rw [hσ₂, Store.mag_setFlags, hσ₁, Store.cloneData]
    split
    · rw [hempty]
      rfl
    · rw [Store.mag_newMag_self, hempty]
      rfl
  have hslice : ∀ n, 0 < n →
      ((σ₂.mag σ.live).slice 0 n).data.length = ((σ₂.mag σ.live).slice 0 n).hi := by
    intro n hn
    rw [Slice.slice, if_neg (by omega), if_pos (by omega), Slice.resize_length]
  split_ifs <;> simp only [Store.mag_putMag_self, Slice.set, List.length_set] <;>
    exact hslice _ (by decide)

theorem ofI64_clean {k : {k : Int // Num.InI64 k}} (hs : h.Sound) (hk : ¬ Num.TopLimbZero k)
    (hrun : h.ofI64 v k = some h') : h'.Clean v := by
  obtain ⟨p', hstep, rfl⟩ := newImpl_inv hrun
  intro i hi n
  have hi : Function.update h.pImpl v (some h.impls.store.live) v = some i := hi
  rw [Function.update_self] at hi
  obtain rfl := Option.some.inj hi
  have hstore : p'.store = h.impls.store.pushI64 k :=
    (Option.some.inj (Program.step_inv hstep).2.2.2.1).symm
  change p'.store.Unspoiled _ n
  rw [hstore]
  by_cases h0 : k.val = 0
  · left
    have hp := Store.pushI64_pushes (R := fun _ => False) hs.owned.wf k
    rw [Num.ofI64_eq k.2 hk] at hp
    exact (Store.isZero_iff hp.num).mpr h0
  · refine Or.inr (Or.inr fun m hlo hhi => ?_)
    have hlen := data_length_pushI64 h.impls.store h0
    exact List.getD_eq_default _ _ (hlen ▸ hlo)

theorem construct_exact {left : Arg} (hs : h.Sound) (hx : left.value h.values = some x)
    (hleft : ∀ k, left = .int64 k → ¬ Num.TopLimbZero k) :
    ∃ h', h.construct v left = some h' ∧ Reaches h' (h.values.set v x) ∧ h'.Clean v := by
  cases left with
  | big w =>
      obtain ⟨h', hrun, hreach⟩ := copy_exact (v := v) hs hx
      exact ⟨h', hrun, hreach, copy_clean hs hrun⟩
  | int64 k =>
      obtain rfl := Option.some.inj hx
      obtain ⟨h', hrun, hreach⟩ := ofI64_exact (v := v) hs (hleft k rfl)
      exact ⟨h', hrun, hreach, ofI64_clean hs (hleft k rfl) hrun⟩

private def lost (val : Nat → Option Int) (o : Option Nat) : Nat → Option Int :=
  o.elim val fun i => Function.update val i none

private theorem delete_exact {o : Option Nat} (hs : h.impls.Sound)
    (ho : ∀ i, o = some i → h.impls.Usable i) :
    ∃ p', h.delete o = some { h with impls := p' } ∧ p'.Sound ∧
      p'.values.value = lost h.impls.values.value o := by
  cases o with
  | none => exact ⟨h.impls, rfl, hs, rfl⟩
  | some i =>
      obtain ⟨p', hstep, hsound, hvalues⟩ := Program.step_exact hs (faultless_destroy i)
        (show _ = some (h.impls.values.lose i) by
          rw [Values.step, if_pos]
          · rfl
          · refine ⟨fun _ hk => absurd hk List.not_mem_nil, fun k hk => ?_, rfl⟩
            obtain rfl := List.mem_singleton.mp hk
            exact (ho k rfl).1)
      refine ⟨p', ?_, hsound, by rw [hvalues]; rfl⟩
      rw [delete, hstep]
      rfl

private theorem deref_lost (ho : h.Owned) (v : Nat) :
    Ownership.deref h.pImpl (lost h.impls.values.value (h.pImpl v)) =
      Function.update h.values.value v none := by
  cases hv : h.pImpl v with
  | none =>
      have hnone : h.values.value v = none := by
        change (h.pImpl v).bind _ = none
        rw [hv, Option.bind_none]
      rw [← hnone, Function.update_eq_self]
      rfl
  | some i => exact ho.exclusive.deref_write hv

theorem destroy_exact (hs : h.Sound) :
    ∃ h', h.destroy v = some h' ∧ Reaches h' (h.values.put v none) := by
  obtain ⟨p', hrun, hsound, hvalues⟩ :=
    delete_exact (h := { h with pImpl := Function.update h.pImpl v none }) hs.impls
      fun i hi => hs.owned.usable hi
  refine ⟨_, hrun, hsound, Values.ext ?_ rfl⟩
  change Ownership.deref (Function.update h.pImpl v none) p'.values.value = _
  rw [hvalues, Ownership.deref_reset, deref_lost hs.owned, Function.update_idem]
  rfl

private theorem lost_update {val : Nat → Option Int} {o : Option Nat} (ho : o ≠ some i) :
    lost (Function.update val i (some x)) o = Function.update (lost val o) i (some x) := by
  cases o with
  | none => rfl
  | some j => exact Function.update_comm (fun he => ho (congrArg some he.symm)) ..

theorem assign_exact (hs : h.Sound) (hvw : v ≠ w) (hx : h.values.value w = some x) :
    ∃ h', h.assign v w = some h' ∧ Reaches h' (h.values.set v x) := by
  obtain ⟨j, hj, hxj⟩ := impl_of_value hx
  set n := h.impls.store.live with hn
  have hnew : ∀ u, h.pImpl u ≠ some n := fun u hu => Nat.lt_irrefl _ (hs.owned.usable hu).1
  obtain ⟨p₁, hstep₁, hs₁, hvalues₁⟩ := impl_exact (u := h.impls.values.push x) hs
    (faultless_createCopy j)
    (fun k hk => List.mem_singleton.mp hk ▸ hs.owned.usable hj) (fun _ hk => absurd hk List.not_mem_nil)
    rfl (by rw [Op.meaning, hxj]; rfl)
  have hvalues₁ : p₁.values.value = Function.update h.impls.values.value n (some x) := by
    rw [hvalues₁]
    rfl
  set h₁ : Heap := { h with impls := p₁, pImpl := Function.update h.pImpl v (some n) } with hh₁
  have hcopy : h.copy v w = some h₁ := by
    rw [copy, hj]
    change h.newImpl v (.createCopy j) = _
    rw [newImpl, hstep₁]
    rfl
  obtain ⟨p₂, hdelete, hs₂, hvalues₂⟩ := delete_exact (h := h₁) (o := h.pImpl v) hs₁ fun i hi => by
    refine Program.isSome_value_iff.mp ?_
    change (p₁.values.value i).isSome = true
    have hin : i ≠ n := by
      rintro rfl
      exact hnew v hi
    rw [hvalues₁, Function.update_of_ne hin]
    exact Program.isSome_value_iff.mpr (hs.owned.usable hi)
  refine ⟨{ h₁ with impls := p₂ }, ?_, hs₂, Values.ext ?_ rfl⟩
  · rw [assign, if_neg hvw, hcopy]
    exact hdelete
  · change Ownership.deref (Function.update h.pImpl v (some n)) p₂.values.value = _
    have hval : h₁.impls.values.value = Function.update h.impls.values.value n (some x) := hvalues₁
    rw [hvalues₂, hval, lost_update (hnew v), Ownership.deref_acquire hnew, deref_lost hs.owned,
      Function.update_idem]
    rfl

theorem assignMove_exact (hs : h.Sound) (hvw : v ≠ w) :
    ∃ h', h.assignMove v w = some h' ∧
      Reaches h' ((h.values.put v (h.values.value w)).put w none) := by
  obtain ⟨p', hrun, hsound, hvalues⟩ := delete_exact (h := h.move v w) hs.impls
    fun i hi => hs.owned.usable (v := v) hi
  refine ⟨_, (if_neg hvw).trans hrun, hsound, Values.ext ?_ rfl⟩
  change Ownership.deref (Function.update (Function.update h.pImpl v (h.pImpl w)) w none)
    p'.values.value = Function.update (Function.update h.values.value v _) w none
  have hw : (h.pImpl w).bind p'.values.value = h.values.value w := by
    change Ownership.deref h.pImpl p'.values.value w = _
    rw [hvalues]
    change Ownership.deref h.pImpl (lost h.impls.values.value (h.pImpl v)) w = _
    rw [deref_lost hs.owned, Function.update_of_ne (Ne.symm hvw)]
  have hderef : Ownership.deref h.pImpl p'.values.value = Function.update h.values.value v none := by
    rw [hvalues]
    exact deref_lost hs.owned v
  rw [Ownership.deref_reset, Ownership.deref_reset, hw, hderef, Function.update_idem]
  rfl

theorem values_move : (h.move v w).values = (h.values.put v (h.values.value w)).put w none := by
  refine Values.ext ?_ rfl
  change Ownership.deref (Function.update (Function.update h.pImpl v (h.pImpl w)) w none)
    h.impls.values.value = _
  rw [Ownership.deref_reset, Ownership.deref_reset]
  rfl

theorem swap_exact (hs : h.Sound) (htidy : h.pImpl h.live = none) (hv : v < h.live)
    (hw : w < h.live) : ∃ h', h.swap v w = some h' ∧
      Reaches h' ((h.values.put v (h.values.value w)).put w (h.values.value v)) := by
  have hvt : h.live ≠ v := by omega
  have hwt : w ≠ h.live := by omega
  have hs₁ : (h.move h.live v).Sound := ⟨hs.impls, hs.owned.move htidy hvt⟩
  obtain ⟨h₂, hfirst, hreach₂⟩ : ∃ h₂, (h.move h.live v).assignMove v w = some h₂ ∧
      Reaches h₂ (if v = w then (h.move h.live v).values else
        ((h.move h.live v).values.put v ((h.move h.live v).values.value w)).put w none) := by
    by_cases hvw : v = w
    · exact ⟨_, if_pos hvw, hs.impls, (if_pos hvw).symm⟩
    · rw [if_neg hvw]
      exact assignMove_exact hs₁ hvw
  have ho₂ := (assignMove_inv hfirst).2.2.2 hs₁.owned
  obtain ⟨h₃, hsecond, hreach₃⟩ := assignMove_exact (v := w) ⟨hreach₂.impls, ho₂⟩ hwt
  have ho₃ := (assignMove_inv hsecond).2.2.2 ho₂
  obtain ⟨h₄, hend, hreach₄⟩ := destroy_exact (v := h.live) ⟨hreach₃.impls, ho₃⟩
  refine ⟨h₄, ?_, hreach₄.impls, ?_⟩
  · simp only [swap, hfirst, hsecond, hend, Option.bind_eq_bind, Option.bind_some]
  have hnone : h.values.value h.live = none := by
    change (h.pImpl _).bind _ = none
    rw [htidy, Option.bind_none]
  rw [hreach₄.values, hreach₃.values, hreach₂.values, values_move]
  refine Values.ext (funext fun u => ?_) (by split <;> rfl)
  by_cases hvw : v = w
  · subst hvw
    simp only [if_true, Values.put, Function.update_apply]
    grind
  · simp only [if_neg hvw, Values.put, Function.update_apply]
    grind

/-- The body of the operator gets a temporary of its own, whose window it can open. -/
theorem copied_exact {left : Arg} {f : Heap → Nat → Option Heap} (hs : h.Sound) (htidy : h.Tidy)
    (hx : left.value h.values = some x) (hleft : ∀ k, left = .int64 k → ¬ Num.TopLimbZero k)
    (hf : ∀ {h₁ h₂ u}, f h₁ u = some h₂ → h₁.InPlace h₂)
    (hbody : ∀ h₁ : Heap, h₁.Sound → h₁.Clean (h.live + 1) →
      h₁.values = h.values.set (h.live + 1) x →
      ∃ h₂, f h₁ (h.live + 1) = some h₂ ∧ Reaches h₂ (h₁.values.set (h.live + 1) z)) :
    ∃ h', h.copied left f = some h' ∧ Reaches h' (h.values.push z) := by
  obtain ⟨h₁, hmake, hreach₁, hclean⟩ := construct_exact (v := h.live + 1) hs hx hleft
  have htemp := construct_fills hmake
  have ho₁ := htemp.owned hs.owned (htidy _ (Nat.le_succ _))
  obtain ⟨h₂, hchange, hreach₂⟩ := hbody h₁ ⟨hreach₁.impls, ho₁⟩ hclean hreach₁.values
  have hin := hf hchange
  have ho₂ := hin.owned ho₁
  have hz : h₂.values.value (h.live + 1) = some z := by
    rw [hreach₂.values]
    exact Function.update_self ..
  obtain ⟨h₃, hcopy, hreach₃⟩ := copy_exact (v := h.live) ⟨hreach₂.impls, ho₂⟩ hz
  have hnull : h₂.pImpl h.live = none := by
    rw [hin.pImpl, htemp.pImpl, Function.update_of_ne (by omega)]
    exact htidy _ (Nat.le_refl _)
  obtain ⟨h₄, hend, hreach₄⟩ := destroy_exact (v := h.live + 1)
    ⟨hreach₃.impls, (copy_fills hcopy).owned ho₂ hnull⟩
  refine ⟨{ h₄ with live := h.live + 1 }, ?_, hreach₄.impls, Values.ext ?_ rfl⟩
  · simp only [copied, hmake, hchange, hcopy, hend, Option.bind_eq_bind, Option.bind_some]
  · have hvalue : h₄.values.value = Function.update (Function.update (Function.update
        (Function.update h.values.value (h.live + 1) (some x)) (h.live + 1) (some z))
        h.live (some z)) (h.live + 1) none := by
      rw [hreach₄.values, hreach₃.values, hreach₂.values, hreach₁.values]
      rfl
    change h₄.values.value = Function.update h.values.value h.live (some z)
    have hnone : h.values.value (h.live + 1) = none := by
      change (h.pImpl _).bind _ = none
      rw [htidy _ (Nat.le_succ _), Option.bind_none]
    have hne : h.live ≠ h.live + 1 := by omega
    rw [hvalue, Function.update_idem, Function.update_comm hne, Function.update_idem, ← hnone,
      Function.update_eq_self]

theorem define_exact {construct : Heap → Nat → Option Heap}
    (hc : ∃ h₁, construct h h.live = some h₁ ∧ Reaches h₁ (h.values.set h.live x)) :
    ∃ h', h.define construct = some h' ∧ Reaches h' (h.values.push x) := by
  obtain ⟨h₁, hmake, hreach⟩ := hc
  refine ⟨{ h₁ with live := h.live + 1 }, ?_, hreach.impls, Values.ext ?_ rfl⟩
  · rw [define, hmake]
    rfl
  · change h₁.values.value = _
    rw [hreach.values]
    rfl

theorem returned_exact {f : Heap → Nat → Option Heap} (hs : h.Sound) (htidy : h.Tidy)
    (hx : h.values.value v = some x)
    (hbody : ∀ h₁ : Heap, h₁.Sound → h₁.Clean h.live → h₁.values = h.values.set h.live x →
      ∃ h₂, f h₁ h.live = some h₂ ∧ Reaches h₂ u) :
    ∃ h', h.returned v f = some h' ∧ Reaches h' { u with live := h.live + 1 } := by
  obtain ⟨h₁, hcopy, hreach₁⟩ := copy_exact (v := h.live) hs hx
  have ho₁ := (copy_fills hcopy).owned hs.owned (htidy _ (Nat.le_refl _))
  obtain ⟨h₂, hchange, hreach₂⟩ :=
    hbody h₁ ⟨hreach₁.impls, ho₁⟩ (copy_clean hs hcopy) hreach₁.values
  refine ⟨{ h₂ with live := h.live + 1 }, ?_, hreach₂.impls, Values.ext ?_ rfl⟩
  · simp only [returned, hcopy, hchange, Option.bind_eq_bind, Option.bind_some]
  · change h₂.values.value = _
    rw [hreach₂.values]

private theorem fits_impl {op : BinOp} (hxi : h.impls.values.value i = some x)
    (harg : h.arg other = some b) (hfits : op.Fits x other) :
    op.Fits (h.impls.store.num i).toInt b := by
  rw [(Program.usable_of_value hxi).2]
  cases other with
  | big w =>
      obtain ⟨j, -, rfl⟩ := Option.map_eq_some_iff.mp harg
      cases op <;> trivial
  | int64 k =>
      obtain rfl := Option.some.inj harg
      exact hfits

private structure Calls (op : BinOp) (f : Nat → Arg → Op) : Prop where
  inside : ∀ i b, Inside (f i b) i
  reads : ∀ i b, (f i b).reads = i :: b.reads
  allowed : ∀ i b, (f i b).allowed = true
  faultless : ∀ (h : Heap) i b, op.Fits (h.impls.store.num i).toInt b →
    (op.bitwise = true → h.Unspoiled i b) → h.impls.Faultless (f i b)
  meaning : ∀ (u : Values) i b x y z, u.value i = some x → b.value u = some y →
    op.meaning x y = some z → (f i b).meaning u = some (u.set i z)

private theorem calls_total {op : BinOp} {f : Nat → Arg → Op} {g : Int → Int → Int}
    (hinside : ∀ i b, Inside (f i b) i) (hreads : ∀ i b, (f i b).reads = i :: b.reads)
    (hallowed : ∀ i b, (f i b).allowed = true)
    (hmeaning : ∀ (u : Values) i b,
      (f i b).meaning u = do return u.set i (g (← u.value i) (← b.value u)))
    (hop : ∀ x y, op.meaning x y = some (g x y))
    (hok : ∀ (h : Heap) i b, op.Fits (h.impls.store.num i).toInt b →
      (op.bitwise = true → h.Unspoiled i b) → h.impls.Faultless (f i b)) : Calls op f := by
  refine ⟨hinside, hreads, hallowed, hok, fun u i b x y z hx hy hz => ?_⟩
  rw [hop] at hz
  obtain rfl := Option.some.inj hz
  rw [hmeaning, hx, hy]
  rfl

private theorem calls_add : Calls .add .addAssign := by
  refine calls_total (g := (· + ·)) (fun _ _ => ⟨rfl, rfl, .inl rfl⟩) (fun _ _ => rfl)
    (fun _ _ => rfl) (fun _ _ _ => rfl) (fun _ _ => rfl) fun h i b hfits _ => ?_
  refine ⟨⟨?_, trivial, trivial⟩, trivial⟩
  cases b with
  | big j => trivial
  | int64 k => exact hfits

private theorem calls_sub : Calls .sub .subAssign := by
  refine calls_total (g := (· - ·)) (fun _ _ => ⟨rfl, rfl, .inl rfl⟩) (fun _ _ => rfl)
    (fun _ _ => rfl) (fun _ _ _ => rfl) (fun _ _ => rfl) fun h i b hfits _ => ?_
  refine ⟨⟨?_, trivial, trivial⟩, trivial⟩
  cases b with
  | big j => trivial
  | int64 k => exact hfits

private theorem calls_mul : Calls .mul .mulAssign := by
  refine calls_total (g := (· * ·)) (fun _ _ => ⟨rfl, rfl, .inl rfl⟩) (fun _ _ => rfl)
    (fun _ _ => rfl) (fun _ _ _ => rfl) (fun _ _ => rfl) fun h i b hfits _ => ?_
  refine ⟨⟨?_, trivial, trivial⟩, trivial⟩
  cases b with
  | big j => trivial
  | int64 k => exact hfits

private theorem calls_and : Calls .and .andAssign :=
  calls_total (g := Int.land) (fun _ _ => ⟨rfl, rfl, .inl rfl⟩) (fun _ _ => rfl) (fun _ _ => rfl)
    (fun _ _ _ => rfl) (fun _ _ => rfl) fun _ _ _ _ hclean => ⟨⟨trivial, trivial, hclean rfl⟩, trivial⟩

private theorem calls_or : Calls .or .orAssign :=
  calls_total (g := Int.lor) (fun _ _ => ⟨rfl, rfl, .inl rfl⟩) (fun _ _ => rfl) (fun _ _ => rfl)
    (fun _ _ _ => rfl) (fun _ _ => rfl) fun _ _ _ _ hclean => ⟨⟨trivial, trivial, hclean rfl⟩, trivial⟩

private theorem calls_xor : Calls .xor .xorAssign :=
  calls_total (g := Int.xor) (fun _ _ => ⟨rfl, rfl, .inl rfl⟩) (fun _ _ => rfl) (fun _ _ => rfl)
    (fun _ _ _ => rfl) (fun _ _ => rfl) fun _ _ _ _ hclean => ⟨⟨trivial, trivial, hclean rfl⟩, trivial⟩

private theorem division_inv {g : Int → Int → Int}
    (hz : (if y = 0 then none else some (g x y)) = some z) : y ≠ 0 ∧ g x y = z := by
  by_cases h0 : y = 0
  · rw [if_pos h0] at hz
    exact absurd hz (by simp)
  · rw [if_neg h0] at hz
    exact ⟨h0, Option.some.inj hz⟩

private theorem calls_div : Calls .div .divAssign where
  inside _ _ := ⟨rfl, rfl, .inl rfl⟩
  reads _ _ := rfl
  allowed _ _ := rfl
  faultless h i b hfits _ := by
    refine ⟨⟨trivial, trivial, trivial⟩, ?_⟩
    cases b with
    | big j => trivial
    | int64 k => exact hfits
  meaning u i b x y z hx hy hz := by
    obtain ⟨h0, rfl⟩ := division_inv hz
    rw [Op.meaning, hx, Arg.divisor, hy, Option.bind_eq_bind, Option.bind_eq_bind, Option.bind_some,
      Option.bind_some, if_neg h0]
    rfl

theorem assignOp_exact (op : BinOp) (hs : h.Sound) (hx : h.values.value v = some x)
    (hy : other.value h.values = some y) (hz : op.meaning x y = some z) (hfits : op.Fits x other)
    (hclean : op.bitwise = true →
      ∀ i b, h.pImpl v = some i → h.arg other = some b → h.Unspoiled i b) :
    ∃ h', op.assign h v other = some h' ∧ Reaches h' (h.values.set v z) := by
  have hcall : ∀ f, Calls op f → ∃ h', h.callWith v other f = some h' ∧
      Reaches h' (h.values.set v z) := fun f hf =>
    callWith_exact hs hx hy hf.inside hf.reads hf.allowed
      (fun i b hi hb => hf.faultless h i b (fits_impl (value_eq hi ▸ hx) hb hfits)
        fun hbit => hclean hbit i b hi hb)
      fun i b hxi hyb => hf.meaning _ i b x y z hxi hyb hz
  cases op with
  | add => exact hcall _ calls_add
  | sub => exact hcall _ calls_sub
  | mul => exact hcall _ calls_mul
  | div => exact hcall _ calls_div
  | mod =>
      obtain ⟨h0, rfl⟩ := division_inv hz
      exact modAssign_exact hs hx hy h0 hfits
  | and => exact hcall _ calls_and
  | or => exact hcall _ calls_or
  | xor => exact hcall _ calls_xor

private structure Changes (f : Nat → Op) (g : Int → Int) : Prop where
  inside : ∀ i, Inside (f i) i
  reads : ∀ i, (f i).reads = [i]
  allowed : ∀ i, (f i).allowed = true
  meaning : ∀ (u : Values) i, (f i).meaning u = do return u.set i (g (← u.value i))

private theorem Changes.exact {f : Nat → Op} {g : Int → Int} (hf : Changes f g) (hs : h.Sound)
    (hx : h.values.value v = some x) (hok : ∀ i, h.pImpl v = some i → h.impls.Faultless (f i)) :
    ∃ h', h.call v f = some h' ∧ Reaches h' (h.values.set v (g x)) :=
  call_exact hs hx hf.inside (fun i k hk => List.mem_singleton.mp (hf.reads i ▸ hk)) hf.allowed hok
    fun i hxi => by
      rw [hf.meaning, hxi]
      rfl

private theorem Changes.copied {f : Nat → Op} {g : Int → Int} (hf : Changes f g) (hs : h.Sound)
    (htidy : h.Tidy) (hx : h.values.value v = some x)
    (hok : ∀ (p : Program) i, (∀ n, p.store.Unspoiled i n) → p.Faultless (f i)) :
    ∃ h', h.copied (.big v) (fun h temp => h.call temp f) = some h' ∧
      Reaches h' (h.values.push (g x)) := by
  refine copied_exact hs htidy hx (fun _ he => absurd he (by simp))
    (fun hrun => call_inPlace hf.inside hrun) fun h₁ hs₁ hclean hvalues => ?_
  have hx₁ : h₁.values.value (h.live + 1) = some x := by
    rw [hvalues]
    exact Function.update_self ..
  exact hf.exact hs₁ hx₁ fun i hi => hok _ i (hclean i hi)

private theorem caches_exact {f : Nat → Op} (hs : h.Sound) (hx : h.values.value v = some x)
    (hf : ∀ i, Inside (f i) i) (hreads : ∀ i, (f i).reads = [i])
    (hallowed : ∀ i, (f i).allowed = true)
    (hok : ∀ i, h.impls.Faultless (f i)) (hm : ∀ (u : Values) i, (f i).meaning u = some u) :
    ∃ h', h.call v f = some h' ∧ Reaches h' (h.values.set v x) := by
  refine call_exact hs hx hf (fun i k hk => List.mem_singleton.mp (hreads i ▸ hk)) hallowed
    (fun i _ => hok i) fun i hxi => ?_
  rw [hm, Values.set, ← hxi, Function.update_eq_self]

end Heap

open Heap

variable {h h' : Heap} {u : Values} {v : Nat} {x : Int}

private theorem change_inv {f : Int → Int} (hm : change u v f = some u') :
    ∃ x, u.value v = some x ∧ u' = u.set v (f x) := by
  obtain ⟨x, hx, hm⟩ := Option.bind_eq_some_iff.mp hm
  exact ⟨x, hx, (Option.some.inj hm).symm⟩

private theorem result_inv {f : Int → Int} (hm : result u v f = some u') :
    ∃ x, u.value v = some x ∧ u' = u.push (f x) := by
  obtain ⟨x, hx, hm⟩ := Option.bind_eq_some_iff.mp hm
  exact ⟨x, hx, (Option.some.inj hm).symm⟩

private theorem changes_of {f : Nat → Op} {g : Int → Int}
    (hf : ∀ i, ((f i).makes = false ∧ (f i).loses = [] ∧ (f i).writes = [i]) ∧
      (f i).reads = [i] ∧ (f i).allowed = true)
    (hm : ∀ (u : Values) i, (f i).meaning u = do return u.set i (g (← u.value i))) : Changes f g :=
  ⟨fun i => ⟨(hf i).1.1, (hf i).1.2.1, .inl (hf i).1.2.2⟩, fun i => (hf i).2.1,
    fun i => (hf i).2.2, hm⟩

private theorem changes_inc : Changes .inc (· + 1) :=
  changes_of (fun _ => ⟨⟨rfl, rfl, rfl⟩, rfl, rfl⟩) fun _ _ => rfl

private theorem changes_dec : Changes .dec (· - 1) :=
  changes_of (fun _ => ⟨⟨rfl, rfl, rfl⟩, rfl, rfl⟩) fun _ _ => rfl

private theorem changes_negate : Changes .negate (-·) :=
  changes_of (fun _ => ⟨⟨rfl, rfl, rfl⟩, rfl, rfl⟩) fun _ _ => rfl

private theorem changes_abs : Changes .abs (fun x => |x|) :=
  changes_of (fun _ => ⟨⟨rfl, rfl, rfl⟩, rfl, rfl⟩) fun _ _ => rfl

private theorem changes_notSelf : Changes .notSelf (-· - 1) :=
  changes_of (fun _ => ⟨⟨rfl, rfl, rfl⟩, rfl, rfl⟩) fun _ _ => rfl

private theorem changes_notBits : Changes .notBits complement :=
  changes_of (fun _ => ⟨⟨rfl, rfl, rfl⟩, rfl, rfl⟩) fun _ _ => rfl

private theorem changes_shiftLeftAssign (n : Nat) : Changes (.shiftLeftAssign · n) (· * 2 ^ n) :=
  changes_of (fun _ => ⟨⟨rfl, rfl, rfl⟩, rfl, rfl⟩) fun _ _ => rfl

private theorem changes_shiftRightAssign (n : Nat) : Changes (.shiftRightAssign · n) (· / 2 ^ n) :=
  changes_of (fun _ => ⟨⟨rfl, rfl, rfl⟩, rfl, rfl⟩) fun _ _ => rfl

private theorem value_set_of_ne {a : Arg} {w : Nat} (ha : ∀ k ∈ a.reads, k ≠ w) :
    a.value (u.set w x) = a.value u := by
  cases a with
  | big j => exact Function.update_of_ne (ha j List.mem_cons_self) ..
  | int64 k => rfl

private theorem binary_exact {op : BinOp} {operands : Operands} {y z : Int} (hs : h.Sound)
    (htidy : h.Tidy) (hok : (Stmt.binary op operands).Faultless h)
    (hlive : ∀ v ∈ operands.objects, v < h.live) (hx : operands.left.value h.values = some x)
    (hy : operands.right.value h.values = some y) (hz : op.meaning x y = some z) :
    ∃ h', op.apply h operands.left operands.right = some h' ∧ Reaches h' (h.values.push z) := by
  have hleft : ∀ k, operands.left = .int64 k → ¬ Num.TopLimbZero k := by
    intro k hk
    cases operands with
    | bigBig left right | bigInt left right => exact absurd hk (by simp [Operands.left])
    | intBig left right =>
        obtain rfl : left = k := by simpa [Operands.left] using hk
        exact hok
  have hfits : op.Fits x operands.right := by
    cases operands with
    | bigBig left right | intBig left right => cases op <;> trivial
    | bigInt left right =>
        obtain ⟨i, hi, hxi⟩ := impl_of_value hx
        rw [← (Program.usable_of_value hxi).2]
        exact hok i hi
  have hright : ∀ k ∈ operands.right.reads, k ≠ h.live + 1 := by
    intro k hk
    have hlt : k < h.live := by
      cases operands with
      | bigBig left right =>
          obtain rfl := List.mem_singleton.mp hk
          exact hlive k (by simp [Operands.objects])
      | bigInt left right => exact absurd hk List.not_mem_nil
      | intBig left right =>
          obtain rfl := List.mem_singleton.mp hk
          exact hlive k (by simp [Operands.objects])
    omega
  rw [apply_eq]
  refine copied_exact hs htidy hx hleft (fun hrun => assign_op_inPlace op hrun)
    fun h₁ hs₁ hclean hvalues => ?_
  have hx₁ : h₁.values.value (h.live + 1) = some x := by
    rw [hvalues]
    exact Function.update_self ..
  have hy₁ : operands.right.value h₁.values = some y := by
    rw [hvalues, value_set_of_ne hright, hy]
  exact assignOp_exact op hs₁ hx₁ hy₁ hz hfits fun _ i _ hi _ => hclean i hi _

private theorem post_exact {f : Nat → Op} {g : Int → Int} (hf : Changes f g) (hs : h.Sound)
    (htidy : h.Tidy) (hv : v < h.live) (hx : h.values.value v = some x)
    (hok : ∀ (p : Program) i, p.Faultless (f i)) :
    ∃ h', h.returned v (fun h _ => h.call v f) = some h' ∧
      Reaches h' ((h.values.set v (g x)).push x) := by
  have hne : v ≠ h.live := by omega
  refine returned_exact (u := (h.values.set v (g x)).set h.live x) hs htidy hx
    fun h₁ hs₁ _ hvalues => ?_
  have hx₁ : h₁.values.value v = some x := by
    rw [hvalues]
    exact (Function.update_of_ne hne ..).trans hx
  obtain ⟨h₂, hrun, hreach⟩ := hf.exact hs₁ hx₁ fun i _ => hok _ i
  refine ⟨h₂, hrun, hreach.impls, ?_⟩
  rw [hreach.values, hvalues]
  exact Values.ext (Function.update_comm hne.symm ..) rfl

private theorem step_values (hs : h.Sound) (htidy : h.Tidy) {stmt : Stmt} (hok : stmt.Faultless h)
    (hlive : ∀ v ∈ stmt.objects, v < h.live) (hm : stmt.meaning h.values = some u) :
    ∃ h', stmt.exec h = some h' ∧ Reaches h' u := by
  cases stmt with
  | default =>
      obtain rfl := Option.some.inj hm
      exact define_exact (newImpl_exact hs (show Creates .create from ⟨rfl, rfl, rfl⟩)
        (fun _ hk => absurd hk List.not_mem_nil) rfl faultless_create rfl)
  | copy other | plus other =>
      obtain ⟨x, hx, rfl⟩ := result_inv hm
      change ∃ h', h.define (·.copy · other) = some h' ∧ _
      exact define_exact (copy_exact hs hx)
  | move other =>
      obtain rfl := Option.some.inj hm
      exact ⟨_, rfl, hs.impls, congrArg (fun u : Values => { u with live := h.live + 1 })
        (values_move (h := h) (v := h.live) (w := other))⟩
  | ofI64 i =>
      obtain rfl := Option.some.inj hm
      rw [Stmt.exec]
      exact define_exact (ofI64_exact hs hok)
  | ofString str radix =>
      obtain ⟨x, hx, hm⟩ := Option.bind_eq_some_iff.mp hm
      obtain rfl := Option.some.inj hm
      rw [Stmt.exec]
      refine define_exact (newImpl_exact hs (show Creates (.createString str radix) from ⟨rfl, rfl, rfl⟩)
        (fun _ hk => absurd hk List.not_mem_nil) rfl ⟨⟨trivial, trivial, trivial⟩, trivial⟩ ?_)
      rw [Op.meaning, hx]
      rfl
  | ofBinary bin little =>
      obtain rfl := Option.some.inj hm
      rw [Stmt.exec]
      exact define_exact (newImpl_exact hs (show Creates (.createBytes bin little) from ⟨rfl, rfl, rfl⟩)
        (fun _ hk => absurd hk List.not_mem_nil) rfl ⟨⟨trivial, trivial, trivial⟩, hok⟩ rfl)
  | destroy v =>
      obtain rfl := Option.some.inj hm
      exact destroy_exact hs
  | assign v other =>
      rw [Stmt.meaning] at hm
      by_cases hvo : v = other
      · rw [if_pos hvo] at hm
        obtain rfl := Option.some.inj hm
        exact ⟨h, if_pos hvo, hs.impls, rfl⟩
      · rw [if_neg hvo] at hm
        obtain ⟨x, hx, hm⟩ := Option.bind_eq_some_iff.mp hm
        obtain rfl := Option.some.inj hm
        exact assign_exact hs hvo hx
  | assignMove v other =>
      rw [Stmt.meaning] at hm
      by_cases hvo : v = other
      · rw [if_pos hvo] at hm
        obtain rfl := Option.some.inj hm
        exact ⟨h, if_pos hvo, hs.impls, rfl⟩
      · rw [if_neg hvo] at hm
        obtain rfl := Option.some.inj hm
        exact assignMove_exact hs hvo
  | swap v w =>
      obtain rfl := Option.some.inj hm
      exact swap_exact hs (htidy _ (Nat.le_refl _)) (hlive v List.mem_cons_self)
        (hlive w (by simp [Stmt.objects]))
  | assignI64 v i =>
      obtain ⟨x, hx, rfl⟩ := change_inv hm
      exact call_exact hs hx (fun _ => ⟨rfl, rfl, .inl rfl⟩)
        (fun _ _ hk => absurd hk List.not_mem_nil) (fun _ => rfl)
        (fun _ _ => ⟨⟨hok, trivial, trivial⟩, trivial⟩) fun _ _ => rfl
  | assignString v str radix =>
      obtain ⟨x, hx, hm⟩ := Option.bind_eq_some_iff.mp hm
      obtain ⟨y, hy, hm⟩ := Option.bind_eq_some_iff.mp hm
      obtain rfl := Option.some.inj hm
      refine call_exact hs hx (fun _ => ⟨rfl, rfl, .inl rfl⟩)
        (fun _ _ hk => List.mem_singleton.mp hk) (fun _ => rfl)
        (fun _ _ => ⟨⟨trivial, trivial, trivial⟩, trivial⟩) fun i hxi => ?_
      rw [Op.meaning, hxi, Option.bind_eq_bind, Option.bind_some, hy]
      rfl
  | fromBinary v bin little =>
      obtain ⟨x, hx, rfl⟩ := change_inv hm
      exact call_exact hs hx (fun _ => ⟨rfl, rfl, .inl rfl⟩)
        (fun _ _ hk => absurd hk List.not_mem_nil) (fun _ => rfl)
        (fun _ _ => ⟨⟨trivial, trivial, trivial⟩, hok⟩) fun _ _ => rfl
  | inc v =>
      obtain ⟨x, hx, rfl⟩ := change_inv hm
      exact changes_inc.exact hs hx fun _ _ => ⟨⟨trivial, trivial, trivial⟩, trivial⟩
  | dec v =>
      obtain ⟨x, hx, rfl⟩ := change_inv hm
      exact changes_dec.exact hs hx fun _ _ => ⟨⟨trivial, trivial, trivial⟩, trivial⟩
  | negate v =>
      obtain ⟨x, hx, rfl⟩ := change_inv hm
      exact changes_negate.exact hs hx fun _ _ => ⟨⟨trivial, trivial, trivial⟩, trivial⟩
  | abs v =>
      obtain ⟨x, hx, rfl⟩ := change_inv hm
      exact changes_abs.exact hs hx fun _ _ => ⟨⟨trivial, trivial, trivial⟩, trivial⟩
  | notSelf v =>
      obtain ⟨x, hx, rfl⟩ := change_inv hm
      exact changes_notSelf.exact hs hx fun i hi => ⟨⟨trivial, trivial, hok i hi⟩, trivial⟩
  | notBits v =>
      obtain ⟨x, hx, rfl⟩ := change_inv hm
      exact changes_notBits.exact hs hx fun i hi => ⟨⟨hok i hi, trivial, trivial⟩, trivial⟩
  | shiftLeftAssign v u64 =>
      obtain ⟨x, hx, rfl⟩ := change_inv hm
      exact (changes_shiftLeftAssign _).exact hs hx
        fun _ _ => ⟨⟨trivial, trivial, trivial⟩, trivial⟩
  | shiftRightAssign v u64 =>
      obtain ⟨x, hx, rfl⟩ := change_inv hm
      exact (changes_shiftRightAssign _).exact hs hx
        fun _ _ => ⟨⟨trivial, trivial, trivial⟩, trivial⟩
  | toString v radix =>
      rw [Stmt.meaning] at hm
      by_cases hr : ValidRadix radix
      · rw [if_pos hr] at hm
        obtain ⟨x, hx, rfl⟩ := change_inv hm
        exact caches_exact hs hx (fun _ => ⟨rfl, rfl, .inr rfl⟩) (fun _ => rfl)
          (fun _ => decide_eq_true hr) (fun _ => ⟨⟨trivial, trivial, trivial⟩, trivial⟩)
          fun _ _ => rfl
      · rw [if_neg hr] at hm
        exact absurd hm (by simp)
  | get2sComplement v i =>
      obtain ⟨x, hx, rfl⟩ := change_inv hm
      exact caches_exact hs hx (fun _ => ⟨rfl, rfl, .inr rfl⟩) (fun _ => rfl) (fun _ => rfl)
        (fun _ => ⟨⟨trivial, trivial, trivial⟩, trivial⟩) fun _ _ => rfl
  | asInteger v =>
      obtain ⟨x, hx, rfl⟩ := change_inv hm
      exact caches_exact hs hx (fun _ => ⟨rfl, rfl, .inr rfl⟩) (fun _ => rfl) (fun _ => rfl)
        (fun _ => ⟨⟨trivial, trivial, trivial⟩, trivial⟩) fun _ _ => rfl
  | opAssign op v other =>
      obtain ⟨x, hx, hm⟩ := Option.bind_eq_some_iff.mp hm
      obtain ⟨y, hy, hm⟩ := Option.bind_eq_some_iff.mp hm
      obtain ⟨z, hz, hm⟩ := Option.bind_eq_some_iff.mp hm
      obtain rfl := Option.some.inj hm
      obtain ⟨i, hi, hxi⟩ := impl_of_value hx
      obtain ⟨b, hb, -⟩ := arg_of_value hy
      have hfits := (hok i b hi hb).1
      rw [(Program.usable_of_value hxi).2] at hfits
      exact assignOp_exact op hs hx hy hz hfits fun hbit i b hi hb => (hok i b hi hb).2 hbit
  | binary op operands =>
      obtain ⟨x, hx, hm⟩ := Option.bind_eq_some_iff.mp hm
      obtain ⟨y, hy, hm⟩ := Option.bind_eq_some_iff.mp hm
      obtain ⟨z, hz, hm⟩ := Option.bind_eq_some_iff.mp hm
      obtain rfl := Option.some.inj hm
      exact binary_exact hs htidy hok hlive hx hy hz
  | shiftLeft left right =>
      obtain ⟨x, hx, rfl⟩ := result_inv hm
      exact (changes_shiftLeftAssign _).copied hs htidy hx
        fun _ _ _ => ⟨⟨trivial, trivial, trivial⟩, trivial⟩
  | shiftRight left right =>
      obtain ⟨x, hx, rfl⟩ := result_inv hm
      exact (changes_shiftRightAssign _).copied hs htidy hx
        fun _ _ _ => ⟨⟨trivial, trivial, trivial⟩, trivial⟩
  | neg v | negated v =>
      obtain ⟨x, hx, rfl⟩ := result_inv hm
      exact changes_negate.copied hs htidy hx
        fun _ _ _ => ⟨⟨trivial, trivial, trivial⟩, trivial⟩
  | absoluted v =>
      obtain ⟨x, hx, rfl⟩ := result_inv hm
      exact changes_abs.copied hs htidy hx fun _ _ _ => ⟨⟨trivial, trivial, trivial⟩, trivial⟩
  | not v =>
      obtain ⟨x, hx, rfl⟩ := result_inv hm
      refine returned_exact (u := h.values.set h.live (-x - 1)) hs htidy hx fun h₁ hs₁ hclean hvalues => ?_
      have hx₁ : h₁.values.value h.live = some x := by
        rw [hvalues]
        exact Function.update_self ..
      obtain ⟨h₂, hrun, hreach⟩ := changes_notSelf.exact hs₁ hx₁ fun i hi =>
        ⟨⟨trivial, trivial, hclean i hi _⟩, trivial⟩
      refine ⟨h₂, hrun, hreach.impls, ?_⟩
      rw [hreach.values, hvalues]
      exact Values.ext (Function.update_idem ..) rfl
  | postInc v =>
      obtain ⟨x, hx, hm⟩ := Option.bind_eq_some_iff.mp hm
      obtain rfl := Option.some.inj hm
      exact post_exact changes_inc hs htidy (hlive v List.mem_cons_self) hx
        fun _ _ => ⟨⟨trivial, trivial, trivial⟩, trivial⟩
  | postDec v =>
      obtain ⟨x, hx, hm⟩ := Option.bind_eq_some_iff.mp hm
      obtain rfl := Option.some.inj hm
      exact post_exact changes_dec hs htidy (hlive v List.mem_cons_self) hx
        fun _ _ => ⟨⟨trivial, trivial, trivial⟩, trivial⟩

/-- A statement that meets no such condition does to the objects what it means for integers. -/
theorem step_exact {stmt : Stmt} (hs : h.impls.Sound) (hk : h.Kept) (hok : stmt.Faultless h)
    (hm : stmt.evalStep h.values = some u) :
    ∃ h', step h stmt = some h' ∧ (h'.impls.Sound ∧ h'.Kept) ∧ h'.values = u := by
  unfold Stmt.evalStep at hm
  split at hm
  swap
  · exact absurd hm (by simp)
  next hlive =>
  obtain ⟨h', hexec, hreach⟩ := step_values ⟨hs, hk.owned⟩ hk.tidy hok hlive hm
  have hstep : step h stmt = some h' := (if_pos hlive).trans hexec
  exact ⟨h', hstep, ⟨hreach.impls, step_kept hk hstep⟩, hreach.values⟩

/-- Whatever statements do to integers they do to the objects, where they are faultless. -/
theorem steps_exact {stmts : List Stmt} (hs : h.impls.Sound) (hk : h.Kept)
    (hok : Runs.Guarded step (fun h stmt => stmt.Faultless h) h stmts)
    (hrun : stmts.foldlM Stmt.evalStep h.values = some u) :
    ∃ h', stmts.foldlM step h = some h' ∧ (h'.impls.Sound ∧ h'.Kept) ∧ h'.values = u :=
  Runs.simulation Heap.values (fun _ _ _ hs hok hm => step_exact hs.1 hs.2 hok hm) ⟨hs, hk⟩ hok hrun

theorem run_simulates {stmts : List Stmt}
    (hok : Runs.Guarded step (fun h stmt => stmt.Faultless h) Heap.initial stmts)
    (hrun : stmts.foldlM Stmt.evalStep Values.initial = some u) :
    ∃ h, stmts.foldlM step Heap.initial = some h ∧ (h.impls.Sound ∧ h.Kept) ∧ h.values = u := by
  have hinitial : Heap.initial.values = Values.initial := rfl
  have hsound : Runs.Throughout Program.step Program.Sound Program.initial [] :=
    Program.run_sound trivial
  exact steps_exact hsound kept_initial hok (hinitial ▸ hrun)

def Stmt.Plain : Stmt → Prop
  | .ofI64 i | .assignI64 _ i => ¬ Num.TopLimbZero i
  | .ofBinary bin little | .fromBinary _ bin little => ¬ Misaligned (Store.littleOf bin little)
  | .opAssign op _ (.big _) => op.bitwise = false
  | .opAssign op _ (.int64 k) => op.bitwise = false ∧ ¬ Num.TopLimbZero k
  | .notSelf _ | .notBits _ => False
  | .binary _ (.bigBig _ _) => True
  | .binary _ (.bigInt _ k) | .binary _ (.intBig k _) => ¬ Num.TopLimbZero k
  | _ => True

private theorem fits_int64 {op : BinOp} {k : {k : Int // Num.InI64 k}} (hk : ¬ Num.TopLimbZero k)
    (x : Int) : op.Fits x (.int64 k) := by
  cases op with
  | add | sub | mul | div | mod => exact fun htop => absurd htop hk
  | and | or | xor => trivial

theorem Stmt.Plain.faultless {stmt : Stmt} (hplain : stmt.Plain) (h : Heap) :
    stmt.Faultless h := by
  cases stmt with
  | ofI64 i | assignI64 v i | ofBinary bin little | fromBinary v bin little => exact hplain
  | opAssign op v other =>
      intro i b _ _
      cases other with
      | big w =>
          refine ⟨by cases op <;> trivial, fun hbit => ?_⟩
          exact absurd (hbit.symm.trans hplain) (by decide)
      | int64 k =>
          refine ⟨fits_int64 hplain.2 _, fun hbit => ?_⟩
          exact absurd (hbit.symm.trans hplain.1) (by decide)
  | notSelf v | notBits v => exact absurd hplain id
  | binary op operands =>
      cases operands with
      | bigBig left right => trivial
      | bigInt left k => exact fun i _ => fits_int64 hplain _
      | intBig k right => exact hplain
  | _ => trivial

theorem guarded_of_plain {stmts : List Stmt} (hplain : ∀ stmt ∈ stmts, stmt.Plain) (h : Heap) :
    Runs.Guarded step (fun h stmt => stmt.Faultless h) h stmts := by
  induction stmts generalizing h with
  | nil => trivial
  | cons stmt stmts ih =>
      exact ⟨(hplain stmt List.mem_cons_self).faultless h, fun h' _ =>
        ih (fun s hs => hplain s (List.mem_cons_of_mem stmt hs)) h'⟩

end PGBigNumber.BigInteger
