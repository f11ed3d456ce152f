import PGBigNumber.BigInteger.Basic
import PGBigNumber.Library.Ownership
import PGBigNumber.Store.Exact

/-!
# Ownership of the implementations

In every state of every run each `BigIntegerImpl` belongs to exactly one `BigInteger`, and none is
left over by a temporary.
-/

namespace PGBigNumber.BigInteger

open Program (Arg Op)

namespace Heap

/-- Each implementation has exactly one owner, and no pointer dangles. -/
structure Owned (h : Heap) : Prop where
  wf : h.impls.store.Wf
  exclusive : Ownership.Exclusive h.pImpl h.impls.Usable

def Tidy (h : Heap) : Prop := ∀ v, h.live ≤ v → h.pImpl v = none

/-- The implementations change in place: all pointers stay. -/
structure InPlace (h h' : Heap) : Prop where
  pImpl : h'.pImpl = h.pImpl
  live : h'.live = h.live
  owned : h.Owned → h'.Owned

variable {h h' : Heap} {v w i : Nat} {op : Op} {p' : Program}

theorem Owned.usable (ho : h.Owned) (hv : h.pImpl v = some i) : h.impls.Usable i :=
  ho.exclusive.alive_of_owner hv

private theorem usable_inPlace (hwf : h.impls.store.Wf) (hmakes : op.makes = false)
    (hloses : op.loses = []) (hwrites : ∀ k ∈ op.writes, h.impls.Usable k)
    (hstep : h.impls.step op = some p') (k : Nat) : p'.Usable k ↔ h.impls.Usable k := by
  rw [Program.usable_step_iff hwf hstep, hmakes, hloses]
  constructor
  · rintro ⟨hold | hw | ⟨hf, -⟩, -⟩
    · exact hold
    · exact hwrites k hw
    · exact absurd hf (by decide)
  · exact fun hold => ⟨Or.inl hold, List.not_mem_nil⟩

/-- What the members of an object call on its implementation `i`. -/
structure Inside (op : Op) (i : Nat) : Prop where
  makes : op.makes = false
  loses : op.loses = []
  writes : op.writes = [i] ∨ op.writes = []

theorem inPlace_of_step (hv : h.pImpl v = some i) (hin : Inside op i)
    (hstep : h.impls.step op = some p') : h.InPlace { h with impls := p' } := by
  refine ⟨rfl, rfl, fun ho => ⟨Program.step_wf ho.wf hstep, ho.exclusive.congr
    (usable_inPlace ho.wf hin.makes hin.loses (fun k hk => ?_) hstep)⟩⟩
  rcases hin.writes with hw | hw
  · obtain rfl := List.mem_singleton.mp (hw ▸ hk)
    exact ho.usable hv
  · exact absurd (hw ▸ hk) List.not_mem_nil

theorem call_inPlace {f : Nat → Op} (hf : ∀ i, Inside (f i) i) (hrun : h.call v f = some h') :
    h.InPlace h' := by
  obtain ⟨i, hi, hrun⟩ := Option.bind_eq_some_iff.mp hrun
  obtain ⟨p', hstep, hrun⟩ := Option.bind_eq_some_iff.mp hrun
  obtain rfl := Option.some.inj hrun
  exact inPlace_of_step hi (hf i) hstep

theorem callWith_inPlace {other : Arg} {f : Nat → Arg → Op} (hf : ∀ i b, Inside (f i b) i)
    (hrun : h.callWith v other f = some h') : h.InPlace h' := by
  obtain ⟨i, hi, hrun⟩ := Option.bind_eq_some_iff.mp hrun
  obtain ⟨b, -, hrun⟩ := Option.bind_eq_some_iff.mp hrun
  obtain ⟨p', hstep, hrun⟩ := Option.bind_eq_some_iff.mp hrun
  obtain rfl := Option.some.inj hrun
  exact inPlace_of_step hi (hf i b) hstep

theorem modAssign_inPlace {other : Arg} (hrun : h.modAssign v other = some h') :
    h.InPlace h' := by
  obtain ⟨i, hi, hrun⟩ := Option.bind_eq_some_iff.mp hrun
  obtain ⟨b, -, hrun⟩ := Option.bind_eq_some_iff.mp hrun
  obtain ⟨p₁, hmake, hrun⟩ := Option.bind_eq_some_iff.mp hrun
  obtain ⟨p₂, hdivide, hrun⟩ := Option.bind_eq_some_iff.mp hrun
  obtain ⟨p₃, hend, hrun⟩ := Option.bind_eq_some_iff.mp hrun
  obtain rfl := Option.some.inj hrun
  refine ⟨rfl, rfl, fun ho => ?_⟩
  have hwf₁ := Program.step_wf ho.wf hmake
  have hwf₂ := Program.step_wf hwf₁ hdivide
  refine ⟨Program.step_wf hwf₂ hend, ho.exclusive.congr fun k => ?_⟩
  have huse := ho.usable hi
  have hq : ¬ h.impls.Usable h.impls.store.live := fun hu => Nat.lt_irrefl _ hu.1
  rw [Program.usable_step_iff hwf₂ hend, Program.usable_step_iff hwf₁ hdivide,
    Program.usable_step_iff ho.wf hmake]
  simp only [Op.writes, Op.loses, Op.makes, List.not_mem_nil, List.mem_cons, or_false, false_or,
    not_false_eq_true, and_true, true_and, false_and, Bool.false_eq_true]
  constructor
  · rintro ⟨(hold | rfl) | rfl | rfl, hne⟩
    · exact hold
    · exact absurd rfl hne
    · exact huse
    · exact absurd rfl hne
  · intro hold
    refine ⟨Or.inl (Or.inl hold), ?_⟩
    rintro rfl
    exact hq hold

structure Fills (h h' : Heap) (v : Nat) : Prop where
  pImpl : h'.pImpl = Function.update h.pImpl v (some h.impls.store.live)
  live : h'.live = h.live
  owned : h.Owned → h.pImpl v = none → h'.Owned

structure Creates (op : Op) : Prop where
  makes : op.makes = true
  loses : op.loses = []
  writes : op.writes = []

theorem newImpl_inv (hrun : h.newImpl v op = some h') : ∃ p', h.impls.step op = some p' ∧
    h' = { h with impls := p', pImpl := Function.update h.pImpl v (some h.impls.store.live) } := by
  obtain ⟨p', hstep, hrun⟩ := Option.bind_eq_some_iff.mp hrun
  exact ⟨p', hstep, (Option.some.inj hrun).symm⟩

private theorem not_usable_live : ¬ h.impls.Usable h.impls.store.live :=
  fun hu => Nat.lt_irrefl _ hu.1

private theorem usable_created (hwf : h.impls.store.Wf) (hc : Creates op)
    (hstep : h.impls.step op = some p') (k : Nat) :
    p'.Usable k ↔ h.impls.Usable k ∨ k = h.impls.store.live := by
  rw [Program.usable_step_iff hwf hstep, hc.makes, hc.loses, hc.writes]
  simp only [List.not_mem_nil, false_or, true_and, not_false_eq_true, and_true]

theorem newImpl_fills (hc : Creates op) (hrun : h.newImpl v op = some h') : h.Fills h' v := by
  obtain ⟨p', hstep, rfl⟩ := newImpl_inv hrun
  refine ⟨rfl, rfl, fun ho hv => ⟨Program.step_wf ho.wf hstep, ?_⟩⟩
  exact (ho.exclusive.acquire hv not_usable_live).congr (usable_created ho.wf hc hstep)

theorem copy_inv (hrun : h.copy v w = some h') :
    ∃ j, h.pImpl w = some j ∧ h.newImpl v (.createCopy j) = some h' :=
  Option.bind_eq_some_iff.mp hrun

theorem copy_fills (hrun : h.copy v w = some h') : h.Fills h' v := by
  obtain ⟨j, -, hrun⟩ := copy_inv hrun
  exact newImpl_fills ⟨rfl, rfl, rfl⟩ hrun

theorem construct_fills {left : Arg} (hrun : h.construct v left = some h') : h.Fills h' v := by
  cases left with
  | big w => exact copy_fills hrun
  | int64 k => exact newImpl_fills ⟨rfl, rfl, rfl⟩ hrun

theorem delete_inv {o : Option Nat} (hrun : h.delete o = some h') :
    h'.pImpl = h.pImpl ∧ h'.live = h.live ∧ (h.impls.store.Wf → h'.impls.store.Wf ∧
      ∀ k, h'.impls.Usable k ↔ h.impls.Usable k ∧ o ≠ some k) := by
  cases o with
  | none =>
      obtain rfl := Option.some.inj hrun
      exact ⟨rfl, rfl, fun hwf => ⟨hwf, fun k => by simp⟩⟩
  | some i =>
      obtain ⟨p', hstep, hrun⟩ := Option.bind_eq_some_iff.mp hrun
      obtain rfl := Option.some.inj hrun
      refine ⟨rfl, rfl, fun hwf => ⟨Program.step_wf hwf hstep, fun k => ?_⟩⟩
      rw [Program.usable_step_iff hwf hstep]
      simp only [Op.writes, Op.loses, Op.makes, List.not_mem_nil, List.mem_singleton,
        Bool.false_eq_true, false_and, or_false, ne_eq, Option.some.injEq, eq_comm]

private theorem Owned.release (ho : h.Owned) (v : Nat) :
    Ownership.Exclusive (Function.update h.pImpl v none)
      fun k => h.impls.Usable k ∧ h.pImpl v ≠ some k := by
  cases hv : h.pImpl v with
  | none =>
      rw [← hv, Function.update_eq_self]
      exact ho.exclusive.congr fun k => by simp [hv]
  | some i =>
      exact (ho.exclusive.release hv).congr fun k => by
        simp only [ne_eq, Option.some.injEq, eq_comm]

theorem destroy_inv (hrun : h.destroy v = some h') : h'.pImpl = Function.update h.pImpl v none ∧
    h'.live = h.live ∧ (h.Owned → h'.Owned) := by
  obtain ⟨hpImpl, hlive, hdelete⟩ := delete_inv hrun
  refine ⟨hpImpl, hlive, fun ho => ?_⟩
  obtain ⟨hwf, huse⟩ := hdelete ho.wf
  refine ⟨hwf, ?_⟩
  rw [hpImpl]
  exact (ho.release v).congr huse

theorem assign_inv (hrun : h.assign v w = some h') : (∀ u, u ≠ v → h'.pImpl u = h.pImpl u) ∧
    h'.live = h.live ∧ (h.Owned → h'.Owned) := by
  unfold assign at hrun
  split at hrun
  · obtain rfl := Option.some.inj hrun
    exact ⟨fun _ _ => rfl, rfl, id⟩
  obtain ⟨h₁, hcopy, hdelete⟩ := Option.bind_eq_some_iff.mp hrun
  obtain ⟨hpImpl, hlive, hgone⟩ := delete_inv hdelete
  obtain ⟨j, -, hnew⟩ := copy_inv hcopy
  obtain ⟨p', hstep, rfl⟩ := newImpl_inv hnew
  refine ⟨fun u hu => ?_, hlive, fun ho => ?_⟩
  · rw [hpImpl]
    exact Function.update_of_ne hu ..
  · obtain ⟨hwf, huse⟩ := hgone (Program.step_wf ho.wf hstep)
    refine ⟨hwf, ?_⟩
    have hacquire := (ho.release v).acquire (Function.update_self v none h.pImpl)
      fun hu => not_usable_live hu.1
    rw [Function.update_idem] at hacquire
    rw [hpImpl]
    refine hacquire.congr fun k => ?_
    rw [huse, usable_created ho.wf ⟨rfl, rfl, rfl⟩ hstep, or_and_right]
    refine or_congr_right (and_iff_left_of_imp ?_)
    rintro rfl hold
    exact not_usable_live (ho.usable hold)

theorem Owned.move (ho : h.Owned) (hv : h.pImpl v = none) (hvw : v ≠ w) : (h.move v w).Owned :=
  ⟨ho.wf, ho.exclusive.transfer hv hvw⟩

theorem assignMove_inv (hrun : h.assignMove v w = some h') :
    (v ≠ w → h'.pImpl = Function.update (Function.update h.pImpl v (h.pImpl w)) w none) ∧
      (v = w → h'.pImpl = h.pImpl) ∧ h'.live = h.live ∧ (h.Owned → h'.Owned) := by
  unfold assignMove at hrun
  split at hrun
  · next heq =>
    obtain rfl := Option.some.inj hrun
    exact ⟨fun hne => absurd heq hne, fun _ => rfl, rfl, id⟩
  · next hne =>
    obtain ⟨hpImpl, hlive, hgone⟩ := delete_inv hrun
    refine ⟨fun _ => hpImpl, fun heq => absurd heq hne, hlive, fun ho => ?_⟩
    obtain ⟨hwf, huse⟩ := hgone ho.wf
    refine ⟨hwf, ?_⟩
    have htransfer := (ho.release v).transfer (Function.update_self v none h.pImpl) hne
    rw [Function.update_of_ne (Ne.symm hne), Function.update_idem] at htransfer
    rw [hpImpl]
    exact htransfer.congr huse

theorem swap_inv (htidy : h.pImpl h.live = none) (hv : v < h.live) (hw : w < h.live)
    (hrun : h.swap v w = some h') : (∀ u, h'.pImpl u = h.pImpl (Equiv.swap v w u)) ∧
      h'.live = h.live ∧ (h.Owned → h'.Owned) := by
  obtain ⟨h₁, hfirst, hrun⟩ := Option.bind_eq_some_iff.mp hrun
  obtain ⟨h₂, hsecond, hend⟩ := Option.bind_eq_some_iff.mp hrun
  obtain ⟨hne₁, heq₁, hlive₁, ho₁⟩ := assignMove_inv hfirst
  obtain ⟨hne₂, -, hlive₂, ho₂⟩ := assignMove_inv hsecond
  obtain ⟨hpImpl₃, hlive₃, ho₃⟩ := destroy_inv hend
  have hvt : v ≠ h.live := by omega
  have hwt : w ≠ h.live := by omega
  refine ⟨fun u => ?_, by rw [hlive₃, hlive₂, hlive₁]; rfl, fun ho =>
    ho₃ (ho₂ (ho₁ (ho.move htidy (Ne.symm hvt))))⟩
  have hmoved : (h.move h.live v).pImpl =
      Function.update (Function.update h.pImpl h.live (h.pImpl v)) v none := rfl
  rw [hpImpl₃, hne₂ hwt]
  by_cases hvw : v = w
  · subst hvw
    rw [heq₁ rfl, hmoved, Equiv.swap_self, Equiv.refl_apply]
    simp only [Function.update_apply]
    split_ifs <;> simp_all
  · rw [hne₁ hvw, hmoved, Equiv.swap_apply_def]
    simp only [Function.update_apply]
    split_ifs <;> simp_all

/-- Each implementation has one owner, which is an object of the program. -/
structure Kept (h : Heap) : Prop where
  owned : h.Owned
  tidy : h.Tidy

theorem InPlace.kept (hin : h.InPlace h') (hk : h.Kept) : h'.Kept := by
  refine ⟨hin.owned hk.owned, fun v hv => ?_⟩
  rw [hin.pImpl]
  exact hk.tidy v (hin.live ▸ hv)

theorem Fills.kept (hf : h.Fills h' h.live) (hk : h.Kept) :
    Kept { h' with live := h.live + 1 } := by
  have ho := hf.owned hk.owned (hk.tidy _ (Nat.le_refl _))
  refine ⟨⟨ho.wf, ho.exclusive⟩, fun v hv => ?_⟩
  have hne : v ≠ h.live := by
    have : h.live + 1 ≤ v := hv
    omega
  change h'.pImpl v = none
  rw [hf.pImpl, Function.update_of_ne hne]
  exact hk.tidy v (Nat.le_of_succ_le hv)

theorem define_kept {construct : Heap → Nat → Option Heap} (hk : h.Kept)
    (hrun : h.define construct = some h')
    (hc : ∀ {h'}, construct h h.live = some h' → h.Fills h' h.live) : h'.Kept := by
  obtain ⟨h₁, hmake, hrun⟩ := Option.bind_eq_some_iff.mp hrun
  obtain rfl := Option.some.inj hrun
  exact (hc hmake).kept hk

theorem returned_kept {f : Heap → Nat → Option Heap} (hk : h.Kept)
    (hrun : h.returned v f = some h') (hf : ∀ {h h' u}, f h u = some h' → h.InPlace h') :
    h'.Kept := by
  obtain ⟨h₁, hcopy, hrun⟩ := Option.bind_eq_some_iff.mp hrun
  obtain ⟨h₂, hchange, hrun⟩ := Option.bind_eq_some_iff.mp hrun
  obtain rfl := Option.some.inj hrun
  have hfills := copy_fills hcopy
  have hin := hf hchange
  exact Fills.kept ⟨by rw [hin.pImpl, hfills.pImpl], by rw [hin.live, hfills.live],
    fun ho hnew => hin.owned (hfills.owned ho hnew)⟩ hk

theorem copied_kept {left : Arg} {f : Heap → Nat → Option Heap} (hk : h.Kept)
    (hrun : h.copied left f = some h') (hf : ∀ {h h' u}, f h u = some h' → h.InPlace h') :
    h'.Kept := by
  obtain ⟨h₁, hmake, hrun⟩ := Option.bind_eq_some_iff.mp hrun
  obtain ⟨h₂, hchange, hrun⟩ := Option.bind_eq_some_iff.mp hrun
  obtain ⟨h₃, hcopy, hrun⟩ := Option.bind_eq_some_iff.mp hrun
  obtain ⟨h₄, hend, hrun⟩ := Option.bind_eq_some_iff.mp hrun
  obtain rfl := Option.some.inj hrun
  have htemp := construct_fills hmake
  have hin := hf hchange
  have hresult := copy_fills hcopy
  obtain ⟨hpImpl, -, hended⟩ := destroy_inv hend
  have hnull : h₂.pImpl h.live = none := by
    rw [hin.pImpl, htemp.pImpl, Function.update_of_ne (by omega)]
    exact hk.tidy _ (Nat.le_refl _)
  have ho₂ := hin.owned (htemp.owned hk.owned (hk.tidy _ (Nat.le_succ _)))
  have ho₄ := hended (hresult.owned ho₂ hnull)
  refine ⟨⟨ho₄.wf, ho₄.exclusive⟩, fun u hu => ?_⟩
  have hu : h.live + 1 ≤ u := hu
  change h₄.pImpl u = none
  rw [hpImpl]
  by_cases hut : u = h.live + 1
  · rw [hut, Function.update_self]
  · rw [Function.update_of_ne hut, hresult.pImpl, Function.update_of_ne (by omega), hin.pImpl,
      htemp.pImpl, Function.update_of_ne hut]
    exact hk.tidy u (by omega)

theorem assign_op_inPlace {other : Arg} (op : BinOp) (hrun : op.assign h v other = some h') :
    h.InPlace h' := by
  cases op with
  | mod => exact modAssign_inPlace hrun
  | add | sub | mul | div | and | or | xor =>
      exact callWith_inPlace (fun _ _ => ⟨rfl, rfl, .inl rfl⟩) hrun

theorem apply_eq (op : BinOp) (left right : Arg) :
    op.apply h left right = h.copied left fun h temp => op.assign h temp right := by
  cases op <;> rfl

theorem move_kept (hw : w < h.live) (hk : h.Kept) :
    Kept { h.move h.live w with live := h.live + 1 } := by
  have ho := hk.owned.move (hk.tidy _ (Nat.le_refl _)) (Nat.ne_of_gt hw)
  refine ⟨⟨ho.wf, ho.exclusive⟩, fun u hu => ?_⟩
  have hu : h.live + 1 ≤ u := hu
  change Function.update (Function.update h.pImpl h.live (h.pImpl w)) w none u = none
  rw [Function.update_of_ne (by omega), Function.update_of_ne (by omega)]
  exact hk.tidy u (by omega)

end Heap

open Heap

variable {h h' : Heap}

theorem step_kept {stmt : Stmt} (hk : h.Kept) (hstep : step h stmt = some h') : h'.Kept := by
  unfold step at hstep
  split at hstep
  swap
  · exact absurd hstep (by simp)
  next hlive =>
  cases stmt with
  | default =>
      rw [Stmt.exec] at hstep
      exact define_kept hk hstep fun hrun => newImpl_fills ⟨rfl, rfl, rfl⟩ hrun
  | copy other =>
      rw [Stmt.exec] at hstep
      exact define_kept hk hstep fun hrun => copy_fills hrun
  | move other =>
      obtain rfl : _ = h' := Option.some.inj hstep
      exact move_kept (hlive other List.mem_cons_self) hk
  | ofI64 i =>
      rw [Stmt.exec] at hstep
      exact define_kept hk hstep fun hrun => newImpl_fills ⟨rfl, rfl, rfl⟩ hrun
  | ofString str radix =>
      rw [Stmt.exec] at hstep
      exact define_kept hk hstep fun hrun => newImpl_fills ⟨rfl, rfl, rfl⟩ hrun
  | ofBinary bin little =>
      rw [Stmt.exec] at hstep
      exact define_kept hk hstep fun hrun => newImpl_fills ⟨rfl, rfl, rfl⟩ hrun
  | destroy v =>
      obtain ⟨hpImpl, hsame, ho⟩ := destroy_inv hstep
      refine ⟨ho hk.owned, fun u hu => ?_⟩
      rw [hpImpl, Function.update_apply]
      split_ifs
      · rfl
      · exact hk.tidy u (hsame ▸ hu)
  | assign v other =>
      obtain ⟨hpImpl, hsame, ho⟩ := assign_inv hstep
      refine ⟨ho hk.owned, fun u hu => ?_⟩
      have hv := hlive v List.mem_cons_self
      rw [hpImpl u (by omega)]
      exact hk.tidy u (hsame ▸ hu)
  | assignMove v other =>
      obtain ⟨hne, heq, hsame, ho⟩ := assignMove_inv hstep
      refine ⟨ho hk.owned, fun u hu => ?_⟩
      have hv := hlive v List.mem_cons_self
      have hother := hlive other (by simp [Stmt.objects])
      have hold := hk.tidy u (hsame ▸ hu)
      by_cases hvo : v = other
      · rw [heq hvo, hold]
      · rw [hne hvo, Function.update_of_ne (by omega), Function.update_of_ne (by omega), hold]
  | swap v w =>
      have hv := hlive v List.mem_cons_self
      have hw := hlive w (by simp [Stmt.objects])
      obtain ⟨hpImpl, hsame, ho⟩ := swap_inv (hk.tidy _ (Nat.le_refl _)) hv hw hstep
      refine ⟨ho hk.owned, fun u hu => ?_⟩
      rw [hpImpl, Equiv.swap_apply_of_ne_of_ne (by omega) (by omega)]
      exact hk.tidy u (hsame ▸ hu)
  | assignI64 v i => exact (call_inPlace (fun _ => ⟨rfl, rfl, .inl rfl⟩) hstep).kept hk
  | assignString v str radix => exact (call_inPlace (fun _ => ⟨rfl, rfl, .inl rfl⟩) hstep).kept hk
  | fromBinary v bin little => exact (call_inPlace (fun _ => ⟨rfl, rfl, .inl rfl⟩) hstep).kept hk
  | inc v | dec v | negate v | abs v | notSelf v | notBits v =>
      exact (call_inPlace (fun _ => ⟨rfl, rfl, .inl rfl⟩) hstep).kept hk
  | shiftLeftAssign v u64 | shiftRightAssign v u64 =>
      exact (call_inPlace (fun _ => ⟨rfl, rfl, .inl rfl⟩) hstep).kept hk
  | toString v radix => exact (call_inPlace (fun _ => ⟨rfl, rfl, .inr rfl⟩) hstep).kept hk
  | get2sComplement v i => exact (call_inPlace (fun _ => ⟨rfl, rfl, .inr rfl⟩) hstep).kept hk
  | asInteger v => exact (call_inPlace (fun _ => ⟨rfl, rfl, .inr rfl⟩) hstep).kept hk
  | opAssign op v other => exact (assign_op_inPlace op hstep).kept hk
  | binary op operands =>
      rw [Stmt.exec, apply_eq] at hstep
      exact copied_kept hk hstep fun hrun => assign_op_inPlace op hrun
  | shiftLeft left right | shiftRight left right =>
      rw [Stmt.exec] at hstep
      exact copied_kept hk hstep fun hrun => call_inPlace (fun _ => ⟨rfl, rfl, .inl rfl⟩) hrun
  | neg v | negated v | absoluted v =>
      exact copied_kept hk hstep fun hrun => call_inPlace (fun _ => ⟨rfl, rfl, .inl rfl⟩) hrun
  | plus v =>
      rw [Stmt.exec] at hstep
      exact define_kept hk hstep fun hrun => copy_fills hrun
  | not v =>
      exact returned_kept hk hstep fun hrun => call_inPlace (fun _ => ⟨rfl, rfl, .inl rfl⟩) hrun
  | postInc v =>
      have hrun : h.returned v (fun h _ => h.inc v) = some h' := hstep
      exact returned_kept hk hrun fun hrun => call_inPlace (fun _ => ⟨rfl, rfl, .inl rfl⟩) hrun
  | postDec v =>
      have hrun : h.returned v (fun h _ => h.dec v) = some h' := hstep
      exact returned_kept hk hrun fun hrun => call_inPlace (fun _ => ⟨rfl, rfl, .inl rfl⟩) hrun

theorem kept_initial : Heap.initial.Kept := by
  have hnull : ∀ {v k}, Heap.initial.pImpl v ≠ some k := fun hv => by simp [Heap.initial] at hv
  refine ⟨⟨Store.Wf.initial, fun hu => absurd hu hnull, fun k => ?_⟩, fun _ _ => rfl⟩
  constructor
  · exact fun hu => absurd hu Program.not_usable_initial
  · exact fun ⟨_, hv⟩ => absurd hv hnull

/-- In every state of every run each `BigIntegerImpl` has exactly one `BigInteger`: none leaks,
none is freed twice, and no pointer dangles. -/
theorem run_kept (stmts : List Stmt) : Runs.Throughout step Heap.Kept Heap.initial stmts :=
  Runs.throughout_of_invariant (fun _ _ _ hk hstep => step_kept hk hstep) kept_initial stmts

end PGBigNumber.BigInteger
