import PGBigNumber.Slices.Basic

/-!
# What a step leaves to the slices

The windows and addresses after each kind of step: one slice is written, gets a new vector, looks
where another one looks, or is gone, and every other slice sees what it saw unless it looks at the
vector that was written. No step makes a vector too long.
-/

namespace PGBigNumber

namespace Slices

variable {α : Type}

/-- Every slice holds an allocated address and has a number in use. -/
def Valid (s : Slices α) : Prop := ∀ i r, s.obj i = some r → r.data < s.next ∧ i < s.made

def Fits (s : Slices α) : Prop := ∀ a, (s.vec a).length ≤ maxSize

variable {s s' : Slices α} {i j a : Nat} {w v u : Slice α} {r : Ref}
  {f : Slice α → Option (Slice α)} {op : Op α}

theorem fit_inv (h : fit w = some u) : u = w ∧ w.data.length ≤ maxSize := by
  obtain ⟨hle, h⟩ := Option.ite_none_right_eq_some.mp h
  exact ⟨(Option.some.inj h).symm, hle⟩

theorem list_of_view (h : s.view i = some w) : s.list i = some w.toList := by
  rw [list, h, Option.map_some]

theorem view_inv (h : s.view i = some w) :
    ∃ r, s.obj i = some r ∧ s.own i = some r.data ∧ w = ⟨s.vec r.data, r.lo, r.hi⟩ := by
  obtain ⟨r, hr, rfl⟩ := Option.map_eq_some_iff.mp h
  exact ⟨r, hr, by rw [own, hr, Option.map_some], rfl⟩

theorem list_inv {l : List α} (h : s.list i = some l) : ∃ w, s.view i = some w ∧ w.toList = l :=
  Option.map_eq_some_iff.mp h

theorem forall_view_iff {p : Slice α → Prop} (h : s.view i = some w) :
    (∀ v, s.view i = some v → p v) ↔ p w := by
  constructor
  · exact fun hall => hall w h
  · intro hp v hv
    obtain rfl := Option.some.inj (h.symm.trans hv)
    exact hp

theorem data_eq_of_own (hw : s.view i = some w) (hv : s.view j = some v)
    (h : s.own j = s.own i) : v.data = w.data := by
  obtain ⟨r, -, hr, rfl⟩ := view_inv hw
  obtain ⟨q, -, hq, rfl⟩ := view_inv hv
  have haddr : q.data = r.data := Option.some.inj (hq.symm.trans (h.trans hr))
  simp only [haddr]

@[simp]
theorem view_put_self : (s.put i a w).view i = some w := by
  simp [view, put]

theorem view_put_of_ne (hj : j ≠ i) (ha : s.own j ≠ some a) :
    (s.put i a w).view j = s.view j := by
  simp only [view, put, Function.update_of_ne hj]
  cases hr : s.obj j with
  | none => rfl
  | some r =>
      have hdata : r.data ≠ a := fun heq => ha (by rw [own, hr, Option.map_some, heq])
      simp only [Option.map_some, Function.update_of_ne hdata]

theorem view_put_shared (hj : j ≠ i) (ha : s.own j = some a) (hv : s.view j = some v) :
    (s.put i a w).view j = some ⟨w.data, v.lo, v.hi⟩ := by
  obtain ⟨q, hq, hown, rfl⟩ := view_inv hv
  obtain rfl := Option.some.inj (hown.symm.trans ha)
  simp only [view, put, Function.update_of_ne hj, hq, Option.map_some, Function.update_self]

theorem inside_put_iff (hin : s.Inside) : (s.put i a w).Inside ↔
    w.Wf ∧ ∀ j v, j ≠ i → s.own j = some a → s.view j = some v → v.hi ≤ w.data.length := by
  constructor
  · intro h
    refine ⟨h i w view_put_self, fun j v hj ha hv => ?_⟩
    exact (h j _ (view_put_shared hj ha hv)).2
  · rintro ⟨hw, hfit⟩ j v hv
    by_cases hj : j = i
    · subst hj
      obtain rfl := Option.some.inj (view_put_self.symm.trans hv)
      exact hw
    by_cases ha : s.own j = some a
    · obtain ⟨u, hu⟩ : ∃ u, s.view j = some u := by
        obtain ⟨q, hq, -⟩ := Option.map_eq_some_iff.mp ha
        exact ⟨_, by rw [view, hq, Option.map_some]⟩
      obtain rfl := Option.some.inj ((view_put_shared hj ha hu).symm.trans hv)
      exact ⟨(hin j u hu).1, hfit j u hj ha hu⟩
    · exact hin j v ((view_put_of_ne hj ha).symm.trans hv)

theorem own_put (h : s.own i = some a) : (s.put i a w).own = s.own := by
  funext j
  by_cases hj : j = i
  · subst hj
    simp only [own, put, Function.update_self, Option.map_some]
    exact h.symm
  · simp only [own, put, Function.update_of_ne hj]

theorem Valid.own_ne_next (h : s.Valid) (j : Nat) : s.own j ≠ some s.next := by
  intro heq
  obtain ⟨r, hr, hdata⟩ := Option.map_eq_some_iff.mp heq
  have := (h j r hr).1
  omega

theorem Valid.view_made (h : s.Valid) : s.view s.made = none := by
  cases hv : s.view s.made with
  | none => rfl
  | some w =>
      obtain ⟨r, hr, -⟩ := view_inv hv
      exact absurd (h _ r hr).2 (Nat.lt_irrefl _)

theorem view_renew_of_ne (h : s.Valid) (hj : j ≠ i) : (s.renew i w).view j = s.view j :=
  view_put_of_ne (s := s) hj (h.own_ne_next j)

theorem view_renew_self : (s.renew i w).view i = some w := view_put_self (s := s)

theorem inside_renew_iff (h : s.Valid) (hin : s.Inside) : (s.renew i w).Inside ↔ w.Wf := by
  have hput : (s.renew i w).Inside ↔ _ := inside_put_iff (i := i) (a := s.next) (w := w) hin
  rw [hput]
  exact and_iff_left fun j v _ ha => absurd ha (h.own_ne_next j)

theorem view_bind_of_ne {o : Option Ref} (hj : j ≠ i) : (s.bind i o).view j = s.view j := by
  simp only [view, bind, Function.update_of_ne hj]

theorem view_bind_self {o : Option Ref} :
    (s.bind i o).view i = o.map fun r => ⟨s.vec r.data, r.lo, r.hi⟩ := by
  simp only [view, bind, Function.update_self]

def Held (s : Slices α) (r : Ref) : Prop := ∃ j, s.obj j = some r

theorem held_of_obj (h : s.obj j = some r) (q : Ref) (hq : some r = some q) : s.Held q := by
  obtain rfl := Option.some.inj hq
  exact ⟨j, h⟩

theorem Inside.bind {o : Option Ref} (hin : s.Inside) (ho : ∀ r, o = some r → s.Held r) :
    (s.bind i o).Inside := by
  intro k w hw
  by_cases hk : k = i
  · subst hk
    rw [view_bind_self] at hw
    obtain ⟨r, hr, rfl⟩ := Option.map_eq_some_iff.mp hw
    obtain ⟨j, hj⟩ := ho r hr
    exact hin j _ (by rw [view, hj, Option.map_some])
  · exact hin k w ((view_bind_of_ne hk).symm.trans hw)

theorem write_inv (h : s.write i f = some s') : ∃ a w u, s.view i = some w ∧ s.own i = some a ∧
    f w = some u ∧ s' = s.put i a u := by
  obtain ⟨r, hr, h⟩ := Option.bind_eq_some_iff.mp h
  obtain ⟨u, hu, hs'⟩ := Option.bind_eq_some_iff.mp h
  refine ⟨r.data, ⟨s.vec r.data, r.lo, r.hi⟩, u, ?_, ?_, hu, (Option.some.inj hs').symm⟩
  · rw [view, hr, Option.map_some]
  · rw [own, hr, Option.map_some]

theorem write_fit_inv {g : Slice α → Slice α} (h : s.write i (fun w => fit (g w)) = some s') :
    ∃ a w, s.view i = some w ∧ s.own i = some a ∧ s' = s.put i a (g w) := by
  obtain ⟨a, w, u, hw, ha, hu, rfl⟩ := write_inv h
  obtain ⟨rfl, -⟩ := fit_inv hu
  exact ⟨a, w, hw, ha, rfl⟩

theorem copy_inv (h : s.copy i = some s') : ∃ r, s.obj i = some r ∧
    s' = s.grow.bind s.made (some r) := by
  obtain ⟨r, hr, hs'⟩ := Option.map_eq_some_iff.mp h
  exact ⟨r, hr, hs'.symm⟩

theorem assign_inv (h : s.assign i j = some s') : ∃ q r, s.obj i = some q ∧ s.obj j = some r ∧
    s' = s.bind i (some r) := by
  obtain ⟨q, hq, h⟩ := Option.bind_eq_some_iff.mp h
  obtain ⟨r, hr, hs'⟩ := Option.bind_eq_some_iff.mp h
  exact ⟨q, r, hq, hr, (Option.some.inj hs').symm⟩

theorem swap_inv [Inhabited α] (h : step s (.swap i j) = some s') :
    ∃ q r, s.obj i = some q ∧ s.obj j = some r ∧ s' = s.swap i j := by
  obtain ⟨q, hq, h⟩ := Option.bind_eq_some_iff.mp h
  obtain ⟨r, hr, hs'⟩ := Option.bind_eq_some_iff.mp h
  exact ⟨q, r, hq, hr, (Option.some.inj hs').symm⟩

theorem cloneData_inv [Inhabited α] (h : step s (.cloneData i) = some s') :
    ∃ w, s.view i = some w ∧ (s.useCount i = 1 ∧ s' = s ∨
      s.useCount i ≠ 1 ∧ w.clone.data.length ≤ maxSize ∧ s' = s.renew i w.clone) := by
  obtain ⟨w, hw, h⟩ := Option.bind_eq_some_iff.mp h
  refine ⟨w, hw, ?_⟩
  by_cases hone : s.useCount i = 1
  · rw [if_pos hone] at h
    exact Or.inl ⟨hone, (Option.some.inj h).symm⟩
  · rw [if_neg hone] at h
    obtain ⟨u, hu, hs'⟩ := Option.map_eq_some_iff.mp h
    obtain ⟨rfl, hle⟩ := fit_inv hu
    exact Or.inr ⟨hone, hle, hs'.symm⟩

theorem Valid.ne_made (h : s.Valid) (hw : s.view i = some w) : i ≠ s.made := by
  intro heq
  rw [heq, h.view_made] at hw
  cases hw

theorem view_copy (hr : s.obj i = some r) :
    (s.grow.bind s.made (some r)).view s.made = s.view i := by
  simp only [view, bind, Function.update_self, hr, Option.map_some, grow]

theorem own_copy (hr : s.obj i = some r) :
    (s.grow.bind s.made (some r)).own s.made = s.own i := by
  simp only [own, bind, Function.update_self, hr, Option.map_some]

theorem own_copy_of_ne (hj : j ≠ s.made) :
    (s.grow.bind s.made (some r)).own j = s.own j := by
  simp only [own, bind, Function.update_of_ne hj, grow]

theorem copy_views (hs : s.copy i = some s') :
    s'.view s.made = s.view i ∧ ∀ j, j ≠ s.made → s'.view j = s.view j := by
  obtain ⟨r, hr, rfl⟩ := copy_inv hs
  exact ⟨view_copy hr, fun j hj => view_bind_of_ne hj⟩

theorem assign_views (hs : s.assign i j = some s') :
    s'.view i = s.view j ∧ ∀ k, k ≠ i → s'.view k = s.view k := by
  obtain ⟨q, r, -, hr, rfl⟩ := assign_inv hs
  refine ⟨?_, fun k hk => view_bind_of_ne hk⟩
  rw [view_bind_self, view, hr]

theorem swap_views : (s.swap i j).view i = s.view j ∧ (s.swap i j).view j = s.view i ∧
    ∀ k, k ≠ i → k ≠ j → (s.swap i j).view k = s.view k := by
  refine ⟨?_, ?_, fun k hi hj => ?_⟩
  · simp only [view, swap, Equiv.swap_apply_left]
  · simp only [view, swap, Equiv.swap_apply_right]
  · simp only [view, swap, Equiv.swap_apply_of_ne_of_ne hi hj]

theorem Inside.copy (hin : s.Inside) (hs : s.copy i = some s') : s'.Inside := by
  obtain ⟨r, hr, rfl⟩ := copy_inv hs
  have hgrow : s.grow.Inside := hin
  exact hgrow.bind (held_of_obj hr)

theorem Inside.assign (hin : s.Inside) (hs : s.assign i j = some s') : s'.Inside := by
  obtain ⟨q, r, -, hr, rfl⟩ := assign_inv hs
  exact hin.bind (held_of_obj hr)

theorem Inside.swap (hin : s.Inside) : (s.swap i j).Inside := fun k => hin (Equiv.swap i j k)

theorem alone_renew (h : s.Valid) (hi : i < s.made) : (s.renew i w).Alone i := by
  have hown : (s.renew i w).own i = some s.next := by
    simp only [own, renew, put, Function.update_self, Option.map_some]
  have hsole : UseCount.Sole (s.renew i w).own s.made i := by
    intro j _ hj
    rw [hown]
    simp only [own, renew, put, Function.update_of_ne hj]
    exact h.own_ne_next j
  refine ⟨?_, (UseCount.count_eq_one_iff _ hi).mpr hsole⟩
  simp only [renew, put, Function.update_self, Option.isSome_some]

theorem Valid.grow (h : s.Valid) : s.grow.Valid := fun i r hr =>
  ⟨(h i r hr).1, Nat.lt_succ_of_lt (h i r hr).2⟩

theorem Valid.bind {o : Option Ref} (h : s.Valid) (hi : i < s.made)
    (ho : ∀ r, o = some r → s.Held r) : (s.bind i o).Valid := by
  intro k r hr
  by_cases hk : k = i
  · subst hk
    simp only [Slices.bind, Function.update_self] at hr
    obtain ⟨j, hj⟩ := ho r hr
    exact ⟨(h j r hj).1, hi⟩
  · simp only [Slices.bind, Function.update_of_ne hk] at hr
    exact h k r hr

theorem Valid.put (h : s.Valid) (hi : i < s.made) (ha : a < s.next) : (s.put i a w).Valid := by
  intro k r hr
  by_cases hk : k = i
  · subst hk
    simp only [Slices.put, Function.update_self] at hr
    obtain rfl := Option.some.inj hr
    exact ⟨ha, hi⟩
  · simp only [Slices.put, Function.update_of_ne hk] at hr
    exact h k r hr

theorem Valid.renew (h : s.Valid) (hi : i < s.made) : (s.renew i w).Valid := by
  have hnext : Valid { s with next := s.next + 1 } := fun k r hr =>
    ⟨Nat.lt_succ_of_lt (h k r hr).1, (h k r hr).2⟩
  exact hnext.put (a := s.next) hi (Nat.lt_succ_self _)

theorem Valid.write (h : s.Valid) (hs : s.write i f = some s') : s'.Valid := by
  obtain ⟨a, w, u, -, ha, -, rfl⟩ := write_inv hs
  obtain ⟨r, hr, rfl⟩ := Option.map_eq_some_iff.mp ha
  exact h.put (h i r hr).2 (h i r hr).1

theorem Valid.copy (h : s.Valid) (hs : s.copy i = some s') : s'.Valid := by
  obtain ⟨r, hr, rfl⟩ := copy_inv hs
  exact h.grow.bind (Nat.lt_succ_self _) (held_of_obj hr)

theorem Valid.assign (h : s.Valid) (hs : s.assign i j = some s') : s'.Valid := by
  obtain ⟨q, r, hq, hr, rfl⟩ := assign_inv hs
  exact h.bind (h i q hq).2 (held_of_obj hr)

theorem Valid.swap (h : s.Valid) (hi : i < s.made) (hj : j < s.made) : (s.swap i j).Valid := by
  intro k r hr
  have hval := h _ r hr
  refine ⟨hval.1, ?_⟩
  by_cases hki : k = i
  · subst hki
    exact hi
  by_cases hkj : k = j
  · subst hkj
    exact hj
  · rw [Equiv.swap_apply_of_ne_of_ne hki hkj] at hval
    exact hval.2

theorem of_assertion {c : Prop} [Decidable c] {o : Option (Slices α)}
    (h : (if c then o else none) = some s') : c ∧ o = some s' := by
  by_cases hc : c
  · rw [if_pos hc] at h
    exact ⟨hc, h⟩
  · rw [if_neg hc] at h
    cases h

variable [Inhabited α]

theorem step_valid (h : s.Valid) (hs : step s op = some s') : s'.Valid := by
  cases op with
  | make =>
      obtain rfl := Option.some.inj hs
      exact h.grow.renew (Nat.lt_succ_self _)
  | construct v lo hi =>
      obtain ⟨w, -, rfl⟩ := Option.map_eq_some_iff.mp hs
      exact h.grow.renew (Nat.lt_succ_self _)
  | copy i => exact h.copy hs
  | move i =>
      obtain ⟨s₁, hs₁, rfl⟩ := Option.map_eq_some_iff.mp hs
      obtain ⟨r, hr, hcopy⟩ := copy_inv hs₁
      have hi : i < s₁.made := by
        rw [hcopy]
        exact Nat.lt_succ_of_lt (h i r hr).2
      exact (h.copy hs₁).renew hi
  | assign i j => exact h.assign hs
  | assignMove i j =>
      obtain ⟨s₁, hs₁, rfl⟩ := Option.map_eq_some_iff.mp hs
      obtain ⟨q, r, -, hr, hassign⟩ := assign_inv hs₁
      have hj : j < s₁.made := by
        rw [hassign]
        exact (h j r hr).2
      exact (h.assign hs₁).renew hj
  | drop i =>
      obtain ⟨r, hr, rfl⟩ := Option.map_eq_some_iff.mp hs
      exact h.bind (h i r hr).2 fun q hq => nomatch hq
  | swap i j =>
      obtain ⟨q, r, hq, hr, rfl⟩ := swap_inv hs
      exact h.swap (h i q hq).2 (h j r hr).2
  | sliced i lo hi =>
      obtain ⟨s₁, hs₁, hs⟩ := Option.bind_eq_some_iff.mp (of_assertion hs).2
      exact (h.copy hs₁).write hs
  | cloneData i =>
      obtain ⟨w, hw, ⟨-, rfl⟩ | ⟨-, -, rfl⟩⟩ := cloneData_inv hs
      · exact h
      · obtain ⟨r, hr, -⟩ := view_inv hw
        exact h.renew (h i r hr).2
  | prepend i x => exact h.write (f := fun w => fit (w.prepend x)) hs
  | append i x => exact h.write (f := fun w => fit (w.append x)) hs
  | slice i lo hi => exact h.write (of_assertion hs).2
  | preExtend i n => exact h.write (f := fun w => fit (w.preExtend n.toNat)) hs
  | set i k x => exact h.write (f := (setU64 · k x)) hs

omit [Inhabited α] in
theorem Fits.put (h : s.Fits) (hw : w.data.length ≤ maxSize) : (s.put i a w).Fits := by
  intro b
  simp only [Slices.put, Function.update_apply]
  split
  · exact hw
  · exact h b

omit [Inhabited α] in
theorem Fits.write (h : s.Fits) (hs : s.write i f = some s')
    (hf : ∀ {w u}, w.data.length ≤ maxSize → f w = some u → u.data.length ≤ maxSize) :
    s'.Fits := by
  obtain ⟨a, w, u, hw, -, hu, rfl⟩ := write_inv hs
  obtain ⟨r, -, -, rfl⟩ := view_inv hw
  exact h.put (hf (h r.data) hu)

omit [Inhabited α] in
private theorem fit_fits (h : fit w = some u) : u.data.length ≤ maxSize := by
  obtain ⟨rfl, hle⟩ := fit_inv h
  exact hle

private theorem empty_fits : (Slice.empty : Slice α).data.length ≤ maxSize := by
  simp only [Slice.empty, List.length_cons, List.length_nil, maxSize]
  decide

theorem step_fits (h : s.Fits) (hs : step s op = some s') : s'.Fits := by
  cases op with
  | make =>
      obtain rfl := Option.some.inj hs
      exact h.put (i := s.made) empty_fits
  | construct v lo hi =>
      obtain ⟨w, hw, rfl⟩ := Option.map_eq_some_iff.mp hs
      obtain ⟨-, hw⟩ := Option.ite_none_right_eq_some.mp hw
      exact h.put (i := s.made) (fit_fits hw)
  | copy i =>
      obtain ⟨r, -, rfl⟩ := copy_inv hs
      exact h
  | move i =>
      obtain ⟨s₁, hs₁, rfl⟩ := Option.map_eq_some_iff.mp hs
      obtain ⟨r, -, rfl⟩ := copy_inv hs₁
      exact Fits.put (s := s.grow.bind s.made (some r)) (i := i) h empty_fits
  | assign i j =>
      obtain ⟨q, r, -, -, rfl⟩ := assign_inv hs
      exact h
  | assignMove i j =>
      obtain ⟨s₁, hs₁, rfl⟩ := Option.map_eq_some_iff.mp hs
      obtain ⟨q, r, -, -, rfl⟩ := assign_inv hs₁
      exact Fits.put (s := s.bind i (some r)) (i := j) h empty_fits
  | drop i =>
      obtain ⟨r, -, rfl⟩ := Option.map_eq_some_iff.mp hs
      exact h
  | swap i j =>
      obtain ⟨q, r, -, -, rfl⟩ := swap_inv hs
      exact h
  | sliced i lo hi =>
      obtain ⟨s₁, hs₁, hs⟩ := Option.bind_eq_some_iff.mp (of_assertion hs).2
      obtain ⟨r, -, rfl⟩ := copy_inv hs₁
      exact Fits.write (s := s.grow.bind s.made (some r)) h hs fun _ hu => fit_fits hu
  | cloneData i =>
      obtain ⟨w, -, ⟨-, rfl⟩ | ⟨-, hfit, rfl⟩⟩ := cloneData_inv hs
      · exact h
      · exact h.put (i := i) hfit
  | prepend i x => exact h.write (f := fun w => fit (w.prepend x)) hs fun _ hu => fit_fits hu
  | append i x => exact h.write (f := fun w => fit (w.append x)) hs fun _ hu => fit_fits hu
  | slice i lo hi => exact h.write (of_assertion hs).2 fun _ hu => fit_fits hu
  | preExtend i n =>
      exact h.write (f := fun w => fit (w.preExtend n.toNat)) hs fun _ hu => fit_fits hu
  | set i k x =>
      refine h.write (f := (setU64 · k x)) hs fun hw hu => ?_
      obtain ⟨-, hu⟩ := Option.ite_none_right_eq_some.mp hu
      obtain rfl := Option.some.inj hu
      simpa only [List.length_set] using hw

end Slices

end PGBigNumber
