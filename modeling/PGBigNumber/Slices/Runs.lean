import PGBigNumber.Slices.Frame

/-!
# Slices as lists

What every operation makes of the lists that the slices stand for. A slice that owns its vector
alone behaves as a list as long as `slice` uncovers nothing that the vector kept behind the window.
-/

namespace PGBigNumber

namespace Slices

variable {α : Type}

variable {s s' : Slices α} {i j a : Nat} {w v u : Slice α} {r : Ref} {op : Op α}

variable [Inhabited α]

section write

variable (hin : s.Inside) (hw : s.view i = some w) (ha : s.own i = some a)
include ha

omit [Inhabited α] in
theorem list_put_of_ne (h : s.own i ≠ s.own j) : (s.put i a u).list j = s.list j := by
  have hj : j ≠ i := fun heq => h (by rw [heq])
  rw [list, view_put_of_ne hj fun hown => h (ha.trans hown.symm), list]

omit [Inhabited α] in
theorem alone_put (h : s.Alone i) : (s.put i a u).Alone i := by
  refine ⟨?_, ?_⟩
  · simp only [put, Function.update_self, Option.isSome_some]
  · simp only [useCount, own_put ha]
    exact h.2

include hin

theorem refines_put_iff (hop : op.writes = some i) :
    Refines s op (s.put i a u) ↔
      (u.Wf ∧ ∀ j v, j ≠ i → s.own j = s.own i → s.view j = some v → v.hi ≤ u.data.length) ∧
        op.Law s (s.put i a u) := by
  rw [ha, ← inside_put_iff hin]
  constructor
  · intro h
    exact ⟨h.inside, h.law⟩
  · intro h
    refine ⟨h.1, h.2, fun k hk halone => ?_, fun j l hl _ hne => ?_⟩
    · obtain rfl := Option.some.inj (hop.symm.trans hk)
      exact alone_put ha halone
    · exact (list_put_of_ne ha (hne i hop)).trans hl

include hw

theorem refines_put (hop : op.writes = some i) (hu : u.Wf)
    (hlen : w.data.length ≤ u.data.length) (hlaw : op.Law s (s.put i a u)) :
    Refines s op (s.put i a u) := by
  rw [refines_put_iff hin ha hop]
  refine ⟨⟨hu, fun j v _ hown hv => ?_⟩, hlaw⟩
  have hfit := (hin j v hv).2
  rw [data_eq_of_own hw hv hown] at hfit
  exact hfit.trans hlen

theorem refines_put_map {g : List α → List α} (hop : op.writes = some i) (hu : u.Wf)
    (hlen : w.data.length ≤ u.data.length) (hlist : u.toList = g w.toList)
    (hlaw : (s.put i a u).list i = (s.list i).map g → op.Law s (s.put i a u)) :
    Refines s op (s.put i a u) := by
  apply refines_put hin hw ha hop hu hlen
  apply hlaw
  rw [list_of_view view_put_self, hlist, list_of_view hw, Option.map_some]

end write

section sums

variable {lo hi k : UInt64} {x : α}

theorem sliceU64_eq (hlo : lo.toNat ≤ hi.toNat) (hsum : w.lo + hi.toNat < 2 ^ 64) :
    sliceU64 w lo hi = w.slice lo.toNat hi.toNat := by
  simp only [sliceU64, Slice.slice, Nat.mod_eq_of_lt hsum,
    Nat.mod_eq_of_lt (show w.lo + lo.toNat < 2 ^ 64 by omega)]
  split
  · rfl
  · split <;> rfl

theorem sliceU64_of_narrow (hwf : w.Wf) (hlen : w.data.length ≤ maxSize)
    (hlo : lo.toNat ≤ hi.toNat) (h : ¬ (lo.toNat < hi.toNat ∧ w.count < hi.toNat)) :
    sliceU64 w lo hi = w.slice lo.toNat hi.toNat := by
  by_cases heq : lo.toNat = hi.toNat
  · simp only [sliceU64, Slice.slice, if_pos heq]
  · apply sliceU64_eq hlo
    have h1 := hwf.1
    have h2 := hwf.2
    unfold Slice.count at h
    unfold maxSize at hlen
    omega

theorem data_sliceU64_widen (hlt : lo.toNat < hi.toNat) (hwide : w.count < hi.toNat) :
    (sliceU64 w lo hi).data = Slice.resize w.data ((w.lo + hi.toNat) % 2 ^ 64) := by
  simp only [sliceU64, if_neg hlt.ne, if_pos hwide]

theorem sliceU64_widen_wf_iff (hwf : w.Wf) (hlen : w.data.length ≤ maxSize)
    (hlt : lo.toNat < hi.toNat) (hwide : w.count < hi.toNat) :
    (sliceU64 w lo hi).Wf ↔ (w.lo + lo.toNat < 2 ^ 64 → w.lo + hi.toNat < 2 ^ 64) := by
  have h1 := hwf.1
  have h2 := hwf.2
  have hhi := hi.toNat_lt
  unfold Slice.Wf
  rw [data_sliceU64_widen hlt hwide, Slice.resize_length]
  simp only [sliceU64, if_neg hlt.ne]
  unfold maxSize at hlen
  omega

-- `slice(0, 2^64 - 1)` of a slice with one element empties the vector
example : sliceU64 (⟨[0, 5], 1, 2⟩ : Slice Nat) 0 toEnd = ⟨[], 1, 0⟩ := by decide

omit [Inhabited α] in
theorem setU64_spec (hwf : w.Wf) (hlen : w.data.length ≤ maxSize) (h : setU64 w k x = some u) :
    u.Wf ∧ u.data.length = w.data.length ∧ u.toList = w.toList.set k.toNat x := by
  have h1 := hwf.1
  have h2 := hwf.2
  obtain ⟨hlt, h⟩ := Option.ite_none_right_eq_some.mp h
  obtain rfl := Option.some.inj h
  refine ⟨⟨h1, by simpa only [List.length_set] using h2⟩, List.length_set, ?_⟩
  by_cases hsum : w.lo + k.toNat < 2 ^ 64
  · rw [Nat.mod_eq_of_lt hsum]
    exact Slice.toList_set k.toNat x
  · have hk := k.toNat_lt
    have hout : w.toList.length ≤ k.toNat := by
      rw [Slice.length_toList hwf, Slice.count]
      unfold maxSize at hlen
      omega
    rw [List.set_eq_of_length_le hout]
    have hbefore : (w.lo + k.toNat) % 2 ^ 64 < w.lo := by
      unfold maxSize at hlen
      omega
    simp only [Slice.toList, List.drop_set, if_pos hbefore]

end sums

section widen

variable {lo hi : UInt64} (hin : s.Inside) (hfits : s.Fits) (hw : s.view i = some w)
include hin hw

omit [Inhabited α] hin in
include hfits in
theorem Fits.length_le : w.data.length ≤ maxSize := by
  obtain ⟨r, -, -, rfl⟩ := view_inv hw
  exact hfits r.data

private theorem law_slice_iff (hfit : w.data.length ≤ maxSize) (hlo : lo.toNat ≤ hi.toNat)
    (hsum : w.lo + lo.toNat < 2 ^ 64 → w.lo + hi.toNat < 2 ^ 64) (hwide : w.count < hi.toNat) :
    Op.Law s (s.put i a (sliceU64 w lo hi)) (.slice i lo hi) ↔
      (s.Alone i → lo.toNat = 0 →
        ∀ x ∈ (w.data.drop w.hi).take (hi.toNat - w.count), x = default) := by
  have hwf := hin i w hw
  have hlen : w.toList.length = w.count := Slice.length_toList hwf
  have hlist : (s.put i a (sliceU64 w lo hi)).list i = some (sliceU64 w lo hi).toList :=
    list_of_view view_put_self
  have hzeros : (w.slice 0 hi.toNat).toList =
        w.toList ++ List.replicate (hi.toNat - w.toList.length) default ↔
      ∀ x ∈ (w.data.drop w.hi).take (hi.toNat - w.count), x = default := by
    rw [Slice.toList_slice_widen hwf (by omega), List.append_cancel_left_eq, hlen,
      Slice.resize_eq_replicate_iff]
  -- a start at 0 does not wrap around
  have hzero : lo.toNat = 0 → sliceU64 w lo hi = w.slice 0 hi.toNat := by
    intro h0
    have hstart : w.lo + lo.toNat < 2 ^ 64 := by
      have h1 := hwf.1
      have h2 := hwf.2
      unfold maxSize at hfit
      omega
    have heq := sliceU64_eq hlo (hsum hstart)
    rwa [h0] at heq
  constructor
  · intro hlaw halone h0
    have hsome := (hlaw _ halone (list_of_view hw)).2 h0 (by omega)
    rw [hlist, hzero h0] at hsome
    exact hzeros.mp (Option.some.inj hsome)
  · intro hsafe l halone hl
    obtain rfl := Option.some.inj ((list_of_view hw).symm.trans hl)
    refine ⟨fun hle => by omega, fun h0 _ => ?_⟩
    rw [hlist, hzero h0, hzeros.mpr (hsafe halone h0)]

include hfits

private theorem slice_refines_iff (ha : s.own i = some a) (hlo : lo.toNat ≤ hi.toNat) :
    Refines s (.slice i lo hi) (s.put i a (sliceU64 w lo hi)) ↔ Op.Safe s (.slice i lo hi) := by
  have hwf := hin i w hw
  have hlen := hfits.length_le hw
  have hsafe : Op.Safe s (.slice i lo hi) ↔ (lo.toNat < hi.toNat → w.count < hi.toNat →
      s.Widens i i w lo hi ∧ (s.Alone i → lo.toNat = 0 →
        ∀ x ∈ (w.data.drop w.hi).take (hi.toNat - w.count), x = default)) := forall_view_iff hw
  rw [hsafe]
  by_cases hwide : lo.toNat < hi.toNat ∧ w.count < hi.toNat
  · rw [refines_put_iff hin ha rfl, forall_prop_of_true hwide.1, forall_prop_of_true hwide.2,
      sliceU64_widen_wf_iff hwf hlen hwide.1 hwide.2, data_sliceU64_widen hwide.1 hwide.2,
      Slice.resize_length]
    exact and_congr_right fun h => law_slice_iff hin hw hlen hlo h.1 hwide.2
  · rw [sliceU64_of_narrow hwf hlen hlo hwide]
    apply iff_of_true
    · have hdata := Slice.slice_data_of_narrow hlo hwide
      apply refines_put hin hw ha rfl (Slice.slice_wf hwf hlo) (by rw [hdata])
      intro l _ hl
      obtain rfl := Option.some.inj ((list_of_view hw).symm.trans hl)
      have hcount : w.toList.length = w.count := Slice.length_toList hwf
      refine ⟨fun hle => ?_, fun h0 hgt => absurd ⟨by omega, by omega⟩ hwide⟩
      rw [list_of_view view_put_self, Slice.toList_slice hwf hlo (by omega)]
    · exact fun hlt hgt => absurd ⟨hlt, hgt⟩ hwide

private theorem sliced_inside_iff (hlo : lo.toNat ≤ hi.toNat) :
    ((sliceU64 w lo hi).Wf ∧ ∀ j v, j ≠ s.made → s.own j = s.own i → s.view j = some v →
        v.hi ≤ (sliceU64 w lo hi).data.length) ↔ Op.Safe s (.sliced i lo hi) := by
  have hwf := hin i w hw
  have hlen := hfits.length_le hw
  have hsafe : Op.Safe s (.sliced i lo hi) ↔ (lo.toNat < hi.toNat → w.count < hi.toNat →
      s.Widens i s.made w lo hi) := forall_view_iff hw
  rw [hsafe]
  by_cases hwide : lo.toNat < hi.toNat ∧ w.count < hi.toNat
  · rw [forall_prop_of_true hwide.1, forall_prop_of_true hwide.2,
      sliceU64_widen_wf_iff hwf hlen hwide.1 hwide.2, data_sliceU64_widen hwide.1 hwide.2,
      Slice.resize_length]
    rfl
  · rw [sliceU64_of_narrow hwf hlen hlo hwide, Slice.slice_data_of_narrow hlo hwide]
    apply iff_of_true
    · refine ⟨Slice.slice_wf hwf hlo, fun j v _ hown hv => ?_⟩
      rw [← data_eq_of_own hw hv hown]
      exact (hin j v hv).2
    · exact fun hlt hgt => absurd ⟨hlt, hgt⟩ hwide

end widen

theorem refines_of_frame (hop : op.writes = none) (hin : s'.Inside) (hlaw : op.Law s s')
    (hframe : ∀ j l, s.list j = some l → j ∉ op.rebinds → s'.list j = some l) :
    Refines s op s' :=
  ⟨hin, hlaw, fun _ hi => absurd (hop.symm.trans hi) nofun, fun j l hl hj _ => hframe j l hl hj⟩

theorem refines_of_views (hop : op.writes = none) (hin : s'.Inside) (hlaw : op.Law s s')
    (hviews : ∀ j w, s.view j = some w → j ∉ op.rebinds → s'.view j = some w) :
    Refines s op s' := by
  apply refines_of_frame hop hin hlaw
  intro j l hl hj
  obtain ⟨w, hw, rfl⟩ := list_inv hl
  exact list_of_view (hviews j w hw hj)

section

variable (hv : s.Valid) (hin : s.Inside) (hfits : s.Fits)
include hv hin

private theorem create_refines_iff (hs' : s' = (s.renew s.made w).grow)
    (hlaw : op.Law s s' ↔ s'.list s.made = some w.toList) (hop : op.writes = none) :
    Refines s op s' ↔ w.Wf := by
  subst hs'
  have hinside : (s.renew s.made w).grow.Inside ↔ w.Wf := inside_renew_iff hv hin
  have hnew : (s.renew s.made w).grow.list s.made = some w.toList :=
    list_of_view (view_renew_self (s := s))
  constructor
  · intro h
    exact hinside.mp h.inside
  · intro hw
    apply refines_of_views hop (hinside.mpr hw) (hlaw.mpr hnew)
    intro j u hu _
    exact (view_renew_of_ne hv (hv.ne_made hu)).trans hu

private theorem copy_refines (hs : s.copy i = some s') : Refines s (.copy i) s' := by
  obtain ⟨hnew, hold⟩ := copy_views hs
  apply refines_of_views rfl (hin.copy hs)
  · rw [Op.Law, list, hnew, list]
  · intro j u hu _
    exact (hold j (hv.ne_made hu)).trans hu

private theorem move_refines {s₁ : Slices α} (hs₁ : s.copy i = some s₁)
    (hs' : s' = s₁.renew i Slice.empty) : Refines s (.move i) s' := by
  obtain ⟨hnew, hold⟩ := copy_views hs₁
  have hv₁ := hv.copy hs₁
  subst hs'
  apply refines_of_views rfl ((inside_renew_iff hv₁ (hin.copy hs₁)).mpr Slice.empty_wf)
  · obtain ⟨r, hr, -⟩ := copy_inv hs₁
    have hne : s.made ≠ i := Nat.ne_of_gt (hv i r hr).2
    refine ⟨?_, list_of_view view_renew_self⟩
    rw [list, view_renew_of_ne hv₁ hne, hnew, list]
  · intro j u hu hj
    have hne : j ≠ i := fun heq => hj (heq ▸ List.mem_singleton_self j)
    rw [view_renew_of_ne hv₁ hne, hold j (hv.ne_made hu), hu]

omit hv in
private theorem assign_refines (hs : s.assign i j = some s') : Refines s (.assign i j) s' := by
  obtain ⟨hself, hold⟩ := assign_views hs
  apply refines_of_views rfl (hin.assign hs)
  · rw [Op.Law, list, hself, list]
  · intro k u hu hk
    have hne : k ≠ i := fun heq => hk (heq ▸ List.mem_singleton_self k)
    rw [hold k hne, hu]

private theorem assignMove_refines {s₁ : Slices α} (hs₁ : s.assign i j = some s₁)
    (hs' : s' = s₁.renew j Slice.empty) : Refines s (.assignMove i j) s' := by
  obtain ⟨hself, hold⟩ := assign_views hs₁
  have hv₁ := hv.assign hs₁
  subst hs'
  apply refines_of_views rfl ((inside_renew_iff hv₁ (hin.assign hs₁)).mpr Slice.empty_wf)
  · refine ⟨fun hne => ?_, list_of_view view_renew_self⟩
    rw [list, view_renew_of_ne hv₁ hne, hself, list]
  · intro k u hu hk
    obtain ⟨hki, hkj⟩ : k ≠ i ∧ k ≠ j := by simpa [Op.rebinds] using hk
    rw [view_renew_of_ne hv₁ hkj, hold k hki, hu]

omit hv in
private theorem drop_refines (hs' : s' = s.bind i none) : Refines s (.drop i) s' := by
  subst hs'
  have hinside : (s.bind i none).Inside := hin.bind nofun
  apply refines_of_views rfl hinside
  · rw [Op.Law, list, view_bind_self]
    rfl
  · intro k u hu hk
    have hne : k ≠ i := fun heq => hk (heq ▸ List.mem_singleton_self k)
    rw [view_bind_of_ne hne, hu]

omit hv in
private theorem swap_refines (hs' : s' = s.swap i j) : Refines s (.swap i j) s' := by
  obtain ⟨hi, hj, hold⟩ := swap_views (s := s) (i := i) (j := j)
  subst hs'
  apply refines_of_views rfl hin.swap
  · exact ⟨by rw [list, hi, list], by rw [list, hj, list]⟩
  · intro k u hu hk
    obtain ⟨hki, hkj⟩ : k ≠ i ∧ k ≠ j := by simpa [Op.rebinds] using hk
    rw [hold k hki hkj, hu]

private theorem cloneData_refines (hw : s.view i = some w)
    (hs' : s.useCount i = 1 ∧ s' = s ∨
      s.useCount i ≠ 1 ∧ w.clone.data.length ≤ maxSize ∧ s' = s.renew i w.clone) :
    Refines s (.cloneData i) s' := by
  obtain ⟨r, hr, -, -⟩ := view_inv hw
  obtain ⟨hone, rfl⟩ | ⟨-, -, rfl⟩ := hs'
  · exact refines_of_frame rfl hin ⟨rfl, by rw [hr, Option.isSome_some], hone⟩
      fun j l hl _ => hl
  · have hlist : (s.renew i w.clone).list i = s.list i := by
      rw [list_of_view view_renew_self, list_of_view hw, Slice.toList_clone]
    have hlaw : Op.Law s (s.renew i w.clone) (.cloneData i) :=
      ⟨hlist, alone_renew hv (hv i r hr).2⟩
    apply refines_of_frame rfl ((inside_renew_iff hv hin).mpr (Slice.clone_wf w)) hlaw
    intro j l hl _
    by_cases hj : j = i
    · subst hj
      rw [hlist, hl]
    · rw [list, view_renew_of_ne hv hj]
      exact hl

include hfits in
private theorem sliced_refines_iff {s₁ : Slices α} {lo hi : UInt64} (hw : s.view i = some w)
    (hs₁ : s.copy i = some s₁) (ha : s₁.own s.made = some a) (hlo : lo.toNat ≤ hi.toNat) :
    Refines s (.sliced i lo hi) (s₁.put s.made a (sliceU64 w lo hi)) ↔
      Op.Safe s (.sliced i lo hi) := by
  have hwf := hin i w hw
  have hlen := hfits.length_le hw
  have hin₁ : s₁.Inside := hin.copy hs₁
  obtain ⟨r, hr, rfl⟩ := copy_inv hs₁
  have hai : s.own i = some a := (own_copy hr).symm.trans ha
  have hinside : (((s.grow).bind s.made (some r)).put s.made a (sliceU64 w lo hi)).Inside ↔
      Op.Safe s (.sliced i lo hi) := by
    rw [inside_put_iff hin₁, ← sliced_inside_iff hin hfits hw hlo, hai]
    apply and_congr_right
    intro _
    apply forall₃_congr
    intro j v hj
    rw [own_copy_of_ne hj, view_bind_of_ne (s := s.grow) hj]
    rfl
  constructor
  · intro h
    exact hinside.mp h.inside
  · intro hsafe
    have hfit := ((inside_put_iff hin₁).mp (hinside.mpr hsafe)).2
    apply refines_of_frame rfl (hinside.mpr hsafe)
    · intro l hl hle
      obtain rfl := Option.some.inj ((list_of_view hw).symm.trans hl)
      rw [Slice.length_toList hwf] at hle
      rw [list_of_view view_put_self,
        sliceU64_of_narrow hwf hlen hlo fun hwide => Nat.not_lt.mpr hle hwide.2,
        Slice.toList_slice hwf hlo hle]
    · intro j l hl _
      obtain ⟨v, hview, rfl⟩ := list_inv hl
      have hj := hv.ne_made hview
      have hview₁ := (view_bind_of_ne (s := s.grow) (o := some r) hj).trans hview
      by_cases hown : s.own j = some a
      · have hown₁ := (own_copy_of_ne (r := r) hj).trans hown
        have hdata := data_eq_of_own hw hview (hown.trans hai.symm)
        rw [list_of_view (view_put_shared hj hown₁ hview₁)]
        congr 1
        have hreach := hfit j v hj hown₁ hview₁
        by_cases hwide : lo.toNat < hi.toNat ∧ w.count < hi.toNat
        · rw [data_sliceU64_widen hwide.1 hwide.2, ← hdata] at hreach ⊢
          rw [Slice.resize_length] at hreach
          exact Slice.toList_resize_beside (hin j v hview) hreach
        · rw [sliceU64_of_narrow hwf hlen hlo hwide, Slice.slice_data_of_narrow hlo hwide, ← hdata]
      · rw [list, view_put_of_ne hj ((own_copy_of_ne hj).symm ▸ hown), hview₁, Option.map_some]

end

private theorem construct_spec {data : List α} {lo hi : UInt64}
    (h : construct data lo hi = some w) : (w.Wf ↔ (hi = toEnd → lo.toNat ≤ data.length)) ∧
      w.toList = (Slice.resize data (lastOf data hi)).drop lo.toNat := by
  obtain ⟨hlt, h⟩ := Option.ite_none_right_eq_some.mp h
  obtain ⟨rfl, -⟩ := fit_inv h
  constructor
  · by_cases hend : hi = toEnd
    · have hlast : lastOf data hi = data.length := if_pos hend
      simp only [Slice.Wf, hlast, lt_irrefl, if_false]
      exact ⟨fun hwf _ => hwf.1, fun hle => ⟨hle hend, Nat.le_refl _⟩⟩
    · have hlast : lastOf data hi = hi.toNat := if_neg hend
      refine iff_of_true ⟨by rw [hlast]; exact hlt.le, ?_⟩ fun heq => absurd heq hend
      simp only
      split
      · rw [Slice.resize_length]
      · omega
  · simp only [Slice.toList]
    split
    next hgt =>
      rw [List.take_of_length_le (by rw [List.length_drop, Slice.resize_length])]
    next hle =>
      have hzero : lastOf data hi - data.length = 0 := by omega
      rw [Slice.resize, hzero, List.replicate_zero, List.append_nil, List.drop_take]

/-- A step keeps the windows inside and acts on lists as it is meant to exactly when it is
safe. -/
theorem step_refines_iff (hv : s.Valid) (hin : s.Inside) (hfits : s.Fits)
    (hs : step s op = some s') : Refines s op s' ↔ op.Safe s := by
  cases op with
  | make =>
      obtain rfl := Option.some.inj hs
      rw [create_refines_iff hv hin rfl (by rw [Slice.toList_empty]; rfl) rfl]
      exact iff_of_true Slice.empty_wf trivial
  | construct data lo hi =>
      obtain ⟨w, hw, rfl⟩ := Option.map_eq_some_iff.mp hs
      obtain ⟨hwf, hlist⟩ := construct_spec hw
      rw [create_refines_iff hv hin rfl (by rw [hlist]; rfl) rfl]
      exact hwf
  | copy i => exact iff_of_true (copy_refines hv hin hs) trivial
  | move i =>
      obtain ⟨s₁, hs₁, hs'⟩ := Option.map_eq_some_iff.mp hs
      exact iff_of_true (move_refines hv hin hs₁ hs'.symm) trivial
  | assign i j => exact iff_of_true (assign_refines hin hs) trivial
  | assignMove i j =>
      obtain ⟨s₁, hs₁, hs'⟩ := Option.map_eq_some_iff.mp hs
      exact iff_of_true (assignMove_refines hv hin hs₁ hs'.symm) trivial
  | drop i =>
      obtain ⟨r, hr, hs'⟩ := Option.map_eq_some_iff.mp hs
      exact iff_of_true (drop_refines hin hs'.symm) trivial
  | swap i j =>
      obtain ⟨q, r, -, -, hs'⟩ := swap_inv hs
      exact iff_of_true (swap_refines hin hs') trivial
  | sliced i lo hi =>
      obtain ⟨hlo, hs⟩ := of_assertion hs
      obtain ⟨s₁, hs₁, hs⟩ := Option.bind_eq_some_iff.mp hs
      obtain ⟨a, w, hw₁, ha, rfl⟩ := write_fit_inv hs
      have hw : s.view i = some w := (copy_views hs₁).1.symm.trans hw₁
      exact sliced_refines_iff hv hin hfits hw hs₁ ha hlo
  | cloneData i =>
      obtain ⟨w, hw, hs'⟩ := cloneData_inv hs
      exact iff_of_true (cloneData_refines hv hin hw hs') trivial
  | prepend i x =>
      obtain ⟨a, w, hw, ha, rfl⟩ := write_fit_inv (g := (·.prepend x)) hs
      have hwf := hin i w hw
      exact iff_of_true (refines_put_map hin hw ha rfl (Slice.prepend_wf hwf x)
        (Slice.length_le_prepend w x) (Slice.toList_prepend hwf x) fun h _ => h) trivial
  | append i x =>
      obtain ⟨a, w, hw, ha, rfl⟩ := write_fit_inv (g := (·.append x)) hs
      have hwf := hin i w hw
      exact iff_of_true (refines_put_map hin hw ha rfl (Slice.append_wf hwf x)
        (Slice.length_le_append w x) (Slice.toList_append hwf x) fun h _ => h) trivial
  | slice i lo hi =>
      obtain ⟨hlo, hs⟩ := of_assertion hs
      obtain ⟨a, w, hw, ha, rfl⟩ := write_fit_inv hs
      exact slice_refines_iff hin hfits hw ha hlo
  | preExtend i n =>
      obtain ⟨a, w, hw, ha, rfl⟩ := write_fit_inv (g := (·.preExtend n.toNat)) hs
      have hwf := hin i w hw
      exact iff_of_true (refines_put_map hin hw ha rfl (Slice.preExtend_wf hwf n.toNat)
        (Slice.length_le_preExtend w n.toNat) (Slice.toList_preExtend hwf n.toNat) fun h _ => h)
        trivial
  | set i k x =>
      have hset : s.write i (setU64 · k x) = some s' := hs
      obtain ⟨a, w, u, hw, ha, hu, rfl⟩ := write_inv hset
      obtain ⟨hwf, hlen, hlist⟩ := setU64_spec (hin i w hw) (hfits.length_le hw) hu
      exact iff_of_true (refines_put_map hin hw ha rfl hwf hlen.ge hlist fun h _ => h) trivial

/-- In every run, all windows stay inside their vectors and every slice that owns its vector alone
is a list, exactly as long as the steps are safe. -/
theorem run_refines_iff (ops : List (Op α)) :
    Runs.Stepwise step Refines initial ops ↔
      Runs.Permitted step (fun s op => op.Safe s) initial ops := by
  have hnone : ∀ i w, (initial : Slices α).view i ≠ some w := nofun
  apply Runs.stepwise_iff_permitted (I := fun s => s.Valid ∧ s.Inside ∧ s.Fits)
  · intro s op s' hI hs
    exact step_refines_iff hI.1 hI.2.1 hI.2.2 hs
  · intro s op s' hI hs hR
    exact ⟨step_valid hI.1 hs, hR.inside, step_fits hI.2.2 hs⟩
  · exact ⟨nofun, fun i w hw => absurd hw (hnone i w), fun _ => Nat.zero_le _⟩

/-- Growing again after an element was dropped shows the element, not zero. -/
theorem slice_uncovers_dropped_element :
    ¬ ∀ ops : List (Op Nat), Runs.Stepwise step Refines initial ops := by
  intro h
  obtain ⟨-, happend⟩ := h [.make, .append 0 5, .slice 0 0 0, .slice 0 0 1] _ rfl
  obtain ⟨-, hnarrow⟩ := happend _ rfl
  obtain ⟨-, hwiden⟩ := hnarrow _ rfl
  obtain ⟨hstep, -⟩ := hwiden _ rfl
  have hlist := (hstep.law [] ⟨rfl, rfl⟩ rfl).2 rfl (by decide)
  have hfive : (some [5] : Option (List Nat)) = some [0] := hlist
  exact absurd hfive (by decide)

end Slices

end PGBigNumber
