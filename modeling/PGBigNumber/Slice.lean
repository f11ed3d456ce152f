import Mathlib.Data.List.TakeDrop
import Mathlib.Data.List.GetD
import Mathlib.Tactic.Common

/-!
# Slices

`Slice<T>` is a window `[m_lo, m_hi)` over a vector. Shrinking the window leaves the elements in
the vector, so a value carries the whole vector and not only what the window shows.
-/

namespace PGBigNumber

/-- A slice together with the vector it looks at. -/
structure Slice (α : Type) where
  data : List α
  lo : Nat
  hi : Nat
deriving DecidableEq, Repr

namespace Slice

variable {α : Type}

/-- `std::vector::resize`: cut the tail off or add value-initialised elements. -/
def resize [Inhabited α] (v : List α) (n : Nat) : List α :=
  v.take n ++ List.replicate (n - v.length) default

/-- `Slice()`: two spare elements, the window stands between them. -/
def empty [Inhabited α] : Slice α := ⟨[default, default], 1, 1⟩

def count (s : Slice α) : Nat := s.hi - s.lo

def toList (s : Slice α) : List α := (s.data.drop s.lo).take (s.hi - s.lo)

def get [Inhabited α] (s : Slice α) (i : Nat) : α := s.data.getD (s.lo + i) default

def set (s : Slice α) (i : Nat) (x : α) : Slice α := { s with data := s.data.set (s.lo + i) x }

def assign (s : Slice α) (l : List α) : Slice α :=
  { s with data := s.data.take s.lo ++ l ++ s.data.drop (s.lo + l.length) }

def clone [Inhabited α] (s : Slice α) : Slice α := ⟨default :: s.toList, 1, 1 + s.toList.length⟩

def prepend (s : Slice α) (x : α) : Slice α :=
  if s.lo > 0 then { s with data := s.data.set (s.lo - 1) x, lo := s.lo - 1 }
  else { s with data := x :: s.data, hi := s.hi + 1 }

def append (s : Slice α) (x : α) : Slice α :=
  if s.hi < s.data.length then { s with data := s.data.set s.hi x, hi := s.hi + 1 }
  else { s with data := s.data ++ [x], hi := s.hi + 1 }

/-- `slice(lo, hi)`: an empty range empties the window where it stands; a range past the window
resizes the vector, which may also shorten it. -/
def slice [Inhabited α] (s : Slice α) (lo hi : Nat) : Slice α :=
  if lo = hi then { s with hi := s.lo }
  else if hi > s.count then ⟨resize s.data (s.lo + hi), s.lo + lo, s.lo + hi⟩
  else { s with lo := s.lo + lo, hi := s.lo + hi }

def preExtend [Inhabited α] (s : Slice α) (n : Nat) : Slice α :=
  let s := if s.lo ≥ n then { s with lo := s.lo - n }
    else
      let exlen := n - s.lo + 1
      { data := List.replicate exlen default ++ s.data, lo := 1, hi := s.hi + exlen }
  { s with data := s.data.take s.lo ++ List.replicate n default ++ s.data.drop (s.lo + n) }

def sliced [Inhabited α] (s : Slice α) (lo hi : Nat) : Slice α := s.slice lo hi

def Wf (s : Slice α) : Prop := s.lo ≤ s.hi ∧ s.hi ≤ s.data.length

section

variable {s : Slice α}

@[simp]
theorem length_toList (h : s.Wf) : s.toList.length = s.count := by
  have h1 := h.1
  have h2 := h.2
  simp only [toList, count, List.length_take, List.length_drop]
  omega

theorem toList_eq_nil_iff (h : s.Wf) : s.toList = [] ↔ s.count = 0 := by
  rw [← List.length_eq_zero_iff, length_toList h]

@[simp]
theorem resize_length [Inhabited α] (v : List α) (n : Nat) : (resize v n).length = n := by
  simp only [resize, List.length_append, List.length_take, List.length_replicate]
  omega

theorem resize_eq_replicate_iff [Inhabited α] (v : List α) (n : Nat) :
    resize v n = List.replicate n default ↔ ∀ x ∈ v.take n, x = default := by
  constructor
  · intro h x hx
    have hmem : x ∈ resize v n := List.mem_append_left _ hx
    rw [h] at hmem
    exact List.eq_of_mem_replicate hmem
  · intro h
    have htake : v.take n = List.replicate (min n v.length) default := by
      rw [List.eq_replicate_iff]
      exact ⟨List.length_take, h⟩
    rw [resize, htake, List.replicate_append_replicate]
    congr 1
    omega

theorem empty_wf [Inhabited α] : (empty : Slice α).Wf := ⟨Nat.le_refl 1, Nat.le_succ 1⟩

@[simp]
theorem toList_empty [Inhabited α] : (empty : Slice α).toList = [] := rfl

@[simp]
theorem clone_wf [Inhabited α] (s : Slice α) : s.clone.Wf := by
  constructor
  · exact Nat.le_add_right _ _
  · simp only [clone, List.length_cons]
    omega

@[simp]
theorem toList_clone [Inhabited α] (s : Slice α) : s.clone.toList = s.toList := by
  simp [clone, toList]

theorem get_eq [Inhabited α] (h : s.Wf) (i : Nat) (hi : i < s.count) :
    s.get i = s.toList.getD i default := by
  have h1 := h.1
  have h2 := h.2
  unfold count at hi
  simp only [get, toList, List.getD_eq_getElem?_getD]
  rw [List.getElem?_take_of_lt (by omega), List.getElem?_drop]

theorem set_wf (h : s.Wf) (i : Nat) (x : α) : (s.set i x).Wf :=
  ⟨h.1, by simpa only [set, List.length_set] using h.2⟩

@[simp]
theorem count_set (i : Nat) (x : α) : (s.set i x).count = s.count := rfl

theorem toList_set (i : Nat) (x : α) : (s.set i x).toList = s.toList.set i x := by
  apply List.ext_getElem?
  intro j
  simp only [set, toList, List.getElem?_take, List.getElem?_drop, List.getElem?_set]
  grind

section assign

variable {l : List α}

theorem assign_wf (h : s.Wf) (l : List α) : (s.assign l).Wf := by
  have h1 := h.1
  have h2 := h.2
  constructor
  · exact h1
  · simp only [assign, List.length_append, List.length_take, List.length_drop]
    omega

theorem length_le_assign (h : s.Wf) (l : List α) :
    s.data.length ≤ (s.assign l).data.length := by
  have h1 := h.1
  have h2 := h.2
  simp only [assign, List.length_append, List.length_take, List.length_drop]
  omega

theorem toList_assign (h : s.Wf) (hl : l.length = s.count) : (s.assign l).toList = l := by
  have h1 := h.1
  have h2 := h.2
  unfold count at hl
  simp only [assign, toList]
  rw [List.append_assoc, List.drop_append_of_le_length (by rw [List.length_take]; omega),
    List.drop_take, Nat.sub_self, List.take_zero, List.nil_append,
    List.take_append_of_le_length (by omega), List.take_of_length_le (by omega)]

@[simp]
theorem count_assign (l : List α) : (s.assign l).count = s.count := rfl

end assign

theorem prepend_wf (h : s.Wf) (x : α) : (s.prepend x).Wf := by
  have h1 := h.1
  have h2 := h.2
  unfold prepend
  split
  next hpos => exact ⟨by simp only; omega, by simp only [List.length_set]; omega⟩
  next hzero => exact ⟨by simp only; omega, by simp only [List.length_cons]; omega⟩

theorem length_le_prepend (s : Slice α) (x : α) : s.data.length ≤ (s.prepend x).data.length := by
  unfold prepend
  split
  · simp only [List.length_set, Nat.le_refl]
  · simp only [List.length_cons]
    omega

theorem toList_prepend (h : s.Wf) (x : α) : (s.prepend x).toList = x :: s.toList := by
  have h1 := h.1
  have h2 := h.2
  unfold prepend
  split
  next hpos =>
    apply List.ext_getElem?
    intro i
    rw [List.getElem?_cons]
    simp only [toList, List.getElem?_take, List.getElem?_drop, List.getElem?_set]
    grind
  next hzero =>
    have hlo : s.lo = 0 := by omega
    simp only [toList, hlo, List.drop_zero, Nat.sub_zero, List.take_succ_cons]

theorem append_wf (h : s.Wf) (x : α) : (s.append x).Wf := by
  have h1 := h.1
  have h2 := h.2
  unfold append
  split
  next hlt => exact ⟨by simp only; omega, by simp only [List.length_set]; omega⟩
  next hge => exact ⟨by simp only; omega, by simp only [List.length_append, List.length_cons]; omega⟩

theorem length_le_append (s : Slice α) (x : α) : s.data.length ≤ (s.append x).data.length := by
  unfold append
  split
  · simp only [List.length_set, Nat.le_refl]
  · simp only [List.length_append, List.length_singleton]
    omega

theorem toList_append (h : s.Wf) (x : α) : (s.append x).toList = s.toList ++ [x] := by
  have h1 := h.1
  have h2 := h.2
  have hlen : s.toList.length = s.hi - s.lo := length_toList h
  apply List.ext_getElem?
  intro i
  rw [List.getElem?_append, hlen]
  unfold append
  split
  next hlt =>
    simp only [toList, List.getElem?_take, List.getElem?_drop, List.getElem?_set]
    grind
  next hge =>
    simp only [toList, List.getElem?_take, List.getElem?_drop, List.getElem?_append]
    grind

section slice

variable [Inhabited α]

theorem slice_data {lo hi : Nat} (h : hi ≤ s.count) : (s.slice lo hi).data = s.data := by
  unfold slice
  split
  · rfl
  · rw [if_neg (by omega)]

theorem slice_data_of_narrow {lo hi : Nat} (hlo : lo ≤ hi) (h : ¬ (lo < hi ∧ s.count < hi)) :
    (s.slice lo hi).data = s.data := by
  by_cases heq : lo = hi
  · simp only [slice, if_pos heq]
  · exact slice_data (by omega)

theorem toList_resize_beside (h : s.Wf) {n : Nat} (hn : s.hi ≤ n) :
    (⟨resize s.data n, s.lo, s.hi⟩ : Slice α).toList = s.toList := by
  have h1 := h.1
  have h2 := h.2
  apply List.ext_getElem?
  intro i
  simp only [toList, resize, List.getElem?_take, List.getElem?_drop, List.getElem?_append,
    List.length_take]
  grind

theorem slice_wf (h : s.Wf) {lo hi : Nat} (hlo : lo ≤ hi) : (s.slice lo hi).Wf := by
  have h1 := h.1
  have h2 := h.2
  unfold slice count
  split
  · exact ⟨Nat.le_refl _, by simp only; omega⟩
  · split
    · exact ⟨by simp only; omega, by simp only [resize_length]; omega⟩
    · exact ⟨by simp only; omega, by simp only; omega⟩

theorem toList_slice (h : s.Wf) {lo hi : Nat} (hlo : lo ≤ hi) (hhi : hi ≤ s.count) :
    (s.slice lo hi).toList = (s.toList.take hi).drop lo := by
  have h1 := h.1
  have h2 := h.2
  unfold count at hhi
  apply List.ext_getElem?
  intro i
  unfold slice
  split
  next heq => simp [toList, heq]
  next hne =>
    rw [if_neg (by unfold count; omega)]
    simp only [toList, List.getElem?_take, List.getElem?_drop]
    grind

theorem count_slice {lo hi : Nat} (hlo : lo ≤ hi) :
    (s.slice lo hi).count = hi - lo := by
  unfold slice count
  split
  · simp only; omega
  · split <;> simp only <;> omega

/-- Widening keeps what the window shows; what comes after it is whatever the vector holds. -/
theorem toList_slice_widen (h : s.Wf) {n : Nat} (hn : s.count ≤ n) :
    (s.slice 0 n).toList = s.toList ++
      (resize (s.data.drop s.hi) (n - s.count)) := by
  have h1 := h.1
  have h2 := h.2
  have hlen : s.toList.length = s.hi - s.lo := length_toList h
  unfold count at hn ⊢
  apply List.ext_getElem?
  intro i
  rw [List.getElem?_append, hlen]
  unfold slice resize count
  split
  next heq => grind [toList]
  next hne =>
    split
    next hgt =>
      simp only [toList, List.getElem?_take, List.getElem?_drop, List.getElem?_append,
        List.length_take, List.getElem?_replicate, List.length_drop]
      grind
    next hle =>
      simp only [toList, List.getElem?_take, List.getElem?_drop, List.getElem?_append,
        List.length_take, List.getElem?_replicate, List.length_drop]
      grind

theorem toList_empty_slice (n : Nat) :
    ((empty : Slice α).slice 0 n).toList = List.replicate n default := by
  rw [toList_slice_widen empty_wf (Nat.zero_le n)]
  cases n with
  | zero => rfl
  | succ n => simp [resize, empty, count, toList, List.replicate_succ]

end slice

theorem preExtend_wf [Inhabited α] (h : s.Wf) (n : Nat) : (s.preExtend n).Wf := by
  have h1 := h.1
  have h2 := h.2
  unfold preExtend
  split
  · refine ⟨by simp only; omega, ?_⟩
    simp only [List.length_append, List.length_take, List.length_replicate, List.length_drop]
    omega
  · refine ⟨by simp only; omega, ?_⟩
    simp only [List.length_append, List.length_take, List.length_replicate, List.length_drop]
    omega

theorem length_le_preExtend [Inhabited α] (s : Slice α) (n : Nat) :
    s.data.length ≤ (s.preExtend n).data.length := by
  unfold preExtend
  split
  · simp only [List.length_append, List.length_take, List.length_replicate, List.length_drop]
    omega
  · simp only [List.length_append, List.length_take, List.length_replicate, List.length_drop]
    omega

theorem toList_preExtend [Inhabited α] (h : s.Wf) (n : Nat) :
    (s.preExtend n).toList = List.replicate n default ++ s.toList := by
  have h1 := h.1
  have h2 := h.2
  apply List.ext_getElem?
  intro i
  unfold preExtend
  split
  next hge =>
    simp only [toList, List.getElem?_take, List.getElem?_drop, List.getElem?_append,
      List.getElem?_replicate, List.length_take, List.length_append, List.length_replicate]
    grind
  next hlt =>
    simp only [toList, List.getElem?_take, List.getElem?_drop, List.getElem?_append,
      List.getElem?_replicate, List.length_take, List.length_append, List.length_replicate]
    grind

end

end Slice

end PGBigNumber
