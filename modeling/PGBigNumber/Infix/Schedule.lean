import Mathlib.Data.List.Nodup
import Mathlib.Logic.Function.Basic
import PGBigNumber.Infix.Pool

/-!
# Parallel evaluation

`peval` submits the nodes of the pool level by level to the workers of a thread pool, and waits for
each level before it starts the next. A step of the model is a step of the main thread, or a worker
that takes one of the submitted tasks or ends one: the queue of the pool may hand the tasks out in
any order. Node counts are natural numbers; of the 32-bit counters of children only the step below
zero is kept, which wraps.
-/

namespace PGBigNumber.Infix

abbrev Wait := ExceptT EvalStop Option

def settled {α : Type} (x : Eval α) : Wait α := ExceptT.mk (some x)

def waitFor (valPromise : Nat → Option Int) : ExprNode → Wait Int
  | .null => throw .nullChild
  | .mk indexInPool _ _ _ _ _ => ExceptT.mk ((valPromise indexInPool).map .ok)

def pevalCallback (table : SymbolTable) (valPromise : Nat → Option Int) : ExprNode → Wait Int
  | .null => throw .nullChild
  | .mk _ cb nodeType val symbol children =>
    runCallback table cb nodeType val symbol (children.map (waitFor valPromise))

section

variable {α β : Type}

theorem settled_bind (x : Eval α) (f : α → Eval β) :
    settled (x >>= f) = settled x >>= fun a => settled (f a) := by
  cases x <;> rfl

theorem settled_evalChild (vals : List (Eval Int)) (i : Nat) :
    evalChild (vals.map settled) i = settled (evalChild vals i) := by
  unfold evalChild
  rw [List.getElem?_map]
  cases vals[i]? <;> rfl

theorem settled_mapM (vals : List (Eval Int)) :
    (vals.map settled).mapM id = settled (vals.mapM id) := by
  induction vals with
  | nil => rfl
  | cons x vals ih =>
      rw [List.map_cons, List.mapM_cons, List.mapM_cons, ih, settled_bind]
      congr 1
      funext a
      rw [settled_bind]
      rfl

theorem runCallback_settled (table : SymbolTable) (cb : EvalCallback) (ty : TokenType) (val : Int)
    (sym : Option SymbolName) (vals : List (Eval Int)) :
    runCallback table cb ty val sym (vals.map settled) =
      settled (runCallback table cb ty val sym vals) := by
  cases cb with
  | ifElseNode =>
      change ifElseNodeEvalCallback _ = settled (ifElseNodeEvalCallback vals)
      unfold ifElseNodeEvalCallback
      rw [settled_bind, settled_evalChild]
      congr 1
      funext a
      split <;> exact settled_evalChild vals _
  | binOp =>
      change binOpEvalCallback _ ty = settled (binOpEvalCallback vals ty)
      unfold binOpEvalCallback
      rw [settled_bind, settled_evalChild]
      congr 1
      funext a
      rw [settled_bind, settled_evalChild]
      congr 1
      funext b
      split <;> (try split) <;> rfl
  | unaryOp =>
      change unaryOpEvalCallback _ ty = settled (unaryOpEvalCallback vals ty)
      unfold unaryOpEvalCallback
      rw [settled_bind, settled_evalChild]
      congr 1
      funext a
      split <;> (try split) <;> (try split) <;> rfl
  | val =>
      change valEvalCallback table ty val sym = settled (valEvalCallback table ty val sym)
      unfold valEvalCallback
      split <;> (try split) <;> rfl
  | builtinFunc =>
      change builtinFuncEvalCallback table sym _ = settled (builtinFuncEvalCallback table sym vals)
      unfold builtinFuncEvalCallback
      rw [List.length_map]
      split
      · rfl
      · split
        · rfl
        · rw [settled_bind, settled_mapM]
          congr 1
          funext args
          split <;> rfl
      · rfl

end

namespace ExprNode

def indexInPool : ExprNode → Option Nat
  | null => none
  | mk k _ _ _ _ _ => some k

def children : ExprNode → List ExprNode
  | null => []
  | mk _ _ _ _ _ ch => ch

def kids (n : ExprNode) : List Nat := n.children.filterMap indexInPool

theorem mem_postorder_self {n : ExprNode} (h : n ≠ null) : n ∈ n.postorder := by
  cases n with
  | null => exact absurd rfl h
  | mk => simp [postorder]

theorem mem_postorders {n : ExprNode} {ch : List ExprNode} :
    n ∈ postorders ch ↔ ∃ c ∈ ch, n ∈ c.postorder := by
  induction ch with
  | nil => simp [postorders]
  | cons c ch ih => simp [postorders, ih]

theorem Reaches.trans {n₁ n₂ n₃ : ExprNode} (h : Reaches n₁ n₂) (h' : Reaches n₂ n₃) :
    Reaches n₁ n₃ := by
  induction h with
  | refl => exact h'
  | child hc _ ih => exact .child hc (ih h')

theorem reaches_of_mem_postorder {n root : ExprNode} (h : n ∈ root.postorder) :
    root.Reaches n := by
  induction root using ExprNode.induction with
  | null => simp [postorder] at h
  | mk k cb ty val sym ch ih =>
      rw [postorder, List.mem_append, mem_postorders, List.mem_singleton] at h
      rcases h with ⟨c, hc, hn⟩ | rfl
      · exact .child hc (ih c hc hn)
      · exact .refl _

theorem mem_postorder_of_child {n c root : ExprNode} (hn : n ∈ root.postorder)
    (hc : c ∈ n.children) (hnull : c ≠ null) : c ∈ root.postorder := by
  induction root using ExprNode.induction with
  | null => simp [postorder] at hn
  | mk k cb ty val sym ch ih =>
      rw [postorder, List.mem_append, mem_postorders, List.mem_singleton] at hn ⊢
      rcases hn with ⟨c', hc', hn⟩ | rfl
      · exact .inl ⟨c', hc', ih c' hc' hn⟩
      · exact .inl ⟨c, hc, mem_postorder_self hnull⟩

def IndexedFrom (k : Nat) (l : List ExprNode) : Prop :=
  ∀ i n, l[i]? = some n → n.indexInPool = some (k + i)

theorem indexedFrom_append {k : Nat} {l l' : List ExprNode} :
    IndexedFrom k (l ++ l') ↔ IndexedFrom k l ∧ IndexedFrom (k + l.length) l' := by
  constructor
  · intro h
    refine ⟨fun i n hn => h i n ?_, fun i n hn => ?_⟩
    · rw [List.getElem?_append_left (List.getElem?_eq_some_iff.mp hn).1, hn]
    · rw [h (l.length + i) n (by rw [List.getElem?_append_right (by omega)]; simpa using hn),
        Nat.add_assoc]
  · rintro ⟨h, h'⟩ i n hn
    rw [List.getElem?_append] at hn
    split at hn
    · exact h i n hn
    · rw [h' _ n hn]
      congr 1
      omega

theorem kids_postorder {t : ExprNode} {k : Nat} (hwf : t.WellFormed)
    (h : IndexedFrom k t.postorder) :
    t.indexInPool = some (k + t.postorder.length - 1) ∧
      (t.postorder.flatMap kids).Perm (List.range' k (t.postorder.length - 1)) ∧
        ∀ n ∈ t.postorder, ∀ i, n.indexInPool = some i → ∀ j ∈ n.kids, j < i := by
  induction t using ExprNode.induction generalizing k with
  | null => exact absurd hwf not_wellFormed_null
  | mk i cb ty val sym ch ih =>
      obtain ⟨-, hch⟩ := wellFormed_mk.mp hwf
      rw [postorder] at h ⊢
      obtain ⟨hchildren, hself⟩ := indexedFrom_append.mp h
      obtain rfl : i = k + (postorders ch).length := by simpa [indexInPool] using hself 0 _ rfl
      -- the children as a list, by induction on it
      have hlist : ∀ (l : List ExprNode) (k : Nat), (∀ c ∈ l, c ∈ ch) →
          IndexedFrom k (postorders l) →
          ((postorders l).flatMap kids ++ l.filterMap indexInPool).Perm
              (List.range' k (postorders l).length) ∧
            ∀ n ∈ postorders l, ∀ i, n.indexInPool = some i → ∀ j ∈ n.kids, j < i := by
        intro l
        induction l with
        | nil => intro k _ _; simp [postorders]
        | cons c l ihl =>
            intro k hmem hl
            rw [postorders] at hl ⊢
            obtain ⟨hc, hl⟩ := indexedFrom_append.mp hl
            have hcch := hmem c List.mem_cons_self
            obtain ⟨hidx, hperm, hlt⟩ := ih c hcch (hch c hcch) hc
            obtain ⟨hperml, hltl⟩ := ihl _ (fun c' hc' => hmem c' (List.mem_cons_of_mem c hc')) hl
            have hpos : 0 < c.postorder.length :=
              List.length_pos_of_mem (mem_postorder_self (by rintro rfl; cases hidx))
            constructor
            · rw [List.filterMap_cons, hidx, List.flatMap_append, List.length_append,
                ← List.range'_append_1]
              have hsplit : List.range' k c.postorder.length =
                  List.range' k (c.postorder.length - 1) ++ [k + c.postorder.length - 1] := by
                obtain ⟨m, hm⟩ : ∃ m, c.postorder.length = m + 1 :=
                  ⟨_, (Nat.succ_pred_eq_of_pos hpos).symm⟩
                rw [hm, List.range'_concat]
                simp
              rw [hsplit, List.append_assoc, List.append_assoc]
              apply hperm.append
              apply (List.perm_middle).trans
              exact List.Perm.cons _ hperml
            · intro n hn
              rcases List.mem_append.mp hn with hn | hn
              · exact hlt n hn
              · exact hltl n hn
      obtain ⟨hperm, hlt⟩ := hlist ch k (fun c hc => hc) hchildren
      refine ⟨?_, ?_, ?_⟩
      · simp [indexInPool]
      · simpa [List.flatMap_append, kids, children] using hperm
      · intro n hn
        rcases List.mem_append.mp hn with hn | hn
        · exact hlt n hn
        · obtain rfl := List.mem_singleton.mp hn
          rintro i hi j hj
          obtain rfl : k + (postorders ch).length = i := by simpa [indexInPool] using hi
          have hmem : j ∈ List.range' k (postorders ch).length :=
            hperm.subset (List.mem_append_right _ hj)
          exact (List.mem_range'_1.mp hmem).2

end ExprNode

def NodePool.kids (pool : NodePool) (i : Nat) : List Nat :=
  match pool[i]? with
  | none => []
  | some n => n.kids

/-- `N` nodes in an order in which children come first; all but the last have one parent. -/
structure TreeShape (N : Nat) (kids : Nat → List Nat) : Prop where
  pos : 0 < N
  lt : ∀ i j, j ∈ kids i → j < i
  nodup : ∀ i, (kids i).Nodup
  unique : ∀ i i' j, j ∈ kids i → j ∈ kids i' → i = i'
  not_root : ∀ i j, j ∈ kids i → j + 1 < N
  parent : ∀ j, j + 1 < N → ∃ i < N, j ∈ kids i

namespace ExprNode

variable {root : ExprNode} {pool : NodePool}

theorem IndexedFrom.of_indexed (h : pool.Indexed) : IndexedFrom 0 pool := by
  intro i n hn
  obtain ⟨cb, ty, val, sym, ch, rfl⟩ := h i n hn
  rw [Nat.zero_add]
  rfl

theorem treeShape (hwf : root.WellFormed) (hpool : pool = root.postorder) (hidx : pool.Indexed) :
    TreeShape pool.length pool.kids := by
  have hfrom := IndexedFrom.of_indexed hidx
  subst hpool
  obtain ⟨hroot, hperm, hlt⟩ := kids_postorder hwf hfrom
  have hkids : ∀ i j, j ∈ NodePool.kids root.postorder i →
      ∃ n, root.postorder[i]? = some n ∧ j ∈ n.kids := by
    intro i j hj
    unfold NodePool.kids at hj
    split at hj
    · simp at hj
    · next n hn => exact ⟨n, hn, hj⟩
  have hmem : ∀ i j, j ∈ NodePool.kids root.postorder i → j ∈ root.postorder.flatMap ExprNode.kids := by
    intro i j hj
    obtain ⟨n, hn, hj⟩ := hkids i j hj
    exact List.mem_flatMap.mpr ⟨n, List.mem_of_getElem? hn, hj⟩
  obtain ⟨hnodup, hpair⟩ := List.nodup_flatMap.mp (hperm.nodup_iff.mpr List.nodup_range')
  have hdisjoint := List.pairwise_iff_getElem.mp hpair
  refine ⟨?_, ?_, ?_, ?_, ?_, ?_⟩
  · exact List.length_pos_of_mem (mem_postorder_self (by rintro rfl; cases hroot))
  · intro i j hj
    obtain ⟨n, hn, hj⟩ := hkids i j hj
    exact hlt n (List.mem_of_getElem? hn) i (by rw [hfrom i n hn, Nat.zero_add]) j hj
  · intro i
    unfold NodePool.kids
    split
    · exact List.nodup_nil
    · next n hn => exact hnodup n (List.mem_of_getElem? hn)
  · intro i i' j hj hj'
    obtain ⟨n, hn, hj⟩ := hkids i j hj
    obtain ⟨n', hn', hj'⟩ := hkids i' j hj'
    obtain ⟨hi, rfl⟩ := List.getElem?_eq_some_iff.mp hn
    obtain ⟨hi', rfl⟩ := List.getElem?_eq_some_iff.mp hn'
    rcases Nat.lt_trichotomy i i' with h | h | h
    · exact absurd hj' (List.disjoint_left.mp (hdisjoint i i' hi hi' h) hj)
    · exact h
    · exact absurd hj (List.disjoint_left.mp (hdisjoint i' i hi' hi h) hj')
  · intro i j hj
    have hrange := List.mem_range'_1.mp (hperm.subset (hmem i j hj))
    omega
  · intro j hj
    have hrange : j ∈ List.range' 0 (root.postorder.length - 1) :=
      List.mem_range'_1.mpr ⟨Nat.zero_le j, by omega⟩
    obtain ⟨n, hn, hj⟩ := List.mem_flatMap.mp (hperm.symm.subset hrange)
    obtain ⟨i, hi, rfl⟩ := List.mem_iff_getElem.mp hn
    refine ⟨i, hi, ?_⟩
    unfold NodePool.kids
    rw [List.getElem?_eq_getElem hi]
    exact hj

end ExprNode

/-- Where the main thread is: in front of the test of the `while` loop, in the `for` loop with
`left` nodes to go (behind it the main thread waits), behind the `while` loop, or behind `get` with
the value of the root; or the process has ended. -/
inductive Main where
  | head
  | submit (left : Nat)
  | result
  | got (v : Int)
  | exited (e : EvalStop)

def Main.live : Main → Bool
  | .got _ | .exited _ => false
  | _ => true

/-- The variables of `peval`, and the tasks of the pool: those that wait in its queue, those that
workers run, and those whose future is ready. A task or a future is named by the place of its
node. -/
structure PevalState where
  main : Main
  q : List Nat
  parents : Nat → Nat
  childCnt : Nat → Nat
  cnt : Nat
  currLevelFu : List Nat
  tasks : List Nat
  running : List Nat
  ready : List Nat
  valPromise : Nat → Option Int

/-- `parents[child->indexInPool] = i` for all children; `none` where a child is null. -/
def setParents (i : Nat) : List ExprNode → (Nat → Nat) → Option (Nat → Nat)
  | [], parents => some parents
  | child :: children, parents =>
    match child.indexInPool with
    | none => none
    | some k => setParents i children (Function.update parents k i)

/-- The loop over the nodes in front of the `while` loop, from place `i` on. -/
def setup : Nat → List ExprNode → PevalState → Option PevalState
  | _, [], s => some s
  | i, node :: nodes, s => do
    let parents ← setParents i node.children s.parents
    setup (i + 1) nodes { s with
      q := if node.children.length = 0 then s.q ++ [i] else s.q
      childCnt := Function.update s.childCnt i node.children.length
      parents }

def pevalStart (pool : NodePool) : Option PevalState :=
  setup 0 pool
    { main := .head, q := [], parents := fun _ => 0, childCnt := fun _ => 0, cnt := 0,
      currLevelFu := [], tasks := [], running := [], ready := [], valPromise := fun _ => none }

def decrement (c : Nat) : Nat := if c = 0 then 2 ^ 32 - 1 else c - 1

/-- One pass of the `for` loop, with `childIndex` at the front of the queue. -/
def PevalState.submitNode (s : PevalState) (left childIndex : Nat) (q : List Nat) : PevalState :=
  let parent := s.parents childIndex
  let c := decrement (s.childCnt parent)
  { s with
    main := .submit left
    q := if c = 0 then q ++ [parent] else q
    childCnt := Function.update s.childCnt parent c
    cnt := s.cnt + 1
    currLevelFu := s.currLevelFu ++ [childIndex]
    tasks := s.tasks ++ [childIndex] }

/-- An exception, which the task's future keeps; the other ways to fail end the process. -/
def EvalStop.isException : EvalStop → Bool
  | .badVariant | .badCall => true
  | _ => false

/-- What can happen next in `peval` on a pool of `threads` workers until the value of the root is
there. The destructor of the pool, which runs then, is in `PoolStep`. -/
inductive Step (table : SymbolTable) (pool : NodePool) (root : ExprNode) (threads : Nat) :
    PevalState → PevalState → Prop
  | level {s} (hmain : s.main = .head) (hcnt : s.cnt ≠ pool.length) :
      Step table pool root threads s { s with main := .submit s.q.length }
  | submit {s left childIndex q} (hmain : s.main = .submit (left + 1))
      (hq : s.q = childIndex :: q) :
      Step table pool root threads s (s.submitNode left childIndex q)
  | wait {s} (hmain : s.main = .submit 0) (hready : ∀ fu ∈ s.currLevelFu, fu ∈ s.ready) :
      Step table pool root threads s { s with main := .head }
  | leave {s} (hmain : s.main = .head) (hcnt : s.cnt = pool.length) :
      Step table pool root threads s { s with main := .result }
  | result {s k v} (hmain : s.main = .result) (hroot : root.indexInPool = some k)
      (hv : s.valPromise k = some v) :
      Step table pool root threads s { s with main := .got v }
  | start {s task} (hlive : s.main.live) (htask : task ∈ s.tasks)
      (hidle : s.running.length < threads) :
      Step table pool root threads s
        { s with tasks := s.tasks.erase task, running := s.running ++ [task] }
  | finish {s task node v} (hlive : s.main.live) (htask : task ∈ s.running)
      (hnode : pool[task]? = some node)
      (hv : (pevalCallback table s.valPromise node).run = some (.ok v)) :
      Step table pool root threads s
        { s with
          running := s.running.erase task
          ready := s.ready ++ [task]
          valPromise := Function.update s.valPromise task (some v) }
  | fail {s task node e} (hlive : s.main.live) (htask : task ∈ s.running)
      (hnode : pool[task]? = some node)
      (he : (pevalCallback table s.valPromise node).run = some (.error e))
      (hexception : e.isException) :
      Step table pool root threads s
        { s with running := s.running.erase task, ready := s.ready ++ [task] }
  | exit {s task node e} (hlive : s.main.live) (htask : task ∈ s.running)
      (hnode : pool[task]? = some node)
      (he : (pevalCallback table s.valPromise node).run = some (.error e))
      (hexception : ¬ e.isException) :
      Step table pool root threads s { s with main := .exited e }

/-- A node is in the queue or submitted as soon as all its children are submitted; until the root
is submitted, `childCnt` counts the children that are not. -/
structure Order (N : Nat) (kids : Nat → List Nat) (s : PevalState) : Prop where
  parents : ∀ i j, j ∈ kids i → s.parents j = i
  rootParent : s.parents (N - 1) = 0
  cnt : s.cnt = s.currLevelFu.length
  nodup : (s.currLevelFu ++ s.q).Nodup
  enabled : ∀ i, i ∈ s.currLevelFu ++ s.q ↔ i < N ∧ ∀ j ∈ kids i, j ∈ s.currLevelFu
  childCnt : N - 1 ∉ s.currLevelFu →
    ∀ i < N, s.childCnt i = (kids i).countP (· ∉ s.currLevelFu)

private theorem countP_not_mem_concat {fu : List Nat} {c : Nat} (hc : c ∉ fu) (l : List Nat) :
    l.countP (· ∉ fu) = l.countP (· ∉ fu ++ [c]) + l.count c := by
  induction l with
  | nil => rfl
  | cons j l ih =>
      rw [List.countP_cons, List.countP_cons, List.count_cons, ih]
      by_cases hj : j = c
      · subst hj
        simp [hc]
        omega
      · by_cases hmem : j ∈ fu
        · simp [hj, hmem]
        · simp [hj, hmem]
          omega

private theorem TreeShape.countP_submit {N : Nat} {kids : Nat → List Nat} {fu : List Nat} {c p : Nat}
    (hshape : TreeShape N kids) (hp : c ∈ kids p) (hc : c ∉ fu) (i : Nat) :
    (kids i).countP (· ∉ fu) = (kids i).countP (· ∉ fu ++ [c]) + if i = p then 1 else 0 := by
  rw [countP_not_mem_concat hc]
  by_cases hi : i = p
  · subst hi
    rw [if_pos rfl, List.count_eq_one_of_mem (hshape.nodup i) hp]
  · rw [if_neg hi, List.count_eq_zero_of_not_mem fun hmem => hi (hshape.unique i p c hmem hp)]

namespace Order

variable {N : Nat} {kids : Nat → List Nat} {s : PevalState} (h : Order N kids s)
  (hshape : TreeShape N kids)
include h

private theorem front_not_mem {c : Nat} {q : List Nat} (hq : s.q = c :: q) : c ∉ s.currLevelFu := by
  intro hmem
  have hnodup := h.nodup
  rw [hq, List.nodup_append] at hnodup
  exact hnodup.2.2 _ hmem _ List.mem_cons_self rfl

theorem lt {i : Nat} (hi : i ∈ s.currLevelFu) : i < N :=
  ((h.enabled i).mp (List.mem_append_left _ hi)).1

theorem closed {i j : Nat} (hi : i ∈ s.currLevelFu) (hj : j ∈ kids i) : j ∈ s.currLevelFu :=
  ((h.enabled i).mp (List.mem_append_left _ hi)).2 j hj

include hshape

theorem all_of_root (hroot : ∀ j ∈ kids (N - 1), j ∈ s.currLevelFu) {j : Nat} (hj : j + 1 < N) :
    j ∈ s.currLevelFu := by
  induction hd : N - j using Nat.strongRecOn generalizing j with
  | ind d ih =>
      subst hd
      obtain ⟨i, hi, hmem⟩ := hshape.parent j hj
      have hlt := hshape.lt i j hmem
      by_cases hlast : i + 1 < N
      · exact h.closed (ih (N - i) (by omega) hlast rfl) hmem
      · obtain rfl : i = N - 1 := by omega
        exact hroot j hmem

theorem queue_ne_nil (hcnt : s.cnt ≠ N) : s.q ≠ [] := by
  have hmissing : ∃ i, i < N ∧ i ∉ s.currLevelFu := by
    by_contra hall
    push Not at hall
    have hperm : s.currLevelFu.Perm (List.range N) := by
      rw [List.perm_ext_iff_of_nodup h.nodup.of_append_left List.nodup_range]
      exact fun i => ⟨fun hi => List.mem_range.mpr (h.lt hi), fun hi => hall i (List.mem_range.mp hi)⟩
    rw [h.cnt, hperm.length_eq, List.length_range] at hcnt
    exact hcnt rfl
  -- the first node that is not submitted has all its children submitted
  obtain ⟨hi, hnot⟩ := Nat.find_spec hmissing
  have hmem := (h.enabled (Nat.find hmissing)).mpr ⟨hi, fun j hj => by
    by_contra hjnot
    have hlt := hshape.lt _ j hj
    exact Nat.find_min hmissing hlt ⟨by omega, hjnot⟩⟩
  exact List.ne_nil_of_mem ((List.mem_append.mp hmem).resolve_left hnot)

omit hshape in
theorem cnt_lt {c : Nat} {q : List Nat} (hq : s.q = c :: q) : s.cnt < N := by
  have hnodup := h.nodup
  have hsub : s.currLevelFu ++ s.q ⊆ List.range N := fun i hi =>
    List.mem_range.mpr ((h.enabled i).mp hi).1
  have hlen := (hnodup.subperm hsub).length_le
  rw [hq, List.length_append, List.length_cons, List.length_range] at hlen
  rw [h.cnt]
  omega

omit hshape in
theorem all_of_cnt (hcnt : s.cnt = N) {i : Nat} (hi : i < N) : i ∈ s.currLevelFu := by
  have hsub : s.currLevelFu ⊆ List.range N := fun i hi => List.mem_range.mpr (h.lt hi)
  have hperm := (h.nodup.of_append_left.subperm hsub).perm_of_length_le
    (by rw [List.length_range, ← h.cnt, hcnt])
  exact hperm.symm.subset (List.mem_range.mpr hi)

private theorem submit_root {left : Nat} {q : List Nat} (hq : s.q = (N - 1) :: q) :
    Order N kids (s.submitNode left (N - 1) q) := by
  have hpos := hshape.pos
  have hkids := ((h.enabled (N - 1)).mp (by simp [hq])).2
  have hnot : N - 1 ∉ s.currLevelFu := h.front_not_mem hq
  have hall : ∀ i < N, i ∈ s.currLevelFu ++ [N - 1] := by
    intro i hi
    by_cases hlast : i + 1 < N
    · exact List.mem_append_left _ (h.all_of_root hshape hkids hlast)
    · obtain rfl : i = N - 1 := by omega
      simp
  -- nothing else is left in the queue
  have hnil : q = [] := by
    by_contra hne
    obtain ⟨i, hi⟩ := List.exists_mem_of_ne_nil q hne
    have hlt := ((h.enabled i).mp (by simp [hq, hi])).1
    have hnodup := h.nodup
    rw [hq, List.append_cons, List.nodup_append] at hnodup
    exact hnodup.2.2 _ (hall i hlt) _ hi rfl
  -- the parent of the root defaults to node 0, a leaf whose counter wraps
  have hzero : s.childCnt 0 = 0 := by
    rw [h.childCnt hnot 0 hpos]
    have : kids 0 = [] := List.eq_nil_iff_forall_not_mem.mpr fun j hj => by
      have := hshape.lt 0 j hj
      omega
    rw [this, List.countP_nil]
  have hwrap : decrement (s.childCnt (s.parents (N - 1))) ≠ 0 := by
    rw [h.rootParent, hzero]
    decide
  subst hnil
  refine ⟨h.parents, h.rootParent, ?_, ?_, ?_, ?_⟩
  · simp [PevalState.submitNode, h.cnt]
  · have hnodup := h.nodup
    rw [hq] at hnodup
    simpa [PevalState.submitNode, hwrap] using hnodup
  · intro i
    simp only [PevalState.submitNode, if_neg hwrap, List.append_nil]
    constructor
    · intro hi
      have hlt : i < N := by
        rcases List.mem_append.mp hi with hi | hi
        · exact h.lt hi
        · rw [List.mem_singleton.mp hi]
          omega
      exact ⟨hlt, fun j hj => hall j (Nat.lt_trans (hshape.lt i j hj) hlt)⟩
    · exact fun hi => hall i hi.1
  · intro hroot
    exact absurd (by simp [PevalState.submitNode]) hroot

private theorem submit_child {left c p : Nat} {q : List Nat} (hq : s.q = c :: q)
    (hp : c ∈ kids p) : Order N kids (s.submitNode left c q) := by
  have hparent : s.parents c = p := h.parents p c hp
  have hclt := hshape.not_root p c hp
  have hnodup := h.nodup
  rw [hq, List.append_cons] at hnodup
  have hcnot : c ∉ s.currLevelFu := h.front_not_mem hq
  have hroot : N - 1 ∉ s.currLevelFu := fun hmem =>
    hcnot (h.all_of_root hshape (fun j hj => h.closed hmem hj) hclt)
  have hpN : p < N := by
    obtain ⟨p', hp', hmem⟩ := hshape.parent c hclt
    rwa [hshape.unique p p' c hp hmem]
  -- the parent is waiting for `c`
  have hpnot : p ∉ s.currLevelFu ++ [c] ++ q := by
    intro hmem
    rw [← List.append_cons, ← hq] at hmem
    exact hcnot (((h.enabled p).mp hmem).2 c hp)
  have hcount := hshape.countP_submit hp hcnot
  have hdec : decrement (s.childCnt p) = (kids p).countP (· ∉ s.currLevelFu ++ [c]) := by
    rw [h.childCnt hroot p hpN, hcount p, if_pos rfl]
    unfold decrement
    rw [if_neg (by omega)]
    omega
  have hzero : decrement (s.childCnt p) = 0 ↔ ∀ j ∈ kids p, j ∈ s.currLevelFu ++ [c] := by
    rw [hdec, List.countP_eq_zero]
    simp only [decide_eq_true_eq, not_not]
  refine ⟨h.parents, h.rootParent, ?_, ?_, ?_, ?_⟩
  · simp [PevalState.submitNode, h.cnt]
  · simp only [PevalState.submitNode, hparent]
    split
    · rw [← List.append_assoc]
      refine List.nodup_append.mpr ⟨hnodup, List.nodup_singleton p, ?_⟩
      rintro i hi j hj rfl
      rw [List.mem_singleton.mp hj] at hi
      exact hpnot hi
    · exact hnodup
  · intro i
    have hold : i ∈ s.currLevelFu ++ [c] ++ q ↔ i < N ∧ ∀ j ∈ kids i, j ∈ s.currLevelFu := by
      rw [← h.enabled i, hq, ← List.append_cons]
    have hnew : i ∈ (s.submitNode left c q).currLevelFu ++ (s.submitNode left c q).q ↔
        i ∈ s.currLevelFu ++ [c] ++ q ∨ decrement (s.childCnt p) = 0 ∧ i = p := by
      simp only [PevalState.submitNode, hparent]
      split
      · next hz => simp [hz, or_assoc]
      · next hz => simp [hz]
    rw [hnew, hold, hzero]
    change _ ↔ i < N ∧ ∀ j ∈ kids i, j ∈ s.currLevelFu ++ [c]
    by_cases hi : i = p
    · subst hi
      constructor
      · rintro (⟨_, hold⟩ | ⟨hz, -⟩)
        · exact absurd (hold c hp) hcnot
        · exact ⟨hpN, hz⟩
      · exact fun hz => .inr ⟨hz.2, rfl⟩
    · have hsame : (∀ j ∈ kids i, j ∈ s.currLevelFu ++ [c]) ↔ ∀ j ∈ kids i, j ∈ s.currLevelFu := by
        apply forall₂_congr
        intro j hj
        have hjc : j ≠ c := by
          rintro rfl
          exact hi (hshape.unique i p j hj hp)
        simp [hjc]
      rw [hsame]
      simp [hi]
  · intro _ i hi
    change Function.update s.childCnt (s.parents c) _ i = (kids i).countP (· ∉ s.currLevelFu ++ [c])
    rw [hparent]
    by_cases hip : i = p
    · subst hip
      rw [Function.update_self, hdec]
    · rw [Function.update_of_ne hip, h.childCnt hroot i hi, hcount i, if_neg hip, Nat.add_zero]

theorem submitNode {left c : Nat} {q : List Nat} (hq : s.q = c :: q) :
    Order N kids (s.submitNode left c q) := by
  have hc := ((h.enabled c).mp (by simp [hq])).1
  by_cases hlast : c + 1 < N
  · obtain ⟨p, -, hp⟩ := hshape.parent c hlast
    exact h.submit_child hshape hq hp
  · obtain rfl : c = N - 1 := by omega
    exact h.submit_root hshape hq

end Order

def Phase (N : Nat) (kids : Nat → List Nat) (value : Nat → Eval Int) (s : PevalState) : Main → Prop
  | .head => ∀ i ∈ s.currLevelFu, i ∈ s.ready
  | .submit left => left ≤ s.q.length ∧ ∀ i ∈ s.q.take left, ∀ j ∈ kids i, j ∈ s.ready
  | .result => s.cnt = N ∧ ∀ i ∈ s.currLevelFu, i ∈ s.ready
  | .got v => s.cnt = N ∧ (∀ i ∈ s.currLevelFu, i ∈ s.ready) ∧ value (N - 1) = .ok v
  | .exited _ => True

/-- The submitted tasks wait, run or are ready; the children of each are ready, and the promise of
a task that is ready has the value of its node. -/
structure Work (N : Nat) (kids : Nat → List Nat) (value : Nat → Eval Int) (s : PevalState) :
    Prop where
  tasks : (s.tasks ++ s.running ++ s.ready).Perm s.currLevelFu
  kidsReady : ∀ i ∈ s.currLevelFu, ∀ j ∈ kids i, j ∈ s.ready
  promise : ∀ i ∈ s.ready, ∃ v, s.valPromise i = some v ∧ value i = .ok v
  phase : Phase N kids value s s.main

section

variable {N : Nat} {kids : Nat → List Nat} {value : Nat → Eval Int} {s : PevalState}

theorem Phase.mono {s' : PevalState} {m : Main} (h : Phase N kids value s m) (hq : s'.q = s.q)
    (hcnt : s'.cnt = s.cnt) (hfu : s'.currLevelFu = s.currLevelFu)
    (hready : ∀ i ∈ s.ready, i ∈ s'.ready) : Phase N kids value s' m := by
  cases m with
  | head => exact fun i hi => hready i (h i (hfu ▸ hi))
  | submit left =>
      refine ⟨hq ▸ h.1, fun i hi j hj => hready j (h.2 i (hq ▸ hi) j hj)⟩
  | result => exact ⟨hcnt.trans h.1, fun i hi => hready i (h.2 i (hfu ▸ hi))⟩
  | got v => exact ⟨hcnt.trans h.1, fun i hi => hready i (h.2.1 i (hfu ▸ hi)), h.2.2⟩
  | exited e => trivial

theorem Work.submitNode (h : Work N kids value s) {left c : Nat} {q : List Nat}
    (hmain : s.main = .submit (left + 1)) (hq : s.q = c :: q) :
    Work N kids value (s.submitNode left c q) := by
  have hphase := h.phase
  rw [hmain] at hphase
  obtain ⟨hleft, htake⟩ := hphase
  rw [hq] at hleft htake
  refine ⟨?_, ?_, h.promise, ?_⟩
  · change (s.tasks ++ [c] ++ s.running ++ s.ready).Perm (s.currLevelFu ++ [c])
    have hperm : (s.tasks ++ [c] ++ s.running ++ s.ready).Perm
        (s.tasks ++ s.running ++ s.ready ++ [c]) := by
      simp only [List.append_assoc]
      apply List.Perm.append_left _
      rw [← List.append_assoc s.running]
      exact List.perm_append_comm
    exact hperm.trans (h.tasks.append_right [c])
  · intro i hi j hj
    rcases List.mem_append.mp hi with hi | hi
    · exact h.kidsReady i hi j hj
    · obtain rfl := List.mem_singleton.mp hi
      exact htake i (by simp) j hj
  · have hlen : left ≤ q.length := by simpa using hleft
    have hold : ∀ i ∈ q.take left, ∀ j ∈ kids i, j ∈ s.ready := fun i hi =>
      htake i (by rw [List.take_succ_cons]; exact List.mem_cons_of_mem c hi)
    simp only [PevalState.submitNode, Phase]
    split
    · refine ⟨by rw [List.length_append]; omega, fun i hi => hold i ?_⟩
      rwa [List.take_append_of_le_length hlen] at hi
    · exact ⟨hlen, hold⟩

private theorem moved_perm {a : Nat} {l : List Nat} (ha : a ∈ l) (l' : List Nat) :
    (l.erase a ++ (l' ++ [a])).Perm (l ++ l') := by
  have hfront : (l.erase a ++ (l' ++ [a])).Perm (a :: (l.erase a ++ l')) := by
    rw [← List.append_assoc]
    exact List.perm_append_singleton _ _
  exact hfront.trans ((List.perm_cons_erase ha).symm.append_right l')

theorem Work.start (h : Work N kids value s) {task : Nat} (htask : task ∈ s.tasks) :
    Work N kids value { s with tasks := s.tasks.erase task, running := s.running ++ [task] } := by
  refine ⟨?_, h.kidsReady, h.promise, h.phase.mono rfl rfl rfl fun _ hi => hi⟩
  exact ((moved_perm htask s.running).append_right _).trans h.tasks

theorem Work.finish (h : Work N kids value s) {task : Nat} {v : Int} (htask : task ∈ s.running)
    (hv : value task = .ok v) :
    Work N kids value
      { s with
        running := s.running.erase task
        ready := s.ready ++ [task]
        valPromise := Function.update s.valPromise task (some v) } := by
  have hready : ∀ i ∈ s.ready, i ∈ s.ready ++ [task] := fun i hi => List.mem_append_left _ hi
  refine ⟨?_, fun i hi j hj => hready j (h.kidsReady i hi j hj), ?_,
    h.phase.mono rfl rfl rfl hready⟩
  · refine List.Perm.trans ?_ h.tasks
    rw [List.append_assoc, List.append_assoc]
    exact List.Perm.append_left _ (moved_perm htask s.ready)
  · intro i hi
    dsimp only
    by_cases heq : i = task
    · subst heq
      exact ⟨v, Function.update_self .., hv⟩
    · rw [Function.update_of_ne heq]
      exact h.promise i ((List.mem_append.mp hi).resolve_right (by simpa using heq))

end

end PGBigNumber.Infix
