import PGBigNumber.Infix.Accept
import PGBigNumber.Infix.Schedule
import PGBigNumber.Library.Runs

/-!
# The schedule agrees with sequential evaluation

Every step of `peval` keeps the order of the nodes and the state of the tasks, and leaves less to
do; so on the pool of a parsed tree all its runs come to the value of `eval`, provided that every
node of the pool has a value. Behind that value comes the destructor of the thread pool.
-/

namespace PGBigNumber.Infix

/-- What a parse leaves behind: the tree of `root` without missing operands, in the order of its
nodes, with the symbols of the table. -/
structure PoolOf (table : SymbolTable) (pool : NodePool) (root : ExprNode) : Prop where
  wellFormed : root.WellFormed
  postorder : pool = root.postorder
  indexed : pool.Indexed
  known : ∀ n ∈ pool, n.Known table

def valueAt (table : SymbolTable) (pool : NodePool) (i : Nat) : Eval Int :=
  match pool[i]? with
  | none => throw .outOfBounds
  | some n => evalCallback table n

theorem valueAt_eq {table : SymbolTable} {pool : NodePool} {i : Nat} {n : ExprNode}
    (h : pool[i]? = some n) : valueAt table pool i = evalCallback table n := by
  unfold valueAt
  rw [h]

namespace PoolOf

variable {table : SymbolTable} {pool : NodePool} {root : ExprNode} (h : PoolOf table pool root)
include h

theorem shape : TreeShape pool.length pool.kids :=
  ExprNode.treeShape h.wellFormed h.postorder h.indexed

theorem rootIndex : root.indexInPool = some (pool.length - 1) := by
  have hfrom := ExprNode.IndexedFrom.of_indexed h.indexed
  rw [h.postorder] at hfrom ⊢
  simpa using (ExprNode.kids_postorder h.wellFormed hfrom).1

theorem value_root : valueAt table pool (pool.length - 1) = evalCallback table root := by
  have hroot : root ∈ pool := by
    rw [h.postorder]
    exact ExprNode.mem_postorder_self (by
      intro hnull
      have hidx := h.rootIndex
      rw [hnull] at hidx
      cases hidx)
  obtain ⟨i, hi⟩ := List.mem_iff_getElem?.mp hroot
  have hfrom := ExprNode.IndexedFrom.of_indexed h.indexed i root hi
  rw [h.rootIndex, Nat.zero_add] at hfrom
  rw [Option.some.inj hfrom, valueAt_eq hi]

theorem node {i : Nat} {n : ExprNode} (hn : pool[i]? = some n) :
    n.WellFormed ∧ ∀ c ∈ n.children, ∃ j, c.indexInPool = some j ∧ pool[j]? = some c ∧
      j ∈ pool.kids i := by
  have hmem : n ∈ root.postorder := h.postorder ▸ List.mem_of_getElem? hn
  have hreach := ExprNode.reaches_of_mem_postorder hmem
  have hwf : n.WellFormed := fun n' hn' => h.wellFormed n' (hreach.trans hn')
  refine ⟨hwf, fun c hc => ?_⟩
  have hcnull : c ≠ .null := by
    rintro rfl
    cases n with
    | null => simp [ExprNode.children] at hc
    | mk => exact hwf _ (.child hc (.refl _))
  have hcmem : c ∈ pool := by
    rw [h.postorder]
    exact ExprNode.mem_postorder_of_child hmem hc hcnull
  obtain ⟨j, hj⟩ := List.mem_iff_getElem?.mp hcmem
  have hidx := ExprNode.IndexedFrom.of_indexed h.indexed j c hj
  rw [Nat.zero_add] at hidx
  refine ⟨j, hidx, hj, ?_⟩
  unfold NodePool.kids
  rw [hn]
  exact List.mem_filterMap.mpr ⟨c, hc, hidx⟩

/-- Where no child is missing and every symbol is there, only a status can stop an evaluation. -/
theorem stops_status {n : ExprNode} (hn : n ∈ pool) :
    StopsOnly (fun e => ∃ code, e = .status code) (evalCallback table n) := by
  obtain ⟨i, hi⟩ := List.mem_iff_getElem?.mp hn
  obtain ⟨hwf, -⟩ := h.node hi
  have hmem : n ∈ root.postorder := h.postorder ▸ hn
  clear hi
  induction n using ExprNode.induction generalizing i with
  | null => exact absurd hwf ExprNode.not_wellFormed_null
  | mk k cb ty val sym ch ih =>
      obtain ⟨harity, hch⟩ := ExprNode.wellFormed_mk.mp hwf
      have hvals : ∀ x ∈ ch.map (evalCallback table),
          StopsOnly (fun e => ∃ code, e = .status code) x := by
        intro x hx
        obtain ⟨c, hc, rfl⟩ := List.mem_map.mp hx
        have hcmem := ExprNode.mem_postorder_of_child hmem (c := c) hc (by
          rintro rfl
          exact ExprNode.not_wellFormed_null (hch _ hc))
        exact ih c hc (by rw [h.postorder]; exact hcmem) 0 (hch c hc) hcmem
      obtain ⟨hconst, hfunc⟩ := h.known _ hn
      rw [evalCallback, evalChildren_eq_map]
      refine runCallback_stopsOnly (fun code => ⟨code, rfl⟩) (by simpa using harity) hvals
        (fun hcb => ?_) fun hcb => ?_
      · unfold valEvalCallback
        split
        · exact .pure _
        · obtain ⟨v, hv⟩ := hconst hcb rfl
          rw [hv]
          exact .pure _
        · exact .pure _
      · obtain ⟨f, hf, hcallable⟩ := hfunc hcb
        unfold builtinFuncEvalCallback
        rw [hf]
        dsimp only
        split
        · exact .throw ⟨_, rfl⟩
        · refine .bind (.mapM hvals) fun args => ?_
          split
          · next hnone => exact absurd hnone hcallable
          · exact .pure _

theorem pevalCallback_eq {s : PevalState} (hs : Work pool.length pool.kids (valueAt table pool) s)
    {task : Nat} {n : ExprNode} (htask : task ∈ s.running) (hn : pool[task]? = some n) :
    (pevalCallback table s.valPromise n).run = some (evalCallback table n) := by
  have hfu : task ∈ s.currLevelFu := hs.tasks.subset (by simp [htask])
  obtain ⟨hwf, hchildren⟩ := h.node hn
  cases n with
  | null => exact absurd hwf ExprNode.not_wellFormed_null
  | mk k cb ty val sym ch =>
      have hvals : ch.map (waitFor s.valPromise) =
          (ch.map (evalCallback table)).map settled := by
        rw [List.map_map]
        apply List.map_congr_left
        intro c hc
        obtain ⟨j, hidx, hj, hkid⟩ := hchildren c hc
        obtain ⟨v, hv, hvalue⟩ := hs.promise j (hs.kidsReady task hfu j hkid)
        rw [valueAt_eq hj] at hvalue
        cases c with
        | null => cases hidx
        | mk k' _ _ _ _ _ =>
            obtain rfl := Option.some.inj hidx
            change ExceptT.mk ((s.valPromise _).map Except.ok) = settled (evalCallback table _)
            rw [hv, hvalue]
            rfl
      rw [pevalCallback, hvals, runCallback_settled, evalCallback, evalChildren_eq_map]
      rfl

variable {threads : Nat} {s s' : PevalState}

/-- One step keeps the order of the nodes and the state of the tasks. -/
theorem step (horder : Order pool.length pool.kids s)
    (hwork : Work pool.length pool.kids (valueAt table pool) s)
    (hstep : Step table pool root threads s s') :
    Order pool.length pool.kids s' ∧ Work pool.length pool.kids (valueAt table pool) s' := by
  have hshape := h.shape
  obtain ⟨hparents, hrootParent, hcount, hnodup, henabled, hchildCnt⟩ := id horder
  have hphase := hwork.phase
  have hvalue : ∀ {task n r}, task ∈ s.running → pool[task]? = some n →
      (pevalCallback table s.valPromise n).run = some r → valueAt table pool task = r := by
    intro task n r htask hn hr
    rw [valueAt_eq hn]
    exact Option.some.inj ((h.pevalCallback_eq hwork htask hn).symm.trans hr)
  cases hstep with
  | level hmain hcnt =>
      rw [hmain] at hphase
      refine ⟨⟨hparents, hrootParent, hcount, hnodup, henabled, hchildCnt⟩,
        hwork.tasks, hwork.kidsReady, hwork.promise, Nat.le_refl _, fun i hi j hj => ?_⟩
      have hi' : i ∈ s.q := List.mem_of_mem_take hi
      exact hphase j (((henabled i).mp (List.mem_append_right _ hi')).2 j hj)
  | submit hmain hq => exact ⟨horder.submitNode hshape hq, hwork.submitNode hmain hq⟩
  | wait hmain hready =>
      exact ⟨⟨hparents, hrootParent, hcount, hnodup, henabled, hchildCnt⟩,
        hwork.tasks, hwork.kidsReady, hwork.promise, hready⟩
  | leave hmain hcnt =>
      rw [hmain] at hphase
      exact ⟨⟨hparents, hrootParent, hcount, hnodup, henabled, hchildCnt⟩,
        hwork.tasks, hwork.kidsReady, hwork.promise, hcnt, hphase⟩
  | @result k v hmain hroot hv =>
      rw [hmain] at hphase
      obtain ⟨hcnt, hready⟩ := hphase
      obtain rfl := Option.some.inj (h.rootIndex.symm.trans hroot)
      have hlt : pool.length - 1 < pool.length := Nat.sub_lt hshape.pos Nat.one_pos
      obtain ⟨w, hw, hvalue⟩ := hwork.promise _ (hready _ (horder.all_of_cnt hcnt hlt))
      obtain rfl := Option.some.inj (hw.symm.trans hv)
      exact ⟨⟨hparents, hrootParent, hcount, hnodup, henabled, hchildCnt⟩,
        hwork.tasks, hwork.kidsReady, hwork.promise, hcnt, hready, hvalue⟩
  | start hlive htask hidle =>
      exact ⟨⟨hparents, hrootParent, hcount, hnodup, henabled, hchildCnt⟩, hwork.start htask⟩
  | finish hlive htask hnode hv =>
      exact ⟨⟨hparents, hrootParent, hcount, hnodup, henabled, hchildCnt⟩,
        hwork.finish htask (hvalue htask hnode hv)⟩
  | fail hlive htask hnode he hexception =>
      -- the evaluation of a node raises no exception
      have herr := hvalue htask hnode he
      rw [valueAt_eq hnode] at herr
      obtain ⟨code, rfl⟩ := h.stops_status (List.mem_of_getElem? hnode) _ herr
      cases hexception
  | exit hlive htask hnode he hexception =>
      exact ⟨⟨hparents, hrootParent, hcount, hnodup, henabled, hchildCnt⟩,
        hwork.tasks, hwork.kidsReady, hwork.promise, trivial⟩

/-- How much is left to do: nodes to submit, tasks to start, tasks to end, and the turns of the main
thread in between. -/
def measure (N : Nat) (s : PevalState) : Nat :=
  5 * (N - s.cnt) + 2 * s.tasks.length + s.running.length +
    match s.main with
    | .submit 0 => 4
    | .head => 3
    | .submit _ => 2
    | .result => 1
    | .got _ | .exited _ => 0

/-- A step that does not end the process leaves less to do. -/
theorem measure_lt (horder : Order pool.length pool.kids s)
    (hstep : Step table pool root threads s s') (hlives : ∀ e, s'.main ≠ .exited e) :
    measure pool.length s' < measure pool.length s := by
  cases hstep with
  | level hmain hcnt =>
      have hq := List.length_pos_iff.mpr (horder.queue_ne_nil h.shape hcnt)
      obtain ⟨k, hk⟩ : ∃ k, s.q.length = k + 1 := ⟨_, (Nat.succ_pred_eq_of_pos hq).symm⟩
      simp only [measure, hmain, hk]
      omega
  | @submit left c q hmain hq =>
      have hlt := horder.cnt_lt hq
      simp only [measure, hmain, PevalState.submitNode, List.length_append, List.length_singleton]
      cases left <;> simp only <;> omega
  | wait hmain hready =>
      simp only [measure, hmain]
      omega
  | leave hmain hcnt =>
      simp only [measure, hmain]
      omega
  | result hmain hroot hv =>
      simp only [measure, hmain]
      omega
  | start hlive htask hidle =>
      have hlen := List.length_erase_add_one htask
      simp only [measure, List.length_append, List.length_singleton]
      omega
  | finish hlive htask hnode hv =>
      have hlen := List.length_erase_add_one htask
      simp only [measure]
      omega
  | fail hlive htask hnode he hexception =>
      have hlen := List.length_erase_add_one htask
      simp only [measure]
      omega
  | exit hlive htask hnode he hexception => exact absurd rfl (hlives _)

/-- What holds along a run in which every node of the pool has a value. -/
structure Running (table : SymbolTable) (pool : NodePool) (s : PevalState) : Prop where
  order : Order pool.length pool.kids s
  work : Work pool.length pool.kids (valueAt table pool) s
  not_exited : ∀ e, s.main ≠ .exited e

theorem running_step (hvalues : ∀ n ∈ pool, ∃ v, evalCallback table n = .ok v)
    (hs : Running table pool s) (hstep : Step table pool root threads s s') :
    Running table pool s' ∧ measure pool.length s' < measure pool.length s := by
  obtain ⟨horder, hwork⟩ := h.step hs.order hs.work hstep
  have hexit := hs.not_exited
  have hlives : ∀ e, s'.main ≠ .exited e := by
    cases hstep with
    | level | submit | wait | leave | result => rintro e ⟨⟩
    | start | finish | fail => exact hexit
    | exit hlive htask hnode he hexception =>
        obtain ⟨v, hv⟩ := hvalues _ (List.mem_of_getElem? hnode)
        rw [h.pevalCallback_eq hs.work htask hnode, hv] at he
        cases he
  exact ⟨⟨horder, hwork, hlives⟩, h.measure_lt hs.order hstep hlives⟩

/-- Such a run does not get stuck before the root's value is there. -/
theorem running_progress (hvalues : ∀ n ∈ pool, ∃ v, evalCallback table n = .ok v)
    (hthreads : 1 ≤ threads) {v : Int} (hroot : evalCallback table root = .ok v)
    (hs : Running table pool s) :
    s.main = .got v ∨ ∃ s', Step table pool root threads s s' := by
  have hphase := hs.work.phase
  cases hmain : s.main with
  | head =>
      by_cases hcnt : s.cnt = pool.length
      · exact .inr ⟨_, .leave hmain hcnt⟩
      · exact .inr ⟨_, .level hmain hcnt⟩
  | submit left =>
      rw [hmain] at hphase
      cases left with
      | succ left =>
          cases hq : s.q with
          | nil =>
              have hle := hphase.1
              rw [hq] at hle
              cases hle
          | cons c q => exact .inr ⟨_, .submit hmain hq⟩
      | zero =>
          have hlive : s.main.live := by rw [hmain]; rfl
          by_cases hready : ∀ fu ∈ s.currLevelFu, fu ∈ s.ready
          · exact .inr ⟨_, .wait hmain hready⟩
          by_cases hrunning : s.running = []
          · have htasks : s.tasks ≠ [] := by
              intro htasks
              have hperm := hs.work.tasks
              rw [htasks, hrunning, List.nil_append, List.nil_append] at hperm
              exact hready fun fu hfu => hperm.symm.subset hfu
            obtain ⟨task, htask⟩ := List.exists_mem_of_ne_nil _ htasks
            exact .inr ⟨_, .start hlive htask (by rw [hrunning]; exact hthreads)⟩
          · obtain ⟨task, htask⟩ := List.exists_mem_of_ne_nil _ hrunning
            have hfu : task ∈ s.currLevelFu := hs.work.tasks.subset (by simp [htask])
            have hnode := List.getElem?_eq_getElem (hs.order.lt hfu)
            obtain ⟨w, hw⟩ := hvalues _ (List.getElem_mem (hs.order.lt hfu))
            refine .inr ⟨_, .finish (v := w) hlive htask hnode ?_⟩
            rw [h.pevalCallback_eq hs.work htask hnode, hw]
  | result =>
      rw [hmain] at hphase
      have hlt : pool.length - 1 < pool.length := Nat.sub_lt h.shape.pos Nat.one_pos
      obtain ⟨w, hw, -⟩ := hs.work.promise _ (hphase.2 _ (hs.order.all_of_cnt hphase.1 hlt))
      exact .inr ⟨_, .result hmain h.rootIndex hw⟩
  | got w =>
      rw [hmain] at hphase
      have hvalue := hphase.2.2
      rw [h.value_root, hroot] at hvalue
      exact .inl (congrArg Main.got (Except.ok.inj hvalue).symm)
  | exited e => exact absurd hmain (hs.not_exited e)

end PoolOf

section

variable {table : SymbolTable} {pool : NodePool} {root : ExprNode}

private theorem setParents_spec (i : Nat) {children : List ExprNode}
    (hchildren : ∀ c ∈ children, ∃ j, c.indexInPool = some j) (parents : Nat → Nat) :
    ∃ parents', setParents i children parents = some parents' ∧
      ∀ j, parents' j = if j ∈ children.filterMap ExprNode.indexInPool then i else parents j := by
  induction children generalizing parents with
  | nil => exact ⟨parents, rfl, fun j => by simp⟩
  | cons c children ih =>
      obtain ⟨k, hk⟩ := hchildren c List.mem_cons_self
      obtain ⟨parents', hset, hspec⟩ :=
        ih (fun c' hc' => hchildren c' (List.mem_cons_of_mem c hc')) (Function.update parents k i)
      refine ⟨parents', by rw [setParents, hk]; exact hset, fun j => ?_⟩
      rw [hspec, List.filterMap_cons, hk]
      by_cases hj : j = k
      · subst hj
        simp
      · simp [hj]

private theorem length_kids {children : List ExprNode}
    (hchildren : ∀ c ∈ children, ∃ j, c.indexInPool = some j) :
    (children.filterMap ExprNode.indexInPool).length = children.length := by
  induction children with
  | nil => rfl
  | cons c children ih =>
      obtain ⟨k, hk⟩ := hchildren c List.mem_cons_self
      rw [List.filterMap_cons, hk, List.length_cons, List.length_cons,
        ih fun c' hc' => hchildren c' (List.mem_cons_of_mem c hc')]

/-- The first loop has been through the nodes in front of place `i`. -/
structure SetUp (pool : NodePool) (i : Nat) (s : PevalState) : Prop where
  q : s.q = (List.range i).filter fun k => pool.kids k = []
  parents : ∀ k < i, ∀ j ∈ pool.kids k, s.parents j = k
  default : ∀ j, (∀ k < i, j ∉ pool.kids k) → s.parents j = 0
  childCnt : ∀ k < i, s.childCnt k = (pool.kids k).length
  main : s.main = .head
  cnt : s.cnt = 0
  noTasks : s.currLevelFu = [] ∧ s.tasks = [] ∧ s.running = [] ∧ s.ready = []

theorem setup_spec (h : PoolOf table pool root) {i : Nat} {nodes : List ExprNode} {s : PevalState}
    (hnodes : pool.drop i = nodes) (hi : i ≤ pool.length) (hs : SetUp pool i s) :
    ∃ s', setup i nodes s = some s' ∧ SetUp pool pool.length s' := by
  induction nodes generalizing i s with
  | nil =>
      have hlen := congrArg List.length hnodes
      rw [List.length_drop, List.length_nil] at hlen
      obtain rfl : i = pool.length := by omega
      exact ⟨s, rfl, hs⟩
  | cons node nodes ih =>
      have hnode : pool[i]? = some node := by rw [← List.head?_drop, hnodes]; rfl
      have hlt : i < pool.length := (List.getElem?_eq_some_iff.mp hnode).1
      have hkids : pool.kids i = node.children.filterMap ExprNode.indexInPool := by
        unfold NodePool.kids
        rw [hnode]
        rfl
      have hchildren : ∀ c ∈ node.children, ∃ j, c.indexInPool = some j := fun c hc =>
        let ⟨j, hj, _⟩ := (h.node hnode).2 c hc
        ⟨j, hj⟩
      have hlength : node.children.length = (pool.kids i).length := by
        rw [hkids, length_kids hchildren]
      obtain ⟨parents, hset, hparents⟩ := setParents_spec i hchildren s.parents
      rw [← hkids] at hparents
      rw [setup, hset]
      refine ih (by rw [← List.tail_drop, hnodes, List.tail_cons]) hlt
        ⟨?_, fun k hk j hj => ?_, fun j hj => ?_, fun k hk => ?_, hs.main, hs.cnt, hs.noTasks⟩
      · rw [List.range_succ, List.filter_append, hs.q, hlength]
        by_cases hleaf : pool.kids i = []
        · simp [hleaf]
        · simp [hleaf]
      · dsimp only
        rw [hparents]
        rcases Nat.lt_succ_iff_lt_or_eq.mp hk with hk | rfl
        · have hji : j ∉ pool.kids i := fun hji =>
            Nat.ne_of_lt hk (h.shape.unique k i j hj hji)
          rw [if_neg hji]
          exact hs.parents k hk j hj
        · rw [if_pos hj]
      · dsimp only
        rw [hparents, if_neg (hj i (Nat.lt_succ_self i))]
        exact hs.default j fun k hk => hj k (Nat.lt_succ_of_lt hk)
      · dsimp only
        rcases Nat.lt_succ_iff_lt_or_eq.mp hk with hk | rfl
        · rw [Function.update_of_ne (Nat.ne_of_lt hk)]
          exact hs.childCnt k hk
        · rw [Function.update_self, hlength]

theorem pevalStart_spec (h : PoolOf table pool root) :
    ∃ s, pevalStart pool = some s ∧ Order pool.length pool.kids s ∧
      Work pool.length pool.kids (valueAt table pool) s ∧ s.main = .head := by
  obtain ⟨s, hs, hset⟩ : ∃ s, pevalStart pool = some s ∧ SetUp pool pool.length s :=
    setup_spec h rfl (Nat.zero_le _)
      ⟨rfl, by simp, fun _ _ => rfl, by simp, rfl, rfl, rfl, rfl, rfl, rfl⟩
  obtain ⟨hfu, htasks, hrunning, hready⟩ := hset.noTasks
  have hshape := h.shape
  have hbound : ∀ i j, j ∈ pool.kids i → i < pool.length := by
    intro i j hj
    unfold NodePool.kids at hj
    split at hj
    · simp at hj
    · next n hn => exact (List.getElem?_eq_some_iff.mp hn).1
  refine ⟨s, hs, ⟨fun i j hj => hset.parents i (hbound i j hj) j hj, ?_, ?_, ?_, ?_, ?_⟩,
    ⟨?_, ?_, ?_, ?_⟩, hset.main⟩
  · apply hset.default _
    intro k hk hmem
    have := hshape.not_root k _ hmem
    omega
  · rw [hset.cnt, hfu]
    rfl
  · rw [hfu, List.nil_append, hset.q]
    exact List.nodup_range.filter _
  · intro i
    rw [hfu, List.nil_append, hset.q]
    simp [List.eq_nil_iff_forall_not_mem]
  · intro _ i hi
    rw [hset.childCnt i hi, hfu]
    simp
  · rw [hfu, htasks, hrunning, hready]
    exact List.Perm.nil
  · simp [hfu]
  · simp [hready]
  · rw [hset.main]
    simp [Phase, hfu]

end

section

variable {hooks : Hooks} {table : SymbolTable} {fuel : Nat} {str : List Char} {tokens : List Token}
  {status : Option ErrCode} {root : ExprNode} {st : ParserState}

theorem parse_poolOf (hcall : ∀ name f, table name = some (.func f) → f.nativeCall ≠ none)
    (htokens : tokenizer hooks table fuel str = some (tokens, status))
    (hparse : parse tokens = .ok (root, st)) (hroot : root ≠ .null) (hwf : root.WellFormed) :
    PoolOf table st.pool root := by
  obtain ⟨hpostorder, hindexed, hknown⟩ := parse_pool (tokenizer_known hcall htokens) hparse hroot
  exact ⟨hwf, hpostorder, hindexed, hknown⟩

variable {pool : NodePool} {threads : Nat} {v : Int} {s : PevalState}

/-- When the value of the root is there, every node of the pool has been evaluated. -/
theorem PoolOf.values_of_got (horder : Order pool.length pool.kids s)
    (hwork : Work pool.length pool.kids (valueAt table pool) s) (hmain : s.main = .got v) :
    ∀ n ∈ pool, ∃ w, evalCallback table n = .ok w := by
  have hphase := hwork.phase
  rw [hmain] at hphase
  intro n hn
  obtain ⟨i, hi⟩ := List.mem_iff_getElem?.mp hn
  have hlt := (List.getElem?_eq_some_iff.mp hi).1
  obtain ⟨w, -, hw⟩ := hwork.promise i (hphase.2.1 i (horder.all_of_cnt hphase.1 hlt))
  exact ⟨w, (valueAt_eq hi).symm.trans hw⟩

theorem PoolOf.gets (h : PoolOf table pool root)
    (hvalues : ∀ n ∈ pool, ∃ w, evalCallback table n = .ok w) (hthreads : 1 ≤ threads)
    (hroot : evalCallback table root = .ok v) :
    ∃ s, pevalStart pool = some s ∧
      Runs.Inevitable (Step table pool root threads) (fun s => s.main = .got v) s := by
  obtain ⟨s, hs, horder, hwork, hmain⟩ := pevalStart_spec h
  refine ⟨s, hs, Runs.inevitable_of_measure (I := PoolOf.Running table pool)
    (PoolOf.measure pool.length) (fun s s' hI hstep => h.running_step hvalues hI hstep)
    (fun s hI => h.running_progress hvalues hthreads hroot hI) ⟨horder, hwork, fun e he => ?_⟩⟩
  rw [hmain] at he
  cases he

end

theorem ok_of_toOption {x : Eval Int} {w : Int} (h : x.toOption = some w) : x = .ok w := by
  cases x with
  | ok w' => exact congrArg Except.ok (Option.some.inj h)
  | error e => cases h

theorem maxTokens_parse : ∃ root st, parse maxTokens = .ok (root, st) ∧ root ≠ .null ∧
    root.WellFormed ∧ evalCallback maxTable root = .ok 12 ∧ st.pool.length = 5 ∧
    ∀ n ∈ st.pool, ∃ w, evalCallback maxTable n = .ok w := by
  have haccepts : Accepts maxTokens [.invalid] ⟨false, false, false⟩ := ⟨by decide, rfl, rfl⟩
  obtain ⟨root, st, hparse, hroot, -, hgap, -⟩ := haccepts.parse
  have hrun : (parse maxTokens).toOption.any (fun p =>
      (evalCallback maxTable p.1).toOption == some 12 && p.2.pool.length == 5 &&
        p.2.pool.all fun n => (evalCallback maxTable n).toOption.isSome) = true := by
    decide +kernel
  rw [hparse] at hrun
  obtain ⟨hfirst, hvalues⟩ := Bool.and_eq_true_iff.mp hrun
  obtain ⟨heval, hlength⟩ := Bool.and_eq_true_iff.mp hfirst
  refine ⟨root, st, hparse, hroot, ?_, ?_, beq_iff_eq.mp hlength, fun n hn => ?_⟩
  · by_contra hwf
    exact Bool.false_ne_true (hgap.mpr hwf)
  · exact ok_of_toOption (beq_iff_eq.mp heval)
  · obtain ⟨w, hw⟩ := Option.isSome_iff_exists.mp (List.all_eq_true.mp hvalues n hn)
    exact ⟨w, ok_of_toOption hw⟩

end PGBigNumber.Infix
