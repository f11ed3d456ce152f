import PGBigNumber.Infix.Level
import PGBigNumber.Infix.Reuse
import PGBigNumber.Status
import PGBigNumber.Store.Basic

/-!
# The status codes of an evaluation

Which codes `eval` and `peval` assign to a status on an expression string, and when the built-in
table has an entry for each of them.
-/

namespace PGBigNumber

def ErrCode.toEnum : ErrCode → Status.Enum
  | .success => Status.ErrCode.success
  | .divBy0 => Status.ErrCode.divBy0
  | .radixInvalid => Status.ErrCode.radixInvalid
  | .numberStringEmpty => Status.ErrCode.numberStringEmpty
  | .numberStringSigInvalid => Status.ErrCode.numberStringSigInvalid
  | .numberStringParse2NumError => Status.ErrCode.numberStringParse2NumError
  | .arithmeticOverflow => Status.ErrCode.arithmeticOverflow

namespace Infix

def ErrCode.toEnum : ErrCode → Status.Enum
  | .success => Status.ErrCode.success
  | .divBy0 => Status.ErrCode.divBy0
  | .charInvalid => Status.ErrCode.parseInfixExprCharInvalid
  | .notDecButReal => Status.ErrCode.parseInfixExprNotDecButReal
  | .symbolUndefined => Status.ErrCode.parseInfixExprSymbolUndefined
  | .builtinSymbolInvalid => Status.ErrCode.parseInfixExprBuiltinSymbolInvalid
  | .radixInvalid => Status.ErrCode.parseInfixExprRadixInvalid
  | .literal2NumError => Status.ErrCode.parseInfixExprLiteral2NumError
  | .equInvalid => Status.ErrCode.parseInfixExprEquInvalid
  | .badToken => Status.ErrCode.parseInfixExprBadToken
  | .builtinFuncCallNotMatch => Status.ErrCode.parseInfixExprBuiltinFuncCallNotMatch

def ExprNode.Mismatched (table : SymbolTable) : ExprNode → Prop
  | null => False
  | mk _ cb _ _ sym ch => cb = .builtinFunc ∧ ∃ f, sym.bind table = some (.func f) ∧
      f.argCount ≠ -1 ∧ f.argCount ≠ ch.length

/-- A callback gets to the child at place `i`, going by the values of the children before it. -/
def EvalCallback.Reads (vals : List (Eval Int)) (i : Nat) : EvalCallback → Prop
  | .ifElseNode => i = 0 ∨ ∃ v, vals[0]? = some (.ok v) ∧ i = if v ≠ 0 then 1 else 2
  | .binOp => i = 0 ∨ i = 1 ∧ ∃ v, vals[0]? = some (.ok v)
  | .unaryOp => i = 0
  | .val => False
  | .builtinFunc => ∀ j < i, ∃ v, vals[j]? = some (.ok v)

/-- The evaluation of a node gets to the node `n`. -/
inductive ExprNode.Evaluates (table : SymbolTable) : ExprNode → ExprNode → Prop
  | refl (n : ExprNode) : Evaluates table n n
  | child {k cb ty val sym ch i} {c n : ExprNode} (hc : ch[i]? = some c)
      (hreads : cb.Reads (ch.map (evalCallback table)) i)
      (hcall : cb = .builtinFunc → ∃ f, sym.bind table = some (.func f)) (h : Evaluates table c n) :
      Evaluates table (mk k cb ty val sym ch) n

section

variable {vals : List (Eval Int)}

def notMatch : EvalStop := .status .builtinFuncCallNotMatch

private theorem bind_error_iff {α β : Type} {x : Eval α} {f : α → Eval β} {e : EvalStop} :
    (x >>= f) = .error e ↔ x = .error e ∨ ∃ a, x = .ok a ∧ f a = .error e := by
  cases x with
  | error e' =>
      change Except.error e' = Except.error e ↔ _
      simp
  | ok a =>
      change f a = Except.error e ↔ _
      simp

private theorem evalChild_notMatch {i : Nat} :
    (evalChild vals i : Eval Int) = .error notMatch ↔ vals[i]? = some (.error notMatch) := by
  unfold evalChild
  cases vals[i]? with
  | none =>
      change Except.error EvalStop.outOfBounds = Except.error notMatch ↔ _
      simp [notMatch]
  | some val => simp

private theorem evalChild_ok {i : Nat} {v : Int} :
    (evalChild vals i : Eval Int) = .ok v ↔ vals[i]? = some (.ok v) := by
  unfold evalChild
  cases vals[i]? with
  | none =>
      change Except.error EvalStop.outOfBounds = Except.ok v ↔ _
      simp
  | some val => simp

private theorem mapM_error_iff {e : EvalStop} : vals.mapM id = (.error e : Eval (List Int)) ↔
    ∃ i : Nat, (∀ j < i, ∃ v : Int, vals[j]? = some (.ok v)) ∧ vals[i]? = some (.error e) := by
  induction vals with
  | nil =>
      change Except.ok [] = Except.error e ↔ _
      simp
  | cons x vals ih =>
      rw [List.mapM_cons, bind_error_iff]
      constructor
      · rintro (hx | ⟨v, hx, hrest⟩)
        · exact ⟨0, by simp, by simpa using hx⟩
        · have hrest' : vals.mapM id = (.error e : Eval (List Int)) := by
            rcases bind_error_iff.mp hrest with h | ⟨_, -, h⟩
            · exact h
            · cases h
          obtain ⟨i, hbefore, hi⟩ := ih.mp hrest'
          refine ⟨i + 1, fun j hj => ?_, by simpa using hi⟩
          cases j with
          | zero => exact ⟨v, by simpa using hx⟩
          | succ j => simpa using hbefore j (by omega)
      · rintro ⟨i, hbefore, hi⟩
        cases i with
        | zero => exact .inl (by simpa using hi)
        | succ i =>
            obtain ⟨v, hv⟩ := hbefore 0 (Nat.succ_pos i)
            refine .inr ⟨v, by simpa using hv, bind_error_iff.mpr (.inl (ih.mpr ⟨i, ?_, ?_⟩))⟩
            · intro j hj
              simpa using hbefore (j + 1) (by omega)
            · simpa using hi

private theorem ifElseNode_notMatch :
    ifElseNodeEvalCallback vals = (.error notMatch : Eval Int) ↔
      ∃ i, EvalCallback.ifElseNode.Reads vals i ∧ vals[i]? = some (.error notMatch) := by
  simp only [ifElseNodeEvalCallback, bind_error_iff, evalChild_notMatch, evalChild_ok,
    EvalCallback.Reads]
  constructor
  · rintro (h | ⟨v, hv, h⟩)
    · exact ⟨0, .inl rfl, h⟩
    · refine ⟨if v ≠ 0 then 1 else 2, .inr ⟨v, hv, rfl⟩, ?_⟩
      rw [← evalChild_notMatch, apply_ite (evalChild vals)]
      exact h
  · rintro ⟨i, rfl | ⟨v, hv, rfl⟩, h⟩
    · exact .inl h
    · refine .inr ⟨v, hv, ?_⟩
      rw [← evalChild_notMatch, apply_ite (evalChild vals)] at h
      exact h

private theorem binOp_notMatch {ty : TokenType} :
    binOpEvalCallback vals ty = (.error notMatch : Eval Int) ↔
      ∃ i, EvalCallback.binOp.Reads vals i ∧ vals[i]? = some (.error notMatch) := by
  simp only [binOpEvalCallback, EvalCallback.Reads]
  rw [bind_error_iff, evalChild_notMatch]
  constructor
  · rintro (h | ⟨a, ha, h⟩)
    · exact ⟨0, .inl rfl, h⟩
    · rcases bind_error_iff.mp h with h | ⟨b, -, h⟩
      · exact ⟨1, .inr ⟨rfl, a, evalChild_ok.mp ha⟩, evalChild_notMatch.mp h⟩
      · split at h
        case h_13 => split at h <;> cases h
        case h_16 => split at h <;> cases h
        all_goals cases h
  · rintro ⟨i, rfl | ⟨rfl, a, ha⟩, h⟩
    · exact .inl h
    · exact .inr ⟨a, evalChild_ok.mpr ha, bind_error_iff.mpr (.inl (evalChild_notMatch.mpr h))⟩

private theorem builtinFunc_notMatch {table : SymbolTable} {sym : Option SymbolName} :
    builtinFuncEvalCallback table sym vals = (.error notMatch : Eval Int) ↔
      (∃ f, sym.bind table = some (.func f) ∧ f.argCount ≠ -1 ∧ f.argCount ≠ vals.length) ∨
      ∃ i, EvalCallback.builtinFunc.Reads vals i ∧ (∃ f, sym.bind table = some (.func f)) ∧
        vals[i]? = some (.error notMatch) := by
  simp only [builtinFuncEvalCallback, EvalCallback.Reads]
  cases hsym : sym.bind table with
  | none => exact iff_of_false (by rintro ⟨⟩) (by simp)
  | some symbol =>
      cases symbol with
      | func f =>
          dsimp only
          split
          · next hmismatch => exact iff_of_true rfl (.inl ⟨f, rfl, hmismatch⟩)
          · next hmatch =>
            rw [bind_error_iff, mapM_error_iff]
            constructor
            · rintro (⟨i, hbefore, hi⟩ | ⟨args, -, h⟩)
              · exact .inr ⟨i, hbefore, ⟨f, rfl⟩, hi⟩
              · split at h <;> cases h
            · rintro (⟨_, ⟨⟩, hmismatch⟩ | ⟨i, hbefore, -, hi⟩)
              · exact absurd hmismatch hmatch
              · exact .inl ⟨i, hbefore, hi⟩
      | monostate => exact iff_of_false (by rintro ⟨⟩) (by simp)
      | value v => exact iff_of_false (by rintro ⟨⟩) (by simp)

private theorem runCallback_notMatch {table : SymbolTable} {cb : EvalCallback} {ty : TokenType}
    {val : Int} {sym : Option SymbolName} :
    runCallback table cb ty val sym vals = (.error notMatch : Eval Int) ↔
      (cb = .builtinFunc ∧ ∃ f, sym.bind table = some (.func f) ∧ f.argCount ≠ -1 ∧
        f.argCount ≠ vals.length) ∨
      ∃ i, cb.Reads vals i ∧ (cb = .builtinFunc → ∃ f, sym.bind table = some (.func f)) ∧
        vals[i]? = some (.error notMatch) := by
  cases cb with
  | ifElseNode =>
      rw [runCallback, ifElseNode_notMatch]
      simp only [reduceCtorEq, false_and, false_or, false_implies, true_and]
  | binOp =>
      rw [runCallback, binOp_notMatch]
      simp only [reduceCtorEq, false_and, false_or, false_implies, true_and]
  | unaryOp =>
      simp only [runCallback, unaryOpEvalCallback, EvalCallback.Reads, reduceCtorEq, false_and,
        false_or, false_implies, true_and, exists_eq_left]
      rw [bind_error_iff, evalChild_notMatch]
      refine ⟨fun h => h.resolve_right ?_, .inl⟩
      rintro ⟨a, -, h⟩
      split at h
      case h_4 =>
        split at h
        · cases h
        · split at h <;> cases h
      all_goals cases h
  | val =>
      have hval : valEvalCallback table ty val sym ≠ (.error notMatch : Eval Int) := by
        unfold valEvalCallback
        repeat' split
        all_goals rintro ⟨⟩
      simp [runCallback, hval, EvalCallback.Reads]
  | builtinFunc =>
      rw [runCallback, builtinFunc_notMatch]
      simp only [true_and, true_implies]

/-- `eval` raises the code exactly where it gets to a call that does not match. -/
theorem evalCallback_notMatch_iff (table : SymbolTable) (root : ExprNode) :
    evalCallback table root = .error notMatch ↔
      ∃ n, root.Evaluates table n ∧ n.Mismatched table := by
  induction root using ExprNode.induction with
  | null =>
      refine iff_of_false (by rintro ⟨⟩) ?_
      rintro ⟨n, hn, hmismatch⟩
      cases hn
      exact hmismatch
  | mk k cb ty val sym ch ih =>
      rw [evalCallback, evalChildren_eq_map, runCallback_notMatch, List.length_map]
      constructor
      · rintro (hmismatch | ⟨i, hreads, hcall, hi⟩)
        · exact ⟨_, .refl _, hmismatch⟩
        · rw [List.getElem?_map, Option.map_eq_some_iff] at hi
          obtain ⟨c, hc, herr⟩ := hi
          obtain ⟨n, hn, hmismatch⟩ := (ih c (List.mem_of_getElem? hc)).mp herr
          exact ⟨n, .child hc hreads hcall hn, hmismatch⟩
      · rintro ⟨n, hn, hmismatch⟩
        cases hn with
        | refl => exact .inl hmismatch
        | child hc hreads hcall hn =>
            refine .inr ⟨_, hreads, hcall, ?_⟩
            rw [List.getElem?_map, hc, Option.map_some,
              (ih _ (List.mem_of_getElem? hc)).mpr ⟨n, hn, hmismatch⟩]

end

theorem hasOperands_kept : Kept fun _ st => ∀ n ∈ st.pool, n.HasOperands where
  advance h := h
  less h := h
  newNode h := fun hch n hn => by
    rcases List.mem_append.mp hn with hn | hn
    · exact h n hn
    · rw [List.mem_singleton.mp hn]
      exact hch
  badToken h _ _ := h

private theorem setParents_children {i : Nat} {children : List ExprNode} {parents p : Nat → Nat}
    (h : setParents i children parents = some p) : ∀ c ∈ children, c ≠ .null := by
  induction children generalizing parents with
  | nil => simp
  | cons c children ih =>
      unfold setParents at h
      split at h
      · cases h
      · next k hk =>
        rw [List.forall_mem_cons]
        refine ⟨?_, ih h⟩
        rintro rfl
        cases hk

private theorem setup_children {i : Nat} {nodes : List ExprNode} {s s' : PevalState}
    (h : setup i nodes s = some s') : ∀ n ∈ nodes, ∀ c ∈ n.children, c ≠ .null := by
  induction nodes generalizing i s with
  | nil => simp
  | cons node nodes ih =>
      obtain ⟨parents, hparents, hrest⟩ := Option.bind_eq_some_iff.mp h
      rw [List.forall_mem_cons]
      exact ⟨setParents_children hparents, ih hrest⟩

private theorem wellFormed_of_postorder {root : ExprNode} (hroot : root ≠ .null)
    (h : ∀ n ∈ root.postorder, n.HasOperands ∧ ∀ c ∈ n.children, c ≠ .null) : root.WellFormed := by
  induction root using ExprNode.induction with
  | null => exact absurd rfl hroot
  | mk k cb ty val sym ch ih =>
      have hself := h _ (ExprNode.mem_postorder_self hroot)
      rw [ExprNode.wellFormed_mk]
      refine ⟨hself.1, fun c hc => ih c hc (hself.2 c hc) fun n hn => h n ?_⟩
      rw [ExprNode.postorder, List.mem_append, ExprNode.mem_postorders]
      exact .inl ⟨c, hc, hn⟩

section

variable {table : SymbolTable} {tokens : List Token} {root : ExprNode} {st : ParserState}

theorem pevalStart_poolOf (htokens : ∀ t ∈ tokens, t.Known table)
    (hparse : parse tokens = .ok (root, st)) (hroot : root ≠ .null) {s₀ : PevalState}
    (hstart : pevalStart st.pool = some s₀) : PoolOf table st.pool root := by
  obtain ⟨hpostorder, hindexed, hknown⟩ := parse_pool htokens hparse hroot
  have hoperands := parseExpr_keeps hasOperands_kept tokens (tokens.length + 3) 0 {} (by simp)
  rw [Outcome.ensures_of_ok hparse] at hoperands
  have hchildren := setup_children hstart
  refine ⟨wellFormed_of_postorder hroot fun n hn => ?_, hpostorder, hindexed, hknown⟩
  rw [← hpostorder] at hn
  exact ⟨hoperands n hn, hchildren n hn⟩

end

section

variable {table : SymbolTable} {pool : NodePool} {root : ExprNode} {threads i : Nat}
  {s s' : PevalState}

structure Tracked (table : SymbolTable) (pool : NodePool) (s : PevalState) : Prop where
  levels : Levels pool.length pool.kids pool.level s
  work : Work pool.length pool.kids (valueAt table pool) s

theorem Tracked.step (h : PoolOf table pool root) (hs : Tracked table pool s)
    (hstep : Step table pool root threads s s') : Tracked table pool s' :=
  ⟨hs.levels.step h.isLevel h.shape hstep, (h.step hs.levels.order hs.work hstep).2⟩

theorem Tracked.run (h : PoolOf table pool root) (hs : Tracked table pool s)
    (hrun : Relation.ReflTransGen (Step table pool root threads) s s') : Tracked table pool s' := by
  induction hrun with
  | refl => exact hs
  | tail _ hstep ih => exact ih.step h hstep

theorem Tracked.below (hs : Tracked table pool s) (hlive : s.main.live)
    (hi : i ∈ s.currLevelFu) {j : Nat} (hj : j < pool.length) (hlt : pool.level j < pool.level i) :
    ∃ v, valueAt table pool j = .ok v := by
  have hphase := hs.levels.phase
  have hiN := hs.levels.order.lt hi
  have hready : j ∈ s.ready := by
    cases hmain : s.main with
    | head =>
        rw [hmain] at hphase
        obtain ⟨hready, k, hk⟩ := hphase
        have hik := (hk i hiN).mp hi
        exact hready j ((hk j hj).mpr (by omega))
    | submit left =>
        rw [hmain] at hphase
        obtain ⟨-, k, hready, hk⟩ := hphase
        have hik := (hk i hiN).mp (List.mem_append_left _ hi)
        exact hready j hj (by omega)
    | result =>
        rw [hmain] at hphase
        exact hphase.2 j (hs.levels.order.all_of_cnt hphase.1 hj)
    | got v => simp [hmain, Main.live] at hlive
    | exited e => simp [hmain, Main.live] at hlive
  obtain ⟨v, -, hv⟩ := hs.work.promise j hready
  exact ⟨v, hv⟩

theorem Tracked.mismatched (h : PoolOf table pool root) (hs : Tracked table pool s)
    (hi : i ∈ s.running) {n : ExprNode} (hn : pool[i]? = some n)
    (herr : (pevalCallback table s.valPromise n).run = some (.error notMatch)) :
    n.Mismatched table := by
  rw [h.pevalCallback_eq hs.work hi hn, Option.some.injEq] at herr
  have hfu : i ∈ s.currLevelFu := hs.work.tasks.subset (by simp [hi])
  obtain ⟨-, hchildren⟩ := h.node hn
  cases n with
  | null => cases herr
  | mk k cb ty val sym ch =>
      rw [evalCallback, evalChildren_eq_map, runCallback_notMatch, List.length_map] at herr
      rcases herr with hmismatch | ⟨m, -, -, hm⟩
      · exact hmismatch
      · rw [List.getElem?_map, Option.map_eq_some_iff] at hm
        obtain ⟨c, hc, hstop⟩ := hm
        obtain ⟨j, -, hj, hkid⟩ := hchildren c (List.mem_of_getElem? hc)
        obtain ⟨v, -, hv⟩ := hs.work.promise j (hs.work.kidsReady i hfu j hkid)
        rw [valueAt_eq hj, hstop] at hv
        cases hv

/-- A run of `peval` on its way to node `i`: the tasks that run are on lower levels. -/
structure OnTheWay (table : SymbolTable) (pool : NodePool) (i : Nat) (s : PevalState) : Prop where
  tracked : Tracked table pool s
  running : ∀ t ∈ s.running, pool.level t < pool.level i
  todo : i ∉ s.currLevelFu
  not_exited : ∀ e, s.main ≠ .exited e

theorem OnTheWay.live (hs : OnTheWay table pool i s) (hi : i < pool.length) :
    s.cnt ≠ pool.length ∧ s.main.live := by
  have hcnt : s.cnt ≠ pool.length := fun hcnt =>
    hs.todo (hs.tracked.levels.order.all_of_cnt hcnt hi)
  refine ⟨hcnt, ?_⟩
  have hphase := hs.tracked.levels.phase
  cases hmain : s.main with
  | got v =>
      rw [hmain] at hphase
      exact absurd hphase.1 hcnt
  | exited e => exact absurd hmain (hs.not_exited e)
  | head | submit | result => rfl

/-- The run gets on by a step, or it has got to the task of the node. -/
def OnTheWay.Next (table : SymbolTable) (pool : NodePool) (root : ExprNode) (threads i : Nat)
    (s : PevalState) : Prop :=
  (∃ s', Relation.ReflTransGen (Step table pool root threads) s s' ∧ s'.main.live ∧
    i ∈ s'.running) ∨ ∃ s', Step table pool root threads s s' ∧ OnTheWay table pool i s'

private theorem OnTheWay.step (hs : OnTheWay table pool i s) (h : PoolOf table pool root)
    (hstep : Step table pool root threads s s')
    (hrunning : ∀ t ∈ s'.running, pool.level t < pool.level i) (htodo : i ∉ s'.currLevelFu)
    (hlives : ∀ e, s'.main ≠ .exited e) : OnTheWay.Next table pool root threads i s :=
  .inr ⟨s', hstep, hs.tracked.step h hstep, hrunning, htodo, hlives⟩

private theorem OnTheWay.finish (hs : OnTheWay table pool i s) (h : PoolOf table pool root)
    (hi : i < pool.length) {t : Nat} (ht : t ∈ s.running)
    (hvalues : ∀ j < pool.length, pool.level j < pool.level i → ∃ v, valueAt table pool j = .ok v) :
    OnTheWay.Next table pool root threads i s := by
  have hwork := hs.tracked.work
  have hfu : t ∈ s.currLevelFu := hwork.tasks.subset (by simp [ht])
  have htN := hs.tracked.levels.order.lt hfu
  have hnode := List.getElem?_eq_getElem htN
  obtain ⟨v, hv⟩ := hvalues t htN (hs.running t ht)
  rw [valueAt_eq hnode] at hv
  have hrun : (pevalCallback table s.valPromise pool[t]).run = some (.ok v) := by
    rw [h.pevalCallback_eq hwork ht hnode, hv]
  exact hs.step h (.finish (hs.live hi).2 ht hnode hrun)
    (fun t' ht' => hs.running t' (List.mem_of_mem_erase ht')) hs.todo hs.not_exited

private theorem OnTheWay.wait (hs : OnTheWay table pool i s) (h : PoolOf table pool root)
    (hi : i < pool.length) (hthreads : 1 ≤ threads) (hrunning : s.running = [])
    (hmain : s.main = .submit 0) : OnTheWay.Next table pool root threads i s := by
  by_cases hready : ∀ fu ∈ s.currLevelFu, fu ∈ s.ready
  · exact hs.step h (.wait hmain hready) hs.running hs.todo (by rintro e ⟨⟩)
  push Not at hready
  obtain ⟨t, ht, hnew⟩ := hready
  have htask : t ∈ s.tasks := by
    have hmem := hs.tracked.work.tasks.symm.subset ht
    simpa [hrunning, hnew] using hmem
  have hphase := hs.tracked.levels.phase
  rw [hmain] at hphase
  obtain ⟨-, k, -, hk⟩ := hphase
  rw [List.take_zero, List.append_nil] at hk
  have hti : pool.level t < pool.level i := by
    have hik := mt (hk i hi).mpr hs.todo
    have htk := (hk t (hs.tracked.levels.order.lt ht)).mp ht
    omega
  apply hs.step h (.start (hs.live hi).2 htask _) _ hs.todo hs.not_exited
  · rw [hrunning]
    exact hthreads
  · intro t' ht'
    rw [hrunning, List.nil_append] at ht'
    rwa [List.mem_singleton.mp ht']

private theorem OnTheWay.submit (hs : OnTheWay table pool i s) (h : PoolOf table pool root)
    (hthreads : 1 ≤ threads) (hrunning : s.running = []) {left : Nat}
    (hmain : s.main = .submit (left + 1)) : OnTheWay.Next table pool root threads i s := by
  cases hq : s.q with
  | nil =>
      have hphase := hs.tracked.levels.phase
      rw [hmain] at hphase
      obtain ⟨hle, -⟩ := hphase
      rw [hq] at hle
      cases hle
  | cons c q =>
      have hsubmit : Step table pool root threads s (s.submitNode left c q) := .submit hmain hq
      by_cases hci : c = i
      · subst hci
        have htask : c ∈ (s.submitNode left c q).tasks := by simp [PevalState.submitNode]
        have hidle : (s.submitNode left c q).running.length < threads := by
          change s.running.length < threads
          rw [hrunning]
          exact hthreads
        refine .inl ⟨_, .tail (.single hsubmit) (.start rfl htask hidle), rfl, ?_⟩
        simp
      · apply hs.step h hsubmit hs.running _ (by rintro e ⟨⟩)
        simp [PevalState.submitNode, hs.todo, Ne.symm hci]

/-- Where all lower levels have values, `peval` can get to run the task of a node next. -/
theorem OnTheWay.reaches (h : PoolOf table pool root) (hi : i < pool.length)
    (hvalues : ∀ j < pool.length, pool.level j < pool.level i → ∃ v, valueAt table pool j = .ok v)
    (hthreads : 1 ≤ threads) (hs : OnTheWay table pool i s) :
    ∃ s', Relation.ReflTransGen (Step table pool root threads) s s' ∧ s'.main.live ∧
      i ∈ s'.running := by
  have hnext : ∀ s, OnTheWay table pool i s → OnTheWay.Next table pool root threads i s := by
    intro s hs
    obtain ⟨hcnt, hlive⟩ := hs.live hi
    by_cases hrunning : s.running = []
    swap
    · obtain ⟨t, ht⟩ := List.exists_mem_of_ne_nil _ hrunning
      exact hs.finish h hi ht hvalues
    cases hmain : s.main with
    | head => exact hs.step h (.level hmain hcnt) hs.running hs.todo (by rintro e ⟨⟩)
    | submit left =>
        cases left with
        | zero => exact hs.wait h hi hthreads hrunning hmain
        | succ left => exact hs.submit h hthreads hrunning hmain
    | result =>
        have hphase := hs.tracked.levels.phase
        rw [hmain] at hphase
        exact absurd hphase.1 hcnt
    | got v => simp [hmain, Main.live] at hlive
    | exited e => exact absurd hmain (hs.not_exited e)
  induction hμ : PoolOf.measure pool.length s using Nat.strongRecOn generalizing s with
  | ind m ih =>
      subst hμ
      rcases hnext s hs with hreached | ⟨s₁, hstep, hs₁⟩
      · exact hreached
      · have hlt := h.measure_lt hs.tracked.levels.order hstep hs₁.not_exited
        obtain ⟨s', hrun, hreached⟩ := ih _ hlt hs₁ rfl
        exact ⟨s', .head hstep hrun, hreached⟩

end

section

variable {hooks : Hooks} {table : SymbolTable}

private theorem readToken_error {ch : Char} {s : List Char} {e : ErrCode}
    (h : (readToken hooks table ch s).rest = .error e) : e ≠ .builtinFuncCallNotMatch := by
  unfold readToken at h
  split at h
  · next lexed hread =>
    unfold readOperator at hread
    split at hread
    all_goals
      cases hread
      repeat' split at h
      all_goals cases h
    decide
  split at h
  · unfold lexLiteral at h
    split at h
    · next e' he =>
      obtain rfl := Except.error.inj h
      rcases readLiteral_error he with rfl | rfl <;> decide
    · split at h
      · obtain rfl := Except.error.inj h
        decide
      · dsimp only at h
        split at h
        · cases h
        · obtain rfl := Except.error.inj h
          decide
  split at h
  · unfold lexSymbol at h
    dsimp only at h
    split at h
    all_goals cases h
    all_goals decide
  · obtain rfl := Except.error.inj h
    decide

theorem tokenizerLoop_status {fuel : Nat} {s : List Char} {res tokens : List Token} {code : ErrCode}
    (h : tokenizerLoop hooks table fuel s res = some (tokens, some code)) :
    code ≠ .builtinFuncCallNotMatch := by
  induction fuel generalizing s res with
  | zero =>
      unfold tokenizerLoop at h
      split at h <;> cases h
  | succ fuel ih =>
      by_cases hs : s = []
      · subst hs
        cases h
      obtain ⟨k, ch, r, hk, hskip, -⟩ := tokenizerLoop_skips hs (by rw [h]; rfl)
      obtain rfl := Nat.succ.inj hk
      rw [tokenizerLoop_cons hs hskip] at h
      split at h
      · next e he =>
        obtain ⟨-, hcode⟩ := Prod.mk.inj (Option.some.inj h)
        obtain rfl := Option.some.inj hcode
        exact readToken_error he
      · exact ih h

end

/-- The codes that `eval` and `peval` of a string, and what they call, assign to a status. The
tokenizer assigns one and returns; `badToken` is called in the parser; a null root has a code of its
own; the callbacks of the nodes are run one after the other by `eval` and by the tasks of `peval`, on
whichever number of workers; and under them the arithmetic has its codes. -/
inductive Assigned (hooks : Hooks) (table : SymbolTable) (str : List Char) : Status.Enum → Prop
  | tokenizer {fuel tokens code} (htokens : tokenizer hooks table fuel str = some (tokens, some code)) :
      Assigned hooks table str code.toEnum
  | badToken : Assigned hooks table str ErrCode.badToken.toEnum
  | nullRoot {fuel tokens status st}
      (htokens : tokenizer hooks table fuel str = some (tokens, status))
      (hparse : parse tokens = .ok (.null, st)) :
      Assigned hooks table str (~~~ Status.ErrCode.success)
  | eval {fuel tokens status root st code}
      (htokens : tokenizer hooks table fuel str = some (tokens, status))
      (hparse : parse tokens = .ok (root, st)) (hroot : root ≠ .null)
      (hstop : evalCallback table root = .error (.status code)) :
      Assigned hooks table str code.toEnum
  | peval {fuel tokens status root st threads s₀ s task node code}
      (htokens : tokenizer hooks table fuel str = some (tokens, status))
      (hparse : parse tokens = .ok (root, st)) (hroot : root ≠ .null)
      (hstart : pevalStart st.pool = some s₀)
      (hrun : Relation.ReflTransGen (Step table st.pool root threads) s₀ s) (hlive : s.main.live)
      (htask : task ∈ s.running) (hnode : st.pool[task]? = some node)
      (hstop : (pevalCallback table s.valPromise node).run = some (.error (.status code))) :
      Assigned hooks table str code.toEnum
  | number (code : PGBigNumber.ErrCode) : Assigned hooks table str code.toEnum

def loaded : Status.Registry Unit Unit := Status.run [.getInstance ()]

def Registered (code : Status.Enum) : Prop := loaded.callback code ≠ none

instance (code : Status.Enum) : Decidable (Registered code) :=
  inferInstanceAs (Decidable (_ ≠ _))

theorem number_registered (code : PGBigNumber.ErrCode) : Registered code.toEnum := by
  cases code <;> decide

theorem toEnum_registered_iff (code : ErrCode) :
    Registered code.toEnum ↔ code ≠ .builtinFuncCallNotMatch := by
  cases code <;> decide

section

variable {hooks : Hooks} {table : SymbolTable} {fuel : Nat} {str : List Char} {tokens : List Token}
  {status : Option ErrCode} {root : ExprNode} {st : ParserState}

theorem parse_null_iff (hparse : parse tokens = .ok (root, st)) :
    root = .null ↔ ¬ ∃ rest r, Accepts tokens rest r := by
  constructor
  · rintro rfl ⟨rest, r, hacc⟩
    obtain ⟨node, st', hparse', hnode, -⟩ := hacc.parse
    obtain ⟨rfl, -⟩ := Prod.mk.inj (Except.ok.inj (hparse.symm.trans hparse'))
    exact hnode rfl
  · intro hnone
    by_contra hroot
    obtain ⟨r, hacc, -⟩ := parse_accepts hparse hroot
    exact hnone ⟨_, r, hacc⟩

theorem pevalStart_tracked {pool : NodePool} (h : PoolOf table pool root) :
    ∃ s, pevalStart pool = some s ∧ Tracked table pool s ∧ s.main = .head ∧ s.currLevelFu = [] ∧
      s.running = [] := by
  obtain ⟨s, hs, hloop, hfu, hrunning⟩ := pevalStart_levels h
  obtain ⟨s', hs', -, hwork, hmain⟩ := pevalStart_spec h
  obtain rfl := Option.some.inj (hs.symm.trans hs')
  exact ⟨s, hs, ⟨hloop.levels, hwork⟩, hmain, hfu, hrunning⟩

theorem assigned_of_mismatched (h : PoolOf table st.pool root)
    (htokens : tokenizer hooks table fuel str = some (tokens, status))
    (hparse : parse tokens = .ok (root, st)) {i : Nat} {n : ExprNode} (hn : st.pool[i]? = some n)
    (hmismatch : n.Mismatched table)
    (hvalues : ∀ j < st.pool.length, st.pool.level j < st.pool.level i →
      ∃ v, valueAt table st.pool j = .ok v) :
    Assigned hooks table str ErrCode.builtinFuncCallNotMatch.toEnum := by
  have hroot : root ≠ .null := by
    rintro rfl
    exact ExprNode.not_wellFormed_null h.wellFormed
  have hi : i < st.pool.length := (List.getElem?_eq_some_iff.mp hn).1
  obtain ⟨s₀, hstart, htracked, hmain, hfu, hrunning⟩ := pevalStart_tracked h
  have hway : OnTheWay table st.pool i s₀ :=
    ⟨htracked, by simp [hrunning], by simp [hfu], by simp [hmain]⟩
  obtain ⟨s, hrun, hlive, htask⟩ := hway.reaches h hi hvalues (Nat.le_refl 1)
  have hwork := (htracked.run h hrun).work
  refine .peval htokens hparse hroot hstart hrun hlive htask hn ?_
  rw [h.pevalCallback_eq hwork htask hn, Option.some.injEq]
  exact (evalCallback_notMatch_iff table n).mpr ⟨n, .refl n, hmismatch⟩

/-- Every code that is assigned has an entry exactly when the string has an expression that the
parser accepts, `eval` gets to no call with a wrong number of arguments, and neither does `peval`:
below the level of such a call there is a node without a value. -/
theorem assigned_registered_iff
    (hcall : ∀ name f, table name = some (.func f) → f.nativeCall ≠ none) :
    (∀ code, Assigned hooks table str code → Registered code) ↔
      ∀ fuel tokens status, tokenizer hooks table fuel str = some (tokens, status) →
        (scanTokens tokens = .overrun ∨ ∃ rest r, Accepts tokens rest r) ∧
        ∀ root st, parse tokens = .ok (root, st) →
          (∀ n, root.Evaluates table n → ¬ n.Mismatched table) ∧
          (root.WellFormed → ∀ i n, st.pool[i]? = some n → n.Mismatched table →
            ∃ j < st.pool.length, st.pool.level j < st.pool.level i ∧
              ∃ e, valueAt table st.pool j = .error e) := by
  have hnot : ¬ Registered ErrCode.builtinFuncCallNotMatch.toEnum := by decide
  constructor
  · intro hall fuel tokens status htokens
    refine ⟨?_, fun root st hparse => ⟨fun n hn hmismatch => ?_, fun hwf i n hn hmismatch => ?_⟩⟩
    · by_contra hneither
      obtain ⟨hrun, hnone⟩ := not_or.mp hneither
      obtain ⟨root, st, hparse⟩ := (parse_isOk_iff tokens).mpr hrun
      obtain rfl := (parse_null_iff hparse).mpr hnone
      exact absurd (hall _ (.nullRoot htokens hparse)) (by decide)
    · have hstop := (evalCallback_notMatch_iff table root).mpr ⟨n, hn, hmismatch⟩
      refine hnot (hall _ (.eval htokens hparse ?_ hstop))
      rintro rfl
      cases hstop
    · by_contra hvalues
      push Not at hvalues
      have hroot : root ≠ .null := by
        rintro rfl
        exact ExprNode.not_wellFormed_null hwf
      refine hnot (hall _ (assigned_of_mismatched (parse_poolOf hcall htokens hparse hroot hwf)
        htokens hparse hn hmismatch fun j hj hlt => ?_))
      cases hvalue : valueAt table st.pool j with
      | ok v => exact ⟨v, rfl⟩
      | error e => exact absurd hvalue (hvalues j hj hlt e)
  · intro hcond code hassigned
    cases hassigned with
    | tokenizer htokens => exact (toEnum_registered_iff _).mpr (tokenizerLoop_status htokens)
    | badToken => decide
    | @nullRoot fuel tokens status st htokens hparse =>
        rcases (hcond fuel tokens status htokens).1 with hover | hacc
        · exact absurd hover ((parse_isOk_iff tokens).mp ⟨_, _, hparse⟩)
        · exact absurd hacc ((parse_null_iff hparse).mp rfl)
    | @eval fuel tokens status root st code htokens hparse hroot hstop =>
        rw [toEnum_registered_iff]
        rintro rfl
        obtain ⟨n, hn, hmismatch⟩ := (evalCallback_notMatch_iff table root).mp hstop
        exact ((hcond fuel tokens status htokens).2 root st hparse).1 n hn hmismatch
    | @peval fuel tokens status root st threads s₀ s task node code htokens hparse hroot hstart hrun
        hlive htask hnode hstop =>
        rw [toEnum_registered_iff]
        rintro rfl
        have h := pevalStart_poolOf (tokenizer_known hcall htokens) hparse hroot hstart
        obtain ⟨s₁, hs₁, htracked, -⟩ := pevalStart_tracked h
        obtain rfl := Option.some.inj (hs₁.symm.trans hstart)
        have hs := htracked.run h hrun
        have hmismatch := hs.mismatched h htask hnode hstop
        obtain ⟨j, hj, hlt, e, herr⟩ :=
          ((hcond fuel tokens status htokens).2 root st hparse).2 h.wellFormed task node hnode hmismatch
        have hfu : task ∈ s.currLevelFu := hs.work.tasks.subset (by simp [htask])
        obtain ⟨v, hv⟩ := hs.below hlive hfu hj hlt
        rw [herr] at hv
        cases hv
    | number code => exact number_registered code

theorem assigned_registered_max : ¬ ∃ code,
    Assigned .default maxTable "max(2,3)*4".toList code ∧ ¬ Registered code := by
  rintro ⟨code, hassigned, hnot⟩
  refine hnot ((assigned_registered_iff fun _ _ => maxTable_callable).mpr ?_ code hassigned)
  intro fuel tokens status htokens
  obtain ⟨rfl, rfl⟩ := Prod.mk.inj (tokenizerLoop_unique htokens maxTokens_read)
  refine ⟨.inr ⟨[.invalid], ⟨false, false, false⟩, by decide, rfl, rfl⟩, fun root st hparse => ?_⟩
  obtain ⟨root', st', hparse', -, -, heval, -, hvalues⟩ := maxTokens_parse
  obtain ⟨rfl, rfl⟩ := Prod.mk.inj (Except.ok.inj (hparse.symm.trans hparse'))
  have hmatches : ∀ {node : ExprNode} {v : Int}, evalCallback maxTable node = .ok v →
      ∀ n, node.Evaluates maxTable n → ¬ n.Mismatched maxTable := by
    intro node v hv n hn hmismatch
    have hstop := (evalCallback_notMatch_iff maxTable node).mpr ⟨n, hn, hmismatch⟩
    rw [hv] at hstop
    cases hstop
  refine ⟨hmatches heval, fun _ i n hn hmismatch => ?_⟩
  obtain ⟨w, hw⟩ := hvalues n (List.mem_of_getElem? hn)
  exact absurd hmismatch (hmatches hw n (.refl n))

/-- The root of a lone `)` is null, and the code for that has no entry. -/
theorem assigned_unregistered : ¬ ∀ hooks table str,
    (∀ name f, table name = some (.func f) → f.nativeCall ≠ none) →
    ∀ code, Assigned hooks table str code → Registered code := by
  intro h
  have hassigned : Assigned .default (fun _ => none) [')'] (~~~ Status.ErrCode.success) :=
    .nullRoot (show tokenizer .default (fun _ => none) 2 [')'] = some (_, none) from rfl)
      (show parse _ = .ok (.null, _) from rfl)
  exact absurd (h .default (fun _ => none) [')'] (by rintro _ _ ⟨⟩) _ hassigned) (by decide)

end

end Infix

end PGBigNumber
