import Mathlib.Logic.Relation
import PGBigNumber.Infix.Peval

/-!
# The levels of the scheduling loop

The loop of `peval` by itself: what its tasks do is left open, except that their futures get ready.
It submits the nodes level by level, where the level of a node is its height in the tree.
-/

namespace PGBigNumber.Infix

namespace ExprNode

mutual

def height : ExprNode → Nat
  | null => 0
  | mk _ _ _ _ _ ch => heights ch

def heights : List ExprNode → Nat
  | [] => 0
  | c :: ch => max (height c + 1) (heights ch)

end

theorem heights_le_iff {ch : List ExprNode} {k : Nat} :
    heights ch ≤ k ↔ ∀ c ∈ ch, height c < k := by
  induction ch with
  | nil => simp [heights]
  | cons c ch ih =>
      rw [heights, Nat.max_le, ih, List.forall_mem_cons]
      exact Iff.rfl

theorem height_le_iff {n : ExprNode} {k : Nat} : n.height ≤ k ↔ ∀ c ∈ n.children, c.height < k := by
  cases n with
  | null => simp [height, children]
  | mk => exact heights_le_iff

end ExprNode

def NodePool.level (pool : NodePool) (i : Nat) : Nat :=
  match pool[i]? with
  | none => 0
  | some n => n.height

/-- A node is on a level below `k + 1` when its children are on levels below `k`. -/
def IsLevel (N : Nat) (kids : Nat → List Nat) (level : Nat → Nat) : Prop :=
  ∀ i < N, ∀ k, level i ≤ k ↔ ∀ j ∈ kids i, level j < k

theorem PoolOf.isLevel {table : SymbolTable} {pool : NodePool} {root : ExprNode}
    (h : PoolOf table pool root) : IsLevel pool.length pool.kids pool.level := by
  intro i hi k
  have hn := List.getElem?_eq_getElem hi
  have hlevel : pool.level i = pool[i].height := by
    unfold NodePool.level
    rw [hn]
  have hkids : pool.kids i = pool[i].kids := by
    unfold NodePool.kids
    rw [hn]
  obtain ⟨-, hchildren⟩ := h.node hn
  rw [hlevel, ExprNode.height_le_iff, hkids]
  constructor
  · intro hlt j hj
    obtain ⟨c, hc, hidx⟩ := List.mem_filterMap.mp hj
    obtain ⟨j', hidx', hget, -⟩ := hchildren c hc
    obtain rfl := Option.some.inj (hidx.symm.trans hidx')
    unfold NodePool.level
    rw [hget]
    exact hlt c hc
  · intro hlt c hc
    obtain ⟨j, -, hget, hmem⟩ := hchildren c hc
    have hj := hlt j (hkids ▸ hmem)
    unfold NodePool.level at hj
    rw [hget] at hj
    exact hj

/-- What the place of the main thread says about the levels that are submitted and ready. -/
def LevelPhase (N : Nat) (level : Nat → Nat) (s : PevalState) : Main → Prop
  | .head => (∀ i ∈ s.currLevelFu, i ∈ s.ready) ∧ ∃ k, ∀ i < N, i ∈ s.currLevelFu ↔ level i < k
  | .submit left => left ≤ s.q.length ∧ ∃ k, (∀ i < N, level i < k → i ∈ s.ready) ∧
      ∀ i < N, i ∈ s.currLevelFu ++ s.q.take left ↔ level i ≤ k
  | .result | .got _ => s.cnt = N ∧ ∀ i ∈ s.currLevelFu, i ∈ s.ready
  | .exited _ => True

/-- The nodes are submitted in their order, and the futures behind the current level are ready. -/
structure Levels (N : Nat) (kids : Nat → List Nat) (level : Nat → Nat) (s : PevalState) : Prop where
  order : Order N kids s
  held : ∀ i ∈ s.tasks ++ s.running ++ s.ready, i ∈ s.currLevelFu
  phase : LevelPhase N level s s.main

namespace Levels

variable {N : Nat} {kids : Nat → List Nat} {level : Nat → Nat} {s s' : PevalState}

theorem of_worker (h : Levels N kids level s) (hmain : s'.main = s.main) (hq : s'.q = s.q)
    (hparents : s'.parents = s.parents) (hchildCnt : s'.childCnt = s.childCnt)
    (hcnt : s'.cnt = s.cnt) (hfu : s'.currLevelFu = s.currLevelFu)
    (hheld : ∀ i ∈ s'.tasks ++ s'.running ++ s'.ready, i ∈ s.currLevelFu)
    (hready : ∀ i ∈ s.ready, i ∈ s'.ready) : Levels N kids level s' := by
  obtain ⟨⟨hp, hr, hc, hnd, hen, hcc⟩, -, hphase⟩ := h
  refine ⟨⟨?_, ?_, ?_, ?_, ?_, ?_⟩, fun i hi => ?_, ?_⟩
  · rwa [hparents]
  · rwa [hparents]
  · rwa [hcnt, hfu]
  · rwa [hfu, hq]
  · rwa [hfu, hq]
  · rwa [hfu, hchildCnt]
  · rw [hfu]
    exact hheld i hi
  · rw [hmain]
    cases hm : s.main with
    | head =>
        rw [hm] at hphase
        unfold LevelPhase
        rw [hfu]
        exact ⟨fun i hi => hready i (hphase.1 i hi), hphase.2⟩
    | submit left =>
        rw [hm] at hphase
        obtain ⟨hle, k, hbelow, hlevel⟩ := hphase
        unfold LevelPhase
        rw [hq, hfu]
        exact ⟨hle, k, fun i hi hlt => hready i (hbelow i hi hlt), hlevel⟩
    | result =>
        rw [hm] at hphase
        unfold LevelPhase
        rw [hcnt, hfu]
        exact ⟨hphase.1, fun i hi => hready i (hphase.2 i hi)⟩
    | got v =>
        rw [hm] at hphase
        unfold LevelPhase
        rw [hcnt, hfu]
        exact ⟨hphase.1, fun i hi => hready i (hphase.2 i hi)⟩
    | exited e => trivial

theorem queue_of_head (h : Levels N kids level s) (hlevel : IsLevel N kids level)
    (hshape : TreeShape N kids) {k : Nat} (hk : ∀ i < N, i ∈ s.currLevelFu ↔ level i < k) :
    ∀ i < N, i ∈ s.currLevelFu ++ s.q ↔ level i ≤ k := by
  intro i hi
  rw [h.order.enabled i, hlevel i hi k]
  constructor
  · rintro ⟨-, hkids⟩ j hj
    exact (hk j (Nat.lt_trans (hshape.lt i j hj) hi)).mp (hkids j hj)
  · intro hkids
    exact ⟨hi, fun j hj => (hk j (Nat.lt_trans (hshape.lt i j hj) hi)).mpr (hkids j hj)⟩

variable (h : Levels N kids level s)
include h

theorem enter (hlevel : IsLevel N kids level) (hshape : TreeShape N kids) (hmain : s.main = .head) :
    Levels N kids level { s with main := .submit s.q.length } := by
  obtain ⟨⟨hp, hr, hc, hnd, hen, hcc⟩, hh, hphase⟩ := id h
  rw [hmain] at hphase
  obtain ⟨hready, k, hk⟩ := hphase
  refine ⟨⟨hp, hr, hc, hnd, hen, hcc⟩, hh, Nat.le_refl _, k, fun i hi hlt => ?_, ?_⟩
  · exact hready i ((hk i hi).mpr hlt)
  · dsimp only
    rw [List.take_length]
    exact h.queue_of_head hlevel hshape hk

theorem submit (hshape : TreeShape N kids) {left c : Nat} {q : List Nat}
    (hmain : s.main = .submit (left + 1)) (hq : s.q = c :: q) :
    Levels N kids level (s.submitNode left c q) := by
  obtain ⟨horder, hh, hphase⟩ := id h
  rw [hmain] at hphase
  obtain ⟨hle, k, hbelow, hlevel⟩ := hphase
  rw [hq] at hle hlevel
  have hlen : left ≤ q.length := by simpa using hle
  refine ⟨horder.submitNode hshape hq, fun i hi => ?_, ?_⟩
  · change i ∈ s.currLevelFu ++ [c]
    simp only [PevalState.submitNode, List.mem_append, List.mem_singleton] at hi hh ⊢
    rcases hi with ((hi | hi) | hi) | hi
    · exact .inl (hh i (.inl (.inl hi)))
    · exact .inr hi
    · exact .inl (hh i (.inl (.inr hi)))
    · exact .inl (hh i (.inr hi))
  -- what the level still has to submit stands in front of what is appended to the queue
  have htake : ∀ p, (if decrement (s.childCnt (s.parents c)) = 0 then q ++ [p] else q).take left =
      q.take left := by
    intro p
    split
    · exact List.take_append_of_le_length hlen
    · rfl
  refine ⟨?_, k, hbelow, fun i hi => ?_⟩
  · dsimp only [PevalState.submitNode]
    split
    · rw [List.length_append]
      omega
    · exact hlen
  · dsimp only [PevalState.submitNode]
    rw [htake, ← hlevel i hi, List.take_succ_cons, List.append_assoc, List.singleton_append]

theorem waited (hmain : s.main = .submit 0) (hready : ∀ fu ∈ s.currLevelFu, fu ∈ s.ready) :
    Levels N kids level { s with main := .head } := by
  obtain ⟨⟨hp, hr, hc, hnd, hen, hcc⟩, hh, hphase⟩ := id h
  rw [hmain] at hphase
  obtain ⟨-, k, -, hlevel⟩ := hphase
  rw [List.take_zero, List.append_nil] at hlevel
  exact ⟨⟨hp, hr, hc, hnd, hen, hcc⟩, hh, hready, k + 1, fun i hi =>
    (hlevel i hi).trans Nat.lt_succ_iff.symm⟩

theorem leave (hmain : s.main = .head) (hcnt : s.cnt = N) :
    Levels N kids level { s with main := .result } := by
  obtain ⟨⟨hp, hr, hc, hnd, hen, hcc⟩, hh, hphase⟩ := id h
  rw [hmain] at hphase
  exact ⟨⟨hp, hr, hc, hnd, hen, hcc⟩, hh, hcnt, hphase.1⟩

theorem finish {m : Main} (hm : LevelPhase N level s m) : Levels N kids level { s with main := m } := by
  obtain ⟨⟨hp, hr, hc, hnd, hen, hcc⟩, hh, -⟩ := id h
  refine ⟨⟨hp, hr, hc, hnd, hen, hcc⟩, hh, ?_⟩
  cases m <;> exact hm

end Levels

/-- The steps of the loop, and of the futures it waits for: that of any submitted task may get
ready at any time. -/
inductive LoopStep (N : Nat) : PevalState → PevalState → Prop
  | level {s} (hmain : s.main = .head) (hcnt : s.cnt ≠ N) :
      LoopStep N s { s with main := .submit s.q.length }
  | submit {s left childIndex q} (hmain : s.main = .submit (left + 1)) (hq : s.q = childIndex :: q) :
      LoopStep N s (s.submitNode left childIndex q)
  | wait {s} (hmain : s.main = .submit 0) (hready : ∀ fu ∈ s.currLevelFu, fu ∈ s.ready) :
      LoopStep N s { s with main := .head }
  | leave {s} (hmain : s.main = .head) (hcnt : s.cnt = N) :
      LoopStep N s { s with main := .result }
  | ready {s task} (htask : task ∈ s.currLevelFu) (hready : task ∉ s.ready) :
      LoopStep N s { s with ready := s.ready ++ [task] }

/-- What holds along a run of the loop until it is left. -/
structure Looping (N : Nat) (kids : Nat → List Nat) (level : Nat → Nat) (s : PevalState) : Prop where
  levels : Levels N kids level s
  nodup : s.ready.Nodup
  inside : s.main = .head ∨ (∃ left, s.main = .submit left) ∨ s.main = .result

/-- How much the loop and its futures have to do: nodes to submit, futures to get ready, and the
turns of the main thread in between. -/
def loopMeasure (N : Nat) (s : PevalState) : Nat :=
  4 * (N - s.cnt) + (N - s.ready.length) +
    match s.main with
    | .submit 0 => 3
    | .head => 2
    | .submit _ => 1
    | _ => 0

namespace Looping

variable {N : Nat} {kids : Nat → List Nat} {level : Nat → Nat} {s s' : PevalState}

theorem step (hlevel : IsLevel N kids level) (hshape : TreeShape N kids)
    (h : Looping N kids level s) (hstep : LoopStep N s s') :
    Looping N kids level s' ∧ loopMeasure N s' < loopMeasure N s := by
  obtain ⟨hlevels, hnodup, hinside⟩ := h
  have horder := hlevels.order
  cases hstep with
  | level hmain hcnt =>
      refine ⟨⟨hlevels.enter hlevel hshape hmain, hnodup, .inr (.inl ⟨_, rfl⟩)⟩, ?_⟩
      have hq := List.length_pos_iff.mpr (horder.queue_ne_nil hshape hcnt)
      obtain ⟨k, hk⟩ : ∃ k, s.q.length = k + 1 := ⟨_, (Nat.succ_pred_eq_of_pos hq).symm⟩
      simp only [loopMeasure, hmain, hk]
      omega
  | @submit left c q hmain hq =>
      refine ⟨⟨hlevels.submit hshape hmain hq, hnodup, .inr (.inl ⟨_, rfl⟩)⟩, ?_⟩
      have hlt := horder.cnt_lt hq
      simp only [loopMeasure, hmain, PevalState.submitNode]
      cases left <;> simp only <;> omega
  | wait hmain hready =>
      refine ⟨⟨hlevels.waited hmain hready, hnodup, .inl rfl⟩, ?_⟩
      simp only [loopMeasure, hmain]
      omega
  | leave hmain hcnt =>
      refine ⟨⟨hlevels.leave hmain hcnt, hnodup, .inr (.inr rfl)⟩, ?_⟩
      simp only [loopMeasure, hmain]
      omega
  | @ready task htask hnew =>
      have hnodup' : (s.ready ++ [task]).Nodup := by
        refine List.nodup_append.mpr ⟨hnodup, List.nodup_singleton task, ?_⟩
        rintro i hi j hj rfl
        rw [List.mem_singleton.mp hj] at hi
        exact hnew hi
      have hsub : ∀ i ∈ s.ready ++ [task], i < N := by
        intro i hi
        apply horder.lt
        rcases List.mem_append.mp hi with hi | hi
        · exact hlevels.held i (List.mem_append_right _ hi)
        · rwa [List.mem_singleton.mp hi]
      have hlen : (s.ready ++ [task]).length ≤ N := by
        have hle := (hnodup'.subperm fun i hi => List.mem_range.mpr (hsub i hi)).length_le
        rwa [List.length_range] at hle
      have hall : Levels N kids level { s with ready := s.ready ++ [task] } := by
        refine hlevels.of_worker rfl rfl rfl rfl rfl rfl (fun i hi => ?_)
          fun i hi => List.mem_append_left _ hi
        rw [← List.append_assoc, List.mem_append, List.mem_singleton] at hi
        rcases hi with hi | rfl
        · exact hlevels.held i hi
        · exact htask
      refine ⟨⟨hall, hnodup', hinside⟩, ?_⟩
      rw [List.length_append, List.length_singleton] at hlen
      simp only [loopMeasure, List.length_append, List.length_singleton]
      omega

/-- The loop does not get stuck before it is left, and it is left with every node submitted once. -/
theorem progress (h : Looping N kids level s) :
    (s.main = .result ∧ s.cnt = N ∧ s.currLevelFu.Perm (List.range N)) ∨ ∃ s', LoopStep N s s' := by
  obtain ⟨hlevels, -, hinside⟩ := h
  have hphase := hlevels.phase
  rcases hinside with hmain | ⟨left, hmain⟩ | hmain
  · by_cases hcnt : s.cnt = N
    · exact .inr ⟨_, .leave hmain hcnt⟩
    · exact .inr ⟨_, .level hmain hcnt⟩
  · rw [hmain] at hphase
    cases left with
    | zero =>
        by_cases hready : ∀ fu ∈ s.currLevelFu, fu ∈ s.ready
        · exact .inr ⟨_, .wait hmain hready⟩
        · push Not at hready
          obtain ⟨task, htask, hnew⟩ := hready
          exact .inr ⟨_, .ready htask hnew⟩
    | succ left =>
        cases hq : s.q with
        | nil =>
            have hle := hphase.1
            rw [hq] at hle
            cases hle
        | cons c q => exact .inr ⟨_, .submit hmain hq⟩
  · rw [hmain] at hphase
    refine .inl ⟨hmain, hphase.1, ?_⟩
    rw [List.perm_ext_iff_of_nodup hlevels.order.nodup.of_append_left List.nodup_range]
    intro i
    rw [List.mem_range]
    exact ⟨hlevels.order.lt, hlevels.order.all_of_cnt hphase.1⟩

end Looping

section

variable {table : SymbolTable} {pool : NodePool} {root : ExprNode} {threads : Nat}
  {s s' : PevalState} {kids : Nat → List Nat} {level : Nat → Nat}

/-- Whatever the workers do, a step of `peval` keeps the levels. -/
theorem Levels.step (hlevel : IsLevel pool.length kids level) (hshape : TreeShape pool.length kids)
    (h : Levels pool.length kids level s) (hstep : Step table pool root threads s s') :
    Levels pool.length kids level s' := by
  have hheld := h.held
  have hphase := h.phase
  have hended : ∀ {task : Nat}, task ∈ s.running →
      ∀ i ∈ s.tasks ++ s.running.erase task ++ (s.ready ++ [task]), i ∈ s.currLevelFu := by
    intro task htask i hi
    apply hheld
    simp only [List.mem_append, List.mem_singleton] at hi ⊢
    rcases hi with (hi | hi) | hi | rfl
    · exact .inl (.inl hi)
    · exact .inl (.inr (List.mem_of_mem_erase hi))
    · exact .inr hi
    · exact .inl (.inr htask)
  cases hstep with
  | level hmain hcnt => exact h.enter hlevel hshape hmain
  | submit hmain hq => exact h.submit hshape hmain hq
  | wait hmain hready => exact h.waited hmain hready
  | leave hmain hcnt => exact h.leave hmain hcnt
  | result hmain hroot hv =>
      rw [hmain] at hphase
      exact h.finish hphase
  | start hlive htask hidle =>
      refine h.of_worker rfl rfl rfl rfl rfl rfl (fun i hi => hheld i ?_) fun i hi => hi
      simp only [List.mem_append, List.mem_singleton] at hi ⊢
      rcases hi with (hi | hi | rfl) | hi
      · exact .inl (.inl (List.mem_of_mem_erase hi))
      · exact .inl (.inr hi)
      · exact .inl (.inl htask)
      · exact .inr hi
  | finish hlive htask hnode hv =>
      exact h.of_worker rfl rfl rfl rfl rfl rfl (hended htask) fun i hi => List.mem_append_left _ hi
  | fail hlive htask hnode he hexception =>
      exact h.of_worker rfl rfl rfl rfl rfl rfl (hended htask) fun i hi => List.mem_append_left _ hi
  | exit hlive htask hnode he hexception => exact h.finish trivial

/-- What the loop may rely on in a state of `peval`: there is a front to take, no node is submitted
twice, and when a node is submitted the levels below its own have been waited for. -/
structure InLevelOrder (pool : NodePool) (s : PevalState) : Prop where
  front : ∀ left, s.main = .submit (left + 1) → s.q ≠ []
  once : s.currLevelFu.Nodup ∧ s.cnt = s.currLevelFu.length ∧ ∀ i ∈ s.currLevelFu, i < pool.length
  between : s.main = .head → (∀ i ∈ s.currLevelFu, i ∈ s.ready) ∧
    ∃ k, ∀ i < pool.length, i ∈ s.currLevelFu ↔ pool.level i < k
  below : ∀ left c q, s.main = .submit (left + 1) → s.q = c :: q →
    (∀ i ∈ s.currLevelFu, pool.level i ≤ pool.level c) ∧
      ∀ i < pool.length, pool.level i < pool.level c → i ∈ s.currLevelFu ∧ i ∈ s.ready
  left_ : s.main = .result → s.cnt = pool.length ∧ s.currLevelFu.Perm (List.range pool.length)

theorem Levels.inLevelOrder (h : Levels pool.length kids pool.level s) : InLevelOrder pool s := by
  have horder := h.order
  have hphase := h.phase
  have hnodup := horder.nodup.of_append_left
  refine ⟨fun left hmain hq => ?_, ⟨hnodup, horder.cnt, fun i hi => horder.lt hi⟩, fun hmain => ?_,
    fun left c q hmain hq => ?_, fun hmain => ?_⟩
  · rw [hmain] at hphase
    have hle := hphase.1
    rw [hq] at hle
    cases hle
  · rw [hmain] at hphase
    exact hphase
  · rw [hmain] at hphase
    obtain ⟨-, k, hbelow, hlevel⟩ := hphase
    rw [hq, List.take_succ_cons] at hlevel
    have hc := ((horder.enabled c).mp (by simp [hq])).1
    have hready : ∀ i < pool.length, pool.level i < k → i ∈ s.currLevelFu := fun i hi hlt =>
      h.held i (List.mem_append_right _ (hbelow i hi hlt))
    have hck : pool.level c = k := by
      have hle := (hlevel c hc).mp (by simp)
      by_contra hne
      have hmem := hready c hc (by omega)
      have hdis := horder.nodup
      rw [hq, List.nodup_append] at hdis
      exact hdis.2.2 c hmem c List.mem_cons_self rfl
    rw [hck]
    refine ⟨fun i hi => (hlevel i (horder.lt hi)).mp (List.mem_append_left _ hi), fun i hi hlt => ?_⟩
    exact ⟨hready i hi hlt, hbelow i hi hlt⟩
  · rw [hmain] at hphase
    refine ⟨hphase.1, ?_⟩
    rw [List.perm_ext_iff_of_nodup hnodup List.nodup_range]
    intro i
    rw [List.mem_range]
    exact ⟨horder.lt, horder.all_of_cnt hphase.1⟩

end

def SymbolTable.callable (table : SymbolTable) : SymbolTable := fun name =>
  match table name with
  | some (.func f) => some (.func { f with nativeCall := some (f.nativeCall.getD fun _ => 0) })
  | symbol => symbol

section

variable {hooks : Hooks} {table : SymbolTable} {fuel : Nat} {str : List Char} {tokens : List Token}
  {status : Option ErrCode} {root : ExprNode} {st : ParserState}

theorem SymbolTable.callable_nativeCall {name : SymbolName} {f : Func}
    (h : table.callable name = some (.func f)) : f.nativeCall ≠ none := by
  unfold callable at h
  split at h
  · obtain ⟨rfl⟩ := Symbol.func.inj (Option.some.inj h)
    exact Option.some_ne_none _
  · next hne => exact absurd h (hne f)

theorem readToken_callable (ch : Char) (s : List Char) :
    readToken hooks table.callable ch s = readToken hooks table ch s := by
  have hsymbol : lexSymbol table.callable ch s = lexSymbol table ch s := by
    unfold lexSymbol SymbolTable.callable
    dsimp only
    cases table (ch :: s.takeWhile isSymbolChar) with
    | none => rfl
    | some symbol => cases symbol <;> rfl
  unfold readToken
  rw [hsymbol]

theorem tokenizer_callable : tokenizer hooks table.callable fuel str = tokenizer hooks table fuel str := by
  have hloop : ∀ (fuel : Nat) (s : List Char) (res : List Token),
      tokenizerLoop hooks table.callable fuel s res = tokenizerLoop hooks table fuel s res := by
    intro fuel
    induction fuel with
    | zero => exact fun _ _ => rfl
    | succ fuel ih =>
        intro s res
        unfold tokenizerLoop
        simp only [readToken_callable, ih]
  exact hloop fuel str []

theorem pool_of_parse (htokens : tokenizer hooks table fuel str = some (tokens, status))
    (hparse : parse tokens = .ok (root, st)) (hroot : root ≠ .null) (hwf : root.WellFormed) :
    PoolOf table.callable st.pool root :=
  parse_poolOf (fun _ _ => SymbolTable.callable_nativeCall) (tokenizer_callable.trans htokens) hparse
    hroot hwf

theorem pevalStart_levels {pool : NodePool} (h : PoolOf table pool root) :
    ∃ s, pevalStart pool = some s ∧ Looping pool.length pool.kids pool.level s ∧
      s.currLevelFu = [] ∧ s.running = [] := by
  obtain ⟨s, hs, horder, -, hmain⟩ := pevalStart_spec h
  obtain ⟨s', hs', hset⟩ : ∃ s, pevalStart pool = some s ∧ SetUp pool pool.length s :=
    setup_spec h rfl (Nat.zero_le _)
      ⟨rfl, by simp, fun _ _ => rfl, by simp, rfl, rfl, rfl, rfl, rfl, rfl⟩
  obtain rfl := Option.some.inj (hs.symm.trans hs')
  obtain ⟨hfu, htasks, hrunning, hready⟩ := hset.noTasks
  refine ⟨s, hs, ⟨⟨horder, ?_, ?_⟩, ?_, .inl hmain⟩, hfu, hrunning⟩
  · simp [htasks, hrunning, hready]
  · rw [hmain]
    exact ⟨by simp [hfu], 0, by simp [hfu]⟩
  · rw [hready]
    exact List.nodup_nil

/-- On the pool of a parsed tree without null children the loop of `peval` ends with every node
submitted once, level by level: children are on lower levels than their parent, a level starts when
the futures of all levels below are ready, and there always is a front to take. -/
theorem peval_levelOrder (htokens : tokenizer hooks table fuel str = some (tokens, status))
    (hparse : parse tokens = .ok (root, st)) (hroot : root ≠ .null) (hwf : root.WellFormed) :
    ∃ s₀, pevalStart st.pool = some s₀ ∧
      (∀ i < st.pool.length, ∀ j ∈ st.pool.kids i, st.pool.level j < st.pool.level i) ∧
      Runs.Inevitable (LoopStep st.pool.length) (fun s => s.main = .result ∧
        s.cnt = st.pool.length ∧ s.currLevelFu.Perm (List.range st.pool.length)) s₀ ∧
      ∀ table threads s, Relation.ReflTransGen (Step table st.pool root threads) s₀ s →
        InLevelOrder st.pool s := by
  have hpool := pool_of_parse htokens hparse hroot hwf
  have hlevel := hpool.isLevel
  have hshape := hpool.shape
  obtain ⟨s₀, hs₀, hstart, -, -⟩ := pevalStart_levels hpool
  refine ⟨s₀, hs₀, fun i hi => (hlevel i hi _).mp (Nat.le_refl _), ?_, ?_⟩
  · exact Runs.inevitable_of_measure (loopMeasure st.pool.length)
      (fun s s' hs hstep => hs.step hlevel hshape hstep) (fun s hs => hs.progress) hstart
  · intro table' threads s hrun
    have hlevels : Levels st.pool.length st.pool.kids st.pool.level s := by
      induction hrun with
      | refl => exact hstart.levels
      | tail _ hstep ih => exact ih.step hlevel hshape hstep
    exact hlevels.inLevelOrder

theorem peval_levelOrder_sum : ∃ root st s₀,
    parse [⟨.literal, none, 1⟩, ⟨.add, none, 0⟩, ⟨.literal, none, 2⟩, ⟨.invalid, none, 0⟩] =
      .ok (root, st) ∧ pevalStart st.pool = some s₀ ∧ st.pool.length = 3 ∧
      Runs.Inevitable (LoopStep 3) (fun s => s.main = .result ∧ s.cnt = 3 ∧
        s.currLevelFu.Perm (List.range 3)) s₀ := by
  have hleaf : ∀ k v, ExprNode.WellFormed (.mk k .val .literal v none []) := fun k v =>
    ExprNode.wellFormed_mk.mpr ⟨by rintro _ ⟨⟩; rfl, by simp⟩
  obtain ⟨s₀, hs₀, -, hends, -⟩ := peval_levelOrder
    (show tokenizer .default (fun _ => none) 4 ['1', '+', '2'] =
      some ([⟨.literal, none, 1⟩, ⟨.add, none, 0⟩, ⟨.literal, none, 2⟩, ⟨.invalid, none, 0⟩], none)
      by decide +kernel)
    (show parse _ = .ok (.mk 2 .binOp .add 0 none
        [.mk 0 .val .literal 1 none [], .mk 1 .val .literal 2 none []], ⟨3, _, .success, none⟩) from rfl)
    (by rintro ⟨⟩)
    (ExprNode.wellFormed_mk.mpr ⟨by rintro _ ⟨⟩; rfl, by simpa using ⟨hleaf 0 1, hleaf 1 2⟩⟩)
  exact ⟨_, _, s₀, rfl, hs₀, rfl, hends⟩

end

end PGBigNumber.Infix
