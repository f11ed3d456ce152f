import PGBigNumber.Infix.Peval
import PGBigNumber.Parallel.Progress

/-!
# `peval` on the thread pool

The main thread of `peval` and the pool it has made, with the atomic steps of both: the three of each
`addTask`, those of the workers, which run the tasks of the nodes, and those of the destructor, which
runs behind the `get` of the root's value.
-/

namespace PGBigNumber.Infix

open Parallel (PoolState Act Worker taken)

/-- Where the main thread is: as in `Main`, in the `addTask` of the node `childIndex`, or in the
destructor of the pool with the value that is returned. -/
inductive PoolMain where
  | head
  | submit (left : Nat)
  | adding (left childIndex : Nat)
  | result
  | destroying (v : Int)
  | returned (v : Int)
  | exited (e : EvalStop)

def PoolMain.live : PoolMain → Bool
  | .returned _ | .exited _ => false
  | _ => true

/-- The variables of `peval`, the futures that are ready, the promises, and the pool. -/
structure PoolPeval (n : Nat) where
  main : PoolMain
  q : List Nat
  parents : Nat → Nat
  childCnt : Nat → Nat
  cnt : Nat
  currLevelFu : List Nat
  ready : List Nat
  valPromise : Nat → Option Int
  pool : PoolState n Nat

def PoolPeval.start (n : Nat) (pool : NodePool) : Option (PoolPeval n) := do
  let s ← pevalStart pool
  return { main := .head, q := s.q, parents := s.parents, childCnt := s.childCnt, cnt := s.cnt,
           currLevelFu := s.currLevelFu, ready := s.ready, valPromise := s.valPromise, pool := {} }

/-- A step of `addTask` for `childIndex`. When it has returned, the rest of the pass of the `for`
loop follows. -/
def PoolPeval.added {n : Nat} (s : PoolPeval n) (left childIndex : Nat) (pool : PoolState n Nat) :
    PoolPeval n :=
  if pool.call childIndex = .accepted ∨ pool.call childIndex = .rejected then
    let parent := s.parents childIndex
    let c := decrement (s.childCnt parent)
    { s with
      main := .submit left
      q := if c = 0 then s.q ++ [parent] else s.q
      childCnt := Function.update s.childCnt parent c
      cnt := s.cnt + 1
      currLevelFu := s.currLevelFu ++ [childIndex]
      pool }
  else { s with pool }

/-- What can happen next in `peval` with `n` workers, if the steps of the pool are in `ok`. -/
inductive PoolStep {n : Nat} (table : SymbolTable) (nodes : NodePool) (root : ExprNode)
    (ok : PoolState n Nat → Act n Nat → Prop) : PoolPeval n → PoolPeval n → Prop
  | level {s} (hmain : s.main = .head) (hcnt : s.cnt ≠ nodes.length) :
      PoolStep table nodes root ok s { s with main := .submit s.q.length }
  | take {s left childIndex q} (hmain : s.main = .submit (left + 1)) (hq : s.q = childIndex :: q) :
      PoolStep table nodes root ok s { s with main := .adding left childIndex, q }
  | add {s left childIndex a pool} (hmain : s.main = .adding left childIndex)
      (ha : a.OfCall childIndex) (hok : ok s.pool a) (hstep : s.pool.step a = some pool) :
      PoolStep table nodes root ok s (s.added left childIndex pool)
  | wait {s} (hmain : s.main = .submit 0) (hready : ∀ fu ∈ s.currLevelFu, fu ∈ s.ready) :
      PoolStep table nodes root ok s { s with main := .head }
  | leave {s} (hmain : s.main = .head) (hcnt : s.cnt = nodes.length) :
      PoolStep table nodes root ok s { s with main := .result }
  | result {s k v} (hmain : s.main = .result) (hroot : root.indexInPool = some k)
      (hv : s.valPromise k = some v) :
      PoolStep table nodes root ok s { s with main := .destroying v }
  | destroy {s v a pool} (hmain : s.main = .destroying v) (ha : a.OfDestructor) (hok : ok s.pool a)
      (hstep : s.pool.step a = some pool) :
      PoolStep table nodes root ok s
        { s with
          main := if pool.destructor = .joined then .returned v else .destroying v
          pool }
  | work {s a pool} (hlive : s.main.live) (ha : a.OfWorker) (hok : ok s.pool a)
      (hstep : s.pool.step a = some pool) :
      PoolStep table nodes root ok s { s with pool }
  | finish {s w task node v pool} (hlive : s.main.live) (hw : s.pool.worker w = .took task)
      (hnode : nodes[task]? = some node)
      (hv : (pevalCallback table s.valPromise node).run = some (.ok v)) (hok : ok s.pool (.run w))
      (hstep : s.pool.step (.run w) = some pool) :
      PoolStep table nodes root ok s
        { s with
          ready := s.ready ++ [task]
          valPromise := Function.update s.valPromise task (some v)
          pool }
  | fail {s w task node e pool} (hlive : s.main.live) (hw : s.pool.worker w = .took task)
      (hnode : nodes[task]? = some node)
      (he : (pevalCallback table s.valPromise node).run = some (.error e))
      (hexception : e.isException) (hok : ok s.pool (.run w))
      (hstep : s.pool.step (.run w) = some pool) :
      PoolStep table nodes root ok s { s with ready := s.ready ++ [task], pool }
  | exit {s w task node e} (hlive : s.main.live) (hw : s.pool.worker w = .took task)
      (hnode : nodes[task]? = some node)
      (he : (pevalCallback table s.valPromise node).run = some (.error e))
      (hexception : ¬ e.isException) :
      PoolStep table nodes root ok s { s with main := .exited e }

variable {n : Nat} {table : SymbolTable} {nodes : NodePool} {root : ExprNode}
  {ok : PoolState n Nat → Act n Nat → Prop} {s s' : PoolPeval n} {a : PevalState}

/-- The main thread is where the scheduler has it, or on its way to there. -/
def Place (s : PoolPeval n) (a : PevalState) : PoolMain → Prop
  | .head => a.main = .head ∧ a.q = s.q ∧ s.pool.destructor = .idle
  | .submit left => a.main = .submit left ∧ a.q = s.q ∧ s.pool.destructor = .idle
  | .adding left childIndex => a.main = .submit (left + 1) ∧ a.q = childIndex :: s.q ∧
      s.pool.destructor = .idle ∧ s.pool.call childIndex ≠ .accepted ∧
      s.pool.call childIndex ≠ .rejected
  | .result => a.main = .result ∧ s.pool.destructor = .idle
  | .destroying v => a.main = .got v ∧ s.pool.destructor ≠ .joined
  | .returned v => a.main = .got v ∧ s.pool.destructor = .joined
  | .exited e => a.main = .exited e

/-- The scheduler's tasks are those in the queue of the pool and those that its workers have. -/
structure Matches (s : PoolPeval n) (a : PevalState) : Prop where
  parents : a.parents = s.parents
  childCnt : a.childCnt = s.childCnt
  cnt : a.cnt = s.cnt
  currLevelFu : a.currLevelFu = s.currLevelFu
  ready : a.ready = s.ready
  valPromise : a.valPromise = s.valPromise
  tasks : a.tasks = s.pool.data
  running : a.running.Perm (taken s.pool.worker)
  finished : s.pool.finished = s.ready
  accepted : ∀ t ∈ s.currLevelFu, s.pool.call t = .accepted
  idle : (∀ e, s.main ≠ .exited e) → ∀ t ∉ s.currLevelFu, s.pool.call t ≠ .idle →
    ∃ left, s.main = .adding left t
  place : Place s a s.main
  inv : Parallel.Inv s.pool
  live : Parallel.Live s.pool

/-- The steps in `addTask`, and what the pool does without a task. -/
def PoolPeval.rank (s : PoolPeval n) : Nat :=
  s.pool.rank +
    match s.main with
    | .submit (_ + 1) => 3
    | .adding _ childIndex =>
      match s.pool.call childIndex with
      | .idle => 2
      | .locked => 1
      | _ => 0
    | _ => 0

theorem Place.congr {a' : PevalState} {m : PoolMain} (h : Place s a m) (hmain : a'.main = a.main)
    (hq : a'.q = a.q) (hq' : s'.q = s.q) (hdestructor : s'.pool.destructor = s.pool.destructor)
    (hcall : s'.pool.call = s.pool.call) : Place s' a' m := by
  cases m <;> simp only [Place, hmain, hq, hq', hdestructor, hcall] at h ⊢ <;> exact h

theorem Matches.rests (h : Matches s a) {act : Act n Nat} {pool : PoolState n Nat} {main : PoolMain}
    (hstep : s.pool.step act = some pool) (hrests : Parallel.Rests s.pool pool)
    (hplace : Place { s with main, pool } a main)
    (hmain : main = s.main ∨ ∃ v, s.main = .destroying v) : Matches { s with main, pool } a where
  parents := h.parents
  childCnt := h.childCnt
  cnt := h.cnt
  currLevelFu := h.currLevelFu
  ready := h.ready
  valPromise := h.valPromise
  tasks := h.tasks.trans hrests.data.symm
  running := hrests.taken ▸ h.running
  finished := hrests.finished.trans h.finished
  accepted t ht := (congrFun hrests.call t).trans (h.accepted t ht)
  idle hexited t ht hne := by
    have hne' : s.pool.call t ≠ .idle := fun hidle => hne ((congrFun hrests.call t).trans hidle)
    rcases hmain with rfl | ⟨v, hv⟩
    · exact h.idle hexited t ht hne'
    · have hexited' : ∀ e, s.main ≠ .exited e := by simp [hv]
      obtain ⟨left, hadding⟩ := h.idle hexited' t ht hne'
      rw [hv] at hadding
      cases hadding
  place := hplace
  inv := h.inv.step hstep
  live := h.live.step h.inv hstep

section

variable {left c : Nat} {act : Act n Nat} {pool : PoolState n Nat}

theorem Matches.calling (h : Matches s a) (hmain : s.main = .adding left c)
    (hc : c ∉ s.currLevelFu) {call : Parallel.Call} (hstep : s.pool.step act = some pool)
    (hdata : pool.data = s.pool.data) (hcall : pool.call = Function.update s.pool.call c call)
    (hne : call ≠ .accepted ∧ call ≠ .rejected) (hfinished : pool.finished = s.pool.finished)
    (hworker : pool.worker = s.pool.worker) (hdestructor : pool.destructor = s.pool.destructor) :
    s.added left c pool = { s with pool } ∧ Matches { s with pool } a := by
  have hself : pool.call c = call := by rw [hcall, Function.update_self]
  refine ⟨?_, ⟨h.parents, h.childCnt, h.cnt, h.currLevelFu, h.ready, h.valPromise,
    h.tasks.trans hdata.symm, hworker ▸ h.running, hfinished.trans h.finished, fun t ht => ?_,
    fun hexited t ht hidle => ?_, ?_, h.inv.step hstep, h.live.step h.inv hstep⟩⟩
  · rw [PoolPeval.added, hself, if_neg (not_or.mpr hne)]
  · have htc : t ≠ c := fun htc => hc (htc ▸ ht)
    change pool.call t = _
    rw [hcall, Function.update_of_ne htc]
    exact h.accepted t ht
  · by_cases htc : t = c
    · exact ⟨left, htc ▸ hmain⟩
    · change pool.call t ≠ _ at hidle
      rw [hcall, Function.update_of_ne htc] at hidle
      exact h.idle hexited t ht hidle
  · have hplace := h.place
    rw [hmain] at hplace
    change Place _ a s.main
    rw [hmain]
    exact ⟨hplace.1, hplace.2.1, hdestructor.trans hplace.2.2.1, hself ▸ hne⟩

theorem Matches.submitted (h : Matches s a) (hmain : s.main = .adding left c)
    (hstep : s.pool.step act = some pool) (hdata : pool.data = s.pool.data ++ [c])
    (hcall : pool.call = Function.update s.pool.call c .accepted)
    (hfinished : pool.finished = s.pool.finished) (htaken : taken pool.worker = taken s.pool.worker)
    (hdestructor : pool.destructor = s.pool.destructor) :
    Matches (s.added left c pool) (a.submitNode left c s.q) := by
  have hself : pool.call c = .accepted := by rw [hcall, Function.update_self]
  have hplace := h.place
  rw [hmain] at hplace
  have hadded : s.added left c pool =
      { s with
        main := .submit left
        q := if decrement (s.childCnt (s.parents c)) = 0 then s.q ++ [s.parents c] else s.q
        childCnt := Function.update s.childCnt (s.parents c)
          (decrement (s.childCnt (s.parents c)))
        cnt := s.cnt + 1
        currLevelFu := s.currLevelFu ++ [c]
        pool } := if_pos (.inl hself)
  rw [hadded]
  refine ⟨h.parents, ?_, congrArg (· + 1) h.cnt, congrArg (· ++ [c]) h.currLevelFu, h.ready,
    h.valPromise, ?_, htaken ▸ h.running, hfinished.trans h.finished, fun t ht => ?_,
    fun _ t ht hidle => ?_, ⟨rfl, ?_, hdestructor.trans hplace.2.2.1⟩, h.inv.step hstep,
    h.live.step h.inv hstep⟩
  · simp only [PevalState.submitNode, h.parents, h.childCnt]
  · exact (congrArg (· ++ [c]) h.tasks).trans hdata.symm
  · change pool.call t = _
    rw [hcall, Function.update_apply]
    split
    · rfl
    next htc =>
      exact h.accepted t ((List.mem_append.mp ht).resolve_right fun hmem =>
        htc (List.mem_singleton.mp hmem))
  · have hout := not_or.mp fun hor => ht (List.mem_append.mpr hor)
    have htc : t ≠ c := fun htc => hout.2 (List.mem_singleton.mpr htc)
    change pool.call t ≠ _ at hidle
    rw [hcall, Function.update_of_ne htc] at hidle
    obtain ⟨left', hmain'⟩ := h.idle (by simp [hmain]) t hout.1 hidle
    rw [hmain] at hmain'
    cases hmain'
    exact absurd rfl htc
  · simp only [PevalState.submitNode, h.parents, h.childCnt]

theorem Matches.add (h : Matches s a) (horder : Order nodes.length nodes.kids a)
    (hmain : s.main = .adding left c) (hact : act.OfCall c)
    (hstep : s.pool.step act = some pool) :
    (Matches (s.added left c pool) a ∧ (s.added left c pool).rank < s.rank) ∨
      ∃ a', Step table nodes root n a a' ∧ Matches (s.added left c pool) a' := by
  have hplace := h.place
  rw [hmain] at hplace
  obtain ⟨ha, hq, hdestructor, -⟩ := hplace
  have hc : c ∉ s.currLevelFu := by
    have hnodup := horder.nodup
    rw [hq, List.nodup_append] at hnodup
    intro hmem
    exact hnodup.2.2 c (h.currLevelFu ▸ hmem) c List.mem_cons_self rfl
  have hsubmit : Step table nodes root n a (a.submitNode left c s.q) := .submit ha hq
  cases PoolState.step_moves hstep with
  | pop | sleep | wake | run | readRunning | empty | stop | writeAlwaysPop | notifyAll | join =>
      exact hact.elim
  | @lock task _ hidle =>
      obtain rfl : task = c := hact
      obtain ⟨hadded, hmatches⟩ := h.calling hmain hc hstep rfl rfl (by simp) rfl rfl rfl
      rw [hadded]
      refine .inl ⟨hmatches, ?_⟩
      simp [PoolPeval.rank, hmain, hidle, PoolState.rank, PoolState.setCall]
  | @see task hlocked _ =>
      obtain rfl : task = c := hact
      obtain ⟨hadded, hmatches⟩ := h.calling hmain hc hstep rfl rfl (by simp) rfl rfl rfl
      rw [hadded]
      refine .inl ⟨hmatches, ?_⟩
      simp [PoolPeval.rank, hmain, hlocked, PoolState.rank, PoolState.setCall]
  | reject _ hrunning =>
      rw [h.live.running.mpr hdestructor] at hrunning
      cases hrunning
  | @accept task _ =>
      obtain rfl : task = c := hact
      exact .inr ⟨_, hsubmit, h.submitted hmain hstep rfl rfl rfl rfl rfl⟩
  | @acceptWaking task w _ hasleep =>
      obtain rfl : task = c := hact
      have htask : Worker.task .pop = (s.pool.worker w).task := by rw [hasleep]; rfl
      exact .inr ⟨_, hsubmit, h.submitted hmain hstep rfl rfl rfl (Parallel.taken_goOn htask) rfl⟩

end

section

variable {value : Nat → Eval Int} {act : Act n Nat} {pool : PoolState n Nat} {w : Fin n} {task : Nat}

theorem Work.idle_of_ready (hwork : Work nodes.length nodes.kids value a)
    (horder : Order nodes.length nodes.kids a) (hready : ∀ i ∈ a.currLevelFu, i ∈ a.ready) :
    a.tasks = [] ∧ a.running = [] := by
  have hnodup : (a.tasks ++ a.running ++ a.ready).Nodup :=
    hwork.tasks.nodup_iff.mpr (List.nodup_append.mp horder.nodup).1
  have hdisjoint := (List.nodup_append.mp hnodup).2.2
  have hnone : a.tasks ++ a.running = [] := by
    refine List.eq_nil_iff_forall_not_mem.mpr fun i hi => ?_
    have hfu : i ∈ a.currLevelFu := hwork.tasks.subset (List.mem_append_left _ hi)
    exact hdisjoint i hi i (hready i hfu) rfl
  exact List.append_eq_nil_iff.mp hnone

theorem Matches.main_cases (h : Matches s a) (hexited : ∀ e, s.main ≠ .exited e) :
    (a.main.live ∧ s.pool.destructor = .idle) ∨ ∃ v, a.main = .got v := by
  have hplace := h.place
  cases hmain : s.main with
  | head | result =>
      rw [hmain] at hplace
      obtain ⟨ha, hrest⟩ := hplace
      exact .inl ⟨by rw [ha]; rfl, by tauto⟩
  | submit | adding =>
      rw [hmain] at hplace
      obtain ⟨ha, -, hrest⟩ := hplace
      exact .inl ⟨by rw [ha]; rfl, by tauto⟩
  | destroying v | returned v =>
      rw [hmain] at hplace
      exact .inr ⟨v, hplace.1⟩
  | exited e => exact absurd hmain (hexited e)

theorem Matches.idle_of_got (h : Matches s a) (horder : Order nodes.length nodes.kids a)
    (hwork : Work nodes.length nodes.kids value a) {v : Int} (hv : a.main = .got v) :
    s.pool.data = [] ∧ ∀ w task, s.pool.worker w ≠ .took task := by
  have hphase := hwork.phase
  rw [hv] at hphase
  obtain ⟨htasks, hrunning⟩ := hwork.idle_of_ready horder hphase.2.1
  refine ⟨h.tasks.symm.trans htasks, fun w task hw => ?_⟩
  have hmem := h.running.symm.subset (Parallel.mem_taken.mpr ⟨w, hw⟩)
  rw [hrunning] at hmem
  cases hmem

theorem not_exited_of_live (hlive : s.main.live) : ∀ e, s.main ≠ .exited e := by
  intro e he
  rw [he] at hlive
  cases hlive

theorem Matches.scheduler_live (h : Matches s a) (horder : Order nodes.length nodes.kids a)
    (hwork : Work nodes.length nodes.kids value a) (hlive : s.main.live)
    (htask : s.pool.data ≠ [] ∨ ∃ w task, s.pool.worker w = .took task) : a.main.live := by
  rcases h.main_cases (not_exited_of_live hlive) with ⟨ha, -⟩ | ⟨v, hv⟩
  · exact ha
  · obtain ⟨hdata, hworkers⟩ := h.idle_of_got horder hwork hv
    rcases htask with hne | ⟨w, task, hw⟩
    · exact absurd hdata hne
    · exact absurd hw (hworkers w task)

theorem Matches.took (h : Matches s a) {data : List Nat} (hw : s.pool.worker w = .pop)
    (hdata : s.pool.data = task :: data) (hstep : s.pool.step (.pop w) = some (s.pool.pop w)) :
    Matches { s with pool := s.pool.pop w }
      { a with tasks := a.tasks.erase task, running := a.running ++ [task] } := by
  have hpop : s.pool.pop w = { s.pool.setWorker w (.took task) with data } := by
    rw [PoolState.pop, hdata]
  have hnone : (s.pool.worker w).task = none := by rw [hw]; rfl
  refine ⟨h.parents, h.childCnt, h.cnt, h.currLevelFu, h.ready, h.valPromise, ?_, ?_,
    by rw [hpop]; exact h.finished, by rw [hpop]; exact h.accepted, by rw [hpop]; exact h.idle, ?_,
    h.inv.step hstep, h.live.step h.inv hstep⟩
  · change a.tasks.erase task = (s.pool.pop w).data
    rw [hpop, h.tasks, hdata, List.erase_cons_head]
  · rw [hpop]
    exact (h.running.append_right [task]).trans (Parallel.taken_took hnone).symm
  · rw [hpop]
    exact h.place.congr rfl rfl rfl rfl rfl

theorem Matches.work (h : Matches s a) (horder : Order nodes.length nodes.kids a)
    (hwork : Work nodes.length nodes.kids value a) (hlive : s.main.live) (hact : act.OfWorker)
    (hstep : s.pool.step act = some pool) :
    (Matches { s with pool } a ∧ (act.Spurious ∨ ({ s with pool } : PoolPeval n).rank < s.rank)) ∨
      ∃ a', Step table nodes root n a a' ∧ Matches { s with pool } a' := by
  by_cases htakes : ∃ w task data, act = .pop w ∧ s.pool.data = task :: data
  · obtain ⟨w, task, data, rfl, hdata⟩ := htakes
    obtain ⟨hw, rfl⟩ : s.pool.worker w = .pop ∧ s.pool.pop w = pool := by
      cases PoolState.step_moves hstep with
      | pop _ hw => exact ⟨hw, rfl⟩
    have halive := h.scheduler_live horder hwork hlive (.inl (by simp [hdata]))
    have hidle : a.running.length < n := by
      rw [h.running.length_eq]
      exact Parallel.length_taken_lt (by rw [hw]; rfl)
    exact .inr ⟨_, .start halive (by simp [h.tasks, hdata]) hidle, h.took hw hdata hstep⟩
  have hpop : ∀ w, act = .pop w → s.pool.data = [] := by
    intro w hw
    cases hdata : s.pool.data with
    | nil => rfl
    | cons task data => exact absurd ⟨w, task, data, hw, hdata⟩ htakes
  have hrests := Parallel.rests (.inl hact) hpop hstep
  have hplace : Place { s with pool } a s.main :=
    h.place.congr rfl rfl rfl (Parallel.destructor_of_worker hact hstep) hrests.call
  refine .inl ⟨h.rests hstep hrests hplace (.inl rfl), ?_⟩
  by_cases hwake : act.Spurious
  · exact .inl hwake
  have hempty : s.pool.running = false → s.pool.data = [] := by
    intro hrunning
    rcases h.main_cases (not_exited_of_live hlive) with ⟨-, hidle⟩ | ⟨v, hv⟩
    · rw [h.live.running.mpr hidle] at hrunning
      cases hrunning
    · exact (h.idle_of_got horder hwork hv).1
  have hlt := Parallel.rank_lt h.live h.inv (.inl hact) hwake hpop hempty hstep
  refine .inr ?_
  simp only [PoolPeval.rank, hrests.call]
  omega

theorem Matches.destroy (h : Matches s a) (horder : Order nodes.length nodes.kids a)
    (hwork : Work nodes.length nodes.kids value a) {v : Int} (hmain : s.main = .destroying v)
    (hact : act.OfDestructor) (hstep : s.pool.step act = some pool) :
    Matches { s with main := if pool.destructor = .joined then .returned v else .destroying v, pool }
      a ∧ ({ s with main := if pool.destructor = .joined then .returned v else .destroying v, pool } :
        PoolPeval n).rank < s.rank := by
  have hplace := h.place
  rw [hmain] at hplace
  have hdata := (h.idle_of_got horder hwork hplace.1).1
  have hrests := Parallel.rests (.inr hact) (fun _ _ => hdata) hstep
  have hwake : ¬ act.Spurious := by cases act <;> simp_all [Act.OfDestructor, Act.Spurious]
  have hlt := Parallel.rank_lt h.live h.inv (.inr hact) hwake (fun _ _ => hdata) (fun _ => hdata) hstep
  refine ⟨h.rests hstep hrests ?_ (.inr ⟨v, hmain⟩), ?_⟩
  · split
    next hjoined => exact ⟨hplace.1, hjoined⟩
    next hjoined => exact ⟨hplace.1, hjoined⟩
  · have hzero : ({ s with main := if pool.destructor = .joined then .returned v else .destroying v, pool } : PoolPeval n).rank = pool.rank := by
      unfold PoolPeval.rank
      split <;> split <;> simp_all
    have hle : s.pool.rank ≤ s.rank := Nat.le_add_right _ _
    omega

theorem Matches.ran (h : Matches s a) (hw : s.pool.worker w = .took task)
    (hstep : s.pool.step (.run w) = some pool) (valPromise : Nat → Option Int) :
    Matches { s with ready := s.ready ++ [task], valPromise, pool }
      { a with running := a.running.erase task, ready := a.ready ++ [task], valPromise } := by
  obtain rfl : { s.pool.setWorker w .test with finished := s.pool.finished ++ [task] } = pool := by
    cases PoolState.step_moves hstep with
    | run hw' =>
        rw [hw] at hw'
        cases hw'
        rfl
  exact ⟨h.parents, h.childCnt, h.cnt, h.currLevelFu, congrArg (· ++ [task]) h.ready, rfl, h.tasks,
    (h.running.erase task).trans (Parallel.taken_run hw rfl).symm, congrArg (· ++ [task]) h.finished,
    h.accepted, h.idle, h.place.congr rfl rfl rfl rfl rfl, h.inv.step hstep, h.live.step h.inv hstep⟩

end

theorem Matches.moved (h : Matches s a) {main : PoolMain} {amain : Main}
    (hplace : Place { s with main } { a with main := amain } main)
    (hadding : (∀ left t, s.main ≠ .adding left t) ∨ ∃ e, main = .exited e)
    (hexited : ∀ e, s.main ≠ .exited e) : Matches { s with main } { a with main := amain } where
  parents := h.parents
  childCnt := h.childCnt
  cnt := h.cnt
  currLevelFu := h.currLevelFu
  ready := h.ready
  valPromise := h.valPromise
  tasks := h.tasks
  running := h.running
  finished := h.finished
  accepted := h.accepted
  idle hlive t ht hne := by
    rcases hadding with hmain | ⟨e, he⟩
    · obtain ⟨left, hleft⟩ := h.idle hexited t ht hne
      exact absurd hleft (hmain left t)
    · exact absurd he (hlive e)
  place := hplace
  inv := h.inv
  live := h.live

theorem Matches.take (h : Matches s a) (horder : Order nodes.length nodes.kids a) {left c : Nat}
    {q : List Nat} (hmain : s.main = .submit (left + 1)) (hq : s.q = c :: q) :
    Matches { s with main := .adding left c, q } a ∧
      ({ s with main := .adding left c, q } : PoolPeval n).rank < s.rank := by
  have hplace := h.place
  rw [hmain] at hplace
  obtain ⟨ha, haq, hdestructor⟩ := hplace
  have hc : c ∉ s.currLevelFu := by
    have hnodup := horder.nodup
    rw [haq, hq, List.nodup_append] at hnodup
    intro hmem
    exact hnodup.2.2 c (h.currLevelFu ▸ hmem) c List.mem_cons_self rfl
  have hidle : ∀ t ∉ s.currLevelFu, s.pool.call t = .idle := by
    intro t ht
    by_contra hne
    obtain ⟨left', hadding⟩ := h.idle (by simp [hmain]) t ht hne
    rw [hmain] at hadding
    cases hadding
  refine ⟨⟨h.parents, h.childCnt, h.cnt, h.currLevelFu, h.ready, h.valPromise, h.tasks, h.running,
    h.finished, h.accepted, fun _ t ht hne => absurd (hidle t ht) hne, ?_, h.inv, h.live⟩, ?_⟩
  · exact ⟨ha, haq.trans hq, hdestructor, by simp [hidle c hc], by simp [hidle c hc]⟩
  · simp [PoolPeval.rank, hmain, hidle c hc]

/-- The pool does nothing that the scheduler does not allow. -/
theorem Matches.step {value : Nat → Eval Int} (h : Matches s a)
    (horder : Order nodes.length nodes.kids a) (hwork : Work nodes.length nodes.kids value a)
    (hstep : PoolStep table nodes root ok s s') :
    (Matches s' a ∧ ((∃ act, act.Spurious ∧ ok s.pool act) ∨ s'.rank < s.rank)) ∨
      ∃ a', Step table nodes root n a a' ∧ Matches s' a' := by
  have hplace := h.place
  cases hstep with
  | level hmain hcnt =>
      rw [hmain] at hplace
      obtain ⟨ha, hq, hdestructor⟩ := hplace
      refine .inr ⟨_, .level ha (h.cnt ▸ hcnt), ?_⟩
      exact h.moved ⟨by rw [hq], hq, hdestructor⟩ (.inl (by simp [hmain])) (by simp [hmain])
  | take hmain hq =>
      obtain ⟨hmatches, hlt⟩ := h.take horder hmain hq
      exact .inl ⟨hmatches, .inr hlt⟩
  | add hmain hact _ hstep =>
      rcases h.add horder hmain hact hstep with ⟨hmatches, hlt⟩ | hnext
      · exact .inl ⟨hmatches, .inr hlt⟩
      · exact .inr hnext
  | wait hmain hready =>
      rw [hmain] at hplace
      obtain ⟨ha, hq, hdestructor⟩ := hplace
      have hready' : ∀ fu ∈ a.currLevelFu, fu ∈ a.ready := by rwa [h.currLevelFu, h.ready]
      refine .inr ⟨_, .wait ha hready', ?_⟩
      exact h.moved ⟨rfl, hq, hdestructor⟩ (.inl (by simp [hmain])) (by simp [hmain])
  | leave hmain hcnt =>
      rw [hmain] at hplace
      obtain ⟨ha, -, hdestructor⟩ := hplace
      refine .inr ⟨_, .leave ha (h.cnt ▸ hcnt), ?_⟩
      exact h.moved ⟨rfl, hdestructor⟩ (.inl (by simp [hmain])) (by simp [hmain])
  | result hmain hroot hv =>
      rw [hmain] at hplace
      refine .inr ⟨_, .result hplace.1 hroot (h.valPromise ▸ hv), ?_⟩
      exact h.moved ⟨rfl, by simp [hplace.2]⟩ (.inl (by simp [hmain])) (by simp [hmain])
  | destroy hmain hact _ hstep =>
      obtain ⟨hmatches, hlt⟩ := h.destroy horder hwork hmain hact hstep
      exact .inl ⟨hmatches, .inr hlt⟩
  | @work act _ hlive hact hok hstep =>
      rcases h.work horder hwork hlive hact hstep with ⟨hmatches, hwake | hlt⟩ | hnext
      · exact .inl ⟨hmatches, .inl ⟨act, hwake, hok⟩⟩
      · exact .inl ⟨hmatches, .inr hlt⟩
      · exact .inr hnext
  | @finish w task node v _ hlive hw hnode hv _ hstep =>
      have halive := h.scheduler_live horder hwork hlive (.inr ⟨w, task, hw⟩)
      have htask : task ∈ a.running := h.running.symm.subset (Parallel.mem_taken.mpr ⟨w, hw⟩)
      have hran := h.ran hw hstep (Function.update s.valPromise task (some v))
      rw [← h.valPromise] at hv
      refine .inr ⟨_, .finish halive htask hnode hv, ?_⟩
      rwa [h.valPromise]
  | @fail w task node e _ hlive hw hnode he hexception _ hstep =>
      have halive := h.scheduler_live horder hwork hlive (.inr ⟨w, task, hw⟩)
      have htask : task ∈ a.running := h.running.symm.subset (Parallel.mem_taken.mpr ⟨w, hw⟩)
      have hran := h.ran hw hstep s.valPromise
      rw [← h.valPromise] at he
      have hsame : { a with running := a.running.erase task, ready := a.ready ++ [task] } =
          { a with running := a.running.erase task, ready := a.ready ++ [task],
                   valPromise := s.valPromise } := by rw [← h.valPromise]
      exact .inr ⟨_, .fail halive htask hnode he hexception, hsame ▸ hran⟩
  | @exit w task node e hlive hw hnode he hexception =>
      have halive := h.scheduler_live horder hwork hlive (.inr ⟨w, task, hw⟩)
      have htask : task ∈ a.running := h.running.symm.subset (Parallel.mem_taken.mpr ⟨w, hw⟩)
      rw [← h.valPromise] at he
      refine .inr ⟨_, .exit halive htask hnode he hexception, ?_⟩
      exact h.moved rfl (.inr ⟨e, rfl⟩) (not_exited_of_live hlive)

end PGBigNumber.Infix
