import PGBigNumber.Infix.OnPool

/-!
# Runs of `peval` on the thread pool

Whatever the interleaving, no node is evaluated twice or before its children, and a value that is
returned is that of `eval`. If no sleeper wakes by itself, all interleavings come to the end of
`peval`, unless the destructor of the pool waits for a worker that is stranded.
-/

namespace PGBigNumber.Infix

open Parallel (PoolState Act taken)

variable {n : Nat} {table : SymbolTable} {nodes : NodePool} {root : ExprNode}
  {ok : PoolState n Nat → Act n Nat → Prop} {s s' : PoolPeval n} {a : PevalState} {v : Int}

theorem PoolOf.values_of_no_status (h : PoolOf table nodes root)
    (hvalues : ∀ node ∈ nodes, ∀ code, evalCallback table node ≠ .error (.status code)) :
    ∀ node ∈ nodes, ∃ w, evalCallback table node = .ok w := by
  intro node hnode
  cases hnode' : evalCallback table node with
  | ok w => exact ⟨w, rfl⟩
  | error e =>
      obtain ⟨code, rfl⟩ := h.stops_status hnode e hnode'
      exact absurd hnode' (hvalues node hnode code)

theorem no_status_of_values (hvalues : ∀ node ∈ nodes, ∃ w, evalCallback table node = .ok w) :
    ∀ node ∈ nodes, ∀ code, evalCallback table node ≠ .error (.status code) := by
  intro node hnode code herr
  obtain ⟨w, hw⟩ := hvalues node hnode
  rw [hw] at herr
  cases herr

theorem start_spec (h : PoolOf table nodes root) (n : Nat) :
    ∃ s a, PoolPeval.start n nodes = some s ∧ pevalStart nodes = some a ∧ Matches s a ∧
      Order nodes.length nodes.kids a ∧
      Work nodes.length nodes.kids (valueAt table nodes) a ∧ a.main = .head ∧ s.pool = {} := by
  obtain ⟨a, ha, horder, hwork, hmain⟩ := pevalStart_spec h
  obtain ⟨a', ha', hset⟩ : ∃ a', pevalStart nodes = some a' ∧ SetUp nodes nodes.length a' :=
    setup_spec h rfl (Nat.zero_le _)
      ⟨rfl, by simp, fun _ _ => rfl, by simp, rfl, rfl, rfl, rfl, rfl, rfl⟩
  obtain rfl := Option.some.inj (ha.symm.trans ha')
  obtain ⟨hfu, htasks, hrunning, hready⟩ := hset.noTasks
  have htaken : taken ({} : PoolState n Nat).worker = [] := Parallel.taken_eq_nil (by rintro _ _ ⟨⟩)
  refine ⟨⟨.head, a.q, a.parents, a.childCnt, a.cnt, a.currLevelFu, a.ready, a.valPromise, {}⟩, a,
    by rw [PoolPeval.start, ha]; rfl, ha, ⟨rfl, rfl, rfl, rfl, rfl, rfl, htasks,
      .of_eq (hrunning.trans htaken.symm), hready.symm, fun t ht => ?_,
      fun _ _ _ hne => absurd rfl hne, ⟨hmain, rfl, rfl⟩, Parallel.inv_init, Parallel.live_init⟩,
    horder, hwork, hmain, rfl⟩
  rw [hfu] at ht
  cases ht

structure Sane (table : SymbolTable) (nodes : NodePool) (root : ExprNode) (s : PoolPeval n) : Prop where
  nodup : (s.pool.data ++ taken s.pool.worker ++ s.pool.finished).Nodup
  kids : ∀ w task, s.pool.worker w = .took task → ∀ j ∈ nodes.kids task, j ∈ s.pool.finished
  returned : ∀ v, s.main = .returned v → evalCallback table root = .ok v ∧
    (∀ w, s.pool.worker w = .returned) ∧ s.pool.finished.Perm (List.range nodes.length)

theorem Matches.tasks_perm (h : Matches s a)
    (hwork : Work nodes.length nodes.kids (valueAt table nodes) a) :
    (s.pool.data ++ taken s.pool.worker ++ s.pool.finished).Perm s.currLevelFu := by
  have hperm := hwork.tasks
  rw [h.tasks, h.ready, h.currLevelFu] at hperm
  rw [h.finished]
  exact ((h.running.symm.append_left _).append_right _).trans hperm

theorem Matches.sane (h : PoolOf table nodes root) (hm : Matches s a)
    (horder : Order nodes.length nodes.kids a)
    (hwork : Work nodes.length nodes.kids (valueAt table nodes) a) : Sane table nodes root s := by
  have hperm := hm.tasks_perm hwork
  have hnodup : s.currLevelFu.Nodup := hm.currLevelFu ▸ (List.nodup_append.mp horder.nodup).1
  refine ⟨hperm.nodup_iff.mpr hnodup, fun w task hw j hj => ?_, fun v hv => ?_⟩
  · have htask : task ∈ s.currLevelFu :=
      hperm.subset (List.mem_append_left _ (List.mem_append_right _ (Parallel.mem_taken.mpr ⟨w, hw⟩)))
    rw [hm.finished, ← hm.ready]
    exact hwork.kidsReady task (hm.currLevelFu ▸ htask) j hj
  · have hplace := hm.place
    rw [hv] at hplace
    have hphase := hwork.phase
    rw [hplace.1] at hphase
    obtain ⟨hcnt, hready, hvalue⟩ := hphase
    rw [h.value_root] at hvalue
    refine ⟨hvalue, hm.live.joined hplace.2, ?_⟩
    obtain ⟨hdata, htook⟩ := hm.idle_of_got horder hwork hplace.1
    rw [hdata, Parallel.taken_eq_nil htook, List.nil_append, List.nil_append] at hperm
    refine hperm.trans ((List.perm_ext_iff_of_nodup hnodup List.nodup_range).mpr fun i => ?_)
    rw [List.mem_range, ← hm.currLevelFu]
    exact ⟨horder.lt, horder.all_of_cnt hcnt⟩

/-- The scheduler's state that a state matches is within its invariants. -/
structure Tracks (table : SymbolTable) (nodes : NodePool) (s : PoolPeval n) (a : PevalState) :
    Prop where
  matched : Matches s a
  order : Order nodes.length nodes.kids a
  work : Work nodes.length nodes.kids (valueAt table nodes) a

theorem Tracks.step (h : PoolOf table nodes root) (hs : Tracks table nodes s a)
    (hstep : PoolStep table nodes root ok s s') :
    (Tracks table nodes s' a ∧ ((∃ act, act.Spurious ∧ ok s.pool act) ∨ s'.rank < s.rank)) ∨
      ∃ a', Step table nodes root n a a' ∧ Tracks table nodes s' a' := by
  rcases hs.matched.step hs.order hs.work hstep with ⟨hm, hrank⟩ | ⟨a', hA, hm⟩
  · exact .inl ⟨⟨hm, hs.order, hs.work⟩, hrank⟩
  · obtain ⟨horder, hwork⟩ := h.step hs.order hs.work hA
    exact .inr ⟨a', hA, hm, horder, hwork⟩

theorem Matches.free (h : Matches s a) (hexited : ∀ e, s.main ≠ .exited e)
    (hadding : ∀ left t, s.main ≠ .adding left t) (t : Nat) :
    s.pool.call t ≠ .locked ∧ s.pool.call t ≠ .saw := by
  by_cases ht : t ∈ s.currLevelFu
  · simp [h.accepted t ht]
  · have hidle : s.pool.call t = .idle := by
      by_contra hne
      obtain ⟨left, hleft⟩ := h.idle hexited t ht hne
      exact hadding left t hleft
    simp [hidle]

def Finds (p : PoolState n Nat) (act : Act n Nat) : Prop := ∀ w, act = .pop w → p.data ≠ []

section

variable (hok : ∀ (p : PoolState n Nat) (act : Act n Nat), ¬ act.Spurious → ¬ act.OfDestructor →
  Finds p act → ok p act)
include hok

private theorem work_step (hlive : s.main.live) {act : Act n Nat} {pool : PoolState n Nat}
    (hact : act.OfWorker) (hwake : ¬ act.Spurious) (hfinds : Finds s.pool act)
    (hstep : s.pool.step act = some pool) : ∃ s', PoolStep table nodes root ok s s' := by
  have hdestructor : ¬ act.OfDestructor := by cases act <;> simp_all [Act.OfWorker, Act.OfDestructor]
  exact ⟨_, .work hlive hact (hok _ _ hwake hdestructor hfinds) hstep⟩

private theorem finish_step (h : PoolOf table nodes root)
    (hvalues : ∀ node ∈ nodes, ∃ w, evalCallback table node = .ok w)
    (hs : Tracks table nodes s a) (hlive : s.main.live) {w : Fin n} {task : Nat}
    (hw : s.pool.worker w = .took task) : ∃ s', PoolStep table nodes root ok s s' := by
  have htask : task ∈ a.running := hs.matched.running.symm.subset (Parallel.mem_taken.mpr ⟨w, hw⟩)
  have hfu : task ∈ a.currLevelFu := hs.work.tasks.subset (by simp [htask])
  have hnode := List.getElem?_eq_getElem (hs.order.lt hfu)
  obtain ⟨x, hx⟩ := hvalues _ (List.getElem_mem (hs.order.lt hfu))
  have hrun := h.pevalCallback_eq hs.work htask hnode
  rw [hx, hs.matched.valPromise] at hrun
  have hstep : s.pool.step (.run w) =
      some { s.pool.setWorker w .test with finished := s.pool.finished ++ [task] } := by
    rw [PoolState.step, hw]
  exact ⟨_, .finish hlive hw hnode hrun (hok _ _ id id (by rintro _ ⟨⟩)) hstep⟩

private theorem add_step (hm : Matches s a) {left c : Nat} (hmain : s.main = .adding left c) :
    ∃ s', PoolStep table nodes root ok s s' := by
  have hplace := hm.place
  rw [hmain] at hplace
  obtain ⟨-, -, -, haccepted, hrejected⟩ := hplace
  have hadd (act : Act n Nat) (hact : act.OfCall c)
      (hstep : ∃ pool, s.pool.step act = some pool) : ∃ s', PoolStep table nodes root ok s s' := by
    obtain ⟨pool, hstep⟩ := hstep
    have hok' : ok s.pool act := by
      cases act with
      | lock | cond | emplace => exact hok _ _ id id (by rintro _ ⟨⟩)
      | _ => exact hact.elim
    exact ⟨_, .add hmain hact hok' hstep⟩
  cases hcall : s.pool.call c with
  | idle =>
      rcases hm.inv.mutex_cases with hmutex | ⟨w, hw⟩ | ⟨t, ht⟩
      · exact hadd (.lock c) rfl ⟨_, if_pos ⟨hmutex, hcall⟩⟩
      · obtain ⟨pool, hpool⟩ := Parallel.sleep_due hw
        have hact : (Act.sleep w : Act n Nat).OfWorker := trivial
        exact work_step hok (by rw [hmain]; rfl) hact id (by rintro _ ⟨⟩) hpool
      · have htc : t = c := by
          by_cases hfu : t ∈ s.currLevelFu
          · rw [hm.accepted t hfu] at ht
            simp at ht
          · obtain ⟨left', hleft⟩ := hm.idle (by simp [hmain]) t hfu (by rcases ht with ht | ht <;> simp [ht])
            rw [hmain] at hleft
            cases hleft
            rfl
        rw [htc, hcall] at ht
        simp at ht
  | locked =>
      refine hadd (.cond c) rfl ?_
      rw [PoolState.step, if_pos hcall]
      split <;> exact ⟨_, rfl⟩
  | saw =>
      obtain ⟨woken, hstep⟩ := Parallel.emplace_due hcall
      exact hadd (.emplace c woken) rfl hstep
  | accepted => exact absurd hcall haccepted
  | rejected => exact absurd hcall hrejected

theorem Tracks.progress (h : PoolOf table nodes root) (hs : Tracks table nodes s a)
    (hvalues : ∀ node ∈ nodes, ∃ w, evalCallback table node = .ok w) (hn : 1 ≤ n)
    (hroot : evalCallback table root = .ok v) (hexited : ∀ e, s.main ≠ .exited e) :
    s.main = .returned v ∨ (∃ w, s.main = .destroying w) ∨ ∃ s', PoolStep table nodes root ok s s' := by
  obtain ⟨hm, horder, hwork⟩ := id hs
  have hplace := hm.place
  have hphase := hwork.phase
  cases hmain : s.main with
  | head =>
      by_cases hcnt : s.cnt = nodes.length
      · exact .inr (.inr ⟨_, .leave hmain hcnt⟩)
      · exact .inr (.inr ⟨_, .level hmain hcnt⟩)
  | submit left =>
      rw [hmain] at hplace
      obtain ⟨ha, hq, hdestructor⟩ := hplace
      rw [ha] at hphase
      cases left with
      | succ left =>
          cases hq' : s.q with
          | nil =>
              have hle := hphase.1
              rw [hq, hq'] at hle
              cases hle
          | cons c q => exact .inr (.inr ⟨_, .take hmain hq'⟩)
      | zero =>
          have hlive : s.main.live := by rw [hmain]; rfl
          have hfree := hm.free hexited (by simp [hmain])
          by_cases htook : ∃ w task, s.pool.worker w = .took task
          · obtain ⟨w, task, hw⟩ := htook
            exact .inr (.inr (finish_step hok h hvalues hs hlive hw))
          by_cases hready : ∀ fu ∈ s.currLevelFu, fu ∈ s.ready
          · exact .inr (.inr ⟨_, .wait hmain hready⟩)
          have hdata : s.pool.data ≠ [] := by
            intro hdata
            have hperm := hm.tasks_perm hwork
            have htaken : taken s.pool.worker = [] :=
              Parallel.taken_eq_nil fun w task hw => htook ⟨w, task, hw⟩
            rw [hdata, htaken, List.nil_append, List.nil_append, hm.finished] at hperm
            exact hready fun fu hfu => hperm.symm.subset hfu
          obtain ⟨w, hw⟩ := hm.live.onTheWay hn (hm.live.running.mpr hdestructor) hdata
          rcases Parallel.onTheWay_due hm.inv hfree hw with ⟨task, htask⟩ | hdue
          · exact absurd ⟨w, task, htask⟩ htook
          · obtain ⟨act, pool, hact, hwake, -, hstep⟩ := hdue
            exact .inr (.inr (work_step hok hlive hact hwake (fun _ _ => hdata) hstep))
  | adding left c => exact .inr (.inr (add_step hok hm hmain))
  | result =>
      rw [hmain] at hplace
      rw [hplace.1] at hphase
      have hlt : nodes.length - 1 < nodes.length := Nat.sub_lt h.shape.pos Nat.one_pos
      obtain ⟨w, hw, -⟩ := hwork.promise _ (hphase.2 _ (horder.all_of_cnt hphase.1 hlt))
      exact .inr (.inr ⟨_, .result hmain h.rootIndex (hm.valPromise ▸ hw)⟩)
  | destroying w => exact .inr (.inl ⟨w, rfl⟩)
  | returned w =>
      rw [hmain] at hplace
      rw [hplace.1] at hphase
      have hvalue := hphase.2.2
      rw [h.value_root, hroot] at hvalue
      exact .inl (congrArg PoolMain.returned (Except.ok.inj hvalue).symm)
  | exited e => exact absurd hmain (hexited e)

end

/-- The destructor goes on, or waits for a worker that is stranded. -/
theorem Tracks.destroying (hs : Tracks table nodes s a)
    (hok : ∀ (p : PoolState n Nat) (act : Act n Nat), ¬ act.Spurious → Parallel.Undecided p act →
      ok p act) {w : Int} (hmain : s.main = .destroying w) :
    Parallel.Stranded s.pool ∨ ∃ s', PoolStep table nodes root ok s s' := by
  have hplace := hs.matched.place
  rw [hmain] at hplace
  obtain ⟨ha, hjoined⟩ := hplace
  have htook := (hs.matched.idle_of_got hs.order hs.work ha).2
  have hfree := hs.matched.free (by simp [hmain]) (by simp [hmain])
  rcases Parallel.destructor_due hs.matched.inv hfree htook hjoined with hstranded | hdue
  · exact .inl hstranded
  obtain ⟨act, pool, hact | hact, hwake, hundecided, hstep⟩ := hdue
  · exact .inr ⟨_, .work (by rw [hmain]; rfl) hact (hok _ _ hwake hundecided) hstep⟩
  · exact .inr ⟨_, .destroy hmain hact (hok _ _ hwake hundecided) hstep⟩

theorem PoolStep.pool_eq (hstep : PoolStep table nodes root ok s s') :
    s'.pool = s.pool ∨ ∃ act, ok s.pool act ∧ s.pool.step act = some s'.pool := by
  cases hstep with
  | level | take | wait | leave | result | exit => exact .inl rfl
  | @add left c act pool _ _ hok hstep =>
      have hpool : (s.added left c pool).pool = pool := by
        unfold PoolPeval.added
        split <;> rfl
      exact .inr ⟨act, hok, hpool.symm ▸ hstep⟩
  | destroy _ _ hok hstep | work _ _ hok hstep => exact .inr ⟨_, hok, hstep⟩
  | finish _ _ _ _ hok hstep | fail _ _ _ _ _ hok hstep => exact .inr ⟨_, hok, hstep⟩

theorem not_step_of_got {a' : PevalState} (ha : a.main = .got v) :
    ¬ Step table nodes root n a a' := by
  intro hA
  have hdead : ¬ a.main.live := by simp [ha, Main.live]
  cases hA with
  | level hmain | submit hmain | wait hmain | leave hmain | result hmain =>
      rw [ha] at hmain
      cases hmain
  | start hlive | finish hlive | fail hlive | exit hlive => exact hdead hlive

theorem not_exited_of_matches (hm : Matches s a) (hexited : ∀ e, a.main ≠ .exited e) :
    ∀ e, s.main ≠ .exited e := by
  intro e he
  have hplace := hm.place
  rw [he] at hplace
  exact hexited e hplace

/-- `peval` on the pool comes to its end, in all interleavings whose steps are in `ok` and keep `I`. -/
theorem PoolOf.inevitable (h : PoolOf table nodes root)
    (hvalues : ∀ node ∈ nodes, ∃ w, evalCallback table node = .ok w) (hn : 1 ≤ n)
    (hroot : evalCallback table root = .ok v)
    (hok : ∀ (p : PoolState n Nat) (act : Act n Nat), ¬ act.Spurious →
      Parallel.Undecided p act → ok p act)
    (hquiet : ∀ p act, ok p act → ¬ act.Spurious) {I : PoolState n Nat → Prop} (hinit : I {})
    (hinv : ∀ p act p', I p → ok p act → p.step act = some p' → I p') :
    ∃ s₀, PoolPeval.start n nodes = some s₀ ∧
      Runs.Inevitable (PoolStep table nodes root ok) (fun s => s.main = .returned v ∨
        (∃ w, s.main = .destroying w) ∧ Parallel.Stranded s.pool ∧ I s.pool) s₀ := by
  obtain ⟨s₀, a₀, hstart, hstart', hm, horder, hwork, hmain, hpool⟩ := start_spec h n
  obtain ⟨a, ha, hinevitable⟩ := h.gets hvalues hn hroot
  obtain rfl := Option.some.inj (hstart'.symm.trans ha)
  refine ⟨s₀, hstart, Runs.Inevitable.of_simulation
    (R := fun s a => Tracks table nodes s a ∧ (∀ e, a.main ≠ .exited e) ∧ I s.pool)
    PoolPeval.rank ?_ ?_ ?_ ⟨⟨hm, horder, hwork⟩, by simp [hmain], by rw [hpool]; exact hinit⟩
    hinevitable⟩
  · rintro s a ⟨hs, hexited, hI⟩
    have hexited' := not_exited_of_matches hs.matched hexited
    have hok' : ∀ (p : PoolState n Nat) (act : Act n Nat), ¬ act.Spurious → ¬ act.OfDestructor →
        Finds p act → ok p act := by
      intro p act hwake hdestructor _
      refine hok p act hwake ?_
      cases act <;> first | trivial | exact absurd trivial hdestructor
    rcases hs.progress hok' h hvalues hn hroot hexited' with hreturned | ⟨w, hw⟩ | hnext
    · exact .inl (.inl hreturned)
    · rcases hs.destroying hok hw with hstranded | hnext
      · exact .inl (.inr ⟨⟨w, hw⟩, hstranded, hI⟩)
      · exact .inr hnext
    · exact .inr hnext
  · rintro s s' a ⟨hs, hexited, hI⟩ hstep
    have hI' : I s'.pool := by
      rcases hstep.pool_eq with heq | ⟨act, hact, hpool⟩
      · rw [heq]
        exact hI
      · exact hinv _ act _ hI hact hpool
    rcases hs.step h hstep with ⟨hs', ⟨act, hwake, hact⟩ | hlt⟩ | ⟨a', hA, hs'⟩
    · exact absurd hwake (hquiet _ act hact)
    · exact .inl ⟨⟨hs', hexited, hI'⟩, hlt⟩
    · have hrunning := (h.running_step hvalues ⟨hs.order, hs.work, hexited⟩ hA).1
      exact .inr ⟨a', hA, hs', hrunning.not_exited, hI'⟩
  · exact fun a a' hreturned => not_step_of_got hreturned

/-- The workers only look for tasks where there are some, and the destructor has not started. -/
def Busy (p : PoolState n Nat) (act : Act n Nat) : Prop :=
  ¬ act.Spurious ∧ ¬ act.OfDestructor ∧ Finds p act

structure Searching (table : SymbolTable) (nodes : NodePool) (root : ExprNode) (s₀ s : PoolPeval n) :
    Prop where
  idle : s.pool.destructor = .idle
  onTheWay : ∀ w, (s.pool.worker w).OnTheWay
  not_returned : ∀ v, s.main ≠ .returned v
  reached : Relation.ReflTransGen (PoolStep table nodes root fun _ act => ¬ act.Spurious) s₀ s

theorem onTheWay_step {p p' : PoolState n Nat} {act : Act n Nat} (hl : Parallel.Live p)
    (hidle : p.destructor = .idle) (hway : ∀ w, (p.worker w).OnTheWay) (hact : Busy p act)
    (hstep : p.step act = some p') : p'.destructor = .idle ∧ ∀ w, (p'.worker w).OnTheWay := by
  obtain ⟨hwake, hdestructor, hfinds⟩ := hact
  have hset {w : Fin n} {q : Parallel.Worker Nat} (hq : q.OnTheWay) :
      ∀ v, (Function.update p.worker w q v).OnTheWay :=
    (Function.forall_update_iff p.worker fun _ q => q.OnTheWay).mpr ⟨hq, fun v _ => hway v⟩
  cases PoolState.step_moves hstep with
  | lock | see | reject | accept => exact ⟨hidle, hway⟩
  | @acceptWaking _ w _ hw | @sleep w hw | @empty w _ hw =>
      have hw' := hway w
      rw [hw] at hw'
      exact hw'.elim
  | @pop w _ hw =>
      obtain ⟨task, data, hdata⟩ := List.exists_cons_of_ne_nil (hfinds w rfl)
      rw [PoolState.pop, hdata]
      exact ⟨hidle, hset trivial⟩
  | wake => exact absurd trivial hwake
  | run => exact ⟨hidle, hset trivial⟩
  | readRunning =>
      rw [hl.running.mpr hidle]
      exact ⟨hidle, hset trivial⟩
  | stop | writeAlwaysPop | notifyAll | join => exact absurd trivial hdestructor

theorem PoolStep.restrict {ok' : PoolState n Nat → Act n Nat → Prop}
    (hstep : PoolStep table nodes root ok s s')
    (h : ∀ act p, ok s.pool act → s.pool.step act = some p → ok' s.pool act) :
    PoolStep table nodes root ok' s s' := by
  cases hstep with
  | level hmain hcnt => exact .level hmain hcnt
  | take hmain hq => exact .take hmain hq
  | add hmain ha hok hstep => exact .add hmain ha (h _ _ hok hstep) hstep
  | wait hmain hready => exact .wait hmain hready
  | leave hmain hcnt => exact .leave hmain hcnt
  | result hmain hroot hv => exact .result hmain hroot hv
  | destroy hmain ha hok hstep => exact .destroy hmain ha (h _ _ hok hstep) hstep
  | work hlive ha hok hstep => exact .work hlive ha (h _ _ hok hstep) hstep
  | finish hlive hw hnode hv hok hstep => exact .finish hlive hw hnode hv (h _ _ hok hstep) hstep
  | fail hlive hw hnode he hex hok hstep =>
      exact .fail hlive hw hnode he hex (h _ _ hok hstep) hstep
  | exit hlive hw hnode he hex => exact .exit hlive hw hnode he hex

theorem Searching.step {s₀ : PoolPeval n} (hs : Searching table nodes root s₀ s)
    (hl : Parallel.Live s.pool) (hstep : PoolStep table nodes root Busy s s') :
    Searching table nodes root s₀ s' := by
  have hpool : s'.pool.destructor = .idle ∧ ∀ w, (s'.pool.worker w).OnTheWay := by
    rcases hstep.pool_eq with heq | ⟨act, hact, hpool⟩
    · rw [heq]
      exact ⟨hs.idle, hs.onTheWay⟩
    · exact onTheWay_step hl hs.idle hs.onTheWay hact hpool
  refine ⟨hpool.1, hpool.2, ?_, hs.reached.tail (hstep.restrict fun _ _ hact _ => hact.1)⟩
  cases hstep with
  | level | take | wait | leave | result | exit => simp
  | @add left c act pool hmain =>
      unfold PoolPeval.added
      split <;> simp [hmain]
  | destroy _ hact hok => exact absurd hact hok.2.1
  | work | finish | fail => exact hs.not_returned

theorem PoolOf.searching (h : PoolOf table nodes root)
    (hvalues : ∀ node ∈ nodes, ∃ w, evalCallback table node = .ok w) (hn : 1 ≤ n)
    (hroot : evalCallback table root = .ok v) :
    ∃ s₀ s a, PoolPeval.start n nodes = some s₀ ∧ Tracks table nodes s a ∧
      Searching table nodes root s₀ s ∧ ∃ w, s.main = .destroying w := by
  obtain ⟨s₀, a₀, hstart, hstart', hm, horder, hwork, hmain, hpool⟩ := start_spec h n
  obtain ⟨a, ha, hinevitable⟩ := h.gets hvalues hn hroot
  obtain rfl := Option.some.inj (hstart'.symm.trans ha)
  let R : PoolPeval n → PevalState → Prop := fun s a =>
    (Tracks table nodes s a ∧ ∀ e, a.main ≠ .exited e) ∧ Searching table nodes root s₀ s
  have hR₀ : R s₀ a₀ := by
    refine ⟨⟨⟨hm, horder, hwork⟩, by simp [hmain]⟩, ?_, ?_, fun w hw => ?_, .refl⟩
    · rw [hpool]
    · rw [hpool]
      exact fun _ => trivial
    · have hplace := hm.place
      rw [hw] at hplace
      have hhead := hmain.symm.trans hplace.1
      cases hhead
  have hstep : ∀ s s' a, R s a → PoolStep table nodes root Busy s s' →
      (R s' a ∧ s'.rank < s.rank) ∨ ∃ a', Step table nodes root n a a' ∧ R s' a' := by
    rintro s s' a ⟨⟨hs, hexited⟩, hsearch⟩ hnext
    have hsearch' := hsearch.step hs.matched.live hnext
    rcases hs.step h hnext with ⟨hs', ⟨act, hwake, hact⟩ | hlt⟩ | ⟨a', hA, hs'⟩
    · exact absurd hwake hact.1
    · exact .inl ⟨⟨⟨hs', hexited⟩, hsearch'⟩, hlt⟩
    · have hrunning := (h.running_step hvalues ⟨hs.order, hs.work, hexited⟩ hA).1
      exact .inr ⟨a', hA, ⟨hs', hrunning.not_exited⟩, hsearch'⟩
  have hprogress : ∀ s a, R s a → (∃ w, s.main = .destroying w) ∨
      ∃ s', PoolStep table nodes root Busy s s' := by
    rintro s a ⟨⟨hs, hexited⟩, hsearch⟩
    have hbusy : ∀ (p : PoolState n Nat) (act : Act n Nat), ¬ act.Spurious → ¬ act.OfDestructor →
        Finds p act → Busy p act :=
      fun _ _ hwake hdestructor hfinds => ⟨hwake, hdestructor, hfinds⟩
    rcases hs.progress hbusy h hvalues hn hroot (not_exited_of_matches hs.matched hexited) with
      hreturned | hdestroying | hnext
    · exact absurd hreturned (hsearch.not_returned v)
    · exact .inl hdestroying
    · exact .inr hnext
  have hreach := Runs.Inevitable.of_simulation PoolPeval.rank hprogress hstep
    (fun a a' hreturned => not_step_of_got hreturned) hR₀ hinevitable
  have hkeeps : ∀ s s', (∃ a, R s a) → PoolStep table nodes root Busy s s' → ∃ a, R s' a := by
    rintro s s' ⟨a, ha⟩ hnext
    rcases hstep s s' a ha hnext with ⟨ha', -⟩ | ⟨a', -, ha'⟩
    · exact ⟨a, ha'⟩
    · exact ⟨a', ha'⟩
  obtain ⟨s, ⟨a, ⟨hs, -⟩, hsearch⟩, hdestroying⟩ := hreach.exists_of_invariant hkeeps ⟨a₀, hR₀⟩
  exact ⟨s₀, s, a, hstart, hs, hsearch, hdestroying⟩

theorem reaches_of_pool (s : PoolPeval n) {w : Int} {acts : List (Act n Nat)}
    {p p' : PoolState n Nat}
    (hacts : ∀ act ∈ acts, (act.OfWorker ∨ act.OfDestructor) ∧ ¬ act.Spurious ∧ act ≠ .join)
    (hp : p.destructor ≠ .joined) (hrun : acts.foldlM PoolState.step p = some p') :
    Relation.ReflTransGen (PoolStep table nodes root fun _ act => ¬ act.Spurious)
      { s with main := .destroying w, pool := p } { s with main := .destroying w, pool := p' } := by
  induction acts generalizing p with
  | nil =>
      obtain rfl := Option.some.inj hrun
      exact .refl
  | cons act acts ih =>
      rw [List.foldlM_cons] at hrun
      obtain ⟨p₁, hstep, hrest⟩ := Option.bind_eq_some_iff.mp hrun
      obtain ⟨hact, hwake, hjoin⟩ := hacts act List.mem_cons_self
      have hp₁ : p₁.destructor ≠ .joined := by
        rcases hact with hact | hact
        · rw [Parallel.destructor_of_worker hact hstep]
          exact hp
        · cases PoolState.step_moves hstep <;> simp_all [Act.OfDestructor]
      refine .head ?_ (ih (fun act' hact' => hacts act' (List.mem_cons_of_mem act hact')) hp₁ hrest)
      rcases hact with hact | hact
      · exact .work (s := { s with main := .destroying w, pool := p }) rfl hact hwake hstep
      · have hdestroy : PoolStep table nodes root (fun _ act => ¬ act.Spurious)
            { s with main := .destroying w, pool := p }
            { s with
              main := if p₁.destructor = .joined then .returned w else .destroying w
              pool := p₁ } := .destroy rfl hact hwake hstep
        rwa [if_neg hp₁] at hdestroy

/-- A worker that looks for its next task when the value is there is stranded. -/
theorem PoolOf.strands (h : PoolOf table nodes root)
    (hvalues : ∀ node ∈ nodes, ∃ w, evalCallback table node = .ok w) (hn : 1 ≤ n)
    (hroot : evalCallback table root = .ok v) :
    ∃ s₀ s w, PoolPeval.start n nodes = some s₀ ∧
      Relation.ReflTransGen (PoolStep table nodes root fun _ act => ¬ act.Spurious) s₀ s ∧
      (∃ u, s.main = .destroying u) ∧ Parallel.Stuck s.pool w := by
  obtain ⟨s₀, s, a, hstart, hs, hsearch, u, hmain⟩ := h.searching hvalues hn hroot
  obtain ⟨hm, horder, hwork⟩ := hs
  have hplace := hm.place
  rw [hmain] at hplace
  obtain ⟨hdata, htook⟩ := hm.idle_of_got horder hwork hplace.1
  have hmutex : s.pool.mutex = none := by
    have hfree := hm.free (by simp [hmain]) (by simp [hmain])
    rcases hm.inv.mutex_cases with hmutex | ⟨w, hw⟩ | ⟨t, ht⟩
    · exact hmutex
    · have hway := hsearch.onTheWay w
      rw [hw] at hway
      exact hway.elim
    · exact absurd ht (not_or.mpr (hfree t))
  have hs' : { s with main := .destroying u, pool := s.pool } = s := by rw [← hmain]
  -- the first worker, in front of `pop`
  obtain ⟨p, hreach, hl, hidle, hdata', hnone, hmutex', hpop⟩ : ∃ p : PoolState n Nat,
      Relation.ReflTransGen (PoolStep table nodes root fun _ act => ¬ act.Spurious) s
        { s with main := .destroying u, pool := p } ∧ Parallel.Live p ∧ p.destructor = .idle ∧
        p.data = [] ∧ taken p.worker = [] ∧ p.mutex = none ∧ p.worker ⟨0, hn⟩ = .pop := by
    have hway := hsearch.onTheWay ⟨0, hn⟩
    cases hw : s.pool.worker ⟨0, hn⟩ with
    | took task => exact absurd hw (htook _ task)
    | pop =>
        exact ⟨s.pool, by rw [hs'], hm.live, hsearch.idle, hdata, Parallel.taken_eq_nil htook, hmutex, hw⟩
    | test =>
        have hrunning := hm.live.running.mpr hsearch.idle
        have hstep : s.pool.step (.readRunning ⟨0, hn⟩) = some (s.pool.setWorker ⟨0, hn⟩ .pop) := by
          rw [PoolState.step, if_pos hw, hrunning]
          rfl
        have hreach : Relation.ReflTransGen
            (PoolStep table nodes root fun _ act => ¬ act.Spurious) s
            { s with main := .destroying u, pool := s.pool.setWorker ⟨0, hn⟩ .pop } := by
          have hacts : ∀ act ∈ ([.readRunning ⟨0, hn⟩] : List (Act n Nat)),
              (act.OfWorker ∨ act.OfDestructor) ∧ ¬ act.Spurious ∧ act ≠ .join := by
            simp [Act.OfWorker, Act.Spurious]
          have hjoined : s.pool.destructor ≠ .joined := by simp [hsearch.idle]
          simpa only [hs'] using reaches_of_pool s (w := u) hacts hjoined (by simpa using hstep)
        exact ⟨_, hreach, hm.live.step hm.inv hstep, hsearch.idle, hdata,
          (Parallel.taken_goOn (by rw [hw]; rfl)).trans (Parallel.taken_eq_nil htook), hmutex,
          by simp [PoolState.setWorker]⟩
    | deciding | asleep | checkEmpty | returned =>
        rw [hw] at hway
        exact hway.elim
  obtain ⟨p', hrun, hstuck⟩ := Parallel.strands hl hidle hdata' hnone hmutex' hpop
  refine ⟨s₀, _, ⟨0, hn⟩, hstart, (hsearch.reached.trans hreach).trans (reaches_of_pool s ?_ ?_ hrun),
    ⟨u, rfl⟩, hstuck⟩
  · simp [Act.OfWorker, Act.OfDestructor, Act.Spurious]
  · simp [hidle]

theorem stuck_reaches {w : Fin n}
    (hreach : Relation.ReflTransGen (PoolStep table nodes root fun _ act => ¬ act.Spurious) s s')
    (hmain : ∃ u, s.main = .destroying u) (hstuck : Parallel.Stuck s.pool w) :
    (∃ u, s'.main = .destroying u) ∧ Parallel.Stuck s'.pool w := by
  induction hreach with
  | refl => exact ⟨hmain, hstuck⟩
  | tail _ hstep ih =>
      obtain ⟨⟨u, hu⟩, hstuck⟩ := ih
      cases hstep with
      | level hmain | take hmain | add hmain | wait hmain | leave hmain | result hmain =>
          rw [hu] at hmain
          cases hmain
      | destroy _ hact hok hstep =>
          have hstuck' := hstuck.step (.inr hact) hok hstep
          exact ⟨⟨_, if_neg (by simp [hstuck'.notified])⟩, hstuck'⟩
      | work _ hact hok hstep => exact ⟨⟨u, hu⟩, hstuck.step (.inl hact) hok hstep⟩
      | finish _ hw | fail _ hw | exit _ hw =>
          have hmem := Parallel.mem_taken.mpr ⟨_, hw⟩
          rw [hstuck.noTask] at hmem
          cases hmem

/-- In all interleavings whose steps of the pool are in `ok`, `peval` on `n` workers returns `v`. -/
def PevalReturns (table : SymbolTable) (pool : NodePool) (root : ExprNode) (n : Nat)
    (ok : PoolState n Nat → Act n Nat → Prop) (v : Int) : Prop :=
  ∃ s₀ : PoolPeval n, PoolPeval.start n pool = some s₀ ∧
    Runs.Inevitable (PoolStep table pool root ok) (fun s => s.main = .returned v) s₀

/-- In all these interleavings no worker is between its test and its sleep when the destructor of the
pool wakes the sleepers. -/
def WakesAll (table : SymbolTable) (pool : NodePool) (root : ExprNode) (n : Nat)
    (ok : PoolState n Nat → Act n Nat → Prop) : Prop :=
  ∀ s₀ s : PoolPeval n, PoolPeval.start n pool = some s₀ →
    Relation.ReflTransGen (PoolStep table pool root ok) s₀ s →
    s.pool.destructor = .always → ok s.pool .notifyAll → ∀ w, s.pool.worker w ≠ .deciding

theorem not_poolStep_of_returned (hmain : s.main = .returned v) :
    ¬ PoolStep table nodes root ok s s' := by
  intro hstep
  have hdead : ¬ s.main.live := by simp [hmain, PoolMain.live]
  cases hstep with
  | level h | take h | add h | wait h | leave h | result h | destroy h =>
      rw [hmain] at h
      cases h
  | work hlive | finish hlive | fail hlive | exit hlive => exact hdead hlive

theorem Tracks.step_running (h : PoolOf table nodes root)
    (hvalues : ∀ node ∈ nodes, ∃ w, evalCallback table node = .ok w)
    (hs : Tracks table nodes s a) (hexited : ∀ e, a.main ≠ .exited e)
    (hstep : PoolStep table nodes root ok s s') :
    ∃ a', Tracks table nodes s' a' ∧ ∀ e, a'.main ≠ .exited e := by
  rcases hs.step h hstep with ⟨hs', -⟩ | ⟨a', hA, hs'⟩
  · exact ⟨a, hs', hexited⟩
  · have hrunning := (h.running_step hvalues ⟨hs.order, hs.work, hexited⟩ hA).1
    exact ⟨a', hs', hrunning.not_exited⟩

theorem PoolOf.tracks_running (h : PoolOf table nodes root)
    (hvalues : ∀ node ∈ nodes, ∃ w, evalCallback table node = .ok w) {s₀ : PoolPeval n}
    (hstart : PoolPeval.start n nodes = some s₀)
    (hreach : Relation.ReflTransGen (PoolStep table nodes root ok) s₀ s) :
    ∃ a, Tracks table nodes s a ∧ ∀ e, a.main ≠ .exited e := by
  obtain ⟨s₁, a₀, hstart', -, hm, horder, hwork, hmain, -⟩ := start_spec h n
  obtain rfl := Option.some.inj (hstart.symm.trans hstart')
  induction hreach with
  | refl => exact ⟨a₀, ⟨hm, horder, hwork⟩, by simp [hmain]⟩
  | tail _ hstep ih =>
      obtain ⟨a, hs, hexited⟩ := ih
      exact hs.step_running h hvalues hexited hstep

theorem PevalReturns.values (h : PoolOf table nodes root)
    (hreturns : PevalReturns table nodes root n ok v) :
    ∀ node ∈ nodes, ∃ w, evalCallback table node = .ok w := by
  obtain ⟨s₀, hstart, hinevitable⟩ := hreturns
  obtain ⟨s₁, a₀, hstart', -, hm, horder, hwork, -, -⟩ := start_spec h n
  obtain rfl := Option.some.inj (hstart.symm.trans hstart')
  obtain ⟨s, ⟨a, hs⟩, hmain⟩ := hinevitable.exists_of_invariant
    (I := fun s => ∃ a, Tracks table nodes s a)
    (fun s s' hs hstep => by
      obtain ⟨a, hs⟩ := hs
      rcases hs.step h hstep with ⟨hs', -⟩ | ⟨a', -, hs'⟩
      · exact ⟨a, hs'⟩
      · exact ⟨a', hs'⟩)
    ⟨a₀, hm, horder, hwork⟩
  have hplace := hs.matched.place
  rw [hmain] at hplace
  exact PoolOf.values_of_got hs.order hs.work hplace.1

/-- A worker that goes to sleep behind `notify_all` is never woken. -/
theorem PoolOf.stuck_of_deciding (h : PoolOf table nodes root)
    (hvalues : ∀ node ∈ nodes, ∃ w, evalCallback table node = .ok w)
    (hok : ∀ (p : PoolState n Nat) (act : Act n Nat), ¬ act.Spurious →
      Parallel.Undecided p act → ok p act) {s₀ : PoolPeval n}
    (hstart : PoolPeval.start n nodes = some s₀)
    (hreach : Relation.ReflTransGen (PoolStep table nodes root ok) s₀ s)
    (halways : s.pool.destructor = .always) (hnotify : ok s.pool .notifyAll) {w : Fin n}
    (hw : s.pool.worker w = .deciding) :
    ∃ s', Relation.ReflTransGen (PoolStep table nodes root ok) s s' ∧
      (∃ u, s'.main = .destroying u) ∧ Parallel.Stuck s'.pool w := by
  obtain ⟨a, hs, hexited⟩ := h.tracks_running hvalues hstart hreach
  have hplace := hs.matched.place
  obtain ⟨u, hmain⟩ : ∃ u, s.main = .destroying u := by
    cases hmain : s.main with
    | destroying u => exact ⟨u, rfl⟩
    | head | submit | adding | result | returned => simp [hmain, Place, halways] at hplace
    | exited e => exact absurd hmain (not_exited_of_matches hs.matched hexited e)
  rw [hmain] at hplace
  obtain ⟨hdata, htook⟩ := hs.matched.idle_of_got hs.order hs.work hplace.1
  obtain ⟨p₁, hstep₁, hp₁, hw₁⟩ : ∃ p₁, s.pool.step .notifyAll = some p₁ ∧
      p₁.destructor = .notified ∧ p₁.worker w = .deciding :=
    ⟨_, if_pos halways, rfl, congrArg Parallel.Worker.awake hw⟩
  obtain ⟨p₂, hstep₂, hp₂, hw₂⟩ : ∃ p₂, p₁.step (.sleep w) = some p₂ ∧
      p₂.destructor = p₁.destructor ∧ p₂.worker w = .asleep :=
    ⟨_, if_pos hw₁, rfl, Function.update_self ..⟩
  have hdestructor : (Act.notifyAll : Act n Nat).OfDestructor := trivial
  have hworker : (Act.sleep w : Act n Nat).OfWorker := trivial
  have hrests₁ := Parallel.rests (.inr hdestructor) (fun _ _ => hdata) hstep₁
  have hdata₁ := hrests₁.data.trans hdata
  have hrests₂ := Parallel.rests (.inl hworker) (fun _ _ => hdata₁) hstep₂
  have hfirst : PoolStep table nodes root ok s { s with main := .destroying u, pool := p₁ } := by
    have hdestroy : PoolStep table nodes root ok s
        { s with main := if p₁.destructor = .joined then .returned u else .destroying u, pool := p₁ } :=
      .destroy hmain hdestructor hnotify hstep₁
    rwa [if_neg (by simp [hp₁])] at hdestroy
  have hsecond : PoolStep table nodes root ok { s with main := .destroying u, pool := p₁ }
      { s with main := .destroying u, pool := p₂ } :=
    .work (s := { s with main := .destroying u, pool := p₁ }) rfl hworker (hok _ _ id trivial) hstep₂
  refine ⟨_, .head hfirst (.single hsecond), ⟨u, rfl⟩, hp₂.trans hp₁, hw₂,
    hrests₂.data.trans hdata₁, ?_⟩
  exact hrests₂.taken.trans (hrests₁.taken.trans (Parallel.taken_eq_nil htook))

/-- In interleavings whose `notify_all` misses no worker, the value is returned. -/
theorem PoolOf.returns (h : PoolOf table nodes root)
    (hvalues : ∀ node ∈ nodes, ∃ w, evalCallback table node = .ok w) (hn : 1 ≤ n)
    (hroot : evalCallback table root = .ok v)
    (hok : ∀ (p : PoolState n Nat) (act : Act n Nat), ¬ act.Spurious →
      Parallel.Undecided p act → ok p act)
    (hquiet : ∀ p act, ok p act → ¬ act.Spurious ∧ Parallel.Undecided p act) :
    PevalReturns table nodes root n ok v := by
  obtain ⟨s₀, hstart, hinevitable⟩ := h.inevitable (I := Parallel.AllAwake) hvalues hn hroot hok
    (fun p act hact => (hquiet p act hact).1) ⟨by rintro ⟨⟩, by rintro ⟨⟩⟩
    (fun p act _ hI hact hstep => hI.step (hquiet p act hact).2 hstep)
  refine ⟨s₀, hstart, hinevitable.mono fun s hs => ?_⟩
  rcases hs with hreturned | ⟨-, ⟨hwoke, ⟨w, hw⟩, -⟩, hawake⟩
  · exact hreturned
  · exact absurd hw (hawake.woke hwoke w).2

section

variable {hooks : Hooks} {fuel : Nat} {str : List Char} {tokens : List Token}
  {status : Option ErrCode} {st : ParserState}

/-- `peval` on the pool is the schedule: every interleaving is one of the scheduler's runs, no node
is run twice or before its children, and what is returned is the value of `eval`, when all workers
have returned and every node has been run. -/
theorem pool_refines_schedule
    (hcall : ∀ name f, table name = some (.func f) → f.nativeCall ≠ none)
    (htokens : tokenizer hooks table fuel str = some (tokens, status))
    (hparse : parse tokens = .ok (root, st)) (hroot : root ≠ .null) (hwf : root.WellFormed) :
    ∃ s₀ a₀, PoolPeval.start n st.pool = some s₀ ∧ pevalStart st.pool = some a₀ ∧
      ∀ s, Relation.ReflTransGen (PoolStep table st.pool root fun _ _ => True) s₀ s →
        Sane table st.pool root s ∧
        ∃ a, Relation.ReflTransGen (Step table st.pool root n) a₀ a ∧ Matches s a := by
  have h := parse_poolOf hcall htokens hparse hroot hwf
  obtain ⟨s₀, a₀, hstart, hstart', hm, horder, hwork, -, -⟩ := start_spec h n
  refine ⟨s₀, a₀, hstart, hstart', fun s hs => ?_⟩
  obtain ⟨a, ha, htracks⟩ := Runs.reaches_of_simulation (R := Tracks table st.pool)
    (fun s s' a hs hstep => (hs.step h hstep).imp_left And.left) ⟨hm, horder, hwork⟩ hs
  exact ⟨htracks.matched.sane h htracks.order htracks.work, a, ha, htracks.matched⟩

theorem pool_refines_schedule_max : ∃ (root : ExprNode) (st : ParserState) (s₀ : PoolPeval 2),
    parse maxTokens = .ok (root, st) ∧ PoolPeval.start 2 st.pool = some s₀ ∧
      ∀ s, Relation.ReflTransGen (PoolStep maxTable st.pool root fun _ _ => True) s₀ s →
        ∀ v, s.main = .returned v → v = 12 ∧ s.pool.finished.Perm (List.range 5) := by
  obtain ⟨root, st, hparse, hroot, hwf, heval, hlength, -⟩ := maxTokens_parse
  obtain ⟨s₀, _, hstart, -, hruns⟩ :=
    pool_refines_schedule (fun _ _ => maxTable_callable) maxTokens_read hparse hroot hwf
  refine ⟨root, st, s₀, hparse, hstart, fun s hs v hv => ?_⟩
  obtain ⟨hvalue, -, hfinished⟩ := (hruns s hs).1.returned v hv
  exact ⟨Except.ok.inj (hvalue.symm.trans heval), hlength ▸ hfinished⟩

/-- Where every node has a value, `peval` with workers returns that of `eval` in every interleaving in
which sleepers only wake when they are notified, unless the destructor of the pool is left waiting
for a worker that nobody wakes; and it always returns if no worker is between its test and its sleep
when the destructor wakes the sleepers. -/
theorem pool_returns
    (hcall : ∀ name f, table name = some (.func f) → f.nativeCall ≠ none)
    (htokens : tokenizer hooks table fuel str = some (tokens, status))
    (hparse : parse tokens = .ok (root, st)) (hroot : root ≠ .null) (hwf : root.WellFormed)
    (heval : evalCallback table root = .ok v) (hn : 1 ≤ n)
    (hvalues : ∀ node ∈ st.pool, ∀ code, evalCallback table node ≠ .error (.status code)) :
    ∃ s₀ : PoolPeval n, PoolPeval.start n st.pool = some s₀ ∧
      Runs.Inevitable (PoolStep table st.pool root fun _ act => ¬ act.Spurious)
        (fun s => s.main = .returned v ∨
          (∃ w, s.main = .destroying w) ∧ Parallel.Stranded s.pool) s₀ ∧
      Runs.Inevitable
        (PoolStep table st.pool root fun p act => ¬ act.Spurious ∧ Parallel.Undecided p act)
        (fun s => s.main = .returned v) s₀ := by
  have h := parse_poolOf hcall htokens hparse hroot hwf
  have hvalues' := h.values_of_no_status hvalues
  have hquiet : ∀ (p : PoolState n Nat) (act : Act n Nat), ¬ act.Spurious →
      Parallel.Undecided p act → ¬ act.Spurious := fun _ _ hwake _ => hwake
  have hundecided : ∀ (p : PoolState n Nat) (act : Act n Nat), ¬ act.Spurious →
      Parallel.Undecided p act → ¬ act.Spurious ∧ Parallel.Undecided p act :=
    fun _ _ hwake hundecided => ⟨hwake, hundecided⟩
  obtain ⟨s₀, hstart, hends⟩ := h.inevitable (I := fun _ => True) hvalues' hn heval hquiet
    (fun _ _ hact => hact) trivial (fun _ _ _ _ _ _ => trivial)
  obtain ⟨s₁, hstart', hreturns⟩ := h.returns hvalues' hn heval hundecided fun _ _ hact => hact
  obtain rfl := Option.some.inj (hstart.symm.trans hstart')
  exact ⟨s₀, hstart, hends.mono fun s hs => hs.imp_right fun hstuck => ⟨hstuck.1, hstuck.2.1⟩,
    hreturns⟩

theorem pool_returns_max : ∃ (root : ExprNode) (st : ParserState) (s₀ : PoolPeval 3),
    parse maxTokens = .ok (root, st) ∧ PoolPeval.start 3 st.pool = some s₀ ∧
      Runs.Inevitable (PoolStep maxTable st.pool root fun p act =>
        ¬ act.Spurious ∧ Parallel.Undecided p act) (fun s => s.main = .returned 12) s₀ := by
  obtain ⟨root, st, hparse, hroot, hwf, heval, -, hvalues⟩ := maxTokens_parse
  obtain ⟨s₀, hstart, -, hreturns⟩ := pool_returns (n := 3) (fun _ _ => maxTable_callable)
    maxTokens_read hparse hroot hwf heval (by decide) (no_status_of_values hvalues)
  exact ⟨root, st, s₀, hparse, hstart, hreturns⟩

/-- Among interleavings in which sleepers wake only when they are notified, `peval` returns what
`eval` does exactly when no node of the pool raises a status, on the evaluated path or off it, and the
destructor of the pool never wakes the sleepers while a worker is on its way to sleep. -/
theorem peval_returns_iff
    (hcall : ∀ name f, table name = some (.func f) → f.nativeCall ≠ none)
    (htokens : tokenizer hooks table fuel str = some (tokens, status))
    (hparse : parse tokens = .ok (root, st)) (hroot : root ≠ .null) (hwf : root.WellFormed)
    (heval : evalCallback table root = .ok v) (hn : 1 ≤ n)
    (hquiet : ∀ p act, ok p act → ¬ act.Spurious)
    (hok : ∀ p act, ¬ act.Spurious → Parallel.Undecided p act → ok p act) :
    PevalReturns table st.pool root n ok v ↔
      (∀ node ∈ st.pool, ∀ code, evalCallback table node ≠ .error (.status code)) ∧
        WakesAll table st.pool root n ok := by
  have h := parse_poolOf hcall htokens hparse hroot hwf
  constructor
  · intro hreturns
    have hvalues := hreturns.values h
    obtain ⟨s₀, hstart, hinevitable⟩ := hreturns
    refine ⟨no_status_of_values hvalues, fun s₁ s hstart' hreach halways hnotify w hw => ?_⟩
    obtain rfl := Option.some.inj (hstart.symm.trans hstart')
    obtain ⟨s', hreach', hmain, hstuck⟩ :=
      h.stuck_of_deciding hvalues hok hstart hreach halways hnotify hw
    have hrest : Runs.Inevitable (PoolStep table st.pool root ok) (fun s => s.main = .returned v) s' :=
      Runs.Inevitable.of_reaches (fun _ _ => not_poolStep_of_returned) hinevitable
        (hreach.trans hreach')
    obtain ⟨s₂, ⟨⟨u, hu⟩, -⟩, hreturned⟩ := hrest.exists_of_invariant
      (I := fun s => (∃ u, s.main = .destroying u) ∧ Parallel.Stuck s.pool w)
      (fun s₂ s₃ hI hstep => stuck_reaches
        (.single (hstep.restrict fun act _ hact _ => hquiet _ act hact)) hI.1 hI.2) ⟨hmain, hstuck⟩
    rw [hu] at hreturned
    cases hreturned
  · rintro ⟨hstatus, hwakes⟩
    have hundecided : ∀ p act, ¬ act.Spurious → Parallel.Undecided p act →
        ok p act ∧ Parallel.Undecided p act :=
      fun p act hwake hundecided => ⟨hok p act hwake hundecided, hundecided⟩
    obtain ⟨s₀, hstart, hinevitable⟩ := h.returns (h.values_of_no_status hstatus) hn heval hundecided
      fun p act hact => ⟨hquiet p act hact.1, hact.2⟩
    refine ⟨s₀, hstart, hinevitable.of_reachable
      (fun s s' hstep => hstep.restrict fun _ _ hact _ => hact.1) fun s s' hreach hstep => ?_⟩
    refine hstep.restrict fun act p hact hpool => ⟨hact, ?_⟩
    cases act with
    | notifyAll =>
        have halways : s.pool.destructor = .always := by
          cases PoolState.step_moves hpool
          assumption
        exact hwakes s₀ s hstart hreach halways hact
    | _ => trivial

theorem peval_returns_max : ∃ root st, parse maxTokens = .ok (root, st) ∧
    PevalReturns maxTable st.pool root 2 (fun p act => ¬ act.Spurious ∧ Parallel.Undecided p act)
      12 := by
  obtain ⟨root, st, hparse, hroot, hwf, heval, -, hvalues⟩ := maxTokens_parse
  exact ⟨root, st, hparse, (peval_returns_iff (fun _ _ => maxTable_callable) maxTokens_read hparse
    hroot hwf heval (by decide) (fun _ _ hact => hact.1)
    (fun _ _ hwake hundecided => ⟨hwake, hundecided⟩)).mpr
    ⟨no_status_of_values hvalues, fun _ _ _ _ _ hnotify => hnotify.2⟩⟩

def untakenDivision : List Token :=
  [⟨.literal, none, 1⟩, ⟨.qmark, none, 0⟩, ⟨.literal, none, 2⟩, ⟨.colon, none, 0⟩,
    ⟨.literal, none, 1⟩, ⟨.div, none, 0⟩, ⟨.literal, none, 0⟩, ⟨.invalid, none, 0⟩]

/-- `1?2:1/0` is 2 for `eval`, but `peval` divides by zero, also where no worker is missed. -/
theorem peval_untaken_branch : ¬ ∀ hooks table fuel str tokens status root st v n,
    (∀ name f, table name = some (.func f) → f.nativeCall ≠ none) →
    tokenizer hooks table fuel str = some (tokens, status) → parse tokens = .ok (root, st) →
    root ≠ .null → root.WellFormed → evalCallback table root = .ok v → 1 ≤ n →
    PevalReturns table st.pool root n (fun p act => ¬ act.Spurious ∧ Parallel.Undecided p act)
      v := by
  intro h
  have hcall : ∀ name f, (fun _ => none : SymbolTable) name = some (.func f) →
      f.nativeCall ≠ none := by rintro _ _ ⟨⟩
  have htokens : tokenizer .default (fun _ => none) 8 ['1', '?', '2', ':', '1', '/', '0'] =
      some (untakenDivision, none) := by decide +kernel
  have haccepts : Accepts untakenDivision [.invalid] ⟨false, false, false⟩ :=
    ⟨by decide, rfl, rfl⟩
  obtain ⟨root, st, hparse, hroot, -, hgap, -⟩ := haccepts.parse
  have hwf : root.WellFormed := by
    by_contra hwf
    exact Bool.false_ne_true (hgap.mpr hwf)
  have hrun : (parse untakenDivision).toOption.any (fun p =>
      (evalCallback (fun _ => none) p.1).toOption == some 2 &&
        p.2.pool.any fun n => (evalCallback (fun _ => none) n).toOption.isNone) = true := by
    decide +kernel
  rw [hparse] at hrun
  obtain ⟨heval, hpool⟩ := Bool.and_eq_true_iff.mp hrun
  obtain ⟨node, hnode, herr⟩ := List.any_eq_true.mp hpool
  have hreturns := h _ _ _ _ _ _ _ _ _ 1 hcall htokens hparse hroot hwf
    (ok_of_toOption (beq_iff_eq.mp heval)) (Nat.le_refl 1)
  obtain ⟨w, hw⟩ := hreturns.values (parse_poolOf hcall htokens hparse hroot hwf) node hnode
  rw [hw] at herr
  cases herr

/-- Whatever is evaluated, and with however many workers, some interleaving does not return: it leaves
the destructor of the pool waiting for a worker that sleeps, and without a sleeper that wakes by
itself it waits for ever. -/
theorem pool_hangs
    (hcall : ∀ name f, table name = some (.func f) → f.nativeCall ≠ none)
    (htokens : tokenizer hooks table fuel str = some (tokens, status))
    (hparse : parse tokens = .ok (root, st)) (hroot : root ≠ .null) (hwf : root.WellFormed)
    (heval : evalCallback table root = .ok v) (hn : 1 ≤ n)
    (hvalues : ∀ node ∈ st.pool, ∀ code, evalCallback table node ≠ .error (.status code)) :
    ∃ (s₀ s : PoolPeval n) (w : Fin n), PoolPeval.start n st.pool = some s₀ ∧
      Relation.ReflTransGen (PoolStep table st.pool root fun _ act => ¬ act.Spurious) s₀ s ∧
      ∀ s', Relation.ReflTransGen (PoolStep table st.pool root fun _ act => ¬ act.Spurious) s s' →
        (∃ u, s'.main = .destroying u) ∧ s'.pool.destructor = .notified ∧
          s'.pool.worker w = .asleep := by
  have h := parse_poolOf hcall htokens hparse hroot hwf
  obtain ⟨s₀, s, w, hstart, hreach, hmain, hstuck⟩ := h.strands (h.values_of_no_status hvalues) hn heval
  refine ⟨s₀, s, w, hstart, hreach, fun s' hs' => ?_⟩
  obtain ⟨hmain', hstuck'⟩ := stuck_reaches hs' hmain hstuck
  exact ⟨hmain', hstuck'.notified, hstuck'.asleep⟩

theorem pool_hangs_max : ∃ (root : ExprNode) (st : ParserState) (s₀ s : PoolPeval 2),
    parse maxTokens = .ok (root, st) ∧ PoolPeval.start 2 st.pool = some s₀ ∧
      Relation.ReflTransGen (PoolStep maxTable st.pool root fun _ act => ¬ act.Spurious) s₀ s ∧
      ∃ u, s.main = .destroying u := by
  obtain ⟨root, st, hparse, hroot, hwf, heval, -, hvalues⟩ := maxTokens_parse
  obtain ⟨s₀, s, w, hstart, hreach, hstuck⟩ := pool_hangs (n := 2) (fun _ _ => maxTable_callable)
    maxTokens_read hparse hroot hwf heval (by decide) (no_status_of_values hvalues)
  exact ⟨root, st, s₀, s, hparse, hstart, hreach, (hstuck s .refl).1⟩

end

end PGBigNumber.Infix
