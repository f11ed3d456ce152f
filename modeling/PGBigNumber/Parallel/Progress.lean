import Mathlib.Algebra.Order.BigOperators.Group.Finset
import Mathlib.Data.List.FinRange
import PGBigNumber.Parallel.Shutdown

/-!
# Progress of the pool

While the pool runs, a queued task is never left to sleepers only. Workers without a task come to
rest, and the destructor comes to its end unless a worker is stranded.
-/

namespace PGBigNumber.Parallel

variable {n : Nat} {τ : Type}

def Act.OfCall (task : τ) : Act n τ → Prop
  | .lock t | .cond t | .emplace t _ => t = task
  | _ => False

def Act.OfWorker : Act n τ → Prop
  | .pop _ | .sleep _ | .wake _ | .readRunning _ | .empty _ => True
  | _ => False

def Act.OfDestructor : Act n τ → Prop
  | .stop | .writeAlwaysPop | .notifyAll | .join => True
  | _ => False

def Act.Spurious : Act n τ → Prop
  | .wake _ => True
  | _ => False

def Worker.OnTheWay : Worker τ → Prop
  | .pop | .took _ | .test => True
  | _ => False

def Worker.task : Worker τ → Option τ
  | .took task => some task
  | _ => none

def taken (worker : Fin n → Worker τ) : List τ :=
  (List.finRange n).filterMap fun w => (worker w).task

section

variable {worker : Fin n → Worker τ} {w : Fin n} {p : Worker τ} {task : τ}

theorem mem_taken : task ∈ taken worker ↔ ∃ w, worker w = .took task := by
  have htask (p : Worker τ) : p.task = some task ↔ p = .took task := by
    cases p <;> simp [Worker.task]
  simp [taken, htask]

theorem taken_eq_nil (h : ∀ w task, worker w ≠ .took task) : taken worker = [] := by
  refine List.eq_nil_iff_forall_not_mem.mpr fun task hmem => ?_
  obtain ⟨w, hw⟩ := mem_taken.mp hmem
  exact h w task hw

theorem taken_update (worker : Fin n → Worker τ) (w : Fin n) (p : Worker τ) :
    (taken (Function.update worker w p)).Perm
      (p.task.toList ++ ((List.finRange n).erase w).filterMap fun v => (worker v).task) := by
  have hfront := (List.perm_cons_erase (List.mem_finRange w)).filterMap
    fun v => (Function.update worker w p v).task
  refine hfront.trans (List.Perm.of_eq ?_)
  have hrest : ((List.finRange n).erase w).filterMap (fun v => (Function.update worker w p v).task) =
      ((List.finRange n).erase w).filterMap fun v => (worker v).task := by
    apply List.filterMap_congr
    intro v hv
    have hne : v ≠ w := ((List.nodup_finRange n).mem_erase_iff.mp hv).1
    rw [Function.update_of_ne hne]
  cases ht : p.task with
  | none => rw [List.filterMap_cons_none (by rw [Function.update_self, ht]), hrest]; rfl
  | some t => rw [List.filterMap_cons_some (by rw [Function.update_self, ht]), hrest]; rfl

theorem taken_awake : taken (fun v => (worker v).awake) = taken worker := by
  unfold taken
  congr 1
  funext v
  dsimp only
  cases worker v <;> rfl

theorem taken_goOn (h : p.task = (worker w).task) : taken (Function.update worker w p) = taken worker := by
  unfold taken
  congr 1
  funext v
  by_cases hv : v = w
  · rw [hv, Function.update_self, h]
  · rw [Function.update_of_ne hv]

theorem taken_took (h : (worker w).task = none) :
    (taken (Function.update worker w (.took task))).Perm (taken worker ++ [task]) := by
  have hold := taken_update worker w (worker w)
  rw [Function.update_eq_self, h] at hold
  exact (taken_update worker w (.took task)).trans
    ((hold.symm.cons task).trans (List.perm_append_singleton task _).symm)

theorem taken_run [DecidableEq τ] (h : worker w = .took task) (hp : p.task = none) :
    (taken (Function.update worker w p)).Perm ((taken worker).erase task) := by
  have hold := taken_update worker w (worker w)
  have hnew := taken_update worker w p
  rw [Function.update_eq_self, h] at hold
  rw [hp] at hnew
  have herase := hold.erase task
  rw [show (Worker.took task).task = some task from rfl, Option.toList_some, List.singleton_append,
    List.erase_cons_head] at herase
  exact hnew.trans herase.symm

theorem length_taken_lt (h : (worker w).task = none) : (taken worker).length < n := by
  have hold := taken_update worker w (worker w)
  rw [Function.update_eq_self, h] at hold
  have hlength := hold.length_eq
  have hle := List.length_filterMap_le (fun v => (worker v).task) ((List.finRange n).erase w)
  rw [List.length_erase_of_mem (List.mem_finRange w), List.length_finRange] at hle
  rw [Option.toList_none, List.nil_append] at hlength
  have hpos := w.pos
  omega

end

/-- The flags say how far the destructor is; while the pool runs somebody is on the way to a queued
task; and behind the destructor all workers have returned. -/
structure Live (s : PoolState n τ) : Prop where
  running : s.running = true ↔ s.destructor = .idle
  alwaysPop : s.alwaysPop = true ↔ s.destructor.wrote = true
  onTheWay : 0 < n → s.running = true → s.data ≠ [] → ∃ w, (s.worker w).OnTheWay
  joined : s.destructor = .joined → ∀ w, s.worker w = .returned

theorem live_init : Live ({} : PoolState n τ) where
  running := by simp
  alwaysPop := by simp [Destructor.wrote]
  onTheWay _ _ hdata := absurd rfl hdata
  joined := by rintro ⟨⟩

section

variable {s s' : PoolState n τ} {w : Fin n} {p : Worker τ}

theorem Live.setWorker (h : Live s) (mutex : Option (Holder n τ)) (finished : List τ)
    (hway : (s.worker w).OnTheWay → s.running = true → s.data ≠ [] → p.OnTheWay)
    (hleft : s.worker w ≠ .returned) :
    Live { s.setWorker w p with mutex, finished } where
  running := h.running
  alwaysPop := h.alwaysPop
  onTheWay hn hrunning hdata := by
    obtain ⟨v, hv⟩ := h.onTheWay hn hrunning hdata
    by_cases hvw : v = w
    · subst hvw
      exact ⟨v, by simpa [PoolState.setWorker] using hway hv hrunning hdata⟩
    · exact ⟨v, by simpa [PoolState.setWorker, hvw] using hv⟩
  joined hjoined := absurd (h.joined hjoined w) hleft

variable [DecidableEq τ]

theorem Live.accept (h : Live s) (hi : Inv s) {task : τ} (hsaw : s.call task = .saw)
    (hawake : ∀ w, s.worker w ≠ .asleep) :
    Live { s.setCall task .accepted with data := s.data ++ [task], mutex := none } where
  running := h.running
  alwaysPop := h.alwaysPop
  onTheWay hn hrunning _ := by
    refine ⟨⟨0, hn⟩, ?_⟩
    have hmutex := (hi.push task).mpr (.inr hsaw)
    have hdeciding : s.worker ⟨0, hn⟩ ≠ .deciding := fun hw => by
      have hpop := (hi.pop _).mpr hw
      rw [hmutex] at hpop
      cases hpop
    have hstopped : ¬ (s.worker ⟨0, hn⟩ = .checkEmpty ∨ s.worker ⟨0, hn⟩ = .returned) := fun hw => by
      have hfalse := (hi.stopped _ hw).symm.trans hrunning
      cases hfalse
    have hasleep := hawake ⟨0, hn⟩
    change (s.worker ⟨0, hn⟩).OnTheWay
    cases hw : s.worker ⟨0, hn⟩ <;> simp_all [Worker.OnTheWay]
  joined := h.joined

theorem awake_of_emplace {task : τ} (hstep : s.step (.emplace task none) = some s') :
    ∀ w, s.worker w ≠ .asleep := by
  intro w hw
  have hsome : ∃ w, s.worker w = .asleep := ⟨w, hw⟩
  by_cases hsaw : s.call task = .saw
  · rw [PoolState.step, if_pos hsaw, PoolState.emplace] at hstep
    simp [hsome] at hstep
  · rw [PoolState.step, if_neg hsaw] at hstep
    cases hstep

omit [DecidableEq τ] in
theorem Live.pop (h : Live s) (hw : s.worker w = .pop) : Live (s.pop w) := by
  unfold PoolState.pop
  split
  next task data hdata =>
    refine ⟨h.running, h.alwaysPop, fun _ _ _ => ⟨w, ?_⟩, fun hjoined => ?_⟩
    · simp [PoolState.setWorker, Worker.OnTheWay]
    · exact absurd (h.joined hjoined w) (by simp [hw])
  next hdata =>
    have hnone {p : Worker τ} : (s.worker w).OnTheWay → s.running = true → s.data ≠ [] →
        p.OnTheWay := fun _ _ hne => absurd hdata hne
    split
    · exact h.setWorker s.mutex s.finished hnone (by simp [hw])
    · exact h.setWorker _ s.finished hnone (by simp [hw])

theorem Live.step (h : Live s) (hi : Inv s) {a : Act n τ} (hstep : s.step a = some s') :
    Live s' := by
  cases PoolState.step_moves hstep with
  | lock | see | reject => exact ⟨h.running, h.alwaysPop, h.onTheWay, h.joined⟩
  | accept hsaw => exact h.accept hi hsaw (awake_of_emplace hstep)
  | @acceptWaking _ w hsaw hasleep =>
      refine ⟨h.running, h.alwaysPop, fun _ _ _ => ⟨w, ?_⟩, fun hjoined => ?_⟩
      · simp [PoolState.setWorker, Worker.OnTheWay]
      · exact absurd (h.joined hjoined w) (by simp [hasleep])
  | pop _ hw => exact h.pop hw
  | sleep hw =>
      exact h.setWorker _ s.finished (by simp [hw, Worker.OnTheWay]) (by simp [hw])
  | wake hw =>
      exact h.setWorker s.mutex s.finished
        (by simp [hw, Worker.OnTheWay]) (by simp [hw])
  | run hw => exact h.setWorker s.mutex _ (by simp [Worker.OnTheWay]) (by simp [hw])
  | readRunning hw =>
      exact h.setWorker s.mutex s.finished
        (by simp +contextual [hw, Worker.OnTheWay]) (by simp [hw])
  | empty _ hw =>
      exact h.setWorker s.mutex s.finished
        (by simp [hw, Worker.OnTheWay]) (by simp [hw])
  | stop hidle =>
      refine ⟨by simp, ?_, by simp, by simp⟩
      rw [h.alwaysPop, hidle]
      simp [Destructor.wrote]
  | writeAlwaysPop hstopped =>
      refine ⟨?_, by simp [Destructor.wrote], h.onTheWay, by simp⟩
      rw [h.running, hstopped]
      simp
  | notifyAll halways =>
      have hrunning : s.running = false := by
        rw [Bool.eq_false_iff, ne_eq, h.running, halways]
        simp
      refine ⟨?_, ?_, fun _ htrue => ?_, by simp⟩
      · simp [hrunning]
      · rw [h.alwaysPop, halways]
        simp [Destructor.wrote]
      · rw [hrunning] at htrue
        cases htrue
  | join hnotified hall =>
      refine ⟨?_, ?_, h.onTheWay, fun _ => hall⟩
      · rw [h.running, hnotified]
        simp
      · rw [h.alwaysPop, hnotified]
        simp [Destructor.wrote]

omit [DecidableEq τ] in
theorem sum_update (f : Worker τ → Nat) (worker : Fin n → Worker τ) (w : Fin n) (p : Worker τ) :
    ∑ v, f (Function.update worker w p v) + f (worker w) = ∑ v, f (worker v) + f p := by
  have hupdate : (fun v => f (Function.update worker w p v)) =
      Function.update (fun v => f (worker v)) w (f p) := by
    funext v
    by_cases hv : v = w
    · subst hv
      simp
    · simp [hv]
  have hold := Finset.sum_eq_add_sum_sdiff_singleton_of_mem (Finset.mem_univ w) fun v => f (worker v)
  have hnew := Finset.sum_update_of_mem (Finset.mem_univ w) (fun v => f (worker v)) (f p)
  rw [hupdate, hnew, hold]
  omega

end

/-- How far a worker is from its sleep while the pool runs, and from its return afterwards. -/
def Worker.rank (running : Bool) : Worker τ → Nat
  | .took _ => 3
  | .test => if running then 3 else 2
  | .pop => if running then 2 else 5
  | .deciding => if running then 1 else 4
  | .asleep => if running then 0 else 3
  | .checkEmpty => 1
  | .returned => 0

theorem Worker.rank_le (running : Bool) (w : Worker τ) : w.rank running ≤ 5 := by
  cases w <;> cases running <;> simp [rank]

def Destructor.left : Destructor → Nat
  | .idle => 4
  | .stopped => 3
  | .always => 2
  | .notified => 1
  | .joined => 0

def PoolState.rank (s : PoolState n τ) : Nat :=
  (5 * n + 1) * s.destructor.left + ∑ w, (s.worker w).rank s.running

section

variable [DecidableEq τ] {s s' : PoolState n τ} {w : Fin n} {p : Worker τ}

omit [DecidableEq τ] in
private theorem sum_rank_le (worker : Fin n → Worker τ) (running : Bool) :
    ∑ w, (worker w).rank running ≤ 5 * n := by
  have hle : ∑ w : Fin n, (worker w).rank running ≤ ∑ _w : Fin n, 5 :=
    Finset.sum_le_sum fun w _ => (worker w).rank_le running
  simpa [Nat.mul_comm] using hle

omit [DecidableEq τ] in
private theorem rank_lt_of_left (hleft : s'.destructor.left < s.destructor.left) :
    s'.rank < s.rank := by
  have hsum := sum_rank_le s'.worker s'.running
  have hmul : (5 * n + 1) * (s'.destructor.left + 1) ≤ (5 * n + 1) * s.destructor.left :=
    Nat.mul_le_mul_left _ hleft
  unfold PoolState.rank
  rw [Nat.mul_add] at hmul
  omega

omit [DecidableEq τ] in
private theorem rank_lt_of_worker (hdestructor : s'.destructor = s.destructor)
    (hrunning : s'.running = s.running) (hworker : s'.worker = Function.update s.worker w p)
    (hlt : p.rank s.running < (s.worker w).rank s.running) : s'.rank < s.rank := by
  have hsum := sum_update (·.rank s.running) s.worker w p
  unfold PoolState.rank
  rw [hdestructor, hrunning, hworker]
  omega

/-- Workers that find no task come to rest, and so does the destructor. -/
theorem rank_lt (h : Live s) (hi : Inv s) {a : Act n τ} (ha : a.OfWorker ∨ a.OfDestructor)
    (hwake : ¬ a.Spurious) (hpop : ∀ w, a = .pop w → s.data = [])
    (hempty : s.running = false → s.data = []) (hstep : s.step a = some s') : s'.rank < s.rank := by
  cases PoolState.step_moves hstep with
  | lock | see | reject | accept | acceptWaking | run => exact ha.elim False.elim False.elim
  | wake => exact absurd trivial hwake
  | @pop w _ hw =>
      have hfound : s.pop w = if s.alwaysPop then s.setWorker w .test
          else { s.setWorker w .deciding with mutex := some (.pop w) } := by
        rw [PoolState.pop, hpop w rfl]
      rw [hfound]
      split
      next halways =>
        have hrunning : s.running = false := by
          rw [Bool.eq_false_iff, ne_eq, h.running]
          intro hidle
          have hwrote := h.alwaysPop.mp halways
          rw [hidle] at hwrote
          cases hwrote
        refine rank_lt_of_worker (w := w) (p := .test) rfl rfl rfl ?_
        rw [hw, hrunning]
        simp [Worker.rank]
      next =>
        refine rank_lt_of_worker (w := w) (p := .deciding) rfl rfl rfl ?_
        rw [hw]
        cases s.running <;> simp [Worker.rank]
  | @sleep w hw =>
      refine rank_lt_of_worker (w := w) (p := .asleep) rfl rfl rfl ?_
      rw [hw]
      cases s.running <;> simp [Worker.rank]
  | @readRunning w hw =>
      refine rank_lt_of_worker (w := w) rfl rfl rfl ?_
      rw [hw]
      cases s.running <;> simp [Worker.rank]
  | @empty w _ hw =>
      have hrunning := hi.stopped w (.inl hw)
      refine rank_lt_of_worker (w := w) rfl rfl rfl ?_
      rw [hw, hrunning, if_pos (hempty hrunning)]
      simp [Worker.rank]
  | stop hidle => exact rank_lt_of_left (by simp [hidle, Destructor.left])
  | writeAlwaysPop hstopped => exact rank_lt_of_left (by simp [hstopped, Destructor.left])
  | notifyAll halways => exact rank_lt_of_left (by simp [halways, Destructor.left])
  | join hnotified _ => exact rank_lt_of_left (by simp [hnotified, Destructor.left])

/-- A step that leaves all tasks where they are. -/
structure Rests (s s' : PoolState n τ) : Prop where
  data : s'.data = s.data
  call : s'.call = s.call
  finished : s'.finished = s.finished
  taken : taken s'.worker = taken s.worker

theorem rests {a : Act n τ} (ha : a.OfWorker ∨ a.OfDestructor)
    (hpop : ∀ w, a = .pop w → s.data = []) (hstep : s.step a = some s') : Rests s s' := by
  cases PoolState.step_moves hstep with
  | lock | see | reject | accept | acceptWaking | run => exact ha.elim False.elim False.elim
  | @pop w _ hw =>
      rw [PoolState.pop, hpop w rfl]
      dsimp only
      split
      · exact ⟨rfl, rfl, rfl, taken_goOn (by rw [hw]; rfl)⟩
      · exact ⟨rfl, rfl, rfl, taken_goOn (by rw [hw]; rfl)⟩
  | sleep hw | wake hw => exact ⟨rfl, rfl, rfl, taken_goOn (by rw [hw]; rfl)⟩
  | readRunning hw =>
      refine ⟨rfl, rfl, rfl, taken_goOn ?_⟩
      rw [hw]
      cases s.running <;> rfl
  | empty _ hw =>
      refine ⟨rfl, rfl, rfl, taken_goOn ?_⟩
      rw [hw]
      split <;> rfl
  | stop | writeAlwaysPop | join => exact ⟨rfl, rfl, rfl, rfl⟩
  | notifyAll => exact ⟨rfl, rfl, rfl, taken_awake⟩

theorem destructor_of_worker {a : Act n τ} (ha : a.OfWorker) (hstep : s.step a = some s') :
    s'.destructor = s.destructor := by
  cases PoolState.step_moves hstep with
  | lock | see | reject | accept | acceptWaking | run | stop | writeAlwaysPop | notifyAll | join =>
      exact ha.elim
  | pop =>
      unfold PoolState.pop
      split
      · rfl
      · split <;> rfl
  | sleep | wake | readRunning | empty => rfl

theorem Inv.mutex_cases (hi : Inv s) :
    s.mutex = none ∨ (∃ w, s.worker w = .deciding) ∨ ∃ t, s.call t = .locked ∨ s.call t = .saw := by
  cases hmutex : s.mutex with
  | none => exact .inl rfl
  | some holder =>
      cases holder with
      | push t => exact .inr (.inr ⟨t, (hi.push t).mp hmutex⟩)
      | pop w => exact .inr (.inl ⟨w, (hi.pop w).mp hmutex⟩)

theorem sleep_due (hw : s.worker w = .deciding) : ∃ s', s.step (.sleep w) = some s' :=
  ⟨_, if_pos hw⟩

theorem emplace_due {task : τ} (hsaw : s.call task = .saw) :
    ∃ woken s', s.step (.emplace task woken) = some s' := by
  by_cases hasleep : ∃ w, s.worker w = .asleep
  · obtain ⟨w, hw⟩ := hasleep
    exact ⟨some w, _, (if_pos hsaw).trans (if_pos hw)⟩
  · exact ⟨none, _, (if_pos hsaw).trans (if_neg hasleep)⟩

/-- A step of a worker or of the destructor that strands nobody. -/
def Due (s : PoolState n τ) (kind : Act n τ → Prop) : Prop :=
  ∃ a s', kind a ∧ ¬ a.Spurious ∧ Undecided s a ∧ s.step a = some s'

theorem mutex_due (hi : Inv s) (hfree : ∀ t, s.call t ≠ .locked ∧ s.call t ≠ .saw) :
    s.mutex = none ∨ Due s Act.OfWorker := by
  rcases hi.mutex_cases with hmutex | ⟨v, hv⟩ | ⟨t, ht⟩
  · exact .inl hmutex
  · obtain ⟨s', hs'⟩ := sleep_due hv
    exact .inr ⟨.sleep v, s', trivial, id, trivial, hs'⟩
  · exact absurd ht (not_or.mpr (hfree t))

theorem onTheWay_due (hi : Inv s) (hfree : ∀ t, s.call t ≠ .locked ∧ s.call t ≠ .saw)
    (hw : (s.worker w).OnTheWay) :
    (∃ task, s.worker w = .took task) ∨ Due s Act.OfWorker := by
  cases hw' : s.worker w with
  | took task => exact .inl ⟨task, rfl⟩
  | test => exact .inr ⟨.readRunning w, _, trivial, id, trivial, if_pos hw'⟩
  | pop =>
      rcases mutex_due hi hfree with hmutex | hdue
      · exact .inr ⟨.pop w, _, trivial, id, trivial, if_pos ⟨hmutex, hw'⟩⟩
      · exact .inr hdue
  | deciding | asleep | checkEmpty | returned =>
      rw [hw'] at hw
      exact hw.elim

/-- Without tasks the destructor comes to its end, unless a worker is stranded. -/
theorem destructor_due (hi : Inv s) (hfree : ∀ t, s.call t ≠ .locked ∧ s.call t ≠ .saw)
    (htook : ∀ w task, s.worker w ≠ .took task) (hjoined : s.destructor ≠ .joined) :
    Stranded s ∨ Due s fun a => a.OfWorker ∨ a.OfDestructor := by
  have hworker (h : Due s Act.OfWorker) : Due s fun a => a.OfWorker ∨ a.OfDestructor := by
    obtain ⟨a, s', ha, hrest⟩ := h
    exact ⟨a, s', .inl ha, hrest⟩
  cases hd : s.destructor with
  | idle => exact .inr ⟨.stop, _, .inr trivial, id, trivial, if_pos hd⟩
  | stopped => exact .inr ⟨.writeAlwaysPop, _, .inr trivial, id, trivial, if_pos hd⟩
  | always =>
      by_cases hdeciding : ∃ w, s.worker w = .deciding
      · obtain ⟨w, hw⟩ := hdeciding
        obtain ⟨s', hs'⟩ := sleep_due hw
        exact .inr ⟨.sleep w, s', .inl trivial, id, trivial, hs'⟩
      · exact .inr ⟨.notifyAll, _, .inr trivial, id, not_exists.mp hdeciding, if_pos hd⟩
  | notified =>
      by_cases hall : ∀ w, s.worker w = .returned
      · exact .inr ⟨.join, _, .inr trivial, id, trivial, if_pos ⟨hd, hall⟩⟩
      obtain ⟨w, hw⟩ := not_forall.mp hall
      by_cases hway : (s.worker w).OnTheWay
      · rcases onTheWay_due hi hfree hway with ⟨task, htask⟩ | hdue
        · exact absurd htask (htook w task)
        · exact .inr (hworker hdue)
      cases hw' : s.worker w with
      | asleep => exact .inl ⟨by rw [hd]; rfl, ⟨w, hw'⟩, fun t => (hfree t).2⟩
      | deciding =>
          obtain ⟨s', hs'⟩ := sleep_due hw'
          exact .inr ⟨.sleep w, s', .inl trivial, id, trivial, hs'⟩
      | checkEmpty =>
          rcases mutex_due hi hfree with hmutex | hdue
          · exact .inr ⟨.empty w, _, .inl trivial, id, trivial, if_pos ⟨hmutex, hw'⟩⟩
          · exact .inr (hworker hdue)
      | returned => exact absurd hw' hw
      | pop | test | took =>
          rw [hw'] at hway
          exact absurd trivial hway
  | joined => exact absurd hd hjoined

/-- The destructor waits for a worker that is asleep, and there is no task. -/
structure Stuck (s : PoolState n τ) (w : Fin n) : Prop where
  notified : s.destructor = .notified
  asleep : s.worker w = .asleep
  data : s.data = []
  noTask : taken s.worker = []

/-- It waits for ever. -/
theorem Stuck.step (h : Stuck s w) {a : Act n τ} (ha : a.OfWorker ∨ a.OfDestructor)
    (hwake : ¬ a.Spurious) (hstep : s.step a = some s') : Stuck s' w := by
  have hrests := rests ha (fun _ _ => h.data) hstep
  have hother {v : Fin n} {p : Worker τ} (hv : s.worker v ≠ .asleep) :
      Function.update s.worker v p w = .asleep := by
    have hwv : w ≠ v := fun hwv => hv (hwv ▸ h.asleep)
    rw [Function.update_of_ne hwv, h.asleep]
  have hstuck (hdestructor : s'.destructor = s.destructor) (hasleep : s'.worker w = .asleep) :
      Stuck s' w :=
    ⟨hdestructor.trans h.notified, hasleep, hrests.data.trans h.data, hrests.taken.trans h.noTask⟩
  cases PoolState.step_moves hstep with
  | lock | see | reject | accept | acceptWaking | run => exact ha.elim False.elim False.elim
  | wake => exact absurd trivial hwake
  | @pop v _ hv =>
      have hasleep : s.worker v ≠ .asleep := by simp [hv]
      unfold PoolState.pop at hstuck ⊢
      rw [h.data] at hstuck ⊢
      dsimp only at hstuck ⊢
      split at hstuck
      next halways => exact if_pos halways ▸ hstuck rfl (hother hasleep)
      next halways => exact if_neg halways ▸ hstuck rfl (hother hasleep)
  | sleep hv | readRunning hv | empty _ hv => exact hstuck rfl (hother (by simp [hv]))
  | stop hd | writeAlwaysPop hd | notifyAll hd =>
      rw [h.notified] at hd
      cases hd
  | join _ hall =>
      have hreturned := hall w
      rw [h.asleep] at hreturned
      cases hreturned

/-- A worker that looks for a task just before the destructor starts can be stranded. -/
theorem strands (h : Live s) (hidle : s.destructor = .idle) (hdata : s.data = [])
    (hnone : taken s.worker = []) (hmutex : s.mutex = none) (hw : s.worker w = .pop) :
    ∃ s', ([.pop w, .stop, .writeAlwaysPop, .notifyAll, .sleep w] : List (Act n τ)).foldlM
      PoolState.step s = some s' ∧ Stuck s' w := by
  have halways : s.alwaysPop = false := by
    rw [Bool.eq_false_iff, ne_eq, h.alwaysPop, hidle]
    simp [Destructor.wrote]
  have hpop : s.pop w = { s.setWorker w .deciding with mutex := some (.pop w) } := by
    rw [PoolState.pop, hdata, halways]
    rfl
  let worker : Fin n → Worker τ := Function.update s.worker w .deciding
  have hdeciding : taken worker = [] := (taken_goOn (by rw [hw]; rfl)).trans hnone
  have hasleep : taken (Function.update (fun v => (worker v).awake) w .asleep) = [] := by
    refine (taken_goOn ?_).trans (taken_awake.trans hdeciding)
    simp [worker, Worker.awake, Worker.task]
  refine ⟨{ s with
    worker := Function.update (fun v => (worker v).awake) w .asleep
    mutex := none, running := false, alwaysPop := true, destructor := .notified }, ?_,
    rfl, by simp, hdata, hasleep⟩
  simp [PoolState.step, hmutex, hw, hpop, hidle, PoolState.setWorker, Worker.awake, worker]

end

end PGBigNumber.Parallel
