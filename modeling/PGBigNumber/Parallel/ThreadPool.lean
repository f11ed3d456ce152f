import Mathlib.Algebra.BigOperators.Group.Finset.Piecewise
import Mathlib.Data.Fintype.Basic
import PGBigNumber.Library.Runs

/-!
# The thread pool

`ThreadPool` and the queue it is built on, as atomic steps: what a call does while it holds
`m_mutex` without looking at `m_running`, a read or a write of `m_running`, a run of a task. Steps of
the workers, of calls of `addTask` and of the destructor follow one another in any order; no task is
lost and none is run twice.
-/

namespace PGBigNumber.Parallel

/-- Where the call of `addTask` for a task is: not made, in `push` with the mutex in front of
`cond()`, or behind a `cond()` that has read `true`; or it has returned. -/
inductive Call where
  | idle
  | locked
  | saw
  | accepted
  | rejected
deriving DecidableEq, Repr

/-- Where a worker is: in front of `pop`, or awake again in it; in `pop` with the mutex and a
predicate that was false; asleep on `m_cond`; behind `pop` with a task; at the test of `m_running`;
in front of `m_tasks.empty()`; or it has returned. -/
inductive Worker (τ : Type) where
  | pop
  | deciding
  | asleep
  | took (task : τ)
  | test
  | checkEmpty
  | returned
deriving DecidableEq, Repr

/-- Where the destructor is: not called, behind `m_running = false`, in `notifyAllPop` behind the
write of `m_alwaysPop`, behind `notifyAllPop`, or done. -/
inductive Destructor where
  | idle
  | stopped
  | always
  | notified
  | joined
deriving DecidableEq, Repr

/-- Who holds `m_mutex` between two steps: the `push` of a task, or a worker in `pop`. -/
inductive Holder (n : Nat) (τ : Type) where
  | push (task : τ)
  | pop (w : Fin n)
deriving DecidableEq, Repr

/-- A pool of `n` workers and the calls on it; `finished` has the tasks whose run has ended. -/
structure PoolState (n : Nat) (τ : Type) where
  running : Bool := true
  alwaysPop : Bool := false
  mutex : Option (Holder n τ) := none
  data : List τ := []
  call : τ → Call := fun _ => .idle
  worker : Fin n → Worker τ := fun _ => .pop
  finished : List τ := []
  destructor : Destructor := .idle

/-- A step: of the `addTask` of a task, of a worker, or of the destructor. `notify_one` wakes the
sleeper `woken`. -/
inductive Act (n : Nat) (τ : Type) where
  | lock (task : τ)
  | cond (task : τ)
  | emplace (task : τ) (woken : Option (Fin n))
  | pop (w : Fin n)
  | sleep (w : Fin n)
  | wake (w : Fin n)
  | run (w : Fin n)
  | readRunning (w : Fin n)
  | empty (w : Fin n)
  | stop
  | writeAlwaysPop
  | notifyAll
  | join

variable {n : Nat} {τ : Type}

def Worker.awake : Worker τ → Worker τ
  | .asleep => .pop
  | w => w

namespace PoolState

section

variable (s : PoolState n τ)

def setWorker (w : Fin n) (p : Worker τ) : PoolState n τ :=
  { s with worker := Function.update s.worker w p }

@[simp] theorem setWorker_data (w : Fin n) (p : Worker τ) : (s.setWorker w p).data = s.data := rfl

@[simp] theorem setWorker_mutex (w : Fin n) (p : Worker τ) : (s.setWorker w p).mutex = s.mutex := rfl

@[simp] theorem setWorker_finished (w : Fin n) (p : Worker τ) :
    (s.setWorker w p).finished = s.finished := rfl

end

variable [DecidableEq τ] (s : PoolState n τ)

def setCall (task : τ) (c : Call) : PoolState n τ :=
  { s with call := Function.update s.call task c }

/-- `push` behind a `cond()` that was true: one sleeper is woken if there is one. -/
def emplace (task : τ) (woken : Option (Fin n)) : Option (PoolState n τ) :=
  let s' := { s.setCall task .accepted with data := s.data ++ [task], mutex := none }
  match woken with
  | none => if ∃ w, s.worker w = .asleep then none else some s'
  | some w => if s.worker w = .asleep then some (s'.setWorker w .pop) else none

def pop (w : Fin n) : PoolState n τ :=
  match s.data with
  | task :: data => { s.setWorker w (.took task) with data }
  | [] =>
    if s.alwaysPop then s.setWorker w .test
    else { s.setWorker w .deciding with mutex := some (.pop w) }

/-- One step; `none` where it is not due. -/
def step : Act n τ → Option (PoolState n τ)
  | .lock task =>
    if s.mutex = none ∧ s.call task = .idle then
      some { s.setCall task .locked with mutex := some (.push task) }
    else none
  | .cond task =>
    if s.call task = .locked then
      if s.running then some (s.setCall task .saw)
      else some { s.setCall task .rejected with mutex := none }
    else none
  | .emplace task woken => if s.call task = .saw then s.emplace task woken else none
  | .pop w => if s.mutex = none ∧ s.worker w = .pop then some (s.pop w) else none
  | .sleep w =>
    if s.worker w = .deciding then some { s.setWorker w .asleep with mutex := none } else none
  | .wake w => if s.worker w = .asleep then some (s.setWorker w .pop) else none
  | .run w =>
    match s.worker w with
    | .took task => some { s.setWorker w .test with finished := s.finished ++ [task] }
    | _ => none
  | .readRunning w =>
    if s.worker w = .test then some (s.setWorker w (if s.running then .pop else .checkEmpty))
    else none
  | .empty w =>
    if s.mutex = none ∧ s.worker w = .checkEmpty then
      some (s.setWorker w (if s.data = [] then .returned else .pop))
    else none
  | .stop =>
    if s.destructor = .idle then some { s with running := false, destructor := .stopped } else none
  | .writeAlwaysPop =>
    if s.destructor = .stopped then some { s with alwaysPop := true, destructor := .always } else none
  | .notifyAll =>
    if s.destructor = .always then
      some { s with worker := fun w => (s.worker w).awake, destructor := .notified }
    else none
  | .join =>
    if s.destructor = .notified ∧ ∀ w, s.worker w = .returned then some { s with destructor := .joined }
    else none

/-- A step that is due, and the state it leads to. -/
inductive Moves : Act n τ → PoolState n τ → Prop
  | lock {task} (hmutex : s.mutex = none) (hidle : s.call task = .idle) :
      Moves (.lock task) { s.setCall task .locked with mutex := some (.push task) }
  | see {task} (hlocked : s.call task = .locked) (hrunning : s.running = true) :
      Moves (.cond task) (s.setCall task .saw)
  | reject {task} (hlocked : s.call task = .locked) (hrunning : s.running = false) :
      Moves (.cond task) { s.setCall task .rejected with mutex := none }
  | accept {task} (hsaw : s.call task = .saw) :
      Moves (.emplace task none)
        { s.setCall task .accepted with data := s.data ++ [task], mutex := none }
  | acceptWaking {task w} (hsaw : s.call task = .saw) (hasleep : s.worker w = .asleep) :
      Moves (.emplace task (some w))
        (({ s.setCall task .accepted with data := s.data ++ [task], mutex := none } :
          PoolState n τ).setWorker w .pop)
  | pop {w} (hmutex : s.mutex = none) (hw : s.worker w = .pop) : Moves (.pop w) (s.pop w)
  | sleep {w} (hw : s.worker w = .deciding) :
      Moves (.sleep w) { s.setWorker w .asleep with mutex := none }
  | wake {w} (hw : s.worker w = .asleep) : Moves (.wake w) (s.setWorker w .pop)
  | run {w task} (hw : s.worker w = .took task) :
      Moves (.run w) { s.setWorker w .test with finished := s.finished ++ [task] }
  | readRunning {w} (hw : s.worker w = .test) :
      Moves (.readRunning w) (s.setWorker w (if s.running then .pop else .checkEmpty))
  | empty {w} (hmutex : s.mutex = none) (hw : s.worker w = .checkEmpty) :
      Moves (.empty w) (s.setWorker w (if s.data = [] then .returned else .pop))
  | stop (hidle : s.destructor = .idle) :
      Moves .stop { s with running := false, destructor := .stopped }
  | writeAlwaysPop (hstopped : s.destructor = .stopped) :
      Moves .writeAlwaysPop { s with alwaysPop := true, destructor := .always }
  | notifyAll (halways : s.destructor = .always) :
      Moves .notifyAll { s with worker := fun w => (s.worker w).awake, destructor := .notified }
  | join (hnotified : s.destructor = .notified) (hall : ∀ w, s.worker w = .returned) :
      Moves .join { s with destructor := .joined }

variable {s} {s' : PoolState n τ}

theorem emplace_moves {task : τ} {woken : Option (Fin n)} (hsaw : s.call task = .saw)
    (h : s.emplace task woken = some s') : s.Moves (.emplace task woken) s' := by
  unfold emplace at h
  cases woken with
  | none =>
      dsimp only at h
      split at h <;> cases h
      exact .accept hsaw
  | some w =>
      dsimp only at h
      split at h <;> cases h
      next hasleep => exact .acceptWaking hsaw hasleep

theorem step_moves {a : Act n τ} (h : s.step a = some s') : s.Moves a s' := by
  unfold step at h
  cases a with
  | lock task =>
      dsimp only at h
      split at h <;> cases h
      next hdue => exact .lock hdue.1 hdue.2
  | cond task =>
      dsimp only at h
      split at h
      · next hlocked =>
        split at h <;> cases h
        · next hrunning => exact .see hlocked hrunning
        · next hrunning => exact .reject hlocked (by simpa using hrunning)
      · cases h
  | emplace task woken =>
      dsimp only at h
      split at h
      · next hsaw => exact emplace_moves hsaw h
      · cases h
  | pop w =>
      dsimp only at h
      split at h <;> cases h
      next hdue => exact .pop hdue.1 hdue.2
  | sleep w =>
      dsimp only at h
      split at h <;> cases h
      next hw => exact .sleep hw
  | wake w =>
      dsimp only at h
      split at h <;> cases h
      next hw => exact .wake hw
  | run w =>
      dsimp only at h
      split at h <;> cases h
      next hw => exact .run hw
  | readRunning w =>
      dsimp only at h
      split at h <;> cases h
      next hw => exact .readRunning hw
  | empty w =>
      dsimp only at h
      split at h <;> cases h
      next hdue => exact .empty hdue.1 hdue.2
  | stop =>
      dsimp only at h
      split at h <;> cases h
      next hidle => exact .stop hidle
  | writeAlwaysPop =>
      dsimp only at h
      split at h <;> cases h
      next hstopped => exact .writeAlwaysPop hstopped
  | notifyAll =>
      dsimp only at h
      split at h <;> cases h
      next halways => exact .notifyAll halways
  | join =>
      dsimp only at h
      split at h <;> cases h
      next hdue => exact .join hdue.1 hdue.2

end PoolState

/-- In how many places a task is, going by the `addTask` that has been called for it. -/
def Call.places : Call → Nat
  | .accepted => 1
  | _ => 0

/-- How many tasks `task` a worker has taken and not run to the end. -/
def Worker.holds [DecidableEq τ] (task : τ) : Worker τ → Nat
  | .took t => if t = task then 1 else 0
  | _ => 0

section

variable [DecidableEq τ]

def takers (worker : Fin n → Worker τ) (task : τ) : Nat := ∑ w, (worker w).holds task

theorem takers_update (worker : Fin n → Worker τ) (w : Fin n) (p : Worker τ) (task : τ) :
    takers (Function.update worker w p) task + (worker w).holds task =
      takers worker task + p.holds task := by
  have hupdate : (fun v => (Function.update worker w p v).holds task) =
      Function.update (fun v => (worker v).holds task) w (p.holds task) := by
    funext v
    by_cases hv : v = w
    · subst hv
      simp
    · simp [hv]
  have hold := Finset.sum_eq_add_sum_sdiff_singleton_of_mem (Finset.mem_univ w)
    fun v => (worker v).holds task
  have hnew := Finset.sum_update_of_mem (Finset.mem_univ w) (fun v => (worker v).holds task)
    (p.holds task)
  unfold takers
  rw [hupdate, hnew, hold]
  omega

theorem takers_awake (worker : Fin n → Worker τ) (task : τ) :
    takers (fun w => (worker w).awake) task = takers worker task := by
  apply Finset.sum_congr rfl
  intro w _
  dsimp only
  cases worker w <;> rfl

end

namespace Worker

variable {p : Worker τ}

@[simp] theorem awake_deciding : p.awake = .deciding ↔ p = .deciding := by
  cases p <;> simp [awake]

@[simp] theorem awake_checkEmpty : p.awake = .checkEmpty ↔ p = .checkEmpty := by
  cases p <;> simp [awake]

@[simp] theorem awake_returned : p.awake = .returned ↔ p = .returned := by
  cases p <;> simp [awake]

theorem awake_ne_asleep : p.awake ≠ .asleep := by
  cases p <;> simp [awake]

end Worker

variable [DecidableEq τ] {s s' : PoolState n τ} {task : τ} {w : Fin n}

/-- A task whose `push` has accepted it is in one place, and any other task in none; the mutex is
held where a call or a worker says so; and behind the return of a worker nothing is queued any
more. -/
structure Inv (s : PoolState n τ) : Prop where
  placed : ∀ t, s.data.count t + takers s.worker t + s.finished.count t = (s.call t).places
  push : ∀ t, s.mutex = some (.push t) ↔ s.call t = .locked ∨ s.call t = .saw
  pop : ∀ w, s.mutex = some (.pop w) ↔ s.worker w = .deciding
  stopped : ∀ w, s.worker w = .checkEmpty ∨ s.worker w = .returned → s.running = false
  returned : ∀ w, s.worker w = .returned → s.data = [] ∧ ∀ t, s.call t ≠ .saw

theorem inv_init : Inv ({} : PoolState n τ) where
  placed t := by simp [takers, Worker.holds, Call.places]
  push t := by simp
  pop w := by simp
  stopped w := by simp
  returned w := by simp

theorem Inv.free (h : Inv s) (hmutex : s.mutex = none) :
    (∀ t, s.call t ≠ .locked ∧ s.call t ≠ .saw) ∧ ∀ w, s.worker w ≠ .deciding := by
  have hpush := h.push
  have hpop := h.pop
  rw [hmutex] at hpush hpop
  refine ⟨fun t => ?_, fun w hw => nomatch (hpop w).mpr hw⟩
  have := (hpush t).not.mp (by simp)
  exact not_or.mp this

/-- What a step of one worker has to keep: nothing is lost between the queue, the worker and the
finished tasks, and the mutex is the worker's exactly between its test and its sleep. -/
theorem Inv.setWorker (h : Inv s) {p : Worker τ} {data finished : List τ}
    {mutex : Option (Holder n τ)}
    (hplaced : ∀ t, data.count t + p.holds t + finished.count t =
      s.data.count t + (s.worker w).holds t + s.finished.count t)
    (hpush : ∀ t, mutex = some (.push t) ↔ s.mutex = some (.push t))
    (hpop : mutex = some (.pop w) ↔ p = .deciding)
    (hothers : ∀ v ≠ w, mutex = some (.pop v) ↔ s.mutex = some (.pop v))
    (hstopped : p = .checkEmpty ∨ p = .returned → s.running = false)
    (hreturned : p = .returned → data = [] ∧ ∀ t, s.call t ≠ .saw)
    (hdata : s.data = [] → data = []) :
    Inv { s.setWorker w p with data, finished, mutex } where
  placed t := by
    have htakers := takers_update s.worker w p t
    have hold := h.placed t
    have hnew := hplaced t
    change data.count t + takers (Function.update s.worker w p) t + finished.count t = _
    change _ = (s.call t).places
    omega
  push t := (hpush t).trans (h.push t)
  pop := (Function.forall_update_iff s.worker fun v q => mutex = some (.pop v) ↔ q = .deciding).mpr
    ⟨hpop, fun v hv => (hothers v hv).trans (h.pop v)⟩
  stopped := (Function.forall_update_iff s.worker fun _ q =>
    q = .checkEmpty ∨ q = .returned → s.running = false).mpr ⟨hstopped, fun v _ => h.stopped v⟩
  returned := (Function.forall_update_iff s.worker fun _ q =>
    q = .returned → data = [] ∧ ∀ t, s.call t ≠ .saw).mpr
    ⟨hreturned, fun v _ hv => ⟨hdata (h.returned v hv).1, (h.returned v hv).2⟩⟩

theorem Inv.goOn (h : Inv s) {p : Worker τ} (hholds : ∀ t, p.holds t = (s.worker w).holds t)
    (hold : s.worker w ≠ .deciding) (hnew : p ≠ .deciding)
    (hstopped : p = .checkEmpty ∨ p = .returned → s.running = false)
    (hreturned : p = .returned → s.data = [] ∧ ∀ t, s.call t ≠ .saw) : Inv (s.setWorker w p) :=
  h.setWorker (fun t => by rw [hholds t]) (fun _ => Iff.rfl)
    ((h.pop w).trans (iff_of_false hold hnew)) (fun _ _ => Iff.rfl) hstopped hreturned id

theorem Inv.lock (h : Inv s) (hmutex : s.mutex = none) (hidle : s.call task = .idle) :
    Inv { s.setCall task .locked with mutex := some (.push task) } where
  placed t := by
    by_cases ht : t = task
    · subst ht
      simpa [PoolState.setCall, hidle, Call.places] using h.placed t
    · simpa [PoolState.setCall, ht] using h.placed t
  push t := by
    by_cases ht : t = task
    · subst ht
      simp [PoolState.setCall]
    · have hfree := h.free hmutex
      simp [PoolState.setCall, ht, Ne.symm ht, (hfree.1 t).1, (hfree.1 t).2]
  pop w := by simp [PoolState.setCall, (h.free hmutex).2 w]
  stopped := h.stopped
  returned w hw := by
    refine ⟨(h.returned w hw).1, fun t => ?_⟩
    by_cases ht : t = task
    · subst ht
      simp [PoolState.setCall]
    · simpa [PoolState.setCall, ht] using (h.returned w hw).2 t

theorem Inv.cond (h : Inv s) (hlocked : s.call task = .locked) :
    (s.running = true → Inv (s.setCall task .saw)) ∧
      (s.running = false → Inv { s.setCall task .rejected with mutex := none }) := by
  have hmutex := (h.push task).mpr (.inl hlocked)
  have hplaced : ∀ c : Call, c.places = 0 → ∀ t,
      s.data.count t + takers s.worker t + s.finished.count t =
        (Function.update s.call task c t).places := by
    intro c hc t
    by_cases ht : t = task
    · subst ht
      rw [Function.update_self, hc]
      simpa [hlocked, Call.places] using h.placed t
    · simpa [ht] using h.placed t
  have hother : ∀ t, t ≠ task → s.call t ≠ .locked ∧ s.call t ≠ .saw := by
    intro t ht
    have hpush := h.push t
    rw [hmutex, Option.some.injEq, Holder.push.injEq] at hpush
    exact not_or.mp (hpush.not.mp (Ne.symm ht))
  have hpop : ∀ w, s.worker w ≠ .deciding := by
    intro w hw
    have := (h.pop w).mpr hw
    rw [hmutex] at this
    cases this
  constructor
  · intro hrunning
    refine ⟨hplaced .saw rfl, fun t => ?_, h.pop, h.stopped, fun w hw => ?_⟩
    · by_cases ht : t = task
      · subst ht
        simp [PoolState.setCall, hmutex]
      · simpa [PoolState.setCall, ht] using h.push t
    · have := h.stopped w (.inr hw)
      rw [hrunning] at this
      cases this
  · intro _
    refine ⟨hplaced .rejected rfl, fun t => ?_, fun w => ?_, h.stopped, fun w hw => ?_⟩
    · by_cases ht : t = task
      · subst ht
        simp [PoolState.setCall]
      · simp [PoolState.setCall, ht, (hother t ht).1, (hother t ht).2]
    · simp [PoolState.setCall, hpop w]
    · refine ⟨(h.returned w hw).1, fun t => ?_⟩
      by_cases ht : t = task
      · subst ht
        simp [PoolState.setCall]
      · simpa [PoolState.setCall, ht] using (hother t ht).2

theorem Inv.accept (h : Inv s) (hsaw : s.call task = .saw) :
    Inv { s.setCall task .accepted with data := s.data ++ [task], mutex := none } := by
  have hmutex := (h.push task).mpr (.inr hsaw)
  refine ⟨fun t => ?_, fun t => ?_, fun w => ?_, h.stopped, fun w hw => ?_⟩
  · have hplaced := h.placed t
    by_cases ht : t = task
    · subst ht
      simp only [hsaw, Call.places] at hplaced
      simp only [PoolState.setCall, Function.update_self, Call.places, List.count_append,
        List.count_singleton_self]
      omega
    · simpa [PoolState.setCall, ht, Ne.symm ht] using hplaced
  · have hpush := h.push t
    by_cases ht : t = task
    · subst ht
      simp [PoolState.setCall]
    · rw [hmutex, Option.some.injEq, Holder.push.injEq] at hpush
      have hother := not_or.mp (hpush.not.mp (Ne.symm ht))
      simp [PoolState.setCall, ht, hother.1, hother.2]
  · have hpop := h.pop w
    rw [hmutex] at hpop
    simpa [PoolState.setCall] using hpop.not.mp (by simp)
  · exact absurd hsaw ((h.returned w hw).2 task)

theorem Inv.acceptWaking (h : Inv s) (hsaw : s.call task = .saw) (hasleep : s.worker w = .asleep) :
    Inv (({ s.setCall task .accepted with data := s.data ++ [task], mutex := none } :
      PoolState n τ).setWorker w .pop) := by
  refine (h.accept hsaw).goOn (fun t => ?_) ?_ (by simp) (by simp) (by simp)
  · simp [PoolState.setCall, hasleep, Worker.holds]
  · simp [PoolState.setCall, hasleep]

/-- `pop` with the mutex takes a task, returns without one, or finds its predicate false. -/
theorem Inv.popped (h : Inv s) (hmutex : s.mutex = none) (hw : s.worker w = .pop) :
    Inv (s.pop w) := by
  unfold PoolState.pop
  split
  · next task data hdata =>
    refine h.setWorker (fun t => ?_) (fun _ => Iff.rfl) (by simp [hmutex]) (fun _ _ => Iff.rfl)
      (by simp) (by simp) (by simp [hdata])
    simp only [hw, hdata, Worker.holds, List.count_cons, beq_iff_eq, PoolState.setWorker_finished]
    omega
  · next hdata =>
    split
    · exact h.goOn (by simp [hw, Worker.holds]) (by simp [hw]) (by simp) (by simp) (by simp)
    · refine h.setWorker (by simp [hw, Worker.holds]) (by simp [hmutex]) (by simp) (fun v hv => ?_)
        (by simp) (by simp) id
      simp [hmutex, Ne.symm hv]

theorem Inv.sleep (h : Inv s) (hw : s.worker w = .deciding) :
    Inv { s.setWorker w .asleep with mutex := none } := by
  have hmutex := (h.pop w).mpr hw
  refine h.setWorker (by simp [hw, Worker.holds]) (by simp [hmutex]) (by simp) (fun v hv => ?_)
    (by simp) (by simp) id
  simp [hmutex, Ne.symm hv]

theorem Inv.run (h : Inv s) (hw : s.worker w = .took task) :
    Inv { s.setWorker w .test with finished := s.finished ++ [task] } := by
  refine h.setWorker (fun t => ?_) (fun _ => Iff.rfl) (by simp [h.pop, hw]) (fun _ _ => Iff.rfl)
    (by simp) (by simp) id
  simp only [hw, Worker.holds, List.count_append, List.count_singleton, beq_iff_eq,
    PoolState.setWorker_data]
  omega

theorem Inv.notifyAll (h : Inv s) (d : Destructor) :
    Inv { s with worker := fun w => (s.worker w).awake, destructor := d } where
  placed t := by
    rw [takers_awake]
    exact h.placed t
  push := h.push
  pop w := by simpa using h.pop w
  stopped w := by simpa using h.stopped w
  returned w := by simpa using h.returned w

theorem Inv.empty (h : Inv s) (hmutex : s.mutex = none) (hw : s.worker w = .checkEmpty) :
    Inv (s.setWorker w (if s.data = [] then .returned else .pop)) := by
  have hrunning := h.stopped w (.inl hw)
  have hfree := h.free hmutex
  refine h.goOn (fun t => ?_) (by simp [hw]) ?_ (fun _ => hrunning) fun hreturned => ?_
  · split <;> simp [hw, Worker.holds]
  · split <;> simp
  · split at hreturned
    · next hdata => exact ⟨hdata, fun t => (hfree.1 t).2⟩
    · cases hreturned

/-- Every step keeps the invariant. -/
theorem Inv.step (h : Inv s) {a : Act n τ} (hstep : s.step a = some s') : Inv s' := by
  cases PoolState.step_moves hstep with
  | lock hmutex hidle => exact h.lock hmutex hidle
  | see hlocked hrunning => exact (h.cond hlocked).1 hrunning
  | reject hlocked hrunning => exact (h.cond hlocked).2 hrunning
  | accept hsaw => exact h.accept hsaw
  | acceptWaking hsaw hasleep => exact h.acceptWaking hsaw hasleep
  | pop hmutex hw => exact h.popped hmutex hw
  | sleep hw => exact h.sleep hw
  | wake hw =>
      exact h.goOn (by simp [hw, Worker.holds]) (by simp [hw]) (by simp) (by simp) (by simp)
  | run hw => exact h.run hw
  | readRunning hw =>
      refine h.goOn (fun t => ?_) (by simp [hw]) ?_ ?_ ?_
      all_goals cases s.running <;> simp [hw, Worker.holds]
  | empty hmutex hw => exact h.empty hmutex hw
  | stop => exact ⟨h.placed, h.push, h.pop, fun _ _ => rfl, h.returned⟩
  | writeAlwaysPop => exact ⟨h.placed, h.push, h.pop, h.stopped, h.returned⟩
  | notifyAll => exact h.notifyAll _
  | join => exact ⟨h.placed, h.push, h.pop, h.stopped, h.returned⟩

/-- The task is in exactly one of three places: queued once, taken by one worker, or finished
once. -/
def InOnePlace (s : PoolState n τ) (task : τ) : Prop :=
  (s.data.count task = 1 ∧ (∀ w, s.worker w ≠ .took task) ∧ task ∉ s.finished) ∨
  (task ∉ s.data ∧ (∃! w, s.worker w = .took task) ∧ task ∉ s.finished) ∨
  (task ∉ s.data ∧ (∀ w, s.worker w ≠ .took task) ∧ s.finished.count task = 1)

private theorem holds_eq {p : Worker τ} : p.holds task = if p = .took task then 1 else 0 := by
  cases p <;> simp [Worker.holds]

private theorem takers_eq_card (worker : Fin n → Worker τ) (task : τ) :
    takers worker task = (Finset.univ.filter fun w => worker w = .took task).card := by
  simp only [takers, holds_eq, Finset.card_filter]

private theorem takers_eq_zero {worker : Fin n → Worker τ} (h : takers worker task = 0) (w : Fin n) :
    worker w ≠ .took task := by
  rw [takers_eq_card, Finset.card_eq_zero, Finset.filter_eq_empty_iff] at h
  exact h (Finset.mem_univ w)

private theorem takers_eq_one {worker : Fin n → Worker τ} (h : takers worker task = 1) :
    ∃! w, worker w = .took task := by
  rw [takers_eq_card, Finset.card_eq_one] at h
  obtain ⟨w, hw⟩ := h
  have hmem : ∀ v, worker v = .took task ↔ v = w := by
    intro v
    simpa using Finset.ext_iff.mp hw v
  exact ⟨w, (hmem w).mpr rfl, fun v hv => (hmem v).mp hv⟩

theorem Inv.inOnePlace (h : Inv s) (haccepted : s.call task = .accepted) : InOnePlace s task := by
  have hplaced := h.placed task
  rw [haccepted] at hplaced
  simp only [Call.places] at hplaced
  by_cases hdata : s.data.count task = 0
  · by_cases hfinished : s.finished.count task = 0
    · exact .inr (.inl ⟨List.count_eq_zero.mp hdata, takers_eq_one (by omega),
        List.count_eq_zero.mp hfinished⟩)
    · exact .inr (.inr ⟨List.count_eq_zero.mp hdata, takers_eq_zero (by omega), by omega⟩)
  · exact .inl ⟨by omega, takers_eq_zero (by omega), List.count_eq_zero.mp (by omega)⟩

/-- In every state of every run an accepted task is in one place, a task that has not been accepted
in none, no task has been run twice, and once all of at least one worker have returned nothing is
queued and nothing will be. -/
theorem pool_tasks (n : Nat) (acts : List (Act n τ)) :
    Runs.Throughout PoolState.step (fun s : PoolState n τ =>
      (∀ t, s.call t = .accepted → InOnePlace s t) ∧
      (∀ t, s.call t ≠ .accepted →
        t ∉ s.data ∧ (∀ w, s.worker w ≠ .took t) ∧ t ∉ s.finished) ∧
      s.finished.Nodup ∧
      (0 < n → (∀ w, s.worker w = .returned) → s.data = [] ∧ ∀ t, s.call t ≠ .saw)) {} acts := by
  refine (Runs.throughout_of_invariant (fun s a s' h hstep => Inv.step h hstep) inv_init acts).mono
    fun s h => ⟨fun t ht => h.inOnePlace ht, fun t ht => ?_, ?_, fun hn hall => ?_⟩
  · have hplaced := h.placed t
    have hzero : (s.call t).places = 0 := by
      cases hc : s.call t <;> first | rfl | exact absurd hc ht
    exact ⟨List.count_eq_zero.mp (by omega), takers_eq_zero (by omega),
      List.count_eq_zero.mp (by omega)⟩
  · rw [List.nodup_iff_count_le_one]
    intro t
    have hplaced := h.placed t
    have hle : (s.call t).places ≤ 1 := by cases s.call t <;> simp [Call.places]
    omega
  · exact h.returned ⟨0, hn⟩ (hall _)

/-- Between the `cond()` of a `push` and its `emplace` the task is nowhere yet, and without workers an
accepted task stays in the queue. -/
theorem pool_tasks_unplaced :
    (¬ ∀ (n : Nat) (acts : List (Act n Unit)), Runs.Throughout PoolState.step
      (fun s : PoolState n Unit => ∀ t, s.call t = .saw ∨ s.call t = .accepted → InOnePlace s t)
      {} acts) ∧
    ¬ ∀ (n : Nat) (acts : List (Act n Unit)), Runs.Throughout PoolState.step
      (fun s : PoolState n Unit => (∀ w, s.worker w = .returned) →
        ∀ t, s.call t = .accepted → t ∉ s.data) {} acts := by
  constructor
  · intro h
    have hlast := ((h 0 [.lock (), .cond ()]).2 _ rfl).2 _ rfl
    rcases hlast () (.inl rfl) with ⟨hcount, -⟩ | ⟨-, ⟨w, -⟩, -⟩ | ⟨-, -, hcount⟩
    · cases hcount
    · exact w.elim0
    · cases hcount
  · intro h
    have hlast := (((h 0 [.lock (), .cond (), .emplace () none]).2 _ rfl).2 _ rfl).2 _ rfl
    exact hlast (fun w => w.elim0) () rfl (by simp)

end PGBigNumber.Parallel
