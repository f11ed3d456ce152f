import PGBigNumber.Parallel.ThreadPool

/-!
# Shutting the pool down

`notifyAllPop` writes `m_alwaysPop` and wakes the sleepers without the mutex. A worker that has found
its predicate false before and goes to sleep afterwards is not woken any more.
-/

namespace PGBigNumber.Parallel

variable {n : Nat} {τ : Type} {s s' : PoolState n τ} {w : Fin n}

def Destructor.wrote : Destructor → Bool
  | .always | .notified | .joined => true
  | _ => false

def Destructor.woke : Destructor → Bool
  | .notified | .joined => true
  | _ => false

/-- `notifyAllPop` has been executed, a worker is asleep, and no `push` is on its way to a
`notify_one`. -/
def Stranded (s : PoolState n τ) : Prop :=
  s.destructor.woke ∧ (∃ w, s.worker w = .asleep) ∧ ∀ t, s.call t ≠ .saw

/-- When the sleepers are woken, no worker is between its test and its sleep. -/
def Undecided (s : PoolState n τ) (a : Act n τ) : Prop :=
  match a with
  | .notifyAll => ∀ w, s.worker w ≠ .deciding
  | _ => True

/-- Behind the write of `m_alwaysPop` it is true, and behind `notifyAllPop` no worker is asleep or
about to be. -/
structure AllAwake (s : PoolState n τ) : Prop where
  wrote : s.destructor.wrote → s.alwaysPop = true
  woke : s.destructor.woke → ∀ w, s.worker w ≠ .deciding ∧ s.worker w ≠ .asleep

/-- What a step of a call or a worker can do about sleeping: a worker finds its predicate false only
while `m_alwaysPop` is false, and goes to sleep only behind that. -/
structure Settles (s s' : PoolState n τ) : Prop where
  destructor : s'.destructor = s.destructor
  alwaysPop : s'.alwaysPop = s.alwaysPop
  deciding : ∀ v, s'.worker v = .deciding → s.worker v = .deciding ∨ s.alwaysPop = false
  asleep : ∀ v, s'.worker v = .asleep → s.worker v = .asleep ∨ s.worker v = .deciding

theorem Settles.of_setWorker {p : Worker τ} (hp : p ≠ .deciding ∧ p ≠ .asleep)
    (hdestructor : s'.destructor = s.destructor) (halways : s'.alwaysPop = s.alwaysPop)
    (hworker : s'.worker = Function.update s.worker w p) : Settles s s' where
  destructor := hdestructor
  alwaysPop := halways
  deciding v hv := by
    rw [hworker] at hv
    by_cases hvw : v = w
    · subst hvw
      rw [Function.update_self] at hv
      exact absurd hv hp.1
    · rw [Function.update_of_ne hvw] at hv
      exact .inl hv
  asleep v hv := by
    rw [hworker] at hv
    by_cases hvw : v = w
    · subst hvw
      rw [Function.update_self] at hv
      exact absurd hv hp.2
    · rw [Function.update_of_ne hvw] at hv
      exact .inl hv

theorem Settles.of_worker_eq (hdestructor : s'.destructor = s.destructor)
    (halways : s'.alwaysPop = s.alwaysPop) (hworker : s'.worker = s.worker) : Settles s s' where
  destructor := hdestructor
  alwaysPop := halways
  deciding _ hv := .inl (hworker ▸ hv)
  asleep _ hv := .inl (hworker ▸ hv)

theorem AllAwake.settles (h : AllAwake s) (hs : Settles s s') : AllAwake s' where
  wrote hwrote := by
    rw [hs.alwaysPop]
    exact h.wrote (hs.destructor ▸ hwrote)
  woke hwoke v := by
    rw [hs.destructor] at hwoke
    have hwrote : s.destructor.wrote := by
      cases hd : s.destructor <;> simp_all [Destructor.woke, Destructor.wrote]
    have hv := h.woke hwoke v
    refine ⟨fun hdeciding => ?_, fun hasleep => ?_⟩
    · rcases hs.deciding v hdeciding with hold | hfalse
      · exact hv.1 hold
      · rw [h.wrote hwrote] at hfalse
        cases hfalse
    · rcases hs.asleep v hasleep with hold | hold
      · exact hv.2 hold
      · exact hv.1 hold

theorem pop_settles (hw : s.worker w = .pop) : Settles s (s.pop w) := by
  unfold PoolState.pop
  split
  · exact .of_setWorker (w := w) (by simp) rfl rfl rfl
  · split
    · exact .of_setWorker (w := w) (by simp) rfl rfl rfl
    · next hfalse =>
      refine ⟨rfl, rfl, fun v hv => .inr (by simpa using hfalse), fun v hv => ?_⟩
      by_cases hvw : v = w
      · subst hvw
        simp [PoolState.setWorker] at hv
      · exact .inl (by simpa [PoolState.setWorker, hvw] using hv)

theorem sleep_settles (hw : s.worker w = .deciding) :
    Settles s { s.setWorker w .asleep with mutex := none } := by
  refine ⟨rfl, rfl, fun v hv => ?_, fun v hv => ?_⟩
  · by_cases hvw : v = w
    · exact .inl (hvw ▸ hw)
    · exact .inl (by simpa [PoolState.setWorker, hvw] using hv)
  · by_cases hvw : v = w
    · exact .inr (hvw ▸ hw)
    · exact .inl (by simpa [PoolState.setWorker, hvw] using hv)

section

variable [DecidableEq τ]

/-- A permitted step leaves everybody awake. -/
theorem AllAwake.step (h : AllAwake s) {a : Act n τ} (hok : Undecided s a)
    (hstep : s.step a = some s') : AllAwake s' := by
  cases PoolState.step_moves hstep with
  | lock => exact h.settles (.of_worker_eq rfl rfl rfl)
  | see => exact h.settles (.of_worker_eq rfl rfl rfl)
  | reject => exact h.settles (.of_worker_eq rfl rfl rfl)
  | accept => exact h.settles (.of_worker_eq rfl rfl rfl)
  | @acceptWaking _ w => exact h.settles (.of_setWorker (w := w) (p := .pop) (by simp) rfl rfl rfl)
  | pop _ hw => exact h.settles (pop_settles hw)
  | sleep hw => exact h.settles (sleep_settles hw)
  | @wake w => exact h.settles (.of_setWorker (w := w) (p := .pop) (by simp) rfl rfl rfl)
  | @run w => exact h.settles (.of_setWorker (w := w) (p := .test) (by simp) rfl rfl rfl)
  | @readRunning w =>
      refine h.settles (.of_setWorker (w := w) ?_ rfl rfl rfl)
      cases s.running <;> simp
  | @empty w =>
      refine h.settles (.of_setWorker (w := w) ?_ rfl rfl rfl)
      split <;> simp
  | stop => exact ⟨by rintro ⟨⟩, by rintro ⟨⟩⟩
  | writeAlwaysPop => exact ⟨fun _ => rfl, by rintro ⟨⟩⟩
  | notifyAll halways =>
      refine ⟨fun _ => h.wrote (by rw [halways]; rfl), fun _ v => ⟨?_, Worker.awake_ne_asleep⟩⟩
      simpa using hok v
  | join hnotified =>
      exact ⟨fun _ => h.wrote (by rw [hnotified]; rfl), fun _ => h.woke (by rw [hnotified]; rfl)⟩

/-- A worker that is between its test and its sleep when the sleepers are woken is stranded by its
next step. -/
theorem stranded_of_deciding (h : Inv s) (hdestructor : s.destructor = .always)
    (hw : s.worker w = .deciding) :
    ∃ s', ([.notifyAll, .sleep w] : List (Act n τ)).foldlM PoolState.step s = some s' ∧
      Stranded s' := by
  have hmutex := (h.pop w).mpr hw
  have hcall : ∀ t, s.call t ≠ .saw := by
    intro t ht
    have hpush := (h.push t).mpr (.inr ht)
    rw [hmutex] at hpush
    cases hpush
  have hawake : (s.worker w).awake = .deciding := Worker.awake_deciding.mpr hw
  simp only [List.foldlM_cons, List.foldlM_nil, PoolState.step, hdestructor, if_true, hawake,
    Option.bind_eq_bind, Option.bind_some]
  refine ⟨_, rfl, rfl, ⟨w, ?_⟩, hcall⟩
  simp [PoolState.setWorker]

/-- No worker is stranded in a run in which none is between its test and its sleep when the sleepers
are woken; and where one is, the run can strand it. -/
theorem shutdown_strands_none (n : Nat) (acts : List (Act n τ)) :
    (Runs.Permitted PoolState.step Undecided ({} : PoolState n τ) acts →
      Runs.Throughout PoolState.step (fun s => ¬ Stranded s) {} acts) ∧
    ∀ s w, acts.foldlM PoolState.step ({} : PoolState n τ) = some s → s.destructor = .always →
      s.worker w = .deciding →
      ∃ s', (acts ++ [Act.notifyAll, .sleep w]).foldlM PoolState.step {} = some s' ∧ Stranded s' := by
  constructor
  · intro hacts
    have hinit : AllAwake ({} : PoolState n τ) := ⟨by rintro ⟨⟩, by rintro ⟨⟩⟩
    refine (Runs.throughout_of_permitted (fun s a s' h hok hstep => h.step hok hstep) hinit
      hacts).mono fun s h hstranded => ?_
    obtain ⟨hwoke, ⟨w, hw⟩, -⟩ := hstranded
    exact (h.woke hwoke w).2 hw
  · intro s w hrun hdestructor hw
    have hinv := (Runs.throughout_of_invariant (fun s a s' h hstep => Inv.step h hstep) inv_init
      acts).finish hrun
    obtain ⟨s', hs', hstranded⟩ := stranded_of_deciding hinv hdestructor hw
    refine ⟨s', ?_, hstranded⟩
    rw [List.foldlM_append, hrun]
    exact hs'

/-- A single worker that tests its predicate before the destructor starts and sleeps after it. -/
theorem shutdown_strands : ¬ ∀ (n : Nat) (acts : List (Act n Unit)),
    Runs.Throughout PoolState.step (fun s => ¬ Stranded s) {} acts := by
  intro h
  have hlast := (((((h 1 [.pop 0, .stop, .writeAlwaysPop, .notifyAll, .sleep 0]).2 _ rfl).2 _
    rfl).2 _ rfl).2 _ rfl).2 _ rfl
  exact hlast ⟨rfl, ⟨0, rfl⟩, fun _ => by rintro ⟨⟩⟩

end

end PGBigNumber.Parallel
