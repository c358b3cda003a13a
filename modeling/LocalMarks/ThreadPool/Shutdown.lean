import LocalMarks.ThreadPool.Invariant

/-!
# Shutdown and the sleeping workers

`stop` is stored and `not_empty` is broadcast without the lock. A worker that saw `stop` clear
and has not yet gone to sleep misses the broadcast; when there is none, every worker is awake
when the joins begin and stays awake.
-/

namespace LocalMarks.Pool
open LocalMarks.Lib

/-- At the broadcast on `not_empty` no worker stands between its test of `stop` and its sleep. -/
def BroadcastInTime (pool : ThreadPool) (l : Label) : Prop :=
  l = .destroy → pool.destroyer = .stopStored →
    ∀ i < pool.numThreads, pool.worker i ≠ .sleeping

instance (pool : ThreadPool) (l : Label) : Decidable (BroadcastInTime pool l) :=
  inferInstanceAs (Decidable (_ → _ → _))

/-- Past the broadcast on `not_empty`. -/
def DestroyPc.broadcast : DestroyPc → Bool
  | .notCalled | .stopStored => false
  | .emptyBroadcast | .joining _ | .destroyed => true

/-- Once `stop` is stored it stays; once broadcast, nobody sleeps or is about to. -/
structure AwakeInv (pool : ThreadPool) : Prop where
  stored : pool.destroyer ≠ .notCalled → pool.stop = true
  awake : pool.destroyer.broadcast = true →
    pool.notEmpty = ∅ ∧ ∀ i < pool.numThreads, pool.worker i ≠ .sleeping

variable {cap n i : ℕ} {pool pool' : ThreadPool}

theorem stop_of_broadcast (ha : AwakeInv pool) (hb : pool.destroyer.broadcast = true) :
    pool.stop = true := by
  apply ha.stored
  intro hnot
  rw [hnot] at hb
  cases hb

theorem AwakeInv.moveWorker (ha : AwakeInv pool) {pc : WorkerPc} (hw : ∀ j, pool'.worker j =
      Function.update pool.worker i pc j) (hd : pool'.destroyer = pool.destroyer)
    (hs : pool'.stop = pool.stop) (he : pool'.notEmpty = pool.notEmpty)
    (hn : pool'.numThreads = pool.numThreads) (hpc : pc ≠ .sleeping) : AwakeInv pool' := by
  refine ⟨?_, fun hb => ?_⟩
  · rw [hd, hs]
    exact ha.stored
  · rw [hd] at hb
    refine ⟨he ▸ (ha.awake hb).1, fun j hlt => ?_⟩
    rw [hw]
    by_cases hj : j = i
    · rw [hj, Function.update_self]
      exact hpc
    · rw [Function.update_of_ne hj]
      exact (ha.awake hb).2 j (hn ▸ hlt)

theorem workerStep_awake (h : WorkerStep cap i pool pool') (hi : i < pool.numThreads)
    (ha : AwakeInv pool) : AwakeInv pool' := by
  cases h with
  | empty hpc hc hs =>
    refine ⟨ha.stored, fun hb => ?_⟩
    have hstop := stop_of_broadcast ha hb
    rw [hs] at hstop
    cases hstop
  | sleep hpc =>
    refine ⟨ha.stored, fun hb => ?_⟩
    exact absurd hpc ((ha.awake hb).2 i hi)
  | lock | ready | wake | drained | stocked | leave | take | signal | unlock | call | done =>
    exact ha.moveWorker (fun _ => rfl) rfl rfl rfl rfl (fun h => nomatch h)

theorem submitStep_awake {p : ℕ} (h : SubmitStep cap p pool pool') (ha : AwakeInv pool) :
    AwakeInv pool' := by
  cases h with
  | signal asleep hpc hw =>
    refine ⟨ha.stored, fun hb => ⟨?_, (ha.awake hb).2⟩⟩
    have hnone := (ha.awake hb).1
    rw [hnone] at hw
    exact Finset.subset_empty.mp hw
  | _ => exact ⟨ha.stored, ha.awake⟩

theorem destroyStep_awake (h : DestroyStep pool pool') (ha : AwakeInv pool)
    (hok : BroadcastInTime pool .destroy) : AwakeInv pool' := by
  cases h with
  | stop hpc => exact ⟨fun _ => rfl, fun hb => by cases hb⟩
  | wakeWorkers hpc =>
    exact ⟨fun _ => ha.stored (by simp [hpc]), fun _ => ⟨rfl, hok rfl hpc⟩⟩
  | wakeProducers hpc | join _ hpc | finish _ hpc =>
    exact ⟨fun _ => ha.stored (by simp [hpc]),
      fun _ => ha.awake (by simp [hpc, DestroyPc.broadcast])⟩

theorem step_awake {l : Label} (h : Step cap pool l pool') (ha : AwakeInv pool)
    (hok : BroadcastInTime pool l) : AwakeInv pool' := by
  cases h with
  | submit p _ h => exact submitStep_awake h ha
  | work i _ hi h => exact workerStep_awake h hi ha
  | destroy h => exact destroyStep_awake h ha hok
  | spuriousWorker i hi =>
    refine ⟨ha.stored, fun hb => ⟨?_, (ha.awake hb).2⟩⟩
    have hnone := (ha.awake hb).1
    rw [hnone] at hi
    cases hi
  | call _ _ _ | spuriousProducer _ _ => exact ⟨ha.stored, ha.awake⟩

/-- Every run in which the broadcast comes in time: a joining `thread_pool_destroy` waits for
no sleeping worker. -/
theorem no_sleeper_while_joining {j : ℕ}
    (h : Reach (fun pool => pool = newPool n) (Guarded (StepOf (exec cap)) BroadcastInTime) pool)
    (hj : pool.destroyer = .joining j) : pool.notEmpty = ∅ := by
  have hinv : AwakeInv pool := by
    refine h.invariant (I := AwakeInv) (fun s hs => ?_)
      fun _ _ _ _ ha hst => step_awake (exec_step hst.2) ha hst.1
    subst hs
    exact ⟨fun hne => absurd rfl hne, fun hb => by cases hb⟩
  exact (hinv.awake (by rw [hj]; rfl)).1

theorem no_sleeper_while_joining_run : ∃ pool,
    Reach (fun pool => pool = newPool 1) (Guarded (StepOf (exec 4096)) BroadcastInTime) pool ∧
      pool.destroyer = .joining 0 ∧ pool.worker 0 = .waiting ∧ pool.notEmpty = ∅ := by
  have hrun : ∃ pool, runGuarded (exec 4096) BroadcastInTime (newPool 1)
      (List.replicate 3 (.work 0 none) ++ List.replicate 3 .destroy) = some pool ∧
        pool.destroyer = .joining 0 ∧ pool.worker 0 = .waiting := ⟨_, rfl, rfl, rfl⟩
  obtain ⟨pool, hpool, hj, hw⟩ := hrun
  have hreach := Reach.of_runGuarded (I := fun pool => pool = newPool 1) _ (.start rfl) hpool
  exact ⟨pool, hreach, hj, hw, no_sleeper_while_joining hreach hj⟩

/-- The guard leaves no way out: a broadcast that finds a worker about to sleep can be followed
by the joins waiting for that worker. -/
theorem late_broadcast_misses (hi : i < pool.numThreads) (hpc : pool.worker i = .sleeping)
    (hd : pool.destroyer = .stopStored) : ∃ pool', runList (exec cap) pool
      [.destroy, .destroy, .work i none] = some pool' ∧ pool'.destroyer = .joining 0 ∧
        i ∈ pool'.notEmpty := by
  simp only [runList, exec, threadPoolDestroy, hd, Option.bind_some, if_pos hi, workerLoop, hpc]
  exact ⟨_, rfl, rfl, Finset.mem_insert_self i ∅⟩

/-- All workers asleep, nobody submitting: apart from a spurious wake-up, only a new submission
could move the pool that `thread_pool_destroy` waits for. -/
theorem asleep_is_stuck {j : ℕ} (hlock : ∀ i < pool.numThreads, pool.worker i = .waiting)
    (hsleep : ∀ i < pool.numThreads, i ∈ pool.notEmpty) (hidle : ∀ p, pool.producer p = .idle)
    (hd : pool.destroyer = .joining j) (hj : j < pool.numThreads) {l : Label}
    (h : exec cap pool l = some pool') :
    (∃ i, l = .spuriousWorker i) ∨ (∃ p, l = .spuriousProducer p) ∨ ∃ p task, l = .call p task := by
  cases l with
  | call p task => exact .inr (.inr ⟨p, task, rfl⟩)
  | spuriousWorker i => exact .inl ⟨i, rfl⟩
  | spuriousProducer p => exact .inr (.inl ⟨p, rfl⟩)
  | submit p wakes => simp [exec, threadPoolSubmit, hidle p] at h
  | work i wakes =>
    by_cases hi : i < pool.numThreads
    · simp [exec, workerLoop, hlock i hi, hsleep i hi] at h
    · simp [exec, hi] at h
  | destroy => simp [exec, threadPoolDestroy, hd, hj, hlock j hj] at h

/-- The one worker tests `stop`, `thread_pool_destroy` stores and broadcasts, and the worker goes
to sleep for good. -/
theorem missed_wakeup : ¬∀ pool, Reachable 4096 1 pool → (∃ j, pool.destroyer = .joining j) →
    pool.notEmpty = ∅ := by
  intro hevery
  have hrun : ∃ pool, runList (exec 4096) (newPool 1)
      [.work 0 none, .work 0 none, .destroy, .destroy, .destroy, .work 0 none] = some pool ∧
        pool.destroyer = .joining 0 ∧ 0 ∈ pool.notEmpty :=
    ⟨_, rfl, rfl, Finset.mem_insert_self 0 ∅⟩
  obtain ⟨pool, hpool, hj, hmem⟩ := hrun
  have hnone := hevery pool (Reach.of_runList _ (.start rfl) hpool) ⟨0, hj⟩
  rw [hnone] at hmem
  cases hmem

end LocalMarks.Pool
