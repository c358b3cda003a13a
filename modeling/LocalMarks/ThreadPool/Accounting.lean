import LocalMarks.ThreadPool.Tasks

/-!
# The pool's guarantee

The queue law over every interleaving, and what it leaves of each task: run once, or turned
away once, with `drop_func` called when there is one and an argument to give it.
-/

namespace LocalMarks.Pool
open LocalMarks.Lib

/-- Submitted, and neither run nor turned away yet. -/
def Underway (cap : ℕ) (pool : ThreadPool) (x : Submission) : Prop :=
  (∃ p, (pool.producer p).task = some x) ∨ x ∈ pool.contents cap ∨
    ∃ i, (pool.worker i).task = some x

def RunOnce (pool : ThreadPool) (x : Submission) : Prop :=
  pool.ran.count x = 1 ∧ pool.discarded.count x = 0 ∧ pool.dropCalls.count x = 0

def DroppedOnce (pool : ThreadPool) (x : Submission) : Prop :=
  pool.ran.count x = 0 ∧ pool.discarded.count x = 1 ∧
    pool.dropCalls.count x = if x.task.droppable then 1 else 0

def Untouched (pool : ThreadPool) (x : Submission) : Prop :=
  pool.ran.count x = 0 ∧ pool.discarded.count x = 0 ∧ pool.dropCalls.count x = 0

/-- The queue's indices, its contents, and the account of every task. -/
structure Accounted (cap n : ℕ) (pool : ThreadPool) : Prop where
  nonneg : 0 ≤ pool.count
  bounded : pool.count ≤ cap
  tail : (pool.tail : ℤ) = (pool.head + pool.count) % cap
  history : pool.enqueued = pool.dequeued ++ pool.contents cap
  order : pool.enqueued.Pairwise fun x y => x.caller = y.caller → x.call < y.call
  fate : ∀ x ∈ pool.submitted,
    Underway cap pool x ∧ Untouched pool x ∨
      ¬Underway cap pool x ∧ (RunOnce pool x ∨ DroppedOnce pool x)
  drained : 0 < n → (∀ i < n, pool.worker i = .exited) → pool.contents cap = [] ∧
    ∀ x ∈ pool.submitted, (∀ p, (pool.producer p).task ≠ some x) →
      RunOnce pool x ∨ DroppedOnce pool x

variable {cap n : ℕ} {pool pool' : ThreadPool}

theorem clampThreads_bounds (numThreads : ℤ) :
    1 ≤ clampThreads numThreads ∧ clampThreads numThreads ≤ 256 := by
  unfold clampThreads
  split
  · omega
  · split <;> omega

theorem dropCalls_count (h : Reachable cap n pool) (x : Submission) :
    pool.dropCalls.count x = if x.task.droppable then pool.discarded.count x else 0 := by
  rw [reachable_dropCalls h]
  by_cases hd : x.task.droppable
  · rw [if_pos hd]
    exact List.count_filter (by exact hd)
  · rw [if_neg hd]
    exact List.count_eq_zero_of_not_mem fun hx => hd (List.mem_filter.mp hx).2

theorem reachable_fate (h : Reachable cap n pool) {x : Submission} (hx : x ∈ pool.submitted) :
    Underway cap pool x ∧ Untouched pool x ∨
      ¬Underway cap pool x ∧ (RunOnce pool x ∨ DroppedOnce pool x) := by
  obtain ⟨place, hd⟩ := reachable_placed h
  have hdrop := dropCalls_count h x
  have hout : Underway cap pool x ∧ pool.ran.count x = 0 ∧ pool.discarded.count x = 0 ∨
      ¬Underway cap pool x ∧ pool.ran.count x + pool.discarded.count x = 1 := hd.outcome hx
  rcases hout with ⟨hu, hr, hdis⟩ | ⟨hu, hsum⟩
  · exact .inl ⟨hu, hr, hdis, by rw [hdrop, hdis, ite_self]⟩
  · refine .inr ⟨hu, ?_⟩
    rcases Nat.eq_zero_or_pos (pool.ran.count x) with hr | hr
    · have hdis : pool.discarded.count x = 1 := by omega
      exact .inr ⟨hr, hdis, by rw [hdrop, hdis]⟩
    · have hdis : pool.discarded.count x = 0 := by omega
      exact .inl ⟨by omega, hdis, by rw [hdrop, hdis, ite_self]⟩

theorem reachable_workers (h : Reachable cap n pool) :
    pool.numThreads = n ∧ ∀ i, n ≤ i → pool.worker i = .locking := by
  refine h.invariant (I := fun pool => pool.numThreads = n ∧
    ∀ i, n ≤ i → pool.worker i = .locking) (fun _ hs => hs ▸ ⟨rfl, fun _ _ => rfl⟩)
    fun s _ s' _ hw hst => ?_
  cases exec_step hst with
  | work i _ hi h =>
    have hne : ∀ j, n ≤ j → j ≠ i := fun j hj => by
      have := hw.1
      omega
    cases h <;> exact ⟨hw.1, fun j hj =>
      (Function.update_of_ne (hne j hj) _ _).trans (hw.2 j hj)⟩
  | submit p _ h => cases h <;> exact hw
  | destroy h => cases h <;> exact hw
  | call _ _ _ | spuriousWorker _ _ | spuriousProducer _ _ => exact hw

theorem workerStep_exited {i j : ℕ} (h : WorkerStep cap i pool pool')
    (hx : pool.worker j = .exited) : pool'.worker j = .exited := by
  by_cases hji : j = i
  · subst hji
    cases h with
    | lock hpc | empty hpc | ready hpc | sleep hpc | wake hpc | drained hpc | stocked hpc
    | leave hpc | take hpc | signal _ _ hpc | unlock _ hpc | call _ hpc | done _ hpc =>
      cases hpc.symm.trans hx
  · cases h <;> exact (Function.update_of_ne hji _ _).trans hx

/-- `pthread_join` returned for the workers counted so far, and for all once the pool is
destroyed. -/
theorem reachable_joined (h : Reachable cap n pool) :
    (∀ j, pool.destroyer = .joining j → ∀ i < j, pool.worker i = .exited) ∧
      (pool.destroyer = .destroyed → ∀ i < n, pool.worker i = .exited) := by
  refine h.invariant (I := fun pool =>
    (∀ j, pool.destroyer = .joining j → ∀ i < j, pool.worker i = .exited) ∧
      (pool.destroyer = .destroyed → ∀ i < n, pool.worker i = .exited))
    (fun _ hs => hs ▸ ⟨fun _ hd => (by cases hd), fun hd => by cases hd⟩)
    fun s l s' hr hj hst => ?_
  cases exec_step hst with
  | submit p _ h => cases h <;> exact hj
  | work i _ _ h =>
    have hd : s'.destroyer = s.destroyer := by cases h <;> rfl
    rw [hd]
    exact ⟨fun j hjoin i hi => workerStep_exited h (hj.1 j hjoin i hi),
      fun hdone i hi => workerStep_exited h (hj.2 hdone i hi)⟩
  | destroy h =>
    cases h with
    | stop hpc | wakeWorkers hpc =>
      exact ⟨fun _ hd => (by cases hd), fun hd => by cases hd⟩
    | wakeProducers hpc =>
      refine ⟨fun j hd i hi => ?_, fun hd => by cases hd⟩
      cases hd
      cases hi
    | join j hpc hj' hx =>
      refine ⟨fun j' hd i hi => ?_, fun hd => by cases hd⟩
      cases hd
      rcases Nat.lt_succ_iff_lt_or_eq.mp hi with hi | rfl
      · exact hj.1 j hpc i hi
      · exact hx
    | finish j hpc hn =>
      refine ⟨fun _ hd => (by cases hd), fun _ i hi => hj.1 j hpc i ?_⟩
      rw [(reachable_workers hr).1] at hn
      exact hi.trans_le hn
  | call _ _ _ | spuriousWorker _ _ | spuriousProducer _ _ => exact hj

/-- Once all workers are gone nothing is left in the queue, and a task whose submission has
returned has met its end. -/
theorem reachable_drained (h : Reachable cap n pool) (h0 : 0 < n)
    (hall : ∀ i < n, pool.worker i = .exited) : pool.contents cap = [] ∧
      ∀ x ∈ pool.submitted, (∀ p, (pool.producer p).task ≠ some x) →
        RunOnce pool x ∨ DroppedOnce pool x := by
  have hempty : pool.contents cap = [] := by
    rw [ThreadPool.contents, ((reachable_inv h).closed 0 (hall 0 h0)).2.1]
    rfl
  refine ⟨hempty, fun x hx hret => ?_⟩
  rcases reachable_fate h hx with ⟨hu, -⟩ | ⟨-, hend⟩
  · rcases hu with ⟨p, hp⟩ | hq | ⟨i, hi⟩
    · exact absurd hp (hret p)
    · rw [hempty] at hq
      cases hq
    · have hfree : (pool.worker i).task = none := by
        rcases Nat.lt_or_ge i n with hlt | hge
        · rw [hall i hlt]
          rfl
        · rw [(reachable_workers h).2 i hge]
          rfl
      rw [hfree] at hi
      cases hi
  · exact hend

theorem reachable_accounted (h : Reachable cap n pool) : Accounted cap n pool := by
  have hq := reachable_queueInv h
  have hn := hq.nonneg
  refine ⟨hn, hq.bounded, ?_, hq.history, (reachable_callInv h).sorted,
    fun x hx => reachable_fate h hx, reachable_drained h⟩
  rw [hq.tail, Int.natCast_mod, Int.natCast_add, Int.toNat_of_nonneg hn]

theorem reachable_accounted_run : ∃ pool, Reachable 2 1 pool ∧ pool.ran.length = 1 ∧
    Accounted 2 1 pool := by
  have hrun : ∃ pool, runList (exec 2) (newPool 1)
      (.call 0 ⟨7, none, some 9⟩ :: List.replicate 6 (.submit 0 none) ++
        List.replicate 7 (.work 0 none)) = some pool ∧ pool.ran.length = 1 := ⟨_, rfl, rfl⟩
  obtain ⟨pool, hpool, hran⟩ := hrun
  have hreach : Reachable 2 1 pool := Reach.of_runList _ (.start rfl) hpool
  exact ⟨pool, hreach, hran, reachable_accounted hreach⟩

/-- A task whose argument is NULL, submitted once `stop` is set, is neither run nor given to
its `drop_func`, though the pool has been destroyed and the call has returned. -/
theorem null_argument_not_dropped : ¬∀ pool, Reachable 4096 1 pool → ∀ x ∈ pool.submitted,
    Underway 4096 pool x ∨ pool.ran.count x = 1 ∨ pool.dropCalls.count x = 1 := by
  intro hevery
  have hrun : (runList (exec 4096) (newPool 1)
      (.destroy :: .call 0 ⟨7, some 8, none⟩ :: List.replicate 5 (.submit 0 none) ++
        [.destroy, .destroy] ++ List.replicate 4 (.work 0 none) ++ [.destroy, .destroy])).map
          (fun pool => (pool.submitted, pool.ran, pool.dropCalls, pool.discarded)) =
        some ([⟨0, 0, 7, some 8, none⟩], [], [], [⟨0, 0, 7, some 8, none⟩]) := by decide +kernel
  obtain ⟨pool, hpool, hend⟩ := Option.map_eq_some_iff.mp hrun
  simp only [Prod.mk.injEq] at hend
  obtain ⟨hsub, hran, hdrop, hdis⟩ := hend
  have hreach : Reachable 4096 1 pool := Reach.of_runList _ (.start rfl) hpool
  have hmem : ⟨0, 0, 7, some 8, none⟩ ∈ pool.submitted := hsub ▸ List.mem_singleton_self _
  rcases reachable_fate hreach hmem with ⟨-, -, hzero, -⟩ | ⟨hgone, -⟩
  · rw [hdis] at hzero
    cases hzero
  · rcases hevery pool hreach _ hmem with hu | hr | hd
    · exact hgone hu
    · rw [hran] at hr
      cases hr
    · rw [hdrop] at hd
      cases hd

end LocalMarks.Pool
