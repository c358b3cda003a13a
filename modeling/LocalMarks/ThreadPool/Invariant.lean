import LocalMarks.ThreadPool.Steps

/-!
# What holds between the steps

The lock and the program points agree; a thread inside its critical section still knows what
its last test of `count` and `stop` told it; and once a worker has left, nothing can be queued
any more.
-/

namespace LocalMarks.Pool
open LocalMarks.Lib

def WorkerPc.holds : WorkerPc → Bool
  | .testing | .sleeping | .checking | .leaving | .taking | .signalling _ | .unlocking _ => true
  | .locking | .waiting | .calling _ | .running _ | .exited => false

def ProducerPc.holds : ProducerPc → Bool
  | .testing _ | .sleeping _ | .checking _ | .storing _ | .signalling | .unlocking
  | .refusing _ => true
  | .idle | .locking _ | .waiting _ | .dropping _ | .inDrop _ => false

def ThreadPool.holds (pool : ThreadPool) : Tid → Bool
  | .worker i => (pool.worker i).holds
  | .producer p => (pool.producer p).holds

def WorkerPc.Knows (count : ℤ) (stop : Bool) : WorkerPc → Prop
  | .checking => count ≠ 0 ∨ stop = true
  | .taking => count ≠ 0
  | .leaving => count = 0 ∧ stop = true
  | _ => True

def ProducerPc.Knows (cap : ℕ) (count : ℤ) (stop : Bool) : ProducerPc → Prop
  | .checking _ => count ≠ cap ∨ stop = true
  | .storing _ => count ≠ cap
  | .refusing _ | .dropping _ | .inDrop _ => stop = true
  | _ => True

def NoneStoring (pool : ThreadPool) : Prop := ∀ p x, pool.producer p ≠ .storing x

/-- What every state of the pool satisfies, whatever the queue contains. -/
structure Inv (cap : ℕ) (pool : ThreadPool) : Prop where
  mutex : Owned pool.lock pool.holds
  worker : ∀ i, (pool.worker i).Knows pool.count pool.stop
  producer : ∀ p, (pool.producer p).Knows cap pool.count pool.stop
  closed : ∀ i, pool.worker i = .exited →
    pool.stop = true ∧ pool.count = 0 ∧ NoneStoring pool

variable {cap i p : ℕ} {pool pool' : ThreadPool}

/-! ### The lock -/

theorem holds_atWorker (pool : ThreadPool) (i : ℕ) (pc : WorkerPc) :
    (pool.atWorker i pc).holds = Function.update pool.holds (.worker i) pc.holds := by
  funext t
  cases t with
  | worker j =>
    by_cases hj : j = i
    · simp [ThreadPool.holds, ThreadPool.atWorker, hj]
    · simp [ThreadPool.holds, ThreadPool.atWorker, Function.update_of_ne, hj]
  | producer p => rfl

theorem holds_atProducer (pool : ThreadPool) (p : ℕ) (pc : ProducerPc) :
    (pool.atProducer p pc).holds = Function.update pool.holds (.producer p) pc.holds := by
  funext t
  cases t with
  | worker j => rfl
  | producer q =>
    by_cases hq : q = p
    · simp [ThreadPool.holds, ThreadPool.atProducer, hq]
    · simp [ThreadPool.holds, ThreadPool.atProducer, Function.update_of_ne, hq]

theorem holds_worker {pc : WorkerPc} (hpc : pool.worker i = pc) :
    pool.holds (.worker i) = pc.holds := congrArg WorkerPc.holds hpc

theorem holds_producer {pc : ProducerPc} (hpc : pool.producer p = pc) :
    pool.holds (.producer p) = pc.holds := congrArg ProducerPc.holds hpc

theorem workerStep_mutex (h : WorkerStep cap i pool pool') (ho : Owned pool.lock pool.holds) :
    Owned pool'.lock pool'.holds := by
  cases h with
  | lock hpc hl | wake hpc _ hl =>
    rw [holds_atWorker]
    rw [hl] at ho
    exact ho.acquire
  | sleep hpc | leave hpc | unlock _ hpc =>
    rw [holds_atWorker]
    exact ho.release (holds_worker hpc)
  | empty hpc | ready hpc | drained hpc | stocked hpc | take hpc | signal _ _ hpc | call _ hpc
  | done _ hpc =>
    rw [holds_atWorker]
    exact ho.keep (holds_worker hpc).symm

theorem submitStep_mutex (h : SubmitStep cap p pool pool') (ho : Owned pool.lock pool.holds) :
    Owned pool'.lock pool'.holds := by
  cases h with
  | lock _ hpc hl | wake _ hpc _ hl =>
    rw [holds_atProducer]
    rw [hl] at ho
    exact ho.acquire
  | sleep _ hpc | unlock hpc | refuse _ hpc =>
    rw [holds_atProducer]
    exact ho.release (holds_producer hpc)
  | full _ hpc | ready _ hpc | stopped _ hpc | accepted _ hpc | store _ hpc | signal _ hpc
  | drop _ hpc | forget _ hpc | dropped _ hpc =>
    rw [holds_atProducer]
    exact ho.keep (holds_producer hpc).symm

theorem step_mutex {l : Label} (h : Step cap pool l pool') (ho : Owned pool.lock pool.holds) :
    Owned pool'.lock pool'.holds := by
  cases h with
  | call p task hpc =>
    rw [holds_atProducer]
    exact ho.keep (holds_producer hpc).symm
  | submit p _ h => exact submitStep_mutex h ho
  | work i _ _ h => exact workerStep_mutex h ho
  | destroy h => cases h <;> exact ho
  | spuriousWorker _ _ | spuriousProducer _ _ => exact ho

/-! ### What a thread knows -/

theorem WorkerPc.knows_of_free {pc : WorkerPc} (count : ℤ) (stop : Bool)
    (hpc : pc.holds = false) : pc.Knows count stop := by
  cases pc with
  | checking | taking | leaving => cases hpc
  | _ => trivial

/-- Outside it a producer at most relies on `stop`, which is never cleared. -/
theorem ProducerPc.Knows.of_free {pc : ProducerPc} {count : ℤ} {stop : Bool} (count' : ℤ)
    (hk : pc.Knows cap count stop) (hpc : pc.holds = false) : pc.Knows cap count' stop := by
  cases pc with
  | checking | storing => cases hpc
  | _ => exact hk

theorem WorkerPc.Knows.of_stop {pc : WorkerPc} {count : ℤ} {stop : Bool}
    (hk : pc.Knows count stop) : pc.Knows count true := by
  cases pc with
  | checking => exact .inr rfl
  | leaving => exact ⟨hk.1, rfl⟩
  | _ => exact hk

theorem ProducerPc.Knows.of_stop {pc : ProducerPc} {count : ℤ} {stop : Bool}
    (hk : pc.Knows cap count stop) : pc.Knows cap count true := by
  cases pc with
  | checking => exact .inr rfl
  | refusing | dropping | inDrop => exact rfl
  | _ => exact hk

theorem Inv.moveWorker (hi : Inv cap pool) {pc : WorkerPc} (hw : ∀ j, pool'.worker j =
      Function.update pool.worker i pc j) (hp : pool'.producer = pool.producer)
    (hc : pool'.count = pool.count) (hs : pool'.stop = pool.stop)
    (hm : Owned pool'.lock pool'.holds) (hk : pc.Knows pool.count pool.stop)
    (hx : pc = .exited → pool.stop = true ∧ pool.count = 0 ∧ NoneStoring pool) :
    Inv cap pool' := by
  refine ⟨hm, fun j => ?_, fun q => ?_, fun j hj => ?_⟩
  · rw [hw, hc, hs]
    by_cases hji : j = i
    · rw [hji, Function.update_self]
      exact hk
    · rw [Function.update_of_ne hji]
      exact hi.worker j
  · rw [hp, hc, hs]
    exact hi.producer q
  · rw [hw] at hj
    have hpool : pool.stop = true ∧ pool.count = 0 ∧ NoneStoring pool := by
      by_cases hji : j = i
      · rw [hji, Function.update_self] at hj
        exact hx hj
      · rw [Function.update_of_ne hji] at hj
        exact hi.closed j hj
    unfold NoneStoring at hpool ⊢
    rw [hs, hc, hp]
    exact hpool

theorem Inv.moveProducer (hi : Inv cap pool) {pc : ProducerPc} (hp : ∀ q, pool'.producer q =
      Function.update pool.producer p pc q) (hw : pool'.worker = pool.worker)
    (hc : pool'.count = pool.count) (hs : pool'.stop = pool.stop)
    (hm : Owned pool'.lock pool'.holds) (hk : pc.Knows cap pool.count pool.stop)
    (hx : ∀ x, pc = .storing x → pool.stop = false) : Inv cap pool' := by
  refine ⟨hm, fun j => ?_, fun q => ?_, fun j hj => ?_⟩
  · rw [hw, hc, hs]
    exact hi.worker j
  · rw [hp, hc, hs]
    by_cases hqp : q = p
    · rw [hqp, Function.update_self]
      exact hk
    · rw [Function.update_of_ne hqp]
      exact hi.producer q
  · rw [hw] at hj
    obtain ⟨hstop, hcount, hnone⟩ := hi.closed j hj
    refine ⟨hs.trans hstop, hc.trans hcount, fun q x hq => ?_⟩
    rw [hp] at hq
    by_cases hqp : q = p
    · rw [hqp, Function.update_self] at hq
      exact absurd (hx x hq) (by simp [hstop])
    · rw [Function.update_of_ne hqp] at hq
      exact hnone q x hq

theorem Inv.noneStoring (hi : Inv cap pool) (hpc : pool.worker i = .leaving) :
    NoneStoring pool := by
  intro p x hp
  cases hi.mutex.excl (holds_worker hpc) (holds_producer hp)

theorem workerStep_inv (h : WorkerStep cap i pool pool') (hi : Inv cap pool) :
    Inv cap pool' := by
  have hm := workerStep_mutex h hi.mutex
  cases h with
  | lock | empty | sleep | wake | signal | unlock | call | done =>
    exact hi.moveWorker (fun _ => rfl) rfl rfl rfl hm trivial (fun h => nomatch h)
  | ready hpc hk => exact hi.moveWorker (fun _ => rfl) rfl rfl rfl hm hk (fun h => nomatch h)
  | drained hpc hc hs =>
    exact hi.moveWorker (fun _ => rfl) rfl rfl rfl hm ⟨hc, hs⟩ (fun h => nomatch h)
  | stocked hpc hk =>
    have hknows : pool.count ≠ 0 := by
      have htest := hi.worker i
      rw [hpc] at htest
      rcases htest, hk with ⟨hc | hs, hc' | hs'⟩
      · exact hc
      · exact hc
      · exact hc'
      · exact absurd (hs.symm.trans hs') (by decide)
    exact hi.moveWorker (fun _ => rfl) rfl rfl rfl hm hknows (fun h => nomatch h)
  | leave hpc =>
    have hknows := hi.worker i
    rw [hpc] at hknows
    exact hi.moveWorker (fun _ => rfl) rfl rfl rfl hm trivial
      fun _ => ⟨hknows.2, hknows.1, hi.noneStoring hpc⟩
  | take hpc =>
    have hbusy : ∀ t, t ≠ .worker i → pool.holds t = false := fun t ht =>
      hi.mutex.other (holds_worker hpc) ht
    refine ⟨hm, fun j => ?_, fun q => ?_, fun j hj => ?_⟩
    · by_cases hji : j = i
      · subst hji
        simp only [ThreadPool.atWorker, Function.update_self, WorkerPc.Knows]
      · simp only [ThreadPool.atWorker, Function.update_of_ne hji]
        exact WorkerPc.knows_of_free _ _ (hbusy (.worker j) (by simpa using hji))
    · exact (hi.producer q).of_free _ (hbusy (.producer q) (by simp))
    · have hji : j ≠ i := by
        rintro rfl
        simp [ThreadPool.atWorker] at hj
      simp only [ThreadPool.atWorker, Function.update_of_ne hji] at hj
      have hknows := hi.worker i
      rw [hpc] at hknows
      exact absurd (hi.closed j hj).2.1 hknows

theorem submitStep_inv (h : SubmitStep cap p pool pool') (hi : Inv cap pool) :
    Inv cap pool' := by
  have hm := submitStep_mutex h hi.mutex
  cases h with
  | lock | full | sleep | wake | signal | unlock | forget | dropped =>
    exact hi.moveProducer (fun _ => rfl) rfl rfl rfl hm trivial (fun _ h => nomatch h)
  | ready x hpc hk =>
    exact hi.moveProducer (fun _ => rfl) rfl rfl rfl hm hk (fun _ h => nomatch h)
  | stopped x hpc hs =>
    exact hi.moveProducer (fun _ => rfl) rfl rfl rfl hm hs (fun _ h => nomatch h)
  | accepted x hpc hs =>
    have hknows := hi.producer p
    rw [hpc] at hknows
    have hc : pool.count ≠ cap := hknows.resolve_right (by simp [hs])
    exact hi.moveProducer (fun _ => rfl) rfl rfl rfl hm hc fun _ _ => hs
  | refuse x hpc | drop x hpc =>
    have hknows := hi.producer p
    rw [hpc] at hknows
    exact hi.moveProducer (fun _ => rfl) rfl rfl rfl hm hknows (fun _ h => nomatch h)
  | store x hpc =>
    have hbusy : ∀ t, t ≠ .producer p → pool.holds t = false := fun t ht =>
      hi.mutex.other (holds_producer hpc) ht
    refine ⟨hm, fun j => ?_, fun q => ?_, fun j hj => ?_⟩
    · exact WorkerPc.knows_of_free _ _ (hbusy (.worker j) (by simp))
    · by_cases hqp : q = p
      · subst hqp
        simp only [ThreadPool.atProducer, Function.update_self, ProducerPc.Knows]
      · simp only [ThreadPool.atProducer, Function.update_of_ne hqp]
        exact (hi.producer q).of_free _ (hbusy (.producer q) (by simpa using hqp))
    · exact absurd hpc ((hi.closed j hj).2.2 p x)

theorem destroyStep_inv (h : DestroyStep pool pool') (hi : Inv cap pool) : Inv cap pool' := by
  cases h with
  | stop hpc =>
    exact ⟨hi.mutex, fun i => (hi.worker i).of_stop, fun p => (hi.producer p).of_stop,
      fun i hx => ⟨rfl, (hi.closed i hx).2⟩⟩
  | wakeWorkers | wakeProducers | join | finish =>
    exact ⟨hi.mutex, hi.worker, hi.producer, hi.closed⟩

theorem step_inv {l : Label} (h : Step cap pool l pool') (hi : Inv cap pool) : Inv cap pool' := by
  have hm := step_mutex h hi.mutex
  cases h with
  | call p task hpc =>
    exact hi.moveProducer (fun _ => rfl) rfl rfl rfl hm trivial (fun _ h => nomatch h)
  | submit p _ h => exact submitStep_inv h hi
  | work i _ _ h => exact workerStep_inv h hi
  | destroy h => exact destroyStep_inv h hi
  | spuriousWorker _ _ | spuriousProducer _ _ =>
    exact ⟨hm, hi.worker, hi.producer, hi.closed⟩

theorem newPool_inv (cap n : ℕ) : Inv cap (newPool n) := by
  refine ⟨fun t => ?_, fun _ => trivial, fun _ => trivial, fun _ hx => by cases hx⟩
  cases t <;> simp [ThreadPool.holds, newPool, WorkerPc.holds, ProducerPc.holds]

theorem reachable_inv {n : ℕ} (h : Reachable cap n pool) : Inv cap pool :=
  h.invariant (fun _ hs => hs ▸ newPool_inv cap n) fun _ _ _ _ hi hst => step_inv (exec_step hst) hi

end LocalMarks.Pool
