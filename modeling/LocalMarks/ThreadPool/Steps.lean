import LocalMarks.ThreadPool.Pool

/-!
# What a step of the pool can do

One constructor for each way a step goes, with the guard under which it goes there.
-/

namespace LocalMarks.Pool
open LocalMarks.Lib

inductive WorkerStep (cap i : ℕ) (pool : ThreadPool) : ThreadPool → Prop where
  | lock (hpc : pool.worker i = .locking) (hl : pool.lock = none) :
      WorkerStep cap i pool ((pool.withLock (some (.worker i))).atWorker i .testing)
  | empty (hpc : pool.worker i = .testing) (hc : pool.count = 0) (hs : pool.stop = false) :
      WorkerStep cap i pool (pool.atWorker i .sleeping)
  | ready (hpc : pool.worker i = .testing) (hk : pool.count ≠ 0 ∨ pool.stop = true) :
      WorkerStep cap i pool (pool.atWorker i .checking)
  | sleep (hpc : pool.worker i = .sleeping) :
      WorkerStep cap i pool
        ({ pool.withLock none with notEmpty := insert i pool.notEmpty }.atWorker i .waiting)
  | wake (hpc : pool.worker i = .waiting) (hw : i ∉ pool.notEmpty) (hl : pool.lock = none) :
      WorkerStep cap i pool ((pool.withLock (some (.worker i))).atWorker i .testing)
  | drained (hpc : pool.worker i = .checking) (hc : pool.count = 0) (hs : pool.stop = true) :
      WorkerStep cap i pool (pool.atWorker i .leaving)
  | stocked (hpc : pool.worker i = .checking) (hk : pool.count ≠ 0 ∨ pool.stop = false) :
      WorkerStep cap i pool (pool.atWorker i .taking)
  | leave (hpc : pool.worker i = .leaving) :
      WorkerStep cap i pool ((pool.withLock none).atWorker i .exited)
  | take (hpc : pool.worker i = .taking) :
      WorkerStep cap i pool ({ pool with
        head := (pool.head + 1) % cap
        count := pool.count - 1
        dequeued := pool.dequeued ++ [pool.queue pool.head] }.atWorker i
          (.signalling (pool.queue pool.head)))
  | signal (x : Submission) (asleep : Finset ℕ) (hpc : pool.worker i = .signalling x)
      (hw : asleep ⊆ pool.notFull) :
      WorkerStep cap i pool ({ pool with notFull := asleep }.atWorker i (.unlocking x))
  | unlock (x : Submission) (hpc : pool.worker i = .unlocking x) :
      WorkerStep cap i pool ((pool.withLock none).atWorker i (.calling x))
  | call (x : Submission) (hpc : pool.worker i = .calling x) :
      WorkerStep cap i pool ({ pool with ran := pool.ran ++ [x] }.atWorker i (.running x))
  | done (x : Submission) (hpc : pool.worker i = .running x) :
      WorkerStep cap i pool (pool.atWorker i .locking)

inductive SubmitStep (cap p : ℕ) (pool : ThreadPool) : ThreadPool → Prop where
  | lock (x : Submission) (hpc : pool.producer p = .locking x) (hl : pool.lock = none) :
      SubmitStep cap p pool ((pool.withLock (some (.producer p))).atProducer p (.testing x))
  | full (x : Submission) (hpc : pool.producer p = .testing x) (hc : pool.count = cap)
      (hs : pool.stop = false) :
      SubmitStep cap p pool (pool.atProducer p (.sleeping x))
  | ready (x : Submission) (hpc : pool.producer p = .testing x)
      (hk : pool.count ≠ cap ∨ pool.stop = true) :
      SubmitStep cap p pool (pool.atProducer p (.checking x))
  | sleep (x : Submission) (hpc : pool.producer p = .sleeping x) :
      SubmitStep cap p pool
        ({ pool.withLock none with notFull := insert p pool.notFull }.atProducer p (.waiting x))
  | wake (x : Submission) (hpc : pool.producer p = .waiting x) (hw : p ∉ pool.notFull)
      (hl : pool.lock = none) :
      SubmitStep cap p pool ((pool.withLock (some (.producer p))).atProducer p (.testing x))
  | stopped (x : Submission) (hpc : pool.producer p = .checking x) (hs : pool.stop = true) :
      SubmitStep cap p pool (pool.atProducer p (.refusing x))
  | accepted (x : Submission) (hpc : pool.producer p = .checking x) (hs : pool.stop = false) :
      SubmitStep cap p pool (pool.atProducer p (.storing x))
  | store (x : Submission) (hpc : pool.producer p = .storing x) :
      SubmitStep cap p pool ({ pool with
        queue := Function.update pool.queue pool.tail x
        tail := (pool.tail + 1) % cap
        count := pool.count + 1
        enqueued := pool.enqueued ++ [x] }.atProducer p .signalling)
  | signal (asleep : Finset ℕ) (hpc : pool.producer p = .signalling)
      (hw : asleep ⊆ pool.notEmpty) :
      SubmitStep cap p pool ({ pool with notEmpty := asleep }.atProducer p .unlocking)
  | unlock (hpc : pool.producer p = .unlocking) :
      SubmitStep cap p pool ((pool.withLock none).atProducer p .idle)
  | refuse (x : Submission) (hpc : pool.producer p = .refusing x) :
      SubmitStep cap p pool ((pool.withLock none).atProducer p (.dropping x))
  | drop (x : Submission) (hpc : pool.producer p = .dropping x) (hd : x.task.droppable = true) :
      SubmitStep cap p pool ({ pool with
        discarded := pool.discarded ++ [x]
        dropCalls := pool.dropCalls ++ [x] }.atProducer p (.inDrop x))
  | forget (x : Submission) (hpc : pool.producer p = .dropping x)
      (hd : x.task.droppable = false) :
      SubmitStep cap p pool ({ pool with discarded := pool.discarded ++ [x] }.atProducer p .idle)
  | dropped (x : Submission) (hpc : pool.producer p = .inDrop x) :
      SubmitStep cap p pool (pool.atProducer p .idle)

inductive DestroyStep (pool : ThreadPool) : ThreadPool → Prop where
  | stop (hpc : pool.destroyer = .notCalled) :
      DestroyStep pool { pool with stop := true, destroyer := .stopStored }
  | wakeWorkers (hpc : pool.destroyer = .stopStored) :
      DestroyStep pool { pool with notEmpty := ∅, destroyer := .emptyBroadcast }
  | wakeProducers (hpc : pool.destroyer = .emptyBroadcast) :
      DestroyStep pool { pool with notFull := ∅, destroyer := .joining 0 }
  | join (i : ℕ) (hpc : pool.destroyer = .joining i) (hi : i < pool.numThreads)
      (hx : pool.worker i = .exited) :
      DestroyStep pool { pool with destroyer := .joining (i + 1) }
  | finish (i : ℕ) (hpc : pool.destroyer = .joining i) (hi : pool.numThreads ≤ i) :
      DestroyStep pool { pool with destroyer := .destroyed }

inductive Step (cap : ℕ) (pool : ThreadPool) : Label → ThreadPool → Prop where
  | call (p : ℕ) (task : ThreadTask) (hpc : pool.producer p = .idle) :
      Step cap pool (.call p task)
        ({ pool with submitted := pool.submitted ++ [pool.nextCall p task] }.atProducer p
          (.locking (pool.nextCall p task)))
  | submit (p : ℕ) (wakes : Option ℕ) {pool' : ThreadPool} (h : SubmitStep cap p pool pool') :
      Step cap pool (.submit p wakes) pool'
  | work (i : ℕ) (wakes : Option ℕ) {pool' : ThreadPool} (hi : i < pool.numThreads)
      (h : WorkerStep cap i pool pool') : Step cap pool (.work i wakes) pool'
  | destroy {pool' : ThreadPool} (h : DestroyStep pool pool') : Step cap pool .destroy pool'
  | spuriousWorker (i : ℕ) (hi : i ∈ pool.notEmpty) :
      Step cap pool (.spuriousWorker i) { pool with notEmpty := pool.notEmpty.erase i }
  | spuriousProducer (p : ℕ) (hp : p ∈ pool.notFull) :
      Step cap pool (.spuriousProducer p) { pool with notFull := pool.notFull.erase p }

theorem condSignal_subset {asleep left : Finset ℕ} {wakes : Option ℕ}
    (h : condSignal asleep wakes = some left) : left ⊆ asleep := by
  cases wakes with
  | none =>
    simp only [condSignal, Option.ite_none_right_eq_some, Option.some.injEq] at h
    rw [← h.2]
    exact Finset.empty_subset asleep
  | some w =>
    simp only [condSignal, Option.ite_none_right_eq_some, Option.some.injEq] at h
    rw [← h.2]
    exact Finset.erase_subset w asleep

variable {cap : ℕ} {pool pool' : ThreadPool}

theorem workerLoop_step {i : ℕ} {wakes : Option ℕ}
    (h : workerLoop cap i wakes pool = some pool') : WorkerStep cap i pool pool' := by
  cases hpc : pool.worker i with
  | locking =>
    simp only [workerLoop, hpc, Option.ite_none_right_eq_some, Option.some.injEq] at h
    obtain ⟨hl, rfl⟩ := h
    exact .lock hpc hl
  | testing =>
    simp only [workerLoop, hpc, Option.some.injEq] at h
    subst h
    by_cases hk : pool.count = 0 ∧ pool.stop = false
    · rw [if_pos hk]
      exact .empty hpc hk.1 hk.2
    · rw [if_neg hk]
      exact .ready hpc (by simpa [imp_iff_not_or] using hk)
  | sleeping =>
    simp only [workerLoop, hpc, Option.some.injEq] at h
    exact h ▸ .sleep hpc
  | waiting =>
    simp only [workerLoop, hpc, Option.ite_none_right_eq_some, Option.some.injEq] at h
    obtain ⟨⟨hw, hl⟩, rfl⟩ := h
    exact .wake hpc hw hl
  | checking =>
    simp only [workerLoop, hpc, Option.some.injEq] at h
    subst h
    by_cases hk : pool.count = 0 ∧ pool.stop = true
    · rw [if_pos hk]
      exact .drained hpc hk.1 hk.2
    · rw [if_neg hk]
      exact .stocked hpc (by simpa [imp_iff_not_or] using hk)
  | leaving =>
    simp only [workerLoop, hpc, Option.some.injEq] at h
    exact h ▸ .leave hpc
  | taking =>
    simp only [workerLoop, hpc, Option.some.injEq] at h
    exact h ▸ .take hpc
  | signalling x =>
    simp only [workerLoop, hpc, Option.map_eq_some_iff] at h
    obtain ⟨asleep, hw, rfl⟩ := h
    exact .signal x asleep hpc (condSignal_subset hw)
  | unlocking x =>
    simp only [workerLoop, hpc, Option.some.injEq] at h
    exact h ▸ .unlock x hpc
  | calling x =>
    simp only [workerLoop, hpc, Option.some.injEq] at h
    exact h ▸ .call x hpc
  | running x =>
    simp only [workerLoop, hpc, Option.some.injEq] at h
    exact h ▸ .done x hpc
  | exited => simp only [workerLoop, hpc, reduceCtorEq] at h

theorem threadPoolSubmit_step {p : ℕ} {wakes : Option ℕ}
    (h : threadPoolSubmit cap p wakes pool = some pool') : SubmitStep cap p pool pool' := by
  cases hpc : pool.producer p with
  | idle => simp only [threadPoolSubmit, hpc, reduceCtorEq] at h
  | locking x =>
    simp only [threadPoolSubmit, hpc, Option.ite_none_right_eq_some, Option.some.injEq] at h
    obtain ⟨hl, rfl⟩ := h
    exact .lock x hpc hl
  | testing x =>
    simp only [threadPoolSubmit, hpc, Option.some.injEq] at h
    subst h
    by_cases hk : pool.count = cap ∧ pool.stop = false
    · rw [if_pos hk]
      exact .full x hpc hk.1 hk.2
    · rw [if_neg hk]
      exact .ready x hpc (by simpa [imp_iff_not_or] using hk)
  | sleeping x =>
    simp only [threadPoolSubmit, hpc, Option.some.injEq] at h
    exact h ▸ .sleep x hpc
  | waiting x =>
    simp only [threadPoolSubmit, hpc, Option.ite_none_right_eq_some, Option.some.injEq] at h
    obtain ⟨⟨hw, hl⟩, rfl⟩ := h
    exact .wake x hpc hw hl
  | checking x =>
    simp only [threadPoolSubmit, hpc, Option.some.injEq] at h
    subst h
    cases hs : pool.stop with
    | true => exact .stopped x hpc hs
    | false => exact .accepted x hpc hs
  | storing x =>
    simp only [threadPoolSubmit, hpc, Option.some.injEq] at h
    exact h ▸ .store x hpc
  | signalling =>
    simp only [threadPoolSubmit, hpc, Option.map_eq_some_iff] at h
    obtain ⟨asleep, hw, rfl⟩ := h
    exact .signal asleep hpc (condSignal_subset hw)
  | unlocking =>
    simp only [threadPoolSubmit, hpc, Option.some.injEq] at h
    exact h ▸ .unlock hpc
  | refusing x =>
    simp only [threadPoolSubmit, hpc, Option.some.injEq] at h
    exact h ▸ .refuse x hpc
  | dropping x =>
    simp only [threadPoolSubmit, hpc] at h
    cases hd : x.task.droppable with
    | true =>
      rw [hd, if_pos rfl, Option.some.injEq] at h
      exact h ▸ .drop x hpc hd
    | false =>
      rw [hd, if_neg Bool.false_ne_true, Option.some.injEq] at h
      exact h ▸ .forget x hpc hd
  | inDrop x =>
    simp only [threadPoolSubmit, hpc, Option.some.injEq] at h
    exact h ▸ .dropped x hpc

theorem threadPoolDestroy_step (h : threadPoolDestroy pool = some pool') :
    DestroyStep pool pool' := by
  cases hpc : pool.destroyer with
  | notCalled =>
    simp only [threadPoolDestroy, hpc, Option.some.injEq] at h
    exact h ▸ .stop hpc
  | stopStored =>
    simp only [threadPoolDestroy, hpc, Option.some.injEq] at h
    exact h ▸ .wakeWorkers hpc
  | emptyBroadcast =>
    simp only [threadPoolDestroy, hpc, Option.some.injEq] at h
    exact h ▸ .wakeProducers hpc
  | joining i =>
    simp only [threadPoolDestroy, hpc] at h
    by_cases hi : i < pool.numThreads
    · rw [if_pos hi, Option.ite_none_right_eq_some, Option.some.injEq] at h
      exact h.2 ▸ .join i hpc hi h.1
    · rw [if_neg hi, Option.some.injEq] at h
      exact h ▸ .finish i hpc (not_lt.mp hi)
  | destroyed => simp only [threadPoolDestroy, hpc, reduceCtorEq] at h

theorem exec_step {l : Label} (h : exec cap pool l = some pool') : Step cap pool l pool' := by
  cases l with
  | call p task =>
    simp only [exec, Option.ite_none_right_eq_some, Option.some.injEq] at h
    exact h.2 ▸ .call p task h.1
  | submit p wakes => exact .submit p wakes (threadPoolSubmit_step h)
  | work i wakes =>
    simp only [exec, Option.ite_none_right_eq_some] at h
    exact .work i wakes h.1 (workerLoop_step h.2)
  | destroy => exact .destroy (threadPoolDestroy_step h)
  | spuriousWorker i =>
    simp only [exec, Option.ite_none_right_eq_some, Option.some.injEq] at h
    exact h.2 ▸ .spuriousWorker i h.1
  | spuriousProducer p =>
    simp only [exec, Option.ite_none_right_eq_some, Option.some.injEq] at h
    exact h.2 ▸ .spuriousProducer p h.1

end LocalMarks.Pool
