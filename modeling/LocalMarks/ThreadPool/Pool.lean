import LocalMarks.Lib.Mutex
import LocalMarks.Lib.Reach
import LocalMarks.Lib.Ring
import Mathlib.Data.Finset.Basic

/-!
# The thread pool, one locked step at a time

`worker_loop`, `thread_pool_submit` and `thread_pool_destroy` as threads that take turns: every
access to the mutex, to a condition variable and to `stop` is a step of its own. Workers are
numbered from 0 to `num_threads - 1`; producers are any number of other threads.
-/

namespace LocalMarks.Pool
open LocalMarks.Lib

/-- `func` is an address; `drop_func` and `arg` may be NULL. -/
structure ThreadTask where
  func : ℕ
  dropFunc : Option ℕ
  arg : Option ℕ
  deriving DecidableEq, Repr

/-- A task as one call of `thread_pool_submit` gave it: equal tasks of different calls differ
in the number of the call. -/
structure Submission where
  call : ℕ
  caller : ℕ
  task : ThreadTask
  deriving DecidableEq, Repr

/-- `drop_func && arg` -/
def ThreadTask.droppable (task : ThreadTask) : Bool := task.dropFunc.isSome && task.arg.isSome

inductive WorkerPc where
  | locking
  | testing
  | sleeping
  | waiting
  | checking
  | leaving
  | taking
  | signalling (x : Submission)
  | unlocking (x : Submission)
  | calling (x : Submission)
  | running (x : Submission)
  | exited
  deriving DecidableEq

inductive ProducerPc where
  | idle
  | locking (x : Submission)
  | testing (x : Submission)
  | sleeping (x : Submission)
  | waiting (x : Submission)
  | checking (x : Submission)
  | storing (x : Submission)
  | signalling
  | unlocking
  | refusing (x : Submission)
  | dropping (x : Submission)
  | inDrop (x : Submission)
  deriving DecidableEq

inductive DestroyPc where
  | notCalled
  | stopStored
  | emptyBroadcast
  | joining (i : ℕ)
  | destroyed
  deriving DecidableEq

/-- A thread that may have the lock. -/
inductive Tid where
  | worker (i : ℕ)
  | producer (p : ℕ)
  deriving DecidableEq

/-- The pool, the program points of all threads, and the history of the calls so far.
`notEmpty` and `notFull` are the threads asleep on the condition variables. -/
structure ThreadPool where
  numThreads : ℕ
  queue : ℕ → Submission
  head : ℕ
  tail : ℕ
  count : ℤ
  lock : Option Tid
  notEmpty : Finset ℕ
  notFull : Finset ℕ
  stop : Bool
  worker : ℕ → WorkerPc
  producer : ℕ → ProducerPc
  destroyer : DestroyPc
  submitted : List Submission
  enqueued : List Submission
  dequeued : List Submission
  ran : List Submission
  discarded : List Submission
  dropCalls : List Submission

/-- `thread_pool_create`: between 1 and 256 workers. -/
def clampThreads (numThreads : ℤ) : ℕ :=
  if numThreads < 1 then 1 else if numThreads > 256 then 256 else numThreads.toNat

def newPool (numThreads : ℕ) : ThreadPool where
  numThreads := numThreads
  queue := fun _ => ⟨0, 0, ⟨0, none, none⟩⟩
  head := 0
  tail := 0
  count := 0
  lock := none
  notEmpty := ∅
  notFull := ∅
  stop := false
  worker := fun _ => .locking
  producer := fun _ => .idle
  destroyer := .notCalled
  submitted := []
  enqueued := []
  dequeued := []
  ran := []
  discarded := []
  dropCalls := []

namespace ThreadPool

def atWorker (pool : ThreadPool) (i : ℕ) (pc : WorkerPc) : ThreadPool :=
  { pool with worker := Function.update pool.worker i pc }

def atProducer (pool : ThreadPool) (p : ℕ) (pc : ProducerPc) : ThreadPool :=
  { pool with producer := Function.update pool.producer p pc }

def withLock (pool : ThreadPool) (lock : Option Tid) : ThreadPool := { pool with lock := lock }

/-- The next call of `thread_pool_submit`. -/
def nextCall (pool : ThreadPool) (p : ℕ) (task : ThreadTask) : Submission :=
  ⟨pool.submitted.length, p, task⟩

end ThreadPool

/-- `pthread_cond_signal` wakes a sleeper when there is one. -/
def condSignal (asleep : Finset ℕ) : Option ℕ → Option (Finset ℕ)
  | none => if asleep = ∅ then some ∅ else none
  | some w => if w ∈ asleep then some (asleep.erase w) else none

/-- The next step of worker `i`; `wakes` is the sleeper its signal picks. A thread that was
woken has the lock again before `pthread_cond_wait` returns. -/
def workerLoop (cap i : ℕ) (wakes : Option ℕ) (pool : ThreadPool) : Option ThreadPool :=
  match pool.worker i with
  | .locking =>
    if pool.lock = none then some ((pool.withLock (some (.worker i))).atWorker i .testing)
    else none
  | .testing =>
    some (pool.atWorker i (if pool.count = 0 ∧ pool.stop = false then .sleeping else .checking))
  | .sleeping =>
    some ({ pool.withLock none with notEmpty := insert i pool.notEmpty }.atWorker i .waiting)
  | .waiting =>
    if i ∉ pool.notEmpty ∧ pool.lock = none then
      some ((pool.withLock (some (.worker i))).atWorker i .testing)
    else none
  | .checking =>
    some (pool.atWorker i (if pool.count = 0 ∧ pool.stop = true then .leaving else .taking))
  | .leaving => some ((pool.withLock none).atWorker i .exited)
  | .taking =>
    let task := pool.queue pool.head
    some ({ pool with
      head := (pool.head + 1) % cap
      count := pool.count - 1
      dequeued := pool.dequeued ++ [task] }.atWorker i (.signalling task))
  | .signalling x => (condSignal pool.notFull wakes).map fun asleep =>
    { pool with notFull := asleep }.atWorker i (.unlocking x)
  | .unlocking x => some ((pool.withLock none).atWorker i (.calling x))
  | .calling x => some ({ pool with ran := pool.ran ++ [x] }.atWorker i (.running x))
  | .running _ => some (pool.atWorker i .locking)
  | .exited => none

/-- The next step of producer `p` inside `thread_pool_submit`. -/
def threadPoolSubmit (cap p : ℕ) (wakes : Option ℕ) (pool : ThreadPool) : Option ThreadPool :=
  match pool.producer p with
  | .idle => none
  | .locking x =>
    if pool.lock = none then
      some ((pool.withLock (some (.producer p))).atProducer p (.testing x))
    else none
  | .testing x =>
    some (pool.atProducer p
      (if pool.count = cap ∧ pool.stop = false then .sleeping x else .checking x))
  | .sleeping x =>
    some ({ pool.withLock none with notFull := insert p pool.notFull }.atProducer p (.waiting x))
  | .waiting x =>
    if p ∉ pool.notFull ∧ pool.lock = none then
      some ((pool.withLock (some (.producer p))).atProducer p (.testing x))
    else none
  | .checking x => some (pool.atProducer p (if pool.stop = true then .refusing x else .storing x))
  | .storing x =>
    some ({ pool with
      queue := Function.update pool.queue pool.tail x
      tail := (pool.tail + 1) % cap
      count := pool.count + 1
      enqueued := pool.enqueued ++ [x] }.atProducer p .signalling)
  | .signalling => (condSignal pool.notEmpty wakes).map fun asleep =>
    { pool with notEmpty := asleep }.atProducer p .unlocking
  | .unlocking => some ((pool.withLock none).atProducer p .idle)
  | .refusing x => some ((pool.withLock none).atProducer p (.dropping x))
  | .dropping x =>
    if x.task.droppable then
      some ({ pool with
        discarded := pool.discarded ++ [x]
        dropCalls := pool.dropCalls ++ [x] }.atProducer p (.inDrop x))
    else some ({ pool with discarded := pool.discarded ++ [x] }.atProducer p .idle)
  | .inDrop _ => some (pool.atProducer p .idle)

/-- The next step of `thread_pool_destroy`. -/
def threadPoolDestroy (pool : ThreadPool) : Option ThreadPool :=
  match pool.destroyer with
  | .notCalled => some { pool with stop := true, destroyer := .stopStored }
  | .stopStored => some { pool with notEmpty := ∅, destroyer := .emptyBroadcast }
  | .emptyBroadcast => some { pool with notFull := ∅, destroyer := .joining 0 }
  | .joining i =>
    if i < pool.numThreads then
      if pool.worker i = .exited then some { pool with destroyer := .joining (i + 1) } else none
    else some { pool with destroyer := .destroyed }
  | .destroyed => none

inductive Label where
  | call (p : ℕ) (task : ThreadTask)
  | submit (p : ℕ) (wakes : Option ℕ)
  | work (i : ℕ) (wakes : Option ℕ)
  | destroy
  | spuriousWorker (i : ℕ)
  | spuriousProducer (p : ℕ)
  deriving DecidableEq

/-- One step of the pool. `pthread_cond_wait` may also return though nobody signalled. -/
def exec (cap : ℕ) (pool : ThreadPool) : Label → Option ThreadPool
  | .call p task =>
    if pool.producer p = .idle then
      let x := pool.nextCall p task
      some ({ pool with submitted := pool.submitted ++ [x] }.atProducer p (.locking x))
    else none
  | .submit p wakes => threadPoolSubmit cap p wakes pool
  | .work i wakes => if i < pool.numThreads then workerLoop cap i wakes pool else none
  | .destroy => threadPoolDestroy pool
  | .spuriousWorker i =>
    if i ∈ pool.notEmpty then some { pool with notEmpty := pool.notEmpty.erase i } else none
  | .spuriousProducer p =>
    if p ∈ pool.notFull then some { pool with notFull := pool.notFull.erase p } else none

/-- Reachable from the pool just created, for any queue capacity. -/
def Reachable (cap numThreads : ℕ) : ThreadPool → Prop :=
  Reach (fun pool => pool = newPool numThreads) (StepOf (exec cap))

end LocalMarks.Pool
