import LocalMarks.Lib.Dispatch
import LocalMarks.ThreadPool.Queue

/-!
# What becomes of a task

The pool is a dispatcher: every submission is with the thread that submits it, in the queue,
with a worker that has not called it yet, or was run or turned away, once.
-/

namespace LocalMarks.Pool
open LocalMarks.Lib

/-- The task a worker took and has not called. -/
def WorkerPc.task : WorkerPc → Option Submission
  | .signalling x | .unlocking x | .calling x => some x
  | _ => none

/-- The task a producer has neither queued nor given up. -/
def ProducerPc.task : ProducerPc → Option Submission
  | .locking x | .testing x | .sleeping x | .waiting x | .checking x | .storing x
  | .refusing x | .dropping x => some x
  | .idle | .signalling | .unlocking | .inDrop _ => none

def ThreadPool.dispatch (cap : ℕ) (pool : ThreadPool) : Dispatch Submission where
  submitted := pool.submitted
  entering := fun p => (pool.producer p).task
  waiting := pool.contents cap
  handed := fun i => (pool.worker i).task
  served := pool.ran
  refused := pool.discarded

variable {cap i p : ℕ} {pool pool' : ThreadPool}

theorem task_atWorker (pool : ThreadPool) (i : ℕ) (pc : WorkerPc) :
    (fun j => ((pool.atWorker i pc).worker j).task) =
      Function.update (fun j => (pool.worker j).task) i pc.task := by
  funext j
  by_cases hj : j = i
  · simp [ThreadPool.atWorker, hj]
  · simp [ThreadPool.atWorker, Function.update_of_ne hj]

theorem task_atProducer (pool : ThreadPool) (p : ℕ) (pc : ProducerPc) :
    (fun q => ((pool.atProducer p pc).producer q).task) =
      Function.update (fun q => (pool.producer q).task) p pc.task := by
  funext q
  by_cases hq : q = p
  · simp [ThreadPool.atProducer, hq]
  · simp [ThreadPool.atProducer, Function.update_of_ne hq]

theorem handed_same {pc : WorkerPc} (hpc : pc.task = (pool.worker i).task) :
    (fun j => ((pool.atWorker i pc).worker j).task) = fun j => (pool.worker j).task := by
  rw [task_atWorker, hpc]
  exact Function.update_eq_self i _

theorem entering_same {pc : ProducerPc} (hpc : pc.task = (pool.producer p).task) :
    (fun q => ((pool.atProducer p pc).producer q).task) = fun q => (pool.producer q).task := by
  rw [task_atProducer, hpc]
  exact Function.update_eq_self p _

theorem workerStep_dispatch (h : WorkerStep cap i pool pool') (hi : Inv cap pool)
    (hq : QueueInv cap pool) :
    pool'.dispatch cap = pool.dispatch cap ∨
      (pool.dispatch cap).Move (pool'.dispatch cap) := by
  cases h with
  | lock hpc | empty hpc | ready hpc | sleep hpc | wake hpc | drained hpc | stocked hpc
  | leave hpc | signal x _ hpc | unlock x hpc | done x hpc =>
    refine .inl (Dispatch.ext rfl rfl rfl ?_ rfl rfl)
    exact handed_same (congrArg WorkerPc.task hpc).symm
  | take hpc =>
    have hpos := count_pos_of_taking hi hq hpc
    refine .inr ?_
    have hmove := Dispatch.Move.hand (d := pool.dispatch cap) i (pool.queue pool.head) _
      (contents_take ({ pool with
        head := (pool.head + 1) % cap, count := pool.count - 1 } : ThreadPool) hq hpos rfl rfl rfl)
      (congrArg WorkerPc.task hpc)
    convert hmove using 1
    exact Dispatch.ext rfl rfl rfl (task_atWorker _ i _) rfl rfl
  | call x hpc =>
    refine .inr ?_
    have hmove := Dispatch.Move.serve (d := pool.dispatch cap) i x (congrArg WorkerPc.task hpc)
    convert hmove using 1
    exact Dispatch.ext rfl rfl rfl (task_atWorker _ i _) rfl rfl

theorem submitStep_dispatch (h : SubmitStep cap p pool pool') (hi : Inv cap pool)
    (hq : QueueInv cap pool) :
    pool'.dispatch cap = pool.dispatch cap ∨
      (pool.dispatch cap).Move (pool'.dispatch cap) := by
  cases h with
  | lock x hpc | full x hpc | ready x hpc | sleep x hpc | wake x hpc | stopped x hpc
  | accepted x hpc | signal _ hpc | unlock hpc | refuse x hpc | dropped x hpc =>
    refine .inl (Dispatch.ext rfl ?_ rfl rfl rfl rfl)
    exact entering_same (congrArg ProducerPc.task hpc).symm
  | store x hpc =>
    refine .inr ?_
    have hmove := Dispatch.Move.enqueue (d := pool.dispatch cap) p x
      (congrArg ProducerPc.task hpc)
    convert hmove using 1
    exact Dispatch.ext rfl (task_atProducer _ p _)
      (contents_store hq (count_lt_of_storing hi hq hpc) rfl rfl rfl) rfl rfl rfl
  | drop x hpc | forget x hpc =>
    refine .inr ?_
    have hmove := Dispatch.Move.refuse (d := pool.dispatch cap) p x
      (congrArg ProducerPc.task hpc)
    convert hmove using 1
    exact Dispatch.ext rfl (task_atProducer _ p _) rfl rfl rfl rfl

/-- What is known of the calls: their numbers, who made them, and that one thread's tasks are
queued in the order of its calls. -/
structure CallInv (pool : ThreadPool) : Prop where
  fresh : ∀ x ∈ pool.submitted, x.call < pool.submitted.length
  queued : ∀ x ∈ pool.enqueued, x ∈ pool.submitted
  entering : ∀ p x, (pool.producer p).task = some x → x ∈ pool.submitted ∧ x.caller = p ∧
    ∀ y ∈ pool.enqueued, y.caller = p → y.call < x.call
  sorted : pool.enqueued.Pairwise fun x y => x.caller = y.caller → x.call < y.call

inductive CallStep (pool pool' : ThreadPool) : Prop where
  | same (hs : pool'.submitted = pool.submitted) (he : pool'.enqueued = pool.enqueued)
      (ht : ∀ p x, (pool'.producer p).task = some x → (pool.producer p).task = some x)
  | call (p : ℕ) (task : ThreadTask)
      (hs : pool'.submitted = pool.submitted ++ [pool.nextCall p task])
      (he : pool'.enqueued = pool.enqueued)
      (ht : ∀ q x, (pool'.producer q).task = some x →
        q = p ∧ x = pool.nextCall p task ∨ (pool.producer q).task = some x)
  | store (p : ℕ) (x : Submission) (hp : (pool.producer p).task = some x)
      (hs : pool'.submitted = pool.submitted) (he : pool'.enqueued = pool.enqueued ++ [x])
      (ht : ∀ q y, (pool'.producer q).task = some y → q ≠ p ∧ (pool.producer q).task = some y)

theorem task_of_atProducer {pc : ProducerPc} (hpc : pc.task = (pool.producer p).task ∨
    pc.task = none) (q : ℕ) (x : Submission)
    (h : ((pool.atProducer p pc).producer q).task = some x) :
    (pool.producer q).task = some x := by
  have htask := congrFun (task_atProducer pool p pc) q
  rw [h] at htask
  by_cases hq : q = p
  · rw [hq, Function.update_self] at htask
    rcases hpc with hsame | hnone
    · rw [hq, ← hsame, ← htask]
    · rw [hnone] at htask
      cases htask
  · rw [Function.update_of_ne hq] at htask
    exact htask.symm

theorem step_call {l : Label} (h : Step cap pool l pool') : CallStep pool pool' := by
  cases h with
  | call p task hpc =>
    refine .call p task rfl rfl fun q x hx => ?_
    by_cases hq : q = p
    · subst hq
      simp only [ThreadPool.atProducer, Function.update_self, ProducerPc.task,
        Option.some.injEq] at hx
      exact .inl ⟨rfl, hx.symm⟩
    · simp only [ThreadPool.atProducer, Function.update_of_ne hq] at hx
      exact .inr hx
  | submit p _ h =>
    cases h with
    | lock x hpc | full x hpc | ready x hpc | sleep x hpc | wake x hpc | stopped x hpc
    | accepted x hpc | signal _ hpc | unlock hpc | refuse x hpc | dropped x hpc =>
      exact .same rfl rfl
        (task_of_atProducer (.inl (congrArg ProducerPc.task hpc).symm))
    | drop x hpc | forget x hpc => exact .same rfl rfl (task_of_atProducer (.inr rfl))
    | store x hpc =>
      refine .store p x (congrArg ProducerPc.task hpc) rfl rfl fun q y hy => ?_
      have hqp : q ≠ p := by
        rintro rfl
        simp [ThreadPool.atProducer, ProducerPc.task] at hy
      exact ⟨hqp, task_of_atProducer (.inr rfl) q y hy⟩
  | work i _ _ h => cases h <;> exact .same rfl rfl fun _ _ hx => hx
  | destroy h => cases h <;> exact .same rfl rfl fun _ _ hx => hx
  | spuriousWorker _ _ | spuriousProducer _ _ => exact .same rfl rfl fun _ _ hx => hx

theorem callStep_inv (h : CallStep pool pool') (hc : CallInv pool) : CallInv pool' := by
  cases h with
  | same hs he ht =>
    refine ⟨?_, ?_, fun p x hx => ?_, ?_⟩
    · rw [hs]
      exact hc.fresh
    · rw [hs, he]
      exact hc.queued
    · rw [hs, he]
      exact hc.entering p x (ht p x hx)
    · rw [he]
      exact hc.sorted
  | call p task hs he ht =>
    have hlen : pool'.submitted.length = pool.submitted.length + 1 := by rw [hs]; simp
    refine ⟨fun x hx => ?_, fun x hx => ?_, fun q x hx => ?_, he ▸ hc.sorted⟩
    · rw [hs, List.mem_append, List.mem_singleton] at hx
      rcases hx with hx | rfl
      · exact hlen ▸ Nat.lt_succ_of_lt (hc.fresh x hx)
      · exact hlen ▸ Nat.lt_succ_self _
    · rw [he] at hx
      exact hs ▸ List.mem_append_left _ (hc.queued x hx)
    · rw [hs, he]
      rcases ht q x hx with ⟨rfl, rfl⟩ | hold
      · refine ⟨by simp, rfl, fun y hy _ => hc.fresh y (hc.queued y hy)⟩
      · obtain ⟨hmem, hcaller, hlater⟩ := hc.entering q x hold
        exact ⟨List.mem_append_left _ hmem, hcaller, hlater⟩
  | store p x hp hs he ht =>
    obtain ⟨hmem, hcaller, hlater⟩ := hc.entering p x hp
    refine ⟨hs ▸ hc.fresh, fun y hy => ?_, fun q y hy => ?_, ?_⟩
    · rw [he, List.mem_append, List.mem_singleton] at hy
      rcases hy with hy | rfl
      · exact hs ▸ hc.queued y hy
      · exact hs ▸ hmem
    · obtain ⟨hqp, hold⟩ := ht q y hy
      obtain ⟨hmem', hcaller', hlater'⟩ := hc.entering q y hold
      refine ⟨hs ▸ hmem', hcaller', fun z hz hzq => ?_⟩
      rw [he, List.mem_append, List.mem_singleton] at hz
      rcases hz with hz | rfl
      · exact hlater' z hz hzq
      · exact absurd (hzq.symm.trans hcaller) hqp
    · rw [he, List.pairwise_append]
      refine ⟨hc.sorted, List.pairwise_singleton _ _, fun y hy z hz hyz => ?_⟩
      rw [List.mem_singleton] at hz
      subst hz
      exact hlater y hy (hyz.trans hcaller)

theorem newPool_callInv (n : ℕ) : CallInv (newPool n) where
  fresh := fun _ hx => nomatch hx
  queued := fun _ hx => nomatch hx
  entering := fun _ _ hx => nomatch hx
  sorted := List.Pairwise.nil

theorem reachable_callInv {n : ℕ} (h : Reachable cap n pool) : CallInv pool :=
  h.invariant (fun _ hs => hs ▸ newPool_callInv n) fun _ _ _ _ hc hst =>
    callStep_inv (step_call (exec_step hst)) hc

/-! ### One step of the pool is at most one move of the dispatcher -/

theorem step_dispatch {l : Label} (h : Step cap pool l pool') (hi : Inv cap pool)
    (hq : QueueInv cap pool) (hc : CallInv pool) :
    pool'.dispatch cap = pool.dispatch cap ∨
      (pool.dispatch cap).Move (pool'.dispatch cap) := by
  cases h with
  | call p task hpc =>
    have hnew : pool.nextCall p task ∉ pool.submitted := fun hx =>
      absurd (hc.fresh _ hx) (lt_irrefl _)
    have hmove := Dispatch.Move.submit (d := pool.dispatch cap) p (pool.nextCall p task) hnew
      (congrArg ProducerPc.task hpc)
    refine .inr ?_
    convert hmove using 1
    exact Dispatch.ext rfl (task_atProducer _ p _) rfl rfl rfl rfl
  | submit p _ h => exact submitStep_dispatch h hi hq
  | work i _ _ h => exact workerStep_dispatch h hi hq
  | destroy h => cases h <;> exact .inl rfl
  | spuriousWorker _ _ | spuriousProducer _ _ => exact .inl rfl

theorem newPool_placed (cap n : ℕ) :
    ((newPool n).dispatch cap).Placed fun _ => .nowhere := by
  refine ⟨fun x => ?_, fun p x => ?_, fun x => ?_, fun i x => ?_, fun x => ?_, fun x => ?_⟩ <;>
    simp [ThreadPool.dispatch, newPool, ProducerPc.task, WorkerPc.task, ThreadPool.contents]

theorem reachable_placed {n : ℕ} (h : Reachable cap n pool) :
    ∃ place, (pool.dispatch cap).Placed place := by
  refine h.invariant (I := fun pool => ∃ place, (pool.dispatch cap).Placed place)
    (fun _ hs => hs ▸ ⟨_, newPool_placed cap n⟩) fun s _ s' hr hplaced hst => ?_
  obtain ⟨place, hd⟩ := hplaced
  rcases step_dispatch (exec_step hst) (reachable_inv hr) (reachable_queueInv hr)
    (reachable_callInv hr) with hsame | hmove
  · exact ⟨place, hsame.symm ▸ hd⟩
  · exact hd.move hmove

/-- `drop_func` is called for a refused task that has both a `drop_func` and an argument. -/
theorem reachable_dropCalls {n : ℕ} (h : Reachable cap n pool) :
    pool.dropCalls = pool.discarded.filter fun x => x.task.droppable := by
  refine h.invariant
    (I := fun pool => pool.dropCalls = pool.discarded.filter fun x => x.task.droppable)
    (fun _ hs => hs ▸ rfl) fun s _ s' _ heq hst => ?_
  cases exec_step hst with
  | submit p _ h =>
    cases h with
    | drop x _ hd => simp [ThreadPool.atProducer, heq, hd]
    | forget x _ hd => simp [ThreadPool.atProducer, heq, hd]
    | _ => exact heq
  | work i _ _ h => cases h <;> exact heq
  | destroy h => cases h <;> exact heq
  | call _ _ _ | spuriousWorker _ _ | spuriousProducer _ _ => exact heq

end LocalMarks.Pool
