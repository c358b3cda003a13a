import LocalMarks.ThreadPool.Invariant

/-!
# The circular buffer is a queue

The slots from `head` are what was queued and not yet taken, oldest first, through every
wrap-around.
-/

namespace LocalMarks.Pool
open LocalMarks.Lib

def ThreadPool.contents (cap : ℕ) (pool : ThreadPool) : List Submission :=
  window pool.queue cap pool.head pool.count.toNat

/-- The indices agree with each other and with the history. -/
structure QueueInv (cap : ℕ) (pool : ThreadPool) : Prop where
  nonneg : 0 ≤ pool.count
  bounded : pool.count ≤ cap
  head : pool.head % cap = pool.head
  tail : pool.tail = (pool.head + pool.count.toNat) % cap
  history : pool.enqueued = pool.dequeued ++ pool.contents cap

inductive QueueStep (cap : ℕ) (pool pool' : ThreadPool) : Prop where
  | same (hq : pool'.queue = pool.queue) (hh : pool'.head = pool.head)
      (ht : pool'.tail = pool.tail) (hc : pool'.count = pool.count)
      (he : pool'.enqueued = pool.enqueued) (hd : pool'.dequeued = pool.dequeued)
  | store (p : ℕ) (x : Submission) (hpc : pool.producer p = .storing x)
      (hq : pool'.queue = Function.update pool.queue pool.tail x) (hh : pool'.head = pool.head)
      (ht : pool'.tail = (pool.tail + 1) % cap) (hc : pool'.count = pool.count + 1)
      (he : pool'.enqueued = pool.enqueued ++ [x]) (hd : pool'.dequeued = pool.dequeued)
  | take (i : ℕ) (hpc : pool.worker i = .taking)
      (hq : pool'.queue = pool.queue) (hh : pool'.head = (pool.head + 1) % cap)
      (ht : pool'.tail = pool.tail) (hc : pool'.count = pool.count - 1)
      (he : pool'.enqueued = pool.enqueued)
      (hd : pool'.dequeued = pool.dequeued ++ [pool.queue pool.head])

variable {cap : ℕ} {pool pool' : ThreadPool}

theorem step_queue {l : Label} (h : Step cap pool l pool') : QueueStep cap pool pool' := by
  cases h with
  | submit p _ h =>
    cases h with
    | store x hpc => exact .store p x hpc rfl rfl rfl rfl rfl rfl
    | _ => exact .same rfl rfl rfl rfl rfl rfl
  | work i _ _ h =>
    cases h with
    | take hpc => exact .take i hpc rfl rfl rfl rfl rfl rfl
    | _ => exact .same rfl rfl rfl rfl rfl rfl
  | destroy h => cases h <;> exact .same rfl rfl rfl rfl rfl rfl
  | call _ _ _ | spuriousWorker _ _ | spuriousProducer _ _ =>
    exact .same rfl rfl rfl rfl rfl rfl

theorem count_lt_of_storing {p : ℕ} {x : Submission} (hi : Inv cap pool)
    (hq : QueueInv cap pool) (hpc : pool.producer p = .storing x) : pool.count < cap := by
  have hknows := hi.producer p
  rw [hpc] at hknows
  exact lt_of_le_of_ne hq.bounded hknows

theorem count_pos_of_taking {i : ℕ} (hi : Inv cap pool) (hq : QueueInv cap pool)
    (hpc : pool.worker i = .taking) : 0 < pool.count := by
  have hknows := hi.worker i
  rw [hpc] at hknows
  exact lt_of_le_of_ne hq.nonneg (Ne.symm hknows)

/-- A store writes the first free slot: nothing that waits is overwritten. -/
theorem contents_store {x : Submission} (hinv : QueueInv cap pool) (hlt : pool.count < cap)
    (hq : pool'.queue = Function.update pool.queue pool.tail x) (hh : pool'.head = pool.head)
    (hc : pool'.count = pool.count + 1) :
    pool'.contents cap = pool.contents cap ++ [x] := by
  have hn := hinv.nonneg
  have hsucc : (pool.count + 1).toNat = pool.count.toNat + 1 := by omega
  rw [ThreadPool.contents, hq, hh, hc, hsucc, hinv.tail,
    window_push pool.queue pool.head x (by omega), ThreadPool.contents]

theorem contents_take (pool' : ThreadPool) (hinv : QueueInv cap pool) (hpos : 0 < pool.count)
    (hq : pool'.queue = pool.queue) (hh : pool'.head = (pool.head + 1) % cap)
    (hc : pool'.count = pool.count - 1) :
    pool.contents cap = pool.queue pool.head :: pool'.contents cap := by
  have hsucc : pool.count.toNat = (pool.count - 1).toNat + 1 := by omega
  rw [ThreadPool.contents, ThreadPool.contents, hq, hh, hc, hsucc, window_pop, hinv.head]

theorem contents_same (hq : pool'.queue = pool.queue) (hh : pool'.head = pool.head)
    (hc : pool'.count = pool.count) : pool'.contents cap = pool.contents cap := by
  rw [ThreadPool.contents, ThreadPool.contents, hq, hh, hc]

theorem queueStep_inv (h : QueueStep cap pool pool') (hi : Inv cap pool)
    (hinv : QueueInv cap pool) : QueueInv cap pool' := by
  cases h with
  | same hq hh ht hc he hd =>
    refine ⟨?_, ?_, ?_, ?_, ?_⟩
    · exact hc ▸ hinv.nonneg
    · exact hc ▸ hinv.bounded
    · exact hh ▸ hinv.head
    · rw [ht, hh, hc]
      exact hinv.tail
    · rw [he, hd, contents_same hq hh hc]
      exact hinv.history
  | store p x hpc hq hh ht hc he hd =>
    have hlt := count_lt_of_storing hi hinv hpc
    have hn := hinv.nonneg
    refine ⟨by omega, by omega, hh ▸ hinv.head, ?_, ?_⟩
    · have hsucc : (pool.count + 1).toNat = pool.count.toNat + 1 := by omega
      rw [ht, hh, hc, hsucc, hinv.tail, Nat.mod_add_mod, Nat.add_assoc]
    · rw [he, hd, contents_store hinv hlt hq hh hc, hinv.history, List.append_assoc]
  | take i hpc hq hh ht hc he hd =>
    have hpos := count_pos_of_taking hi hinv hpc
    have hb := hinv.bounded
    refine ⟨by omega, by omega, ?_, ?_, ?_⟩
    · rw [hh, Nat.mod_mod]
    · have hsucc : pool.count.toNat = 1 + (pool.count - 1).toNat := by omega
      rw [ht, hh, hc, hinv.tail, hsucc, Nat.mod_add_mod, Nat.add_assoc]
    · rw [he, hd, hinv.history, contents_take pool' hinv hpos hq hh hc, List.append_assoc,
        List.singleton_append]

theorem newPool_queueInv (cap n : ℕ) : QueueInv cap (newPool n) where
  nonneg := le_refl 0
  bounded := Int.natCast_nonneg cap
  head := Nat.zero_mod cap
  tail := (Nat.zero_mod cap).symm
  history := rfl

theorem reachable_queueInv {n : ℕ} (h : Reachable cap n pool) : QueueInv cap pool :=
  h.invariant (fun _ hs => hs ▸ newPool_queueInv cap n) fun _ _ _ hr hi hst =>
    queueStep_inv (step_queue (exec_step hst)) (reachable_inv hr) hi

theorem dequeued_isPrefix {n : ℕ} (h : Reachable cap n pool) :
    pool.dequeued <+: pool.enqueued :=
  ⟨pool.contents cap, (reachable_queueInv h).history.symm⟩

end LocalMarks.Pool
