import LocalMarks.Server.Releases

/-!
# The books of the jobs

For each of the three calls that release a job, a job is in the hands of the accept loop, in
the queue or in the hands of a worker until the call is made for it. The limiter's sums are
the admitted jobs whose `ratelimit_leave` is still to come.
-/

namespace LocalMarks.Server.Jobs
open LocalMarks.Lib LocalMarks.Pool
open LocalMarks.Limiter (RateLimit AcceptEnv ratelimitAccept ratelimitLeave freshLimiter ipSum
  ratelimitAccept_ipSum ratelimitLeave_ipSum)

/-- The job a release function has in hand as long as its call of stage `k` is to come. -/
def Frame.job (k : Stage) : Frame → Option ℕ
  | .serving job => some job
  | .releasing stage job => if stage.rank ≤ k.rank then some job else Option.none
  | .none | .returned => Option.none

def workerJob (k : Stage) (s : ServerState) (i : ℕ) : Option ℕ :=
  ((s.pool.worker i).task.map jobOf).or ((s.handlers i).job k)

/-- Inside `thread_pool_submit`, which includes `client_job_drop`. -/
def submitJob (k : Stage) (s : ServerState) : Option ℕ :=
  ((s.pool.producer 0).task.map jobOf).or (s.dropFrame.job k)

def mainJob (k : Stage) (s : ServerState) : Option ℕ :=
  match s.main with
  | .submitting c => some c
  | _ => submitJob k s

/-- The server as a dispatcher of its jobs, for the calls of stage `k`. -/
def ServerState.jobs (cap : ℕ) (k : Stage) (s : ServerState) : Dispatch ℕ where
  submitted := s.admitted
  entering := fun p => if p = 0 then mainJob k s else none
  waiting := (s.pool.contents cap).map jobOf
  handed := workerJob k s
  served := s.done .handler k
  refused := s.done .dropper k

variable {cap n i : ℕ} {maxConns : ℤ} {k : Stage} {s s' : ServerState}

theorem mainJob_eq (h : ∀ c, s.main ≠ .submitting c) : mainJob k s = submitJob k s := by
  unfold mainJob
  split
  · rename_i c hc
    exact absurd hc (h c)
  · rfl

theorem entering_update (v w : Option ℕ) :
    (fun p : ℕ => if p = 0 then w else none) =
      Function.update (fun p => if p = 0 then v else none) 0 w := by
  funext p
  by_cases hp : p = 0
  · subst hp
    simp
  · simp [Function.update_of_ne, hp]

theorem workerJob_update (hw : ∀ j, j ≠ i → s'.pool.worker j = s.pool.worker j)
    (hh : ∀ j, j ≠ i → s'.handlers j = s.handlers j) :
    workerJob k s' = Function.update (workerJob k s) i (workerJob k s' i) := by
  funext j
  by_cases hji : j = i
  · subst hji
    rw [Function.update_self]
  · rw [Function.update_of_ne hji, workerJob, workerJob, hw j hji, hh j hji]

theorem workerJob_same (hw : ∀ j, j ≠ i → s'.pool.worker j = s.pool.worker j)
    (hh : ∀ j, j ≠ i → s'.handlers j = s.handlers j)
    (hi : workerJob k s' i = workerJob k s i) : workerJob k s' = workerJob k s := by
  rw [workerJob_update hw hh, hi]
  exact Function.update_eq_self i _

theorem jobs_same (ha : s'.admitted = s.admitted) (hm : mainJob k s' = mainJob k s)
    (hc : s'.pool.contents cap = s.pool.contents cap) (hw : workerJob k s' = workerJob k s)
    (hh : s'.done .handler k = s.done .handler k) (hd : s'.done .dropper k = s.done .dropper k) :
    s'.jobs cap k = s.jobs cap k := by
  simp only [ServerState.jobs, ha, hm, hc, hw, hh, hd]

theorem handler_ne : Releaser.handler ≠ .acceptLoop := by decide

theorem dropper_ne : Releaser.dropper ≠ .acceptLoop := by decide

/-- What the accept loop closes and frees by itself is nothing the release functions did. -/
theorem letGo_done (s : ServerState) (stage st : Stage) (c : ℕ) (pc : MainPc) {w : Releaser}
    (hw : w ≠ .acceptLoop) : ((s.log .acceptLoop stage c).goto pc).done w st = s.done w st :=
  if_neg fun h => hw h.1

theorem mainStep_jobs (hst : MainStep cap s s') (hsync : Synced s) (hconn : ConnInv s) :
    s'.jobs cap k = s.jobs cap k ∨ (s.jobs cap k).Move (s'.jobs cap k) := by
  have hquiet : s'.pool = s.pool → s'.handlers = s.handlers → s'.dropFrame = s.dropFrame →
      s'.admitted = s.admitted → s'.done .handler k = s.done .handler k →
      s'.done .dropper k = s.done .dropper k → (∀ c, s.main ≠ .submitting c) →
      (∀ c, s'.main ≠ .submitting c) → s'.jobs cap k = s.jobs cap k := by
    intro hp hh hd ha hdh hdd hm hm'
    have hmain : mainJob k s' = mainJob k s := by
      rw [mainJob_eq hm, mainJob_eq hm', submitJob, submitJob, hp, hd]
    have hwork : workerJob k s' = workerJob k s := by
      funext j
      rw [workerJob, workerJob, hp, hh]
    exact jobs_same ha hmain (hp ▸ rfl) hwork hdh hdd
  cases hst with
  | idle pc hs hpc =>
    refine .inl (hquiet rfl rfl rfl rfl rfl rfl ?_ ?_)
    · rcases hs with hs | hs | hs <;> simp [hs]
    · rcases hpc with rfl | rfl | rfl | rfl <;> simp [ServerState.goto]
  | carryOn c pc hs =>
    refine .inl (hquiet rfl rfl rfl rfl rfl rfl ?_ ?_)
    · rcases hs with hs | hs | hs <;> simp [hs.1]
    · rcases hs with ⟨-, rfl⟩ | ⟨-, rfl⟩ | ⟨-, rfl⟩ <;> simp [ServerState.goto]
  | giveUp c pc hs hpc =>
    refine .inl (hquiet rfl rfl rfl rfl (letGo_done s .close k c pc handler_ne)
      (letGo_done s .close k c pc dropper_ne) ?_ ?_)
    · rcases hs with hs | hs | hs | hs <;> simp [hs]
    · rcases hpc with rfl | rfl <;> simp [ServerState.goto]
  | accepted hs | allocate _ _ hs | reject _ _ hs | submitted hs | finish hs =>
    exact .inl (hquiet rfl rfl rfl rfl rfl rfl (by simp [hs]) (by simp [ServerState.goto]))
  | close _ hs | free _ hs =>
    exact .inl (hquiet rfl rfl rfl rfl (letGo_done s _ k _ _ handler_ne)
      (letGo_done s _ k _ _ dropper_ne) (by simp [hs]) (by simp [ServerState.goto]))
  | takeIn c env hs hr =>
    have hidle : s.pool.producer 0 = .idle := hsync.outside (by simp [hs])
    have hnone : s.dropFrame = .none := hsync.noDrop (by simp [hidle])
    have hfree : mainJob k s = none := by
      rw [mainJob_eq (by simp [hs]), submitJob, hidle, hnone]
      rfl
    have hmove := Dispatch.Move.submit (d := s.jobs cap k) 0 c
      (hconn.fresh c (by rw [hs]; rfl)).2.1 (by simp only [ServerState.jobs, hfree, ite_self])
    refine .inr ?_
    convert hmove using 1
    exact Dispatch.ext rfl (entering_update (mainJob k s) (some c)) rfl rfl rfl rfl
  | submit c pool hs hcall =>
    cases exec_step hcall with
    | call p task hpc =>
      refine .inl (jobs_same rfl ?_ rfl rfl rfl rfl)
      simp [mainJob, hs, ServerState.goto, submitJob, ThreadPool.atProducer, ProducerPc.task,
        jobOf, ThreadPool.nextCall, clientTask]

/-- The steps of `thread_pool_submit` that leave the task with the caller. -/
theorem submitStep_jobs {pool : ThreadPool} (h : SubmitStep cap 0 s.pool pool)
    (hs : s.main = .inSubmit) (hdrop : ∀ x, s.pool.producer 0 ≠ .dropping x)
    (hin : ∀ x, s.pool.producer 0 ≠ .inDrop x) (hsync : Synced s) (hi : Inv cap s.pool)
    (hq : QueueInv cap s.pool) :
    ({ s with pool := pool } : ServerState).jobs cap k = s.jobs cap k ∨
      (s.jobs cap k).Move (({ s with pool := pool } : ServerState).jobs cap k) := by
  have hnone : s.dropFrame = .none := hsync.noDrop hin
  have hmain : mainJob k s = (s.pool.producer 0).task.map jobOf := by
    rw [mainJob_eq (by simp [hs]), submitJob, hnone]
    exact Option.or_none
  have hmain' : mainJob k ({ s with pool := pool } : ServerState) =
      (pool.producer 0).task.map jobOf := by
    rw [mainJob_eq (by simp [hs]), submitJob]
    change ((pool.producer 0).task.map jobOf).or (s.dropFrame.job k) = _
    rw [hnone]
    exact Option.or_none
  cases h with
  | lock x hpc | full x hpc | ready x hpc | sleep x hpc | wake x hpc | stopped x hpc
  | accepted x hpc | signal _ hpc | unlock hpc | refuse x hpc =>
    refine .inl (jobs_same rfl ?_ rfl rfl rfl rfl)
    rw [hmain, hmain', hpc]
    simp only [ThreadPool.atProducer, Function.update_self, ProducerPc.task]
  | drop x hpc | forget x hpc => exact absurd hpc (hdrop x)
  | dropped x hpc => exact absurd hpc (hin x)
  | store x hpc =>
    have hhas : mainJob k s = some (jobOf x) := by
      rw [hmain, hpc]
      rfl
    have hmove := Dispatch.Move.enqueue (d := s.jobs cap k) 0 (jobOf x)
      (by simp only [ServerState.jobs, hhas, ite_true])
    refine .inr ?_
    convert hmove using 1
    refine Dispatch.ext rfl ?_ ?_ rfl rfl rfl
    · simp only [ServerState.jobs]
      rw [hmain', entering_update (mainJob k s)]
      simp only [ThreadPool.atProducer, Function.update_self, ProducerPc.task, Option.map_none]
    · refine (congrArg (List.map jobOf) (contents_store (x := x) hq
        (count_lt_of_storing hi hq hpc) ?_ ?_ ?_)).trans (List.map_append ..) <;> rfl

theorem workerStep_jobs {pool : ThreadPool} (h : WorkerStep cap i s.pool pool)
    (hcall : ∀ x, s.pool.worker i ≠ .calling x) (hrun : ∀ x, s.pool.worker i ≠ .running x)
    (hsync : Synced s) (hi : Inv cap s.pool) (hq : QueueInv cap s.pool) :
    ({ s with pool := pool } : ServerState).jobs cap k = s.jobs cap k ∨
      (s.jobs cap k).Move (({ s with pool := pool } : ServerState).jobs cap k) := by
  have hnone : s.handlers i = .none := hsync.noHandler hrun
  obtain ⟨hp, -, -, hother⟩ := workerStep_frame h
  have hmain : mainJob k ({ s with pool := pool } : ServerState) = mainJob k s := by
    unfold mainJob submitJob
    rw [hp]
  have hupd : workerJob k ({ s with pool := pool } : ServerState) = Function.update
      (workerJob k s) i (workerJob k ({ s with pool := pool } : ServerState) i) :=
    workerJob_update hother fun _ _ => rfl
  have hstay : (pool.worker i).task = (s.pool.worker i).task →
      workerJob k ({ s with pool := pool } : ServerState) = workerJob k s := fun htask =>
    workerJob_same hother (fun _ _ => rfl) (by simp only [workerJob, htask])
  cases h with
  | lock hpc | empty hpc | ready hpc | sleep hpc | wake hpc | drained hpc | stocked hpc
  | leave hpc | signal x _ hpc | unlock x hpc =>
    refine .inl (jobs_same rfl hmain rfl (hstay ?_) rfl rfl)
    rw [hpc]
    simp only [ThreadPool.atWorker, Function.update_self, WorkerPc.task]
  | call x hpc => exact absurd hpc (hcall x)
  | done x hpc => exact absurd hpc (hrun x)
  | take hpc =>
    have hpos := count_pos_of_taking hi hq hpc
    have hfree : workerJob k s i = none := by
      rw [workerJob, hpc, hnone]
      rfl
    have hline := contents_take ({ s.pool with
        head := (s.pool.head + 1) % cap, count := s.pool.count - 1 } : ThreadPool) hq hpos
      rfl rfl rfl
    have hmove := Dispatch.Move.hand (d := s.jobs cap k) i (jobOf (s.pool.queue s.pool.head)) _
      (congrArg (List.map jobOf) hline) hfree
    refine .inr ?_
    convert hmove using 1
    refine Dispatch.ext rfl ?_ rfl ?_ rfl rfl
    · simp only [ServerState.jobs, hmain]
    · refine hupd.trans ?_
      simp only [ServerState.jobs]
      congr 1
      simp only [workerJob, ThreadPool.atWorker, Function.update_self, WorkerPc.task,
        Option.map_some, Option.some_or]

theorem poolStep_jobs (hst : PoolStep cap s s') (hsync : Synced s) (hi : Inv cap s.pool)
    (hq : QueueInv cap s.pool)
    (hx : ∀ x, (s.pool.producer 0).task = some x → x ∈ s.pool.submitted) :
    s'.jobs cap k = s.jobs cap k ∨ (s.jobs cap k).Move (s'.jobs cap k) := by
  cases hst with
  | submit pool hs h hdrop hin => exact submitStep_jobs h hs hdrop hin hsync hi hq
  | work i pool h hcall hrun => exact workerStep_jobs h hcall hrun hsync hi hq
  | forget x hs hpc hd =>
    rw [hsync.droppable hx hpc] at hd
    cases hd
  | drop x hs hpc hd =>
    -- the job passes from `thread_pool_submit` to `client_job_drop`
    refine .inl (jobs_same rfl ?_ rfl rfl rfl rfl)
    rw [mainJob_eq (by simp [hs]), mainJob_eq (by simp [hs]), submitJob, submitJob, hpc]
    simp only [ThreadPool.atProducer, Function.update_self, ProducerPc.task, Option.map_none,
      Option.map_some, Option.none_or, Option.some_or, Frame.job, Stage.rank, Nat.zero_le, if_true]
  | dropped x hs hpc hf =>
    refine .inl (jobs_same rfl ?_ rfl rfl rfl rfl)
    rw [mainJob_eq (by simp [hs]), mainJob_eq (by simp [hs]), submitJob, submitJob, hpc, hf]
    simp only [ThreadPool.atProducer, Function.update_self, ProducerPc.task, Option.map_none,
      Option.none_or, Frame.job]
  | call i x hpc =>
    -- the job passes from the worker's hands to `handle_client`
    refine .inl (jobs_same rfl rfl rfl ?_ rfl rfl)
    refine workerJob_same (i := i) (fun j hj => Function.update_of_ne hj _ _)
      (fun j hj => Function.update_of_ne hj _ _) ?_
    simp only [workerJob, ServerState.atHandler, ThreadPool.atWorker, Function.update_self, hpc,
      WorkerPc.task, Option.map_none, Option.map_some, Option.none_or, Option.some_or, Frame.job]
  | done i x hpc hf =>
    refine .inl (jobs_same rfl rfl rfl ?_ rfl rfl)
    refine workerJob_same (i := i) (fun j hj => Function.update_of_ne hj _ _)
      (fun j hj => Function.update_of_ne hj _ _) ?_
    simp only [workerJob, ServerState.atHandler, ThreadPool.atWorker, Function.update_self, hpc, hf,
      WorkerPc.task, Option.map_none, Option.none_or, Frame.job]
  | destroy pool hs hd =>
    obtain ⟨hp, -, hw⟩ := destroyStep_frame hd
    have hc : pool.contents cap = s.pool.contents cap := by cases hd <;> rfl
    refine .inl (jobs_same rfl ?_ hc ?_ rfl rfl)
    · unfold mainJob submitJob
      rw [hp]
    · funext j
      unfold workerJob
      rw [hw]
  | spurious _ _ => exact .inl rfl

theorem job_after (k stage : Stage) (job : ℕ) :
    Frame.job k (.releasing stage job) = (if stage.rank ≤ k.rank then some job else none) ∧
      Frame.job k (.after job stage) =
        if k = stage then none else Frame.job k (.releasing stage job) := by
  cases k <;> cases stage <;> exact ⟨rfl, rfl⟩

theorem handle_jobs {stage : Stage} {job : ℕ} (now : ℤ) (hsync : Synced s)
    (hf : s.handlers i = .releasing stage job) :
    ((s.release .handler stage job now).atHandler i (.after job stage)).jobs cap k =
        s.jobs cap k ∨
      (s.jobs cap k).Move
        (((s.release .handler stage job now).atHandler i (.after job stage)).jobs cap k) := by
  obtain ⟨x, hrun⟩ := hsync.handlers i (by simp [hf])
  have hbefore : workerJob k s i = Frame.job k (.releasing stage job) := by
    rw [workerJob, hrun, hf]
    rfl
  have hafter : workerJob k ((s.release .handler stage job now).atHandler i (.after job stage)) i =
      Frame.job k (.after job stage) := by
    simp only [workerJob, ServerState.atHandler, release_pool, hrun, WorkerPc.task, Option.map_none,
      Option.none_or, Function.update_self]
  have hother : workerJob k ((s.release .handler stage job now).atHandler i (.after job stage)) =
      Function.update (workerJob k s) i (Frame.job k (.after job stage)) := by
    rw [← hafter]
    refine workerJob_update (fun j _ => ?_) fun j hj => ?_
    · simp only [ServerState.atHandler, release_pool]
    · simp only [ServerState.atHandler, release_handlers, Function.update_of_ne hj]
  have hmain : mainJob k ((s.release .handler stage job now).atHandler i (.after job stage)) =
      mainJob k s := by
    simp only [mainJob, submitJob, ServerState.atHandler, release_main, release_pool,
      release_dropFrame]
  have hdone : ∀ w, ((s.release .handler stage job now).atHandler i (.after job stage)).done w k =
      if w = .handler ∧ k = stage then s.done w k ++ [job] else s.done w k := fun w =>
    release_done s .handler w stage k job now
  by_cases hk : k = stage
  · subst hk
    have hhas : workerJob k s i = some job := by
      rw [hbefore, (job_after k k job).1, if_pos (le_refl _)]
    have hmove := Dispatch.Move.serve (d := s.jobs cap k) i job hhas
    refine .inr ?_
    convert hmove using 1
    refine Dispatch.ext ?_ ?_ ?_ ?_ ?_ ?_
    · simp only [ServerState.jobs, ServerState.atHandler, release_admitted]
    · simp only [ServerState.jobs, hmain]
    · simp only [ServerState.jobs, ServerState.atHandler, release_pool]
    · simp only [ServerState.jobs]
      rw [hother, (job_after k k job).2, if_pos rfl]
    · simp only [ServerState.jobs]
      rw [hdone, if_pos ⟨rfl, rfl⟩]
    · simp only [ServerState.jobs]
      rw [hdone, if_neg fun h => (by cases h.1)]
  · refine .inl (jobs_same ?_ hmain ?_ ?_ ?_ ?_)
    · simp only [ServerState.atHandler, release_admitted]
    · simp only [ServerState.atHandler, release_pool]
    · rw [hother, (job_after k stage job).2, if_neg hk, ← hbefore]
      exact Function.update_eq_self i _
    · rw [hdone, if_neg fun h => hk h.2]
    · rw [hdone, if_neg fun h => hk h.2]

theorem drop_jobs {stage : Stage} {job : ℕ} (now : ℤ) (hsync : Synced s)
    (hf : s.dropFrame = .releasing stage job) :
    ({ s.release .dropper stage job now with dropFrame := .after job stage } :
        ServerState).jobs cap k = s.jobs cap k ∨
      (s.jobs cap k).Move (({ s.release .dropper stage job now with
        dropFrame := .after job stage } : ServerState).jobs cap k) := by
  obtain ⟨x, hin⟩ := hsync.dropFrame (by simp [hf])
  have hs : s.main = .inSubmit := hsync.inSubmit (by simp [hf])
  generalize hgen : ({ s.release .dropper stage job now with dropFrame := .after job stage } :
    ServerState) = t
  have hpool : t.pool = s.pool := by rw [← hgen, release_pool]
  have hbefore : mainJob k s = Frame.job k (.releasing stage job) := by
    rw [mainJob_eq (by simp [hs]), submitJob, hin, hf]
    rfl
  have hafter : mainJob k t = Frame.job k (.after job stage) := by
    rw [mainJob_eq (by simp [← hgen, hs]), submitJob, hpool, hin, ← hgen]
    rfl
  have hwork : workerJob k t = workerJob k s := by
    funext j
    rw [workerJob, workerJob, hpool, ← hgen, release_handlers]
  have hdone : ∀ w, t.done w k =
      if w = .dropper ∧ k = stage then s.done w k ++ [job] else s.done w k := fun w => by
    rw [← hgen]
    exact release_done s .dropper w stage k job now
  have hadm : t.admitted = s.admitted := by rw [← hgen, release_admitted]
  by_cases hk : k = stage
  · subst hk
    have hhas : mainJob k s = some job := by
      rw [hbefore, (job_after k k job).1, if_pos (le_refl _)]
    have hmove := Dispatch.Move.refuse (d := s.jobs cap k) 0 job
      (by simp only [ServerState.jobs, hhas, ite_true])
    refine .inr ?_
    convert hmove using 1
    refine Dispatch.ext hadm ?_ (by simp only [ServerState.jobs, hpool]) hwork ?_ ?_
    · simp only [ServerState.jobs]
      rw [hafter, (job_after k k job).2, if_pos rfl, entering_update (mainJob k s)]
    · simp only [ServerState.jobs]
      rw [hdone, if_neg fun h => (by cases h.1)]
    · simp only [ServerState.jobs]
      rw [hdone, if_pos ⟨rfl, rfl⟩]
  · refine .inl (jobs_same hadm ?_ (by rw [hpool]) hwork ?_ ?_)
    · rw [hafter, (job_after k stage job).2, if_neg hk, ← hbefore]
    · rw [hdone, if_neg fun h => hk h.2]
    · rw [hdone, if_neg fun h => hk h.2]

theorem serverStep_jobs (hst : ServerStep cap s s') (hsync : Synced s) (hconn : ConnInv s)
    (hi : Inv cap s.pool) (hq : QueueInv cap s.pool)
    (hx : ∀ x, (s.pool.producer 0).task = some x → x ∈ s.pool.submitted) :
    s'.jobs cap k = s.jobs cap k ∨ (s.jobs cap k).Move (s'.jobs cap k) := by
  cases hst with
  | signal => exact .inl rfl
  | main h => exact mainStep_jobs h hsync hconn
  | pool h => exact poolStep_jobs h hsync hi hq hx
  | served i job hf =>
    refine .inl (jobs_same rfl rfl rfl ?_ rfl rfl)
    refine workerJob_same (i := i) (fun _ _ => rfl) (fun j hj => Function.update_of_ne hj _ _) ?_
    simp only [workerJob, ServerState.atHandler, Function.update_self, hf, Frame.job, Stage.rank,
      Nat.zero_le, if_true]
  | handle i stage job now hf => exact handle_jobs now hsync hf
  | drop stage job now hf => exact drop_jobs now hsync hf

end LocalMarks.Server.Jobs
